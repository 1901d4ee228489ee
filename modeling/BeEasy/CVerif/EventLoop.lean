import Mathlib.Logic.Relation

/-!
# CVerif — EventLoop

Runs of programs that react to the outside world. Two views are kept:

* a deterministic loop that consumes one outside event a turn
  (`Progress`, `feed`), with `EveryStep` saying that a property holds of
  every turn of a run, and `after` where an endless supply of events
  leads, and
* a transition relation, whose reachable states are Mathlib's
  `Relation.ReflTransGen`.

The rules at the bottom of each section are the only inductions over runs
a client needs: a client proves facts about one turn.
-/

namespace CVerif

/-- Where a loop stands between two turns: still looping, returned with a
result, or stopped by a fault that leaves its behaviour undefined. -/
inductive Progress (σ ρ φ : Type) where
  | running (s : σ)
  | returned (s : σ) (r : ρ)
  | faulted (f : φ)

section Turns

variable {σ ρ φ ε : Type}

/-- The state of a loop, unless a fault took it. -/
def Progress.state? : Progress σ ρ φ → Option σ
  | .running s => some s
  | .returned s _ => some s
  | .faulted _ => none

/-- One event delivered to the loop. A loop that returned or faulted reads
no further event. -/
def feed (turn : σ → ε → Progress σ ρ φ) : Progress σ ρ φ → ε → Progress σ ρ φ
  | .running s, e => turn s e
  | p, _ => p

@[simp] theorem feed_running (turn : σ → ε → Progress σ ρ φ) (s : σ) (e : ε) :
    feed turn (.running s) e = turn s e := rfl

@[simp] theorem feed_returned (turn : σ → ε → Progress σ ρ φ) (s : σ) (r : ρ) (e : ε) :
    feed turn (.returned s r) e = .returned s r := rfl

@[simp] theorem feed_faulted (turn : σ → ε → Progress σ ρ φ) (f : φ) (e : ε) :
    feed turn (.faulted f) e = .faulted f := rfl

/-- A condition on the state before a turn and its event, asked only while
the loop is running. -/
def WhileRunning (P : σ → ε → Prop) : Progress σ ρ φ → ε → Prop
  | .running s, e => P s e
  | _, _ => True

end Turns

section Runs

variable {σ ε : Type} {step : σ → ε → σ} {I : σ → Prop} {P Q : σ → ε → Prop}

/-- `Q` holds of every step the run over `es` takes from `s`: of the state
before the step and the event it consumes. -/
def EveryStep (step : σ → ε → σ) (Q : σ → ε → Prop) : σ → List ε → Prop
  | _, [] => True
  | s, e :: es => Q s e ∧ EveryStep step Q (step s e) es

/-- An invariant that steps meeting `P` keep holds where the run ends. -/
theorem everyStep_keeps (keeps : ∀ s e, I s → P s e → I (step s e)) {s : σ} (hs : I s)
    {es : List ε} (h : EveryStep step P s es) : I (es.foldl step s) := by
  induction es generalizing s with
  | nil => exact hs
  | cons e es ih => exact ih (keeps s e hs h.1) h.2

/-- **The run rule**: under an invariant that steps meeting `P` keep, two
step properties that agree on invariant states agree on whole runs. -/
theorem everyStep_congr (keeps : ∀ s e, I s → P s e → I (step s e))
    (agree : ∀ s e, I s → (Q s e ↔ P s e)) {s : σ} (hs : I s) (es : List ε) :
    EveryStep step Q s es ↔ EveryStep step P s es := by
  induction es generalizing s with
  | nil => exact Iff.rfl
  | cons e es ih =>
      simp only [EveryStep]
      constructor
      · rintro ⟨hq, hrest⟩
        have hp := (agree s e hs).mp hq
        exact ⟨hp, (ih (keeps s e hs hp)).mp hrest⟩
      · rintro ⟨hp, hrest⟩
        exact ⟨(agree s e hs).mpr hp, (ih (keeps s e hs hp)).mpr hrest⟩

end Runs

section Loops

variable {σ ρ φ ε : Type} {turn : σ → ε → Progress σ ρ φ} {I : σ → Prop}
  {P : σ → ε → Prop} {Good : Progress σ ρ φ → Prop}

/-- `Good` holds wherever the loop stands after any turn of the run. -/
def AfterEveryTurn (turn : σ → ε → Progress σ ρ φ) (Good : Progress σ ρ φ → Prop)
    (s : σ) (es : List ε) : Prop :=
  EveryStep (feed turn) (fun p e => Good (feed turn p e)) (.running s) es

/-- `P` holds of the state and the event at the start of every turn the
loop really takes: once it has returned, nothing more is asked. -/
def BeforeEveryTurn (turn : σ → ε → Progress σ ρ φ) (P : σ → ε → Prop)
    (s : σ) (es : List ε) : Prop :=
  EveryStep (feed turn) (WhileRunning P) (.running s) es

/-- **The loop rule**: if under the invariant a turn ends well exactly when
it starts with `P`, then all of a run ends well exactly when all its turns
start with `P`. -/
theorem afterEveryTurn_iff (keeps : ∀ s e t, I s → P s e → turn s e = .running t → I t)
    (agree : ∀ s e, I s → (Good (turn s e) ↔ P s e)) {s : σ} (hs : I s) (es : List ε) :
    AfterEveryTurn turn Good s es ↔ BeforeEveryTurn turn P s es := by
  -- the invariant of a loop that may have stopped: it stopped well
  let J : Progress σ ρ φ → Prop := fun p => match p with
    | .running t => I t
    | q => Good q
  refine everyStep_congr (I := J) ?_ ?_ hs es
  · intro p e hp hP
    cases p with
    | running t =>
        have hgood := (agree t e hp).mpr hP
        rw [feed_running]
        cases h : turn t e with
        | running u => exact keeps t e u hp hP h
        | returned u r => rw [h] at hgood; exact hgood
        | faulted f => rw [h] at hgood; exact hgood
    | returned t r => exact hp
    | faulted f => exact hp
  · intro p e hp
    cases p with
    | running t => exact agree t e hp
    | returned t r => exact iff_of_true hp trivial
    | faulted f => exact iff_of_true hp trivial

/-- One turn that starts badly spoils the run. -/
theorem not_afterEveryTurn (agree : ∀ s e, I s → (Good (turn s e) ↔ P s e)) {s : σ} {e : ε}
    (hs : I s) (h : ¬ P s e) (es : List ε) : ¬ AfterEveryTurn turn Good s (e :: es) := by
  intro hrun
  exact h ((agree s e hs).mp hrun.1)

theorem not_afterEveryTurn_later {s t : σ} {e : ε} {es : List ε} (hturn : turn s e = .running t)
    (h : ¬ AfterEveryTurn turn Good t es) : ¬ AfterEveryTurn turn Good s (e :: es) := by
  intro ⟨_, hrest⟩
  rw [feed_running, hturn] at hrest
  exact h hrest

end Loops

section Sequences

variable {σ ρ φ ε : Type} {turn : σ → ε → Progress σ ρ φ} {I In : σ → Prop} {μ : σ → Nat}
  {P : ε → Prop}

/-- Where a loop stands after the first `n` events of an endless supply. -/
def after (turn : σ → ε → Progress σ ρ φ) (s : σ) (evs : Nat → ε) : Nat → Progress σ ρ φ
  | 0 => .running s
  | n + 1 => feed turn (after turn s evs n) (evs n)

theorem after_succ {s t : σ} {evs : Nat → ε} {n : Nat} (h : after turn s evs n = .running t) :
    after turn s evs (n + 1) = turn t (evs n) := by
  rw [after, h, feed_running]

/-- A loop that has returned did so in one of its turns. -/
theorem after_returned {s t : σ} {r : ρ} {evs : Nat → ε} {n : Nat}
    (h : after turn s evs n = .returned t r) :
    ∃ m u, after turn s evs m = .running u ∧ turn u (evs m) = .returned t r := by
  induction n with
  | zero => cases h
  | succ n ih =>
      rw [after] at h
      cases hn : after turn s evs n with
      | running u =>
          rw [hn, feed_running] at h
          exact ⟨n, u, hn, h⟩
      | returned u q =>
          rw [hn, feed_returned] at h
          exact ih (hn.trans h)
      | faulted f =>
          rw [hn, feed_faulted] at h
          cases h

/-- A property that the start has and every turn keeps holds after any
number of events. -/
theorem after_keeps {J : Progress σ ρ φ → Prop}
    (keeps : ∀ s e, P e → J (.running s) → J (turn s e)) {s : σ} (hs : J (.running s))
    (evs : Nat → ε) (hP : ∀ n, P (evs n)) (n : Nat) : J (after turn s evs n) := by
  induction n with
  | zero => exact hs
  | succ n ih =>
      rw [after]
      generalize after turn s evs n = p at ih
      cases p with
      | running t =>
          rw [feed_running]
          exact keeps t (evs n) (hP n) ih
      | returned t r =>
          rw [feed_returned]
          exact ih
      | faulted f =>
          rw [feed_faulted]
          exact ih

/-- The same where the events do not matter. -/
theorem after_invariant {J : Progress σ ρ φ → Prop}
    (keeps : ∀ s e, J (.running s) → J (turn s e)) {s : σ} (hs : J (.running s))
    (evs : Nat → ε) (n : Nat) : J (after turn s evs n) :=
  after_keeps (P := fun _ => True) (fun s e _ => keeps s e) hs evs (fun _ => trivial) n

/-- A loop that is no longer running stays where it is. -/
theorem after_stopped {s : σ} {evs : Nat → ε} {n : Nat}
    (h : ∀ t, after turn s evs n ≠ .running t) {m : Nat} (hm : n ≤ m) :
    after turn s evs m = after turn s evs n := by
  induction hm with
  | refl => rfl
  | step _ ih =>
      rw [after, ih]
      cases hn : after turn s evs n with
      | running t => exact absurd hn (h t)
      | returned t r => exact feed_returned ..
      | faulted f => exact feed_faulted ..

/-- An invariant of the turns that run on holds as long as the loop runs. -/
theorem after_running_keeps (keeps : ∀ s e t, I s → turn s e = .running t → I t) {s t : σ}
    (hs : I s) {evs : Nat → ε} {n : Nat} (h : after turn s evs n = .running t) : I t := by
  let J : Progress σ ρ φ → Prop := fun p => ∀ u, p = .running u → I u
  have hJ : J (after turn s evs n) := by
    apply after_invariant (J := J)
    · intro u e hu v hv
      exact keeps u e v (hu u rfl) hv
    · intro u hu
      cases hu
      exact hs
  exact hJ t h

/-- What holds after a turn exactly when it held before and the turn meets `Q`
has the turn after `n` others in its condition, if there is one. -/
theorem after_succ_iff {J : Progress σ ρ φ → Prop} {Q : σ → ε → Prop} {s : σ} {evs : Nat → ε}
    {n : Nat} (agree : ∀ t, after turn s evs n = .running t →
      (J (turn t (evs n)) ↔ J (.running t) ∧ Q t (evs n))) :
    J (after turn s evs (n + 1)) ↔
      J (after turn s evs n) ∧ ∀ t, after turn s evs n = .running t → Q t (evs n) := by
  rw [after]
  cases hn : after turn s evs n with
  | running t =>
      rw [feed_running, agree t hn]
      refine and_congr_right fun _ => ⟨fun hQ u hu => ?_, fun hall => hall t rfl⟩
      cases hu
      exact hQ
  | returned t r =>
      rw [feed_returned]
      exact ⟨fun h => ⟨h, nofun⟩, fun h => h.1⟩
  | faulted f =>
      rw [feed_faulted]
      exact ⟨fun h => ⟨h, nofun⟩, fun h => h.1⟩

/-- **All went well exactly when every turn did**: what holds after a turn
exactly when it held before and the turn meets `Q` holds after `n` of them
exactly when it held at first and all of them met `Q`. -/
theorem after_iff {J : Progress σ ρ φ → Prop} {Q : σ → ε → Prop}
    (keeps : ∀ s e t, I s → turn s e = .running t → I t)
    (agree : ∀ s e, I s → (J (turn s e) ↔ J (.running s) ∧ Q s e)) {s : σ} (hs : I s)
    (evs : Nat → ε) (n : Nat) :
    J (after turn s evs n) ↔
      J (.running s) ∧ ∀ m < n, ∀ t, after turn s evs m = .running t → Q t (evs m) := by
  induction n with
  | zero => exact ⟨fun h => ⟨h, nofun⟩, fun h => h.1⟩
  | succ n ih =>
      rw [after_succ_iff fun t ht => agree t (evs n) (after_running_keeps keeps hs ht), ih]
      constructor
      · intro ⟨⟨hfirst, hall⟩, hn⟩
        refine ⟨hfirst, fun m hm t ht => ?_⟩
        rcases Nat.lt_succ_iff_lt_or_eq.mp hm with hlt | rfl
        · exact hall m hlt t ht
        · exact hn t ht
      · intro ⟨hfirst, hall⟩
        exact ⟨⟨hfirst, fun m hm => hall m (Nat.lt_succ_of_lt hm)⟩, hall n (Nat.lt_succ_self n)⟩

/-- **The loop is left**: every turn that stays inside lowers a measure. -/
theorem after_leaves (lowers : ∀ s e t, In s → P e → turn s e = .running t → In t → μ t < μ s)
    (s : σ) (evs : Nat → ε) (hP : ∀ n, P (evs n)) :
    ∃ n, ∀ t, after turn s evs n = .running t → ¬ In t := by
  apply Classical.byContradiction
  intro hnever
  have hinside : ∀ n, ∃ t, after turn s evs n = .running t ∧ In t := by
    intro n
    apply Classical.byContradiction
    intro hout
    exact hnever ⟨n, fun t ht hin => hout ⟨t, ht, hin⟩⟩
  -- after n turns inside the measure has gone down by n
  have bound : ∀ n t, after turn s evs n = .running t → μ t + n ≤ μ s := by
    intro n
    induction n with
    | zero =>
        intro t ht
        cases ht
        exact Nat.le_refl _
    | succ n ih =>
        intro u hu
        obtain ⟨t, ht, hin⟩ := hinside n
        obtain ⟨u', hu', hin'⟩ := hinside (n + 1)
        cases hu.symm.trans hu'
        have hlt := lowers t (evs n) u hin (hP n) (after_succ ht ▸ hu) hin'
        have hle := ih t ht
        omega
  obtain ⟨t, ht, _⟩ := hinside (μ s + 1)
  have := bound _ t ht
  omega

/-- **A fair loop arrives**: until it does, every turn runs on, none raises a
measure, and those of a kind that comes again and again lower it. -/
theorem after_arrives {Q : ε → Prop} {Arrived : Progress σ ρ φ → Prop}
    (moves : ∀ s e, I s → P e → Arrived (turn s e) ∨
      ∃ t, turn s e = .running t ∧ I t ∧ μ t ≤ μ s ∧ (Q e → μ t < μ s))
    {s : σ} (hs : I s) (evs : Nat → ε) (hP : ∀ n, P (evs n)) (fair : ∀ n, ∃ m, n ≤ m ∧ Q (evs m)) :
    ∃ n, Arrived (after turn s evs n) := by
  have waits : ∀ n t, after turn s evs n = .running t → I t → ∀ d,
      (∃ k, Arrived (after turn s evs k)) ∨
        ∃ u, after turn s evs (n + d) = .running u ∧ I u ∧ μ u ≤ μ t := by
    intro n t ht hI d
    induction d with
    | zero => exact .inr ⟨t, ht, hI, Nat.le_refl _⟩
    | succ d ih =>
        rcases ih with hdone | ⟨u, hu, hIu, hle⟩
        · exact .inl hdone
        rcases moves u (evs (n + d)) hIu (hP _) with hdone | ⟨v, hv, hIv, hle', _⟩
        · exact .inl ⟨n + d + 1, by rwa [after_succ hu]⟩
        · exact .inr ⟨v, (after_succ hu).trans hv, hIv, Nat.le_trans hle' hle⟩
  -- by induction on a bound for the measure, from one turn of the kind to the next
  have arrives : ∀ b n t, after turn s evs n = .running t → I t → μ t < b →
      ∃ k, Arrived (after turn s evs k) := by
    intro b
    induction b with
    | zero => intro n t _ _ hlt; exact absurd hlt (Nat.not_lt_zero _)
    | succ b ih =>
        intro n t ht hI hlt
        obtain ⟨m, hm, hQ⟩ := fair n
        rcases waits n t ht hI (m - n) with hdone | ⟨u, hu, hIu, hle⟩
        · exact hdone
        rw [Nat.add_sub_cancel' hm] at hu
        rcases moves u (evs m) hIu (hP m) with hdone | ⟨v, hv, hIv, _, hlow⟩
        · exact ⟨m + 1, by rwa [after_succ hu]⟩
        · exact ih (m + 1) v ((after_succ hu).trans hv) hIv (by have := hlow hQ; omega)
  exact arrives (μ s + 1) 0 s rfl hs (Nat.lt_succ_self _)

/-- **The loop goes on for ever**: every turn stays inside. -/
theorem after_stays (stays : ∀ s e, I s → P e → ∃ t, turn s e = .running t ∧ I t) {s : σ}
    (hs : I s) (evs : Nat → ε) (hP : ∀ n, P (evs n)) (n : Nat) :
    ∃ t, after turn s evs n = .running t ∧ I t := by
  induction n with
  | zero => exact ⟨s, rfl, hs⟩
  | succ n ih =>
      obtain ⟨t, ht, hI⟩ := ih
      rw [after_succ ht]
      exact stays t (evs n) hI (hP n)

end Sequences

section Histories

variable {α : Type} {R : List α → α → Prop}

/-- Every entry of a history stands in `R` to the entries before it. -/
def EachEntry (R : List α → α → Prop) (history : List α) : Prop :=
  ∀ before x after, history = before ++ x :: after → R before x

theorem eachEntry_nil : EachEntry R [] := by
  intro before x after h
  simp at h

/-- The histories of a loop grow at the end. -/
theorem eachEntry_concat {history : List α} {x : α} :
    EachEntry R (history ++ [x]) ↔ EachEntry R history ∧ R history x := by
  constructor
  · intro h
    refine ⟨?_, h history x [] rfl⟩
    intro before y after heq
    exact h before y (after ++ [x]) (by rw [heq]; simp)
  · intro ⟨hall, hlast⟩ before y after heq
    rcases List.eq_nil_or_concat after with hnil | ⟨after', z, hz⟩
    · subst hnil
      obtain ⟨hb, hy⟩ := List.append_inj' heq rfl
      cases hy
      exact hb ▸ hlast
    · subst hz
      rw [List.concat_eq_append, ← List.cons_append, ← List.append_assoc] at heq
      exact hall before y after' (List.append_inj_left' heq rfl)

end Histories

section Relations

variable {σ : Type} {Step : σ → σ → Prop} {I Final : σ → Prop} {μ : σ → Nat}

/-- An invariant of single steps holds in every reachable state. -/
theorem invariant_reachable (keeps : ∀ s t, I s → Step s t → I t) {s t : σ}
    (run : Relation.ReflTransGen Step s t) (hs : I s) : I t := by
  induction run with
  | refl => exact hs
  | tail _ hstep ih => exact keeps _ _ ih hstep

/-- **Forward simulation**: a relation to abstract states that every concrete
step preserves, along abstract steps, reaches along with the run. -/
theorem simulation_reachable {τ : Type} {Abs : τ → τ → Prop} {J : τ → Prop} {R : σ → τ → Prop}
    (keeps : ∀ u v, J u → Abs u v → J v)
    (simulates : ∀ s t u, J u → R s u → Step s t → ∃ v, Relation.ReflTransGen Abs u v ∧ R t v)
    {s t : σ} {u : τ} (run : Relation.ReflTransGen Step s t) (hu : J u) (hs : R s u) :
    ∃ v, Relation.ReflTransGen Abs u v ∧ J v ∧ R t v := by
  induction run with
  | refl => exact ⟨u, .refl, hu, hs⟩
  | tail _ hstep ih =>
      obtain ⟨v, huv, hv, hR⟩ := ih
      obtain ⟨w, hvw, hR'⟩ := simulates _ _ v hv hR hstep
      exact ⟨w, huv.trans hvw, invariant_reachable keeps hvw hv, hR'⟩

/-- **Termination with an outcome**: where every step from an invariant
state lowers a measure, and a state that cannot step is final, every
reachable state leads to a final one. -/
theorem reaches_final (keeps : ∀ s t, I s → Step s t → I t ∧ μ t < μ s)
    (moves : ∀ s, I s → Final s ∨ ∃ t, Step s t) {s : σ} (hs : I s) :
    ∃ t, Relation.ReflTransGen Step s t ∧ Final t := by
  induction hn : μ s using Nat.strongRecOn generalizing s with
  | ind n ih =>
      rcases moves s hs with hfin | ⟨t, hst⟩
      · exact ⟨s, .refl, hfin⟩
      · obtain ⟨ht, hlt⟩ := keeps s t hs hst
        obtain ⟨u, htu, hu⟩ := ih (μ t) (hn ▸ hlt) ht rfl
        exact ⟨u, .head hst htu, hu⟩

end Relations

end CVerif
