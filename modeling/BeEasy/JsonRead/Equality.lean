import BeEasy.JsonRead.Trees

/-!
# JsonRead — Equality

`cJSON_Compare` on items in memory. Two items that are not one are compared as
their trees are, since no item below the one is where the recursion would meet it
below the other; an item and itself are equal without a look at what is in it.
-/

namespace BeEasy

open CVerif

namespace JsonRead

/-! ## The recursion -/

/-- The items that a recursion has come down from to `p`, which are all above it. -/
structure Descent {D : Type} (m : Memory D) (kids : Nat → List Nat) (above : List Nat) (p : Nat) :
    Prop where
  nodup : above.Nodup
  live : ∀ x ∈ above, (m.at x).isSome = true
  above : ∀ x ∈ above, Relation.TransGen (fun c p => c ∈ kids p) p x

section Compare

variable {dbl : Doubles} {caseSensitive : Bool} {m : Memory dbl.Double} {kids : Nat → List Nat}

theorem Descent.start (p : Nat) : Descent m kids [] p :=
  ⟨List.nodup_nil, nofun, nofun⟩

theorem Descent.cons_nodup (h : Lists m kids) {above : List Nat} {p : Nat}
    (hp : Descent m kids above p) : (p :: above).Nodup :=
  List.nodup_cons.mpr ⟨fun hmem => h.forest.wf.transGen.irrefl.irrefl p (hp.above p hmem), hp.nodup⟩

theorem Descent.down (h : Lists m kids) {above : List Nat} {p c : Nat}
    (hp : Descent m kids above p) (hlive : (m.at p).isSome = true) (hc : c ∈ kids p) :
    Descent m kids (p :: above) c where
  nodup := hp.cons_nodup h
  live := List.forall_mem_cons.mpr ⟨hlive, hp.live⟩
  above := List.forall_mem_cons.mpr ⟨.single hc, fun x hx => .head hc (hp.above x hx)⟩

/-- No way down is longer than there are items. -/
theorem Descent.length_lt (h : Lists m kids) {above : List Nat} {p : Nat}
    (hp : Descent m kids above p) (hlive : (m.at p).isSome = true) :
    above.length < m.nodes.length :=
  length_le_nodes (hp.cons_nodup h) (List.forall_mem_cons.mpr ⟨hlive, hp.live⟩)

variable {equal : Nat → Nat → Except Stop Bool}

theorem compareLists_eq {before before' : Option Nat} {xs ys : List Nat}
    {as bs : List (Item dbl.Double)} (hx : (linksOf m).Linked before xs none)
    (hy : (linksOf m).Linked before' ys none) (has : List.Forall₂ (Shows m kids) xs as)
    (hbs : List.Forall₂ (Shows m kids) ys bs)
    (hequal : ∀ x ∈ xs, ∀ y ∈ ys, ∀ a b, Shows m kids x a → Shows m kids y b →
      equal x y = .ok (compare dbl caseSensitive a b))
    {rounds : Nat} (hrounds : xs.length < rounds) :
    compareLists dbl m equal rounds xs.head? ys.head?
      = .ok (compareElements dbl caseSensitive as bs) := by
  induction has generalizing before before' ys bs rounds with
  | nil =>
      obtain ⟨rounds, rfl⟩ := Nat.exists_eq_add_one_of_ne_zero (Nat.ne_zero_of_lt hrounds)
      cases hbs <;> simp [compareLists, compareElements, pure, Except.pure]
  | @cons x a xs as hxa _ ih =>
      obtain ⟨rounds, rfl⟩ := Nat.exists_eq_add_one_of_ne_zero (Nat.ne_zero_of_lt hrounds)
      cases hbs with
      | nil => simp [compareLists, compareElements, pure, Except.pure]
      | @cons y b ys bs hyb hbs =>
          have hfirst := hequal x List.mem_cons_self y List.mem_cons_self a b hxa hyb
          obtain ⟨n, hn, hnext, _⟩ := load_pointers hxa.owner.live
          obtain ⟨n', hn', hnext', _⟩ := load_pointers hyb.owner.live
          rw [hx.2.1, Option.or_none] at hnext
          rw [hy.2.1, Option.or_none] at hnext'
          rw [List.head?_cons, List.head?_cons, compareLists, compareElements, hfirst]
          simp only [bind, Except.bind]
          cases compare dbl caseSensitive a b with
          | false => rfl
          | true =>
              simp only [hn, hn', hnext, hnext', Bool.not_true, Bool.false_eq_true, if_false]
              exact ih hx.2.2 hy.2.2 hbs
                (fun x hx y hy => hequal x (List.mem_cons_of_mem _ hx) y
                  (List.mem_cons_of_mem _ hy))
                (Nat.lt_of_succ_lt_succ hrounds)

theorem compareNamed_eq (h : Lists m kids) {other : Nat} {b : Item dbl.Double}
    (hother : Shows m kids other b) {before : Option Nat} {xs : List Nat}
    {as : List (Item dbl.Double)} (hx : (linksOf m).Linked before xs none)
    (has : List.Forall₂ (Shows m kids) xs as)
    (hequal : ∀ x ∈ xs, ∀ y ∈ kids other, ∀ a b, Shows m kids x a → Shows m kids y b →
      equal x y = .ok (compare dbl caseSensitive a b))
    {rounds : Nat} (hrounds : xs.length < rounds) :
    compareNamed dbl m caseSensitive equal other rounds xs.head?
      = .ok (compareMembers dbl caseSensitive as b.child) := by
  induction has generalizing before rounds with
  | nil =>
      obtain ⟨rounds, rfl⟩ := Nat.exists_eq_add_one_of_ne_zero (Nat.ne_zero_of_lt hrounds)
      rw [compareMembers]
      rfl
  | @cons x a xs as hxa _ ih =>
      obtain ⟨rounds, rfl⟩ := Nat.exists_eq_add_one_of_ne_zero (Nat.ne_zero_of_lt hrounds)
      obtain ⟨n, hn⟩ := Option.isSome_iff_exists.mp hxa.owner.live
      have hnext := hx.2.1
      rw [linksOf_next hn, Option.or_none] at hnext
      have hname : n.string = a.string := by
        rw [← hxa.name, nameOf, hn, Option.bind_some]
      rw [List.head?_cons, compareNamed, Memory.load_eq hn, compareMembers_cons]
      simp only [bind, Except.bind, hname]
      obtain ⟨hrun, hlook⟩ | ⟨y, item, hrun, hlook, hy, hshows⟩ :=
        hother.look h a.string caseSensitive
      · rw [hrun, hlook]
        rfl
      · have hfirst := hequal x List.mem_cons_self y hy a item hxa hshows
        rw [hrun, hlook]
        simp only [hfirst]
        cases compare dbl caseSensitive a item with
        | false => rfl
        | true =>
            simp only [hnext, Bool.not_true, Bool.false_eq_true, if_false, Bool.true_and]
            exact ih hx.2.2 (fun x hx => hequal x (List.mem_cons_of_mem _ hx))
              (Nat.lt_of_succ_lt_succ hrounds)

/-- Of two items that are not one, no two children are. -/
theorem compareFrom_eq (h : Lists m kids) {rounds p q : Nat} {a b : Item dbl.Double}
    {above above' : List Nat} (hne : p ≠ q) (ha : Shows m kids p a) (hb : Shows m kids q b)
    (hp : Descent m kids above p) (hq : Descent m kids above' q)
    (hrounds : m.nodes.length ≤ above.length + rounds)
    (hrounds' : m.nodes.length ≤ above'.length + rounds) :
    compareFrom dbl m caseSensitive rounds p q = .ok (compare dbl caseSensitive a b) := by
  induction rounds generalizing p q a b above above' with
  | zero => exact absurd (hp.length_lt h ha.owner.live) (Nat.not_lt.mpr hrounds)
  | succ rounds ih =>
      have hdown : ∀ {p q : Nat} {above above' : List Nat}, p ≠ q → (m.at p).isSome = true →
          (m.at q).isSome = true → Descent m kids above p → Descent m kids above' q →
          m.nodes.length ≤ above.length + (rounds + 1) →
          m.nodes.length ≤ above'.length + (rounds + 1) →
          ∀ x ∈ kids p, ∀ y ∈ kids q, ∀ a b, Shows m kids x a → Shows m kids y b →
            compareFrom dbl m caseSensitive rounds x y = .ok (compare dbl caseSensitive a b) := by
        intro p q above above' hne hlive hlive' hp hq hle hle' x hx y hy a b ha hb
        refine ih (fun heq => hne ?_) ha hb (hp.down h hlive hx) (hq.down h hlive' hy) ?_ ?_
        · exact h.forest.unique hx (heq ▸ hy)
        · rw [List.length_cons]; omega
        · rw [List.length_cons]; omega
      have hlong : ∀ p, (kids p).length < m.nodes.length + 1 := fun p =>
        Nat.lt_succ_of_le (length_le_nodes (h.forest.nodup p) (h.live p))
      have hlive := ha.owner.live
      have hlive' := hb.owner.live
      have hchild := h.child p ha.owner
      have hchild' := h.child q hb.owner
      obtain ⟨x, hx, htype, hstring, hdouble⟩ := ha.root
      obtain ⟨y, hy, htype', hstring', hdouble'⟩ := hb.root
      rw [childOf_eq hx] at hchild
      rw [childOf_eq hy] at hchild'
      rw [compareFrom, Memory.load_eq hx, Memory.load_eq hy, compare]
      simp only [bind, Except.bind]
      rw [htype, htype', hstring, hstring', hdouble, hdouble', hchild, hchild']
      by_cases hout : (a.type ≠ b.type || a.type = .invalid) = true
      · rw [if_pos hout, if_pos hout]
        rfl
      rw [if_neg hout, if_neg hout, if_neg hne]
      cases a.type with
      | invalid | false | true | null | number => rfl
      | string | raw =>
          cases a.valuestring with
          | none => rfl
          | some s => cases b.valuestring <;> rfl
      | array =>
          exact compareLists_eq (h.linked p) (h.linked q) ha.child hb.child
            (hdown hne hlive hlive' hp hq hrounds hrounds') (hlong p)
      | object =>
          simp only
          rw [compareNamed_eq h hb (h.linked p) ha.child
              (hdown hne hlive hlive' hp hq hrounds hrounds') (hlong p),
            compareNamed_eq h ha (h.linked q) hb.child
              (hdown hne.symm hlive' hlive hq hp hrounds' hrounds) (hlong q)]
          cases compareMembers dbl caseSensitive a.child b.child <;> rfl

/-- An item and itself are equal, if its type is one; two items as their trees. -/
theorem compareAt_eq (h : Lists m kids) {p q : Nat} {a b : Item dbl.Double}
    (ha : Shows m kids p a) (hb : Shows m kids q b) :
    compareAt dbl m caseSensitive (some p) (some q)
      = .ok (if p = q then a.type ≠ .invalid else compare dbl caseSensitive a b) := by
  by_cases hne : p = q
  · subst hne
    obtain ⟨x, hx, htype, _⟩ := ha.root
    rw [if_pos rfl, compareAt, compareFrom, Memory.load_eq hx]
    simp only [bind, Except.bind, htype]
    by_cases hkind : a.type = .invalid <;> simp [hkind, pure, Except.pure]
  · rw [if_neg hne]
    exact compareFrom_eq h hne ha hb (.start p) (.start q) (by omega) (by omega)

/-! ## What it decides -/

/-- Where there are no references, `cJSON_Compare` returns, is symmetric and
transitive, whatever the items hold, and takes each item of a type to be equal to
itself. -/
theorem compareAt_equivalence (heq : dbl.Equality) (h : Lists m kids) {p q : Nat}
    {a b : Item dbl.Double} (ha : Shows m kids p a) (hb : Shows m kids q b) :
    (∃ r, compareAt dbl m caseSensitive (some p) (some q) = .ok r ∧
      compareAt dbl m caseSensitive (some q) (some p) = .ok r) ∧
    (∀ s c, Shows m kids s c → compareAt dbl m caseSensitive (some p) (some q) = .ok true →
      compareAt dbl m caseSensitive (some q) (some s) = .ok true →
        compareAt dbl m caseSensitive (some p) (some s) = .ok true) ∧
    compareAt dbl m caseSensitive (some p) (some p) = .ok (a.type ≠ .invalid) := by
  refine ⟨?_, fun s c hc hpq hqs => ?_, by rw [compareAt_eq h ha ha, if_pos rfl]⟩
  · rw [compareAt_eq h ha hb, compareAt_eq h hb ha]
    by_cases hpq : p = q
    · subst hpq
      obtain ⟨n, hn, htype, _⟩ := ha.root
      obtain ⟨n', hn', htype', _⟩ := hb.root
      obtain rfl := Option.some.inj (hn.symm.trans hn')
      rw [if_pos rfl, if_pos rfl, ← htype, htype']
      exact ⟨_, rfl, rfl⟩
    · rw [if_neg hpq, if_neg (Ne.symm hpq), compare_comm heq a b]
      exact ⟨_, rfl, rfl⟩
  -- of three items that are equal, two may be one
  by_cases heq₁ : p = q
  · exact heq₁ ▸ hqs
  by_cases heq₂ : q = s
  · exact heq₂ ▸ hpq
  rw [compareAt_eq h ha hb, if_neg heq₁, Except.ok.injEq] at hpq
  rw [compareAt_eq h hb hc, if_neg heq₂, Except.ok.injEq] at hqs
  rw [compareAt_eq h ha hc, Except.ok.injEq]
  by_cases heq₃ : p = s
  · rw [if_pos heq₃, decide_eq_true_eq]
    exact compare_valid hpq
  · rw [if_neg heq₃]
    exact compare_trans heq hpq hqs

/-- Where there are no references, and the names in each object differ,
`cJSON_Compare` decides whether two items are one, or are the same up to the order
of members. -/
theorem compareAt_iff_same (heq : dbl.Equality) (h : Lists m kids) {p q : Nat}
    {a b : Item dbl.Double} (ha : Shows m kids p a) (hb : Shows m kids q b)
    (hproper : a.Proper caseSensitive) (hproper' : b.Proper caseSensitive) :
    compareAt dbl m caseSensitive (some p) (some q) = .ok true ↔
      p = q ∧ a.type ≠ .invalid ∨ p ≠ q ∧ Same dbl caseSensitive a b := by
  rw [compareAt_eq h ha hb, Except.ok.injEq]
  by_cases hpq : p = q
  · simp [hpq]
  · rw [if_neg hpq, compare_iff_same heq hproper hproper']
    simp [hpq]

end Compare

theorem compareAt_equivalence_twoObjects :
    (∃ r, compareAt digits twoObjects true (some 0) (some 2) = .ok r ∧
      compareAt digits twoObjects true (some 2) (some 0) = .ok r) ∧
    (∀ s c, Shows twoObjects twoLists s c →
      compareAt digits twoObjects true (some 0) (some 2) = .ok true →
      compareAt digits twoObjects true (some 2) (some s) = .ok true →
        compareAt digits twoObjects true (some 0) (some s) = .ok true) ∧
    compareAt digits twoObjects true (some 0) (some 0) = .ok (oneMember.type ≠ .invalid) :=
  compareAt_equivalence digits_equality twoObjects_lists first_shows second_shows

theorem compareAt_iff_same_twoObjects :
    compareAt digits twoObjects false (some 0) (some 2) = .ok true ↔
      0 = 2 ∧ oneMember.type ≠ .invalid ∨ 0 ≠ 2 ∧ Same digits false oneMember oneMember :=
  compareAt_iff_same digits_equality twoObjects_lists first_shows second_shows
    (oneMember_proper false) (oneMember_proper false)

end JsonRead

end BeEasy
