import BeEasy.Walkthrough.DirSize
import Mathlib.Data.BitVec

/-!
# Walkthrough — what the size of a directory comes to

`getDirSize` over a directory tree in which calls may fail. The directory
that cannot be read, or an entry of which cannot be stat'ed, answers -1, and
the caller adds that -1 to its count: so what comes out at the top is the
sizes of the files outside such directories (`reached`), less one for each
of them (`stops`). The main lemma is `getDirSize_value`, by induction on the
tree; all that can come before it is a path that overruns `filename`
(`Overruns`).

At the end, the result is the -1 or the sum it should be exactly when
`Readable` holds (`getDirSize_right_iff`).
-/

namespace BeEasy.Walkthrough

open CVerif

/-! ## Where the count stops -/

/-- The directory cannot be opened, or one of its entries has no `stat`. -/
def givesUp (calls : Calls) (path : Path) (es : Entries) : Bool :=
  (calls.opendir path).isNone || es.names.any fun n => (calls.stat (child path n)).isNone

/-- Directories below `path` that give up, only the topmost counted. -/
def stopsBelow (calls : Calls) (path : Path) : Entries → Nat
  | .nil => 0
  | .file _ _ rest => stopsBelow calls path rest
  | .dir n below rest =>
      (if givesUp calls (child path n) below then 1 else stopsBelow calls (child path n) below)
        + stopsBelow calls path rest

/-- The same with the directory itself. -/
def stops (calls : Calls) (path : Path) (es : Entries) : Nat :=
  if givesUp calls path es then 1 else stopsBelow calls path es

/-- Sizes of the files below `path` that are in no directory that gives up. -/
def reachedBelow (calls : Calls) (path : Path) : Entries → Nat
  | .nil => 0
  | .file _ size rest => size + reachedBelow calls path rest
  | .dir n below rest =>
      (if givesUp calls (child path n) below then 0 else reachedBelow calls (child path n) below)
        + reachedBelow calls path rest

def reached (calls : Calls) (path : Path) (es : Entries) : Nat :=
  if givesUp calls path es then 0 else reachedBelow calls path es

/-- In what is left of a listing of `path` a name comes up whose path does
not fit in `filename`, or one does in a subdirectory, and no `stat` fails
before it. -/
inductive Overruns (calls : Calls) : Path → List Name → Prop
  | here {path : Path} {n : Name} {rest : List Name} (hn : ¬(n = dot ∨ n = dotdot))
      (hlen : ¬(child path n).length < PATH_MAX) : Overruns calls path (n :: rest)
  | inside {path : Path} {n : Name} {rest names : List Name} {f_stat : Stat}
      (hn : ¬(n = dot ∨ n = dotdot)) (hstat : calls.stat (child path n) = some f_stat)
      (hdir : f_stat.isDir = true) (hopen : calls.opendir (child path n) = some names)
      (h : Overruns calls (child path n) names) : Overruns calls path (n :: rest)
  | later {path : Path} {n : Name} {rest : List Name}
      (hn : (n = dot ∨ n = dotdot) ∨ calls.stat (child path n) ≠ none)
      (h : Overruns calls path rest) : Overruns calls path (n :: rest)

def OverrunsAt (calls : Calls) (path : Path) : Prop :=
  ∃ names, calls.opendir path = some names ∧ Overruns calls path names

variable {calls : Calls} {path : Path} {n : Name} {names : List Name} {size : LongLong}
  {es below : Entries} {f_stat : Stat}

theorem stops_of_givesUp (h : givesUp calls path es = true) : stops calls path es = 1 := if_pos h

theorem stops_of_reads (h : givesUp calls path es = false) :
    stops calls path es = stopsBelow calls path es :=
  if_neg (by rw [h]; exact Bool.false_ne_true)

theorem reached_of_givesUp (h : givesUp calls path es = true) : reached calls path es = 0 :=
  if_pos h

theorem reached_of_reads (h : givesUp calls path es = false) :
    reached calls path es = reachedBelow calls path es :=
  if_neg (by rw [h]; exact Bool.false_ne_true)

theorem givesUp_iff :
    givesUp calls path es = true ↔
      calls.opendir path = none ∨ ∃ n ∈ es.names, calls.stat (child path n) = none := by
  simp [givesUp]

/-! ### It stops exactly where a call fails -/

theorem stopsBelow_pos_iff (hstat : ∀ n ∈ es.names, calls.stat (child path n) ≠ none) :
    0 < stopsBelow calls path es ↔ calls.FailsBelow path es := by
  induction es generalizing path with
  | nil => simp [stopsBelow, Calls.not_failsBelow_nil]
  | file n size rest ih =>
      obtain ⟨hn, hrest⟩ := List.forall_mem_cons.mp hstat
      rw [stopsBelow, Calls.failsBelow_file, ih hrest]
      simp [hn]
  | dir n below rest ihbelow ihrest =>
      obtain ⟨hn, hrest⟩ := List.forall_mem_cons.mp hstat
      have hsub : 0 < (if givesUp calls (child path n) below then 1
          else stopsBelow calls (child path n) below) ↔ calls.Fails (child path n) below := by
        cases hup : givesUp calls (child path n) below with
        | true =>
            rcases givesUp_iff.mp hup with hopen | ⟨m, hm, hstat⟩
            · simp [Calls.Fails, hopen]
            · simp [Calls.Fails, Calls.failsBelow_of_mem hm hstat]
        | false =>
            have hreads := mt givesUp_iff.mpr (by rw [hup]; exact Bool.false_ne_true)
            rw [not_or] at hreads
            have hok : ∀ m ∈ below.names, calls.stat (child (child path n) m) ≠ none :=
              fun m hm hnone => hreads.2 ⟨m, hm, hnone⟩
            simp [Calls.Fails, hreads.1, ihbelow hok]
      rw [stopsBelow, Nat.add_pos_iff_pos_or_pos, hsub, ihrest hrest, Calls.failsBelow_dir]
      simp [hn]

theorem stops_pos_iff : 0 < stops calls path es ↔ calls.Fails path es := by
  cases hup : givesUp calls path es with
  | true =>
      rw [stops_of_givesUp hup]
      refine iff_of_true Nat.one_pos ?_
      rcases givesUp_iff.mp hup with hopen | ⟨n, hn, hstat⟩
      · exact .inl hopen
      · exact .inr (Calls.failsBelow_of_mem hn hstat)
  | false =>
      have hreads := mt givesUp_iff.mpr (by rw [hup]; exact Bool.false_ne_true)
      rw [not_or] at hreads
      have hok : ∀ n ∈ es.names, calls.stat (child path n) ≠ none :=
        fun n hn hnone => hreads.2 ⟨n, hn, hnone⟩
      rw [stops_of_reads hup, stopsBelow_pos_iff hok]
      simp [Calls.Fails, hreads.1]

theorem reachedBelow_eq_total (h : stopsBelow calls path es = 0) :
    reachedBelow calls path es = es.total := by
  induction es generalizing path with
  | nil => rfl
  | file n size rest ih =>
      rw [reachedBelow, Entries.total, ih h]
  | dir n below rest ihbelow ihrest =>
      rw [stopsBelow, Nat.add_eq_zero_iff] at h
      obtain ⟨hsub, hrest⟩ := h
      rw [reachedBelow, Entries.total, ihrest hrest]
      cases hup : givesUp calls (child path n) below with
      | true => simp [hup] at hsub
      | false =>
          simp only [hup, Bool.false_eq_true, if_false] at hsub ⊢
          rw [ihbelow hsub]

/-- Nothing stops: every file is reached. -/
theorem reached_eq_total (h : stops calls path es = 0) : reached calls path es = es.total := by
  cases hup : givesUp calls path es with
  | true =>
      rw [stops_of_givesUp hup] at h
      exact absurd h Nat.one_ne_zero
  | false =>
      rw [stops_of_reads hup] at h
      rw [reached_of_reads hup, reachedBelow_eq_total h]

/-! ### A path that does not fit -/

/-- Where every `stat` of a listing succeeds, an overrun in any of its
subdirectories comes up. -/
theorem overruns_of_mem (hall : ∀ m ∈ listed names, calls.stat (child path m) ≠ none)
    (hn : n ∈ listed names) (hstat : calls.stat (child path n) = some f_stat)
    (hdir : f_stat.isDir = true) (h : OverrunsAt calls (child path n)) :
    Overruns calls path names := by
  induction names with
  | nil => cases hn
  | cons m rest ih =>
      by_cases hm : m = dot ∨ m = dotdot
      · rw [listed_dots hm] at hall hn
        exact .later (.inl hm) (ih hall hn)
      · rw [listed_cons hm] at hall hn
        obtain ⟨hmstat, hrest⟩ := List.forall_mem_cons.mp hall
        rcases List.mem_cons.mp hn with heq | hlater
        · subst heq
          obtain ⟨names', hopen, hover⟩ := h
          exact .inside hm hstat hdir hopen hover
        · exact .later (.inr hmstat) (ih hrest hlater)

/-- An overrun leaves no result. -/
theorem addEntries_overruns (h : Overruns calls path names) (size v : LongLong) :
    addEntries calls (getDirSize calls) path names size ≠ .ok v := by
  induction h generalizing size v with
  | here hn hlen =>
      rw [addEntries_overflow hn hlen]
      intro hok
      cases hok
  | @inside path n rest names f_stat hn hstat hdir hopen _ ih =>
      by_cases hlen : (child path n).length < PATH_MAX
      · have hsub : ∀ w, getDirSize calls (child path n) ≠ .ok w := by
          intro w
          rw [getDirSize_eq, hopen]
          exact ih 0 w
        rw [addEntries_dir hn hlen hstat hdir]
        cases hres : getDirSize calls (child path n) with
        | error e =>
            intro hok
            cases hok
        | ok w => exact absurd hres (hsub w)
      · rw [addEntries_overflow hn hlen]
        intro hok
        cases hok
  | @later path n rest hn _ ih =>
      by_cases hdots : n = dot ∨ n = dotdot
      · rw [addEntries_dots hdots]
        exact ih size v
      by_cases hlen : (child path n).length < PATH_MAX
      · obtain ⟨f_stat, hstat⟩ := Option.ne_none_iff_exists'.mp (hn.resolve_left hdots)
        cases hdir : f_stat.isDir with
        | false =>
            rw [addEntries_file hdots hlen hstat hdir]
            exact ih _ v
        | true =>
            rw [addEntries_dir hdots hlen hstat hdir]
            cases getDirSize calls (child path n) with
            | error e =>
                intro hok
                cases hok
            | ok w => exact ih _ v
      · rw [addEntries_overflow hdots hlen]
        intro hok
        cases hok

theorem getDirSize_overruns (h : OverrunsAt calls path) (v : LongLong) :
    getDirSize calls path ≠ .ok v := by
  obtain ⟨names, hopen, hover⟩ := h
  rw [getDirSize_eq, hopen]
  exact addEntries_overruns hover 0 v

/-! ## What comes out -/

/-- What one entry adds to the count. -/
def worth (calls : Calls) (path : Path) (n : Name) : LongLong :=
  match calls.stat (child path n) with
  | none => 0
  | some f_stat =>
      if f_stat.isDir then
        match getDirSize calls (child path n) with
        | .ok below => below
        | .error _ => 0
      else BitVec.ofNat 64 f_stat.st_size

theorem worth_file (hstat : calls.stat (child path n) = some f_stat)
    (hdir : f_stat.isDir = false) : worth calls path n = BitVec.ofNat 64 f_stat.st_size := by
  simp [worth, hstat, hdir]

theorem worth_dir (hstat : calls.stat (child path n) = some f_stat) (hdir : f_stat.isDir = true)
    {v : LongLong} (hv : getDirSize calls (child path n) = .ok v) : worth calls path n = v := by
  simp [worth, hstat, hdir, hv]

/-- **The loop**: -1 as soon as one `stat` fails, else what every entry adds. -/
theorem addEntries_value (hover : ¬ Overruns calls path names)
    (hsub : ∀ n ∈ listed names, ∀ f_stat, calls.stat (child path n) = some f_stat →
      f_stat.isDir = true → ¬ OverrunsAt calls (child path n) →
      ∃ v, getDirSize calls (child path n) = .ok v) (size : LongLong) :
    addEntries calls (getDirSize calls) path names size =
      .ok (if (listed names).any fun n => (calls.stat (child path n)).isNone then -1
        else size + ((listed names).map (worth calls path)).sum) := by
  induction names generalizing size with
  | nil => simp [addEntries, listed]
  | cons n rest ih =>
      by_cases hn : n = dot ∨ n = dotdot
      · rw [listed_dots hn] at hsub ⊢
        rw [addEntries_dots hn]
        exact ih (fun h => hover (.later (.inl hn) h)) hsub size
      rw [listed_cons hn] at hsub ⊢
      obtain ⟨hsubn, hsubrest⟩ := List.forall_mem_cons.mp hsub
      have hlen : (child path n).length < PATH_MAX := by
        by_contra hlen
        exact hover (.here hn hlen)
      cases hstat : calls.stat (child path n) with
      | none =>
          rw [addEntries_gone hn hlen hstat]
          simp [hstat]
      | some f_stat =>
          have hrest : ¬ Overruns calls path rest :=
            fun h => hover (.later (.inr (by rw [hstat]; exact Option.some_ne_none _)) h)
          cases hdir : f_stat.isDir with
          | false =>
              rw [addEntries_file hn hlen hstat hdir, ih hrest hsubrest, ← worth_file hstat hdir]
              simp [hstat, BitVec.add_assoc]
          | true =>
              have hin : ¬ OverrunsAt calls (child path n) := by
                rintro ⟨names, hopen, h⟩
                exact hover (.inside hn hstat hdir hopen h)
              obtain ⟨v, hv⟩ := hsubn f_stat hstat hdir hin
              rw [addEntries_dir hn hlen hstat hdir, hv]
              show addEntries calls (getDirSize calls) path rest (size + v) = _
              rw [ih hrest hsubrest, ← worth_dir hstat hdir hv]
              simp [hstat, BitVec.add_assoc]

/-- What a directory answers: the sizes it reached, less one for each place
where it stopped. -/
def Valued (calls : Calls) (path : Path) (es : Entries) : Prop :=
  getDirSize calls path = .ok (BitVec.ofInt 64 (reached calls path es - stops calls path es))

/-- The entries of a directory whose `stat`s all succeed. -/
theorem sum_worth (hshow : calls.Shows path es)
    (hstat : ∀ n ∈ es.names, calls.stat (child path n) ≠ none)
    (hsub : ∀ d ∈ es.subdirs, Valued calls (child path d.1) d.2) :
    (es.names.map (worth calls path)).sum =
      BitVec.ofInt 64 (reachedBelow calls path es - stopsBelow calls path es) := by
  induction es with
  | nil => rfl
  | file n size rest ih =>
      obtain ⟨hn, hrest⟩ := List.forall_mem_cons.mp hstat
      obtain ⟨f_stat, hf⟩ := Option.ne_none_iff_exists'.mp hn
      obtain ⟨hdir, hsize⟩ := hshow.1 f_stat hf
      calc ((Entries.file n size rest).names.map (worth calls path)).sum
          = worth calls path n + (rest.names.map (worth calls path)).sum := List.sum_cons
        _ = BitVec.ofInt 64 ((size : Nat) : Int)
              + BitVec.ofInt 64 (reachedBelow calls path rest - stopsBelow calls path rest) := by
            rw [worth_file hf hdir, hsize, ih hshow.2 hrest hsub, BitVec.ofInt_natCast]
        _ = _ := by
            rw [← BitVec.ofInt_add, reachedBelow, stopsBelow]
            congr 1
            push_cast
            ring
  | dir n below rest _ ih =>
      obtain ⟨hn, hrest⟩ := List.forall_mem_cons.mp hstat
      obtain ⟨hbelow, hsubrest⟩ := List.forall_mem_cons.mp hsub
      obtain ⟨f_stat, hf⟩ := Option.ne_none_iff_exists'.mp hn
      calc ((Entries.dir n below rest).names.map (worth calls path)).sum
          = worth calls path n + (rest.names.map (worth calls path)).sum := List.sum_cons
        _ = BitVec.ofInt 64 (reached calls (child path n) below - stops calls (child path n) below)
              + BitVec.ofInt 64 (reachedBelow calls path rest - stopsBelow calls path rest) := by
            rw [worth_dir hf (hshow.1 f_stat hf) hbelow, ih hshow.2.2.2 hrest hsubrest]
        _ = _ := by
            rw [← BitVec.ofInt_add, reachedBelow, stopsBelow, ← reached, ← stops]
            congr 1
            push_cast
            ring

/-- **The value**: over a mounted tree, and unless a path overruns
`filename`, the result is what was reached less the stops. -/
theorem getDirSize_value (hm : calls.Mounted path es) (hover : ¬ OverrunsAt calls path) :
    Valued calls path es := by
  induction es using Entries.induction_subdirs generalizing path with
  | step es ih =>
      obtain ⟨hlists, hshow⟩ := hm
      cases hopen : calls.opendir path with
      | none =>
          have hup : givesUp calls path es = true := givesUp_iff.mpr (.inl hopen)
          rw [Valued, getDirSize_eq, hopen, reached_of_givesUp hup, stops_of_givesUp hup]
          rfl
      | some names =>
          have hperm := hlists names hopen
          have hnot : ¬ Overruns calls path names := fun h => hover ⟨names, hopen, h⟩
          have hsub : ∀ n ∈ listed names, ∀ f_stat, calls.stat (child path n) = some f_stat →
              f_stat.isDir = true → ¬ OverrunsAt calls (child path n) →
              ∃ v, getDirSize calls (child path n) = .ok v := by
            intro n hn f_stat hstat hdir hin
            obtain ⟨below, hmem⟩ := hshow.subdir (hperm.mem_iff.mp hn) hstat hdir
            exact ⟨_, ih (n, below) hmem (hshow.mounted hmem) hin⟩
          have hany := hperm.any_eq (f := fun n => (calls.stat (child path n)).isNone)
          rw [Valued, getDirSize_eq, hopen]
          show addEntries calls (getDirSize calls) path names 0 = _
          rw [addEntries_value hnot hsub, hany]
          cases hfail : es.names.any fun n => (calls.stat (child path n)).isNone with
          | true =>
              have hup : givesUp calls path es = true := by
                rw [givesUp, hfail, Bool.or_true]
              rw [reached_of_givesUp hup, stops_of_givesUp hup]
              rfl
          | false =>
              have hup : givesUp calls path es = false := by
                rw [givesUp, hfail, hopen]
                rfl
              have hstat : ∀ n ∈ es.names, calls.stat (child path n) ≠ none := by
                simpa using hfail
              have hall : ∀ n ∈ listed names, calls.stat (child path n) ≠ none :=
                fun n hn => hstat n (hperm.mem_iff.mp hn)
              have hvalued : ∀ d ∈ es.subdirs, Valued calls (child path d.1) d.2 := by
                intro d hd
                have hname := Entries.mem_names_of_subdirs hd
                obtain ⟨f_stat, hf⟩ := Option.ne_none_iff_exists'.mp (hstat d.1 hname)
                refine ih d hd (hshow.mounted hd) ?_
                exact fun h => hnot (overruns_of_mem hall (hperm.mem_iff.mpr hname) hf
                  (hshow.isDir hd hf) h)
              have hsum := (hperm.map (worth calls path)).sum_eq
              rw [sum_worth hshow hstat hvalued] at hsum
              rw [hsum, reached_of_reads hup, stops_of_reads hup]
              simp

/-! ## When it is the right answer -/

/-- The answer to a tree: -1 if a call fails anywhere in it, else the sum of
the sizes. -/
def Right (calls : Calls) (path : Path) (es : Entries) (result : Except Fault LongLong) : Prop :=
  (calls.Fails path es → result = .ok (-1))
    ∧ (¬ calls.Fails path es → ∃ size, result = .ok size ∧ size.toInt = es.total)

/-- No path that comes up overruns `filename`, and either no call fails and
the sum is a `long long`, or the stops are one more than the sizes reached. -/
def Readable (calls : Calls) (path : Path) (es : Entries) : Prop :=
  ¬ OverrunsAt calls path ∧
    if stops calls path es = 0 then es.total < 2 ^ 63
    else (2 : Int) ^ 64 ∣ reached calls path es + 1 - stops calls path es

theorem toInt_natCast_iff (m : Nat) : (BitVec.ofInt 64 m).toInt = m ↔ m < 2 ^ 63 := by
  rw [BitVec.toInt_ofInt]
  constructor
  · intro h
    have := Int.bmod_lt (x := (m : Int)) (m := 2 ^ 64) (by decide)
    omega
  · intro h
    exact Int.bmod_eq_of_le (by omega) (by omega)

theorem ofInt_eq_neg_one_iff (x : Int) :
    BitVec.ofInt 64 x = -1 ↔ (2 : Int) ^ 64 ∣ x + 1 := by
  rw [← BitVec.toInt_inj, BitVec.toInt_ofInt, show (-1 : LongLong).toInt = -1 from rfl]
  constructor
  · intro h
    have := Int.dvd_bmod_sub_self (x := x) (m := 2 ^ 64)
    rw [h] at this
    omega
  · intro h
    rw [Int.bmod_def]
    split <;> omega

theorem right_iff (hm : calls.Mounted path es) :
    Right calls path es (getDirSize calls path) ↔ Readable calls path es := by
  by_cases hover : OverrunsAt calls path
  · refine iff_of_false ?_ fun h => h.1 hover
    rintro ⟨hfail, hsum⟩
    by_cases hf : calls.Fails path es
    · exact getDirSize_overruns hover _ (hfail hf)
    · obtain ⟨size, hsize, -⟩ := hsum hf
      exact getDirSize_overruns hover _ hsize
  have hvalue : getDirSize calls path = _ := getDirSize_value hm hover
  rw [hvalue]
  by_cases hstop : stops calls path es = 0
  · have hf : ¬ calls.Fails path es := by
      rw [← stops_pos_iff, hstop]
      exact Nat.lt_irrefl 0
    simp only [Right, Readable, hf, hover, hstop, reached_eq_total hstop, not_false_eq_true,
      false_implies, true_implies, true_and, if_true, Int.natCast_zero, Int.sub_zero,
      Except.ok.injEq, exists_eq_left', toInt_natCast_iff]
  · have hf : calls.Fails path es := stops_pos_iff.mp (Nat.pos_of_ne_zero hstop)
    simp only [Right, Readable, hf, hover, hstop, not_true_eq_false, not_false_eq_true,
      false_implies, true_implies, true_and, and_true, if_false, Except.ok.injEq,
      ofInt_eq_neg_one_iff]
    rw [sub_add_eq_add_sub]

/-- **The answer is right** exactly when the tree is `Readable`, for either
of the two functions. -/
theorem getDirSize_right_iff (hm : calls.Mounted path es) :
    (Right calls path es (getDirSize calls path) ↔ Readable calls path es)
      ∧ (Right calls path es (FileOperation.getDirSize calls path) ↔ Readable calls path es) := by
  constructor
  · exact right_iff hm
  · exact right_iff hm

/-- A directory `d` with a subdirectory `a`, empty, and a file `b` of five
bytes; `a` may be closed to the caller. -/
def smallDir (opens : Bool) : Calls where
  opendir p :=
    if p = [100] then some [dot, dotdot, [97], [98]]
    else if p = child [100] [97] ∧ opens then some [dot, dotdot]
    else none
  stat p :=
    if p = child [100] [97] then some ⟨true, 4096⟩
    else if p = child [100] [98] then some ⟨false, 5⟩
    else none

def smallTree : Entries := .dir [97] .nil (.file [98] 5 .nil)

theorem smallDir_mounted (opens : Bool) : (smallDir opens).Mounted [100] smallTree := by
  refine ⟨?_, ?_, ?_, trivial, ?_, trivial⟩
  · intro names h
    cases h
    decide
  · intro st h
    cases h
    rfl
  · intro names h
    cases opens with
    | false => cases h
    | true =>
        cases h
        decide
  · intro st h
    cases h
    exact ⟨rfl, rfl⟩

theorem getDirSize_right_smallDir :
    Right (smallDir true) [100] smallTree (getDirSize (smallDir true) [100]) :=
  (getDirSize_right_iff (smallDir_mounted true)).1.mpr
    ⟨fun h => getDirSize_overruns h 5 rfl, by decide⟩

/-- With `a` closed, `d` is four bytes long. -/
theorem closed_subdirectory_counted :
    (smallDir false).Mounted [100] smallTree ∧ (smallDir false).Fails [100] smallTree
      ∧ getDirSize (smallDir false) [100] = .ok 4
      ∧ ¬ Right (smallDir false) [100] smallTree (getDirSize (smallDir false) [100]) := by
  have hfails : (smallDir false).Fails [100] smallTree :=
    .inr (.inr ⟨child [100] [97], List.mem_cons_self, rfl⟩)
  have hvalue : getDirSize (smallDir false) [100] = .ok 4 := rfl
  refine ⟨smallDir_mounted false, hfails, hvalue, ?_⟩
  intro h
  have := h.1 hfails
  rw [hvalue] at this
  exact absurd (Except.ok.inj this) (by decide)

end BeEasy.Walkthrough
