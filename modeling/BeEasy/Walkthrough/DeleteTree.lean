import BeEasy.Walkthrough.DeleteFileAndDir

/-!
# Walkthrough — deleting a tree

Where there are no links, `deleteFileAndDir` does what it is for: a tree of
files and directories whose paths all fit (`TreeAt`) is emptied down to its
root, and nothing outside is touched (`deleteFileAndDir_empties`).

The path of the tree must lead there from outside (`Steady`): of `/t/sub/..`
nothing is left to follow once `sub` is gone.
-/

namespace BeEasy.Walkthrough

open CVerif

/-- Each entry is returned exactly once. -/
def Readdir.Complete (readdir : Readdir) : Prop :=
  ∀ path names, (readdir path names).Perm names

/-- Directory `d`, opened as `p`, is the root of a tree of files and
directories whose paths fit the buffer. -/
inductive TreeAt (fs : FileSystem) : Path → Ino → Prop
  | dir {p : Path} {d : Ino} (hdir : (fs.node d).isDir = true)
      (hentry : ∀ n i, (n, i) ∈ (fs.node d).entries →
        (child p n).length < PATH_MAX ∧ (fs.node i).isLink = false)
      (hbelow : ∀ n i, (n, i) ∈ (fs.node d).entries → (fs.node i).isDir = true →
        TreeAt fs (child p n) i) : TreeAt fs p d

/-- `p` leads to `d`, and still does when entries below `d` are gone. -/
def Steady (fs : FileSystem) (p : Path) (d : Ino) : Prop :=
  ∀ fs', fs.Pruned fs' → (∀ i, ¬fs.Below d i → fs'.node i = fs.node i) →
    fs'.resolve p = some d

/-- The directory `d` is empty, and only what was below it has changed. -/
structure Empties (fs : FileSystem) (d : Ino) (fs' : FileSystem) : Prop where
  removals : fs.Removals fs'
  empty : (fs'.node d).entries = []
  outside : ∀ i, ¬fs.Below d i → fs'.node i = fs.node i

/-- The entry `(n, i)` of `d` is gone with all it held. -/
structure Taken (fs : FileSystem) (d : Ino) (n : Name) (i : Ino) (fs' : FileSystem) : Prop where
  removals : fs.Removals fs'
  outside : ∀ j, ¬fs.Below d j → fs'.node j = fs.node j
  entries : ∀ e, e ∈ (fs'.node d).entries ↔ e ∈ (fs.node d).entries ∧ e.1 ≠ n
  emptied : (fs'.node i).entries = []

variable {fs fs' : FileSystem} {p : Path} {d i : Ino} {n : Name}

/-! ## Trees -/

theorem TreeAt.isDir (h : TreeAt fs p d) : (fs.node d).isDir = true := by
  cases h with
  | dir hdir _ _ => exact hdir

theorem TreeAt.fits (h : TreeAt fs p d) (he : (n, i) ∈ (fs.node d).entries) :
    (child p n).length < PATH_MAX := by
  cases h with
  | dir _ hentry _ => exact (hentry n i he).1

theorem TreeAt.isLink (h : TreeAt fs p d) (he : (n, i) ∈ (fs.node d).entries) :
    (fs.node i).isLink = false := by
  cases h with
  | dir _ hentry _ => exact (hentry n i he).2

theorem TreeAt.subtree (h : TreeAt fs p d) (he : (n, i) ∈ (fs.node d).entries)
    (hdir : (fs.node i).isDir = true) : TreeAt fs (child p n) i := by
  cases h with
  | dir _ _ hbelow => exact hbelow n i he hdir

/-- Fewer entries still make a tree. -/
theorem TreeAt.pruned (h : TreeAt fs p d) (hpruned : fs.Pruned fs') : TreeAt fs' p d := by
  induction h with
  | dir hdir hentry _ ih =>
      apply TreeAt.dir
      · rw [hpruned.isDir]
        exact hdir
      · intro n i he
        rw [(hpruned.node i).isLink]
        exact hentry n i (hpruned.entry he)
      · intro n i he hidir
        exact ih n i (hpruned.entry he) (by rwa [hpruned.isDir] at hidir)

/-- No directory of a tree is below its own entries. -/
theorem TreeAt.not_below (h : TreeAt fs p d) (he : (n, i) ∈ (fs.node d).entries) :
    ¬fs.Below i d := by
  induction h generalizing n i with
  | dir hdir _ _ ih =>
      intro hcycle
      rcases hcycle.head with rfl | ⟨m, j, hj, hbelow⟩
      · exact ih n _ he hdir he .refl
      · -- the cycle goes through `i` too
        exact ih n i he (Node.isDir_of_mem_entries hj) hj (hbelow.entry he)

theorem Steady.resolve (h : Steady fs p d) : fs.resolve p = some d :=
  h fs (.refl fs) fun _ _ => rfl

theorem Steady.later (h : Steady fs p d) (hpruned : fs.Pruned fs')
    (hout : ∀ i, ¬fs.Below d i → fs'.node i = fs.node i) : Steady fs' p d := by
  intro fs'' hpruned' hout'
  apply h fs'' (hpruned.trans hpruned')
  intro i hi
  rw [hout' i fun hbelow => hi (hpruned.below hbelow), hout i hi]

theorem Steady.child (h : Steady fs p d) (htree : TreeAt fs p d)
    (he : (n, i) ∈ (fs.node d).entries) : Steady fs (child p n) i := by
  intro fs' hpruned hout
  have hd : fs'.resolve p = some d := by
    apply h fs' hpruned
    intro j hj
    exact hout j fun hbelow => hj ((FileSystem.Below.refl.entry he).trans hbelow)
  have he' : (n, i) ∈ (fs'.node d).entries := by
    rwa [hout d (htree.not_below he)]
  have hlink : (fs'.node i).isLink = false := by
    rw [(hpruned.node i).isLink]
    exact htree.isLink he
  exact FileSystem.resolve_entry hd he' hlink (htree.fits he)

/-! ## One entry -/

/-- A file is removed. -/
theorem taken_remove (htree : TreeAt fs p d) (hsteady : Steady fs p d)
    (he : (n, i) ∈ (fs.node d).entries) (hdir : (fs.node i).isDir = false) :
    Taken fs d n i (fs.remove (child p n)) := by
  have hrun : fs.remove (child p n) = fs.without d n := by
    unfold FileSystem.remove
    exact FileSystem.removeEntry_child hsteady.resolve he (htree.fits he) (by rw [hdir]; rfl)
  have hempty : (fs.node i).entries = [] := by
    cases hi : fs.node i with
    | file => rfl
    | link t => rfl
    | dir q es => simp [hi, Node.isDir] at hdir
  rw [hrun]
  constructor
  · exact .step .refl he hempty
  · intro j hj
    exact FileSystem.node_without_ne n fun heq => hj (heq ▸ .refl)
  · intro e
    rw [FileSystem.mem_without]
    simp
  · exact List.eq_nil_of_subset_nil
      (hempty ▸ ((FileSystem.Pruned.without fs d n).node i).entries.subset)

/-- A directory is removed once it is empty. -/
theorem taken_rmdir (htree : TreeAt fs p d) (hsteady : Steady fs p d)
    (he : (n, i) ∈ (fs.node d).entries) (hdir : (fs.node i).isDir = true)
    (h : Empties fs i fs') : Taken fs d n i (fs'.rmdir (child p n)) := by
  have hpruned := h.removals.pruned
  have hd : fs'.node d = fs.node d := h.outside d (htree.not_below he)
  have he' : (n, i) ∈ (fs'.node d).entries := by rwa [hd]
  have hout : ∀ j, ¬fs.Below d j → fs'.node j = fs.node j := by
    intro j hj
    exact h.outside j fun hbelow => hj ((FileSystem.Below.refl.entry he).trans hbelow)
  have hempty : (fs'.node i).isEmptyDir = true :=
    Node.isEmptyDir_of_entries (by rwa [hpruned.isDir]) h.empty
  have hrun : fs'.rmdir (child p n) = fs'.without d n := by
    unfold FileSystem.rmdir
    exact FileSystem.removeEntry_child (hsteady.later hpruned hout).resolve he' (htree.fits he)
      hempty
  rw [hrun]
  constructor
  · exact .step h.removals he' h.empty
  · intro j hj
    have hjd : j ≠ d := fun heq => hj (heq ▸ .refl)
    rw [FileSystem.node_without_ne n hjd, hout j hj]
  · intro e
    rw [FileSystem.mem_without, hd]
    simp
  · exact List.eq_nil_of_subset_nil
      (h.empty ▸ ((FileSystem.Pruned.without fs' d n).node i).entries.subset)

/-! ## The loop -/

/-- What is left to read of the listing of `d`. -/
structure Remaining (fs : FileSystem) (d : Ino) (names : List Name) : Prop where
  nodup : names.Nodup
  entry : ∀ n ∈ names, (n = dot ∨ n = dotdot) ∨ ∃ i, (n, i) ∈ (fs.node d).entries

theorem Remaining.tail {names : List Name} (h : Remaining fs d (n :: names)) :
    Remaining fs d names where
  nodup := (List.nodup_cons.mp h.nodup).2
  entry m hm := h.entry m (List.mem_cons_of_mem n hm)

theorem Remaining.taken {names : List Name} (h : Remaining fs d (n :: names))
    (htaken : Taken fs d n i fs') : Remaining fs' d names where
  nodup := h.tail.nodup
  entry m hm := by
    rcases h.tail.entry m hm with hdots | ⟨j, hj⟩
    · exact .inl hdots
    · -- the names read are different
      have hmn : m ≠ n := fun heq => (List.nodup_cons.mp h.nodup).1 (heq ▸ hm)
      exact .inr ⟨j, (htaken.entries (m, j)).mpr ⟨hj, hmn⟩⟩

/-- The names of a directory, `.` and `..` among them, are different. -/
theorem nodup_names (fs : FileSystem) (d : Ino) :
    (dot :: dotdot :: (fs.node d).entries.map Prod.fst).Nodup := by
  have hplain : ∀ n ∈ (fs.node d).entries.map Prod.fst, n ≠ dot ∧ n ≠ dotdot := by
    intro n hn
    obtain ⟨e, he, rfl⟩ := List.mem_map.mp hn
    exact (fs.plain d e he).2.2
  refine List.nodup_cons.mpr ⟨?_, List.nodup_cons.mpr ⟨?_, fs.distinct d⟩⟩
  · intro hmem
    rcases List.mem_cons.mp hmem with heq | hmem
    · exact absurd heq (by decide)
    · exact (hplain _ hmem).1 rfl
  · exact fun hmem => (hplain _ hmem).2 rfl

/-- A complete listing is all that is left to read at first. -/
theorem remaining_listing {readdir : Readdir} (hcomplete : readdir.Complete) (fs : FileSystem)
    (d : Ino) (path : Path) :
    Remaining fs d (readdir path (dot :: dotdot :: (fs.node d).entries.map Prod.fst)) ∧
      ∀ e ∈ (fs.node d).entries,
        e.1 ∈ readdir path (dot :: dotdot :: (fs.node d).entries.map Prod.fst) := by
  have hperm := hcomplete path (dot :: dotdot :: (fs.node d).entries.map Prod.fst)
  refine ⟨⟨hperm.nodup_iff.mpr (nodup_names fs d), ?_⟩, ?_⟩
  · intro n hn
    have hmem := hperm.subset hn
    simp only [List.mem_cons, List.mem_map] at hmem
    rcases hmem with rfl | rfl | ⟨e, he, rfl⟩
    · exact .inl (.inl rfl)
    · exact .inl (.inr rfl)
    · exact .inr ⟨e.2, he⟩
  · intro e he
    apply hperm.symm.subset
    exact List.mem_cons_of_mem _ (List.mem_cons_of_mem _ (List.mem_map_of_mem he))

/-- The recursive call empties the trees below `p`. -/
def EmptiesBelow (p : Path) (deleteDir : FileSystem → Path → Except Fault FileSystem) : Prop :=
  ∀ fs q x, p.length < q.length → TreeAt fs q x → Steady fs q x →
    ∃ fs', deleteDir fs q = .ok fs' ∧ Empties fs x fs'

section Loop

variable {deleteDir : FileSystem → Path → Except Fault FileSystem} {names : List Name}

/-- One round: the entry is taken, and the loop goes on. -/
theorem deleteEntries_taken (hrec : EmptiesBelow p deleteDir) (htree : TreeAt fs p d)
    (hsteady : Steady fs p d) (he : (n, i) ∈ (fs.node d).entries) :
    ∃ fs', Taken fs d n i fs' ∧
      deleteEntries deleteDir p (n :: names) fs = deleteEntries deleteDir p names fs' := by
  have hn : ¬(n = dot ∨ n = dotdot) := not_or.mpr (fs.plain d _ he).2.2
  have hlen := htree.fits he
  have hx := FileSystem.resolve_entry hsteady.resolve he (htree.isLink he) hlen
  have hstat := FileSystem.stat_eq_some_iff.mpr ⟨i, hx, rfl⟩
  cases hdir : (fs.node i).isDir with
  | false =>
      exact ⟨_, taken_remove htree hsteady he hdir, deleteEntries_file hn hlen hstat hdir⟩
  | true =>
      have hlonger : p.length < (child p n).length := by
        rw [length_child]
        omega
      obtain ⟨fs₁, hrun, hempties⟩ :=
        hrec fs (child p n) i hlonger (htree.subtree he hdir) (hsteady.child htree he)
      refine ⟨_, taken_rmdir htree hsteady he hdir hempties, ?_⟩
      rw [deleteEntries_dir hn hlen hstat hdir, hrun]
      rfl

theorem deleteEntries_empties (hrec : EmptiesBelow p deleteDir) (htree : TreeAt fs p d)
    (hsteady : Steady fs p d) (hleft : Remaining fs d names)
    (hall : ∀ e ∈ (fs.node d).entries, e.1 ∈ names) :
    ∃ fs', deleteEntries deleteDir p names fs = .ok fs' ∧ Empties fs d fs' := by
  induction names generalizing fs with
  | nil =>
      refine ⟨fs, rfl, .refl, List.eq_nil_iff_forall_not_mem.mpr ?_, fun _ _ => rfl⟩
      exact fun e he => List.not_mem_nil (hall e he)
  | cons n names ih =>
      rcases hleft.entry n List.mem_cons_self with hdots | ⟨i, he⟩
      · rw [deleteEntries_dots hdots]
        apply ih htree hsteady hleft.tail
        intro e he
        rcases List.mem_cons.mp (hall e he) with heq | hmem
        · exact absurd (heq ▸ hdots) (not_or.mpr (fs.plain d e he).2.2)
        · exact hmem
      · obtain ⟨fs₁, htaken, hrun⟩ := deleteEntries_taken hrec htree hsteady he
        have hpruned := htaken.removals.pruned
        rw [hrun]
        obtain ⟨fs', hok, hempties⟩ := ih (htree.pruned hpruned)
          (hsteady.later hpruned htaken.outside) (hleft.taken htaken) (by
            intro e he₁
            obtain ⟨he₀, hne⟩ := (htaken.entries e).mp he₁
            exact (List.mem_cons.mp (hall e he₀)).resolve_left hne)
        refine ⟨fs', hok, htaken.removals.trans hempties.removals, hempties.empty, ?_⟩
        intro j hj
        rw [hempties.outside j fun hbelow => hj (hpruned.below hbelow), htaken.outside j hj]

end Loop

theorem deleteWithin_empties {readdir : Readdir} (hcomplete : readdir.Complete) {depth : Nat}
    (hdepth : PATH_MAX ≤ p.length + depth) (htree : TreeAt fs p d) (hsteady : Steady fs p d) :
    ∃ fs', deleteWithin readdir depth fs p = .ok fs' ∧ Empties fs d fs' := by
  induction depth generalizing fs p d with
  | zero => exact absurd (FileSystem.length_of_resolve hsteady.resolve) (by omega)
  | succ depth ih =>
      have hopen := FileSystem.opendir_eq_some_iff.mpr
        ⟨d, hsteady.resolve, htree.isDir, rfl⟩
      obtain ⟨hleft, hall⟩ := remaining_listing hcomplete fs d p
      unfold deleteWithin
      rw [hopen]
      apply deleteEntries_empties _ htree hsteady hleft hall
      intro fs q x hq htree' hsteady'
      exact ih (by omega) htree' hsteady'

/-- **A tree is emptied, and nothing else changes.** -/
theorem deleteFileAndDir_empties {readdir : Readdir} (hcomplete : readdir.Complete)
    (htree : TreeAt fs p d) (hsteady : Steady fs p d) :
    ∃ fs', deleteFileAndDir readdir fs p = .ok fs' ∧ Empties fs d fs' :=
  deleteWithin_empties hcomplete (Nat.le_add_left PATH_MAX p.length) htree hsteady

end BeEasy.Walkthrough
