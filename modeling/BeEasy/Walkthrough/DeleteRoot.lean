import BeEasy.Walkthrough.DeleteTree

/-!
# Walkthrough — the path of a deleted tree

`deleteFileAndDir(path)` leaves an empty directory, and `path` leads to it
unless it went through the tree itself: `/t/sub/..` is `/t`, but no longer
when `sub` is deleted. So what is asked of the path is that its lookup uses no
entry of the tree (`LeadsOutside`), and that is asked for no more than is
needed (`deleteFileAndDir_clears_iff`).
-/

namespace BeEasy.Walkthrough

open CVerif

/-- The lookup of components by which nothing below `r` is entered: in a
directory there, only the directory itself and its parent are looked up. -/
inductive WalksOutside (fs : FileSystem) (r : Ino) : Nat → Ino → List Name → Ino → Prop
  | nil (b : Nat) (cur : Ino) : WalksOutside fs r b cur [] cur
  | step {b : Nat} {cur i x : Ino} {n : Name} {ns : List Name} :
      (fs.Below r cur → ¬Plain n) → fs.lookup cur n = some i → (fs.node i).isLink = false →
      WalksOutside fs r b i ns x → WalksOutside fs r b cur (n :: ns) x
  | link {b : Nat} {cur i s x : Ino} {n : Name} {ns : List Name} {target : Path} :
      (fs.Below r cur → ¬Plain n) → fs.lookup cur n = some i → fs.node i = .link target →
      fs.start cur target = some s → WalksOutside fs r b s (components target ++ ns) x →
      WalksOutside fs r (b + 1) cur (n :: ns) x

/-- `p` leads to `d`, and not through an entry of `d` or of a directory below. -/
def LeadsOutside (fs : FileSystem) (p : Path) (d : Ino) : Prop :=
  p.length < PATH_MAX ∧ ∃ s, fs.start fs.cwd p = some s ∧
    WalksOutside fs d MAXSYMLINKS s (components p) d

/-- `deleteFileAndDir(p)` leaves `p` an existing empty directory, and all that
was not below it as it was. -/
def Clears (readdir : Readdir) (fs : FileSystem) (p : Path) (d : Ino) : Prop :=
  ∃ fs', deleteFileAndDir readdir fs p = .ok fs' ∧ fs'.resolve p = some d ∧
    (fs'.node d).isEmptyDir = true ∧ ∀ i, ¬fs.Below d i → fs'.node i = fs.node i

variable {fs fs' : FileSystem} {p : Path} {d cur i x : Ino} {n : Name} {ns : List Name} {b : Nat}

/-! ## Lookups and fewer entries -/

/-- What is no name of an entry is looked up as before. -/
theorem lookup_not_plain (hpruned : fs.Pruned fs') (hn : ¬Plain n)
    (hl : fs.lookup cur n = some i) : fs'.lookup cur n = some i := by
  have hnode := hpruned.node cur
  cases hcur : fs.node cur with
  | file => simp [FileSystem.lookup, hcur] at hl
  | link t => simp [FileSystem.lookup, hcur] at hl
  | dir q es =>
      obtain ⟨es', hcur'⟩ : ∃ es', fs'.node cur = .dir q es' := by
        rw [hcur] at hnode
        generalize fs'.node cur = nd at hnode
        cases hnode with
        | same => exact ⟨es, rfl⟩
        | dir _ _ => exact ⟨_, rfl⟩
      unfold FileSystem.lookup at hl ⊢
      rw [hcur] at hl
      rw [hcur']
      simp only at hl ⊢
      by_cases hself : n = [] ∨ n = dot
      · rwa [if_pos hself] at hl ⊢
      · by_cases hparent : n = dotdot
        · rwa [if_neg hself, if_pos hparent] at hl ⊢
        · -- an entry has another name
          rw [if_neg hself, if_neg hparent] at hl
          refine absurd (fs.plain cur (n, i) ?_) hn
          rw [hcur]
          exact mem_of_lookup hl

/-- In a directory with no entries none is found. -/
theorem lookup_empty (hempty : (fs.node cur).entries = []) (hl : fs.lookup cur n = some i) :
    ¬Plain n := by
  rintro ⟨hne, -, hdot, hdotdot⟩
  unfold FileSystem.lookup at hl
  cases hcur : fs.node cur with
  | file => simp [hcur] at hl
  | link t => simp [hcur] at hl
  | dir q es =>
      rw [hcur] at hempty hl
      cases hempty
      simp [hne, hdot, hdotdot] at hl

/-- A lookup that enters nothing below `d` does not notice what is gone there. -/
theorem WalksOutside.walks (h : WalksOutside fs d b cur ns x) (hpruned : fs.Pruned fs')
    (hout : ∀ i, ¬fs.Below d i → fs'.node i = fs.node i) : fs'.Walks b cur ns x := by
  have lookup : ∀ {cur n i}, (fs.Below d cur → ¬Plain n) → fs.lookup cur n = some i →
      fs'.lookup cur n = some i := by
    intro cur n i hn hl
    by_cases hbelow : fs.Below d cur
    · exact lookup_not_plain hpruned (hn hbelow) hl
    · unfold FileSystem.lookup at hl ⊢
      rwa [hout cur hbelow]
  induction h with
  | nil b cur => exact .nil b cur
  | step hn hl hlink _ ih =>
      exact .step (lookup hn hl) ((hpruned.node _).isLink.trans hlink) ih
  | @link b cur i s x n ns target hn hl hi hs _ ih =>
      have hi' : fs'.node i = .link target := by
        have hnode := hi ▸ hpruned.node i
        generalize fs'.node i = nd at hnode
        cases hnode
        rfl
      refine .link (lookup hn hl) hi' ?_ ih
      cases target with
      | nil => cases hs
      | cons c cs => simpa only [FileSystem.start, hpruned.root] using hs

/-- A lookup that succeeds when all below `d` is gone enters nothing there. -/
theorem walksOutside_of_walks (h : fs'.Walks b cur ns x) (hpruned : fs.Pruned fs')
    (hgone : ∀ i, fs.Below d i → (fs'.node i).entries = []) : WalksOutside fs d b cur ns x := by
  induction h with
  | nil b cur => exact .nil b cur
  | step hl hlink _ ih =>
      exact .step (fun hbelow => lookup_empty (hgone _ hbelow) hl) (hpruned.lookup hl)
        ((hpruned.node _).isLink ▸ hlink) ih
  | link hl hi hs _ ih =>
      exact .link (fun hbelow => lookup_empty (hgone _ hbelow) hl) (hpruned.lookup hl)
        (hi ▸ hpruned.node _).of_link (hpruned.start hs) ih

/-! ## The path afterwards -/

/-- Such a path leads to the tree while it is deleted. -/
theorem LeadsOutside.steady (h : LeadsOutside fs p d) : Steady fs p d := by
  obtain ⟨hlen, s, hs, hwalk⟩ := h
  intro fs' hpruned hout
  refine FileSystem.resolve_eq_some_iff.mpr ⟨hlen, s, ?_, hwalk.walks hpruned hout⟩
  cases p with
  | nil => cases hs
  | cons c cs => simpa only [FileSystem.start, hpruned.root, hpruned.cwd] using hs

/-- **A tree is cleared exactly when its path does not lead through it.** -/
theorem deleteFileAndDir_clears_iff {readdir : Readdir} (hcomplete : readdir.Complete)
    (htree : TreeAt fs p d) : Clears readdir fs p d ↔ LeadsOutside fs p d := by
  constructor
  · intro ⟨fs', hrun, hp, hempty, _⟩
    have hremovals := deleteFileAndDir_removals hrun
    have hpruned := hremovals.pruned
    obtain ⟨hlen, s, hs, hwalk⟩ := FileSystem.resolve_eq_some_iff.mp hp
    refine ⟨hlen, s, hpruned.start (hpruned.cwd ▸ hs), walksOutside_of_walks hwalk hpruned ?_⟩
    exact fun i hi => hremovals.emptied (Node.entries_of_isEmptyDir hempty) hi
  · intro hleads
    have hsteady := hleads.steady
    obtain ⟨fs', hrun, hempties⟩ := deleteFileAndDir_empties hcomplete htree hsteady
    have hpruned := hempties.removals.pruned
    refine ⟨fs', hrun, hsteady fs' hpruned hempties.outside, ?_, hempties.outside⟩
    have hdir : (fs'.node d).isDir = true := by
      rw [hpruned.isDir]
      exact htree.isDir
    exact Node.isEmptyDir_of_entries hdir hempties.empty

/-! ## An empty directory in a directory -/

/-- `/t` holds the empty directory `s`. -/
def nestedTree : FileSystem :=
  FileSystem.ofNodes [.dir 0 [([116], 1)], .dir 0 [([115], 2)], .dir 1 []] 0
    (by decide) (by decide) (by decide)

theorem nestedTree_entry : (n, i) ∈ (nestedTree.node 1).entries ↔ n = [115] ∧ i = 2 := by
  simp [nestedTree, FileSystem.ofNodes, Node.entries]

/-- It is a tree as `/t` and as any other path that is not too long. -/
theorem nestedTree_tree (hlen : p.length + 4 < PATH_MAX) : TreeAt nestedTree p 1 := by
  apply TreeAt.dir
  · rfl
  · intro n i he
    obtain ⟨rfl, rfl⟩ := nestedTree_entry.mp he
    refine ⟨?_, rfl⟩
    rw [length_child]
    show p.length + 1 + 1 < PATH_MAX
    omega
  · intro n i he _
    obtain ⟨rfl, rfl⟩ := nestedTree_entry.mp he
    exact .dir rfl (fun _ _ h => by cases h) (fun _ _ h => by cases h)

theorem nestedTree_outside : LeadsOutside nestedTree [47, 116] 1 := by
  have hroot : ¬nestedTree.Below 1 0 := by
    intro hbelow
    rcases hbelow.head with h | ⟨n, j, he, hbelow⟩
    · cases h
    · obtain ⟨rfl, rfl⟩ := nestedTree_entry.mp he
      cases hbelow.eq_of_entries rfl
  refine ⟨by decide, 0, rfl, ?_⟩
  exact .step (fun h => absurd h hroot) (i := 0) rfl rfl
    (.step (fun h => absurd h hroot) (i := 1) rfl rfl (.nil _ 1))

theorem deleteFileAndDir_clears_iff_nested :
    Clears (fun _ names => names) nestedTree [47, 116] 1 :=
  (deleteFileAndDir_clears_iff (fun _ _ => .refl _) (nestedTree_tree (by decide))).mpr
    nestedTree_outside

/-- `/t/s/..` is `/t`, and once `s` is deleted it is nothing. -/
theorem path_through_tree_lost :
    Readdir.Complete (fun _ names => names) ∧
      nestedTree.resolve [47, 116, 47, 115, 47, 46, 46] = some 1 ∧
      TreeAt nestedTree [47, 116, 47, 115, 47, 46, 46] 1 ∧
      ¬Clears (fun _ names => names) nestedTree [47, 116, 47, 115, 47, 46, 46] 1 := by
  refine ⟨fun _ _ => .refl _, by decide +kernel, nestedTree_tree (by decide), ?_⟩
  intro ⟨fs', hrun, hp, _⟩
  have hlost : (deleteFileAndDir (fun _ names => names) nestedTree
      [47, 116, 47, 115, 47, 46, 46]).map
      (fun fs => fs.resolve [47, 116, 47, 115, 47, 46, 46]) = .ok none := by
    decide +kernel
  rw [hrun] at hlost
  injection hlost with hlost
  cases hlost.symm.trans hp

end BeEasy.Walkthrough
