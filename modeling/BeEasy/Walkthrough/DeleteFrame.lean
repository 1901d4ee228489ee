import BeEasy.Walkthrough.DeleteFileAndDir

/-!
# Walkthrough — what deleting below a path leaves alone

`deleteFileAndDir` decides to descend by `stat`, which follows links, so the
directories it opens (`Visits`) are not the tree below its path (`InTree`)
but everything that tree links to, and whatever is below that.

It stays inside the tree exactly when what it would take out of each
directory it opens is inside (`StaysInside`). For that direction the run is
followed by an invariant, `Kept`: entries are only taken out, none outside
the tree, and none that is anchored, which is to say that a link that leads
to a directory hangs below it. The third part is needed for the entry of the
tree's own root in a directory outside that a link leads back to: that the
root never becomes empty is what keeps it. For the other direction
`readdir` is made to deliver, in each directory on the way, the entry that
leads to the damage first (`steer`).
-/

namespace BeEasy.Walkthrough

open CVerif

/-- `i` is what `path` opens, or below it through entries of directories. -/
def InTree (fs : FileSystem) (path : Path) (i : Ino) : Prop :=
  ∃ r, fs.resolve path = some r ∧ fs.Below r i

/-- What deleting below `path` may do: take entries out of the directories
of the tree. -/
structure LeavesOutside (fs : FileSystem) (path : Path) (fs' : FileSystem) : Prop where
  pruned : fs.Pruned fs'
  outside : ∀ i, ¬InTree fs path i → fs'.node i = fs.node i

/-- Whatever order `readdir` has, `deleteFileAndDir(path)` stays in its
buffer and leaves everything outside the tree below `path` as it was. -/
def DeletesOnlyBelow (fs : FileSystem) (path : Path) : Prop :=
  ∀ readdir : Readdir, readdir.Faithful →
    ∃ fs', deleteFileAndDir readdir fs path = .ok fs' ∧ LeavesOutside fs path fs'

/-- The directories opened, by the path they are opened as. -/
inductive Visits (fs : FileSystem) (path : Path) : Path → Ino → Prop
  | top {d : Ino} : fs.resolve path = some d → (fs.node d).isDir = true → Visits fs path path d
  | down {p : Path} {d i d' : Ino} {n : Name} :
      Visits fs path p d → (n, i) ∈ (fs.node d).entries → fs.resolve (child p n) = some d' →
      (fs.node d').isDir = true → Visits fs path (child p n) d'

/-- The loop over the entries of `p` takes the entry `n` out: it stands for
a file, or for a link to one, or is a directory with nothing in it. -/
def Removable (fs : FileSystem) (p : Path) (n : Name) (i : Ino) : Prop :=
  (∃ nd, fs.stat (child p n) = some nd ∧ nd.isDir = false) ∨ (fs.node i).isEmptyDir = true

/-- Every path built fits its buffer, and the directories that links lead to
outside the tree hold nothing that would be taken out. -/
def StaysInside (fs : FileSystem) (path : Path) : Prop :=
  ∀ p d, Visits fs path p d → ∀ n i, (n, i) ∈ (fs.node d).entries →
    (child p n).length < PATH_MAX ∧ (¬InTree fs path d → ¬Removable fs p n i)

/-- An entry that is a link leading to a directory, or has such a link below it. -/
inductive Anchored (fs : FileSystem) : Ino → Name → Ino → Prop
  | link {d i x : Ino} {n : Name} :
      (n, i) ∈ (fs.node d).entries → (fs.node i).isLink = true → fs.Leads d n x →
      (fs.node x).isDir = true → Anchored fs d n i
  | held {d i j : Ino} {n m : Name} :
      (n, i) ∈ (fs.node d).entries → Anchored fs i m j → Anchored fs d n i

/-! ## Visited directories -/

section Visited

variable {fs : FileSystem} {path p : Path} {d i : Ino} {n : Name}

theorem Visits.resolve (h : Visits fs path p d) : fs.resolve p = some d := by
  cases h with
  | top hd _ => exact hd
  | down _ _ hd _ => exact hd

theorem Anchored.entry (h : Anchored fs d n i) : (n, i) ∈ (fs.node d).entries := by
  cases h with
  | link he _ _ _ => exact he
  | held he _ => exact he

theorem Anchored.leads (h : Anchored fs d n i) :
    ∃ x, fs.Leads d n x ∧ (fs.node x).isDir = true := by
  cases h with
  | @link _ _ x _ _ _ hx hdir => exact ⟨x, hx, hdir⟩
  | held he hsub =>
      have hdir := Node.isDir_of_mem_entries hsub.entry
      exact ⟨i, FileSystem.leads_entry he (Node.isLink_eq_false_of_isDir hdir), hdir⟩

/-- An anchor below a directory is an anchor in it. -/
theorem anchored_of_below {r : Ino} (h : fs.Below r d) (ha : Anchored fs d n i) :
    ∃ m j, Anchored fs r m j := by
  induction h generalizing n i with
  | refl => exact ⟨n, i, ha⟩
  | entry _ he ih => exact ih (.held he ha)

/-- The run leaves the tree by a link, and that link anchors the root. -/
theorem Visits.inTree_or_anchored (h : Visits fs path p d) :
    InTree fs path d ∨ ∃ r m j, fs.resolve path = some r ∧ Anchored fs r m j := by
  induction h with
  | @top d hd _ => exact .inl ⟨d, hd, .refl⟩
  | @down p d i d' n hv he hd' hdir ih =>
      rcases ih with ⟨r, hr, hbelow⟩ | hanch
      · have hleads := FileSystem.leads_of_resolve_child (fs.plain d _ he) hv.resolve hd'
        -- inside the tree: a directory is in it too, a link anchors its directory
        cases hlink : (fs.node i).isLink with
        | false =>
            cases hleads.unique (FileSystem.leads_entry he hlink)
            exact .inl ⟨r, hr, hbelow.entry he⟩
        | true =>
            obtain ⟨m, j, ha⟩ := anchored_of_below hbelow (.link he hlink hleads hdir)
            exact .inr ⟨r, m, j, hr, ha⟩
      · exact .inr hanch

end Visited

/-! ## The run stays inside -/

/-- What holds of the file system throughout a run that began at `fs₀`. -/
structure Kept (fs₀ : FileSystem) (path : Path) (fs : FileSystem) : Prop
    extends LeavesOutside fs₀ path fs where
  anchored : ∀ d n i, Anchored fs₀ d n i → (n, i) ∈ (fs.node d).entries

section Run

variable {fs₀ fs : FileSystem} {path p : Path} {d : Ino} {n : Name}

theorem Kept.init (fs₀ : FileSystem) (path : Path) : Kept fs₀ path fs₀ where
  pruned := .refl fs₀
  outside _ _ := rfl
  anchored _ _ _ h := h.entry

/-- Taking an entry out of a directory of the tree, if no link is lost. -/
theorem Kept.without {i : Ino} (hk : Kept fs₀ path fs) (hd : InTree fs₀ path d)
    (he : (n, i) ∈ (fs.node d).entries) (hfree : ¬Anchored fs₀ d n i) :
    Kept fs₀ path (fs.without d n) where
  pruned := hk.pruned.trans (.without fs d n)
  outside j hj := by
    have hjd : j ≠ d := fun h => hj (h ▸ hd)
    rw [FileSystem.node_without_ne n hjd]
    exact hk.outside j hj
  anchored d' m j ha := by
    refine FileSystem.mem_without.mpr ⟨hk.anchored d' m j ha, ?_⟩
    rintro ⟨rfl, rfl⟩
    -- a directory has one entry of a name, so the one taken out is the anchored one
    have hij : some j = some i :=
      (FileSystem.lookup_entry (hk.anchored _ _ j ha)).symm.trans (FileSystem.lookup_entry he)
    cases hij
    exact hfree ha

/-- A removal below a visited directory, by what is removed: it must be an
entry of the tree that anchors nothing. -/
theorem Kept.removeEntry {allowed : Node → Bool} (hk : Kept fs₀ path fs)
    (hv : Visits fs₀ path p d) (hn : Plain n)
    (hin : ∀ i, (n, i) ∈ (fs.node d).entries → allowed (fs.node i) = true → InTree fs₀ path d)
    (hfree : ∀ i, (n, i) ∈ (fs.node d).entries → allowed (fs.node i) = true →
      ¬Anchored fs₀ d n i) :
    Kept fs₀ path (FileSystem.removeEntry allowed fs (child p n)) := by
  rcases FileSystem.removeEntry_cases allowed fs (child p n) with
    hsame | ⟨d', n', i, hparent, he, hallowed, hgone⟩
  · rw [hsame]
    exact hk
  · -- if the path still leads anywhere, it leads where it led at the start
    obtain ⟨hd', rfl⟩ := FileSystem.resolve_of_parentOf_child hn
      (FileSystem.ne_nil_of_resolve hv.resolve) hparent
    cases (hk.pruned.resolve hd').symm.trans hv.resolve
    rw [hgone]
    exact hk.without (hin i he hallowed) he (hfree i he hallowed)

theorem Kept.remove (hstay : StaysInside fs₀ path) (hk : Kept fs₀ path fs)
    (hv : Visits fs₀ path p d) (hn : Plain n) {f_stat : Node}
    (hstat : fs.stat (child p n) = some f_stat) (hdir : f_stat.isDir = false) :
    Kept fs₀ path (fs.remove (child p n)) := by
  obtain ⟨x, hx, rfl⟩ := FileSystem.stat_eq_some_iff.mp hstat
  have hx₀ := hk.pruned.resolve hx
  have hdir₀ : (fs₀.node x).isDir = false := by rw [← hk.pruned.isDir, hdir]
  apply hk.removeEntry hv hn
  · intro i he _
    by_contra hout
    apply (hstay p d hv n i (hk.pruned.entry he)).2 hout
    exact .inl ⟨_, FileSystem.stat_eq_some_iff.mpr ⟨x, hx₀, rfl⟩, hdir₀⟩
  · -- an anchored entry leads to a directory, and still does when it is its turn
    intro i _ _ ha
    obtain ⟨y, hy, hydir⟩ := ha.leads
    have hxy := (FileSystem.leads_of_resolve_child hn hv.resolve hx₀).unique hy
    subst hxy
    rw [hdir₀] at hydir
    cases hydir

theorem Kept.rmdir (hstay : StaysInside fs₀ path) (hk : Kept fs₀ path fs)
    (hv : Visits fs₀ path p d) (hn : Plain n) :
    Kept fs₀ path (fs.rmdir (child p n)) := by
  apply hk.removeEntry hv hn
  · intro i he hempty
    have he₀ := hk.pruned.entry he
    by_contra hout
    apply (hstay p d hv n i he₀).2 hout
    right
    by_cases hi : InTree fs₀ path i
    · -- `i` is the root of the tree, seen from outside: its anchor is still there
      obtain ⟨r, hr, hbelow⟩ := hi
      have hdir₀ : (fs₀.node i).isDir = true := by
        rw [← hk.pruned.isDir]
        exact Node.isDir_of_isEmptyDir hempty
      rcases hbelow.listed he₀ hdir₀ with rfl | hd
      · rcases hv.inTree_or_anchored with hd | ⟨r', m, j, hr', ha⟩
        · exact absurd hd hout
        · cases hr.symm.trans hr'
          have hmem := hk.anchored _ m j ha
          rw [Node.entries_of_isEmptyDir hempty] at hmem
          cases hmem
      · exact absurd ⟨r, hr, hd⟩ hout
    · rw [← hk.outside i hi]
      exact hempty
  · intro i _ hempty ha
    cases ha with
    | link _ hlink _ _ =>
        rw [← (hk.pruned.node i).isLink, Node.isLink_eq_false_of_isDir
          (Node.isDir_of_isEmptyDir hempty)] at hlink
        cases hlink
    | @held _ _ j _ m _ hsub =>
        have hmem := hk.anchored _ m j hsub
        rw [Node.entries_of_isEmptyDir hempty] at hmem
        cases hmem

/-- The nested call, for a path that opens a visited directory if anything. -/
def KeepsBelow (fs₀ : FileSystem) (path : Path)
    (deleteDir : FileSystem → Path → Except Fault FileSystem) : Prop :=
  ∀ fs q, Kept fs₀ path fs →
    (∀ x, fs₀.resolve q = some x → (fs₀.node x).isDir = true → Visits fs₀ path q x) →
    ∃ fs', deleteDir fs q = .ok fs' ∧ Kept fs₀ path fs'

theorem deleteEntries_kept {deleteDir : FileSystem → Path → Except Fault FileSystem}
    (hrec : KeepsBelow fs₀ path deleteDir) (hstay : StaysInside fs₀ path)
    (hv : Visits fs₀ path p d) {names : List Name}
    (hnames : ∀ n ∈ names, (n = dot ∨ n = dotdot) ∨ ∃ i, (n, i) ∈ (fs₀.node d).entries)
    (hk : Kept fs₀ path fs) :
    ∃ fs', deleteEntries deleteDir p names fs = .ok fs' ∧ Kept fs₀ path fs' := by
  induction names generalizing fs with
  | nil => exact ⟨fs, rfl, hk⟩
  | cons n names ih =>
      have hrest := fun m hm => hnames m (List.mem_cons_of_mem n hm)
      rcases hnames n List.mem_cons_self with hdots | ⟨i, he⟩
      · rw [deleteEntries_dots hdots]
        exact ih hrest hk
      have hn := fs₀.plain d _ he
      have hnd : ¬(n = dot ∨ n = dotdot) := not_or.mpr hn.2.2
      have hlen := (hstay p d hv n i he).1
      cases hstat : fs.stat (child p n) with
      | none => exact ⟨fs, deleteEntries_gone hnd hlen hstat, hk⟩
      | some f_stat =>
          cases hdir : f_stat.isDir with
          | false =>
              rw [deleteEntries_file hnd hlen hstat hdir]
              exact ih hrest (hk.remove hstay hv hn hstat hdir)
          | true =>
              rw [deleteEntries_dir hnd hlen hstat hdir]
              obtain ⟨fs₁, hrun, hk₁⟩ := hrec fs (child p n) hk
                (fun x hx hxdir => hv.down he hx hxdir)
              rw [hrun]
              exact ih hrest (hk₁.rmdir hstay hv hn)

theorem deleteWithin_kept {readdir : Readdir} (hfaithful : readdir.Faithful)
    (hstay : StaysInside fs₀ path) (depth : Nat) :
    KeepsBelow fs₀ path (deleteWithin readdir depth) := by
  induction depth with
  | zero => exact fun fs q hk _ => ⟨fs, rfl, hk⟩
  | succ depth ih =>
      intro fs q hk hvisit
      unfold deleteWithin
      cases hopen : fs.opendir q with
      | none => exact ⟨fs, rfl, hk⟩
      | some names =>
          obtain ⟨d, hd, hdir, rfl⟩ := FileSystem.opendir_eq_some_iff.mp hopen
          have hv := hvisit d (hk.pruned.resolve hd) (hk.pruned.isDir d ▸ hdir)
          refine deleteEntries_kept ih hstay hv ?_ hk
          intro n hn
          have hlisted := (hfaithful q _).subset hn
          simp only [List.mem_cons, List.mem_map] at hlisted
          rcases hlisted with rfl | rfl | ⟨e, he, rfl⟩
          · exact .inl (.inl rfl)
          · exact .inl (.inr rfl)
          · exact .inr ⟨e.2, hk.pruned.entry he⟩

end Run

/-! ## The run strays -/

/-- The name after `q` in a path that continues it. -/
def nextName (target q : Path) : Name :=
  (target.drop (q.length + 1)).takeWhile (· ≠ slash)

/-- A listing with `n`, if it has it, first. -/
def listFirst (n : Name) (names : List Name) : List Name :=
  if n ∈ names then n :: names.erase n else names

/-- Each directory on the way to `target` lists the entry that leads there first. -/
def steer (target : Path) : Readdir :=
  fun q names => listFirst (nextName target q) names

theorem listFirst_perm (n : Name) (names : List Name) : (listFirst n names).Perm names := by
  unfold listFirst
  by_cases h : n ∈ names
  · rw [if_pos h]
    exact (List.perm_cons_erase h).symm
  · rw [if_neg h]

theorem steer_faithful (target : Path) : (steer target).Faithful :=
  fun _ names => (listFirst_perm _ names).subperm

theorem takeWhile_name {n : Name} (h : slash ∉ n) (rest : Path) :
    (n ++ rest).takeWhile (· ≠ slash) = n ++ rest.takeWhile (· ≠ slash) := by
  apply List.takeWhile_append_of_pos
  intro c hc
  have hne : c ≠ slash := fun heq => h (heq ▸ hc)
  simpa using hne

theorem nextName_child {n : Name} (h : slash ∉ n) (p rest : Path) :
    nextName (child (child p n) rest) p = n := by
  have hdrop : (child (child p n) rest).drop (p.length + 1) = n ++ slash :: rest := by
    simp [child, List.drop_append]
  unfold nextName
  rw [hdrop, takeWhile_name h]
  simp

theorem nextName_last {n : Name} (h : slash ∉ n) (p : Path) : nextName (child p n) p = n := by
  have hdrop : (child p n).drop (p.length + 1) = n ++ [] := by
    simp [child, List.drop_append]
  unfold nextName
  rw [hdrop, takeWhile_name h]
  simp

section Strays

variable {fs : FileSystem} {path p target : Path} {d i : Ino} {n : Name}
  {Q : FileSystem → Prop}

/-- The run faults, or ends in a file system with `Q`. -/
def EndsIn (Q : FileSystem → Prop) (run : Except Fault FileSystem) : Prop :=
  ∀ fs', run = .ok fs' → Q fs'

/-- In a directory on the way the entry that leads on comes first. -/
theorem deleteFileAndDir_steer (hd : fs.resolve p = some d) (he : (n, i) ∈ (fs.node d).entries)
    (hnext : nextName target p = n) :
    ∃ rest, deleteFileAndDir (steer target) fs p =
      deleteEntries (deleteFileAndDir (steer target)) p (n :: rest) fs := by
  have hopen := FileSystem.opendir_eq_some_iff.mpr
    ⟨d, hd, Node.isDir_of_mem_entries he, rfl⟩
  have hmem : n ∈ dot :: dotdot :: (fs.node d).entries.map Prod.fst :=
    List.mem_cons_of_mem _ (List.mem_cons_of_mem _ (List.mem_map_of_mem (f := Prod.fst) he))
  refine ⟨(dot :: dotdot :: (fs.node d).entries.map Prod.fst).erase n, ?_⟩
  rw [deleteFileAndDir_eq, hopen]
  simp only [steer, hnext, listFirst, if_pos hmem]

/-- A directory with no entry is opened and closed. -/
theorem deleteFileAndDir_empty {readdir : Readdir} (hfaithful : readdir.Faithful)
    (hd : fs.resolve p = some d) (hempty : (fs.node d).isEmptyDir = true) :
    deleteFileAndDir readdir fs p = .ok fs := by
  have hopen := FileSystem.opendir_eq_some_iff.mpr
    ⟨d, hd, Node.isDir_of_isEmptyDir hempty, rfl⟩
  rw [Node.entries_of_isEmptyDir hempty] at hopen
  have hdots : ∀ names : List Name, (∀ m ∈ names, m = dot ∨ m = dotdot) →
      deleteEntries (deleteFileAndDir readdir) p names fs = .ok fs := by
    intro names hnames
    induction names with
    | nil => rfl
    | cons m names ih =>
        rw [deleteEntries_dots (hnames m List.mem_cons_self)]
        exact ih fun k hk => hnames k (List.mem_cons_of_mem m hk)
  rw [deleteFileAndDir_eq, hopen]
  apply hdots
  intro m hm
  simpa using (hfaithful _ _).subset hm

/-! ### At the entry -/

/-- The path of the entry overflows the buffer. -/
theorem faults_last (hd : fs.resolve p = some d) (he : (n, i) ∈ (fs.node d).entries)
    (hlen : ¬(child p n).length < PATH_MAX) :
    EndsIn (fun _ => False) (deleteFileAndDir (steer (child p n)) fs p) := by
  have hn := fs.plain d _ he
  obtain ⟨rest, hrun⟩ := deleteFileAndDir_steer hd he (nextName_last hn.2.1 p)
  rw [hrun, deleteEntries_overflow (not_or.mpr hn.2.2) hlen]
  intro fs' h
  cases h

/-- An entry that `stat` takes for a file is none that is a directory. -/
theorem isDir_eq_false_of_stat (hd : fs.resolve p = some d)
    (he : (n, i) ∈ (fs.node d).entries) (hlen : (child p n).length < PATH_MAX) {nd : Node}
    (hstat : fs.stat (child p n) = some nd) (hdir : nd.isDir = false) :
    (fs.node i).isDir = false := by
  cases hi : (fs.node i).isDir with
  | false => rfl
  | true =>
      obtain ⟨x, hx, rfl⟩ := FileSystem.stat_eq_some_iff.mp hstat
      cases hx.symm.trans
        (FileSystem.resolve_entry hd he (Node.isLink_eq_false_of_isDir hi) hlen)
      exact hi.symm.trans hdir

/-- The entry is taken out, and stays out. -/
theorem loses_last (hd : fs.resolve p = some d) (he : (n, i) ∈ (fs.node d).entries)
    (hlen : (child p n).length < PATH_MAX) (hrem : Removable fs p n i) :
    EndsIn (fun fs' => (n, i) ∉ (fs'.node d).entries)
      (deleteFileAndDir (steer (child p n)) fs p) := by
  have hn := fs.plain d _ he
  have hnd : ¬(n = dot ∨ n = dotdot) := not_or.mpr hn.2.2
  obtain ⟨rest, hrun⟩ := deleteFileAndDir_steer hd he (nextName_last hn.2.1 p)
  -- whichever call takes it out, the rest of the loop starts without the entry
  have hrest : deleteFileAndDir (steer (child p n)) fs p =
      deleteEntries (deleteFileAndDir (steer (child p n))) p rest (fs.without d n) := by
    rw [hrun]
    rcases hrem with ⟨nd, hstat, hdir⟩ | hempty
    · have hi := isDir_eq_false_of_stat hd he hlen hstat hdir
      rw [deleteEntries_file hnd hlen hstat hdir]
      unfold FileSystem.remove
      rw [FileSystem.removeEntry_child hd he hlen (by rw [hi]; rfl)]
    · have hidir := Node.isDir_of_isEmptyDir hempty
      have hx := FileSystem.resolve_entry hd he (Node.isLink_eq_false_of_isDir hidir) hlen
      have hstat := FileSystem.stat_eq_some_iff.mpr ⟨i, hx, rfl⟩
      rw [deleteEntries_dir hnd hlen hstat hidir,
        deleteFileAndDir_empty (steer_faithful _) hx hempty]
      show deleteEntries _ p rest (fs.rmdir (child p n)) = _
      unfold FileSystem.rmdir
      rw [FileSystem.removeEntry_child hd he hlen hempty]
  rw [hrest]
  intro fs' hok hmem
  have hrest := deleteEntries_removals (fun _ _ _ => deleteFileAndDir_removals) hok
  have hleft := hrest.pruned.entry hmem
  simp [FileSystem.mem_without] at hleft

/-! ### Back up to the path -/

/-- How a nested call that comes first ends, the call that makes it ends. -/
theorem EndsIn.up (hQ : ∀ fs fs', fs.Pruned fs' → Q fs → Q fs') (hd : fs.resolve p = some d)
    (he : (n, i) ∈ (fs.node d).entries) {x : Ino} (hx : fs.resolve (child p n) = some x)
    (hxdir : (fs.node x).isDir = true) (hnext : nextName target p = n)
    (hsub : EndsIn Q (deleteFileAndDir (steer target) fs (child p n))) :
    EndsIn Q (deleteFileAndDir (steer target) fs p) := by
  have hn : ¬(n = dot ∨ n = dotdot) := not_or.mpr (fs.plain d _ he).2.2
  obtain ⟨rest, hrun⟩ := deleteFileAndDir_steer hd he hnext
  have hstat := FileSystem.stat_eq_some_iff.mpr ⟨x, hx, rfl⟩
  rw [hrun, deleteEntries_dir hn (FileSystem.length_of_resolve hx) hstat hxdir]
  cases hnest : deleteFileAndDir (steer target) fs (child p n) with
  | error e =>
      intro fs' h
      cases h
  | ok fs₁ =>
      intro fs' hok
      have hrest : (fs₁.rmdir (child p n)).Pruned fs' :=
        (deleteEntries_removals (fun _ _ _ => deleteFileAndDir_removals) hok).pruned
      exact hQ _ _ ((FileSystem.Pruned.removeEntry _ fs₁ _).trans hrest) (hsub fs₁ hnest)

/-- From a directory opened up to where the run begins. -/
theorem EndsIn.top (hQ : ∀ fs fs', fs.Pruned fs' → Q fs → Q fs') (hv : Visits fs path p d)
    {rest : Path} (htarget : target = child p rest)
    (h : EndsIn Q (deleteFileAndDir (steer target) fs p)) :
    EndsIn Q (deleteFileAndDir (steer target) fs path) := by
  induction hv generalizing rest with
  | top _ _ => exact h
  | @down p d j x m hv he hx hxdir ih =>
      have hnext : nextName target p = m := by
        rw [htarget]
        exact nextName_child (fs.plain d _ he).2.1 p rest
      have hlonger : target = child p (child m rest) := by
        rw [htarget]
        simp [child]
      exact ih hlonger (h.up hQ hv.resolve he hx hxdir hnext)

end Strays

/-- **Deleting stays below the path exactly when nothing that would be taken
out is linked to outside it, and every path fits its buffer.** -/
theorem deletesOnlyBelow_iff (fs : FileSystem) (path : Path) :
    DeletesOnlyBelow fs path ↔ StaysInside fs path := by
  constructor
  · intro honly p d hv n i he
    obtain ⟨fs', hrun, hleaves⟩ := honly (steer (child p n)) (steer_faithful _)
    have hlen : (child p n).length < PATH_MAX := by
      by_contra hlen
      exact (faults_last hv.resolve he hlen).top (fun _ _ _ => id) hv rfl fs' hrun
    refine ⟨hlen, fun hout hrem => ?_⟩
    have hgone := (loses_last hv.resolve he hlen hrem).top
      (fun _ _ hpruned hnot hmem => hnot (hpruned.entry hmem)) hv rfl fs' hrun
    rw [hleaves.outside d hout] at hgone
    exact hgone he
  · intro hstay readdir hfaithful
    obtain ⟨fs', hrun, hk⟩ := deleteWithin_kept hfaithful hstay PATH_MAX fs path
      (.init fs path) (fun x hx hdir => .top hx hdir)
    exact ⟨fs', hrun, hk.toLeavesOutside⟩

/-! ## A link to a directory elsewhere -/

/-- `/t` holds a link `l` to the directory `/o`, which holds a file `f`. -/
def linkedTree : FileSystem :=
  FileSystem.ofNodes
    [.dir 0 [([116], 1), ([111], 2)], .dir 0 [([108], 3)], .dir 0 [([102], 4)],
      .link [47, 111], .file]
    0 (by decide) (by decide) (by decide)

/-- In directory order the run takes `f` out of `/o`. -/
theorem linkedTree_run :
    (deleteFileAndDir (fun _ names => names) linkedTree [47, 116]).map
      (fun fs => (fs.node 2).entries) = .ok [] := by
  decide +kernel

theorem linkedTree_below {i : Ino} (h : linkedTree.Below 1 i) : i = 1 ∨ i = 3 := by
  induction h with
  | refl => exact .inl rfl
  | @entry d i n _ he ih =>
      rcases ih with rfl | rfl
      · simp [linkedTree, FileSystem.ofNodes, Node.entries] at he
        exact .inr he.2
      · simp [linkedTree, FileSystem.ofNodes, Node.entries] at he

/-- That is outside the tree below `/t`. -/
theorem linked_directory_emptied : ¬DeletesOnlyBelow linkedTree [47, 116] := by
  intro honly
  obtain ⟨fs', hrun, hleaves⟩ := honly (fun _ names => names) fun _ names => .refl names
  have hout : ¬InTree linkedTree [47, 116] 2 := by
    rintro ⟨r, hr, hbelow⟩
    have hroot : linkedTree.resolve [47, 116] = some 1 := by decide +kernel
    cases hroot.symm.trans hr
    rcases linkedTree_below hbelow with h | h
    · cases h
    · cases h
  have hempty := linkedTree_run
  rw [hrun] at hempty
  have hentries : (fs'.node 2).entries = [] := by
    injection hempty
  rw [hleaves.outside 2 hout] at hentries
  cases hentries

end BeEasy.Walkthrough
