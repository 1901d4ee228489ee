import BeEasy.CVerif.Calendar
import BeEasy.CVerif.DirectoryTree
import BeEasy.Walkthrough.DeleteTree

/-!
# Walkthrough — deleting what is large or old

`deleteFile` of `walkthroughPath.c`: subdirectories go with all they hold,
files when they are large or were modified more than three days ago. The age
is the difference of two days of the year, which is the number of days in
between as long as no new year is (`ageTest_iff`).

Times are seconds, with no bound: that `localtime_r` refuses a year that no
`int` holds is left out.
-/

namespace BeEasy.Walkthrough

open CVerif

/-- What `stat` tells of a node besides its kind. -/
structure Attributes where
  st_size : Ino → FileSize
  st_mtime : Ino → Int

/-- The largest file that is kept, in bytes. -/
def SIZE_LIMIT : Nat := 314572800

/-- The loop over the entries. -/
def sweepEntries (readdir : Readdir) (attrs : Attributes) (offset : Int → Int) (today : Tm)
    (path : Path) : List Name → FileSystem → Except Fault FileSystem
  | [], fs => .ok fs
  | d_name :: rest, fs =>
      if d_name = dot ∨ d_name = dotdot then sweepEntries readdir attrs offset today path rest fs
      else do
        let filename ← filename path d_name
        match fs.resolve filename with
        | none => .ok fs
        | some ino =>
            if (fs.node ino).isDir then
              let fs ← deleteFileAndDir readdir fs filename
              sweepEntries readdir attrs offset today path rest (fs.rmdir filename)
            else if SIZE_LIMIT < attrs.st_size ino then
              sweepEntries readdir attrs offset today path rest (fs.remove filename)
            else
              let mtime := localtime offset (attrs.st_mtime ino)
              if 3 < today.tm_yday - mtime.tm_yday then
                sweepEntries readdir attrs offset today path rest (fs.remove filename)
              else sweepEntries readdir attrs offset today path rest fs

/-- `deleteFile(path)`, called at the time `now`. -/
def deleteFile (readdir : Readdir) (attrs : Attributes) (offset : Int → Int) (now : Int)
    (fs : FileSystem) (path : Path) : Except Fault FileSystem :=
  let today := localtime offset now
  match fs.opendir path with
  | none => .ok fs
  | some names => sweepEntries readdir attrs offset today path (readdir path names) fs

/-! ## What it is for -/

/-- Too large, or last modified more than three days before today. -/
def Stale (attrs : Attributes) (offset : Int → Int) (now : Int) (i : Ino) : Prop :=
  SIZE_LIMIT < attrs.st_size i ∨
    3 < localDay offset now - localDay offset (attrs.st_mtime i)

/-- The stale files of `d` are gone and its subdirectories with all they
held; every other file is kept, and so is all that is not below `d`. -/
structure SweepsRight (attrs : Attributes) (offset : Int → Int) (now : Int) (fs : FileSystem)
    (d : Ino) (fs' : FileSystem) : Prop where
  pruned : fs.Pruned fs'
  files : ∀ n i, (n, i) ∈ (fs.node d).entries → (fs.node i).isDir = false →
    ((n, i) ∈ (fs'.node d).entries ↔ ¬Stale attrs offset now i)
  subdirs : ∀ n i, (n, i) ∈ (fs.node d).entries → (fs.node i).isDir = true →
    (n, i) ∉ (fs'.node d).entries ∧ ∀ j, fs.Below i j → (fs'.node j).entries = []
  outside : ∀ j, ¬fs.Below d j → fs'.node j = fs.node j

/-! ## The test of the age -/

/-- The days of the year tell whether three days have passed: no new year
is in between, or the day of the year alone is more than three ahead, or
three days have not passed anyway. (A file of a later year is one whose
clock was since put back.) -/
def AgeTestRight (today modified : Int) : Prop :=
  (yearOf modified < yearOf today →
    3 < dayOfYear today - dayOfYear modified ∨ today - modified ≤ 3) ∧
  (yearOf today < yearOf modified → dayOfYear today - dayOfYear modified ≤ 3)

theorem ageTest_iff {today modified : Int} :
    (3 < dayOfYear today - dayOfYear modified ↔ 3 < today - modified) ↔
      AgeTestRight today modified := by
  unfold AgeTestRight
  rcases Int.lt_trichotomy (yearOf modified) (yearOf today) with h | h | h
  · have hgap := dayOfYear_sub_later h
    omega
  · have hsame := dayOfYear_sub_same h
    omega
  · -- `modified` is the later day, though not by a whole year of days
    have hgap := dayOfYear_sub_later h
    have hfirst := dayOfYear_nonneg modified
    have hlast := dayOfYear_lt today
    omega

/-! ## One entry -/

section Entry

variable {readdir : Readdir} {attrs : Attributes} {offset : Int → Int} {today : Tm}
  {fs fs' : FileSystem} {path : Path} {d i : Ino} {n : Name} {names : List Name}

/-- The tests of a file: its size, and the days of the year. -/
def Expired (attrs : Attributes) (offset : Int → Int) (today : Tm) (i : Ino) : Prop :=
  SIZE_LIMIT < attrs.st_size i ∨
    3 < today.tm_yday - (localtime offset (attrs.st_mtime i)).tm_yday

theorem sweepEntries_dots (hn : n = dot ∨ n = dotdot) :
    sweepEntries readdir attrs offset today path (n :: names) fs =
      sweepEntries readdir attrs offset today path names fs := by
  conv_lhs => unfold sweepEntries
  rw [if_pos hn]

theorem sweepEntries_entry (hn : ¬(n = dot ∨ n = dotdot))
    (hi : fs.resolve (child path n) = some i) :
    sweepEntries readdir attrs offset today path (n :: names) fs =
      if (fs.node i).isDir then do
        let fs ← deleteFileAndDir readdir fs (child path n)
        sweepEntries readdir attrs offset today path names (fs.rmdir (child path n))
      else if SIZE_LIMIT < attrs.st_size i then
        sweepEntries readdir attrs offset today path names (fs.remove (child path n))
      else if 3 < today.tm_yday - (localtime offset (attrs.st_mtime i)).tm_yday then
        sweepEntries readdir attrs offset today path names (fs.remove (child path n))
      else sweepEntries readdir attrs offset today path names fs := by
  conv_lhs => unfold sweepEntries
  rw [if_neg hn, filename_ok (FileSystem.length_of_resolve hi)]
  show (match fs.resolve (child path n) with | none => _ | some _ => _) = _
  rw [hi]

theorem sweepEntries_expired (hn : ¬(n = dot ∨ n = dotdot))
    (hi : fs.resolve (child path n) = some i) (hdir : (fs.node i).isDir = false)
    (hexpired : Expired attrs offset today i) :
    sweepEntries readdir attrs offset today path (n :: names) fs =
      sweepEntries readdir attrs offset today path names (fs.remove (child path n)) := by
  rw [sweepEntries_entry hn hi, hdir]
  rcases hexpired with hsize | hage
  · simp only [hsize, if_true, Bool.false_eq_true, if_false]
  · simp only [hage, if_true, Bool.false_eq_true, if_false, ite_self]

theorem sweepEntries_kept (hn : ¬(n = dot ∨ n = dotdot))
    (hi : fs.resolve (child path n) = some i) (hdir : (fs.node i).isDir = false)
    (hkept : ¬Expired attrs offset today i) :
    sweepEntries readdir attrs offset today path (n :: names) fs =
      sweepEntries readdir attrs offset today path names fs := by
  obtain ⟨hsize, hage⟩ := not_or.mp hkept
  rw [sweepEntries_entry hn hi, hdir]
  simp only [hsize, hage, Bool.false_eq_true, if_false]

/-- One round takes the entry, or is one of a file that is kept. -/
theorem sweepEntries_round (hcomplete : readdir.Complete) (htree : TreeAt fs path d)
    (hsteady : Steady fs path d) (he : (n, i) ∈ (fs.node d).entries) :
    (((fs.node i).isDir = true ∨ Expired attrs offset today i) ∧ ∃ fs', Taken fs d n i fs' ∧
      sweepEntries readdir attrs offset today path (n :: names) fs =
        sweepEntries readdir attrs offset today path names fs') ∨
    ((fs.node i).isDir = false ∧ ¬Expired attrs offset today i ∧
      sweepEntries readdir attrs offset today path (n :: names) fs =
        sweepEntries readdir attrs offset today path names fs) := by
  have hn : ¬(n = dot ∨ n = dotdot) := not_or.mpr (fs.plain d _ he).2.2
  have hi := FileSystem.resolve_entry hsteady.resolve he (htree.isLink he) (htree.fits he)
  cases hdir : (fs.node i).isDir with
  | true =>
      obtain ⟨fs₁, hrun, hempties⟩ :=
        deleteFileAndDir_empties hcomplete (htree.subtree he hdir) (hsteady.child htree he)
      refine .inl ⟨.inl rfl, _, taken_rmdir htree hsteady he hdir hempties, ?_⟩
      rw [sweepEntries_entry hn hi, hdir, hrun]
      rfl
  | false =>
      by_cases hexpired : Expired attrs offset today i
      · exact .inl ⟨.inr hexpired, _, taken_remove htree hsteady he hdir,
          sweepEntries_expired hn hi hdir hexpired⟩
      · exact .inr ⟨rfl, hexpired, sweepEntries_kept hn hi hdir hexpired⟩

/-! ## The run -/

/-- What the loop leaves of directory `d`, `names` being those it reads. -/
structure Swept (attrs : Attributes) (offset : Int → Int) (today : Tm) (fs : FileSystem)
    (d : Ino) (names : List Name) (fs' : FileSystem) : Prop where
  removals : fs.Removals fs'
  entries : ∀ n i, (n, i) ∈ (fs.node d).entries → ((n, i) ∈ (fs'.node d).entries ↔
    (n ∈ names → (fs.node i).isDir = false ∧ ¬Expired attrs offset today i))
  emptied : ∀ n i, (n, i) ∈ (fs.node d).entries → n ∈ names → (fs.node i).isDir = true →
    (fs'.node i).entries = []
  outside : ∀ j, ¬fs.Below d j → fs'.node j = fs.node j

/-- A name that is none of an entry makes no difference. -/
theorem Swept.skip (hdots : n = dot ∨ n = dotdot)
    (h : Swept attrs offset today fs d names fs') :
    Swept attrs offset today fs d (n :: names) fs' := by
  have hne : ∀ m i, (m, i) ∈ (fs.node d).entries → (m ∈ n :: names ↔ m ∈ names) := by
    intro m i he
    rw [List.mem_cons, or_iff_right]
    rintro rfl
    exact not_or.mpr (fs.plain d _ he).2.2 hdots
  constructor
  · exact h.removals
  · intro m i he
    rw [hne m i he]
    exact h.entries m i he
  · intro m i he hm
    exact h.emptied m i he ((hne m i he).mp hm)
  · exact h.outside

/-- The entry `n` was kept. -/
theorem Swept.keep (hn : n ∉ names) (hdir : (fs.node i).isDir = false)
    (hkept : ¬Expired attrs offset today i) (he : (n, i) ∈ (fs.node d).entries)
    (h : Swept attrs offset today fs d names fs') :
    Swept attrs offset today fs d (n :: names) fs' := by
  have hsame : ∀ j, (n, j) ∈ (fs.node d).entries → j = i := fun j hj =>
    Option.some.inj ((FileSystem.lookup_entry hj).symm.trans (FileSystem.lookup_entry he))
  constructor
  · exact h.removals
  · intro m j hj
    by_cases hmn : m = n
    · subst hmn
      cases hsame j hj
      rw [h.entries m i hj]
      exact iff_of_true (fun hm => absurd hm hn) fun _ => ⟨hdir, hkept⟩
    · rw [h.entries m j hj, List.mem_cons, or_iff_right hmn]
  · intro m j hj hm hjdir
    rcases List.mem_cons.mp hm with rfl | hm
    · cases hsame j hj
      rw [hdir] at hjdir
      cases hjdir
    · exact h.emptied m j hj hm hjdir
  · exact h.outside

/-- The entry `n` was taken, and the loop went on with `fs₁`. -/
theorem Swept.take {fs₁ : FileSystem}
    (hgone : (fs.node i).isDir = true ∨ Expired attrs offset today i)
    (he : (n, i) ∈ (fs.node d).entries) (htaken : Taken fs d n i fs₁)
    (h : Swept attrs offset today fs₁ d names fs') :
    Swept attrs offset today fs d (n :: names) fs' := by
  have hsame : ∀ j, (n, j) ∈ (fs.node d).entries → j = i := fun j hj =>
    Option.some.inj ((FileSystem.lookup_entry hj).symm.trans (FileSystem.lookup_entry he))
  have hpruned := htaken.removals.pruned
  constructor
  · exact htaken.removals.trans h.removals
  · intro m j hj
    by_cases hmn : m = n
    · subst hmn
      cases hsame j hj
      refine iff_of_false ?_ ?_
      · intro hmem
        exact ((htaken.entries _).mp (h.removals.pruned.entry hmem)).2 rfl
      · intro hkept
        obtain ⟨hdir, hexpired⟩ := hkept List.mem_cons_self
        rcases hgone with hgone | hgone
        · rw [hdir] at hgone
          cases hgone
        · exact hexpired hgone
    · rw [h.entries m j ((htaken.entries _).mpr ⟨hj, hmn⟩), List.mem_cons, or_iff_right hmn,
        hpruned.isDir]
  · intro m j hj hm hjdir
    by_cases hmn : m = n
    · subst hmn
      cases hsame j hj
      exact List.eq_nil_of_subset_nil
        (htaken.emptied ▸ (h.removals.pruned.node i).entries.subset)
    · exact h.emptied m j ((htaken.entries _).mpr ⟨hj, hmn⟩)
        ((List.mem_cons.mp hm).resolve_left hmn) (by rwa [hpruned.isDir])
  · intro j hj
    rw [h.outside j fun hbelow => hj (hpruned.below hbelow), htaken.outside j hj]

theorem sweepEntries_swept (hcomplete : readdir.Complete) (htree : TreeAt fs path d)
    (hsteady : Steady fs path d) (hleft : Remaining fs d names) :
    ∃ fs', sweepEntries readdir attrs offset today path names fs = .ok fs' ∧
      Swept attrs offset today fs d names fs' := by
  induction names generalizing fs with
  | nil =>
      refine ⟨fs, rfl, .refl, ?_, ?_, fun _ _ => rfl⟩
      · intro n i he
        exact iff_of_true he fun hn => absurd hn List.not_mem_nil
      · intro n i he hn
        cases hn
  | cons n names ih =>
      rcases hleft.entry n List.mem_cons_self with hdots | ⟨i, he⟩
      · rw [sweepEntries_dots hdots]
        obtain ⟨fs', hrun, hswept⟩ := ih htree hsteady hleft.tail
        exact ⟨fs', hrun, hswept.skip hdots⟩
      · rcases sweepEntries_round hcomplete htree hsteady he with
          ⟨hgone, fs₁, htaken, hround⟩ | ⟨hdir, hkept, hround⟩
        · rw [hround]
          have hpruned := htaken.removals.pruned
          obtain ⟨fs', hrun, hswept⟩ := ih (htree.pruned hpruned)
            (hsteady.later hpruned htaken.outside) (hleft.taken htaken)
          exact ⟨fs', hrun, hswept.take hgone he htaken⟩
        · rw [hround]
          obtain ⟨fs', hrun, hswept⟩ := ih htree hsteady hleft.tail
          exact ⟨fs', hrun,
            hswept.keep (List.nodup_cons.mp hleft.nodup).1 hdir hkept he⟩

/-- A run that reads the whole directory. -/
theorem deleteFile_swept (attrs : Attributes) (offset : Int → Int) (now : Int)
    (hcomplete : readdir.Complete) (htree : TreeAt fs path d) (hsteady : Steady fs path d) :
    ∃ names fs', (∀ e ∈ (fs.node d).entries, e.1 ∈ names) ∧
      deleteFile readdir attrs offset now fs path = .ok fs' ∧
      Swept attrs offset (localtime offset now) fs d names fs' := by
  have hopen := FileSystem.opendir_eq_some_iff.mpr ⟨d, hsteady.resolve, htree.isDir, rfl⟩
  obtain ⟨hleft, hall⟩ := remaining_listing hcomplete fs d path
  obtain ⟨fs', hrun, hswept⟩ := sweepEntries_swept hcomplete htree hsteady hleft
  refine ⟨_, fs', hall, ?_, hswept⟩
  unfold deleteFile
  rw [hopen]
  exact hrun

theorem expired_iff_stale {now : Int} (hright : (attrs.st_size i : Nat) ≤ SIZE_LIMIT →
      AgeTestRight (localDay offset now) (localDay offset (attrs.st_mtime i))) :
    Expired attrs offset (localtime offset now) i ↔ Stale attrs offset now i := by
  by_cases hsize : SIZE_LIMIT < attrs.st_size i
  · exact iff_of_true (.inl hsize) (.inl hsize)
  · have htest := ageTest_iff.mpr (hright (Nat.le_of_not_lt hsize))
    exact or_congr_right htest

/-- Where the tests of a file agree with what they stand for, of a small
file the days of the year are right. -/
theorem ageTestRight_of_iff {now : Int} (hsize : (attrs.st_size i : Nat) ≤ SIZE_LIMIT)
    (h : Expired attrs offset (localtime offset now) i ↔ Stale attrs offset now i) :
    AgeTestRight (localDay offset now) (localDay offset (attrs.st_mtime i)) := by
  have hsmall : ¬SIZE_LIMIT < attrs.st_size i := Nat.not_lt.mpr hsize
  unfold Expired Stale at h
  rw [or_iff_right hsmall, or_iff_right hsmall] at h
  exact ageTest_iff.mp h

/-- **When the right files go**: in a tree of files and directories, if for
every file in the directory that is not too large the days of the year tell
whether three days have passed. -/
theorem sweepsRight_iff {now : Int} (hcomplete : readdir.Complete)
    (htree : TreeAt fs path d) (hsteady : Steady fs path d) :
    (∃ fs', deleteFile readdir attrs offset now fs path = .ok fs' ∧
        SweepsRight attrs offset now fs d fs') ↔
      ∀ n i, (n, i) ∈ (fs.node d).entries → (fs.node i).isDir = false →
        (attrs.st_size i : Nat) ≤ SIZE_LIMIT →
        AgeTestRight (localDay offset now) (localDay offset (attrs.st_mtime i)) := by
  obtain ⟨names, fs', hall, hrun, hswept⟩ :=
    deleteFile_swept attrs offset now hcomplete htree hsteady
  have hfile : ∀ n i, (n, i) ∈ (fs.node d).entries → (fs.node i).isDir = false →
      ((n, i) ∈ (fs'.node d).entries ↔ ¬Expired attrs offset (localtime offset now) i) := by
    intro n i he hdir
    rw [hswept.entries n i he]
    exact ⟨fun h => (h (hall _ he)).2, fun h _ => ⟨hdir, h⟩⟩
  constructor
  · rintro ⟨fs'', hrun', hright⟩ n i he hdir hsize
    cases hrun.symm.trans hrun'
    apply ageTestRight_of_iff hsize
    rw [← not_iff_not, ← hfile n i he hdir]
    exact hright.files n i he hdir
  · intro hdates
    refine ⟨fs', hrun, hswept.removals.pruned, ?_, ?_, hswept.outside⟩
    · intro n i he hdir
      rw [hfile n i he hdir, expired_iff_stale (hdates n i he hdir)]
    · intro n i he hdir
      have hempty := hswept.emptied n i he (hall _ he) hdir
      refine ⟨?_, fun j hj => hswept.removals.emptied hempty hj⟩
      intro hmem
      have hfile := (((hswept.entries n i he).mp hmem) (hall _ he)).1
      rw [hdir] at hfile
      cases hfile

end Entry

/-! ## One file -/

/-- The file `a` in `/d`. -/
def oneFile : FileSystem :=
  FileSystem.ofNodes [.dir 0 [([100], 1)], .dir 0 [([97], 2)], .file] 0
    (by decide) (by decide) (by decide)

theorem oneFile_entry {n : Name} {i : Ino} :
    (n, i) ∈ (oneFile.node 1).entries ↔ n = [97] ∧ i = 2 := by
  simp [oneFile, FileSystem.ofNodes, Node.entries]

theorem oneFile_tree : TreeAt oneFile [47, 100] 1 := by
  apply TreeAt.dir
  · rfl
  · intro n i he
    obtain ⟨rfl, rfl⟩ := oneFile_entry.mp he
    exact ⟨by decide, rfl⟩
  · intro n i he hdir
    obtain ⟨rfl, rfl⟩ := oneFile_entry.mp he
    cases hdir

theorem oneFile_steady : Steady oneFile [47, 100] 1 := by
  intro fs' hpruned hout
  -- the root is not below `/d`
  have hroot : fs'.node 0 = .dir 0 [([100], 1)] := by
    apply hout 0
    intro hbelow
    rcases hbelow.head with h | ⟨n, j, he, hbelow⟩
    · cases h
    · obtain ⟨rfl, rfl⟩ := oneFile_entry.mp he
      cases hbelow.eq_of_entries rfl
  have hlookup : fs'.lookup 0 [] = some 0 ∧ fs'.lookup 0 [100] = some 1 := by
    unfold FileSystem.lookup
    rw [hroot]
    decide
  have hdir : (fs'.node 1).isLink = false := (hpruned.node 1).isLink
  refine FileSystem.resolve_eq_some_iff.mpr ⟨by decide, 0, ?_, ?_⟩
  · exact congrArg some hpruned.root
  · exact .step hlookup.1 (by rw [hroot]; rfl) (.step hlookup.2 hdir (.nil _ 1))

/-- A byte that was written on 20 March is kept on 22 March. -/
theorem sweepsRight_iff_oneFile :
    ∃ fs', deleteFile (fun _ names => names) ⟨fun _ => 1, fun _ => 1742428800⟩ (fun _ => 0)
        1742601600 oneFile [47, 100] = .ok fs' ∧
      SweepsRight ⟨fun _ => 1, fun _ => 1742428800⟩ (fun _ => 0) 1742601600 oneFile 1 fs' := by
  apply (sweepsRight_iff (fun _ _ => .refl _) oneFile_tree oneFile_steady).mpr
  intro n i _ _ _
  show AgeTestRight (localDay (fun _ => 0) 1742601600) (localDay (fun _ => 0) 1742428800)
  unfold AgeTestRight
  decide +kernel

/-- On 2 January 2025 a file of 1 December 2024 is kept. -/
theorem december_file_kept :
    ¬∃ fs', deleteFile (fun _ names => names) ⟨fun _ => 1, fun _ => 1733011200⟩ (fun _ => 0)
        1735776000 oneFile [47, 100] = .ok fs' ∧
      SweepsRight ⟨fun _ => 1, fun _ => 1733011200⟩ (fun _ => 0) 1735776000 oneFile 1 fs' := by
  rintro ⟨fs', hrun, hright⟩
  obtain ⟨names, fs'', hall, hrun', hswept⟩ :=
    deleteFile_swept ⟨fun _ => 1, fun _ => 1733011200⟩ (fun _ => 0) 1735776000
      (fun _ _ => .refl _) oneFile_tree oneFile_steady
  cases hrun.symm.trans hrun'
  have he : ([97], 2) ∈ (oneFile.node 1).entries := oneFile_entry.mpr ⟨rfl, rfl⟩
  have hgone := hright.files [97] 2 he rfl
  rw [hswept.entries [97] 2 he] at hgone
  have hkept : ¬Expired ⟨fun _ => 1, fun _ => 1733011200⟩ (fun _ => 0)
      (localtime (fun _ => 0) 1735776000) 2 := by
    unfold Expired
    decide +kernel
  apply hgone.mp fun _ => ⟨rfl, hkept⟩
  unfold Stale
  decide +kernel

end BeEasy.Walkthrough
