import BeEasy.CVerif.FileSystem
import Mathlib.Data.List.Perm.Subperm

/-!
# Walkthrough — deleting below a path

`deleteFileAndDir` of `walkthroughPath.c`, which `file.c` has a copy of. The
order in which `readdir` delivers a directory's entries, and whether it
delivers those that go away meanwhile, is not the program's: the listing read
is an argument, a function of the path opened and of the names in the
directory then. One run opens a path once, so this leaves every opening its
own order.

Every nested call works on a longer path, and `opendir` accepts none of
`PATH_MAX` bytes or more, so the recursion ends: `deleteWithin` counts the
nesting, and `deleteFileAndDir_eq` is the recursion of the source without
the count.
-/

namespace BeEasy.Walkthrough

open CVerif

/-- What `readdir` returns, one call after the other, for a directory opened
as `path` with these names in it. -/
abbrev Readdir := Path → List Name → List Name

/-- Each entry is returned at most once, and nothing else is. -/
def Readdir.Faithful (readdir : Readdir) : Prop :=
  ∀ path names, (readdir path names).Subperm names

/-- `sprintf(filename, "%s/%s", path, dirp->d_name)` into `filename[PATH_MAX]`. -/
def filename (path : Path) (d_name : Name) : Except Fault Path :=
  if (child path d_name).length < PATH_MAX then .ok (child path d_name)
  else .error .outOfBounds

/-- The loop over the entries; `deleteDir` is the recursive call. -/
def deleteEntries (deleteDir : FileSystem → Path → Except Fault FileSystem) (path : Path) :
    List Name → FileSystem → Except Fault FileSystem
  | [], fs => .ok fs
  | d_name :: rest, fs =>
      if d_name = dot ∨ d_name = dotdot then deleteEntries deleteDir path rest fs
      else do
        let filename ← filename path d_name
        match fs.stat filename with
        | none => .ok fs
        | some f_stat =>
            if f_stat.isDir then
              let fs ← deleteDir fs filename
              deleteEntries deleteDir path rest (fs.rmdir filename)
            else deleteEntries deleteDir path rest (fs.remove filename)

/-- `deleteFileAndDir`, nested at most `depth` calls deep. -/
def deleteWithin (readdir : Readdir) : Nat → FileSystem → Path → Except Fault FileSystem
  | 0, fs, _ => .ok fs
  | depth + 1, fs, path =>
      match fs.opendir path with
      | none => .ok fs
      | some names =>
          deleteEntries (deleteWithin readdir depth) path (readdir path names) fs

/-- `deleteFileAndDir(path)`: the file system it leaves, unless `filename`
overflows. -/
def deleteFileAndDir (readdir : Readdir) (fs : FileSystem) (path : Path) :
    Except Fault FileSystem :=
  deleteWithin readdir PATH_MAX fs path

/-! ## The recursion of the source -/

variable {readdir : Readdir} {fs fs' : FileSystem} {path : Path}
  {deleteDir deleteDir' : FileSystem → Path → Except Fault FileSystem}

theorem filename_ok {d_name : Name} (h : (child path d_name).length < PATH_MAX) :
    filename path d_name = .ok (child path d_name) := if_pos h

theorem filename_overflow {d_name : Name} (h : ¬(child path d_name).length < PATH_MAX) :
    filename path d_name = .error .outOfBounds := if_neg h

/-- The loop only makes calls on paths below its own. -/
theorem deleteEntries_congr
    (h : ∀ fs n, deleteDir fs (child path n) = deleteDir' fs (child path n))
    (names : List Name) (fs : FileSystem) :
    deleteEntries deleteDir path names fs = deleteEntries deleteDir' path names fs := by
  induction names generalizing fs with
  | nil => rfl
  | cons n names ih =>
      unfold deleteEntries
      by_cases hlen : (child path n).length < PATH_MAX
      · simp only [filename_ok hlen, bind, Except.bind, h, ih]
      · simp only [filename_overflow hlen, ih]
        rfl

theorem opendir_none (h : PATH_MAX ≤ path.length) : fs.opendir path = none := by
  cases hopen : fs.opendir path with
  | none => rfl
  | some names =>
      obtain ⟨d, hd, -⟩ := FileSystem.opendir_eq_some_iff.mp hopen
      exact absurd (FileSystem.length_of_resolve hd) (Nat.not_lt.mpr h)

/-- A nesting deeper than the path can still grow is not used. -/
theorem deleteWithin_succ {depth : Nat} (h : PATH_MAX ≤ path.length + depth) :
    deleteWithin readdir (depth + 1) fs path = deleteWithin readdir depth fs path := by
  induction depth generalizing fs path with
  | zero =>
      -- a path this long is not opened
      unfold deleteWithin
      rw [opendir_none h]
  | succ depth ih =>
      conv_lhs => unfold deleteWithin
      conv_rhs => unfold deleteWithin
      cases fs.opendir path with
      | none => rfl
      | some names =>
          apply deleteEntries_congr
          intro fs n
          apply ih
          rw [length_child]
          omega

/-- **The recursion of the source.** -/
theorem deleteFileAndDir_eq :
    deleteFileAndDir readdir fs path =
      match fs.opendir path with
      | none => .ok fs
      | some names =>
          deleteEntries (deleteFileAndDir readdir) path (readdir path names) fs := by
  unfold deleteFileAndDir
  rw [← deleteWithin_succ (Nat.le_add_left PATH_MAX path.length)]
  rfl

/-! ## One entry -/

section Entry

variable {n : Name} {rest : List Name}

theorem deleteEntries_dots (hn : n = dot ∨ n = dotdot) :
    deleteEntries deleteDir path (n :: rest) fs = deleteEntries deleteDir path rest fs := by
  conv_lhs => unfold deleteEntries
  rw [if_pos hn]

theorem deleteEntries_overflow (hn : ¬(n = dot ∨ n = dotdot))
    (hlen : ¬(child path n).length < PATH_MAX) :
    deleteEntries deleteDir path (n :: rest) fs = .error .outOfBounds := by
  unfold deleteEntries
  rw [if_neg hn, filename_overflow hlen]
  rfl

/-- `stat` fails, and the listing is left at that. -/
theorem deleteEntries_gone (hn : ¬(n = dot ∨ n = dotdot)) (hlen : (child path n).length < PATH_MAX)
    (hstat : fs.stat (child path n) = none) :
    deleteEntries deleteDir path (n :: rest) fs = .ok fs := by
  unfold deleteEntries
  rw [if_neg hn, filename_ok hlen]
  show (match fs.stat (child path n) with | none => _ | some _ => _) = _
  rw [hstat]

theorem deleteEntries_dir (hn : ¬(n = dot ∨ n = dotdot)) (hlen : (child path n).length < PATH_MAX)
    {f_stat : Node} (hstat : fs.stat (child path n) = some f_stat) (hdir : f_stat.isDir = true) :
    deleteEntries deleteDir path (n :: rest) fs =
      (deleteDir fs (child path n)).bind fun fs =>
        deleteEntries deleteDir path rest (fs.rmdir (child path n)) := by
  conv_lhs => unfold deleteEntries
  rw [if_neg hn, filename_ok hlen]
  show (match fs.stat (child path n) with | none => _ | some _ => _) = _
  rw [hstat]
  exact if_pos hdir

theorem deleteEntries_file (hn : ¬(n = dot ∨ n = dotdot)) (hlen : (child path n).length < PATH_MAX)
    {f_stat : Node} (hstat : fs.stat (child path n) = some f_stat) (hdir : f_stat.isDir = false) :
    deleteEntries deleteDir path (n :: rest) fs =
      deleteEntries deleteDir path rest (fs.remove (child path n)) := by
  conv_lhs => unfold deleteEntries
  rw [if_neg hn, filename_ok hlen]
  show (match fs.stat (child path n) with | none => _ | some _ => _) = _
  rw [hstat]
  exact if_neg (by rw [hdir]; exact Bool.false_ne_true)

end Entry

/-! ## A run is a series of removals -/

theorem deleteEntries_removals
    (hrec : ∀ fs p fs', deleteDir fs p = .ok fs' → fs.Removals fs') {names : List Name}
    (hrun : deleteEntries deleteDir path names fs = .ok fs') : fs.Removals fs' := by
  induction names generalizing fs with
  | nil =>
      cases hrun
      exact .refl
  | cons n names ih =>
      by_cases hn : n = dot ∨ n = dotdot
      · exact ih (deleteEntries_dots hn ▸ hrun)
      by_cases hlen : (child path n).length < PATH_MAX
      · cases hstat : fs.stat (child path n) with
        | none =>
            rw [deleteEntries_gone hn hlen hstat] at hrun
            cases hrun
            exact .refl
        | some f_stat =>
            cases hdir : f_stat.isDir with
            | false =>
                rw [deleteEntries_file hn hlen hstat hdir] at hrun
                exact (FileSystem.Removals.remove fs _).trans (ih hrun)
            | true =>
                rw [deleteEntries_dir hn hlen hstat hdir] at hrun
                cases hsub : deleteDir fs (child path n) with
                | error e =>
                    rw [hsub] at hrun
                    cases hrun
                | ok fs₁ =>
                    rw [hsub] at hrun
                    exact ((hrec _ _ _ hsub).trans (.rmdir fs₁ _)).trans (ih hrun)
      · rw [deleteEntries_overflow hn hlen] at hrun
        cases hrun

theorem deleteWithin_removals {depth : Nat}
    (hrun : deleteWithin readdir depth fs path = .ok fs') : fs.Removals fs' := by
  induction depth generalizing fs path fs' with
  | zero =>
      cases hrun
      exact .refl
  | succ depth ih =>
      unfold deleteWithin at hrun
      cases hopen : fs.opendir path with
      | none =>
          rw [hopen] at hrun
          cases hrun
          exact .refl
      | some names =>
          rw [hopen] at hrun
          exact deleteEntries_removals (fun _ _ _ => ih) hrun

theorem deleteFileAndDir_removals (hrun : deleteFileAndDir readdir fs path = .ok fs') :
    fs.Removals fs' := deleteWithin_removals hrun

end BeEasy.Walkthrough
