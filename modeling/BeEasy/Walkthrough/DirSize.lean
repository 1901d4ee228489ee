import BeEasy.CVerif.DirectoryTree
import BeEasy.Walkthrough.DeleteFileAndDir
import Mathlib.Algebra.BigOperators.Group.List.Basic
import Mathlib.Data.Int.DivMod

/-!
# Walkthrough — the size of a directory

`get_dir_size` of `walkthroughPath.c` and its copy `getDirSize` in `file.c`:
the sizes of the files below a path, added up in a `long long`, or -1 when
the directory cannot be read. The result of a subdirectory is added like
the size of a file, -1 included.

What the functions print is left out; it is the only thing they differ in.
A `long long` is a 64-bit word whose additions wrap. As for
`deleteFileAndDir`, the nesting is counted and `getDirSize_eq` is the
recursion of the source.
-/

namespace BeEasy.Walkthrough

open CVerif

abbrev LongLong := BitVec 64

variable (calls : Calls)

/-- The loop over the entries, `size` so far; `dirSize` is the recursive call. -/
def addEntries (dirSize : Path → Except Fault LongLong) (path : Path) :
    List Name → LongLong → Except Fault LongLong
  | [], size => .ok size
  | d_name :: rest, size =>
      if d_name = dot ∨ d_name = dotdot then addEntries dirSize path rest size
      else do
        let filename ← filename path d_name
        match calls.stat filename with
        | none => .ok (-1)
        | some f_stat =>
            if f_stat.isDir then
              let below ← dirSize filename
              addEntries dirSize path rest (size + below)
            else addEntries dirSize path rest (size + BitVec.ofNat 64 f_stat.st_size)

/-- `get_dir_size`, nested at most `depth` calls deep. -/
def dirSizeWithin : Nat → Path → Except Fault LongLong
  | 0, _ => .ok (-1)
  | depth + 1, path =>
      match calls.opendir path with
      | none => .ok (-1)
      | some names => addEntries calls (dirSizeWithin depth) path names 0

/-- `get_dir_size(path)`, unless `filename` overflows. -/
def getDirSize (path : Path) : Except Fault LongLong := dirSizeWithin calls PATH_MAX path

end BeEasy.Walkthrough

namespace BeEasy.FileOperation

open CVerif

/-- `getDirSize(path)` of `file.c`, which prints no line for a file. -/
def getDirSize (calls : Calls) (path : Path) : Except Fault Walkthrough.LongLong :=
  Walkthrough.getDirSize calls path

end BeEasy.FileOperation

namespace BeEasy.Walkthrough

open CVerif

variable {calls : Calls} {path : Path} {n : Name} {rest : List Name} {size : LongLong}
  {dirSize dirSize' : Path → Except Fault LongLong}

/-! ## One entry -/

theorem addEntries_dots (hn : n = dot ∨ n = dotdot) :
    addEntries calls dirSize path (n :: rest) size = addEntries calls dirSize path rest size := by
  conv_lhs => unfold addEntries
  rw [if_pos hn]

theorem addEntries_overflow (hn : ¬(n = dot ∨ n = dotdot))
    (hlen : ¬(child path n).length < PATH_MAX) :
    addEntries calls dirSize path (n :: rest) size = .error .outOfBounds := by
  unfold addEntries
  rw [if_neg hn, filename_overflow hlen]
  rfl

theorem addEntries_gone (hn : ¬(n = dot ∨ n = dotdot)) (hlen : (child path n).length < PATH_MAX)
    (hstat : calls.stat (child path n) = none) :
    addEntries calls dirSize path (n :: rest) size = .ok (-1) := by
  unfold addEntries
  rw [if_neg hn, filename_ok hlen]
  show (match calls.stat (child path n) with | none => _ | some _ => _) = _
  rw [hstat]

theorem addEntries_dir (hn : ¬(n = dot ∨ n = dotdot)) (hlen : (child path n).length < PATH_MAX)
    {f_stat : Stat} (hstat : calls.stat (child path n) = some f_stat)
    (hdir : f_stat.isDir = true) :
    addEntries calls dirSize path (n :: rest) size =
      (dirSize (child path n)).bind fun below =>
        addEntries calls dirSize path rest (size + below) := by
  conv_lhs => unfold addEntries
  rw [if_neg hn, filename_ok hlen]
  show (match calls.stat (child path n) with | none => _ | some _ => _) = _
  rw [hstat]
  exact if_pos hdir

theorem addEntries_file (hn : ¬(n = dot ∨ n = dotdot)) (hlen : (child path n).length < PATH_MAX)
    {f_stat : Stat} (hstat : calls.stat (child path n) = some f_stat)
    (hdir : f_stat.isDir = false) :
    addEntries calls dirSize path (n :: rest) size =
      addEntries calls dirSize path rest (size + BitVec.ofNat 64 f_stat.st_size) := by
  conv_lhs => unfold addEntries
  rw [if_neg hn, filename_ok hlen]
  show (match calls.stat (child path n) with | none => _ | some _ => _) = _
  rw [hstat]
  exact if_neg (by rw [hdir]; exact Bool.false_ne_true)

/-! ## The recursion of the source -/

/-- The loop calls the function only on paths below its own that fit. -/
theorem addEntries_congr
    (h : ∀ n, (child path n).length < PATH_MAX → dirSize (child path n) = dirSize' (child path n))
    (names : List Name) (size : LongLong) :
    addEntries calls dirSize path names size = addEntries calls dirSize' path names size := by
  induction names generalizing size with
  | nil => rfl
  | cons n names ih =>
      unfold addEntries
      by_cases hlen : (child path n).length < PATH_MAX
      · simp only [filename_ok hlen, bind, Except.bind, h n hlen, ih]
      · simp only [filename_overflow hlen, ih]
        rfl

/-- A nesting deeper than the path can still grow is not used. -/
theorem dirSizeWithin_succ {depth : Nat} (hpos : 0 < depth) (h : PATH_MAX ≤ path.length + depth) :
    dirSizeWithin calls (depth + 1) path = dirSizeWithin calls depth path := by
  induction depth generalizing path with
  | zero => exact absurd hpos (Nat.lt_irrefl 0)
  | succ depth ih =>
      conv_lhs => unfold dirSizeWithin
      conv_rhs => unfold dirSizeWithin
      cases calls.opendir path with
      | none => rfl
      | some names =>
          apply addEntries_congr
          intro n hlen
          rw [length_child] at hlen
          apply ih
          · omega
          · rw [length_child]
            omega

/-- **The recursion of the source.** -/
theorem getDirSize_eq :
    getDirSize calls path =
      match calls.opendir path with
      | none => .ok (-1)
      | some names => addEntries calls (getDirSize calls) path names 0 := by
  unfold getDirSize
  rw [← dirSizeWithin_succ (by decide) (Nat.le_add_left PATH_MAX path.length)]
  rfl

end BeEasy.Walkthrough
