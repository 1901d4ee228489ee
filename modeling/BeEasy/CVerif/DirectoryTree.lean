import BeEasy.CVerif.FileSystem

/-!
# CVerif — DirectoryTree

A directory tree of files and directories, and what a program that only
looks at it gets to see: the answers of `opendir`, `readdir` and `stat`, by
path. A call may fail on any path, and a listing comes in any order, with
or without `.` and `..`; `Mounted` says that the answers that do come are
those of a given tree.
-/

namespace CVerif

/-- A size as `stat` reports it: an `off_t` that is not negative. -/
abbrev FileSize := Fin (2 ^ 63)

/-- What `stat` tells of a path. -/
structure Stat where
  isDir : Bool
  st_size : FileSize

/-- The entries of a directory, one after the other, those of its
subdirectories below them. -/
inductive Entries where
  | nil
  | file (n : Name) (size : FileSize) (rest : Entries)
  | dir (n : Name) (below : Entries) (rest : Entries)

namespace Entries

/-- The names in the directory itself. -/
def names : Entries → List Name
  | nil => []
  | file n _ rest => n :: rest.names
  | dir n _ rest => n :: rest.names

/-- The sizes of the files at every depth, added up. -/
def total : Entries → Nat
  | nil => 0
  | file _ size rest => size + rest.total
  | dir _ below rest => below.total + rest.total

/-- The subdirectories of the directory itself. -/
def subdirs : Entries → List (Name × Entries)
  | nil => []
  | file _ _ rest => rest.subdirs
  | dir n below rest => (n, below) :: rest.subdirs

theorem mem_names_of_subdirs {es : Entries} {d : Name × Entries} (h : d ∈ es.subdirs) :
    d.1 ∈ es.names := by
  induction es with
  | nil => cases h
  | file n size rest ih => exact List.mem_cons_of_mem _ (ih h)
  | dir n below rest _ ih =>
      rcases List.mem_cons.mp h with rfl | hrest
      · exact List.mem_cons_self
      · exact List.mem_cons_of_mem _ (ih hrest)

/-- **Induction on the depth**: what holds of a directory as soon as it holds
of its subdirectories holds of every tree. -/
theorem induction_subdirs {P : Entries → Prop}
    (step : ∀ es, (∀ d ∈ es.subdirs, P d.2) → P es) (es : Entries) : P es := by
  -- carried along the entries: everything said so far of the subdirectories
  have all : ∀ d ∈ es.subdirs, P d.2 := by
    induction es with
    | nil =>
        intro d hd
        cases hd
    | file n size rest ih => exact ih
    | dir n below rest ihbelow ihrest =>
        intro d hd
        rcases List.mem_cons.mp hd with rfl | hd
        · exact step below ihbelow
        · exact ihrest d hd
  exact step es all

/-- The paths of all entries at every depth, the directory itself at `path`. -/
def paths (path : Path) : Entries → List Path
  | nil => []
  | file n _ rest => child path n :: rest.paths path
  | dir n below rest => child path n :: (below.paths (child path n) ++ rest.paths path)

/-- The paths of the directories among them. -/
def dirs (path : Path) : Entries → List Path
  | nil => []
  | file _ _ rest => rest.dirs path
  | dir n below rest => child path n :: (below.dirs (child path n) ++ rest.dirs path)

end Entries

/-- The answers of the calls that look: `opendir` followed by `readdir` to
the end of the listing, and `stat`. No answer is a failed call. -/
structure Calls where
  opendir : Path → Option (List Name)
  stat : Path → Option Stat

/-- A listing less the directory itself and its parent. -/
def listed (names : List Name) : List Name :=
  names.filter fun n => ¬(n = dot ∨ n = dotdot)

section Listed

variable {n : Name} {names : List Name}

theorem listed_dots (hn : n = dot ∨ n = dotdot) : listed (n :: names) = listed names :=
  List.filter_cons_of_neg (by rw [decide_eq_true_eq]; exact not_not_intro hn)

theorem listed_cons (hn : ¬(n = dot ∨ n = dotdot)) : listed (n :: names) = n :: listed names :=
  List.filter_cons_of_pos (decide_eq_true hn)

end Listed

namespace Calls

variable (calls : Calls)

/-- A listing of `path` that is read has the names of these entries. -/
def Lists (path : Path) (es : Entries) : Prop :=
  ∀ names, calls.opendir path = some names → (listed names).Perm es.names

/-- What the calls answer below `path` are these entries. -/
def Shows (path : Path) : Entries → Prop
  | .nil => True
  | .file n size rest =>
      (∀ st, calls.stat (child path n) = some st → st.isDir = false ∧ st.st_size = size)
        ∧ Shows path rest
  | .dir n below rest =>
      (∀ st, calls.stat (child path n) = some st → st.isDir = true)
        ∧ calls.Lists (child path n) below ∧ Shows (child path n) below ∧ Shows path rest

/-- The directory at `path` has these entries. -/
def Mounted (path : Path) (es : Entries) : Prop := calls.Lists path es ∧ calls.Shows path es

/-- Some `stat` or `opendir` of an entry below `path` fails. -/
def FailsBelow (path : Path) (es : Entries) : Prop :=
  (∃ p ∈ es.paths path, calls.stat p = none) ∨ ∃ d ∈ es.dirs path, calls.opendir d = none

/-- Some `stat` or `opendir` in the tree fails. -/
def Fails (path : Path) (es : Entries) : Prop :=
  calls.opendir path = none ∨ calls.FailsBelow path es

variable {calls} {path : Path} {n : Name} {size : FileSize} {below rest es : Entries}

theorem not_failsBelow_nil : ¬ calls.FailsBelow path .nil := by
  rintro (⟨p, hp, -⟩ | ⟨d, hd, -⟩)
  · cases hp
  · cases hd

theorem failsBelow_file :
    calls.FailsBelow path (.file n size rest) ↔
      calls.stat (child path n) = none ∨ calls.FailsBelow path rest := by
  simp only [FailsBelow, Entries.paths, Entries.dirs, List.exists_mem_cons_iff, or_assoc]

theorem failsBelow_dir :
    calls.FailsBelow path (.dir n below rest) ↔
      calls.stat (child path n) = none ∨ calls.Fails (child path n) below
        ∨ calls.FailsBelow path rest := by
  simp only [Fails, FailsBelow, Entries.paths, Entries.dirs, List.exists_mem_cons_iff,
    List.mem_append, or_and_right, exists_or]
  constructor
  · rintro ((hn | hp | hp) | hd | hd | hd) <;> simp [*]
  · rintro (hn | (hd | hp | hd) | hp | hd) <;> simp [*]

/-- A `stat` that fails in the directory itself. -/
theorem failsBelow_of_mem (hn : n ∈ es.names) (h : calls.stat (child path n) = none) :
    calls.FailsBelow path es := by
  induction es with
  | nil => cases hn
  | file m size rest ih =>
      rw [failsBelow_file]
      rcases List.mem_cons.mp hn with rfl | hrest
      · exact .inl h
      · exact .inr (ih hrest)
  | dir m below rest _ ih =>
      rw [failsBelow_dir]
      rcases List.mem_cons.mp hn with rfl | hrest
      · exact .inl h
      · exact .inr (.inr (ih hrest))

/-- What `stat` shows as a directory is one of the subdirectories. -/
theorem Shows.subdir (h : calls.Shows path es) (hn : n ∈ es.names) {st : Stat}
    (hstat : calls.stat (child path n) = some st) (hdir : st.isDir = true) :
    ∃ below, (n, below) ∈ es.subdirs := by
  induction es with
  | nil => cases hn
  | file m size rest ih =>
      rcases List.mem_cons.mp hn with rfl | hrest
      · rw [(h.1 st hstat).1] at hdir
        cases hdir
      · exact ih h.2 hrest
  | dir m below rest _ ih =>
      rcases List.mem_cons.mp hn with rfl | hrest
      · exact ⟨below, List.mem_cons_self⟩
      · obtain ⟨below', hmem⟩ := ih h.2.2.2 hrest
        exact ⟨below', List.mem_cons_of_mem _ hmem⟩

/-- An entry that is a directory is mounted, and `stat` says no other thing. -/
theorem Shows.listed (h : calls.Shows path es) (hsub : (n, below) ∈ es.subdirs) :
    (∀ st, calls.stat (child path n) = some st → st.isDir = true) ∧
      calls.Mounted (child path n) below := by
  induction es with
  | nil => cases hsub
  | file m size rest ih => exact ih h.2 hsub
  | dir m below' rest _ ih =>
      rcases List.mem_cons.mp hsub with heq | hrest
      · cases heq
        exact ⟨h.1, h.2.1, h.2.2.1⟩
      · exact ih h.2.2.2 hrest

theorem Shows.isDir (h : calls.Shows path es) (hsub : (n, below) ∈ es.subdirs) {st : Stat}
    (hstat : calls.stat (child path n) = some st) : st.isDir = true :=
  (h.listed hsub).1 st hstat

theorem Shows.mounted (h : calls.Shows path es) (hsub : (n, below) ∈ es.subdirs) :
    calls.Mounted (child path n) below := (h.listed hsub).2

end Calls

end CVerif
