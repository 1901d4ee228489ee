import BeEasy.CVerif.DirectoryTree
import BeEasy.Walkthrough.DeleteFileAndDir

/-!
# Walkthrough — the largest file

`deleteMaxFile` of `walkthroughPath.c`: one pass over a directory that is
to find the entry with the largest `st_size`, and a `remove` of it. `i` is
the flag of the first round, and it is counted up in the branch that only a
count other than 0 reaches. So every round is a first one, and the entry
that goes is the last of the listing (`maxEntries_last`); for an empty
listing it is whatever the array `deleteName` held before the call.
-/

namespace BeEasy.Walkthrough

open CVerif

/-- `st_size` as `stat` tells it, links followed. -/
def sizeAt (sizes : Ino → FileSize) (fs : FileSystem) (path : Path) : Option FileSize :=
  (fs.resolve path).map sizes

/-- The locals of the loop: `deleteName` by the string it holds, which there
may be none of before it is first written. -/
structure MaxFile where
  i : Int
  deleteName : Except Fault Path
  size : Int

/-- `memset`, `strncpy` and the assignment of `size`: `filename` is shorter
than the array it goes into. -/
def MaxFile.hold (s : MaxFile) (filename : Path) (st_size : FileSize) : MaxFile :=
  { s with deleteName := .ok filename, size := st_size.val }

/-- The loop over the entries. `none` is the return on a `stat` that fails. -/
def maxEntries (sizes : Ino → FileSize) (fs : FileSystem) (path : Path) :
    List Name → MaxFile → Except Fault (Option MaxFile)
  | [], s => .ok (some s)
  | d_name :: rest, s =>
      if d_name = dot ∨ d_name = dotdot then maxEntries sizes fs path rest s
      else do
        let filename ← filename path d_name
        match sizeAt sizes fs filename with
        | none => .ok none
        | some st_size =>
            if s.i = 0 then maxEntries sizes fs path rest (s.hold filename st_size)
            else
              let s := if s.size < st_size.val then s.hold filename st_size else s
              maxEntries sizes fs path rest { s with i := s.i + 1 }

/-- `deleteMaxFile(path)`: the file system it leaves. `garbage` is what the
array `deleteName` holds on entry, `size` what that variable does. -/
def deleteMaxFile (readdir : Readdir) (sizes : Ino → FileSize) (garbage : List Byte) (size : Int)
    (fs : FileSystem) (path : Path) : Except Fault FileSystem :=
  match fs.opendir path with
  | none => .ok fs
  | some names => do
      match ← maxEntries sizes fs path (readdir path names) ⟨0, readString garbage, size⟩ with
      | none => return fs
      | some s => return fs.remove (← s.deleteName)

/-! ## What it is for -/

/-- No entry listed is larger than `n`. -/
def Largest (sizes : Ino → FileSize) (fs : FileSystem) (path : Path) (names : List Name)
    (n : Name) : Prop :=
  ∀ m ∈ names, ∀ a b, sizeAt sizes fs (child path m) = some a →
    sizeAt sizes fs (child path n) = some b → a ≤ b

/-- One entry of those listed goes, and none is larger; nothing goes when
nothing is listed. -/
structure RemovesLargest (sizes : Ino → FileSize) (fs : FileSystem) (path : Path)
    (names : List Name) (result : Except Fault FileSystem) : Prop where
  empty : names = [] → result = .ok fs
  one : names ≠ [] → ∃ d n i, fs.resolve path = some d ∧ n ∈ names ∧
    (n, i) ∈ (fs.node d).entries ∧ result = .ok (fs.without d n) ∧
    Largest sizes fs path names n

/-- The directory is opened, every `stat` succeeds, and the entry that is
chosen can be removed. -/
structure Listing (readdir : Readdir) (fs : FileSystem) (path : Path) (names : List Name) :
    Prop where
  faithful : readdir.Faithful
  opened : ∃ all, fs.opendir path = some all ∧ names = listed (readdir path all)
  stats : ∀ n ∈ names, fs.stat (child path n) ≠ none
  removable : ∀ n ∈ names.getLast?, ∀ d i, fs.resolve path = some d →
    (n, i) ∈ (fs.node d).entries →
    (fs.node i).isDir = false ∨ (fs.node i).isEmptyDir = true

/-- `remove(path)` succeeds. -/
def Removes (fs : FileSystem) (path : Path) : Prop :=
  ∃ d n i, fs.parentOf path = some (d, n) ∧ (n, i) ∈ (fs.node d).entries ∧
    ((fs.node i).isDir = false ∨ (fs.node i).isEmptyDir = true)

/-- An array that holds the path of nothing removable. -/
def Harmless (fs : FileSystem) (garbage : List Byte) : Prop :=
  ∃ path, readString garbage = .ok path ∧ ¬Removes fs path

/-! ## The pass -/

section Pass

variable {readdir : Readdir} {sizes : Ino → FileSize} {fs : FileSystem} {path : Path}
  {names : List Name} {n : Name} {rest : List Name} {s : MaxFile}

theorem maxEntries_dots (hn : n = dot ∨ n = dotdot) :
    maxEntries sizes fs path (n :: rest) s = maxEntries sizes fs path rest s := by
  conv_lhs => unfold maxEntries
  rw [if_pos hn]

/-- A round that finds `i` still 0 takes its entry, whatever it holds. -/
theorem maxEntries_first (hn : ¬(n = dot ∨ n = dotdot)) (hi : s.i = 0) {st_size : FileSize}
    (hlen : (child path n).length < PATH_MAX)
    (hsize : sizeAt sizes fs (child path n) = some st_size) :
    maxEntries sizes fs path (n :: rest) s =
      maxEntries sizes fs path rest (s.hold (child path n) st_size) := by
  conv_lhs => unfold maxEntries
  rw [if_neg hn, filename_ok hlen]
  show (match sizeAt sizes fs (child path n) with | none => _ | some _ => _) = _
  rw [hsize]
  exact if_pos hi

/-- What holds the name after the pass: the last entry, or what held it before. -/
def chosen (path : Path) (held : Except Fault Path) (names : List Name) : Except Fault Path :=
  match names.getLast? with
  | none => held
  | some n => .ok (child path n)

theorem chosen_cons (held : Except Fault Path) :
    chosen path held (n :: rest) = chosen path (.ok (child path n)) rest := by
  unfold chosen
  rw [List.getLast?_cons]
  cases rest.getLast? with
  | none => rfl
  | some m => rfl

/-- **The last entry is chosen**, since `i` stays 0. -/
theorem maxEntries_last (hi : s.i = 0)
    (hstat : ∀ n ∈ listed names, fs.stat (child path n) ≠ none) :
    ∃ t, maxEntries sizes fs path names s = .ok (some t) ∧
      t.deleteName = chosen path s.deleteName (listed names) := by
  induction names generalizing s with
  | nil => exact ⟨s, rfl, rfl⟩
  | cons n names ih =>
      by_cases hn : n = dot ∨ n = dotdot
      · rw [listed_dots hn] at hstat ⊢
        rw [maxEntries_dots hn]
        exact ih hi hstat
      · rw [listed_cons hn] at hstat ⊢
        obtain ⟨nd, hnd⟩ := Option.ne_none_iff_exists'.mp (hstat n List.mem_cons_self)
        obtain ⟨x, hx, -⟩ := FileSystem.stat_eq_some_iff.mp hnd
        have hsize : sizeAt sizes fs (child path n) = some (sizes x) := by
          rw [sizeAt, hx, Option.map_some]
        rw [maxEntries_first hn hi (FileSystem.length_of_resolve hx) hsize, chosen_cons]
        exact ih hi fun m hm => hstat m (List.mem_cons_of_mem n hm)

/-- So `deleteMaxFile` removes what the last entry, or `garbage`, names. -/
theorem deleteMaxFile_eq {garbage : List Byte} {size : Int}
    (h : Listing readdir fs path names) :
    deleteMaxFile readdir sizes garbage size fs path =
      (chosen path (readString garbage) names).map fs.remove := by
  obtain ⟨all, hopen, rfl⟩ := h.opened
  obtain ⟨t, hrun, hname⟩ :
      ∃ t, maxEntries sizes fs path (readdir path all) ⟨0, readString garbage, size⟩
          = .ok (some t) ∧
        t.deleteName = chosen path (readString garbage) (listed (readdir path all)) :=
    maxEntries_last rfl h.stats
  unfold deleteMaxFile
  rw [hopen]
  show (maxEntries sizes fs path (readdir path all) ⟨0, readString garbage, size⟩ >>= _) = _
  rw [hrun]
  show (t.deleteName >>= fun p => .ok (fs.remove p)) = _
  rw [hname]
  cases chosen path (readString garbage) (listed (readdir path all)) with
  | error e => rfl
  | ok p => rfl

/-! ## What the `remove` does -/

theorem allowed_iff {nd : Node} :
    (!nd.isDir || nd.isEmptyDir) = true ↔ nd.isDir = false ∨ nd.isEmptyDir = true := by
  rw [Bool.or_eq_true, Bool.not_eq_true']

/-- A name listed is an entry of the directory. -/
theorem Listing.entry (h : Listing readdir fs path names) (hn : n ∈ names) :
    ∃ d i, fs.resolve path = some d ∧ (n, i) ∈ (fs.node d).entries := by
  obtain ⟨all, hopen, rfl⟩ := h.opened
  obtain ⟨d, hd, -, rfl⟩ := FileSystem.opendir_eq_some_iff.mp hopen
  obtain ⟨hmem, hdots⟩ := List.mem_filter.mp hn
  have hall := (h.faithful path _).subset hmem
  simp only [List.mem_cons, List.mem_map] at hall
  rcases hall with rfl | rfl | ⟨e, he, rfl⟩
  · simp at hdots
  · simp at hdots
  · exact ⟨d, e.2, hd, he⟩

/-- The entry chosen goes, and no other. -/
theorem remove_chosen {d i : Ino} (h : Listing readdir fs path names)
    (hlast : names.getLast? = some n) (hd : fs.resolve path = some d)
    (he : (n, i) ∈ (fs.node d).entries) : fs.remove (child path n) = fs.without d n := by
  obtain ⟨nd, hnd⟩ := Option.ne_none_iff_exists'.mp (h.stats n (List.mem_of_getLast? hlast))
  obtain ⟨x, hx, -⟩ := FileSystem.stat_eq_some_iff.mp hnd
  unfold FileSystem.remove
  exact FileSystem.removeEntry_child hd he (FileSystem.length_of_resolve hx)
    (allowed_iff.mpr (h.removable n hlast d i hd he))

/-- Different entries leave different file systems. -/
theorem without_inj {d d' i : Ino} {m : Name} (he : (n, i) ∈ (fs.node d).entries)
    (heq : fs.without d n = fs.without d' m) : n = m := by
  have hgone : (n, i) ∉ ((fs.without d n).node d).entries := by
    simp [FileSystem.mem_without]
  rw [heq, FileSystem.mem_without, not_and_not_right] at hgone
  exact (hgone he).2

theorem remove_eq_self_iff {p : Path} : fs.remove p = fs ↔ ¬Removes fs p := by
  constructor
  · rintro hsame ⟨d, n, i, hp, he, hallowed⟩
    have hgone : (n, i) ∉ ((fs.without d n).node d).entries := by
      simp [FileSystem.mem_without]
    have hrun : fs.remove p = fs.without d n := by
      unfold FileSystem.remove FileSystem.removeEntry
      rw [hp]
      simp only [lookup_of_mem (fs.distinct d) he, allowed_iff.mpr hallowed, if_true]
    rw [← hrun, hsame] at hgone
    exact hgone he
  · intro hkeep
    rcases FileSystem.removeEntry_cases (fun nd => !nd.isDir || nd.isEmptyDir) fs p with
      hsame | ⟨d, n, i, hp, he, hallowed, -⟩
    · exact hsame
    · exact absurd ⟨d, n, i, hp, he, allowed_iff.mp hallowed⟩ hkeep

theorem harmless_iff {garbage : List Byte} :
    (readString garbage).map fs.remove = .ok fs ↔ Harmless fs garbage := by
  constructor
  · intro hok
    cases hread : readString garbage with
    | error e =>
        rw [hread] at hok
        cases hok
    | ok p =>
        rw [hread] at hok
        exact ⟨p, hread, remove_eq_self_iff.mp (Except.ok.inj hok)⟩
  · intro ⟨p, hread, hkeep⟩
    rw [hread]
    exact congrArg Except.ok (remove_eq_self_iff.mpr hkeep)

/-- An entry that goes is the right one exactly when it is as large as any. -/
theorem removesLargest_without_iff {d i : Ino} (hd : fs.resolve path = some d) (hn : n ∈ names)
    (he : (n, i) ∈ (fs.node d).entries) :
    RemovesLargest sizes fs path names (.ok (fs.without d n)) ↔
      Largest sizes fs path names n := by
  have hne : names ≠ [] := List.ne_nil_of_mem hn
  constructor
  · intro hright
    obtain ⟨d', m, j, -, -, hm, heq, hlargest⟩ := hright.one hne
    exact without_inj he (Except.ok.inj heq) ▸ hlargest
  · intro hlargest
    exact ⟨fun hnil => absurd hnil hne, fun _ => ⟨d, n, i, hd, hn, he, rfl, hlargest⟩⟩

/-- **When the right file goes**: if the entry that the directory lists last
happens to be as large as any; and for an empty listing, if the array on the
stack names nothing that can be removed. -/
theorem removesLargest_iff {garbage : List Byte} {size : Int}
    (h : Listing readdir fs path names) :
    RemovesLargest sizes fs path names
        (deleteMaxFile readdir sizes garbage size fs path) ↔
      (names = [] → Harmless fs garbage) ∧
        ∀ n ∈ names.getLast?, Largest sizes fs path names n := by
  rw [deleteMaxFile_eq h, chosen]
  cases hlast : names.getLast? with
  | none =>
      have hnil : names = [] := List.getLast?_eq_none_iff.mp hlast
      constructor
      · intro hright
        exact ⟨fun _ => harmless_iff.mp (hright.empty hnil), fun n hn => by cases hn⟩
      · intro ⟨hharmless, _⟩
        exact ⟨fun _ => harmless_iff.mpr (hharmless hnil), fun hne => absurd hnil hne⟩
  | some n =>
      have hmem := List.mem_of_getLast? hlast
      obtain ⟨d, i, hd, he⟩ := h.entry hmem
      have hrun : (Except.ok (child path n) : Except Fault Path).map fs.remove
          = .ok (fs.without d n) := congrArg Except.ok (remove_chosen h hlast hd he)
      rw [hrun, removesLargest_without_iff hd hmem he]
      constructor
      · intro hlargest
        refine ⟨fun hnil => absurd hnil (List.ne_nil_of_mem hmem), ?_⟩
        rintro m ⟨⟩
        exact hlargest
      · intro ⟨_, hlargest⟩
        exact hlargest n rfl

end Pass

/-! ## Two files -/

/-- The files `a` and `b` in `/d`. -/
def twoFiles : FileSystem :=
  FileSystem.ofNodes [.dir 0 [([100], 1)], .dir 0 [([97], 2), ([98], 3)], .file, .file] 0
    (by decide) (by decide) (by decide)

/-- `a` is read before `b`. -/
theorem twoFiles_listing :
    Listing (fun _ names => names) twoFiles [47, 100] [[97], [98]] where
  faithful _ names := .refl names
  opened := ⟨[dot, dotdot, [97], [98]], by decide +kernel, by decide⟩
  stats := by
    have hstats : ∀ n ∈ [[97], [98]], (twoFiles.resolve (child [47, 100] n)).isSome = true := by
      decide +kernel
    intro n hn hnone
    have hsome := hstats n hn
    rw [FileSystem.stat, Option.map_eq_none_iff] at hnone
    rw [hnone] at hsome
    cases hsome
  removable := by
    rintro n ⟨⟩ d i hd he
    have hroot : twoFiles.resolve [47, 100] = some 1 := by decide +kernel
    cases hroot.symm.trans hd
    simp [twoFiles, FileSystem.ofNodes, Node.entries] at he
    subst he
    exact .inl rfl

theorem twoFiles_sizes (sizes : Ino → FileSize) :
    sizeAt sizes twoFiles (child [47, 100] [97]) = some (sizes 2) ∧
      sizeAt sizes twoFiles (child [47, 100] [98]) = some (sizes 3) := by
  have ha : twoFiles.resolve (child [47, 100] [97]) = some 2 := by decide +kernel
  have hb : twoFiles.resolve (child [47, 100] [98]) = some 3 := by decide +kernel
  rw [sizeAt, sizeAt, ha, hb]
  exact ⟨rfl, rfl⟩

/-- The larger file comes last. -/
theorem removesLargest_iff_twoFiles :
    RemovesLargest (fun i => if i = 3 then 2 else 1) twoFiles [47, 100] [[97], [98]]
      (deleteMaxFile (fun _ names => names) (fun i => if i = 3 then 2 else 1) [] 0 twoFiles
        [47, 100]) := by
  apply (removesLargest_iff twoFiles_listing).mpr
  refine ⟨fun hnil => absurd hnil (List.cons_ne_nil _ _), ?_⟩
  rintro n ⟨⟩ m hm a b ha hb
  obtain ⟨hsa, hsb⟩ := twoFiles_sizes fun i => if i = 3 then 2 else 1
  cases hsb.symm.trans hb
  simp only [List.mem_cons, List.not_mem_nil, or_false] at hm
  rcases hm with rfl | rfl
  · cases hsa.symm.trans ha
    decide
  · cases hsb.symm.trans ha
    decide

/-- Of a file of two bytes and one of one byte, read in this order, the
smaller one goes. -/
theorem smaller_file_removed :
    Listing (fun _ names => names) twoFiles [47, 100] [[97], [98]] ∧
      ¬RemovesLargest (fun i => if i = 2 then 2 else 1) twoFiles [47, 100] [[97], [98]]
        (deleteMaxFile (fun _ names => names) (fun i => if i = 2 then 2 else 1) [] 0 twoFiles
          [47, 100]) := by
  refine ⟨twoFiles_listing, ?_⟩
  intro hright
  obtain ⟨d, n, i, hd, hn, he, hrun, hlargest⟩ := hright.one (by simp)
  obtain ⟨hsa, hsb⟩ := twoFiles_sizes fun i => if i = 2 then 2 else 1
  -- only `a` is as large as `a`
  have hna : n = [97] := by
    simp only [List.mem_cons, List.not_mem_nil, or_false] at hn
    rcases hn with rfl | rfl
    · rfl
    · exact absurd (hlargest [97] (by simp) 2 1 hsa hsb) (by decide)
  have hroot : twoFiles.resolve [47, 100] = some 1 := by decide +kernel
  have hb : ([98], 3) ∈ (twoFiles.node 1).entries := by
    simp [twoFiles, FileSystem.ofNodes, Node.entries]
  have hlast : ([[97], [98]] : List Name).getLast? = some [98] := rfl
  rw [deleteMaxFile_eq twoFiles_listing] at hrun
  have hgone : twoFiles.without 1 [98] = twoFiles.without d n := by
    rw [← remove_chosen twoFiles_listing hlast hroot hb]
    exact Except.ok.inj hrun
  cases (without_inj hb hgone).trans hna

end BeEasy.Walkthrough
