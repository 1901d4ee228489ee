import BeEasy.CVerif.Memory
import Mathlib.Data.List.GetD
import Mathlib.Data.List.Nodup

/-!
# CVerif — FileSystem

Directories, files and symbolic links behind the POSIX calls that take a
path. A file system is a table of nodes; a directory's node lists its
entries, and an entry names a node. `walk` is the lookup of a path, one
component at a time, and it follows links the way `stat` and `opendir` do;
`Walks` is the same lookup as a relation, which is what proofs induct on.
`remove` and `rmdir` follow the links of a path but not the last component:
they act on the entry itself.

`Pruned` relates a file system to what deleting entries can make of it. A
path that resolves afterwards resolved before, with the same outcome
(`Pruned.walks`), and that is what lets a proof about a program that deletes
while it walks speak about the file system it started with.

Permissions are left out: the caller may do everything.
-/

namespace CVerif

abbrev Ino := Nat
abbrev Name := List Byte
abbrev Path := List Byte

def slash : Byte := 47
def dot : Name := [46]
def dotdot : Name := [46, 46]

/-- Longest path a call accepts, its NUL included. -/
def PATH_MAX : Nat := 4096

/-- Links followed in one lookup before it fails with `ELOOP`. -/
def MAXSYMLINKS : Nat := 40

/-- What an inode is. The parent of a directory is what its `..` names. -/
inductive Node where
  | file
  | dir (parent : Ino) (entries : List (Name × Ino))
  | link (target : Path)

namespace Node

/-- `S_ISDIR`. -/
def isDir : Node → Bool
  | dir _ _ => true
  | _ => false

def isLink : Node → Bool
  | link _ => true
  | _ => false

/-- A directory with no entry besides `.` and `..`. -/
def isEmptyDir : Node → Bool
  | dir _ [] => true
  | _ => false

def entries : Node → List (Name × Ino)
  | dir _ es => es
  | _ => []

/-- What the `..` of a directory names. -/
def parent? : Node → Option Ino
  | dir p _ => some p
  | _ => none

/-- The node less its entry `n`. -/
def without (nd : Node) (n : Name) : Node :=
  match nd with
  | dir p es => dir p (es.filter (·.1 ≠ n))
  | nd => nd

/-- `nd'` is `nd` less some of its entries. -/
inductive Pruned : Node → Node → Prop
  | same (nd : Node) : Pruned nd nd
  | dir (p : Ino) {es es' : List (Name × Ino)} : es'.Sublist es → Pruned (dir p es) (dir p es')

theorem Pruned.trans {a b c : Node} (hab : Pruned a b) (hbc : Pruned b c) : Pruned a c := by
  cases hab with
  | same => exact hbc
  | dir p hsub =>
      cases hbc with
      | same => exact .dir p hsub
      | dir _ hsub' => exact .dir p (hsub'.trans hsub)

theorem Pruned.entries {a b : Node} (h : Pruned a b) : b.entries.Sublist a.entries := by
  cases h with
  | same => exact .refl _
  | dir p hsub => exact hsub

/-- A directory comes of a directory with the same parent. -/
theorem Pruned.of_dir {a : Node} {p : Ino} {es' : List (Name × Ino)} (h : Pruned a (Node.dir p es')) :
    ∃ es, a = Node.dir p es ∧ es'.Sublist es := by
  cases h with
  | same => exact ⟨es', rfl, .refl _⟩
  | dir _ hsub => exact ⟨_, rfl, hsub⟩

theorem Pruned.of_link {a : Node} {t : Path} (h : Pruned a (Node.link t)) :
    a = Node.link t := by
  cases h
  rfl

theorem Pruned.isDir {a b : Node} (h : Pruned a b) : b.isDir = a.isDir := by
  cases h <;> rfl

theorem Pruned.parent? {a b : Node} (h : Pruned a b) : b.parent? = a.parent? := by
  cases h <;> rfl

theorem Pruned.isLink {a b : Node} (h : Pruned a b) : b.isLink = a.isLink := by
  cases h <;> rfl

theorem Pruned.without (nd : Node) (n : Name) : Pruned nd (nd.without n) := by
  cases nd with
  | file => exact .same _
  | link t => exact .same _
  | dir p es => exact .dir p List.filter_sublist

theorem isDir_of_mem_entries {nd : Node} {e : Name × Ino} (h : e ∈ nd.entries) :
    nd.isDir = true := by
  cases nd with
  | dir p es => rfl
  | file => cases h
  | link t => cases h

theorem exists_parent {nd : Node} (h : nd.isDir = true) : ∃ p, p ∈ nd.parent? := by
  cases nd with
  | dir p es => exact ⟨p, rfl⟩
  | file => cases h
  | link t => cases h

theorem isLink_eq_false_of_isDir {nd : Node} (h : nd.isDir = true) : nd.isLink = false := by
  cases nd with
  | dir p es => rfl
  | file => cases h
  | link t => cases h

theorem entries_of_isEmptyDir {nd : Node} (h : nd.isEmptyDir = true) : nd.entries = [] := by
  cases nd with
  | dir p es =>
      cases es with
      | nil => rfl
      | cons e es => cases h
  | file => cases h
  | link t => cases h

theorem isEmptyDir_of_entries {nd : Node} (hdir : nd.isDir = true) (h : nd.entries = []) :
    nd.isEmptyDir = true := by
  cases nd with
  | dir p es =>
      cases h
      rfl
  | file => cases hdir
  | link t => cases hdir

theorem isDir_of_isEmptyDir {nd : Node} (h : nd.isEmptyDir = true) : nd.isDir = true := by
  cases nd with
  | dir p es => rfl
  | file => cases h
  | link t => cases h

theorem mem_entries_without {nd : Node} {n : Name} {e : Name × Ino} :
    e ∈ (nd.without n).entries ↔ e ∈ nd.entries ∧ e.1 ≠ n := by
  cases nd with
  | dir p es => simp [Node.without, Node.entries]
  | file => simp [Node.without, Node.entries]
  | link t => simp [Node.without, Node.entries]

/-- Only the nodes of a list have entries. -/
theorem lt_of_mem_getD {nodes : List Node} {d : Ino} {e : Name × Ino}
    (h : e ∈ (nodes.getD d .file).entries) : d < nodes.length := by
  by_contra hd
  rw [List.getD_eq_default _ _ (Nat.le_of_not_lt hd)] at h
  cases h

end Node

/-- A name an entry can have: `.` and `..` are not entries. -/
def Plain (n : Name) : Prop := n ≠ [] ∧ slash ∉ n ∧ n ≠ dot ∧ n ≠ dotdot

instance (n : Name) : Decidable (Plain n) :=
  inferInstanceAs (Decidable (_ ∧ _ ∧ _ ∧ _))

/-- The nodes by inode number, where `/` and the relative paths start, and
what a mounted file system keeps: entries have names of their own, and a
directory is listed where its `..` says. -/
structure FileSystem where
  node : Ino → Node
  root : Ino
  cwd : Ino
  plain : ∀ d, ∀ e ∈ (node d).entries, Plain e.1
  distinct : ∀ d, ((node d).entries.map Prod.fst).Nodup
  parent : ∀ d, ∀ e ∈ (node d).entries, ∀ p ∈ (node e.2).parent?, p = d

/-- The file system of a list of nodes, inode 0 first and its root. -/
def FileSystem.ofNodes (nodes : List Node) (cwd : Ino)
    (plain : ∀ nd ∈ nodes, ∀ e ∈ nd.entries, Plain e.1)
    (distinct : ∀ nd ∈ nodes, (nd.entries.map Prod.fst).Nodup)
    (parent : ∀ d < nodes.length, ∀ e ∈ (nodes.getD d .file).entries,
      ∀ p ∈ (nodes.getD e.2 .file).parent?, p = d) : FileSystem where
  node d := nodes.getD d .file
  root := 0
  cwd := cwd
  plain d e he := by
    have hd : d < nodes.length := Node.lt_of_mem_getD he
    rw [List.getD_eq_getElem _ _ hd] at he
    exact plain _ (List.getElem_mem hd) e he
  distinct d := by
    by_cases hd : d < nodes.length
    · rw [List.getD_eq_getElem _ _ hd]
      exact distinct _ (List.getElem_mem hd)
    · rw [List.getD_eq_default _ _ (Nat.le_of_not_lt hd)]
      exact List.nodup_nil
  parent d e he := parent d (Node.lt_of_mem_getD he) e he

/-! ## Paths -/

/-- The parts of a path between its slashes, empty ones included. -/
def components : Path → List Name
  | [] => [[]]
  | c :: cs => if c = slash then [] :: components cs else (components cs).modifyHead (c :: ·)

/-- `"%s/%s"`. -/
def child (path : Path) (n : Name) : Path := path ++ slash :: n

theorem length_child (path : Path) (n : Name) :
    (child path n).length = path.length + 1 + n.length := by
  simp only [child, List.length_append, List.length_cons]
  omega

theorem components_ne_nil (path : Path) : components path ≠ [] := by
  induction path with
  | nil => simp [components]
  | cons c cs ih =>
      unfold components
      by_cases hc : c = slash
      · simp [hc]
      · cases hcs : components cs with
        | nil => exact absurd hcs ih
        | cons x xs => simp [hc]

/-- A name without a slash is one component. -/
theorem components_name {n : Name} (h : slash ∉ n) : components n = [n] := by
  induction n with
  | nil => rfl
  | cons c cs ih =>
      obtain ⟨hc, hcs⟩ : slash ≠ c ∧ slash ∉ cs := by simpa using h
      unfold components
      rw [if_neg (Ne.symm hc), ih hcs]
      rfl

theorem components_child {n : Name} (path : Path) (h : slash ∉ n) :
    components (child path n) = components path ++ [n] := by
  unfold child
  induction path with
  | nil => simp [components, components_name h]
  | cons c cs ih =>
      rw [List.cons_append]
      unfold components
      by_cases hc : c = slash
      · rw [if_pos hc, if_pos hc, ih, List.cons_append]
      · rw [if_neg hc, if_neg hc, ih]
        cases hcs : components cs with
        | nil => exact absurd hcs (components_ne_nil cs)
        | cons x xs => rfl

/-! ## Entry lists -/

theorem mem_of_lookup {es : List (Name × Ino)} {n : Name} {i : Ino} (h : es.lookup n = some i) :
    (n, i) ∈ es := by
  induction es with
  | nil => cases h
  | cons e es ih =>
      rw [List.lookup_cons] at h
      by_cases hn : n = e.1
      · subst hn
        simp only [beq_self_eq_true, Option.some.injEq] at h
        subst h
        exact List.mem_cons_self
      · rw [beq_false_of_ne hn] at h
        exact List.mem_cons_of_mem e (ih h)

theorem lookup_of_mem {es : List (Name × Ino)} {n : Name} {i : Ino}
    (hnodup : (es.map Prod.fst).Nodup) (h : (n, i) ∈ es) : es.lookup n = some i := by
  induction es with
  | nil => cases h
  | cons e es ih =>
      rw [List.map_cons, List.nodup_cons] at hnodup
      rw [List.lookup_cons]
      rcases List.mem_cons.mp h with heq | htail
      · subst heq
        simp
      · have hn : n ≠ e.1 := by
          intro heq
          exact hnodup.1 (heq ▸ List.mem_map_of_mem (f := Prod.fst) htail)
        rw [beq_false_of_ne hn]
        exact ih hnodup.2 htail

namespace FileSystem

/-! ## Lookup -/

/-- One component, looked up in directory `d`. -/
def lookup (fs : FileSystem) (d : Ino) (n : Name) : Option Ino :=
  match fs.node d with
  | .dir parent entries =>
      if n = [] ∨ n = dot then some d
      else if n = dotdot then some parent
      else entries.lookup n
  | _ => none

/-- Where a path starts: the root when it is absolute. No lookup accepts
the empty path. -/
def start (fs : FileSystem) (base : Ino) : Path → Option Ino
  | [] => none
  | c :: _ => if c = slash then some fs.root else some base

/-- The components from `cur` on. At a link the target's components take
the link's place, which `follow` goes on with. -/
def scan (fs : FileSystem) (follow : Ino → List Name → Option Ino) : Ino → List Name → Option Ino
  | cur, [] => some cur
  | cur, n :: ns =>
      match fs.lookup cur n with
      | none => none
      | some i =>
          match fs.node i with
          | .link target => (fs.start cur target).bind fun s => follow s (components target ++ ns)
          | _ => scan fs follow i ns

/-- The lookup of the components from `cur` on through at most `budget` links. -/
def walk (fs : FileSystem) : Nat → Ino → List Name → Option Ino
  | 0 => fs.scan fun _ _ => none
  | budget + 1 => fs.scan (fs.walk budget)

/-- The lookup as a relation. -/
inductive Walks (fs : FileSystem) : Nat → Ino → List Name → Ino → Prop
  | nil (b : Nat) (cur : Ino) : Walks fs b cur [] cur
  | step {b : Nat} {cur i x : Ino} {n : Name} {ns : List Name} :
      fs.lookup cur n = some i → (fs.node i).isLink = false → Walks fs b i ns x →
      Walks fs b cur (n :: ns) x
  | link {b : Nat} {cur i s x : Ino} {n : Name} {ns : List Name} {target : Path} :
      fs.lookup cur n = some i → fs.node i = .link target → fs.start cur target = some s →
      Walks fs b s (components target ++ ns) x → Walks fs (b + 1) cur (n :: ns) x

/-- The inode a path leads to, links followed to the end. -/
def resolve (fs : FileSystem) (path : Path) : Option Ino :=
  if path.length < PATH_MAX then
    (fs.start fs.cwd path).bind fun s => fs.walk MAXSYMLINKS s (components path)
  else none

/-- The directory that holds the last component of a path, and that
component, which is not followed. -/
def parentOf (fs : FileSystem) (path : Path) : Option (Ino × Name) :=
  if path.length < PATH_MAX then
    (fs.start fs.cwd path).bind fun s =>
      (fs.walk MAXSYMLINKS s (components path).dropLast).map fun d =>
        (d, (components path).getLastD [])
  else none

variable {fs fs' : FileSystem}

theorem lookup_entry {d i : Ino} {n : Name} (h : (n, i) ∈ (fs.node d).entries) :
    fs.lookup d n = some i := by
  obtain ⟨hne, -, hdot, hdotdot⟩ := fs.plain d _ h
  have hnodup := fs.distinct d
  cases hd : fs.node d with
  | file => simp [hd, Node.entries] at h
  | link t => simp [hd, Node.entries] at h
  | dir p es =>
      simp only [hd, Node.entries] at h hnodup
      unfold lookup
      simp only [hd]
      rw [if_neg (by simp only [not_or]; exact ⟨hne, hdot⟩), if_neg hdotdot]
      exact lookup_of_mem hnodup h

/-! ### The lookup as a relation -/

/-- A component that is no link is gone into. -/
theorem scan_cons {follow : Ino → List Name → Option Ino} {cur i : Ino} {n : Name}
    (hl : fs.lookup cur n = some i) (hlink : (fs.node i).isLink = false) (ns : List Name) :
    fs.scan follow cur (n :: ns) = fs.scan follow i ns := by
  conv_lhs => unfold scan
  simp only [hl]
  cases hi : fs.node i with
  | file => rfl
  | dir p es => rfl
  | link target =>
      rw [hi] at hlink
      cases hlink

theorem walk_of_walks {b : Nat} {cur x : Ino} {ns : List Name} (h : fs.Walks b cur ns x) :
    fs.walk b cur ns = some x := by
  induction h with
  | nil b cur => cases b <;> rfl
  | @step b cur i x n ns hl hlink _ ih =>
      cases b with
      | zero => exact (scan_cons hl hlink ns).trans ih
      | succ b => exact (scan_cons hl hlink ns).trans ih
  | @link b cur i s x n ns target hl hi hs _ ih =>
      simp only [walk, scan, hl, hi, hs, Option.bind_some]
      exact ih

/-- What `scan` finds, given that `follow` only finds what the relation has. -/
theorem walks_of_scan {b : Nat} {follow : Ino → List Name → Option Ino}
    (hfollow : ∀ s ns x, follow s ns = some x → ∃ c, b = c + 1 ∧ fs.Walks c s ns x)
    {cur x : Ino} {ns : List Name} (h : fs.scan follow cur ns = some x) : fs.Walks b cur ns x := by
  induction ns generalizing cur with
  | nil =>
      cases h
      exact .nil b x
  | cons n ns ih =>
      unfold scan at h
      cases hl : fs.lookup cur n with
      | none => simp [hl] at h
      | some i =>
          simp only [hl] at h
          cases hi : fs.node i with
          | file =>
              simp only [hi] at h
              exact .step hl (by rw [hi]; rfl) (ih h)
          | dir p es =>
              simp only [hi] at h
              exact .step hl (by rw [hi]; rfl) (ih h)
          | link target =>
              simp only [hi] at h
              obtain ⟨s, hs, hf⟩ := Option.bind_eq_some_iff.mp h
              obtain ⟨c, rfl, hw⟩ := hfollow _ _ _ hf
              exact .link hl hi hs hw

theorem walks_of_walk {b : Nat} {cur x : Ino} {ns : List Name} (h : fs.walk b cur ns = some x) :
    fs.Walks b cur ns x := by
  -- on the links still allowed; between two links `walks_of_scan` goes on
  induction b generalizing cur ns x with
  | zero => exact walks_of_scan (fun _ _ _ hf => by cases hf) h
  | succ b ih => exact walks_of_scan (fun _ _ _ hf => ⟨b, rfl, ih hf⟩) h

/-- **The lookup and its relation agree.** -/
theorem walk_eq_some_iff {b : Nat} {cur x : Ino} {ns : List Name} :
    fs.walk b cur ns = some x ↔ fs.Walks b cur ns x :=
  ⟨walks_of_walk, walk_of_walks⟩

/-- Allowing more links loses nothing. -/
theorem Walks.mono {b b' : Nat} {cur x : Ino} {ns : List Name} (h : fs.Walks b cur ns x)
    (hb : b ≤ b') : fs.Walks b' cur ns x := by
  induction h generalizing b' with
  | nil b cur => exact .nil b' cur
  | step hl hlink _ ih => exact .step hl hlink (ih hb)
  | @link b cur i s x n ns target hl hi hs _ ih =>
      obtain ⟨c, rfl⟩ : ∃ c, b' = c + 1 := ⟨b' - 1, by omega⟩
      exact .link hl hi hs (ih (by omega))

/-- Where a lookup ends does not depend on how many links it may follow. -/
theorem Walks.unique {b b' : Nat} {cur x x' : Ino} {ns : List Name} (h : fs.Walks b cur ns x)
    (h' : fs.Walks b' cur ns x') : x = x' := by
  -- both meet the same node next, so they take the same rule
  induction h generalizing b' with
  | nil b cur =>
      cases h'
      rfl
  | step hl hlink _ ih =>
      cases h' with
      | step hl' _ hw =>
          cases hl.symm.trans hl'
          exact ih hw
      | link hl' hi' _ _ =>
          cases hl.symm.trans hl'
          simp [hi', Node.isLink] at hlink
  | link hl hi hs _ ih =>
      cases h' with
      | step hl' hlink' _ =>
          cases hl.symm.trans hl'
          simp [hi, Node.isLink] at hlink'
      | link hl' hi' hs' hw =>
          cases hl.symm.trans hl'
          cases hi.symm.trans hi'
          cases hs.symm.trans hs'
          exact ih hw

/-- A lookup of two runs of components passes through the end of the first. -/
theorem Walks.split {b : Nat} {cur x : Ino} {ms ns : List Name}
    (h : fs.Walks b cur (ms ++ ns) x) :
    ∃ m, fs.Walks b cur ms m ∧ fs.Walks b m ns x := by
  generalize hl : ms ++ ns = l at h
  induction h generalizing ms with
  | nil b cur =>
      obtain ⟨rfl, rfl⟩ := List.append_eq_nil_iff.mp hl
      exact ⟨cur, .nil b cur, .nil b cur⟩
  | @step b cur i x n rest hn hlink hw ih =>
      cases ms with
      | nil =>
          subst hl
          exact ⟨cur, .nil b cur, .step hn hlink hw⟩
      | cons m ms =>
          obtain ⟨rfl, rfl⟩ := List.cons.inj hl
          obtain ⟨y, hy, hx⟩ := ih rfl
          exact ⟨y, .step hn hlink hy, hx⟩
  | @link b cur i s x n rest target hn hi hs hw ih =>
      cases ms with
      | nil =>
          subst hl
          exact ⟨cur, .nil (b + 1) cur, .link hn hi hs hw⟩
      | cons m ms =>
          obtain ⟨rfl, rfl⟩ := List.cons.inj hl
          -- the target's components belong to the first run
          obtain ⟨y, hy, hx⟩ := ih (List.append_assoc ..)
          exact ⟨y, .link hn hi hs hy, hx.mono (Nat.le_succ b)⟩

/-- Components after which no link is left go on from where a lookup ended. -/
theorem Walks.append {b : Nat} {cur m x : Ino} {ms ns : List Name} (h : fs.Walks b cur ms m)
    (hx : fs.Walks 0 m ns x) : fs.Walks b cur (ms ++ ns) x := by
  induction h with
  | nil b cur => exact hx.mono (Nat.zero_le b)
  | step hn hlink _ ih => exact .step hn hlink (ih hx)
  | link hn hi hs _ ih =>
      apply Walks.link hn hi hs
      rw [List.append_eq, ← List.append_assoc]
      exact ih hx

/-! ### Resolved paths -/

theorem start_child {base : Ino} {path : Path} (n : Name) (h : path ≠ []) :
    fs.start base (child path n) = fs.start base path := by
  cases path with
  | nil => exact absurd rfl h
  | cons c cs => rfl

theorem ne_nil_of_start {base s : Ino} {path : Path} (h : fs.start base path = some s) :
    path ≠ [] := by
  intro hnil
  subst hnil
  cases h

theorem resolve_eq_some_iff {path : Path} {x : Ino} :
    fs.resolve path = some x ↔ path.length < PATH_MAX ∧
      ∃ s, fs.start fs.cwd path = some s ∧ fs.Walks MAXSYMLINKS s (components path) x := by
  unfold resolve
  by_cases hlen : path.length < PATH_MAX
  · rw [if_pos hlen, Option.bind_eq_some_iff]
    simp only [walk_eq_some_iff, hlen, true_and]
  · simp [hlen]

theorem length_of_resolve {path : Path} {x : Ino} (h : fs.resolve path = some x) :
    path.length < PATH_MAX := (resolve_eq_some_iff.mp h).1

theorem ne_nil_of_resolve {path : Path} {x : Ino} (h : fs.resolve path = some x) :
    path ≠ [] := by
  obtain ⟨-, s, hs, -⟩ := resolve_eq_some_iff.mp h
  exact ne_nil_of_start hs

/-- Entry name `n` of directory `d` leads to `x`, through links or not. -/
def Leads (fs : FileSystem) (d : Ino) (n : Name) (x : Ino) : Prop :=
  ∃ b, fs.Walks b d [n] x

theorem Leads.unique {d x x' : Ino} {n : Name} (h : fs.Leads d n x) (h' : fs.Leads d n x') :
    x = x' := h.choose_spec.unique h'.choose_spec

/-- An entry that is no link leads to the node it names. -/
theorem leads_entry {d i : Ino} {n : Name} (h : (n, i) ∈ (fs.node d).entries)
    (hlink : (fs.node i).isLink = false) : fs.Leads d n i :=
  ⟨0, .step (lookup_entry h) hlink (.nil 0 i)⟩

/-- A path below an open directory resolves through the directory. -/
theorem leads_of_resolve_child {path : Path} {n : Name} {d x : Ino} (hn : Plain n)
    (hd : fs.resolve path = some d) (h : fs.resolve (child path n) = some x) :
    fs.Leads d n x := by
  obtain ⟨-, s, hs, hwd⟩ := resolve_eq_some_iff.mp hd
  obtain ⟨-, s', hs', hw⟩ := resolve_eq_some_iff.mp h
  rw [start_child n (ne_nil_of_start hs), hs, Option.some.injEq] at hs'
  subst hs'
  rw [components_child path hn.2.1] at hw
  obtain ⟨d', hd', hx⟩ := hw.split
  cases hwd.unique hd'
  exact ⟨MAXSYMLINKS, hx⟩

/-- The path of an entry that is no link resolves to the node it names. -/
theorem resolve_entry {path : Path} {n : Name} {d i : Ino} (hd : fs.resolve path = some d)
    (h : (n, i) ∈ (fs.node d).entries) (hlink : (fs.node i).isLink = false)
    (hlen : (child path n).length < PATH_MAX) : fs.resolve (child path n) = some i := by
  obtain ⟨-, s, hs, hw⟩ := resolve_eq_some_iff.mp hd
  refine resolve_eq_some_iff.mpr ⟨hlen, s, ?_, ?_⟩
  · rw [start_child n (ne_nil_of_start hs), hs]
  rw [components_child path (fs.plain d _ h).2.1]
  exact hw.append (.step (lookup_entry h) hlink (.nil 0 i))

/-- The last component of a path below an open directory is looked for there. -/
theorem parentOf_child {path : Path} {n : Name} {d : Ino} (hn : Plain n)
    (hd : fs.resolve path = some d) (hlen : (child path n).length < PATH_MAX) :
    fs.parentOf (child path n) = some (d, n) := by
  obtain ⟨-, s, hs, hw⟩ := resolve_eq_some_iff.mp hd
  unfold parentOf
  rw [if_pos hlen, start_child n (ne_nil_of_start hs), hs, components_child path hn.2.1]
  simp [walk_of_walks hw]

theorem resolve_of_parentOf_child {path : Path} {n n' : Name} {d : Ino} (hn : Plain n)
    (hpath : path ≠ []) (h : fs.parentOf (child path n) = some (d, n')) :
    fs.resolve path = some d ∧ n' = n := by
  have hchild := length_child path n
  unfold parentOf at h
  by_cases hlen : (child path n).length < PATH_MAX
  · rw [if_pos hlen, components_child path hn.2.1] at h
    obtain ⟨s, hs, hw⟩ := Option.bind_eq_some_iff.mp h
    simp only [List.dropLast_concat, List.getLastD_concat, Option.map_eq_some_iff,
      Prod.mk.injEq] at hw
    obtain ⟨d', hd', rfl, rfl⟩ := hw
    refine ⟨resolve_eq_some_iff.mpr ⟨by omega, s, ?_, walks_of_walk hd'⟩, rfl⟩
    rw [← start_child n hpath, hs]
  · rw [if_neg hlen] at h
    cases h

/-! ## Calls -/

/-- `opendir`, with the names a complete listing then reads. -/
def opendir (fs : FileSystem) (path : Path) : Option (List Name) :=
  (fs.resolve path).bind fun d =>
    match fs.node d with
    | .dir _ entries => some (dot :: dotdot :: entries.map Prod.fst)
    | _ => none

/-- `stat`: the node at the end of the path. -/
def stat (fs : FileSystem) (path : Path) : Option Node :=
  (fs.resolve path).map fs.node

/-- The file system whose nodes lost entries: what it keeps, it kept before. -/
def prune (fs : FileSystem) (node : Ino → Node) (h : ∀ i, (fs.node i).Pruned (node i)) :
    FileSystem where
  node := node
  root := fs.root
  cwd := fs.cwd
  plain d e he := fs.plain d e ((h d).entries.subset he)
  distinct d := ((h d).entries.map Prod.fst).nodup (fs.distinct d)
  parent d e he p hp := fs.parent d e ((h d).entries.subset he) p ((h e.2).parent? ▸ hp)

/-- The nodes once the entry `n` of `d` is gone. -/
def nodeWithout (fs : FileSystem) (d : Ino) (n : Name) (i : Ino) : Node :=
  if i = d then (fs.node d).without n else fs.node i

theorem nodeWithout_pruned (fs : FileSystem) (d : Ino) (n : Name) (i : Ino) :
    (fs.node i).Pruned (fs.nodeWithout d n i) := by
  unfold nodeWithout
  by_cases h : i = d
  · subst h
    rw [if_pos rfl]
    exact .without _ n
  · rw [if_neg h]
    exact .same _

/-- The file system less the entry `n` of `d`. -/
def without (fs : FileSystem) (d : Ino) (n : Name) : FileSystem :=
  fs.prune (fs.nodeWithout d n) (fs.nodeWithout_pruned d n)

/-- Take out the entry a path names, if `allowed` of what it names. A call
that fails leaves the file system as it is. -/
def removeEntry (allowed : Node → Bool) (fs : FileSystem) (path : Path) : FileSystem :=
  match fs.parentOf path with
  | none => fs
  | some (d, n) =>
      match (fs.node d).entries.lookup n with
      | none => fs
      | some i => if allowed (fs.node i) then fs.without d n else fs

/-- `rmdir`: of an empty directory, and of nothing else. -/
def rmdir (fs : FileSystem) (path : Path) : FileSystem :=
  removeEntry Node.isEmptyDir fs path

/-- `remove`: `unlink` of a file or link, `rmdir` of a directory. -/
def remove (fs : FileSystem) (path : Path) : FileSystem :=
  removeEntry (fun nd => !nd.isDir || nd.isEmptyDir) fs path

theorem opendir_eq_some_iff {path : Path} {names : List Name} :
    fs.opendir path = some names ↔ ∃ d, fs.resolve path = some d ∧
      (fs.node d).isDir = true ∧ names = dot :: dotdot :: (fs.node d).entries.map Prod.fst := by
  unfold opendir
  rw [Option.bind_eq_some_iff]
  constructor
  · rintro ⟨d, hd, h⟩
    cases hn : fs.node d with
    | file => simp [hn] at h
    | link t => simp [hn] at h
    | dir p es =>
        simp only [hn, Option.some.injEq] at h
        exact ⟨d, hd, by rw [hn]; rfl, by rw [hn]; exact h.symm⟩
  · rintro ⟨d, hd, hdir, rfl⟩
    refine ⟨d, hd, ?_⟩
    cases hn : fs.node d with
    | file => simp [hn, Node.isDir] at hdir
    | link t => simp [hn, Node.isDir] at hdir
    | dir p es => rfl

theorem stat_eq_some_iff {path : Path} {nd : Node} :
    fs.stat path = some nd ↔ ∃ x, fs.resolve path = some x ∧ fs.node x = nd :=
  Option.map_eq_some_iff

theorem mem_without {d d' : Ino} {n : Name} {e : Name × Ino} :
    e ∈ ((fs.without d n).node d').entries ↔
      e ∈ (fs.node d').entries ∧ ¬(d' = d ∧ e.1 = n) := by
  show e ∈ (fs.nodeWithout d n d').entries ↔ _
  unfold nodeWithout
  by_cases h : d' = d
  · subst h
    rw [if_pos rfl, Node.mem_entries_without]
    simp
  · rw [if_neg h]
    simp [h]

theorem node_without_ne {d d' : Ino} (n : Name) (h : d' ≠ d) :
    (fs.without d n).node d' = fs.node d' := if_neg h

/-- A removal takes out one entry, or nothing. -/
theorem removeEntry_cases (allowed : Node → Bool) (fs : FileSystem) (path : Path) :
    removeEntry allowed fs path = fs ∨
      ∃ d n i, fs.parentOf path = some (d, n) ∧ (n, i) ∈ (fs.node d).entries ∧
        allowed (fs.node i) = true ∧ removeEntry allowed fs path = fs.without d n := by
  unfold removeEntry
  cases hp : fs.parentOf path with
  | none => exact .inl rfl
  | some dn =>
      obtain ⟨d, n⟩ := dn
      simp only
      cases hi : (fs.node d).entries.lookup n with
      | none => exact .inl rfl
      | some i =>
          by_cases ha : allowed (fs.node i) = true
          · exact .inr ⟨d, n, i, rfl, mem_of_lookup hi, ha, if_pos ha⟩
          · exact .inl (if_neg ha)

/-- Below an open directory a removal that may happen does. -/
theorem removeEntry_child {allowed : Node → Bool} {path : Path} {n : Name} {d i : Ino}
    (hd : fs.resolve path = some d) (h : (n, i) ∈ (fs.node d).entries)
    (hlen : (child path n).length < PATH_MAX) (ha : allowed (fs.node i) = true) :
    removeEntry allowed fs (child path n) = fs.without d n := by
  unfold removeEntry
  rw [parentOf_child (fs.plain d _ h) hd hlen]
  simp only [lookup_of_mem (fs.distinct d) h, ha, if_true]

/-! ## Fewer entries -/

/-- `fs'` is `fs` less some entries. -/
structure Pruned (fs fs' : FileSystem) : Prop where
  root : fs'.root = fs.root
  cwd : fs'.cwd = fs.cwd
  node : ∀ i, (fs.node i).Pruned (fs'.node i)

namespace Pruned

theorem refl (fs : FileSystem) : fs.Pruned fs :=
  ⟨rfl, rfl, fun i => .same (fs.node i)⟩

theorem trans {fs'' : FileSystem} (h : fs.Pruned fs') (h' : fs'.Pruned fs'') : fs.Pruned fs'' :=
  ⟨h'.root.trans h.root, h'.cwd.trans h.cwd, fun i => (h.node i).trans (h'.node i)⟩

theorem without (fs : FileSystem) (d : Ino) (n : Name) : fs.Pruned (fs.without d n) :=
  ⟨rfl, rfl, fs.nodeWithout_pruned d n⟩

theorem removeEntry (allowed : Node → Bool) (fs : FileSystem) (path : Path) :
    fs.Pruned (FileSystem.removeEntry allowed fs path) := by
  rcases removeEntry_cases allowed fs path with h | ⟨d, n, -, -, -, -, h⟩
  · rw [h]
    exact refl fs
  · rw [h]
    exact without fs d n

theorem entry {d : Ino} {e : Name × Ino} (h : fs.Pruned fs') (he : e ∈ (fs'.node d).entries) :
    e ∈ (fs.node d).entries := (h.node d).entries.subset he

theorem lookup {d i : Ino} {n : Name} (h : fs.Pruned fs') (hl : fs'.lookup d n = some i) :
    fs.lookup d n = some i := by
  cases hd : fs'.node d with
  | file => simp [FileSystem.lookup, hd] at hl
  | link t => simp [FileSystem.lookup, hd] at hl
  | dir p es' =>
      obtain ⟨es, hes, hsub⟩ := (hd ▸ h.node d).of_dir
      by_cases hn : n = [] ∨ n = dot
      · simpa [FileSystem.lookup, hd, hes, hn] using hl
      · by_cases hnn : n = dotdot
        · simpa [FileSystem.lookup, hd, hes, hnn] using hl
        · -- only here is an entry needed, and it was there before
          have hi : es'.lookup n = some i := by
            simpa [FileSystem.lookup, hd, hn, hnn] using hl
          apply lookup_entry
          rw [hes]
          exact hsub.subset (mem_of_lookup hi)

theorem start {base s : Ino} {path : Path} (h : fs.Pruned fs')
    (hs : fs'.start base path = some s) : fs.start base path = some s := by
  cases path with
  | nil => cases hs
  | cons c cs => simpa only [FileSystem.start, h.root] using hs

/-- **A lookup that succeeds after entries are gone succeeded before, and
ended at the same node.** -/
theorem walks {b : Nat} {cur x : Ino} {ns : List Name} (h : fs.Pruned fs')
    (hw : fs'.Walks b cur ns x) : fs.Walks b cur ns x := by
  induction hw with
  | nil b cur => exact .nil b cur
  | step hn hlink _ ih => exact .step (h.lookup hn) ((h.node _).isLink ▸ hlink) ih
  | link hn hi hs _ ih => exact .link (h.lookup hn) (hi ▸ h.node _).of_link (h.start hs) ih

theorem resolve {path : Path} {x : Ino} (h : fs.Pruned fs') (hx : fs'.resolve path = some x) :
    fs.resolve path = some x := by
  obtain ⟨hlen, s, hs, hw⟩ := resolve_eq_some_iff.mp hx
  exact resolve_eq_some_iff.mpr ⟨hlen, s, h.start (h.cwd ▸ hs), h.walks hw⟩

theorem isDir (h : fs.Pruned fs') (d : Ino) : (fs'.node d).isDir = (fs.node d).isDir :=
  (h.node d).isDir

end Pruned

/-! ## Descendants -/

/-- `i` is `r` or lies below it, by way of entries alone: no link is followed. -/
inductive Below (fs : FileSystem) (r : Ino) : Ino → Prop
  | refl : Below fs r r
  | entry {d i : Ino} {n : Name} : Below fs r d → (n, i) ∈ (fs.node d).entries → Below fs r i

/-- A directory below `r` is `r` itself or is listed in a directory below `r`. -/
theorem Below.listed {r d i : Ino} {n : Name} (h : fs.Below r i)
    (hi : (n, i) ∈ (fs.node d).entries) (hdir : (fs.node i).isDir = true) :
    i = r ∨ fs.Below r d := by
  cases h with
  | refl => exact .inl rfl
  | @entry d' _ m hd' hi' =>
      -- its `..` names both directories that list it
      obtain ⟨q, hq⟩ := Node.exists_parent hdir
      have hd : q = d := fs.parent d _ hi q hq
      have hd₂ : q = d' := fs.parent d' _ hi' q hq
      subst hd
      subst hd₂
      exact .inr hd'

theorem Below.trans {r d i : Ino} (h : fs.Below r d) (h' : fs.Below d i) : fs.Below r i := by
  induction h' with
  | refl => exact h
  | entry _ he ih => exact .entry ih he

/-- By way of the first entry, not the last. -/
theorem Below.head {r i : Ino} (h : fs.Below r i) :
    i = r ∨ ∃ n j, (n, j) ∈ (fs.node r).entries ∧ fs.Below j i := by
  induction h with
  | refl => exact .inl rfl
  | @entry d i n _ he ih =>
      right
      rcases ih with rfl | ⟨m, j, hj, hbelow⟩
      · exact ⟨n, i, he, .refl⟩
      · exact ⟨m, j, hj, hbelow.entry he⟩

/-- Nothing lies below what has no entries. -/
theorem Below.eq_of_entries {r i : Ino} (h : fs.Below r i) (hr : (fs.node r).entries = []) :
    i = r := by
  rcases h.head with rfl | ⟨n, j, he, -⟩
  · rfl
  · rw [hr] at he
    cases he

theorem Pruned.below {r i : Ino} (h : fs.Pruned fs') (hb : fs'.Below r i) : fs.Below r i := by
  induction hb with
  | refl => exact .refl
  | entry _ he ih => exact .entry ih (h.entry he)

/-! ## Removals -/

/-- `fs'` is `fs` after some removals of files, links and empty directories. -/
inductive Removals (fs : FileSystem) : FileSystem → Prop
  | refl : Removals fs fs
  | step {fs' : FileSystem} {d i : Ino} {n : Name} : Removals fs fs' →
      (n, i) ∈ (fs'.node d).entries → (fs'.node i).entries = [] →
      Removals fs (fs'.without d n)

namespace Removals

theorem trans {fs'' : FileSystem} (h : fs.Removals fs') (h' : fs'.Removals fs'') :
    fs.Removals fs'' := by
  induction h' with
  | refl => exact h
  | step _ he hi ih => exact .step ih he hi

theorem pruned (h : fs.Removals fs') : fs.Pruned fs' := by
  induction h with
  | refl => exact .refl fs
  | step _ _ _ ih => exact ih.trans (.without _ _ _)

theorem removeEntry {allowed : Node → Bool} (hallowed : ∀ nd, allowed nd = true → nd.entries = [])
    (fs : FileSystem) (path : Path) : fs.Removals (FileSystem.removeEntry allowed fs path) := by
  rcases removeEntry_cases allowed fs path with h | ⟨d, n, i, -, he, ha, h⟩
  · rw [h]
    exact .refl
  · rw [h]
    exact .step .refl he (hallowed _ ha)

theorem rmdir (fs : FileSystem) (path : Path) : fs.Removals (fs.rmdir path) :=
  removeEntry (fun _ => Node.entries_of_isEmptyDir) fs path

theorem remove (fs : FileSystem) (path : Path) : fs.Removals (fs.remove path) := by
  apply removeEntry
  intro nd hnd
  rcases (Bool.or_eq_true _ _).mp hnd with hfile | hempty
  · cases nd with
    | dir p es => cases hfile
    | file => rfl
    | link t => rfl
  · exact Node.entries_of_isEmptyDir hempty

/-- One removal: what is no longer below a directory has no entries. -/
theorem below_without {d i r j : Ino} {n : Name} (he : (n, i) ∈ (fs.node d).entries)
    (hi : (fs.node i).entries = []) (h : fs.Below r j) :
    (fs.without d n).Below r j ∨ ((fs.without d n).node j).entries = [] := by
  have hi' : ((fs.without d n).node i).entries = [] :=
    List.eq_nil_of_subset_nil (hi ▸ (((Pruned.without fs d n).node i).entries.subset))
  induction h with
  | refl => exact .inl .refl
  | @entry e k m _ hk ih =>
      by_cases hgone : e = d ∧ m = n
      · -- the entry removed: what it names has no entries
        obtain ⟨rfl, rfl⟩ := hgone
        have hki : some k = some i := (lookup_entry hk).symm.trans (lookup_entry he)
        cases hki
        exact .inr hi'
      · have hkept : (m, k) ∈ ((fs.without d n).node e).entries := mem_without.mpr ⟨hk, hgone⟩
        rcases ih with hbelow | hempty
        · exact .inl (hbelow.entry hkept)
        · rw [hempty] at hkept
          cases hkept

/-- **What is no longer below a directory was emptied.** -/
theorem below_or_empty {r j : Ino} (h : fs.Removals fs') (hj : fs.Below r j) :
    fs'.Below r j ∨ (fs'.node j).entries = [] := by
  induction h with
  | refl => exact .inl hj
  | @step fs' d i n _ he hi ih =>
      rcases ih with hbelow | hempty
      · exact below_without he hi hbelow
      · right
        have hsub := ((Pruned.without fs' d n).node j).entries.subset
        exact List.eq_nil_of_subset_nil (hempty ▸ hsub)

/-- Below a directory that is empty at the end everything is. -/
theorem emptied {r j : Ino} (h : fs.Removals fs') (hr : (fs'.node r).entries = [])
    (hj : fs.Below r j) : (fs'.node j).entries = [] := by
  rcases h.below_or_empty hj with hbelow | hempty
  · rw [hbelow.eq_of_entries hr]
    exact hr
  · exact hempty

end Removals

end FileSystem

end CVerif
