import BeEasy.CVerif.DoublyLinked
import BeEasy.CVerif.Forest
import BeEasy.JsonRead.Nodes
import Mathlib.Data.Finset.Card

/-!
# JsonRead — Lists

The lists of children that the nodes in memory make up: a forest, where every
list is linked both ways and an item in no list has no links. Setting the links
of one list leaves the others alone, a new item is in none, and names have
nothing to do with it.
-/

namespace BeEasy

open CVerif

namespace JsonRead

variable {D : Type}

/-! ## Memory -/

def linksOf (m : Memory D) : Links Nat :=
  ⟨fun p => (m.at p).bind Node.next, fun p => (m.at p).bind Node.prev⟩

def childOf (m : Memory D) (p : Nat) : Option Nat := (m.at p).bind Node.child

def nameOf (m : Memory D) (p : Nat) : Option CStr := (m.at p).bind Node.string

/-- The blocks of all items. -/
def Memory.blocks (m : Memory D) : Nat := (m.nodes.map fun n => n.elim 0 Node.blocks).sum

/-- What is not a pointer to an item. -/
def Node.data (n : Node D) : Node D := { n with next := none, prev := none, child := none }

/-- The same items, but for their pointers. -/
structure Edited (m m' : Memory D) : Prop where
  heap : m'.heap = m.heap
  length : m'.nodes.length = m.nodes.length
  blocks : m'.blocks = m.blocks
  data : ∀ p, (m'.at p).map Node.data = (m.at p).map Node.data

theorem Edited.refl (m : Memory D) : Edited m m := ⟨rfl, rfl, rfl, fun _ => rfl⟩

theorem Edited.trans {m₁ m₂ m₃ : Memory D} (h : Edited m₁ m₂) (h' : Edited m₂ m₃) :
    Edited m₁ m₃ :=
  ⟨h'.heap.trans h.heap, h'.length.trans h.length, h'.blocks.trans h.blocks,
    fun p => (h'.data p).trans (h.data p)⟩

theorem Edited.live {m m' : Memory D} (h : Edited m m') (p : Nat) :
    (m'.at p).isSome = (m.at p).isSome := by
  have hdata := congrArg Option.isSome (h.data p)
  rwa [Option.isSome_map, Option.isSome_map] at hdata

theorem Memory.at_eq_some {m : Memory D} {p : Nat} {n : Node D} :
    m.at p = some n ↔ m.nodes[p]? = some (some n) := by
  unfold Memory.at
  exact Option.join_eq_some_iff

theorem Memory.load_eq {m : Memory D} {p : Nat} {n : Node D} (h : m.at p = some n) :
    m.load p = .ok n := by
  rw [Memory.load, h]

/-- The memory with another node at a pointer. -/
theorem at_set {m : Memory D} {p : Nat} {n : Node D} (h : m.at p = some n) (heap : Heap)
    (o : Option (Node D)) :
    Memory.at ⟨heap, m.nodes.set p o⟩ = Function.update m.at p o := by
  have hlt : p < m.nodes.length := (List.getElem?_eq_some_iff.mp (Memory.at_eq_some.mp h)).1
  funext q
  unfold Memory.at
  rw [List.getElem?_set, Function.update_apply]
  by_cases hq : p = q
  · rw [if_pos hq, if_pos hlt, if_pos hq.symm]
    rfl
  · rw [if_neg hq, if_neg (Ne.symm hq)]

theorem blocks_set {m : Memory D} {p : Nat} {n : Node D} (h : m.at p = some n) (heap : Heap)
    (o : Option (Node D)) :
    Memory.blocks ⟨heap, m.nodes.set p o⟩ + n.blocks = m.blocks + o.elim 0 Node.blocks := by
  obtain ⟨hlt, hget⟩ := List.getElem?_eq_some_iff.mp (Memory.at_eq_some.mp h)
  have hsum : ∀ (nodes : List (Option (Node D))) (p : Nat) (hlt : p < nodes.length),
      ((nodes.set p o).map fun n => n.elim 0 Node.blocks).sum + nodes[p].elim 0 Node.blocks
        = (nodes.map fun n => n.elim 0 Node.blocks).sum + o.elim 0 Node.blocks := by
    intro nodes
    induction nodes with
    | nil => exact nofun
    | cons first nodes ih =>
        intro p hlt
        cases p with
        | zero => simp; omega
        | succ p =>
            have htail := ih p (Nat.lt_of_succ_lt_succ hlt)
            simp only [List.set_cons_succ, List.map_cons, List.sum_cons, List.getElem_cons_succ]
            omega
  have heq := hsum m.nodes p hlt
  rw [hget] at heq
  exact heq

/-- One field of a node, or several, but none of its data. -/
theorem edit_eq {m : Memory D} {p : Nat} {n : Node D} (h : m.at p = some n)
    {f : Node D → Node D} (hdata : (f n).data = n.data) :
    ∃ m', m.edit p f = .ok m' ∧ Edited m m' ∧ m'.at = Function.update m.at p (some (f n)) := by
  refine ⟨{ m with nodes := m.nodes.set p (some (f n)) }, ?_, ⟨rfl, List.length_set, ?_, ?_⟩,
    at_set h m.heap _⟩
  · rw [Memory.edit, Memory.load_eq h]
    rfl
  · have hblocks : (f n).data.blocks = n.data.blocks := congrArg Node.blocks hdata
    change (f n).blocks = n.blocks at hblocks
    have hset := blocks_set h m.heap (some (f n))
    simp only [Option.elim_some, hblocks] at hset
    omega
  · intro q
    rw [at_set h]
    by_cases hq : q = p
    · rw [hq, Function.update_self, h, Option.map_some, Option.map_some, hdata]
    · rw [Function.update_of_ne hq]

/-- The pointers, after one node has been set. -/
theorem edit_pointers {m : Memory D} {p : Nat} {n : Node D} (h : m.at p = some n)
    {f : Node D → Node D} (hdata : (f n).data = n.data) :
    ∃ m', m.edit p f = .ok m' ∧ Edited m m' ∧
      (linksOf m').next = Function.update (linksOf m).next p (f n).next ∧
      (linksOf m').prev = Function.update (linksOf m).prev p (f n).prev ∧
      childOf m' = Function.update (childOf m) p (f n).child := by
  obtain ⟨m', hrun, hedited, hat⟩ := edit_eq h hdata
  have hfield : ∀ g : Node D → Option Nat,
      (fun q => (m'.at q).bind g) = Function.update (fun q => (m.at q).bind g) p (g (f n)) := by
    intro g
    funext q
    rw [hat]
    by_cases hq : q = p
    · rw [hq, Function.update_self, Function.update_self, Option.bind_some]
    · rw [Function.update_of_ne hq, Function.update_of_ne hq]
  exact ⟨m', hrun, hedited, hfield Node.next, hfield Node.prev, hfield Node.child⟩

theorem update_same {F : Nat → Option Nat} {p : Nat} {v : Option Nat} (h : F p = v) :
    Function.update F p v = F := by
  subst h
  exact Function.update_eq_self p F

section Edit

variable {m : Memory D} {p : Nat} {n : Node D}

theorem linksOf_next (h : m.at p = some n) : (linksOf m).next p = n.next := by
  simp only [linksOf, h, Option.bind_some]

theorem linksOf_prev (h : m.at p = some n) : (linksOf m).prev p = n.prev := by
  simp only [linksOf, h, Option.bind_some]

theorem childOf_eq (h : m.at p = some n) : childOf m p = n.child := by
  rw [childOf, h, Option.bind_some]

theorem edit_next (h : (m.at p).isSome = true) (q : Option Nat) :
    ∃ m', m.edit p ({ · with next := q }) = .ok m' ∧ Edited m m' ∧
      linksOf m' = (linksOf m).setNext p q ∧ childOf m' = childOf m := by
  obtain ⟨n, hn⟩ := Option.isSome_iff_exists.mp h
  obtain ⟨m', hrun, hedited, hnext, hprev, hchild⟩ :=
    @edit_pointers _ m p n hn ({ · with next := q }) rfl
  rw [update_same (childOf_eq hn)] at hchild
  refine ⟨m', hrun, hedited, ?_, hchild⟩
  rw [update_same (linksOf_prev hn)] at hprev
  rw [Links.setNext, ← hnext, ← hprev]

theorem edit_prev (h : (m.at p).isSome = true) (q : Option Nat) :
    ∃ m', m.edit p ({ · with prev := q }) = .ok m' ∧ Edited m m' ∧
      linksOf m' = (linksOf m).setPrev p q ∧ childOf m' = childOf m := by
  obtain ⟨n, hn⟩ := Option.isSome_iff_exists.mp h
  obtain ⟨m', hrun, hedited, hnext, hprev, hchild⟩ :=
    @edit_pointers _ m p n hn ({ · with prev := q }) rfl
  rw [update_same (childOf_eq hn)] at hchild
  refine ⟨m', hrun, hedited, ?_, hchild⟩
  rw [update_same (linksOf_next hn)] at hnext
  rw [Links.setPrev, ← hnext, ← hprev]

theorem edit_child (h : (m.at p).isSome = true) (q : Option Nat) :
    ∃ m', m.edit p ({ · with child := q }) = .ok m' ∧ Edited m m' ∧ linksOf m' = linksOf m ∧
      childOf m' = Function.update (childOf m) p q := by
  obtain ⟨n, hn⟩ := Option.isSome_iff_exists.mp h
  obtain ⟨m', hrun, hedited, hnext, hprev, hchild⟩ :=
    @edit_pointers _ m p n hn ({ · with child := q }) rfl
  refine ⟨m', hrun, hedited, ?_, hchild⟩
  rw [update_same (linksOf_next hn)] at hnext
  rw [update_same (linksOf_prev hn)] at hprev
  exact congrArg₂ Links.mk hnext hprev

theorem editOf_next {o : Option Nat} (h : ∀ p ∈ o, (m.at p).isSome = true) (q : Option Nat) :
    ∃ m', m.editOf o ({ · with next := q }) = .ok m' ∧ Edited m m' ∧
      linksOf m' = (linksOf m).setNextOf o q ∧ childOf m' = childOf m := by
  cases o with
  | none => exact ⟨m, rfl, .refl m, rfl, rfl⟩
  | some p => exact edit_next (h p rfl) q

theorem editOf_prev {o : Option Nat} (h : ∀ p ∈ o, (m.at p).isSome = true) (q : Option Nat) :
    ∃ m', m.editOf o ({ · with prev := q }) = .ok m' ∧ Edited m m' ∧
      linksOf m' = (linksOf m).setPrevOf o q ∧ childOf m' = childOf m := by
  cases o with
  | none => exact ⟨m, rfl, .refl m, rfl, rfl⟩
  | some p => exact edit_prev (h p rfl) q

theorem editIf_child (h : (m.at p).isSome = true) (c : Prop) [Decidable c] (q : Option Nat) :
    ∃ m', m.editIf c p ({ · with child := q }) = .ok m' ∧ Edited m m' ∧
      linksOf m' = linksOf m ∧
      childOf m' = Function.update (childOf m) p (if c then q else childOf m p) := by
  by_cases hc : c
  · simp only [Memory.editIf, hc, decide_true, if_true]
    exact edit_child h q
  · simp only [Memory.editIf, hc, decide_false, Bool.false_eq_true, if_false]
    exact ⟨m, rfl, .refl m, rfl, (update_same rfl).symm⟩

theorem load_pointers (h : (m.at p).isSome = true) :
    ∃ n, m.load p = .ok n ∧ n.next = (linksOf m).next p ∧ n.prev = (linksOf m).prev p ∧
      n.child = childOf m p := by
  obtain ⟨n, hn⟩ := Option.isSome_iff_exists.mp h
  exact ⟨n, Memory.load_eq hn, (linksOf_next hn).symm, (linksOf_prev hn).symm,
    (childOf_eq hn).symm⟩

end Edit

/-! ## The lists of a forest -/

/-- An item that is no reference, so that its list is its own. -/
def Owner (m : Memory D) (p : Nat) : Prop := ∃ n, m.at p = some n ∧ n.isReference = false

theorem Owner.live {m : Memory D} {p : Nat} (h : Owner m p) : (m.at p).isSome = true := by
  obtain ⟨n, hn, _⟩ := h
  rw [hn]
  rfl

theorem Edited.owner {m m' : Memory D} (h : Edited m m') {p : Nat} : Owner m' p ↔ Owner m p := by
  have himp : ∀ {m₁ m₂ : Memory D}, (m₂.at p).map Node.data = (m₁.at p).map Node.data →
      Owner m₁ p → Owner m₂ p := by
    rintro m₁ m₂ hdata ⟨n, hn, hreference⟩
    rw [hn, Option.map_some, Option.map_eq_some_iff] at hdata
    obtain ⟨n', hn', heq⟩ := hdata
    have hsame : n'.data.isReference = n.data.isReference := congrArg Node.isReference heq
    exact ⟨n', hn', hsame.trans hreference⟩
  exact ⟨himp (h.data p).symm, himp (h.data p)⟩

/-- The items in memory, and the lists of their children: a forest, with every
list linked both ways, and nothing linked that is in no list. -/
structure Lists (m : Memory D) (kids : Nat → List Nat) : Prop where
  forest : IsForest kids
  owner : ∀ p, kids p ≠ [] → Owner m p
  child : ∀ p, Owner m p → childOf m p = (kids p).head?
  live : ∀ p, ∀ c ∈ kids p, (m.at c).isSome = true
  linked : ∀ p, (linksOf m).Linked none (kids p) none
  root : ∀ x, IsRoot kids x → (linksOf m).next x = none ∧ (linksOf m).prev x = none
  accounted : m.heap.live = m.blocks

/-- What may be put into the list of an item: an item in no list, which the other
one is not below. -/
structure Attachable (m : Memory D) (kids : Nat → List Nat) (parent c : Nat) : Prop where
  live : (m.at c).isSome = true
  root : IsRoot kids c
  apart : ¬Below kids parent c

section Lists

variable {m m' : Memory D} {kids : Nat → List Nat}

/-- The list of one item changed, and no other. -/
theorem Lists.relink (h : Lists m kids) {p : Nat} {xs : List Nat} (hp : Owner m p)
    (hedited : Edited m m') (hchild : childOf m' = Function.update (childOf m) p xs.head?)
    (hlinked : (linksOf m').Linked none xs none) (hnodup : xs.Nodup)
    (hkeeps : ∀ q, q ∉ kids p → q ∉ xs → (linksOf m).Keeps (linksOf m') q)
    (hgone : ∀ q ∈ kids p, q ∉ xs → (linksOf m').next q = none ∧ (linksOf m').prev q = none)
    (hnew : ∀ c ∈ xs, c ∈ kids p ∨ Attachable m kids p c) :
    Lists m' (Function.update kids p xs) where
  forest := h.forest.update hnodup fun c hc =>
    (hnew c hc).imp_right fun hattach => ⟨hattach.root, hattach.apart⟩
  owner q hq := by
    rw [hedited.owner]
    by_cases heq : q = p
    · exact heq ▸ hp
    · rw [Function.update_of_ne heq] at hq
      exact h.owner q hq
  child q hq := by
    rw [hedited.owner] at hq
    rw [hchild]
    by_cases heq : q = p
    · rw [heq, Function.update_self, Function.update_self]
    · rw [Function.update_of_ne heq, Function.update_of_ne heq]
      exact h.child q hq
  live q c hc := by
    rw [hedited.live]
    by_cases heq : q = p
    · rw [heq, Function.update_self] at hc
      exact (hnew c hc).elim (h.live p c) Attachable.live
    · rw [Function.update_of_ne heq] at hc
      exact h.live q c hc
  linked q := by
    by_cases heq : q = p
    · rw [heq, Function.update_self]
      exact hlinked
    · rw [Function.update_of_ne heq]
      refine (h.linked q).keep fun c hc => hkeeps c (fun hmem => ?_) fun hmem => ?_
      · exact heq (h.forest.unique hc hmem)
      · rcases hnew c hmem with hkid | hattach
        · exact heq (h.forest.unique hc hkid)
        · exact hattach.root q hc
  root x hx := by
    have hxs : x ∉ xs := by
      have hself := hx p
      rwa [Function.update_self] at hself
    by_cases hkid : x ∈ kids p
    · exact hgone x hkid hxs
    · obtain ⟨hnext, hprev⟩ := hkeeps x hkid hxs
      rw [hnext, hprev]
      refine h.root x fun q hq => ?_
      by_cases heq : q = p
      · exact hkid (heq ▸ hq)
      · have hother := hx q
        rw [Function.update_of_ne heq] at hother
        exact hother hq
  accounted := by rw [hedited.heap, hedited.blocks, h.accounted]

/-- The lists are those that the pointers make up. -/
theorem Lists.unique {kids' : Nat → List Nat} (h : Lists m kids) (h' : Lists m kids') :
    kids = kids' := by
  funext p
  by_cases hp : Owner m p
  · refine Links.linked_unique (h.linked p) (h'.linked p) ?_
    rw [← h.child p hp, ← h'.child p hp]
  · have hnone : ∀ {kids : Nat → List Nat}, Lists m kids → kids p = [] := fun h => by
      by_contra hne
      exact hp (h.owner p hne)
    rw [hnone h, hnone h']

/-- A list is no longer than there are items. -/
theorem length_le_nodes {xs : List Nat} (hnodup : xs.Nodup)
    (hlive : ∀ x ∈ xs, (m.at x).isSome = true) : xs.length ≤ m.nodes.length := by
  rw [← List.toFinset_card_of_nodup hnodup, ← Finset.card_range m.nodes.length]
  refine Finset.card_le_card fun x hx => Finset.mem_range.mpr ?_
  obtain ⟨n, hn⟩ := Option.isSome_iff_exists.mp (hlive x (List.mem_toFinset.mp hx))
  exact (List.getElem?_eq_some_iff.mp (Memory.at_eq_some.mp hn)).1

/-! ## Looking up -/

theorem walk_eq {before : Option Nat} {xs : List Nat} (h : (linksOf m).Linked before xs none)
    (hlive : ∀ x ∈ xs, (m.at x).isSome = true) (index : Nat) :
    walk m index xs.head? = .ok xs[index]? := by
  induction xs generalizing before index with
  | nil => cases index <;> rfl
  | cons x xs ih =>
      cases index with
      | zero => rfl
      | succ index =>
          obtain ⟨n, hn⟩ := Option.isSome_iff_exists.mp (hlive x List.mem_cons_self)
          have hnext := h.2.1
          rw [linksOf_next hn, Option.or_none] at hnext
          rw [List.head?_cons, walk, Memory.load_eq hn, List.getElem?_cons_succ]
          simp only [bind, Except.bind]
          rw [hnext]
          exact ih h.2.2 (fun y hy => hlive y (List.mem_cons_of_mem x hy)) index

/-- `get_array_item` finds the children by their place. -/
theorem Lists.getArrayItem_eq (h : Lists m kids) {p : Nat} (hp : Owner m p) (index : Nat) :
    getArrayItem m (some p) index = .ok (kids p)[index]? := by
  obtain ⟨n, hn, hreference⟩ := hp
  have hchild := h.child p ⟨n, hn, hreference⟩
  rw [childOf_eq hn] at hchild
  rw [getArrayItem, Memory.load_eq hn]
  simp only [bind, Except.bind]
  rw [hchild]
  exact walk_eq (h.linked p) (h.live p) index

/-- The loops of `get_object_item` end, and find the first item with the name. -/
theorem seek_eq {before : Option Nat} {xs : List Nat} (h : (linksOf m).Linked before xs none)
    (hlive : ∀ x ∈ xs, (m.at x).isSome = true) (name : CStr) (caseSensitive : Bool) {rounds : Nat}
    (hrounds : xs.length < rounds) :
    seek m name caseSensitive rounds xs.head? = .ok
      ((xs.find? fun x => stopsAt caseSensitive name (nameOf m x)).filter
        fun x => (nameOf m x).isSome) := by
  induction xs generalizing before rounds with
  | nil =>
      obtain ⟨rounds, rfl⟩ := Nat.exists_eq_add_one_of_ne_zero (Nat.ne_zero_of_lt hrounds)
      rfl
  | cons x xs ih =>
      obtain ⟨rounds, rfl⟩ := Nat.exists_eq_add_one_of_ne_zero (Nat.ne_zero_of_lt hrounds)
      obtain ⟨n, hn⟩ := Option.isSome_iff_exists.mp (hlive x List.mem_cons_self)
      have hnext := h.2.1
      rw [linksOf_next hn, Option.or_none] at hnext
      have hname : nameOf m x = n.string := by rw [nameOf, hn, Option.bind_some]
      rw [List.head?_cons, seek, Memory.load_eq hn, List.find?_cons, hname]
      simp only [bind, Except.bind]
      cases stopsAt caseSensitive name n.string with
      | true => cases hstring : n.string <;> simp [Option.filter, hname, hstring, pure, Except.pure]
      | false =>
          rw [if_neg nofun, hnext]
          exact ih h.2.2 (fun y hy => hlive y (List.mem_cons_of_mem x hy))
            (Nat.lt_of_succ_lt_succ hrounds)

theorem Lists.getObjectItemAt_eq (h : Lists m kids) {p : Nat} (hp : Owner m p) (name : CStr)
    (caseSensitive : Bool) :
    getObjectItemAt m (some p) (some name) caseSensitive = .ok
      (((kids p).find? fun x => stopsAt caseSensitive name (nameOf m x)).filter
        fun x => (nameOf m x).isSome) := by
  obtain ⟨n, hn, hreference⟩ := hp
  have hchild := h.child p ⟨n, hn, hreference⟩
  rw [childOf_eq hn] at hchild
  rw [getObjectItemAt, Memory.load_eq hn]
  simp only [bind, Except.bind]
  rw [hchild]
  exact seek_eq (h.linked p) (h.live p) name caseSensitive
    (Nat.lt_succ_of_le (length_le_nodes (h.forest.nodup p) (h.live p)))

theorem Lists.getObjectItemAt_mem (h : Lists m kids) {p : Nat} (hp : Owner m p)
    (name : Option CStr) (caseSensitive : Bool) :
    ∃ found, getObjectItemAt m (some p) name caseSensitive = .ok found ∧
      ∀ c ∈ found, c ∈ kids p := by
  cases name with
  | none => exact ⟨none, rfl, nofun⟩
  | some name =>
      refine ⟨_, h.getObjectItemAt_eq hp name caseSensitive, fun c hc => ?_⟩
      exact List.mem_of_find?_eq_some (Option.eq_some_of_filter_eq_some hc)

/-! ## New items and names -/

/-- The same lists, where only data has changed. -/
theorem Lists.data (h : Lists m kids) (hlinks : linksOf m' = linksOf m)
    (hchild : childOf m' = childOf m) (howner : ∀ p, Owner m' p ↔ Owner m p)
    (hlive : ∀ p, (m'.at p).isSome = (m.at p).isSome) (haccounted : m'.heap.live = m'.blocks) :
    Lists m' kids where
  forest := h.forest
  owner p hp := (howner p).mpr (h.owner p hp)
  child p hp := by rw [hchild, h.child p ((howner p).mp hp)]
  live p c hc := (hlive c).trans (h.live p c hc)
  linked p := hlinks ▸ h.linked p
  root x hx := hlinks ▸ h.root x hx
  accounted := haccounted

/-- An item with other data of the same ownership, and the heap to go with it. -/
theorem Lists.store (h : Lists m kids) {p : Nat} {n n' : Node D} (hn : m.at p = some n)
    (hnext : n'.next = n.next) (hprev : n'.prev = n.prev) (hchild : n'.child = n.child)
    (hreference : n'.isReference = n.isReference) {heap : Heap}
    (hlive : heap.live + n.blocks = m.heap.live + n'.blocks) :
    Lists ⟨heap, m.nodes.set p (some n')⟩ kids := by
  have hat := at_set hn heap (some n')
  have hfield : ∀ g : Node D → Option Nat, g n' = g n →
      (fun q => (Memory.at ⟨heap, m.nodes.set p (some n')⟩ q).bind g)
        = fun q => (m.at q).bind g := by
    intro g hg
    funext q
    rw [hat]
    by_cases hq : q = p
    · rw [hq, Function.update_self, hn, Option.bind_some, Option.bind_some, hg]
    · rw [Function.update_of_ne hq]
  refine h.data (congrArg₂ Links.mk (hfield _ hnext) (hfield _ hprev)) (hfield _ hchild)
    (fun q => ?_) (fun q => ?_) ?_
  · unfold Owner
    rw [hat]
    by_cases hq : q = p
    · rw [hq, Function.update_self, hn]
      simp [hreference]
    · rw [Function.update_of_ne hq]
  · rw [hat]
    by_cases hq : q = p
    · rw [hq, Function.update_self, hn, Option.isSome_some, Option.isSome_some]
    · rw [Function.update_of_ne hq]
  · have hset := blocks_set hn heap (some n')
    have haccounted := h.accounted
    simp only [Option.elim_some] at hset ⊢
    omega

/-- A new item is in no list. -/
theorem Lists.new (h : Lists m kids) (grants : Nat → Bool) {n : Node D} (hnext : n.next = none)
    (hprev : n.prev = none) (hchild : n.isReference = false → n.child = none)
    (hblocks : n.blocks = 1) :
    Lists (m.new grants n).2 kids ∧
      ∀ p, (m.new grants n).1 = some p → IsRoot kids p ∧ kids p = [] ∧ m.at p = none ∧
        (m.new grants n).2.at = Function.update m.at p (some n) := by
  unfold Memory.new
  by_cases hgrants : grants m.heap.calls = true
  swap
  · simp only [Heap.allocate_refused hgrants]
    exact ⟨h.data rfl rfl (fun _ => Iff.rfl) (fun _ => rfl) h.accounted, nofun⟩
  simp only [Heap.allocate_granted hgrants]
  have hnone : m.at m.nodes.length = none := by
    unfold Memory.at
    rw [List.getElem?_eq_none (Nat.le_refl _)]
    rfl
  have hat : Memory.at ⟨⟨m.heap.calls + 1, m.heap.live + 1⟩, m.nodes ++ [some n]⟩
      = Function.update m.at m.nodes.length (some n) := by
    funext q
    unfold Memory.at
    rcases Nat.lt_trichotomy q m.nodes.length with hq | rfl | hq
    · rw [List.getElem?_append_left hq, Function.update_of_ne (Nat.ne_of_lt hq)]
    · rw [List.getElem?_concat_length, Function.update_self]
      rfl
    · rw [Function.update_of_ne (Nat.ne_of_gt hq), List.getElem?_eq_none (by simp; omega),
        List.getElem?_eq_none (Nat.le_of_lt hq)]
  have hfresh : kids m.nodes.length = [] := by
    by_contra hne
    obtain ⟨n', hn', _⟩ := h.owner _ hne
    rw [hnone] at hn'
    cases hn'
  have hout : IsRoot kids m.nodes.length := by
    intro p hp
    have hlive := h.live p _ hp
    rw [hnone] at hlive
    cases hlive
  refine ⟨⟨h.forest, fun p hp => ?_, fun p hp => ?_, fun p c hc => ?_, fun p => ?_, fun x hx => ?_,
    ?_⟩, fun p hp => ?_⟩
  · obtain ⟨n', hn', hreference⟩ := h.owner p hp
    have hne : p ≠ m.nodes.length := by
      rintro rfl
      exact hp hfresh
    exact ⟨n', by rw [hat, Function.update_of_ne hne, hn'], hreference⟩
  · obtain ⟨n', hn', hreference⟩ := hp
    rw [hat] at hn'
    rw [childOf, hat]
    by_cases hp : p = m.nodes.length
    · rw [hp, Function.update_self] at hn'
      obtain rfl := Option.some.inj hn'
      rw [hp, Function.update_self, hfresh]
      exact hchild hreference
    · rw [Function.update_of_ne hp] at hn' ⊢
      exact h.child p ⟨n', hn', hreference⟩
  · have hne : c ≠ m.nodes.length := by
      rintro rfl
      exact hout p hc
    rw [hat, Function.update_of_ne hne]
    exact h.live p c hc
  · refine (h.linked p).keep fun c hc => ?_
    have hne : c ≠ m.nodes.length := by
      rintro rfl
      exact hout p hc
    have hsame := congrFun hat c
    rw [Function.update_of_ne hne] at hsame
    exact ⟨by simp only [linksOf, hsame], by simp only [linksOf, hsame]⟩
  · have hsame := congrFun hat x
    by_cases hx' : x = m.nodes.length
    · rw [hx', Function.update_self] at hsame
      rw [hx', linksOf_next hsame, linksOf_prev hsame]
      exact ⟨hnext, hprev⟩
    · rw [Function.update_of_ne hx'] at hsame
      simp only [linksOf, hsame]
      exact h.root x hx
  · have haccounted := h.accounted
    simp only [Memory.blocks, List.map_append, List.sum_append, List.map_cons, List.map_nil,
      List.sum_singleton, Option.elim_some, hblocks] at haccounted ⊢
    omega
  · obtain rfl := Option.some.inj hp
    exact ⟨hout, hfresh, hnone, hat⟩

end Lists

end JsonRead

end BeEasy
