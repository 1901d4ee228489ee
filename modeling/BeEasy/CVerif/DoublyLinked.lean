import Mathlib.Data.List.Nodup
import Mathlib.Logic.Function.Basic

/-!
# CVerif — Doubly linked lists

Nodes that are linked to the next and to the previous one, where the first has
none before it and the last none behind. An edit sets a few links; what the
lists are afterwards follows from three rules: a part that none of the links
set belongs to stays as it is, the last node of a part can be given another
successor, and the first another predecessor.
-/

namespace CVerif

variable {P : Type*}

/-- The links of all nodes. -/
structure Links (P : Type*) where
  next : P → Option P
  prev : P → Option P

namespace Links

/-- Part of a list, linked both ways, with what comes before it and after. -/
def Linked (l : Links P) : Option P → List P → Option P → Prop
  | _, [], _ => True
  | before, x :: xs, after =>
      l.prev x = before ∧ l.next x = xs.head?.or after ∧ Linked l (some x) xs after

theorem linked_append (l : Links P) (before after : Option P) (xs ys : List P) :
    l.Linked before (xs ++ ys) after ↔
      l.Linked before xs (ys.head?.or after) ∧ l.Linked (xs.getLast?.or before) ys after := by
  induction xs generalizing before with
  | nil => simp [Linked]
  | cons x xs ih =>
      have hlast : (x :: xs).getLast?.or before = xs.getLast?.or (some x) := by
        rw [List.getLast?_cons]
        cases xs.getLast? <;> rfl
      have hhead : (xs ++ ys).head?.or after = xs.head?.or (ys.head?.or after) := by
        cases xs <;> rfl
      rw [List.cons_append, Linked, Linked, ih, hlast, hhead, and_assoc, and_assoc]

/-- The node in the middle knows its neighbours. -/
theorem linked_middle (l : Links P) (as bs : List P) (x : P) :
    l.Linked none (as ++ x :: bs) none ↔
      l.Linked none as (some x) ∧ l.prev x = as.getLast? ∧ l.next x = bs.head? ∧
        l.Linked (some x) bs none := by
  rw [linked_append, Linked, Option.or_none, Option.or_none, Option.or_none, List.head?_cons]

/-- The links of a node are the same. -/
def Keeps (l l' : Links P) (p : P) : Prop := l'.next p = l.next p ∧ l'.prev p = l.prev p

theorem Keeps.trans {l₁ l₂ l₃ : Links P} {p : P} (h : l₁.Keeps l₂ p) (h' : l₂.Keeps l₃ p) :
    l₁.Keeps l₃ p := ⟨h'.1.trans h.1, h'.2.trans h.2⟩

theorem Linked.keep {l l' : Links P} {before after : Option P} {xs : List P}
    (h : l.Linked before xs after) (hkeeps : ∀ x ∈ xs, l.Keeps l' x) :
    l'.Linked before xs after := by
  induction xs generalizing before with
  | nil => trivial
  | cons x xs ih =>
      obtain ⟨hnext, hprev⟩ := hkeeps x List.mem_cons_self
      exact ⟨hprev.trans h.1, hnext.trans h.2.1,
        ih h.2.2 fun y hy => hkeeps y (List.mem_cons_of_mem x hy)⟩

theorem nodup_middle {as bs : List P} {x : P} (h : (as ++ x :: bs).Nodup) :
    as.Nodup ∧ bs.Nodup ∧ x ∉ as ∧ x ∉ bs ∧ (∀ a ∈ as, a ∉ bs) := by
  rw [List.nodup_append, List.nodup_cons] at h
  refine ⟨h.1, h.2.1.2, fun hx => h.2.2 x hx x List.mem_cons_self rfl, h.2.1.1, ?_⟩
  exact fun a ha hb => h.2.2 a ha a (List.mem_cons_of_mem x hb) rfl

/-- From one node on there is only one list. -/
theorem linked_unique {l : Links P} {before before' : Option P} {xs ys : List P}
    (h : l.Linked before xs none) (h' : l.Linked before' ys none) (hhead : xs.head? = ys.head?) :
    xs = ys := by
  induction xs generalizing before before' ys with
  | nil => exact (List.head?_eq_none_iff.mp hhead.symm).symm
  | cons x xs ih =>
      cases ys with
      | nil => cases hhead
      | cons y ys =>
          obtain rfl : x = y := Option.some.inj hhead
          have hnext := h.2.1.symm.trans h'.2.1
          rw [Option.or_none, Option.or_none] at hnext
          rw [ih h.2.2 h'.2.2 hnext]

variable [DecidableEq P]

/-! ## Setting links -/

def setNext (l : Links P) (p : P) (q : Option P) : Links P :=
  { l with next := Function.update l.next p q }

def setPrev (l : Links P) (p : P) (q : Option P) : Links P :=
  { l with prev := Function.update l.prev p q }

/-- The same, where the pointer may be null. -/
def setNextOf (l : Links P) (p : Option P) (q : Option P) : Links P :=
  p.elim l fun p => l.setNext p q

def setPrevOf (l : Links P) (p : Option P) (q : Option P) : Links P :=
  p.elim l fun p => l.setPrev p q

section Rules

variable {l : Links P} {before after : Option P} {xs : List P} {p x : P} {o q : Option P}

theorem keeps_setNext (h : x ≠ p) : l.Keeps (l.setNext p q) x :=
  ⟨Function.update_of_ne (β := fun _ => Option P) h q l.next, rfl⟩

theorem keeps_setPrev (h : x ≠ p) : l.Keeps (l.setPrev p q) x :=
  ⟨rfl, Function.update_of_ne (β := fun _ => Option P) h q l.prev⟩

theorem keeps_setNextOf (h : o ≠ some x) : l.Keeps (l.setNextOf o q) x := by
  cases o with
  | none => exact ⟨rfl, rfl⟩
  | some p => exact keeps_setNext fun heq => h (heq ▸ rfl)

theorem keeps_setPrevOf (h : o ≠ some x) : l.Keeps (l.setPrevOf o q) x := by
  cases o with
  | none => exact ⟨rfl, rfl⟩
  | some p => exact keeps_setPrev fun heq => h (heq ▸ rfl)

theorem next_setNext (l : Links P) (p : P) (q : Option P) : (l.setNext p q).next p = q :=
  Function.update_self (β := fun _ => Option P) p q l.next

theorem prev_setPrev (l : Links P) (p : P) (q : Option P) : (l.setPrev p q).prev p = q :=
  Function.update_self (β := fun _ => Option P) p q l.prev

theorem prev_setNext (l : Links P) (p : P) (q : Option P) : (l.setNext p q).prev = l.prev := rfl

theorem next_setPrev (l : Links P) (p : P) (q : Option P) : (l.setPrev p q).next = l.next := rfl

theorem prev_setNextOf (l : Links P) (o q : Option P) : (l.setNextOf o q).prev = l.prev := by
  cases o <;> rfl

theorem next_setPrevOf (l : Links P) (o q : Option P) : (l.setPrevOf o q).next = l.next := by
  cases o <;> rfl

/-- Another successor for the last node. -/
theorem Linked.setNextOf_last (h : l.Linked before xs after) (hnodup : xs.Nodup)
    (q : Option P) : (l.setNextOf xs.getLast? q).Linked before xs q := by
  rcases List.eq_nil_or_concat xs with rfl | ⟨init, last, rfl⟩
  · trivial
  rw [List.concat_eq_append] at h hnodup ⊢
  rw [List.getLast?_concat]
  have hlast : last ∉ init := by
    rw [List.nodup_append_comm] at hnodup
    exact (List.nodup_cons.mp hnodup).1
  rw [linked_append] at h ⊢
  refine ⟨h.1.keep fun y hy => keeps_setNext fun heq => hlast (heq ▸ hy), h.2.1, ?_, trivial⟩
  exact next_setNext l last q

/-- Another predecessor for the first node. -/
theorem Linked.setPrevOf_head (h : l.Linked before xs after) (hnodup : xs.Nodup)
    (q : Option P) : (l.setPrevOf xs.head? q).Linked q xs after := by
  cases xs with
  | nil => trivial
  | cons x xs =>
      refine ⟨prev_setPrev l x q, h.2.1, h.2.2.keep fun y hy => keeps_setPrev ?_⟩
      exact fun heq => (List.nodup_cons.mp hnodup).1 (heq ▸ hy)

/-- A part that the link does not belong to. -/
theorem Linked.setNextOf (h : l.Linked before xs after) (hp : ∀ p ∈ o, p ∉ xs) :
    (l.setNextOf o q).Linked before xs after :=
  h.keep fun x hx => keeps_setNextOf fun heq => hp x heq hx

theorem Linked.setPrevOf (h : l.Linked before xs after) (hp : ∀ p ∈ o, p ∉ xs) :
    (l.setPrevOf o q).Linked before xs after :=
  h.keep fun x hx => keeps_setPrevOf fun heq => hp x heq hx

theorem Linked.setNext (h : l.Linked before xs after) (hp : p ∉ xs) :
    (l.setNext p q).Linked before xs after :=
  h.keep fun _ hx => keeps_setNext fun heq => hp (heq ▸ hx)

theorem Linked.setPrev (h : l.Linked before xs after) (hp : p ∉ xs) :
    (l.setPrev p q).Linked before xs after :=
  h.keep fun _ hx => keeps_setPrev fun heq => hp (heq ▸ hx)

end Rules

/-! ## Edits -/

/-- A node behind the last. -/
def append (l : Links P) (last : Option P) (y : P) : Links P :=
  (l.setNextOf last (some y)).setPrev y last

/-- A node out of its list. -/
def remove (l : Links P) (x : P) : Links P :=
  (((l.setNextOf (l.prev x) (l.next x)).setPrevOf (l.next x) (l.prev x)).setPrev x none).setNext x
    none

/-- A node in front of another. -/
def insert (l : Links P) (x y : P) : Links P :=
  (((l.setNext y (some x)).setPrev y (l.prev x)).setPrev x (some y)).setNextOf (l.prev x) (some y)

/-- A node in the place of another. -/
def replace (l : Links P) (x y : P) : Links P :=
  (((((l.setNext y (l.next x)).setPrev y (l.prev x)).setPrevOf (l.next x) (some y)).setNextOf
    (l.prev x) (some y)).setNext x none).setPrev x none

section Edits

variable {l : Links P} {as bs xs : List P} {x y : P}

theorem linked_push (h : l.Linked none xs none) (hnodup : xs.Nodup) (hy : y ∉ xs)
    (hnext : l.next y = none) : (l.append xs.getLast? y).Linked none (xs ++ [y]) none := by
  have hlast := h.setNextOf_last hnodup (some y)
  have hother : xs.getLast? ≠ some y := fun heq => hy (List.mem_of_getLast? heq)
  rw [linked_append, Option.or_none]
  refine ⟨hlast.setPrev hy, ?_, ?_, trivial⟩
  · rw [Option.or_none]
    exact prev_setPrev _ _ _
  · exact (keeps_setNextOf hother).1.trans hnext

theorem keeps_append {z : P} (hz : z ∉ xs) (hne : z ≠ y) :
    l.Keeps (l.append xs.getLast? y) z :=
  (keeps_setNextOf fun heq => hz (List.mem_of_getLast? heq)).trans (keeps_setPrev hne)

theorem linked_remove (h : l.Linked none (as ++ x :: bs) none) (hnodup : (as ++ x :: bs).Nodup) :
    (l.remove x).Linked none (as ++ bs) none ∧ (l.remove x).next x = none ∧
      (l.remove x).prev x = none := by
  obtain ⟨has, hprev, hnext, hbs⟩ := (l.linked_middle as bs x).mp h
  obtain ⟨hnodupA, hnodupB, hxa, hxb, hdisjoint⟩ := nodup_middle hnodup
  refine ⟨?_, next_setNext _ _ _, prev_setPrev _ _ _⟩
  have hlast : ∀ p ∈ as.getLast?, p ∉ bs := fun p hp => hdisjoint p (List.mem_of_getLast? hp)
  have hhead : ∀ p ∈ bs.head?, p ∉ as := fun p hp ha =>
    hdisjoint p ha (List.mem_of_mem_head? hp)
  rw [remove, hprev, hnext, linked_append, Option.or_none, Option.or_none]
  exact ⟨(((has.setNextOf_last hnodupA _).setPrevOf hhead).setPrev hxa).setNext hxa,
    (((hbs.setNextOf hlast).setPrevOf_head hnodupB _).setPrev hxb).setNext hxb⟩

theorem keeps_remove {z : P} (h : l.Linked none (as ++ x :: bs) none)
    (hz : z ∉ as ++ x :: bs) : l.Keeps (l.remove x) z := by
  obtain ⟨_, hprev, hnext, _⟩ := (l.linked_middle as bs x).mp h
  have hne : z ≠ x := fun heq => hz (heq ▸ List.mem_append_right as List.mem_cons_self)
  have hlast : as.getLast? ≠ some z := fun heq =>
    hz (List.mem_append_left _ (List.mem_of_getLast? heq))
  have hhead : bs.head? ≠ some z := fun heq =>
    hz (List.mem_append_right as (List.mem_cons_of_mem x (List.mem_of_mem_head? heq)))
  rw [remove, hprev, hnext]
  exact (((keeps_setNextOf hlast).trans (keeps_setPrevOf hhead)).trans (keeps_setPrev hne)).trans
    (keeps_setNext hne)

theorem linked_insert (h : l.Linked none (as ++ x :: bs) none) (hnodup : (as ++ x :: bs).Nodup)
    (hy : y ∉ as ++ x :: bs) : (l.insert x y).Linked none (as ++ y :: x :: bs) none := by
  obtain ⟨has, hprev, hnext, hbs⟩ := (l.linked_middle as bs x).mp h
  obtain ⟨hnodupA, hnodupB, hxa, hxb, hdisjoint⟩ := nodup_middle hnodup
  rw [List.mem_append, List.mem_cons, not_or, not_or] at hy
  obtain ⟨hya, hyx, hyb⟩ := hy
  have hlastX : as.getLast? ≠ some x := fun heq => hxa (List.mem_of_getLast? heq)
  have hlastY : as.getLast? ≠ some y := fun heq => hya (List.mem_of_getLast? heq)
  have hlast : ∀ p ∈ as.getLast?, p ∉ bs := fun p hp => hdisjoint p (List.mem_of_getLast? hp)
  rw [insert, hprev, linked_middle, Linked, List.head?_cons, prev_setNextOf]
  refine ⟨?_, ?_, ?_, ?_, ?_, ?_⟩
  · exact (((has.setNext hya).setPrev hya).setPrev hxa).setNextOf_last hnodupA _
  · rw [(keeps_setPrev hyx).2, prev_setPrev]
  · rw [(keeps_setNextOf hlastY).1, next_setPrev, next_setPrev, next_setNext]
  · exact prev_setPrev _ _ _
  · rw [(keeps_setNextOf hlastX).1, next_setPrev, next_setPrev, (keeps_setNext (Ne.symm hyx)).1,
      hnext, Option.or_none]
  · exact (((hbs.setNext hyb).setPrev hyb).setPrev hxb).setNextOf hlast

theorem keeps_insert {z : P} (h : l.Linked none (as ++ x :: bs) none) (hz : z ∉ as ++ x :: bs)
    (hzy : z ≠ y) : l.Keeps (l.insert x y) z := by
  obtain ⟨_, hprev, _, _⟩ := (l.linked_middle as bs x).mp h
  have hne : z ≠ x := fun heq => hz (heq ▸ List.mem_append_right as List.mem_cons_self)
  have hlast : as.getLast? ≠ some z := fun heq =>
    hz (List.mem_append_left _ (List.mem_of_getLast? heq))
  rw [insert, hprev]
  exact (((keeps_setNext hzy).trans (keeps_setPrev hzy)).trans (keeps_setPrev hne)).trans
    (keeps_setNextOf hlast)

theorem linked_replace (h : l.Linked none (as ++ x :: bs) none) (hnodup : (as ++ x :: bs).Nodup)
    (hy : y ∉ as ++ x :: bs) :
    (l.replace x y).Linked none (as ++ y :: bs) none ∧ (l.replace x y).next x = none ∧
      (l.replace x y).prev x = none := by
  obtain ⟨has, hprev, hnext, hbs⟩ := (l.linked_middle as bs x).mp h
  obtain ⟨hnodupA, hnodupB, hxa, hxb, hdisjoint⟩ := nodup_middle hnodup
  rw [List.mem_append, List.mem_cons, not_or, not_or] at hy
  obtain ⟨hya, hyx, hyb⟩ := hy
  have hlastY : as.getLast? ≠ some y := fun heq => hya (List.mem_of_getLast? heq)
  have hheadY : bs.head? ≠ some y := fun heq => hyb (List.mem_of_mem_head? heq)
  have hlast : ∀ p ∈ as.getLast?, p ∉ bs := fun p hp => hdisjoint p (List.mem_of_getLast? hp)
  have hhead : ∀ p ∈ bs.head?, p ∉ as := fun p hp ha =>
    hdisjoint p ha (List.mem_of_mem_head? hp)
  refine ⟨?_, next_setNext _ _ _, prev_setPrev _ _ _⟩
  rw [replace, hprev, hnext, linked_middle]
  refine ⟨?_, ?_, ?_, ?_⟩
  · exact (((((has.setNext hya).setPrev hya).setPrevOf hhead).setNextOf_last hnodupA _).setNext
      hxa).setPrev hxa
  · rw [(keeps_setPrev hyx).2, prev_setNext, prev_setNextOf, (keeps_setPrevOf hheadY).2,
      prev_setPrev]
  · rw [next_setPrev, (keeps_setNext hyx).1, (keeps_setNextOf hlastY).1, next_setPrevOf,
      next_setPrev, next_setNext]
  · exact (((((hbs.setNext hyb).setPrev hyb).setPrevOf_head hnodupB _).setNextOf hlast).setNext
      hxb).setPrev hxb

theorem keeps_replace {z : P} (h : l.Linked none (as ++ x :: bs) none) (hz : z ∉ as ++ x :: bs)
    (hzy : z ≠ y) : l.Keeps (l.replace x y) z := by
  obtain ⟨_, hprev, hnext, _⟩ := (l.linked_middle as bs x).mp h
  have hne : z ≠ x := fun heq => hz (heq ▸ List.mem_append_right as List.mem_cons_self)
  have hlast : as.getLast? ≠ some z := fun heq =>
    hz (List.mem_append_left _ (List.mem_of_getLast? heq))
  have hhead : bs.head? ≠ some z := fun heq =>
    hz (List.mem_append_right as (List.mem_cons_of_mem x (List.mem_of_mem_head? heq)))
  rw [replace, hprev, hnext]
  exact (((((keeps_setNext hzy).trans (keeps_setPrev hzy)).trans (keeps_setPrevOf hhead)).trans
    (keeps_setNextOf hlast)).trans (keeps_setNext hne)).trans (keeps_setPrev hne)

end Edits

end Links

end CVerif
