import Mathlib.Data.List.Nodup

/-!
# CVerif — EdgeTriggered

Edge-triggered readiness, as `epoll` reports it with `EPOLLET`. Something
that happens to a source queues it, unless it is queued already (`notify`);
a wait hands some of the queued sources to the program, which takes them one
after the other (`wait`, `next`), and from then on they are queued anew only
by something new. `pending` counts how often a source will still come up:
that is what a program that does a bounded amount of work each time may
leave undone.
-/

namespace CVerif

/-- The queue of the kernel, and what is left of the program's last batch.
Neither holds a source twice. -/
structure Events (α : Type) where
  ready : List α
  batch : List α
  readyNodup : ready.Nodup
  batchNodup : batch.Nodup

namespace Events

variable {α : Type} {e : Events α} {x y : α} {n : Nat}

def empty : Events α := ⟨[], [], List.nodup_nil, List.nodup_nil⟩

/-- The wait that hands out `n` sources. -/
def wait (e : Events α) (n : Nat) : Events α where
  ready := e.ready.drop n
  batch := e.ready.take n
  readyNodup := e.readyNodup.sublist (List.drop_sublist n _)
  batchNodup := e.readyNodup.sublist (List.take_sublist n _)

/-- The program is done with the first of its batch. -/
def next (e : Events α) : Events α where
  ready := e.ready
  batch := e.batch.tail
  readyNodup := e.readyNodup
  batchNodup := e.batchNodup.tail

theorem mem_of_mem_wait (h : y ∈ (e.wait n).ready ∨ y ∈ (e.wait n).batch) : y ∈ e.ready := by
  rcases h with h | h
  · exact List.mem_of_mem_drop h
  · exact List.mem_of_mem_take h

theorem not_mem_next {rest : List α} (h : e.batch = x :: rest) : x ∉ e.next.batch := by
  have hnodup := e.batchNodup
  rw [h] at hnodup
  show x ∉ e.batch.tail
  rw [h]
  exact (List.nodup_cons.mp hnodup).1

theorem mem_next {rest : List α} (h : e.batch = x :: rest) :
    y ∈ e.next.batch ↔ y ∈ e.batch ∧ y ≠ x := by
  have hx := not_mem_next h
  show y ∈ e.batch.tail ↔ _
  change x ∉ e.batch.tail at hx
  rw [h] at hx ⊢
  constructor
  · intro hy
    exact ⟨List.mem_cons_of_mem x hy, fun heq => hx (heq ▸ hy)⟩
  · rintro ⟨hy, hne⟩
    exact (List.mem_cons.mp hy).resolve_left hne

variable [DecidableEq α]

/-- Something new happens to `x`. -/
def notify (e : Events α) (x : α) : Events α where
  ready := if x ∈ e.ready then e.ready else e.ready ++ [x]
  batch := e.batch
  readyNodup := by
    by_cases hx : x ∈ e.ready
    · rw [if_pos hx]
      exact e.readyNodup
    · rw [if_neg hx]
      exact List.nodup_append.mpr ⟨e.readyNodup, List.nodup_singleton x,
        fun a ha b hb hab => hx (List.mem_singleton.mp hb ▸ hab ▸ ha)⟩
  batchNodup := e.batchNodup

/-- `x` is closed, and no longer queued. -/
def forget (e : Events α) (x : α) : Events α where
  ready := e.ready.filter (· ≠ x)
  batch := e.batch
  readyNodup := e.readyNodup.filter _
  batchNodup := e.batchNodup

/-- How often `x` will come up, from what has happened so far. -/
def pending (e : Events α) (x : α) : Nat :=
  (if x ∈ e.ready then 1 else 0) + (if x ∈ e.batch then 1 else 0)

theorem mem_notify : y ∈ (e.notify x).ready ↔ y ∈ e.ready ∨ y = x := by
  show y ∈ (if x ∈ e.ready then e.ready else e.ready ++ [x]) ↔ _
  by_cases hx : x ∈ e.ready
  · rw [if_pos hx]
    constructor
    · exact .inl
    · rintro (hy | rfl)
      · exact hy
      · exact hx
  · rw [if_neg hx, List.mem_append, List.mem_singleton]

theorem mem_forget : y ∈ (e.forget x).ready ↔ y ∈ e.ready ∧ y ≠ x := by
  simp [forget]

/-! ## What is pending -/

theorem pending_notify_self :
    (e.notify x).pending x = 1 + if x ∈ e.batch then 1 else 0 := by
  rw [pending, if_pos (mem_notify.mpr (.inr rfl))]
  rfl

theorem pending_notify_ne (h : y ≠ x) : (e.notify x).pending y = e.pending y := by
  have hmem : y ∈ (e.notify x).ready ↔ y ∈ e.ready := by
    rw [mem_notify]
    exact or_iff_left h
  simp only [pending, hmem]
  rfl

theorem pending_le_notify : e.pending y ≤ (e.notify x).pending y := by
  by_cases h : y = x
  · subst h
    rw [pending_notify_self, pending]
    by_cases hy : y ∈ e.ready
    · exact Nat.le_of_eq (by rw [if_pos hy])
    · rw [if_neg hy]
      omega
  · exact Nat.le_of_eq (pending_notify_ne h).symm

/-- A wait moves events, it makes none and loses none. -/
theorem pending_wait (h : e.batch = []) : (e.wait n).pending x = e.pending x := by
  have hsplit : x ∈ e.ready ↔ x ∈ e.ready.take n ∨ x ∈ e.ready.drop n := by
    rw [← List.mem_append, List.take_append_drop]
  have hdisjoint : ¬ (x ∈ e.ready.take n ∧ x ∈ e.ready.drop n) := by
    rintro ⟨ht, hd⟩
    exact List.disjoint_take_drop e.readyNodup (Nat.le_refl n) ht hd
  have hnone : x ∉ e.batch := by
    rw [h]
    exact List.not_mem_nil
  show (if x ∈ e.ready.drop n then 1 else 0) + (if x ∈ e.ready.take n then 1 else 0)
    = (if x ∈ e.ready then 1 else 0) + (if x ∈ e.batch then 1 else 0)
  rw [if_neg hnone]
  by_cases ht : x ∈ e.ready.take n
  · have hd : x ∉ e.ready.drop n := fun hd => hdisjoint ⟨ht, hd⟩
    rw [if_neg hd, if_pos ht, if_pos (hsplit.mpr (.inl ht))]
  · by_cases hd : x ∈ e.ready.drop n
    · rw [if_pos hd, if_neg ht, if_pos (hsplit.mpr (.inr hd))]
    · have hnot : x ∉ e.ready := fun hx => (hsplit.mp hx).elim ht hd
      rw [if_neg hd, if_neg ht, if_neg hnot]

/-- Taking an event is what uses it up. -/
theorem pending_next_self {rest : List α} (h : e.batch = x :: rest) :
    e.pending x = e.next.pending x + 1 := by
  have hx : x ∈ e.batch := by
    rw [h]
    exact List.mem_cons_self
  simp only [pending, if_pos hx, if_neg (not_mem_next h)]
  rfl

theorem pending_next_ne {rest : List α} (h : e.batch = x :: rest) (hne : y ≠ x) :
    e.next.pending y = e.pending y := by
  have hmem : y ∈ e.next.batch ↔ y ∈ e.batch := by
    rw [mem_next h]
    exact and_iff_left hne
  simp only [pending, hmem]
  rfl

theorem pending_forget_ne (hne : y ≠ x) : (e.forget x).pending y = e.pending y := by
  have hmem : y ∈ (e.forget x).ready ↔ y ∈ e.ready := by
    rw [mem_forget]
    exact and_iff_left hne
  simp only [pending, hmem]
  rfl

/-- Nothing pends of a source that is not raised. -/
theorem pending_eq_zero (hready : x ∉ e.ready) (hbatch : x ∉ e.batch) : e.pending x = 0 := by
  rw [pending, if_neg hready, if_neg hbatch]

end Events

end CVerif
