import BeEasy.CVerif.Memory
import Mathlib.Tactic.ByContra

/-!
# CVerif — Mapping

A file mapped into memory and read through pointers that come out of its own
content. A pointer is given by its distance from the start of the mapping,
which wraps around with the address space: one before the start is a large
distance. `Safe` says of a computation that it does not fault, and each kind
of read comes with the condition under which it is safe.
-/

namespace CVerif

/-- A computation without undefined behaviour. -/
def Safe {α : Type} (x : Except Fault α) : Prop := ∃ a, x = .ok a

/-- A file as `mmap` maps it. An `off_t` holds its size. -/
structure Mapping where
  content : List Byte
  fits : content.length < 2 ^ 63

/-- A member of a C structure: where it is, and its size. -/
structure Member where
  offset : Nat
  size : Nat

namespace Mapping

/-- The `n` bytes at a pointer. It does not matter where no bytes are. -/
def read (f : Mapping) (ptr n : Nat) : Except Fault (List Byte) :=
  if n = 0 then .ok [] else readBytes f.content (ptr % 2 ^ 64) n

/-- An integer member of the structure at a pointer. -/
def field (host : Host) (f : Mapping) (ptr : Nat) (m : Member) : Except Fault Nat := do
  return host.load (← f.read (ptr + m.offset) m.size)

/-- The string at a pointer, whose NUL has to be in the file too. -/
def string (f : Mapping) (ptr : Nat) : Except Fault (List Byte) :=
  readString (f.content.drop (ptr % 2 ^ 64))

/-! ## What is inside the file -/

/-- The `n` bytes at a pointer are bytes of the file. -/
def Inside (f : Mapping) (ptr n : Nat) : Prop :=
  n = 0 ∨ ptr % 2 ^ 64 + n ≤ f.content.length

/-- The bytes that are there, at most `n`. -/
def bytes (f : Mapping) (ptr n : Nat) : List Byte := (f.content.drop (ptr % 2 ^ 64)).take n

/-- The integer these are. -/
def value (host : Host) (f : Mapping) (ptr : Nat) (m : Member) : Nat :=
  host.load (f.bytes (ptr + m.offset) m.size)

/-- A string of the file begins at a pointer. -/
def HasString (f : Mapping) (ptr : Nat) : Prop := (0 : Byte) ∈ f.content.drop (ptr % 2 ^ 64)

/-- The string up to its NUL. -/
def stringValue (f : Mapping) (ptr : Nat) : List Byte := stringAt (f.content.drop (ptr % 2 ^ 64))

end Mapping

/-! ## Safe computations -/

section Safe

variable {α β : Type} {x : Except Fault α} {g : α → Except Fault β}

theorem safe_ok (a : α) : Safe (.ok a : Except Fault α) := ⟨a, rfl⟩

theorem safe_error (fault : Fault) : ¬Safe (.error fault : Except Fault α) := nofun

theorem safe_pure (a : α) : Safe (pure a : Except Fault α) := ⟨a, rfl⟩

theorem safe_bind_iff : Safe (x >>= g) ↔ ∃ a, x = .ok a ∧ Safe (g a) := by
  cases x with
  | error fault => exact ⟨fun h => absurd h (safe_error fault), nofun⟩
  | ok a => exact ⟨fun h => ⟨a, rfl, h⟩, fun ⟨b, hb, h⟩ => by cases hb; exact h⟩

theorem safe_bind_pure_iff {h : α → β} : Safe (x >>= fun a => pure (h a)) ↔ Safe x := by
  rw [safe_bind_iff]
  exact exists_congr fun a => and_iff_left (safe_pure (h a))

/-- One more case that has the same condition. -/
theorem safe_ite_or_iff {c q P : Prop} [Decidable c] {y : Except Fault α}
    (hx : Safe x ↔ P) (hy : Safe y ↔ (q → P)) :
    Safe (if c then x else y) ↔ (c ∨ q → P) := by
  rw [or_imp]
  split
  case isTrue h => exact hx.trans ⟨fun hP => ⟨fun _ => hP, fun _ => hP⟩, fun ⟨hP, _⟩ => hP h⟩
  case isFalse h => exact hy.trans (and_iff_right (absurd · h)).symm

/-- A computation that, where it is safe, has a result known beforehand. -/
theorem safe_bind_of {P : Prop} {a : α} (hok : P → x = .ok a) (hsafe : Safe x → P) :
    Safe (x >>= g) ↔ P ∧ Safe (g a) := by
  rw [safe_bind_iff]
  constructor
  · intro ⟨b, hb, h⟩
    have hP := hsafe ⟨b, hb⟩
    cases hb.symm.trans (hok hP)
    exact ⟨hP, h⟩
  · intro ⟨hP, h⟩
    exact ⟨a, hok hP, h⟩

end Safe

namespace Mapping

section Reads

variable {α : Type} {f : Mapping} {ptr m n : Nat}

theorem read_of_inside (h : f.Inside ptr n) : f.read ptr n = .ok (f.bytes ptr n) := by
  by_cases hn : n = 0
  · rw [read, if_pos hn, bytes, hn, List.take_zero]
  · rw [read, if_neg hn, readBytes_ok (h.resolve_left hn), bytes]

theorem inside_of_read (h : Safe (f.read ptr n)) : f.Inside ptr n := by
  by_contra hout
  obtain ⟨hn, hlt⟩ := not_or.mp hout
  rw [read, if_neg hn, readBytes_outOfBounds (Nat.lt_of_not_le hlt)] at h
  exact safe_error _ h

theorem safe_read_bind {g : List Byte → Except Fault α} :
    Safe (f.read ptr n >>= g) ↔ f.Inside ptr n ∧ Safe (g (f.bytes ptr n)) :=
  safe_bind_of read_of_inside inside_of_read

theorem length_bytes (h : f.Inside ptr n) : (f.bytes ptr n).length = n := by
  rw [bytes, List.length_take, List.length_drop]
  rcases h with rfl | h
  · exact Nat.zero_min _
  · omega

theorem field_of_inside {host : Host} {mem : Member}
    (h : f.Inside (ptr + mem.offset) mem.size) :
    f.field host ptr mem = .ok (f.value host ptr mem) := by
  rw [field, read_of_inside h]
  rfl

theorem safe_field_iff {host : Host} {mem : Member} :
    Safe (f.field host ptr mem) ↔ f.Inside (ptr + mem.offset) mem.size :=
  ⟨fun h => (safe_read_bind.mp h).1, fun h => ⟨_, field_of_inside h⟩⟩

theorem safe_field_bind {host : Host} {mem : Member} {g : Nat → Except Fault α} :
    Safe (f.field host ptr mem >>= g)
      ↔ f.Inside (ptr + mem.offset) mem.size ∧ Safe (g (f.value host ptr mem)) :=
  safe_bind_of field_of_inside safe_field_iff.mp

theorem safe_string_bind {g : List Byte → Except Fault α} :
    Safe (f.string ptr >>= g) ↔ f.HasString ptr ∧ Safe (g (f.stringValue ptr)) := by
  refine safe_bind_of (fun h => if_pos h) fun h => ?_
  by_contra hno
  have hfault : f.string ptr = .error .outOfBounds := if_neg hno
  exact safe_error _ (hfault ▸ h)

theorem inside_iff (hn : n ≠ 0) : f.Inside ptr n ↔ ptr % 2 ^ 64 + n ≤ f.content.length :=
  or_iff_right hn

/-- A part of what is inside: no file reaches around the address space. -/
theorem Inside.part {off : Nat} (h : f.Inside ptr n) (hm : off + m ≤ n) :
    f.Inside (ptr + off) m := by
  have hfits := f.fits
  rcases h with hn | h
  · exact .inl (by omega)
  · exact .inr (by omega)

/-- With its first bytes and its last, all of it is inside. -/
theorem Inside.join {off : Nat} (hfirst : f.Inside ptr m) (hlast : f.Inside (ptr + off) n)
    (hm : 0 < m) (hn : 0 < n) (hoff : off < 2 ^ 63) : f.Inside ptr (off + n) := by
  have hfits := f.fits
  have hm' := (inside_iff (Nat.ne_of_gt hm)).mp hfirst
  have hn' := (inside_iff (Nat.ne_of_gt hn)).mp hlast
  exact .inr (by omega)

end Reads

end Mapping

end CVerif
