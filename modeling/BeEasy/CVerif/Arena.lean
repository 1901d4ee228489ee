import Mathlib.Order.CompletePartialOrder
import Mathlib.Order.Interval.Set.Disjoint

/-!
# CVerif — Arena

What a bump allocator is for, without its machine arithmetic: blocks of a
fixed region handed out from the bottom up and never reused. `Arena`
carries the facts that make it safe as fields, so an arena whose blocks
overlap or leave the region cannot be built; `Arena.alloc` takes the proof
that the request fits.
-/

namespace CVerif

/-- `size` bytes from offset `start` on. -/
structure Block where
  start : Nat
  size : Nat

/-- The offsets a block covers. -/
def Block.range (b : Block) : Set Nat := Set.Ico b.start (b.start + b.size)

/-- A block that ends where another starts, or before, is disjoint from it. -/
theorem Block.disjoint_of_le {a b : Block} (h : b.start + b.size ≤ a.start) :
    Disjoint a.range b.range := by
  rw [Block.range, Block.range, Set.Ico_disjoint_Ico]
  omega

/-- A region of `capacity` bytes, its first `used` bytes given out as
`blocks` (newest first). -/
structure Arena (capacity : Nat) where
  used : Nat
  blocks : List Block
  used_le : used ≤ capacity
  below : ∀ b ∈ blocks, b.start + b.size ≤ used
  apart : blocks.Pairwise (fun a b => Disjoint a.range b.range)

namespace Arena

variable {capacity : Nat}

def empty (capacity : Nat) : Arena capacity where
  used := 0
  blocks := []
  used_le := Nat.zero_le _
  below := by simp
  apart := .nil

/-- The next block: it starts where the used part ends. -/
def next (a : Arena capacity) (n : Nat) : Block := ⟨a.used, n⟩

/-- The next block is disjoint from every block given out before. -/
theorem next_disjoint (a : Arena capacity) (n : Nat) :
    ∀ b ∈ a.blocks, Disjoint (a.next n).range b.range :=
  fun b hb => Block.disjoint_of_le (a.below b hb)

/-- Hand out `n` bytes that fit. -/
def alloc (a : Arena capacity) (n : Nat) (fits : a.used + n ≤ capacity) : Arena capacity where
  used := a.used + n
  blocks := a.next n :: a.blocks
  used_le := fits
  below := by
    intro b hb
    rcases List.mem_cons.mp hb with rfl | hb
    · exact Nat.le_refl _
    · have := a.below b hb
      omega
  apart := List.pairwise_cons.mpr ⟨a.next_disjoint n, a.apart⟩

end Arena

end CVerif
