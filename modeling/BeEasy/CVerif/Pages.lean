import Mathlib.Data.Nat.Basic

/-!
# CVerif — Pages

Ranges of bytes rounded to whole pages of `p` bytes: the pages that hold
`n` bytes from `x` on begin at `pageStart p x` and are `pageSpan p x n` bytes
long, and no other pages do with less.
-/

namespace CVerif

/-- The first byte of the page that holds `x`. -/
def pageStart (p x : Nat) : Nat := x / p * p

/-- The length of the pages that hold `n` bytes from `x` on, by the offset of
the last byte in them. -/
def pageSpan (p x n : Nat) : Nat := (n + x % p - 1) / p * p + p

variable {p x n b l : Nat}

theorem dvd_pageStart (p x : Nat) : p ∣ pageStart p x := Nat.dvd_mul_left p (x / p)

theorem dvd_pageSpan (p x n : Nat) : p ∣ pageSpan p x n :=
  Nat.dvd_add (Nat.dvd_mul_left p _) (Nat.dvd_refl p)

theorem pageStart_add_mod (p x : Nat) : pageStart p x + x % p = x := Nat.div_add_mod' x p

theorem pageStart_le (p x : Nat) : pageStart p x ≤ x := Nat.div_mul_le_self x p

/-- The last byte and the page it is in. -/
theorem pageSpan_covers (hp : 0 < p) : x + n ≤ pageStart p x + pageSpan p x n := by
  have hx := pageStart_add_mod p x
  have hlast := Nat.lt_div_mul_add hp (a := n + x % p - 1)
  unfold pageSpan
  omega

/-- Pages that hold `x` begin no later. -/
theorem le_pageStart (hb : p ∣ b) (h : b ≤ x) : b ≤ pageStart p x := by
  obtain ⟨k, rfl⟩ := hb
  rw [Nat.mul_comm] at h ⊢
  rcases p.eq_zero_or_pos with rfl | hp
  · simp
  · exact Nat.mul_le_mul_right p ((Nat.le_div_iff_mul_le hp).mpr h)

/-- Pages that hold the last byte end no sooner. -/
theorem pageSpan_le (hn : 0 < n) (hl : p ∣ l) (h : x + n ≤ l) :
    pageStart p x + pageSpan p x n ≤ l := by
  have hx := pageStart_add_mod p x
  have hlast : pageStart p x + (n + x % p - 1) / p * p ≤ l - 1 := by
    have hmul := Nat.div_mul_le_self (n + x % p - 1) p
    omega
  -- both ends are multiples of `p`, the first is before the second
  obtain ⟨k, rfl⟩ := hl
  have hmultiple : pageStart p x + (n + x % p - 1) / p * p
      = p * (x / p + (n + x % p - 1) / p) := by
    unfold pageStart
    rw [Nat.mul_add, Nat.mul_comm p, Nat.mul_comm p]
  have hlt : x / p + (n + x % p - 1) / p < k := by
    apply Nat.lt_of_mul_lt_mul_left (a := p)
    omega
  calc pageStart p x + pageSpan p x n
      = p * (x / p + (n + x % p - 1) / p) + p := by
        unfold pageSpan
        omega
    _ = p * (x / p + (n + x % p - 1) / p + 1) := (Nat.mul_succ p _).symm
    _ ≤ p * k := Nat.mul_le_mul_left p hlt

end CVerif
