import Mathlib.Data.Nat.Bitwise
import Mathlib.Logic.Function.Iterate

/-!
# CVerif — ShiftRegister

The linear feedback shift register that divides by a polynomial over GF(2),
least significant bit first, at any width and for any polynomial. One step
drops the low bit and, when that bit was set, subtracts the polynomial.

Steps are linear for exclusive or, and on a register whose low bits are
clear they only shift. Together these split `n` steps into what the low `n`
bits contribute and the rest of the register moved down
(`steps_split`): the identity every table-driven CRC rests on.
-/

namespace CVerif.ShiftRegister

variable {w : Nat} (poly : BitVec w)

/-- One step of the register. -/
def step (c : BitVec w) : BitVec w :=
  if c.getLsbD 0 then (c >>> 1) ^^^ poly else c >>> 1

/-- `n` steps of the register. -/
def steps (n : Nat) (c : BitVec w) : BitVec w := (step poly)^[n] c

/-- The low `n` bits of the register, the others cleared. -/
def low (n : Nat) (c : BitVec w) : BitVec w := c &&& BitVec.ofNat w (2 ^ n - 1)

theorem step_xor (a b : BitVec w) : step poly (a ^^^ b) = step poly a ^^^ step poly b := by
  unfold step
  ext i hi
  cases ha : a.getLsbD 0 <;> cases hb : b.getLsbD 0 <;>
    simp only [BitVec.getLsbD_xor, ha, hb, Bool.xor_false, Bool.xor_true, Bool.not_true,
      Bool.not_false, Bool.false_eq_true, if_true, if_false, BitVec.getElem_xor,
      BitVec.getElem_ushiftRight] <;>
    cases a.getLsbD (1 + i) <;> cases b.getLsbD (1 + i) <;> cases poly[i] <;> rfl

theorem steps_xor (n : Nat) (a b : BitVec w) :
    steps poly n (a ^^^ b) = steps poly n a ^^^ steps poly n b := by
  induction n generalizing a b with
  | zero => rfl
  | succ n ih => simp only [steps, Function.iterate_succ_apply, step_xor] at ih ⊢; exact ih _ _

/-- A register whose low `n` bits are clear is only moved down by `n` steps. -/
theorem steps_of_clear {n : Nat} {c : BitVec w} (h : ∀ i, i < n → c.getLsbD i = false) :
    steps poly n c = c >>> n := by
  induction n generalizing c with
  | zero => simp [steps]
  | succ n ih =>
      have hbit : step poly c = c >>> 1 := by
        rw [step, h 0 (by omega)]
        rfl
      have hrest : ∀ i, i < n → (c >>> 1).getLsbD i = false := by
        intro i hi
        rw [BitVec.getLsbD_ushiftRight]
        exact h (1 + i) (by omega)
      calc steps poly (n + 1) c = steps poly n (step poly c) := rfl
        _ = (c >>> 1) >>> n := by rw [hbit, ih hrest]
        _ = c >>> (n + 1) := by rw [← BitVec.shiftRight_add, Nat.add_comm]

theorem getLsbD_low (n : Nat) (c : BitVec w) (i : Nat) :
    (low n c).getLsbD i = (c.getLsbD i && decide (i < n)) := by
  rw [low, BitVec.getLsbD_and, BitVec.getLsbD_ofNat, Nat.testBit_two_pow_sub_one]
  by_cases hi : i < w
  · simp [hi]
  · simp [BitVec.getLsbD_of_ge c i (by omega)]

/-- What `low` leaves out has clear low bits, ... -/
theorem clear_high (n : Nat) (c : BitVec w) :
    ∀ i, i < n → (c ^^^ low n c).getLsbD i = false := by
  intro i hi
  simp [BitVec.getLsbD_xor, getLsbD_low, hi]

/-- ... and the same upper bits as the register. -/
theorem high_shiftRight (n : Nat) (c : BitVec w) : (c ^^^ low n c) >>> n = c >>> n := by
  apply BitVec.eq_of_getLsbD_eq
  intro i _
  have hni : ¬ n + i < n := by omega
  simp [BitVec.getLsbD_xor, getLsbD_low, hni]

/-- **The table identity**: `n` steps are the steps of the low `n` bits,
and the rest of the register moved down. -/
theorem steps_split (n : Nat) (c : BitVec w) :
    steps poly n c = steps poly n (low n c) ^^^ (c >>> n) := by
  have hsplit : c = low n c ^^^ (c ^^^ low n c) := by
    rw [BitVec.xor_comm c, ← BitVec.xor_assoc, BitVec.xor_self, BitVec.zero_xor]
  calc steps poly n c = steps poly n (low n c ^^^ (c ^^^ low n c)) := by rw [← hsplit]
    _ = steps poly n (low n c) ^^^ steps poly n (c ^^^ low n c) := steps_xor poly n _ _
    _ = steps poly n (low n c) ^^^ (c >>> n) := by
        rw [steps_of_clear poly (clear_high n c), high_shiftRight]

end CVerif.ShiftRegister
