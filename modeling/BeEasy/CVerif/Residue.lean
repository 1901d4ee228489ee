import BeEasy.CVerif.BurstErrors
import BeEasy.CVerif.Bytes

/-!
# CVerif — Residue

A register fed a number as wide as itself, byte by byte: the bytes of the
number, the lowest first, are the one word `packed` makes of them. So the
register that is fed what it holds becomes zero, and what it is fed beside
that is all that is left (`foldl_feed_leBytes`). The register that shifts the
other way is fed the highest byte first, which in the mirror is this
(`map_reverse_beBytes`).
-/

namespace CVerif

theorem getElem_leBytes {n : Nat} (v : Nat) {i : Nat} (hi : i < (leBytes n v).length) :
    (leBytes n v)[i] = BitVec.ofNat 8 (v / 256 ^ i) := by
  induction n generalizing v i with
  | zero => cases hi
  | succ n ih =>
      cases i with
      | zero => simp [leBytes]
      | succ i =>
          have htail := ih (v / 256) (i := i) (by simpa [leBytes] using hi)
          rw [Nat.div_div_eq_div_mul, ← pow_succ'] at htail
          exact htail

/-- Bit `j` of byte `i` of a word. -/
theorem getLsbD_byte {w : Nat} (v : BitVec w) {i j : Nat} (hj : j < 8) :
    (BitVec.ofNat 8 (v.toNat / 256 ^ i)).getLsbD j = v.getLsbD (8 * i + j) := by
  have hpow : 256 ^ i = 2 ^ (8 * i) := by rw [pow_mul]; rfl
  rw [BitVec.getLsbD_ofNat, hpow, Nat.testBit_div_two_pow, decide_eq_true hj, Bool.true_and,
    Nat.add_comm]
  rfl

/-- **The mirror image** of a word, written the highest byte first, is its own
mirror image, written the lowest first. -/
theorem map_reverse_beBytes {n : Nat} (v : BitVec (8 * n)) :
    (beBytes n v.toNat).map BitVec.reverse = leBytes n v.reverse.toNat := by
  apply List.ext_getElem
  · simp
  · intro i hi hi'
    have hin : i < n := by simpa using hi'
    apply BitVec.eq_of_getLsbD_eq
    intro j hj
    have hplace : 8 * (n - 1 - i) + (7 - j) = 8 * n - 1 - (8 * i + j) := by omega
    have hwidth : 8 * i + j < 8 * n := by omega
    simp only [beBytes, List.getElem_map, List.getElem_reverse, getElem_leBytes, length_leBytes]
    rw [BitVec.getLsbD_reverse, BitVec.getMsbD_eq_getLsbD, getLsbD_byte _ (by omega), hplace,
      getLsbD_byte _ hj, BitVec.getLsbD_reverse, BitVec.getMsbD_eq_getLsbD]
    simp [hj, hwidth]

namespace ShiftRegister

/-- The bytes of a number, packed into a register, are its low bits. -/
theorem getLsbD_packed_leBytes {w : Nat} (n v : Nat) {i : Nat} (hi : i < w) :
    (packed (leBytes n v) : BitVec w).getLsbD i = (decide (i < 8 * n) && v.testBit i) := by
  induction n generalizing v i with
  | zero => simp [leBytes, packed]
  | succ n ih =>
      rw [leBytes, packed, BitVec.getLsbD_xor, BitVec.getLsbD_setWidth, BitVec.getLsbD_shiftLeft,
        BitVec.getLsbD_ofNat]
      by_cases hlow : i < 8
      · have hin : i < 8 * (n + 1) := by omega
        simp [hi, hlow, hin]
      · have hbit : v.testBit i = (v / 256).testBit (i - 8) := by
          rw [show 256 = 2 ^ 8 from rfl, Nat.testBit_div_two_pow, Nat.sub_add_cancel (by omega)]
        rw [ih (v / 256) (by omega), hbit]
        have hiff : i - 8 < 8 * n ↔ i < 8 * (n + 1) := by omega
        simp [hi, hlow, hiff]

theorem packed_leBytes {n : Nat} (v : BitVec (8 * n)) : packed (leBytes n v.toNat) = v := by
  apply BitVec.eq_of_getLsbD_eq
  intro i hi
  rw [getLsbD_packed_leBytes _ _ hi, decide_eq_true hi, Bool.true_and]
  rfl

/-- **A register fed a number of its own width** holds what is left of the two. -/
theorem foldl_feed_leBytes {n : Nat} {poly : BitVec (8 * n)} (c v : BitVec (8 * n)) :
    (leBytes n v.toNat).foldl (feed poly) c = steps poly (8 * n) (c ^^^ v) := by
  have hfit : 8 * (leBytes n v.toNat).length ≤ 8 * n := by rw [length_leBytes]
  rw [foldl_feed hfit, packed_leBytes, length_leBytes]

end ShiftRegister

end CVerif
