import BeEasy.CVerif.ShiftRegister
import Mathlib.RingTheory.AdjoinRoot
import Mathlib.Algebra.Field.ZMod

/-!
# CVerif — PolynomialRegister

The shift register that divides by a polynomial over GF(2), most significant
bit first, and what it computes. A word stands for the polynomial whose
coefficients are its bits (`toPoly`), the register's polynomial leaves its
leading term out (`generator`), and one step multiplies by `X` modulo the
generator (`mk_advance`): the algebra of a register is that of the quotient
`AdjoinRoot (generator poly)`.

The register that shifts the other way is this one in the mirror
(`reverse_advance`).
-/

namespace CVerif.PolynomialRegister

open Polynomial

variable {w : Nat} (poly : BitVec w)

/-- One step of the register. -/
def advance (c : BitVec w) : BitVec w :=
  if c.msb then (c <<< 1) ^^^ poly else c <<< 1

/-! ## Words as polynomials -/

/-- The polynomial with the bits of a word as coefficients. -/
noncomputable def toPoly (c : BitVec w) : (ZMod 2)[X] :=
  ∑ i ∈ Finset.range w, if c.getLsbD i then X ^ i else 0

/-- The bits of a message as coefficients, the first that of the highest power. -/
noncomputable def ofBits : List Bool → (ZMod 2)[X]
  | [] => 0
  | b :: bs => (if b then X ^ bs.length else 0) + ofBits bs

/-- What the register divides by: the leading term it leaves out, and `poly`. -/
noncomputable def generator : (ZMod 2)[X] := X ^ w + toPoly poly

theorem coeff_toPoly (c : BitVec w) (i : Nat) :
    (toPoly c).coeff i = if c.getLsbD i then 1 else 0 := by
  have hterm : ∀ j, (if c.getLsbD j then (X : (ZMod 2)[X]) ^ j else 0).coeff i
      = if i = j then (if c.getLsbD j then 1 else 0) else 0 := by
    intro j
    cases c.getLsbD j <;> simp [coeff_X_pow]
  rw [toPoly, finsetSum_coeff]
  simp only [hterm, Finset.sum_ite_eq, Finset.mem_range]
  by_cases hi : i < w
  · rw [if_pos hi]
  · rw [if_neg hi, BitVec.getLsbD_of_ge c i (Nat.le_of_not_lt hi)]
    rfl

theorem toPoly_xor (a b : BitVec w) : toPoly (a ^^^ b) = toPoly a + toPoly b := by
  ext i
  rw [coeff_add, coeff_toPoly, coeff_toPoly, coeff_toPoly, BitVec.getLsbD_xor]
  cases a.getLsbD i <;> cases b.getLsbD i <;> rfl

theorem degree_toPoly (c : BitVec w) : (toPoly c).degree < w := by
  rw [degree_lt_iff_coeff_zero]
  intro i hi
  rw [coeff_toPoly, BitVec.getLsbD_of_ge c i hi]
  rfl

theorem generator_monic : (generator poly).Monic := monic_X_pow_add (degree_toPoly poly)

theorem degree_generator : (generator poly).degree = w := by
  rw [generator, degree_add_eq_left_of_degree_lt]
  · exact degree_X_pow w
  · rw [degree_X_pow]
    exact degree_toPoly poly

/-- A word is the remainder of whatever it is congruent to. -/
theorem toPoly_eq_modByMonic {c : BitVec w} {p : (ZMod 2)[X]}
    (h : AdjoinRoot.mk (generator poly) (toPoly c) = AdjoinRoot.mk (generator poly) p) :
    toPoly c = p %ₘ generator poly := by
  obtain ⟨q, hq⟩ := AdjoinRoot.mk_eq_mk.mp h.symm
  have hdiv : toPoly c + generator poly * q = p := by
    rw [← hq]
    ring
  refine (div_modByMonic_unique q (toPoly c) (generator_monic poly) ⟨hdiv, ?_⟩).2.symm
  rw [degree_generator]
  exact degree_toPoly c

/-! ## Steps -/

/-- The leading term, in the quotient, is the word `poly`. -/
theorem mk_X_pow :
    AdjoinRoot.mk (generator poly) (X ^ w) = AdjoinRoot.mk (generator poly) (toPoly poly) := by
  rw [AdjoinRoot.mk_eq_mk, generator, CharTwo.sub_eq_add]

/-- A shift is a multiplication by `X`, but for the bit that falls out. -/
theorem X_mul_toPoly (c : BitVec w) :
    X * toPoly c = toPoly (c <<< 1) + if c.msb then X ^ w else 0 := by
  have hcoeff : ∀ i, (if c.msb then (X : (ZMod 2)[X]) ^ w else 0).coeff i
      = if c.msb && decide (i = w) then 1 else 0 := by
    intro i
    cases c.msb <;> simp [coeff_X_pow]
  ext i
  rw [coeff_add, coeff_toPoly, hcoeff, BitVec.getLsbD_shiftLeft]
  cases i with
  | zero =>
      rw [mul_coeff_zero, coeff_X_zero, zero_mul]
      by_cases hw : 0 = w
      · subst hw
        simp [BitVec.msb_eq_getLsbD_last]
      · simp [hw]
  | succ i =>
      rw [coeff_X_mul, coeff_toPoly, BitVec.msb_eq_getLsbD_last]
      rcases Nat.lt_trichotomy (i + 1) w with hlt | heq | hgt
      · have hne : i + 1 ≠ w := by omega
        simp [hlt, hne]
      · have hlast : w - 1 = i := by omega
        simp [heq, hlast]
      · have hnlt : ¬ i + 1 < w := by omega
        have hne : i + 1 ≠ w := by omega
        simp [hnlt, hne, BitVec.getLsbD_of_ge c i (by omega)]

/-- **One step** multiplies by `X` modulo the generator. -/
theorem mk_advance (c : BitVec w) :
    AdjoinRoot.mk (generator poly) (toPoly (advance poly c))
      = AdjoinRoot.mk (generator poly) (X * toPoly c) := by
  rw [X_mul_toPoly, advance]
  cases c.msb with
  | false => simp
  | true =>
      rw [if_pos rfl, if_pos rfl, toPoly_xor, map_add, map_add, mk_X_pow]

theorem mk_iterate_advance (n : Nat) (c : BitVec w) :
    AdjoinRoot.mk (generator poly) (toPoly ((advance poly)^[n] c))
      = AdjoinRoot.mk (generator poly) (X ^ n * toPoly c) := by
  induction n generalizing c with
  | zero => rw [pow_zero, one_mul]; rfl
  | succ n ih =>
      rw [Function.iterate_succ_apply, ih, map_mul, mk_advance, ← map_mul, pow_succ, mul_assoc]

/-- A narrow word moved up in a wide one. -/
theorem toPoly_shiftLeft {k s : Nat} (b : BitVec k) (h : k + s ≤ w) :
    toPoly (b.setWidth w <<< s) = X ^ s * toPoly b := by
  ext i
  rw [coeff_X_pow_mul', coeff_toPoly, coeff_toPoly, BitVec.getLsbD_shiftLeft,
    BitVec.getLsbD_setWidth]
  by_cases hs : s ≤ i
  · by_cases hi : i < w
    · have hsub : i - s < w := by omega
      simp [hs, hi, hsub, Nat.not_lt.mpr hs]
    · simp [hs, hi, BitVec.getLsbD_of_ge b (i - s) (by omega)]
  · simp [hs, Nat.lt_of_not_le hs]

/-! ## Messages -/

/-- The bits of a word, the most significant first. -/
def msbFirst (c : BitVec w) : List Bool := (List.range w).map fun i => c.getMsbD i

/-- The message with its first `n` bits complemented. -/
def flipFirst (n : Nat) (bs : List Bool) : List Bool := (bs.take n).map (!·) ++ bs.drop n

theorem ofBits_append (as bs : List Bool) :
    ofBits (as ++ bs) = X ^ bs.length * ofBits as + ofBits bs := by
  induction as with
  | nil => rw [List.nil_append, ofBits, mul_zero, zero_add]
  | cons a as ih =>
      rw [List.cons_append, ofBits, ofBits, ih, List.length_append]
      cases a with
      | false => simp
      | true =>
          simp only [if_true]
          ring

theorem ofBits_map_not (bs : List Bool) :
    ofBits (bs.map (!·)) = ofBits bs + ∑ i ∈ Finset.range bs.length, X ^ i := by
  induction bs with
  | nil => simp [ofBits]
  | cons b bs ih =>
      rw [List.map_cons, ofBits, ofBits, ih, List.length_map, List.length_cons,
        Finset.sum_range_succ]
      cases b with
      | false =>
          simp only [Bool.not_false, if_true, Bool.false_eq_true, if_false]
          ring
      | true =>
          -- the two leading terms cancel
          have htwo : (X : (ZMod 2)[X]) ^ bs.length + X ^ bs.length = 0 :=
            CharTwo.add_self_eq_zero _
          simp only [Bool.not_true, if_true, Bool.false_eq_true, if_false]
          linear_combination -htwo

theorem ofBits_flipFirst {n : Nat} {bs : List Bool} (h : n ≤ bs.length) :
    ofBits (flipFirst n bs)
      = ofBits bs + X ^ (bs.length - n) * ∑ i ∈ Finset.range n, X ^ i := by
  have hsplit := ofBits_append (bs.take n) (bs.drop n)
  rw [List.take_append_drop] at hsplit
  rw [flipFirst, ofBits_append, ofBits_map_not, hsplit, List.length_take, Nat.min_eq_left h,
    List.length_drop]
  ring

theorem coeff_ofBits (bs : List Bool) (i : Nat) :
    (ofBits bs).coeff i = if bs.reverse.getD i false then 1 else 0 := by
  induction bs with
  | nil => simp [ofBits]
  | cons b bs ih =>
      rw [ofBits, coeff_add, ih, List.reverse_cons]
      rcases Nat.lt_trichotomy i bs.length with hlt | heq | hgt
      · have hne : i ≠ bs.length := by omega
        rw [List.getD_append _ _ _ _ (by rw [List.length_reverse]; exact hlt)]
        cases b <;> simp [coeff_X_pow, hne]
      · subst heq
        rw [List.getD_append_right _ _ _ _ (by rw [List.length_reverse]),
          List.getD_eq_default bs.reverse _ (by rw [List.length_reverse])]
        cases b <;> simp
      · have hne : i ≠ bs.length := by omega
        rw [List.getD_eq_default bs.reverse _ (by rw [List.length_reverse]; omega),
          List.getD_eq_default (bs.reverse ++ [b]) _ (by simp; omega)]
        cases b <;> simp [coeff_X_pow, hne]

/-- The bits of a word, as a message, are the word. -/
theorem ofBits_msbFirst (c : BitVec w) : ofBits (msbFirst c) = toPoly c := by
  ext i
  have hbit : (msbFirst c).reverse.getD i false = c.getLsbD i := by
    rw [msbFirst, List.getD_eq_getElem?_getD]
    by_cases hi : i < w
    · rw [List.getElem?_reverse (by simpa using hi)]
      have hlast : w - 1 - (w - 1 - i) = i := by omega
      simp [BitVec.getMsbD_eq_getLsbD, hlast, show w - 1 - i < w by omega]
    · rw [List.getElem?_eq_none (by simpa using hi), BitVec.getLsbD_of_ge c i (by omega)]
      rfl
  rw [coeff_ofBits, coeff_toPoly, hbit]

/-! ## The mirror image -/

theorem reverse_xor (a b : BitVec w) : (a ^^^ b).reverse = a.reverse ^^^ b.reverse := by
  ext i hi
  simp only [BitVec.getElem_xor, BitVec.getElem_reverse, BitVec.getMsbD_xor]

theorem reverse_shiftLeft (n : Nat) (c : BitVec w) : (c <<< n).reverse = c.reverse >>> n := by
  ext i hi
  rw [BitVec.getElem_reverse, BitVec.getMsbD_shiftLeft, BitVec.getElem_ushiftRight,
    BitVec.getLsbD_reverse, Nat.add_comm]

/-- **The mirror image** of a step is a step of the register that shifts
down. -/
theorem reverse_advance (c : BitVec w) :
    (advance poly c).reverse = ShiftRegister.step poly.reverse c.reverse := by
  rw [advance, ShiftRegister.step, BitVec.getLsbD_reverse, ← BitVec.msb]
  cases c.msb with
  | false => exact reverse_shiftLeft 1 c
  | true => rw [if_pos rfl, if_pos rfl, reverse_xor, reverse_shiftLeft]

theorem reverse_iterate_advance (n : Nat) (c : BitVec w) :
    ((advance poly)^[n] c).reverse = ShiftRegister.steps poly.reverse n c.reverse := by
  induction n generalizing c with
  | zero => rfl
  | succ n ih =>
      rw [Function.iterate_succ_apply, ih, reverse_advance, ShiftRegister.steps,
        ShiftRegister.steps, Function.iterate_succ_apply]

end CVerif.PolynomialRegister
