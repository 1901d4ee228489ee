import BeEasy.CVerif.PolynomialRegister
import BeEasy.Crc.Crc32

/-!
# Crc — Crc32Mpeg2

`crc32_mpeg_2` of `crc/crc32.c`: the register that shifts up, against what
a CRC is on paper, the remainder of the message polynomial. The loop
invariant is `remainder_step`: after each byte the register is congruent to
the message so far times `x^32`, plus the ones of the initial register moved
up as far as the message is long. A message shorter than the register is no
special case of it.

With the bits of every byte mirrored, the loop is the one of `crc32`
(`crc32_eq_mirrored`).
-/

namespace BeEasy.Crc

open CVerif CVerif.PolynomialRegister Polynomial

/-- The inner loop body of `crc32_mpeg_2`. -/
def crc32Mpeg2Bit (crc : BitVec 32) : BitVec 32 :=
  if crc &&& 0x80000000#32 ≠ 0#32 then (crc <<< 1) ^^^ 0x04C11DB7#32 else crc <<< 1

/-- `(uint32_t)(*data) << 24`. -/
def topByte (b : Byte) : BitVec 32 := b.setWidth 32 <<< 24

/-- `crc32_mpeg_2`: each byte into the top of the register, and eight shift
steps. -/
def crc32Mpeg2 (data : List Byte) (len : BitVec 16) : BitVec 32 :=
  (data.take len.toNat).foldl (fun crc b => crc32Mpeg2Bit^[8] (crc ^^^ topByte b)) 0xffffffff#32

-- The published check value of CRC-32/MPEG-2, on the bytes of "123456789".
example : crc32Mpeg2 [0x31, 0x32, 0x33, 0x34, 0x35, 0x36, 0x37, 0x38, 0x39] 9 = 0x0376E6E7 := by
  decide +kernel

/-! ## The register -/

def mpeg2Poly : BitVec 32 := 0x04C11DB7#32

theorem high_bit_test (c : BitVec 32) : c &&& 0x80000000#32 ≠ 0#32 ↔ c.msb = true := by
  rw [show 0x80000000#32 = BitVec.twoPow 32 31 from rfl, BitVec.and_twoPow,
    BitVec.msb_eq_getLsbD_last]
  cases c.getLsbD 31 <;> decide

theorem crc32Mpeg2Bit_eq : crc32Mpeg2Bit = advance mpeg2Poly := by
  funext c
  simp only [crc32Mpeg2Bit, advance, high_bit_test, mpeg2Poly]

/-! ## The remainder -/

/-- The bits of a buffer, the most significant of each byte first. -/
def bits (data : List Byte) : List Bool := data.flatMap msbFirst

/-- The ones the register starts with. -/
noncomputable def ones : (ZMod 2)[X] := ∑ i ∈ Finset.range 32, X ^ i

theorem length_bits (data : List Byte) : (bits data).length = 8 * data.length := by
  induction data with
  | nil => rfl
  | cons b data ih =>
      rw [bits, List.flatMap_cons, List.length_append, ← bits, ih, List.length_cons, msbFirst,
        List.length_map, List.length_range]
      omega

theorem bits_concat (data : List Byte) (b : Byte) : bits (data ++ [b]) = bits data ++ msbFirst b := by
  simp [bits]

theorem toPoly_allOnes : toPoly 0xffffffff#32 = ones := by
  rw [toPoly, ones]
  apply Finset.sum_congr rfl
  intro i hi
  have hbit : (0xffffffff#32).getLsbD i = true := by
    rw [show 0xffffffff#32 = BitVec.allOnes 32 from rfl, BitVec.getLsbD_allOnes]
    exact decide_eq_true (Finset.mem_range.mp hi)
  rw [if_pos hbit]

/-- The polynomial a message is sent as: moved up by the width of the
register, its first 32 coefficients complemented. -/
noncomputable def augmented (data : List Byte) : (ZMod 2)[X] :=
  X ^ 32 * ofBits (bits data) + X ^ (8 * data.length) * ones

/-- **One byte** takes the register from one message to the next. -/
theorem remainder_step {crc : BitVec 32} {data : List Byte} (b : Byte)
    (h : AdjoinRoot.mk (generator mpeg2Poly) (toPoly crc)
      = AdjoinRoot.mk (generator mpeg2Poly) (augmented data)) :
    AdjoinRoot.mk (generator mpeg2Poly) (toPoly (crc32Mpeg2Bit^[8] (crc ^^^ topByte b)))
      = AdjoinRoot.mk (generator mpeg2Poly) (augmented (data ++ [b])) := by
  have hgrow : augmented (data ++ [b]) = X ^ 8 * (augmented data + X ^ 24 * toPoly b) := by
    rw [augmented, augmented, bits_concat, ofBits_append, ofBits_msbFirst, List.length_append,
      msbFirst, List.length_map, List.length_range, List.length_singleton]
    ring
  rw [crc32Mpeg2Bit_eq, mk_iterate_advance, toPoly_xor, topByte, toPoly_shiftLeft b (by decide),
    hgrow,
    map_mul, map_mul, map_add, map_add, h]

/-- The loop, over the bytes it has taken from the front. -/
theorem remainder_loop (data : List Byte) :
    AdjoinRoot.mk (generator mpeg2Poly)
        (toPoly (data.foldl (fun crc b => crc32Mpeg2Bit^[8] (crc ^^^ topByte b)) 0xffffffff#32))
      = AdjoinRoot.mk (generator mpeg2Poly) (augmented data) := by
  induction data using List.reverseRecOn with
  | nil =>
      rw [List.foldl_nil, toPoly_allOnes, augmented]
      simp [bits, ofBits]
  | append_singleton data b ih =>
      rw [List.foldl_concat]
      exact remainder_step b ih

/-- The two ways to write the polynomial of a message. -/
theorem augmented_eq (data : List Byte) :
    ofBits (flipFirst 32 (bits data ++ List.replicate 32 false)) = augmented data := by
  have hzero : ofBits (List.replicate 32 false) = 0 := by simp [ofBits, List.replicate]
  rw [ofBits_flipFirst (by simp), ofBits_append, hzero, augmented, ones, List.length_append,
    List.length_replicate, length_bits, Nat.add_sub_cancel, add_zero]

theorem take_whole {data : List Byte} (h : data.length ≤ 65535) :
    data.take (BitVec.ofNat 16 data.length).toNat = data := by
  rw [BitVec.toNat_ofNat, Nat.mod_eq_of_lt (by omega), List.take_length]

/-- The polynomial in the name of the function. -/
theorem generator_eq :
    generator mpeg2Poly = X ^ 32 + X ^ 26 + X ^ 23 + X ^ 22 + X ^ 16 + X ^ 12 + X ^ 11 + X ^ 10
      + X ^ 8 + X ^ 7 + X ^ 5 + X ^ 4 + X ^ 2 + X + 1 := by
  have hbits : (Finset.range 32).filter (fun i => mpeg2Poly.getLsbD i)
      = {26, 23, 22, 16, 12, 11, 10, 8, 7, 5, 4, 2, 1, 0} := by decide
  rw [generator, toPoly, ← Finset.sum_filter, hbits]
  simp [Finset.sum_insert, add_assoc]

/-- **`crc32_mpeg_2` is the remainder** of the message times `x^32` with its
first 32 coefficients complemented. -/
theorem crc32Mpeg2_remainder (data : List Byte) (h : data.length ≤ 65535) :
    toPoly (crc32Mpeg2 data (BitVec.ofNat 16 data.length))
        = ofBits (flipFirst 32 (bits data ++ List.replicate 32 false))
          %ₘ (X ^ 32 + toPoly 0x04C11DB7#32)
      ∧ toPoly (crc32Mpeg2 data (BitVec.ofNat 16 data.length))
        = (X ^ 32 * ofBits (bits data)
            + X ^ (8 * data.length) * ∑ i ∈ Finset.range 32, X ^ i)
          %ₘ (X ^ 32 + toPoly 0x04C11DB7#32) := by
  have hloop := toPoly_eq_modByMonic mpeg2Poly (remainder_loop data)
  rw [crc32Mpeg2, take_whole h]
  constructor
  · rw [augmented_eq]
    exact hloop
  · exact hloop

theorem crc32Mpeg2_remainder_oneByte :
    toPoly (crc32Mpeg2 [0x31] 1)
      = ofBits (flipFirst 32 (bits [0x31] ++ List.replicate 32 false))
        %ₘ (X ^ 32 + toPoly 0x04C11DB7#32) :=
  (crc32Mpeg2_remainder [0x31] (by decide)).1

/-! ## The mirror image of `crc32` -/

/-- `0xEDB88320= reverse 0x04C11DB7`. -/
theorem reverse_mpeg2Poly : mpeg2Poly.reverse = reversedPoly := by decide +kernel

theorem reverse_topByte (b : Byte) : (topByte b.reverse).reverse = b.setWidth 32 := by
  apply BitVec.eq_of_getLsbD_eq
  intro i hi
  rw [topByte, reverse_shiftLeft, BitVec.getLsbD_ushiftRight, BitVec.getLsbD_reverse,
    BitVec.getMsbD_setWidth, BitVec.getMsbD_reverse, BitVec.getLsbD_setWidth]
  have hsub : 24 + i + 8 - 32 = i := by omega
  simp [hsub, hi]

/-- **One byte**: mirrored, what `crc32_mpeg_2` does to the register is what
`crc32` does. -/
theorem reverse_byte (crc : BitVec 32) (b : Byte) :
    (crc32Mpeg2Bit^[8] (crc ^^^ topByte b.reverse)).reverse
      = crc32Bit^[8] (crc.reverse ^^^ b.setWidth 32) := by
  rw [crc32Mpeg2Bit_eq, crc32Bit_eq, reverse_iterate_advance, reverse_mpeg2Poly, reverse_xor,
    reverse_topByte, ShiftRegister.steps]

theorem reverse_loop (data : List Byte) (crc : BitVec 32) :
    ((data.map BitVec.reverse).foldl (fun crc b => crc32Mpeg2Bit^[8] (crc ^^^ topByte b)) crc).reverse
      = data.foldl (fun crc b => crc32Bit^[8] (crc ^^^ b.setWidth 32)) crc.reverse := by
  induction data generalizing crc with
  | nil => rfl
  | cons b data ih =>
      rw [List.map_cons, List.foldl_cons, List.foldl_cons, ih, reverse_byte]

theorem map_reverse_reverse (data : List Byte) :
    (data.map BitVec.reverse).map BitVec.reverse = data := by
  have hid : (BitVec.reverse ∘ BitVec.reverse : Byte → Byte) = id := by
    funext b
    exact BitVec.reverse_reverse_eq
  rw [List.map_map, hid, List.map_id]

theorem crc32_map_reverse (d : List Byte) (len : BitVec 16) :
    crc32 (d.map BitVec.reverse) len = ~~~ (crc32Mpeg2 d len).reverse := by
  have hones : (0xffffffff#32).reverse = 0xffffffff#32 := by decide +kernel
  have hloop := reverse_loop ((d.take len.toNat).map BitVec.reverse) 0xffffffff#32
  rw [map_reverse_reverse, hones] at hloop
  rw [crc32, crc32Mpeg2, ← List.map_take, hloop]

/-- **The settings of the two CRCs**: `crc32` is `crc32_mpeg_2` with the
bits of every byte and of the result mirrored, and the result complemented. -/
theorem crc32_eq_mirrored (d : List Byte) (len : BitVec 16) :
    crc32 d len = ~~~ (crc32Mpeg2 (d.map BitVec.reverse) len).reverse := by
  rw [← crc32_map_reverse, map_reverse_reverse]

end BeEasy.Crc
