import BeEasy.CVerif.Residue
import BeEasy.Crc.Bursts

/-!
# Crc — Residue

A message with its own CRC behind it. `crc32_mpeg_2` shifts up and is fed
what its register holds, highest byte first: the register becomes zero.
`crc32` complements its result, so what it is fed is all ones beside the
register, and the residue is what 32 steps make of these, complemented again.
-/

namespace BeEasy.Crc

open CVerif

/-- A message and its `crc32_mpeg_2`, the most significant byte first. -/
def mpeg2Frame (m : List Byte) : List Byte :=
  m ++ beBytes 4 (crc32Mpeg2 m (BitVec.ofNat 16 m.length)).toNat

/-- A message and its `crc32`, the least significant byte first. -/
def crc32Frame (m : List Byte) : List Byte :=
  m ++ leBytes 4 (crc32 m (BitVec.ofNat 16 m.length)).toNat

section Frames

variable {m : List Byte}

/-- The length of a frame is one that the functions can be given. -/
theorem length_frames (h : m.length ≤ 65531) :
    (mpeg2Frame m).length ≤ 65535 ∧ (crc32Frame m).length ≤ 65535 := by
  rw [mpeg2Frame, crc32Frame, List.length_append, List.length_append, length_beBytes,
    length_leBytes]
  omega

theorem mpeg2Frame_verifies (h : m.length ≤ 65531) :
    crc32Mpeg2 (mpeg2Frame m) (BitVec.ofNat 16 (mpeg2Frame m).length) = 0#32 := by
  let r := crc32Mpeg2 m (BitVec.ofNat 16 m.length)
  have hr : m.foldl (fun crc b => crc32Mpeg2Bit^[8] (crc ^^^ topByte b)) 0xffffffff#32 = r := by
    show _ = crc32Mpeg2 m _
    rw [crc32Mpeg2, take_whole (by omega)]
  -- in the mirror the register is fed its own mirror image
  have hmirror := reverse_loop ((beBytes 4 r.toNat).map BitVec.reverse) r
  rw [map_reverse_reverse, @map_reverse_beBytes 4 r, crc32Bit_eq] at hmirror
  have hfed := @ShiftRegister.foldl_feed_leBytes 4 reversedPoly r.reverse r.reverse
  have hzero : ShiftRegister.steps reversedPoly 32 0#32 = 0#32 := by decide +kernel
  rw [BitVec.xor_self, hzero] at hfed
  have hend := hmirror.trans hfed
  rw [crc32Mpeg2, take_whole (length_frames h).1, mpeg2Frame, List.foldl_append, hr,
    ← BitVec.reverse_reverse_eq (x := List.foldl _ _ _), hend]
  decide +kernel

theorem crc32Frame_verifies (h : m.length ≤ 65531) :
    crc32 (crc32Frame m) (BitVec.ofNat 16 (crc32Frame m).length) = 0x2144DF1C#32 := by
  let c := m.foldl (ShiftRegister.feed reversedPoly) 0xffffffff#32
  have hfed := @ShiftRegister.foldl_feed_leBytes 4 reversedPoly c (~~~ c)
  have hones : c ^^^ ~~~ c = 0xffffffff#32 := by
    rw [← BitVec.xor_allOnes, ← BitVec.xor_assoc, BitVec.xor_self, BitVec.zero_xor]
    rfl
  have hresidue : ~~~ ShiftRegister.steps reversedPoly 32 0xffffffff#32 = 0x2144DF1C#32 := by
    decide +kernel
  rw [hones] at hfed
  rw [crc32_eq_feed (length_frames h).2, crc32Frame, crc32_eq_feed (by omega), List.foldl_append]
  exact (congrArg (~~~ ·) hfed).trans hresidue

/-- **A frame is verified in one pass**: a message with its CRC behind it has a
CRC that does not depend on the message, for each of the three functions. -/
theorem frames_verify (table : Vector (BitVec 32) 256) (h : m.length ≤ 65531) :
    crc32Mpeg2 (mpeg2Frame m) (BitVec.ofNat 16 (mpeg2Frame m).length) = 0#32
      ∧ crc32 (crc32Frame m) (BitVec.ofNat 16 (crc32Frame m).length) = 0x2144DF1C#32
      ∧ crc32Table (initCrcTable table) (crc32Frame m) (BitVec.ofNat 16 (crc32Frame m).length)
        = 0x2144DF1C#32 := by
  refine ⟨mpeg2Frame_verifies h, crc32Frame_verifies h, ?_⟩
  rw [crc32Table, table_loop]
  exact crc32Frame_verifies h

end Frames

theorem frames_verify_oneByte :
    crc32Mpeg2 (mpeg2Frame [0x31]) (BitVec.ofNat 16 (mpeg2Frame [0x31]).length) = 0#32
      ∧ crc32 (crc32Frame [0x31]) (BitVec.ofNat 16 (crc32Frame [0x31]).length) = 0x2144DF1C#32
      ∧ crc32Table (initCrcTable (Vector.replicate 256 0)) (crc32Frame [0x31])
          (BitVec.ofNat 16 (crc32Frame [0x31]).length) = 0x2144DF1C#32 :=
  frames_verify (Vector.replicate 256 0) (by decide)

end BeEasy.Crc
