import BeEasy.CVerif.Bytes
import BeEasy.CVerif.ShiftRegister
import Mathlib.Data.List.FinRange

/-!
# Crc — Crc32

`crc/crc32.c`: the table-driven CRC-32 and the bit-by-bit one. A buffer is
the list of its bytes and a `uint16_t` length the number of bytes a loop
takes from the front of it; both loops run over the same bytes, one table
lookup or eight bit steps for each.
-/

namespace BeEasy.Crc

open CVerif

/-! ## The table -/

/-- The inner loop body of `init_crc_table`: `c & 1` decides between
`0xedb88320L ^ (c >> 1)` and `c >> 1`. -/
def tableBit (c : BitVec 32) : BitVec 32 :=
  if c &&& 1#32 ≠ 0#32 then 0xedb88320#32 ^^^ (c >>> 1) else c >>> 1

/-- What `init_crc_table` stores at index `i`: eight turns of the inner loop. -/
def tableEntry (i : Nat) : BitVec 32 := tableBit^[8] (BitVec.ofNat 32 i)

/-- `init_crc_table`: the static table, every entry stored in turn. -/
def initCrcTable (table : Vector (BitVec 32) 256) : Vector (BitVec 32) 256 :=
  (List.finRange 256).foldl (fun t (i : Fin 256) => t.set i (tableEntry i)) table

/-- The index `(crc ^ buf[i]) & 0xff`. -/
def tableIndex (c : BitVec 32) : Fin 256 :=
  ⟨(c &&& 0xff#32).toNat, by
    rw [BitVec.toNat_and]
    exact Nat.lt_of_le_of_lt Nat.and_le_right (by decide)⟩

/-- `crc32_table`: one lookup and one shift for each byte. -/
def crc32Table (crcTable : Vector (BitVec 32) 256) (buf : List Byte) (length : BitVec 16) :
    BitVec 32 :=
  ~~~ (buf.take length.toNat).foldl
    (fun crc b => crcTable[tableIndex (crc ^^^ b.setWidth 32)] ^^^ (crc >>> 8)) 0xffffffff#32

/-! ## Bit by bit -/

/-- The inner loop body of `crc32`. -/
def crc32Bit (crc : BitVec 32) : BitVec 32 :=
  if crc &&& 1#32 ≠ 0#32 then (crc >>> 1) ^^^ 0xEDB88320#32 else crc >>> 1

/-- `crc32`: eight shift steps for each byte. -/
def crc32 (data : List Byte) (len : BitVec 16) : BitVec 32 :=
  ~~~ (data.take len.toNat).foldl
    (fun crc b => crc32Bit^[8] (crc ^^^ b.setWidth 32)) 0xffffffff#32

-- The published check value of CRC-32, on the bytes of "123456789".
example : crc32 [0x31, 0x32, 0x33, 0x34, 0x35, 0x36, 0x37, 0x38, 0x39] 9 = 0xCBF43926 := by
  decide +kernel

/-! ## The table holds the steps of its indices -/

/-- `0x04C11DB7` with its bits reversed. -/
def reversedPoly : BitVec 32 := 0xEDB88320#32

theorem low_bit_test (c : BitVec 32) : c &&& 1#32 ≠ 0#32 ↔ c.getLsbD 0 = true := by
  rw [BitVec.and_one_eq_setWidth_ofBool_getLsbD]
  cases c.getLsbD 0 <;> decide

theorem crc32Bit_eq : crc32Bit = ShiftRegister.step reversedPoly := by
  funext c
  simp only [crc32Bit, ShiftRegister.step, low_bit_test, reversedPoly]

/-- The two loop bodies differ only in the order of the exclusive or. -/
theorem tableBit_eq : tableBit = ShiftRegister.step reversedPoly := by
  rw [← crc32Bit_eq]
  funext c
  simp only [tableBit, crc32Bit, BitVec.xor_comm]

/-- Storing `f i` at every index of a list leaves exactly those entries
changed. -/
theorem foldl_set_getElem {n : Nat} {α : Type} (f : Nat → α) (is : List (Fin n))
    (t : Vector α n) (j : Fin n) :
    (is.foldl (fun t i => t.set i (f i)) t)[j] = if j ∈ is then f j else t[j] := by
  induction is generalizing t with
  | nil => simp
  | cons i is ih =>
      rw [List.foldl_cons, ih]
      by_cases hj : j ∈ is
      · simp [hj]
      · by_cases hij : j = i
        · subst hij
          simp
        · have hne : (i : Nat) ≠ (j : Nat) := fun h => hij (Fin.ext h.symm)
          simp [hj, hij, Vector.getElem_set_ne _ _ hne]

theorem initCrcTable_getElem (table : Vector (BitVec 32) 256) (i : Fin 256) :
    (initCrcTable table)[i] = ShiftRegister.steps reversedPoly 8 (BitVec.ofNat 32 i) := by
  rw [initCrcTable, foldl_set_getElem tableEntry, if_pos (List.mem_finRange i), tableEntry,
    tableBit_eq, ShiftRegister.steps]

/-! ## One byte -/

/-- The index a byte selects is the low byte of the register it meets. -/
theorem tableIndex_eq_low (c : BitVec 32) :
    BitVec.ofNat 32 (tableIndex c) = ShiftRegister.low 8 c := by
  rw [tableIndex, BitVec.ofNat_toNat]
  exact BitVec.setWidth_eq _

/-- A byte lies in the low eight bits, so it is gone after eight shifts. -/
theorem xor_byte_shiftRight (crc : BitVec 32) (b : Byte) :
    (crc ^^^ b.setWidth 32) >>> 8 = crc >>> 8 := by
  apply BitVec.eq_of_getLsbD_eq
  intro i _
  simp [BitVec.getLsbD_xor]

/-- **One byte**: the lookup and the shift do what eight bit steps do. -/
theorem lookup_eq_bits (table : Vector (BitVec 32) 256) (crc : BitVec 32) (b : Byte) :
    (initCrcTable table)[tableIndex (crc ^^^ b.setWidth 32)] ^^^ (crc >>> 8)
      = crc32Bit^[8] (crc ^^^ b.setWidth 32) := by
  rw [initCrcTable_getElem, tableIndex_eq_low, crc32Bit_eq]
  have split := ShiftRegister.steps_split reversedPoly 8 (crc ^^^ b.setWidth 32)
  rw [xor_byte_shiftRight] at split
  exact split.symm

/-! ## Whole messages -/

/-- The two loops do the same to every register. -/
theorem table_loop (table : Vector (BitVec 32) 256) (bytes : List Byte) (crc : BitVec 32) :
    bytes.foldl (fun crc b =>
        (initCrcTable table)[tableIndex (crc ^^^ b.setWidth 32)] ^^^ (crc >>> 8)) crc
      = bytes.foldl (fun crc b => crc32Bit^[8] (crc ^^^ b.setWidth 32)) crc := by
  simp only [lookup_eq_bits]

/-- The table-driven CRC and the bit-by-bit one agree on every buffer and
every length, whatever the table held before it was initialised. -/
theorem crc32Table_eq_crc32 (table : Vector (BitVec 32) 256) (buf : List Byte)
    (length : BitVec 16) :
    crc32Table (initCrcTable table) buf length = crc32 buf length := by
  rw [crc32Table, crc32, table_loop]

end BeEasy.Crc
