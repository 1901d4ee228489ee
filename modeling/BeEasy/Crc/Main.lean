import BeEasy.Crc.Bursts

/-!
# Crc — Main

`main` of `crc/crc32.c` prints three CRCs of its argument. `strlen` answers a
`size_t` and the functions take a `uint16_t`, so what they are told is the
length modulo 65536: as many bytes are taken from the front, and the others
have no say in what is printed.
-/

namespace BeEasy.Crc

open CVerif

/-- A command line argument: its bytes before the NUL. -/
structure Argument where
  bytes : List Byte
  noNul : (0 : Byte) ∉ bytes

def strlen (s : Argument) : BitVec 64 := BitVec.ofNat 64 s.bytes.length

/-- The three values, in the order they are printed. -/
structure Printed where
  table : BitVec 32
  bitwise : BitVec 32
  mpeg2 : BitVec 32
  deriving DecidableEq

/-- `main` with an argument: each call converts the `size_t` to a `uint16_t`. -/
def main (crcTable : Vector (BitVec 32) 256) (argv1 : Argument) : Printed :=
  let crcTable := initCrcTable crcTable
  { table := crc32Table crcTable argv1.bytes ((strlen argv1).setWidth 16)
    bitwise := crc32 argv1.bytes ((strlen argv1).setWidth 16)
    mpeg2 := crc32Mpeg2 argv1.bytes ((strlen argv1).setWidth 16) }

/-- The three CRCs of a list of bytes: the loops over all of it, however long
it is. -/
def crcsOf (crcTable : Vector (BitVec 32) 256) (bytes : List Byte) : Printed where
  table := ~~~ bytes.foldl
    (fun crc b => (initCrcTable crcTable).get (tableIndex (crc ^^^ b.setWidth 32)) ^^^ (crc >>> 8))
    0xffffffff#32
  bitwise := ~~~ bytes.foldl (fun crc b => crc32Bit^[8] (crc ^^^ b.setWidth 32)) 0xffffffff#32
  mpeg2 := bytes.foldl (fun crc b => crc32Mpeg2Bit^[8] (crc ^^^ topByte b)) 0xffffffff#32

/-! ## What is left out -/

section Argument

variable {crcTable : Vector (BitVec 32) 256} {s : Argument}

/-- The suffix from `n` on is left out: whatever stands there instead, the same
is printed. -/
def LeftOut (crcTable : Vector (BitVec 32) 256) (s : Argument) (n : Nat) : Prop :=
  ∀ t : Argument, t.bytes.length = s.bytes.length → t.bytes.take n = s.bytes.take n →
    main crcTable t = main crcTable s

/-- The CRCs of the whole argument are printed, and no suffix is left out. -/
structure Whole (crcTable : Vector (BitVec 32) 256) (s : Argument) : Prop where
  printed : main crcTable s = crcsOf crcTable s.bytes
  noneLeftOut : ∀ n, n < s.bytes.length → ¬LeftOut crcTable s n

/-- What the functions are told is the length modulo `2 ^ 16`. -/
theorem narrowed (s : Argument) : (strlen s).setWidth 16 = BitVec.ofNat 16 s.bytes.length := by
  apply BitVec.eq_of_toNat_eq
  rw [strlen, BitVec.toNat_setWidth, BitVec.toNat_ofNat, BitVec.toNat_ofNat]
  omega

theorem toNat_narrowed (s : Argument) :
    ((strlen s).setWidth 16).toNat = s.bytes.length % 65536 := by
  rw [narrowed, BitVec.toNat_ofNat]

/-- What is printed are the CRCs of that many bytes. -/
theorem main_eq (crcTable : Vector (BitVec 32) 256) (s : Argument) :
    main crcTable s = crcsOf crcTable (s.bytes.take (s.bytes.length % 65536)) := by
  simp only [main, crcsOf, crc32Table, crc32, crc32Mpeg2, toNat_narrowed]
  rfl

theorem leftOut_of_long (crcTable : Vector (BitVec 32) 256) (s : Argument) :
    LeftOut crcTable s (s.bytes.length % 65536) := by
  intro t hlen htake
  rw [main_eq, main_eq, hlen, htake]

theorem printed_of_short (h : s.bytes.length < 65536) :
    main crcTable s = crcsOf crcTable s.bytes := by
  rw [main_eq, Nat.mod_eq_of_lt h, List.take_length]

/-! ## The last byte is in -/

/-- Another byte that is no NUL. -/
def otherByte (b : Byte) : Byte := if b = 1 then 2 else 1

theorem otherByte_ne (b : Byte) : otherByte b ≠ b ∧ otherByte b ≠ 0 := by
  unfold otherByte
  by_cases hb : b = 1
  · rw [if_pos hb, hb]
    decide
  · rw [if_neg hb]
    exact ⟨fun h => hb h.symm, by decide⟩

/-- The argument with another last byte. -/
def Argument.lastChanged (s : Argument) (h : s.bytes ≠ []) : Argument where
  bytes := s.bytes.dropLast ++ [otherByte (s.bytes.getLast h)]
  noNul hmem := by
    rcases List.mem_append.mp hmem with hinit | hlast
    · exact s.noNul (List.mem_of_mem_dropLast hinit)
    · exact (otherByte_ne _).2 (List.mem_singleton.mp hlast).symm

theorem Argument.length_lastChanged (s : Argument) (h : s.bytes ≠ []) :
    (s.lastChanged h).bytes.length = s.bytes.length := by
  have hpos := List.length_pos_of_ne_nil h
  rw [lastChanged, List.length_append, List.length_dropLast, List.length_singleton]
  omega

theorem Argument.take_lastChanged (s : Argument) (h : s.bytes ≠ []) {n : Nat}
    (hn : n < s.bytes.length) : (s.lastChanged h).bytes.take n = s.bytes.take n := by
  have hn' : n ≤ s.bytes.dropLast.length := by
    rw [List.length_dropLast]
    omega
  have hback : s.bytes.take n = (s.bytes.dropLast ++ [s.bytes.getLast h]).take n := by
    rw [List.dropLast_concat_getLast h]
  rw [hback, lastChanged, List.take_append_of_le_length hn', List.take_append_of_le_length hn']

/-- One byte is a burst, so another last byte is seen. -/
theorem main_lastChanged_ne (h : s.bytes ≠ []) (hshort : s.bytes.length < 65536) :
    main crcTable (s.lastChanged h) ≠ main crcTable s := by
  have hsplit := List.dropLast_concat_getLast h
  have hdiffer : (s.bytes.dropLast ++ [otherByte (s.bytes.getLast h)] ++ []).foldl
        (ShiftRegister.feed reversedPoly) 0xffffffff#32
      ≠ (s.bytes.dropLast ++ [s.bytes.getLast h] ++ []).foldl
        (ShiftRegister.feed reversedPoly) 0xffffffff#32 := by
    refine ShiftRegister.foldl_feed_ne (by decide) ?_ ?_ ?_ _
    · rfl
    · exact Nat.le_of_ble_eq_true rfl
    · exact fun heq => (otherByte_ne _).1 (List.singleton_inj.mp heq)
  rw [List.append_nil, List.append_nil, hsplit] at hdiffer
  have hshort' : (s.lastChanged h).bytes.length < 65536 := by
    rw [s.length_lastChanged h]
    exact hshort
  rw [printed_of_short hshort, printed_of_short hshort']
  intro hprinted
  have hbitwise := not_injective (congrArg Printed.bitwise hprinted)
  rw [crc32Bit_eq] at hbitwise
  exact hdiffer hbitwise

/-- **The whole argument is in the checksums exactly when a `uint16_t` holds
its length.** -/
theorem whole_iff (crcTable : Vector (BitVec 32) 256) (s : Argument) :
    Whole crcTable s ↔ s.bytes.length < 65536 := by
  constructor
  · intro h
    by_contra hlong
    have htaken : s.bytes.length % 65536 < s.bytes.length := by omega
    exact h.noneLeftOut _ htaken (leftOut_of_long crcTable s)
  · intro hshort
    refine ⟨printed_of_short hshort, ?_⟩
    intro n hn hleft
    have hne : s.bytes ≠ [] := List.ne_nil_of_length_pos (by omega)
    exact main_lastChanged_ne hne hshort
      (hleft _ (s.length_lastChanged hne) (s.take_lastChanged hne hn))

end Argument

/-- As many letters as a `uint16_t` counts, and one more. -/
def letters : Argument where
  bytes := List.replicate 65536 65
  noNul h := absurd (List.mem_replicate.mp h).2 (by decide)

/-- They are printed the CRCs of no byte at all. -/
theorem letters_left_out :
    main (Vector.replicate 256 0) letters = ⟨0#32, 0#32, 0xffffffff#32⟩ ∧
      LeftOut (Vector.replicate 256 0) letters 0 ∧ ¬Whole (Vector.replicate 256 0) letters := by
  have hlen : letters.bytes.length = 65536 := List.length_replicate
  have hleft : LeftOut (Vector.replicate 256 0) letters 0 := by
    have h := leftOut_of_long (Vector.replicate 256 0) letters
    rwa [hlen] at h
  refine ⟨?_, hleft, fun h => h.noneLeftOut 0 (by rw [hlen]; decide) hleft⟩
  rw [main_eq, hlen]
  rfl

end BeEasy.Crc
