import BeEasy.CVerif.BurstErrors
import BeEasy.Crc.Crc32Mpeg2

/-!
# Crc — Bursts

Two messages of one length that differ in at most four consecutive bytes
have different CRCs, for each of the three functions of `crc/crc32.c`. Four
bytes fit in the register, so this is `foldl_feed_ne` for `crc32`; the other
two inherit it, `crc32_table` by being `crc32` and `crc32_mpeg_2` by being
its mirror image.
-/

namespace BeEasy.Crc

open CVerif

/-- The loop of `crc32` feeds bytes to the register. -/
theorem crc32_eq_feed {data : List Byte} (h : data.length ≤ 65535) :
    crc32 data (BitVec.ofNat 16 data.length)
      = ~~~ data.foldl (ShiftRegister.feed reversedPoly) 0xffffffff#32 := by
  rw [crc32, take_whole h, crc32Bit_eq]
  rfl

/-- Complementing loses nothing. -/
theorem not_injective {a b : BitVec 32} (h : ~~~ a = ~~~ b) : a = b := by
  rw [← BitVec.not_not (b := a), h, BitVec.not_not]

section Window

variable {a b : List Byte} {start : Nat}

theorem crc32_ne (hlen : a.length = b.length) (hmax : a.length ≤ 65535) (hne : a ≠ b)
    (hwindow : ∀ i, a[i]? ≠ b[i]? → start ≤ i ∧ i < start + 4) :
    crc32 a (BitVec.ofNat 16 a.length) ≠ crc32 b (BitVec.ofNat 16 a.length) := by
  intro h
  obtain ⟨hbefore, hafter⟩ := ShiftRegister.window_split hwindow
  have ha : a.take start ++ (a.drop start).take 4 ++ a.drop (start + 4) = a := by
    rw [← List.drop_drop, List.append_assoc, List.take_append_drop, List.take_append_drop]
  have hb : a.take start ++ (b.drop start).take 4 ++ a.drop (start + 4) = b := by
    rw [hbefore, hafter, ← List.drop_drop, List.append_assoc, List.take_append_drop,
      List.take_append_drop]
  have hburst : (a.drop start).take 4 ≠ (b.drop start).take 4 := by
    intro heq
    rw [heq, hb] at ha
    exact hne ha.symm
  have hfit : 8 * ((a.drop start).take 4).length ≤ 32 := by
    rw [List.length_take]
    omega
  have hsame : ((a.drop start).take 4).length = ((b.drop start).take 4).length := by
    simp only [List.length_take, List.length_drop, hlen]
  have hdiffer : (a.take start ++ (a.drop start).take 4 ++ a.drop (start + 4)).foldl
        (ShiftRegister.feed reversedPoly) 0xffffffff#32
      ≠ (a.take start ++ (b.drop start).take 4 ++ a.drop (start + 4)).foldl
        (ShiftRegister.feed reversedPoly) 0xffffffff#32 :=
    ShiftRegister.foldl_feed_ne (by decide) hsame hfit hburst _
  rw [ha, hb] at hdiffer
  rw [crc32_eq_feed hmax, hlen, crc32_eq_feed (hlen ▸ hmax)] at h
  exact hdiffer (not_injective h)

theorem crc32Mpeg2_ne (hlen : a.length = b.length) (hmax : a.length ≤ 65535) (hne : a ≠ b)
    (hwindow : ∀ i, a[i]? ≠ b[i]? → start ≤ i ∧ i < start + 4) :
    crc32Mpeg2 a (BitVec.ofNat 16 a.length) ≠ crc32Mpeg2 b (BitVec.ofNat 16 a.length) := by
  intro h
  have hmirror : crc32 (a.map BitVec.reverse) (BitVec.ofNat 16 (a.map BitVec.reverse).length)
      = crc32 (b.map BitVec.reverse) (BitVec.ofNat 16 (a.map BitVec.reverse).length) := by
    rw [crc32_map_reverse, crc32_map_reverse, List.length_map, h]
  have hwindow' : ∀ i, (a.map BitVec.reverse)[i]? ≠ (b.map BitVec.reverse)[i]? →
      start ≤ i ∧ i < start + 4 := by
    intro i hi
    apply hwindow i
    intro heq
    exact hi (by rw [List.getElem?_map, List.getElem?_map, heq])
  have hne' : a.map BitVec.reverse ≠ b.map BitVec.reverse := by
    intro heq
    exact hne (by rw [← map_reverse_reverse a, heq, map_reverse_reverse])
  refine crc32_ne ?_ ?_ hne' hwindow' hmirror
  · rw [List.length_map, List.length_map, hlen]
  · rw [List.length_map]
    exact hmax

/-- **Bursts are detected**: messages that differ only within four
consecutive bytes have different CRCs, by each of the three functions. -/
theorem burst_detected (table : Vector (BitVec 32) 256) (hlen : a.length = b.length)
    (hmax : a.length ≤ 65535) (hne : a ≠ b)
    (hwindow : ∀ i, a[i]? ≠ b[i]? → start ≤ i ∧ i < start + 4) :
    crc32 a (BitVec.ofNat 16 a.length) ≠ crc32 b (BitVec.ofNat 16 b.length)
      ∧ crc32Table (initCrcTable table) a (BitVec.ofNat 16 a.length)
        ≠ crc32Table (initCrcTable table) b (BitVec.ofNat 16 b.length)
      ∧ crc32Mpeg2 a (BitVec.ofNat 16 a.length) ≠ crc32Mpeg2 b (BitVec.ofNat 16 b.length) := by
  have hbit := crc32_ne hlen hmax hne hwindow
  have hmpeg := crc32Mpeg2_ne hlen hmax hne hwindow
  rw [hlen] at hbit hmpeg ⊢
  refine ⟨hbit, ?_, hmpeg⟩
  rw [crc32Table, crc32Table, table_loop, table_loop]
  exact hbit

end Window

theorem burst_detected_oneBit :
    crc32 [0] 1 ≠ crc32 [1] 1
      ∧ crc32Table (initCrcTable (Vector.replicate 256 0)) [0] 1
        ≠ crc32Table (initCrcTable (Vector.replicate 256 0)) [1] 1
      ∧ crc32Mpeg2 [0] 1 ≠ crc32Mpeg2 [1] 1 := by
  have hwindow : ∀ i, ([0] : List Byte)[i]? ≠ ([1] : List Byte)[i]? → 0 ≤ i ∧ i < 0 + 4 := by
    intro i hi
    cases i with
    | zero => exact ⟨Nat.le_refl 0, by decide⟩
    | succ i => exact absurd rfl hi
  exact burst_detected (Vector.replicate 256 0) rfl (by decide) (by decide) hwindow

end BeEasy.Crc
