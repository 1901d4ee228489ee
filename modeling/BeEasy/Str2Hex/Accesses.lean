import BeEasy.Str2Hex.StrToHex

/-!
# Str2Hex — Accesses

What `str_to_hex` reads and writes, access by access, with the counters as
the `size_t` they are. `i` is even at the head of every round, so the last
round of an odd length reads one character behind it, and no counter wraps
around below the largest length. At the largest it does, and the loop goes
round for ever.
-/

namespace BeEasy.Str2Hex

open CVerif

/-- An access to `str` or to `data`. -/
inductive Access where
  | read (i : Nat)
  | write (j : Nat) (sum : Byte)

/-- The body of the loop; each character is fetched twice. -/
def hexRound (str : Nat → Byte) (i : BitVec 64) : List Access :=
  let next := i + 1#64
  let j := i / 2#64
  [.read i.toNat, .read i.toNat, .read next.toNat, .read next.toNat,
    .write j.toNat (decodePair (str i.toNat) (str next.toNat))]

/-- The loop of `str_to_hex` on any memory, from `i` on. It is given up after
so many rounds without an end. -/
def hexRounds (str : Nat → Byte) (len : BitVec 64) : Nat → BitVec 64 → Option (List Access)
  | 0, _ => none
  | rounds + 1, i =>
      if i < len then (hexRounds str len rounds (i + 1#64 + 1#64)).map (hexRound str i ++ ·)
      else some []

def Access.readAt : Access → Option Nat
  | .read i => some i
  | .write .. => none

def Access.writtenAt : Access → Option Nat
  | .read _ => none
  | .write j _ => some j

/-- An index of the text, or that of the NUL behind a text of odd length. -/
def Readable (len i : Nat) : Prop := i < len ∨ i = len ∧ len % 2 = 1

/-- The accesses for a length: reads up to the length, and one write to each
index in turn. -/
structure Bounded (len : Nat) (trace : List Access) : Prop where
  reads : ∀ i ∈ trace.filterMap Access.readAt, Readable len i
  writes : trace.filterMap Access.writtenAt = List.range ((len + 1) / 2)

section Rounds

variable {str : Nat → Byte} {len i : BitVec 64} {k rounds : Nat} {trace : List Access}

/-- A round that begins at an even index inside: the counters do not wrap. -/
theorem round_counters (hlen : len.toNat < SIZE_MAX) (hi : i.toNat = 2 * k) (hlt : i < len) :
    (i + 1#64).toNat = 2 * k + 1 ∧ (i + 1#64 + 1#64).toNat = 2 * (k + 1) ∧
      (i / 2#64).toNat = k := by
  have hroom : i.toNat + 2 < 2 ^ 64 := by
    have hlt' := BitVec.lt_def.mp hlt
    unfold SIZE_MAX at hlen
    omega
  refine ⟨?_, ?_, ?_⟩
  · rw [BitVec.toNat_add, BitVec.toNat_ofNat]
    omega
  · rw [BitVec.toNat_add, BitVec.toNat_add, BitVec.toNat_ofNat]
    omega
  · rw [BitVec.toNat_udiv]
    show i.toNat / 2 = k
    omega

theorem hexRounds_round {i : BitVec 64} (hlt : i < len) :
    hexRounds str len (rounds + 1) i
      = (hexRounds str len rounds (i + 1#64 + 1#64)).map (hexRound str i ++ ·) := if_pos hlt

theorem hexRounds_end (hge : ¬i < len) : hexRounds str len (rounds + 1) i = some [] := if_neg hge

/-- From the round that writes index `k` on, `d` of them are left. -/
theorem hexRounds_from (hlen : len.toNat < SIZE_MAX) (d : Nat) (hi : i.toNat = 2 * k)
    (hd : k + d = (len.toNat + 1) / 2) :
    ∃ trace, hexRounds str len (d + 1) i = some trace ∧
      (∀ n ∈ trace.filterMap Access.readAt, Readable len.toNat n) ∧
      trace.filterMap Access.writtenAt = List.range' k d := by
  induction d generalizing i k with
  | zero =>
      have hge : ¬i < len := by
        rw [BitVec.lt_def]
        omega
      exact ⟨[], hexRounds_end hge, nofun, rfl⟩
  | succ d ih =>
      have hlt : i < len := by
        rw [BitVec.lt_def]
        omega
      obtain ⟨hnext, hthen, hj⟩ := round_counters hlen hi hlt
      obtain ⟨trace, htrace, hreads, hwrites⟩ := ih hthen (by omega)
      have hlt' := BitVec.lt_def.mp hlt
      refine ⟨hexRound str i ++ trace, ?_, ?_, ?_⟩
      · rw [hexRounds_round hlt, htrace]
        rfl
      · have hread : (hexRound str i).filterMap Access.readAt
            = [i.toNat, i.toNat, (i + 1#64).toNat, (i + 1#64).toNat] := rfl
        rw [List.filterMap_append, hread, hnext, hi]
        intro n hn
        rcases List.mem_append.mp hn with hn | hn
        · have hcases : n = 2 * k ∨ n = 2 * k + 1 := by simpa using hn
          unfold Readable
          omega
        · exact hreads n hn
      · have hwritten : (hexRound str i).filterMap Access.writtenAt = [(i / 2#64).toNat] := rfl
        rw [List.filterMap_append, hwritten, hj, hwrites, List.range'_succ]
        rfl

/-- **The loop ends**, and its accesses are bounded. -/
theorem hexRounds_bounded (str : Nat → Byte) (hlen : len.toNat < SIZE_MAX) :
    ∃ rounds trace, hexRounds str len rounds 0 = some trace ∧ Bounded len.toNat trace := by
  obtain ⟨trace, htrace, hreads, hwrites⟩ :=
    @hexRounds_from str len 0 0 hlen ((len.toNat + 1) / 2) rfl (Nat.zero_add _)
  exact ⟨_, trace, htrace, hreads, hwrites.trans List.range_eq_range'.symm⟩

end Rounds

/-! ## Arrays -/

/-- An access to arrays: what becomes of `data`. -/
def Access.on (str data : List Byte) : Access → Except Fault (List Byte)
  | .read i => do
      let _ ← readBytes str i 1
      return data
  | .write j sum => writeBytes data j [sum]

/-- The access is inside arrays of these lengths. -/
def Access.Inside (strLen dataLen : Nat) : Access → Prop
  | .read i => i < strLen
  | .write j _ => j < dataLen

section Arrays

variable {str data : List Byte} {len i : BitVec 64} {rounds : Nat} {trace : List Access}

theorem readBytes_byte (str : List Byte) (i : Nat) :
    readBytes str i 1 = if i < str.length then .ok [str.getD i 0] else .error .outOfBounds := by
  by_cases hi : i < str.length
  · rw [if_pos hi, readBytes_ok hi, List.drop_eq_getElem_cons hi, List.getD_eq_getElem?_getD,
      List.getElem?_eq_getElem hi]
    rfl
  · rw [if_neg hi, readBytes_outOfBounds (by omega)]

/-- One round on arrays: its five accesses in turn. -/
theorem strToHexFrom_hexRound (hlt : i.toNat < len.toNat)
    (hnext : (i + 1#64).toNat = i.toNat + 1) :
    strToHexFrom str len.toNat (rounds + 1) i.toNat data
      = (hexRound (str.getD · 0) i).foldlM (Access.on str) data >>= fun data =>
          strToHexFrom str len.toNat rounds (i.toNat + 2) data := by
  have hj : (i / 2#64).toNat = i.toNat / 2 := BitVec.toNat_udiv
  simp only [strToHexFrom, if_pos hlt, hexRound, List.foldlM_cons, List.foldlM_nil, Access.on,
    hnext, hj, readBytes_byte]
  by_cases hi : i.toNat < str.length
  · by_cases hi' : i.toNat + 1 < str.length
    · rw [if_pos hi, if_pos hi']
      show (writeBytes data (i.toNat / 2) [_] >>= _) = (writeBytes data _ [_] >>= pure) >>= _
      rw [bind_pure]
      rfl
    · rw [if_pos hi, if_neg hi']
      rfl
  · rw [if_neg hi]
    rfl

/-- The loop on arrays is the run of these accesses. -/
theorem strToHexFrom_hexRounds (hlen : len.toNat < SIZE_MAX) (heven : i.toNat % 2 = 0)
    {n : Nat} (hrun : hexRounds (str.getD · 0) len n i = some trace)
    (hrounds : len.toNat - i.toNat ≤ rounds) :
    strToHexFrom str len.toNat rounds i.toNat data = trace.foldlM (Access.on str) data := by
  induction n generalizing i trace data rounds with
  | zero => cases hrun
  | succ n ih =>
      by_cases hlt : i < len
      · have hlt' := BitVec.lt_def.mp hlt
        obtain ⟨hnext, hthen, _⟩ := round_counters (k := i.toNat / 2) hlen (by omega) hlt
        rw [hexRounds_round hlt] at hrun
        obtain ⟨rest, hrest, rfl⟩ := Option.map_eq_some_iff.mp hrun
        obtain ⟨rounds, rfl⟩ : ∃ r, rounds = r + 1 := ⟨rounds - 1, by omega⟩
        have hthen' : (i + 1#64 + 1#64).toNat = i.toNat + 2 := by omega
        rw [strToHexFrom_hexRound hlt' (by omega), List.foldlM_append]
        congr 1
        funext data
        rw [← hthen']
        exact ih (by omega) hrest (by omega)
      · rw [hexRounds_end hlt] at hrun
        cases hrun
        exact strToHexFrom_end (Nat.le_of_not_lt (fun h => hlt (BitVec.lt_def.mpr h)))

/-- `str_to_hex` on arrays. -/
theorem strToHex_accesses (hlen : len.toNat < SIZE_MAX) {n : Nat}
    (hrun : hexRounds (str.getD · 0) len n 0 = some trace) :
    strToHex str len.toNat data = trace.foldlM (Access.on str) data :=
  strToHexFrom_hexRounds (i := 0) hlen rfl hrun (Nat.sub_le _ _)

/-- Accesses inside do not fault. -/
theorem foldlM_inside (h : ∀ a ∈ trace, a.Inside str.length data.length) :
    ∃ out, trace.foldlM (Access.on str) data = .ok out := by
  induction trace generalizing data with
  | nil => exact ⟨data, rfl⟩
  | cons a trace ih =>
      obtain ⟨ha, hrest⟩ := List.forall_mem_cons.mp h
      rw [List.foldlM_cons]
      cases a with
      | read i =>
          have hread : (Access.read i).on str data = .ok data := by
            rw [Access.on, readBytes_ok ha]
            rfl
          rw [hread]
          exact ih hrest
      | write j sum =>
          have hwrite : (Access.write j sum).on str data
              = .ok (data.take j ++ [sum] ++ data.drop (j + 1)) := writeBytes_ok ha
          have hsame : (data.take j ++ [sum] ++ data.drop (j + 1)).length = data.length := by
            have hj : j < data.length := ha
            simp
            omega
          rw [hwrite]
          exact ih (by rwa [hsame])

/-- **Buffers of these sizes suffice.** -/
theorem strToHex_inside (hlen : len.toNat < SIZE_MAX) (hstr : str.length = len.toNat + 1)
    (hdata : data.length = len.toNat / 2 + len.toNat % 2) :
    ∃ out, strToHex str len.toNat data = .ok out := by
  obtain ⟨n, trace, hrun, hbounded⟩ := hexRounds_bounded (str.getD · 0) hlen
  rw [strToHex_accesses hlen hrun]
  refine foldlM_inside fun a ha => ?_
  cases a with
  | read i =>
      have hi := hbounded.reads i (List.mem_filterMap.mpr ⟨_, ha, rfl⟩)
      show i < str.length
      rcases hi with hi | ⟨hi, _⟩ <;> omega
  | write j sum =>
      have hj : j ∈ trace.filterMap Access.writtenAt := List.mem_filterMap.mpr ⟨_, ha, rfl⟩
      rw [hbounded.writes, List.mem_range] at hj
      show j < data.length
      omega

end Arrays

/-! ## The buffers of `create_binary_file` -/

section Buffers

variable (env : Outcomes) (files : Files)

theorem convert_ok (dst : List Byte) {text : List Byte} (hlen : text.length < 2 ^ 63) :
    ∃ result, convert env files dst text = .ok result := by
  cases hftell : env.ftell with
  | false => exact ⟨_, convert_ftell hftell files⟩
  | true =>
      rw [convert_eq hlen hftell]
      split
      · exact ⟨_, rfl⟩
      split
      · exact ⟨_, rfl⟩
      split
      · exact ⟨_, rfl⟩
      split
      · exact ⟨_, rfl⟩
      · exact ⟨_, rfl⟩

theorem createBinaryFile_ok (src dst : List Byte) :
    ∃ result, createBinaryFile env files src dst = .ok result := by
  unfold createBinaryFile
  split
  · exact ⟨_, rfl⟩
  split
  · exact ⟨_, rfl⟩
  · apply convert_ok
    cases hread : (files.write dst [] (by decide)).read src with
    | none => decide
    | some text => exact (files.write dst [] (by decide)).size _ text hread

end Buffers

/-- **`str_to_hex` ends, reads no further than the NUL behind the text, and
writes every byte once and in order**, so the two buffers suffice. The run on
arrays is that of the accesses. -/
theorem strToHex_bounded (str : Nat → Byte) (len : BitVec 64) (hlen : len.toNat < SIZE_MAX) :
    (∃ rounds trace, hexRounds str len rounds 0 = some trace ∧ Bounded len.toNat trace) ∧
      (∀ strbuf binbuf rounds trace, hexRounds (strbuf.getD · 0) len rounds 0 = some trace →
        strToHex strbuf len.toNat binbuf = trace.foldlM (Access.on strbuf) binbuf) ∧
      (∀ strbuf binbuf, strbuf.length = len.toNat + 1 →
        binbuf.length = len.toNat / 2 + len.toNat % 2 →
          ∃ out, strToHex strbuf len.toNat binbuf = .ok out) ∧
      ∀ env files src dst, ∃ result, createBinaryFile env files src dst = .ok result :=
  ⟨hexRounds_bounded str hlen, fun _ _ _ _ => strToHex_accesses hlen, fun _ _ => strToHex_inside hlen,
    createBinaryFile_ok⟩

theorem strToHex_bounded_three :
    (∃ rounds trace, hexRounds (fun _ => 65) 3#64 rounds 0 = some trace ∧ Bounded 3 trace) ∧
      (∀ strbuf binbuf rounds trace, hexRounds (strbuf.getD · 0) 3#64 rounds 0 = some trace →
        strToHex strbuf 3 binbuf = trace.foldlM (Access.on strbuf) binbuf) ∧
      (∀ strbuf binbuf, strbuf.length = 4 → binbuf.length = 2 →
        ∃ out, strToHex strbuf 3 binbuf = .ok out) ∧
      ∀ env files src dst, ∃ result, createBinaryFile env files src dst = .ok result :=
  strToHex_bounded (fun _ => 65) 3#64 (by decide)

/-- At the largest length `i` goes from its last even value to 0. -/
theorem hexRounds_max (str : Nat → Byte) (rounds : Nat) {i : BitVec 64} (hi : i.toNat % 2 = 0) :
    hexRounds str (BitVec.ofNat 64 SIZE_MAX) rounds i = none := by
  induction rounds generalizing i with
  | zero => rfl
  | succ rounds ih =>
      have hmax : (BitVec.ofNat 64 SIZE_MAX).toNat = 2 ^ 64 - 1 := by decide
      have hlt : i < BitVec.ofNat 64 SIZE_MAX := by
        have hi' := i.isLt
        rw [BitVec.lt_def, hmax]
        omega
      have hnext : (i + 1#64 + 1#64).toNat % 2 = 0 := by
        rw [BitVec.toNat_add, BitVec.toNat_add, BitVec.toNat_ofNat]
        omega
      rw [hexRounds_round hlt, ih hnext]
      rfl

end BeEasy.Str2Hex
