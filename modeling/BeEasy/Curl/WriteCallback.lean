import BeEasy.CVerif.Memory
import BeEasy.CVerif.Overlays

/-!
# Curl — Write callback

`write_callback` of `curl/curl-static.c`, to which libcurl hands a response
chunk by chunk. It copies every chunk to the start of the buffer, however
many came before and however long it is, and always returns the whole length
of the chunk, so that libcurl goes on.
-/

namespace BeEasy.Curl

open CVerif

/-- `sizeof(response)`. -/
def RESPONSE_SIZE : Nat := 1024

/-- A chunk as libcurl hands it over: `nmemb` items of `size` bytes, an object
of the address space. -/
structure Chunk where
  data : List Byte
  size : BitVec 64
  nmemb : BitVec 64
  product : size.toNat * nmemb.toNat = data.length
  fits : data.length < 2 ^ 64

/-- `write_callback(data, size, nmemb, userp)`: its result and the buffer. -/
def writeCallback (userp : List Byte) (chunk : Chunk) : Except Fault (BitVec 64 × List Byte) := do
  let realSize := chunk.size * chunk.nmemb
  let userp ← writeBytes userp 0 (chunk.data.take realSize.toNat)
  return (realSize, userp)

/-- The chunks of one response: libcurl calls back for one after the other,
and gives up when a result is not the chunk's length. -/
def deliver (response : List Byte) : List Chunk → Except Fault (List Byte × Bool)
  | [] => .ok (response, true)
  | chunk :: chunks => do
      let (count, response) ← writeCallback response chunk
      if count.toNat = chunk.data.length then deliver response chunks
      else return (response, false)

/-- `char response[1024] = {0}`. -/
def noResponse : List Byte := List.replicate RESPONSE_SIZE 0

/-- A response with room for its NUL is in the buffer afterwards, the NUL
behind it; any other is given up, and nothing outside the buffer is written. -/
def ResponseRight (chunks : List Chunk) : Prop :=
  let whole := (chunks.map Chunk.data).flatten
  (whole.length < RESPONSE_SIZE → ∃ response, deliver noResponse chunks = .ok (response, true) ∧
    response.take (whole.length + 1) = whole ++ [0]) ∧
  (RESPONSE_SIZE ≤ whole.length → ∃ response, deliver noResponse chunks = .ok (response, false))

section Deliveries

variable {response : List Byte} {chunk : Chunk} {chunks : List Chunk}

theorem realSize_eq (chunk : Chunk) : (chunk.size * chunk.nmemb).toNat = chunk.data.length := by
  rw [BitVec.toNat_mul, chunk.product, Nat.mod_eq_of_lt chunk.fits]

theorem writeCallback_eq (response : List Byte) (chunk : Chunk) :
    writeCallback response chunk = (writeBytes response 0 chunk.data).map
      fun response => (chunk.size * chunk.nmemb, response) := by
  simp only [writeCallback, realSize_eq, List.take_length]
  cases writeBytes response 0 chunk.data <;> rfl

/-- A chunk that fits the buffer covers its start. -/
theorem writeCallback_fits (h : chunk.data.length ≤ response.length) :
    writeCallback response chunk
      = .ok (chunk.size * chunk.nmemb, chunk.data ++ response.drop chunk.data.length) := by
  rw [writeCallback_eq, writeBytes_ok (by omega), List.take_zero, List.nil_append, Nat.zero_add]
  rfl

/-- **No chunk is ever refused**: libcurl goes on after each. -/
theorem deliver_cons (h : chunk.data.length ≤ response.length) :
    deliver response (chunk :: chunks)
      = deliver (chunk.data ++ response.drop chunk.data.length) chunks := by
  rw [deliver, writeCallback_fits h]
  exact if_pos (realSize_eq chunk)

theorem deliver_never_refused (response : List Byte) (chunks : List Chunk) (rest : List Byte) :
    deliver response chunks ≠ .ok (rest, false) := by
  induction chunks generalizing response with
  | nil => nofun
  | cons chunk chunks ih =>
      by_cases h : chunk.data.length ≤ response.length
      · rw [deliver_cons h]
        exact ih _
      · rw [deliver, writeCallback_eq, writeBytes, if_neg (by rwa [Nat.zero_add])]
        nofun

/-- The chunks that fit are laid over each other. -/
theorem deliver_overlays (h : ∀ chunk ∈ chunks, chunk.data.length ≤ response.length) :
    ∃ after, deliver response chunks = .ok (after, true) ∧ after.length = response.length ∧
      ∀ i, after.getD i 0 = overlays (response.getD · 0) (chunks.map Chunk.data) i := by
  induction chunks generalizing response with
  | nil => exact ⟨response, rfl, rfl, fun _ => rfl⟩
  | cons chunk chunks ih =>
      have hchunk := h chunk List.mem_cons_self
      have hlen : (chunk.data ++ response.drop chunk.data.length).length = response.length := by
        rw [List.length_append, List.length_drop]
        omega
      obtain ⟨after, hrun, hafter, hall⟩ :=
        ih (fun c hc => hlen ▸ h c (List.mem_cons_of_mem _ hc))
      refine ⟨after, (deliver_cons hchunk).trans hrun, hafter.trans hlen, fun i => ?_⟩
      have hcovered : ((chunk.data ++ response.drop chunk.data.length).getD · 0)
          = overlay (response.getD · 0) chunk.data := by
        funext i
        rcases Nat.lt_or_ge i chunk.data.length with hi | hi
        · rw [List.getD_append _ _ _ _ hi, overlay_of_lt hi]
        · rw [List.getD_append_right _ _ _ _ hi, overlay_of_le hi, List.getD_eq_getElem?_getD,
            List.getElem?_drop, Nat.add_sub_cancel' hi, ← List.getD_eq_getElem?_getD]
      rw [hall, hcovered]
      rfl

/-- A buffer that is empty behind the response begins with it and a NUL if it
has it byte by byte. -/
theorem take_eq_iff {whole : List Byte} (hlen : whole.length < response.length)
    (hbehind : ∀ i, whole.length ≤ i → response.getD i 0 = 0) :
    response.take (whole.length + 1) = whole ++ [0] ↔
      ∀ i, response.getD i 0 = whole.getD i 0 := by
  have hnul : ∀ i, (whole ++ [0]).getD i 0 = whole.getD i 0 := by
    intro i
    rcases Nat.lt_or_ge i whole.length with hi | hi
    · exact List.getD_append _ _ _ _ hi
    · rw [List.getD_append_right _ _ _ _ hi, List.getD_eq_default _ _ hi]
      cases i - whole.length <;> rfl
  constructor
  · intro htake i
    rcases Nat.lt_or_ge i whole.length with hi | hi
    · rw [← hnul, ← htake, List.getD_eq_getElem?_getD, List.getD_eq_getElem?_getD,
        List.getElem?_take_of_lt (by omega)]
    · rw [hbehind i hi, List.getD_eq_default _ _ hi]
  · intro hall
    apply List.ext_getElem
    · rw [List.length_take, List.length_append, List.length_singleton]
      omega
    · intro i hi hi'
      have hlt : i < response.length := by
        rw [List.length_take] at hi
        omega
      rw [List.getElem_take, ← List.getD_eq_getElem response 0 hlt,
        ← List.getD_eq_getElem (whole ++ [0]) 0 hi', hnul, hall]

/-- Where the response has room, the buffer is right exactly when no chunk
disturbs the first one that is not empty. -/
theorem deliver_room (hroom : (chunks.map Chunk.data).flatten.length < RESPONSE_SIZE) :
    ∃ response, deliver noResponse chunks = .ok (response, true) ∧
      (response.take ((chunks.map Chunk.data).flatten.length + 1)
          = (chunks.map Chunk.data).flatten ++ [0]
        ↔ Undisturbed 0 (chunks.map Chunk.data)) := by
  have hsize : noResponse.length = RESPONSE_SIZE := List.length_replicate
  have hzero : (noResponse.getD · 0) = fun _ => (0 : Byte) := by
    funext i
    exact List.getElem?_getD_replicate_default_eq ..
  have hfits : ∀ chunk ∈ chunks, chunk.data.length ≤ noResponse.length := by
    intro chunk hchunk
    have hpart : chunk.data.length ≤ (chunks.map Chunk.data).flatten.length :=
      (List.sublist_flatten_of_mem (List.mem_map_of_mem hchunk)).length_le
    rw [hsize]
    exact Nat.le_of_lt (hpart.trans_lt hroom)
  obtain ⟨response, hrun, hlen, hall⟩ := deliver_overlays hfits
  rw [hzero] at hall
  have hbehind : ∀ i, (chunks.map Chunk.data).flatten.length ≤ i → response.getD i 0 = 0 := by
    intro i hi
    rw [hall, overlays_behind hi]
  refine ⟨response, hrun, ?_⟩
  rw [take_eq_iff (by rwa [hlen, hsize]) hbehind]
  simp only [hall, overlays_eq_flatten_iff]

end Deliveries

/-- **The buffer is right exactly when the response has room in it and no
chunk disturbs the first one that is not empty.** -/
theorem response_right_iff (chunks : List Chunk) :
    ResponseRight chunks ↔ (chunks.map Chunk.data).flatten.length < RESPONSE_SIZE ∧
      Undisturbed 0 (chunks.map Chunk.data) := by
  rcases Nat.lt_or_ge (chunks.map Chunk.data).flatten.length RESPONSE_SIZE with hroom | hfull
  · obtain ⟨response, hrun, htake⟩ := deliver_room hroom
    rw [and_iff_right hroom, ← htake]
    constructor
    · intro h
      obtain ⟨response', hrun', hright⟩ := h.1 hroom
      cases hrun.symm.trans hrun'
      exact hright
    · intro hright
      exact ⟨fun _ => ⟨response, hrun, hright⟩, fun h => absurd hroom (Nat.not_lt_of_le h)⟩
  · refine iff_of_false (fun h => ?_) fun h => absurd h.1 (Nat.not_lt_of_le hfull)
    obtain ⟨response, hrun⟩ := h.2 hfull
    exact deliver_never_refused _ _ _ hrun

/-- One byte, in a chunk of its own. -/
def byteChunk (b : Byte) : Chunk := ⟨[b], 1#64, 1#64, rfl, (by decide : 1 < 2 ^ 64)⟩

/-- Of `a` and `b` in two chunks only `b` is left. -/
theorem second_chunk_covers : ¬ResponseRight [byteChunk 97, byteChunk 98] := by
  intro h
  obtain ⟨response, hrun, htake⟩ := h.1 (by decide)
  have hfit : ∀ chunk ∈ [byteChunk 97, byteChunk 98], chunk.data.length ≤ noResponse.length := by
    rw [noResponse, List.length_replicate]
    decide
  obtain ⟨response', hrun', -, hall⟩ := deliver_overlays hfit
  cases hrun.symm.trans hrun'
  have hfirst : response.getD 0 0 = 97 := by
    rw [List.getD_eq_getElem?_getD, ← List.getElem?_take_of_lt (by decide : 0 < 3)]
    exact congrArg (fun whole => whole[0]?.getD 0) htake
  exact absurd (hfirst.symm.trans (hall 0)) (by decide)

end BeEasy.Curl
