import BeEasy.Curl.WriteCallback

/-!
# Curl — Accumulator

`WriteCallback` of `curl/curl.c` and the `MemoryStruct` it fills: a response
in one block that grows with every chunk, a NUL behind it. The callback
keeps that up; `main` does not start with it, because nothing is written to
the byte of its `malloc(1)`. So the NUL is missing until the first chunk has
been taken, and what `main` prints of a response without one is no string.
-/

namespace BeEasy.Curl

open CVerif

/-- `struct MemoryStruct`: the block behind `memory`, all of it, and `size`. -/
structure MemoryStruct where
  memory : List Byte
  size : BitVec 64

/-- A call of libcurl: the chunk, and whether `realloc` succeeds, with what
is then in the bytes it adds. -/
structure ChunkCall where
  chunk : Chunk
  realloc : Option (Nat → Byte)

/-- `main` before the transfer: `malloc(1)` and a size of 0. -/
def MemoryStruct.start (unspecified : Byte) : MemoryStruct := ⟨[unspecified], 0#64⟩

/-- `WriteCallback(contents, size, nmemb, userp)`. -/
def MemoryStruct.writeCallback (mem : MemoryStruct) (call : ChunkCall) :
    Except Fault (BitVec 64 × MemoryStruct) :=
  let realSize := call.chunk.size * call.chunk.nmemb
  match call.realloc with
  | none => .ok (0#64, mem)
  | some unspecified => do
      let ptr := realloc mem.memory (mem.size + realSize + 1#64).toNat unspecified
      let memory ← writeBytes ptr mem.size.toNat (call.chunk.data.take realSize.toNat)
      let size := mem.size + realSize
      let memory ← writeBytes memory size.toNat [0]
      return (realSize, ⟨memory, size⟩)

/-- One call after the other. -/
def MemoryStruct.writeAll (mem : MemoryStruct) : List ChunkCall → Except Fault MemoryStruct
  | [] => .ok mem
  | call :: calls => do
      let (_, mem) ← mem.writeCallback call
      mem.writeAll calls

/-- The chunks that were taken, one behind the other. -/
def accepted : List ChunkCall → List Byte
  | [] => []
  | call :: calls => (if call.realloc.isSome then call.chunk.data else []) ++ accepted calls

/-- What a `MemoryStruct` is to keep up while `bytes` come in. -/
structure Holds (bytes : List Byte) (mem : MemoryStruct) : Prop where
  size : mem.size.toNat = bytes.length
  room : mem.size.toNat + 1 ≤ mem.memory.length
  content : mem.memory.take mem.size.toNat = bytes
  nul : mem.memory[mem.size.toNat]? = some 0

/-- The same without the NUL. -/
structure HoldsUnended (bytes : List Byte) (mem : MemoryStruct) : Prop where
  size : mem.size.toNat = bytes.length
  memory : ∃ b behind, mem.memory = bytes ++ b :: behind

/-- No length computed by the calls wraps, with `n` bytes there at first. -/
def LengthsFit (n : Nat) : List ChunkCall → Prop
  | [] => True
  | call :: calls => n + call.chunk.data.length + 1 < 2 ^ 64 ∧
      LengthsFit (n + (accepted [call]).length) calls

/-- Every call leaves the struct as it is to be, or returns 0 and leaves it as
it was, and it is as it is to be when `main` prints it. -/
structure AccumulatorRight (unspecified : Byte) (calls : List ChunkCall) : Prop where
  call : ∀ before call after, calls = before ++ call :: after → ∃ mem count mem',
    (MemoryStruct.start unspecified).writeAll before = .ok mem ∧
      mem.writeCallback call = .ok (count, mem') ∧ Holds (accepted (before ++ [call])) mem' ∧
      (call.realloc = none → count = 0#64 ∧ mem' = mem)
  printed : ∃ mem, (MemoryStruct.start unspecified).writeAll calls = .ok mem ∧
    Holds (accepted calls) mem

section Calls

variable {bytes : List Byte} {mem mem' : MemoryStruct} {call : ChunkCall}
  {calls before : List ChunkCall} {n : Nat}

theorem accepted_append (before calls : List ChunkCall) :
    accepted (before ++ calls) = accepted before ++ accepted calls := by
  induction before with
  | nil => rfl
  | cons call before ih => rw [List.cons_append, accepted, accepted, ih, List.append_assoc]

theorem accepted_taken (h : call.realloc.isSome) : accepted [call] = call.chunk.data := by
  rw [accepted, if_pos h, accepted, List.append_nil]

theorem accepted_refused (h : call.realloc = none) : accepted [call] = [] := by
  rw [accepted, h]
  rfl

theorem lengthsFit_append : LengthsFit n (before ++ calls) ↔
    LengthsFit n before ∧ LengthsFit (n + (accepted before).length) calls := by
  induction before generalizing n with
  | nil => exact (iff_of_eq (true_and _)).symm
  | cons call before ih =>
      have hlength : (accepted (call :: before)).length
          = (accepted [call]).length + (accepted before).length :=
        (congrArg List.length (accepted_append [call] before)).trans List.length_append
      rw [List.cons_append, LengthsFit, LengthsFit, ih, and_assoc, hlength, Nat.add_assoc n _ 1,
        Nat.add_assoc]

theorem Holds.unended (h : Holds bytes mem) : HoldsUnended bytes mem := by
  have hlt : mem.size.toNat < mem.memory.length := h.room
  refine ⟨h.size, mem.memory[mem.size.toNat], mem.memory.drop (mem.size.toNat + 1), ?_⟩
  calc mem.memory
      = mem.memory.take mem.size.toNat ++ mem.memory.drop mem.size.toNat :=
        (List.take_append_drop ..).symm
    _ = _ := by rw [h.content, List.drop_eq_getElem_cons hlt]

theorem holds_of_nul (hsize : mem.size.toNat = bytes.length) {behind : List Byte}
    (hmemory : mem.memory = bytes ++ 0 :: behind) : Holds bytes mem := by
  constructor
  · exact hsize
  · rw [hmemory, hsize, List.length_append, List.length_cons]
    omega
  · rw [hmemory, hsize, List.take_left]
  · rw [hmemory, hsize, List.getElem?_append_right (Nat.le_refl _), Nat.sub_self]
    rfl

/-- **A chunk that is taken makes the struct right**, whatever was where its
NUL belongs. -/
theorem writeCallback_taken {unspecified : Nat → Byte} (h : HoldsUnended bytes mem)
    (hfits : bytes.length + call.chunk.data.length + 1 < 2 ^ 64)
    (hrealloc : call.realloc = some unspecified) :
    ∃ mem', mem.writeCallback call = .ok (call.chunk.size * call.chunk.nmemb, mem') ∧
      Holds (bytes ++ call.chunk.data) mem' := by
  obtain ⟨hsize, b, behind, hmemory⟩ := h
  have hreal := realSize_eq call.chunk
  have hnew : (mem.size + call.chunk.size * call.chunk.nmemb).toNat
      = (bytes ++ call.chunk.data).length := by
    rw [BitVec.toNat_add, hsize, hreal, List.length_append]
    omega
  have hroom : (mem.size + call.chunk.size * call.chunk.nmemb + 1#64).toNat
      = bytes.length + (call.chunk.data.length + 1) := by
    rw [BitVec.toNat_add, hnew, List.length_append]
    show (_ + 1) % _ = _
    omega
  let new := realloc (b :: behind) (call.chunk.data.length + 1) unspecified
  have hlength : new.length = call.chunk.data.length + 1 := length_realloc ..
  -- one byte is left behind the chunk, and it gets the NUL
  have hdata : writeBytes (bytes ++ new) bytes.length call.chunk.data
      = .ok (bytes ++ call.chunk.data ++ new.drop call.chunk.data.length) :=
    writeBytes_append (by omega)
  have hnul := @writeBytes_append (bytes ++ call.chunk.data)
    (new.drop call.chunk.data.length) [0] (by
      rw [List.length_drop, List.length_singleton]
      omega)
  have hend : (new.drop call.chunk.data.length).drop [(0 : Byte)].length = [] := by
    rw [List.drop_drop]
    exact List.drop_of_length_le (Nat.le_of_eq hlength)
  refine ⟨⟨bytes ++ call.chunk.data ++ [0], mem.size + call.chunk.size * call.chunk.nmemb⟩, ?_,
    holds_of_nul hnew rfl⟩
  simp only [MemoryStruct.writeCallback, hrealloc, hmemory, hreal, List.take_length, hroom,
    realloc_append, hsize, hnew]
  show (writeBytes (bytes ++ new) bytes.length call.chunk.data >>= _) = _
  rw [hdata]
  show (writeBytes _ _ [0] >>= _) = _
  rw [hnul, hend, List.append_nil]
  rfl

theorem writeCallback_refused (hrealloc : call.realloc = none) :
    mem.writeCallback call = .ok (0#64, mem) := by
  unfold MemoryStruct.writeCallback
  rw [hrealloc]

/-- Where calls lead: the chunks taken are there, the NUL behind them once one
was taken. -/
theorem writeAll_holds (h : HoldsUnended bytes mem) (hfits : LengthsFit bytes.length calls) :
    ∃ mem', mem.writeAll calls = .ok mem' ∧ HoldsUnended (bytes ++ accepted calls) mem' ∧
      (Holds bytes mem ∨ (∃ call ∈ calls, call.realloc.isSome) →
        Holds (bytes ++ accepted calls) mem') := by
  induction calls generalizing mem bytes with
  | nil =>
      rw [accepted, List.append_nil]
      exact ⟨mem, rfl, h, fun hor => hor.elim id fun ⟨_, hmem, _⟩ => (List.not_mem_nil hmem).elim⟩
  | cons call calls ih =>
      have hnext := hfits.2
      rw [MemoryStruct.writeAll, show accepted (call :: calls) = accepted [call] ++ accepted calls
        from accepted_append [call] calls]
      cases hrealloc : call.realloc with
      | none =>
          rw [accepted_refused hrealloc] at hnext ⊢
          obtain ⟨mem', hrun, hunended, hholds⟩ := ih h hnext
          rw [writeCallback_refused hrealloc, List.nil_append]
          refine ⟨mem', hrun, hunended, fun hor => hholds (hor.imp id ?_)⟩
          rintro ⟨call', hmem, hsome⟩
          rcases List.mem_cons.mp hmem with rfl | hmem
          · rw [hrealloc] at hsome
            cases hsome
          · exact ⟨call', hmem, hsome⟩
      | some unspecified =>
          have hsome : call.realloc.isSome := Option.isSome_of_eq_some hrealloc
          rw [accepted_taken hsome] at hnext ⊢
          obtain ⟨mem₁, hcall, hholds₁⟩ := writeCallback_taken h hfits.1 hrealloc
          obtain ⟨mem', hrun, hunended, hholds⟩ :=
            ih hholds₁.unended (by rwa [List.length_append])
          rw [hcall, ← List.append_assoc]
          exact ⟨mem', hrun, hunended, fun _ => hholds (.inl hholds₁)⟩

/-- Once the first chunk was taken, the one in hand is it, or it is among
those before. -/
theorem taken_before {first call : ChunkCall} {rest before after : List ChunkCall}
    (h : first :: rest = before ++ call :: after) (hsome : first.realloc.isSome) :
    call.realloc.isSome ∨ ∃ c ∈ before, c.realloc.isSome := by
  cases before with
  | nil =>
      cases (List.cons.inj h).1
      exact .inl hsome
  | cons c before =>
      cases (List.cons.inj h).1
      exact .inr ⟨first, List.mem_cons_self, hsome⟩

/-! ## From `malloc` on -/

theorem start_unended (unspecified : Byte) : HoldsUnended [] (MemoryStruct.start unspecified) :=
  ⟨rfl, unspecified, [], rfl⟩

theorem holds_start_iff {unspecified : Byte} :
    Holds [] (MemoryStruct.start unspecified) ↔ unspecified = 0 := by
  constructor
  · intro h
    exact Option.some.inj h.nul
  · rintro rfl
    exact holds_of_nul rfl rfl

/-- Any call leaves the struct right once it begins right or the first call
takes its chunk. -/
theorem call_right {unspecified : Byte} {after : List ChunkCall}
    (heq : calls = before ++ call :: after) (hfits : LengthsFit 0 calls)
    (hor : unspecified = 0 ∨ ∃ first rest, calls = first :: rest ∧ first.realloc.isSome) :
    ∃ mem count mem', (MemoryStruct.start unspecified).writeAll before = .ok mem ∧
      mem.writeCallback call = .ok (count, mem') ∧ Holds (accepted (before ++ [call])) mem' ∧
      (call.realloc = none → count = 0#64 ∧ mem' = mem) := by
  obtain ⟨hbefore, hcalls⟩ : LengthsFit 0 before ∧
      LengthsFit (0 + (accepted before).length) (call :: after) :=
    lengthsFit_append.mp (heq ▸ hfits)
  obtain ⟨mem, hrun, hunended, hholds⟩ := writeAll_holds (start_unended unspecified) hbefore
  rw [List.nil_append] at hunended hholds
  rw [accepted_append]
  cases hrealloc : call.realloc with
  | none =>
      rw [accepted_refused hrealloc, List.append_nil]
      refine ⟨mem, _, mem, hrun, writeCallback_refused hrealloc, ?_, fun _ => ⟨rfl, rfl⟩⟩
      refine hholds (hor.imp holds_start_iff.mpr ?_)
      rintro ⟨first, rest, hfirst, hsome⟩
      refine (taken_before (hfirst.symm.trans heq) hsome).resolve_left fun hcall => ?_
      rw [hrealloc] at hcall
      cases hcall
  | some _ =>
      rw [accepted_taken (Option.isSome_of_eq_some hrealloc)]
      obtain ⟨mem', hcall, hholds'⟩ :=
        writeCallback_taken hunended (by simpa using hcalls.1) hrealloc
      exact ⟨mem, _, mem', hrun, hcall, hholds', nofun⟩

end Calls

/-- **The struct is right throughout exactly when it begins right, by what
`malloc` left there, or the first call takes its chunk.** -/
theorem accumulator_right_iff (unspecified : Byte) (calls : List ChunkCall)
    (hfits : LengthsFit 0 calls) :
    AccumulatorRight unspecified calls ↔
      unspecified = 0 ∨ ∃ call rest, calls = call :: rest ∧ call.realloc.isSome := by
  constructor
  · intro h
    cases calls with
    | nil =>
        obtain ⟨mem, hrun, hholds⟩ := h.printed
        cases hrun
        exact .inl (holds_start_iff.mp hholds)
    | cons call rest =>
        cases hrealloc : call.realloc with
        | some _ => exact .inr ⟨call, rest, rfl, Option.isSome_of_eq_some hrealloc⟩
        | none =>
            obtain ⟨mem, count, mem', hrun, -, hholds, hrefused⟩ := h.call [] call rest rfl
            cases hrun
            rw [(hrefused hrealloc).2, List.nil_append, accepted_refused hrealloc] at hholds
            exact .inl (holds_start_iff.mp hholds)
  · intro hor
    refine ⟨fun before call after heq => call_right heq hfits hor, ?_⟩
    obtain ⟨mem, hrun, -, hholds⟩ := writeAll_holds (start_unended unspecified) hfits
    refine ⟨mem, hrun, hholds (hor.imp holds_start_iff.mpr ?_)⟩
    rintro ⟨call, rest, rfl, hsome⟩
    exact ⟨call, List.mem_cons_self, hsome⟩

/-- A chunk that is taken. -/
theorem accumulator_right_iff_taken :
    AccumulatorRight 65 [⟨byteChunk 97, some fun _ => 65⟩] :=
  (accumulator_right_iff 65 [⟨byteChunk 97, some fun _ => 65⟩]
    ⟨(by decide : 0 + 1 + 1 < 2 ^ 64), trivial⟩).mpr (.inr ⟨_, [], rfl, rfl⟩)

/-- No chunk at all: the byte of `malloc(1)` is printed, and what is behind it. -/
theorem empty_response_unended : ¬AccumulatorRight 65 [] := by
  intro h
  obtain ⟨mem, hrun, hholds⟩ := h.printed
  cases hrun
  exact absurd hholds.nul (by decide)

end BeEasy.Curl
