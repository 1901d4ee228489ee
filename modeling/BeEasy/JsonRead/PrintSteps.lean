import BeEasy.JsonRead.Print

/-!
# JsonRead — Steps of the printer

What one step of the printer does, whatever memory it gets: it writes its bytes
behind the text or gives up, and never outside of its block. It gives up only
where memory is refused, or there is not the room that it needs. Steps that
follow one another are one step again.
-/

namespace BeEasy

open CVerif

namespace JsonRead

/-! ## One step -/

/-- The most that the buffer may become. -/
def PrintBuffer.limit (p : PrintBuffer) : Nat := if p.noalloc then p.length else INT_MAX

/-- The blocks of the printer. -/
def PrintBuffer.owned (p : PrintBuffer) : Nat := p.buffer.toList.length

/-- A buffer that can be printed to. One of length 0 stands for what
`malloc(0)` returns, which `realloc` can grow. -/
structure Ready (hooks : Hooks) (format : Bool) (depth : Nat) (p : PrintBuffer)
    (block : List Byte) : Prop where
  buffer : p.buffer = some block
  format : p.format = format
  depth : p.depth = depth
  length_le : p.length ≤ block.length
  whole : p.noalloc = false → block.length ≤ p.length ∧ 1 ≤ p.heap.live
  int : p.length ≤ INT_MAX
  offset : p.offset < p.length ∨
    p.length = 0 ∧ p.offset = 0 ∧ (hooks.reallocate = true ∨ p.noalloc = true)

/-- What a step keeps even when it fails: no block is lost, and where the buffer is
the caller's the allocator is not asked, and nothing behind its length is touched. -/
structure Kept (p p' : PrintBuffer) : Prop where
  noalloc : p'.noalloc = p.noalloc
  live : p'.heap.live + p.owned = p.heap.live + p'.owned
  caller : p.noalloc = true → p'.heap = p.heap ∧ p'.length = p.length ∧
    p'.buffer.map (List.drop p.length) = p.buffer.map (List.drop p.length)

/-- Memory can be refused to the buffer. -/
def Refused (hooks : Hooks) (p : PrintBuffer) : Prop :=
  p.noalloc = false ∧ ∃ n, hooks.grants n = false

/-- A step that writes these bytes behind the text, moves on over some of them,
and fails only when memory is refused or it does not have the room it needs. -/
def Writes (hooks : Hooks) (format : Bool) (depth depth' : Nat) (step : Printer)
    (bytes : List Byte) (Moved : Nat → Prop) (need : Nat) : Prop :=
  ∀ p block, Ready hooks format depth p block →
    ∃ printed p', step p = .ok (printed, p') ∧ Kept p p' ∧
      (printed = true → p.offset + need ≤ p.limit ∧
        ∃ block' n, Ready hooks format depth' p' block' ∧ p'.offset = p.offset + n ∧ Moved n ∧
          p.offset + bytes.length ≤ p'.length ∧
          block'.take (p.offset + bytes.length) = block.take p.offset ++ bytes) ∧
      (printed = false → Refused hooks p ∨ p.limit < p.offset + need)

/-- A step that writes a text and moves on behind it. -/
def Appends (hooks : Hooks) (format : Bool) (depth depth' : Nat) (step : Printer) (t : List Byte)
    (need : Nat) : Prop :=
  Writes hooks format depth depth' step t (· = t.length) need

/-- A step that writes a text and a NUL, and moves on over a part of it. -/
def Renders (hooks : Hooks) (format : Bool) (depth : Nat) (step : Printer) (t : List Byte) : Prop :=
  Writes hooks format depth depth step (t ++ [0]) (· ≤ t.length) (t.length + 2)

/-- A step that cannot succeed. -/
def Fails (hooks : Hooks) (format : Bool) (depth : Nat) (step : Printer) : Prop :=
  ∀ p block, Ready hooks format depth p block →
    ∃ p', step p = .ok (false, p') ∧ Kept p p'

section Steps

variable {hooks : Hooks} {format : Bool} {depth depth' depth'' need need' : Nat}
  {step next : Printer} {t t' bytes : List Byte} {Moved : Nat → Prop}

theorem Kept.refl (p : PrintBuffer) : Kept p p := ⟨rfl, rfl, fun _ => ⟨rfl, rfl, rfl⟩⟩

theorem Kept.trans {p p' p'' : PrintBuffer} (h : Kept p p') (h' : Kept p' p'') : Kept p p'' := by
  refine ⟨h'.noalloc.trans h.noalloc, ?_, fun hno => ?_⟩
  · have hlive := h.live
    have hlive' := h'.live
    omega
  · obtain ⟨hheap, hlength, hdrop⟩ := h.caller hno
    obtain ⟨hheap', hlength', hdrop'⟩ := h'.caller (h.noalloc.trans hno)
    rw [hlength] at hlength' hdrop'
    exact ⟨hheap'.trans hheap, hlength', hdrop'.trans hdrop⟩

theorem Kept.limit {p p' : PrintBuffer} (h : Kept p p') : p'.limit = p.limit := by
  unfold PrintBuffer.limit
  rw [h.noalloc]
  cases hno : p.noalloc with
  | false => rfl
  | true => exact (h.caller hno).2.1

section Ready

variable {p : PrintBuffer} {block : List Byte}

theorem Ready.length_le_limit (h : Ready hooks format depth p block) : p.length ≤ p.limit := by
  unfold PrintBuffer.limit
  split
  · exact Nat.le_refl _
  · exact h.int

theorem Ready.limit_le (h : Ready hooks format depth p block) : p.limit ≤ INT_MAX := by
  unfold PrintBuffer.limit
  split
  · exact h.int
  · exact Nat.le_refl _

theorem Ready.offset_le (h : Ready hooks format depth p block) : p.offset ≤ p.length := by
  rcases h.offset with hlt | ⟨_, hzero, _⟩ <;> omega

/-- The text so far is as long as `offset` says. -/
theorem Ready.length_take (h : Ready hooks format depth p block) :
    (block.take p.offset).length = p.offset := by
  rw [List.length_take, Nat.min_eq_left (Nat.le_trans h.offset_le h.length_le)]

end Ready

/-! ## ensure -/

theorem grow_spec {p : PrintBuffer} {block : List Byte} {newsize : Nat}
    (h : Ready hooks format depth p block) (hno : p.noalloc = false)
    (hsize : p.offset < newsize) (hint : newsize ≤ INT_MAX) :
    ∃ printed p', grow hooks block newsize p = .ok (printed, p') ∧ Kept p p' ∧
      (printed = true → ∃ block', Ready hooks format depth p' block' ∧ p'.offset = p.offset ∧
        p'.length = newsize ∧ block'.take p.offset = block.take p.offset) ∧
      (printed = false → Refused hooks p) := by
  have howned : p.buffer.toList.length = 1 := by rw [h.buffer]; rfl
  have hcaller : p.noalloc ≠ true := by
    rw [hno]
    nofun
  obtain ⟨hwhole, hlive⟩ := h.whole hno
  have hlength := h.length_le
  -- the block is lost, with its memory
  have hlost : ∀ heap : Heap, heap.live = p.heap.live → Kept p
      { p with buffer := none, length := 0, heap := heap.release 1 } := by
    intro heap hheap
    refine ⟨rfl, ?_, fun htrue => absurd htrue hcaller⟩
    simp only [Heap.release, howned, PrintBuffer.owned, Option.toList_none, List.length_nil, hheap]
    omega
  have hlarger : ∀ (heap : Heap) (block' : List Byte), heap.live = p.heap.live →
      block'.length = newsize →
      Kept p { p with buffer := some block', length := newsize, heap } ∧
        Ready hooks format depth { p with buffer := some block', length := newsize, heap }
          block' := by
    intro heap block' hheap hsize'
    refine ⟨⟨rfl, ?_, fun htrue => absurd htrue hcaller⟩, ?_⟩
    · simp only [howned, PrintBuffer.owned, Option.toList_some, List.length_singleton, hheap]
    · exact ⟨rfl, h.format, h.depth, Nat.le_of_eq hsize'.symm,
        fun _ => ⟨Nat.le_of_eq hsize', by rw [hheap]; exact hlive⟩, hint, .inl hsize⟩
  have hoffset := Nat.le_trans h.offset_le hlength
  unfold grow
  by_cases hgrants : hooks.grants p.heap.calls = true
  · by_cases hrealloc : hooks.reallocate = true
    · rw [if_pos hrealloc, Heap.reallocate_granted hgrants]
      obtain ⟨hkept, hready⟩ := hlarger ⟨p.heap.calls + 1, p.heap.live⟩
        (realloc block newsize (hooks.contents p.heap.calls)) rfl (length_realloc _ _ _)
      exact ⟨true, _, rfl, hkept,
        fun _ => ⟨_, hready, rfl, rfl, take_realloc (Nat.le_of_lt hsize) hoffset _⟩, nofun⟩
    · have hlt : p.offset < p.length := by
        rcases h.offset with hlt | ⟨_, _, hor⟩
        · exact hlt
        · exact absurd hor (not_or.mpr ⟨hrealloc, hcaller⟩)
      have hcopy : (block.take (p.offset + 1)).length = p.offset + 1 := by
        rw [List.length_take]
        omega
      obtain ⟨newbuffer, hwrite, hsize', htake, _⟩ := exists_writeBytes
        (realloc [] newsize (hooks.contents p.heap.calls)) 0 (block.take (p.offset + 1))
        (by rw [hcopy, length_realloc]; omega)
      rw [length_realloc] at hsize'
      rw [hcopy, Nat.zero_add, List.take_zero, List.nil_append] at htake
      have hread : readBytes block 0 (p.offset + 1) = .ok (block.take (p.offset + 1)) :=
        readBytes_ok (by omega)
      obtain ⟨hkept, hready⟩ := hlarger ⟨p.heap.calls + 1, p.heap.live⟩ newbuffer rfl hsize'
      rw [if_neg hrealloc, Heap.allocate_granted hgrants]
      simp only [hread, hwrite, bind, Except.bind]
      refine ⟨true, _, rfl, hkept, fun _ => ⟨_, hready, rfl, rfl, ?_⟩, nofun⟩
      have htake' := congrArg (List.take p.offset) htake
      rwa [List.take_take, List.take_take, Nat.min_eq_left (Nat.le_succ _)] at htake'
  · have hrefused : Refused hooks p := ⟨hno, _, Bool.eq_false_iff.mpr hgrants⟩
    by_cases hrealloc : hooks.reallocate = true
    · rw [if_pos hrealloc, Heap.reallocate_refused hgrants]
      exact ⟨false, _, rfl, hlost _ rfl, nofun, fun _ => hrefused⟩
    · rw [if_neg hrealloc, Heap.allocate_refused hgrants]
      exact ⟨false, _, rfl, hlost _ rfl, nofun, fun _ => hrefused⟩

theorem ensure_spec {p : PrintBuffer} {block : List Byte} (needed : Nat)
    (h : Ready hooks format depth p block) :
    ∃ printed p', ensure hooks needed p = .ok (printed, p') ∧ Kept p p' ∧
      (printed = true → p.offset + (needed + 1) ≤ p.limit ∧
        ∃ block', Ready hooks format depth p' block' ∧ p'.offset = p.offset ∧
          p.offset + needed < p'.length ∧ block'.take p.offset = block.take p.offset) ∧
      (printed = false → Refused hooks p ∨ p.limit < p.offset + (needed + 1)) := by
  have hlimit := h.length_le_limit
  have hmax := h.limit_le
  have hoffset : ¬(0 < p.length ∧ p.length ≤ p.offset) := by
    rcases h.offset with hlt | ⟨hzero, _⟩ <;> omega
  have hfail : p.limit < p.offset + (needed + 1) → Kept p p ∧
      (false = true → p.offset + (needed + 1) ≤ p.limit ∧
        ∃ block', Ready hooks format depth p block' ∧ p.offset = p.offset ∧
          p.offset + needed < p.length ∧ block'.take p.offset = block.take p.offset) ∧
      (false = false → Refused hooks p ∨ p.limit < p.offset + (needed + 1)) :=
    fun hlt => ⟨.refl p, nofun, fun _ => .inr hlt⟩
  unfold ensure
  rw [h.buffer]
  simp only
  rw [if_neg hoffset]
  by_cases hbig : INT_MAX < needed
  · rw [if_pos hbig]
    exact ⟨false, p, rfl, hfail (by omega)⟩
  rw [if_neg hbig]
  by_cases hroom : needed + p.offset + 1 ≤ p.length
  · rw [if_pos hroom]
    exact ⟨true, p, rfl, .refl p,
      fun _ => ⟨by omega, block, h, rfl, by omega, rfl⟩, nofun⟩
  rw [if_neg hroom]
  cases hno : p.noalloc with
  | true =>
      have heq : p.limit = p.length := by rw [PrintBuffer.limit, if_pos hno]
      exact ⟨false, p, rfl, hfail (by omega)⟩
  | false =>
      have heq : p.limit = INT_MAX := by rw [PrintBuffer.limit, hno, if_neg nofun]
      have hgrow : ∀ newsize, p.offset + needed < newsize → newsize ≤ INT_MAX →
          ∃ printed p', grow hooks block newsize p = .ok (printed, p') ∧ Kept p p' ∧
            (printed = true → p.offset + (needed + 1) ≤ p.limit ∧
              ∃ block', Ready hooks format depth p' block' ∧ p'.offset = p.offset ∧
                p.offset + needed < p'.length ∧ block'.take p.offset = block.take p.offset) ∧
            (printed = false → Refused hooks p ∨ p.limit < p.offset + (needed + 1)) := by
        intro newsize hlt hle
        obtain ⟨printed, p', hgrow, hkept, hyes, hno⟩ := grow_spec h hno (by omega) hle
        refine ⟨printed, p', hgrow, hkept, fun hp => ?_, fun hp => .inl (hno hp)⟩
        obtain ⟨block', hready, hoff, hlen, htake⟩ := hyes hp
        exact ⟨by omega, block', hready, hoff, by omega, htake⟩
      rw [if_neg nofun]
      by_cases hhalf : INT_MAX / 2 < needed + p.offset + 1
      · rw [if_pos hhalf]
        by_cases hfits : needed + p.offset + 1 ≤ INT_MAX
        · rw [if_pos hfits]
          exact hgrow INT_MAX (by omega) (Nat.le_refl _)
        · rw [if_neg hfits]
          exact ⟨false, p, rfl, hfail (by omega)⟩
      · rw [if_neg hhalf]
        exact hgrow _ (by omega) (by omega)

/-! ## Steps that follow one another -/

/-- The buffer after these bytes have been written behind the text. -/
theorem Ready.written {p p' : PrintBuffer} {block block' output : List Byte} {n : Nat}
    (h : Ready hooks format depth p' block') (hkept : Kept p p') (hoffset : p'.offset = p.offset)
    (hroom : p.offset + need ≤ p.limit) (hinside : p.offset + bytes.length ≤ p'.length)
    (hmoved : p.offset + n < p'.length) (htake : block'.take p.offset = block.take p.offset)
    (hlen : output.length = block'.length)
    (hbytes : output.take (p'.offset + bytes.length) = block'.take p'.offset ++ bytes)
    (hrest : output.drop (p'.offset + bytes.length) = block'.drop (p'.offset + bytes.length)) :
    Kept p { p' with buffer := some output, offset := p'.offset + n } ∧
      p.offset + need ≤ p.limit ∧
      ∃ block'' m, Ready hooks format depth
          { p' with buffer := some output, offset := p'.offset + n } block'' ∧
        p'.offset + n = p.offset + m ∧ m = n ∧ p.offset + bytes.length ≤ p'.length ∧
        block''.take (p.offset + bytes.length) = block.take p.offset ++ bytes := by
  rw [hoffset] at hbytes hrest
  refine ⟨hkept.trans ⟨rfl, ?_, fun _ => ⟨rfl, rfl, ?_⟩⟩, hroom, output, n,
    ⟨rfl, h.format, h.depth, ?_, fun hno => ?_, h.int, .inl ?_⟩, ?_, rfl, hinside, ?_⟩
  · rw [PrintBuffer.owned, PrintBuffer.owned, h.buffer]
    rfl
  · rw [h.buffer, Option.map_some, Option.map_some]
    have hdrop := congrArg (List.drop (p'.length - (p.offset + bytes.length))) hrest
    rw [List.drop_drop, List.drop_drop, Nat.add_sub_cancel' hinside] at hdrop
    rw [hdrop]
  · rw [hlen]
    exact h.length_le
  · rw [hlen]
    exact h.whole hno
  · simp only
    omega
  · rw [hoffset]
  · rw [hbytes, htake]

theorem emit_writes {needed length : Nat} (hbytes : bytes.length ≤ needed)
    (hlength : length ≤ needed) :
    Writes hooks format depth depth (emit hooks needed bytes length) bytes (· = length)
      (needed + 1) := by
  intro p block h
  obtain ⟨printed, p', hensure, hkept, hyes, hno⟩ := ensure_spec needed h
  unfold emit Printer.andThen
  rw [hensure]
  simp only [bind, Except.bind]
  cases printed with
  | false => exact ⟨false, p', rfl, hkept, nofun, fun _ => hno rfl⟩
  | true =>
      obtain ⟨hroom, block', hready, hoffset, hlt, htake⟩ := hyes rfl
      have hle := hready.length_le
      obtain ⟨output, hwrite, hlen, hbytes', hrest⟩ := exists_writeBytes block' p'.offset bytes
        (by omega)
      rw [if_pos rfl, hready.buffer, Option.getD_some, hwrite]
      obtain ⟨hkept', hwritten⟩ := hready.written (n := length) hkept hoffset hroom (by omega)
        (by omega) htake hlen hbytes' hrest
      exact ⟨true, _, rfl, hkept', fun _ => hwritten, nofun⟩

theorem andThen_writes {need : Nat} (hstep : Appends hooks format depth depth' step t need)
    (hnext : Writes hooks format depth' depth'' next bytes Moved need') :
    Writes hooks format depth depth'' (step.andThen next) (t ++ bytes)
      (fun n => ∃ m, Moved m ∧ n = t.length + m) (max need (t.length + need')) := by
  intro p block h
  obtain ⟨printed, p', hrun, hkept, hyes, hno⟩ := hstep p block h
  unfold Printer.andThen
  rw [hrun]
  simp only [bind, Except.bind]
  cases printed with
  | false =>
      refine ⟨false, p', rfl, hkept, nofun, fun _ => (hno rfl).imp id fun hlt => ?_⟩
      omega
  | true =>
      obtain ⟨hroom, block', n, hready, hoffset, rfl, _, htake⟩ := hyes rfl
      obtain ⟨printed', p'', hrun', hkept', hyes', hno'⟩ := hnext p' block' hready
      rw [if_pos rfl, hrun']
      rw [hkept.limit, hoffset] at hyes' hno'
      refine ⟨printed', p'', rfl, hkept.trans hkept', fun hp => ?_,
        fun hp => (hno' hp).imp (fun hrefused => ⟨hkept.noalloc ▸ hrefused.1, hrefused.2⟩) ?_⟩
      · obtain ⟨hroom', block'', m, hready', hoffset', hmoved, hinside, htake'⟩ := hyes' hp
        refine ⟨by omega, block'', t.length + m, hready', by omega, ⟨m, hmoved, rfl⟩,
          by rw [List.length_append]; omega, ?_⟩
        rw [List.length_append, ← Nat.add_assoc, htake', htake, List.append_assoc]
      · omega

theorem Writes.congr {bytes' : List Byte} {Moved' : Nat → Prop}
    (h : Writes hooks format depth depth' step bytes Moved need)
    (hbytes : bytes = bytes') (hmoved : ∀ n, Moved n → Moved' n) (hneed : need = need') :
    Writes hooks format depth depth' step bytes' Moved' need' := by
  subst hbytes hneed
  intro p block hp
  obtain ⟨printed, p', hrun, hkept, hyes, hno⟩ := h p block hp
  refine ⟨printed, p', hrun, hkept, fun hprinted => ?_, hno⟩
  obtain ⟨hroom, block', n, hready, hoffset, hn, hinside, htake⟩ := hyes hprinted
  exact ⟨hroom, block', n, hready, hoffset, hmoved n hn, hinside, htake⟩

/-- What is written beyond the text is left to be overwritten. -/
theorem Writes.appends {rest : List Byte}
    (h : Writes hooks format depth depth' step (t ++ rest) (· = t.length) need) :
    Appends hooks format depth depth' step t need := by
  intro p block hp
  obtain ⟨printed, p', hrun, hkept, hyes, hno⟩ := h p block hp
  refine ⟨printed, p', hrun, hkept, fun hprinted => ?_, hno⟩
  obtain ⟨hroom, block', n, hready, hoffset, hn, hinside, htake⟩ := hyes hprinted
  have hlen := hp.length_take
  rw [List.length_append] at hinside htake
  refine ⟨hroom, block', n, hready, hoffset, hn, by omega, ?_⟩
  have htake' := congrArg (List.take (p.offset + t.length)) htake
  rw [List.take_take, Nat.min_eq_left (by omega), ← List.append_assoc,
    List.take_left' (by rw [List.length_append, hlen])] at htake'
  exact htake'

/-- A text put in front of what is overwritten next. -/
theorem emit_appends (t rest : List Byte) {needed : Nat} (h : t.length + rest.length ≤ needed) :
    Appends hooks format depth depth (emit hooks needed (t ++ rest) t.length) t (needed + 1) :=
  (emit_writes (by rw [List.length_append]; exact h) (by omega)).appends

theorem andThen_appends (hstep : Appends hooks format depth depth' step t need)
    (hnext : Appends hooks format depth' depth'' next t' need') :
    Appends hooks format depth depth'' (step.andThen next) (t ++ t')
      (max need (t.length + need')) := by
  refine (andThen_writes hstep hnext).congr rfl ?_ rfl
  rintro _ ⟨_, rfl, rfl⟩
  exact List.length_append.symm

theorem updateOffset_eq {p : PrintBuffer} {block done rest : List Byte} {n : Nat}
    (hbuffer : p.buffer = some block) (hblock : block = done ++ (t ++ 0 :: rest))
    (hoffset : p.offset = done.length + n) (hn : n ≤ t.length) (ht : (0 : Byte) ∉ t) :
    updateOffset p = .ok (true, { p with offset := done.length + t.length }) := by
  have hread : readString (block.drop p.offset) = .ok (t.drop n) := by
    rw [hblock, hoffset, ← List.drop_drop, List.drop_left, List.drop_append_of_le_length hn,
      readString_append_iff fun hmem => ht (List.mem_of_mem_drop hmem)]
    rfl
  have hend : p.offset + (t.drop n).length = done.length + t.length := by
    rw [List.length_drop]
    omega
  unfold updateOffset
  rw [hbuffer]
  simp only [hread, bind, Except.bind, hend]
  rfl

theorem updateOffset_appends (h : Renders hooks format depth step t) (ht : (0 : Byte) ∉ t) :
    Appends hooks format depth depth (step.andThen updateOffset) t (t.length + 2) := by
  intro p block hp
  obtain ⟨printed, p', hrun, hkept, hyes, hno⟩ := h p block hp
  unfold Printer.andThen
  rw [hrun]
  simp only [bind, Except.bind]
  cases printed with
  | false => exact ⟨false, p', rfl, hkept, nofun, fun _ => hno rfl⟩
  | true =>
      obtain ⟨hroom, block', n, hready, hoffset, hn, hinside, htake⟩ := hyes rfl
      rw [List.length_append, List.length_singleton] at hinside htake
      have hlen := hp.length_take
      have hblock : block' = block.take p.offset
          ++ (t ++ 0 :: block'.drop (p.offset + (t.length + 1))) := by
        conv_lhs => rw [← List.take_append_drop (p.offset + (t.length + 1)) block', htake]
        simp only [List.append_assoc, List.singleton_append]
      have hupdate := updateOffset_eq hready.buffer hblock (by rw [hlen]; exact hoffset) hn ht
      rw [hlen] at hupdate
      rw [if_pos rfl, hupdate]
      refine ⟨true, _, rfl, hkept.trans ⟨rfl, rfl, fun _ => ⟨rfl, rfl, rfl⟩⟩, fun _ => ⟨hroom,
        block', t.length, ⟨hready.buffer, hready.format, hready.depth, hready.length_le, hready.whole,
          hready.int, .inl ?_⟩, rfl, rfl, by simp only; omega, ?_⟩, nofun⟩
      · simp only
        omega
      · rw [hblock, ← List.append_assoc, List.take_left' (by rw [List.length_append, hlen])]

/-! ## Flags -/

theorem whenFormat_writes {formatted plain : Printer}
    (hformatted : format = true → Writes hooks format depth depth' formatted bytes Moved need)
    (hplain : format = false → Writes hooks format depth depth' plain bytes Moved need) :
    Writes hooks format depth depth' (whenFormat formatted plain) bytes Moved need := by
  intro p block h
  unfold whenFormat
  rw [h.format]
  cases format with
  | true => exact hformatted rfl p block h
  | false => exact hplain rfl p block h

theorem atDepth_writes (step : Nat → Printer)
    (h : Writes hooks format depth depth' (step depth) bytes Moved need) :
    Writes hooks format depth depth' (fun p => step p.depth p) bytes Moved need := by
  intro p block hp
  simp only [hp.depth]
  exact h p block hp

/-- A change of the buffer's fields that leaves the text alone. -/
def Silent (hooks : Hooks) (format : Bool) (depth depth' : Nat)
    (change : PrintBuffer → PrintBuffer) : Prop :=
  ∀ p block, Ready hooks format depth p block →
    Ready hooks format depth' (change p) block ∧ Kept p (change p) ∧
      (change p).offset = p.offset ∧ (change p).length = p.length

theorem Silent.appends {change : PrintBuffer → PrintBuffer}
    (h : Silent hooks format depth depth' change) :
    Appends hooks format depth depth' (fun p => .ok (true, change p)) [] 0 := by
  intro p block hp
  obtain ⟨hready, hkept, hoffset, hlength⟩ := h p block hp
  have hle := hp.offset_le
  have hlimit := hp.length_le_limit
  refine ⟨true, change p, rfl, hkept, fun _ => ⟨by omega, block, 0, hready, hoffset, rfl, ?_, ?_⟩,
    nofun⟩
  · rw [List.length_nil]
    omega
  · rw [List.length_nil, List.append_nil]
    rfl

theorem Silent.after {change : PrintBuffer → PrintBuffer}
    (hstep : Writes hooks format depth depth' step bytes Moved need)
    (h : Silent hooks format depth' depth'' change) :
    Writes hooks format depth depth'' (step.andThen fun p => .ok (true, change p)) bytes Moved
      need := by
  intro p block hp
  obtain ⟨printed, p', hrun, hkept, hyes, hno⟩ := hstep p block hp
  unfold Printer.andThen
  rw [hrun]
  cases printed with
  | false => exact ⟨false, p', rfl, hkept, nofun, fun _ => hno rfl⟩
  | true =>
      obtain ⟨hroom, block', n, hready, hoffset, hn, hinside, htake⟩ := hyes rfl
      obtain ⟨hready', hkept', hoffset', hlength⟩ := h p' block' hready
      exact ⟨true, change p', rfl, hkept.trans hkept', fun _ => ⟨hroom, block', n, hready',
        hoffset'.trans hoffset, hn, by rw [hlength]; exact hinside, htake⟩, nofun⟩

theorem deeper_silent : Silent hooks format depth (depth + 1) fun p =>
    { p with depth := p.depth + 1 } :=
  fun _ _ h => ⟨⟨h.buffer, h.format, congrArg (· + 1) h.depth, h.length_le, h.whole, h.int,
    h.offset⟩, ⟨rfl, rfl, fun _ => ⟨rfl, rfl, rfl⟩⟩, rfl, rfl⟩

theorem shallower_silent : Silent hooks format (depth + 1) depth fun p =>
    { p with depth := p.depth - 1 } :=
  fun _ _ h => ⟨⟨h.buffer, h.format, congrArg (· - 1) h.depth, h.length_le, h.whole, h.int,
    h.offset⟩, ⟨rfl, rfl, fun _ => ⟨rfl, rfl, rfl⟩⟩, rfl, rfl⟩

theorem skip_silent : Silent hooks format depth depth fun p => p :=
  fun p _ h => ⟨h, .refl p, rfl, rfl⟩

/-! ## Steps that fail -/

theorem Fails.andThen (h : Fails hooks format depth step) :
    Fails hooks format depth (step.andThen next) := by
  intro p block hp
  obtain ⟨p', hrun, hkept⟩ := h p block hp
  unfold Printer.andThen
  rw [hrun]
  exact ⟨p', rfl, hkept⟩

theorem Fails.after (hstep : Appends hooks format depth depth' step t need)
    (h : Fails hooks format depth' next) : Fails hooks format depth (step.andThen next) := by
  intro p block hp
  obtain ⟨printed, p', hrun, hkept, hyes, _⟩ := hstep p block hp
  unfold Printer.andThen
  rw [hrun]
  cases printed with
  | false => exact ⟨p', rfl, hkept⟩
  | true =>
      obtain ⟨_, block', _, hready, _⟩ := hyes rfl
      obtain ⟨p'', hrun', hkept'⟩ := h p' block' hready
      exact ⟨p'', hrun', hkept.trans hkept'⟩

theorem fails : Fails hooks format depth fun p => .ok (false, p) :=
  fun p _ _ => ⟨p, rfl, .refl p⟩

end Steps

end JsonRead

end BeEasy
