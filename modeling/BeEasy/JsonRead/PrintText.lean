import BeEasy.JsonRead.PrintSteps

/-!
# JsonRead — What is printed

The text of an item, and that the printer writes nothing else: with all memory
granted it succeeds exactly when there is such a text, and room for it and two
bytes more.
-/

namespace BeEasy

open CVerif

namespace JsonRead

/-! ## Texts -/

def escapeOf (b : Byte) : List Byte :=
  if 31 < b ∧ b ≠ 34 ∧ b ≠ 92 then [b]
  else
    match escapeLetter b with
    | some letter => [92, letter]
    | none => 92 :: unicodeEscape b

def quoted (str : Option CStr) : List Byte := 34 :: (bytesOf str).flatMap escapeOf ++ [34]

/-- What stands between two elements. -/
def commaText (format : Bool) : List Byte := if format then [44, 32] else [44]

/-- What stands in front of the value of a member. -/
def keyText (format : Bool) (depth : Nat) (name : Option CStr) : List Byte :=
  if format then tabs depth ++ quoted name ++ [58, 9] else quoted name ++ [58]

/-- What stands behind it. -/
def behindText (format more : Bool) : List Byte :=
  (if more then [44] else []) ++ if format then [10] else []

def numberText (dbl : Doubles) (d : dbl.Double) : List Byte :=
  if !dbl.isFinite d then [110, 117, 108, 108]
  else
    let number := dbl.sprintfG 15 d
    if (dbl.strtod number).2 = 0 || !dbl.eq (dbl.strtod number).1 d then dbl.sprintfG 17 d
    else number

section Texts

variable (dbl : Doubles) (format : Bool)

mutual

/-- The text of an item, if it has one. -/
def textOf (depth : Nat) : Item dbl.Double → Option (List Byte)
  | { type, valuestring, valuedouble, child, .. } =>
      match type with
      | .null => some [110, 117, 108, 108]
      | .false => some [102, 97, 108, 115, 101]
      | .true => some [116, 114, 117, 101]
      | .number => some (numberText dbl valuedouble)
      | .raw => valuestring.map CStr.bytes
      | .string => some (quoted valuestring)
      | .array => do return 91 :: (← elementsText (depth + 1) child) ++ [93]
      | .object => do
          let t ← membersText (depth + 1) child
          return if format then [123, 10] ++ t ++ (tabs depth ++ [125]) else 123 :: t ++ [125]
      | .invalid => none

def elementsText (depth : Nat) : List (Item dbl.Double) → Option (List Byte)
  | [] => some []
  | item :: items => do
      let t ← textOf depth item
      let rest ← elementsText depth items
      return t ++ ((if items.isEmpty then [] else commaText format) ++ rest)

def membersText (depth : Nat) : List (Item dbl.Double) → Option (List Byte)
  | [] => some []
  | item :: items => do
      let t ← textOf depth item
      let rest ← membersText depth items
      return keyText format depth item.string
        ++ (t ++ (behindText format (!items.isEmpty) ++ rest))

end

end Texts

/-! ## Strings -/

theorem escapeOf_length (b : Byte) : (escapeOf b).length = 1 + escapeCharacters b := by
  revert b
  decide

theorem flatMap_escapeOf_length (input : List Byte) :
    (input.flatMap escapeOf).length = input.length + (input.map escapeCharacters).sum := by
  induction input with
  | nil => rfl
  | cons b input ih =>
      rw [List.flatMap_cons, List.length_append, escapeOf_length, ih, List.length_cons,
        List.map_cons, List.sum_cons]
      omega

theorem escapeOf_eq (b : Byte) : escapeCharacters b = 0 → escapeOf b = [b] := by
  revert b
  decide

theorem flatMap_escapeOf_eq {input : List Byte} (h : (input.map escapeCharacters).sum = 0) :
    input.flatMap escapeOf = input := by
  induction input with
  | nil => rfl
  | cons b input ih =>
      rw [List.map_cons, List.sum_cons, Nat.add_eq_zero_iff] at h
      rw [List.flatMap_cons, escapeOf_eq b h.1, ih h.2, List.singleton_append]

/-- The loop writes the escapes, and `sprintf` perhaps a NUL behind them. -/
theorem copyEscaped_eq (input : List Byte) (outputPointer : Nat) (block : List Byte)
    (h : outputPointer + (input.flatMap escapeOf).length < block.length) :
    ∃ output, copyEscaped input outputPointer block = .ok output ∧
      output.length = block.length ∧
      output.take (outputPointer + (input.flatMap escapeOf).length)
        = block.take outputPointer ++ input.flatMap escapeOf ∧
      output.drop (outputPointer + (input.flatMap escapeOf).length + 1)
        = block.drop (outputPointer + (input.flatMap escapeOf).length + 1) := by
  induction input generalizing outputPointer block with
  | nil => exact ⟨block, rfl, rfl, (List.append_nil _).symm, rfl⟩
  | cons b input ih =>
      rw [List.flatMap_cons, List.length_append] at h ⊢
      obtain ⟨nul, hnul, hcopy⟩ : ∃ nul : List Byte, nul.length ≤ 1 ∧
          copyEscaped (b :: input) outputPointer block = (do
            copyEscaped input (outputPointer + (escapeOf b).length)
              (← writeBytes block outputPointer (escapeOf b ++ nul))) := by
        rw [copyEscaped, escapeOf]
        by_cases hplain : 31 < b ∧ b ≠ 34 ∧ b ≠ 92
        · rw [if_pos hplain, if_pos hplain]
          exact ⟨[], Nat.zero_le _, rfl⟩
        · rw [if_neg hplain, if_neg hplain]
          cases escapeLetter b with
          | some letter => exact ⟨[], Nat.zero_le _, rfl⟩
          | none => exact ⟨[0], Nat.le_refl _, rfl⟩
      obtain ⟨block', hwrite, hlen, htake, hdrop⟩ := exists_writeBytes block outputPointer
        (escapeOf b ++ nul) (by rw [List.length_append]; omega)
      obtain ⟨output, hrest, hlen', htake', hdrop'⟩ := ih (outputPointer + (escapeOf b).length)
        block' (by omega)
      have hout : (block.take outputPointer).length = outputPointer := by
        rw [List.length_take]
        omega
      rw [List.length_append] at htake hdrop
      refine ⟨output, ?_, by omega, ?_, ?_⟩
      · rw [hcopy, hwrite]
        exact hrest
      · have hfirst := congrArg (List.take (outputPointer + (escapeOf b).length)) htake
        rw [List.take_take, Nat.min_eq_left (by omega), ← List.append_assoc,
          List.take_left' (by rw [List.length_append, hout])] at hfirst
        rw [← Nat.add_assoc, htake', hfirst, List.append_assoc]
      · have hbehind :=
          congrArg (List.drop ((input.flatMap escapeOf).length + 1 - nul.length)) hdrop
        have hlast : outputPointer + ((escapeOf b).length + nul.length)
            + ((input.flatMap escapeOf).length + 1 - nul.length)
              = outputPointer + (escapeOf b).length + (input.flatMap escapeOf).length + 1 := by
          omega
        rw [List.drop_drop, List.drop_drop, hlast] at hbehind
        rw [← Nat.add_assoc, hdrop', hbehind]

section Pieces

variable {hooks : Hooks} {format : Bool} {depth : Nat}

/-- A text written with a NUL behind it. -/
theorem emit_renders {needed : Nat} {t : List Byte} (hneeded : needed = t.length + 1) :
    Renders hooks format depth (emit hooks needed (t ++ [0]) 0) t := by
  refine (emit_writes ?_ (Nat.zero_le _)).congr rfl ?_ (by omega)
  · rw [List.length_append, List.length_singleton]
    omega
  · rintro _ rfl
    exact Nat.zero_le _

theorem printQuoted_eq (input : List Byte) (offset : Nat) (block : List Byte)
    (h : offset + (input.length + (input.map escapeCharacters).sum + 3) ≤ block.length) :
    ∃ output, printQuoted input offset block = .ok output ∧ output.length = block.length ∧
      output.take (offset + (input.length + (input.map escapeCharacters).sum + 3))
        = block.take offset ++ (34 :: input.flatMap escapeOf ++ [34] ++ [0]) ∧
      output.drop (offset + (input.length + (input.map escapeCharacters).sum + 3))
        = block.drop (offset + (input.length + (input.map escapeCharacters).sum + 3)) := by
  have hlength := flatMap_escapeOf_length input
  unfold printQuoted
  by_cases hescapes : (input.map escapeCharacters).sum = 0
  · rw [flatMap_escapeOf_eq hescapes] at hlength ⊢
    have hbytes : (34 :: input ++ [34, 0]).length = input.length + 3 := by simp
    obtain ⟨output, hwrite, hlen, htake, hdrop⟩ := exists_writeBytes block offset
      (34 :: input ++ [34, 0]) (by omega)
    rw [hbytes] at htake hdrop
    simp only [hescapes, if_true]
    exact ⟨output, hwrite, hlen, htake.trans (by simp), hdrop⟩
  · simp only [if_neg hescapes]
    rw [← hlength] at h ⊢
    obtain ⟨o₁, hwrite₁, hlen₁, htake₁, hdrop₁⟩ := exists_writeBytes block offset [34]
      (by rw [List.length_singleton]; omega)
    rw [List.length_singleton] at htake₁ hdrop₁
    obtain ⟨o₂, hcopy, hlen₂, htake₂, hdrop₂⟩ := copyEscaped_eq input (offset + 1) o₁ (by omega)
    obtain ⟨o₃, hwrite₃, hlen₃, htake₃, hdrop₃⟩ := exists_writeBytes o₂
      (offset + (input.flatMap escapeOf).length + 1) [34, 0] (by rw [hlen₂, hlen₁]; exact h)
    have hend : offset + (input.flatMap escapeOf).length + 1 + [(34 : Byte), 0].length
        = offset + ((input.flatMap escapeOf).length + 3) := by simp; omega
    rw [hend] at htake₃ hdrop₃
    rw [hwrite₁]
    simp only [bind, Except.bind, hcopy]
    refine ⟨o₃, hwrite₃, by omega, ?_, ?_⟩
    · rw [htake₃, Nat.add_right_comm, htake₂, htake₁]
      simp
    · have hmiddle := congrArg (List.drop 1) hdrop₂
      have hfirst := congrArg (List.drop ((input.flatMap escapeOf).length + 2)) hdrop₁
      have hpast : offset + 1 + (input.flatMap escapeOf).length + 1 + 1
          = offset + ((input.flatMap escapeOf).length + 3) := by omega
      have hpast' : offset + 1 + ((input.flatMap escapeOf).length + 2)
          = offset + ((input.flatMap escapeOf).length + 3) := by omega
      rw [List.drop_drop, List.drop_drop, hpast] at hmiddle
      rw [List.drop_drop, List.drop_drop, hpast'] at hfirst
      rw [hdrop₃, hmiddle, hfirst]

theorem printStringPtr_renders (input : Option CStr) :
    Renders hooks format depth (printStringPtr hooks input) (quoted input) := by
  cases input with
  | none =>
      show Renders hooks format depth (emit hooks 3 ([34, 34] ++ [0]) 0) [34, 34]
      exact emit_renders rfl
  | some input =>
      have hlength := flatMap_escapeOf_length input.bytes
      have hquoted : (quoted (some input)).length
          = input.bytes.length + (input.bytes.map escapeCharacters).sum + 2 := by
        rw [← hlength]
        exact List.length_append
      intro p block h
      unfold printStringPtr Printer.andThen
      obtain ⟨printed, p', hensure, hkept, hyes, hno⟩ := ensure_spec
        (input.bytes.length + (input.bytes.map escapeCharacters).sum + 3) h
      simp only [hensure, bind, Except.bind]
      rw [hquoted]
      cases printed with
      | false => exact ⟨false, p', rfl, hkept, nofun, hno⟩
      | true =>
          obtain ⟨hroom, block', hready, hoffset, hlt, htake⟩ := hyes rfl
          have hle := hready.length_le
          obtain ⟨output, hrun, hlen, hbytes, hrest⟩ := printQuoted_eq input.bytes p'.offset block'
            (by omega)
          have hlen' : (quoted (some input) ++ [0]).length
              = input.bytes.length + (input.bytes.map escapeCharacters).sum + 3 := by
            rw [List.length_append, hquoted, List.length_singleton]
          obtain ⟨hkept', hwritten⟩ := hready.written (n := 0) hkept hoffset hroom
            (show _ + (quoted (some input) ++ [0]).length ≤ _ by omega) (by omega) htake hlen
            (by rw [hlen']; exact hbytes) (by rw [hlen']; exact hrest)
          refine ⟨true, _, ?_, hkept', fun _ => ?_, nofun⟩
          · rw [if_pos rfl, hready.buffer, Option.getD_some]
            simp only [hrun]
            rfl
          · obtain ⟨hroom', block'', m, hready', hoffset', rfl, hinside, htake'⟩ := hwritten
            exact ⟨hroom', block'', 0, hready', hoffset', Nat.zero_le _, hinside, htake'⟩

/-! ## Values -/

/-- What libc promises of `sprintf`: seventeen digits with all that can stand
around them fit into `number_buffer`. -/
structure Doubles.Sprintf (dbl : Doubles) : Prop where
  length_le : ∀ n d, n ≤ 17 → dbl.isFinite d = true → (dbl.sprintfG n d).length ≤ 25
  noNul : ∀ n d, n ≤ 17 → dbl.isFinite d = true → (0 : Byte) ∉ dbl.sprintfG n d

theorem digits_sprintf : digits.Sprintf := by
  refine ⟨fun _ _ _ _ => by simp, fun n d _ _ => ?_⟩
  show (0 : Byte) ∉ [BitVec.ofNat 8 (48 + d.val)]
  revert d
  decide

/-- A step that prints the text, or fails where there is none. -/
def Prints (hooks : Hooks) (format : Bool) (depth : Nat) (step : Printer) :
    Option (List Byte) → Prop
  | some t => Renders hooks format depth step t ∧ (0 : Byte) ∉ t
  | none => Fails hooks format depth step

/-- The same for a loop, which needs no more room than a value would. -/
def Loops (hooks : Hooks) (format : Bool) (depth : Nat) (loop : Printer) :
    Option (List Byte) → Prop
  | some t => (∃ need, need ≤ t.length + 2 ∧ Appends hooks format depth depth loop t need) ∧
      (0 : Byte) ∉ t
  | none => Fails hooks format depth loop

theorem printWord_prints {word : List Byte} (h : (0 : Byte) ∉ word) :
    Prints hooks format depth (printWord hooks word) (some word) := ⟨emit_renders rfl, h⟩

theorem printRaw_prints (raw : Option CStr) :
    Prints hooks format depth (printRaw hooks raw) (raw.map CStr.bytes) := by
  cases raw with
  | none => exact fails
  | some raw => exact printWord_prints raw.noNul

theorem noNul_escapeOf (b : Byte) : b ≠ 0 → (0 : Byte) ∉ escapeOf b := by
  revert b
  decide

theorem noNul_append {a b : List Byte} (ha : (0 : Byte) ∉ a) (hb : (0 : Byte) ∉ b) :
    (0 : Byte) ∉ a ++ b := fun h => (List.mem_append.mp h).elim ha hb

theorem noNul_quoted (str : Option CStr) : (0 : Byte) ∉ quoted str := by
  have hbytes : (0 : Byte) ∉ bytesOf str := by
    cases str with
    | none => exact List.not_mem_nil
    | some str => exact str.noNul
  have hescaped : (0 : Byte) ∉ (bytesOf str).flatMap escapeOf := by
    intro hmem
    obtain ⟨b, hb, hzero⟩ := List.mem_flatMap.mp hmem
    exact noNul_escapeOf b (fun h => hbytes (h ▸ hb)) hzero
  exact noNul_append (noNul_append (a := [34]) (by decide) hescaped) (by decide)

theorem printNumber_prints {dbl : Doubles} (hsprintf : dbl.Sprintf) (d : dbl.Double) :
    Prints hooks format depth (printNumber hooks dbl d) (some (numberText dbl d)) := by
  have hbuffer : numberBuffer dbl d = .ok (numberText dbl d) ∧ (numberText dbl d).length ≤ 25 ∧
      (0 : Byte) ∉ numberText dbl d := by
    unfold numberBuffer numberText inNumberBuffer
    cases hfinite : dbl.isFinite d with
    | false =>
        simp only [Bool.not_false, if_true]
        exact ⟨rfl, by decide, by decide⟩
    | true =>
        have h15 := hsprintf.length_le 15 d (by decide) hfinite
        have h17 := hsprintf.length_le 17 d (by decide) hfinite
        have n15 := hsprintf.noNul 15 d (by decide) hfinite
        have n17 := hsprintf.noNul 17 d (by decide) hfinite
        simp only [Bool.not_true, Bool.false_eq_true, if_false, bind, Except.bind,
          if_pos (Nat.succ_le_succ h15), if_pos (Nat.succ_le_succ h17)]
        split
        · exact ⟨rfl, h17, n17⟩
        · exact ⟨rfl, h15, n15⟩
  obtain ⟨hrun, hlen, hno⟩ := hbuffer
  refine ⟨?_, hno⟩
  have hemit : Renders hooks format depth (emit hooks ((numberText dbl d).length + 1)
      (numberText dbl d ++ [0]) (numberText dbl d).length) (numberText dbl d) := by
    refine (emit_writes ?_ (Nat.le_succ _)).congr rfl ?_ rfl
    · rw [List.length_append, List.length_singleton]
    · rintro _ rfl
      exact Nat.le_refl _
  intro p block h
  unfold printNumber
  rw [hrun]
  simp only [bind, Except.bind]
  rw [if_neg (by omega)]
  exact hemit p block h

theorem printArray_prints {loop : Printer} {o : Option (List Byte)}
    (h : Loops hooks format (depth + 1) loop o) :
    Prints hooks format depth (printArray hooks loop) (do return 91 :: (← o) ++ [93]) := by
  have hopen : Appends hooks format depth depth (emit hooks 1 [91] 1) [91] 2 :=
    emit_writes (Nat.le_refl 1) (Nat.le_refl 1)
  unfold printArray
  cases o with
  | none => exact .after hopen (.after deeper_silent.appends (.andThen h))
  | some t =>
      obtain ⟨⟨need, hneed, hloop⟩, hno⟩ := h
      have hclose : Renders hooks format (depth + 1) (emit hooks 2 ([93] ++ [0]) 0) [93] :=
        emit_renders rfl
      refine ⟨?_, noNul_append (noNul_append (a := [91]) (by decide) hno) (by decide)⟩
      refine (andThen_writes hopen (andThen_writes deeper_silent.appends (andThen_writes hloop
        (shallower_silent.after hclose)))).congr (by simp) ?_ ?_
      · rintro _ ⟨_, ⟨_, ⟨n, hn, rfl⟩, rfl⟩, rfl⟩
        simp at hn ⊢
        omega
      · simp
        omega

theorem tabs_length (n : Nat) : (tabs n).length = n := List.length_replicate

theorem noNul_tabs (n : Nat) : (0 : Byte) ∉ tabs n := by
  intro h
  exact absurd (List.eq_of_mem_replicate h) (by decide)

theorem printObject_prints {loop : Printer} {o : Option (List Byte)}
    (h : Loops hooks format (depth + 1) loop o) :
    Prints hooks format depth (printObject hooks loop) (do
      let t ← o
      return if format then [123, 10] ++ t ++ (tabs depth ++ [125]) else 123 :: t ++ [125]) := by
  have hopen : Appends hooks format depth depth
      (whenFormat (emit hooks 3 [123, 10] 2) (emit hooks 2 [123] 1))
      (if format then [123, 10] else [123]) (if format then 4 else 3) := by
    refine whenFormat_writes ?_ ?_ <;> rintro rfl
    · exact emit_writes (by decide) (by decide)
    · exact emit_writes (by decide) (by decide)
  have hclose : Renders hooks format (depth + 1)
      (whenFormat (fun p => emit hooks (p.depth + 1) (tabs (p.depth - 1) ++ [125, 0]) 0 p)
        (emit hooks 2 [125, 0] 0))
      (if format then tabs depth ++ [125] else [125]) := by
    refine whenFormat_writes ?_ ?_ <;> rintro rfl
    · have hemit : Renders hooks true (depth + 1)
          (emit hooks (depth + 1 + 1) (tabs depth ++ [125] ++ [0]) 0) (tabs depth ++ [125]) :=
        emit_renders (by rw [List.length_append, tabs_length, List.length_singleton])
      rw [List.append_assoc] at hemit
      exact atDepth_writes (fun d => emit hooks (d + 1) (tabs (d - 1) ++ [125, 0]) 0) hemit
    · exact emit_renders (t := [125]) rfl
  unfold printObject
  cases o with
  | none => exact .after hopen (.after deeper_silent.appends (.andThen h))
  | some t =>
      obtain ⟨⟨need, hneed, hloop⟩, hno⟩ := h
      have hprint := andThen_writes hopen (andThen_writes deeper_silent.appends
        (andThen_writes hloop (shallower_silent.after hclose)))
      cases format with
      | false =>
          refine ⟨hprint.congr (by simp) ?_ ?_,
            noNul_append (noNul_append (a := [123]) (by decide) hno) (by decide)⟩
          · rintro _ ⟨_, ⟨_, ⟨n, hn, rfl⟩, rfl⟩, rfl⟩
            simp at hn ⊢
            omega
          · simp
            omega
      | true =>
          refine ⟨hprint.congr (by simp) ?_ ?_, noNul_append (noNul_append (a := [123, 10])
            (by decide) hno) (noNul_append (noNul_tabs _) (by decide))⟩
          · rintro _ ⟨_, ⟨_, ⟨n, hn, rfl⟩, rfl⟩, rfl⟩
            simp at hn ⊢
            omega
          · simp
            omega

/-! ## The loops -/

theorem printComma_appends : Appends hooks format depth depth (printComma hooks) (commaText format)
    ((commaText format).length + 2) := by
  refine whenFormat_writes ?_ ?_ <;> rintro rfl
  · exact emit_appends [44, 32] [0] (by decide)
  · exact emit_appends [44] [0] (by decide)

theorem printBehind_appends (more : Bool) :
    Appends hooks format depth depth (printBehind hooks more) (behindText format more)
      ((behindText format more).length + 2) := by
  refine whenFormat_writes ?_ ?_ <;> rintro rfl <;> cases more
  · exact emit_appends [10] [0] (by decide)
  · exact emit_appends [44, 10] [0] (by decide)
  · exact emit_appends [] [0] (by decide)
  · exact emit_appends [44] [0] (by decide)

theorem printKey_appends (name : Option CStr) :
    ∃ need, need ≤ (keyText format depth name).length + 2 ∧
      Appends hooks format depth depth (printKey hooks name) (keyText format depth name) need := by
  have hname : Appends hooks format depth depth
      ((printStringPtr hooks name).andThen updateOffset) (quoted name)
      ((quoted name).length + 2) :=
    updateOffset_appends (printStringPtr_renders name) (noNul_quoted name)
  have htabs : Appends hooks format depth depth
      (whenFormat (fun p => emit hooks p.depth (tabs p.depth) p.depth p) fun p => .ok (true, p))
      (if format then tabs depth else []) (if format then depth + 1 else 0) := by
    refine whenFormat_writes ?_ ?_ <;> rintro rfl
    · refine atDepth_writes (fun d => emit hooks d (tabs d) d) ?_
      refine (emit_writes (Nat.le_of_eq (tabs_length _)) (Nat.le_refl _)).congr rfl ?_ rfl
      rintro _ rfl
      exact (tabs_length _).symm
    · exact skip_silent.appends
  have hcolon : Appends hooks format depth depth
      (whenFormat (emit hooks 2 [58, 9] 2) (emit hooks 1 [58] 1))
      (if format then [58, 9] else [58]) (if format then 3 else 2) := by
    refine whenFormat_writes ?_ ?_ <;> rintro rfl
    · exact emit_writes (by decide) (by decide)
    · exact emit_writes (by decide) (by decide)
  have hkey := andThen_appends htabs (andThen_appends hname hcolon)
  refine ⟨_, ?_, hkey.congr ?_ ?_ rfl⟩ <;> cases format
  · simp [keyText]
  · simp [keyText, tabs_length]
    omega
  · simp [keyText]
  · simp [keyText]
  · rintro _ rfl
    simp [keyText]
  · rintro _ rfl
    simp [keyText]

theorem noNul_keyText (name : Option CStr) : (0 : Byte) ∉ keyText format depth name := by
  unfold keyText
  split
  · exact noNul_append (noNul_append (noNul_tabs _) (noNul_quoted name)) (by decide)
  · exact noNul_append (noNul_quoted name) (by decide)

/-- A value in a loop, with what stands behind it. -/
theorem printValue_loops {value behind rest : Printer} {o o' : Option (List Byte)}
    {t : List Byte} {need : Nat} (hvalue : Prints hooks format depth value o)
    (hbehind : Appends hooks format depth depth behind t need) (hneed : need ≤ t.length + 2)
    (ht : (0 : Byte) ∉ t) (hrest : Loops hooks format depth rest o') :
    Loops hooks format depth
      ((value.andThen updateOffset).andThen (behind.andThen rest)) (do
        let u ← o
        let us ← o'
        return u ++ (t ++ us)) := by
  cases o with
  | none => exact .andThen (.andThen hvalue)
  | some u =>
      have hvalue' := updateOffset_appends hvalue.1 hvalue.2
      cases o' with
      | none => exact .after hvalue' (.after hbehind hrest)
      | some us =>
          obtain ⟨⟨need', hneed', hloop⟩, hno⟩ := hrest
          refine ⟨⟨_, ?_, andThen_appends hvalue' (andThen_appends hbehind hloop)⟩,
            noNul_append hvalue.2 (noNul_append ht hno)⟩
          simp only [List.length_append]
          omega

/-- The same with a name in front. -/
theorem printKey_loops (name : Option CStr) {rest : Printer} {o : Option (List Byte)}
    (hrest : Loops hooks format depth rest o) :
    Loops hooks format depth ((printKey hooks name).andThen rest)
      (o.map (keyText format depth name ++ ·)) := by
  obtain ⟨need, hneed, hkey⟩ : ∃ need, need ≤ (keyText format depth name).length + 2 ∧
      Appends hooks format depth depth (printKey hooks name) (keyText format depth name) need :=
    printKey_appends name
  cases o with
  | none => exact .after hkey hrest
  | some t =>
      obtain ⟨⟨need', hneed', hloop⟩, hno⟩ := hrest
      refine ⟨⟨_, ?_, andThen_appends hkey hloop⟩, noNul_append (noNul_keyText name) hno⟩
      rw [List.length_append]
      omega

mutual

theorem printValue_prints {dbl : Doubles} (hsprintf : dbl.Sprintf) (depth : Nat) :
    (item : Item dbl.Double) →
      Prints hooks format depth (printValue hooks dbl item) (textOf dbl format depth item)
  | { type, valuestring, valuedouble, child, .. } => by
      cases type with
      | null => exact printWord_prints (by decide)
      | false => exact printWord_prints (by decide)
      | true => exact printWord_prints (by decide)
      | number => exact printNumber_prints hsprintf valuedouble
      | raw => exact printRaw_prints valuestring
      | string => exact ⟨printStringPtr_renders valuestring, noNul_quoted valuestring⟩
      | array => exact printArray_prints (printElements_loops hsprintf (depth + 1) child)
      | object => exact printObject_prints (printMembers_loops hsprintf (depth + 1) child)
      | invalid => exact fails

theorem printElements_loops {dbl : Doubles} (hsprintf : dbl.Sprintf) (depth : Nat) :
    (items : List (Item dbl.Double)) →
      Loops hooks format depth (printElements hooks dbl items) (elementsText dbl format depth items)
  | [] => ⟨⟨0, Nat.zero_le _, skip_silent.appends⟩, List.not_mem_nil⟩
  | item :: items => by
      have hvalue := printValue_prints hsprintf depth item
      have hrest := printElements_loops hsprintf depth items
      cases items with
      | nil => exact printValue_loops hvalue skip_silent.appends (by decide) (by decide) hrest
      | cons next items =>
          have hcomma : (0 : Byte) ∉ commaText format := by cases format <;> decide
          exact printValue_loops hvalue printComma_appends (Nat.le_refl _) hcomma hrest

theorem printMembers_loops {dbl : Doubles} (hsprintf : dbl.Sprintf) (depth : Nat) :
    (items : List (Item dbl.Double)) →
      Loops hooks format depth (printMembers hooks dbl items) (membersText dbl format depth items)
  | [] => ⟨⟨0, Nat.zero_le _, skip_silent.appends⟩, List.not_mem_nil⟩
  | item :: items => by
      have hvalue := printValue_prints hsprintf depth item
      have hrest := printMembers_loops hsprintf depth items
      have hbehind : (0 : Byte) ∉ behindText format !items.isEmpty := by
        cases format <;> cases items.isEmpty <;> decide
      have hloop := printKey_loops item.string
        (printValue_loops hvalue (printBehind_appends !items.isEmpty) (Nat.le_refl _) hbehind hrest)
      rw [printMembers, membersText]
      revert hloop
      cases textOf dbl format depth item with
      | none => exact id
      | some t => cases membersText dbl format depth items <;> exact id

end

end Pieces

/-! ## cJSON_Print -/

/-- What comes out of `print_value` on a new buffer. -/
theorem printValue_run {dbl : Doubles} (hsprintf : dbl.Sprintf) {hooks : Hooks} {format : Bool}
    {p : PrintBuffer} {block : List Byte} (item : Item dbl.Double)
    (h : Ready hooks format 0 p block) (hoffset : p.offset = 0) :
    ∃ printed p', printValue hooks dbl item p = .ok (printed, p') ∧ Kept p p' ∧
      (printed = true → ∃ t block', textOf dbl format 0 item = some t ∧ (0 : Byte) ∉ t ∧
        Ready hooks format 0 p' block' ∧ t.length + 2 ≤ p.limit ∧ t.length + 1 ≤ p'.length ∧
        p'.offset ≤ t.length ∧ block'.take (t.length + 1) = t ++ [0]) ∧
      (printed = false → Refused hooks p ∨
        ∀ t, textOf dbl format 0 item = some t → p.limit < t.length + 2) := by
  have hprints : Prints hooks format 0 (printValue hooks dbl item) (textOf dbl format 0 item) :=
    printValue_prints hsprintf 0 item
  cases ht : textOf dbl format 0 item with
  | none =>
      rw [ht] at hprints
      obtain ⟨p', hrun, hkept⟩ := hprints p block h
      exact ⟨false, p', hrun, hkept, nofun, fun _ => .inr nofun⟩
  | some t =>
      rw [ht] at hprints
      obtain ⟨printed, p', hrun, hkept, hyes, hno⟩ := hprints.1 p block h
      refine ⟨printed, p', hrun, hkept, fun hprinted => ?_, fun hprinted => ?_⟩
      · obtain ⟨hroom, block', n, hready, hmoved, hn, hinside, htake⟩ := hyes hprinted
        rw [hoffset] at hroom hmoved hinside htake
        rw [List.length_append, List.length_singleton] at hinside htake
        rw [List.take_zero, List.nil_append, Nat.zero_add] at htake
        exact ⟨t, block', rfl, hprints.2, hready, by omega, by omega, by omega, htake⟩
      · refine (hno hprinted).imp id fun hlt t' heq => ?_
        obtain rfl := Option.some.inj heq
        omega

/-- `cJSON_PrintPreallocated` prints the text where there is room for two bytes
more than it has, and nowhere else. It is exact where the header asks for five
bytes more than needed. It leaves the allocator alone, and what is behind `len`. -/
theorem printPreallocated_spec {dbl : Doubles} (hsprintf : dbl.Sprintf) (hooks : Hooks)
    (item : Item dbl.Double) (buf : List Byte) (len : Nat) (hbuf : len ≤ buf.length)
    (hlen : len ≤ INT_MAX) (format : Bool) (heap : Heap) :
    ∃ printed buf', printPreallocated hooks dbl item (some buf) len format heap
        = .ok (printed, some buf', heap) ∧ buf'.drop len = buf.drop len ∧
      (printed = true ↔ ∃ t, textOf dbl format 0 item = some t ∧ t.length + 2 ≤ len) ∧
      (printed = true → textOf dbl format 0 item = some (stringAt buf')) := by
  have hready : Ready hooks format 0 ⟨some buf, len, 0, 0, true, format, heap⟩ buf := by
    refine ⟨rfl, rfl, rfl, hbuf, nofun, hlen, ?_⟩
    rcases Nat.eq_zero_or_pos len with hzero | hpos
    · exact .inr ⟨hzero, rfl, .inr rfl⟩
    · exact .inl hpos
  obtain ⟨printed, p', hrun, hkept, hyes, hno⟩ := printValue_run hsprintf item hready rfl
  obtain ⟨hheap, _, hdrop⟩ := hkept.caller rfl
  obtain ⟨buf', hbuf', hdrop'⟩ := Option.map_eq_some_iff.mp hdrop
  refine ⟨printed, buf', ?_, hdrop', ?_, fun hprinted => ?_⟩
  · unfold printPreallocated
    rw [if_neg (by simp), Int.toNat_natCast, hrun]
    simp only [bind, Except.bind, hbuf', hheap]
    rfl
  · cases printed with
    | true =>
        obtain ⟨t, _, ht, _, _, hroom, _⟩ := hyes rfl
        exact iff_of_true rfl ⟨t, ht, hroom⟩
    | false =>
        refine iff_of_false Bool.false_ne_true ?_
        rintro ⟨t, ht, hroom⟩
        rcases hno rfl with hrefused | hlt
        · exact Bool.noConfusion hrefused.1
        · exact absurd (hlt t ht) (Nat.not_lt.mpr hroom)
  · obtain ⟨t, block', ht, hnul, hready', _, _, _, htake⟩ := hyes hprinted
    obtain rfl := Option.some.inj (hready'.buffer.symm.trans hbuf')
    have hmem : t ++ [0] <+: block' := htake ▸ List.take_prefix _ _
    rw [ht, (stringAt_eq_iff hnul (Nat.lt_of_lt_of_le (by simp) hmem.length_le)).mpr hmem]

/-- What a function returns that prints to a block of its own: the text in a
block that is the caller's to free, or NULL and no block. With all memory
granted it is NULL only where there is no text, or an `int` cannot count it
and two bytes more. -/
structure Returned (hooks : Hooks) (text : Option (List Byte)) (heap : Heap)
    (printed : Option (List Byte)) (heap' : Heap) : Prop where
  null : printed = none → heap'.live = heap.live
  block : ∀ block, printed = some block → heap'.live = heap.live + 1 ∧
    ∃ t, text = some t ∧ t ++ [0] <+: block ∧ t.length + 2 ≤ INT_MAX
  granted : (∀ n, hooks.grants n = true) → ∀ t, text = some t → t.length + 2 ≤ INT_MAX →
    printed.isSome = true

theorem Returned.refused {hooks : Hooks} {text : Option (List Byte)} {heap heap' : Heap} {n : Nat}
    (hn : ¬hooks.grants n = true) (hlive : heap'.live = heap.live) :
    Returned hooks text heap none heap' :=
  ⟨fun _ => hlive, nofun, fun hall => absurd (hall n) hn⟩

/-- The buffer on which `print_value` starts. -/
theorem ready_allocated (hooks : Hooks) (format : Bool) (heap : Heap) (calls : Nat) {length : Nat}
    (hint : length ≤ INT_MAX) (hpos : 0 < length ∨ hooks.reallocate = true) :
    Ready hooks format 0 ⟨some (realloc [] length (hooks.contents heap.calls)), length, 0, 0, false,
      format, ⟨calls, heap.live + 1⟩⟩ (realloc [] length (hooks.contents heap.calls)) := by
  refine ⟨rfl, rfl, rfl, by rw [length_realloc], fun _ => ⟨by rw [length_realloc],
    Nat.le_add_left 1 _⟩, hint, ?_⟩
  rcases Nat.eq_zero_or_pos length with hzero | hlt
  · exact .inr ⟨hzero, rfl, .inl (hpos.resolve_left (by omega))⟩
  · exact .inl hlt

/-- What `print_value` leaves on it, or gives back. -/
theorem Kept.allocated {p : PrintBuffer} {block : List Byte} {heap : Heap} {length calls : Nat}
    {format : Bool}
    (h : Kept ⟨some block, length, 0, 0, false, format, ⟨calls, heap.live + 1⟩⟩ p) :
    p.heap.live = heap.live + p.owned ∧ p.free.live = heap.live := by
  have hlive := h.live
  simp only [PrintBuffer.owned, Option.toList_some, List.length_singleton] at hlive
  have heq : p.heap.live = heap.live + p.owned := by
    rw [PrintBuffer.owned]
    omega
  exact ⟨heq, by rw [PrintBuffer.free, Heap.release, heq, PrintBuffer.owned, Nat.add_sub_cancel]⟩

theorem print_returned {dbl : Doubles} (hsprintf : dbl.Sprintf) (hooks : Hooks)
    (item : Item dbl.Double) (format : Bool) (heap : Heap) :
    ∃ printed heap', print hooks dbl item format heap = .ok (printed, heap') ∧
      Returned hooks (textOf dbl format 0 item) heap printed heap' ∧
      ∀ block, printed = some block →
        ∃ t, textOf dbl format 0 item = some t ∧ block = t ++ [0] := by
  unfold print
  by_cases hgrants : hooks.grants heap.calls = true
  swap
  · rw [Heap.allocate_refused hgrants]
    exact ⟨none, _, rfl, .refused hgrants rfl, nofun⟩
  rw [Heap.allocate_granted hgrants]
  obtain ⟨ok, p, hrun, hkept, hyes, hno⟩ := printValue_run hsprintf item
    (ready_allocated hooks format heap (heap.calls + 1) (by decide : 256 ≤ INT_MAX)
      (.inl (by decide))) rfl
  obtain ⟨hlive, hfree⟩ := hkept.allocated
  simp only [Bool.not_true, Bool.false_eq_true, if_false, hrun, bind, Except.bind]
  cases ok with
  | false =>
      refine ⟨none, _, rfl, ⟨fun _ => hfree, nofun, fun hall t ht hfits => ?_⟩, nofun⟩
      rcases hno rfl with ⟨_, n, hn⟩ | hlt
      · exact absurd (hall n) (by rw [hn]; nofun)
      · exact absurd (hlt t ht) (Nat.not_lt.mpr hfits)
  | true =>
      obtain ⟨t, block, ht, hnul, hready, hroom, hinside, hmoved, htake⟩ := hyes rfl
      have hblock : block = [] ++ (t ++ 0 :: block.drop (t.length + 1)) := by
        conv_lhs => rw [← List.take_append_drop (t.length + 1) block, htake]
        simp
      have hupdate := updateOffset_eq hready.buffer hblock (Nat.zero_add _).symm hmoved hnul
      rw [List.length_nil, Nat.zero_add] at hupdate
      have hlength := hready.length_le
      have howned : p.owned = 1 := by rw [PrintBuffer.owned, hready.buffer]; rfl
      have hread : readBytes block 0 (t.length + 1) = .ok (t ++ [0]) := by
        rw [readBytes_ok (by omega), List.drop_zero, htake]
      have hmin : min p.length (t.length + 1) = t.length + 1 := Nat.min_eq_right hinside
      have hsize : (t ++ [(0 : Byte)]).length = t.length + 1 := List.length_append
      have hcopy : writeBytes (realloc [] (t.length + 1) (hooks.contents p.heap.calls)) 0 (t ++ [0])
          = .ok (t ++ [0]) := by
        rw [writeBytes_ok (by rw [hsize, length_realloc, Nat.zero_add]), hsize,
          List.drop_of_length_le (by rw [length_realloc, Nat.zero_add]), List.append_nil]
        rfl
      have hlast : writeBytes (t ++ [0]) t.length [0] = .ok (t ++ [0]) := by
        have hfits : [(0 : Byte)].length ≤ [(0 : Byte)].length := Nat.le_refl _
        rw [writeBytes_append hfits, List.append_assoc]
        rfl
      have hsome : ∀ heap' : Heap, heap'.live = heap.live + 1 →
          Returned hooks (some t) heap (some (t ++ [0])) heap' :=
        fun heap' hheap => ⟨fun heq => absurd heq (Option.some_ne_none _),
          fun block heq => ⟨hheap, t, rfl, Option.some.inj heq ▸ List.prefix_refl _, hroom⟩,
          fun _ _ _ _ => rfl⟩
      have hlost : ∀ calls, ({ p with
          buffer := some block, offset := t.length, heap := ⟨calls, p.heap.live⟩ }
            : PrintBuffer).free.live = heap.live := by
        intro calls
        simp only [PrintBuffer.free, Heap.release, Option.toList_some, List.length_singleton]
        omega
      have hexact : ∀ block, some (t ++ [0]) = some block → ∃ t', some t = some t' ∧
          block = t' ++ [0] := fun block heq => ⟨t, rfl, (Option.some.inj heq).symm⟩
      simp only [hupdate, hready.buffer, Option.getD_some, hread, hmin, ht]
      by_cases hgranted : hooks.grants p.heap.calls = true
      · by_cases hrealloc : hooks.reallocate = true
        · rw [if_pos hrealloc, Heap.reallocate_granted hgranted,
            realloc_of_le (Nat.le_trans hinside hlength), htake]
          exact ⟨_, _, rfl, hsome _ (by rw [← howned]; exact hlive), hexact⟩
        · rw [if_neg hrealloc, Heap.allocate_granted hgranted]
          simp only [if_true, hcopy, hlast]
          refine ⟨_, _, rfl, hsome _ ?_, hexact⟩
          simp only [PrintBuffer.free, Heap.release, Option.toList_some, List.length_singleton]
          omega
      · by_cases hrealloc : hooks.reallocate = true
        · rw [if_pos hrealloc, Heap.reallocate_refused hgranted]
          exact ⟨none, _, rfl, .refused hgranted (hlost _), nofun⟩
        · rw [if_neg hrealloc, Heap.allocate_refused hgranted]
          exact ⟨none, _, rfl, .refused hgranted (hlost _), nofun⟩

theorem print_granted {dbl : Doubles} (hsprintf : dbl.Sprintf) {hooks : Hooks}
    (hall : ∀ n, hooks.grants n = true) {item : Item dbl.Double} {format : Bool} {t : List Byte}
    (ht : textOf dbl format 0 item = some t) (hroom : t.length + 2 ≤ INT_MAX) (heap : Heap) :
    ∃ heap', print hooks dbl item format heap = .ok (some (t ++ [0]), heap') := by
  obtain ⟨printed, heap', hrun, hreturned, hexact⟩ := print_returned hsprintf hooks item format heap
  obtain ⟨block, rfl⟩ := Option.isSome_iff_exists.mp (hreturned.granted hall t ht hroom)
  obtain ⟨t', ht', rfl⟩ := hexact block rfl
  obtain rfl := Option.some.inj (ht.symm.trans ht')
  exact ⟨heap', hrun⟩

/-- `cJSON_Print` and `cJSON_PrintUnformatted` return a block that is the text and
its NUL, or NULL and no block. With all memory granted it is NULL exactly where
there is no text, or an `int` cannot count it and two bytes more. -/
theorem print_spec {dbl : Doubles} (hsprintf : dbl.Sprintf) (hooks : Hooks)
    (item : Item dbl.Double) (format : Bool) (heap : Heap) :
    ∃ printed heap', print hooks dbl item format heap = .ok (printed, heap') ∧
      (printed = none → heap'.live = heap.live) ∧
      (∀ block, printed = some block → heap'.live = heap.live + 1 ∧
        ∃ t, textOf dbl format 0 item = some t ∧ block = t ++ [0]) ∧
      ((∀ n, hooks.grants n = true) → (printed = none ↔
        ∀ t, textOf dbl format 0 item = some t → INT_MAX < t.length + 2)) := by
  obtain ⟨printed, heap', hrun, hreturned, hexact⟩ := print_returned hsprintf hooks item format heap
  refine ⟨printed, heap', hrun, hreturned.null,
    fun block heq => ⟨(hreturned.block block heq).1, hexact block heq⟩, fun hall => ⟨?_, ?_⟩⟩
  · rintro rfl t ht
    by_contra hroom
    exact absurd (hreturned.granted hall t ht (Nat.le_of_not_lt hroom)) nofun
  · intro hnone
    rw [Option.eq_none_iff_forall_ne_some]
    intro block heq
    obtain ⟨_, t, ht, _, hroom⟩ := hreturned.block block heq
    exact absurd (hnone t ht) (Nat.not_lt.mpr hroom)

/-- `cJSON_PrintBuffered`, whatever the guess. Only where the block starts empty
it takes a `reallocate` to make it larger. -/
theorem printBuffered_spec {dbl : Doubles} (hsprintf : dbl.Sprintf) (hooks : Hooks)
    (item : Item dbl.Double) (prebuffer : Nat) (hint : prebuffer ≤ INT_MAX)
    (hpos : 0 < prebuffer ∨ hooks.reallocate = true) (format : Bool) (heap : Heap) :
    ∃ printed heap', printBuffered hooks dbl item prebuffer format heap = .ok (printed, heap') ∧
      Returned hooks (textOf dbl format 0 item) heap printed heap' := by
  unfold printBuffered
  rw [if_neg (by omega)]
  simp only [Int.toNat_natCast]
  by_cases hgrants : hooks.grants heap.calls = true
  swap
  · rw [Heap.allocate_refused hgrants]
    exact ⟨none, _, rfl, .refused hgrants rfl⟩
  rw [Heap.allocate_granted hgrants]
  obtain ⟨ok, p, hrun, hkept, hyes, hno⟩ := printValue_run hsprintf item
    (ready_allocated hooks format heap (heap.calls + 1) hint hpos) rfl
  obtain ⟨hlive, hfree⟩ := hkept.allocated
  simp only [Bool.not_true, Bool.false_eq_true, if_false, hrun, bind, Except.bind]
  cases ok with
  | false =>
      refine ⟨none, _, rfl, fun _ => hfree, nofun, fun hall t ht hfits => ?_⟩
      rcases hno rfl with ⟨_, n, hn⟩ | hlt
      · exact absurd (hall n) (by rw [hn]; nofun)
      · exact absurd (hlt t ht) (Nat.not_lt.mpr hfits)
  | true =>
      obtain ⟨t, block, ht, _, hready, hroom, _, _, htake⟩ := hyes rfl
      have howned : p.owned = 1 := by rw [PrintBuffer.owned, hready.buffer]; rfl
      refine ⟨_, _, rfl, ?_⟩
      rw [hready.buffer, ht]
      refine ⟨fun heq => absurd heq (Option.some_ne_none _), fun block' heq => ?_,
        fun _ _ _ _ => rfl⟩
      rw [← Option.some.inj heq]
      exact ⟨by rw [hlive, howned], t, rfl, htake ▸ List.take_prefix _ _, hroom⟩

/-- `[1]` in a buffer of five bytes. -/
theorem printPreallocated_spec_oneInBrackets :
    ∃ printed buf', printPreallocated
        ⟨fun _ => false, fun _ _ => 0, false⟩ digits
        (itemOf digits (.array [.number digits.one])) (some [7, 7, 7, 7, 7]) 5 false ⟨0, 0⟩
        = .ok (printed, some buf', ⟨0, 0⟩) ∧ buf'.drop 5 = [] ∧
      (printed = true ↔ ∃ t, textOf digits false 0 (itemOf digits (.array [.number digits.one]))
        = some t ∧ t.length + 2 ≤ 5) ∧
      (printed = true → textOf digits false 0 (itemOf digits (.array [.number digits.one]))
        = some (stringAt buf')) :=
  printPreallocated_spec digits_sprintf ⟨fun _ => false, fun _ _ => 0, false⟩
    (itemOf digits (.array [.number digits.one])) [7, 7, 7, 7, 7] 5 (by decide) (by decide) false
    ⟨0, 0⟩

theorem print_spec_oneInBrackets :
    ∃ printed heap', print ⟨fun _ => true, fun _ _ => 0, true⟩ digits
        (itemOf digits (.array [.number digits.one])) true ⟨0, 0⟩ = .ok (printed, heap') ∧
      (printed = none → heap'.live = 0) ∧
      (∀ block, printed = some block → heap'.live = 1 ∧
        ∃ t, textOf digits true 0 (itemOf digits (.array [.number digits.one])) = some t ∧
          block = t ++ [0]) ∧
      ((∀ _ : Nat, true = true) → (printed = none ↔
        ∀ t, textOf digits true 0 (itemOf digits (.array [.number digits.one])) = some t →
          INT_MAX < t.length + 2)) :=
  print_spec digits_sprintf ⟨fun _ => true, fun _ _ => 0, true⟩
    (itemOf digits (.array [.number digits.one])) true ⟨0, 0⟩

theorem printBuffered_spec_oneInBrackets :
    ∃ printed heap', printBuffered ⟨fun _ => true, fun _ _ => 0, false⟩ digits
        (itemOf digits (.array [.number digits.one])) 1 true ⟨0, 0⟩ = .ok (printed, heap') ∧
      Returned ⟨fun _ => true, fun _ _ => 0, false⟩
        (textOf digits true 0 (itemOf digits (.array [.number digits.one]))) ⟨0, 0⟩ printed
        heap' :=
  printBuffered_spec digits_sprintf ⟨fun _ => true, fun _ _ => 0, false⟩
    (itemOf digits (.array [.number digits.one])) 1 (by decide) (.inl (by decide)) true ⟨0, 0⟩

end JsonRead

end BeEasy
