import BeEasy.JsonRead.Utf16

/-!
# JsonRead — parse_string

A string literal is read twice: a first loop looks for the closing quote and
counts escapes to know how much memory the string can take, a second one
writes it there. They do not see the same escapes: the second one skips the
six bytes behind `\u` whatever they are, backslashes included. The block is
large enough all the same.
-/

namespace BeEasy

open CVerif

namespace JsonRead

/-- What changes while a buffer is parsed: where it is read, and the memory in
use. -/
structure ParseState where
  offset : Nat
  heap : Heap

/-- Bytes written behind those that are in a block already. -/
def push (capacity : Nat) (output bytes : List Byte) : Except Stop (List Byte) :=
  if output.length + bytes.length ≤ capacity then .ok (output ++ bytes) else .error .outOfBounds

/-- The loop for the closing quote: `input_end` and `skipped_bytes`. -/
def scanString (content : List Byte) : Nat → Nat → Nat → Except Stop (Option (Nat × Nat))
  | 0, _, _ => .error .unfinished
  | rounds + 1, inputEnd, skippedBytes =>
      if inputEnd < content.length then do
        let b ← byteAt content inputEnd
        if b = 34 then return some (inputEnd, skippedBytes)
        else if b = 92 then
          -- prevent buffer overflow when last input character is a backslash
          if content.length ≤ inputEnd + 1 then return none
          else scanString content rounds (inputEnd + 2) (skippedBytes + 1)
        else scanString content rounds (inputEnd + 1) skippedBytes
      else return none

/-- The escape at `inputPointer`: its length and the bytes it stands for. -/
def escapeSequence (content : List Byte) (inputPointer inputEnd : Nat) :
    Except Stop (Option (Nat × List Byte)) := do
  let e ← byteAt content (inputPointer + 1)
  if e = 98 then return some (2, [8])
  else if e = 102 then return some (2, [12])
  else if e = 110 then return some (2, [10])
  else if e = 114 then return some (2, [13])
  else if e = 116 then return some (2, [9])
  else if e = 34 ∨ e = 92 ∨ e = 47 then return some (2, [e])
  else if e = 117 then utf16LiteralToUtf8 content inputPointer inputEnd
  else return none

/-- The loop through the literal, with what it has written so far. -/
def unescape (content : List Byte) (inputEnd capacity : Nat) :
    Nat → Nat → List Byte → Except Stop (Option (List Byte) × Nat)
  | 0, _, _ => .error .unfinished
  | rounds + 1, inputPointer, output =>
      if inputPointer < inputEnd then do
        let b ← byteAt content inputPointer
        if b ≠ 92 then
          unescape content inputEnd capacity rounds (inputPointer + 1) (← push capacity output [b])
        else
          match ← escapeSequence content inputPointer inputEnd with
          | none => return (none, inputPointer)
          | some (sequenceLength, bytes) =>
              unescape content inputEnd capacity rounds (inputPointer + sequenceLength)
                (← push capacity output bytes)
      else return (some output, inputPointer)

/-- `parse_string`: the item made into the string, if there is one. -/
def parseString {D : Type} (grants : Nat → Bool) (content : List Byte) (item : Item D)
    (st : ParseState) : Except Stop (Option (Item D) × ParseState) := do
  let inputPointer := st.offset + 1
  -- not a string
  if (← byteAt content st.offset) ≠ 34 then return (none, { st with offset := inputPointer })
  match ← scanString content (content.length + 1) (st.offset + 1) 0 with
  | none => return (none, { st with offset := inputPointer })
  | some (inputEnd, skippedBytes) =>
      let allocationLength := (inputEnd - st.offset) - skippedBytes
      let capacity := allocationLength + 1
      let (granted, heap) := st.heap.allocate grants
      if !granted then return (none, ⟨inputPointer, heap⟩)
      match ← unescape content inputEnd capacity (content.length + 1) inputPointer [] with
      | (none, inputPointer) => return (none, ⟨inputPointer, heap.release 1⟩)
      | (some output, _) =>
          let output ← push capacity output [0]
          return (some { item with type := .string, valuestring := some (CStr.at output) },
            ⟨inputEnd + 1, heap⟩)

/-! ## The two loops -/

/-- What stands before the closing quote; `escaped` is whether the byte before
was a backslash that counts. -/
def literal : Bool → List Byte → Option (List Byte)
  | _, [] => none
  | true, b :: rest => (literal false rest).map (b :: ·)
  | false, b :: rest => if b = 34 then some [] else (literal (b = 92) rest).map (b :: ·)

/-- The backslashes that the first loop counts. -/
def skips : Bool → List Byte → Nat
  | _, [] => 0
  | true, _ :: rest => skips false rest
  | false, b :: rest => if b = 92 then skips true rest + 1 else skips false rest

section Scan

variable {content : List Byte}

theorem byteAt_of_drop {p : Nat} {b : Byte} {rest : List Byte} (h : content.drop p = b :: rest) :
    byteAt content p = .ok b := by
  rw [← Nat.add_zero p, byteAt_add, h]
  rfl

theorem drop_succ {p : Nat} {b : Byte} {rest : List Byte} (h : content.drop p = b :: rest) :
    content.drop (p + 1) = rest := by
  rw [← List.drop_drop, h]
  rfl

theorem exists_drop {p : Nat} (h : p < content.length) :
    ∃ b rest, content.drop p = b :: rest :=
  ⟨_, _, List.drop_eq_getElem_cons h⟩

theorem scanString_eq (rounds inputEnd skippedBytes : Nat)
    (hle : inputEnd ≤ content.length) (h : content.length < inputEnd + rounds) :
    scanString content rounds inputEnd skippedBytes
      = .ok ((literal false (content.drop inputEnd)).map fun u =>
          (inputEnd + u.length, skippedBytes + skips false u)) := by
  induction rounds generalizing inputEnd skippedBytes with
  | zero => omega
  | succ rounds ih =>
      unfold scanString
      by_cases hlt : inputEnd < content.length
      · obtain ⟨b, rest, hdrop⟩ := exists_drop hlt
        rw [if_pos hlt, byteAt_of_drop hdrop, hdrop]
        simp only [bind, Except.bind]
        by_cases hquote : b = 34
        · rw [if_pos hquote, hquote]
          rfl
        rw [if_neg hquote, literal, if_neg hquote]
        by_cases hback : b = 92
        · subst hback
          rw [if_pos rfl, decide_eq_true rfl]
          cases rest with
          | nil =>
              have hlen := congrArg List.length hdrop
              rw [List.length_drop, List.length_singleton] at hlen
              rw [if_pos (by omega)]
              rfl
          | cons c rest =>
              have hlen := congrArg List.length hdrop
              rw [List.length_drop, List.length_cons, List.length_cons] at hlen
              have hdrop' : content.drop (inputEnd + 2) = rest := by
                rw [← List.drop_drop, hdrop]
                rfl
              rw [if_neg (by omega), ih _ _ (by omega) (by omega), hdrop', literal, Option.map_map,
                Option.map_map]
              refine congrArg (fun f => Except.ok (Option.map f (literal false rest))) ?_
              funext u
              simp only [Function.comp, skips, if_true, List.length_cons, Prod.mk.injEq]
              omega
        · rw [if_neg hback, decide_eq_false hback, ih _ _ (by omega) (by omega), drop_succ hdrop,
            Option.map_map]
          refine congrArg (fun f => Except.ok (Option.map f (literal false rest))) ?_
          funext u
          have hskips : skips false (b :: u) = skips false u := if_neg hback
          simp only [Function.comp, hskips, List.length_cons, Prod.mk.injEq, and_true]
          omega
      · rw [if_neg hlt, List.drop_eq_nil_of_le (by omega)]
        rfl

theorem literal_cons {escaped : Bool} {rest u : List Byte} {b : Byte}
    (h : literal escaped rest = some (b :: u)) :
    ∃ rest', rest = b :: rest' ∧ literal (!escaped && b = 92) rest' = some u ∧
      skips escaped (b :: u) = skips (!escaped && b = 92) u + (!escaped && b = 92).toNat := by
  cases rest with
  | nil => cases h
  | cons c rest' =>
      cases escaped with
      | true =>
          obtain ⟨v, hv, heq⟩ := Option.map_eq_some_iff.mp h
          cases heq
          exact ⟨rest', rfl, hv, rfl⟩
      | false =>
          rw [literal] at h
          by_cases hq : c = 34
          · rw [if_pos hq] at h
            cases h
          · rw [if_neg hq] at h
            obtain ⟨v, hv, heq⟩ := Option.map_eq_some_iff.mp h
            cases heq
            refine ⟨rest', rfl, hv, ?_⟩
            by_cases hb : b = 92
            · subst hb
              rfl
            · simp only [skips, if_neg hb, decide_eq_false hb]
              rfl

theorem literal_nil {escaped : Bool} {rest : List Byte} (h : literal escaped rest = some []) :
    escaped = false ∧ ∃ rest', rest = 34 :: rest' := by
  cases rest with
  | nil => cases h
  | cons c rest' =>
      cases escaped with
      | true =>
          obtain ⟨v, hv, heq⟩ := Option.map_eq_some_iff.mp h
          cases heq
      | false =>
          rw [literal] at h
          by_cases hq : c = 34
          · exact ⟨rfl, rest', by rw [hq]⟩
          · rw [if_neg hq] at h
            obtain ⟨v, hv, heq⟩ := Option.map_eq_some_iff.mp h
            cases heq

/-- In two bytes there is one backslash that counts. -/
theorem literal_cons_cons {escaped : Bool} {rest u : List Byte} {a b : Byte}
    (h : literal escaped rest = some (a :: b :: u)) :
    ∃ escaped' rest', rest = a :: b :: rest' ∧ literal escaped' rest' = some u ∧
      skips escaped (a :: b :: u) ≤ skips escaped' u + 1 := by
  obtain ⟨rest₁, rfl, h₁, hskips₁⟩ := literal_cons h
  obtain ⟨rest₂, rfl, h₂, hskips₂⟩ := literal_cons h₁
  refine ⟨_, rest₂, rfl, h₂, ?_⟩
  rw [hskips₁, hskips₂]
  cases (!escaped && decide (a = 92)) with
  | false =>
      have hone := Bool.toNat_le (!false && decide (b = 92))
      simp only [Bool.toNat_false]
      omega
  | true => simp

theorem literal_drop {k : Nat} {escaped : Bool} {rest u : List Byte}
    (h : literal escaped rest = some u) (hk : 2 * k ≤ u.length) :
    ∃ escaped', literal escaped' (rest.drop (2 * k)) = some (u.drop (2 * k)) ∧
      skips escaped u ≤ skips escaped' (u.drop (2 * k)) + k := by
  induction k generalizing escaped rest u with
  | zero => exact ⟨escaped, h, Nat.le_refl _⟩
  | succ k ih =>
      obtain ⟨a, b, u, rfl⟩ := exists_two (l := u) (by omega)
      obtain ⟨escaped₁, rest, rfl, h₁, hskips⟩ := literal_cons_cons h
      obtain ⟨escaped₂, h₂, hskips'⟩ := ih h₁ (by simp only [List.length_cons] at hk; omega)
      exact ⟨escaped₂, h₂, by exact Nat.le_trans hskips (Nat.succ_le_succ hskips')⟩

theorem utf8Size_le_three {c : Char} (h : c.toNat < 0x10000) : c.utf8Size ≤ 3 := by
  rcases c.utf8Size_eq with hsize | hsize | hsize | hsize
  · omega
  · omega
  · omega
  · have hval : 0xFFFF < c.toNat :=
      UInt32.lt_iff_toNat_lt.mp (Char.utf8Size_eq_four_iff.mp hsize)
    omega

/-- A literal takes at least two bytes for each that it stands for. -/
theorem Literal.length {e bs : List Byte} (h : Literal e bs) :
    ∃ k, e.length = 2 * k ∧ 1 ≤ k ∧ bs.length ≤ k := by
  cases h with
  | noDigits h => exact ⟨3, rfl, by decide, by decide⟩
  | char h =>
      cases h with
      | unit hds =>
          rename_i c ds
          obtain ⟨x, y, z, w, rfl, hv⟩ := hex4_of_hex4 hds
          have hlt := hex4_lt x y z w
          refine ⟨3, rfl, by decide, ?_⟩
          rw [utf8, List.length_map, String.length_utf8EncodeChar]
          exact utf8Size_le_three (hv ▸ hlt)
      | pair hc hhigh hlow hds hes =>
          rename_i c high low ds es
          obtain ⟨x, y, z, w, rfl, hv⟩ := hex4_of_hex4 hds
          obtain ⟨x', y', z', w', rfl, hv'⟩ := hex4_of_hex4 hes
          refine ⟨6, rfl, by decide, ?_⟩
          rw [utf8, List.length_map, String.length_utf8EncodeChar]
          exact Nat.le_trans c.utf8Size_le_four (by decide)

/-- An escape takes two bytes for each that it stands for, and ends in the
literal or with its closing quote. -/
theorem escapeSequence_length {p inputEnd : Nat} {rest : List Byte}
    (hdrop : content.drop p = 92 :: rest) (hp : p < inputEnd) (hend : inputEnd < content.length) :
    ∃ r, escapeSequence content p inputEnd = .ok r ∧
      ∀ n bs, r = some (n, bs) →
        ∃ k, n = 2 * k ∧ 1 ≤ k ∧ bs.length ≤ k ∧ (k = 1 ∨ p + n ≤ inputEnd) := by
  have hlt : p + 1 < content.length := by omega
  obtain ⟨e, rest', hrest⟩ := exists_drop hlt
  rw [drop_succ hdrop] at hrest
  subst hrest
  have hshort : ∀ x : Byte, ∀ n bs, some (2, [x]) = some (n, bs) →
      ∃ k, n = 2 * k ∧ 1 ≤ k ∧ bs.length ≤ k ∧ (k = 1 ∨ p + n ≤ inputEnd) := by
    intro x n bs heq
    cases heq
    exact ⟨1, rfl, Nat.le_refl 1, Nat.le_refl 1, .inl rfl⟩
  unfold escapeSequence
  rw [byteAt_of_drop (show content.drop (p + 1) = e :: rest' from drop_succ hdrop)]
  simp only [bind, Except.bind]
  by_cases h1 : e = 98
  · exact ⟨_, if_pos h1, hshort 8⟩
  rw [if_neg h1]
  by_cases h2 : e = 102
  · exact ⟨_, if_pos h2, hshort 12⟩
  rw [if_neg h2]
  by_cases h3 : e = 110
  · exact ⟨_, if_pos h3, hshort 10⟩
  rw [if_neg h3]
  by_cases h4 : e = 114
  · exact ⟨_, if_pos h4, hshort 13⟩
  rw [if_neg h4]
  by_cases h5 : e = 116
  · exact ⟨_, if_pos h5, hshort 9⟩
  rw [if_neg h5]
  by_cases h6 : e = 34 ∨ e = 92 ∨ e = 47
  · exact ⟨_, if_pos h6, hshort e⟩
  rw [if_neg h6]
  by_cases h7 : e = 117
  · subst h7
    rw [if_pos rfl]
    obtain ⟨r, hr, hread⟩ := literal_of_utf16LiteralToUtf8 hdrop (Nat.le_of_lt hend)
    refine ⟨r, hr, ?_⟩
    intro n bs heq
    obtain ⟨f, more, hliteral, rfl, _, hroom⟩ := hread n bs heq
    obtain ⟨k, hlen, hk, hbs⟩ := hliteral.length
    exact ⟨k, hlen, hk, hbs, .inr hroom⟩
  · exact ⟨none, if_neg h7, nofun⟩

/-! ## The block is large enough -/

theorem push_ok {capacity : Nat} {output bytes : List Byte}
    (h : output.length + bytes.length ≤ capacity) :
    push capacity output bytes = .ok (output ++ bytes) := if_pos h

/-- The second loop, where the first one has found the closing quote: what is
left of the literal has room in what is left of the block, which has been
counted for `room` bytes. -/
structure Fits (content : List Byte) (inputEnd room p : Nat) (output : List Byte) : Prop where
  behind : p ≤ inputEnd + 1
  written : output.length ≤ room
  left : p ≤ inputEnd → ∃ escaped u, literal escaped (content.drop p) = some u ∧
    inputEnd = p + u.length ∧ output.length + u.length ≤ room + skips escaped u

theorem skips_le (escaped : Bool) (u : List Byte) : skips escaped u ≤ u.length := by
  induction u generalizing escaped with
  | nil => cases escaped <;> exact Nat.le_refl 0
  | cons b u ih =>
      cases escaped with
      | true => exact Nat.le_succ_of_le (ih false)
      | false =>
          rw [skips]
          split
          · exact Nat.succ_le_succ (ih true)
          · exact Nat.le_succ_of_le (ih false)

theorem Fits.plain {inputEnd room p : Nat} {output rest : List Byte} {b : Byte}
    (h : Fits content inputEnd room p output) (hp : p < inputEnd)
    (hdrop : content.drop p = b :: rest) (hb : b ≠ 92) :
    Fits content inputEnd room (p + 1) (output ++ [b]) := by
  obtain ⟨escaped, u, hu, hend, hroom⟩ := h.left (Nat.le_of_lt hp)
  cases u with
  | nil => simp at hend; omega
  | cons c u =>
      obtain ⟨rest', hrest, hu', hskips⟩ := literal_cons hu
      obtain ⟨rfl, rfl⟩ := List.cons_eq_cons.mp (hdrop.symm.trans hrest)
      rw [decide_eq_false hb, Bool.and_false] at hskips hu'
      rw [hskips, List.length_cons] at hroom
      rw [List.length_cons] at hend
      have hlen : (output ++ [b]).length = output.length + 1 := List.length_append
      have hskips_le := skips_le false u
      refine ⟨by omega, by rw [hlen]; simp at hroom; omega, fun _ => ⟨false, u, ?_, by omega, ?_⟩⟩
      · rw [drop_succ hdrop]
        exact hu'
      · rw [hlen]
        simp at hroom
        omega

theorem Fits.escape {inputEnd room p k : Nat} {output bytes rest : List Byte}
    (h : Fits content inputEnd room p output) (hp : p < inputEnd)
    (hdrop : content.drop p = 92 :: rest) (hk : 1 ≤ k) (hbytes : bytes.length ≤ k)
    (hroom : k = 1 ∨ p + 2 * k ≤ inputEnd) :
    Fits content inputEnd room (p + 2 * k) (output ++ bytes) := by
  obtain ⟨escaped, u, hu, hend, hleft⟩ := h.left (Nat.le_of_lt hp)
  have hlen : (output ++ bytes).length = output.length + bytes.length := List.length_append
  by_cases hinside : 2 * k ≤ u.length
  · obtain ⟨escaped', hu', hskips⟩ := literal_drop hu hinside
    rw [List.drop_drop] at hu'
    have hskips_le := skips_le escaped' (u.drop (2 * k))
    have hdroplen : (u.drop (2 * k)).length = u.length - 2 * k := List.length_drop
    refine ⟨by omega, by omega, fun _ => ⟨escaped', u.drop (2 * k), hu', by omega, by omega⟩⟩
  · -- the last byte is a backslash that the first loop has passed over
    obtain rfl : k = 1 := by omega
    have hone : u.length = 1 := by omega
    obtain ⟨b, rfl⟩ := List.length_eq_one_iff.mp hone
    obtain ⟨rest', hrest, hu', hskips⟩ := literal_cons hu
    obtain ⟨rfl, rfl⟩ := List.cons_eq_cons.mp (hdrop.symm.trans hrest)
    have hescaped := (literal_nil hu').1
    rw [hskips, hescaped] at hleft
    simp [skips] at hleft
    exact ⟨by omega, by omega, fun hle => absurd hle (by omega)⟩

theorem unescape_safe {inputEnd room rounds p : Nat} {output : List Byte}
    (hend : inputEnd < content.length) (h : Fits content inputEnd room p output)
    (hrounds : inputEnd + 1 < p + rounds) :
    ∃ r p', unescape content inputEnd (room + 2) rounds p output = .ok (r, p') ∧
      p' ≤ inputEnd + 1 ∧ ∀ out, r = some out → out.length ≤ room := by
  induction rounds generalizing p output with
  | zero => exact absurd h.behind (by omega)
  | succ rounds ih =>
      unfold unescape
      by_cases hp : p < inputEnd
      · have hlt : p < content.length := by omega
        obtain ⟨b, rest, hdrop⟩ := exists_drop hlt
        rw [if_pos hp, byteAt_of_drop hdrop]
        simp only [bind, Except.bind]
        by_cases hb : b = 92
        · subst hb
          rw [if_neg (not_not_intro rfl)]
          obtain ⟨r, hr, hlength⟩ := escapeSequence_length hdrop hp hend
          rw [hr]
          cases r with
          | none => exact ⟨none, p, rfl, by omega, nofun⟩
          | some r =>
              obtain ⟨n, bytes⟩ := r
              obtain ⟨k, rfl, hk, hbytes, hroom⟩ := hlength n bytes rfl
              have hnext := h.escape hp hdrop hk hbytes hroom
              have hlen : (output ++ bytes).length = output.length + bytes.length :=
                List.length_append
              have hwritten := hnext.written
              simp only [push_ok (show output.length + bytes.length ≤ room + 2 by omega)]
              exact ih hnext (by omega)
        · rw [if_pos hb]
          have hnext := h.plain hp hdrop hb
          have hlen : (output ++ [b]).length = output.length + [b].length := List.length_append
          have hwritten := hnext.written
          rw [push_ok (show output.length + [b].length ≤ room + 2 by omega)]
          exact ih hnext (by omega)
      · rw [if_neg hp]
        exact ⟨some output, p, rfl, h.behind, fun out heq => Option.some.inj heq ▸ h.written⟩

theorem literal_append {escaped : Bool} {rest u : List Byte} (h : literal escaped rest = some u) :
    ∃ rest', rest = u ++ 34 :: rest' := by
  induction u generalizing escaped rest with
  | nil =>
      obtain ⟨_, rest', rfl⟩ := literal_nil h
      exact ⟨rest', rfl⟩
  | cons b u ih =>
      obtain ⟨rest', rfl, h', _⟩ := literal_cons h
      obtain ⟨rest'', rfl⟩ := ih h'
      exact ⟨rest'', rfl⟩

end Scan

/-! ## parse_string -/

section ParseString

variable {dbl : Doubles} {content : List Byte}

/-- An item as the parser gets it: nothing in it yet but perhaps a name. -/
structure Item.Fresh {D : Type} (item : Item D) : Prop where
  valuestring : item.valuestring = none
  child : item.child = []
  isReference : item.isReference = false

theorem Item.Fresh.new (dbl : Doubles) : (Item.new dbl).Fresh := ⟨rfl, rfl, rfl⟩

/-- What a parser leaves behind that was called with this item: it stays in the
buffer, what it allocates is in the item or has been given back, and the item
is one of a value of its kind. -/
structure Parsed (content : List Byte) (Value : Json dbl.Double → Prop) (item : Item dbl.Double)
    (st : ParseState) (r : Option (Item dbl.Double)) (st' : ParseState) : Prop where
  offset_le : st'.offset ≤ content.length
  failed : r = none → st'.heap.live = st.heap.live
  parsed : ∀ item', r = some item' → st.offset < st'.offset ∧ st'.offset < content.length ∧
    st'.heap.live + item.blocks = st.heap.live + item'.blocks ∧
    ∃ v, item' = put dbl item v ∧ Value v

/-- Where the array ends with a NUL, what is no NUL does not reach its end. -/
theorem lt_length_of_drop {p : Nat} {w rest : List Byte} (hnul : content.getLast? = some 0)
    (hdrop : content.drop p = w ++ rest) (hw : (0 : Byte) ∉ w) (hp : p < content.length) :
    p + w.length < content.length := by
  have hlen := congrArg List.length hdrop
  rw [List.length_drop, List.length_append] at hlen
  cases rest with
  | cons b rest =>
      rw [List.length_cons] at hlen
      omega
  | nil =>
      rw [List.append_nil] at hdrop
      have hlast : w.getLast? = some 0 := by
        rw [← hdrop, List.getLast?_drop, if_neg (by omega), hnul]
      exact absurd (List.mem_of_getLast? hlast) hw

theorem parseString_safe (grants : Nat → Bool) (hnul : content.getLast? = some 0)
    (item : Item dbl.Double) (st : ParseState) (hitem : item.Fresh)
    (hoffset : st.offset < content.length) :
    ∃ r st', parseString grants content item st = .ok (r, st') ∧
      Parsed content (fun v => ∃ s, v = .string s) item st r st' := by
  obtain ⟨b, rest, hdrop⟩ := exists_drop hoffset
  unfold parseString
  rw [byteAt_of_drop hdrop, scanString_eq _ _ _ hoffset (by omega), drop_succ hdrop]
  simp only [bind, Except.bind]
  by_cases hb : b = 34
  swap
  · rw [if_pos hb]
    exact ⟨none, _, rfl, hoffset, fun _ => rfl, nofun⟩
  rw [if_neg (not_not_intro hb)]
  cases hliteral : literal false rest with
  | none => exact ⟨none, _, rfl, hoffset, fun _ => rfl, nofun⟩
  | some u =>
      obtain ⟨rest', hrest⟩ := literal_append hliteral
      have hlen := congrArg List.length hdrop
      rw [hrest, List.length_drop, List.length_cons, List.length_append, List.length_cons] at hlen
      have hquote : content.drop (st.offset + 1 + u.length) = [34] ++ rest' := by
        rw [← List.drop_drop, drop_succ hdrop, hrest, List.drop_left]
        rfl
      have hinside : st.offset + 1 + u.length + 1 < content.length :=
        lt_length_of_drop hnul hquote (by decide) (by omega)
      have hskips := skips_le false u
      have hcapacity : st.offset + 1 + u.length - st.offset - (0 + skips false u) + 1
          = (u.length - skips false u) + 2 := by omega
      simp only [Option.map_some, hcapacity]
      by_cases hgrants : grants st.heap.calls = true
      swap
      · rw [Heap.allocate_refused hgrants]
        exact ⟨none, _, rfl, hoffset, fun _ => rfl, nofun⟩
      rw [Heap.allocate_granted hgrants]
      have hfits : Fits content (st.offset + 1 + u.length) (u.length - skips false u)
          (st.offset + 1) [] := by
        refine ⟨by omega, Nat.zero_le _, fun _ => ⟨false, u, ?_, rfl, ?_⟩⟩
        · rw [drop_succ hdrop]
          exact hliteral
        · rw [List.length_nil]
          omega
      obtain ⟨r, p', hread, hp', hwritten⟩ := unescape_safe (by omega) hfits
        (show _ < st.offset + 1 + (content.length + 1) by omega)
      rw [hread]
      cases r with
      | none => exact ⟨none, _, rfl, by simp only; omega, fun _ => rfl, nofun⟩
      | some output =>
          have hfinal : output.length + [(0 : Byte)].length ≤ u.length - skips false u + 2 := by
            have := hwritten output rfl
            simp only [List.length_singleton]
            omega
          simp only [push_ok hfinal]
          refine ⟨some _, _, rfl, by simp only; omega, nofun, ?_⟩
          intro item' heq
          cases heq
          refine ⟨by simp only; omega, hinside, ?_, .string output, ?_, output, rfl⟩
          · rw [Item.blocks_eq, Item.blocks_eq, hitem.valuestring, hitem.isReference]
            simp
            omega
          · rw [put, CStr.at_append_nul]

end ParseString

/-! ## Strings of JSON -/

section Chars

variable {content : List Byte}

theorem hexValue_plain {b : Byte} {v : Nat} (h : hexValue b = some v) : b ≠ 34 ∧ b ≠ 92 := by
  constructor <;> rintro rfl <;> cases h

theorem literal_plain {b : Byte} {rest u : List Byte} (hb : b ≠ 34 ∧ b ≠ 92)
    (h : literal false rest = some u) :
    literal false (b :: rest) = some (b :: u) ∧ skips false (b :: u) = skips false u := by
  refine ⟨?_, if_neg hb.2⟩
  rw [literal, if_neg hb.1, decide_eq_false hb.2, h]
  rfl

theorem literal_escape {e : Byte} {rest u : List Byte} (h : literal false rest = some u) :
    literal false (92 :: e :: rest) = some (92 :: e :: u) ∧
      skips false (92 :: e :: u) = skips false u + 1 := by
  refine ⟨?_, rfl⟩
  rw [literal, if_neg (by decide), decide_eq_true rfl, literal, h]
  rfl

theorem literal_hex4 {v : Nat} {ds rest u : List Byte} (hds : Hex4 v ds)
    (h : literal false rest = some u) :
    literal false (92 :: 117 :: ds ++ rest) = some (92 :: 117 :: ds ++ u) ∧
      skips false (92 :: 117 :: ds ++ u) = skips false u + 1 := by
  cases hds with
  | digits ha hb hc hd =>
      obtain ⟨h1, s1⟩ := literal_plain (hexValue_plain hd) h
      obtain ⟨h2, s2⟩ := literal_plain (hexValue_plain hc) h1
      obtain ⟨h3, s3⟩ := literal_plain (hexValue_plain hb) h2
      obtain ⟨h4, s4⟩ := literal_plain (hexValue_plain ha) h3
      obtain ⟨h5, s5⟩ := literal_escape (e := 117) h4
      exact ⟨h5, s5.trans (by omega)⟩

/-- The first loop finds the end of a string of JSON, and leaves room for it. -/
theorem literal_chars {s t : List Byte} (h : Chars s t) (rest : List Byte) :
    literal false (t ++ 34 :: rest) = some t ∧ skips false t + s.length ≤ t.length := by
  induction h with
  | nil => exact ⟨rfl, Nat.le_refl 0⟩
  | plain hb hs ih =>
      rename_i b s t
      have hplain : b ≠ 34 ∧ b ≠ 92 := by
        simp only [isPlain, Bool.and_eq_true, decide_eq_true_eq] at hb
        exact ⟨hb.1.2, hb.2⟩
      obtain ⟨h1, h2⟩ := literal_plain hplain ih.1
      refine ⟨h1, ?_⟩
      rw [h2, List.length_cons, List.length_cons]
      omega
  | short he hs ih =>
      rename_i b e s t
      obtain ⟨h1, h2⟩ := literal_escape (e := e) ih.1
      refine ⟨h1, ?_⟩
      rw [h2, List.length_cons, List.length_cons, List.length_cons]
      omega
  | unicode he hs ih =>
      rename_i c e s t
      obtain ⟨k, hlen, hk, hbytes⟩ := (Literal.char he).length
      rw [List.length_append, List.length_append]
      cases he with
      | unit hds =>
          obtain ⟨h1, h2⟩ := literal_hex4 hds ih.1
          rw [List.append_assoc]
          refine ⟨h1, ?_⟩
          rw [h2]
          omega
      | pair hc hhigh hlow hds hes =>
          obtain ⟨h1, h2⟩ := literal_hex4 hes ih.1
          obtain ⟨h3, h4⟩ := literal_hex4 hds h1
          simp only [List.append_assoc, List.cons_append] at h1 h2 h3 h4 ⊢
          refine ⟨h3, ?_⟩
          simp only [List.length_append, List.length_cons] at hlen ⊢
          omega

theorem escapeSequence_short {p inputEnd : Nat} {b e : Byte} {rest : List Byte}
    (he : shortEscape e = some b) (hdrop : content.drop p = 92 :: e :: rest) :
    escapeSequence content p inputEnd = .ok (some (2, [b])) := by
  have hread : byteAt content (p + 1) = .ok e := byteAt_of_drop (drop_succ hdrop)
  unfold shortEscape at he
  unfold escapeSequence
  rw [hread]
  simp only [bind, Except.bind]
  split at he
  · next h =>
    cases he
    rcases h with rfl | rfl | rfl <;> rfl
  all_goals split at he
  · next h => cases he; subst h; rfl
  all_goals split at he
  · next h => cases he; subst h; rfl
  all_goals split at he
  · next h => cases he; subst h; rfl
  all_goals split at he
  · next h => cases he; subst h; rfl
  all_goals split at he
  · next h => cases he; subst h; rfl
  · cases he

/-- The second loop writes the string. -/
theorem unescape_chars {s t : List Byte} (h : Chars s t) {inputEnd capacity rounds p : Nat}
    {output more : List Byte} (hdrop : content.drop p = t ++ more) (hend : inputEnd = p + t.length)
    (hroom : output.length + s.length ≤ capacity) (hrounds : t.length < rounds) :
    unescape content inputEnd capacity rounds p output = .ok (some (output ++ s), inputEnd) := by
  induction h generalizing p output rounds with
  | nil =>
      obtain ⟨rounds, rfl⟩ := Nat.exists_eq_add_one_of_ne_zero (Nat.ne_zero_of_lt hrounds)
      rw [List.length_nil, Nat.add_zero] at hend
      rw [unescape, if_neg (by omega), List.append_nil, hend]
      rfl
  | plain hb hs ih =>
      rename_i b s t
      obtain ⟨rounds, rfl⟩ := Nat.exists_eq_add_one_of_ne_zero (Nat.ne_zero_of_lt hrounds)
      have hback : b ≠ 92 := by
        simp only [isPlain, Bool.and_eq_true, decide_eq_true_eq] at hb
        exact hb.2
      rw [List.length_cons] at hend hroom hrounds
      rw [unescape, if_pos (by omega), byteAt_of_drop hdrop]
      simp only [bind, Except.bind]
      rw [if_pos hback, push_ok (by rw [List.length_singleton]; omega)]
      have hlen : (output ++ [b]).length = output.length + 1 := List.length_append
      have hnext := ih (drop_succ hdrop) (by omega) (by rw [hlen]; omega)
        (show t.length < rounds by omega)
      rw [List.append_assoc] at hnext
      exact hnext
  | short he hs ih =>
      rename_i b e s t
      obtain ⟨rounds, rfl⟩ := Nat.exists_eq_add_one_of_ne_zero (Nat.ne_zero_of_lt hrounds)
      rw [List.length_cons, List.length_cons] at hend hrounds
      rw [List.length_cons] at hroom
      rw [unescape, if_pos (by omega), byteAt_of_drop hdrop]
      simp only [bind, Except.bind]
      rw [if_neg (not_not_intro rfl), escapeSequence_short he hdrop]
      simp only
      rw [push_ok (by rw [List.length_singleton]; omega)]
      have hlen : (output ++ [b]).length = output.length + 1 := List.length_append
      have hdrop' : content.drop (p + 2) = t ++ more := by
        rw [← List.drop_drop, hdrop]
        rfl
      have hnext := ih hdrop' (by omega) (by rw [hlen]; omega) (show t.length < rounds by omega)
      rw [List.append_assoc] at hnext
      exact hnext
  | unicode he hs ih =>
      rename_i c e s t
      obtain ⟨rounds, rfl⟩ := Nat.exists_eq_add_one_of_ne_zero (Nat.ne_zero_of_lt hrounds)
      obtain ⟨e', rfl⟩ : ∃ e', e = 92 :: 117 :: e' := by
        cases he with
        | unit => exact ⟨_, rfl⟩
        | pair => exact ⟨_, rfl⟩
      rw [List.append_assoc] at hdrop
      have hread := utf16LiteralToUtf8_of_literal (.char he) hdrop
        (show p + (92 :: 117 :: e').length ≤ inputEnd by rw [List.length_append] at hend; omega)
      have hsecond : byteAt content (p + 1) = .ok 117 := byteAt_of_drop (drop_succ hdrop)
      rw [List.length_append, List.length_cons] at hend hrounds
      rw [List.length_append] at hroom
      rw [unescape, if_pos (by omega), byteAt_of_drop hdrop]
      simp only [bind, Except.bind]
      have hescape : escapeSequence content p inputEnd
          = .ok (some ((92 :: 117 :: e').length, utf8 c)) := by
        unfold escapeSequence
        rw [hsecond]
        exact hread
      rw [if_neg (not_not_intro rfl), hescape]
      simp only
      rw [push_ok (by omega)]
      have hlen : (output ++ utf8 c).length = output.length + (utf8 c).length := List.length_append
      have hdrop' : content.drop (p + (92 :: 117 :: e').length) = t ++ more := by
        rw [← List.drop_drop, hdrop, List.drop_left]
      have hnext := ih hdrop' (by rw [List.length_cons]; omega) (by rw [hlen]; omega)
        (show t.length < rounds by omega)
      rw [List.append_assoc] at hnext
      exact hnext

end Chars

section ParseChars

variable {dbl : Doubles} {grants : Nat → Bool} {content : List Byte} {item : Item dbl.Double}

/-- A string of JSON is read as what it stands for. -/
theorem parseString_chars (st : ParseState) {s t more : List Byte} (h : Chars s t)
    (hdrop : content.drop st.offset = 34 :: t ++ 34 :: more)
    (hgrants : grants st.heap.calls = true) :
    parseString grants content item st
      = .ok (some (put dbl item (.string s)),
          ⟨st.offset + t.length + 2, ⟨st.heap.calls + 1, st.heap.live + 1⟩⟩) := by
  obtain ⟨hliteral, hskips⟩ := literal_chars h more
  have hlen := congrArg List.length hdrop
  rw [List.length_drop, List.length_append, List.length_cons, List.length_cons] at hlen
  have hcapacity : st.offset + 1 + t.length - st.offset - (0 + skips false t) + 1
      = (t.length - skips false t) + 2 := by omega
  have hsucc : content.drop (st.offset + 1) = t ++ 34 :: more := drop_succ hdrop
  have hread : unescape content (st.offset + 1 + t.length) (t.length - skips false t + 2)
      (content.length + 1) (st.offset + 1) [] = .ok (some ([] ++ s), st.offset + 1 + t.length) :=
    unescape_chars h hsucc rfl (by rw [List.length_nil]; omega) (by omega)
  unfold parseString
  rw [byteAt_of_drop hdrop, scanString_eq _ _ _ (by omega) (by omega), hsucc, hliteral]
  simp only [bind, Except.bind]
  rw [if_neg (not_not_intro rfl)]
  simp only [Option.map_some, hcapacity]
  rw [Heap.allocate_granted hgrants, hread]
  simp only [List.nil_append]
  rw [push_ok (by rw [List.length_singleton]; omega)]
  have hend : st.offset + 1 + t.length + 1 = st.offset + t.length + 2 := by omega
  simp only [Bool.not_true, Bool.false_eq_true, if_false, CStr.at_append_nul, hend, put]
  rfl

end ParseChars

end JsonRead

end BeEasy
