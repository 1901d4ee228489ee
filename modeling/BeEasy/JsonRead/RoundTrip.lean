import BeEasy.JsonRead.ParseText
import BeEasy.JsonRead.PrintText

/-!
# JsonRead — Round trips

What is printed is a text of JSON for the value of the item, so that the parser
makes an item of the same value from it. Raw items are left out, and what is
nested deeper than the parser goes is printed all the same, but not read back.
-/

namespace BeEasy

open CVerif

namespace JsonRead

/-- What libc promises of `sprintf` and `strtod` together: a number is spelled
with what the parser takes for one, seventeen digits are enough to read it
back, and fifteen are where the comparison says so. -/
structure Doubles.Recovers (dbl : Doubles) : Prop extends dbl.Sprintf where
  head : ∀ n d, n ≤ 17 → dbl.isFinite d = true →
    ∃ b rest, dbl.sprintfG n d = b :: rest ∧ startsNumber b = true
  chars : ∀ n d, n ≤ 17 → dbl.isFinite d = true → ∀ b ∈ dbl.sprintfG n d, isNumberChar b = true
  whole : ∀ n d, n ≤ 17 → dbl.isFinite d = true →
    (dbl.strtod (dbl.sprintfG n d)).2 = (dbl.sprintfG n d).length
  fifteen : ∀ d, dbl.isFinite d = true → dbl.eq (dbl.strtod (dbl.sprintfG 15 d)).1 d = true →
    (dbl.strtod (dbl.sprintfG 15 d)).1 = d
  seventeen : ∀ d, dbl.isFinite d = true → (dbl.strtod (dbl.sprintfG 17 d)).1 = d

theorem Doubles.Recovers.lexeme {dbl : Doubles} (h : dbl.Recovers) {d : dbl.Double}
    (hd : dbl.isFinite d = true) : dbl.Lexeme d (numberText dbl d) := by
  have hspelled : ∀ n, n ≤ 17 → (dbl.strtod (dbl.sprintfG n d)).1 = d →
      dbl.Lexeme d (dbl.sprintfG n d) := by
    intro n hn heq
    refine ⟨h.head n d hn hd, h.chars n d hn hd, ?_, Prod.ext heq (h.whole n d hn hd)⟩
    exact Nat.le_trans (h.length_le n d hn hd) (by decide)
  unfold numberText
  rw [hd]
  simp only [Bool.not_true, Bool.false_eq_true, if_false]
  split
  · exact hspelled 17 (by decide) (h.seventeen d hd)
  · next hsame =>
    simp only [Bool.or_eq_true, decide_eq_true_eq, Bool.not_eq_true', not_or,
      Bool.not_eq_false] at hsame
    exact hspelled 15 (by decide) (h.fifteen d hd hsame.2)

/-! ## Strings -/

theorem escapeOf_cases (b : Byte) :
    isPlain b = true ∧ escapeOf b = [b] ∨
      (∃ letter ∈ [34, 92, 98, 102, 110, 114, 116],
        shortEscape letter = some b ∧ escapeOf b = [92, letter]) ∨
      b < 32 ∧ escapeOf b
        = [92, 117, 48, 48, hexDigitOf (b.toNat / 16), hexDigitOf (b.toNat % 16)] := by
  revert b
  decide

theorem unicodeEscape_digits (b : Byte) : b < 32 →
    hexValue (hexDigitOf (b.toNat / 16)) = some (b.toNat / 16) ∧
      hexValue (hexDigitOf (b.toNat % 16)) = some (b.toNat % 16) ∧
      (Char.ofNat b.toNat).toNat = b.toNat ∧ utf8 (Char.ofNat b.toNat) = [b] := by
  revert b
  decide

theorem chars_escapeOf (b : Byte) {s t : List Byte} (h : Chars s t) :
    Chars (b :: s) (escapeOf b ++ t) := by
  rcases escapeOf_cases b with ⟨hplain, heq⟩ | ⟨letter, _, hletter, heq⟩ | ⟨hlt, heq⟩
  · rw [heq]
    exact .plain hplain h
  · rw [heq]
    exact .short hletter h
  · obtain ⟨hhigh, hlow, hchar, hutf8⟩ := unicodeEscape_digits b hlt
    have hvalue : ((0 * 16 + 0) * 16 + b.toNat / 16) * 16 + b.toNat % 16 = b.toNat := by omega
    have hdigits : Hex4 (((0 * 16 + 0) * 16 + b.toNat / 16) * 16 + b.toNat % 16)
        [48, 48, hexDigitOf (b.toNat / 16), hexDigitOf (b.toNat % 16)] :=
      .digits rfl rfl hhigh hlow
    have hunit : Hex4 (Char.ofNat b.toNat).toNat
        [48, 48, hexDigitOf (b.toNat / 16), hexDigitOf (b.toNat % 16)] := by
      rw [hchar]
      rwa [hvalue] at hdigits
    have hchars := Chars.unicode (.unit hunit) h
    rw [hutf8] at hchars
    rw [heq]
    exact hchars

theorem chars_flatMap (s : List Byte) : Chars s (s.flatMap escapeOf) := by
  induction s with
  | nil => exact .nil
  | cons b s ih => exact chars_escapeOf b ih

/-! ## Values -/

section Values

variable {dbl : Doubles} {format : Bool}

theorem white_tabs (n : Nat) : White (tabs n) := by
  intro b hb
  rw [List.eq_of_mem_replicate hb]
  rfl

/-- What the printer puts around the members, and between them, is white space
but for the marks. -/
theorem object_layout (format : Bool) (depth : Nat) (u : List Byte) :
    ∃ w e, White w ∧ White e ∧
      (if format then [123, 10] ++ u ++ (tabs depth ++ [125]) else 123 :: u ++ [125])
        = 123 :: (w ++ u ++ e) ++ [125] := by
  cases format with
  | false => exact ⟨[], [], .nil, .nil, by simp⟩
  | true => exact ⟨[10], tabs depth, by decide, white_tabs depth, by simp⟩

theorem comma_layout (format : Bool) : ∃ w, White w ∧ commaText format = 44 :: w := by
  cases format with
  | false => exact ⟨[], .nil, rfl⟩
  | true => exact ⟨[32], by decide, rfl⟩

theorem behind_layout (format : Bool) :
    White (behindText format false) ∧ ∃ w, White w ∧ behindText format true = 44 :: w := by
  cases format with
  | false => exact ⟨by decide, [], .nil, rfl⟩
  | true => exact ⟨by decide, [10], by decide, rfl⟩

theorem key_layout (format : Bool) (depth : Nat) (name : Option CStr) :
    ∃ a c, White a ∧ White c ∧ keyText format depth name = a ++ quoted name ++ 58 :: c := by
  cases format with
  | false => exact ⟨[], [], .nil, .nil, rfl⟩
  | true => exact ⟨tabs depth, [9], white_tabs depth, by decide, rfl⟩

mutual

theorem textOf_text (h : dbl.Recovers) (depth : Nat) :
    (item : Item dbl.Double) → ∀ t v, textOf dbl format depth item = some t →
      valueOf dbl item = some v → v.Text White dbl.Lexeme t
  | { type, valuestring, valuedouble, child, .. } => by
      intro t v ht hv
      cases type with
      | null => cases ht; cases hv; exact .null
      | false => cases ht; cases hv; exact .false
      | true => cases ht; cases hv; exact .true
      | number =>
          obtain rfl := Option.some.inj ht
          obtain rfl := Option.some.inj hv
          cases hfinite : dbl.isFinite valuedouble with
          | false =>
              rw [numberText, hfinite]
              exact .null
          | true => exact .number (h.lexeme hfinite)
      | raw => cases hv
      | string => cases ht; cases hv; exact .string (chars_flatMap _)
      | array =>
          obtain ⟨u, hu, ht⟩ := Option.bind_eq_some_iff.mp ht
          obtain ⟨vs, hvs, rfl⟩ := Option.map_eq_some_iff.mp hv
          obtain rfl := Option.some.inj ht
          cases child with
          | nil =>
              cases hu
              cases hvs
              exact .emptyArray (w := []) .nil
          | cons item items =>
              exact .array (elementsText_elements h _ (item :: items) u vs [] hu hvs nofun .nil)
      | object =>
          obtain ⟨u, hu, ht⟩ := Option.bind_eq_some_iff.mp ht
          obtain ⟨ms, hms, rfl⟩ := Option.map_eq_some_iff.mp hv
          obtain rfl := Option.some.inj ht
          obtain ⟨w, e, hw, he, heq⟩ := object_layout format depth u
          rw [heq]
          cases child with
          | nil =>
              cases hu
              cases hms
              rw [List.append_nil]
              exact .emptyObject (hw.append he)
          | cons item items =>
              exact .object (membersText_members h _ (item :: items) u ms w e hu hms nofun hw he)
      | invalid => cases hv

/-- With white space in front that is not the elements' own. -/
theorem elementsText_elements (h : dbl.Recovers) (depth : Nat) :
    (items : List (Item dbl.Double)) → ∀ t vs w, elementsText dbl format depth items = some t →
      elementsOf dbl items = some vs → items ≠ [] → White w →
        Json.Elements White dbl.Lexeme vs (w ++ t)
  | [] => fun _ _ _ _ _ hne => absurd rfl hne
  | item :: items => by
      intro t vs w ht hvs _ hw
      obtain ⟨u, hu, ht⟩ := Option.bind_eq_some_iff.mp ht
      obtain ⟨us, hus, ht⟩ := Option.bind_eq_some_iff.mp ht
      obtain rfl := Option.some.inj ht
      obtain ⟨v, hv, hvs⟩ := Option.bind_eq_some_iff.mp hvs
      obtain ⟨vs', hvs', hvs⟩ := Option.bind_eq_some_iff.mp hvs
      obtain rfl := Option.some.inj hvs
      have htext := textOf_text h depth item u v hu hv
      cases items with
      | nil =>
          cases hus
          cases hvs'
          have hone := Json.Elements.one hw htext .nil
          rw [List.append_assoc] at hone
          exact hone
      | cons next items =>
          obtain ⟨w', hw', hcomma⟩ := comma_layout format
          have hrest := elementsText_elements h depth (next :: items) us vs' w' hus hvs' nofun hw'
          have hcons := Json.Elements.cons hw htext .nil hrest
          rw [List.append_nil, List.append_assoc] at hcons
          rw [if_neg nofun, hcomma]
          exact hcons

theorem membersText_members (h : dbl.Recovers) (depth : Nat) :
    (items : List (Item dbl.Double)) → ∀ t ms w e, membersText dbl format depth items = some t →
      membersOf dbl items = some ms → items ≠ [] → White w → White e →
        Json.Members White dbl.Lexeme ms (w ++ t ++ e)
  | [] => fun _ _ _ _ _ _ hne => absurd rfl hne
  | item :: items => by
      intro t ms w e ht hms _ hw he
      obtain ⟨u, hu, ht⟩ := Option.bind_eq_some_iff.mp ht
      obtain ⟨us, hus, ht⟩ := Option.bind_eq_some_iff.mp ht
      obtain rfl := Option.some.inj ht
      obtain ⟨v, hv, hms⟩ := Option.bind_eq_some_iff.mp hms
      obtain ⟨ms', hms', hms⟩ := Option.bind_eq_some_iff.mp hms
      obtain rfl := Option.some.inj hms
      have htext := textOf_text h depth item u v hu hv
      obtain ⟨a, c, ha, hc, hkey⟩ := key_layout format depth item.string
      obtain ⟨hlast, w', hw', hmore⟩ := behind_layout format
      rw [hkey]
      cases items with
      | nil =>
          cases hus
          cases hms'
          have hone := Json.Members.one (hw.append ha) (chars_flatMap (bytesOf item.string)) .nil hc
            htext (hlast.append he)
          simpa [quoted] using hone
      | cons next items =>
          have hrest := membersText_members h depth (next :: items) us ms' w' e hus hms' nofun hw'
            he
          have hcons := Json.Members.cons (hw.append ha) (chars_flatMap (bytesOf item.string)) .nil
            hc htext .nil hrest
          rw [List.isEmpty_cons, Bool.not_false, hmore]
          simpa [quoted] using hcons

end

end Values

/-! ## Printed and parsed -/

theorem noNul_textOf {dbl : Doubles} (hsprintf : dbl.Sprintf) {format : Bool} {depth : Nat}
    {item : Item dbl.Double} {t : List Byte} (ht : textOf dbl format depth item = some t) :
    (0 : Byte) ∉ t := by
  have hprints : Prints ⟨fun _ => true, fun _ _ => 0, true⟩ format depth
      (printValue _ dbl item) (textOf dbl format depth item) :=
    printValue_prints hsprintf depth item
  rw [ht] at hprints
  exact hprints.2

theorem print_block {dbl : Doubles} (hsprintf : dbl.Sprintf) {hooks : Hooks}
    {item : Item dbl.Double} {format : Bool} {heap heap' : Heap} {block : List Byte}
    (hprint : print hooks dbl item format heap = .ok (some block, heap')) :
    ∃ t, textOf dbl format 0 item = some t ∧ block = t ++ [0] := by
  obtain ⟨printed, heap'', hprint', _, hblock⟩ := print_returned hsprintf hooks item format heap
  obtain ⟨rfl, -⟩ := Prod.ext_iff.mp (Except.ok.inj (hprint'.symm.trans hprint))
  exact hblock block rfl

theorem parse_textOf {dbl : Doubles} (h : dbl.Recovers) {item : Item dbl.Double} {format : Bool}
    {t : List Byte} (ht : textOf dbl format 0 item = some t) {v : Json dbl.Double}
    (hv : valueOf dbl item = some v) {grants : Nat → Bool} (hgrants : ∀ n, grants n = true)
    (requireNullTerminated : Bool) (heap : Heap) :
    ∃ result, parseWithOpts dbl grants (CStr.at (t ++ [0])) requireNullTerminated heap
        = .ok result ∧
      result.item = if v.depth ≤ CJSON_NESTING_LIMIT then some (itemOf dbl v) else none := by
  have hno := noNul_textOf h.toSprintf ht
  have doc : Document White dbl v t :=
    ⟨[], [], t, [], (List.append_nil t).symm, .inl rfl, .nil, textOf_text h 0 item t v ht hv, .nil⟩
  rw [CStr.at_append_nul, CStr.at_eq hno]
  obtain ⟨result, hparse, hitem, _⟩ := parseWithOpts_reads dbl hgrants ⟨t, hno⟩ v doc
    requireNullTerminated heap
  exact ⟨result, hparse, hitem⟩

section Value

variable {dbl : Doubles}

/-- The name is no part of the value. -/
theorem put_string (item : Item dbl.Double) (v : Json dbl.Double) :
    (put dbl item v).string = item.string := by
  cases v with
  | bool b => cases b <;> rfl
  | _ => rfl

mutual

/-- An item made from a value stands for it, but for what follows a NUL in a
string; the item of that value is the same one. -/
theorem valueOf_put : (v : Json dbl.Double) → (∀ n ∈ v.numbers, dbl.isFinite n = true) →
    ∀ item : Item dbl.Double, ∃ v', valueOf dbl (put dbl item v) = some v' ∧ v'.depth = v.depth ∧
      ∀ item', put dbl item' v' = put dbl item' v
  | .null, _, _ => ⟨.null, rfl, rfl, fun _ => rfl⟩
  | .bool true, _, _ => ⟨.bool true, rfl, rfl, fun _ => rfl⟩
  | .bool false, _, _ => ⟨.bool false, rfl, rfl, fun _ => rfl⟩
  | .number n, hn, _ => by
      refine ⟨.number n, ?_, rfl, fun _ => rfl⟩
      rw [put, valueOf]
      simp only [hn n List.mem_cons_self, if_true]
  | .string s, _, _ => by
      refine ⟨.string (stringAt s), rfl, rfl, fun item' => ?_⟩
      rw [put, put, CStr.at_stringAt]
  | .array vs, hn, _ => by
      obtain ⟨vs', hvs, hdepth, hput⟩ := elementsOf_putElements vs hn
      refine ⟨.array vs', ?_, congrArg (· + 1) hdepth, fun item' => ?_⟩
      · rw [put, valueOf]
        simp only [hvs, Option.map_some]
      · rw [put, put, hput]
  | .object ms, hn, _ => by
      obtain ⟨ms', hms, hdepth, hput⟩ := membersOf_putMembers ms hn
      refine ⟨.object ms', ?_, congrArg (· + 1) hdepth, fun item' => ?_⟩
      · rw [put, valueOf]
        simp only [hms, Option.map_some]
      · rw [put, put, hput]

theorem elementsOf_putElements : (vs : List (Json dbl.Double)) →
    (∀ n ∈ Json.numbersElements vs, dbl.isFinite n = true) →
      ∃ vs', elementsOf dbl (putElements dbl vs) = some vs' ∧
        Json.depthElements vs' = Json.depthElements vs ∧ putElements dbl vs' = putElements dbl vs
  | [], _ => ⟨[], rfl, rfl, rfl⟩
  | v :: vs, hn => by
      obtain ⟨v', hv, hdepth, hput⟩ := valueOf_put v
        (fun n hmem => hn n (List.mem_append_left _ hmem)) (Item.new dbl)
      obtain ⟨vs', hvs, hdepths, hputs⟩ := elementsOf_putElements vs
        fun n hmem => hn n (List.mem_append_right _ hmem)
      refine ⟨v' :: vs', ?_, ?_, ?_⟩
      · rw [putElements, elementsOf, hv, hvs]
        rfl
      · rw [Json.depthElements, Json.depthElements, hdepth, hdepths]
      · rw [putElements, putElements, hput, hputs]

theorem membersOf_putMembers : (ms : List (List Byte × Json dbl.Double)) →
    (∀ n ∈ Json.numbersMembers ms, dbl.isFinite n = true) →
      ∃ ms', membersOf dbl (putMembers dbl ms) = some ms' ∧
        Json.depthMembers ms' = Json.depthMembers ms ∧ putMembers dbl ms' = putMembers dbl ms
  | [], _ => ⟨[], rfl, rfl, rfl⟩
  | (k, v) :: ms, hn => by
      obtain ⟨v', hv, hdepth, hput⟩ := valueOf_put v
        (fun n hmem => hn n (List.mem_append_left _ hmem))
        { Item.new dbl with string := some (CStr.at k) }
      obtain ⟨ms', hms, hdepths, hputs⟩ := membersOf_putMembers ms
        fun n hmem => hn n (List.mem_append_right _ hmem)
      refine ⟨(stringAt k, v') :: ms', ?_, ?_, ?_⟩
      · rw [putMembers, membersOf, hv, hms, put_string]
        rfl
      · rw [Json.depthMembers, Json.depthMembers, hdepth, hdepths]
      · rw [putMembers, putMembers, CStr.at_stringAt, hput, hputs]

end

end Value

/-- What `cJSON_Print` makes of an item, with or without its format, is parsed
into an item of the same value, unless that is nested too deep: the printer
knows no limit. -/
theorem parse_print {dbl : Doubles} (h : dbl.Recovers) {hooks : Hooks} {item : Item dbl.Double}
    {format : Bool} {heap heap' : Heap} {block : List Byte}
    (hprint : print hooks dbl item format heap = .ok (some block, heap')) {v : Json dbl.Double}
    (hv : valueOf dbl item = some v) {grants : Nat → Bool} (hgrants : ∀ n, grants n = true)
    (requireNullTerminated : Bool) (heap₂ : Heap) :
    ∃ result, parseWithOpts dbl grants (CStr.at block) requireNullTerminated heap₂ = .ok result ∧
      result.item = if v.depth ≤ CJSON_NESTING_LIMIT then some (itemOf dbl v) else none := by
  obtain ⟨t, ht, rfl⟩ := print_block h.toSprintf hprint
  exact parse_textOf h ht hv hgrants requireNullTerminated heap₂

/-- An item that the parser has made, with numbers that are finite, is made again
from what is printed of it, with or without the format. -/
theorem parse_print_parse {dbl : Doubles} (h : dbl.Recovers) (hstrtod : dbl.StrtodInside)
    {value : CStr} {grants : Nat → Bool} {flag : Bool} {heap : Heap}
    {first : ParseResult dbl.Double} (hparse : parseWithOpts dbl grants value flag heap = .ok first)
    {item : Item dbl.Double} (hitem : first.item = some item)
    (hnumbers : ∀ v, item = itemOf dbl v → ∀ n ∈ v.numbers, dbl.isFinite n = true)
    {hooks : Hooks} {format : Bool} {heap₁ heap₂ : Heap} {block : List Byte}
    (hprint : print hooks dbl item format heap₁ = .ok (some block, heap₂))
    {grants' : Nat → Bool} (hgrants : ∀ n, grants' n = true) (flag' : Bool) (heap₃ : Heap) :
    ∃ second, parseWithOpts dbl grants' (CStr.at block) flag' heap₃ = .ok second ∧
      second.item = some item := by
  obtain ⟨_, hparse', hsound⟩ := parseWithOpts_sound hstrtod grants value flag heap
  obtain rfl := Except.ok.inj (hparse'.symm.trans hparse)
  obtain ⟨_, v, rfl, hdepth⟩ := hsound.parsed item hitem
  obtain ⟨v', hv', hdepth', hput⟩ := valueOf_put v (hnumbers v rfl) (Item.new dbl)
  obtain ⟨t, ht, rfl⟩ := print_block h.toSprintf hprint
  obtain ⟨second, hparse₂, hitem₂⟩ := parse_textOf h ht hv' hgrants flag' heap₃
  refine ⟨second, hparse₂, ?_⟩
  rw [hitem₂, hdepth', if_pos hdepth, itemOf, itemOf, hput]

theorem digits_recovers : digits.Recovers := by
  refine ⟨digits_sprintf, ?_, ?_, ?_, ?_, ?_⟩
  · exact fun _ d _ _ => (digits_lexeme d).head
  · exact fun _ d _ _ => (digits_lexeme d).chars
  · exact fun _ d _ _ => congrArg Prod.snd (digits_lexeme d).strtod
  · exact fun d _ _ => congrArg Prod.fst (digits_lexeme d).strtod
  · exact fun d _ => congrArg Prod.fst (digits_lexeme d).strtod

/-- `[1]`, as it is printed. -/
theorem print_oneInBrackets : ∃ heap,
    print ⟨fun _ => true, fun _ _ => 0, true⟩ digits
        (itemOf digits (.array [.number digits.one])) true ⟨0, 0⟩
      = .ok (some [91, 49, 93, 0], heap) :=
  print_granted digits_sprintf (fun _ => rfl) (t := [91, 49, 93]) (by rfl) (by decide) ⟨0, 0⟩

theorem parse_print_oneInBrackets :
    ∃ result, parseWithOpts digits (fun _ => true) (CStr.at [91, 49, 93, 0]) true ⟨0, 0⟩
        = .ok result ∧
      result.item = if Json.depth (.array [.number digits.one]) ≤ CJSON_NESTING_LIMIT
        then some (itemOf digits (.array [.number digits.one])) else none := by
  obtain ⟨heap, hprint⟩ := print_oneInBrackets
  exact parse_print digits_recovers hprint rfl (fun _ => rfl) true ⟨0, 0⟩

theorem parse_print_parse_oneInBrackets :
    ∃ second, parseWithOpts digits (fun _ => true) (CStr.at [91, 49, 93, 0]) true ⟨0, 0⟩
        = .ok second ∧ second.item = some (itemOf digits (.array [.number digits.one])) := by
  have hparse : parseWithOpts digits (fun _ => true) ⟨[91, 49, 93], by decide⟩ false ⟨0, 0⟩
      = .ok ⟨some (itemOf digits (.array [.number digits.one])), 3, ⟨2, 2⟩⟩ := by rfl
  obtain ⟨heap, hprint⟩ := print_oneInBrackets
  exact parse_print_parse digits_recovers digits_strtodInside hparse rfl (fun _ _ _ _ => rfl)
    hprint (fun _ => rfl) true ⟨0, 0⟩

end JsonRead

end BeEasy
