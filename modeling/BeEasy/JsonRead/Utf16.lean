import BeEasy.JsonRead.Item

/-!
# JsonRead — UTF-16 literals

`parse_hex4` and `utf16_literal_to_utf8`: the escape of a character, decoded
by hand. What comes out is the UTF-8 of the character, and the halves of
surrogate pairs on their own are refused. Digits are not: `parse_hex4` answers
0 when one of its four is none, so such an escape is taken for U+0000.
-/

namespace BeEasy

open CVerif

namespace JsonRead

/-- A byte of the input, which is what an array of `length` bytes holds. -/
def byteAt (content : List Byte) (i : Nat) : Except Stop Byte :=
  match content[i]? with
  | some b => .ok b
  | none => .error .outOfBounds

/-! ## parse_hex4 -/

def hexDigit (c : Byte) : Option (BitVec 32) :=
  if 48 ≤ c ∧ c ≤ 57 then some (c.setWidth 32 - 48)
  else if 65 ≤ c ∧ c ≤ 70 then some (10 + c.setWidth 32 - 65)
  else if 97 ≤ c ∧ c ≤ 102 then some (10 + c.setWidth 32 - 97)
  else none

/-- The rounds of `parse_hex4` that are left. -/
def parseHex4From (content : List Byte) (input : Nat) :
    Nat → Nat → BitVec 32 → Except Stop (BitVec 32)
  | 0, _, h => return h
  | rounds + 1, i, h => do
      let c ← byteAt content (input + i)
      match hexDigit c with
      | none => return 0
      | some digit =>
          -- shift left to make place for the next nibble
          parseHex4From content input rounds (i + 1)
            (if i < 3 then (h + digit) <<< 4 else h + digit)

def parseHex4 (content : List Byte) (input : Nat) : Except Stop (BitVec 32) :=
  parseHex4From content input 4 0 0

/-! ## utf16_literal_to_utf8 -/

/-- The loop that encodes all bytes but the first, from the back. -/
def encodeTail : Nat → BitVec 64 → List Byte → BitVec 64 × List Byte
  | 0, codepoint, bytes => (codepoint, bytes)
  | utf8Position + 1, codepoint, bytes =>
      encodeTail utf8Position (codepoint >>> 6)
        (((codepoint ||| 0x80) &&& 0xBF).setWidth 8 :: bytes)

def encodeUtf8 (utf8Length : Nat) (firstByteMark codepoint : BitVec 64) : List Byte :=
  let (codepoint, bytes) := encodeTail (utf8Length - 1) codepoint []
  if utf8Length > 1 then ((codepoint ||| firstByteMark) &&& 0xFF).setWidth 8 :: bytes
  else (codepoint &&& 0x7F).setWidth 8 :: bytes

/-- The length of the literal and its UTF-8, if the code point has one. -/
def encode (sequenceLength : Nat) (codepoint : BitVec 64) : Option (Nat × List Byte) :=
  if codepoint < 0x80 then some (sequenceLength, encodeUtf8 1 0 codepoint)
  else if codepoint < 0x800 then some (sequenceLength, encodeUtf8 2 0xC0 codepoint)
  else if codepoint < 0x10000 then some (sequenceLength, encodeUtf8 3 0xE0 codepoint)
  else if codepoint ≤ 0x10FFFF then some (sequenceLength, encodeUtf8 4 0xF0 codepoint)
  else none

/-- The second half of a surrogate pair, if there is one. -/
def secondSequence (content : List Byte) (second inputEnd : Nat) :
    Except Stop (Option (BitVec 32)) := do
  if inputEnd - second < 6 then return none
  if (← byteAt content second) ≠ 92 then return none
  if (← byteAt content (second + 1)) ≠ 117 then return none
  let secondCode ← parseHex4 content (second + 2)
  if secondCode < 0xDC00 ∨ secondCode > 0xDFFF then return none
  return some secondCode

/-- The length of the literal at `first` and the bytes it stands for. -/
def utf16LiteralToUtf8 (content : List Byte) (first inputEnd : Nat) :
    Except Stop (Option (Nat × List Byte)) := do
  if inputEnd - first < 6 then return none
  let firstCode ← parseHex4 content (first + 2)
  if 0xDC00 ≤ firstCode ∧ firstCode ≤ 0xDFFF then return none
  if 0xD800 ≤ firstCode ∧ firstCode ≤ 0xDBFF then
    match ← secondSequence content (first + 6) inputEnd with
    | none => return none
    | some secondCode =>
        let codepoint := 0x10000#32 + (((firstCode &&& 0x3FF) <<< 10) ||| (secondCode &&& 0x3FF))
        return encode 12 (codepoint.setWidth 64)
  else return encode 6 (firstCode.setWidth 64)

/-! ## Reading -/

theorem byteAt_add (content : List Byte) (p i : Nat) :
    byteAt content (p + i) = byteAt (content.drop p) i := by
  rw [byteAt, byteAt, List.getElem?_drop]

theorem hexDigit_eq (c : Byte) : hexDigit c = (hexValue c).map (BitVec.ofNat 32) := by
  have hwide : (c.setWidth 32).toNat = c.toNat := by
    rw [BitVec.toNat_setWidth]
    omega
  unfold hexDigit hexValue
  split
  · rw [Option.map_some, Option.some_inj]
    bv_omega
  · split
    · rw [Option.map_some, Option.some_inj]
      bv_omega
    · split
      · rw [Option.map_some, Option.some_inj]
        bv_omega
      · rfl

theorem hexValue_lt {c : Byte} {v : Nat} (h : hexValue c = some v) : v < 16 := by
  unfold hexValue at h
  split at h
  · cases h
    bv_omega
  · split at h
    · cases h
      bv_omega
    · split at h
      · cases h
        bv_omega
      · cases h

/-- The number that four hexadecimal digits are, and 0 for anything else. -/
def hex4 (a b c d : Byte) : Nat :=
  match hexValue a, hexValue b, hexValue c, hexValue d with
  | some i, some j, some k, some l => ((i * 16 + j) * 16 + k) * 16 + l
  | _, _, _, _ => 0

theorem parseHex4_eq {content : List Byte} {input : Nat} {a b c d : Byte} {rest : List Byte}
    (h : content.drop input = a :: b :: c :: d :: rest) :
    parseHex4 content input = .ok (BitVec.ofNat 32 (hex4 a b c d)) := by
  have hread : ∀ i, byteAt content (input + i) = byteAt (a :: b :: c :: d :: rest) i := by
    intro i
    rw [byteAt_add, h]
  simp only [parseHex4, parseHex4From, hread]
  simp only [byteAt, List.getElem?_cons_zero, List.getElem?_cons_succ, hexDigit_eq, hex4,
    bind, Except.bind, pure, Except.pure]
  cases ha : hexValue a with
  | none => rfl
  | some i =>
  cases hb : hexValue b with
  | none => rfl
  | some j =>
  cases hc : hexValue c with
  | none => rfl
  | some k =>
  cases hd : hexValue d with
  | none => rfl
  | some l =>
    have hi := hexValue_lt ha
    have hj := hexValue_lt hb
    have hk := hexValue_lt hc
    have hl := hexValue_lt hd
    simp only [Option.map_some]
    congr 1
    apply BitVec.eq_of_toNat_eq
    simp
    omega

theorem tail_byte (x : BitVec 64) :
    ((x ||| 0x80) &&& 0xBF).setWidth 8 = BitVec.ofNat 8 (x.toNat % 64 + 0x80) := by
  have hbyte : ∀ y : BitVec 8, (y ||| 0x80) &&& 0xBF = BitVec.ofNat 8 (y.toNat % 64 + 0x80) := by
    decide
  have hlow : (x.setWidth 8).toNat % 64 = x.toNat % 64 := by
    rw [BitVec.toNat_setWidth]
    omega
  rw [← hlow, ← hbyte, BitVec.setWidth_and, BitVec.setWidth_or]
  rfl

/-- The first byte of more than one: the bits that are left, under the mark. -/
theorem first_byte {x : BitVec 64} {m : Byte} {n : Nat} (hx : x.toNat < n)
    (hm : ∀ y : Byte, y.toNat < n → (y ||| m) &&& 0xFF = BitVec.ofNat 8 (y.toNat + m.toNat))
    (hn : n ≤ 256) :
    ((x ||| m.setWidth 64) &&& 0xFF).setWidth 8 = BitVec.ofNat 8 (x.toNat + m.toNat) := by
  have hlow : (x.setWidth 8).toNat = x.toNat := by
    rw [BitVec.toNat_setWidth]
    omega
  rw [← hlow, ← hm _ (hlow.symm ▸ hx), BitVec.setWidth_and, BitVec.setWidth_or,
    BitVec.setWidth_setWidth_of_le _ (by decide)]
  rfl

theorem toNat_shift (x : BitVec 64) : (x >>> 6).toNat = x.toNat / 64 := by
  rw [BitVec.toNat_ushiftRight, Nat.shiftRight_eq_div_pow]

theorem encodeUtf8_one {x : BitVec 64} (hx : x.toNat < 0x80) :
    encodeUtf8 1 0 x = [BitVec.ofNat 8 x.toNat] := by
  have hbyte : (x &&& 0x7F).toNat = x.toNat := by
    rw [BitVec.toNat_and]
    exact Nat.and_two_pow_sub_one_of_lt_two_pow (n := 7) hx
  refine congrArg (· :: []) (BitVec.eq_of_toNat_eq ?_)
  rw [BitVec.toNat_setWidth, hbyte, BitVec.toNat_ofNat]

theorem encodeUtf8_two {x : BitVec 64} (hx : x.toNat < 0x800) :
    encodeUtf8 2 0xC0 x
      = [BitVec.ofNat 8 (x.toNat / 64 + 0xC0), BitVec.ofNat 8 (x.toNat % 64 + 0x80)] := by
  have hfirst := first_byte (x := x >>> 6) (m := 0xC0) (n := 32)
    (by rw [toNat_shift]; omega) (by decide) (by decide)
  rw [toNat_shift] at hfirst
  exact congrArg₂ (fun a b => [a, b]) hfirst (tail_byte x)

theorem encodeUtf8_three {x : BitVec 64} (hx : x.toNat < 0x10000) :
    encodeUtf8 3 0xE0 x
      = [BitVec.ofNat 8 (x.toNat / 4096 + 0xE0), BitVec.ofNat 8 (x.toNat / 64 % 64 + 0x80),
        BitVec.ofNat 8 (x.toNat % 64 + 0x80)] := by
  have hfirst := first_byte (x := x >>> 6 >>> 6) (m := 0xE0) (n := 16)
    (by rw [toNat_shift, toNat_shift]; omega) (by decide) (by decide)
  have hsecond := tail_byte (x >>> 6)
  rw [toNat_shift] at hsecond
  rw [toNat_shift, toNat_shift, Nat.div_div_eq_div_mul] at hfirst
  exact List.cons_eq_cons.mpr ⟨hfirst, List.cons_eq_cons.mpr ⟨hsecond,
    congrArg (· :: []) (tail_byte x)⟩⟩

theorem encodeUtf8_four {x : BitVec 64} (hx : x.toNat < 0x200000) :
    encodeUtf8 4 0xF0 x
      = [BitVec.ofNat 8 (x.toNat / 262144 + 0xF0), BitVec.ofNat 8 (x.toNat / 4096 % 64 + 0x80),
        BitVec.ofNat 8 (x.toNat / 64 % 64 + 0x80), BitVec.ofNat 8 (x.toNat % 64 + 0x80)] := by
  have hfirst := first_byte (x := x >>> 6 >>> 6 >>> 6) (m := 0xF0) (n := 8)
    (by rw [toNat_shift, toNat_shift, toNat_shift]; omega) (by decide) (by decide)
  have hsecond := tail_byte (x >>> 6 >>> 6)
  have hthird := tail_byte (x >>> 6)
  rw [toNat_shift] at hthird
  rw [toNat_shift, toNat_shift, Nat.div_div_eq_div_mul] at hsecond
  rw [toNat_shift, toNat_shift, toNat_shift, Nat.div_div_eq_div_mul, Nat.div_div_eq_div_mul]
    at hfirst
  exact List.cons_eq_cons.mpr ⟨hfirst, List.cons_eq_cons.mpr ⟨hsecond,
    List.cons_eq_cons.mpr ⟨hthird, congrArg (· :: []) (tail_byte x)⟩⟩⟩

/-- A character is no half of a surrogate pair. -/
theorem char_range (c : Char) :
    c.toNat < 0xD800 ∨ 0xDFFF < c.toNat ∧ c.toNat < 0x110000 := c.valid

theorem encode_char (n : Nat) (c : Char) :
    encode n (BitVec.ofNat 64 c.toNat) = some (n, utf8 c) := by
  have hrange := char_range c
  have hval : (BitVec.ofNat 64 c.toNat).toNat = c.toNat := by
    rw [BitVec.toNat_ofNat]
    omega
  generalize BitVec.ofNat 64 c.toNat = x at hval
  have htoNat : c.val.toNat = c.toNat := rfl
  have hlt : ∀ k : BitVec 64, x < k ↔ c.toNat < k.toNat := fun k => by rw [BitVec.lt_def, hval]
  have hle : ∀ k : BitVec 64, x ≤ k ↔ c.toNat ≤ k.toNat := fun k => by rw [BitVec.le_def, hval]
  unfold encode utf8 String.utf8EncodeChar
  simp only [hlt, hle, htoNat, BitVec.reduceToNat]
  by_cases h1 : c.toNat < 0x80
  · rw [if_pos h1, if_pos (Nat.le_of_lt_succ h1), encodeUtf8_one (hval.symm ▸ h1), hval]
    rfl
  rw [if_neg h1, if_neg (show ¬c.toNat ≤ 0x7F by omega)]
  by_cases h2 : c.toNat < 0x800
  · rw [if_pos h2, if_pos (Nat.le_of_lt_succ h2), encodeUtf8_two (hval.symm ▸ h2), hval,
      Nat.mod_eq_of_lt (show c.toNat / 64 < 0x20 by omega)]
    rfl
  rw [if_neg h2, if_neg (show ¬c.toNat ≤ 0x7FF by omega)]
  by_cases h3 : c.toNat < 0x10000
  · rw [if_pos h3, if_pos (Nat.le_of_lt_succ h3), encodeUtf8_three (hval.symm ▸ h3), hval,
      Nat.mod_eq_of_lt (show c.toNat / 4096 < 0x10 by omega)]
    rfl
  rw [if_neg h3, if_neg (show ¬c.toNat ≤ 0xFFFF by omega), if_pos (by omega),
    encodeUtf8_four (by omega), hval, Nat.mod_eq_of_lt (show c.toNat / 262144 < 0x08 by omega)]
  rfl

/-! ## What a literal stands for -/

/-- What is taken for a literal, and the bytes it is taken for: the escape of
a character, or an escape without four digits. -/
inductive Literal : List Byte → List Byte → Prop
  | char {c : Char} {e : List Byte} (h : CharEscape c e) : Literal e (utf8 c)
  | noDigits {a b c d : Byte} (h : ∀ v, ¬Hex4 v [a, b, c, d]) : Literal [92, 117, a, b, c, d] [0]

theorem hex4_of_digits {v : Nat} {a b c d : Byte} (h : Hex4 v [a, b, c, d]) : hex4 a b c d = v := by
  cases h with
  | digits ha hb hc hd => simp only [hex4, ha, hb, hc, hd]

theorem hex4_of_hex4 {v : Nat} {ds : List Byte} (h : Hex4 v ds) :
    ∃ a b c d, ds = [a, b, c, d] ∧ hex4 a b c d = v := by
  cases h with
  | digits ha hb hc hd => exact ⟨_, _, _, _, rfl, hex4_of_digits (.digits ha hb hc hd)⟩

theorem hex4_cases (a b c d : Byte) :
    Hex4 (hex4 a b c d) [a, b, c, d] ∨ hex4 a b c d = 0 ∧ ∀ v, ¬Hex4 v [a, b, c, d] := by
  cases ha : hexValue a with
  | none => exact .inr ⟨by simp only [hex4, ha], fun v h => by cases h; simp_all⟩
  | some i =>
  cases hb : hexValue b with
  | none => exact .inr ⟨by simp only [hex4, ha, hb], fun v h => by cases h; simp_all⟩
  | some j =>
  cases hc : hexValue c with
  | none => exact .inr ⟨by simp only [hex4, ha, hb, hc], fun v h => by cases h; simp_all⟩
  | some k =>
  cases hd : hexValue d with
  | none => exact .inr ⟨by simp only [hex4, ha, hb, hc, hd], fun v h => by cases h; simp_all⟩
  | some l =>
    have h := Hex4.digits ha hb hc hd
    exact .inl (by rw [hex4_of_digits h]; exact h)

theorem hex4_lt (a b c d : Byte) : hex4 a b c d < 0x10000 := by
  rcases hex4_cases a b c d with h | ⟨h, _⟩
  · generalize hex4 a b c d = v at h
    cases h with
    | digits ha hb hc hd =>
        have := hexValue_lt ha
        have := hexValue_lt hb
        have := hexValue_lt hc
        have := hexValue_lt hd
        omega
  · rw [h]
    decide

/-- The code point of a surrogate pair. -/
theorem pair_codepoint {v w : Nat} (hv : v < 0x10000) (hw : w < 0x10000) :
    (0x10000#32
        + (((BitVec.ofNat 32 v &&& 0x3FF) <<< 10) ||| (BitVec.ofNat 32 w &&& 0x3FF))).setWidth 64
      = BitVec.ofNat 64 (0x10000 + v % 1024 * 1024 + w % 1024) := by
  have hmask : ∀ u, u < 0x10000 → (BitVec.ofNat 32 u &&& 0x3FF).toNat = u % 1024 := by
    intro u hu
    rw [BitVec.toNat_and, BitVec.toNat_ofNat, Nat.mod_eq_of_lt (by omega)]
    exact Nat.and_two_pow_sub_one_eq_mod u 10
  have hlow : w % 1024 < 2 ^ 10 := Nat.mod_lt _ (by decide)
  have hor : ((BitVec.ofNat 32 v &&& 0x3FF) <<< 10 ||| (BitVec.ofNat 32 w &&& 0x3FF)).toNat
      = v % 1024 * 1024 + w % 1024 := by
    rw [BitVec.toNat_or, BitVec.toNat_shiftLeft, hmask v hv, hmask w hw, Nat.mod_eq_of_lt,
      ← Nat.shiftLeft_add_eq_or_of_lt hlow, Nat.shiftLeft_eq]
    rw [Nat.shiftLeft_eq]
    omega
  apply BitVec.eq_of_toNat_eq
  rw [BitVec.toNat_setWidth, BitVec.toNat_add, hor, BitVec.toNat_ofNat, BitVec.toNat_ofNat]
  omega

section Literals

variable {content : List Byte} {first inputEnd : Nat}

theorem toNat_hex4 (a b c d : Byte) : (BitVec.ofNat 32 (hex4 a b c d)).toNat = hex4 a b c d := by
  have hlt := hex4_lt a b c d
  rw [BitVec.toNat_ofNat]
  omega

theorem secondSequence_eq {second : Nat} {x y a b c d : Byte} {more : List Byte}
    (hdrop : content.drop second = x :: y :: a :: b :: c :: d :: more)
    (hroom : second + 6 ≤ inputEnd) :
    secondSequence content second inputEnd
      = .ok (if x = 92 ∧ y = 117 ∧ 0xDC00 ≤ hex4 a b c d ∧ hex4 a b c d ≤ 0xDFFF
          then some (BitVec.ofNat 32 (hex4 a b c d)) else none) := by
  have hx : byteAt content second = .ok x := by
    rw [← Nat.add_zero second, byteAt_add, hdrop]
    rfl
  have hy : byteAt content (second + 1) = .ok y := by
    rw [byteAt_add, hdrop]
    rfl
  have hhex : content.drop (second + 2) = a :: b :: c :: d :: more := by
    rw [← List.drop_drop, hdrop]
    rfl
  have hval := toNat_hex4 a b c d
  have hrange : (BitVec.ofNat 32 (hex4 a b c d) < 0xDC00 ∨ BitVec.ofNat 32 (hex4 a b c d) > 0xDFFF)
      ↔ ¬(0xDC00 ≤ hex4 a b c d ∧ hex4 a b c d ≤ 0xDFFF) := by
    rw [gt_iff_lt, BitVec.lt_def, BitVec.lt_def, hval]
    simp only [BitVec.reduceToNat]
    omega
  unfold secondSequence
  rw [if_neg (by omega), hx, hy, parseHex4_eq hhex]
  simp only [bind, Except.bind, pure, Except.pure, hrange]
  by_cases h1 : x = 92
  · by_cases h2 : y = 117
    · by_cases h3 : 0xDC00 ≤ hex4 a b c d ∧ hex4 a b c d ≤ 0xDFFF
      · rw [if_neg (not_not_intro h1), if_neg (not_not_intro h2), if_neg (not_not_intro h3),
          if_pos ⟨h1, h2, h3⟩]
      · rw [if_neg (not_not_intro h1), if_neg (not_not_intro h2), if_pos h3,
          if_neg fun h => h3 h.2.2]
    · rw [if_neg (not_not_intro h1), if_pos h2, if_neg fun h => h2 h.2.1]
  · rw [if_pos h1, if_neg fun h => h1 h.1]

theorem utf16LiteralToUtf8_eq {a b c d : Byte} {more : List Byte}
    (hdrop : content.drop first = 92 :: 117 :: a :: b :: c :: d :: more)
    (hroom : first + 6 ≤ inputEnd) :
    utf16LiteralToUtf8 content first inputEnd =
      if 0xDC00 ≤ hex4 a b c d ∧ hex4 a b c d ≤ 0xDFFF then .ok none
      else if 0xD800 ≤ hex4 a b c d ∧ hex4 a b c d ≤ 0xDBFF then do
        match ← secondSequence content (first + 6) inputEnd with
        | none => return none
        | some secondCode =>
            let firstCode := BitVec.ofNat 32 (hex4 a b c d)
            let codepoint :=
              0x10000#32 + (((firstCode &&& 0x3FF) <<< 10) ||| (secondCode &&& 0x3FF))
            return encode 12 (codepoint.setWidth 64)
      else .ok (encode 6 (BitVec.ofNat 64 (hex4 a b c d))) := by
  have hhex : content.drop (first + 2) = a :: b :: c :: d :: more := by
    rw [← List.drop_drop, hdrop]
    rfl
  have hval := toNat_hex4 a b c d
  have hwide : (BitVec.ofNat 32 (hex4 a b c d)).setWidth 64 = BitVec.ofNat 64 (hex4 a b c d) := by
    apply BitVec.eq_of_toNat_eq
    rw [BitVec.toNat_setWidth, hval, BitVec.toNat_ofNat]
  unfold utf16LiteralToUtf8
  rw [if_neg (by omega), parseHex4_eq hhex]
  simp only [bind, Except.bind, pure, Except.pure, BitVec.le_def, hval, hwide, BitVec.reduceToNat]

theorem exists_char {v : Nat} (h : v < 0xD800 ∨ 0xDFFF < v ∧ v < 0x110000) :
    ∃ c : Char, c.toNat = v := by
  refine ⟨Char.ofNat v, ?_⟩
  rw [Char.ofNat, dif_pos h]
  rfl

/-- The escape of a character is read as its UTF-8, and an escape without digits
as a NUL. -/
theorem utf16LiteralToUtf8_of_literal {e bs more : List Byte} (h : Literal e bs)
    (hdrop : content.drop first = e ++ more) (hroom : first + e.length ≤ inputEnd) :
    utf16LiteralToUtf8 content first inputEnd = .ok (some (e.length, bs)) := by
  cases h with
  | noDigits h =>
      rename_i a b c d
      rw [utf16LiteralToUtf8_eq hdrop hroom]
      obtain hdigits | ⟨hzero, _⟩ := hex4_cases a b c d
      · exact absurd hdigits (h _)
      · rw [hzero]
        rfl
  | char h =>
      cases h with
      | unit hds =>
          rename_i c ds
          obtain ⟨x, y, z, w, rfl, hv⟩ := hex4_of_hex4 hds
          have hrange := char_range c
          rw [utf16LiteralToUtf8_eq hdrop hroom, hv, if_neg (by omega), if_neg (by omega),
            encode_char]
          rfl
      | pair hc hhigh hlow hds hes =>
          rename_i c high low ds es
          obtain ⟨x, y, z, w, rfl, hv⟩ := hex4_of_hex4 hds
          obtain ⟨x', y', z', w', rfl, hv'⟩ := hex4_of_hex4 hes
          have hsecond : content.drop (first + 6) = 92 :: 117 :: x' :: y' :: z' :: w' :: more := by
            rw [← List.drop_drop, hdrop]
            rfl
          have hroom' : first + 12 ≤ inputEnd := hroom
          rw [utf16LiteralToUtf8_eq hdrop (by omega), hv, if_neg (by omega), if_pos (by omega),
            secondSequence_eq hsecond (by omega), if_pos ⟨rfl, rfl, by omega, by omega⟩, hv']
          have hcode : 0x10000 + (0xD800 + high) % 1024 * 1024 + (0xDC00 + low) % 1024
              = c.toNat := by
            omega
          refine congrArg Except.ok ?_
          rw [pair_codepoint (by omega) (by omega), hcode, encode_char]
          rfl

theorem exists_four {l : List Byte} (h : 4 ≤ l.length) :
    ∃ a b c d more, l = a :: b :: c :: d :: more := by
  match l, h with
  | a :: b :: c :: d :: more, _ => exact ⟨a, b, c, d, more, rfl⟩

theorem exists_two {l : List Byte} (h : 2 ≤ l.length) : ∃ a b more, l = a :: b :: more := by
  match l, h with
  | a :: b :: more, _ => exact ⟨a, b, more, rfl⟩

/-- There is an answer in any case, and nothing else is taken for a literal. -/
theorem literal_of_utf16LiteralToUtf8 {rest : List Byte}
    (hdrop : content.drop first = 92 :: 117 :: rest) (hend : inputEnd ≤ content.length) :
    ∃ r, utf16LiteralToUtf8 content first inputEnd = .ok r ∧
      ∀ n bs, r = some (n, bs) →
        ∃ e more, Literal e bs ∧ n = e.length ∧ content.drop first = e ++ more ∧
          first + n ≤ inputEnd := by
  by_cases hroom : inputEnd - first < 6
  · refine ⟨none, ?_, nofun⟩
    unfold utf16LiteralToUtf8
    rw [if_pos hroom]
    rfl
  have hlen := congrArg List.length hdrop
  rw [List.length_drop, List.length_cons, List.length_cons] at hlen
  obtain ⟨a, b, c, d, more, rfl⟩ := exists_four (l := rest) (by omega)
  have hlt := hex4_lt a b c d
  rw [utf16LiteralToUtf8_eq hdrop (by omega)]
  by_cases hlow : 0xDC00 ≤ hex4 a b c d ∧ hex4 a b c d ≤ 0xDFFF
  · exact ⟨none, if_pos hlow, nofun⟩
  rw [if_neg hlow]
  by_cases hhigh : 0xD800 ≤ hex4 a b c d ∧ hex4 a b c d ≤ 0xDBFF
  · rw [if_pos hhigh]
    by_cases hroom' : inputEnd - (first + 6) < 6
    · refine ⟨none, ?_, nofun⟩
      unfold secondSequence
      rw [if_pos hroom']
      rfl
    have hlen' : 6 ≤ more.length := by
      simp only [List.length_cons] at hlen
      omega
    obtain ⟨x, y, a', b', more, rfl⟩ := exists_four (l := more) (by omega)
    obtain ⟨c', d', more, rfl⟩ := exists_two (l := more) (by simpa using hlen')
    have hsecond : content.drop (first + 6) = x :: y :: a' :: b' :: c' :: d' :: more := by
      rw [← List.drop_drop, hdrop]
      rfl
    rw [secondSequence_eq hsecond (by omega)]
    by_cases hpair : x = 92 ∧ y = 117 ∧ 0xDC00 ≤ hex4 a' b' c' d' ∧ hex4 a' b' c' d' ≤ 0xDFFF
    · rw [if_pos hpair]
      refine ⟨_, rfl, ?_⟩
      intro n bs hr
      obtain ⟨rfl, rfl, hge, hle⟩ := hpair
      obtain ⟨ch, hch⟩ := exists_char (v := 0x10000 + hex4 a b c d % 1024 * 1024
        + hex4 a' b' c' d' % 1024) (by omega)
      rw [pair_codepoint hlt (by omega), ← hch, encode_char] at hr
      cases hr
      have hds := (hex4_cases a b c d).resolve_right (by omega)
      have hes := (hex4_cases a' b' c' d').resolve_right (by omega)
      have hhigh' : 0xD800 + hex4 a b c d % 1024 = hex4 a b c d := by omega
      have hlow' : 0xDC00 + hex4 a' b' c' d' % 1024 = hex4 a' b' c' d' := by omega
      rw [← hhigh'] at hds
      rw [← hlow'] at hes
      have hescape :=
        CharEscape.pair hch (Nat.mod_lt _ (by decide)) (Nat.mod_lt _ (by decide)) hds hes
      exact ⟨_, more, .char hescape, rfl, hdrop, by omega⟩
    · rw [if_neg hpair]
      exact ⟨none, rfl, nofun⟩
  rw [if_neg hhigh]
  refine ⟨_, rfl, ?_⟩
  intro n bs hr
  obtain ⟨ch, hch⟩ := exists_char (v := hex4 a b c d) (by omega)
  rw [← hch, encode_char] at hr
  cases hr
  obtain hdigits | ⟨hzero, hnone⟩ := hex4_cases a b c d
  · rw [← hch] at hdigits
    exact ⟨_, more, .char (.unit hdigits), rfl, hdrop, by omega⟩
  · have hnul : ch = Char.ofNat 0 := Char.toNat_inj.mp (hch.trans hzero)
    subst hnul
    exact ⟨_, more, .noDigits hnone, rfl, hdrop, by omega⟩

/-- A literal is taken for the UTF-8 of the character it is the escape of, or for
a NUL if it has no four digits; anything else is refused. -/
theorem utf16LiteralToUtf8_iff {rest : List Byte} (hdrop : content.drop first = 92 :: 117 :: rest)
    (hend : inputEnd ≤ content.length) :
    ∃ r, utf16LiteralToUtf8 content first inputEnd = .ok r ∧
      ∀ n bs, r = some (n, bs) ↔
        ∃ e more, Literal e bs ∧ n = e.length ∧ content.drop first = e ++ more ∧
          first + n ≤ inputEnd := by
  obtain ⟨r, hr, hread⟩ := literal_of_utf16LiteralToUtf8 hdrop hend
  refine ⟨r, hr, fun n bs => ⟨hread n bs, ?_⟩⟩
  rintro ⟨e, more, hliteral, rfl, hsplit, hroom⟩
  have hof := utf16LiteralToUtf8_of_literal hliteral hsplit hroom
  exact Except.ok.inj (hr.symm.trans hof)

/-- On the two halves of U+1F600. -/
theorem utf16LiteralToUtf8_iff_pair :
    ∃ r, utf16LiteralToUtf8 [92, 117, 68, 56, 51, 68, 92, 117, 68, 69, 48, 48] 0 12 = .ok r ∧
      ∀ n bs, r = some (n, bs) ↔
        ∃ e more, Literal e bs ∧ n = e.length ∧
          [92, 117, 68, 56, 51, 68, 92, 117, 68, 69, 48, 48] = e ++ more ∧ 0 + n ≤ 12 :=
  @utf16LiteralToUtf8_iff [92, 117, 68, 56, 51, 68, 92, 117, 68, 69, 48, 48] 0 12
    [68, 56, 51, 68, 92, 117, 68, 69, 48, 48] rfl (by decide)

end Literals

end JsonRead

end BeEasy
