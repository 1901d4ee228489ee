import BeEasy.CVerif.Bytes

/-!
# CVerif — Json

JSON: values, and the texts that stand for a value. What a number is and how
it is spelled is a parameter. Strings are their bytes, and the escape of a
character stands for its UTF-8. A text has gaps wherever JSON allows white
space, and what may stand in a gap is a parameter as well, so a value has many
texts; a text has one value, but that is for a parser to show.
-/

namespace CVerif

/-- A value; the members of an object are in the order of the text. -/
inductive Json (N : Type) where
  | null
  | bool (b : Bool)
  | number (n : N)
  | string (s : List Byte)
  | array (vs : List (Json N))
  | object (ms : List (List Byte × Json N))

/-! ## Characters -/

def isWhite (b : Byte) : Bool := b = 32 || b = 9 || b = 10 || b = 13

/-- White space, or nothing. -/
def White (t : List Byte) : Prop := ∀ b ∈ t, isWhite b = true

instance : DecidablePred White := fun t => inferInstanceAs (Decidable (∀ b ∈ t, isWhite b = true))

theorem White.nil : White [] := nofun

theorem White.append {t u : List Byte} (ht : White t) (hu : White u) : White (t ++ u) := by
  intro b hb
  exact (List.mem_append.mp hb).elim (ht b) (hu b)

/-- A hexadecimal digit, in either case. -/
def hexValue (b : Byte) : Option Nat :=
  if 48 ≤ b ∧ b ≤ 57 then some (b.toNat - 48)
  else if 65 ≤ b ∧ b ≤ 70 then some (b.toNat - 55)
  else if 97 ≤ b ∧ b ≤ 102 then some (b.toNat - 87)
  else none

/-- Four hexadecimal digits. -/
inductive Hex4 : Nat → List Byte → Prop
  | digits {a b c d : Byte} {i j k l : Nat} (ha : hexValue a = some i) (hb : hexValue b = some j)
      (hc : hexValue c = some k) (hd : hexValue d = some l) :
      Hex4 (((i * 16 + j) * 16 + k) * 16 + l) [a, b, c, d]

/-- The escape of a character: one UTF-16 unit, or two for what does not fit. -/
inductive CharEscape : Char → List Byte → Prop
  | unit {c : Char} {ds : List Byte} (h : Hex4 c.toNat ds) : CharEscape c (92 :: 117 :: ds)
  | pair {c : Char} {high low : Nat} {ds es : List Byte}
      (hc : c.toNat = 0x10000 + high * 1024 + low) (hhigh : high < 1024) (hlow : low < 1024)
      (hds : Hex4 (0xD800 + high) ds) (hes : Hex4 (0xDC00 + low) es) :
      CharEscape c (92 :: 117 :: ds ++ 92 :: 117 :: es)

def utf8 (c : Char) : List Byte := (String.utf8EncodeChar c).map UInt8.toBitVec

/-- The byte that a letter behind a backslash stands for. -/
def shortEscape (e : Byte) : Option Byte :=
  if e = 34 ∨ e = 92 ∨ e = 47 then some e
  else if e = 98 then some 8
  else if e = 102 then some 12
  else if e = 110 then some 10
  else if e = 114 then some 13
  else if e = 116 then some 9
  else none

/-- A byte that stands for itself in a string. -/
def isPlain (b : Byte) : Bool := 32 ≤ b && b ≠ 34 && b ≠ 92

/-- A string, and what may stand for it between the quotes. JSON also has escapes of
one half of a surrogate pair without the other, which stand for no character and
are left out. -/
inductive Chars : List Byte → List Byte → Prop
  | nil : Chars [] []
  | plain {b : Byte} {s t : List Byte} (hb : isPlain b = true) (hs : Chars s t) :
      Chars (b :: s) (b :: t)
  | short {b e : Byte} {s t : List Byte} (he : shortEscape e = some b) (hs : Chars s t) :
      Chars (b :: s) (92 :: e :: t)
  | unicode {c : Char} {e s t : List Byte} (he : CharEscape c e) (hs : Chars s t) :
      Chars (utf8 c ++ s) (e ++ t)

namespace Json

variable {N : Type}

/-! ## Nesting -/

mutual

/-- How deep arrays and objects are in one another. -/
def depth : Json N → Nat
  | .array vs => depthElements vs + 1
  | .object ms => depthMembers ms + 1
  | _ => 0

def depthElements : List (Json N) → Nat
  | [] => 0
  | v :: vs => max v.depth (depthElements vs)

def depthMembers : List (List Byte × Json N) → Nat
  | [] => 0
  | (_, v) :: ms => max v.depth (depthMembers ms)

end

/-! ## Numbers -/

mutual

/-- The numbers in a value. -/
def numbers : Json N → List N
  | .number n => [n]
  | .array vs => numbersElements vs
  | .object ms => numbersMembers ms
  | _ => []

def numbersElements : List (Json N) → List N
  | [] => []
  | v :: vs => v.numbers ++ numbersElements vs

def numbersMembers : List (List Byte × Json N) → List N
  | [] => []
  | (_, v) :: ms => v.numbers ++ numbersMembers ms

end

/-! ## Texts -/

mutual

/-- The texts of a value, given those of the numbers and of the gaps. -/
inductive Text (Gap : List Byte → Prop) (Lexeme : N → List Byte → Prop) :
    Json N → List Byte → Prop
  | null : Text Gap Lexeme .null [110, 117, 108, 108]
  | true : Text Gap Lexeme (.bool true) [116, 114, 117, 101]
  | false : Text Gap Lexeme (.bool false) [102, 97, 108, 115, 101]
  | number {n : N} {t : List Byte} (h : Lexeme n t) : Text Gap Lexeme (.number n) t
  | string {s t : List Byte} (h : Chars s t) : Text Gap Lexeme (.string s) (34 :: t ++ [34])
  | emptyArray {w : List Byte} (h : Gap w) : Text Gap Lexeme (.array []) (91 :: w ++ [93])
  | array {vs : List (Json N)} {t : List Byte} (h : Elements Gap Lexeme vs t) :
      Text Gap Lexeme (.array vs) (91 :: t ++ [93])
  | emptyObject {w : List Byte} (h : Gap w) : Text Gap Lexeme (.object []) (123 :: w ++ [125])
  | object {ms : List (List Byte × Json N)} {t : List Byte} (h : Members Gap Lexeme ms t) :
      Text Gap Lexeme (.object ms) (123 :: t ++ [125])

/-- What stands between the brackets of an array that is not empty. -/
inductive Elements (Gap : List Byte → Prop) (Lexeme : N → List Byte → Prop) :
    List (Json N) → List Byte → Prop
  | one {v : Json N} {a t b : List Byte} (ha : Gap a) (h : Text Gap Lexeme v t) (hb : Gap b) :
      Elements Gap Lexeme [v] (a ++ t ++ b)
  | cons {v : Json N} {vs : List (Json N)} {a t b u : List Byte} (ha : Gap a)
      (h : Text Gap Lexeme v t) (hb : Gap b) (hs : Elements Gap Lexeme vs u) :
      Elements Gap Lexeme (v :: vs) (a ++ t ++ b ++ 44 :: u)

/-- The same for an object. -/
inductive Members (Gap : List Byte → Prop) (Lexeme : N → List Byte → Prop) :
    List (List Byte × Json N) → List Byte → Prop
  | one {k : List Byte} {v : Json N} {a s b c t d : List Byte} (ha : Gap a) (hk : Chars k s)
      (hb : Gap b) (hc : Gap c) (h : Text Gap Lexeme v t) (hd : Gap d) :
      Members Gap Lexeme [(k, v)] (a ++ 34 :: s ++ 34 :: b ++ 58 :: c ++ t ++ d)
  | cons {k : List Byte} {v : Json N} {ms : List (List Byte × Json N)} {a s b c t d u : List Byte}
      (ha : Gap a) (hk : Chars k s) (hb : Gap b) (hc : Gap c) (h : Text Gap Lexeme v t)
      (hd : Gap d) (hs : Members Gap Lexeme ms u) :
      Members Gap Lexeme ((k, v) :: ms) (a ++ 34 :: s ++ 34 :: b ++ 58 :: c ++ t ++ d ++ 44 :: u)

end

end Json

end CVerif
