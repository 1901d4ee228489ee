import BeEasy.CVerif.Json
import BeEasy.CVerif.Memory

/-!
# JsonRead — Item

The items of `cJSON.h`: a tree of records, with the list that starts at
`child` for the links between them. Of the allocator it is modelled how often
it is asked, which of the calls it grants, and how many blocks are out. What
libc makes of a `double` is a parameter.
-/

namespace BeEasy

open CVerif

namespace JsonRead

def INT_MAX : Nat := 2147483647
def INT_MIN : Int := -2147483648
def CJSON_NESTING_LIMIT : Nat := 1000

/-- How a call can fail to return. -/
inductive Stop where
  | outOfBounds
  /-- The rounds that a loop of the model is given are used up. -/
  | unfinished
  deriving DecidableEq

/-! ## double -/

/-- `double`, and the part of libc that deals with it. -/
structure Doubles where
  Double : Type
  /-- All bits zero. -/
  zero : Double
  /-- `==`. -/
  eq : Double → Double → Bool
  /-- `d * 0 == 0`. -/
  isFinite : Double → Bool
  /-- `d >= INT_MAX`. -/
  geIntMax : Double → Bool
  /-- `d <= INT_MIN`. -/
  leIntMin : Double → Bool
  /-- `(int)d`, where it is defined. -/
  toInt : Double → Int
  /-- The number at the start of a string, and how many characters it takes. -/
  strtod : List Byte → Double × Nat
  /-- What `sprintf` writes for `%1.15g`, or for another precision. -/
  sprintfG : Nat → Double → List Byte

/-- The value that goes into `valueint`. -/
def Doubles.saturate (dbl : Doubles) (number : dbl.Double) : Int :=
  if dbl.geIntMax number then INT_MAX
  else if dbl.leIntMin number then INT_MIN
  else dbl.toInt number

/-- The numbers of one digit, and what libc does for them. -/
abbrev digits : Doubles where
  Double := Fin 10
  zero := 0
  eq a b := a = b
  isFinite _ := true
  geIntMax _ := false
  leIntMin _ := false
  toInt d := d.val
  strtod
    | [] => (0, 0)
    | b :: _ => if 48 ≤ b ∧ b ≤ 57 then (Fin.ofNat 10 (b.toNat - 48), 1) else (0, 0)
  sprintfG _ d := [BitVec.ofNat 8 (48 + d.val)]

abbrev digits.one : Fin 10 := 1

/-- `0-9`, `+`, `-`, `e`, `E` and `.`. -/
def isNumberChar (b : Byte) : Bool :=
  (48 ≤ b && b ≤ 57) || b = 43 || b = 45 || b = 101 || b = 69 || b = 46

/-- `-`, or a digit. -/
def startsNumber (b : Byte) : Bool := b = 45 || (48 ≤ b && b ≤ 57)

/-- The spellings of a number that the parser takes as a whole: what fits into
`number_buffer`, and is a number to `strtod` up to its end. Those of JSON can be
longer. -/
structure Doubles.Lexeme (dbl : Doubles) (number : dbl.Double) (t : List Byte) : Prop where
  head : ∃ b rest, t = b :: rest ∧ startsNumber b = true
  chars : ∀ b ∈ t, isNumberChar b = true
  length_le : t.length ≤ 63
  strtod : dbl.strtod t = (number, t.length)

/-! ## cJSON -/

/-- The low byte of `type`. -/
inductive Kind where
  | invalid
  | false
  | true
  | null
  | number
  | string
  | array
  | object
  | raw
  deriving DecidableEq

/-- `cJSON`, with its two flags and the items of its list. -/
structure Item (D : Type) where
  type : Kind
  isReference : Bool
  stringIsConst : Bool
  valuestring : Option CStr
  valueint : Int
  valuedouble : D
  string : Option CStr
  child : List (Item D)

/-- What `cJSON_New_Item` makes of a block: all zeros. -/
def Item.new (dbl : Doubles) : Item dbl.Double where
  type := .invalid
  isReference := false
  stringIsConst := false
  valuestring := none
  valueint := 0
  valuedouble := dbl.zero
  string := none
  child := []

section Values

variable (dbl : Doubles)

mutual

/-- The item made into one of this value, its name left as it is. -/
def put (item : Item dbl.Double) : Json dbl.Double → Item dbl.Double
  | .null => { item with type := .null }
  | .bool true => { item with type := .true, valueint := 1 }
  | .bool false => { item with type := .false }
  | .number n => { item with type := .number, valueint := dbl.saturate n, valuedouble := n }
  | .string s => { item with type := .string, valuestring := some (CStr.at s) }
  | .array vs => { item with type := .array, child := putElements vs }
  | .object ms => { item with type := .object, child := putMembers ms }

def putElements : List (Json dbl.Double) → List (Item dbl.Double)
  | [] => []
  | v :: vs => put (Item.new dbl) v :: putElements vs

def putMembers : List (List Byte × Json dbl.Double) → List (Item dbl.Double)
  | [] => []
  | (k, v) :: ms => put { Item.new dbl with string := some (CStr.at k) } v :: putMembers ms

end

/-- An item of this value. -/
def itemOf (v : Json dbl.Double) : Item dbl.Double := put dbl (Item.new dbl) v

/-- What the type was before does not matter. -/
theorem put_type (item : Item dbl.Double) (type : Kind) (v : Json dbl.Double) :
    put dbl { item with type } v = put dbl item v := by
  cases v with
  | bool b => cases b <;> rfl
  | _ => rfl

/-- The bytes of a string that may be NULL, which prints like an empty one. -/
def bytesOf (str : Option CStr) : List Byte := (str.map CStr.bytes).getD []

mutual

/-- The value that an item stands for. Raw items have none, and what is not
finite counts as null. -/
def valueOf : Item dbl.Double → Option (Json dbl.Double)
  | { type, valuestring, valuedouble, child, .. } =>
      match type with
      | .invalid => none
      | .raw => none
      | .null => some .null
      | .true => some (.bool true)
      | .false => some (.bool false)
      | .number => some (if dbl.isFinite valuedouble then .number valuedouble else .null)
      | .string => some (.string (bytesOf valuestring))
      | .array => (elementsOf child).map .array
      | .object => (membersOf child).map .object

def elementsOf : List (Item dbl.Double) → Option (List (Json dbl.Double))
  | [] => some []
  | item :: items => do
      let v ← valueOf item
      return v :: (← elementsOf items)

def membersOf : List (Item dbl.Double) → Option (List (List Byte × Json dbl.Double))
  | [] => some []
  | item :: items => do
      let v ← valueOf item
      return (bytesOf item.string, v) :: (← membersOf items)

end

end Values

/-! ## The allocator -/

structure Heap where
  calls : Nat
  live : Nat

/-- `hooks.allocate`: whether it grants the block. -/
def Heap.allocate (grants : Nat → Bool) (h : Heap) : Bool × Heap :=
  if grants h.calls then (true, ⟨h.calls + 1, h.live + 1⟩) else (false, ⟨h.calls + 1, h.live⟩)

/-- `hooks.reallocate`: whether it grants a block for the one it gets. -/
def Heap.reallocate (grants : Nat → Bool) (h : Heap) : Bool × Heap :=
  (grants h.calls, { h with calls := h.calls + 1 })

theorem Heap.allocate_granted {grants : Nat → Bool} {h : Heap} (hgrants : grants h.calls = true) :
    h.allocate grants = (true, ⟨h.calls + 1, h.live + 1⟩) := if_pos hgrants

theorem Heap.allocate_refused {grants : Nat → Bool} {h : Heap} (hgrants : ¬grants h.calls = true) :
    h.allocate grants = (false, ⟨h.calls + 1, h.live⟩) := if_neg hgrants

theorem Heap.reallocate_granted {grants : Nat → Bool} {h : Heap}
    (hgrants : grants h.calls = true) :
    h.reallocate grants = (true, ⟨h.calls + 1, h.live⟩) := by rw [Heap.reallocate, hgrants]

theorem Heap.reallocate_refused {grants : Nat → Bool} {h : Heap}
    (hgrants : ¬grants h.calls = true) :
    h.reallocate grants = (false, ⟨h.calls + 1, h.live⟩) := by
  rw [Heap.reallocate, Bool.eq_false_iff.mpr hgrants]

/-- `hooks.deallocate` on `n` blocks. -/
def Heap.release (h : Heap) (n : Nat) : Heap := { h with live := h.live - n }

mutual

/-- The blocks that `cJSON_Delete` gives back for an item. -/
def Item.blocks {D : Type} : Item D → Nat
  | { isReference, stringIsConst, valuestring, string, child, .. } =>
      (if isReference then 0 else blocksOf child + valuestring.toList.length)
        + (if stringIsConst then 0 else string.toList.length) + 1

def blocksOf {D : Type} : List (Item D) → Nat
  | [] => 0
  | item :: items => item.blocks + blocksOf items

end

theorem Item.blocks_eq {D : Type} (item : Item D) :
    item.blocks
      = (if item.isReference then 0 else blocksOf item.child + item.valuestring.toList.length)
        + (if item.stringIsConst then 0 else item.string.toList.length) + 1 := by
  cases item
  rfl

/-- `cJSON_Delete` on a list of items. -/
def Heap.delete {D : Type} (h : Heap) (items : List (Item D)) : Heap := h.release (blocksOf items)

end JsonRead

end BeEasy
