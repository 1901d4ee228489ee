import BeEasy.JsonRead.ParseString

/-!
# JsonRead — Parse

The parser of `cJSON.c`. `parse_value` and the parsers of arrays and objects
call one another, and `depth` counts how often; here the levels that are left
are counted, so that the recursion ends where the parser refuses to nest any
deeper. The loops over the elements of an array and the members of an object
end because each round reads something.
-/

namespace BeEasy

open CVerif

namespace JsonRead

section Parser

variable (dbl : Doubles) (grants : Nat → Bool) (content : List Byte)

/-- A function that populates an item from the buffer, or fails. -/
abbrev Parser : Type :=
  Item dbl.Double → ParseState → Except Stop (Option (Item dbl.Double) × ParseState)

/-- `can_access_at_index(buffer, 0)` and the byte there. -/
def peek (st : ParseState) : Option Byte := content[st.offset]?

/-- `can_read(buffer, n)` and `strncmp(.., word, n) == 0`. -/
def startsWith (st : ParseState) (word : List Byte) : Bool :=
  st.offset + word.length ≤ content.length && (content.drop st.offset).take word.length = word

/-- `buffer_skip_whitespace`. -/
def skipWhitespace (st : ParseState) : ParseState :=
  let offset := st.offset + ((content.drop st.offset).takeWhile (· ≤ 32)).length
  { st with offset := if offset = content.length then offset - 1 else offset }

/-- `parse_number`, which copies at most 63 characters for `strtod`. -/
def parseNumber : Parser dbl := fun item st =>
  let numberCString := ((content.drop st.offset).take 63).takeWhile isNumberChar
  let (number, afterEnd) := dbl.strtod numberCString
  if afterEnd = 0 then .ok (none, st)
  else
    .ok (some { item with
        valuedouble := number, valueint := dbl.saturate number, type := .number },
      { st with offset := st.offset + afterEnd })

/-- The loop of `parse_array`, behind the elements in `list`. -/
def parseElements (parseValue : Parser dbl) :
    Nat → List (Item dbl.Double) → ParseState →
      Except Stop (Option (List (Item dbl.Double)) × ParseState)
  | 0, _, _ => .error .unfinished
  | rounds + 1, list, st => do
      let (granted, heap) := st.heap.allocate grants
      if !granted then return (none, { st with heap := heap.delete list })
      let newItem := Item.new dbl
      -- parse next value
      match ← parseValue newItem (skipWhitespace content ⟨st.offset + 1, heap⟩) with
      | (none, st) => return (none, { st with heap := st.heap.delete (list ++ [newItem]) })
      | (some newItem, st) =>
          let st := skipWhitespace content st
          if peek content st = some 44 then
            parseElements parseValue rounds (list ++ [newItem]) st
          else return (some (list ++ [newItem]), st)

/-- The loop of `parse_object`. -/
def parseMembers (parseValue : Parser dbl) :
    Nat → List (Item dbl.Double) → ParseState →
      Except Stop (Option (List (Item dbl.Double)) × ParseState)
  | 0, _, _ => .error .unfinished
  | rounds + 1, list, st => do
      let (granted, heap) := st.heap.allocate grants
      if !granted then return (none, { st with heap := heap.delete list })
      let newItem := Item.new dbl
      -- parse the name of the child
      match ← parseString grants content newItem
          (skipWhitespace content ⟨st.offset + 1, heap⟩) with
      | (none, st) => return (none, { st with heap := st.heap.delete (list ++ [newItem]) })
      | (some newItem, st) =>
          let st := skipWhitespace content st
          -- swap valuestring and string, because we parsed the name
          let newItem := { newItem with string := newItem.valuestring, valuestring := none }
          -- invalid object
          if peek content st ≠ some 58 then
            return (none, { st with heap := st.heap.delete (list ++ [newItem]) })
          -- parse the value
          match ← parseValue newItem
              (skipWhitespace content { st with offset := st.offset + 1 }) with
          | (none, st) => return (none, { st with heap := st.heap.delete (list ++ [newItem]) })
          | (some newItem, st) =>
              let st := skipWhitespace content st
              if peek content st = some 44 then
                parseMembers parseValue rounds (list ++ [newItem]) st
              else return (some (list ++ [newItem]), st)

/-- What `parse_array` and `parse_object` do from the opening bracket on: `loop`
is theirs, and `close` the bracket that it should end at. -/
def parseBracketed (close : Byte) (type : Kind)
    (loop : ParseState → Except Stop (Option (List (Item dbl.Double)) × ParseState)) :
    Parser dbl := fun item st => do
  let st := skipWhitespace content { st with offset := st.offset + 1 }
  -- empty array or object
  if peek content st = some close then
    return (some { item with type, child := [] }, { st with offset := st.offset + 1 })
  -- check if we skipped to the end of the buffer
  else if peek content st = none then return (none, { st with offset := st.offset - 1 })
  else
    -- step back to character in front of the first element
    match ← loop { st with offset := st.offset - 1 } with
    | (none, st) => return (none, st)
    | (some list, st) =>
        -- expected end of array or object
        if peek content st ≠ some close then
          return (none, { st with heap := st.heap.delete list })
        else
          return (some { item with type, child := list }, { st with offset := st.offset + 1 })

/-- `parse_array`, below the limit. -/
def parseArray (parseValue : Parser dbl) : Parser dbl := fun item st => do
  if (← byteAt content st.offset) ≠ 91 then return (none, st)
  parseBracketed dbl content 93 .array
    (parseElements dbl grants content parseValue (content.length + 1) []) item st

/-- `parse_object`, below the limit. -/
def parseObject (parseValue : Parser dbl) : Parser dbl := fun item st =>
  if peek content st ≠ some 123 then .ok (none, st)
  else
    parseBracketed dbl content 125 .object
      (parseMembers dbl grants content parseValue (content.length + 1) []) item st

/-- `parse_value`, given the parsers of arrays and objects. -/
def parseValueWith (parseArray parseObject : Parser dbl) : Parser dbl := fun item st =>
  if startsWith content st [110, 117, 108, 108] then
    .ok (some { item with type := .null }, { st with offset := st.offset + 4 })
  else if startsWith content st [102, 97, 108, 115, 101] then
    .ok (some { item with type := .false }, { st with offset := st.offset + 5 })
  else if startsWith content st [116, 114, 117, 101] then
    .ok (some { item with type := .true, valueint := 1 }, { st with offset := st.offset + 4 })
  else
    match peek content st with
    | none => .ok (none, st)
    | some b =>
        if b = 34 then parseString grants content item st
        else if startsNumber b then parseNumber dbl content item st
        else if b = 91 then parseArray item st
        else if b = 123 then parseObject item st
        else .ok (none, st)

/-- `parse_value`, where arrays and objects may be nested `levels` deep. -/
def parseValue : Nat → Parser dbl
  | 0 => parseValueWith dbl grants content (fun _ st => .ok (none, st)) (fun _ st => .ok (none, st))
  | levels + 1 =>
      parseValueWith dbl grants content
        (parseArray dbl grants content (parseValue levels))
        (parseObject dbl grants content (parseValue levels))

end Parser

/-! ## cJSON_ParseWithOpts -/

/-- What `cJSON_ParseWithOpts` returns: the item, where `return_parse_end`
points, and the memory in use. -/
structure ParseResult (D : Type) where
  item : Option (Item D)
  returnParseEnd : Nat
  heap : Heap

/-- The position of an error. -/
def errorPosition (content : List Byte) (st : ParseState) : Nat :=
  if st.offset < content.length then st.offset else content.length - 1

/-- `skip_utf8_bom`. -/
def skipUtf8Bom (content : List Byte) (st : ParseState) : ParseState :=
  if 4 < content.length && content.take 3 = [0xEF, 0xBB, 0xBF] then { st with offset := 3 } else st

/-- `cJSON_ParseWithOpts` on a string. -/
def parseWithOpts (dbl : Doubles) (grants : Nat → Bool) (value : CStr)
    (requireNullTerminated : Bool) (heap : Heap) : Except Stop (ParseResult dbl.Double) := do
  let content := value.bytes ++ [0]
  let (granted, heap) := heap.allocate grants
  -- memory fail
  if !granted then return ⟨none, errorPosition content ⟨0, heap⟩, heap⟩
  let item := Item.new dbl
  match ← parseValue dbl grants content CJSON_NESTING_LIMIT item
      (skipWhitespace content (skipUtf8Bom content ⟨0, heap⟩)) with
  | (none, st) => return ⟨none, errorPosition content st, st.heap.delete [item]⟩
  | (some item, st) =>
      if requireNullTerminated then
        let st := skipWhitespace content st
        if peek content st ≠ some 0 then
          return ⟨none, errorPosition content st, st.heap.delete [item]⟩
        else return ⟨some item, st.offset, st.heap⟩
      else return ⟨some item, st.offset, st.heap⟩

/-- `cJSON_Parse`. -/
def parse (dbl : Doubles) (grants : Nat → Bool) (value : CStr) (heap : Heap) :
    Except Stop (ParseResult dbl.Double) := parseWithOpts dbl grants value false heap

end JsonRead

end BeEasy
