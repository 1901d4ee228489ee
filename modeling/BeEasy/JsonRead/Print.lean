import BeEasy.JsonRead.Item

/-!
# JsonRead — Print

The printer of `cJSON.c`. A `printbuffer` has the text so far, with room
behind it that grows where it may. Of the functions that print, most end each
of their steps with `ensure`, a few bytes written to where it points, and
`offset` moved behind them or left for `update_offset`.
-/

namespace BeEasy

open CVerif

namespace JsonRead

/-! ## printbuffer -/

/-- `internal_hooks`: which calls are granted a block, what is in it then, and
whether there is a `reallocate`. -/
structure Hooks where
  grants : Nat → Bool
  contents : Nat → Nat → Byte
  reallocate : Bool

structure PrintBuffer where
  buffer : Option (List Byte)
  length : Nat
  offset : Nat
  /-- Current nesting depth (for formatted printing). -/
  depth : Nat
  noalloc : Bool
  format : Bool
  heap : Heap

/-- A function that prints, and whether it can. -/
abbrev Printer : Type := PrintBuffer → Except Fault (Bool × PrintBuffer)

/-- `if (!first) return false;`, and what follows. -/
def Printer.andThen (first next : Printer) : Printer := fun p => do
  let (printed, p) ← first p
  if printed then next p else return (false, p)

section Printer

variable (hooks : Hooks)

/-- A larger block for the text, or none at all. -/
def grow (block : List Byte) (newsize : Nat) : Printer := fun p => do
  let unspecified := hooks.contents p.heap.calls
  if hooks.reallocate then
    -- reallocate with realloc if available
    let (granted, heap) := p.heap.reallocate hooks.grants
    if granted then
      return (true, { p with
        buffer := some (realloc block newsize unspecified), length := newsize, heap })
    else return (false, { p with buffer := none, length := 0, heap := heap.release 1 })
  else
    -- otherwise reallocate manually
    let (granted, heap) := p.heap.allocate hooks.grants
    if granted then
      let newbuffer ← writeBytes (realloc [] newsize unspecified) 0
        (← readBytes block 0 (p.offset + 1))
      return (true, { p with buffer := some newbuffer, length := newsize, heap := heap.release 1 })
    else return (false, { p with buffer := none, length := 0, heap := heap.release 1 })

/-- `ensure`, where the pointer that it returns is at `offset`. -/
def ensure (needed : Nat) : Printer := fun p =>
  match p.buffer with
  | none => .ok (false, p)
  | some block =>
      -- make sure that offset is valid
      if 0 < p.length ∧ p.length ≤ p.offset then .ok (false, p)
      -- sizes bigger than INT_MAX are currently not supported
      else if INT_MAX < needed then .ok (false, p)
      else
        let needed := needed + p.offset + 1
        if needed ≤ p.length then .ok (true, p)
        else if p.noalloc then .ok (false, p)
        -- calculate new buffer size
        else if INT_MAX / 2 < needed then
          -- overflow of int, use INT_MAX if possible
          if needed ≤ INT_MAX then grow hooks block INT_MAX p else .ok (false, p)
        else grow hooks block (needed * 2) p

/-- `update_offset`. -/
def updateOffset : Printer := fun p =>
  match p.buffer with
  | none => .ok (true, p)
  | some block => do
      let str ← readString (block.drop p.offset)
      return (true, { p with offset := p.offset + str.length })

/-- `ensure`, these bytes written to where it points, and `offset` moved on. -/
def emit (needed : Nat) (bytes : List Byte) (length : Nat) : Printer :=
  (ensure hooks needed).andThen fun p => do
    let block ← writeBytes (p.buffer.getD []) p.offset bytes
    return (true, { p with buffer := some block, offset := p.offset + length })

/-! ## Numbers and strings -/

/-- `sprintf` to `number_buffer`. -/
def inNumberBuffer (number : List Byte) : Except Fault (List Byte) :=
  if number.length + 1 ≤ 26 then .ok number else .error .outOfBounds

/-- What `print_number` has in `number_buffer` in the end. -/
def numberBuffer (dbl : Doubles) (d : dbl.Double) : Except Fault (List Byte) := do
  -- this checks for NaN and Infinity
  if !dbl.isFinite d then inNumberBuffer [110, 117, 108, 108]
  else
    -- try 15 decimal places of precision to avoid nonsignificant nonzero digits
    let number ← inNumberBuffer (dbl.sprintfG 15 d)
    let (test, read) := dbl.strtod number
    -- check whether the original double can be recovered
    if read = 0 || !dbl.eq test d then inNumberBuffer (dbl.sprintfG 17 d)
    else return number

/-- `print_number`. -/
def printNumber (dbl : Doubles) (d : dbl.Double) : Printer := fun p => do
  let number ← numberBuffer dbl d
  if 25 < number.length then return (false, p)
  else emit hooks (number.length + 1) (number ++ [0]) number.length p

/-- The letter of a one character escape sequence. -/
def escapeLetter (b : Byte) : Option Byte :=
  if b = 34 ∨ b = 92 then some b
  else if b = 8 then some 98
  else if b = 12 then some 102
  else if b = 10 then some 110
  else if b = 13 then some 114
  else if b = 9 then some 116
  else none

/-- Additional characters needed for escaping. -/
def escapeCharacters (b : Byte) : Nat :=
  if (escapeLetter b).isSome then 1 else if b < 32 then 5 else 0

/-- A digit of `%x`. -/
def hexDigitOf (v : Nat) : Byte := BitVec.ofNat 8 (if v < 10 then 48 + v else 87 + v)

/-- What `sprintf` writes for `u%04x`, but for the NUL. -/
def unicodeEscape (b : Byte) : List Byte :=
  [117, 48, 48, hexDigitOf (b.toNat / 16), hexDigitOf (b.toNat % 16)]

/-- The loop that copies the string, from `outputPointer` on. -/
def copyEscaped : List Byte → Nat → List Byte → Except Fault (List Byte)
  | [], _, block => .ok block
  | b :: input, outputPointer, block => do
      if 31 < b ∧ b ≠ 34 ∧ b ≠ 92 then
        -- normal character, copy
        copyEscaped input (outputPointer + 1) (← writeBytes block outputPointer [b])
      else
        match escapeLetter b with
        | some letter =>
            copyEscaped input (outputPointer + 2) (← writeBytes block outputPointer [92, letter])
        | none =>
            -- escape and print as unicode codepoint
            copyEscaped input (outputPointer + 6)
              (← writeBytes block outputPointer (92 :: unicodeEscape b ++ [0]))

/-- What `print_string_ptr` does to `output`, once there is room. -/
def printQuoted (input : List Byte) (offset : Nat) (output : List Byte) :
    Except Fault (List Byte) := do
  let escapes := (input.map escapeCharacters).sum
  -- no characters have to be escaped
  if escapes = 0 then writeBytes output offset (34 :: input ++ [34, 0])
  else
    let output ← copyEscaped input (offset + 1) (← writeBytes output offset [34])
    writeBytes output (offset + (input.length + escapes) + 1) [34, 0]

/-- `print_string_ptr`. -/
def printStringPtr : Option CStr → Printer
  -- empty string
  | none => emit hooks 3 [34, 34, 0] 0
  | some input =>
      let outputLength := input.bytes.length + (input.bytes.map escapeCharacters).sum
      (ensure hooks (outputLength + 3)).andThen fun p => do
        let output ← printQuoted input.bytes p.offset (p.buffer.getD [])
        return (true, { p with buffer := some output })

/-! ## Values -/

/-- `strcpy` of a word. -/
def printWord (word : List Byte) : Printer := emit hooks (word.length + 1) (word ++ [0]) 0

/-- A raw item. -/
def printRaw : Option CStr → Printer
  | none => fun p => .ok (false, p)
  | some raw => printWord hooks raw.bytes

/-- `depth` one larger. -/
def deeper : Printer := fun p => .ok (true, { p with depth := p.depth + 1 })

/-- `depth` one smaller. -/
def shallower : Printer := fun p => .ok (true, { p with depth := p.depth - 1 })

/-- A step that looks at the flag. -/
def whenFormat (formatted plain : Printer) : Printer := fun p =>
  if p.format then formatted p else plain p

/-- As many tabs as `tabs` makes of the depth. -/
def tabs (n : Nat) : List Byte := List.replicate n 9

/-- `print_array`, around the loop. -/
def printArray (loop : Printer) : Printer :=
  (emit hooks 1 [91] 1).andThen <| deeper.andThen <| loop.andThen <|
    (emit hooks 2 [93, 0] 0).andThen shallower

/-- `print_object`, around the loop. -/
def printObject (loop : Printer) : Printer :=
  (whenFormat (emit hooks 3 [123, 10] 2) (emit hooks 2 [123] 1)).andThen <| deeper.andThen <|
    loop.andThen <|
      (whenFormat (fun p => emit hooks (p.depth + 1) (tabs (p.depth - 1) ++ [125, 0]) 0 p)
        (emit hooks 2 [125, 0] 0)).andThen shallower

/-- The comma between two elements. -/
def printComma : Printer := whenFormat (emit hooks 3 [44, 32, 0] 2) (emit hooks 2 [44, 0] 1)

/-- What stands in front of the value of a member. -/
def printKey (name : Option CStr) : Printer :=
  (whenFormat (fun p => emit hooks p.depth (tabs p.depth) p.depth p)
    fun p => .ok (true, p)).andThen <|
      ((printStringPtr hooks name).andThen updateOffset).andThen <|
        whenFormat (emit hooks 2 [58, 9] 2) (emit hooks 1 [58] 1)

/-- What stands behind it, where `more` says if there is another one. -/
def printBehind (more : Bool) : Printer :=
  let comma : List Byte := if more then [44] else []
  whenFormat (emit hooks (comma.length + 2) (comma ++ [10, 0]) (comma.length + 1))
    (emit hooks (comma.length + 1) (comma ++ [0]) comma.length)

mutual

/-- `print_value`. -/
def printValue (dbl : Doubles) : Item dbl.Double → Printer
  | { type, valuestring, valuedouble, child, .. } =>
      match type with
      | .null => printWord hooks [110, 117, 108, 108]
      | .false => printWord hooks [102, 97, 108, 115, 101]
      | .true => printWord hooks [116, 114, 117, 101]
      | .number => printNumber hooks dbl valuedouble
      | .raw => printRaw hooks valuestring
      | .string => printStringPtr hooks valuestring
      | .array => printArray hooks (printElements dbl child)
      | .object => printObject hooks (printMembers dbl child)
      | .invalid => fun p => .ok (false, p)

/-- The loop of `print_array`. -/
def printElements (dbl : Doubles) : List (Item dbl.Double) → Printer
  | [] => fun p => .ok (true, p)
  | currentElement :: next =>
      ((printValue dbl currentElement).andThen updateOffset).andThen <|
        if next.isEmpty then fun p => .ok (true, p)
        else (printComma hooks).andThen (printElements dbl next)

/-- The loop of `print_object`. -/
def printMembers (dbl : Doubles) : List (Item dbl.Double) → Printer
  | [] => fun p => .ok (true, p)
  | currentItem :: next =>
      (printKey hooks currentItem.string).andThen <|
        ((printValue dbl currentItem).andThen updateOffset).andThen <|
          (printBehind hooks !next.isEmpty).andThen (printMembers dbl next)

end

/-! ## cJSON_Print -/

/-- `deallocate` on the buffer, if there is one. -/
def PrintBuffer.free (p : PrintBuffer) : Heap := p.heap.release p.buffer.toList.length

/-- `print`. -/
def print (dbl : Doubles) (item : Item dbl.Double) (format : Bool) (heap : Heap) :
    Except Fault (Option (List Byte) × Heap) := do
  let block := realloc [] 256 (hooks.contents heap.calls)
  let (granted, heap) := heap.allocate hooks.grants
  if !granted then return (none, heap)
  -- print the value
  let (printed, p) ← printValue hooks dbl item ⟨some block, 256, 0, 0, false, format, heap⟩
  if !printed then return (none, p.free)
  let (_, p) ← updateOffset p
  let block := p.buffer.getD []
  let unspecified := hooks.contents p.heap.calls
  -- check if reallocate is available
  if hooks.reallocate then
    let (granted, heap) := p.heap.reallocate hooks.grants
    if granted then return (some (realloc block (p.offset + 1) unspecified), heap)
    else return (none, { p with heap }.free)
  else
    -- otherwise copy the JSON over to a new buffer
    let (granted, heap) := p.heap.allocate hooks.grants
    if granted then
      let printed ← writeBytes (realloc [] (p.offset + 1) unspecified) 0
        (← readBytes block 0 (min p.length (p.offset + 1)))
      return (some (← writeBytes printed p.offset [0]), { p with heap }.free)
    else return (none, { p with heap }.free)

/-- `cJSON_PrintBuffered`. -/
def printBuffered (dbl : Doubles) (item : Item dbl.Double) (prebuffer : Int) (format : Bool)
    (heap : Heap) : Except Fault (Option (List Byte) × Heap) := do
  if prebuffer < 0 then return (none, heap)
  let length := prebuffer.toNat
  let block := realloc [] length (hooks.contents heap.calls)
  let (granted, heap) := heap.allocate hooks.grants
  if !granted then return (none, heap)
  let (printed, p) ← printValue hooks dbl item ⟨some block, length, 0, 0, false, format, heap⟩
  if !printed then return (none, p.free)
  return (p.buffer, p.heap)

/-- `cJSON_PrintPreallocated`, and what it leaves in the caller's buffer. -/
def printPreallocated (dbl : Doubles) (item : Item dbl.Double) (buf : Option (List Byte))
    (len : Int) (format : Bool) (heap : Heap) :
    Except Fault (Bool × Option (List Byte) × Heap) := do
  if len < 0 ∨ buf = none then return (false, buf, heap)
  let (printed, p) ← printValue hooks dbl item ⟨buf, len.toNat, 0, 0, true, format, heap⟩
  return (printed, p.buffer, p.heap)

end Printer

end JsonRead

end BeEasy
