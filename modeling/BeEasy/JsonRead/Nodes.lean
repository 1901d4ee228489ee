import BeEasy.JsonRead.Compare

/-!
# JsonRead — Nodes

Items in memory, where the children of an item are a doubly linked list that
the item points to. What edits a list looks at nothing but the pointers: that
an item is not in a list already, or that it is in this one, is the caller's
concern. `cJSON_Delete` goes down every list it finds, but not the one that a
reference shares with its original.
-/

namespace BeEasy

open CVerif

namespace JsonRead

/-- `cJSON`. A pointer is the number of the block. -/
structure Node (D : Type) where
  next : Option Nat
  prev : Option Nat
  child : Option Nat
  type : Kind
  isReference : Bool
  stringIsConst : Bool
  valuestring : Option CStr
  valueint : Int
  valuedouble : D
  string : Option CStr

/-- The allocator, and the items that it has granted; `none` where one has been
given back. -/
structure Memory (D : Type) where
  heap : Heap
  nodes : List (Option (Node D))

variable {D : Type}

/-- The item at a pointer, if there is one. -/
def Memory.at (m : Memory D) (p : Nat) : Option (Node D) := m.nodes[p]?.join

def Memory.load (m : Memory D) (p : Nat) : Except Stop (Node D) :=
  match m.at p with
  | some n => .ok n
  | none => .error .outOfBounds

/-- A field, or several, set. -/
def Memory.edit (m : Memory D) (p : Nat) (f : Node D → Node D) : Except Stop (Memory D) := do
  let n ← m.load p
  return { m with nodes := m.nodes.set p (some (f n)) }

/-- The same, where the pointer is checked for NULL. -/
def Memory.editOf (m : Memory D) (p : Option Nat) (f : Node D → Node D) :
    Except Stop (Memory D) :=
  match p with
  | some p => m.edit p f
  | none => .ok m

/-- The same, under a condition. -/
def Memory.editIf (m : Memory D) (c : Bool) (p : Nat) (f : Node D → Node D) :
    Except Stop (Memory D) :=
  if c then m.edit p f else .ok m

/-- Through a pointer that is not checked for NULL. -/
def notNull (p : Option Nat) : Except Stop Nat :=
  match p with
  | some p => .ok p
  | none => .error .outOfBounds

/-- The blocks of an item, without those of its children. -/
def Node.blocks (n : Node D) : Nat :=
  1 + (if n.isReference then 0 else n.valuestring.toList.length)
    + (if n.stringIsConst then 0 else n.string.toList.length)

/-! ## New items -/

/-- All zeros. -/
def Node.zero (dbl : Doubles) : Node dbl.Double where
  next := none
  prev := none
  child := none
  type := .invalid
  isReference := false
  stringIsConst := false
  valuestring := none
  valueint := 0
  valuedouble := dbl.zero
  string := none

/-- `cJSON_New_Item`, with what is put into the item at once. -/
def Memory.new (grants : Nat → Bool) (m : Memory D) (n : Node D) : Option Nat × Memory D :=
  match m.heap.allocate grants with
  | (true, heap) => (some m.nodes.length, ⟨heap, m.nodes ++ [some n]⟩)
  | (false, heap) => (none, { m with heap })

/-- `create_reference`. -/
def createReference (grants : Nat → Bool) (m : Memory D) (item : Option Nat) :
    Except Stop (Option Nat × Memory D) :=
  match item with
  | none => return (none, m)
  | some item => do
      let n ← m.load item
      return m.new grants
        { n with string := none, isReference := true, next := none, prev := none }

/-! ## Looking up -/

/-- The loop of `get_array_item`. -/
def walk (m : Memory D) : Nat → Option Nat → Except Stop (Option Nat)
  | 0, current => return current
  | _ + 1, none => return none
  | index + 1, some current => do walk m index (← m.load current).next

/-- `get_array_item`. -/
def getArrayItem (m : Memory D) (array : Option Nat) (index : Nat) : Except Stop (Option Nat) :=
  match array with
  | none => return none
  | some array => do walk m index (← m.load array).child

/-- The loops of `get_object_item`, with what is looked up in the end. -/
def seek (m : Memory D) (name : CStr) (caseSensitive : Bool) :
    Nat → Option Nat → Except Stop (Option Nat)
  | 0, _ => .error .unfinished
  | _ + 1, none => return none
  | rounds + 1, some current => do
      let n ← m.load current
      if stopsAt caseSensitive name n.string then
        return if n.string.isNone then none else some current
      else seek m name caseSensitive rounds n.next

/-- `get_object_item`. -/
def getObjectItemAt (m : Memory D) (object : Option Nat) (name : Option CStr)
    (caseSensitive : Bool) : Except Stop (Option Nat) :=
  match object, name with
  | some object, some name => do
      seek m name caseSensitive (m.nodes.length + 1) (← m.load object).child
  | _, _ => return none

/-! ## Comparing -/

section Compare

variable (dbl : Doubles) (m : Memory dbl.Double) (caseSensitive : Bool)

/-- The loop of `cJSON_Compare` along two arrays, with what compares two items. -/
def compareLists (equal : Nat → Nat → Except Stop Bool) :
    Nat → Option Nat → Option Nat → Except Stop Bool
  | 0, _, _ => .error .unfinished
  | rounds + 1, some a, some b => do
      if !(← equal a b) then return false
      else compareLists equal rounds (← m.load a).next (← m.load b).next
  -- one of the arrays is longer than the other
  | _ + 1, a, b => return a = b

/-- The loop along one of two objects, with a look into the other one. -/
def compareNamed (equal : Nat → Nat → Except Stop Bool) (other : Nat) :
    Nat → Option Nat → Except Stop Bool
  | 0, _ => .error .unfinished
  | _ + 1, none => return true
  | rounds + 1, some element => do
      let n ← m.load element
      match ← getObjectItemAt m (some other) n.string caseSensitive with
      | none => return false
      | some found =>
          if !(← equal element found) then return false
          else compareNamed equal other rounds n.next

/-- `cJSON_Compare` on two items, which calls itself for those in their lists. -/
def compareFrom : Nat → Nat → Nat → Except Stop Bool
  | 0, _, _ => .error .unfinished
  | rounds + 1, a, b => do
      let x ← m.load a
      let y ← m.load b
      if x.type ≠ y.type || x.type = .invalid then return false
      -- identical objects are equal
      else if a = b then return true
      else
        match x.type with
        | .invalid => return false
        | .false | .true | .null => return true
        | .number => return dbl.eq x.valuedouble y.valuedouble
        | .string | .raw =>
            match x.valuestring, y.valuestring with
            | some s, some t => return s = t
            | _, _ => return false
        | .array => compareLists dbl m (compareFrom rounds) (m.nodes.length + 1) x.child y.child
        | .object => do
            let length := m.nodes.length + 1
            if !(← compareNamed dbl m caseSensitive (compareFrom rounds) b length x.child) then
              return false
            -- doing this twice, once on a and b to prevent true comparison if a subset of b
            else compareNamed dbl m caseSensitive (compareFrom rounds) a length y.child

/-- `cJSON_Compare`. -/
def compareAt (a b : Option Nat) : Except Stop Bool :=
  match a, b with
  | some a, some b => compareFrom dbl m caseSensitive (m.nodes.length + 1) a b
  | _, _ => return false

end Compare

/-! ## Adding -/

/-- `suffix_object`. -/
def suffixObject (m : Memory D) (prev item : Nat) : Except Stop (Memory D) := do
  let m ← m.edit prev ({ · with next := some item })
  m.edit item ({ · with prev := some prev })

/-- The loop of `add_item_to_array` to the end of the list. -/
def lastItem (m : Memory D) : Nat → Nat → Except Stop Nat
  | 0, _ => .error .unfinished
  | rounds + 1, child => do
      match (← m.load child).next with
      | none => return child
      | some next => lastItem m rounds next

/-- `add_item_to_array`. -/
def addItemToArray (m : Memory D) (array item : Option Nat) : Except Stop (Bool × Memory D) :=
  match array, item with
  | some array, some item => do
      match (← m.load array).child with
      | none =>
          -- list is empty, start new one
          return (true, ← m.edit array ({ · with child := some item }))
      | some child =>
          return (true, ← suffixObject m (← lastItem m (m.nodes.length + 1) child) item)
  | _, _ => return (false, m)

/-- `cJSON_AddItemReferenceToArray`. -/
def addItemReferenceToArray (grants : Nat → Bool) (m : Memory D) (array item : Option Nat) :
    Except Stop (Memory D) :=
  match array with
  | none => return m
  | some array => do
      let (reference, m) ← createReference grants m item
      return (← addItemToArray m (some array) reference).2

/-- `cJSON_InsertItemInArray`. -/
def insertItemInArray (m : Memory D) (array : Option Nat) (which : Int) (newitem : Option Nat) :
    Except Stop (Memory D) :=
  if which < 0 then return m
  else do
    match ← getArrayItem m array which.toNat with
    | none => return (← addItemToArray m array newitem).2
    | some afterInserted =>
        let array ← notNull array
        let newitem ← notNull newitem
        let m ← m.edit newitem ({ · with next := some afterInserted })
        let n ← m.load afterInserted
        let m ← m.edit newitem ({ · with prev := n.prev })
        let m ← m.edit afterInserted ({ · with prev := some newitem })
        if (← m.load array).child = some afterInserted then
          m.edit array ({ · with child := some newitem })
        else
          let prev ← notNull (← m.load newitem).prev
          m.edit prev ({ · with next := some newitem })

/-! ## Detaching and deleting -/

/-- `cJSON_DetachItemViaPointer`. -/
def detachItemViaPointer (m : Memory D) (parent item : Option Nat) :
    Except Stop (Option Nat × Memory D) :=
  match parent, item with
  | some parent, some item => do
      let n ← m.load item
      let m ← m.editOf n.prev ({ · with next := n.next })
      let n ← m.load item
      let m ← m.editOf n.next ({ · with prev := n.prev })
      let n ← m.load item
      let first := (← m.load parent).child = some item
      let m ← m.editIf first parent ({ · with child := n.next })
      -- the detached item does not point anywhere any more
      let m ← m.edit item ({ · with prev := none })
      let m ← m.edit item ({ · with next := none })
      return (some item, m)
  | _, _ => return (none, m)

/-- `hooks.deallocate`, on an item and the strings that are its own. -/
def Memory.free (m : Memory D) (p : Nat) : Except Stop (Memory D) := do
  let n ← m.load p
  return ⟨m.heap.release n.blocks, m.nodes.set p none⟩

/-- `cJSON_Delete`. -/
def deleteFrom : Nat → Memory D → Option Nat → Except Stop (Memory D)
  | 0, _, _ => .error .unfinished
  | _ + 1, m, none => return m
  | rounds + 1, m, some item => do
      let n ← m.load item
      let m ← deleteFrom rounds m (if n.isReference then none else n.child)
      let m ← m.free item
      deleteFrom rounds m n.next

def delete (m : Memory D) (item : Option Nat) : Except Stop (Memory D) :=
  deleteFrom (m.nodes.length + 1) m item

/-- `cJSON_DetachItemFromArray`. -/
def detachItemFromArray (m : Memory D) (array : Option Nat) (which : Int) :
    Except Stop (Option Nat × Memory D) :=
  if which < 0 then return (none, m)
  else do detachItemViaPointer m array (← getArrayItem m array which.toNat)

/-- `cJSON_DeleteItemFromArray`. -/
def deleteItemFromArray (m : Memory D) (array : Option Nat) (which : Int) :
    Except Stop (Memory D) := do
  let (item, m) ← detachItemFromArray m array which
  delete m item

/-- `cJSON_DetachItemFromObject`, or `cJSON_DetachItemFromObjectCaseSensitive`. -/
def detachItemFromObject (m : Memory D) (object : Option Nat) (string : Option CStr)
    (caseSensitive : Bool) : Except Stop (Option Nat × Memory D) := do
  detachItemViaPointer m object (← getObjectItemAt m object string caseSensitive)

/-- `cJSON_DeleteItemFromObject`, or `cJSON_DeleteItemFromObjectCaseSensitive`. -/
def deleteItemFromObject (m : Memory D) (object : Option Nat) (string : Option CStr)
    (caseSensitive : Bool) : Except Stop (Memory D) := do
  let (item, m) ← detachItemFromObject m object string caseSensitive
  delete m item

/-! ## Replacing -/

/-- `cJSON_ReplaceItemViaPointer`. -/
def replaceItemViaPointer (m : Memory D) (parent item replacement : Option Nat) :
    Except Stop (Bool × Memory D) :=
  match parent, item, replacement with
  | some parent, some item, some replacement =>
      if replacement = item then return (true, m)
      else do
        let n ← m.load item
        let m ← m.edit replacement ({ · with next := n.next })
        let n ← m.load item
        let m ← m.edit replacement ({ · with prev := n.prev })
        let m ← m.editOf (← m.load replacement).next ({ · with prev := some replacement })
        let m ← m.editOf (← m.load replacement).prev ({ · with next := some replacement })
        let first := (← m.load parent).child = some item
        let m ← m.editIf first parent ({ · with child := some replacement })
        let m ← m.edit item ({ · with next := none })
        let m ← m.edit item ({ · with prev := none })
        return (true, ← delete m (some item))
  | _, _, _ => return (false, m)

/-- `cJSON_ReplaceItemInArray`. -/
def replaceItemInArray (m : Memory D) (array : Option Nat) (which : Int) (newitem : Option Nat) :
    Except Stop (Memory D) :=
  if which < 0 then return m
  else do
    let (_, m) ← replaceItemViaPointer m array (← getArrayItem m array which.toNat) newitem
    return m

/-! ## Names -/

/-- The name of an item freed, if it is its own. -/
def Node.nameBlocks (n : Node D) : Nat := if n.stringIsConst then 0 else n.string.toList.length

/-- `add_item_to_object`. -/
def addItemToObject (grants : Nat → Bool) (m : Memory D) (object : Option Nat)
    (string : Option CStr) (item : Option Nat) (constantKey : Bool) :
    Except Stop (Bool × Memory D) :=
  match object, string, item with
  | some object, some string, some item => do
      let (newKey, heap) :=
        if constantKey then (some (some string), m.heap) else strdup grants (some string) m.heap
      match newKey with
      | none => return (false, { m with heap })
      | some newKey =>
          let n ← m.load item
          let m : Memory D := { m with heap := heap.release n.nameBlocks }
          let m ← m.edit item ({ · with string := newKey, stringIsConst := constantKey })
          addItemToArray m (some object) (some item)
  | _, _, _ => return (false, m)

/-- `replace_item_in_object`. What `strdup` returns is not checked here. -/
def replaceItemInObject (grants : Nat → Bool) (m : Memory D) (object : Option Nat)
    (string : Option CStr) (replacement : Option Nat) (caseSensitive : Bool) :
    Except Stop (Bool × Memory D) :=
  match replacement, string with
  | some replacement, some string => do
      let n ← m.load replacement
      let (newKey, heap) := strdup grants (some string) (m.heap.release n.nameBlocks)
      let m : Memory D := { m with heap }
      let m ← m.edit replacement ({ · with string := newKey.join, stringIsConst := false })
      let (_, m) ← replaceItemViaPointer m object
        (← getObjectItemAt m object (some string) caseSensitive) (some replacement)
      return (true, m)
  | _, _ => return (false, m)

/-- `cJSON_AddItemReferenceToObject`. -/
def addItemReferenceToObject (grants : Nat → Bool) (m : Memory D) (object : Option Nat)
    (string : Option CStr) (item : Option Nat) : Except Stop (Memory D) :=
  match object, string with
  | some object, some string => do
      let (reference, m) ← createReference grants m item
      return (← addItemToObject grants m (some object) (some string) reference false).2
  | _, _ => return m

/-! ## Creating -/

section Create

variable (dbl : Doubles) (grants : Nat → Bool) (m : Memory dbl.Double)

/-- The functions that make an item without a string. -/
def createItem (type : Kind) (valueint : Int) (valuedouble : dbl.Double) :
    Option Nat × Memory dbl.Double :=
  m.new grants { Node.zero dbl with type, valueint, valuedouble }

def createNull : Option Nat × Memory dbl.Double := createItem dbl grants m .null 0 dbl.zero

def createTrue : Option Nat × Memory dbl.Double := createItem dbl grants m .true 0 dbl.zero

def createFalse : Option Nat × Memory dbl.Double := createItem dbl grants m .false 0 dbl.zero

def createBool (b : Bool) : Option Nat × Memory dbl.Double :=
  createItem dbl grants m (if b then .true else .false) 0 dbl.zero

def createNumber (num : dbl.Double) : Option Nat × Memory dbl.Double :=
  createItem dbl grants m .number (dbl.saturate num) num

def createArray : Option Nat × Memory dbl.Double := createItem dbl grants m .array 0 dbl.zero

def createObject : Option Nat × Memory dbl.Double := createItem dbl grants m .object 0 dbl.zero

/-- The functions that make an item with a string of its own. -/
def createText (type : Kind) (string : Option CStr) :
    Except Stop (Option Nat × Memory dbl.Double) :=
  match m.new grants { Node.zero dbl with type } with
  | (none, m) => return (none, m)
  | (some item, m) =>
      match string.map fun s => strdup grants (some s) m.heap with
      | some (some valuestring, heap) => do
          let m : Memory dbl.Double := { m with heap }
          return (some item, ← m.edit item ({ · with valuestring }))
      | some (none, heap) => do return (none, ← delete { m with heap } (some item))
      -- `cJSON_strdup` of NULL is NULL
      | none => do return (none, ← delete m (some item))

def createString (string : Option CStr) : Except Stop (Option Nat × Memory dbl.Double) :=
  createText dbl grants m .string string

def createRaw (raw : Option CStr) : Except Stop (Option Nat × Memory dbl.Double) :=
  createText dbl grants m .raw raw

def createStringReference (string : Option CStr) : Option Nat × Memory dbl.Double :=
  m.new grants { Node.zero dbl with type := .string, isReference := true, valuestring := string }

def createObjectReference (child : Option Nat) : Option Nat × Memory dbl.Double :=
  m.new grants { Node.zero dbl with type := .object, isReference := true, child }

def createArrayReference (child : Option Nat) : Option Nat × Memory dbl.Double :=
  m.new grants { Node.zero dbl with type := .array, isReference := true, child }

end Create

/-- The functions that add an item just created to an object, or delete it. -/
def addCreatedToObject (grants : Nat → Bool) (object : Option Nat) (name : Option CStr)
    (created : Option Nat × Memory D) : Except Stop (Option Nat × Memory D) := do
  let (added, m) ← addItemToObject grants created.2 object name created.1 false
  if added then return (created.1, m)
  else return (none, ← delete m created.1)

section AddCreated

variable (dbl : Doubles) (grants : Nat → Bool) (m : Memory dbl.Double) (object : Option Nat)
  (name : Option CStr)

def addNullToObject : Except Stop (Option Nat × Memory dbl.Double) :=
  addCreatedToObject grants object name (createNull dbl grants m)

def addTrueToObject : Except Stop (Option Nat × Memory dbl.Double) :=
  addCreatedToObject grants object name (createTrue dbl grants m)

def addFalseToObject : Except Stop (Option Nat × Memory dbl.Double) :=
  addCreatedToObject grants object name (createFalse dbl grants m)

def addBoolToObject (boolean : Bool) : Except Stop (Option Nat × Memory dbl.Double) :=
  addCreatedToObject grants object name (createBool dbl grants m boolean)

def addNumberToObject (number : dbl.Double) : Except Stop (Option Nat × Memory dbl.Double) :=
  addCreatedToObject grants object name (createNumber dbl grants m number)

def addObjectToObject : Except Stop (Option Nat × Memory dbl.Double) :=
  addCreatedToObject grants object name (createObject dbl grants m)

def addArrayToObject : Except Stop (Option Nat × Memory dbl.Double) :=
  addCreatedToObject grants object name (createArray dbl grants m)

def addStringToObject (string : Option CStr) : Except Stop (Option Nat × Memory dbl.Double) := do
  addCreatedToObject grants object name (← createString dbl grants m string)

def addRawToObject (raw : Option CStr) : Except Stop (Option Nat × Memory dbl.Double) := do
  addCreatedToObject grants object name (← createRaw dbl grants m raw)

end AddCreated

end JsonRead

end BeEasy
