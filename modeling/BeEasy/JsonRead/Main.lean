import BeEasy.JsonRead.Compare
import BeEasy.JsonRead.RoundTrip

/-!
# JsonRead — Main

`jsonRead.c`: a file is read and parsed, a member of its member `Wireless` is
printed, and the type of that one's member `Enable` is the result. The text that
is printed is never freed, and where the parser fails the length of the file is
the result.
-/

namespace BeEasy

open CVerif

namespace JsonRead

/-! ## The program -/

/-- What the calls of libc answer: what is in a file that can be opened, whether
each `fseek` succeeds, `ftell`, and how many bytes can be read before an error. -/
structure FileCalls where
  fopen : CStr → Option (List Byte)
  seekEnd : Bool
  ftell : Int
  seekSet : Bool
  fread : Nat

/-- What `main` prints, line by line. -/
inductive Line where
  | usage
  /-- `fopen %s fail`. -/
  | fopenFails (inputName : CStr)
  /-- `fseek %s fail`. -/
  | seekEndFails (inputName : CStr)
  /-- `get file %s size fail`. -/
  | sizeFails (inputName : CStr)
  /-- `MALLOC Failed`. -/
  | mallocFails
  /-- `SEEK file's start FAILED!`. -/
  | seekSetFails
  /-- `READ file ERROR!`. -/
  | readFails
  /-- `JSON Parse Failed, Try again`. -/
  | parseFails
  /-- `the config file is damaged!`. -/
  | damaged
  /-- `can not find 3G info`. -/
  | noInfo
  /-- What `cJSON_Print` returns, NULL too. -/
  | printed (text : Option (List Byte))
  /-- `can not find Enable info`. -/
  | noEnable

/-- The bit in `type`. -/
def Kind.bits : Kind → Nat
  | .invalid => 0
  | .false => 1
  | .true => 2
  | .null => 4
  | .number => 8
  | .string => 16
  | .array => 32
  | .object => 64
  | .raw => 128

/-- All of `type`. -/
def Item.typeBits {D : Type} (item : Item D) : Nat :=
  item.type.bits + (if item.isReference then 256 else 0) + (if item.stringIsConst then 512 else 0)

/-- `"Wireless"`. -/
def wireless : CStr := CStr.at [87, 105, 114, 101, 108, 101, 115, 115]

/-- `"Enable"`. -/
def enable : CStr := CStr.at [69, 110, 97, 98, 108, 101]

/-- The printer and the buffer have no loop that could run out of rounds. -/
def stopOf {α : Type} : Except Fault α → Except Stop α
  | .ok a => .ok a
  | .error _ => .error .outOfBounds

section Program

variable (dbl : Doubles) (hooks : Hooks) (calls : FileCalls)

/-- The part of `main` behind the parser: `Ret`, what is printed, and the memory. -/
def showMember (cjson : Item dbl.Double) (findstr : CStr) (heap : Heap) :
    Except Stop (Int × List Line × Heap) :=
  match getObjectItem cjson.child (some wireless) true with
  | none => return (-1, [.damaged], heap)
  | some rootObject =>
      match getObjectItem rootObject.child (some findstr) true with
      | none => return (-1, [.noInfo], heap)
      | some strInFile => do
          let (text, heap) ← stopOf (print hooks dbl strInFile true heap)
          match getObjectItem strInFile.child (some enable) true with
          | none => return (-1, [.printed text, .noEnable], heap)
          | some enableInfo => return (enableInfo.typeBits, [.printed text], heap)

/-- The part of `main` behind `fread`, with `quit`. -/
def showFile (readLenth : BitVec 32) (dataBuf : List Byte) (findstr : CStr) (heap : Heap) :
    Except Stop (Int × List Line × Heap) := do
  let dataBuf ← stopOf (writeBytes dataBuf readLenth.toNat [0])
  let result ← parse dbl hooks.grants (CStr.at dataBuf) heap
  match result.item with
  -- `Ret` is still what `fread` returned
  | none => return (readLenth.toInt, [.parseFails], result.heap.release 1)
  | some cjson =>
      let (ret, lines, heap) ← showMember dbl hooks cjson findstr result.heap
      return (ret, lines, (heap.delete [cjson]).release 1)

/-- The part of `main` behind `fopen`. -/
def readFile (inputName : CStr) (file : List Byte) (findstr : CStr) (heap : Heap) :
    Except Stop (Int × List Line × Heap) :=
  if !calls.seekEnd then return (-1, [.seekEndFails inputName], heap)
  else
    let readLenth := BitVec.ofInt 32 calls.ftell
    -- as a `long`, an `unsigned int` is never -1
    if (readLenth.toNat : Int) = -1 then return (-1, [.sizeFails inputName], heap)
    else
      match heap.allocate hooks.grants with
      | (false, heap) => return (-1, [.mallocFails], heap)
      | (true, heap) =>
          let dataBuf := List.replicate (readLenth + 1).toNat (0 : Byte)
          if !calls.seekSet then return (-1, [.seekSetFails], heap.release 1)
          else do
            let bytes := file.take (min readLenth.toNat calls.fread)
            let dataBuf ← stopOf (writeBytes dataBuf 0 bytes)
            if bytes.length ≠ readLenth.toNat then return (-1, [.readFails], heap.release 1)
            else showFile dbl hooks readLenth dataBuf findstr heap

/-- `main`, on `argv`. -/
def main (argv : List CStr) (heap : Heap) : Except Stop (Int × List Line × Heap) :=
  match argv with
  | _ :: input :: find :: _ =>
      let inputName := CStr.at (strncpy input.bytes 255)
      let findstr := CStr.at (strncpy find.bytes 255)
      match calls.fopen inputName with
      | none => return (-1, [.fopenFails inputName], heap)
      | some file => readFile dbl hooks calls inputName file findstr heap
  | _ => return (-1, [.usage], heap)

end Program

/-! ## Memory -/

/-- The blocks that are printed, and freed by nobody. -/
def Line.leaks : Line → Nat
  | .printed text => text.toList.length
  | _ => 0

/-- `ftell` tells the length of the file, and an `unsigned int` can count it and
the NUL behind it. -/
structure FileCalls.Tells (calls : FileCalls) (file : List Byte) : Prop where
  ftell : calls.ftell = file.length
  fits : file.length + 1 < 2 ^ 32

/-- Nothing that `main` asks of the file fails. -/
structure FileCalls.Reads (calls : FileCalls) (file : List Byte) : Prop
    extends FileCalls.Tells calls file where
  seekEnd : calls.seekEnd = true
  seekSet : calls.seekSet = true
  fread : file.length ≤ calls.fread

/-- The one file there is. -/
def FileCalls.only (file : List Byte) : FileCalls :=
  ⟨fun _ => some file, true, file.length, true, file.length⟩

theorem FileCalls.only_reads {file : List Byte} (h : file.length + 1 < 2 ^ 32) :
    (FileCalls.only file).Reads file where
  ftell := rfl
  fits := h
  seekEnd := rfl
  seekSet := rfl
  fread := Nat.le_refl _

section Memory

variable {dbl : Doubles} {hooks : Hooks} {calls : FileCalls}

theorem FileCalls.Tells.length {file : List Byte} (h : calls.Tells file) :
    (BitVec.ofInt 32 calls.ftell).toNat = file.length ∧
      (BitVec.ofInt 32 calls.ftell + 1).toNat = file.length + 1 := by
  have hfits := h.fits
  rw [h.ftell, BitVec.ofInt_natCast]
  constructor
  · rw [BitVec.toNat_ofNat, Nat.mod_eq_of_lt (by omega)]
  · rw [BitVec.toNat_add, BitVec.toNat_ofNat, Nat.mod_eq_of_lt (by omega : file.length < 2 ^ 32)]
    exact Nat.mod_eq_of_lt hfits

/-- The NUL is already there. -/
theorem dataBuf_nul {file : List Byte} {n : Nat} (h : n = file.length) :
    writeBytes (file ++ [0]) n [0] = .ok (file ++ [0]) := by
  subst h
  have hfits : [(0 : Byte)].length ≤ [(0 : Byte)].length := Nat.le_refl _
  rw [writeBytes_append hfits, List.append_assoc]
  rfl

/-- The file is in memory, with a NUL behind it, or a call has failed. -/
theorem readFile_cases {file : List Byte} (htells : calls.Tells file) (inputName findstr : CStr)
    (heap : Heap) :
    (∃ line heap', readFile dbl hooks calls inputName file findstr heap
        = .ok (-1, [line], heap') ∧ heap'.live = heap.live ∧ line.leaks = 0 ∧
      ¬(calls.Reads file ∧ hooks.grants heap.calls = true)) ∨
      readFile dbl hooks calls inputName file findstr heap
        = showFile dbl hooks (BitVec.ofInt 32 calls.ftell) (file ++ [0]) findstr
            ⟨heap.calls + 1, heap.live + 1⟩ := by
  obtain ⟨hlength, hsize⟩ := htells.length
  unfold readFile
  cases hend : calls.seekEnd with
  | false =>
      exact .inl ⟨_, _, rfl, rfl, rfl,
        fun h => absurd (hend.symm.trans h.1.seekEnd) Bool.false_ne_true⟩
  | true =>
  simp only [Bool.not_true, Bool.false_eq_true, if_false, hlength, hsize]
  rw [if_neg (by omega)]
  by_cases hgrants : hooks.grants heap.calls = true
  swap
  · rw [Heap.allocate_refused hgrants]
    exact .inl ⟨_, _, rfl, rfl, rfl, fun h => hgrants h.2⟩
  rw [Heap.allocate_granted hgrants]
  cases hset : calls.seekSet with
  | false =>
      exact .inl ⟨_, _, rfl, rfl, rfl,
        fun h => absurd (hset.symm.trans h.1.seekSet) Bool.false_ne_true⟩
  | true =>
  have hfits : (file.take (min file.length calls.fread)).length ≤ file.length + 1 :=
    (List.length_take_le' _ _).trans (Nat.le_succ _)
  simp only [Bool.not_true, Bool.false_eq_true, if_false, writeBytes_zeros hfits, stopOf, bind,
    Except.bind]
  by_cases hread : (file.take (min file.length calls.fread)).length = file.length
  swap
  · rw [if_pos hread]
    refine .inl ⟨_, _, rfl, rfl, rfl, fun h => hread ?_⟩
    rw [Nat.min_eq_left h.1.fread, List.take_length]
  have htake : file.take (min file.length calls.fread) = file :=
    (List.take_prefix _ _).eq_of_length hread
  rw [if_neg (not_not.mpr hread), htake, Nat.add_sub_cancel_left]
  exact .inr rfl

theorem readFile_reads {file : List Byte} (hreads : calls.Reads file)
    (hgrants : ∀ n, hooks.grants n = true) (inputName findstr : CStr) (heap : Heap) :
    readFile dbl hooks calls inputName file findstr heap
      = showFile dbl hooks (BitVec.ofInt 32 calls.ftell) (file ++ [0]) findstr
          ⟨heap.calls + 1, heap.live + 1⟩ := by
  rcases readFile_cases hreads.toTells inputName findstr heap with
    ⟨_, _, _, _, _, hfails⟩ | hshow
  · exact absurd ⟨hreads, hgrants _⟩ hfails
  · exact hshow

/-- The test of `ReadLenth` never holds: where `ftell` fails, `malloc` is asked for
no byte at all, and the file is read into that. -/
theorem main_ftellFails (program input find : CStr) (rest : List CStr) {file : List Byte}
    (hopen : calls.fopen (CStr.at (strncpy input.bytes 255)) = some file) (hfile : file ≠ [])
    (hseek : calls.seekEnd = true ∧ calls.seekSet = true) (hftell : calls.ftell = -1)
    (hfread : 0 < calls.fread) {heap : Heap} (hgrants : hooks.grants heap.calls = true) :
    main dbl hooks calls (program :: input :: find :: rest) heap = .error .outOfBounds := by
  have hbytes : ¬0 + (file.take (min (BitVec.ofInt 32 (-1)).toNat calls.fread)).length
      ≤ (List.replicate (BitVec.ofInt 32 (-1) + 1).toNat (0 : Byte)).length := by
    have hsize : (BitVec.ofInt 32 (-1) + 1).toNat = 0 := rfl
    have hcount : (BitVec.ofInt 32 (-1)).toNat = 2 ^ 32 - 1 := rfl
    have hlength := List.length_pos_of_ne_nil hfile
    rw [hsize, hcount, List.length_take, List.length_replicate]
    omega
  simp only [main, hopen, readFile, hseek.1, hseek.2, hftell, Heap.allocate_granted hgrants,
    Bool.not_true, Bool.false_eq_true, if_false, writeBytes, if_neg hbytes]
  rfl

theorem main_ftellFails_bracket :
    main digits ⟨fun _ => true, fun _ _ => 0, true⟩ ⟨fun _ => some [91], true, -1, true, 1⟩
      [⟨[], by decide⟩, ⟨[102], by decide⟩, ⟨[51, 71], by decide⟩] ⟨0, 0⟩ = .error .outOfBounds :=
  main_ftellFails ⟨[], by decide⟩ ⟨[102], by decide⟩ ⟨[51, 71], by decide⟩ [] rfl
    (List.cons_ne_nil _ _) ⟨rfl, rfl⟩ rfl Nat.one_pos rfl

end Memory

/-! ## What it looks up -/

section Members

variable {dbl : Doubles}

/-- The first member of this name, as far as the name is a C string. -/
def memberOf {D : Type} (name : CStr) : Json D → Option (Json D)
  | .object ms => (ms.find? fun m => CStr.at m.1 = name).map (·.2)
  | _ => none

theorem child_put (item : Item dbl.Double) (v : Json dbl.Double) (hchild : item.child = []) :
    (put dbl item v).child = match v with
      | .array vs => putElements dbl vs
      | .object ms => putMembers dbl ms
      | _ => [] := by
  cases v with
  | bool b => cases b <;> exact hchild
  | null => exact hchild
  | number n => exact hchild
  | string s => exact hchild
  | array vs => rfl
  | object ms => rfl

theorem string_put (item : Item dbl.Double) (v : Json dbl.Double) :
    (put dbl item v).string = item.string := by
  cases v with
  | bool b => cases b <;> rfl
  | _ => rfl

theorem typeBits_put (item : Item dbl.Double) (v : Json dbl.Double)
    (hreference : item.isReference = false) (hconst : item.stringIsConst = false) :
    (put dbl item v).typeBits = (itemOf dbl v).typeBits := by
  cases item
  cases hreference
  cases hconst
  cases v with
  | bool b => cases b <;> rfl
  | _ => rfl

/-- The item in the list of an object with this name. -/
def named (name : List Byte) : Item dbl.Double :=
  { Item.new dbl with string := some (CStr.at name) }

/-- The search with the case minded, by one item: found, over, or on to the rest. -/
theorem getObjectItem_cons {D : Type} (item : Item D) (items : List (Item D)) (name : CStr) :
    getObjectItem (item :: items) (some name) true
      = match item.string with
        | none => none
        | some k => if k = name then some item else getObjectItem items (some name) true := by
  unfold getObjectItem
  cases hstring : item.string with
  | none =>
      have hstop : stopsAt true name item.string = true := by
        rw [hstring]
        rfl
      simp only [List.find?_cons, hstop]
      rw [hstring]
      rfl
  | some k =>
      have hstop : stopsAt true name item.string = decide (k = name) := by
        simp only [stopsAt, hstring, if_true, Option.isNone_some, Bool.false_or, Option.some.injEq]
      by_cases hk : k = name
      · simp only [List.find?_cons, hstop, hk, decide_true, if_true]
        rw [hstring]
        rfl
      · simp only [List.find?_cons, hstop, hk, decide_false, if_false]

theorem getObjectItem_putMembers (ms : List (List Byte × Json dbl.Double)) (name : CStr) :
    getObjectItem (putMembers dbl ms) (some name) true
      = (ms.find? fun m => CStr.at m.1 = name).map fun m => put dbl (named m.1) m.2 := by
  induction ms with
  | nil => rfl
  | cons m ms ih =>
      have hstring : (put dbl (named m.1) m.2).string = some (CStr.at m.1) := string_put _ m.2
      have hcons : putMembers dbl (m :: ms) = put dbl (named m.1) m.2 :: putMembers dbl ms := rfl
      rw [hcons, getObjectItem_cons, hstring, ih, List.find?_cons]
      by_cases hk : CStr.at m.1 = name
      · simp only [hk, decide_true, if_true, Option.map_some]
      · simp only [hk, decide_false, if_false]

/-- The elements of an array have no names, and the first ends the search. -/
theorem getObjectItem_putElements (vs : List (Json dbl.Double)) (name : CStr) :
    getObjectItem (putElements dbl vs) (some name) true = none := by
  cases vs with
  | nil => rfl
  | cons v vs =>
      have hcons : putElements dbl (v :: vs) = put dbl (Item.new dbl) v :: putElements dbl vs := rfl
      rw [hcons, getObjectItem_cons, string_put]
      rfl

theorem getObjectItem_put (item : Item dbl.Double) (v : Json dbl.Double) (name : CStr)
    (hchild : item.child = []) :
    (getObjectItem (put dbl item v).child (some name) true = none ∧ memberOf name v = none) ∨
      ∃ k v', memberOf name v = some v' ∧
        getObjectItem (put dbl item v).child (some name) true = some (put dbl (named k) v') := by
  rw [child_put item v hchild]
  cases v with
  | null => exact .inl ⟨rfl, rfl⟩
  | bool b => exact .inl ⟨rfl, rfl⟩
  | number n => exact .inl ⟨rfl, rfl⟩
  | string s => exact .inl ⟨rfl, rfl⟩
  | array vs => exact .inl ⟨getObjectItem_putElements vs name, rfl⟩
  | object ms =>
      simp only [getObjectItem_putMembers, memberOf]
      cases ms.find? fun m => CStr.at m.1 = name with
      | none => exact .inl ⟨rfl, rfl⟩
      | some m => exact .inr ⟨m.1, m.2, rfl, rfl⟩

/-- The member that `main` shows the type of. -/
def enabledOf {D : Type} (findstr : CStr) (v : Json D) : Option (Json D) :=
  (memberOf wireless v).bind fun root => (memberOf findstr root).bind (memberOf enable)

theorem showMember_itemOf (hsprintf : dbl.Sprintf) (hooks : Hooks) (v : Json dbl.Double)
    (findstr : CStr) (heap : Heap) :
    ∃ lines heap', showMember dbl hooks (itemOf dbl v) findstr heap
      = .ok (match enabledOf findstr v with
          | some enabled => ((itemOf dbl enabled).typeBits : Int)
          | none => -1, lines, heap') := by
  unfold showMember enabledOf itemOf
  rcases getObjectItem_put (Item.new dbl) v wireless rfl with
    ⟨hget, hmember⟩ | ⟨k, root, hmember, hget⟩
  · simp only [hget, hmember]
    exact ⟨_, _, rfl⟩
  simp only [hget, hmember, Option.bind_some]
  rcases getObjectItem_put (named k) root findstr rfl with
    ⟨hget, hmember⟩ | ⟨k, found, hmember, hget⟩
  · simp only [hget, hmember]
    exact ⟨_, _, rfl⟩
  obtain ⟨text, heap', hprint, _⟩ :=
    print_returned hsprintf hooks (put dbl (named k) found) true heap
  simp only [hget, hmember, Option.bind_some, hprint, stopOf, bind, Except.bind]
  rcases getObjectItem_put (named k) found enable rfl with
    ⟨hget, hmember⟩ | ⟨k, enabled, hmember, hget⟩
  · simp only [hget, hmember]
    exact ⟨_, _, rfl⟩
  · simp only [hget, hmember, typeBits_put (named k) enabled rfl rfl]
    exact ⟨_, _, rfl⟩

/-- With a document in the file, and nothing that fails, `main` makes the type
of the member `Enable` its result, and -1 where one of the three members is
missing; for a document that is nested too deep, the result is its length. -/
theorem main_document (dbl : Doubles) (hsprintf : dbl.Sprintf) {hooks : Hooks}
    (hgrants : ∀ n, hooks.grants n = true) {calls : FileCalls} (file : CStr)
    (hreads : calls.Reads file.bytes) (v : Json dbl.Double) (doc : Document White dbl v file.bytes)
    (program input find : CStr) (rest : List CStr)
    (hopen : calls.fopen (CStr.at (strncpy input.bytes 255)) = some file.bytes) (heap : Heap) :
    ∃ lines heap', main dbl hooks calls (program :: input :: find :: rest) heap
      = .ok (if v.depth ≤ CJSON_NESTING_LIMIT then
          match enabledOf (CStr.at (strncpy find.bytes 255)) v with
          | some enabled => ((itemOf dbl enabled).typeBits : Int)
          | none => -1
        else (BitVec.ofNat 32 file.bytes.length).toInt, lines, heap') := by
  have hlength := hreads.toTells.length.1
  have hat : CStr.at (file.bytes ++ [0]) = file := by rw [CStr.at_append_nul, CStr.at_eq file.noNul]
  obtain ⟨result, hparse, hitem, _⟩ :=
    parseWithOpts_reads dbl hgrants file v doc false ⟨heap.calls + 1, heap.live + 1⟩
  simp only [main, hopen, readFile_reads hreads hgrants]
  unfold showFile parse
  simp only [dataBuf_nul hlength, hat, stopOf, hparse, bind, Except.bind, hitem]
  by_cases hfits : v.depth ≤ CJSON_NESTING_LIMIT
  · obtain ⟨lines, heap', hshow⟩ :=
      showMember_itemOf hsprintf hooks v (CStr.at (strncpy find.bytes 255)) result.heap
    simp only [if_pos hfits, hshow]
    exact ⟨_, _, rfl⟩
  · simp only [if_neg hfits, hreads.ftell, BitVec.ofInt_natCast]
    exact ⟨_, _, rfl⟩

/-- An object with one member, of this text. -/
def memberText (k t : List Byte) : List Byte :=
  123 :: (34 :: k.flatMap escapeOf ++ [34] ++ [58] ++ t) ++ [125]

theorem text_memberText {k t : List Byte} {v : Json dbl.Double} (h : v.Text White dbl.Lexeme t) :
    (Json.object [(k, v)]).Text White dbl.Lexeme (memberText k t) := by
  have hmembers := Json.Members.one (a := []) (b := []) (c := []) (d := []) .nil (chars_flatMap k)
    .nil .nil h .nil
  rw [List.append_nil] at hmembers
  exact .object hmembers

/-- No byte order mark. -/
theorem noMark : ([] : List Byte) = [] ∨ ([] : List Byte) = utf8Bom := .inl rfl

/-- `{"Wireless":{"3G":{"Enable":true}}}`. -/
def enabled3G : List Byte :=
  memberText wireless.bytes (memberText [51, 71] (memberText enable.bytes [116, 114, 117, 101]))

def enabled3G_document : Document White digits
    (.object [(wireless.bytes, .object [([51, 71], .object [(enable.bytes, .bool true)])])])
    enabled3G where
  mark := []
  before := []
  text := enabled3G
  after := []
  bytes_eq := (List.append_nil _).symm
  mark_eq := noMark
  before_gap := .nil
  isText := text_memberText (text_memberText (text_memberText .true))
  after_gap := .nil

theorem main_document_enabled3G :
    ∃ lines heap', main digits ⟨fun _ => true, fun _ _ => 0, true⟩ (.only enabled3G)
      [⟨[], by decide⟩, ⟨[102], by decide⟩, ⟨[51, 71], by decide⟩] ⟨0, 0⟩
        = .ok (2, lines, heap') :=
  main_document digits digits_sprintf (fun _ => rfl) ⟨enabled3G, by decide⟩
    (FileCalls.only_reads (by decide)) _ enabled3G_document ⟨[], by decide⟩ ⟨[102], by decide⟩
    ⟨[51, 71], by decide⟩ [] rfl ⟨0, 0⟩

end Members

end JsonRead

end BeEasy
