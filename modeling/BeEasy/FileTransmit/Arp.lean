import BeEasy.CVerif.Scanf

/-!
# FileTransmit — ARP table

`getMacFromArp` of `ethernetDemo/sendEther.c` and of `fileTransmit`: the
address a host has in `/proc/net/arp`. Both skip the header line and read
row after row until one is the host's. The first version returns a copy of
what it found, or NULL; the second was changed to store it and to return
whether it did, and returns 0 for both.
-/

namespace BeEasy

open CVerif

namespace FileTransmit

/-- `[0-9.]`. -/
def isIpChar (b : Byte) : Bool := b = 46 || (48 ≤ b && b ≤ 57)

/-- `[A-Fa-f0-9:]`. -/
def isMacChar (b : Byte) : Bool :=
  (65 ≤ b && b ≤ 70) || (97 ≤ b && b ≤ 102) || (48 ≤ b && b ≤ 57) || b = 58

/-- `" %15[0-9.] %*s %*s %17[A-Fa-f0-9:] %*s %*s"`. -/
def arpFormat : List Directive :=
  [.space, .set 15 isIpChar, .space, .skipString, .space, .skipString, .space, .set 17 isMacChar,
    .space, .skipString, .space, .skipString]

/-- The loop both versions have: the address in the first row that is read
and has this IP. -/
def searchArp (reqIp : List Byte) (procFile : Scanner) : Option (List Byte) :=
  if procFile.eof then none
  else
    match _h : procFile.scanf arpFormat with
    | ([ip, mac], next) => if ip = reqIp then some mac else searchArp reqIp next
    | _ => none
termination_by procFile.rest.length
decreasing_by
  have hlt := procFile.length_scanf_lt arpFormat (by rw [_h]; nofun)
  rwa [_h] at hlt

/-- `getMacFromArp(req_ip, macStr)`, by its result and `macStr`; `proc` is what
is read from `/proc/net/arp` if it can be opened. -/
def getMacFromArp (proc : Option (List Byte)) (reqIp macStr : List Byte) : Int × List Byte :=
  match proc with
  | none => (-1, macStr)
  | some content =>
      match searchArp reqIp (Scanner.skipLine content) with
      | some mac => (0, mac)
      | none => (0, macStr)

end FileTransmit

namespace EthernetDemo

/-- `getMacFromArp(req_ip)`: the string returned, or NULL. -/
def getMacFromArp (proc : Option (List Byte)) (reqIp : List Byte) : Option (List Byte) :=
  match proc with
  | none => none
  | some content => FileTransmit.searchArp reqIp (Scanner.skipLine content)

end EthernetDemo

namespace FileTransmit

/-! ## Tables -/

/-- A field of characters of one kind. -/
structure Field (accepts : Byte → Bool) where
  bytes : List Byte
  ne_nil : bytes ≠ []
  all : ∀ b ∈ bytes, accepts b = true

/-- A field with no white space in it. -/
abbrev Word := Field fun b => !isSpace b

/-- A row of the table, and how many blanks are between its fields beyond one. -/
structure ArpRow where
  ip : Field isIpChar
  hwType : Word
  flags : Word
  mac : Field isMacChar
  mask : Word
  device : Word
  ip_le : ip.bytes.length ≤ 15
  mac_le : mac.bytes.length ≤ 17
  gaps : Fin 5 → Nat

def blanks (n : Nat) : List Byte := List.replicate (n + 1) 32

/-- The row with its newline, and what is behind it. -/
def ArpRow.line (row : ArpRow) (behind : List Byte) : List Byte :=
  row.ip.bytes ++ (blanks (row.gaps 0) ++ (row.hwType.bytes ++ (blanks (row.gaps 1) ++
    (row.flags.bytes ++ (blanks (row.gaps 2) ++ (row.mac.bytes ++ (blanks (row.gaps 3) ++
      (row.mask.bytes ++ (blanks (row.gaps 4) ++ (row.device.bytes ++ newline :: behind))))))))))

/-- A table: a header line and rows. -/
structure ArpTable where
  header : List Byte
  header_line : newline ∉ header
  rows : List ArpRow

def ArpTable.text (table : ArpTable) : List Byte :=
  table.header ++ newline :: table.rows.foldr ArpRow.line []

/-- The first row with this IP. -/
def ArpTable.find (table : ArpTable) (reqIp : List Byte) : Option ArpRow :=
  table.rows.find? fun row => row.ip.bytes = reqIp

/-- Both versions answer as the table says. -/
structure ArpRight (table : ArpTable) (reqIp macStr : List Byte) : Prop where
  found : ∀ row, table.find reqIp = some row →
    getMacFromArp (some table.text) reqIp macStr = (0, row.mac.bytes)
  missing : table.find reqIp = none →
    getMacFromArp (some table.text) reqIp macStr = (-1, macStr)
  same : EthernetDemo.getMacFromArp (some table.text) reqIp
    = (table.find reqIp).map fun row => row.mac.bytes

section Rows

variable {spaces behind reqIp : List Byte} {rows : List ArpRow}

theorem isSpace_blanks (n : Nat) : ∀ b ∈ blanks n, isSpace b = true := by
  intro b hb
  rw [List.eq_of_mem_replicate hb]
  rfl

theorem isSpace_of_isIpChar (b : Byte) (h : isIpChar b = true) : isSpace b = false := by
  revert b
  decide

theorem isSpace_of_isMacChar (b : Byte) (h : isMacChar b = true) : isSpace b = false := by
  revert b
  decide

theorem Word.notSpace (word : Word) : ∀ b ∈ word.bytes, isSpace b = false := by
  intro b hb
  exact Bool.not_eq_true' .. ▸ word.all b hb

/-- A string is skipped with the white space before it. -/
theorem scanf_word (hspaces : ∀ b ∈ spaces, isSpace b = true) (word : Word) {b : Byte}
    (hb : isSpace b = true) (ds : List Directive) :
    (Scanner.mk (spaces ++ (word.bytes ++ b :: behind)) false).scanf (.space :: .skipString :: ds)
      = (Scanner.mk (b :: behind) false).scanf ds := by
  rw [Scanner.scanf_unassigned (Scanner.run_space hspaces word.ne_nil word.notSpace),
    Scanner.scanf_unassigned (Scanner.run_skipString word.ne_nil word.notSpace hb)]

theorem scanf_word_blanks (hspaces : ∀ b ∈ spaces, isSpace b = true) (word : Word) (n : Nat)
    (ds : List Directive) :
    (Scanner.mk (spaces ++ (word.bytes ++ (blanks n ++ behind))) false).scanf
        (.space :: .skipString :: ds)
      = (Scanner.mk (blanks n ++ behind) false).scanf ds :=
  scanf_word hspaces word rfl ds

/-- A field is assigned, and the white space before it skipped. -/
theorem scanf_field_blanks (hspaces : ∀ b ∈ spaces, isSpace b = true) {accepts : Byte → Bool}
    (field : Field accepts) (hchars : ∀ b, accepts b = true → isSpace b = false) {width : Nat}
    (hwidth : field.bytes.length ≤ width) (n : Nat) (ds : List Directive) :
    (Scanner.mk (spaces ++ (field.bytes ++ (blanks n ++ behind))) false).scanf
        (.space :: .set width accepts :: ds)
      = (field.bytes :: ((Scanner.mk (blanks n ++ behind) false).scanf ds).1,
        ((Scanner.mk (blanks n ++ behind) false).scanf ds).2) := by
  have hfield : ∀ b ∈ field.bytes, isSpace b = false := fun b hb => hchars b (field.all b hb)
  have hblank : accepts 32 = false := by
    by_contra h
    exact absurd (hchars 32 (Bool.eq_true_of_not_eq_false h)) (by decide)
  rw [Scanner.scanf_unassigned (Scanner.run_space hspaces field.ne_nil hfield)]
  exact Scanner.scanf_assigned (Scanner.run_set field.ne_nil hwidth field.all hblank)

/-- **A row is read as its IP and its address**, up to its newline. -/
theorem scanf_line (hspaces : ∀ b ∈ spaces, isSpace b = true) (row : ArpRow)
    (behind : List Byte) :
    (Scanner.mk (spaces ++ row.line behind) false).scanf arpFormat
      = ([row.ip.bytes, row.mac.bytes], ⟨newline :: behind, false⟩) := by
  rw [arpFormat, ArpRow.line, scanf_field_blanks hspaces row.ip isSpace_of_isIpChar row.ip_le,
    scanf_word_blanks (isSpace_blanks _), scanf_word_blanks (isSpace_blanks _),
    scanf_field_blanks (isSpace_blanks _) row.mac isSpace_of_isMacChar row.mac_le,
    scanf_word_blanks (isSpace_blanks _), scanf_word (isSpace_blanks _) row.device rfl]
  rfl

/-- **The loop finds the first row with the IP.** -/
theorem searchArp_rows (hspaces : ∀ b ∈ spaces, isSpace b = true) (rows : List ArpRow)
    (reqIp : List Byte) :
    searchArp reqIp ⟨spaces ++ rows.foldr ArpRow.line [], false⟩
      = (rows.find? fun row => row.ip.bytes = reqIp).map fun row => row.mac.bytes := by
  induction rows generalizing spaces with
  | nil =>
      have hend := @Scanner.scanf_spaces isIpChar spaces 15 hspaces (arpFormat.drop 2)
      rw [List.foldr_nil, List.append_nil, searchArp]
      simp only [Bool.false_eq_true, if_false]
      split
      case h_1 ip mac next h =>
          have hnone := (congrArg Prod.fst h).symm.trans hend
          cases hnone
      case h_2 => rfl
  | cons row rows ih =>
      have hline := scanf_line hspaces row (rows.foldr ArpRow.line [])
      rw [List.foldr_cons, searchArp]
      simp only [Bool.false_eq_true, if_false]
      split
      case h_1 ip mac next h =>
          cases hline.symm.trans h
          by_cases hip : row.ip.bytes = reqIp
          · rw [if_pos hip, List.find?_cons, decide_eq_true hip]
            rfl
          · rw [if_neg hip, List.find?_cons, decide_eq_false hip]
            -- the newline is left for the next row
            have hnewline : ∀ b ∈ [newline], isSpace b = true := by decide
            exact ih hnewline
      case h_2 hnot => exact absurd hline (hnot _ _ _)

end Rows

section Tables

variable (table : ArpTable) (reqIp : List Byte)

theorem searchArp_table : searchArp reqIp (Scanner.skipLine table.text)
    = (table.find reqIp).map fun row => row.mac.bytes := by
  rw [ArpTable.text, Scanner.skipLine_append table.header_line]
  have hspaces : ∀ b ∈ ([] : List Byte), isSpace b = true := nofun
  exact searchArp_rows hspaces table.rows reqIp

theorem find_eq_none_iff : table.find reqIp = none ↔ ∀ row ∈ table.rows, row.ip.bytes ≠ reqIp := by
  simp only [ArpTable.find, List.find?_eq_none, decide_eq_true_eq]

/-- **The version that stores the address answers as the table says exactly
when the table has the host.** -/
theorem arp_right_iff (macStr : List Byte) :
    ArpRight table reqIp macStr ↔ ∃ row ∈ table.rows, row.ip.bytes = reqIp := by
  have hsearch := searchArp_table table reqIp
  constructor
  · intro h
    by_contra hnone
    have hmissing : table.find reqIp = none := by
      rw [find_eq_none_iff]
      exact fun row hrow hip => hnone ⟨row, hrow, hip⟩
    have hresult := h.missing hmissing
    rw [hmissing] at hsearch
    simp [getMacFromArp, hsearch] at hresult
  · intro ⟨row, hrow, hip⟩
    have hfind : table.find reqIp ≠ none := fun h => (find_eq_none_iff _ _).mp h row hrow hip
    refine ⟨fun row' hrow' => ?_, fun h => absurd h hfind, hsearch⟩
    rw [hrow'] at hsearch
    simp [getMacFromArp, hsearch]

end Tables

/-- A table without rows. -/
def noHosts : ArpTable := ⟨[], nofun, []⟩

/-- The address of a host that is not there is not stored, and 0 is returned. -/
theorem missing_host_found : ¬ArpRight noHosts [49] [] := by
  intro h
  have hsearch := searchArp_table noHosts [49]
  have hresult := h.missing rfl
  rw [getMacFromArp, hsearch] at hresult
  exact absurd (congrArg Prod.fst hresult) (by decide)

end FileTransmit

end BeEasy
