import BeEasy.CVerif.Stdio

/-!
# Str2Hex — from text to bytes

`str2hex.c`: a file of hexadecimal digits is read whole, decoded two
characters at a time, and written. `get_base_value` answers 255 for what is
no digit, and `str_to_hex` subtracts that like any other base value.

A `char` is signed, and the differences are computed in `int`. What the
library calls answer is an argument (`Outcomes`).
-/

namespace BeEasy.Str2Hex

open CVerif

/-! ## The decoder -/

/-- `get_base_value`. -/
def getBaseValue (c : Byte) : Byte :=
  if 48 ≤ c.toInt ∧ c.toInt ≤ 57 then 48
  else if 97 ≤ c.toInt ∧ c.toInt ≤ 102 then 87
  else if 65 ≤ c.toInt ∧ c.toInt ≤ 70 then 55
  else 255

/-- `(c - value) & 0xF`. -/
def nibble (c value : Byte) : BitVec 32 :=
  (c.signExtend 32 - value.setWidth 32) &&& 0xF

/-- The byte for two characters. -/
def decodePair (c c' : Byte) : Byte :=
  let high : Byte := (nibble c (getBaseValue c) <<< 4).setWidth 8
  let low : Byte := (nibble c' (getBaseValue c')).setWidth 8
  high ||| low

/-- The loop of `str_to_hex`, for at most `rounds` more rounds. -/
def strToHexFrom (str : List Byte) (len : Nat) :
    Nat → Nat → List Byte → Except Fault (List Byte)
  | 0, _, data => .ok data
  | rounds + 1, i, data =>
      if i < len then do
        let high ← readBytes str i 1
        let low ← readBytes str (i + 1) 1
        let data ← writeBytes data (i / 2) [decodePair (high.headD 0) (low.headD 0)]
        strToHexFrom str len rounds (i + 2) data
      else .ok data

/-- `str_to_hex`: `data` as it leaves it. A round takes two characters, so
`len` rounds are more than there are. -/
def strToHex (str : List Byte) (len : Nat) (data : List Byte) : Except Fault (List Byte) :=
  strToHexFrom str len len 0 data

/-! ## The files -/

/-- The files. A path leads to a file, or to where `fopen` would create one,
links followed; two paths may lead to one file. A length is an `off_t`. -/
structure Files where
  place : List Byte → Nat
  content : Nat → Option (List Byte)
  size : ∀ p bytes, content p = some bytes → bytes.length < 2 ^ 63

/-- What is in the file that a path leads to. -/
def Files.read (files : Files) (path : List Byte) : Option (List Byte) :=
  files.content (files.place path)

def Files.write (files : Files) (path bytes : List Byte) (h : bytes.length < 2 ^ 63) : Files where
  place := files.place
  content p := if p = files.place path then some bytes else files.content p
  size p bs hbs := by
    by_cases hp : p = files.place path
    · rw [if_pos hp] at hbs
      cases hbs
      exact h
    · rw [if_neg hp] at hbs
      exact files.size p bs hbs

/-- `fwrite` into an empty file, with room for so many bytes. -/
def Files.fwrite (files : Files) (path bytes : List Byte) (room : Fin (2 ^ 63)) : Files :=
  files.write path (bytes.take room) (by
    rw [List.length_take]
    exact Nat.lt_of_le_of_lt (Nat.min_le_left _ _) room.isLt)

def SIZE_MAX : Nat := 2 ^ 64 - 1

/-- What the calls answer: whether the two `fopen`, `ftell` and `malloc` of a
size succeed, an `fread` error, and how many bytes `fwrite` can store. -/
structure Outcomes where
  fopenSrc : Bool
  fopenDst : Bool
  ftell : Bool
  malloc : Nat → Bool
  malloc_max : malloc SIZE_MAX = false
  fread : Option Nat
  fwrite : Fin (2 ^ 63)

/-- A `long` as a `size_t`. -/
def sizeT (x : Int) : Nat := (x % 2 ^ 64).toNat

/-- `create_binary_file` from `ftell` on: `text` is what the open source
file holds. -/
def convert (env : Outcomes) (files : Files) (dst text : List Byte) :
    Except Fault (Int × Files) :=
  let fr := InStream.ofContent text
  let fileSize : Int := if env.ftell then text.length else -1
  let strLen := sizeT fileSize
  let binLen := sizeT (fileSize.tdiv 2 + fileSize.tmod 2)
  let bufLen := (strLen + 1) % 2 ^ 64
  if env.malloc bufLen = false then .ok (-1, files)
  else if env.malloc binLen = false then .ok (-1, files)
  else do
    let strbuf := List.replicate bufLen 0
    let binbuf := List.replicate binLen 0
    let (bytes, _) := fr.fread strLen env.fread
    let strbuf ← writeBytes strbuf 0 bytes
    if bytes.length ≠ strLen then return (-1, files)
    let binbuf ← strToHex strbuf strLen binbuf
    let files := files.fwrite dst binbuf env.fwrite
    if (binbuf.take env.fwrite).length ≠ binLen then return (-1, files)
    return (0, files)

/-- `create_binary_file`: what it returns, and the files after. Opening
`dst` empties it, before `src` is read. -/
def createBinaryFile (env : Outcomes) (files : Files) (src dst : List Byte) :
    Except Fault (Int × Files) :=
  if env.fopenSrc = false ∨ files.read src = none then .ok (-1, files)
  else if env.fopenDst = false then .ok (-1, files)
  else
    let files := files.write dst [] (by decide)
    convert env files dst ((files.read src).getD [])

/-! ## Hexadecimal text -/

/-- The digits of 0 to 15, in lower and in upper case. -/
def lowerDigits : List Byte :=
  [48, 49, 50, 51, 52, 53, 54, 55, 56, 57, 97, 98, 99, 100, 101, 102]

def upperDigits : List Byte :=
  [48, 49, 50, 51, 52, 53, 54, 55, 56, 57, 65, 66, 67, 68, 69, 70]

/-- `c` is a digit for `v`. -/
def IsDigit (c : Byte) (v : Nat) : Prop := lowerDigits[v]? = some c ∨ upperDigits[v]? = some c

instance (c : Byte) (v : Nat) : Decidable (IsDigit c v) := inferInstanceAs (Decidable (_ ∨ _))

/-- `text` is the bytes in hexadecimal, in any mixture of cases. -/
def Spells : List Byte → List Byte → Prop
  | [], [] => True
  | b :: bs, c :: c' :: text =>
      IsDigit c (b.toNat / 16) ∧ IsDigit c' (b.toNat % 16) ∧ Spells bs text
  | _, _ => False

/-- An even number of hexadecimal digits and nothing else. -/
def HexText (text : List Byte) : Prop := ∃ bs, Spells bs text

/-- No operation on the files or the memory fails, for a text of `n` bytes. -/
structure Outcomes.Succeeds (env : Outcomes) (n : Nat) : Prop where
  fopenSrc : env.fopenSrc = true
  fopenDst : env.fopenDst = true
  ftell : env.ftell = true
  strbuf : env.malloc (n + 1) = true
  binbuf : env.malloc ((n + 1) / 2) = true
  fread : 0 < n → env.fread = none
  fwrite : (n + 1) / 2 ≤ env.fwrite

/-! ## The loop -/

/-- The bytes for a text; a last character without a partner is paired with
the NUL behind the text. -/
def decode : List Byte → List Byte
  | [] => []
  | [c] => [decodePair c 0]
  | c :: c' :: rest => decodePair c c' :: decode rest

theorem length_decode (text : List Byte) : (decode text).length = (text.length + 1) / 2 := by
  induction text using decode.induct with
  | case1 => rfl
  | case2 c => simp [decode]
  | case3 c c' rest ih =>
      simp only [decode, List.length_cons, ih]
      omega

theorem readBytes_one (pre : List Byte) (c : Byte) (post : List Byte) :
    readBytes (pre ++ c :: post) pre.length 1 = .ok [c] := by
  rw [readBytes_ok (by simp), List.drop_left]
  rfl

theorem readBytes_second (pre : List Byte) (c c' : Byte) (post : List Byte) :
    readBytes (pre ++ c :: c' :: post) (pre.length + 1) 1 = .ok [c'] := by
  have hsplit : pre ++ c :: c' :: post = (pre ++ [c]) ++ c' :: post := by simp
  have hlen : pre.length + 1 = (pre ++ [c]).length := by simp
  rw [hsplit, hlen]
  exact readBytes_one (pre ++ [c]) c' post

theorem writeBytes_one (done : List Byte) (z b : Byte) (rest : List Byte) :
    writeBytes (done ++ z :: rest) done.length [b] = .ok (done ++ b :: rest) := by
  have hdrop : (done ++ z :: rest).drop (done.length + 1) = rest := by
    have hsplit : done ++ z :: rest = (done ++ [z]) ++ rest := by simp
    rw [hsplit]
    exact List.drop_left' (by simp)
  rw [writeBytes_ok (by simp), List.take_left, List.length_singleton, hdrop]
  simp

variable {pre post done zeros : List Byte} {c c' z : Byte} {len rounds : Nat}

/-- One round of the loop. -/
theorem strToHexFrom_round (hi : pre.length = 2 * done.length) (hlen : pre.length < len) :
    strToHexFrom (pre ++ c :: c' :: post) len (rounds + 1) pre.length (done ++ z :: zeros) =
      strToHexFrom (pre ++ c :: c' :: post) len rounds (pre.length + 2)
        (done ++ decodePair c c' :: zeros) := by
  have hj : pre.length / 2 = done.length := by omega
  conv_lhs => unfold strToHexFrom
  rw [if_pos hlen, readBytes_one, readBytes_second, hj]
  show (writeBytes (done ++ z :: zeros) done.length [decodePair c c'] >>= _) = _
  rw [writeBytes_one]
  rfl

theorem strToHexFrom_end {str data : List Byte} {i : Nat} (hi : len ≤ i) :
    strToHexFrom str len rounds i data = .ok data := by
  cases rounds with
  | zero => rfl
  | succ rounds =>
      unfold strToHexFrom
      rw [if_neg (Nat.not_lt.mpr hi)]

/-- What is left of the text is decoded behind what was. -/
theorem strToHexFrom_eq (pre done zeros rest : List Byte) (hi : pre.length = 2 * done.length)
    (hlen : len = pre.length + rest.length) (hzeros : zeros.length = (rest.length + 1) / 2)
    (hrounds : rest.length ≤ rounds) :
    strToHexFrom (pre ++ (rest ++ [0])) len rounds pre.length (done ++ zeros) =
      .ok (done ++ decode rest) := by
  induction rest using decode.induct generalizing pre done zeros rounds with
  | case1 =>
      have hnil : zeros = [] := List.length_eq_zero_iff.mp hzeros
      have hend : len ≤ pre.length := Nat.le_of_eq hlen
      rw [strToHexFrom_end hend, hnil]
      rfl
  | case2 c =>
      simp only [List.length_singleton] at hlen hzeros hrounds
      obtain ⟨z, rfl⟩ := List.length_eq_one_iff.mp hzeros
      obtain ⟨rounds, rfl⟩ : ∃ r, rounds = r + 1 := ⟨rounds - 1, by omega⟩
      rw [List.singleton_append, strToHexFrom_round hi (by omega), strToHexFrom_end (by omega)]
      rfl
  | case3 c c' rest ih =>
      simp only [List.length_cons] at hlen hzeros hrounds
      obtain ⟨z, zeros, rfl⟩ : ∃ z zs, zeros = z :: zs :=
        List.exists_cons_of_length_pos (by omega)
      obtain ⟨rounds, rfl⟩ : ∃ r, rounds = r + 1 := ⟨rounds - 1, by omega⟩
      simp only [List.length_cons] at hzeros
      rw [List.cons_append, List.cons_append, strToHexFrom_round hi (by omega)]
      -- the pair moves over to what has been read
      have hnext := @ih rounds (pre ++ [c, c']) (done ++ [decodePair c c']) zeros
        (by simp; omega) (by simp; omega) (by omega) (by omega)
      simpa [decode] using hnext

/-- **The text is decoded pair by pair.** -/
theorem strToHex_eq (text : List Byte) :
    strToHex (text ++ [0]) text.length (List.replicate ((text.length + 1) / 2) 0) =
      .ok (decode text) :=
  strToHexFrom_eq [] [] (List.replicate ((text.length + 1) / 2) 0) text rfl (by simp) (by simp)
    (Nat.le_refl text.length)

/-! ## Digits -/

theorem nibble_lower : lowerDigits.map (fun c => nibble c (getBaseValue c)) =
    (List.range 16).map (BitVec.ofNat 32) := by
  decide +kernel

theorem nibble_upper : upperDigits.map (fun c => nibble c (getBaseValue c)) =
    (List.range 16).map (BitVec.ofNat 32) := by
  decide +kernel

/-- The value of a digit is what `str_to_hex` makes of it. -/
theorem nibble_digit {v : Nat} (h : IsDigit c v) :
    nibble c (getBaseValue c) = BitVec.ofNat 32 v := by
  have table : ∀ digits : List Byte, digits.map (fun c => nibble c (getBaseValue c)) =
      (List.range 16).map (BitVec.ofNat 32) → digits[v]? = some c →
      nibble c (getBaseValue c) = BitVec.ofNat 32 v := by
    intro digits hdigits hc
    have hlen : digits.length = 16 := by
      have hlen := congrArg List.length hdigits
      simpa using hlen
    have hv : v < 16 := hlen ▸ (List.getElem?_eq_some_iff.mp hc).1
    have hentry := congrArg (·[v]?) hdigits
    simp only [List.getElem?_map, hc, List.getElem?_range hv, Option.map_some] at hentry
    exact Option.some.inj hentry
  rcases h with h | h
  · exact table lowerDigits nibble_lower h
  · exact table upperDigits nibble_upper h

theorem byte_halves : ∀ b : Byte,
    (BitVec.ofNat 32 (b.toNat / 16) <<< 4).setWidth 8
      ||| (BitVec.ofNat 32 (b.toNat % 16)).setWidth 8 = b := by
  decide +kernel

theorem decodePair_digits {b : Byte} (hc : IsDigit c (b.toNat / 16))
    (hc' : IsDigit c' (b.toNat % 16)) : decodePair c c' = b := by
  unfold decodePair
  rw [nibble_digit hc, nibble_digit hc']
  exact byte_halves b

/-- **`str_to_hex` inverts hexadecimal encoding.** -/
theorem decode_spelled {bs text : List Byte} (h : Spells bs text) : decode text = bs := by
  induction bs, text using Spells.induct with
  | case1 => rfl
  | case2 b bs c c' text ih =>
      obtain ⟨hc, hc', hrest⟩ := h
      rw [decode, decodePair_digits hc hc', ih hrest]
  | case3 bs text hnil hcons =>
      simp [Spells] at h

/-! ## A conversion -/

section Convert

variable {env : Outcomes} {files : Files} {src dst text : List Byte}

theorem sizeT_natCast {n : Nat} (h : n < 2 ^ 63) : sizeT n = n := by
  unfold sizeT
  omega

theorem binLen_eq {n : Nat} (h : n < 2 ^ 63) :
    sizeT ((n : Int).tdiv 2 + (n : Int).tmod 2) = (n + 1) / 2 := by
  have hdiv : (n : Int).tdiv 2 = (n / 2 : Nat) := rfl
  have hmod : (n : Int).tmod 2 = (n % 2 : Nat) := rfl
  rw [hdiv, hmod]
  unfold sizeT
  omega

theorem bufLen_eq {n : Nat} (h : n < 2 ^ 63) : (n + 1) % 2 ^ 64 = n + 1 :=
  Nat.mod_eq_of_lt (by omega)

/-- The text has been read: it stands in `strbuf`, a NUL behind it. -/
theorem writeBytes_text (text : List Byte) :
    writeBytes (List.replicate (text.length + 1) 0) 0 text = .ok (text ++ [0]) := by
  rw [writeBytes_zeros (show text.length ≤ text.length + 1 by omega), Nat.add_sub_cancel_left]
  rfl

theorem fread_whole (text : List Byte) {err : Option Nat} (h : 0 < text.length → err = none) :
    ((InStream.ofContent text).fread text.length err).1 = text := by
  rcases text.length.eq_zero_or_pos with hzero | hpos
  · have hnil : text = [] := List.length_eq_zero_iff.mp hzero
    subst hnil
    cases err <;> simp [InStream.fread, InStream.ofContent]
  · rw [h hpos]
    simp [InStream.fread, InStream.ofContent]

theorem fread_cut {k : Nat} (h : 0 < text.length) :
    ((InStream.ofContent text).fread text.length (some k)).1.length < text.length := by
  simp only [InStream.fread, List.length_take]
  omega

/-- Once `ftell` has told the size of the file. -/
theorem convert_eq (hlen : text.length < 2 ^ 63) (hftell : env.ftell = true) :
    convert env files dst text =
      if env.malloc (text.length + 1) = false then .ok (-1, files)
      else if env.malloc ((text.length + 1) / 2) = false then .ok (-1, files)
      else if 0 < text.length ∧ env.fread ≠ none then .ok (-1, files)
      else if env.fwrite < (text.length + 1) / 2 then
        .ok (-1, files.fwrite dst (decode text) env.fwrite)
      else .ok (0, files.fwrite dst (decode text) env.fwrite) := by
  unfold convert
  simp only [hftell, if_true, sizeT_natCast hlen, binLen_eq hlen, bufLen_eq hlen]
  by_cases hstr : env.malloc (text.length + 1) = false
  · rw [if_pos hstr, if_pos hstr]
  by_cases hbin : env.malloc ((text.length + 1) / 2) = false
  · rw [if_neg hstr, if_neg hstr, if_pos hbin, if_pos hbin]
  rw [if_neg hstr, if_neg hstr, if_neg hbin, if_neg hbin]
  by_cases hread : 0 < text.length ∧ env.fread ≠ none
  · -- the read comes short
    obtain ⟨hpos, herr⟩ := hread
    obtain ⟨k, hk⟩ := Option.ne_none_iff_exists'.mp herr
    have hcut : ((InStream.ofContent text).fread text.length env.fread).1.length
        < text.length := by
      rw [hk]
      exact fread_cut hpos
    rw [if_pos ⟨hpos, herr⟩, writeBytes_ok (by simp; omega)]
    exact if_pos (Nat.ne_of_lt hcut)
  · have herr : 0 < text.length → env.fread = none := fun hpos =>
      not_not.mp fun hne => hread ⟨hpos, hne⟩
    rw [if_neg hread, fread_whole text herr, writeBytes_text]
    show (if text.length ≠ text.length then _ else strToHex (text ++ [0]) text.length
      (List.replicate ((text.length + 1) / 2) 0) >>= _) = _
    rw [if_neg (not_not_intro rfl), strToHex_eq]
    have hwritten : ((decode text).take env.fwrite).length =
        min env.fwrite.val ((text.length + 1) / 2) := by
      rw [List.length_take, length_decode]
    show (if ((decode text).take env.fwrite).length ≠ (text.length + 1) / 2 then _ else _) = _
    by_cases hwrite : env.fwrite < (text.length + 1) / 2
    · rw [if_pos hwrite, if_pos (by omega)]
      rfl
    · rw [if_neg hwrite, if_neg (by omega)]
      rfl

theorem Files.read_fwrite (files : Files) (path bytes : List Byte) (room : Fin (2 ^ 63)) :
    (files.fwrite path bytes room).read path = some (bytes.take room) := if_pos rfl

theorem Files.read_fwrite_ne (files : Files) {path other : List Byte} (bytes : List Byte)
    (room : Fin (2 ^ 63)) (h : files.place other ≠ files.place path) :
    (files.fwrite path bytes room).read other = files.read other := if_neg h

/-- What is read of a source file that holds `text`: nothing if it is the
file just emptied. -/
def textRead (files : Files) (src dst text : List Byte) : List Byte :=
  if files.place src = files.place dst then [] else text

theorem length_textRead (hsrc : files.read src = some text) :
    (textRead files src dst text).length < 2 ^ 63 := by
  unfold textRead
  by_cases hsame : files.place src = files.place dst
  · rw [if_pos hsame]
    decide
  · rw [if_neg hsame]
    exact files.size _ text hsrc

/-- Both files are open. -/
theorem createBinaryFile_open (hsrc : files.read src = some text)
    (hopenSrc : env.fopenSrc = true) (hopenDst : env.fopenDst = true) :
    createBinaryFile env files src dst =
      convert env (files.write dst [] (by decide)) dst (textRead files src dst text) := by
  have hopen : ¬(env.fopenSrc = false ∨ files.read src = none) := by
    rw [hopenSrc, hsrc]
    simp
  have hread : ((files.write dst [] (by decide)).read src).getD []
      = textRead files src dst text := by
    unfold textRead
    by_cases hsame : files.place src = files.place dst
    · simp [Files.read, Files.write, hsame]
    · have hother : (files.write dst [] (by decide)).read src = files.read src := if_neg hsame
      rw [hother, hsrc, if_neg hsame]
      rfl
  unfold createBinaryFile
  rw [if_neg hopen, if_neg (by rw [hopenDst]; decide)]
  exact congrArg (convert env _ dst) hread

/-- All calls succeed: whatever the text is, it is converted. -/
theorem createBinaryFile_converts (hsrc : files.read src = some text)
    (h : env.Succeeds (textRead files src dst text).length) :
    createBinaryFile env files src dst =
      .ok (0, (files.write dst [] (by decide)).fwrite dst (decode (textRead files src dst text))
        env.fwrite) := by
  have hread : ¬(0 < (textRead files src dst text).length ∧ env.fread ≠ none) :=
    fun hbad => hbad.2 (h.fread hbad.1)
  rw [createBinaryFile_open hsrc h.fopenSrc h.fopenDst,
    convert_eq (length_textRead hsrc) h.ftell, if_neg (by rw [h.strbuf]; decide),
    if_neg (by rw [h.binbuf]; decide), if_neg hread, if_neg (Nat.not_lt.mpr h.fwrite)]

/-- `create_binary_file` returns a negative value. -/
def Refuses (env : Outcomes) (files : Files) (src dst : List Byte) : Prop :=
  ∃ ret files', createBinaryFile env files src dst = .ok (ret, files') ∧ ret < 0

/-- `ftell` fails, and then no buffer is large enough. -/
theorem convert_ftell (hftell : env.ftell = false) (files : Files) :
    convert env files dst text = .ok (-1, files) := by
  have hmax : sizeT ((-1 : Int).tdiv 2 + (-1 : Int).tmod 2) = SIZE_MAX := by decide
  unfold convert
  simp only [hftell, Bool.false_eq_true, if_false, hmax, env.malloc_max, if_true, ite_self]

theorem convert_fails (hlen : text.length < 2 ^ 63) (hopenSrc : env.fopenSrc = true)
    (hopenDst : env.fopenDst = true) (h : ¬env.Succeeds text.length) :
    ∃ files', convert env files dst text = .ok (-1, files') := by
  cases hftell : env.ftell with
  | false => exact ⟨_, convert_ftell hftell files⟩
  | true =>
      rw [convert_eq hlen hftell]
      by_cases hstr : env.malloc (text.length + 1) = false
      · exact ⟨_, if_pos hstr⟩
      by_cases hbin : env.malloc ((text.length + 1) / 2) = false
      · rw [if_neg hstr]
        exact ⟨_, if_pos hbin⟩
      rw [if_neg hstr, if_neg hbin]
      by_cases hread : 0 < text.length ∧ env.fread ≠ none
      · exact ⟨_, if_pos hread⟩
      by_cases hwrite : env.fwrite < (text.length + 1) / 2
      · rw [if_neg hread]
        exact ⟨_, if_pos hwrite⟩
      · rw [Bool.not_eq_false] at hstr hbin
        have herr : 0 < text.length → env.fread = none := fun hpos =>
          not_not.mp fun hne => hread ⟨hpos, hne⟩
        exact absurd ⟨hopenSrc, hopenDst, hftell, hstr, hbin, herr, Nat.not_lt.mp hwrite⟩ h

/-- It does so exactly when a call fails: the text has no say. -/
theorem refuses_iff (hsrc : files.read src = some text) :
    Refuses env files src dst ↔ ¬env.Succeeds (textRead files src dst text).length := by
  constructor
  · rintro ⟨ret, files', hrun, hneg⟩ hok
    rw [createBinaryFile_converts hsrc hok] at hrun
    cases hrun
    exact absurd hneg (by decide)
  · intro hfails
    cases hopenSrc : env.fopenSrc with
    | false => exact ⟨-1, files, if_pos (.inl hopenSrc), by decide⟩
    | true =>
        cases hopenDst : env.fopenDst with
        | false =>
            refine ⟨-1, files, ?_, by decide⟩
            unfold createBinaryFile
            rw [if_neg (by rw [hopenSrc, hsrc]; simp), if_pos hopenDst]
        | true =>
            obtain ⟨files', hrun⟩ :=
              convert_fails (length_textRead hsrc) hopenSrc hopenDst hfails
            exact ⟨-1, files', (createBinaryFile_open hsrc hopenSrc hopenDst).trans hrun, by decide⟩

end Convert

/-- Text in hexadecimal becomes the bytes it spells, when every call succeeds. -/
def Inverts (env : Outcomes) (files : Files) (src dst : List Byte) : Prop :=
  ∀ bs text, Spells bs text → files.read src = some text →
    env.Succeeds (textRead files src dst text).length →
    ∃ files', createBinaryFile env files src dst = .ok (0, files') ∧ files'.read dst = some bs

/-- **Every successful conversion returns 0. What is written is the bytes that
the text spells**, unless `dst` is the file of the text, which is empty by the
time it is read. -/
theorem createBinaryFile_inverts {env : Outcomes} {files : Files} {src dst bs text : List Byte}
    (hspell : Spells bs text) (hsrc : files.read src = some text)
    (hok : env.Succeeds (textRead files src dst text).length) :
    ∃ files', createBinaryFile env files src dst = .ok (0, files') ∧
      files'.read dst = some (if files.place src = files.place dst then [] else bs) ∧
      ∀ other, files.place other ≠ files.place dst → files'.read other = files.read other := by
  have hbytes : decode (textRead files src dst text)
      = if files.place src = files.place dst then [] else bs := by
    unfold textRead
    by_cases hsame : files.place src = files.place dst
    · rw [if_pos hsame, if_pos hsame]
      rfl
    · rw [if_neg hsame, if_neg hsame]
      exact decode_spelled hspell
  refine ⟨_, createBinaryFile_converts hsrc hok, ?_, ?_⟩
  · rw [Files.read_fwrite, ← hbytes]
    congr 1
    apply List.take_of_length_le
    rw [length_decode]
    exact hok.fwrite
  · intro other hother
    have hwritten : ((files.write dst [] (by decide)).fwrite dst
        (decode (textRead files src dst text)) env.fwrite).read other
        = (files.write dst [] (by decide)).read other := Files.read_fwrite_ne _ _ _ hother
    rw [hwritten]
    exact if_neg hother

/-- A file of the four digits `1bFf`. -/
def fourDigits : Files where
  place path := if path = [115] then 0 else 1
  content p := if p = 0 then some [49, 98, 70, 102] else none
  size p bytes h := by
    by_cases hp : p = 0
    · rw [if_pos hp] at h
      cases h
      decide
    · rw [if_neg hp] at h
      cases h

/-- Every call succeeds, and buffers are not the largest possible. -/
def wellBehaved : Outcomes where
  fopenSrc := true
  fopenDst := true
  ftell := true
  malloc n := decide (n < SIZE_MAX)
  malloc_max := by decide
  fread := none
  fwrite := ⟨1024, by decide⟩

theorem wellBehaved_succeeds {n : Nat} (h : n ≤ 1024) : wellBehaved.Succeeds n where
  fopenSrc := rfl
  fopenDst := rfl
  ftell := rfl
  strbuf := decide_eq_true (by unfold SIZE_MAX; omega)
  binbuf := decide_eq_true (by unfold SIZE_MAX; omega)
  fread _ := rfl
  fwrite := by
    show (n + 1) / 2 ≤ 1024
    omega

theorem fourDigits_spell : Spells [0x1B, 0xFF] [49, 98, 70, 102] :=
  ⟨by decide, by decide, by decide, by decide, trivial⟩

theorem createBinaryFile_inverts_fourDigits :
    ∃ files', createBinaryFile wellBehaved fourDigits [115] [100] = .ok (0, files') ∧
      files'.read [100] = some [0x1B, 0xFF] ∧
      ∀ other, fourDigits.place other ≠ fourDigits.place [100] →
        files'.read other = fourDigits.read other :=
  createBinaryFile_inverts fourDigits_spell rfl (wellBehaved_succeeds (by decide))

/-- Converted in place, the four digits are lost. -/
theorem not_inverts_inPlace : ¬Inverts wellBehaved fourDigits [115] [115] := by
  intro hinverts
  have hok : wellBehaved.Succeeds
      (textRead fourDigits [115] [115] [49, 98, 70, 102]).length :=
    wellBehaved_succeeds (by decide)
  have hsrc : fourDigits.read [115] = some [49, 98, 70, 102] := rfl
  obtain ⟨files', hrun, hread⟩ := hinverts _ _ fourDigits_spell hsrc hok
  rw [createBinaryFile_converts hsrc hok] at hrun
  cases hrun
  rw [Files.read_fwrite] at hread
  exact absurd hread (by decide)

/-! ## Text that is not hexadecimal -/

/-- No success is reported for a source file whose text is not hexadecimal. -/
def RejectsBad (env : Outcomes) (files : Files) (src dst : List Byte) : Prop :=
  ∀ text, files.read src = some text → ¬HexText text → Refuses env files src dst

/-- **Bad text is refused only if some call fails anyway.** -/
theorem rejectsBad_iff (env : Outcomes) (files : Files) (src dst : List Byte) :
    RejectsBad env files src dst ↔
      ∀ text, files.read src = some text →
        HexText text ∨ ¬env.Succeeds (textRead files src dst text).length := by
  constructor
  · intro hrejects text hsrc
    by_cases hhex : HexText text
    · exact .inl hhex
    · exact .inr ((refuses_iff hsrc).mp (hrejects text hsrc hhex))
  · intro hcond text hsrc hbad
    exact (refuses_iff hsrc).mpr ((hcond text hsrc).resolve_left hbad)

/-- The two digits `41` and a newline. -/
def trailingNewline : Files where
  place path := if path = [115] then 0 else 1
  content p := if p = 0 then some [52, 49, 10] else none
  size p bytes h := by
    by_cases hp : p = 0
    · rw [if_pos hp] at h
      cases h
      decide
    · rw [if_neg hp] at h
      cases h

theorem trailingNewline_bad : ¬HexText [52, 49, 10] := by
  rintro ⟨bs, hspell⟩
  match bs, hspell with
  | _ :: bs, hspell =>
      obtain ⟨-, -, hrest⟩ := hspell
      cases bs <;> cases hrest

/-- The newline and the NUL behind it become the byte 0xB1. -/
theorem newline_converted :
    ¬HexText [52, 49, 10] ∧
      (∃ files', createBinaryFile wellBehaved trailingNewline [115] [100] = .ok (0, files') ∧
        files'.read [100] = some [0x41, 0xB1]) ∧
      ¬RejectsBad wellBehaved trailingNewline [115] [100] := by
  have hok : wellBehaved.Succeeds (textRead trailingNewline [115] [100] [52, 49, 10]).length :=
    wellBehaved_succeeds (by decide)
  have hsrc : trailingNewline.read [115] = some [52, 49, 10] := rfl
  refine ⟨trailingNewline_bad, ⟨_, createBinaryFile_converts hsrc hok, ?_⟩, ?_⟩
  · rw [Files.read_fwrite]
    decide
  · intro hrejects
    exact (refuses_iff hsrc).mp (hrejects _ hsrc trailingNewline_bad) hok

end BeEasy.Str2Hex
