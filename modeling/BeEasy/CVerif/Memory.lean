import BeEasy.CVerif.Bytes

/-!
# CVerif — Memory

C objects as byte lists, with the accesses that a C program can get wrong.
An access is written with `readBytes` or `writeBytes`, which fault when it
leaves the object; a fault stands for undefined behaviour, so nothing is
said about the program after it. The string functions below are those
whose copies are bounded by a constant and never fault.
-/

namespace CVerif

/-- Undefined behaviour, by cause. -/
inductive Fault where
  /-- An access outside its object. -/
  | outOfBounds
  /-- A null pointer where the library wants a stream. -/
  | nullStream
  deriving DecidableEq

/-! ## Bounded accesses -/

/-- The `n` bytes of the object from offset `off` on. -/
def readBytes (obj : List Byte) (off n : Nat) : Except Fault (List Byte) :=
  if off + n ≤ obj.length then .ok ((obj.drop off).take n) else .error .outOfBounds

/-- The object with `bs` copied in at offset `off`. -/
def writeBytes (obj : List Byte) (off : Nat) (bs : List Byte) : Except Fault (List Byte) :=
  if off + bs.length ≤ obj.length then
    .ok (obj.take off ++ bs ++ obj.drop (off + bs.length))
  else .error .outOfBounds

theorem readBytes_ok {obj : List Byte} {off n : Nat} (h : off + n ≤ obj.length) :
    readBytes obj off n = .ok ((obj.drop off).take n) := if_pos h

theorem readBytes_outOfBounds {obj : List Byte} {off n : Nat} (h : obj.length < off + n) :
    readBytes obj off n = .error .outOfBounds := if_neg (by omega)

theorem writeBytes_ok {obj bs : List Byte} {off : Nat} (h : off + bs.length ≤ obj.length) :
    writeBytes obj off bs = .ok (obj.take off ++ bs ++ obj.drop (off + bs.length)) := if_pos h

/-- What a write leaves: the bytes where they were put, and all others. -/
theorem exists_writeBytes (obj : List Byte) (off : Nat) (bs : List Byte)
    (h : off + bs.length ≤ obj.length) :
    ∃ obj', writeBytes obj off bs = .ok obj' ∧ obj'.length = obj.length ∧
      obj'.take (off + bs.length) = obj.take off ++ bs ∧
      obj'.drop (off + bs.length) = obj.drop (off + bs.length) := by
  have hlen : (obj.take off ++ bs).length = off + bs.length := by
    rw [List.length_append, List.length_take]
    omega
  refine ⟨_, writeBytes_ok h, ?_, ?_, ?_⟩
  · rw [List.length_append, hlen, List.length_drop]
    omega
  · rw [← hlen, List.take_left]
  · rw [← hlen, List.drop_left, hlen]

/-- A write behind a part of the object leaves that part alone. -/
theorem writeBytes_append {part rest bs : List Byte} (h : bs.length ≤ rest.length) :
    writeBytes (part ++ rest) part.length bs = .ok (part ++ bs ++ rest.drop bs.length) := by
  have hfits : part.length + bs.length ≤ (part ++ rest).length := by
    rw [List.length_append]
    omega
  rw [writeBytes_ok hfits, List.take_left, List.drop_append, List.drop_of_length_le (by omega),
    List.nil_append, Nat.add_sub_cancel_left]

/-- A write at the start of an array of zeros. -/
theorem writeBytes_zeros {bs : List Byte} {n : Nat} (h : bs.length ≤ n) :
    writeBytes (List.replicate n 0) 0 bs = .ok (bs ++ List.replicate (n - bs.length) 0) := by
  have hfits : 0 + bs.length ≤ (List.replicate n (0 : Byte)).length := by
    rw [List.length_replicate]
    omega
  rw [writeBytes_ok hfits, Nat.zero_add, List.drop_replicate]
  rfl

/-! ## Allocation -/

/-- What a successful `realloc` to `n` bytes makes of an object: the bytes
behind the old ones are unspecified. -/
def realloc (obj : List Byte) (n : Nat) (unspecified : Nat → Byte) : List Byte :=
  obj.take n ++ (List.range (n - obj.length)).map unspecified

@[simp] theorem length_realloc (obj : List Byte) (n : Nat) (unspecified : Nat → Byte) :
    (realloc obj n unspecified).length = n := by
  rw [realloc, List.length_append, List.length_take, List.length_map, List.length_range]
  omega

theorem realloc_of_le {obj : List Byte} {n : Nat} (h : n ≤ obj.length)
    (unspecified : Nat → Byte) : realloc obj n unspecified = obj.take n := by
  rw [realloc, Nat.sub_eq_zero_of_le h]
  exact List.append_nil _

/-- A part of the object that still fits is kept. -/
theorem realloc_append (part rest : List Byte) (n : Nat) (unspecified : Nat → Byte) :
    realloc (part ++ rest) (part.length + n) unspecified
      = part ++ realloc rest n unspecified := by
  rw [realloc, realloc, List.take_length_add_append, List.length_append, List.append_assoc,
    Nat.add_sub_add_left]

theorem take_realloc {obj : List Byte} {n k : Nat} (hn : k ≤ n) (hobj : k ≤ obj.length)
    (unspecified : Nat → Byte) : (realloc obj n unspecified).take k = obj.take k := by
  have hlen : k ≤ (obj.take n).length := by
    rw [List.length_take]
    omega
  rw [realloc, List.take_append_of_le_length hlen, List.take_take, Nat.min_eq_left hn]

/-! ## Strings

A string is the list of its bytes before the NUL. -/

/-- The string a char array holds: the bytes before the first NUL. -/
def stringAt (mem : List Byte) : List Byte :=
  mem.takeWhile (· ≠ 0)

/-- The same for a reader that goes on past an array without a NUL. -/
def readString (mem : List Byte) : Except Fault (List Byte) :=
  if (0 : Byte) ∈ mem then .ok (stringAt mem) else .error .outOfBounds

/-- The `n` bytes `strncpy(dst, src, n)` writes: the string, cut at `n` or
filled up with NULs. -/
def strncpy (src : List Byte) (n : Nat) : List Byte :=
  src.take n ++ List.replicate (n - src.length) 0

/-- `basename` of `libgen.h`: the part after the last slash that is not at
the end of the path. -/
def basename (path : List Byte) : List Byte :=
  let slash : Byte := 47
  let stem := (path.reverse.dropWhile (· = slash)).reverse
  if path = [] then [46]
  else if stem = [] then [slash]
  else (stem.reverse.takeWhile (· ≠ slash)).reverse

/-- A string put at the start of an array is read back exactly when the byte
behind it is a NUL. -/
theorem readString_append_iff {str rest : List Byte} (h : (0 : Byte) ∉ str) :
    readString (str ++ rest) = .ok str ↔ rest.head? = some 0 := by
  have inside : ∀ b ∈ str, decide (b ≠ 0) = true := by
    intro b hb
    exact decide_eq_true fun hzero => h (hzero ▸ hb)
  cases rest with
  | nil =>
      rw [List.append_nil, readString, if_neg h]
      constructor <;> intro heq <;> cases heq
  | cons b rest =>
      by_cases hb : b = 0
      · subst hb
        refine iff_of_true ?_ rfl
        rw [readString, if_pos (List.mem_append_right str List.mem_cons_self), stringAt,
          List.takeWhile_append_of_pos inside]
        exact congrArg Except.ok (List.append_nil str)
      · refine iff_of_false ?_ (fun hhead => hb (Option.some.inj hhead))
        intro heq
        have hlen : (str ++ (b :: rest).takeWhile (· ≠ 0)).length = str.length := by
          unfold readString stringAt at heq
          rw [List.takeWhile_append_of_pos inside] at heq
          by_cases hmem : (0 : Byte) ∈ str ++ b :: rest
          · rw [if_pos hmem] at heq
            exact congrArg List.length (Except.ok.inj heq)
          · rw [if_neg hmem] at heq
            cases heq
        have hfirst : (b :: rest).takeWhile (· ≠ 0) = b :: rest.takeWhile (· ≠ 0) :=
          List.takeWhile_cons_of_pos (decide_eq_true hb)
        rw [List.length_append, hfirst, List.length_cons] at hlen
        omega

theorem noNul_stringAt (mem : List Byte) : (0 : Byte) ∉ stringAt mem := by
  intro hmem
  have hall := List.all_eq_true.mp List.all_takeWhile 0 hmem
  exact absurd rfl (of_decide_eq_true hall)

theorem stringAt_eq_self {str : List Byte} (h : (0 : Byte) ∉ str) : stringAt str = str := by
  have inside : ∀ b ∈ str, decide (b ≠ 0) = true := by
    intro b hb
    exact decide_eq_true fun hzero => h (hzero ▸ hb)
  have happend : stringAt (str ++ []) = str ++ stringAt [] := List.takeWhile_append_of_pos inside
  rw [List.append_nil] at happend
  exact happend.trans (List.append_nil str)

/-- A string on its own. -/
structure CStr where
  bytes : List Byte
  noNul : (0 : Byte) ∉ bytes
  deriving DecidableEq

/-- The string at the start of an array. -/
def CStr.at (mem : List Byte) : CStr := ⟨stringAt mem, noNul_stringAt mem⟩

theorem CStr.at_eq {str : List Byte} (h : (0 : Byte) ∉ str) : CStr.at str = ⟨str, h⟩ := by
  simp only [CStr.at, stringAt_eq_self h]

theorem stringAt_nul (mem : List Byte) : stringAt (0 :: mem) = [] := rfl

theorem stringAt_cons {b : Byte} (hb : b ≠ 0) (mem : List Byte) :
    stringAt (b :: mem) = b :: stringAt mem :=
  List.takeWhile_cons_of_pos (decide_eq_true hb)

/-- The NUL that ends a string is no part of it. -/
theorem stringAt_append_nul (str : List Byte) : stringAt (str ++ [0]) = stringAt str := by
  induction str with
  | nil => rfl
  | cons b str ih =>
      by_cases hb : b = 0
      · subst hb
        rfl
      · rw [List.cons_append, stringAt_cons hb, stringAt_cons hb, ih]

theorem CStr.at_append_nul (str : List Byte) : CStr.at (str ++ [0]) = CStr.at str := by
  simp only [CStr.at, stringAt_append_nul]

theorem CStr.at_stringAt (mem : List Byte) : CStr.at (stringAt mem) = CStr.at mem := by
  simp only [CStr.at, stringAt_eq_self (noNul_stringAt mem)]

/-- Behind the string that an array holds is its NUL. -/
theorem eq_stringAt_append {mem : List Byte} (h : (0 : Byte) ∈ mem) :
    ∃ rest, mem = stringAt mem ++ 0 :: rest := by
  induction mem with
  | nil => cases h
  | cons b mem ih =>
      by_cases hb : b = 0
      · exact ⟨mem, by rw [hb, stringAt_nul, List.nil_append]⟩
      · obtain ⟨rest, hrest⟩ := ih ((List.mem_cons.mp h).resolve_left (Ne.symm hb))
        exact ⟨rest, by rw [stringAt_cons hb, List.cons_append, ← hrest]⟩

/-- A NUL written over the one that ends the string changes nothing. -/
theorem writeBytes_nul {mem : List Byte} (h : (0 : Byte) ∈ mem) :
    writeBytes mem (stringAt mem).length [0] = .ok mem := by
  obtain ⟨rest, hrest⟩ := eq_stringAt_append h
  have hwrite : writeBytes (stringAt mem ++ 0 :: rest) (stringAt mem).length [0]
      = .ok (stringAt mem ++ [0] ++ (0 :: rest).drop 1) := writeBytes_append (Nat.le_add_left 1 _)
  rwa [List.append_assoc, List.drop_one, List.tail_cons, List.singleton_append, ← hrest] at hwrite

/-- Where there is more than a string, it is what an array holds exactly when
the array starts with it and a NUL. -/
theorem stringAt_eq_iff {str mem : List Byte} (h : (0 : Byte) ∉ str)
    (hlen : str.length < mem.length) : stringAt mem = str ↔ str ++ [0] <+: mem := by
  induction mem generalizing str with
  | nil => cases hlen
  | cons b mem ih =>
      by_cases hb : b = 0
      · subst hb
        rw [stringAt_nul]
        cases str with
        | nil => simp
        | cons a str =>
            have ha : a ≠ 0 := fun ha => h (ha ▸ List.mem_cons_self)
            exact iff_of_false nofun fun hpre => ha (List.cons_prefix_cons.mp hpre).1
      · rw [stringAt_cons hb]
        cases str with
        | nil => exact iff_of_false nofun fun hpre => hb (List.cons_prefix_cons.mp hpre).1.symm
        | cons a str =>
            have hstr : (0 : Byte) ∉ str := fun hmem => h (List.mem_cons_of_mem a hmem)
            rw [List.cons_append, List.cons_prefix_cons, List.cons_eq_cons, eq_comm,
              ih hstr (Nat.lt_of_succ_lt_succ hlen)]

/-- A bounded copy reads back as the string, cut at the bound. -/
theorem stringAt_strncpy {src : List Byte} (h : (0 : Byte) ∉ src) (n : Nat) :
    stringAt (strncpy src n) = src.take n := by
  have inside : ∀ b ∈ src.take n, decide (b ≠ 0) = true := by
    intro b hb
    exact decide_eq_true fun hzero => h (hzero ▸ List.mem_of_mem_take hb)
  rw [stringAt, strncpy, List.takeWhile_append_of_pos inside]
  cases n - src.length with
  | zero => exact List.append_nil _
  | succ k => exact List.append_nil _

/-! ## Paths -/

section Basename

variable {path dir base : List Byte}

/-- A path that is not all slashes has a last part. -/
theorem basename_part (h : path.reverse.dropWhile (· = 47) ≠ []) :
    basename path ≠ [] ∧ (47 : Byte) ∉ basename path ∧ ∀ b ∈ basename path, b ∈ path := by
  have hpath : path ≠ [] := by
    rintro rfl
    exact h rfl
  have heq : basename path = ((path.reverse.dropWhile (· = 47)).takeWhile (· ≠ 47)).reverse := by
    rw [basename, if_neg hpath, if_neg (by simpa using h), List.reverse_reverse]
  rw [heq]
  refine ⟨?_, ?_, ?_⟩
  · -- the dropping stops at a byte that is no slash
    cases hrest : path.reverse.dropWhile (· = 47) with
    | nil => exact absurd hrest h
    | cons b rest =>
        have hb := List.head?_dropWhile_not (fun b : Byte => decide (b = 47)) path.reverse
        rw [hrest] at hb
        have hkeep : decide (b ≠ 47) = true := decide_eq_true (of_decide_eq_false hb)
        rw [List.takeWhile_cons, if_pos hkeep, Ne, List.reverse_eq_nil_iff]
        nofun
  · intro hmem
    have hslash := List.all_eq_true.mp List.all_takeWhile 47 (List.mem_reverse.mp hmem)
    exact absurd rfl (of_decide_eq_true hslash)
  · intro b hb
    have hdrop := (List.takeWhile_subset _) (List.mem_reverse.mp hb)
    exact List.mem_reverse.mp ((List.dropWhile_subset _) hdrop)

theorem basename_cases (path : List Byte) :
    basename path = [46] ∨ basename path = [47] ∨
      basename path ≠ [] ∧ (47 : Byte) ∉ basename path ∧ ∀ b ∈ basename path, b ∈ path := by
  by_cases hpath : path = []
  · exact .inl (if_pos hpath)
  by_cases hstem : path.reverse.dropWhile (· = 47) = []
  · refine .inr (.inl ?_)
    rw [basename, if_neg hpath, if_pos (by simpa using hstem)]
  · exact .inr (.inr (basename_part hstem))

theorem basename_ne_nil (path : List Byte) : basename path ≠ [] := by
  rcases basename_cases path with h | h | ⟨h, _, _⟩
  · simp [h]
  · simp [h]
  · exact h

theorem noNul_basename (h : (0 : Byte) ∉ path) : (0 : Byte) ∉ basename path := by
  rcases basename_cases path with heq | heq | ⟨_, _, hsub⟩
  · rw [heq]
    decide
  · rw [heq]
    decide
  · exact fun hmem => h (hsub 0 hmem)

/-- Only the root has a slash in its last part. -/
theorem basename_slash (h : (47 : Byte) ∈ basename path) : basename path = [47] := by
  rcases basename_cases path with heq | heq | ⟨_, hno, _⟩
  · rw [heq] at h
    exact absurd h (by decide)
  · exact heq
  · exact absurd h hno

/-- The last part of a path is what follows the last slash. -/
theorem basename_append (dir : List Byte) (hne : base ≠ []) (hbase : (47 : Byte) ∉ base) :
    basename (dir ++ 47 :: base) = base := by
  have hrev : (dir ++ 47 :: base).reverse = base.reverse ++ 47 :: dir.reverse := by simp
  have hkeep : ∀ b ∈ base.reverse, decide (b ≠ 47) = true := by
    intro b hb
    exact decide_eq_true fun heq => hbase (heq ▸ List.mem_reverse.mp hb)
  have hdrop : (base.reverse ++ 47 :: dir.reverse).dropWhile (· = 47)
      = base.reverse ++ 47 :: dir.reverse := by
    cases hb : base.reverse with
    | nil => exact absurd (List.reverse_eq_nil_iff.mp hb) hne
    | cons b rest =>
        have hfirst := hkeep b (hb ▸ List.mem_cons_self)
        rw [List.cons_append, List.dropWhile_cons, if_neg (by simpa using hfirst)]
  rw [basename, if_neg (by simp), hrev, hdrop, if_neg (by simp), List.reverse_reverse,
    List.takeWhile_append_of_pos hkeep, List.takeWhile_cons, if_neg (by decide), List.append_nil,
    List.reverse_reverse]

end Basename

@[simp] theorem length_strncpy (src : List Byte) (n : Nat) : (strncpy src n).length = n := by
  simp only [strncpy, List.length_append, List.length_take, List.length_replicate]
  omega

end CVerif
