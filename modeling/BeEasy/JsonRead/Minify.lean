import BeEasy.JsonRead.RoundTrip

/-!
# JsonRead — Minify

`cJSON_Minify` takes white space and comments out of a text, in the array that
holds it. It writes behind where it reads, so that what it has yet to read is
as it was. Its reading is not bounded: what is opened and not closed, a string
or a comment of several lines, takes it past the end.
-/

namespace BeEasy

open CVerif

namespace JsonRead

/-! ## The loops -/

/-- The array, and the two pointers into it. -/
structure Minifier where
  mem : List Byte
  json : Nat
  into : Nat

/-- `*into++ = *json++`. -/
def copyByte (m : Minifier) : Except Stop Minifier := do
  let b ← byteAt m.mem m.json
  if m.into < m.mem.length then return ⟨m.mem.set m.into b, m.json + 1, m.into + 1⟩
  else .error .outOfBounds

/-- Double-slash comments, to end of line. -/
def skipLine : Nat → Minifier → Except Stop Minifier
  | 0, _ => .error .unfinished
  | rounds + 1, m => do
      let b ← byteAt m.mem m.json
      if b ≠ 0 ∧ b ≠ 10 then skipLine rounds { m with json := m.json + 1 } else return m

/-- Multiline comments, up to their last two characters. -/
def skipComment : Nat → Minifier → Except Stop Minifier
  | 0, _ => .error .unfinished
  | rounds + 1, m => do
      let b ← byteAt m.mem m.json
      if b = 0 then return m
      else if b = 42 then
        if (← byteAt m.mem (m.json + 1)) = 47 then return m
        else skipComment rounds { m with json := m.json + 1 }
      else skipComment rounds { m with json := m.json + 1 }

/-- String literals, up to the closing quote. -/
def copyString : Nat → Minifier → Except Stop Minifier
  | 0, _ => .error .unfinished
  | rounds + 1, m => do
      let b ← byteAt m.mem m.json
      if b ≠ 0 ∧ b ≠ 34 then
        if b = 92 then copyString rounds (← copyByte (← copyByte m))
        else copyString rounds (← copyByte m)
      else return m

/-- The outer loop. -/
def minifyLoop : Nat → Minifier → Except Stop Minifier
  | 0, _ => .error .unfinished
  | rounds + 1, m => do
      let b ← byteAt m.mem m.json
      if b = 0 then return m
      else if isWhite b then minifyLoop rounds { m with json := m.json + 1 }
      else if b = 47 then
        let next ← byteAt m.mem (m.json + 1)
        if next = 47 then minifyLoop rounds (← skipLine (m.mem.length + 1) m)
        else if next = 42 then
          let m ← skipComment (m.mem.length + 1) m
          minifyLoop rounds { m with json := m.json + 2 }
        else minifyLoop rounds (← copyByte m)
      else if b = 34 then
        let m ← copyByte m
        let m ← copyString (m.mem.length + 1) m
        minifyLoop rounds (← copyByte m)
      else minifyLoop rounds (← copyByte m)

/-- `cJSON_Minify`. -/
def minify (json : List Byte) : Except Stop (List Byte) := do
  let m ← minifyLoop (json.length + 1) ⟨json, 0, 0⟩
  -- and null-terminate
  if m.into < m.mem.length then return m.mem.set m.into 0 else .error .outOfBounds

/-! ## What is left of a text -/

/-- Where in a text the loops are. -/
inductive Mode where
  | text
  /-- In a comment up to the end of the line. -/
  | line
  /-- In one of several lines. -/
  | block
  /-- At the slash that ends one. -/
  | close
  | string
  /-- Behind a backslash in a string. -/
  | escape

/-- What the loops leave, if they come to an end. The star that opens a comment
is read again, and may be the one that closes it. -/
def minified : Mode → List Byte → Option (List Byte)
  | .text, [] => some []
  | .line, [] => some []
  | .block, [] => none
  | .close, [] => none
  | .string, [] => none
  | .escape, [] => none
  | .text, b :: rest =>
      if isWhite b then minified .text rest
      else if b = 47 ∧ rest.head? = some 47 then minified .line rest
      else if b = 47 ∧ rest.head? = some 42 then minified .block rest
      else if b = 34 then (minified .string rest).map (b :: ·)
      else (minified .text rest).map (b :: ·)
  | .line, b :: rest => if b = 10 then minified .text rest else minified .line rest
  | .block, b :: rest =>
      if b = 42 ∧ rest.head? = some 47 then minified .close rest else minified .block rest
  | .close, _ :: rest => minified .text rest
  | .string, b :: rest =>
      if b = 34 then (minified .text rest).map (b :: ·)
      else if b = 92 then (minified .escape rest).map (b :: ·)
      else (minified .string rest).map (b :: ·)
  | .escape, b :: rest => (minified .string rest).map (b :: ·)

theorem sublist_map_cons {b : Byte} {rest : List Byte} {o : Option (List Byte)}
    (h : ∀ u, o = some u → u.Sublist rest) :
    ∀ u, o.map (b :: ·) = some u → u.Sublist (b :: rest) := by
  intro u hu
  obtain ⟨s, hs, rfl⟩ := Option.map_eq_some_iff.mp hu
  exact (h s hs).cons_cons b

/-- Bytes are only left out. -/
theorem minified_sublist (mode : Mode) (t : List Byte) :
    ∀ u, minified mode t = some u → u.Sublist t := by
  fun_induction minified mode t with
  | case1 | case2 => rintro u ⟨⟩; exact .slnil
  | case3 | case4 | case5 | case6 => exact nofun
  | case7 b _ _ ih | case8 b _ _ _ ih | case9 b _ _ _ _ ih | case12 _ ih | case13 b _ _ ih
  | case14 b _ _ ih | case15 b _ _ ih | case16 b _ ih => exact fun u hu => (ih u hu).cons _
  | case10 | case11 | case17 | case18 | case19 | case20 => exact sublist_map_cons (by assumption)

/-- In the middle of the array: `out` has been written, `rest` is still to be
read, with the NUL behind it. -/
structure Minifying (size : Nat) (out rest : List Byte) (m : Minifier) : Prop where
  length : m.mem.length = size
  unread : m.mem.drop m.json = rest ++ [0]
  into_le : m.into ≤ m.json
  into_eq : m.into = out.length
  written : m.mem.take m.into = out
  noNul : (0 : Byte) ∉ rest

section Minifying

variable {size : Nat} {out rest : List Byte} {b : Byte} {m : Minifier}

theorem Minifying.size_eq (h : Minifying size out rest m) : size = m.json + rest.length + 1 := by
  have hlen := congrArg List.length h.unread
  rw [List.length_drop, List.length_append, List.length_singleton, h.length] at hlen
  omega

theorem Minifying.byteAt_cons (h : Minifying size out (b :: rest) m) :
    byteAt m.mem m.json = .ok b := byteAt_of_drop h.unread

theorem Minifying.byteAt_nil (h : Minifying size out [] m) : byteAt m.mem m.json = .ok 0 :=
  byteAt_of_drop h.unread

theorem Minifying.skip (h : Minifying size out (b :: rest) m) :
    Minifying size out rest { m with json := m.json + 1 } :=
  ⟨h.length, drop_succ h.unread, Nat.le_succ_of_le h.into_le, h.into_eq, h.written,
    fun hmem => h.noNul (List.mem_cons_of_mem b hmem)⟩

theorem Minifying.copy (h : Minifying size out (b :: rest) m) :
    ∃ m', copyByte m = .ok m' ∧ Minifying size (out ++ [b]) rest m' := by
  have hsize := h.size_eq
  have hle := h.into_le
  have hlen := h.length
  have hinto : m.into < m.mem.length := by omega
  refine ⟨⟨m.mem.set m.into b, m.json + 1, m.into + 1⟩, ?_, ?_, ?_, ?_, ?_, ?_, ?_⟩
  · unfold copyByte
    rw [h.byteAt_cons]
    simp only [bind, Except.bind]
    rw [if_pos hinto]
    rfl
  · simp only [List.length_set, hlen]
  · simp only
    rw [List.drop_set_of_lt (by omega)]
    exact drop_succ h.unread
  · simp only
    omega
  · rw [List.length_append, ← h.into_eq]
    rfl
  · simp only
    rw [List.set_eq_take_append_cons_drop, if_pos hinto, h.written, h.into_eq,
      List.take_length_add_append]
    rfl
  · exact fun hmem => h.noNul (List.mem_cons_of_mem b hmem)

/-- The NUL is copied as well, where nothing stops at it. -/
theorem Minifying.copy_nul (h : Minifying size out [] m) :
    ∃ m', copyByte m = .ok m' ∧ m'.mem.length = size ∧ m'.json = size := by
  have hsize := h.size_eq
  have hle := h.into_le
  have hlen := h.length
  rw [List.length_nil, Nat.add_zero] at hsize
  refine ⟨⟨m.mem.set m.into 0, m.json + 1, m.into + 1⟩, ?_, ?_, hsize.symm⟩
  · unfold copyByte
    rw [h.byteAt_nil]
    simp only [bind, Except.bind]
    rw [if_pos (by omega)]
    rfl
  · simp only [List.length_set, hlen]

/-- What is behind the array cannot be read. -/
theorem byteAt_behind {mem : List Byte} {i : Nat} (h : mem.length ≤ i) :
    byteAt mem i = .error .outOfBounds := by
  unfold byteAt
  rw [List.getElem?_eq_none h]

theorem skipLine_minifying {rounds : Nat} (h : Minifying size out rest m)
    (hrounds : rest.length < rounds) :
    ∃ m' rest', skipLine rounds m = .ok m' ∧ Minifying size out rest' m' ∧
      (rest'.length ≤ rest.length ∧ ∀ c, rest.head? = some c → c ≠ 10 →
        rest'.length < rest.length) ∧
      minified .line rest = minified .text rest' := by
  induction rest generalizing m rounds with
  | nil =>
      obtain ⟨rounds, rfl⟩ := Nat.exists_eq_add_one_of_ne_zero (Nat.ne_zero_of_lt hrounds)
      refine ⟨m, [], ?_, h, ⟨Nat.le_refl _, nofun⟩, rfl⟩
      unfold skipLine
      rw [h.byteAt_nil]
      rfl
  | cons b rest ih =>
      obtain ⟨rounds, rfl⟩ := Nat.exists_eq_add_one_of_ne_zero (Nat.ne_zero_of_lt hrounds)
      have hb : b ≠ 0 := fun heq => h.noNul (heq ▸ List.mem_cons_self)
      unfold skipLine
      rw [h.byteAt_cons]
      simp only [bind, Except.bind]
      by_cases hline : b = 10
      · rw [if_neg (by simp [hline])]
        refine ⟨m, b :: rest, rfl, h, ⟨Nat.le_refl _, fun c hc hne => ?_⟩, ?_⟩
        · exact absurd (Option.some.inj hc ▸ hline) hne
        rw [minified, minified, if_pos hline, if_pos (by rw [hline]; rfl)]
      · rw [if_pos ⟨hb, hline⟩]
        rw [List.length_cons] at hrounds
        obtain ⟨m', rest', hrun, h', hle, heq⟩ :=
          ih h.skip (show rest.length < rounds by omega)
        refine ⟨m', rest', hrun, h', ⟨Nat.le_succ_of_le hle.1, fun _ _ _ =>
          Nat.lt_succ_of_le hle.1⟩, ?_⟩
        rw [minified, if_neg hline, heq]

/-- The byte behind the next one, where the text goes on or ends. -/
theorem Minifying.byteAt_second (h : Minifying size out (b :: rest) m) :
    byteAt m.mem (m.json + 1) = .ok (rest.head?.getD 0) := by
  cases rest with
  | nil => exact h.skip.byteAt_nil
  | cons c rest => exact h.skip.byteAt_cons

theorem head?_eq_iff (h : Minifying size out (b :: rest) m) {c : Byte} (hc : c ≠ 0) :
    rest.head?.getD 0 = c ↔ rest.head? = some c := by
  cases rest with
  | nil => exact iff_of_false hc.symm nofun
  | cons d rest => simp

theorem skipComment_minifying {rounds : Nat} (h : Minifying size out rest m)
    (hrounds : rest.length < rounds) :
    ∃ m' rest', skipComment rounds m = .ok m' ∧ Minifying size out rest' m' ∧
      rest'.length ≤ rest.length ∧
      ((∃ rest'', rest' = 42 :: 47 :: rest'' ∧ minified .block rest = minified .text rest'') ∨
        rest' = [] ∧ minified .block rest = none) := by
  induction rest generalizing m rounds with
  | nil =>
      obtain ⟨rounds, rfl⟩ := Nat.exists_eq_add_one_of_ne_zero (Nat.ne_zero_of_lt hrounds)
      refine ⟨m, [], ?_, h, Nat.le_refl _, .inr ⟨rfl, rfl⟩⟩
      unfold skipComment
      rw [h.byteAt_nil]
      rfl
  | cons b rest ih =>
      obtain ⟨rounds, rfl⟩ := Nat.exists_eq_add_one_of_ne_zero (Nat.ne_zero_of_lt hrounds)
      rw [List.length_cons] at hrounds
      have hb : b ≠ 0 := fun heq => h.noNul (heq ▸ List.mem_cons_self)
      obtain ⟨m', rest', hrun, h', hle, heq⟩ := ih h.skip (show rest.length < rounds by omega)
      have hle' : rest'.length ≤ (b :: rest).length := Nat.le_succ_of_le hle
      unfold skipComment
      rw [h.byteAt_cons]
      simp only [bind, Except.bind]
      rw [if_neg hb, minified]
      by_cases hstar : b = 42
      · rw [if_pos hstar, h.byteAt_second]
        simp only [head?_eq_iff h (show (47 : Byte) ≠ 0 by decide)]
        by_cases hclose : rest.head? = some 47
        · obtain ⟨rest, rfl⟩ : ∃ rest', rest = 47 :: rest' := by
            cases rest with
            | nil => cases hclose
            | cons c rest => exact ⟨rest, by rw [Option.some.inj hclose]⟩
          rw [if_pos hclose, if_pos ⟨hstar, hclose⟩]
          exact ⟨m, _, rfl, h, Nat.le_refl _, .inl ⟨rest, by rw [hstar], rfl⟩⟩
        · rw [if_neg hclose, if_neg fun hboth => hclose hboth.2]
          exact ⟨m', rest', hrun, h', hle', heq⟩
      · rw [if_neg hstar, if_neg fun hboth => hstar hboth.1]
        exact ⟨m', rest', hrun, h', hle', heq⟩

/-- A loop that copies a string: up to the closing quote, or past the end. -/
def CopiesString (size : Nat) (out rest : List Byte) (mode : Mode) (run : Except Stop Minifier) :
    Prop :=
  (∃ m' s rest', run = .ok m' ∧ Minifying size (out ++ s) (34 :: rest') m' ∧
    rest'.length < rest.length ∧
    minified mode rest = (minified .text rest').map (s ++ 34 :: ·)) ∨
  (∃ m' s, run = .ok m' ∧ Minifying size (out ++ s) [] m' ∧ minified mode rest = none) ∨
  run = .error .outOfBounds ∧ minified mode rest = none

/-- With one character more in front. -/
theorem CopiesString.cons {mode mode' : Mode} {run : Except Stop Minifier}
    (h : CopiesString size (out ++ [b]) rest mode' run)
    (hmode : minified mode (b :: rest) = (minified mode' rest).map (b :: ·)) :
    CopiesString size out (b :: rest) mode run := by
  rcases h with ⟨m', s, rest', hrun, h', hlt, heq⟩ | ⟨m', s, hrun, h', heq⟩ | ⟨hrun, heq⟩
  · refine .inl ⟨m', b :: s, rest', hrun, ?_, Nat.lt_succ_of_lt hlt, ?_⟩
    · rw [List.append_assoc] at h'
      exact h'
    · rw [hmode, heq, Option.map_map]
      rfl
  · refine .inr (.inl ⟨m', b :: s, hrun, ?_, by rw [hmode, heq]; rfl⟩)
    rw [List.append_assoc] at h'
    exact h'
  · exact .inr (.inr ⟨hrun, by rw [hmode, heq]; rfl⟩)

theorem copyString_minifying {rounds : Nat} (h : Minifying size out rest m)
    (hrounds : rest.length < rounds) :
    CopiesString size out rest .string (copyString rounds m) := by
  induction rounds generalizing out rest m with
  | zero => omega
  | succ rounds ih =>
      unfold copyString
      cases rest with
      | nil =>
          rw [h.byteAt_nil]
          refine .inr (.inl ⟨m, [], rfl, ?_, rfl⟩)
          rw [List.append_nil]
          exact h
      | cons b rest =>
          rw [List.length_cons] at hrounds
          have hb : b ≠ 0 := fun heq => h.noNul (heq ▸ List.mem_cons_self)
          rw [h.byteAt_cons]
          simp only [bind, Except.bind]
          by_cases hquote : b = 34
          · rw [if_neg (by simp [hquote])]
            refine .inl ⟨m, [], rest, rfl, ?_, Nat.lt_succ_self _, ?_⟩
            · rw [List.append_nil, ← hquote]
              exact h
            · rw [minified, if_pos hquote, hquote]
              rfl
          rw [if_pos ⟨hb, hquote⟩]
          obtain ⟨m₁, hcopy, h₁⟩ := h.copy
          rw [hcopy]
          by_cases hback : b = 92
          swap
          · rw [if_neg hback]
            exact (ih h₁ (by omega)).cons (by rw [minified, if_neg hquote, if_neg hback])
          rw [if_pos hback]
          have hmode : minified .string (b :: rest) = (minified .escape rest).map (b :: ·) := by
            rw [minified, if_neg hquote, if_pos hback]
          cases rest with
          | nil =>
              -- the escape is that of the NUL
              obtain ⟨m₂, hcopy₂, hlen, hjson⟩ := h₁.copy_nul
              refine .inr (.inr ⟨?_, by rw [hmode]; rfl⟩)
              obtain ⟨rounds, rfl⟩ := Nat.exists_eq_add_one_of_ne_zero
                (show rounds ≠ 0 by simp only [List.length_nil] at hrounds; omega)
              simp only [hcopy₂]
              unfold copyString
              rw [byteAt_behind (by omega)]
              rfl
          | cons c rest =>
              obtain ⟨m₂, hcopy₂, h₂⟩ := h₁.copy
              rw [List.length_cons] at hrounds
              simp only [hcopy₂]
              have hescape : CopiesString size (out ++ [b]) (c :: rest) .escape
                  (copyString rounds m₂) := (ih h₂ (by omega)).cons rfl
              exact hescape.cons hmode

/-! ## cJSON_Minify -/

/-- A run to the end of the text, or past the end of the array. -/
def Ends (size : Nat) (out : List Byte) (text : Option (List Byte)) (run : Except Stop Minifier) :
    Prop :=
  (∃ m' u, run = .ok m' ∧ Minifying size (out ++ u) [] m' ∧ text = some u) ∨
    run = .error .outOfBounds ∧ text = none

theorem Ends.append {s : List Byte} {text : Option (List Byte)} {run : Except Stop Minifier}
    (h : Ends size (out ++ s) text run) : Ends size out (text.map (s ++ ·)) run := by
  rcases h with ⟨m', u, hrun, h', rfl⟩ | ⟨hrun, rfl⟩
  · rw [List.append_assoc] at h'
    exact .inl ⟨m', s ++ u, hrun, h', rfl⟩
  · exact .inr ⟨hrun, rfl⟩

theorem minifyLoop_behind {rounds : Nat} (h : m.mem.length ≤ m.json) (hrounds : rounds ≠ 0) :
    minifyLoop rounds m = .error .outOfBounds := by
  obtain ⟨rounds, rfl⟩ := Nat.exists_eq_add_one_of_ne_zero hrounds
  unfold minifyLoop
  rw [byteAt_behind h]
  rfl

theorem minifyLoop_minifying {rounds : Nat} (h : Minifying size out rest m)
    (hrounds : rest.length < rounds) :
    Ends size out (minified .text rest) (minifyLoop rounds m) := by
  induction rounds generalizing out rest m with
  | zero => omega
  | succ rounds ih =>
      have hsize := h.size_eq
      have hmem := h.length
      unfold minifyLoop
      cases rest with
      | nil =>
          rw [h.byteAt_nil]
          refine .inl ⟨m, [], rfl, ?_, rfl⟩
          rw [List.append_nil]
          exact h
      | cons b rest =>
          rw [List.length_cons] at hrounds hsize
          have hb : b ≠ 0 := fun heq => h.noNul (heq ▸ List.mem_cons_self)
          obtain ⟨m₁, hcopy, h₁⟩ := h.copy
          have hother : Ends size out ((minified .text rest).map (b :: ·)) (minifyLoop rounds m₁) :=
            (ih h₁ (by omega)).append
          rw [h.byteAt_cons]
          simp only [bind, Except.bind]
          rw [if_neg hb, minified]
          by_cases hwhite : isWhite b = true
          · rw [if_pos hwhite, if_pos hwhite]
            exact ih h.skip (by omega)
          rw [if_neg hwhite, if_neg hwhite]
          by_cases hslash : b = 47
          · subst hslash
            rw [if_pos rfl, h.byteAt_second]
            simp only [head?_eq_iff h (show (47 : Byte) ≠ 0 by decide),
              head?_eq_iff h (show (42 : Byte) ≠ 0 by decide), true_and]
            by_cases hline : rest.head? = some 47
            · rw [if_pos hline, if_pos hline]
              obtain ⟨m', rest', hrun, h', ⟨_, hlt⟩, heq⟩ := skipLine_minifying h
                (show (47 :: rest).length < m.mem.length + 1 by rw [List.length_cons]; omega)
              have hlt' := hlt 47 rfl (by decide)
              rw [List.length_cons] at hlt'
              rw [hrun, ← (show minified .line (47 :: rest) = minified .line rest from rfl), heq]
              exact ih h' (by omega)
            rw [if_neg hline, if_neg hline]
            by_cases hblock : rest.head? = some 42
            · rw [if_pos hblock, if_pos hblock]
              obtain ⟨m', rest', hrun, h', hle, hor⟩ := skipComment_minifying h
                (show (47 :: rest).length < m.mem.length + 1 by rw [List.length_cons]; omega)
              rw [hrun, ← (show minified .block (47 :: rest) = minified .block rest from rfl)]
              rcases hor with ⟨rest'', rfl, heq⟩ | ⟨rfl, heq⟩
              · rw [heq]
                simp only [List.length_cons] at hle
                exact ih h'.skip.skip (by omega)
              · have hsize' := h'.size_eq
                have hmem' := h'.length
                rw [List.length_nil] at hsize'
                rw [heq]
                exact .inr ⟨minifyLoop_behind (by simp only; omega) (by omega), rfl⟩
            · rw [if_neg hblock, if_neg hblock, if_neg (by decide), hcopy]
              exact hother
          rw [if_neg hslash, if_neg fun hboth => hslash hboth.1, if_neg fun hboth => hslash hboth.1,
            hcopy]
          by_cases hquote : b = 34
          swap
          · rw [if_neg hquote, if_neg hquote]
            exact hother
          rw [if_pos hquote, if_pos hquote]
          subst hquote
          have hmem₁ := h₁.length
          simp only
          rcases copyString_minifying h₁ (show rest.length < m₁.mem.length + 1 by omega) with
            ⟨m', s, rest', hrun, h', hlt, heq⟩ | ⟨m', s, hrun, h', heq⟩ | ⟨hrun, heq⟩
          · obtain ⟨m₂, hcopy₂, h₂⟩ := h'.copy
            have hout : out ++ [34] ++ s ++ [34] = out ++ (34 :: s ++ [34]) := by simp
            rw [hout] at h₂
            have hend := (ih h₂ (show rest'.length < rounds by omega)).append
            rw [hrun, heq, Option.map_map]
            simp only [hcopy₂]
            have hmap : (34 :: ·) ∘ (s ++ 34 :: ·)
                = ((34 :: s ++ [34]) ++ · : List Byte → List Byte) := by
              funext u
              simp
            rw [hmap]
            exact hend
          · obtain ⟨m₂, hcopy₂, hmem₂, hjson⟩ := h'.copy_nul
            rw [hrun, heq]
            simp only [hcopy₂]
            exact .inr ⟨minifyLoop_behind (by omega) (by omega), rfl⟩
          · rw [hrun, heq]
            exact .inr ⟨rfl, rfl⟩

/-- `cJSON_Minify` on a string leaves in the array what `minified` says, with its
NUL; where that is nothing, because a string or a comment is not closed, it
reads past the end of the array. -/
theorem minify_eq (str : CStr) :
    match minified .text str.bytes with
    | some u => ∃ mem, minify (str.bytes ++ [0]) = .ok mem ∧
        mem.length = str.bytes.length + 1 ∧ u ++ [0] <+: mem
    | none => minify (str.bytes ++ [0]) = .error .outOfBounds := by
  have hlen : (str.bytes ++ [(0 : Byte)]).length = str.bytes.length + 1 := List.length_append
  have hstart : Minifying (str.bytes.length + 1) [] str.bytes ⟨str.bytes ++ [0], 0, 0⟩ :=
    ⟨hlen, rfl, Nat.le_refl 0, rfl, rfl, str.noNul⟩
  unfold minify
  rcases minifyLoop_minifying hstart (show _ < (str.bytes ++ [(0 : Byte)]).length + 1 by omega) with
    ⟨m, u, hrun, h, heq⟩ | ⟨hrun, heq⟩
  · have hsize := h.size_eq
    have hle := h.into_le
    have hmem := h.length
    rw [List.length_nil] at hsize
    have hinto : m.into < m.mem.length := by omega
    rw [heq, hrun]
    refine ⟨m.mem.set m.into 0, ?_, by rw [List.length_set, hmem], ?_⟩
    · simp only [bind, Except.bind]
      rw [if_pos hinto]
      rfl
    · have hwritten := h.written
      rw [List.nil_append] at hwritten
      rw [List.set_eq_take_append_cons_drop, if_pos hinto, hwritten]
      exact ⟨m.mem.drop (m.into + 1), by simp⟩
  · rw [heq, hrun]
    rfl

end Minifying

/-! ## Texts of JSON -/

/-- A part of a text that is cut down to another one, whatever follows it. -/
def Minifies (t u : List Byte) : Prop :=
  ∀ rest, minified .text (t ++ rest) = (minified .text rest).map (u ++ ·)

theorem Minifies.nil : Minifies [] [] := by
  intro rest
  exact Option.map_id'.symm

theorem Minifies.append {t u t' u' : List Byte} (h : Minifies t u) (h' : Minifies t' u') :
    Minifies (t ++ t') (u ++ u') := by
  intro rest
  rw [List.append_assoc, h, h', Option.map_map]
  refine congrArg (fun f => Option.map f (minified .text rest)) ?_
  funext s
  exact (List.append_assoc u u' s).symm

theorem Minifies.white {w : List Byte} (h : White w) : Minifies w [] := by
  induction w with
  | nil => exact .nil
  | cons b w ih =>
      intro rest
      rw [List.cons_append, minified, if_pos (h b List.mem_cons_self)]
      exact ih (fun c hc => h c (List.mem_cons_of_mem b hc)) rest

/-- A byte that is neither skipped nor opens anything. -/
def isToken (b : Byte) : Bool := !isWhite b && b ≠ 47 && b ≠ 34

theorem Minifies.tokens {t : List Byte} (h : t.all isToken = true) : Minifies t t := by
  induction t with
  | nil => exact .nil
  | cons b t ih =>
      rw [List.all_cons, Bool.and_eq_true] at h
      obtain ⟨hb, ht⟩ := h
      simp only [isToken, Bool.and_eq_true, Bool.not_eq_true', decide_eq_true_eq] at hb
      have hrest := ih ht
      intro rest
      rw [List.cons_append, minified, if_neg (by rw [hb.1.1]; nofun),
        if_neg fun hboth => hb.1.2 hboth.1, if_neg fun hboth => hb.1.2 hboth.1, if_neg hb.2, hrest,
        Option.map_map]
      rfl

/-- Between two tokens. -/
theorem Minifies.bracketed {b c : Byte} {t u : List Byte} (hb : isToken b = true)
    (hc : isToken c = true) (h : Minifies t u) : Minifies (b :: t ++ [c]) (b :: u ++ [c]) := by
  have htoken : ∀ {e : Byte}, isToken e = true → Minifies [e] [e] := by
    intro e he
    refine .tokens ?_
    rw [List.all_cons, he]
    rfl
  exact (Minifies.append (htoken hb) h).append (htoken hc)

theorem isToken_of_isNumberChar (b : Byte) : isNumberChar b = true → isToken b = true := by
  revert b
  decide

theorem Minifies.numberChars {t : List Byte} (h : ∀ b ∈ t, isNumberChar b = true) :
    Minifies t t :=
  .tokens (List.all_eq_true.mpr fun b hb => isToken_of_isNumberChar b (h b hb))

/-- Inside a string. -/
theorem minified_plain {b : Byte} (h : b ≠ 34 ∧ b ≠ 92) (rest : List Byte) :
    minified .string (b :: rest) = (minified .string rest).map (b :: ·) := by
  rw [minified, if_neg h.1, if_neg h.2]

theorem minified_escape (e : Byte) (rest : List Byte) :
    minified .string (92 :: e :: rest) = (minified .string rest).map (92 :: e :: ·) := by
  rw [minified, if_neg (by decide), if_pos rfl, minified, Option.map_map]
  rfl

theorem minified_hex4 {v : Nat} {ds : List Byte} (h : Hex4 v ds) (rest : List Byte) :
    minified .string (92 :: 117 :: ds ++ rest)
      = (minified .string rest).map (92 :: 117 :: ds ++ ·) := by
  cases h with
  | digits ha hb hc hd =>
      rw [List.cons_append, List.cons_append, minified_escape]
      simp only [List.cons_append, List.nil_append, minified_plain (hexValue_plain ha),
        minified_plain (hexValue_plain hb), minified_plain (hexValue_plain hc),
        minified_plain (hexValue_plain hd), Option.map_map]
      rfl

theorem minified_chars {s t : List Byte} (h : Chars s t) (rest : List Byte) :
    minified .string (t ++ rest) = (minified .string rest).map (t ++ ·) := by
  induction h with
  | nil => exact Option.map_id'.symm
  | @plain b s t hb hs ih =>
      have hplain : b ≠ 34 ∧ b ≠ 92 := by
        simp only [isPlain, Bool.and_eq_true, decide_eq_true_eq] at hb
        exact ⟨hb.1.2, hb.2⟩
      rw [List.cons_append, minified_plain hplain, ih, Option.map_map]
      rfl
  | short he hs ih =>
      rw [List.cons_append, List.cons_append, minified_escape, ih, Option.map_map]
      rfl
  | unicode he hs ih =>
      rw [List.append_assoc]
      cases he with
      | unit hds =>
          rw [minified_hex4 hds, ih, Option.map_map]
          refine congrArg (fun f => Option.map f (minified .string rest)) ?_
          funext u
          exact (List.append_assoc _ _ u).symm
      | pair hc hhigh hlow hds hes =>
          rw [List.append_assoc, minified_hex4 hds, minified_hex4 hes, ih, Option.map_map,
            Option.map_map]
          refine congrArg (fun f => Option.map f (minified .string rest)) ?_
          funext u
          simp

theorem Minifies.string {s t : List Byte} (h : Chars s t) :
    Minifies (34 :: t ++ [34]) (34 :: t ++ [34]) := by
  intro rest
  rw [List.cons_append, List.cons_append, List.append_assoc, minified, if_neg (by decide),
    if_neg fun hboth => absurd hboth.1 (by decide), if_neg fun hboth => absurd hboth.1 (by decide),
    if_pos rfl, minified_chars h, List.singleton_append, minified, if_pos rfl, Option.map_map,
    Option.map_map]
  refine congrArg (fun f => Option.map f (minified .text rest)) ?_
  funext u
  simp

theorem minified_line {t : List Byte} (h : (10 : Byte) ∉ t) (rest : List Byte) :
    minified .line (t ++ 10 :: rest) = minified .text rest := by
  induction t with
  | nil => rw [List.nil_append, minified, if_pos rfl]
  | cons b t ih =>
      rw [List.mem_cons, not_or] at h
      rw [List.cons_append, minified, if_neg (Ne.symm h.1), ih h.2]

theorem minified_block {t : List Byte} (h : ¬[42, 47] <:+: t) (rest : List Byte) :
    minified .block (t ++ 42 :: 47 :: rest) = minified .text rest := by
  induction t with
  | nil => rw [List.nil_append, minified, if_pos ⟨rfl, rfl⟩, minified]
  | cons b t ih =>
      have htail : ¬[42, 47] <:+: t := fun hin => h (List.infix_cons hin)
      rw [List.cons_append, minified, if_neg, ih htail]
      rintro ⟨rfl, hhead⟩
      cases t with
      | nil => cases hhead
      | cons c t =>
          obtain rfl := Option.some.inj hhead
          exact h ⟨[], t, rfl⟩

/-- A comment as in C, but none that begins with `/*/`: of these the code takes
the star that opens them for the one that closes them. -/
inductive Comment : List Byte → Prop
  | line {t : List Byte} (h : (10 : Byte) ∉ t) : Comment (47 :: 47 :: t ++ [10])
  | block {t : List Byte} (h : ¬[42, 47] <:+: 42 :: t) : Comment (47 :: 42 :: t ++ [42, 47])

/-- White space and comments. -/
inductive Commented : List Byte → Prop
  | nil : Commented []
  | white {b : Byte} {t : List Byte} (hb : isWhite b = true) (ht : Commented t) :
      Commented (b :: t)
  | comment {t u : List Byte} (ht : Comment t) (hu : Commented u) : Commented (t ++ u)

theorem Minifies.comment {t : List Byte} (h : Comment t) : Minifies t [] := by
  have hnothing : ∀ rest, minified .text rest = (minified .text rest).map ([] ++ ·) :=
    fun rest => Option.map_id'.symm
  intro rest
  rw [← hnothing]
  cases h with
  | @line t h =>
      have hline : (10 : Byte) ∉ 47 :: t := by
        rw [List.mem_cons, not_or]
        exact ⟨by decide, h⟩
      rw [List.append_assoc, List.cons_append, minified, if_neg (by decide), if_pos ⟨rfl, rfl⟩]
      exact minified_line hline rest
  | @block t h =>
      rw [List.append_assoc, List.cons_append, minified, if_neg (by decide),
        if_neg fun hboth => absurd (Option.some.inj hboth.2) (by decide), if_pos ⟨rfl, rfl⟩]
      exact minified_block h rest

theorem Minifies.commented {t : List Byte} (h : Commented t) : Minifies t [] := by
  induction h with
  | nil => exact .nil
  | white hb _ ih =>
      intro rest
      rw [List.cons_append, minified, if_pos hb]
      exact ih rest
  | comment ht _ ih => exact (Minifies.comment ht).append ih

/-- A member, and what stands around its parts. -/
theorem member_minifies {k a s b c t d u : List Byte} (ha : Commented a) (hk : Chars k s)
    (hb : Commented b) (hc : Commented c) (hu : Minifies t u) (hd : Commented d) :
    Minifies (a ++ 34 :: s ++ 34 :: b ++ 58 :: c ++ t ++ d)
      ([] ++ 34 :: s ++ 34 :: [] ++ 58 :: [] ++ u ++ []) := by
  have hname := ((Minifies.commented ha).append (.string hk)).append (.commented hb)
  have hcolon : Minifies [58] [58] := .tokens rfl
  have hvalue := ((hcolon.append (.commented hc)).append hu).append (.commented hd)
  have hmember := hname.append hvalue
  simpa using hmember

section Text

variable {dbl : Doubles}

mutual

/-- A text of JSON with comments is cut down to one without, of the same
value. -/
theorem text_minifies : {v : Json dbl.Double} → {t : List Byte} → v.Text Commented dbl.Lexeme t →
    ∃ u, Minifies t u ∧ v.Text White dbl.Lexeme u
  | _, _, .null => ⟨_, .tokens rfl, .null⟩
  | _, _, .true => ⟨_, .tokens rfl, .true⟩
  | _, _, .false => ⟨_, .tokens rfl, .false⟩
  | _, _, .number h =>
      ⟨_, .numberChars h.chars, .number h⟩
  | _, _, .string h => ⟨_, .string h, .string h⟩
  | _, _, .emptyArray hw =>
      ⟨_, .bracketed rfl rfl (.commented hw), .emptyArray .nil⟩
  | _, _, .array hs => by
      obtain ⟨u, hu, hus⟩ := elements_minifies hs
      exact ⟨_, .bracketed rfl rfl hu, .array hus⟩
  | _, _, .emptyObject hw =>
      ⟨_, .bracketed rfl rfl (.commented hw), .emptyObject .nil⟩
  | _, _, .object hs => by
      obtain ⟨u, hu, hus⟩ := members_minifies hs
      exact ⟨_, .bracketed rfl rfl hu, .object hus⟩

theorem elements_minifies : {vs : List (Json dbl.Double)} → {t : List Byte} →
    Json.Elements Commented dbl.Lexeme vs t →
      ∃ u, Minifies t u ∧ Json.Elements White dbl.Lexeme vs u
  | _, _, .one ha h hb => by
      obtain ⟨u, hu, hv⟩ := text_minifies h
      exact ⟨_, (Minifies.append (.commented ha) hu).append (.commented hb), .one .nil hv .nil⟩
  | _, _, .cons ha h hb hs => by
      obtain ⟨u, hu, hv⟩ := text_minifies h
      obtain ⟨us, hus, hvs⟩ := elements_minifies hs
      have hcomma : Minifies [44] [44] := .tokens rfl
      exact ⟨_, ((Minifies.append (.commented ha) hu).append (.commented hb)).append
        (hcomma.append hus), .cons .nil hv .nil hvs⟩

theorem members_minifies : {ms : List (List Byte × Json dbl.Double)} → {t : List Byte} →
    Json.Members Commented dbl.Lexeme ms t →
      ∃ u, Minifies t u ∧ Json.Members White dbl.Lexeme ms u
  | _, _, .one ha hk hb hc h hd => by
      obtain ⟨u, hu, hv⟩ := text_minifies h
      exact ⟨_, member_minifies ha hk hb hc hu hd, .one .nil hk .nil .nil hv .nil⟩
  | _, _, .cons ha hk hb hc h hd hs => by
      obtain ⟨u, hu, hv⟩ := text_minifies h
      obtain ⟨us, hus, hvs⟩ := members_minifies hs
      have hcomma : Minifies [44] [44] := .tokens rfl
      exact ⟨_, (member_minifies ha hk hb hc hu hd).append (hcomma.append hus),
        .cons .nil hk .nil .nil hv .nil hvs⟩

end

/-! ## What the printer prints -/

theorem numberText_minifies (h : dbl.Recovers) (d : dbl.Double) :
    Minifies (numberText dbl d) (numberText dbl d) := by
  cases hfinite : dbl.isFinite d with
  | false =>
      have hnull : numberText dbl d = [110, 117, 108, 108] := by
        rw [numberText, hfinite]
        rfl
      rw [hnull]
      exact .tokens rfl
  | true =>
      exact .numberChars (h.lexeme hfinite).chars

theorem quoted_minifies (str : Option CStr) : Minifies (quoted str) (quoted str) :=
  .string (chars_flatMap (bytesOf str))

theorem keyText_minifies (depth depth' : Nat) (name : Option CStr) :
    Minifies (keyText true depth name) (keyText false depth' name) := by
  have hcolon : Minifies [58] [58] := .tokens rfl
  have hkey := ((Minifies.white (white_tabs depth)).append (quoted_minifies name)).append
    (hcolon.append (.white (w := [9]) (by decide)))
  simpa [keyText] using hkey

theorem behindText_minifies (more : Bool) :
    Minifies (behindText true more) (behindText false more) := by
  have hnewline : Minifies [10] [] := .white (by decide)
  cases more with
  | false => exact hnewline
  | true => exact Minifies.append (.tokens (t := [44]) rfl) hnewline

theorem commaText_minifies : Minifies (commaText true) (commaText false) :=
  Minifies.append (.tokens (t := [44]) rfl) (.white (w := [32]) (by decide))

mutual

/-- What is printed formatted is cut down to what is printed without. -/
theorem textOf_minifies (h : dbl.Recovers) (depth depth' : Nat) :
    (item : Item dbl.Double) → ∀ t v, textOf dbl true depth item = some t →
      valueOf dbl item = some v → ∃ u, textOf dbl false depth' item = some u ∧ Minifies t u
  | { type, valuestring, valuedouble, child, .. } => by
      intro t v ht hv
      cases type with
      | null => cases ht; exact ⟨_, rfl, .tokens rfl⟩
      | false => cases ht; exact ⟨_, rfl, .tokens rfl⟩
      | true => cases ht; exact ⟨_, rfl, .tokens rfl⟩
      | number => cases ht; exact ⟨_, rfl, numberText_minifies h valuedouble⟩
      | raw => cases hv
      | string => cases ht; exact ⟨_, rfl, quoted_minifies valuestring⟩
      | array =>
          obtain ⟨t, helements, ht⟩ := Option.bind_eq_some_iff.mp ht
          obtain rfl := Option.some.inj ht
          obtain ⟨vs, hvs, -⟩ := Option.map_eq_some_iff.mp hv
          obtain ⟨u, hu, htu⟩ := elementsText_minifies h _ (depth' + 1) child t vs helements hvs
          refine ⟨91 :: u ++ [93], ?_, .bracketed rfl rfl htu⟩
          rw [textOf, hu]
          rfl
      | object =>
          obtain ⟨t, hmembers, ht⟩ := Option.bind_eq_some_iff.mp ht
          obtain rfl := Option.some.inj ht
          obtain ⟨ms, hms, -⟩ := Option.map_eq_some_iff.mp hv
          obtain ⟨u, hu, htu⟩ := membersText_minifies h _ (depth' + 1) child t ms hmembers hms
          refine ⟨123 :: u ++ [125], ?_, ?_⟩
          · rw [textOf, hu]
            rfl
          · have hopen : Minifies [123, 10] [123] :=
              Minifies.append (.tokens (t := [123]) rfl) (.white (w := [10]) (by decide))
            have hclose : Minifies (tabs depth ++ [125]) [125] :=
              Minifies.append (.white (white_tabs depth)) (.tokens (t := [125]) rfl)
            exact (hopen.append htu).append hclose
      | invalid => cases hv

theorem elementsText_minifies (h : dbl.Recovers) (depth depth' : Nat) :
    (items : List (Item dbl.Double)) → ∀ t vs, elementsText dbl true depth items = some t →
      elementsOf dbl items = some vs →
        ∃ u, elementsText dbl false depth' items = some u ∧ Minifies t u
  | [] => by
      intro t vs ht _
      cases ht
      exact ⟨[], rfl, .nil⟩
  | item :: items => by
      intro t vs ht hvs
      obtain ⟨t, htext, ht⟩ := Option.bind_eq_some_iff.mp ht
      obtain ⟨ts, helements, ht⟩ := Option.bind_eq_some_iff.mp ht
      obtain rfl := Option.some.inj ht
      obtain ⟨v, hv, hvs⟩ := Option.bind_eq_some_iff.mp hvs
      obtain ⟨vs, hvs, -⟩ := Option.bind_eq_some_iff.mp hvs
      obtain ⟨u, hu, htu⟩ := textOf_minifies h depth depth' item t v htext hv
      obtain ⟨us, hus, htus⟩ := elementsText_minifies h depth depth' items ts vs helements hvs
      refine ⟨_, by rw [elementsText, hu, hus]; rfl, htu.append (Minifies.append ?_ htus)⟩
      cases items with
      | nil => exact .nil
      | cons next items => exact commaText_minifies

theorem membersText_minifies (h : dbl.Recovers) (depth depth' : Nat) :
    (items : List (Item dbl.Double)) → ∀ t ms, membersText dbl true depth items = some t →
      membersOf dbl items = some ms →
        ∃ u, membersText dbl false depth' items = some u ∧ Minifies t u
  | [] => by
      intro t vs ht _
      cases ht
      exact ⟨[], rfl, .nil⟩
  | item :: items => by
      intro t ms ht hms
      obtain ⟨t, htext, ht⟩ := Option.bind_eq_some_iff.mp ht
      obtain ⟨ts, hmembers, ht⟩ := Option.bind_eq_some_iff.mp ht
      obtain rfl := Option.some.inj ht
      obtain ⟨v, hv, hms⟩ := Option.bind_eq_some_iff.mp hms
      obtain ⟨ms, hms, -⟩ := Option.bind_eq_some_iff.mp hms
      obtain ⟨u, hu, htu⟩ := textOf_minifies h depth depth' item t v htext hv
      obtain ⟨us, hus, htus⟩ := membersText_minifies h depth depth' items ts ms hmembers hms
      refine ⟨_, by rw [membersText, hu, hus]; rfl, ?_⟩
      exact (keyText_minifies depth depth' item.string).append
        (htu.append ((behindText_minifies _).append htus))

end

end Text

/-! ## Minified, printed, parsed -/

/-- What is in the array, as a string. -/
theorem minify_string {str : CStr} {u : List Byte} (h : minified .text str.bytes = some u) :
    ∃ mem, minify (str.bytes ++ [0]) = .ok mem ∧ mem.length = str.bytes.length + 1 ∧
      u.Sublist str.bytes ∧ u ++ [0] <+: mem ∧ stringAt mem = u := by
  have hsub := minified_sublist .text str.bytes u h
  have hno : (0 : Byte) ∉ u := fun hmem => str.noNul (hsub.subset hmem)
  have hrun := minify_eq str
  rw [h] at hrun
  obtain ⟨mem, hrun, hlen, hprefix⟩ := hrun
  have hlt : u.length < mem.length := by
    rw [hlen]
    exact Nat.lt_succ_of_le hsub.length_le
  exact ⟨mem, hrun, hlen, hsub, hprefix, (stringAt_eq_iff hno hlt).mpr hprefix⟩

/-- A part of a text, as all of one. -/
theorem Minifies.all {t u : List Byte} (h : Minifies t u) : minified .text t = some u := by
  have hrest := h []
  rw [List.append_nil] at hrest
  rw [hrest, minified, Option.map_some, List.append_nil]

/-! ## Strings and comments -/

/-- Where in a text one is, by the rules: a comment of several lines is opened
by two characters and closed by two others. -/
inductive Region where
  | text
  | line
  /-- At the star that opens a comment. -/
  | opening
  | block
  /-- At the slash that closes it. -/
  | closing
  | string
  | escape
  deriving DecidableEq

/-- Whether a slash at the head of the text opens a comment. -/
def opensComment (b : Byte) (ahead : Option Byte) : Bool :=
  b = 47 && (ahead = some 47 || ahead = some 42)

/-- Where one is behind this byte, given the one ahead. -/
def Region.next (b : Byte) (ahead : Option Byte) : Region → Region
  | .text =>
      if b = 47 ∧ ahead = some 47 then .line
      else if b = 47 ∧ ahead = some 42 then .opening
      else if b = 34 then .string
      else .text
  | .line => if b = 10 then .text else .line
  | .opening => .block
  | .block => if b = 42 ∧ ahead = some 47 then .closing else .block
  | .closing => .text
  | .string => if b = 34 then .text else if b = 92 then .escape else .string
  | .escape => .string

/-- Strings stay, and outside of them what is neither white space nor opens a
comment. -/
def Region.keeps (b : Byte) (ahead : Option Byte) : Region → Bool
  | .text => !isWhite b && !opensComment b ahead
  | .string | .escape => true
  | _ => false

/-- A text without the white space and the comments outside of its strings, if
every string and every comment of several lines is closed. -/
def stripped : Region → List Byte → Option (List Byte)
  | region, [] => if region = .text ∨ region = .line then some [] else none
  | region, b :: rest =>
      let left := stripped (region.next b rest.head?) rest
      if region.keeps b rest.head? then left.map (b :: ·) else left

/-- No comment of several lines begins with `/*/`. -/
def NoOverlap : Region → List Byte → Prop
  | _, [] => True
  | region, b :: rest =>
      (region = .opening → rest.head? ≠ some 47) ∧ NoOverlap (region.next b rest.head?) rest

/-- Where the loops are then. -/
def Region.mode : Region → Mode
  | .text => .text
  | .line => .line
  | .opening | .block => .block
  | .closing => .close
  | .string => .string
  | .escape => .escape

section Text

variable {b : Byte} {ahead : Option Byte}

theorem opensComment_iff :
    opensComment b ahead = true ↔ b = 47 ∧ ahead = some 47 ∨ b = 47 ∧ ahead = some 42 := by
  simp only [opensComment, Bool.and_eq_true, Bool.or_eq_true, decide_eq_true_eq, and_or_left]

theorem keeps_text_iff :
    Region.keeps b ahead .text = true ↔ isWhite b = false ∧ opensComment b ahead = false := by
  simp only [Region.keeps, Bool.and_eq_true, Bool.not_eq_true']

/-- White space opens nothing. -/
theorem next_text_white (h : isWhite b = true) : Region.next b ahead .text = .text := by
  have hslash : b ≠ 47 := by
    rintro rfl
    exact absurd h (by decide)
  have hquote : b ≠ 34 := by
    rintro rfl
    exact absurd h (by decide)
  rw [Region.next, if_neg fun hboth => hslash hboth.1, if_neg fun hboth => hslash hboth.1,
    if_neg hquote]

end Text

/-- A byte outside of strings and comments, for the loops and by the rules:
white space, the slash that opens a comment, a quote, or another. -/
theorem minified_text_cons (b : Byte) (rest : List Byte) :
    minified .text (b :: rest) =
      let left := minified (Region.next b rest.head? .text).mode rest
      if Region.keeps b rest.head? .text then left.map (b :: ·) else left := by
  rw [minified]
  by_cases hwhite : isWhite b = true
  · have hkeeps : ¬Region.keeps b rest.head? .text = true := by
      rw [keeps_text_iff, hwhite]
      exact fun hboth => absurd hboth.1 (by decide)
    simp only [if_pos hwhite, if_neg hkeeps, next_text_white hwhite]
    rfl
  by_cases hline : b = 47 ∧ rest.head? = some 47
  · have hkeeps : ¬Region.keeps b rest.head? .text = true := by
      rw [keeps_text_iff, opensComment_iff.mpr (.inl hline)]
      exact fun hboth => absurd hboth.2 (by decide)
    have hnext : Region.next b rest.head? .text = .line := if_pos hline
    simp only [if_neg hwhite, if_pos hline, if_neg hkeeps, hnext]
    rfl
  by_cases hblock : b = 47 ∧ rest.head? = some 42
  · have hkeeps : ¬Region.keeps b rest.head? .text = true := by
      rw [keeps_text_iff, opensComment_iff.mpr (.inr hblock)]
      exact fun hboth => absurd hboth.2 (by decide)
    have hnext : Region.next b rest.head? .text = .opening := (if_neg hline).trans (if_pos hblock)
    simp only [if_neg hwhite, if_neg hline, if_pos hblock, if_neg hkeeps, hnext]
    rfl
  have hkeeps : Region.keeps b rest.head? .text = true := by
    rw [keeps_text_iff, ← Bool.not_eq_true, ← Bool.not_eq_true, opensComment_iff]
    exact ⟨hwhite, not_or_intro hline hblock⟩
  by_cases hquote : b = 34
  · have hnext : Region.next b rest.head? .text = .string :=
      (if_neg hline).trans ((if_neg hblock).trans (if_pos hquote))
    simp only [if_neg hwhite, if_neg hline, if_neg hblock, if_pos hquote, if_pos hkeeps, hnext]
    rfl
  · have hnext : Region.next b rest.head? .text = .text :=
      (if_neg hline).trans ((if_neg hblock).trans (if_neg hquote))
    simp only [if_neg hwhite, if_neg hline, if_neg hblock, if_neg hquote, if_pos hkeeps, hnext]
    rfl

/-- **The loops go by the rules** where no comment begins with `/*/`. At the
star that opens one they are within it already, and leave it only for a slash
behind that star. -/
theorem minified_eq_stripped (region : Region) (t : List Byte) (h : NoOverlap region t) :
    minified region.mode t = stripped region t := by
  induction t generalizing region with
  | nil => cases region <;> rfl
  | cons b rest ih =>
      obtain ⟨hopening, hrest⟩ := h
      rw [stripped, ← ih _ hrest]
      cases region with
      | text => exact minified_text_cons b rest
      | line =>
          show (if b = 10 then _ else _) = minified (Region.mode (if b = 10 then _ else _)) rest
          split <;> rfl
      | opening => exact if_neg fun hboth => hopening rfl hboth.2
      | block =>
          show (if b = 42 ∧ rest.head? = some 47 then _ else _)
            = minified (Region.mode (if b = 42 ∧ rest.head? = some 47 then _ else _)) rest
          split <;> rfl
      | closing => rfl
      | string =>
          show (if b = 34 then _ else if b = 92 then _ else _)
            = (minified (Region.mode (if b = 34 then _ else if b = 92 then _ else _)) rest).map _
          by_cases hquote : b = 34
          · rw [if_pos hquote, if_pos hquote]
            rfl
          · rw [if_neg hquote, if_neg hquote]
            split <;> rfl
      | escape => rfl

/-- `cJSON_Minify` stays in its array if and only if every string and every
comment of several lines that the text opens is closed as well, as long as
none begins with `/*/`. It only leaves out bytes, and what it leaves is the
text without white space and comments. -/
theorem minify_spec (str : CStr) (hoverlap : NoOverlap .text str.bytes) :
    (minify (str.bytes ++ [0]) = .error .outOfBounds ↔ stripped .text str.bytes = none) ∧
    ∀ u, stripped .text str.bytes = some u ↔
      ∃ mem, minify (str.bytes ++ [0]) = .ok mem ∧ mem.length = str.bytes.length + 1 ∧
        u.Sublist str.bytes ∧ stringAt mem = u := by
  rw [← minified_eq_stripped .text str.bytes hoverlap]
  show (_ ↔ minified .text str.bytes = none) ∧ ∀ u, minified .text str.bytes = some u ↔ _
  cases h : minified .text str.bytes with
  | none =>
      have hrun := minify_eq str
      rw [h] at hrun
      simp only at hrun
      refine ⟨iff_of_true hrun rfl, fun u => iff_of_false nofun ?_⟩
      rintro ⟨mem, heq, -⟩
      cases hrun.symm.trans heq
  | some u' =>
      obtain ⟨mem, hrun, hlen, hsub, -, hstring⟩ := minify_string h
      rw [hrun]
      refine ⟨iff_of_false nofun nofun, fun u => ⟨?_, ?_⟩⟩
      · rintro ⟨⟩
        exact ⟨mem, rfl, hlen, hsub, hstring⟩
      · rintro ⟨mem', heq, -, -, rfl⟩
        rw [← Except.ok.inj heq, hstring]

/-- `[ "/*/" /* */ ]`. -/
theorem minify_spec_bracketed :
    let str : CStr := ⟨[91, 32, 34, 47, 42, 47, 34, 32, 47, 42, 32, 42, 47, 32, 93], by decide⟩
    (minify (str.bytes ++ [0]) = .error .outOfBounds ↔ stripped .text str.bytes = none) ∧
    ∀ u, stripped .text str.bytes = some u ↔
      ∃ mem, minify (str.bytes ++ [0]) = .ok mem ∧ mem.length = str.bytes.length + 1 ∧
        u.Sublist str.bytes ∧ stringAt mem = u :=
  minify_spec ⟨[91, 32, 34, 47, 42, 47, 34, 32, 47, 42, 32, 42, 47, 32, 93], by decide⟩
    (by simp [NoOverlap, Region.next])

/-- The star that opens a comment closes it, and what is in it stays. -/
example : minified .text [47, 42, 47, 49, 42, 47] = some [49, 42, 47]
    ∧ stripped .text [47, 42, 47, 49, 42, 47] = some [] := ⟨rfl, rfl⟩

/-- What `cJSON_Print` prints is minified to what `cJSON_PrintUnformatted`
prints. -/
theorem minify_print {dbl : Doubles} (h : dbl.Recovers) {hooks hooks' : Hooks}
    {item : Item dbl.Double} {v : Json dbl.Double} {heap heap₁ heap' heap₂ : Heap}
    {block block' : List Byte} (hv : valueOf dbl item = some v)
    (hprint : print hooks dbl item true heap = .ok (some block, heap₁))
    (hprint' : print hooks' dbl item false heap' = .ok (some block', heap₂)) :
    ∃ mem, minify block = .ok mem ∧ block' <+: mem := by
  obtain ⟨t, ht, rfl⟩ := print_block h.toSprintf hprint
  obtain ⟨t', ht', rfl⟩ := print_block h.toSprintf hprint'
  obtain ⟨u, hu, hminifies⟩ := textOf_minifies h 0 0 item t v ht hv
  obtain rfl := Option.some.inj (hu.symm.trans ht')
  obtain ⟨mem, hrun, _, _, hprefix, _⟩ :=
    @minify_string ⟨t, noNul_textOf h.toSprintf ht⟩ u hminifies.all
  exact ⟨mem, hrun, hprefix⟩

/-- `[1, 2]`, as it is printed with the format and without. -/
theorem minify_print_twoInBrackets : ∃ mem, minify [91, 49, 44, 32, 50, 93, 0] = .ok mem ∧
    [91, 49, 44, 50, 93, 0] <+: mem := by
  have hprint : ∃ heap, print ⟨fun _ => true, fun _ _ => 0, true⟩ digits
      (itemOf digits (.array [.number digits.one, .number (2 : Fin 10)])) true ⟨0, 0⟩
        = .ok (some [91, 49, 44, 32, 50, 93, 0], heap) :=
    print_granted digits_sprintf (fun _ => rfl) (t := [91, 49, 44, 32, 50, 93]) (by rfl)
      (by decide) ⟨0, 0⟩
  have hprint' : ∃ heap, print ⟨fun _ => true, fun _ _ => 0, true⟩ digits
      (itemOf digits (.array [.number digits.one, .number (2 : Fin 10)])) false ⟨0, 0⟩
        = .ok (some [91, 49, 44, 50, 93, 0], heap) :=
    print_granted digits_sprintf (fun _ => rfl) (t := [91, 49, 44, 50, 93]) (by rfl)
      (by decide) ⟨0, 0⟩
  obtain ⟨_, hprint⟩ := hprint
  obtain ⟨_, hprint'⟩ := hprint'
  exact minify_print digits_recovers rfl hprint hprint'

end JsonRead

end BeEasy
