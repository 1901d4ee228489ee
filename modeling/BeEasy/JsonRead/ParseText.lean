import BeEasy.JsonRead.ParseSafe

/-!
# JsonRead — Texts of JSON are parsed

Where the buffer holds a text of JSON and all memory is granted, the parser
makes the item of its value, unless it is nested too deep: then there is none.
White space may stand around the values, and a byte order mark in front.
-/

namespace BeEasy

open CVerif

namespace JsonRead

/-- What may stand behind a number. -/
def Follow (more : List Byte) : Prop := ∃ b rest, more = b :: rest ∧ isNumberChar b = false

theorem isNumberChar_of_isWhite {b : Byte} (h : isWhite b = true) : isNumberChar b = false := by
  simp only [isWhite, Bool.or_eq_true, decide_eq_true_eq] at h
  rcases h with ((rfl | rfl) | rfl) | rfl <;> rfl

theorem le_of_isWhite {b : Byte} (h : isWhite b = true) : b ≤ 32 := by
  simp only [isWhite, Bool.or_eq_true, decide_eq_true_eq] at h
  rcases h with ((rfl | rfl) | rfl) | rfl <;> decide

theorem Follow.white {w more : List Byte} (hw : White w) (h : Follow more) :
    Follow (w ++ more) := by
  cases w with
  | nil => exact h
  | cons b w => exact ⟨b, w ++ more, rfl, isNumberChar_of_isWhite (hw b List.mem_cons_self)⟩

section Text

variable {dbl : Doubles} {grants : Nat → Bool} {content : List Byte} {levels : Nat}

/-- The first byte of a value is none of those that the parser skips, or looks
for between values. -/
theorem text_head {v : Json dbl.Double} {t : List Byte} (h : v.Text White dbl.Lexeme t) :
    ∃ b rest, t = b :: rest ∧ 32 < b ∧ b ≠ 93 ∧ b ≠ 0xEF := by
  cases h with
  | number hn =>
      obtain ⟨b, rest, rfl, hstart⟩ := hn.head
      refine ⟨b, rest, rfl, ?_⟩
      simp only [startsNumber, Bool.or_eq_true, Bool.and_eq_true, decide_eq_true_eq] at hstart
      bv_omega
  | null | true | false | string | emptyArray | array | emptyObject | object =>
      exact ⟨_, _, rfl, by decide, by decide, by decide⟩

theorem skipWhitespace_white (st : ParseState) {w rest : List Byte} {b : Byte} (hw : White w)
    (hb : 32 < b) (hdrop : content.drop st.offset = w ++ b :: rest) :
    skipWhitespace content st = ⟨st.offset + w.length, st.heap⟩ := by
  have htake : (content.drop st.offset).takeWhile (· ≤ (32 : Byte)) = w := by
    rw [hdrop, List.takeWhile_append_of_pos, List.takeWhile_cons_of_neg, List.append_nil]
    · simpa using hb
    · exact fun c hc => decide_eq_true (le_of_isWhite (hw c hc))
  have hlen := congrArg List.length hdrop
  rw [List.length_drop, List.length_append, List.length_cons] at hlen
  unfold skipWhitespace
  simp only [htake]
  rw [if_neg (by omega)]

/-- The loop skips the NUL as well, and steps back. -/
theorem skipWhitespace_end (st : ParseState) {w : List Byte} (hw : White w)
    (hdrop : content.drop st.offset = w ++ [0]) :
    skipWhitespace content st = ⟨st.offset + w.length, st.heap⟩ := by
  have htake : (content.drop st.offset).takeWhile (· ≤ (32 : Byte)) = w ++ [0] := by
    rw [hdrop, List.takeWhile_append_of_pos]
    · rfl
    · exact fun c hc => decide_eq_true (le_of_isWhite (hw c hc))
  have hlen := congrArg List.length hdrop
  rw [List.length_drop, List.length_append, List.length_singleton] at hlen
  unfold skipWhitespace
  simp only [htake, List.length_append, List.length_singleton]
  rw [if_pos (by omega)]
  rfl

theorem peek_of_drop (st : ParseState) {b : Byte} {rest : List Byte}
    (hdrop : content.drop st.offset = b :: rest) : peek content st = some b := by
  unfold peek
  rw [← Nat.add_zero st.offset, ← List.getElem?_drop, hdrop]
  rfl

theorem drop_append {p : Nat} {t more : List Byte} (hdrop : content.drop p = t ++ more) :
    content.drop (p + t.length) = more := by
  rw [← List.drop_drop, hdrop, List.drop_left]

/-- A parser that ended there with this value, or failed because the value does
not fit. -/
def Outcome {α : Type} (Fits : Prop) (value : α) (offset : Nat) (r : Option α) (st : ParseState) :
    Prop :=
  Fits ∧ r = some value ∧ st.offset = offset ∨ ¬Fits ∧ r = none

/-- A parser that makes the item of a value nested `levels` deep at most, from
any of its texts. -/
def Reads (content : List Byte) (levels : Nat) (parser : Parser dbl) : Prop :=
  ∀ v t more item st, v.Text White dbl.Lexeme t → content.drop st.offset = t ++ more →
    Follow more →
    ∃ r st', parser item st = .ok (r, st') ∧
      Outcome (v.depth ≤ levels) (put dbl item v) (st.offset + t.length) r st'

/-! ## Numbers and names -/

theorem parseNumber_lexeme {n : dbl.Double} {t more : List Byte} {item : Item dbl.Double}
    {st : ParseState} (h : dbl.Lexeme n t) (hdrop : content.drop st.offset = t ++ more)
    (hmore : Follow more) :
    parseNumber dbl content item st
      = .ok (some (put dbl item (.number n)), ⟨st.offset + t.length, st.heap⟩) := by
  obtain ⟨b, rest, rfl, hb⟩ := hmore
  obtain ⟨c, t', rfl, _⟩ := h.head
  have hrun : ((content.drop st.offset).take 63).takeWhile isNumberChar = c :: t' := by
    rw [hdrop, List.take_append, List.take_of_length_le h.length_le,
      List.takeWhile_append_of_pos h.chars]
    cases 63 - (c :: t').length with
    | zero => rw [List.take_zero, List.takeWhile_nil, List.append_nil]
    | succ k =>
        rw [List.take_succ_cons, List.takeWhile_cons_of_neg (by rw [hb]; nofun), List.append_nil]
  unfold parseNumber
  simp only [hrun, h.strtod]
  rfl

theorem startsWith_append {st : ParseState} {b : Byte} {word more : List Byte}
    (hdrop : content.drop st.offset = b :: word ++ more) :
    startsWith content st (b :: word) = true := by
  have hlen := congrArg List.length hdrop
  rw [List.length_drop, List.length_append, List.length_cons] at hlen
  unfold startsWith
  rw [hdrop, List.take_left, Bool.and_eq_true, decide_eq_true_eq, List.length_cons]
  exact ⟨by omega, decide_eq_true rfl⟩

theorem startsWith_other {st : ParseState} {b c : Byte} {word rest : List Byte}
    (hdrop : content.drop st.offset = b :: rest) (hne : b ≠ c) :
    startsWith content st (c :: word) = false := by
  unfold startsWith
  rw [hdrop, List.length_cons, List.take_succ_cons, Bool.and_eq_false_iff]
  exact .inr (decide_eq_false fun h => hne (List.cons_eq_cons.mp h).1)

/-! ## Arrays and objects -/

theorem elements_head {vs : List (Json dbl.Double)} {t : List Byte}
    (h : Json.Elements White dbl.Lexeme vs t) :
    ∃ a b u, White a ∧ t = a ++ b :: u ∧ 32 < b ∧ b ≠ 93 ∧
      Json.Elements White dbl.Lexeme vs (b :: u) := by
  cases h with
  | one ha hv hb =>
      rename_i v a t w
      obtain ⟨b, u, rfl, hgt, hne, _⟩ := text_head hv
      exact ⟨a, b, u ++ w, ha, by simp, hgt, hne, .one .nil hv hb⟩
  | cons ha hv hb hs =>
      rename_i v vs a t w rest
      obtain ⟨b, u, rfl, hgt, hne, _⟩ := text_head hv
      exact ⟨a, b, u ++ w ++ 44 :: rest, ha, by simp, hgt, hne, .cons .nil hv hb hs⟩

/-- What stands behind an element: nothing, or a comma and the others. -/
theorem elements_cons {v : Json dbl.Double} {vs : List (Json dbl.Double)} {t : List Byte}
    (h : Json.Elements White dbl.Lexeme (v :: vs) t) :
    ∃ a u w rest, White a ∧ v.Text White dbl.Lexeme u ∧ White w ∧ t = a ++ (u ++ (w ++ rest)) ∧
      (rest = [] ∧ vs = [] ∨ ∃ t', rest = 44 :: t' ∧ Json.Elements White dbl.Lexeme vs t') := by
  cases h with
  | one ha hv hw => exact ⟨_, _, _, [], ha, hv, hw, by simp, .inl ⟨rfl, rfl⟩⟩
  | cons ha hv hw hs => exact ⟨_, _, _, _, ha, hv, hw, by simp, .inr ⟨_, rfl, hs⟩⟩

/-- Behind a value there is the next one, or the bracket. -/
theorem exists_behind (close : Byte) {rest : List Byte} {P : Prop} {T : List Byte → Prop}
    (hclose : 32 < close ∧ isNumberChar close = false) (more : List Byte)
    (hrest : rest = [] ∧ P ∨ ∃ t', rest = 44 :: t' ∧ T t') :
    ∃ c next, rest ++ close :: more = c :: next ∧ 32 < c ∧ isNumberChar c = false := by
  rcases hrest with ⟨rfl, _⟩ | ⟨t', rfl, _⟩
  · exact ⟨close, more, rfl, hclose⟩
  · exact ⟨44, t' ++ close :: more, rfl, by decide, rfl⟩

theorem parseElements_reads {parser : Parser dbl} (hparser : Reads content levels parser)
    (hgrants : ∀ n, grants n = true) {vs : List (Json dbl.Double)} {t more : List Byte}
    (h : Json.Elements White dbl.Lexeme vs t) (rounds : Nat) (list : List (Item dbl.Double))
    (st : ParseState) (hdrop : content.drop (st.offset + 1) = t ++ 93 :: more)
    (hrounds : t.length < rounds) :
    ∃ r st', parseElements dbl grants content parser rounds list st = .ok (r, st') ∧
      Outcome (Json.depthElements vs ≤ levels) (list ++ putElements dbl vs)
        (st.offset + 1 + t.length) r st' := by
  induction vs generalizing t rounds list st with
  | nil => nomatch h
  | cons v vs ih =>
      obtain ⟨rounds, rfl⟩ := Nat.exists_eq_add_one_of_ne_zero (Nat.ne_zero_of_lt hrounds)
      obtain ⟨a, u, w, rest, ha, hv, hw, rfl, hrest⟩ := elements_cons h
      simp only [List.append_assoc] at hdrop
      obtain ⟨c, next, hnext, hc, hchar⟩ := exists_behind 93 (by decide) more hrest
      obtain ⟨b, u', rfl, hb, _⟩ := text_head hv
      unfold parseElements
      rw [Heap.allocate_granted (hgrants _)]
      simp only [Bool.not_true, Bool.false_eq_true, if_false]
      rw [skipWhitespace_white ⟨st.offset + 1, _⟩ ha hb hdrop]
      obtain ⟨r, st₁, hread, hout⟩ := hparser v _ _ (Item.new dbl) ⟨st.offset + 1 + a.length, _⟩ hv
        (drop_append hdrop) (.white hw ⟨c, next, hnext, hchar⟩)
      rw [hread]
      simp only [bind, Except.bind]
      rcases hout with ⟨hfits, rfl, hoffset⟩ | ⟨hdeep, rfl⟩
      swap
      · exact ⟨none, _, rfl, .inr ⟨fun h => hdeep (le_trans (le_max_left _ _) h), rfl⟩⟩
      simp only
      have hdrop₁ : content.drop st₁.offset = w ++ c :: next := by
        rw [hoffset, ← hnext]
        exact drop_append (drop_append hdrop)
      rw [skipWhitespace_white _ hw hc hdrop₁]
      rcases hrest with ⟨rfl, rfl⟩ | ⟨t', rfl, hs⟩
      · obtain ⟨rfl, rfl⟩ := List.cons_eq_cons.mp hnext
        rw [peek_of_drop ⟨st₁.offset + w.length, _⟩ (drop_append hdrop₁), if_neg (by decide)]
        refine ⟨some _, _, rfl, .inl ⟨max_le hfits (Nat.zero_le _), rfl, ?_⟩⟩
        simp only [hoffset, List.length_append, List.length_nil]
        omega
      · obtain ⟨rfl, rfl⟩ := List.cons_eq_cons.mp hnext
        rw [peek_of_drop ⟨st₁.offset + w.length, _⟩ (drop_append hdrop₁), if_pos rfl]
        obtain ⟨r, st₂, hread₂, hout₂⟩ := ih hs rounds (list ++ [put dbl (Item.new dbl) v])
          ⟨st₁.offset + w.length, st₁.heap⟩ (drop_succ (drop_append hdrop₁))
          (by simp only [List.length_append, List.length_cons] at hrounds; omega)
        refine ⟨r, st₂, hread₂, ?_⟩
        rcases hout₂ with ⟨hfits₂, rfl, hoffset₂⟩ | ⟨hdeep, rfl⟩
        · refine .inl ⟨max_le hfits hfits₂, by rw [List.append_assoc]; rfl, ?_⟩
          simp only [hoffset₂, hoffset, List.length_append, List.length_cons]
          omega
        · exact .inr ⟨fun h => hdeep (le_trans (le_max_right _ _) h), rfl⟩

theorem members_head {ms : List (List Byte × Json dbl.Double)} {t : List Byte}
    (h : Json.Members White dbl.Lexeme ms t) :
    ∃ a u, White a ∧ t = a ++ 34 :: u ∧ Json.Members White dbl.Lexeme ms (34 :: u) := by
  cases h with
  | one ha hk hb hc hv hd =>
      rename_i k v a s b c t d
      exact ⟨a, s ++ 34 :: b ++ 58 :: c ++ t ++ d, ha, by simp, .one .nil hk hb hc hv hd⟩
  | cons ha hk hb hc hv hd hs =>
      rename_i k v ms a s b c t d u
      exact ⟨a, s ++ 34 :: b ++ 58 :: c ++ t ++ d ++ 44 :: u, ha, by simp,
        .cons .nil hk hb hc hv hd hs⟩

theorem members_cons {k : List Byte} {v : Json dbl.Double}
    {ms : List (List Byte × Json dbl.Double)} {t : List Byte}
    (h : Json.Members White dbl.Lexeme ((k, v) :: ms) t) :
    ∃ a s b c u d rest, White a ∧ Chars k s ∧ White b ∧ White c ∧ v.Text White dbl.Lexeme u ∧
      White d ∧ t = a ++ (34 :: s ++ 34 :: (b ++ 58 :: (c ++ (u ++ (d ++ rest))))) ∧
      (rest = [] ∧ ms = [] ∨ ∃ t', rest = 44 :: t' ∧ Json.Members White dbl.Lexeme ms t') := by
  cases h with
  | one ha hk hb hc hv hd =>
      exact ⟨_, _, _, _, _, _, [], ha, hk, hb, hc, hv, hd, by simp, .inl ⟨rfl, rfl⟩⟩
  | cons ha hk hb hc hv hd hs =>
      exact ⟨_, _, _, _, _, _, _, ha, hk, hb, hc, hv, hd, by simp, .inr ⟨_, rfl, hs⟩⟩

theorem parseMembers_reads {parser : Parser dbl} (hparser : Reads content levels parser)
    (hgrants : ∀ n, grants n = true) {ms : List (List Byte × Json dbl.Double)} {t more : List Byte}
    (h : Json.Members White dbl.Lexeme ms t) (rounds : Nat) (list : List (Item dbl.Double))
    (st : ParseState) (hdrop : content.drop (st.offset + 1) = t ++ 125 :: more)
    (hrounds : t.length < rounds) :
    ∃ r st', parseMembers dbl grants content parser rounds list st = .ok (r, st') ∧
      Outcome (Json.depthMembers ms ≤ levels) (list ++ putMembers dbl ms)
        (st.offset + 1 + t.length) r st' := by
  induction ms generalizing t rounds list st with
  | nil => nomatch h
  | cons m ms ih =>
      obtain ⟨k, v⟩ := m
      obtain ⟨rounds, rfl⟩ := Nat.exists_eq_add_one_of_ne_zero (Nat.ne_zero_of_lt hrounds)
      obtain ⟨a, s, b, c, u, d, rest, ha, hk, hb, hc, hv, hd, rfl, hrest⟩ := members_cons h
      simp only [List.append_assoc, List.cons_append] at hdrop
      obtain ⟨e, next, hnext, he, hchar⟩ := exists_behind 125 (by decide) more hrest
      obtain ⟨f, u', rfl, hf, _⟩ := text_head hv
      unfold parseMembers
      rw [Heap.allocate_granted (hgrants _)]
      simp only [Bool.not_true, Bool.false_eq_true, if_false]
      have hdrop₁ := drop_append hdrop
      rw [skipWhitespace_white ⟨st.offset + 1, _⟩ ha (by decide) hdrop,
        parseString_chars ⟨st.offset + 1 + a.length, _⟩ hk hdrop₁ (hgrants _)]
      simp only [bind, Except.bind]
      have hdrop₂ : content.drop (st.offset + 1 + a.length + s.length + 2)
          = b ++ 58 :: (c ++ (f :: u' ++ (d ++ (rest ++ 125 :: more)))) := by
        have h := drop_succ (drop_append (drop_succ hdrop₁))
        rwa [Nat.add_right_comm _ 1 s.length] at h
      have hdrop₃ := drop_append hdrop₂
      rw [skipWhitespace_white ⟨_, _⟩ hb (by decide) hdrop₂, peek_of_drop ⟨_, _⟩ hdrop₃,
        if_neg (by decide), put_string_swap,
        skipWhitespace_white ⟨_, _⟩ hc hf (drop_succ hdrop₃)]
      obtain ⟨r, st₁, hread, hout⟩ := hparser v _ _
        { Item.new dbl with type := .string, string := some (CStr.at k) } ⟨_, _⟩ hv
        (drop_append (drop_succ hdrop₃)) (.white hd ⟨e, next, hnext, hchar⟩)
      rw [hread]
      simp only
      rcases hout with ⟨hfits, rfl, hoffset⟩ | ⟨hdeep, rfl⟩
      swap
      · exact ⟨none, _, rfl, .inr ⟨fun h => hdeep (le_trans (le_max_left _ _) h), rfl⟩⟩
      rw [put_type dbl { Item.new dbl with string := some (CStr.at k) }]
      simp only at hoffset ⊢
      have hdrop₄ : content.drop st₁.offset = d ++ e :: next := by
        rw [hoffset, ← hnext]
        exact drop_append (drop_append (drop_succ hdrop₃))
      rw [skipWhitespace_white _ hd he hdrop₄]
      have hdrop₅ := drop_append hdrop₄
      rcases hrest with ⟨rfl, rfl⟩ | ⟨t', rfl, hs⟩
      · obtain ⟨rfl, rfl⟩ := List.cons_eq_cons.mp hnext
        rw [peek_of_drop ⟨_, _⟩ hdrop₅, if_neg (by decide)]
        refine ⟨some _, _, rfl, .inl ⟨max_le hfits (Nat.zero_le _), rfl, ?_⟩⟩
        simp only [hoffset, List.length_append, List.length_cons, List.length_nil]
        omega
      · obtain ⟨rfl, rfl⟩ := List.cons_eq_cons.mp hnext
        rw [peek_of_drop ⟨_, _⟩ hdrop₅, if_pos rfl]
        simp only [List.length_append, List.length_cons] at hrounds
        obtain ⟨r, st₂, hread₂, hout₂⟩ := ih hs rounds
          (list ++ [put dbl { Item.new dbl with string := some (CStr.at k) } v])
          ⟨st₁.offset + d.length, st₁.heap⟩ (drop_succ hdrop₅) (by omega)
        refine ⟨r, st₂, hread₂, ?_⟩
        rcases hout₂ with ⟨hfits₂, rfl, hoffset₂⟩ | ⟨hdeep, rfl⟩
        · refine .inl ⟨max_le hfits hfits₂, by rw [List.append_assoc]; rfl, ?_⟩
          simp only [hoffset₂, hoffset, List.length_append, List.length_cons]
          omega
        · exact .inr ⟨fun h => hdeep (le_trans (le_max_right _ _) h), rfl⟩

/-- A loop that reads the list of items up to the bracket. -/
def LoopReads (content t : List Byte) (close : Byte)
    (loop : ParseState → Except Stop (Option (List (Item dbl.Double)) × ParseState)) (Fits : Prop)
    (items : List (Item dbl.Double)) : Prop :=
  ∀ st more, content.drop (st.offset + 1) = t ++ close :: more →
    ∃ r st', loop st = .ok (r, st') ∧ Outcome Fits items (st.offset + 1 + t.length) r st'

theorem parseBracketed_reads (type : Kind) (item : Item dbl.Double) {b close : Byte}
    {a u more : List Byte}
    {loop : ParseState → Except Stop (Option (List (Item dbl.Double)) × ParseState)} {Fits : Prop}
    {items : List (Item dbl.Double)} {st : ParseState}
    (hloop : LoopReads content (b :: u) close loop Fits items) (ha : White a)
    (hb : 32 < b ∧ b ≠ close)
    (hdrop : content.drop (st.offset + 1) = a ++ (b :: u ++ close :: more)) :
    ∃ r st', parseBracketed dbl content close type loop item st = .ok (r, st') ∧
      Outcome Fits { item with type, child := items } (st.offset + (a ++ b :: u).length + 2)
        r st' := by
  have hdrop₁ := drop_append hdrop
  unfold parseBracketed
  simp only [bind, Except.bind]
  rw [skipWhitespace_white ⟨_, _⟩ ha hb.1 hdrop, peek_of_drop ⟨_, _⟩ hdrop₁,
    if_neg fun h => hb.2 (Option.some.inj h), if_neg nofun]
  have hback : st.offset + 1 + a.length - 1 + 1 = st.offset + 1 + a.length := by omega
  obtain ⟨r, st₁, hread, hout⟩ := hloop ⟨st.offset + 1 + a.length - 1, st.heap⟩ more
    (by rw [← hdrop₁]; simp only [hback])
  rw [hread]
  rcases hout with ⟨hfits, rfl, hoffset⟩ | ⟨hdeep, rfl⟩
  swap
  · exact ⟨none, _, rfl, .inr ⟨hdeep, rfl⟩⟩
  simp only [hback] at hoffset ⊢
  have hend : peek content st₁ = some close := by
    refine peek_of_drop _ (?_ : content.drop st₁.offset = close :: more)
    rw [hoffset]
    exact drop_append hdrop₁
  rw [if_neg (not_not_intro hend)]
  refine ⟨some _, _, rfl, .inl ⟨hfits, rfl, ?_⟩⟩
  simp only [hoffset, List.length_append]
  omega

theorem parseBracketed_empty {close : Byte} {type : Kind} {w more : List Byte}
    {loop : ParseState → Except Stop (Option (List (Item dbl.Double)) × ParseState)}
    {item : Item dbl.Double} {st : ParseState} (hw : White w) (hclose : 32 < close)
    (hdrop : content.drop (st.offset + 1) = w ++ close :: more) :
    parseBracketed dbl content close type loop item st
      = .ok (some { item with type, child := [] }, ⟨st.offset + w.length + 2, st.heap⟩) := by
  unfold parseBracketed
  simp only [bind, Except.bind]
  rw [skipWhitespace_white ⟨_, _⟩ hw hclose hdrop,
    peek_of_drop ⟨_, _⟩ (drop_append hdrop), if_pos rfl]
  simp only [pure, Except.pure, Except.ok.injEq, Prod.mk.injEq, ParseState.mk.injEq, true_and,
    and_true]
  omega

/-! ## Values -/

theorem text_array {v : Json dbl.Double} {t : List Byte} (h : v.Text White dbl.Lexeme (91 :: t)) :
    ∃ vs u, v = .array vs ∧ t = u ++ [93] ∧
      (vs = [] ∧ White u ∨ Json.Elements White dbl.Lexeme vs u) := by
  generalize ht : (91 : Byte) :: t = t' at h
  cases h with
  | number hn =>
      obtain ⟨b, rest, rfl, hstart⟩ := hn.head
      cases ht
      cases hstart
  | emptyArray hw => exact ⟨[], _, rfl, (List.cons_eq_cons.mp ht).2, .inl ⟨rfl, hw⟩⟩
  | array hs => exact ⟨_, _, rfl, (List.cons_eq_cons.mp ht).2, .inr hs⟩
  | _ => cases ht

theorem text_object {v : Json dbl.Double} {t : List Byte} (h : v.Text White dbl.Lexeme (123 :: t)) :
    ∃ ms u, v = .object ms ∧ t = u ++ [125] ∧
      (ms = [] ∧ White u ∨ Json.Members White dbl.Lexeme ms u) := by
  generalize ht : (123 : Byte) :: t = t' at h
  cases h with
  | number hn =>
      obtain ⟨b, rest, rfl, hstart⟩ := hn.head
      cases ht
      cases hstart
  | emptyObject hw => exact ⟨[], _, rfl, (List.cons_eq_cons.mp ht).2, .inl ⟨rfl, hw⟩⟩
  | object hs => exact ⟨_, _, rfl, (List.cons_eq_cons.mp ht).2, .inr hs⟩
  | _ => cases ht

/-- A parser of arrays or of objects: of the texts that start with this byte. -/
def ReadsFrom (content : List Byte) (levels : Nat) (b : Byte) (parser : Parser dbl) : Prop :=
  ∀ v t more item st, v.Text White dbl.Lexeme (b :: t) → content.drop st.offset = b :: (t ++ more) →
    ∃ r st', parser item st = .ok (r, st') ∧
      Outcome (v.depth ≤ levels) (put dbl item v) (st.offset + (b :: t).length) r st'

theorem parseArray_reads {parser : Parser dbl} (hparser : Reads content levels parser)
    (hgrants : ∀ n, grants n = true) :
    ReadsFrom content (levels + 1) 91 (parseArray dbl grants content parser) := by
  intro v t more item st h hdrop
  unfold parseArray
  rw [byteAt_of_drop hdrop]
  simp only [bind, Except.bind]
  rw [if_neg (not_not_intro rfl)]
  have hlen := congrArg List.length hdrop
  have hsucc := drop_succ hdrop
  obtain ⟨vs, u, rfl, rfl, hvs⟩ := text_array h
  simp only [List.append_assoc, List.singleton_append] at hsucc
  simp only [List.length_drop, List.length_append, List.length_cons, List.length_nil] at hlen ⊢
  rcases hvs with ⟨rfl, hw⟩ | hs
  · exact ⟨_, _, parseBracketed_empty hw (by decide) hsucc,
      .inl ⟨Nat.succ_le_succ (Nat.zero_le _), rfl, by simp only; omega⟩⟩
  · obtain ⟨a, b, u, ha, rfl, hb, hne, hvs⟩ := elements_head hs
    rw [List.append_assoc] at hsucc
    have hrounds : (b :: u).length < content.length + 1 := by
      rw [List.length_append] at hlen
      omega
    have hloop : LoopReads content (b :: u) 93
        (parseElements dbl grants content parser (content.length + 1) [])
        (Json.depthElements vs ≤ levels) (putElements dbl vs) :=
      fun st more hdrop => parseElements_reads hparser hgrants hvs _ [] st hdrop hrounds
    obtain ⟨r, st', hread, hout⟩ := parseBracketed_reads .array item hloop ha
      ⟨hb, hne⟩ hsucc
    refine ⟨r, st', hread, ?_⟩
    rcases hout with ⟨hfits, rfl, hoffset⟩ | ⟨hdeep, rfl⟩
    · exact .inl ⟨Nat.succ_le_succ hfits, rfl, by omega⟩
    · exact .inr ⟨fun h => hdeep (Nat.le_of_succ_le_succ h), rfl⟩

theorem parseObject_reads {parser : Parser dbl} (hparser : Reads content levels parser)
    (hgrants : ∀ n, grants n = true) :
    ReadsFrom content (levels + 1) 123 (parseObject dbl grants content parser) := by
  intro v t more item st h hdrop
  unfold parseObject
  rw [peek_of_drop _ hdrop, if_neg (not_not_intro rfl)]
  have hlen := congrArg List.length hdrop
  have hsucc := drop_succ hdrop
  obtain ⟨ms, u, rfl, rfl, hms⟩ := text_object h
  simp only [List.append_assoc, List.singleton_append] at hsucc
  simp only [List.length_drop, List.length_append, List.length_cons, List.length_nil] at hlen ⊢
  rcases hms with ⟨rfl, hw⟩ | hs
  · exact ⟨_, _, parseBracketed_empty hw (by decide) hsucc,
      .inl ⟨Nat.succ_le_succ (Nat.zero_le _), rfl, by simp only; omega⟩⟩
  · obtain ⟨a, u, ha, rfl, hms⟩ := members_head hs
    rw [List.append_assoc] at hsucc
    have hrounds : (34 :: u).length < content.length + 1 := by
      rw [List.length_append] at hlen
      omega
    have hloop : LoopReads content (34 :: u) 125
        (parseMembers dbl grants content parser (content.length + 1) [])
        (Json.depthMembers ms ≤ levels) (putMembers dbl ms) :=
      fun st more hdrop => parseMembers_reads hparser hgrants hms _ [] st hdrop hrounds
    obtain ⟨r, st', hread, hout⟩ := parseBracketed_reads .object item hloop ha
      ⟨by decide, by decide⟩ hsucc
    refine ⟨r, st', hread, ?_⟩
    rcases hout with ⟨hfits, rfl, hoffset⟩ | ⟨hdeep, rfl⟩
    · exact .inl ⟨Nat.succ_le_succ hfits, rfl, by omega⟩
    · exact .inr ⟨fun h => hdeep (Nat.le_of_succ_le_succ h), rfl⟩

/-- Not one of the three names, so that the first byte decides. -/
theorem parseValueWith_of_drop {parseArray parseObject : Parser dbl} {item : Item dbl.Double}
    {st : ParseState} {b : Byte} {rest : List Byte} (hdrop : content.drop st.offset = b :: rest)
    (hb : b ≠ 110 ∧ b ≠ 102 ∧ b ≠ 116) :
    parseValueWith dbl grants content parseArray parseObject item st
      = if b = 34 then parseString grants content item st
        else if startsNumber b then parseNumber dbl content item st
        else if b = 91 then parseArray item st
        else if b = 123 then parseObject item st
        else .ok (none, st) := by
  unfold parseValueWith
  simp only [startsWith_other hdrop hb.1, startsWith_other hdrop hb.2.1,
    startsWith_other hdrop hb.2.2, peek_of_drop _ hdrop, Bool.false_eq_true, if_false]

theorem parseValueWith_reads {parseArray parseObject : Parser dbl} (hgrants : ∀ n, grants n = true)
    (harray : ReadsFrom content levels 91 parseArray)
    (hobject : ReadsFrom content levels 123 parseObject) :
    Reads content levels (parseValueWith dbl grants content parseArray parseObject) := by
  intro v t more item st h hdrop hmore
  have hv := h
  cases h with
  | null =>
      unfold parseValueWith
      rw [startsWith_append hdrop]
      exact ⟨_, _, rfl, .inl ⟨Nat.zero_le _, rfl, rfl⟩⟩
  | false =>
      unfold parseValueWith
      rw [startsWith_other hdrop (by decide), startsWith_append hdrop]
      exact ⟨_, _, rfl, .inl ⟨Nat.zero_le _, rfl, rfl⟩⟩
  | true =>
      unfold parseValueWith
      rw [startsWith_other hdrop (by decide), startsWith_other hdrop (by decide),
        startsWith_append hdrop]
      exact ⟨_, _, rfl, .inl ⟨Nat.zero_le _, rfl, rfl⟩⟩
  | number hn =>
      obtain ⟨b, rest, rfl, hstart⟩ := hn.head
      have hother : b ≠ 34 ∧ b ≠ 110 ∧ b ≠ 102 ∧ b ≠ 116 := by
        refine ⟨?_, ?_, ?_, ?_⟩ <;> rintro rfl <;> cases hstart
      rw [parseValueWith_of_drop hdrop hother.2, if_neg hother.1, if_pos hstart,
        parseNumber_lexeme hn hdrop hmore]
      exact ⟨_, _, rfl, .inl ⟨Nat.zero_le _, rfl, rfl⟩⟩
  | string hs =>
      rename_i s u
      rw [List.append_assoc] at hdrop
      rw [parseValueWith_of_drop hdrop (by decide), if_pos rfl,
        parseString_chars _ hs hdrop (hgrants _)]
      refine ⟨_, _, rfl, .inl ⟨Nat.zero_le _, rfl, ?_⟩⟩
      simp only [List.length_append, List.length_cons, List.length_nil]
      omega
  | emptyArray | array =>
      rw [parseValueWith_of_drop hdrop (by decide)]
      exact harray _ _ more item st hv hdrop
  | emptyObject | object =>
      rw [parseValueWith_of_drop hdrop (by decide)]
      exact hobject _ _ more item st hv hdrop

theorem parseValue_reads (hgrants : ∀ n, grants n = true) (levels : Nat) :
    Reads content levels (parseValue dbl grants content levels) := by
  induction levels with
  | zero =>
      refine parseValueWith_reads hgrants ?_ ?_
      · intro v t more item st h _
        obtain ⟨vs, u, rfl, _⟩ := text_array h
        exact ⟨none, st, rfl, .inr ⟨Nat.not_succ_le_zero _, rfl⟩⟩
      · intro v t more item st h _
        obtain ⟨ms, u, rfl, _⟩ := text_object h
        exact ⟨none, st, rfl, .inr ⟨Nat.not_succ_le_zero _, rfl⟩⟩
  | succ levels ih =>
      exact parseValueWith_reads hgrants (parseArray_reads ih hgrants)
        (parseObject_reads ih hgrants)

end Text

/-! ## cJSON_ParseWithOpts -/

def utf8Bom : List Byte := [0xEF, 0xBB, 0xBF]

/-- A string that is a text of JSON, with a gap before and behind and perhaps a
byte order mark in front. -/
structure Document (Gap : List Byte → Prop) (dbl : Doubles) (v : Json dbl.Double)
    (bytes : List Byte) where
  mark : List Byte
  before : List Byte
  text : List Byte
  after : List Byte
  bytes_eq : bytes = mark ++ (before ++ (text ++ after))
  mark_eq : mark = [] ∨ mark = utf8Bom
  before_gap : Gap before
  isText : v.Text Gap dbl.Lexeme text
  after_gap : Gap after

theorem skipUtf8Bom_document {dbl : Doubles} {v : Json dbl.Double} {bytes : List Byte} {heap : Heap}
    (doc : Document White dbl v bytes) :
    skipUtf8Bom (bytes ++ [0]) ⟨0, heap⟩ = ⟨doc.mark.length, heap⟩ := by
  obtain ⟨b, t, htext, hb, _, hne⟩ := text_head doc.isText
  have hlen : bytes.length = doc.mark.length + doc.before.length + (t.length + 1)
      + doc.after.length := by
    rw [congrArg List.length doc.bytes_eq, htext]
    simp only [List.length_append, List.length_cons]
    omega
  unfold skipUtf8Bom
  rcases doc.mark_eq with hmark | hmark
  · have hfirst : ∃ c rest, bytes = c :: rest ∧ c ≠ 0xEF := by
      rw [doc.bytes_eq, hmark, htext]
      rcases hbefore : doc.before with _ | ⟨c, w⟩
      · exact ⟨b, _, rfl, hne⟩
      · have hc := doc.before_gap c (by rw [hbefore]; exact List.mem_cons_self)
        exact ⟨c, _, rfl, by rintro rfl; cases hc⟩
    obtain ⟨c, rest, hbytes, hc⟩ := hfirst
    rw [if_neg, hmark]
    · rfl
    · rw [hbytes, Bool.and_eq_true, decide_eq_true_eq, decide_eq_true_eq]
      exact fun h => hc (List.cons_eq_cons.mp h.2).1
  · rw [if_pos, hmark]
    · rfl
    · rw [hmark] at hlen
      rw [Bool.and_eq_true, decide_eq_true_eq, decide_eq_true_eq, List.length_append]
      refine ⟨by simp [utf8Bom] at hlen ⊢; omega, ?_⟩
      rw [doc.bytes_eq, hmark]
      rfl

theorem parseWithOpts_reads (dbl : Doubles) {grants : Nat → Bool}
    (hgrants : ∀ n, grants n = true) (value : CStr) (v : Json dbl.Double)
    (doc : Document White dbl v value.bytes) (requireNullTerminated : Bool) (heap : Heap) :
    ∃ result, parseWithOpts dbl grants value requireNullTerminated heap = .ok result ∧
      result.item = (if v.depth ≤ CJSON_NESTING_LIMIT then some (itemOf dbl v) else none) ∧
      (v.depth ≤ CJSON_NESTING_LIMIT →
        result.returnParseEnd = if requireNullTerminated then value.bytes.length
          else value.bytes.length - doc.after.length) := by
  obtain ⟨b, t, htext, hb, hne⟩ := text_head doc.isText
  have hbytes : value.bytes ++ [0]
      = doc.mark ++ (doc.before ++ (doc.text ++ (doc.after ++ [0]))) :=
    (congrArg (· ++ [0]) doc.bytes_eq).trans (by simp only [List.append_assoc])
  have hlen := congrArg List.length doc.bytes_eq
  simp only [List.length_append] at hlen
  have hmore : Follow (doc.after ++ [0]) := .white doc.after_gap ⟨0, [], rfl, rfl⟩
  have hdrop : (value.bytes ++ [0]).drop doc.mark.length
      = doc.before ++ (doc.text ++ (doc.after ++ [0])) := by rw [hbytes, List.drop_left]
  have hskip := skipWhitespace_white ⟨doc.mark.length, ⟨heap.calls + 1, heap.live + 1⟩⟩
    doc.before_gap hb (by rw [hdrop, htext]; rfl)
  unfold parseWithOpts
  rw [Heap.allocate_granted (hgrants _)]
  simp only [Bool.not_true, Bool.false_eq_true, if_false]
  rw [skipUtf8Bom_document doc, hskip]
  obtain ⟨r, st₁, hread, hout⟩ := parseValue_reads hgrants CJSON_NESTING_LIMIT v doc.text _
    (Item.new dbl) ⟨_, ⟨heap.calls + 1, heap.live + 1⟩⟩ doc.isText (drop_append hdrop) hmore
  rw [hread]
  simp only [bind, Except.bind]
  rcases hout with ⟨hfits, rfl, hoffset⟩ | ⟨hdeep, rfl⟩
  swap
  · exact ⟨_, rfl, (if_neg hdeep).symm, fun h => absurd h hdeep⟩
  have hdrop₁ : (value.bytes ++ [0]).drop st₁.offset = doc.after ++ [0] := by
    rw [hoffset]
    exact drop_append (drop_append hdrop)
  simp only at hoffset ⊢
  cases requireNullTerminated with
  | false =>
      refine ⟨_, rfl, (if_pos hfits).symm, fun _ => ?_⟩
      simp only [hoffset, hlen, Bool.false_eq_true, if_false]
      omega
  | true =>
      rw [if_pos rfl, skipWhitespace_end _ doc.after_gap hdrop₁,
        peek_of_drop ⟨_, _⟩ (drop_append hdrop₁), if_neg (not_not_intro rfl)]
      refine ⟨_, rfl, (if_pos hfits).symm, fun _ => ?_⟩
      simp only [hoffset, hlen, if_true]
      omega

/-- A text of JSON, with numbers that the parser has room for and no halves of a
surrogate pair, is parsed, with all memory granted, if and only if arrays and
objects are not nested too deep in it. The item is the one of its value, and
`return_parse_end` the end of the text or of the string, as asked. -/
theorem parseWithOpts_document (dbl : Doubles) {grants : Nat → Bool}
    (hgrants : ∀ n, grants n = true) (value : CStr) (v : Json dbl.Double)
    (doc : Document White dbl v value.bytes) (requireNullTerminated : Bool) (heap : Heap) :
    (v.depth ≤ CJSON_NESTING_LIMIT ↔
      ∃ heap', parseWithOpts dbl grants value requireNullTerminated heap
        = .ok ⟨some (itemOf dbl v),
          if requireNullTerminated then value.bytes.length
          else value.bytes.length - doc.after.length, heap'⟩) ∧
    (CJSON_NESTING_LIMIT < v.depth ↔
      ∃ position heap', parseWithOpts dbl grants value requireNullTerminated heap
        = .ok ⟨none, position, heap'⟩) := by
  obtain ⟨result, hrun, hitem, hend⟩ :=
    parseWithOpts_reads dbl hgrants value v doc requireNullTerminated heap
  rw [hrun]
  by_cases hfits : v.depth ≤ CJSON_NESTING_LIMIT
  · rw [if_pos hfits] at hitem
    obtain ⟨item, position, heap'⟩ := result
    obtain rfl : item = some (itemOf dbl v) := hitem
    obtain rfl := hend hfits
    refine ⟨iff_of_true hfits ⟨heap', rfl⟩, iff_of_false (Nat.not_lt.mpr hfits) ?_⟩
    rintro ⟨_, _, heq⟩
    cases heq
  · rw [if_neg hfits] at hitem
    obtain ⟨item, position, heap'⟩ := result
    obtain rfl : item = none := hitem
    refine ⟨iff_of_false hfits ?_, iff_of_true (Nat.lt_of_not_le hfits) ⟨_, _, rfl⟩⟩
    rintro ⟨_, heq⟩
    cases heq

theorem digits_lexeme (d : Fin 10) : digits.Lexeme d [BitVec.ofNat 8 (48 + d.val)] := by
  refine ⟨⟨_, [], rfl, ?_⟩, ?_, by rw [List.length_singleton]; decide, ?_⟩ <;> revert d <;> decide

/-- `[1] `, behind a byte order mark. -/
def oneInBrackets :
    Document White digits (.array [.number digits.one]) (utf8Bom ++ [91, 49, 93, 32]) where
  mark := utf8Bom
  before := []
  text := [91, 49, 93]
  after := [32]
  bytes_eq := rfl
  mark_eq := .inr rfl
  before_gap := .nil
  isText := .array (t := [49]) (.one (a := []) (t := [49]) (b := []) .nil
    (.number (digits_lexeme digits.one)) .nil)
  after_gap := by decide

theorem parseWithOpts_document_oneInBrackets :
    (Json.depth (.array [.number digits.one]) ≤ CJSON_NESTING_LIMIT ↔
      ∃ heap', parseWithOpts digits (fun _ => true) ⟨utf8Bom ++ [91, 49, 93, 32], by decide⟩ false
        ⟨0, 0⟩ = .ok ⟨some (itemOf digits (.array [.number digits.one])), 6, heap'⟩) ∧
    (CJSON_NESTING_LIMIT < Json.depth (.array [.number digits.one]) ↔
      ∃ position heap', parseWithOpts digits (fun _ => true)
        ⟨utf8Bom ++ [91, 49, 93, 32], by decide⟩ false ⟨0, 0⟩ = .ok ⟨none, position, heap'⟩) :=
  parseWithOpts_document digits (fun _ => rfl) ⟨utf8Bom ++ [91, 49, 93, 32], by decide⟩
    (.array [.number digits.one]) oneInBrackets false ⟨0, 0⟩

end JsonRead

end BeEasy
