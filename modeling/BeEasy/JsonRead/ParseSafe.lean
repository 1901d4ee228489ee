import BeEasy.JsonRead.Parse

/-!
# JsonRead — Whatever is parsed

The parser on a buffer that may hold anything. It reads nothing outside of it,
and it ends. When it fails it has given back all that it allocated; when it
does not, the item it made is one of a value, nested no deeper than the limit,
and holds every block that is still out.
-/

namespace BeEasy

open CVerif

namespace JsonRead

theorem blocksOf_append {D : Type} (as bs : List (Item D)) :
    blocksOf (as ++ bs) = blocksOf as + blocksOf bs := by
  induction as with
  | nil => exact (Nat.zero_add _).symm
  | cons a as ih => rw [List.cons_append, blocksOf, blocksOf, ih, Nat.add_assoc]

theorem blocksOf_singleton {D : Type} (a : Item D) : blocksOf [a] = a.blocks := rfl

theorem Item.Fresh.blocks {D : Type} {item : Item D} (h : item.Fresh) (type : Kind)
    (child : List (Item D)) :
    { item with type, child }.blocks = item.blocks + blocksOf child := by
  rw [Item.blocks_eq, Item.blocks_eq, h.isReference, h.child]
  simp [blocksOf]
  omega

/-- What libc promises of `strtod`: it takes no more characters than there are. -/
def Doubles.StrtodInside (dbl : Doubles) : Prop := ∀ t, (dbl.strtod t).2 ≤ t.length

theorem digits_strtodInside : digits.StrtodInside := by
  intro t
  cases t with
  | nil => exact Nat.le_refl 0
  | cons b t =>
      simp only [digits]
      split <;> simp

section Safe

variable {dbl : Doubles} {grants : Nat → Bool} {content : List Byte} {levels : Nat}

/-- A parser that stays in the buffer, accounts for its memory and makes no
more of an item than one of a value. -/
def Safe (content : List Byte) (levels : Nat) (parser : Parser dbl) : Prop :=
  ∀ item st, item.Fresh → st.offset < content.length →
    ∃ r st', parser item st = .ok (r, st') ∧ Parsed content (·.depth ≤ levels) item st r st'

theorem skipWhitespace_eq (st : ParseState) (h : st.offset < content.length) :
    ∃ offset, skipWhitespace content st = ⟨offset, st.heap⟩ ∧ st.offset ≤ offset ∧
      offset < content.length := by
  have hle := (List.takeWhile_prefix (l := content.drop st.offset) (· ≤ (32 : Byte))).length_le
  rw [List.length_drop] at hle
  refine ⟨_, rfl, ?_, ?_⟩ <;> split <;> omega

theorem peek_lt {st : ParseState} {b : Byte} (hnul : content.getLast? = some 0)
    (h : peek content st = some b) (hb : b ≠ 0) : st.offset + 1 < content.length := by
  obtain ⟨hlt, hget⟩ := List.getElem?_eq_some_iff.mp h
  have hdrop : content.drop st.offset = [b] ++ content.drop (st.offset + 1) := by
    rw [List.drop_eq_getElem_cons hlt, hget]
    rfl
  exact lt_length_of_drop hnul hdrop (by simpa using hb.symm) hlt

theorem startsWith_lt {st : ParseState} {word : List Byte} (hnul : content.getLast? = some 0)
    (h : startsWith content st word = true) (hword : (0 : Byte) ∉ word)
    (hoffset : st.offset < content.length) : st.offset + word.length < content.length := by
  simp only [startsWith, Bool.and_eq_true, decide_eq_true_eq] at h
  have hdrop := List.take_append_drop word.length (content.drop st.offset)
  rw [h.2] at hdrop
  exact lt_length_of_drop hnul hdrop.symm hword hoffset

theorem parseNumber_safe (hstrtod : dbl.StrtodInside) (hnul : content.getLast? = some 0) :
    Safe content levels (parseNumber dbl content) := by
  intro item st hitem hoffset
  unfold parseNumber
  generalize hrun : ((content.drop st.offset).take 63).takeWhile isNumberChar = run
  have hinside := hstrtod run
  obtain ⟨number, afterEnd, hread⟩ : ∃ number afterEnd, dbl.strtod run = (number, afterEnd) :=
    ⟨_, _, rfl⟩
  rw [hread] at hinside
  simp only [hread] at hinside ⊢
  split
  · exact ⟨none, st, rfl, Nat.le_of_lt hoffset, fun _ => rfl, nofun⟩
  · next hpos =>
    have hchars : (0 : Byte) ∉ run := by
      intro hmem
      rw [← hrun] at hmem
      exact absurd (List.all_eq_true.mp List.all_takeWhile 0 hmem) (by decide)
    have hprefix : run <+: content.drop st.offset := by
      rw [← hrun]
      exact (List.takeWhile_prefix _).trans (List.take_prefix _ _)
    obtain ⟨rest, hrest⟩ := hprefix
    have hlt := lt_length_of_drop hnul hrest.symm hchars hoffset
    refine ⟨some _, _, rfl, by simp only; omega, nofun, ?_⟩
    intro item' heq
    cases heq
    refine ⟨by simp only; omega, by simp only; omega, ?_, .number number, rfl, Nat.zero_le _⟩
    rw [Item.blocks_eq, Item.blocks_eq]

/-! ## Arrays -/

/-- What the loops leave behind, where `live` blocks were in use before the
list. -/
structure ListParsed (content : List Byte) (live : Nat) (st : ParseState)
    (list : List (Item dbl.Double)) (r : Option (List (Item dbl.Double))) (st' : ParseState)
    (Values : List (Item dbl.Double) → Prop) : Prop where
  offset_le : st'.offset ≤ content.length
  failed : r = none → st'.heap.live = live
  parsed : ∀ list', r = some list' → st.offset < st'.offset ∧ st'.offset < content.length ∧
    st'.heap.live = live + blocksOf list' ∧ ∃ items, list' = list ++ items ∧ Values items

theorem parseElements_safe {parser : Parser dbl} (hparser : Safe content levels parser)
    (hnul : content.getLast? = some 0) {rounds live : Nat} {list : List (Item dbl.Double)}
    {st : ParseState} (hoffset : st.offset + 1 < content.length)
    (hrounds : content.length ≤ st.offset + rounds)
    (hlive : st.heap.live = live + blocksOf list) :
    ∃ r st', parseElements dbl grants content parser rounds list st = .ok (r, st') ∧
      ListParsed content live st list r st' fun items =>
        ∃ vs, items = putElements dbl vs ∧ Json.depthElements vs ≤ levels := by
  induction rounds generalizing list st with
  | zero => omega
  | succ rounds ih =>
      unfold parseElements
      by_cases hgrants : grants st.heap.calls = true
      swap
      · rw [Heap.allocate_refused hgrants]
        refine ⟨none, _, rfl, by simp only; omega, fun _ => ?_, nofun⟩
        simp only [Heap.delete, Heap.release]
        omega
      rw [Heap.allocate_granted hgrants]
      simp only [Bool.not_true, Bool.false_eq_true, if_false]
      obtain ⟨o, hskip, hge, hlt⟩ := skipWhitespace_eq
        ⟨st.offset + 1, ⟨st.heap.calls + 1, st.heap.live + 1⟩⟩ hoffset
      obtain ⟨r, st₁, hread, hparsed⟩ := hparser (Item.new dbl) ⟨o, _⟩ (.new dbl) hlt
      rw [hskip, hread]
      simp only [bind, Except.bind]
      cases r with
      | none =>
          have hfailed := hparsed.failed rfl
          refine ⟨none, _, rfl, hparsed.offset_le, fun _ => ?_, nofun⟩
          have hblocks : (Item.new dbl).blocks = 1 := rfl
          simp only [Heap.delete, Heap.release, blocksOf_append, blocksOf_singleton, hblocks,
            hfailed]
          omega
      | some item =>
          obtain ⟨hgt, hlt₁, hmem, v, hitem, hdepth⟩ := hparsed.parsed item rfl
          have hblocks : (Item.new dbl).blocks = 1 := rfl
          obtain ⟨o₁, hskip₁, hge₁, hlt₂⟩ := skipWhitespace_eq _ hlt₁
          have hlive₁ : st₁.heap.live = live + blocksOf (list ++ [item]) := by
            rw [blocksOf_append, blocksOf_singleton]
            simp only [hblocks] at hmem
            omega
          simp only at hge hgt ⊢
          rw [hskip₁]
          by_cases hcomma : peek content ⟨o₁, st₁.heap⟩ = some 44
          · rw [if_pos hcomma]
            obtain ⟨r, st₂, hread₂, hnext⟩ := ih (peek_lt hnul hcomma (by decide))
              (by simp only; omega) hlive₁
            refine ⟨r, st₂, hread₂, hnext.offset_le, hnext.failed, ?_⟩
            intro list' heq
            obtain ⟨hgt₂, hlt₃, hlive₂, items, rfl, vs, rfl, hdepths⟩ := hnext.parsed list' heq
            refine ⟨by simp only at hgt₂; omega, hlt₃, hlive₂, item :: putElements dbl vs,
              List.append_assoc _ _ _, v :: vs, by rw [putElements, hitem], max_le hdepth hdepths⟩
          · rw [if_neg hcomma]
            refine ⟨some _, _, rfl, Nat.le_of_lt hlt₂, nofun, ?_⟩
            intro list' heq
            cases heq
            refine ⟨by simp only; omega, hlt₂, hlive₁, [item], rfl, [v], ?_, ?_⟩
            · rw [putElements, putElements, hitem]
            · exact max_le hdepth (Nat.zero_le _)

/-- A loop that stays in the buffer, as `parse_array` and `parse_object` enter
it: in front of something. -/
def LoopSafe (content : List Byte)
    (loop : ParseState → Except Stop (Option (List (Item dbl.Double)) × ParseState))
    (Values : List (Item dbl.Double) → Prop) : Prop :=
  ∀ st, st.offset + 1 < content.length →
    ∃ r st', loop st = .ok (r, st') ∧ ListParsed content st.heap.live st [] r st' Values

theorem parseBracketed_safe {close : Byte} {type : Kind}
    {loop : ParseState → Except Stop (Option (List (Item dbl.Double)) × ParseState)}
    (Values : List (Item dbl.Double) → Prop) (hloop : LoopSafe content loop Values)
    (hnil : Values [])
    (hvalues : ∀ (item : Item dbl.Double) list, item.Fresh → Values list →
      ∃ v, { item with type, child := list } = put dbl item v ∧ v.depth ≤ levels)
    (hnul : content.getLast? = some 0) (hclose : close ≠ 0) {item : Item dbl.Double}
    {st : ParseState} (hitem : item.Fresh) (hoffset : st.offset + 1 < content.length) :
    ∃ r st', parseBracketed dbl content close type loop item st = .ok (r, st') ∧
      Parsed content (·.depth ≤ levels) item st r st' := by
  obtain ⟨o, hskip, hge, hlt⟩ := skipWhitespace_eq { st with offset := st.offset + 1 } hoffset
  simp only at hge
  unfold parseBracketed
  simp only [bind, Except.bind]
  rw [hskip]
  by_cases hempty : peek content ⟨o, st.heap⟩ = some close
  · rw [if_pos hempty]
    refine ⟨some _, _, rfl, hlt, fun heq => absurd heq (Option.some_ne_none _), ?_⟩
    intro item' heq
    cases heq
    refine ⟨by simp only; omega, peek_lt hnul hempty hclose, ?_, hvalues item [] hitem hnil⟩
    rw [hitem.blocks, blocksOf]
    rfl
  have hinside : peek content ⟨o, st.heap⟩ ≠ none := by
    unfold peek
    rw [List.getElem?_eq_getElem hlt]
    exact Option.some_ne_none _
  rw [if_neg hempty, if_neg hinside]
  obtain ⟨r, st₂, hread, hlist⟩ := hloop ⟨o - 1, st.heap⟩
    (by simp only; omega)
  rw [hread]
  cases r with
  | none =>
      refine ⟨none, st₂, rfl, hlist.offset_le, fun _ => hlist.failed rfl, ?_⟩
      intro item' heq
      cases heq
  | some list =>
      obtain ⟨hgt, hlt₂, hlive, items, rfl, hitems⟩ := hlist.parsed list rfl
      simp only at hgt hlive
      simp only
      by_cases hend : peek content st₂ = some close
      · rw [if_neg (not_not_intro hend)]
        refine ⟨some _, _, rfl, hlt₂, fun heq => absurd heq (Option.some_ne_none _), ?_⟩
        intro item' heq
        cases heq
        refine ⟨by simp only; omega, peek_lt hnul hend hclose, ?_, hvalues item _ hitem hitems⟩
        rw [hitem.blocks, hlive]
        omega
      · rw [if_pos hend]
        refine ⟨none, _, rfl, Nat.le_of_lt hlt₂, fun _ => ?_, fun item' heq => ?_⟩
        · simp only [Heap.delete, Heap.release, hlive]
          omega
        · cases heq

theorem parseArray_safe {parser : Parser dbl} (hparser : Safe content levels parser)
    (hnul : content.getLast? = some 0) :
    Safe content (levels + 1) (parseArray dbl grants content parser) := by
  intro item st hitem hoffset
  obtain ⟨b, rest, hdrop⟩ := exists_drop hoffset
  unfold parseArray
  rw [byteAt_of_drop hdrop]
  simp only [bind, Except.bind]
  by_cases hb : b = 91
  · rw [if_neg (not_not_intro hb)]
    have hlt : st.offset + 1 < content.length :=
      lt_length_of_drop hnul (w := [b]) hdrop (by rw [hb]; decide) hoffset
    refine parseBracketed_safe (fun items => ∃ vs, items = putElements dbl vs ∧
      Json.depthElements vs ≤ levels) ?_ ⟨[], rfl, Nat.zero_le _⟩ ?_ hnul (by decide) hitem hlt
    · intro st hst
      exact parseElements_safe hparser hnul hst (by omega) rfl
    · rintro item _ _ ⟨vs, rfl, hdepth⟩
      exact ⟨.array vs, rfl, Nat.succ_le_succ hdepth⟩
  · rw [if_pos hb]
    exact ⟨none, st, rfl, Nat.le_of_lt hoffset, fun _ => rfl, nofun⟩

/-! ## Objects -/

/-- The name of a member, moved to its place. -/
theorem put_string_swap (s : List Byte) :
    { put dbl (Item.new dbl) (.string s) with
        string := (put dbl (Item.new dbl) (.string s)).valuestring, valuestring := none }
      = { Item.new dbl with type := .string, string := some (CStr.at s) } := rfl

theorem parseMembers_safe {parser : Parser dbl} (hparser : Safe content levels parser)
    (hnul : content.getLast? = some 0) {rounds live : Nat} {list : List (Item dbl.Double)}
    {st : ParseState} (hoffset : st.offset + 1 < content.length)
    (hrounds : content.length ≤ st.offset + rounds)
    (hlive : st.heap.live = live + blocksOf list) :
    ∃ r st', parseMembers dbl grants content parser rounds list st = .ok (r, st') ∧
      ListParsed content live st list r st' fun items =>
        ∃ ms, items = putMembers dbl ms ∧ Json.depthMembers ms ≤ levels := by
  induction rounds generalizing list st with
  | zero => omega
  | succ rounds ih =>
      unfold parseMembers
      by_cases hgrants : grants st.heap.calls = true
      swap
      · rw [Heap.allocate_refused hgrants]
        refine ⟨none, _, rfl, by simp only; omega, fun _ => ?_, nofun⟩
        simp only [Heap.delete, Heap.release]
        omega
      rw [Heap.allocate_granted hgrants]
      simp only [Bool.not_true, Bool.false_eq_true, if_false]
      have hnew : (Item.new dbl).blocks = 1 := rfl
      have hnamed : ∀ k, Item.blocks ({ Item.new dbl with
          type := .string, string := some (CStr.at k) }) = 2 := fun _ => rfl
      obtain ⟨o, hskip, hge, hlt⟩ := skipWhitespace_eq
        ⟨st.offset + 1, ⟨st.heap.calls + 1, st.heap.live + 1⟩⟩ hoffset
      obtain ⟨r, st₁, hread, hparsed⟩ := parseString_safe grants hnul (Item.new dbl)
        ⟨o, _⟩ (.new dbl) hlt
      rw [hskip, hread]
      simp only [bind, Except.bind]
      cases r with
      | none =>
          have hfailed := hparsed.failed rfl
          refine ⟨none, _, rfl, hparsed.offset_le, fun _ => ?_, nofun⟩
          simp only [Heap.delete, Heap.release, blocksOf_append, blocksOf_singleton, hnew, hfailed]
          omega
      | some name =>
          obtain ⟨hgt, hlt₁, hmem, _, rfl, s, rfl⟩ := hparsed.parsed name rfl
          obtain ⟨o₁, hskip₁, hge₁, hlt₂⟩ := skipWhitespace_eq _ hlt₁
          have hlive₁ : st₁.heap.live = st.heap.live + 2 := by
            have hstring : (put dbl (Item.new dbl) (.string s)).blocks = 2 := rfl
            simp only [hnew, hstring] at hmem
            omega
          simp only at hge hgt ⊢
          rw [put_string_swap, hskip₁]
          by_cases hcolon : peek content ⟨o₁, st₁.heap⟩ = some 58
          swap
          · rw [if_pos hcolon]
            refine ⟨none, _, rfl, Nat.le_of_lt hlt₂, fun _ => ?_, nofun⟩
            simp only [Heap.delete, Heap.release, blocksOf_append, blocksOf_singleton, hnamed]
            omega
          rw [if_neg (not_not_intro hcolon)]
          obtain ⟨o₂, hskip₂, hge₂, hlt₃⟩ := skipWhitespace_eq ⟨o₁ + 1, st₁.heap⟩
            (peek_lt hnul hcolon (by decide))
          obtain ⟨r, st₂, hread₂, hparsed₂⟩ := hparser
            { Item.new dbl with type := .string, string := some (CStr.at s) } ⟨o₂, _⟩
            ⟨rfl, rfl, rfl⟩ hlt₃
          simp only at hge₂
          rw [hskip₂, hread₂]
          cases r with
          | none =>
              have hfailed := hparsed₂.failed rfl
              refine ⟨none, _, rfl, hparsed₂.offset_le, fun _ => ?_, nofun⟩
              simp only [Heap.delete, Heap.release, blocksOf_append, blocksOf_singleton, hnamed,
                hfailed]
              omega
          | some item =>
              obtain ⟨hgt₂, hlt₄, hmem₂, v, hitem, hdepth⟩ := hparsed₂.parsed item rfl
              rw [put_type dbl { Item.new dbl with string := some (CStr.at s) }] at hitem
              obtain ⟨o₃, hskip₃, hge₃, hlt₅⟩ := skipWhitespace_eq _ hlt₄
              have hlive₂ : st₂.heap.live = live + blocksOf (list ++ [item]) := by
                rw [blocksOf_append, blocksOf_singleton]
                simp only [hnamed] at hmem₂
                omega
              simp only at hgt₂ ⊢
              rw [hskip₃]
              by_cases hcomma : peek content ⟨o₃, st₂.heap⟩ = some 44
              · rw [if_pos hcomma]
                obtain ⟨r, st₃, hread₃, hnext⟩ := ih (peek_lt hnul hcomma (by decide))
                  (by simp only; omega) hlive₂
                refine ⟨r, st₃, hread₃, hnext.offset_le, hnext.failed, ?_⟩
                intro list' heq
                obtain ⟨hgt₃, hlt₆, hlive₃, items, rfl, ms, rfl, hdepths⟩ := hnext.parsed list' heq
                refine ⟨by simp only at hgt₃; omega, hlt₆, hlive₃, item :: putMembers dbl ms,
                  List.append_assoc _ _ _, (s, v) :: ms, by rw [putMembers, hitem],
                  max_le hdepth hdepths⟩
              · rw [if_neg hcomma]
                refine ⟨some _, _, rfl, Nat.le_of_lt hlt₅, nofun, ?_⟩
                intro list' heq
                cases heq
                refine ⟨by simp only; omega, hlt₅, hlive₂, [item], rfl, [(s, v)], ?_, ?_⟩
                · rw [putMembers, putMembers, hitem]
                · exact max_le hdepth (Nat.zero_le _)

theorem parseObject_safe {parser : Parser dbl} (hparser : Safe content levels parser)
    (hnul : content.getLast? = some 0) :
    Safe content (levels + 1) (parseObject dbl grants content parser) := by
  intro item st hitem hoffset
  unfold parseObject
  by_cases hopen : peek content st = some 123
  · rw [if_neg (not_not_intro hopen)]
    refine parseBracketed_safe (fun items => ∃ ms, items = putMembers dbl ms ∧
      Json.depthMembers ms ≤ levels) ?_ ⟨[], rfl, Nat.zero_le _⟩ ?_ hnul (by decide) hitem
      (peek_lt hnul hopen (by decide))
    · intro st hst
      exact parseMembers_safe hparser hnul hst (by omega) rfl
    · rintro item _ _ ⟨ms, rfl, hdepth⟩
      exact ⟨.object ms, rfl, Nat.succ_le_succ hdepth⟩
  · rw [if_pos hopen]
    exact ⟨none, st, rfl, Nat.le_of_lt hoffset, fun _ => rfl, nofun⟩

/-! ## Values -/

theorem Parsed.mono {Value Value' : Json dbl.Double → Prop} {item : Item dbl.Double}
    {st st' : ParseState} {r : Option (Item dbl.Double)} (h : Parsed content Value item st r st')
    (hvalue : ∀ v, Value v → Value' v) : Parsed content Value' item st r st' := by
  refine ⟨h.offset_le, h.failed, ?_⟩
  intro item' heq
  obtain ⟨hgt, hlt, hlive, v, hitem, hv⟩ := h.parsed item' heq
  exact ⟨hgt, hlt, hlive, v, hitem, hvalue v hv⟩

/-- A literal name: what it takes is its own length, and no memory. -/
theorem parsed_word {item item' : Item dbl.Double} {st : ParseState} {word : List Byte}
    {v : Json dbl.Double} (hnul : content.getLast? = some 0) (hoffset : st.offset < content.length)
    (hstarts : startsWith content st word = true) (hword : (0 : Byte) ∉ word ∧ 0 < word.length)
    (hitem : item' = put dbl item v) (hblocks : item'.blocks = item.blocks)
    (hdepth : v.depth ≤ levels) :
    Parsed content (·.depth ≤ levels) item st (some item')
      { st with offset := st.offset + word.length } := by
  have hlt := startsWith_lt hnul hstarts hword.1 hoffset
  refine ⟨Nat.le_of_lt hlt, nofun, ?_⟩
  intro _ heq
  cases heq
  exact ⟨Nat.lt_add_of_pos_right hword.2, hlt, by rw [hblocks], v, hitem, hdepth⟩

theorem parseValueWith_safe {parseArray parseObject : Parser dbl} (hstrtod : dbl.StrtodInside)
    (harray : Safe content levels parseArray) (hobject : Safe content levels parseObject)
    (hnul : content.getLast? = some 0) :
    Safe content levels (parseValueWith dbl grants content parseArray parseObject) := by
  intro item st hitem hoffset
  unfold parseValueWith
  split
  · next hnull =>
    exact ⟨_, _, rfl, parsed_word hnul hoffset hnull (by decide) (v := .null) rfl
      (by rw [Item.blocks_eq, Item.blocks_eq]) (Nat.zero_le _)⟩
  split
  · next hfalse =>
    exact ⟨_, _, rfl, parsed_word hnul hoffset hfalse (by decide) (v := .bool false) rfl
      (by rw [Item.blocks_eq, Item.blocks_eq]) (Nat.zero_le _)⟩
  split
  · next htrue =>
    exact ⟨_, _, rfl, parsed_word hnul hoffset htrue (by decide) (v := .bool true) rfl
      (by rw [Item.blocks_eq, Item.blocks_eq]) (Nat.zero_le _)⟩
  split
  · exact ⟨none, st, rfl, Nat.le_of_lt hoffset, fun _ => rfl, nofun⟩
  · split
    · obtain ⟨r, st', hread, hparsed⟩ := parseString_safe grants hnul item st hitem hoffset
      refine ⟨r, st', hread, hparsed.mono ?_⟩
      rintro _ ⟨s, rfl⟩
      exact Nat.zero_le _
    split
    · exact parseNumber_safe hstrtod hnul item st hitem hoffset
    split
    · exact harray item st hitem hoffset
    split
    · exact hobject item st hitem hoffset
    · exact ⟨none, st, rfl, Nat.le_of_lt hoffset, fun _ => rfl, nofun⟩

theorem parseValue_safe (grants : Nat → Bool) (hstrtod : dbl.StrtodInside)
    (hnul : content.getLast? = some 0) (levels : Nat) :
    Safe content levels (parseValue dbl grants content levels) := by
  induction levels with
  | zero =>
      have hdeep : Safe content 0 fun (_ : Item dbl.Double) st => .ok (none, st) :=
        fun _ st _ hoffset => ⟨none, st, rfl, Nat.le_of_lt hoffset, fun _ => rfl, nofun⟩
      exact parseValueWith_safe hstrtod hdeep hdeep hnul
  | succ levels ih =>
      exact parseValueWith_safe hstrtod (parseArray_safe ih hnul) (parseObject_safe ih hnul) hnul

end Safe

/-! ## cJSON_ParseWithOpts -/

/-- What `cJSON_ParseWithOpts` may return: no block is lost, and an item is one
of a value. -/
structure Sound (dbl : Doubles) (value : CStr) (heap : Heap) (result : ParseResult dbl.Double) :
    Prop where
  returnParseEnd_le : result.returnParseEnd ≤ value.bytes.length
  failed : result.item = none → result.heap.live = heap.live
  parsed : ∀ item, result.item = some item → result.heap.live = heap.live + item.blocks ∧
    ∃ v, item = itemOf dbl v ∧ v.depth ≤ CJSON_NESTING_LIMIT

theorem parseWithOpts_sound {dbl : Doubles} (hstrtod : dbl.StrtodInside) (grants : Nat → Bool)
    (value : CStr) (requireNullTerminated : Bool) (heap : Heap) :
    ∃ result, parseWithOpts dbl grants value requireNullTerminated heap = .ok result ∧
      Sound dbl value heap result := by
  have hnul : (value.bytes ++ [0]).getLast? = some 0 := List.getLast?_concat
  have hlen : (value.bytes ++ [(0 : Byte)]).length = value.bytes.length + 1 := List.length_append
  have hposition : ∀ st, errorPosition (value.bytes ++ [0]) st ≤ value.bytes.length := by
    intro st
    unfold errorPosition
    split <;> omega
  unfold parseWithOpts
  by_cases hgrants : grants heap.calls = true
  swap
  · rw [Heap.allocate_refused hgrants]
    exact ⟨_, rfl, hposition _, fun _ => rfl, nofun⟩
  rw [Heap.allocate_granted hgrants]
  simp only [Bool.not_true, Bool.false_eq_true, if_false]
  generalize hst : skipUtf8Bom (value.bytes ++ [0]) ⟨0, ⟨heap.calls + 1, heap.live + 1⟩⟩ = st
  have hbom : st.offset < (value.bytes ++ [(0 : Byte)]).length ∧ st.heap.live = heap.live + 1 := by
    rw [← hst]
    unfold skipUtf8Bom
    split
    · next h =>
      simp only [Bool.and_eq_true, decide_eq_true_eq] at h
      exact ⟨by simp only; omega, rfl⟩
    · exact ⟨by simp only; omega, rfl⟩
  obtain ⟨o, hskip, hge, hlt⟩ := skipWhitespace_eq _ hbom.1
  obtain ⟨r, st₁, hread, hparsed⟩ := parseValue_safe grants hstrtod hnul
    CJSON_NESTING_LIMIT (Item.new dbl) ⟨o, st.heap⟩ (.new dbl) hlt
  have hnew : (Item.new dbl).blocks = 1 := rfl
  rw [hskip, hread]
  simp only [bind, Except.bind]
  cases r with
  | none =>
      have hfailed := hparsed.failed rfl
      refine ⟨_, rfl, hposition _, fun _ => ?_, nofun⟩
      simp only [Heap.delete, Heap.release, blocksOf_singleton, hnew, hfailed]
      omega
  | some item =>
      obtain ⟨hgt, hlt₁, hmem, v, hitem, hdepth⟩ := hparsed.parsed item rfl
      simp only [hnew] at hmem
      have hlive : st₁.heap.live = heap.live + item.blocks := by omega
      obtain ⟨o₁, hskip₁, _, hlt₂⟩ := skipWhitespace_eq _ hlt₁
      simp only
      cases requireNullTerminated with
      | false =>
          refine ⟨_, rfl, by simp only; omega, nofun, ?_⟩
          intro item' heq
          cases heq
          exact ⟨hlive, v, hitem, hdepth⟩
      | true =>
          rw [if_pos rfl, hskip₁]
          by_cases hend : peek (value.bytes ++ [0]) ⟨o₁, st₁.heap⟩ = some 0
          · rw [if_neg (not_not_intro hend)]
            refine ⟨_, rfl, by simp only; omega, nofun, ?_⟩
            intro item' heq
            cases heq
            exact ⟨hlive, v, hitem, hdepth⟩
          · rw [if_pos hend]
            refine ⟨_, rfl, hposition _, fun _ => ?_, nofun⟩
            simp only [Heap.delete, Heap.release, blocksOf_singleton, hlive]
            omega

/-- Whatever the string and whichever of the allocations are granted,
`cJSON_ParseWithOpts` returns, it stays in the string, and it leaks nothing:
the blocks in use afterwards are those from before and those that
`cJSON_Delete` frees with the item. -/
theorem parseWithOpts_safe (dbl : Doubles) (hstrtod : dbl.StrtodInside) (grants : Nat → Bool)
    (value : CStr) (requireNullTerminated : Bool) (heap : Heap) :
    ∃ result, parseWithOpts dbl grants value requireNullTerminated heap = .ok result ∧
      result.returnParseEnd ≤ value.bytes.length ∧
      (result.item = none → result.heap.live = heap.live) ∧
      ∀ item, result.item = some item →
        (result.heap.delete [item]).live = heap.live ∧
        ∃ v, item = itemOf dbl v ∧ v.depth ≤ CJSON_NESTING_LIMIT := by
  obtain ⟨result, hrun, hsound⟩ :=
    parseWithOpts_sound hstrtod grants value requireNullTerminated heap
  refine ⟨result, hrun, hsound.returnParseEnd_le, hsound.failed, fun item hitem => ?_⟩
  obtain ⟨hlive, hvalue⟩ := hsound.parsed item hitem
  refine ⟨?_, hvalue⟩
  rw [Heap.delete, Heap.release, blocksOf_singleton, hlive, Nat.add_sub_cancel]

/-- On `[1,`, where an item is made that the list never gets. -/
theorem parseWithOpts_safe_unclosed :
    ∃ result, parseWithOpts digits (fun _ => true) ⟨[91, 49, 44], by decide⟩ true ⟨0, 0⟩
        = .ok result ∧
      result.returnParseEnd ≤ 3 ∧ (result.item = none → result.heap.live = 0) ∧
      ∀ item, result.item = some item →
        (result.heap.delete [item]).live = 0 ∧
        ∃ v, item = itemOf digits v ∧ v.depth ≤ CJSON_NESTING_LIMIT :=
  parseWithOpts_safe digits digits_strtodInside (fun _ => true) ⟨[91, 49, 44], by decide⟩ true
    ⟨0, 0⟩

end JsonRead

end BeEasy
