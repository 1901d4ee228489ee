import BeEasy.Epoll.Client

/-!
# Epoll — what the client sends

Of every string that `fgets` stores, the client cuts off the last character.
That is the newline only of a line with room for it in `send`: of a longer
line each piece loses a character, and so does a last line without a newline.

A text that fits goes through by `Intact`: what was sent and what is left to
read without its newlines make up what was typed in. For any other text the
sum of their lengths falls short for good with the first piece that has no
newline (`CutShort`).
-/

namespace BeEasy.EpollClient

open CVerif

/-- A line of text that does not end the program. -/
structure Line (line : List Byte) : Prop where
  noNul : (0 : Byte) ∉ line
  noNewline : newline ∉ line
  notQuit : line ≠ [113]

/-- What lines are as bytes, the last without a newline. -/
def typed (lines : List (List Byte)) (last : List Byte) : List Byte :=
  lines.flatMap (fun line => line ++ [newline]) ++ last

/-- What is typed in. Where it ends with a newline, `last` is empty. -/
structure Text where
  lines : List (List Byte)
  last : List Byte
  line : ∀ line ∈ lines, Line line
  line_last : Line last

def Text.bytes (text : Text) : List Byte := typed text.lines text.last

/-- Every line has room in the buffer with its newline, and has one. -/
def Fits (lines : List (List Byte)) (last : List Byte) : Prop :=
  (∀ line ∈ lines, line.length ≤ 1022) ∧ last = []

/-- The input can be read in this turn. -/
def Event.input : Event → Bool
  | .failed => false
  | .ready _ input => input

/-- The loop goes on to the input: no read from the connection is the last one. -/
def Event.GoesOn : Event → Prop
  | .failed => False
  | .ready none _ => True
  | .ready (some (.chunk c)) _ => c.bytes.length < MAXLINE ∨ (0 : Byte) ∈ c.bytes
  | .ready (some _) _ => False

/-- The input, which can be read at its end as well, comes up again and again,
and the connection does not stop the loop. -/
structure Supplies (evs : Nat → Event) : Prop where
  goesOn : ∀ n, (evs n).GoesOn
  input : ∀ n, ∃ m, n ≤ m ∧ (evs m).input = true

/-- At the end of the input: what was sent is the input without its newlines. -/
def Arrived (text : Text) (p : Progress ClientState Exit Violation) : Prop :=
  ∃ s, p = .returned s .ended ∧ s.sent = unbroken text.bytes

/-- The loop comes to the end of the input, and has sent what it should. -/
def Delivers (text : Text) (evs : Nat → Event) : Prop :=
  ∃ n, Arrived text (after sendAndRecvTurn (.init text.bytes) evs n)

/-! ## One turn -/

section Turns

variable {s : ClientState} {e : Event}

theorem onConnection_goesOn {conn : Option Received} {input : Bool}
    (h : Event.GoesOn (.ready conn input)) :
    ∃ t, onConnection s conn = .running t ∧ t.input = s.input ∧ t.sent = s.sent := by
  cases conn with
  | none => exact ⟨s, rfl, rfl, rfl⟩
  | some received =>
      cases received with
      | chunk c =>
          have hshown := (showRecv_eq c.fits).trans (if_pos h)
          simp only [onConnection, hshown]
          exact ⟨_, rfl, rfl, rfl⟩
      | closed => exact h.elim
      | error => exact h.elim

theorem turn_goesOn (h : e.GoesOn) (s : ClientState) :
    ∃ t, t.input = s.input ∧ t.sent = s.sent ∧
      sendAndRecvTurn s e = if e.input then onInput t else .running t := by
  cases e with
  | failed => exact h.elim
  | ready conn input =>
      obtain ⟨t, ht, hinput, hsent⟩ := onConnection_goesOn (s := s) h
      refine ⟨t, hinput, hsent, ?_⟩
      rw [sendAndRecvTurn, ht]
      rfl

theorem onInput_end (h : s.input = []) : onInput s = .returned (s.print [.ended]) .ended := by
  rw [onInput, h]
  rfl

/-- A string is read, and sent without its last character. -/
theorem onInput_piece (hne : s.input ≠ []) (hnul : (0 : Byte) ∉ s.input) :
    ∃ rest, piece 1023 s.input ++ rest = s.input ∧ piece 1023 s.input ≠ [] ∧
      ((piece 1023 s.input).dropLast = [113] ∧ (∃ t, onInput s = .returned t .bye) ∨
        (piece 1023 s.input).dropLast ≠ [113] ∧
          ∃ t, onInput s = .running t ∧ t.input = rest ∧
            t.sent = s.sent ++ (piece 1023 s.input).dropLast) := by
  obtain ⟨str, rest, hfgets, hstr, hpiece, happend⟩ :=
    fgets_some (show 2 ≤ MAXLINE by decide) hne
  have hstr' : piece 1023 s.input = str := hstr.symm
  have hclean : (0 : Byte) ∉ str := by
    rw [← hstr']
    exact fun hmem => hnul ((piece_begins 1023 s.input).subset hmem)
  have hlen : str.length < MAXLINE := by
    rw [← hstr']
    exact Nat.lt_succ_of_le (length_piece_le 1023 s.input)
  rw [hstr']
  refine ⟨rest, happend, hpiece, ?_⟩
  simp only [onInput, hfgets, cutLast_eq hpiece hclean hlen]
  by_cases hquit : str.dropLast = [113]
  · rw [if_pos hquit]
    exact .inl ⟨hquit, _, rfl⟩
  · rw [if_neg hquit]
    exact .inr ⟨hquit, _, rfl, rfl, rfl⟩

end Turns

/-! ## Lines -/

section Lines

variable {line last : List Byte} {lines : List (List Byte)}

theorem typed_cons (line : List Byte) (lines : List (List Byte)) (last : List Byte) :
    typed (line :: lines) last = line ++ newline :: typed lines last := by
  simp [typed]

theorem noNul_typed (hlines : ∀ line ∈ lines, Line line) (hlast : Line last) :
    (0 : Byte) ∉ typed lines last := by
  induction lines with
  | nil => exact hlast.noNul
  | cons line lines ih =>
      obtain ⟨hline, hrest⟩ := List.forall_mem_cons.mp hlines
      rw [typed_cons]
      intro hmem
      rcases List.mem_append.mp hmem with h | h
      · exact hline.noNul h
      · exact ih hrest ((List.mem_cons.mp h).resolve_left (by decide))

/-- A line that fits is read whole. -/
theorem piece_typed (hline : Line line) (hroom : line.length ≤ 1022) :
    piece 1023 (typed (line :: lines) last) = line ++ [newline] := by
  rw [typed_cons]
  exact piece_line hline.noNewline (Nat.lt_succ_of_le hroom) _

theorem rest_typed {rest : List Byte}
    (h : line ++ [newline] ++ rest = typed (line :: lines) last) : rest = typed lines last := by
  rw [typed_cons, List.append_assoc] at h
  exact (List.cons.inj (List.append_cancel_left h)).2

theorem typed_cons_ne_nil : typed (line :: lines) last ≠ [] := by
  rw [typed_cons]
  exact List.append_ne_nil_of_right_ne_nil _ (List.cons_ne_nil _ _)

/-- The first line has no room for its newline, or is the last and has none. -/
theorem newline_notMem_piece (hlines : ∀ line ∈ lines, Line line) (hlast : Line last)
    (hcut : ∀ line, lines.head? = some line → 1022 < line.length) :
    newline ∉ piece 1023 (typed lines last) := by
  have hopen : newline ∉ (typed lines last).take 1023 := by
    cases lines with
    | nil => exact fun h => hlast.noNewline (List.mem_of_mem_take h)
    | cons line lines =>
        have hlong := hcut line rfl
        rw [typed_cons, List.take_append_of_le_length (by omega)]
        exact fun h => (hlines line List.mem_cons_self).noNewline (List.mem_of_mem_take h)
  rw [piece_open hopen]
  exact hopen

end Lines

/-! ## A text that fits -/

/-- Nothing was lost so far, and nothing will be. -/
structure Intact (text : Text) (s : ClientState) : Prop where
  fits : ∃ lines, (∀ line ∈ lines, Line line ∧ line.length ≤ 1022) ∧ s.input = typed lines []
  sum : s.sent ++ unbroken s.input = unbroken text.bytes

/-- What was typed and does not fit is still to come, or a character was lost. -/
structure CutShort (text : Text) (s : ClientState) : Prop where
  noNul : (0 : Byte) ∉ s.input
  lost : s.sent.length + (unbroken s.input).length < (unbroken text.bytes).length ∨
    s.sent.length + (unbroken s.input).length = (unbroken text.bytes).length ∧
      ∃ lines, (∀ line ∈ lines, Line line) ∧ s.input = typed lines text.last ∧
        ¬Fits lines text.last

section Input

variable {text : Text} {s t : ClientState}

/-! Both speak of the input and of what was sent only. -/

theorem Intact.congr (h : Intact text s) (hinput : t.input = s.input) (hsent : t.sent = s.sent) :
    Intact text t := by
  constructor
  · rw [hinput]
    exact h.fits
  · rw [hinput, hsent]
    exact h.sum

theorem CutShort.congr (h : CutShort text s) (hinput : t.input = s.input)
    (hsent : t.sent = s.sent) : CutShort text t := by
  constructor
  · rw [hinput]
    exact h.noNul
  · rw [hinput, hsent]
    exact h.lost

theorem line_nil : Line [] := ⟨List.not_mem_nil, List.not_mem_nil, nofun⟩

/-- A line goes through. -/
theorem intact_onInput (h : Intact text s) :
    Arrived text (onInput s) ∨
      ∃ t, onInput s = .running t ∧ Intact text t ∧ t.input.length < s.input.length := by
  obtain ⟨lines, hlines, hinput⟩ := h.fits
  cases lines with
  | nil =>
      have hend : s.input = [] := hinput
      have hsum := h.sum
      rw [hend] at hsum
      exact .inl ⟨_, onInput_end hend, (List.append_nil s.sent).symm.trans hsum⟩
  | cons line lines =>
      obtain ⟨⟨hline, hroom⟩, hrest⟩ := List.forall_mem_cons.mp hlines
      have hne : s.input ≠ [] := by
        rw [hinput]
        exact typed_cons_ne_nil
      have hnul : (0 : Byte) ∉ s.input := by
        rw [hinput]
        exact noNul_typed (fun l hl => (hlines l hl).1) line_nil
      have hpiece : piece 1023 s.input = line ++ [newline] := by
        rw [hinput]
        exact piece_typed hline hroom
      obtain ⟨rest, happend, _, hcases⟩ := onInput_piece hne hnul
      rw [hpiece, List.dropLast_concat] at hcases
      rw [hpiece] at happend
      obtain ⟨_, t, ht, hleft, hsent⟩ := hcases.resolve_left fun hquit => hline.notQuit hquit.1
      have htyped : rest = typed lines [] := rest_typed (happend.trans hinput)
      refine .inr ⟨t, ht, ⟨⟨lines, hrest, hleft.trans htyped⟩, ?_⟩, ?_⟩
      · rw [← h.sum, ← happend, unbroken_append, unbroken_line hline.noNewline, hleft, hsent,
          List.append_assoc]
      · rw [hleft, ← happend, List.length_append, List.length_append, List.length_singleton]
        omega

/-- One character of a piece is cut off: it was a newline or it is missing. -/
theorem cutShort_piece (h : CutShort text s)
    (hpiece : piece 1023 s.input ≠ []) (happend : piece 1023 s.input ++ t.input = s.input)
    (hsent : t.sent = s.sent ++ (piece 1023 s.input).dropLast) : CutShort text t := by
  have hpos := List.length_pos_iff.mpr hpiece
  have hunbroken := congrArg List.length (unbroken_append (piece 1023 s.input) t.input)
  rw [happend, List.length_append] at hunbroken
  have hgrown : t.sent.length = s.sent.length + ((piece 1023 s.input).length - 1) := by
    rw [hsent, List.length_append, List.length_dropLast]
  refine ⟨fun hmem => h.noNul (happend ▸ List.mem_append_right _ hmem), ?_⟩
  rcases h.lost with hless | ⟨hsum, lines, hlines, hinput, hnot⟩
  · have hbound := length_piece_le_unbroken 1023 s.input
    exact .inl (by omega)
  by_cases hfirst : ∀ line, lines.head? = some line → 1022 < line.length
  · have hopen := newline_notMem_piece hlines text.line_last hfirst
    rw [← hinput] at hopen
    have hwhole := congrArg List.length (unbroken_of_notMem hopen)
    exact .inl (by omega)
  · obtain ⟨line, hhead, hroom⟩ : ∃ line, lines.head? = some line ∧ line.length ≤ 1022 := by
      simpa only [not_forall, Nat.not_lt, exists_prop] using hfirst
    cases lines with
    | nil => cases hhead
    | cons line' lines =>
        cases hhead
        obtain ⟨hline, hrest⟩ := List.forall_mem_cons.mp hlines
        have hread : piece 1023 s.input = line ++ [newline] := by
          rw [hinput]
          exact piece_typed hline hroom
        have hwhole := congrArg List.length (unbroken_line hline.noNewline)
        rw [hread] at happend hunbroken hgrown
        rw [List.length_append, List.length_singleton] at hgrown
        refine .inr ⟨by omega, lines, hrest, rest_typed (happend.trans hinput), ?_⟩
        exact fun hfits => hnot ⟨List.forall_mem_cons.mpr ⟨hroom, hfits.1⟩, hfits.2⟩

/-- At the end nothing is left to read, so a character was lost. -/
theorem cutShort_end (h : CutShort text s) (hend : s.input = []) :
    s.sent.length < (unbroken text.bytes).length := by
  rcases h.lost with hless | ⟨_, lines, _, hinput, hnot⟩
  · omega
  · rw [hend] at hinput
    cases lines with
    | nil => exact absurd ⟨nofun, hinput.symm⟩ hnot
    | cons line lines => exact absurd hinput.symm typed_cons_ne_nil

/-- A loop that has not arrived, and will not. -/
def Short (text : Text) (p : Progress ClientState Exit Violation) : Prop :=
  ¬Arrived text p ∧ ∀ t, p = .running t → CutShort text t

theorem short_running (h : CutShort text s) : Short text (.running s) := by
  refine ⟨?_, fun t ht => ?_⟩
  · rintro ⟨t, ht, _⟩
    cases ht
  · cases ht
    exact h

theorem short_onInput (h : CutShort text s) : Short text (onInput s) := by
  by_cases hend : s.input = []
  · rw [onInput_end hend]
    refine ⟨?_, nofun⟩
    rintro ⟨t, ht, hsent⟩
    cases ht
    exact Nat.ne_of_lt (cutShort_end h hend) (congrArg List.length hsent)
  · obtain ⟨rest, happend, hpiece, hcases⟩ := onInput_piece hend h.noNul
    rcases hcases with ⟨_, t, ht⟩ | ⟨_, t, ht, hleft, hsent⟩
    · rw [ht]
      refine ⟨?_, nofun⟩
      rintro ⟨u, hquit, _⟩
      cases hquit
    · rw [ht]
      exact short_running (cutShort_piece h hpiece (hleft ▸ happend) hsent)

end Input

/-! ## Whole runs -/

section Runs

variable {text : Text} {evs : Nat → Event}

/-- **One turn** takes the next line, if the input can be read. -/
theorem intact_turn {s : ClientState} {e : Event} (hs : Intact text s) (he : e.GoesOn) :
    Arrived text (sendAndRecvTurn s e) ∨
      ∃ t, sendAndRecvTurn s e = .running t ∧ Intact text t ∧ t.input.length ≤ s.input.length ∧
        (e.input = true → t.input.length < s.input.length) := by
  obtain ⟨s', hinput, hsent, hturn⟩ := turn_goesOn he s
  have hs' := hs.congr hinput hsent
  rw [hturn, ← hinput]
  by_cases hready : e.input = true
  · rw [if_pos hready]
    rcases intact_onInput hs' with harrived | ⟨t, ht, hintact, hless⟩
    · exact .inl harrived
    · exact .inr ⟨t, ht, hintact, Nat.le_of_lt hless, fun _ => hless⟩
  · rw [if_neg hready]
    exact .inr ⟨s', rfl, hs', Nat.le_refl _, fun h => absurd h hready⟩

theorem delivers_of_fits (hevs : Supplies evs) (h : Fits text.lines text.last) :
    Delivers text evs := by
  have hstart : Intact text (.init text.bytes) := by
    refine ⟨⟨text.lines, fun line hline => ⟨text.line line hline, h.1 line hline⟩, ?_⟩, rfl⟩
    show typed text.lines text.last = _
    rw [h.2]
  exact after_arrives (fun _ _ => intact_turn) hstart evs hevs.goesOn hevs.input

/-- The same turn where a character is or will be missing. -/
theorem short_turn {s : ClientState} {e : Event} (hs : CutShort text s) (he : e.GoesOn) :
    Short text (sendAndRecvTurn s e) := by
  obtain ⟨s', hinput, hsent, hturn⟩ := turn_goesOn he s
  have hcut := hs.congr hinput hsent
  rw [hturn]
  by_cases hready : e.input = true
  · rw [if_pos hready]
    exact short_onInput hcut
  · rw [if_neg hready]
    exact short_running hcut

theorem not_delivers (hevs : Supplies evs) (h : ¬Fits text.lines text.last) :
    ¬Delivers text evs := by
  have hstart : CutShort text (.init text.bytes) := by
    refine ⟨noNul_typed text.line text.line_last, .inr ⟨?_, text.lines, text.line, rfl, h⟩⟩
    exact Nat.zero_add _
  rintro ⟨n, harrived⟩
  have hshort : Short text (after sendAndRecvTurn (.init text.bytes) evs n) := by
    refine after_keeps (J := Short text) ?_ (short_running hstart) evs hevs.goesOn n
    intro s e he hs
    exact short_turn (hs.2 s rfl) he
  exact hshort.1 harrived

/-- **The input goes out without its newlines, and nothing else is dropped,
exactly if every line has room in the buffer with its newline and ends with
one.** -/
theorem delivers_iff (hevs : Supplies evs) : Delivers text evs ↔ Fits text.lines text.last :=
  ⟨fun hdelivers => not_not.mp fun h => not_delivers hevs h hdelivers, delivers_of_fits hevs⟩

end Runs

/-- The letters `hi` without a newline. -/
def unterminated : Text where
  lines := []
  last := [104, 105]
  line := nofun
  line_last := ⟨by decide, by decide, by decide⟩

/-- Nothing comes from the server, and the input is always ready. -/
def onlyInput : Nat → Event := fun _ => .ready none true

theorem onlyInput_supplies : Supplies onlyInput :=
  ⟨fun _ => trivial, fun n => ⟨n, Nat.le_refl n, rfl⟩⟩

/-- The `i` is lost. -/
theorem unterminated_cut : ¬Delivers unterminated onlyInput := by
  refine not_delivers onlyInput_supplies ?_
  exact fun h => List.cons_ne_nil _ _ h.2

theorem delivers_unterminated :
    Delivers unterminated onlyInput ↔ Fits unterminated.lines unterminated.last :=
  delivers_iff onlyInput_supplies

end BeEasy.EpollClient
