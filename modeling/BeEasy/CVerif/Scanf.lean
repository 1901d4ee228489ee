import BeEasy.CVerif.Bytes
import Mathlib.Data.List.TakeWhile

/-!
# CVerif — Scanf

Character input as `fgetc`, `feof` and `fscanf` see it. A conversion reads as
far as it can and gives one character back; it meets the end of the file, and
sets the indicator, only where it asks for a character that is not there. So
a field at its full width, or with something behind it, leaves `feof` false.
-/

namespace CVerif

def newline : Byte := 10

/-- `isspace` in the C locale. -/
def isSpace (b : Byte) : Bool := b = 32 || (9 ≤ b && b ≤ 13)

/-- A stream read character by character: what is left of it, and `feof`. -/
structure Scanner where
  rest : List Byte
  eof : Bool

/-- The directives used here: white space, `%N[..]` and `%*s`. -/
inductive Directive where
  | space
  | set (width : Nat) (accepts : Byte → Bool)
  | skipString

namespace Scanner

/-- What is left after reading on to `rest`, with or without a look behind it. -/
def readTo (s : Scanner) (rest : List Byte) : Scanner := ⟨rest, s.eof || rest.isEmpty⟩

def skipSpace (s : Scanner) : Scanner := s.readTo (s.rest.dropWhile isSpace)

/-- One directive: no result if it does not match, else what it assigns. -/
def run (s : Scanner) : Directive → Option (Option (List Byte)) × Scanner
  | .space => (some none, s.skipSpace)
  | .set width accepts =>
      let field := (s.rest.take width).takeWhile accepts
      let rest := s.rest.drop field.length
      let after := if field.length < width then s.readTo rest else { s with rest }
      if field = [] then (none, after) else (some (some field), after)
  | .skipString =>
      let s := s.skipSpace
      if s.rest = [] then (none, s)
      else (some none, s.readTo (s.rest.dropWhile fun b => !isSpace b))

/-- `fscanf`: what it assigns, in order, up to the first directive that does
not match. It returns their number, or EOF instead of 0. -/
def scanf (s : Scanner) : List Directive → List (List Byte) × Scanner
  | [] => ([], s)
  | d :: ds =>
      match s.run d with
      | (none, s) => ([], s)
      | (some assigned, s) =>
          let (others, s) := s.scanf ds
          (assigned.toList ++ others, s)

/-- `while (!feof(fp) && fgetc(fp) != '\n');` on a stream that is not at its end. -/
def skipLine : List Byte → Scanner
  | [] => ⟨[], true⟩
  | b :: rest => if b = newline then ⟨rest, false⟩ else skipLine rest

/-! ## Nothing is read twice -/

section Lengths

variable (s : Scanner) (d : Directive) (ds : List Directive)

theorem length_skipSpace : s.skipSpace.rest.length ≤ s.rest.length :=
  (List.dropWhile_suffix _).length_le

theorem length_run_le : (s.run d).2.rest.length ≤ s.rest.length := by
  cases d with
  | space => exact s.length_skipSpace
  | set width accepts =>
      have hdrop : ∀ n, (s.rest.drop n).length ≤ s.rest.length := by
        intro n
        rw [List.length_drop]
        exact Nat.sub_le _ _
      simp only [run]
      split <;> split <;> exact hdrop _
  | skipString =>
      simp only [run]
      split
      · exact s.length_skipSpace
      · exact (List.dropWhile_suffix _).length_le.trans s.length_skipSpace

/-- What a directive assigns is gone from the stream. -/
theorem length_run_lt {field : List Byte} (h : (s.run d).1 = some (some field)) :
    (s.run d).2.rest.length < s.rest.length := by
  cases d with
  | space => cases h
  | skipString =>
      simp only [run] at h
      split at h <;> cases h
  | set width accepts =>
      have hle : ((s.rest.take width).takeWhile accepts).length ≤ s.rest.length :=
        (List.takeWhile_prefix _).length_le.trans (List.length_take_le' _ _)
      simp only [run] at h ⊢
      by_cases hnil : (s.rest.take width).takeWhile accepts = []
      · rw [if_pos hnil] at h
        cases h
      · have hpos := List.length_pos_iff.mpr hnil
        have hdrop : (s.rest.drop ((s.rest.take width).takeWhile accepts).length).length
            < s.rest.length := by
          rw [List.length_drop]
          omega
        rw [if_neg hnil]
        split <;> exact hdrop

theorem length_scanf_le : (s.scanf ds).2.rest.length ≤ s.rest.length := by
  induction ds generalizing s with
  | nil => exact Nat.le_refl _
  | cons d ds ih =>
      have hrun := s.length_run_le d
      rw [scanf]
      rcases hd : s.run d with ⟨_ | assigned, t⟩
      · rwa [hd] at hrun
      · rw [hd] at hrun
        exact (ih t).trans hrun

/-- **What is assigned is gone from the stream.** -/
theorem length_scanf_lt (h : (s.scanf ds).1 ≠ []) :
    (s.scanf ds).2.rest.length < s.rest.length := by
  induction ds generalizing s with
  | nil => exact absurd rfl h
  | cons d ds ih =>
      have hle := s.length_run_le d
      have hlt := fun field => @length_run_lt s d field
      rw [scanf] at h ⊢
      rcases hd : s.run d with ⟨_ | _ | field, t⟩
      · rw [hd] at h
        exact absurd rfl h
      · rw [hd] at h hle
        exact (ih t h).trans_le hle
      · rw [hd] at hlt
        exact (t.length_scanf_le ds).trans_lt (hlt field rfl)

end Lengths

/-! ## Fields with something behind them -/

section Fields

variable {accepts : Byte → Bool} {field spaces behind : List Byte} {b : Byte} {width : Nat}
  {s t : Scanner} {d : Directive} {ds : List Directive}

theorem scanf_unassigned (h : s.run d = (some none, t)) : s.scanf (d :: ds) = t.scanf ds := by
  rw [scanf, h]
  rfl

theorem scanf_assigned (h : s.run d = (some (some field), t)) :
    s.scanf (d :: ds) = (field :: (t.scanf ds).1, (t.scanf ds).2) := by
  rw [scanf, h]
  rfl

/-- White space before a field is skipped. -/
theorem run_space (hspaces : ∀ c ∈ spaces, isSpace c = true) (hfield : field ≠ [])
    (hall : ∀ c ∈ field, isSpace c = false) :
    (Scanner.mk (spaces ++ (field ++ behind)) false).run .space
      = (some none, ⟨field ++ behind, false⟩) := by
  obtain ⟨c, cs, rfl⟩ := List.exists_cons_of_ne_nil hfield
  have hc : ¬isSpace c = true := by rw [hall c List.mem_cons_self]; nofun
  have hrest : (spaces ++ (c :: cs ++ behind)).dropWhile isSpace = c :: cs ++ behind := by
    rw [List.dropWhile_append_of_pos hspaces, List.cons_append, List.dropWhile_cons, if_neg hc]
  rw [run, skipSpace, readTo, hrest]
  rfl

/-- A field up to a character that is no longer accepted is assigned. -/
theorem run_set (hfield : field ≠ []) (hwidth : field.length ≤ width)
    (hall : ∀ c ∈ field, accepts c = true) (hb : accepts b = false) :
    (Scanner.mk (field ++ b :: behind) false).run (.set width accepts)
      = (some (some field), ⟨b :: behind, false⟩) := by
  have hread : ((field ++ b :: behind).take width).takeWhile accepts = field := by
    rw [List.take_append, List.take_of_length_le hwidth, List.takeWhile_append_of_pos hall]
    cases width - field.length with
    | zero => exact List.append_nil _
    | succ n =>
        rw [List.take_succ_cons, List.takeWhile_cons, if_neg (by rw [hb]; nofun)]
        exact List.append_nil _
  simp only [run, hread, List.drop_left, if_neg hfield, readTo]
  split <;> rfl

/-- A string up to white space is skipped. -/
theorem run_skipString (hfield : field ≠ []) (hall : ∀ c ∈ field, isSpace c = false)
    (hb : isSpace b = true) :
    (Scanner.mk (field ++ b :: behind) false).run .skipString
      = (some none, ⟨b :: behind, false⟩) := by
  have hspace := @run_space field [] (b :: behind) nofun hfield hall
  have hword : (field ++ b :: behind).dropWhile (fun b => !isSpace b) = b :: behind := by
    rw [List.dropWhile_append_of_pos, List.dropWhile_cons, if_neg (by rw [hb]; nofun)]
    intro c hc
    rw [hall c hc]
    rfl
  rw [List.nil_append, run, Prod.mk.injEq] at hspace
  simp only [run, hspace.2, if_neg (List.append_ne_nil_of_left_ne_nil hfield _), readTo, hword]
  rfl

/-- Nothing but white space: the end of the file. -/
theorem scanf_spaces (hspaces : ∀ c ∈ spaces, isSpace c = true) (ds : List Directive) :
    ((Scanner.mk spaces false).scanf (.space :: .set width accepts :: ds)).1 = [] := by
  have hnone : spaces.dropWhile isSpace = [] := List.dropWhile_eq_nil_iff.mpr hspaces
  have hempty : ([] : List Byte).take width = [] := List.take_nil
  simp [scanf, run, skipSpace, readTo, hnone, hempty]

theorem skipLine_append {line : List Byte} (h : newline ∉ line) (behind : List Byte) :
    skipLine (line ++ newline :: behind) = ⟨behind, false⟩ := by
  induction line with
  | nil => exact if_pos rfl
  | cons b line ih =>
      obtain ⟨hb, hline⟩ := not_or.mp (mt List.mem_cons.mpr h)
      rw [List.cons_append, skipLine, if_neg (Ne.symm hb)]
      exact ih hline

end Fields

end Scanner

end CVerif
