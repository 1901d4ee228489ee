import Mathlib.Data.List.GetD
import Mathlib.Tactic.ByContra

/-!
# CVerif — Overlays

Lists written one after the other to the start of one memory, where each
covers what the ones before left there. All of them one behind the other is
what is in the memory afterwards only if the first list that is not empty
stays as it is (`overlays_eq_flatten_iff`): the last element that is not the
filler `z` is found at its place only when it was written there.
-/

namespace CVerif

section Overlays

variable {α : Type}

/-- The memory with a list written to its start. -/
def overlay (mem : Nat → α) (xs : List α) : Nat → α := fun i => xs.getD i (mem i)

/-- The same for one list after the other. -/
def overlays (mem : Nat → α) (xss : List (List α)) : Nat → α := xss.foldl overlay mem

/-- Behind the first list that is not empty there are only fillers, and they
cover only fillers. -/
def Undisturbed (z : α) : List (List α) → Prop
  | [] => True
  | [] :: xss => Undisturbed z xss
  | (x :: xs) :: xss =>
      ∀ ys ∈ xss, (∀ y ∈ ys, y = z) ∧ ∀ y ∈ (x :: xs).take ys.length, y = z

variable {z : α} {mem : Nat → α} {xs : List α} {xss pre post : List (List α)} {i : Nat}

theorem overlay_of_lt (h : i < xs.length) : overlay mem xs i = xs.getD i z := by
  rw [overlay, List.getD_eq_getElem _ _ h, List.getD_eq_getElem _ _ h]

theorem overlay_of_le (h : xs.length ≤ i) : overlay mem xs i = mem i :=
  List.getD_eq_default _ _ h

/-- What is in the memory afterwards was there before, or is from a list. -/
theorem overlays_source (z : α) (mem : Nat → α) (xss : List (List α)) (i : Nat) :
    overlays mem xss i = mem i ∨ ∃ pre xs post, xss = pre ++ xs :: post ∧ i < xs.length ∧
      overlays mem xss i = xs.getD i z := by
  induction xss generalizing mem with
  | nil => exact .inl rfl
  | cons ys xss ih =>
      rcases ih (overlay mem ys) with hkept | ⟨pre, xs, post, rfl, hlt, heq⟩
      · have hkept : overlays mem (ys :: xss) i = overlay mem ys i := hkept
        rw [hkept]
        rcases Nat.lt_or_ge i ys.length with hlt | hle
        · exact .inr ⟨[], ys, xss, rfl, hlt, overlay_of_lt hlt⟩
        · exact .inl (overlay_of_le hle)
      · exact .inr ⟨ys :: pre, xs, post, rfl, hlt, heq⟩

/-- Nothing is written behind the lengths of all lists. -/
theorem overlays_behind (hi : xss.flatten.length ≤ i) : overlays mem xss i = mem i := by
  rcases overlays_source (mem i) mem xss i with hkept | ⟨pre, xs, post, rfl, hlt, -⟩
  · exact hkept
  · have hlength : (pre ++ xs :: post).flatten.length
        = pre.flatten.length + (xs.length + post.flatten.length) := by
      rw [List.flatten_append, List.flatten_cons, List.length_append, List.length_append]
    omega

/-- Fillers cover what they reach with the filler. -/
theorem overlays_fillers (h : ∀ ys ∈ xss, ∀ y ∈ ys, y = z) (mem : Nat → α) (i : Nat) :
    ((∃ ys ∈ xss, i < ys.length) → overlays mem xss i = z) ∧
      ((∀ ys ∈ xss, ys.length ≤ i) → overlays mem xss i = mem i) := by
  induction xss generalizing mem with
  | nil => exact ⟨fun ⟨_, hys, _⟩ => (List.not_mem_nil hys).elim, fun _ => rfl⟩
  | cons ys xss ih =>
      obtain ⟨hreached, hnot⟩ := ih (fun zs hzs => h zs (List.mem_cons_of_mem _ hzs))
        (overlay mem ys)
      constructor
      · intro ⟨zs, hzs, hlt⟩
        by_cases hlater : ∃ zs ∈ xss, i < zs.length
        · exact hreached hlater
        · have hlast : overlays mem (ys :: xss) i = overlay mem ys i :=
            hnot fun zs hzs => Nat.le_of_not_lt fun hlt => hlater ⟨zs, hzs, hlt⟩
          have hys : i < ys.length := by
            rcases List.mem_cons.mp hzs with rfl | hzs
            · exact hlt
            · exact absurd ⟨zs, hzs, hlt⟩ hlater
          rw [hlast, overlay_of_lt hys (z := z), List.getD_eq_getElem _ _ hys]
          exact h ys List.mem_cons_self _ (List.getElem_mem hys)
      · intro hall
        have hlast : overlays mem (ys :: xss) i = overlay mem ys i :=
          hnot fun zs hzs => hall zs (List.mem_cons_of_mem _ hzs)
        rw [hlast, overlay_of_le (hall ys List.mem_cons_self)]

/-- Each list stands in the whole behind all before it. -/
theorem flatten_getD (h : i < xs.length) :
    (pre ++ xs :: post).flatten.getD (pre.flatten.length + i) z = xs.getD i z := by
  rw [List.flatten_append, List.flatten_cons, List.getD_append_right _ _ _ _ (Nat.le_add_right _ _),
    Nat.add_sub_cancel_left, List.getD_append _ _ _ _ h]

/-- An element of the lists is reached by one of them. -/
theorem getD_fillers (h : ∀ ys ∈ xss, ∀ y ∈ ys, y = z) (i : Nat) : xss.flatten.getD i z = z := by
  rcases Nat.lt_or_ge i xss.flatten.length with hlt | hle
  · rw [List.getD_eq_getElem _ _ hlt]
    obtain ⟨ys, hys, hmem⟩ := List.mem_flatten.mp (List.getElem_mem hlt)
    exact h ys hys _ hmem
  · exact List.getD_eq_default _ _ hle

/-- Where the memory has the whole, all behind the first list is filler. -/
theorem rest_filler (hxs : xs ≠ [])
    (h : ∀ i, overlays (fun _ => z) (xs :: xss) i = (xs :: xss).flatten.getD i z) :
    xs.length ≤ i → (xs :: xss).flatten.getD i z = z := by
  -- from the end: what is no filler was written by a later list, and stands further back as well
  induction hn : (xs :: xss).flatten.length - i using Nat.strongRecOn generalizing i with
  | ind n ih =>
      intro hle
      by_contra hne
      rcases overlays_source z (fun _ => z) (xs :: xss) i with hz | ⟨pre, ys, post, heq, hlt, hys⟩
      · exact hne ((h i).symm.trans hz)
      · have hvalue : (xs :: xss).flatten.getD (pre.flatten.length + i) z
            = (xs :: xss).flatten.getD i z := by
          rw [← h i, hys, heq, flatten_getD hlt]
        cases pre with
        | nil =>
            obtain ⟨rfl, -⟩ := List.cons.inj heq
            exact absurd hlt (Nat.not_lt_of_le hle)
        | cons ws pre =>
            obtain ⟨rfl, -⟩ := List.cons.inj heq
            have hpos : 0 < ((xs :: pre).flatten).length := by
              rw [List.flatten_cons, List.length_append]
              exact Nat.add_pos_left (List.length_pos_iff.mpr hxs) _
            have hlast : (ys :: post).flatten.length = ys.length + post.flatten.length := by
              rw [List.flatten_cons, List.length_append]
            have hinside : (xs :: pre).flatten.length + i < (xs :: xss).flatten.length := by
              rw [heq, List.flatten_append, List.length_append, hlast]
              omega
            have hfiller := ih ((xs :: xss).flatten.length - ((xs :: pre).flatten.length + i))
              (by omega) rfl (Nat.le_add_left_of_le hle)
            exact hne (hvalue.symm.trans hfiller)

/-- The element at `i` of the first list and, behind it, fillers. -/
theorem flatten_getD_fillers (h : ∀ ys ∈ xss, ∀ y ∈ ys, y = z) (xs : List α) (i : Nat) :
    (xs :: xss).flatten.getD i z = xs.getD i z := by
  rw [List.flatten_cons]
  rcases Nat.lt_or_ge i xs.length with hlt | hle
  · exact List.getD_append _ _ _ _ hlt
  · rw [List.getD_append_right _ _ _ _ hle, getD_fillers h, List.getD_eq_default _ _ hle]

/-- Where the memory has the whole, a first list that is not empty is not
disturbed: what reaches its elements covers them with fillers. -/
theorem undisturbed_of_overlays {x : α}
    (h : ∀ i, overlays (fun _ => z) ((x :: xs) :: xss) i = ((x :: xs) :: xss).flatten.getD i z) :
    Undisturbed z ((x :: xs) :: xss) := by
  have hfiller : ∀ ys ∈ xss, ∀ y ∈ ys, y = z := by
    intro ys hys y hy
    obtain ⟨pre, post, rfl⟩ := List.append_of_mem hys
    obtain ⟨k, hk, rfl⟩ := List.getElem_of_mem hy
    have hplace := @flatten_getD α z ys ((x :: xs) :: pre) post k hk
    have hbehind : (x :: xs).length ≤ ((x :: xs) :: pre).flatten.length + k := by
      rw [List.flatten_cons, List.length_append]
      omega
    rw [← List.getD_eq_getElem ys z hk, ← hplace]
    exact rest_filler (List.cons_ne_nil x xs) h hbehind
  refine fun ys hys => ⟨hfiller ys hys, fun y hy => ?_⟩
  obtain ⟨k, hk, rfl⟩ := List.getElem_of_mem hy
  rw [List.length_take] at hk
  have hcovered : overlays (fun _ => z) ((x :: xs) :: xss) k = z :=
    (overlays_fillers hfiller (overlay _ (x :: xs)) k).1 ⟨ys, hys, by omega⟩
  rw [List.getElem_take, ← List.getD_eq_getElem (x :: xs) z (by omega),
    ← flatten_getD_fillers hfiller, ← h k, hcovered]

theorem overlays_of_undisturbed {x : α} (h : Undisturbed z ((x :: xs) :: xss)) (i : Nat) :
    overlays (fun _ => z) ((x :: xs) :: xss) i = ((x :: xs) :: xss).flatten.getD i z := by
  have hfiller : ∀ ys ∈ xss, ∀ y ∈ ys, y = z := fun ys hys => (h ys hys).1
  obtain ⟨hcovered, hkept⟩ := overlays_fillers hfiller (overlay (fun _ => z) (x :: xs)) i
  rw [flatten_getD_fillers hfiller]
  by_cases hreached : ∃ ys ∈ xss, i < ys.length
  · obtain ⟨ys, hys, hlt⟩ := hreached
    refine (hcovered ⟨ys, hys, hlt⟩).trans ?_
    rcases Nat.lt_or_ge i (x :: xs).length with hi | hi
    · rw [List.getD_eq_getElem _ _ hi]
      exact ((h ys hys).2 _ (List.mem_take_iff_getElem.mpr ⟨i, by omega, rfl⟩)).symm
    · rw [List.getD_eq_default _ _ hi]
  · exact hkept fun ys hys => Nat.le_of_not_lt fun hlt => hreached ⟨ys, hys, hlt⟩

/-- **The memory has all lists one behind the other exactly when the first
that is not empty is not disturbed.** -/
theorem overlays_eq_flatten_iff :
    (∀ i, overlays (fun _ => z) xss i = xss.flatten.getD i z) ↔ Undisturbed z xss := by
  induction xss with
  | nil => exact iff_of_true (fun _ => rfl) trivial
  | cons xs xss ih =>
      cases xs with
      | nil => exact ih
      | cons x xs => exact ⟨undisturbed_of_overlays, overlays_of_undisturbed⟩

end Overlays

end CVerif
