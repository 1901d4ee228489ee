import BeEasy.CVerif.ShiftRegister
import Mathlib.Data.List.Basic

/-!
# CVerif — BurstErrors

Why a register of width `w` tells two messages apart that differ in a burst
no longer than itself. A message is a list of `k`-bit symbols, each put into
the low end of the register before `k` steps (`feed`). Symbols that fit in
the register together are one word (`packed`) put into it at once
(`foldl_feed`), and when the polynomial has its top bit set no step loses
anything (`step_injective`): so two different bursts leave two registers,
and what follows keeps them different (`foldl_feed_ne`).
-/

namespace CVerif.ShiftRegister

variable {w k : Nat} (poly : BitVec w)

/-- One symbol: into the low end, and a step for each of its bits. -/
def feed (c : BitVec w) (b : BitVec k) : BitVec w := steps poly k (c ^^^ b.setWidth w)

/-- Symbols side by side in one word, the first in the lowest bits. -/
def packed : List (BitVec k) → BitVec w
  | [] => 0#w
  | b :: bs => b.setWidth w ^^^ (packed bs <<< k)

variable {poly}

/-! ## No step loses anything -/

theorem xor_left_cancel {a b c : BitVec w} (h : c ^^^ a = c ^^^ b) : a = b := by
  rw [← BitVec.zero_xor (x := a), ← BitVec.xor_self (x := c), BitVec.xor_assoc, h,
    ← BitVec.xor_assoc, BitVec.xor_self, BitVec.zero_xor]

theorem xor_right_cancel {a b c : BitVec w} (h : a ^^^ c = b ^^^ c) : a = b := by
  rw [BitVec.xor_comm a, BitVec.xor_comm b] at h
  exact xor_left_cancel h

theorem step_eq_zero (hpoly : poly.msb = true) {c : BitVec w} (h : step poly c = 0#w) :
    c = 0#w := by
  cases hlow : c.getLsbD 0 with
  | true =>
      -- the shifted register would have the polynomial's top bit
      rw [step, if_pos hlow] at h
      have htop := congrArg BitVec.msb h
      rw [BitVec.msb_xor, hpoly, BitVec.msb_eq_getLsbD_last, BitVec.getLsbD_ushiftRight] at htop
      have hover : c.getLsbD (1 + (w - 1)) = false := c.getLsbD_of_ge _ (by omega)
      rw [hover, BitVec.msb_zero] at htop
      cases htop
  | false =>
      rw [step, if_neg (by rw [hlow]; exact Bool.false_ne_true)] at h
      apply BitVec.eq_of_getLsbD_eq
      intro i _
      cases i with
      | zero => simpa using hlow
      | succ i =>
          have hbit := congrArg (BitVec.getLsbD · i) h
          simpa [BitVec.getLsbD_ushiftRight, Nat.add_comm] using hbit

/-- With the top bit of the polynomial set, a step can be undone. -/
theorem step_injective (hpoly : poly.msb = true) : Function.Injective (step poly) := by
  intro a b hab
  have hdiff : step poly (a ^^^ b) = 0#w := by
    rw [step_xor, hab, BitVec.xor_self]
  have hzero : a ^^^ b = b ^^^ b := by
    rw [BitVec.xor_self]
    exact step_eq_zero hpoly hdiff
  exact xor_right_cancel hzero

theorem steps_injective (hpoly : poly.msb = true) (n : Nat) :
    Function.Injective (steps poly n) := (step_injective hpoly).iterate n

theorem feed_injective (hpoly : poly.msb = true) (b : BitVec k) :
    Function.Injective fun c => feed poly c b := by
  intro c d h
  exact xor_right_cancel (steps_injective hpoly k h)

theorem foldl_feed_injective (hpoly : poly.msb = true) (bs : List (BitVec k)) :
    Function.Injective fun c => bs.foldl (feed poly) c := by
  induction bs with
  | nil => exact fun _ _ h => h
  | cons b bs ih => exact fun _ _ h => feed_injective hpoly b (ih h)

/-! ## A burst is one word -/

theorem getLsbD_packed_of_ge (bs : List (BitVec k)) {i : Nat} (h : k * bs.length ≤ i) :
    (packed bs : BitVec w).getLsbD i = false := by
  induction bs generalizing i with
  | nil => exact BitVec.getLsbD_zero
  | cons b bs ih =>
      rw [List.length_cons, Nat.mul_succ] at h
      have hb : b.getLsbD i = false := b.getLsbD_of_ge i (by omega)
      have hrest := ih (i := i - k) (by omega)
      simp [packed, BitVec.getLsbD_xor, BitVec.getLsbD_setWidth, BitVec.getLsbD_shiftLeft, hb,
        hrest]

/-- As long as they fit, symbols fed one after the other are one word put in
at once. -/
theorem foldl_feed {bs : List (BitVec k)} (hfit : k * bs.length ≤ w) (c : BitVec w) :
    bs.foldl (feed poly) c = steps poly (k * bs.length) (c ^^^ packed bs) := by
  induction bs generalizing c with
  | nil =>
      show c = steps poly 0 (c ^^^ 0#w)
      rw [BitVec.xor_zero]
      rfl
  | cons b bs ih =>
      rw [List.length_cons, Nat.mul_succ] at hfit
      -- the symbols to come are only moved down while the first is worked in
      have hclear : ∀ i, i < k → ((packed bs : BitVec w) <<< k).getLsbD i = false := by
        intro i hi
        simp [BitVec.getLsbD_shiftLeft, hi]
      have hdown : ((packed bs : BitVec w) <<< k) >>> k = packed bs := by
        apply BitVec.eq_of_getLsbD_eq
        intro i _
        rw [BitVec.getLsbD_ushiftRight, BitVec.getLsbD_shiftLeft]
        by_cases hi : k + i < w
        · simp [hi]
        · have hover : (packed bs : BitVec w).getLsbD i = false :=
            getLsbD_packed_of_ge bs (by omega)
          simp [hi, hover]
      have hfirst : feed poly c b ^^^ packed bs = steps poly k (c ^^^ packed (b :: bs)) := by
        rw [packed, ← BitVec.xor_assoc, steps_xor, steps_of_clear poly hclear, hdown, feed]
      rw [List.foldl_cons, ih (by omega), hfirst, List.length_cons, Nat.mul_succ, steps, steps,
        steps, ← Function.iterate_add_apply]

theorem packed_injective {as bs : List (BitVec k)} (hlen : as.length = bs.length)
    (hfit : k * as.length ≤ w) (h : (packed as : BitVec w) = packed bs) : as = bs := by
  induction as generalizing bs with
  | nil => exact (List.length_eq_zero_iff.mp hlen.symm).symm
  | cons a as ih =>
      cases bs with
      | nil => cases hlen
      | cons b bs =>
          rw [List.length_cons, Nat.mul_succ] at hfit
          have hlen' : as.length = bs.length := Nat.succ.inj hlen
          have hbit : ∀ i, i < w →
              (a.getLsbD i ^^ (!decide (i < k) && (packed as : BitVec w).getLsbD (i - k)))
                = (b.getLsbD i ^^ (!decide (i < k) && (packed bs : BitVec w).getLsbD (i - k))) := by
            intro i hi
            have := congrArg (BitVec.getLsbD · i) h
            simp only [packed, BitVec.getLsbD_xor, BitVec.getLsbD_setWidth,
              BitVec.getLsbD_shiftLeft, hi, decide_true, Bool.true_and] at this
            exact this
          have hhead : a = b := by
            apply BitVec.eq_of_getLsbD_eq
            intro i hi
            simpa [hi] using hbit i (by omega)
          have htail : (packed as : BitVec w) = packed bs := by
            apply BitVec.eq_of_getLsbD_eq
            intro i _
            by_cases hi : k + i < w
            · have hnlt : ¬ k + i < k := by omega
              have ha : a.getLsbD (k + i) = false := a.getLsbD_of_ge _ (by omega)
              have hb : b.getLsbD (k + i) = false := b.getLsbD_of_ge _ (by omega)
              simpa [hnlt, ha, hb] using hbit (k + i) hi
            · rw [getLsbD_packed_of_ge as (by omega), getLsbD_packed_of_ge bs (by rw [← hlen']; omega)]
          rw [hhead, ih hlen' (by omega) htail]

/-- **Bursts are told apart**: two messages that differ, but only in symbols
that fit in the register together, leave different registers. -/
theorem foldl_feed_ne (hpoly : poly.msb = true) {p u v s : List (BitVec k)}
    (hlen : u.length = v.length) (hfit : k * u.length ≤ w) (hne : u ≠ v) (c : BitVec w) :
    (p ++ u ++ s).foldl (feed poly) c ≠ (p ++ v ++ s).foldl (feed poly) c := by
  intro h
  rw [List.foldl_append, List.foldl_append, List.foldl_append, List.foldl_append] at h
  have hburst : u.foldl (feed poly) (p.foldl (feed poly) c)
      = v.foldl (feed poly) (p.foldl (feed poly) c) := foldl_feed_injective hpoly s h
  have hu : u.foldl (feed poly) (p.foldl (feed poly) c)
      = steps poly (k * u.length) (p.foldl (feed poly) c ^^^ packed u) := foldl_feed hfit _
  have hv : v.foldl (feed poly) (p.foldl (feed poly) c)
      = steps poly (k * u.length) (p.foldl (feed poly) c ^^^ packed v) := by
    rw [hlen] at hfit ⊢
    exact foldl_feed hfit _
  rw [hu, hv] at hburst
  exact hne (packed_injective hlen hfit (xor_left_cancel (steps_injective hpoly _ hburst)))

/-! ## Windows -/

/-- Lists that differ only inside a window agree before and after it. -/
theorem window_split {α : Type} {a b : List α} {start size : Nat}
    (h : ∀ i, a[i]? ≠ b[i]? → start ≤ i ∧ i < start + size) :
    a.take start = b.take start ∧ a.drop (start + size) = b.drop (start + size) := by
  constructor
  · apply List.ext_getElem?
    intro i
    by_cases hi : i < start
    · rw [List.getElem?_take_of_lt hi, List.getElem?_take_of_lt hi]
      by_contra hne
      have := h i hne
      omega
    · rw [List.getElem?_take_eq_none (by omega), List.getElem?_take_eq_none (by omega)]
  · apply List.ext_getElem?
    intro i
    rw [List.getElem?_drop, List.getElem?_drop]
    by_contra hne
    have := h _ hne
    omega

end CVerif.ShiftRegister
