import Mathlib.Data.List.Nodup
import Mathlib.Logic.Relation
import Mathlib.Logic.Function.Basic
import Mathlib.Order.WellFounded

/-!
# CVerif — Forests

Nodes that have lists of children, no node being in two lists or below itself.
A list may get nodes that were in none, unless the new parent is below them.
What a recursion from some nodes down comes to is each node of their trees, once.
-/

namespace CVerif

variable {P : Type*}

structure IsForest (kids : P → List P) : Prop where
  nodup : ∀ p, (kids p).Nodup
  unique : ∀ {c p q}, c ∈ kids p → c ∈ kids q → p = q
  wf : WellFounded fun c p => c ∈ kids p

/-- In no list. -/
def IsRoot (kids : P → List P) (x : P) : Prop := ∀ p, x ∉ kids p

/-- In the tree of `p`, or `p` itself. -/
def Below (kids : P → List P) : P → P → Prop := Relation.ReflTransGen fun c p => c ∈ kids p

section Forest

variable {kids : P → List P}

theorem IsForest.empty : IsForest fun _ : P => [] where
  nodup _ := List.nodup_nil
  unique h := nomatch h
  wf := ⟨fun _ => .intro _ nofun⟩

/-- Fewer children. -/
theorem IsForest.sublist (h : IsForest kids) {kids' : P → List P}
    (hsub : ∀ p, (kids' p).Sublist (kids p)) : IsForest kids' where
  nodup p := (h.nodup p).sublist (hsub p)
  unique hp hq := h.unique ((hsub _).subset hp) ((hsub _).subset hq)
  wf := Subrelation.wf (fun hc => (hsub _).subset hc) h.wf

/-- A node is not below its children. -/
theorem IsForest.not_below_kid (h : IsForest kids) {c p : P} (hc : c ∈ kids p) :
    ¬Below kids p c := fun hbelow =>
  (h.wf.transGen.irrefl).irrefl p (Relation.TransGen.tail' hbelow hc)

/-- Of two nodes above the same one, one is above the other. -/
theorem IsForest.below_total (h : IsForest kids) {x p q : P} (hp : Below kids x p)
    (hq : Below kids x q) : Below kids p q ∨ Below kids q p :=
  Relation.ReflTransGen.total_of_right_unique (fun _ _ _ hb hc => h.unique hb hc) hp hq

/-- What is below one child of a node is not below another. -/
theorem IsForest.kids_apart (h : IsForest kids) {c d p : P} (hc : c ∈ kids p) (hd : d ∈ kids p)
    (hbelow : Below kids c d) : c = d := by
  rcases Relation.ReflTransGen.cases_head hbelow with heq | ⟨q, hq, hqd⟩
  · exact heq
  · obtain rfl := h.unique hc hq
    exact absurd hqd (h.not_below_kid hd)

/-- A list may get other nodes, if they were in no list and the node is not below
them. -/
theorem IsForest.update [DecidableEq P] (h : IsForest kids) {p : P} {xs : List P}
    (hnodup : xs.Nodup) (hnew : ∀ c ∈ xs, c ∈ kids p ∨ IsRoot kids c ∧ ¬Below kids p c) :
    IsForest (Function.update kids p xs) := by
  have hmem : ∀ {c q}, c ∈ Function.update kids p xs q → q = p ∧ c ∈ xs ∨ q ≠ p ∧ c ∈ kids q := by
    intro c q hc
    by_cases hq : q = p
    · subst hq
      rw [Function.update_self] at hc
      exact .inl ⟨rfl, hc⟩
    · rw [Function.update_of_ne hq] at hc
      exact .inr ⟨hq, hc⟩
  -- outside the trees that have the node in them nothing is new
  have hoff : ∀ q, ¬Below kids p q → Acc (fun c q => c ∈ Function.update kids p xs q) q := by
    intro q
    induction q using h.wf.induction with
    | _ q ih =>
      intro hbelow
      refine .intro q fun c hc => ?_
      rcases hmem hc with ⟨rfl, _⟩ | ⟨_, hold⟩
      · exact absurd .refl hbelow
      · exact ih c hold fun hpc => hbelow (hpc.tail hold)
  refine ⟨fun q => ?_, fun {c q r} hq hr => ?_, ⟨fun q => ?_⟩⟩
  · by_cases hq : q = p
    · subst hq
      rw [Function.update_self]
      exact hnodup
    · rw [Function.update_of_ne hq]
      exact h.nodup q
  · rcases hmem hq with ⟨rfl, hc⟩ | ⟨hne, hc⟩ <;> rcases hmem hr with ⟨rfl, hc'⟩ | ⟨hne', hc'⟩
    · rfl
    · rcases hnew c hc with hkid | ⟨hroot, _⟩
      · exact h.unique hkid hc'
      · exact absurd hc' (hroot r)
    · rcases hnew c hc' with hkid | ⟨hroot, _⟩
      · exact h.unique hc hkid
      · exact absurd hc (hroot q)
    · exact h.unique hc hc'
  · induction q using h.wf.induction with
    | _ q ih =>
      refine .intro q fun c hc => ?_
      rcases hmem hc with ⟨rfl, hxs⟩ | ⟨_, hold⟩
      · rcases hnew c hxs with hkid | ⟨_, hbelow⟩
        · exact ih c hkid
        · exact hoff c hbelow
      · exact ih c hold

/-- What is below a node does not change with the list of one that is not. -/
theorem below_update [DecidableEq P] {p y : P} (hp : ¬Below kids p y) (xs : List P) (x : P) :
    Below (Function.update kids p xs) x y ↔ Below kids x y := by
  constructor
  · intro h
    induction h using Relation.ReflTransGen.head_induction_on with
    | refl => exact .refl
    | @head c q hstep _ ih =>
        have hq : q ≠ p := by
          rintro rfl
          exact hp ih
        rw [Function.update_of_ne hq] at hstep
        exact .head hstep ih
  · intro h
    induction h using Relation.ReflTransGen.head_induction_on with
    | refl => exact .refl
    | @head c q hstep hrest ih =>
        have hq : q ≠ p := by
          rintro rfl
          exact hp hrest
        refine .head ?_ ih
        rwa [Function.update_of_ne hq]

/-! ## Down the trees -/

/-- The nodes of the trees of some siblings, in the order of a recursion that
comes to a node before its children and to these before its siblings. -/
inductive Visits (kids : P → List P) : List P → List P → Prop
  | nil : Visits kids [] []
  | cons {p : P} {ps below rest : List P} (h : Visits kids (kids p) below)
      (hs : Visits kids ps rest) : Visits kids (p :: ps) (p :: (below ++ rest))

theorem IsForest.exists_visits (h : IsForest kids) (ps : List P) : ∃ all, Visits kids ps all := by
  have hnode : ∀ p, ∃ below, Visits kids (kids p) below := by
    intro p
    induction p using h.wf.induction with
    | _ p ih =>
      have hlist : ∀ ps : List P, (∀ c ∈ ps, ∃ below, Visits kids (kids c) below) →
          ∃ all, Visits kids ps all := by
        intro ps hps
        induction ps with
        | nil => exact ⟨[], .nil⟩
        | cons c ps ihps =>
            obtain ⟨below, hbelow⟩ := hps c List.mem_cons_self
            obtain ⟨rest, hrest⟩ := ihps fun d hd => hps d (List.mem_cons_of_mem c hd)
            exact ⟨_, .cons hbelow hrest⟩
      exact hlist (kids p) ih
  induction ps with
  | nil => exact ⟨[], .nil⟩
  | cons p ps ih =>
      obtain ⟨below, hbelow⟩ := hnode p
      obtain ⟨rest, hrest⟩ := ih
      exact ⟨_, .cons hbelow hrest⟩

theorem Visits.mem_iff {ps all : List P} (h : Visits kids ps all) (x : P) :
    x ∈ all ↔ ∃ p ∈ ps, Below kids x p := by
  induction h with
  | nil => simp
  | @cons p ps below rest _ _ ih ihs =>
      rw [List.mem_cons, List.mem_append, ih, ihs, List.exists_mem_cons_iff, ← or_assoc]
      refine or_congr_left ⟨?_, fun hx => ?_⟩
      · rintro (rfl | ⟨c, hc, hx⟩)
        · exact .refl
        · exact hx.tail hc
      · rcases Relation.ReflTransGen.cases_tail hx with heq | ⟨c, hxc, hc⟩
        · exact .inl heq.symm
        · exact .inr ⟨c, hc, hxc⟩

/-- No node twice. -/
theorem IsForest.visits_nodup (h : IsForest kids) {ps all : List P} (hvisits : Visits kids ps all)
    (hnodup : ps.Nodup) (hapart : ∀ p ∈ ps, ∀ q ∈ ps, Below kids p q → p = q) : all.Nodup := by
  induction hvisits with
  | nil => exact List.nodup_nil
  | @cons p ps below rest hbelow hrest ih ihs =>
      obtain ⟨hp, hps⟩ := List.nodup_cons.mp hnodup
      have hunder : ∀ x ∈ below, Below kids x p ∧ x ≠ p := by
        intro x hx
        obtain ⟨c, hc, hxc⟩ := (hbelow.mem_iff x).mp hx
        refine ⟨hxc.tail hc, ?_⟩
        rintro rfl
        exact h.not_below_kid hc hxc
      have hother : ∀ x ∈ rest, ¬Below kids x p := by
        intro x hx hxp
        obtain ⟨q, hq, hxq⟩ := (hrest.mem_iff x).mp hx
        have hmem := List.mem_cons_of_mem p hq
        rcases h.below_total hxp hxq with hpq | hqp
        · exact hp (hapart p List.mem_cons_self q hmem hpq ▸ hq)
        · exact hp (hapart q hmem p List.mem_cons_self hqp ▸ hq)
      rw [List.nodup_cons, List.mem_append, not_or, List.nodup_append]
      refine ⟨⟨fun hmem => (hunder p hmem).2 rfl, fun hmem => hother p hmem .refl⟩,
        ih (h.nodup p) fun c hc d hd => h.kids_apart hc hd,
        ihs hps fun q hq r hr => hapart q (List.mem_cons_of_mem p hq) r
          (List.mem_cons_of_mem p hr), ?_⟩
      rintro x hx y hy rfl
      exact hother x hy (hunder x hx).1

end Forest

end CVerif
