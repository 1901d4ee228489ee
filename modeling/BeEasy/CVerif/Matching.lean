import Mathlib.Data.List.Forall2
import Mathlib.Data.List.Nodup

/-!
# CVerif — Matching

Two lists matched to one another, element by element in order, or by keys in
any order. The relation between the elements need only be known on the lists,
so that a recursion over trees can use the lemmas for the children.
-/

namespace CVerif

variable {α β γ κ : Type*}

theorem forall₂_of_mem {R S : α → β → Prop} {as : List α} {bs : List β}
    (h : List.Forall₂ R as bs) (himp : ∀ a ∈ as, ∀ b ∈ bs, R a b → S a b) :
    List.Forall₂ S as bs := by
  induction h with
  | nil => exact .nil
  | @cons a b as bs hab _ ih =>
      refine .cons (himp a List.mem_cons_self b List.mem_cons_self hab) (ih ?_)
      exact fun x hx y hy => himp x (List.mem_cons_of_mem a hx) y (List.mem_cons_of_mem b hy)

theorem forall₂_flip_of_mem {R : α → β → Prop} {S : β → α → Prop} {as : List α} {bs : List β}
    (h : List.Forall₂ R as bs) (himp : ∀ a ∈ as, ∀ b ∈ bs, R a b → S b a) :
    List.Forall₂ S bs as :=
  List.Forall₂.flip (@forall₂_of_mem _ _ R (flip S) as bs h himp)

theorem forall₂_trans_of_mem {R : α → β → Prop} {S : β → γ → Prop} {T : α → γ → Prop}
    {as : List α} {bs : List β} {cs : List γ} (h : List.Forall₂ R as bs)
    (h' : List.Forall₂ S bs cs)
    (htrans : ∀ a ∈ as, ∀ b ∈ bs, ∀ c ∈ cs, R a b → S b c → T a c) : List.Forall₂ T as cs := by
  induction h generalizing cs with
  | nil =>
      cases h'
      exact .nil
  | @cons a b as bs hab _ ih =>
      cases h' with
      | @cons _ c _ cs hbc htail =>
          refine .cons
            (htrans a List.mem_cons_self b List.mem_cons_self c List.mem_cons_self hab hbc)
            (ih htail ?_)
          exact fun x hx y hy z hz => htrans x (List.mem_cons_of_mem a hx) y
            (List.mem_cons_of_mem b hy) z (List.mem_cons_of_mem c hz)

theorem forall₂_exists_right {R : α → β → Prop} {as : List α} {bs : List β}
    (h : List.Forall₂ R as bs) : ∀ a ∈ as, ∃ b ∈ bs, R a b := by
  induction h with
  | nil => exact nofun
  | @cons a b as bs hab _ ih =>
      rw [List.forall_mem_cons]
      refine ⟨⟨b, List.mem_cons_self, hab⟩, fun x hx => ?_⟩
      obtain ⟨y, hy, hxy⟩ := ih x hx
      exact ⟨y, List.mem_cons_of_mem b hy, hxy⟩

theorem forall₂_exists_left {R : α → β → Prop} {as : List α} {bs : List β}
    (h : List.Forall₂ R as bs) : ∀ b ∈ bs, ∃ a ∈ as, R a b :=
  forall₂_exists_right (List.Forall₂.flip h)

/-- Where the keys in each list differ, and each element of one has its match of
the same key in the other, the first can be brought into the order of the
second. -/
theorem exists_perm_forall₂ {f : α → κ} {g : β → κ} {R : α → β → Prop} {as : List α}
    {bs : List β} (has : (as.map f).Nodup) (hbs : (bs.map g).Nodup)
    (hleft : ∀ a ∈ as, ∃ b ∈ bs, f a = g b ∧ R a b) (hright : ∀ b ∈ bs, ∃ a ∈ as, f a = g b) :
    ∃ as', as.Perm as' ∧ List.Forall₂ (fun a b => f a = g b ∧ R a b) as' bs := by
  induction bs generalizing as with
  | nil =>
      cases as with
      | nil => exact ⟨[], .nil, .nil⟩
      | cons a as =>
          obtain ⟨b, hb, _⟩ := hleft a List.mem_cons_self
          cases hb
  | cons b bs ih =>
      obtain ⟨a, ha, hkey⟩ := hright b List.mem_cons_self
      obtain ⟨b', hb', hkey', hab'⟩ := hleft a ha
      obtain rfl : b' = b :=
        List.inj_on_of_nodup_map hbs hb' List.mem_cons_self (hkey'.symm.trans hkey)
      obtain ⟨front, back, rfl⟩ := List.append_of_mem ha
      have hperm : (front ++ a :: back).Perm (a :: (front ++ back)) := List.perm_middle
      have hnodup := (hperm.map f).nodup_iff.mp has
      rw [List.map_cons, List.nodup_cons] at hnodup hbs
      -- what is left has its matches in what is left of the other list
      have hother : ∀ x ∈ front ++ back, f x ≠ g b' := fun x hx hne =>
        hnodup.1 (hkey ▸ hne ▸ List.mem_map_of_mem hx)
      obtain ⟨as', hperm', hmatch⟩ := ih hnodup.2 hbs.2
        (fun x hx => by
          obtain ⟨y, hy, hxy⟩ := hleft x (hperm.symm.subset (List.mem_cons_of_mem a hx))
          rcases List.mem_cons.mp hy with rfl | hy
          · exact absurd hxy.1 (hother x hx)
          · exact ⟨y, hy, hxy⟩)
        (fun y hy => by
          obtain ⟨x, hx, hxy⟩ := hright y (List.mem_cons_of_mem b' hy)
          rcases List.mem_cons.mp (hperm.subset hx) with rfl | hx
          · exact absurd (hkey.symm.trans hxy ▸ List.mem_map_of_mem hy) hbs.1
          · exact ⟨x, hx, hxy⟩)
      exact ⟨a :: as', hperm.trans (hperm'.cons a), .cons ⟨hkey, hab'⟩ hmatch⟩

end CVerif
