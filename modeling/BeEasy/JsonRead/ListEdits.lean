import BeEasy.JsonRead.Lists

/-!
# JsonRead — List edits

What the functions on nodes do to the lists of children. As long as the caller
attaches only what is in no list yet, and nothing below itself, each does to one
list what its name says, and `cJSON_Delete` gives back a tree.
-/

namespace BeEasy

open CVerif

namespace JsonRead

section Lists

variable {D : Type} {m m' : Memory D} {kids : Nat → List Nat}

theorem lastItem_eq {before : Option Nat} {x : Nat} {xs : List Nat}
    (h : (linksOf m).Linked before (x :: xs) none)
    (hlive : ∀ y ∈ x :: xs, (m.at y).isSome = true) {rounds : Nat} (hrounds : xs.length < rounds) :
    ∃ last, (x :: xs).getLast? = some last ∧ lastItem m rounds x = .ok last := by
  induction xs generalizing before x rounds with
  | nil =>
      obtain ⟨rounds, rfl⟩ := Nat.exists_eq_add_one_of_ne_zero (Nat.ne_zero_of_lt hrounds)
      obtain ⟨n, hn⟩ := Option.isSome_iff_exists.mp (hlive x List.mem_cons_self)
      have hnext := h.2.1
      rw [linksOf_next hn] at hnext
      refine ⟨x, rfl, ?_⟩
      rw [lastItem, Memory.load_eq hn]
      simp only [bind, Except.bind]
      rw [hnext]
      rfl
  | cons y xs ih =>
      obtain ⟨rounds, rfl⟩ := Nat.exists_eq_add_one_of_ne_zero (Nat.ne_zero_of_lt hrounds)
      obtain ⟨n, hn⟩ := Option.isSome_iff_exists.mp (hlive x List.mem_cons_self)
      have hnext := h.2.1
      rw [linksOf_next hn] at hnext
      obtain ⟨last, hlast, hrun⟩ := ih h.2.2 (fun z hz => hlive z (List.mem_cons_of_mem x hz))
        (Nat.lt_of_succ_lt_succ hrounds)
      refine ⟨last, by rw [List.getLast?_cons_cons]; exact hlast, ?_⟩
      rw [lastItem, Memory.load_eq hn]
      simp only [bind, Except.bind]
      rw [hnext]
      exact hrun

/-- `add_item_to_array` puts an item behind the others. -/
theorem Lists.add (h : Lists m kids) {array item : Nat} (hp : Owner m array)
    (hitem : Attachable m kids array item) :
    ∃ m', addItemToArray m (some array) (some item) = .ok (true, m') ∧ Edited m m' ∧
      Lists m' (Function.update kids array (kids array ++ [item])) := by
  obtain ⟨a, ha, hreference⟩ := hp
  have hp : Owner m array := ⟨a, ha, hreference⟩
  have hchild := h.child array hp
  rw [childOf_eq ha] at hchild
  have hfresh : item ∉ kids array := hitem.root array
  obtain ⟨hnext, hprev⟩ := h.root item hitem.root
  have hnodup : (kids array ++ [item]).Nodup := by
    rw [List.nodup_append_comm]
    exact List.nodup_cons.mpr ⟨hfresh, h.forest.nodup array⟩
  have hnew : ∀ c ∈ kids array ++ [item], c ∈ kids array ∨ Attachable m kids array c := by
    intro c hc
    rcases List.mem_append.mp hc with hc | hc
    · exact .inl hc
    · exact .inr (List.mem_singleton.mp hc ▸ hitem)
  have hgone : ∀ {l : Links Nat}, ∀ q ∈ kids array, q ∉ kids array ++ [item] →
      l.next q = none ∧ l.prev q = none :=
    fun q hq hout => absurd (List.mem_append_left [item] hq) hout
  rw [addItemToArray, Memory.load_eq ha]
  simp only [bind, Except.bind]
  rw [hchild]
  rcases hkids : kids array with _ | ⟨first, others⟩
  · obtain ⟨m', hrun, hedited, hlinks, hchildren⟩ :=
      edit_child (m := m) (p := array) (ha ▸ rfl) (some item)
    simp only [List.head?_nil, hrun]
    refine ⟨m', rfl, hedited, h.relink hp hedited hchildren ?_ (List.nodup_singleton item) ?_ ?_ ?_⟩
    · rw [hlinks]
      exact ⟨hprev, hnext, trivial⟩
    · intro q _ _
      rw [hlinks]
      exact ⟨rfl, rfl⟩
    · rw [hkids]
      exact nofun
    · intro c hc
      exact .inr (List.mem_singleton.mp hc ▸ hitem)
  · have hlinked := h.linked array
    have hlength := length_le_nodes (h.forest.nodup array) (h.live array)
    rw [hkids] at hlinked hlength
    have hlive := h.live array
    rw [hkids] at hlive
    obtain ⟨last, hlast, hwalk⟩ := lastItem_eq hlinked hlive
      (show others.length < m.nodes.length + 1 by rw [List.length_cons] at hlength; omega)
    obtain ⟨m₁, hrun₁, hedited₁, hlinks₁, hchild₁⟩ :=
      edit_next (hlive last (List.mem_of_getLast? hlast)) (some item)
    obtain ⟨m₂, hrun₂, hedited₂, hlinks₂, hchild₂⟩ :=
      edit_prev (m := m₁) (p := item) ((hedited₁.live item).trans hitem.live) (some last)
    have hlinks : linksOf m₂ = (linksOf m).append (kids array).getLast? item := by
      rw [hlinks₂, hlinks₁, hkids, hlast]
      rfl
    simp only [List.head?_cons, hwalk, suffixObject, hrun₁, bind, Except.bind, hrun₂]
    rw [← hkids]
    refine ⟨m₂, rfl, hedited₁.trans hedited₂, h.relink hp (hedited₁.trans hedited₂) ?_ ?_ hnodup
      ?_ hgone hnew⟩
    · rw [hchild₂, hchild₁, update_same]
      rw [h.child array hp, hkids]
      rfl
    · rw [hlinks]
      exact Links.linked_push (h.linked array) (h.forest.nodup array) hfresh hnext
    · intro q hq hout
      rw [hlinks]
      exact Links.keeps_append hq fun heq => hout (heq ▸ List.mem_append_right _ List.mem_cons_self)

/-- Its place in the list. -/
theorem Lists.split (h : Lists m kids) {parent item : Nat} (hitem : item ∈ kids parent) :
    ∃ as bs, kids parent = as ++ item :: bs ∧ (as ++ item :: bs).Nodup ∧
      (linksOf m).Linked none (as ++ item :: bs) none ∧
      (linksOf m).prev item = as.getLast? ∧ (linksOf m).next item = bs.head? ∧
      ∀ x ∈ as ++ item :: bs, (m.at x).isSome = true := by
  obtain ⟨as, bs, hkids⟩ := List.append_of_mem hitem
  have hlinked := h.linked parent
  have hnodup := h.forest.nodup parent
  have hlive := h.live parent
  rw [hkids] at hlinked hnodup hlive
  obtain ⟨_, hprev, hnext, _⟩ := ((linksOf m).linked_middle as bs item).mp hlinked
  exact ⟨as, bs, hkids, hnodup, hlinked, hprev, hnext, hlive⟩

/-- The first of a list, after one has been taken out or replaced. -/
theorem head?_middle {as bs cs : List Nat} {x : Nat} (hnodup : (as ++ x :: bs).Nodup) :
    (as ++ cs).head? = if (as ++ x :: bs).head? = some x then cs.head?
      else (as ++ x :: bs).head? := by
  cases as with
  | nil => exact (if_pos rfl).symm
  | cons a as =>
      refine (if_neg fun heq => ?_).symm
      obtain rfl := Option.some.inj heq
      exact (List.nodup_cons.mp hnodup).1 (List.mem_append_right as List.mem_cons_self)

/-- `cJSON_DetachItemViaPointer` takes an item out of the list that it is in. -/
theorem Lists.detach (h : Lists m kids) {parent item : Nat} (hitem : item ∈ kids parent) :
    ∃ m', detachItemViaPointer m (some parent) (some item) = .ok (some item, m') ∧ Edited m m' ∧
      Lists m' (Function.update kids parent ((kids parent).erase item)) := by
  obtain ⟨as, bs, hkids, hnodup, hlinked, hprev, hnext, hlive⟩ := h.split hitem
  obtain ⟨hnodupA, hnodupB, hxa, hxb, hdisjoint⟩ := Links.nodup_middle hnodup
  have hp := h.owner parent (List.ne_nil_of_mem hitem)
  have hlivex := h.live parent item hitem
  obtain ⟨n, hload, hn, hn', _⟩ := load_pointers hlivex
  have hlast : ∀ p ∈ n.prev, (m.at p).isSome = true := by
    intro p hmem
    rw [hn', hprev] at hmem
    exact hlive p (List.mem_append_left _ (List.mem_of_getLast? hmem))
  have hprevne : (linksOf m).prev item ≠ some item := by
    rw [hprev]
    exact fun heq => hxa (List.mem_of_getLast? heq)
  have hnextne : (linksOf m).next item ≠ some item := by
    rw [hnext]
    exact fun heq => hxb (List.mem_of_mem_head? heq)
  obtain ⟨m₁, hrun₁, he₁, hl₁, hc₁⟩ := editOf_next hlast n.next
  -- what is loaded of the item is still what it was
  obtain ⟨n₁, hload₁, hn₁, hn₁', _⟩ := load_pointers ((he₁.live item).trans hlivex)
  rw [hl₁, hn, hn'] at hn₁ hn₁'
  rw [(Links.keeps_setNextOf hprevne).1] at hn₁
  rw [(Links.keeps_setNextOf hprevne).2] at hn₁'
  have hhead : ∀ p ∈ n₁.next, (m₁.at p).isSome = true := by
    intro p hmem
    rw [hn₁, hnext] at hmem
    rw [he₁.live]
    exact hlive p
      (List.mem_append_right as (List.mem_cons_of_mem item (List.mem_of_mem_head? hmem)))
  obtain ⟨m₂, hrun₂, he₂, hl₂, hc₂⟩ := editOf_prev hhead n₁.prev
  have he₁₂ := he₁.trans he₂
  obtain ⟨n₂, hload₂, hn₂, _, _⟩ := load_pointers ((he₁₂.live item).trans hlivex)
  rw [hl₂, hn₁, hn₁', (Links.keeps_setPrevOf hnextne).1, hl₁, hn, hn',
    (Links.keeps_setNextOf hprevne).1] at hn₂
  obtain ⟨a, hloada, _, _, hchild⟩ := load_pointers ((he₁₂.live parent).trans hp.live)
  rw [hc₂, hc₁] at hchild
  obtain ⟨m₃, hrun₃, he₃, hl₃, hc₃⟩ := editIf_child ((he₁₂.live parent).trans hp.live)
    (a.child = some item) n₂.next
  have he₁₃ := he₁₂.trans he₃
  obtain ⟨m₄, hrun₄, he₄, hl₄, hc₄⟩ := edit_prev ((he₁₃.live item).trans hlivex) none
  have he₁₄ := he₁₃.trans he₄
  obtain ⟨m₅, hrun₅, he₅, hl₅, hc₅⟩ := edit_next ((he₁₄.live item).trans hlivex) none
  have hedited := he₁₄.trans he₅
  have hlinks : linksOf m₅ = (linksOf m).remove item := by
    rw [hl₅, hl₄, hl₃, hl₂, hl₁, hn₁, hn₁', hn, hn']
    rfl
  have hchildren : childOf m₅ = Function.update (childOf m) parent (as ++ bs).head? := by
    rw [hc₅, hc₄, hc₃, hc₂, hc₁, hchild, hn₂, hnext, h.child parent hp, hkids]
    exact congrArg _ (head?_middle hnodup).symm
  have herase : (kids parent).erase item = as ++ bs := by
    rw [hkids, List.erase_append_right _ hxa, List.erase_cons_head]
  obtain ⟨hlinked', hnone, hnone'⟩ := Links.linked_remove hlinked hnodup
  refine ⟨m₅, ?_, hedited, ?_⟩
  · rw [detachItemViaPointer, hload]
    simp only [bind, Except.bind, hrun₁, hload₁, hrun₂, hload₂, hloada, hrun₃, hrun₄, hrun₅]
    rfl
  · rw [herase]
    refine h.relink hp hedited hchildren ?_ (hnodup.sublist (by simp)) ?_ ?_ ?_
    · rw [hlinks]
      exact hlinked'
    · intro q hq _
      rw [hlinks]
      rw [hkids] at hq
      exact Links.keeps_remove hlinked hq
    · intro q hq hout
      rw [hlinks]
      rw [hkids] at hq
      obtain rfl : q = item := by
        simp only [List.mem_append, List.mem_cons] at hq hout
        tauto
      exact ⟨hnone, hnone'⟩
    · intro c hc
      rw [hkids]
      refine .inl ?_
      simp only [List.mem_append, List.mem_cons] at hc ⊢
      tauto

/-- `cJSON_InsertItemInArray` puts an item in front of the one at the place, or
behind the last. -/
theorem Lists.insert (h : Lists m kids) {array newitem : Nat} (hp : Owner m array)
    (hnewitem : Attachable m kids array newitem) {which : Int} (hwhich : 0 ≤ which) :
    ∃ m', insertItemInArray m (some array) which (some newitem) = .ok m' ∧ Edited m m' ∧
      Lists m' (Function.update kids array
        ((kids array).take which.toNat ++ newitem :: (kids array).drop which.toNat)) := by
  rw [insertItemInArray, if_neg (by omega), h.getArrayItem_eq hp]
  simp only [bind, Except.bind]
  cases hfound : (kids array)[which.toNat]? with
  | none =>
      have hle := List.getElem?_eq_none_iff.mp hfound
      obtain ⟨m', hrun, hedited, hlists⟩ := h.add hp hnewitem
      rw [List.take_of_length_le hle, List.drop_of_length_le hle]
      simp only [hrun]
      exact ⟨m', rfl, hedited, hlists⟩
  | some after =>
      obtain ⟨hlt, hget⟩ := List.getElem?_eq_some_iff.mp hfound
      have hdrop : (kids array).drop which.toNat
          = after :: (kids array).drop (which.toNat + 1) := by
        rw [List.drop_eq_getElem_cons hlt, hget]
      have hsplit := List.take_append_drop which.toNat (kids array)
      rw [hdrop] at hsplit ⊢
      generalize (kids array).take which.toNat = as at hsplit ⊢
      generalize (kids array).drop (which.toNat + 1) = bs at hsplit ⊢
      have hkids := hsplit.symm
      have hlinked := h.linked array
      have hnodup := h.forest.nodup array
      have hlive := h.live array
      rw [hkids] at hlinked hnodup hlive
      obtain ⟨_, hprev, _, _⟩ := ((linksOf m).linked_middle as bs after).mp hlinked
      obtain ⟨hnodupA, hnodupB, hxa, hxb, hdisjoint⟩ := Links.nodup_middle hnodup
      have hfresh : newitem ∉ as ++ after :: bs := hkids ▸ hnewitem.root array
      have hne : after ≠ newitem := fun heq =>
        hfresh (heq ▸ List.mem_append_right as List.mem_cons_self)
      have hlivex : (m.at after).isSome = true :=
        hlive after (List.mem_append_right as List.mem_cons_self)
      obtain ⟨m₁, hrun₁, he₁, hl₁, hc₁⟩ := edit_next hnewitem.live (some after)
      obtain ⟨n₁, hload₁, _, hn₁, _⟩ := load_pointers ((he₁.live after).trans hlivex)
      rw [hl₁, (Links.keeps_setNext hne).2, hprev] at hn₁
      obtain ⟨m₂, hrun₂, he₂, hl₂, hc₂⟩ :=
        edit_prev ((he₁.live newitem).trans hnewitem.live) n₁.prev
      have he₁₂ := he₁.trans he₂
      obtain ⟨m₃, hrun₃, he₃, hl₃, hc₃⟩ :=
        edit_prev ((he₁₂.live after).trans hlivex) (some newitem)
      have he₁₃ := he₁₂.trans he₃
      obtain ⟨a, hloada, _, _, hchild⟩ := load_pointers ((he₁₃.live array).trans hp.live)
      rw [hc₃, hc₂, hc₁, h.child array hp, hkids] at hchild
      simp only [notNull, hrun₁, hload₁, hrun₂, hrun₃, hloada]
      have hnodup' : (as ++ newitem :: after :: bs).Nodup := by
        have hperm : (as ++ newitem :: after :: bs).Perm (newitem :: (as ++ after :: bs)) :=
          List.perm_middle
        exact hperm.nodup_iff.mpr (List.nodup_cons.mpr ⟨hfresh, hnodup⟩)
      have hfinish : ∀ {m'}, Edited m m' → linksOf m' = (linksOf m).insert after newitem →
          childOf m' = Function.update (childOf m) array (as ++ newitem :: after :: bs).head? →
            Lists m' (Function.update kids array (as ++ newitem :: after :: bs)) := by
        intro m' hedited hlinks hchildren
        refine h.relink hp hedited hchildren ?_ hnodup' ?_ ?_ ?_
        · rw [hlinks]
          exact Links.linked_insert hlinked hnodup hfresh
        · intro q hq hout
          rw [hkids] at hq
          rw [hlinks]
          exact Links.keeps_insert hlinked hq fun heq =>
            hout (heq ▸ List.mem_append_right as List.mem_cons_self)
        · intro q hq hout
          rw [hkids] at hq
          refine absurd ?_ hout
          simp only [List.mem_append, List.mem_cons] at hq ⊢
          tauto
        · intro c hc
          rw [hkids]
          simp only [List.mem_append, List.mem_cons] at hc ⊢
          rcases hc with hc | rfl | hc
          · exact .inl (.inl hc)
          · exact .inr hnewitem
          · exact .inl (.inr hc)
      cases as with
      | nil =>
          obtain ⟨m₄, hrun₄, he₄, hl₄, hc₄⟩ :=
            edit_child ((he₁₃.live array).trans hp.live) (some newitem)
          have hfirst : a.child = some after := hchild
          rw [if_pos hfirst, hrun₄]
          refine ⟨m₄, rfl, he₁₃.trans he₄, hfinish (he₁₃.trans he₄) ?_ ?_⟩
          · rw [hl₄, hl₃, hl₂, hl₁, hn₁, Links.insert, hprev]
            rfl
          · rw [hc₄, hc₃, hc₂, hc₁]
            rfl
      | cons first as =>
          obtain ⟨last, hlast⟩ := Option.ne_none_iff_exists'.mp
            (show (first :: as).getLast? ≠ none by simp)
          have hother : a.child ≠ some after := by
            rw [hchild]
            exact fun heq => hxa (Option.some.inj heq ▸ List.mem_cons_self)
          obtain ⟨n₃, hload₃, _, hn₃, _⟩ :=
            load_pointers ((he₁₃.live newitem).trans hnewitem.live)
          rw [hl₃, (Links.keeps_setPrev hne.symm).2, hl₂, Links.prev_setPrev, hn₁, hlast] at hn₃
          have hlivelast : (m.at last).isSome = true :=
            hlive last (List.mem_append_left _ (List.mem_of_getLast? hlast))
          obtain ⟨m₄, hrun₄, he₄, hl₄, hc₄⟩ :=
            edit_next ((he₁₃.live last).trans hlivelast) (some newitem)
          rw [if_neg hother, hload₃]
          simp only [hn₃, hrun₄]
          refine ⟨m₄, rfl, he₁₃.trans he₄, hfinish (he₁₃.trans he₄) ?_ ?_⟩
          · rw [hl₄, hl₃, hl₂, hl₁, hn₁, Links.insert, hprev, hlast]
            rfl
          · rw [hc₄, hc₃, hc₂, hc₁, update_same]
            rw [h.child array hp, hkids]
            rfl

/-! ## Deleting -/

theorem free_eq {p : Nat} {n : Node D} (h : m.at p = some n) :
    ∃ m', m.free p = .ok m' ∧ m'.at = Function.update m.at p none ∧
      m'.nodes.length = m.nodes.length ∧ (m.heap.live = m.blocks → m'.heap.live = m'.blocks) := by
  refine ⟨⟨m.heap.release n.blocks, m.nodes.set p none⟩, ?_, at_set h _ none, List.length_set,
    fun haccounted => ?_⟩
  · rw [Memory.free, Memory.load_eq h]
    rfl
  · have hset := blocks_set h (m.heap.release n.blocks) none
    simp only [Option.elim_none, Nat.add_zero, Heap.release] at hset ⊢
    omega

/-- `cJSON_Delete` on some siblings gives back every item of their trees once,
and looks at no item that it has given back. -/
theorem deleteFrom_eq {m₀ : Memory D} (h : Lists m₀ kids) {ps all : List Nat}
    (hvisits : Visits kids ps all) :
    ∀ {m : Memory D} {rounds : Nat} {before : Option Nat},
      (linksOf m₀).Linked before ps none → (∀ x ∈ ps, (m₀.at x).isSome = true) → all.Nodup →
      (∀ x ∈ all, m.at x = m₀.at x) → all.length < rounds →
        ∃ m', deleteFrom rounds m ps.head? = .ok m' ∧
          (∀ x, m'.at x = if x ∈ all then none else m.at x) ∧
          m'.nodes.length = m.nodes.length ∧
          (m.heap.live = m.blocks → m'.heap.live = m'.blocks) := by
  induction hvisits with
  | nil =>
      intro m rounds before _ _ _ _ hrounds
      obtain ⟨rounds, rfl⟩ := Nat.exists_eq_add_one_of_ne_zero (Nat.ne_zero_of_lt hrounds)
      exact ⟨m, rfl, fun _ => (if_neg nofun).symm, rfl, id⟩
  | @cons p ps below rest hbelow hrest ih ihs =>
      intro m rounds before hlinked hlive hnodup hsame hrounds
      obtain ⟨rounds, rfl⟩ := Nat.exists_eq_add_one_of_ne_zero (Nat.ne_zero_of_lt hrounds)
      rw [List.length_cons, List.length_append] at hrounds
      obtain ⟨hp, hnodup⟩ := List.nodup_cons.mp hnodup
      rw [List.mem_append, not_or] at hp
      obtain ⟨hnodupB, hnodupR, hdisjoint⟩ := List.nodup_append.mp hnodup
      obtain ⟨n, hn⟩ := Option.isSome_iff_exists.mp (hlive p List.mem_cons_self)
      have hnm : m.at p = some n := (hsame p List.mem_cons_self).trans hn
      have hnext := hlinked.2.1
      rw [linksOf_next hn, Option.or_none] at hnext
      -- the list of the item, if it is its own
      have howned : (if n.isReference then none else n.child) = (kids p).head? := by
        cases hreference : n.isReference with
        | true =>
            have hkids : kids p = [] := by
              by_contra hne
              obtain ⟨n', hn', hfalse⟩ := h.owner p hne
              obtain rfl := Option.some.inj (hn.symm.trans hn')
              rw [hreference] at hfalse
              cases hfalse
            rw [hkids]
            rfl
        | false =>
            have hchild := h.child p ⟨n, hn, hreference⟩
            rwa [childOf_eq hn] at hchild
      obtain ⟨m₁, hrun₁, hat₁, hlen₁, haccounted₁⟩ := @ih m rounds none (h.linked p) (h.live p)
        hnodupB (fun x hx => hsame x (List.mem_cons_of_mem p (List.mem_append_left rest hx)))
        (by omega)
      have hn₁ : m₁.at p = some n := by rw [hat₁, if_neg hp.1, hnm]
      obtain ⟨m₂, hrun₂, hat₂, hlen₂, haccounted₂⟩ := free_eq hn₁
      have hsame₂ : ∀ x ∈ rest, m₂.at x = m₀.at x := by
        intro x hx
        have hne : x ≠ p := fun heq => hp.2 (heq ▸ hx)
        have hout : x ∉ below := fun hmem => hdisjoint x hmem x hx rfl
        rw [hat₂, Function.update_of_ne hne, hat₁, if_neg hout]
        exact hsame x (List.mem_cons_of_mem p (List.mem_append_right below hx))
      obtain ⟨m₃, hrun₃, hat₃, hlen₃, haccounted₃⟩ := @ihs m₂ rounds (some p) hlinked.2.2
        (fun x hx => hlive x (List.mem_cons_of_mem p hx)) hnodupR hsame₂ (by omega)
      refine ⟨m₃, ?_, fun x => ?_, hlen₃.trans (hlen₂.trans hlen₁), fun heq =>
        haccounted₃ (haccounted₂ (haccounted₁ heq))⟩
      · rw [List.head?_cons, deleteFrom, Memory.load_eq hnm]
        simp only [bind, Except.bind, howned, hrun₁, hrun₂, hnext, hrun₃]
      · rw [hat₃, hat₂]
        by_cases hx : x = p
        · rw [hx, if_neg hp.2, Function.update_self, if_pos List.mem_cons_self]
        · rw [Function.update_of_ne hx, hat₁]
          simp only [List.mem_cons, List.mem_append, hx, false_or]
          by_cases hr : x ∈ rest <;> by_cases hb : x ∈ below <;> simp [hr, hb]

/-- The lists that are left without the trees of some items. -/
def without (kids : Nat → List Nat) (all : List Nat) (p : Nat) : List Nat :=
  if p ∈ all then [] else kids p

/-- `cJSON_Delete` on an item that is in no list gives back its tree. -/
theorem Lists.deleteVisits (h : Lists m kids) {item : Nat} (hlive : (m.at item).isSome = true)
    (hroot : IsRoot kids item) :
    ∃ m' all, JsonRead.delete m (some item) = .ok m' ∧ Visits kids [item] all ∧ all.Nodup ∧
      (∀ x ∈ all, (m.at x).isSome = true) ∧ (∀ x, m'.at x = if x ∈ all then none else m.at x) ∧
      m'.nodes.length = m.nodes.length ∧ m'.heap.live = m'.blocks := by
  obtain ⟨all, hvisits⟩ := h.forest.exists_visits [item]
  have hnodup := h.forest.visits_nodup hvisits (List.nodup_singleton item) (by simp)
  have hlinked : (linksOf m).Linked none [item] none :=
    ⟨(h.root item hroot).2, (h.root item hroot).1, trivial⟩
  have halive : ∀ x ∈ all, (m.at x).isSome = true := by
    intro x hx
    obtain ⟨p, hp, hbelow⟩ := (hvisits.mem_iff x).mp hx
    obtain rfl := List.mem_singleton.mp hp
    rcases Relation.ReflTransGen.cases_head hbelow with rfl | ⟨p, hp, _⟩
    · exact hlive
    · exact h.live p x hp
  obtain ⟨m', hrun, hat, hlen, haccounted⟩ := deleteFrom_eq h hvisits hlinked
    (by simpa using hlive) hnodup (fun _ _ => rfl)
    (Nat.lt_succ_of_le (length_le_nodes hnodup halive))
  exact ⟨m', all, hrun, hvisits, hnodup, halive, hat, hlen, haccounted h.accounted⟩

/-- The lists of all other items are as they were. -/
theorem Lists.delete (h : Lists m kids) {item : Nat} (hlive : (m.at item).isSome = true)
    (hroot : IsRoot kids item) :
    ∃ m' all, delete m (some item) = .ok m' ∧ (∀ x, x ∈ all ↔ Below kids x item) ∧
      (∀ x, m'.at x = if x ∈ all then none else m.at x) ∧ Lists m' (without kids all) := by
  obtain ⟨m', all, hrun, hvisits, _, _, hat, _, haccounted⟩ := h.deleteVisits hlive hroot
  have hmem : ∀ x, x ∈ all ↔ Below kids x item := by
    intro x
    rw [hvisits.mem_iff]
    simp
  -- nothing that is left was below the item
  have hkept : ∀ p c, p ∉ all → c ∈ kids p → c ∉ all := by
    intro p c hp hc hcall
    rcases Relation.ReflTransGen.cases_head ((hmem c).mp hcall) with rfl | ⟨q, hq, hbelow⟩
    · exact hroot p hc
    · obtain rfl := h.forest.unique hc hq
      exact hp ((hmem p).mpr hbelow)
  have hkeep : ∀ x, x ∉ all → m'.at x = m.at x := fun x hx => by rw [hat, if_neg hx]
  have howner : ∀ p, Owner m' p → p ∉ all ∧ Owner m p := by
    rintro p ⟨n, hn, hreference⟩
    by_cases hp : p ∈ all
    · rw [hat, if_pos hp] at hn
      cases hn
    · exact ⟨hp, n, hkeep p hp ▸ hn, hreference⟩
  refine ⟨m', all, hrun, hmem, hat, ?_⟩
  refine ⟨h.forest.sublist fun p => ?_, fun p hp => ?_, fun p hp => ?_, fun p c hc => ?_,
    fun p => ?_, fun x hx => ?_, haccounted⟩
  · unfold without
    split
    · exact List.nil_sublist _
    · exact .refl _
  · unfold without at hp
    split at hp
    · exact absurd rfl hp
    · next hout =>
      obtain ⟨n, hn, hreference⟩ := h.owner p hp
      exact ⟨n, (hkeep p hout).trans hn, hreference⟩
  · obtain ⟨hout, hp⟩ := howner p hp
    rw [without, if_neg hout, ← h.child p hp, childOf, childOf, hkeep p hout]
  · unfold without at hc
    split at hc
    · cases hc
    · next hout =>
      rw [hkeep c (hkept p c hout hc)]
      exact h.live p c hc
  · unfold without
    split
    · trivial
    · next hout =>
      refine (h.linked p).keep fun c hc => ?_
      have hsame := hkeep c (hkept p c hout hc)
      exact ⟨by simp only [linksOf, hsame], by simp only [linksOf, hsame]⟩
  · by_cases hxall : x ∈ all
    · simp only [linksOf, hat, if_pos hxall, Option.bind_none, and_self]
    · have hroot' : IsRoot kids x := by
        intro p hp
        by_cases hpall : p ∈ all
        · exact hxall ((hmem x).mpr (.head hp ((hmem p).mp hpall)))
        · refine hx p ?_
          rwa [without, if_neg hpall]
      simp only [linksOf, hkeep x hxall]
      exact h.root x hroot'

/-- `cJSON_ReplaceItemViaPointer` puts an item into the place of another one, and
deletes that. -/
theorem Lists.replace (h : Lists m kids) {parent item replacement : Nat}
    (hitem : item ∈ kids parent) (hreplacement : Attachable m kids parent replacement) :
    ∃ m' all, replaceItemViaPointer m (some parent) (some item) (some replacement)
        = .ok (true, m') ∧
      (∀ x, x ∈ all ↔ Below kids x item) ∧
      (∀ x, (m'.at x).map Node.data = if x ∈ all then none else (m.at x).map Node.data) ∧
      Lists m' (without (Function.update kids parent
        ((kids parent).replace item replacement)) all) := by
  obtain ⟨as, bs, hkids, hnodup, hlinked, hprev, hnext, hlive⟩ := h.split hitem
  obtain ⟨hnodupA, hnodupB, hxa, hxb, hdisjoint⟩ := Links.nodup_middle hnodup
  have hp := h.owner parent (List.ne_nil_of_mem hitem)
  have hlivex := h.live parent item hitem
  have hfresh : replacement ∉ as ++ item :: bs := hkids ▸ hreplacement.root parent
  have hne : item ≠ replacement := fun heq =>
    hfresh (heq ▸ List.mem_append_right as List.mem_cons_self)
  have hprevne : (linksOf m).prev item ≠ some replacement := by
    rw [hprev]
    exact fun heq => hfresh (List.mem_append_left _ (List.mem_of_getLast? heq))
  have hnextne : (linksOf m).next item ≠ some replacement := by
    rw [hnext]
    exact fun heq => hfresh
      (List.mem_append_right as (List.mem_cons_of_mem item (List.mem_of_mem_head? heq)))
  obtain ⟨n, hload, hn, _, _⟩ := load_pointers hlivex
  obtain ⟨m₁, hrun₁, he₁, hl₁, hc₁⟩ := edit_next hreplacement.live n.next
  obtain ⟨n₁, hload₁, _, hn₁, _⟩ := load_pointers ((he₁.live item).trans hlivex)
  rw [hl₁, (Links.keeps_setNext hne).2] at hn₁
  obtain ⟨m₂, hrun₂, he₂, hl₂, hc₂⟩ :=
    edit_prev ((he₁.live replacement).trans hreplacement.live) n₁.prev
  have he₁₂ := he₁.trans he₂
  obtain ⟨n₂, hload₂, hn₂, _, _⟩ :=
    load_pointers ((he₁₂.live replacement).trans hreplacement.live)
  rw [hl₂, hl₁, Links.next_setPrev, Links.next_setNext, hn] at hn₂
  have hhead : ∀ q ∈ n₂.next, (m₂.at q).isSome = true := by
    intro q hmem
    rw [hn₂, hnext] at hmem
    rw [he₁₂.live]
    exact hlive q
      (List.mem_append_right as (List.mem_cons_of_mem item (List.mem_of_mem_head? hmem)))
  obtain ⟨m₃, hrun₃, he₃, hl₃, hc₃⟩ := editOf_prev hhead (some replacement)
  have he₁₃ := he₁₂.trans he₃
  obtain ⟨n₃, hload₃, _, hn₃, _⟩ :=
    load_pointers ((he₁₃.live replacement).trans hreplacement.live)
  rw [hl₃, hn₂, (Links.keeps_setPrevOf hnextne).2, hl₂, Links.prev_setPrev, hn₁] at hn₃
  have hlast : ∀ q ∈ n₃.prev, (m₃.at q).isSome = true := by
    intro q hmem
    rw [hn₃, hprev] at hmem
    rw [he₁₃.live]
    exact hlive q (List.mem_append_left _ (List.mem_of_getLast? hmem))
  obtain ⟨m₄, hrun₄, he₄, hl₄, hc₄⟩ := editOf_next hlast (some replacement)
  have he₁₄ := he₁₃.trans he₄
  obtain ⟨a, hloada, _, _, hchild⟩ := load_pointers ((he₁₄.live parent).trans hp.live)
  rw [hc₄, hc₃, hc₂, hc₁] at hchild
  obtain ⟨m₅, hrun₅, he₅, hl₅, hc₅⟩ := editIf_child ((he₁₄.live parent).trans hp.live)
    (a.child = some item) (some replacement)
  have he₁₅ := he₁₄.trans he₅
  obtain ⟨m₆, hrun₆, he₆, hl₆, hc₆⟩ := edit_next ((he₁₅.live item).trans hlivex) none
  have he₁₆ := he₁₅.trans he₆
  obtain ⟨m₇, hrun₇, he₇, hl₇, hc₇⟩ := edit_prev ((he₁₆.live item).trans hlivex) none
  have hedited := he₁₆.trans he₇
  have hlinks : linksOf m₇ = (linksOf m).replace item replacement := by
    rw [hl₇, hl₆, hl₅, hl₄, hl₃, hl₂, hl₁, hn₃, hn₂, hn₁, hn]
    rfl
  have hchildren : childOf m₇ = Function.update (childOf m) parent
      (as ++ replacement :: bs).head? := by
    rw [hc₇, hc₆, hc₅, hc₄, hc₃, hc₂, hc₁, hchild, h.child parent hp, hkids]
    exact congrArg _ (@head?_middle as bs (replacement :: bs) item hnodup).symm
  have hreplace : (kids parent).replace item replacement = as ++ replacement :: bs := by
    rw [hkids, List.replace_append, if_neg hxa, List.replace_cons_self]
  have hnodup' : (as ++ replacement :: bs).Nodup := by
    have hperm : (as ++ replacement :: bs).Perm (replacement :: (as ++ bs)) := List.perm_middle
    refine hperm.nodup_iff.mpr (List.nodup_cons.mpr ⟨fun hmem => hfresh ?_, ?_⟩)
    · simp only [List.mem_append, List.mem_cons] at hmem ⊢
      tauto
    · exact hnodup.sublist (by simp)
  obtain ⟨hlinked', hnone, hnone'⟩ := Links.linked_replace hlinked hnodup hfresh
  have hlists : Lists m₇ (Function.update kids parent (as ++ replacement :: bs)) := by
    refine h.relink hp hedited hchildren (hlinks ▸ hlinked') hnodup' ?_ ?_ ?_
    · intro q hq hout
      rw [hkids] at hq
      rw [hlinks]
      exact Links.keeps_replace hlinked hq fun heq =>
        hout (heq ▸ List.mem_append_right as List.mem_cons_self)
    · intro q hq hout
      rw [hkids] at hq
      obtain rfl : q = item := by
        simp only [List.mem_append, List.mem_cons] at hq hout
        tauto
      rw [hlinks]
      exact ⟨hnone, hnone'⟩
    · intro c hc
      rw [hkids]
      simp only [List.mem_append, List.mem_cons] at hc ⊢
      rcases hc with hc | rfl | hc
      · exact .inl (.inl hc)
      · exact .inr hreplacement
      · exact .inl (.inr (.inr hc))
  have hroot : IsRoot (Function.update kids parent (as ++ replacement :: bs)) item := by
    intro q hq
    by_cases heq : q = parent
    · rw [heq, Function.update_self] at hq
      simp only [List.mem_append, List.mem_cons] at hq
      tauto
    · rw [Function.update_of_ne heq] at hq
      exact heq (h.forest.unique hq hitem)
  obtain ⟨m', all, hrun, hmem, hat, hlists'⟩ :=
    hlists.delete ((hedited.live item).trans hlivex) hroot
  refine ⟨m', all, ?_, fun x => ?_, fun x => ?_, hreplace ▸ hlists'⟩
  · rw [replaceItemViaPointer, if_neg hne.symm, hload]
    simp only [bind, Except.bind, hrun₁, hload₁, hrun₂, hload₂, hrun₃, hload₃, hrun₄, hloada,
      hrun₅, hrun₆, hrun₇, hrun]
    rfl
  · rw [hmem, below_update (h.forest.not_below_kid hitem)]
  · rw [hat]
    split
    · rfl
    · exact hedited.data x

end Lists

end JsonRead

end BeEasy
