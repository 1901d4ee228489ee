import BeEasy.JsonRead.Edits

/-!
# JsonRead — Trees

The tree that an item in memory is the root of, as long as there are no
references in it. Edits of the lists in memory are edits of the tree, a look into
an object is one into the tree, and `cJSON_Delete` gives back the blocks that are
counted for the tree.
-/

namespace BeEasy

open CVerif

namespace JsonRead

variable {D : Type} {m m' : Memory D} {kids kids' : Nat → List Nat}

/-- The item of a node, with these children. -/
def Node.item (n : Node D) (child : List (Item D)) : Item D where
  type := n.type
  isReference := n.isReference
  stringIsConst := n.stringIsConst
  valuestring := n.valuestring
  valueint := n.valueint
  valuedouble := n.valuedouble
  string := n.string
  child

mutual

/-- The node at `p` is the root of the tree `item`. -/
inductive Shows (m : Memory D) (kids : Nat → List Nat) : Nat → Item D → Prop
  | node {p : Nat} {n : Node D} {child : List (Item D)} (hn : m.at p = some n)
      (howner : n.isReference = false) (hs : ShowsAll m kids (kids p) child) :
      Shows m kids p (n.item child)

inductive ShowsAll (m : Memory D) (kids : Nat → List Nat) : List Nat → List (Item D) → Prop
  | nil : ShowsAll m kids [] []
  | cons {p : Nat} {ps : List Nat} {item : Item D} {items : List (Item D)}
      (h : Shows m kids p item) (hs : ShowsAll m kids ps items) :
      ShowsAll m kids (p :: ps) (item :: items)

end

theorem showsAll_iff {ps : List Nat} {items : List (Item D)} :
    ShowsAll m kids ps items ↔ List.Forall₂ (Shows m kids) ps items := by
  induction ps generalizing items with
  | nil => exact ⟨fun h => by cases h; exact .nil, fun h => by cases h; exact .nil⟩
  | cons p ps ih =>
      constructor
      · rintro (_ | ⟨h, hs⟩)
        exact .cons h (ih.mp hs)
      · rintro (_ | ⟨h, hs⟩)
        exact .cons h (ih.mpr hs)

theorem Shows.owner {p : Nat} {item : Item D} (h : Shows m kids p item) : Owner m p := by
  obtain ⟨hn, howner, _⟩ := h
  exact ⟨_, hn, howner⟩

theorem Shows.child {p : Nat} {item : Item D} (h : Shows m kids p item) :
    List.Forall₂ (Shows m kids) (kids p) item.child := by
  obtain ⟨_, _, hs⟩ := h
  exact showsAll_iff.mp hs

theorem Shows.name {p : Nat} {item : Item D} (h : Shows m kids p item) :
    nameOf m p = item.string := by
  obtain ⟨hn, _, _⟩ := h
  rw [nameOf, hn]
  rfl

/-- The node that a tree has at its root. -/
theorem Shows.root {p : Nat} {item : Item D} (h : Shows m kids p item) :
    ∃ n, m.at p = some n ∧ n.type = item.type ∧ n.valuestring = item.valuestring ∧
      n.valuedouble = item.valuedouble := by
  obtain ⟨hn, _, _⟩ := h
  exact ⟨_, hn, rfl, rfl, rfl⟩

/-- The same tree, but for the children of its root. -/
theorem Shows.relist {p : Nat} {item : Item D} {child : List (Item D)} (h : Shows m kids p item)
    (hdata : (m'.at p).map Node.data = (m.at p).map Node.data)
    (hs : List.Forall₂ (Shows m' kids') (kids' p) child) :
    Shows m' kids' p { item with child } := by
  obtain @⟨_, n, _, hn, howner, _⟩ := h
  rw [hn, Option.map_some, Option.map_eq_some_iff] at hdata
  obtain ⟨n', hn', heq⟩ := hdata
  have hitem : n'.item child = n.item child := by
    have hsame : n'.data.item child = n.data.item child := by rw [heq]
    exact hsame
  have howner' : n'.isReference = false := by
    have hsame : n'.data.isReference = n.data.isReference := by rw [heq]
    exact hsame.trans howner
  have hshows : Shows m' kids' p (n'.item child) :=
    .node hn' howner' (showsAll_iff.mpr hs)
  rw [hitem] at hshows
  exact hshows

/-- A tree is what it was where nothing in it has changed. -/
theorem Shows.frame (hforest : IsForest kids) {p : Nat} {item : Item D} (h : Shows m kids p item)
    (hsame : ∀ y, Below kids y p →
      (m'.at y).map Node.data = (m.at y).map Node.data ∧ kids' y = kids y) :
    Shows m' kids' p item := by
  induction p using hforest.wf.induction generalizing item with
  | _ p ih =>
    have hs : List.Forall₂ (Shows m' kids') (kids p) item.child :=
      forall₂_of_mem h.child fun c hc item _ hshows =>
        ih c hc hshows fun y hy => hsame y (hy.tail hc)
    rw [← (hsame p .refl).2] at hs
    have hshows := h.relist (hsame p .refl).1 hs
    cases item
    exact hshows

/-! ## Edits -/

/-- A list changed, to one of trees that the parent is not in. -/
theorem Shows.edit (hforest : IsForest kids) (hedited : Edited m m') {p : Nat} {item : Item D}
    (h : Shows m kids p item) {xs : List Nat} {child : List (Item D)}
    (hs : List.Forall₂ (Shows m kids) xs child) (hapart : ∀ x ∈ xs, ¬Below kids p x) :
    Shows m' (Function.update kids p xs) p { item with child } := by
  refine h.relist (hedited.data p) ?_
  rw [Function.update_self]
  refine forall₂_of_mem hs fun x hx item _ hshows => hshows.frame hforest fun y hy => ?_
  have hne : y ≠ p := fun heq => hapart x hx (heq ▸ hy)
  exact ⟨hedited.data y, Function.update_of_ne hne xs kids⟩

/-- A tree that is taken out of another one, or put into it, is the same. -/
theorem Shows.moved (hforest : IsForest kids) (hedited : Edited m m') {p c : Nat} {item : Item D}
    (h : Shows m kids c item) (hapart : ¬Below kids p c) (xs : List Nat) :
    Shows m' (Function.update kids p xs) c item := by
  refine h.frame hforest fun y hy => ?_
  have hne : y ≠ p := fun heq => hapart (heq ▸ hy)
  exact ⟨hedited.data y, Function.update_of_ne hne xs kids⟩

theorem forall₂_eraseIdx {R : Nat → Item D → Prop} {xs : List Nat} {items : List (Item D)}
    (h : List.Forall₂ R xs items) (i : Nat) :
    List.Forall₂ R (xs.eraseIdx i) (items.eraseIdx i) := by
  rw [List.eraseIdx_eq_take_drop_succ, List.eraseIdx_eq_take_drop_succ]
  exact List.rel_append (List.forall₂_take i h) (List.forall₂_drop (i + 1) h)

theorem forall₂_set {R : Nat → Item D → Prop} {xs : List Nat} {items : List (Item D)}
    (h : List.Forall₂ R xs items) {c : Nat} {item : Item D} (hr : R c item) (i : Nat) :
    List.Forall₂ R (xs.set i c) (items.set i item) := by
  induction h generalizing i with
  | nil => exact .nil
  | cons hr' hs ih =>
      cases i with
      | zero => exact .cons hr hs
      | succ i => exact .cons hr' (ih i)

theorem isSome_getElem? (xs : List Nat) (i : Nat) : xs[i]?.isSome = true ↔ i < xs.length := by
  rw [Option.isSome_iff_ne_none, ne_eq, List.getElem?_eq_none_iff, Nat.not_le]

/-- What is in a list after an item was replaced there is not in its tree, or above
it. -/
theorem Lists.apart_set (h : Lists m kids) {array c : Nat} (hc : Attachable m kids array c)
    {i old x : Nat} (hold : old ∈ (kids array)[i]?) (hx : x ∈ (kids array).set i c) :
    ¬Below kids x old ∧ ¬Below kids old x := by
  obtain ⟨hlt, rfl⟩ := List.getElem?_eq_some_iff.mp hold
  have hkid := List.getElem_mem hlt
  have hnodup := h.forest.nodup array
  rw [List.set_eq_take_append_cons_drop, if_pos hlt] at hx
  have hsplit : kids array
      = (kids array).take i ++ (kids array)[i] :: (kids array).drop (i + 1) := by
    rw [← List.drop_eq_getElem_cons hlt, List.take_append_drop]
  rw [hsplit] at hnodup
  obtain ⟨_, _, htake, hdrop, _⟩ := Links.nodup_middle hnodup
  -- another child
  have hother : ∀ y ∈ kids array, y ≠ (kids array)[i] →
      ¬Below kids y (kids array)[i] ∧ ¬Below kids (kids array)[i] y := fun y hy hne =>
    ⟨fun hbelow => hne (h.forest.kids_apart hy hkid hbelow),
      fun hbelow => hne (h.forest.kids_apart hkid hy hbelow).symm⟩
  rcases List.mem_append.mp hx with hx | hx
  · exact hother x (List.mem_of_mem_take hx) fun heq => htake (heq ▸ hx)
  rcases List.mem_cons.mp hx with rfl | hx
  · refine ⟨fun hbelow => ?_, fun hbelow => ?_⟩
    · rcases Relation.ReflTransGen.cases_head hbelow with heq | ⟨q, hq, _⟩
      · exact hc.root array (heq ▸ hkid)
      · exact hc.root q hq
    · rcases Relation.ReflTransGen.cases_head hbelow with heq | ⟨q, hq, hqc⟩
      · exact hc.root array (heq ▸ hkid)
      · exact hc.apart (h.forest.unique hkid hq ▸ hqc)
  · exact hother x (List.mem_of_mem_drop hx) fun heq => hdrop (heq ▸ hx)

/-- The functions for arrays do to the tree of an item what those on lists do to its
children, and an item that is detached keeps its own tree. -/
theorem arrays_show (h : Lists m kids) {array : Nat} {a : Item D} (ha : Shows m kids array a) :
    (∀ i : Nat, ∃ r m' kids', detachItemFromArray m (some array) i = .ok (r, m') ∧
      Lists m' kids' ∧ Shows m' kids' array { a with child := a.child.eraseIdx i } ∧
      (r.isSome = true ↔ i < a.child.length) ∧
      ∀ c ∈ r, ∃ item ∈ a.child[i]?, Shows m' kids' c item) ∧
    ∀ c item, Attachable m kids array c → Shows m kids c item →
      (∃ m' kids', addItemToArray m (some array) (some c) = .ok (true, m') ∧ Lists m' kids' ∧
        Shows m' kids' array { a with child := a.child ++ [item] }) ∧
      (∀ i : Nat, ∃ m' kids', insertItemInArray m (some array) i (some c) = .ok m' ∧
        Lists m' kids' ∧ Shows m' kids' array
          { a with child := a.child.take i ++ item :: a.child.drop i }) ∧
      ∀ i : Nat, ∃ m' kids', replaceItemInArray m (some array) i (some c) = .ok m' ∧
        Lists m' kids' ∧ Shows m' kids' array { a with child := a.child.set i item } := by
  refine ⟨fun i => ?_, fun c item hc hitem => ?_⟩
  · obtain ⟨m', hrun, hedited, hlists⟩ := h.detachAt ha.owner i
    have hkid : ∀ x ∈ kids array, ¬Below kids array x := fun x => h.forest.not_below_kid
    obtain ⟨hlength, hget⟩ := List.forall₂_iff_get.mp ha.child
    refine ⟨_, m', _, hrun, hlists, ha.edit h.forest hedited (forall₂_eraseIdx ha.child i)
      fun x hx => hkid x (List.mem_of_mem_eraseIdx hx), ?_, fun c hc => ?_⟩
    · rw [isSome_getElem?, hlength]
    · obtain ⟨hlt, rfl⟩ := List.getElem?_eq_some_iff.mp hc
      have hlt' : i < a.child.length := hlength ▸ hlt
      exact ⟨a.child[i], List.getElem?_eq_getElem hlt',
        (hget i hlt hlt').moved h.forest hedited (hkid _ (List.getElem_mem hlt)) _⟩
  have hapart : ∀ x, x ∈ kids array ∨ x = c → ¬Below kids array x := by
    rintro x (hx | rfl)
    · exact h.forest.not_below_kid hx
    · exact hc.apart
  refine ⟨?_, fun i => ?_, fun i => ?_⟩
  · obtain ⟨m', hrun, hedited, hlists⟩ := h.add ha.owner hc
    refine ⟨m', _, hrun, hlists, ha.edit h.forest hedited
      (List.rel_append ha.child (.cons hitem .nil)) fun x hx => hapart x ?_⟩
    exact (List.mem_append.mp hx).imp id List.mem_singleton.mp
  · obtain ⟨m', hrun, hedited, hlists⟩ := h.insert ha.owner hc (Int.natCast_nonneg i)
    rw [Int.toNat_natCast] at hlists
    refine ⟨m', _, hrun, hlists, ha.edit h.forest hedited
      (List.rel_append (List.forall₂_take i ha.child)
        (.cons hitem (List.forall₂_drop i ha.child))) fun x hx => hapart x ?_⟩
    rcases List.mem_append.mp hx with hx | hx
    · exact .inl (List.mem_of_mem_take hx)
    · exact (List.mem_cons.mp hx).symm.imp List.mem_of_mem_drop id
  · obtain ⟨m', all, hrun, hmem, hdata, hlists⟩ := h.replaceAt ha.owner hc i
    refine ⟨m', _, hrun, hlists, ?_⟩
    have hout : ∀ y, (∀ old ∈ (kids array)[i]?, ¬Below kids y old) → y ∉ all := by
      intro y hy hall
      obtain ⟨old, hold, hbelow⟩ := (hmem y).mp hall
      exact hy old hold hbelow
    have harray : array ∉ all :=
      hout array fun old hold => h.forest.not_below_kid (List.mem_of_getElem? hold)
    refine ha.relist (by rw [hdata, if_neg harray]) ?_
    rw [without, if_neg harray, Function.update_self]
    refine forall₂_of_mem (forall₂_set ha.child hitem i) fun x hx item _ hshows =>
      hshows.frame h.forest fun y hy => ?_
    have hy' : y ∉ all := by
      refine hout y fun old hold hbelow => ?_
      obtain ⟨hxold, holdx⟩ := h.apart_set hc hold hx
      exact (h.forest.below_total hy hbelow).elim hxold holdx
    have hne : y ≠ array := by
      rintro rfl
      exact hapart x (List.mem_or_eq_of_mem_set hx) hy
    rw [hdata, if_neg hy', without, if_neg hy', Function.update_of_ne hne]
    exact ⟨rfl, rfl⟩

/-! ## Looking up -/

theorem find?_forall₂ {R : Nat → Item D → Prop} {xs : List Nat} {items : List (Item D)}
    (h : List.Forall₂ R xs items) {p : Nat → Bool} {q : Item D → Bool}
    (hpq : ∀ x item, R x item → p x = q item) :
    (xs.find? p = none ∧ items.find? q = none) ∨
      ∃ x item, xs.find? p = some x ∧ items.find? q = some item ∧ R x item := by
  induction h with
  | nil => exact .inl ⟨rfl, rfl⟩
  | @cons x item xs items hr _ ih =>
      rw [List.find?_cons, List.find?_cons, hpq x item hr]
      cases q item with
      | true => exact .inr ⟨x, item, rfl, rfl, hr⟩
      | false => exact ih

/-- What a look into an object comes to, in memory and in its tree. -/
theorem Shows.look (h : Lists m kids) {object : Nat} {a : Item D} (ha : Shows m kids object a)
    (name : Option CStr) (caseSensitive : Bool) :
    (getObjectItemAt m (some object) name caseSensitive = .ok none ∧
      getObjectItem a.child name caseSensitive = none) ∨
    ∃ c item, getObjectItemAt m (some object) name caseSensitive = .ok (some c) ∧
      getObjectItem a.child name caseSensitive = some item ∧ c ∈ kids object ∧
      Shows m kids c item := by
  cases name with
  | none => exact .inl ⟨rfl, rfl⟩
  | some name =>
      have hstops : ∀ x (item : Item D), Shows m kids x item →
          stopsAt caseSensitive name (nameOf m x) = stopsAt caseSensitive name item.string :=
        fun x item hshows => by rw [hshows.name]
      rw [h.getObjectItemAt_eq ha.owner name caseSensitive, getObjectItem]
      rcases find?_forall₂ ha.child hstops with ⟨hnone, hnone'⟩ | ⟨x, item, hx, hitem, hshows⟩
      · exact .inl ⟨by rw [hnone]; rfl, by rw [hnone']⟩
      rw [hx, hitem, Option.filter_some, hshows.name]
      cases hstring : item.string with
      | none => exact .inl ⟨rfl, by simp [hstring]⟩
      | some s => exact .inr ⟨x, item, rfl, by simp [hstring], List.mem_of_find?_eq_some hx, hshows⟩

/-- A look into an object in memory is one into its tree. -/
theorem getObjectItemAt_shows (h : Lists m kids) {object : Nat} {a : Item D}
    (ha : Shows m kids object a) (name : Option CStr) (caseSensitive : Bool) :
    ∃ r, getObjectItemAt m (some object) name caseSensitive = .ok r ∧
      (r = none ↔ getObjectItem a.child name caseSensitive = none) ∧
      ∀ c ∈ r, ∃ item, getObjectItem a.child name caseSensitive = some item ∧
        Shows m kids c item := by
  obtain ⟨hrun, hlook⟩ | ⟨c, item, hrun, hlook, _, hshows⟩ := ha.look h name caseSensitive
  · exact ⟨none, hrun, iff_of_true rfl hlook, fun _ hc => absurd hc (Option.not_mem_none _)⟩
  · refine ⟨some c, hrun, ?_, ?_⟩
    · rw [hlook]
      exact iff_of_false (Option.some_ne_none _) (Option.some_ne_none _)
    · rintro _ ⟨⟩
      exact ⟨item, hlook, hshows⟩

/-! ## Deleting -/

/-- The blocks of the item at a pointer. -/
def blocksAt (m : Memory D) (p : Nat) : Nat := (m.at p).elim 0 Node.blocks

theorem blocks_gone {all : List Nat} (hnodup : all.Nodup)
    (hlive : ∀ x ∈ all, (m.at x).isSome = true)
    (hat : ∀ x, m'.at x = if x ∈ all then none else m.at x)
    (hlength : m'.nodes.length = m.nodes.length) :
    m.blocks = m'.blocks + (all.map (blocksAt m)).sum := by
  induction all generalizing m with
  | nil =>
      have hnodes : m'.nodes = m.nodes := by
        refine List.ext_getElem hlength fun i hi hi' => ?_
        have hsame := (hat i).trans (if_neg List.not_mem_nil)
        unfold Memory.at at hsame
        rwa [List.getElem?_eq_getElem hi, List.getElem?_eq_getElem hi', Option.join_some,
          Option.join_some] at hsame
      rw [Memory.blocks, Memory.blocks, hnodes]
      rfl
  | cons x rest ih =>
      obtain ⟨hx, hnodup⟩ := List.nodup_cons.mp hnodup
      obtain ⟨n, hn⟩ := Option.isSome_iff_exists.mp (hlive x List.mem_cons_self)
      have hset := at_set hn m.heap none
      have hother : ∀ y ∈ rest, Memory.at ⟨m.heap, m.nodes.set x none⟩ y = m.at y := by
        intro y hy
        have hne : y ≠ x := fun heq => hx (heq ▸ hy)
        rw [hset, Function.update_of_ne hne]
      have hrest := @ih ⟨m.heap, m.nodes.set x none⟩ hnodup
        (fun y hy => by rw [hother y hy]; exact hlive y (List.mem_cons_of_mem x hy))
        (fun y => by
          rw [hat, hset]
          by_cases hy : y = x
          · rw [hy, if_pos List.mem_cons_self, Function.update_self, ite_self]
          · rw [Function.update_of_ne hy]
            simp only [List.mem_cons, hy, false_or])
        (hlength.trans List.length_set.symm)
      have hsum : rest.map (blocksAt ⟨m.heap, m.nodes.set x none⟩) = rest.map (blocksAt m) :=
        List.map_congr_left fun y hy => by rw [blocksAt, blocksAt, hother y hy]
      have hblocks := blocks_set hn m.heap none
      rw [hsum] at hrest
      rw [List.map_cons, List.sum_cons, blocksAt, hn, Option.elim_some]
      simp only [Option.elim_none] at hblocks
      omega

/-- What a recursion down some trees comes to has the blocks of the trees. -/
theorem visits_blocks {ps all : List Nat} (h : Visits kids ps all) {items : List (Item D)}
    (hs : List.Forall₂ (Shows m kids) ps items) : (all.map (blocksAt m)).sum = blocksOf items := by
  induction h generalizing items with
  | nil =>
      cases hs
      rfl
  | @cons p ps below rest _ _ ih ihs =>
      obtain _ | @⟨_, item, _, items, hshows, hs⟩ := hs
      have hbelow := ih hshows.child
      have hrest := ihs hs
      obtain @⟨_, n, child, hn, howner, _⟩ := hshows
      have hroot : blocksAt m p = n.blocks := by rw [blocksAt, hn, Option.elim_some]
      rw [List.map_cons, List.map_append, List.sum_cons, List.sum_append, hroot, hbelow, hrest,
        blocksOf, Item.blocks_eq, Node.blocks]
      simp only [Node.item, howner, Bool.false_eq_true, if_false]
      omega

/-- `cJSON_Delete` gives back as many blocks as the tree has, and all its items. -/
theorem delete_shows (h : Lists m kids) {p : Nat} {item : Item D} (hitem : Shows m kids p item)
    (hroot : IsRoot kids p) :
    ∃ m', delete m (some p) = .ok m' ∧ m'.heap.live + item.blocks = m.heap.live ∧
      ∀ x, m'.at x = none ↔ m.at x = none ∨ Below kids x p := by
  obtain ⟨m', all, hrun, hvisits, hnodup, hlive, hat, hlength, haccounted⟩ :=
    h.deleteVisits hitem.owner.live hroot
  have hblocks := blocks_gone hnodup hlive hat hlength
  rw [visits_blocks hvisits (.cons hitem .nil), ← h.accounted, ← haccounted] at hblocks
  refine ⟨m', hrun, ?_, fun x => ?_⟩
  · rw [hblocks, blocksOf, blocksOf, Nat.add_zero]
  · have hmem : x ∈ all ↔ Below kids x p := by
      rw [hvisits.mem_iff]
      simp
    rw [hat, ← hmem]
    by_cases hx : x ∈ all <;> simp [hx]

/-! ## Two objects -/

/-- `{"a":1}`. -/
def oneMember : Item (Fin 10) := itemOf digits (.object [([97], .number digits.one)])

theorem oneMember_proper (caseSensitive : Bool) : oneMember.Proper caseSensitive := by
  refine ⟨fun _ => ⟨?_, List.nodup_singleton _⟩, ⟨nofun, trivial⟩, trivial⟩
  rintro item (_ | ⟨_, ⟨⟩⟩)
  exact Option.some_ne_none _

theorem twoObjects_shows {p c : Nat} (hn : twoObjects.at p = some (objectNode c))
    (hn' : twoObjects.at c = some memberNode) (hp : twoLists p = [c]) (hc : twoLists c = []) :
    Shows twoObjects twoLists p oneMember := by
  have hmember : Shows twoObjects twoLists c (memberNode.item []) := .node hn' rfl (hc ▸ .nil)
  exact .node hn rfl (hp ▸ .cons hmember .nil)

theorem first_shows : Shows twoObjects twoLists 0 oneMember :=
  twoObjects_shows rfl rfl rfl rfl

theorem second_shows : Shows twoObjects twoLists 2 oneMember :=
  twoObjects_shows rfl rfl rfl rfl

theorem arrays_show_twoObjects :
    ∃ m' kids', addItemToArray twoObjects (some 0) (some 2) = .ok (true, m') ∧
      Lists m' kids' ∧ Shows m' kids' 0
        { oneMember with child := oneMember.child ++ [oneMember] } :=
  ((arrays_show twoObjects_lists first_shows).2 2 _ twoObjects_attachable second_shows).1

/-- Under the name `a`. -/
theorem getObjectItemAt_shows_twoObjects :
    ∃ r, getObjectItemAt twoObjects (some 0) (some (CStr.at [97])) true = .ok r ∧
      (r = none ↔ getObjectItem oneMember.child (some (CStr.at [97])) true = none) ∧
      ∀ c ∈ r, ∃ item, getObjectItem oneMember.child (some (CStr.at [97])) true = some item ∧
        Shows twoObjects twoLists c item :=
  getObjectItemAt_shows twoObjects_lists first_shows (some (CStr.at [97])) true

theorem delete_shows_twoObjects :
    ∃ m', delete twoObjects (some 2) = .ok m' ∧
      m'.heap.live + oneMember.blocks = twoObjects.heap.live ∧
      ∀ x, m'.at x = none ↔ twoObjects.at x = none ∨ Below twoLists x 2 :=
  delete_shows twoObjects_lists second_shows (twoLists_root (by decide) (by decide))

end JsonRead

end BeEasy
