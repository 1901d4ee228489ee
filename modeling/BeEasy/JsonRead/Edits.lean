import BeEasy.JsonRead.ListEdits
import Mathlib.Data.List.Find

/-!
# JsonRead — Edits

The functions that also allocate, for a name or a new item, keep the lists in
order whether they are granted the block or not. What is added to an object is
found under its name, and on an array the functions do what those on lists do.
-/

namespace BeEasy

open CVerif

namespace JsonRead

section Names

variable {D : Type} {m m' : Memory D} {kids : Nat → List Nat} {grants : Nat → Bool}

/-- `cJSON_strdup` of a string. -/
theorem strdup_some (grants : Nat → Bool) (s : CStr) (heap : Heap) :
    (∃ heap', strdup grants (some s) heap = (some (some s), heap') ∧
      heap'.live = heap.live + 1) ∨
    ∃ heap', strdup grants (some s) heap = (none, heap') ∧ heap'.live = heap.live ∧
      ∃ n, grants n = false := by
  obtain ⟨heap', hrun, hlive⟩ | hrefused := strdup_cases grants (some s) heap
  · exact .inl ⟨heap', hrun, hlive⟩
  · exact .inr hrefused

/-- Another name for an item, and the heap to go with it. -/
theorem Lists.rename (h : Lists m kids) {p : Nat} (hp : (m.at p).isSome = true)
    (string : Option CStr) (stringIsConst : Bool) (heap : Heap)
    (hheap : ∀ n, m.at p = some n → heap.live + n.nameBlocks
      = m.heap.live + if stringIsConst then 0 else string.toList.length) :
    ∃ m', Memory.edit { m with heap } p ({ · with string, stringIsConst }) = .ok m' ∧
      Lists m' kids ∧ (∀ q, Owner m' q ↔ Owner m q) ∧
      (∀ q, (m'.at q).isSome = (m.at q).isSome) ∧
      ∀ q, nameOf m' q = if q = p then string else nameOf m q := by
  obtain ⟨n, hn⟩ := Option.isSome_iff_exists.mp hp
  have hat := at_set hn heap (some { n with string, stringIsConst })
  have hstore := @Lists.store _ m kids h p n { n with string, stringIsConst } hn rfl rfl rfl rfl
    heap
  refine ⟨⟨heap, m.nodes.set p (some { n with string, stringIsConst })⟩, ?_, ?_, fun q => ?_,
    fun q => ?_, fun q => ?_⟩
  · have hload : Memory.load { m with heap } p = .ok n := Memory.load_eq hn
    rw [Memory.edit, hload]
    rfl
  · refine hstore ?_
    have hlive := hheap n hn
    simp only [Node.blocks, Node.nameBlocks] at hlive ⊢
    omega
  · unfold Owner
    rw [hat]
    by_cases hq : q = p
    · rw [hq, Function.update_self, hn]
      simp
    · rw [Function.update_of_ne hq]
  · rw [hat]
    by_cases hq : q = p
    · rw [hq, Function.update_self, hn, Option.isSome_some, Option.isSome_some]
    · rw [Function.update_of_ne hq]
  · rw [nameOf, nameOf, hat]
    by_cases hq : q = p
    · rw [hq, Function.update_self, if_pos rfl, Option.bind_some]
    · rw [Function.update_of_ne hq, if_neg hq]

theorem Attachable.of_same {parent c : Nat} (h : Attachable m kids parent c)
    (hlive : (m'.at c).isSome = (m.at c).isSome) : Attachable m' kids parent c :=
  ⟨hlive.trans h.live, h.root, h.apart⟩

/-- An item of the heap owns the blocks that are counted for it. -/
theorem nameBlocks_le (h : Lists m kids) {p : Nat} {n : Node D} (hn : m.at p = some n) :
    n.nameBlocks ≤ m.heap.live := by
  have hset := blocks_set hn m.heap none
  have haccounted := h.accounted
  simp only [Option.elim_none, Node.blocks] at hset
  rw [Node.nameBlocks]
  omega

theorem Edited.nameOf (h : Edited m m') (p : Nat) : JsonRead.nameOf m' p = JsonRead.nameOf m p := by
  have hname : ∀ m : Memory D, JsonRead.nameOf m p = ((m.at p).map Node.data).bind Node.string := by
    intro m
    rw [JsonRead.nameOf, Option.bind_map]
    rfl
  rw [hname, hname, h.data]

/-- `add_item_to_object` gives the item its name and puts it behind the others, or
changes no item. -/
theorem Lists.addToObject (h : Lists m kids) {object item : Nat} (hp : Owner m object)
    (hitem : Attachable m kids object item) (string : CStr) (constantKey : Bool) :
    ∃ added m', addItemToObject grants m (some object) (some string) (some item) constantKey
        = .ok (added, m') ∧
      (added = true → Owner m' object ∧
        Lists m' (Function.update kids object (kids object ++ [item])) ∧
        ∀ q, nameOf m' q = if q = item then some string else nameOf m q) ∧
      (added = false → Lists m' kids ∧ m'.nodes = m.nodes ∧ constantKey = false ∧
        ∃ n, grants n = false) := by
  obtain ⟨n, hn⟩ := Option.isSome_iff_exists.mp hitem.live
  have hle := nameBlocks_le h hn
  have hfinish : ∀ {heap : Heap}, heap.live = m.heap.live + (if constantKey then 0 else 1) →
      ∃ m', (do
          let m ← Memory.edit { m with heap := heap.release n.nameBlocks } item
            ({ · with string := some string, stringIsConst := constantKey })
          addItemToArray m (some object) (some item)) = .ok (true, m') ∧
        Owner m' object ∧ Lists m' (Function.update kids object (kids object ++ [item])) ∧
        ∀ q, nameOf m' q = if q = item then some string else nameOf m q := by
    intro heap hheap
    obtain ⟨m₁, hrun, hlists, howner, hlive, hname⟩ := h.rename hitem.live (some string) constantKey
      (heap.release n.nameBlocks) (fun n' hn' => by
        obtain rfl := Option.some.inj (hn.symm.trans hn')
        simp only [Heap.release, Option.toList_some, List.length_singleton]
        omega)
    obtain ⟨m₂, hrun₂, hedited, hlists₂⟩ :=
      hlists.add ((howner object).mpr hp) (hitem.of_same (hlive item))
    refine ⟨m₂, ?_, hedited.owner.mpr ((howner object).mpr hp), hlists₂, fun q => ?_⟩
    · simp only [bind, Except.bind, hrun, hrun₂]
    · rw [hedited.nameOf, hname]
  rw [addItemToObject]
  cases constantKey with
  | true =>
      obtain ⟨m', hrun, hlists⟩ := @hfinish m.heap rfl
      refine ⟨true, m', ?_, fun _ => hlists, fun heq => Bool.noConfusion heq⟩
      simp only [if_true, Memory.load_eq hn]
      exact hrun
  | false =>
      obtain ⟨heap, hdup, hlive⟩ | ⟨heap, hdup, hlive, hrefused⟩ :=
        strdup_some grants string m.heap
      · obtain ⟨m', hrun, hlists⟩ := hfinish hlive
        refine ⟨true, m', ?_, fun _ => hlists, fun heq => Bool.noConfusion heq⟩
        simp only [Bool.false_eq_true, if_false, hdup, Memory.load_eq hn]
        exact hrun
      · refine ⟨false, { m with heap }, ?_, fun heq => absurd heq Bool.false_ne_true,
          fun _ => ⟨?_, rfl, rfl, hrefused⟩⟩
        · simp only [Bool.false_eq_true, if_false, hdup]
          rfl
        · exact h.data rfl rfl (fun _ => Iff.rfl) (fun _ => rfl) (hlive.trans h.accounted)

/-- `replace_item_in_object` gives the item its name in any case, and puts it into
the place of the one it finds. -/
theorem Lists.replaceInObject (h : Lists m kids) {object item : Nat} (hp : Owner m object)
    (hitem : Attachable m kids object item) (string : CStr) (caseSensitive : Bool) :
    ∃ m' kids', replaceItemInObject grants m (some object) (some string) (some item)
        caseSensitive = .ok (true, m') ∧ Lists m' kids' := by
  obtain ⟨n, hn⟩ := Option.isSome_iff_exists.mp hitem.live
  have hle := nameBlocks_le h hn
  have hkey : ∃ newKey heap, strdup grants (some string) (m.heap.release n.nameBlocks)
        = (newKey, heap) ∧
      heap.live + n.nameBlocks = m.heap.live + newKey.join.toList.length := by
    obtain ⟨heap, hdup, hlive⟩ | ⟨heap, hdup, hlive, _⟩ :=
      strdup_some grants string (m.heap.release n.nameBlocks)
    all_goals
      refine ⟨_, heap, hdup, ?_⟩
      simp only [Heap.release, Option.join_some, Option.join_none, Option.toList_some,
        Option.toList_none, List.length_singleton, List.length_nil] at hlive ⊢
      omega
  obtain ⟨newKey, heap, hdup, hlive⟩ := hkey
  obtain ⟨m₁, hrun₁, hlists, howner, hlive₁, _⟩ := h.rename hitem.live newKey.join false heap
    (fun n' hn' => by
      obtain rfl := Option.some.inj (hn.symm.trans hn')
      exact hlive)
  obtain ⟨found, hfind, hmem⟩ :=
    hlists.getObjectItemAt_mem ((howner object).mpr hp) (some string) caseSensitive
  have hrun : replaceItemInObject grants m (some object) (some string) (some item) caseSensitive
      = (replaceItemViaPointer m₁ (some object) found (some item)).map
          fun r => (true, r.2) := by
    rw [replaceItemInObject, Memory.load_eq hn]
    simp only [bind, Except.bind, hdup, hrun₁, hfind]
    cases replaceItemViaPointer m₁ (some object) found (some item) <;> rfl
  rw [hrun]
  cases found with
  | none => exact ⟨m₁, kids, rfl, hlists⟩
  | some c =>
      obtain ⟨m₂, all, hreplace, _, _, hlists₂⟩ :=
        hlists.replace (hmem c rfl) (hitem.of_same (hlive₁ item))
      exact ⟨m₂, _, by rw [hreplace]; rfl, hlists₂⟩

/-- Nothing is lost with what has no children. -/
theorem without_eq {all : List Nat} (h : ∀ x ∈ all, kids x = []) : without kids all = kids := by
  funext p
  unfold without
  split
  · next hp => exact (h p hp).symm
  · rfl

theorem Lists.deleteLeaf (h : Lists m kids) {item : Nat} (hlive : (m.at item).isSome = true)
    (hroot : IsRoot kids item) (hleaf : kids item = []) :
    ∃ m', JsonRead.delete m (some item) = .ok m' ∧ Lists m' kids ∧ m'.at item = none ∧
      ∀ x, x ≠ item → m'.at x = m.at x := by
  obtain ⟨m', all, hrun, hmem, hat, hlists⟩ := h.delete hlive hroot
  have hall : ∀ x ∈ all, x = item := by
    intro x hx
    rcases Relation.ReflTransGen.cases_tail ((hmem x).mp hx) with rfl | ⟨c, _, hc⟩
    · rfl
    · rw [hleaf] at hc
      cases hc
  rw [without_eq fun x hx => hall x hx ▸ hleaf] at hlists
  refine ⟨m', hrun, hlists, ?_, fun x hx => ?_⟩
  · rw [hat, if_pos ((hmem item).mpr .refl)]
  · rw [hat, if_neg fun hmem => hx (hall x hmem)]

/-- The same, where it does not matter whether there was memory for the name. -/
theorem Lists.addNamed (h : Lists m kids) (grants : Nat → Bool) {object item : Nat}
    (hp : Owner m object) (hitem : Attachable m kids object item) (string : CStr)
    (constantKey : Bool) :
    ∃ r kids', addItemToObject grants m (some object) (some string) (some item) constantKey
      = .ok r ∧ Lists r.2 kids' := by
  obtain ⟨added, m', hrun, hyes, hno⟩ :=
    @Lists.addToObject _ m kids grants h object item hp hitem string constantKey
  cases added with
  | true => exact ⟨_, _, hrun, (hyes rfl).2.1⟩
  | false => exact ⟨_, _, hrun, (hno rfl).1⟩

/-! ## New items -/

/-- What a function that makes an item returns: NULL, or an item in no list and
with no children. -/
def Created (m : Memory D) (kids : Nat → List Nat) (r : Option Nat) : Prop :=
  ∀ p ∈ r, (m.at p).isSome = true ∧ IsRoot kids p ∧ kids p = []

theorem Created.nothing : Created m kids none := fun _ hp => absurd hp (Option.not_mem_none _)

/-- The items that there were are the same. -/
def Extends (m m' : Memory D) : Prop := ∀ p, (m.at p).isSome = true → m'.at p = m.at p

theorem Owner.of_at {p : Nat} (hp : Owner m p) (hat : m'.at p = m.at p) : Owner m' p := by
  obtain ⟨n, hn, hreference⟩ := hp
  exact ⟨n, hat.trans hn, hreference⟩

theorem Extends.owner (h : Extends m m') {p : Nat} (hp : Owner m p) : Owner m' p :=
  hp.of_at (h p hp.live)

theorem new_refused {n : Node D} (h : (m.new grants n).1 = none) :
    (m.new grants n).2.nodes = m.nodes := by
  unfold Memory.new at h ⊢
  by_cases hgrants : grants m.heap.calls = true
  · rw [Heap.allocate_granted hgrants] at h
    cases h
  · rw [Heap.allocate_refused hgrants]

theorem Extends.of_same {r : Option Nat} (hfresh : ∀ p ∈ r, m.at p = none)
    (hsame : ∀ x, x ∉ r → m'.at x = m.at x) : Extends m m' := by
  intro x hx
  refine hsame x fun hr => ?_
  rw [hfresh x hr] at hx
  cases hx

theorem Lists.newItem (h : Lists m kids) (grants : Nat → Bool) {n : Node D} (hnext : n.next = none)
    (hprev : n.prev = none) (hchild : n.isReference = false → n.child = none)
    (hblocks : n.blocks = 1) :
    ∃ r m', m.new grants n = (r, m') ∧ Lists m' kids ∧ Created m' kids r ∧
      (∀ x, x ∉ r → m'.at x = m.at x) ∧ (∀ p ∈ r, m.at p = none ∧ m'.at p = some n) ∧
      ((∀ k, grants k = true) → r.isSome = true) := by
  obtain ⟨hlists, hcreated⟩ := h.new grants hnext hprev hchild hblocks
  have hrefused := @new_refused _ m grants n
  have hgranted : (∀ k, grants k = true) → (m.new grants n).1.isSome = true := by
    intro hall
    unfold Memory.new
    rw [Heap.allocate_granted (hall _)]
    rfl
  rcases hnew : m.new grants n with ⟨r, m'⟩
  rw [hnew] at hlists hcreated hrefused hgranted
  have hat : ∀ p ∈ r, m.at p = none ∧ m'.at = Function.update m.at p (some n) :=
    fun p hp => (hcreated p hp).2.2
  refine ⟨r, m', rfl, hlists, fun p hp => ?_, fun x hx => ?_, fun p hp => ?_, hgranted⟩
  · refine ⟨?_, (hcreated p hp).1, (hcreated p hp).2.1⟩
    rw [(hat p hp).2, Function.update_self]
    rfl
  · cases r with
    | none =>
        have hnodes : m'.nodes = m.nodes := hrefused rfl
        rw [Memory.at, hnodes]
        rfl
    | some p =>
        rw [(hat p rfl).2, Function.update_of_ne fun heq => hx (congrArg some heq.symm)]
  · rw [(hat p hp).2, Function.update_self]
    exact ⟨(hat p hp).1, rfl⟩

/-- `create_reference` shares the list of the original, but does not own it. -/
theorem Lists.createReference (h : Lists m kids) (grants : Nat → Bool) {item : Nat}
    (hitem : (m.at item).isSome = true) :
    ∃ r m', JsonRead.createReference grants m (some item) = .ok (r, m') ∧ Lists m' kids ∧
      Created m' kids r ∧ Extends m m' ∧ ∀ p ∈ r, m.at p = none := by
  obtain ⟨n, hn⟩ := Option.isSome_iff_exists.mp hitem
  obtain ⟨r, m', hnew, hlists, hcreated, hsame, hfresh, _⟩ := @Lists.newItem _ m kids h grants
    { n with string := none, isReference := true, next := none, prev := none } rfl rfl nofun
    (by simp [Node.blocks])
  refine ⟨r, m', ?_, hlists, hcreated, .of_same (fun p hp => (hfresh p hp).1) hsame,
    fun p hp => (hfresh p hp).1⟩
  rw [JsonRead.createReference, Memory.load_eq hn]
  exact congrArg Except.ok hnew

theorem Lists.createText {dbl : Doubles} {m : Memory dbl.Double} (h : Lists m kids)
    (grants : Nat → Bool) (type : Kind) (string : Option CStr) :
    ∃ r m', JsonRead.createText dbl grants m type string = .ok (r, m') ∧ Lists m' kids ∧
      Created m' kids r ∧ (∀ x, x ∉ r → m'.at x = m.at x) ∧
      (∀ p ∈ r, m.at p = none ∧
        m'.at p = some { Node.zero dbl with type, valuestring := string }) ∧
      ((∀ k, grants k = true) → string.isSome = true → r.isSome = true) := by
  obtain ⟨r, m₁, hnew, hlists, hcreated, hsame, hat, hmade⟩ :=
    @Lists.newItem _ m kids h grants { Node.zero dbl with type } rfl rfl (fun _ => rfl) rfl
  unfold JsonRead.createText
  rw [hnew]
  cases r with
  | none =>
      refine ⟨none, m₁, rfl, hlists, hcreated, hsame,
        fun _ hp => absurd hp (Option.not_mem_none _), fun hall => ?_⟩
      cases hmade hall
  | some item =>
      obtain ⟨hlive, hroot, hleaf⟩ := hcreated item rfl
      obtain ⟨hnone, hn⟩ := hat item rfl
      have hother : ∀ x, x ≠ item → m₁.at x = m.at x :=
        fun x hx => hsame x fun heq => hx (Option.some.inj heq).symm
      -- without the string the item is given back
      have hgiveUp : ∀ {heap : Heap}, heap.live = m₁.heap.live →
          ∃ m', JsonRead.delete { m₁ with heap } (some item) = .ok m' ∧ Lists m' kids ∧
            ∀ x, m'.at x = m.at x := by
        intro heap hheap
        have hlists' : Lists { m₁ with heap } kids :=
          hlists.data rfl rfl (fun _ => Iff.rfl) (fun _ => rfl) (hheap.trans hlists.accounted)
        obtain ⟨m₂, hrun, hlists₂, hgone, hkept⟩ := hlists'.deleteLeaf hlive hroot hleaf
        refine ⟨m₂, hrun, hlists₂, fun x => ?_⟩
        by_cases hx : x = item
        · rw [hx, hgone, hnone]
        · exact (hkept x hx).trans (hother x hx)
      cases string with
      | none =>
          obtain ⟨m₂, hrun, hlists₂, hkept⟩ := @hgiveUp m₁.heap rfl
          refine ⟨none, m₂, ?_, hlists₂, .nothing, fun x _ => hkept x,
            fun _ hp => absurd hp (Option.not_mem_none _),
            fun _ hsome => absurd hsome Bool.false_ne_true⟩
          simp only [Option.map_none, hrun, bind, Except.bind]
          rfl
      | some s =>
          obtain ⟨heap, hdup, hheap⟩ | ⟨heap, hdup, hheap, k, hk⟩ := strdup_some grants s m₁.heap
          · have hstore := @Lists.store _ m₁ kids hlists item _
              { Node.zero dbl with type, valuestring := some s } hn rfl rfl rfl rfl heap
              (by
                simp only [Node.blocks, Node.zero, Bool.false_eq_true, ↓reduceIte,
                  Option.toList_none, Option.toList_some, List.length_nil, List.length_cons]
                omega)
            refine ⟨some item, _, ?_, hstore, ?_, fun x hx => ?_, ?_, fun _ _ => rfl⟩
            · have hload : Memory.load { m₁ with heap } item
                  = .ok { Node.zero dbl with type } := Memory.load_eq hn
              simp only [Option.map_some, hdup, Memory.edit, hload, bind, Except.bind]
              rfl
            · rintro p ⟨⟩
              refine ⟨?_, hroot, hleaf⟩
              rw [at_set hn, Function.update_self]
              rfl
            · have hne : x ≠ item := fun heq => hx (congrArg some heq.symm)
              rw [at_set hn, Function.update_of_ne hne, hother x hne]
            · rintro p ⟨⟩
              rw [at_set hn, Function.update_self]
              exact ⟨hnone, rfl⟩
          · obtain ⟨m₂, hrun, hlists₂, hkept⟩ := hgiveUp hheap
            refine ⟨none, m₂, ?_, hlists₂, .nothing, fun x _ => hkept x,
              fun _ hp => absurd hp (Option.not_mem_none _), fun hall _ => ?_⟩
            · simp only [Option.map_some, hdup, hrun, bind, Except.bind]
              rfl
            · rw [hall k] at hk
              cases hk

/-- An item with no children can be put into any list but its own. -/
theorem Created.attachable {r : Option Nat} (h : Created m kids r) {parent item : Nat}
    (hitem : item ∈ r) (hne : parent ≠ item) : Attachable m kids parent item := by
  obtain ⟨hlive, hroot, hleaf⟩ := h item hitem
  refine ⟨hlive, hroot, fun hbelow => ?_⟩
  rcases Relation.ReflTransGen.cases_tail hbelow with heq | ⟨c, _, hc⟩
  · exact hne heq.symm
  · rw [hleaf] at hc
    cases hc

/-- What was there before is not the new item. -/
theorem Owner.ne_created {r : Option Nat} (hfresh : ∀ p ∈ r, m.at p = none) {parent item : Nat}
    (hp : Owner m parent) (hitem : item ∈ r) : parent ≠ item := by
  rintro rfl
  have hlive := hp.live
  rw [hfresh parent hitem] at hlive
  cases hlive

/-- The functions that add a new item to an object, or delete it. -/
theorem Lists.addCreated (h : Lists m kids) {r : Option Nat} (hcreated : Created m kids r)
    {object : Option Nat} (hobject : ∀ o ∈ object, Owner m o ∧ ∀ item ∈ r, o ≠ item)
    (name : Option CStr) :
    ∃ r' m' kids', addCreatedToObject grants object name (r, m) = .ok (r', m') ∧
      Lists m' kids' := by
  have hadd : ∃ added m₁ kids₁, addItemToObject grants m object name r false = .ok (added, m₁) ∧
      Lists m₁ kids₁ ∧ (added = false → kids₁ = kids ∧ m₁.nodes = m.nodes) := by
    cases object with
    | none => exact ⟨false, m, kids, rfl, h, fun _ => ⟨rfl, rfl⟩⟩
    | some o =>
    cases name with
    | none => exact ⟨false, m, kids, rfl, h, fun _ => ⟨rfl, rfl⟩⟩
    | some name =>
    cases r with
    | none => exact ⟨false, m, kids, rfl, h, fun _ => ⟨rfl, rfl⟩⟩
    | some item =>
        obtain ⟨hp, hne⟩ := hobject o rfl
        obtain ⟨added, m₁, hrun, hyes, hno⟩ :=
          @Lists.addToObject _ m kids grants h o item hp
            (hcreated.attachable rfl (hne item rfl)) name false
        cases added with
        | true => exact ⟨true, m₁, _, hrun, (hyes rfl).2.1, nofun⟩
        | false => exact ⟨false, m₁, kids, hrun, (hno rfl).1, fun _ => ⟨rfl, (hno rfl).2.1⟩⟩
  obtain ⟨added, m₁, kids₁, hrun, hlists, hno⟩ := hadd
  rw [addCreatedToObject, hrun]
  cases added with
  | true => exact ⟨r, m₁, kids₁, rfl, hlists⟩
  | false =>
      obtain ⟨rfl, hnodes⟩ := hno rfl
      cases r with
      | none => exact ⟨none, m₁, kids₁, rfl, hlists⟩
      | some item =>
          obtain ⟨hlive, hroot, hleaf⟩ := hcreated item rfl
          have hlive₁ : (m₁.at item).isSome = true := by
            rw [Memory.at, hnodes]
            exact hlive
          obtain ⟨m₂, hdelete, hlists₂, _⟩ := hlists.deleteLeaf hlive₁ hroot hleaf
          refine ⟨none, m₂, kids₁, ?_, hlists₂⟩
          simp only [bind, Except.bind, hdelete]
          rfl

end Names

/-! ## What single calls do -/

section Spec

variable {D : Type} {m : Memory D} {kids : Nat → List Nat}

theorem without_nil : without kids [] = kids := by
  funext p
  exact if_neg List.not_mem_nil

/-- The item at a place replaced. -/
theorem replace_eq_set {xs : List Nat} (hnodup : xs.Nodup) {i : Nat} (hi : i < xs.length)
    (y : Nat) : xs.replace xs[i] y = xs.set i y := by
  induction xs generalizing i with
  | nil => cases hi
  | cons x xs ih =>
      obtain ⟨hx, hnodup⟩ := List.nodup_cons.mp hnodup
      cases i with
      | zero => rw [List.getElem_cons_zero, List.replace_cons_self, List.set_cons_zero]
      | succ i =>
          have hlt := Nat.lt_of_succ_lt_succ hi
          have hne : (xs[i] == x) = false :=
            beq_false_of_ne fun heq => hx (heq ▸ List.getElem_mem hlt)
          rw [List.getElem_cons_succ, List.replace_cons, hne, List.set_cons_succ, ih hnodup hlt]

/-- Detached by its place. -/
theorem Lists.detachAt (h : Lists m kids) {array : Nat} (hp : Owner m array) (i : Nat) :
    ∃ m', detachItemFromArray m (some array) i = .ok ((kids array)[i]?, m') ∧ Edited m m' ∧
      Lists m' (Function.update kids array ((kids array).eraseIdx i)) := by
  rw [detachItemFromArray, if_neg (by omega), Int.toNat_natCast, h.getArrayItem_eq hp]
  cases hget : (kids array)[i]? with
  | none =>
      rw [List.eraseIdx_of_length_le (List.getElem?_eq_none_iff.mp hget),
        Function.update_eq_self]
      exact ⟨m, rfl, .refl m, h⟩
  | some c =>
      obtain ⟨hlt, rfl⟩ := List.getElem?_eq_some_iff.mp hget
      obtain ⟨m', hrun, hedited, hlists⟩ := h.detach (List.getElem_mem hlt)
      rw [(h.forest.nodup array).erase_getElem] at hlists
      exact ⟨m', hrun, hedited, hlists⟩

/-- Replaced by its place. -/
theorem Lists.replaceAt (h : Lists m kids) {array c : Nat} (hp : Owner m array)
    (hc : Attachable m kids array c) (i : Nat) :
    ∃ m' all, replaceItemInArray m (some array) i (some c) = .ok m' ∧
      (∀ x, x ∈ all ↔ ∃ old ∈ (kids array)[i]?, Below kids x old) ∧
      (∀ x, (m'.at x).map Node.data = if x ∈ all then none else (m.at x).map Node.data) ∧
      Lists m' (without (Function.update kids array ((kids array).set i c)) all) := by
  rw [replaceItemInArray, if_neg (by omega), Int.toNat_natCast, h.getArrayItem_eq hp]
  cases hget : (kids array)[i]? with
  | none =>
      rw [List.set_eq_of_length_le (List.getElem?_eq_none_iff.mp hget), Function.update_eq_self]
      refine ⟨m, [], rfl, fun x => ?_, fun x => (if_neg List.not_mem_nil).symm,
        without_nil.symm ▸ h⟩
      simp
  | some old =>
      obtain ⟨hlt, rfl⟩ := List.getElem?_eq_some_iff.mp hget
      obtain ⟨m', all, hrun, hmem, hdata, hlists⟩ := h.replace (List.getElem_mem hlt) hc
      rw [replace_eq_set (h.forest.nodup array) hlt] at hlists
      refine ⟨m', all, ?_, fun x => ?_, hdata, hlists⟩
      · simp only [bind, Except.bind, hrun]
        rfl
      · rw [hmem]
        simp

/-- On an item that owns its list, the functions for arrays do what those on lists
do: the children are looked up, taken out, inserted, appended and replaced by
their place, and nothing else changes but what is deleted. -/
theorem arrays_spec (h : Lists m kids) {array : Nat} (hp : Owner m array) :
    (∀ i, getArrayItem m (some array) i = .ok (kids array)[i]?) ∧
    (∀ i : Nat, ∃ m', detachItemFromArray m (some array) i = .ok ((kids array)[i]?, m') ∧
      Edited m m' ∧ Lists m' (Function.update kids array ((kids array).eraseIdx i))) ∧
    ∀ c, Attachable m kids array c →
      (∃ m', addItemToArray m (some array) (some c) = .ok (true, m') ∧ Edited m m' ∧
        Lists m' (Function.update kids array (kids array ++ [c]))) ∧
      (∀ i : Nat, ∃ m', insertItemInArray m (some array) i (some c) = .ok m' ∧ Edited m m' ∧
        Lists m' (Function.update kids array
          ((kids array).take i ++ c :: (kids array).drop i))) ∧
      ∀ i : Nat, ∃ m' all, replaceItemInArray m (some array) i (some c) = .ok m' ∧
        (∀ x, x ∈ all ↔ ∃ old ∈ (kids array)[i]?, Below kids x old) ∧
        (∀ x, (m'.at x).map Node.data = if x ∈ all then none else (m.at x).map Node.data) ∧
        Lists m' (without (Function.update kids array ((kids array).set i c)) all) := by
  refine ⟨h.getArrayItem_eq hp, h.detachAt hp, fun c hc => ⟨h.add hp hc, fun i => ?_,
    h.replaceAt hp hc⟩⟩
  obtain ⟨m', hrun, hedited, hlists⟩ := h.insert hp hc (Int.natCast_nonneg i)
  rw [Int.toNat_natCast] at hlists
  exact ⟨m', hrun, hedited, hlists⟩

/-- `cJSON_Delete` gives back an item that is in no list, and what is below it,
each once; all others are as they were, and so are their lists. -/
theorem delete_spec (h : Lists m kids) {item : Nat} (hlive : (m.at item).isSome = true)
    (hroot : IsRoot kids item) :
    ∃ m', delete m (some item) = .ok m' ∧ m'.heap.live = m'.blocks ∧
      (∀ x, Below kids x item → m'.at x = none) ∧
      (∀ x, ¬Below kids x item → m'.at x = m.at x) ∧
      ∃ kids', Lists m' kids' ∧ (∀ p, Below kids p item → kids' p = []) ∧
        ∀ p, ¬Below kids p item → kids' p = kids p := by
  obtain ⟨m', all, hrun, hmem, hat, hlists⟩ := h.delete hlive hroot
  refine ⟨m', hrun, hlists.accounted, fun x hx => ?_, fun x hx => ?_, _, hlists, fun p hp => ?_,
    fun p hp => ?_⟩
  · rw [hat, if_pos ((hmem x).mpr hx)]
  · rw [hat, if_neg fun hall => hx ((hmem x).mp hall)]
  · exact if_pos ((hmem p).mpr hp)
  · exact if_neg fun hall => hp ((hmem p).mp hall)

/-- What a look into an object finds, before an item is added to it and behind
it: the new one only under its own name, and where no other is in front of it. -/
theorem getObjectItemAt_added (grants : Nat → Bool) (h : Lists m kids) {object item : Nat}
    (hp : Owner m object) (hitem : Attachable m kids object item) (string : CStr)
    (constantKey : Bool) :
    ∃ added m', addItemToObject grants m (some object) (some string) (some item) constantKey
        = .ok (added, m') ∧
      (added = false → m'.nodes = m.nodes ∧ constantKey = false ∧ ∃ n, grants n = false) ∧
      ∀ name caseSensitive, ∃ found,
        getObjectItemAt m (some object) (some name) caseSensitive = .ok found ∧
        getObjectItemAt m' (some object) (some name) caseSensitive = .ok
          (if added = true ∧ stopsAt caseSensitive name (some string) = true ∧
              ∀ c ∈ kids object, stopsAt caseSensitive name (nameOf m c) = false
            then some item else found) := by
  obtain ⟨added, m', hrun, hyes, hno⟩ :=
    @Lists.addToObject _ m kids grants h object item hp hitem string constantKey
  refine ⟨added, m', hrun, fun hadded => (hno hadded).2, fun name caseSensitive =>
    ⟨_, h.getObjectItemAt_eq hp name caseSensitive, ?_⟩⟩
  cases added with
  | false =>
      obtain ⟨hlists, hnodes, _⟩ := hno rfl
      have hat : m'.at = m.at := by
        funext p
        rw [Memory.at, Memory.at, hnodes]
      have hname : nameOf m' = nameOf m := by
        funext p
        rw [nameOf, nameOf, hat]
      have hp' : Owner m' object := by rwa [Owner, hat]
      rw [hlists.getObjectItemAt_eq hp', hname, if_neg (fun heq => Bool.false_ne_true heq.1)]
  | true =>
      obtain ⟨hp', hlists, hname⟩ := hyes rfl
      have hold : ∀ c ∈ kids object, nameOf m' c = nameOf m c := by
        intro c hc
        have hne : c ≠ item := fun heq => hitem.root object (heq ▸ hc)
        rw [hname, if_neg hne]
      have hnew : nameOf m' item = some string := by rw [hname, if_pos rfl]
      rw [hlists.getObjectItemAt_eq hp', Function.update_self, List.find?_append,
        List.find?_congr fun c hc => by rw [hold c hc]]
      by_cases hstop : ∀ c ∈ kids object, stopsAt caseSensitive name (nameOf m c) = false
      · rw [List.find?_eq_none.mpr fun c hc => by rw [hstop c hc]; exact Bool.false_ne_true,
          Option.none_or, List.find?_singleton, hnew]
        by_cases hown : stopsAt caseSensitive name (some string) = true
        · rw [if_pos hown, if_pos ⟨rfl, hown, hstop⟩, Option.filter_some, hnew]
          rfl
        · rw [if_neg hown, if_neg fun heq => hown heq.2.1]
          rfl
      · obtain ⟨c, hfound⟩ := Option.isSome_iff_exists.mp
          (show ((kids object).find? fun c => stopsAt caseSensitive name (nameOf m c)).isSome = true
            by simpa using hstop)
        rw [hfound, Option.some_or, if_neg fun heq => hstop heq.2.2, Option.filter_some,
          Option.filter_some, hold c (List.mem_of_find?_eq_some hfound)]

end Spec

/-! ## Two objects -/

/-- An object, and the number one under the name `a`, as they are at first. -/
def objectAndNumber : Memory (Fin 10) :=
  (createNumber digits (fun _ => true)
    (createObject digits (fun _ => true) ⟨⟨0, 0⟩, []⟩).2 digits.one).2

/-- An object whose list starts there. -/
def objectNode (child : Nat) : Node (Fin 10) :=
  { Node.zero digits with type := .object, child := some child }

/-- The number one, under the name `a`. -/
def memberNode : Node (Fin 10) :=
  { Node.zero digits with
    type := .number, valueint := digits.saturate digits.one, valuedouble := digits.one,
    string := some (CStr.at [97]) }

/-- `{"a":1}`. -/
def oneObject : Memory (Fin 10) := ⟨⟨3, 3⟩, [some (objectNode 1), some memberNode]⟩

/-- `{"a":1}`, with another object and another number. -/
def oneAndTwo : Memory (Fin 10) :=
  (createNumber digits (fun _ => true) (createObject digits (fun _ => true) oneObject).2
    digits.one).2

/-- `{"a":1}` twice. -/
def twoObjects : Memory (Fin 10) :=
  ⟨⟨6, 6⟩, [some (objectNode 1), some memberNode, some (objectNode 3), some memberNode]⟩

/-- The list of the first. -/
def oneList : Nat → List Nat := Function.update (fun _ => []) 0 [1]

def twoLists : Nat → List Nat := Function.update oneList 2 [3]

theorem Lists.empty {D : Type} (calls : Nat) :
    Lists (⟨⟨calls, 0⟩, []⟩ : Memory D) fun _ => [] where
  forest := .empty
  owner _ h := absurd rfl h
  child p h := by
    obtain ⟨n, hn, _⟩ := h
    cases hn
  live _ _ h := nomatch h
  linked _ := trivial
  root _ _ := ⟨rfl, rfl⟩
  accounted := rfl

theorem Lists.created {m : Memory (Fin 10)} {kids : Nat → List Nat} (h : Lists m kids)
    (type : Kind) (valueint : Int) (valuedouble : Fin 10) :
    Lists (createItem digits (fun _ => true) m type valueint valuedouble).2 kids :=
  (@Lists.new _ _ _ h (fun _ => true) { Node.zero digits with type, valueint, valuedouble } rfl rfl
    (fun _ => rfl) rfl).1

/-- What has no list and is in none. -/
theorem attachable_leaf {D : Type} {m : Memory D} {kids : Nat → List Nat} {parent c : Nat}
    (hlive : (m.at c).isSome = true) (hroot : IsRoot kids c) (hne : parent ≠ c)
    (hparent : IsRoot kids parent) : Attachable m kids parent c := by
  refine ⟨hlive, hroot, fun hbelow => ?_⟩
  rcases Relation.ReflTransGen.cases_head hbelow with heq | ⟨q, hmem, _⟩
  · exact hne heq
  · exact hparent q hmem

theorem oneList_root {x : Nat} (hx : x ≠ 1) : IsRoot oneList x := by
  intro p hp
  by_cases hzero : p = 0
  · rw [hzero, oneList, Function.update_self] at hp
    exact hx (List.mem_singleton.mp hp)
  · rw [oneList, Function.update_of_ne hzero] at hp
    cases hp

theorem twoLists_root {x : Nat} (hx : x ≠ 1) (hx' : x ≠ 3) : IsRoot twoLists x := by
  intro p hp
  by_cases htwo : p = 2
  · rw [htwo, twoLists, Function.update_self] at hp
    exact hx' (List.mem_singleton.mp hp)
  · rw [twoLists, Function.update_of_ne htwo] at hp
    exact oneList_root hx p hp

/-- A member named `a` of an object with none. -/
theorem Lists.named {m m' : Memory (Fin 10)} {kids : Nat → List Nat} (h : Lists m kids)
    {object item : Nat} (hp : Owner m object) (hitem : Attachable m kids object item)
    (hrun : addItemToObject (fun _ => true) m (some object) (some (CStr.at [97])) (some item) false
      = .ok (true, m')) :
    Lists m' (Function.update kids object (kids object ++ [item])) := by
  obtain ⟨added, m'', hrun', hyes, _⟩ :=
    @Lists.addToObject _ m kids (fun _ => true) h object item hp hitem (CStr.at [97]) false
  rw [hrun, Except.ok.injEq, Prod.mk.injEq] at hrun'
  obtain ⟨rfl, rfl⟩ := hrun'
  exact (hyes rfl).2.1

theorem object_lists :
    Lists (createObject digits (fun _ => true) ⟨⟨0, 0⟩, []⟩).2 fun _ => [] :=
  (Lists.empty 0).created .object 0 digits.zero

theorem objectAndNumber_lists : Lists objectAndNumber fun _ => [] :=
  object_lists.created .number (digits.saturate digits.one) digits.one

theorem objectAndNumber_attachable : Attachable objectAndNumber (fun _ => []) 0 1 :=
  attachable_leaf rfl (fun _ => List.not_mem_nil) Nat.zero_ne_one fun _ => List.not_mem_nil

theorem oneObject_lists : Lists oneObject oneList :=
  objectAndNumber_lists.named ⟨_, rfl, rfl⟩ objectAndNumber_attachable rfl

theorem oneAndTwo_lists : Lists oneAndTwo oneList :=
  (oneObject_lists.created .object 0 digits.zero).created .number (digits.saturate digits.one)
    digits.one

theorem oneAndTwo_attachable : Attachable oneAndTwo oneList 2 3 :=
  attachable_leaf rfl (oneList_root (by decide)) (by decide) (oneList_root (by decide))

theorem twoObjects_lists : Lists twoObjects twoLists :=
  oneAndTwo_lists.named ⟨_, rfl, rfl⟩ oneAndTwo_attachable rfl

theorem twoObjects_owner : Owner twoObjects 0 := ⟨_, rfl, rfl⟩

/-- The second object can be put into the first. -/
theorem twoObjects_attachable : Attachable twoObjects twoLists 0 2 :=
  attachable_leaf rfl (twoLists_root (by decide) (by decide)) (by decide)
    (twoLists_root (by decide) (by decide))

theorem arrays_spec_twoObjects :
    ∃ m', insertItemInArray twoObjects (some 0) (0 : Nat) (some 2) = .ok m' ∧
      Edited twoObjects m' ∧
      Lists m' (Function.update twoLists 0
        ((twoLists 0).take 0 ++ 2 :: (twoLists 0).drop 0)) :=
  ((arrays_spec twoObjects_lists twoObjects_owner).2.2 2 twoObjects_attachable).2.1 0

theorem delete_spec_twoObjects :
    ∃ m', delete twoObjects (some 2) = .ok m' ∧ m'.heap.live = m'.blocks ∧
      (∀ x, Below twoLists x 2 → m'.at x = none) ∧
      (∀ x, ¬Below twoLists x 2 → m'.at x = twoObjects.at x) ∧
      ∃ kids', Lists m' kids' ∧ (∀ p, Below twoLists p 2 → kids' p = []) ∧
        ∀ p, ¬Below twoLists p 2 → kids' p = twoLists p :=
  delete_spec twoObjects_lists rfl (twoLists_root (by decide) (by decide))

/-- Under the name `b`. -/
theorem getObjectItemAt_added_twoObjects :
    ∃ added m', addItemToObject (fun _ => true) twoObjects (some 0) (some (CStr.at [98])) (some 2)
        false = .ok (added, m') ∧
      (added = false → m'.nodes = twoObjects.nodes ∧ false = false ∧
        ∃ n : Nat, (fun _ => true) n = false) ∧
      ∀ name caseSensitive, ∃ found,
        getObjectItemAt twoObjects (some 0) (some name) caseSensitive = .ok found ∧
        getObjectItemAt m' (some 0) (some name) caseSensitive = .ok
          (if added = true ∧ stopsAt caseSensitive name (some (CStr.at [98])) = true ∧
              ∀ c ∈ twoLists 0, stopsAt caseSensitive name (nameOf twoObjects c) = false
            then some 2 else found) :=
  getObjectItemAt_added (fun _ => true) twoObjects_lists twoObjects_owner twoObjects_attachable
    (CStr.at [98]) false

end JsonRead

end BeEasy
