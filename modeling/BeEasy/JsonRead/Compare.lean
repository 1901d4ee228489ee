import BeEasy.CVerif.Matching
import BeEasy.JsonRead.Item

/-!
# JsonRead — Compare

`cJSON_Duplicate` and `cJSON_Compare`. Objects are compared by looking up each
member of one in the other, both ways round. What comes out of that is an
equality up to the order of members, as long as the names in an object differ;
where they do not, only the first of a name is ever looked up.
-/

namespace BeEasy

open CVerif

namespace JsonRead

/-! ## Names -/

/-- `tolower`, in the C locale. -/
def tolower (b : Byte) : Byte := if 65 ≤ b ∧ b ≤ 90 then b + 32 else b

/-- The loop of `case_insensitive_strcmp`, on what is in front of the NULs. -/
def compareLower : List Byte → List Byte → Int
  | [], [] => 0
  | a :: _, [] => (tolower a).toNat
  | [], b :: _ => -(tolower b).toNat
  | a :: s, b :: t =>
      if tolower a = tolower b then compareLower s t else (tolower a).toNat - (tolower b).toNat

/-- `case_insensitive_strcmp`. -/
def caseInsensitiveStrcmp : Option CStr → Option CStr → Int
  | some string1, some string2 => compareLower string1.bytes string2.bytes
  | _, _ => 1

variable {D : Type}

/-- Where the loops of `get_object_item` stop, by the name of the item. The one
that minds the case does not get past an item without a name. -/
def stopsAt (caseSensitive : Bool) (name : CStr) (string : Option CStr) : Bool :=
  if caseSensitive then string.isNone || string = some name
  else caseInsensitiveStrcmp (some name) string = 0

/-- `get_object_item`, on the list of an object. -/
def getObjectItem (items : List (Item D)) (name : Option CStr) (caseSensitive : Bool) :
    Option (Item D) :=
  match name with
  | none => none
  | some name =>
      match items.find? fun element => stopsAt caseSensitive name element.string with
      | none => none
      | some element => if element.string.isNone then none else some element

/-- What of a name is compared. -/
def keyOf (caseSensitive : Bool) (name : CStr) : List Byte :=
  if caseSensitive then name.bytes else name.bytes.map tolower

def Item.key (caseSensitive : Bool) (item : Item D) : Option (List Byte) :=
  item.string.map (keyOf caseSensitive)

theorem tolower_eq_zero (b : Byte) : tolower b = 0 → b = 0 := by
  revert b
  decide

theorem tolower_toNat_ne_zero {b : Byte} (h : b ≠ 0) : (tolower b).toNat ≠ 0 :=
  fun hzero => h (tolower_eq_zero b (BitVec.eq_of_toNat_eq hzero))

theorem compareLower_eq_zero {s t : List Byte} (hs : (0 : Byte) ∉ s) (ht : (0 : Byte) ∉ t) :
    compareLower s t = 0 ↔ s.map tolower = t.map tolower := by
  induction s generalizing t with
  | nil =>
      cases t with
      | nil => exact iff_of_true rfl rfl
      | cons b t =>
          have hb := tolower_toNat_ne_zero (List.ne_of_not_mem_cons ht).symm
          refine iff_of_false ?_ nofun
          rw [compareLower]
          omega
  | cons a s ih =>
      cases t with
      | nil =>
          have ha := tolower_toNat_ne_zero (List.ne_of_not_mem_cons hs).symm
          refine iff_of_false ?_ nofun
          rw [compareLower]
          omega
      | cons b t =>
          rw [List.mem_cons, not_or] at hs ht
          rw [compareLower, List.map_cons, List.map_cons, List.cons_eq_cons]
          by_cases heq : tolower a = tolower b
          · rw [if_pos heq, ih hs.2 ht.2, and_iff_right heq]
          · rw [if_neg heq]
            refine iff_of_false (fun hzero => heq (BitVec.eq_of_toNat_eq ?_)) fun h => heq h.1
            omega

theorem stopsAt_some (caseSensitive : Bool) (name s : CStr) :
    stopsAt caseSensitive name (some s) = true ↔
      keyOf caseSensitive s = keyOf caseSensitive name := by
  have hcstr : ∀ s t : CStr, s = t ↔ s.bytes = t.bytes := by
    rintro ⟨s, hs⟩ ⟨t, ht⟩
    rw [CStr.mk.injEq]
  unfold stopsAt keyOf
  cases caseSensitive with
  | true => simp [hcstr]
  | false =>
      simp only [Bool.false_eq_true, if_false, decide_eq_true_eq]
      rw [caseInsensitiveStrcmp, compareLower_eq_zero name.noNul s.noNul, eq_comm]

theorem stopsAt_none (caseSensitive : Bool) (name : CStr) :
    stopsAt caseSensitive name none = caseSensitive := by
  cases caseSensitive <;> rfl

theorem stopsAt_congr {caseSensitive : Bool} {s t : CStr}
    (h : keyOf caseSensitive s = keyOf caseSensitive t) :
    stopsAt caseSensitive s = stopsAt caseSensitive t := by
  funext string
  cases string with
  | none => rw [stopsAt_none, stopsAt_none]
  | some u => rw [Bool.eq_iff_iff, stopsAt_some, stopsAt_some, h]

/-- What is found has the name, up to what is compared. -/
theorem getObjectItem_some {items : List (Item D)} {name : Option CStr} {caseSensitive : Bool}
    {item : Item D} (h : getObjectItem items name caseSensitive = some item) :
    item ∈ items ∧ ∃ s t, name = some s ∧ item.string = some t ∧
      keyOf caseSensitive t = keyOf caseSensitive s := by
  unfold getObjectItem at h
  cases name with
  | none => cases h
  | some name =>
      simp only at h
      split at h
      · cases h
      · next element hfind =>
        split at h
        · cases h
        · next hsome =>
          obtain rfl := Option.some.inj h
          rw [Option.isNone_iff_eq_none] at hsome
          obtain ⟨t, ht⟩ := Option.ne_none_iff_exists'.mp hsome
          have hstops := List.find?_some hfind
          rw [ht, stopsAt_some] at hstops
          exact ⟨List.mem_of_find?_eq_some hfind, name, t, rfl, ht, hstops⟩

/-- Names that count as the same find the same. -/
theorem getObjectItem_congr (items : List (Item D)) {s t : CStr} {caseSensitive : Bool}
    (h : keyOf caseSensitive s = keyOf caseSensitive t) :
    getObjectItem items (some s) caseSensitive = getObjectItem items (some t) caseSensitive := by
  rw [getObjectItem, getObjectItem, stopsAt_congr h]

/-- The items of a list all have names, and these differ. -/
structure Distinct (caseSensitive : Bool) (items : List (Item D)) : Prop where
  named : ∀ item ∈ items, item.string ≠ none
  nodup : (items.map (Item.key caseSensitive)).Nodup

/-- Every item of the list is the one that is found for its name. -/
theorem Distinct.find {caseSensitive : Bool} {items : List (Item D)}
    (h : Distinct caseSensitive items) {x y : Item D} (hx : x ∈ items)
    (hkey : y.key caseSensitive = x.key caseSensitive) :
    getObjectItem items y.string caseSensitive = some x := by
  obtain ⟨s, hs⟩ := Option.ne_none_iff_exists'.mp (h.named x hx)
  rw [Item.key, Item.key, hs, Option.map_some, Option.map_eq_some_iff] at hkey
  obtain ⟨t, ht, hst⟩ := hkey
  have hstops : stopsAt caseSensitive t x.string = true := by
    rw [hs, stopsAt_some, hst]
  have hfound : (items.find? fun element => stopsAt caseSensitive t element.string).isSome = true :=
    List.find?_isSome.mpr ⟨x, hx, hstops⟩
  obtain ⟨z, hz⟩ := Option.isSome_iff_exists.mp hfound
  have hmem := List.mem_of_find?_eq_some hz
  obtain ⟨u, hu⟩ := Option.ne_none_iff_exists'.mp (h.named z hmem)
  have hut := List.find?_some hz
  rw [hu, stopsAt_some] at hut
  obtain rfl : z = x := by
    refine List.inj_on_of_nodup_map h.nodup hmem hx ?_
    rw [Item.key, Item.key, hs, hu, Option.map_some, Option.map_some, hut, hst]
  rw [ht, getObjectItem]
  simp only [hz, hu, Option.isNone_some, Bool.false_eq_true, if_false]

mutual

/-- In every object in an item the names of the members differ. -/
def Item.Proper (caseSensitive : Bool) : Item D → Prop
  | { type, child, .. } =>
      (type = .object → Distinct caseSensitive child) ∧ AllProper caseSensitive child

def AllProper (caseSensitive : Bool) : List (Item D) → Prop
  | [] => True
  | item :: items => item.Proper caseSensitive ∧ AllProper caseSensitive items

end

theorem AllProper.mem {caseSensitive : Bool} {items : List (Item D)}
    (h : AllProper caseSensitive items) : ∀ item ∈ items, item.Proper caseSensitive := by
  induction items with
  | nil => exact nofun
  | cons item items ih => exact List.forall_mem_cons.mpr ⟨h.1, ih h.2⟩

theorem Item.Proper.distinct {caseSensitive : Bool} {item : Item D}
    (h : item.Proper caseSensitive) : item.type = .object → Distinct caseSensitive item.child := by
  cases item
  exact h.1

theorem Item.Proper.child {caseSensitive : Bool} {item : Item D} (h : item.Proper caseSensitive) :
    ∀ x ∈ item.child, x.Proper caseSensitive := by
  cases item
  exact AllProper.mem h.2

/-! ## cJSON_Duplicate -/

/-- `cJSON_strdup`, where there is a string. -/
def strdup (grants : Nat → Bool) (string : Option CStr) (h : Heap) :
    Option (Option CStr) × Heap :=
  match string with
  | none => (some none, h)
  | some s =>
      match h.allocate grants with
      | (true, h) => (some (some s), h)
      | (false, h) => (none, h)

mutual

/-- `cJSON_Duplicate`. -/
def duplicate (grants : Nat → Bool) (recurse : Bool) : Item D → Heap → Option (Item D) × Heap
  | { type, stringIsConst, valuestring, valueint, valuedouble, string, child, .. }, h =>
      match h.allocate grants with
      | (false, h) => (none, h)
      | (true, h) =>
          let newitem : Item D :=
            { type, isReference := false, stringIsConst, valuestring := none, valueint, valuedouble,
              string := none, child := [] }
          match strdup grants valuestring h with
          | (none, h) => (none, h.delete [newitem])
          | (some valuestring, h) =>
              let newitem := { newitem with valuestring }
              match if stringIsConst then (some string, h) else strdup grants string h with
              | (none, h) => (none, h.delete [newitem])
              | (some string, h) =>
                  let newitem := { newitem with string }
                  if !recurse then (some newitem, h)
                  else
                    match duplicateChildren grants child [] h with
                    | (false, done, h) => (none, h.delete [{ newitem with child := done }])
                    | (true, done, h) => (some { newitem with child := done }, h)

/-- The walk along the children, those in front being linked already. -/
def duplicateChildren (grants : Nat → Bool) :
    List (Item D) → List (Item D) → Heap → Bool × List (Item D) × Heap
  | [], done, h => (true, done, h)
  | child :: rest, done, h =>
      match duplicate grants true child h with
      | (none, h) => (false, done, h)
      | (some newchild, h) => duplicateChildren grants rest (done ++ [newchild]) h

end

mutual

/-- The item, with no references in it. -/
def Item.copy : Item D → Item D
  | { type, stringIsConst, valuestring, valueint, valuedouble, string, child, .. } =>
      { type, isReference := false, stringIsConst, valuestring, valueint, valuedouble, string,
        child := copies child }

def copies : List (Item D) → List (Item D)
  | [] => []
  | item :: items => item.copy :: copies items

end

/-- The same, for an item without its children. -/
def Item.shallowCopy (item : Item D) : Item D := { item with isReference := false, child := [] }

/-- What `cJSON_Duplicate` makes of the heap: the blocks of the copy are new, or
none are, because memory has been refused. -/
def Duplicated (grants : Nat → Bool) (h : Heap) (copy : Item D) (r : Option (Item D) × Heap) :
    Prop :=
  r.1 = some copy ∧ r.2.live = h.live + copy.blocks ∨
    r.1 = none ∧ r.2.live = h.live ∧ ∃ n, grants n = false

theorem strdup_cases (grants : Nat → Bool) (string : Option CStr) (h : Heap) :
    (∃ h', strdup grants string h = (some string, h') ∧
      h'.live = h.live + string.toList.length) ∨
    ∃ h', strdup grants string h = (none, h') ∧ h'.live = h.live ∧ ∃ n, grants n = false := by
  unfold strdup
  cases string with
  | none => exact .inl ⟨h, rfl, rfl⟩
  | some s =>
      by_cases hgrants : grants h.calls = true
      · simp only [Heap.allocate_granted hgrants]
        exact .inl ⟨_, rfl, rfl⟩
      · simp only [Heap.allocate_refused hgrants]
        exact .inr ⟨_, rfl, rfl, h.calls, Bool.eq_false_iff.mpr hgrants⟩

/-- A copy given up half made. -/
theorem Heap.delete_live {h h' : Heap} {item : Item D} (hlive : h'.live = h.live + item.blocks) :
    (h'.delete [item]).live = h.live := by
  simp only [Heap.delete, Heap.release, blocksOf]
  omega

mutual

theorem duplicate_cases (grants : Nat → Bool) : (item : Item D) → ∀ (recurse : Bool) (h : Heap),
    Duplicated grants h (if recurse then item.copy else item.shallowCopy)
      (duplicate grants recurse item h)
  | { type, isReference, stringIsConst, valuestring, valueint, valuedouble, string, child } => by
      intro recurse h
      unfold duplicate
      by_cases hgrants : grants h.calls = true
      swap
      · simp only [Heap.allocate_refused hgrants]
        exact .inr ⟨rfl, rfl, h.calls, Bool.eq_false_iff.mpr hgrants⟩
      simp only [Heap.allocate_granted hgrants]
      obtain ⟨h₁, hvalue, hlive₁⟩ | ⟨h₁, hvalue, hlive₁, hrefused⟩ :=
        strdup_cases grants valuestring ⟨h.calls + 1, h.live + 1⟩
      swap
      · simp only [hvalue]
        refine .inr ⟨rfl, Heap.delete_live ?_, hrefused⟩
        simp [Item.blocks, hlive₁, blocksOf]
      simp only [hvalue]
      have hname : (∃ h₂, (if stringIsConst then (some string, h₁) else strdup grants string h₁)
            = (some string, h₂) ∧
          h₂.live = h₁.live + if stringIsConst then 0 else string.toList.length) ∨
          ∃ h₂, (if stringIsConst then (some string, h₁) else strdup grants string h₁)
            = (none, h₂) ∧ h₂.live = h₁.live ∧ ∃ n, grants n = false := by
        cases stringIsConst with
        | true => exact .inl ⟨h₁, rfl, rfl⟩
        | false => exact strdup_cases grants string h₁
      obtain ⟨h₂, hname, hlive₂⟩ | ⟨h₂, hname, hlive₂, hrefused⟩ := hname
      swap
      · simp only [hname]
        refine .inr ⟨rfl, Heap.delete_live ?_, hrefused⟩
        simp only [Item.blocks, blocksOf, hlive₁, hlive₂, Bool.false_eq_true, if_false,
          Option.toList_none, List.length_nil, ite_self]
        omega
      simp only [hname]
      cases recurse with
      | false =>
          refine .inl ⟨rfl, ?_⟩
          simp only [Item.blocks, blocksOf, Item.shallowCopy, hlive₁, hlive₂, Bool.not_false,
            Bool.false_eq_true, if_false, if_true]
          omega
      | true =>
          obtain ⟨h₃, hchildren, hlive₃⟩ | ⟨new, h₃, hchildren, hlive₃, hrefused⟩ :=
            duplicateChildren_cases grants child [] h₂
          · simp only [hchildren]
            refine .inl ⟨rfl, ?_⟩
            simp only [Item.blocks, Item.copy, hlive₁, hlive₂, hlive₃, Bool.not_true,
              Bool.false_eq_true, ↓reduceIte, List.nil_append]
            omega
          · simp only [hchildren]
            refine .inr ⟨rfl, Heap.delete_live ?_, hrefused⟩
            simp only [Item.blocks, hlive₁, hlive₂, hlive₃, Bool.false_eq_true, if_false,
              List.nil_append]
            omega

theorem duplicateChildren_cases (grants : Nat → Bool) : (items : List (Item D)) →
    ∀ (done : List (Item D)) (h : Heap),
      (∃ h', duplicateChildren grants items done h = (true, done ++ copies items, h') ∧
        h'.live = h.live + blocksOf (copies items)) ∨
      ∃ new h', duplicateChildren grants items done h = (false, done ++ new, h') ∧
        h'.live = h.live + blocksOf new ∧ ∃ n, grants n = false
  | [] => by
      intro done h
      exact .inl ⟨h, by rw [duplicateChildren, copies, List.append_nil], rfl⟩
  | item :: items => by
      intro done h
      unfold duplicateChildren
      rcases hdup : duplicate grants true item h with ⟨r, h₁⟩
      have hcases := duplicate_cases grants item true h
      rw [hdup] at hcases
      rcases hcases with ⟨rfl, hlive⟩ | ⟨rfl, hlive, hrefused⟩
      swap
      · exact .inr ⟨[], h₁, by rw [List.append_nil], hlive, hrefused⟩
      simp only [if_true] at hlive ⊢
      obtain ⟨h₂, hrest, hlive₂⟩ | ⟨new, h₂, hrest, hlive₂, hrefused⟩ :=
        duplicateChildren_cases grants items (done ++ [item.copy]) h₁
      · refine .inl ⟨h₂, by rw [hrest, List.append_assoc]; rfl, ?_⟩
        rw [hlive₂, hlive, copies, blocksOf, Nat.add_assoc]
      · refine .inr ⟨item.copy :: new, h₂, by rw [hrest, List.append_assoc]; rfl, ?_, hrefused⟩
        rw [hlive₂, hlive, blocksOf, Nat.add_assoc]

end

/-! ## cJSON_Compare -/

theorem sizeOf_child (item : Item D) : sizeOf item.child < sizeOf item := by
  cases item
  simp only [Item.mk.sizeOf_spec]
  omega

section Compare

variable (dbl : Doubles) (caseSensitive : Bool)

mutual

/-- `cJSON_Compare`, on the trees of two items that share no block, of which `a == b`
never holds. -/
def compare (a b : Item dbl.Double) : Bool :=
  if a.type ≠ b.type || a.type = .invalid then false
  else
    match a.type with
    | .invalid => false
    | .false | .true | .null => true
    | .number => dbl.eq a.valuedouble b.valuedouble
    | .string | .raw =>
        match a.valuestring, b.valuestring with
        | some s, some t => s = t
        | _, _ => false
    | .array => compareElements a.child b.child
    | .object => compareMembers a.child b.child && compareMembers b.child a.child
termination_by sizeOf a + sizeOf b
decreasing_by all_goals have := sizeOf_child a; have := sizeOf_child b; omega

/-- The loop along two arrays. -/
def compareElements : List (Item dbl.Double) → List (Item dbl.Double) → Bool
  | a :: as, b :: bs => if !compare a b then false else compareElements as bs
  | [], [] => true
  | _, _ => false
termination_by as bs => sizeOf as + sizeOf bs

/-- The loop along an object, with a look into another one. -/
def compareMembers : List (Item dbl.Double) → List (Item dbl.Double) → Bool
  | [], _ => true
  | a :: as, bs =>
      match _h : getObjectItem bs a.string caseSensitive with
      | none => false
      | some b => if !compare a b then false else compareMembers as bs
termination_by as bs => sizeOf as + sizeOf bs
decreasing_by
  · have := List.sizeOf_lt_of_mem (getObjectItem_some _h).1
    simp only [List.cons.sizeOf_spec]
    omega
  · simp only [List.cons.sizeOf_spec]
    omega

end

variable {dbl caseSensitive}

theorem compareElements_iff (as bs : List (Item dbl.Double)) :
    compareElements dbl caseSensitive as bs = true ↔
      List.Forall₂ (fun a b => compare dbl caseSensitive a b = true) as bs := by
  induction as generalizing bs with
  | nil => cases bs <;> simp [compareElements]
  | cons a as ih =>
      cases bs with
      | nil => simp [compareElements]
      | cons b bs =>
          rw [compareElements, List.forall₂_cons, ← ih]
          cases compare dbl caseSensitive a b <;> simp

variable (dbl caseSensitive) in
/-- Every item has one of its name among the others, and is equal to it. -/
def Covered (items others : List (Item dbl.Double)) : Prop :=
  ∀ a ∈ items, ∃ b, getObjectItem others a.string caseSensitive = some b ∧
    compare dbl caseSensitive a b = true

theorem Covered.trans {as bs cs : List (Item dbl.Double)} (h : Covered dbl caseSensitive as bs)
    (h' : Covered dbl caseSensitive bs cs)
    (htrans : ∀ x ∈ as, ∀ y ∈ bs, ∀ z ∈ cs, compare dbl caseSensitive x y = true →
      compare dbl caseSensitive y z = true → compare dbl caseSensitive x z = true) :
    Covered dbl caseSensitive as cs := by
  intro x hx
  obtain ⟨y, hfind, hxy⟩ := h x hx
  obtain ⟨hy, s, t, hs, ht, hkey⟩ := getObjectItem_some hfind
  obtain ⟨z, hfind', hyz⟩ := h' y hy
  rw [ht] at hfind'
  refine ⟨z, ?_, htrans x hx y hy z (getObjectItem_some hfind').1 hxy hyz⟩
  rw [hs, ← hfind', getObjectItem_congr cs hkey]

theorem Covered.matched {as bs : List (Item dbl.Double)} (h : Covered dbl caseSensitive as bs) :
    ∀ a ∈ as, ∃ b ∈ bs, a.key caseSensitive = b.key caseSensitive ∧
      compare dbl caseSensitive a b = true := by
  intro a ha
  obtain ⟨b, hfind, hab⟩ := h a ha
  obtain ⟨hb, s, t, hs, ht, hkey⟩ := getObjectItem_some hfind
  refine ⟨b, hb, ?_, hab⟩
  rw [Item.key, Item.key, hs, ht, Option.map_some, Option.map_some, hkey]

/-- One round of the loop along an object. -/
theorem compareMembers_cons (a : Item dbl.Double) (as bs : List (Item dbl.Double)) :
    compareMembers dbl caseSensitive (a :: as) bs
      = match getObjectItem bs a.string caseSensitive with
        | none => false
        | some b => compare dbl caseSensitive a b && compareMembers dbl caseSensitive as bs := by
  rw [compareMembers]
  split
  · next hnone => rw [hnone]
  · next b hsome =>
    cases hab : compare dbl caseSensitive a b <;> simp [hsome, hab]

theorem compareMembers_iff (as bs : List (Item dbl.Double)) :
    compareMembers dbl caseSensitive as bs = true ↔ Covered dbl caseSensitive as bs := by
  unfold Covered
  induction as with
  | nil => simp [compareMembers]
  | cons a as ih =>
      rw [compareMembers_cons, List.forall_mem_cons, ← ih]
      cases getObjectItem bs a.string caseSensitive with
      | none => simp
      | some b => simp

variable (dbl caseSensitive) in
/-- What `cJSON_Compare` asks of two items of one type. -/
def Agree (a b : Item dbl.Double) : Prop :=
  match a.type with
  | .invalid => False
  | .false | .true | .null => True
  | .number => dbl.eq a.valuedouble b.valuedouble = true
  | .string | .raw => ∃ s, a.valuestring = some s ∧ b.valuestring = some s
  | .array => List.Forall₂ (fun x y => compare dbl caseSensitive x y = true) a.child b.child
  | .object => Covered dbl caseSensitive a.child b.child ∧
      Covered dbl caseSensitive b.child a.child

theorem compare_iff (a b : Item dbl.Double) :
    compare dbl caseSensitive a b = true ↔
      a.type = b.type ∧ Agree dbl caseSensitive a b := by
  rw [compare, Agree]
  by_cases htype : a.type = b.type
  swap
  · simp [htype]
  rw [and_iff_right htype]
  cases hkind : a.type with
  | invalid => simp [← htype, hkind]
  | false | true | null | number => simp [← htype, hkind]
  | string | raw =>
      simp only [← htype, hkind]
      cases a.valuestring with
      | none => simp
      | some s => cases b.valuestring <;> simp [eq_comm]
  | array => simp [← htype, hkind, compareElements_iff]
  | object => simp [← htype, hkind, compareMembers_iff]

/-- What `==` promises on `double`, where NaN is not even equal to itself. -/
structure Doubles.Equality (dbl : Doubles) : Prop where
  symm : ∀ {m n}, dbl.eq m n = true → dbl.eq n m = true
  trans : ∀ {l m n}, dbl.eq l m = true → dbl.eq m n = true → dbl.eq l n = true

/-- The items of a list are smaller than the item it belongs to. -/
theorem sizeOf_lt_of_mem_child {item x : Item dbl.Double} (h : x ∈ item.child) :
    sizeOf x < sizeOf item :=
  Nat.lt_trans (List.sizeOf_lt_of_mem h) (sizeOf_child item)

theorem compare_symm_le (heq : dbl.Equality) (n : Nat) :
    ∀ a b : Item dbl.Double, sizeOf a + sizeOf b ≤ n → compare dbl caseSensitive a b = true →
      compare dbl caseSensitive b a = true := by
  induction n with
  | zero =>
      intro a b hle
      cases a
      simp only [Item.mk.sizeOf_spec] at hle
      omega
  | succ n ih =>
      intro a b hle hab
      obtain ⟨htype, hagree⟩ := (compare_iff a b).mp hab
      refine (compare_iff b a).mpr ⟨htype.symm, ?_⟩
      unfold Agree at hagree ⊢
      rw [← htype]
      cases hkind : a.type with
      | invalid => rwa [hkind] at hagree
      | false | true | null => trivial
      | number =>
          rw [hkind] at hagree
          exact heq.symm hagree
      | string | raw =>
          rw [hkind] at hagree
          obtain ⟨s, ha, hb⟩ := hagree
          exact ⟨s, hb, ha⟩
      | array =>
          rw [hkind] at hagree
          refine forall₂_flip_of_mem hagree fun x hx y hy hxy => ih x y ?_ hxy
          have hx' := sizeOf_lt_of_mem_child hx
          have hy' := sizeOf_lt_of_mem_child hy
          omega
      | object =>
          -- both ways round it is the same
          rw [hkind] at hagree
          exact ⟨hagree.2, hagree.1⟩

theorem compare_trans_le (heq : dbl.Equality) (n : Nat) :
    ∀ a b c : Item dbl.Double, sizeOf a + sizeOf b + sizeOf c ≤ n →
      compare dbl caseSensitive a b = true → compare dbl caseSensitive b c = true →
        compare dbl caseSensitive a c = true := by
  induction n with
  | zero =>
      intro a b c hle
      cases a
      simp only [Item.mk.sizeOf_spec] at hle
      omega
  | succ n ih =>
      intro a b c hle hab hbc
      obtain ⟨htype, hagree⟩ := (compare_iff a b).mp hab
      obtain ⟨htype', hagree'⟩ := (compare_iff b c).mp hbc
      refine (compare_iff a c).mpr ⟨htype.trans htype', ?_⟩
      have hsmaller : ∀ x ∈ a.child, ∀ y ∈ b.child, ∀ z ∈ c.child,
          compare dbl caseSensitive x y = true → compare dbl caseSensitive y z = true →
            compare dbl caseSensitive x z = true := by
        intro x hx y hy z hz
        have hx' := sizeOf_lt_of_mem_child hx
        have hy' := sizeOf_lt_of_mem_child hy
        have hz' := sizeOf_lt_of_mem_child hz
        exact ih x y z (by omega)
      have hback : ∀ z ∈ c.child, ∀ y ∈ b.child, ∀ x ∈ a.child,
          compare dbl caseSensitive z y = true → compare dbl caseSensitive y x = true →
            compare dbl caseSensitive z x = true := by
        intro z hz y hy x hx
        have hx' := sizeOf_lt_of_mem_child hx
        have hy' := sizeOf_lt_of_mem_child hy
        have hz' := sizeOf_lt_of_mem_child hz
        exact ih z y x (by omega)
      unfold Agree at hagree hagree' ⊢
      rw [← htype] at hagree'
      cases hkind : a.type with
      | invalid => rwa [hkind] at hagree
      | false | true | null => trivial
      | number =>
          rw [hkind] at hagree hagree'
          exact heq.trans hagree hagree'
      | string | raw =>
          rw [hkind] at hagree hagree'
          obtain ⟨s, ha, hb⟩ := hagree
          obtain ⟨t, hb', hc⟩ := hagree'
          obtain rfl := Option.some.inj (hb.symm.trans hb')
          exact ⟨s, ha, hc⟩
      | array =>
          rw [hkind] at hagree hagree'
          exact forall₂_trans_of_mem hagree hagree' hsmaller
      | object =>
          rw [hkind] at hagree hagree'
          exact ⟨hagree.1.trans hagree'.1 hsmaller, hagree'.2.trans hagree.2 hback⟩

theorem compare_symm (heq : dbl.Equality) {a b : Item dbl.Double}
    (h : compare dbl caseSensitive a b = true) : compare dbl caseSensitive b a = true :=
  compare_symm_le heq _ a b (Nat.le_refl _) h

theorem compare_comm (heq : dbl.Equality) (a b : Item dbl.Double) :
    compare dbl caseSensitive a b = compare dbl caseSensitive b a := by
  rw [Bool.eq_iff_iff]
  exact ⟨compare_symm heq, compare_symm heq⟩

theorem compare_trans (heq : dbl.Equality) {a b c : Item dbl.Double}
    (h : compare dbl caseSensitive a b = true) (h' : compare dbl caseSensitive b c = true) :
    compare dbl caseSensitive a c = true :=
  compare_trans_le heq _ a b c (Nat.le_refl _) h h'

/-- Items that are equal have a type. -/
theorem compare_valid {a b : Item dbl.Double} (h : compare dbl caseSensitive a b = true) :
    a.type ≠ .invalid := by
  intro hkind
  have hagree := ((compare_iff a b).mp h).2
  rw [Agree, hkind] at hagree
  exact hagree

/-! ## Equal up to the order of members -/

variable (dbl caseSensitive) in
mutual

/-- Items that stand for the same: objects have the same members in any order,
and names are compared as asked. -/
inductive Same : Item dbl.Double → Item dbl.Double → Prop
  | word {a b : Item dbl.Double} (htype : a.type = b.type)
      (hword : a.type = .false ∨ a.type = .true ∨ a.type = .null) : Same a b
  | number {a b : Item dbl.Double} (htype : a.type = b.type) (hnumber : a.type = .number)
      (h : dbl.eq a.valuedouble b.valuedouble = true) : Same a b
  | text {a b : Item dbl.Double} {s : CStr} (htype : a.type = b.type)
      (htext : a.type = .string ∨ a.type = .raw) (ha : a.valuestring = some s)
      (hb : b.valuestring = some s) : Same a b
  | array {a b : Item dbl.Double} (htype : a.type = b.type) (harray : a.type = .array)
      (h : SameElements a.child b.child) : Same a b
  | object {a b : Item dbl.Double} {items : List (Item dbl.Double)} (htype : a.type = b.type)
      (hobject : a.type = .object) (hperm : a.child.Perm items) (h : SameMembers items b.child) :
      Same a b

inductive SameElements : List (Item dbl.Double) → List (Item dbl.Double) → Prop
  | nil : SameElements [] []
  | cons {a b : Item dbl.Double} {as bs : List (Item dbl.Double)} (h : Same a b)
      (hs : SameElements as bs) : SameElements (a :: as) (b :: bs)

inductive SameMembers : List (Item dbl.Double) → List (Item dbl.Double) → Prop
  | nil : SameMembers [] []
  | cons {a b : Item dbl.Double} {as bs : List (Item dbl.Double)}
      (hkey : a.key caseSensitive = b.key caseSensitive) (h : Same a b) (hs : SameMembers as bs) :
      SameMembers (a :: as) (b :: bs)

end

theorem sameElements_iff (as bs : List (Item dbl.Double)) :
    SameElements dbl caseSensitive as bs ↔ List.Forall₂ (Same dbl caseSensitive) as bs := by
  induction as generalizing bs with
  | nil =>
      constructor
      · rintro ⟨⟩; exact .nil
      · rintro ⟨⟩; exact .nil
  | cons a as ih =>
      constructor
      · rintro (_ | ⟨h, hs⟩)
        exact .cons h ((ih _).mp hs)
      · rintro (_ | ⟨h, hs⟩)
        exact .cons h ((ih _).mpr hs)

theorem sameMembers_iff (as bs : List (Item dbl.Double)) :
    SameMembers dbl caseSensitive as bs ↔
      List.Forall₂
        (fun a b => a.key caseSensitive = b.key caseSensitive ∧ Same dbl caseSensitive a b)
        as bs := by
  induction as generalizing bs with
  | nil =>
      constructor
      · rintro ⟨⟩; exact .nil
      · rintro ⟨⟩; exact .nil
  | cons a as ih =>
      constructor
      · rintro (_ | ⟨hkey, h, hs⟩)
        exact .cons ⟨hkey, h⟩ ((ih _).mp hs)
      · rintro (_ | ⟨⟨hkey, h⟩, hs⟩)
        exact .cons hkey h ((ih _).mpr hs)

/-- Items that agree are the same, if those in their lists are. -/
theorem Same.of_agree {a b : Item dbl.Double} (ha : a.Proper caseSensitive)
    (hb : b.Proper caseSensitive) (htype : a.type = b.type) (hagree : Agree dbl caseSensitive a b)
    (hsmaller : ∀ x ∈ a.child, ∀ y ∈ b.child, compare dbl caseSensitive x y = true →
      Same dbl caseSensitive x y) : Same dbl caseSensitive a b := by
  unfold Agree at hagree
  cases hkind : a.type with
  | invalid => rw [hkind] at hagree; exact hagree.elim
  | false => exact .word htype (.inl hkind)
  | true => exact .word htype (.inr (.inl hkind))
  | null => exact .word htype (.inr (.inr hkind))
  | number =>
      rw [hkind] at hagree
      exact .number htype hkind hagree
  | string =>
      rw [hkind] at hagree
      obtain ⟨s, ha, hb⟩ := hagree
      exact .text htype (.inl hkind) ha hb
  | raw =>
      rw [hkind] at hagree
      obtain ⟨s, ha, hb⟩ := hagree
      exact .text htype (.inr hkind) ha hb
  | array =>
      rw [hkind] at hagree
      exact .array htype hkind ((sameElements_iff _ _).mpr (forall₂_of_mem hagree hsmaller))
  | object =>
      rw [hkind] at hagree
      have hdistinct := ha.distinct hkind
      have hdistinct' := hb.distinct (htype ▸ hkind)
      -- a look for each name, both ways, brings the members into one order
      obtain ⟨items, hperm, hmatch⟩ := exists_perm_forall₂ hdistinct.nodup hdistinct'.nodup
        (hagree.1.matched) fun y hy => by
          obtain ⟨x, hx, hkey, -⟩ := hagree.2.matched y hy
          exact ⟨x, hx, hkey.symm⟩
      refine .object htype hkind hperm ((sameMembers_iff _ _).mpr ?_)
      refine forall₂_of_mem hmatch fun x hx y hy hxy => ⟨hxy.1, ?_⟩
      exact hsmaller x (hperm.symm.subset hx) y hy hxy.2

/-- The same items agree, if those in their lists do. -/
theorem Same.agree (heq : dbl.Equality) {a b : Item dbl.Double} (hsame : Same dbl caseSensitive a b)
    (ha : a.Proper caseSensitive) (hb : b.Proper caseSensitive)
    (hsmaller : ∀ x ∈ a.child, ∀ y ∈ b.child, Same dbl caseSensitive x y →
      compare dbl caseSensitive x y = true) :
    a.type = b.type ∧ Agree dbl caseSensitive a b := by
  unfold Agree
  cases hsame with
  | word htype hword =>
      refine ⟨htype, ?_⟩
      rcases hword with hkind | hkind | hkind <;> rw [hkind] <;> trivial
  | number htype hkind h =>
      refine ⟨htype, ?_⟩
      rw [hkind]
      exact h
  | text htype htext hs hs' =>
      refine ⟨htype, ?_⟩
      rcases htext with hkind | hkind <;> rw [hkind] <;> exact ⟨_, hs, hs'⟩
  | array htype hkind h =>
      refine ⟨htype, ?_⟩
      rw [hkind]
      exact forall₂_of_mem ((sameElements_iff _ _).mp h) hsmaller
  | object htype hkind hperm h =>
      refine ⟨htype, ?_⟩
      rw [hkind]
      have hmatch := (sameMembers_iff _ _).mp h
      have hdistinct := ha.distinct hkind
      have hdistinct' := hb.distinct (htype ▸ hkind)
      constructor
      · intro x hx
        obtain ⟨y, hy, hkey, hxy⟩ := forall₂_exists_right hmatch x (hperm.subset hx)
        exact ⟨y, hdistinct'.find hy hkey, hsmaller x hx y hy hxy⟩
      · intro y hy
        obtain ⟨x, hx, hkey, hxy⟩ := forall₂_exists_left hmatch y hy
        have hx := hperm.symm.subset hx
        exact ⟨x, hdistinct.find hx hkey.symm, compare_symm heq (hsmaller x hx y hy hxy)⟩

theorem compare_iff_same_le (heq : dbl.Equality) (n : Nat) :
    ∀ a b : Item dbl.Double, sizeOf a + sizeOf b ≤ n → a.Proper caseSensitive →
      b.Proper caseSensitive →
        (compare dbl caseSensitive a b = true ↔ Same dbl caseSensitive a b) := by
  induction n with
  | zero =>
      intro a b hle
      cases a
      simp only [Item.mk.sizeOf_spec] at hle
      omega
  | succ n ih =>
      intro a b hle hproper hproper'
      have hsmaller : ∀ x ∈ a.child, ∀ y ∈ b.child,
          (compare dbl caseSensitive x y = true ↔ Same dbl caseSensitive x y) := by
        intro x hx y hy
        have hx' := sizeOf_lt_of_mem_child hx
        have hy' := sizeOf_lt_of_mem_child hy
        exact ih x y (by omega) (hproper.child x hx) (hproper'.child y hy)
      rw [compare_iff]
      constructor
      · rintro ⟨htype, hagree⟩
        exact .of_agree hproper hproper' htype hagree fun x hx y hy => (hsmaller x hx y hy).mp
      · intro hsame
        exact hsame.agree heq hproper hproper' fun x hx y hy => (hsmaller x hx y hy).mpr

/-- Where the names in each object differ, two trees are compared up to the order
of members. -/
theorem compare_iff_same (heq : dbl.Equality) {a b : Item dbl.Double}
    (ha : a.Proper caseSensitive) (hb : b.Proper caseSensitive) :
    compare dbl caseSensitive a b = true ↔ Same dbl caseSensitive a b :=
  compare_iff_same_le heq _ a b (Nat.le_refl _) ha hb

/-! ## A copy and its original -/

theorem Item.copy_child (item : Item dbl.Double) : item.copy.child = item.child.map Item.copy := by
  have hcopies : ∀ items : List (Item dbl.Double), copies items = items.map Item.copy := by
    intro items
    induction items with
    | nil => rfl
    | cons item items ih => rw [copies, ih, List.map_cons]
  cases item
  exact hcopies _

theorem Item.copy_type (item : Item dbl.Double) : item.copy.type = item.type := by
  cases item
  rfl

theorem Item.copy_string (item : Item dbl.Double) : item.copy.string = item.string := by
  cases item
  rfl

theorem Item.copy_valuestring (item : Item dbl.Double) :
    item.copy.valuestring = item.valuestring := by
  cases item
  rfl

theorem Item.copy_valuedouble (item : Item dbl.Double) :
    item.copy.valuedouble = item.valuedouble := by
  cases item
  rfl

theorem getObjectItem_copies (items : List (Item dbl.Double)) (name : Option CStr) :
    getObjectItem (items.map Item.copy) name caseSensitive
      = (getObjectItem items name caseSensitive).map Item.copy := by
  cases name with
  | none => rfl
  | some name =>
      have hstops : (fun element => stopsAt caseSensitive name element.string) ∘
          @Item.copy dbl.Double = fun element => stopsAt caseSensitive name element.string := by
        funext item
        rw [Function.comp_apply, Item.copy_string]
      rw [getObjectItem, getObjectItem, List.find?_map, hstops]
      cases items.find? fun element => stopsAt caseSensitive name element.string with
      | none => rfl
      | some item =>
          simp only [Option.map_some, Item.copy_string]
          split <;> rfl

theorem compare_copies_le (n : Nat) :
    ∀ a b : Item dbl.Double, sizeOf a + sizeOf b ≤ n →
      (compare dbl caseSensitive a.copy b.copy = true ↔ compare dbl caseSensitive a b = true) := by
  induction n with
  | zero =>
      intro a b hle
      cases a
      simp only [Item.mk.sizeOf_spec] at hle
      omega
  | succ n ih =>
      intro a b hle
      have hsmaller : ∀ x ∈ a.child, ∀ y ∈ b.child,
          (compare dbl caseSensitive x.copy y.copy = true ↔
            compare dbl caseSensitive x y = true) := by
        intro x hx y hy
        have hx' := sizeOf_lt_of_mem_child hx
        have hy' := sizeOf_lt_of_mem_child hy
        exact ih x y (by omega)
      have hback : ∀ y ∈ b.child, ∀ x ∈ a.child,
          (compare dbl caseSensitive y.copy x.copy = true ↔
            compare dbl caseSensitive y x = true) := by
        intro y hy x hx
        have hx' := sizeOf_lt_of_mem_child hx
        have hy' := sizeOf_lt_of_mem_child hy
        exact ih y x (by omega)
      have hcovered : ∀ as bs : List (Item dbl.Double), (∀ x ∈ as, ∀ y ∈ bs,
          (compare dbl caseSensitive x.copy y.copy = true ↔
            compare dbl caseSensitive x y = true)) →
          (Covered dbl caseSensitive (as.map Item.copy) (bs.map Item.copy) ↔
            Covered dbl caseSensitive as bs) := by
        intro as bs hsmaller
        unfold Covered
        rw [List.forall_mem_map]
        refine forall₂_congr fun x hx => ?_
        rw [Item.copy_string, getObjectItem_copies]
        cases hfind : getObjectItem bs x.string caseSensitive with
        | none => exact iff_of_false nofun nofun
        | some y => simp [hsmaller x hx y (getObjectItem_some hfind).1]
      rw [compare_iff, compare_iff, Item.copy_type, Item.copy_type]
      refine and_congr_right fun htype => ?_
      unfold Agree
      rw [Item.copy_type, Item.copy_child, Item.copy_child, Item.copy_valuestring,
        Item.copy_valuestring, Item.copy_valuedouble, Item.copy_valuedouble]
      cases a.type with
      | array =>
          simp only [List.forall₂_map_left_iff, List.forall₂_map_right_iff]
          constructor
          · exact fun h => forall₂_of_mem h fun x hx y hy => (hsmaller x hx y hy).mp
          · exact fun h => forall₂_of_mem h fun x hx y hy => (hsmaller x hx y hy).mpr
      | object => exact and_congr (hcovered _ _ hsmaller) (hcovered _ _ hback)
      | _ => rfl

mutual

theorem Item.copy_copy : (item : Item dbl.Double) → item.copy.copy = item.copy
  | { .. } => by rw [Item.copy, Item.copy, copies_copies]

theorem copies_copies : (items : List (Item dbl.Double)) → copies (copies items) = copies items
  | [] => rfl
  | item :: items => by rw [copies, copies, Item.copy_copy, copies_copies]

end

theorem compare_copy (a b : Item dbl.Double) :
    compare dbl caseSensitive a.copy b = true ↔ compare dbl caseSensitive a b = true := by
  rw [← compare_copies_le _ a.copy b (Nat.le_refl _), Item.copy_copy,
    compare_copies_le _ a b (Nat.le_refl _)]

variable (dbl) in
mutual

/-- Nothing in an item is unequal to itself: it is valid, its strings are there
and its numbers are equal to themselves. -/
def Item.Comparable : Item dbl.Double → Prop
  | { type, valuestring, valuedouble, child, .. } =>
      match type with
      | .invalid => False
      | .false | .true | .null => True
      | .number => dbl.eq valuedouble valuedouble = true
      | .string | .raw => valuestring ≠ none
      | .array | .object => AllComparable child

def AllComparable : List (Item dbl.Double) → Prop
  | [] => True
  | item :: items => item.Comparable ∧ AllComparable items

end

theorem allComparable_iff (items : List (Item dbl.Double)) :
    AllComparable dbl items ↔ ∀ item ∈ items, item.Comparable dbl := by
  induction items with
  | nil => exact iff_of_true trivial nofun
  | cons item items ih => rw [AllComparable, ih, List.forall_mem_cons]

theorem Item.comparable_iff (a : Item dbl.Double) :
    a.Comparable dbl ↔
      match a.type with
      | .invalid => False
      | .false | .true | .null => True
      | .number => dbl.eq a.valuedouble a.valuedouble = true
      | .string | .raw => a.valuestring ≠ none
      | .array | .object => AllComparable dbl a.child := by
  cases a
  exact Iff.rfl

theorem compare_self_le (n : Nat) : ∀ a : Item dbl.Double, sizeOf a ≤ n →
    a.Proper caseSensitive → (compare dbl caseSensitive a a = true ↔ a.Comparable dbl) := by
  induction n with
  | zero =>
      intro a hle
      cases a
      simp only [Item.mk.sizeOf_spec] at hle
      omega
  | succ n ih =>
      intro a hle hproper
      have hsmaller : ∀ x ∈ a.child,
          (compare dbl caseSensitive x x = true ↔ x.Comparable dbl) := by
        intro x hx
        have hx' := sizeOf_lt_of_mem_child hx
        exact ih x (by omega) (hproper.child x hx)
      have hall : (∀ x ∈ a.child, compare dbl caseSensitive x x = true) ↔
          AllComparable dbl a.child :=
        (forall₂_congr hsmaller).trans (allComparable_iff a.child).symm
      rw [compare_iff, and_iff_right rfl, a.comparable_iff]
      unfold Agree
      cases hkind : a.type with
      | string | raw =>
          simp only [and_self]
          exact Option.ne_none_iff_exists'.symm
      | array =>
          simp only
          rw [List.forall₂_same, hall]
      | object =>
          have hdistinct := hproper.distinct hkind
          simp only
          rw [and_self, ← hall]
          constructor
          · intro hcovered x hx
            obtain ⟨y, hfind, hxy⟩ := hcovered x hx
            obtain rfl := Option.some.inj (hfind.symm.trans (hdistinct.find hx rfl))
            exact hxy
          · exact fun h x hx => ⟨x, hdistinct.find hx rfl, h x hx⟩
      | _ => exact Iff.rfl

end Compare

/-! ## What cJSON_Duplicate does -/

variable {dbl : Doubles} {caseSensitive : Bool}

/-- `cJSON_Duplicate` makes a copy with no references in it, all its blocks its
own, or, where memory is refused, leaves none behind. -/
theorem duplicate_spec (grants : Nat → Bool) (recurse : Bool) (item : Item D) (h : Heap) :
    ∃ r h', duplicate grants recurse item h = (r, h') ∧
      (∀ copy, r = some copy → copy = (if recurse then item.copy else item.shallowCopy) ∧
        h'.live = h.live + copy.blocks) ∧
      (r = none → h'.live = h.live ∧ ∃ n, grants n = false) := by
  rcases hdup : duplicate grants recurse item h with ⟨r, h'⟩
  have hcases := duplicate_cases grants item recurse h
  rw [hdup] at hcases
  refine ⟨r, h', rfl, ?_⟩
  rcases hcases with ⟨hsome, hlive⟩ | ⟨hnone, hlive, hrefused⟩
  · obtain rfl : r = _ := hsome
    refine ⟨fun copy hcopy => ?_, nofun⟩
    obtain rfl := Option.some.inj hcopy
    exact ⟨rfl, hlive⟩
  · obtain rfl : r = none := hnone
    exact ⟨nofun, fun _ => ⟨hlive, hrefused⟩⟩

/-- A copy is equal to its original if and only if nothing in that is unequal to
itself, as long as the names in each object differ. -/
theorem compare_duplicate {grants : Nat → Bool} {item copy : Item dbl.Double} {h h' : Heap}
    (hitem : item.Proper caseSensitive)
    (hdup : duplicate grants true item h = (some copy, h')) :
    compare dbl caseSensitive copy item = true ↔ item.Comparable dbl := by
  have hcases := duplicate_cases grants item true h
  rw [hdup] at hcases
  rcases hcases with ⟨hsome, _⟩ | ⟨hnone, _⟩
  · obtain rfl := Option.some.inj hsome
    rw [if_pos rfl, compare_copy]
    exact compare_self_le _ item (Nat.le_refl _) hitem
  · cases hnone

theorem digits_equality : digits.Equality where
  symm h := decide_eq_true (of_decide_eq_true h).symm
  trans h h' := decide_eq_true ((of_decide_eq_true h).trans (of_decide_eq_true h'))

/-- `{"a":1,"b":[1]}`. -/
def twoNamed : Item (Fin 10) :=
  itemOf digits (.object [([97], .number digits.one), ([98], .array [.number digits.one])])

theorem twoNamed_proper : twoNamed.Proper true := by
  refine ⟨fun _ => ⟨?_, by decide⟩, ⟨nofun, trivial⟩, ⟨nofun, ⟨nofun, trivial⟩, trivial⟩, trivial⟩
  rintro item (_ | ⟨_, _ | ⟨_, ⟨⟩⟩⟩) <;> exact Option.some_ne_none _

theorem compare_duplicate_twoNamed :
    compare digits true twoNamed twoNamed = true ↔ twoNamed.Comparable digits :=
  @compare_duplicate digits true (fun _ => true) twoNamed twoNamed ⟨0, 0⟩ ⟨6, 6⟩ twoNamed_proper
    (by rfl)

end JsonRead

end BeEasy
