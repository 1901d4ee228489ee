import BeEasy.JsonRead.Edits

/-!
# JsonRead — Calls

Whole runs of the functions that make, edit and delete items, called as the
library asks: what goes into a list is in no other, and what is deleted is in
none. Whatever the allocator refuses on the way, no call fails, loops or loses a
block, and the items stay a forest.
-/

namespace BeEasy

open CVerif

namespace JsonRead

section Calls

variable (dbl : Doubles)

/-- A call of the library that makes, edits or deletes items. -/
inductive Call where
  | createItem (type : Kind) (valueint : Int) (valuedouble : dbl.Double)
  | createText (type : Kind) (string : Option CStr)
  | createStringReference (string : Option CStr)
  | createObjectReference (child : Option Nat)
  | createArrayReference (child : Option Nat)
  | addItemToArray (array item : Option Nat)
  | addItemReferenceToArray (array item : Option Nat)
  | insertItemInArray (array : Option Nat) (which : Int) (newitem : Option Nat)
  | detachItemViaPointer (parent item : Option Nat)
  | detachItemFromArray (array : Option Nat) (which : Int)
  | deleteItemFromArray (array : Option Nat) (which : Int)
  | detachItemFromObject (object : Option Nat) (string : Option CStr) (caseSensitive : Bool)
  | deleteItemFromObject (object : Option Nat) (string : Option CStr) (caseSensitive : Bool)
  | replaceItemViaPointer (parent item replacement : Option Nat)
  | replaceItemInArray (array : Option Nat) (which : Int) (newitem : Option Nat)
  | replaceItemInObject (object : Option Nat) (string : Option CStr) (replacement : Option Nat)
      (caseSensitive : Bool)
  | addItemToObject (object : Option Nat) (string : Option CStr) (item : Option Nat)
      (constantKey : Bool)
  | addItemReferenceToObject (object : Option Nat) (string : Option CStr) (item : Option Nat)
  /-- `cJSON_AddNullToObject` and those like it. -/
  | addNewToObject (object : Option Nat) (name : Option CStr) (type : Kind) (valueint : Int)
      (valuedouble : dbl.Double)
  /-- `cJSON_AddStringToObject` and `cJSON_AddRawToObject`. -/
  | addTextToObject (object : Option Nat) (name : Option CStr) (type : Kind)
      (string : Option CStr)
  | delete (item : Option Nat)

variable {dbl}

/-- What a call leaves in memory. -/
def Call.run (grants : Nat → Bool) (m : Memory dbl.Double) :
    Call dbl → Except Stop (Memory dbl.Double)
  | .createItem type valueint valuedouble =>
      return (JsonRead.createItem dbl grants m type valueint valuedouble).2
  | .createText type string => do return (← JsonRead.createText dbl grants m type string).2
  | .createStringReference string =>
      return (JsonRead.createStringReference dbl grants m string).2
  | .createObjectReference child => return (JsonRead.createObjectReference dbl grants m child).2
  | .createArrayReference child => return (JsonRead.createArrayReference dbl grants m child).2
  | .addItemToArray array item => do return (← JsonRead.addItemToArray m array item).2
  | .addItemReferenceToArray array item => JsonRead.addItemReferenceToArray grants m array item
  | .insertItemInArray array which newitem => JsonRead.insertItemInArray m array which newitem
  | .detachItemViaPointer parent item => do
      return (← JsonRead.detachItemViaPointer m parent item).2
  | .detachItemFromArray array which => do return (← JsonRead.detachItemFromArray m array which).2
  | .deleteItemFromArray array which => JsonRead.deleteItemFromArray m array which
  | .detachItemFromObject object string caseSensitive => do
      return (← JsonRead.detachItemFromObject m object string caseSensitive).2
  | .deleteItemFromObject object string caseSensitive =>
      JsonRead.deleteItemFromObject m object string caseSensitive
  | .replaceItemViaPointer parent item replacement => do
      return (← JsonRead.replaceItemViaPointer m parent item replacement).2
  | .replaceItemInArray array which newitem => JsonRead.replaceItemInArray m array which newitem
  | .replaceItemInObject object string replacement caseSensitive => do
      return (← JsonRead.replaceItemInObject grants m object string replacement caseSensitive).2
  | .addItemToObject object string item constantKey => do
      return (← JsonRead.addItemToObject grants m object string item constantKey).2
  | .addItemReferenceToObject object string item =>
      JsonRead.addItemReferenceToObject grants m object string item
  | .addNewToObject object name type valueint valuedouble => do
      return (← addCreatedToObject grants object name
        (JsonRead.createItem dbl grants m type valueint valuedouble)).2
  | .addTextToObject object name type string => do
      return (← addCreatedToObject grants object name
        (← JsonRead.createText dbl grants m type string)).2
  | .delete item => JsonRead.delete m item

/-- What the library asks of its callers: lists are edited of items that own
theirs, what goes into one is in no other, and what is deleted is in none. -/
def Call.Allowed (m : Memory dbl.Double) (kids : Nat → List Nat) : Call dbl → Prop
  | .createItem .. => True
  | .createText .. => True
  | .createStringReference _ => True
  | .createObjectReference _ => True
  | .createArrayReference _ => True
  | .addItemToArray array item => ∀ p ∈ array, ∀ c ∈ item, Owner m p ∧ Attachable m kids p c
  | .addItemReferenceToArray array item =>
      ∀ p ∈ array, ∀ c ∈ item, Owner m p ∧ (m.at c).isSome = true
  | .insertItemInArray array _ newitem =>
      ∀ p ∈ array, Owner m p ∧ ∃ c ∈ newitem, Attachable m kids p c
  | .detachItemViaPointer parent item => ∀ p ∈ parent, ∀ c ∈ item, c ∈ kids p
  | .detachItemFromArray array _ => ∀ p ∈ array, Owner m p
  | .deleteItemFromArray array _ => ∀ p ∈ array, Owner m p
  | .detachItemFromObject object _ _ => ∀ p ∈ object, Owner m p
  | .deleteItemFromObject object _ _ => ∀ p ∈ object, Owner m p
  | .replaceItemViaPointer parent item replacement =>
      ∀ p ∈ parent, ∀ c ∈ item, ∀ r ∈ replacement,
        c ∈ kids p ∧ (r = c ∨ Attachable m kids p r)
  | .replaceItemInArray array _ newitem =>
      ∀ p ∈ array, Owner m p ∧ ∀ c ∈ newitem, Attachable m kids p c
  | .replaceItemInObject object _ replacement _ =>
      ∀ c ∈ replacement, ∃ p ∈ object, Owner m p ∧ Attachable m kids p c
  | .addItemToObject object _ item _ => ∀ p ∈ object, ∀ c ∈ item, Owner m p ∧ Attachable m kids p c
  | .addItemReferenceToObject object _ item =>
      ∀ p ∈ object, ∀ c ∈ item, Owner m p ∧ (m.at c).isSome = true
  | .addNewToObject object .. => ∀ p ∈ object, Owner m p
  | .addTextToObject object .. => ∀ p ∈ object, Owner m p
  | .delete item => ∀ c ∈ item, (m.at c).isSome = true ∧ IsRoot kids c

/-- What calls lead to, from no items at all. -/
inductive Reachable (dbl : Doubles) (grants : Nat → Bool) : Memory dbl.Double → Prop
  | start (calls : Nat) : Reachable dbl grants ⟨⟨calls, 0⟩, []⟩
  | call {m m' : Memory dbl.Double} {kids : Nat → List Nat} (c : Call dbl)
      (h : Reachable dbl grants m) (hlists : Lists m kids) (hallowed : c.Allowed m kids)
      (hrun : c.run grants m = .ok m') : Reachable dbl grants m'

end Calls

section Run

variable {dbl : Doubles} {grants : Nat → Bool} {m : Memory dbl.Double} {kids : Nat → List Nat}

theorem erased_root (h : IsForest kids) {p c : Nat} (hc : c ∈ kids p) :
    IsRoot (Function.update kids p ((kids p).erase c)) c := by
  intro q hq
  by_cases heq : q = p
  · rw [heq, Function.update_self] at hq
    exact ((h.nodup p).mem_erase_iff.mp hq).1 rfl
  · rw [Function.update_of_ne heq] at hq
    exact heq (h.unique hq hc)

/-- An item taken out of its list is in none. -/
theorem Lists.detachOf (h : Lists m kids) {parent : Nat} {found : Option Nat}
    (hfound : ∀ c ∈ found, c ∈ kids parent) :
    ∃ m' kids', detachItemViaPointer m (some parent) found = .ok (found, m') ∧ Lists m' kids' ∧
      ∀ c ∈ found, (m'.at c).isSome = true ∧ IsRoot kids' c := by
  cases found with
  | none => exact ⟨m, kids, rfl, h, nofun⟩
  | some c =>
      have hc := hfound c rfl
      obtain ⟨m', hrun, hedited, hlists⟩ := h.detach hc
      refine ⟨m', _, hrun, hlists, ?_⟩
      rintro _ ⟨⟩
      exact ⟨(hedited.live c).trans (h.live parent c hc), erased_root h.forest hc⟩

theorem Lists.deleteOf (h : Lists m kids) {item : Option Nat}
    (hitem : ∀ c ∈ item, (m.at c).isSome = true ∧ IsRoot kids c) :
    ∃ m' kids', JsonRead.delete m item = .ok m' ∧ Lists m' kids' := by
  cases item with
  | none => exact ⟨m, kids, rfl, h⟩
  | some c =>
      obtain ⟨m', all, hrun, _, _, hlists⟩ := h.delete (hitem c rfl).1 (hitem c rfl).2
      exact ⟨m', _, hrun, hlists⟩

theorem Lists.replaceOf (h : Lists m kids) {parent replacement : Nat} {found : Option Nat}
    (hfound : ∀ c ∈ found, c ∈ kids parent)
    (hreplacement : ∀ c ∈ found, replacement = c ∨ Attachable m kids parent replacement) :
    ∃ done m' kids', replaceItemViaPointer m (some parent) found (some replacement)
        = .ok (done, m') ∧ Lists m' kids' := by
  cases found with
  | none => exact ⟨false, m, kids, rfl, h⟩
  | some c =>
      rcases hreplacement c rfl with rfl | hattach
      · refine ⟨true, m, kids, ?_, h⟩
        rw [replaceItemViaPointer, if_pos rfl]
        rfl
      · obtain ⟨m', all, hrun, _, _, hlists⟩ := h.replace (hfound c rfl) hattach
        exact ⟨true, m', _, hrun, hlists⟩

theorem mem_of_getElem?_mem {xs : List Nat} {i : Nat} : ∀ c ∈ xs[i]?, c ∈ xs :=
  fun _ hc => List.mem_of_getElem? hc

/-- What is found at a place in an array. -/
theorem Lists.detachFromArray (h : Lists m kids) {array : Nat} (hp : Owner m array) (which : Int) :
    ∃ r m' kids', detachItemFromArray m (some array) which = .ok (r, m') ∧ Lists m' kids' ∧
      ∀ c ∈ r, (m'.at c).isSome = true ∧ IsRoot kids' c := by
  rw [detachItemFromArray]
  by_cases hwhich : which < 0
  · rw [if_pos hwhich]
    exact ⟨none, m, kids, rfl, h, fun _ hc => absurd hc (Option.not_mem_none _)⟩
  · rw [if_neg hwhich, h.getArrayItem_eq hp]
    obtain ⟨m', kids', hrun, hlists, hroot⟩ :=
      @Lists.detachOf _ m kids h array (kids array)[which.toNat]? mem_of_getElem?_mem
    exact ⟨_, m', kids', hrun, hlists, hroot⟩

theorem Lists.detachFromObject (h : Lists m kids) {object : Nat} (hp : Owner m object)
    (string : Option CStr) (caseSensitive : Bool) :
    ∃ r m' kids', detachItemFromObject m (some object) string caseSensitive = .ok (r, m') ∧
      Lists m' kids' ∧ ∀ c ∈ r, (m'.at c).isSome = true ∧ IsRoot kids' c := by
  obtain ⟨found, hfind, hmem⟩ := h.getObjectItemAt_mem hp string caseSensitive
  obtain ⟨m', kids', hrun, hlists, hroot⟩ := h.detachOf hmem
  refine ⟨found, m', kids', ?_, hlists, hroot⟩
  rw [detachItemFromObject, hfind]
  exact hrun

/-- An allowed call returns, and leaves the lists in order. -/
theorem Lists.call (h : Lists m kids) (c : Call dbl) (hallowed : c.Allowed m kids) :
    ∃ m' kids', c.run grants m = .ok m' ∧ Lists m' kids' := by
  cases c with
  | createItem type valueint valuedouble =>
      obtain ⟨r, m', hrun, hlists, _⟩ := @Lists.newItem _ m kids h grants
        { Node.zero dbl with type, valueint, valuedouble } rfl rfl (fun _ => rfl) rfl
      exact ⟨m', kids, congrArg Except.ok (congrArg Prod.snd hrun), hlists⟩
  | createText type string =>
      obtain ⟨r, m', hrun, hlists, _⟩ := h.createText grants type string
      exact ⟨m', kids, by rw [Call.run, hrun]; rfl, hlists⟩
  | createStringReference string =>
      obtain ⟨r, m', hrun, hlists, _⟩ := @Lists.newItem _ m kids h grants
        { Node.zero dbl with type := .string, isReference := true, valuestring := string }
        rfl rfl nofun rfl
      exact ⟨m', kids, congrArg Except.ok (congrArg Prod.snd hrun), hlists⟩
  | createObjectReference child =>
      obtain ⟨r, m', hrun, hlists, _⟩ := @Lists.newItem _ m kids h grants
        { Node.zero dbl with type := .object, isReference := true, child } rfl rfl nofun rfl
      exact ⟨m', kids, congrArg Except.ok (congrArg Prod.snd hrun), hlists⟩
  | createArrayReference child =>
      obtain ⟨r, m', hrun, hlists, _⟩ := @Lists.newItem _ m kids h grants
        { Node.zero dbl with type := .array, isReference := true, child } rfl rfl nofun rfl
      exact ⟨m', kids, congrArg Except.ok (congrArg Prod.snd hrun), hlists⟩
  | addItemToArray array item =>
      cases array with
      | none => exact ⟨m, kids, rfl, h⟩
      | some p =>
      cases item with
      | none => exact ⟨m, kids, rfl, h⟩
      | some x =>
          obtain ⟨hp, hx⟩ := hallowed p rfl x rfl
          obtain ⟨m', hrun, _, hlists⟩ := h.add hp hx
          exact ⟨m', _, by rw [Call.run, hrun]; rfl, hlists⟩
  | addItemReferenceToArray array item =>
      cases array with
      | none => exact ⟨m, kids, rfl, h⟩
      | some p =>
      cases item with
      | none => exact ⟨m, kids, rfl, h⟩
      | some x =>
          obtain ⟨hp, hx⟩ := hallowed p rfl x rfl
          obtain ⟨r, m₁, hrun, hlists, hcreated, hsame, hfresh⟩ := h.createReference grants hx
          rw [Call.run, JsonRead.addItemReferenceToArray, hrun]
          cases r with
          | none => exact ⟨m₁, kids, rfl, hlists⟩
          | some item =>
              obtain ⟨m', hadd, _, hlists'⟩ := hlists.add (hsame.owner hp)
                (hcreated.attachable rfl (hp.ne_created hfresh rfl))
              refine ⟨m', _, ?_, hlists'⟩
              simp only [bind, Except.bind, hadd]
              rfl
  | insertItemInArray array which newitem =>
      cases array with
      | none =>
          refine ⟨m, kids, ?_, h⟩
          rw [Call.run, JsonRead.insertItemInArray]
          split <;> rfl
      | some p =>
          obtain ⟨hp, x, hx, hattach⟩ := hallowed p rfl
          obtain rfl : newitem = some x := hx
          by_cases hwhich : which < 0
          · refine ⟨m, kids, ?_, h⟩
            rw [Call.run, JsonRead.insertItemInArray, if_pos hwhich]
            rfl
          · obtain ⟨m', hrun, _, hlists⟩ := h.insert hp hattach (Int.not_lt.mp hwhich)
            exact ⟨m', _, hrun, hlists⟩
  | detachItemViaPointer parent item =>
      cases parent with
      | none => exact ⟨m, kids, rfl, h⟩
      | some p =>
          obtain ⟨m', kids', hrun, hlists, _⟩ := h.detachOf (hallowed p rfl)
          exact ⟨m', kids', by rw [Call.run, hrun]; rfl, hlists⟩
  | detachItemFromArray array which =>
      cases array with
      | none =>
          refine ⟨m, kids, ?_, h⟩
          rw [Call.run, JsonRead.detachItemFromArray]
          split <;> rfl
      | some p =>
          obtain ⟨r, m', kids', hrun, hlists, _⟩ := h.detachFromArray (hallowed p rfl) which
          exact ⟨m', kids', by rw [Call.run, hrun]; rfl, hlists⟩
  | deleteItemFromArray array which =>
      cases array with
      | none =>
          refine ⟨m, kids, ?_, h⟩
          rw [Call.run, JsonRead.deleteItemFromArray, JsonRead.detachItemFromArray]
          split <;> rfl
      | some p =>
          obtain ⟨r, m₁, kids₁, hrun, hlists, hroot⟩ := h.detachFromArray (hallowed p rfl) which
          obtain ⟨m', kids', hdelete, hlists'⟩ := hlists.deleteOf hroot
          exact ⟨m', kids', by rw [Call.run, JsonRead.deleteItemFromArray, hrun]; exact hdelete,
            hlists'⟩
  | detachItemFromObject object string caseSensitive =>
      cases object with
      | none => exact ⟨m, kids, rfl, h⟩
      | some p =>
          obtain ⟨r, m', kids', hrun, hlists, _⟩ :=
            h.detachFromObject (hallowed p rfl) string caseSensitive
          exact ⟨m', kids', by rw [Call.run, hrun]; rfl, hlists⟩
  | deleteItemFromObject object string caseSensitive =>
      cases object with
      | none => exact ⟨m, kids, rfl, h⟩
      | some p =>
          obtain ⟨r, m₁, kids₁, hrun, hlists, hroot⟩ :=
            h.detachFromObject (hallowed p rfl) string caseSensitive
          obtain ⟨m', kids', hdelete, hlists'⟩ := hlists.deleteOf hroot
          exact ⟨m', kids', by rw [Call.run, JsonRead.deleteItemFromObject, hrun]; exact hdelete,
            hlists'⟩
  | replaceItemViaPointer parent item replacement =>
      cases parent with
      | none => exact ⟨m, kids, rfl, h⟩
      | some p =>
      cases replacement with
      | none => exact ⟨m, kids, by cases item <;> rfl, h⟩
      | some r =>
          obtain ⟨done, m', kids', hrun, hlists⟩ :=
            h.replaceOf (fun c hc => (hallowed p rfl c hc r rfl).1)
              fun c hc => (hallowed p rfl c hc r rfl).2
          exact ⟨m', kids', by rw [Call.run, hrun]; rfl, hlists⟩
  | replaceItemInArray array which newitem =>
      rw [Call.run, JsonRead.replaceItemInArray]
      by_cases hwhich : which < 0
      · rw [if_pos hwhich]
        exact ⟨m, kids, rfl, h⟩
      rw [if_neg hwhich]
      cases array with
      | none => exact ⟨m, kids, rfl, h⟩
      | some p =>
          obtain ⟨hp, hnew⟩ := hallowed p rfl
          rw [h.getArrayItem_eq hp]
          cases newitem with
          | none =>
              refine ⟨m, kids, ?_, h⟩
              cases (kids p)[which.toNat]? <;> rfl
          | some x =>
              obtain ⟨done, m', kids', hrun, hlists⟩ :=
                @Lists.replaceOf _ m kids h p x (kids p)[which.toNat]? mem_of_getElem?_mem
                  fun _ _ => .inr (hnew x rfl)
              refine ⟨m', kids', ?_, hlists⟩
              simp only [bind, Except.bind, hrun]
              rfl
  | replaceItemInObject object string replacement caseSensitive =>
      cases replacement with
      | none => exact ⟨m, kids, rfl, h⟩
      | some x =>
      cases string with
      | none => exact ⟨m, kids, rfl, h⟩
      | some s =>
          obtain ⟨p, hobject, hp, hx⟩ := hallowed x rfl
          obtain rfl : object = some p := hobject
          obtain ⟨m', kids', hrun, hlists⟩ :=
            @Lists.replaceInObject _ m kids grants h p x hp hx s caseSensitive
          exact ⟨m', kids', by rw [Call.run, hrun]; rfl, hlists⟩
  | addItemToObject object string item constantKey =>
      cases object with
      | none => exact ⟨m, kids, rfl, h⟩
      | some p =>
      cases string with
      | none => exact ⟨m, kids, rfl, h⟩
      | some s =>
      cases item with
      | none => exact ⟨m, kids, rfl, h⟩
      | some x =>
          obtain ⟨hp, hx⟩ := hallowed p rfl x rfl
          obtain ⟨r, kids', hrun, hlists⟩ := h.addNamed grants hp hx s constantKey
          exact ⟨r.2, kids', by rw [Call.run, hrun]; rfl, hlists⟩
  | addItemReferenceToObject object string item =>
      cases object with
      | none => exact ⟨m, kids, rfl, h⟩
      | some p =>
      cases string with
      | none => exact ⟨m, kids, rfl, h⟩
      | some s =>
      cases item with
      | none => exact ⟨m, kids, rfl, h⟩
      | some x =>
          obtain ⟨hp, hx⟩ := hallowed p rfl x rfl
          obtain ⟨r, m₁, hrun, hlists, hcreated, hsame, hfresh⟩ := h.createReference grants hx
          rw [Call.run, JsonRead.addItemReferenceToObject, hrun]
          cases r with
          | none => exact ⟨m₁, kids, rfl, hlists⟩
          | some item =>
              obtain ⟨r, kids', hadd, hlists'⟩ := hlists.addNamed grants (hsame.owner hp)
                (hcreated.attachable rfl (hp.ne_created hfresh rfl)) s false
              refine ⟨r.2, kids', ?_, hlists'⟩
              simp only [bind, Except.bind, hadd]
              rfl
  | addNewToObject object name type valueint valuedouble =>
      obtain ⟨r, m₁, hrun, hlists, hcreated, hsame, hfresh, _⟩ := @Lists.newItem _ m kids h grants
        { Node.zero dbl with type, valueint, valuedouble } rfl rfl (fun _ => rfl) rfl
      obtain ⟨r', m', kids', hadd, hlists'⟩ := @Lists.addCreated _ m₁ kids grants hlists r hcreated
        object (fun o ho => ⟨(Extends.of_same (fun p hp => (hfresh p hp).1) hsame).owner
          (hallowed o ho), fun item hitem =>
          (hallowed o ho).ne_created (fun p hp => (hfresh p hp).1) hitem⟩) name
      refine ⟨m', kids', ?_, hlists'⟩
      have hcreate : JsonRead.createItem dbl grants m type valueint valuedouble = (r, m₁) := hrun
      rw [Call.run, hcreate, hadd]
      rfl
  | addTextToObject object name type string =>
      obtain ⟨r, m₁, hrun, hlists, hcreated, hsame, hfresh, _⟩ := h.createText grants type string
      obtain ⟨r', m', kids', hadd, hlists'⟩ := @Lists.addCreated _ m₁ kids grants hlists r hcreated
        object (fun o ho => ⟨(Extends.of_same (fun p hp => (hfresh p hp).1) hsame).owner
          (hallowed o ho), fun item hitem =>
          (hallowed o ho).ne_created (fun p hp => (hfresh p hp).1) hitem⟩) name
      refine ⟨m', kids', ?_, hlists'⟩
      rw [Call.run, hrun]
      simp only [bind, Except.bind, hadd]
      rfl
  | delete item => exact h.deleteOf hallowed

theorem Reachable.lists (h : Reachable dbl grants m) : ∃ kids, Lists m kids := by
  induction h with
  | start calls => exact ⟨_, .empty calls⟩
  | call c _ hlists hallowed hrun _ =>
      obtain ⟨m', kids', hrun', hlists'⟩ := hlists.call c hallowed
      obtain rfl := Except.ok.inj (hrun'.symm.trans hrun)
      exact ⟨kids', hlists'⟩

/-- Whatever calls were made, and whichever allocations were refused on the way:
the items are a forest with its lists linked both ways, the blocks in use are
theirs, and the next call, if the library allows it, returns, too. -/
theorem reachable_safe (h : Reachable dbl grants m) :
    ∃ kids, Lists m kids ∧ m.heap.live = m.blocks ∧
      ∀ c : Call dbl, c.Allowed m kids →
        ∃ m', c.run grants m = .ok m' ∧ Reachable dbl grants m' := by
  obtain ⟨kids, hlists⟩ := h.lists
  refine ⟨kids, hlists, hlists.accounted, fun c hallowed => ?_⟩
  obtain ⟨m', kids', hrun, _⟩ := hlists.call c hallowed
  exact ⟨m', hrun, .call c h hlists hallowed hrun⟩

end Run

theorem Reachable.created {m : Memory (Fin 10)} {kids : Nat → List Nat}
    (h : Reachable digits (fun _ => true) m) (hlists : Lists m kids) (type : Kind) (valueint : Int)
    (valuedouble : Fin 10) :
    Reachable digits (fun _ => true)
      (createItem digits (fun _ => true) m type valueint valuedouble).2 :=
  .call (.createItem type valueint valuedouble) h hlists trivial rfl

theorem Reachable.named {m m' : Memory (Fin 10)} {kids : Nat → List Nat}
    (h : Reachable digits (fun _ => true) m) (hlists : Lists m kids) {object item : Nat}
    (hp : Owner m object) (hitem : Attachable m kids object item)
    (hrun : addItemToObject (fun _ => true) m (some object) (some (CStr.at [97])) (some item) false
      = .ok (true, m')) : Reachable digits (fun _ => true) m' := by
  refine .call (.addItemToObject (some object) (some (CStr.at [97])) (some item) false) h hlists
    ?_ ?_
  · rintro _ ⟨⟩ _ ⟨⟩
    exact ⟨hp, hitem⟩
  · rw [Call.run, hrun]
    rfl

theorem oneObject_reachable : Reachable digits (fun _ => true) oneObject :=
  (((Reachable.start 0).created (.empty 0) .object 0 digits.zero).created object_lists .number
    (digits.saturate digits.one) digits.one).named objectAndNumber_lists ⟨_, rfl, rfl⟩
    objectAndNumber_attachable rfl

theorem twoObjects_reachable : Reachable digits (fun _ => true) twoObjects :=
  ((oneObject_reachable.created oneObject_lists .object 0 digits.zero).created
    (oneObject_lists.created .object 0 digits.zero) .number (digits.saturate digits.one)
    digits.one).named oneAndTwo_lists ⟨_, rfl, rfl⟩ oneAndTwo_attachable rfl

theorem reachable_safe_twoObjects :
    ∃ kids, Lists twoObjects kids ∧ twoObjects.heap.live = twoObjects.blocks ∧
      ∀ c : Call digits, c.Allowed twoObjects kids →
        ∃ m', c.run (fun _ => true) twoObjects = .ok m' ∧
          Reachable digits (fun _ => true) m' :=
  reachable_safe twoObjects_reachable

end JsonRead

end BeEasy
