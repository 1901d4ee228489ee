import BeEasy.JsonRead.Calls

/-!
# JsonRead — CreateArray

`cJSON_CreateIntArray` and the other three. They link each new item behind the
last one without a walk through the list, and do nothing that creating the items
one by one and adding each to the array would not.
-/

namespace BeEasy

open CVerif

namespace JsonRead

/-! ## The functions -/

section Functions

variable {D E : Type}

/-- The link to a new item in the array `a`: from `a` in the first turn, when `p`
is still NULL, and else from the item of the turn before. -/
def linkBehind (m : Memory D) (a : Nat) (p : Option Nat) (n : Nat) : Except Stop (Memory D) :=
  match p with
  | none => m.edit a ({ · with child := some n })
  | some p => suffixObject m p n

/-- The loop of the four functions, from a turn on. -/
def fillArray (create : E → Memory D → Except Stop (Option Nat × Memory D)) (a : Nat) :
    Nat → List E → Option Nat → Memory D → Except Stop (Option Nat × Memory D)
  | 0, _, _, m => return (some a, m)
  | _ + 1, [], _, _ => .error .outOfBounds
  | turns + 1, e :: es, p, m => do
      match ← create e m with
      | (none, m) => return (none, ← delete m (some a))
      | (some n, m) => fillArray create a turns es (some n) (← linkBehind m a p n)

variable (dbl : Doubles) (grants : Nat → Bool)

/-- The functions that make an array of what an array of C holds. -/
def createArrayOf (create : E → Memory dbl.Double → Except Stop (Option Nat × Memory dbl.Double))
    (m : Memory dbl.Double) (elements : Option (List E)) (count : Int) :
    Except Stop (Option Nat × Memory dbl.Double) :=
  match elements with
  | none => return (none, m)
  | some elements =>
      if count < 0 then return (none, m)
      else
        match createArray dbl grants m with
        | (none, m) => return (none, m)
        | (some a, m) => fillArray create a count.toNat elements none m

/-- `cJSON_CreateNumber`, in a turn of the loops. -/
def numberOf (number : dbl.Double) (m : Memory dbl.Double) :
    Except Stop (Option Nat × Memory dbl.Double) := return createNumber dbl grants m number

/-- `cJSON_CreateIntArray`, with the conversion to `double`. -/
def createIntArray (ofInt : BitVec 32 → dbl.Double) (m : Memory dbl.Double)
    (numbers : Option (List (BitVec 32))) (count : Int) :=
  createArrayOf dbl grants (fun number => numberOf dbl grants (ofInt number)) m numbers count

/-- `cJSON_CreateFloatArray`, with the conversion to `double`. -/
def createFloatArray {Float : Type} (ofFloat : Float → dbl.Double) (m : Memory dbl.Double)
    (numbers : Option (List Float)) (count : Int) :=
  createArrayOf dbl grants (fun number => numberOf dbl grants (ofFloat number)) m numbers count

/-- `cJSON_CreateDoubleArray`. -/
def createDoubleArray (m : Memory dbl.Double) (numbers : Option (List dbl.Double)) (count : Int) :=
  createArrayOf dbl grants (numberOf dbl grants) m numbers count

/-- `cJSON_CreateStringArray`. -/
def createStringArray (m : Memory dbl.Double) (strings : Option (List (Option CStr)))
    (count : Int) :=
  createArrayOf dbl grants (fun string m => createString dbl grants m string) m strings count

end Functions

/-! ## A turn -/

section Turn

variable {D : Type} {m m' : Memory D} {kids : Nat → List Nat}

/-- Another item keeps all its fields. -/
theorem edit_at_ne {p x : Nat} {f : Node D → Node D} (h : m.edit p f = .ok m') (hx : x ≠ p) :
    m'.at x = m.at x := by
  unfold Memory.edit at h
  cases hload : m.load p with
  | error stop =>
      rw [hload] at h
      cases h
  | ok n =>
      rw [hload] at h
      obtain rfl := Except.ok.inj h
      exact congrArg Option.join (List.getElem?_set_ne hx.symm)

/-- So do all but the new item, the array and the item in front. -/
theorem linkBehind_at_ne {a n x : Nat} {p : Option Nat} (h : linkBehind m a p n = .ok m')
    (ha : x ≠ a) (hp : ∀ q ∈ p, x ≠ q) (hn : x ≠ n) : m'.at x = m.at x := by
  cases p with
  | none => exact edit_at_ne h ha
  | some p =>
      unfold linkBehind suffixObject at h
      cases hfirst : m.edit p ({ · with next := some n }) with
      | error stop =>
          simp only [hfirst] at h
          cases h
      | ok m₁ =>
          simp only [hfirst] at h
          exact (edit_at_ne h hn).trans (edit_at_ne hfirst (hp p rfl))

/-- Behind the last item is where `add_item_to_array` links an item, too. -/
theorem Lists.linkBehind_eq (h : Lists m kids) {a : Nat} (ha : Owner m a) (n : Nat) :
    addItemToArray m (some a) (some n)
      = (linkBehind m a (kids a).getLast? n).map fun m' => (true, m') := by
  obtain ⟨node, hnode, hreference⟩ := ha
  have hchild := h.child a ⟨node, hnode, hreference⟩
  rw [childOf_eq hnode] at hchild
  rw [addItemToArray, Memory.load_eq hnode]
  simp only [bind, Except.bind]
  rw [hchild]
  rcases hkids : kids a with _ | ⟨first, others⟩
  · simp only [List.head?_nil, List.getLast?_nil, linkBehind]
    cases m.edit a ({ · with child := some n }) <;> rfl
  · have hlinked := h.linked a
    have hlength := length_le_nodes (h.forest.nodup a) (h.live a)
    have hlive := h.live a
    rw [hkids] at hlinked hlength hlive
    obtain ⟨last, hlast, hwalk⟩ := lastItem_eq hlinked hlive
      (show others.length < m.nodes.length + 1 by rw [List.length_cons] at hlength; omega)
    simp only [List.head?_cons, hwalk, hlast, linkBehind]
    cases suffixObject m last n <;> rfl

theorem Lists.link (h : Lists m kids) {a n : Nat} (ha : Owner m a) (hn : Attachable m kids a n) :
    ∃ m', linkBehind m a (kids a).getLast? n = .ok m' ∧
      addItemToArray m (some a) (some n) = .ok (true, m') ∧ Edited m m' ∧
      Lists m' (Function.update kids a (kids a ++ [n])) := by
  obtain ⟨m', hadd, hedited, hlists⟩ := h.add ha hn
  have hlink := h.linkBehind_eq ha n
  rw [hadd] at hlink
  cases hrun : linkBehind m a (kids a).getLast? n with
  | error stop =>
      rw [hrun] at hlink
      cases hlink
  | ok m₁ =>
      rw [hrun] at hlink
      obtain rfl : m' = m₁ := congrArg Prod.snd (Except.ok.inj hlink)
      exact ⟨m', rfl, hadd, hedited, hlists⟩

/-- The lists are the same where the items are. -/
theorem Lists.of_at (h : Lists m kids) (hat : ∀ x, m'.at x = m.at x)
    (haccounted : m'.heap.live = m'.blocks) : Lists m' kids := by
  have hsame : m'.at = m.at := funext hat
  have hlinks : linksOf m' = linksOf m := by rw [linksOf, linksOf, hsame]
  have hchild : childOf m' = childOf m := by
    funext p
    rw [childOf, childOf, hsame]
  have howner : ∀ p, Owner m' p ↔ Owner m p := fun p => by rw [Owner, Owner, hsame]
  refine ⟨h.forest, fun p hp => (howner p).mpr (h.owner p hp), fun p hp => ?_, fun p c hc => ?_,
    fun p => ?_, fun x hx => ?_, haccounted⟩
  · rw [hchild]
    exact h.child p ((howner p).mp hp)
  · rw [hsame]
    exact h.live p c hc
  · rw [hlinks]
    exact h.linked p
  · rw [hlinks]
    exact h.root x hx

/-- The array `a` between two turns: it has only items without children, which
with it are all that `m₀` did not have. -/
structure Filling (m₀ m : Memory D) (kids : Nat → List Nat) (a : Nat) : Prop where
  owner : Owner m a
  root : IsRoot kids a
  leaf : ∀ c ∈ kids a, kids c = []
  old : ∀ x, (m₀.at x).isSome = true →
    x ≠ a ∧ x ∉ kids a ∧ m.at x = m₀.at x
  new : ∀ x, m₀.at x = none → (m.at x).isSome = true → x = a ∨ x ∈ kids a

variable {m₀ : Memory D} {a : Nat}

theorem Filling.below (hfilling : Filling m₀ m kids a) {x : Nat} :
    Below kids x a ↔ x = a ∨ x ∈ kids a := by
  constructor
  · intro hbelow
    rcases Relation.ReflTransGen.cases_tail hbelow with heq | ⟨c, hxc, hc⟩
    · exact .inl heq.symm
    · rcases Relation.ReflTransGen.cases_tail hxc with heq | ⟨d, _, hd⟩
      · exact .inr (heq ▸ hc)
      · rw [hfilling.leaf c hc] at hd
        cases hd
  · rintro (rfl | hx)
    · exact .refl
    · exact .single hx

/-- `cJSON_Delete` on the array leaves what was there before. -/
theorem Filling.delete (hfilling : Filling m₀ m kids a) (h : Lists m kids) :
    ∃ m' kids', JsonRead.delete m (some a) = .ok m' ∧ Lists m' kids' ∧
      ∀ x, m'.at x = m₀.at x := by
  obtain ⟨m', all, hrun, hmem, hat, hlists⟩ := h.delete hfilling.owner.live hfilling.root
  refine ⟨m', _, hrun, hlists, fun x => ?_⟩
  have hall : x ∈ all ↔ x = a ∨ x ∈ kids a := (hmem x).trans hfilling.below
  rw [hat]
  cases hold : m₀.at x with
  | some n =>
      obtain ⟨hne, hout, hkept⟩ := hfilling.old x (hold ▸ rfl)
      rw [if_neg fun hx => (hall.mp hx).elim hne hout, hkept, hold]
  | none =>
      by_cases hx : x ∈ all
      · rw [if_pos hx]
      · rw [if_neg hx]
        cases hlive : m.at x with
        | none => rfl
        | some n => exact absurd (hall.mpr (hfilling.new x hold (hlive ▸ rfl))) hx

theorem Filling.same (hfilling : Filling m₀ m kids a) {m' : Memory D}
    (hat : ∀ x, m'.at x = m.at x) : Filling m₀ m' kids a := by
  refine ⟨hfilling.owner.of_at (hat a), hfilling.root, hfilling.leaf, fun x hx => ?_,
    fun x hx hlive => hfilling.new x hx (hat x ▸ hlive)⟩
  rw [hat]
  exact hfilling.old x hx

/-- One more item in the array. -/
theorem Filling.link (hfilling : Filling m₀ m kids a) {m₁ m₂ : Memory D} {n : Nat}
    (hnone : m.at n = none) (hat : ∀ x, x ≠ n → m₁.at x = m.at x) (hleaf : kids n = [])
    (hedited : Edited m₁ m₂) (hlink : linkBehind m₁ a (kids a).getLast? n = .ok m₂) :
    Filling m₀ m₂ (Function.update kids a (kids a ++ [n])) a := by
  have hne : a ≠ n := by
    rintro rfl
    have hlive := hfilling.owner.live
    rw [hnone] at hlive
    cases hlive
  refine ⟨?_, ?_, ?_, ?_, ?_⟩
  · exact hedited.owner.mpr (hfilling.owner.of_at (hat a hne))
  · intro q hq
    by_cases heq : q = a
    · rw [heq, Function.update_self, List.mem_append, List.mem_singleton] at hq
      exact hq.elim (hfilling.root a) hne
    · rw [Function.update_of_ne heq] at hq
      exact hfilling.root q hq
  · intro c hc
    rw [Function.update_self, List.mem_append, List.mem_singleton] at hc
    rcases hc with hc | rfl
    · have hca : c ≠ a := by
        rintro rfl
        exact hfilling.root c hc
      rw [Function.update_of_ne hca, hfilling.leaf c hc]
    · rw [Function.update_of_ne hne.symm, hleaf]
  · intro x hx
    obtain ⟨hxa, hout, hkept⟩ := hfilling.old x hx
    have hxn : x ≠ n := by
      rintro rfl
      rw [← hkept, hnone] at hx
      cases hx
    refine ⟨hxa, ?_, ?_⟩
    · rw [Function.update_self, List.mem_append, List.mem_singleton]
      exact fun h => h.elim hout hxn
    · have hlast : ∀ q ∈ (kids a).getLast?, x ≠ q := by
        rintro q hq rfl
        exact hout (List.mem_of_getLast? hq)
      rw [linkBehind_at_ne hlink hxa hlast hxn, hat x hxn, hkept]
  · intro x hx hlive
    rw [hedited.live] at hlive
    rw [Function.update_self, List.mem_append, List.mem_singleton]
    by_cases hxn : x = n
    · exact .inr (.inr hxn)
    · rw [hat x hxn] at hlive
      exact (hfilling.new x hx hlive).imp_right .inl

end Turn

/-! ## A run -/

section Run

variable {dbl : Doubles} {grants : Nat → Bool} {E : Type}

/-- What a turn makes of an element: nothing, or this new item in no list. -/
def Makes (grants : Nat → Bool)
    (create : E → Memory dbl.Double → Except Stop (Option Nat × Memory dbl.Double))
    (node : E → Node dbl.Double) (valid : E → Prop) : Prop :=
  ∀ e {m : Memory dbl.Double} {kids : Nat → List Nat}, Reachable dbl grants m → Lists m kids →
    ∃ r m', create e m = .ok (r, m') ∧ Reachable dbl grants m' ∧ Lists m' kids ∧
      Created m' kids r ∧ (∀ x, x ∉ r → m'.at x = m.at x) ∧
      (∀ p ∈ r, m.at p = none ∧ m'.at p = some (node e)) ∧
      ((∀ n, grants n = true) → valid e → r.isSome = true)

variable {create : E → Memory dbl.Double → Except Stop (Option Nat × Memory dbl.Double)}
  {node : E → Node dbl.Double} {valid : E → Prop} {m₀ : Memory dbl.Double} {a : Nat}

theorem fillArray_run (hmakes : Makes grants create node valid) (es : List E) :
    ∀ {m : Memory dbl.Double} {kids : Nat → List Nat}, Reachable dbl grants m → Lists m kids →
      Filling m₀ m kids a →
    ∃ r m' kids', fillArray create a es.length es (kids a).getLast? m = .ok (r, m') ∧
      Reachable dbl grants m' ∧ Lists m' kids' ∧
      ((r = some a ∧ Filling m₀ m' kids' a ∧
          (∀ x, (m.at x).isSome = true → (m'.at x).map Node.data = (m.at x).map Node.data) ∧
          ∃ ns, kids' = Function.update kids a (kids a ++ ns) ∧
            ns.map (fun n => (m'.at n).map Node.data) = es.map fun e => some (node e).data) ∨
        r = none ∧ (∀ x, m'.at x = m₀.at x) ∧
          ¬((∀ n, grants n = true) ∧ ∀ e ∈ es, valid e)) := by
  induction es with
  | nil =>
      intro m kids hreach hlists hfilling
      refine ⟨some a, m, kids, rfl, hreach, hlists, .inl ⟨rfl, hfilling, fun _ _ => rfl, [], ?_,
        rfl⟩⟩
      rw [List.append_nil, Function.update_eq_self]
  | cons e es ih =>
      intro m kids hreach hlists hfilling
      obtain ⟨r, m₁, hcreate, hreach₁, hlists₁, hcreated, hsame, hat, hmade⟩ :=
        hmakes e hreach hlists
      simp only [List.length_cons, fillArray, hcreate, bind, Except.bind]
      cases r with
      | none =>
          have hfilling₁ : Filling m₀ m₁ kids a :=
            hfilling.same fun x => hsame x (Option.not_mem_none _)
          obtain ⟨m', kids', hrun, hlists', hkept⟩ := hfilling₁.delete hlists₁
          have hallowed : (Call.delete (some a) : Call dbl).Allowed m₁ kids := by
            rintro _ ⟨⟩
            exact ⟨hfilling₁.owner.live, hfilling₁.root⟩
          simp only [hrun]
          refine ⟨none, m', kids', rfl, .call _ hreach₁ hlists₁ hallowed hrun, hlists',
            .inr ⟨rfl, hkept, fun hall => ?_⟩⟩
          cases hmade hall.1 (hall.2 e List.mem_cons_self)
      | some n =>
          obtain ⟨hnone, hn⟩ := hat n rfl
          obtain ⟨hlive, hroot, hleaf⟩ := hcreated n rfl
          have hat₁ : ∀ x, x ≠ n → m₁.at x = m.at x :=
            fun x hx => hsame x fun heq => hx (Option.some.inj heq).symm
          have hne : a ≠ n := hfilling.owner.ne_created (r := some n)
            (fun p hp => (hat p hp).1) rfl
          have howner : Owner m₁ a := hfilling.owner.of_at (hat₁ a hne)
          have hattach : Attachable m₁ kids a n := hcreated.attachable rfl hne
          obtain ⟨m₂, hlink, hadd, hedited, hlists₂⟩ := hlists₁.link howner hattach
          have hallowed : (Call.addItemToArray (some a) (some n) : Call dbl).Allowed m₁ kids := by
            rintro _ ⟨⟩ _ ⟨⟩
            exact ⟨howner, hattach⟩
          have hreach₂ : Reachable dbl grants m₂ :=
            .call _ hreach₁ hlists₁ hallowed (by rw [Call.run, hadd]; rfl)
          have hframe : ∀ x, (m.at x).isSome = true →
              (m₂.at x).map Node.data = (m.at x).map Node.data := by
            intro x hx
            rw [hedited.data, hat₁ x]
            rintro rfl
            rw [hnone] at hx
            cases hx
          obtain ⟨r, m', kids', hrun, hreach', hlists', houtcome⟩ :=
            ih hreach₂ hlists₂ (hfilling.link hnone hat₁ hleaf hedited hlink)
          rw [Function.update_self, List.getLast?_concat] at hrun
          simp only [hlink]
          refine ⟨r, m', kids', hrun, hreach', hlists', ?_⟩
          obtain ⟨rfl, hfilling', hframe', ns, hkids, hns⟩ | ⟨rfl, hkept, hrefused⟩ := houtcome
          · have hlive₂ : ∀ x, (m₁.at x).isSome = true → (m₂.at x).isSome = true :=
              fun x hx => (hedited.live x).trans hx
            refine .inl ⟨rfl, hfilling', fun x hx => ?_, n :: ns, ?_, ?_⟩
            · have hx₂ : (m₂.at x).isSome = true := by
                rw [← Option.isSome_map (f := Node.data), hframe x hx, Option.isSome_map]
                exact hx
              rw [hframe' x hx₂, hframe x hx]
            · rw [hkids, Function.update_self, Function.update_idem, List.append_assoc]
              rfl
            · rw [List.map_cons, List.map_cons, hns, hframe' n (hlive₂ n hlive), hedited.data, hn]
              rfl
          · exact .inr ⟨rfl, hkept, fun hall =>
              hrefused ⟨hall.1, fun e he => hall.2 e (List.mem_cons_of_mem _ he)⟩⟩

/-! ## What a turn makes -/

/-- The item of a number. -/
def numberNode (dbl : Doubles) (number : dbl.Double) : Node dbl.Double :=
  { Node.zero dbl with type := .number, valueint := dbl.saturate number, valuedouble := number }

/-- The item of a string. -/
def stringNode (dbl : Doubles) (string : Option CStr) : Node dbl.Double :=
  { Node.zero dbl with type := .string, valuestring := string }

theorem makes_number (grants : Nat → Bool) (ofNumber : E → dbl.Double) :
    Makes grants (fun number => numberOf dbl grants (ofNumber number))
      (fun number => numberNode dbl (ofNumber number)) fun _ => True := by
  intro e m kids hreach hlists
  obtain ⟨r, m', hnew, hlists', hcreated, hsame, hat, hmade⟩ := @Lists.newItem _ m kids hlists
    grants (numberNode dbl (ofNumber e)) rfl rfl (fun _ => rfl) rfl
  refine ⟨r, m', congrArg Except.ok hnew, ?_, hlists', hcreated, hsame, hat,
    fun hall _ => hmade hall⟩
  exact .call (.createItem .number (dbl.saturate (ofNumber e)) (ofNumber e)) hreach hlists trivial
    (congrArg Except.ok (congrArg Prod.snd hnew))

theorem makes_string (grants : Nat → Bool) :
    Makes grants (fun string m => createString dbl grants m string) (stringNode dbl)
      fun string => string.isSome = true := by
  intro e m kids hreach hlists
  obtain ⟨r, m', hrun, hlists', hcreated, hsame, hat, hmade⟩ := hlists.createText grants .string e
  refine ⟨r, m', hrun, ?_, hlists', hcreated, hsame, hat, hmade⟩
  exact .call (.createText .string e) hreach hlists trivial (by rw [Call.run, hrun]; rfl)

/-! ## The arrays -/

/-- What a function that makes an array of these items comes to: an array that was
not there before, with all of them in order, and nothing else changed; or NULL,
with everything as it was, where memory is refused or an element is not valid. -/
def Fills (grants : Nat → Bool) (node : E → Node dbl.Double) (valid : E → Prop)
    (m : Memory dbl.Double) (kids : Nat → List Nat) (elements : List E)
    (run : Except Stop (Option Nat × Memory dbl.Double)) : Prop :=
  ∃ r m' kids', run = .ok (r, m') ∧ Reachable dbl grants m' ∧ Lists m' kids' ∧
    (∀ x, (m.at x).isSome = true → m'.at x = m.at x) ∧
    (∀ a ∈ r, m.at a = none ∧
      (m'.at a).map Node.data = some { Node.zero dbl with type := .array } ∧
      ∃ ns, kids' = Function.update kids a ns ∧
        ns.map (fun n => (m'.at n).map Node.data) = elements.map fun e => some (node e).data) ∧
    (r = none → (∀ x, m'.at x = m.at x) ∧ kids' = kids) ∧
    ((∀ n, grants n = true) → (∀ e ∈ elements, valid e) → r.isSome = true)

theorem createArrayOf_fills (hmakes : Makes grants create node valid) {m : Memory dbl.Double}
    {kids : Nat → List Nat} (hreach : Reachable dbl grants m) (h : Lists m kids)
    (elements : List E) :
    Fills grants node valid m kids elements
      (createArrayOf dbl grants create m (some elements) elements.length) := by
  obtain ⟨r, m₁, hnew, hlists, hcreated, hsame, hat, hmade⟩ := @Lists.newItem _ m kids h grants
    { Node.zero dbl with type := .array } rfl rfl (fun _ => rfl) rfl
  have hcreate : createArray dbl grants m = (r, m₁) := hnew
  have hreach₁ : Reachable dbl grants m₁ :=
    .call (.createItem .array 0 dbl.zero) hreach h trivial
      (congrArg Except.ok (congrArg Prod.snd hnew))
  unfold Fills createArrayOf
  rw [hcreate]
  simp only [Int.toNat_natCast, if_neg (Int.not_lt.mpr (Int.natCast_nonneg elements.length))]
  cases r with
  | none =>
      have hkept : ∀ x, m₁.at x = m.at x := fun x => hsame x (Option.not_mem_none _)
      refine ⟨none, m₁, kids, rfl, hreach₁, hlists, fun x _ => hkept x,
        fun _ ha => absurd ha (Option.not_mem_none _), fun _ => ⟨hkept, rfl⟩, fun hall => ?_⟩
      cases hmade hall
  | some a =>
      obtain ⟨hnone, ha⟩ := hat a rfl
      obtain ⟨hlive, hroot, hleaf⟩ := hcreated a rfl
      have hkept : ∀ x, x ≠ a → m₁.at x = m.at x :=
        fun x hx => hsame x fun heq => hx (Option.some.inj heq).symm
      have hne : ∀ x, (m.at x).isSome = true → x ≠ a := by
        rintro x hx rfl
        rw [hnone] at hx
        cases hx
      have hfilling : Filling m m₁ kids a := by
        refine ⟨⟨_, ha, rfl⟩, hroot, ?_, fun x hx => ⟨hne x hx, ?_, ?_⟩, fun x hx hx₁ => ?_⟩
        · rw [hleaf]
          exact fun _ hc => absurd hc List.not_mem_nil
        · rw [hleaf]
          exact List.not_mem_nil
        · exact hkept x (hne x hx)
        · by_contra hout
          rw [hkept x fun heq => hout (.inl heq), hx] at hx₁
          cases hx₁
      obtain ⟨r, m', kids', hrun, hreach', hlists', houtcome⟩ :=
        fillArray_run hmakes elements hreach₁ hlists hfilling
      rw [hleaf, List.getLast?_nil] at hrun
      obtain ⟨rfl, hfilling', hframe, ns, hkids, hns⟩ | ⟨rfl, hsame', hrefused⟩ := houtcome
      · refine ⟨_, m', kids', hrun, hreach', hlists', fun x hx => (hfilling'.old x hx).2.2, ?_,
          fun hnone => ?_, fun _ _ => rfl⟩
        · rintro _ ⟨⟩
          rw [hleaf, List.nil_append] at hkids
          refine ⟨hnone, ?_, ns, hkids, hns⟩
          rw [hframe a hlive, ha]
          rfl
        · cases hnone
      · -- what was there is as it was, and so are the lists
        exact ⟨none, m', kids, hrun, hreach', h.of_at hsame' hlists'.accounted, fun x _ => hsame' x,
          fun _ ha => absurd ha (Option.not_mem_none _), fun _ => ⟨hsame', rfl⟩,
          fun hall hvalid => absurd ⟨hall, hvalid⟩ hrefused⟩

/-- The four functions on whole arrays of C, in a memory that calls of the library
have led to. -/
theorem createArrays_fill {m : Memory dbl.Double} {kids : Nat → List Nat}
    (hreach : Reachable dbl grants m) (h : Lists m kids) :
    (∀ ofInt (numbers : List (BitVec 32)),
      Fills grants (fun number => numberNode dbl (ofInt number)) (fun _ => True) m kids numbers
        (createIntArray dbl grants ofInt m (some numbers) numbers.length)) ∧
    (∀ {Float : Type} (ofFloat : Float → dbl.Double) (numbers : List Float),
      Fills grants (fun number => numberNode dbl (ofFloat number)) (fun _ => True) m kids numbers
        (createFloatArray dbl grants ofFloat m (some numbers) numbers.length)) ∧
    (∀ numbers : List dbl.Double,
      Fills grants (numberNode dbl) (fun _ => True) m kids numbers
        (createDoubleArray dbl grants m (some numbers) numbers.length)) ∧
    ∀ strings : List (Option CStr),
      Fills grants (stringNode dbl) (fun string => string.isSome = true) m kids strings
        (createStringArray dbl grants m (some strings) strings.length) :=
  ⟨fun ofInt numbers => createArrayOf_fills (makes_number grants ofInt) hreach h numbers,
    fun ofFloat numbers => createArrayOf_fills (makes_number grants ofFloat) hreach h numbers,
    fun numbers => createArrayOf_fills (makes_number grants id) hreach h numbers,
    fun strings => createArrayOf_fills (makes_string grants) hreach h strings⟩

end Run

theorem createArrays_fill_twoObjects :
    Fills (fun _ => true) (numberNode digits) (fun _ => True) twoObjects twoLists
      [digits.one, digits.zero]
      (createDoubleArray digits (fun _ => true) twoObjects (some [digits.one, digits.zero])
        (2 : Nat)) :=
  (@createArrays_fill digits (fun _ => true) twoObjects twoLists twoObjects_reachable
    twoObjects_lists).2.2.1 [digits.one, digits.zero]

end JsonRead

end BeEasy
