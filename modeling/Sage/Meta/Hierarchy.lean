import Mathlib.Data.Finset.Dedup
import Sage.Meta.Validate

/-!
# Meta — the hierarchy of an accepted model

Validation looks at each class and the nearest declaration above it.  In an accepted model this
holds along the whole chain of bases.

* `Sound` — what validation checks of each class.
* `Sound.line` — the chain of bases of a class ends.
* `Selected` — the declaration that a class selects; `Sound.signature` compares it with the others.
* `dispatch_sound` — the hierarchy of accepted documents.
-/

namespace Sage.Meta

open Std (TreeMap TreeSet)

@[simp] theorem reportIf_eq_nil {condition : Bool} {file : String} {span : Span}
    {message : String} : reportIf condition file span message = [] ↔ condition = false := by
  cases condition <;> simp [reportIf]

@[simp] theorem reportError_eq_nil {α : Type} {file : String} {span : Span}
    {result : Except String α} : reportError file span result = [] ↔ ∃ a, result = .ok a := by
  cases result <;> simp [reportError]

theorem exists_mem_withEarlier {α : Type} {l : List α} {x : α} (h : x ∈ l) :
    ∃ earlier, (earlier, x) ∈ withEarlier l := by
  induction l with
  | nil => cases h
  | cons y l ih =>
      obtain rfl | h := List.mem_cons.mp h
      · exact ⟨[], List.mem_cons_self⟩
      · obtain ⟨earlier, hearlier⟩ := ih h
        exact ⟨y :: earlier, List.mem_cons_of_mem _ (List.mem_map.mpr ⟨_, hearlier, rfl⟩)⟩

/-- A property of each element and those before it relates all pairs. -/
theorem pairwise_of_withEarlier {α : Type} {R : α → α → Prop} {l : List α}
    (h : ∀ later ∈ withEarlier l, ∀ earlier ∈ later.1, R earlier later.2) : l.Pairwise R := by
  induction l with
  | nil => exact .nil
  | cons x l ih =>
      have hrest (later : List α × α) (hlater : later ∈ withEarlier l) :
          (x :: later.1, later.2) ∈ withEarlier (x :: l) :=
        List.mem_cons_of_mem _ (List.mem_map.mpr ⟨later, hlater, rfl⟩)
      refine List.pairwise_cons.mpr ⟨fun y hy => ?_, ih fun later hlater earlier hearlier => ?_⟩
      · obtain ⟨earlier, hearlier⟩ := exists_mem_withEarlier hy
        exact h _ (hrest _ hearlier) x List.mem_cons_self
      · exact h _ (hrest _ hlater) earlier (List.mem_cons_of_mem _ hearlier)

theorem mem_foldl_insert {l : List String} {set : TreeSet String} {a : String} :
    a ∈ l.foldl TreeSet.insert set ↔ a ∈ set ∨ a ∈ l := by
  induction l generalizing set with
  | nil => simp
  | cons b l ih =>
      rw [List.foldl_cons, ih, TreeSet.mem_insert, Std.LawfulEqCmp.compare_eq_iff_eq,
        List.mem_cons]
      constructor
      · rintro ((rfl | h) | h)
        · exact .inr (.inl rfl)
        · exact .inl h
        · exact .inr (.inr h)
      · rintro (h | rfl | h)
        · exact .inl (.inr h)
        · exact .inl (.inl rfl)
        · exact .inr h

theorem singleton_mem {a b : String} : a ∈ ({b} : TreeSet String) ↔ a = b := by
  rw [TreeSet.singleton_eq_insert, TreeSet.mem_insert, Std.LawfulEqCmp.compare_eq_iff_eq]
  exact ⟨fun h => (h.resolve_right TreeSet.not_mem_emptyc).symm, fun h => .inl h.symm⟩

namespace Model

variable {m : Model} {key owner name target : String} {entry entry' : Entry}
  {method method' : Method}

/-! ### Ancestors -/

theorem base_ne_none (h : m.base key ≠ none) : key ∈ m.classes.keys.toFinset := by
  rw [List.mem_toFinset, TreeMap.mem_keys]
  cases hentry : m.classes[key]? with
  | none => exact absurd (by rw [base, hentry]; rfl) h
  | some entry => exact TreeMap.mem_iff_isSome_getElem?.mpr (by rw [hentry]; rfl)

theorem card_keys (m : Model) : m.classes.keys.toFinset.card < m.classes.size + 1 := by
  have h := m.classes.keys.toFinset_card_le
  rw [TreeMap.length_keys] at h
  exact Nat.lt_succ_of_le h

/-- Also in a model with cycles. -/
theorem mem_ancestors : target ∈ m.ancestors key ↔
    Relation.ReflTransGen (Orbit.Step m.base) key target :=
  Orbit.mem_follow_iff (fun _ => base_ne_none) (card_keys m) key target

theorem self_mem_ancestors (m : Model) (key : String) : key ∈ m.ancestors key :=
  mem_ancestors.mpr .refl

theorem ancestors_trans (h : owner ∈ m.ancestors key) (h' : target ∈ m.ancestors owner) :
    target ∈ m.ancestors key :=
  mem_ancestors.mpr ((mem_ancestors.mp h).trans (mem_ancestors.mp h'))

theorem mem_descendants : key ∈ m.descendants owner ↔
    (∃ entry, m.classes[key]? = some entry) ∧ owner ∈ m.ancestors key := by
  rw [descendants, List.mem_filter, TreeMap.mem_keys, TreeMap.mem_iff_isSome_getElem?,
    Option.isSome_iff_exists, decide_eq_true_eq]

/-! ### What validation checks -/

/-- What holds of each class of an accepted model. -/
structure Sound (m : Model) : Prop where
  /-- A base is a class from which nothing leads back. -/
  base : ∀ ⦃key : String⦄ ⦃entry : Entry⦄, m.classes[key]? = some entry → ∀ path, entry.decl.base = some path →
    ∃ target targetEntry, m.base key = some target ∧ m.classes[target]? = some targetEntry ∧
      key ∉ m.ancestors target
  distinct : ∀ ⦃key : String⦄ ⦃entry : Entry⦄, m.classes[key]? = some entry →
    entry.decl.methods.Pairwise fun method other => method.name ≠ other.name
  typed : ∀ ⦃key : String⦄ ⦃entry : Entry⦄, m.classes[key]? = some entry →
    ∀ method ∈ entry.decl.methods, ∃ ty, m.resolveType entry.scope [] method.result = .ok ty
  /-- The nearest declaration above has the same signature. -/
  signature : ∀ ⦃key : String⦄ ⦃entry : Entry⦄, m.classes[key]? = some entry → ∀ method ∈ entry.decl.methods,
    ∀ baseEntry baseMethod,
      (m.inherited key method.name).bind m.declaration = some (baseEntry, baseMethod) →
        baseMethod.kind = method.kind ∧
          m.resolveType baseEntry.scope [] baseMethod.result =
            m.resolveType entry.scope [] method.result
  resolved : ∀ ⦃key : String⦄ ⦃entry : Entry⦄, m.classes[key]? = some entry →
    ∀ method ∈ entry.decl.methods, ∀ effects, method.envelope = some effects → ∀ path,
      .invokes path ∈ effects ∨ .forbidTransitive path ∈ effects →
        ∃ reached, m.targets key entry path = .ok reached
  complete : ∀ ⦃key : String⦄ ⦃entry : Entry⦄, m.classes[key]? = some entry → entry.decl.kind ≠ .abstract →
    ∀ ancestor ∈ m.ancestors key, ∀ base, m.classes[ancestor]? = some base →
      ∀ method ∈ base.decl.methods, ∀ selected ∈ m.method key method.name,
        m.selectsAbstract selected = false

theorem classErrors_of_check (h : m.check = []) (hentry : m.classes[key]? = some entry) :
    m.classErrors key entry = [] := by
  rw [check, List.append_eq_nil_iff, List.append_eq_nil_iff, List.flatMap_eq_nil_iff] at h
  exact h.1.2 (key, entry) (TreeMap.mem_toList_iff_getElem?_eq_some.mpr hentry)

theorem methodErrors_eq_nil (h : m.methodErrors key entry = []) :
    (entry.decl.methods.Pairwise fun method other => method.name ≠ other.name) ∧
      ∀ method ∈ entry.decl.methods,
        (∃ ty, m.resolveType entry.scope [] method.result = .ok ty) ∧
          m.overrideErrors key entry method = [] ∧
          ∀ effects, method.envelope = some effects → ∀ effect ∈ effects,
            ∃ earlier, m.effectErrors key entry earlier effect = [] := by
  simp only [methodErrors, typeErrors, reportError_eq_nil, List.flatMap_eq_nil_iff, List.append_eq_nil_iff, reportIf_eq_nil,
    Bool.or_eq_false_iff, List.any_eq_false, decide_eq_true_eq] at h
  constructor
  · exact pairwise_of_withEarlier fun later hlater earlier hearlier =>
      (h later hlater).1.1.1.1 earlier hearlier
  · intro method hmethod
    obtain ⟨earlier, hearlier⟩ := exists_mem_withEarlier hmethod
    refine ⟨(h _ hearlier).1.1.2, (h _ hearlier).1.2, fun effects heffects effect heffect => ?_⟩
    have herrors := (h _ hearlier).2
    simp only [heffects, List.flatMap_eq_nil_iff] at herrors
    obtain ⟨before, hbefore⟩ := exists_mem_withEarlier heffect
    exact ⟨before, herrors _ hbefore⟩

theorem sound_of_check (h : m.check = []) : Sound m where
  base := by
    intro key entry hentry path hpath
    have herrors := classErrors_of_check h hentry
    simp only [classErrors, List.append_eq_nil_iff] at herrors
    have hbase := herrors.1.1.1
    rw [baseErrors, hpath] at hbase
    cases hresolve : m.resolve entry path with
    | error message => simp [hresolve] at hbase
    | ok target =>
        cases htarget : m.classes[target]? with
        | none => simp [hresolve, htarget] at hbase
        | some targetEntry =>
            refine ⟨target, targetEntry, ?_, htarget, ?_⟩
            · simp [Model.base, hentry, hpath, hresolve, Except.toOption]
            · simp only [hresolve, htarget, List.append_eq_nil_iff, reportIf_eq_nil,
                decide_eq_false_iff_not] at hbase
              exact hbase.1
  distinct := by
    intro key entry hentry
    have herrors := classErrors_of_check h hentry
    simp only [classErrors, List.append_eq_nil_iff] at herrors
    exact (methodErrors_eq_nil herrors.1.2).1
  typed := by
    intro key entry hentry method hmethod
    have herrors := classErrors_of_check h hentry
    simp only [classErrors, List.append_eq_nil_iff] at herrors
    exact ((methodErrors_eq_nil herrors.1.2).2 method hmethod).1
  signature := by
    intro key entry hentry method hmethod baseEntry baseMethod hinherited
    have herrors := classErrors_of_check h hentry
    simp only [classErrors, List.append_eq_nil_iff] at herrors
    have hoverride := ((methodErrors_eq_nil herrors.1.2).2 method hmethod).2.1
    rw [overrideErrors, hinherited, List.append_eq_nil_iff] at hoverride
    simpa [not_or] using hoverride.2
  resolved := by
    intro key entry hentry method hmethod effects heffects path hpath
    have herrors := classErrors_of_check h hentry
    simp only [classErrors, List.append_eq_nil_iff] at herrors
    have heffect := ((methodErrors_eq_nil herrors.1.2).2 method hmethod).2.2 effects heffects
    obtain hpath | hpath := hpath
    · obtain ⟨_, hnil⟩ := heffect _ hpath
      exact reportError_eq_nil.mp hnil
    · obtain ⟨_, hnil⟩ := heffect _ hpath
      exact reportError_eq_nil.mp hnil
  complete := by
    intro key entry hentry hkind ancestor hancestor base hbase method hmethod selected hselected
    have herrors := classErrors_of_check h hentry
    simp only [classErrors, List.append_eq_nil_iff] at herrors
    have hcomplete := herrors.2
    rw [completenessErrors, if_neg hkind] at hcomplete
    simp only [List.flatMap_eq_nil_iff, reportIf_eq_nil, Option.mem_toList] at hcomplete
    exact hcomplete ancestor hancestor base hbase method hmethod selected hselected

/-! ### The chain of bases -/

theorem Sound.step (h : Sound m) (hstep : m.base key = some target) :
    (∃ entry, m.classes[target]? = some entry) ∧ key ∉ m.ancestors target := by
  cases hentry : m.classes[key]? with
  | none => exact absurd hstep (by simp [Model.base, hentry])
  | some entry =>
      cases hpath : entry.decl.base with
      | none => exact absurd hstep (by simp [Model.base, hentry, hpath])
      | some path =>
          obtain ⟨target', targetEntry, hbase, htarget, hnot⟩ := h.base hentry path hpath
          obtain rfl := Option.some.inj (hstep.symm.trans hbase)
          exact ⟨⟨targetEntry, htarget⟩, hnot⟩

theorem Sound.acyclic (h : Sound m) : Orbit.Acyclic m.base := by
  intro key hcycle
  obtain ⟨target, hstep, hback⟩ := Relation.TransGen.head'_iff.mp hcycle
  exact (h.step hstep).2 (mem_ancestors.mpr hback)

theorem Sound.line (h : Sound m) (key : String) : Orbit.Line m.base key (m.ancestors key) :=
  h.acyclic.follow_line (fun _ => base_ne_none) (card_keys m) key

/-- Above a class there are only classes. -/
theorem Sound.classes (h : Sound m) (hentry : m.classes[key]? = some entry)
    (hancestor : owner ∈ m.ancestors key) : ∃ entry, m.classes[owner]? = some entry := by
  obtain rfl | ⟨next, -, hstep⟩ := (mem_ancestors.mp hancestor).cases_tail
  · exact ⟨entry, hentry⟩
  · exact (h.step hstep).1

/-! ### The selected declaration -/

theorem declares_iff : m.declares key name = true ↔ ∃ entry, m.classes[key]? = some entry ∧
    ∃ method ∈ entry.decl.methods, method.name = name := by
  simp [declares, Option.any_eq_true]

theorem method_isSome : (m.method key name).isSome ↔
    ∃ ancestor ∈ m.ancestors key, m.declares ancestor name = true := by
  rw [method, Option.isSome_map, List.find?_isSome]

/-- The nearest declaration of a name is this one. -/
structure Selected (m : Model) (key name owner : String) (entry : Entry) (method : Method) :
    Prop where
  nearest : (m.ancestors key).find? (m.declares · name) = some owner
  declared : m.classes[owner]? = some entry
  member : method ∈ entry.decl.methods
  named : method.name = name

theorem Selected.method_eq (h : Selected m key name owner entry method) :
    m.method key name = some (qualified owner name) := by
  rw [Model.method, h.nearest]
  rfl

/-- A name that some ancestor declares is selected. -/
theorem exists_selected (hancestor : owner ∈ m.ancestors key)
    (hentry : m.classes[owner]? = some entry) (hmethod : method ∈ entry.decl.methods) :
    ∃ owner' entry' method', Selected m key method.name owner' entry' method' := by
  have hsome : ((m.ancestors key).find? (m.declares · method.name)).isSome := by
    rw [List.find?_isSome]
    exact ⟨owner, hancestor, declares_iff.mpr ⟨entry, hentry, method, hmethod, rfl⟩⟩
  obtain ⟨owner', howner⟩ := Option.isSome_iff_exists.mp hsome
  have hdeclares := List.find?_some (p := (m.declares · method.name)) howner
  obtain ⟨entry', hentry', method', hmethod', hname⟩ := declares_iff.mp hdeclares
  exact ⟨owner', entry', method', howner, hentry', hmethod', hname⟩

theorem Sound.eq_of_name (h : Sound m) (hentry : m.classes[key]? = some entry)
    (hmethod : method ∈ entry.decl.methods) (hmethod' : method' ∈ entry.decl.methods)
    (hname : method.name = method'.name) : method = method' := by
  have hnodup : (entry.decl.methods.map Method.name).Nodup :=
    List.pairwise_map.mpr (h.distinct hentry)
  exact List.inj_on_of_nodup_map hnodup hmethod hmethod' hname

theorem Sound.declaration_eq (h : Sound m) (hentry : m.classes[owner]? = some entry)
    (hmethod : method ∈ entry.decl.methods) :
    m.declaration (qualified owner method.name) = some (entry, method) := by
  have hfind : entry.decl.methods.find? (fun other => other.name = method.name) = some method := by
    cases hfind : entry.decl.methods.find? (fun other => other.name = method.name) with
    | none => exact absurd (List.find?_eq_none.mp hfind method hmethod) (by simp)
    | some other =>
        have hname := List.find?_some (p := fun other : Method => other.name = method.name) hfind
        rw [h.eq_of_name hentry (List.mem_of_find?_eq_some hfind) hmethod (of_decide_eq_true hname)]
  rw [declaration, rsplitOnce_qualified method.word]
  simp [hentry, hfind]

theorem Selected.unique (h : Sound m) (hselected : Selected m key name owner entry method)
    {owner' : String} (hselected' : Selected m key name owner' entry' method') :
    owner = owner' ∧ entry = entry' ∧ method = method' := by
  obtain rfl := Option.some.inj (hselected.nearest.symm.trans hselected'.nearest)
  obtain rfl := Option.some.inj (hselected.declared.symm.trans hselected'.declared)
  exact ⟨rfl, rfl, h.eq_of_name hselected.declared hselected.member hselected'.member
    (hselected.named.trans hselected'.named.symm)⟩

/-- The declarations above a class are above the one that it selects. -/
theorem Sound.mem_ancestors_nearest (h : Sound m)
    (hnearest : (m.ancestors key).find? (m.declares · name) = some owner) {ancestor : String}
    (hancestor : ancestor ∈ m.ancestors key) (hdeclares : m.declares ancestor name = true) :
    ancestor ∈ m.ancestors owner := by
  have hline := h.line key
  generalize hlist : m.ancestors key = list at hline hancestor hnearest
  induction hline with
  | @last key _ =>
      obtain rfl := List.mem_singleton.mp hancestor
      rw [List.find?_cons, hdeclares] at hnearest
      obtain rfl := Option.some.inj hnearest
      exact self_mem_ancestors m _
  | @cons key base list hbase hline ih =>
      rw [List.find?_cons] at hnearest
      by_cases hkey : m.declares key name = true
      · rw [hkey] at hnearest
        obtain rfl := Option.some.inj hnearest
        exact hlist ▸ hancestor
      · rw [Bool.of_not_eq_true hkey] at hnearest
        obtain rfl | hancestor := List.mem_cons.mp hancestor
        · exact absurd hdeclares hkey
        · exact ih ((h.line base).unique hline) hancestor hnearest

/-- Kind and result type agree. -/
def SameSignature (m : Model) (entry : Entry) (method : Method) (entry' : Entry)
    (method' : Method) : Prop :=
  method.kind = method'.kind ∧
    m.resolveType entry.scope [] method.result = m.resolveType entry'.scope [] method'.result

/-- The induction is on the chain of bases: a declaration has the signature of the nearest one
above, and that one has the signatures of those above it. -/
theorem Sound.sameSignature (h : Sound m) (hselected : Selected m key name owner entry method)
    {ancestor : String} (hancestor : ancestor ∈ m.ancestors key)
    (hentry' : m.classes[ancestor]? = some entry') (hmethod' : method' ∈ entry'.decl.methods)
    (hname : method'.name = name) : SameSignature m entry' method' entry method := by
  subst hname
  have hline := h.line key
  generalize hlist : m.ancestors key = list at hline hancestor
  induction hline generalizing owner entry method with
  | @last key hnone =>
      obtain rfl := List.mem_singleton.mp hancestor
      have hself : Selected m ancestor method'.name ancestor entry' method' := by
        refine ⟨?_, hentry', hmethod', rfl⟩
        rw [hlist, List.find?_cons_of_pos]
        exact declares_iff.mpr ⟨entry', hentry', method', hmethod', rfl⟩
      obtain ⟨-, rfl, rfl⟩ := hself.unique h hselected
      exact ⟨rfl, rfl⟩
  | @cons key base list hbase hline ih =>
      have hbaseList : m.ancestors base = list := (h.line base).unique hline
      by_cases hdeclares : m.declares key method'.name = true
      · -- the class itself is the nearest one, and overrides what its base selects
        have howner : owner = key := by
          have hnearest := hselected.nearest
          rw [hlist, List.find?_cons, hdeclares] at hnearest
          exact (Option.some.inj hnearest).symm
        subst howner
        obtain rfl | hancestor := List.mem_cons.mp hancestor
        · obtain rfl := Option.some.inj (hentry'.symm.trans hselected.declared)
          obtain rfl := h.eq_of_name hentry' hmethod' hselected.member hselected.named.symm
          exact ⟨rfl, rfl⟩
        · obtain ⟨owner', baseEntry, baseMethod, hbaseSelected⟩ :=
            exists_selected (hbaseList ▸ hancestor) hentry' hmethod'
          have hinherited : (m.inherited owner method.name).bind m.declaration =
              some (baseEntry, baseMethod) := by
            rw [inherited, hbase, hselected.named]
            have hdeclaration := h.declaration_eq hbaseSelected.declared hbaseSelected.member
            rw [hbaseSelected.named] at hdeclaration
            simp [hbaseSelected.method_eq, hdeclaration]
          obtain ⟨hkind, htype⟩ := h.signature hselected.declared method hselected.member
            baseEntry baseMethod hinherited
          obtain ⟨hkind', htype'⟩ := ih hbaseSelected hbaseList hancestor
          exact ⟨hkind'.trans hkind, htype'.trans htype⟩
      · have hbaseSelected : Selected m base method'.name owner entry method := by
          have hnearest := hselected.nearest
          rw [hlist, List.find?_cons, Bool.of_not_eq_true hdeclares] at hnearest
          exact ⟨by rw [hbaseList]; exact hnearest, hselected.declared, hselected.member,
            hselected.named⟩
        obtain rfl | hancestor := List.mem_cons.mp hancestor
        · exact absurd (declares_iff.mpr ⟨entry', hentry', method', hmethod', rfl⟩) hdeclares
        · exact ih hbaseSelected hbaseList hancestor

theorem Selected.selectsAbstract (hselected : Selected m key name owner entry method)
    (habstract : m.selectsAbstract (qualified owner name) = false) : method.envelope.isSome := by
  obtain ⟨-, hentry, hmethod, rfl⟩ := hselected
  simp only [Model.selectsAbstract, rsplitOnce_qualified method.word, hentry, Option.any_some,
    List.any_eq_false, Bool.and_eq_true, decide_eq_true_eq, not_and] at habstract
  rw [Option.isSome_iff_ne_none]
  exact fun hnone => habstract method hmethod rfl (by rw [hnone]; rfl)

/-! ### Targets -/

/-- A path is resolved to a class that has the method. -/
theorem method_of_targets {path : Path} {reached : TreeSet String}
    (hpath : m.methodPath key entry path = .ok (owner, name))
    (htargets : m.targets key entry path = .ok reached) :
    owner ∈ m.descendants owner ∧ ∃ declared, m.method owner name = some declared ∧
      reached = ((m.descendants owner).filterMap (m.method · name)).foldl TreeSet.insert
        {declared} := by
  simp only [Model.targets, hpath, bind, Except.bind] at htargets
  cases howner : m.classes.contains owner with
  | false => simp [howner] at htargets
  | true =>
      cases hdeclared : m.method owner name with
      | none => simp [howner, hdeclared] at htargets
      | some declared =>
          simp only [howner, hdeclared, Bool.not_true, Bool.false_eq_true, if_false,
            Except.ok.injEq] at htargets
          refine ⟨mem_descendants.mpr ⟨?_, self_mem_ancestors m owner⟩, declared, rfl,
            htargets.symm⟩
          rw [← Option.isSome_iff_exists, ← TreeMap.mem_iff_isSome_getElem?]
          exact howner

theorem targets_spec {path : Path} {reached : TreeSet String}
    (hpath : m.methodPath key entry path = .ok (owner, name))
    (htargets : m.targets key entry path = .ok reached) (selected : String) :
    selected ∈ reached ↔ ∃ descendant ∈ m.descendants owner,
      m.method descendant name = some selected := by
  obtain ⟨hself, declared, hdeclared, rfl⟩ := method_of_targets hpath htargets
  rw [mem_foldl_insert, List.mem_filterMap]
  constructor
  · rintro (hselected | h)
    · exact ⟨owner, hself, by rw [hdeclared, singleton_mem.mp hselected]⟩
    · exact h
  · exact .inr

/-- What a class selects is selected in each of its subclasses, maybe by another declaration. -/
theorem method_of_ancestor {selected : String} (h : m.method owner name = some selected)
    (howner : owner ∈ m.ancestors key) : ∃ selected, m.method key name = some selected := by
  obtain ⟨ancestor, hancestor, hdeclares⟩ := method_isSome.mp (Option.isSome_of_eq_some h)
  exact Option.isSome_iff_exists.mp
    (method_isSome.mpr ⟨ancestor, ancestors_trans howner hancestor, hdeclares⟩)

theorem mem_implementations {selected : String} : selected ∈ m.implementations
    (qualified owner method.name) ↔
      ∃ descendant ∈ m.descendants owner, m.method descendant method.name = some selected := by
  rw [implementations, rsplitOnce_qualified method.word]
  dsimp only
  rw [TreeSet.mem_toList, TreeSet.mem_ofList, List.contains_iff_mem, List.mem_filterMap]

/-- What holds of the hierarchy of an accepted model. -/
structure DispatchSound (m : Model) : Prop where
  /-- The base links from a class make a chain of different classes, up to one without a base. -/
  chain : ∀ key entry, m.classes[key]? = some entry →
    (m.ancestors key).head? = some key ∧ (m.ancestors key).Nodup ∧
      (m.ancestors key).IsChain (fun sub base => m.base sub = some base) ∧
      (∀ ancestor ∈ m.ancestors key, ∃ entry, m.classes[ancestor]? = some entry) ∧
      ∃ last lastEntry, (m.ancestors key).getLast? = some last ∧
        m.classes[last]? = some lastEntry ∧ lastEntry.decl.base = none
  /-- A class that is not abstract selects an implementation of each method along its chain, with
  the kind and the result type of all declarations of that name. -/
  selected : ∀ key entry, m.classes[key]? = some entry → entry.decl.kind ≠ .abstract →
    ∀ ancestor ∈ m.ancestors key, ∀ base, m.classes[ancestor]? = some base →
      ∀ method ∈ base.decl.methods, ∃ owner ownerEntry selected ty,
        owner ∈ m.ancestors key ∧ m.method key method.name = some (qualified owner method.name) ∧
        m.classes[owner]? = some ownerEntry ∧
        (∀ other ∈ ownerEntry.decl.methods, other.name = method.name ↔ other = selected) ∧
        selected ∈ ownerEntry.decl.methods ∧ selected.envelope.isSome ∧
        selected.kind = method.kind ∧
        m.resolveType ownerEntry.scope [] selected.result = .ok ty ∧
        m.resolveType base.scope [] method.result = .ok ty
  /-- The targets of a path are what the class and its subclasses select. -/
  targets : ∀ key entry path owner name reached,
    m.methodPath key entry path = .ok (owner, name) → m.targets key entry path = .ok reached →
      (∀ sub subEntry, m.classes[sub]? = some subEntry → owner ∈ m.ancestors sub →
        ∃ selected ∈ reached, m.method sub name = some selected) ∧
      ∀ selected ∈ reached, ∃ sub subEntry, m.classes[sub]? = some subEntry ∧
        owner ∈ m.ancestors sub ∧ m.method sub name = some selected

theorem dispatch_sound (documents : List Document) (h : validate documents = []) :
    DispatchSound (buildModel documents) := by
  have hsound := sound_of_check h
  refine ⟨?_, ?_, ?_⟩
  · intro key entry hentry
    have hline := hsound.line key
    have hclasses (ancestor : String) (hancestor : ancestor ∈ (buildModel documents).ancestors key) :=
      hsound.classes hentry hancestor
    obtain ⟨last, hlast, hnone⟩ := hline.next_getLast?
    obtain ⟨lastEntry, hlastEntry⟩ := hclasses last (List.mem_of_getLast? hlast)
    refine ⟨hline.isChain.2, hline.nodup hsound.acyclic, hline.isChain.1, hclasses, last, lastEntry,
      hlast, hlastEntry, ?_⟩
    by_contra hbase
    obtain ⟨path, hpath⟩ := Option.ne_none_iff_exists'.mp hbase
    obtain ⟨target, -, hstep, -⟩ := hsound.base hlastEntry path hpath
    cases hnone.symm.trans hstep
  · intro key entry hentry hkind ancestor hancestor base hbase method hmethod
    obtain ⟨owner, ownerEntry, selected, hselected⟩ := exists_selected hancestor hbase hmethod
    obtain ⟨ty, hty⟩ := hsound.typed hselected.declared selected hselected.member
    have hsignature := hsound.sameSignature hselected hancestor hbase hmethod rfl
    refine ⟨owner, ownerEntry, selected, ty, List.mem_of_find?_eq_some hselected.nearest,
      hselected.method_eq, hselected.declared, ?_, hselected.member, ?_, hsignature.1.symm, hty,
      hsignature.2.trans hty⟩
    · intro other hother
      refine ⟨fun hname => ?_, fun heq => heq ▸ hselected.named⟩
      exact hsound.eq_of_name hselected.declared hother hselected.member
        (hname.trans hselected.named.symm)
    · exact hselected.selectsAbstract (hsound.complete hentry hkind ancestor hancestor base hbase
        method hmethod _ hselected.method_eq)
  · intro key entry path owner name reached hpath htargets
    constructor
    · intro sub subEntry hsub howner
      obtain ⟨-, declared, hdeclared, -⟩ := method_of_targets hpath htargets
      obtain ⟨selected, hselected⟩ := method_of_ancestor hdeclared howner
      exact ⟨selected, (targets_spec hpath htargets selected).mpr
        ⟨sub, mem_descendants.mpr ⟨⟨subEntry, hsub⟩, howner⟩, hselected⟩, hselected⟩
    · intro selected hselected
      obtain ⟨sub, hsub, hmethod⟩ := (targets_spec hpath htargets selected).mp hselected
      obtain ⟨⟨subEntry, hsubEntry⟩, howner⟩ := mem_descendants.mp hsub
      exact ⟨sub, subEntry, hsubEntry, howner, hmethod⟩

/-- An abstract class and one that implements its method. -/
theorem dispatch_sound_override : DispatchSound (buildModel
    [⟨"crate.sage", .crate "c" [] [],
      [.class ⟨"A", .abstract, none, [],
        [⟨"run", by decide, .function, false, .tuple [] ⟨0, 0⟩, none, ⟨0, 0⟩⟩], ⟨0, 0⟩⟩,
       .class ⟨"B", .concrete, some ⟨"crate", ["A"], ⟨0, 0⟩⟩, [],
        [⟨"run", by decide, .function, true, .tuple [] ⟨0, 0⟩, some [], ⟨0, 0⟩⟩],
        ⟨0, 0⟩⟩]⟩]) :=
  dispatch_sound _ (by decide)

end Model

end Sage.Meta
