import Sage.Meta.Contracts
import Sage.Meta.Hierarchy

/-!
# Meta — contracts of a model

The contract of an operation has the permissions of its own declaration and the prohibitions of all
declarations of its name above it.

* `resolveContracts`, `ContractModel.new` — the contracts of accepted documents.
* `ContractOf` — what a contract says, in terms of the model.
* `contracts_of_validate` — accepted documents have a contract for each method.
-/

namespace Sage.Meta

open Std (TreeMap TreeSet)

/-- The results for all elements, or the first error. -/
def gather {ε α β : Type} (f : α → Except ε (List β)) : List α → Except ε (List β)
  | [] => .ok []
  | a :: rest => do
      let first ← f a
      let others ← gather f rest
      .ok (first ++ others)

theorem gather_ok {ε α β : Type} {f : α → Except ε (List β)} {l : List α}
    (h : ∀ a ∈ l, ∃ b, f a = .ok b) :
    ∃ bs, gather f l = .ok bs ∧ ∀ b, b ∈ bs ↔ ∃ a ∈ l, ∃ c, f a = .ok c ∧ b ∈ c := by
  induction l with
  | nil => exact ⟨[], rfl, by simp⟩
  | cons a l ih =>
      obtain ⟨first, hfirst⟩ := h a List.mem_cons_self
      obtain ⟨others, hothers, hmem⟩ := ih fun b hb => h b (List.mem_cons_of_mem _ hb)
      refine ⟨first ++ others, by rw [gather, hfirst, hothers]; rfl, fun b => ?_⟩
      rw [List.mem_append, hmem, List.exists_mem_cons_iff]
      refine or_congr ⟨fun hb => ⟨first, hfirst, hb⟩, ?_⟩ Iff.rfl
      rintro ⟨c, hc, hb⟩
      cases hfirst.symm.trans hc
      exact hb

namespace Model

variable (m : Model)

/-- A clause of a declaration with its targets. -/
def clause (owner : String) (base : Entry) (name : String) (path : Path) :
    Except (List Diagnostic) CallPermission :=
  match m.targets owner base path with
  | .ok targets => .ok
      { targets := targets.toList
        sameReceiver := path.root = "self"
        rule := ⟨base.document.file, path.span, qualified owner name⟩ }
  | .error message => .error [⟨base.document.file, path.span, message⟩]

/-- The permissions of a class itself, and the prohibitions of all classes above it. -/
def effectClauses (key owner : String) (base : Entry) (name : String) :
    Effect → Except (List Diagnostic) (List (Bool × CallPermission))
  | .invokes path =>
      if owner ≠ key then .ok [] else (m.clause owner base name path).map fun p => [(true, p)]
  | .forbidTransitive path => (m.clause owner base name path).map fun p => [(false, p)]
  | _ => .ok []

def ownerClauses (key name owner : String) :
    Except (List Diagnostic) (List (Bool × CallPermission)) :=
  match m.classes[owner]? with
  | none => .ok []
  | some base =>
      match base.decl.methods.find? fun method => method.name = name with
      | none => .ok []
      | some declaration =>
          gather (m.effectClauses key owner base name) (declaration.envelope.getD [])

def uncheckedEffects (effects : List Effect) : Finset UncheckedEffect :=
  (effects.flatMap fun
    | .reads _ => [.reads]
    | .creates _ _ => [.creates]
    | _ => []).toFinset

def resolveContract (key : String) (method : Method) :
    Except (List Diagnostic) (List (String × OperationContract)) := do
  let id := qualified key method.name
  let clauses ← gather (m.ownerClauses key method.name) (m.ancestors key)
  let dispatches := ((m.descendants key).filterMap (m.method · method.name)).filter (· ≠ id)
  .ok [(id,
    { id
      kind := method.kind
      isAbstract := method.envelope.isNone
      invokes := (clauses.filter Prod.fst).map Prod.snd
      prohibits := (clauses.filter fun clause => !clause.1).map Prod.snd
      dispatches :=
        if method.envelope.isNone then (TreeSet.ofList dispatches).toList else []
      uncheckedEffects := uncheckedEffects (method.envelope.getD []) })]

end Model

def resolveContracts (documents : List Document) :
    Except (List Diagnostic) (TreeMap String OperationContract) :=
  let m := buildModel documents
  let errors := m.check
  if !errors.isEmpty then .error errors
  else do
    let operations ← gather (fun (key, entry) => gather (m.resolveContract key) entry.decl.methods)
      m.classes.toList
    .ok (operations.foldl (fun operations row => operations.insert row.1 row.2) ∅)

def ContractModel.new (documents : List Document) : Except (List Diagnostic) ContractModel :=
  (resolveContracts documents).map fun operations => ⟨fun id => operations[id]?⟩

/-! ### What the contracts say -/

namespace Model

variable {m : Model} {key owner name : String} {entry base : Entry} {method declaration : Method}

/-- A declaration of the name above the class forbids the operation. -/
def Prohibits (m : Model) (key name target : String) : Prop :=
  ∃ owner ∈ m.ancestors key, ∃ base, m.classes[owner]? = some base ∧
    ∃ declaration ∈ base.decl.methods, declaration.name = name ∧
      ∃ path, .forbidTransitive path ∈ declaration.envelope.getD [] ∧
        ∃ reached, m.targets owner base path = .ok reached ∧ target ∈ reached

/-- The class declares the operation and leaves it to another that it selects below. -/
def DispatchesTo (m : Model) (key : String) (method : Method) (target : String) : Prop :=
  method.envelope = none ∧ target ≠ qualified key method.name ∧
    ∃ descendant ∈ m.descendants key, m.method descendant method.name = some target

structure ContractOf (m : Model) (key : String) (entry : Entry) (method : Method)
    (contract : OperationContract) : Prop where
  invokes : ∀ target, (∃ p ∈ contract.invokes, target ∈ p.targets) ↔
    target ∈ m.calls key entry method
  prohibits : ∀ target, (∃ p ∈ contract.prohibits, target ∈ p.targets) ↔
    m.Prohibits key method.name target
  dispatches : ∀ target, target ∈ contract.dispatches ↔ m.DispatchesTo key method target

theorem Sound.resolved' (h : Sound m) (hentry : m.classes[key]? = some entry)
    (hmethod : method ∈ entry.decl.methods) {path : Path}
    (hpath : .invokes path ∈ method.envelope.getD [] ∨
      .forbidTransitive path ∈ method.envelope.getD []) :
    ∃ reached, m.targets key entry path = .ok reached := by
  cases henvelope : method.envelope with
  | none => simp [henvelope] at hpath
  | some effects =>
      rw [henvelope] at hpath
      exact h.resolved hentry method hmethod effects henvelope path hpath

theorem mem_calls {target : String} : target ∈ m.calls key entry method ↔
    ∃ path, .invokes path ∈ method.envelope.getD [] ∧
      ∃ reached, m.targets key entry path = .ok reached ∧ target ∈ reached := by
  rw [calls, List.mem_flatMap]
  constructor
  · rintro ⟨effect, heffect, htarget⟩
    cases effect with
    | invokes path =>
        dsimp only at htarget
        cases hreached : m.targets key entry path with
        | ok reached =>
            rw [hreached] at htarget
            exact ⟨path, heffect, reached, hreached, TreeSet.mem_toList.mp htarget⟩
        | error message => rw [hreached] at htarget; cases htarget
    | forbidTransitive path => cases htarget
    | reads path => cases htarget
    | creates name context => cases htarget
  · rintro ⟨path, heffect, reached, hreached, htarget⟩
    refine ⟨_, heffect, ?_⟩
    simp only [hreached]
    exact TreeSet.mem_toList.mpr htarget

theorem clause_targets {path : Path} {p : CallPermission}
    (h : m.clause owner base name path = .ok p) (target : String) :
    target ∈ p.targets ↔ ∃ reached, m.targets owner base path = .ok reached ∧
      target ∈ reached := by
  rw [clause] at h
  cases hreached : m.targets owner base path with
  | error message => rw [hreached] at h; cases h
  | ok reached =>
      rw [hreached] at h
      cases h
      simp [TreeSet.mem_toList]

theorem exists_clause (name : String) {path : Path} {reached : TreeSet String}
    (h : m.targets owner base path = .ok reached) : ∃ p, m.clause owner base name path = .ok p := by
  rw [clause, h]
  exact ⟨_, rfl⟩

/-- What an effect adds to the contract of an operation of a class. -/
theorem mem_effectClauses {effect : Effect} {clauses : List (Bool × CallPermission)}
    (h : m.effectClauses key owner base name effect = .ok clauses) (p : CallPermission) :
    ((true, p) ∈ clauses ↔ ∃ path, effect = .invokes path ∧ owner = key ∧
        m.clause owner base name path = .ok p) ∧
      ((false, p) ∈ clauses ↔ ∃ path, effect = .forbidTransitive path ∧
        m.clause owner base name path = .ok p) := by
  cases effect with
  | invokes path =>
      by_cases howner : owner = key
      · rw [effectClauses, if_neg (not_not.mpr howner)] at h
        cases hclause : m.clause owner base name path with
        | error errors => rw [hclause] at h; cases h
        | ok q =>
            rw [hclause] at h
            cases h
            subst howner
            simp only [List.mem_singleton, Prod.mk.injEq, true_and, Bool.false_eq_true, false_and,
              Effect.invokes.injEq, exists_eq_left', hclause, Except.ok.injEq, reduceCtorEq,
              exists_false, and_true]
            exact eq_comm
      · rw [effectClauses, if_pos howner] at h
        cases h
        simp [howner]
  | forbidTransitive path =>
      rw [effectClauses] at h
      cases hclause : m.clause owner base name path with
      | error errors => rw [hclause] at h; cases h
      | ok q =>
          rw [hclause] at h
          cases h
          simp [hclause, eq_comm]
  | reads path => cases h; simp
  | creates context path => cases h; simp

theorem Sound.exists_effectClauses (h : Sound m) (key name : String)
    (hentry : m.classes[owner]? = some base) (hmethod : declaration ∈ base.decl.methods)
    {effect : Effect}
    (heffect : effect ∈ declaration.envelope.getD []) :
    ∃ clauses, m.effectClauses key owner base name effect = .ok clauses := by
  cases effect with
  | invokes path =>
      obtain ⟨reached, hreached⟩ := h.resolved' hentry hmethod (.inl heffect)
      obtain ⟨p, hp⟩ := exists_clause name hreached
      rw [effectClauses, hp]
      split
      · exact ⟨_, rfl⟩
      · exact ⟨_, rfl⟩
  | forbidTransitive path =>
      obtain ⟨reached, hreached⟩ := h.resolved' hentry hmethod (.inr heffect)
      obtain ⟨p, hp⟩ := exists_clause name hreached
      rw [effectClauses, hp]
      exact ⟨_, rfl⟩
  | reads path => exact ⟨_, rfl⟩
  | creates context path => exact ⟨_, rfl⟩

/-- What a class adds to the contracts of an operation below it. -/
def OwnerClause (m : Model) (key name owner : String) (permission : Bool) (target : String) :
    Prop :=
  ∃ base, m.classes[owner]? = some base ∧ ∃ declaration ∈ base.decl.methods,
    declaration.name = name ∧ ∃ path,
      (if permission then owner = key ∧ .invokes path ∈ declaration.envelope.getD []
        else .forbidTransitive path ∈ declaration.envelope.getD []) ∧
      ∃ reached, m.targets owner base path = .ok reached ∧ target ∈ reached

theorem Sound.ownerClauses (h : Sound m) (key name owner : String) :
    ∃ clauses, m.ownerClauses key name owner = .ok clauses ∧ ∀ permission target,
      (∃ p, (permission, p) ∈ clauses ∧ target ∈ p.targets) ↔
        m.OwnerClause key name owner permission target := by
  rw [Model.ownerClauses]
  cases hbase : m.classes[owner]? with
  | none => exact ⟨[], rfl, by simp [OwnerClause, hbase]⟩
  | some base =>
      dsimp only
      cases hfind : base.decl.methods.find? fun method => method.name = name with
      | none =>
          refine ⟨[], rfl, fun permission target => iff_of_false (by simp) ?_⟩
          rintro ⟨base', hbase', declaration, hdeclaration, hname, -⟩
          obtain rfl := Option.some.inj (hbase.symm.trans hbase')
          exact List.find?_eq_none.mp hfind declaration hdeclaration (decide_eq_true hname)
      | some declaration =>
          have hmethod := List.mem_of_find?_eq_some hfind
          have hname := List.find?_some (p := fun method : Method => method.name = name) hfind
          have hname : declaration.name = name := of_decide_eq_true hname
          obtain ⟨clauses, hclauses, hmem⟩ := gather_ok fun effect (heffect : effect ∈
            declaration.envelope.getD []) => h.exists_effectClauses key name hbase hmethod
              heffect
          refine ⟨clauses, hclauses, fun permission target => ?_⟩
          have hunique (base' : Entry) (hbase' : m.classes[owner]? = some base')
              (declaration' : Method) (hdeclaration' : declaration' ∈ base'.decl.methods)
              (hname' : declaration'.name = name) : base' = base ∧ declaration' = declaration := by
            obtain rfl := Option.some.inj (hbase.symm.trans hbase')
            exact ⟨rfl, h.eq_of_name hbase hdeclaration' hmethod (hname'.trans hname.symm)⟩
          constructor
          · rintro ⟨p, hp, htarget⟩
            obtain ⟨effect, heffect, c, hc, hpc⟩ := (hmem _).mp hp
            cases permission with
            | true =>
                obtain ⟨path, rfl, howner, hclause⟩ := (mem_effectClauses hc p).1.mp hpc
                exact ⟨base, hbase, declaration, hmethod, hname, path, ⟨howner, heffect⟩,
                  (clause_targets hclause target).mp htarget⟩
            | false =>
                obtain ⟨path, rfl, hclause⟩ := (mem_effectClauses hc p).2.mp hpc
                exact ⟨base, hbase, declaration, hmethod, hname, path, heffect,
                  (clause_targets hclause target).mp htarget⟩
          · rintro ⟨base', hbase', declaration', hdeclaration', hname', path, heffect, reached,
              hreached, htarget⟩
            obtain ⟨rfl, rfl⟩ := hunique base' hbase' declaration' hdeclaration' hname'
            obtain ⟨p, hp⟩ := exists_clause name hreached
            refine ⟨p, (hmem _).mpr ?_, (clause_targets hp target).mpr ⟨reached, hreached, htarget⟩⟩
            cases permission with
            | true =>
                obtain ⟨howner, heffect⟩ := heffect
                obtain ⟨c, hc⟩ := h.exists_effectClauses key name hbase hmethod heffect
                exact ⟨_, heffect, c, hc, (mem_effectClauses hc p).1.mpr ⟨path, rfl, howner, hp⟩⟩
            | false =>
                obtain ⟨c, hc⟩ := h.exists_effectClauses key name hbase hmethod heffect
                exact ⟨_, heffect, c, hc, (mem_effectClauses hc p).2.mpr ⟨path, rfl, hp⟩⟩

theorem Sound.resolveContract (h : Sound m) (hentry : m.classes[key]? = some entry)
    (hmethod : method ∈ entry.decl.methods) :
    ∃ contract, m.resolveContract key method = .ok [(qualified key method.name, contract)] ∧
      ContractOf m key entry method contract := by
  obtain ⟨clauses, hclauses, hmem⟩ := gather_ok fun owner (_ : owner ∈ m.ancestors key) =>
    let ⟨clauses, hclauses, _⟩ := h.ownerClauses key method.name owner
    ⟨clauses, hclauses⟩
  have hclause (permission : Bool) (target : String) :
      (∃ p, (permission, p) ∈ clauses ∧ target ∈ p.targets) ↔
        ∃ owner ∈ m.ancestors key, m.OwnerClause key method.name owner permission target := by
    constructor
    · rintro ⟨p, hp, htarget⟩
      obtain ⟨owner, howner, c, hc, hpc⟩ := (hmem _).mp hp
      obtain ⟨c', hc', hspec⟩ := h.ownerClauses key method.name owner
      obtain rfl := Except.ok.inj (hc.symm.trans hc')
      exact ⟨owner, howner, (hspec permission target).mp ⟨p, hpc, htarget⟩⟩
    · rintro ⟨owner, howner, hclause⟩
      obtain ⟨c, hc, hspec⟩ := h.ownerClauses key method.name owner
      obtain ⟨p, hpc, htarget⟩ := (hspec permission target).mpr hclause
      exact ⟨p, (hmem _).mpr ⟨owner, howner, c, hc, hpc⟩, htarget⟩
  refine ⟨_, by rw [Model.resolveContract, hclauses]; rfl, ?_, ?_, ?_⟩
  · intro target
    have hpermissions : (∃ p ∈ (clauses.filter Prod.fst).map Prod.snd, target ∈ p.targets) ↔
        ∃ p, (true, p) ∈ clauses ∧ target ∈ p.targets := by simp
    rw [hpermissions, hclause, mem_calls]
    constructor
    · rintro ⟨_, -, base, hbase, declaration, hdeclaration, hname, path, ⟨rfl, hpath⟩, hreached⟩
      obtain rfl := Option.some.inj (hentry.symm.trans hbase)
      obtain rfl := h.eq_of_name hentry hdeclaration hmethod hname
      exact ⟨path, hpath, hreached⟩
    · rintro ⟨path, hpath, hreached⟩
      exact ⟨key, self_mem_ancestors m key, entry, hentry, method, hmethod, rfl, path,
        ⟨rfl, hpath⟩, hreached⟩
  · intro target
    have hprohibitions : (∃ p ∈ (clauses.filter fun clause => !clause.1).map Prod.snd,
        target ∈ p.targets) ↔ ∃ p, (false, p) ∈ clauses ∧ target ∈ p.targets := by simp
    rw [hprohibitions, hclause]
    rfl
  · intro target
    dsimp only
    cases hisNone : method.envelope.isNone with
    | false =>
        refine iff_of_false (by simp) ?_
        rintro ⟨hnone, -⟩
        rw [hnone] at hisNone
        cases hisNone
    | true =>
        rw [if_pos rfl, TreeSet.mem_toList, TreeSet.mem_ofList, List.contains_iff_mem,
          List.mem_filter, List.mem_filterMap, decide_eq_true_eq]
        exact ⟨fun ⟨hdescendant, hne⟩ => ⟨Option.isNone_iff_eq_none.mp hisNone, hne, hdescendant⟩,
          fun ⟨_, hne, hdescendant⟩ => ⟨hdescendant, hne⟩⟩

end Model

/-! ### The contracts of accepted documents -/

theorem getElem?_foldl_insert {β : Type} {rows : List (String × β)} {t : TreeMap String β}
    {key : String} :
    (∀ b, (rows.foldl (fun t row => t.insert row.1 row.2) t)[key]? = some b →
      t[key]? = some b ∨ (key, b) ∈ rows) ∧
    ((∃ b, t[key]? = some b ∨ (key, b) ∈ rows) →
      ∃ b, (rows.foldl (fun t row => t.insert row.1 row.2) t)[key]? = some b) := by
  induction rows generalizing t with
  | nil => simp
  | cons row rows ih =>
      obtain ⟨hsome, hexists⟩ := ih (t := t.insert row.1 row.2)
      have hinsert : (t.insert row.1 row.2)[key]? = if row.1 = key then some row.2 else t[key]? := by
        rw [TreeMap.getElem?_insert]
        simp only [Std.LawfulEqCmp.compare_eq_iff_eq]
      rw [hinsert] at hsome hexists
      constructor
      · intro b hb
        obtain hb | hb := hsome b hb
        · by_cases hkey : row.1 = key
          · rw [if_pos hkey] at hb
            cases hb
            exact .inr (hkey ▸ List.mem_cons_self)
          · rw [if_neg hkey] at hb
            exact .inl hb
        · exact .inr (List.mem_cons_of_mem _ hb)
      · rintro ⟨b, hb⟩
        refine hexists ?_
        by_cases hkey : row.1 = key
        · exact ⟨row.2, .inl (if_pos hkey)⟩
        · rw [if_neg hkey]
          refine ⟨b, hb.imp id fun hb => ?_⟩
          obtain rfl | hb := List.mem_cons.mp hb
          · exact absurd rfl hkey
          · exact hb

/-- The contracts are those of the declared methods. -/
structure Contracts (m : Model) (contracts : ContractModel) : Prop where
  exists_contract : ∀ ⦃key : String⦄ ⦃entry : Model.Entry⦄, m.classes[key]? = some entry →
    ∀ method ∈ entry.decl.methods, ∃ contract,
      contracts.operations (qualified key method.name) = some contract
  contractOf : ∀ ⦃id : String⦄ ⦃contract : OperationContract⦄,
    contracts.operations id = some contract → ∃ key entry method,
      m.classes[key]? = some entry ∧ method ∈ entry.decl.methods ∧
        id = qualified key method.name ∧ m.ContractOf key entry method contract

theorem Contracts.exists_contractOf {m : Model} {contracts : ContractModel}
    (hcontracts : Contracts m contracts) (hsound : Model.Sound m) {key : String}
    {entry : Model.Entry} {method : Method} (hentry : m.classes[key]? = some entry)
    (hmethod : method ∈ entry.decl.methods) :
    ∃ contract, contracts.operations (qualified key method.name) = some contract ∧
      m.ContractOf key entry method contract := by
  obtain ⟨contract, hcontract⟩ := hcontracts.exists_contract hentry method hmethod
  obtain ⟨key', entry', method', hentry', hmethod', hid, hspec⟩ := hcontracts.contractOf hcontract
  obtain ⟨rfl, hname⟩ := qualified_injective method.word method'.word hid
  obtain rfl := Option.some.inj (hentry.symm.trans hentry')
  obtain rfl := hsound.eq_of_name hentry hmethod hmethod' hname
  exact ⟨contract, hcontract, hspec⟩

theorem contracts_of_validate {documents : List Document} (h : validate documents = []) :
    ∃ contracts, ContractModel.new documents = .ok contracts ∧
      Contracts (buildModel documents) contracts := by
  have hsound := Model.sound_of_check h
  have hmethods (row : String × Model.Entry) (hrow : row ∈ (buildModel documents).classes.toList) :
      ∃ contracts, gather ((buildModel documents).resolveContract row.1) row.2.decl.methods =
        .ok contracts ∧ ∀ pair, pair ∈ contracts ↔ ∃ method ∈ row.2.decl.methods,
          ∃ c, (buildModel documents).resolveContract row.1 method = .ok c ∧ pair ∈ c := by
    have hentry := TreeMap.mem_toList_iff_getElem?_eq_some.mp hrow
    exact gather_ok fun method hmethod =>
      let ⟨contract, hcontract, _⟩ := hsound.resolveContract hentry hmethod
      ⟨_, hcontract⟩
  obtain ⟨rows, hrows, hmem⟩ := gather_ok
    (f := fun row : String × Model.Entry =>
      gather ((buildModel documents).resolveContract row.1) row.2.decl.methods)
    fun row hrow => let ⟨contracts, hcontracts, _⟩ := hmethods row hrow; ⟨contracts, hcontracts⟩
  have hrow (id : String) (contract : OperationContract) : (id, contract) ∈ rows ↔
      ∃ key entry method, (buildModel documents).classes[key]? = some entry ∧
        method ∈ entry.decl.methods ∧ ∃ c, (buildModel documents).resolveContract key method =
          .ok c ∧ (id, contract) ∈ c := by
    rw [hmem]
    constructor
    · rintro ⟨⟨key, entry⟩, hentry, contracts, hcontracts, hpair⟩
      obtain ⟨contracts', hcontracts', hspec⟩ := hmethods (key, entry) hentry
      obtain rfl := Except.ok.inj (hcontracts.symm.trans hcontracts')
      obtain ⟨method, hmethod, c, hc, hpair⟩ := (hspec _).mp hpair
      exact ⟨key, entry, method, TreeMap.mem_toList_iff_getElem?_eq_some.mp hentry, hmethod, c, hc,
        hpair⟩
    · rintro ⟨key, entry, method, hentry, hmethod, c, hc, hpair⟩
      have hmemEntry := TreeMap.mem_toList_iff_getElem?_eq_some.mpr hentry
      obtain ⟨contracts, hcontracts, hspec⟩ := hmethods (key, entry) hmemEntry
      exact ⟨(key, entry), hmemEntry, contracts, hcontracts,
        (hspec _).mpr ⟨method, hmethod, c, hc, hpair⟩⟩
  have hnew : ContractModel.new documents = .ok ⟨fun id =>
      (rows.foldl (fun operations row => operations.insert row.1 row.2)
        (∅ : TreeMap String OperationContract))[id]?⟩ := by
    rw [validate] at h
    rw [ContractModel.new, resolveContracts]
    simp only [h, List.isEmpty_nil, Bool.not_true, Bool.false_eq_true, if_false]
    rw [hrows]
    rfl
  refine ⟨_, hnew, ?_, ?_⟩
  · intro key entry hentry method hmethod
    obtain ⟨contract, hcontract, -⟩ := hsound.resolveContract hentry hmethod
    exact getElem?_foldl_insert.2 ⟨contract, .inr ((hrow _ _).mpr
      ⟨key, entry, method, hentry, hmethod, _, hcontract, List.mem_singleton_self _⟩)⟩
  · intro id contract hcontract
    obtain hempty | hpair := getElem?_foldl_insert.1 contract hcontract
    · rw [TreeMap.getElem?_emptyc] at hempty
      cases hempty
    · obtain ⟨key, entry, method, hentry, hmethod, c, hc, hpair⟩ := (hrow _ _).mp hpair
      obtain ⟨contract', hcontract', hspec⟩ := hsound.resolveContract hentry hmethod
      obtain rfl := Except.ok.inj (hc.symm.trans hcontract')
      obtain heq := List.mem_singleton.mp hpair
      cases heq
      exact ⟨key, entry, method, hentry, hmethod, rfl, hspec⟩

end Sage.Meta
