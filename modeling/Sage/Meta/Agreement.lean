import Sage.Meta.Resolve
import Sage.Meta.Session

/-!
# Meta — static and runtime checking

Validation follows the calls that are declared; a session also lets an abstract declaration pass a
call on to any override.  The two agree where no such step leads to something forbidden.

* `Safe` — no operation reaches what it forbids, over calls and dispatches.
* `agrees_iff_safe` — then, and only then, calls that are permitted are not forbidden.
* `agreement_iff` — in terms of the documents.
-/

namespace Sage.Meta

open Std (TreeMap TreeSet)

namespace ContractModel

variable (contracts : ContractModel)

/-- The contract of a caller lets it call an operation. -/
def Step (caller callee : String) : Prop :=
  ∃ contract, contracts.operations caller = some contract ∧
    ((∃ p ∈ contract.invokes, callee ∈ p.targets) ∨ callee ∈ contract.dispatches)

def Forbids (operation target : String) : Prop :=
  ∃ contract, contracts.operations operation = some contract ∧
    ∃ rule ∈ contract.prohibits, target ∈ rule.targets

/-- Whatever is reached is allowed. -/
def Safe : Prop :=
  ∀ operation target, contracts.Forbids operation target →
    ¬Relation.TransGen contracts.Step operation target

/-- Every step leads to an operation with a contract. -/
def Complete : Prop :=
  ∀ caller callee, contracts.Step caller callee →
    ∃ contract, contracts.operations callee = some contract

end ContractModel

namespace ContractSession

/-- A request entry or an exit. -/
def Call.IsRequest : Call → Prop
  | .enter _ _ => True
  | .exit _ => True
  | _ => False

/-- Calls of requests with nothing to report but forbidden calls have nothing to report. -/
def Agrees (contracts : ContractModel) : Prop :=
  ∀ (roots : List String) (calls : List Call), (∀ call ∈ calls, call.IsRequest) →
    (∀ v ∈ ((new contracts roots).run calls).finish.violations, v.kind = .forbiddenTransitive) →
    ((new contracts roots).run calls).finish.coverage.gaps = [] →
      ((new contracts roots).run calls).finish.violations = []

variable {contracts : ContractModel} {roots : List String}

/-! ### Safe contracts -/

/-- The open entries lead to the innermost one. -/
def Linked (contracts : ContractModel) (above : List Entry) : Prop :=
  ∀ caller ∈ above.head?, ∀ ancestor ∈ above,
    Relation.ReflTransGen contracts.Step ancestor.operation caller.operation

theorem step_of_requested {caller entry : Entry} {above : List Entry}
    (hcaller : ∃ contract, contracts.operations caller.operation = some contract)
    (h : Requested contracts roots (caller :: above) entry) :
    contracts.Step caller.operation entry.operation := by
  obtain ⟨contract, hcontract⟩ := hcaller
  refine ⟨contract, hcontract, ?_⟩
  obtain ⟨p, hp, htarget, -⟩ | ⟨⟨p, hp, htarget⟩ | hdispatch, -⟩ := h contract hcontract
  · exact .inl ⟨p, hp, htarget⟩
  · exact .inl ⟨p, hp, htarget⟩
  · exact .inr hdispatch

/-- A permitted entry is reached from everything that is open. -/
theorem Linked.cons {above : List Entry} {entry : Entry} (h : Linked contracts above)
    (hknown : ∀ caller ∈ above, ∃ contract, contracts.operations caller.operation = some contract)
    (hrequested : Requested contracts roots above entry) :
    (∀ ancestor ∈ above,
      Relation.TransGen contracts.Step ancestor.operation entry.operation) ∧
      Linked contracts (entry :: above) := by
  have hreach : ∀ ancestor ∈ above,
      Relation.TransGen contracts.Step ancestor.operation entry.operation := by
    intro ancestor hancestor
    cases above with
    | nil => cases hancestor
    | cons caller above =>
        exact .tail' (h caller rfl ancestor hancestor)
          (step_of_requested (hknown caller List.mem_cons_self) hrequested)
  refine ⟨hreach, ?_⟩
  intro caller hcaller ancestor hancestor
  obtain rfl := Option.some.inj hcaller
  obtain rfl | hancestor := List.mem_cons.mp hancestor
  · exact .refl
  · exact (hreach ancestor hancestor).to_reflTransGen

/-- The entries of these calls are requests. -/
theorem allConform_isRequest {allowed : List Entry → Entry → Prop} :
    ∀ (forest : List CallTree) (above : List Entry) (n : InvocationId),
      (∀ call ∈ CallTree.callsAll forest n, call.IsRequest) →
        CallTree.AllConform allowed above forest →
          CallTree.AllConform (fun above entry => allowed above entry ∧ entry.kind = .request)
            above forest
  | [], _, _, _, _ => by rw [CallTree.AllConform]; trivial
  | .node entry children :: trees, above, n, hcalls, h => by
      rw [CallTree.AllConform, CallTree.Conforms] at h ⊢
      rw [callsAll_node, List.forall_mem_cons, List.forall_mem_append, List.forall_mem_cons]
        at hcalls
      obtain ⟨hentry, hchildren, -, htrees⟩ := hcalls
      have hkind : entry.kind = .request := by
        rw [Entry.call] at hentry
        cases hkind : entry.kind with
        | request => rfl
        | validation => rw [hkind] at hentry; cases hentry
      exact ⟨⟨⟨h.1.1, hkind⟩, allConform_isRequest children _ _ hchildren h.1.2⟩,
        allConform_isRequest trees above _ htrees h.2⟩

/-- A forbidden entry under safe contracts would be one that is reached. -/
theorem agrees_of_safe (hsafe : contracts.Safe) : Agrees contracts := by
  intro roots calls hcalls hviolations hgaps
  have htolerant : ReportClean true ((new contracts roots).run calls).finish :=
    ⟨fun v hv => ⟨rfl, hviolations v hv⟩, hgaps⟩
  obtain ⟨hroots, forest, rfl, hforest⟩ := (new_run_clean contracts roots calls).mp htolerant
  have hstrict : ReportClean false
      ((new contracts roots).run (CallTree.callsAll forest 1)).finish := by
    refine (new_run_clean contracts roots _).mpr ⟨hroots, forest, rfl, ?_⟩
    refine CallTree.allConform_mono (I := fun above => Linked contracts above ∧
      ∀ caller ∈ above, ∃ contract, contracts.operations caller.operation = some contract)
      ?_ ⟨by simp [Linked], by simp⟩ forest (allConform_isRequest forest [] 1 hcalls hforest)
    rintro above entry ⟨hlinked, hknown⟩ ⟨hpassing, hkind⟩
    obtain ⟨hreach, hlinked'⟩ := hlinked.cons hknown (hpassing.requested hkind)
    refine ⟨⟨hpassing.known, hpassing.requested, ?_⟩, hlinked',
      List.forall_mem_cons.mpr ⟨hpassing.known, hknown⟩⟩
    intro ancestor hancestor contract hcontract rule hrule htarget
    exact absurd (hreach ancestor hancestor)
      (hsafe _ _ ⟨contract, hcontract, rule, hrule, htarget⟩)
  rw [List.eq_nil_iff_forall_not_mem]
  intro v hv
  exact Bool.false_ne_true (hstrict.1 v hv).1

/-! ### Unsafe contracts -/

/-- Calls in a row on one receiver, each from the one before. -/
@[grind =] def chain : List String → List CallTree
  | [] => []
  | operation :: operations => [.node ⟨.request, operation, some "receiver"⟩ (chain operations)]

theorem chain_passing {above : List Entry} {operations : List String}
    (habove : ∀ entry ∈ above, entry.receiver = some "receiver")
    (hknown : ∀ operation ∈ operations, ∃ contract,
      contracts.operations operation = some contract)
    (hfirst : above = [] → ∀ operation ∈ operations.head?, operation ∈ roots)
    (hstep : ∀ caller ∈ above.head?, ∀ operation ∈ operations.head?,
      contracts.Step caller.operation operation)
    (hchain : operations.IsChain contracts.Step) :
    CallTree.AllConform (Passing true contracts roots) above (chain operations) := by
  induction operations generalizing above with
  | nil => rw [chain, CallTree.AllConform]; trivial
  | cons operation operations ih =>
      rw [chain, CallTree.AllConform, CallTree.AllConform, CallTree.Conforms]
      refine ⟨⟨⟨hknown operation List.mem_cons_self, fun _ => ?_, ?_⟩, ?_⟩, trivial⟩
      · cases above with
        | nil => exact hfirst rfl operation rfl
        | cons caller above =>
            intro contract hcontract
            obtain ⟨contract', hcontract', hcallee⟩ := hstep caller rfl operation rfl
            obtain rfl := Option.some.inj (hcontract.symm.trans hcontract')
            have hreceiver := habove caller List.mem_cons_self
            obtain ⟨p, hp, htarget⟩ | hdispatch := hcallee
            · exact .inr ⟨.inl ⟨p, hp, htarget⟩, _, hreceiver, rfl⟩
            · exact .inr ⟨.inr hdispatch, _, hreceiver, rfl⟩
      · -- both receivers are known, so that every prohibition is decided
        intro ancestor hancestor contract _ rule _ _
        rw [Passes, if_pos rfl, CallPermission.verdict, habove ancestor hancestor]
        cases rule.sameReceiver <;> simp
      · refine ih (List.forall_mem_cons.mpr ⟨rfl, habove⟩)
          (fun operation' h => hknown operation' (List.mem_cons_of_mem _ h)) (by simp) ?_
          hchain.tail
        intro caller hcaller operation' hoperation'
        obtain rfl := Option.some.inj hcaller
        cases operations with
        | nil => cases hoperation'
        | cons next operations =>
            obtain rfl := Option.some.inj hoperation'
            exact (List.isChain_cons_cons.mp hchain).1

/-- On one receiver a prohibition binds. -/
theorem chain_forbidden {above : List Entry} {operations : List String} {ancestor : Entry}
    {target : String} (hancestor : ancestor ∈ above)
    (hreceiver : ancestor.receiver = some "receiver")
    (hforbids : contracts.Forbids ancestor.operation target) (htarget : target ∈ operations) :
    ¬CallTree.AllConform (Passing false contracts roots) above (chain operations) := by
  induction operations generalizing above with
  | nil => cases htarget
  | cons operation operations ih =>
      rw [chain, CallTree.AllConform, CallTree.AllConform, CallTree.Conforms]
      rintro ⟨⟨hpassing, hbelow⟩, -⟩
      obtain rfl | htarget := List.mem_cons.mp htarget
      · obtain ⟨contract, hcontract, rule, hrule, hmem⟩ := hforbids
        have hfree := hpassing.passes ancestor hancestor contract hcontract rule hrule hmem
        rw [Passes, if_neg Bool.false_ne_true, CallPermission.verdict, hreceiver] at hfree
        cases hsame : rule.sameReceiver <;> simp [hsame] at hfree
      · exact ih (List.mem_cons_of_mem _ hancestor) htarget hbelow

theorem isRequest_chain (operations : List String) (n : InvocationId) :
    ∀ call ∈ CallTree.callsAll (chain operations) n, call.IsRequest := by
  induction operations generalizing n with
  | nil => simp [chain, CallTree.callsAll]
  | cons operation operations ih =>
      rw [chain, callsAll_node, List.forall_mem_cons, List.forall_mem_append,
        List.forall_mem_cons, CallTree.callsAll]
      exact ⟨trivial, ih _, trivial, by simp⟩

theorem known_of_chain (hcomplete : contracts.Complete) {start : String}
    {operations : List String}
    (hstart : ∃ contract, contracts.operations start = some contract)
    (hchain : (start :: operations).IsChain contracts.Step) :
    ∀ operation ∈ start :: operations, ∃ contract,
      contracts.operations operation = some contract := by
  induction operations generalizing start with
  | nil => exact List.forall_mem_singleton.mpr hstart
  | cons next operations ih =>
      obtain ⟨hstep, hchain⟩ := List.isChain_cons_cons.mp hchain
      exact List.forall_mem_cons.mpr ⟨hstart, ih (hcomplete _ _ hstep) hchain⟩

theorem agrees_iff_safe (hcomplete : contracts.Complete) :
    Agrees contracts ↔ contracts.Safe := by
  refine ⟨fun hagrees start target hforbids hreach => ?_, agrees_of_safe⟩
  obtain ⟨next, hstep, hrest⟩ := Relation.TransGen.head'_iff.mp hreach
  obtain ⟨operations, hchain, hlast⟩ := List.exists_isChain_cons_of_relationReflTransGen hrest
  have hmem : target ∈ next :: operations := hlast ▸ List.getLast_mem _
  have hchain' : (start :: next :: operations).IsChain contracts.Step :=
    List.isChain_cons_cons.mpr ⟨hstep, hchain⟩
  have hknown : ∃ contract, contracts.operations start = some contract :=
    let ⟨contract, hcontract, _⟩ := hforbids
    ⟨contract, hcontract⟩
  have hroots : ∀ root ∈ [start], ∃ contract, contracts.operations root = some contract :=
    List.forall_mem_singleton.mpr hknown
  -- the chain is permitted from the start to the target
  have htolerant := (@new_run_callsAll true contracts [start]
    (chain (start :: next :: operations))).mpr ⟨hroots, chain_passing (by simp)
      (known_of_chain hcomplete hknown hchain') (by simp) (by simp) hchain'⟩
  have hclean := hagrees [start] _ (isRequest_chain _ 1) (fun v hv => (htolerant.1 v hv).2)
    htolerant.2
  have hstrict := (@new_run_callsAll false contracts [start]
    (chain (start :: next :: operations))).mp ⟨by rw [hclean]; simp, htolerant.2⟩
  -- and what starts it forbids its target
  have hconform := hstrict.2
  rw [chain, CallTree.AllConform, CallTree.Conforms] at hconform
  exact chain_forbidden (List.mem_singleton_self _) rfl hforbids hmem hconform.1.2

end ContractSession

/-! ### Documents -/

namespace Model

variable {m : Model} {contracts : ContractModel}

/-- The declaration of one method invokes the other. -/
def Calls (m : Model) (caller callee : String) : Prop :=
  ∃ key entry method, m.classes[key]? = some entry ∧ method ∈ entry.decl.methods ∧
    caller = qualified key method.name ∧ callee ∈ m.calls key entry method

/-- An abstract declaration passes a call on to another that is selected below it. -/
def Dispatches (m : Model) (caller callee : String) : Prop :=
  ∃ key entry method, m.classes[key]? = some entry ∧ method ∈ entry.decl.methods ∧
    caller = qualified key method.name ∧ m.DispatchesTo key method callee

/-- A path of calls and dispatches from an implementation to what is forbidden for it, with a
dispatch on it. -/
def DispatchesToForbidden (m : Model) : Prop :=
  ∃ prohibition ∈ m.prohibitions, ∃ start ∈ m.implementations prohibition.start,
    ∃ declared callee target,
      Relation.ReflTransGen (fun a b => m.Calls a b ∨ m.Dispatches a b) start declared ∧
      m.Dispatches declared callee ∧
      Relation.ReflTransGen (fun a b => m.Calls a b ∨ m.Dispatches a b) callee target ∧
      target ∈ prohibition.forbidden

theorem step_iff (hsound : Sound m) (hcontracts : Contracts m contracts) (a b : String) :
    contracts.Step a b ↔ m.Calls a b ∨ m.Dispatches a b := by
  constructor
  · rintro ⟨contract, hcontract, h⟩
    obtain ⟨key, entry, method, hentry, hmethod, rfl, hspec⟩ := hcontracts.contractOf hcontract
    exact h.imp (fun h => ⟨key, entry, method, hentry, hmethod, rfl, (hspec.invokes b).mp h⟩)
      fun h => ⟨key, entry, method, hentry, hmethod, rfl, (hspec.dispatches b).mp h⟩
  · rintro (⟨key, entry, method, hentry, hmethod, rfl, h⟩ |
      ⟨key, entry, method, hentry, hmethod, rfl, h⟩)
    · obtain ⟨contract, hcontract, hspec⟩ := hcontracts.exists_contractOf hsound hentry hmethod
      exact ⟨contract, hcontract, .inl ((hspec.invokes b).mpr h)⟩
    · obtain ⟨contract, hcontract, hspec⟩ := hcontracts.exists_contractOf hsound hentry hmethod
      exact ⟨contract, hcontract, .inr ((hspec.dispatches b).mpr h)⟩

theorem mem_prohibitions {prohibition : Prohibition} : prohibition ∈ m.prohibitions ↔
    ∃ key entry method path reached, m.classes[key]? = some entry ∧
      method ∈ entry.decl.methods ∧ .forbidTransitive path ∈ method.envelope.getD [] ∧
      m.targets key entry path = .ok reached ∧
      prohibition = ⟨qualified key method.name, reached, entry.document.file, path.span⟩ := by
  simp only [prohibitions, List.mem_flatMap, Prod.exists, TreeMap.mem_toList_iff_getElem?_eq_some]
  constructor
  · rintro ⟨key, entry, hentry, method, hmethod, effect, heffect, h⟩
    cases effect with
    | forbidTransitive path =>
        dsimp only at h
        cases hreached : m.targets key entry path with
        | ok reached =>
            rw [hreached] at h
            exact ⟨key, entry, method, path, reached, hentry, hmethod, heffect, hreached,
              List.mem_singleton.mp h⟩
        | error message => rw [hreached] at h; cases h
    | invokes path => cases h
    | reads path => cases h
    | creates name context => cases h
  · rintro ⟨key, entry, method, path, reached, hentry, hmethod, heffect, hreached, rfl⟩
    refine ⟨key, entry, hentry, method, hmethod, _, heffect, ?_⟩
    simp only [hreached]
    exact List.mem_singleton_self _

/-- A contract has the prohibitions whose implementations contain its operation. -/
theorem forbids_iff (hsound : Sound m) (hcontracts : Contracts m contracts) (a target : String) :
    contracts.Forbids a target ↔ ∃ prohibition ∈ m.prohibitions,
      a ∈ m.implementations prohibition.start ∧ target ∈ prohibition.forbidden := by
  constructor
  · rintro ⟨contract, hcontract, hrule⟩
    obtain ⟨key, entry, method, hentry, hmethod, rfl, hspec⟩ := hcontracts.contractOf hcontract
    obtain ⟨owner, howner, base, hbase, declaration, hdeclaration, hname, path, hpath, reached,
      hreached, htarget⟩ := (hspec.prohibits target).mp hrule
    refine ⟨_, mem_prohibitions.mpr ⟨owner, base, declaration, path, reached, hbase, hdeclaration,
      hpath, hreached, rfl⟩, mem_implementations.mpr ⟨key, ?_, ?_⟩, htarget⟩
    · exact mem_descendants.mpr ⟨⟨entry, hentry⟩, howner⟩
    · rw [hname]
      obtain ⟨owner', entry', method', hselected⟩ :=
        exists_selected (self_mem_ancestors m key) hentry hmethod
      have hkey : owner' = key := by
        have hnearest := hselected.nearest
        obtain ⟨rest, hrest⟩ := List.head?_eq_some_iff.mp (hsound.line key).isChain.2
        rw [hrest, List.find?_cons,
          declares_iff.mpr ⟨entry, hentry, method, hmethod, rfl⟩] at hnearest
        exact (Option.some.inj hnearest).symm
      rw [hselected.method_eq, hkey]
  · rintro ⟨prohibition, hprohibition, ha, htarget⟩
    obtain ⟨owner, base, declaration, path, reached, hbase, hdeclaration, hpath, hreached, rfl⟩ :=
      mem_prohibitions.mp hprohibition
    obtain ⟨descendant, hdescendant, hmethod⟩ := mem_implementations.mp ha
    have howner := (mem_descendants.mp hdescendant).2
    obtain ⟨key, entry, method, hselected⟩ := exists_selected howner hbase hdeclaration
    obtain rfl := Option.some.inj (hmethod.symm.trans hselected.method_eq)
    obtain ⟨contract, hcontract, hspec⟩ :=
      hcontracts.exists_contractOf hsound hselected.declared hselected.member
    rw [hselected.named] at hcontract
    refine ⟨contract, hcontract, (hspec.prohibits target).mpr ⟨owner, ?_, base, hbase, declaration,
      hdeclaration, hselected.named.symm, path, hpath, reached, hreached, htarget⟩⟩
    exact hsound.mem_ancestors_nearest hselected.nearest howner
      (declares_iff.mpr ⟨base, hbase, declaration, hdeclaration, rfl⟩)

/-! ### The search -/

theorem mem_foldl_addCalls {rows : List (String × List String)}
    {graph : TreeMap String (TreeSet String)} {a b : String} :
    b ∈ (rows.foldl (fun graph row => addCalls graph row.1 row.2) graph).getD a ∅ ↔
      b ∈ graph.getD a ∅ ∨ ∃ targets, (a, targets) ∈ rows ∧ b ∈ targets := by
  induction rows generalizing graph with
  | nil => simp
  | cons row rows ih =>
      obtain ⟨key, targets⟩ := row
      rw [List.foldl_cons, ih, addCalls, TreeMap.getD_insert]
      simp only [Std.LawfulEqCmp.compare_eq_iff_eq, List.mem_cons, Prod.mk.injEq]
      by_cases hkey : key = a
      · subst hkey
        rw [if_pos rfl, mem_foldl_insert]
        constructor
        · rintro ((h | h) | ⟨other, hrow, h⟩)
          · exact .inl h
          · exact .inr ⟨targets, .inl ⟨rfl, rfl⟩, h⟩
          · exact .inr ⟨other, .inr hrow, h⟩
        · rintro (h | ⟨other, ⟨-, rfl⟩ | hrow, h⟩)
          · exact .inl (.inl h)
          · exact .inl (.inr h)
          · exact .inr ⟨other, hrow, h⟩
      · rw [if_neg hkey]
        refine or_congr Iff.rfl (exists_congr fun other => and_congr_left fun _ => ?_)
        exact ⟨.inr, fun h => h.resolve_left fun heq => hkey heq.1.symm⟩

theorem mem_callGraph {a b : String} : b ∈ m.callGraph.getD a ∅ ↔ m.Calls a b := by
  rw [callGraph, mem_foldl_addCalls, TreeMap.getD_emptyc]
  simp only [callTable, List.mem_flatMap, Prod.exists, TreeMap.mem_toList_iff_getElem?_eq_some,
    List.mem_map, Prod.mk.injEq]
  constructor
  · rintro (h | ⟨targets, ⟨key, entry, hentry, method, hmethod, rfl, rfl⟩, hb⟩)
    · exact absurd h TreeSet.not_mem_emptyc
    · exact ⟨key, entry, method, hentry, hmethod, rfl, hb⟩
  · rintro ⟨key, entry, method, hentry, hmethod, rfl, hb⟩
    exact .inr ⟨_, ⟨key, entry, hentry, method, hmethod, rfl, rfl⟩, hb⟩

/-- A search without a result has seen all that is called. -/
theorem not_forbidden_of_calls {prohibition : Prohibition}
    (hnone : m.forbiddenPath m.callGraph prohibition = none) {start target : String}
    (hstart : start ∈ m.implementations prohibition.start)
    (hreach : Relation.TransGen m.Calls start target) : target ∉ prohibition.forbidden := by
  have hnodup : m.callGraph.keys.Nodup := TreeMap.nodup_keys
  have hsupport (x : String) (hx : (m.callGraph.getD x ∅).toList ≠ []) :
      x ∈ m.callGraph.keys := by
    by_contra hmem
    rw [TreeMap.mem_keys] at hmem
    rw [TreeMap.getD_eq_fallback hmem] at hx
    exact hx rfl
  obtain ⟨closed, -, hqueue, hclosed⟩ := Search.search_eq_none hnodup hsupport (by simp)
    (by simp only [Search.pending, List.not_mem_nil, not_false_eq_true, decide_true,
      List.filter_true]; exact Nat.lt_succ_self _) hnone
  have hstep {a b : String} (h : m.Calls a b) : b ∈ (m.callGraph.getD a ∅).toList :=
    TreeSet.mem_toList.mpr (mem_callGraph.mpr h)
  have htarget : closed target := by
    obtain ⟨next, hnext, hrest⟩ := Relation.TransGen.head'_iff.mp hreach
    have hfirst : closed next := hqueue ([start], next) (List.mem_flatMap.mpr
      ⟨start, hstart, List.mem_map.mpr ⟨next, hstep hnext, rfl⟩⟩)
    clear hreach
    induction hrest with
    | refl => exact hfirst
    | tail _ hlast ih => exact (hclosed _ ih).2 _ (hstep hlast)
  intro hforbidden
  have hgoal := (hclosed target htarget).1
  rw [TreeSet.contains_iff_mem.mpr hforbidden] at hgoal
  cases hgoal

/-- A path of calls and dispatches has only calls, or a dispatch. -/
theorem transGen_cases {R S : String → String → Prop} {a b : String}
    (h : Relation.TransGen (fun a b => R a b ∨ S a b) a b) :
    Relation.TransGen R a b ∨ ∃ x y, Relation.ReflTransGen (fun a b => R a b ∨ S a b) a x ∧
      S x y ∧ Relation.ReflTransGen (fun a b => R a b ∨ S a b) y b := by
  induction h with
  | single hstep =>
      exact hstep.imp .single fun hs => ⟨a, _, .refl, hs, .refl⟩
  | tail hpath hstep ih =>
      obtain hcalls | ⟨x, y, hx, hs, hy⟩ := ih
      · obtain hr | hs := hstep
        · exact .inl (hcalls.tail hr)
        · exact .inr ⟨_, _, hpath.to_reflTransGen, hs, .refl⟩
      · exact .inr ⟨x, y, hx, hs, hy.tail hstep⟩

theorem safe_iff (hcheck : m.check = []) (hcontracts : Contracts m contracts) :
    contracts.Safe ↔ ¬m.DispatchesToForbidden := by
  have hsound := sound_of_check hcheck
  have hstep : contracts.Step = fun a b => m.Calls a b ∨ m.Dispatches a b := by
    ext a b
    exact step_iff hsound hcontracts a b
  have hnone : ∀ prohibition ∈ m.prohibitions,
      m.forbiddenPath m.callGraph prohibition = none := by
    intro prohibition hprohibition
    rw [check, List.append_eq_nil_iff, List.flatMap_eq_nil_iff] at hcheck
    have hpath := hcheck.2 prohibition hprohibition
    rw [pathErrors, Option.toList_eq_nil_iff, Option.map_eq_none_iff] at hpath
    exact hpath
  constructor
  · rintro hsafe ⟨prohibition, hprohibition, start, hstart, declared, callee, target, hbefore,
      hdispatch, hafter, htarget⟩
    refine hsafe start target ((forbids_iff hsound hcontracts start target).mpr
      ⟨prohibition, hprohibition, hstart, htarget⟩) ?_
    rw [hstep]
    exact .trans_right hbefore (.head' (.inr hdispatch) hafter)
  · intro hdispatches start target hforbids hreach
    obtain ⟨prohibition, hprohibition, hstart, htarget⟩ :=
      (forbids_iff hsound hcontracts start target).mp hforbids
    rw [hstep] at hreach
    obtain hcalls | ⟨declared, callee, hbefore, hdispatch, hafter⟩ := transGen_cases hreach
    · exact not_forbidden_of_calls (hnone prohibition hprohibition) hstart hcalls htarget
    · exact hdispatches ⟨prohibition, hprohibition, start, hstart, declared, callee, target,
        hbefore, hdispatch, hafter, htarget⟩

theorem complete (hsound : Sound m) (hcontracts : Contracts m contracts) :
    contracts.Complete := by
  have hmethod {key name callee : String} (h : m.method key name = some callee) :
      ∃ contract, contracts.operations callee = some contract := by
    obtain ⟨owner, hnearest, rfl⟩ := Option.map_eq_some_iff.mp h
    have hdeclares := List.find?_some (p := (m.declares · name)) hnearest
    obtain ⟨entry, hentry, method, hmem, rfl⟩ := declares_iff.mp hdeclares
    exact hcontracts.exists_contract hentry method hmem
  intro caller callee hstep
  obtain ⟨key, entry, method, hentry, hmem, rfl, hcall⟩ |
    ⟨key, entry, method, hentry, hmem, rfl, -, -, descendant, -, hselected⟩ :=
      (step_iff hsound hcontracts caller callee).mp hstep
  · obtain ⟨path, hpath, reached, hreached, htarget⟩ := mem_calls.mp hcall
    cases hresolved : m.methodPath key entry path with
    | error message =>
        rw [targets, hresolved] at hreached
        cases hreached
    | ok resolved =>
        obtain ⟨owner, name⟩ := resolved
        obtain ⟨descendant, -, hselected⟩ := (targets_spec hresolved hreached callee).mp htarget
        exact hmethod hselected
  · exact hmethod hselected

/-- In accepted documents permitted calls are never forbidden exactly if no path of calls leads
through a dispatch to something forbidden. -/
theorem agreement_iff (documents : List Document) (h : validate documents = []) :
    ∃ contracts, ContractModel.new documents = .ok contracts ∧
      (ContractSession.Agrees contracts ↔ ¬(buildModel documents).DispatchesToForbidden) := by
  obtain ⟨contracts, hnew, hcontracts⟩ := contracts_of_validate h
  exact ⟨contracts, hnew, (ContractSession.agrees_iff_safe
    (complete (sound_of_check h) hcontracts)).trans (safe_iff h hcontracts)⟩

/-- `R::run` may call `n` of a `D`, and must not reach that of an `F`. -/
def dispatchExample : List Document :=
  [⟨"crate.sage", .crate "c" [] [],
    [.class ⟨"A", .abstract, none, [],
      [⟨"n", by decide, .function, false, .tuple [] .zero, none, .zero⟩], .zero⟩,
     .class ⟨"D", .abstract, some ⟨"crate", ["A"], .zero⟩, [], [], .zero⟩,
     .class ⟨"F", .concrete, some ⟨"crate", ["A"], .zero⟩, [],
      [⟨"n", by decide, .function, true, .tuple [] .zero, some [], .zero⟩], .zero⟩,
     .class ⟨"R", .concrete, none, [],
      [⟨"run", by decide, .function, false, .tuple [] .zero,
        some [.invokes ⟨"crate", ["D", "n"], .zero⟩,
          .forbidTransitive ⟨"crate", ["F", "n"], .zero⟩], .zero⟩], .zero⟩]⟩]

theorem agreement_dispatchExample : ∃ contracts, ContractModel.new dispatchExample = .ok contracts ∧
    (ContractSession.Agrees contracts ↔ ¬(buildModel dispatchExample).DispatchesToForbidden) :=
  agreement_iff dispatchExample (by decide)

/-- The call of `A::n` under the permission for `D::n` goes on to `F::n`. -/
theorem dispatchExample_disagrees : validate dispatchExample = [] ∧
    ∃ contracts, ContractModel.new dispatchExample = .ok contracts ∧
      ¬ContractSession.Agrees contracts := by
  have hrun : (match ContractModel.new dispatchExample with
      | .error _ => false
      | .ok contracts =>
          let report := ((ContractSession.new contracts ["c::R::run"]).run
            [.enter "c::R::run" (some "x"), .enter "c::A::n" (some "x"),
              .enter "c::F::n" (some "x"), .exit 3, .exit 2, .exit 1]).finish
          report.violations.all (fun v => v.kind = .forbiddenTransitive) &&
            report.coverage.gaps.isEmpty && !report.violations.isEmpty) = true := by
    decide
  refine ⟨by decide, ?_⟩
  cases hnew : ContractModel.new dispatchExample with
  | error errors => rw [hnew] at hrun; cases hrun
  | ok contracts =>
      rw [hnew] at hrun
      simp only [Bool.and_eq_true, List.all_eq_true, decide_eq_true_eq, List.isEmpty_iff,
        Bool.not_eq_true', List.isEmpty_eq_false_iff] at hrun
      obtain ⟨⟨hviolations, hgaps⟩, hsome⟩ := hrun
      refine ⟨contracts, rfl, fun hagrees => hsome (hagrees _ _ ?_ hviolations hgaps)⟩
      simp [ContractSession.Call.IsRequest]

end Model

end Sage.Meta
