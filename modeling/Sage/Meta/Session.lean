import Sage.Meta.Contracts

/-!
# Meta — what a session accepts

A session reports that its calls conform exactly if they are those of a forest of call trees in
which every entry is allowed under the entries above it.

* `Allowed` — an entry under the entries that are open.
* `CallTree.calls`, `CallTree.Conforms` — the calls of a tree, and when they conform.
* `session_exact` — the report of a session.
-/

namespace Sage.Meta

/-- A call without its number. -/
structure Entry where
  kind : EntryKind
  operation : String
  receiver : Option String

def Invocation.entry (invocation : Invocation) : Entry :=
  ⟨invocation.kind, invocation.operation, invocation.receiver⟩

/-- A permission for the whole class, or one for the same receiver with both receivers known. -/
def OperationContract.Permits (contract : OperationContract) (caller entry : Entry) : Prop :=
  (∃ p ∈ contract.invokes, entry.operation ∈ p.targets ∧ p.sameReceiver = false) ∨
    ((∃ p ∈ contract.invokes, entry.operation ∈ p.targets) ∨
      entry.operation ∈ contract.dispatches) ∧
        ∃ receiver, caller.receiver = some receiver ∧ entry.receiver = some receiver

/-- Two receivers are known to differ. -/
def DifferentReceivers (a b : Entry) : Prop :=
  ∃ r r', a.receiver = some r ∧ b.receiver = some r' ∧ r ≠ r'

/-- A prohibition for the same receiver binds unless the receivers are known to differ. -/
def OperationContract.Forbids (contract : OperationContract) (ancestor entry : Entry) : Prop :=
  ∃ rule ∈ contract.prohibits, entry.operation ∈ rule.targets ∧
    (rule.sameReceiver = true → ¬DifferentReceivers ancestor entry)

/-- What a prohibition says about an entry. -/
inductive Verdict where
  | free
  | undecided
  | forbidden

def CallPermission.verdict (rule : CallPermission) (ancestor entry : Entry) : Verdict :=
  if rule.sameReceiver then
    match ancestor.receiver, entry.receiver with
    | some a, some b => if a = b then .forbidden else .free
    | _, _ => .undecided
  else .forbidden

theorem CallPermission.verdict_eq_free {rule : CallPermission} {ancestor entry : Entry} :
    rule.verdict ancestor entry = .free ↔
      ¬(rule.sameReceiver = true → ¬DifferentReceivers ancestor entry) := by
  rw [verdict, DifferentReceivers]
  cases rule.sameReceiver with
  | false => simp
  | true =>
      cases ancestor.receiver <;> cases entry.receiver <;> simp

/-- What asks for an entry may do so.  A caller without a contract is not allowed itself. -/
def Requested (model : ContractModel) (roots : List String) : List Entry → Entry → Prop
  | [], entry => entry.operation ∈ roots
  | caller :: _, entry => ∀ contract, model.operations caller.operation = some contract →
      contract.Permits caller entry

/-- An entry under the entries that are open, of which the innermost is the first. -/
structure Allowed (model : ContractModel) (roots : List String) (above : List Entry)
    (entry : Entry) : Prop where
  known : ∃ contract, model.operations entry.operation = some contract
  requested : entry.kind = .request → Requested model roots above entry
  unforbidden : ∀ ancestor ∈ above, ∀ contract,
    model.operations ancestor.operation = some contract → ¬contract.Forbids ancestor entry

/-- A session can be asked to tolerate forbidden entries, as long as they are decided. -/
def Passes (tolerant : Bool) (verdict : Verdict) : Prop :=
  if tolerant then verdict ≠ .undecided else verdict = .free

/-- `Allowed` for sessions of both kinds. -/
structure Passing (tolerant : Bool) (model : ContractModel) (roots : List String)
    (above : List Entry) (entry : Entry) : Prop where
  known : ∃ contract, model.operations entry.operation = some contract
  requested : entry.kind = .request → Requested model roots above entry
  passes : ∀ ancestor ∈ above, ∀ contract,
    model.operations ancestor.operation = some contract → ∀ rule ∈ contract.prohibits,
      entry.operation ∈ rule.targets → Passes tolerant (rule.verdict ancestor entry)

theorem passing_false_iff {model : ContractModel} {roots : List String} {above : List Entry}
    {entry : Entry} : Passing false model roots above entry ↔ Allowed model roots above entry := by
  constructor
  · rintro ⟨hknown, hrequested, hpasses⟩
    refine ⟨hknown, hrequested, ?_⟩
    rintro ancestor hancestor contract hcontract ⟨rule, hrule, htarget, hforbids⟩
    exact CallPermission.verdict_eq_free.mp
      (hpasses ancestor hancestor contract hcontract rule hrule htarget) hforbids
  · rintro ⟨hknown, hrequested, hunforbidden⟩
    refine ⟨hknown, hrequested, ?_⟩
    intro ancestor hancestor contract hcontract rule hrule htarget
    exact CallPermission.verdict_eq_free.mpr fun hforbids =>
      hunforbidden ancestor hancestor contract hcontract ⟨rule, hrule, htarget, hforbids⟩

/-- Only the members of the roots matter. -/
theorem passing_congr {tolerant : Bool} {model : ContractModel} {roots roots' : List String}
    (hroots : ∀ root, root ∈ roots ↔ root ∈ roots') (above : List Entry) (entry : Entry) :
    Passing tolerant model roots above entry ↔ Passing tolerant model roots' above entry := by
  have hrequested : Requested model roots above entry ↔ Requested model roots' above entry := by
    cases above with
    | nil => exact hroots entry.operation
    | cons caller above => rfl
  constructor
  · rintro ⟨hknown, h, hpasses⟩
    exact ⟨hknown, fun hkind => hrequested.mp (h hkind), hpasses⟩
  · rintro ⟨hknown, h, hpasses⟩
    exact ⟨hknown, fun hkind => hrequested.mpr (h hkind), hpasses⟩

inductive CallTree where
  | node (entry : Entry) (children : List CallTree)

@[grind =] def Entry.call (entry : Entry) : ContractSession.Call :=
  match entry.kind with
  | .request => .enter entry.operation entry.receiver
  | .validation => .enterValidation entry.operation entry.receiver

namespace CallTree

mutual

@[grind =] def size : CallTree → Nat
  | node _ children => sizeAll children + 1

def sizeAll : List CallTree → Nat
  | [] => 0
  | tree :: trees => tree.size + sizeAll trees

end

mutual

/-- The calls of a tree whose entries get the numbers from `n` on. -/
def calls : CallTree → InvocationId → List ContractSession.Call
  | node entry children, n => entry.call :: callsAll children (n + 1) ++ [.exit n]

def callsAll : List CallTree → InvocationId → List ContractSession.Call
  | [], _ => []
  | tree :: trees, n => tree.calls n ++ callsAll trees (n + tree.size)

end

variable (allowed : List Entry → Entry → Prop)

mutual

/-- Every entry of the tree is allowed under those above it. -/
def Conforms : List Entry → CallTree → Prop
  | above, node entry children =>
      allowed above entry ∧ AllConform (entry :: above) children

def AllConform : List Entry → List CallTree → Prop
  | _, [] => True
  | above, tree :: trees => Conforms above tree ∧ AllConform above trees

end

variable {allowed} {allowed' : List Entry → Entry → Prop} {I : List Entry → Prop}

mutual

/-- What is allowed may depend on an invariant of the entries above. -/
theorem conforms_mono
    (h : ∀ above entry, I above → allowed above entry → allowed' above entry ∧ I (entry :: above))
    {above : List Entry} (habove : I above) (tree : CallTree) (htree : Conforms allowed above tree) :
    Conforms allowed' above tree := by
  cases tree with
  | node entry children =>
      rw [Conforms] at htree ⊢
      obtain ⟨hallowed, hbelow⟩ := h above entry habove htree.1
      exact ⟨hallowed, allConform_mono h hbelow children htree.2⟩

theorem allConform_mono
    (h : ∀ above entry, I above → allowed above entry → allowed' above entry ∧ I (entry :: above))
    {above : List Entry} (habove : I above) (trees : List CallTree)
    (htrees : AllConform allowed above trees) : AllConform allowed' above trees := by
  cases trees with
  | nil => rw [AllConform]; trivial
  | cons tree trees =>
      rw [AllConform] at htrees ⊢
      exact ⟨conforms_mono h habove tree htrees.1, allConform_mono h habove trees htrees.2⟩

end

theorem allConform_congr (h : ∀ above entry, allowed above entry ↔ allowed' above entry)
    (above : List Entry) (trees : List CallTree) :
    AllConform allowed above trees ↔ AllConform allowed' above trees :=
  ⟨allConform_mono (I := fun _ => True) (fun above entry _ hentry =>
      ⟨(h above entry).mp hentry, trivial⟩) trivial trees,
    allConform_mono (I := fun _ => True) (fun above entry _ hentry =>
      ⟨(h above entry).mpr hentry, trivial⟩) trivial trees⟩

end CallTree

namespace ContractSession

/-- Nothing was wrong so far, apart from what is tolerated. -/
@[grind =] def Clean (tolerant : Bool) (s : ContractSession) : Prop :=
  (∀ v ∈ s.violations, tolerant = true ∧ v.kind = .forbiddenTransitive) ∧ s.coverage.gaps = []

/-- Nothing changes that decides about later calls. -/
structure SameFrames (s s' : ContractSession) : Prop where
  model : s'.model = s.model
  roots : s'.roots = s.roots
  active : s'.active = s.active
  nextId : s'.nextId = s.nextId

namespace SameFrames

variable {s s' s'' : ContractSession}

theorem refl (s : ContractSession) : SameFrames s s := ⟨rfl, rfl, rfl, rfl⟩

theorem trans (h : SameFrames s s') (h' : SameFrames s' s'') : SameFrames s s'' :=
  ⟨h'.model.trans h.model, h'.roots.trans h.roots, h'.active.trans h.active,
    h'.nextId.trans h.nextId⟩

end SameFrames

variable {tolerant : Bool} {s : ContractSession} {invocation : Invocation}

theorem clean_violation {kind : ViolationKind} {message : String} {rule : Option ContractRule} :
    Clean tolerant (s.violation kind invocation message rule) ↔
      Clean tolerant s ∧ tolerant = true ∧ kind = .forbiddenTransitive := by
  rw [Clean, Clean, violation, List.forall_mem_append, List.forall_mem_singleton]
  exact and_right_comm

theorem not_clean_violation {kind : ViolationKind} {message : String} {rule : Option ContractRule}
    (hkind : kind ≠ .forbiddenTransitive) :
    ¬Clean tolerant (s.violation kind invocation message rule) :=
  fun h => hkind (clean_violation.mp h).2.2

theorem not_clean_recordGap (message : String) : ¬Clean tolerant (s.recordGap message) := by
  rintro ⟨-, h⟩
  exact absurd h (by simp [recordGap])

theorem sameFrames_violation (kind : ViolationKind) (message : String)
    (rule : Option ContractRule) : SameFrames s (s.violation kind invocation message rule) :=
  ⟨rfl, rfl, rfl, rfl⟩

theorem sameFrames_recordGap (message : String) : SameFrames s (s.recordGap message) :=
  ⟨rfl, rfl, rfl, rfl⟩

/-! ### Entering -/

theorem checkKnown_spec (s : ContractSession) (invocation : Invocation) :
    SameFrames s (s.checkKnown invocation) ∧ (Clean tolerant (s.checkKnown invocation) ↔ Clean tolerant s ∧
      ∃ contract, s.model.operations invocation.operation = some contract) := by
  rw [checkKnown]
  cases h : s.model.operations invocation.operation with
  | none =>
      exact ⟨sameFrames_violation _ _ _, iff_of_false (not_clean_violation nofun) (by simp)⟩
  | some contract => exact ⟨⟨rfl, rfl, rfl, rfl⟩, by simp [Clean]⟩

/-- What the permissions of a caller say, as the check reads them. -/
theorem permits_iff {contract : OperationContract} {caller entry : Entry}
    {permissions : List CallPermission}
    (hpermissions : contract.permissions entry.operation = permissions) :
    contract.Permits caller entry ↔
      permissions.any (fun p => !p.sameReceiver) = true ∨
        (permissions.isEmpty = false ∨ entry.operation ∈ contract.dispatches) ∧
          ∃ receiver, caller.receiver = some receiver ∧ entry.receiver = some receiver := by
  subst hpermissions
  simp only [OperationContract.Permits, OperationContract.permissions, List.any_filter, List.any_eq_true, Bool.and_eq_true,
    decide_eq_true_eq, Bool.not_eq_true', List.isEmpty_eq_false_iff, ne_eq,
    List.filter_eq_nil_iff, not_forall, not_not, exists_prop]

theorem checkRequest_spec (s : ContractSession) (invocation : Invocation) :
    SameFrames s (s.checkRequest invocation) ∧ (Clean tolerant (s.checkRequest invocation) ↔
      Clean tolerant s ∧ Requested s.model s.roots (s.active.map Invocation.entry) invocation.entry) := by
  cases hactive : s.active with
  | nil =>
      simp only [checkRequest, hactive, List.map_nil, Requested]
      by_cases hroot : invocation.operation ∈ s.roots
      · rw [if_pos hroot]
        exact ⟨.refl s, (and_iff_left hroot).symm⟩
      · rw [if_neg hroot]
        exact ⟨sameFrames_violation _ _ _,
          iff_of_false (not_clean_violation nofun) fun h => hroot h.2⟩
  | cons caller rest =>
      simp only [checkRequest, hactive, List.map_cons, Requested]
      cases hcontract : s.model.operations caller.operation with
      | none => exact ⟨.refl s, by simp [Invocation.entry, hcontract]⟩
      | some contract =>
          have hrequested : (∀ contract', s.model.operations caller.entry.operation =
              some contract' → contract'.Permits caller.entry invocation.entry) ↔
                contract.Permits caller.entry invocation.entry := by
            simp only [Invocation.entry, hcontract, Option.some.injEq, forall_eq']
          dsimp only
          generalize hpermissions : contract.permissions invocation.operation = permissions
          rw [hrequested, permits_iff hpermissions]
          simp only [Invocation.entry]
          by_cases hany : permissions.any (fun p => !p.sameReceiver) = true
          · rw [if_pos hany]
            exact ⟨.refl s, by simp [hany]⟩
          rw [if_neg hany]
          by_cases hsome : permissions.isEmpty = false ∨ invocation.operation ∈ contract.dispatches
          · rw [if_pos (by simpa using hsome)]
            cases hr : caller.receiver with
            | none =>
                exact ⟨sameFrames_recordGap _, iff_of_false (not_clean_recordGap _)
                  (by simp [hany])⟩
            | some r =>
                cases hr' : invocation.receiver with
                | none =>
                    exact ⟨sameFrames_recordGap _, iff_of_false (not_clean_recordGap _)
                      (by simp [hany])⟩
                | some r' =>
                    by_cases heq : r = r'
                    · dsimp only
                      rw [if_pos heq]
                      exact ⟨.refl s, (and_iff_left (.inr ⟨hsome, r, rfl, congrArg some heq.symm⟩)).symm⟩
                    · dsimp only
                      rw [if_neg heq]
                      exact ⟨sameFrames_violation _ _ _, iff_of_false (not_clean_violation nofun)
                        (by simp [hany, Ne.symm heq])⟩
          · rw [if_neg (by simpa using hsome)]
            exact ⟨sameFrames_violation _ _ _, iff_of_false (not_clean_violation nofun)
              fun h => h.2.elim hany fun h => hsome h.1⟩

theorem checkKind_spec (s : ContractSession) (invocation : Invocation) :
    SameFrames s (s.checkKind invocation) ∧ (Clean tolerant (s.checkKind invocation) ↔
      Clean tolerant s ∧ (invocation.kind = .request →
        Requested s.model s.roots (s.active.map Invocation.entry) invocation.entry)) := by
  rw [checkKind]
  cases invocation.kind with
  | request =>
      obtain ⟨hframes, hclean⟩ := checkRequest_spec { s with coverage := { s.coverage with
        checkedRequests := s.coverage.checkedRequests + 1 } } invocation
      refine ⟨⟨hframes.model, hframes.roots, hframes.active, hframes.nextId⟩, hclean.trans ?_⟩
      exact and_congr Iff.rfl ⟨fun h _ => h, fun h => h rfl⟩
  | validation => exact ⟨⟨rfl, rfl, rfl, rfl⟩, by simp [Clean]⟩

/-- The three cases of a prohibition are the three outcomes of its check. -/
theorem checkProhibition_spec (s : ContractSession) (invocation ancestor : Invocation)
    (prohibition : CallPermission) :
    SameFrames s (s.checkProhibition invocation ancestor prohibition) ∧
      (Clean tolerant (s.checkProhibition invocation ancestor prohibition) ↔ Clean tolerant s ∧
        Passes tolerant (prohibition.verdict ancestor.entry invocation.entry)) := by
  have hforbidden (message : String) (rule : Option ContractRule) :
      Clean tolerant (s.violation .forbiddenTransitive invocation message rule) ↔
        Clean tolerant s ∧ Passes tolerant .forbidden := by
    rw [clean_violation, Passes]
    cases tolerant <;> simp
  have hundecided (message : String) :
      Clean tolerant (s.recordGap message) ↔ Clean tolerant s ∧ Passes tolerant .undecided := by
    refine iff_of_false (not_clean_recordGap _) ?_
    rintro ⟨-, h⟩
    cases tolerant <;> simp [Passes] at h
  simp only [checkProhibition, CallPermission.verdict, Invocation.entry]
  cases prohibition.sameReceiver with
  | false => exact ⟨sameFrames_violation _ _ _, hforbidden _ _⟩
  | true =>
      rw [if_pos rfl, if_pos rfl]
      cases ancestor.receiver with
      | none => exact ⟨sameFrames_recordGap _, hundecided _⟩
      | some r =>
          cases invocation.receiver with
          | none => exact ⟨sameFrames_recordGap _, hundecided _⟩
          | some r' =>
              dsimp only
              by_cases hr : r = r'
              · rw [if_neg (not_not.mpr hr), if_pos hr]
                exact ⟨sameFrames_violation _ _ _, hforbidden _ _⟩
              · rw [if_pos hr, if_neg hr]
                refine ⟨.refl s, (and_iff_left ?_).symm⟩
                cases tolerant <;> simp [Passes]

/-- Checks in a row are clean exactly if each of them is. -/
theorem foldl_check {α : Type} {check : ContractSession → α → ContractSession} {P : α → Prop}
    (hcheck : ∀ s a, SameFrames s (check s a) ∧
      (Clean tolerant (check s a) ↔ Clean tolerant s ∧ P a))
    (xs : List α) (s : ContractSession) :
    SameFrames s (xs.foldl check s) ∧
      (Clean tolerant (xs.foldl check s) ↔ Clean tolerant s ∧ ∀ a ∈ xs, P a) := by
  induction xs generalizing s with
  | nil => exact ⟨.refl s, by simp⟩
  | cons a xs ih =>
      obtain ⟨hframes, hclean⟩ := hcheck s a
      obtain ⟨hrest, hcleanRest⟩ := ih (check s a)
      rw [List.foldl_cons]
      refine ⟨hframes.trans hrest, hcleanRest.trans ?_⟩
      rw [hclean, List.forall_mem_cons, and_assoc]

theorem checkProhibitions_spec (s : ContractSession) (invocation : Invocation) :
    SameFrames s (s.checkProhibitions invocation) ∧
      (Clean tolerant (s.checkProhibitions invocation) ↔ Clean tolerant s ∧
        ∀ ancestor ∈ s.active.map Invocation.entry, ∀ contract,
          s.model.operations ancestor.operation = some contract → ∀ rule ∈ contract.prohibits,
            invocation.operation ∈ rule.targets →
              Passes tolerant (rule.verdict ancestor invocation.entry)) := by
  obtain ⟨hframes, hclean⟩ := foldl_check
    (fun s (prohibition : Invocation × CallPermission) =>
      checkProhibition_spec s invocation prohibition.1 prohibition.2)
    (s.prohibitions invocation.operation) s
  refine ⟨hframes, hclean.trans (and_congr Iff.rfl ?_)⟩
  constructor
  · intro h _ hancestor contract hcontract rule hrule htarget
    obtain ⟨ancestor, hactive, rfl⟩ := List.mem_map.mp hancestor
    refine h (ancestor, rule) (List.mem_flatMap.mpr ⟨ancestor, List.mem_reverse.mpr hactive, ?_⟩)
    rw [show s.model.operations ancestor.operation = some contract from hcontract]
    exact List.mem_map.mpr ⟨rule, List.mem_filter.mpr ⟨hrule, decide_eq_true htarget⟩, rfl⟩
  · rintro h ⟨ancestor, rule⟩ hmem
    obtain ⟨_, hactive, hrule⟩ := List.mem_flatMap.mp hmem
    split at hrule
    · cases hrule
    · rename_i contract hcontract
      obtain ⟨_, hfilter, heq⟩ := List.mem_map.mp hrule
      cases heq
      obtain ⟨hrule, htarget⟩ := List.mem_filter.mp hfilter
      exact h _ (List.mem_map_of_mem (List.mem_reverse.mp hactive)) contract hcontract rule hrule
        (of_decide_eq_true htarget)

/-- The effect of entering: a frame on top, and clean exactly if the entry is allowed. -/
theorem enterWithKind_spec (s : ContractSession) (operation : String) (receiver : Option String)
    (kind : EntryKind) :
    (s.enterWithKind operation receiver kind).2.model = s.model ∧
    (s.enterWithKind operation receiver kind).2.roots = s.roots ∧
    (s.enterWithKind operation receiver kind).2.nextId = s.nextId + 1 ∧
    (s.enterWithKind operation receiver kind).2.active =
      ⟨s.nextId, s.active.head?.map Invocation.id, operation, receiver, kind⟩ :: s.active ∧
    (Clean tolerant (s.enterWithKind operation receiver kind).2 ↔ Clean tolerant s ∧
      Passing tolerant s.model s.roots (s.active.map Invocation.entry)
        ⟨kind, operation, receiver⟩) := by
  obtain ⟨invocation, hinvocation⟩ : ∃ invocation : Invocation, invocation =
    ⟨s.nextId, s.active.head?.map Invocation.id, operation, receiver, kind⟩ := ⟨_, rfl⟩
  obtain ⟨hframes₁, hclean₁⟩ := checkKnown_spec { s with nextId := s.nextId + 1 } invocation
  obtain ⟨hframes₂, hclean₂⟩ := checkKind_spec
    (checkKnown { s with nextId := s.nextId + 1 } invocation) invocation
  obtain ⟨hframes₃, hclean₃⟩ := checkProhibitions_spec
    (checkKind (checkKnown { s with nextId := s.nextId + 1 } invocation) invocation) invocation
  have hframes := (hframes₁.trans hframes₂).trans hframes₃
  have h₂ := hframes₁.trans hframes₂
  rw [h₂.active, h₂.model, hclean₂, hclean₁, hframes₁.active, hframes₁.model, hframes₁.roots]
    at hclean₃
  subst hinvocation
  refine ⟨hframes.model, hframes.roots, hframes.nextId, congrArg _ hframes.active, ?_⟩
  refine hclean₃.trans ?_
  constructor
  · rintro ⟨⟨⟨h, hknown⟩, hrequested⟩, hunforbidden⟩
    exact ⟨h, hknown, hrequested, hunforbidden⟩
  · rintro ⟨h, hknown, hrequested, hunforbidden⟩
    exact ⟨⟨⟨h, hknown⟩, hrequested⟩, hunforbidden⟩

/-! ### What a check leaves alone -/

/-- A check records what it finds; it calls nothing and leaves nothing. -/
structure Checked (s s' : ContractSession) : Prop where
  trace : s'.trace = s.trace
  contexts : s'.coverage.validationContexts = s.coverage.validationContexts
  gaps : s.coverage.gaps <+: s'.coverage.gaps
  balanced : (∀ v ∈ s.violations, v.kind ≠ .unbalancedExit) →
    ∀ v ∈ s'.violations, v.kind ≠ .unbalancedExit

namespace Checked

variable {s s' s'' : ContractSession}

theorem refl (s : ContractSession) : Checked s s := ⟨rfl, rfl, List.prefix_rfl, id⟩

theorem trans (h : Checked s s') (h' : Checked s' s'') : Checked s s'' :=
  ⟨h'.trace.trans h.trace, h'.contexts.trans h.contexts, h.gaps.trans h'.gaps,
    fun hs => h'.balanced (h.balanced hs)⟩

theorem recordGap (s : ContractSession) (message : String) : Checked s (s.recordGap message) :=
  ⟨rfl, rfl, List.prefix_append _ _, id⟩

theorem violation {kind : ViolationKind} (hkind : kind ≠ .unbalancedExit)
    (invocation : Invocation) (message : String) (rule : Option ContractRule) :
    Checked s (s.violation kind invocation message rule) := by
  refine ⟨rfl, rfl, List.prefix_rfl, ?_⟩
  intro hs v hv
  obtain hv | hv := List.mem_append.mp hv
  · exact hs v hv
  · rw [List.mem_singleton.mp hv]
    exact hkind

theorem foldl {α : Type} {check : ContractSession → α → ContractSession}
    (hcheck : ∀ s a, Checked s (check s a)) (xs : List α) (s : ContractSession) :
    Checked s (xs.foldl check s) := by
  induction xs generalizing s with
  | nil => exact refl s
  | cons a xs ih => exact (hcheck s a).trans (ih (check s a))

end Checked

theorem checked_checkKnown (s : ContractSession) (invocation : Invocation) :
    Checked s (s.checkKnown invocation) := by
  rw [checkKnown]
  split
  · exact ⟨rfl, rfl, List.prefix_rfl, id⟩
  · exact .violation (by nofun) _ _ _

theorem checked_checkRequest (s : ContractSession) (invocation : Invocation) :
    Checked s (s.checkRequest invocation) := by
  rw [checkRequest]
  split
  · split_ifs
    · exact .refl s
    · exact .violation (by nofun) _ _ _
  · split
    · exact .refl s
    · dsimp only
      split_ifs
      · exact .refl s
      · split
        · split_ifs
          · exact .refl s
          · exact .violation (by nofun) _ _ _
        · exact .recordGap s _
      · exact .violation (by nofun) _ _ _

theorem checked_checkProhibition (s : ContractSession) (invocation ancestor : Invocation)
    (prohibition : CallPermission) :
    Checked s (s.checkProhibition invocation ancestor prohibition) := by
  rw [checkProhibition]
  split_ifs
  · split
    · split_ifs
      · exact .refl s
      · exact .violation (by nofun) _ _ _
    · exact .recordGap s _
  · exact .violation (by nofun) _ _ _

/-- Only the check of the kind counts, and it counts what is entered. -/
theorem checkKind_eq (s : ContractSession) (invocation : Invocation) :
    ∃ s', Checked s' (s.checkKind invocation) ∧ s'.trace = s.trace ∧
      s'.coverage.gaps = s.coverage.gaps ∧ s'.violations = s.violations ∧
      s'.coverage.validationContexts = s.coverage.validationContexts +
        if invocation.kind = .validation then 1 else 0 := by
  rw [checkKind]
  cases hkind : invocation.kind with
  | request => exact ⟨_, checked_checkRequest _ invocation, rfl, rfl, rfl, rfl⟩
  | validation => exact ⟨_, .refl _, rfl, rfl, rfl, rfl⟩

/-- Entering adds one call to the trace, and counts it if nothing called it. -/
theorem enterWithKind_trace (s : ContractSession) (operation : String) (receiver : Option String)
    (kind : EntryKind) :
    (s.enterWithKind operation receiver kind).2.trace = s.trace ++
      [.enter ⟨s.nextId, s.active.head?.map Invocation.id, operation, receiver, kind⟩] ∧
    (s.enterWithKind operation receiver kind).2.coverage.validationContexts =
      s.coverage.validationContexts + (if kind = .validation then 1 else 0) ∧
    s.coverage.gaps <+: (s.enterWithKind operation receiver kind).2.coverage.gaps ∧
    ((∀ v ∈ s.violations, v.kind ≠ .unbalancedExit) →
      ∀ v ∈ (s.enterWithKind operation receiver kind).2.violations,
        v.kind ≠ .unbalancedExit) := by
  obtain ⟨invocation, hinvocation⟩ : ∃ invocation : Invocation, invocation =
    ⟨s.nextId, s.active.head?.map Invocation.id, operation, receiver, kind⟩ := ⟨_, rfl⟩
  have hknown := checked_checkKnown { s with nextId := s.nextId + 1 } invocation
  obtain ⟨s', hkind, htrace, hgaps, hviolations, hcontexts⟩ :=
    checkKind_eq (checkKnown { s with nextId := s.nextId + 1 } invocation) invocation
  have hprohibitions : Checked s'
      (checkProhibitions (checkKind (checkKnown { s with nextId := s.nextId + 1 } invocation)
        invocation) invocation) :=
    hkind.trans (Checked.foldl (fun s (prohibition : Invocation × CallPermission) =>
      checked_checkProhibition s invocation prohibition.1 prohibition.2) _ _)
  subst hinvocation
  refine ⟨?_, ?_, ?_, ?_⟩
  · exact congrArg (· ++ [ContractEvent.enter _])
      (hprohibitions.trace.trans (htrace.trans hknown.trace))
  · refine hprohibitions.contexts.trans (hcontexts.trans ?_)
    rw [hknown.contexts]
  · exact hknown.gaps.trans (hgaps ▸ hprohibitions.gaps)
  · intro hs
    exact hprohibitions.balanced (hviolations ▸ hknown.balanced hs)

/-! ### Leaving -/

theorem exit_spec (s : ContractSession) (invocation : InvocationId) :
    (s.exit invocation).model = s.model ∧ (s.exit invocation).roots = s.roots ∧
    (s.exit invocation).nextId = s.nextId ∧
    ((∃ frame active, s.active = frame :: active ∧ frame.id = invocation ∧
      (s.exit invocation).active = active ∧
        (Clean tolerant (s.exit invocation) ↔ Clean tolerant s)) ∨
    ((∀ frame ∈ s.active.head?, frame.id ≠ invocation) ∧
      (s.exit invocation).active = s.active ∧ ¬Clean tolerant (s.exit invocation))) := by
  have hunbalanced (violation : ContractViolation) :
      violation.kind = .unbalancedExit →
        ¬Clean tolerant { s with violations := s.violations ++ [violation] } := by
    rintro hkind ⟨h, -⟩
    have hlast := (h violation (List.mem_append_right _ (List.mem_singleton_self _))).2
    cases hkind.symm.trans hlast
  cases hactive : s.active with
  | nil =>
      simp only [exit, hactive]
      exact ⟨trivial, trivial, trivial, .inr ⟨by simp, trivial, hunbalanced _ rfl⟩⟩
  | cons frame active =>
      simp only [exit, hactive]
      by_cases hid : frame.id = invocation
      · rw [if_pos hid]
        exact ⟨rfl, rfl, rfl, .inl ⟨frame, active, rfl, hid, rfl, Iff.rfl⟩⟩
      · rw [if_neg hid]
        exact ⟨rfl, rfl, rfl, .inr ⟨by simpa using hid, rfl, hunbalanced _ rfl⟩⟩

/-! ### Runs -/

/-- A report with nothing but what is tolerated. -/
def ReportClean (tolerant : Bool) (report : ContractReport) : Prop :=
  (∀ v ∈ report.violations, tolerant = true ∧ v.kind = .forbiddenTransitive) ∧
    report.coverage.gaps = []

theorem finish_clean (s : ContractSession) :
    ReportClean tolerant s.finish ↔ Clean tolerant s ∧ s.active = [] := by
  rw [finish]
  cases hactive : s.active with
  | nil => simp [ReportClean, Clean]
  | cons frame active =>
      refine iff_of_false ?_ (by simp)
      rintro ⟨-, hgaps⟩
      simp [recordGap] at hgaps

theorem finish_callsConform (s : ContractSession) :
    s.finish.callsConform = true ↔ ReportClean false s.finish := by
  have hconform : s.finish.callsConform =
      (s.finish.violations.isEmpty && s.finish.coverage.gaps.isEmpty) := rfl
  rw [hconform, ReportClean, Bool.and_eq_true, List.isEmpty_iff, List.isEmpty_iff,
    List.eq_nil_iff_forall_not_mem]
  simp

variable (allowed : List Entry → Entry → Prop)

/-- The calls close the open frames and make conforming trees on the way. -/
def Closes : List Invocation → InvocationId → List Call → Prop
  | [], n, calls => ∃ forest, calls = CallTree.callsAll forest n ∧
      CallTree.AllConform allowed [] forest
  | frame :: active, n, calls => ∃ forest calls',
      calls = CallTree.callsAll forest n ++ .exit frame.id :: calls' ∧
        CallTree.AllConform allowed ((frame :: active).map Invocation.entry) forest ∧
        Closes active (n + CallTree.sizeAll forest) calls'

variable {allowed}

theorem Entry.call_injective : Function.Injective Entry.call := by
  rintro ⟨kind, operation, receiver⟩ ⟨kind', operation', receiver'⟩ h
  cases kind <;> cases kind' <;> cases h <;> rfl

theorem callsAll_node (entry : Entry) (children trees : List CallTree) (n : InvocationId) :
    CallTree.callsAll (.node entry children :: trees) n =
      entry.call :: (CallTree.callsAll children (n + 1) ++ .exit n ::
        CallTree.callsAll trees (n + 1 + CallTree.sizeAll children)) := by
  have hsize : n + (CallTree.sizeAll children + 1) = n + 1 + CallTree.sizeAll children := by
    rw [Nat.add_right_comm, Nat.add_assoc]
  rw [CallTree.callsAll, CallTree.calls, CallTree.size, hsize]
  simp only [List.cons_append, List.append_assoc, List.nil_append]

/-- The calls of a forest start with an entry, so that nothing else does. -/
theorem callsAll_head {forest : List CallTree} {n : InvocationId} {call : Call}
    {calls tail : List Call} (h : call :: calls = CallTree.callsAll forest n ++ tail) :
    forest = [] ∧ tail = call :: calls ∨
      ∃ entry children trees, forest = .node entry children :: trees ∧ call = entry.call ∧
        calls = CallTree.callsAll children (n + 1) ++ .exit n ::
          (CallTree.callsAll trees (n + 1 + CallTree.sizeAll children) ++ tail) := by
  cases forest with
  | nil => exact .inl ⟨rfl, h.symm⟩
  | cons tree trees =>
      obtain ⟨entry, children⟩ := tree
      simp only [callsAll_node, List.cons_append, List.append_assoc, List.cons.injEq] at h
      exact .inr ⟨entry, children, trees, rfl, h.1, h.2⟩

/-- An open frame is closed after some trees, and what follows closes the others. -/
theorem closes_cons {frame : Invocation} {active : List Invocation} {n : InvocationId}
    {calls : List Call} (entry : Entry) (hframe : frame.entry = entry) (hid : frame.id = n) :
    Closes allowed active n (entry.call :: calls) ↔
      allowed (active.map Invocation.entry) entry ∧
        Closes allowed (frame :: active) (n + 1) calls := by
  subst hframe hid
  cases active with
  | nil =>
      constructor
      · rintro ⟨forest, hcalls, hconform⟩
        obtain ⟨-, h⟩ | ⟨entry, children, trees, rfl, hcall, htail⟩ :=
          callsAll_head (hcalls.trans (List.append_nil _).symm)
        · cases h
        · obtain rfl := Entry.call_injective hcall
          rw [CallTree.AllConform, CallTree.Conforms] at hconform
          refine ⟨hconform.1.1, children, _, htail, hconform.1.2, trees, ?_, hconform.2⟩
          rw [List.append_nil]
      · rintro ⟨hallowed, children, _, rfl, hchildren, trees, rfl, htrees⟩
        refine ⟨.node frame.entry children :: trees, ?_, ?_⟩
        · rw [callsAll_node]
        · rw [CallTree.AllConform, CallTree.Conforms]
          exact ⟨⟨hallowed, hchildren⟩, htrees⟩
  | cons top active =>
      have hsize (children trees : List CallTree) :
          frame.id + CallTree.sizeAll (.node frame.entry children :: trees) =
            frame.id + 1 + CallTree.sizeAll children + CallTree.sizeAll trees := by
        rw [CallTree.sizeAll, CallTree.size]
        simp only [Nat.add_assoc, Nat.add_left_comm]
      constructor
      · rintro ⟨forest, calls', hcalls, hconform, hclose⟩
        obtain ⟨-, h⟩ | ⟨entry, children, trees, rfl, hcall, htail⟩ := callsAll_head hcalls
        · rw [Entry.call] at h
          split at h <;> cases h
        · obtain rfl := Entry.call_injective hcall
          rw [CallTree.AllConform, CallTree.Conforms] at hconform
          rw [hsize] at hclose
          exact ⟨hconform.1.1, children, _, htail, hconform.1.2, trees, calls', rfl,
            hconform.2, hclose⟩
      · rintro ⟨hallowed, children, _, rfl, hchildren, trees, calls', rfl, htrees, hclose⟩
        refine ⟨.node frame.entry children :: trees, calls', ?_, ?_, ?_⟩
        · rw [callsAll_node, List.cons_append, List.append_assoc]
          rfl
        · rw [CallTree.AllConform, CallTree.Conforms]
          exact ⟨⟨hallowed, hchildren⟩, htrees⟩
        · rwa [hsize]

theorem closes_exit {active : List Invocation} {n id : InvocationId} {calls : List Call} :
    Closes allowed active n (.exit id :: calls) ↔
      ∃ frame rest, active = frame :: rest ∧ frame.id = id ∧ Closes allowed rest n calls := by
  have hentry (entry : Entry) : (.exit id : Call) ≠ entry.call := by
    rw [Entry.call]
    cases entry.kind <;> exact fun h => nomatch h
  cases active with
  | nil =>
      refine iff_of_false ?_ (by simp)
      rintro ⟨forest, hcalls, -⟩
      obtain ⟨-, h⟩ | ⟨entry, -, -, -, hcall, -⟩ :=
        callsAll_head (hcalls.trans (List.append_nil _).symm)
      · cases h
      · exact hentry entry hcall
  | cons frame active =>
      constructor
      · rintro ⟨forest, calls', hcalls, -, hclose⟩
        obtain ⟨rfl, h⟩ | ⟨entry, -, -, -, hcall, -⟩ := callsAll_head hcalls
        · cases h
          exact ⟨frame, active, rfl, rfl, hclose⟩
        · exact absurd hcall (hentry entry)
      · rintro ⟨_, _, heq, rfl, hclose⟩
        cases heq
        exact ⟨[], calls, rfl, by rw [CallTree.AllConform]; trivial, hclose⟩

theorem not_closes_recordGap {active : List Invocation} {n : InvocationId} {message : String}
    {calls : List Call} : ¬Closes allowed active n (.recordGap message :: calls) := by
  have hentry (entry : Entry) : (.recordGap message : Call) ≠ entry.call := by
    rw [Entry.call]
    cases entry.kind <;> exact fun h => nomatch h
  have hhead {forest : List CallTree} {tail : List Call}
      (h : .recordGap message :: calls = CallTree.callsAll forest n ++ tail) :
      tail = .recordGap message :: calls := by
    obtain ⟨-, h⟩ | ⟨entry, -, -, -, hcall, -⟩ := callsAll_head h
    · exact h
    · exact absurd hcall (hentry entry)
  cases active with
  | nil =>
      rintro ⟨forest, hcalls, -⟩
      exact absurd (hhead (hcalls.trans (List.append_nil _).symm)) (by simp)
  | cons frame active =>
      rintro ⟨forest, calls', hcalls, -⟩
      exact absurd (hhead hcalls) (by simp)

/-- The calls of a forest close nothing that was open. -/
theorem closes_callsAll : ∀ (forest : List CallTree) (active : List Invocation)
    (n : InvocationId) (tail : List Call),
    Closes allowed active n (CallTree.callsAll forest n ++ tail) ↔
      CallTree.AllConform allowed (active.map Invocation.entry) forest ∧
        Closes allowed active (n + CallTree.sizeAll forest) tail
  | [], active, n, tail => by
      rw [CallTree.callsAll, CallTree.AllConform, CallTree.sizeAll]
      exact (iff_of_eq (true_and _)).symm
  | .node entry children :: trees, active, n, tail => by
      have hsize : n + CallTree.sizeAll (.node entry children :: trees) =
          n + 1 + CallTree.sizeAll children + CallTree.sizeAll trees := by
        rw [CallTree.sizeAll, CallTree.size]
        simp only [Nat.add_assoc, Nat.add_left_comm]
      have hframe : Invocation.entry ⟨n, none, entry.operation, entry.receiver, entry.kind⟩ =
          entry := rfl
      rw [callsAll_node, List.cons_append, List.append_assoc, List.cons_append,
        closes_cons entry hframe rfl, closes_callsAll children, closes_exit,
        CallTree.AllConform, CallTree.Conforms, hsize]
      simp only [and_assoc]
      refine and_congr Iff.rfl (and_congr Iff.rfl ?_)
      constructor
      · rintro ⟨_, _, heq, -, h⟩
        cases heq
        exact (closes_callsAll trees active _ tail).mp h
      · intro h
        exact ⟨_, _, rfl, rfl, (closes_callsAll trees active _ tail).mpr h⟩

/-- The induction is on the calls: what a session accepts closes what it has open. -/
theorem run_clean (s : ContractSession) (calls : List Call) :
    ReportClean tolerant (s.run calls).finish ↔
      Clean tolerant s ∧
        Closes (Passing tolerant s.model s.roots) s.active s.nextId calls := by
  induction calls generalizing s with
  | nil =>
      rw [run, List.foldl_nil, finish_clean]
      refine and_congr Iff.rfl ?_
      cases s.active with
      | nil => exact iff_of_true rfl ⟨[], rfl, by rw [CallTree.AllConform]; trivial⟩
      | cons frame active =>
          refine iff_of_false (by simp) ?_
          rintro ⟨forest, calls', hcalls, -⟩
          exact absurd hcalls (by simp)
  | cons call calls ih =>
      have hrun : s.run (call :: calls) = (s.perform call).run calls := rfl
      rw [hrun, ih]
      have henter (kind : EntryKind) (operation : String) (receiver : Option String)
          (s' : ContractSession) (hs' : s' = (s.enterWithKind operation receiver kind).2) :
          Clean tolerant s' ∧ Closes (Passing tolerant s'.model s'.roots) s'.active s'.nextId calls ↔
            Clean tolerant s ∧ Closes (Passing tolerant s.model s.roots) s.active s.nextId
              ((⟨kind, operation, receiver⟩ : Entry).call :: calls) := by
        obtain ⟨hmodel, hroots, hnextId, hactive, hclean⟩ :=
          enterWithKind_spec s operation receiver kind
        rw [hs', hmodel, hroots, hnextId, hactive, hclean, and_assoc]
        exact and_congr Iff.rfl (closes_cons ⟨kind, operation, receiver⟩ rfl rfl).symm
      cases call with
      | enter operation receiver => exact henter .request operation receiver _ rfl
      | enterValidation operation receiver => exact henter .validation operation receiver _ rfl
      | exit id =>
          obtain ⟨hmodel, hroots, hnextId, hexit⟩ := exit_spec s id
          rw [perform, hmodel, hroots, hnextId, closes_exit]
          obtain ⟨frame, active, hactive, hid, hactive', hclean⟩ | ⟨hid, hactive, hclean⟩ := hexit
          · rw [hactive', hclean, hactive]
            refine and_congr Iff.rfl ⟨fun h => ⟨frame, active, rfl, hid, h⟩, ?_⟩
            rintro ⟨_, _, heq, -, h⟩
            cases heq
            exact h
          · refine iff_of_false (fun h => hclean h.1) ?_
            rintro ⟨-, frame, rest, heq, hframe, -⟩
            exact hid frame (by rw [heq]; rfl) hframe
      | recordGap message =>
          exact iff_of_false (fun h => not_clean_recordGap message h.1)
            fun h => not_closes_recordGap h.2

/-- A new session is clean exactly if its roots exist. -/
theorem new_clean (model : ContractModel) (roots : List String) :
    Clean tolerant (new model roots) ↔
      ∀ root ∈ roots, ∃ contract, model.operations root = some contract := by
  simp only [Clean, new, List.not_mem_nil, false_imp_iff, implies_true, List.map_eq_nil_iff,
    List.filter_eq_nil_iff, Option.isNone_iff_eq_none, Selection.mem_canonical, true_and,
    Option.ne_none_iff_exists']

theorem new_run_clean (model : ContractModel) (roots : List String) (calls : List Call) :
    ReportClean tolerant ((new model roots).run calls).finish ↔
      (∀ root ∈ roots, ∃ contract, model.operations root = some contract) ∧
        ∃ forest, calls = CallTree.callsAll forest 1 ∧
          CallTree.AllConform (Passing tolerant model roots) [] forest := by
  rw [run_clean, new_clean]
  exact and_congr Iff.rfl (exists_congr fun forest => and_congr Iff.rfl
    (CallTree.allConform_congr (passing_congr fun _ => Selection.mem_canonical (· ≤ ·)) [] forest))

/-- The calls of a forest have no other forest. -/
theorem new_run_callsAll (model : ContractModel) (roots : List String) (forest : List CallTree) :
    ReportClean tolerant ((new model roots).run (CallTree.callsAll forest 1)).finish ↔
      (∀ root ∈ roots, ∃ contract, model.operations root = some contract) ∧
        CallTree.AllConform (Passing tolerant model roots) [] forest := by
  have hcloses := @closes_callsAll (Passing tolerant model (new model roots).roots) forest [] 1 []
  rw [List.append_nil] at hcloses
  rw [run_clean, new_clean]
  refine and_congr Iff.rfl (hcloses.trans ?_)
  have hdone : Closes (Passing tolerant model (new model roots).roots) []
      (1 + CallTree.sizeAll forest) [] := ⟨[], rfl, by rw [CallTree.AllConform]; trivial⟩
  rw [and_iff_left hdone]
  exact CallTree.allConform_congr (passing_congr fun _ => Selection.mem_canonical (· ≤ ·)) [] forest

/-- The calls conform exactly if the roots exist and the calls are those of trees in which every
entry is allowed under the ones above it.  An exit with another number leaves all frames open. -/
theorem session_exact (model : ContractModel) (roots : List String) (calls : List Call) :
    (((new model roots).run calls).finish.callsConform = true ↔
      (∀ root ∈ roots, ∃ contract, model.operations root = some contract) ∧
        ∃ forest, calls = CallTree.callsAll forest 1 ∧
          CallTree.AllConform (Allowed model roots) [] forest) ∧
      ∀ (s : ContractSession) (id : InvocationId),
        (∀ frame ∈ s.active.head?, frame.id ≠ id) → (s.exit id).active = s.active := by
  constructor
  · rw [finish_callsConform, new_run_clean]
    exact and_congr Iff.rfl (exists_congr fun forest => and_congr Iff.rfl
      (CallTree.allConform_congr (fun _ _ => passing_false_iff) [] forest))
  · intro s id hid
    obtain ⟨-, -, -, ⟨frame, active, hactive, hframe, -⟩ | ⟨-, hactive, -⟩⟩ :=
      @exit_spec false s id
    · exact absurd hframe (hid frame (by rw [hactive]; rfl))
    · exact hactive

end ContractSession

end Sage.Meta
