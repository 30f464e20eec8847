import Sage.Check.Finalize

/-!
# Check — the bodies the checker builds

Checking a body allocates its nodes bottom up.  An operator call goes to an expression slot, and
the expression that stands for it only names the slot: when an obligation of the operator fails,
the slot is filled again, with an error.  Slots are therefore never cyclic, and at the end every
slot has its final contents.

* `BodyState.Built` — the states the checker reaches.
* `Built.slotted` — what a slot holds only names earlier slots.
* `finish_faithful` — the finished body reads as the checked one, resolved.
-/

namespace Sage

/-- The nodes and the slots of a body that is being checked. -/
structure BodyState where
  stash : BodyStash
  slots : List (Option ExprPtr)

namespace BodyState

def new : BodyState := ⟨[], []⟩

def allocExpr (st : BodyState) (node : TyExpr ExprPtr PatPtr) : ExprPtr × BodyState :=
  let (index, stash) := st.stash.alloc (.expr node)
  (⟨index⟩, { st with stash })

def allocPat (st : BodyState) (node : TyPat PatPtr) : PatPtr × BodyState :=
  let (index, stash) := st.stash.alloc (.pat node)
  (⟨index⟩, { st with stash })

def allocExprSlot (st : BodyState) : ExprSlot × BodyState :=
  (⟨st.slots.length⟩, { st with slots := st.slots ++ [none] })

def fillExprSlot (st : BodyState) (slot : ExprSlot) (expr : ExprPtr) : BodyState :=
  { st with slots := st.slots.set slot.index (some expr) }

/-- The call of an operator method goes to a slot of its own. -/
def checkBinary (st : BodyState) (target : ResolvedCallTarget) (receiver argument : ExprPtr)
    (resultTy : Ty) (span : RelativeSpan) : BodyState :=
  let (slot, st) := st.allocExprSlot
  let (call, st) := st.allocExpr ⟨.resolvedCall target [receiver, argument], resultTy, span⟩
  st.fillExprSlot slot call

/-- An obligation of the operator failed. -/
def recoverExprSlot (st : BodyState) (slot : ExprSlot) (error : ErrorReported)
    (span : RelativeSpan) : BodyState :=
  let (expression, st) := st.allocExpr ⟨.error error, .error error, span⟩
  st.fillExprSlot slot expression

theorem expr_allocExpr (st : BodyState) (node : TyExpr ExprPtr PatPtr) :
    (st.allocExpr node).2.stash.expr (st.allocExpr node).1 = some node :=
  BodyStash.expr_eq_some.mpr (st.stash.alloc_spec (.expr node)).2.1

/-- A handle of the stash. -/
def Has (st : BodyState) : Part ExprPtr PatPtr → Prop
  | .expr p => ∃ node, st.stash.expr p = some node
  | .pat p => ∃ node, st.stash.pat p = some node
  | .ty _ => True

/-- The checker only has the handles and the slots it was given. -/
inductive Step (st : BodyState) : BodyState → Prop
  | allocExpr (node : TyExpr ExprPtr PatPtr) (hparts : ∀ part ∈ node.parts, st.Has part)
      (hslot : ∀ slot, node.data = .unresolved slot → slot.index < st.slots.length) :
      Step st (st.allocExpr node).2
  | allocPat (node : TyPat PatPtr) (hparts : ∀ part ∈ node.parts, st.Has part) :
      Step st (st.allocPat node).2
  | checkBinary (target : ResolvedCallTarget) {receiver argument : ExprPtr}
      (hreceiver : st.Has (.expr receiver)) (hargument : st.Has (.expr argument)) (resultTy : Ty)
      (span : RelativeSpan) : Step st (st.checkBinary target receiver argument resultTy span)
  | recover {slot : ExprSlot} (hslot : slot.index < st.slots.length) (error : ErrorReported)
      (span : RelativeSpan) : Step st (st.recoverExprSlot slot error span)

inductive Built : BodyState → Prop
  | new : Built .new
  | step {st st' : BodyState} (h : Built st) (hs : Step st st') : Built st'

/-- The contents of the slots; a slot that was never filled is a panic. -/
def finish (st : BodyState) (fuel : Nat) (egraph : VersionedEGraph) (root : ExprPtr)
    (locals : List LocalVar) (span : RelativeSpan) : Option TyBody := do
  let exprSlots ← st.slots.mapM id
  finalizeTypedBody fuel st.stash egraph root exprSlots locals span

end BodyState

/-! ### What names which slots -/

/-- A part of the stash that only names slots below `k`. -/
inductive BodyStash.Within (b : BodyStash) (k : Nat) : Part ExprPtr PatPtr → Prop
  | expr {p : ExprPtr} {node : TyExpr ExprPtr PatPtr} (hp : b.expr p = some node)
      (hslot : ∀ slot, node.data = .unresolved slot → slot.index < k)
      (h : ∀ part ∈ node.parts, Within b k part) : Within b k (.expr p)
  | pat {p : PatPtr} {node : TyPat PatPtr} (hp : b.pat p = some node)
      (h : ∀ part ∈ node.parts, Within b k part) : Within b k (.pat p)
  | ty (t : Ty) : Within b k (.ty t)

namespace BodyStash

theorem Within.mono {b b' : BodyStash} {k k' : Nat} (hb : b <+: b') (hk : k ≤ k')
    {part : Part ExprPtr PatPtr} (h : b.Within k part) : b'.Within k' part := by
  induction h with
  | expr hp hslot _ ih =>
      exact .expr (expr_extend hb hp) (fun slot hs => Nat.lt_of_lt_of_le (hslot slot hs) hk) ih
  | pat hp _ ih => exact .pat (pat_extend hb hp) ih
  | ty t => exact .ty t

end BodyStash

namespace BodyState

/-- What the checker keeps: every node only names slots that exist, and the contents of a slot
only earlier ones. -/
structure Slotted (st : BodyState) : Prop where
  expr : ∀ ⦃p node⦄, st.stash.expr p = some node → st.stash.Within st.slots.length (.expr p)
  pat : ∀ ⦃p node⦄, st.stash.pat p = some node → st.stash.Within st.slots.length (.pat p)
  slots : ∀ s < st.slots.length, ∃ p, st.slots[s]? = some (some p) ∧ st.stash.Within s (.expr p)

namespace Slotted

variable {st : BodyState}

theorem within (h : st.Slotted) {part : Part ExprPtr PatPtr} (hpart : st.Has part) :
    st.stash.Within st.slots.length part := by
  cases part with
  | expr p => exact h.expr hpart.choose_spec
  | pat p => exact h.pat hpart.choose_spec
  | ty t => exact .ty t

theorem new : Slotted .new where
  expr p node h := by simp [BodyState.new, BodyStash.expr] at h
  pat p node h := by simp [BodyState.new, BodyStash.pat] at h
  slots s h := absurd h (Nat.not_lt_zero s)

/-- One more entry, whose own slots are known. -/
theorem alloc (h : st.Slotted) {entry : Entry}
    (hexpr : ∀ p node, entry = .expr node → (st.stash.alloc entry).2.expr p = some node →
      (st.stash.alloc entry).2.Within st.slots.length (.expr p))
    (hpat : ∀ p node, entry = .pat node → (st.stash.alloc entry).2.pat p = some node →
      (st.stash.alloc entry).2.Within st.slots.length (.pat p)) :
    Slotted { st with stash := (st.stash.alloc entry).2 } := by
  obtain ⟨hle, -, hnew⟩ := st.stash.alloc_spec entry
  refine ⟨fun p node hp => ?_, fun p node hp => ?_, fun s hs => ?_⟩
  · rcases hnew p.index _ (BodyStash.expr_eq_some.mp hp) with hold | ⟨-, -, heq⟩
    · exact (h.expr (BodyStash.expr_eq_some.mpr hold)).mono hle (Nat.le_refl _)
    · exact hexpr p node heq.symm hp
  · rcases hnew p.index _ (BodyStash.pat_eq_some.mp hp) with hold | ⟨-, -, heq⟩
    · exact (h.pat (BodyStash.pat_eq_some.mpr hold)).mono hle (Nat.le_refl _)
    · exact hpat p node heq.symm hp
  · obtain ⟨p, hp, hw⟩ := h.slots s hs
    exact ⟨p, hp, hw.mono hle (Nat.le_refl s)⟩

theorem allocExpr (h : st.Slotted) {node : TyExpr ExprPtr PatPtr}
    (hparts : ∀ part ∈ node.parts, st.Has part)
    (hslot : ∀ slot, node.data = .unresolved slot → slot.index < st.slots.length) :
    (st.allocExpr node).2.Slotted := by
  have hle := (st.stash.alloc_spec (.expr node)).1
  refine h.alloc (fun p node' heq hp => ?_) nofun
  cases heq
  exact .expr hp hslot fun part hpart => (h.within (hparts part hpart)).mono hle (Nat.le_refl _)

theorem allocPat (h : st.Slotted) {node : TyPat PatPtr}
    (hparts : ∀ part ∈ node.parts, st.Has part) : (st.allocPat node).2.Slotted := by
  have hle := (st.stash.alloc_spec (.pat node)).1
  refine h.alloc nofun fun p node' heq hp => ?_
  cases heq
  exact .pat hp fun part hpart => (h.within (hparts part hpart)).mono hle (Nat.le_refl _)

/-- Filling a slot with what only names earlier slots. -/
theorem fill (h : st.Slotted) {slot : ExprSlot} {p : ExprPtr}
    (hp : st.stash.Within slot.index (.expr p)) : (st.fillExprSlot slot p).Slotted := by
  have hlength : (st.fillExprSlot slot p).slots.length = st.slots.length := List.length_set
  refine ⟨fun q node hq => ?_, fun q node hq => ?_, fun s hs => ?_⟩
  · rw [hlength]
    exact h.expr hq
  · rw [hlength]
    exact h.pat hq
  · rw [hlength] at hs
    obtain ⟨q, hq, hw⟩ := h.slots s hs
    by_cases heq : slot.index = s
    · subst heq
      exact ⟨p, by simp [fillExprSlot, hs], hp⟩
    · exact ⟨q, by simp [fillExprSlot, List.getElem?_set_ne heq, hq], hw⟩

/-- A new slot that is filled at once. -/
theorem push (h : st.Slotted) {p : ExprPtr}
    (hp : st.stash.Within st.slots.length (.expr p)) :
    Slotted { st with slots := st.slots ++ [some p] } := by
  have hle : st.slots.length ≤ (st.slots ++ [some p]).length := by simp
  refine ⟨fun q node hq => (h.expr hq).mono (List.prefix_refl _) hle,
    fun q node hq => (h.pat hq).mono (List.prefix_refl _) hle, fun s hs => ?_⟩
  rcases Nat.lt_or_eq_of_le (Nat.le_of_lt_succ (by simpa using hs)) with hlt | rfl
  · obtain ⟨q, hq, hw⟩ := h.slots s hlt
    exact ⟨q, (List.getElem?_append_left hlt).trans hq, hw⟩
  · exact ⟨p, List.getElem?_concat_length, hp⟩

theorem checkBinary (h : st.Slotted) (target : ResolvedCallTarget) {receiver argument : ExprPtr}
    (hreceiver : st.Has (.expr receiver)) (hargument : st.Has (.expr argument)) (resultTy : Ty)
    (span : RelativeSpan) : (st.checkBinary target receiver argument resultTy span).Slotted := by
  have hparts : ∀ part ∈ TyExpr.parts
      ⟨.resolvedCall target [receiver, argument], resultTy, span⟩, st.Has part := by
    intro part hpart
    simp only [TyExpr.parts, TyExprData.parts, List.mem_cons, List.mem_append, List.mem_map] at hpart
    rcases hpart with rfl | ⟨t, -, rfl⟩ | ⟨e, he | he, rfl⟩
    · trivial
    · trivial
    · exact he ▸ hreceiver
    · simp only [List.not_mem_nil, or_false] at he
      exact he ▸ hargument
  have hcall := h.allocExpr hparts (by simp)
  have hpush := hcall.push (hcall.expr (st.expr_allocExpr _))
  have heq : st.checkBinary target receiver argument resultTy span =
      { (st.allocExpr ⟨.resolvedCall target [receiver, argument], resultTy, span⟩).2 with
        slots := st.slots ++ [some (st.allocExpr
          ⟨.resolvedCall target [receiver, argument], resultTy, span⟩).1] } := by
    simp [BodyState.checkBinary, allocExprSlot, fillExprSlot, BodyState.allocExpr]
  exact heq ▸ hpush

theorem recover (h : st.Slotted) (slot : ExprSlot) (error : ErrorReported) (span : RelativeSpan) :
    (st.recoverExprSlot slot error span).Slotted := by
  have hparts : ∀ part ∈ TyExpr.parts (E := ExprPtr) (P := PatPtr)
      ⟨.error error, .error error, span⟩, st.Has part := by
    intro part hpart
    rw [List.mem_singleton.mp hpart]
    trivial
  refine (h.allocExpr hparts nofun).fill (.expr (st.expr_allocExpr _) nofun fun part hpart => ?_)
  rw [List.mem_singleton.mp hpart]
  exact .ty _

end Slotted

/-- One step of the checker. -/
theorem Step.slotted {st st' : BodyState} (h : st.Slotted) (hs : Step st st') : st'.Slotted := by
  cases hs with
  | allocExpr node hparts hslot => exact h.allocExpr hparts hslot
  | allocPat node hparts => exact h.allocPat hparts
  | checkBinary target hreceiver hargument ty span =>
      exact h.checkBinary target hreceiver hargument ty span
  | recover _ error span => exact h.recover _ error span

theorem Built.slotted {st : BodyState} (h : Built st) : st.Slotted := by
  induction h with
  | new => exact .new
  | step _ hs ih => exact hs.slotted ih

/-! ### The finished body -/

/-- The final contents of the slots. -/
def exprSlots (st : BodyState) : List ExprPtr := st.slots.filterMap id

namespace Slotted

variable {st : BodyState} (h : st.Slotted)
include h

theorem slots_eq : st.slots = st.exprSlots.map some := by
  have hfilled : ∀ o ∈ st.slots, ∃ p, o = some p := by
    intro o ho
    obtain ⟨s, hs, rfl⟩ := List.getElem_of_mem ho
    obtain ⟨p, hp, -⟩ := h.slots s hs
    exact ⟨p, (List.getElem?_eq_some_iff.mp hp).2⟩
  rw [exprSlots]
  generalize st.slots = slots at hfilled
  induction slots with
  | nil => rfl
  | cons o slots ih =>
      obtain ⟨p, rfl⟩ := hfilled o List.mem_cons_self
      have ih := ih fun o ho => hfilled o (List.mem_cons_of_mem _ ho)
      exact congrArg (some p :: ·) ih

theorem length_exprSlots : st.exprSlots.length = st.slots.length := by
  conv_rhs => rw [h.slots_eq, List.length_map]

theorem mapM_slots : st.slots.mapM id = some st.exprSlots := by
  conv_lhs => rw [h.slots_eq]
  exact Relator.forall₂_iff_mapM.mp (List.forall₂_map_left_iff.mpr
    (List.forall₂_same.mpr fun _ _ => rfl))

theorem slotsExist : BodyFinalizer.SlotsExist st.stash st.exprSlots := by
  intro p node slot hp hslot
  rw [h.length_exprSlots]
  cases h.expr hp with
  | expr hp' hlt _ =>
      cases hp.symm.trans hp'
      exact hlt slot hslot

/-- What names earlier slots only is grounded: by induction on the slots it may name, and for each
of these on the part. -/
theorem grounded (egraph : VersionedEGraph) {k : Nat} (hk : k ≤ st.slots.length)
    {part : Part ExprPtr PatPtr} (hpart : st.stash.Within k part) :
    st.stash.Grounded (finalReading egraph st.exprSlots).follow part := by
  induction k using Nat.strong_induction_on generalizing part with
  | h k ih =>
      induction hpart with
      | @expr p node hp hslot _ ihparts =>
          by_cases hs : ∃ slot, node.data = .unresolved slot
          · obtain ⟨slot, hs⟩ := hs
            have hlt := hslot slot hs
            obtain ⟨q, hq, hw⟩ := h.slots slot.index (Nat.lt_of_lt_of_le hlt hk)
            rw [h.slots_eq, List.getElem?_map, Option.map_eq_some_iff] at hq
            obtain ⟨_, hq, ⟨⟩⟩ := hq
            refine .slot hp ?_ (ih slot.index hlt (Nat.le_trans (Nat.le_of_lt hlt) hk) hw)
            rw [hs]
            exact hq
          · refine .expr hp ?_ ihparts
            cases hdata : node.data with
            | unresolved slot => exact absurd ⟨slot, hdata⟩ hs
            | _ => rfl
      | pat hp _ ihparts => exact .pat hp ihparts
      | ty t => exact .ty t

end Slotted

/-- A finished body reads as the checked one, with the slots replaced by their contents, the types
by their deep resolution, and the conversions from `!` to `!` dropped; its locals are the same. -/
theorem finish_faithful {st : BodyState} (h : st.Built) {root : ExprPtr}
    {node : TyExpr ExprPtr PatPtr} (hroot : st.stash.expr root = some node)
    (egraph : VersionedEGraph)
    (hty : ∀ t, st.stash.Reaches (finalReading egraph st.exprSlots) root (.ty t) →
      ∃ n u, egraph.deepResolve .root n t = some u ∧ u.vars = [])
    (locals : List LocalVar) (span : RelativeSpan) :
    st.slots = st.exprSlots.map some ∧ ∃ tree N, ∀ n ≥ N,
      st.stash.readExpr (finalReading egraph st.exprSlots) n root = some tree ∧
      ∃ body, st.finish n egraph root locals span = some body ∧
        body.stash.tree body.root = some tree ∧ body.locals = locals ∧ body.span = span := by
  have hs := h.slotted
  have hty' : ∀ t, st.stash.Reaches (finalReading egraph st.exprSlots) root (.ty t) →
      st.stash.Reads (finalReading egraph st.exprSlots) (.ty t) := by
    intro t ht
    obtain ⟨n, u, hu, hvars⟩ := hty t ht
    exact ⟨n, u, Option.filter_eq_some_iff.mpr ⟨hu, decide_eq_true hvars⟩⟩
  obtain ⟨N, tree, htree⟩ := (hs.grounded egraph (Nat.le_refl _) (hs.expr hroot)).reads
    BodyFinalizer.stable_finalReading hty' .root
  refine ⟨hs.slots_eq, tree, N, fun n hn => ?_⟩
  have hread := BodyFinalizer.readExpr_mono_fuel hn htree
  obtain ⟨q, t, hrun, -, -, hq⟩ := BodyFinalizer.copyExpr_spec hs.slotsExist (Nat.le_refl n)
    (List.forall_mem_nil _) root tree hread .new .new
  refine ⟨hread, ⟨t.target, q, locals, span⟩, ?_, hq t (refl_of _ t), rfl, rfl⟩
  rw [finish, hs.mapM_slots, Option.bind_eq_bind, Option.bind_some, finalizeTypedBody, hrun]
  rfl

namespace Operator

def span : RelativeSpan := ⟨0, 0⟩

/-- An operand, the call of an operator method on it twice, and the expression for its slot, whose
own type is never resolved. -/
def operands : BodyState := (BodyState.new.allocExpr ⟨.missing, .bool, span⟩).2

def call : BodyState := operands.checkBinary ⟨⟨0⟩, .direct, [], []⟩ ⟨0⟩ ⟨0⟩ .bool span

def body : BodyState := (call.allocExpr ⟨.unresolved ⟨0⟩, .inferVar 0, span⟩).2

theorem built : body.Built := by
  have hoperands : operands.Built := .step .new (.allocExpr _ (by simp [TyExpr.parts,
    TyExprData.parts, Has]) nofun)
  have hcall : call.Built := .step hoperands (.checkBinary _ ⟨_, rfl⟩ ⟨_, rfl⟩ _ _)
  exact .step hcall (.allocExpr _ (by simp [TyExpr.parts, TyExprData.parts, Has]) fun slot h => by
    cases h
    decide)

theorem reaches {part : Part ExprPtr PatPtr}
    (h : body.stash.Reaches (finalReading .new body.exprSlots) ⟨2⟩ part) :
    part = .expr ⟨2⟩ ∨ part = .expr ⟨1⟩ ∨ part = .expr ⟨0⟩ ∨ part = .ty .bool := by
  have h₀ : body.stash.expr ⟨0⟩ = some ⟨.missing, .bool, span⟩ := rfl
  have h₁ : body.stash.expr ⟨1⟩ = some
      ⟨.resolvedCall ⟨⟨0⟩, .direct, [], []⟩ [⟨0⟩, ⟨0⟩], .bool, span⟩ := rfl
  have h₂ : body.stash.expr ⟨2⟩ = some ⟨.unresolved ⟨0⟩, .inferVar 0, span⟩ := rfl
  induction h with
  | root => exact .inl rfl
  | expr _ hp hf hpart ih =>
      rcases ih with h | h | h | h
      · cases h; cases h₂.symm.trans hp; cases hf
      · cases h; cases h₁.symm.trans hp
        simpa [TyExpr.parts, TyExprData.parts, ResolvedCallTarget.types, CallDispatch.types,
          or_comm] using Or.inr (Or.inr hpart)
      · cases h; cases h₀.symm.trans hp
        exact .inr (.inr (.inr (List.mem_singleton.mp hpart)))
      · cases h
  | slot _ hp hf ih =>
      rcases ih with h | h | h | h
      · cases h; cases h₂.symm.trans hp; cases hf
        exact .inr (.inl rfl)
      · cases h; cases h₁.symm.trans hp; cases hf
      · cases h; cases h₀.symm.trans hp; cases hf
      · cases h
  | pat _ _ _ ih => rcases ih with h | h | h | h <;> cases h

end Operator

theorem finish_faithful_operator :
    Operator.body.slots = Operator.body.exprSlots.map some ∧ ∃ tree N, ∀ n ≥ N,
      Operator.body.stash.readExpr (finalReading .new Operator.body.exprSlots) n ⟨2⟩ = some tree ∧
      ∃ body, Operator.body.finish n .new ⟨2⟩ [] Operator.span = some body ∧
        body.stash.tree body.root = some tree ∧ body.locals = [] ∧ body.span = Operator.span := by
  refine finish_faithful Operator.built rfl .new (fun t ht => ?_) [] Operator.span
  rcases Operator.reaches ht with h | h | h | h
  · cases h
  · cases h
  · cases h
  · cases h
    exact ⟨1, .bool, rfl, rfl⟩

end BodyState

end Sage
