import Mathlib.Data.Prod.Lex
import Sage.Check.Sized
import Sage.Modules.Walk
import Sage.Solve.Boundary
import Sage.Solve.Elaborate
import Sage.Solve.Heads

/-!
# Solve — candidates

`assemble_candidates` of `check/solve/clauses.rs` with the impls it asks for: those of the local
crate, unless the orphan rule excludes them all, and those of the provider whose self type may have
the head of the goal's.

* `Provider`, `relevantTraitImpls`, `externalRelevantImpls`.
* `Program`, `localImplIsOrphanImpossible`, `assembleCandidates`.
* `Rules` — what is assumed of the crates; `Equal` — an instance of a header is one of the goal.
* `pruned_impossible` — an impl that a complete search leaves out has no such instance.
-/

namespace Sage.Candidates

open Relation (ReflTransGen)
open Resolve (SymExt DefId DefKind Metadata)
open Check (SizedCertainty Definitions sizedCertainty metaSizedCertainty)
open Modules (Crate ImplFact)

/-! ### The provider -/

/-- The language items that matter here. -/
inductive LangItem where
  | add
  | sub
  | mul
  | div
  | rem
  | bitXor
  | bitAnd
  | bitOr
  | shl
  | shr
  | partialEq
  | partialOrd
  | other
deriving DecidableEq

/-- The self type of an impl and the type arguments of its trait. -/
structure Header where
  selfTy : RustTy
  args : List RustTy

/-- What is asked of rustc. -/
structure Provider where
  metadata : Metadata
  allImpls : DefId → List DefId
  header : DefId → Header
  isFundamental : DefId → Bool
  traitIsAuto : DefId → Bool
  langItem : DefId → Option LangItem
  iteratorTrait : Option DefId

structure RelevantImpls where
  impls : List SymExt
  complete : Bool

/-- `Vec::dedup`: an element that equals the one before it goes. -/
def dedup {α : Type} [DecidableEq α] : List α → List α
  | [] => []
  | [a] => [a]
  | a :: b :: as => if a = b then dedup (b :: as) else a :: dedup (b :: as)

namespace Provider

variable (P : Provider)

/-- An impl without a head may have any self type. -/
def headAdmits (selfHead : Option RawSelfTypeHead) (d : DefId) : Bool :=
  match selfHead with
  | none => true
  | some queryHead =>
      !(simplifySelfTypeHead P.metadata (P.header d).selfTy).any (· ≠ queryHead)

def implKey (e : SymExt) : Nat ×ₗ Nat := toLex (e.crateNum, e.defIndex)

/-- Whether no compiler-built impl of a trait can apply. -/
def explicitImplsAreExhaustive (traitDef : DefId) (selfHead : Option RawSelfTypeHead) : Bool :=
  let rigidHeadExcludesIteratorBuiltin :=
    (match selfHead with
      | some (.adt _) | some .localAdt => true
      | _ => false) && P.iteratorTrait = some traitDef
  let operatorImplsAreExplicit :=
    match P.langItem traitDef with
    | none | some .other => false
    | some _ => true
  !P.traitIsAuto traitDef &&
    ((P.langItem traitDef).isNone || rigidHeadExcludesIteratorBuiltin || operatorImplsAreExplicit)

def relevantTraitImpls (traitDef : DefId) (selfHead : Option RawSelfTypeHead) :
    Option RelevantImpls :=
  match P.metadata.defKind traitDef with
  | .trait =>
      let impls := ((P.allImpls traitDef).filter fun d =>
        d.krate ≠ localCrate && P.headAdmits selfHead d).map fun d => ⟨d.krate, d.index, .impl⟩
      some ⟨dedup (impls.mergeSort fun a b => implKey a ≤ implKey b),
        P.explicitImplsAreExhaustive traitDef selfHead⟩
  | _ => none

def externalRelevantImpls (traitSym : SymExt) (selfHead : Option SimplifiedSelfType) :
    RelevantImpls :=
  match P.relevantTraitImpls traitSym.defId (selfHead.map SimplifiedSelfType.intoRaw) with
  | none => ⟨[], false⟩
  | some raw =>
      ⟨raw.impls.filter (·.kind = .impl), raw.complete && raw.impls.all (·.kind = .impl)⟩

def adtIsFundamental (e : SymExt) : Option Bool :=
  match P.metadata.defKind e.defId with
  | .struct | .enum | .union => some (P.isFundamental e.defId)
  | _ => none

end Provider

/-! ### The program -/

inductive TraitSemantics where
  | ordinary
  | sized
  | metaSized

structure TraitSignatureData where
  solverEligibility : SolverEligibility
  semantics : TraitSemantics

structure ImplSignature where
  traitRef : Option TraitRef
  solverEligibility : SolverEligibility

/-- An impl of the local crate: whether it names a trait, the trait its path resolves to, the
signature that is lowered, and the header that rustc would read. -/
structure LocalImpl where
  hasTraitPath : Bool
  traitSymbol : Option TraitSymbol
  signature : ImplSignature
  header : Header

structure Program where
  provider : Provider
  names : Names provider.metadata
  traitExt : Nat → SymExt
  traitSig : TraitSymbol → Option TraitSignatureData
  definitions : Definitions
  externalImplSignature : SymExt → Option ImplSignature
  crate : Crate
  localImpl : Nat → LocalImpl
  completeForTrait : TraitSymbol → Modules.LocalModSym → Nat → Bool

inductive Candidate where
  | environment (head : WherePredicate) (body : Option (List Goal))
  | localImpl (id : Nat)
  | externalImpl (definition : SymExt)

def LocalImpl.fact (target : TraitSymbol) (i : LocalImpl) : ImplFact :=
  match i.traitSymbol with
  | some traitSymbol =>
      if traitSymbol = target then
        match i.signature.traitRef with
        | some traitRef => if traitRef.traitSym = target then .candidate else .unknown
        | none => .unknown
      else .otherTrait
  | none => if i.hasTraitPath then .unknown else .otherTrait

def matchingTraitRef (left right : TraitRef) : Bool :=
  left.traitSym = right.traitSym && left.args.length = right.args.length

/-- The assumptions about the trait of the goal. -/
def environmentCandidates (environment : List Assumption) (traitRef : TraitRef) :
    List Candidate :=
  environment.filterMap fun assumption =>
    match assumption with
    | .traitImpl selfTy assumptionRef =>
        if matchingTraitRef assumptionRef traitRef then
          some (.environment ⟨selfTy, assumptionRef⟩ none)
        else none
    | .implies conditions consequence =>
        if matchingTraitRef consequence.traitRef traitRef then
          some (.environment consequence (some conditions))
        else none
    | .all _ | .normalizesTo _ _ => none

/-- Candidates, and whether there may be others. -/
abbrev Found := List Candidate × Bool

def isInferVar : Ty → Bool
  | .inferVar _ => true
  | _ => false

def orphanRuleExcludesLocalImpl (traitIsExternal traitArgumentsAreEmpty : Bool)
    (selfIsFundamental : Option Bool) : Bool :=
  traitIsExternal && traitArgumentsAreEmpty && selfIsFundamental = some false

namespace Program

variable (P : Program)

/-- The crate, when the impls of one trait are asked for. -/
def crateFor (target : TraitSymbol) : Crate :=
  { P.crate with
    implFact := fun id => (P.localImpl id).fact target
    completeForTrait := P.completeForTrait target }

def localImplIsOrphanImpossible (selfTy : Ty) (traitRef : TraitRef) : Option Bool :=
  match traitRef.traitSym, traitRef.args, selfTy with
  | .ext _, [], .adt sym _ => do
      match ← externalAdt (P.names.symbol sym) with
      | none => return false
      | some external =>
          return orphanRuleExcludesLocalImpl true true (P.provider.adtIsFundamental external)
  | _, _, _ => some false

def localImplEligible (id : Nat) : Bool :=
  (P.localImpl id).signature.solverEligibility = .eligible

def externalImplEligible (target : TraitSymbol) (e : SymExt) : Bool :=
  match P.externalImplSignature e with
  | none => false
  | some signature =>
      signature.solverEligibility = .eligible &&
        signature.traitRef.any (·.traitSym = target)

/-- The eligible impls are candidates, and another one makes the search incomplete. -/
def eligibleCandidates {ι : Type} (candidate : ι → Candidate) (eligible : ι → Bool)
    (impls : List ι) (complete : Bool) : Found :=
  ((impls.filter eligible).map candidate, !complete || impls.any fun i => !eligible i)

def localCandidates (depth : Nat) (selfRoot : Ty) (traitRef : TraitRef) : Option Found := do
  if ← P.localImplIsOrphanImpossible selfRoot traitRef then return ([], false)
  else
    let C := P.crateFor traitRef.traitSym
    let source ← C.localImplCandidates depth C.rootMod ⟨[], true⟩
    return eligibleCandidates .localImpl P.localImplEligible source.impls source.complete

def externalCandidates (selfRoot : Ty) (traitRef : TraitRef) : Option Found :=
  match traitRef.traitSym with
  | .loc _ => some ([], false)
  | .ext id => do
      let selfHead ← simplifySelfType P.names selfRoot
      let source := P.provider.externalRelevantImpls (P.traitExt id) selfHead
      return eligibleCandidates .externalImpl (P.externalImplEligible traitRef.traitSym)
        source.impls source.complete

def builtinCandidates (certainty : Option SizedCertainty) (predicate : WherePredicate) :
    Option Found := do
  match ← certainty with
  | .yes => return ([.environment predicate none], false)
  | .no => return ([], false)
  | .maybe => return ([], true)

def implCandidates (depth : Nat) (selfRoot : Ty) (traitRef : TraitRef) : Option Found := do
  let (locals, localIncomplete) ← P.localCandidates depth selfRoot traitRef
  let (externals, externalIncomplete) ← P.externalCandidates selfRoot traitRef
  return (locals ++ externals, localIncomplete || externalIncomplete)

/-- The candidates that are not in the environment. -/
def sourceCandidates (depth : Nat) (selfTy selfRoot : Ty) (traitRef : TraitRef) : Option Found :=
  if isInferVar selfRoot then some ([], true)
  else
    match P.traitSig traitRef.traitSym with
    | none => some ([], true)
    | some target =>
        if target.solverEligibility ≠ .eligible then some ([], true)
        else
          match target.semantics with
          | .ordinary => P.implCandidates depth selfRoot traitRef
          | .sized =>
              builtinCandidates (sizedCertainty P.definitions selfRoot) ⟨selfTy, traitRef⟩
          | .metaSized =>
              builtinCandidates (metaSizedCertainty P.definitions selfRoot) ⟨selfTy, traitRef⟩

/-- The candidates for a goal, and whether the search is incomplete; `depth` is fuel for the walk
of the module tree. -/
def assembleCandidates (depth : Nat) (state : QueryProofState) (version : Version)
    (environment : List Assumption) : Atom → Option Found
  | .equals _ _ => some ([], false)
  | .traitImpl selfTy traitRef => do
      let selfRoot := state.egraph.find version selfTy
      let (sources, incomplete) ← P.sourceCandidates depth selfTy selfRoot traitRef
      return (environmentCandidates environment traitRef ++ sources,
        !state.assumptionsComplete || incomplete)

/-! ### What is assumed of the crates -/

/-- The types that count as local for the orphan rule. -/
inductive IsLocal (Q : Provider) (otherIsLocal : Option OtherKind → Nat → Prop) : Ground → Prop
  | adt {d args} (h : d.krate = localCrate) : IsLocal Q otherIsLocal (.mk (.adt d) args)
  | fundamental {d a args} (h : Q.isFundamental d = true) (ha : IsLocal Q otherIsLocal a) :
      IsLocal Q otherIsLocal (.mk (.adt d) (a :: args))
  | ref {m a} (ha : IsLocal Q otherIsLocal a) : IsLocal Q otherIsLocal (.mk (.ref m) [a])
  | other {kind id args} (h : otherIsLocal kind id) :
      IsLocal Q otherIsLocal (.mk (.other kind id) args)

/-- An impl of the trait in the crate, written or expanded. -/
def LocalImplOf (target : TraitSymbol) (id : Nat) : Prop :=
  (∃ N active, ReflTransGen (fun M N => N ∈ (P.crateFor target).children M) P.crate.rootMod N ∧
    .impl id active ∈ (P.crateFor target).expandedItems N) ∧
  (P.localImpl id).traitSymbol = some target

/-- Rust's rules for impls; `normalize` is what the projections in headers stand for. -/
structure Rules (normalize : DefId → List Ground → Ground)
    (otherIsLocal : Option OtherKind → Nat → Prop) : Prop where
  /-- An impl of another crate's trait has a local type in its header, whatever its parameters. -/
  orphan : ∀ {t id}, P.LocalImplOf (.ext t) id →
    ∃ ty ∈ (P.localImpl id).header.selfTy :: (P.localImpl id).header.args,
      ∀ param, IsLocal P.provider otherIsLocal (ty.ground param normalize)
  /-- Another crate does not name the types of this one. -/
  upstream : ∀ {t d}, d ∈ P.provider.allImpls t → d.krate ≠ localCrate → ∀ e args,
    (P.provider.header d).selfTy = .adt e args → e.krate ≠ localCrate
  /-- There are no impls of `Sized` and `MetaSized`. -/
  builtin : ∀ {t data}, P.traitSig t = some data → data.semantics ≠ .ordinary →
    (∀ id, ¬P.LocalImplOf t id) ∧
      ∀ i, t = .ext i → ∀ d ∈ P.provider.allImpls (P.traitExt i).defId, d.krate = localCrate

/-- An instance of a header that equals an instance of a goal; variables that the state has
unified are instantiated alike. -/
def Equal (state : QueryProofState) (version : Version) (normalize : DefId → List Ground → Ground)
    (selfTy : Ty) (args : List Ty) (header : Header) : Prop :=
  ∃ (I : Instance) (param : Nat → Ground),
    (∀ ty, ground P.names I (state.egraph.find version ty) = ground P.names I ty) ∧
    ground P.names I selfTy = header.selfTy.ground param normalize ∧
    args.map (ground P.names I) = header.args.map (RustTy.ground param normalize)

end Program

/-! ### Lists of impls -/

theorem mem_dedup {α : Type} [DecidableEq α] {a : α} : ∀ {as : List α}, a ∈ as → a ∈ dedup as
  | [_], h => h
  | b :: c :: as, h => by
      by_cases hbc : b = c
      · rw [dedup, if_pos hbc]
        refine mem_dedup ?_
        rcases List.mem_cons.mp h with rfl | h
        · exact List.mem_cons.mpr (.inl hbc)
        · exact h
      · rw [dedup, if_neg hbc]
        rcases List.mem_cons.mp h with rfl | h
        · exact List.mem_cons_self
        · exact List.mem_cons_of_mem _ (mem_dedup h)

theorem eligibleCandidates_complete {ι : Type} {candidate : ι → Candidate} {eligible : ι → Bool}
    {impls : List ι} {complete : Bool} {found : List Candidate}
    (h : Program.eligibleCandidates candidate eligible impls complete = (found, false)) :
    complete = true ∧ ∀ i ∈ impls, candidate i ∈ found := by
  obtain ⟨rfl, hcomplete⟩ := Prod.mk.inj h
  rw [Bool.or_eq_false_iff, Bool.not_eq_false', List.any_eq_false] at hcomplete
  obtain ⟨hcomplete, heligible⟩ := hcomplete
  refine ⟨hcomplete, fun i hi => List.mem_map_of_mem (List.mem_filter.mpr ⟨hi, ?_⟩)⟩
  simpa using heligible i hi

/-- Every impl of another crate whose head is admitted is relevant. -/
theorem mem_externalRelevantImpls {P : Provider} {traitSym : SymExt}
    {selfHead : Option SimplifiedSelfType}
    (hcomplete : (P.externalRelevantImpls traitSym selfHead).complete = true) {d : DefId}
    (hd : d ∈ P.allImpls traitSym.defId) (hkrate : d.krate ≠ localCrate)
    (hhead : P.headAdmits (selfHead.map SimplifiedSelfType.intoRaw) d = true) :
    ⟨d.krate, d.index, .impl⟩ ∈ (P.externalRelevantImpls traitSym selfHead).impls := by
  unfold Provider.externalRelevantImpls at hcomplete ⊢
  cases hraw : P.relevantTraitImpls traitSym.defId (selfHead.map SimplifiedSelfType.intoRaw) with
  | none =>
      rw [hraw] at hcomplete
      cases hcomplete
  | some raw =>
      refine List.mem_filter.mpr ⟨?_, by simp⟩
      unfold Provider.relevantTraitImpls at hraw
      split at hraw
      · cases hraw
        refine mem_dedup (List.mem_mergeSort.mpr (List.mem_map_of_mem (List.mem_filter.mpr ?_)))
        exact ⟨hd, by simp [hkrate, hhead]⟩
      · cases hraw

namespace Program

variable {P : Program} {depth : Nat} {selfTy selfRoot : Ty} {traitRef : TraitRef}
  {found : List Candidate} {state : QueryProofState} {version : Version}
  {normalize : DefId → List Ground → Ground} {otherIsLocal : Option OtherKind → Nat → Prop}

/-! ### Local impls -/

/-- The orphan rule is applied to structs and enums of other crates that are not fundamental. -/
theorem localImplIsOrphanImpossible_eq (h : P.localImplIsOrphanImpossible selfRoot traitRef =
      some true) :
    traitRef.args = [] ∧ (∃ t, traitRef.traitSym = .ext t) ∧ ∃ sym args, selfRoot = .adt sym args ∧
      (P.names.defId sym).krate ≠ localCrate ∧
      P.provider.isFundamental (P.names.defId sym) = false := by
  obtain ⟨traitSym, args⟩ := traitRef
  unfold localImplIsOrphanImpossible at h
  split at h
  · rename_i t sym symArgs htrait hargs
    refine ⟨hargs, ⟨t, htrait⟩, sym, symArgs, rfl, ?_⟩
    obtain ⟨external, hexternal, h⟩ := Option.bind_eq_some_iff.mp h
    cases external with
    | none => cases h
    | some external =>
        obtain ⟨data, hdata, hexternal⟩ := Option.bind_eq_some_iff.mp hexternal
        have hdefinition := (symbolData_krate hdata).1 external
        have hadt : data = .structSymbol (.ext external) ∨ data = .enumSymbol (.ext external) := by
          cases data with
          | structSymbol sym' | enumSymbol sym' => cases sym' <;> simp_all
          | other => cases hexternal
        obtain ⟨rfl, hkrate⟩ := hdefinition hadt
        refine ⟨hkrate, ?_⟩
        have hfundamental : P.provider.adtIsFundamental
            (P.provider.metadata.symExt (P.names.defId sym)) = some false := by
          simpa [orphanRuleExcludesLocalImpl] using h
        unfold Provider.adtIsFundamental at hfundamental
        split at hfundamental
        · exact Option.some.inj hfundamental
        · exact Option.some.inj hfundamental
        · exact Option.some.inj hfundamental
        · cases hfundamental
  · cases h

theorem not_isLocal {d : DefId} {args : List Ground} (hkrate : d.krate ≠ localCrate)
    (hfundamental : P.provider.isFundamental d = false) :
    ¬IsLocal P.provider otherIsLocal (.mk (.adt d) args) := by
  intro h
  cases h with
  | adt hd => exact hkrate hd
  | fundamental hd _ =>
      rw [hfundamental] at hd
      cases hd

/-- The walk of a complete crate leaves no impl of the trait out. -/
theorem mem_localImplCandidates {target : TraitSymbol} {id : Nat}
    {source : Crate.LocalImplCandidates}
    (hrun : (P.crateFor target).localImplCandidates depth (P.crateFor target).rootMod ⟨[], true⟩ =
      some source)
    (hcomplete : source.complete = true) (himpl : P.LocalImplOf target id) :
    id ∈ source.impls := by
  obtain ⟨⟨N, active, hN, hid⟩, htrait⟩ := himpl
  have hcovered := (Crate.localImplCandidates_covers hrun).2 hcomplete N hN id active hid
  refine hcovered.resolve_left fun hother => ?_
  have hfact : (P.localImpl id).fact target = .otherTrait := hother
  unfold LocalImpl.fact at hfact
  rw [htrait] at hfact
  dsimp only at hfact
  rw [if_pos rfl] at hfact
  split at hfact
  · split at hfact <;> cases hfact
  · cases hfact

theorem orphan_of_not_mem {id : Nat}
    (hrun : P.localCandidates depth selfRoot traitRef = some (found, false))
    (himpl : P.LocalImplOf traitRef.traitSym id) (hid : .localImpl id ∉ found) :
    P.localImplIsOrphanImpossible selfRoot traitRef = some true := by
  obtain ⟨impossible, himpossible, hrun⟩ := Option.bind_eq_some_iff.mp hrun
  cases impossible with
  | true => exact himpossible
  | false =>
      obtain ⟨source, hsource, hrun⟩ := Option.bind_eq_some_iff.mp hrun
      obtain ⟨hcomplete, hall⟩ := eligibleCandidates_complete (Option.some.inj hrun)
      exact absurd (hall id (mem_localImplCandidates hsource hcomplete himpl)) hid

theorem not_equal_of_orphan {id : Nat} (hrules : P.Rules normalize otherIsLocal)
    (himpl : P.LocalImplOf traitRef.traitSym id)
    (horphan : P.localImplIsOrphanImpossible (state.egraph.find version selfTy) traitRef =
      some true) :
    ¬P.Equal state version normalize selfTy traitRef.args (P.localImpl id).header := by
  rintro ⟨I, param, hfind, hself, hargs⟩
  obtain ⟨hempty, ⟨t, htrait⟩, sym, args, hroot, hkrate, hfundamental⟩ :=
    localImplIsOrphanImpossible_eq horphan
  rw [htrait] at himpl
  obtain ⟨ty, hty, hlocal⟩ := hrules.orphan himpl
  -- The trait has no type arguments, so the local type is the self type.
  have hnone : (P.localImpl id).header.args = [] := by
    rw [hempty] at hargs
    exact List.map_eq_nil_iff.mp hargs.symm
  rw [hnone, List.mem_singleton] at hty
  have hground := hlocal param
  rw [hty, ← hself, ← hfind, hroot, ground] at hground
  exact not_isLocal hkrate hfundamental hground

/-! ### Impls of other crates -/

theorem headAdmits_of_not_mem {t : Nat} {d : DefId}
    (hrun : P.externalCandidates selfRoot traitRef = some (found, false))
    (htrait : traitRef.traitSym = .ext t) (hd : d ∈ P.provider.allImpls (P.traitExt t).defId)
    (hkrate : d.krate ≠ localCrate)
    (hmem : .externalImpl ⟨d.krate, d.index, .impl⟩ ∉ found) :
    ∃ s head, simplifySelfType P.names selfRoot = some (some s) ∧
      simplifySelfTypeHead P.provider.metadata (P.provider.header d).selfTy = some head ∧
      head ≠ s.intoRaw := by
  unfold externalCandidates at hrun
  rw [htrait] at hrun
  obtain ⟨selfHead, hself, hrun⟩ := Option.bind_eq_some_iff.mp hrun
  obtain ⟨hcomplete, hall⟩ := eligibleCandidates_complete (Option.some.inj hrun)
  have hhead : P.provider.headAdmits (selfHead.map SimplifiedSelfType.intoRaw) d ≠ true :=
    fun hadmits => hmem (hall _ (mem_externalRelevantImpls hcomplete hd hkrate hadmits))
  cases selfHead with
  | none => exact absurd rfl hhead
  | some s =>
      unfold Provider.headAdmits at hhead
      simp only [Option.map_some] at hhead
      cases hsimplified : simplifySelfTypeHead P.provider.metadata
          (P.provider.header d).selfTy with
      | none => simp [hsimplified] at hhead
      | some head => exact ⟨s, head, hself, rfl, by simpa [hsimplified] using hhead⟩

theorem not_equal_of_heads {header : Header} {s : SimplifiedSelfType} {head : RawSelfTypeHead}
    {args : List Ty}
    (hself : simplifySelfType P.names (state.egraph.find version selfTy) = some (some s))
    (hhead : simplifySelfTypeHead P.provider.metadata header.selfTy = some head)
    (hupstream : ∀ e args, header.selfTy = .adt e args → e.krate ≠ localCrate)
    (hne : head ≠ s.intoRaw) : ¬P.Equal state version normalize selfTy args header := by
  rintro ⟨I, param, hfind, hground, -⟩
  have hgoal := @simplifySelfType_sound _ P.names I _ _ hself
  have hheader := @simplifySelfTypeHead_sound _ param normalize _ _ hhead hupstream
  rw [hfind, hground, hheader] at hgoal
  exact hne (Option.some.inj hgoal)

/-! ### Complete searches -/

/-- A complete search asked both sources, unless the trait has no impls. -/
theorem sourceCandidates_complete
    (hrun : P.sourceCandidates depth selfTy selfRoot traitRef = some (found, false)) :
    (∃ data, P.traitSig traitRef.traitSym = some data ∧ data.semantics ≠ .ordinary) ∨
      ∃ locals externals, found = locals ++ externals ∧
        P.localCandidates depth selfRoot traitRef = some (locals, false) ∧
        P.externalCandidates selfRoot traitRef = some (externals, false) := by
  unfold sourceCandidates at hrun
  split at hrun
  · cases hrun
  split at hrun
  · cases hrun
  rename_i target htarget
  split at hrun
  · cases hrun
  split at hrun
  · right
    obtain ⟨⟨locals, localIncomplete⟩, hlocals, hrun⟩ := Option.bind_eq_some_iff.mp hrun
    obtain ⟨⟨externals, externalIncomplete⟩, hexternals, hrun⟩ := Option.bind_eq_some_iff.mp hrun
    obtain ⟨rfl, hincomplete⟩ := Prod.mk.inj (Option.some.inj hrun)
    obtain ⟨rfl, rfl⟩ := Bool.or_eq_false_iff.mp hincomplete
    exact ⟨locals, externals, rfl, hlocals, hexternals⟩
  · rename_i hsemantics
    exact .inl ⟨target, htarget, by simp [hsemantics]⟩
  · rename_i hsemantics
    exact .inl ⟨target, htarget, by simp [hsemantics]⟩

/-- However the variables of a goal and the parameters of an impl are instantiated, and whatever
projections stand for, an impl that a complete search leaves out does not apply to the goal. -/
theorem pruned_impossible {environment : List Assumption} {candidates : List Candidate}
    (hrules : P.Rules normalize otherIsLocal)
    (hrun : P.assembleCandidates depth state version environment (.traitImpl selfTy traitRef) =
      some (candidates, false)) :
    (∀ id, P.LocalImplOf traitRef.traitSym id → .localImpl id ∉ candidates →
      ¬P.Equal state version normalize selfTy traitRef.args (P.localImpl id).header) ∧
    ∀ t, traitRef.traitSym = .ext t → ∀ d ∈ P.provider.allImpls (P.traitExt t).defId,
      d.krate ≠ localCrate → .externalImpl ⟨d.krate, d.index, .impl⟩ ∉ candidates →
      ¬P.Equal state version normalize selfTy traitRef.args (P.provider.header d) := by
  obtain ⟨⟨sources, incomplete⟩, hsources, hrun⟩ := Option.bind_eq_some_iff.mp hrun
  obtain ⟨rfl, hincomplete⟩ := Prod.mk.inj (Option.some.inj hrun)
  obtain ⟨-, rfl⟩ := Bool.or_eq_false_iff.mp hincomplete
  rcases sourceCandidates_complete hsources with ⟨data, hsig, hsemantics⟩ | hboth
  · obtain ⟨hlocal, hupstream⟩ := hrules.builtin hsig hsemantics
    exact ⟨fun id himpl => absurd himpl (hlocal id),
      fun t htrait d hd hkrate => absurd (hupstream t htrait d hd) hkrate⟩
  · obtain ⟨locals, externals, rfl, hlocals, hexternals⟩ := hboth
    refine ⟨fun id himpl hmem => ?_, fun t htrait d hd hkrate hmem => ?_⟩
    · have hlocal : .localImpl id ∉ locals := fun h => hmem (by simp [h])
      exact not_equal_of_orphan hrules himpl (orphan_of_not_mem hlocals himpl hlocal)
    · have hexternal : .externalImpl ⟨d.krate, d.index, .impl⟩ ∉ externals :=
        fun h => hmem (by simp [h])
      obtain ⟨s, head, hself, hhead, hne⟩ :=
        headAdmits_of_not_mem hexternals htrait hd hkrate hexternal
      exact not_equal_of_heads hself hhead (hrules.upstream hd hkrate) hne

end Program

/-! A trait of another crate with an impl for `bool` there, and the goal that a struct of that crate
implements it. -/

def demoMetadata : Metadata where
  children _ := []
  defKind d := if d.index = 0 then .trait else if d.index = 1 then .struct else .impl
  itemName _ := none
  externCrate _ := none
  enumChildren := by simp

def demoProvider : Provider where
  metadata := demoMetadata
  allImpls d := if d = ⟨1, 0⟩ then [⟨1, 2⟩] else []
  header _ := ⟨.bool, []⟩
  isFundamental _ := false
  traitIsAuto _ := false
  langItem _ := none
  iteratorTrait := none

def demoProgram : Program where
  provider := demoProvider
  names :=
    { symbol := fun _ => .ext (demoMetadata.symExt ⟨1, 1⟩)
      defId := fun _ => ⟨1, 1⟩
      ext_eq := fun h => (Resolve.Symbol.ext.inj h).symm
      ext_krate := fun _ => by simp [localCrate]
      local_krate := nofun }
  traitExt _ := ⟨1, 0, .trait⟩
  traitSig _ := some ⟨.eligible, .ordinary⟩
  definitions := ⟨fun _ => .other, [], nofun⟩
  externalImplSignature _ := none
  crate :=
    { sources := [("lib.rs".toList, [])]
      root := "lib.rs".toList
      rootNodes := []
      lookup_root := rfl
      macroOutput := fun _ _ => none
      derivedImpls := fun _ _ => []
      implFact := fun _ => .unknown
      completeForTrait := fun _ _ => true
      deriveComplete := fun _ _ => true }
  localImpl _ := ⟨false, none, ⟨none, .unsupported⟩, ⟨.bool, []⟩⟩
  completeForTrait _ _ _ := true

def demoState : QueryProofState where
  egraph := .new
  version := 0
  inputs := []
  assumptions := []
  assumptionsComplete := true
  goal := .prove (.atom (.traitImpl (.adt ⟨0⟩ []) ⟨.ext 0, []⟩))
  canonicalUniverse := 0
  nextResponseParam := 0

theorem demoProgram_rules (normalize : DefId → List Ground → Ground) :
    demoProgram.Rules normalize (fun _ _ => False) where
  orphan h := nomatch h.2
  upstream := nofun
  builtin := by
    intro t data hsig hsemantics
    cases hsig
    exact absurd rfl hsemantics

/-- The head of the impl is not the head of the struct. -/
theorem demoProvider_relevant : demoProvider.externalRelevantImpls ⟨1, 0, .trait⟩
    (some (.adt (demoMetadata.symExt ⟨1, 1⟩))) = ⟨[], true⟩ := by
  have hfilter : (demoProvider.allImpls (SymExt.defId ⟨1, 0, .trait⟩)).filter (fun d =>
      d.krate ≠ localCrate && demoProvider.headAdmits
        (some (.adt (demoMetadata.symExt ⟨1, 1⟩))) d) = [] := rfl
  unfold Provider.externalRelevantImpls Provider.relevantTraitImpls
  simp only [Option.map_some, SimplifiedSelfType.intoRaw, hfilter, List.map_nil,
    List.mergeSort_nil]
  rfl

theorem demoProgram_candidates : demoProgram.assembleCandidates 1 demoState 0 []
    (.traitImpl (.adt ⟨0⟩ []) ⟨.ext 0, []⟩) = some ([], false) := by
  have hlocal : demoProgram.localCandidates 1 (.adt ⟨0⟩ []) ⟨.ext 0, []⟩ = some ([], false) := rfl
  have hexternal : demoProgram.externalCandidates (.adt ⟨0⟩ []) ⟨.ext 0, []⟩ =
      some ([], false) := by
    have hsource : demoProgram.provider.externalRelevantImpls (demoProgram.traitExt 0)
        (some (.adt (demoMetadata.symExt ⟨1, 1⟩))) = ⟨[], true⟩ := demoProvider_relevant
    change some (Program.eligibleCandidates _ _ (Provider.externalRelevantImpls ..).impls
      (Provider.externalRelevantImpls ..).complete) = _
    rw [hsource]
    rfl
  have himpl : demoProgram.implCandidates 1 (.adt ⟨0⟩ []) ⟨.ext 0, []⟩ = some ([], false) := by
    simp [Program.implCandidates, hlocal, hexternal]
  change (do
    let (sources, incomplete) ← demoProgram.implCandidates 1 (.adt ⟨0⟩ []) ⟨.ext 0, []⟩
    pure (([] : List Candidate) ++ sources, false || incomplete)) = _
  rw [himpl]
  rfl

theorem pruned_impossible_demoProgram :
    ¬demoProgram.Equal demoState 0 (fun _ _ => .mk .never []) (.adt ⟨0⟩ []) [] ⟨.bool, []⟩ := by
  refine (Program.pruned_impossible (demoProgram_rules _) demoProgram_candidates).2 0 rfl ⟨1, 2⟩
    ?_ ?_ nofun
  · exact List.mem_singleton_self _
  · simp [localCrate]

end Sage.Candidates
