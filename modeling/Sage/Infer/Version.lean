import Mathlib.Data.List.Basic
import Mathlib.Data.List.Nodup
import Sage.Syntax.Ty

/-!
# Inference — the version tree

`version.rs`: the append-only tree of inference versions and the global table of inference
variables.  A removed version keeps its identity and is never used again.  The source asserts
that a version is live or mutable before it reads or writes it; here the assertions are the
predicates `isLive` and `Mutable`, and the theorems assume them.

* `VersionTree.WF` — parents come before their children, a live version has a live parent that
  lists it, and a version lists live children only.
* `WF.branchFrom`, `WF.allocVarInDomain`, `WF.reownVariables`, `WF.removed` — every operation
  keeps the tree well formed.
* `Removed` — removal keeps exactly the versions outside the removed subtree.
-/

namespace Sage

/-- Concrete type family permitted for an inference equality class. -/
inductive InferDomain where
  | any
  | integer
  | float
deriving DecidableEq, Repr

namespace InferDomain

@[grind =] def intersect : InferDomain → InferDomain → Option InferDomain
  | .any, domain | domain, .any => some domain
  | .integer, .integer => some .integer
  | .float, .float => some .float
  | .integer, .float | .float, .integer => none

@[grind =] def admits : InferDomain → Ty → Bool
  | .any, _ => true
  | .integer, ty =>
      match ty with
      | .int _ | .uint _ | .error _ => true
      | _ => false
  | .float, ty =>
      match ty with
      | .float _ | .error _ => true
      | _ => false

end InferDomain

/-- Stable version-tree node identifier. -/
abbrev Version := Nat

/-- Scope depth: a variable at universe `u` cannot name a rigid placeholder from a greater one. -/
abbrev Universe := Nat

def Version.root : Version := 0

def Universe.root : Universe := 0

structure VarInfo where
  owner : Version
  creationUniverse : Universe
  initialDomain : InferDomain
deriving DecidableEq, Repr

structure VersionNode where
  parent : Option Version
  children : List Version
  ownedVariables : List InferVarIndex
  removed : Bool
deriving DecidableEq, Repr

namespace VersionNode

def root : VersionNode := ⟨none, [], [], false⟩

@[grind =] def child (parent : Version) : VersionNode := ⟨some parent, [], [], false⟩

end VersionNode

/-- The version tree and the global inference-variable identity table. -/
structure VersionTree where
  nodes : List VersionNode
  varInfos : List VarInfo
deriving DecidableEq, Repr

namespace VersionTree

def new : VersionTree := ⟨[.root], []⟩

@[grind =] def isLive (tree : VersionTree) (version : Version) : Bool :=
  tree.nodes[version]?.any fun node => !node.removed

def parent (tree : VersionTree) (version : Version) : Option Version :=
  tree.nodes[version]?.bind VersionNode.parent

def children (tree : VersionTree) (version : Version) : List Version :=
  (tree.nodes[version]?.map VersionNode.children).getD []

def ownedVariables (tree : VersionTree) (version : Version) : List InferVarIndex :=
  (tree.nodes[version]?.map VersionNode.ownedVariables).getD []

def isLeaf (tree : VersionTree) (version : Version) : Bool :=
  (tree.children version).isEmpty

/-- The condition `assert_mutable` checks. -/
def Mutable (tree : VersionTree) (version : Version) : Prop :=
  tree.isLive version = true ∧ tree.children version = []

instance (tree : VersionTree) (version : Version) : Decidable (tree.Mutable version) :=
  inferInstanceAs (Decidable (_ ∧ _))

/-- `version` and its ancestors, nearest first; parents come earlier in the table, so
`version + 1` steps are enough. -/
@[grind =] def ancestorsFrom (tree : VersionTree) : Nat → Version → List Version
  | 0, _ => []
  | fuel + 1, version =>
      version ::
        match tree.parent version with
        | none => []
        | some parent => tree.ancestorsFrom fuel parent

@[grind =] def ancestors (tree : VersionTree) (version : Version) : List Version :=
  tree.ancestorsFrom (version + 1) version

@[grind =] def isAncestor (tree : VersionTree) (ancestor version : Version) : Bool :=
  (tree.ancestors version).contains ancestor

def modifyNode (tree : VersionTree) (version : Version) (f : VersionNode → VersionNode) :
    VersionTree :=
  { tree with nodes := tree.nodes.modify version f }

/-- Create a child version branching from the specified parent. -/
def branchFrom (tree : VersionTree) (parent : Version) : Version × VersionTree :=
  let child := tree.nodes.length
  let tree := { tree with nodes := tree.nodes ++ [VersionNode.child parent] }
  (child, tree.modifyNode parent fun node => { node with children := node.children ++ [child] })

/-- Allocate a globally unique variable with an explicit initial domain. -/
def allocVarInDomain (tree : VersionTree) (version : Version) (creationUniverse : Universe)
    (initialDomain : InferDomain) : InferVarIndex × VersionTree :=
  let index := tree.varInfos.length
  let tree :=
    { tree with varInfos := tree.varInfos ++ [VarInfo.mk version creationUniverse initialDomain] }
  (index, tree.modifyNode version fun node =>
    { node with ownedVariables := node.ownedVariables ++ [index] })

/-- A version may see the variables its ancestors own. -/
@[grind =] def canAccess (tree : VersionTree) (version : Version) (index : InferVarIndex) : Bool :=
  tree.varInfos[index]?.any fun info => tree.isAncestor info.owner version

/-- The metadata of a variable. -/
@[grind =] def getVariable (tree : VersionTree) (index : InferVarIndex) : VarInfo :=
  tree.varInfos[index]?.getD ⟨.root, .root, .any⟩

@[grind =] def visibleVariables (tree : VersionTree) (version : Version) : List InferVarIndex :=
  (List.range tree.varInfos.length).filter fun index =>
    tree.varInfos[index]?.any fun info =>
      tree.isLive info.owner && tree.isAncestor info.owner version

/-- Re-own the variables allocated in `child`, immediately before a commit. -/
@[grind =] def reownVariables (tree : VersionTree) (child parent : Version) : VersionTree :=
  let owned := tree.ownedVariables child
  let tree := tree.modifyNode child fun node => { node with ownedVariables := [] }
  let tree :=
    { tree with
      varInfos := owned.foldl
        (fun infos index => infos.modify index fun info => { info with owner := parent })
        tree.varInfos }
  tree.modifyNode parent fun node =>
    { node with ownedVariables := node.ownedVariables ++ owned }

/-- Tombstone a version after all its descendants, in the order they are removed. -/
def removeSubtree : Nat → VersionTree → Version → List Version → VersionTree × List Version
  | 0, tree, _, removed => (tree, removed)
  | fuel + 1, tree, version, removed =>
      let (tree, removed) := (tree.children version).foldl
        (fun (tree, removed) child => removeSubtree fuel tree child removed) (tree, removed)
      (tree.modifyNode version fun node => { node with children := [], removed := true },
        removed ++ [version])

/-- Remove a version and all its descendants. -/
def remove (tree : VersionTree) (version : Version) : List Version × VersionTree :=
  match tree.parent version with
  | none => ([], tree)
  | some parent =>
      let (tree, removed) := removeSubtree tree.nodes.length tree version []
      (removed, tree.modifyNode parent fun node =>
        { node with children := node.children.filter (· ≠ version) })

/-! ### Reading a modified tree -/

section Modify

variable (tree : VersionTree) (v w : Version) (f : VersionNode → VersionNode)

theorem getElem?_modifyNode :
    (tree.modifyNode v f).nodes[w]? =
      if v = w then tree.nodes[w]?.map f else tree.nodes[w]? := by
  rw [modifyNode, List.getElem?_modify]
  split <;> simp

theorem parent_modifyNode (hf : ∀ n, (f n).parent = n.parent) :
    (tree.modifyNode v f).parent w = tree.parent w := by
  rw [parent, parent, getElem?_modifyNode]
  split
  · cases tree.nodes[w]? <;> simp [hf]
  · rfl

theorem isLive_modifyNode (hf : ∀ n, (f n).removed = n.removed) :
    (tree.modifyNode v f).isLive w = tree.isLive w := by
  rw [isLive, isLive, getElem?_modifyNode]
  split
  · cases tree.nodes[w]? <;> simp [hf]
  · rfl

theorem children_modifyNode (hf : ∀ n, (f n).children = n.children) :
    (tree.modifyNode v f).children w = tree.children w := by
  rw [children, children, getElem?_modifyNode]
  split
  · cases tree.nodes[w]? <;> simp [hf]
  · rfl

theorem ownedVariables_modifyNode (hf : ∀ n, (f n).ownedVariables = n.ownedVariables) :
    (tree.modifyNode v f).ownedVariables w = tree.ownedVariables w := by
  rw [ownedVariables, ownedVariables, getElem?_modifyNode]
  split
  · cases tree.nodes[w]? <;> simp [hf]
  · rfl

end Modify

theorem lt_length_of_isLive {tree : VersionTree} {v : Nat} (h : tree.isLive v = true) :
    v < tree.nodes.length := by
  by_contra hv
  rw [isLive, List.getElem?_eq_none (by omega)] at h
  simp at h

/-! ### Ancestors -/

section Ancestors

/-- Parents come earlier in the table. -/
def Ordered (tree : VersionTree) : Prop := ∀ v p : Nat, tree.parent v = some p → p < v

variable {tree : VersionTree}

theorem ancestorsFrom_eq (h : tree.Ordered) {fuel v : Nat} (hf : v < fuel) :
    tree.ancestorsFrom fuel v = tree.ancestors v := by
  induction v using Nat.strongRecOn generalizing fuel with
  | ind v ih =>
      obtain ⟨fuel, rfl⟩ := Nat.exists_eq_add_one_of_ne_zero (Nat.ne_zero_of_lt hf)
      rw [ancestors, ancestorsFrom, ancestorsFrom]
      cases hp : tree.parent v with
      | none => rfl
      | some p =>
          have hlt := h v p hp
          simp only [ih p hlt (Nat.lt_of_lt_of_le hlt (Nat.lt_succ_iff.mp hf)), ih p hlt hlt]

/-- The ancestors of a version: itself, then its parent's. -/
theorem ancestors_eq (h : tree.Ordered) (v : Version) :
    tree.ancestors v = v :: (tree.parent v).elim [] tree.ancestors := by
  rw [ancestors, ancestorsFrom]
  cases hp : tree.parent v with
  | none => rfl
  | some p => simp only [Option.elim, ancestorsFrom_eq h (h v p hp)]

theorem self_mem_ancestors (h : tree.Ordered) (v : Version) : v ∈ tree.ancestors v := by
  rw [ancestors_eq h]; exact List.mem_cons_self

theorem le_of_mem_ancestors (h : tree.Ordered) {v w : Nat} (hw : w ∈ tree.ancestors v) :
    w ≤ v := by
  induction v using Nat.strongRecOn with
  | ind v ih =>
      rw [ancestors_eq h] at hw
      rcases List.mem_cons.mp hw with rfl | hw
      · exact Nat.le_refl _
      · cases hp : tree.parent v with
        | none => simp [hp] at hw
        | some p =>
            have := ih p (h v p hp) (by simpa [hp] using hw)
            have := h v p hp
            omega

/-- Two trees with one parent map have the same ancestors. -/
theorem ancestors_congr {tree' : VersionTree} (h : tree.Ordered) {v : Nat}
    (hp : ∀ w ≤ v, tree'.parent w = tree.parent w) : tree'.ancestors v = tree.ancestors v := by
  have key : ∀ fuel w : Nat, w ≤ v → tree'.ancestorsFrom fuel w = tree.ancestorsFrom fuel w := by
    intro fuel
    induction fuel with
    | zero => intro w _; rfl
    | succ fuel ih =>
        intro w hw
        rw [ancestorsFrom, ancestorsFrom, hp w hw]
        cases hpw : tree.parent w with
        | none => rfl
        | some p =>
            have := h w p hpw
            simp only [ih p (by omega)]
  exact key _ v (Nat.le_refl _)

end Ancestors

/-! ### Well-formed trees -/

/-- Parents come before their children, liveness is inherited upwards, children lists hold
exactly the live children, and ownership is recorded on both sides. -/
structure WF (tree : VersionTree) : Prop where
  root_live : tree.isLive .root = true
  ordered : tree.Ordered
  parent_live : ∀ {v p}, tree.isLive v = true → tree.parent v = some p → tree.isLive p = true
  mem_children : ∀ {v p}, tree.isLive v = true → tree.parent v = some p → v ∈ tree.children p
  of_mem_children : ∀ {c p}, c ∈ tree.children p →
    tree.parent c = some p ∧ tree.isLive c = true
  owned_iff : ∀ {i v}, i ∈ tree.ownedVariables v ↔ tree.varInfos[i]?.map VarInfo.owner = some v

namespace WF

variable {tree : VersionTree}

theorem isLive_of_mem_ancestors (h : tree.WF) {v w : Version} (hv : tree.isLive v = true)
    (hw : w ∈ tree.ancestors v) : tree.isLive w = true := by
  induction v using Nat.strongRecOn with
  | ind v ih =>
      rw [ancestors_eq h.ordered] at hw
      rcases List.mem_cons.mp hw with rfl | hw
      · exact hv
      · cases hp : tree.parent v with
        | none => simp [hp] at hw
        | some p => exact ih p (h.ordered v p hp) (h.parent_live hv hp) (by simpa [hp] using hw)

/-- A leaf is an ancestor of no other live version. -/
theorem notMem_ancestors_of_leaf (h : tree.WF) {v w : Version} (hv : tree.children v = [])
    (hw : tree.isLive w = true) (hne : w ≠ v) : v ∉ tree.ancestors w := by
  induction w using Nat.strongRecOn with
  | ind w ih =>
      intro hmem
      rw [ancestors_eq h.ordered] at hmem
      rcases List.mem_cons.mp hmem with rfl | hmem
      · exact hne rfl
      · cases hp : tree.parent w with
        | none => simp [hp] at hmem
        | some p =>
            have hmem : v ∈ tree.ancestors p := by simpa [hp] using hmem
            have hpv : p ≠ v := by
              rintro rfl
              have := h.mem_children hw hp
              simp [hv] at this
            exact ih p (h.ordered w p hp) (h.parent_live hw hp) hpv hmem

theorem new : VersionTree.new.WF where
  root_live := rfl
  ordered v p h := by
    cases v <;> simp [VersionTree.new, VersionTree.parent, VersionNode.root] at h
  parent_live {v p} _ h := by
    cases v <;> simp [VersionTree.new, VersionTree.parent, VersionNode.root] at h
  mem_children {v p} _ h := by
    cases v <;> simp [VersionTree.new, VersionTree.parent, VersionNode.root] at h
  of_mem_children {c p} h := by
    cases p <;> simp [VersionTree.new, VersionTree.children, VersionNode.root] at h
  owned_iff {i v} := by
    cases v <;> simp [VersionTree.new, VersionTree.ownedVariables, VersionNode.root]

end WF

/-! ### Branching -/

section Branch

variable {tree : VersionTree} {parent : Nat}

theorem getElem?_branchFrom (hp : parent < tree.nodes.length) (w : Nat) :
    (tree.branchFrom parent).2.nodes[w]? =
      if w = tree.nodes.length then some (.child parent)
      else if w = parent then
        tree.nodes[w]?.map fun n => { n with children := n.children ++ [tree.nodes.length] }
      else tree.nodes[w]? := by
  simp only [branchFrom, getElem?_modifyNode]
  by_cases hw : w = tree.nodes.length
  · subst hw
    have : parent ≠ tree.nodes.length := by omega
    simp [this]
  · by_cases hwp : w = parent
    · subst hwp
      simp [List.getElem?_append_left hp, hw]
    · have : ¬ parent = w := fun e => hwp e.symm
      simp only [this, if_false, hw, hwp, List.getElem?_append]
      split
      · rfl
      · have hge : tree.nodes.length < w := by omega
        rw [List.getElem?_eq_none (by simp; omega), List.getElem?_eq_none (by omega)]

theorem branchFrom_parent (hp : parent < tree.nodes.length) (w : Nat) :
    (tree.branchFrom parent).2.parent w =
      if w = tree.nodes.length then some parent else tree.parent w := by
  simp only [VersionTree.parent, getElem?_branchFrom hp]
  split
  · simp [VersionNode.child]
  · split
    · cases tree.nodes[w]? <;> simp
    · rfl

theorem branchFrom_isLive (hp : parent < tree.nodes.length) (w : Nat) :
    (tree.branchFrom parent).2.isLive w = (decide (w = tree.nodes.length) || tree.isLive w) := by
  simp only [isLive, getElem?_branchFrom hp]
  by_cases hw : w = tree.nodes.length
  · simp [hw, VersionNode.child]
  · by_cases hwp : w = parent
    · subst hwp
      cases tree.nodes[w]? <;> simp [hw]
    · simp [hw, hwp]

theorem branchFrom_children (hp : parent < tree.nodes.length) (w : Nat) :
    (tree.branchFrom parent).2.children w =
      if w = tree.nodes.length then []
      else if w = parent then tree.children w ++ [tree.nodes.length] else tree.children w := by
  simp only [children, getElem?_branchFrom hp]
  split
  · simp [VersionNode.child]
  · split
    · subst_vars
      simp [List.getElem?_eq_getElem hp]
    · rfl

theorem branchFrom_ownedVariables (hp : parent < tree.nodes.length) (w : Nat) :
    (tree.branchFrom parent).2.ownedVariables w =
      if w = tree.nodes.length then [] else tree.ownedVariables w := by
  simp only [ownedVariables, getElem?_branchFrom hp]
  split
  · simp [VersionNode.child]
  · split
    · cases tree.nodes[w]? <;> simp
    · rfl

@[simp] theorem branchFrom_fst : (tree.branchFrom parent).1 = tree.nodes.length := rfl

@[simp] theorem branchFrom_varInfos : (tree.branchFrom parent).2.varInfos = tree.varInfos := rfl

theorem WF.branchFrom (h : tree.WF) (hlive : tree.isLive parent = true) :
    (tree.branchFrom parent).2.WF := by
  have hp := lt_length_of_isLive hlive
  have hlt : ∀ {w : Nat}, tree.isLive w = true → w ≠ tree.nodes.length := fun {w} hw e => by
    have := lt_length_of_isLive (v := w) hw
    omega
  refine ⟨?_, ?_, ?_, ?_, ?_, ?_⟩
  · simp [branchFrom_isLive hp, h.root_live]
  · intro v p hv
    rw [branchFrom_parent hp] at hv
    split at hv
    · cases hv; omega
    · exact h.ordered v p hv
  · intro v p hv hvp
    rw [branchFrom_parent hp] at hvp
    rw [branchFrom_isLive hp, Bool.or_eq_true] at hv ⊢
    split at hvp
    · cases hvp; exact .inr hlive
    · rename_i hne
      exact .inr (h.parent_live (hv.resolve_left (by simpa using hne)) hvp)
  · intro v p hv hvp
    rw [branchFrom_parent hp] at hvp
    rw [branchFrom_isLive hp, Bool.or_eq_true] at hv
    rw [branchFrom_children hp]
    split at hvp
    · cases hvp
      simp_all [hlt hlive]
    · rename_i hne
      have hv := hv.resolve_left (by simpa using hne)
      have hmem := h.mem_children hv hvp
      rw [if_neg (hlt (h.parent_live hv hvp))]
      split <;> simp [hmem]
  · intro c p hc
    rw [branchFrom_children hp] at hc
    rw [branchFrom_parent hp, branchFrom_isLive hp]
    have old : c ∈ tree.children p → (if c = tree.nodes.length then some parent
        else tree.parent c) = some p ∧ (decide (c = tree.nodes.length) || tree.isLive c) = true := by
      intro hc
      obtain ⟨h₁, h₂⟩ := h.of_mem_children hc
      simp [hlt h₂, h₁, h₂]
    split at hc
    · simp at hc
    · split at hc
      · rcases List.mem_append.mp hc with hc | hc
        · exact old hc
        · simp_all
      · exact old hc
  · intro i v
    rw [branchFrom_ownedVariables hp, branchFrom_varInfos, ← h.owned_iff]
    split
    · subst_vars
      simp [ownedVariables]
    · rfl

/-- The new version descends from its parent; every old version keeps its ancestors. -/
theorem branchFrom_ancestors (h : tree.WF) (hlive : tree.isLive parent = true) (w : Nat) :
    (tree.branchFrom parent).2.ancestors w =
      if w = tree.nodes.length then w :: tree.ancestors parent else tree.ancestors w := by
  have hp := lt_length_of_isLive hlive
  have hwf := (h.branchFrom hlive).ordered
  have old : ∀ w : Nat, w < tree.nodes.length →
      (tree.branchFrom parent).2.ancestors w = tree.ancestors w := fun w hw =>
    ancestors_congr h.ordered fun u hu => by
      rw [branchFrom_parent hp, if_neg (by omega)]
  split
  · subst_vars
    rw [ancestors_eq hwf, branchFrom_parent hp]
    simp [old parent hp]
  · rename_i hne
    rcases Nat.lt_or_ge w tree.nodes.length with hw | hw
    · exact old w hw
    · have hnone : tree.parent w = none := by
        simp [VersionTree.parent, List.getElem?_eq_none hw]
      rw [ancestors_eq hwf, ancestors_eq h.ordered, branchFrom_parent hp, if_neg hne, hnone]
      rfl

end Branch

/-! ### Allocating and re-owning variables -/

section Variables

variable {tree : VersionTree}

/-- A change of the ownership records that agrees with the variable table keeps the tree well
formed. -/
theorem WF.of_same_shape {tree' : VersionTree} (h : tree.WF)
    (hparent : ∀ w, tree'.parent w = tree.parent w) (hlive : ∀ w, tree'.isLive w = tree.isLive w)
    (hchildren : ∀ w, tree'.children w = tree.children w)
    (howned : ∀ i v, i ∈ tree'.ownedVariables v ↔
      tree'.varInfos[i]?.map VarInfo.owner = some v) : tree'.WF where
  root_live := by rw [hlive, h.root_live]
  ordered v p hv := h.ordered v p (by rwa [hparent] at hv)
  parent_live hv hp := by rw [hlive] at hv ⊢; exact h.parent_live hv (by rwa [hparent] at hp)
  mem_children hv hp := by
    rw [hchildren]; exact h.mem_children (by rwa [hlive] at hv) (by rwa [hparent] at hp)
  of_mem_children hc := by
    rw [hchildren] at hc; rw [hparent, hlive]; exact h.of_mem_children hc
  owned_iff := howned _ _

theorem ancestors_of_same_parent {tree' : VersionTree} (h : tree.WF)
    (hparent : ∀ w, tree'.parent w = tree.parent w) (v : Nat) :
    tree'.ancestors v = tree.ancestors v :=
  ancestors_congr h.ordered fun w _ => hparent w

variable {version : Nat} {u : Universe} {d : InferDomain}

@[simp] theorem allocVarInDomain_parent (w : Nat) :
    (tree.allocVarInDomain version u d).2.parent w = tree.parent w :=
  parent_modifyNode _ _ _ _ fun _ => rfl

@[simp] theorem allocVarInDomain_isLive (w : Nat) :
    (tree.allocVarInDomain version u d).2.isLive w = tree.isLive w :=
  isLive_modifyNode _ _ _ _ fun _ => rfl

@[simp] theorem allocVarInDomain_children (w : Nat) :
    (tree.allocVarInDomain version u d).2.children w = tree.children w :=
  children_modifyNode _ _ _ _ fun _ => rfl

@[simp] theorem allocVarInDomain_fst :
    (tree.allocVarInDomain version u d).1 = tree.varInfos.length := rfl

@[simp] theorem allocVarInDomain_varInfos :
    (tree.allocVarInDomain version u d).2.varInfos = tree.varInfos ++ [⟨version, u, d⟩] := rfl

theorem WF.allocVarInDomain (h : tree.WF) (hlive : tree.isLive version = true) :
    (tree.allocVarInDomain version u d).2.WF := by
  refine h.of_same_shape (by simp) (by simp) (by simp) fun (i : Nat) v => ?_
  have hv : version < tree.nodes.length := lt_length_of_isLive hlive
  have hi := h.owned_iff (i := i) (v := v)
  have howned : (tree.allocVarInDomain version u d).2.ownedVariables v =
      if version = v then tree.ownedVariables v ++ [tree.varInfos.length]
      else tree.ownedVariables v := by
    simp only [ownedVariables, VersionTree.allocVarInDomain, getElem?_modifyNode]
    split
    · subst_vars
      simp [List.getElem?_eq_getElem hv]
    · rfl
  have hnew : tree.varInfos.length ∉ tree.ownedVariables v := by
    rw [h.owned_iff]; simp
  rw [howned, allocVarInDomain_varInfos]
  by_cases hil : i = tree.varInfos.length
  · subst hil
    split <;> simp_all
  · have : (tree.varInfos ++ [⟨version, u, d⟩])[i]? = tree.varInfos[i]? := by
      rw [List.getElem?_append]
      split
      · rfl
      · rw [List.getElem?_eq_none (by simp; omega), List.getElem?_eq_none (by omega)]
    rw [this, ← hi]
    split <;> simp [hil]

/-- The owner of a variable after its owner gave it away. -/
theorem getElem?_foldl_modify_owner (owned : List InferVarIndex) (parent : Version)
    (infos : List VarInfo) (i : InferVarIndex) :
    (owned.foldl (fun infos index => infos.modify index fun info => { info with owner := parent })
      infos)[i]? =
      if i ∈ owned then infos[i]?.map fun info => { info with owner := parent }
      else infos[i]? := by
  induction owned generalizing infos with
  | nil => simp
  | cons j owned ih =>
      rw [List.foldl_cons, ih, List.getElem?_modify]
      by_cases hj : j = i
      · subst hj
        cases infos[j]? <;> simp
      · have : i ≠ j := fun e => hj e.symm
        simp [hj, this]

variable {child parent : Nat}

theorem getElem?_reownVariables_varInfos (h : tree.WF) (i : InferVarIndex) :
    (tree.reownVariables child parent).varInfos[i]? =
      tree.varInfos[i]?.map fun info =>
        if info.owner = child then { info with owner := parent } else info := by
  simp only [reownVariables, modifyNode, getElem?_foldl_modify_owner, h.owned_iff]
  cases tree.varInfos[i]? with
  | none => simp
  | some info =>
      by_cases hc : info.owner = child <;> simp [hc]

theorem getElem?_reownVariables_nodes (w : Nat) :
    (tree.reownVariables child parent).nodes[w]? = tree.nodes[w]?.map fun n =>
      { n with
        ownedVariables := (if child = w then [] else n.ownedVariables) ++
          if parent = w then tree.ownedVariables child else [] } := by
  simp only [reownVariables, modifyNode, List.getElem?_modify]
  cases tree.nodes[w]? with
  | none => simp
  | some n =>
      by_cases hc : child = w <;> by_cases hp : parent = w <;> simp [hc, hp]

@[simp] theorem reownVariables_parent (w : Nat) :
    (tree.reownVariables child parent).parent w = tree.parent w := by
  simp only [VersionTree.parent, getElem?_reownVariables_nodes]
  cases tree.nodes[w]? <;> simp

@[simp] theorem reownVariables_isLive (w : Nat) :
    (tree.reownVariables child parent).isLive w = tree.isLive w := by
  simp only [isLive, getElem?_reownVariables_nodes]
  cases tree.nodes[w]? <;> simp

@[simp] theorem reownVariables_children (w : Nat) :
    (tree.reownVariables child parent).children w = tree.children w := by
  simp only [children, getElem?_reownVariables_nodes]
  cases tree.nodes[w]? <;> simp

theorem WF.reownVariables (h : tree.WF) (hne : child ≠ parent)
    (hp : tree.isLive parent = true) :
    (tree.reownVariables child parent).WF := by
  refine h.of_same_shape (by simp) (by simp) (by simp) fun (i : Nat) v => ?_
  have hpl : parent < tree.nodes.length := lt_length_of_isLive hp
  have howned : (tree.reownVariables child parent).ownedVariables v =
      (if child = v then [] else tree.ownedVariables v) ++
        if parent = v then tree.ownedVariables child else [] := by
    simp only [ownedVariables, getElem?_reownVariables_nodes]
    cases hv : tree.nodes[v]? with
    | some n => simp
    | none =>
        have : parent ≠ v := by
          rintro rfl; simp [List.getElem?_eq_getElem hpl] at hv
        simp [this]
  have hv := h.owned_iff (i := i) (v := v)
  have hi := h.owned_iff (i := i) (v := child)
  rw [howned, getElem?_reownVariables_varInfos h]
  cases hinfo : tree.varInfos[i]? with
  | none =>
      simp only [hinfo, Option.map_none, reduceCtorEq, iff_false] at hv hi
      split <;> split <;> simp [hv, hi]
  | some info =>
      simp only [hinfo, Option.map_some, Option.some.injEq] at hv hi ⊢
      by_cases hio : info.owner = child
      · by_cases hpv : parent = v
        · simp [hpv, hio, hi]
        · by_cases hcv : child = v
          · simp [hpv, hcv, hio]
          · simp [hpv, hcv, hio, hv]
      · by_cases hpv : parent = v
        · have hcv : child ≠ v := fun e => hne (e.trans hpv.symm)
          simp [hpv, hcv, hio, hi, hv]
        · by_cases hcv : child = v
          · subst hcv; simp [hpv, hio]
          · simp [hpv, hcv, hio, hv]

end Variables

/-! ### Removing a subtree -/

section Remove

/-- What removal leaves of a node. -/
@[grind =]
def tombstone (node : VersionNode) : VersionNode := { node with children := [], removed := true }

/-- The part of well-formedness that survives while a subtree is being removed: a live version
is listed by its live parent, but a list may still hold removed children. -/
structure Pruning (tree : VersionTree) : Prop where
  ordered : tree.Ordered
  parent_live : ∀ {v p}, tree.isLive v = true → tree.parent v = some p → tree.isLive p = true
  mem_children : ∀ {v p}, tree.isLive v = true → tree.parent v = some p → v ∈ tree.children p
  of_mem_children : ∀ {c p}, c ∈ tree.children p → tree.parent c = some p

theorem WF.pruning {tree : VersionTree} (h : tree.WF) : tree.Pruning :=
  ⟨h.ordered, h.parent_live, h.mem_children, fun hc => (h.of_mem_children hc).1⟩

/-- `tree'` is `tree` with exactly the versions of `sub` tombstoned. -/
structure Tombstoned (sub : List Version) (tree tree' : VersionTree) : Prop where
  nodes : ∀ w, tree'.nodes[w]? =
    if w ∈ sub then tree.nodes[w]?.map tombstone else tree.nodes[w]?
  varInfos : tree'.varInfos = tree.varInfos

namespace Tombstoned

variable {sub sub' : List Version} {tree tree' tree'' : VersionTree}

theorem parent (h : Tombstoned sub tree tree') (w : Version) :
    tree'.parent w = tree.parent w := by
  rw [VersionTree.parent, VersionTree.parent, h.nodes]
  split
  · cases tree.nodes[w]? <;> simp [tombstone]
  · rfl

theorem isLive (h : Tombstoned sub tree tree') (w : Version) :
    tree'.isLive w = (tree.isLive w && decide (w ∉ sub)) := by
  rw [VersionTree.isLive, VersionTree.isLive, h.nodes]
  by_cases hw : w ∈ sub
  · cases tree.nodes[w]? <;> simp [tombstone, hw]
  · simp [hw]

theorem children (h : Tombstoned sub tree tree') (w : Version) :
    tree'.children w = if w ∈ sub then [] else tree.children w := by
  rw [VersionTree.children, VersionTree.children, h.nodes]
  split
  · cases tree.nodes[w]? <;> simp [tombstone]
  · rfl

theorem ownedVariables (h : Tombstoned sub tree tree') (w : Version) :
    tree'.ownedVariables w = tree.ownedVariables w := by
  rw [VersionTree.ownedVariables, VersionTree.ownedVariables, h.nodes]
  split
  · cases tree.nodes[w]? <;> simp [tombstone]
  · rfl

theorem length (h : Tombstoned sub tree tree') : tree'.nodes.length = tree.nodes.length := by
  have key : ∀ w, tree'.nodes[w]? = none ↔ tree.nodes[w]? = none := fun w => by
    rw [h.nodes]
    split <;> cases tree.nodes[w]? <;> simp
  have h₁ := key tree.nodes.length
  have h₂ := key tree'.nodes.length
  simp only [List.getElem?_eq_none_iff] at h₁ h₂
  omega

theorem trans (h : Tombstoned sub tree tree') (h' : Tombstoned sub' tree' tree'') :
    Tombstoned (sub ++ sub') tree tree'' where
  nodes w := by
    rw [h'.nodes, h.nodes]
    by_cases hw : w ∈ sub <;> by_cases hw' : w ∈ sub' <;>
      cases tree.nodes[w]? <;> simp [hw, hw', tombstone]
  varInfos := h'.varInfos.trans h.varInfos

theorem self (v : Version) : Tombstoned [v] tree (tree.modifyNode v tombstone) where
  nodes w := by
    rw [getElem?_modifyNode]
    by_cases hw : v = w
    · simp [hw]
    · have : w ≠ v := fun e => hw e.symm
      simp [hw, this]
  varInfos := rfl

theorem refl : Tombstoned [] tree tree := ⟨by simp, rfl⟩

theorem ancestors (h : Tombstoned sub tree tree') (hord : tree.Ordered) (w : Nat) :
    tree'.ancestors w = tree.ancestors w :=
  ancestors_congr hord fun u _ => h.parent u

/-- Removing whole subtrees keeps the rest in order. -/
theorem pruning (h : Tombstoned sub tree tree') (hp : tree.Pruning)
    (hclosed : ∀ v p, tree.isLive v = true → tree.parent v = some p → p ∈ sub → v ∈ sub) :
    tree'.Pruning where
  ordered v p hv := hp.ordered v p (by rwa [h.parent] at hv)
  parent_live {v p} hv hvp := by
    rw [h.isLive, Bool.and_eq_true, decide_eq_true_eq] at hv ⊢
    rw [h.parent] at hvp
    exact ⟨hp.parent_live hv.1 hvp, fun hps => hv.2 (hclosed v p hv.1 hvp hps)⟩
  mem_children {v p} hv hvp := by
    rw [h.isLive, Bool.and_eq_true, decide_eq_true_eq] at hv
    rw [h.parent] at hvp
    rw [h.children, if_neg fun hps => hv.2 (hclosed v p hv.1 hvp hps)]
    exact hp.mem_children hv.1 hvp
  of_mem_children {c p} hc := by
    rw [h.children] at hc
    rw [h.parent]
    split at hc
    · simp at hc
    · exact hp.of_mem_children hc

end Tombstoned

variable {tree : VersionTree}

theorem mem_ancestors_trans (h : tree.Ordered) {u v w : Nat} (huv : u ∈ tree.ancestors v)
    (hvw : v ∈ tree.ancestors w) : u ∈ tree.ancestors w := by
  induction w using Nat.strongRecOn with
  | ind w ih =>
      rw [ancestors_eq h] at hvw
      rcases List.mem_cons.mp hvw with rfl | hvw
      · exact huv
      · cases hp : tree.parent w with
        | none => simp [hp] at hvw
        | some p =>
            rw [ancestors_eq h, hp]
            exact List.mem_cons_of_mem _ (ih p (h w p hp) (by simpa [hp] using hvw))

/-- A proper descendant descends from a child. -/
theorem Pruning.exists_child (h : tree.Pruning) {v w : Nat} (hw : tree.isLive w = true)
    (hv : v ∈ tree.ancestors w) (hne : w ≠ v) :
    ∃ c ∈ tree.children v, c ∈ tree.ancestors w := by
  induction w using Nat.strongRecOn with
  | ind w ih =>
      rw [ancestors_eq h.ordered] at hv
      rcases List.mem_cons.mp hv with rfl | hv
      · exact absurd rfl hne
      · cases hp : tree.parent w with
        | none => simp [hp] at hv
        | some p =>
            have hlt := h.ordered w p hp
            by_cases hpv : p = v
            · subst hpv
              exact ⟨w, h.mem_children hw hp, self_mem_ancestors h.ordered w⟩
            · obtain ⟨c, hc, hcp⟩ := ih p hlt (h.parent_live hw hp) (by simpa [hp] using hv) hpv
              refine ⟨c, hc, ?_⟩
              rw [ancestors_eq h.ordered, hp]
              exact List.mem_cons_of_mem _ hcp

/-- `sub` lists descendants of the versions `tops`, and all the live ones. -/
structure Subtrees (tree : VersionTree) (tops sub : List Version) : Prop where
  descends : ∀ w ∈ sub, ∃ c ∈ tops, c ∈ tree.ancestors w
  complete : ∀ w, tree.isLive w = true → (∃ c ∈ tops, c ∈ tree.ancestors w) → w ∈ sub

theorem Subtrees.closed {tops sub : List Version} (h : tree.Subtrees tops sub)
    (hord : tree.Ordered) (v p : Version) (hv : tree.isLive v = true)
    (hvp : tree.parent v = some p) (hp : p ∈ sub) : v ∈ sub := by
  obtain ⟨c, hc, hcp⟩ := h.descends p hp
  refine h.complete v hv ⟨c, hc, ?_⟩
  rw [ancestors_eq hord, hvp]
  exact List.mem_cons_of_mem _ hcp

theorem lt_length_of_parent {v : Nat} {p : Version} (h : tree.parent v = some p) :
    v < tree.nodes.length := by
  by_contra hv
  rw [parent, List.getElem?_eq_none (by omega)] at h
  simp at h

/-- One version of the recursion removes the subtrees of its children one after the other. -/
theorem foldl_removeSubtree_spec {fuel : Nat}
    (ih : ∀ (tree : VersionTree) (version : Nat) (removed : List Version), tree.Pruning →
      version < tree.nodes.length → tree.nodes.length ≤ fuel + version →
      ∃ sub, (removeSubtree fuel tree version removed).2 = removed ++ sub ∧
        Tombstoned sub tree (removeSubtree fuel tree version removed).1 ∧
        tree.Subtrees [version] sub ∧ version ∈ sub) :
    ∀ (cs : List Nat) (tree : VersionTree) (removed : List Version), tree.Pruning →
      (∀ c ∈ cs, c < tree.nodes.length ∧ tree.nodes.length ≤ fuel + c) →
      ∃ sub, (cs.foldl (fun (tree, removed) child => removeSubtree fuel tree child removed)
          (tree, removed)).2 = removed ++ sub ∧
        Tombstoned sub tree (cs.foldl
          (fun (tree, removed) child => removeSubtree fuel tree child removed) (tree, removed)).1 ∧
        tree.Subtrees cs sub
  | [], tree, removed, _, _ =>
      ⟨[], by simp, Tombstoned.refl, by simp, by simp⟩
  | c :: cs, tree, removed, hp, hcs => by
      obtain ⟨hlt, hle⟩ := hcs c List.mem_cons_self
      obtain ⟨sub₁, hr₁, ht₁, hs₁, -⟩ := ih tree c removed hp hlt hle
      have hp₁ := ht₁.pruning hp (hs₁.closed hp.ordered)
      obtain ⟨sub₂, hr₂, ht₂, hs₂⟩ := foldl_removeSubtree_spec ih cs
        (removeSubtree fuel tree c removed).1 (removeSubtree fuel tree c removed).2 hp₁
        (fun c' hc' => by rw [ht₁.length]; exact hcs c' (List.mem_cons_of_mem _ hc'))
      refine ⟨sub₁ ++ sub₂, ?_, ?_, ?_, ?_⟩
      · rw [List.foldl_cons]
        rw [hr₂, hr₁, List.append_assoc]
      · rw [List.foldl_cons]
        exact ht₁.trans ht₂
      · intro w hw
        rcases List.mem_append.mp hw with hw | hw
        · obtain ⟨c', hc', hcw⟩ := hs₁.descends w hw
          obtain rfl := List.mem_singleton.mp hc'
          exact ⟨c', List.mem_cons_self, hcw⟩
        · obtain ⟨c', hc', hcw⟩ := hs₂.descends w hw
          rw [ht₁.ancestors hp.ordered] at hcw
          exact ⟨c', List.mem_cons_of_mem _ hc', hcw⟩
      · rintro w hw ⟨c', hc', hcw⟩
        by_cases hw₁ : w ∈ sub₁
        · exact List.mem_append_left _ hw₁
        · refine List.mem_append_right _ (hs₂.complete w ?_ ⟨c', ?_, ?_⟩)
          · rw [ht₁.isLive]; simp [hw, hw₁]
          · rcases List.mem_cons.mp hc' with rfl | hc'
            · exact absurd (hs₁.complete w hw ⟨c', by simp, hcw⟩) hw₁
            · exact hc'
          · rwa [ht₁.ancestors hp.ordered]

/-- What the recursive removal of `version` does, given fuel for the versions above it: it
tombstones exactly the live descendants. -/
theorem removeSubtree_spec (fuel : Nat) : ∀ (tree : VersionTree) (version : Nat)
    (removed : List Version), tree.Pruning → version < tree.nodes.length →
    tree.nodes.length ≤ fuel + version →
    ∃ sub, (removeSubtree fuel tree version removed).2 = removed ++ sub ∧
      Tombstoned sub tree (removeSubtree fuel tree version removed).1 ∧
      tree.Subtrees [version] sub ∧ version ∈ sub := by
  induction fuel with
  | zero => intro tree version removed _ hlt hle; omega
  | succ fuel ih =>
      intro tree version removed hp hlt hle
      have hcs : ∀ c ∈ tree.children version,
          c < tree.nodes.length ∧ tree.nodes.length ≤ fuel + c := fun c hc => by
        have hpc := hp.of_mem_children hc
        have := hp.ordered c version hpc
        exact ⟨lt_length_of_parent hpc, by omega⟩
      obtain ⟨sub, hr, ht, hs⟩ :=
        foldl_removeSubtree_spec ih (tree.children version) tree removed hp hcs
      refine ⟨sub ++ [version], ?_, ?_, ⟨?_, ?_⟩, by simp⟩
      · rw [removeSubtree]
        simp [hr]
      · rw [removeSubtree]
        exact ht.trans (Tombstoned.self version)
      · intro w hw
        rcases List.mem_append.mp hw with hw | hw
        · obtain ⟨c, hc, hcw⟩ := hs.descends w hw
          have hvc : version ∈ tree.ancestors c := by
            rw [ancestors_eq hp.ordered, hp.of_mem_children hc]
            exact List.mem_cons_of_mem _ (self_mem_ancestors hp.ordered version)
          exact ⟨version, by simp, mem_ancestors_trans hp.ordered hvc hcw⟩
        · obtain rfl := List.mem_singleton.mp hw
          exact ⟨w, by simp, self_mem_ancestors hp.ordered w⟩
      · rintro w hw ⟨c, hc, hcw⟩
        obtain rfl := List.mem_singleton.mp hc
        by_cases hwc : w = c
        · simp [hwc]
        · obtain ⟨d, hd, hdw⟩ := hp.exists_child hw hcw hwc
          exact List.mem_append_left _ (hs.complete w hw ⟨d, hd, hdw⟩)

/-- What `remove` does to a live version below the root: every live descendant is tombstoned,
the rest keeps its place, and the parent forgets the version. -/
structure Removed (tree : VersionTree) (version parent : Version) (removed : List Version)
    (tree' : VersionTree) : Prop where
  wf : tree'.WF
  length : tree'.nodes.length = tree.nodes.length
  varInfos : tree'.varInfos = tree.varInfos
  parent_eq : ∀ w, tree'.parent w = tree.parent w
  descends : ∀ w ∈ removed, version ∈ tree.ancestors w
  isLive : ∀ w, tree'.isLive w = true ↔ tree.isLive w = true ∧ version ∉ tree.ancestors w
  children : ∀ w, tree'.isLive w = true → tree'.children w =
    if parent = w then (tree.children w).filter (· ≠ version) else tree.children w

theorem WF.removed (h : tree.WF) {version parent : Nat} (hlive : tree.isLive version = true)
    (hparent : tree.parent version = some parent) :
    Removed tree version parent (tree.remove version).1 (tree.remove version).2 := by
  obtain ⟨sub, hr, ht, hs, hself⟩ := removeSubtree_spec tree.nodes.length tree version []
    h.pruning (lt_length_of_isLive hlive) (by omega)
  have hremove : tree.remove version = (sub,
      (removeSubtree tree.nodes.length tree version []).1.modifyNode parent fun node =>
        { node with children := node.children.filter (· ≠ version) }) := by
    rw [remove, hparent]
    simp only [List.nil_append] at hr
    simp [hr]
  generalize hmid : (removeSubtree tree.nodes.length tree version []).1 = mid at hremove ht
  have hmem : ∀ w, w ∈ sub → version ∈ tree.ancestors w := fun w hw => by
    obtain ⟨c, hc, hcw⟩ := hs.descends w hw
    rwa [List.mem_singleton.mp hc] at hcw
  have hpr := ht.pruning h.pruning (hs.closed h.ordered)
  have hpar : ∀ w, (tree.remove version).2.parent w = tree.parent w := fun w => by
    rw [hremove]; exact (parent_modifyNode _ _ _ _ (by intro; rfl)).trans (ht.parent w)
  have hlv : ∀ w, (tree.remove version).2.isLive w = mid.isLive w := fun w => by
    rw [hremove]; exact isLive_modifyNode _ _ _ _ fun _ => rfl
  have hch : ∀ w, (tree.remove version).2.children w =
      if parent = w then (mid.children w).filter (· ≠ version) else mid.children w := fun w => by
    rw [hremove, children, children, getElem?_modifyNode]
    split
    · cases mid.nodes[w]? <;> simp
    · rfl
  have hnp : version ∉ tree.ancestors parent := fun hm => by
    have := le_of_mem_ancestors h.ordered hm
    have := h.ordered version parent hparent
    omega
  have hlive_iff : ∀ w, (tree.remove version).2.isLive w = true ↔
      tree.isLive w = true ∧ version ∉ tree.ancestors w := fun w => by
    rw [hlv, ht.isLive, Bool.and_eq_true, decide_eq_true_eq]
    refine and_congr_right fun hw => not_congr ⟨hmem w, fun hv => ?_⟩
    exact hs.complete w hw ⟨version, by simp, hv⟩
  refine ⟨⟨?_, ?_, ?_, ?_, ?_, ?_⟩, ?_, ?_, hpar, ?_, hlive_iff, ?_⟩
  · rw [hlive_iff]
    refine ⟨h.root_live, fun hm => ?_⟩
    have h₀ : version ≤ 0 := le_of_mem_ancestors h.ordered hm
    have h₁ := h.ordered version parent hparent
    omega
  · intro v p hv
    rw [hpar] at hv; exact h.ordered v p hv
  · intro v p hv hvp
    rw [hlv] at hv ⊢; rw [hpar] at hvp
    exact hpr.parent_live hv ((ht.parent v).trans hvp)
  · intro v p hv hvp
    have hvv : v ≠ version := by
      rintro rfl
      exact ((hlive_iff v).mp hv).2 (self_mem_ancestors h.ordered v)
    rw [hlv] at hv; rw [hpar] at hvp
    have := hpr.mem_children hv ((ht.parent v).trans hvp)
    rw [hch]; split <;> simp [this, hvv]
  · intro c p hc
    rw [hch] at hc
    have hcm : c ∈ mid.children p := by
      split at hc
      · exact (List.mem_filter.mp hc).1
      · exact hc
    have hpc := hpr.of_mem_children hcm
    rw [ht.parent] at hpc
    have hcl : tree.isLive c = true := by
      rw [ht.children] at hcm
      split at hcm
      · simp at hcm
      · exact (h.of_mem_children hcm).2
    refine ⟨(hpar c).trans hpc, (hlive_iff c).mpr ⟨hcl, fun hv => ?_⟩⟩
    rw [ancestors_eq h.ordered, hpc] at hv
    rcases List.mem_cons.mp hv with rfl | hv
    · obtain rfl : parent = p := Option.some.inj (hparent.symm.trans hpc)
      simp at hc
    · rw [ht.children, if_pos (hs.complete p (h.parent_live hcl hpc)
        ⟨version, by simp, by simpa using hv⟩)] at hcm
      simp at hcm
  · intro i v
    have : (tree.remove version).2.ownedVariables v = tree.ownedVariables v := by
      rw [hremove]
      exact (ownedVariables_modifyNode _ _ _ _ (by intro; rfl)).trans (ht.ownedVariables v)
    rw [this, hremove]
    exact ht.varInfos ▸ h.owned_iff
  · rw [hremove]; simpa [modifyNode] using ht.length
  · rw [hremove]; exact ht.varInfos
  · intro w hw
    rw [hremove] at hw
    exact hmem w hw
  · intro w hw
    rw [hlv, ht.isLive, Bool.and_eq_true, decide_eq_true_eq] at hw
    rw [hch, ht.children, if_neg hw.2]

end Remove

end VersionTree

end Sage
