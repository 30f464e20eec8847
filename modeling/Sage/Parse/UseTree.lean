import Mathlib.Data.List.Basic
import Sage.Parse.Paths

/-!
# Parse — use trees

`parse/items.rs`: the imports of a `use` declaration.  The source flattens a tree with a prefix
that grows on the way down; here the leaves of a tree are listed first, each with the paths around
it, and both what the source emits and what Rust imports are read off a leaf.

* `collectUseTree` — the source's flattening.
* `UseTree.leaves`, `Leaf.imported` — the imports that Rust gives a tree, as written paths.
* `collectUseTree_eq_iff` — the source emits these, with the paths that expressions denote, exactly
  when no leaf has a leading `::` or a `self` or `crate` below a prefix.
-/

namespace Sage

/-- The nodes of a use tree; anything else, such as a comment, is `other`. -/
inductive UseTree where
  | path (node : PathNode)
  | asClause (source : PathNode) (rename : Name)
  | list (children : List UseTree)
  | scopedList (path : Option PathNode) (children : List UseTree)
  | wildcard (path : Option PathNode)
  | other

inductive UseKind where
  | named (name : Name)
  | glob
  | unnamed
deriving DecidableEq

structure UseImport where
  path : Path
  kind : UseKind
deriving DecidableEq

/-- The kind of a renamed import. -/
def UseKind.ofAlias (text : Name) : UseKind := if text = "_" then .unnamed else .named text

/-! ### The source -/

def applyUseAnchorNode : PathNode → PathParts → PathParts
  | .self, full => { full with anchor := some .self_ }
  | .crate, full => { full with anchor := some .currentCrate }
  | .super, full => full.super
  | _, full => full

def collectUseScopedParts : PathNode → PathParts → PathParts
  | .identifier text, full => full.push text.1
  | .scopedIdentifier path name, full => (collectUseScopedParts path full).pushName name
  | .globalIdentifier name, full => full.pushName name
  | .self, full => applyUseAnchorNode .self full
  | .crate, full => applyUseAnchorNode .crate full
  | .super, full => applyUseAnchorNode .super full

mutual

/-- The imports of a tree below a prefix, in order; `none` is a panic. -/
def collectUseTree (pre : PathParts) : UseTree → Option (List UseImport)
  | .path (.identifier text) => do return [⟨← (pre.push text.1).alloc, .named text.1⟩]
  | .path .self => do return [⟨← (applyUseAnchorNode .self pre).alloc, .named "self"⟩]
  | .path .crate => do return [⟨← (applyUseAnchorNode .crate pre).alloc, .named "crate"⟩]
  | .path .super => do return [⟨← (applyUseAnchorNode .super pre).alloc, .named "super"⟩]
  | .path (.scopedIdentifier path name) => do
      let full := collectUseScopedParts (.scopedIdentifier path name) pre
      return [⟨← full.alloc, .named name⟩]
  | .path (.globalIdentifier name) => do
      let full := collectUseScopedParts (.globalIdentifier name) pre
      return [⟨← full.alloc, .named name⟩]
  | .asClause source rename => do
      return [⟨← (collectUseScopedParts source pre).alloc, .ofAlias rename⟩]
  | .list children => collectUseList pre children
  | .scopedList path children =>
      collectUseList (path.elim pre (collectUseScopedParts · pre)) children
  | .wildcard path => do
      let full := path.elim pre (collectUseScopedParts · pre)
      if full = .empty then return []
      return [⟨← full.alloc, .glob⟩]
  | .other => some []

def collectUseList (pre : PathParts) : List UseTree → Option (List UseImport)
  | [] => some []
  | child :: children => do
      return (← collectUseTree pre child) ++ (← collectUseList pre children)

end

/-! ### The leaves of a tree -/

inductive LeafItem where
  | path (node : PathNode)
  | renamed (source : PathNode) (rename : Name)
  | glob (path : Option PathNode)

/-- A leaf with the paths of the lists around it, outermost first; a list without a path starts
with `::`. -/
structure Leaf where
  prefixes : List (Option PathNode)
  inList : Bool
  item : LeafItem

mutual

def UseTree.leavesBelow (prefixes : List (Option PathNode)) (inList : Bool) : UseTree → List Leaf
  | .path node => [⟨prefixes, inList, .path node⟩]
  | .asClause source rename => [⟨prefixes, inList, .renamed source rename⟩]
  | .list children => UseTree.leavesOfList prefixes children
  | .scopedList node children => UseTree.leavesOfList (prefixes ++ [node]) children
  | .wildcard node => [⟨prefixes, inList, .glob node⟩]
  | .other => []

def UseTree.leavesOfList (prefixes : List (Option PathNode)) : List UseTree → List Leaf
  | [] => []
  | child :: children =>
      UseTree.leavesBelow prefixes true child ++ UseTree.leavesOfList prefixes children

end

def UseTree.leaves (tree : UseTree) : List Leaf := tree.leavesBelow [] false

/-! ### What Rust imports -/

/-- What is written before a node: nothing, `::`, or a path and `::`. -/
inductive Written where
  | start
  | root
  | path (node : PathNode)

namespace PathNode

/-- The last segment. -/
def text : PathNode → Name
  | identifier text => text.1
  | self => "self"
  | crate => "crate"
  | super => "super"
  | scopedIdentifier _ name | globalIdentifier name => name

/-- The path written with `::` before it. -/
def atRoot : PathNode → PathNode
  | scopedIdentifier path name => scopedIdentifier path.atRoot name
  | node => globalIdentifier node.text

/-- The path written after another one. -/
def append (before : PathNode) : PathNode → PathNode
  | scopedIdentifier path name => scopedIdentifier (before.append path) name
  | node => scopedIdentifier before node.text

end PathNode

/-- The whole path up to a node. -/
def Written.append : Written → PathNode → PathNode
  | start, node => node
  | root, node => node.atRoot
  | path before, node => before.append node

/-- What is written before the children of a list. -/
def Written.enter : Written → Option PathNode → Written
  | before, some node => path (before.append node)
  | start, none => root
  | before, none => before

def Leaf.before (leaf : Leaf) : Written := leaf.prefixes.foldl Written.enter .start

/-- The path of a leaf.  A `self` in a list is the path before the list. -/
def Written.leaf : Written → Bool → PathNode → PathNode
  | path before, true, .self => before
  | before, _, node => before.append node

/-- The path that a leaf imports from, and what the import binds: the rename, or the last segment
of the path. -/
def Leaf.imported (leaf : Leaf) : Option (PathNode × UseKind) :=
  match leaf.item, leaf.before with
  | .path node, before =>
      some (before.leaf leaf.inList node, .named (before.leaf leaf.inList node).text)
  | .renamed source rename, before => some (before.leaf leaf.inList source, .ofAlias rename)
  | .glob (some node), before => some (before.append node, .glob)
  | .glob none, .path before => some (before, .glob)
  | .glob none, _ => none

/-- The imports of a tree, with the paths that its leaves denote in an expression. -/
def UseTree.imports (tree : UseTree) : Option (List UseImport) :=
  (tree.leaves.filterMap Leaf.imported).mapM fun (node, kind) => do return ⟨← buildPath node, kind⟩

/-! ### Where the source agrees -/

/-- The first node of a path. -/
def PathNode.first : PathNode → PathNode
  | scopedIdentifier path _ => path.first
  | node => node

def PathNode.IsGlobal : PathNode → Prop
  | globalIdentifier _ => True
  | _ => False

/-- A path made of `self` and names. -/
def PathNode.SelfAnchored : PathNode → Prop
  | self => True
  | scopedIdentifier path name => path.SelfAnchored ∧ name ≠ "super"
  | _ => False

/-- The node does not start with `::`, nor with `self` or `crate` below a path, and no `::` is
written around it. -/
def Written.Fits : Written → PathNode → Prop
  | start, node => ¬ node.first.IsGlobal
  | root, _ => False
  | path _, node => node.first ≠ .self ∧ node.first ≠ .crate

def Written.FitsAll : Written → List (Option PathNode) → Prop
  | _, [] => True
  | before, none :: prefixes => (before.enter none).FitsAll prefixes
  | before, some node :: prefixes =>
      before.Fits node ∧ (before.enter (some node)).FitsAll prefixes

/-- A `self` in a list fits when the path before the list is anchored at `self`. -/
def Written.FitsLeaf : Written → Bool → PathNode → Prop
  | path before, true, .self => before.SelfAnchored
  | before, _, node => before.Fits node

/-- Without a rename, the name of the node is the last segment of the path. -/
def LeafItem.Fits (before : Written) (inList : Bool) : LeafItem → Prop
  | .path node => before.FitsLeaf inList node ∧ node.text = (before.leaf inList node).text
  | .renamed source _ => before.FitsLeaf inList source
  | .glob (some node) => before.Fits node
  | .glob none => True

def Leaf.Fits (leaf : Leaf) : Prop :=
  Written.start.FitsAll leaf.prefixes ∧ leaf.item.Fits leaf.before leaf.inList

/-! ### Emitted and denoted parts -/

/-- What the source collects for the path of a list or of a glob. -/
def collectOptional (pre : PathParts) (path : Option PathNode) : PathParts :=
  path.elim pre (collectUseScopedParts · pre)

def prefixParts (prefixes : List (Option PathNode)) : PathParts :=
  prefixes.foldl collectOptional .empty

/-- What the source makes of a leaf. -/
def LeafItem.emitted (pre : PathParts) : LeafItem → List (PathParts × UseKind)
  | .path node => [(collectUseScopedParts node pre, .named node.text)]
  | .renamed source rename => [(collectUseScopedParts source pre, .ofAlias rename)]
  | .glob node =>
      let full := collectOptional pre node
      if full = .empty then [] else [(full, .glob)]

def Leaf.emitted (leaf : Leaf) : List (PathParts × UseKind) :=
  leaf.item.emitted (prefixParts leaf.prefixes)

/-- What a leaf denotes. -/
def Leaf.denoted (leaf : Leaf) : List (PathParts × UseKind) :=
  leaf.imported.toList.map fun (node, kind) => (collectScopedParts node .empty, kind)

def allocImport (parts : PathParts × UseKind) : Option UseImport := do
  return ⟨← parts.1.alloc, parts.2⟩

theorem UseTree.imports_eq (tree : UseTree) :
    tree.imports = (tree.leaves.flatMap Leaf.denoted).mapM allocImport := by
  have hdenoted : tree.leaves.flatMap Leaf.denoted = (tree.leaves.filterMap Leaf.imported).map
      fun (node, kind) => (collectScopedParts node .empty, kind) := by
    rw [List.filterMap_eq_flatMap_toList, List.map_flatMap]
    rfl
  rw [hdenoted, List.mapM_map, imports]
  refine congrArg (fun f => List.mapM f (tree.leaves.filterMap Leaf.imported)) ?_
  funext ⟨node, kind⟩
  show (buildPath node).bind _ = _
  rw [buildPath_eq]
  rfl

theorem mapM_allocImport (parts : PathParts) (kind : UseKind) :
    [(parts, kind)].mapM allocImport = do return [⟨← parts.alloc, kind⟩] := by
  rw [List.mapM_cons, List.mapM_nil, allocImport]
  cases parts.alloc <;> rfl

mutual

theorem collectUseTree_leaves (prefixes : List (Option PathNode)) (inList : Bool) :
    ∀ tree : UseTree, collectUseTree (prefixParts prefixes) tree =
      ((tree.leavesBelow prefixes inList).flatMap Leaf.emitted).mapM allocImport
  | .path node => by
      show _ = [(collectUseScopedParts node (prefixParts prefixes), _)].mapM allocImport
      rw [mapM_allocImport]
      cases node <;> rfl
  | .asClause source rename => by
      show _ = [(collectUseScopedParts source (prefixParts prefixes), _)].mapM allocImport
      rw [mapM_allocImport]
      rfl
  | .list children => collectUseList_leaves prefixes children
  | .scopedList node children => by
      have hchildren := collectUseList_leaves (prefixes ++ [node]) children
      rwa [prefixParts, List.foldl_concat] at hchildren
  | .wildcard node => by
      show _ = ((Leaf.mk prefixes inList (.glob node)).emitted ++ []).mapM allocImport
      rw [List.append_nil, Leaf.emitted, LeafItem.emitted, collectUseTree]
      show (if collectOptional _ node = _ then _ else _) = _
      split
      · rfl
      · exact (mapM_allocImport _ _).symm
  | .other => rfl

theorem collectUseList_leaves (prefixes : List (Option PathNode)) : ∀ children : List UseTree,
    collectUseList (prefixParts prefixes) children =
      ((UseTree.leavesOfList prefixes children).flatMap Leaf.emitted).mapM allocImport
  | [] => rfl
  | child :: children => by
      rw [collectUseList, UseTree.leavesOfList, List.flatMap_append, List.mapM_append,
        collectUseTree_leaves prefixes true child, collectUseList_leaves prefixes children]

end

/-! ### Collecting below a prefix -/

def PathAnchorKind.AtExtern : PathAnchorKind → Prop
  | externCrate _ => True
  | super inner => inner.AtExtern
  | _ => False

namespace PathParts

/-- The anchor is an extern crate, or above one. -/
def AtExtern (parts : PathParts) : Prop := parts.anchor.elim False PathAnchorKind.AtExtern

theorem atExtern_super {parts : PathParts} : parts.super.AtExtern ↔ parts.AtExtern := by
  obtain ⟨_ | anchor, segments⟩ := parts <;> exact Iff.rfl

theorem atExtern_pushName {parts : PathParts} {name : Name} :
    (parts.pushName name).AtExtern ↔ parts.AtExtern := by
  rw [pushName]
  split
  · exact atExtern_super
  · exact Iff.rfl

theorem length_pushName (parts : PathParts) (name : Name) : (parts.pushName name).segments.length =
    parts.segments.length + if name = "super" then 0 else 1 := by
  rw [pushName]
  split
  · rfl
  · exact List.length_append

theorem pushName_text (parts : PathParts) (text : Ident) :
    parts.pushName text.1 = parts.push text.1 := by
  refine if_neg fun h => text.2 ?_
  rw [h]
  decide

/-- The source's parts are not those that are denoted: these are of an extern crate, or they have
more segments. -/
def Behind (pre parts : PathParts) : Prop :=
  parts.AtExtern ∨ pre.segments.length < parts.segments.length

theorem Behind.ne {pre parts : PathParts} (h : pre.Behind parts) (hpre : ¬ pre.AtExtern) :
    pre ≠ parts := by
  rintro rfl
  exact h.elim hpre (Nat.lt_irrefl _)

end PathParts

/-- What a path adds to what is written before it. -/
def collectAfter : PathNode → PathParts → PathParts
  | .scopedIdentifier path name, parts => (collectAfter path parts).pushName name
  | node, parts => parts.pushName node.text

theorem collectScopedParts_append (before node : PathNode) (parts : PathParts) :
    collectScopedParts (before.append node) parts =
      collectAfter node (collectScopedParts before parts) := by
  induction node with
  | scopedIdentifier path name ih => exact congrArg (PathParts.pushName · name) ih
  | identifier | self | crate | super | globalIdentifier => rfl

theorem atExtern_atRoot (node : PathNode) (parts : PathParts) :
    (collectScopedParts node.atRoot parts).AtExtern := by
  induction node with
  | scopedIdentifier path name ih => exact PathParts.atExtern_pushName.mpr ih
  | identifier | self | crate | super | globalIdentifier => trivial

theorem atExtern_of_isGlobal {node : PathNode} (h : node.first.IsGlobal) (parts : PathParts) :
    (collectScopedParts node parts).AtExtern := by
  induction node with
  | scopedIdentifier path name ih => exact PathParts.atExtern_pushName.mpr (ih h)
  | globalIdentifier => trivial
  | identifier | self | crate | super => exact h.elim

theorem PathParts.AtExtern.after {parts : PathParts} (h : parts.AtExtern) (node : PathNode) :
    (collectAfter node parts).AtExtern := by
  induction node with
  | scopedIdentifier path name ih => exact PathParts.atExtern_pushName.mpr ih
  | identifier | self | crate | super | globalIdentifier =>
      exact PathParts.atExtern_pushName.mpr h

/-- The source anchors nothing at an extern crate. -/
theorem not_atExtern_use {pre : PathParts} (h : ¬ pre.AtExtern) (node : PathNode) :
    ¬ (collectUseScopedParts node pre).AtExtern := by
  induction node with
  | scopedIdentifier path name ih => exact fun h' => ih (PathParts.atExtern_pushName.mp h')
  | globalIdentifier name => exact fun h' => h (PathParts.atExtern_pushName.mp h')
  | identifier => exact h
  | self | crate => exact id
  | super => exact fun h' => h (PathParts.atExtern_super.mp h')

theorem collectUse_eq_scoped {node : PathNode} (h : ¬ node.first.IsGlobal) (pre : PathParts) :
    collectUseScopedParts node pre = collectScopedParts node pre := by
  induction node with
  | scopedIdentifier path name ih => exact congrArg (PathParts.pushName · name) (ih h)
  | globalIdentifier => exact absurd trivial h
  | identifier | self | crate | super => rfl

theorem collectUse_eq_after {node : PathNode} (h : node.first ≠ .self ∧ node.first ≠ .crate)
    (pre : PathParts) : collectUseScopedParts node pre = collectAfter node pre := by
  induction node with
  | scopedIdentifier path name ih => exact congrArg (PathParts.pushName · name) (ih h)
  | identifier text => exact (pre.pushName_text text).symm
  | self => exact absurd rfl h.1
  | crate => exact absurd rfl h.2
  | super | globalIdentifier => rfl

theorem length_after {pre parts : PathParts} (h : pre.segments.length < parts.segments.length)
    (node : PathNode) :
    (collectUseScopedParts node pre).segments.length < (collectAfter node parts).segments.length := by
  induction node with
  | scopedIdentifier path name ih =>
      rw [collectUseScopedParts, collectAfter, PathParts.length_pushName, PathParts.length_pushName]
      exact Nat.add_lt_add_right ih _
  | globalIdentifier name =>
      show (pre.pushName _).segments.length < (parts.pushName _).segments.length
      rw [PathParts.length_pushName, PathParts.length_pushName]
      exact Nat.add_lt_add_right h _
  | identifier text =>
      show (pre.push _).segments.length < (parts.pushName _).segments.length
      rw [← PathParts.pushName_text, PathParts.length_pushName, PathParts.length_pushName]
      exact Nat.add_lt_add_right h _
  | self | crate | super =>
      show _ < (parts.pushName _).segments.length
      rw [PathParts.length_pushName]
      exact Nat.lt_add_right _ h

/-- Where the source takes a first node for the anchor, the path has it as a segment. -/
theorem length_after_of_first {pre parts : PathParts}
    (h : pre.segments.length ≤ parts.segments.length) {node : PathNode}
    (hfirst : ¬ (node.first ≠ .self ∧ node.first ≠ .crate)) :
    (collectUseScopedParts node pre).segments.length < (collectAfter node parts).segments.length := by
  induction node with
  | scopedIdentifier path name ih =>
      rw [collectUseScopedParts, collectAfter, PathParts.length_pushName, PathParts.length_pushName]
      exact Nat.add_lt_add_right (ih hfirst) _
  | self | crate =>
      show _ < (parts.pushName _).segments.length
      rw [PathParts.length_pushName]
      exact Nat.lt_succ_of_le h
  | identifier | super | globalIdentifier => exact absurd ⟨nofun, nofun⟩ hfirst

theorem PathParts.Behind.after {pre parts : PathParts} (h : pre.Behind parts) (node : PathNode) :
    (collectUseScopedParts node pre).Behind (collectAfter node parts) :=
  h.imp (fun h => h.after node) fun h => length_after h node

theorem nonempty_collectUse (node : PathNode) (pre : PathParts) :
    (collectUseScopedParts node pre).Nonempty := by
  cases node with
  | identifier text => exact pre.nonempty_push text.1
  | self | crate => exact .inl rfl
  | super => exact pre.nonempty_super
  | globalIdentifier name => exact pre.nonempty_pushName name
  | scopedIdentifier path name => exact (collectUseScopedParts path pre).nonempty_pushName name

/-! ### The paths around a leaf -/

/-- The source has collected what is written. -/
def Written.Tracks (pre : PathParts) : Written → Prop
  | start | root => pre = .empty
  | path before => pre = collectScopedParts before .empty

variable {before : Written} {pre : PathParts} {node : PathNode}

theorem Written.Tracks.append (h : before.Tracks pre) (hfits : before.Fits node) :
    collectUseScopedParts node pre = collectScopedParts (before.append node) .empty := by
  cases before with
  | start =>
      obtain rfl : pre = .empty := h
      exact collectUse_eq_scoped hfits _
  | root => exact hfits.elim
  | path before =>
      obtain rfl : pre = collectScopedParts before .empty := h
      exact (collectUse_eq_after hfits _).trans (collectScopedParts_append ..).symm

theorem Written.Tracks.behind (h : before.Tracks pre) (hfits : ¬ before.Fits node) :
    (collectUseScopedParts node pre).Behind (collectScopedParts (before.append node) .empty) := by
  cases before with
  | start => exact .inl (atExtern_of_isGlobal (not_not.mp hfits) _)
  | root => exact .inl (atExtern_atRoot node _)
  | path before =>
      obtain rfl : pre = collectScopedParts before .empty := h
      have hlt := length_after_of_first
        (Nat.le_refl (collectScopedParts before .empty).segments.length) hfits
      rw [← collectScopedParts_append] at hlt
      exact .inr hlt

/-- What is behind stays behind. -/
theorem behind_foldl (prefixes : List (Option PathNode)) : ∀ {before : PathNode} {pre : PathParts},
    pre.Behind (collectScopedParts before .empty) →
    ∃ before', prefixes.foldl Written.enter (.path before) = .path before' ∧
      (prefixes.foldl collectOptional pre).Behind (collectScopedParts before' .empty) := by
  induction prefixes with
  | nil => exact fun h => ⟨_, rfl, h⟩
  | cons node prefixes ih =>
      intro before pre h
      cases node with
      | none => exact ih h
      | some node =>
          have hnext := h.after node
          rw [← collectScopedParts_append] at hnext
          exact ih hnext

/-- The source keeps track of what is written as long as every path fits, and is behind from the
first one on that does not. -/
theorem tracks_foldl (prefixes : List (Option PathNode)) : ∀ {before : Written} {pre : PathParts},
    before.Tracks pre →
    (before.FitsAll prefixes ∧
      (prefixes.foldl Written.enter before).Tracks (prefixes.foldl collectOptional pre)) ∨
    (¬ before.FitsAll prefixes ∧ ∃ before', prefixes.foldl Written.enter before = .path before' ∧
      (prefixes.foldl collectOptional pre).Behind (collectScopedParts before' .empty)) := by
  induction prefixes with
  | nil => exact fun h => .inl ⟨trivial, h⟩
  | cons node prefixes ih =>
      intro before pre h
      cases node with
      | none =>
          refine ih ?_
          cases before <;> exact h
      | some node =>
          by_cases hfits : before.Fits node
          · have hnext : (before.enter (some node)).Tracks (collectUseScopedParts node pre) :=
              h.append hfits
            refine (ih hnext).imp (fun h => ⟨⟨hfits, h.1⟩, h.2⟩) fun h => ⟨fun h' => h.1 h'.2, h.2⟩
          · exact .inr ⟨fun h' => hfits h'.1, behind_foldl prefixes (h.behind hfits)⟩

theorem not_atExtern_prefixParts (prefixes : List (Option PathNode)) :
    ¬ (prefixParts prefixes).AtExtern := by
  have hfold : ∀ pre : PathParts, ¬ pre.AtExtern →
      ¬ (prefixes.foldl collectOptional pre).AtExtern := by
    induction prefixes with
    | nil => exact fun _ h => h
    | cons node prefixes ih =>
        intro pre h
        cases node with
        | none => exact ih pre h
        | some node => exact ih _ (not_atExtern_use h node)
  exact hfold .empty id

/-- Nothing is collected exactly when no path is written. -/
theorem prefixParts_eq_empty (prefixes : List (Option PathNode)) :
    prefixParts prefixes = .empty ↔ ∀ node, prefixes.foldl Written.enter .start ≠ .path node := by
  have hfold : ∀ (pre : PathParts) (before : Written), (pre = .empty ↔ ∀ node, before ≠ .path node) →
      (prefixes.foldl collectOptional pre = .empty ↔
        ∀ node, prefixes.foldl Written.enter before ≠ .path node) := by
    induction prefixes with
    | nil => exact fun _ _ h => h
    | cons node prefixes ih =>
        intro pre before h
        refine ih _ _ ?_
        cases node with
        | none =>
            refine h.trans ?_
            cases before with
            | start | root => exact ⟨fun _ => nofun, fun _ => nofun⟩
            | path before => exact Iff.rfl
        | some node =>
            exact ⟨fun h => absurd h (nonempty_collectUse node pre).ne_empty,
              fun h => absurd rfl (h _)⟩
  exact hfold .empty .start ⟨fun _ => nofun, fun _ => rfl⟩

theorem nonempty_of_path {prefixes : List (Option PathNode)} {node : PathNode}
    (h : prefixes.foldl Written.enter .start = .path node) : prefixParts prefixes ≠ .empty :=
  fun hempty => (prefixParts_eq_empty prefixes).mp hempty node h

/-! ### Leaves -/

section Leaves

variable {prefixes : List (Option PathNode)}

theorem tracks_prefixParts (prefixes : List (Option PathNode)) :
    (Written.start.FitsAll prefixes ∧
      (prefixes.foldl Written.enter .start).Tracks (prefixParts prefixes)) ∨
    (¬ Written.start.FitsAll prefixes ∧ ∃ node, prefixes.foldl Written.enter .start = .path node ∧
      (prefixParts prefixes).Behind (collectScopedParts node .empty)) :=
  tracks_foldl prefixes rfl

variable (prefixes) in
/-- A path after the paths around it. -/
theorem collectUse_eq_iff (node : PathNode) : collectUseScopedParts node (prefixParts prefixes) =
      collectScopedParts ((prefixes.foldl Written.enter .start).append node) .empty ↔
    Written.start.FitsAll prefixes ∧ (prefixes.foldl Written.enter .start).Fits node := by
  have hextern := not_atExtern_use (not_atExtern_prefixParts prefixes) node
  rcases tracks_prefixParts prefixes with ⟨hall, htracks⟩ | ⟨hall, before, hbefore, hbehind⟩
  · by_cases hfits : (prefixes.foldl Written.enter .start).Fits node
    · exact iff_of_true (htracks.append hfits) ⟨hall, hfits⟩
    · exact iff_of_false ((htracks.behind hfits).ne hextern) fun h => hfits h.2
  · rw [hbefore, Written.append, collectScopedParts_append]
    exact iff_of_false ((hbehind.after node).ne hextern) fun h => hall h.1

theorem collectScopedParts_anchor_self (node : PathNode) :
    (collectScopedParts node .empty).anchor = some .self_ ↔ node.SelfAnchored := by
  induction node with
  | identifier => exact iff_of_false (fun h => by cases h) id
  | self => exact ⟨fun _ => trivial, fun _ => rfl⟩
  | crate | super | globalIdentifier => exact iff_of_false (fun h => by cases h) id
  | scopedIdentifier path name ih =>
      show ((collectScopedParts path .empty).pushName name).anchor = _ ↔ _ ∧ _
      rw [PathParts.pushName, ← ih]
      split
      · exact iff_of_false (fun h => by cases h) fun h => absurd (by assumption) h.2
      · exact (and_iff_left (by assumption)).symm

/-- A `self` below a path. -/
theorem collectUse_self_eq_iff {before : PathNode}
    (h : prefixes.foldl Written.enter .start = .path before) :
    collectUseScopedParts .self (prefixParts prefixes) = collectScopedParts before .empty ↔
      Written.start.FitsAll prefixes ∧ before.SelfAnchored := by
  have hextern := not_atExtern_use (not_atExtern_prefixParts prefixes) .self
  rcases tracks_prefixParts prefixes with ⟨hall, htracks⟩ | ⟨hall, before', hbefore, hbehind⟩
  · rw [h] at htracks
    rw [show prefixParts prefixes = _ from htracks, ← collectScopedParts_anchor_self]
    constructor
    · exact fun heq => ⟨hall, congrArg PathParts.anchor heq.symm⟩
    · exact fun h => congrArg (PathParts.mk · _) h.2.symm
  · obtain rfl := Written.path.inj (h.symm.trans hbefore)
    exact iff_of_false (PathParts.Behind.ne (hbehind.imp id id) hextern) fun h => hall h.1

/-- A glob below a path. -/
theorem prefixParts_eq_iff {before : PathNode}
    (h : prefixes.foldl Written.enter .start = .path before) :
    prefixParts prefixes = collectScopedParts before .empty ↔ Written.start.FitsAll prefixes := by
  rcases tracks_prefixParts prefixes with ⟨hall, htracks⟩ | ⟨hall, before', hbefore, hbehind⟩
  · rw [h] at htracks
    exact iff_of_true htracks hall
  · obtain rfl := Written.path.inj (h.symm.trans hbefore)
    exact iff_of_false (hbehind.ne (not_atExtern_prefixParts prefixes)) hall

theorem collectUse_leaf_eq_iff (inList : Bool) (node : PathNode) :
    collectUseScopedParts node (prefixParts prefixes) =
      collectScopedParts ((prefixes.foldl Written.enter .start).leaf inList node) .empty ↔
    Written.start.FitsAll prefixes ∧
      (prefixes.foldl Written.enter .start).FitsLeaf inList node := by
  cases hbefore : prefixes.foldl Written.enter .start with
  | start | root =>
      have happend := collectUse_eq_iff prefixes node
      rwa [hbefore] at happend
  | path before =>
      have happend := collectUse_eq_iff prefixes node
      rw [hbefore] at happend
      cases inList with
      | false => exact happend
      | true =>
          cases node with
          | self => exact collectUse_self_eq_iff hbefore
          | identifier | crate | super | scopedIdentifier | globalIdentifier => exact happend

theorem LeafItem.emitted_glob (node : PathNode) (pre : PathParts) :
    (LeafItem.glob (some node)).emitted pre = [(collectUseScopedParts node pre, .glob)] :=
  if_neg (nonempty_collectUse node pre).ne_empty

/-- A glob without a path of its own, below a path and below none. -/
theorem Leaf.glob_none (prefixes : List (Option PathNode)) (inList : Bool) :
    (∃ before, prefixes.foldl Written.enter .start = .path before ∧
      emitted ⟨prefixes, inList, .glob none⟩ = [(prefixParts prefixes, .glob)] ∧
      denoted ⟨prefixes, inList, .glob none⟩ = [(collectScopedParts before .empty, .glob)]) ∨
    emitted ⟨prefixes, inList, .glob none⟩ = [] ∧ denoted ⟨prefixes, inList, .glob none⟩ = [] ∧
      Written.start.FitsAll prefixes := by
  cases hbefore : prefixes.foldl Written.enter .start with
  | start | root =>
      have hempty := (prefixParts_eq_empty prefixes).mpr fun node => by rw [hbefore]; exact nofun
      refine .inr ⟨if_pos hempty, ?_, ?_⟩
      · rw [denoted, imported, before, hbefore]
        rfl
      · refine (tracks_prefixParts prefixes).elim And.left fun h => ?_
        obtain ⟨-, node, hnode, -⟩ := h
        rw [hbefore] at hnode
        cases hnode
  | path before =>
      refine .inl ⟨before, rfl, if_neg (nonempty_of_path hbefore), ?_⟩
      rw [denoted, imported, Leaf.before, hbefore]
      rfl

/-- The source emits as many imports for a leaf as Rust gives it. -/
theorem Leaf.length_emitted (leaf : Leaf) : leaf.emitted.length = leaf.denoted.length := by
  obtain ⟨prefixes, inList, item⟩ := leaf
  match item with
  | .path node | .renamed source rename => rfl
  | .glob (some node) =>
      rw [emitted, LeafItem.emitted_glob]
      rfl
  | .glob none =>
      rcases glob_none prefixes inList with ⟨before, -, hemitted, hdenoted⟩ | ⟨hemitted, hdenoted, -⟩
      · rw [hemitted, hdenoted]
        rfl
      · rw [hemitted, hdenoted]

theorem Leaf.emitted_eq_iff (leaf : Leaf) : leaf.emitted = leaf.denoted ↔ leaf.Fits := by
  obtain ⟨prefixes, inList, item⟩ := leaf
  match item with
  | .path node =>
      show [(_, UseKind.named _)] = [(_, UseKind.named _)] ↔ _ ∧ _ ∧ _
      rw [List.singleton_inj, Prod.mk.injEq, UseKind.named.injEq, ← and_assoc]
      exact and_congr_left' (collectUse_leaf_eq_iff inList node)
  | .renamed source rename =>
      show [(_, UseKind.ofAlias _)] = [(_, UseKind.ofAlias _)] ↔ _
      rw [List.singleton_inj, Prod.mk.injEq, and_iff_left rfl]
      exact collectUse_leaf_eq_iff inList source
  | .glob (some node) =>
      rw [emitted, LeafItem.emitted_glob]
      show [(_, UseKind.glob)] = [(_, UseKind.glob)] ↔ _
      rw [List.singleton_inj, Prod.mk.injEq, and_iff_left rfl]
      exact collectUse_eq_iff _ node
  | .glob none =>
      rcases glob_none prefixes inList with ⟨before, hbefore, hemitted, hdenoted⟩ |
        ⟨hemitted, hdenoted, hall⟩
      · rw [hemitted, hdenoted, List.singleton_inj, Prod.mk.injEq, prefixParts_eq_iff hbefore]
        exact and_congr_right fun _ => iff_of_true rfl trivial
      · exact iff_of_true (hemitted.trans hdenoted.symm) ⟨hall, trivial⟩

theorem Leaf.nonempty_emitted (leaf : Leaf) : ∀ parts ∈ leaf.emitted, parts.1.Nonempty := by
  intro parts hparts
  obtain ⟨prefixes, inList, item⟩ := leaf
  match item with
  | .path node | .renamed node rename =>
      rw [List.mem_singleton.mp hparts]
      exact nonempty_collectUse node _
  | .glob node =>
      rw [emitted, LeafItem.emitted] at hparts
      split at hparts
      · cases hparts
      · rw [List.mem_singleton.mp hparts]
        exact PathParts.nonempty_of_ne (by assumption)

theorem Leaf.nonempty_denoted (leaf : Leaf) : ∀ parts ∈ leaf.denoted, parts.1.Nonempty := by
  intro parts hparts
  obtain ⟨⟨node, kind⟩, -, rfl⟩ := List.mem_map.mp hparts
  exact nonempty_collectScopedParts node .empty

end Leaves

/-! ### Whole trees -/

theorem allocImport_isSome {parts : PathParts × UseKind} (h : parts.1.Nonempty) :
    ∃ path, parts.1.alloc = some path ∧ allocImport parts = some ⟨path, parts.2⟩ := by
  obtain ⟨path, hpath⟩ := h.alloc
  refine ⟨path, hpath, ?_⟩
  rw [allocImport, hpath]
  rfl

theorem allocImport_inj {parts parts' : PathParts × UseKind} (h : parts.1.Nonempty)
    (h' : parts'.1.Nonempty) (heq : allocImport parts = allocImport parts') : parts = parts' := by
  obtain ⟨path, hpath, halloc⟩ := allocImport_isSome h
  obtain ⟨path', hpath', halloc'⟩ := allocImport_isSome h'
  rw [halloc, halloc'] at heq
  obtain ⟨rfl, hkind⟩ := UseImport.mk.inj (Option.some.inj heq)
  exact Prod.ext (PathParts.alloc_inj hpath hpath') hkind

/-- A partial map that is defined and injective on the elements of two lists tells the lists
apart. -/
theorem mapM_inj {α β : Type} {f : α → Option β} {P : α → Prop} (hsome : ∀ a, P a → (f a).isSome)
    (hinj : ∀ a a', P a → P a' → f a = f a' → a = a') : ∀ {l l' : List α}, (∀ a ∈ l, P a) →
    (∀ a ∈ l', P a) → l.mapM f = l'.mapM f → l = l' := by
  have hdefined : ∀ {l : List α}, (∀ a ∈ l, P a) → ∃ bs, l.mapM f = some bs := by
    intro l h
    induction l with
    | nil => exact ⟨[], rfl⟩
    | cons a l ih =>
        obtain ⟨ha, hl⟩ := List.forall_mem_cons.mp h
        obtain ⟨b, hb⟩ := Option.isSome_iff_exists.mp (hsome a ha)
        obtain ⟨bs, hbs⟩ := ih hl
        refine ⟨b :: bs, ?_⟩
        rw [List.mapM_cons, hb, hbs]
        rfl
  have hcons : ∀ {a : α} {l : List α}, (∀ a' ∈ a :: l, P a') → ∃ b bs, f a = some b ∧
      l.mapM f = some bs ∧ (a :: l).mapM f = some (b :: bs) := by
    intro a l h
    obtain ⟨ha, hl⟩ := List.forall_mem_cons.mp h
    obtain ⟨b, hb⟩ := Option.isSome_iff_exists.mp (hsome a ha)
    obtain ⟨bs, hbs⟩ := hdefined hl
    refine ⟨b, bs, hb, hbs, ?_⟩
    rw [List.mapM_cons, hb, hbs]
    rfl
  intro l
  induction l with
  | nil =>
      intro l' _ h' heq
      cases l' with
      | nil => rfl
      | cons a' l' =>
          obtain ⟨b, bs, -, -, hmap⟩ := hcons h'
          rw [hmap] at heq
          cases heq
  | cons a l ih =>
      intro l' h h' heq
      obtain ⟨b, bs, hb, hbs, hmap⟩ := hcons h
      rw [hmap] at heq
      cases l' with
      | nil => cases heq
      | cons a' l' =>
          obtain ⟨b', bs', hb', hbs', hmap'⟩ := hcons h'
          rw [hmap'] at heq
          obtain ⟨rfl, rfl⟩ := List.cons.inj (Option.some.inj heq)
          obtain ⟨ha, hl⟩ := List.forall_mem_cons.mp h
          obtain ⟨ha', hl'⟩ := List.forall_mem_cons.mp h'
          rw [hinj a a' ha ha' (hb.trans hb'.symm), ih hl hl' (hbs.trans hbs'.symm)]

/-- Allocating paths loses nothing. -/
theorem mapM_allocImport_inj {all all' : List (PathParts × UseKind)}
    (h : ∀ parts ∈ all, parts.1.Nonempty) (h' : ∀ parts ∈ all', parts.1.Nonempty) :
    all.mapM allocImport = all'.mapM allocImport ↔ all = all' := by
  refine ⟨fun heq => mapM_inj (fun parts hparts => ?_) (fun _ _ => allocImport_inj) h h' heq,
    fun heq => by rw [heq]⟩
  obtain ⟨path, -, halloc⟩ := allocImport_isSome hparts
  rw [halloc]
  rfl

/-- Lists that are made of equally long parts are equal exactly when the parts are. -/
theorem flatMap_eq_iff {α β : Type} {f g : α → List β} (h : ∀ a, (f a).length = (g a).length) :
    ∀ {l : List α}, l.flatMap f = l.flatMap g ↔ ∀ a ∈ l, f a = g a := by
  intro l
  induction l with
  | nil => exact iff_of_true rfl nofun
  | cons a l ih =>
      rw [List.flatMap_cons, List.flatMap_cons, List.forall_mem_cons, ← ih]
      exact ⟨fun heq => List.append_inj heq (h a), fun heq => congrArg₂ (· ++ ·) heq.1 heq.2⟩

/-- For every use tree, the source emits exactly the imports that Rust gives it, with the paths
that its leaves denote in an expression, if and only if every leaf fits. -/
theorem collectUseTree_eq_iff (tree : UseTree) :
    collectUseTree .empty tree = tree.imports ↔ ∀ leaf ∈ tree.leaves, leaf.Fits := by
  have hleaves := collectUseTree_leaves [] false tree
  rw [prefixParts, List.foldl_nil] at hleaves
  rw [hleaves, tree.imports_eq, mapM_allocImport_inj, UseTree.leaves,
    flatMap_eq_iff Leaf.length_emitted]
  · simp only [Leaf.emitted_eq_iff]
  · intro parts hparts
    obtain ⟨leaf, -, hparts⟩ := List.mem_flatMap.mp hparts
    exact leaf.nonempty_emitted parts hparts
  · intro parts hparts
    obtain ⟨leaf, -, hparts⟩ := List.mem_flatMap.mp hparts
    exact leaf.nonempty_denoted parts hparts

/-- `use ::std::io;` takes `std` for a name in the module, and `use std::io::{self};` takes the
module itself for the anchor and binds `self`. -/
theorem collectUseTree_ne_imports :
    let leading := UseTree.path (.scopedIdentifier (.globalIdentifier "std") "io")
    let std := PathNode.identifier ⟨"std", by decide⟩
    let selfLeaf := UseTree.scopedList (some (.scopedIdentifier std "io")) [.path .self]
    collectUseTree .empty leading = some [⟨.relative "std" ["io"], .named "io"⟩] ∧
      leading.imports = some [⟨.anchored (.externCrate "std") ["io"], .named "io"⟩] ∧
      collectUseTree .empty selfLeaf = some [⟨.anchored .self_ ["std", "io"], .named "self"⟩] ∧
      selfLeaf.imports = some [⟨.relative "std" ["io"], .named "io"⟩] ∧
      ¬ ∀ tree : UseTree, collectUseTree .empty tree = tree.imports := by
  refine ⟨by decide, by decide, by decide, by decide, fun h => ?_⟩
  have hleading := h (.path (.scopedIdentifier (.globalIdentifier "std") "io"))
  exact absurd hleading (by decide)

end Sage
