/-!
# Parse — paths

`parse/paths.rs`: the path of an expression, from its syntax node.  Anchors (`self`, `crate`,
`super`, a leading `::`) come first, segments follow.

* `PathNode` — the nodes a path is written with.
* `buildPath` — the path of a node; `none` is a panic, which `buildPath_isSome` excludes.
-/

namespace Sage

abbrev Name := String

/-- An identifier is not a keyword of paths. -/
abbrev Ident := { text : Name // text ∉ ["self", "crate", "super"] }

/-- The nodes of a path.  A `scoped_identifier` has a name and, unless it starts with `::`, a path
before it. -/
inductive PathNode where
  | identifier (text : Ident)
  | self
  | crate
  | super
  | scopedIdentifier (path : PathNode) (name : Name)
  | globalIdentifier (name : Name)
deriving DecidableEq

inductive PathAnchorKind where
  | externCrate (name : Name)
  | currentCrate
  | self_
  | super (inner : PathAnchorKind)
deriving DecidableEq

inductive Path where
  | anchored (anchor : PathAnchorKind) (segments : List Name)
  | relative (first : Name) (rest : List Name)
deriving DecidableEq

/-- What is collected of a path: its anchor and its segments. -/
structure PathParts where
  anchor : Option PathAnchorKind
  segments : List Name
deriving DecidableEq

namespace PathParts

def empty : PathParts := ⟨none, []⟩

/-- `super` extends the anchor, which is `self` where none is written. -/
def super (parts : PathParts) : PathParts :=
  { parts with anchor := some (.super (parts.anchor.getD .self_)) }

def push (parts : PathParts) (name : Name) : PathParts :=
  { parts with segments := parts.segments ++ [name] }

/-- A name after `::`. -/
def pushName (parts : PathParts) (name : Name) : PathParts :=
  if name = "super" then parts.super else parts.push name

/-- A relative path has a segment. -/
def alloc (parts : PathParts) : Option Path :=
  match parts.anchor, parts.segments with
  | some anchor, segments => some (.anchored anchor segments)
  | none, first :: rest => some (.relative first rest)
  | none, [] => none

end PathParts

def collectScopedParts : PathNode → PathParts → PathParts
  | .scopedIdentifier path name, parts => (collectScopedParts path parts).pushName name
  -- a leading `::` with no path is an extern crate
  | .globalIdentifier name, parts => { parts with anchor := some (.externCrate name) }
  | .self, parts => { parts with anchor := some .self_ }
  | .crate, parts => { parts with anchor := some .currentCrate }
  | .super, parts => parts.super
  | .identifier text, parts => parts.push text.1

def buildScopedIdentifier (node : PathNode) : Option Path :=
  (collectScopedParts node .empty).alloc

def buildPath : PathNode → Option Path
  | .self => some (.anchored .self_ [])
  | .crate => some (.anchored .currentCrate [])
  | .super => some (.anchored (.super .self_) [])
  | .identifier text => some (.relative text.1 [])
  | node => buildScopedIdentifier node

namespace PathParts

theorem alloc_inj {parts parts' : PathParts} {path : Path} (h : parts.alloc = some path)
    (h' : parts'.alloc = some path) : parts = parts' := by
  obtain ⟨anchor, segments⟩ := parts
  obtain ⟨anchor', segments'⟩ := parts'
  cases anchor with
  | none =>
      cases segments with
      | nil => cases h
      | cons first rest =>
          obtain rfl := Option.some.inj h
          cases anchor' with
          | some anchor' => cases h'
          | none =>
              cases segments' with
              | nil => cases h'
              | cons first' rest' =>
                  cases h'
                  rfl
  | some anchor =>
      obtain rfl := Option.some.inj h
      cases anchor' with
      | some anchor' =>
          cases h'
          rfl
      | none => cases segments' <;> cases h'

/-- Something was collected. -/
def Nonempty (parts : PathParts) : Prop := parts.anchor.isSome ∨ parts.segments ≠ []

theorem Nonempty.alloc {parts : PathParts} (h : parts.Nonempty) :
    ∃ path, parts.alloc = some path := by
  obtain ⟨_ | anchor, segments⟩ := parts
  · cases segments with
    | nil => exact absurd h (by simp [Nonempty])
    | cons first rest => exact ⟨_, rfl⟩
  · exact ⟨_, rfl⟩

theorem Nonempty.ne_empty {parts : PathParts} (h : parts.Nonempty) : parts ≠ .empty := by
  rintro rfl
  exact h.elim nofun fun h => h rfl

theorem nonempty_of_ne {parts : PathParts} (h : parts ≠ .empty) : parts.Nonempty := by
  obtain ⟨_ | anchor, segments⟩ := parts
  · exact .inr fun hnil => h (congrArg (PathParts.mk none) hnil)
  · exact .inl rfl

theorem nonempty_super (parts : PathParts) : parts.super.Nonempty := .inl rfl

theorem nonempty_push (parts : PathParts) (name : Name) : (parts.push name).Nonempty :=
  .inr (List.append_ne_nil_of_right_ne_nil _ (List.cons_ne_nil _ _))

theorem nonempty_pushName (parts : PathParts) (name : Name) : (parts.pushName name).Nonempty := by
  rw [pushName]
  split
  · exact parts.nonempty_super
  · exact parts.nonempty_push name

end PathParts

theorem nonempty_collectScopedParts (node : PathNode) (parts : PathParts) :
    (collectScopedParts node parts).Nonempty := by
  cases node with
  | identifier text => exact parts.nonempty_push text.1
  | self | crate | globalIdentifier => exact .inl rfl
  | super => exact parts.nonempty_super
  | scopedIdentifier path name => exact (collectScopedParts path parts).nonempty_pushName name

/-- A path is built from what is collected, from single nodes too. -/
theorem buildPath_eq (node : PathNode) : buildPath node = buildScopedIdentifier node := by
  cases node <;> rfl

theorem buildPath_isSome (node : PathNode) : ∃ path, buildPath node = some path := by
  rw [buildPath_eq]
  exact (nonempty_collectScopedParts node .empty).alloc

end Sage
