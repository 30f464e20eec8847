import Sage.Check.Scope
import Sage.Library.Lexical

/-!
# Check — the scoping rules

The text of a body as a word: where scopes open and close, which names are bound, which paths are
used, in source order.  The scoping rules speak of the word alone; the check is compared to them.

* `FnBody.word` — the word of a body.
* `Scoped` — what the rules say of every event.
* `Checked` — what holds between the word so far, the scope and the context.
* `ExprCst.check_ends` — the check of an expression takes one to the other.
-/

namespace Sage.Check

open Resolve (Namespace)
open Lexical (Denotes BindsAt Closed)

/-! ### Words -/

/-- Where a part is in the form around it. -/
inductive Step where
  | part (k : Nat)
  /-- An alternative of an or-pattern. -/
  | alternative (k : Nat)
deriving DecidableEq

/-- An event of a body; a binding is known by the way to it. -/
abbrev Event := Lexical.Event Name (List Step) (Path × Namespace)

mutual

def PatCst.word (site : List Step) : PatCst → List Event
  | .bind name _ _ => [.binds name site]
  | .path path => [.other (path, .value)]
  | .struct path fields => .other (path, .type) :: wordPats site .part 0 fields
  | .tupleStruct path pats => .other (path, .value) :: wordPats site .part 0 pats
  | .tuple pats => wordPats site .part 0 pats
  | .or pats => wordPats site .alternative 0 pats
  | .ref inner _ => inner.word site
  | .wildcard | .literal _ | .rest | .missing => []

def wordPats (site : List Step) (step : Nat → Step) : Nat → List PatCst → List Event
  | _, [] => []
  | k, pat :: pats => pat.word (site ++ [step k]) ++ wordPats site step (k + 1) pats

end

mutual

/-- A binding is visible to the end of its block, arm, loop or closure; an initializer, a scrutinee
and an iterator come before the pattern they are matched with. -/
def ExprCst.word (site : List Step) : ExprCst → List Event
  | .path path => [.other (path, .value)]
  | .block stmts tail =>
      Lexical.scope (wordStmts (site ++ [.part 0]) 0 stmts ++ wordOption (site ++ [.part 1]) tail)
  | .ifLet pat scrutinee ifTrue ifFalse =>
      scrutinee.word (site ++ [.part 0]) ++
        (Lexical.scope (pat.word (site ++ [.part 1]) ++ ifTrue.word (site ++ [.part 2])) ++
          wordOption (site ++ [.part 3]) ifFalse)
  | .matchExpr scrutinee arms =>
      scrutinee.word (site ++ [.part 0]) ++ wordArms (site ++ [.part 1]) 0 arms
  | .whileLet pat head body | .forExpr pat head body =>
      head.word (site ++ [.part 0]) ++
        Lexical.scope (pat.word (site ++ [.part 1]) ++ body.word (site ++ [.part 2]))
  | .closure params body =>
      Lexical.scope (wordPats (site ++ [.part 0]) .part 0 params ++ body.word (site ++ [.part 1]))
  | .structLit path fields => .other (path, .type) :: wordExprs site 0 fields
  | .node _ parts => wordExprs site 0 parts

def wordOption (site : List Step) : Option ExprCst → List Event
  | none => []
  | some e => e.word site

def wordExprs (site : List Step) : Nat → List ExprCst → List Event
  | _, [] => []
  | k, e :: es => e.word (site ++ [.part k]) ++ wordExprs site (k + 1) es

def StmtCst.word (site : List Step) : StmtCst → List Event
  | .letStmt pat init => wordOption (site ++ [.part 0]) init ++ pat.word (site ++ [.part 1])
  | .expr e => e.word site

def wordStmts (site : List Step) : Nat → List StmtCst → List Event
  | _, [] => []
  | k, stmt :: stmts => stmt.word (site ++ [.part k]) ++ wordStmts site (k + 1) stmts

def MatchArmCst.word (site : List Step) : MatchArmCst → List Event
  | .mk pat guard body =>
      Lexical.scope (pat.word (site ++ [.part 0]) ++
        (wordOption (site ++ [.part 1]) guard ++ body.word (site ++ [.part 2])))

def wordArms (site : List Step) : Nat → List MatchArmCst → List Event
  | _, [] => []
  | k, arm :: arms => arm.word (site ++ [.part k]) ++ wordArms site (k + 1) arms

end

def wordParams : Nat → List (ParamCst × Ty) → List Event
  | _, [] => []
  | k, (param, _) :: params =>
      (match param.name with
        | some name => [.binds name [.part 0, .part k]]
        | none => []) ++ wordParams (k + 1) params

/-- The parameters are in scope of the whole body. -/
def FnBody.word (f : FnBody) : List Event :=
  wordParams 0 f.params ++ wordOption [.part 1] f.body

/-! ### The rules -/

/-- An identifier pattern of this name is the definition, not a binding. -/
def ModuleNames.IsConstant (m : ModuleNames) (x : Name) : Prop :=
  ∃ sym ∈ m.resolveName x .value, m.kind sym ≠ .other

/-- The one name of a value path that is a single segment. -/
def singleSegment : Path → Option Name
  | .relative x [] => some x
  | .anchored .self_ [] => some "self"
  | _ => none

/-- The item a path means where no binding is in scope; `self` is none. -/
def ModuleNames.item (m : ModuleNames) : Path → PathResolution
  | .relative x _ => pathResolution ((m.resolveName x .value).map .sym)
  | .anchored _ _ => .error ⟨⟩

/-- Two bindings in different alternatives of one or-pattern. -/
def Mates (word : List Event) (i j : Nat) : Prop :=
  ∃ x k k' around inner inner', k ≠ k' ∧
    word[i]? = some (.binds x (around ++ .alternative k :: inner)) ∧
    word[j]? = some (.binds x (around ++ .alternative k' :: inner'))

/-- A name means this binding before position `i`: it is bound there, no constant has the name, its
scope is not over, and no later binding of the name is in scope. -/
def ModuleNames.Means (m : ModuleNames) (word : List Event) (i : Nat) (x : Name) (j : Nat) : Prop :=
  ¬m.IsConstant x ∧ Denotes (word.take i) x j

/-- What became of the events of a word is what the scoping rules say. -/
structure Scoped (m : ModuleNames) (word : List Event) (occurrences : List Occurrence) : Prop where
  aligned : occurrences.length = word.length
  /-- A path with one segment is the innermost, latest binding in scope, else the item. -/
  uses : ∀ (i : Nat) path x, word[i]? = some (.other (path, .value)) →
    singleSegment path = some x →
    (∃ j id, m.Means word i x j ∧ occurrences[j]? = some (.bound id) ∧
      occurrences[i]? = some (.resolved (.loc id))) ∨
    (∀ j, ¬m.Means word i x j) ∧ occurrences[i]? = some (.resolved (m.item path))
  /-- An identifier pattern binds unless it names a constant. -/
  binds : ∀ (i : Nat) x site, word[i]? = some (.binds x site) →
    ((∃ id, occurrences[i]? = some (.bound id)) ↔ ¬m.IsConstant x)
  /-- Every binding has its own local, but for the alternatives of an or-pattern. -/
  own : ∀ (i j : Nat) id id', occurrences[i]? = some (.bound id) →
    occurrences[j]? = some (.bound id') → (id = id' ↔ i = j ∨ Mates word i j)

/-- No identifier pattern names a constant, and the alternatives of no or-pattern bind one name. -/
structure Plain (m : ModuleNames) (word : List Event) : Prop where
  constants : ∀ (i : Nat) x site, word[i]? = some (.binds x site) → ¬m.IsConstant x
  mates : ∀ i j, ¬Mates word i j

/-! ### Ribs -/

namespace Ribs

variable {ribs : Ribs} {name x : Name} {ns ns' : Namespace} {entry : Resolution}

@[simp] theorem lookup_pushScope : ribs.pushScope.lookup x ns = ribs.lookup x ns := by
  rw [pushScope, lookup, List.findSome?_cons]
  rfl

/-- The latest entry is found first. -/
theorem lookup_add (h : ribs.scopes ≠ []) : (ribs.add name ns' entry).lookup x ns =
    if name = x ∧ ns' = ns then some entry else ribs.lookup x ns := by
  obtain ⟨scope, scopes, hscopes⟩ := List.exists_cons_of_ne_nil h
  rw [add, hscopes, lookup, lookup, hscopes]
  simp only [List.findSome?_cons]
  split_ifs <;> rfl

theorem add_ne_nil (h : ribs.scopes ≠ []) : (ribs.add name ns entry).scopes ≠ [] := by
  obtain ⟨scope, scopes, hscopes⟩ := List.exists_cons_of_ne_nil h
  rw [add, hscopes]
  exact List.cons_ne_nil _ _

/-- Generic parameters are no values. -/
theorem addGenericParams_lookup (params : List (Option Name × GenericParam)) :
    (ribs.addGenericParams params).lookup x .value = ribs.lookup x .value ∧
      (ribs.addGenericParams params).scopes ≠ [] := by
  have hfold : ∀ (params : List (Option Name × GenericParam)) (ribs : Ribs), ribs.scopes ≠ [] →
      (params.foldl (fun ribs param =>
        match param.1 with
        | some name => ribs.add name .type (.param param.2)
        | none => ribs) ribs).lookup x .value = ribs.lookup x .value ∧
      (params.foldl (fun ribs param =>
        match param.1 with
        | some name => ribs.add name .type (.param param.2)
        | none => ribs) ribs).scopes ≠ [] := by
    intro params
    induction params with
    | nil => exact fun ribs h => ⟨rfl, h⟩
    | cons param params ih =>
        intro ribs h
        rw [List.foldl_cons]
        cases param.1 with
        | none => exact ih ribs h
        | some name =>
            obtain ⟨hlookup, hne⟩ := ih _ (add_ne_nil h)
            refine ⟨hlookup.trans ?_, hne⟩
            rw [lookup_add h, if_neg (by rintro ⟨-, ⟨⟩⟩)]
  obtain ⟨hlookup, hne⟩ := hfold params ribs.pushScope (List.cons_ne_nil _ _)
  exact ⟨hlookup.trans lookup_pushScope, hne⟩

end Ribs

/-! ### Paths -/

section Paths

variable {m : ModuleNames} {scope : Scope} {path : Path} {x : Name}

theorem eq_of_singleSegment (h : singleSegment path = some x) :
    path = .anchored .self_ [] ∧ x = "self" ∨ path = .relative x [] := by
  unfold singleSegment at h
  split at h <;> cases h
  · exact .inr rfl
  · exact .inl ⟨rfl, rfl⟩

/-- A name that is in no rib is looked up in the module. -/
theorem resolvePath_single (h : singleSegment path = some x) :
    resolvePath m scope path .value =
      match scope.ribs.lookup x .value with
      | some r => pathResolution [r]
      | none => m.item path := by
  obtain ⟨rfl, rfl⟩ | rfl := eq_of_singleSegment h
  · unfold resolvePath Ribs.resolvePath
    rw [if_pos ⟨rfl, rfl⟩]
    cases scope.ribs.lookup "self" .value <;> rfl
  · unfold resolvePath Ribs.resolvePath
    rw [if_neg (by rintro ⟨⟨⟩, -⟩)]
    cases hlookup : scope.ribs.lookup x .value with
    | some r =>
        simp only [hlookup]
    | none =>
        simp only [hlookup]
        rfl

theorem pathResolution_map_sym (syms : List Symbol) (id : LocalId) :
    pathResolution (syms.map .sym) ≠ .loc id := by
  obtain - | ⟨sym, - | ⟨sym', syms⟩⟩ := syms
  · nofun
  · nofun
  · nofun

/-- Only the ribs have locals. -/
theorem lookup_of_resolvePath_loc {id : LocalId}
    (h : resolvePath m scope path .value = .loc id) :
    ∃ x, scope.ribs.lookup x .value = some (.loc id) := by
  cases hpath : singleSegment path with
  | some x =>
      rw [resolvePath_single hpath] at h
      refine ⟨x, ?_⟩
      cases hlookup : scope.ribs.lookup x .value with
      | some r =>
          simp only [hlookup] at h
          cases r <;> cases h
          rfl
      | none =>
          simp only [hlookup] at h
          cases path with
          | anchored anchor segments => cases h
          | relative first rest => exact absurd h (pathResolution_map_sym _ id)
  | none =>
      unfold resolvePath Ribs.resolvePath at h
      unfold singleSegment at hpath
      split at hpath
      · cases hpath
      · cases hpath
      · rename_i hrelative hself
        rw [if_neg fun hand => hself hand.1] at h
        split at h
        · exact absurd rfl (hrelative _)
        · exact absurd h (pathResolution_map_sym _ id)

end Paths

/-! ### The check follows the word -/

variable {m : ModuleNames} {word inner : List Event} {occurrences occurrences' : List Occurrence}
  {n n' : Nat} {scope scope' : Scope}

/-- What the check has made of a word, with the locals counted so far. -/
structure Settled (m : ModuleNames) (word : List Event) (occurrences : List Occurrence)
    (n : Nat) : Prop where
  aligned : occurrences.length = word.length
  uses : ∀ (i : Nat) path x, word[i]? = some (.other (path, .value)) →
    singleSegment path = some x →
    (∃ j id, Denotes (word.take i) x j ∧ occurrences[j]? = some (.bound id) ∧
      occurrences[i]? = some (.resolved (.loc id))) ∨
    (∀ j, ¬Denotes (word.take i) x j) ∧ occurrences[i]? = some (.resolved (m.item path))
  binds : ∀ (i : Nat) x site, word[i]? = some (.binds x site) →
    ∃ id, occurrences[i]? = some (.bound id)
  numbered : ∀ (i j : Nat) id id', i < j → occurrences[i]? = some (.bound id) →
    occurrences[j]? = some (.bound id') → id.index < id'.index
  counted : ∀ (i : Nat) id, occurrences[i]? = some (.bound id) → id.index < n

/-- The scope after a word: a name is found exactly if it denotes a binding. -/
structure Checked (m : ModuleNames) (word : List Event) (scope : Scope)
    (occurrences : List Occurrence) (n : Nat) : Prop extends Settled m word occurrences n where
  scopes : scope.ribs.scopes ≠ []
  lookup : ∀ x r, scope.ribs.lookup x .value = some r ↔
    ∃ j id, Denotes word x j ∧ occurrences[j]? = some (.bound id) ∧ r = .loc id
  typed : ∀ x id, scope.ribs.lookup x .value = some (.loc id) → (scope.localType id).isSome

theorem getElem?_concat_iff {α : Type} {xs : List α} {a b : α} {i : Nat} :
    (xs ++ [a])[i]? = some b ↔ xs[i]? = some b ∨ i = xs.length ∧ a = b := by
  obtain hlt | heq | hgt := Nat.lt_trichotomy i xs.length
  · rw [List.getElem?_append_left hlt]
    exact ⟨.inl, fun h => h.elim id fun h => absurd h.1 hlt.ne⟩
  · subst heq
    simp
  · have hnone : (xs ++ [a])[i]? = none := List.getElem?_eq_none_iff.mpr (by
      rw [List.length_append, List.length_singleton]
      exact hgt)
    rw [hnone, List.getElem?_eq_none_iff.mpr hgt.le]
    simp [hgt.ne']

/-- One more event, and what became of it. -/
theorem Settled.snoc (h : Settled m word occurrences n) {event : Event} {occurrence : Occurrence}
    (hn : n ≤ n')
    (huse : ∀ path x, event = .other (path, .value) → singleSegment path = some x →
      (∃ j id, Denotes word x j ∧ occurrences[j]? = some (.bound id) ∧
        occurrence = .resolved (.loc id)) ∨
      (∀ j, ¬Denotes word x j) ∧ occurrence = .resolved (m.item path))
    (hbind : ∀ x site, event = .binds x site → ∃ id, occurrence = .bound id)
    (hnew : ∀ id, occurrence = .bound id → n ≤ id.index ∧ id.index < n') :
    Settled m (word ++ [event]) (occurrences ++ [occurrence]) n' where
  aligned := by simp only [List.length_append, h.aligned, List.length_singleton]
  uses := by
    intro i path x hat hpath
    obtain hat | ⟨hi, rfl⟩ := getElem?_concat_iff.mp hat
    · have hi := (List.getElem?_eq_some_iff.mp hat).1
      rw [List.take_append_of_le_length hi.le]
      obtain ⟨j, id, hj, hbound, hres⟩ | ⟨hnone, hres⟩ := h.uses i path x hat hpath
      · exact .inl ⟨j, id, hj, getElem?_concat_iff.mpr (.inl hbound),
          getElem?_concat_iff.mpr (.inl hres)⟩
      · exact .inr ⟨hnone, getElem?_concat_iff.mpr (.inl hres)⟩
    · rw [hi, List.take_left', ← h.aligned]
      obtain ⟨j, id, hj, hbound, hres⟩ | ⟨hnone, hres⟩ := huse path x rfl hpath
      · exact .inl ⟨j, id, hj, getElem?_concat_iff.mpr (.inl hbound),
          getElem?_concat_iff.mpr (.inr ⟨rfl, hres⟩)⟩
      · exact .inr ⟨hnone, getElem?_concat_iff.mpr (.inr ⟨rfl, hres⟩)⟩
      · rfl
  binds := by
    intro i x site hat
    obtain hat | ⟨hi, rfl⟩ := getElem?_concat_iff.mp hat
    · obtain ⟨id, hid⟩ := h.binds i x site hat
      exact ⟨id, getElem?_concat_iff.mpr (.inl hid)⟩
    · obtain ⟨id, rfl⟩ := hbind x site rfl
      exact ⟨id, getElem?_concat_iff.mpr (.inr ⟨hi.trans h.aligned.symm, rfl⟩)⟩
  numbered := by
    intro i j id id' hlt hi hj
    obtain hi | ⟨hi, hid⟩ := getElem?_concat_iff.mp hi
    · obtain hj | ⟨-, hid'⟩ := getElem?_concat_iff.mp hj
      · exact h.numbered i j id id' hlt hi hj
      · exact (h.counted i id hi).trans_le (hnew id' hid').1
    · have hj := (List.getElem?_eq_some_iff.mp hj).1
      rw [List.length_append, List.length_singleton] at hj
      omega
  counted := by
    intro i id hi
    obtain hi | ⟨-, hid⟩ := getElem?_concat_iff.mp hi
    · exact (h.counted i id hi).trans_le hn
    · exact (hnew id hid).2

namespace Checked

/-- What a name denotes lies before the end of what was checked. -/
theorem lookup_snoc (h : Checked m word scope occurrences n) {event : Event}
    {occurrence : Occurrence} {x : Name} (hcloses : event ≠ .closes)
    (hbinds : ∀ site, event ≠ .binds x site) (r : Resolution) :
    scope.ribs.lookup x .value = some r ↔ ∃ j id, Denotes (word ++ [event]) x j ∧
      (occurrences ++ [occurrence])[j]? = some (.bound id) ∧ r = .loc id := by
  rw [h.lookup]
  refine exists_congr fun j => exists_congr fun id => ?_
  rw [Lexical.denotes_snoc hcloses hbinds]
  refine and_congr_right fun hj => and_congr_left fun _ => ?_
  rw [List.getElem?_append_left (h.aligned ▸ hj.lt)]

theorem opens (h : Checked m word scope occurrences n) :
    Checked m (word ++ [.opens]) scope.pushScope (occurrences ++ [.scope]) n where
  toSettled := h.toSettled.snoc (Nat.le_refl n) nofun nofun nofun
  scopes := List.cons_ne_nil _ _
  lookup := by
    intro x r
    rw [Scope.pushScope, Ribs.lookup_pushScope]
    exact h.lookup_snoc (by nofun) (by nofun) r
  typed := by
    intro x id hid
    rw [Scope.pushScope, Ribs.lookup_pushScope] at hid
    exact h.typed x id hid

/-- A binding is found under its name from here on, and has a type. -/
theorem bindLocal (h : Checked m word scope occurrences n) (x : Name) (site : List Step) (ty : Ty) :
    Checked m (word ++ [.binds x site])
      ⟨scope.ribs.add x .value (.loc ⟨n⟩), scope.locals.insert ⟨n⟩ ty⟩
      (occurrences ++ [.bound ⟨n⟩]) (n + 1) where
  toSettled := by
    refine h.toSettled.snoc (Nat.le_succ n) nofun (fun y site' _ => ⟨⟨n⟩, rfl⟩) ?_
    rintro id ⟨⟩
    exact ⟨Nat.le_refl n, Nat.lt_succ_self n⟩
  scopes := Ribs.add_ne_nil h.scopes
  lookup := by
    intro y r
    rw [Ribs.lookup_add h.scopes]
    by_cases hxy : x = y
    · subst hxy
      rw [if_pos ⟨rfl, rfl⟩, Option.some.injEq]
      constructor
      · rintro rfl
        refine ⟨word.length, ⟨n⟩, Lexical.denotes_snoc_binds.mpr rfl, ?_, rfl⟩
        exact getElem?_concat_iff.mpr (.inr ⟨h.aligned.symm, rfl⟩)
      · rintro ⟨j, id, hj, hbound, rfl⟩
        rw [Lexical.denotes_snoc_binds.mp hj, ← h.aligned, List.getElem?_concat_length] at hbound
        cases hbound
        rfl
    · rw [if_neg fun hand => hxy hand.1]
      refine h.lookup_snoc (by nofun) ?_ r
      rintro site' ⟨⟩
      exact hxy rfl
  typed := by
    intro y id hid
    rw [Ribs.lookup_add h.scopes] at hid
    rw [Scope.localType]
    change (PartialMap.Has (scope.locals.insert ⟨n⟩ ty) id)
    rw [PartialMap.has_insert]
    by_cases hxy : x = y
    · rw [if_pos ⟨hxy, rfl⟩] at hid
      cases hid
      exact .inl rfl
    · rw [if_neg fun hand => hxy hand.1] at hid
      exact .inr (h.typed y id hid)

/-- The scope of a form whose parts worked on a clone is what it was before the form. -/
theorem closes (h : Checked m word scope occurrences n) (hinner : Closed inner)
    (hpre : occurrences ++ [.scope] <+: occurrences')
    (h' : Settled m (word ++ [.opens] ++ inner) occurrences' n') :
    Checked m (word ++ Lexical.scope inner) scope (occurrences' ++ [.scope]) n' where
  toSettled := by
    have hword : word ++ Lexical.scope inner = word ++ [.opens] ++ inner ++ [.closes] := by
      simp only [Lexical.scope, List.append_assoc, List.cons_append, List.nil_append]
    rw [hword]
    exact h'.snoc (Nat.le_refl n') (by simp) (by simp) (by simp)
  scopes := h.scopes
  lookup := by
    intro x r
    rw [h.lookup]
    refine exists_congr fun j => exists_congr fun id => ?_
    rw [Lexical.denotes_scope hinner]
    refine and_congr_right fun hj => and_congr_left fun _ => ?_
    have hlt : j < occurrences.length := h.aligned ▸ hj.lt
    obtain ⟨rest, rfl⟩ := hpre
    rw [List.append_assoc, List.append_assoc, List.getElem?_append_left hlt]
  typed := h.typed

theorem resolvePath_eq (h : Checked m word scope occurrences n) {path : Path} {x : Name}
    (hpath : singleSegment path = some x) :
    (∃ j id, Denotes word x j ∧ occurrences[j]? = some (.bound id) ∧
      resolvePath m scope path .value = .loc id) ∨
    (∀ j, ¬Denotes word x j) ∧ resolvePath m scope path .value = m.item path := by
  rw [resolvePath_single hpath]
  cases hlookup : scope.ribs.lookup x .value with
  | some r =>
      obtain ⟨j, id, hj, hbound, rfl⟩ := (h.lookup x r).mp hlookup
      exact .inl ⟨j, id, hj, hbound, rfl⟩
  | none =>
      refine .inr ⟨fun j hj => ?_, rfl⟩
      have hlt : j < occurrences.length := h.aligned ▸ hj.lt
      obtain ⟨site, hat⟩ := hj.binds
      obtain ⟨id, hid⟩ := h.binds j x site hat
      have hsome := (h.lookup x _).mpr ⟨j, id, hj, hid, rfl⟩
      rw [hlookup] at hsome
      cases hsome

theorem path (h : Checked m word scope occurrences n) (path : Path) (ns : Namespace) :
    Checked m (word ++ [.other (path, ns)]) scope
      (occurrences ++ [.resolved (resolvePath m scope path ns)]) n where
  toSettled := by
    refine h.toSettled.snoc (Nat.le_refl n) ?_ nofun nofun
    rintro path x ⟨⟩ hpath
    obtain ⟨j, id, hj, hbound, hres⟩ | ⟨hnone, hres⟩ := h.resolvePath_eq hpath
    · exact .inl ⟨j, id, hj, hbound, congrArg _ hres⟩
    · exact .inr ⟨hnone, congrArg _ hres⟩
  scopes := h.scopes
  lookup := fun x r => h.lookup_snoc (by nofun) (by nofun) r
  typed := h.typed

/-- The type of a local that a path resolves to is there. -/
theorem resToTy_isSome (h : Checked m word scope occurrences n) (path : Path) :
    (resToTy scope (resolvePath m scope path .value)).isSome := by
  cases hres : resolvePath m scope path .value with
  | loc id =>
      obtain ⟨x, hx⟩ := lookup_of_resolvePath_loc hres
      rw [resToTy, Option.isSome_map]
      exact h.typed x id hx
  | defn sym => rfl
  | error e => rfl

end Checked

/-! ### Every form -/

mutual

theorem PatCst.word_closed (site : List Step) : ∀ pat : PatCst, Closed (pat.word site)
  | .bind _ _ _ => Lexical.closed_binds
  | .path _ => Lexical.closed_other
  | .struct _ fields => Lexical.closed_other.append (wordPats_closed site _ 0 fields)
  | .tupleStruct _ pats => Lexical.closed_other.append (wordPats_closed site _ 0 pats)
  | .tuple pats => wordPats_closed site _ 0 pats
  | .or pats => wordPats_closed site _ 0 pats
  | .ref inner _ => inner.word_closed site
  | .wildcard | .literal _ | .rest | .missing => Lexical.closed_nil

theorem wordPats_closed (site : List Step) (step : Nat → Step) (k : Nat) :
    ∀ pats : List PatCst, Closed (wordPats site step k pats)
  | [] => Lexical.closed_nil
  | pat :: pats => (pat.word_closed _).append (wordPats_closed site step (k + 1) pats)

end

mutual

theorem ExprCst.word_closed (site : List Step) : ∀ e : ExprCst, Closed (e.word site)
  | .path _ => Lexical.closed_other
  | .block stmts tail => ((wordStmts_closed _ 0 stmts).append (wordOption_closed _ tail)).scope
  | .ifLet pat scrutinee ifTrue ifFalse =>
      (scrutinee.word_closed _).append
        (((pat.word_closed _).append (ifTrue.word_closed _)).scope.append
          (wordOption_closed _ ifFalse))
  | .matchExpr scrutinee arms => (scrutinee.word_closed _).append (wordArms_closed _ 0 arms)
  | .whileLet pat head body =>
      (head.word_closed _).append ((pat.word_closed _).append (body.word_closed _)).scope
  | .forExpr pat head body =>
      (head.word_closed _).append ((pat.word_closed _).append (body.word_closed _)).scope
  | .closure params body => ((wordPats_closed _ _ 0 params).append (body.word_closed _)).scope
  | .structLit _ fields => Lexical.closed_other.append (wordExprs_closed site 0 fields)
  | .node _ parts => wordExprs_closed site 0 parts

theorem wordOption_closed (site : List Step) : ∀ e : Option ExprCst, Closed (wordOption site e)
  | none => Lexical.closed_nil
  | some e => e.word_closed site

theorem wordExprs_closed (site : List Step) (k : Nat) :
    ∀ es : List ExprCst, Closed (wordExprs site k es)
  | [] => Lexical.closed_nil
  | e :: es => (e.word_closed _).append (wordExprs_closed site (k + 1) es)

theorem StmtCst.word_closed (site : List Step) : ∀ stmt : StmtCst, Closed (stmt.word site)
  | .letStmt pat init => (wordOption_closed _ init).append (pat.word_closed _)
  | .expr e => e.word_closed site

theorem wordStmts_closed (site : List Step) (k : Nat) :
    ∀ stmts : List StmtCst, Closed (wordStmts site k stmts)
  | [] => Lexical.closed_nil
  | stmt :: stmts => (stmt.word_closed _).append (wordStmts_closed site (k + 1) stmts)

theorem MatchArmCst.word_closed (site : List Step) : ∀ arm : MatchArmCst, Closed (arm.word site)
  | .mk pat guard body =>
      ((pat.word_closed _).append ((wordOption_closed _ guard).append (body.word_closed _))).scope

theorem wordArms_closed (site : List Step) (k : Nat) :
    ∀ arms : List MatchArmCst, Closed (wordArms site k arms)
  | [] => Lexical.closed_nil
  | arm :: arms => (arm.word_closed _).append (wordArms_closed site (k + 1) arms)

end

/-- A check of what binds ends, after the word and in a scope that follows it. -/
def Binds (m : ModuleNames) (word inner : List Event) (cx : BodyCx)
    (result : Option (Scope × BodyCx)) : Prop :=
  ∃ scope' cx', result = some (scope', cx') ∧ cx.occurrences <+: cx'.occurrences ∧
    Checked m (word ++ inner) scope' cx'.occurrences cx'.localVars.length

/-- A check in a scope that does not change ends after the word. -/
def Ends (m : ModuleNames) (word inner : List Event) (scope : Scope) (cx : BodyCx)
    (result : Option BodyCx) : Prop :=
  ∃ cx', result = some cx' ∧ cx.occurrences <+: cx'.occurrences ∧
    Checked m (word ++ inner) scope cx'.occurrences cx'.localVars.length

theorem Ends.append {word' : List Event} {cx cx' : BodyCx} {result : Option BodyCx}
    (hpre : cx.occurrences <+: cx'.occurrences)
    (h : Ends m (word ++ inner) word' scope cx' result) :
    Ends m word (inner ++ word') scope cx result := by
  obtain ⟨cx'', hresult, hpre', h'⟩ := h
  rw [List.append_assoc] at h'
  exact ⟨cx'', hresult, hpre.trans hpre', h'⟩

theorem Binds.append {word' : List Event} {cx cx' : BodyCx}
    {result : Option (Scope × BodyCx)} (hpre : cx.occurrences <+: cx'.occurrences)
    (h : Binds m (word ++ inner) word' cx' result) : Binds m word (inner ++ word') cx result := by
  obtain ⟨scope'', cx'', hresult, hpre', h'⟩ := h
  rw [List.append_assoc] at h'
  exact ⟨scope'', cx'', hresult, hpre.trans hpre', h'⟩

mutual

/-- A pattern first takes a type variable, which the names have nothing to do with. -/
theorem PatCst.check_binds (site : List Step) : ∀ (pat : PatCst) (cx : BodyCx)
    {word : List Event} {scope : Scope},
    Checked m word scope cx.occurrences cx.localVars.length →
      Binds m word (pat.word site) cx (pat.check m scope cx)
  | .bind name _ span, cx, word, scope, h => by
      have hlength : cx.localVars.length + 1 =
          (scope.addBinding cx.freshTyVar.2 name span).2.2.localVars.length :=
        (List.length_append : (cx.localVars ++ [LocalVar.mk name span]).length = _).symm
      have hbind := h.bindLocal name site (.inferVar (cx.typeVars + 1))
      rw [hlength] at hbind
      have htype : (scope.addBinding cx.freshTyVar.2 name span).2.1.localType
          ⟨cx.localVars.length⟩ = some (.inferVar (cx.typeVars + 1)) := Function.update_self _ _ _
      refine ⟨_, (scope.addBinding cx.freshTyVar.2 name span).2.2, ?_, List.prefix_append _ _,
        hbind⟩
      exact congrArg (· >>= fun _ => some (scope.addBinding cx.freshTyVar.2 name span).2) htype
  | .path path, cx, word, scope, h =>
      ⟨scope, _, rfl, List.prefix_append _ _, h.path path .value⟩
  | .struct path fields, cx, word, scope, h => by
      have hfields := checkPats_binds site .part 0 fields
        (cx.freshTyVar.2.note (.resolved (resolvePath m scope path .type))) (h.path path .type)
      exact .append (List.prefix_append _ _) hfields
  | .tupleStruct path pats, cx, word, scope, h => by
      have hpats := checkPats_binds site .part 0 pats
        (cx.freshTyVar.2.note (.resolved (resolvePath m scope path .value))) (h.path path .value)
      exact .append (List.prefix_append _ _) hpats
  | .tuple pats, cx, _, _, h => checkPats_binds site .part 0 pats cx.freshTyVar.2 h
  | .or pats, cx, _, _, h => checkPats_binds site .alternative 0 pats cx.freshTyVar.2 h
  | .ref inner _, cx, _, _, h => inner.check_binds site cx.freshTyVar.2 h
  | .wildcard, cx, word, scope, h => ⟨scope, _, rfl, List.prefix_rfl, (List.append_nil word).symm ▸ h⟩
  | .literal _, cx, word, scope, h =>
      ⟨scope, _, rfl, List.prefix_rfl, (List.append_nil word).symm ▸ h⟩
  | .rest, cx, word, scope, h => ⟨scope, _, rfl, List.prefix_rfl, (List.append_nil word).symm ▸ h⟩
  | .missing, cx, word, scope, h =>
      ⟨scope, _, rfl, List.prefix_rfl, (List.append_nil word).symm ▸ h⟩

theorem checkPats_binds (site : List Step) (step : Nat → Step) (k : Nat) :
    ∀ (pats : List PatCst) (cx : BodyCx) {word : List Event} {scope : Scope},
    Checked m word scope cx.occurrences cx.localVars.length →
      Binds m word (wordPats site step k pats) cx (checkPats m pats scope cx)
  | [], cx, word, scope, h => ⟨scope, cx, rfl, List.prefix_rfl, (List.append_nil word).symm ▸ h⟩
  | pat :: pats, cx, word, scope, h => by
      obtain ⟨scope', cx', hcheck, hpre, h'⟩ := pat.check_binds (site ++ [step k]) cx h
      rw [checkPats, hcheck]
      exact .append hpre (checkPats_binds site step (k + 1) pats cx' h')

end

/-- A form whose parts work on a clone: the pushed scope is over with it. -/
theorem Ends.leave {cx cx' : BodyCx} {scope' : Scope}
    (h : Checked m word scope cx.occurrences cx.localVars.length) (hinner : Closed inner)
    (hpre : (cx.note .scope).occurrences <+: cx'.occurrences)
    (h' : Checked m (word ++ [.opens] ++ inner) scope' cx'.occurrences cx'.localVars.length) :
    Ends m word (Lexical.scope inner) scope cx (some (cx'.note .scope)) :=
  ⟨_, rfl, ((List.prefix_append _ _).trans hpre).trans (List.prefix_append _ _),
    h.closes hinner hpre h'.toSettled⟩

mutual

theorem ExprCst.check_ends (site : List Step) : ∀ (e : ExprCst) (cx : BodyCx) {word : List Event}
    {scope : Scope}, Checked m word scope cx.occurrences cx.localVars.length →
      Ends m word (e.word site) scope cx (e.check m scope cx)
  | .path path, cx, word, scope, h => by
      obtain ⟨ty, hty⟩ := Option.isSome_iff_exists.mp (h.resToTy_isSome path)
      refine ⟨cx.note (.resolved (resolvePath m scope path .value)), ?_, List.prefix_append _ _,
        h.path path .value⟩
      rw [ExprCst.check, hty]
      rfl
  | .block stmts tail, cx, word, scope, h => by
      obtain ⟨inner, cx₁, hstmts, hpre₁, h₁⟩ :=
        checkStmts_binds (site ++ [.part 0]) 0 stmts (cx.note .scope) h.opens
      obtain ⟨cx₂, htail, hpre₂, h₂⟩ := checkOption_ends (site ++ [.part 1]) tail cx₁ h₁
      rw [List.append_assoc] at h₂
      simp only [ExprCst.check, hstmts, htail, Option.bind_eq_bind, Option.bind_some,
        Option.pure_def]
      exact .leave h ((wordStmts_closed _ 0 stmts).append (wordOption_closed _ tail))
        (hpre₁.trans hpre₂) h₂
  | .ifLet pat scrutinee ifTrue ifFalse, cx, word, scope, h => by
      obtain ⟨cx₁, hscrutinee, hpre₁, h₁⟩ := scrutinee.check_ends (site ++ [.part 0]) cx h
      obtain ⟨inner, cx₂, hpat, hpre₂, h₂⟩ :=
        pat.check_binds (site ++ [.part 1]) (cx₁.note .scope) h₁.opens
      obtain ⟨cx₃, htrue, hpre₃, h₃⟩ := ifTrue.check_ends (site ++ [.part 2]) cx₂ h₂
      rw [List.append_assoc] at h₃
      obtain ⟨cx₄, hcx₄, hpre₄, h₄⟩ := Ends.leave h₁
        ((pat.word_closed _).append (ifTrue.word_closed _)) (hpre₂.trans hpre₃) h₃
      cases hcx₄
      simp only [ExprCst.check, hscrutinee, hpat, htrue, Option.bind_eq_bind, Option.bind_some]
      -- the branch without the bindings is checked in the scope of the form
      exact .append hpre₁ (.append hpre₄ (checkOption_ends (site ++ [.part 3]) ifFalse _ h₄))
  | .matchExpr scrutinee arms, cx, word, scope, h => by
      obtain ⟨cx₁, hscrutinee, hpre₁, h₁⟩ := scrutinee.check_ends (site ++ [.part 0]) cx h
      simp only [ExprCst.check, hscrutinee, Option.bind_eq_bind, Option.bind_some]
      exact .append hpre₁ (checkArms_ends (site ++ [.part 1]) 0 arms cx₁ h₁)
  | .whileLet pat head body, cx, word, scope, h => by
      obtain ⟨cx₁, hhead, hpre₁, h₁⟩ := head.check_ends (site ++ [.part 0]) cx h
      obtain ⟨inner, cx₂, hpat, hpre₂, h₂⟩ :=
        pat.check_binds (site ++ [.part 1]) (cx₁.note .scope) h₁.opens
      obtain ⟨cx₃, hbody, hpre₃, h₃⟩ := body.check_ends (site ++ [.part 2]) cx₂ h₂
      rw [List.append_assoc] at h₃
      simp only [ExprCst.check, hhead, hpat, hbody, Option.bind_eq_bind, Option.bind_some,
        Option.pure_def]
      exact .append hpre₁ (.leave h₁ ((pat.word_closed _).append (body.word_closed _))
        (hpre₂.trans hpre₃) h₃)
  | .forExpr pat head body, cx, word, scope, h => by
      obtain ⟨cx₁, hhead, hpre₁, h₁⟩ := head.check_ends (site ++ [.part 0]) cx h
      obtain ⟨inner, cx₂, hpat, hpre₂, h₂⟩ :=
        pat.check_binds (site ++ [.part 1]) (cx₁.note .scope) h₁.opens
      obtain ⟨cx₃, hbody, hpre₃, h₃⟩ := body.check_ends (site ++ [.part 2]) cx₂ h₂
      rw [List.append_assoc] at h₃
      simp only [ExprCst.check, hhead, hpat, hbody, Option.bind_eq_bind, Option.bind_some,
        Option.pure_def]
      exact .append hpre₁ (.leave h₁ ((pat.word_closed _).append (body.word_closed _))
        (hpre₂.trans hpre₃) h₃)
  | .closure params body, cx, word, scope, h => by
      obtain ⟨inner, cx₁, hparams, hpre₁, h₁⟩ :=
        checkPats_binds (site ++ [.part 0]) .part 0 params (cx.note .scope) h.opens
      obtain ⟨cx₂, hbody, hpre₂, h₂⟩ := body.check_ends (site ++ [.part 1]) cx₁ h₁
      rw [List.append_assoc] at h₂
      simp only [ExprCst.check, hparams, hbody, Option.bind_eq_bind, Option.bind_some,
        Option.pure_def]
      exact .leave h ((wordPats_closed _ _ 0 params).append (body.word_closed _))
        (hpre₁.trans hpre₂) h₂
  | .structLit path fields, cx, word, scope, h => by
      have hfields := checkExprs_ends site 0 fields
        (cx.note (.resolved (resolvePath m scope path .type))) (h.path path .type)
      exact .append (List.prefix_append _ _) hfields
  | .node _ parts, cx, _, _, h => checkExprs_ends site 0 parts cx h

theorem checkOption_ends (site : List Step) : ∀ (e : Option ExprCst) (cx : BodyCx)
    {word : List Event} {scope : Scope},
    Checked m word scope cx.occurrences cx.localVars.length →
      Ends m word (wordOption site e) scope cx (checkOption m e scope cx)
  | none, cx, word, _, h => ⟨cx, rfl, List.prefix_rfl, (List.append_nil word).symm ▸ h⟩
  | some e, cx, _, _, h => e.check_ends site cx h

theorem checkExprs_ends (site : List Step) (k : Nat) : ∀ (es : List ExprCst) (cx : BodyCx)
    {word : List Event} {scope : Scope},
    Checked m word scope cx.occurrences cx.localVars.length →
      Ends m word (wordExprs site k es) scope cx (checkExprs m es scope cx)
  | [], cx, word, scope, h => ⟨cx, rfl, List.prefix_rfl, (List.append_nil word).symm ▸ h⟩
  | e :: es, cx, word, scope, h => by
      obtain ⟨cx', hcheck, hpre, h'⟩ := e.check_ends (site ++ [.part k]) cx h
      rw [checkExprs, hcheck]
      exact .append hpre (checkExprs_ends site (k + 1) es cx' h')

/-- The pattern of a `let` is checked last, so that its initializer does not see it. -/
theorem StmtCst.check_binds (site : List Step) : ∀ (stmt : StmtCst) (cx : BodyCx)
    {word : List Event} {scope : Scope},
    Checked m word scope cx.occurrences cx.localVars.length →
      Binds m word (stmt.word site) cx (stmt.check m scope cx)
  | .letStmt pat init, cx, word, scope, h => by
      obtain ⟨cx₁, hinit, hpre₁, h₁⟩ := checkOption_ends (site ++ [.part 0]) init cx h
      rw [StmtCst.check, hinit]
      exact .append hpre₁ (pat.check_binds (site ++ [.part 1]) cx₁ h₁)
  | .expr e, cx, word, scope, h => by
      obtain ⟨cx', hcheck, hpre, h'⟩ := e.check_ends site cx h
      rw [StmtCst.check, hcheck]
      exact ⟨scope, cx', rfl, hpre, h'⟩

theorem checkStmts_binds (site : List Step) (k : Nat) : ∀ (stmts : List StmtCst) (cx : BodyCx)
    {word : List Event} {scope : Scope},
    Checked m word scope cx.occurrences cx.localVars.length →
      Binds m word (wordStmts site k stmts) cx (checkStmts m stmts scope cx)
  | [], cx, word, scope, h => ⟨scope, cx, rfl, List.prefix_rfl, (List.append_nil word).symm ▸ h⟩
  | stmt :: stmts, cx, word, scope, h => by
      obtain ⟨scope', cx', hcheck, hpre, h'⟩ := stmt.check_binds (site ++ [.part k]) cx h
      rw [checkStmts, hcheck]
      exact .append hpre (checkStmts_binds site (k + 1) stmts cx' h')

theorem MatchArmCst.check_ends (site : List Step) : ∀ (arm : MatchArmCst) (cx : BodyCx)
    {word : List Event} {scope : Scope},
    Checked m word scope cx.occurrences cx.localVars.length →
      Ends m word (arm.word site) scope cx (arm.check m scope cx)
  | .mk pat guard body, cx, word, scope, h => by
      obtain ⟨inner, cx₁, hpat, hpre₁, h₁⟩ :=
        pat.check_binds (site ++ [.part 0]) (cx.note .scope) h.opens
      obtain ⟨cx₂, hguard, hpre₂, h₂⟩ := checkOption_ends (site ++ [.part 1]) guard cx₁ h₁
      obtain ⟨cx₃, hbody, hpre₃, h₃⟩ := body.check_ends (site ++ [.part 2]) cx₂ h₂
      rw [List.append_assoc, List.append_assoc] at h₃
      simp only [MatchArmCst.check, hpat, hguard, hbody, Option.bind_eq_bind, Option.bind_some,
        Option.pure_def]
      exact .leave h ((pat.word_closed _).append ((wordOption_closed _ guard).append
        (body.word_closed _))) (hpre₁.trans (hpre₂.trans hpre₃)) h₃

theorem checkArms_ends (site : List Step) (k : Nat) : ∀ (arms : List MatchArmCst) (cx : BodyCx)
    {word : List Event} {scope : Scope},
    Checked m word scope cx.occurrences cx.localVars.length →
      Ends m word (wordArms site k arms) scope cx (checkArms m arms scope cx)
  | [], cx, word, scope, h => ⟨cx, rfl, List.prefix_rfl, (List.append_nil word).symm ▸ h⟩
  | arm :: arms, cx, word, scope, h => by
      obtain ⟨cx', hcheck, hpre, h'⟩ := arm.check_ends (site ++ [.part k]) cx h
      rw [checkArms, hcheck]
      exact .append hpre (checkArms_ends site (k + 1) arms cx' h')

end

end Sage.Check
