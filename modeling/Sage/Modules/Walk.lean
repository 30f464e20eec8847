import Mathlib.Data.Set.Finite.Lattice
import Mathlib.Data.List.Chain
import Sage.Library.Descent
import Sage.Modules.Files

/-!
# Modules — walks of the module tree

`local_expanded_module_items` and `module_expansion_complete` of `local_syms/mods.rs`, with
`local_impls` and `local_impl_candidates` of `local_syms/impls.rs`.  What macros write, and what is
known of an impl or a derive, are parameters of a crate.

* `Crate`, `expandedItems`, `children`.
* `localImpls`, `localImplCandidates`, `moduleExpansionComplete` — the walks, with fuel for their
  depth.
* `Includes` — one file declares a module that is in another.
* `Walks`, `walks_iff` — the crates of which every walk ends.
-/

namespace Sage.Modules

open Relation (ReflTransGen TransGen transGen_swap)
open Sage.Library.Descent (Below Within)

/-- An item of a module, with the file of a module found. -/
inductive LocalModItemSym where
  | mod_ (child : Module) (active : Bool)
  | macroInvocation (id : Nat) (active : Bool)
  | impl (id : Nat) (active : Bool)
  | error
  | other (id : Nat) (active : Bool)

def parseItem (sources : SourceFiles) (source : ParseSource) (scope : LocalModSym) :
    ItemNode → LocalModItemSym
  | .mod_ name start path active body =>
      match parseMod sources source scope name start path body with
      | some child => .mod_ child active
      | none => .error
  | .macroInvocation id active => .macroInvocation id active
  | .impl id active => .impl id active
  | .error => .error
  | .other id active => .other id active

def itemHasUnexpandedActiveAttribute : LocalModItemSym → Bool
  | .mod_ _ active | .macroInvocation _ active | .impl _ active | .other _ active => active
  | .error => false

/-- What is known of an impl, when the impls of one trait are asked for. -/
inductive ImplFact where
  | candidate
  | otherTrait
  | unknown

/-- A crate of source files, with what its macros write in each module. -/
structure Crate where
  sources : SourceFiles
  root : SourcePath
  rootNodes : List ItemNode
  lookup_root : sources.lookup root = some rootNodes
  macroOutput : LocalModSym → Nat → Option (List ItemNode)
  derivedImpls : LocalModSym → Nat → List Nat
  implFact : Nat → ImplFact
  /-- No derive of an item hides an impl of the trait that is asked for. -/
  completeForTrait : LocalModSym → Nat → Bool
  deriveComplete : LocalModSym → Nat → Bool

namespace Crate

variable (C : Crate)

def rootMod : Module := ⟨.root C.root, .sourceFile C.root, C.rootNodes⟩

def unexpandedItems (M : Module) : List LocalModItemSym :=
  M.nodes.map (parseItem C.sources M.source M.sym)

/-! ### Expansion -/

def maxExpansionDepth : Nat := 128

def expandItem (sym : LocalModSym) (expand : List LocalModItemSym → List LocalModItemSym) :
    LocalModItemSym → List LocalModItemSym
  | .macroInvocation id active =>
      if active then []
      else
        match C.macroOutput sym id with
        | some nodes => expand (nodes.map (parseItem C.sources .expansion sym))
        | none => []
  | .error => []
  | .other id active =>
      if active then []
      else .other id active :: (C.derivedImpls sym id).map (LocalModItemSym.impl · false)
  | item => if itemHasUnexpandedActiveAttribute item then [] else [item]

def expandItems (sym : LocalModSym) : Nat → List LocalModItemSym → List LocalModItemSym
  | 0, items => items.flatMap (C.expandItem sym fun _ => [])
  | remaining + 1, items => items.flatMap (C.expandItem sym (expandItems sym remaining))

def expandedItems (M : Module) : List LocalModItemSym :=
  C.expandItems M.sym maxExpansionDepth (C.unexpandedItems M)

def bangMacroExpansionComplete (sym : LocalModSym) : Nat → LocalModItemSym → Bool
  | 0, .macroInvocation .. => false
  | remaining + 1, .macroInvocation id active =>
      !active &&
        match C.macroOutput sym id with
        | some nodes =>
            nodes.all fun node =>
              bangMacroExpansionComplete sym remaining (parseItem C.sources .expansion sym node)
        | none => false
  | _, .error => false
  | _, item => !itemHasUnexpandedActiveAttribute item

def unexpandedComplete (M : Module) : Bool :=
  (C.unexpandedItems M).all (C.bangMacroExpansionComplete M.sym maxExpansionDepth)

/-! ### Walks -/

def childOf : LocalModItemSym → Option Module
  | .mod_ child _ => some child
  | _ => none

def children (M : Module) : List Module := (C.expandedItems M).filterMap childOf

def localImpls : Nat → Module → List Nat → Option (List Nat)
  | 0, _, _ => none
  | depth + 1, M, output =>
      (C.expandedItems M).foldlM (fun output item =>
        match item with
        | .impl id _ => some (output ++ [id])
        | .mod_ child _ => localImpls depth child output
        | _ => some output) output

structure LocalImplCandidates where
  impls : List Nat
  complete : Bool

def moduleExpansionCompleteForTrait (M : Module) : Bool :=
  C.unexpandedComplete M && (C.expandedItems M).all fun item =>
    match item with
    | .other id active => !active && C.completeForTrait M.sym id
    | item => !itemHasUnexpandedActiveAttribute item

def localImplCandidates : Nat → Module → LocalImplCandidates → Option LocalImplCandidates
  | 0, _, _ => none
  | depth + 1, M, output =>
      (C.expandedItems M).foldlM (fun output item =>
        match item with
        | .impl id active =>
            if active then some { output with complete := false }
            else
              match C.implFact id with
              | .candidate => some { output with impls := output.impls ++ [id] }
              | .otherTrait => some output
              | .unknown => some { output with complete := false }
        | .mod_ child active =>
            if active then some { output with complete := false }
            else localImplCandidates depth child output
        | _ => some output)
        { output with complete := output.complete && C.moduleExpansionCompleteForTrait M }

/-- Whether every item is complete, up to the first that is not. -/
def completeItems (below : Module → Option Bool) (sym : LocalModSym) :
    List LocalModItemSym → Option Bool
  | [] => some true
  | item :: items => do
      let complete ←
        if itemHasUnexpandedActiveAttribute item then some false
        else
          match item with
          | .mod_ child _ => below child
          | .other id _ => some (C.deriveComplete sym id)
          | _ => some true
      if complete then completeItems below sym items else return false

def moduleExpansionComplete : Nat → Module → Option Bool
  | 0, _ => none
  | depth + 1, M =>
      if C.unexpandedComplete M then
        C.completeItems (moduleExpansionComplete depth) M.sym (C.expandedItems M)
      else some false

/-! ### Files -/

/-- A module declared without braces, with the directories of the inline modules around it. -/
inductive Declares : List (List Char) → List ItemNode → List (List Char) → List Char →
    Option (List Char) → Prop
  | here {dirs nodes name start path} (h : .mod_ name start path false none ∈ nodes) :
      Declares dirs nodes dirs name path
  | inside {dirs nodes dirs' name' path' name start path body}
      (h : .mod_ name start path false (some body) ∈ nodes)
      (hbody : Declares (path.getD name :: dirs) body dirs' name' path') :
      Declares dirs nodes dirs' name' path'

/-- The file of a module that a file declares. -/
def fileIn (sources : SourceFiles) (f : SourcePath) (dirs : List (List Char)) (name : List Char) :
    Option (List Char) → Option SourcePath
  | some path => sourceFile sources (normalizePath (directoryIn f dirs true ++ path))
  | none => resolveCandidates sources (directoryIn f dirs false) name

def Includes (f g : SourcePath) : Prop :=
  ∃ nodes dirs name path, C.sources.lookup f = some nodes ∧
    Declares [] nodes dirs name path ∧ fileIn C.sources f dirs name path = some g

def Reached (M : Module) : Prop := ReflTransGen (fun M N => N ∈ C.children M) C.rootMod M

/-- Every walk from the root ends, and no file is entered inside itself. -/
def Walks : Prop :=
  (∃ depth, C.localImpls depth C.rootMod [] ≠ none) ∧
    (∃ depth, C.localImplCandidates depth C.rootMod ⟨[], true⟩ ≠ none) ∧
    (∃ depth, C.moduleExpansionComplete depth C.rootMod ≠ none) ∧
    {M | C.Reached M}.Finite ∧ ∀ M, C.Reached M → M.sym.files.Nodup

section

variable {C : Crate} {M N : Module}

/-! ### Walks that end -/

theorem mem_children : N ∈ C.children M ↔ ∃ active, .mod_ N active ∈ C.expandedItems M := by
  constructor
  · intro h
    obtain ⟨item, hitem, hN⟩ := List.mem_filterMap.mp h
    cases item <;> simp only [childOf, Option.some.injEq, reduceCtorEq] at hN
    exact ⟨_, hN ▸ hitem⟩
  · rintro ⟨active, h⟩
    exact List.mem_filterMap.mpr ⟨_, h, rfl⟩

theorem localImpls_ends : ∀ {depth : Nat} {M : Module} {output : List Nat},
    C.localImpls depth M output ≠ none ↔ Within C.children depth M
  | 0, _, _ => iff_of_false (fun h => h rfl) id
  | depth + 1, M, output => by
      constructor
      · intro h N hN
        obtain ⟨active, hitem⟩ := mem_children.mp hN
        obtain ⟨output', hend⟩ := Sage.Library.Descent.ends_of_foldlM h _ hitem
        exact localImpls_ends.mp hend
      · intro h
        refine Sage.Library.Descent.foldlM_ends fun item hitem output' => ?_
        cases item with
        | mod_ N active => exact localImpls_ends.mpr (h N (mem_children.mpr ⟨active, hitem⟩))
        | _ => nofun

theorem localImplCandidates_ends : ∀ {depth : Nat} {M : Module} {output : LocalImplCandidates},
    Within C.children depth M → C.localImplCandidates depth M output ≠ none
  | 0, _, _, h => h.elim
  | depth + 1, M, output, h => by
      refine Sage.Library.Descent.foldlM_ends fun item hitem output' => ?_
      cases item with
      | mod_ N active =>
          cases active with
          | false =>
              have hN := h N (mem_children.mpr ⟨_, hitem⟩)
              exact localImplCandidates_ends hN
          | true => nofun
      | impl id active =>
          cases active with
          | false => cases himpl : C.implFact id <;> simp [himpl]
          | true => nofun
      | _ => nofun

theorem completeItems_ends {below : Module → Option Bool} {sym : LocalModSym} :
    ∀ {items : List LocalModItemSym}, (∀ N active, .mod_ N active ∈ items → below N ≠ none) →
    C.completeItems below sym items ≠ none
  | [], _ => nofun
  | item :: items, h => by
      have hrest : C.completeItems below sym items ≠ none :=
        completeItems_ends fun N active hN => h N active (List.mem_cons_of_mem item hN)
      have hends : ∀ complete : Bool,
          (if complete then C.completeItems below sym items else some false) ≠ none := by
        rintro (_ | _)
        · nofun
        · exact hrest
      unfold completeItems
      split
      · nofun
      · cases item with
        | mod_ N active =>
            obtain ⟨complete, hcomplete⟩ :=
              Option.ne_none_iff_exists'.mp (h N active (List.mem_cons_self ..))
            simp only [hcomplete]
            exact hends complete
        | other id active => exact hends (C.deriveComplete sym id)
        | _ => exact hends true

theorem moduleExpansionComplete_ends : ∀ {depth : Nat} {M : Module},
    Within C.children depth M → C.moduleExpansionComplete depth M ≠ none
  | 0, _, h => h.elim
  | depth + 1, M, h => by
      unfold moduleExpansionComplete
      split
      · refine completeItems_ends fun N active hN => ?_
        exact moduleExpansionComplete_ends (h N (mem_children.mpr ⟨active, hN⟩))
      · nofun

/-! ### Children -/

theorem parseItem_mod {sources : SourceFiles} {source : ParseSource} {scope : LocalModSym}
    {node : ItemNode} {active : Bool} (h : parseItem sources source scope node = .mod_ N active) :
    ∃ name start path body, node = .mod_ name start path active body ∧
      parseMod sources source scope name start path body = some N := by
  cases node with
  | mod_ name start path active' body =>
      cases hparse : parseMod sources source scope name start path body with
      | none => simp [parseItem, hparse] at h
      | some child =>
          simp only [parseItem, hparse, LocalModItemSym.mod_.injEq] at h
          obtain ⟨rfl, rfl⟩ := h
          exact ⟨name, start, path, body, rfl, hparse⟩
  | _ => simp [parseItem] at h

/-- What a macro writes has no file of its own, and neither have the modules in it. -/
def Written (scope : LocalModSym) (N : Module) : Prop :=
  N.source = .expansion ∧ N.sym.files = scope.files

theorem parseMod_expansion {sources : SourceFiles} {scope : LocalModSym} {name : List Char}
    {start : Nat} {path : Option (List Char)} {body : Option (List ItemNode)}
    (h : parseMod sources .expansion scope name start path body = some N) :
    Written scope N := by
  cases body with
  | none => cases path <;> simp [parseMod, modFile, resolveModFile, moduleDirectory] at h
  | some nodes =>
      cases h
      exact ⟨rfl, rfl⟩

theorem mem_expandItem {sym : LocalModSym} {expand : List LocalModItemSym → List LocalModItemSym}
    {item : LocalModItemSym} {active : Bool} (h : .mod_ N active ∈ C.expandItem sym expand item) :
    (item = .mod_ N active ∧ active = false) ∨
      ∃ nodes : List ItemNode,
        .mod_ N active ∈ expand (nodes.map (parseItem C.sources .expansion sym)) := by
  cases item with
  | macroInvocation id active' =>
      simp only [expandItem] at h
      split at h
      · simp at h
      · split at h
        · next nodes _ => exact .inr ⟨nodes, h⟩
        · simp at h
  | mod_ child active' =>
      cases active' with
      | false =>
          cases List.mem_singleton.mp h
          exact .inl ⟨rfl, rfl⟩
      | true => simp [expandItem, itemHasUnexpandedActiveAttribute] at h
  | impl id active' => cases active' <;> simp [expandItem, itemHasUnexpandedActiveAttribute] at h
  | error => simp [expandItem] at h
  | other id active' => cases active' <;> simp [expandItem] at h

theorem mem_expandItems {sym : LocalModSym} : ∀ {remaining : Nat} {items : List LocalModItemSym}
    {active : Bool}, .mod_ N active ∈ C.expandItems sym remaining items →
    (.mod_ N active ∈ items ∧ active = false) ∨ Written sym N
  | 0, items, active, h => by
      obtain ⟨item, hitem, hmem⟩ := List.mem_flatMap.mp h
      obtain ⟨rfl, hactive⟩ | ⟨nodes, hmem⟩ := mem_expandItem hmem
      · exact .inl ⟨hitem, hactive⟩
      · simp at hmem
  | remaining + 1, items, active, h => by
      obtain ⟨item, hitem, hmem⟩ := List.mem_flatMap.mp h
      obtain ⟨rfl, hactive⟩ | ⟨nodes, hmem⟩ := mem_expandItem hmem
      · exact .inl ⟨hitem, hactive⟩
      · obtain ⟨hmem, -⟩ | hwritten := mem_expandItems hmem
        · obtain ⟨node, -, hnode⟩ := List.mem_map.mp hmem
          obtain ⟨name, start, path, body, -, hparse⟩ := parseItem_mod hnode
          exact .inr (parseMod_expansion hparse)
        · exact .inr hwritten

theorem expandItems_mod {sym : LocalModSym} {remaining : Nat} {items : List LocalModItemSym}
    (h : .mod_ N false ∈ items) : .mod_ N false ∈ C.expandItems sym remaining items := by
  cases remaining with
  | zero => exact List.mem_flatMap.mpr ⟨_, h, List.mem_singleton.mpr rfl⟩
  | succ remaining => exact List.mem_flatMap.mpr ⟨_, h, List.mem_singleton.mpr rfl⟩

/-- The children of a module in a file are declared in it, or a macro wrote them. -/
theorem children_cases (h : N ∈ C.children M) : Written M.sym N ∨
    ∃ name start path body, .mod_ name start path false body ∈ M.nodes ∧
      parseMod C.sources M.source M.sym name start path body = some N := by
  obtain ⟨active, hitem⟩ := mem_children.mp h
  obtain ⟨hitem, rfl⟩ | hwritten := mem_expandItems hitem
  · obtain ⟨node, hnode, hparse⟩ := List.mem_map.mp hitem
    obtain ⟨name, start, path, body, rfl, hmod⟩ := parseItem_mod hparse
    exact .inr ⟨name, start, path, body, hnode, hmod⟩
  · exact .inl hwritten

theorem children_mod {name : List Char} {start : Nat} {path : Option (List Char)}
    {body : Option (List ItemNode)} (hnode : .mod_ name start path false body ∈ M.nodes)
    (hparse : parseMod C.sources M.source M.sym name start path body = some N) :
    N ∈ C.children M := by
  refine mem_children.mpr ⟨false, expandItems_mod ?_⟩
  refine List.mem_map.mpr ⟨_, hnode, ?_⟩
  simp only [parseItem, hparse]

/-! ### Files entered -/

/-- A module that stands in a file. -/
def Stands (C : Crate) (f : SourcePath) (M : Module) : Prop :=
  M.source = .sourceFile f ∧ ∃ nodes, C.sources.lookup f = some nodes ∧
    ∀ dirs name path, Declares M.sym.inlineDirectories M.nodes dirs name path →
      Declares [] nodes dirs name path

/-- The module of a whole file. -/
structure Fills (C : Crate) (f : SourcePath) (M : Module) : Prop where
  source : M.source = .sourceFile f
  inline : M.sym.inlineDirectories = []
  lookup : C.sources.lookup f = some M.nodes

variable {f g : SourcePath}

theorem Fills.stands (h : Fills C f M) : Stands C f M :=
  ⟨h.source, M.nodes, h.lookup, fun _ _ _ hdeclares => h.inline ▸ hdeclares⟩

theorem fills_rootMod : Fills C C.root C.rootMod := ⟨rfl, rfl, C.lookup_root⟩

theorem fileIn_lookup {dirs : List (List Char)} {name : List Char} {path : Option (List Char)}
    (h : fileIn C.sources f dirs name path = some g) :
    ∃ nodes, C.sources.lookup g = some nodes := by
  cases path with
  | some path => exact (sourceFile_eq_some h).2
  | none => exact resolveCandidates_lookup h

theorem modFile_sourceFile (sources : SourceFiles) (scope : LocalModSym) (name : List Char)
    (path : Option (List Char)) :
    modFile sources (.sourceFile f) scope name path =
      fileIn sources f scope.inlineDirectories name path := by
  cases path <;> rfl

/-- A declaration without braces opens the file that it names. -/
theorem parseMod_file {name : List Char} (start : Nat) {path : Option (List Char)}
    (hM : M.source = .sourceFile f) :
    parseMod C.sources M.source M.sym name start path none = some N ↔
      ∃ g nodes, fileIn C.sources f M.sym.inlineDirectories name path = some g ∧
        C.sources.lookup g = some nodes ∧
        ⟨.child M.sym name (.file g) start, .sourceFile g, nodes⟩ = N := by
  simp only [parseMod, hM, modFile_sourceFile, Option.pure_def, Option.bind_eq_bind,
    Option.bind_eq_some_iff, Option.some.injEq]
  tauto

theorem Declares.opens {dirs dirs' : List (List Char)} {nodes : List ItemNode} {name : List Char}
    {path : Option (List Char)} (h : Declares dirs nodes dirs' name path) :
    ∀ {M : Module}, M.source = .sourceFile f → M.sym.inlineDirectories = dirs → M.nodes = nodes →
    fileIn C.sources f dirs' name path = some g →
    ∃ N, TransGen (fun M N => N ∈ C.children M) M N ∧ Fills C g N := by
  induction h with
  | @here dirs nodes name start path hnode =>
      rintro M hsource rfl rfl hg
      obtain ⟨body, hbody⟩ := fileIn_lookup hg
      have hparse := (parseMod_file start hsource).mpr ⟨g, body, hg, hbody, rfl⟩
      exact ⟨_, .single (children_mod hnode hparse), rfl, rfl, hbody⟩
  | @inside dirs nodes dirs' name' path' name start path body hnode hbody ih =>
      rintro M hsource rfl rfl hg
      obtain ⟨N, hN, hfills⟩ := ih
        (M := ⟨.child M.sym name (.inline path) start, M.source, body⟩) hsource rfl rfl hg
      exact ⟨N, .head (children_mod hnode rfl) hN, hfills⟩

theorem Fills.opens (hM : Fills C f M) (h : C.Includes f g) :
    ∃ N, TransGen (fun M N => N ∈ C.children M) M N ∧ Fills C g N := by
  obtain ⟨nodes, dirs, name, path, hlookup, hdeclares, hg⟩ := h
  cases hM.lookup.symm.trans hlookup
  exact hdeclares.opens hM.source hM.inline rfl hg

theorem Fills.opens_all (hM : Fills C f M) (h : TransGen C.Includes f g) :
    ∃ N, TransGen (fun M N => N ∈ C.children M) M N ∧ Fills C g N := by
  induction h with
  | single h => exact hM.opens h
  | tail _ h ih =>
      obtain ⟨N, hMN, hN⟩ := ih
      obtain ⟨N', hNN', hN'⟩ := hN.opens h
      exact ⟨N', hMN.trans hNN', hN'⟩

/-- A file that includes itself is entered again and again. -/
theorem Fills.not_includes (h : Acc (TransGen (Below C.children)) M) :
    ∀ f, Fills C f M → ¬ TransGen C.Includes f f := by
  induction h with
  | intro M _ ih =>
      intro f hM hf
      obtain ⟨N, hMN, hN⟩ := hM.opens_all hf
      exact ih N (transGen_swap.mp hMN) f hN hf

theorem not_includes_of_acc (h : Acc (Below C.children) C.rootMod)
    (hf : ReflTransGen C.Includes C.root f) : ¬ TransGen C.Includes f f := by
  obtain rfl | hf := Relation.reflTransGen_iff_eq_or_transGen.mp hf
  · exact fills_rootMod.not_includes h.transGen _
  · obtain ⟨M, hM, hfills⟩ := fills_rootMod.opens_all hf
    exact hfills.not_includes (h.transGen.inv (transGen_swap.mp hM)) f

/-! ### Files that do not include themselves -/

/-- A child of a module in a file is written by a macro, stands in the file, or fills another. -/
theorem Stands.child (hM : Stands C f M) (hN : N ∈ C.children M) :
    Written M.sym N ∨
      (Stands C f N ∧ N.sym.files = M.sym.files ∧ sizeOf N.nodes < sizeOf M.nodes) ∨
        ∃ g, C.Includes f g ∧ Fills C g N ∧ N.sym.files = g :: M.sym.files := by
  obtain ⟨hsource, nodes, hlookup, hdeclares⟩ := hM
  obtain hwritten | ⟨name, start, path, body, hnode, hparse⟩ := children_cases hN
  · exact .inl hwritten
  · cases body with
    | some body =>
        cases hparse
        refine .inr (.inl ⟨⟨hsource, nodes, hlookup, ?_⟩, rfl, ?_⟩)
        · exact fun dirs name' path' h => hdeclares dirs name' path' (.inside hnode h)
        · have hsize := List.sizeOf_lt_of_mem hnode
          simp only [ItemNode.mod_.sizeOf_spec, Option.some.sizeOf_spec] at hsize ⊢
          omega
    | none =>
        obtain ⟨g, body, hg, hbody, rfl⟩ := (parseMod_file start hsource).mp hparse
        refine .inr (.inr ⟨g, ?_, ⟨rfl, rfl, hbody⟩, rfl⟩)
        exact ⟨nodes, _, name, path, hlookup, hdeclares _ _ _ (.here hnode), hg⟩

theorem Reached.child (hM : C.Reached M) (hN : N ∈ C.children M) : C.Reached N := .tail hM hN

theorem acc_of_stands (hwritten : ∀ M, C.Reached M → M.source = .expansion →
    Acc (Below C.children) M) (hf : Acc (fun g f => C.Includes f g) f) :
    ∀ M, C.Reached M → Stands C f M → Acc (Below C.children) M := by
  -- Each file opened comes later in the order of the files; in one file, the braces are inside
  -- one another.
  induction hf with
  | intro f _ ih =>
      intro M hreached hM
      generalize hn : sizeOf M.nodes = n
      induction n using Nat.strong_induction_on generalizing M with
      | _ n ih' =>
          subst hn
          refine .intro M fun N hN => ?_
          have hreached' := hreached.child hN
          obtain hwr | ⟨hstands, -, hsize⟩ | ⟨g, hg, hfills, -⟩ := hM.child hN
          · exact hwritten N hreached' hwr.1
          · exact ih' _ hsize N hreached' hstands rfl
          · exact ih g hg N hreached' hfills.stands

/-- The files that a module is nested in: each is included in the next. -/
structure Nested (C : Crate) (M : Module) (f : SourcePath) (rest : List SourcePath) : Prop where
  files : M.sym.files = f :: rest
  includes : (f :: rest).Pairwise fun g f => TransGen C.Includes f g
  reached : ∀ g ∈ f :: rest, ReflTransGen C.Includes C.root g
  stands : M.source = .expansion ∨ Stands C f M

theorem nested_rootMod : Nested C C.rootMod C.root [] where
  files := rfl
  includes := List.pairwise_singleton _ _
  reached _ hg := List.mem_singleton.mp hg ▸ .refl
  stands := .inr fills_rootMod.stands

theorem Nested.expansion {rest : List SourcePath} (hM : Nested C M f rest)
    (hN : Written M.sym N) : Nested C N f rest :=
  ⟨hN.2.trans hM.files, hM.includes, hM.reached, .inl hN.1⟩

/-- A macro's modules are written by it, to any depth. -/
theorem children_expansion (hM : M.source = .expansion) (hN : N ∈ C.children M) :
    Written M.sym N := by
  obtain hwritten | ⟨name, start, path, body, -, hparse⟩ := children_cases hN
  · exact hwritten
  · exact parseMod_expansion (hM ▸ hparse)

theorem Nested.child {rest : List SourcePath} (hM : Nested C M f rest)
    (hN : N ∈ C.children M) : ∃ g rest', Nested C N g rest' := by
  obtain hsource | hstands := hM.stands
  · exact ⟨f, rest, hM.expansion (children_expansion hsource hN)⟩
  · obtain hwritten | ⟨hstands', hfiles, -⟩ | ⟨g, hg, hfills, hfiles⟩ := hstands.child hN
    · exact ⟨f, rest, hM.expansion hwritten⟩
    · exact ⟨f, rest, hfiles.trans hM.files, hM.includes, hM.reached, .inr hstands'⟩
    · refine ⟨g, f :: rest, hfiles.trans (hM.files ▸ rfl), ?_, ?_, .inr hfills.stands⟩
      · refine List.pairwise_cons.mpr ⟨fun f' hf' => ?_, hM.includes⟩
        obtain rfl | hf' := List.mem_cons.mp hf'
        · exact .single hg
        · exact .tail ((List.pairwise_cons.mp hM.includes).1 f' hf') hg
      · intro f' hf'
        obtain rfl | hf' := List.mem_cons.mp hf'
        · exact .tail (hM.reached f (List.mem_cons_self ..)) hg
        · exact hM.reached f' hf'

theorem Reached.nested (hM : C.Reached M) : ∃ f rest, Nested C M f rest := by
  induction hM with
  | refl => exact ⟨C.root, [], nested_rootMod⟩
  | tail _ hN ih =>
      obtain ⟨f, rest, h⟩ := ih
      exact h.child hN

theorem files_nodup (h : ∀ f, ReflTransGen C.Includes C.root f → ¬ TransGen C.Includes f f)
    (hM : C.Reached M) : M.sym.files.Nodup := by
  obtain ⟨f, rest, hnested⟩ := hM.nested
  rw [hnested.files]
  refine hnested.includes.imp_of_mem fun hg _ hincludes heq => ?_
  exact h _ (hnested.reached _ hg) (heq ▸ hincludes)

theorem includes_mem (h : C.Includes f g) : g ∈ (C.sources.map Prod.fst).toFinset := by
  obtain ⟨_, _, _, _, -, -, hg⟩ := h
  obtain ⟨nodes, hnodes⟩ := fileIn_lookup hg
  obtain ⟨before, after, hsources, -⟩ := List.lookup_eq_some_iff.mp hnodes
  simp [hsources]

theorem acc_rootMod (h : ∀ f, ReflTransGen C.Includes C.root f → ¬ TransGen C.Includes f f)
    (hwritten : ∀ M, C.Reached M → M.source = .expansion → Acc (Below C.children) M) :
    Acc (Below C.children) C.rootMod :=
  acc_of_stands hwritten (Sage.Library.Descent.acc_of_acyclic (fun _ _ => includes_mem) h)
    C.rootMod .refl fills_rootMod.stands

theorem Reached.acc (hM : C.Reached M) (h : Acc (Below C.children) C.rootMod) :
    Acc (Below C.children) M := by
  induction hM with
  | refl => exact h
  | tail _ hN ih => exact ih.inv hN

/-- Every walk of a crate ends exactly if no file includes itself, directly or through others, and
macros do not write modules inside one another forever. -/
theorem walks_iff (C : Crate) :
    C.Walks ↔ (∀ f, ReflTransGen C.Includes C.root f → ¬ TransGen C.Includes f f) ∧
      ∀ M, C.Reached M → M.source = .expansion → Acc (Below C.children) M := by
  constructor
  · rintro ⟨⟨depth, hends⟩, -⟩
    have hacc : Acc (Below C.children) C.rootMod := (localImpls_ends.mp hends).acc
    exact ⟨fun f hf => not_includes_of_acc hacc hf, fun M hM _ => hM.acc hacc⟩
  · rintro ⟨hincludes, hwritten⟩
    have hacc := acc_rootMod hincludes hwritten
    obtain ⟨depth, hwithin⟩ := Sage.Library.Descent.exists_within_iff.mpr hacc
    exact ⟨⟨depth, localImpls_ends.mpr hwithin⟩, ⟨depth, localImplCandidates_ends hwithin⟩,
      ⟨depth, moduleExpansionComplete_ends hwithin⟩, hwithin.finite,
      fun M hM => files_nodup hincludes hM⟩

end

/-! ### What a complete walk covers -/

/-- Impls are not forgotten, and what is incomplete stays so. -/
structure LocalImplCandidates.Extends (output result : LocalImplCandidates) : Prop where
  impls : output.impls ⊆ result.impls
  complete : result.complete = true → output.complete = true

/-- The impls of a module and of the modules below it are candidates, or of another trait. -/
def ImplsCovered (C : Crate) (M : Module) (result : LocalImplCandidates) : Prop :=
  ∀ N, ReflTransGen (fun M N => N ∈ C.children M) M N →
    ∀ id active, .impl id active ∈ C.expandedItems N →
      C.implFact id = .otherTrait ∨ id ∈ result.impls

/-- What a complete result says about one item. -/
def ItemCovered (C : Crate) (item : LocalModItemSym) (result : LocalImplCandidates) : Prop :=
  match item with
  | .impl id _ => C.implFact id = .otherTrait ∨ id ∈ result.impls
  | .mod_ N _ => ImplsCovered C N result
  | _ => True

section

variable {C : Crate} {M N : Module} {output result : LocalImplCandidates}

theorem LocalImplCandidates.Extends.refl (output : LocalImplCandidates) : output.Extends output :=
  ⟨List.Subset.refl _, id⟩

theorem LocalImplCandidates.Extends.trans {final : LocalImplCandidates}
    (h : output.Extends result) (h' : result.Extends final) : output.Extends final :=
  ⟨List.Subset.trans h.impls h'.impls, fun hfinal => h.complete (h'.complete hfinal)⟩

theorem ItemCovered.mono {item : LocalModItemSym} (h : output.Extends result)
    (hitem : ItemCovered C item output) : ItemCovered C item result := by
  cases item with
  | impl id active => exact hitem.imp_right fun hid => h.impls hid
  | mod_ N active =>
      intro N' hN' id active hid
      exact (hitem N' hN' id active hid).imp_right fun hmem => h.impls hmem
  | _ => trivial

theorem localImplCandidates_covers : ∀ {depth : Nat} {M : Module}
    {output result : LocalImplCandidates},
    C.localImplCandidates depth M output = some result →
    output.Extends result ∧ (result.complete = true → ImplsCovered C M result)
  | 0, _, _, _, h => nomatch h
  | depth + 1, M, output, result, h => by
      have hstep := Sage.Library.Descent.foldlM_covers
        (R := LocalImplCandidates.Extends)
        (P := fun item result => result.complete = true → ItemCovered C item result)
        .refl .trans (fun hle hitem hcomplete => (hitem (hle.complete hcomplete)).mono hle)
        (fun item hitem b c hb => ?_) h
      · obtain ⟨hle, hitems⟩ := hstep
        refine ⟨⟨hle.impls, fun hcomplete => ?_⟩, fun hcomplete N hN => ?_⟩
        · exact (Bool.and_eq_true_iff.mp (hle.complete hcomplete)).1
        · intro id active hid
          rcases ReflTransGen.cases_head hN with rfl | ⟨N₁, hchild, hN₁⟩
          · exact hitems _ hid hcomplete
          · obtain ⟨active₁, hmod⟩ := mem_children.mp hchild
            exact hitems _ hmod hcomplete N hN₁ id active hid
      · cases item with
        | mod_ N active =>
            cases active with
            | true =>
                cases hb
                exact ⟨⟨List.Subset.refl _, nofun⟩, nofun⟩
            | false => exact localImplCandidates_covers hb
        | impl id active =>
            cases active with
            | true =>
                cases hb
                exact ⟨⟨List.Subset.refl _, nofun⟩, nofun⟩
            | false =>
                cases hfact : C.implFact id with
                | candidate =>
                    simp only [hfact, Bool.false_eq_true, ↓reduceIte, Option.some.injEq] at hb
                    subst hb
                    refine ⟨⟨List.subset_append_left _ _, fun hcomplete => hcomplete⟩, fun _ => ?_⟩
                    exact .inr (by simp)
                | otherTrait =>
                    simp only [hfact, Bool.false_eq_true, ↓reduceIte, Option.some.injEq] at hb
                    subst hb
                    exact ⟨.refl _, fun _ => .inl hfact⟩
                | unknown =>
                    simp only [hfact, Bool.false_eq_true, ↓reduceIte, Option.some.injEq] at hb
                    subst hb
                    exact ⟨⟨List.Subset.refl _, nofun⟩, nofun⟩
        | _ =>
            cases hb
            exact ⟨.refl _, fun _ => trivial⟩

end

/-- A crate of one file, in which `#[path]` names the file itself. -/
def selfIncluding : Crate where
  sources := [("lib.rs".toList, [.mod_ ['a'] 0 (some "lib.rs".toList) false none])]
  root := "lib.rs".toList
  rootNodes := [.mod_ ['a'] 0 (some "lib.rs".toList) false none]
  lookup_root := rfl
  macroOutput _ _ := none
  derivedImpls _ _ := []
  implFact _ := .otherTrait
  completeForTrait _ _ := true
  deriveComplete _ _ := true

theorem includes_selfIncluding :
    selfIncluding.Includes "lib.rs".toList "lib.rs".toList := by
  refine ⟨_, [], ['a'], some "lib.rs".toList, selfIncluding.lookup_root, ?_, ?_⟩
  · exact .here (List.mem_singleton_self _)
  · decide

/-- The file is entered inside itself, and no walk ends. -/
theorem selfIncluding_not_walks : ¬ selfIncluding.Walks := by
  rintro ⟨⟨depth, hends⟩, -⟩
  exact not_includes_of_acc (localImpls_ends.mp hends).acc .refl (.single includes_selfIncluding)

end Crate

end Sage.Modules
