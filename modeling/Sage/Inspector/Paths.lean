import Mathlib.Data.List.Nodup
import Sage.Inspector.Segments
import Sage.Library.Selection

/-!
# Inspector — the walks agree

The directory, the replay of a path and the reference to a symbol read the same paths off a crate,
and no two symbols share one.  Another host with the same sources reads the same paths exactly if
the items without a name hash alike, which for an impl depends on the ids its names were given.

* `Descends` — a chain of canonical children, which all three walks follow.
* `mem_walkSymbols`, `resolveLocalSymbol_eq_some`, `findLocalReference_of_descends` — the walks.
* `pathsAgree_iff` — the agreement of the walks and of two hosts.
-/

namespace Sage.Inspector

/-- Where a chain of children below a path leads. -/
def pathFrom (path : SymbolPath) : List CanonicalChild → SymbolPath
  | [] => path
  | child :: chain => pathFrom (path ++ "/" ++ child.segment) chain

def displayFrom (display : String) : List CanonicalChild → String
  | [] => display
  | child :: chain => displayFrom (display ++ "::" ++ child.label) chain

/-- Where a chain of children below a symbol ends. -/
def chainEnd (parent : Symbol) : List CanonicalChild → Symbol
  | [] => parent
  | child :: chain => chainEnd child.symbol chain

theorem pathFrom_append (path : SymbolPath) (chain : List CanonicalChild)
    (child : CanonicalChild) :
    pathFrom path (chain ++ [child]) = pathFrom path chain ++ "/" ++ child.segment := by
  induction chain generalizing path with
  | nil => rfl
  | cons _ _ ih => exact ih _

theorem displayFrom_append (display : String) (chain : List CanonicalChild)
    (child : CanonicalChild) :
    displayFrom display (chain ++ [child]) = displayFrom display chain ++ "::" ++ child.label := by
  induction chain generalizing display with
  | nil => rfl
  | cons _ _ ih => exact ih _

theorem chainEnd_append (parent : Symbol) (chain : List CanonicalChild) (child : CanonicalChild) :
    chainEnd parent (chain ++ [child]) = child.symbol := by
  induction chain generalizing parent with
  | nil => rfl
  | cons _ _ ih => exact ih _

theorem toList_pathFrom (path : SymbolPath) (chain : List CanonicalChild) :
    (pathFrom path chain).toList =
      path.toList ++ (chain.map (·.segment.toList)).flatMap ('/' :: ·) := by
  induction chain generalizing path with
  | nil => simp [pathFrom]
  | cons child chain ih =>
      rw [pathFrom, ih]
      simp [String.toList_append]

/-- The segments stand between slashes after the first one. -/
theorem toList_pathFrom_of_ne_nil (path : SymbolPath) {chain : List CanonicalChild}
    (hne : chain ≠ []) : (pathFrom path chain).toList =
      (path ++ "/").toList ++ ['/'].intercalate (chain.map (·.segment.toList)) := by
  have hmap : chain.map (·.segment.toList) ≠ [] := mt List.map_eq_nil_iff.mp hne
  have hmark : "/".toList = ['/'] := by decide
  rw [toList_pathFrom, Numbered.flatMap_cons_eq_intercalate _ hmap, String.toList_append, hmark]
  simp

namespace SymbolTable

variable [FxHasher] {t : SymbolTable} {ids : HostIds}

/-- Each symbol of the chain is a canonical child of the one before it. -/
def Descends (t : SymbolTable) (ids : HostIds) : Symbol → List CanonicalChild → Prop
  | _, [] => True
  | parent, child :: chain =>
      child ∈ t.canonicalChildren ids (t.directSymbolChildren parent) ∧
        t.Descends ids child.symbol chain

theorem descends_append {parent : Symbol} {chain : List CanonicalChild} {child : CanonicalChild} :
    t.Descends ids parent (chain ++ [child]) ↔ t.Descends ids parent chain ∧
      child ∈ t.canonicalChildren ids (t.directSymbolChildren (chainEnd parent chain)) := by
  induction chain generalizing parent with
  | nil => simp [Descends, chainEnd]
  | cons first chain ih =>
      rw [List.cons_append, Descends, Descends, ih, chainEnd, and_assoc]

theorem slash_notMem_segment {child : CanonicalChild} {symbols : List Symbol}
    (h : child ∈ t.canonicalChildren ids symbols) : '/' ∉ child.segment.toList := by
  obtain ⟨n, -, hsegment⟩ := canonicalChildrenFrom_segment h
  rw [hsegment]
  exact slash_notMem_segmentText (isBase_baseSegment _) n

theorem Descends.slash_notMem : ∀ {parent : Symbol} {chain : List CanonicalChild},
    t.Descends ids parent chain → ∀ segment ∈ chain.map (·.segment.toList), '/' ∉ segment
  | _, [], _, _, h => absurd h List.not_mem_nil
  | _, child :: chain, hchain, segment, h => by
      rcases List.mem_cons.mp h with rfl | h
      · exact slash_notMem_segment hchain.1
      · exact slash_notMem hchain.2 segment h

/-- A path tells the segments of the chain that leads to it. -/
theorem Descends.segments_eq {t' : SymbolTable} {ids' : HostIds} {parent parent' : Symbol}
    {path : SymbolPath} {chain chain' : List CanonicalChild} (hchain : t.Descends ids parent chain)
    (hchain' : t'.Descends ids' parent' chain') (h : pathFrom path chain = pathFrom path chain') :
    chain.map (·.segment) = chain'.map (·.segment) := by
  have hchars := congrArg String.toList h
  rw [toList_pathFrom, toList_pathFrom] at hchars
  have hpieces := Numbered.pieces_injective hchain.slash_notMem hchain'.slash_notMem
    (List.append_cancel_left hchars)
  refine List.map_injective_iff.mpr (fun a b => String.toList_inj.mp) ?_
  rw [List.map_map, List.map_map]
  exact hpieces

/-- The segments of a chain tell its labels. -/
theorem Descends.displayFrom_eq {t' : SymbolTable} {ids' : HostIds} : ∀ {parent parent' : Symbol}
    {display : String} {chain chain' : List CanonicalChild}, t.Descends ids parent chain →
      t'.Descends ids' parent' chain' → chain.map (·.segment) = chain'.map (·.segment) →
        displayFrom display chain = displayFrom display chain'
  | _, _, _, [], [], _, _, _ => rfl
  | _, _, _, [], _ :: _, _, _, h => absurd h (by simp)
  | _, _, _, _ :: _, [], _, _, h => absurd h (by simp)
  | _, _, display, child :: chain, child' :: chain', hchain, hchain', h => by
      obtain ⟨hsegment, hsegments⟩ := List.cons.inj h
      obtain ⟨m, -, hm⟩ := canonicalChildrenFrom_segment hchain.1
      obtain ⟨n, -, hn⟩ := canonicalChildrenFrom_segment hchain'.1
      have hbases := segmentText_injective (isBase_baseSegment child.symbol)
        (isBase_baseSegment child'.symbol) (hm.symm.trans (hsegment.trans hn))
      have hlabel : child.label = child'.label := by
        rw [(mem_canonicalChildren hchain.1).2.2.1, (mem_canonicalChildren hchain'.1).2.2.1]
        exact displayLabel_eq_of_baseSegment hbases.1
      rw [displayFrom, displayFrom, hlabel, hchain.2.displayFrom_eq hchain'.2 hsegments]

/-! ### The replay of a path -/

/-- At most one child has a segment. -/
theorem find?_segment_eq_some {symbols : List Symbol} {child : CanonicalChild} {segment : String} :
    (t.canonicalChildren ids symbols).find? (·.segment = segment) = some child ↔
      child ∈ t.canonicalChildren ids symbols ∧ child.segment = segment :=
  Selection.find?_key_eq_some canonicalChildrenFrom_nodup

/-- The owned child with a segment is found, and then the replay goes on below it. -/
theorem resolveSegments_eq_some {s : Symbol} : ∀ {segments : List String} {parent : Symbol}
    {current : Option Symbol},
    t.resolveSegments ids (t.directSymbolChildren parent) current segments = some s ↔
      ∃ chain, t.Descends ids parent chain ∧ chain.map (·.segment) = segments ∧
        (if chain = [] then current else some (chainEnd parent chain)) = some s
  | [], parent, current => by
      rw [resolveSegments]
      constructor
      · intro h
        exact ⟨[], trivial, rfl, h⟩
      · rintro ⟨chain, -, hnil, h⟩
        rwa [List.map_eq_nil_iff.mp hnil] at h
  | segment :: segments, parent, current => by
      rw [resolveSegments]
      simp only [Option.bind_eq_bind, Option.bind_eq_some_iff, find?_segment_eq_some,
        resolveSegments_eq_some]
      constructor
      · rintro ⟨child, ⟨hchild, rfl⟩, chain, hchain, rfl, hend⟩
        refine ⟨child :: chain, ⟨hchild, hchain⟩, rfl, ?_⟩
        cases chain with
        | nil => exact hend
        | cons => exact hend
      · rintro ⟨chain, hchain, hsegments, hend⟩
        cases chain with
        | nil => exact absurd hsegments (by simp)
        | cons child chain =>
            obtain ⟨hsegment, hsegments⟩ := List.cons.inj hsegments
            refine ⟨child, ⟨hchain.1, hsegment⟩, chain, hchain.2, hsegments, ?_⟩
            cases chain with
            | nil => exact hend
            | cons => exact hend

end SymbolTable

namespace LocalCrate

theorem directSymbolChildren_root (c : LocalCrate) :
    c.directSymbolChildren c.root = c.members c.root := by
  rw [SymbolTable.directSymbolChildren, SymbolTable.ownedSymbolChildren, if_neg (by
    rw [c.root_module.2]; decide), c.root_module.1]
  rfl

variable [FxHasher] {c : LocalCrate} {ids ids' : HostIds}

/-- The paths that replay to a symbol are those of the chains that end at it. -/
theorem resolveLocalSymbol_eq_some {path : SymbolPath} {s : Symbol} :
    c.resolveLocalSymbol ids path = some s ↔
      ∃ chain child, c.Descends ids c.root (chain ++ [child]) ∧
        pathFrom c.rootPath (chain ++ [child]) = path ∧ child.symbol = s := by
  have htext (chain : List CanonicalChild) :
      (chain.map (·.segment.toList)).map String.ofList = chain.map (·.segment) := by
    simp [Function.comp_def]
  rw [SymbolTable.resolveLocalSymbol]
  constructor
  · intro h
    split at h
    · rename_i hstart
      obtain ⟨rest, hrest⟩ := List.isPrefixOf_iff_prefix.mp hstart
      simp only [← hrest, List.drop_left, ← c.directSymbolChildren_root,
        SymbolTable.resolveSegments_eq_some] at h
      obtain ⟨chain, hchain, hsegments, hend⟩ := h
      rcases List.eq_nil_or_concat chain with rfl | ⟨chain, child, rfl⟩
      · exact absurd hend (by simp)
      · rw [List.concat_eq_append] at hchain hsegments hend
        rw [if_neg (by simp), chainEnd_append] at hend
        refine ⟨chain, child, hchain, ?_, Option.some.inj hend⟩
        have hpieces : (chain ++ [child]).map (·.segment.toList) = rest.splitOn '/' := by
          rw [← htext] at hsegments
          exact List.map_injective_iff.mpr (fun a b => String.ofList_inj.mp) hsegments
        refine String.toList_inj.mp ?_
        rw [toList_pathFrom_of_ne_nil _ (by simp), hpieces, List.intercalate_splitOn, hrest]
    · cases h
  · rintro ⟨chain, child, hchain, rfl, rfl⟩
    have hpieces : (chain ++ [child]).map (·.segment.toList) ≠ [] := by simp
    have hstart : startsWith (pathFrom c.rootPath (chain ++ [child])) (c.rootPath ++ "/") := by
      rw [startsWith, toList_pathFrom_of_ne_nil _ (by simp)]
      exact List.isPrefixOf_iff_prefix.mpr (List.prefix_append _ _)
    simp only [if_pos hstart, toList_pathFrom_of_ne_nil c.rootPath (List.concat_ne_nil child chain),
      List.drop_left, List.splitOn_intercalate '/' hchain.slash_notMem hpieces, htext,
      ← c.directSymbolChildren_root, SymbolTable.resolveSegments_eq_some]
    exact ⟨chain ++ [child], hchain, rfl, by rw [if_neg (by simp), chainEnd_append]⟩

/-! ### The directory -/

theorem walkSymbols_eq_flatMap (c : LocalCrate) (ids : HostIds) (parent : Symbol)
    (parentPath parentDisplay : String) : c.walkSymbols ids parent parentPath parentDisplay =
      (c.canonicalChildren ids (c.directSymbolChildren parent)).flatMap fun child =>
        (child.symbol, c.summary parentPath parentDisplay child) ::
          c.walkSymbols ids child.symbol (parentPath ++ "/" ++ child.segment)
            (parentDisplay ++ "::" ++ child.label) := by
  rw [walkSymbols]
  conv => rhs; rw [← List.attach_map_subtype_val (c.canonicalChildren ids _), List.flatMap_map]

/-- The directory below a symbol lists the ends of the chains below it. -/
theorem mem_walkSymbols (parent : Symbol) (parentPath parentDisplay : String)
    (entry : Symbol × SymbolSummary) :
    entry ∈ c.walkSymbols ids parent parentPath parentDisplay ↔
      ∃ chain child, c.Descends ids parent (chain ++ [child]) ∧
        entry = (child.symbol,
          c.summary (pathFrom parentPath chain) (displayFrom parentDisplay chain) child) := by
  rw [walkSymbols_eq_flatMap, List.mem_flatMap]
  constructor
  · rintro ⟨first, hfirst, hentry⟩
    have hlt := c.height_lt parent _ (SymbolTable.mem_canonicalChildren hfirst).1
    rcases List.mem_cons.mp hentry with rfl | hentry
    · exact ⟨[], first, ⟨hfirst, trivial⟩, rfl⟩
    · obtain ⟨chain, child, hchain, hentry⟩ := (mem_walkSymbols _ _ _ _).mp hentry
      exact ⟨first :: chain, child, ⟨hfirst, hchain⟩, hentry⟩
  · rintro ⟨chain, child, hchain, rfl⟩
    cases chain with
    | nil => exact ⟨child, hchain.1, List.mem_cons_self⟩
    | cons first chain =>
        have hlt := c.height_lt parent _ (SymbolTable.mem_canonicalChildren hchain.1).1
        exact ⟨first, hchain.1, List.mem_cons_of_mem _
          ((mem_walkSymbols _ _ _ _).mpr ⟨chain, child, hchain.2, rfl⟩)⟩
termination_by c.height parent

omit [FxHasher] in
theorem summary_path (c : LocalCrate) (path display : String) (chain : List CanonicalChild)
    (child : CanonicalChild) :
    (c.summary (pathFrom path chain) display child).path = pathFrom path (chain ++ [child]) := by
  rw [pathFrom_append]
  rfl

omit [FxHasher] in
theorem summary_displayPath (c : LocalCrate) (path display : String) (chain : List CanonicalChild)
    (child : CanonicalChild) :
    (c.summary path (displayFrom display chain) child).displayPath =
      displayFrom display (chain ++ [child]) := by
  rw [displayFrom_append]
  rfl

/-- Equal paths are shown alike, whatever crates they are of. -/
theorem displayPath_eq {c' : LocalCrate} (hname : c.targetName = c'.targetName)
    {entry entry' : Symbol × SymbolSummary} (hentry : entry ∈ c.indexedSymbols ids)
    (hentry' : entry' ∈ c'.indexedSymbols ids') (hpath : entry.2.path = entry'.2.path) :
    entry.2.displayPath = entry'.2.displayPath := by
  obtain ⟨chain, child, hchain, rfl⟩ := (mem_walkSymbols _ _ _ _).mp hentry
  obtain ⟨chain', child', hchain', rfl⟩ := (mem_walkSymbols _ _ _ _).mp hentry'
  have hroot : c.rootPath = c'.rootPath := by
    rw [SymbolTable.rootPath, SymbolTable.rootPath, hname]
  rw [summary_path, summary_path, hroot] at hpath
  rw [summary_displayPath, summary_displayPath, hname]
  exact hchain.displayFrom_eq hchain' (hchain.segments_eq hchain' hpath)

/-- The paths below a symbol are those of the chains below it. -/
theorem exists_of_mem_walkSymbols {parent : Symbol} {parentPath parentDisplay : String}
    {path : SymbolPath}
    (h : path ∈ (c.walkSymbols ids parent parentPath parentDisplay).map (·.2.path)) :
    ∃ chain, chain ≠ [] ∧ c.Descends ids parent chain ∧ pathFrom parentPath chain = path := by
  obtain ⟨entry, hentry, rfl⟩ := List.mem_map.mp h
  obtain ⟨chain, child, hchain, rfl⟩ := (mem_walkSymbols _ _ _ _).mp hentry
  exact ⟨chain ++ [child], by simp, hchain, (c.summary_path _ _ _ _).symm⟩

/-- No path below a symbol is the one the walk started from. -/
theorem notMem_walkSymbols (parent : Symbol) (parentPath parentDisplay : String) :
    parentPath ∉ (c.walkSymbols ids parent parentPath parentDisplay).map (·.2.path) := by
  intro h
  obtain ⟨chain, hne, hchain, hpath⟩ := exists_of_mem_walkSymbols h
  have hnil : c.Descends ids parent [] := trivial
  exact hne (List.map_eq_nil_iff.mp (hchain.segments_eq hnil hpath))

theorem walkSymbols_nodup (parent : Symbol) (parentPath parentDisplay : String) :
    ((c.walkSymbols ids parent parentPath parentDisplay).map (·.2.path)).Nodup := by
  rw [walkSymbols_eq_flatMap, List.map_flatMap, List.nodup_flatMap]
  constructor
  · intro child hchild
    have hlt := c.height_lt parent _ (SymbolTable.mem_canonicalChildren hchild).1
    rw [List.map_cons, List.nodup_cons]
    exact ⟨notMem_walkSymbols _ _ _, walkSymbols_nodup _ _ _⟩
  · -- the paths of two siblings and of what is below them part at the segments of the siblings
    have hbelow (child : CanonicalChild)
        (hchild : child ∈ c.canonicalChildren ids (c.directSymbolChildren parent))
        (path : SymbolPath)
        (h : path ∈ ((child.symbol, c.summary parentPath parentDisplay child) ::
          c.walkSymbols ids child.symbol (parentPath ++ "/" ++ child.segment)
            (parentDisplay ++ "::" ++ child.label)).map (·.2.path)) :
        ∃ chain, c.Descends ids parent (child :: chain) ∧
          pathFrom parentPath (child :: chain) = path := by
      rcases List.mem_cons.mp h with rfl | h
      · exact ⟨[], ⟨hchild, trivial⟩, rfl⟩
      · obtain ⟨chain, -, hchain, hpath⟩ := exists_of_mem_walkSymbols h
        exact ⟨chain, ⟨hchild, hchain⟩, hpath⟩
    have hsegments : (c.canonicalChildren ids (c.directSymbolChildren parent)).Pairwise
        (·.segment ≠ ·.segment) := List.pairwise_map.mp SymbolTable.canonicalChildrenFrom_nodup
    refine hsegments.imp_of_mem ?_
    intro x y hx hy hne path hxpath hypath
    obtain ⟨chain, hchain, hpath⟩ := hbelow x hx path hxpath
    obtain ⟨chain', hchain', hpath'⟩ := hbelow y hy path hypath
    exact hne (List.cons.inj (hchain.segments_eq hchain' (hpath.trans hpath'.symm))).1
termination_by c.height parent

/-! ### The reference to a symbol -/

omit [FxHasher] in
theorem root_external (c : LocalCrate) (s : Symbol) (h : s ∈ c.directSymbolChildren s') :
    (c.data s).external = false → s ≠ c.root := by
  intro hlocal hroot
  have howner := c.child_owner s' s h hlocal
  rw [hroot, c.root_owner] at howner
  cases howner

/-- The owners of the end of a chain are the symbols of the chain. -/
theorem ownerChain_of_descends {chain : List CanonicalChild} {steps : Nat} {rest : List Symbol}
    (hchain : c.Descends ids c.root chain) (hsteps : chain.length < steps) :
    c.ownerChain steps (chainEnd c.root chain) (chainEnd c.root chain :: rest) =
      some (c.root :: (chain.map (·.symbol) ++ rest)) := by
  induction chain using List.reverseRecOn generalizing steps rest with
  | nil =>
      obtain ⟨steps, rfl⟩ := Nat.exists_eq_succ_of_ne_zero (Nat.ne_of_gt hsteps)
      rw [SymbolTable.ownerChain, if_pos (show chainEnd c.root [] = c.root from rfl)]
      rfl
  | append_singleton chain child ih =>
      obtain ⟨steps, rfl⟩ := Nat.exists_eq_succ_of_ne_zero (Nat.ne_of_gt (Nat.zero_lt_of_lt hsteps))
      obtain ⟨hinit, hchild⟩ := SymbolTable.descends_append.mp hchain
      obtain ⟨hmem, hlocal, -⟩ := SymbolTable.mem_canonicalChildren hchild
      rw [chainEnd_append, SymbolTable.ownerChain, if_neg (c.root_external _ hmem hlocal),
        c.child_owner _ _ hmem hlocal]
      simp only [Option.bind_eq_bind, Option.bind_some]
      rw [ih hinit (by simpa using hsteps)]
      simp

theorem followChain_of_descends {parent : Symbol} {path : SymbolPath}
    {final : Option CanonicalChild} : ∀ {chain : List CanonicalChild},
    c.Descends ids parent chain → c.followChain ids parent path final (chain.map (·.symbol)) =
      some (pathFrom path chain, chain.getLast?.or final)
  | [], _ => rfl
  | child :: chain, hchain => by
      have hfind : (c.canonicalChildren ids (c.directSymbolChildren parent)).find?
          (·.symbol = child.symbol) = some child := by
        refine (Selection.find?_key_eq_some ?_).mpr ⟨hchain.1, rfl⟩
        rw [SymbolTable.canonicalChildren, SymbolTable.canonicalChildrenFrom_symbols]
        exact (c.children_nodup parent).filter _
      rw [List.map_cons, SymbolTable.followChain, hfind]
      simp only [Option.bind_eq_bind, Option.bind_some]
      rw [followChain_of_descends hchain.2, pathFrom, List.getLast?_cons]
      cases chain.getLast? <;> rfl

/-- The reference to a symbol says what the directory says of it. -/
theorem findLocalReference_of_descends {chain : List CanonicalChild} {child : CanonicalChild}
    (hchain : c.Descends ids c.root (chain ++ [child])) (hdepth : chain.length + 1 < 256)
    (display : String) : c.findLocalReference ids child.symbol =
      some (c.summary (pathFrom c.rootPath chain) display child).reference := by
  obtain ⟨-, hchild⟩ := SymbolTable.descends_append.mp hchain
  obtain ⟨hmem, hlocal, -⟩ := SymbolTable.mem_canonicalChildren hchild
  have howners : c.ownerChain 256 child.symbol [child.symbol] =
      some (c.root :: ((chain ++ [child]).map (·.symbol) ++ [])) := by
    rw [← chainEnd_append c.root chain child]
    exact ownerChain_of_descends hchain (by simpa using hdepth)
  rw [SymbolTable.findLocalReference, if_neg (c.root_external _ hmem hlocal), howners]
  simp only [Option.bind_eq_bind, Option.bind_some, List.drop_succ_cons, List.drop_zero,
    List.append_nil]
  rw [followChain_of_descends hchain, List.getLast?_concat]
  simp only [Option.bind_some, Option.some_or]
  rw [SymbolSummary.reference, summary_path]
  rfl

/-- How many owners a symbol has, up to the root. -/
inductive DepthOf (c : LocalCrate) : Nat → Symbol → Prop where
  | root : c.DepthOf 0 c.root
  | child {n : Nat} {parent s : Symbol} : c.DepthOf n parent → s ∈ c.directSymbolChildren parent →
      (c.data s).external = false → c.DepthOf (n + 1) s

theorem depthOf_chainEnd {n : Nat} {parent : Symbol} (hparent : c.DepthOf n parent) :
    ∀ {chain : List CanonicalChild}, c.Descends ids parent chain →
      c.DepthOf (n + chain.length) (chainEnd parent chain)
  | [], _ => hparent
  | child :: chain, hchain => by
      obtain ⟨hmem, hlocal, -⟩ := SymbolTable.mem_canonicalChildren hchain.1
      have hchild := depthOf_chainEnd (hparent.child hmem hlocal) hchain.2
      rwa [List.length_cons, Nat.add_comm chain.length, ← Nat.add_assoc]

/-- A chain leads to every symbol below the root. -/
theorem exists_descends (ids : HostIds) {n : Nat} {s : Symbol} (h : c.DepthOf n s) :
    ∃ chain, c.Descends ids c.root chain ∧ chain.length = n ∧ chainEnd c.root chain = s := by
  induction h with
  | root => exact ⟨[], trivial, rfl, rfl⟩
  | @child n parent s _ hmem hlocal ih =>
      obtain ⟨chain, hchain, hlength, hend⟩ := ih
      have hsymbol : s ∈ (c.canonicalChildren ids (c.directSymbolChildren parent)).map
          (·.symbol) := by
        rw [SymbolTable.canonicalChildren, SymbolTable.canonicalChildrenFrom_symbols]
        exact List.mem_filter.mpr ⟨hmem, by simp [hlocal]⟩
      obtain ⟨child, hchild, rfl⟩ := List.mem_map.mp hsymbol
      refine ⟨chain ++ [child], SymbolTable.descends_append.mpr ⟨hchain, ?_⟩, ?_,
        chainEnd_append _ _ _⟩
      · rwa [hend]
      · rw [List.length_append, hlength, List.length_singleton]

/-! ### Agreement -/

/-- The directory gives a symbol a path. -/
def HasPath (c : LocalCrate) (ids : HostIds) (s : Symbol) (path : SymbolPath) : Prop :=
  ∃ summary, (s, summary) ∈ c.indexedSymbols ids ∧ summary.path = path

/-- The walks of one host agree, and another host gives the same paths. -/
structure PathsAgree (c : LocalCrate) (ids ids' : HostIds) : Prop where
  listed : ∀ {n s}, c.DepthOf (n + 1) s → ∃ path, c.HasPath ids s path
  distinct : (c.rootPath :: (c.indexedSymbols ids).map (·.2.path)).Nodup
  resolves : ∀ path s, c.resolveLocalSymbol ids path = some s ↔ c.HasPath ids s path
  references : ∀ entry ∈ c.indexedSymbols ids,
    c.findLocalReference ids entry.1 = some entry.2.reference
  root_reference : c.findLocalReference ids c.root = some c.rootSummary.reference
  stable : ∀ s path, c.HasPath ids s path ↔ c.HasPath ids' s path

/-- What a host hashes to name an item gives the same hash under the ids of another. -/
def HashesAlike (c : LocalCrate) (ids ids' : HostIds) : Prop :=
  ∀ ⦃n s⦄, c.DepthOf (n + 1) s → c.UsesHash s →
    c.stableSymbolHash ids s = c.stableSymbolHash ids' s

theorem HashesAlike.refl (ids : HostIds) : c.HashesAlike ids ids := fun _ _ _ _ => rfl

/-- An item whose syntax feeds no id, as that of an import, hashes alike everywhere. -/
theorem hashesAlike_of_plain (h : ∀ {n s}, c.DepthOf (n + 1) s → c.UsesHash s →
    ((c.data s).kind = .impl ∨ (c.data s).kind = .use) ∧ (c.data s).external = false ∧
      HashInput.AllPlain (c.data s).syntaxHash) : c.HashesAlike ids ids' := by
  intro n s hs hhash
  obtain ⟨hkind, hlocal, hplain⟩ := h hs hhash
  have hvalues : HashInput.values ids (c.data s).syntaxHash =
      HashInput.values ids' (c.data s).syntaxHash := HashInput.values_eq_of_plain hplain
  rcases hkind with hkind | hkind <;>
    simp only [SymbolTable.stableSymbolHash, hkind, hlocal, Bool.false_eq_true, if_false, hvalues]

theorem hasPath_iff {s : Symbol} {path : SymbolPath} : c.HasPath ids s path ↔
    ∃ chain child, c.Descends ids c.root (chain ++ [child]) ∧
      pathFrom c.rootPath (chain ++ [child]) = path ∧ child.symbol = s := by
  constructor
  · rintro ⟨summary, hmem, rfl⟩
    obtain ⟨chain, child, hchain, hentry⟩ := (mem_walkSymbols _ _ _ _).mp hmem
    obtain ⟨rfl, rfl⟩ := Prod.mk.inj hentry
    exact ⟨chain, child, hchain, (c.summary_path _ _ _ _).symm, rfl⟩
  · rintro ⟨chain, child, hchain, rfl, rfl⟩
    exact ⟨_, (mem_walkSymbols _ _ _ _).mpr ⟨chain, child, hchain, rfl⟩, c.summary_path _ _ _ _⟩

/-- Where everything hashes alike, a symbol has the same canonical children. -/
theorem HashesAlike.canonicalChildren_eq (halike : c.HashesAlike ids ids') {n : Nat}
    {parent : Symbol} (hparent : c.DepthOf n parent) :
    c.canonicalChildren ids (c.directSymbolChildren parent) =
      c.canonicalChildren ids' (c.directSymbolChildren parent) :=
  SymbolTable.canonicalChildrenFrom_congr fun s hs hlocal =>
    (SymbolTable.baseSegment_eq_iff s).mpr (halike (hparent.child hs hlocal))

/-- A canonical child of a symbol is one level below it. -/
theorem DepthOf.canonicalChild {n : Nat} {parent : Symbol} (hparent : c.DepthOf n parent)
    {child : CanonicalChild}
    (hchild : child ∈ c.canonicalChildren ids (c.directSymbolChildren parent)) :
    c.DepthOf (n + 1) child.symbol :=
  have ⟨hmem, hlocal, _⟩ := SymbolTable.mem_canonicalChildren hchild
  hparent.child hmem hlocal

theorem HashesAlike.descends_iff (halike : c.HashesAlike ids ids') {n : Nat} {parent : Symbol}
    (hparent : c.DepthOf n parent) : ∀ {chain : List CanonicalChild},
    c.Descends ids parent chain ↔ c.Descends ids' parent chain
  | [] => Iff.rfl
  | child :: chain => by
      rw [SymbolTable.Descends, SymbolTable.Descends, halike.canonicalChildren_eq hparent]
      exact and_congr_right fun hchild => halike.descends_iff (hparent.canonicalChild hchild)

theorem HashesAlike.walkSymbols_eq (halike : c.HashesAlike ids ids') {n : Nat} {parent : Symbol}
    (hparent : c.DepthOf n parent) (parentPath parentDisplay : String) :
    c.walkSymbols ids parent parentPath parentDisplay =
      c.walkSymbols ids' parent parentPath parentDisplay := by
  rw [c.walkSymbols_eq_flatMap, c.walkSymbols_eq_flatMap, ← halike.canonicalChildren_eq hparent]
  refine List.flatMap_congr fun child hchild => congrArg _ ?_
  have hlt := c.height_lt parent _ (SymbolTable.mem_canonicalChildren hchild).1
  exact halike.walkSymbols_eq (hparent.canonicalChild hchild) _ _
termination_by c.height parent

theorem HashesAlike.resolveLocalSymbol_eq (halike : c.HashesAlike ids ids') (path : SymbolPath) :
    c.resolveLocalSymbol ids path = c.resolveLocalSymbol ids' path := by
  ext s
  rw [resolveLocalSymbol_eq_some, resolveLocalSymbol_eq_some]
  simp only [halike.descends_iff .root]

theorem HashesAlike.followChain_eq (halike : c.HashesAlike ids ids') {n : Nat} {parent : Symbol}
    (hparent : c.DepthOf n parent) (path : SymbolPath) (final : Option CanonicalChild) :
    ∀ symbols : List Symbol, c.followChain ids parent path final symbols =
      c.followChain ids' parent path final symbols := by
  intro symbols
  induction symbols generalizing n parent path final with
  | nil => rfl
  | cons s symbols ih =>
      rw [SymbolTable.followChain, SymbolTable.followChain, halike.canonicalChildren_eq hparent]
      refine Option.bind_congr fun child hfind => ?_
      have hs : child.symbol = s := by simpa using List.find?_some hfind
      exact ih (hs ▸ hparent.canonicalChild (List.mem_of_find?_eq_some hfind)) _ _

theorem HashesAlike.findLocalReference_eq (halike : c.HashesAlike ids ids') (s : Symbol) :
    c.findLocalReference ids s = c.findLocalReference ids' s := by
  simp only [SymbolTable.findLocalReference, halike.followChain_eq .root]

/-- One path for a symbol under both ids means that its segment has one base. -/
theorem hashesAlike_of_hasPath
    (hstable : ∀ s path, c.HasPath ids s path → c.HasPath ids' s path) :
    c.HashesAlike ids ids' := by
  intro n s hs
  obtain ⟨chain, hchain, hlength, hend⟩ := exists_descends ids hs
  rcases List.eq_nil_or_concat chain with rfl | ⟨chain, child, rfl⟩
  · exact absurd hlength (by simp)
  · rw [List.concat_eq_append] at hchain hend
    rw [chainEnd_append] at hend
    obtain ⟨chain', child', hchain', hpath, hend'⟩ :=
      hasPath_iff.mp (hstable s _ (hasPath_iff.mpr ⟨chain, child, hchain, rfl, hend⟩))
    have hsegments := hchain'.segments_eq hchain hpath
    rw [List.map_append, List.map_append] at hsegments
    have hsegment : child'.segment = child.segment :=
      (List.cons.inj (List.append_inj_right' hsegments rfl)).1
    obtain ⟨m, -, hm⟩ := SymbolTable.canonicalChildrenFrom_segment
      (SymbolTable.descends_append.mp hchain).2
    obtain ⟨m', -, hm'⟩ := SymbolTable.canonicalChildrenFrom_segment
      (SymbolTable.descends_append.mp hchain').2
    rw [hend] at hm
    rw [hend'] at hm'
    have hbases := segmentText_injective (SymbolTable.isBase_baseSegment s)
      (SymbolTable.isBase_baseSegment s) (hm.symm.trans (hsegment.symm.trans hm'))
    exact (SymbolTable.baseSegment_eq_iff s).mp hbases.1

/-- Every symbol of the crate has fewer than 256 owners. -/
def Shallow (c : LocalCrate) : Prop := ∀ ⦃n s⦄, c.DepthOf n s → n < 256

theorem findLocalReference_of_mem (hdepth : c.Shallow) {entry : Symbol × SymbolSummary}
    (hentry : entry ∈ c.indexedSymbols ids) :
    c.findLocalReference ids entry.1 = some entry.2.reference := by
  obtain ⟨chain, child, hchain, rfl⟩ := (mem_walkSymbols _ _ _ _).mp hentry
  have hlt := hdepth (depthOf_chainEnd .root hchain)
  exact findLocalReference_of_descends hchain (by simpa using hlt) _

theorem pathsAgree_iff (hdepth : c.Shallow) : c.PathsAgree ids ids' ↔ c.HashesAlike ids ids' := by
  constructor
  · intro h
    exact hashesAlike_of_hasPath fun s path => (h.stable s path).mp
  · intro halike
    refine ⟨?_, ?_, ?_, ?_, ?_, ?_⟩
    · intro n s hs
      obtain ⟨chain, hchain, hlength, hend⟩ := exists_descends ids hs
      rcases List.eq_nil_or_concat chain with rfl | ⟨chain, child, rfl⟩
      · exact absurd hlength (by simp)
      · rw [List.concat_eq_append] at hchain hend
        rw [chainEnd_append] at hend
        exact ⟨_, hasPath_iff.mpr ⟨chain, child, hchain, rfl, hend⟩⟩
    · exact List.nodup_cons.mpr ⟨notMem_walkSymbols _ _ _, walkSymbols_nodup _ _ _⟩
    · intro path s
      exact resolveLocalSymbol_eq_some.trans hasPath_iff.symm
    · intro entry hentry
      exact findLocalReference_of_mem hdepth hentry
    · rw [SymbolTable.findLocalReference, if_pos rfl]
      rfl
    · intro s path
      rw [hasPath_iff, hasPath_iff]
      simp only [halike.descends_iff .root]

end LocalCrate

/-- The hasher of `rustc-hash`, which mixes each word in and rotates at the end. -/
instance (priority := low) rustcHash : FxHasher where
  hash words :=
    let mixed := words.foldl (fun hash word => (hash + word) * 0xf1357aea2e62a9c5) 0
    mixed <<< 26 ||| mixed >>> 38

def demoRoot : Symbol := ⟨"local-mod", 0⟩

def demoStruct : Symbol := ⟨"local-struct", 0⟩

def demoImpl : Symbol := ⟨"local-impl", 0⟩

/-- The symbols of `struct B; impl B {}`. -/
def demoName : Identifier := ⟨"demo", by decide, by decide⟩

def implTable : SymbolTable where
  targetName := "demo"
  root := demoRoot
  data s :=
    if s = demoRoot then
      ⟨.mod, false, demoName, .sourceFile, [], none, none, none⟩
    else if s = demoStruct then
      ⟨.struct, false, ⟨"B", by decide, by decide⟩, .sourceFile, [], none, some demoRoot, none⟩
    else
      ⟨.impl, false, ⟨"", by decide, by decide⟩, .sourceFile,
        [.word 0, .word 0, .word 0, .word 0, .entry [.word 0, .name "B"], .word 0, .word 0],
        none, some demoRoot, none⟩
  members s := if s = demoRoot then [demoStruct, demoImpl] else []
  completeness _ := .complete

theorem implTable_children (s : Symbol) : implTable.directSymbolChildren s =
    if s = demoRoot then [demoStruct, demoImpl] else [] := by
  by_cases hroot : s = demoRoot
  · subst hroot
    rfl
  · by_cases hstruct : s = demoStruct
    · subst hstruct
      rfl
    · simp [SymbolTable.directSymbolChildren, SymbolTable.ownedSymbolChildren, implTable, hroot,
        hstruct]

theorem eq_of_mem_implTable {s child : Symbol} (h : child ∈ implTable.directSymbolChildren s) :
    s = demoRoot ∧ (child = demoStruct ∨ child = demoImpl) := by
  rw [implTable_children] at h
  split at h
  · exact ⟨‹_›, by simpa using h⟩
  · exact absurd h List.not_mem_nil

def implCrate : LocalCrate where
  toSymbolTable := implTable
  height s := if s = demoRoot then 1 else 0
  root_module := by decide
  root_owner := by decide
  child_owner := by
    intro s child h hlocal
    obtain ⟨rfl, rfl | rfl⟩ := eq_of_mem_implTable h <;> decide
  children_nodup := by
    intro s
    rw [implTable_children]
    split <;> decide
  height_lt := by
    intro s child h
    obtain ⟨rfl, rfl | rfl⟩ := eq_of_mem_implTable h <;> decide

theorem implCrate_shallow : implCrate.Shallow := by
  have hone {n : Nat} {s : Symbol} (h : implCrate.DepthOf n s) : n ≤ 1 ∧ (n = 1 → s ≠ demoRoot) := by
    induction h with
    | root => exact ⟨Nat.zero_le 1, fun h => absurd h (by decide)⟩
    | @child n parent s _ hmem _ ih =>
        obtain ⟨rfl, hs⟩ := eq_of_mem_implTable hmem
        have hn : n = 0 := by
          rcases Nat.le_one_iff_eq_zero_or_eq_one.mp ih.1 with hn | hn
          · exact hn
          · exact absurd rfl (ih.2 hn)
        subst hn
        refine ⟨Nat.le_refl 1, fun _ => ?_⟩
        rcases hs with rfl | rfl <;> decide
  intro n s h
  exact Nat.lt_of_le_of_lt (hone h).1 (by decide)

/-- The ids of a host that interned every name as one it had met before. -/
def idsFrom (id : UInt64) : HostIds where
  name _ := id
  symbol _ := 0

theorem implCrate_agrees :
    implCrate.Shallow ∧ implCrate.PathsAgree (idsFrom 1) (idsFrom 1) :=
  ⟨implCrate_shallow, (LocalCrate.pathsAgree_iff implCrate_shallow).mpr (.refl _)⟩

/-- Two hosts that met `B` at different times name its impl differently. -/
theorem implCrate_disagrees :
    ¬∀ (c : LocalCrate) (ids ids' : HostIds), c.Shallow → c.PathsAgree ids ids' := by
  intro hclaim
  have hagree := hclaim implCrate (idsFrom 1) (idsFrom 2) implCrate_shallow
  have hhash := LocalCrate.hashesAlike_of_hasPath (fun s path => (hagree.stable s path).mp)
    (.child .root (s := demoImpl) (by decide) (by decide)) (by decide)
  exact absurd hhash (by decide)

end Sage.Inspector
