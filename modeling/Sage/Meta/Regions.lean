import Sage.Library.Brackets
import Sage.Meta.Evidence

/-!
# Meta — implementation regions

The comments of a source are a bracket word, of which the index finds the matching brackets.

* `Comment.mark` — what a comment opens or closes.
* `Anchor`, `anchors` — the well-formed anchor comments of a source.
* `indexSource_spec` — the sites, the diagnostics, the excerpts and the explanations.
-/

namespace Sage.Meta

open Brackets Text

/-- The bracket that a comment is. -/
def Comment.mark (source : List Char) (comment : Comment) : Brackets.Symbol Unit Unit :=
  match comment.kind source with
  | .closer => .closes ()
  | .anchor _ true => .opens ()
  | _ => .other

/-- A comment that other explanations stop at. -/
def Comment.IsMarker (source : List Char) (comment : Comment) : Prop :=
  anchorMark.isPrefixOf (trim (comment.text source)) = true ∨
    trim (comment.text source) = closerMark

structure Anchor where
  position : Nat
  comment : Comment
  name : List Char
  region : Bool

/-- The well-formed anchors among some comments, in their order. -/
def anchors (source : List Char) (comments : List Comment) : List Anchor :=
  comments.zipIdx.filterMap fun (comment, position) =>
    match comment.kind source with
    | .anchor name region => some ⟨position, comment, name, region⟩
    | _ => none

def IsRegionDiagnostic (diagnostic : Diagnostic) : Bool :=
  diagnostic.message = unopenedMessage ∨ diagnostic.message = unclosedMessage

section

variable {source : List Char} {comments : List Comment}

theorem mem_anchors {a : Anchor} : a ∈ anchors source comments ↔
    comments[a.position]? = some a.comment ∧ a.comment.kind source = .anchor a.name a.region := by
  obtain ⟨position, comment, name, region⟩ := a
  simp only [anchors, List.mem_filterMap, Prod.exists, List.mem_zipIdx_iff_getElem?]
  constructor
  · rintro ⟨comment', position', hget, heq⟩
    split at heq
    · rename_i name' region' hkind
      cases heq
      exact ⟨hget, hkind⟩
    · cases heq
  · rintro ⟨hget, hkind⟩
    refine ⟨comment, position, hget, ?_⟩
    rw [hkind]

theorem anchors_snoc (comment : Comment) : anchors source (comments ++ [comment]) =
    anchors source comments ++
      match comment.kind source with
      | .anchor name region => [⟨comments.length, comment, name, region⟩]
      | _ => [] := by
  rw [anchors, List.zipIdx_append, List.filterMap_append, ← anchors, Nat.zero_add]
  congr 1
  simp only [List.zipIdx_cons, List.zipIdx_nil, List.filterMap_cons, List.filterMap_nil]
  cases comment.kind source <;> rfl

theorem anchors_sorted (source : List Char) (comments : List Comment) :
    ((anchors source comments).map Anchor.position).Pairwise (· < ·) := by
  induction comments using List.reverseRecOn with
  | nil => exact .nil
  | append_singleton comments comment ih =>
      rw [anchors_snoc, List.map_append]
      refine List.pairwise_append.mpr ⟨ih, ?_, ?_⟩
      · split
        · exact List.pairwise_singleton _ _
        · exact .nil
      · intro i hi j hj
        obtain ⟨a, ha, rfl⟩ := List.mem_map.mp hi
        split at hj
        · rw [List.map_singleton, List.mem_singleton] at hj
          rw [hj]
          exact (List.getElem?_eq_some_iff.mp (mem_anchors.mp ha).1).1
        · cases hj

theorem anchors_injective {k m : Nat} {a a' : Anchor} (ha : (anchors source comments)[k]? = some a)
    (ha' : (anchors source comments)[m]? = some a') (h : a.position = a'.position) : k = m := by
  have hnodup : ((anchors source comments).map Anchor.position).Nodup :=
    (anchors_sorted source comments).imp Nat.ne_of_lt
  obtain ⟨hk, rfl⟩ := List.getElem?_eq_some_iff.mp ha
  obtain ⟨hm, rfl⟩ := List.getElem?_eq_some_iff.mp ha'
  refine (@List.Nodup.getElem_inj_iff _ _ hnodup k ?_ m ?_).mp ?_
  · rwa [List.length_map]
  · rwa [List.length_map]
  · rw [List.getElem_map, List.getElem_map, h]

/-- The opening brackets are the anchors of regions. -/
theorem mark_eq_opens {i : Nat} : (∃ u, (comments.map (Comment.mark source))[i]? =
    some (.opens u)) ↔ ∃ a ∈ anchors source comments, a.position = i ∧ a.region = true := by
  simp only [List.getElem?_map, Option.map_eq_some_iff]
  constructor
  · rintro ⟨u, comment, hget, hmark⟩
    rw [Comment.mark] at hmark
    split at hmark
    · cases hmark
    · rename_i name hkind
      exact ⟨⟨i, comment, name, true⟩, mem_anchors.mpr ⟨hget, hkind⟩, rfl, rfl⟩
    · cases hmark
  · rintro ⟨⟨i, comment, name, region⟩, ha, rfl, hregion⟩
    obtain ⟨hget, hkind⟩ := mem_anchors.mp ha
    refine ⟨(), comment, hget, ?_⟩
    rw [Comment.mark, hkind, hregion]

end

/-! ### The pending sites -/

section

variable (source : List Char) (context : SourceContext)
  (scopes : EvidenceScope × List EvidenceScope)

/-- The site of an anchor after the comments up to now, with the pairs of brackets in them. -/
@[grind =] def currentSite (comments : List Comment) (pairs : List (Nat × Nat)) (a : Anchor) :
    ImplementationSite :=
  match (pairs.lookup a.position).bind (comments[·]?) with
  | some closer => closeRegion source closer (openSite source context scopes a.comment a.region)
  | none => openSite source context scopes a.comment a.region

/-- The index of a source keeps the pairs of its bracket word. -/
structure Follows (comments : List Comment) (diagnostics : List Diagnostic)
    (state : IndexState) : Prop where
  pending : state.pending = (anchors source comments).map fun a =>
    (a.name, currentSite source context scopes comments
      (pairing (comments.map (Comment.mark source))).pairs a)
  opened : state.opened.map (fun k => (anchors source comments)[k]?.map Anchor.position) =
    (pairing (comments.map (Comment.mark source))).stack.map some
  diagnostics : ∃ found, state.diagnostics = diagnostics ++ found ∧
    found.filter IsRegionDiagnostic =
      (pairing (comments.map (Comment.mark source))).unopened.filterMap fun j =>
        comments[j]?.map fun comment => ⟨context.file, comment.span, unopenedMessage⟩

variable {source context scopes} {comments : List Comment} {diagnostics : List Diagnostic}
  {state : IndexState}

/-- The pairs of the comments up to now stay what they are. -/
theorem currentSite_snoc {pairs : List (Nat × Nat)} (h : ∀ p ∈ pairs, p.2 < comments.length)
    (comment : Comment) (a : Anchor) :
    currentSite source context scopes (comments ++ [comment]) pairs a =
      currentSite source context scopes comments pairs a := by
  have hget : (pairs.lookup a.position).bind ((comments ++ [comment])[·]?) =
      (pairs.lookup a.position).bind (comments[·]?) := by
    cases hlookup : pairs.lookup a.position with
    | none => rfl
    | some j =>
        obtain ⟨l, k, hpairs, -⟩ := List.lookup_eq_some_iff.mp hlookup
        have hlt := h (a.position, j) (by rw [hpairs]; simp)
        exact List.getElem?_append_left hlt
  rw [currentSite, currentSite, hget]

theorem pairs_lt {word : List (Brackets.Symbol Unit Unit)} :
    ∀ p ∈ (pairing word).pairs, p.2 < word.length :=
  fun p hp => (mem_pairs.mp (show (p.1, p.2) ∈ _ from hp)).lt.2

/-- A comment that is no bracket leaves the pairs as they are. -/
theorem pairing_other {comment : Comment} (h : comment.mark source = .other) :
    pairing ((comments ++ [comment]).map (Comment.mark source)) =
      pairing (comments.map (Comment.mark source)) := by
  rw [List.map_append, List.map_singleton, pairing_snoc, h, Pairing.step]

theorem filterMap_snoc {α β : Type} (f : α → β) {xs : List α} (x : α) {positions : List Nat}
    (h : ∀ i ∈ positions, i < xs.length) :
    (positions.filterMap fun i => (xs ++ [x])[i]?.map f) =
      positions.filterMap fun i => xs[i]?.map f :=
  List.filterMap_congr fun i hi => by rw [List.getElem?_append_left (h i hi)]

theorem unopened_lt : ∀ j ∈ (pairing (comments.map (Comment.mark source))).unopened,
    j < comments.length := by
  intro j hj
  obtain ⟨⟨b, hb⟩, -⟩ := mem_unopened.mp hj
  have hlt := (List.getElem?_eq_some_iff.mp hb).1
  rwa [List.length_map] at hlt

theorem placeholderStatus_ne {module message : String} (h : placeholderStatus module = .error message) :
    message ≠ unopenedMessage ∧ message ≠ unclosedMessage := by
  have hhead : message.toList.head? = some 'm' := by
    simp only [placeholderStatus] at h
    split_ifs at h
    cases h
    rw [String.toList_append, String.toList_append]
    rfl
  constructor
  · rintro rfl
    cases hhead
  · rintro rfl
    cases hhead

/-- A finding that is not about regions. -/
theorem placeholderDiagnostics_filter (comment : Comment) :
    (placeholderDiagnostics context scopes comment).filter IsRegionDiagnostic = [] := by
  rw [placeholderDiagnostics]
  split
  · rfl
  · rename_i message hmessage
    obtain ⟨hunopened, hunclosed⟩ := placeholderStatus_ne hmessage
    rw [List.filter_singleton, IsRegionDiagnostic]
    simp [hunopened, hunclosed]

theorem follows_other {comment : Comment} (h : Follows source context scopes comments diagnostics state)
    (hmark : comment.mark source = .other) (hanchors : ∀ name region,
      comment.kind source ≠ .anchor name region) {found : List Diagnostic}
    (hfound : found.filter IsRegionDiagnostic = []) :
    Follows source context scopes (comments ++ [comment]) diagnostics
      { state with diagnostics := state.diagnostics ++ found } := by
  have hsame : anchors source (comments ++ [comment]) = anchors source comments := by
    rw [anchors_snoc]
    split
    · rename_i name region hkind
      exact absurd hkind (hanchors name region)
    · exact List.append_nil _
  have hlt : ∀ p ∈ (pairing (comments.map (Comment.mark source))).pairs, p.2 < comments.length :=
    fun p hp => (pairs_lt p hp).trans_eq (List.length_map _)
  obtain ⟨before, hbefore, hfilter⟩ := h.diagnostics
  refine ⟨?_, ?_, before ++ found, ?_, ?_⟩
  · rw [hsame, pairing_other hmark, h.pending]
    refine List.map_congr_left fun a _ => ?_
    rw [currentSite_snoc hlt]
  · rw [hsame, pairing_other hmark, h.opened]
  · rw [hbefore, List.append_assoc]
  · rw [List.filter_append, hfound, List.append_nil, hfilter, pairing_other hmark,
      filterMap_snoc _ comment unopened_lt]

/-- The bracket on top of the stack is the pending region that is closed. -/
theorem follows_closer {comment : Comment} (h : Follows source context scopes comments diagnostics state)
    (hkind : comment.kind source = .closer) :
    Follows source context scopes (comments ++ [comment]) diagnostics
      (readComment source context scopes state comment) := by
  have hmark : comment.mark source = .closes () := by rw [Comment.mark, hkind]
  have hsame : anchors source (comments ++ [comment]) = anchors source comments := by
    rw [anchors_snoc, hkind, List.append_nil]
  have hlt : ∀ p ∈ (pairing (comments.map (Comment.mark source))).pairs, p.2 < comments.length :=
    fun p hp => (pairs_lt p hp).trans_eq (List.length_map _)
  have hpaired := paired (comments.map (Comment.mark source))
  have hstep : pairing ((comments ++ [comment]).map (Comment.mark source)) =
      (pairing (comments.map (Comment.mark source))).step comments.length
        (.closes () : Brackets.Symbol Unit Unit) := by
    rw [List.map_append, List.map_singleton, pairing_snoc, hmark, List.length_map]
  have hunopened : ∀ j ∈ (pairing (comments.map (Comment.mark source))).unopened,
    j < comments.length := unopened_lt
  have hopened := h.opened
  obtain ⟨before, hbefore, hfilter⟩ := h.diagnostics
  have hpending := h.pending
  rw [readComment, hkind]
  generalize pairing (comments.map (Comment.mark source)) = p at *
  cases hcases : state.opened with
  | nil =>
      have hstack : p.stack = [] := by
        rw [hcases] at hopened
        exact List.map_eq_nil_iff.mp hopened.symm
      simp only [Pairing.step, hstack] at hstep
      refine ⟨?_, ?_, before ++ [⟨context.file, comment.span, unopenedMessage⟩], ?_, ?_⟩
      · rw [hstep, hsame]
        refine hpending.trans (List.map_congr_left fun a _ => ?_)
        rw [currentSite_snoc hlt]
      · rw [hstep, hsame]
        rfl
      · rw [← List.append_assoc, ← hbefore]
      · rw [hstep, List.filter_append, hfilter, List.filterMap_append,
          filterMap_snoc _ comment hunopened]
        congr 1
        rw [List.filterMap_cons, List.getElem?_append_right (Nat.le_refl _), Nat.sub_self]
        rfl
  | cons k opened =>
      rw [hcases, List.map_cons] at hopened
      obtain ⟨i, stack, hstack⟩ : ∃ i stack, p.stack = i :: stack := by
        cases hp : p.stack with
        | nil => rw [hp] at hopened; cases hopened
        | cons i stack => exact ⟨i, stack, rfl⟩
      rw [hstack, List.map_cons, List.cons.injEq, Option.map_eq_some_iff] at hopened
      obtain ⟨⟨a, ha, rfl⟩, hrest⟩ := hopened
      simp only [Pairing.step, hstack] at hstep
      refine ⟨?_, ?_, before, hbefore, ?_⟩
      · rw [hstep, hsame]
        dsimp only
        rw [hpending]
        refine List.ext_getElem? fun m => ?_
        rw [List.getElem?_modify, List.getElem?_map, List.getElem?_map]
        cases hm : (anchors source comments)[m]? with
        | none => rfl
        | some a' =>
            simp only [Option.map_some, Option.map_eq_map]
            congr 1
            by_cases hkm : k = m
            · -- the region that is closed was open up to now
              subst hkm
              rw [ha] at hm
              cases hm
              have hnone : p.pairs.lookup a.position = none := by
                rw [List.lookup_eq_none_iff]
                rintro ⟨i, j⟩ hij
                have hnot := ((hpaired.opened a.position).mp (by rw [hstack]; simp)).2 j
                rw [bne_iff_ne]
                rintro rfl
                exact hnot hij
              rw [if_pos rfl, currentSite, currentSite, hnone, List.lookup_append, hnone,
                Option.none_or, List.lookup_cons_self, Option.bind_some,
                List.getElem?_append_right (Nat.le_refl _), Nat.sub_self]
              rfl
            · rw [if_neg hkm]
              have hne : a'.position ≠ a.position := by
                intro heq
                exact hkm (anchors_injective ha hm heq.symm)
              have hlookup : (p.pairs ++ [(a.position, comments.length)]).lookup a'.position =
                  p.pairs.lookup a'.position := by
                rw [List.lookup_append, List.lookup_cons, beq_false_of_ne hne]
                exact Option.or_none
              rw [← currentSite_snoc hlt comment]
              simp only [currentSite, hlookup]
      · rw [hstep, hsame]
        exact hrest
      · rw [hstep, hfilter, filterMap_snoc _ comment hunopened]

/-- An anchor is the next pending site, and the innermost open one if it opens a region. -/
theorem follows_anchor {comment : Comment} {name : List Char} {region : Bool}
    (h : Follows source context scopes comments diagnostics state)
    (hkind : comment.kind source = .anchor name region) :
    Follows source context scopes (comments ++ [comment]) diagnostics
      (readComment source context scopes state comment) := by
  have hanchors : anchors source (comments ++ [comment]) =
      anchors source comments ++ [⟨comments.length, comment, name, region⟩] := by
    rw [anchors_snoc, hkind]
  have hlt : ∀ p ∈ (pairing (comments.map (Comment.mark source))).pairs, p.2 < comments.length :=
    fun p hp => (pairs_lt p hp).trans_eq (List.length_map _)
  have hnone : (pairing (comments.map (Comment.mark source))).pairs.lookup comments.length =
      none := by
    rw [List.lookup_eq_none_iff]
    rintro ⟨i, j⟩ hij
    have hlt' := (mem_pairs.mp hij).lt
    rw [List.length_map] at hlt'
    rw [bne_iff_ne]
    exact (hlt'.1.trans hlt'.2).ne'
  have hpairs : (pairing ((comments ++ [comment]).map (Comment.mark source))).pairs =
      (pairing (comments.map (Comment.mark source))).pairs ∧
      (pairing ((comments ++ [comment]).map (Comment.mark source))).unopened =
        (pairing (comments.map (Comment.mark source))).unopened ∧
      (pairing ((comments ++ [comment]).map (Comment.mark source))).stack =
        if region then comments.length :: (pairing (comments.map (Comment.mark source))).stack
        else (pairing (comments.map (Comment.mark source))).stack := by
    rw [List.map_append, List.map_singleton, pairing_snoc, Comment.mark, hkind, List.length_map]
    cases region with
    | false => exact ⟨rfl, rfl, rfl⟩
    | true => exact ⟨rfl, rfl, rfl⟩
  obtain ⟨hpairs, hunopened, hstack⟩ := hpairs
  obtain ⟨before, hbefore, hfilter⟩ := h.diagnostics
  have hlength : state.pending.length = (anchors source comments).length := by
    rw [h.pending, List.length_map]
  have hopened : state.opened.map (fun k => (anchors source (comments ++ [comment]))[k]?.map
      Anchor.position) = (pairing (comments.map (Comment.mark source))).stack.map some := by
    rw [← h.opened, hanchors]
    refine List.map_congr_left fun k hk => ?_
    -- what is open is the index of an anchor that there was
    have hsome : (anchors source comments)[k]?.map Anchor.position ∈
        (pairing (comments.map (Comment.mark source))).stack.map some := by
      rw [← h.opened]
      exact List.mem_map_of_mem hk
    obtain ⟨i, -, hi⟩ := List.mem_map.mp hsome
    obtain ⟨a, ha, -⟩ := Option.map_eq_some_iff.mp hi.symm
    rw [List.getElem?_append_left (List.getElem?_eq_some_iff.mp ha).1]
  have hread : readComment source context scopes state comment =
      { pending := state.pending ++ [(name, openSite source context scopes comment region)]
        opened := if region then state.pending.length :: state.opened else state.opened
        diagnostics := state.diagnostics ++ placeholderDiagnostics context scopes comment } := by
    rw [readComment, hkind]
  rw [hread]
  refine ⟨?_, ?_, before ++ placeholderDiagnostics context scopes comment, ?_, ?_⟩
  · rw [hanchors, hpairs, List.map_append, List.map_singleton]
    refine congrArg₂ (· ++ ·) (h.pending.trans (List.map_congr_left fun a _ => ?_)) ?_
    · rw [currentSite_snoc hlt]
    · rw [currentSite, hnone]
      rfl
  · rw [hstack]
    cases region with
    | false => exact hopened
    | true =>
        simp only [if_pos, List.map_cons, hopened]
        rw [hanchors, hlength, List.getElem?_append_right (Nat.le_refl _), Nat.sub_self]
        rfl
  · rw [hbefore, List.append_assoc]
  · rw [List.filter_append, placeholderDiagnostics_filter, List.append_nil, hfilter, hunopened,
      filterMap_snoc _ comment unopened_lt]

/-- The induction is on the comments, with one lemma for each kind of the last of them. -/
theorem follows_foldl (comments : List Comment) (diagnostics : List Diagnostic) :
    Follows source context scopes comments diagnostics
      (comments.foldl (readComment source context scopes) ⟨[], [], diagnostics⟩) := by
  induction comments using List.reverseRecOn with
  | nil => exact ⟨rfl, rfl, [], (List.append_nil _).symm, rfl⟩
  | append_singleton comments comment ih =>
      rw [List.foldl_append, List.foldl_cons, List.foldl_nil]
      generalize comments.foldl (readComment source context scopes) ⟨[], [], diagnostics⟩ = state
        at *
      cases hkind : comment.kind source with
      | closer => exact follows_closer ih hkind
      | anchor name region => exact follows_anchor ih hkind
      | other =>
          have h := follows_other ih (by rw [Comment.mark, hkind]) (by rw [hkind]; nofun)
            (show ([] : List Diagnostic).filter IsRegionDiagnostic = [] from rfl)
          rw [readComment, hkind]
          rwa [List.append_nil] at h
      | malformed =>
          rw [readComment, hkind]
          refine follows_other ih (by rw [Comment.mark, hkind]) (by rw [hkind]; nofun) ?_
          rfl

end

/-! ### The index -/

section

variable {source : List Char} {literals : List Span}

/-- Comments are on lines of their own, in their order. -/
theorem lineComments_ordered {i j : Nat} {comment comment' : Comment}
    (hi : (lineComments source literals)[i]? = some comment)
    (hj : (lineComments source literals)[j]? = some comment') (hlt : i < j) :
    (Lines.new source).number comment.span.start < (Lines.new source).number comment'.span.start ∧
      comment.span.start < (Lines.new source).start
        ((Lines.new source).number comment'.span.start) ∧
      comment.span.start < comment'.span.start := by
  have hcomments := areComments_lineComments source literals
  obtain ⟨hi', rfl⟩ := List.getElem?_eq_some_iff.mp hi
  obtain ⟨hj', rfl⟩ := List.getElem?_eq_some_iff.mp hj
  have hlater := List.pairwise_iff_getElem.mp hcomments.apart i j hi' hj' hlt
  have hle : (lineComments source literals)[i].span.start ≤
      (lineComments source literals)[i].span.stop := by
    obtain ⟨before, body, after, -, -, hstop, -⟩ := hcomments.each _ (List.getElem_mem hi')
    rw [hstop, Nat.add_assoc]
    exact Nat.le_add_right _ _
  obtain ⟨hnumber, hstart⟩ := hlater.number_lt (hcomments.each _ (List.getElem_mem hj')) hle
  refine ⟨hnumber, hstart, ?_⟩
  obtain ⟨-, -, -, -, h⟩ := hlater
  exact Nat.lt_of_lt_of_le (Nat.lt_succ_of_le hle) h

/-- A comment that starts later is a later one. -/
theorem lt_of_start_lt {i j : Nat} {comment comment' : Comment}
    (hi : (lineComments source literals)[i]? = some comment)
    (hj : (lineComments source literals)[j]? = some comment')
    (hlt : comment.span.start < comment'.span.start) : i < j := by
  by_contra hle
  obtain rfl | h := (Nat.le_of_not_lt hle).eq_or_lt
  · rw [hi] at hj
    cases hj
    exact absurd hlt (Nat.lt_irrefl _)
  · exact absurd ((lineComments_ordered hj hi h).2.2.trans hlt) (Nat.lt_irrefl _)

/-- What explains a point stands between it and the next marker. -/
theorem explanationSpan_spec {site : ImplementationSite} {i : Nat} {comment : Comment}
    (hi : (lineComments source literals)[i]? = some comment)
    (hspanAt : site.annotationSpan = comment.span) (hregion : site.region = false)
    (hstart : site.span.start =
      (Lines.new source).start ((Lines.new source).number comment.span.start))
    {k : Nat} {other : Comment} (hk : (lineComments source literals)[k]? = some other)
    (hcovers : (explanationSpan source (lineComments source literals) site).covers other = true) :
    i ≤ k ∧ ∀ m next, i < m → m ≤ k → (lineComments source literals)[m]? = some next →
      ¬next.IsMarker source := by
  have hspan : (explanationSpan source (lineComments source literals) site).start =
      site.span.start := by
    rw [explanationSpan, hregion, if_neg Bool.false_ne_true]
    split
    · rfl
    · rfl
  simp only [Span.covers, decide_eq_true_eq, hspan, hstart] at hcovers
  constructor
  · by_contra hlt
    have h := (lineComments_ordered hk hi (Nat.lt_of_not_le hlt)).2.1
    exact absurd (hcovers.1.trans_lt h) (Nat.lt_irrefl _)
  · intro m next him hmk hm hmarker
    -- the first marker behind the point ends the span
    have hlater := (lineComments_ordered hi hm him).2.2
    have hstop := hcovers.2
    rw [explanationSpan, hregion, if_neg Bool.false_ne_true] at hstop
    split at hstop
    · rename_i first hfind
      have hfirst : first.span.start ≤ next.span.start := by
        by_contra hgt
        obtain ⟨-, before, after, happend, hbefore⟩ := List.find?_eq_some_iff_append.mp hfind
        have hindex : (lineComments source literals)[before.length]? = some first := by
          rw [happend, List.getElem?_append_right (Nat.le_refl _), Nat.sub_self]
          rfl
        have hmlt := lt_of_start_lt hm hindex (Nat.lt_of_not_le hgt)
        have hmem : next ∈ before := by
          rw [happend, List.getElem?_append_left hmlt] at hm
          exact List.mem_of_getElem? hm
        have hnot := hbefore next hmem
        rw [hspanAt] at hnot
        simp only [Bool.not_eq_true', decide_eq_false_iff_not] at hnot
        exact hnot ⟨hlater, hmarker⟩
      have hother : other.span.start < next.span.start := by
        have hle := (areComments_lineComments source literals).each other (List.mem_of_getElem? hk)
        obtain ⟨before, body, after, -, -, hend, -⟩ := hle
        have hmin := hstop.trans (Nat.min_le_right _ _)
        omega
      exact absurd (lt_of_start_lt hk hm hother) (Nat.not_lt_of_le hmk)
    · rename_i hfind
      have hnot := List.find?_eq_none.mp hfind next (List.mem_of_getElem? hm)
      rw [hspanAt] at hnot
      simp only [decide_eq_true_eq] at hnot
      exact hnot ⟨hlater, hmarker⟩

variable {context : SourceContext} {syntax_ : FileSyntax} {scopes : EvidenceScope × List EvidenceScope}
  {comments : List Comment}

theorem foldl_pushSite (explain : ImplementationSite → ImplementationSite)
    (pending : List (List Char × ImplementationSite)) (entries : Implementations)
    (name : List Char) :
    ((pending.foldl (fun entries (name, site) => pushSite entries name (explain site)) entries)
      name).getD [] = (entries name).getD [] ++
        (pending.filter fun entry => entry.1 = name).map fun entry => explain entry.2 := by
  induction pending generalizing entries with
  | nil => exact (List.append_nil _).symm
  | cons entry pending ih =>
      obtain ⟨other, site⟩ := entry
      rw [List.foldl_cons, ih]
      dsimp only
      rw [pushSite]
      by_cases h : other = name
      · subst h
        rw [PartialMap.insert, Function.update_self, Option.getD_some,
          List.filter_cons_of_pos (by exact decide_eq_true rfl), List.map_cons, List.append_assoc]
        rfl
      · rw [PartialMap.insert, Function.update_of_ne (Ne.symm h),
          List.filter_cons_of_neg (by simpa using h)]

/-- The region of an anchor is closed by the bracket that matches. -/
theorem currentSite_of_matches {a : Anchor} {j : Nat} {closer : Comment}
    (h : Matches (comments.map (Comment.mark source)) a.position j)
    (hj : comments[j]? = some closer) :
    currentSite source context scopes comments
      (pairing (comments.map (Comment.mark source))).pairs a =
        closeRegion source closer (openSite source context scopes a.comment a.region) := by
  have hlookup : (pairing (comments.map (Comment.mark source))).pairs.lookup a.position =
      some j := by
    cases hlookup : (pairing (comments.map (Comment.mark source))).pairs.lookup a.position with
    | none =>
        have hnot := List.lookup_eq_none_iff.mp hlookup _ (mem_pairs.mpr h)
        rw [bne_self_eq_false] at hnot
        cases hnot
    | some j' =>
        obtain ⟨l, k, hpairs, -⟩ := List.lookup_eq_some_iff.mp hlookup
        have hmem : (a.position, j') ∈ (pairing (comments.map (Comment.mark source))).pairs := by
          rw [hpairs]
          exact List.mem_append_right _ List.mem_cons_self
        rw [(mem_pairs.mp hmem).unique h]
  rw [currentSite, hlookup, Option.bind_some, hj]

/-- Closing changes where a site ends. -/
theorem currentSite_spec (pairs : List (Nat × Nat)) (a : Anchor) :
    (currentSite source context scopes comments pairs a).annotationSpan = a.comment.span ∧
    (currentSite source context scopes comments pairs a).region = a.region ∧
    (currentSite source context scopes comments pairs a).line =
      (Lines.new source).number a.comment.span.start ∧
    (currentSite source context scopes comments pairs a).span.start =
      (Lines.new source).start ((Lines.new source).number a.comment.span.start) := by
  rw [currentSite]
  split
  · exact ⟨rfl, rfl, rfl, rfl⟩
  · exact ⟨rfl, rfl, rfl, rfl⟩

/-- The regions that are left open are reported from the first on. -/
theorem unclosed_eq {diagnostics : List Diagnostic} {state : IndexState}
    (h : Follows source context scopes comments diagnostics state) :
    (state.opened.reverse.filterMap fun index => state.pending[index]?.map fun entry =>
      (⟨context.file, entry.2.annotationSpan, unclosedMessage⟩ : Diagnostic)) =
    (pairing (comments.map (Comment.mark source))).stack.reverse.filterMap fun i =>
      comments[i]?.map fun comment => ⟨context.file, comment.span, unclosedMessage⟩ := by
  have hreport (k : Nat) : (state.pending[k]?.map fun entry =>
      (⟨context.file, entry.2.annotationSpan, unclosedMessage⟩ : Diagnostic)) =
        (((anchors source comments)[k]?.map Anchor.position).bind (comments[·]?)).map
          fun comment => ⟨context.file, comment.span, unclosedMessage⟩ := by
    rw [h.pending, List.getElem?_map]
    cases hk : (anchors source comments)[k]? with
    | none => rfl
    | some a =>
        rw [Option.map_some, Option.map_some, Option.map_some, Option.bind_some,
          (mem_anchors.mp (List.mem_of_getElem? hk)).1, Option.map_some,
          (currentSite_spec _ a).1]
  have hopened : (state.opened.reverse.map fun k =>
      (anchors source comments)[k]?.map Anchor.position) =
        (pairing (comments.map (Comment.mark source))).stack.reverse.map some := by
    rw [List.map_reverse, h.opened, List.map_reverse]
  simp only [hreport]
  have hmap := congrArg (List.filterMap fun position : Option Nat =>
    (position.bind (comments[·]?)).map fun comment =>
      (⟨context.file, comment.span, unclosedMessage⟩ : Diagnostic)) hopened
  rw [List.filterMap_map, List.filterMap_map] at hmap
  exact hmap

/-- A report on every bracket without a match. -/
theorem filterMap_reports {message : String} {positions : List Nat}
    (h : ∀ i ∈ positions, i < comments.length) :
    (positions.filterMap fun i => comments[i]?.map fun comment =>
      (⟨context.file, comment.span, message⟩ : Diagnostic)) = [] ↔ positions = [] := by
  constructor
  · intro hnil
    refine List.eq_nil_iff_forall_not_mem.mpr fun i hi => ?_
    have hnone := List.filterMap_eq_nil_iff.mp hnil i hi
    rw [List.getElem?_eq_getElem (h i hi)] at hnone
    cases hnone
  · rintro rfl
    rfl

end

section

variable {source : List Char} {literals : List Span} {context : SourceContext}
  {scopes : EvidenceScope × List EvidenceScope}

/-- What the index reports, by the brackets without a match. -/
theorem reports_spec {diagnostics : List Diagnostic} {comments : List Comment} {state : IndexState}
    (h : Follows source context scopes comments diagnostics state) :
    ∃ found, (state.diagnostics ++ state.opened.reverse.filterMap fun index =>
        state.pending[index]?.map fun entry =>
          (⟨context.file, entry.2.annotationSpan, unclosedMessage⟩ : Diagnostic)) =
        diagnostics ++ found ∧
      found.filter IsRegionDiagnostic =
        ((pairing (comments.map (Comment.mark source))).unopened.filterMap fun j =>
          comments[j]?.map fun comment => ⟨context.file, comment.span, unopenedMessage⟩) ++
        ((pairing (comments.map (Comment.mark source))).stack.reverse.filterMap fun i =>
          comments[i]?.map fun comment => ⟨context.file, comment.span, unclosedMessage⟩) := by
  obtain ⟨found, hfound, hfilter⟩ := h.diagnostics
  rw [unclosed_eq h, hfound, List.append_assoc]
  refine ⟨_, rfl, ?_⟩
  rw [List.filter_append, hfilter]
  congr 1
  refine List.filter_eq_self.mpr fun diagnostic hdiagnostic => ?_
  obtain ⟨i, -, hi⟩ := List.mem_filterMap.mp hdiagnostic
  obtain ⟨comment, -, rfl⟩ := Option.map_eq_some_iff.mp hi
  exact decide_eq_true (.inr rfl)

/-- The comment of a bracket. -/
theorem exists_closer {comments : List Comment} {i j : Nat}
    (h : Matches (comments.map (Comment.mark source)) i j) :
    ∃ closer, comments[j]? = some closer := by
  have hlt := h.lt.2
  rw [List.length_map] at hlt
  exact ⟨_, List.getElem?_eq_getElem hlt⟩

/-- Regions are apart, or one is inside the other. -/
theorem regions_nested {a a' : Anchor} {j j' : Nat}
    (ha : a ∈ anchors source (lineComments source literals))
    (ha' : a' ∈ anchors source (lineComments source literals))
    (h : Matches ((lineComments source literals).map (Comment.mark source)) a.position j)
    (h' : Matches ((lineComments source literals).map (Comment.mark source)) a'.position j')
    (hlt : a.position < a'.position) {closer closer' : Comment}
    (hj : (lineComments source literals)[j]? = some closer)
    (hj' : (lineComments source literals)[j']? = some closer') :
    j < a'.position ∧ (Lines.new source).stop ((Lines.new source).number closer.span.start) ≤
        (Lines.new source).start ((Lines.new source).number a'.comment.span.start) ∨
      j' < j ∧ (Lines.new source).start ((Lines.new source).number a.comment.span.start) <
        (Lines.new source).start ((Lines.new source).number a'.comment.span.start) ∧
        (Lines.new source).stop ((Lines.new source).number closer'.span.start) <
          (Lines.new source).stop ((Lines.new source).number closer.span.start) := by
  have hwell := Lines.wellFormed_new source
  have hget := (mem_anchors.mp ha).1
  have hget' := (mem_anchors.mp ha').1
  obtain hapart | hinside := h.nested h' hlt
  · exact .inl ⟨hapart, Lines.stop_le_start hwell (lineComments_ordered hj hget' hapart).1
      (Lines.number_le_count hwell _)⟩
  · refine .inr ⟨hinside, ?_, ?_⟩
    · exact Lines.start_lt_start hwell (Lines.number_pos hwell _)
        (lineComments_ordered hget hget' hlt).1 (Lines.number_le_count hwell _)
    · exact Lines.stop_lt_stop hwell (Lines.number_pos hwell _)
        (lineComments_ordered hj' hj hinside).1 (Lines.number_le_count hwell _)

end

/-- The sites of the index are those of the anchors, and their regions are the matching brackets
among the comments.  Every bracket without a match is reported, and what explains a point stands
before the next marker. -/
theorem indexSource_spec (source : List Char) (literals : List Span) (syntax_ : FileSyntax)
    (context : SourceContext) (entries : Implementations) (diagnostics : List Diagnostic) :
    let comments := lineComments source literals
    let word := comments.map (Comment.mark source)
    let lines := Lines.new source
    let result := indexSource source literals syntax_ context entries diagnostics
    ∃ site : Anchor → ImplementationSite,
      (∀ name, (result.1 name).getD [] = (entries name).getD [] ++
        ((anchors source comments).filter fun a => a.name = name).map site) ∧
      (∀ a ∈ anchors source comments, (site a).annotationSpan = a.comment.span ∧
        (site a).region = a.region ∧ (site a).line = lines.number a.comment.span.start) ∧
      (∃ (found : List Diagnostic) (closers openers : List Nat),
        result.2 = diagnostics ++ found ∧
        closers.Pairwise (· < ·) ∧ openers.Pairwise (· < ·) ∧
        (∀ j, j ∈ closers ↔ (∃ u, word[j]? = some (.closes u)) ∧ ∀ i, ¬Matches word i j) ∧
        (∀ i, i ∈ openers ↔ (∃ u, word[i]? = some (.opens u)) ∧ ∀ j, ¬Matches word i j) ∧
        found.filter IsRegionDiagnostic =
          (closers.filterMap fun j => comments[j]?.map fun comment =>
            ⟨context.file, comment.span, unopenedMessage⟩) ++
          (openers.filterMap fun i => comments[i]?.map fun comment =>
            ⟨context.file, comment.span, unclosedMessage⟩) ∧
        (found.filter IsRegionDiagnostic = [] ↔ Balanced (fun _ _ => True) word)) ∧
      (∀ a ∈ anchors source comments, ∀ j closer, comments[j]? = some closer →
        Matches word a.position j →
          (site a).span = ⟨lines.start (lines.number a.comment.span.start),
            lines.stop (lines.number closer.span.start)⟩ ∧
          (site a).excerpt = slice source (site a).span) ∧
      (∀ a ∈ anchors source comments, ∀ a' ∈ anchors source comments, ∀ j j',
        Matches word a.position j → Matches word a'.position j' → a.position < a'.position →
          j < a'.position ∧ (site a).span.stop ≤ (site a').span.start ∨
          j' < j ∧ (site a).span.start < (site a').span.start ∧
            (site a').span.stop < (site a).span.stop) ∧
      (∀ a ∈ anchors source comments, a.region = false →
        ∃ span, (site a).explanation = explanation source comments span ∧
          ∀ k comment, comments[k]? = some comment → span.covers comment = true →
            a.position ≤ k ∧ ∀ m marker, a.position < m → m ≤ k →
              comments[m]? = some marker → ¬marker.IsMarker source) := by
  intro comments word lines result
  have hfollows : Follows source context (fileScopes source syntax_ context) comments diagnostics
    _ := follows_foldl comments diagnostics
  obtain ⟨current, hcurrent⟩ : ∃ current : Anchor → ImplementationSite, current =
    currentSite source context (fileScopes source syntax_ context) comments
      (pairing word).pairs := ⟨_, rfl⟩
  have hspec (a : Anchor) : (current a).annotationSpan = a.comment.span ∧
      (current a).region = a.region ∧ (current a).line = lines.number a.comment.span.start ∧
      (current a).span.start = lines.start (lines.number a.comment.span.start) :=
    hcurrent ▸ currentSite_spec (pairing word).pairs a
  refine ⟨fun a => explainSite source comments (current a), ?_, ?_, ?_, ?_, ?_, ?_⟩
  · intro name
    refine (foldl_pushSite (explainSite source comments) _ entries name).trans ?_
    rw [hfollows.pending, List.filter_map, List.map_map, ← hcurrent]
    rfl
  · exact fun a _ => ⟨(hspec a).1, (hspec a).2.1, (hspec a).2.2.1⟩
  · obtain ⟨found, hfound, hfilter⟩ := reports_spec hfollows
    have hstack : ∀ i ∈ (pairing word).stack.reverse, i < comments.length := by
      intro i hi
      have hlt := (paired word).stacked.lt i (List.mem_reverse.mp hi)
      rwa [List.length_map] at hlt
    refine ⟨found, (pairing word).unopened, (pairing word).stack.reverse, hfound,
      (paired word).sorted, List.pairwise_reverse.mpr (paired word).stacked.sorted,
      fun j => mem_unopened, fun i => List.mem_reverse.trans mem_stack, hfilter, ?_⟩
    rw [hfilter, List.append_eq_nil_iff, filterMap_reports unopened_lt, filterMap_reports hstack,
      List.reverse_eq_nil_iff, balanced_iff_pairing]
    exact And.comm
  · intro a ha j closer hj hmatch
    refine ⟨?_, rfl⟩
    show (current a).span = _
    rw [hcurrent, currentSite_of_matches hmatch hj]
    rfl
  · intro a ha a' ha' j j' hmatch hmatch' hlt
    obtain ⟨closer, hj⟩ := exists_closer hmatch
    obtain ⟨closer', hj'⟩ := exists_closer hmatch'
    have hspan : (current a).span = ⟨lines.start (lines.number a.comment.span.start),
        lines.stop (lines.number closer.span.start)⟩ := by
      rw [hcurrent, currentSite_of_matches hmatch hj]
      rfl
    have hspan' : (current a').span = ⟨lines.start (lines.number a'.comment.span.start),
        lines.stop (lines.number closer'.span.start)⟩ := by
      rw [hcurrent, currentSite_of_matches hmatch' hj']
      rfl
    show j < a'.position ∧ (current a).span.stop ≤ (current a').span.start ∨
      j' < j ∧ (current a).span.start < (current a').span.start ∧
        (current a').span.stop < (current a).span.stop
    rw [hspan, hspan']
    exact regions_nested ha ha' hmatch hmatch' hlt hj hj'
  · intro a ha hregion
    refine ⟨explanationSpan source comments (current a), rfl, ?_⟩
    intro k comment hk hcovers
    exact explanationSpan_spec (mem_anchors.mp ha).1 (hspec a).1 ((hspec a).2.1.trans hregion)
      (hspec a).2.2.2 hk hcovers

end Sage.Meta
