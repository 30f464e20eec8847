import Sage.Meta.Inventory

/-!
# Meta — attribution of source lines

A line is attributed to the function whose lines lie within those of every other function the
inventory has at the line.  That is the innermost function of the text unless another function
stands beside it on the line, or within it where the inventory does not look.

* `Laminar` — the functions of a file nest or follow one another.
* `Finding.From` — what a visit finds is written in the file.
* `lookup_resolved_iff` — when a line is resolved without guessing.
-/

namespace Sage.Meta

/-! ### Functions nest -/

def Span.Encloses (outer inner : Span) : Prop :=
  outer.start ≤ inner.start ∧ inner.stop ≤ outer.stop ∧ outer ≠ inner

def Span.Beside (a b : Span) : Prop := a.stop ≤ b.start ∨ b.stop ≤ a.start

theorem Span.not_beside_self {a : Span} (h : a.start < a.stop) : ¬ a.Beside a := by
  rintro (hbeside | hbeside)
  · exact Nat.not_le.mpr h hbeside
  · exact Nat.not_le.mpr h hbeside

theorem Span.Encloses.not_beside {outer inner : Span} (h : outer.Encloses inner)
    (hlt : inner.start < inner.stop) : ¬ outer.Beside inner := by
  obtain ⟨hstart, hstop, -⟩ := h
  rintro (hbeside | hbeside)
  · omega
  · omega

theorem Span.Encloses.asymm {a b : Span} (h : a.Encloses b) : ¬ b.Encloses a := by
  rintro ⟨hstart, hstop, hne⟩
  obtain ⟨start, stop⟩ := a
  obtain ⟨start', stop'⟩ := b
  refine hne (Span.mk.injEq .. ▸ ⟨?_, ?_⟩)
  · exact Nat.le_antisymm hstart h.1
  · exact Nat.le_antisymm h.2.1 hstop

/-- Declarations between two positions, each within an earlier one or after it. -/
structure Laminar (low high : Nat) (ds : List RustDeclaration) : Prop where
  le : low ≤ high
  within : ∀ d ∈ ds, low ≤ d.span.start ∧ d.span.start < d.span.stop ∧ d.span.stop ≤ high
  ordered : ds.Pairwise fun d e =>
    d.span.start ≤ e.span.start ∧ e.span.stop ≤ d.span.stop ∨ d.span.stop ≤ e.span.start

namespace Laminar

variable {low middle high : Nat} {d : RustDeclaration} {ds es : List RustDeclaration}

theorem nil (h : low ≤ high) : Laminar low high [] where
  le := h
  within := List.forall_mem_nil _
  ordered := .nil

theorem append (hds : Laminar low middle ds) (hes : Laminar middle high es) :
    Laminar low high (ds ++ es) where
  le := hds.le.trans hes.le
  within := by
    intro d hd
    obtain hd | hd := List.mem_append.mp hd
    · obtain ⟨hlow, hlt, hhigh⟩ := hds.within d hd
      exact ⟨hlow, hlt, hhigh.trans hes.le⟩
    · obtain ⟨hlow, hlt, hhigh⟩ := hes.within d hd
      exact ⟨hds.le.trans hlow, hlt, hhigh⟩
  ordered := by
    refine List.pairwise_append.mpr ⟨hds.ordered, hes.ordered, fun d hd e he => .inr ?_⟩
    exact (hds.within d hd).2.2.trans (hes.within e he).1

theorem mono (h : Laminar d.span.start d.span.stop ds) (hlow : low ≤ d.span.start)
    (hhigh : d.span.stop ≤ high) : Laminar low high ds where
  le := hlow.trans (h.le.trans hhigh)
  within := by
    intro e he
    obtain ⟨hstart, hlt, hstop⟩ := h.within e he
    exact ⟨hlow.trans hstart, hlt, hstop.trans hhigh⟩
  ordered := h.ordered

theorem enclosed (h : Laminar d.span.start d.span.stop ds) (hlow : low ≤ d.span.start)
    (hlt : d.span.start < d.span.stop) (hhigh : d.span.stop ≤ high) :
    Laminar low high (d :: ds) where
  le := hlow.trans (h.le.trans hhigh)
  within := List.forall_mem_cons.mpr ⟨⟨hlow, hlt, hhigh⟩, (h.mono hlow hhigh).within⟩
  ordered := by
    refine List.pairwise_cons.mpr ⟨fun e he => .inl ?_, h.ordered⟩
    exact ⟨(h.within e he).1, (h.within e he).2.2⟩

/-- Two declarations are the same, or one encloses the other, or they stand beside each other. -/
theorem cases (h : Laminar low high ds) {a b : RustDeclaration} (ha : a ∈ ds) (hb : b ∈ ds) :
    a.span = b.span ∨ a.span.Encloses b.span ∨ b.span.Encloses a.span ∨
      a.span.Beside b.span := by
  let Related (a b : RustDeclaration) : Prop := a.span = b.span ∨ a.span.Encloses b.span ∨
    b.span.Encloses a.span ∨ a.span.Beside b.span
  have hsymm : Std.Symm Related := by
    refine ⟨?_⟩
    rintro a b (heq | h | h | h)
    · exact .inl heq.symm
    · exact .inr (.inr (.inl h))
    · exact .inr (.inl h)
    · exact .inr (.inr (.inr h.symm))
  have hordered : ds.Pairwise Related := by
    refine h.ordered.imp ?_
    rintro a b (⟨hstart, hstop⟩ | hafter)
    · by_cases heq : a.span = b.span
      · exact .inl heq
      · exact .inr (.inl ⟨hstart, hstop, heq⟩)
    · exact .inr (.inr (.inr (.inl hafter)))
  have hself : ∀ a ∈ ds, Related a a := fun a _ => .inl rfl
  exact List.Pairwise.forall_of_forall hself hordered ha hb

end Laminar

mutual

theorem RustSyntax.Placed.laminar {low high : Nat} : {s : RustSyntax} → s.Placed low high →
    Laminar low high s.functions
  | .module _ _, h => h.2.2.2.laminar.mono h.1 h.2.2.1
  | .function d signature hasBody body, h => by
      obtain ⟨hlow, hlt, hhigh, middle, hsignature, hbody⟩ := h
      have hparts := hsignature.laminar.append hbody.laminar
      cases hasBody with
      | false => exact hparts.mono hlow hhigh
      | true => exact hparts.enclosed hlow hlt hhigh
  | .type_ _ _, h => h.2.2.2.laminar.mono h.1 h.2.2.1
  | .trait_ _ _ _, h => by
      obtain ⟨hlow, -, hhigh, middle, hparts, hmembers⟩ := h
      exact (hparts.laminar.append hmembers.laminar).mono hlow hhigh
  | .impl_ _ _ _ _, h => by
      obtain ⟨middle, hparts, hmembers⟩ := h
      exact hparts.laminar.append hmembers.laminar
  | .definitions _ _, h => .nil h
  | .macroItem _, h => .nil h
  | .item _, h => PlacedAll.laminar h
  | .invocation _, h => .nil h
  | .other _, h => PlacedAll.laminar h

theorem PlacedAll.laminar {low high : Nat} : {parts : List RustSyntax} →
    PlacedAll low high parts → Laminar low high (functionsAll parts)
  | [], h => .nil h
  | _ :: _, h => by
      obtain ⟨middle, hpart, hparts⟩ := h
      exact hpart.laminar.append hparts.laminar

end

/-! ### What is found is written -/

theorem lineAt_mono (text : List Char) {n m : Nat} (h : n ≤ m) : lineAt text n ≤ lineAt text m := by
  obtain ⟨rest, hrest⟩ := Text.exists_takeBytes_append text h
  rw [lineAt, lineAt, hrest, List.count_append]
  omega

/-- A finding in the file of a context is about one of its functions. -/
def Finding.From (text : List Char) (context : Context) (functions : List RustDeclaration) :
    Finding → Prop
  | .callable region => ∃ d ∈ functions, region = context.region text d.span
  | .annotated sageItem site => site.executable = true → ∃ d ∈ functions,
      site.file = context.file ∧ site.span = d.span ∧ site.line = lineAt text d.span.start ∧
        site.endLine = lineAt text d.span.stop ∧
        ∃ mark ∈ d.annotations, mark.item context = some sageItem
  | .opaqueMacro _ => True

section Visit

variable {text : List Char} {context : Context} {ds es : List RustDeclaration}
  {fs gs : List Finding}

def AllFrom (text : List Char) (context : Context) (functions : List RustDeclaration)
    (findings : List Finding) : Prop :=
  ∀ f ∈ findings, f.From text context functions

theorem AllFrom.mono (h : AllFrom text context ds fs) (hsub : ds ⊆ es) :
    AllFrom text context es fs := by
  intro f hf
  have hfrom := h f hf
  cases f with
  | callable region =>
      obtain ⟨d, hd, hregion⟩ := hfrom
      exact ⟨d, hsub hd, hregion⟩
  | annotated sageItem site =>
      intro hexecutable
      obtain ⟨d, hd, hsite⟩ := hfrom hexecutable
      exact ⟨d, hsub hd, hsite⟩
  | opaqueMacro region => trivial

theorem AllFrom.nil : AllFrom text context ds [] := List.forall_mem_nil _

theorem AllFrom.append (hfs : AllFrom text context ds fs) (hgs : AllFrom text context es gs) :
    AllFrom text context (ds ++ es) (fs ++ gs) := by
  intro f hf
  obtain hf | hf := List.mem_append.mp hf
  · exact hfs.mono (List.subset_append_left ds es) f hf
  · exact hgs.mono (List.subset_append_right ds es) f hf

/-- Only the file and the crate of a context matter. -/
theorem AllFrom.leave {name : String} {conditions : List String}
    (h : AllFrom text (context.enter name conditions) ds fs) : AllFrom text context ds fs := by
  intro f hf
  have hfrom := h f hf
  cases f <;> exact hfrom

theorem allFrom_record (kind : RustItemKind) (executable : Bool) (d : RustDeclaration) :
    AllFrom text context (if executable then [d] else [])
      (record text kind executable context d) := by
  intro f hf
  obtain hf | hf := List.mem_append.mp hf
  · cases executable with
    | false => cases hf
    | true =>
        obtain rfl := List.mem_singleton.mp hf
        exact ⟨d, List.mem_singleton_self d, rfl⟩
  · obtain ⟨mark, hmark, hf⟩ := List.mem_filterMap.mp hf
    obtain ⟨sageItem, hitem, rfl⟩ := Option.map_eq_some_iff.mp hf
    intro hexecutable
    obtain rfl : executable = true := hexecutable
    exact ⟨d, List.mem_singleton_self d, rfl, rfl, rfl, rfl, mark, hmark, hitem⟩

end Visit

mutual

theorem RustSyntax.allFrom_visit (text : List Char) (position : Position) (context : Context) :
    (s : RustSyntax) → AllFrom text context s.functions (s.visit text position context)
  | .module d contents => by
      have hrecord : AllFrom text context [] _ := allFrom_record .module false d
      have hcontents := allFrom_visitAll text .item (context.enter d.name d.conditions) contents
      cases position with
      | member => exact .nil
      | item => exact hrecord.append hcontents.leave
      | body => exact hrecord.append hcontents.leave
  | .function d signature false body => by
      have hrecord (kind : RustItemKind) : AllFrom text context [] _ :=
        allFrom_record kind false d
      cases position with
      | member kind => exact ((hrecord kind).append .nil).mono (List.nil_subset _)
      | item => exact ((hrecord .function).append .nil).mono (List.nil_subset _)
      | body => exact ((hrecord .function).append .nil).mono (List.nil_subset _)
  | .function d signature true body => by
      have hrecord (kind : RustItemKind) : AllFrom text context [d] _ :=
        allFrom_record kind true d
      have hbody (context : Context) := allFrom_visitAll text .body context body
      have hsub : [d] ++ functionsAll body ⊆ [d] ++ functionsAll signature ++ functionsAll body := by
        intro e he
        simp only [List.mem_append] at he ⊢
        tauto
      cases position with
      | member kind => exact ((hrecord kind).append (hbody context)).mono hsub
      | item =>
          exact ((hrecord .function).append
            (hbody (context.enter d.name d.conditions)).leave).mono hsub
      | body =>
          exact ((hrecord .function).append
            (hbody (context.enter d.name d.conditions)).leave).mono hsub
  | .type_ d parts => by
      have hrecord : AllFrom text context [] _ := allFrom_record .type false d
      cases position with
      | member => exact .nil
      | item => exact hrecord.mono (List.nil_subset _)
      | body => exact hrecord.mono (List.nil_subset _)
  | .trait_ d parts members => by
      have hrecord : AllFrom text context [] _ := allFrom_record .trait false d
      have hmembers := (allFrom_visitAll text (.member .traitMethod)
        (context.enter d.name d.conditions) members).leave.mono
          (List.subset_append_right (functionsAll parts) _)
      cases position with
      | member => exact .nil
      | item => exact hrecord.append hmembers
      | body => exact hrecord.append hmembers
  | .impl_ selfType conditions parts members => by
      have hmembers := (allFrom_visitAll text (.member .method)
        (context.enter selfType conditions) members).leave.mono
          (List.subset_append_right (functionsAll parts) _)
      cases position with
      | member => exact .nil
      | item => exact hmembers
      | body => exact hmembers
  | .definitions conditions declarations => by
      have hrecord : AllFrom text context [] (declarations.flatMap (record text .type false
          { context with macroInput := true, cfg := context.cfg ++ conditions })) := by
        intro f hf
        obtain ⟨d, -, hf⟩ := List.mem_flatMap.mp hf
        have hfrom := allFrom_record .type false d f hf
        cases f <;> exact hfrom
      cases position with
      | member => exact .nil
      | item => exact hrecord
      | body => exact hrecord
  | .macroItem span => by
      cases position with
      | member => exact .nil
      | item => exact List.forall_mem_singleton.mpr trivial
      | body => exact List.forall_mem_singleton.mpr trivial
  | .item _ => .nil
  | .invocation span => by
      cases position with
      | member => exact .nil
      | item => exact .nil
      | body => exact List.forall_mem_singleton.mpr trivial
  | .other parts => by
      cases position with
      | member => exact .nil
      | item => exact .nil
      | body => exact allFrom_visitAll text .body context parts

theorem allFrom_visitAll (text : List Char) (position : Position) (context : Context) :
    (parts : List RustSyntax) →
      AllFrom text context (functionsAll parts) (visitAll text position context parts)
  | [] => .nil
  | part :: parts =>
      (part.allFrom_visit text position context).append
        (allFrom_visitAll text position context parts)

end

/-! ### The index holds what is found -/

namespace CorrespondenceIndex

variable {index : CorrespondenceIndex}

def Has (index : CorrespondenceIndex) : Finding → Prop
  | .callable region => region ∈ index.callables
  | .annotated sageItem site => (sageItem, site) ∈ SortedMap.pairs index.entries
  | .opaqueMacro region => region ∈ index.opaqueMacros

theorem has_add {f g : Finding} : (index.add f).Has g ↔ index.Has g ∨ g = f := by
  cases f with
  | callable region =>
      cases g with
      | callable other => simp [add, Has]
      | annotated sageItem site => simp [add, Has]
      | opaqueMacro other => simp [add, Has]
  | annotated sageItem site =>
      cases g with
      | callable other => simp [add, Has]
      | annotated sageItem' site' => simp [add, Has, SortedMap.mem_pairs_push]
      | opaqueMacro other => simp [add, Has]
  | opaqueMacro region =>
      cases g with
      | callable other => simp [add, Has]
      | annotated sageItem site => simp [add, Has]
      | opaqueMacro other => simp [add, Has]

theorem has_foldl_add {fs : List Finding} {g : Finding} :
    (fs.foldl add index).Has g ↔ index.Has g ∨ g ∈ fs := by
  induction fs generalizing index with
  | nil => simp
  | cons f fs ih => rw [List.foldl_cons, ih, has_add, List.mem_cons, or_assoc]

theorem has_load {l : Load} {g : Finding} : (index.load l).Has g ↔ index.Has g ∨ g ∈ l.findings := by
  rw [load, has_foldl_add]
  cases g <;> exact Iff.rfl

theorem has_foldl_load {loads : List Load} {g : Finding} :
    (loads.foldl load index).Has g ↔ index.Has g ∨ ∃ l ∈ loads, g ∈ l.findings := by
  induction loads generalizing index with
  | nil => simp
  | cons l loads ih =>
      rw [List.foldl_cons, ih, has_load]
      simp only [List.mem_cons, exists_eq_or_imp, or_assoc]

end CorrespondenceIndex

theorem Sources.index_has {sources : Sources} {g : Finding} :
    sources.index.Has g ↔ ∃ l ∈ sources.loads, g ∈ l.findings := by
  rw [index, CorrespondenceIndex.has_foldl_load, or_iff_right]
  intro h
  cases g <;> cases h

theorem Load.findings_from (l : Load) {f : Finding} (h : f ∈ l.findings) :
    f.From l.source.text l.context l.functions :=
  allFrom_visitAll l.source.text .item l.context l.source.items f h

/-! ### A list that destutters to one member -/

theorem destutter_eq_singleton {α : Type} {R : α → α → Prop} [DecidableRel R] {l : List α}
    {x : α} : l.destutter R = [x] ↔ ∃ tail, l = x :: tail ∧ ∀ y ∈ tail, ¬ R x y := by
  have hkept (a : α) (tail : List α) :
      tail.destutter' R a = [x] ↔ a = x ∧ ∀ y ∈ tail, ¬ R x y := by
    induction tail with
    | nil => simp
    | cons b tail ih =>
        by_cases hab : R a b
        · rw [List.destutter'_cons_pos _ hab]
          constructor
          · intro h
            exact absurd (List.cons.inj h).2 (List.destutter'_ne_nil tail R)
          · rintro ⟨rfl, hall⟩
            exact absurd hab (hall b List.mem_cons_self)
        · rw [List.destutter'_cons_neg _ hab, ih, List.forall_mem_cons]
          refine and_congr_right fun hax => ?_
          rw [← hax]
          exact (and_iff_right hab).symm
  cases l with
  | nil => simp
  | cons a tail =>
      rw [List.destutter_cons', hkept]
      constructor
      · rintro ⟨rfl, hall⟩
        exact ⟨tail, rfl, hall⟩
      · rintro ⟨tail', htail, hall⟩
        obtain ⟨rfl, rfl⟩ := List.cons.inj htail
        exact ⟨rfl, hall⟩

/-- After sorting, which member is kept is not known, but that all the others agree with it is. -/
theorem sorted_destutter_eq_singleton {α : Type} {R S : α → α → Prop} [DecidableRel R]
    [DecidableRel S] {l : List α} {x : α} (h : (l.insertionSort S).destutter R = [x])
    (hself : ¬ R x x) : x ∈ l ∧ ∀ y ∈ l, ¬ R x y := by
  obtain ⟨tail, htail, hall⟩ := destutter_eq_singleton.mp h
  have hmem (y : α) : y ∈ l ↔ y = x ∨ y ∈ tail := by
    rw [← List.mem_insertionSort S, htail, List.mem_cons]
  refine ⟨(hmem x).mpr (.inl rfl), fun y hy => ?_⟩
  obtain rfl | hy := (hmem y).mp hy
  · exact hself
  · exact hall y hy

theorem exists_sorted_destutter {α : Type} {R S : α → α → Prop} [DecidableRel R]
    [DecidableRel S] {l : List α} (hne : l ≠ []) (hall : ∀ x ∈ l, ∀ y ∈ l, ¬ R x y) :
    ∃ x ∈ l, (l.insertionSort S).destutter R = [x] := by
  obtain ⟨x, tail, htail⟩ : ∃ x tail, l.insertionSort S = x :: tail := by
    refine List.exists_cons_of_ne_nil fun hnil => hne ?_
    exact List.length_eq_zero_iff.mp ((List.length_insertionSort S l).symm.trans (by rw [hnil]; rfl))
  have hmem (y : α) (hy : y ∈ x :: tail) : y ∈ l := (List.mem_insertionSort S).mp (htail ▸ hy)
  have hx := hmem x List.mem_cons_self
  refine ⟨x, hx, destutter_eq_singleton.mpr ⟨tail, htail, fun y hy => ?_⟩⟩
  exact hall x hx y (hmem y (List.mem_cons_of_mem x hy))

/-! ### The function at a line -/

theorem SourceRange.contains_iff {region : SourceRange} {file : String} {line : Nat} :
    region.contains file line = true ↔
      region.file = file ∧ region.line ≤ line ∧ line ≤ region.endLine := by
  simp [contains]

theorem SourceRange.within_iff {inner outer : SourceRange} :
    inner.within outer = true ↔ outer.line ≤ inner.line ∧ inner.endLine ≤ outer.endLine ∧
      (outer.line < inner.line ∨ inner.endLine < outer.endLine) := by
  simp [within]

theorem SourceRange.within_trans {a b c : SourceRange} (hab : a.within b = true)
    (hbc : b.within c = true) : a.within c = true := by
  rw [within_iff] at *
  omega

namespace CorrespondenceIndex

variable {index : CorrespondenceIndex} {file : String} {line : Nat} {r : SourceRange}
  {span : Span}

/-- The lines of a function at a line lie within those of every other one there. -/
structure Least (index : CorrespondenceIndex) (file : String) (line : Nat) (r : SourceRange) :
    Prop where
  mem : r ∈ index.callables
  contains : r.contains file line = true
  least : ∀ other ∈ index.callables, other.contains file line = true → other.span ≠ r.span →
    r.within other = true

/-- No function at the line has its lines within those of this one. -/
def Minimal (index : CorrespondenceIndex) (file : String) (line : Nat) (r : SourceRange) : Prop :=
  (r ∈ index.callables ∧ r.contains file line = true) ∧
    ∀ inner ∈ index.callables, inner.contains file line = true → ¬ inner.within r = true

/-- Functions with one span have the same lines. -/
def SameLines (index : CorrespondenceIndex) (file : String) : Prop :=
  ∀ a ∈ index.callables, ∀ b ∈ index.callables, a.file = file → b.file = file →
    a.span = b.span → a.line = b.line ∧ a.endLine = b.endLine

theorem exists_minimal {x : SourceRange} (hx : x ∈ index.callables)
    (hcontains : x.contains file line = true) :
    ∃ y, index.Minimal file line y ∧ (y = x ∨ y.within x = true) := by
  induction h : x.endLine - x.line using Nat.strongRecOn generalizing x with
  | _ n ih =>
      by_cases hinner : ∃ inner ∈ index.callables, inner.contains file line = true ∧
          inner.within x = true
      · obtain ⟨inner, hmem, hinner, hwithin⟩ := hinner
        have hlt : inner.endLine - inner.line < n := by
          rw [SourceRange.contains_iff] at hinner
          rw [SourceRange.within_iff] at hwithin
          omega
        obtain ⟨y, hy, hyinner⟩ := ih _ hlt hmem hinner rfl
        refine ⟨y, hy, .inr ?_⟩
        obtain rfl | hyinner := hyinner
        · exact hwithin
        · exact SourceRange.within_trans hyinner hwithin
      · refine ⟨x, ⟨⟨hx, hcontains⟩, fun inner hmem hinner' hwithin => ?_⟩, .inl rfl⟩
        exact hinner ⟨inner, hmem, hinner', hwithin⟩

theorem mem_minimal {r : SourceRange} :
    r ∈ (index.callables.filter fun region => region.contains file line).filter (fun outer =>
      !index.callables.any fun inner => inner.contains file line && inner.within outer) ↔
      index.Minimal file line r := by
  simp only [List.mem_filter, Bool.not_eq_true', List.any_eq_false, Bool.and_eq_true, not_and,
    Minimal]

theorem regions_eq :
    index.regions file line =
      ((((index.callables.filter fun region => region.contains file line).filter (fun outer =>
        !index.callables.any fun inner =>
          inner.contains file line && inner.within outer)).insertionSort
        fun a b => a.span.start ≤ b.span.start).destutter
          fun a b => (a.span.start, a.span.stop) ≠ (b.span.start, b.span.stop)) := rfl

theorem span_eq_of_not_ne {a b : SourceRange}
    (h : ¬ (a.span.start, a.span.stop) ≠ (b.span.start, b.span.stop)) : b.span = a.span := by
  obtain ⟨hstart, hstop⟩ := Prod.mk.inj (not_not.mp h)
  cases ha : a.span
  cases hb : b.span
  simp_all

theorem Least.minimal (h : index.Least file line r) (hlines : index.SameLines file) :
    index.Minimal file line r := by
  refine ⟨⟨h.mem, h.contains⟩, fun inner hmem hinner hwithin => ?_⟩
  have hfile := (SourceRange.contains_iff.mp hinner).1
  by_cases hspan : inner.span = r.span
  · have hsame := hlines inner hmem r h.mem hfile (SourceRange.contains_iff.mp h.contains).1 hspan
    rw [SourceRange.within_iff] at hwithin
    omega
  · have hback := h.least inner hmem hinner hspan
    rw [SourceRange.within_iff] at hwithin hback
    omega

theorem least_of_regions (hlines : index.SameLines file)
    (h : index.regions file line = [r]) : index.Least file line r := by
  rw [regions_eq] at h
  obtain ⟨hr, hall⟩ := sorted_destutter_eq_singleton h (by simp)
  obtain ⟨⟨hmem, hcontains⟩, -⟩ := mem_minimal.mp hr
  refine ⟨hmem, hcontains, fun other hother hcontains' hspan => ?_⟩
  obtain ⟨y, hy, hyother⟩ := exists_minimal hother hcontains'
  have hyspan : y.span = r.span := span_eq_of_not_ne (hall y (mem_minimal.mpr hy))
  obtain rfl | hwithin := hyother
  · exact absurd hyspan hspan
  · have hfile := (SourceRange.contains_iff.mp hy.1.2).1
    have hsame := hlines y hy.1.1 r hmem hfile (SourceRange.contains_iff.mp hcontains).1 hyspan
    rw [SourceRange.within_iff] at hwithin ⊢
    omega

theorem Least.exists_region (h : index.Least file line r) (hlines : index.SameLines file) :
    ∃ region, region.span = r.span ∧ index.regions file line = [region] := by
  have hspan (x : SourceRange) (hx : index.Minimal file line x) : x.span = r.span := by
    by_contra hne
    exact hx.2 r h.mem h.contains (h.least x hx.1.1 hx.1.2 hne)
  obtain ⟨x, hx, heq⟩ := exists_sorted_destutter (S := fun a b => a.span.start ≤ b.span.start)
    (R := fun a b => (a.span.start, a.span.stop) ≠ (b.span.start, b.span.stop))
    (List.ne_nil_of_mem (mem_minimal.mpr (h.minimal hlines))) (by
      intro a ha b hb
      rw [not_not, hspan a (mem_minimal.mp ha), hspan b (mem_minimal.mp hb)])
  exact ⟨x, hspan x (mem_minimal.mp hx), heq⟩

/-! ### The item of a function -/

/-- An annotation of the function with a span. -/
def Annotated (index : CorrespondenceIndex) (file : String) (span : Span)
    (entry : String × RustSite) : Prop :=
  entry ∈ SortedMap.pairs index.entries ∧ entry.2.executable = true ∧ entry.2.file = file ∧
    entry.2.span = span

/-- All annotations of a function name one item and one path. -/
def AnnotatedOnce (index : CorrespondenceIndex) (file : String) (span : Span) : Prop :=
  ∃ entry, index.Annotated file span entry ∧ ∀ other, index.Annotated file span other →
    other.1 = entry.1 ∧ other.2.rustPath = entry.2.rustPath

theorem mem_annotated {entry : String × RustSite} :
    entry ∈ (index.entries.flatMap fun (name, sites) => sites.map (name, ·)).filter
      (fun (_, site) => site.executable ∧ site.file = file ∧ site.span = span) ↔
      index.Annotated file span entry := by
  simp only [List.mem_filter, decide_eq_true_eq]
  exact Iff.rfl

theorem annotated_of_sites {entry : String × RustSite} (h : index.sites file span = [entry]) :
    index.Annotated file span entry ∧ index.AnnotatedOnce file span := by
  obtain ⟨hmem, hall⟩ := sorted_destutter_eq_singleton h (by simp)
  have hentry := mem_annotated.mp hmem
  refine ⟨hentry, entry, hentry, fun other hother => ?_⟩
  obtain ⟨hitem, -, -, hpath⟩ := not_not.mp (hall other (mem_annotated.mpr hother))
  exact ⟨hitem, hpath⟩

theorem AnnotatedOnce.exists_site (h : index.AnnotatedOnce file span) :
    ∃ entry, index.sites file span = [entry] := by
  obtain ⟨entry, hentry, hall⟩ := h
  obtain ⟨x, -, heq⟩ := exists_sorted_destutter (S := fun a b => siteKey a ≤ siteKey b)
    (R := fun a b => ¬(b.1 = a.1 ∧ b.2.file = a.2.file ∧ b.2.span = a.2.span ∧
      b.2.rustPath = a.2.rustPath))
    (List.ne_nil_of_mem (mem_annotated.mpr hentry)) (by
      intro a ha b hb
      have ha := mem_annotated.mp ha
      have hb := mem_annotated.mp hb
      obtain ⟨haitem, hapath⟩ := hall a ha
      obtain ⟨hbitem, hbpath⟩ := hall b hb
      rw [not_not, haitem, hbitem, hapath, hbpath, ha.2.2.1, hb.2.2.1, ha.2.2.2, hb.2.2.2]
      exact ⟨rfl, rfl, rfl, rfl⟩)
  exact ⟨x, heq⟩

end CorrespondenceIndex

/-! ### Lines resolved without guessing -/

namespace Sources

variable {sources : Sources} {file : String} {line : Nat}

/-- A function with a body that is written in the text of a file, on a line. -/
def FunctionAt (sources : Sources) (file : String) (line : Nat) (span : Span) : Prop :=
  ∃ l ∈ sources.loads, l.context.file = file ∧ (∃ d ∈ l.functions, d.span = span) ∧
    lineAt l.source.text span.start ≤ line ∧ line ≤ lineAt l.source.text span.stop

/-- The site is what the line belongs to. -/
structure Attributed (sources : Sources) (file : String) (line : Nat) (m : CorrespondenceMatch) :
    Prop where
  executable : m.site.executable = true
  file_eq : m.site.file = file
  annotated : ∃ l ∈ sources.loads, l.context.file = file ∧ ∃ d ∈ l.functions,
    d.span = m.site.span ∧ ∃ mark ∈ d.annotations, mark.item l.context = some m.sageItem
  contains : m.site.line ≤ line ∧ line ≤ m.site.endLine
  noMacro : ∀ region ∈ sources.index.opaqueMacros, ¬ region.contains file line = true
  innermost : ∀ span, sources.FunctionAt file line span → span ≠ m.site.span →
    span.Encloses m.site.span

def Resolved (sources : Sources) (file : String) (line : Nat) :
    Except LookupError CorrespondenceMatch → Prop
  | .ok m => sources.Attributed file line m
  | .error e => e = .missing file line ∨ ∃ candidates, e = .ambiguous file line candidates

/-- Beside the function that a line would be attributed to, and where the inventory does not
look within it, no function is written on the line. -/
def Clear (sources : Sources) (file : String) (line : Nat) : Prop :=
  ∀ r, sources.index.Least file line r → sources.index.AnnotatedOnce file r.span →
    (∀ region ∈ sources.index.opaqueMacros, ¬ region.contains file line = true) →
    ∀ span, sources.FunctionAt file line span → ¬ span.Beside r.span ∧
      (r.span.Encloses span → ∃ inner ∈ sources.index.callables, inner.file = file ∧
        inner.span = span)

/-- A function in the inventory is written in the text, on its lines. -/
theorem exists_function {r : SourceRange} (h : r ∈ sources.index.callables) :
    ∃ l ∈ sources.loads, ∃ d ∈ l.functions, r = l.context.region l.source.text d.span := by
  obtain ⟨l, hl, hfinding⟩ := index_has.mp (show sources.index.Has (.callable r) from h)
  exact ⟨l, hl, l.findings_from hfinding⟩

theorem start_lt_stop {r : SourceRange} (h : r ∈ sources.index.callables) :
    r.span.start < r.span.stop := by
  obtain ⟨l, -, d, hd, rfl⟩ := exists_function h
  exact (l.source.placed.laminar.within d hd).2.1

theorem region_eq_of_span {l : Load} (hl : l ∈ sources.loads) (hfile : l.context.file = file)
    {r : SourceRange} (hr : r ∈ sources.index.callables) (hrfile : r.file = file) :
    r.line = lineAt l.source.text r.span.start ∧ r.endLine = lineAt l.source.text r.span.stop ∧
      ∃ d ∈ l.functions, d.span = r.span := by
  obtain ⟨l', hl', d, hd, rfl⟩ := exists_function hr
  have hsource : l'.source = l.source := sources.coherent l' hl' l hl (hrfile.trans hfile.symm)
  refine ⟨by rw [← hsource]; rfl, by rw [← hsource]; rfl, d, ?_, rfl⟩
  rw [Load.functions, ← hsource]
  exact hd

theorem sameLines : sources.index.SameLines file := by
  intro a ha b hb hafile hbfile hspan
  obtain ⟨l, hl, d, -, rfl⟩ := exists_function ha
  obtain ⟨hline, hend, -⟩ := region_eq_of_span hl hafile hb hbfile
  rw [hline, hend, ← hspan]
  exact ⟨rfl, rfl⟩

/-- Any two functions at a line are the same, nest or stand beside each other. -/
theorem functionAt_cases {a b : Span} (ha : sources.FunctionAt file line a)
    (hb : sources.FunctionAt file line b) :
    a = b ∨ a.Encloses b ∨ b.Encloses a ∨ a.Beside b := by
  obtain ⟨l, hl, hlfile, ⟨d, hd, rfl⟩, -⟩ := ha
  obtain ⟨l', hl', hlfile', ⟨e, he, rfl⟩, -⟩ := hb
  rw [Load.functions, sources.coherent l' hl' l hl (hlfile'.trans hlfile.symm)] at he
  exact l.source.placed.laminar.cases hd he

theorem functionAt_of_callable {r : SourceRange} (h : r ∈ sources.index.callables)
    (hcontains : r.contains file line = true) : sources.FunctionAt file line r.span := by
  obtain ⟨hfile, hline, hend⟩ := SourceRange.contains_iff.mp hcontains
  obtain ⟨l, hl, d, hd, rfl⟩ := exists_function h
  exact ⟨l, hl, hfile, ⟨d, hd, rfl⟩, hline, hend⟩

theorem contains_of_functionAt {r : SourceRange} (h : r ∈ sources.index.callables)
    (hfile : r.file = file) (hat : sources.FunctionAt file line r.span) :
    r.contains file line = true := by
  obtain ⟨l, hl, hlfile, -, hstart, hstop⟩ := hat
  obtain ⟨hline, hend, -⟩ := region_eq_of_span hl hlfile h hfile
  exact SourceRange.contains_iff.mpr ⟨hfile, hline ▸ hstart, hend ▸ hstop⟩

/-- In the inventory nothing at the line is within the least function there. -/
theorem not_encloses_of_least {r inner : SourceRange} (h : sources.index.Least file line r)
    (hinner : inner ∈ sources.index.callables) (hcontains : inner.contains file line = true) :
    ¬ r.span.Encloses inner.span := by
  rintro ⟨hstart, hstop, hne⟩
  obtain ⟨hfile, -⟩ := SourceRange.contains_iff.mp hcontains
  obtain ⟨hrfile, -⟩ := SourceRange.contains_iff.mp h.contains
  have hwithin := h.least inner hinner hcontains (Ne.symm hne)
  obtain ⟨l, hl, d, -, rfl⟩ := exists_function h.mem
  obtain ⟨hline, hend, -⟩ := region_eq_of_span hl hrfile hinner hfile
  rw [SourceRange.within_iff, hline, hend] at hwithin
  have hlow := lineAt_mono l.source.text hstart
  have hhigh := lineAt_mono l.source.text hstop
  simp only [Context.region] at hwithin hlow hhigh
  omega

end Sources

theorem CorrespondenceIndex.lookup_eq {index : CorrespondenceIndex} {file : String} {line : Nat} :
    let key := index.sourceKey file
    (∃ region entry, (∀ region ∈ index.opaqueMacros, ¬ region.contains key line = true) ∧
      index.regions key line = [region] ∧ index.sites key region.span = [entry] ∧
      index.lookup file line = .ok ⟨entry.1, entry.2⟩) ∨
    ∃ e, index.lookup file line = .error e ∧
      (e = .missing key line ∨ ∃ candidates, e = .ambiguous key line candidates) ∧
      ¬ ((∀ region ∈ index.opaqueMacros, ¬ region.contains key line = true) ∧
        ∃ region entry, index.regions key line = [region] ∧
          index.sites key region.span = [entry]) := by
  intro key
  rw [lookup]
  by_cases hopen : index.opaqueMacros.any fun region => region.contains key line
  · refine .inr ⟨_, if_pos hopen, .inl rfl, fun h => ?_⟩
    obtain ⟨region, hregion, hcontains⟩ := List.any_eq_true.mp hopen
    exact h.1 region hregion hcontains
  · have hnone : ∀ region ∈ index.opaqueMacros, ¬ region.contains key line = true := by
      intro region hregion hcontains
      exact hopen (List.any_eq_true.mpr ⟨region, hregion, hcontains⟩)
    simp only [show index.sourceKey file = key from rfl, if_neg hopen]
    match hregions : index.regions key line with
    | [] => exact .inr ⟨_, rfl, .inl rfl, by simp⟩
    | [region] =>
        match hsites : index.sites key region.span with
        | [] => exact .inr ⟨_, by simp only [hsites], .inl rfl, by simp [hsites]⟩
        | [entry] => exact .inl ⟨region, entry, hnone, rfl, hsites, by simp only [hsites]⟩
        | a :: b :: rest =>
            refine .inr ⟨.ambiguous key line ((a :: b :: rest).map fun (name, site) =>
              name ++ " (" ++ site.rustPath ++ ")"), ?_, .inr ⟨_, rfl⟩, by simp [hsites]⟩
            simp only [hsites]
    | a :: b :: rest => exact .inr ⟨_, rfl, .inr ⟨_, rfl⟩, by simp⟩

namespace Sources

variable {sources : Sources} {file : String} {line : Nat}

/-- The match of a lookup is right where every function at the line is the function found or
encloses it. -/
theorem attributed_iff {region : SourceRange} {entry : String × RustSite}
    (hopen : ∀ region ∈ sources.index.opaqueMacros, ¬ region.contains file line = true)
    (hregion : sources.index.Least file line region)
    (hentry : sources.index.Annotated file region.span entry) :
    sources.Attributed file line ⟨entry.1, entry.2⟩ ↔
      ∀ span, sources.FunctionAt file line span → span ≠ region.span →
        span.Encloses region.span := by
  obtain ⟨sageItem, site⟩ := entry
  obtain ⟨hmem, hexecutable, hfile, hspan⟩ := hentry
  refine ⟨fun h span hat hne => hspan ▸ h.innermost span hat (hspan.symm ▸ hne), fun h => ?_⟩
  obtain ⟨hrfile, hstart, hstop⟩ := SourceRange.contains_iff.mp hregion.contains
  obtain ⟨l, hl, hfinding⟩ := index_has.mp
    (show sources.index.Has (.annotated sageItem site) from hmem)
  obtain ⟨d, hd, hdfile, hdspan, hline, hend, mark, hmark, hitem⟩ :=
    l.findings_from hfinding hexecutable
  have hlfile : l.context.file = file := hdfile.symm.trans hfile
  obtain ⟨hrline, hrend, -⟩ := region_eq_of_span hl hlfile hregion.mem hrfile
  have hdspan' : d.span = region.span := hdspan.symm.trans hspan
  exact
    { executable := hexecutable
      file_eq := hfile
      annotated := ⟨l, hl, hlfile, d, hd, hdspan.symm, mark, hmark, hitem⟩
      contains := by
        change site.line ≤ line ∧ line ≤ site.endLine
        rw [hline, hend, hdspan', ← hrline, ← hrend]
        exact ⟨hstart, hstop⟩
      noMacro := hopen
      innermost := fun span hat hne => by
        change span.Encloses site.span
        exact hspan ▸ h span hat (hspan ▸ hne) }

end Sources

/-! ### A line shared by two functions -/

def sharedLineText : List Char :=
  "#[sage::item(a::o)] fn o() \x7b\n\x7d #[sage::item(a::r)] fn r() \x7b\x7d".toList

/-- The second line ends `o` and holds all of `r`. -/
def sharedLineFile : RustFile where
  text := sharedLineText
  items :=
    [.function ⟨"o", ⟨0, 30⟩, [⟨⟨0, 19⟩, some ["a", "o"]⟩], []⟩ [] true [],
      .function ⟨"r", ⟨31, 60⟩, [⟨⟨31, 50⟩, some ["a", "r"]⟩], []⟩ [] true []]
  placed := by
    refine ⟨30, ⟨by decide, by decide, by decide, 0, ?_, ?_⟩, 60,
      ⟨by decide, by decide, by decide, 31, ?_, ?_⟩, ?_⟩
    all_goals
      simp only [PlacedAll]
      decide

def sharedLine : Sources where
  workspace := none
  loads := [⟨⟨"a", "a", "lib:a", "a.rs", [], false⟩, sharedLineFile⟩]
  coherent := by
    intro l hl other hother _
    rw [List.mem_singleton.mp hl, List.mem_singleton.mp hother]

theorem sharedLine_guessed : ¬ sharedLine.Resolved (sharedLine.index.sourceKey "a.rs") 2
    (sharedLine.index.lookup "a.rs" 2) := by
  let context : Context := ⟨"a", "a", "lib:a", "a.rs", [], false⟩
  let r : RustDeclaration := ⟨"r", ⟨31, 60⟩, [⟨⟨31, 50⟩, some ["a", "r"]⟩], []⟩
  have hlookup : sharedLine.index.lookup "a.rs" 2 = .ok ⟨"a::r",
      { context.site sharedLineText .function true r with annotationSpan := ⟨31, 50⟩ }⟩ := rfl
  rw [hlookup]
  intro h
  have ho : sharedLine.FunctionAt "a.rs" 2 ⟨0, 30⟩ := by
    refine ⟨_, List.mem_cons_self, rfl, ⟨_, List.mem_cons_self, rfl⟩, ?_⟩
    decide
  obtain ⟨-, hstop, -⟩ := h.innermost _ ho (by decide)
  exact absurd hstop (by decide)

/-- A line is resolved without guessing exactly where no function of the text is beside the
function found, or within it unseen. -/
theorem lookup_resolved_iff (sources : Sources) (file : String) (line : Nat) :
    let key := sources.index.sourceKey file
    sources.Resolved key line (sources.index.lookup file line) ↔ sources.Clear key line := by
  intro key
  obtain ⟨region, entry, hopen, hregions, hsites, hlookup⟩ | ⟨e, hlookup, he, hnot⟩ :=
    @CorrespondenceIndex.lookup_eq sources.index file line
  · have hleast := CorrespondenceIndex.least_of_regions Sources.sameLines hregions
    obtain ⟨hentry, honce⟩ := CorrespondenceIndex.annotated_of_sites hsites
    rw [hlookup]
    refine (Sources.attributed_iff hopen hleast hentry).trans ⟨fun h => ?_, fun h => ?_⟩
    · -- the one least function at the line is the one found
      intro r hr _ _ span hat
      have hspan : r.span = region.span := by
        by_contra hne
        have hrr := hr.least region hleast.mem hleast.contains (Ne.symm hne)
        have hback := hleast.least r hr.mem hr.contains hne
        rw [SourceRange.within_iff] at hrr hback
        omega
      rw [hspan]
      have hlt : region.span.start < region.span.stop := Sources.start_lt_stop hleast.mem
      by_cases heq : span = region.span
      · subst heq
        exact ⟨Span.not_beside_self hlt, fun henc => absurd rfl henc.2.2⟩
      · have henc := h span hat heq
        exact ⟨henc.not_beside hlt, fun hback => absurd hback henc.asymm⟩
    · intro span hat hne
      obtain ⟨hbeside, hinside⟩ := h region hleast honce hopen span hat
      have hself := Sources.functionAt_of_callable hleast.mem hleast.contains
      obtain heq | henc | henc | hside := Sources.functionAt_cases hat hself
      · exact absurd heq hne
      · exact henc
      · obtain ⟨inner, hinner, hfile, rfl⟩ := hinside henc
        have hcontains := Sources.contains_of_functionAt hinner hfile hat
        exact absurd henc (Sources.not_encloses_of_least hleast hinner hcontains)
      · exact absurd hside hbeside
  · rw [hlookup]
    refine iff_of_true he fun r hr honce hopen => ?_
    -- otherwise the lookup would find this function
    obtain ⟨region, hspan, hregions⟩ := hr.exists_region Sources.sameLines
    obtain ⟨entry, hsites⟩ := honce.exists_site
    exact absurd ⟨hopen, region, entry, hregions, hspan ▸ hsites⟩ hnot

end Sage.Meta
