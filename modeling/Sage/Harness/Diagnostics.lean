import Mathlib.Data.List.FinRange
import Mathlib.Data.List.Count
import Mathlib.Order.Nat
import Sage.Library.Bipartite

/-!
# Harness — expected diagnostics

`match_compiler_diagnostics` of `compile/observe.rs`.  Markers in the comments of a test are paired
with the diagnostics of a compiler.  A marker and a diagnostic are known by their positions: two
markers of one line expect two diagnostics.

* `SourceLocation.lines`, `matchCompilerDiagnostics`.
* `SourceLocation.mem_lines_iff` — the lines of a location are those of its bytes.
* `matchCompilerDiagnostics_iff`.
-/

namespace Sage.Harness

open Library.Bipartite

inductive Severity where
  | error
  | warning
deriving DecidableEq

/-- A range of bytes of a source; a snapshot is not made of any other range. -/
structure SourceLocation where
  path : String
  source : String
  start : Nat
  end_ : Nat
  start_le : start ≤ source.toUTF8.data.toList.length
  end_le : end_ ≤ source.toUTF8.data.toList.length

inductive LabelStyle where
  | primary
  | secondary

structure DiagnosticSnapshot where
  severity : Severity
  primary : List SourceLocation
  message : String
  labels : List (List SourceLocation × String × LabelStyle)
  notes : List DiagnosticSnapshot

inductive Kind where
  | type
  | symbol
  | error
  | warning
deriving DecidableEq

inductive Compiler where
  | sage
  | rustc
deriving DecidableEq

def Compiler.debug : Compiler → String
  | .sage => "Sage"
  | .rustc => "Rustc"

structure Marker where
  file : String
  line : Nat
  kind : Kind
  compiler : Option Compiler

def Marker.appliesTo (m : Marker) (compiler : Compiler) : Bool :=
  match m.compiler with
  | none => true
  | some selected => selected == compiler

/-- The line breaks before a byte, plus one. -/
def lineAt (source : List UInt8) (offset : Nat) : Nat := (source.take offset).count 10 + 1

namespace SourceLocation

def bytes (location : SourceLocation) : List UInt8 := location.source.toUTF8.data.toList

/-- The first line and the last. -/
def lines (location : SourceLocation) : Nat × Nat :=
  let lastOffset := if location.end_ > location.start then location.end_ - 1 else location.start
  (lineAt location.bytes location.start, lineAt location.bytes lastOffset)

def contains (lines : Nat × Nat) (line : Nat) : Bool := lines.1 ≤ line && line ≤ lines.2

end SourceLocation

/-- The markers that expect a diagnostic of the compiler. -/
def expected (compiler : Compiler) (markers : List Marker) : List Marker :=
  markers.filter fun m => m.appliesTo compiler && (m.kind == .error || m.kind == .warning)

/-- No other kinds are left to be asked for. -/
def Kind.severity : Kind → Option Severity
  | .error => some .error
  | .warning => some .warning
  | .type | .symbol => none

/-- Labels and notes supply no locations. -/
def edge (marker : Marker) (diag : DiagnosticSnapshot) : Bool :=
  some diag.severity == marker.kind.severity &&
    diag.primary.any fun location =>
      location.path == marker.file && SourceLocation.contains location.lines marker.line

def edges (markers : List Marker) (diagnostics : List DiagnosticSnapshot)
    (marker : Fin markers.length) : List (Fin diagnostics.length) :=
  (List.finRange diagnostics.length).filter fun i => edge markers[marker] diagnostics[i]

/-- The search for a place is bounded by the number of diagnostics; `none` if it ran out. -/
def matchCompilerDiagnostics (render : DiagnosticSnapshot → String) (compiler : Compiler)
    (markers : List Marker) (diagnostics : List DiagnosticSnapshot) :
    Option (Except String Unit) :=
  let markers := expected compiler markers
  match matchAll (edges markers diagnostics) (diagnostics.length + 1)
      (List.finRange markers.length) (fun _ => none) with
  | none => none
  | some (matched, assigned) =>
      if !matched || (List.finRange diagnostics.length).any (fun i => (assigned i).isNone) then
        some (.error (compiler.debug ++ " diagnostic markers do not match: " ++
          toString markers.length ++ " markers, " ++ toString diagnostics.length ++
          " diagnostics\n" ++ "\n".intercalate (diagnostics.map render)))
      else some (.ok ())

/-! ### Lines -/

theorem lineAt_mono (source : List UInt8) {offset offset' : Nat} (h : offset ≤ offset') :
    lineAt source offset ≤ lineAt source offset' :=
  Nat.add_le_add_right ((List.take_sublist_take_left h).count_le 10) 1

theorem lineAt_succ_le (source : List UInt8) (offset : Nat) :
    lineAt source (offset + 1) ≤ lineAt source offset + 1 := by
  rw [lineAt, lineAt, List.take_add_one, List.count_append]
  have hone : source[offset]?.toList.count 10 ≤ 1 := by
    cases source[offset]? with
    | none => simp
    | some b => simpa using List.count_le_length (a := (10 : UInt8)) (l := [b])
  omega

/-- Lines are not skipped. -/
theorem exists_lineAt {source : List UInt8} {first last line : Nat} (hle : first ≤ last) :
    lineAt source first ≤ line ∧ line ≤ lineAt source last ↔
      ∃ offset, first ≤ offset ∧ offset ≤ last ∧ lineAt source offset = line := by
  constructor
  · rintro ⟨hfirst, hlast⟩
    induction last, hle using Nat.le_induction with
    | base => exact ⟨first, le_rfl, le_rfl, le_antisymm hfirst hlast⟩
    | succ last hle ih =>
        by_cases hline : line ≤ lineAt source last
        · obtain ⟨offset, hoffset, hoffset', heq⟩ := ih hline
          exact ⟨offset, hoffset, Nat.le_succ_of_le hoffset', heq⟩
        · exact ⟨last + 1, Nat.le_succ_of_le hle, le_rfl,
            le_antisymm ((lineAt_succ_le source last).trans (Nat.not_le.mp hline)) hlast⟩
  · rintro ⟨offset, hoffset, hoffset', rfl⟩
    exact ⟨lineAt_mono source hoffset, lineAt_mono source hoffset'⟩

/-- The byte is one of the location's, or the position of an empty location. -/
def SourceLocation.Has (location : SourceLocation) (offset : Nat) : Prop :=
  location.start ≤ offset ∧ offset < location.end_ ∨ offset = location.start

/-- The lines of a location are those its bytes stand on. -/
theorem SourceLocation.mem_lines_iff (location : SourceLocation) (line : Nat) :
    SourceLocation.contains location.lines line = true ↔
      ∃ offset, location.Has offset ∧ lineAt location.bytes offset = line := by
  rw [contains, lines, Bool.and_eq_true, decide_eq_true_eq, decide_eq_true_eq]
  have hle : location.start ≤
      if location.end_ > location.start then location.end_ - 1 else location.start := by
    split_ifs <;> omega
  refine (exists_lineAt hle).trans (exists_congr fun offset => ?_)
  rw [← and_assoc]
  refine and_congr_left fun _ => ?_
  unfold Has
  split_ifs <;> omega

/-! ### Markers and diagnostics -/

/-- The diagnostic is one the marker expects. -/
def Expects (marker : Marker) (diag : DiagnosticSnapshot) : Prop :=
  marker.kind.severity = some diag.severity ∧
    ∃ location ∈ diag.primary, location.path = marker.file ∧
      ∃ offset, location.Has offset ∧ lineAt location.bytes offset = marker.line

theorem edge_iff {marker : Marker} {diag : DiagnosticSnapshot} :
    edge marker diag = true ↔ Expects marker diag := by
  rw [edge, Bool.and_eq_true, beq_iff_eq, eq_comm]
  simp only [List.any_eq_true, Bool.and_eq_true, beq_iff_eq, SourceLocation.mem_lines_iff, Expects]

theorem mem_edges {markers : List Marker} {diagnostics : List DiagnosticSnapshot}
    {i : Fin markers.length} {j : Fin diagnostics.length} :
    j ∈ edges markers diagnostics i ↔ Expects markers[i] diagnostics[j] := by
  rw [edges, List.mem_filter, edge_iff]
  exact and_iff_right (List.mem_finRange j)

/-- The search ends, and finds out whether the markers and the diagnostics can be paired. -/
theorem matchCompilerDiagnostics_paired (render : DiagnosticSnapshot → String)
    (compiler : Compiler) (markers : List Marker) (diagnostics : List DiagnosticSnapshot) :
    matchCompilerDiagnostics render compiler markers diagnostics ≠ none ∧
      (matchCompilerDiagnostics render compiler markers diagnostics = some (.ok ()) ↔
        Paired Expects (expected compiler markers) diagnostics) := by
  obtain ⟨ok, assigned, heq, hiff⟩ :=
    @perfect_iff _ _ _ (edges (expected compiler markers) diagnostics) _ _ _
      (List.nodup_finRange (expected compiler markers).length) List.mem_finRange
  rw [Fintype.card_fin] at heq
  have hpaired : (∃ f : Fin (expected compiler markers).length ≃ Fin diagnostics.length,
        ∀ i, f i ∈ edges (expected compiler markers) diagnostics i) ↔
      Paired Expects (expected compiler markers) diagnostics :=
    exists_congr fun f => forall_congr' fun i => mem_edges (j := f i)
  have hall : (∀ b, assigned b ≠ none) ↔
      (List.finRange diagnostics.length).any (fun i => (assigned i).isNone) = false := by
    simp
  simp only [matchCompilerDiagnostics, heq]
  rw [← hpaired, ← hiff, hall]
  generalize ((List.finRange diagnostics.length).any fun i => (assigned i).isNone) = unassigned
  cases ok <;> cases unassigned <;> simp

/-- Diagnostics pass exactly if they are those the markers expect, one for each marker. -/
theorem matchCompilerDiagnostics_iff (render : DiagnosticSnapshot → String) (compiler : Compiler)
    (markers : List Marker) (diagnostics : List DiagnosticSnapshot) :
    matchCompilerDiagnostics render compiler markers diagnostics ≠ none ∧
      (matchCompilerDiagnostics render compiler markers diagnostics = some (.ok ()) ↔
        ∃ f : Fin (expected compiler markers).length ≃ Fin diagnostics.length,
          ∀ i, Expects (expected compiler markers)[i] diagnostics[f i]) ∧
      ∀ markers' diagnostics', markers.Perm markers' → diagnostics.Perm diagnostics' →
        (matchCompilerDiagnostics render compiler markers' diagnostics' = some (.ok ()) ↔
          matchCompilerDiagnostics render compiler markers diagnostics = some (.ok ())) := by
  obtain ⟨hends, hiff⟩ := matchCompilerDiagnostics_paired render compiler markers diagnostics
  refine ⟨hends, hiff, fun markers' diagnostics' hmarkers hdiagnostics => ?_⟩
  rw [hiff, (matchCompilerDiagnostics_paired render compiler markers' diagnostics').2]
  exact paired_congr (hmarkers.symm.filter _) hdiagnostics.symm

end Sage.Harness
