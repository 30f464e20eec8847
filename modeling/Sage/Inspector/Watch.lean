import Mathlib.Data.List.Basic
import Std.Data.ExtTreeMap

/-!
# Inspector — watched roots

`reconfigure_watches` of `main.rs`.  The watcher can refuse any call; a call that it refuses changes
nothing.  Installations and replacements are undone when one of them fails, and so can the undoing.

* `reconfigureWatches`, `rollbackWatchChanges`.
* `Synced` — the active map is what is watched.
* `Undone` — what differs from an earlier map is named by a failure, or is still to be undone.
* `reconfigureWatches_spec`.
-/

namespace Sage.Inspector

inductive RecursiveMode where
  | recursive
  | nonRecursive
deriving DecidableEq

inductive WatchMode where
  | recursive
  | nonRecursive
deriving DecidableEq

def WatchMode.asNotifyMode : WatchMode → RecursiveMode
  | .recursive => .recursive
  | .nonRecursive => .nonRecursive

variable {PathBuf : Type} [Ord PathBuf]

abbrev WatchMap (PathBuf Mode : Type) [Ord PathBuf] := Std.ExtTreeMap PathBuf Mode

/-- A watcher, with the error of each call that fails. -/
structure Watcher (PathBuf : Type) [Ord PathBuf] where
  watched : WatchMap PathBuf RecursiveMode
  calls : Nat
  fails : Nat → Option String

namespace Watcher

variable [Std.TransOrd PathBuf]

def watch (watcher : Watcher PathBuf) (path : PathBuf) (mode : RecursiveMode) :
    Except String Unit × Watcher PathBuf :=
  let called := { watcher with calls := watcher.calls + 1 }
  match watcher.fails watcher.calls with
  | some error => (.error error, called)
  | none => (.ok (), { called with watched := watcher.watched.insert path mode })

def unwatch (watcher : Watcher PathBuf) (path : PathBuf) :
    Except String Unit × Watcher PathBuf :=
  let called := { watcher with calls := watcher.calls + 1 }
  match watcher.fails watcher.calls with
  | some error => (.error error, called)
  | none => (.ok (), { called with watched := watcher.watched.erase path })

end Watcher

/-- What could not be undone. -/
inductive RollbackFailure (PathBuf : Type) where
  | restoreRoot (path : PathBuf) (mode : WatchMode) (error : String)
  | removeReplacement (path : PathBuf) (error : String)
  | restoreWatch (path : PathBuf) (mode : WatchMode) (error : String)
  | rollBackInstalled (path : PathBuf) (error : String)

def RollbackFailure.path : RollbackFailure PathBuf → PathBuf
  | .restoreRoot path _ _ | .removeReplacement path _ | .restoreWatch path _ _
  | .rollBackInstalled path _ => path

/-- The error of the call that failed, and what the rollback failed to undo. -/
structure WatchError (PathBuf : Type) where
  error : String
  rollbackFailures : List (RollbackFailure PathBuf)

structure WatchReconfiguration (PathBuf : Type) where
  cleanupFailures : List (PathBuf × String)

/-- The watcher, and the map that says what it watches. -/
structure WatchState (PathBuf : Type) [Ord PathBuf] where
  watcher : Watcher PathBuf
  active : WatchMap PathBuf WatchMode

variable [Std.TransOrd PathBuf]

namespace WatchState

/-- Every call of `watch` that succeeds is followed by this change of the map. -/
def watch (s : WatchState PathBuf) (path : PathBuf) (mode : WatchMode) :
    Except String Unit × WatchState PathBuf :=
  match s.watcher.watch path mode.asNotifyMode with
  | (.ok (), watcher) => (.ok (), ⟨watcher, s.active.insert path mode⟩)
  | (.error error, watcher) => (.error error, ⟨watcher, s.active⟩)

def unwatch (s : WatchState PathBuf) (path : PathBuf) :
    Except String Unit × WatchState PathBuf :=
  match s.watcher.unwatch path with
  | (.ok (), watcher) => (.ok (), ⟨watcher, s.active.erase path⟩)
  | (.error error, watcher) => (.error error, ⟨watcher, s.active⟩)

end WatchState

/-! ### Rollback -/

/-- A path whose mode was replaced, with the old mode and the new one. -/
abbrev Replacement (PathBuf : Type) := PathBuf × WatchMode × WatchMode

def rollbackReplaced : List (Replacement PathBuf) → WatchState PathBuf →
    List (RollbackFailure PathBuf) × WatchState PathBuf
  | [], s => ([], s)
  | (path, oldMode, _) :: replaced, s =>
      let (removed, s) := s.unwatch path
      let (restored, s) := s.watch path oldMode
      let (failures, s) := rollbackReplaced replaced s
      ((match removed with
        | .ok () => []
        | .error error => [.removeReplacement path error]) ++
      (match restored with
        | .ok () => []
        | .error error => [.restoreWatch path oldMode error]) ++ failures, s)

def rollbackInstalled : List PathBuf → WatchState PathBuf →
    List (RollbackFailure PathBuf) × WatchState PathBuf
  | [], s => ([], s)
  | path :: installed, s =>
      let (removed, s) := s.unwatch path
      let (failures, s) := rollbackInstalled installed s
      ((match removed with
        | .ok () => []
        | .error error => [.rollBackInstalled path error]) ++ failures, s)

/-- Replacements are undone first, and both in the reverse of their order. -/
def rollbackWatchChanges (installed : List PathBuf) (replaced : List (Replacement PathBuf))
    (s : WatchState PathBuf) : List (RollbackFailure PathBuf) × WatchState PathBuf :=
  let (failures, s) := rollbackReplaced replaced.reverse s
  let (failures', s) := rollbackInstalled installed.reverse s
  (failures ++ failures', s)

/-! ### Reconfiguration -/

def installAll : List (PathBuf × WatchMode) → List PathBuf → WatchState PathBuf →
    Except (WatchError PathBuf) (List PathBuf) × WatchState PathBuf
  | [], installed, s => (.ok installed, s)
  | (path, mode) :: additions, installed, s =>
      match s.watch path mode with
      | (.error error, s) =>
          let (failures, s) := rollbackWatchChanges installed [] s
          (.error ⟨error, failures⟩, s)
      | (.ok (), s) => installAll additions (installed ++ [path]) s

/-- Replacing a mode is an `unwatch` and a `watch`; between them the path is not watched. -/
def replaceAll (installed : List PathBuf) : List (Replacement PathBuf) →
    List (Replacement PathBuf) → WatchState PathBuf →
    Except (WatchError PathBuf) Unit × WatchState PathBuf
  | [], _, s => (.ok (), s)
  | (path, oldMode, newMode) :: replacements, replaced, s =>
      match s.unwatch path with
      | (.error error, s) =>
          let (failures, s) := rollbackWatchChanges installed replaced s
          (.error ⟨error, failures⟩, s)
      | (.ok (), s) =>
          match s.watch path newMode with
          | (.error error, s) =>
              let (restored, s) := s.watch path oldMode
              let (failures, s) := rollbackWatchChanges installed replaced s
              (.error ⟨error, (match restored with
                | .ok () => []
                | .error error => [.restoreRoot path oldMode error]) ++ failures⟩, s)
          | (.ok (), s) =>
              replaceAll installed replacements (replaced ++ [(path, oldMode, newMode)]) s

/-- An obsolete root that cannot be removed stays, and is reported. -/
def cleanupAll : List PathBuf → WatchState PathBuf → List (PathBuf × String) × WatchState PathBuf
  | [], s => ([], s)
  | path :: obsolete, s =>
      let (removed, s) := s.unwatch path
      let (failures, s) := cleanupAll obsolete s
      ((match removed with
        | .ok () => []
        | .error error => [(path, error)]) ++ failures, s)

def additionsOf (desired active : WatchMap PathBuf WatchMode) : List (PathBuf × WatchMode) :=
  desired.toList.filter fun (path, _) => !active.contains path

def replacementsOf (desired active : WatchMap PathBuf WatchMode) : List (Replacement PathBuf) :=
  desired.toList.filterMap fun (path, newMode) =>
    match active[path]? with
    | some oldMode => if oldMode ≠ newMode then some (path, oldMode, newMode) else none
    | none => none

def obsoleteOf (desired active : WatchMap PathBuf WatchMode) : List PathBuf :=
  (active.toList.filter fun (path, mode) => desired[path]? ≠ some mode).map Prod.fst

def reconfigureWatches (s : WatchState PathBuf) (desired : WatchMap PathBuf WatchMode) :
    Except (WatchError PathBuf) (WatchReconfiguration PathBuf) × WatchState PathBuf :=
  match installAll (additionsOf desired s.active) [] s with
  | (.error error, s) => (.error error, s)
  | (.ok installed, s) =>
      match replaceAll installed (replacementsOf desired s.active) [] s with
      | (.error error, s) => (.error error, s)
      | (.ok (), s) =>
          let (failures, s) := cleanupAll (obsoleteOf desired s.active) s
          (.ok ⟨failures⟩, s)

/-! ### One call -/

variable [Std.LawfulEqOrd PathBuf]

namespace WatchState

/-- The map says what is watched. -/
def Synced (s : WatchState PathBuf) : Prop :=
  ∀ path : PathBuf, s.watcher.watched[path]? = s.active[path]?.map WatchMode.asNotifyMode

/-- A call about a path: it does what it says, or it fails and changes nothing. -/
structure Called (s : WatchState PathBuf) (path : PathBuf) (entry : Option WatchMode)
    (result : Except String Unit × WatchState PathBuf) : Prop where
  synced : result.2.Synced
  others : ∀ q, q ≠ path → result.2.active[q]? = s.active[q]?
  ok : result.1 = .ok () → result.2.active[path]? = entry
  failed : ∀ error, result.1 = .error error → result.2.active = s.active

variable {s : WatchState PathBuf}

theorem watch_called (h : s.Synced) (path : PathBuf) (mode : WatchMode) :
    s.Called path (some mode) (s.watch path mode) := by
  rw [watch, Watcher.watch]
  cases s.watcher.fails s.watcher.calls with
  | some error => exact ⟨h, fun _ _ => rfl, nofun, fun _ _ => rfl⟩
  | none =>
      refine ⟨fun q => ?_, fun q hq => ?_, fun _ => ?_, nofun⟩
      · simp only [Std.ExtTreeMap.getElem?_insert]
        split_ifs
        · rfl
        · exact h q
      · rw [Std.ExtTreeMap.getElem?_insert, if_neg]
        exact fun heq => hq (Std.LawfulEqCmp.eq_of_compare heq).symm
      · exact Std.ExtTreeMap.getElem?_insert_self

theorem unwatch_called (h : s.Synced) (path : PathBuf) :
    s.Called path none (s.unwatch path) := by
  rw [unwatch, Watcher.unwatch]
  cases s.watcher.fails s.watcher.calls with
  | some error => exact ⟨h, fun _ _ => rfl, nofun, fun _ _ => rfl⟩
  | none =>
      refine ⟨fun q => ?_, fun q hq => ?_, fun _ => ?_, nofun⟩
      · simp only [Std.ExtTreeMap.getElem?_erase]
        split_ifs
        · rfl
        · exact h q
      · rw [Std.ExtTreeMap.getElem?_erase, if_neg]
        exact fun heq => hq (Std.LawfulEqCmp.eq_of_compare heq).symm
      · exact Std.ExtTreeMap.getElem?_erase_self

end WatchState

/-! ### What a rollback leaves -/

section Rollback

omit [Std.LawfulEqOrd PathBuf]

/-- What differs from the earlier map is one of these paths. -/
def DiffersAt (earlier now : WatchMap PathBuf WatchMode) (P : PathBuf → Prop) : Prop :=
  ∀ q, now[q]? = earlier[q]? ∨ P q

/-- A failure names the path. -/
def Named (failures : List (RollbackFailure PathBuf)) (q : PathBuf) : Prop :=
  ∃ failure ∈ failures, failure.path = q

variable {earlier now : WatchMap PathBuf WatchMode} {P Q : PathBuf → Prop}
  {failures failures' : List (RollbackFailure PathBuf)}

theorem DiffersAt.imp (h : DiffersAt earlier now P) (himp : ∀ q, P q → Q q) :
    DiffersAt earlier now Q :=
  fun q => (h q).imp_right (himp q)

omit [Ord PathBuf] [Std.TransOrd PathBuf] in
theorem named_append {q : PathBuf} :
    Named (failures ++ failures') q ↔ Named failures q ∨ Named failures' q := by
  simp only [Named, List.mem_append, or_and_right, exists_or]

end Rollback

variable {earlier : WatchMap PathBuf WatchMode}

/-- The induction is on the replacements that are left: each is restored, or it is named. -/
theorem rollbackReplaced_spec (replaced : List (Replacement PathBuf)) :
    ∀ (s : WatchState PathBuf) (P : PathBuf → Prop), s.Synced →
      (∀ r ∈ replaced, earlier[r.1]? = some r.2.1) →
      DiffersAt earlier s.active (fun q => P q ∨ q ∈ replaced.map Prod.fst) →
      (rollbackReplaced replaced s).2.Synced ∧
        DiffersAt earlier (rollbackReplaced replaced s).2.active
          (fun q => P q ∨ Named (rollbackReplaced replaced s).1 q) := by
  induction replaced with
  | nil =>
      intro s P hsync _ hdiff
      refine ⟨hsync, hdiff.imp fun q hq => .inl ?_⟩
      simpa using hq
  | cons head replaced ih =>
      obtain ⟨path, oldMode, newMode⟩ := head
      intro s P hsync hold hdiff
      have hhead : earlier[path]? = some oldMode := hold _ (List.mem_cons_self ..)
      have htail : ∀ r ∈ replaced, earlier[r.1]? = some r.2.1 :=
        fun r hr => hold r (List.mem_cons_of_mem _ hr)
      have h₁ := s.unwatch_called hsync path
      have h₂ := (s.unwatch path).2.watch_called h₁.synced path oldMode
      have hunfold : rollbackReplaced ((path, oldMode, newMode) :: replaced) s =
          ((match (s.unwatch path).1 with
            | .ok () => []
            | .error error => [.removeReplacement path error]) ++
          (match ((s.unwatch path).2.watch path oldMode).1 with
            | .ok () => []
            | .error error => [.restoreWatch path oldMode error]) ++
          (rollbackReplaced replaced ((s.unwatch path).2.watch path oldMode).2).1,
          (rollbackReplaced replaced ((s.unwatch path).2.watch path oldMode).2).2) := rfl
      rw [hunfold]
      generalize (s.unwatch path).2.watch path oldMode = watched at h₂ ⊢
      obtain ⟨restored, s₂⟩ := watched
      obtain ⟨hsync', hdiff'⟩ := ih s₂
        (fun q => P q ∨ (q = path ∧ ∃ error, restored = .error error)) h₂.synced htail (by
          intro q
          by_cases hq : q = path
          · subst hq
            cases restored with
            | ok _ => exact .inl ((h₂.ok rfl).trans hhead.symm)
            | error error => exact .inr (.inl (.inr ⟨rfl, error, rfl⟩))
          · rw [h₂.others q hq, h₁.others q hq]
            refine (hdiff q).imp_right ?_
            rintro (hP | hmem)
            · exact .inl (.inl hP)
            · exact .inr ((List.mem_cons.mp hmem).resolve_left hq))
      refine ⟨hsync', hdiff'.imp fun q hq => ?_⟩
      rw [named_append, named_append]
      obtain (hP | ⟨rfl, error, rfl⟩) | hnamed := hq
      · exact .inl hP
      · exact .inr (.inl (.inr ⟨_, List.mem_singleton_self _, rfl⟩))
      · exact .inr (.inr hnamed)

/-- Each installed path was not there before: it is removed, or it is named. -/
theorem rollbackInstalled_spec (installed : List PathBuf) :
    ∀ (s : WatchState PathBuf) (P : PathBuf → Prop), s.Synced →
      (∀ path ∈ installed, earlier[path]? = none) →
      DiffersAt earlier s.active (fun q => P q ∨ q ∈ installed) →
      (rollbackInstalled installed s).2.Synced ∧
        DiffersAt earlier (rollbackInstalled installed s).2.active
          (fun q => P q ∨ Named (rollbackInstalled installed s).1 q) := by
  induction installed with
  | nil =>
      intro s P hsync _ hdiff
      refine ⟨hsync, hdiff.imp fun q hq => .inl ?_⟩
      simpa using hq
  | cons path installed ih =>
      intro s P hsync hold hdiff
      have hhead : earlier[path]? = none := hold _ (List.mem_cons_self ..)
      have h₁ := s.unwatch_called hsync path
      have hunfold : rollbackInstalled (path :: installed) s =
          ((match (s.unwatch path).1 with
            | .ok () => []
            | .error error => [.rollBackInstalled path error]) ++
          (rollbackInstalled installed (s.unwatch path).2).1,
          (rollbackInstalled installed (s.unwatch path).2).2) := rfl
      rw [hunfold]
      generalize s.unwatch path = unwatched at h₁ ⊢
      obtain ⟨removed, s₁⟩ := unwatched
      obtain ⟨hsync', hdiff'⟩ := ih s₁
        (fun q => P q ∨ (q = path ∧ ∃ error, removed = .error error)) h₁.synced
        (fun q hq => hold q (List.mem_cons_of_mem _ hq)) (by
          intro q
          by_cases hq : q = path
          · subst hq
            cases removed with
            | ok _ => exact .inl ((h₁.ok rfl).trans hhead.symm)
            | error error => exact .inr (.inl (.inr ⟨rfl, error, rfl⟩))
          · rw [h₁.others q hq]
            refine (hdiff q).imp_right ?_
            rintro (hP | hmem)
            · exact .inl (.inl hP)
            · exact .inr ((List.mem_cons.mp hmem).resolve_left hq))
      refine ⟨hsync', hdiff'.imp fun q hq => ?_⟩
      rw [named_append]
      obtain (hP | ⟨rfl, error, rfl⟩) | hnamed := hq
      · exact .inl hP
      · exact .inr (.inl ⟨_, List.mem_singleton_self _, rfl⟩)
      · exact .inr (.inr hnamed)

/-- What a step of a reconfiguration has done so far, and can undo. -/
structure Changed (earlier : WatchMap PathBuf WatchMode) (s : WatchState PathBuf)
    (installed : List PathBuf) (replaced : List (Replacement PathBuf)) (P : PathBuf → Prop) :
    Prop where
  synced : s.Synced
  fresh : ∀ path ∈ installed, earlier[path]? = none
  old : ∀ r ∈ replaced, earlier[r.1]? = some r.2.1
  differs : DiffersAt earlier s.active
    (fun q => P q ∨ q ∈ replaced.map Prod.fst ∨ q ∈ installed)

theorem rollbackWatchChanges_spec {s : WatchState PathBuf} {installed : List PathBuf}
    {replaced : List (Replacement PathBuf)} {P : PathBuf → Prop}
    (h : Changed earlier s installed replaced P) :
    (rollbackWatchChanges installed replaced s).2.Synced ∧
      DiffersAt earlier (rollbackWatchChanges installed replaced s).2.active
        (fun q => P q ∨ Named (rollbackWatchChanges installed replaced s).1 q) := by
  obtain ⟨hsync, hdiff⟩ := @rollbackReplaced_spec _ _ _ _ earlier replaced.reverse s
    (fun q => P q ∨ q ∈ installed) h.synced
    (fun r hr => h.old r (List.mem_reverse.mp hr)) (h.differs.imp fun q hq => by
      rw [List.map_reverse, List.mem_reverse]
      tauto)
  have hunfold : rollbackWatchChanges installed replaced s =
      ((rollbackReplaced replaced.reverse s).1 ++
        (rollbackInstalled installed.reverse (rollbackReplaced replaced.reverse s).2).1,
        (rollbackInstalled installed.reverse (rollbackReplaced replaced.reverse s).2).2) := rfl
  rw [hunfold]
  generalize rollbackReplaced replaced.reverse s = first at hsync hdiff ⊢
  obtain ⟨failures, s₁⟩ := first
  obtain ⟨hsync', hdiff'⟩ := @rollbackInstalled_spec _ _ _ _ earlier installed.reverse s₁
    (fun q => P q ∨ Named failures q) hsync
    (fun path hpath => h.fresh path (List.mem_reverse.mp hpath)) (hdiff.imp fun q hq => by
      rw [List.mem_reverse]
      tauto)
  refine ⟨hsync', hdiff'.imp fun q hq => ?_⟩
  rw [named_append]
  tauto

/-! ### Installation -/

variable {s s' : WatchState PathBuf} {installed : List PathBuf}
  {replaced : List (Replacement PathBuf)} {P : PathBuf → Prop} {path : PathBuf}

/-- An error leaves the earlier map, but for what its rollback failures name. -/
def Restored (earlier : WatchMap PathBuf WatchMode) (s : WatchState PathBuf)
    (error : WatchError PathBuf) : Prop :=
  s.Synced ∧ DiffersAt earlier s.active (Named error.rollbackFailures)

theorem Changed.restored (h : Changed earlier s installed replaced fun _ => False)
    (error : String) : Restored earlier (rollbackWatchChanges installed replaced s).2
      ⟨error, (rollbackWatchChanges installed replaced s).1⟩ := by
  obtain ⟨hsync, hdiff⟩ := rollbackWatchChanges_spec h
  exact ⟨hsync, hdiff.imp fun q hq => hq.resolve_left id⟩

omit [Std.LawfulEqOrd PathBuf] in
/-- A change of one path is undone by what names the path. -/
theorem Changed.step {Q : PathBuf → Prop} (h : Changed earlier s installed replaced P)
    (hsync : s'.Synced) (hothers : ∀ q, q ≠ path → s'.active[q]? = s.active[q]?)
    (himp : ∀ q, P q → Q q) (hpath : s'.active[path]? = earlier[path]? ∨
      Q path ∨ path ∈ replaced.map Prod.fst ∨ path ∈ installed) :
    Changed earlier s' installed replaced Q where
  synced := hsync
  fresh := h.fresh
  old := h.old
  differs := by
    intro q
    by_cases hq : q = path
    · exact hq ▸ hpath
    · rw [hothers q hq]
      exact (h.differs q).imp_right (Or.imp_left (himp q))

omit [Std.LawfulEqOrd PathBuf] in
theorem Changed.install (h : Changed earlier s installed replaced P)
    (hfresh : earlier[path]? = none) (hsync : s'.Synced) (hothers : ∀ q, q ≠ path → s'.active[q]? = s.active[q]?) :
    Changed earlier s' (installed ++ [path]) replaced P where
  synced := hsync
  fresh := by
    intro q hq
    obtain hq | hq := List.mem_append.mp hq
    · exact h.fresh q hq
    · rwa [List.mem_singleton.mp hq]
  old := h.old
  differs := by
    intro q
    by_cases hq : q = path
    · exact .inr (.inr (.inr (List.mem_append_right _ (List.mem_singleton.mpr hq))))
    · rw [hothers q hq]
      exact (h.differs q).imp_right (Or.imp_right (Or.imp_right (List.mem_append_left _)))

omit [Std.LawfulEqOrd PathBuf] in
theorem Changed.replace {oldMode newMode : WatchMode}
    (h : Changed earlier s installed replaced P) (hold : earlier[path]? = some oldMode)
    (hsync : s'.Synced) (hothers : ∀ q, q ≠ path → s'.active[q]? = s.active[q]?) :
    Changed earlier s' installed (replaced ++ [(path, oldMode, newMode)]) P where
  synced := hsync
  fresh := h.fresh
  old := by
    intro r hr
    obtain hr | hr := List.mem_append.mp hr
    · exact h.old r hr
    · rwa [List.mem_singleton.mp hr]
  differs := by
    rw [List.map_append]
    intro q
    by_cases hq : q = path
    · exact .inr (.inr (.inl (List.mem_append_right _ (List.mem_singleton.mpr hq))))
    · rw [hothers q hq]
      exact (h.differs q).imp_right (Or.imp_right (Or.imp_left (List.mem_append_left _)))

/-- The entries of these paths are set, and no others are changed. -/
structure Sets (old new : WatchMap PathBuf WatchMode) (entries : List (PathBuf × WatchMode)) :
    Prop where
  set : ∀ entry ∈ entries, new[entry.1]? = some entry.2
  others : ∀ q, q ∉ entries.map Prod.fst → new[q]? = old[q]?

omit [Std.LawfulEqOrd PathBuf] in
theorem Sets.cons {old mid new : WatchMap PathBuf WatchMode} {mode : WatchMode}
    {entries : List (PathBuf × WatchMode)} (hpath : mid[path]? = some mode)
    (hothers : ∀ q, q ≠ path → mid[q]? = old[q]?) (hnotMem : path ∉ entries.map Prod.fst)
    (h : Sets mid new entries) : Sets old new ((path, mode) :: entries) where
  set := by
    intro entry hentry
    obtain rfl | hentry := List.mem_cons.mp hentry
    · exact (h.others path hnotMem).trans hpath
    · exact h.set entry hentry
  others := by
    intro q hq
    rw [List.map_cons, List.mem_cons, not_or] at hq
    exact (h.others q hq.2).trans (hothers q hq.1)

theorem installAll_spec (additions : List (PathBuf × WatchMode)) :
    ∀ (installed : List PathBuf) (s : WatchState PathBuf),
      Changed earlier s installed [] (fun _ => False) →
      (∀ entry ∈ additions, earlier[entry.1]? = none) → (additions.map Prod.fst).Nodup →
      match installAll additions installed s with
      | (.ok installed', s') => Changed earlier s' installed' [] (fun _ => False) ∧
          Sets s.active s'.active additions
      | (.error error, s') => Restored earlier s' error := by
  induction additions with
  | nil => exact fun installed s h _ _ => ⟨h, nofun, fun _ _ => rfl⟩
  | cons entry additions ih =>
      obtain ⟨path, mode⟩ := entry
      intro installed s h hfresh hnodup
      rw [List.map_cons, List.nodup_cons] at hnodup
      rw [installAll]
      have hcall := s.watch_called h.synced path mode
      generalize s.watch path mode = call at hcall ⊢
      obtain ⟨result, s₁⟩ := call
      cases result with
      | error error =>
          refine (h.step hcall.synced hcall.others (fun _ => id) ?_).restored error
          rw [hcall.failed error rfl]
          exact h.differs path
      | ok _ =>
          have hrest := ih (installed ++ [path]) s₁
            (h.install (hfresh _ (List.mem_cons_self ..)) hcall.synced hcall.others)
            (fun entry hentry => hfresh entry (List.mem_cons_of_mem _ hentry)) hnodup.2
          simp only
          generalize installAll additions (installed ++ [path]) s₁ = rest at hrest ⊢
          obtain ⟨result, s₂⟩ := rest
          cases result with
          | error error => exact hrest
          | ok installed' =>
              exact ⟨hrest.1, .cons (hcall.ok rfl) hcall.others hnodup.1 hrest.2⟩

/-- A path whose new mode is refused is restored or named, and then the rest is rolled back. -/
theorem replaceAll_spec (installed : List PathBuf) (replacements : List (Replacement PathBuf)) :
    ∀ (replaced : List (Replacement PathBuf)) (s : WatchState PathBuf),
      Changed earlier s installed replaced (fun _ => False) →
      (∀ r ∈ replacements, earlier[r.1]? = some r.2.1) → (replacements.map Prod.fst).Nodup →
      match replaceAll installed replacements replaced s with
      | (.ok (), s') => s'.Synced ∧
          Sets s.active s'.active (replacements.map fun r => (r.1, r.2.2))
      | (.error error, s') => Restored earlier s' error := by
  induction replacements with
  | nil => exact fun replaced s h _ _ => ⟨h.synced, nofun, fun _ _ => rfl⟩
  | cons r replacements ih =>
      obtain ⟨path, oldMode, newMode⟩ := r
      intro replaced s h hold hnodup
      rw [List.map_cons, List.nodup_cons] at hnodup
      have hpath : earlier[path]? = some oldMode := hold _ (List.mem_cons_self ..)
      rw [replaceAll]
      have hremove := s.unwatch_called h.synced path
      generalize s.unwatch path = removal at hremove ⊢
      obtain ⟨removed, s₁⟩ := removal
      cases removed with
      | error error =>
          refine (h.step hremove.synced hremove.others (fun _ => id) ?_).restored error
          rw [hremove.failed error rfl]
          exact h.differs path
      | ok _ =>
          simp only
          have hwatch := s₁.watch_called hremove.synced path newMode
          generalize s₁.watch path newMode = watched at hwatch ⊢
          obtain ⟨result, s₂⟩ := watched
          cases result with
          | error error =>
              simp only
              have hrestore := s₂.watch_called hwatch.synced path oldMode
              generalize s₂.watch path oldMode = restore at hrestore ⊢
              obtain ⟨restored, s₃⟩ := restore
              have hothers : ∀ q, q ≠ path → s₃.active[q]? = s.active[q]? := fun q hq =>
                ((hrestore.others q hq).trans (hwatch.others q hq)).trans (hremove.others q hq)
              have hchanged : Changed earlier s₃ installed replaced
                  (fun q => q = path ∧ ∃ error, restored = .error error) := by
                refine h.step hrestore.synced hothers (fun _ => False.elim) ?_
                cases restored with
                | ok _ => exact .inl ((hrestore.ok rfl).trans hpath.symm)
                | error error => exact .inr (.inl ⟨rfl, error, rfl⟩)
              obtain ⟨hsync, hdiff⟩ := rollbackWatchChanges_spec hchanged
              refine ⟨hsync, hdiff.imp fun q hq => ?_⟩
              rw [named_append]
              obtain ⟨rfl, error, rfl⟩ | hnamed := hq
              · exact .inl ⟨_, List.mem_singleton_self _, rfl⟩
              · exact .inr hnamed
          | ok _ =>
              have hothers : ∀ q, q ≠ path → s₂.active[q]? = s.active[q]? := fun q hq =>
                (hwatch.others q hq).trans (hremove.others q hq)
              have hrest := ih (replaced ++ [(path, oldMode, newMode)]) s₂
                (h.replace hpath hwatch.synced hothers)
                (fun r hr => hold r (List.mem_cons_of_mem _ hr)) hnodup.2
              simp only
              generalize replaceAll installed replacements
                (replaced ++ [(path, oldMode, newMode)]) s₂ = rest at hrest ⊢
              obtain ⟨result, s₃⟩ := rest
              cases result with
              | error error => exact hrest
              | ok _ =>
                  refine ⟨hrest.1, .cons (hwatch.ok rfl) hothers ?_ hrest.2⟩
                  rw [List.map_map]
                  exact hnodup.1

theorem cleanupAll_spec (obsolete : List PathBuf) : ∀ s : WatchState PathBuf, s.Synced →
    (cleanupAll obsolete s).2.Synced ∧
      (∀ q, q ∉ obsolete → (cleanupAll obsolete s).2.active[q]? = s.active[q]?) ∧
      ∀ q ∈ obsolete, (cleanupAll obsolete s).2.active[q]? = none ∨
        q ∈ (cleanupAll obsolete s).1.map Prod.fst := by
  induction obsolete with
  | nil => exact fun s hsync => ⟨hsync, fun _ _ => rfl, nofun⟩
  | cons path obsolete ih =>
      intro s hsync
      have hcall := s.unwatch_called hsync path
      have hunfold : cleanupAll (path :: obsolete) s =
          ((match (s.unwatch path).1 with
            | .ok () => []
            | .error error => [(path, error)]) ++ (cleanupAll obsolete (s.unwatch path).2).1,
          (cleanupAll obsolete (s.unwatch path).2).2) := rfl
      rw [hunfold]
      generalize s.unwatch path = call at hcall ⊢
      obtain ⟨removed, s₁⟩ := call
      obtain ⟨hsync', hothers, hobsolete⟩ := ih s₁ hcall.synced
      refine ⟨hsync', fun q hq => ?_, fun q hq => ?_⟩
      · rw [List.mem_cons, not_or] at hq
        exact (hothers q hq.2).trans (hcall.others q hq.1)
      · rw [List.map_append, List.mem_append]
        by_cases hmem : q ∈ obsolete
        · exact (hobsolete q hmem).imp_right .inr
        · obtain rfl := (List.mem_cons.mp hq).resolve_right hmem
          rw [hothers q hmem]
          cases removed with
          | ok _ => exact .inl (hcall.ok rfl)
          | error error => exact .inr (.inl (List.mem_singleton_self _))

/-! ### The whole reconfiguration -/

variable {desired : WatchMap PathBuf WatchMode}

theorem mem_additionsOf {active : WatchMap PathBuf WatchMode} {entry : PathBuf × WatchMode} :
    entry ∈ additionsOf desired active ↔
      desired[entry.1]? = some entry.2 ∧ active[entry.1]? = none := by
  rw [additionsOf, List.mem_filter, Std.ExtTreeMap.mem_toList_iff_getElem?_eq_some]
  refine and_congr_right fun _ => ?_
  rw [Bool.not_eq_true', Std.ExtTreeMap.contains_eq_isSome_getElem?, Option.isSome_eq_false_iff,
    Option.isNone_iff_eq_none]

theorem mem_replacementsOf {active : WatchMap PathBuf WatchMode} {r : Replacement PathBuf} :
    r ∈ replacementsOf desired active ↔
      desired[r.1]? = some r.2.2 ∧ active[r.1]? = some r.2.1 ∧ r.2.1 ≠ r.2.2 := by
  obtain ⟨path, oldMode, newMode⟩ := r
  simp only [replacementsOf, List.mem_filterMap, Prod.exists,
    Std.ExtTreeMap.mem_toList_iff_getElem?_eq_some]
  constructor
  · rintro ⟨path', newMode', hdesired, h⟩
    cases hactive : active[path']? with
    | none => simp [hactive] at h
    | some oldMode' =>
        simp only [hactive] at h
        split_ifs at h with hne
        cases h
        exact ⟨hdesired, hactive, hne⟩
  · rintro ⟨hdesired, hactive, hne⟩
    exact ⟨path, newMode, hdesired, by simp only [hactive, if_pos hne]⟩

theorem mem_obsoleteOf {active : WatchMap PathBuf WatchMode} {path : PathBuf} :
    path ∈ obsoleteOf desired active ↔
      ∃ mode, active[path]? = some mode ∧ desired[path]? ≠ some mode := by
  simp only [obsoleteOf, List.mem_map, List.mem_filter, Prod.exists,
    Std.ExtTreeMap.mem_toList_iff_getElem?_eq_some, decide_eq_true_eq]
  constructor
  · rintro ⟨path, mode, h, rfl⟩
    exact ⟨mode, h⟩
  · rintro ⟨mode, h⟩
    exact ⟨path, mode, h, rfl⟩

/-- The paths of a map are listed once. -/
theorem nodup_keys (m : WatchMap PathBuf WatchMode) : (m.toList.map Prod.fst).Nodup := by
  rw [List.Nodup, List.pairwise_map]
  refine m.distinct_keys_toList.imp fun {a b} hne heq => hne ?_
  rw [heq]
  exact Std.ReflCmp.compare_self

theorem nodup_additionsOf (active : WatchMap PathBuf WatchMode) :
    ((additionsOf desired active).map Prod.fst).Nodup :=
  (nodup_keys desired).sublist (List.filter_sublist.map _)

theorem nodup_replacementsOf (active : WatchMap PathBuf WatchMode) :
    ((replacementsOf desired active).map Prod.fst).Nodup := by
  rw [List.Nodup, List.pairwise_map, replacementsOf, List.pairwise_filterMap]
  refine (List.pairwise_map.mp (nodup_keys desired)).imp fun {a b} hne r hr r' hr' => ?_
  -- A replacement keeps the path of its entry.
  have hfst {entry : PathBuf × WatchMode} {r : Replacement PathBuf}
      (h : (match active[entry.1]? with
        | some oldMode => if oldMode ≠ entry.2 then some (entry.1, oldMode, entry.2) else none
        | none => none) = some r) : r.1 = entry.1 := by
    split at h
    · split_ifs at h
      cases h
      rfl
    · cases h
  rw [hfst hr, hfst hr']
  exact hne

/-- After the installations and the replacements every desired root has its mode. -/
theorem Sets.mode_eq {before installed' replaced' : WatchMap PathBuf WatchMode}
    (hinstall : Sets before installed' (additionsOf desired before))
    (hreplace : Sets installed' replaced'
      ((replacementsOf desired installed').map fun r => (r.1, r.2.2)))
    {path : PathBuf} {mode : WatchMode} (h : desired[path]? = some mode) :
    replaced'[path]? = some mode := by
  cases hmode : installed'[path]? with
  | none =>
      -- It is not even active, so it was an addition.
      exfalso
      cases hbefore : before[path]? with
      | none =>
          have hset := hinstall.set (path, mode) (mem_additionsOf.mpr ⟨h, hbefore⟩)
          rw [hmode] at hset
          cases hset
      | some oldMode =>
          have hothers := hinstall.others path (by
            rintro hmem
            obtain ⟨entry, hentry, rfl⟩ := List.mem_map.mp hmem
            rw [(mem_additionsOf.mp hentry).2] at hbefore
            cases hbefore)
          rw [hmode, hbefore] at hothers
          cases hothers
  | some oldMode =>
      by_cases hsame : oldMode = mode
      · rw [hreplace.others path ?_, hmode, hsame]
        rintro hmem
        rw [List.map_map] at hmem
        obtain ⟨r, hr, rfl⟩ := List.mem_map.mp hmem
        obtain ⟨hdesired, hactive, hne⟩ := mem_replacementsOf.mp hr
        exact hne (Option.some.inj (hactive.symm.trans (hmode.trans ((congrArg some hsame).trans
          (h.symm.trans hdesired)))))
      · exact hreplace.set (path, mode) (List.mem_map.mpr ⟨(path, oldMode, mode),
          mem_replacementsOf.mpr ⟨h, hmode, hsame⟩, rfl⟩)

/-- A reconfiguration does what is desired, or leaves what was watched, but for what it reports. -/
theorem reconfigureWatches_atomic (s : WatchState PathBuf) (desired : WatchMap PathBuf WatchMode)
    (h : s.Synced) :
    match reconfigureWatches s desired with
    | (.ok outcome, s') => s'.Synced ∧
        (∀ (path : PathBuf) mode, desired[path]? = some mode →
          s'.watcher.watched[path]? = some mode.asNotifyMode) ∧
        ∀ path : PathBuf, s'.watcher.watched[path]? ≠ none → desired[path]? = none →
          path ∈ outcome.cleanupFailures.map Prod.fst
    | (.error error, s') => s'.Synced ∧
        (error.rollbackFailures = [] → s'.watcher.watched = s.watcher.watched) ∧
        ∀ path : PathBuf, s'.watcher.watched[path]? ≠ s.watcher.watched[path]? →
          ∃ failure ∈ error.rollbackFailures, failure.path = path := by
  have hrestored {error : WatchError PathBuf} {s' : WatchState PathBuf}
      (hres : Restored s.active s' error) : s'.Synced ∧
        (error.rollbackFailures = [] → s'.watcher.watched = s.watcher.watched) ∧
        ∀ path : PathBuf, s'.watcher.watched[path]? ≠ s.watcher.watched[path]? →
          ∃ failure ∈ error.rollbackFailures, failure.path = path := by
    obtain ⟨hsync, hdiff⟩ := hres
    have hnamed : ∀ path : PathBuf, s'.watcher.watched[path]? ≠ s.watcher.watched[path]? →
        Named error.rollbackFailures path := by
      intro path hne
      refine (hdiff path).resolve_left fun heq => hne ?_
      rw [hsync, h, heq]
    refine ⟨hsync, fun hnil => Std.ExtTreeMap.ext_getElem? fun path => ?_, hnamed⟩
    by_contra hne
    obtain ⟨failure, hmem, -⟩ := hnamed path hne
    rw [hnil] at hmem
    cases hmem
  have hstart : Changed s.active s [] [] (fun _ => False) :=
    ⟨h, nofun, nofun, fun q => .inl rfl⟩
  have hinstall := installAll_spec (additionsOf desired s.active) [] s hstart
    (fun entry hentry => (mem_additionsOf.mp hentry).2) (nodup_additionsOf s.active)
  rw [reconfigureWatches]
  generalize installAll (additionsOf desired s.active) [] s = install at hinstall ⊢
  obtain ⟨result, s₁⟩ := install
  cases result with
  | error error => exact hrestored hinstall
  | ok installed =>
      obtain ⟨hchanged, hset⟩ := hinstall
      have hreplace := replaceAll_spec installed (replacementsOf desired s₁.active) [] s₁ hchanged
        (by
          intro r hr
          obtain ⟨hdesired, hactive, hne⟩ := mem_replacementsOf.mp hr
          rw [← hactive, eq_comm]
          -- An added root has the desired mode, so no added root is replaced.
          refine hset.others r.1 fun hmem => hne ?_
          obtain ⟨entry, hentry, heq⟩ := List.mem_map.mp hmem
          have hmode := hset.set entry hentry
          have hwant := (mem_additionsOf.mp hentry).1
          rw [heq] at hmode hwant
          exact Option.some.inj ((hactive.symm.trans hmode).trans (hwant.symm.trans hdesired)))
        (nodup_replacementsOf s₁.active)
      simp only
      generalize replaceAll installed (replacementsOf desired s₁.active) [] s₁ = replace
        at hreplace ⊢
      obtain ⟨result, s₂⟩ := replace
      cases result with
      | error error => exact hrestored hreplace
      | ok _ =>
          obtain ⟨hsync, hset'⟩ := hreplace
          obtain ⟨hsync', hothers, hobsolete⟩ := cleanupAll_spec (obsoleteOf desired s₂.active) s₂
            hsync
          refine ⟨hsync', fun path mode hmode => ?_, fun path hwatched hnone => ?_⟩
          · have hnot : path ∉ obsoleteOf desired s₂.active := by
              rw [mem_obsoleteOf, hset.mode_eq hset' hmode]
              rintro ⟨mode', hmode', hne⟩
              cases hmode'
              exact hne hmode
            rw [hsync', hothers path hnot, hset.mode_eq hset' hmode]
            rfl
          · rw [hsync'] at hwatched
            have hmem : path ∈ obsoleteOf desired s₂.active := by
              by_contra hnot
              rw [hothers path hnot] at hwatched
              cases hactive : s₂.active[path]? with
              | none =>
                  rw [hactive] at hwatched
                  exact hwatched rfl
              | some mode =>
                  refine hnot (mem_obsoleteOf.mpr ⟨mode, hactive, ?_⟩)
                  rw [hnone]
                  nofun
            obtain hgone | hlisted := hobsolete path hmem
            · rw [hgone] at hwatched
              exact absurd rfl hwatched
            · exact hlisted

/-- The first watch of one root; the watcher takes the call. -/
theorem reconfigureWatches_atomic_first :
    let s : WatchState String := ⟨⟨∅, 0, fun _ => none⟩, ∅⟩
    let desired := (∅ : WatchMap String WatchMode).insert "src" .recursive
    s.Synced ∧ match reconfigureWatches s desired with
      | (.ok _, s') => s'.watcher.watched["src"]? = some .recursive
      | (.error error, s') => error.rollbackFailures = [] → s'.watcher.watched = s.watcher.watched
    := by
  intro s desired
  have hsync : s.Synced := fun path => by simp [s]
  refine ⟨hsync, ?_⟩
  have h := reconfigureWatches_atomic s desired hsync
  generalize reconfigureWatches s desired = result at h ⊢
  obtain ⟨error | outcome, s'⟩ := result
  · exact h.2.1
  · exact h.2.1 "src" .recursive Std.ExtTreeMap.getElem?_insert_self

end Sage.Inspector
