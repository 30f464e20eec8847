import Sage.Inspector.Provider
import Sage.Library.Numbered
import Mathlib.Data.List.Nodup
import Mathlib.Data.List.Pairwise

/-!
# Inspector — what the provider retains

Over any run the provider retains the last 64 revisions at most, and with each of them exactly the
runs, products and continuation pages recorded in it.

* `Mark`, `revisionName_injective` — revisions are named apart and in order.
* `Retains` — the invariant, with one lemma for each way the store changes.
* `run_consistent` — what can be fetched in any state of a run, and what expires.
-/

namespace Sage.Inspector

/-! ### Names of revisions -/

/-- The generation of the database and its revision. -/
abbrev Mark := Nat × Nat

namespace Mark

def name (m : Mark) : RevisionId := revisionName m.1 m.2

/-- An earlier database, or an earlier revision of the same one. -/
def Earlier (m n : Mark) : Prop := m.1 < n.1 ∨ m.1 = n.1 ∧ m.2 < n.2

theorem Earlier.trans {l m n : Mark} (h : l.Earlier m) (h' : m.Earlier n) : l.Earlier n := by
  unfold Earlier at *
  omega

theorem Earlier.ne {m n : Mark} (h : m.Earlier n) : m ≠ n := by
  rintro rfl
  unfold Earlier at h
  omega

theorem toList_name (m : Mark) : m.name.toList =
    'd' :: 'b' :: (m.1.repr.toList ++ '-' :: ('r' :: 'e' :: 'v' :: m.2.repr.toList)) := by
  simp [name, revisionName, String.toList_append]

theorem underscore_notMem_name (m : Mark) : '_' ∉ m.name.toList := by
  have h₁ := Numbered.notMem_repr (c := '_') (by decide) m.1
  have h₂ := Numbered.notMem_repr (c := '_') (by decide) m.2
  rw [toList_name]
  simp only [List.mem_cons, List.mem_append, h₁, h₂]
  decide

theorem name_injective {m n : Mark} (h : m.name = n.name) : m = n := by
  have hl := congrArg String.toList h
  rw [toList_name, toList_name] at hl
  obtain ⟨hgeneration, hrevision⟩ := Numbered.split_unique
    (Numbered.notMem_repr (by decide) m.1) (Numbered.notMem_repr (by decide) n.1)
    (List.cons.inj (List.cons.inj hl).2).2
  have hrepr := (List.cons.inj (List.cons.inj (List.cons.inj hrevision).2).2).2
  exact Prod.ext (Numbered.repr_injective (String.toList_injective hgeneration))
    (Numbered.repr_injective (String.toList_injective hrepr))

/-- Only the handles of a revision start with its name and an underscore. -/
theorem startsWith_name {m n : Mark} {rest : String} :
    startsWith (m.name ++ "_" ++ rest) (n.name ++ "_") = true ↔ m = n := by
  have hl : (m.name ++ "_" ++ rest).toList = m.name.toList ++ '_' :: rest.toList := by
    simp [String.toList_append]
  have hr : (n.name ++ "_").toList = n.name.toList ++ ['_'] := by simp [String.toList_append]
  rw [startsWith, hl, hr, List.isPrefixOf_iff_prefix]
  constructor
  · rintro ⟨tail, h⟩
    rw [List.append_assoc] at h
    have hname := (Numbered.split_unique (underscore_notMem_name n) (underscore_notMem_name m) h).1
    exact (name_injective (String.toList_injective hname)).symm
  · rintro rfl
    exact ⟨rest.toList, by simp⟩

end Mark

/-- The handle was made for a product of the revision. -/
def MadeIn (revision : RevisionId) (handle : ContinuationHandle) : Prop :=
  ∃ k n : Nat, handle = revision ++ "_product_" ++ k.repr ++ "_" ++ n.repr

theorem MadeIn.startsWith_iff {m n : Mark} {handle : ContinuationHandle}
    (h : MadeIn m.name handle) : startsWith handle (n.name ++ "_") = true ↔ m = n := by
  obtain ⟨k, i, rfl⟩ := h
  have hsplit : m.name ++ "_product_" ++ k.repr ++ "_" ++ i.repr =
      m.name ++ "_" ++ ("product_" ++ k.repr ++ "_" ++ i.repr) := by
    simp [String.append_assoc]
    rfl
  rw [hsplit]
  exact Mark.startsWith_name

theorem runName_injective {m n : Nat} (h : LiveInspectionProvider.runName m =
    LiveInspectionProvider.runName n) : m = n := by
  have hl := congrArg String.toList h
  rw [LiveInspectionProvider.runName, LiveInspectionProvider.runName, String.toList_append,
    String.toList_append] at hl
  exact Numbered.repr_injective (String.toList_injective (List.append_cancel_left hl))

namespace LiveInspectionProvider

variable {σ : Type} {p p' : LiveInspectionProvider σ} {marks : List Mark} {m : Mark}
  {pages : List (Provided ProductPage)}

/-! ### The invariant -/

/-- The retained revisions are those of `marks`, and what is retained belongs to one of them. -/
structure Retains (marks : List Mark) (pages : List (Provided ProductPage))
    (p : LiveInspectionProvider σ) : Prop where
  names : p.revisions.map RetainedRevision.revisionId = marks.map Mark.name
  sorted : marks.Pairwise Mark.Earlier
  listed : ∀ handle, p.runs.Has handle ↔ handle ∈ p.revisions.flatMap RetainedRevision.runs
  once : (p.revisions.flatMap RetainedRevision.runs).Nodup
  numbered : ∀ handle, p.runs.Has handle → ∃ n ≤ p.nextRun, handle = runName n
  products : ∀ key retained, p.products key = some retained →
    ∃ r ∈ p.revisions, r.revisionId = key.1 ∧ ∃ handle ∈ r.runs, retained.runId = some handle
  continuations : ∀ handle items, p.continuations handle = some items →
    ∃ m ∈ marks, MadeIn m.name handle ∧
      ∀ item ∈ items, item.MentionsOnly fun h => p.continuations.Has h ∧ MadeIn m.name h
  pages : ∀ answer ∈ pages, ∃ m : Mark, answer.revisionId = m.name ∧
    (m ∈ marks ∨ ∃ n ∈ marks, m.Earlier n) ∧
      (m ∈ marks → ∀ handle, answer.value.content.Mentions handle →
        p.continuations.Has handle ∧ MadeIn m.name handle)

namespace Retains

/-- Nothing else of the provider matters. -/
theorem congr (h : Retains marks pages p) (hrevisions : p'.revisions = p.revisions)
    (hruns : p'.runs = p.runs) (hproducts : p'.products = p.products)
    (hcontinuations : p'.continuations = p.continuations) (hnext : p.nextRun ≤ p'.nextRun) :
    Retains marks pages p' where
  names := hrevisions ▸ h.names
  sorted := h.sorted
  listed := by rw [hruns, hrevisions]; exact h.listed
  once := hrevisions ▸ h.once
  numbered := fun handle hh => by
    obtain ⟨n, hn, he⟩ := h.numbered handle (hruns ▸ hh)
    exact ⟨n, Nat.le_trans hn hnext, he⟩
  products := by rw [hproducts, hrevisions]; exact h.products
  continuations := by rw [hcontinuations]; exact h.continuations
  pages := by rw [hcontinuations]; exact h.pages

theorem forget (h : Retains marks pages p) : Retains marks [] p := { h with pages := nofun }

/-- A revision with nothing recorded in it yet. -/
theorem append (h : Retains marks pages p) (hm : ∀ n ∈ marks, n.Earlier m)
    (cause : RevisionCause) (deltas : List InputDelta) :
    Retains (marks ++ [m]) pages
      { p with revisions := p.revisions ++ [⟨m.name, cause, deltas, []⟩] } where
  names := by simp [h.names]
  sorted := List.pairwise_append.mpr ⟨h.sorted, List.pairwise_singleton _ _, fun n hn k hk => by
    rw [List.mem_singleton.mp hk]
    exact hm n hn⟩
  listed := by simpa using h.listed
  once := by simpa using h.once
  numbered := h.numbered
  products := fun key retained hp => by
    obtain ⟨r, hr, hrest⟩ := h.products key retained hp
    exact ⟨r, List.mem_append_left _ hr, hrest⟩
  continuations := fun handle items hi => by
    obtain ⟨n, hn, hrest⟩ := h.continuations handle items hi
    exact ⟨n, List.mem_append_left _ hn, hrest⟩
  pages := fun answer ha => by
    obtain ⟨n, hname, hbefore, hmentions⟩ := h.pages answer ha
    refine ⟨n, hname, ?_, fun hn => ?_⟩
    · rcases hbefore with hn | ⟨k, hk, hnk⟩
      · exact .inl (List.mem_append_left _ hn)
      · exact .inr ⟨k, List.mem_append_left _ hk, hnk⟩
    · rcases List.mem_append.mp hn with hn | hn
      · exact hmentions hn
      · -- the pages of the run belong to revisions up to the last one
        rw [List.mem_singleton.mp hn] at hbefore
        rcases hbefore with hm' | ⟨k, hk, hmk⟩
        · exact absurd rfl (hm m hm').ne
        · exact absurd rfl ((hm k hk).trans hmk).ne

end Retains

theorem has_foldl_remove {handle : RunHandle} (expired : List RunHandle) :
    ∀ runs : PartialMap RunHandle RunObservation,
      (expired.foldl PartialMap.remove runs) handle =
        if handle ∈ expired then none else runs handle := by
  induction expired with
  | nil => intro runs; simp
  | cons k expired ih =>
      intro runs
      rw [List.foldl_cons, ih]
      by_cases hk : handle = k
      · subst hk
        simp [PartialMap.remove]
      · simp [PartialMap.remove, hk]

/-- What is left after a revision expired. -/
theorem expire_cases (p : LiveInspectionProvider σ) (expired : RetainedRevision) :
    (∀ handle, (p.expire expired).runs handle =
      if handle ∈ expired.runs then none else p.runs handle) ∧
    (∀ key, (p.expire expired).products key =
      if key.1 = expired.revisionId then none else p.products key) ∧
    ∀ handle, (p.expire expired).continuations handle =
      if startsWith handle (expired.revisionId ++ "_") then none else p.continuations handle := by
  refine ⟨fun handle => has_foldl_remove expired.runs p.runs, fun key => ?_, fun handle => ?_⟩
  · by_cases hk : key.1 = expired.revisionId <;> simp [expire, PartialMap.retain, hk]
  · by_cases hk : startsWith handle (expired.revisionId ++ "_") <;>
      simp [expire, PartialMap.retain, hk]

namespace Retains

/-- The first revision expires with what is recorded in it. -/
theorem expire {expired : RetainedRevision} {rest : List RetainedRevision} {n : Mark}
    {later : List Mark} (h : Retains (m :: n :: later) pages p)
    (hrevisions : p.revisions = expired :: rest) :
    Retains (n :: later) pages ({ p with revisions := rest }.expire expired) := by
  obtain ⟨hruns, hproducts, hcontinuations⟩ := expire_cases { p with revisions := rest } expired
  have hnames := h.names
  rw [hrevisions, List.map_cons, List.map_cons] at hnames
  obtain ⟨hname, hnames⟩ := List.cons.inj hnames
  obtain ⟨hfirst, hsorted⟩ := List.pairwise_cons.mp h.sorted
  have honce := h.once
  rw [hrevisions, List.flatMap_cons, List.nodup_append] at honce
  obtain ⟨-, honce, hdisjoint⟩ := honce
  -- a handle of a later revision does not start with the name of the first
  have hkept : ∀ {k : Mark} {handle}, k ∈ n :: later → MadeIn k.name handle →
      ({ p with revisions := rest }.expire expired).continuations handle =
        p.continuations handle := fun {k handle} hk hmade => by
    rw [hcontinuations, hname, if_neg]
    intro hstarts
    exact (hfirst k hk).ne (hmade.startsWith_iff.mp hstarts).symm
  refine ⟨hnames, hsorted, fun handle => ?_, honce, fun handle hh => ?_, fun key retained hp => ?_,
    fun handle items hi => ?_, fun answer ha => ?_⟩
  · have hlisted := h.listed handle
    rw [hrevisions, List.flatMap_cons, List.mem_append] at hlisted
    rw [PartialMap.Has, hruns]
    by_cases hmem : handle ∈ expired.runs
    · rw [if_pos hmem]
      exact iff_of_false Bool.false_ne_true fun hrest => hdisjoint handle hmem handle hrest rfl
    · rw [if_neg hmem]
      exact hlisted.trans (or_iff_right hmem)
  · rw [PartialMap.Has, hruns] at hh
    split at hh
    · cases hh
    · exact h.numbered handle hh
  · rw [hproducts] at hp
    split at hp
    · cases hp
    · rename_i hkey
      obtain ⟨r, hr, hid, hrest⟩ := h.products key retained hp
      rw [hrevisions] at hr
      rcases List.mem_cons.mp hr with rfl | hr
      · exact absurd hid.symm hkey
      · exact ⟨r, hr, hid, hrest⟩
  · rw [hcontinuations] at hi
    split at hi
    · cases hi
    · rename_i hstarts
      obtain ⟨k, hk, hmade, hmentions⟩ := h.continuations handle items hi
      rw [hname] at hstarts
      have hk' : k ∈ n :: later := by
        rcases List.mem_cons.mp hk with rfl | hk
        · exact absurd (hmade.startsWith_iff.mpr rfl) hstarts
        · exact hk
      refine ⟨k, hk', hmade, fun item hitem => (hmentions item hitem).mono fun j hj => ⟨?_, hj.2⟩⟩
      rw [PartialMap.Has, hkept hk' hj.2]
      exact hj.1
  · obtain ⟨k, hid, hbefore, hmentions⟩ := h.pages answer ha
    refine ⟨k, hid, ?_, fun hk handle hm => ?_⟩
    · rcases hbefore with hk | ⟨j, hj, hkj⟩
      · rcases List.mem_cons.mp hk with rfl | hk
        · exact .inr ⟨n, List.mem_cons_self, hfirst n List.mem_cons_self⟩
        · exact .inl hk
      · rcases List.mem_cons.mp hj with rfl | hj
        · exact .inr ⟨n, List.mem_cons_self, hkj.trans (hfirst n List.mem_cons_self)⟩
        · exact .inr ⟨j, hj, hkj⟩
    · obtain ⟨hhas, hmade⟩ := hmentions (List.mem_cons_of_mem _ hk) handle hm
      refine ⟨?_, hmade⟩
      rw [PartialMap.Has, hkept hk hmade]
      exact hhas

end Retains

/-! ### The ways the store changes -/

/-- A revision is pushed onto the others, or onto all but the first, which expires. -/
theorem pushRevision_cases (p : LiveInspectionProvider σ) (revision : RetainedRevision) :
    (p.revisions.length < retainedRevisionLimit ∧
      p.pushRevision revision = { p with revisions := p.revisions ++ [revision] }) ∨
    ∃ expired rest, p.revisions = expired :: rest ∧ retainedRevisionLimit ≤ p.revisions.length ∧
      p.pushRevision revision = { p with revisions := rest ++ [revision] }.expire expired := by
  by_cases hfull : p.revisions.length < retainedRevisionLimit
  · refine .inl ⟨hfull, ?_⟩
    have hlength : (p.revisions ++ [revision]).length ≤ retainedRevisionLimit := by
      rw [List.length_append]
      exact hfull
    simp only [pushRevision, hlength, if_true]
  · have hlength : ¬(p.revisions ++ [revision]).length ≤ retainedRevisionLimit := by
      rw [List.length_append]
      exact hfull
    cases hr : p.revisions with
    | nil =>
        rw [hr] at hfull
        exact absurd (by decide) hfull
    | cons expired rest =>
        refine .inr ⟨expired, rest, rfl, ?_, ?_⟩
        · rw [← hr]
          exact Nat.le_of_not_lt hfull
        · simp only [pushRevision, hlength, if_false]
          simp only [hr, List.cons_append]

/-- The store after a push, whether or not the first revision expires. -/
theorem Retains.push (h : Retains marks pages p) (hlength : p.revisions.length ≤ 64)
    (hm : ∀ n ∈ marks, n.Earlier m) (cause : RevisionCause) (deltas : List InputDelta) :
    ∃ marks', Retains marks' pages (p.pushRevision ⟨m.name, cause, deltas, []⟩) ∧
      marks'.getLast? = some m ∧
        (p.pushRevision ⟨m.name, cause, deltas, []⟩).revisions.length ≤ 64 := by
  have happend := h.append hm cause deltas
  have hcount : p.revisions.length = marks.length := by
    simpa using congrArg List.length h.names
  rcases pushRevision_cases p ⟨m.name, cause, deltas, []⟩ with
    ⟨hfew, heq⟩ | ⟨expired, rest, hrevisions, hfull, heq⟩
  · rw [heq]
    refine ⟨_, happend, by simp, ?_⟩
    rw [List.length_append]
    exact hfew
  · rw [heq]
    -- the limit is positive, so a second revision is there to become the first
    cases marks with
    | nil =>
        rw [hcount] at hfull
        exact absurd hfull (by decide)
    | cons first later =>
        refine ⟨later ++ [m], ?_, by simp, ?_⟩
        · have hexpire : p.revisions ++ [⟨m.name, cause, deltas, []⟩] =
              expired :: (rest ++ [⟨m.name, cause, deltas, []⟩]) := by
            rw [hrevisions, List.cons_append]
          cases later with
          | nil =>
              have hone : p.revisions.length = 1 := by simpa using hcount
              rw [hone] at hfull
              exact absurd hfull (by decide)
          | cons second later => exact happend.expire hexpire
        · rw [hrevisions] at hlength
          simpa [LiveInspectionProvider.expire] using hlength

theorem modifyLast_append (f : RetainedRevision → RetainedRevision)
    (revisions : List RetainedRevision) (last : RetainedRevision) :
    modifyLast f (revisions ++ [last]) = revisions ++ [f last] := by
  induction revisions with
  | nil => rfl
  | cons r revisions ih =>
      cases revisions with
      | nil => rfl
      | cons s revisions => exact congrArg (r :: ·) ih

section Queries

variable [Queries σ]

/-- The mark of the provider's current revision. -/
def mark (p : LiveInspectionProvider σ) : Mark := (p.databaseGeneration, p.host.salsaRevision)

theorem revisionId_eq (p : LiveInspectionProvider σ) : p.revisionId = p.mark.name := by
  rw [revisionId, mark, Mark.name]

/-- A run is recorded in the last revision. -/
theorem Retains.record {α : Type} (h : Retains marks pages p) (hlast : marks.getLast? = some m)
    (request : RunRequest) (phase : TracePhase) (operation : String) (value : α) :
    Retains marks pages (p.record request phase operation value).2 ∧
      (p.record request phase operation value).2.revisions.length = p.revisions.length ∧
      ∃ r ∈ (p.record request phase operation value).2.revisions, r.revisionId = m.name ∧
        runName (p.nextRun + 1) ∈ r.runs := by
  obtain ⟨before, hbefore⟩ := List.getLast?_eq_some_iff.mp hlast
  have hnames := h.names
  rw [hbefore, List.map_append] at hnames
  obtain ⟨revisions, lasts, hrevisions, hnamesBefore, hnamesLast⟩ := List.map_eq_append_iff.mp hnames
  obtain ⟨last, rfl, hid⟩ : ∃ last, lasts = [last] ∧ last.revisionId = m.name := by
    obtain ⟨last, rest, rfl, hid, hrest⟩ := List.map_eq_cons_iff.mp hnamesLast
    rw [List.map_nil, List.map_eq_nil_iff] at hrest
    exact ⟨last, by rw [hrest], hid⟩
  set recorded : RetainedRevision := { last with runs := last.runs ++ [runName (p.nextRun + 1)] }
  have hnew : (p.record request phase operation value).2.revisions = revisions ++ [recorded] := by
    rw [LiveInspectionProvider.record, hrevisions]
    exact modifyLast_append _ revisions last
  have hlisted : ∀ handle, handle ∈ (revisions ++ [recorded]).flatMap RetainedRevision.runs ↔
      handle = runName (p.nextRun + 1) ∨ handle ∈ p.revisions.flatMap RetainedRevision.runs := by
    intro handle
    simp only [hrevisions, recorded, List.flatMap_append, List.flatMap_cons, List.flatMap_nil,
      List.mem_append, List.mem_singleton, List.append_nil]
    tauto
  have hfresh : ¬p.runs.Has (runName (p.nextRun + 1)) := fun hh => by
    obtain ⟨n, hn, he⟩ := h.numbered _ hh
    rw [← runName_injective he] at hn
    exact Nat.not_succ_le_self _ hn
  have hmem : recorded ∈ (p.record request phase operation value).2.revisions := by
    rw [hnew]
    exact List.mem_append_right _ (List.mem_singleton.mpr rfl)
  have hrun : runName (p.nextRun + 1) ∈ recorded.runs :=
    List.mem_append_right _ (List.mem_singleton.mpr rfl)
  refine ⟨⟨?_, h.sorted, fun handle => ?_, ?_, fun handle hh => ?_, fun key retained hp => ?_,
    h.continuations, h.pages⟩, ?_, recorded, hmem, hid, hrun⟩
  · rw [hnew, ← h.names, hrevisions]
    simp [recorded]
  · rw [hnew, hlisted, ← h.listed]
    exact PartialMap.has_insert
  · have honce := h.once
    rw [hnew]
    rw [hrevisions] at honce
    simp only [recorded, List.flatMap_append, List.flatMap_cons, List.flatMap_nil,
      List.append_nil] at honce ⊢
    rw [← List.append_assoc]
    refine List.nodup_append.mpr ⟨honce, List.nodup_singleton _, fun a ha b hb hab => ?_⟩
    rw [hab, List.mem_singleton.mp hb] at ha
    refine hfresh ((h.listed _).mpr ?_)
    rw [hrevisions]
    simpa using ha
  · rcases PartialMap.has_insert.mp hh with rfl | hh
    · exact ⟨p.nextRun + 1, Nat.le_refl _, rfl⟩
    · obtain ⟨n, hn, he⟩ := h.numbered handle hh
      exact ⟨n, Nat.le_succ_of_le hn, he⟩
  · obtain ⟨r, hr, hkey, handle, hhandle, hrunId⟩ := h.products key retained hp
    rw [hrevisions] at hr
    rcases List.mem_append.mp hr with hr | hr
    · exact ⟨r, hnew ▸ List.mem_append_left _ hr, hkey, handle, hhandle, hrunId⟩
    · rw [List.mem_singleton.mp hr] at hkey hhandle
      exact ⟨recorded, hmem, hkey, handle, List.mem_append_left _ hhandle, hrunId⟩
  · rw [hnew, hrevisions]
    simp

omit [Queries σ] in
/-- The pages of a product of the last revision are kept. -/
theorem Retains.extend (h : Retains marks pages p) (hlast : marks.getLast? = some m) (k : Nat)
    {g : GeneratedProduct} (hg : g.Sound (m.name ++ "_product_" ++ k.repr)) :
    Retains marks pages { p with continuations := p.continuations.extend g.continuations } ∧
      ∀ handle, g.page.content.Mentions handle →
        (p.continuations.extend g.continuations).Has handle ∧ MadeIn m.name handle := by
  have hmade : ∀ handle, g.continuations.Has handle → MadeIn m.name handle := fun handle hh => by
    obtain ⟨n, rfl⟩ := hg.named handle hh
    exact ⟨k, n, rfl⟩
  have hmono : ∀ handle, p.continuations.Has handle →
      (p.continuations.extend g.continuations).Has handle := fun handle hh =>
    PartialMap.has_extend.mpr (.inr hh)
  refine ⟨{ h with continuations := fun handle items hi => ?_, pages := fun answer ha => ?_ },
    fun handle hm => ?_⟩
  · cases hgi : g.continuations handle with
    | none =>
        simp only [PartialMap.extend, hgi, Option.none_or] at hi
        obtain ⟨n, hn, hmadeIn, hmentions⟩ := h.continuations handle items hi
        exact ⟨n, hn, hmadeIn, fun item hitem =>
          (hmentions item hitem).mono fun j hj => ⟨hmono j hj.1, hj.2⟩⟩
    | some page =>
        simp only [PartialMap.extend, hgi, Option.some_or, Option.some.injEq] at hi
        refine ⟨m, List.mem_of_getLast? hlast, hmade handle (.of_eq hgi), fun item hitem =>
          (hg.pages handle page hgi item (hi ▸ hitem)).mono fun j hj => ⟨?_, hmade j hj⟩⟩
        exact PartialMap.has_extend.mpr (.inl hj)
  · obtain ⟨n, hid, hbefore, hmentions⟩ := h.pages answer ha
    exact ⟨n, hid, hbefore, fun hn handle hm =>
      ⟨hmono handle (hmentions hn handle hm).1, (hmentions hn handle hm).2⟩⟩
  · have hh := hg.page handle hm
    exact ⟨PartialMap.has_extend.mpr (.inl hh), hmade handle hh⟩

/-! ### The operations -/

/-- Only directories, memos and counters differ. -/
structure SameStore (p p' : LiveInspectionProvider σ) : Prop where
  texts : p'.host.texts = p.host.texts
  mark : p'.mark = p.mark
  revisions : p'.revisions = p.revisions
  runs : p'.runs = p.runs
  products : p'.products = p.products
  continuations : p'.continuations = p.continuations
  nextRun : p'.nextRun = p.nextRun

namespace SameStore

theorem refl (p : LiveInspectionProvider σ) : SameStore p p := ⟨rfl, rfl, rfl, rfl, rfl, rfl, rfl⟩

theorem trans {p₁ p₂ p₃ : LiveInspectionProvider σ} (h : SameStore p₁ p₂) (h' : SameStore p₂ p₃) :
    SameStore p₁ p₃ :=
  ⟨h'.texts.trans h.texts, h'.mark.trans h.mark, h'.revisions.trans h.revisions,
    h'.runs.trans h.runs, h'.products.trans h.products, h'.continuations.trans h.continuations,
    h'.nextRun.trans h.nextRun⟩

theorem evaluate {α : Type} (p : LiveInspectionProvider σ) (e : Evaluation)
    (f : SourceTexts → σ → α) : SameStore p { p with host := (p.host.withContext e f).2 } :=
  ⟨rfl, congrArg (Prod.mk _) (Queries.currentRevision_evaluate _ _), rfl, rfl, rfl, rfl, rfl⟩

theorem directory' (p : LiveInspectionProvider σ) : SameStore p p.directory'.2 := by
  rw [LiveInspectionProvider.directory']
  cases p.directory with
  | some directory => exact refl p
  | none =>
      exact (evaluate p .directory buildSymbolDirectory).trans ⟨rfl, rfl, rfl, rfl, rfl, rfl, rfl⟩

theorem revisionId (h : SameStore p p') : p'.revisionId = p.revisionId := by
  rw [revisionId_eq, revisionId_eq, h.mark]

theorem retains (hs : SameStore p p') (h : Retains marks pages p) : Retains marks pages p' :=
  h.congr hs.revisions hs.runs hs.products hs.continuations (Nat.le_of_eq hs.nextRun.symm)

end SameStore

theorem symbols_cases (p : LiveInspectionProvider σ) : ∃ p₁ index, SameStore p p₁ ∧
    p.symbols = (.ok (p₁.record .symbolIndex .bootstrap "local-symbol-index" index).1,
      (p₁.record .symbolIndex .bootstrap "local-symbol-index" index).2) := by
  have hp₁ : SameStore p { p with
      host := (p.host.withContext .directory buildSymbolDirectory).2
      directory := some (p.host.withContext .directory buildSymbolDirectory).1
      directoryStale := false } :=
    (SameStore.evaluate p .directory buildSymbolDirectory).trans ⟨rfl, rfl, rfl, rfl, rfl, rfl, rfl⟩
  exact ⟨_, (p.host.withContext .directory buildSymbolDirectory).1.index, hp₁, rfl⟩

/-- The symbol that a request selects is recorded with the answer. -/
theorem symbol_eq {p q r : LiveInspectionProvider σ} {path : SymbolPath}
    {chosen : Option SelectedSymbol × SageHost σ}
    (hq : q = if p.directoryStale then { p with directory := none } else p)
    (hr : r = { q.directory'.2 with directoryStale := false })
    (hchosen : chosen = r.host.withContext (.selection path) fun texts storage =>
      selectedSymbol texts storage q.directory'.1 path) :
    p.symbol path = match chosen.1 with
      | none => (.error ⟨"symbol-not-found", "unknown symbol path `" ++ path ++ "`"⟩,
          { r with host := chosen.2 })
      | some selected =>
          (.ok ({ r with host := chosen.2 }.record (.symbol path) .selection "select-symbol"
            selected).1, ({ r with host := chosen.2 }.record (.symbol path) .selection
              "select-symbol" selected).2) := by
  subst hq hr hchosen
  rfl

theorem symbol_cases (p : LiveInspectionProvider σ) (path : SymbolPath) : ∃ p₁, SameStore p p₁ ∧
    ((∃ e, p.symbol path = (.error e, p₁)) ∨ ∃ selected, p.symbol path =
      (.ok (p₁.record (.symbol path) .selection "select-symbol" selected).1,
        (p₁.record (.symbol path) .selection "select-symbol" selected).2)) := by
  set q := if p.directoryStale then { p with directory := none } else p with hq
  have hpq : SameStore p q := by
    rw [hq]
    split
    · exact ⟨rfl, rfl, rfl, rfl, rfl, rfl, rfl⟩
    · exact .refl p
  have hdirectory := hpq.trans (.directory' q)
  set r : LiveInspectionProvider σ := { q.directory'.2 with directoryStale := false } with hr
  have hpr : SameStore p r := hdirectory.trans ⟨rfl, rfl, rfl, rfl, rfl, rfl, rfl⟩
  set chosen := r.host.withContext (.selection path) fun texts storage =>
    selectedSymbol texts storage q.directory'.1 path with hchosen
  have hp₁ : SameStore p { r with host := chosen.2 } := hpr.trans (.evaluate r _ _)
  refine ⟨_, hp₁, ?_⟩
  have hrun := symbol_eq hq hr hchosen
  cases hselected : chosen.1 with
  | none =>
      rw [hselected] at hrun
      exact .inl ⟨_, hrun⟩
  | some selected =>
      rw [hselected] at hrun
      exact .inr ⟨selected, hrun⟩

/-- The provider after a product was generated. -/
def keepProduct (p : LiveInspectionProvider σ) (symbol : SymbolPath) (product : ProductId)
    (g : GeneratedProduct) : Provided ProductPage × LiveInspectionProvider σ :=
  let r := { p with continuations := p.continuations.extend g.continuations }.record
    (.product symbol product) .analysis "product" g.page
  (r.1, { r.2 with
    products := r.2.products.insert (r.2.revisionId, symbol, product) ⟨r.1.runId⟩ })

/-- The product that a request asks for is kept with the answer. -/
theorem product_eq {p q r : LiveInspectionProvider σ} {symbol : SymbolPath} {product : ProductId}
    {generated : Option GeneratedProduct × SageHost σ}
    (hq : q = { p with nextContinuation := p.nextContinuation + 1 }) (hr : r = q.directory'.2)
    (hgenerated : generated = r.host.withContext (.product symbol product) fun texts storage =>
      identityProduct texts storage
        (if r.directoryStale then { q.directory'.1 with references := PartialMap.empty }
          else q.directory'.1) symbol product
        (q.revisionId ++ "_product_" ++ q.nextContinuation.repr)) :
    p.product symbol product = match generated.1 with
      | none => (.error ⟨"product-not-found",
          "product `" ++ product ++ "` is not listed for `" ++ symbol ++ "`"⟩,
            { r with host := generated.2 })
      | some g => (.ok ({ r with host := generated.2 }.keepProduct symbol product g).1,
          ({ r with host := generated.2 }.keepProduct symbol product g).2) := by
  subst hq hr hgenerated
  rfl

theorem product_cases (p : LiveInspectionProvider σ) (symbol : SymbolPath) (product : ProductId) :
    ∃ p₁, SameStore p p₁ ∧ ((∃ e, p.product symbol product = (.error e, p₁)) ∨
      ∃ g k, g.Sound (p.revisionId ++ "_product_" ++ Nat.repr k) ∧ p.product symbol product =
        (.ok (p₁.keepProduct symbol product g).1, (p₁.keepProduct symbol product g).2)) := by
  set q : LiveInspectionProvider σ := { p with nextContinuation := p.nextContinuation + 1 } with hq
  have hpq : SameStore p q := ⟨rfl, rfl, rfl, rfl, rfl, rfl, rfl⟩
  have hdirectory : SameStore p q.directory'.2 := hpq.trans (.directory' q)
  set r := q.directory'.2 with hr
  set directory := if r.directoryStale then
    { q.directory'.1 with references := PartialMap.empty } else q.directory'.1 with hd
  set generated := r.host.withContext (.product symbol product) fun texts storage =>
    identityProduct texts storage directory symbol product
      (q.revisionId ++ "_product_" ++ q.nextContinuation.repr) with hgenerated
  have hp₁ : SameStore p { r with host := generated.2 } := hdirectory.trans (.evaluate r _ _)
  refine ⟨_, hp₁, ?_⟩
  have hrun := product_eq hq hr hgenerated
  cases hg : generated.1 with
  | none =>
      rw [hg] at hrun
      exact .inl ⟨_, hrun⟩
  | some g =>
      rw [hg] at hrun
      exact .inr ⟨g, q.nextContinuation, identityProduct_sound hg, hrun⟩

/-- A batch that changes no text writes nothing. -/
theorem writeUpdates_cases (updates : List FileUpdate) : ∀ host : SageHost σ,
    ((writeUpdates host updates).2 = [] ∧ (writeUpdates host updates).1 = host) ∨
      ((writeUpdates host updates).2 ≠ [] ∧
        host.salsaRevision < (writeUpdates host updates).1.salsaRevision) := by
  induction updates with
  | nil => exact fun host => .inl ⟨rfl, rfl⟩
  | cons u updates ih =>
      intro host
      rw [writeUpdates]
      split
      · exact ih host
      · split
        · exact ih host
        · refine .inr ⟨by simp, ?_⟩
          have hset : host.salsaRevision < (host.setSourceText u.path u.text).salsaRevision :=
            Queries.currentRevision_setText _ _ _
          rcases ih (host.setSourceText u.path u.text) with ⟨-, heq⟩ | ⟨-, hlt⟩
          · change _ < (writeUpdates (host.setSourceText u.path u.text) updates).1.salsaRevision
            rw [heq]
            exact hset
          · exact Nat.lt_trans hset hlt

theorem applyUpdates_cases (p : LiveInspectionProvider σ) (updates : List FileUpdate) :
    (∃ e, p.applyUpdates updates = (.error e, p)) ∨
      ∃ (host : SageHost σ) (cause : RevisionCause) (deltas : List InputDelta) (batch : Nat)
        (answer : Provided RevisionAdvanced), p.host.salsaRevision < host.salsaRevision ∧
          p.applyUpdates updates = (.ok answer,
            { p with host, directoryStale := true, nextEditBatch := batch }.pushRevision
              ⟨Mark.name (p.databaseGeneration, host.salsaRevision), cause, deltas, []⟩) := by
  rw [applyUpdates]
  cases (updates.map fun u : FileUpdate =>
      { u with path := p.host.normalizeSourcePath u.path }).find?
        fun u => (p.host.texts u.path).isNone with
  | some u => exact .inl ⟨_, rfl⟩
  | none =>
      rcases writeUpdates_cases (updates.map fun u : FileUpdate =>
        { u with path := p.host.normalizeSourcePath u.path }) p.host with ⟨hnone, hsame⟩ | ⟨hsome, hlt⟩
      · simp only [hnone, hsame, List.isEmpty_nil, if_true]
        exact .inl ⟨_, rfl⟩
      · simp only [List.isEmpty_iff, hsome, if_false]
        exact .inr ⟨_, _, _, _, _, hlt, rfl⟩

/-! ### Runs -/

/-- The invariant, with the current revision as the last one retained. -/
def Retained (pages : List (Provided ProductPage)) (p : LiveInspectionProvider σ) : Prop :=
  ∃ marks, Retains marks pages p ∧ marks.getLast? = some p.mark ∧ p.revisions.length ≤ 64

namespace Retained

theorem new (host : SageHost σ) : Retained [] (LiveInspectionProvider.new host) := by
  refine ⟨[(0, host.salsaRevision)], ⟨rfl, List.pairwise_singleton _ _, fun handle => ?_, ?_,
    fun _ hh => absurd hh PartialMap.not_has_empty, fun _ _ => nofun, fun _ _ => nofun, nofun⟩,
    rfl, Nat.le_of_ble_eq_true rfl⟩
  · exact ⟨fun hh => absurd hh PartialMap.not_has_empty, nofun⟩
  · exact List.nodup_nil

theorem same (h : Retained pages p) (hs : SameStore p p') : Retained pages p' := by
  obtain ⟨marks, hr, hlast, hlength⟩ := h
  exact ⟨marks, hs.retains hr, hs.mark ▸ hlast, hs.revisions ▸ hlength⟩

theorem record {α : Type} (h : Retained pages p) (request : RunRequest) (phase : TracePhase)
    (operation : String) (value : α) :
    Retained pages (p.record request phase operation value).2 := by
  obtain ⟨marks, hr, hlast, hlength⟩ := h
  obtain ⟨hr', hlength', -⟩ := hr.record hlast request phase operation value
  exact ⟨marks, hr', hlast, hlength' ▸ hlength⟩

theorem keepProduct (h : Retained pages p) (symbol : SymbolPath) (product : ProductId)
    {g : GeneratedProduct} {k : Nat} (hg : g.Sound (p.revisionId ++ "_product_" ++ Nat.repr k)) :
    Retained ((p.keepProduct symbol product g).1 :: pages) (p.keepProduct symbol product g).2 := by
  obtain ⟨marks, hr, hlast, hlength⟩ := h
  rw [revisionId_eq] at hg
  obtain ⟨hr', hmentions⟩ := hr.extend hlast k hg
  obtain ⟨hr'', hlength', r, hmem, hid, hrun⟩ := hr'.record hlast (.product symbol product)
    .analysis "product" g.page
  have hname : (p.keepProduct symbol product g).1.revisionId = p.mark.name := revisionId_eq p
  refine ⟨marks, { hr'' with products := fun key retained hp => ?_, pages := fun answer ha => ?_ },
    hlast, hlength' ▸ hlength⟩
  · rcases PartialMap.insert_eq_some hp with ⟨rfl, rfl⟩ | ⟨-, hp⟩
    · exact ⟨r, hmem, hid.trans hname.symm, _, hrun, rfl⟩
    · exact hr''.products key retained hp
  · rcases List.mem_cons.mp ha with rfl | ha
    · exact ⟨p.mark, hname, .inl (List.mem_of_getLast? hlast), fun _ => hmentions⟩
    · exact hr''.pages answer ha

/-- A new revision of the same database, or the first revision of the next one. -/
theorem push (h : Retained pages p) (hmark : p.mark.Earlier p'.mark)
    (hrevisions : p'.revisions = p.revisions) (hruns : p'.runs = p.runs)
    (hproducts : p'.products = p.products) (hnext : p'.nextRun = p.nextRun)
    (hcontinuations : p'.continuations = p.continuations ∨
      p'.continuations = PartialMap.empty ∧ pages = [])
    (cause : RevisionCause) (deltas : List InputDelta) :
    Retained pages (p'.pushRevision ⟨p'.mark.name, cause, deltas, []⟩) := by
  obtain ⟨marks, hr, hlast, hlength⟩ := h
  have hlater : ∀ n ∈ marks, n.Earlier p'.mark := fun n hn => by
    obtain ⟨before, rfl⟩ := List.getLast?_eq_some_iff.mp hlast
    rcases List.mem_append.mp hn with hn | hn
    · exact ((List.pairwise_append.mp hr.sorted).2.2 n hn p.mark
        (List.mem_singleton.mpr rfl)).trans hmark
    · exact List.mem_singleton.mp hn ▸ hmark
  have hr' : Retains marks pages p' := by
    rcases hcontinuations with hc | ⟨hc, rfl⟩
    · exact hr.congr hrevisions hruns hproducts hc (Nat.le_of_eq hnext.symm)
    · have hempty : Retains marks [] { p with continuations := PartialMap.empty } :=
        { hr with continuations := fun _ _ => nofun, pages := nofun }
      exact hempty.congr hrevisions hruns hproducts hc (Nat.le_of_eq hnext.symm)
  obtain ⟨marks', hpushed, hlast', hlength'⟩ :=
    hr'.push (hrevisions ▸ hlength) hlater cause deltas
  refine ⟨marks', hpushed, hlast'.trans (congrArg some ?_), hlength'⟩
  -- expiry keeps the host and the generation
  rcases pushRevision_cases p' ⟨p'.mark.name, cause, deltas, []⟩ with
    ⟨-, heq⟩ | ⟨expired, rest, -, -, heq⟩
  · rw [heq]
    rfl
  · rw [heq]
    rfl

theorem perform (h : Retained pages p) (operation : Operation σ) :
    Retained (pagesAfter pages (p.perform operation).1) (p.perform operation).2 := by
  cases operation with
  | revision => exact h
  | session => exact h
  | symbols =>
      obtain ⟨p₁, index, hs, heq⟩ := p.symbols_cases
      rw [LiveInspectionProvider.perform, heq]
      exact (h.same hs).record .symbolIndex .bootstrap "local-symbol-index" index
  | symbol path =>
      obtain ⟨p₁, hs, ⟨e, heq⟩ | ⟨selected, heq⟩⟩ := p.symbol_cases path
      · rw [LiveInspectionProvider.perform, heq]
        exact h.same hs
      · rw [LiveInspectionProvider.perform, heq]
        exact (h.same hs).record (.symbol path) .selection "select-symbol" selected
  | product symbol product =>
      obtain ⟨p₁, hs, ⟨e, heq⟩ | ⟨g, k, hg, heq⟩⟩ := p.product_cases symbol product
      · rw [LiveInspectionProvider.perform, heq]
        exact h.same hs
      · rw [LiveInspectionProvider.perform, heq]
        rw [← hs.revisionId] at hg
        exact (h.same hs).keepProduct symbol product hg
  | continuation handle =>
      rw [LiveInspectionProvider.perform, LiveInspectionProvider.continuation]
      cases p.continuations handle with
      | none => exact h
      | some items => exact h
  | run handle =>
      rw [LiveInspectionProvider.perform, LiveInspectionProvider.run]
      cases p.runs handle with
      | none => exact h
      | some run => exact h
  | revisions => exact h
  | revisionDetail revision =>
      rw [LiveInspectionProvider.perform, LiveInspectionProvider.revisionDetail]
      cases p.revisions.find? (·.revisionId = revision) with
      | none => exact h
      | some revision => exact h
  | compare source target symbol product =>
      rw [LiveInspectionProvider.perform, LiveInspectionProvider.compare]
      cases p.products (source, symbol, product) with
      | none => exact h
      | some before =>
          cases p.products (target, symbol, product) with
          | none => exact h
          | some after => exact h
  | applyUpdates updates =>
      rcases p.applyUpdates_cases updates with ⟨e, heq⟩ | ⟨host, cause, deltas, batch, answer, hlt, heq⟩
      · rw [LiveInspectionProvider.perform, heq]
        exact h
      · rw [LiveInspectionProvider.perform, heq]
        let edited : LiveInspectionProvider σ :=
          { p with host, directoryStale := true, nextEditBatch := batch }
        have hmark : p.mark.Earlier edited.mark := .inr ⟨rfl, hlt⟩
        exact h.push hmark rfl rfl rfl rfl (.inl rfl) cause deltas
  | reloadWorkspace reason replacement =>
      cases replacement with
      | error message => exact h
      | ok host =>
          have hforget : Retained [] p := by
            obtain ⟨marks, hr, hrest⟩ := h
            exact ⟨marks, hr.forget, hrest⟩
          let q : LiveInspectionProvider σ := { p with
            host
            directory := none
            directoryStale := false
            databaseGeneration := p.databaseGeneration + 1
            continuations := PartialMap.empty }
          have hmark : p.mark.Earlier q.mark := .inl (Nat.lt_succ_self _)
          have hq := hforget.push hmark rfl rfl rfl rfl (.inr ⟨rfl, rfl⟩)
            (.workspaceReload p.revisionId reason) []
          rw [← revisionId_eq] at hq
          exact hq

theorem run {host : SageHost σ} (h : Run host pages p) : Retained pages p := by
  induction h with
  | new => exact new host
  | step _ operation ih => exact ih.perform operation

end Retained

/-! ### What a run guarantees -/

end Queries

section Fetched

/-- A handle that a product page mentions, or a continuation page reached from it. -/
inductive Reaches (p : LiveInspectionProvider σ) (page : ProductPage) : ContinuationHandle → Prop
  | content {handle : ContinuationHandle} (h : page.content.Mentions handle) : Reaches p page handle
  | page {handle next : ContinuationHandle} {items : List ValueNode} {item : ValueNode}
      (h : Reaches p page handle) (hi : p.continuations handle = some items) (hitem : item ∈ items)
      (hm : item.Mentions next) : Reaches p page next

/-- The identifiers of the retained revisions. -/
@[grind =] def revisionIds (p : LiveInspectionProvider σ) : List RevisionId :=
  p.revisions.map RetainedRevision.revisionId

/-- A revision and nothing else is removed with what is recorded in it. -/
structure ExpiresWith (p p' : LiveInspectionProvider σ) (expired : RetainedRevision) : Prop where
  runs : ∀ handle, p'.runs handle = if handle ∈ expired.runs then none else p.runs handle
  products : ∀ key, p'.products key =
    if key.1 = expired.revisionId then none else p.products key
  gone : ∀ handle, MadeIn expired.revisionId handle → p'.continuations handle = none
  kept : ∀ handle, ¬MadeIn expired.revisionId handle →
    p'.continuations handle = p.continuations handle

/-- What can be fetched from the provider, and how its operations change that. -/
structure Consistent [Queries σ] (pages : List (Provided ProductPage)) (p : LiveInspectionProvider σ) :
    Prop where
  atMost : p.revisions.length ≤ retainedRevisionLimit
  distinct : p.revisionIds.Nodup
  last : p.revisionIds.getLast? = some p.revisionId
  fetched : ∀ handle, (p.run handle).1.isOk ↔ ∃ r ∈ p.revisions, handle ∈ r.runs
  once : ∀ handle, (p.run handle).1.isOk → ∃! r, r ∈ p.revisions ∧ handle ∈ r.runs
  products : ∀ revision symbol product retained,
    p.products (revision, symbol, product) = some retained → revision ∈ p.revisionIds ∧
      ∃ handle, retained.runId = some handle ∧ (p.run handle).1.isOk
  handles : ∀ answer ∈ pages, answer.revisionId ∈ p.revisionIds →
    ∀ handle, p.Reaches answer.value handle → (p.continuation handle).1.isOk
  roomLeft : p.revisions.length < retainedRevisionLimit → ∀ revision,
    p.pushRevision revision = { p with revisions := p.revisions ++ [revision] }
  expiry : p.revisions.length = retainedRevisionLimit → ∃ expired rest,
    p.revisions = expired :: rest ∧ ∀ revision,
      (p.pushRevision revision).revisions = rest ++ [revision] ∧
        ExpiresWith p (p.pushRevision revision) expired
  unchanged : ∀ operation e, (p.perform operation).1 = .error e →
    SameStore p (p.perform operation).2

section Operations

variable [Queries σ]

theorem run_isOk {handle : RunHandle} : (p.run handle).1.isOk ↔ p.runs.Has handle := by
  rw [LiveInspectionProvider.run, PartialMap.Has]
  cases p.runs handle <;> simp [Except.isOk, Except.toBool]

theorem continuation_isOk {handle : ContinuationHandle} :
    (p.continuation handle).1.isOk ↔ p.continuations.Has handle := by
  rw [LiveInspectionProvider.continuation, PartialMap.Has]
  cases p.continuations handle <;> simp [Except.isOk, Except.toBool]

/-- An operation that returns an error changes only directories, memos and counters. -/
theorem perform_error {e : ApiError} (operation : Operation σ)
    (h : (p.perform operation).1 = .error e) : SameStore p (p.perform operation).2 := by
  cases operation with
  | revision => exact .refl p
  | session => exact .refl p
  | symbols =>
      obtain ⟨p₁, index, -, heq⟩ := p.symbols_cases
      rw [perform, heq] at h
      cases h
  | symbol path =>
      obtain ⟨p₁, hs, ⟨e, heq⟩ | ⟨selected, heq⟩⟩ := p.symbol_cases path
      · rw [perform, heq]
        exact hs
      · rw [perform, heq] at h
        cases h
  | product symbol product =>
      obtain ⟨p₁, hs, ⟨e, heq⟩ | ⟨g, k, -, heq⟩⟩ := p.product_cases symbol product
      · rw [perform, heq]
        exact hs
      · rw [perform, heq] at h
        cases h
  | continuation handle =>
      rw [perform, LiveInspectionProvider.continuation]
      cases p.continuations handle <;> exact .refl p
  | run handle =>
      rw [perform, LiveInspectionProvider.run]
      cases p.runs handle <;> exact .refl p
  | revisions => exact .refl p
  | revisionDetail revision =>
      rw [perform, LiveInspectionProvider.revisionDetail]
      cases p.revisions.find? (·.revisionId = revision) <;> exact .refl p
  | compare source target symbol product =>
      rw [perform, LiveInspectionProvider.compare]
      cases p.products (source, symbol, product) <;>
        cases p.products (target, symbol, product) <;> exact .refl p
  | applyUpdates updates =>
      rcases p.applyUpdates_cases updates with ⟨e, heq⟩ | ⟨host, cause, deltas, batch, answer, -, heq⟩
      · rw [perform, heq]
        exact .refl p
      · rw [perform, heq] at h
        cases h
  | reloadWorkspace reason replacement =>
      cases replacement with
      | error message => exact .refl p
      | ok host => cases h

end Operations

namespace Retains

theorem nodup_revisionIds (h : Retains marks pages p) : p.revisionIds.Nodup := by
  rw [revisionIds, h.names]
  exact (h.sorted.imp Mark.Earlier.ne).map Mark.name fun m n hne he => hne (Mark.name_injective he)

theorem mem_revisionIds (h : Retains marks pages p) : m.name ∈ p.revisionIds ↔ m ∈ marks := by
  rw [revisionIds, h.names, List.mem_map]
  exact ⟨fun ⟨n, hn, he⟩ => Mark.name_injective he ▸ hn, fun hm => ⟨m, hm, rfl⟩⟩

/-- A run is listed by one revision. -/
theorem listed_unique (h : Retains marks pages p) {handle : RunHandle} {r r' : RetainedRevision}
    (hr : r ∈ p.revisions) (hr' : r' ∈ p.revisions) (hh : handle ∈ r.runs)
    (hh' : handle ∈ r'.runs) : r' = r := by
  have hsymm : Std.Symm (Function.onFun List.Disjoint RetainedRevision.runs) :=
    ⟨fun _ _ hd _ hx hy => hd hy hx⟩
  by_contra hne
  exact (List.nodup_flatMap.mp h.once).2.forall hr' hr hne hh' hh

end Retains

end Fetched

section Queries

variable [Queries σ]

/-- In every state of a run, the handles that were given out can be fetched as long as their
revision is retained, and nothing else is retained. -/
theorem run_consistent {host : SageHost σ} (h : Run host pages p) : Consistent pages p := by
  obtain ⟨marks, hr, hlast, hlength⟩ := Retained.run h
  have hlisted : ∀ handle, (p.run handle).1.isOk ↔ ∃ r ∈ p.revisions, handle ∈ r.runs :=
    fun handle => run_isOk.trans ((hr.listed handle).trans List.mem_flatMap)
  refine ⟨hlength, hr.nodup_revisionIds, ?_, hlisted, fun handle hok => ?_,
    fun revision symbol product retained hp => ?_, fun answer ha hid handle hreach => ?_,
    fun hroom revision => ?_, fun hfull => ?_, fun operation e he => perform_error operation he⟩
  · rw [revisionIds, hr.names, List.getLast?_map, hlast, revisionId_eq]
    rfl
  · obtain ⟨r, hmem, hrun⟩ := (hlisted handle).mp hok
    exact ⟨r, ⟨hmem, hrun⟩, fun r' hr' => hr.listed_unique hmem hr'.1 hrun hr'.2⟩
  · obtain ⟨r, hmem, hid, handle, hhandle, hrunId⟩ := hr.products _ retained hp
    exact ⟨List.mem_map.mpr ⟨r, hmem, hid⟩, handle, hrunId, (hlisted handle).mpr ⟨r, hmem, hhandle⟩⟩
  · obtain ⟨m, hname, -, hmentions⟩ := hr.pages answer ha
    rw [hname, hr.mem_revisionIds] at hid
    rw [continuation_isOk]
    -- every page on the way belongs to the revision of the product
    have hreached : p.continuations.Has handle ∧ MadeIn m.name handle := by
      induction hreach with
      | content hm => exact hmentions hid _ hm
      | page _ hi hitem hm ih =>
          obtain ⟨n, hn, hmade, hitems⟩ := hr.continuations _ _ hi
          have hnm : n = m :=
            hmade.startsWith_iff.mp (ih.2.startsWith_iff.mpr (Eq.refl m))
          exact hnm ▸ hitems _ hitem _ hm
    exact hreached.1
  · rcases pushRevision_cases p revision with ⟨-, heq⟩ | ⟨expired, rest, -, hfull, -⟩
    · exact heq
    · exact absurd hroom (Nat.not_lt_of_le hfull)
  · obtain ⟨expired, rest, hrevisions⟩ : ∃ expired rest, p.revisions = expired :: rest := by
      cases hp : p.revisions with
      | nil =>
          rw [hp] at hfull
          cases hfull
      | cons expired rest => exact ⟨expired, rest, rfl⟩
    refine ⟨expired, rest, hrevisions, fun revision => ?_⟩
    rcases pushRevision_cases p revision with ⟨hroom, -⟩ | ⟨expired', rest', hrevisions', -, heq⟩
    · exact absurd hfull (Nat.ne_of_lt hroom)
    obtain ⟨rfl, rfl⟩ := List.cons.inj (hrevisions.symm.trans hrevisions')
    obtain ⟨hruns, hproducts, hcontinuations⟩ :=
      expire_cases { p with revisions := rest ++ [revision] } expired
    obtain ⟨m, hm, hname⟩ : ∃ m ∈ marks, expired.revisionId = m.name := by
      have hmem : expired.revisionId ∈ p.revisionIds :=
        List.mem_map.mpr ⟨expired, hrevisions ▸ List.mem_cons_self, rfl⟩
      rw [revisionIds, hr.names] at hmem
      obtain ⟨m, hm, he⟩ := List.mem_map.mp hmem
      exact ⟨m, hm, he.symm⟩
    rw [heq]
    refine ⟨rfl, hruns, hproducts, fun handle hmade => ?_, fun handle hmade => ?_⟩
    · rw [hcontinuations, hname, if_pos]
      exact (hname ▸ hmade).startsWith_iff.mpr rfl
    · rw [hcontinuations]
      split
      · rename_i hstarts
        cases hi : p.continuations handle with
        | none => rfl
        | some items =>
            obtain ⟨n, -, hn, -⟩ := hr.continuations handle items hi
            rw [hname] at hstarts hmade
            exact absurd (hn.startsWith_iff.mp hstarts ▸ hn) hmade
      · rfl

end Queries

end LiveInspectionProvider

/-! ### A small crate -/

/-- A storage that counts revisions. -/
structure Counter where
  revision : Nat

/-- The crate `demo`, which declares the function `f` or nothing. -/
def declaresF (texts : SourceTexts) : Bool := texts "lib.rs" = some "fn f() {}"

def demoFn : Symbol := ⟨"local-fn", 0⟩

def demoSummary : SymbolSummary where
  path := "local/demo/value-fn-f"
  parent := some "local/demo"
  label := "f"
  displayPath := "demo::f"
  searchText := "f demo::f function"
  presentation := ⟨some "Local function", [⟨"Source-written", "neutral"⟩]⟩
  children := .notApplicable

instance demoQueries : Queries Counter where
  currentRevision s := s.revision
  setText s _ _ := ⟨s.revision + 1⟩
  evaluate s _ := s
  currentRevision_setText s _ _ := Nat.lt_succ_self s.revision
  currentRevision_evaluate _ _ := rfl
  rootSummary _ _ :=
    ⟨"local/demo", none, "demo", "demo", "demo crate", ⟨some "Local crate", []⟩, .complete⟩
  walkSymbols texts _ := if declaresF texts then [(demoFn, demoSummary)] else []
  resolveLocalSymbol texts _ path :=
    if declaresF texts ∧ path = demoSummary.path then some demoFn else none
  findReference texts _ symbol :=
    if declaresF texts ∧ symbol = demoFn then some demoSummary.reference else none
  symbolSource texts _ symbol :=
    if declaresF texts ∧ symbol = demoFn then some (.sourceFile "fn f() {}") else none
  localFn _ _ _ := none
  resolveExternal _ _ _ := none
  stripPrefix _ _ := none

/-- The crate with the function in it. -/
def demoHost : SageHost Counter := ⟨PartialMap.empty.insert "lib.rs" "fn f() {}", ⟨1⟩, "/demo/src"⟩

/-- One product of the function. -/
theorem run_consistent_demo :
    LiveInspectionProvider.Consistent
      (LiveInspectionProvider.pagesAfter []
        ((LiveInspectionProvider.new demoHost).perform (.product demoSummary.path "source")).1)
      ((LiveInspectionProvider.new demoHost).perform (.product demoSummary.path "source")).2 :=
  LiveInspectionProvider.run_consistent
    (show LiveInspectionProvider.Run demoHost _ _ from .step .new _)

end Sage.Inspector
