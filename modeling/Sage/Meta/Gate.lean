import Sage.Meta.Review

/-!
# Meta — the gate over reviews

The gate finds nothing to report exactly when every anchor has a review that counts, and no
saved entry is invalid or about another anchor.  A review counts only for what it was made from.

* `Fresh` — a captured input that is still the current one.
* `reviews_nodup` — saved reviews are of different anchors.
* `validate_eq_nil_iff` — the gate, one anchor at a time.
-/

namespace Sage.Meta.Review

variable {workspace : Workspace} {saved current : ReviewInput} {checklist : ReviewChecklist}
  {anchor : String} {input : ReviewInput} {record : ReviewRecord}

/-- What was captured is what there is: the initial fragments in their order, and the text that
every other one selects. -/
structure Fresh (workspace : Workspace) (saved current : ReviewInput) : Prop where
  prompt : saved.prompt = current.prompt
  implementations : saved.implementations = current.implementations
  tests : saved.tests = current.tests
  initial : current.fragments <+: saved.fragments
  extra : ∀ fragment ∈ saved.fragments.drop current.fragments.length,
    select workspace fragment.path fragment.selector = .ok (joinLines fragment.contents)

theorem initial_iff : (current.fragments.zipIdx.filterMap fun (expected, index) =>
      if saved.fragments[index]? ≠ some expected then
        some ("initial fragment changed: " ++ expected.path ++ " " ++ expected.selector.debug)
      else none) = [] ↔ current.fragments <+: saved.fragments := by
  rw [List.filterMap_eq_nil_iff, List.prefix_iff_getElem?]
  constructor
  · intro h i hi
    have hkept := h (current.fragments[i], i) (List.mem_zipIdx_iff_getElem?.mpr (by simp [hi]))
    by_contra hne
    simp [hne] at hkept
  · rintro h ⟨expected, index⟩ hmem
    obtain ⟨hindex, hexpected⟩ := List.getElem?_eq_some_iff.mp (List.mem_zipIdx_iff_getElem?.mp hmem)
    refine if_neg (not_not.mpr ?_)
    rw [h index hindex]
    exact congrArg some hexpected

theorem extra_iff {fragments : List InputFragment} : (fragments.filterMap fun fragment =>
      match select workspace fragment.path fragment.selector with
      | .ok text =>
          if text = joinLines fragment.contents then none
          else some ("fragment contents changed: " ++ fragment.path ++ " " ++
            fragment.selector.debug)
      | .error error => some
          ("fragment " ++ fragment.path ++ " " ++ fragment.selector.debug ++ ": " ++ error)) = [] ↔
      ∀ fragment ∈ fragments,
        select workspace fragment.path fragment.selector = .ok (joinLines fragment.contents) := by
  rw [List.filterMap_eq_nil_iff]
  refine forall₂_congr fun fragment _ => ?_
  cases hselect : select workspace fragment.path fragment.selector with
  | error error => simp
  | ok text => simp

theorem inputErrors_eq_nil_iff :
    inputErrors workspace saved current = [] ↔ Fresh workspace saved current := by
  simp only [inputErrors, List.append_eq_nil_iff, initial_iff]
  constructor
  · rintro ⟨⟨⟨⟨⟨hprompt, himplementations⟩, htests⟩, -⟩, hinitial⟩, hextra⟩
    exact
      { prompt := by simpa using hprompt
        implementations := by simpa using himplementations
        tests := by simpa using htests
        initial := hinitial
        extra := extra_iff.mp hextra }
  · intro h
    refine ⟨⟨⟨⟨⟨?_, ?_⟩, ?_⟩, ?_⟩, h.initial⟩, extra_iff.mpr h.extra⟩
    · exact if_neg (not_not.mpr h.prompt)
    · exact if_neg (not_not.mpr h.implementations)
    · exact if_neg (not_not.mpr h.tests)
    · exact if_neg (Nat.not_lt.mpr h.initial.length_le)

/-! ### Saved reviews are of different anchors -/

theorem bind_eq_ok {α β : Type} {x : Except String α} {f : α → Except String β} {b : β} :
    (x >>= f) = .ok b ↔ ∃ a, x = .ok a ∧ f a = .ok b := by
  cases x with
  | error error => simp [bind, Except.bind]
  | ok a => simp [bind, Except.bind]

theorem loadEntry_anchor {entry : SavedEntry} (h : loadEntry entry = .ok record) :
    record.anchor = entry.name.lossy ∧ validAnchorName entry.name.lossy.toList = true := by
  simp only [loadEntry] at h
  by_cases hvalid : validAnchorName entry.name.lossy.toList = true
  · simp only [hvalid, Bool.not_true, Bool.false_eq_true, if_false, bind_eq_ok] at h
    obtain ⟨summary, -, input, -, h⟩ := h
    refine ⟨?_, hvalid⟩
    by_cases hrecorded : summary.recordedAt.isSome
    · rw [if_pos hrecorded, bind_eq_ok] at h
      obtain ⟨output, -, h⟩ := h
      cases herror : outputError output with
      | some error =>
          rw [herror] at h
          cases h
      | none =>
          rw [herror] at h
          exact (congrArg ReviewRecord.anchor (Except.ok.inj h)).symm
    · rw [if_neg hrecorded] at h
      exact (congrArg ReviewRecord.anchor (Except.ok.inj h)).symm
  · simp [hvalid, bind, Except.bind] at h

theorem mem_splitOn {text : List Char} {c d : Char} (h : d ∈ text) (hne : d ≠ c) :
    ∃ part ∈ text.splitOn c, d ∈ part := by
  rw [List.splitOn_eq_splitOnP]
  induction text with
  | nil => cases h
  | cons e text ih =>
      rw [List.splitOnP_cons_eq_if_modifyHead]
      obtain ⟨part, parts, hparts⟩ :=
        List.exists_cons_of_ne_nil (List.splitOnP_ne_nil (· == c) text)
      rw [hparts] at ih ⊢
      obtain rfl | h := List.mem_cons.mp h
      · rw [if_neg (by simpa using hne)]
        exact ⟨d :: part, List.mem_cons_self, List.mem_cons_self⟩
      · obtain ⟨part', hpart', hd⟩ := ih h
        by_cases he : e == c
        · rw [if_pos he]
          exact ⟨part', List.mem_cons_of_mem _ hpart', hd⟩
        · rw [if_neg he, List.modifyHead_cons]
          obtain rfl | hpart' := List.mem_cons.mp hpart'
          · exact ⟨_, List.mem_cons_self, List.mem_cons_of_mem _ hd⟩
          · exact ⟨part', List.mem_cons_of_mem _ hpart', hd⟩

/-- A valid name is the name of one file only. -/
theorem name_eq_of_valid {name : FileName} (h : validAnchorName name.lossy.toList = true) :
    name = .text name.lossy := by
  cases name with
  | text name => rfl
  | other lossy replaced =>
      obtain ⟨part, hpart, hmem⟩ := mem_splitOn replaced (show '\uFFFD' ≠ '.' by decide)
      have hvalid := List.all_eq_true.mp h part hpart
      cases part with
      | nil => cases hmem
      | cons first rest =>
          simp only [Bool.and_eq_true, List.all_eq_true] at hvalid
          obtain rfl | hmem := List.mem_cons.mp hmem
          · exact absurd hvalid.1 (by decide)
          · exact absurd (hvalid.2 _ hmem) (by decide)

theorem reviews_nodup (saved : SavedDirectory) :
    (saved.checklist.reviews.map ReviewRecord.anchor).Nodup := by
  have hnames : ∀ entries : List SavedEntry, (entries.map SavedEntry.name).Nodup →
      ((entries.filterMap fun entry => (loadEntry entry).toOption).map
        ReviewRecord.anchor).Nodup := by
    intro entries hdistinct
    induction entries with
    | nil => exact List.nodup_nil
    | cons entry entries ih =>
        obtain ⟨hnew, hdistinct⟩ := List.nodup_cons.mp hdistinct
        cases hload : loadEntry entry with
        | error error => simpa [List.filterMap_cons, hload, Except.toOption] using ih hdistinct
        | ok record =>
            simp only [List.filterMap_cons, hload, Except.toOption, List.map_cons,
              List.nodup_cons]
            refine ⟨fun hmem => hnew ?_, ih hdistinct⟩
            obtain ⟨other, hother, hanchor⟩ := List.mem_map.mp hmem
            obtain ⟨entry', hentry', hload'⟩ := List.mem_filterMap.mp hother
            cases hresult : loadEntry entry' with
            | error error => simp [hresult] at hload'
            | ok record' =>
                obtain rfl : record' = other := by simpa [hresult] using hload'
                obtain ⟨hlossy, hvalid⟩ := loadEntry_anchor hload
                obtain ⟨hlossy', hvalid'⟩ := loadEntry_anchor hresult
                have hname : entry.name = entry'.name := by
                  rw [name_eq_of_valid hvalid, name_eq_of_valid hvalid', ← hlossy, ← hlossy',
                    hanchor]
                exact List.mem_map.mpr ⟨entry', hentry', hname.symm⟩
  exact hnames saved.entries saved.distinct

/-! ### The gate -/

theorem checklist_issue_anchor {saved : SavedDirectory} {issue : ReviewIssue}
    (h : issue ∈ saved.checklist.issues) : ∃ anchor, issue.anchor = some anchor := by
  obtain ⟨entry, -, hissue⟩ := List.mem_filterMap.mp h
  rw [entryIssue] at hissue
  cases hload : loadEntry entry with
  | ok record => simp [hload] at hissue
  | error error =>
      obtain rfl : _ = issue := Option.some.inj (by simpa [hload] using hissue)
      exact ⟨_, rfl⟩

theorem accepts_iff : record.accepts workspace anchor input = true ↔
    record.anchor = anchor ∧ input.tests ≠ [] ∧ input.implementations ≠ [] ∧
      (∃ output, record.output = some output ∧ outputError output = none ∧
        output.requestedEdits = []) ∧ Fresh workspace record.input input := by
  rw [ReviewRecord.accepts, ← inputErrors_eq_nil_iff]
  simp only [Bool.and_eq_true, decide_eq_true_eq, Bool.not_eq_true', List.isEmpty_eq_false_iff,
    inputsMatch, List.isEmpty_iff, Option.any_eq_true, Option.isNone_iff_eq_none, and_assoc]

theorem acceptable_spec (h : acceptable workspace anchor input checklist = some record) :
    record ∈ checklist.reviews ∧ record.accepts workspace anchor input = true := by
  rw [acceptable] at h
  split at h
  · cases h
  · exact ⟨List.mem_of_find?_eq_some h, List.find?_some h⟩

/-- The first review of an anchor is its only one. -/
theorem find_anchor (hnodup : (checklist.reviews.map ReviewRecord.anchor).Nodup)
    (hrecord : record ∈ checklist.reviews) :
    checklist.reviews.find? (fun other => decide (other.anchor = record.anchor)) = some record := by
  cases hfind : checklist.reviews.find? fun other => decide (other.anchor = record.anchor) with
  | none =>
      have hnone := List.find?_eq_none.mp hfind record hrecord
      simp at hnone
  | some other =>
      have hanchor : other.anchor = record.anchor := by simpa using List.find?_some hfind
      have hother := List.mem_of_find?_eq_some hfind
      rw [List.inj_on_of_nodup_map hnodup hother hrecord hanchor]

/-- The gate has no reason against an anchor exactly when a review of it counts. -/
theorem reasons_eq_nil_iff (hschema : checklist.schemaVersion = schemaVersion)
    (hpolicy : checklist.policyVersion = policyVersion)
    (hnodup : (checklist.reviews.map ReviewRecord.anchor).Nodup) :
    reasons workspace checklist anchor input = [] ↔
      ∃ record, acceptable workspace anchor input checklist = some record := by
  have hacceptable : (∃ record, acceptable workspace anchor input checklist = some record) ↔
      ∃ record ∈ checklist.reviews, record.accepts workspace anchor input = true := by
    rw [acceptable, if_neg (by simp [hschema, hpolicy]), ← Option.isSome_iff_exists,
      List.find?_isSome]
  rw [hacceptable, reasons, List.append_eq_nil_iff, List.append_eq_nil_iff]
  have hmissing {p : Prop} [Decidable p] {text : String} :
      (if p then [text] else []) = [] ↔ ¬ p := by
    by_cases h : p <;> simp [h]
  rw [hmissing, hmissing, List.isEmpty_iff, List.isEmpty_iff]
  constructor
  · rintro ⟨⟨hrecord, htests⟩, himplementations⟩
    cases hfind : checklist.reviews.find? fun other => decide (other.anchor = anchor) with
    | none => simp [hfind] at hrecord
    | some record =>
        refine ⟨record, List.mem_of_find?_eq_some hfind, accepts_iff.mpr ?_⟩
        simp only [hfind, List.append_eq_nil_iff] at hrecord
        obtain ⟨houtput, herrors⟩ := hrecord
        refine ⟨by simpa using List.find?_some hfind, htests, himplementations, ?_,
          inputErrors_eq_nil_iff.mp herrors⟩
        cases hsome : record.output with
        | none => simp [hsome] at houtput
        | some output =>
            simp only [hsome, List.append_eq_nil_iff, Option.toList_eq_nil_iff] at houtput
            refine ⟨output, rfl, houtput.1, ?_⟩
            by_contra hedits
            simp [hedits] at houtput
  · rintro ⟨record, hmem, haccepts⟩
    obtain ⟨rfl, htests, himplementations, ⟨output, houtput, herror, hedits⟩, hfresh⟩ :=
      accepts_iff.mp haccepts
    refine ⟨⟨?_, htests⟩, himplementations⟩
    simp [find_anchor hnodup hmem, houtput, herror, hedits, inputErrors_eq_nil_iff.mpr hfresh]

theorem loadSaved_spec {path : Option (Except String SavedDirectory)}
    (h : loadSaved path = .ok checklist) :
    checklist.schemaVersion = schemaVersion ∧ checklist.policyVersion = policyVersion ∧
      (checklist.reviews.map ReviewRecord.anchor).Nodup := by
  cases path with
  | none =>
      obtain rfl := Except.ok.inj h
      exact ⟨rfl, rfl, List.nodup_nil⟩
  | some saved =>
      cases saved with
      | error error => cases h
      | ok saved =>
          obtain rfl := Except.ok.inj h
          exact ⟨rfl, rfl, reviews_nodup saved⟩

theorem lookup_isSome_iff {current : List (String × ReviewInput)} :
    (current.lookup anchor).isSome ↔ anchor ∈ current.map Prod.fst := by
  constructor
  · intro h
    obtain ⟨input, hinput⟩ := Option.isSome_iff_exists.mp h
    obtain ⟨before, after, hcurrent, -⟩ := List.lookup_eq_some_iff.mp hinput
    simp [hcurrent]
  · intro h
    by_contra hnone
    rw [Option.not_isSome_iff_eq_none, List.lookup_eq_none_iff] at hnone
    obtain ⟨entry, hentry, rfl⟩ := List.mem_map.mp h
    exact bne_iff_ne.mp (hnone entry hentry) rfl

/-- For what can be loaded: the gate reports nothing exactly when every anchor has a review that
counts and no saved entry is invalid or obsolete, and a review counts only while it is fresh. -/
theorem validate_agrees {path : Option (Except String SavedDirectory)}
    (h : loadSaved path = .ok checklist) (workspace : Workspace)
    (current : List (String × ReviewInput)) :
    (validate workspace current checklist = [] ↔
      (∀ entry ∈ current, ∃ record,
        acceptable workspace entry.1 entry.2 checklist = some record) ∧
      checklist.issues = [] ∧
      ∀ record ∈ checklist.reviews, record.anchor ∈ current.map Prod.fst) ∧
    ∀ anchor input record, acceptable workspace anchor input checklist = some record →
      record ∈ checklist.reviews ∧ record.anchor = anchor ∧
        Fresh workspace record.input input := by
  obtain ⟨hschema, hpolicy, hnodup⟩ := loadSaved_spec h
  refine ⟨?_, fun anchor input record hacceptable => ?_⟩
  · rw [validate, List.append_eq_nil_iff, List.append_eq_nil_iff, List.filterMap_eq_nil_iff,
      List.filterMap_eq_nil_iff]
    constructor
    · rintro ⟨⟨hissues, hobsolete⟩, hreasons⟩
      refine ⟨fun entry hentry => ?_, hissues, fun record hrecord => ?_⟩
      · refine (reasons_eq_nil_iff hschema hpolicy hnodup).mp ?_
        have hentry' := hreasons entry hentry
        cases hlist : reasons workspace checklist entry.1 entry.2 with
        | nil => rfl
        | cons reason reasons => simp [hlist] at hentry'
      · have hanchor := hobsolete record.anchor
          (List.mem_append_left _ (List.mem_map_of_mem hrecord))
        by_contra hnot
        simp [mt lookup_isSome_iff.mp hnot] at hanchor
    · rintro ⟨hall, hissues, hreviews⟩
      refine ⟨⟨hissues, fun anchor hanchor => ?_⟩, fun entry hentry => ?_⟩
      · rw [hissues, List.filterMap_nil, List.append_nil] at hanchor
        obtain ⟨record, hrecord, rfl⟩ := List.mem_map.mp hanchor
        exact if_pos (lookup_isSome_iff.mpr (hreviews record hrecord))
      · simp [(reasons_eq_nil_iff hschema hpolicy hnodup).mpr (hall entry hentry)]
  · obtain ⟨hmem, haccepts⟩ := acceptable_spec hacceptable
    obtain ⟨hanchor, -, -, -, hfresh⟩ := accepts_iff.mp haccepts
    exact ⟨hmem, hanchor, hfresh⟩

def reviewedInput : ReviewInput where
  prompt := "Review this anchor."
  coordinatorInstructions := []
  fragments := [⟨"md/a.md", .claim "a.b", ["It holds.".toList]⟩]
  implementations :=
    [⟨"a", "lib:a", "a", "src/lib.rs", [], ["fn f();".toList], false, .ordinary, none⟩]
  tests := [⟨"a", "lib:a", "a::t", "src/lib.rs", [], .ordinary⟩]

/-- A review that read one file more than its initial fragments. -/
def savedReview : SavedDirectory where
  entries :=
    [{ name := .text "a.b"
       directory := .ok ()
       summary := .ok ⟨"a.b", some 1, 4, 4⟩
       input := .ok { reviewedInput with
         fragments := reviewedInput.fragments ++ [⟨"src/f.rs", .wholeFile, ["x".toList, []]⟩] }
       output := .ok ⟨"r".toList, "accounted".toList, []⟩ }]
  distinct := List.nodup_singleton _

def reviewedWorkspace : Workspace where
  root := ["w"]
  canonicalize := fun path => .ok ["w", path]
  readToString := fun _ => .ok "x\n".toList
  spec := .error "unread"
  claimPath := fun file => .ok file
  rust := .error "unread"

theorem validate_savedReview :
    validate reviewedWorkspace [("a.b", reviewedInput)] savedReview.checklist = [] := by
  have hload : loadSaved (some (.ok savedReview)) = .ok savedReview.checklist := rfl
  refine (validate_agrees hload reviewedWorkspace _).1.mpr ⟨?_, by decide, ?_⟩
  · intro entry hentry
    obtain rfl := List.mem_singleton.mp hentry
    exact Option.isSome_iff_exists.mp (by decide)
  · decide

end Sage.Meta.Review
