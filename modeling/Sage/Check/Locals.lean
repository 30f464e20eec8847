import Sage.Check.Scoping

/-!
# Check — the names of a body

The check of a whole body against the scoping rules.

* `FnBody.check_ends` — it ends, and follows the word of the body.
* `FnBody.scoped_iff` — when it is what the rules say.  A check gives every identifier pattern a
  local of its own, also one that names a constant, and also in every alternative of an or-pattern.
-/

namespace Sage.Check

open Resolve (Namespace)

variable {m : ModuleNames} {word : List Event} {occurrences : List Occurrence} {n : Nat}

/-! ### The scope a body starts in -/

/-- No local is in scope before the parameters. -/
theorem FnBody.initialRibs_lookup (f : FnBody) (x : Name) :
    f.initialRibs.lookup x .value = none ∧ f.initialRibs.scopes ≠ [] := by
  obtain ⟨hlookup, hne⟩ :=
    @Ribs.addGenericParams_lookup (Ribs.pushScope ⟨[]⟩) x f.generics
  rw [initialRibs]
  cases f.ownerSelfTy with
  | none => exact ⟨hlookup, hne⟩
  | some ty =>
      refine ⟨?_, Ribs.add_ne_nil hne⟩
      simp only
      rw [Ribs.lookup_add hne, if_neg (by rintro ⟨-, ⟨⟩⟩)]
      exact hlookup

theorem Checked.initial (f : FnBody) :
    Checked m [] ⟨f.initialRibs, PartialMap.empty⟩ [] 0 where
  aligned := rfl
  uses := by nofun
  binds := by nofun
  numbered := by nofun
  counted := by nofun
  scopes := (f.initialRibs_lookup "").2
  lookup := by
    intro x r
    rw [(f.initialRibs_lookup x).1]
    constructor
    · nofun
    · rintro ⟨j, id, hj, -⟩
      exact absurd hj Lexical.not_denotes_nil
  typed := by
    intro x id hid
    rw [(f.initialRibs_lookup x).1] at hid
    cases hid

theorem Checked.bindParams (k : Nat) (params : List (ParamCst × Ty)) : ∀ {word : List Event}
    {scope : Scope} (cx : BodyCx), Checked m word scope cx.occurrences cx.localVars.length →
    Checked m (word ++ wordParams k params) (Scope.bindParams params scope cx).1
      (Scope.bindParams params scope cx).2.occurrences
      (Scope.bindParams params scope cx).2.localVars.length := by
  induction params generalizing k with
  | nil =>
      intro word scope cx h
      rwa [wordParams, List.append_nil]
  | cons head params ih =>
      intro word scope cx h
      obtain ⟨⟨name, span⟩, ty⟩ := head
      cases name with
      | none => exact ih (k + 1) cx h
      | some name =>
          have hbind := h.bindLocal name [.part 0, .part k] ty
          have hlength : cx.localVars.length + 1 =
              (scope.bindLocal cx name span ty).2.2.localVars.length :=
            (List.length_append : (cx.localVars ++ [LocalVar.mk name span]).length = _).symm
          rw [hlength] at hbind
          have hrest := ih (k + 1) (scope.bindLocal cx name span ty).2.2 hbind
          rwa [List.append_assoc] at hrest

/-! ### The whole body -/

theorem FnBody.check_ends (m : ModuleNames) (f : FnBody) :
    ∃ cx, f.check m = some cx ∧ Settled m f.word cx.occurrences cx.localVars.length := by
  have hparams := Checked.bindParams (m := m) 0 f.params BodyCx.new (Checked.initial f)
  obtain ⟨cx, hcheck, -, h⟩ := checkOption_ends [.part 1] f.body _ hparams
  exact ⟨cx, hcheck, h.toSettled⟩

theorem Mates.ne {i j : Nat} (h : Mates word i j) : i ≠ j := by
  rintro rfl
  obtain ⟨x, k, k', around, inner, inner', hne, hi, hj⟩ := h
  rw [hi, Option.some.injEq, Lexical.Event.binds.injEq, List.append_cancel_left_eq] at hj
  cases hj.2
  exact hne rfl

/-- The locals are numbered in the order of the word, so that no two bindings share one. -/
theorem Settled.own (h : Settled m word occurrences n) {i j : Nat} {id : LocalId}
    (hi : occurrences[i]? = some (.bound id)) (hj : occurrences[j]? = some (.bound id)) : i = j := by
  obtain hlt | heq | hgt := Nat.lt_trichotomy i j
  · exact absurd (h.numbered i j id id hlt hi hj) (Nat.lt_irrefl _)
  · exact heq
  · exact absurd (h.numbered j i id id hgt hj hi) (Nat.lt_irrefl _)

theorem Settled.iff_plain (h : Settled m word occurrences n) :
    Scoped m word occurrences ↔ Plain m word := by
  constructor
  · intro hscoped
    refine ⟨fun i x site hi => (hscoped.binds i x site hi).mp (h.binds i x site hi), ?_⟩
    intro i j hmates
    have ⟨x, k, k', around, inner, inner', _, hi, hj⟩ := hmates
    obtain ⟨id, hid⟩ := h.binds i x _ hi
    obtain ⟨id', hid'⟩ := h.binds j x _ hj
    cases (hscoped.own i j id id' hid hid').mpr (.inr hmates)
    exact hmates.ne (h.own hid hid')
  · intro hplain
    have hmeans {i j : Nat} {x : Name} :
        m.Means word i x j ↔ Lexical.Denotes (word.take i) x j := by
      refine and_iff_right_of_imp fun hj => ?_
      obtain ⟨site, hat⟩ := hj.binds
      rw [List.getElem?_take] at hat
      split_ifs at hat
      exact hplain.constants j x site hat
    exact {
      aligned := h.aligned
      uses := by
        simp only [hmeans]
        exact h.uses
      binds := fun i x site hi =>
        iff_of_true (h.binds i x site hi) (hplain.constants i x site hi)
      own := by
        intro i j id id' hi hj
        constructor
        · rintro rfl
          exact .inl (h.own hi hj)
        · rintro (rfl | hmates)
          · rw [hi] at hj
            cases hj
            rfl
          · exact absurd hmates (hplain.mates i j) }

/-- The check of a body never fails to find the type of a local.  Its names follow the scoping rules
exactly if no identifier pattern of the body names a unit struct, unit variant, constant or static
and no two alternatives of an or-pattern bind one name. -/
theorem FnBody.scoped_iff (m : ModuleNames) (f : FnBody) :
    (∃ cx, f.check m = some cx ∧ Scoped m f.word cx.occurrences) ↔ Plain m f.word := by
  obtain ⟨cx, hcheck, h⟩ := f.check_ends m
  rw [← h.iff_plain]
  constructor
  · rintro ⟨cx', hcheck', hscoped⟩
    rw [hcheck] at hcheck'
    cases hcheck'
    exact hscoped
  · exact fun hscoped => ⟨cx, hcheck, hscoped⟩

/-! ### Bodies that are not plain -/

/-- The module has a constant `MAX` and two variants with one field. -/
def exampleNames : ModuleNames where
  resolveName := fun name _ =>
    if name = "MAX" then [⟨0⟩] else if name = "A" then [⟨1⟩] else if name = "B" then [⟨2⟩] else []
  resolvePath := fun _ _ => []
  kind := fun sym => if sym = ⟨0⟩ then .constant else .other

/-- `fn f(o: T) -> i32 { match o { A(x) | B(x) => x } }`. -/
def eitherBody : FnBody where
  generics := []
  ownerSelfTy := none
  params := [(⟨some "o", ⟨5, 9⟩⟩, .int .i32)]
  body := some (.matchExpr (.path (.relative "o" []))
    [.mk (.or [.tupleStruct (.relative "A" []) [.bind "x" .shared ⟨30, 31⟩],
        .tupleStruct (.relative "B" []) [.bind "x" .shared ⟨35, 36⟩]])
      none (.path (.relative "x" []))])

/-- `fn f(o: i32) -> i32 { match o { MAX => 0, _ => 1 } }`. -/
def constantBody : FnBody where
  generics := []
  ownerSelfTy := none
  params := [(⟨some "o", ⟨5, 11⟩⟩, .int .i32)]
  body := some (.matchExpr (.path (.relative "o" []))
    [.mk (.bind "MAX" .shared ⟨30, 33⟩) none (.node (.literal (.int "0")) []),
      .mk .wildcard none (.node (.literal (.int "1")) [])])

/-- Each alternative gets its own local for `x`, and the constant becomes a binding. -/
theorem eitherBody_not_scoped :
    (¬∃ cx, eitherBody.check exampleNames = some cx ∧
      Scoped exampleNames eitherBody.word cx.occurrences) ∧
    ¬∃ cx, constantBody.check exampleNames = some cx ∧
      Scoped exampleNames constantBody.word cx.occurrences := by
  constructor
  · rintro ⟨cx, hcheck, hscoped⟩
    cases hcheck
    have hmates : Mates eitherBody.word 4 6 :=
      ⟨"x", 0, 1, [.part 1, .part 1, .part 0, .part 0], [.part 0], [.part 0], by decide, rfl, rfl⟩
    cases (hscoped.own 4 6 ⟨1⟩ ⟨2⟩ rfl rfl).mpr (.inr hmates)
  · rintro ⟨cx, hcheck, hscoped⟩
    cases hcheck
    refine (hscoped.binds 3 "MAX" _ rfl).mp ⟨⟨1⟩, rfl⟩ ⟨⟨0⟩, ?_, nofun⟩
    exact List.mem_singleton_self _

end Sage.Check
