import Mathlib.Data.List.Infix
import Mathlib.Logic.Relation
import Mathlib.Data.List.Nodup

/-!
# Library — discovery in depth

A walk of a graph that enters each point once, and lists the points in the order in which it comes
upon them.  What a point leads to is a list; points may be shared and lie on cycles.

* `visitAll`, `enter` — the walk, with fuel for its depth.
* `visitAll_ends` — fuel for the points that lead anywhere is enough.
* `visitAll_spec` — what is listed is what can be reached, without repetition.
* `discover_map` — a renaming of the points renames the list.
-/

namespace Sage.Library.Discovery

variable {H K : Type} [DecidableEq H] [DecidableEq K]

/-- Enter the points of a list that are not found yet. -/
def visitAll (enter : H → List H → Option (List H)) : List H → List H → Option (List H)
  | [], found => some found
  | h :: hs, found =>
      if h ∈ found then visitAll enter hs found else (enter h found).bind (visitAll enter hs)

def enter (next : H → List H) : Nat → H → List H → Option (List H)
  | 0, _, _ => none
  | depth + 1, h, found => visitAll (enter next depth) (next h) (found ++ [h])

variable {next : H → List H} {depth : Nat} {h : H} {hs found found' : List H}

/-! ### What a walk finds -/

/-- A walk from some points: it adds to the list what these lead to, each once, and with a point all
that it leads to. -/
structure Finds (next : H → List H) (hs found found' : List H) : Prop where
  grows : found <+: found'
  starts : ∀ h ∈ hs, h ∈ found'
  closed : ∀ h ∈ found', h ∉ found → ∀ k ∈ next h, k ∈ found'
  reached : ∀ k ∈ found', k ∉ found →
    ∃ h ∈ hs, Relation.ReflTransGen (fun h k => k ∈ next h) h k
  nodup : found.Nodup → found'.Nodup

omit [DecidableEq H] in
theorem Finds.nil : Finds next [] found found :=
  ⟨List.prefix_refl _, nofun, fun _ h h' => absurd h h', fun _ h h' => absurd h h', id⟩

theorem Finds.cons {found'' : List H} (hfirst : Finds next [h] found found')
    (hrest : Finds next hs found' found'') : Finds next (h :: hs) found found'' where
  grows := hfirst.grows.trans hrest.grows
  starts k hk := by
    obtain rfl | hk := List.mem_cons.mp hk
    · exact hrest.grows.subset (hfirst.starts k (List.mem_singleton_self k))
    · exact hrest.starts k hk
  closed k hk hnew l hl := by
    by_cases hfound : k ∈ found'
    · exact hrest.grows.subset (hfirst.closed k hfound hnew l hl)
    · exact hrest.closed k hk hfound l hl
  reached k hk hnew := by
    by_cases hfound : k ∈ found'
    · obtain ⟨l, hl, hreached⟩ := hfirst.reached k hfound hnew
      rw [List.mem_singleton.mp hl] at hreached
      exact ⟨h, List.mem_cons_self .., hreached⟩
    · obtain ⟨l, hl, hreached⟩ := hrest.reached k hk hfound
      exact ⟨l, List.mem_cons_of_mem h hl, hreached⟩
  nodup hnodup := hrest.nodup (hfirst.nodup hnodup)

omit [DecidableEq H] in
/-- A point that is found already. -/
theorem Finds.of_mem (h' : h ∈ found) : Finds next [h] found found :=
  ⟨List.prefix_refl _, fun _ hk => List.mem_singleton.mp hk ▸ h', fun _ hk hk' => absurd hk hk',
    fun _ hk hk' => absurd hk hk', id⟩

/-- A point that is new, with what it leads to. -/
theorem Finds.enter (hnew : h ∉ found) (hnext : Finds next (next h) (found ++ [h]) found') :
    Finds next [h] found found' where
  grows := (List.prefix_append found [h]).trans hnext.grows
  starts k hk := hnext.grows.subset (List.mem_append_right _ hk)
  closed k hk hk' l hl := by
    by_cases hkh : k = h
    · exact hnext.starts l (hkh ▸ hl)
    · exact hnext.closed k hk (by simp [hk', hkh]) l hl
  reached k hk hk' := by
    refine ⟨h, List.mem_singleton_self h, ?_⟩
    by_cases hkh : k = h
    · rw [hkh]
    · obtain ⟨l, hl, hreached⟩ := hnext.reached k hk (by simp [hk', hkh])
      exact .head hl hreached
  nodup hnodup := hnext.nodup (List.nodup_append.mpr ⟨hnodup, List.nodup_singleton h, by
    rintro k hk l hl rfl
    exact hnew (List.mem_singleton.mp hl ▸ hk)⟩)

theorem visitAll_finds {enter' : H → List H → Option (List H)}
    (henter : ∀ h found found', h ∉ found → enter' h found = some found' →
      Finds next [h] found found') :
    ∀ {hs found found' : List H}, visitAll enter' hs found = some found' →
    Finds next hs found found'
  | [], _, _, hvisit => by
      cases hvisit
      exact .nil
  | h :: hs, found, found', hvisit => by
      rw [visitAll] at hvisit
      split at hvisit
      · next hmem => exact .cons (.of_mem hmem) (visitAll_finds henter hvisit)
      · next hnew =>
        obtain ⟨found₁, hfirst, hrest⟩ := Option.bind_eq_some_iff.mp hvisit
        exact .cons (henter h found found₁ hnew hfirst) (visitAll_finds henter hrest)

theorem enter_finds : ∀ {depth : Nat} {h : H} {found found' : List H}, h ∉ found →
    enter next depth h found = some found' → Finds next [h] found found'
  | 0, _, _, _, _, henter => by cases henter
  | depth + 1, h, found, found', hnew, henter =>
      .enter hnew (visitAll_finds (fun _ _ _ => enter_finds) henter)

theorem visitAll_spec (hvisit : visitAll (enter next depth) hs found = some found') :
    Finds next hs found found' :=
  visitAll_finds (fun _ _ _ => enter_finds) hvisit

omit [DecidableEq H] in
/-- From nothing, a walk finds exactly what can be reached. -/
theorem Finds.mem_iff (hfinds : Finds next hs [] found) {k : H} :
    k ∈ found ↔ ∃ h ∈ hs, Relation.ReflTransGen (fun h k => k ∈ next h) h k := by
  constructor
  · exact fun hk => hfinds.reached k hk List.not_mem_nil
  · rintro ⟨h, hh, hreached⟩
    induction hreached with
    | refl => exact hfinds.starts h hh
    | tail _ hl ih => exact hfinds.closed _ ih List.not_mem_nil _ hl

/-! ### Walks that end -/

/-- The points that lead somewhere and are still to be found. -/
def left (points found : List H) : List H := points.filter (· ∉ found)

theorem left_length_le (points : List H) (hgrows : found <+: found') :
    (left points found').length ≤ (left points found).length := by
  refine (List.Sublist.length_le (List.monotone_filter_right points fun h hh => ?_))
  simp only [decide_eq_true_eq] at hh ⊢
  exact fun hmem => hh (hgrows.subset hmem)

theorem left_length_lt {points : List H} (hh : h ∈ points) (hnew : h ∉ found) :
    (left points (found ++ [h])).length < (left points found).length := by
  have hsplit : left points (found ++ [h]) = (left points found).filter (· ≠ h) := by
    rw [left, left, List.filter_filter]
    refine List.filter_congr fun k _ => ?_
    simp [and_comm]
  rw [hsplit, List.length_filter_lt_length_iff_exists]
  exact ⟨h, List.mem_filter.mpr ⟨hh, by simpa using hnew⟩, by simp⟩

theorem visitAll_isSome {enter' : H → List H → Option (List H)} :
    ∀ {hs found : List H}, (∀ h ∈ hs, ∀ found', found <+: found' → h ∉ found' →
      ∃ found'', enter' h found' = some found'' ∧ found' <+: found'') →
    ∃ found', visitAll enter' hs found = some found'
  | [], found, _ => ⟨found, rfl⟩
  | h :: hs, found, henter => by
      rw [visitAll]
      split
      · exact visitAll_isSome fun k hk => henter k (List.mem_cons_of_mem h hk)
      · next hnew =>
        obtain ⟨found₁, hfirst, hgrows⟩ :=
          henter h (List.mem_cons_self ..) found (List.prefix_refl _) hnew
        rw [hfirst, Option.bind_some]
        exact visitAll_isSome fun k hk found' hfound' =>
          henter k (List.mem_cons_of_mem h hk) found' (hgrows.trans hfound')

/-- A point that leads nowhere is entered at once, and the others are fewer and fewer. -/
theorem enter_isSome {points : List H} (hpoints : ∀ h, next h ≠ [] → h ∈ points) :
    ∀ {depth : Nat} {h : H} {found : List H}, h ∉ found → (left points found).length < depth →
    ∃ found', enter next depth h found = some found'
  | 0, _, _, _, hlt => absurd hlt (Nat.not_lt_zero _)
  | depth + 1, h, found, hnew, hlt => by
      rw [enter]
      refine visitAll_isSome fun k hk found' hgrows hnew' => ?_
      have hmem : h ∈ points := hpoints h (List.ne_nil_of_mem hk)
      have hless := left_length_lt hmem hnew
      have hle := left_length_le points hgrows
      obtain ⟨found'', hfound''⟩ := enter_isSome hpoints hnew' (show _ < depth by omega)
      exact ⟨found'', hfound'', (enter_finds hnew' hfound'').grows⟩

theorem visitAll_ends {points : List H} (hpoints : ∀ h, next h ≠ [] → h ∈ points)
    (hdepth : points.length < depth) (hs : List H) :
    ∃ found, visitAll (enter next depth) hs [] = some found := by
  refine visitAll_isSome fun h _ found _ hnew => ?_
  have hle : (left points found).length ≤ points.length := List.length_filter_le ..
  obtain ⟨found', hfound'⟩ := enter_isSome hpoints hnew (Nat.lt_of_le_of_lt hle hdepth)
  exact ⟨found', hfound', (enter_finds hnew hfound').grows⟩

theorem visitAll_mono {enter' enter'' : H → List H → Option (List H)}
    (h : ∀ h found found', enter' h found = some found' → enter'' h found = some found') :
    ∀ {hs found found' : List H}, visitAll enter' hs found = some found' →
    visitAll enter'' hs found = some found'
  | [], _, _, hvisit => hvisit
  | k :: hs, found, found', hvisit => by
      rw [visitAll] at hvisit ⊢
      split at hvisit
      · next hmem =>
        rw [if_pos hmem]
        exact visitAll_mono h hvisit
      · next hnew =>
        obtain ⟨found₁, hfirst, hrest⟩ := Option.bind_eq_some_iff.mp hvisit
        rw [if_neg hnew, h k found found₁ hfirst]
        exact visitAll_mono h hrest

/-- More fuel changes nothing. -/
theorem enter_mono : ∀ {depth depth' : Nat}, depth ≤ depth' → ∀ {h : H} {found found' : List H},
    enter next depth h found = some found' → enter next depth' h found = some found'
  | 0, _, _, _, _, _, henter => by cases henter
  | _ + 1, 0, hle, _, _, _, _ => absurd hle (Nat.not_succ_le_zero _)
  | _ + 1, _ + 1, hle, _, _, _, henter =>
      visitAll_mono (fun _ _ _ => enter_mono (Nat.le_of_succ_le_succ hle)) henter

theorem discover_mono {depth' : Nat} (hle : depth ≤ depth')
    (hvisit : visitAll (enter next depth) hs found = some found') :
    visitAll (enter next depth') hs found = some found' :=
  visitAll_mono (fun _ _ _ => enter_mono hle) hvisit

/-! ### Renaming -/

section Renaming

variable {next' : K → List K} {f : H → K} {R : H → Prop}

/-- A renaming that keeps points apart, and carries what they lead to. -/
structure Renames (next : H → List H) (next' : K → List K) (f : H → K) (R : H → Prop) : Prop where
  injOn : ∀ h k, R h → R k → f h = f k → h = k
  leads : ∀ h, R h → next' (f h) = (next h).map f
  closed : ∀ h, R h → ∀ k ∈ next h, R k

omit [DecidableEq H] [DecidableEq K] in
theorem Renames.mem_map (hf : Renames next next' f R) (hfound : ∀ k ∈ found, R k) (hh : R h) :
    f h ∈ found.map f ↔ h ∈ found := by
  rw [List.mem_map]
  constructor
  · rintro ⟨k, hk, hkh⟩
    exact hf.injOn k h (hfound k hk) hh hkh ▸ hk
  · exact fun hmem => ⟨h, hmem, rfl⟩

/-- Both walks enter the same points, and find points of `R` again. -/
def Matches (f : H → K) (R : H → Prop) (result : Option (List H)) (result' : Option (List K)) :
    Prop :=
  result' = result.map (·.map f) ∧ ∀ found ∈ result, ∀ k ∈ found, R k

theorem visitAll_map (hf : Renames next next' f R) {enter' : H → List H → Option (List H)}
    {enter'' : K → List K → Option (List K)}
    (henter : ∀ h found, R h → (∀ k ∈ found, R k) →
      Matches f R (enter' h found) (enter'' (f h) (found.map f))) :
    ∀ {hs found : List H}, (∀ h ∈ hs, R h) → (∀ k ∈ found, R k) →
    Matches f R (visitAll enter' hs found) (visitAll enter'' (hs.map f) (found.map f))
  | [], found, _, hfound => ⟨rfl, fun _ h => by cases h; exact hfound⟩
  | h :: hs, found, hhs, hfound => by
      have hh := hhs h (List.mem_cons_self ..)
      have hrest : ∀ k ∈ hs, R k := fun k hk => hhs k (List.mem_cons_of_mem h hk)
      rw [List.map_cons, visitAll, visitAll]
      by_cases hmem : h ∈ found
      · rw [if_pos hmem, if_pos ((hf.mem_map hfound hh).mpr hmem)]
        exact visitAll_map hf henter hrest hfound
      · rw [if_neg hmem, if_neg (mt (hf.mem_map hfound hh).mp hmem)]
        obtain ⟨heq, hmatches⟩ := henter h found hh hfound
        rw [heq]
        cases hfirst : enter' h found with
        | none => exact ⟨rfl, nofun⟩
        | some found₁ =>
            rw [hfirst] at hmatches
            exact visitAll_map hf henter hrest (hmatches found₁ rfl)

theorem enter_map (hf : Renames next next' f R) : ∀ {depth : Nat} {h : H} {found : List H}, R h →
    (∀ k ∈ found, R k) →
    Matches f R (enter next depth h found) (enter next' depth (f h) (found.map f))
  | 0, _, _, _, _ => ⟨rfl, nofun⟩
  | depth + 1, h, found, hh, hfound => by
      have hmap : found.map f ++ [f h] = (found ++ [h]).map f := by
        rw [List.map_append, List.map_singleton]
      rw [enter, enter, hf.leads h hh, hmap]
      refine visitAll_map hf (fun _ _ => enter_map hf) (hf.closed h hh) fun k hk => ?_
      obtain hk | hk := List.mem_append.mp hk
      · exact hfound k hk
      · exact List.mem_singleton.mp hk ▸ hh

/-- The list of a renamed graph is the renamed list. -/
theorem discover_map (hf : Renames next next' f R) (hhs : ∀ h ∈ hs, R h) :
    visitAll (enter next' depth) (hs.map f) [] =
      (visitAll (enter next depth) hs []).map (·.map f) :=
  (visitAll_map hf (fun _ _ => enter_map hf) hhs fun _ hk => absurd hk List.not_mem_nil).1

end Renaming

end Sage.Library.Discovery
