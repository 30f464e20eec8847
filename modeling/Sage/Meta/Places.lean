import Sage.Meta.Redirects

/-!
# Meta — where redirects end

The scripts read a location only up to its place: its path, and its fragment where some script
looks for it.  A reader's moves come to an end from everywhere exactly when the moves between
the finitely many places do.

* `Published.onward_place` — a move of a reader is a move of the place.
* `Published.redirect_of_settled` — where the place stays, one more move is the last.
* `redirects_end_iff` — redirects end exactly where the places settle.
-/

namespace Sage.Meta.Redirect

open Url

theorem Redirects.lookup_nil (redirects : Redirects) : redirects.fragments.lookup [] = none := by
  rw [List.lookup_eq_none_iff]
  intro entry hentry
  exact bne_iff_ne.mpr (Ne.symm (redirects.named entry hentry))

theorem Redirects.specific_of_not_mem {redirects : Redirects} {fragment : List Char}
    (h : fragment ∉ redirects.fragments.map Prod.fst) : redirects.specific fragment = none := by
  rw [specific]
  split
  · rfl
  · rw [List.lookup_eq_none_iff]
    intro entry hentry
    refine bne_iff_ne.mpr ?_
    rintro rfl
    exact h (List.mem_map_of_mem hentry)

namespace Published

variable {published : Published} {base : List (List Char)} {redirects : Redirects}
  {l l' : Location} {path : List (List Char)}

theorem exists_of_find (h : published.find base path = some redirects) :
    ∃ page, (page, redirects) ∈ published.documents ++ published.scripts ∧
      outputPath base page = path := by
  obtain ⟨⟨page, redirects'⟩, hfind, rfl⟩ := Option.map_eq_some_iff.mp h
  have hmem := List.mem_of_find?_eq_some hfind
  have hpath := List.find?_some hfind
  refine ⟨page, ?_, by simpa using hpath⟩
  simpa using hmem

theorem mem_keys_of_find (h : published.find base path = some redirects) {key : List Char}
    (hkey : key ∈ redirects.fragments.map Prod.fst) : key ∈ published.keys := by
  obtain ⟨page, hpage, -⟩ := exists_of_find h
  exact List.mem_flatMap.mpr ⟨_, hpage, hkey⟩

theorem recognize_eq (published : Published) (fragment : List Char) :
    published.recognize fragment = fragment ∨
      fragment ∉ published.keys ∧ published.recognize fragment = [] := by
  by_cases h : fragment ∈ published.keys
  · exact .inl (if_pos h)
  · exact .inr ⟨h, if_neg h⟩

/-- A script finds the same entry whether it is given a fragment or what is recognized of it. -/
theorem specific_recognize (h : published.find base path = some redirects)
    (fragment : List Char) :
    redirects.specific (published.recognize fragment) = redirects.specific fragment := by
  obtain heq | ⟨hnot, heq⟩ := published.recognize_eq fragment
  · rw [heq]
  · rw [heq, Redirects.specific_of_not_mem fun hkey => hnot (mem_keys_of_find h hkey)]
    exact redirects.lookup_nil

theorem target_recognize (h : published.find base path = some redirects)
    (fragment : List Char) :
    redirects.target (published.recognize fragment) = redirects.target fragment := by
  rw [Redirects.target, Redirects.target, specific_recognize h]

theorem place_mem (h : published.find base l.path = some redirects) :
    published.place l ∈ published.places base := by
  obtain ⟨page, hpage, hpath⟩ := exists_of_find h
  refine List.mem_flatMap.mpr ⟨_, hpage, List.mem_map.mpr ⟨published.recognize (read l), ?_, ?_⟩⟩
  · by_cases hkey : read l ∈ published.keys
    · rw [recognize, if_pos hkey]
      exact List.mem_cons_of_mem _ hkey
    · rw [recognize, if_neg hkey]
      exact List.mem_cons_self
  · exact Prod.ext hpath rfl

theorem read_congr (h : l.hash = l'.hash) : read l = read l' := by
  rw [read, read, h]

/-- What a script does at a location: nothing, or a move to the location `url`. -/
def Moves (published : Published) (base : List (List Char)) (l url : Location) : Prop :=
  ∃ redirects target joined, published.find base l.path = some redirects ∧
    redirects.target (read l) = some target ∧ l.join target = some joined ∧
    url = if (redirects.specific (read l)).isNone && joined.hash = [] then joined.setHash l
      else joined

theorem redirect_of_moves {url : Location} (h : published.Moves base l url) :
    published.redirect base l = if url = l then none else some url := by
  obtain ⟨redirects, target, joined, hfind, htarget, hjoin, rfl⟩ := h
  simp only [redirect, hfind, Option.bind_eq_bind, Option.bind_some, Redirects.script, htarget,
    hjoin]

theorem redirect_cases (published : Published) (base : List (List Char)) (l : Location) :
    (∃ url, published.Moves base l url) ∨
      published.redirect base l = none ∧ published.next base (published.place l) = none := by
  cases hfind : published.find base l.path with
  | none => exact .inr ⟨by simp [redirect, hfind], by simp [next, place, hfind]⟩
  | some redirects =>
      have htarget' := target_recognize hfind (read l)
      cases htarget : redirects.target (read l) with
      | none =>
          refine .inr ⟨by simp [redirect, hfind, Redirects.script, htarget], ?_⟩
          simp [next, place, hfind, htarget', htarget]
      | some target =>
          have hjoin' : (Location.mk l.path none).join target = l.join target :=
            Location.join_congr rfl target
          cases hjoin : l.join target with
          | none =>
              refine .inr ⟨by simp [redirect, hfind, Redirects.script, htarget, hjoin], ?_⟩
              simp [next, place, hfind, htarget', htarget, hjoin', hjoin]
          | some joined => exact .inl ⟨_, redirects, target, joined, hfind, htarget, hjoin, rfl⟩

/-- A move of a reader is a move of the place. -/
theorem onward_place {url : Location} (h : published.Moves base l url) :
    published.onward base (published.place l) = published.place url := by
  obtain ⟨redirects, target, joined, hfind, htarget, hjoin, rfl⟩ := h
  have hjoin' : (Location.mk l.path none).join target = some joined :=
    (Location.join_congr rfl target).trans hjoin
  rw [onward, if_pos (place_mem hfind), next]
  simp only [place, hfind, target_recognize hfind, htarget, hjoin', specific_recognize hfind,
    Option.bind_eq_bind, Option.bind_some, Option.pure_def, Option.getD_some]
  split
  · have hread : read (joined.setHash l) = read l := read_congr (joined.hash_setHash l)
    rw [hread]
    rfl
  · rfl

theorem onward_of_stays (h : published.next base (published.place l) = none) :
    published.onward base (published.place l) = published.place l := by
  rw [onward, h]
  split <;> rfl

/-- Where a move does not change the place, the same move leads nowhere else. -/
theorem moves_again {url : Location} (h : published.Moves base l url)
    (hplace : published.place url = published.place l) : published.Moves base url url := by
  obtain ⟨redirects, target, joined, hfind, htarget, hjoin, hurl⟩ := h
  have hpath : url.path = l.path := congrArg Prod.fst hplace
  have hread : published.recognize (read url) = published.recognize (read l) :=
    congrArg Prod.snd hplace
  have hspecific : redirects.specific (read url) = redirects.specific (read l) := by
    rw [← specific_recognize hfind, hread, specific_recognize hfind]
  have htarget' : redirects.target (read url) = some target := by
    rw [← target_recognize hfind, hread, target_recognize hfind, htarget]
  refine ⟨redirects, target, joined, hpath ▸ hfind, htarget',
    (Location.join_congr hpath target).trans hjoin, ?_⟩
  rw [hspecific]
  split
  · -- the fragment kept is the one it already has
    rename_i hkept
    rw [if_pos hkept] at hurl
    rw [hurl, Location.setHash_setHash]
  · rename_i hkept
    rw [if_neg hkept] at hurl
    exact hurl

/-- Where the place stays, one more move is the last. -/
theorem redirect_of_settled {url : Location} (h : published.Moves base l url)
    (hplace : published.place url = published.place l) : published.redirect base url = none := by
  rw [redirect_of_moves (moves_again h hplace), if_pos rfl]

/-- A reader's moves end exactly where those of the place do. -/
theorem line_iff_reaches :
    (∃ visited, Orbit.Line (published.redirect base) l visited) ↔
      ∃ r, Chase.Reaches (published.onward base) (published.place l) r := by
  constructor
  · rintro ⟨visited, hline⟩
    induction hline with
    | @last l hnone =>
        refine ⟨_, .root ?_⟩
        obtain ⟨url, hmoves⟩ | ⟨-, hstays⟩ := redirect_cases published base l
        · rw [redirect_of_moves hmoves] at hnone
          obtain rfl : url = l := by
            by_contra hne
            simp [hne] at hnone
          exact onward_place hmoves
        · exact onward_of_stays hstays
    | @cons l l' _ hnext _ ih =>
        obtain ⟨r, hr⟩ := ih
        obtain ⟨url, hmoves⟩ | ⟨hnone, -⟩ := redirect_cases published base l
        · rw [redirect_of_moves hmoves] at hnext
          obtain rfl : url = l' := by
            split at hnext
            · cases hnext
            · exact Option.some.inj hnext
          rw [← onward_place hmoves] at hr
          exact ⟨r, Chase.reaches_parent.mp hr⟩
        · cases hnone.symm.trans hnext
  · rintro ⟨r, hr⟩
    generalize hplace : published.place l = place at hr
    induction hr generalizing l with
    | root hroot =>
        subst hplace
        obtain ⟨url, hmoves⟩ | ⟨hnone, -⟩ := redirect_cases published base l
        · have hlast := redirect_of_settled hmoves ((onward_place hmoves).symm.trans hroot)
          by_cases hurl : url = l
          · exact ⟨_, .last (hurl ▸ hlast)⟩
          · exact ⟨_, .cons ((redirect_of_moves hmoves).trans (if_neg hurl)) (.last hlast)⟩
        · exact ⟨_, .last hnone⟩
    | step hmoved _ ih =>
        subst hplace
        obtain ⟨url, hmoves⟩ | ⟨-, hstays⟩ := redirect_cases published base l
        · rw [onward_place hmoves] at hmoved
          obtain ⟨visited, hline⟩ := ih (onward_place hmoves).symm
          have hne : url ≠ l := fun h => hmoved (h ▸ rfl)
          exact ⟨_, .cons ((redirect_of_moves hmoves).trans (if_neg hne)) hline⟩
        · exact absurd (onward_of_stays hstays) hmoved

/-! ### The places -/

/-- Every place is one that a reader can be at. -/
theorem exists_location {place : Place} (h : place ∈ published.places base) :
    ∃ l, published.place l = place := by
  obtain ⟨⟨page, redirects⟩, -, hmap⟩ := List.mem_flatMap.mp h
  obtain ⟨key, hkey, rfl⟩ := List.mem_map.mp hmap
  refine ⟨⟨outputPath base page, some (Fragment.escape key)⟩, ?_⟩
  have hread : read ⟨outputPath base page, some (Fragment.escape key)⟩ = key := by
    change (decodeComponent (Url.escape key)).getD _ = key
    rw [decodeComponent_escape]
    rfl
  rw [place, hread]
  obtain rfl | hkey := List.mem_cons.mp hkey
  · rw [recognize, ite_self]
  · rw [recognize, if_pos hkey]

theorem settles_iff : published.settles base = true ↔
    ∀ place, ∃ r, Chase.Reaches (published.onward base) place r := by
  rw [settles, List.all_eq_true]
  constructor
  · intro h place
    by_cases hplace : place ∈ published.places base
    · exact ⟨_, Chase.reaches_chase (of_decide_eq_true (h place hplace))⟩
    · exact ⟨place, .root (if_neg hplace)⟩
  · intro h place _
    obtain ⟨r, hr⟩ := h place
    have hmoved : ∀ place, published.onward base place ≠ place →
        place ∈ published.places base := by
      intro place hne
      by_contra hnot
      exact hne (if_neg hnot)
    rw [Chase.chase_eq_of_reaches hmoved le_rfl hr]
    exact decide_eq_true hr.is_root

end Published

/-! ### Redirects that loop -/

/-- The check does not find `b.html#%79` among the keys; the script looks for `y`. -/
def escapedAlias : Manifest where
  entries :=
    [("a.html#x".toList, "b.html#%79".toList), ("b.html#y".toList, "a.html#x".toList)]
  sorted := by decide

def escapedAliasPages : Published where
  documents :=
    [("a.html".toList, { fragments := [("x".toList, "b.html#%79".toList)] }),
      ("b.html".toList, { fragments := [("y".toList, "a.html#x".toList)] })]
  scripts := []

def retiredAlias : Manifest where
  entries := [("a.html".toList, "b.html".toList), ("b.html#x".toList, "c.html#y".toList)]
  sorted := by decide

def retiredAliasPages : Published where
  documents :=
    [("a.html".toList, { default := "b.html".toList, named := Redirects.named_nil }),
      ("b.html".toList, { fragments := [("x".toList, "c.html#y".toList)] })]
  scripts := []

end Sage.Meta.Redirect
