import Mathlib.Data.List.Sort
import Mathlib.Data.Char
import Mathlib.Data.List.Lex
import Sage.Library.Chase
import Sage.Library.Orbit
import Sage.Library.SortedMap
import Sage.Library.Url

/-!
# Meta — redirects of published pages

A manifest names, for retired pages and retired fragments of pages, where they went.  It is
checked for cycles, and a script goes on each page it names.

* `apply` — the checks, and the pages with their scripts.
* `Redirects.script` — one move of a reader's browser.
* `Published.onward` — the moves between the places the scripts tell apart.
-/

namespace Sage.Meta

open Url

namespace Redirect

/-- The redirects of one page. -/
structure Redirects where
  default : Option (List Char) := none
  fragments : List (List Char × List Char) := []
  named : ∀ entry ∈ fragments, entry.1 ≠ [] := by simp

theorem Redirects.named_nil :
    ∀ entry ∈ ([] : List (List Char × List Char)), entry.1 ≠ [] := by simp

structure Manifest where
  entries : List (List Char × List Char)
  sorted : entries.Pairwise (·.1 < ·.1)

def Manifest.get (manifest : Manifest) (url : List Char) : Option (List Char) :=
  manifest.entries.lookup url

def splitUrl (url : List Char) : List Char × Option (List Char) := splitOnce '#' url

/-- A leading `.` is a component of its own; one further on is no component. -/
def hasOtherComponent (path : List Char) : Bool :=
  (splitAll '/' path).head? == some ['.'] || (splitAll '/' path).any (· == ['.', '.'])

def validatePath (path : List Char) : Except String Unit :=
  if path.isEmpty || !".html".toList.isSuffixOf path ||
      path.any (fun c => c == '\\' || c == ':' || c == '?' || c == '%') ||
      path.head? == some '/' || hasOtherComponent path ||
      (splitAll '/' path).any (·.isEmpty) then
    .error ("redirect path must be a relative .html path without traversal: `" ++
      String.ofList path ++ "`")
  else .ok ()

def relativeUrl (from_ to_ : List Char) : List Char :=
  let from_ := (splitAll '/' from_).dropLast
  let to_ := splitAll '/' to_
  let shared := ((from_.zip to_).takeWhile fun (a, b) => a = b).length
  ['/'].intercalate (List.replicate (from_.length - shared) "..".toList ++ to_.drop shared)

/-- The page that a chapter is rendered to. -/
def chapterUrl (file : List Char) : List Char :=
  let segments := splitAll '/' file
  let name := segments.getLastD []
  let stem :=
    -- a leading dot begins no extension
    match (name.reverse.dropWhile (· ≠ '.')).tail.reverse with
    | [] => name
    | stem => stem
  let name := if name = "README.md".toList then "index.html".toList else stem ++ ".html".toList
  (['/'].intercalate (segments.dropLast ++ [name])).map fun c => if c = '\\' then '/' else c

/-! ### Reading the manifest -/

/-- Change the redirects of a page. -/
def upsert (page : List Char) (f : Redirects → Redirects)
    (pages : List (List Char × Redirects)) : List (List Char × Redirects) :=
  SortedMap.upsert page (fun redirects => f (redirects.getD {})) pages

def Redirects.insert (redirects : Redirects) (fragment relative : List Char)
    (h : fragment ≠ []) : Redirects :=
  { redirects with
    fragments := (fragment, relative) :: redirects.fragments.filter (·.1 ≠ fragment)
    named := by
      intro entry hentry
      obtain rfl | hentry := List.mem_cons.mp hentry
      · exact h
      · exact redirects.named entry (List.mem_filter.mp hentry).1 }

def Redirects.setDefault (redirects : Redirects) (target : Option (List Char)) : Redirects :=
  { redirects with default := target }

def record (pages : List (List Char × Redirects)) (entry : List Char × List Char) :
    Except String (List (List Char × Redirects)) := do
  let (from_, to_) := entry
  let (page, fragment) := splitUrl from_
  validatePath page
  validatePath (splitUrl to_).1
  let relative := relativeUrl page to_
  match fragment with
  | some [] => throw ("empty redirect fragment in `" ++ String.ofList from_ ++ "`")
  | some (c :: fragment) =>
      return upsert page (·.insert (c :: fragment) relative (List.cons_ne_nil c fragment)) pages
  | none => return upsert page (·.setDefault (some relative)) pages

/-! ### The cycle check -/

/-- Default moves preserve unrecognized fragments, so those of every alias are checked. -/
def Manifest.fragments (manifest : Manifest) : List (List Char) :=
  let urls := manifest.entries.map Prod.fst ++ manifest.entries.map Prod.snd
  ([] :: urls.filterMap fun url => (splitUrl url).2).insertionSort (· ≤ ·)

def Manifest.specific (manifest : Manifest) (next : List Char) : Option (List Char) :=
  if (splitUrl next).2.isSome then manifest.get next else none

/-- Where the manifest sends a location, as the check reads it. -/
def Manifest.follow (manifest : Manifest) (active : List Char → Bool) (next : List Char) :
    Option (List Char) :=
  let (path, fragment) := splitUrl next
  let specific := manifest.specific next
  let target := specific <|> if active path then none else manifest.get path
  target.map fun target =>
    if specific.isNone && ((splitUrl target).2.getD []).isEmpty then
      match fragment with
      | some fragment => (splitUrl target).1 ++ '#' :: fragment
      | none => target
    else target

/-- The first location that is met twice. -/
def Manifest.cycle (manifest : Manifest) (active : List Char → Bool) :
    Nat → List (List Char) → List Char → Option (List Char)
  | 0, _, _ => none
  | fuel + 1, seen, next =>
      if next ∈ seen then some next
      else match manifest.follow active next with
        | none => none
        | some target => manifest.cycle active fuel (next :: seen) target

/-- More locations than one start can lead to. -/
def Manifest.bound (manifest : Manifest) : Nat :=
  manifest.entries.length * (manifest.fragments.length + 1) + 2

def Manifest.checkCycles (manifest : Manifest) (active : List Char → Bool)
    (pages : List (List Char)) : Except String Unit :=
  pages.forM fun page => manifest.fragments.forM fun fragment =>
    let start := if fragment.isEmpty then page else page ++ '#' :: fragment
    match manifest.cycle active manifest.bound [] start with
    | some next => throw ("redirect cycle involving `" ++ String.ofList next ++ "`")
    | none => return ()

/-- What a start can lead to. -/
def Manifest.locations (manifest : Manifest) (start : List Char) : List (List Char) :=
  start :: (manifest.entries.map Prod.snd).flatMap fun target =>
    target :: manifest.fragments.map fun fragment => (splitUrl target).1 ++ '#' :: fragment

theorem Manifest.length_locations (manifest : Manifest) (start : List Char) :
    (manifest.locations start).length < manifest.bound := by
  have hsum (values : List (List Char)) : (values.flatMap fun target => target ::
      manifest.fragments.map fun fragment => (splitUrl target).1 ++ '#' :: fragment).length =
      values.length * (manifest.fragments.length + 1) := by
    induction values with
    | nil => simp
    | cons value values ih =>
        rw [List.flatMap_cons, List.length_append, ih, List.length_cons, List.length_map,
          List.length_cons, Nat.succ_mul, Nat.add_comm]
  rw [locations, bound, List.length_cons, hsum, List.length_map]
  exact Nat.lt_succ_self _

theorem Manifest.mem_fragments {manifest : Manifest} {url fragment : List Char}
    (hurl : url ∈ manifest.entries.map Prod.fst ++ manifest.entries.map Prod.snd)
    (h : (splitUrl url).2 = some fragment) : fragment ∈ manifest.fragments := by
  rw [fragments, List.mem_insertionSort]
  exact List.mem_cons_of_mem _ (List.mem_filterMap.mpr ⟨url, hurl, h⟩)

/-- The check stays within the locations a start can lead to. -/
structure Manifest.Within (manifest : Manifest) (start next : List Char) : Prop where
  mem : next ∈ manifest.locations start
  fragment : ∀ fragment, (splitUrl next).2 = some fragment → fragment ∈ manifest.fragments

/-- The check moves to a target, with or without the fragment it had. -/
theorem Manifest.follow_cases {manifest : Manifest} {active : List Char → Bool}
    {next target : List Char} (h : manifest.follow active next = some target) :
    ∃ value ∈ manifest.entries.map Prod.snd, target = value ∨
      ∃ fragment, (splitUrl next).2 = some fragment ∧
        target = (splitUrl value).1 ++ '#' :: fragment := by
  have hget {url value : List Char} (hvalue : manifest.get url = some value) :
      value ∈ manifest.entries.map Prod.snd := by
    obtain ⟨before, after, hentries, -⟩ := List.lookup_eq_some_iff.mp hvalue
    simp [hentries]
  simp only [follow, Option.map_eq_some_iff] at h
  obtain ⟨value, hvalue, htarget⟩ := h
  refine ⟨value, ?_, ?_⟩
  · simp only [Option.orElse_eq_orElse, Option.orElse_eq_or, Option.or_eq_some_iff] at hvalue
    obtain hvalue | ⟨-, hvalue⟩ := hvalue
    · by_cases hfragment : (splitUrl next).2.isSome
      · rw [specific, if_pos hfragment] at hvalue
        exact hget hvalue
      · rw [specific, if_neg hfragment] at hvalue
        cases hvalue
    · by_cases hactive : active (splitUrl next).1
      · rw [if_pos hactive] at hvalue
        cases hvalue
      · rw [if_neg hactive] at hvalue
        exact hget hvalue
  · by_cases hkept : (manifest.specific next).isNone && ((splitUrl value).2.getD []).isEmpty
    · rw [if_pos hkept] at htarget
      cases hfragment : (splitUrl next).2 with
      | none =>
          rw [hfragment] at htarget
          exact .inl htarget.symm
      | some fragment =>
          rw [hfragment] at htarget
          exact .inr ⟨fragment, rfl, htarget.symm⟩
    · rw [if_neg hkept] at htarget
      exact .inl htarget.symm

theorem Manifest.Within.follow {manifest : Manifest} {active : List Char → Bool}
    {start next target : List Char} (h : manifest.Within start next)
    (hfollow : manifest.follow active next = some target) : manifest.Within start target := by
  obtain ⟨value, hmem, rfl | ⟨fragment, hfragment, rfl⟩⟩ := Manifest.follow_cases hfollow
  · exact
      { mem := List.mem_cons_of_mem _ (List.mem_flatMap.mpr ⟨_, hmem, List.mem_cons_self⟩)
        fragment := fun _ => mem_fragments (List.mem_append_right _ hmem) }
  · have hsplit : splitUrl ((splitUrl value).1 ++ '#' :: fragment) =
        ((splitUrl value).1, some fragment) := splitOnce_append (splitOnce_fst _ _) _
    have hkept := h.fragment fragment hfragment
    exact
      { mem := List.mem_cons_of_mem _ (List.mem_flatMap.mpr
          ⟨value, hmem, List.mem_cons_of_mem _ (List.mem_map_of_mem hkept)⟩)
        fragment := by
          intro other hother
          rw [hsplit] at hother
          exact Option.some.inj hother ▸ hkept }

/-- With more fuel the check finds no other cycle. -/
theorem Manifest.cycle_add {manifest : Manifest} {active : List Char → Bool} {fuel : Nat}
    {seen : List (List Char)} {start next : List Char} (hseen : seen.Nodup)
    (hwithin : ∀ url ∈ seen, manifest.Within start url) (hnext : manifest.Within start next)
    (hfuel : (manifest.locations start).length < seen.length + fuel) (more : Nat) :
    manifest.cycle active (fuel + more) seen next = manifest.cycle active fuel seen next := by
  induction fuel generalizing seen next with
  | zero =>
      have hlength := (hseen.subperm fun url hurl => (hwithin url hurl).mem).length_le
      omega
  | succ fuel ih =>
      rw [Nat.add_right_comm, cycle, cycle]
      by_cases hagain : next ∈ seen
      · rw [if_pos hagain, if_pos hagain]
      · rw [if_neg hagain, if_neg hagain]
        cases hfollow : manifest.follow active next with
        | none => rfl
        | some target =>
            refine ih (List.nodup_cons.mpr ⟨hagain, hseen⟩) ?_ (hnext.follow hfollow) ?_
            · exact List.forall_mem_cons.mpr ⟨hnext, hwithin⟩
            · rw [List.length_cons]
              omega

/-- The bound is enough for every start that is checked. -/
theorem Manifest.cycle_bound {manifest : Manifest} {active : List Char → Bool}
    {from_ fragment : List Char} (hfragment : fragment ∈ manifest.fragments) (more : Nat) :
    let page := (splitUrl from_).1
    let start := if fragment.isEmpty then page else page ++ '#' :: fragment
    manifest.cycle active (manifest.bound + more) [] start =
      manifest.cycle active manifest.bound [] start := by
  intro page start
  refine @cycle_add manifest active _ [] start start List.nodup_nil (List.forall_mem_nil _)
    ?_ ?_ more
  · refine { mem := List.mem_cons_self, fragment := fun other hother => ?_ }
    have hpage : '#' ∉ page := splitOnce_fst _ _
    by_cases hempty : fragment.isEmpty
    · have hnone : (splitUrl page).2 = none := by
        rw [splitUrl, splitOnce, List.dropWhile_eq_nil_iff.mpr]
        intro c hc
        exact decide_eq_true fun heq => hpage (heq ▸ hc)
      rw [show start = page from if_pos hempty, hnone] at hother
      cases hother
    · rw [show start = page ++ '#' :: fragment from if_neg hempty, splitUrl,
        splitOnce_append hpage] at hother
      exact Option.some.inj hother ▸ hfragment
  · rw [List.length_nil, Nat.zero_add]
    exact manifest.length_locations start

/-! ### What is published -/

/-- What stands where the document of a retired page goes. -/
inductive Output where
  | free
  | symlink (ancestor : String)
  | handwritten (path : String)

structure Published where
  /-- The documents of retired pages, in the order they are written. -/
  documents : List (List Char × Redirects)
  /-- The scripts appended to current chapters. -/
  scripts : List (List Char × Redirects)

def publish (output : List Char → Output) (active : List Char → Bool) :
    List (List Char × Redirects) → Except String Published
  | [] => return { documents := [], scripts := [] }
  | (page, redirects) :: pages => do
      if active page then
        let published ← publish output active pages
        -- a current chapter remains readable
        if redirects.fragments.isEmpty then return published
        return { published with
          scripts := (page, redirects.setDefault none) :: published.scripts }
      match output page with
      | .symlink ancestor => throw ("redirect output follows a symlink: " ++ ancestor)
      | .handwritten path =>
          throw ("refusing to overwrite handwritten redirect output " ++ path)
      | .free =>
          let published ← publish output active pages
          return { published with documents := (page, redirects) :: published.documents }

def apply (output : List Char → Output) (chapters : List (List Char)) (manifest : Manifest) :
    Except String Published := do
  let pages ← manifest.entries.foldlM record []
  let active := fun page => chapters.any fun file => chapterUrl file == page
  manifest.checkCycles active (pages.map Prod.fst)
  publish output active pages

/-! ### The script -/

/-- The fragment of a location as the script reads it. -/
def read (location : Location) : List Char :=
  (decodeComponent location.hash).getD location.hash

/-- The own properties of the table: its literal cannot give it one named `__proto__`. -/
def Redirects.specific (redirects : Redirects) (fragment : List Char) : Option (List Char) :=
  if fragment = "__proto__".toList then none else redirects.fragments.lookup fragment

def Redirects.target (redirects : Redirects) (fragment : List Char) : Option (List Char) :=
  (redirects.specific fragment <|> redirects.default).filter (· ≠ [])

/-- Where the script takes a reader, if it does. -/
def Redirects.script (redirects : Redirects) (location : Location) : Option Location := do
  let fragment := read location
  let target ← redirects.target fragment
  let url ← location.join target
  let url :=
    if (redirects.specific fragment).isNone && url.hash = [] then url.setHash location else url
  if url = location then none else some url

/-- The segments of a page below the address the book is published at. -/
def outputPath (base : List (List Char)) (page : List Char) : List (List Char) :=
  base ++ (splitAll '/' page).filter (· ≠ ['.'])

namespace Published

variable (published : Published) (base : List (List Char))

/-- The script at a path.  Documents are copied over rendered chapters, and of two pages that
name one file the document written last stays. -/
def find (path : List (List Char)) : Option Redirects :=
  ((published.documents.reverse ++ published.scripts).find? fun (page, _) =>
    outputPath base page = path).map Prod.snd

/-- One move of a reader. -/
def redirect (location : Location) : Option Location := do
  let redirects ← published.find base location.path
  redirects.script location

/-! ### The places that the scripts tell apart -/

/-- The fragments that some script looks for. -/
def keys : List (List Char) :=
  (published.documents ++ published.scripts).flatMap fun (_, redirects) =>
    redirects.fragments.map Prod.fst

/-- A fragment that no script looks for counts as none. -/
def recognize (fragment : List Char) : List Char :=
  if fragment ∈ published.keys then fragment else []

abbrev Place := List (List Char) × List Char

def places : List Place :=
  (published.documents ++ published.scripts).flatMap fun (page, _) =>
    ([] :: published.keys).map fun key => (outputPath base page, key)

@[grind =]
def place (location : Location) : Place := (location.path, published.recognize (read location))

/-- Where the script at a place leads. -/
def next (place : Place) : Option Place := do
  let redirects ← published.find base place.1
  let target ← redirects.target place.2
  let url ← (Location.mk place.1 none).join target
  let kept := (redirects.specific place.2).isNone && url.hash = []
  return (url.path, if kept then place.2 else published.recognize (read url))

/-- Where a place leads; itself, where no script moves on. -/
def onward (place : Place) : Place :=
  if place ∈ published.places base then (published.next base place).getD place else place

/-- No place leads through others back to itself. -/
def settles : Bool :=
  (published.places base).all fun place =>
    let last := Chase.chase (published.onward base) (published.places base).length place
    published.onward base last = last

end Published
end Redirect
end Sage.Meta
