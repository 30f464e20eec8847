import Mathlib.Data.List.Basic
import Mathlib.Data.List.TakeWhile
import Mathlib.Tactic.IntervalCases

/-!
# Library — references on a site

What a browser makes of a relative reference, and what a script makes of the fragment of the
location it is at.  A path is its segments below the host, as they read once decoded.

* `Location.join` — the location a reference without a scheme or a query names.
* `decodeComponent` — the text that an escaped text stands for.
* `decodeComponent_escape` — every text has an escaped one.
-/

namespace Url

/-- The text before the first `c`, and the text after it. -/
def splitOnce (c : Char) (text : List Char) : List Char × Option (List Char) :=
  match text.dropWhile (· ≠ c) with
  | [] => (text, none)
  | _ :: rest => (text.takeWhile (· ≠ c), some rest)

/-- The parts of a text between one `c` and the next. -/
def splitAll (c : Char) : List Char → List (List Char)
  | [] => [[]]
  | d :: text =>
      if d = c then [] :: splitAll c text
      else match splitAll c text with
        | [] => [[d]]
        | part :: parts => (d :: part) :: parts

theorem splitOnce_fst (c : Char) (text : List Char) : c ∉ (splitOnce c text).1 := by
  rw [splitOnce]
  split
  · rename_i hdrop
    rw [List.dropWhile_eq_nil_iff] at hdrop
    intro hc
    simpa using hdrop c hc
  · intro hc
    simpa using List.mem_takeWhile_imp hc

theorem splitOnce_append {c : Char} {before : List Char} (h : c ∉ before) (after : List Char) :
    splitOnce c (before ++ c :: after) = (before, some after) := by
  have hbefore : ∀ d ∈ before, decide (d ≠ c) = true := by
    intro d hd
    exact decide_eq_true fun heq => h (heq ▸ hd)
  rw [splitOnce, List.dropWhile_append_of_pos hbefore, List.takeWhile_append_of_pos hbefore]
  simp

/-! ### Escapes -/

def hexDigit (n : Nat) : Char := Char.ofNat (if n < 10 then 48 + n else 55 + n)

def hexValue (c : Char) : Option Nat :=
  let n := c.toNat
  if 48 ≤ n ∧ n ≤ 57 then some (n - 48)
  else if 65 ≤ n ∧ n ≤ 70 then some (n - 55)
  else if 97 ≤ n ∧ n ≤ 102 then some (n - 87)
  else none

def escapeByte (b : UInt8) : List Char :=
  ['%', hexDigit (b.toNat / 16), hexDigit (b.toNat % 16)]

def escapeChar (c : Char) : List Char := (String.utf8EncodeChar c).flatMap escapeByte

/-- Every character escaped. -/
def escape (text : List Char) : List Char := text.flatMap escapeChar

def unescape : List Char → Option (List UInt8)
  | [] => some []
  | '%' :: high :: low :: text => do
      let high ← hexValue high
      let low ← hexValue low
      return UInt8.ofNat (high * 16 + low) :: (← unescape text)
  | '%' :: _ => none
  | c :: text => do return String.utf8EncodeChar c ++ (← unescape text)

/-- `decodeURIComponent`: no value where an escape or the encoding is malformed. -/
def decodeComponent (text : List Char) : Option (List Char) := do
  let bytes ← unescape text
  let chars ← bytes.toByteArray.utf8Decode?
  return chars.toList

theorem hexValue_hexDigit (n : Nat) (h : n < 16) : hexValue (hexDigit n) = some n := by
  interval_cases n <;> rfl

theorem unescape_escapeByte (b : UInt8) (text : List Char) :
    unescape (escapeByte b ++ text) = (unescape text).map (b :: ·) := by
  have hb : b.toNat < 256 := b.toNat_lt
  have hhigh := hexValue_hexDigit (b.toNat / 16) (by omega)
  have hlow := hexValue_hexDigit (b.toNat % 16) (by omega)
  have hvalue : b.toNat / 16 * 16 + b.toNat % 16 = b.toNat := by omega
  simp only [escapeByte, List.cons_append, List.nil_append, unescape, hhigh, hlow]
  cases unescape text with
  | none => rfl
  | some bytes =>
      change some (UInt8.ofNat (b.toNat / 16 * 16 + b.toNat % 16) :: bytes) = some (b :: bytes)
      rw [hvalue, UInt8.ofNat_toNat]

theorem unescape_escapeBytes (bytes : List UInt8) (text : List Char) :
    unescape (bytes.flatMap escapeByte ++ text) = (unescape text).map (bytes ++ ·) := by
  induction bytes with
  | nil => simp
  | cons b bytes ih =>
      rw [List.flatMap_cons, List.append_assoc, unescape_escapeByte, ih]
      cases unescape text <;> simp

theorem unescape_escape (text : List Char) :
    unescape (escape text) = some (text.flatMap String.utf8EncodeChar) := by
  induction text with
  | nil => rfl
  | cons c text ih =>
      have h := unescape_escapeBytes (String.utf8EncodeChar c) (escape text)
      rw [ih] at h
      simpa [escape, escapeChar] using h

theorem decodeComponent_of_unescape {text text' : List Char}
    (h : unescape text = some (text'.flatMap String.utf8EncodeChar)) :
    decodeComponent text = some text' := by
  have hdecode := @List.utf8Decode?_utf8Encode text'
  rw [List.utf8Encode] at hdecode
  simp [decodeComponent, h, hdecode]

@[simp] theorem decodeComponent_escape (text : List Char) :
    decodeComponent (escape text) = some text :=
  decodeComponent_of_unescape (unescape_escape text)

@[simp] theorem escape_eq_nil {text : List Char} : escape text = [] ↔ text = [] := by
  refine ⟨fun h => ?_, fun h => by rw [h]; rfl⟩
  have hdecode := decodeComponent_escape text
  have hempty : decodeComponent [] = some [] := decodeComponent_of_unescape rfl
  rw [h, hempty] at hdecode
  exact (Option.some.inj hdecode).symm

/-! ### Fragments -/

/-- The characters that the fragment of a location holds escaped. -/
def isEscapedInFragment (c : Char) : Bool :=
  c.toNat ≤ 0x20 || 0x7E < c.toNat || c == '"' || c == '<' || c == '>' || c == '`'

def parseFragment (text : List Char) : List Char :=
  text.flatMap fun c => if isEscapedInFragment c then escapeChar c else [c]

/-- The text of a fragment, with nothing in it left to escape. -/
def Fragment : Type := { text : List Char // ∀ c ∈ text, isEscapedInFragment c = false }
deriving DecidableEq

theorem hexDigit_kept (n : Nat) (h : n < 16) : isEscapedInFragment (hexDigit n) = false := by
  interval_cases n <;> rfl

theorem escapeByte_kept (b : UInt8) : ∀ c ∈ escapeByte b, isEscapedInFragment c = false := by
  have hb : b.toNat < 256 := b.toNat_lt
  intro c hc
  simp only [escapeByte, List.mem_cons, List.not_mem_nil, or_false] at hc
  obtain rfl | rfl | rfl := hc
  · rfl
  · exact hexDigit_kept _ (by omega)
  · exact hexDigit_kept _ (by omega)

theorem escapeChar_kept (c : Char) : ∀ d ∈ escapeChar c, isEscapedInFragment d = false := by
  intro d hd
  obtain ⟨b, -, hd⟩ := List.mem_flatMap.mp hd
  exact escapeByte_kept b d hd

theorem escape_kept (text : List Char) : ∀ c ∈ escape text, isEscapedInFragment c = false := by
  intro d hd
  obtain ⟨c, -, hd⟩ := List.mem_flatMap.mp hd
  exact escapeChar_kept c d hd

theorem parseFragment_kept (text : List Char) :
    ∀ c ∈ parseFragment text, isEscapedInFragment c = false := by
  intro d hd
  obtain ⟨c, -, hd⟩ := List.mem_flatMap.mp hd
  split at hd
  · exact escapeChar_kept c d hd
  · rename_i hc
    obtain rfl := List.mem_singleton.mp hd
    simpa using hc

def Fragment.parse (text : List Char) : Fragment := ⟨parseFragment text, parseFragment_kept text⟩

def Fragment.escape (text : List Char) : Fragment := ⟨Url.escape text, escape_kept text⟩

/-! ### Locations -/

structure Location where
  path : List (List Char)
  fragment : Option Fragment
deriving DecidableEq

/-- The fragment as a script sees it: an absent one and an empty one are the same. -/
def Location.hash (l : Location) : List Char := (l.fragment.map Subtype.val).getD []

/-- The same fragment, unless it is empty. -/
def Location.setHash (l : Location) (other : Location) : Location :=
  { l with fragment := other.fragment.filter (·.val ≠ []) }

/-- Follow the segments of a reference from a directory. -/
def walk (directory : List (List Char)) : List (List Char) → List (List Char)
  | [] => directory
  | [segment] =>
      if segment = ['.'] then directory ++ [[]]
      else if segment = ['.', '.'] then directory.dropLast ++ [[]]
      else directory ++ [segment]
  | segment :: rest =>
      if segment = ['.'] then walk directory rest
      else if segment = ['.', '.'] then walk directory.dropLast rest
      else walk (directory ++ [segment]) rest

def isBlank (c : Char) : Bool := c.toNat ≤ 0x20

/-- What a browser drops from a reference before it reads it. -/
def clean (reference : List Char) : List Char :=
  ((reference.dropWhile isBlank).reverse.dropWhile isBlank).reverse.filter
    fun c => c ≠ '\t' ∧ c ≠ '\n' ∧ c ≠ '\r'

/-- The location that a reference without a scheme, a query or a backslash names from another
location; `none` is another host. -/
def Location.join (from_ : Location) (reference : List Char) : Option Location :=
  let (path, fragment) := splitOnce '#' (clean reference)
  let fragment := fragment.map Fragment.parse
  match path with
  | [] => some { path := from_.path, fragment }
  | '/' :: '/' :: _ => none
  | '/' :: path => some { path := walk [] (splitAll '/' path), fragment }
  | path => some { path := walk from_.path.dropLast (splitAll '/' path), fragment }

/-- Where a reference leads depends on the path alone. -/
theorem Location.join_congr {l l' : Location} (h : l.path = l'.path) (reference : List Char) :
    l.join reference = l'.join reference := by
  rw [join, join, h]

theorem Location.hash_setHash (l other : Location) : (l.setHash other).hash = other.hash := by
  obtain ⟨path, fragment⟩ := other
  cases fragment with
  | none => rfl
  | some fragment =>
      by_cases h : fragment.val = []
      · simp [setHash, hash, Option.filter, h]
        exact h.symm
      · simp [setHash, hash, Option.filter, h]

theorem Location.setHash_setHash (l other : Location) :
    l.setHash (l.setHash other) = l.setHash other := by
  simp [setHash, Option.filter_filter]

end Url
