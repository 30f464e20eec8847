/-!
# Meta — names and file names

Qualified names and file names are plain strings.  The lexer reads a word up to the first character
that is no letter, digit or underscore, so that the colons of a qualified name are between words.

* `IsWord` — what the lexer reads as a word.
* `rsplitOnce` — a qualified name before and after its last `::`.
* `components` — the components of a file name.
-/

namespace Sage.Meta

/-! ### Qualified names -/

def isWordChar (c : Char) : Bool := c.isAlphanum || c = '_'

def IsWord (text : String) : Prop :=
  (text.toList.head?.any fun c => c.isAlpha || c = '_') = true ∧ text.toList.all isWordChar = true

instance : DecidablePred IsWord := fun _ => inferInstanceAs (Decidable (_ ∧ _))

def qualified (path name : String) : String := path ++ "::" ++ name

def rsplitChars : List Char → Option (List Char × List Char)
  | [] => none
  | c :: rest =>
      match rsplitChars rest with
      | some (before, after) => some (c :: before, after)
      | none => if c = ':' ∧ rest.head? = some ':' then some ([], rest.tail) else none

/-- The parts before and after the last `::`. -/
def rsplitOnce (text : String) : Option (String × String) :=
  (rsplitChars text.toList).map fun parts => (String.ofList parts.1, String.ofList parts.2)

/-- The part before the first `::`. -/
def firstSegment (text : String) : String :=
  let rec go : List Char → List Char
    | [] => []
    | ':' :: ':' :: _ => []
    | c :: rest => c :: go rest
  String.ofList (go text.toList)

theorem IsWord.colon_not_mem {text : String} (h : IsWord text) : ':' ∉ text.toList := by
  intro hmem
  exact absurd (List.all_eq_true.mp h.2 ':' hmem) (by decide)

theorem rsplitChars_of_colon_not_mem {l : List Char} (h : ':' ∉ l) : rsplitChars l = none := by
  induction l with
  | nil => rfl
  | cons c l ih =>
      rw [List.mem_cons, not_or] at h
      rw [rsplitChars, ih h.2]
      exact if_neg fun hc => h.1 hc.1.symm

theorem rsplitChars_append {after : List Char} (h : ':' ∉ after) (before : List Char) :
    rsplitChars (before ++ ':' :: ':' :: after) = some (before, after) := by
  induction before with
  | nil =>
      have hhead : after.head? ≠ some ':' := fun hhead => h (List.mem_of_head? hhead)
      have hrest : rsplitChars (':' :: after) = none := by
        rw [rsplitChars, rsplitChars_of_colon_not_mem h]
        exact if_neg fun hc => hhead hc.2
      rw [List.nil_append, rsplitChars, hrest]
      rfl
  | cons c before ih => rw [List.cons_append, rsplitChars, ih]

/-- A word after the last `::` is what splits off. -/
theorem rsplitOnce_qualified {name : String} (h : IsWord name) (path : String) :
    rsplitOnce (qualified path name) = some (path, name) := by
  have hchars : (qualified path name).toList = path.toList ++ ':' :: ':' :: name.toList := by
    simp [qualified]
  rw [rsplitOnce, hchars, rsplitChars_append h.colon_not_mem]
  simp

theorem qualified_injective {path path' name name' : String} (h : IsWord name)
    (h' : IsWord name') (heq : qualified path name = qualified path' name') :
    path = path' ∧ name = name' := by
  have hsplit := rsplitOnce_qualified h path
  rw [heq, rsplitOnce_qualified h' path'] at hsplit
  cases hsplit
  exact ⟨rfl, rfl⟩

/-! ### File names -/

def splitSlash : List Char → List (List Char)
  | [] => [[]]
  | '/' :: rest => [] :: splitSlash rest
  | c :: rest =>
      match splitSlash rest with
      | [] => [[c]]
      | part :: parts => (c :: part) :: parts

/-- The components of a file name; an absolute one starts with `/`. -/
def components (file : String) : List String :=
  let parts := (splitSlash file.toList).map String.ofList
  match parts with
  | "" :: _ :: _ => "/" :: parts.filter fun part => part ≠ "" ∧ part ≠ "."
  | "." :: rest => "." :: rest.filter fun part => part ≠ "" ∧ part ≠ "."
  | _ => parts.filter fun part => part ≠ "" ∧ part ≠ "."

/-- The directory of a file name; none has an empty one. -/
def parent (file : String) : List String :=
  match components file with
  | ["/"] => []
  | parts => parts.dropLast

def fileName (file : String) : Option String :=
  ((components file).getLast?).filter fun part => part ≠ "/" ∧ part ≠ "." ∧ part ≠ ".."

/-- The file name with these components. -/
def joined : List String → String
  | "/" :: rest => "/" ++ "/".intercalate rest
  | parts => "/".intercalate parts

end Sage.Meta
