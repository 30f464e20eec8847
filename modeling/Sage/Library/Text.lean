import Mathlib.Algebra.Order.Group.Nat
import Mathlib.Algebra.GroupWithZero.Nat

/-!
# Library — text as characters

Text is a list of characters.  Positions in it are the byte offsets of an encoding with one to
four bytes for a character.

* `byteLength`, `dropBytes`, `takeBytes` — lengths and parts of a text in bytes.
* `trim` — a text without the white space around it.
-/

namespace Text

def byteLength (text : List Char) : Nat := (text.map Char.utf8Size).sum

def dropBytes : Nat → List Char → List Char
  | 0, text => text
  | _ + 1, [] => []
  | n + 1, c :: text => dropBytes (n + 1 - c.utf8Size) text

def takeBytes : Nat → List Char → List Char
  | 0, _ => []
  | _ + 1, [] => []
  | n + 1, c :: text => c :: takeBytes (n + 1 - c.utf8Size) text

def isWhitespace (c : Char) : Bool :=
  let n := c.toNat
  0x9 ≤ n ∧ n ≤ 0xD ∨ n = 0x20 ∨ n = 0x85 ∨ n = 0xA0 ∨ n = 0x1680 ∨ 0x2000 ≤ n ∧ n ≤ 0x200A ∨
    n = 0x2028 ∨ n = 0x2029 ∨ n = 0x202F ∨ n = 0x205F ∨ n = 0x3000

def trimStart (text : List Char) : List Char := text.dropWhile isWhitespace

@[grind =] def trim (text : List Char) : List Char := (trimStart (trimStart text).reverse).reverse

@[simp] theorem byteLength_nil : byteLength [] = 0 := rfl

@[simp] theorem byteLength_cons (c : Char) (text : List Char) :
    byteLength (c :: text) = c.utf8Size + byteLength text := rfl

@[simp] theorem byteLength_append (text text' : List Char) :
    byteLength (text ++ text') = byteLength text + byteLength text' := by
  rw [byteLength, List.map_append, List.sum_append]
  rfl

theorem byteLength_pos {text : List Char} (h : text ≠ []) : 0 < byteLength text := by
  cases text with
  | nil => exact absurd rfl h
  | cons c text => exact Nat.add_pos_left c.utf8Size_pos _

theorem dropBytes_append (text text' : List Char) :
    dropBytes (byteLength text) (text ++ text') = text' := by
  induction text with
  | nil => rw [byteLength_nil, List.nil_append, dropBytes.eq_def]
  | cons c text ih =>
      obtain ⟨n, hn⟩ : ∃ n, byteLength (c :: text) = n + 1 :=
        ⟨_, (Nat.succ_pred_eq_of_pos (byteLength_pos (List.cons_ne_nil c text))).symm⟩
      rw [hn, List.cons_append, dropBytes, ← hn, byteLength_cons, Nat.add_sub_cancel_left, ih]

theorem takeBytes_append (text text' : List Char) :
    takeBytes (byteLength text) (text ++ text') = text := by
  induction text with
  | nil => rw [byteLength_nil, takeBytes.eq_def]
  | cons c text ih =>
      obtain ⟨n, hn⟩ : ∃ n, byteLength (c :: text) = n + 1 :=
        ⟨_, (Nat.succ_pred_eq_of_pos (byteLength_pos (List.cons_ne_nil c text))).symm⟩
      rw [hn, List.cons_append, takeBytes, ← hn, byteLength_cons, Nat.add_sub_cancel_left, ih]

/-- More bytes of a text begin with fewer of them. -/
theorem exists_takeBytes_append (text : List Char) {n m : Nat} (h : n ≤ m) :
    ∃ rest, takeBytes m text = takeBytes n text ++ rest := by
  induction text generalizing n m with
  | nil =>
      refine ⟨[], ?_⟩
      cases n <;> cases m <;> rfl
  | cons c text ih =>
      cases n with
      | zero => exact ⟨takeBytes m (c :: text), rfl⟩
      | succ n =>
          obtain ⟨m, rfl⟩ : ∃ k, m = k + 1 := ⟨m - 1, by omega⟩
          obtain ⟨rest, hrest⟩ := ih (Nat.sub_le_sub_right h c.utf8Size)
          exact ⟨rest, by rw [takeBytes, takeBytes, hrest, List.cons_append]⟩

end Text
