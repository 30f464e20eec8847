import Sage.Stash.Tree

/-!
# Stash — words

The hasher under which entries are interned, and numbers of eight bytes as a storable type.

* `WordHasher` — what is used of the hasher; `fxHasher` is one on 64-bit machines.
* `WordHasher.finish_one_cons` — a value and a slice of one element do not hash to one word.
* `wordLayout` — numbers, stored lowest byte first.
-/

namespace Sage

/-- What is used of the hasher that entries are interned under: it takes in one word after the
other, no two states meet under one word, and a first word 1 leaves the initial state. -/
structure WordHasher where
  init : UInt64
  add : UInt64 → UInt64 → UInt64
  out : UInt64 → UInt64
  add_injective : ∀ word, Function.Injective fun state => add state word
  out_injective : Function.Injective out
  add_one : add init 1 ≠ init

namespace WordHasher

def finish (hasher : WordHasher) (words : List UInt64) : UInt64 :=
  hasher.out (words.foldl hasher.add hasher.init)

theorem foldl_injective (hasher : WordHasher) (words : List UInt64) :
    Function.Injective fun state => words.foldl hasher.add state := by
  induction words with
  | nil => exact fun _ _ h => h
  | cons word words ih => exact fun _ _ h => hasher.add_injective word (ih h)

/-- Contents as a value and as a slice of one element hash differently. -/
theorem finish_one_cons (hasher : WordHasher) (words : List UInt64) :
    hasher.finish (1 :: words) ≠ hasher.finish words := fun h =>
  hasher.add_one (hasher.foldl_injective words (hasher.out_injective h))

end WordHasher

/-! ### The multiplying hasher -/

/-- The multiplier of the hasher. -/
def fxSeed : UInt64 := 0xf1357aea2e62a9c5

theorem rotate_injective : Function.Injective
    fun word : UInt64 => UInt64.ofBitVec (word.toBitVec.rotateLeft 26) := by
  intro a b h
  have h : a.toBitVec.rotateLeft 26 = b.toBitVec.rotateLeft 26 := congrArg UInt64.toBitVec h
  apply UInt64.toBitVec_inj.mp
  ext i hi
  -- bit `i` of the word is bit `i + 26` of the rotated one, around the end
  by_cases hlt : i < 38
  · have hget := congrArg (fun v : BitVec 64 => v[i + 26]) h
    simpa [show ¬ i + 26 < 26 by omega] using hget
  · have hget : (a.toBitVec.rotateLeft 26)[i - 38] = (b.toBitVec.rotateLeft 26)[i - 38] := by
      rw [h]
    rw [BitVec.getElem_rotateLeft, BitVec.getElem_rotateLeft, dif_pos (by omega),
      dif_pos (by omega)] at hget
    simpa [show 64 - 26 % 64 + (i - 38) = i by omega] using hget

def fxHasher : WordHasher where
  init := 0
  add state word := (state + word) * fxSeed
  out state := UInt64.ofBitVec (state.toBitVec.rotateLeft 26)
  add_injective word a b h := by
    -- the multiplier is odd
    have hinv : fxSeed * 8652704222047563021 = 1 := by decide
    have h := congrArg (· * 8652704222047563021) h
    simp only [mul_assoc, hinv, mul_one] at h
    exact add_right_cancel h
  out_injective := rotate_injective
  add_one := by decide

/-! ### Numbers of eight bytes -/

def ofLe : List UInt8 → Nat
  | [] => 0
  | b :: bs => b.toNat + 256 * ofLe bs

theorem ofLe_leBytes {width : Nat} : ∀ {n : Nat}, n < 256 ^ width →
    ofLe (leBytes width n) = n := by
  induction width with
  | zero =>
      intro n hn
      rw [Nat.pow_zero, Nat.lt_one_iff] at hn
      rw [hn]
      rfl
  | succ width ih =>
      intro n hn
      have hdiv : n / 256 < 256 ^ width :=
        Nat.div_lt_of_lt_mul (by rwa [Nat.mul_comm, ← Nat.pow_succ])
      have hmod : (n % 256).toUInt8.toNat = n % 256 := by simp
      rw [leBytes, ofLe, ih hdiv, hmod, Nat.mod_add_div]

/-- The one stored type is numbers of eight bytes. -/
abbrev words (_ : Unit) : Shape Unit := .scalar 8

def wordLayout (t : Unit) : Layout (words t) where
  size := 8
  alignLog := 3
  encode v := leBytes 8 (show Fin (256 ^ 8) from v)
  decode bytes := show Fin (256 ^ 8) from Fin.ofNat _ (ofLe bytes)
  alignLog_lt := by decide
  align_dvd_size := by decide
  length_encode v := length_leBytes 8 _
  decode_encode v := by
    obtain ⟨n, hn⟩ : Fin (256 ^ 8) := v
    refine Fin.ext ?_
    show ofLe (leBytes 8 n) % 256 ^ 8 = n
    rw [ofLe_leBytes hn, Nat.mod_eq_of_lt hn]

def word (n : UInt64) : (words ()).Val := show Fin (256 ^ 8) from Fin.ofNat _ n.toNat

end Sage
