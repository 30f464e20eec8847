import Mathlib.Data.List.Basic
import Mathlib.Data.UInt
import Mathlib.Logic.Function.Basic

/-!
# Stash — the hash-consing arena

`sage-stash/src/lib.rs`.  A stash is a buffer of bytes, a table of entries that say where in the
buffer a value or a slice lies, and a table that finds an entry by its type, its length and the
hash of its contents.  Handles are indices of entries; offsets and lengths are stored in 32 bits.

* `StashType` — a storable type: its layout, and what hashing a value reads.
* `Stash.alloc`, `Stash.allocSlice`, `Stash.appendOne` — the operations; `none` is a panic.
* `Stash.readPtr`, `Stash.readSlice` — reading a handle; `none` also where the read is invalid.
-/

namespace Sage

/-- A `Copy` type that can be stored.  Its values are written as bytes and read back, its
alignment is a power of two that divides its size, and hashing a value writes words that depend
on the value and on the hashes of entries that its handles point to. -/
structure StashType where
  Val : Type
  decEq : DecidableEq Val
  size : Nat
  alignLog : Nat
  encode : Val → List UInt8
  decode : List UInt8 → Val
  stashHash : List UInt64 → Val → Option (List UInt64)
  alignLog_lt : alignLog < 64
  align_dvd_size : 2 ^ alignLog ∣ size
  length_encode : ∀ v, (encode v).length = size
  decode_encode : ∀ v, decode (encode v) = v
  stashHash_append : ∀ inline more v words, stashHash inline v = some words →
    stashHash (inline ++ more) v = some words

instance (τ : StashType) : DecidableEq τ.Val := τ.decEq

def StashType.align (τ : StashType) : Nat := 2 ^ τ.alignLog

/-! ### The buffer -/

/-- The bytes of the buffer, which starts at an address that `align` divides.  Its capacity
and the copies made when it grows do not show. -/
structure AlignedBuf where
  bytes : List UInt8
  align : Nat

namespace AlignedBuf

def new : AlignedBuf := ⟨[], 8⟩

def resizeZeroed (buf : AlignedBuf) (newLen : Nat) : AlignedBuf :=
  { buf with bytes := buf.bytes ++ List.replicate (newLen - buf.bytes.length) 0 }

def extendFromSlice (buf : AlignedBuf) (τ : StashType) (values : List τ.Val) : AlignedBuf where
  bytes := buf.bytes ++ values.flatMap τ.encode
  align := max buf.align τ.align

/-- A reference to `length` bytes at `offset` is aligned and within the buffer. -/
def Valid (buf : AlignedBuf) (τ : StashType) (offset length : Nat) : Prop :=
  τ.align ≤ buf.align ∧ τ.align ∣ offset ∧ offset + length ≤ buf.bytes.length

instance (buf : AlignedBuf) (τ : StashType) (offset length : Nat) :
    Decidable (buf.Valid τ offset length) := inferInstanceAs (Decidable (_ ∧ _ ∧ _))

def valueAt (buf : AlignedBuf) (τ : StashType) (offset : Nat) : τ.Val :=
  τ.decode ((buf.bytes.drop offset).take τ.size)

def readOne (buf : AlignedBuf) (τ : StashType) (offset : UInt32) : Option τ.Val :=
  if buf.Valid τ offset.toNat τ.size then some (buf.valueAt τ offset.toNat) else none

def readSlice (buf : AlignedBuf) (τ : StashType) (offset count : UInt32) : Option (List τ.Val) :=
  if count = 0 then some []
  else if buf.Valid τ offset.toNat (count.toNat * τ.size) then
    some ((List.range count.toNat).map fun i => buf.valueAt τ (offset.toNat + i * τ.size))
  else none

end AlignedBuf

/-! ### The stash -/

section Stash

variable {TypeId : Type} [DecidableEq TypeId]

structure StashEntry (TypeId : Type) where
  typeId : TypeId
  offset : UInt32
  count : UInt32
  inlineHash : UInt64

structure InternKey (TypeId : Type) where
  typeId : TypeId
  count : Nat
  contentHash : UInt64
  collision : Nat
deriving DecidableEq

/-- The index of an entry, with which handles are made. -/
abbrev EntryIndex := Nat

/-- The source stores the index plus one in 32 bits, and panics where that overflows. -/
def EntryIndex.new (len : Nat) : Option EntryIndex :=
  let index := len % 2 ^ 32
  if index + 1 < 2 ^ 32 then some index else none

structure Stash (TypeId : Type) where
  buf : AlignedBuf
  entries : List (StashEntry TypeId)
  internMap : InternKey TypeId → Option EntryIndex

namespace Stash

variable (T : TypeId → StashType)

/- The hasher of the words that are written to it. -/
variable (finish : List UInt64 → UInt64)

def new : Stash TypeId := ⟨.new, [], fun _ => none⟩

def inlineHashes (s : Stash TypeId) : List UInt64 := s.entries.map StashEntry.inlineHash

/-- The negation of a 64-bit length, for the padding up to an alignment. -/
def wrappingNeg (n : Nat) : Nat := (2 ^ 64 - n % 2 ^ 64) % 2 ^ 64

def pushRaw (s : Stash TypeId) (t : TypeId) (values : List (T t).Val) (inlineHash : UInt64) :
    Option (EntryIndex × Stash TypeId) := do
  let align := max (T t).align 4
  let cur := s.buf.bytes.length
  let padding := wrappingNeg cur &&& (align - 1)
  let buf := s.buf.resizeZeroed (cur + padding)
  let offset := buf.bytes.length.toUInt32
  let buf := buf.extendFromSlice (T t) values
  let index ← EntryIndex.new s.entries.length
  return (index,
    { s with buf, entries := s.entries ++ [⟨t, offset, values.length.toUInt32, inlineHash⟩] })

/-- Where the search for contents ends: at their entry, or at a free key. -/
inductive Slot where
  | occupied (index : EntryIndex)
  | vacant (collision : Nat)

/-- Search the entries of one type, length and hash for one with the `same` contents. -/
def probe (s : Stash TypeId) (key : Nat → InternKey TypeId)
    (same : StashEntry TypeId → Option Bool) : Nat → Nat → Option Slot
  | 0, _ => none
  | fuel + 1, collision =>
      match s.internMap (key collision) with
      | some index => do
          if ← same (← s.entries[index]?) then some (.occupied index)
          else probe s key same fuel (collision + 1)
      | none => some (.vacant collision)

/-- Find contents or store them.  The collision number has 32 bits. -/
@[grind =] def intern (s : Stash TypeId) (t : TypeId) (values : List (T t).Val)
    (same : StashEntry TypeId → Option Bool) (contentHash : UInt64) :
    Option (EntryIndex × Stash TypeId) := do
  let key := InternKey.mk t values.length contentHash
  match ← s.probe key same (2 ^ 32) 0 with
  | .occupied index => return (index, s)
  | .vacant collision =>
      let (index, s) ← s.pushRaw T t values contentHash
      return (index, { s with internMap := Function.update s.internMap (key collision) index })

/-- Hash-cons a single value. -/
def alloc (s : Stash TypeId) (t : TypeId) (value : (T t).Val) :
    Option (EntryIndex × Stash TypeId) := do
  let words ← (T t).stashHash s.inlineHashes value
  s.intern T t [value] (fun entry => (s.buf.readOne (T t) entry.offset).map (· = value))
    (finish words)

/-- Hash-cons a contiguous slice. -/
def allocSlice (s : Stash TypeId) (t : TypeId) (values : List (T t).Val) :
    Option (EntryIndex × Stash TypeId) := do
  let words ← values.mapM ((T t).stashHash s.inlineHashes)
  s.intern T t values
    (fun entry => (s.buf.readSlice (T t) entry.offset entry.count).map (· = values))
    (finish (values.length.toUInt64 :: words.flatten))

def validateEntry (s : Stash TypeId) (index : EntryIndex) (t : TypeId) :
    Option (StashEntry TypeId) := do
  let entry ← s.entries[index]?
  if entry.typeId = t then some entry else none

def readPtr (s : Stash TypeId) (t : TypeId) (ptr : EntryIndex) : Option (T t).Val := do
  let entry ← s.validateEntry ptr t
  s.buf.readOne (T t) entry.offset

def readSlice (s : Stash TypeId) (t : TypeId) (slice : EntryIndex) : Option (List (T t).Val) := do
  let entry ← s.validateEntry slice t
  s.buf.readSlice (T t) entry.offset entry.count

/-- A slice with the contents of another one and one more element. -/
def appendOne (s : Stash TypeId) (t : TypeId) (existing : EntryIndex) (element : (T t).Val) :
    Option (EntryIndex × Stash TypeId) := do
  let old ← s.readSlice T t existing
  s.allocSlice T finish t (old ++ [element])

/-! ### Runs -/

/-- A handle with the contents that it was created with. -/
inductive Handle (T : TypeId → StashType) where
  | ptr (t : TypeId) (index : EntryIndex) (value : (T t).Val)
  | slice (t : TypeId) (index : EntryIndex) (values : List (T t).Val)

inductive Op (T : TypeId → StashType) where
  | alloc (t : TypeId) (value : (T t).Val)
  | allocSlice (t : TypeId) (values : List (T t).Val)
  | appendOne (t : TypeId) (existing : EntryIndex) (element : (T t).Val)

def step (s : Stash TypeId) : Op T → Option (Handle T × Stash TypeId)
  | .alloc t value => do
      let (index, s) ← s.alloc T finish t value
      return (.ptr t index value, s)
  | .allocSlice t values => do
      let (index, s) ← s.allocSlice T finish t values
      return (.slice t index values, s)
  | .appendOne t existing element => do
      let old ← s.readSlice T t existing
      let (index, s) ← s.appendOne T finish t existing element
      return (.slice t index (old ++ [element]), s)

/-- A sequence of operations, with the handles that they return. -/
def run (s : Stash TypeId) : List (Op T) → Option (List (Handle T) × Stash TypeId)
  | [] => some ([], s)
  | op :: ops => do
      let (handle, s) ← s.step T finish op
      let (handles, s) ← run s ops
      return (handle :: handles, s)

end Stash

end Stash

end Sage
