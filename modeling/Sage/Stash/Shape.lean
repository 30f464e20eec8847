import Sage.Stash.Laws

/-!
# Stash — derived types

What `sage-stash-macros` derives for a struct or an enum, and what `sage-stash/src/lib.rs` gives
for handles, options and self-contained values: one hashing function over the shape of a type,
generic in the hasher.

* `Shape`, `Shape.Val` — the derived types and their values.
* `Shape.stashHash` — the derived hashing.
* `Shape.stashHash_simulates` — two hashers that stay related, stay related over any value.
* `Layout.stashType` — a derived type as a storable type, hashed by `internHasher`.
-/

namespace Sage

/-- The shape of a derived type.  A struct is its fields in order, up to `unit`; an enum writes
the number of the variant in `tag` bytes: four where the hash is derived for stash data, eight
for the discriminant of a self-contained enum, none when that has one variant. -/
inductive Shape (TypeId : Type) where
  | scalar (width : Nat)
  | unit
  | ptr (t : TypeId)
  | slice (t : TypeId)
  | option (s : Shape TypeId)
  | field (s rest : Shape TypeId)
  | variants (tag count : Nat) (body : Fin count → Shape TypeId)

/-- What a handle stores: the index of an entry, with room for its successor in 32 bits. -/
abbrev StoredIndex := { index : EntryIndex // index + 1 < 2 ^ 32 }

namespace Shape

variable {TypeId : Type}

/-- The values of a derived type. -/
def Val : Shape TypeId → Type
  | scalar width => Fin (256 ^ width)
  | unit => Unit
  | ptr _ | slice _ => StoredIndex
  | option s => Option s.Val
  | field s rest => s.Val × rest.Val
  | variants _ count body => (i : Fin count) × (body i).Val

/-- The derived equality: handles are compared by their index. -/
def decEq : (s : Shape TypeId) → DecidableEq s.Val
  | scalar width => inferInstanceAs (DecidableEq (Fin (256 ^ width)))
  | unit => inferInstanceAs (DecidableEq Unit)
  | ptr _ | slice _ => inferInstanceAs (DecidableEq StoredIndex)
  | option s =>
      have := s.decEq
      inferInstanceAs (DecidableEq (Option s.Val))
  | field s rest =>
      have := s.decEq
      have := rest.decEq
      inferInstanceAs (DecidableEq (s.Val × rest.Val))
  | variants _ count body =>
      have := fun i => (body i).decEq
      inferInstanceAs (DecidableEq ((i : Fin count) × (body i).Val))

end Shape

/-- A hasher that is written to and that can hash handles; `none` is a panic. -/
structure StashHasher (TypeId H : Type) where
  write : Nat → Nat → H → H
  stashHashPtr : TypeId → EntryIndex → H → Option H
  stashHashSlice : TypeId → EntryIndex → H → Option H

namespace Shape

variable {TypeId H H' : Type}

/-- The derived hashing: every field, and before a variant's fields its number. -/
def stashHash (hasher : StashHasher TypeId H) : (s : Shape TypeId) → s.Val → H → Option H
  | scalar width, value, h => some (hasher.write width (show Fin (256 ^ width) from value) h)
  | unit, _, h => some h
  | ptr t, index, h => hasher.stashHashPtr t (show StoredIndex from index) h
  | slice t, index, h => hasher.stashHashSlice t (show StoredIndex from index) h
  | option s, value, h =>
      match (show Option s.Val from value) with
      | none => some (hasher.write 1 0 h)
      | some value => s.stashHash hasher value (hasher.write 1 1 h)
  | field s rest, value, h =>
      (s.stashHash hasher (show s.Val × rest.Val from value).1 h).bind
        (rest.stashHash hasher (show s.Val × rest.Val from value).2)
  | variants tag count body, value, h =>
      match (show (i : Fin count) × (body i).Val from value) with
      | ⟨i, value⟩ => (body i).stashHash hasher value (if tag = 0 then h else hasher.write tag i h)

/-- The handles in a value are as `onPtr` and `onSlice` say. -/
def Points (onPtr onSlice : TypeId → EntryIndex → Prop) : (s : Shape TypeId) → s.Val → Prop
  | scalar _, _ | unit, _ => True
  | ptr t, index => onPtr t (show StoredIndex from index)
  | slice t, index => onSlice t (show StoredIndex from index)
  | option s, value => ∀ v, (show Option s.Val from value) = some v → s.Points onPtr onSlice v
  | field s rest, value =>
      s.Points onPtr onSlice (show s.Val × rest.Val from value).1 ∧
        rest.Points onPtr onSlice (show s.Val × rest.Val from value).2
  | variants _ count body, value =>
      (body (show (i : Fin count) × (body i).Val from value).1).Points onPtr onSlice
        (show (i : Fin count) × (body i).Val from value).2

/-- The numbers of the variants fit into the bytes they are written in. -/
def TagsFit : Shape TypeId → Prop
  | scalar _ | unit | ptr _ | slice _ => True
  | option s => s.TagsFit
  | field s rest => s.TagsFit ∧ rest.TagsFit
  | variants tag count body => count ≤ 256 ^ tag ∧ ∀ i, (body i).TagsFit

variable {onPtr onSlice onPtr' onSlice' : TypeId → EntryIndex → Prop}

theorem Points.imp (hptr : ∀ t i, onPtr t i → onPtr' t i)
    (hslice : ∀ t i, onSlice t i → onSlice' t i) : ∀ {s : Shape TypeId} {v : s.Val},
    s.Points onPtr onSlice v → s.Points onPtr' onSlice' v := by
  intro s
  induction s with
  | scalar | unit => exact fun _ => trivial
  | ptr t => exact fun h => hptr t _ h
  | slice t => exact fun h => hslice t _ h
  | option s ih => exact fun h v hv => ih (h v hv)
  | field s rest ih ih' => exact fun h => ⟨ih h.1, ih' h.2⟩
  | variants tag count body ih => exact fun h => ih _ h

/-- Two hashers that stay related over what they write and over the handles of a value, stay
related over the value; and both hash it. -/
theorem stashHash_simulates {hasher : StashHasher TypeId H} {hasher' : StashHasher TypeId H'}
    {R : H → H' → Prop}
    (hwrite : ∀ w n h h', R h h' → R (hasher.write w n h) (hasher'.write w n h'))
    (hptr : ∀ t i h h', onPtr t i → R h h' → ∃ k k', hasher.stashHashPtr t i h = some k ∧
      hasher'.stashHashPtr t i h' = some k' ∧ R k k')
    (hslice : ∀ t i h h', onSlice t i → R h h' → ∃ k k', hasher.stashHashSlice t i h = some k ∧
      hasher'.stashHashSlice t i h' = some k' ∧ R k k') :
    ∀ {s : Shape TypeId} {v : s.Val} {h : H} {h' : H'}, s.Points onPtr onSlice v → R h h' →
      ∃ k k', s.stashHash hasher v h = some k ∧ s.stashHash hasher' v h' = some k' ∧ R k k' := by
  intro s
  induction s with
  | scalar width => exact fun {v h h'} _ hr => ⟨_, _, rfl, rfl, hwrite _ _ _ _ hr⟩
  | unit => exact fun {v h h'} _ hr => ⟨h, h', rfl, rfl, hr⟩
  | ptr t => exact fun {v h h'} hv hr => hptr t _ _ _ hv hr
  | slice t => exact fun {v h h'} hv hr => hslice t _ _ _ hv hr
  | option s ih =>
      intro v h h' hv hr
      cases v with
      | none => exact ⟨_, _, rfl, rfl, hwrite _ _ _ _ hr⟩
      | some v => exact ih (hv v rfl) (hwrite _ _ _ _ hr)
  | field s rest ih ih' =>
      rintro ⟨v, w⟩ h h' ⟨hv, hw⟩ hr
      obtain ⟨k, k', hk, hk', hr⟩ := ih hv hr
      obtain ⟨l, l', hl, hl', hr⟩ := ih' hw hr
      refine ⟨l, l', ?_, ?_, hr⟩
      · exact Option.bind_eq_some_iff.mpr ⟨k, hk, hl⟩
      · exact Option.bind_eq_some_iff.mpr ⟨k', hk', hl'⟩
  | variants tag count body ih =>
      rintro ⟨i, v⟩ h h' hv hr
      refine ih i hv ?_
      split
      · exact hr
      · exact hwrite _ _ _ _ hr

/-- A hasher that handles more gives what the other gives. -/
theorem stashHash_mono {hasher hasher' : StashHasher TypeId H}
    (hwrite : hasher.write = hasher'.write)
    (hptr : ∀ t i h k, hasher.stashHashPtr t i h = some k → hasher'.stashHashPtr t i h = some k)
    (hslice : ∀ t i h k, hasher.stashHashSlice t i h = some k →
      hasher'.stashHashSlice t i h = some k) :
    ∀ {s : Shape TypeId} {v : s.Val} {h k : H}, s.stashHash hasher v h = some k →
      s.stashHash hasher' v h = some k := by
  intro s
  induction s with
  | scalar width => exact fun {v h k} hk => by rw [stashHash] at hk ⊢; rw [← hwrite]; exact hk
  | unit => exact fun {v h k} hk => hk
  | ptr t => exact fun {v h k} hk => hptr t _ _ _ hk
  | slice t => exact fun {v h k} hk => hslice t _ _ _ hk
  | option s ih =>
      intro v h k hk
      rw [stashHash] at hk ⊢
      rw [← hwrite]
      cases v with
      | none => exact hk
      | some v => exact ih hk
  | field s rest ih ih' =>
      rintro ⟨v, w⟩ h k hk
      obtain ⟨l, hl, hk⟩ := Option.bind_eq_some_iff.mp hk
      exact Option.bind_eq_some_iff.mpr ⟨l, ih hl, ih' hk⟩
  | variants tag count body ih =>
      rintro ⟨i, v⟩ h k hk
      have hk : (body i).stashHash hasher v (if tag = 0 then h else hasher.write tag i h) = some k :=
        hk
      rw [hwrite] at hk
      exact ih i hk

end Shape

/-! ### Derived types in the arena -/

section Layout

variable {TypeId : Type} {s : Shape TypeId}

/-- The hasher of `alloc`: the words that are written, with the stored hash of a handle's entry. -/
def internHasher (inline : List UInt64) : StashHasher TypeId (List UInt64) where
  write _ n words := words ++ [n.toUInt64]
  stashHashPtr _ i words := inline[i]?.map fun hash => words ++ [hash]
  stashHashSlice _ i words := inline[i]?.map fun hash => words ++ [hash]

/-- How the compiler lays out the values of a derived type. -/
structure Layout (s : Shape TypeId) where
  size : Nat
  alignLog : Nat
  encode : s.Val → List UInt8
  decode : List UInt8 → s.Val
  alignLog_lt : alignLog < 64
  align_dvd_size : 2 ^ alignLog ∣ size
  length_encode : ∀ v, (encode v).length = size
  decode_encode : ∀ v, decode (encode v) = v

/-- A derived type can be stored. -/
def Layout.stashType (layout : Layout s) : StashType where
  Val := s.Val
  decEq := s.decEq
  size := layout.size
  alignLog := layout.alignLog
  encode := layout.encode
  decode := layout.decode
  stashHash inline v := s.stashHash (internHasher inline) v []
  alignLog_lt := layout.alignLog_lt
  align_dvd_size := layout.align_dvd_size
  length_encode := layout.length_encode
  decode_encode := layout.decode_encode
  stashHash_append inline more v words h := by
    have hmono : ∀ {i : Nat} {words words' : List UInt64},
        inline[i]?.map (fun hash => words ++ [hash]) = some words' →
        (inline ++ more)[i]?.map (fun hash => words ++ [hash]) = some words' := fun h => by
      obtain ⟨hash, hi, rfl⟩ := Option.map_eq_some_iff.mp h
      rw [List.getElem?_append_left (List.getElem?_eq_some_iff.mp hi).1, hi]
      rfl
    refine Shape.stashHash_mono ?_ ?_ ?_ h
    · rfl
    · exact fun _ _ _ _ => hmono
    · exact fun _ _ _ _ => hmono

end Layout

end Sage
