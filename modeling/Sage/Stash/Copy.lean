import Sage.Stash.Rooted

/-!
# Stash — copying between stashes

`StashCopy` allocates a value in another stash, what its handles point to first.  To copy a value
is to follow its handles and to store the tree that they unfold to, so that nothing of the source
but the tree is left.

* `Stash.stashCopy` — the copy, with fuel for the handles one inside the other.
* `Tree.store`, `Stash.stashCopy_eq` — storing a tree.
* `Kept.store` — what storing a tree leaves.
* `Stashed.copyInto_preserves` — what copying a rooted value leaves, while offsets and lengths fit
  into 32 bits.
-/

namespace Sage

section Stash

variable {TypeId : Type} [DecidableEq TypeId] {D : TypeId → Shape TypeId}

/-! ### Copying -/

/-- An index, to be stored. -/
def EntryIndex.stored (index : EntryIndex) : Option StoredIndex :=
  if h : index + 1 < 2 ^ 32 then some ⟨index, h⟩ else none

/-- The derived copy: every field in order, and a variant as that variant. -/
def Shape.stashCopy
    (onPtr onSlice : TypeId → EntryIndex → Stash TypeId → Option (StoredIndex × Stash TypeId)) :
    (s : Shape TypeId) → s.Val → Stash TypeId → Option (s.Val × Stash TypeId)
  | scalar _, value, target => some (value, target)
  | unit, value, target => some (value, target)
  | ptr t, index, target => onPtr t (show StoredIndex from index) target
  | slice t, index, target => onSlice t (show StoredIndex from index) target
  | option s, value, target =>
      match (show Option s.Val from value) with
      | none => some (none, target)
      | some value => (s.stashCopy onPtr onSlice value target).map fun r => (some r.1, r.2)
  | field s rest, value, target => do
      let (copied, target) ←
        s.stashCopy onPtr onSlice (show s.Val × rest.Val from value).1 target
      let (copied', target) ←
        rest.stashCopy onPtr onSlice (show s.Val × rest.Val from value).2 target
      return ((copied, copied'), target)
  | variants _ count body, value, target =>
      match (show (i : Fin count) × (body i).Val from value) with
      | ⟨i, value⟩ => ((body i).stashCopy onPtr onSlice value target).map fun r => (⟨i, r.1⟩, r.2)

/-- The copies of some values, one after the other. -/
def copyAll {α : Type} (copy : α → Stash TypeId → Option (α × Stash TypeId)) :
    List α → Stash TypeId → Option (List α × Stash TypeId)
  | [], target => some ([], target)
  | value :: values, target => do
      let (copied, target) ← copy value target
      let (rest, target) ← copyAll copy values target
      return (copied :: rest, target)

variable (L : ∀ t, Layout (D t)) (hasher : WordHasher)

namespace Stash

section Handles

variable (source : Stash TypeId)
  (copy : (s : Shape TypeId) → s.Val → Stash TypeId → Option (s.Val × Stash TypeId))

def copyPtr (t : TypeId) (index : EntryIndex) (target : Stash TypeId) :
    Option (StoredIndex × Stash TypeId) := do
  let value ← source.readPtr (stashTypes L) t index
  let (copied, target) ← copy (D t) value target
  let (index, target) ← target.alloc (stashTypes L) hasher.finish t copied
  return (← index.stored, target)

def copySlice (t : TypeId) (index : EntryIndex) (target : Stash TypeId) :
    Option (StoredIndex × Stash TypeId) := do
  let values ← source.readSlice (stashTypes L) t index
  let (copied, target) ← copyAll (copy (D t)) values target
  let (index, target) ← target.allocSlice (stashTypes L) hasher.finish t copied
  return (← index.stored, target)

end Handles

/-- Copy a value with at most `depth` handles one inside the other. -/
def stashCopy (source : Stash TypeId) :
    Nat → (s : Shape TypeId) → s.Val → Stash TypeId → Option (s.Val × Stash TypeId)
  | 0 => fun s => s.stashCopy (fun _ _ _ => none) fun _ _ _ => none
  | depth + 1 => fun s =>
      s.stashCopy (source.copyPtr L hasher (stashCopy source depth))
        (source.copySlice L hasher (stashCopy source depth))

end Stash

def Stashed.copyInto (depth : Nat) {s : Shape TypeId} (stashed : Stashed s)
    (target : Stash TypeId) : Option (s.Val × Stash TypeId) :=
  stashed.stash.stashCopy L hasher depth s stashed.root target

/-! ### Storing a tree -/

namespace Tree

mutual

/-- Allocate a tree of the shape, children first. -/
def store : Tree → (s : Shape TypeId) → Stash TypeId → Option (s.Val × Stash TypeId)
  | scalar _ n, .scalar width, target =>
      if h : n < 256 ^ width then some ((⟨n, h⟩ : Fin (256 ^ width)), target) else none
  | unit, .unit, target => some ((), target)
  | node child, .ptr t, target => do
      let (value, target) ← child.store (D t) target
      let (index, target) ← target.alloc (stashTypes L) hasher.finish t value
      return (← index.stored, target)
  | slice items, .slice t, target => do
      let (values, target) ← items.storeAll (D t) target
      let (index, target) ← target.allocSlice (stashTypes L) hasher.finish t values
      return (← index.stored, target)
  | absent, .option _, target => some (none, target)
  | present t, .option s, target => (t.store s target).map fun r => (some r.1, r.2)
  | field t rest, .field s s', target => do
      let (value, target) ← t.store s target
      let (value', target) ← rest.store s' target
      return ((value, value'), target)
  | variant _ i t, .variants _ count body, target =>
      if h : i < count then
        (t.store (body ⟨i, h⟩) target).map fun r => (⟨⟨i, h⟩, r.1⟩, r.2)
      else none
  | _, _, _ => none

/-- Allocate what the elements of a slice point to. -/
def storeAll : Tree → (s : Shape TypeId) → Stash TypeId → Option (List s.Val × Stash TypeId)
  | nil, _, target => some ([], target)
  | cons t rest, s, target => do
      let (value, target) ← t.store s target
      let (values, target) ← rest.storeAll s target
      return (value :: values, target)
  | _, _, _ => none

end

end Tree

open Stash

variable {L hasher}

/-- Copying a value stores its tree, when copying behind a handle does. -/
theorem Shape.stashCopy_eq
    {onPtr onSlice : TypeId → EntryIndex → Stash TypeId → Option (StoredIndex × Stash TypeId)}
    {ptrTree sliceTree : TypeId → EntryIndex → Option Tree}
    (hptr : ∀ t i target, onPtr t i target =
      (ptrTree t i).bind fun c => c.store L hasher (.ptr t) target)
    (hslice : ∀ t i target, onSlice t i target =
      (sliceTree t i).bind fun c => c.store L hasher (.slice t) target) :
    ∀ {s : Shape TypeId} (v : s.Val) (target : Stash TypeId),
      s.stashCopy onPtr onSlice v target =
        (s.treeWith ptrTree sliceTree v).bind fun c => c.store L hasher s target := by
  intro s
  induction s with
  | scalar width =>
      intro v target
      have hlt := (show Fin (256 ^ width) from v).2
      show _ = dite _ _ _
      rw [dif_pos hlt]
      rfl
  | unit => exact fun v target => rfl
  | ptr t => exact fun v target => hptr t _ target
  | slice t => exact fun v target => hslice t _ target
  | option s ih =>
      intro v target
      cases v with
      | none => rfl
      | some v =>
          show (s.stashCopy onPtr onSlice v target).map _ =
            ((s.treeWith ptrTree sliceTree v).map Tree.present).bind _
          rw [ih]
          cases s.treeWith ptrTree sliceTree v <;> rfl
  | field s rest ih ih' =>
      rintro ⟨v, w⟩ target
      show (s.stashCopy onPtr onSlice v target).bind _ =
        ((s.treeWith ptrTree sliceTree v).bind _).bind _
      rw [ih]
      cases hv : s.treeWith ptrTree sliceTree v with
      | none => rfl
      | some c =>
          -- following the handles of the rest changes nothing, so it may come first
          simp only [Option.bind_some]
          cases hw : rest.treeWith ptrTree sliceTree w with
          | none =>
              cases hstore : c.store L hasher s target with
              | none => rfl
              | some r => simp only [Option.bind_some, ih', hw]; rfl
          | some c' =>
              cases hstore : c.store L hasher s target with
              | none => simp [Tree.store, hstore]
              | some r => simp [Tree.store, hstore, ih', hw]
  | variants tag count body ih =>
      rintro ⟨i, v⟩ target
      show ((body i).stashCopy onPtr onSlice v target).map _ =
        (((body i).treeWith ptrTree sliceTree v).map _).bind _
      rw [ih]
      cases (body i).treeWith ptrTree sliceTree v with
      | none => rfl
      | some c =>
          show _ = dite _ _ _
          rw [dif_pos i.2]
          rfl

/-- The copies of some values store the trees of all of them. -/
theorem copyAll_eq {s : Shape TypeId} {copy : s.Val → Stash TypeId → Option (s.Val × Stash TypeId)}
    {tree : s.Val → Option Tree}
    (h : ∀ v target, copy v target = (tree v).bind fun c => c.store L hasher s target) :
    ∀ (vs : List s.Val) (target : Stash TypeId), copyAll copy vs target =
      (vs.mapM tree).bind fun cs => (cs.foldr Tree.cons .nil).storeAll L hasher s target := by
  intro vs
  induction vs with
  | nil => exact fun target => rfl
  | cons v vs ih =>
      intro target
      rw [List.mapM_cons, copyAll, h]
      cases hv : tree v with
      | none => rfl
      | some c =>
          cases hvs : vs.mapM tree with
          | none =>
              cases hstore : c.store L hasher s target with
              | none => simp [hstore]
              | some r => simp [hstore, ih, hvs]
          | some cs =>
              cases hstore : c.store L hasher s target with
              | none => simp [Tree.storeAll, hstore]
              | some r => simp [Tree.storeAll, hstore, ih, hvs]

/-- To copy is to unfold and to store. -/
theorem Stash.stashCopy_eq (source : Stash TypeId) (depth : Nat) : ∀ (s : Shape TypeId)
    (v : s.Val) (target : Stash TypeId), source.stashCopy L hasher depth s v target =
      (source.treeOf L depth s v).bind fun c => c.store L hasher s target := by
  induction depth with
  | zero =>
      intro s v target
      refine Shape.stashCopy_eq ?_ ?_ v target
      · exact fun _ _ _ => rfl
      · exact fun _ _ _ => rfl
  | succ depth ih =>
      intro s v target
      refine Shape.stashCopy_eq (fun t i target => ?_) (fun t i target => ?_) v target
      · rw [copyPtr, nodeAt]
        cases source.readPtr (stashTypes L) t i with
        | none => rfl
        | some value =>
            refine (congrArg (Option.bind · _) (ih (D t) value target)).trans ?_
            show _ = ((source.treeOf L depth (D t) value).bind _).bind _
            cases source.treeOf L depth (D t) value <;> rfl
      · rw [copySlice, sliceAt]
        cases source.readSlice (stashTypes L) t i with
        | none => rfl
        | some values =>
            refine (congrArg (Option.bind · _) (copyAll_eq (ih (D t)) values target)).trans ?_
            show _ = ((List.mapM (source.treeOf L depth (D t)) values).bind _).bind _
            cases List.mapM (source.treeOf L depth (D t)) values <;> rfl

/-! ### Room -/

/-- The bytes of some values, with the padding before them. -/
def entryRoom (τ : StashType) (count : Nat) : Nat := max τ.align 4 - 1 + count * τ.size

namespace Tree

/-- How many handles a tree has. -/
def handles : Tree → Nat
  | scalar _ _ | unit | absent | nil => 0
  | node child | slice child => child.handles + 1
  | present t | variant _ _ t => t.handles
  | field t rest | cons t rest => t.handles + rest.handles

/-- How many handles are one inside the other. -/
def depth : Tree → Nat
  | scalar _ _ | unit | absent | nil => 0
  | node child | slice child => child.depth + 1
  | present t | variant _ _ t => t.depth
  | field t rest | cons t rest => max t.depth rest.depth

/-- The lengths of slices fit into 32 bits. -/
def Short : Tree → Prop
  | scalar _ _ | unit | absent | nil => True
  | node t | present t | variant _ _ t => t.Short
  | slice items => items.count < 2 ^ 32 ∧ items.Short
  | field t rest | cons t rest => t.Short ∧ rest.Short

variable (L)

mutual

/-- How many bytes storing a tree adds at most. -/
def room : Tree → Shape TypeId → Nat
  | node child, .ptr t => child.room (D t) + entryRoom (stashTypes L t) 1
  | slice items, .slice t => items.roomAll (D t) + entryRoom (stashTypes L t) items.count
  | present t, .option s => t.room s
  | field t rest, .field s s' => t.room s + rest.room s'
  | variant _ i t, .variants _ count body => if h : i < count then t.room (body ⟨i, h⟩) else 0
  | _, _ => 0

def roomAll : Tree → Shape TypeId → Nat
  | cons t rest, s => t.room s + rest.roomAll s
  | _, _ => 0

end

end Tree

namespace Stash

variable {T : TypeId → StashType} {finish : List UInt64 → UInt64} {stash stash' : Stash TypeId}
  {t : TypeId} {hash : UInt64} {index : EntryIndex} {same : StashEntry TypeId → Option Bool}

omit [DecidableEq TypeId] in
theorem pushRaw_room {values : List (T t).Val}
    (h : stash.pushRaw T t values hash = some (index, stash')) :
    stash'.buf.bytes.length ≤ stash.buf.bytes.length + entryRoom (T t) values.length ∧
      stash'.entries.length = stash.entries.length + 1 := by
  obtain ⟨i, -, hr⟩ := Option.bind_eq_some_iff.mp h
  obtain ⟨-, rfl⟩ := Prod.mk.inj (Option.some.inj hr)
  refine ⟨?_, List.length_append⟩
  have hpadding : wrappingNeg stash.buf.bytes.length &&& (max (T t).align 4 - 1) ≤
    max (T t).align 4 - 1 := Nat.and_le_right
  have hvalues : (values.flatMap (T t).encode).length = values.length * (T t).size :=
    length_encodeAll values
  simp only [AlignedBuf.extendFromSlice, List.length_append, AlignedBuf.length_resizeZeroed,
    hvalues, entryRoom]
  omega

/-- Storing contents takes at most their room and one entry. -/
theorem intern_room {values : List (T t).Val}
    (h : stash.intern T t values same hash = some (index, stash')) :
    stash'.buf.bytes.length ≤ stash.buf.bytes.length + entryRoom (T t) values.length ∧
      stash'.entries.length ≤ stash.entries.length + 1 := by
  obtain ⟨slot, -, hr⟩ := Option.bind_eq_some_iff.mp h
  cases slot with
  | occupied i =>
      obtain ⟨-, rfl⟩ := Prod.mk.inj (Option.some.inj hr)
      exact ⟨Nat.le_add_right _ _, Nat.le_add_right _ _⟩
  | vacant k =>
      obtain ⟨⟨i, u⟩, hpush, hr⟩ := Option.bind_eq_some_iff.mp hr
      obtain ⟨-, rfl⟩ := Prod.mk.inj (Option.some.inj hr)
      obtain ⟨hbuf, hentries⟩ := pushRaw_room hpush
      exact ⟨hbuf, hentries.le⟩

end Stash

/-! ### Trees in stashes that grow -/

variable {source stash stash' : Stash TypeId} {cs cs' : List (Content (stashTypes L))}

omit [DecidableEq TypeId] in
theorem Shape.treeWith_congr {ptrTree ptrTree' sliceTree sliceTree' : TypeId → EntryIndex →
    Option Tree} : ∀ {s : Shape TypeId} {v : s.Val},
    s.Points (fun t i => ptrTree t i = ptrTree' t i) (fun t i => sliceTree t i = sliceTree' t i) v →
      s.treeWith ptrTree sliceTree v = s.treeWith ptrTree' sliceTree' v := by
  intro s
  induction s with
  | scalar | unit => exact fun _ => rfl
  | ptr t => exact fun h => h
  | slice t => exact fun h => h
  | option s ih =>
      intro v h
      cases v with
      | none => rfl
      | some v => exact congrArg (Option.map Tree.present) (ih (h v rfl))
  | field s rest ih ih' =>
      rintro ⟨v, w⟩ ⟨hv, hw⟩
      show (s.treeWith ptrTree sliceTree v).bind _ = (s.treeWith ptrTree' sliceTree' v).bind _
      rw [ih hv, ih' hw]
  | variants tag count body ih =>
      rintro ⟨i, v⟩ h
      exact congrArg (Option.map (Tree.variant tag i)) (ih i h)

theorem mapM_eq_of_forall {α β : Type} {f g : α → Option β} {xs : List α}
    (h : ∀ x ∈ xs, f x = g x) : xs.mapM f = xs.mapM g := by
  induction xs with
  | nil => rfl
  | cons x xs ih =>
      obtain ⟨hx, hxs⟩ := List.forall_mem_cons.mp h
      rw [List.mapM_cons, List.mapM_cons, hx, ih hxs]

theorem mapM_isSome {α β : Type} {f : α → Option β} {xs : List α}
    (h : ∀ x ∈ xs, (f x).isSome) : (xs.mapM f).isSome := by
  induction xs with
  | nil => rfl
  | cons x xs ih =>
      obtain ⟨hx, hxs⟩ := List.forall_mem_cons.mp h
      obtain ⟨y, hy⟩ := Option.isSome_iff_exists.mp hx
      obtain ⟨ys, hys⟩ := Option.isSome_iff_exists.mp (ih hxs)
      rw [List.mapM_cons, hy, hys]
      rfl

/-- A value keeps its tree. -/
theorem Kept.treeOf_eq (h : Kept hasher stash cs) (h' : Kept hasher stash' cs')
    (hpre : cs <+: cs') (depth : Nat) : ∀ {n : Nat} {s : Shape TypeId} {v : s.Val},
    s.Below (StoredAs hasher cs) (StoredAsSlice hasher cs) n v →
      stash'.treeOf L depth s v = stash.treeOf L depth s v := by
  obtain ⟨more, rfl⟩ := hpre
  induction depth with
  | zero => exact fun _ => rfl
  | succ depth ih =>
      intro n s v hv
      refine Shape.treeWith_congr (hv.imp ?_ ?_)
      · rintro t i ⟨-, w, hw⟩
        obtain ⟨-, -, -, hread⟩ := h.sound.ptr hw
        obtain ⟨-, -, -, hread'⟩ := h'.sound.ptr (hw.append more)
        rw [nodeAt, nodeAt, hread, hread']
        exact congrArg (Option.bind · _) (ih (h.sound.ptr_below hw))
      · rintro t i ⟨-, ws, hws⟩
        obtain ⟨-, -, -, -, hread⟩ := h.sound.slice hws
        obtain ⟨-, -, -, -, hread'⟩ := h'.sound.slice (hws.append more)
        rw [sliceAt, sliceAt, hread, hread']
        refine congrArg (Option.bind · _) (mapM_eq_of_forall ?_)
        exact fun w hw => ih (h.sound.slice_below hws w hw)

/-! ### Allocating -/

variable (hasher) in
/-- A table of contents that has grown by so many bytes and entries at most. -/
structure Grown (room handles : Nat) (stash : Stash TypeId) (cs : List (Content (stashTypes L)))
    (stash' : Stash TypeId) (cs' : List (Content (stashTypes L))) : Prop where
  kept : Kept hasher stash' cs'
  contents : cs <+: cs'
  buf : stash'.buf.bytes.length ≤ stash.buf.bytes.length + room
  entries : stash'.entries.length ≤ stash.entries.length + handles

/-- There is room for so many bytes and entries. -/
def Stash.Room (stash : Stash TypeId) (room handles : Nat) : Prop :=
  stash.buf.bytes.length + room ≤ 2 ^ 32 ∧ stash.entries.length + handles < 2 ^ 32

variable {room room' handles handles' : Nat} {t : TypeId}

omit [DecidableEq TypeId] in
theorem Grown.refl (h : Kept hasher stash cs) : Grown hasher 0 0 stash cs stash cs :=
  ⟨h, List.prefix_refl _, Nat.le_refl _, Nat.le_refl _⟩

omit [DecidableEq TypeId] in
theorem Grown.trans {stash'' : Stash TypeId} {cs'' : List (Content (stashTypes L))}
    (h : Grown hasher room handles stash cs stash' cs')
    (h' : Grown hasher room' handles' stash' cs' stash'' cs'') :
    Grown hasher (room + room') (handles + handles') stash cs stash'' cs'' where
  kept := h'.kept
  contents := h.contents.trans h'.contents
  buf := by
    have := h.buf
    have := h'.buf
    omega
  entries := by
    have := h.entries
    have := h'.entries
    omega

omit [DecidableEq TypeId] in
theorem Grown.room_left (h : Grown hasher room handles stash cs stash' cs')
    (hroom : stash.Room (room + room') (handles + handles')) : stash'.Room room' handles' := by
  obtain ⟨hbuf, hentries⟩ := hroom
  have := h.buf
  have := h.entries
  constructor <;> omega

omit [DecidableEq TypeId] in
theorem Stash.Room.left (h : stash.Room (room + room') (handles + handles')) :
    stash.Room room handles := by
  obtain ⟨hbuf, hentries⟩ := h
  constructor <;> omega

omit [DecidableEq TypeId] in
/-- A value that points to entries can be hashed. -/
theorem Kept.hashes (h : Kept hasher stash cs) {s : Shape TypeId} {v : s.Val}
    (hv : s.Below (StoredAs hasher cs) (StoredAsSlice hasher cs) cs.length v) :
    (s.stashHash (internHasher stash.inlineHashes) v []).isSome := by
  have hindex : ∀ (i : EntryIndex) (words words' : List UInt64), i < cs.length → ∃ k k',
      stash.inlineHashes[i]?.map (fun hash => words ++ [hash]) = some k ∧
        stash.inlineHashes[i]?.map (fun hash => words' ++ [hash]) = some k' ∧ True := by
    intro i words words' hi
    have hlen : i < stash.inlineHashes.length := by
      rw [h.holds.inlineHashes, List.length_map]
      exact hi
    rw [List.getElem?_eq_getElem hlen]
    exact ⟨_, _, rfl, rfl, trivial⟩
  obtain ⟨k, -, hk, -⟩ := @Shape.stashHash_simulates TypeId _ _ _ _
    (internHasher stash.inlineHashes) (internHasher stash.inlineHashes) (fun _ _ => True)
    (fun _ _ _ _ _ => trivial) (fun t i w w' hi _ => hindex i w w' hi.1)
    (fun t i w w' hi _ => hindex i w w' hi.1) s v [] [] hv trivial
  rw [hk]
  rfl

theorem Kept.alloc (h : Kept hasher stash cs) {v : (D t).Val}
    (hv : (D t).Below (StoredAs hasher cs) (StoredAsSlice hasher cs) cs.length v)
    (hroom : stash.Room (entryRoom (stashTypes L t) 1) 1) :
    ∃ index stash' cs', stash.alloc (stashTypes L) hasher.finish t v = some (index, stash') ∧
      Grown hasher (entryRoom (stashTypes L t) 1) 1 stash cs stash' cs' ∧
      StoredAs hasher cs' t index v := by
  have hreads : Op.Reads hasher.finish stash (.alloc t v : Op (stashTypes L)) := h.hashes hv
  obtain ⟨⟨handle, stash'⟩, hstep⟩ :=
    Option.isSome_iff_exists.mp (h.holds.step_isSome h.fits hreads hroom.2)
  obtain ⟨cs', hinterned⟩ := h.holds.step h.fits hstep
  obtain ⟨⟨index, u⟩, halloc, hr⟩ := Option.bind_eq_some_iff.mp hstep
  obtain ⟨rfl, rfl⟩ := Prod.mk.inj (Option.some.inj hr)
  obtain ⟨words, -, hintern⟩ := Option.bind_eq_some_iff.mp halloc
  obtain ⟨hbuf, hentries⟩ := intern_room hintern
  have hkept := h.interned hinterned (hbuf.trans hroom.1) (by decide : 1 < 2 ^ 32) hv
  exact ⟨index, u, cs', halloc, ⟨hkept, hinterned.contents, hbuf, hentries⟩, hinterned.names⟩

theorem Kept.allocSlice (h : Kept hasher stash cs) {vs : List (D t).Val}
    (hvs : ∀ v ∈ vs, (D t).Below (StoredAs hasher cs) (StoredAsSlice hasher cs) cs.length v)
    (hlen : vs.length < 2 ^ 32) (hroom : stash.Room (entryRoom (stashTypes L t) vs.length) 1) :
    ∃ index stash' cs',
      stash.allocSlice (stashTypes L) hasher.finish t vs = some (index, stash') ∧
      Grown hasher (entryRoom (stashTypes L t) vs.length) 1 stash cs stash' cs' ∧
      StoredAsSlice hasher cs' t index vs := by
  have hwords : (List.mapM ((stashTypes L t).stashHash stash.inlineHashes) vs).isSome :=
    mapM_isSome fun v hv => h.hashes (hvs v hv)
  have hreads : Op.Reads hasher.finish stash (.allocSlice t vs : Op (stashTypes L)) := by
    obtain ⟨words, hwords⟩ := Option.isSome_iff_exists.mp hwords
    show ((List.mapM ((stashTypes L t).stashHash stash.inlineHashes) vs).bind _).isSome
    rw [hwords]
    rfl
  obtain ⟨⟨handle, stash'⟩, hstep⟩ :=
    Option.isSome_iff_exists.mp (h.holds.step_isSome h.fits hreads hroom.2)
  obtain ⟨cs', hinterned⟩ := h.holds.step h.fits hstep
  obtain ⟨⟨index, u⟩, halloc, hr⟩ := Option.bind_eq_some_iff.mp hstep
  obtain ⟨rfl, rfl⟩ := Prod.mk.inj (Option.some.inj hr)
  obtain ⟨words, -, hintern⟩ := Option.bind_eq_some_iff.mp halloc
  obtain ⟨hbuf, hentries⟩ := intern_room hintern
  have hkept := h.interned hinterned (hbuf.trans hroom.1) hlen hvs
  exact ⟨index, u, cs', halloc, ⟨hkept, hinterned.contents, hbuf, hentries⟩, hinterned.names⟩

/-! ### What storing a tree leaves -/

theorem EntryIndex.stored_eq {index : EntryIndex} (h : index + 1 < 2 ^ 32) :
    index.stored = some ⟨index, h⟩ := dif_pos h

omit [DecidableEq TypeId] in
theorem StoredAs.lt {i : EntryIndex} {v : (D t).Val} (h : StoredAs hasher cs t i v) :
    i < cs.length := by
  obtain ⟨hash, k, -, hc⟩ := h
  exact (List.getElem?_eq_some_iff.mp hc).1

omit [DecidableEq TypeId] in
theorem StoredAsSlice.lt {i : EntryIndex} {vs : List (D t).Val}
    (h : StoredAsSlice hasher cs t i vs) : i < cs.length := by
  obtain ⟨hash, k, -, hc⟩ := h
  exact (List.getElem?_eq_some_iff.mp hc).1

section TreeOf

variable {depth : Nat} {s s' : Shape TypeId} {c c' : Tree}

theorem Stash.treeOf_some {w : s.Val} (h : stash.treeOf L depth s w = some c) :
    stash.treeOf L depth (.option s) (some w) = some (.present c) := by
  cases depth <;> exact Option.map_eq_some_iff.mpr ⟨c, h, rfl⟩

theorem Stash.treeOf_field {w : s.Val} {w' : s'.Val} (h : stash.treeOf L depth s w = some c)
    (h' : stash.treeOf L depth s' w' = some c') :
    stash.treeOf L depth (.field s s') (w, w') = some (.field c c') := by
  cases depth <;>
    exact Option.bind_eq_some_iff.mpr ⟨c, h, Option.bind_eq_some_iff.mpr ⟨c', h', rfl⟩⟩

theorem Stash.treeOf_variant {tag count : Nat} {body : Fin count → Shape TypeId} {i : Fin count}
    {w : (body i).Val} (h : stash.treeOf L depth (body i) w = some c) :
    stash.treeOf L depth (.variants tag count body) ⟨i, w⟩ = some (.variant tag i c) := by
  cases depth <;> exact Option.map_eq_some_iff.mpr ⟨c, h, rfl⟩

end TreeOf

omit [DecidableEq TypeId] in
/-- Entries have numbers that can be stored. -/
theorem Kept.stored (h : Kept hasher stash cs) {i : EntryIndex} (hi : i < cs.length) :
    ∃ index : StoredIndex, EntryIndex.stored i = some index ∧ index.1 = i :=
  ⟨_, EntryIndex.stored_eq (Nat.lt_of_le_of_lt hi h.holds.length), rfl⟩

variable (L hasher) in
/-- Storing the tree gives a value that unfolds to it. -/
def Tree.Storable (c : Tree) : Prop :=
  ∀ (s : Shape TypeId) (stash : Stash TypeId) (cs : List (Content (stashTypes L))),
    Kept hasher stash cs → c.HasShape D s → c.Short → stash.Room (c.room L s) c.handles →
      ∃ v stash' cs', c.store L hasher s stash = some (v, stash') ∧
        Grown hasher (c.room L s) c.handles stash cs stash' cs' ∧
        s.Below (StoredAs hasher cs') (StoredAsSlice hasher cs') cs'.length v ∧
        stash'.treeOf L c.depth s v = some c

variable (L hasher) in
def Tree.AllStorable (c : Tree) : Prop :=
  ∀ (s : Shape TypeId) (stash : Stash TypeId) (cs : List (Content (stashTypes L))),
    Kept hasher stash cs → c.HaveShape D s → c.Short → stash.Room (c.roomAll L s) c.handles →
      ∃ vs stash' cs' trees, c.storeAll L hasher s stash = some (vs, stash') ∧
        Grown hasher (c.roomAll L s) c.handles stash cs stash' cs' ∧
        (∀ v ∈ vs, s.Below (StoredAs hasher cs') (StoredAsSlice hasher cs') cs'.length v) ∧
        vs.length = c.count ∧ vs.mapM (stash'.treeOf L c.depth s) = some trees ∧
        trees.foldr Tree.cons .nil = c

omit [DecidableEq TypeId] in
/-- A value of a smaller stash, in the larger one. -/
theorem Grown.below (h : Grown hasher room handles stash cs stash' cs') {s : Shape TypeId}
    {v : s.Val} (hv : s.Below (StoredAs hasher cs) (StoredAsSlice hasher cs) cs.length v) :
    s.Below (StoredAs hasher cs') (StoredAsSlice hasher cs') cs'.length v :=
  (below_append hv h.contents).mono h.contents.length_le

theorem Tree.storable (c : Tree) : c.Storable L hasher ∧ c.AllStorable L hasher := by
  induction c with
  | scalar width n =>
      refine ⟨fun s stash cs hkept hshape _ _ => ?_, fun s _ _ _ h => h.elim⟩
      cases s <;> simp only [HasShape] at hshape
      obtain ⟨rfl, hn⟩ := hshape
      exact ⟨_, stash, cs, dif_pos hn, .refl hkept, trivial, rfl⟩
  | unit =>
      refine ⟨fun s stash cs hkept hshape _ _ => ?_, fun s _ _ _ h => h.elim⟩
      cases s <;> simp only [HasShape] at hshape
      exact ⟨_, stash, cs, rfl, .refl hkept, trivial, rfl⟩
  | node child ih =>
      refine ⟨fun s stash cs hkept hshape hshort hroom => ?_, fun s _ _ _ h => h.elim⟩
      cases s <;> simp only [HasShape] at hshape
      rename_i t
      obtain ⟨w, stash₁, cs₁, hstore, hgrown, hbelow, htree⟩ :=
        ih.1 (D t) stash cs hkept hshape hshort hroom.left
      obtain ⟨i, stash₂, cs₂, halloc, hgrown', hstored⟩ :=
        hgrown.kept.alloc hbelow (hgrown.room_left hroom)
      obtain ⟨index, hindex, rfl⟩ := hgrown'.kept.stored hstored.lt
      refine ⟨index, stash₂, cs₂, ?_, hgrown.trans hgrown', ⟨hstored.lt, w, hstored⟩, ?_⟩
      · simp only [store, hstore, halloc, hindex, Option.bind_eq_bind, Option.bind_some]
        rfl
      · obtain ⟨-, -, -, hread⟩ := hgrown'.kept.sound.ptr hstored
        have htree' := hgrown.kept.treeOf_eq hgrown'.kept hgrown'.contents child.depth hbelow
        show stash₂.nodeAt L (stash₂.treeOf L child.depth) t index.1 = _
        rw [nodeAt, hread]
        show (stash₂.treeOf L child.depth (D t) w).bind _ = _
        rw [htree', htree]
        rfl
  | slice items ih =>
      refine ⟨fun s stash cs hkept hshape hshort hroom => ?_, fun s _ _ _ h => h.elim⟩
      cases s <;> simp only [HasShape] at hshape
      rename_i t
      obtain ⟨ws, stash₁, cs₁, trees, hstore, hgrown, hbelow, hcount, htrees, hfold⟩ :=
        ih.2 (D t) stash cs hkept hshape.2 hshort.2 hroom.left
      have hroom' := hgrown.room_left hroom
      rw [← hcount] at hroom'
      obtain ⟨i, stash₂, cs₂, halloc, hgrown', hstored⟩ :=
        hgrown.kept.allocSlice hbelow (hcount ▸ hshort.1) hroom'
      obtain ⟨index, hindex, rfl⟩ := hgrown'.kept.stored hstored.lt
      have htotal := hgrown.trans hgrown'
      rw [hcount] at htotal
      refine ⟨index, stash₂, cs₂, ?_, htotal, ⟨hstored.lt, ws, hstored⟩, ?_⟩
      · simp only [store, hstore, halloc, hindex, Option.bind_eq_bind, Option.bind_some]
        rfl
      · obtain ⟨-, -, -, -, hread⟩ := hgrown'.kept.sound.slice hstored
        have htrees' : ws.mapM (stash₂.treeOf L items.depth (D t)) = some trees :=
          (mapM_eq_of_forall fun w hw => hgrown.kept.treeOf_eq hgrown'.kept hgrown'.contents
            items.depth (hbelow w hw)).trans htrees
        show stash₂.sliceAt L (stash₂.treeOf L items.depth) t index.1 = _
        rw [sliceAt, hread]
        show (List.mapM (stash₂.treeOf L items.depth (D t)) ws).bind _ = _
        rw [htrees', ← hfold]
        rfl
  | absent =>
      refine ⟨fun s stash cs hkept hshape _ _ => ?_, fun s _ _ _ h => h.elim⟩
      cases s <;> simp only [HasShape] at hshape
      exact ⟨_, stash, cs, rfl, .refl hkept, by rintro _ ⟨⟩, rfl⟩
  | present c ih =>
      refine ⟨fun s stash cs hkept hshape hshort hroom => ?_, fun s _ _ _ h => h.elim⟩
      cases s <;> simp only [HasShape] at hshape
      rename_i s
      obtain ⟨w, stash₁, cs₁, hstore, hgrown, hbelow, htree⟩ :=
        ih.1 s stash cs hkept hshape hshort hroom
      refine ⟨some w, stash₁, cs₁, ?_, hgrown, ?_, ?_⟩
      · rw [store, hstore]
        rfl
      · intro w' hw'
        rwa [← Option.some.inj hw']
      · exact treeOf_some htree
  | field c rest ihc ihrest =>
      refine ⟨fun s stash cs hkept hshape hshort hroom => ?_, fun s _ _ _ h => h.elim⟩
      cases s <;> simp only [HasShape] at hshape
      rename_i s s'
      obtain ⟨w, stash₁, cs₁, hstore, hgrown, hbelow, htree⟩ :=
        ihc.1 s stash cs hkept hshape.1 hshort.1 hroom.left
      obtain ⟨w', stash₂, cs₂, hstore', hgrown', hbelow', htree'⟩ :=
        ihrest.1 s' stash₁ cs₁ hgrown.kept hshape.2 hshort.2 (hgrown.room_left hroom)
      refine ⟨(w, w'), stash₂, cs₂, ?_, hgrown.trans hgrown',
        ⟨hgrown'.below hbelow, hbelow'⟩, ?_⟩
      · simp only [store, hstore, hstore', Option.bind_eq_bind, Option.bind_some]
        rfl
      · -- the first field keeps its tree while the second is stored
        have hleft : stash₂.treeOf L (max c.depth rest.depth) s w = some c := by
          rw [hgrown.kept.treeOf_eq hgrown'.kept hgrown'.contents _ hbelow]
          exact treeOf_mono (Nat.le_max_left _ _) s w c htree
        have hright : stash₂.treeOf L (max c.depth rest.depth) s' w' = some rest :=
          treeOf_mono (Nat.le_max_right _ _) s' w' rest htree'
        exact treeOf_field hleft hright
  | variant tag i c ih =>
      refine ⟨fun s stash cs hkept hshape hshort hroom => ?_, fun s _ _ _ h => h.elim⟩
      cases s <;> simp only [HasShape] at hshape
      rename_i tag' count body
      obtain ⟨rfl, -, hi, hshape⟩ := hshape
      have hroomEq : (variant tag i c).room L (.variants tag count body) = c.room L (body ⟨i, hi⟩) :=
        dif_pos hi
      rw [hroomEq] at hroom ⊢
      obtain ⟨w, stash₁, cs₁, hstore, hgrown, hbelow, htree⟩ :=
        ih.1 (body ⟨i, hi⟩) stash cs hkept hshape hshort hroom
      refine ⟨⟨⟨i, hi⟩, w⟩, stash₁, cs₁, ?_, hgrown, hbelow, ?_⟩
      · rw [store, dif_pos hi, hstore]
        rfl
      · exact treeOf_variant htree
  | nil =>
      refine ⟨fun s _ _ _ h => ?_, fun s stash cs hkept _ _ _ => ?_⟩
      · cases s <;> exact h.elim
      · exact ⟨[], stash, cs, [], rfl, .refl hkept, by rintro _ ⟨⟩, rfl, rfl, rfl⟩
  | cons c rest ihc ihrest =>
      refine ⟨fun s _ _ _ h => ?_, fun s stash cs hkept hshape hshort hroom => ?_⟩
      · cases s <;> exact h.elim
      · obtain ⟨w, stash₁, cs₁, hstore, hgrown, hbelow, htree⟩ :=
          ihc.1 s stash cs hkept hshape.1 hshort.1 hroom.left
        obtain ⟨ws, stash₂, cs₂, trees, hstore', hgrown', hbelow', hcount, htrees, hfold⟩ :=
          ihrest.2 s stash₁ cs₁ hgrown.kept hshape.2 hshort.2 (hgrown.room_left hroom)
        refine ⟨w :: ws, stash₂, cs₂, c :: trees, ?_, hgrown.trans hgrown',
          List.forall_mem_cons.mpr ⟨hgrown'.below hbelow, hbelow'⟩, congrArg (· + 1) hcount, ?_,
          congrArg (Tree.cons c) hfold⟩
        · simp only [storeAll, hstore, hstore', Option.bind_eq_bind, Option.bind_some]
          rfl
        · have hleft : stash₂.treeOf L (cons c rest).depth s w = some c := by
            rw [hgrown.kept.treeOf_eq hgrown'.kept hgrown'.contents _ hbelow]
            exact treeOf_mono (Nat.le_max_left _ _) s w c htree
          have hright : ws.mapM (stash₂.treeOf L (cons c rest).depth s) = some trees :=
            mapM_some_mono (fun w c => treeOf_mono (Nat.le_max_right _ _) s w c) htrees
          rw [List.mapM_cons, hleft, hright]
          rfl

/-! ### Trees that are read -/

omit [DecidableEq TypeId] in
/-- What holds of the trees behind handles and of what is made of such trees. -/
theorem Shape.treeWith_induct {P : Tree → Prop} {ptrTree sliceTree : TypeId → EntryIndex →
    Option Tree} (hscalar : ∀ width n, P (.scalar width n)) (hunit : P .unit) (habsent : P .absent)
    (hpresent : ∀ c, P c → P (.present c)) (hfield : ∀ c c', P c → P c' → P (.field c c'))
    (hvariant : ∀ tag i c, P c → P (.variant tag i c))
    (hptr : ∀ t i c, ptrTree t i = some c → P c)
    (hslice : ∀ t i c, sliceTree t i = some c → P c) :
    ∀ {s : Shape TypeId} {v : s.Val} {c : Tree}, s.treeWith ptrTree sliceTree v = some c → P c := by
  intro s
  induction s with
  | scalar width =>
      intro v c h
      obtain rfl := Option.some.inj h
      exact hscalar _ _
  | unit =>
      intro v c h
      obtain rfl := Option.some.inj h
      exact hunit
  | ptr t => exact fun h => hptr t _ _ h
  | slice t => exact fun h => hslice t _ _ h
  | option s ih =>
      intro v c h
      cases v with
      | none =>
          obtain rfl := Option.some.inj h
          exact habsent
      | some v =>
          obtain ⟨c, hc, rfl⟩ := Option.map_eq_some_iff.mp h
          exact hpresent c (ih hc)
  | field s rest ih ih' =>
      rintro ⟨v, w⟩ c h
      obtain ⟨c, hc, h⟩ := Option.bind_eq_some_iff.mp h
      obtain ⟨c', hc', h⟩ := Option.bind_eq_some_iff.mp h
      obtain rfl := Option.some.inj h
      exact hfield c c' (ih hc) (ih' hc')
  | variants tag count body ih =>
      rintro ⟨i, v⟩ c h
      obtain ⟨c, hc, rfl⟩ := Option.map_eq_some_iff.mp h
      exact hvariant tag i c (ih i hc)

theorem mapM_forall {α β : Type} {f : α → Option β} {P : β → Prop} (h : ∀ a b, f a = some b → P b) :
    ∀ {xs : List α} {ys : List β}, xs.mapM f = some ys → ys.length = xs.length ∧ ∀ y ∈ ys, P y := by
  intro xs
  induction xs with
  | nil =>
      intro ys hys
      obtain rfl := Option.some.inj hys
      exact ⟨rfl, nofun⟩
  | cons x xs ih =>
      intro ys hys
      rw [List.mapM_cons] at hys
      obtain ⟨y, hy, hys⟩ := Option.bind_eq_some_iff.mp hys
      obtain ⟨rest, hrest, hys⟩ := Option.bind_eq_some_iff.mp hys
      obtain rfl := Option.some.inj hys
      obtain ⟨hlen, hall⟩ := ih hrest
      exact ⟨congrArg (· + 1) hlen, List.forall_mem_cons.mpr ⟨h x y hy, hall⟩⟩

theorem Tree.items_spec : ∀ {trees : List Tree}, (∀ c ∈ trees, c.Short) →
    (trees.foldr Tree.cons .nil).count = trees.length ∧ (trees.foldr Tree.cons .nil).Short := by
  intro trees
  induction trees with
  | nil => exact fun _ => ⟨rfl, trivial⟩
  | cons c trees ih =>
      intro h
      obtain ⟨hc, htrees⟩ := List.forall_mem_cons.mp h
      obtain ⟨hcount, hshort⟩ := ih htrees
      exact ⟨congrArg (· + 1) hcount, hc, hshort⟩

theorem Tree.items_depth {trees : List Tree} {n : Nat} (h : ∀ c ∈ trees, c.depth ≤ n) :
    (trees.foldr Tree.cons .nil).depth ≤ n := by
  induction trees with
  | nil => exact Nat.zero_le n
  | cons c trees ih =>
      obtain ⟨hc, htrees⟩ := List.forall_mem_cons.mp h
      exact Nat.max_le.mpr ⟨hc, ih htrees⟩

omit [DecidableEq TypeId] in
/-- A slice is read with a 32-bit length. -/
theorem AlignedBuf.readSlice_length {buf : AlignedBuf} {τ : StashType} {offset count : UInt32}
    {vs : List τ.Val} (h : buf.readSlice τ offset count = some vs) : vs.length < 2 ^ 32 := by
  rw [AlignedBuf.readSlice] at h
  split at h
  · obtain rfl := Option.some.inj h
    exact Nat.two_pow_pos 32
  · split at h
    · obtain rfl := Option.some.inj h
      rw [List.length_map, List.length_range]
      exact count.toNat_lt
    · cases h

theorem Stash.readSlice_length {vs : List (D t).Val} {i : EntryIndex}
    (h : stash.readSlice (stashTypes L) t i = some vs) : vs.length < 2 ^ 32 := by
  obtain ⟨e, -, h⟩ := Option.bind_eq_some_iff.mp h
  exact AlignedBuf.readSlice_length h

/-- What a value unfolds to within a depth has short slices and at most that depth. -/
theorem Stash.treeOf_spec (stash : Stash TypeId) (depth : Nat) :
    ∀ {s : Shape TypeId} {v : s.Val} {c : Tree}, stash.treeOf L depth s v = some c →
      c.Short ∧ c.depth ≤ depth := by
  have hfield : ∀ n (c c' : Tree), c.Short ∧ c.depth ≤ n → c'.Short ∧ c'.depth ≤ n →
      (Tree.field c c').Short ∧ (Tree.field c c').depth ≤ n :=
    fun n c c' h h' => ⟨⟨h.1, h'.1⟩, Nat.max_le.mpr ⟨h.2, h'.2⟩⟩
  induction depth with
  | zero =>
      intro s v c
      refine Shape.treeWith_induct (P := fun c => c.Short ∧ c.depth ≤ 0)
        (fun _ _ => ⟨trivial, Nat.le_refl _⟩) ⟨trivial, Nat.le_refl _⟩ ⟨trivial, Nat.le_refl _⟩
        (fun _ => id) (hfield 0) (fun _ _ _ => id) nofun nofun
  | succ depth ih =>
      intro s v c
      refine Shape.treeWith_induct (P := fun c => c.Short ∧ c.depth ≤ depth + 1)
        (fun _ _ => ⟨trivial, Nat.zero_le _⟩) ⟨trivial, Nat.zero_le _⟩ ⟨trivial, Nat.zero_le _⟩
        (fun _ => id) (hfield _) (fun _ _ _ => id) ?_ ?_
      · intro t i c hc
        obtain ⟨w, -, hc⟩ := Option.bind_eq_some_iff.mp hc
        obtain ⟨child, hchild, hc⟩ := Option.bind_eq_some_iff.mp hc
        obtain rfl := Option.some.inj hc
        exact ⟨(ih hchild).1, Nat.succ_le_succ (ih hchild).2⟩
      · intro t i c hc
        obtain ⟨ws, hread, hc⟩ := Option.bind_eq_some_iff.mp hc
        obtain ⟨trees, htrees, hc⟩ := Option.bind_eq_some_iff.mp hc
        obtain rfl := Option.some.inj hc
        obtain ⟨hlen, hall⟩ := mapM_forall (P := fun c => c.Short ∧ c.depth ≤ depth)
          (fun w c h => ih h) htrees
        obtain ⟨hcount, hshort⟩ := Tree.items_spec fun c hc => (hall c hc).1
        refine ⟨⟨?_, hshort⟩, Nat.succ_le_succ (Tree.items_depth fun c hc => (hall c hc).2)⟩
        rw [hcount, hlen]
        exact readSlice_length hread

/-! ### Storing again -/

section Again

variable {later : Stash TypeId} {more : List (Content (stashTypes L))}

/-- A value whose handles are found again is found again. -/
theorem Shape.store_treeWith {onPtr onSlice : TypeId → EntryIndex → Prop}
    {ptrTree sliceTree : TypeId → EntryIndex → Option Tree}
    (hptr : ∀ t (i : StoredIndex) c, onPtr t i.1 → ptrTree t i.1 = some c →
      c.store L hasher (.ptr t) later = some (i, later))
    (hslice : ∀ t (i : StoredIndex) c, onSlice t i.1 → sliceTree t i.1 = some c →
      c.store L hasher (.slice t) later = some (i, later)) :
    ∀ {s : Shape TypeId} {v : s.Val} {c : Tree}, s.Points onPtr onSlice v →
      s.treeWith ptrTree sliceTree v = some c → c.store L hasher s later = some (v, later) := by
  intro s
  induction s with
  | scalar width =>
      intro v c _ hc
      obtain rfl := Option.some.inj hc
      exact dif_pos (show Fin (256 ^ width) from v).2
  | unit =>
      intro v c _ hc
      obtain rfl := Option.some.inj hc
      rfl
  | ptr t => exact fun {v c} hv hc => hptr t _ c hv hc
  | slice t => exact fun {v c} hv hc => hslice t _ c hv hc
  | option s ih =>
      intro v c hv hc
      cases v with
      | none =>
          obtain rfl := Option.some.inj hc
          rfl
      | some v =>
          obtain ⟨c, htree, rfl⟩ := Option.map_eq_some_iff.mp hc
          rw [Tree.store, ih (hv v rfl) htree]
          rfl
  | field s rest ih ih' =>
      rintro ⟨v, w⟩ c ⟨hv, hw⟩ hc
      obtain ⟨c, htree, h⟩ := Option.bind_eq_some_iff.mp hc
      obtain ⟨c', htree', h⟩ := Option.bind_eq_some_iff.mp h
      obtain rfl := Option.some.inj h
      have hleft := ih hv htree
      have hright := ih' hw htree'
      simp only [Tree.store, hleft, hright, Option.bind_eq_bind, Option.bind_some]
      rfl
  | variants tag count body ih =>
      rintro ⟨i, v⟩ c hv hc
      obtain ⟨c, htree, rfl⟩ := Option.map_eq_some_iff.mp hc
      rw [Tree.store, dif_pos i.2, ih i hv htree]
      rfl

theorem Tree.storeAll_again {s : Shape TypeId} {tree : s.Val → Option Tree} : ∀ {vs : List s.Val}
    {trees : List Tree}, (∀ v ∈ vs, ∀ c, tree v = some c →
      c.store L hasher s later = some (v, later)) → vs.mapM tree = some trees →
      (trees.foldr Tree.cons .nil).storeAll L hasher s later = some (vs, later) := by
  intro vs
  induction vs with
  | nil =>
      intro trees _ htrees
      obtain rfl := Option.some.inj htrees
      rfl
  | cons v vs ih =>
      intro trees h htrees
      obtain ⟨hv, hvs⟩ := List.forall_mem_cons.mp h
      rw [List.mapM_cons] at htrees
      obtain ⟨c, hc, htrees⟩ := Option.bind_eq_some_iff.mp htrees
      obtain ⟨rest, hrest, htrees⟩ := Option.bind_eq_some_iff.mp htrees
      obtain rfl := Option.some.inj htrees
      have hleft := hv c hc
      have hright := ih hvs hrest
      simp only [List.foldr_cons, Tree.storeAll, hleft, hright, Option.bind_eq_bind,
        Option.bind_some]
      rfl

/-- Once stored, a tree is found at the same handles, whatever else was stored. -/
theorem Kept.store_again (h : Kept hasher stash cs) (hlater : later.Holds (cs ++ more))
    (hfits : later.Fits (cs ++ more)) (depth : Nat) : ∀ {n : Nat} {s : Shape TypeId} {v : s.Val}
    {c : Tree}, s.Below (StoredAs hasher cs) (StoredAsSlice hasher cs) n v →
      stash.treeOf L depth s v = some c → c.store L hasher s later = some (v, later) := by
  induction depth with
  | zero => exact fun hv hc => Shape.store_treeWith nofun nofun hv hc
  | succ depth ih =>
      intro n s v c hv hc
      refine Shape.store_treeWith ?_ ?_ hv hc
      · rintro t i c ⟨-, w, hw⟩ hc
        obtain ⟨-, -, -, hread⟩ := h.sound.ptr hw
        rw [nodeAt, hread] at hc
        obtain ⟨w', hw', hc⟩ := Option.bind_eq_some_iff.mp hc
        obtain rfl := Option.some.inj hw'
        obtain ⟨child, hchild, hc⟩ := Option.bind_eq_some_iff.mp hc
        obtain rfl := Option.some.inj hc
        have hchild := ih (h.sound.ptr_below hw) hchild
        have hstep := hlater.step_op hfits (hw.append more)
        obtain ⟨⟨index, u⟩, halloc, hr⟩ := Option.bind_eq_some_iff.mp hstep
        obtain ⟨hindex, rfl⟩ := Prod.mk.inj (Option.some.inj hr)
        obtain ⟨-, rfl, -⟩ := Handle.ptr.inj hindex
        simp only [Tree.store, hchild, halloc, EntryIndex.stored_eq i.2, Option.bind_eq_bind,
          Option.bind_some]
        rfl
      · rintro t i c ⟨-, ws, hws⟩ hc
        obtain ⟨-, -, -, -, hread⟩ := h.sound.slice hws
        rw [sliceAt, hread] at hc
        obtain ⟨ws', hws', hc⟩ := Option.bind_eq_some_iff.mp hc
        obtain rfl := Option.some.inj hws'
        obtain ⟨trees, htrees, hc⟩ := Option.bind_eq_some_iff.mp hc
        obtain rfl := Option.some.inj hc
        have hitems := Tree.storeAll_again (fun w hw c hc =>
          ih (h.sound.slice_below hws w hw) hc) htrees
        have hstep := hlater.step_op hfits (hws.append more)
        obtain ⟨⟨index, u⟩, halloc, hr⟩ := Option.bind_eq_some_iff.mp hstep
        obtain ⟨hindex, rfl⟩ := Prod.mk.inj (Option.some.inj hr)
        obtain ⟨-, rfl, -⟩ := Handle.slice.inj hindex
        simp only [Tree.store, hitems, halloc, EntryIndex.stored_eq i.2, Option.bind_eq_bind,
          Option.bind_some]
        rfl

end Again

/-! ### Copying a rooted value -/

variable (L) in
/-- There is room in the target for all that the root points to. -/
def RoomFor (source : Stash TypeId) {s : Shape TypeId} (root : s.Val) (target : Stash TypeId) :
    Prop :=
  ∀ depth c, source.treeOf L depth s root = some c → target.Room (c.room L s) c.handles

variable (L hasher) in
/-- What copying a rooted value should leave, in a target that gave out these handles. -/
structure Stashed.CopiesTo (digest : List UInt8 → Fingerprint) (depth : Nat) {s : Shape TypeId}
    (x : Stashed s) (handles : List (Handle (stashTypes L))) (target : Stash TypeId)
    (copied : s.Val) (target' : Stash TypeId) : Prop where
  result : x.copyInto L hasher depth target = some (copied, target')
  /-- The copy unfolds to the same tree. -/
  tree : ∃ c, x.stash.treeOf L depth s x.root = some c ∧ target'.treeOf L depth s copied = some c
  fingerprint : ∃ y, Stashed.new L digest depth target' copied = some y ∧
    y.fingerprint = x.fingerprint
  /-- Handles of the target keep their contents. -/
  reads : ∀ handle ∈ handles, handle.ReadsBack target ∧ handle.ReadsBack target'
  /-- Copying again, at once or after other operations, gives the same handles. -/
  again : ∀ ops handles' later,
    target'.run (stashTypes L) hasher.finish ops = some (handles', later) →
    later.buf.bytes.length ≤ 2 ^ 32 → (∀ handle ∈ handles', handle.length < 2 ^ 32) →
      x.copyInto L hasher depth later = some (copied, later)
  /-- A copy of a copy is the copy. -/
  via : ∀ handles' between, OwnedRun L hasher handles' between →
    (∀ handle ∈ handles', handle.length < 2 ^ 32) → RoomFor L x.stash x.root between →
      ∃ z : Stashed s, x.copyInto L hasher depth between = some (z.root, z.stash) ∧
        z.fingerprint = x.fingerprint ∧ z.copyInto L hasher depth target = some (copied, target')

/-- Storing a tree in the stash of an owned run. -/
theorem OwnedRun.store {handles : List (Handle (stashTypes L))} (h : OwnedRun L hasher handles stash)
    (hlen : ∀ handle ∈ handles, handle.length < 2 ^ 32) {s : Shape TypeId} {c : Tree}
    (hshape : c.HasShape D s) (hshort : c.Short) (hroom : stash.Room (c.room L s) c.handles) :
    ∃ v stash' cs cs', c.store L hasher s stash = some (v, stash') ∧ Kept hasher stash cs ∧
      Grown hasher (c.room L s) c.handles stash cs stash' cs' ∧
      (∀ handle ∈ handles, handle.Names hasher.finish cs) ∧
      s.Below (StoredAs hasher cs') (StoredAsSlice hasher cs') cs'.length v ∧
      stash'.treeOf L c.depth s v = some c := by
  have hbuf := Nat.le_trans (Nat.le_add_right _ _) hroom.1
  obtain ⟨cs, hkept, hnames⟩ := h.kept hbuf hlen
  obtain ⟨v, stash', cs', hstore, hgrown, hbelow, htree⟩ :=
    c.storable.1 s stash cs hkept hshape hshort hroom
  exact ⟨v, stash', cs, cs', hstore, hkept, hgrown, hnames, hbelow, htree⟩

variable {handles handles' : List (Handle (stashTypes L))} {target : Stash TypeId}

end Stash

/-! ### Words, copied -/

open Stash

/-- A stash that holds one other word. -/
theorem holds_other : ∃ stash, OwnedRun wordLayout fxHasher [.ptr () 0 (word 7)] stash ∧
    stash.buf.bytes.length = 8 ∧ stash.entries.length = 1 := by
  have hruns : (Stash.new.run (stashTypes wordLayout) fxHasher.finish
      [.alloc () (word 7)]).map (fun r => (r.1, r.2.buf.bytes.length, r.2.entries.length)) =
      some ([.ptr () 0 (word 7)], 8, 1) := by rfl
  obtain ⟨⟨handles, stash⟩, hrun, hr⟩ := Option.map_eq_some_iff.mp hruns
  obtain ⟨hhandles, hr⟩ := Prod.mk.inj hr
  obtain ⟨hbuf, hentries⟩ := Prod.mk.inj hr
  obtain rfl : handles = _ := hhandles
  refine ⟨stash, OwnedRun.new.run (fun op hop handles => ?_) hrun, hbuf, hentries⟩
  rw [List.mem_singleton.mp hop]
  exact wordOp_owned

/-- A stash with one slice of a word. -/
theorem holds_zero : ∃ stash, OwnedRun wordLayout fxHasher [.slice () 0 [zeroWord]] stash ∧
    stash.readSlice (stashTypes wordLayout) () 0 = some [zeroWord] := by
  have hruns : (Stash.new.run (stashTypes wordLayout) fxHasher.finish
      [.allocSlice () [zeroWord]]).map (fun r =>
        (r.1, r.2.readSlice (stashTypes wordLayout) () 0)) =
      some ([.slice () 0 [zeroWord]], some [zeroWord]) := by rfl
  obtain ⟨⟨handles, stash⟩, hrun, hr⟩ := Option.map_eq_some_iff.mp hruns
  obtain ⟨hhandles, hread⟩ := Prod.mk.inj hr
  obtain rfl : handles = _ := hhandles
  refine ⟨stash, OwnedRun.new.run (fun op hop handles => ?_) hrun, hread⟩
  rw [List.mem_singleton.mp hop]
  exact wordsOp_owned

/-- The tree of a slice of one word. -/
theorem treeOf_word {stash : Stash Unit} {i : StoredIndex} {n : UInt64}
    (hread : stash.readSlice (stashTypes wordLayout) () i.1 = some [word n]) (depth : Nat) :
    stash.treeOf wordLayout (depth + 1) (.slice ()) i =
      some (.slice (.cons (.scalar 8 (show Fin (256 ^ 8) from word n).val) .nil)) := by
  show stash.sliceAt wordLayout (stash.treeOf wordLayout depth) () i.1 = _
  rw [sliceAt, hread]
  cases depth <;> rfl

end Sage
