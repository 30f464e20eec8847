import Sage.Stash.Tree

/-!
# Stash — fingerprints of rooted values

`FingerprintHasher` writes a value's own fields and, for a handle, the fingerprint of what it
points to, which it keeps per entry.  `Stashed` pairs a stash with a root and its fingerprint.

* `Stash.treeOf` — following the handles of a value.
* `Sound.hashes` — hashing a value writes the bytes of its tree, whatever is in the cache.
-/

namespace Sage

section Stash

variable {TypeId : Type} [DecidableEq TypeId] {D : TypeId → Shape TypeId}

/-- The derived types as storable types. -/
abbrev stashTypes (L : ∀ t, Layout (D t)) (t : TypeId) : StashType := (L t).stashType

variable (L : ∀ t, Layout (D t)) (digest : List UInt8 → Fingerprint)

/-! ### Hashing -/

/-- The bytes written so far, and the fingerprints of the entries met so far. -/
structure FingerprintHasher where
  state : List UInt8
  cache : List (Option Fingerprint)

namespace FingerprintHasher

def new : FingerprintHasher := ⟨[], []⟩

def finalize (h : FingerprintHasher) : Fingerprint := digest h.state

def write (width n : Nat) (h : FingerprintHasher) : FingerprintHasher :=
  { h with state := h.state ++ leBytes width n }

def ensureCache (h : FingerprintHasher) (index : EntryIndex) : FingerprintHasher :=
  { h with cache := h.cache ++ List.replicate (index + 1 - h.cache.length) none }

/-- The fingerprint of an entry, hashed by a new hasher that takes over the cache. -/
def entryFingerprint (h : FingerprintHasher) (index : EntryIndex)
    (hash : FingerprintHasher → Option FingerprintHasher) :
    Option (Fingerprint × FingerprintHasher) :=
  let h := h.ensureCache index
  match h.cache[index]?.join with
  | some fp => some (fp, h)
  | none => do
      let sub ← hash ⟨[], h.cache⟩
      let fp := sub.finalize digest
      let h := { h with cache := sub.cache }.ensureCache index
      return (fp, { h with cache := h.cache.set index (some fp) })

end FingerprintHasher

/-- The fingerprint hasher over a stash, with fuel for the handles it follows one inside the
other. -/
def fingerprintHasher (stash : Stash TypeId) : Nat → StashHasher TypeId FingerprintHasher
  | 0 => ⟨FingerprintHasher.write, fun _ _ _ => none, fun _ _ _ => none⟩
  | fuel + 1 =>
      { write := FingerprintHasher.write
        stashHashPtr := fun t index h => do
          let entry ← stash.entries[index]?
          let data ← stash.buf.readOne (stashTypes L t) entry.offset
          let (fp, h) ← h.entryFingerprint digest index
            ((D t).stashHash (fingerprintHasher stash fuel) data)
          return { h with state := h.state ++ fp.1 }
        stashHashSlice := fun t index h => do
          let entry ← stash.entries[index]?
          let data ← stash.buf.readSlice (stashTypes L t) entry.offset entry.count
          let (fp, h) ← h.entryFingerprint digest index fun sub =>
            data.foldlM (fun sub item => (D t).stashHash (fingerprintHasher stash fuel) item sub)
              (sub.write 8 data.length)
          return { h with state := h.state ++ fp.1 } }

/-- A stash with a root value; rooted values are compared by their fingerprints. -/
structure Stashed (s : Shape TypeId) where
  stash : Stash TypeId
  root : s.Val
  fingerprint : Fingerprint

/-- The hasher after the root was hashed. -/
def Stashed.hasher (fuel : Nat) (stash : Stash TypeId) {s : Shape TypeId} (root : s.Val) :
    Option FingerprintHasher :=
  s.stashHash (fingerprintHasher L digest stash fuel) root .new

def Stashed.new (fuel : Nat) (stash : Stash TypeId) {s : Shape TypeId} (root : s.Val) :
    Option (Stashed s) :=
  (Stashed.hasher L digest fuel stash root).map fun hasher =>
    ⟨stash, root, hasher.finalize digest⟩

/-! ### Following handles -/

/-- The tree of a value, from the trees behind its handles. -/
def Shape.treeWith (onPtr onSlice : TypeId → EntryIndex → Option Tree) :
    (s : Shape TypeId) → s.Val → Option Tree
  | scalar width, value => some (.scalar width (show Fin (256 ^ width) from value))
  | unit, _ => some .unit
  | ptr t, index => onPtr t (show StoredIndex from index)
  | slice t, index => onSlice t (show StoredIndex from index)
  | option s, value =>
      match (show Option s.Val from value) with
      | none => some .absent
      | some value => (s.treeWith onPtr onSlice value).map .present
  | field s rest, value => do
      let t ← s.treeWith onPtr onSlice (show s.Val × rest.Val from value).1
      let t' ← rest.treeWith onPtr onSlice (show s.Val × rest.Val from value).2
      return .field t t'
  | variants tag count body, value =>
      match (show (i : Fin count) × (body i).Val from value) with
      | ⟨i, value⟩ => ((body i).treeWith onPtr onSlice value).map (.variant tag i)

namespace Stash

/-- The tree behind a handle of a value. -/
def nodeAt (stash : Stash TypeId) (tree : (s : Shape TypeId) → s.Val → Option Tree) (t : TypeId)
    (index : EntryIndex) : Option Tree := do
  let value ← stash.readPtr (stashTypes L) t index
  return .node (← tree (D t) value)

/-- The tree behind a handle of a slice. -/
def sliceAt (stash : Stash TypeId) (tree : (s : Shape TypeId) → s.Val → Option Tree) (t : TypeId)
    (index : EntryIndex) : Option Tree := do
  let values ← stash.readSlice (stashTypes L) t index
  let trees ← values.mapM (tree (D t))
  return .slice (trees.foldr .cons .nil)

/-- A value with its handles followed, at most `depth` one inside the other. -/
def treeOf (stash : Stash TypeId) : Nat → (s : Shape TypeId) → s.Val → Option Tree
  | 0 => fun s => s.treeWith (fun _ _ => none) fun _ _ => none
  | depth + 1 => fun s =>
      s.treeWith (stash.nodeAt L (treeOf stash depth)) (stash.sliceAt L (treeOf stash depth))

end Stash

/-! ### Depth -/

variable {L digest} {stash : Stash TypeId}

omit [DecidableEq TypeId] in
theorem Shape.treeWith_mono {onPtr onSlice onPtr' onSlice' : TypeId → EntryIndex → Option Tree}
    (hptr : ∀ t i c, onPtr t i = some c → onPtr' t i = some c)
    (hslice : ∀ t i c, onSlice t i = some c → onSlice' t i = some c) :
    ∀ {s : Shape TypeId} {v : s.Val} {c : Tree}, s.treeWith onPtr onSlice v = some c →
      s.treeWith onPtr' onSlice' v = some c := by
  intro s
  induction s with
  | scalar | unit => exact fun {v c} h => h
  | ptr t => exact fun {v c} h => hptr t _ _ h
  | slice t => exact fun {v c} h => hslice t _ _ h
  | option s ih =>
      intro v c h
      cases v with
      | none => exact h
      | some v =>
          obtain ⟨c, hc, rfl⟩ := Option.map_eq_some_iff.mp h
          exact Option.map_eq_some_iff.mpr ⟨c, ih hc, rfl⟩
  | field s rest ih ih' =>
      rintro ⟨v, w⟩ c h
      obtain ⟨c, hc, h⟩ := Option.bind_eq_some_iff.mp h
      obtain ⟨c', hc', h⟩ := Option.bind_eq_some_iff.mp h
      exact Option.bind_eq_some_iff.mpr ⟨c, ih hc, Option.bind_eq_some_iff.mpr ⟨c', ih' hc', h⟩⟩
  | variants tag count body ih =>
      rintro ⟨i, v⟩ c h
      obtain ⟨c, hc, rfl⟩ := Option.map_eq_some_iff.mp h
      exact Option.map_eq_some_iff.mpr ⟨c, ih i hc, rfl⟩

namespace Stash

variable {tree tree' : (s : Shape TypeId) → s.Val → Option Tree} {t : TypeId} {index : EntryIndex}
  {c : Tree}

theorem nodeAt_mono (h : ∀ s v c, tree s v = some c → tree' s v = some c)
    (hc : stash.nodeAt L tree t index = some c) : stash.nodeAt L tree' t index = some c := by
  obtain ⟨value, hread, hc⟩ := Option.bind_eq_some_iff.mp hc
  obtain ⟨child, hchild, hc⟩ := Option.bind_eq_some_iff.mp hc
  exact Option.bind_eq_some_iff.mpr
    ⟨value, hread, Option.bind_eq_some_iff.mpr ⟨child, h _ _ _ hchild, hc⟩⟩

theorem sliceAt_mono (h : ∀ s v c, tree s v = some c → tree' s v = some c)
    (hc : stash.sliceAt L tree t index = some c) : stash.sliceAt L tree' t index = some c := by
  obtain ⟨values, hread, hc⟩ := Option.bind_eq_some_iff.mp hc
  obtain ⟨trees, htrees, hc⟩ := Option.bind_eq_some_iff.mp hc
  exact Option.bind_eq_some_iff.mpr ⟨values, hread, Option.bind_eq_some_iff.mpr
    ⟨trees, mapM_some_mono (fun _ _ => h _ _ _) htrees, hc⟩⟩

/-- A larger depth gives the same tree. -/
theorem treeOf_mono {m n : Nat} (hmn : m ≤ n) : ∀ (s : Shape TypeId) (v : s.Val) (c : Tree),
    stash.treeOf L m s v = some c → stash.treeOf L n s v = some c := by
  induction m generalizing n with
  | zero =>
      intro s v c h
      cases n with
      | zero => exact h
      | succ n =>
          refine Shape.treeWith_mono ?_ ?_ h
          · exact fun _ _ _ h => by cases h
          · exact fun _ _ _ h => by cases h
  | succ m ih =>
      intro s v c h
      obtain ⟨n, rfl⟩ := Nat.exists_eq_add_of_le' hmn
      have hle : m ≤ n + m := Nat.le_add_left m n
      exact Shape.treeWith_mono (fun _ _ _ => nodeAt_mono (ih hle))
        (fun _ _ _ => sliceAt_mono (ih hle)) h

/-- A value has one tree. -/
theorem treeOf_unique {m n : Nat} {s : Shape TypeId} {v : s.Val} {c c' : Tree}
    (h : stash.treeOf L m s v = some c) (h' : stash.treeOf L n s v = some c') : c = c' := by
  have hm := treeOf_mono (Nat.le_max_left m n) s v c h
  have hn := treeOf_mono (Nat.le_max_right m n) s v c' h'
  exact Option.some.inj (hm.symm.trans hn)

end Stash

/-! ### Hashing a value writes its tree -/

/-- Under the invariant `I`, a step of hashing writes `bytes` and keeps the invariant. -/
def Writes (I : FingerprintHasher → Prop) (step : FingerprintHasher → Option FingerprintHasher)
    (bytes : List UInt8) : Prop :=
  ∀ h, I h → ∃ k, step h = some k ∧ k.state = h.state ++ bytes ∧ I k

variable {I : FingerprintHasher → Prop}

theorem Writes.bind {step step' : FingerprintHasher → Option FingerprintHasher}
    {bytes bytes' : List UInt8} (h : Writes I step bytes) (h' : Writes I step' bytes') :
    Writes I (fun k => (step k).bind step') (bytes ++ bytes') := by
  intro k hk
  obtain ⟨l, hl, hstate, hk⟩ := h k hk
  obtain ⟨m, hm, hstate', hk⟩ := h' l hk
  refine ⟨m, ?_, ?_, hk⟩
  · show (step k).bind step' = some m
    rw [hl]
    exact hm
  · rw [hstate', hstate, List.append_assoc]

omit [DecidableEq TypeId] in
/-- A value whose handles are hashed by their trees is hashed by its tree. -/
theorem Shape.writes_tree {hasher : StashHasher TypeId FingerprintHasher}
    (hhasher : hasher.write = FingerprintHasher.write)
    (hI : ∀ h state, I h → I { h with state := state })
    {onPtr onSlice : TypeId → EntryIndex → Prop}
    {ptrTree sliceTree : TypeId → EntryIndex → Option Tree}
    (hptr : ∀ t i, onPtr t i → ∃ c, ptrTree t i = some c ∧ c.HasShape D (.ptr t) ∧
      Writes I (hasher.stashHashPtr t i) (c.bytes digest))
    (hslice : ∀ t i, onSlice t i → ∃ c, sliceTree t i = some c ∧ c.HasShape D (.slice t) ∧
      Writes I (hasher.stashHashSlice t i) (c.bytes digest)) :
    ∀ {s : Shape TypeId} {v : s.Val}, s.TagsFit → s.Points onPtr onSlice v →
      ∃ c, s.treeWith ptrTree sliceTree v = some c ∧ c.HasShape D s ∧
        Writes I (s.stashHash hasher v) (c.bytes digest) := by
  have hwrite : ∀ width n, Writes I (fun h => some (hasher.write width n h)) (leBytes width n) :=
    fun width n h hh => ⟨_, rfl, by rw [hhasher]; rfl, by rw [hhasher]; exact hI h _ hh⟩
  intro s
  induction s with
  | scalar width =>
      intro v _ _
      exact ⟨_, rfl, ⟨rfl, (show Fin (256 ^ width) from v).2⟩, hwrite width _⟩
  | unit =>
      intro v _ _
      exact ⟨_, rfl, trivial, fun h hh => ⟨h, rfl, (List.append_nil _).symm, hh⟩⟩
  | ptr t => exact fun {v} _ hv => hptr t _ hv
  | slice t => exact fun {v} _ hv => hslice t _ hv
  | option s ih =>
      intro v hfit hv
      cases v with
      | none => exact ⟨_, rfl, trivial, hwrite 1 0⟩
      | some v =>
          obtain ⟨c, hc, hshape, hw⟩ := ih hfit (hv v rfl)
          exact ⟨.present c, Option.map_eq_some_iff.mpr ⟨c, hc, rfl⟩, hshape,
            (hwrite 1 1).bind hw⟩
  | field s rest ih ih' =>
      rintro ⟨v, w⟩ hfit ⟨hv, hw⟩
      obtain ⟨c, hc, hshape, hwc⟩ := ih hfit.1 hv
      obtain ⟨c', hc', hshape', hwc'⟩ := ih' hfit.2 hw
      exact ⟨.field c c', Option.bind_eq_some_iff.mpr ⟨c, hc,
        Option.bind_eq_some_iff.mpr ⟨c', hc', rfl⟩⟩, ⟨hshape, hshape'⟩, hwc.bind hwc'⟩
  | variants tag count body ih =>
      rintro ⟨i, v⟩ hfit hv
      obtain ⟨c, hc, hshape, hw⟩ := ih i (hfit.2 i) hv
      refine ⟨.variant tag i c, Option.map_eq_some_iff.mpr ⟨c, hc, rfl⟩,
        ⟨rfl, Nat.lt_of_lt_of_le i.2 hfit.1, i.2, hshape⟩, ?_⟩
      have htag : Writes I (fun h => some (if tag = 0 then h else hasher.write tag i h))
          (leBytes tag i) := by
        by_cases h0 : tag = 0
        · subst h0
          exact fun h hh => ⟨h, rfl, (List.append_nil _).symm, hh⟩
        · simp only [if_neg h0]
          exact hwrite tag i
      exact htag.bind hw

/-! ### Sound stashes -/

section Sound

/- What was stored at an entry, as a value or as a slice. -/
variable {P : ∀ t, EntryIndex → (D t).Val → Prop} {Q : ∀ t, EntryIndex → List (D t).Val → Prop}

variable (P Q) in
/-- The handles of a value are of entries before `n`, which hold what the handles stand for. -/
def Shape.Below (n : Nat) (s : Shape TypeId) (v : s.Val) : Prop :=
  s.Points (fun t i => i < n ∧ ∃ v, P t i v) (fun t i => i < n ∧ ∃ vs, Q t i vs) v

omit [DecidableEq TypeId] in
theorem Shape.Below.mono {m n : Nat} {s : Shape TypeId} {v : s.Val} (h : s.Below P Q m v)
    (hmn : m ≤ n) : s.Below P Q n v :=
  Shape.Points.imp (fun _ _ h => ⟨Nat.lt_of_lt_of_le h.1 hmn, h.2⟩)
    (fun _ _ h => ⟨Nat.lt_of_lt_of_le h.1 hmn, h.2⟩) h

variable (L P Q) in
/-- Entries read what was stored, an entry holds a value or a slice of one type, and handles in it
are of earlier entries. -/
structure Sound (stash : Stash TypeId) : Prop where
  ptr : ∀ {t i v}, P t i v → ∃ e, stash.entries[i]? = some e ∧
    stash.buf.readOne (stashTypes L t) e.offset = some v ∧
    stash.readPtr (stashTypes L) t i = some v
  slice : ∀ {t i vs}, Q t i vs → vs.length < 2 ^ 64 ∧ ∃ e, stash.entries[i]? = some e ∧
    stash.buf.readSlice (stashTypes L t) e.offset e.count = some vs ∧
    stash.readSlice (stashTypes L) t i = some vs
  ptr_below : ∀ {t i v}, P t i v → (D t).Below P Q i v
  slice_below : ∀ {t i vs}, Q t i vs → ∀ v ∈ vs, (D t).Below P Q i v
  ptr_type : ∀ {t t' i v v'}, P t i v → P t' i v' → t = t'
  slice_type : ∀ {t t' i vs vs'}, Q t i vs → Q t' i vs' → t = t'
  exclusive : ∀ {t t' i v vs}, P t i v → ¬ Q t' i vs

variable (L digest P Q) in
/-- The fingerprint is that of whatever handle the entry has. -/
def Prints (stash : Stash TypeId) (i : EntryIndex) (fp : Fingerprint) : Prop :=
  (∀ t v, P t i v → ∃ depth c, stash.nodeAt L (stash.treeOf L depth) t i = some c ∧
    c.bytes digest = fp.1) ∧
  ∀ t vs, Q t i vs → ∃ depth c, stash.sliceAt L (stash.treeOf L depth) t i = some c ∧
    c.bytes digest = fp.1

variable (L digest P Q) in
/-- Every fingerprint in the cache is that of its entry. -/
def CacheSound (stash : Stash TypeId) (h : FingerprintHasher) : Prop :=
  ∀ i fp, h.cache[i]? = some (some fp) → Prints L digest P Q stash i fp

theorem CacheSound.new : CacheSound L digest P Q stash .new := fun i fp h => by
  simp [FingerprintHasher.new] at h

theorem CacheSound.ensureCache {h : FingerprintHasher} (hs : CacheSound L digest P Q stash h)
    (index : EntryIndex) : CacheSound L digest P Q stash (h.ensureCache index) := by
  intro i fp hi
  rw [FingerprintHasher.ensureCache, List.getElem?_append] at hi
  split at hi
  · exact hs i fp hi
  · obtain ⟨-, hnone⟩ := List.mem_replicate.mp (List.mem_of_getElem? hi)
    cases hnone

/-- An entry's fingerprint is taken from the cache or hashed once, and written. -/
theorem CacheSound.entryFingerprint {index : EntryIndex} {bytes : List UInt8}
    {hash : FingerprintHasher → Option FingerprintHasher}
    (hash_writes : Writes (CacheSound L digest P Q stash) hash bytes)
    (hprints : ∀ fp, Prints L digest P Q stash index fp ↔ fp = digest bytes) :
    Writes (CacheSound L digest P Q stash) (fun h => do
      let (fp, h) ← h.entryFingerprint digest index hash
      return { h with state := h.state ++ fp.1 }) (digest bytes).1 := by
  intro h hs
  have hs₁ := hs.ensureCache index
  have hlength : index < (h.ensureCache index).cache.length := by
    rw [FingerprintHasher.ensureCache, List.length_append, List.length_replicate]
    exact Nat.lt_of_lt_of_le (Nat.lt_succ_self index) (Nat.sub_le_iff_le_add'.mp (Nat.le_refl _))
  simp only [FingerprintHasher.entryFingerprint]
  cases hcache : (h.ensureCache index).cache[index]?.join with
  | some fp =>
      have hfp := (hprints fp).mp (hs₁ index fp (Option.join_eq_some_iff.mp hcache))
      exact ⟨_, rfl, by rw [hfp]; rfl, hs₁⟩
  | none =>
      obtain ⟨sub, hsub, hstate, hs₂⟩ := hash_writes ⟨[], (h.ensureCache index).cache⟩ hs₁
      rw [hsub]
      refine ⟨_, rfl, ?_, ?_⟩
      · rw [FingerprintHasher.finalize, hstate]
        rfl
      · -- the entry's own fingerprint joins those of the entries below it
        intro i fp hi
        rw [List.getElem?_set] at hi
        split at hi
        · rename_i heq
          subst heq
          split at hi
          · refine (hprints fp).mpr ?_
            rw [← Option.some.inj (Option.some.inj hi), FingerprintHasher.finalize, hstate]
            rfl
          · cases hi
        · exact (CacheSound.ensureCache hs₂ index) i fp hi

omit [DecidableEq TypeId] in
/-- The elements of a slice are hashed one after the other. -/
theorem Writes.items {s : Shape TypeId} {hash : s.Val → FingerprintHasher → Option FingerprintHasher}
    {tree : s.Val → Option Tree} {vs : List s.Val}
    (h : ∀ v ∈ vs, ∃ c, tree v = some c ∧ c.HasShape D s ∧ Writes I (hash v) (c.bytes digest)) :
    ∃ cs, vs.mapM tree = some cs ∧ (cs.foldr Tree.cons .nil).count = vs.length ∧
      (cs.foldr Tree.cons .nil).HaveShape D s ∧
      Writes I (fun k => vs.foldlM (fun k v => hash v k) k)
        ((cs.foldr Tree.cons .nil).bytes digest) := by
  induction vs with
  | nil => exact ⟨[], rfl, rfl, trivial, fun k hk => ⟨k, rfl, (List.append_nil _).symm, hk⟩⟩
  | cons v vs ih =>
      obtain ⟨hv, hvs⟩ := List.forall_mem_cons.mp h
      obtain ⟨c, hc, hshape, hw⟩ := hv
      obtain ⟨cs, hcs, hcount, hshapes, hws⟩ := ih hvs
      refine ⟨c :: cs, ?_, congrArg (· + 1) hcount, ⟨hshape, hshapes⟩, hw.bind hws⟩
      rw [List.mapM_cons, hc, hcs]
      rfl

/-- The fingerprint of a value's entry is determined by its tree. -/
theorem Sound.prints_ptr (hs : Sound L P Q stash) {t : TypeId} {i : EntryIndex} {v : (D t).Val}
    (hP : P t i v) {depth : Nat} {c : Tree}
    (hc : stash.nodeAt L (stash.treeOf L depth) t i = some (.node c)) (fp : Fingerprint) :
    Prints L digest P Q stash i fp ↔ fp = digest (c.bytes digest) := by
  constructor
  · rintro ⟨hprints, -⟩
    obtain ⟨m, c', hc', hfp⟩ := hprints t v hP
    have hle := Stash.nodeAt_mono (Stash.treeOf_mono (Nat.le_max_left depth m)) hc
    have hle' := Stash.nodeAt_mono (Stash.treeOf_mono (Nat.le_max_right depth m)) hc'
    obtain rfl := Option.some.inj (hle.symm.trans hle')
    exact Subtype.ext hfp.symm
  · rintro rfl
    refine ⟨fun t' v' hP' => ?_, fun t' vs hQ => absurd hQ (hs.exclusive hP)⟩
    obtain rfl := hs.ptr_type hP hP'
    exact ⟨depth, _, hc, rfl⟩

theorem Sound.prints_slice (hs : Sound L P Q stash) {t : TypeId} {i : EntryIndex}
    {vs : List (D t).Val} (hQ : Q t i vs) {depth : Nat} {items : Tree}
    (hc : stash.sliceAt L (stash.treeOf L depth) t i = some (.slice items)) (fp : Fingerprint) :
    Prints L digest P Q stash i fp ↔
      fp = digest (leBytes 8 items.count ++ items.bytes digest) := by
  constructor
  · rintro ⟨-, hprints⟩
    obtain ⟨m, c', hc', hfp⟩ := hprints t vs hQ
    have hle := Stash.sliceAt_mono (Stash.treeOf_mono (Nat.le_max_left depth m)) hc
    have hle' := Stash.sliceAt_mono (Stash.treeOf_mono (Nat.le_max_right depth m)) hc'
    obtain rfl := Option.some.inj (hle.symm.trans hle')
    exact Subtype.ext hfp.symm
  · rintro rfl
    refine ⟨fun t' v hP => absurd hQ (hs.exclusive hP), fun t' vs' hQ' => ?_⟩
    obtain rfl := hs.slice_type hQ hQ'
    exact ⟨depth, _, hc, rfl⟩

variable (digest) in
/-- Hashing a value writes the bytes of its tree, and keeps the cache sound. -/
theorem Sound.hashes (hs : Sound L P Q stash) (hfits : ∀ t, (D t).TagsFit) (n : Nat) :
    ∀ {s : Shape TypeId} {v : s.Val}, s.TagsFit → s.Below P Q n v →
      ∃ c, stash.treeOf L n s v = some c ∧ c.HasShape D s ∧
        Writes (CacheSound L digest P Q stash)
          (s.stashHash (fingerprintHasher L digest stash n) v) (c.bytes digest) := by
  induction n with
  | zero =>
      intro s v hfit hv
      exact Shape.writes_tree rfl (fun _ _ h => h) (fun t i h => absurd h.1 (Nat.not_lt_zero i))
        (fun t i h => absurd h.1 (Nat.not_lt_zero i)) hfit hv
  | succ n ih =>
      intro s v hfit hv
      refine Shape.writes_tree rfl (fun _ _ h => h) ?_ ?_ hfit hv
      · rintro t i ⟨hi, v, hP⟩
        obtain ⟨e, he, hread, hreadPtr⟩ := hs.ptr hP
        obtain ⟨c, hc, hshape, hw⟩ :=
          ih (hfits t) ((hs.ptr_below hP).mono (Nat.le_of_lt_succ hi))
        have hnode : stash.nodeAt L (stash.treeOf L n) t i = some (.node c) :=
          Option.bind_eq_some_iff.mpr ⟨v, hreadPtr, Option.bind_eq_some_iff.mpr ⟨c, hc, rfl⟩⟩
        refine ⟨.node c, hnode, hshape, ?_⟩
        simp only [fingerprintHasher, he, hread, Option.bind_eq_bind, Option.bind_some]
        exact CacheSound.entryFingerprint hw (hs.prints_ptr hP hnode)
      · rintro t i ⟨hi, vs, hQ⟩
        obtain ⟨hlen, e, he, hread, hreadSlice⟩ := hs.slice hQ
        obtain ⟨cs, hcs, hcount, hshapes, hw⟩ := Writes.items fun v hv =>
          ih (hfits t) ((hs.slice_below hQ v hv).mono (Nat.le_of_lt_succ hi))
        have hslice : stash.sliceAt L (stash.treeOf L n) t i =
            some (.slice (cs.foldr .cons .nil)) :=
          Option.bind_eq_some_iff.mpr ⟨vs, hreadSlice, Option.bind_eq_some_iff.mpr ⟨cs, hcs, rfl⟩⟩
        refine ⟨_, hslice, ⟨hcount ▸ hlen, hshapes⟩, ?_⟩
        simp only [fingerprintHasher, he, hread, Option.bind_eq_bind, Option.bind_some]
        refine CacheSound.entryFingerprint ?_ (hs.prints_slice hQ hslice)
        rw [hcount]
        have hlength : Writes (CacheSound L digest P Q stash)
            (fun h => some (h.write 8 vs.length)) (leBytes 8 vs.length) :=
          fun h hh => ⟨_, rfl, rfl, hh⟩
        exact hlength.bind hw

end Sound

end Stash

end Sage
