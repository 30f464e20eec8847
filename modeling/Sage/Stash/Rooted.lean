import Sage.Stash.Fingerprint
import Sage.Stash.Words

/-!
# Stash — rooted equality

Handles are made by the stash only.  A run is owned when every operation stores values whose
handles the run was given before; then entries hold handles of earlier entries, and no entry is
both a value and a slice.

* `OwnedRun.kept` — the entries of an owned run hold handles of earlier entries, while offsets and
  lengths fit into 32 bits.
* `Stashed.fingerprint_eq_iff` — then rooted values are equal exactly when their trees are.
* `wrapped_not_rooted` — past 4 GiB an entry can be both a value and a slice, and they are not.
-/

namespace Sage

section Stash

variable {TypeId : Type} [DecidableEq TypeId] {D : TypeId → Shape TypeId}
  (L : ∀ t, Layout (D t)) (hasher : WordHasher) (digest : List UInt8 → Fingerprint)

namespace Stash

variable {L}

/-- Every handle in the value is one of `handles`. -/
def Owned (handles : List (Handle (stashTypes L))) (s : Shape TypeId) (v : s.Val) : Prop :=
  s.Points (fun t i => ∃ v, .ptr t i v ∈ handles) (fun t i => ∃ vs, .slice t i vs ∈ handles) v

def Op.Owned (handles : List (Handle (stashTypes L))) : Op (stashTypes L) → Prop
  | .alloc t value => Stash.Owned handles (D t) value
  | .allocSlice t values => ∀ v ∈ values, Stash.Owned handles (D t) v
  | .appendOne t existing element =>
      (∃ vs, .slice t existing vs ∈ handles) ∧ Stash.Owned handles (D t) element

end Stash

open Stash

/-- A run of operations that use handles the run was given, with these handles. -/
inductive OwnedRun : List (Handle (stashTypes L)) → Stash TypeId → Prop
  | new : OwnedRun [] .new
  | step {handles : List (Handle (stashTypes L))} {stash stash' : Stash TypeId}
      {op : Op (stashTypes L)} {handle : Handle (stashTypes L)} (h : OwnedRun handles stash)
      (hop : op.Owned handles)
      (hstep : stash.step (stashTypes L) hasher.finish op = some (handle, stash')) :
      OwnedRun (handles ++ [handle]) stash'

/-! ### Entries of an owned run -/

variable {L hasher} {handles : List (Handle (stashTypes L))} {stash stash' : Stash TypeId}
  {cs cs' : List (Content (stashTypes L))}

variable (hasher) in
/-- The entry was stored as this value. -/
def StoredAs (cs : List (Content (stashTypes L))) (t : TypeId) (i : EntryIndex) (v : (D t).Val) :
    Prop :=
  (Handle.ptr t i v : Handle (stashTypes L)).Names hasher.finish cs

variable (hasher) in
/-- The entry was stored as this slice. -/
def StoredAsSlice (cs : List (Content (stashTypes L))) (t : TypeId) (i : EntryIndex)
    (vs : List (D t).Val) : Prop :=
  (Handle.slice t i vs : Handle (stashTypes L)).Names hasher.finish cs

variable (hasher) in
/-- The handles in each entry are of earlier entries. -/
def Tidy (cs : List (Content (stashTypes L))) : Prop :=
  ∀ i c, cs[i]? = some c → ∀ v ∈ c.values,
    (D c.t).Below (StoredAs hasher cs) (StoredAsSlice hasher cs) i v

omit [DecidableEq TypeId] in
theorem below_append {n : Nat} {s : Shape TypeId} {v : s.Val}
    (h : s.Below (StoredAs hasher cs) (StoredAsSlice hasher cs) n v) (hpre : cs <+: cs') :
    s.Below (StoredAs hasher cs') (StoredAsSlice hasher cs') n v := by
  obtain ⟨more, rfl⟩ := hpre
  exact Shape.Points.imp (fun t i h => ⟨h.1, h.2.imp fun v hv => hv.append more⟩)
    (fun t i h => ⟨h.1, h.2.imp fun vs hvs => hvs.append more⟩) h

omit [DecidableEq TypeId] in
/-- Owned handles are of entries that exist. -/
theorem Owned.below {s : Shape TypeId} {v : s.Val} (h : Owned handles s v)
    (hnames : ∀ handle ∈ handles, handle.Names hasher.finish cs) :
    s.Below (StoredAs hasher cs) (StoredAsSlice hasher cs) cs.length v := by
  refine Shape.Points.imp (fun t i ⟨v, hv⟩ => ?_) (fun t i ⟨vs, hvs⟩ => ?_) h
  · have hname := hnames _ hv
    obtain ⟨hash, k, -, hc⟩ := id hname
    exact ⟨(List.getElem?_eq_some_iff.mp hc).1, v, hname⟩
  · have hname := hnames _ hvs
    obtain ⟨hash, k, -, hc⟩ := id hname
    exact ⟨(List.getElem?_eq_some_iff.mp hc).1, vs, hname⟩

variable (hasher) in
/-- What the handle was created with points to entries that exist. -/
def Stash.Handle.Below (cs : List (Content (stashTypes L))) : Handle (stashTypes L) → Prop
  | .ptr t _ v => (D t).Below (StoredAs hasher cs) (StoredAsSlice hasher cs) cs.length v
  | .slice t _ vs => ∀ v ∈ vs,
      (D t).Below (StoredAs hasher cs) (StoredAsSlice hasher cs) cs.length v

theorem Op.Owned.stores {op : Op (stashTypes L)} {handle : Handle (stashTypes L)}
    (h : op.Owned handles) (hholds : stash.Holds cs) (hfits : stash.Fits cs) (htidy : Tidy hasher cs)
    (hnames : ∀ handle ∈ handles, handle.Names hasher.finish cs)
    (hstep : stash.step (stashTypes L) hasher.finish op = some (handle, stash')) :
    handle.Below hasher cs := by
  cases op with
  | alloc t value =>
      obtain ⟨⟨index, u⟩, -, hr⟩ := Option.bind_eq_some_iff.mp hstep
      obtain ⟨rfl, -⟩ := Prod.mk.inj (Option.some.inj hr)
      exact Owned.below h hnames
  | allocSlice t values =>
      obtain ⟨⟨index, u⟩, -, hr⟩ := Option.bind_eq_some_iff.mp hstep
      obtain ⟨rfl, -⟩ := Prod.mk.inj (Option.some.inj hr)
      exact fun v hv => Owned.below (h v hv) hnames
  | appendOne t existing element =>
      obtain ⟨old, hold, hr⟩ := Option.bind_eq_some_iff.mp hstep
      obtain ⟨⟨index, u⟩, -, hr⟩ := Option.bind_eq_some_iff.mp hr
      obtain ⟨rfl, -⟩ := Prod.mk.inj (Option.some.inj hr)
      obtain ⟨⟨vs, hvs⟩, helement⟩ := h
      have hname := hnames _ hvs
      obtain rfl : vs = old := by
        have hread := hholds.readsBack hfits hname
        exact Option.some.inj (hread.symm.trans hold)
      obtain ⟨hash, k, -, hc⟩ := hname
      intro v hv
      rcases List.mem_append.mp hv with hv | hv
      · have hlt := (List.getElem?_eq_some_iff.mp hc).1
        exact (htidy _ _ hc v hv).mono (Nat.le_of_lt hlt)
      · rw [List.mem_singleton.mp hv]
        exact Owned.below helement hnames

variable (hasher) in
/-- A table of contents within 32 bits, whose handles are of earlier entries. -/
structure Kept (stash : Stash TypeId) (cs : List (Content (stashTypes L))) : Prop where
  holds : stash.Holds cs
  fits : stash.Fits cs
  tidy : Tidy hasher cs

omit [DecidableEq TypeId] in
/-- It stays one when an operation stores what points to its entries. -/
theorem Kept.interned (h : Kept hasher stash cs) {handle : Handle (stashTypes L)}
    (hinterned : Interned hasher.finish stash stash' cs handle cs')
    (hbuf : stash'.buf.bytes.length ≤ 2 ^ 32) (hlen : handle.length < 2 ^ 32)
    (hstores : handle.Below hasher cs) : Kept hasher stash' cs' := by
  obtain ⟨more, rfl⟩ := id hinterned.contents
  have hfits : stash'.Fits (cs ++ more) := ⟨hbuf, fun c hc =>
    (hinterned.length c hc).elim (h.fits.values c) fun heq => heq ▸ hlen⟩
  refine ⟨hinterned.holds, hfits, fun i c hc v hv => ?_⟩
  by_cases hi : i < cs.length
  · rw [List.getElem?_append_left hi] at hc
    exact below_append (h.tidy i c hc v hv) hinterned.contents
  -- an entry the operation added holds what the operation stored
  rw [Nat.not_lt] at hi
  refine below_append (Shape.Below.mono ?_ hi) hinterned.contents
  have hindex := hinterned.added i hi (List.getElem?_eq_some_iff.mp hc).1
  obtain ⟨hash, k, -, hat⟩ := hinterned.names
  cases handle with
  | ptr t index value =>
      obtain rfl : i = index := hindex
      obtain rfl := Option.some.inj (hc.symm.trans hat)
      rw [List.mem_singleton.mp hv]
      exact hstores
  | slice t index values =>
      obtain rfl : i = index := hindex
      obtain rfl := Option.some.inj (hc.symm.trans hat)
      exact hstores v hv

/-- What an owned run leaves: a table of contents that the handles name, in order. -/
theorem OwnedRun.kept (h : OwnedRun L hasher handles stash)
    (hbuf : stash.buf.bytes.length ≤ 2 ^ 32) (hlen : ∀ handle ∈ handles, handle.length < 2 ^ 32) :
    ∃ cs : List (Content (stashTypes L)), Kept hasher stash cs ∧
      ∀ handle ∈ handles, handle.Names hasher.finish cs := by
  induction h with
  | new =>
      refine ⟨[], ⟨.new, ⟨hbuf, nofun⟩, ?_⟩, nofun⟩
      intro i c hc
      cases hc
  | @step handles stash stash' op handle hrun hop hstep ih =>
      rw [List.forall_mem_append, List.forall_mem_singleton] at hlen
      -- What fits at the end of the run fits before.
      have hle := (step_extends hstep).bytes.length_le
      obtain ⟨cs, hkept, hnames⟩ := ih (hle.trans hbuf) hlen.1
      obtain ⟨cs', hinterned⟩ := hkept.holds.step hkept.fits hstep
      have hstores := Op.Owned.stores hop hkept.holds hkept.fits hkept.tidy hnames hstep
      refine ⟨cs', hkept.interned hinterned hbuf hlen.2 hstores, ?_⟩
      obtain ⟨more, rfl⟩ := id hinterned.contents
      rw [List.forall_mem_append, List.forall_mem_singleton]
      exact ⟨fun handle hh => (hnames handle hh).append more, hinterned.names⟩

omit [DecidableEq TypeId] in
/-- One entry is not both a value and a slice. -/
theorem StoredAs.not_slice {t t' : TypeId} {i : EntryIndex} {v : (D t).Val} {vs : List (D t').Val}
    (h : StoredAs hasher cs t i v) : ¬ StoredAsSlice hasher cs t' i vs := by
  intro h'
  obtain ⟨hash, k, hhash, hc⟩ := h
  obtain ⟨hash', k', hhash', hc'⟩ := h'
  have heq := Option.some.inj (hc.symm.trans hc')
  cases heq
  obtain ⟨words, hwords, rfl⟩ := Option.map_eq_some_iff.mp hhash
  have hslice := sliceHash_singleton hasher.finish hwords
  exact hasher.finish_one_cons words (Option.some.inj (hslice.symm.trans hhash'))

/-- Entries read what they were stored as. -/
theorem Kept.sound (hkept : Kept hasher stash cs) :
    Sound L (StoredAs hasher cs) (StoredAsSlice hasher cs) stash where
  ptr {t i v} h := by
    have hread := hkept.holds.readsBack hkept.fits h
    obtain ⟨hash, k, -, hc⟩ := h
    obtain ⟨e, he, -⟩ := hkept.holds.entry hc
    exact ⟨e, he, hkept.holds.readOne hkept.fits hc he, hread⟩
  slice {t i vs} h := by
    have hread := hkept.holds.readsBack hkept.fits h
    obtain ⟨hash, k, -, hc⟩ := h
    obtain ⟨e, he, -⟩ := hkept.holds.entry hc
    have hlen := hkept.fits.values _ (List.mem_of_getElem? hc)
    exact ⟨Nat.lt_of_lt_of_le hlen (by decide), e, he, hkept.holds.readSlice hkept.fits hc he, hread⟩
  ptr_below {t i v} h := by
    obtain ⟨hash, k, -, hc⟩ := h
    exact hkept.tidy i _ hc v (List.mem_singleton.mpr rfl)
  slice_below {t i vs} h := by
    obtain ⟨hash, k, -, hc⟩ := h
    exact hkept.tidy i _ hc
  ptr_type h h' := by
    obtain ⟨hash, k, -, hc⟩ := h
    obtain ⟨hash', k', -, hc'⟩ := h'
    exact congrArg Content.t (Option.some.inj (hc.symm.trans hc'))
  slice_type h h' := by
    obtain ⟨hash, k, -, hc⟩ := h
    obtain ⟨hash', k', -, hc'⟩ := h'
    exact congrArg Content.t (Option.some.inj (hc.symm.trans hc'))
  exclusive h := h.not_slice

/-! ### Rooted values -/

variable (L) in
/-- The fingerprint kept for a handle is the one that hashing it with a new hasher writes. -/
def CacheRecomputes (fuel : Nat) (stash : Stash TypeId) (handles : List (Handle (stashTypes L)))
    (h : FingerprintHasher) : Prop :=
  (∀ t i v fp, .ptr t i v ∈ handles → h.cache[i]? = some (some fp) → ∃ k,
    (fingerprintHasher L digest stash fuel).stashHashPtr t i .new = some k ∧ k.state = fp.1) ∧
  ∀ t i vs fp, .slice t i vs ∈ handles → h.cache[i]? = some (some fp) → ∃ k,
    (fingerprintHasher L digest stash fuel).stashHashSlice t i .new = some k ∧ k.state = fp.1

variable (L) in
/-- Every byte sequence that is hashed for a rooted value. -/
def fedBytes (stash : Stash TypeId) {s : Shape TypeId} (root : s.Val) : Set (List UInt8) :=
  {b | ∃ depth c, stash.treeOf L depth s root = some c ∧ b ∈ c.bytes digest :: c.fed digest}

/-- A root of an owned run is hashed to the digest of its tree, with a right cache. -/
theorem OwnedRun.stashed (h : OwnedRun L hasher handles stash) (hfits : ∀ t, (D t).TagsFit)
    (hbuf : stash.buf.bytes.length ≤ 2 ^ 32) (hlen : ∀ handle ∈ handles, handle.length < 2 ^ 32)
    {s : Shape TypeId} (hs : s.TagsFit) {root : s.Val} (hroot : Owned handles s root) :
    ∃ N, ∀ fuel ≥ N, ∃ c k, stash.treeOf L fuel s root = some c ∧ c.HasShape D s ∧
      Stashed.hasher L digest fuel stash root = some k ∧ k.state = c.bytes digest ∧
      CacheRecomputes L digest fuel stash handles k := by
  obtain ⟨cs, hkept, hnames⟩ := h.kept hbuf hlen
  have hsound := hkept.sound
  refine ⟨cs.length, fun fuel hfuel => ?_⟩
  obtain ⟨c, hc, hshape, hw⟩ :=
    hsound.hashes digest hfits fuel hs ((Owned.below hroot hnames).mono hfuel)
  obtain ⟨k, hk, hstate, hcache⟩ := hw .new CacheSound.new
  -- hashing a handle with a new hasher writes the bytes of its tree
  have hnew : ∀ {s : Shape TypeId} {v : s.Val} {n : Nat} {c' : Tree}, s.TagsFit →
      s.Below (StoredAs hasher cs) (StoredAsSlice hasher cs) fuel v →
      stash.treeOf L n s v = some c' → ∃ k, s.stashHash
        (fingerprintHasher L digest stash fuel) v .new = some k ∧ k.state = c'.bytes digest := by
    intro s v n c' hs hv hc'
    obtain ⟨c₁, hc₁, -, hw₁⟩ := hsound.hashes digest hfits fuel hs hv
    obtain ⟨k₁, hk₁, hstate₁, -⟩ := hw₁ .new CacheSound.new
    obtain rfl := Stash.treeOf_unique hc₁ hc'
    exact ⟨k₁, hk₁, hstate₁⟩
  refine ⟨c, k, hc, hshape, hk, hstate, fun t i v fp hmem hfp => ?_, fun t i vs fp hmem hfp => ?_⟩
  · have hname := hnames _ hmem
    obtain ⟨hash, collision, -, hat⟩ := id hname
    have hi := (List.getElem?_eq_some_iff.mp hat).1
    obtain ⟨depth, c', hc', hbytes⟩ := (hcache i fp hfp).1 t v hname
    obtain ⟨k', hk', hstate'⟩ := hnew (s := .ptr t) (v := ⟨i, Nat.lt_of_le_of_lt hi hkept.holds.length⟩)
      (n := depth + 1) trivial ⟨Nat.lt_of_lt_of_le hi hfuel, v, hname⟩ hc'
    exact ⟨k', hk', hstate'.trans hbytes⟩
  · have hname := hnames _ hmem
    obtain ⟨hash, collision, -, hat⟩ := id hname
    have hi := (List.getElem?_eq_some_iff.mp hat).1
    obtain ⟨depth, c', hc', hbytes⟩ := (hcache i fp hfp).2 t vs hname
    obtain ⟨k', hk', hstate'⟩ := hnew (s := .slice t) (v := ⟨i, Nat.lt_of_le_of_lt hi hkept.holds.length⟩)
      (n := depth + 1) trivial ⟨Nat.lt_of_lt_of_le hi hfuel, vs, hname⟩ hc'
    exact ⟨k', hk', hstate'.trans hbytes⟩

/-- What is hashed for a root is what is hashed for its tree. -/
theorem fedBytes_eq {depth : Nat} {s : Shape TypeId} {root : s.Val} {c : Tree}
    (h : stash.treeOf L depth s root = some c) :
    fedBytes L digest stash root = {b | b ∈ c.bytes digest :: c.fed digest} := by
  ext b
  constructor
  · rintro ⟨depth', c', hc', hb⟩
    rwa [treeOf_unique hc' h] at hb
  · exact fun hb => ⟨depth, c, h, hb⟩

theorem OwnedRun.run {ops : List (Op (stashTypes L))} : ∀ {handles handles' stash},
    OwnedRun L hasher handles stash → (∀ op ∈ ops, ∀ handles, op.Owned handles) →
    stash.run (stashTypes L) hasher.finish ops = some (handles', stash') →
    OwnedRun L hasher (handles ++ handles') stash' := by
  induction ops with
  | nil =>
      intro handles handles' stash h _ hrun
      obtain ⟨rfl, rfl⟩ := Prod.mk.inj (Option.some.inj hrun)
      rwa [List.append_nil]
  | cons op ops ih =>
      intro handles handles' stash h hops hrun
      obtain ⟨⟨handle, u⟩, hstep, hr⟩ := Option.bind_eq_some_iff.mp hrun
      obtain ⟨⟨rest, u'⟩, hrest, hr⟩ := Option.bind_eq_some_iff.mp hr
      obtain ⟨rfl, rfl⟩ := Prod.mk.inj (Option.some.inj hr)
      obtain ⟨hop, hops⟩ := List.forall_mem_cons.mp hops
      have hrun := ih (.step h (hop handles) hstep) hops hrest
      rwa [List.append_assoc] at hrun

end Stash

/-! ### A word, alone and in a slice -/

open Stash

abbrev pairShape : Shape Unit := .field (.slice ()) (.field (.ptr ()) .unit)

def pairOf (slice ptr : StoredIndex) : pairShape.Val := (slice, ptr, ())

/-- A slice of one word, and that word. -/
def pairTree (n : Nat) : Tree :=
  .field (.slice (.cons (.scalar 8 n) .nil)) (.field (.node (.scalar 8 n)) .unit)

/-- A hash that tells short byte sequences apart. -/
def lastBytes (bytes : List UInt8) : Fingerprint :=
  ⟨(bytes.reverse ++ List.replicate 16 255).take 16, by simp⟩

theorem wordOp_owned {handles : List (Handle (stashTypes wordLayout))} {n : UInt64} :
    Op.Owned handles (.alloc () (word n)) := trivial

theorem wordsOp_owned {handles : List (Handle (stashTypes wordLayout))} {ns : List (words ()).Val} :
    Op.Owned handles (.allocSlice () ns) := fun _ _ => trivial

theorem pairOf_owned {handles : List (Handle (stashTypes wordLayout))} {i j : StoredIndex}
    {vs : List (words ()).Val} {v : (words ()).Val}
    (hslice : .slice () i vs ∈ handles) (hptr : .ptr () j v ∈ handles) :
    Owned handles pairShape (pairOf i j) := ⟨⟨vs, hslice⟩, ⟨v, hptr⟩, trivial⟩

/-- What is written where both handles are hashed as the slice. -/
def doubledBytes (n : Nat) : List UInt8 :=
  (lastBytes (leBytes 8 1 ++ leBytes 8 n)).1 ++ (lastBytes (leBytes 8 1 ++ leBytes 8 n)).1

/-- All that is hashed for the pair. -/
def pairFed (n : Nat) : List (List UInt8) :=
  (pairTree n).bytes lastBytes :: (pairTree n).fed lastBytes

theorem lastBytes_injOn : Set.InjOn lastBytes
    (insert (doubledBytes fxSeed.toNat) {b | b ∈ pairFed fxSeed.toNat}) := by
  have h : ∀ a ∈ doubledBytes fxSeed.toNat :: pairFed fxSeed.toNat,
      ∀ b ∈ doubledBytes fxSeed.toNat :: pairFed fxSeed.toNat,
      lastBytes a = lastBytes b → a = b := by decide
  exact fun a ha b hb => h a (List.mem_cons.mpr ha) b (List.mem_cons.mpr hb)

/-- Handles of a stash whose root has the tree of the pair. -/
def StoresPair (handles : List (Handle (stashTypes wordLayout))) (stash : Stash Unit)
    (root : pairShape.Val) : Prop :=
  OwnedRun wordLayout fxHasher handles stash ∧ Owned handles pairShape root ∧
    stash.buf.bytes.length ≤ 2 ^ 32 ∧ (∀ handle ∈ handles, handle.length < 2 ^ 32) ∧
    stash.treeOf wordLayout 1 pairShape root = some (pairTree fxSeed.toNat)

/-- The word stored after the slice. -/
theorem storesPair_slice_first :
    ∃ handles stash, StoresPair handles stash (pairOf ⟨0, by decide⟩ ⟨1, by decide⟩) := by
  have hruns : (Stash.new.run (stashTypes wordLayout) fxHasher.finish
      [.allocSlice () [word fxSeed], .alloc () (word fxSeed)]).map (fun r =>
        (r.1, r.2.buf.bytes.length, r.2.treeOf wordLayout 1 pairShape
          (pairOf ⟨0, by decide⟩ ⟨1, by decide⟩))) =
      some ([.slice () 0 [word fxSeed], .ptr () 1 (word fxSeed)], 16,
        some (pairTree fxSeed.toNat)) := by rfl
  obtain ⟨⟨handles, stash⟩, hrun, hr⟩ := Option.map_eq_some_iff.mp hruns
  obtain ⟨hhandles, hr⟩ := Prod.mk.inj hr
  obtain ⟨hbuf, htree⟩ := Prod.mk.inj hr
  obtain rfl : handles = _ := hhandles
  refine ⟨_, stash, OwnedRun.new.run (fun op hop handles => ?_) hrun,
    pairOf_owned (.head _) (.tail _ (.head _)), hbuf.trans_le (by decide), ?_, htree⟩
  · rcases List.mem_pair.mp hop with rfl | rfl
    · exact wordsOp_owned
    · exact wordOp_owned
  · intro handle hhandle
    rcases List.mem_pair.mp hhandle with rfl | rfl <;> decide

/-- The word stored before the slice. -/
theorem storesPair_ptr_first :
    ∃ handles stash, StoresPair handles stash (pairOf ⟨1, by decide⟩ ⟨0, by decide⟩) := by
  have hruns : (Stash.new.run (stashTypes wordLayout) fxHasher.finish
      [.alloc () (word fxSeed), .allocSlice () [word fxSeed]]).map (fun r =>
        (r.1, r.2.buf.bytes.length, r.2.treeOf wordLayout 1 pairShape
          (pairOf ⟨1, by decide⟩ ⟨0, by decide⟩))) =
      some ([.ptr () 0 (word fxSeed), .slice () 1 [word fxSeed]], 16,
        some (pairTree fxSeed.toNat)) := by rfl
  obtain ⟨⟨handles, stash⟩, hrun, hr⟩ := Option.map_eq_some_iff.mp hruns
  obtain ⟨hhandles, hr⟩ := Prod.mk.inj hr
  obtain ⟨hbuf, htree⟩ := Prod.mk.inj hr
  obtain rfl : handles = _ := hhandles
  refine ⟨_, stash, OwnedRun.new.run (fun op hop handles => ?_) hrun,
    pairOf_owned (.tail _ (.head _)) (.head _), hbuf.trans_le (by decide), ?_, htree⟩
  · rcases List.mem_pair.mp hop with rfl | rfl
    · exact wordOp_owned
    · exact wordsOp_owned
  · intro handle hhandle
    rcases List.mem_pair.mp hhandle with rfl | rfl <;> decide

section Overflow

variable {TypeId : Type} [DecidableEq TypeId] {T : TypeId → StashType} {stash : Stash TypeId}
  {t : TypeId} {values : List (T t).Val} {same : StashEntry TypeId → Option Bool} {hash : UInt64}

theorem intern_vacant {index : EntryIndex} {stash' : Stash TypeId}
    (h : stash.internMap ⟨t, values.length, hash, 0⟩ = none)
    (hpush : stash.pushRaw T t values hash = some (index, stash')) :
    stash.intern T t values same hash = some (index, { stash' with
      internMap := Function.update stash'.internMap ⟨t, values.length, hash, 0⟩ index }) := by
  have hprobe : stash.probe (InternKey.mk t values.length hash) same (4294967295 + 1) 0 =
      some (.vacant 0) := by
    rw [probe, h]
  rw [intern]
  show (stash.probe _ _ (4294967295 + 1) 0).bind _ = _
  rw [hprobe, Option.bind_some]
  simp only [hpush, Option.bind_eq_bind, Option.bind_some]
  rfl

theorem intern_occupied {index : EntryIndex} {e : StashEntry TypeId}
    (h : stash.internMap ⟨t, values.length, hash, 0⟩ = some index)
    (he : stash.entries[index]? = some e) (hsame : same e = some true) :
    stash.intern T t values same hash = some (index, stash) := by
  have hprobe : stash.probe (InternKey.mk t values.length hash) same (4294967295 + 1) 0 =
      some (.occupied index) := by
    rw [probe, h]
    simp [he, hsame]
  rw [intern]
  show (stash.probe _ _ (4294967295 + 1) 0).bind _ = _
  rw [hprobe]
  rfl

omit [DecidableEq TypeId] in
/-- No padding is needed at an aligned length. -/
theorem pushRaw_aligned (hlen : max (T t).align 4 = 8) (h : 8 ∣ stash.buf.bytes.length)
    (hroom : stash.entries.length + 1 < 2 ^ 32) :
    stash.pushRaw T t values hash = some (stash.entries.length, { stash with
      buf := stash.buf.extendFromSlice (T t) values
      entries := stash.entries ++
        [⟨t, stash.buf.bytes.length.toUInt32, values.length.toUInt32, hash⟩] }) := by
  have hpadding : wrappingNeg stash.buf.bytes.length &&& (8 - 1) = 0 := by
    rw [show 8 - 1 = 2 ^ 3 - 1 from rfl, Nat.and_two_pow_sub_one_eq_mod, wrappingNeg]
    omega
  have hindex : EntryIndex.new stash.entries.length = some stash.entries.length := by
    have hmod := Nat.mod_eq_of_lt (Nat.lt_of_succ_lt hroom)
    rw [EntryIndex.new, hmod]
    exact if_pos hroom
  simp only [pushRaw, hlen, hpadding, hindex, Nat.add_zero, AlignedBuf.resizeZeroed, Nat.sub_self,
    List.replicate_zero, List.append_nil]
  rfl

end Overflow

section Words

/-- Words, as the arena stores them. -/
abbrev wordType : StashType := stashTypes wordLayout ()

abbrev Word := wordType.Val

def seedWord : Word := word fxSeed

def zeroWord : Word := word 0

variable {stash : Stash Unit} {ns : List Word}

/-- The hash of a slice of words. -/
def wordsHash (ns : List Word) : UInt64 :=
  fxHasher.finish (ns.length.toUInt64 ::
    (ns.map fun n => [(show Fin (256 ^ 8) from n).val.toUInt64]).flatten)

/-- The stash with one more slice of words. -/
def stored (stash : Stash Unit) (ns : List Word) : Stash Unit where
  buf := stash.buf.extendFromSlice wordType ns
  entries := stash.entries ++
    [⟨(), stash.buf.bytes.length.toUInt32, ns.length.toUInt32, wordsHash ns⟩]
  internMap := Function.update stash.internMap ⟨(), ns.length, wordsHash ns, 0⟩
    stash.entries.length

theorem allocSlice_words (halign : 8 ∣ stash.buf.bytes.length)
    (hroom : stash.entries.length + 1 < 2 ^ 32)
    (hvacant : stash.internMap ⟨(), ns.length, wordsHash ns, 0⟩ = none) :
    stash.allocSlice (stashTypes wordLayout) fxHasher.finish () ns =
      some (stash.entries.length, stored stash ns) := by
  have hwords : ns.mapM (wordType.stashHash stash.inlineHashes) =
      some (ns.map fun n => [(show Fin (256 ^ 8) from n).val.toUInt64]) := List.mapM_pure
  have hpush : stash.pushRaw (stashTypes wordLayout) () ns (wordsHash ns) = _ :=
    pushRaw_aligned rfl halign hroom
  rw [Stash.allocSlice, hwords]
  exact intern_vacant hvacant hpush

/-- Where the first word of a buffer lies. -/
theorem valueAt_zero {bytes : List UInt8} {v : Word} {align : Nat} :
    (AlignedBuf.mk (wordType.encode v ++ bytes) align).valueAt
      wordType 0 = v := by
  have htake : (wordType.encode v ++ bytes).take 8 = wordType.encode v :=
    List.take_left' (wordType.length_encode v)
  show wordType.decode ((wordType.encode v ++ bytes).take 8) = v
  rw [htake]
  exact wordType.decode_encode v

end Words

/-- A first slice fills the offsets of 32 bits.  The next offset wraps to that of its first word,
so that the slice of the word 0 reads as the slice of that word; and interning the word by itself
finds the slice, as the hashes of the two collide. -/
def wrappedOps (tail : List Word) : List (Op (stashTypes wordLayout)) :=
  [.allocSlice () (seedWord :: tail), .allocSlice () [zeroWord], .alloc () seedWord]

/-- The entry at 1 reads as a word and as a slice of it. -/
def ReadsBoth (stash : Stash Unit) : Prop :=
  ∃ e, stash.entries[1]? = some e ∧
    stash.buf.readOne wordType e.offset = some seedWord ∧
    stash.buf.readSlice wordType e.offset e.count = some [seedWord]

/-- After 4 GiB of words, the offset of a slice wraps to that of the first word. -/
theorem wrapped_stored {tail : List Word} (htail : tail.length = 536870911) :
    Stash.new.allocSlice (stashTypes wordLayout) fxHasher.finish () (seedWord :: tail) =
        some (0, stored .new (seedWord :: tail)) ∧
      (stored .new (seedWord :: tail)).allocSlice (stashTypes wordLayout) fxHasher.finish ()
          [zeroWord] = some (1, stored (stored .new (seedWord :: tail)) [zeroWord]) ∧
      ReadsBoth (stored (stored .new (seedWord :: tail)) [zeroWord]) := by
  let s₁ := stored .new (seedWord :: tail)
  have h₁ : Stash.new.allocSlice (stashTypes wordLayout) fxHasher.finish ()
      (seedWord :: tail) = some (0, s₁) :=
    allocSlice_words (Nat.dvd_zero 8) (by decide) rfl
  have hlen : s₁.buf.bytes.length = 4294967296 := by
    have hall : (encodeAll wordType (seedWord :: tail)).length = _ := length_encodeAll _
    rw [List.length_cons, htail] at hall
    exact hall
  have hvacant : s₁.internMap ⟨(), 1, wordsHash [zeroWord], 0⟩ = none := by
    refine Function.update_of_ne (fun heq => ?_) _ _
    have hcount := congrArg InternKey.count heq
    rw [List.length_cons, htail] at hcount
    exact absurd hcount (by show ¬ 1 = 536870911 + 1; decide)
  let s₂ := stored s₁ [zeroWord]
  have h₂ : s₁.allocSlice (stashTypes wordLayout) fxHasher.finish () [zeroWord] = some (1, s₂) :=
    allocSlice_words (by rw [hlen]; decide) (by show 2 < 2 ^ 32; decide) hvacant
  have hoffset : s₁.buf.bytes.length.toUInt32 = 0 := by
    rw [hlen]
    rfl
  have hbytes : s₂.buf = ⟨wordType.encode seedWord ++
      (encodeAll wordType tail ++ encodeAll wordType [zeroWord]), 8⟩ := by
    show AlignedBuf.mk (([] ++ (wordType.encode seedWord ++ encodeAll wordType tail)) ++ _) 8 = _
    rw [List.nil_append, List.append_assoc]
    rfl
  have hvalue : s₂.buf.valueAt wordType 0 = seedWord := by
    rw [hbytes]
    exact valueAt_zero
  have hvalid : s₂.buf.Valid wordType 0 8 := by
    refine ⟨Nat.le_refl 8, Nat.dvd_zero _, ?_⟩
    rw [hbytes, List.length_append, wordType.length_encode]
    exact Nat.le_add_right 8 _
  have hone : s₂.buf.readOne wordType 0 = some seedWord :=
    (if_pos hvalid).trans (congrArg some hvalue)
  have hslice : s₂.buf.readSlice wordType 0 1 = some [seedWord] := by
    rw [AlignedBuf.readSlice, if_neg (by decide), ← hvalue]
    exact if_pos hvalid
  have hentry : s₂.entries[1]? = some ⟨(), 0, 1, wordsHash [zeroWord]⟩ := by
    rw [← hoffset]
    rfl
  exact ⟨h₁, h₂, _, hentry, hone, hslice⟩

theorem wrapped_run {tail : List Word} (htail : tail.length = 536870911) :
    ∃ stash, ReadsBoth stash ∧ Stash.new.run (stashTypes wordLayout) fxHasher.finish
      (wrappedOps tail) = some ([.slice () 0 (seedWord :: tail), .slice () 1 [zeroWord],
        .ptr () 1 seedWord], stash) := by
  obtain ⟨h₁, h₂, hboth⟩ := wrapped_stored htail
  let s₂ := stored (stored .new (seedWord :: tail)) [zeroWord]
  obtain ⟨e, hentry, hone, hslice⟩ := hboth
  have h₃ : s₂.alloc (stashTypes wordLayout) fxHasher.finish () seedWord = some (1, s₂) := by
    refine intern_occupied ?_ hentry ?_
    · exact Function.update_self _ _ _
    · rw [hone]
      exact congrArg some (decide_eq_true rfl)
  refine ⟨s₂, ⟨_, hentry, hone, hslice⟩, ?_⟩
  simp only [wrappedOps, Stash.run, Stash.step, h₁, h₂, s₂, h₃, Option.bind_eq_bind,
    Option.bind_some, Option.pure_def]

theorem ReadsBoth.readSlice {stash : Stash Unit} (h : ReadsBoth stash) :
    stash.readSlice (stashTypes wordLayout) () 1 = some [seedWord] := by
  obtain ⟨e, he, -, hslice⟩ := h
  rw [Stash.readSlice, validateEntry, he]
  exact hslice

/-- An entry that reads as both has the tree of both. -/
theorem ReadsBoth.treeOf {stash : Stash Unit} (h : ReadsBoth stash) (fuel : Nat) :
    stash.treeOf wordLayout (fuel + 2) pairShape (pairOf ⟨1, by decide⟩ ⟨1, by decide⟩) =
      some (pairTree fxSeed.toNat) := by
  obtain ⟨e, he, hone, hslice⟩ := h
  have hentry : stash.validateEntry 1 () = some e := by
    rw [validateEntry, he]
    rfl
  have hptr : stash.readPtr (stashTypes wordLayout) () 1 = some seedWord := by
    rw [readPtr, hentry]
    exact hone
  have hread : stash.readSlice (stashTypes wordLayout) () 1 = some [seedWord] :=
    ReadsBoth.readSlice ⟨e, he, hone, hslice⟩
  have hnode : stash.nodeAt wordLayout (stash.treeOf wordLayout (fuel + 1)) () 1 =
      some (.node (.scalar 8 fxSeed.toNat)) := by
    rw [nodeAt, hptr]
    rfl
  have hitems : stash.sliceAt wordLayout (stash.treeOf wordLayout (fuel + 1)) () 1 =
      some (.slice (.cons (.scalar 8 fxSeed.toNat) .nil)) := by
    rw [sliceAt, hread]
    rfl
  show (stash.sliceAt wordLayout (stash.treeOf wordLayout (fuel + 1)) () 1).bind _ = _
  rw [hitems]
  show ((stash.nodeAt wordLayout (stash.treeOf wordLayout (fuel + 1)) () 1).bind _).bind _ = _
  rw [hnode]
  rfl

variable (digest : List UInt8 → Fingerprint) in
/-- An entry that reads as both is hashed once, as the slice. -/
theorem ReadsBoth.hasher {stash : Stash Unit} (h : ReadsBoth stash) (fuel : Nat) :
    (Stashed.hasher wordLayout digest (fuel + 2) stash
      (pairOf ⟨1, by decide⟩ ⟨1, by decide⟩)).map FingerprintHasher.state =
      some ((digest (leBytes 8 1 ++ leBytes 8 fxSeed.toNat)).1 ++
        (digest (leBytes 8 1 ++ leBytes 8 fxSeed.toNat)).1) := by
  obtain ⟨e, he, hone, hslice⟩ := h
  have hsliceHash : (fingerprintHasher wordLayout digest stash (fuel + 2)).stashHashSlice () 1 .new =
      some ⟨(digest (leBytes 8 1 ++ leBytes 8 fxSeed.toNat)).1,
        [none, some (digest (leBytes 8 1 ++ leBytes 8 fxSeed.toNat))]⟩ := by
    simp only [fingerprintHasher, he, hslice, Option.bind_eq_bind, Option.bind_some]
    rfl
  show (((fingerprintHasher wordLayout digest stash (fuel + 2)).stashHashSlice () 1 .new).bind _).map
    _ = _
  rw [hsliceHash, Option.bind_some]
  have hptrHash : (fingerprintHasher wordLayout digest stash (fuel + 2)).stashHashPtr () 1
      ⟨(digest (leBytes 8 1 ++ leBytes 8 fxSeed.toNat)).1,
        [none, some (digest (leBytes 8 1 ++ leBytes 8 fxSeed.toNat))]⟩ = some
      ⟨(digest (leBytes 8 1 ++ leBytes 8 fxSeed.toNat)).1 ++
        (digest (leBytes 8 1 ++ leBytes 8 fxSeed.toNat)).1,
        [none, some (digest (leBytes 8 1 ++ leBytes 8 fxSeed.toNat))]⟩ := by
    simp only [fingerprintHasher, he, hone, Option.bind_eq_bind, Option.bind_some]
    rfl
  show (((fingerprintHasher wordLayout digest stash (fuel + 2)).stashHashPtr () 1 _).bind _).map
    _ = _
  rw [hptrHash]
  rfl

end Sage
