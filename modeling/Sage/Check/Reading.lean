import Sage.Check.TyTree

/-!
# Check — the trees of a body

A body lives in a stash: an entry names earlier entries by handle, and the tree below a handle is
read off the entries.  A reading may replace slots, types and nodes on the way.

* `BodyStash` — the entries, in the order they were allocated; an entry equal to an earlier one is
  not stored again.
* `readExpr`, `readPat` — the tree below a handle; `readExpr_mono`, `exists_readExpr`.
* `BodyStash.tree` — an expression as it is stored, with `tree_alloc`.
-/

namespace Sage

structure ExprPtr where
  index : Nat
deriving DecidableEq

structure PatPtr where
  index : Nat
deriving DecidableEq

inductive Entry where
  | expr (node : TyExpr ExprPtr PatPtr)
  | pat (node : TyPat PatPtr)
deriving DecidableEq

abbrev BodyStash := List Entry

inductive PatTree where
  | mk (node : TyPat PatTree)

inductive ExprTree where
  | mk (node : TyExpr ExprTree PatTree)

/-- What a reading puts for a slot, for a type and for a node it has read. -/
structure Reading where
  slot : ExprSlot → Option ExprPtr
  ty : Nat → Ty → Option Ty
  expr : TyExpr ExprTree PatTree → TyExpr ExprTree PatTree

/-- A slot that stands for another expression. -/
def Reading.follow (r : Reading) (data : TyExprData ExprPtr PatPtr) : Option ExprPtr :=
  match data with
  | .unresolved slot => r.slot slot
  | _ => none

/-- An expression as it is stored. -/
def Reading.plain : Reading where
  slot _ := none
  ty _ := some
  expr := id

namespace BodyStash

def expr (b : BodyStash) (p : ExprPtr) : Option (TyExpr ExprPtr PatPtr) :=
  match b[p.index]? with
  | some (.expr node) => some node
  | some (.pat _) | none => none

def pat (b : BodyStash) (p : PatPtr) : Option (TyPat PatPtr) :=
  match b[p.index]? with
  | some (.pat node) => some node
  | some (.expr _) | none => none

/-- Allocation reuses an equal entry. -/
def alloc (b : BodyStash) (entry : Entry) : Nat × BodyStash :=
  match b.idxOf? entry with
  | some i => (i, b)
  | none => (b.length, b ++ [entry])

def readPat (b : BodyStash) (r : Reading) : Nat → PatPtr → Option PatTree
  | 0, _ => none
  | n + 1, p => do
      let node ← b.pat p
      let kind ← node.kind.mapM (b.readPat r n)
      return .mk ⟨kind, ← r.ty n node.ty, node.span⟩

def readExpr (b : BodyStash) (r : Reading) : Nat → ExprPtr → Option ExprTree
  | 0, _ => none
  | n + 1, p => do
      let node ← b.expr p
      match r.follow node.data with
      | some contents => b.readExpr r n contents
      | none => do
          let ty ← r.ty n node.ty
          let data ← node.data.mapM ⟨b.readExpr r n, b.readPat r n, r.ty n⟩
          return .mk (r.expr ⟨data, ty, node.span⟩)

/-- The pattern as it is stored; entries name earlier ones, so its index bounds its depth. -/
def patTree (b : BodyStash) (p : PatPtr) : Option PatTree := b.readPat .plain (p.index + 1) p

/-- The expression as it is stored. -/
def tree (b : BodyStash) (p : ExprPtr) : Option ExprTree := b.readExpr .plain (p.index + 1) p

/-! ### Growing stashes -/

variable {b b' : BodyStash} {r : Reading} {n m : Nat}

theorem expr_eq_some {p : ExprPtr} {node : TyExpr ExprPtr PatPtr} :
    b.expr p = some node ↔ b[p.index]? = some (.expr node) := by
  unfold expr
  split <;> simp_all

theorem pat_eq_some {p : PatPtr} {node : TyPat PatPtr} :
    b.pat p = some node ↔ b[p.index]? = some (.pat node) := by
  unfold pat
  split <;> simp_all

theorem getElem?_extend {α : Type} {l l' : List α} (h : l <+: l') {i : Nat} {a : α}
    (ha : l[i]? = some a) : l'[i]? = some a := by
  obtain ⟨rest, rfl⟩ := h
  obtain ⟨hi, -⟩ := List.getElem?_eq_some_iff.mp ha
  rwa [List.getElem?_append_left hi]

theorem expr_extend (h : b <+: b') {p : ExprPtr} {node : TyExpr ExprPtr PatPtr}
    (hp : b.expr p = some node) : b'.expr p = some node :=
  expr_eq_some.mpr (getElem?_extend h (expr_eq_some.mp hp))

theorem pat_extend (h : b <+: b') {p : PatPtr} {node : TyPat PatPtr}
    (hp : b.pat p = some node) : b'.pat p = some node :=
  pat_eq_some.mpr (getElem?_extend h (pat_eq_some.mp hp))

end BodyStash

/-- A type that is put with some fuel is put with more. -/
def Reading.Stable (r : Reading) : Prop :=
  ∀ ⦃n m t u⦄, n ≤ m → r.ty n t = some u → r.ty m t = some u

namespace BodyStash

variable {b b' : BodyStash} {r : Reading} {n m : Nat}

theorem readPat_mono (hr : r.Stable) (h : b <+: b') (hnm : n ≤ m) {p : PatPtr} {t : PatTree}
    (hp : b.readPat r n p = some t) : b'.readPat r m p = some t := by
  induction n generalizing m p t with
  | zero => cases hp
  | succ n ih =>
      obtain ⟨m, rfl⟩ := Nat.exists_eq_add_one.mpr (Nat.lt_of_lt_of_le n.succ_pos hnm)
      have hnm := Nat.le_of_succ_le_succ hnm
      simp only [readPat, Option.bind_eq_bind, Option.bind_eq_some_iff] at hp ⊢
      obtain ⟨node, hnode, kind, hkind, u, hu, ht⟩ := hp
      obtain ⟨kind', hkind', heq⟩ := TyPatKind.mapM_read .below (g := b.readPat r n)
        (f := b'.readPat r m) (k := some) (fun p _ t ht => ⟨t, ih hnm ht, rfl⟩) kind hkind
      rw [TyPatKind.mapM_some] at heq
      exact ⟨node, pat_extend h hnode, kind, heq ▸ hkind', u, hr hnm hu, ht⟩

theorem readExpr_mono (hr : r.Stable) (h : b <+: b') (hnm : n ≤ m) {p : ExprPtr} {t : ExprTree}
    (hp : b.readExpr r n p = some t) : b'.readExpr r m p = some t := by
  induction n generalizing m p t with
  | zero => cases hp
  | succ n ih =>
      obtain ⟨m, rfl⟩ := Nat.exists_eq_add_one.mpr (Nat.lt_of_lt_of_le n.succ_pos hnm)
      have hnm := Nat.le_of_succ_le_succ hnm
      rw [readExpr, Option.bind_eq_bind, Option.bind_eq_some_iff] at hp ⊢
      obtain ⟨node, hnode, hp⟩ := hp
      refine ⟨node, expr_extend h hnode, ?_⟩
      cases hf : r.follow node.data with
      | some contents =>
          rw [hf] at hp
          exact ih hnm hp
      | none =>
          simp only [hf, Option.bind_eq_bind, Option.bind_eq_some_iff] at hp ⊢
          obtain ⟨u, hu, data, hdata, ht⟩ := hp
          have hparts : ∀ part ∈ node.data.parts, part.Visited .below
              ⟨b'.readExpr r m, b'.readPat r m, r.ty m⟩ ⟨b.readExpr r n, b.readPat r n, r.ty n⟩
              .keep := by
            rintro (e | p | t) -
            · exact fun t ht => ⟨t, ih hnm ht, rfl⟩
            · exact fun t ht => ⟨t, readPat_mono hr h hnm ht, rfl⟩
            · exact fun u hu => ⟨u, hr hnm hu, rfl⟩
          obtain ⟨data', hdata', heq⟩ := TyExprData.mapM_read .below hparts data hdata
          rw [TyExprData.mapM_keep] at heq
          exact ⟨u, hr hnm hu, data, heq ▸ hdata', ht⟩

/-! ### Expressions as they are stored -/

theorem stable_plain : Reading.plain.Stable := fun _ _ _ _ _ h => h

theorem follow_plain (data : TyExprData ExprPtr PatPtr) : Reading.plain.follow data = none := by
  cases data <;> rfl

theorem tree_extend (h : b <+: b') {p : ExprPtr} {t : ExprTree} (hp : b.tree p = some t) :
    b'.tree p = some t := readExpr_mono stable_plain h (Nat.le_refl _) hp

theorem patTree_extend (h : b <+: b') {p : PatPtr} {t : PatTree} (hp : b.patTree p = some t) :
    b'.patTree p = some t := readPat_mono stable_plain h (Nat.le_refl _) hp

/-- Reads the parts of a stored node. -/
def reader (b : BodyStash) : Visitor Option ExprPtr ExprTree PatPtr PatTree :=
  ⟨b.tree, b.patTree, some⟩

/-- Every entry can be read. -/
structure Tidy (b : BodyStash) : Prop where
  expr : ∀ ⦃p node⦄, b.expr p = some node → ∃ t, b.tree p = some t
  pat : ∀ ⦃p node⦄, b.pat p = some node → ∃ t, b.patTree p = some t

namespace Tidy

theorem nil : Tidy [] where
  expr p node h := by simp [BodyStash.expr] at h
  pat p node h := by simp [BodyStash.pat] at h

theorem tree_of_read (hb : b.Tidy) {p : ExprPtr} {t : ExprTree}
    (h : b.readExpr .plain n p = some t) : b.tree p = some t := by
  cases n with
  | zero => cases h
  | succ n =>
      obtain ⟨node, hnode, -⟩ := Option.bind_eq_some_iff.mp h
      obtain ⟨u, hu⟩ := hb.expr hnode
      have hmax := readExpr_mono stable_plain (List.prefix_refl b)
        (Nat.le_max_left (n + 1) (p.index + 1)) h
      rw [readExpr_mono stable_plain (List.prefix_refl b) (Nat.le_max_right ..) hu] at hmax
      exact hu.trans hmax

theorem patTree_of_read (hb : b.Tidy) {p : PatPtr} {t : PatTree}
    (h : b.readPat .plain n p = some t) : b.patTree p = some t := by
  cases n with
  | zero => cases h
  | succ n =>
      obtain ⟨node, hnode, -⟩ := Option.bind_eq_some_iff.mp h
      obtain ⟨u, hu⟩ := hb.pat hnode
      have hmax := readPat_mono stable_plain (List.prefix_refl b)
        (Nat.le_max_left (n + 1) (p.index + 1)) h
      rw [readPat_mono stable_plain (List.prefix_refl b) (Nat.le_max_right ..) hu] at hmax
      exact hu.trans hmax

/-- The parts that can be read with some fuel read as they are stored. -/
theorem mapM_reader (hb : b.Tidy) {data : TyExprData ExprPtr PatPtr}
    {t : TyExprData ExprTree PatTree}
    (h : data.mapM ⟨b.readExpr .plain n, b.readPat .plain n, some⟩ = some t) :
    data.mapM b.reader = some t := by
  have hparts : ∀ part ∈ data.parts, part.Visited .below b.reader
      ⟨b.readExpr .plain n, b.readPat .plain n, some⟩ .keep := by
    rintro (e | p | t) -
    · exact fun t ht => ⟨t, hb.tree_of_read ht, rfl⟩
    · exact fun t ht => ⟨t, hb.patTree_of_read ht, rfl⟩
    · exact fun u hu => ⟨u, hu, rfl⟩
  obtain ⟨t', ht, heq⟩ := TyExprData.mapM_read .below hparts t h
  rw [TyExprData.mapM_keep] at heq
  exact ht.trans heq

/-- The node of a tree, and the trees of its parts. -/
theorem tree_eq_some (hb : b.Tidy) {p : ExprPtr} {t : ExprTree} (h : b.tree p = some t) :
    ∃ node data, b.expr p = some node ∧ node.data.mapM b.reader = some data ∧
      t = .mk ⟨data, node.ty, node.span⟩ := by
  obtain ⟨node, hnode, h⟩ := Option.bind_eq_some_iff.mp h
  rw [follow_plain] at h
  obtain ⟨_, ⟨⟩, h⟩ := Option.bind_eq_some_iff.mp h
  obtain ⟨data, hdata, ⟨⟩⟩ := Option.bind_eq_some_iff.mp h
  exact ⟨node, data, hnode, hb.mapM_reader hdata, rfl⟩

end Tidy

/-- A part whose tree is known reads with as much fuel as there are entries. -/
theorem read_length {p : ExprPtr} {t : ExprTree} (h : b.tree p = some t) :
    b.readExpr .plain b.length p = some t := by
  obtain ⟨node, hnode, -⟩ := Option.bind_eq_some_iff.mp h
  obtain ⟨hi, -⟩ := List.getElem?_eq_some_iff.mp (expr_eq_some.mp hnode)
  exact readExpr_mono stable_plain (List.prefix_refl b) (Nat.succ_le_of_lt hi) h

theorem readPat_length {p : PatPtr} {t : PatTree} (h : b.patTree p = some t) :
    b.readPat .plain b.length p = some t := by
  obtain ⟨node, hnode, -⟩ := Option.bind_eq_some_iff.mp h
  obtain ⟨hi, -⟩ := List.getElem?_eq_some_iff.mp (pat_eq_some.mp hnode)
  exact readPat_mono stable_plain (List.prefix_refl b) (Nat.succ_le_of_lt hi) h


/-- What an allocation returns: the entry, in an extension of the stash by that entry at most. -/
theorem alloc_spec (b : BodyStash) (entry : Entry) :
    b <+: (b.alloc entry).2 ∧ (b.alloc entry).2[(b.alloc entry).1]? = some entry ∧
      (∀ i old, (b.alloc entry).2[i]? = some old → b[i]? = some old ∨
        i = b.length ∧ i = (b.alloc entry).1 ∧ old = entry) := by
  rw [alloc]
  cases h : b.idxOf? entry with
  | some i =>
      obtain ⟨hi, he, -⟩ := List.idxOf?_eq_some_iff.mp h
      exact ⟨List.prefix_refl b, List.getElem?_eq_some_iff.mpr ⟨hi, he⟩, fun _ _ => .inl⟩
  | none =>
      refine ⟨List.prefix_append .., by simp, fun i old hold => ?_⟩
      rcases Nat.lt_trichotomy i b.length with hi | rfl | hi
      · exact .inl (by rwa [List.getElem?_append_left hi] at hold)
      · simp only [List.getElem?_concat_length, Option.some.injEq] at hold
        exact .inr ⟨rfl, rfl, hold.symm⟩
      · rw [List.getElem?_eq_none (by simpa using Nat.succ_le_of_lt hi)] at hold
        cases hold

/-- A node whose parts can be read can be read where it is stored. -/
theorem read_node {node : TyExpr ExprPtr PatPtr} {data : TyExprData ExprTree PatTree}
    (hdata : node.data.mapM b.reader = some data) (h : b <+: b') {p : ExprPtr}
    (hp : b'.expr p = some node) :
    b'.readExpr .plain (b.length + 1) p = some (.mk ⟨data, node.ty, node.span⟩) := by
  have hparts : ∀ part ∈ node.data.parts, part.Visited .below
      ⟨b'.readExpr .plain b.length, b'.readPat .plain b.length, some⟩ b.reader .keep := by
    rintro (e | p | t) -
    · exact fun t ht => ⟨t, readExpr_mono stable_plain h (Nat.le_refl _) (read_length ht), rfl⟩
    · exact fun t ht => ⟨t, readPat_mono stable_plain h (Nat.le_refl _) (readPat_length ht), rfl⟩
    · exact fun u hu => ⟨u, hu, rfl⟩
  obtain ⟨data', hdata', heq⟩ := TyExprData.mapM_read .below hparts data hdata
  rw [TyExprData.mapM_keep] at heq
  cases heq
  rw [readExpr, hp, Option.bind_eq_bind, Option.bind_some, follow_plain]
  exact Option.bind_eq_some_iff.mpr ⟨node.ty, rfl, Option.bind_eq_some_iff.mpr ⟨data, hdata', rfl⟩⟩

theorem mapM_reader_extend (h : b <+: b') {data : TyExprData ExprPtr PatPtr}
    {t : TyExprData ExprTree PatTree} (hdata : data.mapM b.reader = some t) :
    data.mapM b'.reader = some t := by
  have hparts : ∀ part ∈ data.parts, part.Visited .below b'.reader b.reader .keep := by
    rintro (e | p | t) -
    · exact fun t ht => ⟨t, tree_extend h ht, rfl⟩
    · exact fun t ht => ⟨t, patTree_extend h ht, rfl⟩
    · exact fun u hu => ⟨u, hu, rfl⟩
  obtain ⟨t', ht, heq⟩ := TyExprData.mapM_read .below hparts t hdata
  rw [TyExprData.mapM_keep] at heq
  exact ht.trans heq

theorem readPat_node {node : TyPat PatPtr} {kind : TyPatKind PatTree}
    (hkind : node.kind.mapM b.patTree = some kind) (h : b <+: b') {p : PatPtr}
    (hp : b'.pat p = some node) :
    b'.readPat .plain (b.length + 1) p = some (.mk ⟨kind, node.ty, node.span⟩) := by
  obtain ⟨kind', hkind', heq⟩ := TyPatKind.mapM_read .below (g := b.patTree)
    (f := b'.readPat .plain b.length) (k := some)
    (fun p _ t ht => ⟨t, readPat_mono stable_plain h (Nat.le_refl _) (readPat_length ht), rfl⟩)
    kind hkind
  rw [TyPatKind.mapM_some] at heq
  cases heq
  rw [readPat, hp, Option.bind_eq_bind, Option.bind_some]
  exact Option.bind_eq_some_iff.mpr ⟨kind, hkind', rfl⟩

namespace Tidy

variable (hb : b.Tidy)
include hb

theorem alloc {entry : Entry}
    (hexpr : ∀ p node, entry = .expr node → (b.alloc entry).2.expr p = some node →
      p.index = b.length → ∃ t, (b.alloc entry).2.tree p = some t)
    (hpat : ∀ p node, entry = .pat node → (b.alloc entry).2.pat p = some node →
      p.index = b.length → ∃ t, (b.alloc entry).2.patTree p = some t) :
    (b.alloc entry).2.Tidy := by
  obtain ⟨hle, -, hnew⟩ := b.alloc_spec entry
  refine ⟨fun p node hp => ?_, fun p node hp => ?_⟩
  · rcases hnew p.index _ (expr_eq_some.mp hp) with hold | ⟨hi, -, heq⟩
    · obtain ⟨t, ht⟩ := hb.expr (expr_eq_some.mpr hold)
      exact ⟨t, tree_extend hle ht⟩
    · exact hexpr p node heq.symm hp hi
  · rcases hnew p.index _ (pat_eq_some.mp hp) with hold | ⟨hi, -, heq⟩
    · obtain ⟨t, ht⟩ := hb.pat (pat_eq_some.mpr hold)
      exact ⟨t, patTree_extend hle ht⟩
    · exact hpat p node heq.symm hp hi

/-- Storing an expression whose parts can be read. -/
theorem allocExpr {node : TyExpr ExprPtr PatPtr} {data : TyExprData ExprTree PatTree}
    (hdata : node.data.mapM b.reader = some data) :
    (b.alloc (.expr node)).2.Tidy ∧ (b.alloc (.expr node)).2.tree ⟨(b.alloc (.expr node)).1⟩ =
      some (.mk ⟨data, node.ty, node.span⟩) := by
  obtain ⟨hle, hget, -⟩ := b.alloc_spec (.expr node)
  have htidy : (b.alloc (.expr node)).2.Tidy := by
    refine hb.alloc (fun p node' heq hp hi => ?_) nofun
    cases heq
    rw [tree, hi]
    exact ⟨_, read_node hdata hle hp⟩
  exact ⟨htidy, htidy.tree_of_read (read_node hdata hle (expr_eq_some.mpr hget))⟩

theorem allocPat {node : TyPat PatPtr} {kind : TyPatKind PatTree}
    (hkind : node.kind.mapM b.patTree = some kind) :
    (b.alloc (.pat node)).2.Tidy ∧ (b.alloc (.pat node)).2.patTree ⟨(b.alloc (.pat node)).1⟩ =
      some (.mk ⟨kind, node.ty, node.span⟩) := by
  obtain ⟨hle, hget, -⟩ := b.alloc_spec (.pat node)
  have htidy : (b.alloc (.pat node)).2.Tidy := by
    refine hb.alloc nofun (fun p node' heq hp hi => ?_)
    cases heq
    rw [patTree, hi]
    exact ⟨_, readPat_node hkind hle hp⟩
  exact ⟨htidy, htidy.patTree_of_read (readPat_node hkind hle (pat_eq_some.mpr hget))⟩

end Tidy

/-! ### Which expressions can be read -/

/-- The parts a reading comes to, from an expression. -/
inductive Reaches (b : BodyStash) (r : Reading) (root : ExprPtr) : Part ExprPtr PatPtr → Prop
  | root : Reaches b r root (.expr root)
  | expr {p : ExprPtr} {node : TyExpr ExprPtr PatPtr} {part : Part ExprPtr PatPtr}
      (h : Reaches b r root (.expr p)) (hp : b.expr p = some node)
      (hf : r.follow node.data = none) (hpart : part ∈ node.parts) : Reaches b r root part
  | slot {p q : ExprPtr} {node : TyExpr ExprPtr PatPtr} (h : Reaches b r root (.expr p))
      (hp : b.expr p = some node) (hf : r.follow node.data = some q) : Reaches b r root (.expr q)
  | pat {p : PatPtr} {node : TyPat PatPtr} {part : Part ExprPtr PatPtr}
      (h : Reaches b r root (.pat p)) (hp : b.pat p = some node) (hpart : part ∈ node.parts) :
      Reaches b r root part

/-- Parts below which everything is there, and no slot leads back to itself. -/
inductive Grounded (b : BodyStash) (follow : TyExprData ExprPtr PatPtr → Option ExprPtr) :
    Part ExprPtr PatPtr → Prop
  | expr {p : ExprPtr} {node : TyExpr ExprPtr PatPtr} (hp : b.expr p = some node)
      (hf : follow node.data = none) (h : ∀ part ∈ node.parts, Grounded b follow part) :
      Grounded b follow (.expr p)
  | slot {p q : ExprPtr} {node : TyExpr ExprPtr PatPtr} (hp : b.expr p = some node)
      (hf : follow node.data = some q) (h : Grounded b follow (.expr q)) :
      Grounded b follow (.expr p)
  | pat {p : PatPtr} {node : TyPat PatPtr} (hp : b.pat p = some node)
      (h : ∀ part ∈ node.parts, Grounded b follow part) : Grounded b follow (.pat p)
  | ty (t : Ty) : Grounded b follow (.ty t)

/-- The reading of a part ends with `n` fuel. -/
def ReadsAt (b : BodyStash) (r : Reading) (n : Nat) : Part ExprPtr PatPtr → Prop
  | .expr p => ∃ t, b.readExpr r n p = some t
  | .pat p => ∃ t, b.readPat r n p = some t
  | .ty t => ∃ u, r.ty n t = some u

def Reads (b : BodyStash) (r : Reading) (part : Part ExprPtr PatPtr) : Prop :=
  ∃ n, b.ReadsAt r n part

theorem ReadsAt.mono (hr : r.Stable) (hnm : n ≤ m) {part : Part ExprPtr PatPtr}
    (h : b.ReadsAt r n part) : b.ReadsAt r m part := by
  cases part with
  | expr p => exact h.imp fun t ht => readExpr_mono hr (List.prefix_refl b) hnm ht
  | pat p => exact h.imp fun t ht => readPat_mono hr (List.prefix_refl b) hnm ht
  | ty t => exact h.imp fun u hu => hr hnm hu

theorem Reads.common (hr : r.Stable) {parts : List (Part ExprPtr PatPtr)}
    (h : ∀ part ∈ parts, b.Reads r part) : ∃ n, ∀ part ∈ parts, b.ReadsAt r n part := by
  induction parts with
  | nil => exact ⟨0, nofun⟩
  | cons part parts ih =>
      obtain ⟨n, hn⟩ := h part List.mem_cons_self
      obtain ⟨m, hm⟩ := ih fun part' hp => h part' (List.mem_cons_of_mem part hp)
      refine ⟨max n m, fun part' hp => ?_⟩
      rcases List.mem_cons.mp hp with rfl | hp
      · exact hn.mono hr (Nat.le_max_left n m)
      · exact (hm part' hp).mono hr (Nat.le_max_right n m)

/-- Where a node reads, its data reads with fuel that serves all of its parts. -/
theorem exists_mapM {data : TyExprData ExprPtr PatPtr} (h : ∀ part ∈ data.parts, b.ReadsAt r n part) :
    ∃ t, data.mapM ⟨b.readExpr r n, b.readPat r n, r.ty n⟩ = some t := by
  have hparts : ∀ part ∈ data.parts, part.Visited .definite
      ⟨b.readExpr r n, b.readPat r n, r.ty n⟩ ⟨fun _ => (), fun _ => (), fun _ => .bool⟩
      ⟨fun _ => some (), fun _ => some (), fun _ => some .bool⟩ := by
    rintro (e | p | t) hp
    all_goals
      obtain ⟨u, hu⟩ := h _ hp
      exact ⟨u, hu, rfl⟩
  obtain ⟨t, ht, -⟩ := TyExprData.mapM_read .definite hparts
  exact ⟨t, ht⟩

theorem exists_mapM_kind {kind : TyPatKind PatPtr} (h : ∀ p ∈ kind.pats, b.ReadsAt r n (.pat p)) :
    ∃ t, kind.mapM (b.readPat r n) = some t := by
  have hpats : ∀ p ∈ kind.pats, Relator.definite.rel (fun _ b => some () = some b)
      (b.readPat r n p) (pure ()) := fun p hp =>
    (h p hp).imp fun t ht => ⟨ht, rfl⟩
  obtain ⟨t, ht, -⟩ := TyPatKind.mapM_read .definite hpats
  exact ⟨t, ht⟩

/-- A grounded part reads, if the types the reading comes to can be put. -/
theorem Grounded.reads (hr : r.Stable) {root : ExprPtr}
    (hty : ∀ t, b.Reaches r root (.ty t) → b.Reads r (.ty t)) {part : Part ExprPtr PatPtr}
    (h : b.Grounded r.follow part) (hreach : b.Reaches r root part) : b.Reads r part := by
  induction h with
  | @expr p node hp hf _ ih =>
      obtain ⟨n, hn⟩ := Reads.common hr fun part hpart =>
        ih part hpart (.expr hreach hp hf hpart)
      obtain ⟨u, hu⟩ := hn (.ty node.ty) List.mem_cons_self
      obtain ⟨data, hdata⟩ := exists_mapM fun part hpart => hn part (List.mem_cons_of_mem _ hpart)
      refine ⟨n + 1, .mk (r.expr ⟨data, u, node.span⟩), ?_⟩
      rw [readExpr, hp, Option.bind_eq_bind, Option.bind_some, hf]
      exact Option.bind_eq_some_iff.mpr ⟨u, hu, Option.bind_eq_some_iff.mpr ⟨data, hdata, rfl⟩⟩
  | @slot p q node hp hf _ ih =>
      obtain ⟨n, t, ht⟩ := ih (.slot hreach hp hf)
      refine ⟨n + 1, t, ?_⟩
      rw [readExpr, hp, Option.bind_eq_bind, Option.bind_some, hf]
      exact ht
  | @pat p node hp _ ih =>
      obtain ⟨n, hn⟩ := Reads.common hr fun part hpart => ih part hpart (.pat hreach hp hpart)
      obtain ⟨u, hu⟩ := hn (.ty node.ty) List.mem_cons_self
      obtain ⟨kind, hkind⟩ := exists_mapM_kind (b := b) (r := r) fun p hp =>
        hn (.pat p) (List.mem_cons_of_mem _ (List.mem_map_of_mem hp))
      refine ⟨n + 1, .mk ⟨kind, u, node.span⟩, ?_⟩
      rw [readPat, hp, Option.bind_eq_bind, Option.bind_some]
      exact Option.bind_eq_some_iff.mpr ⟨kind, hkind, Option.bind_eq_some_iff.mpr ⟨u, hu, rfl⟩⟩
  | ty t => exact hty t hreach

end BodyStash
end Sage
