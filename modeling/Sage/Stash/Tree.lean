import Mathlib.Data.Set.Function
import Sage.Stash.Shape

/-!
# Stash — values as trees

What a value is once its handles are followed: a finite tree, in which neither indices nor
sharing are left.  Its fingerprint hashes the words of the tree, where a child behind a handle
stands as its own fingerprint.

* `Tree.bytes` — what is written for a tree.
* `Tree.digest_bytes_eq_iff` — trees of one shape are told apart by what is written for them, as long as the
  hash is injective on what it is fed.
-/

namespace Sage

/-! ### Words -/

/-- The `width` bytes of a number, lowest first. -/
def leBytes : Nat → Nat → List UInt8
  | 0, _ => []
  | width + 1, n => (n % 256).toUInt8 :: leBytes width (n / 256)

theorem length_leBytes (width : Nat) : ∀ n, (leBytes width n).length = width := by
  induction width with
  | zero => exact fun n => rfl
  | succ width ih => exact fun n => congrArg (· + 1) (ih (n / 256))

theorem leBytes_inj {width : Nat} : ∀ {m n : Nat}, m < 256 ^ width → n < 256 ^ width →
    leBytes width m = leBytes width n → m = n := by
  induction width with
  | zero =>
      intro m n hm hn _
      rw [Nat.pow_zero, Nat.lt_one_iff] at hm hn
      rw [hm, hn]
  | succ width ih =>
      intro m n hm hn h
      obtain ⟨hlow, hrest⟩ := List.cons.inj h
      have hdiv : ∀ {k : Nat}, k < 256 ^ (width + 1) → k / 256 < 256 ^ width := fun hk =>
        Nat.div_lt_of_lt_mul (by rwa [Nat.mul_comm, ← Nat.pow_succ])
      have hlow : m % 256 = n % 256 := by
        have hmod : ∀ k : Nat, (k % 256).toUInt8.toNat = k % 256 := fun k => by simp
        rw [← hmod m, ← hmod n, hlow]
      have hhigh := ih (hdiv hm) (hdiv hn) hrest
      rw [← Nat.div_add_mod m 256, ← Nat.div_add_mod n 256, hlow, hhigh]

theorem leBytes_append_inj {width m n : Nat} (hm : m < 256 ^ width) (hn : n < 256 ^ width)
    {r r' : List UInt8} (h : leBytes width m ++ r = leBytes width n ++ r') : m = n ∧ r = r' := by
  obtain ⟨hbytes, hrest⟩ := List.append_inj h (by rw [length_leBytes, length_leBytes])
  exact ⟨leBytes_inj hm hn hbytes, hrest⟩

/-! ### Trees -/

/-- The 128 bits of a fingerprint. -/
abbrev Fingerprint := { bytes : List UInt8 // bytes.length = 16 }

/-- A value with its handles followed.  The elements behind a slice are a list of trees, made of
`nil` and `cons`. -/
inductive Tree where
  | scalar (width n : Nat)
  | unit
  | node (child : Tree)
  | slice (items : Tree)
  | absent
  | present (t : Tree)
  | field (t rest : Tree)
  | variant (tag i : Nat) (t : Tree)
  | nil
  | cons (t rest : Tree)

namespace Tree

def count : Tree → Nat
  | cons _ rest => rest.count + 1
  | _ => 0

section Bytes

variable (digest : List UInt8 → Fingerprint)

/-- What is written for a tree. -/
def bytes : Tree → List UInt8
  | scalar width n => leBytes width n
  | unit | nil => []
  | node child => (digest child.bytes).1
  | slice items => (digest (leBytes 8 items.count ++ items.bytes)).1
  | absent => leBytes 1 0
  | present t => leBytes 1 1 ++ t.bytes
  | field t rest | cons t rest => t.bytes ++ rest.bytes
  | variant tag i t => leBytes tag i ++ t.bytes

/-- Everything the hash is fed for the handles in a tree. -/
def fed : Tree → List (List UInt8)
  | scalar _ _ | unit | nil | absent => []
  | node child => child.bytes digest :: child.fed
  | slice items => (leBytes 8 items.count ++ items.bytes digest) :: items.fed
  | present t | variant _ _ t => t.fed
  | field t rest | cons t rest => t.fed ++ rest.fed

end Bytes

section Shape

variable {TypeId : Type} (D : TypeId → Shape TypeId)

mutual

/-- The tree of a value of a derived type. -/
def HasShape : Tree → Shape TypeId → Prop
  | scalar width n, .scalar width' => width = width' ∧ n < 256 ^ width
  | unit, .unit => True
  | node child, .ptr t => child.HasShape (D t)
  | slice items, .slice t => items.count < 2 ^ 64 ∧ items.HaveShape (D t)
  | absent, .option _ => True
  | present t, .option s => t.HasShape s
  | field t rest, .field s s' => t.HasShape s ∧ rest.HasShape s'
  | variant tag i t, .variants tag' count body =>
      tag = tag' ∧ i < 256 ^ tag ∧ ∃ h : i < count, t.HasShape (body ⟨i, h⟩)
  | _, _ => False

/-- The trees of the elements of a slice. -/
def HaveShape : Tree → Shape TypeId → Prop
  | nil, _ => True
  | cons t rest, s => t.HasShape s ∧ rest.HaveShape s
  | _, _ => False

end

variable {D} {digest : List UInt8 → Fingerprint} {F : Set (List UInt8)}

/-- Fingerprints have one length. -/
theorem digest_append_inj (hinj : Set.InjOn digest F) {a b r r' : List UInt8} (ha : a ∈ F)
    (hb : b ∈ F) (h : (digest a).1 ++ r = (digest b).1 ++ r') : a = b ∧ r = r' := by
  obtain ⟨hfp, hrest⟩ := List.append_inj h ((digest a).2.trans (digest b).2.symm)
  exact ⟨hinj ha hb (Subtype.ext hfp), hrest⟩

variable (D digest F) in
/-- What is written for a tree of a shape tells it apart from every other one, and ends itself. -/
def Apart (t : Tree) : Prop :=
  ∀ s t', t.HasShape D s → t'.HasShape D s → (∀ b ∈ t.fed digest, b ∈ F) →
    (∀ b ∈ t'.fed digest, b ∈ F) → ∀ r r', t.bytes digest ++ r = t'.bytes digest ++ r' →
      t = t' ∧ r = r'

variable (D digest F) in
/-- The same for the elements of a slice, next to as many others. -/
def ItemsApart (t : Tree) : Prop :=
  ∀ s t', t.HaveShape D s → t'.HaveShape D s → t.count = t'.count →
    (∀ b ∈ t.fed digest, b ∈ F) → (∀ b ∈ t'.fed digest, b ∈ F) →
    ∀ r r', t.bytes digest ++ r = t'.bytes digest ++ r' → t = t' ∧ r = r'

theorem Apart.pair {t rest t' rest' : Tree} {r r' : List UInt8}
    (h : (t.bytes digest ++ rest.bytes digest) ++ r = (t'.bytes digest ++ rest'.bytes digest) ++ r')
    (ht : ∀ q q', t.bytes digest ++ q = t'.bytes digest ++ q' → t = t' ∧ q = q')
    (hrest : ∀ q q', rest.bytes digest ++ q = rest'.bytes digest ++ q' → rest = rest' ∧ q = q') :
    t = t' ∧ rest = rest' ∧ r = r' := by
  rw [List.append_assoc, List.append_assoc] at h
  obtain ⟨rfl, hq⟩ := ht _ _ h
  exact ⟨rfl, hrest _ _ hq⟩

/-- Trees of one shape are told apart by what is written for them. -/
theorem apart (hinj : Set.InjOn digest F) (t : Tree) :
    t.Apart D digest F ∧ t.ItemsApart D digest F := by
  have hone : ∀ {n : Nat}, n < 2 → n < 256 ^ 1 := fun h => Nat.lt_of_lt_of_le h (by decide)
  induction t with
  | scalar width n =>
      refine ⟨fun s t' ht ht' _ _ r r' h => ?_, fun s t' ht => ht.elim⟩
      cases s <;> simp only [HasShape] at ht
      obtain ⟨rfl, hn⟩ := ht
      cases t' <;> simp only [HasShape] at ht'
      obtain ⟨rfl, hn'⟩ := ht'
      obtain ⟨rfl, hr⟩ := leBytes_append_inj hn hn' h
      exact ⟨rfl, hr⟩
  | unit =>
      refine ⟨fun s t' ht ht' _ _ r r' h => ?_, fun s t' ht => ht.elim⟩
      cases s <;> simp only [HasShape] at ht
      cases t' <;> simp only [HasShape] at ht'
      exact ⟨rfl, h⟩
  | node child ih =>
      refine ⟨fun s t' ht ht' hf hf' r r' h => ?_, fun s t' ht => ht.elim⟩
      cases s <;> simp only [HasShape] at ht
      cases t' <;> simp only [HasShape] at ht'
      -- the two children were fed to the hash
      rw [fed, List.forall_mem_cons] at hf hf'
      obtain ⟨hb, hr⟩ := digest_append_inj hinj hf.1 hf'.1 h
      obtain ⟨rfl, -⟩ := ih.1 _ _ ht ht' hf.2 hf'.2 [] [] (congrArg (· ++ []) hb)
      exact ⟨rfl, hr⟩
  | slice items ih =>
      refine ⟨fun s t' ht ht' hf hf' r r' h => ?_, fun s t' ht => ht.elim⟩
      cases s <;> simp only [HasShape] at ht
      cases t' <;> simp only [HasShape] at ht'
      rw [fed, List.forall_mem_cons] at hf hf'
      obtain ⟨hb, hr⟩ := digest_append_inj hinj hf.1 hf'.1 h
      obtain ⟨hcount, hb⟩ := leBytes_append_inj ht.1 ht'.1 hb
      obtain ⟨rfl, -⟩ := ih.2 _ _ ht.2 ht'.2 hcount hf.2 hf'.2 [] [] (congrArg (· ++ []) hb)
      exact ⟨rfl, hr⟩
  | absent =>
      refine ⟨fun s t' ht ht' _ _ r r' h => ?_, fun s t' ht => ht.elim⟩
      cases s <;> simp only [HasShape] at ht
      cases t' <;> simp only [HasShape] at ht'
      · exact ⟨rfl, (leBytes_append_inj (hone Nat.zero_lt_two) (hone Nat.zero_lt_two) h).2⟩
      · rw [bytes, bytes, List.append_assoc] at h
        cases (leBytes_append_inj (hone Nat.zero_lt_two) (hone Nat.one_lt_two) h).1
  | present t ih =>
      refine ⟨fun s t' ht ht' hf hf' r r' h => ?_, fun s t' ht => ht.elim⟩
      cases s <;> simp only [HasShape] at ht
      cases t' <;> simp only [HasShape] at ht'
      · rw [bytes, bytes, List.append_assoc] at h
        cases (leBytes_append_inj (hone Nat.one_lt_two) (hone Nat.zero_lt_two) h).1
      · rw [bytes, bytes, List.append_assoc, List.append_assoc] at h
        have h := (leBytes_append_inj (hone Nat.one_lt_two) (hone Nat.one_lt_two) h).2
        obtain ⟨rfl, hr⟩ := ih.1 _ _ ht ht' hf hf' _ _ h
        exact ⟨rfl, hr⟩
  | field t rest iht ihrest =>
      refine ⟨fun s t' ht ht' hf hf' r r' h => ?_, fun s t' ht => ht.elim⟩
      cases s <;> simp only [HasShape] at ht
      cases t' <;> simp only [HasShape] at ht'
      rw [fed, List.forall_mem_append] at hf hf'
      obtain ⟨rfl, rfl, hr⟩ := Apart.pair h (iht.1 _ _ ht.1 ht'.1 hf.1 hf'.1)
        (ihrest.1 _ _ ht.2 ht'.2 hf.2 hf'.2)
      exact ⟨rfl, hr⟩
  | variant tag i t ih =>
      refine ⟨fun s t' ht ht' hf hf' r r' h => ?_, fun s t' ht => ht.elim⟩
      cases s <;> simp only [HasShape] at ht
      cases t' <;> simp only [HasShape] at ht'
      obtain ⟨rfl, hi, hlt, ht⟩ := ht
      obtain ⟨rfl, hi', hlt', ht'⟩ := ht'
      rw [bytes, bytes, List.append_assoc, List.append_assoc] at h
      obtain ⟨rfl, hq⟩ := leBytes_append_inj hi hi' h
      obtain ⟨rfl, hr⟩ := ih.1 _ _ ht ht' hf hf' _ _ hq
      exact ⟨rfl, hr⟩
  | nil =>
      refine ⟨fun s t' ht => ?_, fun s t' _ ht' hcount _ _ r r' h => ?_⟩
      · cases s <;> exact ht.elim
      · cases t' <;> simp only [HaveShape] at ht'
        · exact ⟨rfl, h⟩
        · cases hcount
  | cons t rest iht ihrest =>
      refine ⟨fun s t' ht => ?_, fun s t' ht ht' hcount hf hf' r r' h => ?_⟩
      · cases s <;> exact ht.elim
      · cases t' <;> simp only [HaveShape] at ht'
        · cases hcount
        · rw [fed, List.forall_mem_append] at hf hf'
          obtain ⟨rfl, rfl, hr⟩ := Apart.pair h (iht.1 _ _ ht.1 ht'.1 hf.1 hf'.1)
            (ihrest.2 _ _ ht.2 ht'.2 (Nat.succ.inj hcount) hf.2 hf'.2)
          exact ⟨rfl, hr⟩

/-- The fingerprints of two trees of one shape agree exactly when the trees do. -/
theorem digest_bytes_eq_iff {t t' : Tree} {s : Shape TypeId} (ht : t.HasShape D s)
    (ht' : t'.HasShape D s) (hinj : Set.InjOn digest
      {b | b ∈ t.bytes digest :: t.fed digest ∨ b ∈ t'.bytes digest :: t'.fed digest}) :
    digest (t.bytes digest) = digest (t'.bytes digest) ↔ t = t' := by
  refine ⟨fun h => ?_, fun h => by rw [h]⟩
  have hbytes := hinj (.inl List.mem_cons_self) (.inr List.mem_cons_self) h
  exact ((apart hinj t).1 s t' ht ht' (fun b hb => .inl (List.mem_cons_of_mem _ hb))
    (fun b hb => .inr (List.mem_cons_of_mem _ hb)) [] [] (congrArg (· ++ []) hbytes)).1

end Shape

end Tree

end Sage
