import Mathlib.Data.Fintype.Card
import Mathlib.Data.List.Forall2
import Mathlib.Tactic.Ring
import Sage.Stash.Arena

/-!
# Stash — the laws of the arena

As long as the buffer holds at most 2³² bytes and no slice 2³² elements, a stash is a table of
contents: every entry stores the contents it was made of, and no two entries of one type, length
and hash store the same contents.

* `Stash.Holds` — the representation invariant, with the contents of each entry.
* `intern_spec` — interning finds the contents or adds them, and changes nothing else.
* `Stash.run_laws` — handles read back what they were created with, are equal exactly when that
  is, and creating them again changes nothing.
-/

namespace Sage

/-! ### Reading what was written -/

section Buffer

variable {τ : StashType} {buf buf' : AlignedBuf}

def encodeAll (τ : StashType) (values : List τ.Val) : List UInt8 := values.flatMap τ.encode

theorem length_encodeAll (values : List τ.Val) :
    (encodeAll τ values).length = values.length * τ.size := by
  induction values with
  | nil => simp [encodeAll]
  | cons v vs ih =>
      rw [encodeAll] at ih
      rw [encodeAll, List.flatMap_cons, List.length_append, τ.length_encode, ih, List.length_cons]
      ring

/-- The buffer stores these values from the offset on. -/
def AlignedBuf.StoresAt (buf : AlignedBuf) (τ : StashType) (offset : Nat) (values : List τ.Val) :
    Prop :=
  buf.Valid τ offset (values.length * τ.size) ∧
    (buf.bytes.drop offset).take (values.length * τ.size) = encodeAll τ values

/-- The buffer only grows. -/
structure AlignedBuf.Extends (buf buf' : AlignedBuf) : Prop where
  bytes : buf.bytes <+: buf'.bytes
  align : buf.align ≤ buf'.align

theorem AlignedBuf.Extends.refl (buf : AlignedBuf) : buf.Extends buf :=
  ⟨List.prefix_refl _, Nat.le_refl _⟩

theorem AlignedBuf.Extends.trans {buf'' : AlignedBuf} (h : buf.Extends buf')
    (h' : buf'.Extends buf'') : buf.Extends buf'' :=
  ⟨h.bytes.trans h'.bytes, Nat.le_trans h.align h'.align⟩

theorem AlignedBuf.StoresAt.extend {offset : Nat} {values : List τ.Val}
    (h : buf.StoresAt τ offset values) (he : buf.Extends buf') :
    buf'.StoresAt τ offset values := by
  obtain ⟨⟨halign, hdvd, hlen⟩, hbytes⟩ := h
  obtain ⟨more, hmore⟩ := he.bytes
  refine ⟨⟨Nat.le_trans halign he.align, hdvd, Nat.le_trans hlen he.bytes.length_le⟩, ?_⟩
  rw [← hmore, List.drop_append_of_le_length (by omega), List.take_append_of_le_length]
  · exact hbytes
  · rw [List.length_drop]
    omega

theorem AlignedBuf.valueAt_eq {values : List τ.Val} : ∀ {offset i : Nat} {v : τ.Val},
    (buf.bytes.drop offset).take (values.length * τ.size) = encodeAll τ values →
    values[i]? = some v → buf.valueAt τ (offset + i * τ.size) = v := by
  induction values with
  | nil => exact fun _ hv => nomatch hv
  | cons w ws ih =>
      intro offset i v h hv
      rw [encodeAll, List.flatMap_cons, List.length_cons, Nat.succ_mul, Nat.add_comm,
        List.take_add] at h
      have hlen : ((buf.bytes.drop offset).take τ.size).length = (τ.encode w).length := by
        have := congrArg List.length h
        rw [List.length_append, List.length_append, ← encodeAll, length_encodeAll,
          τ.length_encode] at this
        rw [τ.length_encode]
        have h₁ := (buf.bytes.drop offset).length_take_le τ.size
        have h₂ := ((buf.bytes.drop offset).drop τ.size).length_take_le (ws.length * τ.size)
        omega
      obtain ⟨hhead, htail⟩ := List.append_inj h hlen
      cases i with
      | zero =>
          obtain rfl : w = v := by simpa using hv
          rw [valueAt, Nat.zero_mul, Nat.add_zero, hhead, τ.decode_encode]
      | succ i =>
          rw [List.drop_drop] at htail
          have := ih htail (by simpa using hv)
          rwa [Nat.succ_mul, Nat.add_comm (i * τ.size), ← Nat.add_assoc]

/-- The offset an entry records is where it is stored, when the buffer fits into 32 bits. -/
theorem AlignedBuf.StoresAt.toUInt32 {offset : Nat} {values : List τ.Val}
    (h : buf.StoresAt τ offset values) (hfits : buf.bytes.length ≤ 2 ^ 32) :
    buf.StoresAt τ offset.toUInt32.toNat values := by
  obtain ⟨⟨halign, hdvd, hlen⟩, hbytes⟩ := h
  rw [Nat.toUInt32_eq, UInt32.toNat_ofNat']
  rcases Nat.lt_or_ge offset (2 ^ 32) with hlt | hge
  · rw [Nat.mod_eq_of_lt hlt]
    exact ⟨⟨halign, hdvd, hlen⟩, hbytes⟩
  · -- Only nothing is stored at the end of a full buffer.
    obtain rfl : offset = 2 ^ 32 := by omega
    have hzero : values.length * τ.size = 0 := by omega
    rw [Nat.mod_self]
    refine ⟨⟨halign, Nat.dvd_zero _, by omega⟩, ?_⟩
    rw [hzero, List.take_zero]
    exact (List.eq_nil_of_length_eq_zero ((length_encodeAll values).trans hzero)).symm

theorem AlignedBuf.StoresAt.readOne {offset : Nat} {v : τ.Val} (h : buf.StoresAt τ offset [v])
    (hfits : buf.bytes.length ≤ 2 ^ 32) : buf.readOne τ offset.toUInt32 = some v := by
  obtain ⟨hvalid, hbytes⟩ := h.toUInt32 hfits
  rw [List.length_singleton, Nat.one_mul] at hvalid
  rw [AlignedBuf.readOne, if_pos hvalid]
  have := valueAt_eq (i := 0) hbytes rfl
  rw [Nat.zero_mul, Nat.add_zero] at this
  rw [this]

theorem AlignedBuf.StoresAt.readSlice {offset : Nat} {values : List τ.Val}
    (h : buf.StoresAt τ offset values) (hfits : buf.bytes.length ≤ 2 ^ 32)
    (hlen : values.length < 2 ^ 32) :
    buf.readSlice τ offset.toUInt32 values.length.toUInt32 = some values := by
  obtain ⟨hvalid, hbytes⟩ := h.toUInt32 hfits
  have hcount : values.length.toUInt32.toNat = values.length := by
    rw [Nat.toUInt32_eq, UInt32.toNat_ofNat', Nat.mod_eq_of_lt hlen]
  rw [AlignedBuf.readSlice, hcount, if_pos hvalid]
  split
  · rename_i hzero
    rw [hzero] at hcount
    exact congrArg some (List.eq_nil_of_length_eq_zero hcount.symm).symm
  · refine congrArg some (List.ext_getElem? fun i => ?_)
    rw [List.getElem?_map]
    cases hv : values[i]? with
    | none =>
        have := List.getElem?_eq_none_iff.mp hv
        rw [List.getElem?_eq_none (by simpa using this)]
        rfl
    | some v =>
        have := (List.getElem?_eq_some_iff.mp hv).1
        rw [List.getElem?_range this, Option.map_some, valueAt_eq hbytes hv]

/-- What is appended at an aligned end is stored there. -/
theorem AlignedBuf.storesAt_extendFromSlice (values : List τ.Val)
    (h : τ.align ∣ buf.bytes.length) :
    (buf.extendFromSlice τ values).StoresAt τ buf.bytes.length values := by
  refine ⟨⟨Nat.le_max_right _ _, h, ?_⟩, ?_⟩
  · rw [extendFromSlice, List.length_append, ← encodeAll, length_encodeAll]
  · rw [extendFromSlice, List.drop_left, ← encodeAll, List.take_of_length_le]
    rw [length_encodeAll]

end Buffer

/-! ### Contents -/

section Stash

variable {TypeId : Type} {T : TypeId → StashType}

/-- What an entry was made of, and where it is found. -/
structure Content (T : TypeId → StashType) where
  t : TypeId
  values : List (T t).Val
  hash : UInt64
  collision : Nat

@[grind =]
def Content.key (c : Content T) : InternKey TypeId := ⟨c.t, c.values.length, c.hash, c.collision⟩

/-- The entry stores the contents. -/
structure StashEntry.Stores (buf : AlignedBuf) (e : StashEntry TypeId) (c : Content T) : Prop where
  typeId : e.typeId = c.t
  count : e.count = c.values.length.toUInt32
  hash : e.inlineHash = c.hash
  stored : ∃ offset : Nat, e.offset = offset.toUInt32 ∧ buf.StoresAt (T c.t) offset c.values

theorem StashEntry.Stores.extend {buf buf' : AlignedBuf} {e : StashEntry TypeId} {c : Content T}
    (h : e.Stores buf c) (he : buf.Extends buf') : e.Stores buf' c where
  typeId := h.typeId
  count := h.count
  hash := h.hash
  stored := by
    obtain ⟨offset, hoffset, hstored⟩ := h.stored
    exact ⟨offset, hoffset, hstored.extend he⟩

namespace Stash

/-- The stash is a table of the contents. -/
structure Holds (s : Stash TypeId) (cs : List (Content T)) : Prop where
  entries : List.Forall₂ (StashEntry.Stores s.buf) s.entries cs
  length : cs.length < 2 ^ 32
  internMap : ∀ key index, s.internMap key = some index ↔
    ∃ c, cs[index]? = some c ∧ c.key = key
  /-- The collision numbers of contents found under one hash have no gaps. -/
  chain : ∀ c ∈ cs, ∀ k < c.collision, ∃ d ∈ cs, d.key = { c.key with collision := k }
  /-- Contents found under one hash are different. -/
  distinct : ∀ t values hash k k', ⟨t, values, hash, k⟩ ∈ cs → ⟨t, values, hash, k'⟩ ∈ cs → k = k'

/-- The bound under which handles read back: 2³² bytes in all, and less than 2³² elements in
each slice. -/
structure Fits (s : Stash TypeId) (cs : List (Content T)) : Prop where
  buf : s.buf.bytes.length ≤ 2 ^ 32
  values : ∀ c ∈ cs, c.values.length < 2 ^ 32

variable {s s' : Stash TypeId} {cs cs' : List (Content T)} {t : TypeId} {hash : UInt64} {k : Nat}
  {index : EntryIndex}

theorem Holds.new : (Stash.new : Stash TypeId).Holds ([] : List (Content T)) where
  entries := .nil
  length := Nat.two_pow_pos 32
  internMap _ _ := by simp [Stash.new]
  chain := nofun
  distinct _ _ _ _ _ := nofun

theorem Holds.entry (h : s.Holds cs) {c : Content T} (hc : cs[index]? = some c) :
    ∃ e, s.entries[index]? = some e ∧ e.Stores s.buf c := by
  obtain ⟨hi, rfl⟩ := List.getElem?_eq_some_iff.mp hc
  have hi' : index < s.entries.length := h.entries.length_eq ▸ hi
  exact ⟨s.entries[index], List.getElem?_eq_getElem hi', h.entries.get hi' hi⟩

/-- Contents under one key are at one index. -/
theorem Holds.index_eq (h : s.Holds cs) {i j : Nat} {c d : Content T} (hc : cs[i]? = some c)
    (hd : cs[j]? = some d) (hkey : c.key = d.key) : i = j := by
  have hi := (h.internMap c.key i).mpr ⟨c, hc, rfl⟩
  have hj := (h.internMap c.key j).mpr ⟨d, hd, hkey.symm⟩
  exact Option.some.inj (hi.symm.trans hj)

theorem Holds.readOne (h : s.Holds cs) (hfits : s.Fits cs) {v : (T t).Val}
    (hc : cs[index]? = some ⟨t, [v], hash, k⟩) {e : StashEntry TypeId}
    (he : s.entries[index]? = some e) : s.buf.readOne (T t) e.offset = some v := by
  obtain ⟨e', he', hstores⟩ := h.entry hc
  obtain rfl := Option.some.inj (he.symm.trans he')
  obtain ⟨offset, hoffset, hstored⟩ := hstores.stored
  rw [hoffset]
  exact hstored.readOne hfits.buf

theorem Holds.readSlice (h : s.Holds cs) (hfits : s.Fits cs) {values : List (T t).Val}
    (hc : cs[index]? = some ⟨t, values, hash, k⟩) {e : StashEntry TypeId}
    (he : s.entries[index]? = some e) :
    s.buf.readSlice (T t) e.offset e.count = some values := by
  obtain ⟨e', he', hstores⟩ := h.entry hc
  obtain rfl := Option.some.inj (he.symm.trans he')
  obtain ⟨offset, hoffset, hstored⟩ := hstores.stored
  rw [hoffset, hstores.count]
  exact hstored.readSlice hfits.buf (hfits.values _ (List.mem_of_getElem? hc))

theorem Holds.inlineHashes (h : s.Holds cs) : s.inlineHashes = cs.map Content.hash := by
  rw [Stash.inlineHashes]
  refine List.ext_getElem? fun i => ?_
  rw [List.getElem?_map, List.getElem?_map]
  cases hc : cs[i]? with
  | none =>
      have hlen := h.entries.length_eq
      rw [List.getElem?_eq_none (hlen ▸ List.getElem?_eq_none_iff.mp hc)]
      rfl
  | some c =>
      obtain ⟨e, he, hstores⟩ := h.entry hc
      rw [he, Option.map_some, Option.map_some, hstores.hash]

/-! ### Storing contents -/

theorem dvd_add_wrappingNeg (n : Nat) {m : Nat} (hm : m < 64) :
    2 ^ m ∣ n + (wrappingNeg n &&& (2 ^ m - 1)) := by
  rw [Nat.and_two_pow_sub_one_eq_mod]
  have hdvd : 2 ^ m ∣ n + wrappingNeg n := by
    refine (Nat.pow_dvd_pow 2 (Nat.le_of_lt hm)).trans ?_
    rw [wrappingNeg]
    have hn := Nat.div_add_mod n (2 ^ 64)
    have hr := Nat.mod_lt n (Nat.two_pow_pos 64)
    rcases Nat.eq_zero_or_pos (n % 2 ^ 64) with hzero | hpos
    · rw [hzero, Nat.sub_zero, Nat.mod_self, Nat.add_zero]
      exact Nat.dvd_of_mod_eq_zero hzero
    · rw [Nat.mod_eq_of_lt (by omega)]
      exact ⟨n / 2 ^ 64 + 1, by omega⟩
  refine (Nat.dvd_iff_mod_eq_zero).mpr ?_
  rw [Nat.add_mod_mod]
  exact Nat.mod_eq_zero_of_dvd hdvd

theorem align_dvd_padded (τ : StashType) (n : Nat) :
    τ.align ∣ n + (wrappingNeg n &&& (max τ.align 4 - 1)) := by
  have hmax : max τ.align 4 = 2 ^ max τ.alignLog 2 := by
    rw [(pow_right_strictMono₀ (Nat.lt_succ_self 1)).monotone.map_max]
    rfl
  rw [hmax]
  exact (Nat.pow_dvd_pow 2 (Nat.le_max_left _ _)).trans
    (dvd_add_wrappingNeg n (Nat.max_lt.mpr ⟨τ.alignLog_lt, by decide⟩))

theorem AlignedBuf.length_resizeZeroed (buf : AlignedBuf) (n : Nat) :
    (buf.resizeZeroed (buf.bytes.length + n)).bytes.length = buf.bytes.length + n := by
  rw [AlignedBuf.resizeZeroed, List.length_append, List.length_replicate, Nat.add_sub_cancel_left]

theorem pushRaw_extends {values : List (T t).Val}
    (h : s.pushRaw T t values hash = some (index, s')) : s.buf.Extends s'.buf := by
  obtain ⟨i, -, hr⟩ := Option.bind_eq_some_iff.mp h
  obtain ⟨-, rfl⟩ := Prod.mk.inj (Option.some.inj hr)
  refine ⟨?_, Nat.le_max_left _ _⟩
  simp only [AlignedBuf.resizeZeroed, AlignedBuf.extendFromSlice, List.append_assoc]
  exact List.prefix_append _ _

theorem pushRaw_spec {values : List (T t).Val} (hlen : s.entries.length < 2 ^ 32)
    (h : s.pushRaw T t values hash = some (index, s')) :
    index = s.entries.length ∧ s.entries.length + 1 < 2 ^ 32 ∧ s'.internMap = s.internMap ∧ ∃ e, s'.entries = s.entries ++ [e] ∧
        ∀ k, e.Stores s'.buf ⟨t, values, hash, k⟩ := by
  rw [pushRaw, EntryIndex.new] at h
  simp only [Nat.mod_eq_of_lt hlen] at h
  split at h
  · rename_i hindex
    obtain ⟨rfl, rfl⟩ := Prod.mk.inj (Option.some.inj h)
    refine ⟨rfl, hindex, rfl, _, rfl, fun k => ⟨rfl, rfl, rfl, _, rfl, ?_⟩⟩
    refine AlignedBuf.storesAt_extendFromSlice values ?_
    rw [AlignedBuf.length_resizeZeroed]
    exact align_dvd_padded (T t) _
  · exact nomatch h

/-! ### Searching -/

variable {values : List (T t).Val} {same : StashEntry TypeId → Option Bool}

/-- The test of an entry compares its contents. -/
def Compares (s : Stash TypeId) (cs : List (Content T)) (t : TypeId) (values : List (T t).Val)
    (hash : UInt64) (same : StashEntry TypeId → Option Bool) : Prop :=
  ∀ (index : Nat) ws k, cs[index]? = some (Content.mk t ws hash k) → ws.length = values.length →
    ∃ e, s.entries[index]? = some e ∧ same e = some (decide (ws = values))

/-- Other contents are found under the first collision numbers. -/
def Passed (cs : List (Content T)) (t : TypeId) (values : List (T t).Val) (hash : UInt64)
    (collision : Nat) : Prop :=
  ∀ k < collision, ∃ ws, Content.mk t ws hash k ∈ cs ∧ ws.length = values.length ∧ ws ≠ values

theorem Holds.of_internMap (h : s.Holds cs) {n : Nat}
    (hkey : s.internMap ⟨t, n, hash, k⟩ = some index) :
    ∃ ws, cs[index]? = some ⟨t, ws, hash, k⟩ ∧ ws.length = n := by
  obtain ⟨⟨t', ws, hash', k'⟩, hc, hkey⟩ := (h.internMap _ _).mp hkey
  rw [Content.key, InternKey.mk.injEq] at hkey
  obtain ⟨rfl, hlen, rfl, rfl⟩ := hkey
  exact ⟨ws, hc, hlen⟩

/-- The search ends at an entry with the contents or at the first free key, having passed other
contents only. -/
theorem Holds.probe_spec (h : s.Holds cs) (hsame : Compares s cs t values hash same) :
    ∀ (fuel collision : Nat) {slot : Slot}, Passed cs t values hash collision →
      s.probe (InternKey.mk t values.length hash) same fuel collision = some slot →
      (∃ index k, slot = .occupied index ∧ cs[index]? = some ⟨t, values, hash, k⟩) ∨
        ∃ k, slot = .vacant k ∧ s.internMap ⟨t, values.length, hash, k⟩ = none ∧
          Passed cs t values hash k := by
  intro fuel
  induction fuel with
  | zero => exact fun _ _ _ hrun => nomatch hrun
  | succ fuel ih =>
      intro collision slot hpassed hrun
      rw [probe] at hrun
      cases hkey : s.internMap ⟨t, values.length, hash, collision⟩ with
      | none =>
          rw [hkey] at hrun
          exact .inr ⟨collision, (Option.some.inj hrun).symm, hkey, hpassed⟩
      | some index =>
          rw [hkey] at hrun
          obtain ⟨ws, hc, hlen⟩ := h.of_internMap hkey
          obtain ⟨e, he, hdec⟩ := hsame index ws collision hc hlen
          simp only [he, hdec, Option.bind_eq_bind, Option.bind_some, decide_eq_true_eq] at hrun
          by_cases heq : ws = values
          · rw [if_pos heq] at hrun
            exact .inl ⟨index, collision, (Option.some.inj hrun).symm, heq ▸ hc⟩
          · rw [if_neg heq] at hrun
            refine ih (collision + 1) (fun k hk => ?_) hrun
            rcases Nat.lt_succ_iff_lt_or_eq.mp hk with hk | rfl
            · exact hpassed k hk
            · exact ⟨ws, List.mem_of_getElem? hc, hlen, heq⟩

/-- The collision numbers passed are at most as many as there are entries. -/
theorem Passed.le {collision : Nat} (hpassed : Passed cs t values hash collision) :
    collision ≤ cs.length := by
  have hat : ∀ k : Fin collision, ∃ i : Fin cs.length, cs[i].key = ⟨t, values.length, hash, k⟩ := by
    intro k
    obtain ⟨ws, hmem, hlen, -⟩ := hpassed k k.isLt
    obtain ⟨i, hi, hget⟩ := List.mem_iff_getElem.mp hmem
    exact ⟨⟨i, hi⟩, by rw [Fin.getElem_fin, hget, Content.key, hlen]⟩
  choose f hf using hat
  have hinj : Function.Injective f := by
    intro a b hab
    have := (hf a).symm.trans ((congrArg (fun i : Fin cs.length => cs[i].key) hab).trans (hf b))
    exact Fin.ext (InternKey.mk.inj this).2.2.2
  simpa using Fintype.card_le_of_injective f hinj

theorem Holds.probe_isSome (h : s.Holds cs) (hsame : Compares s cs t values hash same) :
    ∀ fuel collision : Nat, Passed cs t values hash collision → cs.length < collision + fuel →
      (s.probe (InternKey.mk t values.length hash) same fuel collision).isSome := by
  intro fuel
  induction fuel with
  | zero => exact fun collision hpassed hlt => absurd hpassed.le (by omega)
  | succ fuel ih =>
      intro collision hpassed hlt
      rw [probe]
      cases hkey : s.internMap ⟨t, values.length, hash, collision⟩ with
      | none => rfl
      | some index =>
          obtain ⟨ws, hc, hlen⟩ := h.of_internMap hkey
          obtain ⟨e, he, hdec⟩ := hsame index ws collision hc hlen
          simp only [he, hdec, Option.bind_eq_bind, Option.bind_some, decide_eq_true_eq]
          by_cases heq : ws = values
          · rw [if_pos heq]
            rfl
          · rw [if_neg heq]
            refine ih (collision + 1) (fun k hk => ?_) (by omega)
            rcases Nat.lt_succ_iff_lt_or_eq.mp hk with hk | rfl
            · exact hpassed k hk
            · exact ⟨ws, List.mem_of_getElem? hc, hlen, heq⟩

/-- Contents are not stored when their first free number comes after other contents only. -/
theorem Holds.not_mem_of_vacant (h : s.Holds cs)
    (hvacant : s.internMap ⟨t, values.length, hash, k⟩ = none)
    (hpassed : Passed cs t values hash k) (k' : Nat) : Content.mk t values hash k' ∉ cs := by
  intro hmem
  rcases Nat.lt_or_ge k' k with hlt | hge
  · -- The contents passed under this number are other ones.
    obtain ⟨ws, hws, hl, hne⟩ := hpassed k' hlt
    obtain ⟨i, hi⟩ := List.mem_iff_getElem?.mp hmem
    obtain ⟨j, hj⟩ := List.mem_iff_getElem?.mp hws
    obtain rfl := h.index_eq hi hj (by simp [Content.key, hl])
    have := Option.some.inj (hi.symm.trans hj)
    rw [Content.mk.injEq] at this
    exact hne (eq_of_heq this.2.1).symm
  · -- The free number would be in the chain below.
    have hkey : ∃ d ∈ cs, d.key = ⟨t, values.length, hash, k⟩ := by
      rcases Nat.lt_or_eq_of_le hge with hlt | rfl
      · exact h.chain _ hmem k hlt
      · exact ⟨_, hmem, rfl⟩
    obtain ⟨d, hd, hkey⟩ := hkey
    obtain ⟨i, hi⟩ := List.mem_iff_getElem?.mp hd
    exact Option.some_ne_none i (((h.internMap _ i).mpr ⟨d, hi, hkey⟩).symm.trans hvacant)

/-! ### Interning -/

variable [DecidableEq TypeId]

theorem getElem?_concat {α : Type} {l : List α} {a b : α} {i : Nat} :
    (l ++ [a])[i]? = some b ↔ l[i]? = some b ∨ i = l.length ∧ b = a := by
  rcases Nat.lt_trichotomy i l.length with hlt | rfl | hgt
  · rw [List.getElem?_append_left hlt]
    exact ⟨.inl, fun h => h.resolve_right fun h => Nat.lt_irrefl _ (h.1 ▸ hlt)⟩
  · simp [eq_comm]
  · rw [List.getElem?_eq_none (by simpa using Nat.succ_le_of_lt hgt), List.getElem?_eq_none (Nat.le_of_lt hgt)]
    exact ⟨nofun, fun h => h.elim nofun fun h => absurd hgt (h.1 ▸ Nat.lt_irrefl _)⟩

/-- Interning returns the entry of the contents and leaves the stash as it was, or adds the
contents, which it did not store before. -/
theorem Holds.intern_spec (h : s.Holds cs) (hsame : Compares s cs t values hash same)
    (hrun : s.intern T t values same hash = some (index, s')) :
    (s' = s ∧ ∃ k, cs[index]? = some ⟨t, values, hash, k⟩) ∨
      index = cs.length ∧ s.buf.Extends s'.buf ∧
        (∀ k, Content.mk t values hash k ∉ cs) ∧
        ∃ k, s'.Holds (cs ++ [⟨t, values, hash, k⟩]) := by
  rw [intern, Option.bind_eq_bind, Option.bind_eq_some_iff] at hrun
  obtain ⟨slot, hprobe, hrun⟩ := hrun
  rcases h.probe_spec hsame _ _ (fun k hk => absurd hk (Nat.not_lt_zero k)) hprobe with
    ⟨i, k, rfl, hc⟩ | ⟨k, rfl, hvacant, hpassed⟩
  · obtain ⟨rfl, rfl⟩ := Prod.mk.inj (Option.some.inj hrun)
    exact .inl ⟨rfl, k, hc⟩
  · rw [Option.bind_eq_bind, Option.bind_eq_some_iff] at hrun
    obtain ⟨⟨i, u⟩, hpush, hrun⟩ := hrun
    obtain ⟨rfl, rfl⟩ := Prod.mk.inj (Option.some.inj hrun)
    have hlen := h.entries.length_eq
    have hextends := pushRaw_extends hpush
    obtain ⟨rfl, hroom, hmap, e, hentries, hstores⟩ := pushRaw_spec (hlen ▸ h.length) hpush
    rw [hlen] at hroom ⊢
    have hnew := h.not_mem_of_vacant hvacant hpassed
    refine .inr ⟨rfl, hextends, hnew, k, ?_, ?_, ?_, ?_, ?_⟩
    · rw [hentries]
      exact List.rel_append (h.entries.imp fun _ _ => (·.extend hextends)) (.cons (hstores k) .nil)
    · rwa [List.length_append, List.length_singleton]
    · intro key j
      simp only [hmap, Function.update_apply, getElem?_concat]
      by_cases hkey : key = ⟨t, values.length, hash, k⟩
      · rw [if_pos hkey, Option.some.injEq]
        constructor
        · rintro rfl
          exact ⟨_, .inr ⟨rfl, rfl⟩, hkey.symm⟩
        · rintro ⟨c, hc | ⟨rfl, -⟩, hck⟩
          · have := (h.internMap _ j).mpr ⟨c, hc, hck.trans hkey⟩
            exact absurd (this.symm.trans hvacant) (Option.some_ne_none j)
          · rfl
      · rw [if_neg hkey, h.internMap]
        refine exists_congr fun c => and_congr_left fun hck => ⟨.inl, fun hc => ?_⟩
        exact hc.resolve_right fun ⟨_, hc⟩ => hkey (hck.symm.trans (hc ▸ rfl))
    · intro c hc k' hk'
      rcases List.mem_append.mp hc with hc | hc
      · obtain ⟨d, hd, hkey⟩ := h.chain c hc k' hk'
        exact ⟨d, List.mem_append_left _ hd, hkey⟩
      · obtain rfl := List.mem_singleton.mp hc
        obtain ⟨ws, hws, hl, -⟩ := hpassed k' hk'
        exact ⟨_, List.mem_append_left _ hws, by simp [Content.key, hl]⟩
    · intro t' ws hash' j j' hj hj'
      rcases List.mem_append.mp hj with hj | hj <;> rcases List.mem_append.mp hj' with hj' | hj'
      · exact h.distinct t' ws hash' j j' hj hj'
      · cases List.mem_singleton.mp hj'
        exact absurd hj (hnew j)
      · cases List.mem_singleton.mp hj
        exact absurd hj' (hnew j')
      · cases List.mem_singleton.mp hj
        cases List.mem_singleton.mp hj'
        rfl

/-- Interning contents that are stored finds them. -/
theorem Holds.intern_eq (h : s.Holds cs) (hsame : Compares s cs t values hash same)
    (hc : cs[index]? = some ⟨t, values, hash, k⟩) :
    s.intern T t values same hash = some (index, s) := by
  have hpassed : Passed cs t values hash 0 := fun k hk => absurd hk (Nat.not_lt_zero k)
  obtain ⟨slot, hprobe⟩ := Option.isSome_iff_exists.mp
    (h.probe_isSome hsame (2 ^ 32) 0 hpassed (by simpa using h.length))
  rw [intern, hprobe, Option.bind_eq_bind, Option.bind_some]
  rcases h.probe_spec hsame _ _ hpassed hprobe with ⟨i, k', rfl, hi⟩ | ⟨k', rfl, hvacant, hpassed⟩
  · obtain rfl := h.distinct t values hash k k' (List.mem_of_getElem? hc) (List.mem_of_getElem? hi)
    obtain rfl := h.index_eq hc hi rfl
    rfl
  · exact absurd (List.mem_of_getElem? hc) (h.not_mem_of_vacant hvacant hpassed k)

/-- Interning ends while there is room for one more entry. -/
theorem Holds.intern_isSome (h : s.Holds cs) (hsame : Compares s cs t values hash same)
    (hroom : s.entries.length + 1 < 2 ^ 32) : (s.intern T t values same hash).isSome := by
  have hpassed : Passed cs t values hash 0 := fun k hk => absurd hk (Nat.not_lt_zero k)
  obtain ⟨slot, hprobe⟩ := Option.isSome_iff_exists.mp
    (h.probe_isSome hsame (2 ^ 32) 0 hpassed (by simpa using h.length))
  rw [intern, hprobe, Option.bind_eq_bind, Option.bind_some]
  cases slot with
  | occupied index => rfl
  | vacant k =>
      have hindex : EntryIndex.new s.entries.length = some s.entries.length := by
        simp only [EntryIndex.new, Nat.mod_eq_of_lt (Nat.lt_of_succ_lt hroom)]
        rw [if_pos hroom]
      simp only [pushRaw, hindex]
      rfl

/-! ### Handles -/

variable {finish : List UInt64 → UInt64}

variable (finish) in
def sliceHash (inline : List UInt64) (values : List (T t).Val) : Option UInt64 := do
  let words ← values.mapM ((T t).stashHash inline)
  return finish (values.length.toUInt64 :: words.flatten)

variable (finish) in
omit [DecidableEq TypeId] in
/-- One element hashes as its length and the element. -/
theorem sliceHash_singleton {inline : List UInt64} {v : (T t).Val} {words : List UInt64}
    (h : (T t).stashHash inline v = some words) :
    sliceHash finish inline [v] = some (finish (1 :: words)) := by
  rw [sliceHash, List.mapM_cons, h]
  simp

/-- The hash that a handle's contents are interned under, over the hashes of the entries. -/
@[grind =] def Handle.contentHash (finish : List UInt64 → UInt64) (inline : List UInt64) :
    Handle T → Option UInt64
  | .ptr t _ value => ((T t).stashHash inline value).map finish
  | .slice _ _ values => sliceHash finish inline values

def Handle.length : Handle T → Nat
  | .ptr _ _ _ => 1
  | .slice _ _ values => values.length

def Handle.entryIndex : Handle T → EntryIndex
  | .ptr _ i _ | .slice _ i _ => i

/-- The contents at the handle's index are those it was created with. -/
def Handle.Names (finish : List UInt64 → UInt64) (cs : List (Content T)) (handle : Handle T) :
    Prop :=
  ∃ hash k, handle.contentHash finish (cs.map Content.hash) = some hash ∧
    match handle with
    | .ptr t index value => cs[index]? = some ⟨t, [value], hash, k⟩
    | .slice t index values => cs[index]? = some ⟨t, values, hash, k⟩

theorem mapM_some_mono {α β : Type} {f g : α → Option β} (h : ∀ a b, f a = some b → g a = some b) :
    ∀ {xs : List α} {ys : List β}, xs.mapM f = some ys → xs.mapM g = some ys
  | [], _, hf => hf
  | x :: xs, ys, hf => by
      rw [List.mapM_cons, Option.bind_eq_bind, Option.bind_eq_some_iff] at hf
      obtain ⟨y, hy, hf⟩ := hf
      rw [Option.bind_eq_bind, Option.bind_eq_some_iff] at hf
      obtain ⟨ys', hys, hf⟩ := hf
      rw [List.mapM_cons, h x y hy, Option.bind_eq_bind, Option.bind_some, mapM_some_mono h hys]
      exact hf

omit [DecidableEq TypeId] in
theorem Handle.contentHash_append {handle : Handle T} {inline : List UInt64}
    (h : handle.contentHash finish inline = some hash) (more : List UInt64) :
    handle.contentHash finish (inline ++ more) = some hash := by
  cases handle with
  | ptr t index value =>
      obtain ⟨words, hwords, rfl⟩ := Option.map_eq_some_iff.mp h
      rw [contentHash, (T t).stashHash_append inline more value words hwords]
      rfl
  | slice t index values =>
      rw [contentHash, sliceHash, Option.bind_eq_bind, Option.bind_eq_some_iff] at h
      obtain ⟨words, hwords, h⟩ := h
      rw [contentHash, sliceHash,
        mapM_some_mono (fun v ws => (T t).stashHash_append inline more v ws) hwords]
      exact h

omit [DecidableEq TypeId] in
theorem Handle.Names.append {handle : Handle T} (h : handle.Names finish cs)
    (more : List (Content T)) : handle.Names finish (cs ++ more) := by
  obtain ⟨hash, k, hhash, hat⟩ := h
  refine ⟨hash, k, ?_, ?_⟩
  · rw [List.map_append]
    exact Handle.contentHash_append hhash _
  · cases handle with
    | ptr t index value | slice t index values =>
        have hlt := (List.getElem?_eq_some_iff.mp hat).1
        exact (List.getElem?_append_left hlt).trans hat

omit [DecidableEq TypeId] in
theorem Holds.compares_ptr (h : s.Holds cs) (hfits : s.Fits cs) (value : (T t).Val)
    (hash : UInt64) : Compares s cs t [value] hash fun entry =>
      (s.buf.readOne (T t) entry.offset).map (· = value) := by
  intro index ws k hc hlen
  obtain ⟨w, rfl⟩ := List.length_eq_one_iff.mp hlen
  obtain ⟨e, he, -⟩ := h.entry hc
  refine ⟨e, he, ?_⟩
  simp [h.readOne hfits hc he]

omit [DecidableEq TypeId] in
theorem Holds.compares_slice (h : s.Holds cs) (hfits : s.Fits cs) (values : List (T t).Val)
    (hash : UInt64) : Compares s cs t values hash fun entry =>
      (s.buf.readSlice (T t) entry.offset entry.count).map (· = values) := by
  intro index ws k hc _
  obtain ⟨e, he, -⟩ := h.entry hc
  exact ⟨e, he, by simp [h.readSlice hfits hc he]⟩

/-- What an operation does: it returns a handle to its contents, which it adds at most. -/
structure Interned (finish : List UInt64 → UInt64) (s s' : Stash TypeId) (cs : List (Content T))
    (handle : Handle T) (cs' : List (Content T)) : Prop where
  holds : s'.Holds cs'
  buf : s.buf.Extends s'.buf
  contents : cs <+: cs'
  names : handle.Names finish cs'
  length : ∀ c ∈ cs', c ∈ cs ∨ c.values.length = handle.length
  added : ∀ i, cs.length ≤ i → i < cs'.length → i = handle.entryIndex

theorem Holds.interned (h : s.Holds cs) (hsame : Compares s cs t values hash same)
    (hrun : s.intern T t values same hash = some (index, s')) {handle : Handle T}
    (hhash : handle.contentHash finish s.inlineHashes = some hash)
    (hlength : handle.length = values.length) (hindex : handle.entryIndex = index)
    (hnames : ∀ (cs' : List (Content T)) k, cs'[index]? = some ⟨t, values, hash, k⟩ →
      handle.contentHash finish (cs'.map Content.hash) = some hash → handle.Names finish cs') :
    ∃ cs', Interned finish s s' cs handle cs' := by
  rw [h.inlineHashes] at hhash
  rcases h.intern_spec hsame hrun with ⟨rfl, k, hc⟩ | ⟨rfl, hextends, -, k, hholds⟩
  · exact ⟨cs, h, .refl _, List.prefix_refl _, hnames cs k hc hhash, fun _ => .inl,
      fun i hi hlt => absurd hlt (Nat.not_lt.mpr hi)⟩
  · refine ⟨_, hholds, hextends, List.prefix_append _ _, hnames _ k ?_ ?_, fun c hc => ?_,
      fun i hi hlt => ?_⟩
    · exact getElem?_concat.mpr (.inr ⟨rfl, rfl⟩)
    · rw [List.map_append]
      exact Handle.contentHash_append hhash _
    · refine (List.mem_append.mp hc).imp_right fun hc => ?_
      rw [List.mem_singleton.mp hc, hlength]
    · rw [List.length_append, List.length_singleton] at hlt
      rw [hindex]
      exact Nat.le_antisymm (Nat.le_of_lt_succ hlt) hi

theorem Holds.alloc (h : s.Holds cs) (hfits : s.Fits cs) {value : (T t).Val}
    (hrun : s.alloc T finish t value = some (index, s')) :
    ∃ cs', Interned finish s s' cs (.ptr t index value) cs' := by
  rw [Stash.alloc, Option.bind_eq_bind, Option.bind_eq_some_iff] at hrun
  obtain ⟨words, hwords, hrun⟩ := hrun
  refine h.interned (h.compares_ptr hfits value _) hrun ?_ rfl rfl fun cs' k hc hhash => ?_
  · rw [Handle.contentHash, hwords, Option.map_some]
  · exact ⟨_, k, hhash, hc⟩

theorem Holds.allocSlice (h : s.Holds cs) (hfits : s.Fits cs) {values : List (T t).Val}
    (hrun : s.allocSlice T finish t values = some (index, s')) :
    ∃ cs', Interned finish s s' cs (.slice t index values) cs' := by
  rw [Stash.allocSlice, Option.bind_eq_bind, Option.bind_eq_some_iff] at hrun
  obtain ⟨words, hwords, hrun⟩ := hrun
  refine h.interned (h.compares_slice hfits values _) hrun ?_ rfl rfl fun cs' k hc hhash => ?_
  · rw [Handle.contentHash, sliceHash, hwords]
    rfl
  · exact ⟨_, k, hhash, hc⟩

theorem Holds.step (h : s.Holds cs) (hfits : s.Fits cs) {op : Op T} {handle : Handle T}
    (hrun : s.step T finish op = some (handle, s')) :
    ∃ cs', Interned finish s s' cs handle cs' := by
  cases op with
  | alloc t value =>
      obtain ⟨⟨index, u⟩, halloc, hr⟩ := Option.bind_eq_some_iff.mp hrun
      obtain ⟨rfl, rfl⟩ := Prod.mk.inj (Option.some.inj hr)
      exact h.alloc hfits halloc
  | allocSlice t values =>
      obtain ⟨⟨index, u⟩, halloc, hr⟩ := Option.bind_eq_some_iff.mp hrun
      obtain ⟨rfl, rfl⟩ := Prod.mk.inj (Option.some.inj hr)
      exact h.allocSlice hfits halloc
  | appendOne t existing element =>
      obtain ⟨old, hold, hr⟩ := Option.bind_eq_some_iff.mp hrun
      obtain ⟨⟨index, u⟩, happend, hr⟩ := Option.bind_eq_some_iff.mp hr
      obtain ⟨rfl, rfl⟩ := Prod.mk.inj (Option.some.inj hr)
      rw [Stash.appendOne, hold] at happend
      exact h.allocSlice hfits happend

theorem intern_extends (hrun : s.intern T t values same hash = some (index, s')) :
    s.buf.Extends s'.buf := by
  obtain ⟨slot, -, hr⟩ := Option.bind_eq_some_iff.mp hrun
  cases slot with
  | occupied i =>
      obtain ⟨-, rfl⟩ := Prod.mk.inj (Option.some.inj hr)
      exact .refl _
  | vacant k =>
      obtain ⟨⟨i, u⟩, hpush, hr⟩ := Option.bind_eq_some_iff.mp hr
      obtain ⟨-, rfl⟩ := Prod.mk.inj (Option.some.inj hr)
      have hextends := pushRaw_extends hpush
      exact hextends

theorem step_extends {op : Op T} {handle : Handle T}
    (hrun : s.step T finish op = some (handle, s')) : s.buf.Extends s'.buf := by
  cases op with
  | alloc t value | allocSlice t values =>
      obtain ⟨⟨index, u⟩, halloc, hr⟩ := Option.bind_eq_some_iff.mp hrun
      obtain ⟨-, rfl⟩ := Prod.mk.inj (Option.some.inj hr)
      obtain ⟨words, -, hintern⟩ := Option.bind_eq_some_iff.mp halloc
      exact intern_extends hintern
  | appendOne t existing element =>
      obtain ⟨old, -, hr⟩ := Option.bind_eq_some_iff.mp hrun
      obtain ⟨⟨index, u⟩, happend, hr⟩ := Option.bind_eq_some_iff.mp hr
      obtain ⟨-, rfl⟩ := Prod.mk.inj (Option.some.inj hr)
      obtain ⟨old, -, halloc⟩ := Option.bind_eq_some_iff.mp happend
      obtain ⟨words, -, hintern⟩ := Option.bind_eq_some_iff.mp halloc
      exact intern_extends hintern

theorem run_extends {ops : List (Op T)} : ∀ {s s' : Stash TypeId} {handles : List (Handle T)},
    s.run T finish ops = some (handles, s') → s.buf.Extends s'.buf := by
  induction ops with
  | nil =>
      intro s s' handles hrun
      obtain ⟨-, rfl⟩ := Prod.mk.inj (Option.some.inj hrun)
      exact .refl _
  | cons op ops ih =>
      intro s s' handles hrun
      obtain ⟨⟨handle, u⟩, hstep, hr⟩ := Option.bind_eq_some_iff.mp hrun
      obtain ⟨⟨rest, u'⟩, hrest, hr⟩ := Option.bind_eq_some_iff.mp hr
      obtain ⟨-, rfl⟩ := Prod.mk.inj (Option.some.inj hr)
      exact (step_extends hstep).trans (ih hrest)

/-- A run keeps the table of contents, and every handle it returns names its contents. -/
theorem Holds.run {ops : List (Op T)} : ∀ {s s' : Stash TypeId} {cs : List (Content T)}
    {handles : List (Handle T)}, s.Holds cs → (∀ c ∈ cs, c.values.length < 2 ^ 32) →
    s.run T finish ops = some (handles, s') → s'.buf.bytes.length ≤ 2 ^ 32 →
    (∀ handle ∈ handles, handle.length < 2 ^ 32) →
    ∃ cs', cs <+: cs' ∧ s'.Holds cs' ∧ s'.Fits cs' ∧
      ∀ handle ∈ handles, handle.Names finish cs' := by
  induction ops with
  | nil =>
      intro s s' cs handles h hcs hrun hbuf _
      obtain ⟨rfl, rfl⟩ := Prod.mk.inj (Option.some.inj hrun)
      exact ⟨cs, List.prefix_refl _, h, ⟨hbuf, hcs⟩, nofun⟩
  | cons op ops ih =>
      intro s s' cs handles h hcs hrun hbuf hlen
      obtain ⟨⟨handle, u⟩, hstep, hr⟩ := Option.bind_eq_some_iff.mp hrun
      obtain ⟨⟨rest, u'⟩, hrest, hr⟩ := Option.bind_eq_some_iff.mp hr
      obtain ⟨rfl, rfl⟩ := Prod.mk.inj (Option.some.inj hr)
      -- What fits at the end of the run fits before.
      have hu := (run_extends hrest).bytes.length_le
      have hs := (step_extends hstep).bytes.length_le
      obtain ⟨cs₁, hcs₁⟩ := h.step ⟨hs.trans (hu.trans hbuf), hcs⟩ hstep
      obtain ⟨hhandle, hrestlen⟩ := List.forall_mem_cons.mp hlen
      have hvalues : ∀ c ∈ cs₁, c.values.length < 2 ^ 32 := fun c hc =>
        (hcs₁.length c hc).elim (hcs c) fun heq => heq ▸ hhandle
      obtain ⟨cs', hpre, hholds, hfits, hnames⟩ := ih hcs₁.holds hvalues hrest hbuf hrestlen
      refine ⟨cs', hcs₁.contents.trans hpre, hholds, hfits, List.forall_mem_cons.mpr ⟨?_, hnames⟩⟩
      obtain ⟨more, rfl⟩ := hpre
      exact hcs₁.names.append more

/-! ### The laws -/

omit [DecidableEq TypeId] in
theorem Holds.validateEntry [DecidableEq TypeId] (h : s.Holds cs) {values : List (T t).Val}
    (hc : cs[index]? = some ⟨t, values, hash, k⟩) :
    ∃ e, s.entries[index]? = some e ∧ s.validateEntry index t = some e := by
  obtain ⟨e, he, hstores⟩ := h.entry hc
  refine ⟨e, he, ?_⟩
  rw [Stash.validateEntry, he]
  exact if_pos hstores.typeId

/-- Reading the handle gives what it was created with. -/
def Handle.ReadsBack (s : Stash TypeId) : Handle T → Prop
  | .ptr t index value => s.readPtr T t index = some value
  | .slice t index values => s.readSlice T t index = some values

/-- The operation that creates the handle's contents again. -/
def Handle.op : Handle T → Op T
  | .ptr t _ value => .alloc t value
  | .slice t _ values => .allocSlice t values

theorem Holds.readsBack (h : s.Holds cs) (hfits : s.Fits cs) {handle : Handle T}
    (hn : handle.Names finish cs) : handle.ReadsBack s := by
  obtain ⟨hash, k, -, hc⟩ := hn
  cases handle with
  | ptr t index value =>
      obtain ⟨e, he, hvalid⟩ := h.validateEntry hc
      rw [Handle.ReadsBack, readPtr, hvalid]
      exact h.readOne hfits hc he
  | slice t index values =>
      obtain ⟨e, he, hvalid⟩ := h.validateEntry hc
      rw [Handle.ReadsBack, Stash.readSlice, hvalid]
      exact h.readSlice hfits hc he

omit [DecidableEq TypeId] in
/-- Contents of one hash are at one index exactly when they are equal. -/
theorem Holds.index_eq_iff (h : s.Holds cs) {i j : Nat} {values values' : List (T t).Val}
    {hash' : UInt64} {k' : Nat} (hi : cs[i]? = some ⟨t, values, hash, k⟩)
    (hj : cs[j]? = some ⟨t, values', hash', k'⟩) (hhash : values = values' → hash = hash') :
    i = j ↔ values = values' := by
  constructor
  · rintro rfl
    have := Option.some.inj (hi.symm.trans hj)
    rw [Content.mk.injEq] at this
    exact eq_of_heq this.2.1
  · intro heq
    obtain rfl := hhash heq
    obtain rfl := heq
    obtain rfl := h.distinct t values hash k k' (List.mem_of_getElem? hi) (List.mem_of_getElem? hj)
    exact h.index_eq hi hj rfl

theorem Holds.step_op (h : s.Holds cs) (hfits : s.Fits cs) {handle : Handle T}
    (hn : handle.Names finish cs) : s.step T finish handle.op = some (handle, s) := by
  obtain ⟨hash, k, hhash, hc⟩ := hn
  rw [← h.inlineHashes] at hhash
  cases handle with
  | ptr t index value =>
      obtain ⟨words, hwords, rfl⟩ := Option.map_eq_some_iff.mp hhash
      have halloc : s.alloc T finish t value = some (index, s) := by
        rw [Stash.alloc, hwords]
        exact h.intern_eq (h.compares_ptr hfits value _) hc
      rw [Handle.op, Stash.step, halloc]
      rfl
  | slice t index values =>
      obtain ⟨words, hwords, hr⟩ := Option.bind_eq_some_iff.mp hhash
      obtain rfl := Option.some.inj hr
      have halloc : s.allocSlice T finish t values = some (index, s) := by
        rw [Stash.allocSlice, hwords]
        exact h.intern_eq (h.compares_slice hfits values _) hc
      rw [Handle.op, Stash.step, halloc]
      rfl

/-- Two handles of one kind and type, with what each was created with. -/
inductive Handle.Alike : Handle T → Handle T → EntryIndex → EntryIndex → Prop → Prop
  | ptr (t : TypeId) (i j : EntryIndex) (v w : (T t).Val) :
      Alike (.ptr t i v) (.ptr t j w) i j (v = w)
  | slice (t : TypeId) (i j : EntryIndex) (vs ws : List (T t).Val) :
      Alike (.slice t i vs) (.slice t j ws) i j (vs = ws)

omit [DecidableEq TypeId] in
theorem Holds.alike (h : s.Holds cs) {a b : Handle T} {i j : EntryIndex} {same : Prop}
    (hab : a.Alike b i j same) (ha : a.Names finish cs) (hb : b.Names finish cs) :
    i = j ↔ same := by
  obtain ⟨hash, k, hhash, hc⟩ := ha
  obtain ⟨hash', k', hhash', hc'⟩ := hb
  cases hab with
  | ptr t i j v w =>
      rw [h.index_eq_iff hc hc', List.singleton_inj]
      intro hvw
      rw [Handle.contentHash, List.singleton_inj.mp hvw] at hhash
      exact Option.some.inj (hhash.symm.trans hhash')
  | slice t i j vs ws =>
      refine h.index_eq_iff hc hc' fun hvw => ?_
      rw [Handle.contentHash, hvw] at hhash
      exact Option.some.inj (hhash.symm.trans hhash')

/-- The values of an operation can be hashed: their handles are in the stash. -/
def Op.Reads (finish : List UInt64 → UInt64) (s : Stash TypeId) : Op T → Prop
  | .alloc t value => ((T t).stashHash s.inlineHashes value).isSome
  | .allocSlice _ values => (sliceHash finish s.inlineHashes values).isSome
  | .appendOne t existing element => ∃ old, s.readSlice T t existing = some old ∧
      (sliceHash finish s.inlineHashes (old ++ [element])).isSome

theorem Holds.step_isSome (h : s.Holds cs) (hfits : s.Fits cs) {op : Op T}
    (hop : op.Reads finish s) (hroom : s.entries.length + 1 < 2 ^ 32) :
    (s.step T finish op).isSome := by
  have hslice : ∀ {t : TypeId} {values : List (T t).Val},
      (sliceHash finish s.inlineHashes values).isSome → (s.allocSlice T finish t values).isSome := by
    intro t values hhash
    obtain ⟨hash, hhash⟩ := Option.isSome_iff_exists.mp hhash
    obtain ⟨words, hwords, -⟩ := Option.bind_eq_some_iff.mp hhash
    rw [Stash.allocSlice, hwords]
    exact h.intern_isSome (h.compares_slice hfits values _) hroom
  cases op with
  | alloc t value =>
      obtain ⟨words, hwords⟩ := Option.isSome_iff_exists.mp hop
      have hintern := h.intern_isSome (h.compares_ptr hfits value (finish words)) hroom
      obtain ⟨⟨index, u⟩, hintern⟩ := Option.isSome_iff_exists.mp hintern
      have halloc : s.alloc T finish t value = some (index, u) := by
        rw [Stash.alloc, hwords]
        exact hintern
      rw [Stash.step, halloc]
      rfl
  | allocSlice t values =>
      obtain ⟨⟨index, u⟩, halloc⟩ := Option.isSome_iff_exists.mp (hslice hop)
      rw [Stash.step, halloc]
      rfl
  | appendOne t existing element =>
      obtain ⟨old, hold, hhash⟩ := hop
      obtain ⟨⟨index, u⟩, halloc⟩ := Option.isSome_iff_exists.mp (hslice hhash)
      have happend : s.appendOne T finish t existing element = some (index, u) := by
        rw [Stash.appendOne, hold]
        exact halloc
      rw [Stash.step, hold, Option.bind_eq_bind, Option.bind_some, happend]
      rfl

/-- The laws of a run, when the buffer ends with at most 2³² bytes and every slice has less than
2³² elements: every handle reads back what it was created with, two handles of one type are equal
exactly when they were created with equal contents, creating contents again returns their handle
and leaves the stash as it is, and the next operation does not panic while the number of entries
fits into 32 bits. -/
theorem run_laws {ops : List (Op T)} {handles : List (Handle T)}
    (hrun : Stash.new.run T finish ops = some (handles, s))
    (hbuf : s.buf.bytes.length ≤ 2 ^ 32) (hlen : ∀ handle ∈ handles, handle.length < 2 ^ 32) :
    (∀ handle ∈ handles, handle.ReadsBack s) ∧
      (∀ a ∈ handles, ∀ b ∈ handles, ∀ i j same, a.Alike b i j same → (i = j ↔ same)) ∧
      (∀ handle ∈ handles, s.step T finish handle.op = some (handle, s)) ∧
      ∀ op : Op T, op.Reads finish s → s.entries.length + 1 < 2 ^ 32 →
        (s.step T finish op).isSome := by
  obtain ⟨cs, -, h, hfits, hnames⟩ := Holds.new.run nofun hrun hbuf hlen
  exact ⟨fun handle hmem => h.readsBack hfits (hnames handle hmem),
    fun a ha b hb i j same hab => h.alike hab (hnames a ha) (hnames b hb),
    fun handle hmem => h.step_op hfits (hnames handle hmem), fun op => h.step_isSome hfits⟩

/-- Bytes as a storable type. -/
def byteType : StashType where
  Val := UInt8
  decEq := inferInstance
  size := 1
  alignLog := 0
  encode v := [v]
  decode bytes := bytes.headD 0
  stashHash _ v := some [v.toUInt64]
  alignLog_lt := by decide
  align_dvd_size := by decide
  length_encode _ := rfl
  decode_encode _ := rfl
  stashHash_append _ _ _ _ h := h

/-- Some bytes, alone and in slices. -/
def byteOps : List (Op fun _ : Unit => byteType) :=
  [.alloc () (5 : UInt8), .allocSlice () [(5 : UInt8), (7 : UInt8)], .alloc () (7 : UInt8),
    .appendOne () 1 (9 : UInt8), .alloc () (5 : UInt8)]

/-- The laws hold also under a hash that is always zero. -/
theorem byteOps_laws : ∃ handles s, Stash.new.run _ (fun _ => 0) byteOps = some (handles, s) ∧
    (∀ handle ∈ handles, handle.ReadsBack s) ∧
      (∀ a ∈ handles, ∀ b ∈ handles, ∀ i j same, a.Alike b i j same → (i = j ↔ same)) ∧
      (∀ handle ∈ handles, s.step _ (fun _ => 0) handle.op = some (handle, s)) ∧
      ∀ op : Op fun _ : Unit => byteType, op.Reads (fun _ => 0) s → s.entries.length + 1 < 2 ^ 32 →
        (s.step _ (fun _ => 0) op).isSome := by
  have hsizes : (Stash.new.run _ (fun _ => 0) byteOps).map (fun r =>
      (r.1.map Handle.length, r.2.buf.bytes.length)) = some ([1, 2, 1, 3, 1], 15) := by
    decide
  obtain ⟨⟨handles, s⟩, hrun, hr⟩ := Option.map_eq_some_iff.mp hsizes
  obtain ⟨hlengths, hbuf⟩ := Prod.mk.inj hr
  refine ⟨handles, s, hrun, run_laws hrun (hbuf.trans_le (by decide)) fun handle hmem => ?_⟩
  have hlength := List.mem_map_of_mem (f := Handle.length) hmem
  rw [hlengths] at hlength
  have hbound : ∀ n ∈ [1, 2, 1, 3, 1], n < 2 ^ 32 := by decide
  exact hbound _ hlength

end Stash

end Stash

end Sage
