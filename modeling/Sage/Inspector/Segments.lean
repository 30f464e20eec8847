import Sage.Inspector.Canonical
import Sage.Library.Numbered
import Mathlib.Algebra.Group.Nat.Defs

/-!
# Inspector — segments of paths

A segment tells the base it was made from and its number among the siblings of that base, and has
no slash in it, so a path tells its segments.

* `segmentText_injective` — the base and the number.
* `canonicalChildrenFrom_nodup` — siblings have different segments.
* `baseSegment_eq_iff` — when two hosts give a symbol the same base.
-/

namespace Sage.Inspector

/-! ### The characters of a segment -/

theorem percentByte_marks : ∀ n : Fin 256, '/' ∉ percentByte (UInt8.ofNat n) ∧
    ('-' ∈ percentByte (UInt8.ofNat n) → n = 45) := by
  decide +kernel

theorem slash_notMem_percentByte (byte : UInt8) : '/' ∉ percentByte byte := by
  have h := (percentByte_marks ⟨byte.toNat, byte.toNat_lt⟩).1
  rwa [UInt8.ofNat_toNat] at h

theorem eq_of_hyphen_mem_percentByte {byte : UInt8} (h : '-' ∈ percentByte byte) :
    byte.toNat = 45 := by
  rw [← UInt8.ofNat_toNat (x := byte)] at h
  exact congrArg Fin.val ((percentByte_marks ⟨byte.toNat, byte.toNat_lt⟩).2 h)

/-- Only a hyphen is encoded with the byte of a hyphen. -/
theorem eq_hyphen_of_mem_utf8EncodeChar {c : Char} {byte : UInt8}
    (h : byte ∈ String.utf8EncodeChar c) (hb : byte.toNat = 45) : c = '-' := by
  have hlow (n : Nat) (h : byte = UInt8.ofNat n) : n % 256 = 45 := by
    rw [← hb, h, UInt8.toNat_ofNat']
  rw [String.utf8EncodeChar] at h
  -- a character of more than one byte has none below 128
  split at h
  · rename_i hsmall
    have hc : c.toNat % 256 = 45 := hlow c.val.toNat (List.mem_singleton.mp h)
    refine Char.toNat_inj.mp ((Nat.mod_eq_of_lt ?_).symm.trans hc)
    exact Nat.lt_of_le_of_lt hsmall (by decide)
  · split at h
    · simp only [List.mem_cons, List.not_mem_nil, or_false] at h
      rcases h with h | h <;> have := hlow _ h <;> omega
    · split at h <;> simp only [List.mem_cons, List.not_mem_nil, or_false] at h
      · rcases h with h | h | h <;> have := hlow _ h <;> omega
      · rcases h with h | h | h | h <;> have := hlow _ h <;> omega

theorem slash_notMem_percentEncode (value : String) : '/' ∉ (percentEncode value).toList := by
  rw [percentEncode, String.toList_ofList]
  intro h
  obtain ⟨c, -, hc⟩ := List.mem_flatMap.mp h
  obtain ⟨byte, -, hbyte⟩ := List.mem_flatMap.mp hc
  exact slash_notMem_percentByte byte hbyte

theorem hyphen_notMem_percentEncode {value : String} (hvalue : '-' ∉ value.toList) :
    '-' ∉ (percentEncode value).toList := by
  rw [percentEncode, String.toList_ofList]
  intro h
  obtain ⟨c, hc, hbytes⟩ := List.mem_flatMap.mp h
  obtain ⟨byte, hbyte, hmem⟩ := List.mem_flatMap.mp hbytes
  rw [eq_hyphen_of_mem_utf8EncodeChar hbyte (eq_of_hyphen_mem_percentByte hmem)] at hc
  exact hvalue hc

theorem hexDigit_injective : ∀ m n : Fin 16, hexDigit m = hexDigit n → m = n := by
  decide

/-- An encoded byte is an ordinary character or starts with a mark that is none. -/
theorem percentByte_eq (byte : UInt8) :
    (percentByte byte = [Char.ofNat byte.toNat] ∧ Char.ofNat byte.toNat ≠ '%' ∧ byte.toNat < 128) ∨
      percentByte byte = ['%', hexDigit (byte.toNat / 16), hexDigit (byte.toNat % 16)] := by
  rw [percentByte]
  split
  · rename_i h
    refine .inl ⟨rfl, fun hmark => ?_, h.1⟩
    rw [hmark] at h
    exact absurd h.2 (by decide)
  · exact .inr rfl

theorem toNat_ofNat_ascii : ∀ n : Fin 128, (Char.ofNat n).toNat = n := by
  decide

theorem percentByte_read (a b : UInt8) (r s : List Char)
    (h : percentByte a ++ r = percentByte b ++ s) : a = b ∧ r = s := by
  rcases percentByte_eq a with ⟨ha, hmark, hlt⟩ | ha <;>
    rcases percentByte_eq b with ⟨hb, hmark', hlt'⟩ | hb <;> rw [ha, hb] at h
  · obtain ⟨hc, hrest⟩ := List.cons.inj h
    have hbytes := congrArg Char.toNat hc
    rw [toNat_ofNat_ascii ⟨_, hlt⟩, toNat_ofNat_ascii ⟨_, hlt'⟩] at hbytes
    exact ⟨UInt8.toNat_inj.mp hbytes, hrest⟩
  · exact absurd (List.cons.inj h).1 hmark
  · exact absurd (List.cons.inj h).1.symm hmark'
  · obtain ⟨-, h⟩ := List.cons.inj h
    obtain ⟨hhigh, h⟩ := List.cons.inj h
    obtain ⟨hlow, hrest⟩ := List.cons.inj h
    have hlt (byte : UInt8) : byte.toNat / 16 < 16 := Nat.div_lt_of_lt_mul byte.toNat_lt
    have hdiv := congrArg Fin.val (hexDigit_injective ⟨_, hlt a⟩ ⟨_, hlt b⟩ hhigh)
    have hmod := congrArg Fin.val (hexDigit_injective ⟨_, Nat.mod_lt a.toNat (by decide)⟩
      ⟨_, Nat.mod_lt b.toNat (by decide)⟩ hlow)
    refine ⟨UInt8.toNat_inj.mp ?_, hrest⟩
    rw [← Nat.div_add_mod a.toNat 16, ← Nat.div_add_mod b.toNat 16]
    exact congr (congrArg _ (congrArg _ hdiv)) hmod

/-- A text is known from how it is percent-encoded. -/
theorem percentEncode_injective {a b : String} (h : percentEncode a = percentEncode b) :
    a = b := by
  have hchars := String.ofList_inj.mp h
  rw [← List.flatMap_assoc, ← List.flatMap_assoc] at hchars
  have hbytes : a.toList.flatMap String.utf8EncodeChar = b.toList.flatMap String.utf8EncodeChar :=
    Numbered.flatMap_injective (fun byte => by rcases percentByte_eq byte with h | h <;> simp [h])
      percentByte_read hchars
  rw [← String.toByteArray_inj, ← String.utf8Encode_toList, ← String.utf8Encode_toList]
  exact congrArg List.toByteArray hbytes

theorem lowerHexDigit_marks : ∀ n : Fin 16, lowerHexDigit n ≠ '/' ∧ lowerHexDigit n ≠ '-' := by
  decide

theorem lowerHexDigit_injective : ∀ m n : Fin 16, lowerHexDigit m = lowerHexDigit n → m = n := by
  decide

theorem marks_notMem_hexDigits {c : Char} : ∀ {k n : Nat}, c ∈ hexDigits k n → c ≠ '/' ∧ c ≠ '-'
  | 0, _, h => absurd h List.not_mem_nil
  | k + 1, n, h => by
      rw [hexDigits] at h
      rcases List.mem_append.mp h with h | h
      · exact marks_notMem_hexDigits h
      · rw [List.mem_singleton.mp h]
        exact lowerHexDigit_marks ⟨n % 16, Nat.mod_lt n (by decide)⟩

/-- Numbers below a power of 16 have different digits. -/
theorem hexDigits_injective : ∀ {k m n : Nat}, m < 16 ^ k → n < 16 ^ k →
    hexDigits k m = hexDigits k n → m = n
  | 0, m, n, hm, hn, _ => by
      rw [Nat.lt_one_iff.mp hm, Nat.lt_one_iff.mp hn]
  | k + 1, m, n, hm, hn, h => by
      rw [hexDigits, hexDigits] at h
      obtain ⟨hrest, hlast⟩ := List.append_inj' h rfl
      have hdiv : m / 16 = n / 16 :=
        hexDigits_injective (Nat.div_lt_of_lt_mul (by rwa [Nat.pow_succ'] at hm))
          (Nat.div_lt_of_lt_mul (by rwa [Nat.pow_succ'] at hn)) hrest
      have hmod : m % 16 = n % 16 :=
        congrArg Fin.val (lowerHexDigit_injective ⟨m % 16, Nat.mod_lt m (by decide)⟩
          ⟨n % 16, Nat.mod_lt n (by decide)⟩ (List.cons.inj hlast).1)
      rw [← Nat.div_add_mod m 16, ← Nat.div_add_mod n 16, hdiv, hmod]

theorem hexDigits_toNat_injective {a b : UInt64} (h : hexDigits 16 a.toNat = hexDigits 16 b.toNat) :
    a = b := by
  have hpow : 2 ^ 64 = 16 ^ 16 := by decide
  refine UInt64.toNat_inj.mp (hexDigits_injective ?_ ?_ h)
  · rw [← hpow]; exact a.toNat_lt
  · rw [← hpow]; exact b.toNat_lt

/-! ### Segments -/

/-- The segment of the sibling with a number among those of one base. -/
@[grind =] def segmentText (base : String) (occurrence : Nat) : String :=
  if occurrence = 0 then base else base ++ "-duplicate-" ++ occurrence.repr

/-- A text that starts like the segments of a kind and goes on without another hyphen. -/
def IsBase (base : String) : Prop :=
  ∃ (kind : SymbolKind) (tail : String), '-' ∉ tail.toList ∧ '/' ∉ tail.toList ∧
    base = kind.parts.2 ++ "-" ++ tail

theorem SymbolKind.start_injective {kind kind' : SymbolKind} (h : kind.parts.2 = kind'.parts.2) :
    kind = kind' := by
  cases kind <;> cases kind' <;> first | rfl | exact absurd h (by decide)

theorem start_not_duplicate (kind : SymbolKind) :
    ¬"-duplicate".toList <:+ kind.parts.2.toList := by
  cases kind <;> decide

theorem slash_notMem_start (kind : SymbolKind) : '/' ∉ kind.parts.2.toList := by
  cases kind <;> decide

theorem IsBase.slash_notMem {base : String} (h : IsBase base) : '/' ∉ base.toList := by
  obtain ⟨kind, tail, -, htail, rfl⟩ := h
  simp only [String.toList_append, List.mem_append, not_or]
  exact ⟨⟨slash_notMem_start kind, by decide⟩, htail⟩

theorem slash_notMem_segmentText {base : String} (h : IsBase base) (n : Nat) :
    '/' ∉ (segmentText base n).toList := by
  rw [segmentText]
  split
  · exact h.slash_notMem
  · simp only [String.toList_append, List.mem_append, not_or]
    exact ⟨⟨h.slash_notMem, by decide⟩, Numbered.notMem_repr (by decide) n⟩

/-- A base is no base with a number. -/
theorem IsBase.ne_numbered {base base' : String} (h : IsBase base) (n : Nat) :
    base ≠ base' ++ "-duplicate-" ++ n.repr := by
  obtain ⟨kind, tail, htail, -, rfl⟩ := h
  intro heq
  have hchars := congrArg String.toList heq
  have hmark : "-duplicate-".toList = "-duplicate".toList ++ ['-'] := by decide
  simp only [String.toList_append, hmark, List.append_assoc, List.singleton_append,
    show "-".toList = ['-'] by decide] at hchars
  rw [← List.append_assoc] at hchars
  have hbefore := (Numbered.split_unique_last htail (Numbered.notMem_repr (by decide) n) hchars).1
  exact start_not_duplicate kind ⟨base'.toList, hbefore.symm⟩

theorem segmentText_injective {base base' : String} {m n : Nat} (hbase : IsBase base)
    (hbase' : IsBase base') (h : segmentText base m = segmentText base' n) :
    base = base' ∧ m = n := by
  rw [segmentText, segmentText] at h
  by_cases hm : m = 0
  · by_cases hn : n = 0
    · rw [if_pos hm, if_pos hn] at h
      exact ⟨h, hm.trans hn.symm⟩
    · rw [if_pos hm, if_neg hn] at h
      exact absurd h (hbase.ne_numbered n)
  · by_cases hn : n = 0
    · rw [if_neg hm, if_pos hn] at h
      exact absurd h.symm (hbase'.ne_numbered m)
    · rw [if_neg hm, if_neg hn] at h
      have hchars := congrArg String.toList h
      have hmark : "-duplicate-".toList = "-duplicate".toList ++ ['-'] := by decide
      simp only [String.toList_append, hmark, List.append_assoc, List.singleton_append] at hchars
      rw [← List.append_assoc, ← List.append_assoc base'.toList] at hchars
      obtain ⟨hbases, hnumbers⟩ := Numbered.split_unique_last
        (Numbered.notMem_repr (by decide) m) (Numbered.notMem_repr (by decide) n) hchars
      exact ⟨String.toList_inj.mp (List.append_cancel_right hbases),
        Numbered.repr_injective (String.toList_inj.mp hnumbers)⟩

mutual

/-- What is hashed has no id in it. -/
def HashInput.Plain : HashInput → Prop
  | .word _ => True
  | .name _ => False
  | .symbol _ => False
  | .entry children => HashInput.AllPlain children

def HashInput.AllPlain : List HashInput → Prop
  | [] => True
  | input :: inputs => input.Plain ∧ HashInput.AllPlain inputs

end

mutual

theorem HashInput.value_eq_of_plain [FxHasher] {ids ids' : HostIds} :
    ∀ {input : HashInput}, input.Plain → input.value ids = input.value ids'
  | .word _, _ => by rw [HashInput.value, HashInput.value]
  | .name _, h => absurd h (by simp [HashInput.Plain])
  | .symbol _, h => absurd h (by simp [HashInput.Plain])
  | .entry children, h => by
      rw [HashInput.Plain] at h
      rw [HashInput.value, HashInput.value, HashInput.values_eq_of_plain h]

theorem HashInput.values_eq_of_plain [FxHasher] {ids ids' : HostIds} :
    ∀ {inputs : List HashInput}, HashInput.AllPlain inputs →
      HashInput.values ids inputs = HashInput.values ids' inputs
  | [], _ => by rw [HashInput.values, HashInput.values]
  | input :: inputs, h => by
      rw [HashInput.AllPlain] at h
      rw [HashInput.values, HashInput.values, HashInput.value_eq_of_plain h.1,
        HashInput.values_eq_of_plain h.2]

end

namespace SymbolTable

variable [FxHasher] {t : SymbolTable} {ids ids' : HostIds}

omit [FxHasher] in
theorem symbolName_eq_some {s : Symbol} {name : String} (h : t.symbolName s = some name) :
    name = (t.data s).ident.text := by
  rw [symbolName] at h
  cases hkind : (t.data s).kind <;> rw [hkind] at h <;> simp_all

omit [FxHasher] in
/-- Only items without a name are shown by their kind. -/
theorem usesHash_iff (s : Symbol) : t.UsesHash s ↔ t.symbolName s = none := by
  constructor
  · intro h
    cases hname : t.symbolName s with
    | none => rfl
    | some name =>
        rw [UsesHash, label, hname, Option.getD_some, symbolName_eq_some hname] at h
        refine absurd ?_ (t.data s).ident.space_notMem
        rw [h, String.toList_append]
        exact List.mem_append_right _ (by decide)
  · intro h
    rw [UsesHash, label, h, Option.getD_none]

/-- What follows the kind in a base. -/
@[grind =] def baseTail (t : SymbolTable) (ids : HostIds) (s : Symbol) : String :=
  if t.UsesHash s then String.ofList (hexDigits 16 (t.stableSymbolHash ids s).toNat)
  else safeSegment (t.label s)

theorem marks_notMem_baseTail (s : Symbol) :
    '-' ∉ (t.baseTail ids s).toList ∧ '/' ∉ (t.baseTail ids s).toList := by
  rw [baseTail]
  split
  · rw [String.toList_ofList]
    exact ⟨fun h => (marks_notMem_hexDigits h).2 rfl, fun h => (marks_notMem_hexDigits h).1 rfl⟩
  · rename_i hs
    refine ⟨hyphen_notMem_percentEncode ?_, slash_notMem_percentEncode _⟩
    cases hname : t.symbolName s with
    | none => exact absurd ((usesHash_iff s).mpr hname) hs
    | some name =>
        rw [label, hname, Option.getD_some, symbolName_eq_some hname]
        exact (t.data s).ident.hyphen_notMem

theorem isBase_baseSegment (s : Symbol) : IsBase (t.baseSegment ids s) :=
  ⟨(t.data s).kind, t.baseTail ids s, (marks_notMem_baseTail s).1, (marks_notMem_baseTail s).2, rfl⟩

/-- Symbols whose segments are hashes share a base exactly if they hash alike. -/
theorem baseSegment_eq_iff (s : Symbol) : t.baseSegment ids s = t.baseSegment ids' s ↔
    (t.UsesHash s → t.stableSymbolHash ids s = t.stableSymbolHash ids' s) := by
  by_cases hs : t.UsesHash s
  · simp only [baseSegment, hs, if_true, true_implies]
    constructor
    · intro h
      have hchars := congrArg String.toList h
      simp only [String.toList_append, String.toList_ofList] at hchars
      exact hexDigits_toNat_injective (List.append_cancel_left hchars)
    · intro h
      rw [h]
  · simp only [baseSegment, hs, if_false, false_implies]

/-- A base tells the kind of its symbol and what follows the kind. -/
theorem baseSegment_parts {t' : SymbolTable} {s s' : Symbol}
    (h : t.baseSegment ids s = t'.baseSegment ids' s') :
    (t.data s).kind = (t'.data s').kind ∧ t.baseTail ids s = t'.baseTail ids' s' := by
  have hmark : "-".toList = ['-'] := by decide
  have hchars := congrArg String.toList h
  rw [baseSegment, ← baseTail, baseSegment, ← baseTail] at hchars
  simp only [String.toList_append, hmark, List.append_assoc, List.singleton_append] at hchars
  obtain ⟨hstart, htail⟩ := Numbered.split_unique_last (marks_notMem_baseTail s).1
    (marks_notMem_baseTail s').1 hchars
  exact ⟨SymbolKind.start_injective (String.toList_inj.mp hstart), String.toList_inj.mp htail⟩

/-- The label is known from the base. -/
theorem displayLabel_eq_of_baseSegment {t' : SymbolTable} {s s' : Symbol}
    (h : t.baseSegment ids s = t'.baseSegment ids' s') : t.displayLabel s = t'.displayLabel s' := by
  obtain ⟨hkind, htail⟩ := baseSegment_parts h
  have hlabel : t.label s = t'.label s' := by
    cases hname : t.symbolName s with
    | none =>
        have hname' : t'.symbolName s' = none := by
          rw [symbolName, ← hkind]
          rw [symbolName] at hname
          cases hk : (t.data s).kind <;> rw [hk] at hname <;> simp_all
        rw [label, label, hname, hname', hkind]
    | some name =>
        have hnot : ¬t.UsesHash s := by rw [usesHash_iff, hname]; simp
        have hnot' : ¬t'.UsesHash s' := by
          rw [usesHash_iff, symbolName, ← hkind]
          rw [symbolName] at hname
          cases hk : (t.data s).kind <;> rw [hk] at hname <;> simp_all
        rw [baseTail, baseTail, if_neg hnot, if_neg hnot'] at htail
        exact percentEncode_injective htail
  rw [displayLabel, displayLabel, hkind, hlabel]

/-! ### Siblings -/

/-- A canonical child has the segment of its base with a number not given out before. -/
theorem canonicalChildrenFrom_segment : ∀ {symbols : List Symbol}
    {occurrences : PartialMap String Nat} {child : CanonicalChild},
    child ∈ t.canonicalChildrenFrom ids occurrences symbols →
      ∃ n, (occurrences (t.baseSegment ids child.symbol)).getD 0 ≤ n ∧
        child.segment = segmentText (t.baseSegment ids child.symbol) n
  | [], _, _, h => by simp [canonicalChildrenFrom] at h
  | s :: symbols, occurrences, child, h => by
      rw [canonicalChildrenFrom] at h
      split at h
      · exact canonicalChildrenFrom_segment h
      · rcases List.mem_cons.mp h with rfl | h
        · exact ⟨_, Nat.le_refl _, rfl⟩
        · obtain ⟨n, hn, hsegment⟩ := canonicalChildrenFrom_segment h
          refine ⟨n, ?_, hsegment⟩
          by_cases hbase : t.baseSegment ids child.symbol = t.baseSegment ids s
          · simp only [PartialMap.insert, hbase, Function.update_self, Option.getD_some] at hn
            rw [hbase]
            exact Nat.le_of_succ_le hn
          · rwa [PartialMap.insert, Function.update_of_ne hbase] at hn

theorem canonicalChildrenFrom_nodup : ∀ {symbols : List Symbol}
    {occurrences : PartialMap String Nat},
    ((t.canonicalChildrenFrom ids occurrences symbols).map (·.segment)).Nodup
  | [], _ => by simp [canonicalChildrenFrom]
  | s :: symbols, occurrences => by
      rw [canonicalChildrenFrom]
      split
      · exact canonicalChildrenFrom_nodup
      · rw [List.map_cons, List.nodup_cons]
        refine ⟨?_, canonicalChildrenFrom_nodup⟩
        intro hmem
        obtain ⟨child, hchild, hsegment⟩ := List.mem_map.mp hmem
        obtain ⟨n, hn, htext⟩ := canonicalChildrenFrom_segment hchild
        -- a later sibling of the same base has a greater number
        obtain ⟨hbase, hnumber⟩ := segmentText_injective (isBase_baseSegment child.symbol)
          (isBase_baseSegment s) (htext.symm.trans hsegment)
        simp only [PartialMap.insert, hbase, symbolIdentityParts, Function.update_self,
          Option.getD_some] at hn
        exact Nat.not_succ_le_self _ (Nat.le_trans hn (Nat.le_of_eq hnumber))

theorem canonicalChildrenFrom_symbols : ∀ {symbols : List Symbol}
    {occurrences : PartialMap String Nat},
    (t.canonicalChildrenFrom ids occurrences symbols).map (·.symbol) =
      symbols.filter fun s => !(t.data s).external
  | [], _ => rfl
  | s :: symbols, occurrences => by
      rw [canonicalChildrenFrom]
      split
      · rename_i hs
        rw [canonicalChildrenFrom_symbols, List.filter_cons_of_neg (by simp [hs])]
      · rename_i hs
        rw [List.map_cons, canonicalChildrenFrom_symbols,
          List.filter_cons_of_pos (by simpa using hs)]

/-- The canonical children depend on the ids through the bases of the symbols only. -/
theorem canonicalChildrenFrom_congr : ∀ {symbols : List Symbol}
    {occurrences : PartialMap String Nat},
    (∀ s ∈ symbols, (t.data s).external = false →
      t.baseSegment ids s = t.baseSegment ids' s) →
    t.canonicalChildrenFrom ids occurrences symbols =
      t.canonicalChildrenFrom ids' occurrences symbols
  | [], _, _ => rfl
  | s :: symbols, occurrences, h => by
      have hrest : ∀ s' ∈ symbols, (t.data s').external = false →
          t.baseSegment ids s' = t.baseSegment ids' s' :=
        fun s' hs' => h s' (List.mem_cons_of_mem _ hs')
      rw [canonicalChildrenFrom, canonicalChildrenFrom]
      cases hs : (t.data s).external with
      | true => exact canonicalChildrenFrom_congr hrest
      | false =>
          simp only [symbolIdentityParts, h s List.mem_cons_self hs, Bool.false_eq_true, if_false]
          exact congrArg _ (canonicalChildrenFrom_congr hrest)

end SymbolTable

end Sage.Inspector
