import Mathlib.Data.List.Nodup
import Sage.Library.Minting
import Sage.Library.Occurrence
import Sage.Parse.Associated

/-!
# Resolve — associated symbols

`local_syms/associated.rs`: the symbols of the associated items of a trait or an impl.  An item is
asked for by its kind, its name and the number of items before it with both, and the memoised
query that is asked finds the syntax again.

* `keyedSourceItem`, `lowerItem`, `localAssociatedItem`.
* `localAssociatedItems`, `lowerItems` — the two lists of the symbols of an owner.
* `Database`, `Step`, `run` — the queries in any order, over all owners.
* `conserved` — the entries of a body have a symbol each.
-/

namespace Sage.Resolve.Associated

open Parse (RelativeSpan)
open Parse.Associated (TraitItemCst Named Parser Entry Holds IsBefore attrsOf)

inductive LocalAssociatedItemKind where
  | function
  | type_
  | const_
deriving DecidableEq

/-- `LocalAssociatedItemKey`: kind, name and occurrence. -/
abbrev Key := (LocalAssociatedItemKind × List Char) × Nat

inductive LocalAssociatedOwner (Trait Impl : Type) where
  | trait_ (sym : Trait)
  | impl_ (sym : Impl)
deriving DecidableEq

structure AbsoluteSpan (Source : Type) where
  source : Source
  start : Nat
  end_ : Nat

def AbsoluteSpan.resolve {Source : Type} (span : AbsoluteSpan Source) (relative : RelativeSpan) :
    AbsoluteSpan Source :=
  ⟨span.source, span.start + relative.start, span.start + relative.end_⟩

/-- What the queries read of a trait or an impl. -/
structure Decl (Scope Source F T C : Type) where
  scope : Scope
  span : AbsoluteSpan Source
  items : List (TraitItemCst F T C)

/-- The fields of a symbol of any of the three sorts. -/
structure SymData (Owner Scope Source R : Type) where
  name : List Char
  scope : Scope
  owner : Option Owner
  cst : Named R
  span : AbsoluteSpan Source

inductive LocalModItemSym (Owner Scope Source F T C : Type) where
  | function (data : SymData Owner Scope Source F)
  | typeAlias (data : SymData Owner Scope Source T)
  | const_ (data : SymData Owner Scope Source C)

inductive TraitItemDef where
  | function (id : Nat)
  | type_ (id : Nat)
  | const_ (id : Nat)
deriving DecidableEq

def TraitItemDef.id : TraitItemDef → Nat
  | .function id | .type_ id | .const_ id => id

variable {Trait Impl Scope Source F T C : Type} [DecidableEq Trait] [DecidableEq Impl]

abbrev Sym (Trait Impl Scope Source F T C : Type) :=
  LocalModItemSym (LocalAssociatedOwner Trait Impl) Scope Source F T C

/-! ### One item -/

def itemKindAndName : TraitItemCst F T C → LocalAssociatedItemKind × List Char
  | .fn cst _ => (.function, cst.name)
  | .type_ cst _ => (.type_, cst.name)
  | .const_ cst _ => (.const_, cst.name)

def keyedSourceItem (items : List (TraitItemCst F T C)) (key : Key) : Option (TraitItemCst F T C) :=
  Occurrence.pick itemKindAndName key 0 items

def lowerItem (owner : LocalAssociatedOwner Trait Impl) (decl : Decl Scope Source F T C) :
    TraitItemCst F T C → Sym Trait Impl Scope Source F T C
  | .fn cst placement =>
      .function ⟨cst.name, decl.scope, some owner, cst, decl.span.resolve placement⟩
  | .type_ cst placement =>
      .typeAlias ⟨cst.name, decl.scope, some owner, cst, decl.span.resolve placement⟩
  | .const_ cst placement =>
      .const_ ⟨cst.name, decl.scope, some owner, cst, decl.span.resolve placement⟩

variable (decls : LocalAssociatedOwner Trait Impl → Decl Scope Source F T C)

/-- The body of `local_trait_associated_item` and of `local_impl_associated_item`. -/
def keyedSym : LocalAssociatedOwner Trait Impl × Key → Option (Sym Trait Impl Scope Source F T C)
  | (owner, key) =>
      (keyedSourceItem (decls owner).items key).map (lowerItem owner (decls owner))

/-! ### The database -/

structure Database (Trait Impl Scope Source F T C : Type) where
  item : Minting.Table (LocalAssociatedOwner Trait Impl × Key) (Sym Trait Impl Scope Source F T C)
  items : PartialMap (LocalAssociatedOwner Trait Impl) (List Nat)

def Database.empty : Database Trait Impl Scope Source F T C := ⟨.empty, PartialMap.empty⟩

variable (db : Database Trait Impl Scope Source F T C) (owner : LocalAssociatedOwner Trait Impl)

def localAssociatedItem (key : Key) : Option Nat × Database Trait Impl Scope Source F T C :=
  let (id, item) := Minting.demand (keyedSym decls) (owner, key) db.item
  (id, { db with item := item })

def keys : List (LocalAssociatedOwner Trait Impl × Key) :=
  (Occurrence.number itemKindAndName (fun _ => 0) (decls owner).items).map (owner, ·)

/-- Panics where an item that was read is not found. -/
def computeLocalAssociatedItems : Option (List Nat × Database Trait Impl Scope Source F T C) :=
  (Minting.demandAll (keyedSym decls) (keys decls owner) db.item).map fun (ids, item) =>
    (ids, { db with item := item })

def localAssociatedItems : Option (List Nat × Database Trait Impl Scope Source F T C) :=
  match db.items owner with
  | some ids => some (ids, db)
  | none =>
      (computeLocalAssociatedItems decls db owner).map fun (ids, db) =>
        (ids, { db with items := db.items.insert owner ids })

def traitItemDef (id : Nat) : Option TraitItemDef :=
  db.item.minted[id]?.map fun
    | .function _ => .function id
    | .typeAlias _ => .type_ id
    | .const_ _ => .const_ id

/-- The items of a trait or an impl in its signature. -/
def lowerItems : Option (List TraitItemDef × Database Trait Impl Scope Source F T C) := do
  let (ids, db) ← computeLocalAssociatedItems decls db owner
  let defs ← ids.mapM (traitItemDef db)
  return (defs, db)

inductive Step (Trait Impl : Type) where
  | item (owner : LocalAssociatedOwner Trait Impl) (key : Key)
  | items (owner : LocalAssociatedOwner Trait Impl)
  | lower (owner : LocalAssociatedOwner Trait Impl)

def step : Step Trait Impl → Option (Database Trait Impl Scope Source F T C)
  | .item owner key => some (localAssociatedItem decls db owner key).2
  | .items owner => (localAssociatedItems decls db owner).map Prod.snd
  | .lower owner => (lowerItems decls db owner).map Prod.snd

def run (steps : List (Step Trait Impl)) : Option (Database Trait Impl Scope Source F T C) :=
  steps.foldlM (step decls) db

/-! ### Soundness -/

/-- The symbols of the keys, as they are in the memo. -/
def Database.Finds (keys : List (LocalAssociatedOwner Trait Impl × Key)) (ids : List Nat) : Prop :=
  List.Forall₂ (fun key id => db.item.memo key = some (some id)) keys ids

structure Database.Sound : Prop where
  item : Minting.Sound (keyedSym decls) db.item
  items : ∀ {owner ids}, db.items owner = some ids → db.Finds (keys decls owner) ids

structure Database.Extends (db db' : Database Trait Impl Scope Source F T C) : Prop where
  item : Minting.Keeps db.item db'.item
  items : ∀ {owner ids}, db.items owner = some ids → db'.items owner = some ids

/-- The symbol of an item: its owner is this one, and its syntax and its place are the item's. -/
inductive Shows (owner : LocalAssociatedOwner Trait Impl) (decl : Decl Scope Source F T C) :
    TraitItemCst F T C → Sym Trait Impl Scope Source F T C → Prop
  | fn (cst : Named F) (placement : RelativeSpan) : Shows owner decl (.fn cst placement)
      (.function ⟨cst.name, decl.scope, some owner, cst, decl.span.resolve placement⟩)
  | type_ (cst : Named T) (placement : RelativeSpan) : Shows owner decl (.type_ cst placement)
      (.typeAlias ⟨cst.name, decl.scope, some owner, cst, decl.span.resolve placement⟩)
  | const_ (cst : Named C) (placement : RelativeSpan) : Shows owner decl (.const_ cst placement)
      (.const_ ⟨cst.name, decl.scope, some owner, cst, decl.span.resolve placement⟩)

/-- The definition in a signature that the symbol of an item becomes. -/
def defOf : TraitItemCst F T C → Nat → TraitItemDef
  | .fn .. => .function
  | .type_ .. => .type_
  | .const_ .. => .const_

variable {decls db owner} {db' : Database Trait Impl Scope Source F T C} {ids ids' : List Nat}

omit [DecidableEq Trait] [DecidableEq Impl] in
theorem lowerItem_shows (decl : Decl Scope Source F T C) (item : TraitItemCst F T C) :
    Shows owner decl item (lowerItem owner decl item) := by
  cases item with
  | fn cst placement => exact .fn cst placement
  | type_ cst placement => exact .type_ cst placement
  | const_ cst placement => exact .const_ cst placement

omit [DecidableEq Trait] [DecidableEq Impl] in
theorem Database.Extends.refl (db : Database Trait Impl Scope Source F T C) : db.Extends db :=
  ⟨.refl _, id⟩

omit [DecidableEq Trait] [DecidableEq Impl] in
theorem Database.Extends.trans {db'' : Database Trait Impl Scope Source F T C}
    (h : db.Extends db') (h' : db'.Extends db'') : db.Extends db'' :=
  ⟨h.item.trans h'.item, fun hids => h'.items (h.items hids)⟩

omit [DecidableEq Trait] [DecidableEq Impl] in
theorem Database.Finds.mono {keys : List (LocalAssociatedOwner Trait Impl × Key)}
    (h : db.Finds keys ids) (hle : Minting.Keeps db.item db'.item) : db'.Finds keys ids :=
  List.Forall₂.imp (fun _ _ hmemo => hle.memo hmemo) h

omit [DecidableEq Trait] [DecidableEq Impl] in
theorem Database.Finds.unique {keys : List (LocalAssociatedOwner Trait Impl × Key)}
    (h : db.Finds keys ids) (h' : db.Finds keys ids') : ids = ids' := by
  refine List.right_unique_forall₂' ?_ h h'
  intro key id id' hid hid'
  exact Option.some.inj (Option.some.inj (hid.symm.trans hid'))

omit [DecidableEq Trait] [DecidableEq Impl] in
theorem sound_empty : Database.Sound decls (.empty : Database Trait Impl Scope Source F T C) where
  item := Minting.sound_empty
  items h := by cases h

/-! ### The keys of an owner -/

omit [DecidableEq Trait] [DecidableEq Impl] in
theorem keys_nodup (owner : LocalAssociatedOwner Trait Impl) : (keys decls owner).Nodup :=
  List.Nodup.map (fun _ _ h => (Prod.mk.inj h).2) (Occurrence.number_nodup _)

omit [DecidableEq Trait] [DecidableEq Impl] in
/-- The key of an item finds this item, whatever else has its kind and name. -/
theorem keyedSym_of_key {i : Nat} {key : LocalAssociatedOwner Trait Impl × Key}
    (h : (keys decls owner)[i]? = some key) :
    key.1 = owner ∧ ∃ item, (decls owner).items[i]? = some item ∧
      keyedSym decls key = some (lowerItem owner (decls owner) item) := by
  rw [keys, List.getElem?_map] at h
  obtain ⟨k, hk, rfl⟩ := Option.map_eq_some_iff.mp h
  obtain ⟨item, hitem, -⟩ := Occurrence.label_of_number hk
  refine ⟨rfl, item, hitem, ?_⟩
  rw [keyedSym, keyedSourceItem, Occurrence.pick_of_number hk, hitem]
  rfl

omit [DecidableEq Trait] [DecidableEq Impl] in
@[simp] theorem length_keys : (keys decls owner).length = (decls owner).items.length := by
  simp [keys]

omit [DecidableEq Trait] [DecidableEq Impl] in
theorem Database.Sound.shows (hdb : db.Sound decls) (h : db.Finds (keys decls owner) ids) :
    List.Forall₂ (fun item id => ∃ sym, db.item.minted[id]? = some sym ∧
      Shows owner (decls owner) item sym) (decls owner).items ids := by
  refine List.forall₂_iff_get.mpr ⟨length_keys.symm.trans h.length_eq, fun i hi hid => ?_⟩
  have hkey : i < (keys decls owner).length := by simpa using hi
  obtain ⟨-, item, hitem, hsym⟩ := keyedSym_of_key (List.getElem?_eq_getElem hkey)
  obtain ⟨sym, hmake, hminted⟩ := hdb.item.value (List.forall₂_iff_get.mp h |>.2 i hkey hid)
  obtain rfl : (decls owner).items.get ⟨i, hi⟩ = item := by
    simpa [List.getElem?_eq_getElem hi] using hitem
  rw [List.get_eq_getElem, hsym] at hmake
  cases hmake
  exact ⟨_, hminted, lowerItem_shows _ _⟩

omit [DecidableEq Trait] [DecidableEq Impl] in
theorem Database.Sound.disjoint {other : LocalAssociatedOwner Trait Impl} (hdb : db.Sound decls)
    (h : db.Finds (keys decls owner) ids) (h' : db.Finds (keys decls other) ids')
    (hne : other ≠ owner) : ids.Disjoint ids' := by
  intro id hid hid'
  obtain ⟨key, hkey, hmemo⟩ := Minting.exists_key h hid
  obtain ⟨key', hkey', hmemo'⟩ := Minting.exists_key h' hid'
  obtain ⟨i, hi⟩ := List.mem_iff_getElem?.mp hkey
  obtain ⟨j, hj⟩ := List.mem_iff_getElem?.mp hkey'
  have hsame := hdb.item.key_unique hmemo hmemo'
  exact hne ((keyedSym_of_key hj).1.symm.trans (hsame ▸ (keyedSym_of_key hi).1))

/-! ### The queries -/

theorem computeLocalAssociatedItems_spec (hdb : db.Sound decls)
    (owner : LocalAssociatedOwner Trait Impl) :
    ∃ ids db', computeLocalAssociatedItems decls db owner = some (ids, db') ∧ db'.Sound decls ∧
      db.Extends db' ∧ db'.Finds (keys decls owner) ids := by
  have hmake : ∀ key ∈ keys decls owner, ∃ sym, keyedSym decls key = some sym := by
    intro key hkey
    obtain ⟨i, hi⟩ := List.mem_iff_getElem?.mp hkey
    obtain ⟨-, item, -, hsym⟩ := keyedSym_of_key hi
    exact ⟨_, hsym⟩
  obtain ⟨ids, item, hrun, hsound, hkeeps, hfinds⟩ := Minting.demandAll_spec hdb.item hmake
  refine ⟨ids, { db with item := item }, ?_, ⟨hsound, ?_⟩, ⟨hkeeps, id⟩, hfinds⟩
  · rw [computeLocalAssociatedItems, hrun]
    rfl
  · intro other ids' hids'
    exact (hdb.items hids').mono hkeeps

theorem localAssociatedItems_spec (hdb : db.Sound decls)
    (owner : LocalAssociatedOwner Trait Impl) :
    ∃ ids db', localAssociatedItems decls db owner = some (ids, db') ∧ db'.Sound decls ∧
      db.Extends db' ∧ db'.Finds (keys decls owner) ids ∧ db'.items owner = some ids := by
  cases hitems : db.items owner with
  | some ids =>
      refine ⟨ids, db, ?_, hdb, .refl db, hdb.items hitems, hitems⟩
      rw [localAssociatedItems, hitems]
  | none =>
      obtain ⟨ids, db₁, hrun, hsound, hle, hfinds⟩ := computeLocalAssociatedItems_spec hdb owner
      refine ⟨ids, { db₁ with items := db₁.items.insert owner ids }, ?_, ⟨hsound.item, ?_⟩,
        ⟨hle.item, ?_⟩, hfinds, by simp [PartialMap.insert]⟩
      · rw [localAssociatedItems, hitems]
        dsimp only
        rw [hrun]
        rfl
      · intro other ids' h
        rcases PartialMap.insert_eq_some h with ⟨rfl, rfl⟩ | ⟨-, h⟩
        · exact hfinds
        · exact hsound.items h
      · intro other ids' h
        have hne : other ≠ owner := by
          rintro rfl
          rw [hitems] at h
          cases h
        simpa [PartialMap.insert, hne] using hle.items h

omit [DecidableEq Trait] [DecidableEq Impl] in
theorem traitItemDef_of_shows {decl : Decl Scope Source F T C} {item : TraitItemCst F T C}
    {sym : Sym Trait Impl Scope Source F T C} {id : Nat} (hid : db.item.minted[id]? = some sym)
    (h : Shows owner decl item sym) : traitItemDef db id = some (defOf item id) := by
  rw [traitItemDef, hid]
  cases h <;> rfl

omit [DecidableEq Trait] [DecidableEq Impl] in
theorem mapM_traitItemDef {decl : Decl Scope Source F T C} {items : List (TraitItemCst F T C)}
    (h : List.Forall₂ (fun item id => ∃ sym, db.item.minted[id]? = some sym ∧
      Shows owner decl item sym) items ids) :
    ids.mapM (traitItemDef db) = some (List.zipWith defOf items ids) := by
  induction h with
  | nil => rfl
  | cons hhead _ ih =>
      obtain ⟨sym, hid, hshows⟩ := hhead
      simp [traitItemDef_of_shows hid hshows, ih]

theorem lowerItems_spec (hdb : db.Sound decls) (owner : LocalAssociatedOwner Trait Impl) :
    ∃ ids db', lowerItems decls db owner =
        some (List.zipWith defOf (decls owner).items ids, db') ∧
      db'.Sound decls ∧ db.Extends db' ∧ db'.Finds (keys decls owner) ids := by
  obtain ⟨ids, db₁, hrun, hsound, hle, hfinds⟩ := computeLocalAssociatedItems_spec hdb owner
  refine ⟨ids, db₁, ?_, hsound, hle, hfinds⟩
  simp [lowerItems, hrun, mapM_traitItemDef (hsound.shows hfinds)]

theorem localAssociatedItem_spec (hdb : db.Sound decls) (owner : LocalAssociatedOwner Trait Impl)
    (key : Key) : (localAssociatedItem decls db owner key).2.Sound decls ∧
      db.Extends (localAssociatedItem decls db owner key).2 := by
  obtain ⟨hsound, hkeeps⟩ := Minting.demand_sound hdb.item (owner, key)
  exact ⟨⟨hsound, fun hids => (hdb.items hids).mono hkeeps⟩, ⟨hkeeps, id⟩⟩

/-! ### Runs -/

theorem step_spec (hdb : db.Sound decls) (s : Step Trait Impl) :
    ∃ db', step decls db s = some db' ∧ db'.Sound decls ∧ db.Extends db' := by
  cases s with
  | item owner key => exact ⟨_, rfl, localAssociatedItem_spec hdb owner key⟩
  | items owner =>
      obtain ⟨ids, db', hrun, hsound, hle, -⟩ := localAssociatedItems_spec hdb owner
      exact ⟨db', by rw [step, hrun]; rfl, hsound, hle⟩
  | lower owner =>
      obtain ⟨ids, db', hrun, hsound, hle, -⟩ := lowerItems_spec hdb owner
      exact ⟨db', by rw [step, hrun]; rfl, hsound, hle⟩

/-- No query panics. -/
theorem run_spec (hdb : db.Sound decls) (steps : List (Step Trait Impl)) :
    ∃ db', run decls db steps = some db' ∧ db'.Sound decls ∧ db.Extends db' := by
  induction steps generalizing db with
  | nil => exact ⟨db, rfl, hdb, .refl db⟩
  | cons s steps ih =>
      obtain ⟨db₁, hstep, hsound, hle⟩ := step_spec hdb s
      obtain ⟨db', hrun, hsound', hle'⟩ := ih hsound
      exact ⟨db', by rw [run, List.foldlM_cons, hstep]; exact hrun, hsound', hle.trans hle'⟩

/-! ### From the body to the symbols -/

/-- A body is kept exactly if it holds nothing but items that are supported.  Its items are then
the entries that are there, in their order.  Whatever is asked for, and in whatever order, each item
has one symbol from the first time on: its owner is the owner of the body and its syntax is the
item's. -/
theorem conserved {P : Parser F T C} {node : Parse.SyntaxNode} {pending : List Parse.SyntaxNode}
    {entries : List Entry} {after : List Parse.SyntaxNode} (h : Holds node entries after) :
    ((P.parseOwner node pending).isSome ↔
      (∀ e ∈ entries, e.enabled P = true → e.supported P = true) ∧ attrsOf after = []) ∧
    ∀ items, P.parseOwner node pending = some items →
      items.map some =
        (entries.filter (·.enabled P)).map (·.item P (Parser.itemStart node pending)) ∧
      ∀ (decls : LocalAssociatedOwner Trait Impl → Decl Scope Source F T C) owner,
        (decls owner).items = items → ∀ steps, ∃ db ids db',
          run decls .empty steps = some db ∧
          localAssociatedItems decls db owner = some (ids, db') ∧ ids.Nodup ∧
          ∀ steps', ∃ db'', run decls db' steps' = some db'' ∧
            localAssociatedItems decls db'' owner = some (ids, db'') ∧
            List.Forall₂ (fun item id => ∃ sym, db''.item.minted[id]? = some sym ∧
              Shows owner (decls owner) item sym) items ids ∧
            (∃ last, lowerItems decls db'' owner = some (List.zipWith defOf items ids, last)) ∧
            ∀ other, other ≠ owner → ∃ ids' last,
              localAssociatedItems decls db'' other = some (ids', last) ∧ ids.Disjoint ids' := by
  refine ⟨?_, fun items hitems => ?_⟩
  · rw [← Parser.associatedBodySupported_iff h, Parser.parseOwner]
    by_cases hsupported : P.associatedBodySupported node <;> simp [hsupported]
  · have hsupported : P.associatedBodySupported node = true := by
      by_contra hunsupported
      simp [Parser.parseOwner, hunsupported] at hitems
    rw [Parser.parseOwner, if_pos hsupported] at hitems
    cases hitems
    refine ⟨Parser.map_item_of_supported h hsupported _, ?_⟩
    intro decls owner hdecl steps
    obtain ⟨db, hrun, hdb, -⟩ := run_spec (@sound_empty _ _ _ _ _ _ _ decls) steps
    obtain ⟨ids, db', hasked, hdb', -, hfinds, hids⟩ := localAssociatedItems_spec hdb owner
    refine ⟨db, ids, db', hrun, hasked, hdb'.item.ids_nodup hfinds (keys_nodup owner), ?_⟩
    intro steps'
    obtain ⟨db'', hrun', hdb'', hle⟩ := run_spec hdb' steps'
    have hlater := hfinds.mono hle.item
    refine ⟨db'', hrun', ?_, hdecl ▸ hdb''.shows hlater, ?_, ?_⟩
    · rw [localAssociatedItems, hle.items hids]
    · obtain ⟨ids', last, hlower, -, hle', hfinds'⟩ := lowerItems_spec hdb'' owner
      rw [(hlater.mono hle'.item).unique hfinds', ← hdecl]
      exact ⟨last, hlower⟩
    · intro other hne
      obtain ⟨ids', last, hother, hsound, hle', hfinds', -⟩ :=
        localAssociatedItems_spec hdb'' other
      exact ⟨ids', last, hother, hsound.disjoint (hlater.mono hle'.item) hfinds' hne⟩

/-! Two functions of one name, with a comment between an attribute and the second. -/

def demoParser : Parser Nat Nat Nat where
  text node := ("{fn f();#[inline]/**/fn f();}".toList.drop node.startByte).take
    (node.endByte - node.startByte)
  classes := Parse.Cfg.ascii
  cfgs := none
  parseFn _ _ start := start
  parseTypeAlias _ _ start := start
  parseConst _ _ start := start

def demoFn (start : Nat) : Parse.SyntaxNode :=
  ⟨"function_item", true, false, start, start + 7,
    [(some "name", ⟨"identifier", true, false, start + 3, start + 4, []⟩)]⟩

def demoAttr : Parse.SyntaxNode :=
  ⟨"attribute_item", true, false, 8, 17, [(none, ⟨"attribute", true, false, 10, 16,
    [(none, ⟨"identifier", true, false, 10, 16, []⟩)]⟩)]⟩

def demoComment : Parse.SyntaxNode := ⟨"block_comment", true, true, 17, 21, []⟩

def demoImpl : Parse.SyntaxNode :=
  ⟨"impl_item", true, false, 0, 29, [(some "body", ⟨"declaration_list", true, false, 0, 29,
    [⟨"\x7b", false, false, 0, 1, []⟩, demoFn 1, demoAttr, demoComment, demoFn 21,
      ⟨"\x7d", false, false, 28, 29, []⟩].map (none, ·)⟩)]⟩

theorem demoFn_isElement (start : Nat) :
    ¬IsBefore (demoFn start) ∧ (demoFn start).kind ∉ Parser.braceKinds := by
  simp [IsBefore, demoFn, Parser.commentKinds, Parser.braceKinds]

def demoEntries : List Entry :=
  [⟨[], demoFn 1, by simp, demoFn_isElement 1⟩,
    ⟨[demoAttr, demoComment], demoFn 21,
      by simp [IsBefore, demoAttr, demoComment, Parser.commentKinds], demoFn_isElement 21⟩]

def demoItems : List (TraitItemCst Nat Nat Nat) :=
  [.fn ⟨['f'], 1⟩ ⟨1, 8⟩, .fn ⟨['f'], 8⟩ ⟨8, 28⟩]

def demoDecls : LocalAssociatedOwner Unit Unit → Decl Unit Unit Nat Nat Nat :=
  fun
    | .impl_ _ => ⟨(), ⟨(), 0, 29⟩, demoItems⟩
    | .trait_ _ => ⟨(), ⟨(), 29, 29⟩, []⟩

theorem demoImpl_holds : Holds demoImpl demoEntries [] where
  isBefore := by simp
  body := ⟨_, _, rfl, rfl, rfl⟩

theorem conserved_demoImpl : ∃ ids db', ids.Nodup ∧
    localAssociatedItems demoDecls .empty (.impl_ ()) = some (ids, db') := by
  have hparsed : demoParser.parseOwner demoImpl [] = some demoItems := by rfl
  obtain ⟨db, ids, db', hrun, hasked, hnodup, -⟩ :=
    ((conserved demoImpl_holds).2 demoItems hparsed).2 demoDecls (.impl_ ()) rfl []
  cases hrun
  exact ⟨ids, db', hnodup, hasked⟩

end Sage.Resolve.Associated
