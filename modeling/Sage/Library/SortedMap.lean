import Mathlib.Data.List.Basic
import Mathlib.Order.Lattice
import Mathlib.Tactic.Tauto

/-!
# Library — maps as sorted lists

A map is a list of entries in the order of its keys.

* `upsert` — change the entry of one key.
* `push` — append to the list kept under a key; `pairs` has one pair more.
-/

namespace SortedMap

variable {α β : Type} [LinearOrder α]

def upsert (key : α) (f : Option β → β) : List (α × β) → List (α × β)
  | [] => [(key, f none)]
  | (other, value) :: entries =>
      if other = key then (key, f (some value)) :: entries
      else if key < other then (key, f none) :: (other, value) :: entries
      else (other, value) :: upsert key f entries

def push (key : α) (value : β) (entries : List (α × List β)) : List (α × List β) :=
  upsert key (fun values => values.getD [] ++ [value]) entries

def pairs (entries : List (α × List β)) : List (α × β) :=
  entries.flatMap fun (key, values) => values.map (key, ·)

theorem mem_pairs_push {key : α} {value : β} {entries : List (α × List β)} {pair : α × β} :
    pair ∈ pairs (push key value entries) ↔ pair ∈ pairs entries ∨ pair = (key, value) := by
  induction entries with
  | nil => simp [push, upsert, pairs]
  | cons entry entries ih =>
      obtain ⟨other, values⟩ := entry
      rw [push, pairs] at ih
      rw [push, upsert, pairs, pairs, List.flatMap_cons]
      by_cases hkey : other = key
      · subst hkey
        simp only [if_pos, List.flatMap_cons, Option.getD_some, List.map_append, List.map_cons,
          List.map_nil, List.mem_append, List.mem_singleton]
        tauto
      · rw [if_neg hkey]
        by_cases hlt : key < other
        · rw [if_pos hlt]
          simp only [List.flatMap_cons, Option.getD_none, List.nil_append, List.map_cons,
            List.map_nil, List.mem_append, List.mem_singleton]
          tauto
        · rw [if_neg hlt, List.flatMap_cons, List.mem_append, ih, List.mem_append, pairs]
          tauto

end SortedMap
