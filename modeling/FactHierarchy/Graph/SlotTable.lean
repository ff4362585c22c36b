import FactHierarchy.Term.Order
import FactHierarchy.Graph.Pattern
import Std.Data.TreeMap
import Std.Data.TreeSet

/-!
# The slots and indexes of a fact graph

A `SlotTable` keeps facts in numbered slots. Slots are handed out upward and never used twice, so
the facts in the order of their slots are the facts in the order of their arrival.

Beside the slots there are the slot of every fact (`lookup`), the set of occupied slots (`live`),
and for each node and term the set of slots whose fact has it as subject, predicate or object. A
set that becomes empty is dropped from its index.
-/

set_option autoImplicit false

namespace FactHierarchy

open Std

/-- A set of slots, read in ascending order. -/
abbrev SlotSet := TreeSet Nat

/-! ## Indexes -/

/-- For each key, the slots whose fact has the key in one fixed position. -/
abbrev SlotIndex (κ : Type) [Ord κ] := TreeMap κ SlotSet

namespace SlotIndex

variable {κ : Type} [Ord κ]

/-- The slots of a key; none for a key that is not in the index. -/
def slots (index : SlotIndex κ) (key : κ) : SlotSet := index[key]?.getD {}

/-- Enter a slot under a key. -/
def enter (index : SlotIndex κ) (key : κ) (slot : Nat) : SlotIndex κ :=
  index.alter key fun set => some ((set.getD {}).insert slot)

/-- Take a slot away from a key, and the key away with its last slot. -/
def withdraw (index : SlotIndex κ) (key : κ) (slot : Nat) : SlotIndex κ :=
  index.alter key fun set => (set.map (·.erase slot)).filter (!·.isEmpty)

end SlotIndex

/-! ## Tables -/

/-- Facts in slots, with the indexes by which they are found. -/
structure SlotTable where
  slots : Array (Option Fact) := #[]
  lookup : TreeMap Fact Nat := {}
  live : SlotSet := {}
  bySubject : SlotIndex Node := {}
  byPredicate : SlotIndex Node := {}
  byObject : SlotIndex Term := {}

namespace SlotTable

/-- The table without facts. -/
def empty : SlotTable := {}

instance : Inhabited SlotTable := ⟨empty⟩

/-- All facts, in order of arrival. -/
def toList (t : SlotTable) : List Fact := t.slots.toList.filterMap id

/-- The fact that lives in a slot. -/
def factAt (t : SlotTable) (slot : Nat) : Option Fact := t.slots[slot]?.join

/-- The slots of the facts that match a pattern: those that all fixed positions have in common,
and every occupied slot when no position is fixed. -/
def matchingSlots (t : SlotTable) (p : Pattern) : SlotSet :=
  let fixed := [p.subject.map t.bySubject.slots, p.predicate.map t.byPredicate.slots,
    p.object.map t.byObject.slots]
  match fixed.filterMap id with
  | [] => t.live
  | set :: sets => sets.foldl (· ∩ ·) set

/-- The facts that match a pattern, in order of arrival. -/
def filter (t : SlotTable) (p : Pattern) : List Fact :=
  (t.matchingSlots p).toList.filterMap t.factAt

/-- Add a fact in a new slot, unless it has one. -/
def insert (t : SlotTable) (f : Fact) : SlotTable :=
  if t.lookup.contains f then t
  else
    let slot := t.slots.size
    { slots := t.slots.push (some f)
      lookup := t.lookup.insert f slot
      live := t.live.insert slot
      bySubject := t.bySubject.enter f.subject slot
      byPredicate := t.byPredicate.enter f.predicate slot
      byObject := t.byObject.enter f.object slot }

/-- Take a fact out of its slot, if it has one. The slot stays empty. -/
def erase (t : SlotTable) (f : Fact) : SlotTable :=
  match t.lookup[f]? with
  | none => t
  | some slot =>
    { slots := t.slots.setIfInBounds slot none
      lookup := t.lookup.erase f
      live := t.live.erase slot
      bySubject := t.bySubject.withdraw f.subject slot
      byPredicate := t.byPredicate.withdraw f.predicate slot
      byObject := t.byObject.withdraw f.object slot }

end SlotTable

end FactHierarchy
