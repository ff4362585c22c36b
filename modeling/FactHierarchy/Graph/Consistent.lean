import FactHierarchy.Graph.SlotTable

/-!
# Consistent tables

A slot table is consistent when its indexes say the same as its slots: every fact has one slot,
the live slots are the occupied ones, and each index lists for each key exactly the slots whose
fact has the key, without keys that have no slot. The empty table is consistent, and adding and
erasing facts keeps a table consistent.
-/

set_option autoImplicit false

namespace FactHierarchy

open Std

/-! ## Indexes -/

namespace SlotIndex

variable {κ : Type} [Ord κ] [TransOrd κ] [LawfulEqOrd κ]

/-- The index lists the occupied slots by a key of their facts. -/
structure Lists (index : SlotIndex κ) (factAt : Nat → Option Fact) (key : Fact → κ) : Prop where
  mem_slots_iff : ∀ k i, i ∈ index.slots k ↔ ∃ f, factAt i = some f ∧ key f = k
  isEmpty_eq_false : ∀ (k : κ) (set : SlotSet), index[k]? = some set → set.isEmpty = false

theorem mem_slots_enter {index : SlotIndex κ} {key k : κ} {slot i : Nat} :
    i ∈ (index.enter key slot).slots k ↔ (k = key ∧ i = slot) ∨ i ∈ index.slots k := by
  rw [slots, enter, TreeMap.getElem?_alter]
  by_cases hk : k = key
  · subst hk
    simp only [compare_self, if_true, Option.getD_some, TreeSet.mem_insert, Nat.compare_eq_eq]
    simp [slots, eq_comm]
  · simp [slots, hk, Ne.symm hk]

theorem mem_slots_withdraw {index : SlotIndex κ} {key k : κ} {slot i : Nat} :
    i ∈ (index.withdraw key slot).slots k ↔ i ∈ index.slots k ∧ ¬(k = key ∧ i = slot) := by
  rw [slots, withdraw, TreeMap.getElem?_alter]
  by_cases hk : k = key
  · subst hk
    rw [if_pos compare_self]
    cases hs : index[k]? with
    | none => simp [slots, hs]
    | some set =>
      have hmem : i ∈ set.erase slot ↔ i ∈ set ∧ ¬i = slot := by
        rw [TreeSet.mem_erase, ne_eq, Nat.compare_eq_eq, and_comm, eq_comm]
      by_cases he : (set.erase slot).isEmpty = true
      · have hnone : i ∉ set.erase slot := TreeSet.not_mem_of_isEmpty he
        rw [hmem] at hnone
        simpa [slots, hs, he, Option.filter] using hnone
      · simp [slots, hs, he, hmem, Option.filter]
  · simp [slots, hk, Ne.symm hk]

theorem Lists.enter {index : SlotIndex κ} {factAt factAt' : Nat → Option Fact} {key : Fact → κ}
    (h : index.Lists factAt key) {slot : Nat} {f : Fact} (hfree : factAt slot = none)
    (hnew : ∀ i, factAt' i = if i = slot then some f else factAt i) :
    (index.enter (key f) slot).Lists factAt' key where
  mem_slots_iff k i := by
    rw [mem_slots_enter, h.mem_slots_iff, hnew]
    by_cases hi : i = slot
    · subst hi
      simp [hfree, eq_comm]
    · simp [hi]
  isEmpty_eq_false k set hset := by
    rw [SlotIndex.enter, TreeMap.getElem?_alter] at hset
    split at hset
    · cases hset
      simp
    · exact h.isEmpty_eq_false k set hset

theorem Lists.withdraw {index : SlotIndex κ} {factAt factAt' : Nat → Option Fact}
    {key : Fact → κ} (h : index.Lists factAt key) {slot : Nat} {f : Fact}
    (hslot : factAt slot = some f)
    (hnew : ∀ i, factAt' i = if i = slot then none else factAt i) :
    (index.withdraw (key f) slot).Lists factAt' key where
  mem_slots_iff k i := by
    rw [mem_slots_withdraw, h.mem_slots_iff, hnew]
    by_cases hi : i = slot
    · subst hi
      simp [hslot, eq_comm]
    · simp [hi]
  isEmpty_eq_false k set hset := by
    rw [SlotIndex.withdraw, TreeMap.getElem?_alter] at hset
    split at hset
    · simpa using (Option.filter_eq_some_iff.1 hset).2
    · exact h.isEmpty_eq_false k set hset

end SlotIndex

/-! ## Tables -/

namespace SlotTable

/-- The indexes of the table say the same as its slots. -/
structure Consistent (t : SlotTable) : Prop where
  lookup_eq_some_iff : ∀ f i, t.lookup[f]? = some i ↔ t.factAt i = some f
  mem_live_iff : ∀ i, i ∈ t.live ↔ ∃ f, t.factAt i = some f
  bySubject : t.bySubject.Lists t.factAt Fact.subject
  byPredicate : t.byPredicate.Lists t.factAt Fact.predicate
  byObject : t.byObject.Lists t.factAt Fact.object

theorem factAt_push {slots : Array (Option Fact)} {f : Fact} (i : Nat) :
    (slots.push (some f))[i]?.join = if i = slots.size then some f else slots[i]?.join := by
  rw [Array.getElem?_push]
  split <;> simp

theorem factAt_set {slots : Array (Option Fact)} {slot : Nat} (i : Nat) :
    (slots.setIfInBounds slot none)[i]?.join = if i = slot then none else slots[i]?.join := by
  rw [Array.getElem?_setIfInBounds]
  by_cases hi : slot = i
  · subst hi
    simp only [if_true]
    split <;> rfl
  · simp [hi, Ne.symm hi]

theorem factAt_size (t : SlotTable) : t.factAt t.slots.size = none := by
  simp [factAt]

namespace Consistent

theorem empty : SlotTable.empty.Consistent where
  lookup_eq_some_iff f i := by simp [SlotTable.empty, factAt]
  mem_live_iff i := by simp [SlotTable.empty, factAt]
  bySubject := ⟨fun k i => by simp [SlotTable.empty, SlotIndex.slots, factAt],
    fun k set h => by simp [SlotTable.empty] at h⟩
  byPredicate := ⟨fun k i => by simp [SlotTable.empty, SlotIndex.slots, factAt],
    fun k set h => by simp [SlotTable.empty] at h⟩
  byObject := ⟨fun k i => by simp [SlotTable.empty, SlotIndex.slots, factAt],
    fun k set h => by simp [SlotTable.empty] at h⟩

variable {t : SlotTable} (h : t.Consistent)
include h

theorem insert (f : Fact) : (t.insert f).Consistent := by
  unfold SlotTable.insert
  split
  · exact h
  · next hf =>
    have hnone : t.lookup[f]? = none := by simpa using hf
    have hfree : t.factAt t.slots.size = none := t.factAt_size
    have hnew : ∀ i, (t.slots.push (some f))[i]?.join =
        if i = t.slots.size then some f else t.factAt i := factAt_push
    exact
      { lookup_eq_some_iff := fun f' i => by
          have hold := h.lookup_eq_some_iff f' i
          rw [TreeMap.getElem?_insert, factAt, hnew]
          simp only [compare_eq_eq_iff_eq]
          by_cases hi : i = t.slots.size
          · subst hi
            by_cases hf' : f = f'
            · simp [hf']
            · simpa [hf', hfree] using hold
          · by_cases hf' : f = f'
            · subst hf'
              simpa [hi, hnone, Ne.symm hi] using hold
            · simpa [hi, hf'] using hold
        mem_live_iff := fun i => by
          rw [TreeSet.mem_insert, Nat.compare_eq_eq, factAt, hnew, h.mem_live_iff]
          by_cases hi : i = t.slots.size
          · simp [hi]
          · simp [hi, Ne.symm hi]
        bySubject := h.bySubject.enter hfree hnew
        byPredicate := h.byPredicate.enter hfree hnew
        byObject := h.byObject.enter hfree hnew }

theorem erase (f : Fact) : (t.erase f).Consistent := by
  unfold SlotTable.erase
  split
  · exact h
  · next slot hlookup =>
    have hslot : t.factAt slot = some f := (h.lookup_eq_some_iff f slot).1 hlookup
    have hnew : ∀ i, (t.slots.setIfInBounds slot none)[i]?.join =
        if i = slot then none else t.factAt i := factAt_set
    exact
      { lookup_eq_some_iff := fun f' i => by
          have hold := h.lookup_eq_some_iff f' i
          rw [TreeMap.getElem?_erase, factAt, hnew]
          simp only [compare_eq_eq_iff_eq]
          by_cases hf' : f = f'
          · subst hf'
            rw [hlookup] at hold
            by_cases hi : i = slot
            · simp [hi]
            · simpa [hi, Ne.symm hi] using hold
          · by_cases hi : i = slot
            · subst hi
              simpa [hf', hslot] using hold
            · simpa [hi, hf'] using hold
        mem_live_iff := fun i => by
          rw [TreeSet.mem_erase, ne_eq, Nat.compare_eq_eq, factAt, hnew, h.mem_live_iff]
          by_cases hi : i = slot
          · simp [hi]
          · simp [hi, Ne.symm hi]
        bySubject := h.bySubject.withdraw hslot hnew
        byPredicate := h.byPredicate.withdraw hslot hnew
        byObject := h.byObject.withdraw hslot hnew }

end Consistent

end SlotTable

end FactHierarchy
