import FactHierarchy.Graph.Query

/-!
# The view of a fact graph

What every operation of a fact graph answers, and how it changes the graph, in terms of the list
of its facts. The list has no duplicates. Adding a new fact appends it, removing a fact filters
it out, and a query is a scan of the list.
-/

set_option autoImplicit false

namespace FactHierarchy

open Std

/-! ## Lists -/

/-- Ascending lists with the same members are equal. -/
theorem eq_of_ascending {l l' : List Nat} (h : l.Pairwise (· < ·)) (h' : l'.Pairwise (· < ·))
    (hmem : ∀ i, i ∈ l ↔ i ∈ l') : l = l' := by
  have hnodup : ∀ {l : List Nat}, l.Pairwise (· < ·) → l.Nodup :=
    fun h => h.imp fun hlt => Nat.ne_of_lt hlt
  exact ((List.perm_ext_iff_of_nodup (hnodup h) (hnodup h')).2 hmem).eq_of_pairwise
    (fun _ _ _ _ hab hba => absurd hab (Nat.lt_asymm hba)) h h'

/-- Reading a list of optional values in order is reading it by position. -/
theorem filterMap_id_eq_range {α : Type} (l : List (Option α)) :
    l.filterMap id = (List.range l.length).filterMap fun i => l[i]?.join := by
  induction l with
  | nil => rfl
  | cons a l ih =>
    rw [List.length_cons, List.range_succ_eq_map, List.filterMap_cons, List.filterMap_cons,
      List.filterMap_map, ih]
    cases a <;> rfl

/-! ## Tables -/

namespace SlotTable

theorem toList_eq_range (t : SlotTable) :
    t.toList = (List.range t.slots.size).filterMap t.factAt := by
  rw [toList, filterMap_id_eq_range, Array.length_toList]
  congr 1
  funext i
  rw [factAt, Array.getElem?_toList]

theorem lt_size_of_factAt {t : SlotTable} {i : Nat} {f : Fact} (h : t.factAt i = some f) :
    i < t.slots.size := by
  rw [factAt, Option.join_eq_some_iff] at h
  exact (Array.getElem?_eq_some_iff.1 h).1

theorem mem_toList {t : SlotTable} {f : Fact} : f ∈ t.toList ↔ ∃ i, t.factAt i = some f := by
  rw [toList_eq_range, List.mem_filterMap]
  exact ⟨fun ⟨i, _, h⟩ => ⟨i, h⟩, fun ⟨i, h⟩ => ⟨i, List.mem_range.2 (lt_size_of_factAt h), h⟩⟩

theorem toList_insert_of_not_mem {t : SlotTable} {f : Fact} (h : t.lookup.contains f = false) :
    (t.insert f).toList = t.toList ++ [f] := by
  simp [insert, h, toList]

namespace Consistent

variable {t : SlotTable} (h : t.Consistent)
include h

theorem contains_lookup_iff {f : Fact} : t.lookup.contains f = true ↔ f ∈ t.toList := by
  rw [mem_toList, TreeMap.contains_eq_isSome_getElem?, Option.isSome_iff_exists]
  exact exists_congr fun i => h.lookup_eq_some_iff f i

theorem factAt_inj {i j : Nat} {f : Fact} (hi : t.factAt i = some f) (hj : t.factAt j = some f) :
    i = j := by
  rw [← h.lookup_eq_some_iff] at hi hj
  exact Option.some.inj (hi.symm.trans hj)

theorem nodup_toList : t.toList.Nodup := by
  rw [toList_eq_range, List.Nodup, List.pairwise_filterMap]
  refine List.nodup_range.imp fun hne f hf f' hf' he => hne ?_
  subst he
  exact h.factAt_inj (Option.mem_def.1 hf) (Option.mem_def.1 hf')

/-- A slot is among the matching ones exactly when a matching fact lives in it. -/
theorem mem_matchingSlots_iff {p : Pattern} {i : Nat} :
    i ∈ t.matchingSlots p ↔ ∃ f, t.factAt i = some f ∧ p.fits f = true := by
  have hs := fun n => h.bySubject.mem_slots_iff n i
  have hp := fun n => h.byPredicate.mem_slots_iff n i
  have ho := fun t => h.byObject.mem_slots_iff t i
  have hl := h.mem_live_iff i
  rw [matchingSlots]
  obtain ⟨sub, pred, obj⟩ := p
  cases hf : t.factAt i with
  | none => cases sub <;> cases pred <;> cases obj <;> simp_all
  | some f =>
    simp only [hf, Option.some.injEq, exists_eq_left'] at hs hp ho hl
    cases sub <;> cases pred <;> cases obj <;>
      simp [Pattern.fits, TreeSet.mem_inter_iff, hs, hp, ho, hl, and_assoc,
        eq_comm (a := f.subject), eq_comm (a := f.predicate), eq_comm (a := f.object)]

theorem filter_eq (p : Pattern) : t.filter p = t.toList.filter p.fits := by
  have hslots : (t.matchingSlots p).toList =
      (List.range t.slots.size).filter fun i => (t.factAt i).any p.fits := by
    refine eq_of_ascending ?_ (List.pairwise_lt_range.filter _) fun i => ?_
    · exact TreeSet.ordered_toList.imp fun hlt => Nat.compare_eq_lt.1 hlt
    · rw [TreeSet.mem_toList, h.mem_matchingSlots_iff, List.mem_filter, List.mem_range]
      constructor
      · rintro ⟨f, hf, hm⟩
        exact ⟨lt_size_of_factAt hf, by simp [hf, hm]⟩
      · rintro ⟨-, hany⟩
        cases hf : t.factAt i with
        | none => simp [hf] at hany
        | some f => exact ⟨f, rfl, by simpa [hf] using hany⟩
  rw [filter, hslots, toList_eq_range, List.filterMap_filter, List.filter_filterMap]
  congr 1
  funext i
  cases t.factAt i <;> simp [Option.filter]

theorem toList_erase (f : Fact) : (t.erase f).toList = t.toList.filter (· ≠ f) := by
  unfold SlotTable.erase
  split
  case h_1 hlookup =>
    have hf : f ∉ t.toList := by
      rw [← h.contains_lookup_iff]
      simpa using hlookup
    rw [List.filter_eq_self.2]
    intro f' hf'
    have hne : f' ≠ f := fun he : f' = f => hf (he ▸ hf')
    simpa using hne
  case h_2 slot hlookup =>
    have hslot : t.factAt slot = some f := (h.lookup_eq_some_iff f slot).1 hlookup
    rw [toList_eq_range, toList_eq_range, List.filter_filterMap]
    simp only [Array.size_setIfInBounds]
    congr 1
    funext i
    rw [factAt, factAt_set]
    by_cases hi : i = slot
    · subst hi
      simp [hslot, Option.filter]
    · cases hi' : t.slots[i]?.join with
      | none => simp [hi, factAt, hi', Option.filter]
      | some f' =>
        have hne : f' ≠ f := by
          intro (he : f' = f)
          exact hi (h.factAt_inj hi' (he ▸ hslot))
        simp [hi, factAt, hi', hne, Option.filter]

end Consistent

end SlotTable

/-! ## Graphs -/

namespace Graph

theorem toList_empty : empty.toList = [] := rfl

theorem nodup_toList (g : Graph) : g.toList.Nodup := g.consistent.nodup_toList

theorem contains_iff (g : Graph) (f : Fact) : g.contains f = true ↔ f ∈ g.toList :=
  g.consistent.contains_lookup_iff

theorem contains_eq (g : Graph) (f : Fact) : g.contains f = decide (f ∈ g.toList) := by
  rw [Bool.eq_iff_iff, contains_iff, decide_eq_true_iff]

/-- The facts are counted by their entries in the look-up table. -/
theorem size_eq (g : Graph) : g.size = g.toList.length := by
  have hkeys : ∀ f, f ∈ g.table.lookup.keys ↔ f ∈ g.toList := fun f => by
    rw [TreeMap.mem_keys, ← TreeMap.contains_iff_mem]
    exact g.contains_iff f
  have hnodup : g.table.lookup.keys.Nodup :=
    TreeMap.distinct_keys.imp fun {a b} hne (he : a = b) => hne (he ▸ compare_self)
  rw [size, ← TreeMap.length_keys]
  exact ((List.perm_ext_iff_of_nodup hnodup g.nodup_toList).2 hkeys).length_eq

theorem isEmpty_iff (g : Graph) : g.isEmpty = true ↔ g.toList = [] := by
  rw [← List.length_eq_zero_iff, ← size_eq, isEmpty, TreeMap.isEmpty_eq_size_eq_zero, size,
    beq_iff_eq]

/-- A query is a scan of the facts in their order. -/
theorem filter_eq (g : Graph) (p : Pattern) : g.filter p = g.toList.filter p.fits :=
  g.consistent.filter_eq p

theorem toList_put_of_mem {g : Graph} {f : Fact} (h : f ∈ g.toList) :
    (g.put f).toList = g.toList := by
  have hf : g.table.lookup.contains f = true := (g.contains_iff f).2 h
  exact congrArg SlotTable.toList (if_pos hf : g.table.insert f = g.table)

theorem toList_put_of_not_mem {g : Graph} {f : Fact} (h : f ∉ g.toList) :
    (g.put f).toList = g.toList ++ [f] := by
  have hf : g.table.lookup.contains f = false := by
    rw [← Bool.not_eq_true]
    exact fun hf => h ((g.contains_iff f).1 hf)
  exact SlotTable.toList_insert_of_not_mem hf

/-- Adding a fact appends it unless it is there. -/
theorem toList_put (g : Graph) (f : Fact) :
    (g.put f).toList = if f ∈ g.toList then g.toList else g.toList ++ [f] := by
  split
  · next h => exact toList_put_of_mem h
  · next h => exact toList_put_of_not_mem h

theorem mem_toList_put {g : Graph} {f f' : Fact} :
    f' ∈ (g.put f).toList ↔ f' ∈ g.toList ∨ f' = f := by
  rw [toList_put]
  split
  · next h => exact ⟨.inl, fun h' => h'.elim id fun he => he ▸ h⟩
  · simp

/-- Taking out a fact leaves the others in their order. -/
theorem toList_erase (g : Graph) (f : Fact) :
    (g.erase f).toList = g.toList.filter (· ≠ f) :=
  g.consistent.toList_erase f

theorem toList_foldl_erase (g : Graph) (doomed : List Fact) :
    (doomed.foldl erase g).toList = g.toList.filter (· ∉ doomed) := by
  induction doomed generalizing g with
  | nil => exact (List.filter_eq_self.2 (by simp)).symm
  | cons f doomed ih =>
    rw [List.foldl_cons, ih, toList_erase, List.filter_filter]
    congr 1
    funext f'
    simp [Bool.and_comm]

/-- Taking out what matches a pattern leaves what does not. -/
theorem toList_discard (g : Graph) (p : Pattern) :
    (g.discard p).2.toList = g.toList.filter (!p.fits ·) := by
  rw [discard, toList_foldl_erase, filter_eq]
  refine List.filter_congr fun f hf => ?_
  simp [hf]

theorem extend_nil (g : Graph) : g.extend [] = g := rfl

theorem extend_cons (g : Graph) (f : Fact) (facts : List Fact) :
    g.extend (f :: facts) = (g.put f).extend facts := rfl

theorem mem_toList_extend {g : Graph} {facts : List Fact} {f : Fact} :
    f ∈ (g.extend facts).toList ↔ f ∈ g.toList ∨ f ∈ facts := by
  induction facts generalizing g with
  | nil => simp [extend_nil]
  | cons f' facts ih => rw [extend_cons, ih, mem_toList_put, List.mem_cons, or_assoc]

end Graph

end FactHierarchy
