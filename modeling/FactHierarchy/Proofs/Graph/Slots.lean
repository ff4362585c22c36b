import FactHierarchy.Proofs.Graph.ListModel

/-!
# The slots of a graph in the course of its changes

Behind a graph stands a table of slots with a look-up table, a set of occupied slots and three
indexes. `Operation.onTable` is what an operation does to these six, one after the other. It keeps a
table consistent (`SlotTable.Consistent.onTable`), and it leaves every slot that was handed out with
the fact that lives in it, or empties it for good (`SlotTable.growsTo_onTable`).

So do **any operations on one graph**, from the facts that it was collected from
(`Graph.table_stays_consistent`).
-/

set_option autoImplicit false

namespace FactHierarchy

/-! ## Operations on tables -/

/-- What an operation does to the table of a graph. -/
def Operation.onTable : Operation → SlotTable → SlotTable
  | insert f, t => t.insert f
  | add s p o, t => t.insert ⟨s, p, o⟩
  | remove f, t => t.erase f
  | discard p, t => (t.filter p).foldl SlotTable.erase t
  | extend facts, t => facts.foldl SlotTable.insert t
  | collect facts, _ => facts.foldl SlotTable.insert .empty

/-- The operation changes the graph that is there. To collect facts starts another one. -/
def Operation.isChange : Operation → Bool
  | collect _ => false
  | _ => true

/-- The table after some operations, one after the other. -/
def SlotTable.after (t : SlotTable) (ops : List Operation) : SlotTable :=
  ops.foldl (fun t op => op.onTable t) t

namespace Graph

/-- What is done fact by fact is done to the table fact by fact. -/
theorem table_foldl {step : Graph → Fact → Graph} {step' : SlotTable → Fact → SlotTable}
    (hstep : ∀ g f, (step g f).table = step' g.table f) (facts : List Fact) (g : Graph) :
    (facts.foldl step g).table = facts.foldl step' g.table := by
  induction facts generalizing g with
  | nil => rfl
  | cons f facts ih => rw [List.foldl_cons, List.foldl_cons, ih, hstep]

theorem table_ofList (facts : List Fact) :
    (ofList facts).table = facts.foldl SlotTable.insert .empty :=
  table_foldl (fun _ _ => rfl) facts .empty

theorem table_onGraph (op : Operation) (g : Graph) :
    (op.onGraph g).2.table = op.onTable g.table := by
  cases op with
  | insert f => rfl
  | add s p o => rfl
  | remove f => rfl
  | discard p => exact table_foldl (fun _ _ => rfl) (g.filter p) g
  | extend facts => exact table_foldl (fun _ _ => rfl) facts g
  | collect facts => exact table_ofList facts

theorem table_performAll (ops : List Operation) (g : Graph) :
    (performAll Operation.onGraph ops g).2.table = g.table.after ops := by
  induction ops generalizing g with
  | nil => rfl
  | cons op ops ih =>
      show (performAll Operation.onGraph ops (op.onGraph g).2).2.table =
        (op.onTable g.table).after ops
      rw [ih, table_onGraph]

end Graph

namespace SlotTable

variable {t t' t'' : SlotTable}

theorem after_append (t : SlotTable) (ops more : List Operation) :
    t.after (ops ++ more) = (t.after ops).after more := List.foldl_append

/-! ## Consistency -/

theorem Consistent.foldl {step : SlotTable → Fact → SlotTable}
    (hstep : ∀ {t : SlotTable}, t.Consistent → ∀ f, (step t f).Consistent) (h : t.Consistent)
    (facts : List Fact) : (facts.foldl step t).Consistent := by
  induction facts generalizing t with
  | nil => exact h
  | cons f facts ih => exact ih (hstep h f)

/-- **Every operation keeps a table consistent.** -/
theorem Consistent.onTable (h : t.Consistent) (op : Operation) : (op.onTable t).Consistent := by
  cases op with
  | insert f => exact h.insert f
  | add s p o => exact h.insert ⟨s, p, o⟩
  | remove f => exact h.erase f
  | discard p => exact h.foldl erase (t.filter p)
  | extend facts => exact h.foldl insert facts
  | collect facts => exact empty.foldl insert facts

theorem Consistent.after (h : t.Consistent) (ops : List Operation) : (t.after ops).Consistent := by
  induction ops generalizing t with
  | nil => exact h
  | cons op ops ih => exact ih (h.onTable op)

/-! ## Slots that were handed out -/

/-- **The second table comes after the first one**: it has all its slots, and each of them holds
what it held before, or nothing. -/
structure GrowsTo (t t' : SlotTable) : Prop where
  size_le : t.slots.size ≤ t'.slots.size
  factAt_eq_or : ∀ i < t.slots.size, t'.factAt i = t.factAt i ∨ t'.factAt i = none

theorem GrowsTo.refl (t : SlotTable) : t.GrowsTo t := ⟨Nat.le_refl _, fun _ _ => .inl rfl⟩

theorem GrowsTo.trans (h : t.GrowsTo t') (h' : t'.GrowsTo t'') : t.GrowsTo t'' := by
  refine ⟨Nat.le_trans h.size_le h'.size_le, fun i hi => ?_⟩
  rcases h'.factAt_eq_or i (Nat.lt_of_lt_of_le hi h.size_le) with hsame | hgone
  · rw [hsame]
    exact h.factAt_eq_or i hi
  · exact .inr hgone

/-- A slot that is empty once is empty for ever. -/
theorem GrowsTo.factAt_eq_none (h : t.GrowsTo t') {i : Nat} (hi : i < t.slots.size)
    (hempty : t.factAt i = none) : t'.factAt i = none := by
  rcases h.factAt_eq_or i hi with hsame | hgone
  · rw [hsame, hempty]
  · exact hgone

/-- A fact lives where it lived before, or in a slot that is new. -/
theorem GrowsTo.factAt_or_new (h : t.GrowsTo t') {i : Nat} {f : Fact} (hf : t'.factAt i = some f) :
    t.factAt i = some f ∨ t.slots.size ≤ i := by
  by_cases hi : i < t.slots.size
  · rcases h.factAt_eq_or i hi with hsame | hgone
    · exact .inl (hsame ▸ hf)
    · rw [hgone] at hf
      cases hf
  · exact .inr (Nat.le_of_not_lt hi)

theorem growsTo_insert (t : SlotTable) (f : Fact) : t.GrowsTo (t.insert f) := by
  unfold insert
  split
  · exact .refl t
  · refine ⟨by simp, fun i hi => .inl ?_⟩
    rw [factAt, factAt_push, if_neg (Nat.ne_of_lt hi), factAt]

theorem growsTo_erase (t : SlotTable) (f : Fact) : t.GrowsTo (t.erase f) := by
  unfold erase
  split
  · exact .refl t
  · next slot _ =>
    refine ⟨by simp, fun i _ => ?_⟩
    rw [factAt, factAt_set]
    split
    · exact .inr rfl
    · exact .inl rfl

theorem growsTo_foldl {step : SlotTable → Fact → SlotTable}
    (hstep : ∀ (t : SlotTable) f, t.GrowsTo (step t f)) (facts : List Fact) (t : SlotTable) :
    t.GrowsTo (facts.foldl step t) := by
  induction facts generalizing t with
  | nil => exact .refl t
  | cons f facts ih => exact (hstep t f).trans (ih (step t f))

/-- **No operation on a graph fills a slot that was handed out before.** -/
theorem growsTo_onTable {op : Operation} (hop : op.isChange = true) (t : SlotTable) :
    t.GrowsTo (op.onTable t) := by
  cases op with
  | insert f => exact growsTo_insert t f
  | add s p o => exact growsTo_insert t ⟨s, p, o⟩
  | remove f => exact growsTo_erase t f
  | discard p => exact growsTo_foldl growsTo_erase (t.filter p) t
  | extend facts => exact growsTo_foldl growsTo_insert facts t
  | collect facts => cases hop

theorem growsTo_after {ops : List Operation} (hops : ∀ op ∈ ops, op.isChange = true)
    (t : SlotTable) : t.GrowsTo (t.after ops) := by
  induction ops generalizing t with
  | nil => exact .refl t
  | cons op ops ih =>
      obtain ⟨hop, hops⟩ := List.forall_mem_cons.1 hops
      exact (growsTo_onTable hop t).trans (ih hops (op.onTable t))

end SlotTable

/-! ## Graphs -/

namespace Graph

/-- **The table of a graph stays consistent and hands out no slot twice.** Take any facts that a
graph is collected from and any operations on it. At each point the table is what the operations
make of it, and it is consistent: the look-up table leads from a fact to the slot in which it lives,
the live slots are the occupied ones, each index has for each key the occupied slots whose fact has
the key in this position, and there is no key without a slot in it. From each point on the slots
that were handed out keep their facts or become empty, and facts that come anew get slots behind
them. As long as no more than `2 ^ 32` slots were handed out, 32 bits hold each of them. -/
theorem table_stays_consistent (facts : List Fact) {ops more : List Operation}
    (hops : ∀ op ∈ ops ++ more, op.isChange = true) :
    let g := (performAll Operation.onGraph ops (.ofList facts)).2
    let g' := (performAll Operation.onGraph (ops ++ more) (.ofList facts)).2
    g.table = (facts.foldl SlotTable.insert .empty).after ops ∧
    g'.table = g.table.after more ∧ g'.table.Consistent ∧
    g.table.GrowsTo g'.table ∧
    (∀ slot f, g'.table.factAt slot = some f →
      g.table.factAt slot = some f ∨ g.slotCount ≤ slot) ∧
    (g'.slotCount ≤ UInt32.size → ∀ slot < g'.slotCount, slot.toUInt32.toNat = slot) := by
  intro g g'
  have hg : g.table = (facts.foldl SlotTable.insert .empty).after ops := by
    rw [table_performAll, table_ofList]
  have hg' : g'.table = g.table.after more := by
    rw [table_performAll, table_performAll, SlotTable.after_append]
  have hconsistent : g'.table.Consistent := by
    rw [hg', hg]
    exact ((SlotTable.Consistent.empty.foldl .insert facts).after ops).after more
  have hgrows : g.table.GrowsTo g'.table := by
    rw [hg']
    exact SlotTable.growsTo_after (List.forall_mem_append.1 hops).2 g.table
  refine ⟨hg, hg', hconsistent, hgrows, fun slot f => hgrows.factAt_or_new, ?_⟩
  intro hcount slot hslot
  exact UInt32.toNat_ofNat_of_lt' (Nat.lt_of_lt_of_le hslot hcount)

/-- The link to the sensor leaves its slot and comes back in a new one. The link to the spare does
the same, and shares its subject and predicate with the other one all the time. -/
theorem table_of_links_added_again :
    let sensor : Fact := ⟨.iri "urn:plant#line1", .iri "urn:plant#has", Node.iri "urn:plant#sensor"⟩
    let spare : Fact := ⟨.iri "urn:plant#line1", .iri "urn:plant#has", Node.iri "urn:plant#spare"⟩
    let ops : List Operation := [.remove sensor]
    let more : List Operation :=
      [.insert sensor, .discard ⟨none, none, some spare.object⟩, .extend [spare, sensor]]
    let g := (performAll Operation.onGraph ops (.ofList [sensor, spare])).2
    let g' := (performAll Operation.onGraph (ops ++ more) (.ofList [sensor, spare])).2
    (∀ op ∈ ops ++ more, op.isChange = true) ∧ g'.table.Consistent ∧
    g.table.factAt 0 = none ∧ g'.table.factAt 0 = none ∧
    g'.table.lookup[sensor]? = some 2 ∧ g'.table.lookup[spare]? = some 3 ∧
    ∀ slot < g'.slotCount, slot.toUInt32.toNat = slot := by
  intro sensor spare ops more g g'
  have hops : ∀ op ∈ ops ++ more, op.isChange = true := by decide
  obtain ⟨-, -, hconsistent, hgrows, -, hbits⟩ := table_stays_consistent [sensor, spare] hops
  have hempty : g.table.factAt 0 = none := by decide +kernel
  refine ⟨hops, hconsistent, hempty, hgrows.factAt_eq_none (by decide +kernel) hempty, ?_, ?_,
    hbits (by decide +kernel)⟩
  · exact (hconsistent.lookup_eq_some_iff ..).2 (by decide +kernel)
  · exact (hconsistent.lookup_eq_some_iff ..).2 (by decide +kernel)

end Graph

end FactHierarchy
