import FactHierarchy.Proofs.Graph.Membership

/-!
# Graphs and lists of facts

The facts of a graph, as a list, are all that can be told from outside. `Operation` is what can be
done to a graph, `Operation.onGraph` does it to a graph and `Operation.onList` to a plain list,
where every question is a linear scan. **Any sequence of operations answers alike on both**, and
leaves a graph and a list that answer all questions alike (`Graph.run_refines_list`).

Slots, the look-up table and the three indexes do not show. The number of slots that were ever
handed out (`Graph.slotCount`) matters only where slots are stored in a fixed number of bits.
-/

set_option autoImplicit false

namespace FactHierarchy

/-! ## Operations -/

/-- Something that is done to a graph. To collect facts is to start a new graph with them. -/
inductive Operation where
  | insert (fact : Fact)
  | add (subject predicate : Node) (object : Term)
  | remove (fact : Fact)
  | discard (pattern : Pattern)
  | extend (facts : List Fact)
  | collect (facts : List Fact)
  deriving DecidableEq, Repr

/-- What an operation answers: whether it changed something, how many facts it removed, or
nothing. -/
inductive Answer where
  | changed (b : Bool)
  | removed (n : Nat)
  | nothing
  deriving DecidableEq, Repr

/-- Perform operations one after the other, and list what they answer. -/
def performAll {σ : Type} (perform : Operation → σ → Answer × σ) :
    List Operation → σ → List Answer × σ
  | [], s => ([], s)
  | op :: ops, s =>
    let (answer, s) := perform op s
    let (answers, s) := performAll perform ops s
    (answer :: answers, s)

/-- An operation on a graph. -/
def Operation.onGraph : Operation → Graph → Answer × Graph
  | insert f, g => (.changed (g.insert f).1, (g.insert f).2)
  | add s p o, g => (.changed (g.insert ⟨s, p, o⟩).1, (g.insert ⟨s, p, o⟩).2)
  | remove f, g => (.changed (g.remove f).1, (g.remove f).2)
  | discard p, g => (.removed (g.discard p).1, (g.discard p).2)
  | extend facts, g => (.nothing, g.extend facts)
  | collect facts, _ => (.nothing, .ofList facts)

/-! ## The list model -/

namespace ListModel

/-- The list with a fact at its end, unless it is there already. -/
def put (l : List Fact) (f : Fact) : List Fact := if f ∈ l then l else l ++ [f]

/-- The first object of a subject under a predicate, found by going through the list. -/
def object? (l : List Fact) (s p : Node) : Option Term :=
  (l.find? fun f => f.subject = s ∧ f.predicate = p).map Fact.object

/-- The lexical form of the first object, or the empty text. -/
def valueText (l : List Fact) (s p : Node) : String :=
  match object? l s p with
  | some (.literal value) => value.lexical
  | _ => ""

/-- The first object, where it is a node. -/
def objectNode? (l : List Fact) (s p : Node) : Option Node := (object? l s p).bind Term.node?

end ListModel

/-- An operation on a plain list of facts. -/
def Operation.onList : Operation → List Fact → Answer × List Fact
  | insert f, l => (.changed (f ∉ l), ListModel.put l f)
  | add s p o, l => (.changed (⟨s, p, o⟩ ∉ l), ListModel.put l ⟨s, p, o⟩)
  | remove f, l => (.changed (f ∈ l), l.erase f)
  | discard p, l => (.removed (l.countP p.fits), l.filter fun f => !p.fits f)
  | extend facts, l => (.nothing, facts.foldl ListModel.put l)
  | collect facts, _ => (.nothing, facts.foldl ListModel.put [])

/-- **The graph answers every question as a scan of the list does.** -/
structure Graph.AnswersAs (g : Graph) (l : List Fact) : Prop where
  size : g.size = l.length
  isEmpty : g.isEmpty = l.isEmpty
  contains : ∀ f, g.contains f = decide (f ∈ l)
  toList : g.toList = l
  filter : ∀ p, g.filter p = l.filter p.fits
  any : ∀ p, g.any p = l.any p.fits
  object? : ∀ s p, g.object? s p = ListModel.object? l s p
  valueText : ∀ s p, g.valueText s p = ListModel.valueText l s p
  objectNode? : ∀ s p, g.objectNode? s p = ListModel.objectNode? l s p

namespace Graph

/-! ## Questions -/

theorem object?_eq (g : Graph) (s p : Node) : g.object? s p = ListModel.object? g.toList s p := by
  have hfits : (Pattern.about s p).fits = fun f => decide (f.subject = s ∧ f.predicate = p) := by
    funext f
    rw [Bool.eq_iff_iff, Pattern.fits_about, decide_eq_true_iff]
  calc g.object? s p
      = (g.toList.filter (Pattern.about s p).fits).head?.map Fact.object := by
        rw [object?, objects_eq, List.head?_map]
    _ = (g.toList.find? (Pattern.about s p).fits).map Fact.object := by rw [List.head?_filter]
    _ = ListModel.object? g.toList s p := by rw [hfits, ListModel.object?]

/-- A graph answers every question as the list of its facts does. -/
theorem answersAs_toList (g : Graph) : g.AnswersAs g.toList where
  size := g.size_eq
  isEmpty := by rw [Bool.eq_iff_iff, isEmpty_iff, List.isEmpty_iff]
  contains := g.contains_eq
  toList := rfl
  filter := g.filter_eq
  any := by
    intro p
    rw [Bool.eq_iff_iff, Graph.any, filter_eq, Bool.not_eq_true', ← Bool.not_eq_true,
      List.isEmpty_iff, List.filter_eq_nil_iff, List.any_eq_true]
    simp
  object? := g.object?_eq
  valueText := by
    intro s p
    rw [Graph.valueText, object?_eq]
    rfl
  objectNode? := by
    intro s p
    rw [Graph.objectNode?, object?_eq]
    rfl

/-! ## Writes -/

theorem toList_put_eq (g : Graph) (f : Fact) : (g.put f).toList = ListModel.put g.toList f :=
  g.toList_put f

theorem toList_extend (g : Graph) (facts : List Fact) :
    (g.extend facts).toList = facts.foldl ListModel.put g.toList := by
  induction facts generalizing g with
  | nil => rfl
  | cons f facts ih =>
      rw [extend_cons, ih, List.foldl_cons, toList_put_eq]

theorem toList_erase_eq (g : Graph) (f : Fact) : (g.erase f).toList = g.toList.erase f := by
  rw [toList_erase, g.nodup_toList.erase_eq_filter]
  refine List.filter_congr fun f' _ => ?_
  by_cases hf : f' = f <;> simp [hf]

/-- **Every operation answers alike on a graph and on the list of its facts**, and leaves the
facts of the graph in the list. -/
theorem onList_toList (op : Operation) (g : Graph) :
    op.onList g.toList = ((op.onGraph g).1, (op.onGraph g).2.toList) := by
  have hinsert : ∀ f : Fact, (g.insert f).1 = decide (f ∉ g.toList) := by
    intro f
    show (!g.contains f) = _
    rw [contains_eq, decide_not]
  cases op with
  | insert f =>
      rw [Operation.onList, Operation.onGraph, hinsert]
      exact congrArg _ (g.toList_put_eq f).symm
  | add s p o =>
      rw [Operation.onList, Operation.onGraph, hinsert]
      exact congrArg _ (g.toList_put_eq ⟨s, p, o⟩).symm
  | remove f =>
      have hremove : (g.remove f).1 = decide (f ∈ g.toList) := g.contains_eq f
      rw [Operation.onList, Operation.onGraph, hremove]
      exact congrArg _ (g.toList_erase_eq f).symm
  | discard p =>
      have hcount : (g.discard p).1 = g.toList.countP p.fits := by
        rw [List.countP_eq_length_filter, ← filter_eq]
        rfl
      rw [Operation.onList, Operation.onGraph, hcount, toList_discard]
  | extend facts =>
      rw [Operation.onList, Operation.onGraph, toList_extend]
  | collect facts =>
      rw [Operation.onList, Operation.onGraph, ofList, toList_extend, toList_empty]

theorem performAll_onList_toList (ops : List Operation) (g : Graph) :
    performAll Operation.onList ops g.toList =
      ((performAll Operation.onGraph ops g).1, (performAll Operation.onGraph ops g).2.toList) := by
  induction ops generalizing g with
  | nil => rfl
  | cons op ops ih =>
      rw [performAll, onList_toList]
      dsimp only
      rw [ih]
      rfl

/-- A fact that is removed and inserted again moves to the end. -/
theorem toList_put_erase (g : Graph) (f : Fact) :
    ((g.erase f).put f).toList = g.toList.erase f ++ [f] := by
  have hgone : f ∉ (g.erase f).toList := by
    rw [toList_erase_eq]
    exact g.nodup_toList.not_mem_erase
  rw [toList_put_of_not_mem hgone, toList_erase_eq]

/-! ## Slots -/

/-- The number of slots that were handed out since the graph was empty. -/
def slotCount (g : Graph) : Nat := g.table.slots.size

/-- As long as no more than `2 ^ 32` slots were handed out, 32 bits hold every slot in use. -/
theorem toNat_toUInt32_of_slotCount_le {g : Graph} (h : g.slotCount ≤ UInt32.size)
    {f : Fact} {slot : Nat} (hslot : g.table.lookup[f]? = some slot) :
    slot.toUInt32.toNat = slot := by
  have hf : g.table.factAt slot = some f := (g.consistent.lookup_eq_some_iff f slot).1 hslot
  have hlt : slot < g.slotCount := SlotTable.lt_size_of_factAt hf
  exact UInt32.toNat_ofNat_of_lt' (Nat.lt_of_lt_of_le hlt h)

/-! ## Runs -/

/-- **A graph is a list of facts without duplicates.** Any operations on the empty graph answer as
they do on the empty list, and in the end the graph answers every question as a scan of the list
does. A fact that is removed and inserted again moves to the end, and no query shows a fact that
is removed. With at most `2 ^ 32` slots handed out, all this is so for slots of 32 bits. -/
theorem run_refines_list (ops : List Operation) :
    ∃ answers g l, performAll Operation.onGraph ops .empty = (answers, g) ∧
      performAll Operation.onList ops [] = (answers, l) ∧
      l.Nodup ∧ g.AnswersAs l ∧
      (∀ f, ((g.remove f).2.insert f).2.AnswersAs (l.erase f ++ [f])) ∧
      (∀ f q, f ∉ (g.remove f).2.filter q) ∧
      (∀ p q, ∀ f ∈ (g.discard p).2.filter q, p.fits f = false) ∧
      (g.slotCount ≤ UInt32.size → ∀ (f : Fact) (slot : Nat), g.table.lookup[f]? = some slot →
        slot.toUInt32.toNat = slot) := by
  have hruns := performAll_onList_toList ops .empty
  generalize performAll Operation.onGraph ops .empty = result at hruns ⊢
  obtain ⟨answers, g⟩ := result
  refine ⟨answers, g, g.toList, rfl, hruns, g.nodup_toList, g.answersAs_toList, ?_, ?_, ?_, ?_⟩
  · intro f
    rw [← toList_put_erase]
    exact answersAs_toList _
  · intro f q hf
    have hmem : f ∈ (g.erase f).toList := (mem_filter.1 hf).1
    rw [toList_erase_eq] at hmem
    exact g.nodup_toList.not_mem_erase hmem
  · intro p q f hf
    exact (mem_toList_discard.1 (mem_filter.1 hf).1).2
  · intro hcount f slot hslot
    exact toNat_toUInt32_of_slotCount_le hcount hslot

end Graph

end FactHierarchy
