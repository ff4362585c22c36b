import FactHierarchy.Proofs.Annotation.Orderly
import FactHierarchy.Proofs.Annotation.Replay

/-!
# Annotation as one list of acts

Whatever rules read, what their passes do is one list of acts, and children are put only below
subjects that one of these acts enrols (`Annotator.exists_acts_annotateAll`).

So annotation can be followed from any graph, also from one that is annotated already: it removes
nothing but names, leaves paths alone, and puts no child below a node that it does not enrol
(`Graph.Continues`). No node ever gets a second name (`Act.length_renameAll_le`), and the names of a
node that is not adopted stay (`Act.renameAll_of_not_adopted`).
-/

set_option autoImplicit false

namespace FactHierarchy

/-! ## The acts of passes -/

namespace Annotator

/-- **The passes of all rules are a list of acts.** -/
theorem exists_acts_annotateAll (a : Annotator) (rules : List Rule) (g : Graph) :
    ∃ acts : List Act, (a.annotateAll rules g).2 = Act.writeAll a acts g ∧
      (a.annotateAll rules g).1.flatMap AnnotationReport.processed =
        acts.filterMap Act.enrolled ∧
      ∀ p c name, .adopt p c name ∈ acts → p ∈ acts.filterMap Act.enrolled := by
  obtain ⟨hgraph, hprocessed, -⟩ := a.annotateAll_eq_performed rules g
  exact ⟨a.performed rules g, hgraph, hprocessed, fun p c name hact =>
    (of_adopt_mem_performed hact).1⟩

end Annotator

/-! ## What acts do to names and paths -/

namespace Act

variable {a : Annotator} {acts : List Act} {n : Node} {names : List Term}

/-- A node that has no more than one name has no more than one after an act. -/
theorem length_rename_le {act : Act} (h : names.length ≤ 1) :
    (act.rename n names).length ≤ 1 := by
  cases act with
  | enrol root name =>
      simp only [rename]
      split
      · exact Nat.le_refl 1
      · exact h
  | adopt parent child name =>
      simp only [rename]
      split
      · exact Nat.le_refl 1
      · exact h
  | leaveOut _ | describe _ _ _ | link _ _ => exact h

/-- **No list of acts gives a node a second name.** -/
theorem length_renameAll_le (h : names.length ≤ 1) : (renameAll acts n names).length ≤ 1 := by
  induction acts generalizing names with
  | nil => exact h
  | cons act acts ih => exact ih (length_rename_le h)

/-- **A node that is not adopted keeps its names**, if it has any. -/
theorem renameAll_of_not_adopted (hnames : names ≠ [])
    (hacts : ∀ parent name, .adopt parent n name ∉ acts) : renameAll acts n names = names := by
  induction acts with
  | nil => rfl
  | cons act acts ih =>
      have hrest : ∀ parent name, .adopt parent n name ∉ acts :=
        fun parent name hact => hacts parent name (List.mem_cons_of_mem _ hact)
      have hkept : act.rename n names = names := by
        cases act with
        | adopt parent child name =>
            refine if_neg ?_
            rintro rfl
            exact hacts parent name (List.mem_cons_self ..)
        | enrol root name => exact if_neg fun h => hnames h.2
        | leaveOut _ | describe _ _ _ | link _ _ => rfl
      show renameAll acts n (act.rename n names) = names
      rw [hkept]
      exact ih hrest

/-- A node that has one name has one name ever after. -/
theorem exists_renameAll_singleton (acts : List Act) (n : Node) (name : String) :
    ∃ name', renameAll acts n [.literal (.string name)] = [.literal (.string name')] := by
  induction acts generalizing name with
  | nil => exact ⟨name, rfl⟩
  | cons act acts ih =>
      have hone : ∃ name', act.rename n [.literal (.string name)] = [.literal (.string name')] := by
        cases act with
        | adopt parent child given =>
            by_cases hn : child = n
            · exact ⟨given, if_pos hn⟩
            · exact ⟨name, if_neg hn⟩
        | enrol root given => exact ⟨name, if_neg fun h => nomatch h.2⟩
        | leaveOut _ | describe _ _ _ | link _ _ => exact ⟨name, rfl⟩
      obtain ⟨name', hname'⟩ := hone
      show ∃ _, renameAll acts n (act.rename n _) = _
      rw [hname']
      exact ih name'

/-- **A node that is adopted has one name in the end.** -/
theorem exists_renameAll_of_adopted {parent : Node} {name : String}
    (hact : .adopt parent n name ∈ acts) :
    ∃ name', renameAll acts n names = [.literal (.string name')] := by
  obtain ⟨before, after, rfl⟩ := List.append_of_mem hact
  obtain ⟨name', hname'⟩ := exists_renameAll_singleton after n name
  refine ⟨name', ?_⟩
  rw [renameAll, List.foldl_append, List.foldl_cons, rename, if_pos rfl]
  exact hname'

variable (hv : a.vocabulary.Distinct)
include hv

/-- **Acts leave paths alone.** -/
theorem objectPath_writeAll (acts : List Act) (g : Graph) (n : Node) :
    (writeAll a acts g).objects n a.vocabulary.objectPath =
      g.objects n a.vocabulary.objectPath := by
  have hagree : (writeAll a acts g).Agree
      (fun f => decide (f.predicate = a.vocabulary.objectPath)) g :=
    writeAll_agree (fun act _ f hf => decide_eq_false (predicate_of_mem_facts hv hf).2)
      fun act _ m _ t => decide_eq_false (hv.ne_objectPath (by simp))
  exact hagree.objects_eq fun t => decide_eq_true rfl

end Act

/-! ## Annotation of any graph -/

namespace Graph

/-- **What annotation makes of a graph**, given the subjects that were enrolled. -/
structure Continues (v : Vocabulary) (enrolled : List Node) (g ga : Graph) : Prop where
  kept : ∀ f ∈ g.toList, f.predicate ≠ v.objectName → f ∈ ga.toList
  paths_eq : ∀ n, ga.objects n v.objectPath = g.objects n v.objectPath
  marked : ∀ n ∈ enrolled, v.markerFact n ∈ ga.toList
  parents : ∀ c t, ⟨c, v.parentRef, t⟩ ∈ ga.toList → ⟨c, v.parentRef, t⟩ ∈ g.toList ∨
    v.markerFact c ∈ ga.toList ∧ ∃ p ∈ enrolled, t = .node p
  rooted : ∀ n, v.markerFact n ∈ ga.toList →
    v.markerFact n ∈ g.toList ∨ n ∈ enrolled ∨ ∃ p, ga.IsChild v n p

end Graph

namespace Annotator

/-- **Annotation continues any graph**, whatever the rules are. -/
theorem continues_annotateAll {a : Annotator} (hv : a.vocabulary.Distinct) (rules : List Rule)
    (g : Graph) : Graph.Continues a.vocabulary
      ((a.annotateAll rules g).1.flatMap AnnotationReport.processed) g
      (a.annotateAll rules g).2 := by
  obtain ⟨acts, hgraph, hprocessed, hparents⟩ := a.exists_acts_annotateAll rules g
  rw [hgraph, hprocessed]
  have hmarker : ∀ n, a.vocabulary.markerFact n ∈ (Act.writeAll a acts g).toList ↔
      a.vocabulary.markerFact n ∈ g.toList ∨ ∃ act ∈ acts, n ∈ act.marked := by
    intro n
    rw [Act.mem_writeAll acts g (hv.ne_objectName (by simp [Vocabulary.markerFact]))]
    simp only [(Act.factsByPredicate hv _).marker]
  have hparent : ∀ c t, ⟨c, a.vocabulary.parentRef, t⟩ ∈ (Act.writeAll a acts g).toList ↔
      ⟨c, a.vocabulary.parentRef, t⟩ ∈ g.toList ∨
        ∃ act ∈ acts, ∃ p name, act = .adopt p c name ∧ t = .node p := by
    intro c t
    rw [Act.mem_writeAll acts g (hv.ne_objectName (by simp))]
    simp only [(Act.factsByPredicate hv _).parent]
  constructor
  case kept =>
    intro f hf hname
    exact (Act.mem_writeAll acts g hname).2 (.inl hf)
  case paths_eq => exact Act.objectPath_writeAll hv acts g
  case marked =>
    intro n hn
    obtain ⟨act, hact, henrolled⟩ := List.mem_filterMap.1 hn
    refine (hmarker n).2 (.inr ⟨act, hact, Act.mem_marked_of_enrolled ?_⟩)
    exact Option.mem_toList.2 henrolled
  case parents =>
    intro c t hf
    rcases (hparent c t).1 hf with hf | ⟨act, hact, p, name, rfl, rfl⟩
    · exact .inl hf
    · exact .inr ⟨(hmarker c).2 (.inr ⟨_, hact, List.mem_singleton_self c⟩), p,
        hparents p c name hact, rfl⟩
  case rooted =>
    intro n hn
    rcases (hmarker n).1 hn with hn | ⟨act, hact, hn⟩
    · exact .inl hn
    · cases act with
      | enrol root name =>
          obtain rfl : n = root := List.mem_singleton.1 hn
          exact .inr (.inl (List.mem_filterMap.2 ⟨_, hact, rfl⟩))
      | adopt parent child name =>
          obtain rfl : n = child := List.mem_singleton.1 hn
          exact .inr (.inr ⟨parent, (hparent n parent).2
            (.inr ⟨_, hact, parent, name, rfl, rfl⟩)⟩)
      | leaveOut _ | describe _ _ _ | link _ _ => cases hn

end Annotator

end FactHierarchy
