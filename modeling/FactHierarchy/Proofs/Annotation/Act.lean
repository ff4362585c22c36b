import FactHierarchy.Proofs.RawFacts
import Mathlib.Logic.Relation
import Mathlib.Tactic.Set

/-!
# The acts of an annotation pass

Whatever an annotation pass does, it does in acts of five kinds (`Act`): it leaves out a resource,
enrols a root, adopts a child, describes a property-schema node or links a subject to one. What
every act keeps is kept by acts in a row (`AnnotationPass.LeadsTo.invariant`).

What an act does to a graph is said once, in three parts: facts that it does not write stay
(`Act.write_agree`), raw facts among them, the names of a node are replaced or left
(`Act.objectName_write`), and any other fact is there afterwards if it was there or is one of
`Act.facts` (`Act.mem_write`). The same act keeps graphs in agreement that agree about the names
that it looks for (`Act.agree_write`).
-/

set_option autoImplicit false

namespace FactHierarchy

/-- One act of an annotation pass. -/
inductive Act where
  /-- Note that a resource without a name is left out. -/
  | leaveOut (entry : Omission)
  /-- Mark a root, and name it unless it has a name. -/
  | enrol (root : Node) (name : String)
  /-- Put a child below a parent, under this name alone. -/
  | adopt (parent child : Node) (name : String)
  /-- Write the name and the source predicate of a property-schema node. -/
  | describe (schema : Node) (name : String) (predicate : Node)
  /-- Give a subject a property. -/
  | link (subject schema : Node)
  deriving DecidableEq, Repr

namespace Act

/-- What an act does to the graph. -/
def write (a : Annotator) : Act → Graph → Graph
  | leaveOut _, g => g
  | enrol root name, g => a.annotateRoot root name g
  | adopt parent child name, g => a.adopt parent child name g
  | describe schema name predicate, g => a.describe schema name predicate g
  | link subject schema, g => g.put ⟨subject, a.vocabulary.hasProperty, schema⟩

/-- The subject that an act enrols. -/
def enrolled : Act → Option Node
  | enrol root _ => some root
  | _ => none

/-- The entry with which an act leaves out a resource. -/
def omission : Act → Option Omission
  | leaveOut entry => some entry
  | _ => none

/-- The facts that an act makes sure of, other than names. -/
def facts (v : Vocabulary) : Act → List Fact
  | leaveOut _ => []
  | enrol root _ => [v.markerFact root]
  | adopt parent child _ => [v.markerFact child, v.parentFact child parent]
  | describe schema name predicate =>
    [⟨schema, v.propertyName, Literal.string name⟩, ⟨schema, v.propertySourcePredicate, predicate⟩]
  | link subject schema => [⟨subject, v.hasProperty, schema⟩]

/-- The nodes that an act marks: the root it enrols or the child it adopts. -/
def marked : Act → List Node
  | enrol root _ => [root]
  | adopt _ child _ => [child]
  | _ => []

/-- The names of a node after an act, given those before. -/
def rename (n : Node) : Act → List Term → List Term
  | enrol root name, names => if root = n ∧ names = [] then [Literal.string name] else names
  | adopt _ child name, names => if child = n then [Literal.string name] else names
  | _, names => names

end Act

/-! ## What an act does to a graph -/

namespace Act

variable {P : Fact → Bool} {a : Annotator} {g g' : Graph}

/-- **The same act keeps graphs in agreement**, if they agree about the names of the root that it
enrols. -/
theorem agree_write {act : Act} (h : g.Agree P g')
    (hnames : ∀ root ∈ act.enrolled, ∀ t, P ⟨root, a.vocabulary.objectName, t⟩ = true) :
    (act.write a g).Agree P (act.write a g') := by
  cases act with
  | leaveOut entry => exact h
  | enrol root name =>
      have hmarked := h.put (a.vocabulary.markerFact root)
      have hnamed := hmarked.any_about_eq (hnames root rfl)
      simp only [write, Annotator.annotateRoot, hnamed]
      split
      · exact hmarked
      · exact hmarked.put _
  | adopt parent child name =>
      exact (((h.discard _).put _).put _).put _
  | describe schema name predicate => exact (h.put _).put _
  | link subject schema => exact h.put _

/-- **An act leaves facts of a kind alone** when it writes none of them. -/
theorem write_agree {act : Act} (hfacts : ∀ f ∈ act.facts a.vocabulary, P f = false)
    (hnames : ∀ n ∈ act.marked, ∀ t, P ⟨n, a.vocabulary.objectName, t⟩ = false) :
    (act.write a g).Agree P g := by
  cases act with
  | leaveOut entry => exact .refl P g
  | enrol root name =>
      have hmarked : (g.put (a.vocabulary.markerFact root)).Agree P g :=
        Graph.agree_put (hfacts _ (List.mem_cons_self ..))
      simp only [write, Annotator.annotateRoot]
      split
      · exact hmarked
      · exact (Graph.agree_put (hnames root (List.mem_cons_self ..) _)).trans hmarked
  | adopt parent child name =>
      have hunnamed : (g.discard (.about child a.vocabulary.objectName)).2.Agree P g := by
        refine Graph.agree_discard fun f hf => ?_
        obtain ⟨rfl, hpredicate⟩ := Pattern.fits_about.1 hf
        have hname := hnames f.subject (List.mem_cons_self ..) f.object
        rwa [← hpredicate] at hname
      have hmarked := (Graph.agree_put (hfacts _ (List.mem_cons_self ..))).trans hunnamed
      have hplaced := (Graph.agree_put
        (hfacts _ (List.mem_cons_of_mem _ (List.mem_cons_self ..)))).trans hmarked
      exact (Graph.agree_put (hnames child (List.mem_cons_self ..) _)).trans hplaced
  | describe schema name predicate =>
      have hnamed : (g.put ⟨schema, a.vocabulary.propertyName, Literal.string name⟩).Agree P g :=
        Graph.agree_put (hfacts _ (List.mem_cons_self ..))
      exact (Graph.agree_put (hfacts _ (List.mem_cons_of_mem _ (List.mem_cons_self ..)))).trans
        hnamed
  | link subject schema => exact Graph.agree_put (hfacts _ (List.mem_cons_self ..))

/-- **A fact that an act makes sure of** is a marker or a parent of a node that the act marks, or it
has to do with properties. -/
theorem cases_of_mem_facts {v : Vocabulary} {act : Act} {f : Fact} (hf : f ∈ act.facts v) :
    (f.subject ∈ act.marked ∧
        (f = v.markerFact f.subject ∨ ∃ parent, f = v.parentFact f.subject parent)) ∨
      f.predicate ∈ [v.hasProperty, v.propertyName, v.propertySourcePredicate] := by
  cases act <;> simp only [facts, List.mem_cons, List.not_mem_nil, or_false] at hf
  case enrol root name =>
    subst hf
    exact .inl ⟨List.mem_singleton_self root, .inl rfl⟩
  case adopt parent child name =>
    obtain rfl | rfl := hf
    · exact .inl ⟨List.mem_singleton_self child, .inl rfl⟩
    · exact .inl ⟨List.mem_singleton_self child, .inr ⟨parent, rfl⟩⟩
  case describe schema name predicate =>
    obtain rfl | rfl := hf
    · exact .inr (by simp)
    · exact .inr (by simp)
  case link subject schema =>
    subst hf
    exact .inr (by simp)

theorem isRaw_of_mem_facts {v : Vocabulary} {act : Act} {f : Fact} (hf : f ∈ act.facts v) :
    v.isRaw f = false := by
  rcases cases_of_mem_facts hf with ⟨-, hmarker | ⟨parent, hparent⟩⟩ | hproperty
  · rw [hmarker]
    exact Vocabulary.isRaw_markerFact f.subject
  · rw [hparent]
    exact Vocabulary.isRaw_of_mem_predicates
      (by simp [Vocabulary.parentFact, Vocabulary.predicates])
  · exact Vocabulary.isRaw_of_mem_predicates
      (List.mem_append_right [v.objectName, v.objectPath, v.parentRef] hproperty)

/-- **An act touches no raw fact.** -/
theorem rawFacts_write (act : Act) (g : Graph) :
    (act.write a g).rawFacts a.vocabulary = g.rawFacts a.vocabulary := by
  refine write_agree (fun f hf => isRaw_of_mem_facts hf) fun n _ t => ?_
  exact Vocabulary.isRaw_of_mem_predicates (by simp [Vocabulary.predicates])

/-- **What an act does to all facts but names.** -/
theorem mem_write (act : Act) (g : Graph) {f : Fact}
    (hf : f.predicate ≠ a.vocabulary.objectName) :
    f ∈ (act.write a g).toList ↔ f ∈ g.toList ∨ f ∈ act.facts a.vocabulary := by
  have hname : ∀ n name, f ≠ a.vocabulary.nameFact n name := by
    rintro n name rfl
    exact hf rfl
  cases act with
  | leaveOut entry => simp [write, facts]
  | enrol root name =>
      simp only [write, Annotator.annotateRoot, facts]
      split <;> simp [Graph.mem_toList_put, hname]
  | adopt parent child name =>
      have hfits : (Pattern.about child a.vocabulary.objectName).fits f = false := by
        rw [← Bool.not_eq_true, Pattern.fits_about]
        exact fun h => hf h.2
      simp [write, Annotator.adopt, facts, Graph.mem_toList_put, Graph.mem_toList_discard, hname,
        hfits, or_assoc]
  | describe schema name predicate =>
      simp [write, Annotator.describe, facts, Graph.mem_toList_put, or_assoc]
  | link subject schema => simp [write, facts, Graph.mem_toList_put]

/-- The facts that an act makes sure of are no names and no paths. -/
theorem predicate_of_mem_facts {v : Vocabulary} (hv : v.Distinct) {act : Act} {f : Fact}
    (hf : f ∈ act.facts v) : f.predicate ≠ v.objectName ∧ f.predicate ≠ v.objectPath := by
  rcases cases_of_mem_facts hf with ⟨-, hmarker | ⟨parent, hparent⟩⟩ | hproperty
  · rw [hmarker]
    exact ⟨hv.ne_objectName (by simp [Vocabulary.markerFact]),
      hv.ne_objectPath (by simp [Vocabulary.markerFact])⟩
  · rw [hparent]
    exact ⟨hv.ne_objectName (by simp [Vocabulary.parentFact]),
      hv.ne_objectPath (by simp [Vocabulary.parentFact])⟩
  · exact ⟨hv.ne_objectName (List.mem_append_right
        [v.rdfType, v.hierarchyObject, v.objectPath, v.parentRef] hproperty),
      hv.ne_objectPath (List.mem_append_right
        [v.rdfType, v.hierarchyObject, v.objectName, v.parentRef] hproperty)⟩

/-- **The facts that an act makes sure of**, predicate by predicate. -/
structure FactsByPredicate (v : Vocabulary) (act : Act) : Prop where
  marker : ∀ n, v.markerFact n ∈ act.facts v ↔ n ∈ act.marked
  parent : ∀ n (t : Term), ⟨n, v.parentRef, t⟩ ∈ act.facts v ↔
    ∃ parent name, act = .adopt parent n name ∧ t = .node parent
  property : ∀ n (t : Term), ⟨n, v.hasProperty, t⟩ ∈ act.facts v ↔
    ∃ schema, act = .link n schema ∧ t = .node schema
  name : ∀ n (t : Term), ⟨n, v.propertyName, t⟩ ∈ act.facts v ↔
    ∃ name predicate, act = .describe n name predicate ∧ t = Literal.string name
  source : ∀ n (t : Term), ⟨n, v.propertySourcePredicate, t⟩ ∈ act.facts v ↔
    ∃ name predicate, act = .describe n name predicate ∧ t = .node predicate

theorem factsByPredicate {v : Vocabulary} (hv : v.Distinct) (act : Act) :
    act.FactsByPredicate v := by
  have hne : ∀ i p, (v.rdfType :: v.terms)[i]? = some p →
      ∀ q ∈ (v.rdfType :: v.terms).eraseIdx i, p ≠ q := fun _ _ hp _ => hv.ne_of_mem_eraseIdx hp
  have hmarker := hne 0 v.rdfType rfl
  have hparent := hne 4 v.parentRef rfl
  have hproperty := hne 5 v.hasProperty rfl
  have hname := hne 6 v.propertyName rfl
  have hsource := hne 7 v.propertySourcePredicate rfl
  simp only [Vocabulary.terms, List.eraseIdx, List.forall_mem_cons]
    at hmarker hparent hproperty hname hsource
  cases act <;> constructor <;> simp [facts, marked, Vocabulary.markerFact, Vocabulary.parentFact,
    hmarker, hparent, hproperty, hname, hsource]
  -- the act may be about another node
  case adopt.parent | describe.name | describe.source | link.property => grind

variable (hv : a.vocabulary.Distinct)
include hv

/-- **What an act does to names.** -/
theorem objectName_write (act : Act) (g : Graph) (n : Node) :
    (act.write a g).objects n a.vocabulary.objectName =
      act.rename n (g.objects n a.vocabulary.objectName) := by
  have hput : ∀ (g : Graph) (s p : Node) (t : Term),
      p ∈ [a.vocabulary.rdfType, a.vocabulary.hierarchyObject, a.vocabulary.objectPath,
        a.vocabulary.parentRef, a.vocabulary.hasProperty, a.vocabulary.propertyName,
        a.vocabulary.propertySourcePredicate] →
      (g.put ⟨s, p, t⟩).objects n a.vocabulary.objectName =
        g.objects n a.vocabulary.objectName :=
    fun g s p t hp => Graph.objects_put_of_predicate_ne (hv.ne_objectName hp)
  cases act with
  | leaveOut entry => rfl
  | enrol root name =>
      have hmarker : ∀ m, (g.put (a.vocabulary.markerFact root)).objects m
          a.vocabulary.objectName = g.objects m a.vocabulary.objectName :=
        fun m => Graph.objects_put_of_predicate_ne
          (hv.ne_objectName (List.mem_cons_self (a := a.vocabulary.rdfType)))
      simp only [write, Annotator.annotateRoot, rename]
      -- the root is asked for its names after the marker is put, which is no name
      split
      · next hany =>
        rw [Graph.any_about_iff, hmarker] at hany
        rw [hmarker, if_neg]
        rintro ⟨rfl, hnil⟩
        exact hany hnil
      · next hany =>
        rw [Bool.not_eq_true, Graph.any_about_eq_false_iff] at hany
        by_cases hn : root = n
        · subst hn
          rw [Vocabulary.nameFact, Graph.objects_put_of_nil hany]
          rw [hmarker] at hany
          rw [if_pos ⟨rfl, hany⟩]
        · rw [Graph.objects_put_of_subject_ne hn, hmarker, if_neg fun h => hn h.1]
  | adopt parent child name =>
      simp only [write, Annotator.adopt, rename]
      by_cases hn : child = n
      · -- no name is left when the new one is put
        subst hn
        rw [if_pos rfl, Vocabulary.nameFact, Graph.objects_put_of_nil]
        rw [Vocabulary.parentFact, hput _ _ _ _ (by simp), Vocabulary.markerFact,
          hput _ _ _ _ (by simp), Graph.objects_discard, if_pos ⟨rfl, rfl⟩]
      · rw [if_neg hn, Graph.objects_put_of_subject_ne hn, Vocabulary.parentFact,
          hput _ _ _ _ (by simp), Vocabulary.markerFact, hput _ _ _ _ (by simp),
          Graph.objects_discard, if_neg fun h => hn h.1]
  | describe schema name predicate =>
      simp only [write, Annotator.describe, rename]
      rw [hput _ _ _ _ (by simp), hput _ _ _ _ (by simp)]
  | link subject schema =>
      exact hput _ _ _ _ (by simp)

end Act

/-! ## Acts in a row -/

namespace Act

variable {P : Fact → Bool} {a : Annotator} {g g' : Graph}

/-- What a list of acts does to a graph. -/
def writeAll (a : Annotator) (acts : List Act) (g : Graph) : Graph :=
  acts.foldl (fun g act => act.write a g) g

theorem writeAll_append (acts acts' : List Act) (g : Graph) :
    writeAll a (acts ++ acts') g = writeAll a acts' (writeAll a acts g) := List.foldl_append

theorem agree_writeAll {acts : List Act} (h : g.Agree P g')
    (hnames : ∀ act ∈ acts, ∀ root ∈ act.enrolled,
      ∀ t, P ⟨root, a.vocabulary.objectName, t⟩ = true) :
    (writeAll a acts g).Agree P (writeAll a acts g') := by
  induction acts generalizing g g' with
  | nil => exact h
  | cons act acts ih =>
      obtain ⟨hact, hacts⟩ := List.forall_mem_cons.1 hnames
      exact ih (agree_write h hact) hacts

theorem writeAll_agree {acts : List Act}
    (hfacts : ∀ act ∈ acts, ∀ f ∈ act.facts a.vocabulary, P f = false)
    (hnames : ∀ act ∈ acts, ∀ n ∈ act.marked, ∀ t, P ⟨n, a.vocabulary.objectName, t⟩ = false) :
    (writeAll a acts g).Agree P g := by
  induction acts generalizing g with
  | nil => exact .refl P g
  | cons act acts ih =>
      obtain ⟨hfact, hfacts⟩ := List.forall_mem_cons.1 hfacts
      obtain ⟨hname, hnames⟩ := List.forall_mem_cons.1 hnames
      exact (ih hfacts hnames).trans (write_agree hfact hname)

/-- **No list of acts touches a raw fact.** -/
theorem rawFacts_writeAll (acts : List Act) (g : Graph) :
    (writeAll a acts g).rawFacts a.vocabulary = g.rawFacts a.vocabulary := by
  refine writeAll_agree (fun act _ f hf => isRaw_of_mem_facts hf) fun act _ n _ t => ?_
  exact Vocabulary.isRaw_of_mem_predicates (by simp [Vocabulary.predicates])

end Act

/-! ## Acts in a pass -/

/-- Perform an act. -/
def AnnotationPass.perform (a : Annotator) (s : AnnotationPass) (act : Act) : AnnotationPass where
  graph := act.write a s.graph
  processed := s.processed ++ act.enrolled.toList
  omissions := s.omissions ++ act.omission.toList

/-- The act can come next: children are put only below subjects that are enrolled. -/
def Act.Fits (s : AnnotationPass) : Act → Prop
  | .adopt parent _ _ => parent ∈ s.processed
  | _ => True

/-- Some acts lead from one state of a pass to another. -/
def AnnotationPass.LeadsTo (a : Annotator) : AnnotationPass → AnnotationPass → Prop :=
  Relation.ReflTransGen fun s s' => ∃ act : Act, act.Fits s ∧ s' = s.perform a act

namespace AnnotationPass

variable {a : Annotator} {s s' : AnnotationPass}

theorem perform_leaveOut (s : AnnotationPass) (entry : Omission) :
    s.perform a (.leaveOut entry) = s.report entry := by
  simp [report, perform, Act.write, Act.enrolled, Act.omission]

theorem perform_enrol (s : AnnotationPass) (root : Node) (name : String) :
    s.perform a (.enrol root name) =
      { s with
        graph := a.annotateRoot root name s.graph
        processed := s.processed ++ [root] } := by
  simp [perform, Act.write, Act.enrolled, Act.omission]

theorem perform_adopt (s : AnnotationPass) (parent child : Node) (name : String) :
    s.perform a (.adopt parent child name) =
      { s with graph := a.adopt parent child name s.graph } := by
  simp [perform, Act.write, Act.enrolled, Act.omission]

theorem perform_describe (s : AnnotationPass) (schema predicate : Node) (name : String) :
    s.perform a (.describe schema name predicate) =
      { s with graph := a.describe schema name predicate s.graph } := by
  simp [perform, Act.write, Act.enrolled, Act.omission]

theorem perform_link (s : AnnotationPass) (subject schema : Node) :
    s.perform a (.link subject schema) =
      { s with graph := s.graph.put ⟨subject, a.vocabulary.hasProperty, schema⟩ } := by
  simp [perform, Act.write, Act.enrolled, Act.omission]

theorem foldl_perform (acts : List Act) (s : AnnotationPass) :
    acts.foldl (perform a) s =
      ⟨Act.writeAll a acts s.graph, s.processed ++ acts.filterMap Act.enrolled,
        s.omissions ++ acts.filterMap Act.omission⟩ := by
  induction acts generalizing s with
  | nil => simp [Act.writeAll]
  | cons act acts ih =>
      -- what the first act adds goes in front of what the others add
      have hlist : ∀ {α : Type} (read : Act → Option α) (l : List α),
          l ++ (read act).toList ++ acts.filterMap read =
            l ++ (act :: acts).filterMap read := by
        intro α read l
        rw [List.filterMap_cons, List.append_assoc]
        cases read act <;> rfl
      rw [List.foldl_cons, ih, ← hlist, ← hlist]
      rfl

theorem graph_foldl_perform (acts : List Act) (s : AnnotationPass) :
    (acts.foldl (perform a) s).graph = Act.writeAll a acts s.graph := by
  rw [foldl_perform]

theorem leadsTo_perform (act : Act) (h : act.Fits s) : s.LeadsTo a (s.perform a act) :=
  .single ⟨act, h, rfl⟩

/-- Acts fit one after the other if they adopt nobody but below subjects that are enrolled. -/
theorem leadsTo_foldl {acts : List Act}
    (h : ∀ p c name, .adopt p c name ∈ acts → p ∈ s.processed) :
    s.LeadsTo a (acts.foldl (perform a) s) := by
  induction acts generalizing s with
  | nil => exact .refl
  | cons act acts ih =>
      have hfits : act.Fits s := by
        cases act with
        | adopt parent child name => exact h parent child name (List.mem_cons_self ..)
        | leaveOut _ | enrol _ _ | describe _ _ _ | link _ _ => trivial
      -- the subjects stay enrolled
      refine (leadsTo_perform act hfits).trans (ih fun p c name hact => ?_)
      exact List.mem_append_left _ (h p c name (List.mem_cons_of_mem _ hact))

/-- **What every act keeps, every pass keeps.** -/
theorem LeadsTo.invariant {P : AnnotationPass → Prop} (h : s.LeadsTo a s')
    (hact : ∀ s (act : Act), act.Fits s → P s → P (s.perform a act)) (hs : P s) : P s' := by
  induction h with
  | refl => exact hs
  | tail _ hstep ih =>
      obtain ⟨act, hfits, rfl⟩ := hstep
      exact hact _ act hfits ih

end AnnotationPass

end FactHierarchy
