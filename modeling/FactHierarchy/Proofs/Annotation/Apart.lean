import FactHierarchy.Proofs.Annotation.Agree
import FactHierarchy.Proofs.Annotation.Precedence
import FactHierarchy.Proofs.Path.Plan

/-!
# Rules that share no node

Rules are *apart* in a graph when no node is touched by two of them (`Rule.Apart`). All annotations
of a node come from one rule then. What the other rules do, before or after it, is about other
nodes or about property-schema nodes.

So the order of such rules decides about nothing but the order of facts
(`Annotator.mem_annotateAll_iff_of_apart`), and not even about this as far as the nodes of one rule
are concerned: on these, graphs that are annotated in different orders look alike
(`Annotator.alike_annotateAll_of_apart`).
-/

set_option autoImplicit false

namespace FactHierarchy

/-! ## The nodes that a rule touches -/

namespace Rule

variable {r : Rule} {g : Graph} {n : Node} {v : Vocabulary}

/-- The nodes that a rule touches: its named subjects and the children in its scopes. -/
def touched (r : Rule) (g : Graph) : List Node :=
  r.namedSubjects g ++ (r.scopes g).flatMap (Scope.children · g)

theorem mem_touched : n ∈ r.touched g ↔ r.Touches g n := by
  have hscope : (∃ scope ∈ r.scopes g, n ∈ scope.children g) ↔ ∃ p, r.Nests g n p := by
    simp only [scopes, List.mem_flatMap, List.mem_map, mem_namedSubjects]
    constructor
    · rintro ⟨scope, ⟨p, hp, relation, hrelation, rfl⟩, hn⟩
      obtain ⟨hobject, hname⟩ := List.mem_filter.1 hn
      exact ⟨p, hp, relation, hrelation, Graph.mem_objectNodes.1 hobject, of_decide_eq_true hname⟩
    · rintro ⟨p, hp, relation, hrelation, hfact, hname⟩
      refine ⟨⟨p, relation⟩, ⟨p, hp, relation, hrelation, rfl⟩, List.mem_filter.2 ?_⟩
      exact ⟨Graph.mem_objectNodes.2 hfact, decide_eq_true hname⟩
  rw [touched, List.mem_append, mem_namedSubjects, List.mem_flatMap, hscope, Touches]

instance : Decidable (r.Touches g n) := decidable_of_iff (n ∈ r.touched g) mem_touched

/-- **No node is touched by two of the rules.** -/
def Apart (rules : List Rule) (g : Graph) : Prop :=
  ∀ r ∈ rules, ∀ r' ∈ rules, ∀ n, r.Touches g n → r'.Touches g n → r = r'

instance (rules : List Rule) (g : Graph) : Decidable (Apart rules g) :=
  decidable_of_iff (∀ r ∈ rules, ∀ r' ∈ rules, ∀ n ∈ r.touched g, n ∈ r'.touched g → r = r') <| by
    simp only [Apart, mem_touched]

/-- The fact is a type, a name, a path or a parent of a node that the rule touches. -/
def isAbout (r : Rule) (v : Vocabulary) (g : Graph) (f : Fact) : Bool :=
  r.Touches g f.subject &&
    decide (f.predicate ∈ [v.rdfType, v.objectName, v.objectPath, v.parentRef])

theorem isAbout_of_touches {q : Node} (hn : r.Touches g n)
    (hq : q ∈ [v.rdfType, v.objectName, v.objectPath, v.parentRef]) (t : Term) :
    r.isAbout v g ⟨n, q, t⟩ = true := by
  rw [isAbout, Bool.and_eq_true]
  exact ⟨decide_eq_true hn, decide_eq_true hq⟩

theorem isAbout_eq_false_of_not_touches {f : Fact} (hf : ¬r.Touches g f.subject) :
    r.isAbout v g f = false := by
  rw [isAbout, decide_eq_false hf, Bool.false_and]

end Rule

namespace Annotator

variable {a : Annotator} {rules rules' : List Rule} {r r' : Rule} {g : Graph} {n : Node}

/-! ## What other rules leave alone -/

section Other

variable (hv : a.vocabulary.Distinct)
include hv

/-- The acts of a rule are not about nodes that it does not touch. -/
theorem isAbout_eq_false_of_mem_acts (hapart : ∀ n, r.Touches g n → ¬r'.Touches g n) {act : Act}
    (hact : act ∈ a.acts r' g) {f : Fact} (hf : f ∈ act.facts a.vocabulary) :
    r.isAbout a.vocabulary g f = false := by
  rcases Act.cases_of_mem_facts hf with ⟨hmarked, -⟩ | hpredicate
  · have htouched : r'.Touches g f.subject := exists_marked_iff.1 ⟨act, hact, hmarked⟩
    exact Rule.isAbout_eq_false_of_not_touches fun h => hapart _ h htouched
  · have hother : f.predicate ∉ [a.vocabulary.rdfType, a.vocabulary.objectName,
        a.vocabulary.objectPath, a.vocabulary.parentRef] := by
      -- the terms of both lists, with the class of objects among the first ones, are different
      have hdisjoint : List.Disjoint
          [a.vocabulary.rdfType, a.vocabulary.hierarchyObject, a.vocabulary.objectName,
            a.vocabulary.objectPath, a.vocabulary.parentRef]
          [a.vocabulary.hasProperty, a.vocabulary.propertyName,
            a.vocabulary.propertySourcePredicate] :=
        List.disjoint_of_nodup_append hv
      intro hmem
      exact hdisjoint (((List.sublist_cons_self ..).cons_cons _).subset hmem) hpredicate
    rw [Rule.isAbout, decide_eq_false hother, Bool.and_false]

/-- **Other rules leave the nodes of a rule alone.** -/
theorem agree_writeAll_of_others {others : List Rule}
    (hothers : ∀ r' ∈ others, ∀ n, r.Touches g n → ¬r'.Touches g n) (g' : Graph) :
    (Act.writeAll a (others.flatMap fun r' => a.acts r' g) g').Agree
      (r.isAbout a.vocabulary g) g' := by
  refine Act.writeAll_agree (fun act hact f hf => ?_) fun act hact n hn t => ?_
  · obtain ⟨r', hr', hact⟩ := List.mem_flatMap.1 hact
    exact isAbout_eq_false_of_mem_acts hv (hothers r' hr') hact hf
  · obtain ⟨r', hr', hact⟩ := List.mem_flatMap.1 hact
    have htouched : r'.Touches g n := exists_marked_iff.1 ⟨act, hact, hn⟩
    exact Rule.isAbout_eq_false_of_not_touches fun h => hothers r' hr' n h htouched

end Other

/-! ## Annotation in any order -/

section Apart

variable (hv : a.vocabulary.Distinct) (hrules : ∀ rule ∈ rules, rule.ReadsRaw a.vocabulary)
  (hapart : Rule.Apart rules g)
include hv hrules

/-- A node that no rule touches has the names that it had. -/
theorem mem_annotateAll_of_untouched {f : Fact} (hname : f.predicate = a.vocabulary.objectName)
    (hf : ∀ r ∈ rules, ¬r.Touches g f.subject) :
    f ∈ (a.annotateAll rules g).2.toList ↔ f ∈ g.toList := by
  have hagree : (Act.writeAll a (rules.flatMap fun r => a.acts r g) g).Agree
      (fun f' => decide (f' = f)) g := by
    refine Act.writeAll_agree (fun act _ f' hf' => ?_) fun act hact n hn t => ?_
    · refine decide_eq_false ?_
      rintro rfl
      exact (Act.predicate_of_mem_facts hv hf').1 hname
    · obtain ⟨r, hr, hact⟩ := List.mem_flatMap.1 hact
      refine decide_eq_false ?_
      rintro rfl
      exact hf r hr (exists_marked_iff.1 ⟨act, hact, hn⟩)
  rw [annotateAll_eq hrules rfl]
  exact hagree.mem_iff (decide_eq_true rfl)

include hapart

/-- No parent fact leads from a node that a rule touches to one that it does not. -/
theorem isChild_annotateAll_of_apart (hg : g.Unannotated a.vocabulary) (hr : r ∈ rules)
    (c p : Node) (hchild : (a.annotateAll rules g).2.IsChild a.vocabulary c p) :
    r.Touches g c ↔ r.Touches g p := by
  obtain hold | ⟨r', hr', q, hnests, hq⟩ := (parentRef_mem_annotateAll_iff hrules hv).1 hchild
  · have hraw := hg _ hold
    rw [Vocabulary.isRaw_of_mem_predicates (by simp [Vocabulary.predicates])] at hraw
    cases hraw
  · -- the rule that put the child below the parent touches both
    obtain rfl : p = q := Term.node.inj hq
    have hc : r'.Touches g c := .inr ⟨p, hnests⟩
    have hp : r'.Touches g p := .inl hnests.selects
    constructor
    · intro h
      rwa [hapart r hr r' hr' c h hc]
    · intro h
      rwa [hapart r hr r' hr' p h hp]

variable (hnodup : rules.Nodup)
include hnodup

/-- **On the nodes of a rule, annotation by all rules is annotation by this one.** -/
theorem agree_annotateAll_of_apart (hr : r ∈ rules) :
    (a.annotateAll rules g).2.Agree (r.isAbout a.vocabulary g)
      (Act.writeAll a (a.acts r g) g) := by
  obtain ⟨before, after, heq⟩ := List.append_of_mem hr
  have hothers : ∀ r' ∈ rules, r' ≠ r → ∀ n, r.Touches g n → ¬r'.Touches g n :=
    fun r' hr' hne n hn hn' => hne (hapart r' hr' r hr n hn' hn)
  rw [heq, List.nodup_middle, List.nodup_cons] at hnodup
  have hrest : ∀ r' ∈ before ++ after, ∀ n, r.Touches g n → ¬r'.Touches g n := by
    intro r' hr'
    refine hothers r' ?_ fun h => hnodup.1 (h ▸ hr')
    rw [heq, List.mem_append, List.mem_cons]
    exact (List.mem_append.1 hr').imp_right .inr
  have hbefore := agree_writeAll_of_others hv
    (fun r' hr' => hrest r' (List.mem_append_left after hr')) g
  have hafter := agree_writeAll_of_others hv
    (fun r' hr' => hrest r' (List.mem_append_right before hr'))
    (Act.writeAll a (a.acts r g) (Act.writeAll a (before.flatMap fun r' => a.acts r' g) g))
  -- the rule finds the names of its roots as it would without the rules before it
  have hnames : ∀ act ∈ a.acts r g, ∀ root ∈ act.enrolled, ∀ t,
      r.isAbout a.vocabulary g ⟨root, a.vocabulary.objectName, t⟩ = true := by
    intro act hact root hroot t
    have hmarked : root ∈ act.marked := Act.mem_marked_of_enrolled (Option.mem_toList.2 hroot)
    exact Rule.isAbout_of_touches (exists_marked_iff.1 ⟨act, hact, hmarked⟩) (by simp) t
  have hown := Act.agree_writeAll hbefore hnames
  rw [annotateAll_eq hrules rfl, heq, List.flatMap_append, List.flatMap_cons, Act.writeAll_append,
    Act.writeAll_append]
  exact hafter.trans hown

variable (hperm : rules'.Perm rules)
include hperm

theorem agree_annotateAll_perm (hr : r ∈ rules) :
    (a.annotateAll rules' g).2.Agree (r.isAbout a.vocabulary g) (a.annotateAll rules g).2 := by
  have hmem : ∀ {r}, r ∈ rules' → r ∈ rules := hperm.mem_iff.1
  have hapart' : Rule.Apart rules' g := fun r hr r' hr' => hapart r (hmem hr) r' (hmem hr')
  have hother := agree_annotateAll_of_apart hv (fun r hr => hrules r (hmem hr)) hapart'
    (hperm.nodup_iff.2 hnodup) (hperm.mem_iff.2 hr)
  exact hother.trans (agree_annotateAll_of_apart hv hrules hapart hnodup hr).symm

/-- **Graphs annotated in different orders have the same facts.** -/
theorem mem_annotateAll_iff_of_apart {f : Fact} :
    f ∈ (a.annotateAll rules' g).2.toList ↔ f ∈ (a.annotateAll rules g).2.toList := by
  by_cases hname : f.predicate = a.vocabulary.objectName
  · by_cases htouched : ∃ r ∈ rules, r.Touches g f.subject
    · obtain ⟨r, hr, hf⟩ := htouched
      have hagree := agree_annotateAll_perm hv hrules hapart hnodup hperm hr
      exact hagree.mem_iff (Rule.isAbout_of_touches hf (by simp [hname]) f.object)
    · have hnot : ∀ r ∈ rules, ¬r.Touches g f.subject := fun r hr hf => htouched ⟨r, hr, hf⟩
      rw [mem_annotateAll_of_untouched hv hrules hname hnot,
        mem_annotateAll_of_untouched hv (fun r hr => hrules r (hperm.mem_iff.1 hr)) hname
          fun r hr => hnot r (hperm.mem_iff.1 hr)]
  · exact mem_annotateAll_perm hrules hperm hname

/-- **On the nodes of a rule, graphs annotated in different orders look alike.** -/
theorem alike_annotateAll_of_apart (hg : g.Unannotated a.vocabulary) (hr : r ∈ rules) :
    (a.annotateAll rules' g).2.Alike a.vocabulary (r.Touches g) (a.annotateAll rules g).2 := by
  have hmem : ∀ {r}, r ∈ rules' → r ∈ rules := hperm.mem_iff.1
  have hapart' : Rule.Apart rules' g := fun r hr r' hr' => hapart r (hmem hr) r' (hmem hr')
  refine (agree_annotateAll_perm hv hrules hapart hnodup hperm hr).alike
    (fun n hn => Rule.isAbout_of_touches hn (by simp) _)
    (fun n hn q hq t => Rule.isAbout_of_touches hn (List.mem_cons_of_mem _ hq) t) ?_ ?_
  · exact isChild_annotateAll_of_apart hv (fun r hr => hrules r (hmem hr)) hapart'
      hg (hperm.mem_iff.2 hr)
  · exact isChild_annotateAll_of_apart hv hrules hapart hg hr

end Apart

end Annotator

end FactHierarchy
