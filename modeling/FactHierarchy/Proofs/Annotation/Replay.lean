import FactHierarchy.Proofs.Annotation.Plan
import FactHierarchy.Proofs.Graph.SameOff

/-!
# Acts that are performed again

Performing a list of acts a second time changes nothing (`Act.objects_writeAll_again`), also when
paths have been written in between. Facts that are no names are there already, so they keep their
places. The names of a node are either those that the last adoption gives, whatever they were
before, or they are left alone once there are any (`Act.renameAll_constant_or_keeps`).
-/

set_option autoImplicit false

namespace FactHierarchy

/-! ## Writes that touch one predicate -/

namespace Graph.SameOff

variable {g g' : Graph} {p : Node} {f : Fact}

/-- A fact that is there already, or that is put under the predicate, changes nothing else. -/
theorem put (h : SameOff p g g') (hf : f.predicate ≠ p → f ∈ g.toList) :
    SameOff p g (g'.put f) := by
  intro q hq n
  rw [objects_put, if_neg, h q hq]
  rintro ⟨⟨-, rfl⟩, hnew⟩
  exact hnew ((h.mem_iff hq).2 (hf hq))

theorem discard_about (h : SameOff p g g') (n : Node) :
    SameOff p g (g'.discard (.about n p)).2 := by
  intro q hq m
  rw [objects_discard, if_neg, h q hq]
  exact fun hm => hq hm.2.symm

end Graph.SameOff

namespace Act

variable {a : Annotator} {g g' : Graph} {acts : List Act} {n : Node}

/-! ## Acts in a row -/

theorem mem_writeAll (acts : List Act) (g : Graph) {f : Fact}
    (hf : f.predicate ≠ a.vocabulary.objectName) :
    f ∈ (writeAll a acts g).toList ↔ f ∈ g.toList ∨ ∃ act ∈ acts, f ∈ act.facts a.vocabulary := by
  induction acts generalizing g with
  | nil => simp [writeAll]
  | cons act acts ih =>
      rw [writeAll, List.foldl_cons, ← writeAll, ih, mem_write act g hf, or_assoc,
        List.exists_mem_cons_iff]

/-- The names of a node after some acts. -/
def renameAll (acts : List Act) (n : Node) (names : List Term) : List Term :=
  acts.foldl (fun names act => act.rename n names) names

theorem objectName_writeAll (hv : a.vocabulary.Distinct) (acts : List Act) (g : Graph) (n : Node) :
    (writeAll a acts g).objects n a.vocabulary.objectName =
      renameAll acts n (g.objects n a.vocabulary.objectName) := by
  induction acts generalizing g with
  | nil => rfl
  | cons act acts ih =>
      rw [writeAll, List.foldl_cons, ← writeAll, ih, objectName_write hv]
      rfl

/-! ## Names -/

/-- An act gives the node a name, or leaves the names that there are. -/
theorem rename_constant_or_keeps (act : Act) (n : Node) :
    (∃ new, ∀ names, act.rename n names = new) ∨
      ∀ names, names ≠ [] → act.rename n names = names := by
  cases act with
  | adopt parent child name =>
      by_cases hn : child = n
      · exact .inl ⟨_, fun names => if_pos hn⟩
      · exact .inr fun names _ => if_neg hn
  | enrol root name => exact .inr fun names hnames => if_neg fun h => hnames h.2
  | leaveOut _ | describe _ _ _ | link _ _ => exact .inr fun _ _ => rfl

/-- **So do many acts**: the last adoption decides, and without any the names stay. -/
theorem renameAll_constant_or_keeps (acts : List Act) (n : Node) :
    (∃ new, ∀ names, renameAll acts n names = new) ∨
      ∀ names, names ≠ [] → renameAll acts n names = names := by
  induction acts with
  | nil => exact .inr fun _ _ => rfl
  | cons act acts ih =>
      have hcons : ∀ names, renameAll (act :: acts) n names =
          renameAll acts n (act.rename n names) := fun _ => rfl
      rcases ih with ⟨new, hnew⟩ | hkeeps
      · exact .inl ⟨new, fun names => hnew _⟩
      · rcases rename_constant_or_keeps act n with ⟨new, hnew⟩ | hkeep
        · refine .inl ⟨renameAll acts n new, fun names => ?_⟩
          rw [hcons, hnew]
        · refine .inr fun names hnames => ?_
          rw [hcons, hkeep names hnames, hkeeps names hnames]

theorem renameAll_renameAll (acts : List Act) (n : Node) (names : List Term) :
    renameAll acts n (renameAll acts n names) = renameAll acts n names := by
  rcases renameAll_constant_or_keeps acts n with ⟨new, hnew⟩ | hkeeps
  · rw [hnew, hnew]
  · by_cases hend : renameAll acts n names = []
    · -- names that are missing in the end were missing from the start
      have hstart : names = [] := by
        by_contra hnames
        exact hnames ((hkeeps names hnames).symm.trans hend)
      subst hstart
      rw [hend, hend]
    · exact hkeeps _ hend

/-! ## Everything else -/

/-- An act all of whose facts are there changes nothing but names. -/
theorem sameOff_write {act : Act} (hfacts : ∀ f ∈ act.facts a.vocabulary, f ∈ g.toList) :
    Graph.SameOff a.vocabulary.objectName g (act.write a g) := by
  have hstart := Graph.SameOff.refl a.vocabulary.objectName g
  cases act with
  | leaveOut entry => exact hstart
  | enrol root name =>
      have hmarked := hstart.put fun _ => hfacts _ (List.mem_cons_self ..)
      unfold write Annotator.annotateRoot
      dsimp only
      split
      · exact hmarked
      · exact hmarked.put fun hname => absurd rfl hname
  | adopt parent child name =>
      -- the names that go and the name that comes are under the one predicate left out
      have hunnamed := hstart.discard_about child
      have hmarked := hunnamed.put fun _ => hfacts _ (List.mem_cons_self ..)
      have hplaced := hmarked.put fun _ =>
        hfacts _ (List.mem_cons_of_mem _ (List.mem_cons_self ..))
      exact hplaced.put fun hname => absurd rfl hname
  | describe schema name predicate =>
      have hnamed := hstart.put fun _ => hfacts _ (List.mem_cons_self ..)
      exact hnamed.put fun _ => hfacts _ (List.mem_cons_of_mem _ (List.mem_cons_self ..))
  | link subject schema => exact hstart.put fun _ => hfacts _ (List.mem_cons_self ..)

theorem sameOff_writeAll (hv : a.vocabulary.Distinct)
    (hfacts : ∀ act ∈ acts, ∀ f ∈ act.facts a.vocabulary, f ∈ g.toList) :
    Graph.SameOff a.vocabulary.objectName g (writeAll a acts g) := by
  induction acts generalizing g with
  | nil => exact .refl _ g
  | cons act acts ih =>
      obtain ⟨hact, hacts⟩ := List.forall_mem_cons.1 hfacts
      have hfirst := sameOff_write (a := a) hact
      refine hfirst.trans (ih fun act hmem f hf => ?_)
      exact (hfirst.mem_iff (predicate_of_mem_facts hv hf).1).2 (hacts act hmem f hf)

/-! ## The second time -/

/-- **Acts that are performed again change nothing**, also after a change of paths. -/
theorem objects_writeAll_again (hv : a.vocabulary.Distinct)
    (hsame : Graph.SameOff a.vocabulary.objectPath (writeAll a acts g) g') (n q : Node) :
    (writeAll a acts g').objects n q = g'.objects n q := by
  by_cases hq : q = a.vocabulary.objectName
  · -- paths stand under another predicate, so the names are those of the first time
    have hnames : g'.objects n a.vocabulary.objectName =
        (writeAll a acts g).objects n a.vocabulary.objectName :=
      hsame _ (hv.ne_objectPath (by simp)) n
    rw [hq, objectName_writeAll hv, hnames, objectName_writeAll hv, renameAll_renameAll]
  · have hfacts : ∀ act ∈ acts, ∀ f ∈ act.facts a.vocabulary, f ∈ g'.toList := by
      intro act hact f hf
      obtain ⟨hname, hpath⟩ := predicate_of_mem_facts hv hf
      rw [hsame.mem_iff hpath, mem_writeAll acts g hname]
      exact .inr ⟨act, hact, hf⟩
    exact sameOff_writeAll hv hfacts q hq n

end Act

end FactHierarchy
