import FactHierarchy.Proofs.Path.Order

/-!
# Loops above candidates

A loop stands *above* a node when a way leads up from the node to it, by any of the parent facts of
each node on the way (`Graph.LoopAbove`). A path pass does not look at all of these ways. It goes
down from the roots, and from a candidate that it has not come to it goes up by first parents.

So a loop above a candidate can be missed (`Graph.writePaths_misses_loop_above_second_parent`). In a
graph without paths this takes a *fork* between the two, that is a node that has a parent fact
beside the one that leads on to the loop (`Graph.writePaths_misses_loops_at_forks`). Where parents
are functional there is no fork, and no loop above a candidate is missed.
-/

set_option autoImplicit false

namespace FactHierarchy

/-! ## A plant with a fork

The sensor is a part of a line, and a part of a pump that is a part of its own valve. -/

namespace Plant

def pump : Node := .iri "urn:plant#pump"

def forkedGraph : Graph :=
  let v := engine.vocabulary
  .ofList
    [v.markerFact line1, v.markerFact sensor, v.markerFact pump, v.markerFact valve,
      v.parentFact sensor line1, v.parentFact sensor pump, v.parentFact pump valve,
      v.parentFact valve pump]

end Plant

namespace Graph

variable {g : Graph} {v : Vocabulary} {rule base : String} {candidates : List Node}
  {c m n r : Node}

/-! ## Graphs without paths -/

/-- There is no path fact. -/
def Pathless (g : Graph) (v : Vocabulary) : Prop := ∀ f ∈ g.toList, f.predicate ≠ v.objectPath

instance (g : Graph) : DecidablePred g.Pathless := fun v =>
  inferInstanceAs (Decidable (∀ f ∈ g.toList, f.predicate ≠ v.objectPath))

theorem Pathless.hasPath_eq_false (hg : g.Pathless v) (n : Node) : g.hasPath v n = false := by
  rw [hasPath, any_about_eq_false_iff, List.eq_nil_iff_forall_not_mem]
  exact fun t ht => hg _ (mem_objects.1 ht) rfl

theorem Pathless.openChild_eq (hg : g.Pathless v) : g.OpenChild v = g.IsChild v := by
  funext c p
  rw [OpenChild, hg.hasPath_eq_false, eq_self, and_true]

/-! ## Forks -/

/-- **A loop stands above the first node**: a way leads up from it to the second node, which stands
above itself. -/
def LoopAbove (g : Graph) (v : Vocabulary) (n m : Node) : Prop :=
  Relation.ReflTransGen (g.IsChild v) n m ∧ Relation.TransGen (g.IsChild v) m m

/-- **The ways from the first node up to the second one fork**: a node on one of them has a parent
fact beside the one that leads on. -/
def Forks (g : Graph) (v : Vocabulary) (n m : Node) : Prop :=
  ∃ c p t, Relation.ReflTransGen (g.IsChild v) n c ∧ g.IsChild v c p ∧
    Relation.ReflTransGen (g.IsChild v) p m ∧ ⟨c, v.parentRef, t⟩ ∈ g.toList ∧ t ≠ .node p

theorem Functional.not_forks (hparents : g.Functional v.parentRef) : ¬g.Forks v n m := by
  rintro ⟨c, p, t, -, hp, -, ht, hne⟩
  exact hne (congrArg Fact.object (hparents _ ht _ hp rfl rfl rfl))

section Unforked

variable (hfork : ¬g.Forks v n m) (hloop : g.LoopAbove v n m)
include hfork hloop

/-- A node from which a way leads on to the loop has one parent, and the way leads on from there. -/
theorem exists_only_parent (hc : Relation.ReflTransGen (g.IsChild v) n c)
    (hcm : Relation.TransGen (g.IsChild v) c m) :
    ∃ p, g.objects c v.parentRef = [.node p] ∧ Relation.TransGen (g.IsChild v) p m := by
  obtain ⟨p, hp, hpm⟩ := Relation.TransGen.head'_iff.1 hcm
  refine ⟨p, objects_eq_singleton fun t => ⟨fun ht => ?_, ?_⟩, hloop.2.trans_right hpm⟩
  · by_contra hne
    exact hfork ⟨c, p, t, hc, hp, hpm, ht, hne⟩
  · rintro rfl
    exact hp

/-- **Where there is no fork, all ways up lead to the loop.** -/
theorem leads_on (hr : Relation.ReflTransGen (g.IsChild v) n r) :
    Relation.TransGen (g.IsChild v) r m := by
  induction hr with
  | refl => exact hloop.2.trans_right hloop.1
  | tail hc hp ih =>
      obtain ⟨p, hobjects, hpm⟩ := exists_only_parent hfork hloop hc ih
      have hmem := mem_objects.2 hp
      rw [hobjects, List.mem_singleton] at hmem
      obtain rfl := Term.node.inj hmem
      exact hpm

/-- So the node does not hang from a root. -/
theorem not_awaitsPath_of_not_forks (hg : g.Pathless v) : ¬g.AwaitsPath v candidates n := by
  rintro ⟨r, -, -, hroot, -, hway⟩
  rw [hg.openChild_eq] at hway
  obtain ⟨p, hp, -⟩ := Relation.TransGen.head'_iff.1 (leads_on hfork hloop hway)
  rw [IsChild.hasParent hp] at hroot
  cases hroot

/-- And the first parents lead to the loop too. -/
theorem climbsForever_of_not_forks : g.ClimbsForever v n := by
  refine Hierarchy.not_acc_firstParent_iff.1 fun hacc => ?_
  -- by induction on the way up, on which every node has one parent only
  have hends : ∀ r, Acc (g.hierarchy v).FirstParent r →
      ¬Relation.ReflTransGen (g.IsChild v) n r := by
    intro r hacc
    induction hacc with
    | intro r _ ih =>
        intro hr
        obtain ⟨p, hobjects, -⟩ := exists_only_parent hfork hloop hr (leads_on hfork hloop hr)
        have hp : g.IsChild v r p := by
          refine mem_objects.1 ?_
          rw [hobjects]
          exact List.mem_singleton_self _
        have hfirst : (g.hierarchy v).FirstParent p r := by
          show g.objectNode? r v.parentRef = some p
          rw [objectNode?, object?, hobjects]
          rfl
        exact ih p hfirst (hr.tail hp)
  exact hends n hacc .refl

end Unforked

/-! ## Which loops are missed -/

/-- **A path pass misses loops above candidates at forks only.** In a graph without paths it fails
exactly for a loop that hangs from a root among the candidates, and for a loop of first parents
above a candidate that hangs from no such root. A loop above a candidate that is neither has a fork
below it, so there is no such loop where parents are functional. -/
theorem writePaths_misses_loops_at_forks (hg : g.Pathless v) :
    ((∃ chain, g.writePaths v rule base candidates = .error (.cyclicHierarchy rule chain)) ↔
      (∃ m, g.AwaitsPath v candidates m ∧ Relation.TransGen (g.IsChild v) m m) ∨
        ∃ n ∈ candidates, ¬g.AwaitsPath v candidates n ∧ g.ClimbsForever v n) ∧
    (∀ n ∈ candidates, ∀ m, g.LoopAbove v n m →
      (∃ chain, g.writePaths v rule base candidates = .error (.cyclicHierarchy rule chain)) ∨
        g.Forks v n m) ∧
    (g.Functional v.parentRef → ∀ n ∈ candidates, ∀ m, g.LoopAbove v n m →
      ∃ chain, g.writePaths v rule base candidates = .error (.cyclicHierarchy rule chain)) := by
  have hfails : (∃ chain, g.writePaths v rule base candidates =
        .error (.cyclicHierarchy rule chain)) ↔
      (∃ m, g.AwaitsPath v candidates m ∧ Relation.TransGen (g.IsChild v) m m) ∨
        ∃ n ∈ candidates, ¬g.AwaitsPath v candidates n ∧ g.ClimbsForever v n := by
    have hcause : (∃ chain, g.writePaths v rule base candidates =
          .error (.cyclicHierarchy rule chain)) ↔
        ∃ cause, g.writePaths v rule base candidates = .error cause := by
      refine ⟨fun ⟨chain, h⟩ => ⟨_, h⟩, ?_⟩
      rintro ⟨cause, h⟩
      obtain ⟨chain, rfl, -⟩ := writePaths_eq_error h
      exact ⟨chain, h⟩
    rw [hcause, exists_writePaths_eq_error_iff, LoopAwaits, hg.openChild_eq]
    simp only [hg.hasPath_eq_false, true_and]
  have hfound : ∀ n ∈ candidates, ∀ m, g.LoopAbove v n m → ¬g.Forks v n m →
      ∃ chain, g.writePaths v rule base candidates = .error (.cyclicHierarchy rule chain) := by
    intro n hn m hloop hfork
    exact hfails.2 (.inr ⟨n, hn, not_awaitsPath_of_not_forks hfork hloop hg,
      climbsForever_of_not_forks hfork hloop⟩)
  refine ⟨hfails, fun n hn m hloop => ?_, fun hparents n hn m hloop => ?_⟩
  · exact or_iff_not_imp_right.2 (hfound n hn m hloop)
  · exact hfound n hn m hloop hparents.not_forks

/-- The pump and its valve stand above each other. -/
theorem loopAbove_sensor :
    Plant.forkedGraph.LoopAbove Plant.engine.vocabulary Plant.sensor Plant.pump := by
  have hsensor : Plant.forkedGraph.IsChild Plant.engine.vocabulary Plant.sensor Plant.pump :=
    (contains_iff ..).1 (by decide +kernel)
  have hpump : Plant.forkedGraph.IsChild Plant.engine.vocabulary Plant.pump Plant.valve :=
    (contains_iff ..).1 (by decide +kernel)
  have hvalve : Plant.forkedGraph.IsChild Plant.engine.vocabulary Plant.valve Plant.pump :=
    (contains_iff ..).1 (by decide +kernel)
  exact ⟨.single hsensor, .tail (.single hpump) hvalve⟩

/-- The sensor is the fork: its first parent, the line, is a root and no candidate, so the pass ends
there without a path. -/
theorem writePaths_sensor :
    (Plant.forkedGraph.writePaths Plant.engine.vocabulary "lines" "/plant" [Plant.sensor]).map
        (·.1.written) = .ok 0 := by
  decide +kernel

theorem writePaths_misses_loop_above_sensor :
    Plant.forkedGraph.Pathless Plant.engine.vocabulary ∧
      Plant.forkedGraph.LoopAbove Plant.engine.vocabulary Plant.sensor Plant.pump ∧
      Plant.forkedGraph.Forks Plant.engine.vocabulary Plant.sensor Plant.pump := by
  have hg : Plant.forkedGraph.Pathless Plant.engine.vocabulary := by decide +kernel
  obtain ⟨-, hmissed, -⟩ := @writePaths_misses_loops_at_forks Plant.forkedGraph
    Plant.engine.vocabulary "lines" "/plant" [Plant.sensor] hg
  refine ⟨hg, loopAbove_sensor, ?_⟩
  refine (hmissed _ (List.mem_singleton_self _) _ loopAbove_sensor).resolve_left ?_
  rintro ⟨chain, h⟩
  have hwritten := writePaths_sensor
  rw [h] at hwritten
  cases hwritten

/-- So a loop above a candidate is not always found. -/
theorem writePaths_misses_loop_above_second_parent :
    ¬∀ (g : Graph) (v : Vocabulary) (rule base : String) (candidates : List Node),
      g.Pathless v → ∀ n ∈ candidates, ∀ m, g.LoopAbove v n m →
        ∃ chain, g.writePaths v rule base candidates = .error (.cyclicHierarchy rule chain) := by
  intro h
  obtain ⟨chain, herror⟩ := h Plant.forkedGraph Plant.engine.vocabulary "lines" "/plant"
    [Plant.sensor] (by decide +kernel) _ (List.mem_singleton_self _) _ loopAbove_sensor
  have hwritten := writePaths_sensor
  rw [herror] at hwritten
  cases hwritten

end Graph

end FactHierarchy
