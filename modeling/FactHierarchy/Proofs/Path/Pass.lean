import FactHierarchy.Proofs.Graph.SameOff

/-!
# What a path pass does

`Graph.PathPass` says everything about a path pass that succeeds: its visits explore the hierarchy
below the roots among the candidates, no candidate that is left without a path stands below a
loop, and a path fact for every node entered is added behind all other facts. A path pass that
fails names a chain that runs into itself or a loop of first parents
(`Graph.writePaths_eq_error`).

A path pass changes nothing but paths (`Graph.PathPass.sameOff`). Which objects have a path
afterwards, and which path it is, is said by `Graph.PathPass.hasPath_iff` and
`Graph.PathPass.objects_objectPath`.
-/

set_option autoImplicit false

namespace FactHierarchy.Graph

variable {g g' : Graph} {v : Vocabulary} {rule base : String} {candidates : List Node}
  {visits : List Visit} {n : Node}

/-- **What a path pass that succeeds does.** -/
structure PathPass (v : Vocabulary) (base : String) (candidates : List Node) (visits : List Visit)
    (g g' : Graph) : Prop where
  explored : (g.hierarchy v).Explored (g.hasPath v) (g.roots v candidates) visits
  ascends : ∀ n ∈ candidates,
    Entered visits n ∨ g.hasPath v n = true ∨ Acc (g.hierarchy v).FirstParent n
  eq_extend : g' = g.extend ((visits.filter Visit.entered).map (g.pathFactOf v base))

/-! ## The outcome of a pass -/

theorem unreachedLoop?_eq_none_iff {planned : List Node} :
    g.unreachedLoop? v planned candidates = none ↔
      ∀ n ∈ candidates, n ∈ planned ∨ g.hasPath v n = true ∨ Acc (g.hierarchy v).FirstParent n := by
  rw [unreachedLoop?, List.findSome?_eq_none_iff]
  refine forall_congr' fun n => imp_congr_right fun _ => ?_
  rw [← Hierarchy.loopAbove?_eq_none_iff]
  by_cases hplanned : n ∈ planned <;> by_cases hpath : g.hasPath v n = true <;>
    simp [hplanned, hpath]

theorem isLoop_of_unreachedLoop? {planned loop : List Node}
    (h : g.unreachedLoop? v planned candidates = some loop) :
    (g.hierarchy v).IsLoop loop ∧ ∃ n ∈ candidates, g.hasPath v n = false ∧
      ¬Acc (g.hierarchy v).FirstParent n := by
  obtain ⟨n, hn, hloop⟩ := List.exists_of_findSome?_eq_some h
  split at hloop
  · cases hloop
  · next hopen =>
    rw [Bool.or_eq_true, not_or, Bool.not_eq_true (g.hasPath v n)] at hopen
    refine ⟨Hierarchy.isLoop_of_loopAbove? hloop, n, hn, hopen.2, fun hacc => ?_⟩
    rw [Hierarchy.loopAbove?_eq_none_iff.2 hacc] at hloop
    cases hloop

theorem pathPass_of_writePaths {report : PathReport}
    (h : g.writePaths v rule base candidates = .ok (report, g')) :
    ∃ visits, PathPass v base candidates visits g g' ∧
      report = ⟨rule, g.roots v candidates, (enteredNodes visits).length,
        (visits.filter fun visit => !visit.entered).map Visit.node⟩ := by
  rw [writePaths] at h
  split at h
  · cases h
  · next visits hvisits =>
    have hexplored := Hierarchy.explored_of_descend_eq_ok hvisits
    rw [List.partition_eq_filter_filter] at h
    dsimp only at h
    split at h
    · cases h
    · next hloop =>
      obtain ⟨rfl, rfl⟩ := Prod.mk.inj (Except.ok.inj h)
      refine ⟨visits, ⟨hexplored, fun n hn => ?_, ?_⟩, ?_⟩
      · rw [← mem_enteredNodes]
        exact unreachedLoop?_eq_none_iff.1 hloop n hn
      · rfl
      · rw [enteredNodes, List.length_map]
        rfl

/-- **What a path pass that fails has found**: a chain of nodes without a path that runs into
itself, or a loop above a candidate without a path. -/
theorem writePaths_eq_error {cause : RunError}
    (h : g.writePaths v rule base candidates = .error cause) :
    ∃ chain, cause = .cyclicHierarchy rule chain ∧
      ((g.hierarchy v).RunsIntoItself (g.hasPath v) (g.roots v candidates) chain ∨
        (g.hierarchy v).IsLoop chain ∧ ∃ n ∈ candidates, g.hasPath v n = false ∧
          ¬Acc (g.hierarchy v).FirstParent n) := by
  rw [writePaths] at h
  split at h
  · next chain hchain =>
    obtain rfl := Except.error.inj h
    exact ⟨chain, rfl, .inl (Hierarchy.runsIntoItself_of_descend_eq_error hchain)⟩
  · dsimp only at h
    split at h
    · next loop hloop =>
      obtain rfl := Except.error.inj h
      exact ⟨loop, rfl, .inr (isLoop_of_unreachedLoop? hloop)⟩
    · cases h

/-- A path pass fails only where the parent facts contain a loop. -/
theorem exists_loop_of_writePaths_eq_error {cause : RunError}
    (h : g.writePaths v rule base candidates = .error cause) :
    ∃ n, Relation.TransGen (g.IsChild v) n n := by
  obtain ⟨chain, -, hchain | ⟨hloop, -⟩⟩ := writePaths_eq_error h
  · obtain ⟨n, hn⟩ := hchain.exists_loop
    exact ⟨n, Relation.TransGen.mono (fun c p hc => mem_nodesBelow.1 hc) n n hn⟩
  · obtain ⟨n, hn⟩ := hloop.exists_loop
    refine ⟨n, Relation.transGen_swap.1 ?_⟩
    exact Relation.TransGen.mono (fun p c hp => mem_of_objectNode? hp) n n hn

/-! ## The graph after a pass -/

namespace PathPass

variable (hpass : PathPass v base candidates visits g g')
include hpass

/-- The paths are written behind all other facts. -/
theorem toList_eq :
    g'.toList = g.toList ++ (visits.filter Visit.entered).map (g.pathFactOf v base) := by
  have hnodup : ((visits.filter Visit.entered).map (g.pathFactOf v base)).Nodup := by
    refine List.Nodup.of_map Fact.subject ?_
    rw [List.map_map]
    exact hpass.explored.once
  rw [hpass.eq_extend]
  refine toList_extend_of_new hnodup fun f hf hmem => ?_
  -- a path fact that were not new would belong to a node that has a path
  obtain ⟨⟨m, above, entered⟩, hm, rfl⟩ := List.mem_map.1 hf
  obtain ⟨hm, rfl⟩ := List.mem_filter.1 hm
  have hopen : g.hasPath v m = false := hpass.explored.opened m ⟨above, hm⟩
  rw [hasPath, any_about_eq_false_iff] at hopen
  have hpath : _ ∈ g.objects m v.objectPath := mem_objects.2 hmem
  rw [hopen] at hpath
  cases hpath

theorem mem_toList {f : Fact} :
    f ∈ g'.toList ↔ f ∈ g.toList ∨ ∃ n above, ⟨n, above, true⟩ ∈ visits ∧
      f = g.pathFactOf v base ⟨n, above, true⟩ := by
  rw [hpass.toList_eq, List.mem_append, List.mem_map]
  refine or_congr_right ⟨?_, ?_⟩
  · rintro ⟨⟨n, above, entered⟩, hn, rfl⟩
    obtain ⟨hn, rfl⟩ := List.mem_filter.1 hn
    exact ⟨n, above, hn, rfl⟩
  · rintro ⟨n, above, hn, rfl⟩
    exact ⟨_, List.mem_filter.2 ⟨hn, rfl⟩, rfl⟩

/-- **A path pass leaves facts of a kind alone** when the paths that it writes are of other kinds. -/
theorem agree {P : Fact → Bool} (hP : ∀ n t, Entered visits n → P ⟨n, v.objectPath, t⟩ = false) :
    g'.Agree P g := by
  rw [hpass.eq_extend]
  refine agree_extend fun f hf => ?_
  obtain ⟨⟨n, above, entered⟩, hn, rfl⟩ := List.mem_map.1 hf
  obtain ⟨hn, rfl⟩ := List.mem_filter.1 hn
  exact hP n _ ⟨above, hn⟩

theorem rawFacts_eq : g'.rawFacts v = g.rawFacts v :=
  hpass.agree fun _ _ _ => Vocabulary.isRaw_of_mem_predicates (by simp [Vocabulary.predicates])

/-- **A path pass writes nothing but paths.** -/
theorem sameOff : SameOff v.objectPath g g' := by
  intro q hq n
  have hagree : g'.Agree (fun f => decide (f.predicate ≠ v.objectPath)) g :=
    hpass.agree fun _ _ _ => decide_eq_false fun h => h rfl
  exact hagree.objects_eq fun t => decide_eq_true hq

theorem hasPath_iff : g'.hasPath v n = true ↔ g.hasPath v n = true ∨ Entered visits n := by
  simp only [Graph.hasPath_iff, ne_eq, List.eq_nil_iff_forall_not_mem, mem_objects,
    Classical.not_forall, Classical.not_not, hpass.mem_toList]
  constructor
  · rintro ⟨t, ht | ⟨m, above, hm, heq⟩⟩
    · exact .inl ⟨t, ht⟩
    · obtain rfl : n = m := congrArg Fact.subject heq
      exact .inr ⟨above, hm⟩
  · rintro (⟨t, ht⟩ | ⟨above, hn⟩)
    · exact ⟨t, .inl ht⟩
    · exact ⟨_, .inr ⟨n, above, hn, rfl⟩⟩

theorem above_unique {above above' : List Node} (h : ⟨n, above, true⟩ ∈ visits)
    (h' : ⟨n, above', true⟩ ∈ visits) : above = above' := by
  have heq := List.inj_on_of_nodup_map hpass.explored.once
    (List.mem_filter.2 ⟨h, rfl⟩) (List.mem_filter.2 ⟨h', rfl⟩) rfl
  exact congrArg Visit.above heq

/-- **The one path of a node that is entered** is its name below the chain above it. -/
theorem objects_objectPath {above : List Node} (hn : ⟨n, above, true⟩ ∈ visits) :
    g'.objects n v.objectPath = [.literal (.string (pathBelow base (g.nameOf v) n above))] := by
  refine objects_eq_singleton fun t => ?_
  rw [hpass.mem_toList]
  constructor
  · rintro (hold | ⟨m, above', hm, heq⟩)
    · have hopen : g.hasPath v n = false := hpass.explored.opened n ⟨above, hn⟩
      rw [hasPath, any_about_eq_false_iff] at hopen
      rw [← mem_objects, hopen] at hold
      cases hold
    · obtain rfl : n = m := congrArg Fact.subject heq
      rw [hpass.above_unique hn hm]
      exact congrArg Fact.object heq
  · rintro rfl
    exact .inr ⟨n, above, hn, rfl⟩

/-- A node that has a path keeps the paths that it has. -/
theorem objects_objectPath_of_hasPath (hn : g.hasPath v n = true) :
    g'.objects n v.objectPath = g.objects n v.objectPath := by
  have hagree : g'.Agree (fun f => decide (f.subject = n)) g := by
    refine hpass.agree fun m _ hm => decide_eq_false ?_
    rintro rfl
    have hopen : g.hasPath v m = false := hpass.explored.opened m hm
    rw [hn] at hopen
    cases hopen
  exact hagree.objects_eq fun t => decide_eq_true rfl

end PathPass

end FactHierarchy.Graph
