import FactHierarchy.Proofs.Hierarchy.Reach
import FactHierarchy.Proofs.Path.Plan
import FactHierarchy.Proofs.Run.FromScratch

/-!
# The outcome of a path pass

A node *awaits a path* when a way leads down to it from a root among the candidates, and neither
the root nor any other node on this way has a path (`Graph.AwaitsPath`). A path pass that succeeds
gives one path to each node that awaits one, and does nothing else (`Graph.writePaths_serves`).

There are two loops for which a path pass fails (`Graph.writePaths_fails_iff`). One is a loop of
nodes that await a path. The other one is looked for only where the first one is absent: a loop of
first parents above a candidate that has no path and awaits none.
-/

set_option autoImplicit false

namespace FactHierarchy

/-! ## A plant with a new line

The old line has a path, and a valve below it. Both lines have the sensor. The gasket is a part of
the new line and a part of the sensor. -/

namespace Plant

def valve : Node := .iri "urn:plant#valve"

def gasket : Node := .iri "urn:plant#gasket"

def newLineGraph : Graph :=
  let v := engine.vocabulary
  .ofList
    [v.markerFact line1, v.nameFact line1 "line1", v.markerFact line2, v.nameFact line2 "line2",
      v.pathFact line2 "/plant/line2", v.nameFact sensor "sensor", v.parentFact sensor line2,
      v.parentFact sensor line1, v.parentFact valve line2, v.parentFact gasket line1,
      v.parentFact gasket sensor]

def candidates : List Node := [line1, line2, line1, sensor]

end Plant

namespace Graph

variable {g g' : Graph} {v : Vocabulary} {rule base : String} {candidates : List Node}
  {visits : List Visit} {n : Node}

/-! ## What awaits a path -/

/-- The first node has a parent fact to the second one, and no path. -/
def OpenChild (g : Graph) (v : Vocabulary) (c p : Node) : Prop :=
  g.IsChild v c p ∧ g.hasPath v c = false

/-- **The node awaits a path**: it is a candidate without a parent and without a path that is a
hierarchy object, or a way leads down to it from one, over children without a path. -/
def AwaitsPath (g : Graph) (v : Vocabulary) (candidates : List Node) (n : Node) : Prop :=
  ∃ r ∈ candidates, v.markerFact r ∈ g.toList ∧ g.hasParent v r = false ∧
    g.hasPath v r = false ∧ Relation.ReflTransGen (g.OpenChild v) n r

theorem openBelow_eq : (g.hierarchy v).OpenBelow (g.hasPath v) = g.OpenChild v :=
  funext fun _ => funext fun _ => propext (and_congr_left fun _ => mem_nodesBelow)

/-- What awaits a path is what a descent from the roots among the candidates reaches. -/
theorem reached_iff_awaitsPath :
    (g.hierarchy v).Reached (g.hasPath v) (g.roots v candidates) n ↔
      g.AwaitsPath v candidates n := by
  simp only [Hierarchy.Reached, openBelow_eq, mem_roots, and_assoc, AwaitsPath]

theorem PathPass.entered_iff (hpass : PathPass v base candidates visits g g') :
    Entered visits n ↔ g.AwaitsPath v candidates n :=
  hpass.explored.entered_iff.trans reached_iff_awaitsPath

/-! ## Success -/

/-- A node that is entered as a root has its name below the base path. Any other one has its name
below the path of the parent from which it is entered. -/
theorem PathPass.valueText_eq (hpass : PathPass v base candidates visits g g')
    {above : List Node} (hn : ⟨n, above, true⟩ ∈ visits) :
    (g.hasParent v n = false →
      g'.valueText n v.objectPath = appendSegment base (g.nameOf v n)) ∧
    (g.hasParent v n = true →
      ∃ p, Entered visits p ∧ g.IsChild v n p ∧
        g'.valueText n v.objectPath =
          appendSegment (g'.valueText p v.objectPath) (g.nameOf v n)) := by
  have hpath := valueText_of_objects (hpass.objects_objectPath hn)
  have horigin := hpass.explored.origin _ hn
  cases above with
  | nil =>
      obtain ⟨-, -, hroot⟩ := mem_roots.1 horigin
      refine ⟨fun _ => hpath, fun hparent => ?_⟩
      rw [hroot] at hparent
      cases hparent
  | cons p above =>
      obtain ⟨hp, hbelow⟩ := horigin
      have hchild : g.IsChild v n p := mem_nodesBelow.1 hbelow
      refine ⟨fun hroot => ?_, fun _ => ⟨p, ⟨above, hp⟩, hchild, ?_⟩⟩
      · rw [hchild.hasParent] at hroot
        cases hroot
      · rw [valueText_of_objects (hpass.objects_objectPath hp)]
        exact hpath

/-- The facts that a pass adds, in terms of the paths that are there afterwards. -/
theorem PathPass.toList_eq_map (hpass : PathPass v base candidates visits g g') :
    g'.toList = g.toList ++
      (enteredNodes visits).map fun n => v.pathFact n (g'.valueText n v.objectPath) := by
  rw [hpass.toList_eq, enteredNodes, List.map_map]
  congr 1
  refine List.map_congr_left fun visit hvisit => ?_
  obtain ⟨n, above, entered⟩ := visit
  obtain ⟨hn, rfl⟩ := List.mem_filter.1 hvisit
  have hpath := valueText_of_objects (hpass.objects_objectPath hn)
  exact congrArg (v.pathFact n) hpath.symm

/-- **A path pass that succeeds serves the nodes that await a path**, each of them once, and changes
nothing else. A root gets its name below the base path, and any other node its name below the path
that one of its parents gets in the same pass. -/
theorem writePaths_serves {report : PathReport}
    (h : g.writePaths v rule base candidates = .ok (report, g')) :
    ∃ served : List Node,
      served.Nodup ∧ (∀ n, n ∈ served ↔ g.AwaitsPath v candidates n) ∧
      report.written = served.length ∧
      g'.toList =
        g.toList ++ served.map (fun n => v.pathFact n (g'.valueText n v.objectPath)) ∧
      ∀ n ∈ served, g.objects n v.objectPath = [] ∧
        g'.objects n v.objectPath = [.literal (.string (g'.valueText n v.objectPath))] ∧
        (g.hasParent v n = false →
          g'.valueText n v.objectPath = appendSegment base (g.nameOf v n)) ∧
        (g.hasParent v n = true → ∃ p ∈ served, g.IsChild v n p ∧
          g'.valueText n v.objectPath =
            appendSegment (g'.valueText p v.objectPath) (g.nameOf v n)) := by
  obtain ⟨visits, hpass, rfl⟩ := pathPass_of_writePaths h
  refine ⟨enteredNodes visits, hpass.explored.once, fun n => ?_, rfl, hpass.toList_eq_map, ?_⟩
  · rw [mem_enteredNodes]
    exact hpass.entered_iff
  · intro n hn
    obtain ⟨above, hvisit⟩ := mem_enteredNodes.1 hn
    have hopen : g.hasPath v n = false := hpass.explored.opened n ⟨above, hvisit⟩
    have hobjects := hpass.objects_objectPath hvisit
    obtain ⟨hroot, hchild⟩ := hpass.valueText_eq hvisit
    refine ⟨any_about_eq_false_iff.1 hopen, ?_, hroot, fun hparent => ?_⟩
    · rw [valueText_of_objects hobjects]
      exact hobjects
    · obtain ⟨p, hp, hbelow⟩ := hchild hparent
      exact ⟨p, mem_enteredNodes.2 hp, hbelow⟩

/-- In the plant with a new line, that line, the sensor and the gasket are served. The valve is not,
because the only way to it leads through the old line. -/
theorem writePaths_serves_new_line : ∃ report g', ∃ served : List Node,
    Plant.newLineGraph.writePaths Plant.engine.vocabulary "lines" "/plant" Plant.candidates =
      .ok (report, g') ∧
    report.written = 3 ∧ g'.hasPath Plant.engine.vocabulary Plant.valve = false ∧
    report.written = served.length ∧
    (∀ n, n ∈ served ↔
      Plant.newLineGraph.AwaitsPath Plant.engine.vocabulary Plant.candidates n) ∧
    g'.toList = Plant.newLineGraph.toList ++ served.map fun n =>
      Plant.engine.vocabulary.pathFact n
        (g'.valueText n Plant.engine.vocabulary.objectPath) := by
  have hend : ((Plant.newLineGraph.writePaths Plant.engine.vocabulary "lines" "/plant"
      Plant.candidates).toOption.any fun result => result.1.written == 3 &&
        !result.2.hasPath Plant.engine.vocabulary Plant.valve) = true := by decide +kernel
  obtain ⟨⟨report, g'⟩, hpass, hend⟩ := exists_eq_ok_of_any hend
  obtain ⟨hwritten, hvalve⟩ := Bool.and_eq_true_iff.1 hend
  rw [Bool.not_eq_true'] at hvalve
  obtain ⟨served, -, hserved, hlength, hfacts, -⟩ := writePaths_serves hpass
  exact ⟨report, g', served, hpass, eq_of_beq hwritten, hvalve, hlength,
    hserved, hfacts⟩

/-! ## Failure -/

/-- **A loop awaits paths**: a node that awaits a path stands below itself, over children without a
path. -/
def LoopAwaits (g : Graph) (v : Vocabulary) (candidates : List Node) : Prop :=
  ∃ n, g.AwaitsPath v candidates n ∧ Relation.TransGen (g.OpenChild v) n n

/-- **The way up from the node runs into a loop**: it follows the first parent of each node, and
comes to a node that it has come to before. -/
def ClimbsForever (g : Graph) (v : Vocabulary) (n : Node) : Prop :=
  ∃ m, Relation.ReflTransGen (g.hierarchy v).FirstParent m n ∧
    Relation.TransGen (g.hierarchy v).FirstParent m m

theorem pathVisits_eq_error_iff :
    (∃ chain, g.pathVisits v (g.roots v candidates) = .error chain) ↔
      g.LoopAwaits v candidates := by
  refine Hierarchy.descend_eq_error_iff.trans (exists_congr fun n => ?_)
  rw [reached_iff_awaitsPath, openBelow_eq]

/-- A loop is found above a candidate that has no path and awaits none. -/
theorem unreachedLoop?_eq_some_iff
    (hvisits : g.pathVisits v (g.roots v candidates) = .ok visits) :
    (∃ loop, g.unreachedLoop? v (enteredNodes visits) candidates = some loop) ↔
      ∃ n ∈ candidates, g.hasPath v n = false ∧ ¬g.AwaitsPath v candidates n ∧
        g.ClimbsForever v n := by
  have hexplored := Hierarchy.explored_of_descend_eq_ok hvisits
  rw [← Option.isSome_iff_exists, Option.isSome_iff_ne_none, ne_eq, unreachedLoop?_eq_none_iff]
  push Not
  refine exists_congr fun n => and_congr_right fun _ => ?_
  rw [mem_enteredNodes, hexplored.entered_iff, reached_iff_awaitsPath, ne_eq, Bool.not_eq_true,
    Hierarchy.not_acc_firstParent_iff]
  exact and_left_comm

/-- **What a path pass fails for**: the descent fails, or it ends and there is a loop above a
candidate that it has not come to. -/
theorem writePaths_eq_error_iff {cause : RunError} :
    g.writePaths v rule base candidates = .error cause ↔
      ∃ chain, cause = .cyclicHierarchy rule chain ∧
        (g.pathVisits v (g.roots v candidates) = .error chain ∨
          ∃ visits, g.pathVisits v (g.roots v candidates) = .ok visits ∧
            g.unreachedLoop? v (enteredNodes visits) candidates = some chain) := by
  rw [writePaths_eq_plan, pathPlan]
  cases g.pathVisits v (g.roots v candidates) with
  | error chain =>
      constructor
      · intro h
        exact ⟨chain, (Except.error.inj h).symm, .inl rfl⟩
      · rintro ⟨chain', rfl, hchain | ⟨_, hok, -⟩⟩
        · obtain rfl := Except.error.inj hchain
          rfl
        · cases hok
  | ok visits =>
      dsimp only
      constructor
      · intro h
        cases hloop : g.unreachedLoop? v (enteredNodes visits) candidates with
        | none =>
            rw [hloop] at h
            cases h
        | some loop =>
            rw [hloop] at h
            exact ⟨loop, (Except.error.inj h).symm, .inr ⟨visits, rfl, hloop⟩⟩
      · rintro ⟨loop, rfl, hchain | ⟨_, hok, hloop⟩⟩
        · cases hchain
        · obtain rfl := Except.ok.inj hok
          rw [hloop]
          rfl

/-- Whether a path pass fails is decided by the loops alone. -/
theorem exists_writePaths_eq_error_iff :
    (∃ cause, g.writePaths v rule base candidates = .error cause) ↔
      g.LoopAwaits v candidates ∨ ∃ n ∈ candidates, g.hasPath v n = false ∧
        ¬g.AwaitsPath v candidates n ∧ g.ClimbsForever v n := by
  simp only [writePaths_eq_error_iff]
  rw [← pathVisits_eq_error_iff]
  constructor
  · rintro ⟨_, chain, rfl, hchain | ⟨visits, hvisits, hloop⟩⟩
    · exact .inl ⟨chain, hchain⟩
    · exact .inr ((unreachedLoop?_eq_some_iff hvisits).1 ⟨chain, hloop⟩)
  · rintro (⟨chain, hchain⟩ | habove)
    · exact ⟨_, chain, rfl, .inl hchain⟩
    · cases hvisits : g.pathVisits v (g.roots v candidates) with
      | error chain => exact ⟨_, chain, rfl, .inl rfl⟩
      | ok visits =>
          obtain ⟨loop, hloop⟩ := (unreachedLoop?_eq_some_iff hvisits).2 habove
          exact ⟨_, loop, rfl, .inr ⟨visits, rfl, hloop⟩⟩

/-- **A path pass fails exactly for two kinds of loop**, and the chain that it names is such a loop.
The first kind is a loop of nodes that await a path, and the chain leads down from a root and runs
into itself. Where there is none, the second kind is a loop of first parents above a candidate that
has no path and awaits none, and the chain leads once round. -/
theorem writePaths_fails_iff (g : Graph) (v : Vocabulary) (rule base : String)
    (candidates : List Node) :
    ((∃ cause, g.writePaths v rule base candidates = .error cause) ↔
      g.LoopAwaits v candidates ∨ (¬g.LoopAwaits v candidates ∧
        ∃ n ∈ candidates, g.hasPath v n = false ∧ ¬g.AwaitsPath v candidates n ∧
          g.ClimbsForever v n)) ∧
    ∀ cause, g.writePaths v rule base candidates = .error cause →
      ∃ chain, cause = .cyclicHierarchy rule chain ∧
        (g.LoopAwaits v candidates →
          (g.hierarchy v).RunsIntoItself (g.hasPath v) (g.roots v candidates) chain) ∧
        (¬g.LoopAwaits v candidates → (g.hierarchy v).IsLoop chain) := by
  simp only [writePaths_eq_error_iff]
  have hdescent : (∃ chain, g.pathVisits v (g.roots v candidates) = .error chain) ↔
      g.LoopAwaits v candidates := pathVisits_eq_error_iff
  cases hvisits : g.pathVisits v (g.roots v candidates) with
  | error chain =>
      rw [hvisits] at hdescent
      have hloop : g.LoopAwaits v candidates := hdescent.1 ⟨chain, rfl⟩
      refine ⟨⟨fun _ => .inl hloop, fun _ => ⟨_, chain, rfl, .inl rfl⟩⟩, ?_⟩
      rintro cause ⟨chain', rfl, hchain | ⟨visits, hok, -⟩⟩
      · obtain rfl := Except.error.inj hchain
        exact ⟨chain, rfl, fun _ => Hierarchy.runsIntoItself_of_descend_eq_error hvisits,
          fun hnone => absurd hloop hnone⟩
      · cases hok
  | ok visits =>
      have hnone : ¬g.LoopAwaits v candidates := by
        intro hloop
        obtain ⟨chain, hchain⟩ := hdescent.2 hloop
        rw [hvisits] at hchain
        cases hchain
      rw [← unreachedLoop?_eq_some_iff hvisits]
      refine ⟨⟨?_, ?_⟩, ?_⟩
      · rintro ⟨cause, chain, rfl, hchain | ⟨visits', hok, hloop⟩⟩
        · cases hchain
        · obtain rfl := Except.ok.inj hok
          exact .inr ⟨hnone, chain, hloop⟩
      · rintro (hloop | ⟨-, loop, hloop⟩)
        · exact absurd hloop hnone
        · exact ⟨_, loop, rfl, .inr ⟨visits, rfl, hloop⟩⟩
      · rintro cause ⟨chain, rfl, hchain | ⟨visits', hok, hloop⟩⟩
        · cases hchain
        · obtain rfl := Except.ok.inj hok
          exact ⟨chain, rfl, fun hawaits => absurd hawaits hnone,
            fun _ => (isLoop_of_unreachedLoop? hloop).1⟩

-- The sensor and its gasket are parts of each other, and the new line awaits a path.
example : (Graph.writePaths (Plant.newLineGraph.put (Plant.engine.vocabulary.parentFact
    Plant.sensor Plant.gasket)) Plant.engine.vocabulary "lines" "/plant"
      Plant.candidates).isOk = false := by
  decide +kernel

-- The two lines are parts of each other, so there is no root, and the new line awaits no path.
example : (Graph.writePaths ((Plant.newLineGraph.put (Plant.engine.vocabulary.parentFact
    Plant.line1 Plant.line2)).put (Plant.engine.vocabulary.parentFact Plant.line2 Plant.line1))
      Plant.engine.vocabulary "lines" "/plant" Plant.candidates).isOk = false := by
  decide +kernel

end Graph

end FactHierarchy
