import FactHierarchy.Proofs.Hierarchy.Alike
import FactHierarchy.Proofs.Path.Pass

/-!
# Path passes that are planned beforehand

A path pass decides what it writes before it writes anything. Its plan is a report together with
the path facts, or the failure of the pass (`Graph.pathPlan`), and the pass adds these facts to
the graph (`Graph.writePaths_eq_plan`).

The plan depends on what the graph says about the candidates and the nodes below and above them.
Graphs that look alike on a set of nodes which no parent fact leaves (`Graph.Alike`) have the same
plans for candidates in the set (`Graph.Alike.pathPlan_eq`), and all facts of such a plan are about
nodes of the set (`Graph.Alike.of_mem_pathPlan`).
-/

set_option autoImplicit false

namespace FactHierarchy.Graph

variable {g g' g'' : Graph} {v : Vocabulary} {rule base : String} {candidates : List Node}
  {T : Node → Prop}

/-! ## Plans -/

/-- **The plan of a path pass**: its report and the facts that it adds. -/
def pathPlan (g : Graph) (v : Vocabulary) (rule base : String) (candidates : List Node) :
    Except RunError (PathReport × List Fact) :=
  match g.pathVisits v (g.roots v candidates) with
  | .error chain => .error (.cyclicHierarchy rule chain)
  | .ok visits =>
    match g.unreachedLoop? v (enteredNodes visits) candidates with
    | some loop => .error (.cyclicHierarchy rule loop)
    | none =>
      .ok (⟨rule, g.roots v candidates, (enteredNodes visits).length,
          (visits.filter fun visit => !visit.entered).map Visit.node⟩,
        (visits.filter Visit.entered).map (g.pathFactOf v base))

/-- **A path pass does what its plan says.** -/
theorem writePaths_eq_plan :
    g.writePaths v rule base candidates =
      (g.pathPlan v rule base candidates).map fun plan => (plan.1, g.extend plan.2) := by
  rw [writePaths, pathPlan]
  cases g.pathVisits v (g.roots v candidates) with
  | error chain => rfl
  | ok visits =>
      dsimp only
      rw [List.partition_eq_filter_filter]
      dsimp only
      rw [← enteredNodes]
      cases g.unreachedLoop? v (enteredNodes visits) candidates with
      | some loop => rfl
      | none =>
          rw [enteredNodes, List.length_map]
          rfl

/-- What a plan that succeeds consists of. -/
theorem exists_of_pathPlan_eq_ok {report : PathReport} {facts : List Fact}
    (h : g.pathPlan v rule base candidates = .ok (report, facts)) :
    ∃ visits, (g.hierarchy v).Explored (g.hasPath v) (g.roots v candidates) visits ∧
      facts = (visits.filter Visit.entered).map (g.pathFactOf v base) := by
  rw [pathPlan] at h
  split at h
  · cases h
  · next visits hvisits =>
    split at h
    · cases h
    · cases h
      exact ⟨visits, Hierarchy.explored_of_descend_eq_ok hvisits, rfl⟩

/-! ## What a plan depends on -/

/-- **The graphs look alike on a set of nodes**, as far as paths are concerned, and no parent fact
leads out of it. -/
structure Alike (v : Vocabulary) (T : Node → Prop) (g g' : Graph) : Prop where
  isObject_eq : ∀ n, T n → g.isObject v n = g'.isObject v n
  objects_eq : ∀ n, T n → ∀ q ∈ [v.objectName, v.objectPath, v.parentRef],
    g.objects n q = g'.objects n q
  nodesBelow_eq : ∀ n, T n → g.nodesBelow v n = g'.nodesBelow v n
  of_isChild : ∀ c p, g.IsChild v c p → (T c ↔ T p)

/-- **Graphs that agree about the markers, names, paths and parents of a set of nodes look alike
on it**, if no parent fact of either leaves it. -/
theorem Agree.alike {P : Fact → Bool} (h : g.Agree P g')
    (hmarker : ∀ n, T n → P (v.markerFact n) = true)
    (hP : ∀ n, T n → ∀ q ∈ [v.objectName, v.objectPath, v.parentRef], ∀ t, P ⟨n, q, t⟩ = true)
    (hg : ∀ c p, g.IsChild v c p → (T c ↔ T p)) (hg' : ∀ c p, g'.IsChild v c p → (T c ↔ T p)) :
    g.Alike v T g' where
  isObject_eq n hn := by
    rw [Bool.eq_iff_iff, isObject_iff, isObject_iff, h.mem_iff (hmarker n hn)]
  objects_eq n hn q hq := h.objects_eq (hP n hn q hq)
  nodesBelow_eq p hp := by
    have hchild : ∀ k : Graph, (∀ c p, k.IsChild v c p → (T c ↔ T p)) → ∀ f ∈ k.toList,
        (Pattern.having v.parentRef (.node p)).fits f = true → P f = true := by
      intro k hk f hf hfits
      obtain ⟨c, q, t⟩ := f
      obtain ⟨rfl, rfl⟩ := Pattern.fits_having.1 hfits
      exact hP c ((hk c p hf).2 hp) _ (by simp) _
    rw [nodesBelow, nodesBelow, subjects, subjects, h.filter_eq (hchild g hg) (hchild g' hg')]
  of_isChild := hg

/-- **Paths of nodes outside a set do not change how a graph looks on it.** -/
theorem alike_extend {facts : List Fact} (hv : v.Distinct)
    (hg : ∀ c p, g.IsChild v c p → (T c ↔ T p))
    (hfacts : ∀ f ∈ facts, ¬T f.subject ∧ f.predicate = v.objectPath) :
    (g.extend facts).Alike v T g := by
  classical
  have hagree : (g.extend facts).Agree
      (fun f => decide (T f.subject ∨ f.predicate ≠ v.objectPath)) g := by
    refine agree_extend fun f hf => decide_eq_false ?_
    rw [not_or, Classical.not_not]
    exact hfacts f hf
  refine hagree.alike (fun n hn => decide_eq_true (.inl hn))
    (fun n hn _ _ t => decide_eq_true (.inl hn)) (fun c p hc => ?_) hg
  refine hg c p ((hagree.mem_iff (decide_eq_true (.inr ?_))).1 hc)
  exact hv.ne_objectPath (by simp [Vocabulary.parentFact])

theorem forall_mem_roots (hT : ∀ n ∈ candidates, T n) : ∀ n ∈ g.roots v candidates, T n :=
  fun n hn => hT n (mem_roots.1 hn).1

namespace Alike

variable (h : Alike v T g g')
include h

theorem hasPath_eq {n : Node} (hn : T n) : g.hasPath v n = g'.hasPath v n := by
  rw [Bool.eq_iff_iff, hasPath_iff, hasPath_iff, h.objects_eq n hn _ (by simp)]

theorem hierarchy_alike : (g.hierarchy v).Alike T (g'.hierarchy v) where
  below_eq := h.nodesBelow_eq
  parent?_eq n hn := objectNode?_congr (h.objects_eq n hn _ (by simp))
  of_mem_below n hn c hc := (h.of_isChild c n (mem_nodesBelow.1 hc)).2 hn
  of_parent? n hn p hp := (h.of_isChild n p (mem_of_objectNode? hp)).1 hn

/-- The names above a node in the set are the same, so its path is. -/
theorem pathBelow_eq {n : Node} {above : List Node} (hT : ∀ m ∈ n :: above, T m) :
    pathBelow base (g.nameOf v) n above = pathBelow base (g'.nameOf v) n above := by
  have hname : ∀ m, T m → g.nameOf v m = g'.nameOf v m :=
    fun m hm => valueText_congr (h.objects_eq m hm _ (by simp))
  induction above generalizing n with
  | nil => rw [pathBelow, pathBelow, hname n (hT n (List.mem_cons_self ..))]
  | cons p above ih =>
      obtain ⟨hn, hT⟩ := List.forall_mem_cons.1 hT
      rw [pathBelow, pathBelow, ih hT, hname n hn]

variable (hT : ∀ n ∈ candidates, T n)
include hT

theorem roots_eq : g.roots v candidates = g'.roots v candidates := by
  refine List.filter_congr fun n hn => ?_
  have hn : T n := hT n (List.mem_eraseDups.1 hn)
  have hparent : g.hasParent v n = g'.hasParent v n := by
    rw [hasParent, hasParent, Bool.eq_iff_iff, any_about_iff, any_about_iff,
      h.objects_eq n hn _ (by simp)]
  rw [h.isObject_eq n hn, hparent]

theorem unreachedLoop?_eq {planned : List Node} :
    g.unreachedLoop? v planned candidates = g'.unreachedLoop? v planned candidates := by
  rw [unreachedLoop?, unreachedLoop?]
  induction candidates with
  | nil => rfl
  | cons n candidates ih =>
      obtain ⟨hn, hT⟩ := List.forall_mem_cons.1 hT
      rw [List.findSome?_cons, List.findSome?_cons, ih hT, h.hasPath_eq hn,
        h.hierarchy_alike.loopAbove?_eq hn]

/-- **Plans for candidates in the set are the same.** -/
theorem pathPlan_eq :
    g.pathPlan v rule base candidates = g'.pathPlan v rule base candidates := by
  have hvisits : g.pathVisits v (g.roots v candidates) =
      g'.pathVisits v (g'.roots v candidates) := by
    rw [← h.roots_eq hT]
    exact h.hierarchy_alike.descend_eq (fun n hn => h.hasPath_eq hn) (forall_mem_roots hT)
  rw [pathPlan, pathPlan, ← hvisits, ← h.roots_eq hT]
  split
  · rfl
  · next visits hok =>
    rw [← h.unreachedLoop?_eq hT]
    split
    · rfl
    · have hexplored := Hierarchy.explored_of_descend_eq_ok hok
      have hfacts : (visits.filter Visit.entered).map (g.pathFactOf v base) =
          (visits.filter Visit.entered).map (g'.pathFactOf v base) := by
        refine List.map_congr_left fun visit hvisit => ?_
        obtain ⟨n, above, entered⟩ := visit
        obtain ⟨hvisit, rfl⟩ := List.mem_filter.1 hvisit
        have hchain := h.hierarchy_alike.of_mem_chain (forall_mem_roots hT) hexplored hvisit
        rw [pathFactOf, pathFactOf, h.pathBelow_eq hchain]
      rw [hfacts]

/-- The facts of a plan are paths of nodes in the set. -/
theorem of_mem_pathPlan {report : PathReport} {facts : List Fact} {f : Fact}
    (hplan : g.pathPlan v rule base candidates = .ok (report, facts)) (hf : f ∈ facts) :
    T f.subject ∧ f.predicate = v.objectPath := by
  obtain ⟨visits, hexplored, rfl⟩ := exists_of_pathPlan_eq_ok hplan
  obtain ⟨⟨n, above, entered⟩, hvisit, rfl⟩ := List.mem_map.1 hf
  obtain ⟨hvisit, rfl⟩ := List.mem_filter.1 hvisit
  have hchain := h.hierarchy_alike.of_mem_chain (forall_mem_roots hT) hexplored hvisit
  exact ⟨hchain n (List.mem_cons_self ..), rfl⟩

end Alike

end FactHierarchy.Graph
