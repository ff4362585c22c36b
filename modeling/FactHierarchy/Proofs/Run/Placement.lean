import FactHierarchy.Proofs.Annotation.Orderly
import FactHierarchy.Proofs.Hierarchy.Reach
import FactHierarchy.Proofs.Run.Passes

/-!
# Where path passes place objects

While the path passes of a run go on, the objects that have a path form a part of the hierarchy
that is closed downwards, holds no loop and is placed as it should be (`Graph.Placed`): each root
has its name below the base path of the first rule that enrolled it, and each other object has its
name below the path of one of its parents.

At the end no object is left out (`Graph.Placed.hasPath_of_mem`). An object without a path would
have a first parent without a path, and so on for ever, but then the pass of the rule that
enrolled it would have reported the loop above it.
-/

set_option autoImplicit false

namespace FactHierarchy.Graph

variable {v : Vocabulary} {ga g g' : Graph} {done : List (Rule × AnnotationReport)} {n : Node}

/-! ## Places -/

/-- **The node has one path, and that is where it belongs**: a root belongs below the base path of
the first rule that enrolled it, any other node below one of its parents. -/
structure HasPlace (v : Vocabulary) (done : List (Rule × AnnotationReport)) (g : Graph) (n : Node)
    (path : String) : Prop where
  objects_eq : g.objects n v.objectPath = [.literal (.string path)]
  root : g.hasParent v n = false → ∃ x, done.find? (fun x => n ∈ x.2.processed) = some x ∧
    path = appendSegment x.1.basePath (g.nameOf v n)
  below : g.hasParent v n = true → ∃ p above, g.IsChild v n p ∧
    g.objects p v.objectPath = [.literal (.string above)] ∧
    path = appendSegment above (g.nameOf v n)

/-- What the path passes for the rules in `done` have made of the annotated graph `ga`. -/
structure Placed (v : Vocabulary) (ga : Graph) (done : List (Rule × AnnotationReport))
    (g : Graph) : Prop extends Passed v ga done g where
  closed : ∀ p, g.hasPath v p = true → ∀ c, ga.IsChild v c p → g.hasPath v c = true
  acc : ∀ n, g.hasPath v n = true → Acc (ga.IsChild v) n
  places : ∀ n, g.hasPath v n = true → ∃ path, g.HasPlace v done n path

/-- Before the first pass nothing has a path. -/
theorem placed_nil (hpathless : ∀ n t, ⟨n, v.objectPath, t⟩ ∉ ga.toList) :
    Placed v ga [] ga := by
  have hopen : ∀ n, ¬ga.hasPath v n = true := by
    intro n hn
    obtain ⟨t, ht⟩ := List.exists_mem_of_ne_nil _ (hasPath_iff.1 hn)
    exact hpathless n t (mem_objects.1 ht)
  exact
    { passed_nil v ga with
      closed := fun p hp => absurd hp (hopen p)
      acc := fun n hn => absurd hn (hopen n)
      places := fun n hn => absurd hn (hopen n) }

/-! ## One pass -/

section Pass

variable {x : Rule × AnnotationReport} {visits : List Visit}
  (h : Placed v ga done g) (hv : v.Distinct)
  (hpass : PathPass v x.1.basePath x.2.processed visits g g')

/-- Below nodes without a path, where no way goes on for ever, come nodes with a path, and below
these no way goes on for ever either. -/
theorem Placed.acc_of_openBelow (h : Placed v ga done g) (hv : v.Distinct)
    (hn : Acc ((g.hierarchy v).OpenBelow (g.hasPath v)) n) : Acc (ga.IsChild v) n := by
  refine Hierarchy.acc_of_openBelow (fun c n hc => ?_) (fun c n _ hpath => h.acc c hpath) hn
  exact mem_nodesBelow.2 ((h.same.isChild_iff hv.isAside_objectPath).2 hc)

/-- The place of a node that has a path stays where it is. -/
theorem HasPlace.pass {path : String} (hplace : g.HasPlace v done n path) (hv : v.Distinct)
    (hpass : PathPass v x.1.basePath x.2.processed visits g g') :
    g'.HasPlace v (done ++ [x]) n path := by
  have hsame := hpass.sameOff
  have hp := hv.isAside_objectPath
  have hnameOf : ∀ m, g'.nameOf v m = g.nameOf v m :=
    fun m => hsame.nameOf_eq (hv.ne_objectPath (by simp))
  have hkeep : ∀ m path, g.objects m v.objectPath = [.literal (.string path)] →
      g'.objects m v.objectPath = [.literal (.string path)] := by
    intro m path hm
    have hpath : g.hasPath v m = true := hasPath_iff.2 (by rw [hm]; exact List.cons_ne_nil _ _)
    rw [hpass.objects_objectPath_of_hasPath hpath, hm]
  refine ⟨hkeep n path hplace.objects_eq, fun hroot => ?_, fun hparent => ?_⟩
  · rw [hsame.hasParent_eq hp] at hroot
    obtain ⟨y, hy, hpath⟩ := hplace.root hroot
    exact ⟨y, by rw [List.find?_append, hy, Option.some_or], by rw [hnameOf, hpath]⟩
  · rw [hsame.hasParent_eq hp] at hparent
    obtain ⟨p, above, hchild, habove, hpath⟩ := hplace.below hparent
    exact ⟨p, above, (hsame.isChild_iff hp).2 hchild, hkeep p above habove,
      by rw [hnameOf, hpath]⟩

/-- A root without a path was enrolled by none of the rules before, or it would have got its path
then. -/
theorem Placed.find?_eq_none {candidates : List Node} (h : Placed v ga done g)
    (hroot : n ∈ g.roots v candidates) (hopen : g.hasPath v n = false) :
    done.find? (fun y => n ∈ y.2.processed) = none := by
  rw [List.find?_eq_none]
  intro y hy hny
  have hrooty : n ∈ g.roots v y.2.processed :=
    mem_roots.2 ⟨of_decide_eq_true hny, (mem_roots.1 hroot).2⟩
  have hpath := (h.settled y hy).roots n hrooty
  rw [hopen] at hpath
  cases hpath

include h hv hpass

/-- **A node that is entered gets its place**: below the base path if it is a root, and otherwise
below the path of the parent from which it is entered. -/
theorem Placed.place_of_entered (hn : Entered visits n) :
    ∃ path, g'.HasPlace v (done ++ [x]) n path := by
  have hsame := hpass.sameOff
  have hp := hv.isAside_objectPath
  have hnameOf : ∀ m, g'.nameOf v m = g.nameOf v m :=
    fun m => hsame.nameOf_eq (hv.ne_objectPath (by simp))
  obtain ⟨above, hvisit⟩ := hn
  have hopen := hpass.explored.opened n ⟨above, hvisit⟩
  have horigin := hpass.explored.origin _ hvisit
  refine ⟨_, hpass.objects_objectPath hvisit, fun hroot => ?_, fun hparent => ?_⟩
  · cases above with
    | nil =>
        have hx : n ∈ x.2.processed := (mem_roots.1 horigin).1
        refine ⟨x, ?_, by rw [hnameOf]; rfl⟩
        rw [List.find?_append, h.find?_eq_none horigin hopen, Option.none_or]
        exact List.find?_cons_of_pos (decide_eq_true hx)
    | cons p above =>
        have hchild : g.IsChild v n p := mem_nodesBelow.1 horigin.2
        rw [hsame.hasParent_eq hp, hchild.hasParent] at hroot
        cases hroot
  · cases above with
    | nil =>
        rw [hsame.hasParent_eq hp, (mem_roots.1 horigin).2.2] at hparent
        cases hparent
    | cons p above =>
        obtain ⟨hvisitp, hbelow⟩ := horigin
        have hchild : g'.IsChild v n p := (hsame.isChild_iff hp).2 (mem_nodesBelow.1 hbelow)
        exact ⟨p, _, hchild, hpass.objects_objectPath hvisitp, by rw [hnameOf]; rfl⟩

/-- **Every path pass keeps objects placed.** -/
theorem Placed.pass : Placed v ga (done ++ [x]) g' := by
  have hpath : ∀ {n}, g'.hasPath v n = true ↔ g.hasPath v n = true ∨ Entered visits n :=
    hpass.hasPath_iff
  refine
    { h.toPassed.pass hv hpass with
      closed := fun p hp c hc => ?_
      acc := fun n hn => ?_
      places := fun n hn => ?_ }
  · -- below a node that is entered, everything is met
    rcases hpath.1 hp with hp | hp
    · exact hpath.2 (.inl (h.closed p hp c hc))
    · exact hpath.2 (hpass.explored.below_met p hp c
        (mem_nodesBelow.2 ((h.same.isChild_iff hv.isAside_objectPath).2 hc)))
  · rcases hpath.1 hn with hn | hn
    · exact h.acc n hn
    · exact h.acc_of_openBelow hv (hpass.explored.acc n hn)
  · rcases hpath.1 hn with hn | hn
    · obtain ⟨path, hplace⟩ := h.places n hn
      exact ⟨path, hplace.pass hv hpass⟩
    · exact h.place_of_entered hv hpass hn

end Pass

/-! ## All passes -/

section Total

variable {enrolled : List Node} (h : Placed v ga done g) (hv : v.Distinct)
  (horderly : ga.Orderly v enrolled) (henrolled : ∀ n ∈ enrolled, ∃ x ∈ done, n ∈ x.2.processed)
include h hv horderly henrolled

/-- **Every subject that was enrolled has a path**, by induction on the way up: a parent that is
named first is a subject that was enrolled itself. -/
theorem Placed.hasPath_of_enrolled (hn : n ∈ enrolled) : g.hasPath v n = true := by
  have hp := hv.isAside_objectPath
  obtain ⟨x, hx, hxn⟩ := henrolled n hn
  rcases (h.settled x hx).ascends n hxn with hpath | hacc
  · exact hpath
  · clear x hx hxn
    rw [h.same.firstParent_eq hp] at hacc
    induction hacc with
    | intro n _ ih =>
        obtain ⟨x, hx, hxn⟩ := henrolled n hn
        cases hparents : ga.objects n v.parentRef with
        | nil =>
            have hroot : ga.hasParent v n = false := any_about_eq_false_iff.2 hparents
            refine (h.settled x hx).roots n (mem_roots.2 ⟨hxn, ?_, ?_⟩)
            · exact (h.same.mem_marker_iff hp).2 (horderly.marked n hn)
            · rw [h.same.hasParent_eq hp, hroot]
        | cons t parents =>
            have hfact : ⟨n, v.parentRef, t⟩ ∈ ga.toList := by
              rw [← mem_objects, hparents]
              exact List.mem_cons_self ..
            obtain ⟨-, p, henrol, rfl⟩ := horderly.parents n t hfact
            have hfirst : (ga.hierarchy v).FirstParent p n := by
              show ga.objectNode? n v.parentRef = some p
              rw [objectNode?, object?, hparents]
              rfl
            exact h.closed p (ih p hfirst henrol) n hfact

/-- **Every hierarchy object has a path** after all passes. -/
theorem Placed.hasPath_of_mem (hn : v.markerFact n ∈ ga.toList) : g.hasPath v n = true := by
  rcases horderly.rooted n hn with hn | ⟨p, hp⟩
  · exact h.hasPath_of_enrolled hv horderly henrolled hn
  · obtain ⟨-, q, hq, heq⟩ := horderly.parents n _ hp
    obtain rfl : p = q := Term.node.inj heq
    exact h.closed p (h.hasPath_of_enrolled hv horderly henrolled hq) n hp

end Total

end FactHierarchy.Graph
