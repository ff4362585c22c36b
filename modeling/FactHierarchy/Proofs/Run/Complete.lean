import FactHierarchy.Proofs.Annotation.Placements
import FactHierarchy.Proofs.Run.Coverage
import FactHierarchy.Proofs.Run.FromScratch

/-!
# Complete hierarchies

What a run of one rule makes of an unannotated graph is a *complete* hierarchy
(`Engine.complete_of_run_eq_ok`): each object has a name and a path, the path is where the object
belongs, no way down goes on for ever, and every object is reached from a root.

In a forest, where no object has two parents, nothing is left open by this: the objects, their
names and their parents determine their paths (`Graph.Complete.objects_objectPath_eq`).
-/

set_option autoImplicit false

namespace FactHierarchy

namespace Graph

variable {v : Vocabulary} {base : String} {g g' : Graph} {n c p q : Node}

/-- **The graph holds a complete hierarchy** with its roots below one base path. -/
structure Complete (v : Vocabulary) (base : String) (g : Graph) : Prop where
  named : ∀ n, v.markerFact n ∈ g.toList →
    ∃ name, name ≠ "" ∧ g.objects n v.objectName = [.literal (.string name)]
  unnamed : ∀ n, v.markerFact n ∉ g.toList → g.objects n v.objectName = []
  parents : ∀ c t, ⟨c, v.parentRef, t⟩ ∈ g.toList →
    v.markerFact c ∈ g.toList ∧ ∃ p, t = .node p ∧ v.markerFact p ∈ g.toList
  root : ∀ n, v.markerFact n ∈ g.toList → g.hasParent v n = false →
    g.objects n v.objectPath = [.literal (.string (appendSegment base (g.nameOf v n)))]
  below : ∀ n, v.markerFact n ∈ g.toList → g.hasParent v n = true →
    ∃ p above, g.IsChild v n p ∧ g.objects p v.objectPath = [.literal (.string above)] ∧
      g.objects n v.objectPath = [.literal (.string (appendSegment above (g.nameOf v n)))]
  unplaced : ∀ n, v.markerFact n ∉ g.toList → g.objects n v.objectPath = []
  acc : ∀ n, Acc (g.IsChild v) n
  reached : ∀ n, v.markerFact n ∈ g.toList →
    (g.hierarchy v).Reached (fun _ => false) (g.roots v (g.hierarchyObjects v)) n

/-- **No object has two parents, and objects with the same parent differ in their names.** -/
structure IsForest (v : Vocabulary) (g : Graph) : Prop where
  parents : ∀ n ∈ g.hierarchyObjects v, (g.objects n v.parentRef).length ≤ 1
  siblings : ∀ m ∈ g.hierarchyObjects v, ∀ n ∈ g.hierarchyObjects v,
    ∀ t ∈ g.objects m v.parentRef, t ∈ g.objects n v.parentRef →
      g.nameOf v m = g.nameOf v n → m = n

instance (v : Vocabulary) (g : Graph) : Decidable (g.IsForest v) :=
  decidable_of_iff
    ((∀ n ∈ g.hierarchyObjects v, (g.objects n v.parentRef).length ≤ 1) ∧
      ∀ m ∈ g.hierarchyObjects v, ∀ n ∈ g.hierarchyObjects v,
        ∀ t ∈ g.objects m v.parentRef, t ∈ g.objects n v.parentRef →
          g.nameOf v m = g.nameOf v n → m = n)
    ⟨fun ⟨hp, hs⟩ => ⟨hp, hs⟩, fun h => ⟨h.parents, h.siblings⟩⟩

theorem mem_hierarchyObjects : n ∈ g.hierarchyObjects v ↔ v.markerFact n ∈ g.toList := mem_subjects

/-- Where all children are objects, everything that is reached from roots is an object. -/
theorem marked_of_reached {closed : Node → Bool} {candidates : List Node}
    (hchildren : ∀ c p, g.IsChild v c p → v.markerFact c ∈ g.toList)
    (hn : (g.hierarchy v).Reached closed (g.roots v candidates) n) :
    v.markerFact n ∈ g.toList :=
  hn.invariant (fun _ hr _ => (mem_roots.1 hr).2.1) fun c m _ _ hc =>
    hchildren c m (mem_nodesBelow.1 hc.1)

/-! ## Parents in a complete hierarchy -/

namespace Complete

variable (h : g.Complete v base)
include h

theorem hasParent_iff : g.hasParent v n = true ↔ ∃ p, g.IsChild v n p := by
  rw [Graph.hasParent_iff]
  constructor
  · rintro ⟨t, ht⟩
    obtain ⟨-, p, rfl, -⟩ := h.parents n t ht
    exact ⟨p, ht⟩
  · rintro ⟨p, hp⟩
    exact ⟨_, hp⟩

theorem nameOf_ne_empty (hn : v.markerFact n ∈ g.toList) : g.nameOf v n ≠ "" := by
  obtain ⟨name, hname, hobjects⟩ := h.named n hn
  rwa [nameOf, valueText_of_objects hobjects]

theorem objects_objectName (hn : v.markerFact n ∈ g.toList) :
    g.objects n v.objectName = [.literal (.string (g.nameOf v n))] := by
  obtain ⟨name, -, hobjects⟩ := h.named n hn
  have hnameOf : g.nameOf v n = name := valueText_of_objects hobjects
  rw [hobjects, hnameOf]

theorem mem_roots :
    n ∈ g.roots v (g.hierarchyObjects v) ↔
      v.markerFact n ∈ g.toList ∧ ∀ p, ¬g.IsChild v n p := by
  rw [Graph.mem_roots, mem_hierarchyObjects, ← and_assoc, and_self, ← Bool.not_eq_true,
    h.hasParent_iff, not_exists]

/-- An object of a forest has one parent or none. -/
theorem parent_unique (hforest : g.IsForest v) (hp : g.IsChild v n p) (hq : g.IsChild v n q) :
    p = q := by
  obtain ⟨hn, -⟩ := h.parents n _ hp
  have hlength := hforest.parents n (mem_hierarchyObjects.2 hn)
  have hpmem : .node p ∈ g.objects n v.parentRef := mem_objects.2 hp
  have hqmem : .node q ∈ g.objects n v.parentRef := mem_objects.2 hq
  match hobjects : g.objects n v.parentRef, hlength, hpmem, hqmem with
  | [t], _, hpmem, hqmem =>
      have hpt := List.mem_singleton.1 hpmem
      have hqt := List.mem_singleton.1 hqmem
      exact Term.node.inj (hpt.trans hqt.symm)

/-- Objects of a forest that have one parent and one name are the same. -/
theorem sibling_unique (hforest : g.IsForest v) (hn : g.IsChild v n p) (hc : g.IsChild v c p)
    (hname : g.nameOf v n = g.nameOf v c) : n = c := by
  obtain ⟨hnobject, -⟩ := h.parents n _ hn
  obtain ⟨hcobject, -⟩ := h.parents c _ hc
  exact hforest.siblings n (mem_hierarchyObjects.2 hnobject) c (mem_hierarchyObjects.2 hcobject)
    (.node p) (mem_objects.2 hn) (mem_objects.2 hc) hname

/-! ## Paths in a complete forest -/

/-- **Objects, names and parents determine the paths of a complete forest.** -/
theorem objects_objectPath_eq (h' : g'.Complete v base) (hforest : g.IsForest v)
    (hmarked : ∀ n, v.markerFact n ∈ g'.toList ↔ v.markerFact n ∈ g.toList)
    (hchild : ∀ c p, g'.IsChild v c p ↔ g.IsChild v c p)
    (hname : ∀ n, g'.nameOf v n = g.nameOf v n) (n : Node) :
    g'.objects n v.objectPath = g.objects n v.objectPath := by
  by_cases hn : v.markerFact n ∈ g.toList
  · -- by induction on the way down from the root above the object
    have hreached := h.reached n hn
    refine hreached.invariant (fun r hr _ => ?_) fun c m _ hm hc => ?_
    · obtain ⟨hrobject, hroot⟩ := h.mem_roots.1 hr
      have hnoparent : g.hasParent v r = false := by
        rw [← Bool.not_eq_true, h.hasParent_iff, not_exists]
        exact hroot
      have hnoparent' : g'.hasParent v r = false := by
        rw [← Bool.not_eq_true, h'.hasParent_iff, not_exists]
        exact fun p hp => hroot p ((hchild r p).1 hp)
      rw [h.root r hrobject hnoparent, h'.root r ((hmarked r).2 hrobject) hnoparent', hname]
    · have hcm : g.IsChild v c m := mem_nodesBelow.1 hc.1
      have hcm' : g'.IsChild v c m := (hchild c m).2 hcm
      obtain ⟨hcobject, -⟩ := h.parents c _ hcm
      obtain ⟨p, above, hp, habove, hpath⟩ := h.below c hcobject hcm.hasParent
      obtain ⟨p', above', hp', habove', hpath'⟩ :=
        h'.below c ((hmarked c).2 hcobject) hcm'.hasParent
      obtain rfl : p = m := h.parent_unique hforest hp hcm
      obtain rfl : p' = p := h.parent_unique hforest ((hchild c p').1 hp') hcm
      -- the two paths above are those of the parent, which are the same
      rw [habove, habove'] at hm
      obtain rfl : above' = above := by simpa [Literal.string] using hm
      rw [hpath, hpath', hname]
  · rw [h.unplaced n hn, h'.unplaced n fun hn' => hn ((hmarked n).1 hn')]

end Complete

end Graph

namespace Engine

variable {e : Engine} {rule : Rule} {g g' : Graph} {report : RunReport}

/-- **A run of one rule from scratch makes a complete hierarchy.** -/
theorem complete_of_run_eq_ok (hrule : rule.withoutProperties.ReadsRaw e.vocabulary)
    (hg : g.Unannotated e.vocabulary) (hrun : e.run [rule] g = .ok (report, g')) :
    g'.Complete e.vocabulary rule.basePath := by
  have hv := e.distinct_vocabulary
  have hp := hv.isAside_objectPath
  have horderly := orderly_annotated hg [rule]
  have hplaced := placed_of_run_eq_ok hg hrun
  have hcovered := covered_of_run_eq_ok hrun
  have hacc := acc_of_run_eq_ok hg hrun
  have hfollows : (e.annotator.annotateAll [rule] g).2.Follows e.vocabulary
      (e.annotator.acts rule.withoutProperties g) :=
    Annotator.follows_annotate (a := e.annotator) hv hrule hg
  set ga := (e.annotator.annotateAll [rule] g).2
  have hmarked : ∀ n, e.vocabulary.markerFact n ∈ g'.toList ↔
      e.vocabulary.markerFact n ∈ ga.toList := fun n => hplaced.same.mem_marker_iff hp
  have hchild : g'.IsChild e.vocabulary = ga.IsChild e.vocabulary := hplaced.same.isChild_eq hp
  have hnames : ∀ n, g'.objects n e.vocabulary.objectName = ga.objects n e.vocabulary.objectName :=
    hplaced.same _ (hv.ne_objectPath (by simp))
  have hpath : ∀ n, e.vocabulary.markerFact n ∈ g'.toList → g'.hasPath e.vocabulary n = true :=
    fun n hn => hasPath_of_run_eq_ok hg hrun ((hmarked n).1 hn)
  clear_value ga
  -- before the path pass there is no path, so those that have one hang from the subjects
  have hhangs : ∀ n, g'.hasPath e.vocabulary n = true →
      ga.HangsFrom e.vocabulary (subjectsOf ([rule].zip report.annotations)) n := by
    intro n hn
    refine ((hcovered.hasPath_iff n).1 hn).resolve_left fun hold => ?_
    obtain ⟨t, ht⟩ := List.exists_mem_of_ne_nil _ (Graph.hasPath_iff.1 hold)
    exact horderly.pathless n t (Graph.mem_objects.1 ht)
  constructor
  case named =>
    intro n hn
    obtain ⟨name, hname⟩ := horderly.named n ((hmarked n).1 hn)
    have hmem : .literal (.string name) ∈ ga.objects n e.vocabulary.objectName := by
      rw [hname]
      exact List.mem_singleton_self _
    -- the name was given by a placement, so it is not empty
    obtain ⟨act, hact, given, hgiven, heq⟩ := hfollows.named n _ hmem
    have hne := Annotator.name_ne_empty_of_mem_acts hact hgiven
    obtain rfl : name = given := by simpa [Literal.string] using heq
    exact ⟨name, hne, (hnames n).trans hname⟩
  case unnamed =>
    intro n hn
    rw [hnames]
    exact horderly.unnamed n fun hn' => hn ((hmarked n).2 hn')
  case parents =>
    intro c t hf
    rw [hplaced.same.mem_iff hp.parentRef_ne] at hf
    obtain ⟨hc, p, hp, rfl⟩ := horderly.parents c t hf
    exact ⟨(hmarked c).2 hc, p, rfl, (hmarked p).2 (horderly.marked p hp)⟩
  case root =>
    intro n hn hroot
    obtain ⟨path, hplace⟩ := hplaced.places n (hpath n hn)
    -- there is one rule only that can have processed the root
    obtain ⟨x, hx, rfl⟩ := hplace.root hroot
    obtain ⟨hrule, -⟩ := List.of_mem_zip (List.mem_of_find?_eq_some hx)
    rw [← List.mem_singleton.1 hrule]
    exact hplace.objects_eq
  case below =>
    intro n hn hparent
    obtain ⟨path, hplace⟩ := hplaced.places n (hpath n hn)
    obtain ⟨p, above, hp, habove, rfl⟩ := hplace.below hparent
    exact ⟨p, above, hp, habove, hplace.objects_eq⟩
  case unplaced =>
    intro n hn
    rw [← Graph.any_about_eq_false_iff, ← Bool.not_eq_true]
    intro hpath
    have hchildren : ∀ c p, ga.IsChild e.vocabulary c p → e.vocabulary.markerFact c ∈ ga.toList :=
      fun c p hc => (horderly.parents c _ hc).1
    exact hn ((hmarked n).2 (Graph.marked_of_reached hchildren (hhangs n hpath)))
  case acc =>
    rw [hchild]
    exact hacc
  case reached =>
    intro n hn
    refine (hhangs n (hpath n hn)).mono (fun r hr _ => ⟨?_, rfl⟩) fun c m hc => ⟨?_, rfl⟩
    · obtain ⟨-, hobject, hroot⟩ := Graph.mem_roots.1 hr
      rw [← hplaced.same.hasParent_eq hp] at hroot
      have hobject' := (hmarked r).2 hobject
      exact Graph.mem_roots.2 ⟨Graph.mem_hierarchyObjects.2 hobject', hobject', hroot⟩
    · have hbelow : ga.IsChild e.vocabulary c m := Graph.mem_nodesBelow.1 hc.1
      exact Graph.mem_nodesBelow.2 ((hplaced.same.isChild_iff hp).2 hbelow)

end Engine

end FactHierarchy
