import FactHierarchy.Proofs.History.Permanence
import FactHierarchy.Proofs.Run.Coverage

/-!
# Graphs that grow

A graph that starts empty grows by raw facts and by rules that are applied. All that is known of
it at any time is `Graph.Grown`: parents are hierarchy objects, an object without a path has a
parent, and every loop has an object with a path on it or above it.

A run does not look below objects that have a path. So it does not give a path to every object:
it passes over what it puts only below objects that had a path before
(`Engine.one_path_iff_old_or_hanging`). And it does not find every loop: each loop that it passes
over has an object on it or above it that had a path before
(`Engine.loops_left_have_old_path_above`). What has no path above it is never passed over.
-/

set_option autoImplicit false

namespace FactHierarchy

/-- A way in a relation that has grown goes through old steps alone, or takes a new one. -/
theorem transGen_or_exists_new_step {α : Type} {r s : α → α → Prop} {a b : α}
    (h : Relation.TransGen s a b) :
    Relation.TransGen r a b ∨ ∃ c d, Relation.ReflTransGen s a c ∧ s c d ∧ ¬r c d ∧
      Relation.ReflTransGen s d b := by
  induction h with
  | @single b hab =>
      by_cases hold : r a b
      · exact .inl (.single hold)
      · exact .inr ⟨a, b, .refl, hab, hold, .refl⟩
  | @tail b c hab hbc ih =>
      rcases ih with hold | ⟨d, d', had, hstep, hnew, hway⟩
      · by_cases hlast : r b c
        · exact .inl (hold.tail hlast)
        · exact .inr ⟨b, c, hab.to_reflTransGen, hbc, hlast, .refl⟩
      · exact .inr ⟨d, d', had, hstep, hnew, hway.tail hbc⟩

namespace Graph

variable {v : Vocabulary} {g ga g' : Graph} {done : List (Rule × AnnotationReport)} {n : Node}

/-- **What is known of a graph that has grown** from nothing by raw facts and by rules. -/
structure Grown (v : Vocabulary) (g : Graph) : Prop where
  parents : ∀ c t, ⟨c, v.parentRef, t⟩ ∈ g.toList →
    v.markerFact c ∈ g.toList ∧ ∃ p, t = .node p ∧ v.markerFact p ∈ g.toList
  hung : ∀ n, v.markerFact n ∈ g.toList → g.hasPath v n = false → ∃ p, g.IsChild v n p
  loops : ∀ n, Relation.TransGen (g.IsChild v) n n →
    ∃ m, g.hasPath v m = true ∧ Relation.ReflTransGen (g.IsChild v) n m

theorem grown_empty (v : Vocabulary) : Grown v .empty where
  parents c t hf := absurd hf List.not_mem_nil
  hung n hn := absurd hn List.not_mem_nil
  loops n hn := by
    obtain ⟨p, hp, -⟩ := Relation.TransGen.head'_iff.1 hn
    exact absurd hp List.not_mem_nil

/-! ## Raw facts -/

/-- A raw fact that is put changes nothing about the others. -/
theorem mem_toList_put_of_isRaw {f f' : Fact} (hf : v.isRaw f = true) (hf' : v.isRaw f' = false) :
    f' ∈ (g.put f).toList ↔ f' ∈ g.toList := by
  rw [mem_toList_put, or_iff_left]
  rintro rfl
  rw [hf] at hf'
  cases hf'

/-- **A raw fact keeps a grown graph grown.** -/
theorem Grown.put {f : Fact} (h : g.Grown v) (hf : v.isRaw f = true) : (g.put f).Grown v := by
  have hmem : ∀ s p t, p ∈ v.predicates →
      (⟨s, p, t⟩ ∈ (g.put f).toList ↔ ⟨s, p, t⟩ ∈ g.toList) :=
    fun s p t hp => mem_toList_put_of_isRaw hf (Vocabulary.isRaw_of_mem_predicates hp)
  have hmarker : ∀ n, v.markerFact n ∈ (g.put f).toList ↔ v.markerFact n ∈ g.toList :=
    fun n => mem_toList_put_of_isRaw hf (Vocabulary.isRaw_markerFact n)
  have hparent : ∀ c t, ⟨c, v.parentRef, t⟩ ∈ (g.put f).toList ↔ ⟨c, v.parentRef, t⟩ ∈ g.toList :=
    fun c t => hmem c _ t (by simp [Vocabulary.predicates])
  have hchild : (g.put f).IsChild v = g.IsChild v := by
    funext c p
    exact propext (hparent c p)
  have hpath : ∀ n, (g.put f).hasPath v n = g.hasPath v n := by
    intro n
    have hne : f.predicate ≠ v.objectPath := by
      intro heq
      rw [Vocabulary.isRaw_iff, heq] at hf
      exact hf.1 (by simp [Vocabulary.predicates])
    rw [Bool.eq_iff_iff, hasPath_iff, hasPath_iff, objects_put_of_predicate_ne hne]
  constructor
  case parents =>
    intro c t hct
    simp only [hmarker]
    exact h.parents c t ((hparent c t).1 hct)
  case hung =>
    intro n hn hopen
    rw [hpath] at hopen
    rw [hchild]
    exact h.hung n ((hmarker n).1 hn) hopen
  case loops =>
    simp only [hchild, hpath]
    exact h.loops

/-! ## Runs -/

theorem Continues.hasPath_eq {enrolled : List Node} (h : Continues v enrolled g ga) :
    ga.hasPath v = g.hasPath v := by
  funext n
  rw [Bool.eq_iff_iff, hasPath_iff, hasPath_iff, h.paths_eq]

section Run

variable (h : g.Grown v) (hcontinues : Continues v (subjectsOf done) g ga) (hv : v.Distinct)
include h hcontinues hv

/-- Annotation puts children below hierarchy objects alone. -/
theorem Grown.parents_annotated {c : Node} {t : Term} (hf : ⟨c, v.parentRef, t⟩ ∈ ga.toList) :
    v.markerFact c ∈ ga.toList ∧ ∃ p, t = .node p ∧ v.markerFact p ∈ ga.toList := by
  have hkept : ∀ n, v.markerFact n ∈ g.toList → v.markerFact n ∈ ga.toList :=
    fun n hn => hcontinues.kept _ hn (hv.ne_objectName (by simp [Vocabulary.markerFact]))
  rcases hcontinues.parents c t hf with hold | ⟨hc, p, hp, rfl⟩
  · obtain ⟨hc, p, rfl, hp⟩ := h.parents c t hold
    exact ⟨hkept c hc, p, rfl, hkept p hp⟩
  · exact ⟨hc, p, rfl, hcontinues.marked p hp⟩

/-- An object that has neither a path nor a parent has just been enrolled. -/
theorem Grown.mem_roots_of_open (hn : v.markerFact n ∈ ga.toList)
    (hopen : g.hasPath v n = false) (hroot : ga.hasParent v n = false) :
    n ∈ ga.roots v (subjectsOf done) := by
  have hnone : ∀ p, ¬ga.IsChild v n p := by
    intro p hp
    rw [hp.hasParent] at hroot
    cases hroot
  refine mem_roots.2 ⟨?_, hn, hroot⟩
  rcases hcontinues.rooted n hn with hold | henrolled | ⟨p, hp⟩
  · obtain ⟨p, hp⟩ := h.hung n hold hopen
    have hchild : ga.IsChild v n p :=
      hcontinues.kept _ hp (hv.ne_objectName (by simp [Vocabulary.parentFact]))
    exact absurd hchild (hnone p)
  · exact henrolled
  · exact absurd hp (hnone p)

/-- What stands below objects without a path alone hangs from the subjects, if its way up by first
parents ends: it ends at an object that has just been enrolled. -/
theorem Grown.hangsFrom_of_acc (hacc : Acc (ga.hierarchy v).FirstParent n)
    (hn : v.markerFact n ∈ ga.toList)
    (hopen : ∀ m, Relation.ReflTransGen (ga.IsChild v) n m → g.hasPath v m = false) :
    ga.HangsFrom v (subjectsOf done) n := by
  have hpath := hcontinues.hasPath_eq
  induction hacc with
  | intro n _ ih =>
      have hnopen : ga.hasPath v n = false := by
        rw [hpath]
        exact hopen n .refl
      cases hparents : ga.objects n v.parentRef with
      | nil =>
          have hroot : ga.hasParent v n = false := any_about_eq_false_iff.2 hparents
          exact hangsFrom_root
            (h.mem_roots_of_open hcontinues hv hn (hopen n .refl) hroot) hnopen
      | cons t parents =>
          have hfact : ⟨n, v.parentRef, t⟩ ∈ ga.toList := by
            rw [← mem_objects, hparents]
            exact List.mem_cons_self ..
          obtain ⟨-, p, rfl, hp⟩ := h.parents_annotated hcontinues hv hfact
          have hfirst : (ga.hierarchy v).FirstParent p n := by
            show ga.objectNode? n v.parentRef = some p
            rw [objectNode?, object?, hparents]
            rfl
          have habove := ih p hfirst hp fun m hm => hopen m (.head hfact hm)
          exact habove.below hfact hnopen

variable (hcovered : Covered v ga done g')
include hcovered

/-- **So does every subject with nothing but objects without a path above it**, or the pass for
the rule that enrolled it would have reported a loop. -/
theorem Grown.hangsFrom_of_mem (hn : n ∈ subjectsOf done)
    (hopen : ∀ m, Relation.ReflTransGen (ga.IsChild v) n m → g.hasPath v m = false) :
    ga.HangsFrom v (subjectsOf done) n := by
  obtain ⟨x, hx, hxn⟩ := List.mem_flatMap.1 hn
  rcases (hcovered.settled x hx).ascends n hxn with hpath | hacc
  · refine ((hcovered.hasPath_iff n).1 hpath).resolve_left fun hold => ?_
    rw [hcontinues.hasPath_eq, hopen n .refl] at hold
    cases hold
  · rw [hcovered.same.firstParent_eq hv.isAside_objectPath] at hacc
    exact h.hangsFrom_of_acc hcontinues hv hacc (hcontinues.marked n hn) hopen

/-- **Every loop that path passes leave has an old path on it or above it.** Otherwise take a new
step of the loop: the parent was enrolled, so it hangs from the subjects, and then a pass has come
through the whole loop. -/
theorem Grown.exists_hasPath_above_loop (hloop : Relation.TransGen (ga.IsChild v) n n) :
    ∃ m, g.hasPath v m = true ∧ Relation.ReflTransGen (ga.IsChild v) n m := by
  by_contra hnone
  have hopen : ∀ m, Relation.ReflTransGen (ga.IsChild v) n m → g.hasPath v m = false := by
    intro m hm
    rw [← Bool.not_eq_true]
    exact fun hpath => hnone ⟨m, hpath, hm⟩
  rcases transGen_or_exists_new_step (r := g.IsChild v) hloop with
    hold | ⟨c, q, hnc, hcq, hnew, hqn⟩
  · obtain ⟨m, hm, hway⟩ := h.loops n hold
    have hkept : ∀ c p, g.IsChild v c p → ga.IsChild v c p :=
      fun c p hc => hcontinues.kept _ hc (hv.ne_objectName (by simp [Vocabulary.parentFact]))
    exact hnone ⟨m, hm, Relation.ReflTransGen.mono hkept n m hway⟩
  · obtain ⟨-, p, hp, heq⟩ := (hcontinues.parents c q hcq).resolve_left hnew
    obtain rfl : q = p := Term.node.inj heq
    have hnq : Relation.ReflTransGen (ga.IsChild v) n q := hnc.tail hcq
    have hopenq : ∀ m, Relation.ReflTransGen (ga.IsChild v) q m → g.hasPath v m = false :=
      fun m hm => hopen m (hnq.trans hm)
    have hqq : Relation.TransGen (ga.IsChild v) q q := Relation.TransGen.tail' (hqn.trans hnc) hcq
    -- all of the loop is open, so it is a loop of steps that a pass takes
    have hsteps : ∀ {m}, Relation.TransGen (ga.IsChild v) q m →
        Relation.TransGen ((ga.hierarchy v).OpenBelow (ga.hasPath v)) q m := by
      intro m hm
      have hstep : ∀ {a b}, Relation.ReflTransGen (ga.IsChild v) q a → ga.IsChild v a b →
          (ga.hierarchy v).OpenBelow (ga.hasPath v) a b := by
        intro a b ha hab
        refine ⟨mem_nodesBelow.2 hab, ?_⟩
        rw [hcontinues.hasPath_eq]
        exact hopenq a ha
      induction hm with
      | single hab => exact .single (hstep .refl hab)
      | tail hab hbc ih => exact ih.tail (hstep hab.to_reflTransGen hbc)
    have hacc := hcovered.acc q (h.hangsFrom_of_mem hcontinues hv hcovered hp hopenq)
    exact not_transGen_self_of_acc hacc (hsteps hqq)

/-- What hangs from the subjects is what is reached from the roots of the graph in the end, through
objects that had no path before. -/
theorem Grown.hangsFrom_iff_reached :
    ga.HangsFrom v (subjectsOf done) n ↔
      (g'.hierarchy v).Reached (g.hasPath v) (g'.roots v (g'.hierarchyObjects v)) n := by
  have hp := hv.isAside_objectPath
  have hmarker : ∀ r, v.markerFact r ∈ g'.toList ↔ v.markerFact r ∈ ga.toList :=
    fun r => hcovered.same.mem_marker_iff hp
  have hchild : ∀ c p, g'.IsChild v c p ↔ ga.IsChild v c p :=
    fun c p => hcovered.same.isChild_iff hp
  rw [HangsFrom, hcontinues.hasPath_eq]
  constructor
  · intro hn
    refine hn.mono (fun r hr hopen => ⟨?_, hopen⟩) fun c m hc => ⟨?_, hc.2⟩
    · obtain ⟨-, hmarked, hroot⟩ := mem_roots.1 hr
      rw [← hcovered.same.hasParent_eq hp] at hroot
      have hmarked' := (hmarker r).2 hmarked
      exact mem_roots.2 ⟨mem_subjects.2 hmarked', hmarked', hroot⟩
    · exact mem_nodesBelow.2 ((hchild c m).2 (mem_nodesBelow.1 hc.1))
  · intro hn
    refine hn.mono (fun r hr hopen => ⟨?_, hopen⟩) fun c m hc => ⟨?_, hc.2⟩
    · -- an open root in the end has just been enrolled
      obtain ⟨-, hmarked, hroot⟩ := mem_roots.1 hr
      rw [hcovered.same.hasParent_eq hp] at hroot
      exact h.mem_roots_of_open hcontinues hv ((hmarker r).1 hmarked) hopen hroot
    · exact mem_nodesBelow.2 ((hchild c m).1 (mem_nodesBelow.1 hc.1))

/-- **A run that succeeds keeps a grown graph grown.** -/
theorem Grown.run : g'.Grown v := by
  have hp := hv.isAside_objectPath
  have hchild : g'.IsChild v = ga.IsChild v := hcovered.same.isChild_eq hp
  have hmarker : ∀ n, v.markerFact n ∈ g'.toList ↔ v.markerFact n ∈ ga.toList :=
    fun n => hcovered.same.mem_marker_iff hp
  have hpath : ∀ n, g.hasPath v n = true → g'.hasPath v n = true := by
    intro n hn
    rw [hcovered.hasPath_iff, hcontinues.hasPath_eq]
    exact .inl hn
  constructor
  case parents =>
    intro c t hct
    simp only [hmarker]
    exact h.parents_annotated hcontinues hv ((hcovered.same.mem_iff hp.parentRef_ne).1 hct)
  case hung =>
    intro n hn hopen
    rw [hmarker] at hn
    rw [hchild]
    cases hparent : ga.hasParent v n with
    | true =>
        obtain ⟨t, ht⟩ := hasParent_iff.1 hparent
        obtain ⟨-, p, rfl, -⟩ := h.parents_annotated hcontinues hv ht
        exact ⟨p, ht⟩
    | false =>
        -- a root without a path would hang from the subjects, and so have got its path
        have hold : g.hasPath v n = false := by
          rw [← Bool.not_eq_true] at hopen ⊢
          exact fun hn => hopen (hpath n hn)
        have hroot := h.mem_roots_of_open hcontinues hv hn hold hparent
        rw [← hcontinues.hasPath_eq] at hold
        rw [(hcovered.hasPath_iff n).2 (.inr (hangsFrom_root hroot hold))] at hopen
        cases hopen
  case loops =>
    intro n hn
    rw [hchild] at hn ⊢
    obtain ⟨m, hm, hway⟩ := h.exists_hasPath_above_loop hcontinues hv hcovered hn
    exact ⟨m, hpath m hm, hway⟩

end Run

end Graph

/-! ## The plant grows -/

/-- An event that brings no annotations but those of rules. -/
def Event.insertsRaw (v : Vocabulary) : Event → Bool
  | insert f => v.isRaw f
  | apply _ => true

theorem isRaw_of_insertsRaw {v : Vocabulary} {events : List Event}
    (h : events.all (Event.insertsRaw v) = true) (f : Fact) (hf : .insert f ∈ events) :
    v.isRaw f = true := List.all_eq_true.1 h _ hf

/-- At first there is a line alone, and after a run it gets a sensor. -/
def Plant.growth : List Event :=
  [.insert ⟨line1, .iri rdfTypeIri, lineKind⟩, .apply rules, .insert ⟨line1, has, sensor⟩]

/-- A line has a sensor, and after a run the sensor feeds the line. -/
def Plant.feedback : List Event :=
  [.insert ⟨line1, .iri rdfTypeIri, lineKind⟩, .insert ⟨sensor, .iri rdfTypeIri, sensorKind⟩,
    .insert ⟨line1, has, sensor⟩, .apply rules, .insert ⟨sensor, feeds, line1⟩]

/-- After the second run of the plant with feedback, the line is below itself. -/
theorem Plant.exists_loop_after_feedback : ∃ report g',
    engine.run rules (engine.after feedback .empty) =
      .ok (report, g') ∧
    Relation.TransGen (g'.IsChild engine.vocabulary) line1 line1 := by
  have hend : ((engine.run rules
      (engine.after feedback .empty)).toOption.any fun result =>
        engine.vocabulary.parentFact line1 sensor ∈ result.2.toList ∧
        engine.vocabulary.parentFact sensor line1 ∈ result.2.toList) = true := by
    decide +kernel
  obtain ⟨⟨report, g'⟩, hrun, hend⟩ := exists_eq_ok_of_any hend
  obtain ⟨hline, hsensor⟩ := of_decide_eq_true hend
  exact ⟨report, g', hrun, .tail (.single hline) hsensor⟩

namespace Engine

variable {e : Engine} {events : List Event} {rules : List Rule} {g g' : Graph}
  {report : RunReport}

/-- What the annotation passes of a run that succeeds continue, in terms of the subjects that its
path passes start from. -/
theorem continues_of_run_eq_ok (hrun : e.run rules g = .ok (report, g')) :
    Graph.Continues e.vocabulary (subjectsOf (rules.zip report.annotations)) g
      (e.annotator.annotateAll rules g).2 := by
  rw [subjectsOf_run hrun]
  exact e.continues_annotated rules g

/-- **All that raw facts and rules make of the empty graph is grown.** -/
theorem grown_after (hevents : ∀ f, .insert f ∈ events → e.vocabulary.isRaw f = true) :
    (e.after events .empty).Grown e.vocabulary := by
  refine after_invariant (fun f g hf h => h.put (hevents f hf)) ?_ (Graph.grown_empty _)
  intro rules report g g' hrun h
  exact h.run (continues_of_run_eq_ok hrun) e.distinct_vocabulary (covered_of_run_eq_ok hrun)

/-! ## Which objects get a path -/

/-- **Which nodes have a path** after a run on a graph that has grown: those that had one before,
and those that are reached from a root through objects none of which had a path before. What is put
only below objects with a path is left without one. -/
theorem one_path_iff_old_or_hanging
    (hevents : ∀ f, .insert f ∈ events → e.vocabulary.isRaw f = true)
    (happly : e.apply rules (e.after events .empty) = (.ok report, g')) (n : Node) :
    (g'.objects n e.vocabulary.objectPath).length ≤ 1 ∧
    ((g'.objects n e.vocabulary.objectPath).length = 1 ↔
      (e.after events .empty).hasPath e.vocabulary n = true ∨
      (g'.hierarchy e.vocabulary).Reached ((e.after events .empty).hasPath e.vocabulary)
        (g'.roots e.vocabulary (g'.hierarchyObjects e.vocabulary)) n) := by
  have hv := e.distinct_vocabulary
  have hrun := apply_eq_ok_iff.1 happly
  have hgrown := grown_after hevents
  have hcontinues := continues_of_run_eq_ok hrun
  have hcovered := covered_of_run_eq_ok hrun
  set g := e.after events .empty
  have hunambiguous : g'.Unambiguous e.vocabulary :=
    unambiguous_of_run_eq_ok hrun (unambiguous_after (fun n => ⟨Nat.zero_le 1, Nat.zero_le 1⟩)
      fun f hf => (Vocabulary.isRaw_iff.1 (hevents f hf)).1)
  have hlength := (hunambiguous n).2
  have hone : (g'.objects n e.vocabulary.objectPath).length = 1 ↔
      g'.hasPath e.vocabulary n = true := by
    rw [Graph.hasPath_iff, ← List.length_pos_iff]
    omega
  refine ⟨hlength, ?_⟩
  rw [hone, hcovered.hasPath_iff, hcontinues.hasPath_eq,
    hgrown.hangsFrom_iff_reached hcontinues hv hcovered]

/-- A sensor that the plant has had from the first run on keeps its one path in the second run. -/
theorem one_path_in_growing_plant : ∃ report g',
    (∀ f, .insert f ∈ Plant.feedback → Plant.engine.vocabulary.isRaw f = true) ∧
    Plant.engine.apply Plant.rules (Plant.engine.after Plant.feedback .empty) =
      (.ok report, g') ∧
    (Plant.engine.after Plant.feedback .empty).hasPath Plant.engine.vocabulary Plant.sensor = true ∧
    (g'.objects Plant.sensor Plant.engine.vocabulary.objectPath).length = 1 := by
  have hevents : ∀ f, .insert f ∈ Plant.feedback → Plant.engine.vocabulary.isRaw f = true :=
    isRaw_of_insertsRaw (by decide +kernel)
  have hpath : (Plant.engine.after Plant.feedback .empty).hasPath Plant.engine.vocabulary
      Plant.sensor = true := by decide +kernel
  obtain ⟨report, g', hrun, -⟩ := Plant.exists_loop_after_feedback
  have happly := apply_eq_ok_iff.2 hrun
  obtain ⟨-, hone⟩ := one_path_iff_old_or_hanging hevents happly Plant.sensor
  exact ⟨report, g', hevents, happly, hpath, hone.2 (.inl hpath)⟩

/-- **A run passes over an object that is put only below an object with a path.** The sensor of the
line is a hierarchy object after the second run, and it has no path. -/
theorem apply_passes_over_added_sensor : ∃ report g',
    (∀ f, .insert f ∈ Plant.growth → Plant.engine.vocabulary.isRaw f = true) ∧
    Rule.checkAll Plant.rules = .ok () ∧
    Plant.engine.apply Plant.rules (Plant.engine.after Plant.growth .empty) =
      (.ok report, g') ∧
    Plant.engine.vocabulary.markerFact Plant.sensor ∈ g'.toList ∧
    g'.objects Plant.sensor Plant.engine.vocabulary.objectPath = [] := by
  have hend : ((Plant.engine.run Plant.rules
      (Plant.engine.after Plant.growth .empty)).toOption.any fun result =>
        result.2.isObject Plant.engine.vocabulary Plant.sensor &&
          !result.2.hasPath Plant.engine.vocabulary Plant.sensor) = true := by decide +kernel
  obtain ⟨⟨report, g'⟩, hrun, hend⟩ := exists_eq_ok_of_any hend
  obtain ⟨hobject, hpath⟩ := Bool.and_eq_true_iff.1 hend
  rw [Bool.not_eq_true', Graph.hasPath, Graph.any_about_eq_false_iff] at hpath
  exact ⟨report, g', isRaw_of_insertsRaw (by decide +kernel), by decide +kernel,
    apply_eq_ok_iff.2 hrun, Graph.isObject_iff.1 hobject, hpath⟩

/-! ## Which loops are found -/

/-- **Which loops are left** by rules that are applied to a graph that has grown. If they fail,
there is a loop, and nothing has changed. If they succeed, every loop has an object with an old path
on it or above it; a loop without such an object is always found. -/
theorem loops_left_have_old_path_above
    (hevents : ∀ f, .insert f ∈ events → e.vocabulary.isRaw f = true)
    (hrules : Rule.checkAll rules = .ok ()) :
    (∀ cause g', e.apply rules (e.after events .empty) = (.error cause, g') →
      g' = e.after events .empty ∧
      (∃ rule chain, cause = .cyclicHierarchy rule chain) ∧
      ∃ n, Relation.TransGen
        ((e.annotator.annotateAll rules (e.after events .empty)).2.IsChild e.vocabulary) n n) ∧
    (∀ report g', e.apply rules (e.after events .empty) = (.ok report, g') →
      ∀ n, Relation.TransGen (g'.IsChild e.vocabulary) n n →
        ∃ m, (e.after events .empty).hasPath e.vocabulary m = true ∧
          Relation.ReflTransGen (g'.IsChild e.vocabulary) n m) ∧
    (∀ n, Relation.TransGen
        ((e.annotator.annotateAll rules (e.after events .empty)).2.IsChild e.vocabulary) n n →
      (∀ m, Relation.ReflTransGen
          ((e.annotator.annotateAll rules (e.after events .empty)).2.IsChild e.vocabulary) n m →
        (e.after events .empty).hasPath e.vocabulary m = false) →
      ∃ rule chain, e.apply rules (e.after events .empty) =
        (.error (.cyclicHierarchy rule chain), e.after events .empty)) := by
  set g := e.after events .empty
  set ga := (e.annotator.annotateAll rules g).2
  have hfails : ∀ cause, e.run rules g = .error cause →
      ∃ rule chain, cause = .cyclicHierarchy rule chain ∧
        ∃ n, Relation.TransGen (ga.IsChild e.vocabulary) n n :=
    fun cause hrun => exists_loop_of_run_eq_error hrules hrun
  have hleft : ∀ report g', e.run rules g = .ok (report, g') →
      ∀ n, Relation.TransGen (ga.IsChild e.vocabulary) n n →
        ∃ m, g.hasPath e.vocabulary m = true ∧
          Relation.ReflTransGen (ga.IsChild e.vocabulary) n m :=
    fun report g' hrun n hloop => (grown_after hevents).exists_hasPath_above_loop
      (continues_of_run_eq_ok hrun) e.distinct_vocabulary (covered_of_run_eq_ok hrun) hloop
  refine ⟨fun cause g' happly => ?_, fun report g' happly n hloop => ?_, fun n hloop hopen => ?_⟩
  · obtain ⟨hrun, rfl⟩ := apply_eq_error_iff.1 happly
    obtain ⟨rule, chain, hcause, hloop⟩ := hfails cause hrun
    exact ⟨rfl, ⟨rule, chain, hcause⟩, hloop⟩
  · have hrun := apply_eq_ok_iff.1 happly
    have hchild : g'.IsChild e.vocabulary = ga.IsChild e.vocabulary :=
      (covered_of_run_eq_ok hrun).same.isChild_eq e.distinct_vocabulary.isAside_objectPath
    rw [hchild] at hloop ⊢
    exact hleft report g' hrun n hloop
  · cases hrun : e.run rules g with
    | error cause =>
        obtain ⟨rule, chain, rfl, -⟩ := hfails cause hrun
        exact ⟨rule, chain, apply_eq_error_iff.2 ⟨hrun, rfl⟩⟩
    | ok result =>
        obtain ⟨report, g'⟩ := result
        obtain ⟨m, hm, hway⟩ := hleft report g' hrun n hloop
        rw [hopen m hway] at hm
        cases hm

/-- **A run passes over a loop that is closed through objects with paths.** The sensor of a line
feeds the line only after both have got their paths, and the run succeeds. -/
theorem apply_passes_over_added_loop : ∃ report g',
    (∀ f, .insert f ∈ Plant.feedback → Plant.engine.vocabulary.isRaw f = true) ∧
    Rule.checkAll Plant.rules = .ok () ∧
    Plant.engine.apply Plant.rules (Plant.engine.after Plant.feedback .empty) =
      (.ok report, g') ∧
    ∃ n, Relation.TransGen (g'.IsChild Plant.engine.vocabulary) n n := by
  obtain ⟨report, g', hrun, hloop⟩ := Plant.exists_loop_after_feedback
  exact ⟨report, g', isRaw_of_insertsRaw (by decide +kernel), by decide +kernel,
    apply_eq_ok_iff.2 hrun, Plant.line1, hloop⟩

/-- The loop that is left in the plant with feedback has an old path on it. -/
theorem loop_left_in_plant_with_feedback : ∃ report g',
    (∀ f, .insert f ∈ Plant.feedback → Plant.engine.vocabulary.isRaw f = true) ∧
    Rule.checkAll Plant.rules = .ok () ∧
    Plant.engine.apply Plant.rules (Plant.engine.after Plant.feedback .empty) =
      (.ok report, g') ∧
    Relation.TransGen (g'.IsChild Plant.engine.vocabulary) Plant.line1 Plant.line1 ∧
    ∃ m, (Plant.engine.after Plant.feedback .empty).hasPath Plant.engine.vocabulary m = true ∧
      Relation.ReflTransGen (g'.IsChild Plant.engine.vocabulary) Plant.line1 m := by
  have hevents : ∀ f, .insert f ∈ Plant.feedback → Plant.engine.vocabulary.isRaw f = true :=
    isRaw_of_insertsRaw (by decide +kernel)
  have hrules : Rule.checkAll Plant.rules = .ok () := by decide +kernel
  obtain ⟨report, g', hrun, hloop⟩ := Plant.exists_loop_after_feedback
  have happly := apply_eq_ok_iff.2 hrun
  obtain ⟨-, hleft, -⟩ := loops_left_have_old_path_above hevents hrules
  exact ⟨report, g', hevents, hrules, happly, hloop,
    hleft report g' happly Plant.line1 hloop⟩

end Engine

end FactHierarchy
