import FactHierarchy.Proofs.Path.Plan

/-!
# Reversions that are planned beforehand

A reversion decides what it asserts before it asserts anything: its roots (`Graph.rootsBelow`) and
its facts (`Graph.reversionFacts`) are its plan, and then it adds the facts to the graph
(`Graph.revert_eq`). The plan is made from annotations, so graphs that agree about all facts that
are not raw have the same plans (`Graph.Agree.rootsBelow_eq`, `Graph.Agree.reversionFacts_eq`).

A rule *asserts raw facts* when nothing that its reversion adds is an annotation
(`Rule.AssertsRaw`). Rules of this kind do not see what other rules have asserted before them. All
that the reversions of such rules do, one after the other, is planned in the graph that the first
of them starts from (`Engine.reverted_of_revertAll`).
-/

set_option autoImplicit false

namespace FactHierarchy

/-! ## Rules that assert raw facts -/

/-- **The rule asserts raw facts only**: neither its selector nor the predicate that its subjects
are named by nor its link predicate belongs to annotation. -/
structure Rule.AssertsRaw (v : Vocabulary) (r : Rule) : Prop where
  selector : r.selector.predicate ∉ v.predicates ∧
    ¬(r.selector.predicate = v.rdfType ∧ r.selector.value = v.hierarchyObject)
  nameSource : r.nameSource.ReadsRaw v
  link : ∀ predicate ∈ r.linkPredicate, v.IsRawPredicate predicate

instance (v : Vocabulary) : DecidablePred (Rule.AssertsRaw v) := fun r =>
  decidable_of_iff
    ((r.selector.predicate ∉ v.predicates ∧
        ¬(r.selector.predicate = v.rdfType ∧ r.selector.value = v.hierarchyObject)) ∧
      r.nameSource.ReadsRaw v ∧ ∀ predicate ∈ r.linkPredicate, v.IsRawPredicate predicate)
    ⟨fun ⟨hs, hn, hl⟩ => ⟨hs, hn, hl⟩, fun h => ⟨h.selector, h.nameSource, h.link⟩⟩

namespace Graph

variable {v : Vocabulary} {rule : Rule} {g g' g'' : Graph} {roots : List Node}
  {facts : List Fact} {objects : Nat}

/-! ## What a plan is made from -/

section Agree

variable (h : g.Agree (fun f => !v.isRaw f) g')
include h

/-- Graphs with the same annotations look alike. -/
theorem Agree.alike_annotations : g.Alike v (fun _ => True) g' := by
  refine h.alike (fun n _ => ?_) (fun n _ q hq t => ?_) (fun _ _ _ => .rfl) fun _ _ _ => .rfl
  · rw [Vocabulary.isRaw_markerFact, Bool.not_false]
  · have hpredicate : q ∈ v.predicates := by
      simp only [Vocabulary.predicates, List.mem_cons, List.not_mem_nil, or_false] at hq ⊢
      tauto
    rw [Vocabulary.isRaw_of_mem_predicates hpredicate, Bool.not_false]

theorem Agree.hierarchyObjects_eq : g.hierarchyObjects v = g'.hierarchyObjects v := by
  have hmarker : ∀ f : Fact, (Pattern.having v.rdfType v.hierarchyObject).fits f = true →
      (!v.isRaw f) = true := by
    rintro ⟨n, q, t⟩ hf
    obtain ⟨rfl, rfl⟩ := Pattern.fits_having.1 hf
    show (!v.isRaw (v.markerFact n)) = true
    rw [Vocabulary.isRaw_markerFact, Bool.not_false]
  rw [hierarchyObjects, hierarchyObjects, subjects, subjects,
    h.filter_eq (fun f _ => hmarker f) fun f _ => hmarker f]

/-- **The roots below a base path are read off the annotations.** -/
theorem Agree.rootsBelow_eq (base : String) : g.rootsBelow v base = g'.rootsBelow v base := by
  have halike := h.alike_annotations
  have hroots : g.roots v (g.hierarchyObjects v) = g'.roots v (g'.hierarchyObjects v) := by
    rw [h.hierarchyObjects_eq]
    exact halike.roots_eq fun _ _ => trivial
  rw [rootsBelow, rootsBelow, hroots]
  refine List.filter_congr fun n _ => ?_
  have hname : g.nameOf v n = g'.nameOf v n :=
    valueText_congr (halike.objects_eq n trivial _ (by simp))
  have hpath : g.valueText n v.objectPath = g'.valueText n v.objectPath :=
    valueText_congr (halike.objects_eq n trivial _ (by simp))
  rw [hname, hpath]

theorem Agree.objectFacts_eq (n : Node) : g.objectFacts v rule n = g'.objectFacts v rule n := by
  have hname : g.object? n v.objectName = g'.object? n v.objectName := by
    rw [object?, object?, h.alike_annotations.objects_eq n trivial _ (by simp)]
  rw [objectFacts, objectFacts, hname]

/-- **So are the facts that a reversion derives from roots.** -/
theorem Agree.reversionFacts_eq (roots : List Node) :
    g.reversionFacts v rule roots = g'.reversionFacts v rule roots := by
  have hobject : g.objectFacts v rule = g'.objectFacts v rule := funext h.objectFacts_eq
  have hdescend : (g.hierarchy v).descend (fun _ => false) roots =
      (g'.hierarchy v).descend (fun _ => false) roots :=
    h.alike_annotations.hierarchy_alike.descend_eq (fun _ _ => rfl) fun _ _ => trivial
  have hvisit : ∀ predicate, g.visitFacts v rule predicate = g'.visitFacts v rule predicate := by
    intro predicate
    funext visit
    rw [visitFacts, visitFacts, hobject]
  unfold reversionFacts
  simp only [hobject, hdescend, hvisit]

end Agree

/-! ## What a plan says -/

/-- The facts about an object that a rule which asserts raw facts derives are raw. -/
theorem isRaw_of_mem_objectFacts (hrule : rule.AssertsRaw v) {n : Node} {f : Fact}
    (hf : f ∈ g.objectFacts v rule n) : v.isRaw f = true := by
  have hsource := hrule.nameSource
  unfold objectFacts at hf
  rcases List.mem_cons.1 hf with rfl | hf
  · exact Vocabulary.isRaw_iff.2 hrule.selector
  · cases hname : rule.nameSource with
    | fromValue predicate =>
        rw [hname] at hf hsource
        obtain ⟨name, -, rfl⟩ := List.mem_map.1 hf
        exact Vocabulary.isRaw_of_isRawPredicate hsource
    | fixed name =>
        rw [hname] at hf
        cases hf
    | localName =>
        rw [hname] at hf
        cases hf

/-- **All facts of a plan are raw**, if the rule asserts raw facts. -/
theorem isRaw_of_mem_reversionFacts (hrule : rule.AssertsRaw v)
    (h : g.reversionFacts v rule roots = .ok (facts, objects)) {f : Fact} (hf : f ∈ facts) :
    v.isRaw f = true := by
  unfold reversionFacts at h
  split at h
  · obtain ⟨rfl, -⟩ := Prod.mk.inj (Except.ok.inj h)
    obtain ⟨n, -, hf⟩ := List.mem_flatMap.1 hf
    exact isRaw_of_mem_objectFacts hrule hf
  · next predicate hlink =>
    split at h
    · cases h
    · next visits _ =>
      obtain ⟨rfl, -⟩ := Prod.mk.inj (Except.ok.inj h)
      obtain ⟨visit, -, hf⟩ := List.mem_flatMap.1 hf
      unfold visitFacts at hf
      rcases List.mem_append.1 hf with hf | hf
      · obtain ⟨parent, -, rfl⟩ := List.mem_map.1 hf
        exact Vocabulary.isRaw_of_isRawPredicate (hrule.link predicate hlink)
      · split at hf
        · exact isRaw_of_mem_objectFacts hrule hf
        · cases hf

/-- A descent into a hierarchy in which no way down goes on for ever comes to no loop. -/
theorem exists_descend_of_acc (hacc : ∀ n, Acc (g.IsChild v) n) (closed : Node → Bool)
    (roots : List Node) : ∃ visits, (g.hierarchy v).descend closed roots = .ok visits := by
  cases hvisits : (g.hierarchy v).descend closed roots with
  | ok visits => exact ⟨visits, rfl⟩
  | error chain =>
      -- the chain that is reported would contain a loop of children
      obtain ⟨n, hn⟩ := (Hierarchy.runsIntoItself_of_descend_eq_error hvisits).exists_loop
      have hloop : Relation.TransGen (g.IsChild v) n n :=
        Relation.TransGen.mono (fun c p hc => mem_nodesBelow.1 hc) n n hn
      exact absurd hloop (not_transGen_self_of_acc (hacc n))

/-- So there is a plan then. -/
theorem exists_reversionFacts_of_acc (hacc : ∀ n, Acc (g.IsChild v) n) (rule : Rule)
    (roots : List Node) : ∃ plan, g.reversionFacts v rule roots = .ok plan := by
  unfold reversionFacts
  split
  · exact ⟨_, rfl⟩
  · obtain ⟨visits, hvisits⟩ := exists_descend_of_acc hacc (fun _ => false) roots
    rw [hvisits]
    exact ⟨_, rfl⟩

/-! ## Adding what is planned -/

theorem insertAll_snd (g : Graph) (facts : List Fact) : (g.insertAll facts).2 = g.extend facts := by
  -- every step puts its fact, whatever it counts
  have hfold : ∀ step : Nat × Graph → Fact → Nat × Graph, (∀ s f, (step s f).2 = s.2.put f) →
      ∀ s, (facts.foldl step s).2 = s.2.extend facts := by
    intro step hstep
    induction facts with
    | nil => exact fun s => rfl
    | cons f facts ih =>
        intro s
        rw [List.foldl_cons, ih, hstep, extend_cons]
  exact hfold _ (fun _ _ => rfl) (0, g)

/-- A fact that is there already is not put. -/
theorem put_of_mem {f : Fact} (hf : f ∈ g.toList) : g.put f = g := by
  have hlookup : g.table.lookup.contains f = true := (g.contains_iff f).2 hf
  have htable : g.table.insert f = g.table := if_pos hlookup
  unfold put
  simp only [htable]

/-- **Facts that are there already are not added.** -/
theorem insertAll_of_subset (hfacts : ∀ f ∈ facts, f ∈ g.toList) :
    g.insertAll facts = (0, g) := by
  unfold insertAll
  induction facts with
  | nil => rfl
  | cons f facts ih =>
      obtain ⟨hf, hfacts⟩ := List.forall_mem_cons.1 hfacts
      have hcontains : g.contains f = true := (g.contains_iff f).2 hf
      rw [List.foldl_cons]
      simp only [insert, put_of_mem hf, hcontains, Bool.not_true, Bool.false_eq_true, if_false]
      exact ih hfacts

/-- **A reversion does what its plan says.** -/
theorem revert_eq (g : Graph) (v : Vocabulary) (rule : Rule) :
    g.revert v rule =
      match g.reversionFacts v rule (g.rootsBelow v rule.basePath) with
      | .error chain => .error (.cyclicHierarchy rule.id chain)
      | .ok (facts, objects) =>
        .ok (⟨rule.id, g.rootsBelow v rule.basePath, objects, (g.insertAll facts).1⟩,
          g.extend facts) := by
  unfold revert
  dsimp only
  cases g.reversionFacts v rule (g.rootsBelow v rule.basePath) with
  | error chain => rfl
  | ok plan =>
      dsimp only
      rw [insertAll_snd]

/-- **The report on a reversion follows the plan in the graph `g`**, and all facts of the plan are
in the graph `g'`. -/
structure Reverted (v : Vocabulary) (g g' : Graph) (rule : Rule) (report : ReversionReport) :
    Prop where
  rule_eq : report.rule = rule.id
  roots_eq : report.roots = g.rootsBelow v rule.basePath
  facts : ∃ facts, g.reversionFacts v rule report.roots = .ok (facts, report.objects) ∧
    ∀ f ∈ facts, f ∈ g'.toList

theorem Reverted.mono {report : ReversionReport} (h : g.Reverted v g' rule report)
    (hsub : ∀ f ∈ g'.toList, f ∈ g''.toList) : g.Reverted v g'' rule report := by
  obtain ⟨facts, hplan, hfacts⟩ := h.facts
  exact ⟨h.rule_eq, h.roots_eq, facts, hplan, fun f hf => hsub f (hfacts f hf)⟩

/-- What the reversion of a rule that asserts raw facts does, planned in any graph with the same
annotations. -/
theorem reverted_of_revert {report : ReversionReport} (hrule : rule.AssertsRaw v)
    (hagree : g'.Agree (fun f => !v.isRaw f) g) (h : g'.revert v rule = .ok (report, g'')) :
    g''.Agree (fun f => !v.isRaw f) g ∧ (∀ f ∈ g'.toList, f ∈ g''.toList) ∧
      g.Reverted v g'' rule report := by
  rw [revert_eq, hagree.rootsBelow_eq, hagree.reversionFacts_eq] at h
  split at h
  · cases h
  · next facts objects hplan =>
    obtain ⟨rfl, rfl⟩ := Prod.mk.inj (Except.ok.inj h)
    refine ⟨?_, fun f hf => mem_toList_extend.2 (.inl hf), rfl, rfl, facts, hplan,
      fun f hf => mem_toList_extend.2 (.inr hf)⟩
    refine Agree.trans (agree_extend fun f hf => ?_) hagree
    rw [isRaw_of_mem_reversionFacts hrule hplan hf, Bool.not_true]

/-- Where all facts of its plan are there, a reversion adds nothing. -/
theorem Reverted.revert_eq {report : ReversionReport} (h : g.Reverted v g' rule report)
    (hagree : g'.Agree (fun f => !v.isRaw f) g) :
    g'.revert v rule = .ok ({ report with added := 0 }, g') := by
  obtain ⟨facts, hplan, hfacts⟩ := h.facts
  unfold revert
  simp only [hagree.rootsBelow_eq, hagree.reversionFacts_eq, ← h.rule_eq, ← h.roots_eq, hplan,
    insertAll_of_subset hfacts]

end Graph

/-! ## Reversions one after the other -/

namespace Engine

variable {e : Engine} {rules : List Rule} {g g₀ g' : Graph} {reports : List ReversionReport}

/-- The reversions of several rules, with the first one apart. -/
theorem revertAll_cons (rule : Rule) (rules : List Rule) (g : Graph) :
    e.revertAll (rule :: rules) g =
      match g.revert e.vocabulary rule with
      | .error cause => (.error cause, g)
      | .ok (report, g') =>
        ((e.revertAll rules g').1.map (report :: ·), (e.revertAll rules g').2) := rfl

/-- **What reversions do, one after the other, is planned in one graph** with the same annotations
as the one that they start from. They leave the annotations alone and take nothing away. -/
theorem reverted_of_revertAll (hrules : ∀ rule ∈ rules, rule.AssertsRaw e.vocabulary)
    (hagree : g.Agree (fun f => !e.vocabulary.isRaw f) g₀)
    (h : e.revertAll rules g = (.ok reports, g')) :
    g'.Agree (fun f => !e.vocabulary.isRaw f) g₀ ∧ (∀ f ∈ g.toList, f ∈ g'.toList) ∧
      List.Forall₂ (g₀.Reverted e.vocabulary g') rules reports := by
  induction rules generalizing g reports with
  | nil =>
      obtain ⟨hreports, rfl⟩ := Prod.mk.inj h
      obtain rfl := Except.ok.inj hreports
      exact ⟨hagree, fun f hf => hf, .nil⟩
  | cons rule rules ih =>
      obtain ⟨hrule, hrules⟩ := List.forall_mem_cons.1 hrules
      rw [revertAll_cons] at h
      split at h
      · cases (Prod.mk.inj h).1
      · next report g₁ hfirst =>
        obtain ⟨hagree₁, hsub₁, hreverted⟩ := Graph.reverted_of_revert hrule hagree hfirst
        obtain ⟨hreports, hend⟩ := Prod.mk.inj h
        cases hrest : (e.revertAll rules g₁).1 with
        | error cause =>
            rw [hrest] at hreports
            cases hreports
        | ok rest =>
            rw [hrest] at hreports
            obtain rfl := Except.ok.inj hreports
            obtain ⟨hagree', hsub', hreverteds⟩ := ih hrules hagree₁ (Prod.ext hrest hend)
            exact ⟨hagree', fun f hf => hsub' f (hsub₁ f hf),
              .cons (hreverted.mono hsub') hreverteds⟩

/-- **Where every rule has a plan, all reversions succeed.** -/
theorem exists_revertAll (hrules : ∀ rule ∈ rules, rule.AssertsRaw e.vocabulary)
    (hagree : g.Agree (fun f => !e.vocabulary.isRaw f) g₀)
    (hplan : ∀ rule roots, ∃ plan, g₀.reversionFacts e.vocabulary rule roots = .ok plan) :
    ∃ reports g', e.revertAll rules g = (.ok reports, g') := by
  induction rules generalizing g with
  | nil => exact ⟨[], g, rfl⟩
  | cons rule rules ih =>
      obtain ⟨hrule, hrules⟩ := List.forall_mem_cons.1 hrules
      obtain ⟨⟨facts, objects⟩, hfacts⟩ := hplan rule (g₀.rootsBelow e.vocabulary rule.basePath)
      cases hfirst : g.revert e.vocabulary rule with
      | error cause =>
          rw [Graph.revert_eq, hagree.rootsBelow_eq, hagree.reversionFacts_eq, hfacts] at hfirst
          cases hfirst
      | ok result =>
          obtain ⟨report, g₁⟩ := result
          obtain ⟨hagree₁, -, -⟩ := Graph.reverted_of_revert hrule hagree hfirst
          obtain ⟨reports, g', hrest⟩ := ih hrules hagree₁
          refine ⟨report :: reports, g', ?_⟩
          rw [revertAll_cons, hfirst]
          dsimp only
          rw [hrest]
          rfl

/-- **Where all that is planned has been asserted, nothing is left to be done.** -/
theorem revertAll_of_reverted (hagree : g.Agree (fun f => !e.vocabulary.isRaw f) g₀)
    (h : List.Forall₂ (g₀.Reverted e.vocabulary g) rules reports) :
    e.revertAll rules g = (.ok (reports.map fun report => { report with added := 0 }), g) := by
  induction h with
  | nil => rfl
  | cons hreverted _ ih =>
      rw [revertAll_cons, hreverted.revert_eq hagree]
      dsimp only
      rw [ih]
      rfl

/-- A reversion that succeeds has passed the check of its rules. -/
theorem revertAll_of_revert_eq_ok (h : e.revert rules g = (.ok reports, g')) :
    Rule.checkAll rules = .ok () ∧ e.revertAll rules g = (.ok reports, g') := by
  unfold revert at h
  split at h
  · cases (Prod.mk.inj h).1
  · next hcheck => exact ⟨hcheck, h⟩

/-- **A reversion fails for no other cause than a loop.** -/
theorem exists_of_revertAll_eq_error {cause : RunError}
    (h : (e.revertAll rules g).1 = .error cause) :
    ∃ rule chain, cause = .cyclicHierarchy rule chain := by
  induction rules generalizing g with
  | nil => cases h
  | cons rule rules ih =>
      rw [revertAll_cons, Graph.revert_eq] at h
      cases hplan : g.reversionFacts e.vocabulary rule (g.rootsBelow e.vocabulary rule.basePath) with
      | error chain =>
          rw [hplan] at h
          exact ⟨rule.id, chain, (Except.error.inj h).symm⟩
      | ok plan =>
          rw [hplan] at h
          dsimp only at h
          cases hrest : (e.revertAll rules (g.extend plan.1)).1 with
          | error cause' =>
              rw [hrest] at h
              obtain rfl := Except.error.inj h
              exact ih hrest
          | ok reports =>
              rw [hrest] at h
              cases h

/-- Sound rules are reverted one after the other. -/
theorem revert_of_checkAll (hcheck : Rule.checkAll rules = .ok ()) (g : Graph) :
    e.revert rules g = e.revertAll rules g := by
  rw [revert, hcheck]

end Engine

end FactHierarchy
