import FactHierarchy.Proofs.Annotation.Act

/-!
# The acts that annotation performs

Rules may name any predicates, also those that annotation writes under. What a pass does then hangs
on what was done before, so its acts cannot be planned beforehand (`Annotator.acts`), but they can
be listed as they come. `Annotator.performed` lists the acts of all passes. Each of them is chosen
in the graph that the acts before it have led to, and together they are all that annotation does
(`Annotator.annotateAll_eq_performed`).

The list tells which nodes are enumerated as named children (`Annotator.EnumeratesNamed`), as no
other nodes are adopted (`Annotator.of_adopt_mem_performed`). What every act keeps every pass keeps
(`Annotator.annotate_leadsTo`).
-/

set_option autoImplicit false

namespace FactHierarchy

/-! ## Lists of acts that are chosen as they come -/

namespace Act

variable {α : Type} {a : Annotator} {g g' g'' : Graph} {all part part' : List Act}

/-- The acts for several things in turn. Those for each thing are chosen in the graph that the acts
before them have led to. -/
def inTurn (a : Annotator) (acts : α → Graph → List Act) : List α → Graph → List Act
  | [], _ => []
  | x :: xs, g => acts x g ++ inTurn a acts xs (writeAll a (acts x g) g)

/-- **A stretch of a list of acts**: `part` stands in `all`. When `all` is begun in `g`, then `part`
is begun in `g'`. -/
def Stretch (a : Annotator) (g : Graph) (all : List Act) (g' : Graph) (part : List Act) : Prop :=
  ∃ before after, all = before ++ part ++ after ∧ g' = writeAll a before g

theorem Stretch.trans (h : Stretch a g all g' part) (h' : Stretch a g' part g'' part') :
    Stretch a g all g'' part' := by
  obtain ⟨before, after, rfl, rfl⟩ := h
  obtain ⟨before', after', rfl, rfl⟩ := h'
  refine ⟨before ++ before', after' ++ after, ?_, ?_⟩
  · simp only [List.append_assoc]
  · rw [writeAll_append]

theorem Stretch.cons {act : Act} (h : Stretch a (act.write a g) all g' part) :
    Stretch a g (act :: all) g' part := by
  obtain ⟨before, after, rfl, rfl⟩ := h
  exact ⟨act :: before, after, rfl, rfl⟩

theorem Stretch.subset (h : Stretch a g all g' part) : part ⊆ all := by
  obtain ⟨before, after, rfl, -⟩ := h
  intro act hact
  exact List.mem_append_left _ (List.mem_append_right _ hact)

/-- **What is done in turn is done for one thing or another**, in a stretch of its own. -/
theorem exists_stretch_of_mem_inTurn {acts : α → Graph → List Act} {xs : List α} {act : Act}
    (hact : act ∈ inTurn a acts xs g) :
    ∃ x ∈ xs, ∃ g', Stretch a g (inTurn a acts xs g) g' (acts x g') ∧ act ∈ acts x g' := by
  induction xs generalizing g with
  | nil => cases hact
  | cons x xs ih =>
      rcases List.mem_append.1 hact with hact | hact
      · refine ⟨x, List.mem_cons_self .., g, ⟨[], _, rfl, rfl⟩, hact⟩
      · obtain ⟨y, hy, g', hstretch, hact⟩ := ih hact
        have hrest : Stretch a g (inTurn a acts (x :: xs) g) (writeAll a (acts x g) g)
            (inTurn a acts xs (writeAll a (acts x g) g)) :=
          ⟨acts x g, [], (List.append_nil _).symm, rfl⟩
        exact ⟨y, List.mem_cons_of_mem _ hy, g', hrest.trans hstretch, hact⟩

end Act

/-- A pass over several things performs the acts for them in turn. -/
theorem AnnotationPass.foldl_eq_inTurn {α : Type} {a : Annotator}
    {step : AnnotationPass → α → AnnotationPass} {acts : α → Graph → List Act}
    (hstep : ∀ s x, step s x = (acts x s.graph).foldl (perform a) s) (xs : List α)
    (s : AnnotationPass) :
    xs.foldl step s = (Act.inTurn a acts xs s.graph).foldl (perform a) s := by
  induction xs generalizing s with
  | nil => rfl
  | cons x xs ih =>
      rw [List.foldl_cons, hstep, ih, graph_foldl_perform, Act.inTurn, List.foldl_append]

/-! ## The acts of annotation -/

namespace Annotator

/-- The acts for the children of one scope. The table holds the names claimed in the scope. -/
def performedChildren (a : Annotator) (rule : Rule) (parent : Node) (relation : Relation) :
    List Node → TakenNames → Graph → List Act
  | [], _, _ => []
  | child :: children, names, g =>
    let name := relation.nameSource.nameIn g child
    if name.isEmpty then
      .leaveOut ⟨rule.id, child, .child parent relation.predicate⟩ ::
        a.performedChildren rule parent relation children names g
    else
      let (given, names) := names.claim name
      .adopt parent child given ::
        a.performedChildren rule parent relation children names (a.adopt parent child given g)

/-- The acts for one scope. -/
def performedScope (a : Annotator) (rule : Rule) (parent : Node) (relation : Relation)
    (g : Graph) : List Act :=
  a.performedChildren rule parent relation
    ((g.objects parent relation.predicate).filterMap Term.node?) .empty g

/-- The acts for the properties of a subject. The schema nodes in `described` were described for
this subject and are not described again. -/
def performedProperties (a : Annotator) (rule : Rule) (subject : Node) :
    List Relation → List Node → Graph → List Act
  | [], _, _ => []
  | relation :: relations, described, g =>
    let name := relation.nameSource.nameIn g subject
    if name.isEmpty then
      .leaveOut ⟨rule.id, subject, .property relation.predicate⟩ ::
        a.performedProperties rule subject relations described g
    else
      let schema := propertyNode name rule.id a.propertyNamespace
      let acts := (if schema ∈ described then [] else
        [.describe schema name relation.predicate]) ++ [.link subject schema]
      acts ++ a.performedProperties rule subject relations (schema :: described)
        (Act.writeAll a acts g)

/-- The acts for one selected subject. -/
def performedSubject (a : Annotator) (rule : Rule) (subject : Node) (g : Graph) : List Act :=
  let name := rule.nameSource.nameIn g subject
  if name.isEmpty then [.leaveOut ⟨rule.id, subject, .root⟩]
  else
    let enrolled := a.annotateRoot subject name g
    let scopes := Act.inTurn a (a.performedScope rule subject) rule.children enrolled
    .enrol subject name :: (scopes ++
      a.performedProperties rule subject rule.properties [] (Act.writeAll a scopes enrolled))

/-- The acts of the pass of one rule. -/
def performedRule (a : Annotator) (rule : Rule) (g : Graph) : List Act :=
  Act.inTurn a (a.performedSubject rule) (rule.selector.subjects g) g

/-- **The acts of the passes of several rules**, as they are performed. -/
def performed (a : Annotator) (rules : List Rule) (g : Graph) : List Act :=
  Act.inTurn a a.performedRule rules g

/-- **The node is enumerated as a named child**: it stands in a scope when a rule comes to this scope
in `g₁`, and it has a name when its turn comes in `g₂`, so it is adopted. -/
def EnumeratesNamed (a : Annotator) (rules : List Rule) (g : Graph) (child : Node) : Prop :=
  ∃ rule ∈ rules, ∃ relation ∈ rule.children, ∃ parent g₁ g₂ given,
    Act.Stretch a g (a.performed rules g) g₁ (a.performedScope rule parent relation g₁) ∧
      ⟨parent, relation.predicate, child⟩ ∈ g₁.toList ∧
      Act.Stretch a g₁ (a.performedScope rule parent relation g₁) g₂ [.adopt parent child given] ∧
      relation.nameSource.nameIn g₂ child ≠ ""

/-! ## Annotation performs them -/

open AnnotationPass

variable {a : Annotator} {rule : Rule} {parent child : Node} {relation : Relation} {g : Graph}

theorem annotateChildren_eq_performed {children : List Node} {names : TakenNames}
    {s : AnnotationPass} :
    a.annotateChildren rule parent relation children names s =
      (a.performedChildren rule parent relation children names s.graph).foldl (perform a) s := by
  induction children generalizing names s with
  | nil => rfl
  | cons child children ih =>
      rw [annotateChildren, performedChildren]
      split
      · rw [List.foldl_cons, perform_leaveOut]
        exact ih
      · obtain ⟨given, names⟩ := names.claim (relation.nameSource.nameIn s.graph child)
        rw [List.foldl_cons, perform_adopt]
        exact ih

theorem annotateScope_eq_performed (relation : Relation) (s : AnnotationPass) :
    a.annotateScope rule parent s relation =
      (a.performedScope rule parent relation s.graph).foldl (perform a) s :=
  annotateChildren_eq_performed

theorem annotateProperties_eq_performed {subject : Node} {relations : List Relation}
    {described : List Node} {s : AnnotationPass} :
    a.annotateProperties rule subject relations described s =
      (a.performedProperties rule subject relations described s.graph).foldl (perform a) s := by
  induction relations generalizing described s with
  | nil => rfl
  | cons relation relations ih =>
      rw [annotateProperties, performedProperties]
      split
      · rw [List.foldl_cons, perform_leaveOut]
        exact ih
      · dsimp only
        set name := relation.nameSource.nameIn s.graph subject
        set schema := propertyNode name rule.id a.propertyNamespace
        set acts : List Act := (if schema ∈ described then [] else
          [.describe schema name relation.predicate]) ++ [.link subject schema] with hacts
        set described' : Graph := if schema ∈ described then s.graph else
          a.describe schema name relation.predicate s.graph with hdescribed'
        have hstate :
            { s with graph := described'.put ⟨subject, a.vocabulary.hasProperty, schema⟩ } =
              acts.foldl (perform a) s := by
          rw [hdescribed']
          by_cases hdescribed : schema ∈ described
          · rw [hacts, if_pos hdescribed, if_pos hdescribed, List.nil_append, List.foldl_cons,
              perform_link, List.foldl_nil]
          · rw [hacts, if_neg hdescribed, if_neg hdescribed, List.singleton_append,
              List.foldl_cons, List.foldl_cons, perform_describe, perform_link, List.foldl_nil]
        rw [hstate, ih, graph_foldl_perform]
        exact List.foldl_append.symm

theorem annotateSubject_eq_performed (subject : Node) (s : AnnotationPass) :
    a.annotateSubject rule s subject =
      (a.performedSubject rule subject s.graph).foldl (perform a) s := by
  have hscopes : ∀ s : AnnotationPass, rule.children.foldl (a.annotateScope rule subject) s =
      (Act.inTurn a (a.performedScope rule subject) rule.children s.graph).foldl (perform a) s :=
    foldl_eq_inTurn (fun s relation => annotateScope_eq_performed relation s) rule.children
  rw [annotateSubject, performedSubject]
  split
  · rw [List.foldl_cons, perform_leaveOut]
    rfl
  · dsimp only
    rw [← perform_enrol]
    set enrolled := s.perform a (.enrol subject (rule.nameSource.nameIn s.graph subject))
      with henrolled
    set scopes := Act.inTurn a (a.performedScope rule subject) rule.children enrolled.graph
    rw [hscopes, annotateProperties_eq_performed, graph_foldl_perform, List.foldl_cons,
      List.foldl_append, ← henrolled]
    rfl

theorem annotate_eq_performed (a : Annotator) (rule : Rule) (g : Graph) :
    a.annotate rule g =
      (⟨rule.id, (a.performedRule rule g).filterMap Act.enrolled,
        (a.performedRule rule g).filterMap Act.omission⟩,
        Act.writeAll a (a.performedRule rule g) g) := by
  have hpass : (rule.selector.subjects g).foldl (a.annotateSubject rule) { graph := g } =
      (a.performedRule rule g).foldl (perform a) { graph := g } :=
    foldl_eq_inTurn (fun s subject => annotateSubject_eq_performed subject s) _ _
  rw [annotate, hpass, foldl_perform]
  rfl

/-- **Annotation is what the list of its acts says**, whatever predicates the rules name. -/
theorem annotateAll_eq_performed (a : Annotator) (rules : List Rule) (g : Graph) :
    (a.annotateAll rules g).2 = Act.writeAll a (a.performed rules g) g ∧
      (a.annotateAll rules g).1.flatMap AnnotationReport.processed =
        (a.performed rules g).filterMap Act.enrolled ∧
      (a.annotateAll rules g).1.flatMap AnnotationReport.omissions =
        (a.performed rules g).filterMap Act.omission := by
  induction rules generalizing g with
  | nil => exact ⟨rfl, rfl, rfl⟩
  | cons rule rules ih =>
      obtain ⟨hgraph, hprocessed, homissions⟩ :=
        ih (Act.writeAll a (a.performedRule rule g) g)
      have hcons : a.performed (rule :: rules) g = a.performedRule rule g ++
          a.performed rules (Act.writeAll a (a.performedRule rule g) g) := rfl
      rw [annotateAll, annotate_eq_performed, hcons]
      dsimp only
      refine ⟨?_, ?_, ?_⟩
      · rw [hgraph, Act.writeAll_append]
      · rw [List.flatMap_cons, hprocessed, List.filterMap_append]
      · rw [List.flatMap_cons, homissions, List.filterMap_append]

/-! ## Who is adopted -/

theorem of_adopt_mem_performedChildren {p c : Node} {given : String} {children : List Node}
    {names : TakenNames}
    (hact : .adopt p c given ∈ a.performedChildren rule parent relation children names g) :
    p = parent ∧ c ∈ children ∧ ∃ g',
      Act.Stretch a g (a.performedChildren rule parent relation children names g) g'
        [.adopt p c given] ∧
      relation.nameSource.nameIn g' c ≠ "" := by
  induction children generalizing names g with
  | nil => cases hact
  | cons child children ih =>
      rw [performedChildren] at hact ⊢
      split at hact
      · next hname =>
        obtain ⟨hp, hc, g', hstretch, hne⟩ := ih ((List.mem_cons.1 hact).resolve_left nofun)
        rw [if_pos hname]
        exact ⟨hp, List.mem_cons_of_mem _ hc, g', .cons hstretch, hne⟩
      · next hname =>
        rw [if_neg hname]
        generalize names.claim (relation.nameSource.nameIn g child) = claimed at hact ⊢
        obtain ⟨first, names⟩ := claimed
        dsimp only at hact ⊢
        rcases List.mem_cons.1 hact with heq | hact
        · obtain ⟨rfl, rfl, rfl⟩ := Act.adopt.inj heq
          refine ⟨rfl, List.mem_cons_self .., g, ⟨[], _, rfl, rfl⟩, ?_⟩
          simpa [String.isEmpty_iff] using hname
        · obtain ⟨hp, hc, g', hstretch, hne⟩ := ih hact
          exact ⟨hp, List.mem_cons_of_mem _ hc, g', .cons hstretch, hne⟩

/-- **In a scope, the parent adopts what it reaches**, under a name. -/
theorem of_adopt_mem_performedScope {p c : Node} {given : String}
    (hact : .adopt p c given ∈ a.performedScope rule parent relation g) :
    p = parent ∧ ⟨parent, relation.predicate, c⟩ ∈ g.toList ∧ ∃ g',
      Act.Stretch a g (a.performedScope rule parent relation g) g' [.adopt p c given] ∧
      relation.nameSource.nameIn g' c ≠ "" := by
  obtain ⟨hp, hc, hturn⟩ := of_adopt_mem_performedChildren hact
  exact ⟨hp, Graph.mem_objectNodes.1 hc, hturn⟩

theorem adopt_not_mem_performedProperties {p c subject : Node} {given : String}
    {relations : List Relation} {described : List Node} :
    .adopt p c given ∉ a.performedProperties rule subject relations described g := by
  induction relations generalizing described g with
  | nil => exact List.not_mem_nil
  | cons relation relations ih =>
      rw [performedProperties]
      split
      · simp [ih]
      · dsimp only
        split <;> simp [ih]

/-- **A subject adopts in its scopes**, and before that it is enrolled. -/
theorem of_adopt_mem_performedSubject {p c subject : Node} {given : String}
    (hact : .adopt p c given ∈ a.performedSubject rule subject g) :
    subject ∈ (a.performedSubject rule subject g).filterMap Act.enrolled ∧
      ∃ relation ∈ rule.children, ∃ g', Act.Stretch a g (a.performedSubject rule subject g) g'
          (a.performedScope rule subject relation g') ∧
        .adopt p c given ∈ a.performedScope rule subject relation g' := by
  rw [performedSubject] at hact ⊢
  split at hact
  · simp at hact
  · next hname =>
    rw [if_neg hname]
    dsimp only at hact ⊢
    set name := rule.nameSource.nameIn g subject
    set enrolled := a.annotateRoot subject name g
    set scopes := Act.inTurn a (a.performedScope rule subject) rule.children enrolled
    set described := a.performedProperties rule subject rule.properties []
      (Act.writeAll a scopes enrolled)
    have hact := (List.mem_cons.1 hact).resolve_left nofun
    have hscopes : .adopt p c given ∈ scopes :=
      (List.mem_append.1 hact).resolve_right adopt_not_mem_performedProperties
    obtain ⟨relation, hrelation, g', hstretch, hact⟩ := Act.exists_stretch_of_mem_inTurn hscopes
    have hpart : Act.Stretch a g (.enrol subject name :: (scopes ++ described)) enrolled scopes :=
      ⟨[.enrol subject name], described, rfl, rfl⟩
    exact ⟨List.mem_filterMap.2 ⟨.enrol subject name, List.mem_cons_self .., rfl⟩, relation,
      hrelation, g', hpart.trans hstretch, hact⟩

/-- **Whoever is adopted is enumerated as a named child**, below a subject that is enrolled. -/
theorem of_adopt_mem_performed {rules : List Rule} {p c : Node} {given : String}
    (hact : .adopt p c given ∈ a.performed rules g) :
    p ∈ (a.performed rules g).filterMap Act.enrolled ∧ a.EnumeratesNamed rules g c := by
  obtain ⟨rule, hrule, g₁, hpass, hact⟩ := Act.exists_stretch_of_mem_inTurn hact
  obtain ⟨subject, -, g₂, hsubject, hact⟩ := Act.exists_stretch_of_mem_inTurn hact
  obtain ⟨henrolled, relation, hrelation, g₃, hscope, hact⟩ := of_adopt_mem_performedSubject hact
  obtain ⟨rfl, hfact, g₄, hturn, hname⟩ := of_adopt_mem_performedScope hact
  have hstretch := hpass.trans hsubject
  refine ⟨?_, rule, hrule, relation, hrelation, p, g₃, g₄, given, hstretch.trans hscope, hfact,
    hturn, hname⟩
  obtain ⟨act, hmem, heq⟩ := List.mem_filterMap.1 henrolled
  exact List.mem_filterMap.2 ⟨act, hstretch.subset hmem, heq⟩

/-! ## Acts fit one after the other -/

theorem leadsTo_performedSubject (subject : Node) (s : AnnotationPass) :
    s.LeadsTo a ((a.performedSubject rule subject s.graph).foldl (perform a) s) := by
  have hparent : ∀ p c given, .adopt p c given ∈ a.performedSubject rule subject s.graph →
      p = subject := by
    intro p c given hact
    obtain ⟨-, relation, -, g', -, hact⟩ := of_adopt_mem_performedSubject hact
    exact (of_adopt_mem_performedScope hact).1
  rw [performedSubject] at hparent ⊢
  split at hparent
  · next hname =>
    rw [if_pos hname]
    exact leadsTo_foldl fun p c given hact => by simp at hact
  · next hname =>
    rw [if_neg hname, List.foldl_cons]
    -- the subject is enrolled first, so the rest fits
    refine (leadsTo_perform (.enrol subject _) trivial).trans
      (leadsTo_foldl fun p c given hact => List.mem_append_right _ ?_)
    rw [hparent p c given (List.mem_cons_of_mem _ hact)]
    exact List.mem_singleton_self subject

/-- **An annotation pass is a sequence of acts that fit.** -/
theorem annotate_leadsTo (a : Annotator) (rule : Rule) (g : Graph) :
    ({ graph := g } : AnnotationPass).LeadsTo a
      ⟨(a.annotate rule g).2, (a.annotate rule g).1.processed,
        (a.annotate rule g).1.omissions⟩ := by
  have hsubjects : ∀ (subjects : List Node) (s : AnnotationPass),
      s.LeadsTo a (subjects.foldl (a.annotateSubject rule) s) := by
    intro subjects
    induction subjects with
    | nil => exact fun s => .refl
    | cons subject subjects ih =>
        intro s
        have hfirst : s.LeadsTo a (a.annotateSubject rule s subject) := by
          rw [annotateSubject_eq_performed]
          exact leadsTo_performedSubject subject s
        exact hfirst.trans (ih _)
  exact hsubjects _ _

end Annotator

end FactHierarchy
