import FactHierarchy.Path

/-!
# What questions say about facts

A question to a graph is answered from the facts of the graph alone. For each question there is a
lemma that says which facts its answer speaks about (`Graph.mem_objects`, `Graph.any_about_iff`,
`Graph.hasParent_iff`), and for each write one that says how the objects of a subject under a
predicate change (`Graph.objects_put`, `Graph.objects_discard`).
-/

set_option autoImplicit false

namespace FactHierarchy

namespace Pattern

theorem fits_about {s p : Node} {f : Fact} :
    (about s p).fits f = true ↔ f.subject = s ∧ f.predicate = p := by
  rw [eq_comm (a := f.subject), eq_comm (a := f.predicate)]
  simp [fits, about]

theorem fits_having {p : Node} {t : Term} {f : Fact} :
    (having p t).fits f = true ↔ f.predicate = p ∧ f.object = t := by
  rw [eq_comm (a := f.predicate), eq_comm (a := f.object)]
  simp [fits, having]

/-- **The pattern leaves one position open**: the facts that fit it are made of the key that stands
there. -/
structure LeavesOpen {α : Type} (pattern : Pattern) (key : Fact → α) (fact : α → Fact) : Prop where
  key_fact : ∀ a, key (fact a) = a
  fits_iff : ∀ f, pattern.fits f = true ↔ fact (key f) = f

theorem leavesOpen_about (s p : Node) : (about s p).LeavesOpen Fact.object fun t => ⟨s, p, t⟩ where
  key_fact _ := rfl
  fits_iff f := by
    rw [fits_about, Fact.mk.injEq, eq_comm (a := s), eq_comm (a := p)]
    simp

theorem leavesOpen_having (p : Node) (t : Term) :
    (having p t).LeavesOpen Fact.subject fun n => ⟨n, p, t⟩ where
  key_fact _ := rfl
  fits_iff f := by
    rw [fits_having, Fact.mk.injEq, eq_comm (a := p), eq_comm (a := t)]
    simp

end Pattern

namespace Graph

/-! ## Questions -/

theorem mem_filter {g : Graph} {p : Pattern} {f : Fact} :
    f ∈ g.filter p ↔ f ∈ g.toList ∧ p.fits f = true := by
  rw [filter_eq, List.mem_filter]

/-- The keys of the facts that fit are those with a fact in the graph. -/
theorem mem_map_filter {α : Type} {g : Graph} {pattern : Pattern} {key : Fact → α}
    {fact : α → Fact} (hopen : pattern.LeavesOpen key fact) {a : α} :
    a ∈ (g.filter pattern).map key ↔ fact a ∈ g.toList := by
  rw [List.mem_map]
  constructor
  · rintro ⟨f, hf, rfl⟩
    obtain ⟨hmem, hfits⟩ := mem_filter.1 hf
    rwa [(hopen.fits_iff f).1 hfits]
  · intro hmem
    refine ⟨fact a, mem_filter.2 ⟨hmem, ?_⟩, hopen.key_fact a⟩
    rw [hopen.fits_iff, hopen.key_fact]

theorem nodup_map_filter {α : Type} (g : Graph) {pattern : Pattern} {key : Fact → α}
    {fact : α → Fact} (hopen : pattern.LeavesOpen key fact) :
    ((g.filter pattern).map key).Nodup := by
  rw [filter_eq, List.Nodup, List.pairwise_map]
  refine (g.nodup_toList.filter _).imp_of_mem fun {f f'} hf hf' hne heq => hne ?_
  calc f = fact (key f) := ((hopen.fits_iff f).1 (List.mem_filter.1 hf).2).symm
    _ = fact (key f') := congrArg fact heq
    _ = f' := (hopen.fits_iff f').1 (List.mem_filter.1 hf').2

theorem objects_eq (g : Graph) (s p : Node) :
    g.objects s p = (g.toList.filter (Pattern.about s p).fits).map Fact.object := by
  rw [objects, filter_eq]

theorem mem_objects {g : Graph} {s p : Node} {t : Term} :
    t ∈ g.objects s p ↔ ⟨s, p, t⟩ ∈ g.toList :=
  mem_map_filter (Pattern.leavesOpen_about s p)

theorem mem_objectNodes {g : Graph} {s p n : Node} :
    n ∈ (g.objects s p).filterMap Term.node? ↔ ⟨s, p, .node n⟩ ∈ g.toList := by
  rw [List.mem_filterMap]
  constructor
  · rintro ⟨t, ht, hn⟩
    cases t with
    | node m =>
        obtain rfl : m = n := Option.some.inj hn
        exact mem_objects.1 ht
    | literal l => cases hn
  · intro hf
    exact ⟨.node n, mem_objects.2 hf, rfl⟩

theorem nodup_objects (g : Graph) (s p : Node) : (g.objects s p).Nodup :=
  nodup_map_filter g (Pattern.leavesOpen_about s p)

theorem nodup_objectNodes (g : Graph) (s p : Node) :
    ((g.objects s p).filterMap Term.node?).Nodup := by
  rw [List.Nodup, List.pairwise_filterMap]
  refine (nodup_objects g s p).imp fun {t t'} hne n hn n' hn' heq => hne ?_
  cases t <;> cases t' <;> simp_all [Term.node?]

/-- A subject that has one fact under a predicate has one object there. -/
theorem objects_eq_singleton {g : Graph} {s p : Node} {t : Term}
    (h : ∀ t', ⟨s, p, t'⟩ ∈ g.toList ↔ t' = t) : g.objects s p = [t] := by
  refine List.perm_singleton.1 ((List.perm_ext_iff_of_nodup (nodup_objects ..)
    (List.pairwise_singleton _ t)).2 fun t' => ?_)
  rw [mem_objects, List.mem_singleton]
  exact h t'

theorem mem_subjects {g : Graph} {n p : Node} {t : Term} :
    n ∈ g.subjects p t ↔ ⟨n, p, t⟩ ∈ g.toList :=
  mem_map_filter (Pattern.leavesOpen_having p t)

theorem nodup_subjects (g : Graph) (p : Node) (t : Term) : (g.subjects p t).Nodup :=
  nodup_map_filter g (Pattern.leavesOpen_having p t)

theorem any_about_iff {g : Graph} {s p : Node} :
    g.any (.about s p) = true ↔ g.objects s p ≠ [] := by
  simp [any, objects]

theorem any_about_eq_false_iff {g : Graph} {s p : Node} :
    g.any (.about s p) = false ↔ g.objects s p = [] := by
  simp [any, objects, List.isEmpty_iff]

/-- The objects decide the lexical form. -/
theorem valueText_congr {g g' : Graph} {s p : Node} (h : g.objects s p = g'.objects s p) :
    g.valueText s p = g'.valueText s p := by
  rw [valueText, valueText, object?, object?, h]

/-- A subject with one literal object has its lexical form. -/
theorem valueText_of_objects {g : Graph} {s p : Node} {l : Literal}
    (h : g.objects s p = [.literal l]) : g.valueText s p = l.lexical := by
  rw [valueText, object?, h, List.head?_cons]

theorem objectNode?_congr {g g' : Graph} {s p : Node} (h : g.objects s p = g'.objects s p) :
    g.objectNode? s p = g'.objectNode? s p := by
  rw [objectNode?, objectNode?, object?, object?, h]

theorem mem_of_objectNode? {g : Graph} {s p n : Node} (h : g.objectNode? s p = some n) :
    ⟨s, p, .node n⟩ ∈ g.toList := by
  obtain ⟨t, ht, hn⟩ := Option.bind_eq_some_iff.1 h
  have hmem : t ∈ g.objects s p := List.mem_of_mem_head? (Option.mem_def.2 ht)
  cases t with
  | node m =>
      obtain rfl : m = n := Option.some.inj hn
      exact mem_objects.1 hmem
  | literal l => cases hn

/-! ## The parts of a hierarchy -/

/-- The first node has a parent fact to the second one. -/
def IsChild (g : Graph) (v : Vocabulary) (c p : Node) : Prop := v.parentFact c p ∈ g.toList

variable {g : Graph} {v : Vocabulary} {n c p : Node}

theorem isObject_iff : g.isObject v n = true ↔ v.markerFact n ∈ g.toList := g.contains_iff _

theorem hasPath_iff : g.hasPath v n = true ↔ g.objects n v.objectPath ≠ [] := any_about_iff

theorem hasParent_iff : g.hasParent v n = true ↔ ∃ t, ⟨n, v.parentRef, t⟩ ∈ g.toList := by
  rw [hasParent, any_about_iff, ne_eq, List.eq_nil_iff_forall_not_mem]
  simp only [mem_objects, Classical.not_forall, Classical.not_not]

theorem mem_nodesBelow : c ∈ g.nodesBelow v p ↔ g.IsChild v c p := mem_subjects

theorem IsChild.hasParent (h : g.IsChild v c p) : g.hasParent v c = true := hasParent_iff.2 ⟨_, h⟩

theorem mem_roots {candidates : List Node} :
    n ∈ g.roots v candidates ↔
      n ∈ candidates ∧ v.markerFact n ∈ g.toList ∧ g.hasParent v n = false := by
  rw [roots, List.mem_filter, List.mem_eraseDups, Bool.and_eq_true, isObject_iff,
    Bool.not_eq_true']

/-! ## Writes -/

theorem filter_put (g : Graph) (f : Fact) (p : Pattern) :
    (g.put f).filter p =
      if p.fits f = true ∧ f ∉ g.toList then g.filter p ++ [f] else g.filter p := by
  rw [filter_eq, filter_eq, toList_put]
  by_cases hf : f ∈ g.toList
  · simp [hf]
  · by_cases hp : p.fits f = true <;> simp [hf, hp]

theorem objects_put (g : Graph) (f : Fact) (s q : Node) :
    (g.put f).objects s q =
      if (f.subject = s ∧ f.predicate = q) ∧ f ∉ g.toList then g.objects s q ++ [f.object]
      else g.objects s q := by
  rw [objects, filter_put]
  simp only [Pattern.fits_about]
  split <;> simp [objects]

theorem objects_put_of_predicate_ne {f : Fact} {s q : Node} (h : f.predicate ≠ q) :
    (g.put f).objects s q = g.objects s q := by
  rw [objects_put, if_neg]
  exact fun hf => h hf.1.2

theorem objects_put_of_subject_ne {f : Fact} {s q : Node} (h : f.subject ≠ s) :
    (g.put f).objects s q = g.objects s q := by
  rw [objects_put, if_neg]
  exact fun hf => h hf.1.1

/-- The first object of a subject under a predicate is the only one. -/
theorem objects_put_of_nil {s q : Node} (h : g.objects s q = []) (t : Term) :
    (g.put ⟨s, q, t⟩).objects s q = [t] := by
  have hnew : ⟨s, q, t⟩ ∉ g.toList := by
    rw [← mem_objects, h]
    exact List.not_mem_nil
  rw [objects_put, if_pos ⟨⟨rfl, rfl⟩, hnew⟩, h, List.nil_append]

theorem objects_discard (g : Graph) (n r s q : Node) :
    (g.discard (.about n r)).2.objects s q = if n = s ∧ r = q then [] else g.objects s q := by
  rw [objects_eq, objects_eq, toList_discard, List.filter_filter]
  split
  · next h =>
    obtain ⟨rfl, rfl⟩ := h
    simp
  · next h =>
    congr 1
    refine List.filter_congr fun f _ => ?_
    by_cases hf : (Pattern.about s q).fits f = true
    · have hnot : ¬(Pattern.about n r).fits f = true := by
        intro hnr
        obtain ⟨rfl, rfl⟩ := Pattern.fits_about.1 hf
        obtain ⟨rfl, rfl⟩ := Pattern.fits_about.1 hnr
        exact h ⟨rfl, rfl⟩
      simp [hf, hnot]
    · simp [hf]

theorem mem_toList_discard {pattern : Pattern} {f : Fact} :
    f ∈ (g.discard pattern).2.toList ↔ f ∈ g.toList ∧ pattern.fits f = false := by
  rw [toList_discard, List.mem_filter, Bool.not_eq_true']

theorem extend_append (g : Graph) (facts facts' : List Fact) :
    g.extend (facts ++ facts') = (g.extend facts).extend facts' := List.foldl_append

/-- Facts that are new and differ from each other are added behind all others. -/
theorem toList_extend_of_new {facts : List Fact} (hnodup : facts.Nodup)
    (hnew : ∀ f ∈ facts, f ∉ g.toList) : (g.extend facts).toList = g.toList ++ facts := by
  induction facts generalizing g with
  | nil => simp [extend_nil]
  | cons f facts ih =>
      obtain ⟨hf, hnodup⟩ := List.nodup_cons.1 hnodup
      have hput : (g.put f).toList = g.toList ++ [f] :=
        toList_put_of_not_mem (hnew f (List.mem_cons_self ..))
      rw [extend_cons, ih hnodup, hput, List.append_assoc, List.singleton_append]
      intro f' hf' hmem
      rcases mem_toList_put.1 hmem with hmem | rfl
      · exact hnew f' (List.mem_cons_of_mem f hf') hmem
      · exact hf hf'

theorem toList_ofList {facts : List Fact} (h : facts.Nodup) : (ofList facts).toList = facts := by
  have hnew : ∀ f ∈ facts, f ∉ empty.toList := fun _ _ => List.not_mem_nil
  rw [ofList, toList_extend_of_new h hnew, toList_empty, List.nil_append]

end Graph

end FactHierarchy
