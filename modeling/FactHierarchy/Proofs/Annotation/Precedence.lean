import FactHierarchy.Proofs.Annotation.Meaning
import FactHierarchy.Proofs.TakenNames

/-!
# Which name a node gets

A node may be selected by several rules and nested in several scopes, and each of them has a name
for it. Of the names that acts give, the last one that adopts the node wins, and if none does, the
first one that enrols it (`Act.renameAll_eq`).

In a scope each child claims its name in turn on a new table (`Scope.claims`). These claims are the
adoptions of the plans, scope by scope (`Annotator.adoptions_acts`). So the name of a node is the
one that it claims in its last scope, or else the one of the first rule that selects it, whichever
of these comes first (`Annotator.objectName_of_last_scope`, `Annotator.objectName_of_first_rule`).
-/

set_option autoImplicit false

namespace FactHierarchy

/-! ## Scopes -/

/-- The children that a parent reaches through one relation. -/
structure Scope where
  parent : Node
  relation : Relation
  deriving DecidableEq, Repr

namespace Scope

/-- The children that have a name, in the order of their facts. -/
def children (scope : Scope) (g : Graph) : List Node :=
  ((g.objects scope.parent scope.relation.predicate).filterMap Term.node?).filter fun n =>
    scope.relation.nameSource.nameIn g n ≠ ""

/-- **The children with the names that they get** when each claims its name in turn on the table of
the scope. -/
def claims (scope : Scope) (g : Graph) : List (Node × String) :=
  (scope.children g).zip
    (TakenNames.empty.claimAll ((scope.children g).map (scope.relation.nameSource.nameIn g)))

end Scope

/-- The subjects of a rule that it has a name for, in the order of their facts. -/
def Rule.namedSubjects (r : Rule) (g : Graph) : List Node :=
  (r.selector.subjects g).filter fun n => r.nameSource.nameIn g n ≠ ""

/-- **The scopes of a rule**, in the order of its subjects and of its child relations. -/
def Rule.scopes (g : Graph) (r : Rule) : List Scope :=
  (r.namedSubjects g).flatMap fun p => r.children.map (Scope.mk p)

theorem Rule.mem_namedSubjects {r : Rule} {g : Graph} {n : Node} :
    n ∈ r.namedSubjects g ↔ r.Selects g n := by
  rw [namedSubjects, List.mem_filter, decide_eq_true_iff, selects_iff]

/-! ## Names that are claimed -/

/-- Every child of a scope claims a name. -/
theorem Scope.map_fst_claims (scope : Scope) (g : Graph) :
    (scope.claims g).map Prod.fst = scope.children g := by
  refine List.map_fst_zip ?_
  rw [TakenNames.length_claimAll, List.length_map]

/-- **No child claims two names in one scope.** -/
theorem Scope.nodup_map_fst_claims (scope : Scope) (g : Graph) :
    ((scope.claims g).map Prod.fst).Nodup := by
  rw [map_fst_claims, children]
  exact (Graph.nodup_objectNodes g _ _).filter _

/-! ## The names that acts give -/

namespace Act

/-- The child that an act adopts, and the name under which it does. -/
def adoption : Act → Option (Node × String)
  | adopt _ child name => some (child, name)
  | _ => none

/-- The root that an act enrols, and the name that it offers. -/
def enrolment : Act → Option (Node × String)
  | enrol root name => some (root, name)
  | _ => none

variable {acts : List Act} {n : Node} {names : List Term}

/-- **The last adoption decides about the names of a node**, and if there is none, the names that it
has stay, and a node without a name gets that of the first enrolment. -/
theorem renameAll_eq :
    renameAll acts n names =
      match (acts.filterMap adoption).reverse.find? (·.1 = n) with
      | some x => [.literal (.string x.2)]
      | none =>
        if names = [] then
          ((acts.filterMap enrolment).find? (·.1 = n)).toList.map fun x =>
            .literal (.string x.2)
        else names := by
  induction acts generalizing names with
  | nil => by_cases h : names = [] <;> simp [renameAll, h]
  | cons act acts ih =>
      have hcons : renameAll (act :: acts) n names = renameAll acts n (act.rename n names) := rfl
      rw [hcons, ih]
      cases act with
      | adopt parent child name =>
          -- a later adoption decides in any case, and this one does if there is none
          simp only [List.filterMap_cons, adoption, enrolment, List.reverse_cons,
            List.find?_append]
          cases (acts.filterMap adoption).reverse.find? (·.1 = n) with
          | some x => rfl
          | none => by_cases hn : child = n <;> simp [rename, hn]
      | enrol root name =>
          simp only [List.filterMap_cons, adoption, enrolment]
          cases (acts.filterMap adoption).reverse.find? (·.1 = n) with
          | some x => rfl
          | none =>
              by_cases hn : root = n <;> by_cases hnames : names = [] <;>
                simp [rename, hn, hnames]
      | leaveOut _ | describe _ _ _ | link _ _ => rfl

end Act

/-! ## The names that plans give -/

/-- The adoptions of a scope are its claims. -/
theorem Rule.adoptions_childActs {rule : Rule} {parent : Node} {relation : Relation} {g : Graph}
    {children : List Node} {names : TakenNames} :
    (rule.childActs parent relation g children names).filterMap Act.adoption =
      (children.filter fun n => relation.nameSource.nameIn g n ≠ "").zip (names.claimAll
        ((children.filter fun n => relation.nameSource.nameIn g n ≠ "").map
          (relation.nameSource.nameIn g))) := by
  induction children generalizing names with
  | nil => rfl
  | cons child children ih =>
      rw [childActs]
      by_cases hname : relation.nameSource.nameIn g child = ""
      · rw [if_pos (String.isEmpty_iff.2 hname), List.filter_cons_of_neg (by simpa using hname)]
        exact ih
      · rw [if_neg (by rwa [String.isEmpty_iff]), List.filter_cons_of_pos (by simpa using hname),
          List.map_cons, TakenNames.claimAll]
        obtain ⟨given, names⟩ := names.claim (relation.nameSource.nameIn g child)
        rw [List.filterMap_cons, ih, List.zip_cons_cons]
        rfl

/-- No root is enrolled for the sake of a scope. -/
theorem Rule.enrolments_childActs {rule : Rule} {parent : Node} {relation : Relation} {g : Graph}
    {children : List Node} {names : TakenNames} :
    (rule.childActs parent relation g children names).filterMap Act.enrolment = [] := by
  rw [List.filterMap_eq_nil_iff]
  intro act hact
  obtain ⟨entry, rfl⟩ | ⟨child, -, name, rfl, -⟩ := cases_of_mem_childActs hact
  · rfl
  · rfl

namespace Annotator

variable {a : Annotator} {rule : Rule} {g : Graph} {subject : Node}

/-- Nothing is named for the sake of properties. -/
theorem filterMap_propertyActs {relations : List Relation} {described : List Node} :
    (a.propertyActs rule subject g relations described).filterMap Act.adoption = [] ∧
      (a.propertyActs rule subject g relations described).filterMap Act.enrolment = [] := by
  rw [List.filterMap_eq_nil_iff, List.filterMap_eq_nil_iff, ← forall₂_and]
  intro act hact
  obtain ⟨entry, rfl⟩ | ⟨_, _, _, rfl⟩ | ⟨relation, -, -, rfl⟩ := cases_of_mem_propertyActs hact
  · exact ⟨rfl, rfl⟩
  · exact ⟨rfl, rfl⟩
  · exact ⟨rfl, rfl⟩

/-- Acts are planned for the subjects alone that have a name, apart from those that leave out a
resource. -/
theorem filterMap_acts {α : Type} {read : Act → Option α}
    (hread : ∀ entry, read (.leaveOut entry) = none) :
    (a.acts rule g).filterMap read = (rule.namedSubjects g).flatMap fun subject =>
      ((Act.enrol subject (rule.nameSource.nameIn g subject)) ::
        (rule.children.flatMap (rule.scopeActs subject g) ++
          a.propertyActs rule subject g rule.properties [])).filterMap read := by
  rw [acts, Rule.namedSubjects, List.filterMap_flatMap]
  induction rule.selector.subjects g with
  | nil => rfl
  | cons subject subjects ih =>
      rw [List.flatMap_cons, ih, subjectActs]
      by_cases hname : rule.nameSource.nameIn g subject = ""
      · rw [if_pos (String.isEmpty_iff.2 hname), List.filter_cons_of_neg (by simpa using hname),
          List.filterMap_cons, hread]
        rfl
      · rw [if_neg (by rwa [String.isEmpty_iff]), List.filter_cons_of_pos (by simpa using hname),
          List.flatMap_cons]

/-- **The adoptions of a plan are the claims in the scopes of the rule**, scope by scope. -/
theorem adoptions_acts :
    (a.acts rule g).filterMap Act.adoption = (rule.scopes g).flatMap (Scope.claims · g) := by
  rw [filterMap_acts fun _ => rfl, Rule.scopes, List.flatMap_assoc]
  refine List.flatMap_congr fun subject _ => ?_
  rw [List.filterMap_cons, List.filterMap_append, filterMap_propertyActs.1, List.append_nil,
    List.filterMap_flatMap, List.flatMap_map]
  exact List.flatMap_congr fun relation _ => Rule.adoptions_childActs

/-- The adoptions of several plans are the claims in all scopes of their rules. -/
theorem adoptions_rules {rules : List Rule} :
    (rules.flatMap fun rule => a.acts rule g).filterMap Act.adoption =
      (rules.flatMap (Rule.scopes g)).flatMap (Scope.claims · g) := by
  rw [List.filterMap_flatMap, List.flatMap_assoc]
  exact List.flatMap_congr fun rule _ => adoptions_acts

/-- **The enrolments of a plan** offer the named subjects their names. -/
theorem enrolments_acts :
    (a.acts rule g).filterMap Act.enrolment =
      (rule.namedSubjects g).map fun n => (n, rule.nameSource.nameIn g n) := by
  rw [filterMap_acts fun _ => rfl, List.map_eq_flatMap]
  refine List.flatMap_congr fun subject _ => ?_
  have hscopes : (rule.children.flatMap (rule.scopeActs subject g)).filterMap Act.enrolment = [] := by
    rw [List.filterMap_flatMap, List.flatMap_eq_nil_iff]
    exact fun relation _ => Rule.enrolments_childActs
  rw [List.filterMap_cons, List.filterMap_append, hscopes, filterMap_propertyActs.2]
  rfl

end Annotator

/-! ## The names of the annotated graph -/

/-- What is found for a node is the one entry that there is for it. -/
theorem find?_eq_some_of_unique {entries : List (Node × String)} {n : Node} {name : String}
    (hmem : (n, name) ∈ entries) (hunique : ∀ x ∈ entries, x.1 = n → x = (n, name)) :
    entries.find? (·.1 = n) = some (n, name) := by
  obtain ⟨x, hx⟩ : ∃ x, entries.find? (·.1 = n) = some x :=
    Option.isSome_iff_exists.1 (List.find?_isSome.2 ⟨(n, name), hmem, decide_eq_true rfl⟩)
  have hxn : x.1 = n := by simpa using List.find?_some hx
  rw [hx, hunique x (List.mem_of_find?_eq_some hx) hxn]

/-- A node that is in none of the scopes claims nothing there. -/
theorem find?_claims_eq_none {scopes : List Scope} {g : Graph} {n : Node}
    (hnone : ∀ scope ∈ scopes, n ∉ scope.children g) :
    (scopes.flatMap (Scope.claims · g)).reverse.find? (·.1 = n) = none := by
  rw [List.find?_eq_none]
  intro x hx heq
  obtain ⟨scope, hscope, hx⟩ := List.mem_flatMap.1 (List.mem_reverse.1 hx)
  refine hnone scope hscope ?_
  rw [← of_decide_eq_true heq, ← scope.map_fst_claims]
  exact List.mem_map_of_mem hx

/-- A list in which something occurs has a first place where it does. -/
theorem exists_first {α : Type} {P : α → Prop} {l : List α} (h : ∃ a ∈ l, P a) :
    ∃ before a after, l = before ++ a :: after ∧ P a ∧ ∀ b ∈ before, ¬P b := by
  classical
  obtain ⟨a, ha⟩ := Option.isSome_iff_exists.1
    (List.find?_isSome.2 (h.imp fun a ha => ⟨ha.1, decide_eq_true ha.2⟩))
  obtain ⟨hP, before, after, hl, hbefore⟩ := List.find?_eq_some_iff_append.1 ha
  exact ⟨before, a, after, hl, of_decide_eq_true hP, fun b hb => by simpa using hbefore b hb⟩

/-- A list in which something occurs has a last place where it does. -/
theorem exists_last {α : Type} {P : α → Prop} {l : List α} (h : ∃ a ∈ l, P a) :
    ∃ before a after, l = before ++ a :: after ∧ P a ∧ ∀ b ∈ after, ¬P b := by
  obtain ⟨before, a, after, hl, ha, hbefore⟩ := exists_first (l := l.reverse)
    (h.imp fun a ha => ⟨List.mem_reverse.2 ha.1, ha.2⟩)
  refine ⟨after.reverse, a, before.reverse, ?_, ha, fun b hb => hbefore b (List.mem_reverse.1 hb)⟩
  rw [← List.reverse_reverse l, hl]
  simp

namespace Annotator

variable {a : Annotator} {rules : List Rule} {g : Graph} {n : Node}
  (hv : a.vocabulary.Distinct) (hrules : ∀ rule ∈ rules, rule.ReadsRaw a.vocabulary)
  (hnameless : ∀ f ∈ g.toList, f.predicate ≠ a.vocabulary.objectName)
include hv hrules hnameless

/-- The names of a node after annotation are those that the plans of the rules give it. -/
theorem objectName_annotateAll :
    (a.annotateAll rules g).2.objects n a.vocabulary.objectName =
      Act.renameAll (rules.flatMap fun rule => a.acts rule g) n [] := by
  have hnone : g.objects n a.vocabulary.objectName = [] :=
    List.eq_nil_iff_forall_not_mem.2 fun t ht => hnameless _ (Graph.mem_objects.1 ht) rfl
  rw [annotateAll_eq hrules rfl, Act.objectName_writeAll hv, hnone]

/-- **A node has the name that it claims in its last scope.** -/
theorem objectName_of_last_scope {before after : List Scope} {scope : Scope} {name : String}
    (hscopes : rules.flatMap (Rule.scopes g) = before ++ scope :: after)
    (hname : (n, name) ∈ scope.claims g) (hlast : ∀ later ∈ after, n ∉ later.children g) :
    (a.annotateAll rules g).2.objects n a.vocabulary.objectName = [.literal (.string name)] := by
  -- no later scope has a claim of the node, and this one has no other
  have hhere : (scope.claims g).reverse.find? (·.1 = n) = some (n, name) := by
    refine find?_eq_some_of_unique (List.mem_reverse.2 hname) fun x hx heq => ?_
    exact List.inj_on_of_nodup_map (scope.nodup_map_fst_claims g) (List.mem_reverse.1 hx) hname heq
  rw [objectName_annotateAll hv hrules hnameless, Act.renameAll_eq, adoptions_rules, hscopes,
    List.flatMap_append, List.flatMap_cons, List.reverse_append, List.reverse_append,
    List.find?_append, List.find?_append, find?_claims_eq_none hlast, hhere]
  rfl

section NoScope

variable (hnone : ∀ scope ∈ rules.flatMap (Rule.scopes g), n ∉ scope.children g)
include hnone

/-- A node that is in no scope is given its names by enrolments. -/
theorem objectName_of_no_scope :
    (a.annotateAll rules g).2.objects n a.vocabulary.objectName =
      ((rules.flatMap fun rule => (rule.namedSubjects g).map fun m =>
        (m, rule.nameSource.nameIn g m)).find? (·.1 = n)).toList.map fun x =>
          .literal (.string x.2) := by
  rw [objectName_annotateAll hv hrules hnameless, Act.renameAll_eq, adoptions_rules,
    find?_claims_eq_none hnone]
  simp only [List.filterMap_flatMap, enrolments_acts, if_true]

/-- **A node that is in no scope has the name that the first rule gives that selects it.** -/
theorem objectName_of_first_rule {before after : List Rule} {rule : Rule}
    (heq : rules = before ++ rule :: after) (hrule : rule.Selects g n)
    (hfirst : ∀ earlier ∈ before, ¬earlier.Selects g n) :
    (a.annotateAll rules g).2.objects n a.vocabulary.objectName =
      [.literal (.string (rule.nameSource.nameIn g n))] := by
  have hbefore : (before.flatMap fun rule => (rule.namedSubjects g).map fun m =>
      (m, rule.nameSource.nameIn g m)).find? (·.1 = n) = none := by
    rw [List.find?_eq_none]
    intro x hx hxn
    obtain ⟨earlier, hearlier, hx⟩ := List.mem_flatMap.1 hx
    obtain ⟨m, hm, rfl⟩ := List.mem_map.1 hx
    obtain rfl : m = n := of_decide_eq_true hxn
    exact hfirst earlier hearlier (Rule.mem_namedSubjects.1 hm)
  have hhere : ((rule.namedSubjects g).map fun m => (m, rule.nameSource.nameIn g m)).find?
      (·.1 = n) = some (n, rule.nameSource.nameIn g n) := by
    refine find?_eq_some_of_unique
      (List.mem_map.2 ⟨n, Rule.mem_namedSubjects.2 hrule, rfl⟩) fun x hx hxn => ?_
    obtain ⟨m, -, rfl⟩ := List.mem_map.1 hx
    obtain rfl : m = n := hxn
    rfl
  rw [objectName_of_no_scope hv hrules hnameless hnone, heq, List.flatMap_append, List.flatMap_cons,
    List.find?_append, List.find?_append, hbefore, hhere]
  rfl

/-- **A node that no rule touches has no name.** -/
theorem objectName_of_untouched (hrule : ∀ rule ∈ rules, ¬rule.Selects g n) :
    (a.annotateAll rules g).2.objects n a.vocabulary.objectName = [] := by
  rw [objectName_of_no_scope hv hrules hnameless hnone, List.find?_eq_none.2]
  · rfl
  · rintro x hx hxn
    obtain ⟨rule, hmem, hx⟩ := List.mem_flatMap.1 hx
    obtain ⟨m, hm, rfl⟩ := List.mem_map.1 hx
    obtain rfl : m = n := of_decide_eq_true hxn
    exact hrule rule hmem (Rule.mem_namedSubjects.1 hm)

end NoScope

end Annotator

end FactHierarchy
