import FactHierarchy.Configuration
import FactHierarchy.Proofs.PrefixTable
import FactHierarchy.Proofs.Reversion.Plan
import FactHierarchy.Proofs.RuleCheck
import FactHierarchy.Proofs.Run.FromScratch

/-!
# Which configurations have rules

A configuration is *well-formed* when the ids of its rules differ and each rule is well-formed:
nothing that is required is blank, and no two predicates in one list of relations stand for one IRI
(`Configuration.WellFormed`). What a well-formed configuration means is said without any checks, by
expanding one setting after the other (`RuleSetting.meaning`).

The rules of a configuration are read exactly when it is well-formed, and then they are what it
means (`RuleSetting.toRules_eq_ok_iff`). They pass the check that is made before rules are applied,
so they fail for no other cause than a loop (`Configuration.accepts_well_formed`).
-/

set_option autoImplicit false

namespace FactHierarchy

/-! ## What settings mean -/

/-- The relation that a setting means. -/
def RelationSetting.meaning (ns : PrefixTable) (r : RelationSetting) : Relation :=
  ⟨.iri (ns.expand r.predicate), r.name.toSource ns⟩

/-- **The rule that settings mean**: IRIs are expanded, and everything else is taken as it is. A
blank default child predicate counts as none. -/
def RuleSetting.meaning (ns : PrefixTable) (r : RuleSetting) : Rule where
  id := r.id
  selector := ⟨.iri (ns.expand r.selector.predicate), Node.iri (ns.expand r.selector.value)⟩
  nameSource := r.name.toSource ns
  children := r.children.map (RelationSetting.meaning ns)
  properties := r.properties.map (RelationSetting.meaning ns)
  basePath := r.basePath
  defaultChildPredicate :=
    (r.defaultChildPredicate.filter (!isBlank ·)).map fun text => .iri (ns.expand text)

/-! ## Well-formed settings -/

/-- **The relations of a list are well-formed**: no predicate is blank, and no two of them expand to
one IRI. -/
structure RelationSetting.WellFormedList (ns : PrefixTable) (relations : List RelationSetting) :
    Prop where
  present : ∀ r ∈ relations, trim r.predicate ≠ ""
  distinct : (relations.map fun r => ns.expand r.predicate).Nodup

/-- **The settings of a rule are well-formed.** -/
structure RuleSetting.WellFormed (ns : PrefixTable) (r : RuleSetting) : Prop where
  id : trim r.id ≠ ""
  selectorPredicate : trim r.selector.predicate ≠ ""
  selectorValue : trim r.selector.value ≠ ""
  children : RelationSetting.WellFormedList ns r.children
  properties : RelationSetting.WellFormedList ns r.properties

/-- **The configuration is well-formed**: its rules are, and their ids differ. -/
structure Configuration.WellFormed (c : Configuration) : Prop where
  ids : (c.bridges.map RuleSetting.id).Nodup
  bridges : ∀ r ∈ c.bridges, r.WellFormed c.prefixTable

/-! ## From settings to rules -/

variable {ns : PrefixTable}

theorem isBlank_eq_false_iff {text : String} : isBlank text = false ↔ trim text ≠ "" := by
  rw [ne_eq, trim_eq_empty_iff, Bool.not_eq_true]

theorem requireNode_eq_ok_iff {rule text : String} {setting : Setting} {n : Node} :
    requireNode ns rule setting text = .ok n ↔ trim text ≠ "" ∧ n = .iri (ns.expand text) := by
  rw [← isBlank_eq_false_iff, requireNode]
  cases isBlank text with
  | true => simp
  | false =>
      show Except.ok (.iri (ns.expand text)) = Except.ok n ↔ _
      rw [Except.ok.injEq]
      exact ⟨fun h => ⟨rfl, h.symm⟩, fun h => h.2.symm⟩

namespace RuleSetting

theorem relations_eq_ok_iff {rule : String} {setting : Setting} {settings : List RelationSetting}
    {read : List Relation} :
    relations ns rule setting settings = .ok read ↔
      (∀ r ∈ settings, trim r.predicate ≠ "") ∧
        read = settings.map (RelationSetting.meaning ns) := by
  induction settings generalizing read with
  | nil =>
      rw [relations, Except.ok.injEq]
      exact ⟨fun h => ⟨fun r hr => absurd hr List.not_mem_nil, h.symm⟩, fun h => h.2.symm⟩
  | cons r rest ih =>
      simp only [relations, bind_eq_ok_iff, requireNode_eq_ok_iff, ih, List.forall_mem_cons,
        List.map_cons]
      constructor
      · rintro ⟨n, ⟨hpresent, rfl⟩, read', ⟨hrest, rfl⟩, heq⟩
        exact ⟨⟨hpresent, hrest⟩, (Except.ok.inj heq).symm⟩
      · rintro ⟨⟨hpresent, hrest⟩, rfl⟩
        exact ⟨_, ⟨hpresent, rfl⟩, _, ⟨hrest, rfl⟩, rfl⟩

/-- Predicates differ exactly when their IRIs do. -/
theorem nodup_meaning_iff {settings : List RelationSetting} :
    ((settings.map (RelationSetting.meaning ns)).map Relation.predicate).Nodup ↔
      (settings.map fun r => ns.expand r.predicate).Nodup := by
  have hmap : (settings.map (RelationSetting.meaning ns)).map Relation.predicate =
      (settings.map fun r => ns.expand r.predicate).map Node.iri := by
    rw [List.map_map, List.map_map]
    rfl
  rw [hmap, List.nodup_map_iff fun _ _ h => Node.iri.inj h]

/-- The check of a rule, said of its settings. -/
theorem check_meaning_iff {r : RuleSetting} :
    (r.meaning ns).check = .ok () ↔ trim r.id ≠ "" ∧
      (r.children.map fun r => ns.expand r.predicate).Nodup ∧
      (r.properties.map fun r => ns.expand r.predicate).Nodup := by
  rw [Rule.check_eq_ok_iff, isBlank_eq_false_iff, ← nodup_meaning_iff, ← nodup_meaning_iff]
  rfl

/-- **A rule is read exactly when its settings are well-formed**, and then it is what they mean. -/
theorem toRule_eq_ok_iff {r : RuleSetting} {rule : Rule} :
    r.toRule ns = .ok rule ↔ r.WellFormed ns ∧ rule = r.meaning ns := by
  simp only [toRule, bind_eq_ok_iff, requireNode_eq_ok_iff, relations_eq_ok_iff]
  constructor
  · rintro ⟨_, ⟨hpredicate, rfl⟩, _, ⟨hvalue, rfl⟩, _, ⟨hchildren, rfl⟩, _, ⟨hproperties, rfl⟩,
      _, hcheck, heq⟩
    obtain ⟨hid, hchild, hproperty⟩ := check_meaning_iff.1 hcheck
    exact ⟨⟨hid, hpredicate, hvalue, ⟨hchildren, hchild⟩, ⟨hproperties, hproperty⟩⟩,
      (Except.ok.inj heq).symm⟩
  · rintro ⟨h, rfl⟩
    have hcheck := check_meaning_iff.2 ⟨h.id, h.children.distinct, h.properties.distinct⟩
    exact ⟨_, ⟨h.selectorPredicate, rfl⟩, _, ⟨h.selectorValue, rfl⟩, _,
      ⟨h.children.present, rfl⟩, _, ⟨h.properties.present, rfl⟩, (), hcheck, rfl⟩

/-- **Rules are read exactly when their ids differ and their settings are well-formed**, and then
they are what the settings mean. -/
theorem toRules_eq_ok_iff {seen : List String} {settings : List RuleSetting} {rules : List Rule} :
    toRules ns seen settings = .ok rules ↔
      ((settings.map RuleSetting.id).Nodup ∧
        ∀ r ∈ settings, r.id ∉ seen ∧ r.WellFormed ns) ∧ rules = settings.map (meaning ns) := by
  induction settings generalizing seen rules with
  | nil => simp [toRules, eq_comm]
  | cons r rest ih =>
      rw [toRules, List.map_cons, List.nodup_cons, List.forall_mem_cons]
      by_cases hseen : r.id ∈ seen
      · simp [hseen]
      · rw [if_neg hseen]
        simp only [bind_eq_ok_iff, toRule_eq_ok_iff, ih, List.mem_cons, not_or]
        constructor
        · rintro ⟨_, ⟨hr, rfl⟩, _, ⟨⟨hids, hrest⟩, rfl⟩, heq⟩
          have hnew : r.id ∉ rest.map RuleSetting.id := by
            intro hmem
            obtain ⟨r', hr', heq'⟩ := List.mem_map.1 hmem
            exact (hrest r' hr').1.1 heq'
          exact ⟨⟨⟨hnew, hids⟩, ⟨hseen, hr⟩, fun r' hr' => ⟨(hrest r' hr').1.2, (hrest r' hr').2⟩⟩,
            (Except.ok.inj heq).symm⟩
        · rintro ⟨⟨⟨hnew, hids⟩, ⟨-, hr⟩, hrest⟩, rfl⟩
          refine ⟨_, ⟨hr, rfl⟩, _, ⟨⟨hids, fun r' hr' => ⟨⟨fun heq => ?_, (hrest r' hr').1⟩,
            (hrest r' hr').2⟩⟩, rfl⟩, rfl⟩
          exact hnew (heq ▸ List.mem_map_of_mem hr')

end RuleSetting

/-! ## Rules that are sound -/

/-- **Sound rules fail for no other cause than a loop**, whether they are run, applied or
reverted. -/
theorem Engine.exists_cyclicHierarchy_of_error {e : Engine} {rules : List Rule} {g : Graph}
    {cause : RunError} (hcheck : Rule.checkAll rules = .ok ())
    (h : e.run rules g = .error cause ∨ (e.apply rules g).1 = .error cause ∨
      (e.revert rules g).1 = .error cause) :
    ∃ rule chain, cause = .cyclicHierarchy rule chain := by
  have hrun : e.run rules g = .error cause → ∃ rule chain, cause = .cyclicHierarchy rule chain := by
    intro h
    obtain ⟨rule, chain, hcause, -⟩ := exists_loop_of_run_eq_error hcheck h
    exact ⟨rule, chain, hcause⟩
  rcases h with h | h | h
  · exact hrun h
  · unfold apply at h
    split at h
    · next cause' hcause =>
      obtain rfl := Except.error.inj h
      exact hrun hcause
    · cases h
  · rw [revert_of_checkAll hcheck] at h
    exact exists_of_revertAll_eq_error h

/-! ## A configuration with a prefix of its own -/

/-- The rules of the plant, in which `skos` does not stand for what it usually does. -/
def Plant.configuration : Configuration where
  prefixes := .ofList [("skos", "urn:plant#")]
  bridges :=
    [{ id := "lines", selector := ⟨"rdf:type", "skos:Line"⟩,
       children := [⟨" skos:has ", .localName⟩,
        ⟨"http://www.w3.org/2004/02/skos/core#has", .localName⟩],
       basePath := "/plant" },
      { id := "sensors", selector := ⟨"rdf:type", "skos:Sensor"⟩,
        children := [⟨"urn:plant#feeds", .localName⟩] }]

namespace Configuration

/-! ## Configurations -/

variable {c : Configuration}

theorem rules_eq_ok_iff {rules : List Rule} :
    c.rules = .ok rules ↔
      c.WellFormed ∧ rules = c.bridges.map (RuleSetting.meaning c.prefixTable) := by
  rw [Configuration.rules, RuleSetting.toRules_eq_ok_iff]
  refine and_congr_left fun _ => ⟨fun h => ?_, fun h => ?_⟩
  · exact ⟨h.1, fun r hr => (h.2 r hr).2⟩
  · exact ⟨h.ids, fun r hr => ⟨List.not_mem_nil, h.bridges r hr⟩⟩

/-- **What a well-formed configuration means passes the check of rules.** -/
theorem WellFormed.checkAll (h : c.WellFormed) :
    Rule.checkAll (c.bridges.map (RuleSetting.meaning c.prefixTable)) = .ok () := by
  rw [Rule.checkAll_eq_ok_iff, List.map_map]
  refine ⟨h.ids, fun rule hrule => ?_⟩
  obtain ⟨r, hr, rfl⟩ := List.mem_map.1 hrule
  have hsettings := h.bridges r hr
  exact RuleSetting.check_meaning_iff.2
    ⟨hsettings.id, hsettings.children.distinct, hsettings.properties.distinct⟩

/-- **The rules of a configuration are read exactly when it is well-formed.** Its own prefixes take
precedence over the well-known ones. The rules are then what the settings mean, one for one and in
their order. They pass the check that is made before rules are applied, so on any graph they fail
for no other cause than a loop. -/
theorem accepts_well_formed (c : Configuration) :
    ((∃ rules, c.rules = .ok rules) ↔ c.WellFormed) ∧
    (∀ label, c.prefixTable.prefixes.get? label =
      (c.prefixes.get? label).or (PrefixTable.wellKnown.lookup label)) ∧
    ∀ rules, c.rules = .ok rules →
      rules = c.bridges.map (RuleSetting.meaning c.prefixTable) ∧
      Rule.checkAll rules = .ok () ∧
      ∀ (e : Engine) (g : Graph) (cause : RunError),
        (e.run rules g = .error cause ∨ (e.apply rules g).1 = .error cause ∨
          (e.revert rules g).1 = .error cause) →
        ∃ rule chain, cause = .cyclicHierarchy rule chain := by
  refine ⟨⟨?_, fun hc => ⟨_, rules_eq_ok_iff.2 ⟨hc, rfl⟩⟩⟩,
    PrefixTable.get?_insertAll_standard c.prefixes, fun rules hrules => ?_⟩
  · rintro ⟨rules, hrules⟩
    exact (rules_eq_ok_iff.1 hrules).1
  · obtain ⟨hc, rfl⟩ := rules_eq_ok_iff.1 hrules
    exact ⟨rfl, hc.checkAll, fun e g cause => Engine.exists_cyclicHierarchy_of_error hc.checkAll⟩

/-- With `skos` declared anew, a padded compact IRI and a full one are two predicates, and the rules
are read. They are the rules that find the loop in the plant. Where `skos` stands for what it
usually does, the two are one predicate, and there are no rules. -/
theorem accepts_own_prefix :
    Plant.configuration.WellFormed ∧
    (∃ rules cause, Plant.configuration.rules = .ok rules ∧
      rules.map Rule.id = ["lines", "sensors"] ∧
      Rule.checkAll rules = .ok () ∧
      Plant.engine.run rules Plant.loopGraph = .error cause ∧
      ∃ rule chain, cause = .cyclicHierarchy rule chain) ∧
    ¬∃ rules, { Plant.configuration with prefixes := .empty }.rules = .ok rules := by
  have hend : (Plant.configuration.rules.toOption.any fun rules =>
      rules.map Rule.id = ["lines", "sensors"] ∧
        (Plant.engine.run rules Plant.loopGraph).isOk = false) = true := by decide +kernel
  obtain ⟨rules, hrules, hend⟩ := exists_eq_ok_of_any hend
  obtain ⟨hids, hfails⟩ := of_decide_eq_true hend
  obtain ⟨hwell, -, hsound⟩ := accepts_well_formed Plant.configuration
  obtain ⟨-, hcheck, hcause⟩ := hsound rules hrules
  refine ⟨hwell.1 ⟨rules, hrules⟩, ?_, ?_⟩
  · cases hrun : Plant.engine.run rules Plant.loopGraph with
    | ok result =>
        rw [hrun] at hfails
        cases hfails
    | error cause =>
        exact ⟨rules, cause, hrules, hids, hcheck, hrun, hcause _ _ cause (.inl hrun)⟩
  · rw [(accepts_well_formed _).1]
    intro h
    have hbridge := h.bridges _ (List.mem_cons_self ..)
    exact absurd hbridge.children.distinct (by decide +kernel)

end Configuration

end FactHierarchy
