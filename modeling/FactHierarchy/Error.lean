import FactHierarchy.Term.NTriples

/-!
# What can go wrong

The causes for which a rule, a configuration or a run is refused, and the wording of each. A name
that cannot be resolved is not among them: such a resource is left out and reported.
-/

set_option autoImplicit false

namespace FactHierarchy

/-- The settings of a rule that must not be blank. -/
inductive Setting where
  | id
  | selectorPredicate
  | selectorValue
  | childPredicate
  | propertyPredicate
  deriving DecidableEq, Repr

/-- How a setting is called in a message. -/
def Setting.name : Setting → String
  | id => "id"
  | selectorPredicate => "selector.predicate"
  | selectorValue => "selector.value"
  | childPredicate => "children.predicate"
  | propertyPredicate => "properties.predicate"

/-- The lists of a rule in which each predicate can be listed only once. -/
inductive RelationList where
  | children
  | properties
  deriving DecidableEq, Repr

/-- How a list of relations is called in a message. -/
def RelationList.name : RelationList → String
  | children => "children"
  | properties => "properties"

/-- The causes for which rules and configurations are refused. -/
inductive ConfigError where
  /-- There is no file, or it does not hold text. -/
  | unreadable
  /-- The text is not the JSON form of a configuration. -/
  | notAConfiguration
  /-- A setting of a rule is blank. -/
  | missingValue (rule : String) (setting : Setting)
  /-- Two rules have one id. -/
  | duplicateRule (id : String)
  /-- A predicate occurs twice in one list of a rule. -/
  | duplicatePredicate (rule : String) (predicate : Node) (list : RelationList)
  deriving DecidableEq, Repr

/-- The causes for which a run or a reversion fails. -/
inductive RunError where
  /-- The hierarchy contains a loop; the chain of nodes runs into it. -/
  | cyclicHierarchy (rule : String) (chain : List Node)
  /-- Two of the given rules have one id. -/
  | duplicateRule (id : String)
  /-- A rule, or the configuration it comes from, is refused. -/
  | config (cause : ConfigError)
  deriving DecidableEq, Repr

/-! ## Wording -/

/-- The wording for two rules with one id. -/
def duplicateRuleMessage (id : String) : String := "duplicate bridge rule id `" ++ id ++ "`"

/-- The nodes of a chain, with arrows between them. -/
def chainText (chain : List Node) : String := " -> ".intercalate (chain.map Node.text)

/-- The wording of a cause. -/
def ConfigError.message : ConfigError → String
  | unreadable => "failed to read bridge configuration"
  | notAConfiguration => "failed to parse bridge configuration"
  | missingValue rule setting =>
    "bridge `" ++ rule ++ "`: missing value for `" ++ setting.name ++ "`"
  | duplicateRule id => duplicateRuleMessage id
  | duplicatePredicate rule predicate list =>
    "bridge `" ++ rule ++ "`: predicate " ++ predicate.text ++ " is listed twice in " ++ list.name

/-- The wording of a cause. -/
def RunError.message : RunError → String
  | cyclicHierarchy rule chain =>
    "cyclic hierarchy in bridge `" ++ rule ++ "`: " ++ chainText chain
  | duplicateRule id => duplicateRuleMessage id
  | config cause => cause.message

end FactHierarchy
