import FactHierarchy.Engine
import FactHierarchy.PrefixTable

/-!
# Configurations

A configuration describes an engine and a list of rules in the words of people: predicates and
selector values are compact or full IRIs. `Configuration.rules` turns it into rules, or names the
first fault. In each rule it looks first for an id that an earlier rule has, then for blank
settings in the order selector, children, properties, and last makes the check that every rule is
subject to.
-/

set_option autoImplicit false

namespace FactHierarchy

/-- A name source whose predicate is a compact or full IRI. -/
inductive NameSetting where
  | fixed (name : String)
  | fromValue (predicate : String)
  | localName
  deriving DecidableEq, Repr, Inhabited

/-- A selector in compact or full IRIs. -/
structure SelectorSetting where
  predicate : String
  value : String
  deriving DecidableEq, Repr, Inhabited

/-- A relation whose predicate is a compact or full IRI. -/
structure RelationSetting where
  predicate : String
  name : NameSetting := .localName
  deriving DecidableEq, Repr, Inhabited

/-- The description of one rule. -/
structure RuleSetting where
  id : String
  selector : SelectorSetting
  name : NameSetting := .localName
  children : List RelationSetting := []
  properties : List RelationSetting := []
  basePath : String := "/"
  defaultChildPredicate : Option String := none
  deriving DecidableEq, Repr, Inhabited

/-- The description of an engine and its rules, with prefixes beside the well-known ones. -/
structure Configuration where
  engine : Engine := {}
  prefixes : StringMap := .empty
  bridges : List RuleSetting := []
  deriving DecidableEq, Repr, Inhabited

/-! ## From settings to rules -/

/-- The name source that is meant. -/
def NameSetting.toSource (ns : PrefixTable) : NameSetting → NameSource
  | fixed name => .fixed name
  | fromValue predicate => .fromValue (.iri (ns.expand predicate))
  | localName => .localName

/-- The node that a setting names. A blank setting names none. -/
def requireNode (ns : PrefixTable) (rule : String) (setting : Setting) (text : String) :
    Except ConfigError Node :=
  if isBlank text then .error (.missingValue rule setting) else .ok (.iri (ns.expand text))

namespace RuleSetting

/-- The relations that are meant by a list of settings. -/
def relations (ns : PrefixTable) (rule : String) (setting : Setting) :
    List RelationSetting → Except ConfigError (List Relation)
  | [] => .ok []
  | r :: rest => do
    let predicate ← requireNode ns rule setting r.predicate
    let rest ← relations ns rule setting rest
    return ⟨predicate, r.name.toSource ns⟩ :: rest

/-- The rule that is meant. -/
def toRule (ns : PrefixTable) (r : RuleSetting) : Except ConfigError Rule := do
  let predicate ← requireNode ns r.id .selectorPredicate r.selector.predicate
  let value ← requireNode ns r.id .selectorValue r.selector.value
  let children ← relations ns r.id .childPredicate r.children
  let properties ← relations ns r.id .propertyPredicate r.properties
  let rule : Rule :=
    { id := r.id
      selector := ⟨predicate, value⟩
      nameSource := r.name.toSource ns
      children := children
      properties := properties
      basePath := r.basePath
      defaultChildPredicate :=
        (r.defaultChildPredicate.filter (!isBlank ·)).map fun text => .iri (ns.expand text) }
  rule.check
  return rule

/-- The rules that are meant by a list of settings, none of which uses an id among `seen` or the
id of an earlier one. -/
def toRules (ns : PrefixTable) (seen : List String) :
    List RuleSetting → Except ConfigError (List Rule)
  | [] => .ok []
  | r :: rest =>
    if r.id ∈ seen then .error (.duplicateRule r.id)
    else do
      let rule ← r.toRule ns
      let rules ← toRules ns (r.id :: seen) rest
      return rule :: rules

end RuleSetting

namespace Configuration

/-- The well-known prefixes together with those of the configuration, which take precedence. -/
def prefixTable (c : Configuration) : PrefixTable :=
  PrefixTable.standard.insertAll c.prefixes.entries

/-- The rules of a configuration, in the order in which they run. -/
def rules (c : Configuration) : Except ConfigError (List Rule) :=
  RuleSetting.toRules c.prefixTable [] c.bridges

end Configuration

end FactHierarchy
