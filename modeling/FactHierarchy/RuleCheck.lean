import FactHierarchy.Rule
import FactHierarchy.Error
import FactHierarchy.Text.WhiteSpace

/-!
# The check of rules

A rule is sound when its id is not blank and no predicate is listed twice among its children or
among its properties. A list of rules is sound when each rule is and no two of them have one id.

`Rule.checkAll` goes through the rules in order and names the first fault. In each rule it
looks first for an id that an earlier rule has, then for a blank id, then at the children, then
at the properties.
-/

set_option autoImplicit false

namespace FactHierarchy

/-- The first member of a list that is among `seen` or stands in the list before. -/
def firstRepeatAfter {α : Type} [DecidableEq α] (seen : List α) : List α → Option α
  | [] => none
  | a :: rest => if a ∈ seen then some a else firstRepeatAfter (a :: seen) rest

/-- The first member of a list that stands in it a second time. -/
def firstRepeat? {α : Type} [DecidableEq α] (l : List α) : Option α := firstRepeatAfter [] l

namespace Rule

/-- Refuse a list of relations in which a predicate occurs twice. -/
def checkRelations (r : Rule) (list : RelationList) (relations : List Relation) :
    Except ConfigError Unit :=
  match firstRepeat? (relations.map Relation.predicate) with
  | some predicate => .error (.duplicatePredicate r.id predicate list)
  | none => .ok ()

/-- Refuse a rule that is not sound. -/
def check (r : Rule) : Except ConfigError Unit := do
  if isBlank r.id then throw (.missingValue r.id .id)
  r.checkRelations .children r.children
  r.checkRelations .properties r.properties

/-- Refuse rules that are not sound, or that use an id which is among `seen` or which an earlier
one of them has. -/
def checkAllAfter (seen : List String) : List Rule → Except RunError Unit
  | [] => .ok ()
  | r :: rest =>
    if r.id ∈ seen then .error (.duplicateRule r.id)
    else match r.check with
      | .error cause => .error (.config cause)
      | .ok () => checkAllAfter (r.id :: seen) rest

/-- Refuse rules that are not sound or that share an id. -/
def checkAll (rules : List Rule) : Except RunError Unit := checkAllAfter [] rules

end Rule

end FactHierarchy
