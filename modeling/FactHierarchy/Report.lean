import FactHierarchy.Term.Basic

/-!
# Reports

What the passes of a run and a reversion did, and what they left out.
-/

set_option autoImplicit false

namespace FactHierarchy

/-- In which role a resource has no name. -/
inductive OmissionRole where
  /-- It was selected. -/
  | root
  /-- It was reached from a parent as a child. -/
  | child (parent predicate : Node)
  /-- It should have got a property, and the name of the property is missing. -/
  | property (predicate : Node)
  deriving DecidableEq, Repr

/-- A resource that was left out because a name is missing. -/
structure Omission where
  rule : String
  resource : Node
  role : OmissionRole
  deriving DecidableEq, Repr

/-- What the annotation pass of one rule did: the subjects that it made hierarchy objects and the
resources that it left out. -/
structure AnnotationReport where
  rule : String
  processed : List Node := []
  omissions : List Omission := []
  deriving DecidableEq, Repr

/-- What the path pass of one rule did: the roots it started from, the number of paths it wrote,
and the objects that it met and that kept the path they had. -/
structure PathReport where
  rule : String
  roots : List Node
  written : Nat
  kept : List Node
  deriving DecidableEq, Repr

/-- What a run did, rule by rule. -/
structure RunReport where
  annotations : List AnnotationReport
  paths : List PathReport
  deriving DecidableEq, Repr

namespace RunReport

/-- Everything that was left out. -/
def omissions (r : RunReport) : List Omission := r.annotations.flatMap AnnotationReport.omissions

/-- The number of paths that were written. -/
def pathCount (r : RunReport) : Nat := (r.paths.map PathReport.written).foldr (· + ·) 0

end RunReport

/-- What the reversion of one rule did: the roots it started from, the number of objects it
reached, and the number of facts that were not in the graph before. -/
structure ReversionReport where
  rule : String
  roots : List Node
  objects : Nat
  added : Nat
  deriving DecidableEq, Repr

end FactHierarchy
