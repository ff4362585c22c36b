import FactHierarchy.Form.Term
import FactHierarchy.Report

/-!
# The JSON form of reports

Reports are written and never read.
-/

set_option autoImplicit false

namespace FactHierarchy

/-- The JSON form of the role in which a resource has no name. -/
def OmissionRole.toJson : OmissionRole → Json
  | .root => .str "Root"
  | .child parent predicate =>
    .choice "Child" (.record [("parent", parent.toJson), ("predicate", predicate.toJson)])
  | .property predicate => .choice "Property" (.record [("predicate", predicate.toJson)])

/-- The JSON form of a resource that was left out. -/
def Omission.toJson (u : Omission) : Json :=
  .record [("rule", .str u.rule), ("resource", u.resource.toJson), ("kind", u.role.toJson)]

/-- The JSON form of what an annotation pass did. -/
def AnnotationReport.toJson (o : AnnotationReport) : Json :=
  .record [("rule", .str o.rule), ("processed", .list Node.toJson o.processed),
    ("unresolved", .list Omission.toJson o.omissions)]

/-- The JSON form of what a path pass did. -/
def PathReport.toJson (o : PathReport) : Json :=
  .record [("rule", .str o.rule), ("roots", .list Node.toJson o.roots),
    ("assigned", .nat o.written), ("skipped", .list Node.toJson o.kept)]

/-- The JSON form of what a run did. -/
def RunReport.toJson (r : RunReport) : Json :=
  .record [("outcomes", .list AnnotationReport.toJson r.annotations),
    ("paths", .list PathReport.toJson r.paths)]

/-- The JSON form of what a reversion did. -/
def ReversionReport.toJson (o : ReversionReport) : Json :=
  .record [("rule", .str o.rule), ("roots", .list Node.toJson o.roots),
    ("objects", .nat o.objects), ("added", .nat o.added)]

end FactHierarchy
