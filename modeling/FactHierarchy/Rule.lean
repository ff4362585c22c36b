import FactHierarchy.Graph.Query

/-!
# Bridge rules

A bridge rule says which resources become hierarchy objects and how they are named, nested and
described. Its selector picks the subjects. A name source gives each of them a name. Each child
relation puts the objects of one predicate below the subject, and each property relation gives
the subject a named property.
-/

set_option autoImplicit false

namespace FactHierarchy

/-- Where a name comes from: it is the same for all resources, or the literal value of a
predicate, or the local name of the resource. -/
inductive NameSource where
  | fixed (name : String)
  | fromValue (predicate : Node)
  | localName
  deriving DecidableEq, Repr, Inhabited

/-- The name of a resource. There is always an answer; an empty one means that the resource has
no name. -/
def NameSource.nameIn (source : NameSource) (g : Graph) (resource : Node) : String :=
  match source with
  | fixed name => name
  | fromValue predicate => g.valueText resource predicate
  | localName => resource.localName

/-- The fact, up to its subject, by which subjects are picked. -/
structure Selector where
  predicate : Node
  value : Term
  deriving DecidableEq, Repr, Inhabited

/-- The subjects that a selector picks, in the order of their facts. -/
def Selector.subjects (s : Selector) (g : Graph) : List Node := g.subjects s.predicate s.value

/-- A predicate together with the names it leads to. -/
structure Relation where
  predicate : Node
  nameSource : NameSource
  deriving DecidableEq, Repr, Inhabited

/-- One rule. The ids of property-schema nodes depend on its `id`. Paths start at `basePath`. -/
structure Rule where
  id : String
  selector : Selector
  nameSource : NameSource := .localName
  children : List Relation := []
  properties : List Relation := []
  basePath : String := "/"
  defaultChildPredicate : Option Node := none
  deriving DecidableEq, Repr, Inhabited

/-- The predicate under which a reversion links parents to children: that of the only child
relation, or else the default one. -/
def Rule.linkPredicate (r : Rule) : Option Node :=
  match r.children with
  | [only] => some only.predicate
  | _ => r.defaultChildPredicate

end FactHierarchy
