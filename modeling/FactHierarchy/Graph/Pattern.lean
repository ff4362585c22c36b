import FactHierarchy.Term.Basic

/-!
# Patterns

A pattern fixes some of the three positions of a fact and leaves the others open. There are eight
kinds, from the pattern of a single fact to the one that every fact matches.
-/

set_option autoImplicit false

namespace FactHierarchy

/-- The positions that a fact must agree with; `none` is open. -/
structure Pattern where
  subject : Option Node := none
  predicate : Option Node := none
  object : Option Term := none
  deriving DecidableEq, Repr, Inhabited

namespace Pattern

/-- The fact agrees with the pattern in every position that the pattern fixes. -/
def fits (p : Pattern) (f : Fact) : Bool :=
  p.subject.all (· == f.subject) && p.predicate.all (· == f.predicate) &&
    p.object.all (· == f.object)

/-- The facts about a subject under a predicate. -/
def about (subject predicate : Node) : Pattern := ⟨some subject, some predicate, none⟩

/-- The facts that have an object under a predicate. -/
def having (predicate : Node) (object : Term) : Pattern := ⟨none, some predicate, some object⟩

end Pattern

end FactHierarchy
