import FactHierarchy.Term.Basic

/-!
# The order of terms and facts

Facts are compared field by field: subject, predicate, object. IRIs come before blank nodes,
nodes before literals, an absent datatype or language before a present one, and strings are
compared by code point.

`compare` is a lawful total order on each type, so that facts and nodes can be keys of ordered
maps, and `Fact.sort` arranges a list by it.
-/

set_option autoImplicit false

namespace FactHierarchy

open Std

/-- Comparing by two keys, one after the other, finds two values equal exactly when both keys
do. -/
theorem compareLex_compareOn_eq_eq {α β : Type} [Ord β] [LawfulEqOrd β]
    {key : α → β} {cmp : α → α → Ordering} {a b : α} :
    compareLex (compareOn key) cmp a b = .eq ↔ key a = key b ∧ cmp a b = .eq := by
  simp [compareLex, compareOn, Ordering.then_eq_eq]

/-! ## Nodes -/

/-- IRIs come first, then blank nodes. -/
instance : Ord Node := ⟨compareLex (compareOn Node.blank?) (compareOn Node.iri?)⟩

instance : TransOrd Node :=
  inferInstanceAs (TransCmp (compareLex (compareOn Node.blank?) (compareOn Node.iri?)))

instance : LawfulEqOrd Node where
  eq_of_compare {a b} h := by
    obtain ⟨hb, hi⟩ := compareLex_compareOn_eq_eq.1 h
    replace hi : a.iri? = b.iri? := LawfulEqOrd.eq_of_compare hi
    cases a <;> cases b <;> simp_all [Node.blank?, Node.iri?]

/-! ## Literals and terms -/

/-- By lexical form, then datatype, then language. -/
instance : Ord Literal :=
  ⟨compareLex (compareOn Literal.lexical)
    (compareLex (compareOn Literal.datatype) (compareOn Literal.language))⟩

instance : TransOrd Literal :=
  inferInstanceAs (TransCmp (compareLex (compareOn Literal.lexical)
    (compareLex (compareOn Literal.datatype) (compareOn Literal.language))))

instance : LawfulEqOrd Literal where
  eq_of_compare {a b} h := by
    obtain ⟨hx, h⟩ := compareLex_compareOn_eq_eq.1 h
    obtain ⟨hd, h⟩ := compareLex_compareOn_eq_eq.1 h
    replace h : a.language = b.language := LawfulEqOrd.eq_of_compare h
    cases a
    cases b
    simp_all

/-- Nodes come first, then literals. -/
instance : Ord Term := ⟨compareLex (compareOn Term.literal?) (compareOn Term.node?)⟩

instance : TransOrd Term :=
  inferInstanceAs (TransCmp (compareLex (compareOn Term.literal?) (compareOn Term.node?)))

instance : LawfulEqOrd Term where
  eq_of_compare {a b} h := by
    obtain ⟨hl, h⟩ := compareLex_compareOn_eq_eq.1 h
    replace h : a.node? = b.node? := LawfulEqOrd.eq_of_compare h
    cases a <;> cases b <;> simp_all [Term.node?, Term.literal?]

/-! ## Facts -/

/-- By subject, then predicate, then object. -/
instance : Ord Fact :=
  ⟨compareLex (compareOn Fact.subject)
    (compareLex (compareOn Fact.predicate) (compareOn Fact.object))⟩

instance : TransOrd Fact :=
  inferInstanceAs (TransCmp (compareLex (compareOn Fact.subject)
    (compareLex (compareOn Fact.predicate) (compareOn Fact.object))))

instance : LawfulEqOrd Fact where
  eq_of_compare {a b} h := by
    obtain ⟨hs, h⟩ := compareLex_compareOn_eq_eq.1 h
    obtain ⟨hp, h⟩ := compareLex_compareOn_eq_eq.1 h
    replace h : a.object = b.object := LawfulEqOrd.eq_of_compare h
    cases a
    cases b
    simp_all

/-- The facts in ascending order. Equal facts are kept as often as they occur. -/
def Fact.sort (facts : List Fact) : List Fact :=
  facts.mergeSort fun a b => (compare a b).isLE

end FactHierarchy
