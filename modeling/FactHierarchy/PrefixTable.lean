import FactHierarchy.StringMap
import FactHierarchy.Text.WhiteSpace

/-!
# Prefixes and compact IRIs

A compact IRI such as `skos:narrower` stands for the namespace of its prefix followed by its
local part. Expansion is lenient: a text whose prefix is unknown, such as a full IRI, stands for
itself.
-/

set_option autoImplicit false

namespace FactHierarchy

/-- A table of namespaces by prefix. -/
structure PrefixTable where
  prefixes : StringMap
  deriving DecidableEq, Repr

namespace PrefixTable

/-- The prefixes that are known without being declared. -/
def wellKnown : List (String × String) :=
  [("rdf", "http://www.w3.org/1999/02/22-rdf-syntax-ns#"),
    ("rdfs", "http://www.w3.org/2000/01/rdf-schema#"),
    ("owl", "http://www.w3.org/2002/07/owl#"),
    ("xsd", "http://www.w3.org/2001/XMLSchema#"),
    ("skos", "http://www.w3.org/2004/02/skos/core#"),
    ("dc-elements", "http://purl.org/dc/elements/1.1/"),
    ("dc", "http://purl.org/dc/terms/"),
    ("foaf", "http://xmlns.com/foaf/0.1/"),
    ("dbp-ont", "http://dbpedia.org/ontology/"),
    ("dbp-prop", "http://dbpedia.org/property/")]

/-- The table of the well-known prefixes. -/
def standard : PrefixTable := ⟨.ofList wellKnown⟩

instance : Inhabited PrefixTable := ⟨standard⟩

/-- Declare a prefix, in place of its former namespace if it had one. -/
def insert (ns : PrefixTable) (label namespaceIri : String) : PrefixTable :=
  ⟨ns.prefixes.insert label namespaceIri⟩

/-- Declare prefixes one after the other. -/
def insertAll (ns : PrefixTable) (declared : List (String × String)) : PrefixTable :=
  ⟨ns.prefixes.insertAll declared⟩

/-- The parts of a text before and after its first colon. -/
def splitCompact (text : String) : Option (String × String) :=
  match text.toList.span (· != ':') with
  | (label, ':' :: rest) => some (String.ofList label, String.ofList rest)
  | _ => none

/-- The IRI that a compact IRI stands for. White space around the text does not count. -/
def expand (ns : PrefixTable) (text : String) : String :=
  let text := trim text
  match splitCompact text with
  | some (label, rest) =>
    if label.isEmpty then text
    else match ns.prefixes.get? label with
      | some namespaceIri => namespaceIri ++ rest
      | none => text
  | none => text

end PrefixTable

end FactHierarchy
