import Std.Data.TreeMap

/-!
# Sibling names

Children that one parent reaches through one predicate and that have the same name are told apart.
Each child claims its name (`TakenNames.claim`) on a table that serves this scope alone. The
first claim of a name gets the name itself, and a repeated claim gets the name followed by a
number, starting from 2. A numbered name enters the table as a name of its own, with the number it
was given as its count.

A number is chosen by counting claims, not by looking for a free name: where `Cats2` is claimed
first and then `Cats` twice, `Cats2` is given twice.

Counts are 32 bits wide.
-/

set_option autoImplicit false

namespace FactHierarchy

open Std

/-- The names taken so far, each with the number that was given last. -/
structure TakenNames where
  counts : TreeMap String UInt32 := {}

namespace TakenNames

/-- The table of a new scope. -/
def empty : TakenNames := {}

/-- A name with a decimal number behind it. -/
def numbered (name : String) (n : UInt32) : String :=
  name ++ String.ofList (Nat.toDigits 10 n.toNat)

/-- Claim a name. -/
def claim (t : TakenNames) (name : String) : String × TakenNames :=
  match t.counts[name]? with
  | none => (name, ⟨t.counts.insert name 1⟩)
  | some count =>
    let next := count + 1
    let renamed := numbered name next
    (renamed, ⟨(t.counts.insert name next).insert renamed next⟩)

/-- Claim names one after the other. -/
def claimAll (t : TakenNames) : List String → List String
  | [] => []
  | name :: names =>
    let (given, t) := t.claim name
    given :: t.claimAll names

end TakenNames

end FactHierarchy
