/-!
# Finite maps from strings to strings

A `StringMap` is a list of entries with strictly ascending keys. Every finite map has exactly one
such list, so equal maps are equal values, and the entries are always read in the order of their
keys.
-/

set_option autoImplicit false

namespace FactHierarchy

/-- A finite map from strings to strings. -/
structure StringMap where
  entries : List (String × String)
  ascending : entries.Pairwise (fun a b => a.1 < b.1)
  deriving DecidableEq, Repr

namespace StringMap

/-- The map without entries. -/
def empty : StringMap := ⟨[], .nil⟩

instance : Inhabited StringMap := ⟨empty⟩

/-- The value under a key. -/
def get? (m : StringMap) (key : String) : Option String := m.entries.lookup key

/-- Put an entry in its place, or change the value that stands there. -/
def insertEntry (key value : String) : List (String × String) → List (String × String)
  | [] => [(key, value)]
  | e :: rest =>
    if key < e.1 then (key, value) :: e :: rest
    else if e.1 < key then e :: insertEntry key value rest
    else (key, value) :: rest

/-- Only the given key can be new. -/
theorem fst_of_mem_insertEntry {key value : String} {l : List (String × String)}
    {e : String × String} (h : e ∈ insertEntry key value l) :
    e.1 = key ∨ ∃ e' ∈ l, e'.1 = e.1 := by
  induction l with
  | nil => simp_all [insertEntry]
  | cons d l ih =>
    rw [insertEntry] at h
    split at h
    · rcases List.mem_cons.1 h with rfl | h
      · exact .inl rfl
      · exact .inr ⟨e, h, rfl⟩
    · split at h
      · rcases List.mem_cons.1 h with rfl | h
        · exact .inr ⟨e, by simp, rfl⟩
        · rcases ih h with h | ⟨e', he', h⟩
          · exact .inl h
          · exact .inr ⟨e', by simp [he'], h⟩
      · rcases List.mem_cons.1 h with rfl | h
        · exact .inl rfl
        · exact .inr ⟨e, by simp [h], rfl⟩

/-- Keys stay in ascending order. -/
theorem pairwise_insertEntry (key value : String) {l : List (String × String)}
    (h : l.Pairwise (fun a b => a.1 < b.1)) :
    (insertEntry key value l).Pairwise (fun a b => a.1 < b.1) := by
  induction l with
  | nil => simp [insertEntry]
  | cons d l ih =>
    rw [List.pairwise_cons] at h
    rw [insertEntry]
    split
    case isTrue hlt =>
      refine List.pairwise_cons.2 ⟨fun e he => ?_, List.pairwise_cons.2 h⟩
      rcases List.mem_cons.1 he with rfl | he
      · exact hlt
      · exact String.lt_trans hlt (h.1 e he)
    case isFalse hlt =>
      split
      case isTrue hgt =>
        refine List.pairwise_cons.2 ⟨fun e he => ?_, ih h.2⟩
        rcases fst_of_mem_insertEntry he with he | ⟨e', he', he⟩
        · exact he ▸ hgt
        · exact he ▸ h.1 e' he'
      case isFalse hgt =>
        have hk : d.1 = key := String.le_antisymm (String.not_lt.1 hlt) (String.not_lt.1 hgt)
        exact List.pairwise_cons.2 ⟨fun e he => hk ▸ h.1 e he, h.2⟩

/-- Set the value under a key. -/
def insert (m : StringMap) (key value : String) : StringMap :=
  ⟨insertEntry key value m.entries, pairwise_insertEntry key value m.ascending⟩

/-- Set the value under each key of a list in turn, so that of repeated keys the last one
counts. -/
def insertAll (m : StringMap) (entries : List (String × String)) : StringMap :=
  entries.foldl (fun m e => m.insert e.1 e.2) m

/-- The map of a list of entries, the last one of repeated keys. -/
def ofList (entries : List (String × String)) : StringMap := empty.insertAll entries

end StringMap

end FactHierarchy
