import FactHierarchy.PrefixTable
import Mathlib.Data.List.Nodup

/-!
# What a prefix stands for

An insertion into a string map changes the value under its key alone (`StringMap.get?_insert`), so
entries with different keys can be inserted in any order (`StringMap.get?_insertAll`). Of a table of
prefixes this says that prefixes which are declared take precedence over the well-known ones
(`PrefixTable.get?_insertAll_standard`).
-/

set_option autoImplicit false

namespace FactHierarchy

namespace StringMap

theorem lookup_cons_eq (key : String) (e : String × String) (l : List (String × String)) :
    (e :: l).lookup key = if key = e.1 then some e.2 else l.lookup key := by
  obtain ⟨key', value⟩ := e
  rw [List.lookup_cons]
  by_cases hkey : key = key'
  · simp [hkey]
  · have hbeq : (key == key') = false := beq_eq_false_iff_ne.2 hkey
    simp only [hbeq, if_neg hkey]

theorem lookup_insertEntry (key value key' : String) (l : List (String × String)) :
    (insertEntry key value l).lookup key' = if key' = key then some value else l.lookup key' := by
  induction l with
  | nil => exact lookup_cons_eq key' (key, value) []
  | cons e rest ih =>
      rw [insertEntry]
      split
      case isTrue hlt => exact lookup_cons_eq key' (key, value) (e :: rest)
      case isFalse hlt =>
        split
        case isTrue hgt =>
          -- the entry in front has another key than the new one
          have hne : e.1 ≠ key := fun heq => String.lt_irrefl key (heq ▸ hgt)
          rw [lookup_cons_eq, lookup_cons_eq, ih]
          by_cases hkey : key' = e.1
          · rw [if_pos hkey, if_pos hkey, if_neg fun heq => hne (hkey.symm.trans heq)]
          · rw [if_neg hkey, if_neg hkey]
        case isFalse hgt =>
          obtain rfl : e.1 = key := String.le_antisymm (String.not_lt.1 hlt) (String.not_lt.1 hgt)
          rw [lookup_cons_eq, lookup_cons_eq]
          by_cases hkey : key' = e.1
          · rw [if_pos hkey, if_pos hkey]
          · rw [if_neg hkey, if_neg hkey, if_neg hkey]

/-- **An insertion changes the value under its key alone.** -/
theorem get?_insert (m : StringMap) (key value key' : String) :
    (m.insert key value).get? key' = if key' = key then some value else m.get? key' :=
  lookup_insertEntry key value key' m.entries

theorem nodup_keys (m : StringMap) : (m.entries.map Prod.fst).Nodup := by
  rw [List.Nodup, List.pairwise_map]
  refine m.ascending.imp fun {e e'} hlt heq => ?_
  exact String.lt_irrefl e'.1 (heq ▸ hlt)

/-- **Entries that are inserted take precedence**, each under its own key. -/
theorem get?_insertAll {entries : List (String × String)} (h : (entries.map Prod.fst).Nodup)
    (m : StringMap) (key : String) :
    (m.insertAll entries).get? key = (entries.lookup key).or (m.get? key) := by
  induction entries generalizing m with
  | nil => rfl
  | cons e entries ih =>
      obtain ⟨hnew, hentries⟩ := List.nodup_cons.1 h
      show ((m.insert e.1 e.2).insertAll entries).get? key = _
      rw [ih hentries, get?_insert, lookup_cons_eq]
      by_cases hkey : key = e.1
      · -- no later entry has this key
        have hnone : entries.lookup key = none := by
          rw [List.lookup_eq_none_iff]
          intro e' he'
          rw [bne_iff_ne, hkey]
          exact fun heq => hnew (heq ▸ List.mem_map_of_mem he')
        rw [if_pos hkey, if_pos hkey, hnone, Option.none_or, Option.some_or]
      · rw [if_neg hkey, if_neg hkey]

end StringMap

namespace PrefixTable

/-- **Prefixes that are declared take precedence over the well-known ones.** -/
theorem get?_insertAll_standard (declared : StringMap) (label : String) :
    (standard.insertAll declared.entries).prefixes.get? label =
      (declared.get? label).or (wellKnown.lookup label) := by
  have hstandard : standard.prefixes.get? label = wellKnown.lookup label := by
    have hknown : (wellKnown.map Prod.fst).Nodup := by decide
    show (StringMap.empty.insertAll wellKnown).get? label = _
    rw [StringMap.get?_insertAll hknown]
    exact Option.or_none
  show (standard.prefixes.insertAll declared.entries).get? label = _
  rw [StringMap.get?_insertAll declared.nodup_keys, hstandard]
  rfl

end PrefixTable

end FactHierarchy
