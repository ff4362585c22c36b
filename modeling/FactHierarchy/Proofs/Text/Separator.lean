/-!
# Where a part of a text ends

Two ways of writing a part of a text in front of a separator, so that it can be taken off again
whatever follows: the separator does not occur in the part (`append_separator_inj`), or the part is
written item by item and the code of no item begins with the separator
(`flatMap_append_separator_inj`).
-/

set_option autoImplicit false

namespace FactHierarchy

variable {α β : Type}

/-- What stands before the first occurrence of a separator is determined. -/
theorem append_separator_inj {separator : α} {l l' rest rest' : List α}
    (hl : separator ∉ l) (hl' : separator ∉ l')
    (h : l ++ separator :: rest = l' ++ separator :: rest') : l = l' ∧ rest = rest' := by
  induction l generalizing l' with
  | nil =>
      cases l' with
      | nil => exact ⟨rfl, (List.cons.inj h).2⟩
      | cons a l' =>
          obtain ⟨rfl, -⟩ := List.cons.inj h
          exact absurd (List.mem_cons_self ..) hl'
  | cons a l ih =>
      cases l' with
      | nil =>
          obtain ⟨rfl, -⟩ := List.cons.inj h
          exact absurd (List.mem_cons_self ..) hl
      | cons b l' =>
          obtain ⟨rfl, htail⟩ := List.cons.inj h
          obtain ⟨rfl, hrest⟩ := ih (fun hmem => hl (List.mem_cons_of_mem _ hmem))
            (fun hmem => hl' (List.mem_cons_of_mem _ hmem)) htail
          exact ⟨rfl, hrest⟩

/-- **The items before a separator are determined** when the first item is determined by its code,
whatever follows, and no code looks like the separator. -/
theorem flatMap_append_separator_inj {code : α → List β} {separator : β}
    (hcode : ∀ a a' rest rest', code a ++ rest = code a' ++ rest' → a = a' ∧ rest = rest')
    (hseparator : ∀ a rest rest', code a ++ rest ≠ separator :: rest')
    {l l' : List α} {rest rest' : List β}
    (h : l.flatMap code ++ separator :: rest = l'.flatMap code ++ separator :: rest') :
    l = l' ∧ rest = rest' := by
  induction l generalizing l' with
  | nil =>
      cases l' with
      | nil => exact ⟨rfl, (List.cons.inj h).2⟩
      | cons a' l' =>
          rw [List.flatMap_cons, List.append_assoc] at h
          exact absurd h.symm (hseparator a' _ _)
  | cons a l ih =>
      rw [List.flatMap_cons, List.append_assoc] at h
      cases l' with
      | nil => exact absurd h (hseparator a _ _)
      | cons a' l' =>
          rw [List.flatMap_cons, List.append_assoc] at h
          obtain ⟨rfl, htail⟩ := hcode a a' _ _ h
          obtain ⟨rfl, hrest⟩ := ih htail
          exact ⟨rfl, hrest⟩

end FactHierarchy
