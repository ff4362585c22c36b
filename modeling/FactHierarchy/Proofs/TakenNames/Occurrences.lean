import FactHierarchy.Proofs.TakenNames
import Mathlib.Data.List.Nodup

/-!
# Sibling names that are told apart for certain

Numbers are misleading where one candidate is another one with digits behind it: then a claim may
get a name that is claimed itself. Among *unmistakable* candidates (`TakenNames.Unmistakable`) this
cannot happen, as a form of one candidate is never a form of another one
(`TakenNames.eq_of_nth_eq_nth`). So nothing but its own claims counts for a candidate
(`TakenNames.Unmistakable.count_after`). Its first claim gets the candidate itself, its second claim
the candidate with a 2 behind it, and so on, and no two claims get the same name
(`TakenNames.claimAll_numbers_occurrences`).
-/

set_option autoImplicit false

namespace FactHierarchy.TakenNames

variable {name other : String} {names : List String} {k m n : ℕ}

/-! ## Names with digits behind them -/

/-- The second name is the first one with at least one decimal digit behind it. -/
def IsNumberedForm (name longer : String) : Prop :=
  ∃ digits : List Char, digits ≠ [] ∧ (∀ c ∈ digits, c.isDigit = true) ∧
    longer = name ++ String.ofList digits

theorem isNumberedForm_iff {longer : String} :
    IsNumberedForm name longer ↔ name.toList <+: longer.toList ∧
      longer.toList.drop name.toList.length ≠ [] ∧
      (longer.toList.drop name.toList.length).all Char.isDigit = true := by
  rw [List.all_eq_true]
  constructor
  · rintro ⟨digits, hne, hdigits, rfl⟩
    rw [String.toList_append, String.toList_ofList, List.drop_left]
    exact ⟨List.prefix_append .., hne, hdigits⟩
  · rintro ⟨hstart, hne, hdigits⟩
    refine ⟨_, hne, hdigits, String.toList_inj.1 ?_⟩
    rw [String.toList_append, String.toList_ofList]
    exact (List.prefix_iff_eq_append.1 hstart).symm

instance : DecidableRel IsNumberedForm := fun _ _ => decidable_of_iff _ isNumberedForm_iff.symm

/-- **The candidates are unmistakable**: none of them is another one with digits behind it. -/
def Unmistakable (names : List String) : Prop :=
  ∀ name ∈ names, ∀ other ∈ names, ¬IsNumberedForm name other

instance : DecidablePred Unmistakable := fun names =>
  inferInstanceAs (Decidable (∀ name ∈ names, ∀ other ∈ names, ¬IsNumberedForm name other))

/-- A name followed by digits is a numbered form of it, or the name itself if there are none. -/
theorem eq_or_isNumberedForm {rest : List Char} (hrest : ∀ c ∈ rest, c.isDigit = true)
    (h : other.toList = name.toList ++ rest) : name = other ∨ IsNumberedForm name other := by
  cases rest with
  | nil =>
      rw [List.append_nil] at h
      exact .inl (String.toList_inj.1 h).symm
  | cons c rest =>
      refine .inr ⟨c :: rest, List.cons_ne_nil c rest, hrest, ?_⟩
      rw [← String.toList_inj, String.toList_append, String.toList_ofList, h]

theorem nth_one (name : String) : nth name 1 = name := rfl

/-- Every form of a name is the name with digits behind it, of which the first form has none. -/
theorem exists_nth_eq_append (name : String) (n : ℕ) :
    ∃ digits : List Char, (∀ c ∈ digits, c.isDigit = true) ∧
      (nth name n).toList = name.toList ++ digits := by
  rw [nth]
  split
  · exact ⟨[], fun _ hc => absurd hc List.not_mem_nil, (List.append_nil _).symm⟩
  · refine ⟨Nat.toDigits 10 n, fun c hc => ?_, ?_⟩
    · exact Nat.isDigit_of_mem_toDigits (by decide) (by decide) hc
    · rw [String.toList_append, String.toList_ofList]

/-- **No form of a candidate is a form of another one.** -/
theorem Unmistakable.eq_of_nth_eq_nth (hnames : Unmistakable names) (hname : name ∈ names)
    (hother : other ∈ names) (h : nth name m = nth other n) : name = other := by
  obtain ⟨digits, hdigits, hm⟩ := exists_nth_eq_append name m
  obtain ⟨digits', hdigits', hn⟩ := exists_nth_eq_append other n
  have happend : name.toList ++ digits = other.toList ++ digits' := by rw [← hm, ← hn, h]
  -- of two candidates with one form, the longer one has taken some of the digits of the shorter one
  obtain ⟨rest, hrest, rfl⟩ | ⟨rest, hrest, rfl⟩ := List.append_eq_append_iff.1 happend
  · have hdigits : ∀ c ∈ rest, c.isDigit = true :=
      fun c hc => hdigits c (List.mem_append_left _ hc)
    exact (eq_or_isNumberedForm hdigits hrest).resolve_right (hnames name hname other hother)
  · have hdigits : ∀ c ∈ rest, c.isDigit = true :=
      fun c hc => hdigits' c (List.mem_append_left _ hc)
    exact ((eq_or_isNumberedForm hdigits hrest).resolve_right (hnames other hother name hname)).symm

/-! ## Claims of unmistakable candidates -/

theorem count_take_succ (hk : names[k]? = some other) (name : String) :
    (names.take (k + 1)).count name =
      (names.take k).count name + if name = other then 1 else 0 := by
  rw [List.take_add_one, List.count_append, hk, Option.toList_some, List.count_singleton]
  refine congrArg _ (if_congr ?_ rfl rfl)
  rw [beq_iff_eq, eq_comm]

/-- **The count of a candidate is the number of its claims.** -/
theorem Unmistakable.count_after (hnames : Unmistakable names)
    (hlength : names.length < UInt32.size) (hname : name ∈ names) (hk : k ≤ names.length) :
    (empty.after (names.take k)).count name = (names.take k).count name := by
  induction k with
  | zero => rfl
  | succ k ih =>
      have hclaim : names[k]? = some names[k] := List.getElem?_eq_getElem hk
      rw [count_after_take_succ hlength hclaim, getElem?_claimAll_eq_nth hlength hclaim,
        count_take_succ hclaim, ← ih (Nat.le_of_succ_le hk)]
      by_cases heq : name = names[k]
      · rw [if_pos (.inl heq), if_pos heq, ← heq]
      · -- a claim of another candidate gets a form of that one, which is not this one
        have hgiven : ∀ n, nth names[k] n ≠ name := by
          intro n hgiven
          rw [← nth_one name] at hgiven
          exact heq (hnames.eq_of_nth_eq_nth (List.getElem_mem hk) hname hgiven).symm
        rw [if_neg heq, if_neg (not_or.2 ⟨heq, fun h => hgiven _ (Option.some.inj h)⟩),
          Nat.add_zero]

/-- A claim of a candidate gets the form of it that has the number of its claims so far. -/
theorem Unmistakable.getElem?_claimAll (hnames : Unmistakable names)
    (hlength : names.length < UInt32.size) (hk : names[k]? = some name) :
    (empty.claimAll names)[k]? = some (nth name ((names.take (k + 1)).count name)) := by
  obtain ⟨hlt, -⟩ := List.getElem?_eq_some_iff.1 hk
  have hcount := hnames.count_after hlength (List.mem_of_getElem? hk) hlt
  rw [count_after_take_succ hlength hk, if_pos (.inl rfl)] at hcount
  rw [getElem?_claimAll_eq_nth hlength hk, hcount]

/-- **Claims of unmistakable candidates are numbered by candidate, and they are told apart.** The
first claim of a candidate gets the candidate itself, and the claim with the number `k` gets the
candidate with `k` behind it, whatever is claimed in between. No two claims get the same name. -/
theorem claimAll_numbers_occurrences (hlength : names.length < UInt32.size)
    (hnames : Unmistakable names) :
    (empty.claimAll names).length = names.length ∧
    (∀ i name, names[i]? = some name →
      (empty.claimAll names)[i]? = some (nth name ((names.take (i + 1)).count name))) ∧
    (empty.claimAll names).Nodup := by
  refine ⟨length_claimAll empty names, fun i name hi => hnames.getElem?_claimAll hlength hi, ?_⟩
  rw [List.nodup_iff_getElem?_ne_getElem?]
  intro i j hij hj hsame
  rw [length_claimAll] at hj
  have hi : i < names.length := hij.trans hj
  rw [hnames.getElem?_claimAll hlength (List.getElem?_eq_getElem hi),
    hnames.getElem?_claimAll hlength (List.getElem?_eq_getElem hj), Option.some.injEq] at hsame
  have hname : names[i] = names[j] :=
    hnames.eq_of_nth_eq_nth (List.getElem_mem hi) (List.getElem_mem hj) hsame
  rw [hname, (nth_injective names[j]).eq_iff] at hsame
  -- the later claim of the candidate has been preceded by one claim of it more
  have hmore : (names.take (j + 1)).count names[j] = (names.take j).count names[j] + 1 := by
    rw [count_take_succ (List.getElem?_eq_getElem hj), if_pos rfl]
  have hbefore : (names.take (i + 1)).count names[j] ≤ (names.take j).count names[j] :=
    (List.take_sublist_take_left hij).count_le _
  omega

/-! ## Candidates that end in digits -/

/-- `Dogs2` is unmistakable although it ends in a digit, for `Dogs` is not claimed. -/
def pets : List String := ["Cats", "Cats", "Dogs2", "Cats", "Dogs2"]

theorem claims_of_pets_numbered :
    pets.length < UInt32.size ∧ Unmistakable pets ∧
    (empty.claimAll pets)[3]? = some (nth "Cats" 3) ∧ nth "Cats" 3 = "Cats3" ∧
    (empty.claimAll pets)[4]? = some (nth "Dogs2" 2) ∧ nth "Dogs2" 2 = "Dogs22" ∧
    (empty.claimAll pets).Nodup := by
  have hlength : pets.length < UInt32.size := by decide
  have hnames : Unmistakable pets := by decide +kernel
  obtain ⟨-, hclaims, hnodup⟩ := claimAll_numbers_occurrences hlength hnames
  exact ⟨hlength, hnames, hclaims 3 "Cats" rfl, by decide +kernel, hclaims 4 "Dogs2" rfl,
    by decide +kernel, hnodup⟩

-- `Dogs2` is `Dogs` with a 2 behind it, so these candidates can be mistaken for each other.
example : ¬Unmistakable ["Dogs", "Dogs2"] := by decide

end FactHierarchy.TakenNames
