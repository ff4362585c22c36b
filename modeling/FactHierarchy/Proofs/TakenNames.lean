import FactHierarchy.TakenNames
import Mathlib.Data.Nat.Basic
import Mathlib.Order.Basic

/-!
# Sibling names that are told apart

A table knows for each name the number that was given last (`TakenNames.count`), and a claim of the
name gives the next one (`TakenNames.claim_fst_eq`). The claimed name and the given name both have
that number afterwards, and no other count changes (`TakenNames.count_claim`).

So two claims of one name get different names, unless the count of the name is the same before
both of them. For this the count must fall in between, and it falls only where the name itself is
given to a claim of another name that is counted less far (`TakenNames.repeated_iff_count_eq`).
-/

set_option autoImplicit false

namespace FactHierarchy.TakenNames

variable {t : TakenNames} {name other : String} {names : List String} {k m n : ℕ}

/-! ## Numbered names -/

theorem numbered_ne_empty (hname : name ≠ "") (n : UInt32) : numbered name n ≠ "" := by
  intro h
  have happend := String.append_eq_empty_iff.1 h
  exact hname happend.1

/-- The name that the claim of a given number gets: the name itself, and then the name with the
number behind it. -/
def nth (name : String) (n : ℕ) : String :=
  if n = 1 then name else name ++ String.ofList (Nat.toDigits 10 n)

theorem append_toDigits_ne (name : String) (n : ℕ) :
    name ++ String.ofList (Nat.toDigits 10 n) ≠ name := by
  intro h
  have hlist := congrArg String.toList h
  rw [String.toList_append, String.toList_ofList] at hlist
  exact Nat.toDigits_ne_nil (List.append_right_eq_self.1 hlist)

/-- **No two numbers give a name the same form.** -/
theorem nth_injective (name : String) : Function.Injective (nth name) := by
  intro m n h
  rw [nth, nth] at h
  split at h
  case isTrue hm =>
    split at h
    case isTrue hn => exact hm.trans hn.symm
    case isFalse hn => exact absurd h.symm (append_toDigits_ne name n)
  case isFalse hm =>
    split at h
    case isTrue hn => exact absurd h (append_toDigits_ne name m)
    case isFalse hn =>
      have hdigits := String.ofList_injective (String.append_right_inj name |>.1 h)
      -- the digits determine the number
      rw [← Nat.ofDigitChars_ten_toDigits (n := m), hdigits, Nat.ofDigitChars_ten_toDigits]

/-! ## One claim -/

/-- The number that was given last for a name, and 0 for a name that is not taken. -/
def count (t : TakenNames) (name : String) : ℕ := t.counts[name]?.elim 0 UInt32.toNat

/-- No claim of a name gets an empty one. -/
theorem claim_fst_ne_empty (hname : name ≠ "") : (t.claim name).1 ≠ "" := by
  rw [claim]
  split
  · exact hname
  · exact numbered_ne_empty hname _

theorem getElem?_insert_counts {counts : Std.TreeMap String UInt32} {count : UInt32} :
    (counts.insert name count)[other]? = if other = name then some count else counts[other]? := by
  rw [Std.TreeMap.getElem?_insert]
  refine if_congr ?_ rfl rfl
  exact Std.LawfulEqOrd.compare_eq_iff_eq.trans eq_comm

/-- **What a claim writes**: the next number of the name, for the name and for what it gets. -/
theorem getElem?_counts_claim (t : TakenNames) (name other : String) :
    (t.claim name).2.counts[other]? =
      if other = name ∨ other = (t.claim name).1 then some (.ofNat (t.count name + 1))
      else t.counts[other]? := by
  rw [claim, count]
  cases t.counts[name]? with
  | none =>
      dsimp only [Option.elim]
      rw [getElem?_insert_counts]
      exact if_congr (or_self_iff).symm rfl rfl
  | some count =>
      have hnext : UInt32.ofNat (count.toNat + 1) = count + 1 := by simp
      dsimp only [Option.elim]
      rw [getElem?_insert_counts, getElem?_insert_counts, hnext]
      by_cases hname : other = name
      · simp [hname]
      · simp [hname]

/-- The first claim of a name gets the name itself, and nothing else is taken by it. -/
theorem claim_of_free (hfree : t.counts[name]? = none) :
    (t.claim name).1 = name ∧
      ∀ other, other ≠ name → (t.claim name).2.counts[other]? = t.counts[other]? := by
  have hfst : (t.claim name).1 = name := by rw [claim, hfree]
  refine ⟨hfst, fun other hne => ?_⟩
  rw [getElem?_counts_claim, hfst, if_neg (not_or.2 ⟨hne, hne⟩)]

/-- All names in the table have a number, and none is above the bound. -/
def CountsUpTo (t : TakenNames) (k : ℕ) : Prop :=
  ∀ (name : String) (count : UInt32), t.counts[name]? = some count →
    0 < count.toNat ∧ count.toNat ≤ k

theorem CountsUpTo.count_le (h : t.CountsUpTo k) (name : String) : t.count name ≤ k := by
  rw [count]
  cases hcount : t.counts[name]? with
  | none => exact k.zero_le
  | some count => exact (h name count hcount).2

/-- **A claim gets the next number of the name.** -/
theorem claim_fst_eq (h : t.CountsUpTo k) (hk : k + 1 < UInt32.size) :
    (t.claim name).1 = nth name (t.count name + 1) := by
  rw [claim, count]
  cases hcount : t.counts[name]? with
  | none => rfl
  | some count =>
      obtain ⟨hpos, hle⟩ := h name count hcount
      have hnext : (count + 1).toNat = count.toNat + 1 := by
        rw [UInt32.toNat_add, UInt32.toNat_one]
        exact Nat.mod_eq_of_lt (lt_of_le_of_lt (Nat.succ_le_succ hle) hk)
      dsimp only [Option.elim]
      rw [nth, if_neg (by omega), numbered, hnext]

/-- **How a claim changes the counts.** -/
theorem count_claim (h : t.CountsUpTo k) (hk : k + 1 < UInt32.size) (other : String) :
    (t.claim name).2.count other =
      if other = name ∨ other = (t.claim name).1 then t.count name + 1 else t.count other := by
  have hle := h.count_le name
  rw [count, getElem?_counts_claim]
  split
  · exact UInt32.toNat_ofNat_of_lt' (by omega)
  · rfl

theorem CountsUpTo.claim (h : t.CountsUpTo k) (hk : k + 1 < UInt32.size) (name : String) :
    (t.claim name).2.CountsUpTo (k + 1) := by
  intro other count hcount
  have hle := h.count_le name
  rw [getElem?_counts_claim] at hcount
  split at hcount
  · obtain rfl := Option.some.inj hcount
    rw [UInt32.toNat_ofNat_of_lt' (by omega)]
    omega
  · obtain ⟨hpos, hold⟩ := h other count hcount
    exact ⟨hpos, Nat.le_succ_of_le hold⟩

/-! ## Claims one after the other -/

/-- The table after some claims. -/
def after (t : TakenNames) (names : List String) : TakenNames :=
  names.foldl (fun t name => (t.claim name).2) t

theorem after_take_succ (hk : names[k]? = some name) :
    t.after (names.take (k + 1)) = ((t.after (names.take k)).claim name).2 := by
  rw [after, List.take_add_one, hk, List.foldl_append]
  rfl

theorem length_claimAll (t : TakenNames) (names : List String) :
    (t.claimAll names).length = names.length := by
  induction names generalizing t with
  | nil => rfl
  | cons name names ih => rw [claimAll, List.length_cons, List.length_cons, ih]

/-- Each name is claimed on the table after the claims before it. -/
theorem getElem?_claimAll (t : TakenNames) (names : List String) (k : ℕ) :
    (t.claimAll names)[k]? =
      names[k]?.map fun name => ((t.after (names.take k)).claim name).1 := by
  induction names generalizing t k with
  | nil => rfl
  | cons name names ih =>
      cases k with
      | zero => rfl
      | succ k => exact ih (t.claim name).2 k

/-- As long as there are not too many claims, no number is above the number of claims. -/
theorem countsUpTo_after (hlength : names.length < UInt32.size) (hk : k ≤ names.length) :
    (empty.after (names.take k)).CountsUpTo k := by
  induction k with
  | zero =>
      intro name count hcount
      rw [show (empty.after (names.take 0)).counts = ∅ from rfl,
        Std.TreeMap.getElem?_emptyc] at hcount
      cases hcount
  | succ k ih =>
      obtain ⟨name, hname⟩ : ∃ name, names[k]? = some name := ⟨_, List.getElem?_eq_getElem hk⟩
      rw [after_take_succ hname]
      exact (ih (by omega)).claim (by omega) name

/-! ## Claims of one name -/

/-- The name that a claim in a list gets. -/
theorem getElem?_claimAll_eq_nth (hlength : names.length < UInt32.size)
    (hk : names[k]? = some name) :
    (empty.claimAll names)[k]? = some (nth name ((empty.after (names.take k)).count name + 1)) := by
  have hlt : k < names.length := (List.getElem?_eq_some_iff.1 hk).1
  rw [getElem?_claimAll, hk, Option.map_some,
    claim_fst_eq (countsUpTo_after hlength hlt.le) (by omega)]

/-- **How a claim in a list changes the counts.** -/
theorem count_after_take_succ (hlength : names.length < UInt32.size) (hk : names[k]? = some name)
    (other : String) :
    (empty.after (names.take (k + 1))).count other =
      if other = name ∨ (empty.claimAll names)[k]? = some other then
        (empty.after (names.take k)).count name + 1
      else (empty.after (names.take k)).count other := by
  have hlt : k < names.length := (List.getElem?_eq_some_iff.1 hk).1
  rw [after_take_succ hk, count_claim (countsUpTo_after hlength hlt.le) (by omega),
    getElem?_claimAll, hk, Option.map_some]
  exact if_congr (or_congr_right (eq_comm.trans (Option.some_inj).symm)) rfl rfl

/-- What falls does so in some step. -/
theorem exists_step_of_lt {f : ℕ → ℕ} {i j : ℕ} (hij : i ≤ j) (h : f j < f i) :
    ∃ k, i ≤ k ∧ k < j ∧ f (k + 1) < f k := by
  induction j, hij using Nat.le_induction with
  | base => exact absurd h (lt_irrefl _)
  | succ j hij ih =>
      by_cases hlast : f (j + 1) < f j
      · exact ⟨j, hij, j.lt_succ_self, hlast⟩
      · obtain ⟨k, hik, hkj, hfall⟩ := ih ((not_lt.1 hlast).trans_lt h)
        exact ⟨k, hik, hkj.trans j.lt_succ_self, hfall⟩

/-- The count of a name falls only where the name is given to a claim of another name, which is
counted less far. -/
theorem of_count_fall (hlength : names.length < UInt32.size) (hk : names[k]? = some other)
    (hfall : (empty.after (names.take (k + 1))).count name <
      (empty.after (names.take k)).count name) :
    other ≠ name ∧ (empty.claimAll names)[k]? = some name ∧
      (empty.after (names.take k)).count other + 1 < (empty.after (names.take k)).count name := by
  rw [count_after_take_succ hlength hk] at hfall
  split at hfall
  · next hcase =>
    have hne : other ≠ name := by
      rintro rfl
      omega
    exact ⟨hne, hcase.resolve_left hne.symm, hfall⟩
  · exact absurd hfall (lt_irrefl _)

/-- **When two claims of one name get the same name**: the count of the name is the same before
both. This takes a claim of another name between them, which gets the very name that the two
claim, and sets its count back. -/
theorem repeated_iff_count_eq {i j : ℕ} (hlength : names.length < UInt32.size) (hij : i < j)
    (hi : names[i]? = some name) (hj : names[j]? = some name) :
    ((empty.claimAll names)[i]? = (empty.claimAll names)[j]? ↔
      (empty.after (names.take i)).count name = (empty.after (names.take j)).count name) ∧
    ((empty.claimAll names)[i]? = (empty.claimAll names)[j]? →
      ∃ k other, i < k ∧ k < j ∧ names[k]? = some other ∧ other ≠ name ∧
        (empty.claimAll names)[k]? = some name ∧
        (empty.after (names.take k)).count other + 1 <
          (empty.after (names.take k)).count name) := by
  have hiff : (empty.claimAll names)[i]? = (empty.claimAll names)[j]? ↔
      (empty.after (names.take i)).count name = (empty.after (names.take j)).count name := by
    rw [getElem?_claimAll_eq_nth hlength hi, getElem?_claimAll_eq_nth hlength hj,
      Option.some.injEq, (nth_injective name).eq_iff, Nat.add_right_cancel_iff]
  refine ⟨hiff, fun hsame => ?_⟩
  have hcount := hiff.1 hsame
  -- the first of the two claims raises the count, so it falls before the second one
  have hraised := count_after_take_succ hlength hi name
  rw [if_pos (.inl rfl)] at hraised
  obtain ⟨k, hik, hkj, hfall⟩ := exists_step_of_lt
    (f := fun k => (empty.after (names.take k)).count name) (show i + 1 ≤ j from hij)
    (by omega)
  have hlt : k < names.length := hkj.trans (List.getElem?_eq_some_iff.1 hj).1
  have hk : names[k]? = some names[k] := List.getElem?_eq_getElem hlt
  obtain ⟨hne, hgiven, hless⟩ := of_count_fall hlength hk hfall
  exact ⟨k, names[k], hik, hkj, hk, hne, hgiven, hless⟩

/-! ## A repeated name

The second claim of `Cats` gets `Cats2`, and sets back the count of `Cats2` from 3 to 2. -/

def cats : List String := ["Cats2", "Cats2", "Cats2", "Cats", "Cats", "Cats2"]

theorem repeated_cats23 :
    (empty.claimAll cats)[2]? = (empty.claimAll cats)[5]? ∧
    ∃ k other, 2 < k ∧ k < 5 ∧ cats[k]? = some other ∧ other ≠ "Cats2" ∧
      (empty.claimAll cats)[k]? = some "Cats2" ∧
      (empty.after (cats.take k)).count other + 1 <
        (empty.after (cats.take k)).count "Cats2" := by
  have hsame : (empty.claimAll cats)[2]? = (empty.claimAll cats)[5]? := by decide +kernel
  have hi : cats[2]? = some "Cats2" := rfl
  have hj : cats[5]? = some "Cats2" := rfl
  obtain ⟨-, hfall⟩ := repeated_iff_count_eq (by decide) (by decide) hi hj
  exact ⟨hsame, hfall hsame⟩

/-- **Two claims of one name can get the same name.** -/
theorem claims_not_told_apart :
    ¬ ∀ (names : List String) (name : String) (i j : ℕ), names.length < UInt32.size → i < j →
      names[i]? = some name → names[j]? = some name →
        (empty.claimAll names)[i]? ≠ (empty.claimAll names)[j]? := by
  intro h
  exact h cats "Cats2" 2 5 (by decide) (by decide) rfl rfl (by decide +kernel)

end FactHierarchy.TakenNames
