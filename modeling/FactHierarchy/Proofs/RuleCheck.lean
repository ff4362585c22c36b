import FactHierarchy.RuleCheck
import Mathlib.Data.List.Nodup

/-!
# Which rules pass the check

A rule is sound when its id is not blank and no predicate is listed twice among its children or
among its properties (`Rule.check_eq_ok_iff`).

The check of several rules goes through them in order, and its answer where it refuses them depends
on the order. Whether it lets them pass does not: rules pass when their ids differ and each of them
is sound (`Rule.checkAll_eq_ok_iff`).
-/

set_option autoImplicit false

namespace FactHierarchy

/-! ## Steps in a row -/

section Steps

variable {ε α β : Type}

/-- Steps in a row succeed when each of them does. -/
theorem bind_eq_ok_iff {x : Except ε α} {f : α → Except ε β} {b : β} :
    (x >>= f) = .ok b ↔ ∃ a, x = .ok a ∧ f a = .ok b := by
  cases x <;> simp [bind, Except.bind]

theorem check_bind_eq_ok_iff {x : Except ε Unit} {y : Except ε β} {b : β} :
    (do x; y) = .ok b ↔ x = .ok () ∧ y = .ok b := by
  cases x <;> simp [bind, Except.bind]

end Steps

/-! ## Repeats -/

section Repeats

variable {α : Type} [DecidableEq α]

theorem firstRepeatAfter_eq_none_iff {seen l : List α} :
    firstRepeatAfter seen l = none ↔ l.Nodup ∧ ∀ a ∈ l, a ∉ seen := by
  induction l generalizing seen with
  | nil => simp [firstRepeatAfter]
  | cons a rest ih =>
      rw [firstRepeatAfter, List.nodup_cons, List.forall_mem_cons]
      by_cases hseen : a ∈ seen
      · simp [hseen]
      · rw [if_neg hseen, ih]
        simp only [List.mem_cons, not_or]
        constructor
        · rintro ⟨hrest, hnew⟩
          exact ⟨⟨fun ha => (hnew a ha).1 rfl, hrest⟩, hseen, fun b hb => (hnew b hb).2⟩
        · rintro ⟨⟨ha, hrest⟩, -, hnew⟩
          exact ⟨hrest, fun b hb => ⟨fun heq => ha (heq ▸ hb), hnew b hb⟩⟩

/-- **Nothing is found repeated exactly when nothing is.** -/
theorem firstRepeat?_eq_none_iff {l : List α} : firstRepeat? l = none ↔ l.Nodup := by
  rw [firstRepeat?, firstRepeatAfter_eq_none_iff]
  simp

end Repeats

/-! ## One rule and several rules -/

namespace Rule

variable {rules rules' : List Rule}

theorem checkRelations_eq_ok_iff (r : Rule) (list : RelationList) {relations : List Relation} :
    r.checkRelations list relations = .ok () ↔ (relations.map Relation.predicate).Nodup := by
  rw [checkRelations, ← firstRepeat?_eq_none_iff]
  cases firstRepeat? (relations.map Relation.predicate) with
  | some predicate => simp
  | none => simp

/-- **A rule passes the check when it has an id and repeats no predicate in one of its lists.** -/
theorem check_eq_ok_iff {r : Rule} :
    r.check = .ok () ↔ isBlank r.id = false ∧ (r.children.map Relation.predicate).Nodup ∧
      (r.properties.map Relation.predicate).Nodup := by
  rw [← checkRelations_eq_ok_iff r .children, ← checkRelations_eq_ok_iff r .properties, check]
  cases isBlank r.id with
  | true => simp [bind, Except.bind, throw, throwThe, MonadExceptOf.throw]
  | false =>
      show (do r.checkRelations .children r.children
               r.checkRelations .properties r.properties) = .ok () ↔ _
      rw [check_bind_eq_ok_iff]
      exact (and_iff_right rfl).symm

theorem checkAllAfter_eq_ok_iff {seen : List String} :
    checkAllAfter seen rules = .ok () ↔
      (rules.map Rule.id).Nodup ∧ ∀ r ∈ rules, r.id ∉ seen ∧ r.check = .ok () := by
  induction rules generalizing seen with
  | nil => simp [checkAllAfter]
  | cons r rules ih =>
      rw [checkAllAfter, List.map_cons, List.nodup_cons, List.forall_mem_cons]
      by_cases hseen : r.id ∈ seen
      · simp [hseen]
      · rw [if_neg hseen]
        cases hcheck : r.check with
        | error cause => simp
        | ok _ =>
            dsimp only
            rw [ih]
            simp only [List.mem_map, List.mem_cons, not_or, not_exists, not_and]
            grind

/-- **Rules pass the check when their ids differ and each of them is sound.** -/
theorem checkAll_eq_ok_iff :
    checkAll rules = .ok () ↔ (rules.map Rule.id).Nodup ∧ ∀ r ∈ rules, r.check = .ok () := by
  rw [checkAll, checkAllAfter_eq_ok_iff]
  simp

theorem nodup_of_checkAll (h : checkAll rules = .ok ()) : rules.Nodup :=
  List.Nodup.of_map Rule.id (checkAll_eq_ok_iff.1 h).1

/-- **The order of rules does not decide whether they pass.** -/
theorem checkAll_perm (hperm : rules'.Perm rules) :
    checkAll rules' = .ok () ↔ checkAll rules = .ok () := by
  rw [checkAll_eq_ok_iff, checkAll_eq_ok_iff, (hperm.map Rule.id).nodup_iff]
  simp only [hperm.mem_iff]

end Rule

end FactHierarchy
