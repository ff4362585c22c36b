import FactHierarchy.Json.Parser
import FactHierarchy.Proofs.Json.Legible

/-!
# Values that are read as they are written

A value is well-formed when its numbers are numbers (`Json.WellFormed`). The tokens of such a value
are legible (`Json.WellFormed.legible`), and the parser comes from them to the value
(`Json.WellFormed.parsed`), wherever a value may stand. So the text of a well-formed value is
read as this value (`Json.WellFormed.parse?_text`).
-/

set_option autoImplicit false

namespace FactHierarchy.Json

/-- **The numbers in the value are numbers.** -/
inductive WellFormed : Json → Prop where
  | scalar {value : Scalar} (h : value.WellFormed) : WellFormed (.scalar value)
  | array {items : List Json} (h : ∀ item ∈ items, WellFormed item) : WellFormed (.array items)
  | object {members : List (JsonText × Json)} (h : ∀ member ∈ members, WellFormed member.2) :
    WellFormed (.object members)

variable {j : Json} {ts : List Token}

/-! ## The tokens are legible -/

/-- What follows the first item is legible behind it. -/
theorem legible_moreItemTokens {items : List Json}
    (hitems : ∀ item ∈ items, Token.Legible item.tokens) (hts : Token.Legible ts) :
    Token.Legible (ts ++ moreItemTokens items) := by
  induction items generalizing ts with
  | nil => exact hts.append_mark (c := ']') rfl Token.legible_nil
  | cons item items ih =>
      rw [List.forall_mem_cons] at hitems
      obtain ⟨hitem, hitems⟩ := hitems
      exact hts.append_mark (c := ',') rfl (ih hitems hitem)

theorem legible_member {key : JsonText} (hts : Token.Legible ts) :
    Token.Legible (.scalar (.string key) :: .colon :: ts) :=
  (Token.legible_scalar (show (Scalar.string key).WellFormed from trivial)).append_mark
    (c := ':') rfl hts

/-- What follows the first member is legible behind it. -/
theorem legible_moreMemberTokens {members : List (JsonText × Json)}
    (hmembers : ∀ member ∈ members, Token.Legible member.2.tokens) (hts : Token.Legible ts) :
    Token.Legible (ts ++ moreMemberTokens members) := by
  induction members generalizing ts with
  | nil => exact hts.append_mark (c := '\x7d') rfl Token.legible_nil
  | cons member members ih =>
      rw [List.forall_mem_cons] at hmembers
      obtain ⟨hmember, hmembers⟩ := hmembers
      exact hts.append_mark (c := ',') rfl (legible_member (ih hmembers hmember))

/-- **The tokens of a well-formed value are legible.** -/
theorem WellFormed.legible (h : j.WellFormed) : Token.Legible j.tokens := by
  induction h with
  | scalar hvalue => exact Token.legible_scalar hvalue
  | @array items _ ih =>
      refine Token.Legible.cons_mark (c := '[') rfl ?_
      cases items with
      | nil => exact Token.legible_nil.cons_mark (c := ']') rfl
      | cons item items =>
          rw [List.forall_mem_cons] at ih
          exact legible_moreItemTokens ih.2 ih.1
  | @object members _ ih =>
      refine Token.Legible.cons_mark (c := '\x7b') rfl ?_
      cases members with
      | nil => exact Token.legible_nil.cons_mark (c := '\x7d') rfl
      | cons member members =>
          rw [List.forall_mem_cons] at ih
          exact legible_member (legible_moreMemberTokens ih.2 ih.1)

/-! ## The parser comes to the value -/

open JsonParser (step complete)

/-- **The tokens are parsed as the value**, wherever a value may stand. -/
def Parsed (j : Json) : Prop :=
  ∀ mayEnd stack, Reads step (.value mayEnd stack) j.tokens (complete j stack)

theorem reads_moreItemTokens {items : List Json} (hitems : ∀ item ∈ items, Parsed item)
    (done : List Json) (stack : List OpenJson) :
    Reads step (.afterItem done stack) (moreItemTokens items)
      (complete (.array (done.reverse ++ items)) stack) := by
  induction items generalizing done with
  | nil =>
      rw [List.append_nil]
      exact reads_singleton rfl
  | cons item items ih =>
      rw [List.forall_mem_cons] at hitems
      obtain ⟨hitem, hitems⟩ := hitems
      have hrest := ih hitems (item :: done)
      rw [List.reverse_cons, List.append_assoc] at hrest
      exact .cons rfl ((hitem false (.array done :: stack)).append hrest)

theorem reads_moreMemberTokens {members : List (JsonText × Json)}
    (hmembers : ∀ member ∈ members, Parsed member.2) (done : List (JsonText × Json))
    (stack : List OpenJson) :
    Reads step (.afterMember done stack) (moreMemberTokens members)
      (complete (.object (done.reverse ++ members)) stack) := by
  induction members generalizing done with
  | nil =>
      rw [List.append_nil]
      exact reads_singleton rfl
  | cons member members ih =>
      rw [List.forall_mem_cons] at hmembers
      obtain ⟨hmember, hmembers⟩ := hmembers
      have hrest := ih hmembers (member :: done)
      rw [List.reverse_cons, List.append_assoc] at hrest
      exact .cons rfl (.cons rfl (.cons rfl
        ((hmember false (.object done member.1 :: stack)).append hrest)))

theorem WellFormed.parsed (h : j.WellFormed) : j.Parsed := by
  induction h with
  | scalar => exact fun mayEnd stack => reads_singleton rfl
  | @array items _ ih =>
      intro mayEnd stack
      refine .cons rfl ?_
      cases items with
      | nil => exact reads_singleton rfl
      | cons item items =>
          rw [List.forall_mem_cons] at ih
          exact (ih.1 true (.array [] :: stack)).append (reads_moreItemTokens ih.2 [item] stack)
  | @object members _ ih =>
      intro mayEnd stack
      refine .cons rfl ?_
      cases members with
      | nil => exact reads_singleton rfl
      | cons member members =>
          rw [List.forall_mem_cons] at ih
          exact .cons rfl (.cons rfl ((ih.1 false (.object [] member.1 :: stack)).append
            (reads_moreMemberTokens ih.2 [member] stack)))

/-- **A well-formed value is read from its text.** -/
theorem WellFormed.parse?_text (h : j.WellFormed) : parse? j.text = some j := by
  rw [parse?, text, h.legible.ofText?_eq, Option.bind_some, ofTokens?,
    show j.tokens.foldlM step (.value false []) = some (.done j) from h.parsed false []]
  rfl

end FactHierarchy.Json
