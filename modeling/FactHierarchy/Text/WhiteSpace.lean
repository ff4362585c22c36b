/-!
# White space

The Unicode property White_Space, which has 25 members, and `trim`, which takes its members off
both ends of a string. A string is *blank* when nothing else is in it.
-/

set_option autoImplicit false

namespace FactHierarchy

/-- The Unicode property White_Space. -/
def isWhiteSpace (c : Char) : Bool :=
  let n := c.toNat
  (0x09 ≤ n && n ≤ 0x0D) || n == 0x20 || n == 0x85 || n == 0xA0 || n == 0x1680 ||
    (0x2000 ≤ n && n ≤ 0x200A) || n == 0x2028 || n == 0x2029 || n == 0x202F || n == 0x205F ||
    n == 0x3000

/-- The string without the white space at its two ends. -/
def trim (s : String) : String :=
  String.ofList
    ((s.toList.dropWhile isWhiteSpace).reverse.dropWhile isWhiteSpace).reverse

/-- There is nothing but white space in the string. -/
def isBlank (s : String) : Bool := s.toList.all isWhiteSpace

/-- A string is blank exactly when trimming leaves nothing. -/
theorem trim_eq_empty_iff (s : String) : trim s = "" ↔ isBlank s = true := by
  have h : ∀ l : List Char, (l.dropWhile isWhiteSpace = [] ↔ l.all isWhiteSpace = true) := by
    intro l
    induction l with
    | nil => simp
    | cons c l ih => by_cases hc : isWhiteSpace c <;> simp [hc, ih]
  have hr : ∀ l : List Char, (l.dropWhile isWhiteSpace).reverse.dropWhile isWhiteSpace = [] ↔
      l.dropWhile isWhiteSpace = [] := by
    intro l
    rw [h, List.all_reverse]
    constructor
    · intro hall
      cases hd : l.dropWhile isWhiteSpace with
      | nil => rfl
      | cons c r =>
        have hc : isWhiteSpace c = true := by
          rw [hd] at hall
          simp at hall
          exact hall.1
        have hn := List.head_dropWhile_not isWhiteSpace (l := l) (by simp [hd])
        simp [hd, hc] at hn
    · intro hnil
      simp [hnil]
  rw [isBlank, ← h, ← hr, trim]
  constructor
  · intro he
    have := congrArg String.toList he
    simpa using this
  · intro he
    simp [he]

end FactHierarchy
