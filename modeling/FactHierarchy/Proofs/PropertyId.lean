import FactHierarchy.Proofs.Digest.Frame
import FactHierarchy.Proofs.Digest.Hash

/-!
# Property-schema nodes that are told apart

The readable part of the IRI of a property-schema node does not tell all names apart: `a b` and
`a/b` both become `a_b`. The digits behind it are those of a hash that covers the exact name and
rule. Hashes may coincide, but not those of names and rules that differ in a single byte
(`propertyNode_ne_of_one_byte`).
-/

set_option autoImplicit false

namespace FactHierarchy

variable {name name' rule rule' : String}

/-! ## The parts of an IRI -/

/-- The characters that can stand in the readable part of an id. -/
def idAlphabet : List Char :=
  "ABCDEFGHIJKLMNOPQRSTUVWXYZabcdefghijklmnopqrstuvwxyz0123456789_-".toList

theorem mem_idAlphabet_of_isIdChar {c : Char} (hc : isIdChar c = true) : c ∈ idAlphabet := by
  have hall : ∀ n < 128, isIdChar (Char.ofNat n) = true → Char.ofNat n ∈ idAlphabet := by
    decide +kernel
  have hascii : c.toNat < 128 := by
    -- upper case, lower case, digits and the two marks
    have hc : (decide (c.val ≥ 'A'.val ∧ c.val ≤ 'Z'.val) ||
      (c.val ≥ 'a'.val && c.val ≤ 'z'.val) || (c.val ≥ '0'.val && c.val ≤ '9'.val) ||
        c == '_' || c == '-') = true := hc
    simp only [Bool.or_eq_true, Bool.and_eq_true, decide_eq_true_eq, beq_iff_eq] at hc
    obtain (((hc | hc) | hc) | rfl) | rfl := hc
    · exact Nat.lt_of_le_of_lt hc.2 (by decide)
    · exact Nat.lt_of_le_of_lt hc.2 (by decide)
    · exact Nat.lt_of_le_of_lt hc.2 (by decide)
    · decide
    · decide
  have hmem := hall c.toNat hascii
  rw [Char.ofNat_toNat] at hmem
  exact hmem hc

/-- **The readable part of an id is never empty.** -/
theorem idText_ne_empty (name : String) : idText name ≠ "" := by
  rw [idText]
  split
  case isTrue => decide
  case isFalse hname =>
    intro h
    have hlist := congrArg String.toList h
    rw [String.toList_ofList] at hlist
    exact hname (String.isEmpty_iff.2 (String.toList_inj.1 (List.map_eq_nil_iff.1 hlist)))

theorem mem_idAlphabet_of_mem_idText {c : Char} (hc : c ∈ (idText name).toList) :
    c ∈ idAlphabet := by
  rw [idText] at hc
  split at hc
  case isTrue =>
    rw [List.mem_singleton.1 hc]
    decide
  case isFalse =>
    rw [String.toList_ofList] at hc
    obtain ⟨d, -, rfl⟩ := List.mem_map.1 hc
    split
    case isTrue hd => exact mem_idAlphabet_of_isIdChar hd
    case isFalse => decide

/-- The IRIs of property-schema nodes in one namespace differ where their hashes do, whatever stands
in front of the digits. -/
theorem propertyNode_ne_of_hash_ne (propertyNamespace : String)
    (h : hashFields (propertyFields name rule) ≠ hashFields (propertyFields name' rule')) :
    propertyNode name rule propertyNamespace ≠ propertyNode name' rule' propertyNamespace := by
  intro heq
  have hlist := congrArg String.toList (Node.iri.inj heq)
  rw [String.toList_append, String.toList_append (s := propertyNamespace ++ idText name' ++ "-")]
    at hlist
  have hlength := (hashText_digits (hashFields (propertyFields name rule))).1.trans
    (hashText_digits (hashFields (propertyFields name' rule'))).1.symm
  exact h (hashText_injective (String.toList_inj.1 (List.append_inj' hlist hlength).2))

/-! ## One byte that differs -/

/-- The frames of two values of the same length differ where the values do. -/
theorem byteDistance_frame (key : String) {value value' : String}
    (hsize : value.utf8ByteSize = value'.utf8ByteSize) :
    (frame (key, value)).length = (frame (key, value')).length ∧
    byteDistance (frame (key, value)) (frame (key, value')) =
      byteDistance (utf8Bytes value) (utf8Bytes value') := by
  have hlength : (utf8Bytes value).length = (utf8Bytes value').length := by
    rw [length_utf8Bytes, length_utf8Bytes, hsize]
  simp only [frame, hsize]
  constructor
  · simp only [List.length_append, List.length_cons, hlength]
  · rw [byteDistance_append rfl, byteDistance_cons, byteDistance_append rfl,
      byteDistance_append hlength]
    simp only [byteDistance_self, if_pos, Nat.zero_add, Nat.add_zero]

/-- The frames of two properties whose names and rules have the same lengths differ where the names
and rules do. -/
theorem byteDistance_framed (hrule : rule.utf8ByteSize = rule'.utf8ByteSize)
    (hname : name.utf8ByteSize = name'.utf8ByteSize) :
    (framed (propertyFields name rule)).length = (framed (propertyFields name' rule')).length ∧
    byteDistance (framed (propertyFields name rule)) (framed (propertyFields name' rule')) =
      byteDistance (utf8Bytes rule) (utf8Bytes rule') +
        byteDistance (utf8Bytes name) (utf8Bytes name') := by
  obtain ⟨hrules, hruleDistance⟩ := byteDistance_frame "rule" hrule
  obtain ⟨hnames, hnameDistance⟩ := byteDistance_frame "name" hname
  simp only [propertyFields, framed, List.flatMap_cons, List.flatMap_nil, List.append_nil]
  constructor
  · rw [List.length_append, List.length_append, hrules, hnames]
  · rw [byteDistance_append hrules, hruleDistance, hnameDistance]

/-- **Names and rules that differ in a single byte have different property-schema nodes**, also
where the readable parts of the IRIs are the same. Each IRI consists of the namespace, a text over
the letters, digits, `_` and `-` of ASCII that is not empty, a `-` and 16 hexadecimal digits. -/
theorem propertyNode_ne_of_one_byte (hrule : rule.utf8ByteSize = rule'.utf8ByteSize)
    (hname : name.utf8ByteSize = name'.utf8ByteSize)
    (hone : byteDistance (utf8Bytes rule) (utf8Bytes rule') +
      byteDistance (utf8Bytes name) (utf8Bytes name') = 1) (propertyNamespace : String) :
    propertyNode name rule propertyNamespace ≠ propertyNode name' rule' propertyNamespace ∧
    ∀ name rule, ∃ text digits,
      propertyNode name rule propertyNamespace =
        .iri (propertyNamespace ++ text ++ "-" ++ digits) ∧
      text ≠ "" ∧ (∀ c ∈ text.toList, c ∈ idAlphabet) ∧
      digits.toList.length = 16 ∧ ∀ c ∈ digits.toList, c ∈ hexAlphabet := by
  constructor
  · obtain ⟨hlength, hdistance⟩ := byteDistance_framed hrule hname
    refine propertyNode_ne_of_hash_ne propertyNamespace ?_
    rw [hashFields_eq_framed, hashFields_eq_framed]
    exact fnvUpdate_ne_of_byteDistance_eq_one hlength (hdistance.trans hone)
  · intro name rule
    obtain ⟨hlength, hdigits⟩ := hashText_digits (hashFields (propertyFields name rule))
    exact ⟨idText name, _, rfl, idText_ne_empty name, fun c => mem_idAlphabet_of_mem_idText,
      hlength, hdigits⟩

/-- The readable part is `a_b` for both names. -/
theorem propertyNode_blank_ne_slash :
    idText "a b" = idText "a/b" ∧
    byteDistance (utf8Bytes "r") (utf8Bytes "r") +
      byteDistance (utf8Bytes "a b") (utf8Bytes "a/b") = 1 ∧
    propertyNode "a b" "r" "urn:plant:property:" ≠
      propertyNode "a/b" "r" "urn:plant:property:" := by
  have hone : byteDistance (utf8Bytes "r") (utf8Bytes "r") +
      byteDistance (utf8Bytes "a b") (utf8Bytes "a/b") = 1 := by decide
  exact ⟨by decide, hone, (propertyNode_ne_of_one_byte (by decide) (by decide) hone _).1⟩

end FactHierarchy
