import FactHierarchy.Proofs.Text.Separator
import FactHierarchy.PropertyId
import Mathlib.Data.Nat.Digits.Defs

/-!
# Fields that are told apart by their frames

A list of fields is hashed piece by piece, but its digest is that of one sequence of bytes: the
*frames* of the fields one after the other (`hashFields_eq_framed`).

Nothing stands for the end of a value but its length, and nothing for the end of a key but the `=`
behind it. So frames can be taken apart again as long as no key has an `=` in it, whatever the
values are (`frame_append_inj`): different lists of such fields are hashed from different bytes
(`framed_fields_told_apart`).
-/

set_option autoImplicit false

namespace FactHierarchy

/-! ## Texts as bytes -/

theorem utf8Bytes_injective : Function.Injective utf8Bytes := by
  intro s t h
  exact String.toByteArray_inj.1 (ByteArray.ext (Array.toList_inj.1 h))

theorem length_utf8Bytes (s : String) : (utf8Bytes s).length = s.utf8ByteSize := by
  rw [← String.size_toByteArray]
  rfl

/-- A text is encoded character by character. -/
theorem utf8Bytes_eq_flatMap (s : String) :
    utf8Bytes s = s.toList.flatMap String.utf8EncodeChar := by
  conv_lhs => rw [← String.ofList_toList (s := s)]
  rw [utf8Bytes, String.toUTF8_eq_toByteArray, String.toByteArray_ofList, List.utf8Encode,
    List.toList_data_toByteArray]

/-- The byte of an ASCII character stands for nothing else: the bytes of all other characters have
their highest bit set. -/
theorem eq_of_mem_utf8EncodeChar {c d : Char} (hc : c.toNat < 128)
    (h : UInt8.ofNat c.toNat ∈ String.utf8EncodeChar d) : c = d := by
  have hbyte : ∀ n : ℕ, UInt8.ofNat c.toNat = UInt8.ofNat n → c.toNat = n % 256 := by
    intro n hn
    have hnat := congrArg UInt8.toNat hn
    rw [UInt8.toNat_ofNat', UInt8.toNat_ofNat'] at hnat
    omega
  rw [String.utf8EncodeChar] at h
  split at h
  case isTrue hd =>
    have hsame := hbyte _ (List.mem_singleton.1 h)
    refine Char.toNat_inj.1 ?_
    rw [Nat.mod_eq_of_lt (by omega)] at hsame
    exact hsame
  case isFalse =>
    exfalso
    -- a character of two, three or four bytes
    split at h
    · simp only [List.mem_cons, List.not_mem_nil, or_false] at h
      obtain h | h := h <;> have := hbyte _ h <;> omega
    · split at h <;> simp only [List.mem_cons, List.not_mem_nil, or_false] at h
      · obtain h | h | h := h <;> have := hbyte _ h <;> omega
      · obtain h | h | h | h := h <;> have := hbyte _ h <;> omega

/-- An ASCII character that is not in a text is not in its bytes. -/
theorem notMem_utf8Bytes {c : Char} {s : String} (hc : c.toNat < 128) (h : c ∉ s.toList) :
    UInt8.ofNat c.toNat ∉ utf8Bytes s := by
  rw [utf8Bytes_eq_flatMap, List.mem_flatMap]
  rintro ⟨d, hd, hbyte⟩
  rw [← eq_of_mem_utf8EncodeChar hc hbyte] at hd
  exact h hd

/-! ## Lengths as bytes -/

theorem length_lengthBytes (n : ℕ) : (lengthBytes n).length = 8 := by
  rw [lengthBytes, List.length_map, List.length_range]

/-- The bytes of a length are its last eight digits to the base 256, the lowest first. -/
theorem ofDigits_lengthBytes (n : ℕ) :
    Nat.ofDigits 256 ((lengthBytes n).map UInt8.toNat) = n % 2 ^ 64 := by
  simp [lengthBytes, List.range_succ, Nat.ofDigits, Nat.shiftRight_eq_div_pow]
  omega

theorem lengthBytes_inj {m n : ℕ} (hm : m < 2 ^ 64) (hn : n < 2 ^ 64)
    (h : lengthBytes m = lengthBytes n) : m = n := by
  have hdigits := ofDigits_lengthBytes m
  rw [h, ofDigits_lengthBytes, Nat.mod_eq_of_lt hm, Nat.mod_eq_of_lt hn] at hdigits
  exact hdigits.symm

/-! ## Frames -/

/-- **The frame of a field**: its key, `=`, the length of its value, its value, and `;`. -/
def frame (field : String × String) : List UInt8 :=
  utf8Bytes field.1 ++ '='.toUInt8 :: (lengthBytes field.2.utf8ByteSize ++
    (utf8Bytes field.2 ++ [';'.toUInt8]))

/-- The frames of a list of fields, one after the other. -/
def framed (fields : List (String × String)) : List UInt8 := fields.flatMap frame

theorem framed_cons (field : String × String) (fields : List (String × String)) :
    framed (field :: fields) = frame field ++ framed fields := List.flatMap_cons

theorem fnvUpdate_append (hash : UInt64) (bytes more : List UInt8) :
    fnvUpdate hash (bytes ++ more) = fnvUpdate (fnvUpdate hash bytes) more := List.foldl_append

theorem hashField_eq (hash : UInt64) (field : String × String) :
    hashField hash field = fnvUpdate hash (frame field) := by
  have hequals : utf8Bytes "=" = ['='.toUInt8] := by decide
  have hsemicolon : utf8Bytes ";" = [';'.toUInt8] := by decide
  rw [hashField, frame, ← List.singleton_append, hequals, hsemicolon, length_utf8Bytes]
  simp only [fnvUpdate_append]

/-- **The hash of a list of fields is the hash of their frames.** -/
theorem hashFields_eq_framed (fields : List (String × String)) :
    hashFields fields = fnv1a64 (framed fields) := by
  have hfold : ∀ hash, fields.foldl hashField hash = fnvUpdate hash (framed fields) := by
    induction fields with
    | nil => exact fun hash => rfl
    | cons field fields ih =>
        intro hash
        rw [List.foldl_cons, ih, hashField_eq, framed_cons, fnvUpdate_append]
  exact hfold fnvOffsetBasis

/-! ## Taking frames apart -/

/-- **The field can be taken out of its frame**: there is no `=` in its key, and the length of its
value fits into eight bytes, as the length of every text in a 64-bit memory does. -/
structure Framable (field : String × String) : Prop where
  key : '=' ∉ field.1.toList
  value : field.2.utf8ByteSize < 2 ^ 64

variable {field field' : String × String} {fields fields' : List (String × String)}

/-- **The first frame of a sequence of bytes is determined**, and so is what follows it. -/
theorem frame_append_inj (hfield : Framable field) (hfield' : Framable field')
    {rest rest' : List UInt8} (h : frame field ++ rest = frame field' ++ rest') :
    field = field' ∧ rest = rest' := by
  simp only [frame, List.append_assoc, List.cons_append] at h
  obtain ⟨hkey, h⟩ := append_separator_inj (notMem_utf8Bytes (by decide) hfield.key)
    (notMem_utf8Bytes (by decide) hfield'.key) h
  obtain ⟨hlength, h⟩ := List.append_inj h (by rw [length_lengthBytes, length_lengthBytes])
  -- the lengths tell where the values end, whatever is in them
  have hsize := lengthBytes_inj hfield.value hfield'.value hlength
  obtain ⟨hvalue, h⟩ := List.append_inj h (by rw [length_utf8Bytes, length_utf8Bytes, hsize])
  exact ⟨Prod.ext (utf8Bytes_injective hkey) (utf8Bytes_injective hvalue), (List.cons.inj h).2⟩

theorem frame_ne_nil (field : String × String) : frame field ≠ [] :=
  List.append_ne_nil_of_right_ne_nil _ (List.cons_ne_nil _ _)

/-- **Different lists of fields have different frames.** -/
theorem framed_inj (hfields : ∀ field ∈ fields, Framable field)
    (hfields' : ∀ field ∈ fields', Framable field) (h : framed fields = framed fields') :
    fields = fields' := by
  induction fields generalizing fields' with
  | nil =>
      cases fields' with
      | nil => rfl
      | cons field' fields' =>
          rw [framed_cons] at h
          exact absurd (List.append_eq_nil_iff.1 h.symm).1 (frame_ne_nil field')
  | cons field fields ih =>
      cases fields' with
      | nil =>
          rw [framed_cons] at h
          exact absurd (List.append_eq_nil_iff.1 h).1 (frame_ne_nil field)
      | cons field' fields' =>
          obtain ⟨hfirst, hothers⟩ := List.forall_mem_cons.1 hfields
          obtain ⟨hfirst', hothers'⟩ := List.forall_mem_cons.1 hfields'
          rw [framed_cons, framed_cons] at h
          obtain ⟨rfl, hrest⟩ := frame_append_inj hfirst hfirst' h
          rw [ih hothers hothers' hrest]

theorem framable_of_mem_propertyFields {name rule : String} (hname : name.utf8ByteSize < 2 ^ 64)
    (hrule : rule.utf8ByteSize < 2 ^ 64) : ∀ field ∈ propertyFields name rule, Framable field := by
  simp only [propertyFields, List.forall_mem_cons]
  have hkeys : '=' ∉ "rule".toList ∧ '=' ∉ "name".toList := by decide
  exact ⟨⟨hkeys.1, hrule⟩, ⟨hkeys.2, hname⟩, fun _ h => absurd h List.not_mem_nil⟩

/-- **Fields are told apart by their frames.** The digest of a list of fields is that of the frames
of the fields, in which each value has its length in front of it, in eight bytes with the lowest
first. Lists of fields without an `=` in their keys have the same frames only if they are the same.
So each pair of a property name and a rule is hashed from bytes of its own. -/
theorem framed_fields_told_apart :
    (∀ fields, digestOfFields fields = digestOfBytes (framed fields)) ∧
    (∀ n < 2 ^ 64, (lengthBytes n).length = 8 ∧
      Nat.ofDigits 256 ((lengthBytes n).map UInt8.toNat) = n) ∧
    (∀ fields fields', (∀ field ∈ fields ++ fields', Framable field) →
      framed fields = framed fields' → fields = fields') ∧
    ∀ name rule propertyNamespace,
      propertyNode name rule propertyNamespace =
        .iri (propertyNamespace ++ idText name ++ "-" ++
          hashText (fnv1a64 (framed (propertyFields name rule)))) ∧
      ∀ name' rule', (∀ text ∈ [name, rule, name', rule'], text.utf8ByteSize < 2 ^ 64) →
        (rule, name) ≠ (rule', name') →
        framed (propertyFields name rule) ≠ framed (propertyFields name' rule') := by
  refine ⟨fun fields => ?_, fun n hn => ⟨length_lengthBytes n, ?_⟩, fun fields fields' h => ?_,
    fun name rule propertyNamespace => ⟨?_, fun name' rule' hsizes hne h => hne ?_⟩⟩
  · rw [digestOfFields, hashFields_eq_framed, digestOfBytes]
  · rw [ofDigits_lengthBytes, Nat.mod_eq_of_lt hn]
  · obtain ⟨hfields, hfields'⟩ := List.forall_mem_append.1 h
    exact framed_inj hfields hfields'
  · rw [propertyNode, hashFields_eq_framed]
  · simp only [List.forall_mem_cons] at hsizes
    obtain ⟨hname, hrule, hname', hrule', -⟩ := hsizes
    have hfields := framed_inj (framable_of_mem_propertyFields hname hrule)
      (framable_of_mem_propertyFields hname' hrule') h
    simpa [propertyFields] using hfields

/-- The value of the first list looks as if it ended where that of the second list ends, with
another field behind it. -/
theorem framed_imitation_told_apart :
    let imitation := [("rule", "a;name=\x01\x00\x00\x00\x00\x00\x00\x00b")]
    let fields := [("rule", "a"), ("name", "b")]
    (∀ field ∈ imitation ++ fields, Framable field) ∧ framed imitation ≠ framed fields ∧
    framed (propertyFields "c" "ab") ≠ framed (propertyFields "bc" "a") := by
  intro imitation fields
  obtain ⟨-, -, htold, hproperty⟩ := framed_fields_told_apart
  have hframable : ∀ field ∈ imitation ++ fields, Framable field := by
    intro field hfield
    have hfits : ∀ field ∈ imitation ++ fields,
        '=' ∉ field.1.toList ∧ field.2.utf8ByteSize < 2 ^ 64 := by decide
    exact ⟨(hfits field hfield).1, (hfits field hfield).2⟩
  refine ⟨hframable, fun h => absurd (htold _ _ hframable h) (by decide), ?_⟩
  exact (hproperty "c" "ab" "").2 "bc" "a" (by decide) (by decide)

end FactHierarchy
