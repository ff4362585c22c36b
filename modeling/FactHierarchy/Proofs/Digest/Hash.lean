import FactHierarchy.Digest
import Mathlib.Data.Nat.Basic
import Mathlib.Tactic.Common

/-!
# Hashes of bytes that differ in one place

Each step of the hash can be undone: its factor is odd, so a product determines the other factor
(`fnvStep_eq_iff`). Hashes that differ stay different whatever bytes follow (`fnvUpdate_inj`), and a
byte that differs makes hashes differ at once. So sequences of bytes that differ in one place have
different hashes (`fnvUpdate_ne_of_byteDistance_eq_one`).

A hash is read back from its 16 digits (`hashText_injective`).
-/

set_option autoImplicit false

namespace FactHierarchy

variable {hash hash' : UInt64} {byte byte' : UInt8} {bytes bytes' : List UInt8}

/-! ## Steps -/

/-- The number by which a multiplication with the factor of a step is undone. -/
def fnvPrimeInverse : UInt64 := 0xce965057aff6957b

theorem mul_fnvPrime_inj : hash * fnvPrime = hash' * fnvPrime ↔ hash = hash' := by
  have hinverse : fnvPrime * fnvPrimeInverse = 1 := by decide
  refine ⟨fun h => ?_, congrArg (· * fnvPrime)⟩
  calc
    hash = hash * fnvPrime * fnvPrimeInverse := by rw [UInt64.mul_assoc, hinverse, UInt64.mul_one]
    _ = hash' * fnvPrime * fnvPrimeInverse := by rw [h]
    _ = hash' := by rw [UInt64.mul_assoc, hinverse, UInt64.mul_one]

theorem fnvStep_eq_iff :
    fnvStep hash byte = fnvStep hash' byte' ↔
      hash ^^^ byte.toUInt64 = hash' ^^^ byte'.toUInt64 := mul_fnvPrime_inj

/-- **The same bytes keep hashes apart.** -/
theorem fnvUpdate_inj : fnvUpdate hash bytes = fnvUpdate hash' bytes ↔ hash = hash' := by
  induction bytes generalizing hash hash' with
  | nil => exact Iff.rfl
  | cons byte bytes ih =>
      show fnvUpdate (fnvStep hash byte) bytes = fnvUpdate (fnvStep hash' byte) bytes ↔ _
      rw [ih, fnvStep_eq_iff, UInt64.xor_left_inj]

/-! ## One byte that differs -/

/-- The number of places in which two sequences of bytes differ. -/
def byteDistance (bytes bytes' : List UInt8) : ℕ :=
  (bytes.zip bytes').countP fun pair => pair.1 ≠ pair.2

theorem byteDistance_cons (byte byte' : UInt8) (bytes bytes' : List UInt8) :
    byteDistance (byte :: bytes) (byte' :: bytes') =
      byteDistance bytes bytes' + if byte = byte' then 0 else 1 := by
  rw [byteDistance, List.zip_cons_cons, List.countP_cons, byteDistance]
  by_cases h : byte = byte' <;> simp [h]

theorem byteDistance_self (bytes : List UInt8) : byteDistance bytes bytes = 0 := by
  induction bytes with
  | nil => rfl
  | cons byte bytes ih => rw [byteDistance_cons, ih, if_pos rfl]

theorem byteDistance_append {more more' : List UInt8} (hlength : bytes.length = bytes'.length) :
    byteDistance (bytes ++ more) (bytes' ++ more') =
      byteDistance bytes bytes' + byteDistance more more' := by
  rw [byteDistance, List.zip_append hlength, List.countP_append, byteDistance, byteDistance]

/-- Sequences of the same length that differ nowhere are equal. -/
theorem eq_of_byteDistance_eq_zero (hlength : bytes.length = bytes'.length)
    (h : byteDistance bytes bytes' = 0) : bytes = bytes' := by
  induction bytes generalizing bytes' with
  | nil => exact (List.length_eq_zero_iff.1 hlength.symm).symm
  | cons byte bytes ih =>
      obtain ⟨byte', bytes', rfl⟩ := List.exists_cons_of_length_eq_add_one hlength.symm
      rw [byteDistance_cons] at h
      have hbyte : byte = byte' := by
        by_contra hne
        rw [if_neg hne] at h
        exact absurd h (Nat.succ_ne_zero _)
      rw [hbyte, ih (Nat.succ.inj hlength) (Nat.eq_zero_of_add_eq_zero_right h)]

/-- **Sequences of bytes that differ in one place have different hashes**, whatever was hashed
before. -/
theorem fnvUpdate_ne_of_byteDistance_eq_one (hlength : bytes.length = bytes'.length)
    (h : byteDistance bytes bytes' = 1) : fnvUpdate hash bytes ≠ fnvUpdate hash bytes' := by
  induction bytes generalizing bytes' hash with
  | nil =>
      rw [byteDistance, List.zip_nil_left] at h
      cases h
  | cons byte bytes ih =>
      obtain ⟨byte', bytes', rfl⟩ := List.exists_cons_of_length_eq_add_one hlength.symm
      have hrest : bytes.length = bytes'.length := Nat.succ.inj hlength
      rw [byteDistance_cons] at h
      by_cases hbyte : byte = byte'
      · subst hbyte
        rw [if_pos rfl] at h
        exact ih hrest h
      · -- the same bytes follow, so the hashes stay as different as they have become
        rw [if_neg hbyte] at h
        obtain rfl := eq_of_byteDistance_eq_zero hrest (Nat.succ.inj h)
        show fnvUpdate (fnvStep hash byte) bytes ≠ fnvUpdate (fnvStep hash byte') bytes
        rw [Ne, fnvUpdate_inj, fnvStep_eq_iff, UInt64.xor_right_inj, UInt8.toUInt64_inj]
        exact hbyte

/-! ## The digits of a hash -/

/-- The digits to the base 16, in the order of their values. -/
def hexAlphabet : List Char := "0123456789abcdef".toList

/-- The number that digits to the base 16 stand for. -/
def hexNumber (digits : List Char) : ℕ := digits.foldl (fun n c => 16 * n + hexAlphabet.idxOf c) 0

theorem mem_hexAlphabet_digitChar :
    ∀ n < 16, Nat.digitChar n ∈ hexAlphabet ∧ hexAlphabet.idxOf (Nat.digitChar n) = n := by
  decide

/-- The digits of a number stand for it and are in lower case. -/
theorem hexNumber_toDigits (n : ℕ) :
    hexNumber (Nat.toDigits 16 n) = n ∧ ∀ c ∈ Nat.toDigits 16 n, c ∈ hexAlphabet := by
  induction n using Nat.strongRecOn with
  | ind n ih =>
      rw [Nat.toDigits_eq_if (by decide)]
      split
      case isTrue hn =>
        obtain ⟨hmem, hindex⟩ := mem_hexAlphabet_digitChar n hn
        exact ⟨by simp [hexNumber, hindex], by simpa using hmem⟩
      case isFalse hn =>
        obtain ⟨hvalue, hdigits⟩ := ih (n / 16) (by omega)
        obtain ⟨hmem, hindex⟩ := mem_hexAlphabet_digitChar (n % 16) (Nat.mod_lt n (by decide))
        constructor
        · rw [hexNumber, List.foldl_append]
          show 16 * hexNumber (Nat.toDigits 16 (n / 16)) + hexAlphabet.idxOf (n % 16).digitChar = n
          rw [hvalue, hindex]
          exact Nat.div_add_mod n 16
        · intro c hc
          rcases List.mem_append.1 hc with hc | hc
          · exact hdigits c hc
          · rwa [List.mem_singleton.1 hc]

theorem hexNumber_hexDigits (width n : ℕ) : hexNumber (hexDigits width n) = n := by
  have hzeros : ∀ k, hexNumber (List.replicate k '0') = 0 := by
    intro k
    induction k with
    | zero => rfl
    | succ k ih =>
        rw [List.replicate_succ', hexNumber, List.foldl_append]
        show 16 * hexNumber (List.replicate k '0') + hexAlphabet.idxOf '0' = 0
        rw [ih]
        decide
  rw [hexDigits, hexNumber, List.foldl_append]
  show List.foldl _ (hexNumber (List.replicate _ '0')) _ = n
  rw [hzeros]
  exact (hexNumber_toDigits n).1

theorem mem_hexAlphabet_of_mem_hexDigits {width n : ℕ} {c : Char} (hc : c ∈ hexDigits width n) :
    c ∈ hexAlphabet := by
  rw [hexDigits] at hc
  rcases List.mem_append.1 hc with hc | hc
  · rw [List.eq_of_mem_replicate hc]
    decide
  · exact (hexNumber_toDigits n).2 c hc

theorem length_hexDigits (hash : UInt64) : (hexDigits 16 hash.toNat).length = 16 := by
  have hle : (Nat.toDigits 16 hash.toNat).length ≤ 16 :=
    (Nat.length_toDigits_le_iff (by decide) (by decide)).2 hash.toNat_lt
  rw [hexDigits, List.length_append, List.length_replicate]
  exact Nat.sub_add_cancel hle

/-- **A hash is written with 16 digits in lower case.** -/
theorem hashText_digits (hash : UInt64) :
    (hashText hash).toList.length = 16 ∧ ∀ c ∈ (hashText hash).toList, c ∈ hexAlphabet := by
  rw [hashText, String.toList_ofList]
  exact ⟨length_hexDigits hash, fun c => mem_hexAlphabet_of_mem_hexDigits⟩

/-- **No two hashes have the same digits.** -/
theorem hashText_injective : Function.Injective hashText := by
  intro hash hash' h
  have hvalue := congrArg hexNumber (String.ofList_injective h)
  rw [hexNumber_hexDigits, hexNumber_hexDigits] at hvalue
  exact UInt64.toNat_inj.1 hvalue

end FactHierarchy
