/-!
# Digests

The 64-bit FNV-1a hash of a sequence of bytes, written with 16 hexadecimal digits after the name
of the algorithm. A list of named fields is hashed field by field: the key, `=`, the length of the
value in eight bytes with the lowest first, the value, and `;`.
-/

set_option autoImplicit false

namespace FactHierarchy

/-- The bytes of a string in UTF-8. -/
def utf8Bytes (s : String) : List UInt8 := s.toUTF8.data.toList

/-! ## The hash -/

/-- The hash of no bytes. -/
def fnvOffsetBasis : UInt64 := 0xcbf29ce484222325

/-- The factor of each step. -/
def fnvPrime : UInt64 := 0x00000100000001b3

/-- The hash after one more byte. -/
def fnvStep (hash : UInt64) (byte : UInt8) : UInt64 := (hash ^^^ byte.toUInt64) * fnvPrime

/-- Continue a hash with more bytes. -/
def fnvUpdate (hash : UInt64) (bytes : List UInt8) : UInt64 := bytes.foldl fnvStep hash

/-- The hash of a sequence of bytes. -/
def fnv1a64 (bytes : List UInt8) : UInt64 := fnvUpdate fnvOffsetBasis bytes

/-! ## The text of a digest -/

/-- The digits of a number to the base 16 in lower case, with zeros in front up to the width. -/
def hexDigits (width n : Nat) : List Char :=
  let digits := Nat.toDigits 16 n
  List.replicate (width - digits.length) '0' ++ digits

/-- The 16 hexadecimal digits of a hash. -/
def hashText (hash : UInt64) : String := String.ofList (hexDigits 16 hash.toNat)

/-- The name of the algorithm, in front of the digits of a digest. -/
def digestLabel : String := "fnv1a64:"

/-- The digest of a sequence of bytes. -/
def digestOfBytes (bytes : List UInt8) : String := digestLabel ++ hashText (fnv1a64 bytes)

/-! ## Fields -/

/-- The eight bytes of a length, lowest first. -/
def lengthBytes (n : Nat) : List UInt8 :=
  (List.range 8).map fun i => (n >>> (8 * i)).toUInt8

/-- The hash after one more field. Its pieces are hashed one after the other. -/
def hashField (hash : UInt64) (field : String × String) : UInt64 :=
  let value := utf8Bytes field.2
  let hash := fnvUpdate hash (utf8Bytes field.1)
  let hash := fnvUpdate hash (utf8Bytes "=")
  let hash := fnvUpdate hash (lengthBytes value.length)
  let hash := fnvUpdate hash value
  fnvUpdate hash (utf8Bytes ";")

/-- The hash of a list of fields. -/
def hashFields (fields : List (String × String)) : UInt64 := fields.foldl hashField fnvOffsetBasis

/-- The digest of a list of fields. -/
def digestOfFields (fields : List (String × String)) : String :=
  digestLabel ++ hashText (hashFields fields)

end FactHierarchy
