import Mathlib.Data.List.Basic

/-!
# Byte strings read as UTF-8

Any byte string is read from left to right as a sequence of characters and
of single bytes that begin no character (`runes`). Writing the characters
back, with U+FFFD for each stray byte, makes it valid (`toValid`); a string
is valid when that changes nothing (`toValid_eq_self`).

`runes_cases` is the induction that follows the reading. The decoding of
one character is that of the core library.
-/

namespace Utf8

/-- The bytes of one character. -/
abbrev encode (c : Char) : List UInt8 := String.utf8EncodeChar c

/-- The character the string begins with, if it begins with one. No
character is longer than four bytes. -/
def decodeRune (bs : List UInt8) : Option Char :=
  ByteArray.utf8DecodeChar? (bs.take 4).toByteArray 0

theorem encode_length_le (c : Char) : (encode c).length ≤ 4 := by
  rw [encode, String.length_utf8EncodeChar]
  exact c.utf8Size_le_four

theorem encode_ne_nil (c : Char) : encode c ≠ [] := String.utf8EncodeChar_ne_nil

theorem decodeRune_encode (c : Char) (bs : List UInt8) :
    decodeRune (encode c ++ bs) = some c := by
  rw [decodeRune, List.take_append, List.take_of_length_le (encode_length_le c),
    List.toByteArray_append]
  exact ByteArray.utf8DecodeChar?_utf8EncodeChar_append

theorem decodeRune_some {bs : List UInt8} {c : Char} (h : decodeRune bs = some c) :
    ∃ rest, bs = encode c ++ rest := by
  obtain ⟨l, hl⟩ := ByteArray.exists_of_utf8DecodeChar?_eq_some h
  have htake : bs.take 4 = encode c ++ l.data.toList := by
    simpa using congrArg (fun a => a.data.toList) hl
  exact ⟨l.data.toList ++ bs.drop 4, by
    rw [← List.append_assoc, ← htake, List.take_append_drop]⟩

/-! ## Reading a string -/

/-- Read on, after `skip` bytes that belong to the character before. -/
def runesFrom : (skip : Nat) → List UInt8 → List (Option Char)
  | _, [] => []
  | skip + 1, _ :: bs => runesFrom skip bs
  | 0, b :: bs =>
      match decodeRune (b :: bs) with
      | some c => some c :: runesFrom ((encode c).length - 1) bs
      | none => none :: runesFrom 0 bs

def runes (bs : List UInt8) : List (Option Char) := runesFrom 0 bs

theorem runesFrom_drop (skip : Nat) (bs : List UInt8) :
    runesFrom skip bs = runes (bs.drop skip) := by
  induction bs generalizing skip with
  | nil => cases skip <;> rfl
  | cons b bs ih =>
      cases skip with
      | zero => rfl
      | succ skip => exact ih skip

theorem runes_encode (c : Char) (bs : List UInt8) :
    runes (encode c ++ bs) = some c :: runes bs := by
  have hdecode := decodeRune_encode c bs
  cases hc : encode c with
  | nil => exact absurd hc (encode_ne_nil c)
  | cons b rest =>
      rw [hc] at hdecode
      show runesFrom 0 (b :: (rest ++ bs)) = _
      rw [runesFrom, show decodeRune (b :: (rest ++ bs)) = some c from hdecode]
      dsimp only
      rw [runesFrom_drop, hc, List.length_cons, Nat.add_sub_cancel, List.drop_left]

theorem runes_stray {b : UInt8} {bs : List UInt8} (h : decodeRune (b :: bs) = none) :
    runes (b :: bs) = none :: runes bs := by
  rw [runes, runesFrom, h]
  rfl

/-- What stands at the front: nothing, a character, or a stray byte. -/
theorem runes_cases {P : List UInt8 → Prop} (nil : P [])
    (char : ∀ c bs, P bs → P (encode c ++ bs))
    (stray : ∀ b bs, decodeRune (b :: bs) = none → P bs → P (b :: bs))
    (bs : List UInt8) : P bs := by
  induction hn : bs.length using Nat.strongRecOn generalizing bs with
  | ind n ih =>
      subst hn
      cases bs with
      | nil => exact nil
      | cons b bs =>
          cases hdecode : decodeRune (b :: bs) with
          | none => exact stray b bs hdecode (ih _ (by simp) bs rfl)
          | some c =>
              obtain ⟨rest, hrest⟩ := decodeRune_some hdecode
              have hpos := List.length_pos_of_ne_nil (encode_ne_nil c)
              rw [hrest]
              refine char c rest (ih _ ?_ rest rfl)
              rw [hrest, List.length_append]
              omega

/-! ## Making a string valid -/

/-- Some characters, written out. -/
def Valid (bs : List UInt8) : Prop := ∃ cs : List Char, bs = cs.flatMap encode

/-- U+FFFD. -/
def replacement : Char := Char.ofNat 0xFFFD

def toValid (bs : List UInt8) : List UInt8 :=
  (runes bs).flatMap fun r => encode (r.getD replacement)

theorem toValid_encode (c : Char) (bs : List UInt8) :
    toValid (encode c ++ bs) = encode c ++ toValid bs := by
  rw [toValid, runes_encode]
  rfl

theorem valid_toValid (bs : List UInt8) : Valid (toValid bs) :=
  ⟨(runes bs).map fun r => r.getD replacement, by rw [List.flatMap_map]; rfl⟩

theorem toValid_ne_nil {bs : List UInt8} (h : bs ≠ []) : toValid bs ≠ [] := by
  cases bs with
  | nil => exact absurd rfl h
  | cons b bs =>
      rw [toValid, runes, runesFrom]
      split <;> simp

theorem toValid_of_valid {bs : List UInt8} (h : Valid bs) : toValid bs = bs := by
  obtain ⟨cs, rfl⟩ := h
  induction cs with
  | nil => rfl
  | cons c cs ih => rw [List.flatMap_cons, toValid_encode, ih]

theorem toValid_eq_self {bs : List UInt8} : toValid bs = bs ↔ Valid bs :=
  ⟨fun h => h ▸ valid_toValid bs, toValid_of_valid⟩

instance (bs : List UInt8) : Decidable (Valid bs) :=
  decidable_of_iff _ toValid_eq_self

end Utf8
