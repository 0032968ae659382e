import Mathlib.Data.List.Basic

/-!
# Base64

The standard alphabet with padding, on byte strings. The decoder takes the
text four characters at a time and allows padding only at the end; line
breaks in the text are passed over, and the bits behind the last byte are
not looked at.

What was encoded is decoded to the same bytes (`decode_encode`).
-/

namespace Base64

def char (n : Nat) : UInt8 :=
  if n < 26 then (n + 65).toUInt8
  else if n < 52 then (n + 71).toUInt8
  else if n < 62 then (n - 4).toUInt8
  else if n = 62 then 43
  else 47

def digit (b : UInt8) : Option Nat :=
  if 65 ≤ b ∧ b ≤ 90 then some (b.toNat - 65)
  else if 97 ≤ b ∧ b ≤ 122 then some (b.toNat - 71)
  else if 48 ≤ b ∧ b ≤ 57 then some (b.toNat + 4)
  else if b = 43 then some 62
  else if b = 47 then some 63
  else none

def encode : List UInt8 → List UInt8
  | [] => []
  | [a] =>
      let v := a.toNat * 16
      [char (v / 64), char (v % 64), 61, 61]
  | [a, b] =>
      let v := (a.toNat * 256 + b.toNat) * 4
      [char (v / 4096), char (v / 64 % 64), char (v % 64), 61]
  | a :: b :: c :: rest =>
      let v := (a.toNat * 256 + b.toNat) * 256 + c.toNat
      char (v / 262144) :: char (v / 4096 % 64) :: char (v / 64 % 64)
        :: char (v % 64) :: encode rest

/-- A text without line breaks. -/
def decodeQuanta : List UInt8 → Option (List UInt8)
  | [] => some []
  | a :: b :: c :: d :: rest =>
      (digit a).bind fun a =>
      (digit b).bind fun b =>
      if c = 61 then
        if d = 61 ∧ rest = [] then some [((a * 64 + b) / 16).toUInt8] else none
      else
        (digit c).bind fun c =>
        let v := (a * 64 + b) * 64 + c
        if d = 61 then
          if rest = [] then some [(v / 1024).toUInt8, (v / 4).toUInt8] else none
        else
          (digit d).bind fun d =>
          let v := v * 64 + d
          (decodeQuanta rest).map fun bs =>
            (v / 65536).toUInt8 :: (v / 256).toUInt8 :: v.toUInt8 :: bs
  | _ => none

def decode (text : List UInt8) : Option (List UInt8) :=
  decodeQuanta (text.filter fun b => b ≠ 10 && b ≠ 13)

theorem digit_char {n : Nat} (h : n < 64) : digit (char n) = some n := by
  revert n
  decide

/-- The characters are neither padding nor line breaks, nor anything else
that has a meaning in a text around them. -/
theorem char_plain (n : Nat) : char n ≠ 61 ∧ 43 ≤ char n ∧ char n ≤ 122 ∧ char n ≠ 92 := by
  by_cases h : n < 63
  · revert n
    decide
  · have h26 : ¬ n < 26 := by omega
    have h52 : ¬ n < 52 := by omega
    have h62 : ¬ n < 62 := by omega
    have hne : n ≠ 62 := by omega
    simp only [char, h26, h52, h62, hne, if_false]
    decide

theorem mem_encode {bs : List UInt8} {x : UInt8} (h : x ∈ encode bs) :
    43 ≤ x ∧ x ≤ 122 ∧ x ≠ 92 := by
  have hchar : ∀ {n}, x = char n → 43 ≤ x ∧ x ≤ 122 ∧ x ≠ 92 := by
    rintro n rfl
    exact (char_plain n).2
  have hpad : x = 61 → 43 ≤ x ∧ x ≤ 122 ∧ x ≠ 92 := by
    rintro rfl
    decide
  fun_induction encode bs with
  | case1 => cases h
  | case2 a v =>
      simp only [List.mem_cons, List.not_mem_nil, or_false] at h
      rcases h with h | h | h | h
      · exact hchar h
      · exact hchar h
      · exact hpad h
      · exact hpad h
  | case3 a b v =>
      simp only [List.mem_cons, List.not_mem_nil, or_false] at h
      rcases h with h | h | h | h
      · exact hchar h
      · exact hchar h
      · exact hchar h
      · exact hpad h
  | case4 a b c rest v ih =>
      simp only [List.mem_cons] at h
      rcases h with h | h | h | h | h
      · exact hchar h
      · exact hchar h
      · exact hchar h
      · exact hchar h
      · exact ih h

theorem toUInt8_toNat_of_eq {n : Nat} {b : UInt8} (h : n % 256 = b.toNat) :
    n.toUInt8 = b := by
  rw [← UInt8.toNat_inj]
  simpa using h

theorem decodeQuanta_encode (bs : List UInt8) : decodeQuanta (encode bs) = some bs := by
  fun_induction encode bs with
  | case1 => rfl
  | case2 a v =>
      have ha := a.toNat_lt
      have hv : v = a.toNat * 16 := rfl
      rw [decodeQuanta, digit_char (by omega), digit_char (by omega)]
      simp only [Option.bind_some, if_true, and_self]
      congr 2
      exact toUInt8_toNat_of_eq (by omega)
  | case3 a b v =>
      have ha := a.toNat_lt
      have hb := b.toNat_lt
      have hv : v = (a.toNat * 256 + b.toNat) * 4 := rfl
      rw [decodeQuanta, digit_char (by omega), digit_char (by omega),
        digit_char (by omega), Option.bind_some, Option.bind_some,
        if_neg (char_plain _).1, Option.bind_some]
      simp only [if_true]
      congr 2
      · exact toUInt8_toNat_of_eq (by omega)
      · congr 1
        exact toUInt8_toNat_of_eq (by omega)
  | case4 a b c rest v ih =>
      have ha := a.toNat_lt
      have hb := b.toNat_lt
      have hc := c.toNat_lt
      have hv : v = (a.toNat * 256 + b.toNat) * 256 + c.toNat := rfl
      rw [decodeQuanta, digit_char (by omega), digit_char (by omega),
        digit_char (by omega), digit_char (by omega), Option.bind_some,
        Option.bind_some, if_neg (char_plain _).1, Option.bind_some]
      simp only
      rw [if_neg (char_plain _).1, Option.bind_some, ih, Option.map_some]
      congr 2
      · exact toUInt8_toNat_of_eq (by omega)
      · congr 1
        · exact toUInt8_toNat_of_eq (by omega)
        · congr 1
          exact toUInt8_toNat_of_eq (by omega)

theorem decode_encode (bs : List UInt8) : decode (encode bs) = some bs := by
  have hfilter : (encode bs).filter (fun b => b ≠ 10 && b ≠ 13) = encode bs := by
    refine List.filter_eq_self.mpr fun x hx => ?_
    obtain ⟨hlow, -⟩ := mem_encode hx
    have h10 : x ≠ 10 := by
      rintro rfl
      exact absurd hlow (by decide)
    have h13 : x ≠ 13 := by
      rintro rfl
      exact absurd hlow (by decide)
    simp [h10, h13]
  rw [decode, hfilter, decodeQuanta_encode]

end Base64
