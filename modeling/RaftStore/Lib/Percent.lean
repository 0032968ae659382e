import Mathlib.Data.List.Basic

/-!
# Percent coding

Byte strings in which some bytes are written `%XX`. Which ones, is a
parameter: `escape` writes those for which it holds and leaves the others.
If `%` itself is among them, `unescape` brings the string back
(`unescape_escape`). A string that has a `%` never decodes to itself
(`unescape_eq_self`).
-/

namespace Percent

/-! ## Hexadecimal digits -/

def unhex (c : UInt8) : Option UInt8 :=
  if 48 ≤ c ∧ c ≤ 57 then some (c - 48)
  else if 97 ≤ c ∧ c ≤ 102 then some (c - 87)
  else if 65 ≤ c ∧ c ≤ 70 then some (c - 55)
  else none

def upperHex (n : UInt8) : UInt8 := if n < 10 then 48 + n else 55 + n

/-- A statement about bytes may be checked on the 256 numbers. -/
theorem forall_byte {P : UInt8 → Prop} (h : ∀ n : Fin 256, P (UInt8.ofFin n))
    (c : UInt8) : P c :=
  h c.toFin

theorem unhex_high (c : UInt8) : unhex (upperHex (c >>> 4)) = some (c >>> 4) :=
  forall_byte (P := fun c => unhex (upperHex (c >>> 4)) = some (c >>> 4))
    (by decide +kernel) c

theorem unhex_low (c : UInt8) : unhex (upperHex (c &&& 15)) = some (c &&& 15) :=
  forall_byte (P := fun c => unhex (upperHex (c &&& 15)) = some (c &&& 15))
    (by decide +kernel) c

theorem high_low (c : UInt8) : (c >>> 4) <<< 4 ||| (c &&& 15) = c :=
  forall_byte (P := fun c => (c >>> 4) <<< 4 ||| (c &&& 15) = c)
    (by decide +kernel) c

/-! ## Strings -/

/-- The bytes chosen by `should` as `%XX`. -/
def escape (should : UInt8 → Bool) : List UInt8 → List UInt8
  | [] => []
  | c :: rest =>
      if should c then
        37 :: upperHex (c >>> 4) :: upperHex (c &&& 15) :: escape should rest
      else c :: escape should rest

/-- Read `%XX` back; a `%` without two digits behind it is an error. -/
def unescape : List UInt8 → Option (List UInt8)
  | [] => some []
  | c :: rest =>
      if c = 37 then
        match rest with
        | a :: b :: rest =>
            match unhex a, unhex b with
            | some x, some y => (unescape rest).map ((x <<< 4 ||| y) :: ·)
            | _, _ => none
        | _ => none
      else (unescape rest).map (c :: ·)

variable {should : UInt8 → Bool} {bs cs : List UInt8}

theorem unescape_cons {c : UInt8} (h : c ≠ 37) :
    unescape (c :: bs) = (unescape bs).map (c :: ·) := by
  rw [unescape.eq_def]
  exact if_neg h

theorem unescape_percent {a b x y : UInt8} (hx : unhex a = some x)
    (hy : unhex b = some y) :
    unescape (37 :: a :: b :: bs) = (unescape bs).map ((x <<< 4 ||| y) :: ·) := by
  rw [unescape, if_pos rfl, hx, hy]

theorem unescape_escape (h : should 37 = true) (bs : List UInt8) :
    unescape (escape should bs) = some bs := by
  induction bs with
  | nil => rfl
  | cons c bs ih =>
      rw [escape]
      split
      · rw [unescape_percent (unhex_high c) (unhex_low c), ih, high_low]
        rfl
      · rename_i hc
        have hne : c ≠ 37 := by
          rintro rfl
          exact hc h
        rw [unescape_cons hne, ih]
        rfl

theorem unescape_self (h : 37 ∉ bs) : unescape bs = some bs := by
  induction bs with
  | nil => rfl
  | cons c bs ih =>
      rw [List.mem_cons, not_or] at h
      rw [unescape_cons (Ne.symm h.1), ih h.2]
      rfl

/-- Decoding a prefix that has no `%` leaves it. -/
theorem unescape_append (h : 37 ∉ bs) :
    unescape (bs ++ cs) = (unescape cs).map (bs ++ ·) := by
  induction bs with
  | nil => exact (congrFun Option.map_id _).symm
  | cons c bs ih =>
      rw [List.mem_cons, not_or] at h
      rw [List.cons_append, unescape_cons (Ne.symm h.1), ih h.2, Option.map_map]
      rfl

theorem unescape_length (h : unescape bs = some cs) :
    cs.length ≤ bs.length ∧ (37 ∈ bs → cs.length < bs.length) := by
  fun_induction unescape bs generalizing cs with
  | case1 =>
      cases h
      simp
  | case2 a b rest x y hy hx ih =>
      obtain ⟨ds, hds, rfl⟩ := Option.map_eq_some_iff.mp h
      have hle := (ih hds).1
      simp only [List.length_cons]
      omega
  | case3 => cases h
  | case4 => cases h
  | case5 c rest hc ih =>
      obtain ⟨ds, hds, rfl⟩ := Option.map_eq_some_iff.mp h
      obtain ⟨hle, hlt⟩ := ih hds
      simp only [List.length_cons]
      refine ⟨by omega, ?_⟩
      intro hmem
      rcases List.mem_cons.mp hmem with heq | hmem
      · exact absurd heq.symm hc
      · have := hlt hmem
        omega

theorem unescape_eq_self (h : unescape bs = some bs) : 37 ∉ bs := by
  intro hmem
  exact Nat.lt_irrefl _ ((unescape_length h).2 hmem)

theorem escape_append (bs cs : List UInt8) :
    escape should (bs ++ cs) = escape should bs ++ escape should cs := by
  induction bs with
  | nil => rfl
  | cons c bs ih =>
      rw [List.cons_append, escape, escape]
      split <;> rw [ih] <;> rfl

/-- What stands in an escaped string. -/
theorem mem_escape {c : UInt8} (h : c ∈ escape should bs) :
    c = 37 ∨ (unhex c).isSome = true ∨ c ∈ bs ∧ should c = false := by
  induction bs with
  | nil => cases h
  | cons b bs ih =>
      have hrest : c ∈ escape should bs →
          c = 37 ∨ (unhex c).isSome = true ∨ c ∈ b :: bs ∧ should c = false := by
        intro hmem
        exact (ih hmem).imp_right (Or.imp_right
          (And.imp_left (List.mem_cons_of_mem _)))
      rw [escape] at h
      split at h
      · rcases List.mem_cons.mp h with rfl | h
        · exact .inl rfl
        · rcases List.mem_cons.mp h with rfl | h
          · exact .inr (.inl (by rw [unhex_high]; rfl))
          · rcases List.mem_cons.mp h with rfl | h
            · exact .inr (.inl (by rw [unhex_low]; rfl))
            · exact hrest h
      · rename_i hb
        rcases List.mem_cons.mp h with rfl | h
        · exact .inr (.inr ⟨List.mem_cons_self, eq_false_of_ne_true hb⟩)
        · exact hrest h

end Percent
