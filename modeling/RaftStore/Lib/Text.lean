import Mathlib.Algebra.Group.Nat.Defs
import RaftStore.Lib.Utf8

/-!
# Fields of a text

The usual way of reading a list out of a text: split it at a separator,
take the white space off both ends of every piece, and leave out the
pieces of which nothing remains (`fields`). The text is a byte string that
need not be valid UTF-8, so white space is a set of byte strings, the
encodings of the characters that count as such.

Taking white space off is stripping units off a list. `strip_spec` says
for any set of units what that leaves; what is known about `trimSpace` is
that for the white space of Unicode: `trimSpace_split` (only white space
goes), `trimmed_trimSpace` (none is left at the ends) and
`trimSpace_eq_nil` (nothing is left of a blank text only).
-/

namespace Text

/-! ## Stripping units off a list -/

section Strip

variable {α : Type} [DecidableEq α] {units : List (List α)}

/-- Go on, after `skip` elements that belong to the unit before. -/
def stripFrom (units : List (List α)) : (skip : Nat) → List α → List α
  | _, [] => []
  | skip + 1, _ :: xs => stripFrom units skip xs
  | 0, x :: xs =>
      match units.find? fun u => u.isPrefixOf (x :: xs) with
      | some u => stripFrom units (u.length - 1) xs
      | none => x :: xs

/-- Take units off the front as long as there is one. -/
def strip (units : List (List α)) (xs : List α) : List α := stripFrom units 0 xs

theorem stripFrom_drop (skip : Nat) (xs : List α) :
    stripFrom units skip xs = strip units (xs.drop skip) := by
  induction xs generalizing skip with
  | nil => cases skip <;> rfl
  | cons x xs ih =>
      cases skip with
      | zero => rfl
      | succ skip => exact ih skip

/-- There is no unit at the front. -/
def Stripped (units : List (List α)) (xs : List α) : Prop := ∀ u ∈ units, ¬ u <+: xs

/-- What stands at the front: no unit, or one that goes. -/
theorem strip_front (hne : [] ∉ units) (xs : List α) :
    (Stripped units xs ∧ strip units xs = xs)
      ∨ ∃ u ∈ units, ∃ ys, xs = u ++ ys ∧ strip units xs = strip units ys := by
  cases xs with
  | nil =>
      refine .inl ⟨?_, rfl⟩
      intro u hu hpre
      exact hne (List.prefix_nil.mp hpre ▸ hu)
  | cons x xs =>
      cases hfind : units.find? fun u => u.isPrefixOf (x :: xs) with
      | none =>
          refine .inl ⟨?_, ?_⟩
          · intro u hu hpre
            exact List.find?_eq_none.mp hfind u hu (List.isPrefixOf_iff_prefix.mpr hpre)
          · rw [strip, stripFrom, hfind]
      | some u =>
          have hu := List.mem_of_find?_eq_some hfind
          have hpre := List.find?_some hfind
          obtain ⟨ys, hys⟩ := List.isPrefixOf_iff_prefix.mp hpre
          refine .inr ⟨u, hu, ys, hys.symm, ?_⟩
          rw [strip, stripFrom, hfind]
          dsimp only
          cases u with
          | nil => exact absurd hu hne
          | cons y u =>
              obtain ⟨-, rfl⟩ := List.cons.inj hys
              rw [stripFrom_drop, List.length_cons, Nat.add_sub_cancel]
              exact congrArg (strip units) List.drop_left

/-- Units go, and at what is left there is none. -/
theorem strip_spec (hne : [] ∉ units) (xs : List α) :
    Stripped units (strip units xs)
      ∧ ∃ us : List (List α), (∀ u ∈ us, u ∈ units) ∧ xs = us.flatten ++ strip units xs := by
  induction hn : xs.length using Nat.strongRecOn generalizing xs with
  | ind n ih =>
      subst hn
      rcases strip_front hne xs with ⟨hstripped, heq⟩ | ⟨u, hu, ys, rfl, heq⟩
      · rw [heq]
        exact ⟨hstripped, [], List.forall_mem_nil _, rfl⟩
      · have hpos : 0 < u.length := List.length_pos_of_ne_nil fun h => hne (h ▸ hu)
        have hlt : ys.length < (u ++ ys).length := by
          rw [List.length_append]
          omega
        obtain ⟨hstripped, us, hus, hys⟩ := ih _ hlt ys rfl
        rw [heq]
        refine ⟨hstripped, u :: us, List.forall_mem_cons.mpr ⟨hu, hus⟩, ?_⟩
        rw [List.flatten_cons, List.append_assoc, ← hys]

/-- A unit at the front is the only one there. -/
def PrefixFree (units : List (List α)) : Prop := ∀ u ∈ units, ∀ v ∈ units, u <+: v → u = v

theorem strip_flatten (hne : [] ∉ units) (hfree : PrefixFree units) {us : List (List α)}
    (hus : ∀ u ∈ us, u ∈ units) : strip units us.flatten = [] := by
  induction us with
  | nil => rfl
  | cons v us ih =>
      obtain ⟨hv, hrest⟩ := List.forall_mem_cons.mp hus
      have hpre : v <+: v ++ us.flatten := List.prefix_append ..
      rw [List.flatten_cons]
      rcases strip_front hne (v ++ us.flatten) with ⟨hstripped, -⟩ | ⟨u, hu, ys, hys, heq⟩
      · exact absurd hpre (hstripped v hv)
      · -- the unit that goes is `v`: one of the two is a prefix of the other
        have hu' : u <+: v ++ us.flatten := ⟨ys, hys.symm⟩
        have huv : u = v := by
          rcases List.prefix_or_prefix_of_prefix hu' hpre with h | h
          · exact hfree u hu v hv h
          · exact (hfree v hv u hu h).symm
        subst huv
        rw [heq, ← List.append_cancel_left hys]
        exact ih hrest

end Strip

/-! ## White space -/

/-- The characters with the property White_Space. -/
def spaceCodes : List Nat :=
  [0x09, 0x0A, 0x0B, 0x0C, 0x0D, 0x20, 0x85, 0xA0, 0x1680, 0x2000, 0x2001, 0x2002, 0x2003,
    0x2004, 0x2005, 0x2006, 0x2007, 0x2008, 0x2009, 0x200A, 0x2028, 0x2029, 0x202F, 0x205F,
    0x3000]

def spaces : List (List UInt8) := spaceCodes.map fun n => Utf8.encode (Char.ofNat n)

theorem nil_not_mem_spaces : [] ∉ spaces := by
  intro h
  obtain ⟨n, -, hn⟩ := List.mem_map.mp h
  exact Utf8.encode_ne_nil _ hn

theorem nil_not_mem_reversed : [] ∉ spaces.map List.reverse := by
  intro h
  obtain ⟨u, hu, hnil⟩ := List.mem_map.mp h
  exact nil_not_mem_spaces (List.reverse_eq_nil_iff.mp hnil ▸ hu)

theorem prefixFree_spaces : PrefixFree spaces := by
  intro u hu v hv ⟨rest, hrest⟩
  obtain ⟨n, -, rfl⟩ := List.mem_map.mp hu
  obtain ⟨m, -, rfl⟩ := List.mem_map.mp hv
  have hchar := Utf8.decodeRune_encode (Char.ofNat n) rest
  have hchar' := Utf8.decodeRune_encode (Char.ofNat m) []
  rw [hrest] at hchar
  rw [List.append_nil] at hchar'
  exact congrArg Utf8.encode (Option.some.inj (hchar.symm.trans hchar'))

/-- White space only. -/
def Blank (s : List UInt8) : Prop :=
  ∃ us : List (List UInt8), (∀ u ∈ us, u ∈ spaces) ∧ s = us.flatten

/-- No white space at either end. -/
def Trimmed (s : List UInt8) : Prop := ∀ u ∈ spaces, ¬ u <+: s ∧ ¬ u <:+ s

def trimLeft (s : List UInt8) : List UInt8 := strip spaces s

def trimRight (s : List UInt8) : List UInt8 :=
  (strip (spaces.map List.reverse) s.reverse).reverse

def trimSpace (s : List UInt8) : List UInt8 := trimRight (trimLeft s)

theorem Blank.append {s t : List UInt8} (hs : Blank s) (ht : Blank t) : Blank (s ++ t) := by
  obtain ⟨us, hus, rfl⟩ := hs
  obtain ⟨vs, hvs, rfl⟩ := ht
  exact ⟨us ++ vs, List.forall_mem_append.mpr ⟨hus, hvs⟩, List.flatten_append.symm⟩

theorem trimLeft_split (s : List UInt8) : ∃ l, Blank l ∧ s = l ++ trimLeft s := by
  obtain ⟨-, us, hus, hs⟩ := strip_spec nil_not_mem_spaces s
  exact ⟨us.flatten, ⟨us, hus, rfl⟩, hs⟩

theorem trimRight_split (s : List UInt8) : ∃ r, Blank r ∧ s = trimRight s ++ r := by
  obtain ⟨-, us, hus, hs⟩ := strip_spec nil_not_mem_reversed s.reverse
  refine ⟨us.flatten.reverse, ⟨(us.map List.reverse).reverse, ?_, List.reverse_flatten⟩, ?_⟩
  · intro u hu
    obtain ⟨v, hv, rfl⟩ := List.mem_map.mp (List.mem_reverse.mp hu)
    obtain ⟨w, hw, rfl⟩ := List.mem_map.mp (hus v hv)
    rwa [List.reverse_reverse]
  · have hrev := congrArg List.reverse hs
    rwa [List.reverse_reverse, List.reverse_append] at hrev

/-- Only white space goes. -/
theorem trimSpace_split (s : List UInt8) :
    ∃ l r, Blank l ∧ Blank r ∧ s = l ++ trimSpace s ++ r := by
  obtain ⟨l, hl, hs⟩ := trimLeft_split s
  obtain ⟨r, hr, ht⟩ := trimRight_split (trimLeft s)
  refine ⟨l, r, hl, hr, ?_⟩
  rw [List.append_assoc, trimSpace, ← ht]
  exact hs

theorem trimmed_trimSpace (s : List UInt8) : Trimmed (trimSpace s) := by
  intro u hu
  constructor
  · -- it would stand at the front of what is trimmed on the right
    intro hpre
    obtain ⟨r, -, ht⟩ := trimRight_split (trimLeft s)
    have hfront : trimSpace s <+: trimLeft s := ⟨r, ht.symm⟩
    exact (strip_spec nil_not_mem_spaces s).1 u hu (hpre.trans hfront)
  · intro hsuf
    have hrev : u.reverse <+: (trimSpace s).reverse := List.reverse_prefix.mpr hsuf
    rw [trimSpace, trimRight, List.reverse_reverse] at hrev
    exact (strip_spec nil_not_mem_reversed _).1 _ (List.mem_map_of_mem hu) hrev

theorem trimSpace_eq_nil {s : List UInt8} : trimSpace s = [] ↔ Blank s := by
  constructor
  · intro h
    obtain ⟨l, r, hl, hr, hs⟩ := trimSpace_split s
    rw [h, List.append_nil] at hs
    exact hs ▸ hl.append hr
  · rintro ⟨us, hus, rfl⟩
    rw [trimSpace, trimLeft, strip_flatten nil_not_mem_spaces prefixFree_spaces hus]
    rfl

instance (s : List UInt8) : Decidable (Blank s) := decidable_of_iff _ trimSpace_eq_nil

/-! ## Fields -/

/-- The pieces that are not blank, trimmed and in their order. -/
def trimAll (pieces : List (List UInt8)) : List (List UInt8) :=
  (pieces.filter fun piece => ¬ Blank piece).map trimSpace

theorem trimAll_cons_blank {piece : List UInt8} (h : trimSpace piece = [])
    (pieces : List (List UInt8)) : trimAll (piece :: pieces) = trimAll pieces := by
  have hblank := trimSpace_eq_nil.mp h
  rw [trimAll, List.filter_cons_of_neg (by simpa using hblank)]
  rfl

theorem trimAll_cons {piece : List UInt8} (h : trimSpace piece ≠ [])
    (pieces : List (List UInt8)) :
    trimAll (piece :: pieces) = trimSpace piece :: trimAll pieces := by
  have hblank := mt trimSpace_eq_nil.mpr h
  rw [trimAll, List.filter_cons_of_pos (by simpa using hblank)]
  rfl

def fields (sep : UInt8) (s : List UInt8) : List (List UInt8) := trimAll (s.splitOn sep)

theorem fields_ne_nil {sep : UInt8} {s : List UInt8} :
    fields sep s ≠ [] ↔ ∃ piece ∈ s.splitOn sep, ¬ Blank piece := by
  rw [fields, trimAll, Ne, List.map_eq_nil_iff, List.filter_eq_nil_iff]
  simp

theorem fields_spec {sep : UInt8} {s a : List UInt8} (h : a ∈ fields sep s) :
    a ≠ [] ∧ Trimmed a := by
  obtain ⟨piece, hpiece, rfl⟩ := List.mem_map.mp h
  obtain ⟨-, hblank⟩ := List.mem_filter.mp hpiece
  exact ⟨mt trimSpace_eq_nil.mp (of_decide_eq_true hblank), trimmed_trimSpace piece⟩

/-! ## Numbers -/

/-- Read decimal digits, after those that make `n`. -/
def digitsFrom : (n : Nat) → List UInt8 → Option Nat
  | n, [] => some n
  | n, b :: bs =>
      if 48 ≤ b ∧ b ≤ 57 then digitsFrom (10 * n + (b.toNat - 48)) bs else none

/-- At least one digit, and nothing else. -/
def digits (bs : List UInt8) : Option Nat := if bs = [] then none else digitsFrom 0 bs

/-- A decimal number with or without a sign, in the range of a signed
integer of the given width. -/
def atoi (bits : Nat) : List UInt8 → Option Int
  | 45 :: bs => (digits bs).bind fun n => if n ≤ 2 ^ (bits - 1) then some (-n) else none
  | 43 :: bs => (digits bs).bind fun n => if n < 2 ^ (bits - 1) then some n else none
  | bs => (digits bs).bind fun n => if n < 2 ^ (bits - 1) then some n else none

/-! ## Opaque names -/

/-- A byte string as a string of that many characters. -/
def latin1 (bs : List UInt8) : String := String.ofList (bs.map Char.ofUInt8)

theorem latin1_injective : Function.Injective latin1 := by
  intro a b h
  have hchars := String.ofList_inj.mp h
  refine List.map_injective_iff.mpr ?_ hchars
  intro x y hxy
  have hval : x.toUInt32.toNat = y.toUInt32.toNat := congrArg Char.toNat hxy
  rw [UInt8.toNat_toUInt32, UInt8.toNat_toUInt32] at hval
  exact UInt8.toNat_inj.mp hval

end Text
