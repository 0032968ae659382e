import RaftStore.Lib.Json

/-!
# JSON objects cut short

A text that is cut inside an object of strings and goes on with nothing, or
with other objects, whole or cut themselves, is no value
(`Resumes.object`). What follows begins with a brace, and soon comes to a
quote. A cut outside a string leaves the parser with a brace where it wants
a separator. A cut inside a string runs on to that quote, so that what
stands behind it takes the place of a separator; the condition on the first
key in `Resumes.whole_cons` and `Resumes.cut_cons` is that it does not begin
with one.
-/

namespace Json

open Utf8 Percent

/-- The cut falls into the first part or behind it. -/
theorem prefix_append_cases {T A B : List UInt8} (h : T <+: A ++ B) :
    T <+: A ∨ ∃ T', T = A ++ T' ∧ T' <+: B := by
  rcases List.prefix_or_prefix_of_prefix h (List.prefix_append A B) with hA | ⟨T', rfl⟩
  · exact .inl hA
  · exact .inr ⟨T', rfl, (List.prefix_append_right_inj A).mp h⟩

/-- The three bytes that may follow a string in an object. -/
def IsSeparator (b : UInt8) : Prop := b = 58 ∨ b = 44 ∨ b = 125

theorem IsSeparator.ne_brace {b : UInt8} (h : IsSeparator b) : 123 ≠ b := by
  rintro rfl
  simp [IsSeparator] at h

/-- What a string that was cut may run into: braces, and then the end or a
quote with no separator behind it. -/
inductive Breaks : List UInt8 → Prop where
  | nil : Breaks []
  | brace {F : List UInt8} (h : Breaks F) : Breaks (123 :: F)
  | quote {G : List UInt8} (h : ∀ b, IsSeparator b → expect b G = none) :
      Breaks (123 :: 34 :: G)

/-- What may follow the cut. -/
structure Resumes (F : List UInt8) : Prop where
  shape : Breaks F
  value : ∀ {depth v rest}, value depth F = some (v, rest) →
    ∀ b, IsSeparator b → expect b rest = none

theorem Breaks.head {F : List UInt8} (h : Breaks F) : F = [] ∨ ∃ G, F = 123 :: G := by
  cases h with
  | nil => exact .inl rfl
  | brace h => exact .inr ⟨_, rfl⟩
  | quote h => exact .inr ⟨_, rfl⟩

theorem Resumes.outside {F : List UInt8} (h : Resumes F) {b : UInt8} (hb : 123 ≠ b) :
    expect b F = none := by
  rcases h.shape.head with rfl | ⟨G, rfl⟩
  · rfl
  · exact expect_ne (by decide) hb _

/-- A string that runs on to the next quote. -/
theorem Breaks.pieces {F : List UInt8} (h : Breaks F) {ps : List Piece}
    {rest : List UInt8} (hpieces : pieces F = some (ps, rest)) {b : UInt8}
    (hb : IsSeparator b) : expect b rest = none := by
  have hbrace : ∀ bs, Json.pieces (123 :: bs) = (Json.pieces bs).map (prepend [.byte 123]) :=
    fun bs => pieces_byte bs (by decide) (by decide) (by decide)
  induction h generalizing ps rest with
  | nil => cases hpieces
  | brace h ih =>
      rw [hbrace] at hpieces
      obtain ⟨⟨ps', rest'⟩, hrest, heq⟩ := Option.map_eq_some_iff.mp hpieces
      cases heq
      exact ih hrest
  | quote h =>
      rw [hbrace, pieces.eq_def] at hpieces
      cases hpieces
      exact h b hb

/-- No byte that a `\u` escape could go on with. -/
theorem pieces_noHex {X : List UInt8}
    (h : ∀ a b c d rest, X = a :: b :: c :: d :: rest → hex4 a b c d = none) :
    pieces (92 :: 117 :: X) = none := by
  rw [pieces.eq_def]
  dsimp only
  rw [if_neg (by decide), if_pos rfl, if_pos rfl]
  split
  · rw [h _ _ _ _ _ rfl]
  · rfl

theorem hex4_brace {a b c d : UInt8} (h : a = 123 ∨ b = 123 ∨ c = 123 ∨ d = 123) :
    hex4 a b c d = none := by
  have hbrace : unhex 123 = none := by decide
  unfold hex4
  split
  · rcases h with rfl | rfl | rfl | rfl <;> simp_all
  · rfl

/-- How a character may be written. -/
theorem escapeRune_shape (r : Option Char) :
    (∀ b ∈ escapeRune r, isPlain b = true) ∨ (∃ e, escapeRune r = [92, e])
      ∨ ∃ a b c d, escapeRune r = [92, 117, a, b, c, d] := by
  cases r with
  | none => exact .inr (.inr ⟨_, _, _, _, rfl⟩)
  | some c =>
      rw [escapeRune]
      split
      · unfold escapeByte
        split
        · exact .inr (.inl ⟨_, rfl⟩)
        · split
          · exact .inr (.inr ⟨_, _, _, _, rfl⟩)
          · rename_i hnone hplain
            exact .inl (List.forall_mem_singleton.mpr
              (isPlain_of_not_escaped hnone fun hlt => hplain (.inl hlt)))
      · rename_i hhigh
        split
        · exact .inr (.inr ⟨_, _, _, _, rfl⟩)
        · split
          · exact .inr (.inr ⟨_, _, _, _, rfl⟩)
          · exact .inl fun b hb => isPlain_high (encode_high (Nat.not_lt.mp hhigh) b hb)

section

variable {F : List UInt8} (h : Resumes F)

include h

theorem Resumes.backslash : pieces (92 :: F) = none := by
  rcases h.shape.head with rfl | ⟨G, rfl⟩ <;> rw [pieces.eq_def] <;> rfl

theorem Resumes.hex {L : List UInt8} (hL : L.length < 4) :
    pieces (92 :: 117 :: (L ++ F)) = none := by
  refine pieces_noHex ?_
  intro a b c d rest hX
  rcases h.shape.head with rfl | ⟨G, rfl⟩
  · rw [List.append_nil] at hX
    rw [hX] at hL
    simp only [List.length_cons] at hL
    omega
  · refine hex4_brace ?_
    rcases L with _ | ⟨_, _ | ⟨_, _ | ⟨_, _ | ⟨_, L⟩⟩⟩⟩
    · exact .inl (List.cons.inj hX).1.symm
    · simp at hX
      exact .inr (.inl hX.2.1.symm)
    · simp at hX
      exact .inr (.inr (.inl hX.2.2.1.symm))
    · simp at hX
      exact .inr (.inr (.inr hX.2.2.2.1.symm))
    · simp only [List.length_cons] at hL
      omega

/-- A character cut off in a literal: what there is of it reads on, or the
cut is in an escape. -/
theorem Resumes.rune {T : List UInt8} {r : Option Char} (hT : T <+: escapeRune r) :
    (∃ bs, Reads T bs) ∨ pieces (T ++ F) = none := by
  have hwhole := reads_escapeRune r
  rcases escapeRune_shape r with hplain | ⟨e, he⟩ | ⟨a, b, c, d, hu⟩
  · exact .inl ⟨T, reads_plain fun b hb => hplain b (hT.subset hb)⟩
  · rw [he] at hT hwhole
    rcases List.prefix_cons_iff.mp hT with rfl | ⟨T, rfl, hrest⟩
    · exact .inl ⟨_, .nil⟩
    · rcases List.prefix_cons_iff.mp hrest with rfl | ⟨T, rfl, hend⟩
      · exact .inr h.backslash
      · rw [List.prefix_nil.mp hend]
        exact .inl ⟨_, hwhole⟩
  · rw [hu] at hT hwhole
    rcases List.prefix_cons_iff.mp hT with rfl | ⟨T, rfl, hrest⟩
    · exact .inl ⟨_, .nil⟩
    · rcases List.prefix_cons_iff.mp hrest with rfl | ⟨T, rfl, hdigits⟩
      · exact .inr h.backslash
      · rcases Nat.lt_or_ge T.length 4 with hshort | hfour
        · exact .inr (h.hex hshort)
        · rw [hdigits.eq_of_length_le hfour]
          exact .inl ⟨_, hwhole⟩

/-- The same for a literal. -/
theorem Resumes.literal {T s : List UInt8} (hT : T <+: escape s) :
    (∃ bs, Reads T bs) ∨ pieces (T ++ F) = none := by
  rw [escape] at hT
  generalize runes s = rs at hT
  induction rs generalizing T with
  | nil =>
      obtain rfl := List.prefix_nil.mp hT
      exact .inl ⟨_, .nil⟩
  | cons r rs ih =>
      rw [List.flatMap_cons] at hT
      rcases prefix_append_cases hT with hrune | ⟨T, rfl, hrest⟩
      · exact h.rune hrune
      · rcases ih hrest with ⟨bs, hbs⟩ | hnone
        · exact .inl ⟨_, (reads_escapeRune r).append hbs⟩
        · obtain ⟨ps, hps, -⟩ := reads_escapeRune r
          rw [List.append_assoc, hps, hnone]
          exact .inr rfl

/-- A literal cut short runs into the next quote, if it ends at all. -/
theorem Resumes.inside {T s key rest : List UInt8} (hT : T <+: escape s)
    (hstring : string (T ++ F) = some (key, rest)) {b : UInt8}
    (hb : IsSeparator b) : expect b rest = none := by
  obtain ⟨⟨ps, rest'⟩, hpieces, heq⟩ := Option.map_eq_some_iff.mp hstring
  cases heq
  rcases h.literal hT with ⟨bs, qs, hqs, -⟩ | hnone
  · rw [hqs] at hpieces
    obtain ⟨⟨ps', rest'⟩, hrest, heq⟩ := Option.map_eq_some_iff.mp hpieces
    cases heq
    exact h.shape.pieces hrest hb
  · rw [hnone] at hpieces
    cases hpieces

/-- A string cut short is followed by none of the three separators. -/
theorem Resumes.afterString {depth : Nat} {V s : List UInt8} (hV : V <+: quote s)
    {v : Value} {rest : List UInt8} (hvalue : Json.value depth (V ++ F) = some (v, rest))
    {b : UInt8} (hb : IsSeparator b) : expect b rest = none := by
  rcases List.prefix_concat_iff.mp hV with rfl | hV
  · rw [← quote, value_quote] at hvalue
    cases hvalue
    exact h.outside hb.ne_brace
  · rcases List.prefix_cons_iff.mp hV with rfl | ⟨T, rfl, hT⟩
    · exact h.value hvalue b hb
    · rw [List.cons_append, value_string] at hvalue
      obtain ⟨⟨key, rest'⟩, hstring, heq⟩ := Option.map_eq_some_iff.mp hvalue
      cases heq
      exact h.inside hT hstring hb

/-- The cut is in a key, or right behind it. -/
theorem Resumes.key {depth fuel : Nat} {P key : List UInt8} (hP : P <+: quote key) :
    members (Json.value depth) (fuel + 1) (P ++ F) = none := by
  rcases List.prefix_concat_iff.mp hP with rfl | hP
  · rw [← quote, members_quote, h.outside (by decide), Option.bind_none]
  · rcases List.prefix_cons_iff.mp hP with rfl | ⟨T, rfl, hT⟩
    · rw [members, List.nil_append, h.outside (by decide), Option.bind_none]
    · rw [members, List.cons_append, expect_cons (by decide), Option.bind_some]
      cases hstring : string (T ++ F) with
      | none => rfl
      | some r =>
          rw [Option.bind_some]
          dsimp only
          rw [h.inside hT hstring (.inl rfl), Option.bind_none]

theorem Resumes.member {depth fuel : Nat} {P : List UInt8}
    {m : List UInt8 × List UInt8} (hP : P <+: writeMember m) :
    members (Json.value depth) fuel (P ++ F) = none := by
  cases fuel with
  | zero => rfl
  | succ fuel =>
      rcases prefix_append_cases hP with hkey | ⟨P, rfl, hrest⟩
      · exact h.key hkey
      · rw [List.append_assoc, members_quote]
        rcases List.prefix_cons_iff.mp hrest with rfl | ⟨V, rfl, hV⟩
        · rw [List.nil_append, h.outside (by decide), Option.bind_none]
        · rw [List.cons_append, expect_cons (by decide), Option.bind_some]
          cases hvalue : Json.value depth (V ++ F) with
          | none => rfl
          | some r =>
              rw [Option.bind_some]
              dsimp only
              rw [h.afterString hV hvalue (.inr (.inl rfl)),
                h.afterString hV hvalue (.inr (.inr rfl))]
              rfl

theorem Resumes.members {depth fuel : Nat} {P : List UInt8}
    {ms : List (List UInt8 × List UInt8)} (hP : P <+: writeMembers ms) :
    Json.members (Json.value depth) fuel (P ++ F) = none := by
  induction ms generalizing P fuel with
  | nil =>
      rw [writeMembers] at hP
      obtain rfl := List.prefix_nil.mp hP
      cases fuel with
      | zero => rfl
      | succ fuel => rw [Json.members, List.nil_append, h.outside (by decide), Option.bind_none]
  | cons m ms ih =>
      rw [writeMembers_cons] at hP
      rcases prefix_append_cases hP with hmember | ⟨P, rfl, hrest⟩
      · exact h.member hmember
      · cases fuel with
        | zero => rfl
        | succ fuel =>
            rw [List.append_assoc, members_member]
            rcases P with _ | ⟨comma, P⟩
            · rw [List.nil_append, h.outside (by decide), h.outside (by decide)]
              rfl
            · split at hrest
              · cases List.prefix_nil.mp hrest
              · obtain ⟨rfl, hnext⟩ := List.cons_prefix_cons.mp hrest
                rw [List.cons_append, expect_cons (by decide)]
                dsimp only
                rw [ih hnext]
                rfl

/-- An object cut short behind its brace does not end there. -/
theorem Resumes.unclosed {P : List UInt8} {ms : List (List UInt8 × List UInt8)}
    (hP : P <+: writeMembers ms) : expect 125 (P ++ F) = none := by
  rcases P with _ | ⟨q, T⟩
  · exact h.outside (by decide)
  · cases ms with
    | nil => cases List.prefix_nil.mp hP
    | cons m ms =>
        rw [writeMembers_cons, writeMember, quote] at hP
        obtain ⟨rfl, -⟩ := List.cons_prefix_cons.mp hP
        exact expect_ne (by decide) (by decide) _

theorem Resumes.cut {P : List UInt8} {ms : List (List UInt8 × List UInt8)}
    (hP : P <+: writeMembers ms) (depth : Nat) :
    Json.value depth (123 :: (P ++ F)) = none := by
  cases depth with
  | zero =>
      rw [Json.value, valueWith, skipSpace_cons (by decide)]
      rfl
  | succ depth => rw [value_object depth (h.unclosed hP), h.members hP, Option.map_none]

/-- An object cut short after its first byte, and not only by its brace. -/
theorem Resumes.object {P : List UInt8} {ms : List (List UInt8 × List UInt8)}
    (hP : P <+: writeMembers ms) : parse (123 :: (P ++ F)) = none := by
  rw [parse, h.cut hP]
  rfl

end

theorem resumes_nil : Resumes [] where
  shape := .nil
  value {depth v rest} hvalue := by cases depth <;> cases hvalue

section

variable {F : List UInt8} (h : Resumes F) {m : List UInt8 × List UInt8}
  {ms : List (List UInt8 × List UInt8)} {c : UInt8} {cs : List UInt8}
  (hkey : escape m.1 = c :: cs) (hspace : isSpace c = false) (hc : ¬ IsSeparator c)

include h hkey hspace hc

/-- Another object, and what may follow. -/
theorem Resumes.whole_cons : Resumes (writeObject (m :: ms) ++ F) where
  shape := by
    have htext : writeObject (m :: ms) ++ F
        = 123 :: 34 :: c :: (cs ++ 34 :: 58 :: (quote m.2
          ++ (if ms = [] then [] else 44 :: writeMembers ms) ++ 125 :: F)) := by
      simp [writeObject, writeMembers_cons, writeMember, quote, hkey]
    rw [htext]
    refine .quote fun b hb => expect_ne hspace ?_ _
    rintro rfl
    exact hc hb
  value {depth v rest} hvalue b hb := by
    cases depth with
    | zero =>
        rw [Json.value, valueWith, writeObject, List.cons_append, List.cons_append,
          skipSpace_cons (by decide)] at hvalue
        cases hvalue
    | succ depth =>
        rw [value_writeObject depth (List.cons_ne_nil m ms)] at hvalue
        cases hvalue
        exact h.outside hb.ne_brace

/-- The beginning of another object, and what may follow. -/
theorem Resumes.cut_cons {P : List UInt8} (hP : P <+: writeMembers (m :: ms)) :
    Resumes (123 :: (P ++ F)) where
  shape := by
    rcases P with _ | ⟨q, T⟩
    · exact .brace h.shape
    · have htext : writeMembers (m :: ms) = 34 :: c :: (cs ++ 34 :: 58 :: (quote m.2
          ++ if ms = [] then [] else 44 :: writeMembers ms)) := by
        simp [writeMembers_cons, writeMember, quote, hkey]
      rw [htext] at hP
      obtain ⟨rfl, hT⟩ := List.cons_prefix_cons.mp hP
      refine .quote fun b hb => ?_
      rcases T with _ | ⟨x, T⟩
      · exact h.outside hb.ne_brace
      · obtain ⟨rfl, -⟩ := List.cons_prefix_cons.mp hT
        refine expect_ne hspace ?_ _
        rintro rfl
        exact hc hb
  value {depth v rest} hvalue := by
    rw [h.cut hP] at hvalue
    cases hvalue

end

end Json
