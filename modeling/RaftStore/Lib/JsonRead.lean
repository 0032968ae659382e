import RaftStore.Lib.Base64
import RaftStore.Lib.Json
import RaftStore.Lib.Text

/-!
# JSON read into typed variables

`Json` reads a text into a tree. The decoder of `encoding/json` goes through
the text with a variable to fill in: the members of an object go to the
fields that have their names, an array to a slice, a number to an integer of
some width, and a null changes nothing or makes a slice nil.

A reader takes a value from the front of a text. `Takes` says what it makes
of a written value, whatever follows it in the text around (`Closes`):
numbers, truth values, strings, byte slices, arrays (`takes_slice`) and
objects (`takes_object`, member by member along `Fills`).
-/

namespace Json

open Utf8 Percent

variable {α σ : Type}

/-! ## Readers -/

def nullText : List UInt8 := [110, 117, 108, 108]

def trueText : List UInt8 := [116, 114, 117, 101]

def falseText : List UInt8 := [102, 97, 108, 115, 101]

/-- A null gives `v`, and anything else goes to the reader. -/
def orNull (v : α) (p : Parser α) : Parser α := fun bs =>
  if nullText.isPrefixOf (skipSpace bs) then some (v, (skipSpace bs).drop 4)
  else p (skipSpace bs)

/-- An unsigned integer of the given width into a variable that holds
`old`. The number has to be written with digits only. -/
def uint (bits old : Nat) : Parser Nat := orNull old fun bs =>
  (number bs).bind fun rest =>
  (Text.digits (bs.take (bs.length - rest.length))).bind fun n =>
  if n < 2 ^ bits then some (n, rest) else none

def boolean (old : Bool) : Parser Bool := orNull old fun bs =>
  if trueText.isPrefixOf bs then some (true, bs.drop 4)
  else if falseText.isPrefixOf bs then some (false, bs.drop 5)
  else none

def text (old : List UInt8) : Parser (List UInt8) := orNull old fun bs =>
  (expect 34 bs).bind string

/-- The elements of an array from the first on. -/
def items (elem : Parser α) : (fuel : Nat) → Parser (List α)
  | 0, _ => none
  | fuel + 1, bs =>
      (elem bs).bind fun (v, bs) =>
      match expect 44 bs with
      | some bs => (items elem fuel bs).map fun r => (v :: r.1, r.2)
      | none => (expect 93 bs).map fun bs => ([v], bs)

/-- A slice, or nil. -/
def slice (elem : Parser α) : Parser (Option (List α)) := orNull none fun bs =>
  (expect 91 bs).bind fun bs =>
  match expect 93 bs with
  | some bs => some (some [], bs)
  | none => (items elem bs.length bs).map fun r => (some r.1, r.2)

/-- A slice of bytes is a string in base64, or an array of numbers. -/
def bytes : Parser (Option (List UInt8)) := orNull none fun bs =>
  match expect 34 bs with
  | some bs =>
      (string bs).bind fun (s, rest) => (Base64.decode s).map fun v => (some v, rest)
  | none =>
      (slice (uint 8 0) bs).map fun r => (r.1.map (·.map Nat.toUInt8), r.2)

/-- A value that is read for nothing. -/
def skip (depth : Nat) (s : σ) : Parser σ := fun bs =>
  (value depth bs).map fun r => (s, r.2)

/-- The members of an object from the first on; `field` reads the value of
a member into the variable. -/
def entries (field : List UInt8 → σ → Parser σ) : (fuel : Nat) → σ → Parser σ
  | 0, _, _ => none
  | fuel + 1, s, bs =>
      (expect 34 bs).bind fun bs =>
      (string bs).bind fun (key, bs) =>
      (expect 58 bs).bind fun bs =>
      (field key s bs).bind fun (s, bs) =>
      match expect 44 bs with
      | some bs => entries field fuel s bs
      | none => (expect 125 bs).map fun bs => (s, bs)

def object (field : List UInt8 → σ → Parser σ) (s : σ) : Parser σ := orNull s fun bs =>
  (expect 123 bs).bind fun bs =>
  match expect 125 bs with
  | some bs => some (s, bs)
  | none => entries field bs.length s bs

/-! ## Writing -/

def decimal (n : Nat) : List UInt8 := (Nat.toDigits 10 n).map fun c => c.toNat.toUInt8

def writeBool (b : Bool) : List UInt8 := if b then trueText else falseText

def writeBytes (bs : List UInt8) : List UInt8 := 34 :: Base64.encode bs ++ [34]

def commas : List (List UInt8) → List UInt8
  | [] => []
  | [t] => t
  | t :: t' :: ts => t ++ 44 :: commas (t' :: ts)

def writeArray (ts : List (List UInt8)) : List UInt8 := 91 :: commas ts ++ [93]

/-- One member, with the text of its value. -/
def writeField (m : List UInt8 × List UInt8) : List UInt8 := quote m.1 ++ 58 :: m.2

def writeFields (ms : List (List UInt8 × List UInt8)) : List UInt8 :=
  123 :: commas (ms.map writeField) ++ [125]

theorem commas_cons (t : List UInt8) (ts : List (List UInt8)) :
    commas (t :: ts) = t ++ if ts = [] then [] else 44 :: commas ts := by
  cases ts with
  | nil => simp [commas]
  | cons t' ts => rfl

/-! ## Taking what was written -/

/-- What can stand behind a value in a text. -/
def Closes (rest : List UInt8) : Prop := ∀ b ∈ rest.head?, b = 44 ∨ b = 93 ∨ b = 125

theorem closes_nil : Closes [] := by simp [Closes]

theorem closes_comma (rest : List UInt8) : Closes (44 :: rest) := by simp [Closes]

theorem closes_bracket (rest : List UInt8) : Closes (93 :: rest) := by simp [Closes]

theorem closes_brace (rest : List UInt8) : Closes (125 :: rest) := by simp [Closes]

/-- The reader takes the text for `v`. -/
def Takes (p : Parser α) (text : List UInt8) (v : α) : Prop :=
  ∀ rest, Closes rest → p (text ++ rest) = some (v, rest)

/-- The text begins with a byte that is no white space and closes nothing. -/
def Opens (text : List UInt8) : Prop :=
  ∃ b rest, text = b :: rest ∧ isSpace b = false ∧ b ≠ 93 ∧ b ≠ 125

theorem Opens.length_pos {text : List UInt8} (h : Opens text) : 1 ≤ text.length := by
  obtain ⟨b, text, rfl, -, -, -⟩ := h
  simp

theorem takes_null (v : α) (p : Parser α) : Takes (orNull v p) nullText v := by
  intro rest _
  have hskip : skipSpace (nullText ++ rest) = nullText ++ rest :=
    skipSpace_cons (by decide) _
  rw [orNull, hskip, if_pos (by simp)]
  rfl

/-- A value that does not begin like a null. -/
theorem orNull_of_ne {b : UInt8} (hspace : isSpace b = false) (hb : b ≠ 110) (v : α)
    (p : Parser α) (rest : List UInt8) : orNull v p (b :: rest) = p (b :: rest) := by
  rw [orNull, skipSpace_cons hspace, if_neg]
  simp [nullText, Ne.symm hb]

theorem takes_boolean (old b : Bool) : Takes (boolean old) (writeBool b) b := by
  intro rest _
  cases b with
  | true =>
      refine (orNull_of_ne (by decide) (by decide) ..).trans ?_
      exact if_pos (by simp [trueText])
  | false =>
      refine (orNull_of_ne (by decide) (by decide) ..).trans ?_
      refine (if_neg (by simp [trueText])).trans ?_
      exact if_pos (by simp [falseText])

theorem takes_text (old s : List UInt8) : Takes (text old) (quote s) (toValid s) := by
  intro rest _
  rw [quote, List.cons_append, List.cons_append, text,
    orNull_of_ne (by decide) (by decide), expect_cons (by decide), Option.bind_some,
    List.append_assoc, List.singleton_append, string_escape]

/-! ## Numbers -/

theorem decimal_eq (n : Nat) :
    decimal n = (if n < 10 then [] else decimal (n / 10)) ++ [(48 + n % 10).toUInt8] := by
  have hdigit : ∀ d < 10, (Nat.digitChar d).toNat.toUInt8 = (48 + d).toUInt8 := by decide
  unfold decimal
  rw [Nat.toDigits_eq_if (by omega)]
  split
  · rename_i h
    simp [hdigit n h, Nat.mod_eq_of_lt h]
  · simp [hdigit (n % 10) (by omega)]

theorem isDigit_digit (n : Nat) : isDigit (48 + n % 10).toUInt8 = true := by
  have h : ∀ d < 10, isDigit (48 + d).toUInt8 = true := by decide
  exact h _ (Nat.mod_lt _ (by decide))

theorem decimal_digits (n : Nat) : ∀ b ∈ decimal n, isDigit b = true := by
  induction n using Nat.strongRecOn with
  | ind n ih =>
      intro b hb
      rw [decimal_eq] at hb
      rcases List.mem_append.mp hb with hb | hb
      · split at hb
        · cases hb
        · exact ih (n / 10) (by omega) b hb
      · rw [List.mem_singleton.mp hb]
        exact isDigit_digit n

/-- Only the number zero begins with one. -/
theorem decimal_head (n : Nat) : ∃ b rest, decimal n = b :: rest ∧ isDigit b = true
    ∧ (b = 48 → n = 0) := by
  induction n using Nat.strongRecOn with
  | ind n ih =>
      rw [decimal_eq]
      split
      · rename_i h
        have hzero : ∀ d < 10, (48 + d).toUInt8 = 48 → d = 0 := by decide
        rw [Nat.mod_eq_of_lt h]
        refine ⟨_, [], rfl, ?_, hzero n h⟩
        exact decimal_digits n _ (by rw [decimal_eq, Nat.mod_eq_of_lt h]; simp)
      · obtain ⟨b, rest, hdec, hb, hzero⟩ := ih (n / 10) (by omega)
        refine ⟨b, rest ++ [(48 + n % 10).toUInt8], by rw [hdec]; rfl, hb, ?_⟩
        intro h
        have := hzero h
        omega

theorem digitsFrom_concat (m : Nat) (ds : List UInt8) (d : UInt8) :
    Text.digitsFrom m (ds ++ [d]) = (Text.digitsFrom m ds).bind fun k =>
      if 48 ≤ d ∧ d ≤ 57 then some (10 * k + (d.toNat - 48)) else none := by
  induction ds generalizing m with
  | nil => rfl
  | cons b ds ih =>
      rw [List.cons_append, Text.digitsFrom, Text.digitsFrom]
      split
      · exact ih _
      · rfl

theorem digitsFrom_decimal (n : Nat) : Text.digitsFrom 0 (decimal n) = some n := by
  have hdigit : ∀ d < 10, (48 ≤ (48 + d).toUInt8 ∧ (48 + d).toUInt8 ≤ 57)
      ∧ (48 + d).toUInt8.toNat - 48 = d := by decide
  induction n using Nat.strongRecOn with
  | ind n ih =>
      obtain ⟨hrange, hvalue⟩ := hdigit (n % 10) (Nat.mod_lt _ (by decide))
      have hrest : Text.digitsFrom 0 (if n < 10 then [] else decimal (n / 10))
          = some (n / 10) := by
        by_cases h : n < 10
        · rw [if_pos h, Nat.div_eq_of_lt h]
          rfl
        · rw [if_neg h]
          exact ih (n / 10) (by omega)
      rw [decimal_eq, digitsFrom_concat, hrest, Option.bind_some, if_pos hrange, hvalue]
      congr 1
      omega

theorem digits_decimal (n : Nat) : Text.digits (decimal n) = some n := by
  obtain ⟨b, rest, hdec, -, -⟩ := decimal_head n
  rw [Text.digits, if_neg (by simp [hdec]), digitsFrom_decimal]

/-- A digit, as the readers around it see it. -/
theorem digit_other {b : UInt8} (h : isDigit b = true) :
    isSpace b = false ∧ b ≠ 45 ∧ b ≠ 110 :=
  forall_byte (P := fun b => isDigit b = true →
    isSpace b = false ∧ b ≠ 45 ∧ b ≠ 110) (by decide +kernel) b h

theorem Closes.stops {rest : List UInt8} (h : Closes rest) :
    rest.dropWhile isDigit = rest ∧ fraction rest = some rest
      ∧ exponent rest = some rest := by
  cases rest with
  | nil => exact ⟨rfl, rfl, rfl⟩
  | cons b rest =>
      rcases h b (by simp) with rfl | rfl | rfl
      · exact ⟨rfl, rfl, rfl⟩
      · exact ⟨rfl, rfl, rfl⟩
      · exact ⟨rfl, rfl, rfl⟩

theorem number_decimal (n : Nat) {rest : List UInt8} (h : Closes rest) :
    number (decimal n ++ rest) = some rest := by
  obtain ⟨hdrop, hfraction, hexponent⟩ := h.stops
  obtain ⟨b, tail, hdec, hb, hzero⟩ := decimal_head n
  have hint : integer (decimal n ++ rest) = some rest := by
    rw [hdec, List.cons_append, integer]
    split
    · rename_i hb48
      have htail : decimal n = [48] := by rw [hzero hb48]; rfl
      rw [hdec] at htail
      rw [(List.cons.inj htail).2]
      rfl
    · have htail : ∀ x ∈ tail, isDigit x = true := fun x hx =>
        decimal_digits n x (hdec ▸ List.mem_cons_of_mem b hx)
      rw [digits, if_pos hb, List.dropWhile_append_of_pos htail, hdrop]
  have hunsigned : (decimal n ++ rest).head? ≠ some 45 := by
    rw [hdec]
    simpa using (digit_other hb).2.1
  rw [number]
  simp only [if_neg hunsigned]
  rw [hint, Option.bind_some, hfraction, Option.bind_some, hexponent]

theorem takes_uint {bits n : Nat} (h : n < 2 ^ bits) (old : Nat) :
    Takes (uint bits old) (decimal n) n := by
  intro rest hrest
  obtain ⟨b, tail, hdec, hb, -⟩ := decimal_head n
  obtain ⟨hspace, -, hnull⟩ := digit_other hb
  have horNull : uint bits old (decimal n ++ rest)
      = (number (decimal n ++ rest)).bind fun rest' =>
        (Text.digits ((decimal n ++ rest).take
          ((decimal n ++ rest).length - rest'.length))).bind fun k =>
        if k < 2 ^ bits then some (k, rest') else none := by
    rw [hdec]
    exact orNull_of_ne hspace hnull ..
  rw [horNull, number_decimal n hrest, Option.bind_some, List.length_append,
    Nat.add_sub_cancel, List.take_left, digits_decimal, Option.bind_some, if_pos h]

/-! ## Byte slices -/

theorem valid_ascii {bs : List UInt8} (h : ∀ b ∈ bs, b < 128) : Valid bs := by
  induction bs with
  | nil => exact ⟨[], rfl⟩
  | cons b bs ih =>
      obtain ⟨hb, hbs⟩ := List.forall_mem_cons.mp h
      obtain ⟨cs, rfl⟩ := ih hbs
      have hencode := forall_byte (P := fun b => b < 128 →
        encode (Char.ofNat b.toNat) = [b]) (by decide +kernel) b hb
      exact ⟨Char.ofNat b.toNat :: cs, by rw [List.flatMap_cons, hencode]; rfl⟩

theorem string_base64 (bs rest : List UInt8) :
    string (Base64.encode bs ++ 34 :: rest) = some (Base64.encode bs, rest) := by
  have hplain : ∀ b ∈ Base64.encode bs, isPlain b = true ∧ b < 128 := by
    intro b hb
    exact forall_byte (P := fun b => 43 ≤ b → b ≤ 122 → b ≠ 92 →
      isPlain b = true ∧ b < 128) (by decide +kernel) b (Base64.mem_encode hb).1
      (Base64.mem_encode hb).2.1 (Base64.mem_encode hb).2.2
  obtain ⟨ps, hps, hrender⟩ := reads_plain fun b hb => (hplain b hb).1
  have hrender' : render ps = Base64.encode bs := by simpa [render] using hrender []
  have hquote : pieces (34 :: rest) = some ([], rest) := by
    rw [pieces.eq_def]
    rfl
  have hvalid : toValid (Base64.encode bs) = Base64.encode bs :=
    toValid_of_valid (valid_ascii fun b hb => (hplain b hb).2)
  rw [string, hps, hquote]
  show some (toValid (render (ps ++ [])), rest) = _
  rw [List.append_nil, hrender', hvalid]

theorem takes_bytes (bs : List UInt8) : Takes bytes (writeBytes bs) (some bs) := by
  intro rest _
  rw [writeBytes, List.cons_append, List.cons_append, bytes,
    orNull_of_ne (by decide) (by decide), expect_cons (by decide)]
  dsimp only
  rw [List.append_assoc, List.singleton_append, string_base64, Option.bind_some,
    Base64.decode_encode]
  rfl

/-! ## Arrays -/

/-- Behind an element or a member comes a comma or the end. -/
theorem closes_tail {close : UInt8} (hclose : close = 93 ∨ close = 125)
    (ts : List (List UInt8)) (rest : List UInt8) :
    Closes ((if ts = [] then [] else 44 :: commas ts) ++ close :: rest) := by
  split
  · rcases hclose with rfl | rfl
    · exact closes_bracket rest
    · exact closes_brace rest
  · exact closes_comma _

theorem commas_length {ts : List (List UInt8)} (h : ∀ t ∈ ts, 1 ≤ t.length) :
    ts.length ≤ (commas ts).length := by
  induction ts with
  | nil => exact Nat.le_refl _
  | cons t ts ih =>
      obtain ⟨ht, hts⟩ := List.forall_mem_cons.mp h
      have := ih hts
      rw [commas_cons, List.length_append, List.length_cons]
      by_cases hnil : ts = []
      · simp [hnil, ht]
      · rw [if_neg hnil, List.length_cons]
        omega

theorem items_commas {elem : Parser α} {ts : List (List UInt8)} {vs : List α}
    (h : List.Forall₂ (Takes elem) ts vs) (hne : ts ≠ []) {fuel : Nat}
    (hfuel : ts.length ≤ fuel) (rest : List UInt8) :
    items elem fuel (commas ts ++ 93 :: rest) = some (vs, rest) := by
  induction h generalizing fuel with
  | nil => exact absurd rfl hne
  | @cons t v ts vs ht hts ih =>
      obtain ⟨fuel, rfl⟩ : ∃ k, fuel = k + 1 := Nat.exists_eq_succ_of_ne_zero (by
        simp only [List.length_cons] at hfuel
        omega)
      rw [items, commas_cons, List.append_assoc, ht _ (closes_tail (.inl rfl) ts rest),
        Option.bind_some]
      by_cases hnil : ts = []
      · subst hnil
        cases hts
        rfl
      · rw [if_neg hnil, List.cons_append]
        dsimp only
        rw [expect_cons (by decide)]
        dsimp only
        rw [ih hnil (by simpa using hfuel)]
        rfl

theorem opens_commas {ts : List (List UInt8)} (h : ∀ t ∈ ts, Opens t) (hne : ts ≠ [])
    (rest : List UInt8) :
    expect 93 (commas ts ++ rest) = none ∧ expect 125 (commas ts ++ rest) = none := by
  cases ts with
  | nil => exact absurd rfl hne
  | cons t ts =>
      obtain ⟨b, t', rfl, hspace, h93, h125⟩ := h t (by simp)
      rw [commas_cons]
      exact ⟨expect_ne hspace h93 _, expect_ne hspace h125 _⟩

/-- An array of written elements. -/
theorem takes_slice {elem : Parser α} {ts : List (List UInt8)} {vs : List α}
    (h : List.Forall₂ (Takes elem) ts vs) (hopens : ∀ t ∈ ts, Opens t) :
    Takes (slice elem) (writeArray ts) (some vs) := by
  intro rest _
  rw [writeArray, List.cons_append, List.cons_append, List.append_assoc,
    List.singleton_append, slice, orNull_of_ne (by decide) (by decide),
    expect_cons (by decide), Option.bind_some]
  by_cases hnil : ts = []
  · subst hnil
    cases h
    rfl
  · have hfuel : ts.length ≤ (commas ts ++ 93 :: rest).length := by
      rw [List.length_append]
      exact Nat.le_add_right_of_le (commas_length fun t ht => (hopens t ht).length_pos)
    rw [(opens_commas hopens hnil _).1]
    dsimp only
    rw [items_commas h hnil hfuel]
    rfl

/-! ## Objects -/

/-- Reading the members one after the other takes the variable from the
first state to the last. -/
inductive Fills (field : List UInt8 → σ → Parser σ) :
    σ → List (List UInt8 × List UInt8) → σ → Prop where
  | nil (s : σ) : Fills field s [] s
  | cons {s s' s'' : σ} {name text : List UInt8} {ms : List (List UInt8 × List UInt8)}
      (hfield : Takes (field (toValid name) s) text s') (hrest : Fills field s' ms s'') :
      Fills field s ((name, text) :: ms) s''

theorem opens_writeField (m : List UInt8 × List UInt8) : Opens (writeField m) :=
  ⟨34, escape m.1 ++ [34] ++ 58 :: m.2, rfl, by decide, by decide, by decide⟩

theorem entries_commas {field : List UInt8 → σ → Parser σ} {s s' : σ}
    {ms : List (List UInt8 × List UInt8)} (h : Fills field s ms s') (hne : ms ≠ [])
    {fuel : Nat} (hfuel : ms.length ≤ fuel) (rest : List UInt8) :
    entries field fuel s (commas (ms.map writeField) ++ 125 :: rest)
      = some (s', rest) := by
  induction h generalizing fuel with
  | nil => exact absurd rfl hne
  | @cons s s' s'' name text ms hfield hrest ih =>
      obtain ⟨fuel, rfl⟩ : ∃ k, fuel = k + 1 := Nat.exists_eq_succ_of_ne_zero (by
        simp only [List.length_cons] at hfuel
        omega)
      have htail := closes_tail (.inr rfl) (ms.map writeField) rest
      rw [entries, List.map_cons, commas_cons, writeField, quote]
      simp only [List.append_assoc, List.cons_append, List.nil_append]
      rw [expect_cons (by decide), Option.bind_some, string_escape, Option.bind_some,
        expect_cons (by decide), Option.bind_some, hfield _ htail, Option.bind_some]
      by_cases hnil : ms = []
      · subst hnil
        cases hrest
        rfl
      · rw [if_neg (by simpa using hnil), List.cons_append]
        dsimp only
        rw [expect_cons (by decide)]
        exact ih hnil (by simpa using hfuel)

/-- An object of written members, whatever stands behind it. -/
theorem object_writeFields {field : List UInt8 → σ → Parser σ} {s s' : σ}
    {ms : List (List UInt8 × List UInt8)} (h : Fills field s ms s') (rest : List UInt8) :
    object field s (writeFields ms ++ rest) = some (s', rest) := by
  rw [writeFields, List.cons_append, List.cons_append, List.append_assoc,
    List.singleton_append, object, orNull_of_ne (by decide) (by decide),
    expect_cons (by decide), Option.bind_some]
  by_cases hnil : ms = []
  · subst hnil
    cases h
    rfl
  · have hopens : ∀ t ∈ ms.map writeField, Opens t := by
      intro t ht
      obtain ⟨m, -, rfl⟩ := List.mem_map.mp ht
      exact opens_writeField m
    have hfuel : ms.length ≤ (commas (ms.map writeField) ++ 125 :: rest).length := by
      have := commas_length fun t ht => (hopens t ht).length_pos
      rw [List.length_append]
      simp only [List.length_map] at this
      omega
    rw [(opens_commas hopens (by simpa using hnil) _).2]
    dsimp only
    exact entries_commas h hnil hfuel rest

theorem takes_object {field : List UInt8 → σ → Parser σ} {s s' : σ}
    {ms : List (List UInt8 × List UInt8)} (h : Fills field s ms s') :
    Takes (object field s) (writeFields ms) s' :=
  fun rest _ => object_writeFields h rest

theorem takes_skip_quote (depth : Nat) (s : σ) (t : List UInt8) :
    Takes (skip depth s) (quote t) s := by
  intro rest _
  rw [skip, value_quote]
  rfl

theorem opens_writeFields (ms : List (List UInt8 × List UInt8)) :
    Opens (writeFields ms) :=
  ⟨123, commas (ms.map writeField) ++ [125], rfl, by decide, by decide, by decide⟩

end Json
