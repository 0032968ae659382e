import RaftStore.Lib.Percent
import RaftStore.Lib.Utf8

/-!
# JSON as Go reads and writes it

The texts of `encoding/json`, on byte strings that need not be valid UTF-8.

Writing: `quote` escapes as the encoder does by default, the characters of
HTML and the two line separators included, and writes a stray byte as the
escape of U+FFFD. Reading: `pieces` goes through a string literal, `render`
puts the escapes together, surrogate pairs among them, and what is not
valid in the result is replaced; `value` reads a value with a bound on the
nesting, which stands in for the recursion, and `parse` a whole text.

Reading an object of strings that was written gives its members back, made
valid (`parse_writeObject`).
-/

namespace Json

open Utf8 Percent

/-! ## Writing strings -/

def hexDigit (n : UInt8) : UInt8 := if n < 10 then 48 + n else 87 + n

/-- The letter behind the backslash, for the characters that have one. -/
def shortEscape (b : UInt8) : Option UInt8 :=
  if b = 34 ∨ b = 92 then some b
  else if b = 8 then some 98
  else if b = 12 then some 102
  else if b = 10 then some 110
  else if b = 13 then some 114
  else if b = 9 then some 116
  else none

/-- A character below 128. -/
def escapeByte (b : UInt8) : List UInt8 :=
  match shortEscape b with
  | some e => [92, e]
  | none =>
      if b < 32 ∨ b = 60 ∨ b = 62 ∨ b = 38 then
        [92, 117, 48, 48, hexDigit (b >>> 4), hexDigit (b &&& 15)]
      else [b]

def escapeRune : Option Char → List UInt8
  | none => [92, 117, 102, 102, 102, 100]
  | some c =>
      if c.toNat < 128 then escapeByte c.toNat.toUInt8
      else if c.toNat = 0x2028 then [92, 117, 50, 48, 50, 56]
      else if c.toNat = 0x2029 then [92, 117, 50, 48, 50, 57]
      else encode c

def escape (s : List UInt8) : List UInt8 := (runes s).flatMap escapeRune

def quote (s : List UInt8) : List UInt8 := 34 :: escape s ++ [34]

/-! ## Reading strings -/

/-- A byte of the text or a code unit of a `\u` escape. -/
inductive Piece where
  | byte (b : UInt8)
  | unit (u : Nat)

def unescapeByte (e : UInt8) : Option UInt8 :=
  if e = 34 ∨ e = 92 ∨ e = 47 then some e
  else if e = 98 then some 8
  else if e = 102 then some 12
  else if e = 110 then some 10
  else if e = 114 then some 13
  else if e = 116 then some 9
  else none

def hex4 (a b c d : UInt8) : Option Nat :=
  match unhex a, unhex b, unhex c, unhex d with
  | some a, some b, some c, some d =>
      some (((a.toNat * 16 + b.toNat) * 16 + c.toNat) * 16 + d.toNat)
  | _, _, _, _ => none

/-- The literal behind its opening quote, and what follows the closing
one. -/
def pieces : List UInt8 → Option (List Piece × List UInt8)
  | [] => none
  | b :: rest =>
      if b = 34 then some ([], rest)
      else if b = 92 then
        match rest with
        | [] => none
        | e :: rest =>
            if e = 117 then
              match rest with
              | a :: b :: c :: d :: rest =>
                  match hex4 a b c d with
                  | some u => (pieces rest).map fun r => (.unit u :: r.1, r.2)
                  | none => none
              | _ => none
            else
              match unescapeByte e with
              | some b => (pieces rest).map fun r => (.byte b :: r.1, r.2)
              | none => none
      else if b < 32 then none
      else (pieces rest).map fun r => (.byte b :: r.1, r.2)

def isHigh (u : Nat) : Bool := 0xD800 ≤ u && u < 0xDC00

def isLow (u : Nat) : Bool := 0xDC00 ≤ u && u < 0xE000

/-- A surrogate without its other half is replaced. -/
def render : List Piece → List UInt8
  | [] => []
  | .byte b :: ps => b :: render ps
  | .unit u :: .unit v :: ps =>
      if isHigh u && isLow v then
        encode (Char.ofNat (0x10000 + (u - 0xD800) * 0x400 + (v - 0xDC00)))
          ++ render ps
      else if isHigh u || isLow u then encode replacement ++ render (.unit v :: ps)
      else encode (Char.ofNat u) ++ render (.unit v :: ps)
  | .unit u :: ps =>
      if isHigh u || isLow u then encode replacement ++ render ps
      else encode (Char.ofNat u) ++ render ps

def string (bs : List UInt8) : Option (List UInt8 × List UInt8) :=
  (pieces bs).map fun r => (toValid (render r.1), r.2)

/-! ## Reading values -/

inductive Value where
  | null
  | bool (b : Bool)
  | number
  | string (s : List UInt8)
  | array (vs : List Value)
  | object (ms : List (List UInt8 × Value))

abbrev Parser (α : Type) := List UInt8 → Option (α × List UInt8)

def isSpace (b : UInt8) : Bool := b = 32 || b = 9 || b = 10 || b = 13

def skipSpace (bs : List UInt8) : List UInt8 := bs.dropWhile isSpace

/-- The given byte, behind white space. -/
def expect (b : UInt8) (bs : List UInt8) : Option (List UInt8) :=
  match skipSpace bs with
  | [] => none
  | x :: rest => if x = b then some rest else none

def isDigit (b : UInt8) : Bool := 48 ≤ b && b ≤ 57

/-- One digit or more. -/
def digits : List UInt8 → Option (List UInt8)
  | [] => none
  | b :: rest => if isDigit b then some (rest.dropWhile isDigit) else none

def fraction : List UInt8 → Option (List UInt8)
  | [] => some []
  | b :: rest => if b = 46 then digits rest else some (b :: rest)

def exponent : List UInt8 → Option (List UInt8)
  | [] => some []
  | b :: rest =>
      if b = 101 ∨ b = 69 then
        match rest with
        | [] => none
        | s :: rest' => if s = 43 ∨ s = 45 then digits rest' else digits rest
      else some (b :: rest)

/-- No digit follows a leading zero. -/
def integer : List UInt8 → Option (List UInt8)
  | [] => none
  | b :: rest => if b = 48 then some rest else digits (b :: rest)

def number (bs : List UInt8) : Option (List UInt8) :=
  let unsigned := if bs.head? = some 45 then bs.tail else bs
  ((integer unsigned).bind fraction).bind exponent

def literal (word : List UInt8) (v : Value) : Parser Value := fun bs =>
  if word.isPrefixOf bs then some (v, bs.drop word.length) else none

/-- The members of an object from the first on, up to the closing brace. -/
def members (value : Parser Value) :
    (fuel : Nat) → Parser (List (List UInt8 × Value))
  | 0, _ => none
  | fuel + 1, bs =>
      (expect 34 bs).bind fun bs =>
      (string bs).bind fun (key, bs) =>
      (expect 58 bs).bind fun bs =>
      (value bs).bind fun (v, bs) =>
      match expect 44 bs with
      | some bs => (members value fuel bs).map fun r => ((key, v) :: r.1, r.2)
      | none => (expect 125 bs).map fun bs => ([(key, v)], bs)

def elements (value : Parser Value) : (fuel : Nat) → Parser (List Value)
  | 0, _ => none
  | fuel + 1, bs =>
      (value bs).bind fun (v, bs) =>
      match expect 44 bs with
      | some bs => (elements value fuel bs).map fun r => (v :: r.1, r.2)
      | none => (expect 93 bs).map fun bs => ([v], bs)

/-- A value; `inner` reads the values inside it, where that is allowed. -/
def valueWith (inner : Option (Parser Value)) : Parser Value := fun bs =>
  match skipSpace bs with
  | [] => none
  | b :: rest =>
      if b = 123 then
        inner.bind fun value =>
          match expect 125 rest with
          | some rest => some (.object [], rest)
          | none => (members value rest.length rest).map fun r => (.object r.1, r.2)
      else if b = 91 then
        inner.bind fun value =>
          match expect 93 rest with
          | some rest => some (.array [], rest)
          | none => (elements value rest.length rest).map fun r => (.array r.1, r.2)
      else if b = 34 then (string rest).map fun r => (.string r.1, r.2)
      else if b = 116 then literal [114, 117, 101] (.bool true) rest
      else if b = 102 then literal [97, 108, 115, 101] (.bool false) rest
      else if b = 110 then literal [117, 108, 108] .null rest
      else (number (b :: rest)).map fun rest => (.number, rest)

/-- A value with at most `depth` objects and arrays around any part. -/
def value : (depth : Nat) → Parser Value
  | 0 => valueWith none
  | depth + 1 => valueWith (some (value depth))

def maxNestingDepth : Nat := 10000

/-- A whole text. -/
def parse (bs : List UInt8) : Option Value :=
  (value maxNestingDepth bs).bind fun (v, rest) =>
    if skipSpace rest = [] then some v else none

/-! ## Escapes are read back -/

theorem shortEscape_unescape {b e : UInt8} (h : shortEscape b = some e) :
    e ≠ 117 ∧ unescapeByte e = some b := by
  have hall := forall_byte (P := fun b => (shortEscape b).all
    (fun e => e ≠ 117 && unescapeByte e = some b) = true) (by decide +kernel) b
  rw [h] at hall
  simpa using hall

theorem hex4_byte (b : UInt8) :
    hex4 48 48 (hexDigit (b >>> 4)) (hexDigit (b &&& 15)) = some b.toNat :=
  forall_byte (P := fun b =>
    hex4 48 48 (hexDigit (b >>> 4)) (hexDigit (b &&& 15)) = some b.toNat)
    (by decide +kernel) b

/-- What `pieces` finds in front of what it finds in the rest. -/
def prepend (ps : List Piece) (r : List Piece × List UInt8) :
    List Piece × List UInt8 := (ps ++ r.1, r.2)

theorem prepend_append (ps ps' : List Piece) :
    prepend (ps ++ ps') = prepend ps ∘ prepend ps' :=
  funext fun r => congrArg (·, r.2) (List.append_assoc ps ps' r.1)

section

variable {a b c d e : UInt8} {u : Nat} (rest : List UInt8)

theorem pieces_byte (hquote : b ≠ 34) (hslash : b ≠ 92) (hcontrol : 32 ≤ b) :
    pieces (b :: rest) = (pieces rest).map (prepend [.byte b]) := by
  rw [pieces.eq_def]
  dsimp only
  rw [if_neg hquote, if_neg hslash, if_neg (UInt8.not_lt.mpr hcontrol)]
  rfl

theorem pieces_short (hu : e ≠ 117) (he : unescapeByte e = some b) :
    pieces (92 :: e :: rest) = (pieces rest).map (prepend [.byte b]) := by
  rw [pieces.eq_def]
  dsimp only
  rw [if_neg (by decide), if_pos rfl, if_neg hu, he]
  rfl

theorem pieces_unit (hu : hex4 a b c d = some u) :
    pieces (92 :: 117 :: a :: b :: c :: d :: rest)
      = (pieces rest).map (prepend [.unit u]) := by
  rw [pieces, if_neg (by decide), if_pos rfl, if_pos rfl, hu]
  rfl

end

theorem render_unit {u : Nat} (hhigh : isHigh u = false) (hlow : isLow u = false)
    (ps : List Piece) : render (.unit u :: ps) = encode (Char.ofNat u) ++ render ps := by
  cases ps with
  | nil => simp [render, hhigh, hlow]
  | cons p ps =>
      cases p with
      | byte b => simp [render, hhigh, hlow]
      | unit v => rw [render]; simp [hhigh, hlow]

theorem render_bytes (bs : List UInt8) (ps : List Piece) :
    render (bs.map Piece.byte ++ ps) = bs ++ render ps := by
  induction bs with
  | nil => rfl
  | cons b bs ih => rw [List.map_cons, List.cons_append, render, ih]; rfl

/-- The text reads as these bytes, whatever follows. -/
def Reads (text bs : List UInt8) : Prop :=
  ∃ ps, (∀ rest, pieces (text ++ rest) = (pieces rest).map (prepend ps))
    ∧ ∀ qs, render (ps ++ qs) = bs ++ render qs

theorem Reads.nil : Reads [] [] :=
  ⟨[], fun rest => by cases h : pieces rest <;> simp [h, prepend], fun _ => rfl⟩

theorem Reads.append {text text' bs bs' : List UInt8} (h : Reads text bs)
    (h' : Reads text' bs') : Reads (text ++ text') (bs ++ bs') := by
  obtain ⟨ps, hps, hrender⟩ := h
  obtain ⟨ps', hps', hrender'⟩ := h'
  refine ⟨ps ++ ps', ?_, ?_⟩
  · intro rest
    rw [List.append_assoc, hps, hps', Option.map_map, prepend_append]
  · intro qs
    rw [List.append_assoc, hrender, hrender', List.append_assoc]

theorem reads_byte {b : UInt8} (hquote : b ≠ 34) (hslash : b ≠ 92)
    (hcontrol : 32 ≤ b) : Reads [b] [b] :=
  ⟨[.byte b], fun rest => pieces_byte rest hquote hslash hcontrol,
    fun qs => render_bytes [b] qs⟩

theorem reads_unit {a b c d : UInt8} {u : Nat} (hu : hex4 a b c d = some u)
    (hhigh : isHigh u = false) (hlow : isLow u = false) :
    Reads [92, 117, a, b, c, d] (encode (Char.ofNat u)) :=
  ⟨[.unit u], fun rest => pieces_unit rest hu, fun qs => render_unit hhigh hlow qs⟩

theorem encode_ascii {c : Char} (h : c.toNat < 128) :
    encode c = [c.toNat.toUInt8] := by
  have h' : c.val.toNat ≤ 127 := Nat.le_of_lt_succ h
  simp only [encode, String.utf8EncodeChar, if_pos h']
  rfl

theorem encode_high {c : Char} (h : 128 ≤ c.toNat) : ∀ b ∈ encode c, 128 ≤ b := by
  have h' : ¬ c.val.toNat ≤ 127 := Nat.not_le.mpr h
  intro b hb
  simp only [encode, String.utf8EncodeChar, if_neg h'] at hb
  rw [UInt8.le_iff_toNat_le]
  split at hb
  · simp at hb
    rcases hb with rfl | rfl <;> simp <;> omega
  · split at hb
    · simp at hb
      rcases hb with rfl | rfl | rfl <;> simp <;> omega
    · simp at hb
      rcases hb with rfl | rfl | rfl | rfl <;> simp <;> omega

/-- Stands for itself in a literal. -/
def isPlain (b : UInt8) : Bool := b ≠ 34 && b ≠ 92 && 32 ≤ b

theorem reads_plain {bs : List UInt8} (h : ∀ b ∈ bs, isPlain b = true) :
    Reads bs bs := by
  induction bs with
  | nil => exact .nil
  | cons b bs ih =>
      obtain ⟨hb, hbs⟩ := List.forall_mem_cons.mp h
      simp only [isPlain, Bool.and_eq_true, decide_eq_true_eq] at hb
      exact (reads_byte hb.1.1 hb.1.2 hb.2).append (ih hbs)

theorem isPlain_high {b : UInt8} (h : 128 ≤ b) : isPlain b = true :=
  forall_byte (P := fun b => 128 ≤ b → isPlain b = true) (by decide +kernel) b h

theorem isPlain_of_not_escaped {b : UInt8} (hshort : shortEscape b = none)
    (hcontrol : ¬ b < 32) : isPlain b = true :=
  forall_byte (P := fun b => shortEscape b = none → ¬ b < 32 → isPlain b = true)
    (by decide +kernel) b hshort hcontrol

theorem reads_escapeByte {c : Char} (h : c.toNat < 128) :
    Reads (escapeByte c.toNat.toUInt8) (encode c) := by
  have hb : c.toNat.toUInt8.toNat = c.toNat := by
    simp
    omega
  have hchar : Char.ofNat c.toNat.toUInt8.toNat = c := by rw [hb, Char.ofNat_toNat]
  have hencode := encode_ascii h
  generalize c.toNat.toUInt8 = b at *
  unfold escapeByte
  split
  · -- a letter behind the backslash
    rename_i e he
    obtain ⟨hu, hun⟩ := shortEscape_unescape he
    rw [hencode]
    exact ⟨[.byte b], fun rest => pieces_short rest hu hun, fun qs => render_bytes [b] qs⟩
  · rename_i hnone
    split
    · have hsmall : b.toNat < 0xD800 := by omega
      have hread := reads_unit (hex4_byte b) (by simp [isHigh]; omega)
        (by simp [isLow]; omega)
      rwa [hchar] at hread
    · rename_i hplain
      rw [hencode]
      refine reads_plain (List.forall_mem_singleton.mpr ?_)
      exact isPlain_of_not_escaped hnone fun hlt => hplain (.inl hlt)

/-- Every character and every stray byte is read back as it was meant. -/
theorem reads_escapeRune (r : Option Char) :
    Reads (escapeRune r) (encode (r.getD replacement)) := by
  cases r with
  | none => exact reads_unit (u := 0xFFFD) (by decide) (by decide) (by decide)
  | some c =>
      rw [escapeRune, Option.getD_some]
      split
      · exact reads_escapeByte ‹_›
      · rename_i hhigh
        split
        · rename_i hc
          have hread := reads_unit (a := 50) (b := 48) (c := 50) (d := 56)
            (u := c.toNat) (by rw [hc]; decide) (by rw [hc]; decide) (by rw [hc]; decide)
          rwa [Char.ofNat_toNat] at hread
        · split
          · rename_i hc
            have hread := reads_unit (a := 50) (b := 48) (c := 50) (d := 57)
              (u := c.toNat) (by rw [hc]; decide) (by rw [hc]; decide)
              (by rw [hc]; decide)
            rwa [Char.ofNat_toNat] at hread
          · exact reads_plain fun b hb =>
              isPlain_high (encode_high (Nat.not_lt.mp hhigh) b hb)

theorem reads_escape (s : List UInt8) : Reads (escape s) (toValid s) := by
  rw [escape, toValid]
  induction runes s with
  | nil => exact .nil
  | cons r rs ih => exact (reads_escapeRune r).append ih

theorem string_escape (s rest : List UInt8) :
    string (escape s ++ 34 :: rest) = some (toValid s, rest) := by
  obtain ⟨ps, hps, hrender⟩ := reads_escape s
  have hrender' : render ps = toValid s := by simpa [render] using hrender []
  have hquote : pieces (34 :: rest) = some ([], rest) := by
    rw [pieces.eq_def]
    rfl
  rw [string, hps, hquote]
  show some (toValid (render (ps ++ [])), rest) = _
  rw [List.append_nil, hrender', toValid_of_valid (valid_toValid s)]

/-! ## Objects of strings -/

def writeMember (m : List UInt8 × List UInt8) : List UInt8 :=
  quote m.1 ++ 58 :: quote m.2

def writeMembers : List (List UInt8 × List UInt8) → List UInt8
  | [] => []
  | [m] => writeMember m
  | m :: m' :: ms => writeMember m ++ 44 :: writeMembers (m' :: ms)

def writeObject (ms : List (List UInt8 × List UInt8)) : List UInt8 :=
  123 :: writeMembers ms ++ [125]

theorem skipSpace_cons {b : UInt8} (h : isSpace b = false) (rest : List UInt8) :
    skipSpace (b :: rest) = b :: rest := by
  rw [skipSpace, List.dropWhile_cons_of_neg (by simp [h])]

theorem expect_cons {b : UInt8} (h : isSpace b = false) (rest : List UInt8) :
    expect b (b :: rest) = some rest := by
  rw [expect, skipSpace_cons h]
  exact if_pos rfl

theorem expect_ne {b x : UInt8} (hspace : isSpace x = false) (h : x ≠ b)
    (rest : List UInt8) : expect b (x :: rest) = none := by
  rw [expect, skipSpace_cons hspace]
  exact if_neg h

theorem value_string (depth : Nat) (bs : List UInt8) :
    value depth (34 :: bs) = (string bs).map fun r => (.string r.1, r.2) := by
  have hwith : ∀ inner, valueWith inner (34 :: bs)
      = (string bs).map fun r => (.string r.1, r.2) := by
    intro inner
    rw [valueWith, skipSpace_cons (by decide)]
    rfl
  cases depth with
  | zero => exact hwith _
  | succ depth => exact hwith _

theorem value_quote (depth : Nat) (s rest : List UInt8) :
    value depth (quote s ++ rest) = some (.string (toValid s), rest) := by
  rw [quote, List.append_assoc, List.cons_append, value_string, List.singleton_append,
    string_escape]
  rfl

/-- How a member is read back. -/
def readMember (m : List UInt8 × List UInt8) : List UInt8 × Value :=
  (toValid m.1, .string (toValid m.2))

theorem writeMembers_cons (m : List UInt8 × List UInt8)
    (ms : List (List UInt8 × List UInt8)) :
    writeMembers (m :: ms)
      = writeMember m ++ if ms = [] then [] else 44 :: writeMembers ms := by
  cases ms with
  | nil => simp [writeMembers]
  | cons m' ms => rfl

/-- The first key. -/
theorem members_quote (depth fuel : Nat) (key rest : List UInt8) :
    members (value depth) (fuel + 1) (quote key ++ rest)
      = (expect 58 rest).bind fun bs =>
        (value depth bs).bind fun (v, bs) =>
        match expect 44 bs with
        | some bs => (members (value depth) fuel bs).map fun r =>
            ((toValid key, v) :: r.1, r.2)
        | none => (expect 125 bs).map fun bs => ([(toValid key, v)], bs) := by
  rw [members, quote, List.append_assoc, List.cons_append, expect_cons (by decide),
    Option.bind_some, List.singleton_append, string_escape, Option.bind_some]

/-- The first member, up to what comes behind its value. -/
theorem members_member (depth fuel : Nat) (m : List UInt8 × List UInt8)
    (rest : List UInt8) :
    members (value depth) (fuel + 1) (writeMember m ++ rest)
      = match expect 44 rest with
        | some bs => (members (value depth) fuel bs).map fun r =>
            (readMember m :: r.1, r.2)
        | none => (expect 125 rest).map fun bs => ([readMember m], bs) := by
  rw [writeMember, List.append_assoc, members_quote, List.cons_append,
    expect_cons (by decide), Option.bind_some, value_quote, Option.bind_some]
  rfl

theorem members_writeMembers {depth fuel : Nat}
    {ms : List (List UInt8 × List UInt8)} (hne : ms ≠ []) (hfuel : ms.length ≤ fuel)
    (rest : List UInt8) :
    members (value depth) fuel (writeMembers ms ++ 125 :: rest)
      = some (ms.map readMember, rest) := by
  induction ms generalizing fuel with
  | nil => exact absurd rfl hne
  | cons m ms ih =>
      cases fuel with
      | zero => cases hfuel
      | succ fuel =>
          rw [writeMembers_cons, List.append_assoc, members_member]
          by_cases hms : ms = []
          · subst hms
            rw [if_pos rfl, List.nil_append, expect_ne (by decide) (by decide),
              expect_cons (by decide)]
            rfl
          · rw [if_neg hms, List.cons_append, expect_cons (by decide)]
            dsimp only
            rw [ih hms (Nat.le_of_succ_le_succ hfuel)]
            rfl

theorem writeMembers_length (ms : List (List UInt8 × List UInt8)) :
    ms.length ≤ (writeMembers ms).length := by
  induction ms with
  | nil => exact Nat.le_refl _
  | cons m ms ih =>
      rw [writeMembers_cons, List.length_append]
      simp only [List.length_cons, writeMember, List.length_append]
      by_cases hms : ms = []
      · subst hms
        simp only [List.length_nil]
        omega
      · rw [if_neg hms]
        simp only [List.length_cons]
        omega

/-- The values of an object or array are read at one level less. -/
theorem value_object (depth : Nat) {bs : List UInt8} (h : expect 125 bs = none) :
    value (depth + 1) (123 :: bs)
      = (members (value depth) bs.length bs).map fun r => (.object r.1, r.2) := by
  rw [value, valueWith, skipSpace_cons (by decide)]
  dsimp only
  rw [if_pos rfl, Option.bind_some, h]

theorem expect_writeMembers {ms : List (List UInt8 × List UInt8)} (hne : ms ≠ [])
    (rest : List UInt8) : expect 125 (writeMembers ms ++ rest) = none := by
  cases ms with
  | nil => exact absurd rfl hne
  | cons m ms =>
      rw [writeMembers_cons, writeMember, quote]
      exact expect_ne (by decide) (by decide) _

theorem value_writeObject (depth : Nat) {ms : List (List UInt8 × List UInt8)}
    (hne : ms ≠ []) (rest : List UInt8) :
    value (depth + 1) (writeObject ms ++ rest)
      = some (.object (ms.map readMember), rest) := by
  have hfuel : ms.length ≤ (writeMembers ms ++ 125 :: rest).length := by
    rw [List.length_append]
    exact Nat.le_add_right_of_le (writeMembers_length ms)
  have htext : writeObject ms ++ rest = 123 :: (writeMembers ms ++ 125 :: rest) := by
    simp [writeObject]
  rw [htext, value_object depth (expect_writeMembers hne _),
    members_writeMembers hne hfuel]
  rfl

theorem parse_writeObject {ms : List (List UInt8 × List UInt8)} (hne : ms ≠ []) :
    parse (writeObject ms) = some (.object (ms.map readMember)) := by
  have h := value_writeObject 9999 hne []
  rw [List.append_nil] at h
  rw [parse, maxNestingDepth, h]
  rfl

/-- Nothing but white space may follow. -/
theorem parse_writeObject_append {ms : List (List UInt8 × List UInt8)} (hne : ms ≠ [])
    {rest : List UInt8} (hrest : skipSpace rest ≠ []) :
    parse (writeObject ms ++ rest) = none := by
  rw [parse, maxNestingDepth, value_writeObject 9999 hne]
  exact if_neg hrest

/-! ## What is written

No control character, and at least as much as there is to write. -/

theorem escapeRune_printable (r : Option Char) : ∀ b ∈ escapeRune r, 32 ≤ b := by
  cases r with
  | none => decide +kernel
  | some c =>
      rw [escapeRune]
      split
      · have hall := forall_byte (P := fun b => (escapeByte b).all (32 ≤ ·) = true)
          (by decide +kernel) c.toNat.toUInt8
        simpa using hall
      · rename_i hhigh
        split
        · decide +kernel
        · split
          · decide +kernel
          · intro b hb
            exact UInt8.le_trans (by decide) (encode_high (Nat.not_lt.mp hhigh) b hb)

theorem quote_printable (s : List UInt8) : ∀ b ∈ quote s, 32 ≤ b := by
  intro b hb
  simp only [quote, escape, List.cons_append, List.mem_cons, List.mem_append,
    List.mem_flatMap, List.not_mem_nil, or_false] at hb
  rcases hb with rfl | ⟨r, -, hr⟩ | rfl
  · decide
  · exact escapeRune_printable r b hr
  · decide

theorem writeMembers_printable (ms : List (List UInt8 × List UInt8)) :
    ∀ b ∈ writeMembers ms, 32 ≤ b := by
  induction ms with
  | nil => simp [writeMembers]
  | cons m ms ih =>
      intro b hb
      rw [writeMembers_cons, writeMember] at hb
      simp only [List.mem_append, List.mem_cons] at hb
      rcases hb with (hb | rfl | hb) | hb
      · exact quote_printable _ b hb
      · decide
      · exact quote_printable _ b hb
      · split at hb
        · cases hb
        · rcases List.mem_cons.mp hb with rfl | hb
          · decide
          · exact ih b hb

theorem writeObject_printable (ms : List (List UInt8 × List UInt8)) :
    ∀ b ∈ writeObject ms, 32 ≤ b := by
  intro b hb
  simp only [writeObject, List.cons_append, List.mem_cons, List.mem_append,
    List.not_mem_nil, or_false] at hb
  rcases hb with rfl | hb | rfl
  · decide
  · exact writeMembers_printable ms b hb
  · decide

theorem encode_length_le_escapeRune (c : Char) :
    (encode c).length ≤ (escapeRune (some c)).length := by
  rw [escapeRune]
  split
  · rename_i h
    have hall := forall_byte (P := fun b => 1 ≤ (escapeByte b).length)
      (by decide +kernel) c.toNat.toUInt8
    rw [encode_ascii h]
    exact hall
  · have := encode_length_le c
    split
    · simpa using Nat.le_trans this (by decide)
    · split
      · simpa using Nat.le_trans this (by decide)
      · exact Nat.le_refl _

theorem length_le_escape (s : List UInt8) : s.length ≤ (escape s).length := by
  induction s using runes_cases with
  | nil => exact Nat.le_refl _
  | char c bs ih =>
      rw [escape, runes_encode, List.flatMap_cons, List.length_append,
        List.length_append]
      exact Nat.add_le_add (encode_length_le_escapeRune c) ih
  | stray b bs hstray ih =>
      rw [escape, runes_stray hstray, List.flatMap_cons, List.length_append]
      have : (escapeRune none).length = 6 := rfl
      have ih' : bs.length ≤ ((runes bs).flatMap escapeRune).length := ih
      rw [List.length_cons]
      omega

end Json
