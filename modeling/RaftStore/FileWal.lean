import RaftStore.Lib.JsonCut
import RaftStore.Store

/-!
# The bytes of the write-ahead log

`Store` keeps the log as the entries it decodes to. Here it is the file that
`storage/logstore.go` writes and reads: `Append` puts one line of JSON
behind what is there, `Load` goes through the lines with `bufio.Scanner`,
which gives up on a line of 64 KiB, and decodes each.

What `Load` makes of a file that was only appended to is known exactly.
Entries come back with their key and value made valid UTF-8, so the log is
what was appended when they are valid and their lines are short
(`Entry.Storable`, `load_appended_iff`); on such entries the file refines
the log of `Store` (`load_records`). Any file that appends leave is whole
lines and the beginning of one (`FileWal.Left.shape`), and what one more
append does to `Load` depends on whether that beginning is empty
(`FileWal.load_grown`). So one append that was cut short leaves a line that
is no JSON, and everything behind it is lost with everything before it,
unless not a byte of it was written, or only the newline is missing and
nothing was appended since (`torn_append_iff`).
-/

namespace RaftStore

open Utf8 Json

/-! ## Entries as JSON -/

def upsertText : Bytes := [117, 112, 115, 101, 114, 116]

def deleteText : Bytes := [100, 101, 108, 101, 116, 101]

def Operation.text : Operation → Bytes
  | .upsert => upsertText
  | .delete => deleteText
  | .other name => name

def Operation.ofText (text : Bytes) : Operation :=
  if text = upsertText then .upsert
  else if text = deleteText then .delete
  else .other text

/-- The fields of `storage.Entry` that have a JSON name. -/
inductive Field where
  | op
  | key
  | value
  deriving DecidableEq

def Field.name : Field → Bytes
  | .op => [111, 112]
  | .key => [107, 101, 121]
  | .value => [118, 97, 108, 117, 101]

/-- What `json.Marshal` writes; `value` is left out when it is empty. -/
def Entry.members (e : Entry) : List (Bytes × Bytes) :=
  (Field.op.name, e.op.text) :: (Field.key.name, e.key)
    :: if e.value = [] then [] else [(Field.value.name, e.value)]

def Entry.marshal (e : Entry) : Bytes := writeObject e.members

/-- The case folding of names. Only two characters that are not ASCII fold
to one that is. -/
def foldRune (c : Char) : Char :=
  if 'a' ≤ c ∧ c ≤ 'z' then Char.ofNat (c.toNat - 32)
  else if c = Char.ofNat 0x212A then 'K'
  else if c = Char.ofNat 0x17F then 'S'
  else c

/-- The field a member goes to. No two names of fields fold alike, so that
looking for the exact name first makes no difference. -/
def fieldOf (name : Bytes) : Option Field :=
  match (runes name).map fun r => foldRune (r.getD replacement) with
  | ['O', 'P'] => some .op
  | ['K', 'E', 'Y'] => some .key
  | ['V', 'A', 'L', 'U', 'E'] => some .value
  | _ => none

def Entry.setField (e : Entry) (s : Bytes) : Field → Entry
  | .op => { e with op := .ofText s }
  | .key => { e with key := s }
  | .value => { e with value := s }

/-- A member of another type is an error, one of another name is not. -/
def Entry.setMember (e : Entry) (m : Bytes × Value) : Option Entry :=
  match fieldOf m.1, m.2 with
  | none, _ => some e
  | some _, .null => some e
  | some f, .string s => some (e.setField s f)
  | some _, _ => none

def Entry.zero : Entry := ⟨.other [], [], []⟩

/-- `json.Unmarshal` into an `Entry`. -/
def unmarshalEntry (line : Bytes) : Option Entry :=
  match parse line with
  | some .null => some .zero
  | some (.object ms) => ms.foldlM Entry.setMember .zero
  | _ => none

/-- What the entry is after writing and reading. -/
def Entry.coerced (e : Entry) : Entry :=
  { e with key := toValid e.key, value := toValid e.value }

theorem Operation.ofText_text {op : Operation} (h : op = .upsert ∨ op = .delete) :
    Operation.ofText (toValid op.text) = op := by
  rcases h with rfl | rfl <;> decide +kernel

theorem fieldOf_name (f : Field) : fieldOf (toValid f.name) = some f := by
  cases f <;> decide +kernel

theorem Entry.known_iff {e : Entry} : e.known = true ↔ e.op = .upsert ∨ e.op = .delete := by
  simp [Entry.known]

theorem Entry.setMember_name (e : Entry) (f : Field) (s : Bytes) :
    e.setMember (readMember (f.name, s)) = some (e.setField (toValid s) f) := by
  show (match fieldOf (toValid f.name), Value.string (toValid s) with
    | none, _ => some e
    | some _, .null => some e
    | some f, .string s => some (e.setField s f)
    | some _, _ => none) = _
  rw [fieldOf_name]

theorem Entry.members_ne_nil (e : Entry) : e.members ≠ [] := List.cons_ne_nil _ _

theorem unmarshal_marshal {e : Entry} (h : e.known = true) :
    unmarshalEntry e.marshal = some e.coerced := by
  have hop : Operation.ofText (toValid e.op.text) = e.op :=
    Operation.ofText_text (Entry.known_iff.mp h)
  rw [unmarshalEntry, Entry.marshal, parse_writeObject e.members_ne_nil]
  show (e.members.map readMember).foldlM Entry.setMember .zero = _
  rw [Entry.members]
  split
  · rename_i hvalue
    simp only [List.map_cons, List.map_nil, List.foldlM_cons, List.foldlM_nil,
      Entry.setMember_name, Option.bind_eq_bind, Option.bind_some, Option.pure_def]
    rw [Entry.coerced, hvalue]
    simp only [Entry.setField, hop]
    rfl
  · simp only [List.map_cons, List.map_nil, List.foldlM_cons, List.foldlM_nil,
      Entry.setMember_name, Option.bind_eq_bind, Option.bind_some, Option.pure_def]
    simp only [Entry.setField, hop]
    rfl

/-! ## The file -/

/-- The line `Append` writes. -/
def Entry.record (e : Entry) : Bytes := e.marshal ++ [10]

/-- How the system calls of `Append` turn out: a failing write may have put
any part of the record into the file. -/
inductive AppendOutcome where
  | ok
  | shortWrite (written : Nat)
  | syncError
  deriving DecidableEq

inductive LoadError where
  | tooLong
  | badLine
  | unknownOperation
  | badSnapshot
  deriving DecidableEq

/-- `bufio.MaxScanTokenSize`. -/
def maxScanTokenSize : Nat := 65536

/-- The lines, without their newlines; the last may be without one. -/
def scanLines : Bytes → List Bytes
  | [] => []
  | b :: bs =>
      if b = 10 then [] :: scanLines bs
      else
        match scanLines bs with
        | [] => [[b]]
        | line :: lines => (b :: line) :: lines

/-- `bufio.ScanLines` takes one carriage return off the end. -/
def dropCR (line : Bytes) : Bytes :=
  if line.getLast? = some 13 then line.dropLast else line

def loadLine (line : Bytes) : Except LoadError Entry :=
  if maxScanTokenSize ≤ line.length then .error .tooLong
  else
    match unmarshalEntry (dropCR line) with
    | none => .error .badLine
    | some e => if e.known then .ok e else .error .unknownOperation

def loadLines : List Bytes → Except LoadError (List Entry)
  | [] => .ok []
  | line :: lines =>
      match loadLine line with
      | .error err => .error err
      | .ok e => (loadLines lines).map (e :: ·)

namespace FileWal

/-- `FileWAL.Append`. The file is opened for appending, so that the record
goes to its end whatever was read before. -/
def append (file : Bytes) (e : Entry) (out : AppendOutcome) :
    Bytes × Option StoreError :=
  if e.known then
    match out with
    | .ok => (file ++ e.record, none)
    | .shortWrite written => (file ++ e.record.take written, some .io)
    | .syncError => (file ++ e.record, some .io)
  else (file, some .unknownOperation)

/-- `FileWAL.Load`. -/
def load (file : Bytes) : Except LoadError (List Entry) := loadLines (scanLines file)

/-- The file after calls of `Append` that all returned nil. -/
def appendAll (file : Bytes) : List (Entry × AppendOutcome) → Option Bytes
  | [] => some file
  | (e, out) :: calls =>
      match append file e out with
      | (file, none) => appendAll file calls
      | (_, some _) => none

end FileWal

def records (es : List Entry) : Bytes := es.flatMap Entry.record

/-- `Load` brings the entry back. -/
def Entry.Storable (e : Entry) : Prop :=
  Valid e.key ∧ Valid e.value ∧ e.marshal.length < maxScanTokenSize

instance (e : Entry) : Decidable e.Storable :=
  inferInstanceAs (Decidable (Valid e.key ∧ Valid e.value
    ∧ e.marshal.length < maxScanTokenSize))

/-- `bufio.Scanner` takes the line of the entry. -/
def Entry.Short (e : Entry) : Prop := e.marshal.length < maxScanTokenSize

instance (e : Entry) : Decidable e.Short :=
  inferInstanceAs (Decidable (e.marshal.length < maxScanTokenSize))

/-! ## Lines -/

theorem scanLines_line {line : Bytes} (h : 10 ∉ line) (rest : Bytes) :
    scanLines (line ++ 10 :: rest) = line :: scanLines rest := by
  induction line with
  | nil => rfl
  | cons b line ih =>
      rw [List.mem_cons, not_or] at h
      rw [List.cons_append, scanLines, if_neg (Ne.symm h.1), ih h.2]

theorem scanLines_last {line : Bytes} (h : 10 ∉ line) (hne : line ≠ []) :
    scanLines line = [line] := by
  induction line with
  | nil => exact absurd rfl hne
  | cons b line ih =>
      rw [List.mem_cons, not_or] at h
      rw [scanLines, if_neg (Ne.symm h.1)]
      cases line with
      | nil => rfl
      | cons b' line => rw [ih h.2 (List.cons_ne_nil _ _)]

theorem newline_notMem {line : Bytes} (h : ∀ b ∈ line, 32 ≤ b) : 10 ∉ line :=
  fun hmem => absurd (h 10 hmem) (by decide)

/-- The last line, with its newline or without. -/
theorem scanLines_end {line rest : Bytes} (h : ∀ b ∈ line, 32 ≤ b) (hne : line ≠ [])
    (hrest : rest = [] ∨ rest = [10]) : scanLines (line ++ rest) = [line] := by
  rcases hrest with rfl | rfl
  · rw [List.append_nil, scanLines_last (newline_notMem h) hne]
  · rw [scanLines_line (newline_notMem h)]
    rfl

theorem dropCR_printable {line : Bytes} (h : ∀ b ∈ line, 32 ≤ b) :
    dropCR line = line := by
  refine if_neg fun hlast => ?_
  exact absurd (h 13 (List.mem_of_getLast? hlast)) (by decide)

theorem Entry.marshal_ne_nil (e : Entry) : e.marshal ≠ [] := List.cons_ne_nil _ _

theorem Entry.marshal_printable (e : Entry) : ∀ b ∈ e.marshal, 32 ≤ b :=
  writeObject_printable e.members

/-- What `Load` makes of a line, up to which error it is. -/
theorem loadLine_bad {line : Bytes} (h : ∀ b ∈ line, 32 ≤ b)
    (hparse : parse line = none) : ∃ err, loadLine line = .error err := by
  unfold loadLine
  rw [dropCR_printable h, unmarshalEntry, hparse]
  split <;> exact ⟨_, rfl⟩

theorem loadLine_marshal {e : Entry} (h : e.known = true) :
    loadLine e.marshal
      = if maxScanTokenSize ≤ e.marshal.length then .error .tooLong
        else .ok e.coerced := by
  have hknown : e.coerced.known = true := h
  unfold loadLine
  rw [dropCR_printable e.marshal_printable, unmarshal_marshal h]
  dsimp only
  rw [if_pos hknown]

theorem Entry.coerced_eq_self {e : Entry} :
    e.coerced = e ↔ Valid e.key ∧ Valid e.value := by
  rw [← toValid_eq_self, ← toValid_eq_self]
  cases e
  simp [Entry.coerced]

theorem Entry.storable_iff {e : Entry} : e.Storable ↔ e.Short ∧ e.coerced = e := by
  rw [Entry.coerced_eq_self, Entry.Storable, Entry.Short]
  exact ⟨fun h => ⟨h.2.2, h.1, h.2.1⟩, fun h => ⟨h.2.1, h.2.2, h.1⟩⟩

theorem loadLine_marshal_ok {e x : Entry} (h : e.known = true) :
    loadLine e.marshal = .ok x ↔ e.Short ∧ x = e.coerced := by
  rw [loadLine_marshal h, Entry.Short]
  split
  · rename_i hlong
    refine iff_of_false (by simp) ?_
    rintro ⟨hshort, -⟩
    omega
  · rename_i hshort
    simp [Nat.not_le.mp hshort, eq_comm]

/-! ## Lists of lines -/

theorem loadLines_cons {line : Bytes} {lines : List Bytes} {es : List Entry} :
    loadLines (line :: lines) = .ok es
      ↔ ∃ e es', loadLine line = .ok e ∧ loadLines lines = .ok es' ∧ es = e :: es' := by
  rw [loadLines]
  cases loadLine line with
  | error err => simp
  | ok e =>
      cases loadLines lines with
      | error err => simp [Except.map]
      | ok es' => simp [Except.map, eq_comm]

theorem loadLines_append {lines lines' : List Bytes} {es : List Entry} :
    loadLines (lines ++ lines') = .ok es
      ↔ ∃ es₁ es₂, loadLines lines = .ok es₁ ∧ loadLines lines' = .ok es₂
        ∧ es = es₁ ++ es₂ := by
  induction lines generalizing es with
  | nil => simp [loadLines]
  | cons line lines ih =>
      rw [List.cons_append, loadLines_cons]
      constructor
      · rintro ⟨e, es', hline, hrest, rfl⟩
        obtain ⟨es₁, es₂, h₁, h₂, rfl⟩ := ih.mp hrest
        exact ⟨e :: es₁, es₂, loadLines_cons.mpr ⟨e, es₁, hline, h₁, rfl⟩, h₂, rfl⟩
      · rintro ⟨es₁, es₂, h₁, h₂, rfl⟩
        obtain ⟨e, es', hline, hrest, rfl⟩ := loadLines_cons.mp h₁
        exact ⟨e, es' ++ es₂, hline, ih.mpr ⟨es', es₂, hrest, h₂, rfl⟩, rfl⟩

theorem scanLines_record (e : Entry) (rest : Bytes) :
    scanLines (e.record ++ rest) = e.marshal :: scanLines rest := by
  rw [Entry.record, List.append_assoc]
  exact scanLines_line (newline_notMem e.marshal_printable) rest

theorem Entry.record_length (e : Entry) : e.record.length = e.marshal.length + 1 := by
  rw [Entry.record, List.length_append, List.length_singleton]

/-- A record up to a cut: the entry up to it, and perhaps the newline. -/
theorem Entry.record_take (e : Entry) (n : Nat) :
    ∃ rest, (rest = [] ∨ rest = [10]) ∧ e.record.take n = e.marshal.take n ++ rest := by
  have hlen := e.record_length
  rcases Nat.lt_or_ge e.marshal.length n with hall | hpart
  · refine ⟨[10], .inr rfl, ?_⟩
    rw [List.take_of_length_le (by omega), List.take_of_length_le (by omega), Entry.record]
  · refine ⟨[], .inl rfl, ?_⟩
    rw [Entry.record, List.take_append_of_le_length hpart, List.append_nil]

theorem loadLines_marshal {lines : List Bytes} {e : Entry} (he : e.known = true)
    {es : List Entry} :
    loadLines (lines ++ [e.marshal]) = .ok es
      ↔ e.Short ∧ ∃ es₀, loadLines lines = .ok es₀ ∧ es = es₀ ++ [e.coerced] := by
  rw [loadLines_append]
  constructor
  · rintro ⟨es₁, es₂, h₁, h₂, rfl⟩
    obtain ⟨x, xs, hx, hxs, rfl⟩ := loadLines_cons.mp h₂
    obtain ⟨hshort, rfl⟩ := (loadLine_marshal_ok he).mp hx
    cases hxs
    exact ⟨hshort, es₁, h₁, rfl⟩
  · rintro ⟨hshort, es₀, h₀, rfl⟩
    exact ⟨es₀, [e.coerced], h₀, loadLines_cons.mpr
      ⟨_, [], (loadLine_marshal_ok he).mpr ⟨hshort, rfl⟩, rfl, rfl⟩, rfl⟩

theorem records_append (es fs : List Entry) : records (es ++ fs) = records es ++ records fs := by
  rw [records, records, records, List.flatMap_append]

theorem records_cons (e : Entry) (es : List Entry) :
    records (e :: es) = e.record ++ records es := by
  rw [records, records, List.flatMap_cons]

/-! ## Appends that fail

An append that fails leaves any beginning of its record. The next one goes
on with the same line, which is then no JSON, however often that happens. -/

/-- A beginning of an entry may follow a cut, with what may follow it. -/
theorem resumes_piece (e : Entry) {n : Nat} (hn : 0 < n) {F : Bytes} (hF : Resumes F) :
    Resumes (e.marshal.take n ++ F) := by
  have hkey : escape Field.op.name = 111 :: [112] := by decide +kernel
  have hspace : isSpace 111 = false := by decide
  have hc : ¬ IsSeparator 111 := by
    simp [IsSeparator]
  rcases Nat.lt_or_ge n e.marshal.length with hcut | hwhole
  · obtain ⟨n, rfl⟩ : ∃ k, n = k + 1 := ⟨n - 1, by omega⟩
    have htext : e.marshal = 123 :: (writeMembers e.members ++ [125]) := rfl
    have hlen : n ≤ (writeMembers e.members).length := by
      rw [htext, List.length_cons, List.length_append, List.length_singleton] at hcut
      omega
    rw [htext, List.take_succ_cons, List.take_append_of_le_length hlen, List.cons_append]
    exact hF.cut_cons (m := (Field.op.name, e.op.text)) hkey hspace hc (List.take_prefix _ _)
  · rw [List.take_of_length_le hwhole]
    exact hF.whole_cons (m := (Field.op.name, e.op.text)) hkey hspace hc

/-- What there is of a record up to its closing brace, with nothing or with
other records behind it, is no JSON. -/
theorem parse_torn {e : Entry} {n : Nat} (hn : 0 < n) (hlen : n < e.marshal.length)
    {F : Bytes} (hF : Resumes F) : parse (e.marshal.take n ++ F) = none := by
  obtain ⟨n, rfl⟩ : ∃ k, n = k + 1 := ⟨n - 1, by omega⟩
  have htext : e.marshal = 123 :: (writeMembers e.members ++ [125]) := rfl
  have hlen' : n ≤ (writeMembers e.members).length := by
    rw [htext, List.length_cons, List.length_append, List.length_singleton] at hlen
    omega
  rw [htext, List.take_succ_cons, List.take_append_of_le_length hlen', List.cons_append]
  exact hF.object (List.take_prefix _ _)

/-- A whole entry with more behind it is none either. -/
theorem parse_unterminated (e f : Entry) {n : Nat} (hn : 0 < n) (F : Bytes) :
    parse (e.marshal ++ (f.marshal.take n ++ F)) = none := by
  obtain ⟨n, rfl⟩ : ∃ k, n = k + 1 := ⟨n - 1, by omega⟩
  refine parse_writeObject_append e.members_ne_nil ?_
  rw [Entry.marshal, writeObject, List.cons_append, List.take_succ_cons, List.cons_append,
    skipSpace_cons (by decide)]
  exact List.cons_ne_nil _ _

/-- What stands behind the last newline. -/
inductive OpenLine : Bytes → Prop where
  | nothing : OpenLine []
  | whole (e : Entry) : OpenLine e.marshal
  | torn {line : Bytes} (hne : line ≠ []) (hprint : ∀ b ∈ line, 32 ≤ b)
      (hbad : ∀ F, Resumes F → parse (line ++ F) = none) : OpenLine line

theorem OpenLine.printable {line : Bytes} (h : OpenLine line) : ∀ b ∈ line, 32 ≤ b := by
  cases h with
  | nothing => nofun
  | whole e => exact e.marshal_printable
  | torn hne hprint hbad => exact hprint

/-- A line that has something in it already is spoiled by the next append. -/
theorem OpenLine.spoiled {line : Bytes} (h : OpenLine line) (hne : line ≠ []) (e : Entry)
    {n : Nat} (hn : 0 < n) {F : Bytes} (hF : Resumes F) :
    parse (line ++ (e.marshal.take n ++ F)) = none := by
  cases h with
  | nothing => exact absurd rfl hne
  | whole e₀ => exact parse_unterminated e₀ e hn F
  | torn _ _ hbad => exact hbad _ (resumes_piece e hn hF)

theorem OpenLine.grow {line : Bytes} (h : OpenLine line) (e : Entry) (n : Nat) :
    OpenLine (line ++ e.marshal.take n) := by
  have htake : ∀ b ∈ e.marshal.take n, 32 ≤ b := fun b hb =>
    e.marshal_printable b (List.mem_of_mem_take hb)
  rcases Nat.eq_zero_or_pos n with rfl | hn
  · rw [List.take_zero, List.append_nil]
    exact h
  · by_cases hne : line = []
    · rw [hne, List.nil_append]
      rcases Nat.lt_or_ge n e.marshal.length with hcut | hwhole
      · refine .torn ?_ htake fun F hF => parse_torn hn hcut hF
        rw [Ne, List.take_eq_nil_iff, not_or]
        exact ⟨Nat.ne_of_gt hn, e.marshal_ne_nil⟩
      · rw [List.take_of_length_le hwhole]
        exact .whole e
    · refine .torn (by simp [hne]) ?_ ?_
      · intro b hb
        rcases List.mem_append.mp hb with hb | hb
        · exact h.printable b hb
        · exact htake b hb
      · intro F hF
        rw [List.append_assoc]
        exact h.spoiled hne e hn hF

/-- The files that calls of `Append` leave, whatever came of them. -/
inductive FileWal.Left : Bytes → Prop where
  | empty : Left []
  | append {file : Bytes} (h : Left file) (e : Entry) (out : AppendOutcome) :
      Left (FileWal.append file e out).1

/-- The file ends with a line, or is empty. -/
def Ended (file : Bytes) : Prop := file = [] ∨ file.getLast? = some 10

instance (file : Bytes) : Decidable (Ended file) :=
  inferInstanceAs (Decidable (file = [] ∨ file.getLast? = some 10))

theorem scanLines_lines {lines : List Bytes} (h : ∀ line ∈ lines, 10 ∉ line)
    (rest : Bytes) :
    scanLines (lines.flatMap (· ++ [10]) ++ rest) = lines ++ scanLines rest := by
  induction lines with
  | nil => rfl
  | cons line lines ih =>
      obtain ⟨hline, hlines⟩ := List.forall_mem_cons.mp h
      rw [List.flatMap_cons, List.append_assoc, List.append_assoc, List.singleton_append,
        scanLines_line hline, ih hlines, List.cons_append]

/-- Lines, and the beginning of one. -/
structure FileWal.Shape (file : Bytes) (lines : List Bytes) (line : Bytes) : Prop where
  eq : file = lines.flatMap (· ++ [10]) ++ line
  lines : ∀ l ∈ lines, 10 ∉ l
  line : OpenLine line

namespace FileWal

variable {file : Bytes} {lines : List Bytes} {line : Bytes}

theorem Shape.grow (h : Shape file lines line) (e : Entry) {n : Nat}
    (hn : n < e.record.length) :
    Shape (file ++ e.record.take n) lines (line ++ e.marshal.take n) := by
  refine ⟨?_, h.lines, h.line.grow e n⟩
  rw [e.record_length] at hn
  rw [h.eq, Entry.record, List.take_append_of_le_length (by omega), List.append_assoc]

theorem Shape.endLine (h : Shape file lines line) (e : Entry) :
    Shape (file ++ e.record) (lines ++ [line ++ e.marshal]) [] := by
  refine ⟨?_, ?_, .nothing⟩
  · rw [h.eq, List.flatMap_append, List.flatMap_singleton, Entry.record]
    simp only [List.append_assoc, List.append_nil]
  · intro l hl
    rcases List.mem_append.mp hl with hl | hl
    · exact h.lines l hl
    · rw [List.mem_singleton.mp hl, List.mem_append, not_or]
      exact ⟨newline_notMem h.line.printable, newline_notMem e.marshal_printable⟩

theorem Left.shape (h : Left file) : ∃ lines line, Shape file lines line := by
  induction h with
  | empty => exact ⟨[], [], rfl, nofun, .nothing⟩
  | @append file h e out ih =>
      obtain ⟨lines, line, hshape⟩ := ih
      have hwhole : ∃ lines line, Shape (file ++ e.record) lines line :=
        ⟨_, _, hshape.endLine e⟩
      unfold FileWal.append
      split
      · cases out with
        | ok => exact hwhole
        | shortWrite n =>
            rcases Nat.lt_or_ge n e.record.length with hn | hn
            · exact ⟨_, _, hshape.grow e hn⟩
            · dsimp only
              rw [List.take_of_length_le hn]
              exact hwhole
        | syncError => exact hwhole
      · exact ⟨lines, line, hshape⟩

theorem Shape.ended_iff (h : Shape file lines line) : Ended file ↔ line = [] := by
  constructor
  · intro hend
    by_contra hne
    obtain ⟨b, hb⟩ := Option.isSome_iff_exists.mp (List.getLast?_isSome.mpr hne)
    have hlast : file.getLast? = some b := by
      rw [h.eq, List.getLast?_append, hb]
      rfl
    rcases hend with rfl | hten
    · cases hlast
    · cases hlast.symm.trans hten
      exact newline_notMem h.line.printable (List.mem_of_getLast? hb)
  · rintro rfl
    rw [Ended, h.eq, List.append_nil]
    rcases List.eq_nil_or_concat lines with rfl | ⟨ls, l, rfl⟩
    · exact .inl rfl
    · refine .inr ?_
      rw [List.concat_eq_append, List.flatMap_append, List.flatMap_singleton,
        ← List.append_assoc, List.getLast?_concat]

/-- A line that is no JSON costs everything. -/
theorem load_spoiled (hlines : ∀ l ∈ lines, 10 ∉ l) (hprint : ∀ b ∈ line, 32 ≤ b)
    (hne : line ≠ []) (hparse : parse line = none) {rest : Bytes}
    (hrest : rest = [] ∨ rest = [10]) (es : List Entry) :
    load (lines.flatMap (· ++ [10]) ++ (line ++ rest)) ≠ .ok es := by
  intro hload
  rw [load, scanLines_lines hlines, scanLines_end hprint hne hrest] at hload
  obtain ⟨_, _, -, hline, -⟩ := loadLines_append.mp hload
  obtain ⟨_, _, hok, -, -⟩ := loadLines_cons.mp hline
  obtain ⟨err, herr⟩ := loadLine_bad hprint hparse
  cases hok.symm.trans herr

/-- What `Load` makes of one more append of which `n` bytes were written: it
comes back exactly where the file ended with a line, the entry is there up
to its closing brace, and its line is short. -/
theorem load_grown (h : Left file) {e : Entry} (he : e.known = true) {n : Nat} (hn : 0 < n)
    {es : List Entry} :
    load (file ++ e.record.take n) = .ok es
      ↔ Ended file ∧ e.marshal.length ≤ n ∧ e.Short
        ∧ ∃ es₀, load file = .ok es₀ ∧ es = es₀ ++ [e.coerced] := by
  obtain ⟨lines, line, hshape⟩ := h.shape
  obtain ⟨rest, hrest, htake⟩ := e.record_take n
  have htext : file ++ e.record.take n
      = lines.flatMap (· ++ [10]) ++ (line ++ e.marshal.take n ++ rest) := by
    rw [htake, hshape.eq]
    simp only [List.append_assoc]
  have htakePrint : ∀ b ∈ line ++ e.marshal.take n, 32 ≤ b := (hshape.line.grow e n).printable
  have htakeNe : e.marshal.take n ≠ [] := by
    rw [Ne, List.take_eq_nil_iff, not_or]
    exact ⟨Nat.ne_of_gt hn, e.marshal_ne_nil⟩
  rw [hshape.ended_iff]
  by_cases hline : line = []
  · subst hline
    rcases Nat.lt_or_ge n e.marshal.length with hcutLt | hwhole
    · -- torn before the closing brace
      refine iff_of_false ?_ fun h => absurd h.2.1 (Nat.not_le.mpr hcutLt)
      rw [htext]
      refine load_spoiled hshape.lines htakePrint (by simpa using htakeNe) ?_ hrest es
      have htorn := parse_torn hn hcutLt resumes_nil
      rwa [List.append_nil] at htorn
    · have hfile : load file = loadLines lines := by
        rw [load, hshape.eq, scanLines_lines hshape.lines, scanLines, List.append_nil]
      rw [htext, List.nil_append, List.take_of_length_le hwhole, load,
        scanLines_lines hshape.lines, scanLines_end e.marshal_printable e.marshal_ne_nil hrest,
        hfile, loadLines_marshal he]
      exact ⟨fun h => ⟨rfl, hwhole, h⟩, fun h => h.2.2⟩
  · -- the line had something in it
    refine iff_of_false ?_ fun h => hline h.1
    rw [htext]
    refine load_spoiled hshape.lines htakePrint (by simp [hline]) ?_ hrest es
    have hspoiled := hshape.line.spoiled hline e hn resumes_nil
    rwa [List.append_nil] at hspoiled

theorem left_record (h : Left file) {e : Entry} (he : e.known = true) :
    Left (file ++ e.record) := by
  have hleft := h.append e .ok
  rwa [FileWal.append, if_pos he] at hleft

theorem left_records (h : Left file) {es : List Entry} (hes : ∀ e ∈ es, e.known = true) :
    Left (file ++ records es) := by
  induction es generalizing file with
  | nil => rwa [records, List.flatMap_nil, List.append_nil]
  | cons e es ih =>
      obtain ⟨he, hes⟩ := List.forall_mem_cons.mp hes
      rw [records_cons, ← List.append_assoc]
      exact ih (left_record h he) hes

/-- A cut record leaves a line open. -/
theorem not_ended_take (h : Left file) (e : Entry) {n : Nat} (hpos : 0 < n)
    (hn : n < e.record.length) : ¬ Ended (file ++ e.record.take n) := by
  obtain ⟨lines, line, hshape⟩ := h.shape
  rw [(hshape.grow e hn).ended_iff, List.append_eq_nil_iff, List.take_eq_nil_iff]
  rintro ⟨-, rfl | hnil⟩
  · exact Nat.lt_irrefl 0 hpos
  · exact e.marshal_ne_nil hnil

theorem ended_record (file : Bytes) (e : Entry) : Ended (file ++ e.record) := by
  refine .inr ?_
  rw [Entry.record, ← List.append_assoc, List.getLast?_concat]

theorem ended_records (es : List Entry) : Ended (records es) := by
  rcases List.eq_nil_or_concat es with rfl | ⟨es, e, rfl⟩
  · exact .inl rfl
  · have hlast : records [e] = e.record := List.append_nil _
    rw [List.concat_eq_append, records_append, hlast]
    exact ended_record _ e

/-- The same for appends that went well, behind any others. -/
theorem load_records_append {es fs : List Entry} (h : Left file)
    (hes : ∀ e ∈ es, e.known = true) :
    load (file ++ records es) = .ok fs
      ↔ (es = [] ∨ Ended file) ∧ (∀ e ∈ es, e.Short)
        ∧ ∃ fs₀, load file = .ok fs₀ ∧ fs = fs₀ ++ es.map Entry.coerced := by
  induction es generalizing file with
  | nil => simp [records]
  | cons e es ih =>
      obtain ⟨he, hes⟩ := List.forall_mem_cons.mp hes
      have hgrown : ∀ fs₁, load (file ++ e.record) = .ok fs₁ ↔ Ended file ∧ e.Short
          ∧ ∃ fs₀, load file = .ok fs₀ ∧ fs₁ = fs₀ ++ [e.coerced] := by
        intro fs₁
        have hlen : e.marshal.length ≤ e.record.length := by simp [e.record_length]
        have hpos : 0 < e.record.length := by simp [e.record_length]
        have hload : load (file ++ e.record.take e.record.length) = .ok fs₁ ↔ _ :=
          load_grown h he hpos
        rw [List.take_length] at hload
        rw [hload]
        simp [hlen]
      rw [records_cons, ← List.append_assoc, ih (left_record h he) hes,
        List.forall_mem_cons]
      constructor
      · rintro ⟨-, hshort, fs₁, h₁, rfl⟩
        obtain ⟨hend, he', fs₀, h₀, rfl⟩ := (hgrown fs₁).mp h₁
        exact ⟨.inr hend, ⟨he', hshort⟩, fs₀, h₀, by simp⟩
      · rintro ⟨hend, ⟨he', hshort⟩, fs₀, h₀, rfl⟩
        refine ⟨.inr (ended_record file e), hshort, fs₀ ++ [e.coerced], ?_, by simp⟩
        exact (hgrown _).mpr ⟨hend.resolve_left (List.cons_ne_nil _ _), he', fs₀, h₀, rfl⟩

end FileWal

/-! ## Files of whole records -/

/-- What comes back of whole records. -/
theorem load_records_ok {es fs : List Entry} (h : ∀ e ∈ es, e.known = true) :
    FileWal.load (records es) = .ok fs
      ↔ (∀ e ∈ es, e.Short) ∧ fs = es.map Entry.coerced := by
  have hload : FileWal.load ([] ++ records es) = .ok fs ↔ _ :=
    FileWal.load_records_append .empty h
  rw [List.nil_append] at hload
  rw [hload]
  simp [Ended, FileWal.load, scanLines, loadLines]

/-- The first line that is too long is the end of it. -/
theorem load_records_tooLong {es : List Entry} (h : ∀ e ∈ es, e.known = true)
    (hlong : ∃ e ∈ es, ¬ e.Short) : FileWal.load (records es) = .error .tooLong := by
  induction es with
  | nil =>
      obtain ⟨e, he, -⟩ := hlong
      cases he
  | cons e es ih =>
      obtain ⟨hknown, hes⟩ := List.forall_mem_cons.mp h
      rw [FileWal.load, records_cons, scanLines_record, loadLines, loadLine_marshal hknown]
      by_cases he : e.Short
      · have hrest : ∃ x ∈ es, ¬ x.Short := by
          obtain ⟨x, hx, hxlong⟩ := hlong
          rcases List.mem_cons.mp hx with rfl | hx
          · exact absurd he hxlong
          · exact ⟨x, hx, hxlong⟩
        rw [if_neg (Nat.not_le.mpr he)]
        show (FileWal.load (records es)).map _ = _
        rw [ih hes hrest]
        rfl
      · rw [if_pos (Nat.not_lt.mp he)]

theorem coerced_all_eq_self {es : List Entry} :
    es = es.map Entry.coerced ↔ ∀ e ∈ es, e.coerced = e := by
  have hid : es = es.map id := es.map_id.symm
  rw [eq_comm]
  nth_rewrite 2 [hid]
  rw [List.map_inj_left]
  rfl

theorem load_records_iff {es : List Entry} (h : ∀ e ∈ es, e.known = true) :
    FileWal.load (records es) = .ok es ↔ ∀ e ∈ es, e.Storable := by
  simp only [load_records_ok h, coerced_all_eq_self, Entry.storable_iff, forall_and]

/-- The log of `Store`, as bytes. -/
theorem load_records {es : List Entry} (h : ∀ e ∈ es, e.known = true ∧ e.Storable) :
    FileWal.load (records es) = .ok es :=
  (load_records_iff fun e he => (h e he).1).mpr fun e he => (h e he).2

theorem FileWal.append_nil {file file' : Bytes} {e : Entry} {out : AppendOutcome}
    (h : FileWal.append file e out = (file', none)) :
    e.known = true ∧ file' = file ++ e.record := by
  unfold FileWal.append at h
  split at h
  · cases out with
    | ok =>
        cases h
        exact ⟨‹_›, rfl⟩
    | shortWrite written => cases h
    | syncError => cases h
  · cases h

theorem FileWal.append_short {file file' : Bytes} {e : Entry} {n : Nat}
    (h : FileWal.append file e (.shortWrite n) = (file', some .io)) :
    e.known = true ∧ file' = file ++ e.record.take n := by
  unfold FileWal.append at h
  split at h
  · cases h
    exact ⟨‹_›, rfl⟩
  · cases h

theorem FileWal.appendAll_some {file file' : Bytes} {calls : List (Entry × AppendOutcome)}
    (h : FileWal.appendAll file calls = some file') :
    (∀ e ∈ calls.map Prod.fst, e.known = true)
      ∧ file' = file ++ records (calls.map Prod.fst) := by
  induction calls generalizing file with
  | nil =>
      cases h
      simp [records]
  | cons c calls ih =>
      obtain ⟨e, out⟩ := c
      rw [FileWal.appendAll] at h
      split at h
      · rename_i file₁ happend
        obtain ⟨hknown, rfl⟩ := FileWal.append_nil happend
        obtain ⟨hcalls, rfl⟩ := ih h
        refine ⟨List.forall_mem_cons.mpr ⟨hknown, hcalls⟩, ?_⟩
        rw [List.map_cons, records, records, List.flatMap_cons, List.append_assoc]
      · cases h

/-- After appends that returned nil, `Load` returns exactly what was
appended where every key and value is valid UTF-8 and every line is short,
and only there. -/
theorem load_appended_iff {calls : List (Entry × AppendOutcome)} {file : Bytes}
    (h : FileWal.appendAll [] calls = some file) :
    FileWal.load file = .ok (calls.map Prod.fst)
      ↔ ∀ e ∈ calls.map Prod.fst, e.Storable := by
  obtain ⟨hknown, rfl⟩ := FileWal.appendAll_some h
  rw [List.nil_append]
  exact load_records_iff hknown

/-- A value with a quote, markup, a newline and a character of two bytes,
and a delete. -/
def escapedCalls : List (Entry × AppendOutcome) :=
  [(⟨.upsert, [97], [34, 60, 10, 195, 169]⟩, .ok), (⟨.delete, [97], []⟩, .ok)]

theorem load_appended_iff_escaped :
    ∃ file, FileWal.appendAll [] escapedCalls = some file
      ∧ FileWal.load file = .ok (escapedCalls.map Prod.fst) :=
  ⟨_, rfl, (load_appended_iff rfl).mpr (by decide +kernel)⟩

theorem Entry.value_length_le (e : Entry) : e.value.length ≤ e.marshal.length := by
  by_cases hvalue : e.value = []
  · simp [hvalue]
  · have hescape := length_le_escape e.value
    simp only [Entry.marshal, Entry.members, if_neg hvalue, writeObject, writeMembers,
      writeMember, quote, List.length_append, List.length_cons]
    omega

/-- A byte that is no UTF-8 comes back as three others, and a value of
64 KiB does not come back at all. -/
theorem load_unlike_appended :
    (∃ file, FileWal.appendAll [] [(⟨.upsert, [255], [49]⟩, .ok)] = some file
      ∧ FileWal.load file = .ok [⟨.upsert, [239, 191, 189], [49]⟩])
    ∧ ∃ file, FileWal.appendAll []
        [(⟨.upsert, [97], List.replicate 65536 98⟩, .ok)] = some file
      ∧ FileWal.load file = .error .tooLong := by
  refine ⟨⟨_, rfl, by decide +kernel⟩, _, rfl, ?_⟩
  have hlong := Entry.value_length_le ⟨.upsert, [97], List.replicate 65536 98⟩
  rw [List.length_replicate] at hlong
  have hwhole : ∀ e : Entry, [] ++ e.record = records [e] := fun e => (List.append_nil _).symm
  rw [hwhole]
  exact load_records_tooLong (List.forall_mem_singleton.mpr rfl)
    ⟨_, List.mem_singleton_self _, Nat.not_lt.mpr hlong⟩

/-! ## A record cut short -/

/-- One append was cut short after `n` bytes of its record, between appends
that returned nil. `Load` returns them all, with at most the torn entry
among them, just when they come back by themselves and nothing of the record
was written, or only its newline is missing and nothing was appended since. -/
theorem torn_append_iff {before after : List (Entry × AppendOutcome)} {e : Entry}
    {n : Nat} {file torn file' : Bytes}
    (hbefore : FileWal.appendAll [] before = some file)
    (htorn : FileWal.append file e (.shortWrite n) = (torn, some .io))
    (hn : n < e.record.length) (hafter : FileWal.appendAll torn after = some file') :
    (∃ es, FileWal.load file' = .ok es
        ∧ (es = before.map Prod.fst ++ after.map Prod.fst
          ∨ es = before.map Prod.fst ++ e :: after.map Prod.fst))
      ↔ (∀ x ∈ (before ++ after).map Prod.fst, x.Storable)
        ∧ (n = 0 ∨ (n + 1 = e.record.length ∧ after = [] ∧ e.Storable)) := by
  obtain ⟨hknown, rfl⟩ := FileWal.appendAll_some hbefore
  obtain ⟨hknown', rfl⟩ := FileWal.appendAll_some hafter
  obtain ⟨he, rfl⟩ := FileWal.append_short htorn
  rw [List.map_append, ← List.map_eq_nil_iff (f := Prod.fst)]
  generalize before.map Prod.fst = bs at *
  generalize after.map Prod.fst = as at *
  rw [List.nil_append]
  rcases Nat.eq_zero_or_pos n with rfl | hpos
  · -- nothing was written
    have hall : ∀ x ∈ bs ++ as, x.known = true := List.forall_mem_append.mpr ⟨hknown, hknown'⟩
    rw [List.take_zero, List.append_nil, ← records_append, ← load_records_iff hall]
    constructor
    · rintro ⟨es, hload, hes⟩
      obtain ⟨-, rfl⟩ := (load_records_ok hall).mp hload
      rcases hes with hes | hes
      · exact ⟨hload.trans (congrArg _ hes), .inl rfl⟩
      · have hlen := congrArg List.length hes
        simp at hlen
    · rintro ⟨hload, -⟩
      exact ⟨_, hload, .inl rfl⟩
  · have hleft : FileWal.Left (records bs) := FileWal.left_records .empty hknown
    have htorn' : FileWal.Left (records bs ++ e.record.take n) := by
      have happend := hleft.append e (.shortWrite n)
      rwa [FileWal.append, if_pos he] at happend
    have hlen := e.record_length
    by_cases has : as = []
    · -- the record is the last there is
      subst has
      simp only [records, List.flatMap_nil, List.append_nil, Entry.storable_iff (e := e)]
      rw [← records, ← load_records_iff hknown]
      constructor
      · rintro ⟨es, hload, hes⟩
        obtain ⟨-, hwhole, hshort, es₀, h₀, rfl⟩ := (FileWal.load_grown hleft he hpos).mp hload
        have hsame : es₀.length = bs.length := by
          rw [((load_records_ok hknown).mp h₀).2, List.length_map]
        rcases hes with hes | hes
        · have := congrArg List.length hes
          simp [hsame] at this
        · obtain ⟨rfl, hcoerced⟩ := List.append_inj hes hsame
          exact ⟨h₀, .inr ⟨by omega, trivial, hshort, (List.cons.inj hcoerced).1⟩⟩
      · rintro ⟨h₀, hzero | ⟨hnewline, -, hshort, hcoerced⟩⟩
        · omega
        · refine ⟨bs ++ [e.coerced], (FileWal.load_grown hleft he hpos).mpr
            ⟨FileWal.ended_records bs, by omega, hshort, bs, h₀, rfl⟩, .inr ?_⟩
          rw [hcoerced]
    · -- another record goes on with the line
      refine iff_of_false ?_ ?_
      · rintro ⟨es, hload, -⟩
        obtain ⟨hend, -⟩ := (FileWal.load_records_append htorn' hknown').mp hload
        rcases hend with hnil | hend
        · exact has hnil
        · exact FileWal.not_ended_take hleft e hpos hn hend
      · rintro ⟨-, hzero | ⟨-, hnil, -⟩⟩
        · omega
        · exact has hnil

/-- A third record is cut off before its newline. -/
theorem torn_append_iff_newline :
    ∃ file torn, FileWal.appendAll [] escapedCalls = some file
      ∧ FileWal.append file ⟨.upsert, [98], [50]⟩ (.shortWrite 37) = (torn, some .io)
      ∧ ∃ es, FileWal.load torn = .ok es
        ∧ (es = escapedCalls.map Prod.fst
          ∨ es = escapedCalls.map Prod.fst ++ [⟨.upsert, [98], [50]⟩]) := by
  obtain ⟨file, hbefore⟩ : ∃ file, FileWal.appendAll [] escapedCalls = some file :=
    ⟨_, rfl⟩
  obtain ⟨torn, htorn⟩ : ∃ torn, FileWal.append file ⟨.upsert, [98], [50]⟩
      (.shortWrite 37) = (torn, some .io) := ⟨_, rfl⟩
  have hafter : FileWal.appendAll torn [] = some torn := rfl
  have h := (torn_append_iff hbefore htorn (by decide +kernel) hafter).mpr
    ⟨by decide +kernel, .inr (by decide +kernel)⟩
  simp only [List.map_nil, List.append_nil] at h
  exact ⟨file, torn, hbefore, htorn, h⟩

/-- Five bytes of a record make the entry before it unreadable, with and
without a later append. -/
theorem torn_record_fatal :
    FileWal.load (records [⟨.upsert, [97], [49]⟩]
        ++ (Entry.record ⟨.upsert, [98], [50]⟩).take 5) = .error .badLine
      ∧ FileWal.load (records [⟨.upsert, [97], [49]⟩]
        ++ (Entry.record ⟨.upsert, [98], [50]⟩).take 5
        ++ records [⟨.upsert, [99], [51]⟩]) = .error .badLine := by
  decide +kernel

end RaftStore
