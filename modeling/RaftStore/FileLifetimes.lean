import RaftStore.FileStore
import RaftStore.Lifetimes

/-!
# Lifetimes on the bytes of the files

The processes of `Lifetimes` on the store of `FileStore`: `Append` adds a
line of JSON, `Save` writes the JSON of the whole map and renames it, a
start reads both files with their decoders, and a crash during a write
leaves any part of it behind. The system calls may fail, and each process
has its own log and snapshot settings.

The machine of `Lifetimes` follows each step (`Represents.step`), so that
what is known of it holds of the bytes (`represents_reachable`). The map may
be cut anywhere, since a temporary file that was not renamed is never read.
The log may not be cut inside a line (`torn_append_iff` says what happens
then), entries from callers must be text, and their lines short where there
is a log; commands that come from the replicated log are text in any case,
since they were decoded (`unmarshalEntry_text`).
-/

namespace RaftStore

open Runs Utf8

/-! ## The machine on bytes -/

inductive ByteLoc where
  | append
  | apply
  | writeTmp (payload : Bytes)
  | rename
  | ret (err : Option StoreError)
  deriving DecidableEq

structure ByteMachine where
  disk : ByteDisk
  store : Option ByteStore
  writer : Option (Entry × ByteLoc)
  received : List Command
  reached : Nat
  history : List StoreEvent

inductive ByteAction where
  | start (wal snapshot : Device)
  | upsert (key value : Bytes)
  | delete (key : Bytes)
  | deliver (cmd : Command)
  | append (out : AppendOutcome)
  | apply
  | writeTmp (ok : Bool)
  | rename (ok : Bool)
  | ret
  /-- `written` bytes of what was being written have reached the file. -/
  | crash (written : Nat)
  deriving DecidableEq

namespace ByteMachine

def init : ByteMachine := ⟨.empty, none, none, [], 0, []⟩

def start (b : ByteMachine) (wal snapshot : Device) : Option ByteMachine :=
  match b.store, newStoreFromBytes wal snapshot b.disk with
  | none, .ok s => some { b with store := some s }
  | _, _ => none

def call (b : ByteMachine) (e : Entry) : Option ByteMachine :=
  match b.store, b.writer with
  | some _, none =>
      if e.key = [] then
        some { b with history := .returned e (some .emptyKey) :: b.history }
      else some { b with writer := some (e, .append) }
  | _, _ => none

/-- One command of `RunApplyLoop`, up to the lock. -/
def deliver (b : ByteMachine) (cmd : Command) : Option ByteMachine :=
  match b.store, b.writer with
  | some _, none =>
      let b := { b with received := b.received ++ [cmd] }
      match unmarshalEntry cmd with
      | none => some b
      | some e =>
          if e.key = [] then some b
          else
            match e.op with
            | .delete => b.call ⟨.delete, e.key, []⟩
            | .upsert => b.call ⟨.upsert, e.key, e.value⟩
            | .other _ => some b
  | _, _ => none

def append (b : ByteMachine) (out : AppendOutcome) : Option ByteMachine :=
  match b.store, b.writer with
  | some s, some (e, .append) =>
      let r := s.wal.appendBytes e out b.disk
      some { b with
        disk := r.1
        writer := some (e,
          match r.2 with
          | none => .apply
          | some err => .ret (some err)) }
  | _, _ => none

def apply (b : ByteMachine) : Option ByteMachine :=
  match b.store, b.writer with
  | some s, some (e, .apply) =>
      let r := (s.applyLocked e).countWrite
      some { b with
        store := some r.1
        writer := some (e, if r.2 then .writeTmp r.1.data.marshal else .ret none) }
  | _, _ => none

def writeTmp (b : ByteMachine) (ok : Bool) : Option ByteMachine :=
  match b.store, b.writer with
  | some s, some (e, .writeTmp payload) =>
      let r := s.snapshot.writeTmpBytes payload ok b.disk
      some { b with
        disk := r.1
        writer := some (e,
          match r.2 with
          | none => .rename
          | some err => .ret (some err)) }
  | _, _ => none

def rename (b : ByteMachine) (ok : Bool) : Option ByteMachine :=
  match b.store, b.writer with
  | some s, some (e, .rename) =>
      let r := s.snapshot.renameBytes ok b.disk
      some { b with disk := r.1, writer := some (e, .ret r.2) }
  | _, _ => none

def ret (b : ByteMachine) : Option ByteMachine :=
  match b.writer with
  | some (e, .ret err) =>
      some { b with writer := none, history := .returned e err :: b.history }
  | _ => none

/-- The files after a crash: one that was being written is cut anywhere. -/
def cut (b : ByteMachine) (written : Nat) : ByteDisk :=
  match b.store, b.writer with
  | some s, some (e, .append) =>
      if s.wal = .file then { b.disk with wal := b.disk.wal ++ e.record.take written }
      else b.disk
  | some s, some (_, .writeTmp payload) =>
      if s.snapshot = .file then { b.disk with tmp := some (payload.take written) }
      else b.disk
  | _, _ => b.disk

def crash (b : ByteMachine) (written : Nat) : Option ByteMachine :=
  match b.store with
  | some _ => some {
      disk := b.cut written
      store := none
      writer := none
      received := []
      reached := max b.reached b.received.length
      history := .crashed (b.writer.map Prod.fst) :: b.history }
  | none => none

def step (b : ByteMachine) : ByteAction → Option ByteMachine
  | .start wal snapshot => b.start wal snapshot
  | .upsert key value => b.call ⟨.upsert, key, value⟩
  | .delete key => b.call ⟨.delete, key, []⟩
  | .deliver cmd => b.deliver cmd
  | .append out => b.append out
  | .apply => b.apply
  | .writeTmp ok => b.writeTmp ok
  | .rename ok => b.rename ok
  | .ret => b.ret
  | .crash written => b.crash written

/-- The process writes a log. -/
def logs (b : ByteMachine) : Bool := b.store.any fun s => s.wal = .file

end ByteMachine

/-! ## Steps that the files survive -/

/-- The entry that `Apply` passes on: a delete has no value. -/
def Entry.persisted (e : Entry) : Entry :=
  ⟨e.op, e.key, if e.op = .delete then [] else e.value⟩

def Entry.IsText (e : Entry) : Prop := Utf8.Valid e.key ∧ Utf8.Valid e.value

instance (e : Entry) : Decidable e.IsText :=
  inferInstanceAs (Decidable (Utf8.Valid e.key ∧ Utf8.Valid e.value))

/-- A log that gets the entry can be read again. -/
def ByteMachine.takes (b : ByteMachine) (e : Entry) : Prop := b.logs = true → e.Short

instance (b : ByteMachine) (e : Entry) : Decidable (b.takes e) :=
  inferInstanceAs (Decidable (b.logs = true → e.Short))

/-- Of the line that is being written, all of it or nothing is in the log. -/
def ByteMachine.wholeLine (b : ByteMachine) (written : Nat) : Bool :=
  match b.writer with
  | some (e, .append) => !b.logs || written = 0 || e.record.length ≤ written
  | _ => true

/-- Entries from outside are text, the line of an entry that goes to a log
is short, and none is cut. -/
def storableStep (b : ByteMachine) : ByteAction → Prop
  | .upsert key value => (Entry.mk .upsert key value).IsText ∧ b.takes ⟨.upsert, key, value⟩
  | .delete key => (Entry.mk .delete key []).IsText ∧ b.takes ⟨.delete, key, []⟩
  | .deliver cmd => ∀ e ∈ unmarshalEntry cmd, b.takes e.persisted
  | .append (.shortWrite written) => b.wholeLine written = true
  | .crash written => b.wholeLine written = true
  | _ => True

instance (b : ByteMachine) : (a : ByteAction) → Decidable (storableStep b a)
  | .upsert _ _ => inferInstanceAs (Decidable (_ ∧ _))
  | .delete _ => inferInstanceAs (Decidable (_ ∧ _))
  | .deliver _ => inferInstanceAs (Decidable (∀ _ ∈ _, _))
  | .append (.shortWrite _) => inferInstanceAs (Decidable (_ = true))
  | .crash _ => inferInstanceAs (Decidable (_ = true))
  | .append .ok | .append .syncError => inferInstanceAs (Decidable True)
  | .start _ _ | .apply | .writeTmp _ | .rename _ | .ret => inferInstanceAs (Decidable True)

/-! ## Decoded entries are text -/

theorem literal_value {word bs rest : Bytes} {v w : Json.Value}
    (h : Json.literal word w bs = some (v, rest)) : v = w := by
  unfold Json.literal at h
  split at h <;> cases h
  rfl

/-- What a value can be: a string is text, and an object has members that
were read. -/
theorem valueWith_cases {inner : Option (Json.Parser Json.Value)} {bs rest : Bytes}
    {v : Json.Value} (h : Json.valueWith inner bs = some (v, rest)) :
    (∃ s, v = .string s ∧ Valid s) ∨ v = .object []
      ∨ (∃ value fuel bs' ms, inner = some value
        ∧ Json.members value fuel bs' = some (ms, rest) ∧ v = .object ms)
      ∨ (∀ s, v ≠ .string s) ∧ ∀ ms, v ≠ .object ms := by
  unfold Json.valueWith at h
  split at h
  · cases h
  split at h
  · obtain ⟨value, hinner, hobject⟩ := Option.bind_eq_some_iff.mp h
    split at hobject
    · cases hobject
      exact .inr (.inl rfl)
    · obtain ⟨⟨ms, rest'⟩, hms, heq⟩ := Option.map_eq_some_iff.mp hobject
      cases heq
      exact .inr (.inr (.inl ⟨value, _, _, ms, hinner, hms, rfl⟩))
  split at h
  · obtain ⟨value, -, harray⟩ := Option.bind_eq_some_iff.mp h
    refine .inr (.inr (.inr ?_))
    split at harray
    · cases harray
      exact ⟨nofun, nofun⟩
    · obtain ⟨_, -, heq⟩ := Option.map_eq_some_iff.mp harray
      cases heq
      exact ⟨nofun, nofun⟩
  split at h
  · obtain ⟨⟨s, rest'⟩, hstring, heq⟩ := Option.map_eq_some_iff.mp h
    obtain ⟨_, -, hvalid⟩ := Option.map_eq_some_iff.mp hstring
    cases heq
    cases hvalid
    exact .inl ⟨_, rfl, valid_toValid _⟩
  split at h
  · cases literal_value h
    exact .inr (.inr (.inr ⟨nofun, nofun⟩))
  split at h
  · cases literal_value h
    exact .inr (.inr (.inr ⟨nofun, nofun⟩))
  split at h
  · cases literal_value h
    exact .inr (.inr (.inr ⟨nofun, nofun⟩))
  · obtain ⟨_, -, heq⟩ := Option.map_eq_some_iff.mp h
    cases heq
    exact .inr (.inr (.inr ⟨nofun, nofun⟩))

/-- If the value is a string, it is text. -/
def TextValue (v : Json.Value) : Prop := ∀ s, v = .string s → Valid s

theorem value_text {depth : Nat} {bs rest : Bytes} {v : Json.Value}
    (h : Json.value depth bs = some (v, rest)) : TextValue v := by
  have hwith : ∀ inner, Json.valueWith inner bs = some (v, rest) → TextValue v := by
    rintro inner h s rfl
    rcases valueWith_cases h with ⟨s', heq, hs'⟩ | heq | ⟨_, _, _, _, -, -, heq⟩ | ⟨hne, -⟩
    · cases heq
      exact hs'
    · cases heq
    · cases heq
    · exact absurd rfl (hne s)
  cases depth with
  | zero => exact hwith _ h
  | succ depth => exact hwith _ h

theorem members_text {depth fuel : Nat} {bs rest : Bytes} {ms : List (Bytes × Json.Value)}
    (h : Json.members (Json.value depth) fuel bs = some (ms, rest)) :
    ∀ m ∈ ms, TextValue m.2 := by
  induction fuel generalizing bs ms with
  | zero => cases h
  | succ fuel ih =>
      rw [Json.members] at h
      simp only [Option.bind_eq_some_iff] at h
      obtain ⟨_, -, ⟨key, _⟩, -, _, -, ⟨v, bs'⟩, hv, hrest⟩ := h
      dsimp only at hrest
      have htext := value_text hv
      split at hrest
      · obtain ⟨⟨ms', rest'⟩, hms', heq⟩ := Option.map_eq_some_iff.mp hrest
        cases heq
        exact List.forall_mem_cons.mpr ⟨htext, ih hms'⟩
      · obtain ⟨_, -, heq⟩ := Option.map_eq_some_iff.mp hrest
        cases heq
        exact List.forall_mem_singleton.mpr htext

theorem object_text {depth : Nat} {bs rest : Bytes} {ms : List (Bytes × Json.Value)}
    (h : Json.value depth bs = some (.object ms, rest)) : ∀ m ∈ ms, TextValue m.2 := by
  cases depth with
  | zero =>
      rcases valueWith_cases h with ⟨_, heq, -⟩ | heq | ⟨_, _, _, _, hinner, -, -⟩ | ⟨-, hne⟩
      · cases heq
      · cases heq
        exact nofun
      · cases hinner
      · exact absurd rfl (hne ms)
  | succ depth =>
      rcases valueWith_cases h with
        ⟨_, heq, -⟩ | heq | ⟨_, _, _, _, hinner, hms, heq⟩ | ⟨-, hne⟩
      · cases heq
      · cases heq
        exact nofun
      · cases hinner
        cases heq
        exact members_text hms
      · exact absurd rfl (hne ms)

theorem setMember_text {e e' : Entry} {m : Bytes × Json.Value}
    (h : e.setMember m = some e') (htext : TextValue m.2)
    (he : Valid e.key ∧ Valid e.value) : Valid e'.key ∧ Valid e'.value := by
  unfold Entry.setMember at h
  split at h
  · cases h
    exact he
  · cases h
    exact he
  · rename_i f s _ hs
    cases h
    have hs' := htext s hs
    cases f with
    | op => exact he
    | key => exact ⟨hs', he.2⟩
    | value => exact ⟨he.1, hs'⟩
  · cases h

theorem unmarshalEntry_text {cmd : Command} {e : Entry} (h : unmarshalEntry cmd = some e) :
    e.IsText := by
  have hzero : Valid Entry.zero.key ∧ Valid Entry.zero.value := ⟨⟨[], rfl⟩, ⟨[], rfl⟩⟩
  have hfold : ∀ (ms : List (Bytes × Json.Value)) (e₀ : Entry),
      (∀ m ∈ ms, TextValue m.2) → Valid e₀.key ∧ Valid e₀.value →
      ms.foldlM Entry.setMember e₀ = some e → Valid e.key ∧ Valid e.value := by
    intro ms
    induction ms with
    | nil =>
        intro e₀ _ he₀ h
        cases h
        exact he₀
    | cons m ms ih =>
        intro e₀ hms he₀ h
        obtain ⟨hm, hms⟩ := List.forall_mem_cons.mp hms
        rw [List.foldlM_cons] at h
        obtain ⟨e₁, he₁, hrest⟩ := Option.bind_eq_some_iff.mp h
        exact ih e₁ hms (setMember_text he₁ hm he₀) hrest
  unfold unmarshalEntry at h
  split at h
  · cases h
    exact hzero
  · rename_i ms hparse
    obtain ⟨⟨v, rest⟩, hvalue, hv⟩ := Option.bind_eq_some_iff.mp hparse
    dsimp only at hv
    split at hv
    · cases hv
      exact hfold ms _ (object_text hvalue) hzero h
    · cases hv
  · cases h

/-! ## The bytes and what they stand for -/

/-- The file is the JSON of a map of text, or there is none. -/
def FileHolds (file : Option Bytes) (st : Option Data) : Prop :=
  file = none ∧ st = none
    ∨ ∃ m : GoMap, m.IsText ∧ file = some m.marshal ∧ st = some m.get

/-- The writer is at the same point; a temporary file is whole where it is
about to be renamed. -/
inductive WriterHolds (s : ByteStore) (tmp : Option Bytes) (dtmp : Option Data) :
    Option (Entry × ByteLoc) → Option Writer → Prop where
  | idle : WriterHolds s tmp dtmp none none
  | append {e : Entry} (hknown : e.known = true) (htext : e.IsText)
      (hshort : s.wal = .file → e.Short) :
      WriterHolds s tmp dtmp (some (e, .append)) (some ⟨e, .append⟩)
  | apply {e : Entry} (htext : e.IsText) :
      WriterHolds s tmp dtmp (some (e, .apply)) (some ⟨e, .apply⟩)
  | writeTmp {e : Entry} {m : GoMap} (htext : m.IsText) :
      WriterHolds s tmp dtmp (some (e, .writeTmp m.marshal)) (some ⟨e, .writeTmp m.get⟩)
  | rename {e : Entry} (htmp : s.snapshot = .file → FileHolds tmp dtmp) :
      WriterHolds s tmp dtmp (some (e, .rename)) (some ⟨e, .rename⟩)
  | ret {e : Entry} {err : Option StoreError} :
      WriterHolds s tmp dtmp (some (e, .ret err)) (some ⟨e, .ret err⟩)

structure Represents (b : ByteMachine) (m : Machine) : Prop where
  wal : b.disk.wal = records m.disk.wal
  entries : ∀ e ∈ m.disk.wal, e.known = true ∧ e.Storable
  snapshot : FileHolds b.disk.snapshot m.disk.snapshot
  store : m.store = b.store.map ByteStore.toStore
  received : b.received = m.received
  reached : b.reached = m.reached
  history : b.history = m.history
  down : b.store = none → b.writer = none ∧ m.writer = none
  up : ∀ s, b.store = some s →
    s.data.IsText ∧ WriterHolds s b.disk.tmp m.disk.tmp b.writer m.writer

theorem represents_init : Represents .init .init where
  wal := rfl
  entries := nofun
  snapshot := .inl ⟨rfl, rfl⟩
  store := rfl
  received := rfl
  reached := rfl
  history := rfl
  down _ := ⟨rfl, rfl⟩
  up := nofun

/-! ## Starting -/

theorem GoMap.isText_delete {m : GoMap} (h : m.IsText) (k : Bytes) : (m.delete k).IsText := by
  intro k' v hget
  rw [GoMap.get_delete] at hget
  by_cases hk : k' = k
  · rw [hk, Function.update_self] at hget
    cases hget
  · rw [Function.update_of_ne hk] at hget
    exact h k' v hget

theorem ByteStore.applyLocked_text {s : ByteStore} (h : s.data.IsText) {e : Entry}
    (he : e.IsText) : (s.applyLocked e).data.IsText := by
  unfold ByteStore.applyLocked
  dsimp only
  split
  · exact GoMap.isText_delete h _
  · exact GoMap.isText_set h he.1 he.2

theorem ByteStore.foldl_applyLocked_text {s : ByteStore} (h : s.data.IsText) {es : List Entry}
    (hes : ∀ e ∈ es, e.IsText) : (es.foldl ByteStore.applyLocked s).data.IsText := by
  induction es generalizing s with
  | nil => exact h
  | cons e es ih =>
      obtain ⟨he, hes⟩ := List.forall_mem_cons.mp hes
      exact ih (ByteStore.applyLocked_text h he) hes

theorem FileHolds.load {file : Option Bytes} {st : Option Data} (h : FileHolds file st) :
    ∃ m, loadSnapshotFile file = .map m ∧ m.get = st.getD .empty ∧ m.IsText := by
  rcases h with ⟨rfl, rfl⟩ | ⟨m, htext, rfl, rfl⟩
  · exact ⟨.empty, rfl, rfl, GoMap.isText_empty⟩
  · refine ⟨_, m.load_marshal, ?_, ?_⟩
    · rw [GoMap.coerce_members htext, GoMap.get_members]
      rfl
    · intro k v hkv
      rw [GoMap.coerce_members htext, GoMap.get_members] at hkv
      exact htext k v hkv

/-- Both levels start with the same store. -/
theorem Represents.loads {b : ByteMachine} {m : Machine} (h : Represents b m)
    (wal snapshot : Device) :
    ∃ s, newStoreFromBytes wal snapshot b.disk = .ok s ∧ s.data.IsText
      ∧ newStoreFromDisk wal snapshot m.disk = .ok s.toStore := by
  have hknown : m.disk.wal.all Entry.known = true :=
    List.all_eq_true.mpr fun e he => (h.entries e he).1
  obtain ⟨es, hes, hbytes, hdisk⟩ : ∃ es, (∀ e ∈ es, e.IsText)
      ∧ wal.loadWalBytes b.disk = .ok es ∧ wal.loadWal m.disk = .ok es := by
    cases wal with
    | absent => exact ⟨[], nofun, rfl, rfl⟩
    | noop => exact ⟨[], nofun, rfl, rfl⟩
    | file =>
        refine ⟨m.disk.wal, ?_, ?_, if_pos hknown⟩
        · intro e he
          exact ⟨(h.entries e he).2.1, (h.entries e he).2.2.1⟩
        · rw [Device.loadWalBytes, h.wal]
          exact load_records h.entries
  obtain ⟨g, hload, hget, htext⟩ : ∃ g, snapshot.loadSnapshotBytes b.disk = .map g
      ∧ g.get = snapshot.loadSnapshot m.disk ∧ g.IsText := by
    cases snapshot with
    | absent => exact ⟨.empty, rfl, rfl, GoMap.isText_empty⟩
    | noop => exact ⟨.empty, rfl, rfl, GoMap.isText_empty⟩
    | file => exact h.snapshot.load
  refine ⟨_, newStoreFromBytes_ok hload hbytes, ?_, ?_⟩
  · exact ByteStore.foldl_applyLocked_text htext hes
  · rw [newStoreFromDisk, hdisk, ByteStore.foldl_applyLocked_toStore, ← hget]
    exact congrArg Except.ok (Store.foldl_applyLocked ..)

/-! ## Every step is one of the machine on entries -/

/-- What the outcome is to the log of `Store`, where no line is cut. -/
def AppendOutcome.io : AppendOutcome → AppendIo
  | .ok => .ok
  | .shortWrite written => if written = 0 then .writeError else .syncError
  | .syncError => .syncError

def ByteAction.life : ByteAction → LifeAction
  | .start wal snapshot => .start wal snapshot
  | .upsert key value => .upsert key value
  | .delete key => .delete key
  | .deliver cmd => .deliver cmd
  | .append out => .append out.io
  | .apply => .apply
  | .writeTmp ok => .writeTmp ok
  | .rename ok => .rename ok
  | .ret => .ret
  | .crash _ => .crash

/-- The entry whose line an append with this outcome completes. -/
def ByteMachine.added (b : ByteMachine) (out : AppendOutcome) : Option Entry :=
  match b.store, b.writer with
  | some s, some (e, .append) =>
      if s.wal = .file ∧ e.record.length ≤ out.written e then some e else none
  | _, _ => none

theorem ByteMachine.added_some {b : ByteMachine} {s : ByteStore} (hup : b.store = some s)
    {out : AppendOutcome} {e : Entry} (h : b.added out = some e) :
    b.writer = some (e, .append) ∧ s.wal = .file ∧ e.record.length ≤ out.written e := by
  unfold ByteMachine.added at h
  split at h
  · rename_i s' e' hup' hw
    cases hup.symm.trans hup'
    split at h
    · rename_i hline
      cases h
      exact ⟨hw, hline⟩
    · cases h
  · cases h

section Step

variable {b b' : ByteMachine} {m : Machine}

theorem Represents.store_up (h : Represents b m) {s : ByteStore} (hup : b.store = some s) :
    m.store = some s.toStore := by
  rw [h.store, hup]
  rfl

/-- While a process runs, its map and its writer are all there is to show. -/
theorem Represents.of_up {m' : Machine} {s : ByteStore} (hup : b'.store = some s)
    (hwal : b'.disk.wal = records m'.disk.wal)
    (hentries : ∀ e ∈ m'.disk.wal, e.known = true ∧ e.Storable)
    (hsnapshot : FileHolds b'.disk.snapshot m'.disk.snapshot)
    (hstore : m'.store = some s.toStore) (hreceived : b'.received = m'.received)
    (hreached : b'.reached = m'.reached) (hhistory : b'.history = m'.history)
    (htext : s.data.IsText)
    (hwriter : WriterHolds s b'.disk.tmp m'.disk.tmp b'.writer m'.writer) :
    Represents b' m' where
  wal := hwal
  entries := hentries
  snapshot := hsnapshot
  store := by rw [hstore, hup]; rfl
  received := hreceived
  reached := hreached
  history := hhistory
  down hdown := by cases hup.symm.trans hdown
  up s' hs' := by
    cases hup.symm.trans hs'
    exact ⟨htext, hwriter⟩

theorem Represents.start (h : Represents b m) {wal snapshot : Device}
    (hstep : b.start wal snapshot = some b') :
    ∃ m', m.start wal snapshot = some m' ∧ Represents b' m' := by
  obtain ⟨s, hbytes, htext, hdisk⟩ := h.loads wal snapshot
  unfold ByteMachine.start at hstep
  split at hstep
  · rename_i s' hdown hs'
    cases hstep
    cases hbytes.symm.trans hs'
    have hmdown : m.store = none := by rw [h.store, hdown]; rfl
    obtain ⟨hidle, hmidle⟩ := h.down hdown
    refine ⟨{ m with store := some s.toStore }, by simp [Machine.start, hmdown, hdisk], ?_⟩
    refine .of_up rfl h.wal h.entries h.snapshot rfl h.received h.reached h.history htext ?_
    show WriterHolds s _ _ b.writer m.writer
    rw [hidle, hmidle]
    exact .idle
  · cases hstep

theorem WriterHolds.idle_of {s : ByteStore} {tmp : Option Bytes} {dtmp : Option Data}
    {w' : Option Writer} (h : WriterHolds s tmp dtmp none w') : w' = none := by
  cases h
  rfl

/-- A call takes the lock or is refused. -/
theorem Represents.call (h : Represents b m) {e : Entry} (hknown : e.known = true)
    (htext : e.IsText) (hshort : b.takes e) (hstep : b.call e = some b') :
    ∃ m', m.call e = some m' ∧ Represents b' m' := by
  unfold ByteMachine.call at hstep
  split at hstep
  · rename_i s hup hidle
    have hmup := h.store_up hup
    obtain ⟨hdata, hwriter⟩ := h.up s hup
    rw [hidle] at hwriter
    have hmidle := hwriter.idle_of
    split at hstep
    · rename_i hkey
      cases hstep
      refine ⟨{ m with history := .returned e (some .emptyKey) :: m.history },
        by simp [Machine.call, hmup, hmidle, hkey], ?_⟩
      refine .of_up hup h.wal h.entries h.snapshot hmup h.received h.reached
        (by rw [h.history]) hdata ?_
      show WriterHolds s _ _ b.writer m.writer
      rw [hidle, hmidle]
      exact .idle
    · rename_i hkey
      cases hstep
      refine ⟨{ m with writer := some ⟨e, .append⟩ },
        by simp [Machine.call, hmup, hmidle, hkey], ?_⟩
      refine .of_up hup h.wal h.entries h.snapshot hmup h.received h.reached h.history hdata
        (.append hknown htext fun hfile => hshort ?_)
      simp [ByteMachine.logs, hup, hfile]
  · cases hstep

theorem Represents.deliver (h : Represents b m) {cmd : Command}
    (hok : storableStep b (.deliver cmd)) (hstep : b.deliver cmd = some b') :
    ∃ m', m.deliver unmarshalEntry cmd = some m' ∧ Represents b' m' := by
  have hreceived : Represents { b with received := b.received ++ [cmd] }
      { m with received := m.received ++ [cmd] } :=
    ⟨h.wal, h.entries, h.snapshot, h.store, by rw [h.received], h.reached, h.history,
      h.down, h.up⟩
  unfold ByteMachine.deliver at hstep
  split at hstep
  · rename_i s hup hidle
    have hmup := h.store_up hup
    have hwriter := (h.up s hup).2
    rw [hidle] at hwriter
    have hmidle := hwriter.idle_of
    dsimp only at hstep
    split at hstep
    · rename_i hnone
      cases hstep
      exact ⟨_, by simp [Machine.deliver, hmup, hmidle, hnone], hreceived⟩
    · rename_i e hdecode
      have hshort := hok e hdecode
      obtain ⟨hkeyText, hvalueText⟩ := unmarshalEntry_text hdecode
      split at hstep
      · rename_i hkey
        cases hstep
        exact ⟨_, by simp [Machine.deliver, hmup, hmidle, hdecode, hkey], hreceived⟩
      · rename_i hkey
        split at hstep
        · rename_i hop
          have hpersisted : e.persisted = ⟨.delete, e.key, []⟩ := by
            simp [Entry.persisted, hop]
          rw [hpersisted] at hshort
          obtain ⟨m', hcall, hrep⟩ := hreceived.call (e := ⟨.delete, e.key, []⟩) rfl
            ⟨hkeyText, ⟨[], rfl⟩⟩ hshort hstep
          refine ⟨m', ?_, hrep⟩
          rw [← hcall]
          simp [Machine.deliver, hmup, hmidle, hdecode, hkey, hop]
        · rename_i hop
          have hpersisted : e.persisted = ⟨.upsert, e.key, e.value⟩ := by
            simp [Entry.persisted, hop]
          rw [hpersisted] at hshort
          obtain ⟨m', hcall, hrep⟩ := hreceived.call (e := ⟨.upsert, e.key, e.value⟩) rfl
            ⟨hkeyText, hvalueText⟩ hshort hstep
          refine ⟨m', ?_, hrep⟩
          rw [← hcall]
          simp [Machine.deliver, hmup, hmidle, hdecode, hkey, hop]
        · rename_i hop
          cases hstep
          exact ⟨_, by simp [Machine.deliver, hmup, hmidle, hdecode, hkey, hop], hreceived⟩
  · cases hstep

/-- Of a record that is not cut, the log has all or nothing. -/
theorem append_io {e : Entry} (he : e.known = true) {out : AppendOutcome}
    (hwhole : ∀ written, out = .shortWrite written →
      written = 0 ∨ e.record.length ≤ written) {d : ByteDisk} {d' : Disk}
    (hwal : d.wal = records d'.wal) :
    (Device.appendBytes .file e out d).1.wal
        = records (Device.append .file e out.io d').1.wal
      ∧ (Device.appendBytes .file e out d).2 = (Device.append .file e out.io d').2
      ∧ ((Device.append .file e out.io d').1.wal = d'.wal
        ∨ (Device.append .file e out.io d').1.wal = d'.wal ++ [e]) := by
  have hone : records (d'.wal ++ [e]) = d.wal ++ e.record := by
    rw [records_append, hwal]
    exact congrArg _ (List.append_nil _)
  have hlog : Device.append .file e out.io d' = _ := if_pos he
  rw [Device.appendBytes_file he, hlog]
  cases out with
  | ok => simp [AppendOutcome.io, AppendOutcome.written, hone]
  | syncError => simp [AppendOutcome.io, AppendOutcome.written, hone]
  | shortWrite written =>
      rcases hwhole written rfl with rfl | hlen
      · simp [AppendOutcome.io, AppendOutcome.written, hwal]
      · have hpos : written ≠ 0 := by
          rw [e.record_length] at hlen
          omega
        simp [AppendOutcome.io, AppendOutcome.written, hpos, hone, List.take_of_length_le hlen]

/-- The two disks after an append that is not cut: the snapshots are as they
were, the logs have the same entries, and the same error is returned. -/
theorem append_holds {wal : Device} {e : Entry} (hknown : e.known = true) (htext : e.IsText)
    (hshort : wal = .file → e.Short) {out : AppendOutcome}
    (hwhole : wal = .file → ∀ written, out = .shortWrite written →
      written = 0 ∨ e.record.length ≤ written) {d : ByteDisk} {d' : Disk}
    (hwal : d.wal = records d'.wal) (hentries : ∀ x ∈ d'.wal, x.known = true ∧ x.Storable)
    (hsnapshot : FileHolds d.snapshot d'.snapshot) :
    ((wal.appendBytes e out d).1.wal = records (wal.append e out.io d').1.wal
        ∧ (∀ x ∈ (wal.append e out.io d').1.wal, x.known = true ∧ x.Storable)
        ∧ FileHolds (wal.appendBytes e out d).1.snapshot (wal.append e out.io d').1.snapshot)
      ∧ (wal.appendBytes e out d).2 = (wal.append e out.io d').2 := by
  by_cases hfile : wal = .file
  · subst hfile
    obtain ⟨hwal', herr, hgrown⟩ := append_io hknown (hwhole rfl) hwal
    refine ⟨⟨hwal', ?_, ?_⟩, herr⟩
    · rcases hgrown with hgrown | hgrown
      · rw [hgrown]
        exact hentries
      · rw [hgrown]
        exact List.forall_mem_append.mpr ⟨hentries, List.forall_mem_singleton.mpr
          ⟨hknown, htext.1, htext.2, hshort rfl⟩⟩
    · have hlog : Device.append .file e out.io d' = _ := if_pos hknown
      rw [hlog]
      cases out.io <;> exact hsnapshot
  · rw [Device.append_of_ne hfile, Device.appendBytes_of_ne hfile]
    exact ⟨⟨hwal, hentries, hsnapshot⟩, rfl⟩

theorem Represents.append (h : Represents b m) {out : AppendOutcome}
    (hok : storableStep b (.append out)) (hstep : b.append out = some b') :
    ∃ m', m.append out.io = some m' ∧ Represents b' m' := by
  unfold ByteMachine.append at hstep
  split at hstep
  · rename_i s e hup hw
    cases hstep
    have hmup := h.store_up hup
    obtain ⟨hdata, hwriter⟩ := h.up s hup
    rw [hw] at hwriter
    generalize hmw : m.writer = mw at hwriter
    cases hwriter with
    | append hknown htext hshort =>
        have hwhole : s.wal = .file → ∀ written, out = .shortWrite written →
            written = 0 ∨ e.record.length ≤ written := by
          rintro hfile written rfl
          have hline : b.wholeLine written = true := hok
          simpa [ByteMachine.wholeLine, hw, ByteMachine.logs, hup, hfile] using hline
        obtain ⟨⟨hwal, hentries, hsnapshot⟩, herr⟩ :=
          append_holds hknown htext hshort hwhole h.wal h.entries h.snapshot
        refine ⟨_, by rw [Machine.append, hmup, hmw], ?_⟩
        refine .of_up hup hwal hentries hsnapshot rfl h.received h.reached h.history hdata ?_
        have hsame : s.toStore.wal = s.wal := rfl
        dsimp only
        rw [herr, hsame]
        cases (s.wal.append e out.io m.disk).2 with
        | none => exact .apply htext
        | some err => exact .ret
  · cases hstep

theorem Represents.apply (h : Represents b m) (hstep : b.apply = some b') :
    ∃ m', m.apply = some m' ∧ Represents b' m' := by
  unfold ByteMachine.apply at hstep
  split at hstep
  · rename_i s e hup hw
    cases hstep
    have hmup := h.store_up hup
    obtain ⟨hdata, hwriter⟩ := h.up s hup
    rw [hw] at hwriter
    cases hmw : m.writer with
    | none => rw [hmw] at hwriter; cases hwriter
    | some w =>
        rw [hmw] at hwriter
        cases hwriter with
        | apply htext =>
            have hdata' : (s.applyLocked e).countWrite.1.data.IsText := by
              rw [(s.applyLocked e).countWrite_frame.1]
              exact ByteStore.applyLocked_text hdata htext
            have hcount : (s.toStore.applyLocked e).countWrite
                = ((s.applyLocked e).countWrite.1.toStore, (s.applyLocked e).countWrite.2) := by
              rw [← ByteStore.applyLocked_toStore, ByteStore.countWrite_toStore]
            refine ⟨_, by rw [Machine.apply, hmup, hmw], ?_⟩
            rw [hcount]
            refine .of_up rfl h.wal h.entries h.snapshot rfl h.received h.reached h.history
              hdata' ?_
            dsimp only
            split
            · exact .writeTmp hdata'
            · exact .ret
  · cases hstep

theorem Represents.writeTmp (h : Represents b m) {ok : Bool} (hstep : b.writeTmp ok = some b') :
    ∃ m', m.writeTmp ok = some m' ∧ Represents b' m' := by
  unfold ByteMachine.writeTmp at hstep
  split at hstep
  · rename_i s e payload hup hw
    cases hstep
    have hmup := h.store_up hup
    obtain ⟨hdata, hwriter⟩ := h.up s hup
    rw [hw] at hwriter
    cases hmw : m.writer with
    | none => rw [hmw] at hwriter; cases hwriter
    | some w =>
        rw [hmw] at hwriter
        cases hwriter with
        | @writeTmp _ g hg =>
            refine ⟨_, by rw [Machine.writeTmp, hmup, hmw], ?_⟩
            show Represents _ { m with
              store := some s.toStore
              disk := (s.snapshot.writeTmp g.get ok m.disk).1
              writer := some ⟨e,
                match (s.snapshot.writeTmp g.get ok m.disk).2 with
                | none => .rename
                | some err => .ret (some err)⟩ }
            by_cases hfile : s.snapshot = .file
            · rw [hfile]
              cases ok with
              | false =>
                  exact .of_up hup h.wal h.entries h.snapshot rfl h.received h.reached
                    h.history hdata .ret
              | true =>
                  exact .of_up hup h.wal h.entries h.snapshot rfl h.received h.reached
                    h.history hdata (.rename fun _ => .inr ⟨g, hg, rfl, rfl⟩)
            · have hbytes : s.snapshot.writeTmpBytes g.marshal ok b.disk = (b.disk, none) := by
                cases hsnap : s.snapshot <;> first | rfl | exact absurd hsnap hfile
              rw [Device.writeTmp_of_ne hfile, hbytes]
              exact .of_up hup h.wal h.entries h.snapshot rfl h.received h.reached h.history
                hdata (.rename fun hfile' => absurd hfile' hfile)
  · cases hstep

theorem Represents.rename (h : Represents b m) {ok : Bool} (hstep : b.rename ok = some b') :
    ∃ m', m.rename ok = some m' ∧ Represents b' m' := by
  unfold ByteMachine.rename at hstep
  split at hstep
  · rename_i s e hup hw
    cases hstep
    have hmup := h.store_up hup
    obtain ⟨hdata, hwriter⟩ := h.up s hup
    rw [hw] at hwriter
    cases hmw : m.writer with
    | none => rw [hmw] at hwriter; cases hwriter
    | some w =>
        rw [hmw] at hwriter
        cases hwriter with
        | rename htmp =>
            refine ⟨_, by rw [Machine.rename, hmup, hmw], ?_⟩
            show Represents _ { m with
              store := some s.toStore
              disk := (s.snapshot.rename ok m.disk).1
              writer := some ⟨e, .ret (s.snapshot.rename ok m.disk).2⟩ }
            by_cases hfile : s.snapshot = .file
            · have htmp' := htmp hfile
              rw [hfile]
              cases ok with
              | false =>
                  exact .of_up hup h.wal h.entries h.snapshot rfl h.received h.reached
                    h.history hdata .ret
              | true =>
                  exact .of_up hup h.wal h.entries htmp' rfl h.received h.reached h.history
                    hdata .ret
            · have hbytes : s.snapshot.renameBytes ok b.disk = (b.disk, none) := by
                cases hsnap : s.snapshot <;> first | rfl | exact absurd hsnap hfile
              rw [Device.rename_of_ne hfile, hbytes]
              exact .of_up hup h.wal h.entries h.snapshot rfl h.received h.reached h.history
                hdata .ret
  · cases hstep

theorem Represents.ret (h : Represents b m) (hstep : b.ret = some b') :
    ∃ m', m.ret = some m' ∧ Represents b' m' := by
  unfold ByteMachine.ret at hstep
  split at hstep
  · rename_i e err hw
    cases hstep
    cases hup : b.store with
    | none =>
        rw [(h.down hup).1] at hw
        cases hw
    | some s =>
        obtain ⟨hdata, hwriter⟩ := h.up s hup
        rw [hw] at hwriter
        cases hmw : m.writer with
        | none => rw [hmw] at hwriter; cases hwriter
        | some w =>
            rw [hmw] at hwriter
            cases hwriter with
            | ret =>
                refine ⟨{ m with writer := none, history := .returned e err :: m.history },
                  by rw [Machine.ret, hmw], ?_⟩
                exact .of_up rfl h.wal h.entries h.snapshot (h.store_up hup) h.received
                  h.reached (by rw [h.history]) hdata .idle
  · cases hstep

theorem WriterHolds.entry {s : ByteStore} {tmp : Option Bytes} {dtmp : Option Data}
    {w : Option (Entry × ByteLoc)} {w' : Option Writer} (h : WriterHolds s tmp dtmp w w') :
    w'.map Writer.entry = w.map Prod.fst := by
  cases h <;> rfl

theorem WriterHolds.known {s : ByteStore} {tmp : Option Bytes} {dtmp : Option Data}
    {e : Entry} {w' : Option Writer} (h : WriterHolds s tmp dtmp (some (e, .append)) w') :
    e.known = true := by
  cases h
  assumption

/-- A crash that leaves the log as it is. -/
theorem Represents.crash (h : Represents b m) {s : ByteStore} (hup : b.store = some s)
    {disk : ByteDisk} (hwal : disk.wal = b.disk.wal)
    (hsnapshot : disk.snapshot = b.disk.snapshot) :
    ∃ m', m.crash = some m' ∧ Represents
      ⟨disk, none, none, [], max b.reached b.received.length,
        .crashed (b.writer.map Prod.fst) :: b.history⟩ m' := by
  refine ⟨_, by rw [Machine.crash, h.store_up hup], ?_⟩
  refine ⟨hwal.trans h.wal, h.entries, hsnapshot ▸ h.snapshot, rfl, rfl, ?_, ?_,
    fun _ => ⟨rfl, rfl⟩, ?_⟩
  · show _ = max m.reached m.received.length
    rw [h.reached, h.received]
  · show _ = .crashed (m.writer.map Writer.entry) :: m.history
    rw [(h.up s hup).2.entry, h.history]
  · intro s' hs'
    cases hs'

/-- The machine on entries follows with the same step; a crash at the end of
a line is an append and a crash there. -/
inductive Follows (b : ByteMachine) (m m' : Machine) (a : ByteAction) : Prop where
  | same (hstep : m.step unmarshalEntry a.life = some m')
      (hcrash : ∀ written, a = .crash written → b.added (.shortWrite written) = none)
  | line {written : Nat} {e : Entry} {m₁ : Machine} (ha : a = .crash written)
      (hadded : b.added (.shortWrite written) = some e)
      (hstep : m.step unmarshalEntry (.append .ok) = some m₁)
      (hcrash : m₁.step unmarshalEntry .crash = some m')

/-- What a crash leaves of the line that was being written. -/
theorem ByteMachine.cut_wal (b : ByteMachine) (written : Nat) :
    (b.cut written).snapshot = b.disk.snapshot
      ∧ (b.wholeLine written = true → b.added (.shortWrite written) = none →
        (b.cut written).wal = b.disk.wal) := by
  unfold ByteMachine.cut
  split
  · rename_i s e hup hw
    by_cases hfile : s.wal = .file
    · rw [if_pos hfile]
      refine ⟨rfl, fun hwhole hadded => ?_⟩
      simp only [ByteMachine.wholeLine, hw, ByteMachine.logs, hup, Option.any_some, hfile,
        decide_true, Bool.not_true, Bool.false_or, Bool.or_eq_true, decide_eq_true_eq] at hwhole
      rcases hwhole with rfl | hlen
      · simp
      · simp [ByteMachine.added, hup, hw, hfile, AppendOutcome.written, hlen] at hadded
    · rw [if_neg hfile]
      exact ⟨rfl, fun _ _ => rfl⟩
  · split <;> exact ⟨rfl, fun _ _ => rfl⟩
  · exact ⟨rfl, fun _ _ => rfl⟩

theorem Represents.step_crash (h : Represents b m) {written : Nat}
    (hwhole : b.wholeLine written = true) (hstep : b.crash written = some b') :
    ∃ m', Represents b' m' ∧ Follows b m m' (.crash written) := by
  unfold ByteMachine.crash at hstep
  split at hstep
  · rename_i s hup
    cases hstep
    obtain ⟨hsnapshot, hwal⟩ := b.cut_wal written
    cases hadded : b.added (.shortWrite written) with
    | some e =>
        -- the whole line is there: an append, and a crash after it
        obtain ⟨hw, hfile, hlen⟩ := ByteMachine.added_some hup hadded
        have hknown : e.known = true := WriterHolds.known (hw ▸ (h.up s hup).2)
        have htake : e.record.take written = e.record := List.take_of_length_le hlen
        have happend : b.append .ok = some { b with
            disk := { b.disk with wal := b.disk.wal ++ e.record }
            writer := some (e, .apply) } := by
          simp [ByteMachine.append, hup, hw, hfile, Device.appendBytes_file hknown,
            AppendOutcome.written]
        have hcut : b.cut written = { b.disk with wal := b.disk.wal ++ e.record } := by
          simp [ByteMachine.cut, hup, hw, hfile, htake]
        have hwhole : storableStep b (.append .ok) := trivial
        obtain ⟨m₁, hm₁, h₁⟩ := h.append hwhole happend
        obtain ⟨m₂, hm₂, h₂⟩ := h₁.crash hup rfl rfl
        refine ⟨m₂, ?_, .line rfl hadded hm₁ hm₂⟩
        rw [hcut, hw]
        exact h₂
    | none =>
        obtain ⟨m', hm', hrep⟩ := h.crash hup (hwal hwhole hadded) hsnapshot
        exact ⟨m', hrep, .same hm' fun _ ha => by cases ha; exact hadded⟩
  · cases hstep

theorem Represents.step (h : Represents b m) {a : ByteAction} (hok : storableStep b a)
    (hstep : b.step a = some b') : ∃ m', Represents b' m' ∧ Follows b m m' a := by
  have hone (ha : ∀ written, a = .crash written → b.added (.shortWrite written) = none) :
      (∃ m', m.step unmarshalEntry a.life = some m' ∧ Represents b' m') →
      ∃ m', Represents b' m' ∧ Follows b m m' a := by
    rintro ⟨m', hm', hrep⟩
    exact ⟨m', hrep, .same hm' ha⟩
  cases a with
  | start wal snapshot => exact hone (by simp) (h.start hstep)
  | upsert key value => exact hone (by simp) (h.call rfl hok.1 hok.2 hstep)
  | delete key => exact hone (by simp) (h.call rfl hok.1 hok.2 hstep)
  | deliver cmd => exact hone (by simp) (h.deliver hok hstep)
  | append out => exact hone (by simp) (h.append hok hstep)
  | apply => exact hone (by simp) (h.apply hstep)
  | writeTmp ok => exact hone (by simp) (h.writeTmp hstep)
  | rename ok => exact hone (by simp) (h.rename hstep)
  | ret => exact hone (by simp) (h.ret hstep)
  | crash written => exact h.step_crash hok hstep

/-- A run on the bytes is a run on the entries, where the steps allowed on
the one side are allowed on the other. -/
theorem represents_reachable {okb : ByteMachine → ByteAction → Prop}
    {ok : Machine → LifeAction → Prop} (hstorable : ∀ b a, okb b a → storableStep b a)
    (hok : ∀ b m a, Represents b m → okb b a → ok m a.life)
    (hline : ∀ m, ok m (.append .ok) ∧ ok m .crash)
    (hr : Reachable ByteMachine.step okb .init b) :
    ∃ m, Reachable (Machine.step unmarshalEntry) ok .init m ∧ Represents b m := by
  refine hr.invariant (P := fun b => ∃ m,
    Reachable (Machine.step unmarshalEntry) ok .init m ∧ Represents b m)
    ⟨.init, ⟨[], .init⟩, represents_init⟩ ?_
  rintro b a b' - ⟨m, ⟨past, hm⟩, hrep⟩ hokb hstep
  obtain ⟨m', hrep', hfollows⟩ := hrep.step (hstorable b a hokb) hstep
  refine ⟨m', ?_, hrep'⟩
  cases hfollows with
  | same hstep' hcrash => exact ⟨_, hm.step (hok b m a hrep hokb) hstep'⟩
  | line ha hadded hm₁ hm' => exact ⟨_, (hm.step (hline m).1 hm₁).step (hline _).2 hm'⟩

end Step

end RaftStore
