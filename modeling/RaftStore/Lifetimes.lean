import RaftStore.Lib.Runs
import RaftStore.Log
import RaftStore.Store

/-!
# Lifetimes of a store

Process after process over the same files. A process starts with
`NewStoreFromDisk`, serves calls of `Upsert` and `Delete` and the commands
that reach `RunApplyLoop`, and ends in a crash, which may fall anywhere.

The calls exclude each other through the store's lock; a call that waits
for it has done nothing yet. What the holder of the lock does is
`persistAndApplyLocked`, cut where the disk changes: the append to the
log, the map in memory, the temporary file, the rename, the return
(`write_steps` puts the steps together again). `json.Unmarshal` is a
parameter.

`history` is what the callers learn, newest first; `received` and
`reached` count what the apply loop has been fed.
-/

namespace RaftStore

open Runs

/-! ## The machine -/

/-- Where the holder of the lock is in `persistAndApplyLocked`. -/
inductive WriterLoc where
  | append
  | apply
  | writeTmp (state : Data)
  | rename
  | ret (err : Option StoreError)

structure Writer where
  entry : Entry
  loc : WriterLoc

inductive StoreEvent where
  /-- A write came back with a result. -/
  | returned (entry : Entry) (err : Option StoreError)
  /-- The process ended, with this write under way. -/
  | crashed (inFlight : Option Entry)
  deriving DecidableEq

structure Machine where
  disk : Disk
  /-- The store in memory while a process runs. -/
  store : Option Store
  writer : Option Writer
  /-- What `RunApplyLoop` has taken from its channel in this lifetime. -/
  received : List Command
  /-- How many commands it got to in the earlier lifetimes, at most. -/
  reached : Nat
  history : List StoreEvent

inductive LifeAction where
  | start (wal snapshot : Device)
  | upsert (key value : Bytes)
  | delete (key : Bytes)
  | deliver (cmd : Command)
  | append (io : AppendIo)
  | apply
  | writeTmp (ok : Bool)
  | rename (ok : Bool)
  | ret
  | crash

namespace Machine

/-- Before the first process: no files. -/
def init : Machine := ⟨.empty, none, none, [], 0, []⟩

def start (m : Machine) (wal snapshot : Device) : Option Machine :=
  match m.store, newStoreFromDisk wal snapshot m.disk with
  | none, .ok s => some { m with store := some s }
  | _, _ => none

/-- A call with this entry: the check of the key, then the lock. -/
def call (m : Machine) (e : Entry) : Option Machine :=
  match m.store, m.writer with
  | some _, none =>
      if e.key = [] then
        some { m with
          history := .returned e (some .emptyKey) :: m.history }
      else some { m with writer := some ⟨e, .append⟩ }
  | _, _ => none

/-- One command of `RunApplyLoop`, up to the lock. A command that does not
decode or that `Apply` refuses is logged and forgotten. -/
def deliver (unmarshal : Command → Option Entry) (m : Machine)
    (cmd : Command) : Option Machine :=
  match m.store, m.writer with
  | some _, none =>
      let m := { m with received := m.received ++ [cmd] }
      match unmarshal cmd with
      | none => some m
      | some e =>
          if e.key = [] then some m
          else
            match e.op with
            | .delete => m.call ⟨.delete, e.key, []⟩
            | .upsert => m.call ⟨.upsert, e.key, e.value⟩
            | .other _ => some m
  | _, _ => none

def append (m : Machine) (io : AppendIo) : Option Machine :=
  match m.store, m.writer with
  | some s, some ⟨e, .append⟩ =>
      let out := s.wal.append e io m.disk
      some { m with
        disk := out.1
        writer := some ⟨e,
          match out.2 with
          | none => .apply
          | some err => .ret (some err)⟩ }
  | _, _ => none

def apply (m : Machine) : Option Machine :=
  match m.store, m.writer with
  | some s, some ⟨e, .apply⟩ =>
      let out := (s.applyLocked e).countWrite
      some { m with
        store := some out.1
        writer := some ⟨e,
          if out.2 then .writeTmp out.1.data else .ret none⟩ }
  | _, _ => none

def writeTmp (m : Machine) (ok : Bool) : Option Machine :=
  match m.store, m.writer with
  | some s, some ⟨e, .writeTmp state⟩ =>
      let out := s.snapshot.writeTmp state ok m.disk
      some { m with
        disk := out.1
        writer := some ⟨e,
          match out.2 with
          | none => .rename
          | some err => .ret (some err)⟩ }
  | _, _ => none

def rename (m : Machine) (ok : Bool) : Option Machine :=
  match m.store, m.writer with
  | some s, some ⟨e, .rename⟩ =>
      let out := s.snapshot.rename ok m.disk
      some { m with disk := out.1, writer := some ⟨e, .ret out.2⟩ }
  | _, _ => none

/-- The lock is released and the caller has its result. -/
def ret (m : Machine) : Option Machine :=
  match m.writer with
  | some ⟨e, .ret err⟩ =>
      some { m with writer := none, history := .returned e err :: m.history }
  | _ => none

def crash (m : Machine) : Option Machine :=
  match m.store with
  | some _ => some { m with
      store := none
      writer := none
      received := []
      reached := max m.reached m.received.length
      history := .crashed (m.writer.map Writer.entry) :: m.history }
  | none => none

def step (unmarshal : Command → Option Entry) (m : Machine) :
    LifeAction → Option Machine
  | .start wal snapshot => m.start wal snapshot
  | .upsert key value => m.call ⟨.upsert, key, value⟩
  | .delete key => m.call ⟨.delete, key, []⟩
  | .deliver cmd => m.deliver unmarshal cmd
  | .append io => m.append io
  | .apply => m.apply
  | .writeTmp ok => m.writeTmp ok
  | .rename ok => m.rename ok
  | .ret => m.ret
  | .crash => m.crash

end Machine

/-- `Upsert` and `Delete` called from outside. -/
def LifeAction.isCall : LifeAction → Bool
  | .upsert _ _ => true
  | .delete _ => true
  | _ => false

/-- Both files are in use and no system call fails. -/
def LifeAction.clean : LifeAction → Bool
  | .start wal snapshot => wal = .file && snapshot = .file
  | .append io => io = .ok
  | .writeTmp ok => ok
  | .rename ok => ok
  | _ => true

/-- The condition on runs without I/O errors. -/
def CleanStep (_ : Machine) (a : LifeAction) : Prop := a.clean = true

instance (m : Machine) (a : LifeAction) : Decidable (CleanStep m a) :=
  inferInstanceAs (Decidable (a.clean = true))

/-! ## What a step can do -/

/-- What `Apply` accepts. -/
def Entry.Valid (e : Entry) : Prop := e.key ≠ [] ∧ e.known = true

/-- One constructor for each way a step ends. -/
inductive Machine.Move (unmarshal : Command → Option Entry) (m : Machine) :
    LifeAction → Machine → Prop where
  | start {wal snapshot : Device} {s : Store} (hdown : m.store = none)
      (hload : newStoreFromDisk wal snapshot m.disk = .ok s) :
      Move unmarshal m (.start wal snapshot) { m with store := some s }
  | refuse {a : LifeAction} {e : Entry} {s : Store} (ha : a.isCall = true)
      (hup : m.store = some s) (hidle : m.writer = none) :
      Move unmarshal m a
        { m with history := .returned e (some .emptyKey) :: m.history }
  | lock {a : LifeAction} {e : Entry} {s : Store} (ha : a.isCall = true)
      (hup : m.store = some s) (hidle : m.writer = none) (hvalid : e.Valid) :
      Move unmarshal m a { m with writer := some ⟨e, .append⟩ }
  | skip {cmd : Command} {s : Store} (hup : m.store = some s)
      (hidle : m.writer = none)
      (hbad : ∀ e, unmarshal cmd = some e → ¬ e.Valid) :
      Move unmarshal m (.deliver cmd)
        { m with received := m.received ++ [cmd] }
  | deliver {cmd : Command} {e e' : Entry} {s : Store} (hup : m.store = some s)
      (hidle : m.writer = none) (hdecode : unmarshal cmd = some e)
      (hvalid : e.Valid) (hvalid' : e'.Valid) (hsame : e'.write = e.write) :
      Move unmarshal m (.deliver cmd)
        { m with
          received := m.received ++ [cmd], writer := some ⟨e', .append⟩ }
  | append {s : Store} {e : Entry} {io : AppendIo} (hup : m.store = some s)
      (hw : m.writer = some ⟨e, .append⟩) :
      Move unmarshal m (.append io) { m with
        disk := (s.wal.append e io m.disk).1
        writer := some ⟨e,
          match (s.wal.append e io m.disk).2 with
          | none => .apply
          | some err => .ret (some err)⟩ }
  | apply {s : Store} {e : Entry} (hup : m.store = some s)
      (hw : m.writer = some ⟨e, .apply⟩) :
      Move unmarshal m .apply { m with
        store := some (s.applyLocked e).countWrite.1
        writer := some ⟨e,
          if (s.applyLocked e).countWrite.2 then
            .writeTmp (s.applyLocked e).countWrite.1.data
          else .ret none⟩ }
  | writeTmp {s : Store} {e : Entry} {state : Data} {ok : Bool}
      (hup : m.store = some s) (hw : m.writer = some ⟨e, .writeTmp state⟩) :
      Move unmarshal m (.writeTmp ok) { m with
        disk := (s.snapshot.writeTmp state ok m.disk).1
        writer := some ⟨e,
          match (s.snapshot.writeTmp state ok m.disk).2 with
          | none => .rename
          | some err => .ret (some err)⟩ }
  | rename {s : Store} {e : Entry} {ok : Bool} (hup : m.store = some s)
      (hw : m.writer = some ⟨e, .rename⟩) :
      Move unmarshal m (.rename ok) { m with
        disk := (s.snapshot.rename ok m.disk).1
        writer := some ⟨e, .ret (s.snapshot.rename ok m.disk).2⟩ }
  | ret {e : Entry} {err : Option StoreError} (hw : m.writer = some ⟨e, .ret err⟩) :
      Move unmarshal m .ret
        { m with writer := none, history := .returned e err :: m.history }
  | crash {s : Store} (hup : m.store = some s) :
      Move unmarshal m .crash { m with
        store := none
        writer := none
        received := []
        reached := max m.reached m.received.length
        history := .crashed (m.writer.map Writer.entry) :: m.history }

namespace Machine

variable {unmarshal : Command → Option Entry} {m m' : Machine}

theorem call_lock {m : Machine} {s : Store} {e : Entry} (hup : m.store = some s)
    (hidle : m.writer = none) (hkey : e.key ≠ []) :
    m.call e = some { m with writer := some ⟨e, .append⟩ } := by
  simp only [call, hup, hidle, if_neg hkey]

theorem call_move {a : LifeAction} (ha : a.isCall = true) {e : Entry}
    (hknown : e.known = true) (h : m.call e = some m') :
    Move unmarshal m a m' := by
  unfold call at h
  split at h
  · rename_i s hup hidle
    split at h <;> cases h
    · exact .refuse ha hup hidle
    · exact .lock ha hup hidle ⟨‹_›, hknown⟩
  · cases h

theorem deliver_move {cmd : Command}
    (h : m.deliver unmarshal cmd = some m') :
    Move unmarshal m (.deliver cmd) m' := by
  unfold deliver at h
  split at h
  · rename_i s hup hidle
    split at h
    · rename_i hnone
      cases h
      refine .skip hup hidle ?_
      intro e he
      rw [hnone] at he
      cases he
    · rename_i e hdecode
      have hskip : ¬ e.Valid → Move unmarshal m (.deliver cmd)
          { m with received := m.received ++ [cmd] } := by
        intro hbad
        refine .skip hup hidle ?_
        intro e' he'
        cases hdecode.symm.trans he'
        exact hbad
      have hlock : ∀ e' : Entry, e.Valid → e'.Valid → e'.write = e.write →
          call { m with received := m.received ++ [cmd] } e' = some m' →
          Move unmarshal m (.deliver cmd) m' := by
        intro e' hvalid hvalid' hsame hcall
        rw [call_lock (m := { m with received := m.received ++ [cmd] })
          hup hidle hvalid'.1] at hcall
        cases hcall
        exact .deliver hup hidle hdecode hvalid hvalid' hsame
      split at h
      · rename_i hkey
        cases h
        exact hskip fun hvalid => hvalid.1 hkey
      · rename_i hkey
        split at h
        · rename_i hop
          exact hlock ⟨.delete, e.key, []⟩ ⟨hkey, by simp [Entry.known, hop]⟩
            ⟨hkey, rfl⟩ (by simp [Entry.write, hop]) h
        · rename_i hop
          exact hlock ⟨.upsert, e.key, e.value⟩ ⟨hkey, by simp [Entry.known, hop]⟩
            ⟨hkey, rfl⟩ (by simp [Entry.write, hop]) h
        · rename_i name hop
          cases h
          refine hskip ?_
          rintro ⟨-, hknown⟩
          simp [Entry.known, hop] at hknown
  · cases h

theorem step_move {a : LifeAction} (h : m.step unmarshal a = some m') :
    Move unmarshal m a m' := by
  cases a with
  | start wal snapshot =>
      simp only [step, start] at h
      split at h
      · cases h
        exact .start ‹_› ‹_›
      · cases h
  | upsert key value => exact call_move rfl rfl h
  | delete key => exact call_move rfl rfl h
  | deliver cmd => exact deliver_move h
  | append io =>
      simp only [step, append] at h
      split at h
      · cases h
        exact .append ‹_› ‹_›
      · cases h
  | apply =>
      simp only [step, apply] at h
      split at h
      · cases h
        exact .apply ‹_› ‹_›
      · cases h
  | writeTmp ok =>
      simp only [step, writeTmp] at h
      split at h
      · cases h
        exact .writeTmp ‹_› ‹_›
      · cases h
  | rename ok =>
      simp only [step, rename] at h
      split at h
      · cases h
        exact .rename ‹_› ‹_›
      · cases h
  | ret =>
      simp only [step, ret] at h
      split at h
      · cases h
        exact .ret ‹_›
      · cases h
  | crash =>
      simp only [step, crash] at h
      split at h
      · cases h
        exact .crash ‹_›
      · cases h

/-- The steps of the lock's holder, for given outcomes of its system
calls, do what `persistAndApplyLocked` does. -/
theorem write_steps (m : Machine) (s : Store) (e : Entry) (io : WriteIo)
    (hs : m.store = some s) (hw : m.writer = some ⟨e, .append⟩) :
    ∃ as : List LifeAction,
      as.foldlM (Machine.step unmarshal) m = some { m with
        store := some (s.persistAndApplyLocked m.disk io e).1
        disk := (s.persistAndApplyLocked m.disk io e).2.1
        writer := some ⟨e, .ret (s.persistAndApplyLocked m.disk io e).2.2⟩ } := by
  unfold Store.persistAndApplyLocked
  cases happend : s.wal.append e io.append m.disk with
  | mk d err =>
  cases err with
  | some err =>
      exact ⟨[.append io.append], by simp [step, append, hs, hw, happend]⟩
  | none =>
  cases hcount : (s.applyLocked e).countWrite with
  | mk s' due =>
  cases due with
  | false =>
      exact ⟨[.append io.append, .apply],
        by simp [step, append, apply, hs, hw, happend, hcount]⟩
  | true =>
  cases htmp : s'.snapshot.writeTmp s'.data io.writeTmp d with
  | mk d' err =>
  cases err with
  | some err =>
      exact ⟨[.append io.append, .apply, .writeTmp io.writeTmp],
        by simp [step, append, apply, writeTmp, Device.save, hs, hw, happend,
          hcount, htmp]⟩
  | none =>
      exact ⟨[.append io.append, .apply, .writeTmp io.writeTmp,
          .rename io.rename],
        by simp [step, append, apply, writeTmp, rename, Device.save, hs, hw,
          happend, hcount, htmp]⟩

end Machine

end RaftStore
