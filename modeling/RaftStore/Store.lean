import RaftStore.Lib.LastWrite

/-!
# The key-value store

The store of `kv/store.go` and `kv/apply.go` over the write-ahead log and
the snapshot of `storage/`. Go strings are byte lists and Go maps are
functions into `Option`.

The files are kept as what they decode to: `json` is taken to bring back
every entry and every map it wrote, and a record of the log is on disk
whole or not at all. Each operation that touches the disk is given the
outcome of its system calls, so that it can be made to fail.

`snapshot.Save` is kept in its two parts, the write of the temporary file
and the rename, since a process may end between them; `Lifetimes` runs
`persistAndApplyLocked` in such steps.
-/

namespace RaftStore

open LastWrite

/-- A Go string. -/
abbrev Bytes := List UInt8

/-! ## Entries -/

/-- `storage.Operation` is a string; `other` stands for any text but the
two that are known. -/
inductive Operation where
  | upsert
  | delete
  | other (name : Bytes)
  deriving DecidableEq

/-- `storage.Entry`. -/
structure Entry where
  op : Operation
  key : Bytes
  value : Bytes
  deriving DecidableEq

/-- What both `FileWAL.Append` and `FileWAL.Load` check. -/
def Entry.known (e : Entry) : Bool := e.op = .upsert || e.op = .delete

abbrev Data := Bytes → Option Bytes

def Data.empty : Data := fun _ => none

inductive StoreError where
  | emptyKey
  | unknownOperation
  | io
  deriving DecidableEq

/-! ## Files -/

/-- A `storage.WAL` or `storage.SnapshotStore`: a nil interface, the
disabled implementation, or the one on a file. -/
inductive Device where
  | absent
  | noop
  | file
  deriving DecidableEq

/-- What is on disk: the records of the log, the snapshot, and the
temporary file next to it. -/
structure Disk where
  wal : List Entry
  snapshot : Option Data
  tmp : Option Data

def Disk.empty : Disk := ⟨[], none, none⟩

/-- How the two system calls of `FileWAL.Append` turn out. When `Sync`
fails the record has been written all the same. -/
inductive AppendIo where
  | ok
  | writeError
  | syncError
  deriving DecidableEq

namespace Device

/-- `Store.append`. -/
def append (wal : Device) (e : Entry) (io : AppendIo) (d : Disk) :
    Disk × Option StoreError :=
  match wal with
  | .absent => (d, none)
  | .noop => (d, none)
  | .file =>
      if e.known then
        match io with
        | .ok => ({ d with wal := d.wal ++ [e] }, none)
        | .writeError => (d, some .io)
        | .syncError => ({ d with wal := d.wal ++ [e] }, some .io)
      else (d, some .unknownOperation)

/-- The entries `NewStoreFromDisk` replays. -/
def loadWal (wal : Device) (d : Disk) : Except StoreError (List Entry) :=
  match wal with
  | .absent => .ok []
  | .noop => .ok []
  | .file => if d.wal.all Entry.known then .ok d.wal else .error .unknownOperation

/-- The map `NewStoreFromDisk` starts from. -/
def loadSnapshot (snapshot : Device) (d : Disk) : Data :=
  match snapshot with
  | .absent => .empty
  | .noop => .empty
  | .file => d.snapshot.getD .empty

/-- The first half of `Save`. What a failed write leaves in the temporary
file is never read. -/
def writeTmp (snapshot : Device) (state : Data) (ok : Bool) (d : Disk) :
    Disk × Option StoreError :=
  match snapshot with
  | .file => if ok then ({ d with tmp := some state }, none) else (d, some .io)
  | _ => (d, none)

/-- The second half of `Save`. -/
def rename (snapshot : Device) (ok : Bool) (d : Disk) :
    Disk × Option StoreError :=
  match snapshot with
  | .file =>
      if ok then ({ d with snapshot := d.tmp, tmp := none }, none)
      else (d, some .io)
  | _ => (d, none)

/-- `snapshot.Save`. -/
def save (snapshot : Device) (state : Data) (writeOk renameOk : Bool)
    (d : Disk) : Disk × Option StoreError :=
  match snapshot.writeTmp state writeOk d with
  | (d, some err) => (d, some err)
  | (d, none) => snapshot.rename renameOk d

end Device

/-! ## The store -/

def defaultSnapshotInterval : Nat := 100

structure Store where
  data : Data
  wal : Device
  snapshot : Device
  writeCount : Nat
  snapshotInterval : Nat

def newStore (wal snapshot : Device) : Store where
  data := .empty
  wal := wal
  snapshot := snapshot
  writeCount := 0
  snapshotInterval := defaultSnapshotInterval

/-- The outcomes of the system calls of one write. -/
structure WriteIo where
  append : AppendIo
  writeTmp : Bool
  rename : Bool

def WriteIo.ok : WriteIo := ⟨.ok, true, true⟩

namespace Store

/-- Every operation but `delete` sets the key. -/
def applyLocked (s : Store) (e : Entry) : Store :=
  { s with data :=
      match e.op with
      | .delete => Function.update s.data e.key none
      | _ => Function.update s.data e.key (some e.value) }

def get (s : Store) (key : Bytes) : Except StoreError (Option Bytes) :=
  if key = [] then .error .emptyKey else .ok (s.data key)

/-- The counter of `persistAndApplyLocked`, and whether this write is one
that takes a snapshot. -/
def countWrite (s : Store) : Store × Bool :=
  if s.snapshot = .absent ∨ s.snapshotInterval = 0 then (s, false)
  else
    ({ s with writeCount := s.writeCount + 1 },
      (s.writeCount + 1) % s.snapshotInterval = 0)

def persistAndApplyLocked (s : Store) (d : Disk) (io : WriteIo) (e : Entry) :
    Store × Disk × Option StoreError :=
  match s.wal.append e io.append d with
  | (d, some err) => (s, d, some err)
  | (d, none) =>
      let (s, due) := (s.applyLocked e).countWrite
      if due then (s, s.snapshot.save s.data io.writeTmp io.rename d)
      else (s, d, none)

def upsert (s : Store) (d : Disk) (io : WriteIo) (key value : Bytes) :
    Store × Disk × Option StoreError :=
  if key = [] then (s, d, some .emptyKey)
  else s.persistAndApplyLocked d io ⟨.upsert, key, value⟩

def delete (s : Store) (d : Disk) (io : WriteIo) (key : Bytes) :
    Store × Disk × Option StoreError :=
  if key = [] then (s, d, some .emptyKey)
  else s.persistAndApplyLocked d io ⟨.delete, key, []⟩

/-- `Apply`. -/
def apply (s : Store) (d : Disk) (io : WriteIo) (e : Entry) :
    Store × Disk × Option StoreError :=
  if e.key = [] then (s, d, some .emptyKey)
  else
    match e.op with
    | .delete => s.delete d io e.key
    | .upsert => s.upsert d io e.key e.value
    | .other _ => (s, d, some .unknownOperation)

end Store

def newStoreFromDisk (wal snapshot : Device) (d : Disk) :
    Except StoreError Store :=
  let store := { newStore wal snapshot with data := snapshot.loadSnapshot d }
  match wal.loadWal d with
  | .error err => .error err
  | .ok entries => .ok (entries.foldl Store.applyLocked store)

/-! ## Entries as writes -/

/-- What an entry does to the map. -/
def Entry.write (e : Entry) : Write Bytes Bytes where
  key := e.key
  value :=
    match e.op with
    | .delete => none
    | _ => some e.value

/-- The map after the entries, from a given one. -/
def replay (es : List Entry) (m : Data) : Data := run (es.map Entry.write) m

theorem replay_append (es fs : List Entry) (m : Data) :
    replay (es ++ fs) m = replay fs (replay es m) := by
  rw [replay, List.map_append, run_append]
  rfl

theorem replay_concat (es : List Entry) (e : Entry) (m : Data) :
    replay (es ++ [e]) m = e.write.exec (replay es m) := by
  rw [replay_append]
  rfl

theorem Store.applyLocked_data (s : Store) (e : Entry) :
    (s.applyLocked e).data = e.write.exec s.data := by
  unfold Store.applyLocked Write.exec Entry.write
  cases e.op <;> rfl

theorem Store.foldl_applyLocked (s : Store) (es : List Entry) :
    es.foldl Store.applyLocked s = { s with data := replay es s.data } := by
  induction es generalizing s with
  | nil => rfl
  | cons e es ih =>
      rw [List.foldl_cons, ih, s.applyLocked_data]
      rfl

theorem Store.countWrite_frame (s : Store) :
    s.countWrite.1.data = s.data ∧ s.countWrite.1.wal = s.wal
      ∧ s.countWrite.1.snapshot = s.snapshot := by
  unfold Store.countWrite
  split <;> exact ⟨rfl, rfl, rfl⟩

theorem Device.append_ok (wal : Device) (d : Disk) {e : Entry}
    (h : e.known = true) : (wal.append e .ok d).2 = none := by
  cases wal with
  | absent => rfl
  | noop => rfl
  | file => exact congrArg Prod.snd (if_pos h)

theorem Device.save_ok (snapshot : Device) (state : Data) (d : Disk) :
    (snapshot.save state true true d).2 = none := by
  cases snapshot <;> rfl

theorem Device.append_of_ne {wal : Device} (h : wal ≠ .file) (e : Entry) (io : AppendIo)
    (d : Disk) : wal.append e io d = (d, none) := by
  cases wal with
  | absent => rfl
  | noop => rfl
  | file => exact absurd rfl h

theorem Device.writeTmp_of_ne {snapshot : Device} (h : snapshot ≠ .file) (state : Data)
    (ok : Bool) (d : Disk) : snapshot.writeTmp state ok d = (d, none) := by
  cases snapshot with
  | absent => rfl
  | noop => rfl
  | file => exact absurd rfl h

theorem Device.rename_of_ne {snapshot : Device} (h : snapshot ≠ .file) (ok : Bool)
    (d : Disk) : snapshot.rename ok d = (d, none) := by
  cases snapshot with
  | absent => rfl
  | noop => rfl
  | file => exact absurd rfl h

/-- A write without I/O errors. -/
theorem Store.persistAndApplyLocked_ok (s : Store) (d : Disk) {e : Entry}
    (h : e.known = true) :
    (s.persistAndApplyLocked d .ok e).1.data = e.write.exec s.data
      ∧ (s.persistAndApplyLocked d .ok e).2.2 = none := by
  unfold Store.persistAndApplyLocked
  cases hout : s.wal.append e WriteIo.ok.append d with
  | mk d' err =>
      obtain rfl : err = none :=
        (congrArg Prod.snd hout).symm.trans (s.wal.append_ok d h)
      have hdata := ((s.applyLocked e).countWrite_frame).1
      rw [s.applyLocked_data] at hdata
      dsimp only
      split
      · exact ⟨hdata, Device.save_ok ..⟩
      · exact ⟨hdata, rfl⟩

/-- Recovery from files that hold known operations only. -/
theorem newStoreFromDisk_file {d : Disk} (h : ∀ e ∈ d.wal, e.known = true) :
    newStoreFromDisk .file .file d
      = .ok { newStore .file .file with
          data := replay d.wal (d.snapshot.getD .empty) } := by
  have hload : Device.loadWal .file d = .ok d.wal :=
    if_pos (List.all_eq_true.mpr h)
  unfold newStoreFromDisk
  rw [hload]
  exact congrArg Except.ok (Store.foldl_applyLocked ..)

/-- Replaying the whole log over the map that some earlier part of it left
is replaying it over the empty map. -/
theorem replay_absorbs {p ws : List Entry} (h : p <+: ws) (m : Data) :
    replay ws (replay p m) = replay ws m := by
  refine run_absorb ?_
  intro k hk
  exact hk.mono (List.map_subset _ h.subset)

end RaftStore
