import RaftStore.SnapshotFile

/-!
# The store on the bytes of its files

`Store` takes the files for what they decode to. Here the log is the bytes
of `FileWal`, the snapshot those of `SnapshotFile`, and every system call is
free to fail: a write of the log may stop anywhere in the record, `Sync` may
fail after it, and the snapshot may fail to be written or to be renamed. The
functions are those of `kv/store.go` once more, on a map that can be
written as JSON.

What they do to the map is what an entry does (`applyLocked_get`,
`persistAndApplyLocked_get`), and what a start makes of the files is known
from their two decoders (`newStoreFromBytes_get`).
-/

namespace RaftStore

open LastWrite

/-! ## The files -/

structure ByteDisk where
  wal : Bytes
  snapshot : Option Bytes
  tmp : Option Bytes

def ByteDisk.empty : ByteDisk := ⟨[], none, none⟩

/-- The outcomes of the system calls of one write. -/
structure FileIo where
  append : AppendOutcome
  writeTmp : Bool
  rename : Bool
  deriving DecidableEq

def FileIo.ok : FileIo := ⟨.ok, true, true⟩

namespace Device

def appendBytes (wal : Device) (e : Entry) (out : AppendOutcome) (d : ByteDisk) :
    ByteDisk × Option StoreError :=
  match wal with
  | .absent => (d, none)
  | .noop => (d, none)
  | .file =>
      let r := FileWal.append d.wal e out
      ({ d with wal := r.1 }, r.2)

def loadWalBytes (wal : Device) (d : ByteDisk) : Except LoadError (List Entry) :=
  match wal with
  | .absent => .ok []
  | .noop => .ok []
  | .file => FileWal.load d.wal

def loadSnapshotBytes (snapshot : Device) (d : ByteDisk) : LoadedMap :=
  match snapshot with
  | .absent => .map .empty
  | .noop => .map .empty
  | .file => loadSnapshotFile d.snapshot

/-- The first half of `Save`. What a failed write leaves in the temporary
file is never read. -/
def writeTmpBytes (snapshot : Device) (payload : Bytes) (ok : Bool) (d : ByteDisk) :
    ByteDisk × Option StoreError :=
  match snapshot with
  | .file => if ok then ({ d with tmp := some payload }, none) else (d, some .io)
  | _ => (d, none)

/-- The second half of `Save`. -/
def renameBytes (snapshot : Device) (ok : Bool) (d : ByteDisk) :
    ByteDisk × Option StoreError :=
  match snapshot with
  | .file =>
      if ok then ({ d with snapshot := d.tmp, tmp := none }, none)
      else (d, some .io)
  | _ => (d, none)

/-- `snapshot.Save`. -/
def saveBytes (snapshot : Device) (state : GoMap) (io : FileIo) (d : ByteDisk) :
    ByteDisk × Option StoreError :=
  match snapshot.writeTmpBytes state.marshal io.writeTmp d with
  | (d, some err) => (d, some err)
  | (d, none) => snapshot.renameBytes io.rename d

end Device

/-! ## The store -/

structure ByteStore where
  data : GoMap
  wal : Device
  snapshot : Device
  writeCount : Nat
  snapshotInterval : Nat

def newByteStore (wal snapshot : Device) : ByteStore where
  data := .empty
  wal := wal
  snapshot := snapshot
  writeCount := 0
  snapshotInterval := defaultSnapshotInterval

/-- `Upsert` and `Delete`. -/
inductive WriteCall where
  | upsert (key value : Bytes)
  | delete (key : Bytes)
  deriving DecidableEq

def WriteCall.entry : WriteCall → Entry
  | .upsert key value => ⟨.upsert, key, value⟩
  | .delete key => ⟨.delete, key, []⟩

namespace ByteStore

def applyLocked (s : ByteStore) (e : Entry) : ByteStore :=
  { s with data :=
      match e.op with
      | .delete => s.data.delete e.key
      | _ => s.data.set e.key e.value }

def countWrite (s : ByteStore) : ByteStore × Bool :=
  if s.snapshot = .absent ∨ s.snapshotInterval = 0 then (s, false)
  else
    ({ s with writeCount := s.writeCount + 1 },
      (s.writeCount + 1) % s.snapshotInterval = 0)

def persistAndApplyLocked (s : ByteStore) (d : ByteDisk) (io : FileIo) (e : Entry) :
    ByteStore × ByteDisk × Option StoreError :=
  match s.wal.appendBytes e io.append d with
  | (d, some err) => (s, d, some err)
  | (d, none) =>
      let (s, due) := (s.applyLocked e).countWrite
      if due then (s, s.snapshot.saveBytes s.data io d)
      else (s, d, none)

def call (s : ByteStore) (d : ByteDisk) (io : FileIo) (c : WriteCall) :
    ByteStore × ByteDisk × Option StoreError :=
  if c.entry.key = [] then (s, d, some .emptyKey)
  else s.persistAndApplyLocked d io c.entry

/-- `Apply`. -/
def apply (s : ByteStore) (d : ByteDisk) (io : FileIo) (e : Entry) :
    ByteStore × ByteDisk × Option StoreError :=
  if e.key = [] then (s, d, some .emptyKey)
  else
    match e.op with
    | .delete => s.call d io (.delete e.key)
    | .upsert => s.call d io (.upsert e.key e.value)
    | .other _ => (s, d, some .unknownOperation)

end ByteStore

/-- `NewStoreFromDisk`. A store on a nil map panics at its first write, and
counts as not started here. -/
def newStoreFromBytes (wal snapshot : Device) (d : ByteDisk) : Except LoadError ByteStore :=
  match snapshot.loadSnapshotBytes d with
  | .map m =>
      match wal.loadWalBytes d with
      | .ok entries =>
          .ok (entries.foldl ByteStore.applyLocked { newByteStore wal snapshot with data := m })
      | .error err => .error err
  | _ => .error .badSnapshot

/-! ## The map -/

namespace ByteStore

/-- The store of `Store`. -/
def toStore (s : ByteStore) : Store where
  data := s.data.get
  wal := s.wal
  snapshot := s.snapshot
  writeCount := s.writeCount
  snapshotInterval := s.snapshotInterval

theorem applyLocked_toStore (s : ByteStore) (e : Entry) :
    (s.applyLocked e).toStore = s.toStore.applyLocked e := by
  simp only [toStore, applyLocked, Store.applyLocked]
  cases e.op with
  | delete => simp [GoMap.get_delete]
  | upsert => simp [GoMap.get_set]
  | other => simp [GoMap.get_set]

theorem countWrite_toStore (s : ByteStore) :
    s.toStore.countWrite = (s.countWrite.1.toStore, s.countWrite.2) := by
  unfold Store.countWrite countWrite
  show (if s.snapshot = .absent ∨ s.snapshotInterval = 0 then _ else _) = _
  split <;> rfl

theorem applyLocked_get (s : ByteStore) (e : Entry) :
    (s.applyLocked e).data.get = e.write.exec s.data.get :=
  (congrArg Store.data (s.applyLocked_toStore e)).trans (s.toStore.applyLocked_data e)

theorem countWrite_frame (s : ByteStore) :
    s.countWrite.1.data = s.data ∧ s.countWrite.1.wal = s.wal
      ∧ s.countWrite.1.snapshot = s.snapshot := by
  unfold countWrite
  split <;> exact ⟨rfl, rfl, rfl⟩

theorem foldl_applyLocked_toStore (s : ByteStore) (es : List Entry) :
    (es.foldl applyLocked s).toStore = { s.toStore with data := replay es s.data.get } := by
  induction es generalizing s with
  | nil => rfl
  | cons e es ih =>
      rw [List.foldl_cons, ih, applyLocked_toStore, applyLocked_get]
      rfl

end ByteStore

/-- What a start makes of the files. -/
theorem newStoreFromBytes_ok {wal snapshot : Device} {d : ByteDisk} {m : GoMap}
    {es : List Entry} (hsnapshot : snapshot.loadSnapshotBytes d = .map m)
    (hwal : wal.loadWalBytes d = .ok es) :
    newStoreFromBytes wal snapshot d
      = .ok (es.foldl ByteStore.applyLocked { newByteStore wal snapshot with data := m }) := by
  rw [newStoreFromBytes, hsnapshot, hwal]

theorem WriteCall.entry_known (c : WriteCall) : c.entry.known = true := by
  cases c <;> rfl

/-! ## Outcomes -/

/-- How much of its record an append puts into the log. -/
def AppendOutcome.written (out : AppendOutcome) (e : Entry) : Nat :=
  match out with
  | .ok => e.record.length
  | .shortWrite written => written
  | .syncError => e.record.length

/-- The node's log takes the entry. -/
def FileIo.Logs (io : FileIo) (wal : Device) : Prop := wal = .file → io.append = .ok

instance (io : FileIo) (wal : Device) : Decidable (io.Logs wal) :=
  inferInstanceAs (Decidable (wal = .file → io.append = .ok))

theorem FileWal.append_eq (file : Bytes) {e : Entry} (he : e.known = true)
    (out : AppendOutcome) :
    FileWal.append file e out
      = (file ++ e.record.take (out.written e), if out = .ok then none else some .io) := by
  unfold FileWal.append
  rw [if_pos he]
  cases out <;> simp [AppendOutcome.written]

theorem Device.appendBytes_file {e : Entry} (he : e.known = true) (out : AppendOutcome)
    (d : ByteDisk) :
    Device.appendBytes .file e out d
      = ({ d with wal := d.wal ++ e.record.take (out.written e) },
        if out = .ok then none else some .io) := by
  rw [Device.appendBytes, FileWal.append_eq _ he]

theorem Device.appendBytes_of_ne {wal : Device} (h : wal ≠ .file) (e : Entry)
    (out : AppendOutcome) (d : ByteDisk) : wal.appendBytes e out d = (d, none) := by
  cases wal with
  | absent => rfl
  | noop => rfl
  | file => exact absurd rfl h

theorem Device.saveBytes_wal (snapshot : Device) (state : GoMap) (io : FileIo) (d : ByteDisk) :
    (snapshot.saveBytes state io d).1.wal = d.wal := by
  unfold Device.saveBytes Device.writeTmpBytes Device.renameBytes
  cases snapshot with
  | absent => rfl
  | noop => rfl
  | file => cases io.writeTmp <;> cases io.rename <;> rfl

/-- A snapshot that could not be saved leaves the one before. -/
theorem Device.saveBytes_failed {snapshot : Device} {state : GoMap} {io : FileIo}
    {d : ByteDisk} {err : StoreError} (h : (snapshot.saveBytes state io d).2 = some err) :
    (snapshot.saveBytes state io d).1.snapshot = d.snapshot := by
  unfold Device.saveBytes Device.writeTmpBytes Device.renameBytes at h ⊢
  cases snapshot with
  | absent => rfl
  | noop => rfl
  | file =>
      cases hwrite : io.writeTmp with
      | false => rfl
      | true =>
          cases hrename : io.rename with
          | false => rfl
          | true => simp [hwrite, hrename] at h

namespace ByteStore

/-- A write that its log refuses. -/
theorem persistAndApplyLocked_refused {s : ByteStore} {io : FileIo} (hlogs : ¬ io.Logs s.wal)
    (d : ByteDisk) {e : Entry} (he : e.known = true) :
    s.persistAndApplyLocked d io e
      = (s, { d with wal := d.wal ++ e.record.take (io.append.written e) }, some .io) := by
  obtain ⟨hwal, hfails⟩ := Classical.not_imp.mp hlogs
  rw [persistAndApplyLocked, hwal, Device.appendBytes_file he, if_neg hfails]

/-- A write that its log takes goes on to the map and, when one is due, to
the snapshot. -/
theorem persistAndApplyLocked_logged {s : ByteStore} {io : FileIo} (hlogs : io.Logs s.wal)
    (d : ByteDisk) {e : Entry} (he : e.known = true) :
    ∃ d', d'.wal = d.wal ++ (if s.wal = .file then e.record else [])
      ∧ d'.snapshot = d.snapshot
      ∧ s.persistAndApplyLocked d io e = ((s.applyLocked e).countWrite.1,
        if (s.applyLocked e).countWrite.2 then
          s.snapshot.saveBytes (s.applyLocked e).data io d'
        else (d', none)) := by
  have hframe := (s.applyLocked e).countWrite_frame
  have hsnapshot : (s.applyLocked e).snapshot = s.snapshot := rfl
  by_cases hwal : s.wal = .file
  · refine ⟨{ d with wal := d.wal ++ e.record }, by rw [if_pos hwal], rfl, ?_⟩
    rw [persistAndApplyLocked, hwal, Device.appendBytes_file he, hlogs hwal, if_pos rfl,
      AppendOutcome.written, List.take_length]
    dsimp only
    rw [hframe.1, hframe.2.2, hsnapshot]
    split <;> rfl
  · refine ⟨d, by rw [if_neg hwal, List.append_nil], rfl, ?_⟩
    rw [persistAndApplyLocked, Device.appendBytes_of_ne hwal]
    dsimp only
    rw [hframe.1, hframe.2.2, hsnapshot]
    split <;> rfl

/-- The map follows the log, whatever happens to the snapshot. -/
theorem persistAndApplyLocked_get (s : ByteStore) (d : ByteDisk) (io : FileIo) {e : Entry}
    (he : e.known = true) :
    (s.persistAndApplyLocked d io e).1.data.get
        = (if io.Logs s.wal then e.write.exec s.data.get else s.data.get)
      ∧ (s.persistAndApplyLocked d io e).1.wal = s.wal := by
  by_cases hlogs : io.Logs s.wal
  · obtain ⟨d', -, -, hout⟩ := persistAndApplyLocked_logged hlogs d he
    obtain ⟨hdata, hwal, -⟩ := (s.applyLocked e).countWrite_frame
    rw [hout, if_pos hlogs, hdata, hwal]
    exact ⟨s.applyLocked_get e, rfl⟩
  · rw [persistAndApplyLocked_refused hlogs d he, if_neg hlogs]
    exact ⟨rfl, rfl⟩

end ByteStore

end RaftStore
