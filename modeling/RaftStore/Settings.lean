import RaftStore.Recovery

/-!
# Lifetimes with different settings

`cmd/simplekvs` takes `KVS_WAL_ENABLED` and `KVS_SNAPSHOT_ENABLED` from the
environment, so that over the same files one process may write the log and
the next only the snapshot. A start with both replays the whole log over
the snapshot, whichever is older.

`Traced` runs the processes of `Lifetimes` and numbers the writes: it keeps
for the log, for the snapshot and for the map in memory which writes they
are made of. As long as no process without the log saves a snapshot over a
log that has records (`InOrder`), each write in the snapshot is in the log
or older than all of it (`LastWrite.Layered`), and a start gives every key
its newest write on disk (`Traced.keeps_newest`). The system calls may fail
and the processes may end anywhere.
-/

namespace RaftStore

open LastWrite Runs

/-! ## Numbered writes -/

/-- `storage.OpenWAL` and `storage.OpenSnapshot`. -/
def openDevice (enabled : Bool) : Device := if enabled then .file else .noop

/-- A write with its number. -/
abbrev Numbered := Nat × Entry

/-- The map made of these writes. -/
def contents (ws : List Numbered) : Data := replay (ws.map Prod.snd) .empty

structure Trace where
  /-- All the writes that got as far as the log, in order. -/
  calls : List Entry
  wal : List Numbered
  memory : List Numbered
  tmp : List Numbered
  snapshot : List Numbered

def Trace.empty : Trace := ⟨[], [], [], [], []⟩

/-- The number of the write under way. -/
def Trace.current (t : Trace) : Nat := t.calls.length - 1

structure Traced extends Trace where
  machine : Machine

namespace Traced

def init : Traced := ⟨.empty, .init⟩

/-- Every write on record. -/
def all (t : Traced) : List Numbered := t.wal ++ t.memory ++ t.tmp ++ t.snapshot

def snapshots (t : Traced) : Bool := t.machine.store.any fun s => s.snapshot = .file

/-- The entry that an append with this outcome puts into the log. -/
def logged (t : Traced) (io : AppendIo) : Option Entry :=
  match t.machine.store, t.machine.writer with
  | some s, some ⟨e, .append⟩ => if s.wal = .file ∧ io ≠ .writeError then some e else none
  | _, _ => none

/-- What a step adds to the records, where it takes the machine to `m`. -/
def note (t : Traced) (m : Machine) : LifeAction → Traced
  | .start wal snapshot =>
      { t with
        machine := m
        memory := (if snapshot = .file then t.snapshot else [])
          ++ if wal = .file then t.wal else [] }
  | .upsert _ _ | .delete _ | .deliver _ =>
      { t with
        machine := m
        calls := t.calls ++ (m.writer.map Writer.entry).toList }
  | .append io =>
      { t with
        machine := m
        wal := t.wal ++ ((t.logged io).map fun e => (t.current, e)).toList }
  | .apply =>
      { t with
        machine := m
        memory := t.memory
          ++ (t.machine.writer.map fun w => (t.current, w.entry)).toList }
  | .writeTmp ok =>
      if ok && t.snapshots then { t with machine := m, tmp := t.memory }
      else { t with machine := m }
  | .rename ok =>
      if ok && t.snapshots then { t with machine := m, snapshot := t.tmp, tmp := [] }
      else { t with machine := m }
  | .ret => { t with machine := m }
  | .crash => { t with machine := m }

def step (unmarshal : Command → Option Entry) (t : Traced) (a : LifeAction) :
    Option Traced :=
  (t.machine.step unmarshal a).map fun m => t.note m a

end Traced

/-- The step that puts a new snapshot in place. -/
def LifeAction.saves : LifeAction → Bool
  | .rename ok => ok
  | _ => false

/-- No process without the log saves a snapshot once the log has a record. -/
def InOrder (t : Traced) (a : LifeAction) : Prop :=
  a.saves = true → ∀ s ∈ t.machine.store, s.snapshot = .file →
    s.wal = .file ∨ t.machine.disk.wal = []

theorem InOrder.of_not_saves {t : Traced} {a : LifeAction} (h : a.saves = false) :
    InOrder t a := by
  intro hsaves
  cases h.symm.trans hsaves

/-! ## Contents -/

/-- The writes of the entries, for the rules about stamps. -/
def stamped (ws : List Numbered) : List (Nat × Write Bytes Bytes) :=
  ws.map fun w => (w.1, w.2.write)

theorem contents_eq (ws : List Numbered) :
    contents ws = run ((stamped ws).map Prod.snd) (fun _ => none) := by
  rw [contents, replay, stamped, List.map_map, List.map_map]
  rfl

theorem contents_append (ws vs : List Numbered) :
    contents (ws ++ vs) = replay (vs.map Prod.snd) (contents ws) := by
  rw [contents, List.map_append, replay_append]
  rfl

/-! ## The invariant -/

/-- Where the records stand at each point of a write. -/
inductive Traced.Stage (t : Traced) (s : Store) : Option Writer → Prop where
  | idle : Stage t s none
  | append {e : Entry} (hknown : e.known = true)
      (hcall : t.calls[t.current]? = some e)
      (hfresh : ∀ w ∈ t.all, w.1 < t.current) :
      Stage t s (some ⟨e, .append⟩)
  | apply {e : Entry} (hcall : t.calls[t.current]? = some e)
      (hlogged : s.wal = .file → (t.current, e) ∈ t.wal) :
      Stage t s (some ⟨e, .apply⟩)
  | writeTmp {e : Entry} : Stage t s (some ⟨e, .writeTmp s.data⟩)
  | rename {e : Entry} (htmp : s.snapshot = .file →
      t.tmp = t.memory ∧ t.machine.disk.tmp = some s.data) :
      Stage t s (some ⟨e, .rename⟩)
  | ret {e : Entry} {err : Option StoreError} : Stage t s (some ⟨e, .ret err⟩)

/-- The records and the files. -/
structure Traced.Files (t : Traced) : Prop where
  known : ∀ e ∈ t.machine.disk.wal, e.known = true
  wal : t.wal.map Prod.snd = t.machine.disk.wal
  snapshot : t.machine.disk.snapshot.getD .empty = contents t.snapshot
  named : ∀ w ∈ t.all, t.calls[w.1]? = some w.2
  sorted : t.wal.Pairwise fun a b => a.1 < b.1
  layered : Layered t.wal t.snapshot

/-- The records and the process. -/
structure Traced.Process (t : Traced) (s : Store) : Prop where
  data : s.data = contents t.memory
  logged : s.wal = .file → Layered t.wal t.memory
  unlogged : t.wal = [] → Layered [] t.memory
  stage : t.Stage s t.machine.writer

structure Traced.Inv (t : Traced) : Prop extends t.Files where
  down : t.machine.store = none → t.machine.writer = none
  up : ∀ s, t.machine.store = some s → t.Process s

theorem Traced.inv_init : Traced.init.Inv where
  known _ h := by cases h
  wal := rfl
  snapshot := rfl
  named _ h := by cases h
  sorted := .nil
  layered := .nil _
  down _ := rfl
  up _ h := by cases h

theorem newStoreFromDisk_loaded {wal snapshot : Device} {d : Disk} {s : Store}
    (h : newStoreFromDisk wal snapshot d = .ok s) :
    s.wal = wal ∧ s.data = replay (if wal = .file then d.wal else [])
      (if snapshot = .file then d.snapshot.getD .empty else .empty) := by
  have hsnapshot : snapshot.loadSnapshot d
      = if snapshot = .file then d.snapshot.getD .empty else .empty := by
    cases snapshot <;> rfl
  have hwal : ∀ es, wal.loadWal d = .ok es → es = if wal = .file then d.wal else [] := by
    intro es hes
    cases wal with
    | absent => exact (Except.ok.inj hes).symm
    | noop => exact (Except.ok.inj hes).symm
    | file =>
        unfold Device.loadWal at hes
        dsimp only at hes
        split at hes
        · exact (Except.ok.inj hes).symm
        · cases hes
  unfold newStoreFromDisk at h
  dsimp only at h
  split at h
  · cases h
  · rename_i es hes
    cases h
    rw [Store.foldl_applyLocked, ← hwal es hes, ← hsnapshot]
    exact ⟨rfl, rfl⟩

namespace Traced

variable {unmarshal : Command → Option Entry} {t : Traced} {m : Machine} {s : Store}

theorem mem_all {w : Numbered} :
    w ∈ t.all ↔ w ∈ t.wal ∨ w ∈ t.memory ∨ w ∈ t.tmp ∨ w ∈ t.snapshot := by
  simp only [all, List.mem_append, or_assoc]

/-- Only the machine changes, and not its disk. -/
theorem Files.of_disk (h : t.Files) (hdisk : m.disk = t.machine.disk) :
    Files { t with machine := m } where
  known := hdisk ▸ h.known
  wal := h.wal.trans (congrArg Disk.wal hdisk).symm
  snapshot := (congrArg (fun d => d.snapshot.getD .empty) hdisk).trans h.snapshot
  named := h.named
  sorted := h.sorted
  layered := h.layered

/-- A start takes over what is in the files. -/
theorem Files.start (h : t.Files) {wal snapshot : Device}
    (hload : newStoreFromDisk wal snapshot t.machine.disk = .ok s)
    (hdisk : m.disk = t.machine.disk) (hidle : m.writer = none) :
    (t.note m (.start wal snapshot)).Files
      ∧ (t.note m (.start wal snapshot)).Process s := by
  obtain ⟨hwal, hdata⟩ := newStoreFromDisk_loaded hload
  have hsnap : contents (if snapshot = .file then t.snapshot else [])
      = if snapshot = .file then t.machine.disk.snapshot.getD .empty else .empty := by
    split
    · exact h.snapshot.symm
    · rfl
  have hlog : (if wal = .file then t.wal else []).map Prod.snd
      = if wal = .file then t.machine.disk.wal else [] := by
    split
    · exact h.wal
    · rfl
  have hlayer : Layered t.wal (if snapshot = .file then t.snapshot else []) := by
    split
    · exact h.layered
    · exact .nil _
  have hold := h.of_disk hdisk
  refine ⟨⟨hold.known, hold.wal, hold.snapshot, ?_, hold.sorted, hold.layered⟩,
    ⟨?_, ?_, ?_, hidle ▸ .idle⟩⟩
  · intro w hw
    refine h.named w (mem_all.mpr ?_)
    rcases mem_all.mp hw with hw | hw | hw | hw
    · exact .inl hw
    · rcases List.mem_append.mp hw with hw | hw
      · split at hw
        · exact .inr (.inr (.inr hw))
        · cases hw
      · split at hw
        · exact .inl hw
        · cases hw
    · exact .inr (.inr (.inl hw))
    · exact .inr (.inr (.inr hw))
  · show s.data = contents (_ ++ _)
    rw [contents_append, hsnap, hlog, hdata]
  · intro hfile
    show Layered t.wal (_ ++ if wal = .file then t.wal else [])
    rw [if_pos (hwal.symm.trans hfile)]
    exact hlayer.append_log
  · intro hnil
    have hnil' : t.wal = [] := hnil
    show Layered [] (_ ++ if wal = .file then t.wal else [])
    rw [hnil'] at hlayer ⊢
    rw [ite_self, List.append_nil]
    exact hlayer

/-- A write takes the lock and gets the next number. -/
theorem Files.call (h : t.Files) (hp : t.Process s) {e : Entry}
    (hknown : e.known = true) (hdisk : m.disk = t.machine.disk)
    (hw : m.writer = some ⟨e, .append⟩) :
    Files { t with machine := m, calls := t.calls ++ [e] }
      ∧ Process { t with machine := m, calls := t.calls ++ [e] } s := by
  have hold := h.of_disk hdisk
  have hlt : ∀ w ∈ t.all, w.1 < t.calls.length := fun w hw =>
    (List.getElem?_eq_some_iff.mp (h.named w hw)).1
  have hcurrent : (t.calls ++ [e]).length - 1 = t.calls.length := by
    rw [List.length_append, List.length_singleton, Nat.add_sub_cancel]
  refine ⟨⟨hold.known, hold.wal, hold.snapshot, ?_, hold.sorted, hold.layered⟩,
    ⟨hp.data, hp.logged, hp.unlogged, ?_⟩⟩
  · intro w hw
    show (t.calls ++ [e])[w.1]? = some w.2
    rw [List.getElem?_append_left (hlt w hw)]
    exact h.named w hw
  · show Stage _ s m.writer
    rw [hw]
    refine .append hknown ?_ ?_
    · show (t.calls ++ [e])[(t.calls ++ [e]).length - 1]? = some e
      rw [hcurrent, List.getElem?_concat_length]
    · intro w hw
      show w.1 < (t.calls ++ [e]).length - 1
      rw [hcurrent]
      exact hlt w hw

/-- The log takes the entry. -/
theorem Files.logged (h : t.Files) (hp : t.Process s) {e : Entry}
    (hwriter : t.machine.writer = some ⟨e, .append⟩)
    (hdisk : m.disk = { t.machine.disk with wal := t.machine.disk.wal ++ [e] })
    (hw : m.writer = some ⟨e, .apply⟩ ∨ ∃ err, m.writer = some ⟨e, .ret err⟩) :
    Files { t with machine := m, wal := t.wal ++ [(t.current, e)] }
      ∧ Process { t with machine := m, wal := t.wal ++ [(t.current, e)] } s := by
  have hstage := hp.stage
  rw [hwriter] at hstage
  cases hstage with
  | append hknown hcall hfresh =>
      refine ⟨⟨?_, ?_, ?_, ?_, ?_, ?_⟩, ⟨hp.data, ?_, ?_, ?_⟩⟩
      · intro x hx
        rw [hdisk] at hx
        rcases List.mem_append.mp hx with hx | hx
        · exact h.known x hx
        · rwa [List.mem_singleton.mp hx]
      · show (t.wal ++ [(t.current, e)]).map Prod.snd = m.disk.wal
        rw [List.map_append, h.wal, hdisk]
        rfl
      · show m.disk.snapshot.getD .empty = contents t.snapshot
        rw [hdisk]
        exact h.snapshot
      · intro w hw
        rcases mem_all.mp hw with hw | hw
        · rcases List.mem_append.mp hw with hw | hw
          · exact h.named w (mem_all.mpr (.inl hw))
          · rw [List.mem_singleton.mp hw]
            exact hcall
        · exact h.named w (mem_all.mpr (.inr hw))
      · refine List.pairwise_append.mpr ⟨h.sorted, List.pairwise_singleton _ _, ?_⟩
        intro a ha b hb
        rw [List.mem_singleton.mp hb]
        exact hfresh a (mem_all.mpr (.inl ha))
      · exact h.layered.grow fun w hw =>
          hfresh w (mem_all.mpr (.inr (.inr (.inr hw))))
      · intro hfile
        exact (hp.logged hfile).grow fun w hw => hfresh w (mem_all.mpr (.inr (.inl hw)))
      · intro hnil
        cases (List.append_eq_nil_iff.mp hnil).2
      · show Stage _ s m.writer
        rcases hw with hw | ⟨err, hw⟩
        · rw [hw]
          exact .apply hcall fun _ =>
            List.mem_append_right _ (List.mem_singleton_self _)
        · rw [hw]
          exact .ret

/-- The log is not used, or fails to take the entry. -/
theorem Process.unlogged_append (hp : t.Process s) {e : Entry}
    (hwriter : t.machine.writer = some ⟨e, .append⟩)
    (hw : s.wal ≠ .file ∧ m.writer = some ⟨e, .apply⟩
      ∨ ∃ err, m.writer = some ⟨e, .ret err⟩) :
    Process { t with machine := m } s := by
  refine ⟨hp.data, hp.logged, hp.unlogged, ?_⟩
  show Stage _ s m.writer
  have hstage := hp.stage
  rw [hwriter] at hstage
  cases hstage with
  | append hknown hcall hfresh =>
      rcases hw with ⟨hfile, hw⟩ | ⟨err, hw⟩
      · rw [hw]
        exact .apply hcall fun hfile' => absurd hfile' hfile
      · rw [hw]
        exact .ret

/-- The map takes the entry. -/
theorem Files.applied (h : t.Files) (hp : t.Process s) {e : Entry} {s' : Store}
    (hwriter : t.machine.writer = some ⟨e, .apply⟩) (hdisk : m.disk = t.machine.disk)
    (hdata : s'.data = e.write.exec s.data) (hwal : s'.wal = s.wal)
    (hw : m.writer = some ⟨e, .writeTmp s'.data⟩
      ∨ ∃ err, m.writer = some ⟨e, .ret err⟩) :
    Files { t with machine := m, memory := t.memory ++ [(t.current, e)] }
      ∧ Process { t with machine := m, memory := t.memory ++ [(t.current, e)] } s' := by
  have hold := h.of_disk hdisk
  have hstage := hp.stage
  rw [hwriter] at hstage
  cases hstage with
  | apply hcall hlogged =>
      refine ⟨⟨hold.known, hold.wal, hold.snapshot, ?_, hold.sorted, hold.layered⟩,
        ⟨?_, ?_, ?_, ?_⟩⟩
      · intro w hw
        rcases mem_all.mp hw with hw | hw | hw
        · exact h.named w (mem_all.mpr (.inl hw))
        · rcases List.mem_append.mp hw with hw | hw
          · exact h.named w (mem_all.mpr (.inr (.inl hw)))
          · rw [List.mem_singleton.mp hw]
            exact hcall
        · exact h.named w (mem_all.mpr (.inr (.inr hw)))
      · show s'.data = contents (t.memory ++ [(t.current, e)])
        rw [contents_append, hdata, hp.data]
        rfl
      · intro hfile
        have hfile' := hwal.symm.trans hfile
        exact (hp.logged hfile').push (hlogged hfile')
      · intro hnil
        refine (hp.unlogged hnil).push_nil ?_
        intro w hw
        have hlt := (List.getElem?_eq_some_iff.mp
          (h.named w (mem_all.mpr (.inr (.inl hw))))).1
        show w.1 ≤ t.calls.length - 1
        omega
      · show Stage _ s' m.writer
        rcases hw with hw | ⟨err, hw⟩
        · rw [hw]
          exact .writeTmp
        · rw [hw]
          exact .ret

/-- The temporary file has the map. -/
theorem Files.written (h : t.Files) (hp : t.Process s) {e : Entry}
    (hsnap : m.disk.snapshot = t.machine.disk.snapshot)
    (hlog : m.disk.wal = t.machine.disk.wal) (htmp : m.disk.tmp = some s.data)
    (hw : m.writer = some ⟨e, .rename⟩) :
    Files { t with machine := m, tmp := t.memory }
      ∧ Process { t with machine := m, tmp := t.memory } s := by
  refine ⟨⟨hlog ▸ h.known, h.wal.trans hlog.symm, ?_, ?_, h.sorted, h.layered⟩,
    ⟨hp.data, hp.logged, hp.unlogged, ?_⟩⟩
  · show m.disk.snapshot.getD .empty = contents t.snapshot
    rw [hsnap]
    exact h.snapshot
  · intro w hw
    refine h.named w (mem_all.mpr ?_)
    rcases mem_all.mp hw with hw | hw | hw | hw
    · exact .inl hw
    · exact .inr (.inl hw)
    · exact .inr (.inl hw)
    · exact .inr (.inr (.inr hw))
  · show Stage _ s m.writer
    rw [hw]
    exact .rename fun _ => ⟨rfl, htmp⟩

/-- The snapshot is replaced by what is in memory. -/
theorem Files.renamed (h : t.Files) (hp : t.Process s) {e : Entry} {err : Option StoreError}
    (hfile : s.snapshot = .file) (hwriter : t.machine.writer = some ⟨e, .rename⟩)
    (hdisk : m.disk = { t.machine.disk with
      snapshot := t.machine.disk.tmp, tmp := none })
    (hw : m.writer = some ⟨e, .ret err⟩)
    (horder : s.wal = .file ∨ t.machine.disk.wal = []) :
    Files { t with machine := m, snapshot := t.tmp, tmp := [] }
      ∧ Process { t with machine := m, snapshot := t.tmp, tmp := [] } s := by
  have hstage := hp.stage
  rw [hwriter] at hstage
  cases hstage with
  | rename htmp =>
      obtain ⟨hmemory, hdata⟩ := htmp hfile
      have hlayered : Layered t.wal t.memory := by
        rcases horder with hwal | hempty
        · exact hp.logged hwal
        · have hnil : t.wal = [] := List.map_eq_nil_iff.mp (h.wal.trans hempty)
          rw [hnil]
          exact hp.unlogged hnil
      refine ⟨⟨?_, ?_, ?_, ?_, h.sorted, hmemory ▸ hlayered⟩,
        ⟨hp.data, hp.logged, hp.unlogged, ?_⟩⟩
      · intro x hx
        rw [hdisk] at hx
        exact h.known x hx
      · show t.wal.map Prod.snd = m.disk.wal
        rw [hdisk]
        exact h.wal
      · show m.disk.snapshot.getD .empty = contents t.tmp
        rw [hdisk, hmemory, ← hp.data]
        show t.machine.disk.tmp.getD .empty = s.data
        rw [hdata]
        rfl
      · intro w hw
        refine h.named w (mem_all.mpr ?_)
        rcases mem_all.mp hw with hw | hw | hw | hw
        · exact .inl hw
        · exact .inr (.inl hw)
        · cases hw
        · exact .inr (.inr (.inl hw))
      · show Stage _ s m.writer
        rw [hw]
        exact .ret

/-! ## Runs -/

theorem Inv.of_up (hf : t.Files) (hp : t.Process s) (hup : t.machine.store = some s) :
    t.Inv where
  toFiles := hf
  down hdown := by
    rw [hup] at hdown
    cases hdown
  up s' hup' := by
    cases hup.symm.trans hup'
    exact hp

/-- A step that leaves the records alone and the lock free. -/
theorem Inv.idle (h : t.Inv) (hup : t.machine.store = some s) (hup' : m.store = some s)
    (hdisk : m.disk = t.machine.disk) (hw : m.writer = none) :
    Inv { t with machine := m } := by
  have hp := h.up s hup
  refine .of_up (h.toFiles.of_disk hdisk) ⟨hp.data, hp.logged, hp.unlogged, ?_⟩ hup'
  show Stage _ s m.writer
  rw [hw]
  exact .idle

theorem snapshots_eq (hup : t.machine.store = some s) :
    t.snapshots = (s.snapshot = .file : Bool) := by
  rw [snapshots, hup]
  rfl

/-- `Upsert`, `Delete` and the commands of `RunApplyLoop`. -/
theorem note_call {a : LifeAction} (ha : a.isCall = true ∨ ∃ cmd, a = .deliver cmd) :
    t.note m a = { t with
      machine := m
      calls := t.calls ++ (m.writer.map Writer.entry).toList } := by
  rcases ha with ha | ⟨cmd, rfl⟩
  · cases a <;> first | rfl | cases ha
  · rfl

theorem Inv.start (h : t.Inv) {wal snapshot : Device}
    (hload : newStoreFromDisk wal snapshot t.machine.disk = .ok s)
    (hup : m.store = some s) (hdisk : m.disk = t.machine.disk)
    (hidle : m.writer = none) : (t.note m (.start wal snapshot)).Inv := by
  obtain ⟨hf, hp⟩ := h.toFiles.start hload hdisk hidle
  exact .of_up hf hp hup

/-- A call that is refused. -/
theorem Inv.refuse (h : t.Inv) {a : LifeAction}
    (ha : a.isCall = true ∨ ∃ cmd, a = .deliver cmd) (hup : t.machine.store = some s)
    (hup' : m.store = some s) (hdisk : m.disk = t.machine.disk)
    (hw : m.writer = none) : (t.note m a).Inv := by
  rw [note_call ha, hw]
  show Inv { t with machine := m, calls := t.calls ++ [] }
  rw [List.append_nil]
  exact h.idle hup hup' hdisk hw

theorem Inv.lock (h : t.Inv) {a : LifeAction} {e : Entry}
    (ha : a.isCall = true ∨ ∃ cmd, a = .deliver cmd) (hup : t.machine.store = some s)
    (hknown : e.known = true) (hup' : m.store = some s)
    (hdisk : m.disk = t.machine.disk) (hw : m.writer = some ⟨e, .append⟩) :
    (t.note m a).Inv := by
  rw [note_call ha, hw]
  obtain ⟨hf, hp⟩ := h.toFiles.call (h.up s hup) hknown hdisk hw
  exact .of_up hf hp hup'

theorem Inv.append (h : t.Inv) (hup : t.machine.store = some s) {e : Entry}
    (hw : t.machine.writer = some ⟨e, .append⟩) {io : AppendIo}
    (hup' : m.store = some s) (hdisk : m.disk = (s.wal.append e io t.machine.disk).1)
    (hw' : m.writer = some ⟨e,
      match (s.wal.append e io t.machine.disk).2 with
      | none => .apply
      | some err => .ret (some err)⟩) :
    (t.note m (.append io)).Inv := by
  have hp := h.up s hup
  -- the log has the entry, and the write goes on or fails
  have hlogged (hnote : t.logged io = some e)
      (hdisk : m.disk = { t.machine.disk with wal := t.machine.disk.wal ++ [e] })
      (hw' : m.writer = some ⟨e, .apply⟩ ∨ ∃ err, m.writer = some ⟨e, .ret err⟩) :
      (t.note m (.append io)).Inv := by
    obtain ⟨hf', hp'⟩ := h.toFiles.logged hp hw hdisk hw'
    rw [note, hnote]
    exact .of_up hf' hp' hup'
  have hunlogged (hnote : t.logged io = none) (hdisk : m.disk = t.machine.disk)
      (hw' : s.wal ≠ .file ∧ m.writer = some ⟨e, .apply⟩
        ∨ ∃ err, m.writer = some ⟨e, .ret err⟩) :
      (t.note m (.append io)).Inv := by
    have hsame : t.note m (.append io) = { t with machine := m } := by
      rw [note, hnote]
      exact congrArg (fun ws => { t with machine := m, wal := ws }) (List.append_nil _)
    rw [hsame]
    exact .of_up (h.toFiles.of_disk hdisk) (hp.unlogged_append hw hw') hup'
  cases hwal : s.wal with
  | absent =>
      rw [hwal] at hdisk hw'
      exact hunlogged (by simp [logged, hup, hw, hwal]) hdisk
        (.inl ⟨by rw [hwal]; decide, hw'⟩)
  | noop =>
      rw [hwal] at hdisk hw'
      exact hunlogged (by simp [logged, hup, hw, hwal]) hdisk
        (.inl ⟨by rw [hwal]; decide, hw'⟩)
  | file =>
      have hstage := hp.stage
      rw [hw] at hstage
      cases hstage with
      | append hknown hcall hfresh =>
          have happend : Device.append .file e io t.machine.disk = _ := if_pos hknown
          rw [hwal, happend] at hdisk hw'
          cases io with
          | ok => exact hlogged (by simp [logged, hup, hw, hwal]) hdisk (.inl hw')
          | writeError =>
              exact hunlogged (by simp [logged, hup, hw, hwal]) hdisk (.inr ⟨_, hw'⟩)
          | syncError =>
              exact hlogged (by simp [logged, hup, hw, hwal]) hdisk (.inr ⟨_, hw'⟩)

theorem Inv.apply (h : t.Inv) (hup : t.machine.store = some s) {e : Entry}
    (hw : t.machine.writer = some ⟨e, .apply⟩)
    (hup' : m.store = some (s.applyLocked e).countWrite.1)
    (hdisk : m.disk = t.machine.disk)
    (hw' : m.writer = some ⟨e,
      if (s.applyLocked e).countWrite.2 then
        .writeTmp (s.applyLocked e).countWrite.1.data
      else .ret none⟩) :
    (t.note m .apply).Inv := by
  obtain ⟨hdata, hwal, -⟩ := (s.applyLocked e).countWrite_frame
  rw [s.applyLocked_data] at hdata
  have hnote : t.note m .apply
      = { t with machine := m, memory := t.memory ++ [(t.current, e)] } := by
    rw [note, hw]
    rfl
  have hnext : m.writer = some ⟨e, .writeTmp (s.applyLocked e).countWrite.1.data⟩
      ∨ ∃ err, m.writer = some ⟨e, .ret err⟩ := by
    rw [hw']
    split
    · exact .inl rfl
    · exact .inr ⟨none, rfl⟩
  obtain ⟨hf, hp⟩ := h.toFiles.applied (h.up s hup) hw hdisk hdata hwal hnext
  rw [hnote]
  exact .of_up hf hp hup'

theorem Inv.writeTmp (h : t.Inv) (hup : t.machine.store = some s) {e : Entry}
    {state : Data} (hw : t.machine.writer = some ⟨e, .writeTmp state⟩) {ok : Bool}
    (hup' : m.store = some s)
    (hdisk : m.disk = (s.snapshot.writeTmp state ok t.machine.disk).1)
    (hw' : m.writer = some ⟨e,
      match (s.snapshot.writeTmp state ok t.machine.disk).2 with
      | none => .rename
      | some err => .ret (some err)⟩) :
    (t.note m (.writeTmp ok)).Inv := by
  have hp := h.up s hup
  have hstate : state = s.data := by
    have hstage := hp.stage
    rw [hw] at hstage
    cases hstage
    rfl
  have hother (hnote : (ok && t.snapshots) = false) (hdisk : m.disk = t.machine.disk)
      (hstage : Stage { t with machine := m } s m.writer) :
      (t.note m (.writeTmp ok)).Inv := by
    rw [note, hnote]
    exact .of_up (h.toFiles.of_disk hdisk) ⟨hp.data, hp.logged, hp.unlogged, hstage⟩ hup'
  by_cases hfile : s.snapshot = .file
  · cases ok with
    | true =>
        have hwrite : s.snapshot.writeTmp state true t.machine.disk
            = ({ t.machine.disk with tmp := some state }, none) := by
          rw [hfile]
          rfl
        rw [hwrite] at hdisk hw'
        rw [note, snapshots_eq hup, decide_eq_true hfile]
        obtain ⟨hf', hp'⟩ := h.toFiles.written hp (by rw [hdisk]) (by rw [hdisk])
          (by rw [hdisk, hstate]) hw'
        exact .of_up hf' hp' hup'
    | false =>
        rw [hfile] at hdisk hw'
        refine hother rfl hdisk ?_
        rw [hw']
        exact .ret
  · rw [Device.writeTmp_of_ne hfile] at hdisk hw'
    refine hother ?_ hdisk ?_
    · rw [snapshots_eq hup, decide_eq_false hfile, Bool.and_false]
    · rw [hw']
      exact .rename fun hfile' => absurd hfile' hfile

theorem Inv.rename (h : t.Inv) (hup : t.machine.store = some s) {e : Entry}
    (hw : t.machine.writer = some ⟨e, .rename⟩) {ok : Bool}
    (horder : InOrder t (.rename ok)) (hup' : m.store = some s)
    (hdisk : m.disk = (s.snapshot.rename ok t.machine.disk).1)
    (hw' : m.writer = some ⟨e, .ret (s.snapshot.rename ok t.machine.disk).2⟩) :
    (t.note m (.rename ok)).Inv := by
  have hp := h.up s hup
  have hother (hnote : (ok && t.snapshots) = false) (hdisk : m.disk = t.machine.disk) :
      (t.note m (.rename ok)).Inv := by
    rw [note, hnote]
    refine .of_up (h.toFiles.of_disk hdisk) ⟨hp.data, hp.logged, hp.unlogged, ?_⟩ hup'
    show Stage _ s m.writer
    rw [hw']
    exact .ret
  by_cases hfile : s.snapshot = .file
  · cases ok with
    | true =>
        have hrename : s.snapshot.rename true t.machine.disk
            = ({ t.machine.disk with snapshot := t.machine.disk.tmp, tmp := none },
              none) := by
          rw [hfile]
          rfl
        rw [hrename] at hdisk hw'
        obtain ⟨hf', hp'⟩ := h.toFiles.renamed hp hfile hw hdisk hw'
          (horder rfl s hup hfile)
        rw [note, snapshots_eq hup, decide_eq_true hfile]
        exact .of_up hf' hp' hup'
    | false =>
        rw [hfile] at hdisk
        exact hother rfl hdisk
  · rw [Device.rename_of_ne hfile] at hdisk
    refine hother ?_ hdisk
    rw [snapshots_eq hup, decide_eq_false hfile, Bool.and_false]

theorem Inv.ret (h : t.Inv) {e : Entry} {err : Option StoreError}
    (hw : t.machine.writer = some ⟨e, .ret err⟩) (hstore : m.store = t.machine.store)
    (hdisk : m.disk = t.machine.disk) (hw' : m.writer = none) :
    (t.note m .ret).Inv := by
  cases hup : t.machine.store with
  | none =>
      have := h.down hup
      rw [hw] at this
      cases this
  | some s => exact h.idle hup (hstore.trans hup) hdisk hw'

theorem Inv.crash (h : t.Inv) (hdown : m.store = none) (hdisk : m.disk = t.machine.disk)
    (hw : m.writer = none) : (t.note m .crash).Inv where
  toFiles := h.toFiles.of_disk hdisk
  down _ := hw
  up s hup := by
    cases hdown.symm.trans hup

theorem Inv.step {a : LifeAction} {t' : Traced} (h : t.Inv) (horder : InOrder t a)
    (hstep : t.step unmarshal a = some t') : t'.Inv := by
  obtain ⟨m, hm, rfl⟩ := Option.map_eq_some_iff.mp hstep
  cases Machine.step_move hm with
  | start hdown hload => exact h.start hload rfl rfl (h.down hdown)
  | refuse ha hup hidle => exact h.refuse (.inl ha) hup hup rfl hidle
  | lock ha hup hidle hvalid => exact h.lock (.inl ha) hup hvalid.2 hup rfl rfl
  | skip hup hidle hbad => exact h.refuse (.inr ⟨_, rfl⟩) hup hup rfl hidle
  | deliver hup hidle hdecode hvalid hvalid' hsame =>
      exact h.lock (.inr ⟨_, rfl⟩) hup hvalid'.2 hup rfl rfl
  | append hup hw => exact h.append hup hw hup rfl rfl
  | apply hup hw => exact h.apply hup hw rfl rfl rfl
  | writeTmp hup hw => exact h.writeTmp hup hw hup rfl rfl
  | rename hup hw => exact h.rename hup hw horder hup rfl rfl
  | ret hw => exact h.ret hw rfl rfl rfl
  | crash hup => exact h.crash rfl rfl rfl

theorem inv_reachable (h : Reachable (Traced.step unmarshal) InOrder .init t) : t.Inv :=
  Reachable.invariant inv_init (fun _ _ _ _ ih hok hstep => ih.step hok hstep) h

end Traced

/-! ## What a start finds -/

/-- With both enabled, a start gives each key what its newest write on disk
gave it. -/
theorem Traced.keeps_newest {unmarshal : Command → Option Entry} {t : Traced}
    (h : Reachable (Traced.step unmarshal) InOrder .init t) :
    t.machine.disk.wal = t.wal.map Prod.snd
      ∧ t.machine.disk.snapshot.getD .empty = contents t.snapshot
      ∧ (∀ w ∈ t.snapshot ++ t.wal, t.calls[w.1]? = some w.2)
      ∧ ∃ s, newStoreFromDisk (openDevice true) (openDevice true) t.machine.disk = .ok s
        ∧ ∀ k, Newest (stamped (t.snapshot ++ t.wal)) k (s.data k) := by
  have hinv := Traced.inv_reachable h
  refine ⟨hinv.wal.symm, hinv.snapshot, ?_, _, newStoreFromDisk_file hinv.known, ?_⟩
  · intro w hw
    refine hinv.named w (Traced.mem_all.mpr ?_)
    rcases List.mem_append.mp hw with hw | hw
    · exact .inr (.inr (.inr hw))
    · exact .inl hw
  · intro k
    show Newest _ k (replay t.machine.disk.wal (t.machine.disk.snapshot.getD .empty) k)
    rw [hinv.snapshot, ← hinv.wal, ← contents_append, contents_eq, stamped, List.map_append]
    exact (hinv.layered.map Entry.write).newest (List.pairwise_map.mpr hinv.sorted) k

end RaftStore
