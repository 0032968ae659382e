import RaftStore.Lifetimes

/-!
# Recovery after a crash

The log is never cut and the snapshot carries no position in it, so a
process replays writes over a map that has seen them already. That is
harmless: every snapshot is the replay of a beginning of the log
(`Machine.Sound`), and a log absorbs the replay of its own beginning
(`replay_absorbs`).

`Executed` reads the writes off the history: those that came back with
nil, and for each crash the one write that was under way or not.
`crash_recovery` says that the log is such a list of writes, whatever the
crashes, and that a start gives the map they make.
-/

namespace RaftStore

open LastWrite Runs

/-! ## What has been written -/

/-- `ws` are the writes of the history that took effect, oldest first. -/
inductive Executed : List StoreEvent → List Entry → Prop where
  | init : Executed [] []
  | acknowledged {history : List StoreEvent} {ws : List Entry} {e : Entry}
      (h : Executed history ws) :
      Executed (.returned e none :: history) (ws ++ [e])
  | failed {history : List StoreEvent} {ws : List Entry} {e : Entry}
      {err : StoreError} (h : Executed history ws) :
      Executed (.returned e (some err) :: history) ws
  | lost {history : List StoreEvent} {ws : List Entry} {e : Option Entry}
      (h : Executed history ws) : Executed (.crashed e :: history) ws
  | kept {history : List StoreEvent} {ws : List Entry} {e : Entry}
      (h : Executed history ws) :
      Executed (.crashed (some e) :: history) (ws ++ [e])

/-- Where the log, the map in memory and the history stand to one another
at each point of a write. -/
inductive Stage (history : List StoreEvent) (d : Disk) (data : Data) :
    Option Writer → Prop where
  | idle (hdata : data = replay d.wal .empty) (hex : Executed history d.wal) :
      Stage history d data none
  | append {e : Entry} (hknown : e.known = true)
      (hdata : data = replay d.wal .empty) (hex : Executed history d.wal) :
      Stage history d data (some ⟨e, .append⟩)
  | apply {e : Entry} {ws : List Entry} (hwal : d.wal = ws ++ [e])
      (hdata : data = replay ws .empty) (hex : Executed history ws) :
      Stage history d data (some ⟨e, .apply⟩)
  | writeTmp {e : Entry} {ws : List Entry} (hwal : d.wal = ws ++ [e])
      (hdata : data = replay d.wal .empty) (hex : Executed history ws) :
      Stage history d data (some ⟨e, .writeTmp data⟩)
  | rename {e : Entry} {ws : List Entry} (hwal : d.wal = ws ++ [e])
      (hdata : data = replay d.wal .empty) (htmp : d.tmp = some data)
      (hex : Executed history ws) :
      Stage history d data (some ⟨e, .rename⟩)
  | ret {e : Entry} {ws : List Entry} (hwal : d.wal = ws ++ [e])
      (hdata : data = replay d.wal .empty) (hex : Executed history ws) :
      Stage history d data (some ⟨e, .ret none⟩)

/-- A crash leaves a log that the history explains. -/
theorem Stage.crashed {history : List StoreEvent} {d : Disk} {data : Data}
    {w : Option Writer} (h : Stage history d data w) :
    Executed (.crashed (w.map Writer.entry) :: history) d.wal := by
  cases h with
  | idle hdata hex => exact .lost hex
  | append hknown hdata hex => exact .lost hex
  | apply hwal hdata hex => exact hwal ▸ .kept hex
  | writeTmp hwal hdata hex => exact hwal ▸ .kept hex
  | rename hwal hdata htmp hex => exact hwal ▸ .kept hex
  | ret hwal hdata hex => exact hwal ▸ .kept hex

/-! ## The invariant -/

/-- A snapshot is the map some beginning of the log makes. -/
def Disk.SnapshotOfWal (d : Disk) : Prop :=
  ∀ st, d.snapshot = some st → ∃ p, p <+: d.wal ∧ st = replay p .empty

structure Machine.Sound (m : Machine) : Prop where
  known : ∀ e ∈ m.disk.wal, e.known = true
  snapshot : m.disk.SnapshotOfWal
  down : m.store = none → m.writer = none ∧ Executed m.history m.disk.wal
  up : ∀ s, m.store = some s → s.wal = .file ∧ s.snapshot = .file
    ∧ Stage m.history m.disk s.data m.writer

theorem Disk.SnapshotOfWal.append {d : Disk} (h : d.SnapshotOfWal)
    (e : Entry) : Disk.SnapshotOfWal { d with wal := d.wal ++ [e] } := by
  intro st hst
  obtain ⟨p, hp, rfl⟩ := h st hst
  exact ⟨p, hp.trans (List.prefix_append ..), rfl⟩

/-- Starting gives the map of the whole log. -/
theorem Disk.SnapshotOfWal.restore {d : Disk} (h : d.SnapshotOfWal)
    (hknown : ∀ e ∈ d.wal, e.known = true) :
    newStoreFromDisk .file .file d
      = .ok { newStore .file .file with data := replay d.wal .empty } := by
  rw [newStoreFromDisk_file hknown]
  cases hsnap : d.snapshot with
  | none => rfl
  | some st =>
      obtain ⟨p, hp, rfl⟩ := h st hsnap
      rw [Option.getD_some, replay_absorbs hp]

namespace Machine

variable {unmarshal : Command → Option Entry} {m m' : Machine} {a : LifeAction}

theorem sound_init : Machine.init.Sound where
  known _ h := by cases h
  snapshot _ h := by cases h
  down _ := ⟨rfl, .init⟩
  up _ h := by cases h

/-- An append to the file that goes well. -/
theorem append_file {e : Entry} (hknown : e.known = true) (d : Disk) :
    Device.append .file e .ok d = ({ d with wal := d.wal ++ [e] }, none) :=
  if_pos hknown

/-- While a process runs, the writer's stage is all there is to show. -/
theorem Sound.of_up {s : Store} (hup : m.store = some s)
    (hknown : ∀ e ∈ m.disk.wal, e.known = true)
    (hsnapshot : m.disk.SnapshotOfWal) (hwal : s.wal = .file)
    (hsnap : s.snapshot = .file)
    (hstage : Stage m.history m.disk s.data m.writer) : m.Sound where
  known := hknown
  snapshot := hsnapshot
  down hdown := by cases hup.symm.trans hdown
  up s' hs' := by
    cases hup.symm.trans hs'
    exact ⟨hwal, hsnap, hstage⟩

/-- While nobody holds the lock, the map is that of the log. -/
theorem Sound.resting (h : m.Sound) {s : Store} (hup : m.store = some s)
    (hidle : m.writer = none) :
    s.wal = .file ∧ s.snapshot = .file ∧ s.data = replay m.disk.wal .empty
      ∧ Executed m.history m.disk.wal := by
  obtain ⟨hwal, hsnap, hstage⟩ := h.up s hup
  rw [hidle] at hstage
  cases hstage with
  | idle hdata hex => exact ⟨hwal, hsnap, hdata, hex⟩

theorem Sound.step (h : m.Sound) (hmove : Move unmarshal m a m')
    (hclean : a.clean = true) : m'.Sound := by
  cases hmove with
  | @start wal snapshot s hdown hload =>
      obtain ⟨hidle, hex⟩ := h.down hdown
      obtain ⟨rfl, rfl⟩ : wal = .file ∧ snapshot = .file := by
        simpa [LifeAction.clean] using hclean
      cases (h.snapshot.restore h.known).symm.trans hload
      exact .of_up rfl h.known h.snapshot rfl rfl (hidle ▸ .idle rfl hex)
  | @refuse _ e s ha hup hidle =>
      obtain ⟨hwal, hsnap, hdata, hex⟩ := h.resting hup hidle
      exact .of_up hup h.known h.snapshot hwal hsnap
        (hidle ▸ .idle hdata (.failed hex))
  | @lock _ e s ha hup hidle hvalid =>
      obtain ⟨hwal, hsnap, hdata, hex⟩ := h.resting hup hidle
      exact .of_up hup h.known h.snapshot hwal hsnap (.append hvalid.2 hdata hex)
  | skip hup hidle hbad => exact ⟨h.known, h.snapshot, h.down, h.up⟩
  | @deliver cmd e e' s hup hidle hdecode hvalid hvalid' hsame =>
      obtain ⟨hwal, hsnap, hdata, hex⟩ := h.resting hup hidle
      exact .of_up hup h.known h.snapshot hwal hsnap (.append hvalid'.2 hdata hex)
  | @append s e io hup hw =>
      obtain rfl : io = .ok := by simpa [LifeAction.clean] using hclean
      obtain ⟨hwal, hsnap, hstage⟩ := h.up s hup
      rw [hw] at hstage
      cases hstage with
      | append hknown hdata hex =>
          rw [hwal, append_file hknown]
          refine .of_up hup ?_ (h.snapshot.append e) hwal hsnap
            (.apply rfl hdata hex)
          intro x hx
          rcases List.mem_append.mp hx with hx | hx
          · exact h.known x hx
          · rw [List.mem_singleton.mp hx]
            exact hknown
  | @apply s e hup hw =>
      obtain ⟨hwal, hsnap, hstage⟩ := h.up s hup
      obtain ⟨hdata', hwal', hsnap'⟩ := (s.applyLocked e).countWrite_frame
      rw [hw] at hstage
      cases hstage with
      | @apply _ ws hlog hdata hex =>
          have hnew : (s.applyLocked e).countWrite.1.data
              = replay m.disk.wal .empty := by
            rw [hdata', s.applyLocked_data, hlog, replay_concat, hdata]
          refine .of_up rfl h.known h.snapshot (hwal'.trans hwal)
            (hsnap'.trans hsnap) ?_
          dsimp only
          split
          · exact .writeTmp hlog hnew hex
          · exact .ret hlog hnew hex
  | @writeTmp s e state ok hup hw =>
      obtain rfl : ok = true := hclean
      obtain ⟨hwal, hsnap, hstage⟩ := h.up s hup
      rw [hw] at hstage
      cases hstage with
      | writeTmp hlog hdata hex =>
          rw [hsnap]
          exact .of_up hup h.known h.snapshot hwal hsnap
            (.rename hlog hdata rfl hex)
  | @rename s e ok hup hw =>
      obtain rfl : ok = true := hclean
      obtain ⟨hwal, hsnap, hstage⟩ := h.up s hup
      rw [hw] at hstage
      cases hstage with
      | rename hlog hdata htmp hex =>
          rw [hsnap]
          refine .of_up hup h.known ?_ hwal hsnap (.ret hlog hdata hex)
          -- the new snapshot is the map of the log as it is
          intro st hst
          have hst' : m.disk.tmp = some st := hst
          rw [htmp] at hst'
          cases hst'
          exact ⟨m.disk.wal, List.prefix_rfl, hdata⟩
  | @ret e err hw =>
      cases hstore : m.store with
      | none => cases (h.down hstore).1.symm.trans hw
      | some s =>
          obtain ⟨hwal, hsnap, hstage⟩ := h.up s hstore
          rw [hw] at hstage
          cases hstage with
          | ret hlog hdata hex =>
              refine .of_up rfl h.known h.snapshot hwal hsnap (.idle hdata ?_)
              show Executed _ m.disk.wal
              rw [hlog]
              exact .acknowledged hex
  | @crash s hup =>
      obtain ⟨-, -, hstage⟩ := h.up s hup
      exact ⟨h.known, h.snapshot, fun _ => ⟨rfl, hstage.crashed⟩,
        (fun _ hno => by cases hno)⟩

theorem sound_reachable
    (hr : Reachable (Machine.step unmarshal) CleanStep .init m) : m.Sound :=
  hr.invariant sound_init fun _ _ _ _ ih hok hstep =>
    ih.step (step_move hstep) hok

end Machine

/-! ## The result -/

/-- After any lifetimes, with crashes anywhere, the next process has the
map of the writes that came back with nil and of at most one more for
each crash. -/
theorem crash_recovery {unmarshal : Command → Option Entry} {m : Machine}
    (hr : Reachable (Machine.step unmarshal) CleanStep .init m)
    (hdown : m.store = none) :
    Executed m.history m.disk.wal
      ∧ (∃ s, newStoreFromDisk .file .file m.disk = .ok s
        ∧ s.data = replay m.disk.wal .empty)
      ∧ ∀ p, p <+: m.disk.wal →
        replay m.disk.wal (replay p .empty) = replay m.disk.wal .empty := by
  have h := Machine.sound_reachable hr
  refine ⟨(h.down hdown).2, ?_, fun p hp => replay_absorbs hp .empty⟩
  exact ⟨_, h.snapshot.restore h.known, rfl⟩

/-- The steps of one write that needs no snapshot. -/
def writeSteps (a : LifeAction) : List LifeAction :=
  [a, .append .ok, .apply, .ret]

/-- Two writes that came back, one the crash cut off after it was logged,
and one it cut off before. -/
def twoCrashes : List LifeAction :=
  .start .file .file :: writeSteps (.upsert [97] [49])
    ++ [.upsert [97] [50], .append .ok, .crash, .start .file .file]
    ++ writeSteps (.delete [98]) ++ [.upsert [98] [51], .crash]

theorem crash_recovery_a :
    ∃ m, Reachable (Machine.step fun _ => none) CleanStep .init m
      ∧ Executed m.history m.disk.wal
      ∧ ∃ s, newStoreFromDisk .file .file m.disk = .ok s
        ∧ s.data [97] = some [50] ∧ s.data [98] = none := by
  obtain ⟨m, hr, hdown, hwal⟩ :
      ∃ m, Reachable (Machine.step fun _ => none) CleanStep .init m
        ∧ m.store.isNone = true ∧ m.disk.wal
          = [⟨.upsert, [97], [49]⟩, ⟨.upsert, [97], [50]⟩, ⟨.delete, [98], []⟩] :=
    Reachable.of_exec_any twoCrashes (by decide +kernel)
  obtain ⟨hex, ⟨s, hs, hdata⟩, -⟩ :=
    crash_recovery hr (Option.isNone_iff_eq_none.mp hdown)
  refine ⟨m, hr, hex, s, hs, ?_⟩
  rw [hdata, hwal]
  decide

end RaftStore
