import RaftStore.FileRecovery
import RaftStore.Settings

/-!
# Lifetimes with different settings, on the bytes

`Settings` follows the writes through processes that have the log, the
snapshot or both, over files taken for what they decode to. Here the
processes run on the bytes. A start with both finds every key at its newest
write on disk (`replay_keeps_newest`) under three conditions. No process
without the log saves a snapshot over a log that has records, or its values
are undone. Keys and values are text, or JSON brings others back. The lines
of the log are short, or no process starts any more. `replay_goes_wrong` has
a run for each.

The records of the writes are the same on both levels
(`ByteTraced.Holds.step`).
-/

namespace RaftStore

open LastWrite Runs

/-! ## Numbered writes on bytes -/

structure ByteTraced extends Trace where
  machine : ByteMachine

namespace ByteTraced

def init : ByteTraced := ⟨.empty, .init⟩

def snapshots (t : ByteTraced) : Bool := t.machine.store.any fun s => s.snapshot = .file

/-- What a step adds to the records, where it takes the machine to `b`. -/
def note (t : ByteTraced) (b : ByteMachine) : ByteAction → ByteTraced
  | .start wal snapshot =>
      { t with
        machine := b
        memory := (if snapshot = .file then t.snapshot else [])
          ++ if wal = .file then t.wal else [] }
  | .upsert _ _ | .delete _ | .deliver _ =>
      { t with
        machine := b
        calls := t.calls ++ (b.writer.map Prod.fst).toList }
  | .append out =>
      { t with
        machine := b
        wal := t.wal ++ ((t.machine.added out).map fun e => (t.current, e)).toList }
  | .apply =>
      { t with
        machine := b
        memory := t.memory ++ (t.machine.writer.map fun w => (t.current, w.1)).toList }
  | .writeTmp ok =>
      if ok && t.snapshots then { t with machine := b, tmp := t.memory }
      else { t with machine := b }
  | .rename ok =>
      if ok && t.snapshots then { t with machine := b, snapshot := t.tmp, tmp := [] }
      else { t with machine := b }
  | .ret => { t with machine := b }
  | .crash written =>
      { t with
        machine := b
        wal := t.wal
          ++ ((t.machine.added (.shortWrite written)).map fun e => (t.current, e)).toList }

def step (t : ByteTraced) (a : ByteAction) : Option ByteTraced :=
  (t.machine.step a).map fun b => t.note b a

end ByteTraced

def ByteAction.saves : ByteAction → Bool
  | .rename ok => ok
  | _ => false

/-- No process without the log saves a snapshot once the log has a record. -/
def SavedInOrder (t : ByteTraced) (a : ByteAction) : Prop :=
  a.saves = true → ∀ s ∈ t.machine.store, s.snapshot = .file →
    s.wal = .file ∨ t.machine.disk.wal = []

instance (t : ByteTraced) (a : ByteAction) : Decidable (SavedInOrder t a) :=
  inferInstanceAs (Decidable (_ → ∀ s ∈ t.machine.store, _ → _ ∨ _))

/-- The conditions under which a start finds the newest writes. -/
def replayable (t : ByteTraced) (a : ByteAction) : Prop :=
  storableStep t.machine a ∧ SavedInOrder t a

instance (t : ByteTraced) (a : ByteAction) : Decidable (replayable t a) :=
  inferInstanceAs (Decidable (storableStep t.machine a ∧ SavedInOrder t a))

/-! ## The records on both levels -/

structure ByteTraced.Holds (bt : ByteTraced) (t : Traced) : Prop where
  trace : bt.toTrace = t.toTrace
  machine : Represents bt.machine t.machine

section

variable {b b' : ByteMachine} {m m' : Machine}

theorem Represents.writer_entry (h : Represents b m) :
    m.writer.map Writer.entry = b.writer.map Prod.fst := by
  cases hup : b.store with
  | none =>
      obtain ⟨hb, hm⟩ := h.down hup
      rw [hb, hm]
      rfl
  | some s => exact (h.up s hup).2.entry

theorem Represents.any_store (h : Represents b m) (P : Store → Bool) :
    m.store.any P = b.store.any fun s => P s.toStore := by
  rw [h.store]
  cases b.store <;> rfl

/-- The log of `Store` gets the entries whose lines are complete. -/
theorem Represents.logged {tr : Trace} (h : Represents b m) {out : AppendOutcome}
    (hok : storableStep b (.append out)) :
    (Traced.mk tr m).logged out.io = b.added out := by
  cases hup : b.store with
  | none => simp [Traced.logged, ByteMachine.added, h.store, hup]
  | some s =>
      have hmup := h.store_up hup
      obtain ⟨-, hwriter⟩ := h.up s hup
      unfold Traced.logged ByteMachine.added
      rw [hmup, hup]
      generalize hw : b.writer = w at hwriter
      generalize m.writer = w' at hwriter
      cases hwriter with
      | @append e hknown htext hshort =>
          by_cases hfile : s.wal = .file
          · have hwhole : out.io ≠ .writeError ↔ e.record.length ≤ out.written e := by
              have hpos : 0 < e.record.length := by simp [Entry.record]
              cases out with
              | ok => simp [AppendOutcome.io, AppendOutcome.written]
              | syncError => simp [AppendOutcome.io, AppendOutcome.written]
              | shortWrite written =>
                  have hline : b.wholeLine written = true := hok
                  have hcut : written = 0 ∨ e.record.length ≤ written := by
                    simpa [ByteMachine.wholeLine, hw, ByteMachine.logs, hup, hfile] using hline
                  by_cases hzero : written = 0
                  · refine iff_of_false (by simp [AppendOutcome.io, hzero]) ?_
                    show ¬ e.record.length ≤ written
                    omega
                  · simp [AppendOutcome.io, AppendOutcome.written, hzero,
                      hcut.resolve_left hzero]
            simp [ByteStore.toStore, hfile, hwhole]
          · simp [ByteStore.toStore, hfile]
      | idle => rfl
      | apply htext => rfl
      | writeTmp htext => rfl
      | rename htmp => rfl
      | ret => rfl

/-- The records after a step are those on the other level. -/
theorem note_trace {tr : Trace} (h : Represents b m) (h' : Represents b' m') {a : ByteAction}
    (hok : storableStep b a)
    (hcrash : ∀ written, a = .crash written → b.added (.shortWrite written) = none) :
    ((ByteTraced.mk tr b).note b' a).toTrace = ((Traced.mk tr m).note m' a.life).toTrace := by
  have hsnapshots : (ByteTraced.mk tr b).snapshots = (Traced.mk tr m).snapshots :=
    (h.any_store fun s => s.snapshot = .file).symm
  cases a with
  | start wal snapshot => rfl
  | upsert key value =>
      simp only [ByteTraced.note, Traced.note, ByteAction.life, h'.writer_entry]
  | delete key =>
      simp only [ByteTraced.note, Traced.note, ByteAction.life, h'.writer_entry]
  | deliver cmd =>
      simp only [ByteTraced.note, Traced.note, ByteAction.life, h'.writer_entry]
  | append out =>
      simp only [ByteTraced.note, Traced.note, ByteAction.life, h.logged hok]
  | apply =>
      have hentry := congrArg (Option.map fun e => (tr.current, e)) h.writer_entry
      rw [Option.map_map, Option.map_map] at hentry
      simp only [ByteTraced.note, Traced.note, ByteAction.life]
      exact congrArg (fun ws => { tr with memory := tr.memory ++ Option.toList ws }) hentry.symm
  | writeTmp ok =>
      simp only [ByteTraced.note, Traced.note, ByteAction.life, hsnapshots]
      split <;> rfl
  | rename ok =>
      simp only [ByteTraced.note, Traced.note, ByteAction.life, hsnapshots]
      split <;> rfl
  | ret => rfl
  | crash written =>
      simp only [ByteTraced.note, Traced.note, ByteAction.life, hcrash written rfl,
        Option.map_none, Option.toList_none, List.append_nil]

theorem ByteMachine.added_ok {out : AppendOutcome} {e : Entry} (h : b.added out = some e) :
    b.added .ok = some e := by
  unfold ByteMachine.added at h ⊢
  split at h
  · split at h
    · rename_i hline
      cases h
      exact if_pos ⟨hline.1, Nat.le_refl _⟩
    · cases h
  · cases h

theorem records_eq_nil {es : List Entry} : records es = [] ↔ es = [] := by
  cases es with
  | nil => exact iff_of_true rfl rfl
  | cons e es => simp [records_cons, Entry.record]

theorem ByteTraced.note_machine (t : ByteTraced) (b : ByteMachine) (a : ByteAction) :
    (t.note b a).machine = b := by
  cases a with
  | writeTmp ok =>
      simp only [ByteTraced.note]
      split <;> rfl
  | rename ok =>
      simp only [ByteTraced.note]
      split <;> rfl
  | _ => rfl

theorem Traced.note_machine (t : Traced) (m : Machine) (a : LifeAction) :
    (t.note m a).machine = m := by
  cases a with
  | writeTmp ok =>
      simp only [Traced.note]
      split <;> rfl
  | rename ok =>
      simp only [Traced.note]
      split <;> rfl
  | _ => rfl

theorem ByteTraced.Holds.step {bt bt' : ByteTraced} {t : Traced} (h : bt.Holds t)
    {a : ByteAction} (hok : replayable bt a) (hstep : bt.step a = some bt') :
    ∃ t', Reachable (Traced.step unmarshalEntry) InOrder t t' ∧ bt'.Holds t' := by
  obtain ⟨tr, b⟩ := bt
  obtain ⟨tr', m⟩ := t
  obtain ⟨htrace, hrep⟩ := h
  obtain rfl : tr = tr' := htrace
  obtain ⟨b', hb', rfl⟩ := Option.map_eq_some_iff.mp hstep
  obtain ⟨m', hrep', hfollows⟩ := hrep.step hok.1 hb'
  cases hfollows with
  | same hm' hcrash =>
      have horder : InOrder ⟨tr, m⟩ a.life := by
        intro hsaves s hs hsnap
        cases hup : b.store with
        | none =>
            have hnone : m.store = none := by rw [hrep.store, hup]; rfl
            cases hnone.symm.trans hs
        | some s' =>
            cases (hrep.store_up hup).symm.trans hs
            have hsaves' : a.saves = true := by
              cases a <;> exact hsaves
            rcases hok.2 hsaves' s' hup hsnap with hwal | hnil
            · exact .inl hwal
            · exact .inr (records_eq_nil.mp (hrep.wal.symm.trans hnil))
      refine ⟨Traced.note ⟨tr, m⟩ m' a.life, ⟨_, .step .init horder ?_⟩, ?_, ?_⟩
      · exact Option.map_eq_some_iff.mpr ⟨m', hm', rfl⟩
      · exact note_trace hrep hrep' hok.1 hcrash
      · rw [ByteTraced.note_machine, Traced.note_machine]
        exact hrep'
  | @line written e m₁ ha hadded hm₁ hm' =>
      subst ha
      have hlogged : (Traced.mk tr m).logged .ok = some e :=
        Eq.trans (hrep.logged (show storableStep _ (.append .ok) from trivial))
          (ByteMachine.added_ok hadded)
      have happend : Traced.step unmarshalEntry ⟨tr, m⟩ (.append .ok)
          = some ((Traced.mk tr m).note m₁ (.append .ok)) :=
        Option.map_eq_some_iff.mpr ⟨m₁, hm₁, rfl⟩
      have hcrash : Traced.step unmarshalEntry ((Traced.mk tr m).note m₁ (.append .ok)) .crash
          = some (((Traced.mk tr m).note m₁ (.append .ok)).note m' .crash) :=
        Option.map_eq_some_iff.mpr ⟨m', hm', rfl⟩
      refine ⟨_, ⟨_, .step (.step .init (.of_not_saves rfl) happend) (.of_not_saves rfl) hcrash⟩,
        ?_, hrep'⟩
      simp only [ByteTraced.note, Traced.note, hadded, hlogged]

theorem ByteTraced.holds_reachable {bt : ByteTraced}
    (h : Reachable ByteTraced.step replayable .init bt) :
    ∃ t, Reachable (Traced.step unmarshalEntry) InOrder .init t ∧ bt.Holds t := by
  refine h.invariant (P := fun bt => ∃ t,
    Reachable (Traced.step unmarshalEntry) InOrder .init t ∧ bt.Holds t)
    ⟨.init, ⟨[], .init⟩, rfl, represents_init⟩ ?_
  rintro bt a bt' - ⟨t, ht, hholds⟩ hok hstep
  obtain ⟨t', ht', hholds'⟩ := hholds.step hok hstep
  exact ⟨t', ht.trans ht', hholds'⟩

end

/-! ## What a start finds -/

/-- With both enabled, a start gives each key what its newest write on disk
gave it. The files are those of the recorded writes. -/
theorem replay_keeps_newest {t : ByteTraced}
    (h : Reachable ByteTraced.step replayable .init t) :
    FileWal.load t.machine.disk.wal = .ok (t.wal.map Prod.snd)
      ∧ (∃ g, loadSnapshotFile t.machine.disk.snapshot = .map g
        ∧ g.get = contents t.snapshot)
      ∧ (∀ w ∈ t.snapshot ++ t.wal, t.calls[w.1]? = some w.2)
      ∧ ∃ s, newStoreFromBytes (openDevice true) (openDevice true) t.machine.disk = .ok s
        ∧ ∀ k, Newest (stamped (t.snapshot ++ t.wal)) k (s.data.get k) := by
  obtain ⟨tr, b⟩ := t
  obtain ⟨⟨tr', m⟩, ht, htrace, hrep⟩ := ByteTraced.holds_reachable h
  obtain rfl : tr = tr' := htrace
  obtain ⟨hwal, hsnapshot, hnamed, s, hs, hnewest⟩ := Traced.keeps_newest ht
  obtain ⟨s', hs', -, hdisk⟩ := hrep.loads (openDevice true) (openDevice true)
  cases hs.symm.trans hdisk
  refine ⟨?_, ?_, hnamed, s', hs', hnewest⟩
  · show FileWal.load b.disk.wal = .ok (tr.wal.map Prod.snd)
    rw [hrep.wal, ← hwal]
    exact load_records hrep.entries
  · obtain ⟨g, hload, hget, -⟩ := hrep.snapshot.load
    exact ⟨g, hload, hget.trans hsnapshot⟩

/-- The steps of a write without a snapshot. -/
def byteWrite (a : ByteAction) : List ByteAction := [a, .append .ok, .apply, .ret]

/-- As many writes as save a snapshot, the last of which does. -/
def savingWrites (a : ByteAction) : List ByteAction :=
  (List.replicate (defaultSnapshotInterval - 1) (byteWrite a)).flatten
    ++ [a, .append .ok, .apply, .writeTmp true, .rename true, .ret]

/-- A process with the snapshot alone, and then one with the log alone. -/
def snapshotThenLog : List ByteAction :=
  .start (openDevice false) (openDevice true) :: savingWrites (.upsert [97] [49])
    ++ [.crash 0, .start (openDevice true) (openDevice false)]
    ++ byteWrite (.delete [97]) ++ [.crash 0]

theorem replay_keeps_newest_settings :
    ∃ t, Reachable ByteTraced.step replayable .init t
      ∧ t.machine.disk.snapshot.isSome = true ∧ t.machine.disk.wal ≠ []
      ∧ ∃ s, newStoreFromBytes (openDevice true) (openDevice true) t.machine.disk = .ok s
        ∧ Newest (stamped (t.snapshot ++ t.wal)) [97] (s.data.get [97]) := by
  obtain ⟨t, hr, hsnap, hwal⟩ :
      ∃ t, Reachable ByteTraced.step replayable .init t
        ∧ t.machine.disk.snapshot.isSome = true ∧ t.machine.disk.wal ≠ [] :=
    Reachable.of_exec_any snapshotThenLog (by decide +kernel)
  obtain ⟨-, -, -, s, hs, hnewest⟩ := replay_keeps_newest hr
  exact ⟨t, hr, hsnap, hwal, s, hs, hnewest [97]⟩

/-- The files are those `cmd/simplekvs` opens, no system call fails, and no
process ends during a write. -/
def orderlyStep (t : ByteTraced) : ByteAction → Bool
  | .start wal snapshot => wal ≠ .absent && snapshot ≠ .absent
  | .deliver _ => false
  | .append out => out = .ok
  | .writeTmp ok => ok
  | .rename ok => ok
  | .crash _ => t.machine.writer = none
  | _ => true

/-- A process with the log, and then one with the snapshot alone. -/
def logThenSnapshot : List ByteAction :=
  .start (openDevice true) (openDevice true) :: byteWrite (.upsert [97] [49])
    ++ [.crash 0, .start (openDevice false) (openDevice true)]
    ++ savingWrites (.upsert [97] [50]) ++ [.crash 0]

/-- A process that sets a value of 64 KiB, and its end. -/
theorem longWrite_run : ∃ t, Reachable ByteTraced.step
      (fun t a => orderlyStep t a = true ∧ SavedInOrder t a) .init t
    ∧ t.machine.disk.wal = records [longEntry] ∧ t.machine.disk.snapshot = none := by
  have hone {t t' : ByteTraced} (a : ByteAction) (hstep : t.step a = some t')
      (hok : orderlyStep t a = true) (hsaves : a.saves = false) :
      Reachable ByteTraced.step (fun t a => orderlyStep t a = true ∧ SavedInOrder t a) t t' :=
    ⟨_, .step .init ⟨hok, fun h => by cases hsaves.symm.trans h⟩ hstep⟩
  have hstart := hone (t := .init) (.start (openDevice true) (openDevice true)) rfl rfl rfl
  have hcall := hstart.trans (hone (.upsert [97] longEntry.value) rfl rfl rfl)
  have happend := hcall.trans (hone (.append .ok) rfl rfl rfl)
  have happly := happend.trans (hone .apply rfl rfl rfl)
  have hret := happly.trans (hone .ret rfl rfl rfl)
  exact ⟨_, hret.trans (hone (.crash 0) rfl rfl rfl), (List.append_nil _).symm, rfl⟩

theorem toOption_ok {ε α : Type} {x : Except ε α} {a : α} (h : x.toOption = some a) :
    x = .ok a := by
  cases x with
  | error err => cases h
  | ok a' =>
      cases h
      rfl

/-- What is wrong, each time with the other conditions met. The snapshot has
writes 1 to 100, which set the key to `2`, and the start with both puts back
write 0. The key of one byte that is no UTF-8 is gone. After a long value
there is no start. -/
theorem replay_goes_wrong :
    (∃ t, Reachable ByteTraced.step
          (fun t a => orderlyStep t a = true ∧ storableStep t.machine a) .init t
        ∧ ∃ s, newStoreFromBytes (openDevice true) (openDevice true) t.machine.disk = .ok s
          ∧ s.data.get [97] = some [49]
          ∧ ¬ Newest (stamped (t.snapshot ++ t.wal)) [97] (s.data.get [97]))
      ∧ (∃ t, Reachable ByteTraced.step
          (fun t a => orderlyStep t a = true ∧ SavedInOrder t a) .init t
        ∧ ∃ s, newStoreFromBytes (openDevice true) (openDevice true) t.machine.disk = .ok s
          ∧ ¬ Newest (stamped (t.snapshot ++ t.wal)) [255] (s.data.get [255]))
      ∧ ∃ t, Reachable ByteTraced.step
          (fun t a => orderlyStep t a = true ∧ SavedInOrder t a) .init t
        ∧ newStoreFromBytes (openDevice true) (openDevice true) t.machine.disk
          = .error .tooLong := by
  refine ⟨?_, ?_, ?_⟩
  · obtain ⟨t, hr, hstart, hlast, hold⟩ :
        ∃ t, Reachable ByteTraced.step
            (fun t a => orderlyStep t a = true ∧ storableStep t.machine a) .init t
          ∧ ((newStoreFromBytes (openDevice true) (openDevice true) t.machine.disk).toOption.map
            fun s => s.data.get [97]) = some (some [49])
          ∧ (100, ⟨.upsert, [97], [50]⟩) ∈ t.snapshot ++ t.wal
          ∧ ∀ w ∈ t.snapshot ++ t.wal, w.2.write.value = some [49] → w.1 = 0 :=
      Reachable.of_exec_any logThenSnapshot (by decide +kernel)
    obtain ⟨s, hs, hval⟩ := Option.map_eq_some_iff.mp hstart
    refine ⟨t, hr, s, toOption_ok hs, hval, ?_⟩
    rw [hval]
    rintro (⟨w, hw, -, hvalue, hmax⟩ | ⟨-, hnone⟩)
    · obtain ⟨x, hx, rfl⟩ := List.mem_map.mp hw
      have hle : 100 ≤ x.1 := hmax _ (List.mem_map.mpr ⟨_, hlast, rfl⟩) rfl
      have hzero := hold x hx hvalue
      omega
    · cases hnone
  · obtain ⟨t, hr, hstart, hrecords⟩ :
        ∃ t, Reachable ByteTraced.step
            (fun t a => orderlyStep t a = true ∧ SavedInOrder t a) .init t
          ∧ ((newStoreFromBytes (openDevice true) (openDevice true) t.machine.disk).toOption.map
            fun s => s.data.get [255]) = some none
          ∧ t.snapshot ++ t.wal = [(0, ⟨.upsert, [255], [49]⟩)] :=
      Reachable.of_exec_any
        (.start (openDevice true) (openDevice true) :: byteWrite (.upsert [255] [49])
          ++ [.crash 0]) (by decide +kernel)
    obtain ⟨s, hs, hval⟩ := Option.map_eq_some_iff.mp hstart
    refine ⟨t, hr, s, toOption_ok hs, ?_⟩
    rw [hval, hrecords]
    rintro (⟨w, hw, -, hvalue, -⟩ | ⟨huntouched, -⟩)
    · cases List.mem_singleton.mp hw
      cases hvalue
    · exact huntouched _ (List.mem_singleton_self _) rfl
  · obtain ⟨t, hr, hwal, hsnapshot⟩ := longWrite_run
    have hload : FileWal.load t.machine.disk.wal = .error .tooLong := by
      rw [hwal]
      exact load_records_tooLong (List.forall_mem_singleton.mpr rfl)
        ⟨longEntry, List.mem_singleton_self _, longEntry_long⟩
    refine ⟨t, hr, ?_⟩
    simp only [newStoreFromBytes, openDevice, if_true, Device.loadSnapshotBytes,
      Device.loadWalBytes, hsnapshot, hload, loadSnapshotFile]

end RaftStore
