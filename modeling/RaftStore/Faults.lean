import RaftStore.FileStore
import RaftStore.Serving

/-!
# Disk faults

The store of `FileStore`, with every system call free to fail.

An error does not mean that nothing happened. The log may have the record
or part of it, and after a failed snapshot the map has the entry as well
(`failed_write_has_effect`). An error leaves everything as it was when not
a byte was written, when the files could not be read before either, and
when the entry is in the log but says nothing new, and only then
(`failed_write_no_effect_iff`). On a replica, `RunApplyLoop` goes on after
an error, so that an entry its own log refuses is missing from its map
alone (`replicas_part`, `replicas_stay_equal`).
-/

namespace RaftStore

open LastWrite

/-! ## What an error leaves behind -/

namespace ByteStore

/-- The map a new process would start with. -/
def restored (s : ByteStore) (d : ByteDisk) : Except LoadError Data :=
  (newStoreFromBytes s.wal s.snapshot d).map fun s => s.data.get

/-- The stores and files that calls lead to, with any outcome of their
system calls, and starts on the same files. -/
inductive Reached : ByteStore → ByteDisk → Prop where
  | new (wal snapshot : Device) : Reached (newByteStore wal snapshot) .empty
  | call {s : ByteStore} {d : ByteDisk} (h : Reached s d) (io : FileIo) (c : WriteCall) :
      Reached (s.call d io c).1 (s.call d io c).2.1
  | restart {s s' : ByteStore} {d : ByteDisk} (h : Reached s d) {wal snapshot : Device}
      (hload : newStoreFromBytes wal snapshot d = .ok s') : Reached s' d

/-- A start restores the same with `n` bytes of the record in the log: there
are none; or it fails anyway; or the entry stands on a line of its own that
can be read, and the map has what it says. -/
def Absorbs (s : ByteStore) (d : ByteDisk) (e : Entry) (n : Nat) : Prop :=
  n = 0 ∨ (s.restored d).toOption = none
    ∨ Ended d.wal ∧ e.marshal.length ≤ n ∧ e.Short
      ∧ ∀ m, s.restored d = .ok m → e.coerced.write.exec m = m

theorem restored_eq (s : ByteStore) (d : ByteDisk) :
    s.restored d
      = match s.snapshot.loadSnapshotBytes d with
        | .map m => (s.wal.loadWalBytes d).map fun es => replay es m.get
        | _ => .error .badSnapshot := by
  rw [restored, newStoreFromBytes]
  cases s.snapshot.loadSnapshotBytes d with
  | error => rfl
  | nil => rfl
  | map m =>
      cases s.wal.loadWalBytes d with
      | error err => rfl
      | ok es => exact congrArg Except.ok (congrArg Store.data (foldl_applyLocked_toStore _ es))

/-- Nothing but the log and the snapshot is read. -/
theorem restored_congr (s : ByteStore) {d d' : ByteDisk} (hwal : d'.wal = d.wal)
    (hsnapshot : d'.snapshot = d.snapshot) : s.restored d' = s.restored d := by
  have hw : s.wal.loadWalBytes d' = s.wal.loadWalBytes d := by
    cases s.wal <;> simp [Device.loadWalBytes, hwal]
  have hs : s.snapshot.loadSnapshotBytes d' = s.snapshot.loadSnapshotBytes d := by
    cases s.snapshot <;> simp [Device.loadSnapshotBytes, hsnapshot]
  rw [restored_eq, restored_eq, hw, hs]

theorem restored_grown {s : ByteStore} {d d' : ByteDisk} (hfile : s.wal = .file)
    (hleft : FileWal.Left d.wal) {e : Entry} (he : e.known = true) {n : Nat}
    (hwal : d'.wal = d.wal ++ e.record.take n) (hsnapshot : d'.snapshot = d.snapshot) :
    (s.restored d').toOption = (s.restored d).toOption ↔ s.Absorbs d e n := by
  rcases Nat.eq_zero_or_pos n with rfl | hn
  · rw [List.take_zero, List.append_nil] at hwal
    exact iff_of_true (congrArg _ (s.restored_congr hwal hsnapshot)) (.inl rfl)
  · have hs : s.snapshot.loadSnapshotBytes d' = s.snapshot.loadSnapshotBytes d := by
      cases s.snapshot <;> simp [Device.loadSnapshotBytes, hsnapshot]
    have hgrown {es : List Entry} :
        FileWal.load (d.wal ++ e.record.take n) = .ok es ↔ _ := FileWal.load_grown hleft he hn
    rw [Absorbs, restored_eq, restored_eq, hs, hfile]
    simp only [Device.loadWalBytes, hwal]
    cases s.snapshot.loadSnapshotBytes d with
    | error => exact iff_of_true rfl (.inr (.inl rfl))
    | nil => exact iff_of_true rfl (.inr (.inl rfl))
    | map m =>
        dsimp only
        cases hload : FileWal.load d.wal with
        | error err =>
            -- a log that cannot be read stays so
            refine iff_of_true ?_ (.inr (.inl rfl))
            cases hload' : FileWal.load (d.wal ++ e.record.take n) with
            | error err' => rfl
            | ok es =>
                obtain ⟨-, -, -, es₀, h₀, -⟩ := hgrown.mp hload'
                cases hload.symm.trans h₀
        | ok es₀ =>
            cases hload' : FileWal.load (d.wal ++ e.record.take n) with
            | error err' =>
                refine iff_of_false (by simp [Except.map, Except.toOption]) ?_
                rintro (hzero | hnone | ⟨hend, hwhole, hshort, -⟩)
                · omega
                · cases hnone
                · have hok := hgrown.mpr ⟨hend, hwhole, hshort, es₀, hload, rfl⟩
                  cases hload'.symm.trans hok
            | ok es =>
                obtain ⟨hend, hwhole, hshort, es₁, h₁, rfl⟩ := hgrown.mp hload'
                cases hload.symm.trans h₁
                simp [Except.map, Except.toOption, Nat.ne_of_gt hn, hend, hwhole, hshort,
                  replay_concat]

section Call

variable {s : ByteStore} {d : ByteDisk} {io : FileIo} {c : WriteCall}

theorem call_get (s : ByteStore) (d : ByteDisk) (io : FileIo) (hkey : c.entry.key ≠ []) :
    (s.call d io c).1.data.get
        = (if io.Logs s.wal then c.entry.write.exec s.data.get else s.data.get)
      ∧ (s.call d io c).1.wal = s.wal := by
  rw [ByteStore.call, if_neg hkey]
  exact s.persistAndApplyLocked_get d io c.entry_known

theorem call_refused (hkey : c.entry.key ≠ []) (hlogs : ¬ io.Logs s.wal) :
    s.call d io c
      = (s, { d with wal := d.wal ++ c.entry.record.take (io.append.written c.entry) },
        some .io) := by
  rw [ByteStore.call, if_neg hkey, persistAndApplyLocked_refused hlogs d c.entry_known]

/-- A log that takes the entry has its whole record, whatever becomes of the
snapshot. -/
theorem call_logged_wal (hkey : c.entry.key ≠ []) (hlogs : io.Logs s.wal) :
    (s.call d io c).2.1.wal = d.wal ++ (if s.wal = .file then c.entry.record else []) := by
  obtain ⟨d', hwal, -, hout⟩ := persistAndApplyLocked_logged hlogs d c.entry_known
  rw [ByteStore.call, if_neg hkey, hout, ← hwal]
  dsimp only
  split
  · exact Device.saveBytes_wal ..
  · rfl

/-- If the call fails nevertheless, it is the snapshot that was not saved. -/
theorem call_logged_failed (hkey : c.entry.key ≠ []) (hlogs : io.Logs s.wal)
    {err : StoreError} (h : (s.call d io c).2.2 = some err) :
    (s.call d io c).2.1.snapshot = d.snapshot := by
  obtain ⟨d', -, hsnapshot, hout⟩ := persistAndApplyLocked_logged hlogs d c.entry_known
  rw [ByteStore.call, if_neg hkey, hout] at h ⊢
  dsimp only at h ⊢
  split at h
  · rename_i hdue
    rw [if_pos hdue]
    exact (Device.saveBytes_failed h).trans hsnapshot
  · cases h

end Call

theorem Reached.left {s : ByteStore} {d : ByteDisk} (h : s.Reached d) :
    FileWal.Left d.wal := by
  induction h with
  | new wal snapshot => exact .empty
  | @call s d h io c ih =>
      by_cases hkey : c.entry.key = []
      · rwa [ByteStore.call, if_pos hkey]
      · by_cases hlogs : io.Logs s.wal
        · rw [call_logged_wal hkey hlogs]
          split
          · exact FileWal.left_record ih c.entry_known
          · rwa [List.append_nil]
        · rw [call_refused hkey hlogs]
          have hleft := ih.append c.entry io.append
          rwa [FileWal.append_eq _ c.entry_known] at hleft
  | restart h hload ih => exact ih

end ByteStore

/-- A call that returns an error leaves the map and what a start restores as
they were exactly where the key is empty; where the log failed and a start
does not notice what it wrote; or where the snapshot failed, behind a write
that says nothing new to the map or to a start. -/
theorem failed_write_no_effect_iff {s : ByteStore} {d : ByteDisk} (hr : s.Reached d)
    {io : FileIo} {c : WriteCall} {err : StoreError}
    (h : (s.call d io c).2.2 = some err) :
    ((s.call d io c).1.data.get = s.data.get
        ∧ (s.restored (s.call d io c).2.1).toOption = (s.restored d).toOption)
      ↔ c.entry.key = []
        ∨ (s.wal = .file ∧ io.append ≠ .ok
          ∧ s.Absorbs d c.entry (io.append.written c.entry))
        ∨ (io.Logs s.wal ∧ c.entry.write.exec s.data.get = s.data.get
          ∧ (s.wal = .file → s.Absorbs d c.entry c.entry.record.length)) := by
  by_cases hkey : c.entry.key = []
  · rw [ByteStore.call, if_pos hkey]
    exact iff_of_true ⟨rfl, rfl⟩ (.inl hkey)
  by_cases hlogs : io.Logs s.wal
  · -- the log took the entry, so that it was the snapshot that failed
    have hsaved := ByteStore.call_logged_failed hkey hlogs h
    have hlog := ByteStore.call_logged_wal (d := d) hkey hlogs
    rw [(s.call_get d io hkey).1, if_pos hlogs]
    by_cases hfile : s.wal = .file
    · rw [if_pos hfile, ← List.take_length (l := c.entry.record)] at hlog
      rw [ByteStore.restored_grown hfile hr.left c.entry_known hlog hsaved]
      constructor
      · rintro ⟨hsame, habsorbs⟩
        exact .inr (.inr ⟨hlogs, hsame, fun _ => habsorbs⟩)
      · rintro (hnil | ⟨-, hfails, -⟩ | ⟨-, hsame, habsorbs⟩)
        · exact absurd hnil hkey
        · exact absurd (hlogs hfile) hfails
        · exact ⟨hsame, habsorbs hfile⟩
    · rw [if_neg hfile, List.append_nil] at hlog
      rw [s.restored_congr hlog hsaved]
      simp [hkey, hlogs, hfile]
  · -- the log failed
    obtain ⟨hfile, hfails⟩ := Classical.not_imp.mp hlogs
    have hgrown : (s.restored { d with
          wal := d.wal ++ c.entry.record.take (io.append.written c.entry) }).toOption
        = (s.restored d).toOption ↔ _ :=
      ByteStore.restored_grown hfile hr.left c.entry_known rfl rfl
    rw [ByteStore.call_refused hkey hlogs]
    dsimp only
    rw [hgrown]
    constructor
    · rintro ⟨-, habsorbs⟩
      exact .inr (.inl ⟨hfile, hfails, habsorbs⟩)
    · rintro (hnil | ⟨-, -, habsorbs⟩ | ⟨hok, -⟩)
      · exact absurd hnil hkey
      · exact ⟨rfl, habsorbs⟩
      · exact absurd hok hlogs

/-- A new store deletes a key that is not there, and `Sync` fails. -/
theorem failed_write_no_effect_iff_delete :
    ∃ r, (newByteStore .file .file).call .empty ⟨.syncError, true, true⟩ (.delete [97]) = r
      ∧ r.2.2 = some .io
      ∧ r.1.data.get = (newByteStore .file .file).data.get
      ∧ ((newByteStore .file .file).restored r.2.1).toOption
        = ((newByteStore .file .file).restored .empty).toOption := by
  refine ⟨_, rfl, rfl, ?_⟩
  refine (failed_write_no_effect_iff (.new .file .file) rfl).mpr (.inr (.inl ⟨rfl, ?_, ?_⟩))
  · decide
  · refine .inr (.inr ⟨.inl rfl, by decide +kernel, by decide +kernel, ?_⟩)
    rintro m ⟨⟩
    exact Function.update_eq_self _ _

/-- Calls one after the other, whatever they return. -/
def ByteStore.calls (s : ByteStore) (d : ByteDisk) (cs : List (WriteCall × FileIo)) :
    ByteStore × ByteDisk :=
  cs.foldl (fun r c => ((r.1.call r.2 c.2 c.1).1, (r.1.call r.2 c.2 c.1).2.1)) (s, d)

/-- The first ninety-nine writes of a process. -/
def ninetyNineWrites : ByteStore × ByteDisk :=
  (newByteStore .file .file).calls .empty (List.replicate 99 (.upsert [97] [49], .ok))

/-- Each of the calls returns an error. After a failed `Sync` the record is
there; after a write that stopped in the record the log can no longer be
read; after a failed snapshot the map has the entry. -/
theorem failed_write_has_effect :
    (∃ r, (newByteStore .file .file).call .empty ⟨.syncError, true, true⟩
          (.upsert [97] [49]) = r
        ∧ r.2.2 = some .io
        ∧ ((newByteStore .file .file).restored .empty).map (· [97]) = .ok none
        ∧ ((newByteStore .file .file).restored r.2.1).map (· [97]) = .ok (some [49]))
    ∧ (∃ r₁ r₂, (newByteStore .file .file).call .empty .ok (.upsert [97] [49]) = r₁
        ∧ r₁.1.call r₁.2.1 ⟨.shortWrite 5, true, true⟩ (.upsert [98] [50]) = r₂
        ∧ r₂.2.2 = some .io
        ∧ (r₁.1.restored r₁.2.1).map (· [97]) = .ok (some [49])
        ∧ (r₁.1.restored r₂.2.1).map (· [97]) = .error .badLine)
    ∧ ∃ r, ninetyNineWrites.1.call ninetyNineWrites.2 ⟨.ok, true, false⟩
          (.upsert [97] [50]) = r
        ∧ r.2.2 = some .io
        ∧ ninetyNineWrites.1.data.get [97] = some [49] ∧ r.1.data.get [97] = some [50] :=
  ⟨⟨_, rfl, by decide +kernel⟩, ⟨_, _, rfl, rfl, by decide +kernel⟩,
    ⟨_, rfl, by decide +kernel⟩⟩

/-! ## Replicas -/

/-- `RunApplyLoop` over the commands it takes from the channel, each with
the outcomes of its system calls. Errors are logged and passed over. -/
def runApplyLoop (unmarshal : Command → Option Entry) (s : ByteStore) (d : ByteDisk) :
    List (Command × FileIo) → ByteStore × ByteDisk
  | [] => (s, d)
  | (cmd, io) :: cmds =>
      match unmarshal cmd with
      | none => runApplyLoop unmarshal s d cmds
      | some e =>
          let r := s.apply d io e
          runApplyLoop unmarshal r.1 r.2.1 cmds

theorem ByteStore.apply_get (s : ByteStore) (d : ByteDisk) (io : FileIo) (e : Entry) :
    (s.apply d io e).1.data.get
        = (if e.Valid ∧ io.Logs s.wal then e.write.exec s.data.get else s.data.get)
      ∧ (s.apply d io e).1.wal = s.wal := by
  unfold ByteStore.apply
  by_cases hkey : e.key = []
  · rw [if_pos hkey, if_neg (fun hv => hv.1.1 hkey)]
    exact ⟨rfl, rfl⟩
  · rw [if_neg hkey]
    cases hop : e.op with
    | delete =>
        have hvalid : e.Valid := ⟨hkey, by simp [Entry.known, hop]⟩
        have hwrite : (WriteCall.delete e.key).entry.write = e.write := by
          simp [Entry.write, WriteCall.entry, hop]
        simp only [hvalid, true_and, ← hwrite]
        exact s.call_get d io hkey
    | upsert =>
        have hvalid : e.Valid := ⟨hkey, by simp [Entry.known, hop]⟩
        have hwrite : (WriteCall.upsert e.key e.value).entry.write = e.write := by
          simp [Entry.write, WriteCall.entry, hop]
        simp only [hvalid, true_and, ← hwrite]
        exact s.call_get d io hkey
    | other name =>
        refine ⟨(if_neg ?_).symm, rfl⟩
        rintro ⟨hv, -⟩
        have := hv.2
        simp [Entry.known, hop] at this

/-- The node's own log took the command, where it came to that. -/
def Took (unmarshal : Command → Option Entry) (wal : Device) (c : Command × FileIo) : Prop :=
  (effective unmarshal c.1).isSome = true → c.2.Logs wal

instance (unmarshal : Command → Option Entry) (wal : Device) (c : Command × FileIo) :
    Decidable (Took unmarshal wal c) :=
  inferInstanceAs (Decidable (_ → c.2.Logs wal))

/-- The map is that of the commands the node's own log took. -/
theorem runApplyLoop_data (unmarshal : Command → Option Entry) (s : ByteStore) (d : ByteDisk)
    (cmds : List (Command × FileIo)) :
    (runApplyLoop unmarshal s d cmds).1.data.get
      = replay (((cmds.filter fun c => Took unmarshal s.wal c).map Prod.fst).filterMap
          (effective unmarshal)) s.data.get := by
  induction cmds generalizing s d with
  | nil => rfl
  | cons c cmds ih =>
      obtain ⟨cmd, io⟩ := c
      -- a command without effect may be in the list or not
      have hskip (heff : effective unmarshal cmd = none) :
          ((((cmd, io) :: cmds).filter fun c => Took unmarshal s.wal c).map Prod.fst).filterMap
              (effective unmarshal)
            = ((cmds.filter fun c => Took unmarshal s.wal c).map Prod.fst).filterMap
              (effective unmarshal) := by
        rw [List.filter_cons]
        split
        · rw [List.map_cons, List.filterMap_cons_none heff]
        · rfl
      rw [runApplyLoop]
      cases hdec : unmarshal cmd with
      | none =>
          dsimp only
          rw [ih, hskip (by simp [effective, hdec])]
      | some e =>
          obtain ⟨hdata, hwal⟩ := s.apply_get d io e
          dsimp only
          rw [ih, hdata, hwal]
          by_cases hvalid : e.Valid
          · have heff := effective_valid hdec hvalid
            by_cases hlogs : io.Logs s.wal
            · have htook : Took unmarshal s.wal (cmd, io) := fun _ => hlogs
              rw [if_pos ⟨hvalid, hlogs⟩, List.filter_cons, if_pos (decide_eq_true htook),
                List.map_cons, List.filterMap_cons_some heff]
              rfl
            · have hlost : ¬ Took unmarshal s.wal (cmd, io) := fun h =>
                hlogs (h (by rw [heff]; rfl))
              rw [if_neg (fun h => hlogs h.2), List.filter_cons, if_neg (by simpa using hlost)]
          · rw [if_neg (fun h => hvalid h.1), hskip (by simp [effective, hdec, hvalid])]

/-- Two replicas that have taken the same commands from equal maps on, and
whose logs took every entry, have equal maps, whatever happened to their
snapshots. -/
theorem replicas_stay_equal {unmarshal : Command → Option Entry} {s₁ s₂ : ByteStore}
    {d₁ d₂ : ByteDisk} {cmds₁ cmds₂ : List (Command × FileIo)}
    (hcmds : cmds₁.map Prod.fst = cmds₂.map Prod.fst) (hdata : s₁.data.get = s₂.data.get)
    (h₁ : ∀ c ∈ cmds₁, Took unmarshal s₁.wal c) (h₂ : ∀ c ∈ cmds₂, Took unmarshal s₂.wal c) :
    (runApplyLoop unmarshal s₁ d₁ cmds₁).1.data.get
        = (runApplyLoop unmarshal s₂ d₂ cmds₂).1.data.get
      ∧ (runApplyLoop unmarshal s₁ d₁ cmds₁).1.data.get
        = replay ((cmds₁.map Prod.fst).filterMap (effective unmarshal)) s₁.data.get := by
  have hfold : ∀ {s : ByteStore} {d : ByteDisk} {cmds : List (Command × FileIo)},
      (∀ c ∈ cmds, Took unmarshal s.wal c) → (runApplyLoop unmarshal s d cmds).1.data.get
        = replay ((cmds.map Prod.fst).filterMap (effective unmarshal)) s.data.get := by
    intro s d cmds htook
    rw [runApplyLoop_data, List.filter_eq_self.mpr (by simpa using htook)]
  rw [hfold h₁, hfold h₂, hcmds, hdata]
  exact ⟨rfl, rfl⟩

/-- The commands `a = 1` and `a = 2`. -/
def twoWrites (first second : FileIo) : List (Command × FileIo) :=
  [((Entry.mk .upsert [97] [49]).marshal, first),
    ((Entry.mk .upsert [97] [50]).marshal, second)]

/-- The first node takes a snapshot on every write, and its first cannot be
written; the second takes none. -/
theorem replicas_stay_equal_two :
    (runApplyLoop unmarshalEntry { newByteStore .file .file with snapshotInterval := 1 }
        .empty (twoWrites ⟨.ok, false, false⟩ .ok)).1.data.get
      = (runApplyLoop unmarshalEntry (newByteStore .noop .noop) .empty
        (twoWrites .ok .ok)).1.data.get := by
  have hcmds : (twoWrites ⟨.ok, false, false⟩ .ok).map Prod.fst
      = (twoWrites .ok .ok).map Prod.fst := rfl
  have hdata : ({ newByteStore .file .file with snapshotInterval := 1 } : ByteStore).data.get
      = (newByteStore .noop .noop).data.get := rfl
  exact (replicas_stay_equal hcmds hdata (by decide +kernel) (by decide +kernel)).1

/-- The second write fails in the log of the second node only, and its map
keeps the first value. -/
theorem replicas_part :
    (runApplyLoop unmarshalEntry (newByteStore .file .file) .empty
        (twoWrites .ok .ok)).1.data.get [97] = some [50]
      ∧ (runApplyLoop unmarshalEntry (newByteStore .file .file) .empty
        (twoWrites .ok ⟨.shortWrite 0, true, true⟩)).1.data.get [97] = some [49] := by
  decide +kernel

end RaftStore
