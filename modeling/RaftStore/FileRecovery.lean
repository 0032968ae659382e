import RaftStore.FileLifetimes
import RaftStore.Redelivery

/-!
# Recovery from the bytes of the files

`Recovery` and `Redelivery` take the files for what they decode to. By
`represents_reachable` their results hold of the bytes as long as no system
call fails and the log can be read.

`bytes_recover`: whatever a crash left of the snapshot's temporary file, the
next process starts with the writes that were acknowledged, and at most one
more for each crash.

`redelivery_converges_iff`: a node that is fed the committed commands again
in each lifetime ends with their map, in memory and on disk, exactly when
each of them is a line that `bufio.Scanner` takes. A longer one goes into
the log all the same, and no later process starts (`fed_tooLong`).
-/

namespace RaftStore

open Runs Utf8

/-! ## Acknowledged writes -/

/-- Both files are in use and no system call fails. -/
def ByteAction.clean : ByteAction → Bool
  | .start wal snapshot => wal = .file && snapshot = .file
  | .append out => out = .ok
  | .writeTmp ok => ok
  | .rename ok => ok
  | _ => true

theorem ByteAction.clean_life {a : ByteAction} (h : a.clean = true) : a.life.clean = true := by
  cases a with
  | append out =>
      obtain rfl : out = .ok := by simpa [ByteAction.clean] using h
      rfl
  | _ => exact h

/-- The files survive the step, and no system call fails. -/
def cleanStorable (b : ByteMachine) (a : ByteAction) : Prop :=
  a.clean = true ∧ storableStep b a

instance (b : ByteMachine) (a : ByteAction) : Decidable (cleanStorable b a) :=
  inferInstanceAs (Decidable (a.clean = true ∧ storableStep b a))

/-- Whatever the crashes left in the files, the next process reads them, and
its map is that of the writes that came back with nil and of at most one
more for each crash. -/
theorem bytes_recover {b : ByteMachine}
    (hr : Reachable ByteMachine.step cleanStorable .init b) (hdown : b.store = none) :
    ∃ s ws, newStoreFromBytes .file .file b.disk = .ok s ∧ FileWal.load b.disk.wal = .ok ws
      ∧ Executed b.history ws ∧ s.data.get = replay ws .empty := by
  obtain ⟨m, hm, hrep⟩ : ∃ m, Reachable (Machine.step unmarshalEntry) CleanStep .init m
      ∧ Represents b m :=
    represents_reachable (fun _ _ h => h.2) (fun _ _ _ _ h => ByteAction.clean_life h.1)
      (fun _ => ⟨rfl, rfl⟩) hr
  have hsound := Machine.sound_reachable hm
  have hmdown : m.store = none := by rw [hrep.store, hdown]; rfl
  obtain ⟨s, hs, -, hdisk⟩ := hrep.loads .file .file
  rw [hsound.snapshot.restore hsound.known] at hdisk
  have hdata : replay m.disk.wal .empty = s.data.get :=
    congrArg Store.data (Except.ok.inj hdisk)
  refine ⟨s, m.disk.wal, hs, ?_, ?_, hdata.symm⟩
  · rw [hrep.wal]
    exact load_records hrep.entries
  · rw [hrep.history]
    exact (hsound.down hmdown).2

/-- A hundred writes, and a crash three bytes into the temporary file. -/
def cutSnapshotRun : List ByteAction :=
  let write : List ByteAction := [.upsert [107] [118], .append .ok, .apply, .ret]
  .start .file .file :: (List.replicate 99 write).flatten
    ++ [.upsert [107] [119], .append .ok, .apply, .crash 3]

theorem bytes_recover_cut_snapshot : ∃ b : ByteMachine,
    b.store = none ∧ b.disk.tmp = some [123, 34, 107]
    ∧ ∃ s ws, newStoreFromBytes .file .file b.disk = .ok s ∧ FileWal.load b.disk.wal = .ok ws
      ∧ Executed b.history ws ∧ s.data.get = replay ws .empty := by
  obtain ⟨b, hr, hdown, htmp⟩ : ∃ b, Reachable ByteMachine.step cleanStorable .init b
      ∧ b.store.isNone = true ∧ b.disk.tmp = some [123, 34, 107] :=
    Reachable.of_exec_any cutSnapshotRun (by decide +kernel)
  have hdown' := Option.isNone_iff_eq_none.mp hdown
  exact ⟨b, hdown', htmp, bytes_recover hr hdown'⟩

/-! ## Commands that are fed again -/

def ByteAction.fedFrom (L : List Command) (b : ByteMachine) : ByteAction → Bool
  | .upsert _ _ => false
  | .delete _ => false
  | .deliver cmd => L[b.received.length]? = some cmd
  | .crash written => b.wholeLine written
  | a => a.clean

/-- The node runs without I/O errors on both files, nothing but
`RunApplyLoop` writes to its store, and the loop is fed `L` from the
beginning in each lifetime. A lifetime may end anywhere but inside a line of
the log. -/
def FedBytes (L : List Command) (b : ByteMachine) (a : ByteAction) : Prop :=
  a.fedFrom L b = true

instance (L : List Command) (b : ByteMachine) (a : ByteAction) : Decidable (FedBytes L b a) :=
  inferInstanceAs (Decidable (a.fedFrom L b = true))

namespace ByteMachine

/-- What `Get` serves. -/
def served (b : ByteMachine) : Option Data :=
  match b.store, b.writer with
  | some s, none => some s.data.get
  | _, _ => none

/-- This lifetime has been fed as far as every earlier one was. -/
def CaughtUp (b : ByteMachine) : Prop := b.reached ≤ b.received.length

instance (b : ByteMachine) : Decidable b.CaughtUp :=
  inferInstanceAs (Decidable (b.reached ≤ b.received.length))

end ByteMachine

/-- The log can hold what `Apply` makes of the command. -/
def ShortCommand (cmd : Command) : Prop := ∀ e ∈ unmarshalEntry cmd, e.persisted.Short

instance (cmd : Command) : Decidable (ShortCommand cmd) :=
  inferInstanceAs (Decidable (∀ e ∈ unmarshalEntry cmd, e.persisted.Short))

section

variable {L : List Command} {b b' : ByteMachine}

theorem FedBytes.clean {a : ByteAction} (h : FedBytes L b a) : a.clean = true := by
  cases a with
  | upsert key value => rfl
  | delete key => rfl
  | deliver cmd => rfl
  | crash written => rfl
  | _ => exact h

theorem FedBytes.storable (hshort : ∀ cmd ∈ L, ShortCommand cmd) {a : ByteAction}
    (h : FedBytes L b a) : storableStep b a := by
  cases a with
  | upsert key value => cases h
  | delete key => cases h
  | deliver cmd =>
      intro e he _
      exact hshort cmd (List.mem_of_getElem? (of_decide_eq_true h)) e he
  | append out =>
      obtain rfl : out = .ok := by simpa [ByteAction.clean] using h.clean
      trivial
  | crash written => exact h
  | start wal snapshot => trivial
  | apply => trivial
  | writeTmp ok => trivial
  | rename ok => trivial
  | ret => trivial

theorem FedBytes.life {m : Machine} (hrep : Represents b m) {a : ByteAction}
    (h : FedBytes L b a) : FedFrom L m a.life := by
  cases a with
  | upsert key value => cases h
  | delete key => cases h
  | deliver cmd =>
      have hnext : L[b.received.length]? = some cmd := of_decide_eq_true h
      rw [hrep.received] at hnext
      exact decide_eq_true hnext
  | append out =>
      obtain rfl : out = .ok := by simpa [ByteAction.clean] using h.clean
      rfl
  | crash written => rfl
  | start wal snapshot => exact h
  | apply => rfl
  | writeTmp ok => exact h
  | rename ok => exact h
  | ret => rfl

/-- Where every line is short, the results about entries hold of the bytes. -/
theorem fed_converges (hL : ValidCommands unmarshalEntry L)
    (hshort : ∀ cmd ∈ L, ShortCommand cmd)
    (hr : Reachable ByteMachine.step (FedBytes L) .init b) {data : Data}
    (hserved : b.served = some data) (hcaught : b.CaughtUp) :
    data = applyAll unmarshalEntry (L.take b.received.length)
      ∧ ∃ s, newStoreFromBytes .file .file b.disk = .ok s
        ∧ s.data.get = applyAll unmarshalEntry (L.take b.received.length) := by
  obtain ⟨m, hm, hrep⟩ : ∃ m, Reachable (Machine.step unmarshalEntry) (FedFrom L) .init m
      ∧ Represents b m :=
    represents_reachable (fun _ _ h => h.storable hshort) (fun _ _ _ hrep h => h.life hrep)
      (fun _ => ⟨rfl, rfl⟩) hr
  have hmserved : m.served = some data := by
    unfold ByteMachine.served at hserved
    split at hserved
    · rename_i s hup hidle
      have hwriter := (hrep.up s hup).2
      rw [hidle] at hwriter
      rw [Machine.served, hrep.store_up hup, hwriter.idle_of]
      exact hserved
    · cases hserved
  have hmcaught : m.CaughtUp := by
    rw [ByteMachine.CaughtUp, hrep.reached, hrep.received] at hcaught
    exact hcaught
  obtain ⟨hdata, hall⟩ := Machine.served_eq hm hmserved
  have hwal := Machine.wal_of_caughtUp hL hm hall hmcaught
  have hsound := Machine.sound_of_fed hm
  obtain ⟨s, hs, -, hdisk⟩ := hrep.loads .file .file
  rw [hsound.snapshot.restore hsound.known] at hdisk
  have hget : replay m.disk.wal .empty = s.data.get :=
    congrArg Store.data (Except.ok.inj hdisk)
  rw [hrep.received]
  exact ⟨hdata.trans hwal, s, hs, hget.symm.trans hwal⟩

end

/-! ## Commands that are too long -/

/-- A process on both files that has been fed these commands, none of them
ever before. -/
structure FirstLifetime (b : ByteMachine) (cmds : List Command) : Prop where
  up : ∃ s, b.store = some s ∧ s.wal = .file ∧ s.snapshot = .file
  idle : b.writer = none
  received : b.received = cmds
  reached : b.reached = 0
  wal : b.disk.wal = records ((cmds.filterMap unmarshalEntry).map Entry.persisted)
  snapshot : b.disk.snapshot = none ∨ ∃ m : GoMap, b.disk.snapshot = some m.marshal

section

variable {L : List Command} {b : ByteMachine}

theorem firstLifetime_start : ∃ b, Reachable ByteMachine.step (FedBytes L) .init b
    ∧ FirstLifetime b [] := by
  refine ⟨_, ⟨_, .step (a := .start .file .file) .init rfl rfl⟩, ?_⟩
  exact ⟨⟨_, rfl, rfl, rfl⟩, rfl, rfl, rfl, rfl, .inl rfl⟩

theorem fed_step {b' : ByteMachine} (a : ByteAction) (hstep : b.step a = some b')
    (hok : FedBytes L b a) : Reachable ByteMachine.step (FedBytes L) b b' :=
  ⟨_, .step .init hok hstep⟩

/-- From the lock to the return, where no system call fails. -/
theorem write_returns {s : ByteStore} {e : Entry} (hup : b.store = some s)
    (hw : b.writer = some (e, .append)) (hfile : s.wal = .file) (hsnap : s.snapshot = .file)
    (he : e.known = true) :
    ∃ s' snapshot tmp history, Reachable ByteMachine.step (FedBytes L) b
        ⟨⟨b.disk.wal ++ e.record, snapshot, tmp⟩, some s', none, b.received, b.reached, history⟩
      ∧ s'.wal = .file ∧ s'.snapshot = .file
      ∧ (snapshot = b.disk.snapshot ∨ snapshot = some s'.data.marshal) := by
  obtain ⟨⟨wal, snapshot, tmp⟩, store, writer, received, reached, history⟩ := b
  obtain rfl : store = some s := hup
  obtain rfl : writer = some (e, .append) := hw
  obtain ⟨s', due, hcount⟩ : ∃ s' due, (s.applyLocked e).countWrite = (s', due) := ⟨_, _, rfl⟩
  have hframe := (s.applyLocked e).countWrite_frame
  rw [hcount] at hframe
  have hfile' : s'.wal = .file := hframe.2.1.trans hfile
  have hsnap' : s'.snapshot = .file := hframe.2.2.trans hsnap
  have happend : ByteMachine.step
        ⟨⟨wal, snapshot, tmp⟩, some s, some (e, .append), received, reached, history⟩ (.append .ok)
      = some ⟨⟨wal ++ e.record, snapshot, tmp⟩, some s, some (e, .apply), received, reached,
        history⟩ := by
    simp [ByteMachine.step, ByteMachine.append, hfile, Device.appendBytes_file he,
      AppendOutcome.written]
  have happly : ByteMachine.step
        ⟨⟨wal ++ e.record, snapshot, tmp⟩, some s, some (e, .apply), received, reached, history⟩
        .apply
      = some ⟨⟨wal ++ e.record, snapshot, tmp⟩, some s',
        some (e, if due then .writeTmp s'.data.marshal else .ret none), received, reached,
        history⟩ := by
    simp [ByteMachine.step, ByteMachine.apply, hcount]
  have hrun := (fed_step (L := L) (.append .ok) happend rfl).trans (fed_step .apply happly rfl)
  cases due with
  | false => exact ⟨s', snapshot, tmp, _, hrun.trans (fed_step .ret rfl rfl), hfile', hsnap', .inl rfl⟩
  | true =>
      have hwrite : ByteMachine.step
            ⟨⟨wal ++ e.record, snapshot, tmp⟩, some s',
              some (e, .writeTmp s'.data.marshal), received, reached, history⟩ (.writeTmp true)
          = some ⟨⟨wal ++ e.record, snapshot, some s'.data.marshal⟩, some s',
            some (e, .rename), received, reached, history⟩ := by
        simp [ByteMachine.step, ByteMachine.writeTmp, hsnap', Device.writeTmpBytes]
      have hrename : ByteMachine.step
            ⟨⟨wal ++ e.record, snapshot, some s'.data.marshal⟩, some s', some (e, .rename),
              received, reached, history⟩ (.rename true)
          = some ⟨⟨wal ++ e.record, some s'.data.marshal, none⟩, some s',
            some (e, .ret none), received, reached, history⟩ := by
        simp [ByteMachine.step, ByteMachine.rename, hsnap', Device.renameBytes]
      have hsaved := (fed_step (L := L) (.writeTmp true) hwrite rfl).trans
        (fed_step (.rename true) hrename rfl)
      exact ⟨s', _, none, _, (hrun.trans hsaved).trans (fed_step .ret rfl rfl), hfile', hsnap',
        .inr rfl⟩

/-- The next command, from the channel to the return of the write. -/
theorem FirstLifetime.feed (hL : ValidCommands unmarshalEntry L) {cmds : List Command}
    (h : FirstLifetime b cmds) {cmd : Command} (hnext : L[cmds.length]? = some cmd) :
    ∃ b', Reachable ByteMachine.step (FedBytes L) b b' ∧ FirstLifetime b' (cmds ++ [cmd]) := by
  obtain ⟨⟨s, hup, hfile, hsnap⟩, hidle, hreceived, hreached, hwal, hsnapshot⟩ := h
  obtain ⟨e, hdecode, hkey, hknown⟩ := hL cmd (List.mem_of_getElem? hnext)
  have hfed : FedBytes L b (.deliver cmd) := by
    refine decide_eq_true ?_
    rw [hreceived]
    exact hnext
  -- the lock is taken for the entry that goes to the log
  have hdeliver : b.step (.deliver cmd) = some { b with
      received := cmds ++ [cmd], writer := some (e.persisted, .append) } := by
    rcases Entry.known_iff.mp hknown with hop | hop
    · simp [ByteMachine.step, ByteMachine.deliver, ByteMachine.call, hup, hidle, hdecode, hkey,
        hop, Entry.persisted, hreceived]
    · simp [ByteMachine.step, ByteMachine.deliver, ByteMachine.call, hup, hidle, hdecode, hkey,
        hop, Entry.persisted, hreceived]
  obtain ⟨s', snapshot, tmp, history, hrun, hfile', hsnap', hsaved⟩ :=
    write_returns (L := L) (b := { b with
      received := cmds ++ [cmd], writer := some (e.persisted, .append) })
      hup rfl hfile hsnap hknown
  refine ⟨_, (fed_step (.deliver cmd) hdeliver hfed).trans hrun, ⟨s', rfl, hfile', hsnap'⟩, rfl, rfl,
    hreached, ?_, ?_⟩
  · have hcmds : ((cmds ++ [cmd]).filterMap unmarshalEntry).map Entry.persisted
        = (cmds.filterMap unmarshalEntry).map Entry.persisted ++ [e.persisted] := by
      simp [List.filterMap_append, hdecode]
    rw [hcmds, records_append, ← hwal]
    exact congrArg _ (List.append_nil _).symm
  · rcases hsaved with hsame | hnew
    · rw [hsame]
      exact hsnapshot
    · exact .inr ⟨_, hnew⟩

/-- A first lifetime can be fed all of `L`. -/
theorem firstLifetime_all (hL : ValidCommands unmarshalEntry L) :
    ∃ b, Reachable ByteMachine.step (FedBytes L) .init b ∧ FirstLifetime b L := by
  have hprefix : ∀ i, i ≤ L.length →
      ∃ b, Reachable ByteMachine.step (FedBytes L) .init b ∧ FirstLifetime b (L.take i) := by
    intro i
    induction i with
    | zero =>
        intro _
        rw [List.take_zero]
        exact firstLifetime_start
    | succ i ih =>
        intro hi
        obtain ⟨b, hr, hb⟩ := ih (by omega)
        have hlen : (L.take i).length = i := List.length_take_of_le (by omega)
        have hnext : L[(L.take i).length]? = some (L.get ⟨i, by omega⟩) := by
          rw [hlen, List.getElem?_eq_getElem (by omega)]
          rfl
        obtain ⟨b', hr', hb'⟩ := hb.feed hL hnext
        refine ⟨b', hr.trans hr', ?_⟩
        rwa [List.take_succ_eq_append_getElem (by omega)]
  obtain ⟨b, hr, hb⟩ := hprefix L.length (Nat.le_refl _)
  rw [List.take_length] at hb
  exact ⟨b, hr, hb⟩

/-- Fed a command that is too long, the node has its map in memory, and no
process starts on its files again. -/
theorem fed_tooLong (hL : ValidCommands unmarshalEntry L)
    (hlong : ¬ ∀ cmd ∈ L, ShortCommand cmd) :
    ∃ b, Reachable ByteMachine.step (FedBytes L) .init b ∧ b.received = L
      ∧ b.served.isSome = true ∧ b.CaughtUp
      ∧ newStoreFromBytes .file .file b.disk = .error .tooLong := by
  obtain ⟨b, hr, ⟨s, hup, -, -⟩, hidle, hreceived, hreached, hwal, hsnapshot⟩ :=
    firstLifetime_all hL
  refine ⟨b, hr, hreceived, ?_, ?_, ?_⟩
  · rw [ByteMachine.served, hup, hidle]
    rfl
  · rw [ByteMachine.CaughtUp, hreached]
    exact Nat.zero_le _
  · obtain ⟨m, hm⟩ : ∃ m, loadSnapshotFile b.disk.snapshot = .map m := by
      rcases hsnapshot with hnone | ⟨m, hsome⟩
      · rw [hnone]
        exact ⟨_, rfl⟩
      · rw [hsome]
        exact ⟨_, m.load_marshal⟩
    have hload : FileWal.load b.disk.wal = .error .tooLong := by
      rw [hwal]
      refine load_records_tooLong ?_ ?_
      · intro e he
        obtain ⟨e₀, he₀, rfl⟩ := List.mem_map.mp he
        obtain ⟨cmd, hcmd, hdecode⟩ := List.mem_filterMap.mp he₀
        obtain ⟨e₁, hdecode', hvalid⟩ := hL cmd hcmd
        cases hdecode.symm.trans hdecode'
        exact hvalid.2
      · simp only [ShortCommand, not_forall] at hlong
        obtain ⟨cmd, hcmd, e, hdecode, he⟩ := hlong
        exact ⟨_, List.mem_map_of_mem (List.mem_filterMap.mpr ⟨cmd, hcmd, hdecode⟩), he⟩
    simp only [newStoreFromBytes, Device.loadSnapshotBytes, Device.loadWalBytes, hm, hload]

end

/-- Once a lifetime has been fed as far as all the earlier ones, the map
in memory and the one on disk are those of the commands fed: this holds in
all runs on `L` exactly when the log can hold every command of it. -/
theorem redelivery_converges_iff {L : List Command} (hL : ValidCommands unmarshalEntry L) :
    (∀ b data, Reachable ByteMachine.step (FedBytes L) .init b → b.served = some data →
        b.CaughtUp →
        data = applyAll unmarshalEntry (L.take b.received.length)
          ∧ ∃ s, newStoreFromBytes .file .file b.disk = .ok s
            ∧ s.data.get = applyAll unmarshalEntry (L.take b.received.length))
      ↔ ∀ cmd ∈ L, ShortCommand cmd := by
  constructor
  · intro h
    by_contra hlong
    obtain ⟨b, hr, -, hserved, hcaught, hfails⟩ := fed_tooLong hL hlong
    obtain ⟨data, hdata⟩ := Option.isSome_iff_exists.mp hserved
    obtain ⟨-, s, hs, -⟩ := h b data hr hdata hcaught
    cases hs.symm.trans hfails
  · intro hshort b data hr hserved hcaught
    exact fed_converges hL hshort hr hserved hcaught

/-- The first command, a crash, and the first two commands. -/
def refedOnce : List ByteAction :=
  let write (cmd : Command) : List ByteAction := [.deliver cmd, .append .ok, .apply, .ret]
  .start .file .file :: write (letterCommand 97 49) ++ [.crash 0]
    ++ .start .file .file :: write (letterCommand 97 49) ++ write (letterCommand 97 50)

theorem redelivery_converges_iff_a :
    ∃ b data, Reachable ByteMachine.step (FedBytes threeCommands) .init b
      ∧ b.served = some data ∧ data [97] = some [50]
      ∧ ∃ s, newStoreFromBytes .file .file b.disk = .ok s
        ∧ s.data.get = applyAll unmarshalEntry (threeCommands.take 2) := by
  obtain ⟨b, hr, hserved, hcaught, hlen⟩ :
      ∃ b, Reachable ByteMachine.step (FedBytes threeCommands) .init b
        ∧ (b.served.map fun d => d [97]) = some (some [50]) ∧ b.CaughtUp
        ∧ b.received.length = 2 :=
    Reachable.of_exec_any refedOnce (by decide +kernel)
  obtain ⟨data, hdata, hval⟩ := Option.map_eq_some_iff.mp hserved
  have h := (redelivery_converges_iff threeCommands_valid).mpr (by decide +kernel) b data hr
    hdata hcaught
  rw [hlen] at h
  exact ⟨b, data, hr, hdata, hval, h.2⟩

/-- `a` set to a value of 64 KiB. -/
def longEntry : Entry := ⟨.upsert, [97], List.replicate 65536 98⟩

theorem longEntry_long : ¬ longEntry.Short := by
  intro hshort
  have hvalue : (List.replicate 65536 (98 : UInt8)).length ≤ longEntry.marshal.length :=
    longEntry.value_length_le
  rw [List.length_replicate] at hvalue
  unfold Entry.Short maxScanTokenSize at hshort
  omega

theorem valid_replicate (n : Nat) : Valid (List.replicate n 98) := by
  have hletter : encode 'b' = [98] := by decide +kernel
  refine ⟨List.replicate n 'b', ?_⟩
  induction n with
  | zero => rfl
  | succ n ih =>
      rw [List.replicate_succ, List.replicate_succ, List.flatMap_cons, ← ih, hletter]
      rfl

/-- One command, fed to one process: the store has it, and the next start
fails. -/
theorem redelivery_stops :
    ValidCommands unmarshalEntry [longEntry.marshal]
      ∧ ∃ b, Reachable ByteMachine.step (FedBytes [longEntry.marshal]) .init b
        ∧ b.received = [longEntry.marshal] ∧ b.served.isSome = true ∧ b.CaughtUp
        ∧ newStoreFromBytes .file .file b.disk = .error .tooLong := by
  have hcoerced : longEntry.coerced = longEntry :=
    Entry.coerced_eq_self.mpr ⟨by decide +kernel, valid_replicate 65536⟩
  have hdecode : unmarshalEntry longEntry.marshal = some longEntry := by
    rw [unmarshal_marshal rfl, hcoerced]
  have hL : ValidCommands unmarshalEntry [longEntry.marshal] :=
    List.forall_mem_singleton.mpr ⟨longEntry, hdecode, List.cons_ne_nil _ _, rfl⟩
  refine ⟨hL, fed_tooLong hL fun hshort => longEntry_long ?_⟩
  exact hshort _ (List.mem_singleton_self _) longEntry hdecode

end RaftStore
