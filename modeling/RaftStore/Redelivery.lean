import RaftStore.FileWal
import RaftStore.Recovery

/-!
# Re-delivery after a restart

`lastApplied` lives in memory only, so after a restart the apply loop is
fed the committed commands from the first one again. The log on disk is
then a sequence of beginnings of the committed commands, one for each
lifetime (`Machine.Redelivered`).

While a lifetime has not caught up with the earlier ones the map is a
mixture (`mixed_map`): each key has the value some beginning gave it, but
not all of them the same. Once it has caught up the map is that of the
commands fed so far (`Machine.wal_of_caughtUp`), and the number of commands
behind it never goes down (`replica_store_per_key`).
-/

namespace RaftStore

open LastWrite Runs

/-! ## Commands -/

/-- The map that the commands make of the empty one. -/
def applyAll (unmarshal : Command → Option Entry) (cmds : List Command) : Data :=
  replay (cmds.filterMap unmarshal) .empty

/-- The writes of the commands. -/
def writesOf (unmarshal : Command → Option Entry) (cmds : List Command) :
    List (Write Bytes Bytes) :=
  (cmds.filterMap unmarshal).map Entry.write

/-- Every command decodes to an upsert or a delete of a non-empty key. -/
def ValidCommands (unmarshal : Command → Option Entry) (L : List Command) :
    Prop :=
  ∀ c ∈ L, ∃ e, unmarshal c = some e ∧ e.Valid

def LifeAction.fedFrom (L : List Command) (m : Machine) : LifeAction → Bool
  | .upsert _ _ => false
  | .delete _ => false
  | .deliver cmd => L[m.received.length]? = some cmd
  | a => a.clean

/-- The node runs without I/O errors, nothing but `RunApplyLoop` writes to
its store, and the loop is fed `L` from the beginning in each lifetime. -/
def FedFrom (L : List Command) (m : Machine) (a : LifeAction) : Prop :=
  a.fedFrom L m = true

instance (L : List Command) (m : Machine) (a : LifeAction) :
    Decidable (FedFrom L m a) :=
  inferInstanceAs (Decidable (a.fedFrom L m = true))

section

variable {unmarshal : Command → Option Entry} {L : List Command} {m : Machine}

theorem FedFrom.clean {a : LifeAction} (h : FedFrom L m a) : a.clean = true := by
  cases a with
  | upsert key value => rfl
  | delete key => rfl
  | deliver cmd => rfl
  | _ => exact h

theorem FedFrom.not_call {a : LifeAction} (h : FedFrom L m a) :
    a.isCall = false := by
  cases a with
  | upsert key value => cases h
  | delete key => cases h
  | _ => rfl

theorem FedFrom.next {cmd : Command} (h : FedFrom L m (.deliver cmd)) :
    L[m.received.length]? = some cmd :=
  of_decide_eq_true h

theorem writesOf_append (cs ds : List Command) :
    writesOf unmarshal (cs ++ ds)
      = writesOf unmarshal cs ++ writesOf unmarshal ds := by
  rw [writesOf, List.filterMap_append, List.map_append]
  rfl

theorem writesOf_single {cmd : Command} {e : Entry}
    (h : unmarshal cmd = some e) : writesOf unmarshal [cmd] = [e.write] := by
  rw [writesOf, List.filterMap_cons, h]
  rfl

theorem writesOf_subset {cs ds : List Command} (h : cs <+: ds) :
    writesOf unmarshal cs ⊆ writesOf unmarshal ds := by
  obtain ⟨rest, rfl⟩ := h
  rw [writesOf_append]
  exact List.subset_append_left ..

theorem prefix_concat_of_getElem? {cs : List Command} {cmd : Command}
    (h : cs <+: L) (hnext : L[cs.length]? = some cmd) : cs ++ [cmd] <+: L := by
  obtain ⟨rest, rfl⟩ := h
  rw [List.getElem?_append_right (Nat.le_refl _), Nat.sub_self] at hnext
  cases rest with
  | nil => cases hnext
  | cons c rest =>
      cases hnext
      exact ⟨rest, by simp⟩

end

/-! ## The log of several lifetimes -/

/-- A log that earlier lifetimes left, none of which got beyond the first
`reached` commands. -/
structure Mixed (unmarshal : Command → Option Entry) (L : List Command)
    (reached : Nat) (old : List Entry) : Prop where
  keys : ∀ k, Touches (old.map Entry.write) k →
    Touches (writesOf unmarshal (L.take reached)) k
  values : ∀ k, ∃ j, j ≤ L.length
    ∧ replay old .empty k = applyAll unmarshal (L.take j) k

section

variable {unmarshal : Command → Option Entry} {L : List Command}

theorem mixed_nil : Mixed unmarshal L 0 [] where
  keys k h := by
    obtain ⟨w, hw, -⟩ := h
    cases hw
  values _ := ⟨0, Nat.zero_le _, rfl⟩

/-- The value of a key after one more beginning of `L`. -/
theorem Mixed.value {reached : Nat} {old new : List Entry}
    (h : Mixed unmarshal L reached old) {cs : List Command} (hcs : cs <+: L)
    (hnew : new.map Entry.write = writesOf unmarshal cs) (k : Bytes) :
    ∃ j, j ≤ L.length
      ∧ replay (old ++ new) .empty k = applyAll unmarshal (L.take j) k := by
  rw [replay_append]
  by_cases hk : Touches (writesOf unmarshal cs) k
  · refine ⟨cs.length, hcs.length_le, ?_⟩
    rw [← List.prefix_iff_eq_take.mp hcs]
    show run (new.map Entry.write) _ k = run (writesOf unmarshal cs) _ k
    rw [hnew]
    exact run_touched hk
  · obtain ⟨j, hj, hval⟩ := h.values k
    refine ⟨j, hj, ?_⟩
    rw [← hval]
    show run (new.map Entry.write) _ k = _
    rw [hnew, run_untouched hk]

/-- A lifetime that ends adds its part. -/
theorem Mixed.extend {reached : Nat} {old new : List Entry}
    (h : Mixed unmarshal L reached old) {cs : List Command} (hcs : cs <+: L)
    (hnew : new.map Entry.write = writesOf unmarshal cs) {reached' : Nat}
    (hle : reached ≤ reached') (hlen : cs.length ≤ reached') :
    Mixed unmarshal L reached' (old ++ new) where
  keys k hk := by
    rw [List.map_append, touches_append] at hk
    rcases hk with hk | hk
    · refine (h.keys k hk).mono (writesOf_subset ?_)
      exact List.take_prefix_take_left hle
    · rw [hnew] at hk
      refine hk.mono (writesOf_subset ?_)
      rw [List.prefix_take_iff]
      exact ⟨hcs, hlen⟩
  values := h.value hcs hnew

/-- A lifetime that has caught up has forgotten the mixture. -/
theorem Mixed.caught_up {reached : Nat} {old new : List Entry}
    (h : Mixed unmarshal L reached old) {cs : List Command} (hcs : cs <+: L)
    (hnew : new.map Entry.write = writesOf unmarshal cs)
    (hle : reached ≤ cs.length) :
    replay (old ++ new) .empty = applyAll unmarshal cs := by
  rw [replay_append]
  show run (new.map Entry.write) _ = run (writesOf unmarshal cs) _
  rw [hnew]
  refine run_congr ?_
  intro k hk
  refine run_untouched ?_
  intro hold
  refine hk ((h.keys k hold).mono (writesOf_subset ?_))
  rw [List.prefix_iff_eq_take.mp hcs]
  exact List.take_prefix_take_left hle

end

/-! ## The invariant -/

/-- The commands of this lifetime that are in the log. -/
def Machine.appended (m : Machine) : List Command :=
  match m.writer with
  | some ⟨_, .append⟩ => m.received.dropLast
  | _ => m.received

structure Machine.Redelivered (unmarshal : Command → Option Entry)
    (L : List Command) (m : Machine) : Prop where
  received : m.received <+: L
  pending : ∀ e, m.writer = some ⟨e, .append⟩ → ∃ cmd e₀,
    m.received = m.appended ++ [cmd] ∧ unmarshal cmd = some e₀
      ∧ e.write = e₀.write
  log : ∃ old new, m.disk.wal = old ++ new
    ∧ Mixed unmarshal L m.reached old
    ∧ new.map Entry.write = writesOf unmarshal m.appended

namespace Machine

variable {unmarshal : Command → Option Entry} {L : List Command}
  {m m' : Machine} {a : LifeAction}

theorem redelivered_init : Machine.init.Redelivered unmarshal L where
  received := List.nil_prefix
  pending _ h := by cases h
  log := ⟨[], [], rfl, mixed_nil, rfl⟩

theorem prefix_appended (m : Machine) : m.appended <+: m.received := by
  unfold appended
  split
  · exact List.dropLast_prefix ..
  · exact List.prefix_rfl

/-- Steps after the append change neither the log nor what is in it. -/
theorem Redelivered.frame (h : m.Redelivered unmarshal L)
    (hwal : m'.disk.wal = m.disk.wal) (hreceived : m'.received = m.received)
    (hreached : m'.reached = m.reached) (happended : m'.appended = m.appended)
    (hloc : ∀ e, m'.writer = some ⟨e, .append⟩ → m'.writer = m.writer) :
    m'.Redelivered unmarshal L where
  received := hreceived ▸ h.received
  pending e he := by
    rw [hreceived, happended]
    exact h.pending e ((hloc e he).symm.trans he)
  log := by
    rw [hwal, hreached, happended]
    exact h.log

theorem Redelivered.step (h : m.Redelivered unmarshal L) (hsound : m.Sound)
    (hL : ValidCommands unmarshal L) (hfed : FedFrom L m a)
    (hmove : Move unmarshal m a m') : m'.Redelivered unmarshal L := by
  have hclean := hfed.clean
  cases hmove with
  | start hdown hload =>
      exact h.frame rfl rfl rfl rfl fun _ _ => rfl
  | refuse ha hup hidle =>
      rw [hfed.not_call] at ha
      cases ha
  | lock ha hup hidle hvalid =>
      rw [hfed.not_call] at ha
      cases ha
  | skip hup hidle hbad =>
      obtain ⟨e, he, hvalid⟩ := hL _ (List.mem_of_getElem? hfed.next)
      exact absurd hvalid (hbad e he)
  | @deliver cmd e e' s hup hidle hdecode hvalid hvalid' hsame =>
      have happended : m.appended = m.received := by
        simp only [appended, hidle]
      obtain ⟨old, new, hwal, hmixed, hnew⟩ := h.log
      refine ⟨prefix_concat_of_getElem? h.received hfed.next, ?_, ?_⟩
      · rintro x ⟨⟩
        refine ⟨cmd, e, ?_, hdecode, hsame⟩
        simp only [appended, List.dropLast_concat]
      · refine ⟨old, new, hwal, hmixed, ?_⟩
        simp only [appended, List.dropLast_concat]
        rw [hnew, happended]
  | @append s e io hup hw =>
      obtain rfl : io = .ok := by simpa [LifeAction.clean] using hclean
      obtain ⟨hfile, -, hstage⟩ := hsound.up s hup
      obtain ⟨cmd, e₀, hreceived, hdecode, hsame⟩ := h.pending e hw
      obtain ⟨old, new, hwal, hmixed, hnew⟩ := h.log
      rw [hw] at hstage
      cases hstage with
      | append hknown hdata hex =>
          rw [hfile, append_file hknown]
          refine ⟨h.received, (fun x hx => by cases hx), ?_⟩
          refine ⟨old, new ++ [e], ?_, hmixed, ?_⟩
          · show m.disk.wal ++ [e] = _
            rw [hwal, List.append_assoc]
          · show _ = writesOf unmarshal m.received
            rw [hreceived, writesOf_append, writesOf_single hdecode,
              List.map_append, hnew, List.map_singleton, hsame]
  | @apply s e hup hw =>
      refine h.frame rfl rfl rfl ?_ ?_
      · simp only [appended, hw]
        split
        · rename_i hloc
          split at hloc <;> cases hloc
        · rfl
      · intro x hx
        dsimp only at hx
        split at hx <;> cases hx
  | @writeTmp s e state ok hup hw =>
      obtain rfl : ok = true := hclean
      obtain ⟨-, hfile, -⟩ := hsound.up s hup
      rw [hfile]
      refine h.frame rfl rfl rfl ?_ (fun x hx => by cases hx)
      simp only [appended, hw, Device.writeTmp, if_true]
  | @rename s e ok hup hw =>
      obtain rfl : ok = true := hclean
      obtain ⟨-, hfile, -⟩ := hsound.up s hup
      rw [hfile]
      refine h.frame rfl rfl rfl ?_ (fun x hx => by cases hx)
      simp only [appended, hw]
  | @ret e err hw =>
      refine h.frame rfl rfl rfl ?_ (fun x hx => by cases hx)
      simp only [appended, hw]
  | crash hup =>
      obtain ⟨old, new, hwal, hmixed, hnew⟩ := h.log
      refine ⟨List.nil_prefix, (fun x hx => by cases hx), ?_⟩
      refine ⟨old ++ new, [], ?_, ?_, rfl⟩
      · rw [List.append_nil]
        exact hwal
      · exact hmixed.extend (m.prefix_appended.trans h.received) hnew
          (Nat.le_max_left ..)
          (Nat.le_trans m.prefix_appended.length_le (Nat.le_max_right ..))

theorem sound_of_fed (hr : Reachable (Machine.step unmarshal) (FedFrom L) .init m) :
    m.Sound :=
  sound_reachable (hr.mono fun _ _ h => h.clean)

theorem redelivered_reachable (hL : ValidCommands unmarshal L)
    (hr : Reachable (Machine.step unmarshal) (FedFrom L) .init m) :
    m.Redelivered unmarshal L :=
  hr.invariant redelivered_init fun _ _ _ hreach ih hok hstep =>
    ih.step (sound_of_fed hreach) hL hok (step_move hstep)

/-- The furthest the apply loop has ever been does not go down. -/
theorem furthest_mono (hstep : m.step unmarshal a = some m') :
    max m.reached m.received.length ≤ max m'.reached m'.received.length := by
  cases step_move hstep with
  | skip hup hidle hbad =>
      show _ ≤ max m.reached (m.received ++ [_]).length
      rw [List.length_append]
      omega
  | deliver hup hidle hdecode hvalid hvalid' hsame =>
      show _ ≤ max m.reached (m.received ++ [_]).length
      rw [List.length_append]
      omega
  | crash hup => exact Nat.le_max_left ..
  | _ => exact Nat.le_refl _

/-- What `Get` serves; while a write holds the lock it has to wait. -/
def served (m : Machine) : Option Data :=
  match m.store, m.writer with
  | some s, none => some s.data
  | _, _ => none

/-- This lifetime has been fed as far as every earlier one was. -/
def CaughtUp (m : Machine) : Prop := m.reached ≤ m.received.length

instance (m : Machine) : Decidable m.CaughtUp :=
  inferInstanceAs (Decidable (m.reached ≤ m.received.length))

/-- The map at a moment without a write under way. -/
theorem served_eq (hr : Reachable (Machine.step unmarshal) (FedFrom L) .init m)
    {data : Data} (hserved : m.served = some data) :
    data = replay m.disk.wal .empty ∧ m.appended = m.received := by
  unfold served at hserved
  split at hserved
  · rename_i s hup hidle
    cases hserved
    obtain ⟨-, -, hstage⟩ := (sound_of_fed hr).up s hup
    rw [hidle] at hstage
    cases hstage with
    | idle hdata hex => exact ⟨hdata, by simp only [appended, hidle]⟩
  · cases hserved

theorem wal_of_caughtUp (hL : ValidCommands unmarshal L)
    (hr : Reachable (Machine.step unmarshal) (FedFrom L) .init m)
    (hall : m.appended = m.received) (hcaught : m.CaughtUp) :
    replay m.disk.wal .empty
      = applyAll unmarshal (L.take m.received.length) := by
  have h := redelivered_reachable hL hr
  obtain ⟨old, new, hwal, hmixed, hnew⟩ := h.log
  rw [hall] at hnew
  rw [hwal, hmixed.caught_up h.received hnew hcaught,
    ← List.prefix_iff_eq_take.mp h.received]

end Machine

/-! ## The results -/

section

variable {unmarshal : Command → Option Entry} {L : List Command} {m : Machine}

/-- At every moment each key has the value that some beginning of `L` gave
it. At the moments when the lifetime has caught up this is one beginning
for all keys, and it gets no shorter from one such moment to the next. -/
theorem replica_store_per_key (hL : ValidCommands unmarshal L)
    {past : List Machine}
    (hr : Run (Machine.step unmarshal) (FedFrom L) .init past m) :
    (∀ data, m.served = some data →
        ∀ key, ∃ j, j ≤ L.length
          ∧ data key = applyAll unmarshal (L.take j) key)
      ∧ (∀ data, m.served = some data → m.CaughtUp →
        data = applyAll unmarshal (L.take m.received.length))
      ∧ (∀ m₀ ∈ past, m₀.CaughtUp → m.CaughtUp →
        m₀.received.length ≤ m.received.length) := by
  refine ⟨?_, ?_, ?_⟩
  · intro data hserved key
    have h := Machine.redelivered_reachable hL hr.reachable
    obtain ⟨hdata, hall⟩ := Machine.served_eq hr.reachable hserved
    obtain ⟨old, new, hwal, hmixed, hnew⟩ := h.log
    rw [hall] at hnew
    rw [hdata, hwal]
    exact hmixed.value h.received hnew key
  · intro data hserved hcaught
    obtain ⟨hdata, hall⟩ := Machine.served_eq hr.reachable hserved
    exact hdata.trans (Machine.wal_of_caughtUp hL hr.reachable hall hcaught)
  · intro m₀ hm₀ hcaught₀ hcaught
    have hle : max m₀.reached m₀.received.length
        ≤ max m.reached m.received.length :=
      hr.past_related
        (R := fun m m' => max m.reached m.received.length
          ≤ max m'.reached m'.received.length)
        (fun _ => Nat.le_refl _) Nat.le_trans
        (fun _ _ _ _ _ hstep => Machine.furthest_mono hstep)
        (List.mem_cons_of_mem _ hm₀)
    unfold Machine.CaughtUp at hcaught₀ hcaught
    omega

end

/-! ## A mixed map -/

/-- `json.Marshal` of the upsert of a one-letter value to a one-letter
key. -/
def letterCommand (key value : UInt8) : Command := (Entry.mk .upsert [key] [value]).marshal

/-- `a` is set to 1 and then to 2, and `b` to 1. -/
def threeCommands : List Command :=
  [letterCommand 97 49, letterCommand 97 50, letterCommand 98 49]

theorem threeCommands_valid : ValidCommands unmarshalEntry threeCommands := by
  intro c hc
  have hc' : c = letterCommand 97 49 ∨ c = letterCommand 97 50 ∨ c = letterCommand 98 49 := by
    simpa [threeCommands] using hc
  rcases hc' with rfl | rfl | rfl
  · exact ⟨⟨.upsert, [97], [49]⟩, by decide +kernel, by decide, rfl⟩
  · exact ⟨⟨.upsert, [97], [50]⟩, by decide +kernel, by decide, rfl⟩
  · exact ⟨⟨.upsert, [98], [49]⟩, by decide +kernel, by decide, rfl⟩

/-- The first command, a crash, and the first two commands. -/
def restartedOnce : List LifeAction :=
  .start .file .file :: writeSteps (.deliver (letterCommand 97 49)) ++ [.crash]
    ++ .start .file .file :: writeSteps (.deliver (letterCommand 97 49))
    ++ writeSteps (.deliver (letterCommand 97 50))

theorem replica_store_per_key_a :
    ∃ past m data, Run (Machine.step unmarshalEntry) (FedFrom threeCommands)
        .init past m
      ∧ m.served = some data
      ∧ data = applyAll unmarshalEntry (threeCommands.take 2) := by
  obtain ⟨past, m, hr, hserved, hcaught, hlen⟩ :
      ∃ past m, Run (Machine.step unmarshalEntry) (FedFrom threeCommands)
          .init past m
        ∧ m.served.isSome = true ∧ m.CaughtUp ∧ m.received.length = 2 :=
    Run.of_exec_any restartedOnce (by decide +kernel)
  obtain ⟨data, hdata⟩ := Option.isSome_iff_exists.mp hserved
  have h := (replica_store_per_key threeCommands_valid hr).2.1 data hdata hcaught
  rw [hlen] at h
  exact ⟨past, m, data, hr, hdata, h⟩

/-- All three commands, a crash, and the first again: `a` is back at 1
while `b` is still 1. -/
theorem mixed_map :
    ∃ m data, Reachable (Machine.step unmarshalEntry) (FedFrom threeCommands)
        .init m
      ∧ m.served = some data
      ∧ ¬ ∃ j, data = applyAll unmarshalEntry (threeCommands.take j) := by
  obtain ⟨m, hr, hserved⟩ :
      ∃ m, Reachable (Machine.step unmarshalEntry) (FedFrom threeCommands)
          .init m
        ∧ (m.served.map fun d => (d [97], d [98]))
          = some (some [49], some [49]) :=
    Reachable.of_exec_any
      (.start .file .file :: writeSteps (.deliver (letterCommand 97 49))
        ++ writeSteps (.deliver (letterCommand 97 50))
        ++ writeSteps (.deliver (letterCommand 98 49))
        ++ .crash :: .start .file .file
          :: writeSteps (.deliver (letterCommand 97 49)))
      (by decide +kernel)
  obtain ⟨data, hdata, hvals⟩ := Option.map_eq_some_iff.mp hserved
  refine ⟨m, data, hr, hdata, ?_⟩
  rintro ⟨j, rfl⟩
  have hprefix : ∀ j, j < 4 → ((applyAll unmarshalEntry (threeCommands.take j)) [97],
      (applyAll unmarshalEntry (threeCommands.take j)) [98])
        ≠ (some [49], some [49]) := by decide +kernel
  rcases Nat.lt_or_ge j 4 with hlt | hge
  · exact hprefix j hlt hvals
  · have hlen : threeCommands.length = 3 := rfl
    have htake : threeCommands.take j = threeCommands.take 3 := by
      rw [List.take_of_length_le (by omega), List.take_of_length_le (by omega)]
    rw [htake] at hvals
    exact hprefix 3 (by decide) hvals

end RaftStore
