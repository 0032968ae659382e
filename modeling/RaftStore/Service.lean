import Mathlib.Data.List.Nodup
import RaftStore.Integrity

/-!
# The replicated store

All of `cmd/node`, on every member at once: the Raft node, the store with
its files, `RunApplyLoop` between them, and the handlers of `rpc/server.go`
for clients. Requests come in on any node and in any order. PUT and DELETE
go through `Replicate` on a node that believes it leads; GET is answered
from the map of whatever node was asked, as far as that node has come.

Two things are recorded besides the state. `writes` are the requests that
reached `Replicate`, each with the call that carries it. `reads` are the
answers to GET, newest first, each with the number of commands that
`RunApplyLoop` of that node had been through, `seen`.

There is one history behind all answers (`reads_follow_one_history`): the
decided list. A GET answers from the map after its first `seen` commands, a
node never goes back, and what stands in the list are requests that were
accepted, each at most once. A write that was answered with success has its
place there, and a GET that has come past it finds it or a later one
(`acknowledged_write_is_read`).

Bytes that are not UTF-8 do not survive `json.Marshal`, so that the entry
of a request enters the history as `Entry.coerced`.
-/

namespace RaftStore

open Runs Utf8 LastWrite

/-! ## Nodes with their stores -/

/-- What a process has besides its `raft.Node`; `inHand` is the command
that `RunApplyLoop` is at. -/
structure Replica where
  store : ByteStore
  files : ByteDisk
  inHand : Option Command
  applied : List Command

/-- A PUT or DELETE that is waiting in `Replicate`, or has been. -/
structure AcceptedWrite where
  node : String
  call : Nat
  entry : Entry
  deriving DecidableEq

structure Read where
  node : String
  key : Bytes
  answer : Answer
  seen : Nat
  deriving DecidableEq

structure Service where
  world : World
  replica : String → Replica
  writes : List AcceptedWrite
  reads : List Read

inductive ServiceAction where
  | raft (a : Action)
  | put (n : String) (key value : Bytes)
  | delete (n : String) (key : Bytes)
  | get (n : String) (key : Bytes)
  | receive (n : String)
  | apply (n : String) (io : FileIo)

/-- The steps that the handlers and the apply loop take. -/
def Action.isServed : Action → Bool
  | .local _ l => l.isServed
  | _ => false

/-- `store.Apply` on the command, with these outcomes of its system calls. -/
def Replica.apply (r : Replica) (cmd : Command) (io : FileIo) : Replica :=
  let r := { r with inHand := none, applied := r.applied ++ [cmd] }
  match unmarshalEntry cmd with
  | none => r
  | some e =>
      let out := r.store.apply r.files io e
      { r with store := out.1, files := out.2.1 }

namespace Service

variable (C : Cluster) (s : Service)

def init : Service where
  world := C.init
  replica _ := ⟨newByteStore .file .file, .empty, none, []⟩
  writes := []
  reads := []

/-- `handlePut` and `handleDelete` up to the wait in `Replicate`. A request
to a node that does not lead is answered at once and changes nothing. -/
def write (n : String) (e : Entry) : Option Service :=
  (C.step s.world (.local n (.replicate e.marshal))).map fun w =>
    { s with
      world := w
      writes := s.writes ++ [⟨n, (s.world.proc n).replicates.length, e⟩] }

/-- `handleGet`, under the store's read lock. -/
def get (n : String) (key : Bytes) : Option Service :=
  if n ∈ C.members ∧ (s.world.proc n).down = false then
    some { s with reads :=
      ⟨n, key, handleGet (s.replica n).store.toStore key, (s.replica n).applied.length⟩ :: s.reads }
  else none

/-- `RunApplyLoop` takes a command. -/
def receive (n : String) : Option Service :=
  match (s.replica n).inHand, (s.world.proc n).applyCh with
  | none, some (cmd :: _) => (C.step s.world (.local n .applyLoop)).map fun w =>
      { s with
        world := w
        replica := Function.update s.replica n { s.replica n with inHand := some cmd } }
  | _, _ => none

def apply (n : String) (io : FileIo) : Option Service :=
  match (s.replica n).inHand, (s.world.proc n).down with
  | some cmd, false =>
      some { s with replica :=
        Function.update s.replica n ((s.replica n).apply cmd io) }
  | _, _ => none

def step : ServiceAction → Option Service
  | .raft a =>
      if a.isServed then none
      else (C.step s.world a).map fun w => { s with world := w }
  | .put n key value => s.write C n ⟨.upsert, key, value⟩
  | .delete n key => s.write C n ⟨.delete, key, []⟩
  | .get n key => s.get C n key
  | .receive n => s.receive C n
  | .apply n io => s.apply n io

/-- What the client of a request has been told. -/
def answer (q : AcceptedWrite) : Option Answer :=
  match (s.world.proc q.node).replicates[q.call]? with
  | some c =>
      match c.loc with
      | .returned result => some (writeAnswer q.entry result)
      | _ => none
  | none => none

end Service

/-- The conditions of `TotalOrder`, and no write to the log on disk fails. -/
def soundly (s : Service) : ServiceAction → Prop
  | .raft a => inTurn s.world a
  | .apply _ io => io.Logs .file
  | _ => True

instance (s : Service) : (a : ServiceAction) → Decidable (soundly s a)
  | .raft a => inferInstanceAs (Decidable (inTurn s.world a))
  | .apply _ io => inferInstanceAs (Decidable (io.Logs .file))
  | .put _ _ _ => inferInstanceAs (Decidable True)
  | .delete _ _ => inferInstanceAs (Decidable True)
  | .get _ _ => inferInstanceAs (Decidable True)
  | .receive _ => inferInstanceAs (Decidable True)

/-! ## What a step can do -/

inductive ServiceMove (C : Cluster) (s : Service) : ServiceAction → Service → Prop where
  | raft {a : Action} {w : World} (hother : a.isServed = false)
      (hstep : C.step s.world a = some w) :
      ServiceMove C s (.raft a) { s with world := w }
  | write {a : ServiceAction} {n : String} {e : Entry} {w : World}
      (hknown : e.known = true)
      (hstep : C.step s.world (.local n (.replicate e.marshal)) = some w) :
      ServiceMove C s a
        { s with
          world := w
          writes := s.writes ++ [⟨n, (s.world.proc n).replicates.length, e⟩] }
  | get {n : String} {key : Bytes} (hn : n ∈ C.members) :
      ServiceMove C s (.get n key)
        { s with reads :=
          ⟨n, key, handleGet (s.replica n).store.toStore key, (s.replica n).applied.length⟩
            :: s.reads }
  | receive {n : String} {cmd : Command} {queue : List Command} {w : World}
      (hfree : (s.replica n).inHand = none)
      (hqueue : (s.world.proc n).applyCh = some (cmd :: queue))
      (hstep : C.step s.world (.local n .applyLoop) = some w) :
      ServiceMove C s (.receive n)
        { s with
          world := w
          replica := Function.update s.replica n { s.replica n with inHand := some cmd } }
  | apply {n : String} {cmd : Command} {io : FileIo}
      (hhand : (s.replica n).inHand = some cmd) :
      ServiceMove C s (.apply n io)
        { s with replica := Function.update s.replica n ((s.replica n).apply cmd io) }

theorem Service.move {C : Cluster} {s s' : Service} {a : ServiceAction}
    (h : s.step C a = some s') : ServiceMove C s a s' := by
  cases a with
  | raft a =>
      simp only [Service.step] at h
      split at h
      · cases h
      · rename_i hother
        obtain ⟨w, hw, rfl⟩ := Option.map_eq_some_iff.mp h
        exact .raft (Bool.eq_false_iff.mpr hother) hw
  | put n key value =>
      obtain ⟨w, hw, rfl⟩ := Option.map_eq_some_iff.mp h
      exact .write rfl hw
  | delete n key =>
      obtain ⟨w, hw, rfl⟩ := Option.map_eq_some_iff.mp h
      exact .write rfl hw
  | get n key =>
      simp only [Service.step, Service.get] at h
      split at h
      · cases h
        exact .get (‹_ ∧ _›).1
      · cases h
  | receive n =>
      simp only [Service.step, Service.receive] at h
      split at h
      · obtain ⟨w, hw, rfl⟩ := Option.map_eq_some_iff.mp h
        exact .receive ‹_› ‹_› hw
      · cases h
  | apply n io =>
      simp only [Service.step, Service.apply] at h
      split at h
      · cases h
        exact .apply ‹_›
      · cases h

/-! ## The cluster underneath -/

theorem inTurn_served {l : Local} (h : l.isServed = true) (w : World) (n : String) :
    inTurn w (.local n l) := by
  cases l with
  | replicate | applyLoop =>
      simp [inTurn, committedSoundly, countedSoundly, asIntended, leaderHeartbeat, noRestart,
        ownTermReply, leaderAdvance, commitAgrees, soloApply, keepsSending, onLocal,
        Local.isHeartbeat, Local.isHeartbeatReply, Local.isCollect, Local.isAbandon,
        Proc.digestedTerm]
  | _ => cases h

section Step

variable {C : Cluster} {s s' : Service} {a : ServiceAction}

theorem ServiceMove.world (h : ServiceMove C s a s') (hok : soundly s a) :
    s'.world = s.world ∨ ∃ b, inTurn s.world b ∧ C.step s.world b = some s'.world := by
  cases h with
  | raft _ hstep => exact .inr ⟨_, hok, hstep⟩
  | write _ hstep => exact .inr ⟨_, inTurn_served rfl _ _, hstep⟩
  | get => exact .inl rfl
  | receive _ _ hstep => exact .inr ⟨_, inTurn_served rfl _ _, hstep⟩
  | apply => exact .inl rfl

end Step

theorem service_world_reachable {C : Cluster} {s : Service}
    (h : Reachable (Service.step C) soundly (.init C) s) :
    Reachable C.step inTurn C.init s.world := by
  refine h.invariant (P := fun s => Reachable C.step inTurn C.init s.world)
    ⟨[], .init⟩ ?_
  intro s a s' _ ih hok hstep
  rcases (Service.move hstep).world hok with heq | ⟨b, hb, hw⟩
  · rwa [heq]
  · exact ih.elim fun _ hr => (hr.step hb hw).reachable

/-! ## The maps -/

/-- The map that these commands make. -/
def commandMap (cmds : List Command) : Data :=
  replay (cmds.filterMap (effective unmarshalEntry)) .empty

/-- The answer of `handleGet` from this map. -/
def getAnswer (m : Data) (key : Bytes) : Answer :=
  handleGet { newStore .file .file with data := m } key

structure ReplicaInv (p : Proc) (r : Replica) : Prop where
  data : r.store.data.get = commandMap r.applied
  wal : r.store.wal = .file
  taken : p.applied = r.applied ++ r.inHand.toList

theorem commandMap_concat (cmds : List Command) (cmd : Command) :
    commandMap (cmds ++ [cmd])
      = match effective unmarshalEntry cmd with
        | none => commandMap cmds
        | some e => e.write.exec (commandMap cmds) := by
  rw [commandMap, List.filterMap_append, replay_append]
  cases h : effective unmarshalEntry cmd with
  | none => simp [h]; rfl
  | some e => simp [h]; rfl

theorem ReplicaInv.apply {p : Proc} {r : Replica} (h : ReplicaInv p r) {cmd : Command}
    (hhand : r.inHand = some cmd) {io : FileIo} (hio : io.Logs .file) :
    ReplicaInv p (r.apply cmd io) := by
  obtain ⟨hdata, hwal, htaken⟩ := h
  rw [hhand] at htaken
  unfold Replica.apply
  cases hdecode : unmarshalEntry cmd with
  | none =>
      refine ⟨?_, hwal, by simpa using htaken⟩
      have heff : effective unmarshalEntry cmd = none := by simp [effective, hdecode]
      rw [commandMap_concat, heff]
      exact hdata
  | some e =>
      obtain ⟨hexec, hwal'⟩ := r.store.apply_get r.files io e
      refine ⟨?_, hwal'.trans hwal, by simpa using htaken⟩
      rw [commandMap_concat]
      show (r.store.apply r.files io e).1.data.get = _
      rw [hexec, hwal, hdata]
      by_cases hvalid : e.Valid
      · rw [if_pos ⟨hvalid, hio⟩, effective_valid hdecode hvalid]
      · have heff : effective unmarshalEntry cmd = none := by
          simp [effective, hdecode, hvalid]
        rw [if_neg fun hv => hvalid hv.1, heff]

/-- Only `RunApplyLoop` takes commands. -/
theorem Cluster.applied_step {C : Cluster} {w w' : World} {a : Action}
    (h : C.step w a = some w') (hok : noRestart w a) (n : String) :
    (w'.proc n).applied = (w.proc n).applied ∨ a = .local n .applyLoop := by
  obtain ⟨l, hmove, hown⟩ := C.feed_own h hok n
  cases hmove with
  | applyLoop => exact .inr (hown.resolve_left (by simp))
  | same hfeed | start hfeed | collect _ hfeed | send _ _ hfeed | abandon _ hfeed =>
      exact .inl (congrArg Feed.applied hfeed)

theorem Cluster.applyLoop_step {C : Cluster} {w w' : World} {n : String} {cmd : Command}
    {queue : List Command} (h : C.step w (.local n .applyLoop) = some w')
    (hqueue : (w.proc n).applyCh = some (cmd :: queue)) :
    (w'.proc n).applied = (w.proc n).applied ++ [cmd] := by
  simp only [Cluster.step, Proc.step, Proc.applyLoop, hqueue] at h
  split at h
  · cases h
    simp [World.commit]
  · cases h

section Step

variable {C : Cluster} {s s' : Service} {a : ServiceAction}

theorem ReplicaInv.step (h : ∀ n, ReplicaInv (s.world.proc n) (s.replica n))
    (hmove : ServiceMove C s a s') (hok : soundly s a) (n : String) :
    ReplicaInv (s'.world.proc n) (s'.replica n) := by
  have hkept : ∀ {w : World} {b : Action}, C.step s.world b = some w →
      noRestart s.world b → b ≠ .local n .applyLoop →
      ReplicaInv (w.proc n) (s.replica n) := by
    intro w b hstep hb hne
    obtain ⟨hdata, hwal, htaken⟩ := h n
    exact ⟨hdata, hwal, ((C.applied_step hstep hb n).resolve_right hne).trans htaken⟩
  cases hmove with
  | raft hother hstep =>
      refine hkept hstep hok.1.1.1.2 ?_
      rintro rfl
      cases hother
  | write _ hstep => exact hkept hstep trivial (by simp)
  | get => exact h n
  | @receive m cmd queue w hfree hqueue hstep =>
      by_cases hn : n = m
      · subst hn
        obtain ⟨hdata, hwal, htaken⟩ := h n
        simp only [Function.update_self]
        refine ⟨hdata, hwal, ?_⟩
        simpa [hfree, htaken] using C.applyLoop_step hstep hqueue
      · simp only [Function.update_of_ne hn]
        exact hkept hstep trivial (by simpa using Ne.symm hn)
  | @apply m cmd io hhand =>
      by_cases hn : n = m
      · subst hn
        simp only [Function.update_self]
        exact (h n).apply hhand hok
      · simp only [Function.update_of_ne hn]
        exact h n

end Step

/-! ## Requests and calls -/

/-- A call is an old one with the entry it had, or the one this step opens. -/
theorem Cluster.call_opened {C : Cluster} {w w' : World} {a : Action}
    (h : C.step w a = some w') {n : String} {r : Nat} {c : ReplicateCall}
    (hc : (w'.proc n).replicates[r]? = some c) :
    (∃ c₀, (w.proc n).replicates[r]? = some c₀ ∧ c.entry = c₀.entry)
      ∨ ∃ command, a = .local n (.replicate command)
        ∧ r = (w.proc n).replicates.length ∧ c = (w.proc n).openCall command := by
  have hsame : (w'.proc n).replicates = (w.proc n).replicates →
      ∃ c₀, (w.proc n).replicates[r]? = some c₀ ∧ c.entry = c₀.entry :=
    fun heq => ⟨c, heq ▸ hc, rfl⟩
  cases C.proc_step h n with
  | own _ hmove =>
      rcases (call_move hmove).call_cases hc with
        ⟨c₀, hc₀, hentry, -⟩ | ⟨command, -, hnode, hr, rfl⟩
      · exact .inl ⟨c₀, hc₀, hentry⟩
      · -- the log has grown, and only `Replicate` does that
        have hlog : (w'.proc n).node.log.entries
            = (w.proc n).node.log.entries ++ [(w.proc n).node.newEntry command] := by
          rw [hnode]
          rfl
        rcases log_move hmove with hlog' | ⟨command', rfl, hlog'⟩
        · simp [hlog'] at hlog
        · rw [hlog'] at hlog
          have hcommand : command' = command := by
            simpa [LogStore.appendEntry, Node.newEntry] using hlog
          exact .inr ⟨command, by rw [hcommand], hr, rfl⟩
  | voted _ _ _ hproc => exact .inl (hsame (by rw [hproc]))
  | appended _ _ _ hp hproc =>
      refine .inl (hsame ?_)
      rw [hproc, hp]
      split <;> rfl
  | restarted hproc =>
      rw [hproc] at hc
      cases hc
  | idle hproc => exact .inl (hsame (by rw [hproc]))

structure WriteInv (C : Cluster) (s : Service) : Prop where
  call : ∀ n (r : Nat) c, (s.world.proc n).replicates[r]? = some c →
    ∃ q ∈ s.writes, q.node = n ∧ q.call = r ∧ c.entry.command = q.entry.marshal
  write : ∀ q ∈ s.writes, q.node ∈ C.members ∧ q.entry.known = true
    ∧ ∃ e, s.world.CalledBy (q.node, q.call) e
  distinct : (s.writes.map fun q => (q.node, q.call)).Nodup

theorem writeInv_init (C : Cluster) : WriteInv C (.init C) where
  call := nofun
  write := nofun
  distinct := .nil

section Step

variable {C : Cluster} {s s' : Service} {a : ServiceAction}

theorem WriteInv.write_step (h : WriteInv C s) {n : String} {e : Entry} {w : World}
    (hknown : e.known = true)
    (hstep : C.step s.world (.local n (.replicate e.marshal)) = some w) :
    WriteInv C { s with
      world := w
      writes := s.writes ++ [⟨n, (s.world.proc n).replicates.length, e⟩] } where
  call m r c hc := by
    rcases C.call_opened hstep hc with ⟨c₀, hc₀, hentry⟩ | ⟨command, heq, hr, rfl⟩
    · obtain ⟨q, hq, hn, hcall, hcmd⟩ := h.call m r c₀ hc₀
      exact ⟨q, List.mem_append_left _ hq, hn, hcall, hentry ▸ hcmd⟩
    · cases heq
      exact ⟨_, List.mem_append_right _ (List.mem_singleton_self _), rfl, hr.symm, rfl⟩
  write q hq := by
    rcases List.mem_append.mp hq with hq | hq
    · obtain ⟨hn, hk, e', he'⟩ := h.write q hq
      exact ⟨hn, hk, e', he'.step (show noRestart s.world (.local n _) from trivial) hstep⟩
    · cases List.mem_singleton.mp hq
      exact ⟨C.local_member hstep, hknown, _, calledBy_new hstep⟩
  distinct := by
    rw [List.map_append, List.map_singleton, List.nodup_append]
    refine ⟨h.distinct, List.nodup_singleton _, ?_⟩
    intro x hx y hy heq
    obtain ⟨q, hq, hqx⟩ := List.mem_map.mp hx
    obtain ⟨hn, hcall⟩ := Prod.mk.inj (hqx.trans (heq.trans (List.mem_singleton.mp hy)))
    -- an older request has an older call
    obtain ⟨-, -, _, c, hc, -⟩ := h.write q hq
    have hlt := LeaderLog.lt_length_of_getElem? hc
    simp [hn, hcall] at hlt

theorem WriteInv.step (h : WriteInv C s) (hmove : ServiceMove C s a s')
    (hok : soundly s a) : WriteInv C s' := by
  have hkept : ∀ {w : World} {b : Action}, C.step s.world b = some w →
      noRestart s.world b → (∀ n cmd, b ≠ .local n (.replicate cmd)) →
      ∀ replica reads, WriteInv C ⟨w, replica, s.writes, reads⟩ := by
    intro w b hstep hb hne replica reads
    refine ⟨?_, ?_, h.distinct⟩
    · intro n r c hc
      rcases C.call_opened hstep hc with ⟨c₀, hc₀, hentry⟩ | ⟨command, heq, -⟩
      · rw [hentry]
        exact h.call n r c₀ hc₀
      · exact absurd heq (hne n command)
    · intro q hq
      obtain ⟨hn, hk, e, he⟩ := h.write q hq
      exact ⟨hn, hk, e, he.step hb hstep⟩
  cases hmove with
  | raft hother hstep =>
      refine hkept hstep hok.1.1.1.2 ?_ _ _
      rintro n cmd rfl
      cases hother
  | write hknown hstep => exact h.write_step hknown hstep
  | get => exact ⟨h.call, h.write, h.distinct⟩
  | receive _ _ hstep => exact hkept hstep trivial (by simp) _ _
  | apply => exact ⟨h.call, h.write, h.distinct⟩

end Step

/-! ## Reads -/

structure ReadInv (C : Cluster) (s : Service) : Prop where
  read : ∀ r ∈ s.reads, r.node ∈ C.members ∧ r.seen ≤ (s.replica r.node).applied.length
    ∧ r.answer = getAnswer (commandMap ((s.replica r.node).applied.take r.seen)) r.key
  forward : s.reads.Pairwise fun new old => new.node = old.node → old.seen ≤ new.seen

theorem Replica.apply_applied (r : Replica) (cmd : Command) (io : FileIo) :
    (r.apply cmd io).applied = r.applied ++ [cmd] := by
  unfold Replica.apply
  cases unmarshalEntry cmd <;> rfl

theorem ServiceMove.applied {C : Cluster} {s s' : Service} {a : ServiceAction}
    (h : ServiceMove C s a s') (n : String) :
    (s.replica n).applied <+: (s'.replica n).applied := by
  cases h with
  | raft | write | get => exact List.prefix_rfl
  | @receive m =>
      by_cases hn : n = m
      · subst hn
        simp
      · simp [Function.update_of_ne hn]
  | @apply m =>
      by_cases hn : n = m
      · subst hn
        simp [Replica.apply_applied]
      · simp [Function.update_of_ne hn]

theorem ReadInv.step {C : Cluster} {s s' : Service} {a : ServiceAction} (h : ReadInv C s)
    (hreplica : ∀ n, ReplicaInv (s.world.proc n) (s.replica n))
    (hmove : ServiceMove C s a s') : ReadInv C s' := by
  have hold : ∀ r ∈ s.reads, r.node ∈ C.members
      ∧ r.seen ≤ (s'.replica r.node).applied.length
      ∧ r.answer = getAnswer (commandMap ((s'.replica r.node).applied.take r.seen)) r.key := by
    intro r hr
    obtain ⟨hn, hseen, hanswer⟩ := h.read r hr
    have happlied := hmove.applied r.node
    refine ⟨hn, Nat.le_trans hseen happlied.length_le, ?_⟩
    rwa [LeaderLog.prefix_take_eq happlied hseen]
  cases hmove with
  | raft | write | receive | apply => exact ⟨hold, h.forward⟩
  | @get n key hn =>
      refine ⟨?_, List.pairwise_cons.mpr ⟨?_, h.forward⟩⟩
      · refine List.forall_mem_cons.mpr ⟨⟨hn, Nat.le_refl _, ?_⟩, hold⟩
        show getAnswer (s.replica n).store.data.get key = _
        rw [(hreplica n).data, List.take_length]
      · rintro r hr rfl
        exact (hold r hr).2.1

/-! ## One history -/

structure ServiceInv (C : Cluster) (s : Service) : Prop where
  replica : ∀ n, ReplicaInv (s.world.proc n) (s.replica n)
  writes : WriteInv C s
  reads : ReadInv C s

theorem serviceInv_of_reachable {C : Cluster} {s : Service}
    (h : Reachable (Service.step C) soundly (.init C) s) : ServiceInv C s := by
  refine h.invariant (P := ServiceInv C) ⟨?_, writeInv_init C, ⟨nofun, .nil⟩⟩ ?_
  · exact fun n => ⟨rfl, rfl, rfl⟩
  · intro s a s' _ hinv hok hstep
    have hmove := Service.move hstep
    exact ⟨ReplicaInv.step hinv.replica hmove hok, hinv.writes.step hmove hok,
      hinv.reads.step hinv.replica hmove⟩

section History

variable {C : Cluster} {s : Service}

/-- The commands behind a list of entries. -/
def commands (es : List LogEntry) : List Command := es.map LogEntry.command

theorem replica_decided (h : Reachable (Service.step C) soundly (.init C) s) {n : String}
    (hn : n ∈ C.members) : (s.replica n).applied <+: commands (C.decided s.world) := by
  have htaken := ((serviceInv_of_reachable h).replica n).taken
  have hprefix := applied_decided (service_world_reachable h) hn
  rw [htaken] at hprefix
  exact (List.prefix_append ..).trans hprefix

theorem IndexedFrom.nodup {a : Nat} {es : List LogEntry} (h : IndexedFrom a es) :
    es.Nodup := by
  refine List.pairwise_iff_getElem.mpr ?_
  intro i j hi hj hij heq
  have hi' := h i _ (List.getElem?_eq_getElem hi)
  have hj' := h j _ (List.getElem?_eq_getElem hj)
  rw [heq] at hi'
  omega

/-- The request that carries this entry. -/
def Service.Carries (s : Service) (q : AcceptedWrite) (e : LogEntry) : Prop :=
  q ∈ s.writes ∧ s.world.CalledBy (q.node, q.call) e ∧ e.command = q.entry.marshal

theorem carries_of_decided (h : Reachable (Service.step C) soundly (.init C) s)
    {e : LogEntry} (he : e ∈ C.decided s.world) : ∃! q, s.Carries q e := by
  have hinv := (serviceInv_of_reachable h).writes
  have hworld := (service_world_reachable h).mono fun _ _ (ha : inTurn _ _) => ha.1.1.1
  have hlog : ∃ n, e ∈ (s.world.proc n).node.log.body := by
    rcases decided_cases C s.world with hnil | ⟨n, -, heq⟩
    · rw [hnil] at he
      cases he
    · rw [heq] at he
      exact ⟨n, List.mem_of_mem_take he⟩
  obtain ⟨n, hn⟩ := hlog
  obtain ⟨⟨m, r⟩, c, hc, rfl⟩ := calledBy_of_log hworld hn
  obtain ⟨q, hq, rfl, rfl, hcmd⟩ := hinv.call m r c hc
  refine ⟨q, ⟨hq, ⟨c, hc, rfl⟩, hcmd⟩, ?_⟩
  rintro q' ⟨hq', hcall', -⟩
  have hcall : s.world.CalledBy (q.node, q.call) c.entry := ⟨c, hc, rfl⟩
  have hsame := calledBy_unique (hworld.mono fun _ _ ha => ha.orderly) hcall' hcall
  exact List.inj_on_of_nodup_map hinv.distinct hq' hq hsame

theorem read_decided (h : Reachable (Service.step C) soundly (.init C) s) {r : Read}
    (hr : r ∈ s.reads) : r.seen ≤ (C.decided s.world).length
      ∧ r.answer
        = getAnswer (commandMap (commands ((C.decided s.world).take r.seen))) r.key := by
  obtain ⟨hn, hseen, hanswer⟩ := (serviceInv_of_reachable h).reads.read r hr
  have hprefix := replica_decided h hn
  have hlen := hprefix.length_le
  rw [commands, List.length_map] at hlen
  refine ⟨Nat.le_trans hseen hlen, ?_⟩
  rw [hanswer, commands, List.map_take, ← commands, LeaderLog.prefix_take_eq hprefix hseen]

/-- All answers to GET, on all nodes and whatever happened between them, come
from one list of commands: each from the map after the first `seen` of them,
where a node never goes back. The list holds nothing but requests that were
accepted, each at one place. -/
theorem reads_follow_one_history
    (h : Reachable (Service.step C) soundly (.init C) s) :
    (∀ r ∈ s.reads, r.seen ≤ (C.decided s.world).length
      ∧ r.answer = getAnswer (commandMap (commands ((C.decided s.world).take r.seen))) r.key)
    ∧ s.reads.Pairwise (fun new old => new.node = old.node → old.seen ≤ new.seen)
    ∧ (C.decided s.world).Nodup
    ∧ ∀ e ∈ C.decided s.world, ∃! q, s.Carries q e := by
  have hinv := serviceInv_of_reachable h
  have hlogs := (logInv_of_reachable ((service_world_reachable h).mono
    fun _ _ (ha : inTurn _ _) => ha.1.1.1.2.blank)).logs
  refine ⟨fun r hr => read_decided h hr, hinv.reads.forward, ?_,
    fun e he => carries_of_decided h he⟩
  rcases decided_cases C s.world with hnil | ⟨n, -, heq⟩
  · rw [hnil]
    exact .nil
  · rw [heq]
    exact (hlogs n).positional.body_index.nodup.sublist (List.take_sublist ..)

/-- A GET of `k` on `b` that comes too early, a PUT of it on `a`, and a GET
on `a` when the PUT has been applied there. -/
def putGetRun : List ServiceAction :=
  electRun.map .raft ++ [.get "b" [107], .put "a" [107] [118],
    .raft (.local "a" (.replicateSend 0 0)), .raft (.deliverAppend 0),
    .raft (.local "a" (.replicateReply 0 0 0)), .raft (.local "a" (.receiveAck 0 0)),
    .raft (.local "a" (.replicateCommit 0)), .raft (.local "a" (.collect 0)),
    .raft (.local "a" (.send 0)), .raft (.local "a" (.replicateReturn 0)),
    .receive "a", .apply "a" .ok, .get "a" [107]]

theorem reads_follow_one_history_a_b :
    ∃ s : Service, s.reads = [⟨"a", [107], .found [107] [118], 1⟩,
        ⟨"b", [107], .notFound "key not found", 0⟩]
      ∧ (∀ r ∈ s.reads, r.seen ≤ (threeNodes.decided s.world).length
        ∧ r.answer = getAnswer
          (commandMap (commands ((threeNodes.decided s.world).take r.seen))) r.key)
      ∧ ∀ e ∈ threeNodes.decided s.world, ∃! q, s.Carries q e := by
  obtain ⟨s, hr, hreads⟩ : ∃ s,
      Reachable (Service.step threeNodes) soundly (.init threeNodes) s
      ∧ s.reads = [⟨"a", [107], .found [107] [118], 1⟩,
        ⟨"b", [107], .notFound "key not found", 0⟩] :=
    Reachable.of_exec_any putGetRun (by decide +kernel)
  obtain ⟨hall, -, -, hcarried⟩ := reads_follow_one_history hr
  exact ⟨s, hreads, hall, hcarried⟩

/-! ## Reading what was written -/

/-- What a GET answers right after the request. -/
def AcceptedWrite.readBack (q : AcceptedWrite) : Answer :=
  match q.entry.op with
  | .delete => .notFound "key not found"
  | _ => .found (toValid q.entry.key) (toValid q.entry.value)

theorem effective_marshal {e : Entry} (hknown : e.known = true) (hkey : e.key ≠ []) :
    effective unmarshalEntry e.marshal = some e.coerced :=
  effective_valid (unmarshal_marshal hknown) ⟨toValid_ne_nil hkey, hknown⟩

theorem getAnswer_write {m : Data} {e : Entry} (hkey : e.key ≠ [])
    (h : m e.key = e.write.value) :
    getAnswer m e.key = match e.op with
      | .delete => .notFound "key not found"
      | _ => .found e.key e.value := by
  have hget : Store.get { newStore .file .file with data := m } e.key
      = .ok e.write.value := by
    rw [Store.get, if_neg hkey, ← h]
  rw [getAnswer, handleGet, hget]
  unfold Entry.write
  cases e.op <;> rfl

/-- A key after some commands, one of which wrote it: a command from there on
has the last word. -/
theorem commandMap_last {cmds : List Command} {i : Nat} {cmd : Command} {e : Entry}
    (hi : cmds[i]? = some cmd) (he : effective unmarshalEntry cmd = some e) :
    ∃ j cmd' e', i ≤ j ∧ cmds[j]? = some cmd' ∧ effective unmarshalEntry cmd' = some e'
      ∧ e'.key = e.key ∧ commandMap cmds e.key = e'.write.value := by
  have hsplit : commandMap cmds
      = replay ((cmds.drop i).filterMap (effective unmarshalEntry)) (commandMap (cmds.take i)) := by
    rw [commandMap, commandMap, ← replay_append, ← List.filterMap_append,
      List.take_append_drop]
  have hmem : cmd ∈ cmds.drop i :=
    List.mem_iff_getElem?.mpr ⟨0, by rwa [List.getElem?_drop, Nat.add_zero]⟩
  have htouched : Touches
      (((cmds.drop i).filterMap (effective unmarshalEntry)).map Entry.write) e.key :=
    ⟨e.write, List.mem_map_of_mem (List.mem_filterMap.mpr ⟨cmd, hmem, he⟩), rfl⟩
  obtain ⟨x, hx, hkey, hvalue⟩ := run_value (m := commandMap (cmds.take i)) htouched
  obtain ⟨e', he', rfl⟩ := List.mem_map.mp hx
  obtain ⟨cmd', hcmd', heff⟩ := List.mem_filterMap.mp he'
  obtain ⟨k, hk⟩ := List.mem_iff_getElem?.mp hcmd'
  rw [List.getElem?_drop] at hk
  exact ⟨i + k, cmd', e', Nat.le_add_right .., hk, heff, hkey, by rw [hsplit]; exact hvalue⟩

/-- What the request of a decided entry writes. -/
theorem Service.Carries.effective {q : AcceptedWrite} {e : LogEntry} (h : s.Carries q e)
    (hinv : WriteInv C s) {x : Entry} (hx : effective unmarshalEntry e.command = some x) :
    x = q.entry.coerced := by
  obtain ⟨hq, -, hcmd⟩ := h
  have hdecode := unmarshal_marshal (hinv.write q hq).2.1
  obtain ⟨hsome, -⟩ := Option.filter_eq_some_iff.mp hx
  rw [hcmd, hdecode] at hsome
  exact (Option.some.inj hsome).symm

theorem acknowledged_carried (h : Reachable (Service.step C) soundly (.init C) s)
    {q : AcceptedWrite} (hq : q ∈ s.writes)
    (hacked : s.answer q = some (writeAnswer q.entry .ok)) :
    ∃ (i : Nat) (e : LogEntry), (C.decided s.world)[i]? = some e ∧ s.Carries q e := by
  have hinv := (serviceInv_of_reachable h).writes
  have hn := (hinv.write q hq).1
  unfold Service.answer at hacked
  split at hacked
  · rename_i c hc
    have hloc : c.loc = .returned .ok := by
      split at hacked
      · rename_i result hloc
        cases result with
        | ok => exact hloc
        | timedOut | stopped =>
            unfold writeAnswer at hacked
            cases hop : q.entry.op <;> simp [hop] at hacked
      · cases hacked
    obtain ⟨-, hdecided⟩ := returned_decided (service_world_reachable h) hn
      (List.mem_of_getElem? hc) hloc
    refine ⟨_, c.entry, hdecided, hq, ⟨c, hc, rfl⟩, ?_⟩
    obtain ⟨q', hq', hn', hcall', hcmd⟩ := hinv.call _ _ c hc
    have hsame : q' = q :=
      List.inj_on_of_nodup_map hinv.distinct hq' hq (by rw [hn', hcall'])
    rw [hcmd, hsame]
  · cases hacked

/-- A write that was answered with success has a place in the history, and a
GET of its key that has come past it, on whatever node, answers with that
write or with a later one. -/
theorem acknowledged_write_is_read
    (h : Reachable (Service.step C) soundly (.init C) s) {q : AcceptedWrite}
    (hq : q ∈ s.writes) (hkey : q.entry.key ≠ [])
    (hacked : s.answer q = some (writeAnswer q.entry .ok)) :
    ∃ (i : Nat) (e : LogEntry), (C.decided s.world)[i]? = some e ∧ s.Carries q e
      ∧ ∀ r ∈ s.reads, r.key = toValid q.entry.key → i < r.seen →
        ∃ (j : Nat) (e' : LogEntry) (q' : AcceptedWrite), i ≤ j ∧ j < r.seen
          ∧ (C.decided s.world)[j]? = some e' ∧ s.Carries q' e'
          ∧ toValid q'.entry.key = r.key ∧ r.answer = q'.readBack := by
  have hinv := serviceInv_of_reachable h
  obtain ⟨i, e, hi, hcarries⟩ := acknowledged_carried h hq hacked
  refine ⟨i, e, hi, hcarries, ?_⟩
  intro r hr hrkey hseen
  have hwrite : effective unmarshalEntry e.command = some q.entry.coerced := by
    rw [hcarries.2.2]
    exact effective_marshal (hinv.writes.write q hq).2.1 hkey
  have hcmd : (commands ((C.decided s.world).take r.seen))[i]? = some e.command := by
    rw [commands, List.getElem?_map, List.getElem?_take, if_pos hseen, hi]
    rfl
  obtain ⟨j, cmd', x, hij, hj, hx, hxkey, hvalue⟩ := commandMap_last hcmd hwrite
  rw [commands, List.getElem?_map, List.getElem?_take] at hj
  split at hj
  · rename_i hlt
    obtain ⟨e', he', rfl⟩ := Option.map_eq_some_iff.mp hj
    obtain ⟨q', hq', -⟩ := carries_of_decided h (List.mem_of_getElem? he')
    obtain rfl := hq'.effective hinv.writes hx
    have hrkey' : r.key = q'.entry.coerced.key := hrkey.trans hxkey.symm
    refine ⟨j, e', q', hij, hlt, he', hq', hrkey'.symm, ?_⟩
    have hvalid : q'.entry.coerced.Valid := by
      simpa using (Option.filter_eq_some_iff.mp hx).2
    rw [(read_decided h hr).2, hrkey']
    refine getAnswer_write hvalid.1 ?_
    rw [hxkey]
    exact hvalue
  · cases hj

theorem acknowledged_write_is_read_a :
    ∃ s : Service, s.writes = [⟨"a", 0, ⟨.upsert, [107], [118]⟩⟩]
      ∧ ∃ (i : Nat) (e : LogEntry), (threeNodes.decided s.world)[i]? = some e
        ∧ s.Carries ⟨"a", 0, ⟨.upsert, [107], [118]⟩⟩ e := by
  obtain ⟨s, hr, hwrites, hacked⟩ : ∃ s,
      Reachable (Service.step threeNodes) soundly (.init threeNodes) s
      ∧ s.writes = [⟨"a", 0, ⟨.upsert, [107], [118]⟩⟩]
      ∧ s.answer ⟨"a", 0, ⟨.upsert, [107], [118]⟩⟩
        = some (writeAnswer ⟨.upsert, [107], [118]⟩ .ok) :=
    Reachable.of_exec_any putGetRun (by decide +kernel)
  obtain ⟨i, e, hi, hcarries, -⟩ := acknowledged_write_is_read hr
    (hwrites ▸ List.mem_singleton_self _) (by decide) hacked
  exact ⟨s, hwrites, i, e, hi, hcarries⟩

end History

end RaftStore
