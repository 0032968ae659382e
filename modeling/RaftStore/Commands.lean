import RaftStore.Refinement

/-!
# Commands that `Replicate` reported

A call of `Replicate` counts acknowledgements of goroutines that may
report late, retry, or get a success for a request without entries. All
the same, each counted acknowledgement stands for a peer that took over
the leader's log at least up to the new entry in the call's term
(`CallOK`), so a call that reaches its quorum has its entry committed in
the sense of the protocol. Leader completeness carries it to every later
leader (`leader_completeness`).
-/

namespace RaftStore

open Runs Quorum LeaderLog

abbrev Cluster.committedAt (C : Cluster) : Spec → Nat → Nat → Prop :=
  CommittedAt LogEntry.term C.quorum

/-- Past the point where a majority has acknowledged. -/
def ReplicateLoc.decided : ReplicateLoc → Bool
  | .commit => true
  | .applying _ => true
  | .returned .ok => true
  | _ => false

def Worker.isAck : Worker → Bool
  | .done ok => ok
  | .received ok => ok
  | _ => false

def Worker.isCounted : Worker → Bool
  | .received ok => ok
  | _ => false

theorem Worker.isAck_of_isCounted {wk : Worker} (h : wk.isCounted = true) :
    wk.isAck = true := by
  cases wk <;> first | exact h | cases h

/-- A new call has its own acknowledgement only. -/
theorem Proc.openCall_tally (p : Proc) (command : Command) :
    Tally p.node.peers (p.openCall command).workers Worker.isCounted
      (p.openCall command).acks :=
  .start _ rfl

theorem Proc.openCall_undecided (p : Proc) (command : Command) :
    (p.openCall command).loc.decided = false := by
  rw [openCall]
  dsimp only
  split <;> rfl

/-- A goroutine that has not posted its result is not counted. -/
theorem Worker.not_counted_of_busy {wk : Option Worker} (h : wk.any Worker.isBusy = true) :
    ∃ old, wk = some old ∧ old.isCounted = false := by
  cases wk with
  | none => cases h
  | some old =>
      refine ⟨old, rfl, ?_⟩
      cases old <;> first | rfl | cases h

/-! ## One call -/

/-- The entry of a call, as part of the log of the call's term. -/
structure EntryOK (s : Spec) (n : String) (entry : LogEntry) : Prop where
  leader : s.leader entry.term = some n
  pos : 0 < entry.index
  at_index : (s.full entry.term)[entry.index - 1]? = some entry

structure CallOK (C : Cluster) (net : Net) (s : Spec) (n : String)
    (c : ReplicateCall) : Prop where
  term : c.entry.term = c.term
  entry : EntryOK s n c.entry
  own : c.entry.index ≤ s.ack n c.term
  length : c.workers.length = (C.peers n).length
  awaiting : ∀ (k : Nat) call args peer,
    c.workers[k]? = some (.awaiting call args) →
    (C.peers n)[k]? = some peer →
      net.appendCalls[call]? = some ⟨n, peer, args⟩ ∧ args.term = c.term
        ∧ c.entry.index ≤ args.prevLogIndex + args.entries.length
  acked : ∀ (k : Nat) wk peer, c.workers[k]? = some wk → wk.isAck = true →
    (C.peers n)[k]? = some peer → c.entry.index ≤ s.ack peer c.term
  acks : c.acks = 1 + c.workers.countP Worker.isCounted
  committed : c.loc.decided = true → C.committedAt s c.term c.entry.index

structure CallInv (C : Cluster) (w : World) (s : Spec) : Prop where
  calls : ∀ n, ∀ c ∈ (w.proc n).replicates, CallOK C w.net s n c
  replicated : ∀ n entry, .replicated n entry ∈ w.history →
    EntryOK s n entry ∧ C.committedAt s entry.term entry.index

section Call

variable {C : Cluster} {net net' : Net} {s s' : Spec} {n : String}
  {c : ReplicateCall}

theorem EntryOK.grow {entry : LogEntry} (h : EntryOK s n entry)
    (g : Grow s s') : EntryOK s' n entry :=
  ⟨g.leader _ _ h.leader, h.pos, prefix_getElem? (g.full _) h.at_index⟩

theorem EntryOK.ownTerm {entry : LogEntry} (h : EntryOK s n entry) :
    OwnTerm LogEntry.term s entry.term entry.index :=
  ⟨entry, h.pos, h.at_index, rfl⟩

theorem CallOK.grow (h : CallOK C net s n c) (g : Grow s s')
    (hnet : net.appendCalls <+: net'.appendCalls) :
    CallOK C net' s' n c where
  term := h.term
  entry := h.entry.grow g
  own := Nat.le_trans h.own (g.ack _ _)
  length := h.length
  awaiting k call args peer hw hp := by
    obtain ⟨hcall, hrest⟩ := h.awaiting k call args peer hw hp
    exact ⟨prefix_getElem? hnet hcall, hrest⟩
  acked k wk peer hw hack hp :=
    Nat.le_trans (h.acked k wk peer hw hack hp) (g.ack _ _)
  acks := h.acks
  committed hloc := (h.committed hloc).grow g

theorem CallOK.tally (h : CallOK C net s n c) :
    Tally (C.peers n) c.workers Worker.isCounted c.acks :=
  ⟨h.length, h.acks⟩

/-- A goroutine that was not counted yet moves. -/
theorem CallOK.setWorker (h : CallOK C net s n c) {k : Nat} {old wk : Worker}
    (hold : c.workers[k]? = some old) (hcounted : old.isCounted = false)
    (hawait : ∀ call args peer, wk = .awaiting call args →
      (C.peers n)[k]? = some peer →
        net.appendCalls[call]? = some ⟨n, peer, args⟩ ∧ args.term = c.term
          ∧ c.entry.index ≤ args.prevLogIndex + args.entries.length)
    (hack : wk.isAck = true → ∀ peer, (C.peers n)[k]? = some peer →
      c.entry.index ≤ s.ack peer c.term) {acks : Nat} {loc : ReplicateLoc}
    (hacks : acks = c.acks + if wk.isCounted then 1 else 0)
    (hloc : loc.decided = true → C.committedAt s c.term c.entry.index) :
    CallOK C net s n
      { c with workers := c.workers.set k wk, acks := acks, loc := loc } where
  term := h.term
  entry := h.entry
  own := h.own
  length := (h.tally.set hold hcounted wk).length
  awaiting j call args peer hw hp := by
    by_cases hj : k = j
    · subst hj
      obtain ⟨hlt, -⟩ := List.getElem?_eq_some_iff.mp hold
      rw [List.getElem?_set_self hlt] at hw
      exact hawait call args peer (Option.some.inj hw) hp
    · rw [List.getElem?_set_ne hj] at hw
      exact h.awaiting j call args peer hw hp
  acked j x peer hw hx hp := by
    by_cases hj : k = j
    · subst hj
      obtain ⟨hlt, -⟩ := List.getElem?_eq_some_iff.mp hold
      rw [List.getElem?_set_self hlt] at hw
      cases hw
      exact hack hx peer hp
    · rw [List.getElem?_set_ne hj] at hw
      exact h.acked j x peer hw hx hp
  acks := hacks.trans (h.tally.set hold hcounted wk).count
  committed := hloc

theorem CallOK.setLoc (h : CallOK C net s n c) {loc : ReplicateLoc}
    (hloc : loc.decided = true → C.committedAt s c.term c.entry.index) :
    CallOK C net s n { c with loc := loc } :=
  ⟨h.term, h.entry, h.own, h.length, h.awaiting, h.acked, h.acks, hloc⟩

/-- A majority of acknowledgements commits the entry. -/
theorem CallOK.quorum (h : CallOK C net s n c) (hn : n ∈ C.members)
    (hmaj : C.members.length / 2 + 1 ≤ c.acks) :
    C.committedAt s c.term c.entry.index := by
  rw [h.acks] at hmaj
  obtain ⟨Q, hQ, -, hslots⟩ := exists_majority_of_slots hn (C.peers_nodup n hn)
    (fun p hp => (C.mem_peers n hn p).mp hp) h.length hmaj
  refine ⟨h.term ▸ h.entry.ownTerm, Q, hQ, ?_⟩
  intro v hv
  rcases hslots v hv with rfl | ⟨k, wk, hpeer, hw, hcount⟩
  · exact h.own
  · exact h.acked k wk v hw (Worker.isAck_of_isCounted hcount) hpeer

end Call

/-! ## All calls of a process -/

/-- A request of `replicateToPeer` reaches at least up to the entry. -/
theorem replicateArgs_reach {n : Node} {term' : Nat}
    (h : n.log.WellFormed term') {peer : String} {entry : LogEntry}
    (term leaderCommit : Nat) (hnext : 1 ≤ n.nextIndex peer)
    (hentry : entry.index ≤ n.log.body.length) :
    entry.index ≤ (n.replicateArgs peer entry term leaderCommit).prevLogIndex
      + (n.replicateArgs peer entry term leaderCommit).entries.length := by
  show entry.index ≤ n.nextIndex peer - 1
    + (n.log.slice (n.nextIndex peer) entry.index).length
  rw [h.positional.slice_eq hnext, List.length_take, List.length_drop]
  omega

section Step

variable {C : Cluster} {w w' : World} {a : Action} {s s' : Spec} {n : String}

theorem EntryOK.member {entry : LogEntry} (h : EntryOK s n entry)
    (hR : Refines w s) (hcode : CodeInv C w) : n ∈ C.members :=
  (Won.voted hcode.elect (hR.won_iff.mpr h.leader)).1

/-- The call that `Replicate` opens. -/
theorem callOK_open (hR' : Refines w' s') (hs' : C.specInv s')
    (hcode : CodeInv C w) (hcode' : CodeInv C w') {command : Command}
    (hstate : (w.proc n).node.state = .leader)
    (hnode : (w'.proc n).node = (w.proc n).node.appendCommand command) :
    CallOK C w'.net s' n ((w.proc n).openCall command) := by
  have hstate' : (w'.core n).state = .leader := by
    rw [World.core, hnode]
    exact hstate
  obtain ⟨hlead, hlog⟩ := hR'.leader_log hs' hcode' hstate'
  have hterm : (w'.core n).currentTerm = (w.proc n).node.currentTerm := by
    rw [World.core, hnode]
    rfl
  have hwf := hcode.log.logs n
  have hindex : ((w.proc n).node.newEntry command).index
      = (w.proc n).node.log.body.length + 1 :=
    congrArg (· + 1) hwf.positional.lastIndexAndTerm_fst
  have hfull : s'.full (w.proc n).node.currentTerm
      = (w.proc n).node.log.body ++ [(w.proc n).node.newEntry command] := by
    rw [← hterm, ← hlog, World.core, hnode]
    exact hwf.positional.body_append _
  rw [hterm] at hlead
  refine ⟨rfl, ⟨hlead, by rw [Proc.openCall, hindex]; exact Nat.succ_pos _, ?_⟩,
    ?_, ?_, ?_, ?_, ?_, ?_⟩
  · show (s'.full (w.proc n).node.currentTerm)[_]? = _
    rw [hfull]
    simp [Proc.openCall, hindex]
  · show _ ≤ s'.ack n (w.proc n).node.currentTerm
    rw [hs'.leader_ack _ n hlead, hfull]
    simp [Proc.openCall, hindex]
  · have hpeers : (w.proc n).node.peers = C.peers n := hcode.static.peers n
    rw [← hpeers]
    exact ((w.proc n).openCall_tally command).length
  · intro k call args peer hw _
    obtain ⟨_, -, hlock⟩ := List.mem_map.mp (List.mem_of_getElem? hw)
    cases hlock
  · intro k wk peer hw hack _
    obtain ⟨_, -, rfl⟩ := List.mem_map.mp (List.mem_of_getElem? hw)
    cases hack
  · exact ((w.proc n).openCall_tally command).count
  · intro hloc
    cases hloc.symm.trans ((w.proc n).openCall_undecided command)

/-- A success that a goroutine received is an acknowledgement. -/
theorem CallOK.of_answer {c : ReplicateCall} (h : CallOK C w.net s n c)
    (hR : Refines w s) {k call : Nat} {args : AppendEntriesArgs}
    {reply : AppendEntriesReply} {peer : String}
    (hworker : c.workers[k]? = some (.awaiting call args))
    (hans : (call, reply) ∈ w.net.appendAnswers)
    (hsuccess : reply.success = true) (hpeer : (C.peers n)[k]? = some peer) :
    c.entry.index ≤ s.ack peer c.term := by
  obtain ⟨hcall, hterm, hreach⟩ := h.awaiting k call args peer hworker hpeer
  obtain ⟨c', hc', hack⟩ := hR.net.answers call reply hans
  rw [hcall] at hc'
  cases hc'
  rw [← hterm]
  exact Nat.le_trans hreach (hack hsuccess)

/-- One goroutine of a call takes a step. -/
theorem CallOK.worker {c : ReplicateCall} {k : Nat} {wk : Worker}
    {out : Output} (h : CallOK C w.net s n c) (hR : Refines w s)
    (hs : C.specInv s) (hcode : CodeInv C w) (g : Grow s s')
    (hnet : w.net.appendCalls <+: w'.net.appendCalls)
    (hout : out = {} ∨ n ∈ C.members ∧ w' = w.commit n (w'.proc n) out)
    (hbusy : c.workers[k]?.any Worker.isBusy = true)
    (hwk : WorkerMove w.net (w.proc n) out c k wk) :
    CallOK C w'.net s' n { c with workers := c.workers.set k wk } := by
  have h' := h.grow g hnet
  obtain ⟨old, hold, hold'⟩ := Worker.not_counted_of_busy hbusy
  cases hwk with
  | retry =>
      exact h'.setWorker hold hold' (fun _ _ _ heq => by cases heq)
        (fun hack => by cases hack) rfl h'.committed
  | failed =>
      exact h'.setWorker hold hold' (fun _ _ _ heq => by cases heq)
        (fun hack => by cases hack) rfl h'.committed
  | @sent peer args hpeer hterm hstate hargs hcalls =>
      refine h'.setWorker hold hold' ?_
        (fun hack => by cases hack) rfl h'.committed
      intro call args' peer' heq hpeer'
      cases heq
      have hpeers : (w.proc n).node.peers = C.peers n := hcode.static.peers n
      rw [hpeers, hpeer'] at hpeer
      cases hpeer
      have hid : (w.proc n).node.id = n := hcode.static.id n
      refine ⟨?_, by rw [hargs]; rfl, ?_⟩
      · rcases hout with rfl | ⟨-, hw'⟩
        · cases hcalls
        · rw [hw']
          simp [World.commit, hcalls, hid]
      · obtain ⟨-, hlog⟩ := hR.leader_log hs hcode (n := n) hstate
        have hlt := lt_length_of_getElem? h.entry.at_index
        obtain ⟨term, hwon⟩ : ∃ term, Won w n term :=
          ⟨_, hcode.lead.leader n hstate⟩
        rw [hargs]
        refine replicateArgs_reach (hcode.log.logs n) _ _
          (hcode.lead.next n term hwon peer (List.mem_of_getElem? hpeer')) ?_
        have hbody : (w.proc n).node.log.body = s.full c.entry.term := by
          rw [h.term, ← hterm]
          exact hlog
        rw [hbody]
        have := h.entry.pos
        omega
  | acked hworker hans _ hsuccess =>
      refine h'.setWorker hold hold' (fun _ _ _ heq => by cases heq)
        ?_ rfl h'.committed
      intro _ peer hpeer
      exact Nat.le_trans (h.of_answer hR hworker hans hsuccess hpeer) (g.ack _ _)

/-- Only the branch with a majority of acks leads past the waiting loop. -/
theorem countAck_decided {p : Proc} {c : ReplicateCall} {k : Nat} {ok : Bool}
    (h : (p.countAck c k ok).loc.decided = true) :
    ok = true ∧ p.node.majority ≤ c.acks + 1 := by
  rw [Proc.countAck] at h
  by_cases hmaj :
      (ok && p.node.majority ≤ if ok then c.acks + 1 else c.acks) = true
  · simp only [Bool.and_eq_true, decide_eq_true_eq] at hmaj
    obtain ⟨rfl, hmaj⟩ := hmaj
    exact ⟨rfl, hmaj⟩
  · rw [if_neg hmaj] at h
    by_cases hall : (c.workers.set k (.received ok)).all Worker.isReceived = true
    · rw [if_pos hall] at h; cases h
    · rw [if_neg hall] at h; cases h

/-- `Replicate` takes one result. -/
theorem CallOK.countAck {c : ReplicateCall} {net : Net} {p : Proc} {k : Nat}
    {ok : Bool} (h : CallOK C net s n c) (hn : n ∈ C.members)
    (hpeers : p.node.peers = C.peers n)
    (hworker : c.workers[k]? = some (.done ok)) :
    CallOK C net s n (p.countAck c k ok) := by
  have hack : (Worker.received ok).isAck = true → ∀ peer,
      (C.peers n)[k]? = some peer → c.entry.index ≤ s.ack peer c.term :=
    fun hok peer hpeer => h.acked k _ peer hworker hok hpeer
  have hcount : CallOK C net s n
      { c with
        workers := c.workers.set k (.received ok)
        acks := c.acks + if ok then 1 else 0
        loc := .waiting } :=
    h.setWorker hworker rfl (fun _ _ _ heq => by cases heq) hack rfl
      (fun hd => by cases hd)
  have heq : p.countAck c k ok =
      { c with
        workers := c.workers.set k (.received ok)
        acks := c.acks + if ok then 1 else 0
        loc := (p.countAck c k ok).loc } := by
    cases ok <;> simp [Proc.countAck]
  rw [heq]
  refine hcount.setLoc fun hd => hcount.quorum hn ?_
  obtain ⟨rfl, hmaj⟩ := countAck_decided hd
  rw [Node.majority, hpeers, C.length_peers hn] at hmaj
  exact hmaj

theorem CallInv.calls_step (hinv : CallInv C w s) (habs : Abstracts C w s)
    (habs' : Abstracts C w' s') (g : Grow s s')
    (hstep : C.step w a = some w') (n : String) :
    ∀ c ∈ (w'.proc n).replicates, CallOK C w'.net s' n c := by
  have hnet := (C.move habs.code.static hstep).grows.appendCalls
  have hgrow : ∀ c ∈ (w.proc n).replicates, CallOK C w'.net s' n c :=
    fun c hc => (hinv.calls n c hc).grow g hnet
  -- a step that replaces one call
  have hset : ∀ {r : Nat} {c' : ReplicateCall}, CallOK C w'.net s' n c' →
      (w'.proc n).replicates = (w.proc n).replicates.set r c' →
      ∀ c ∈ (w'.proc n).replicates, CallOK C w'.net s' n c := by
    intro r c' hc' hcalls c hc
    rw [hcalls] at hc
    rcases List.mem_or_eq_of_mem_set hc with hc | rfl
    · exact hgrow c hc
    · exact hc'
  rcases C.call_step hstep n with hnil | ⟨out, hmove, hout⟩
  · rw [hnil]
    exact fun c hc => by cases hc
  cases hmove with
  | same hcalls => rw [hcalls]; exact hgrow
  | opened hstate hnode hcalls =>
      rw [hcalls]
      intro c hc
      rcases List.mem_append.mp hc with hc | hc
      · exact hgrow c hc
      · cases List.mem_singleton.mp hc
        exact callOK_open habs'.refines habs'.spec habs.code habs'.code hstate hnode
  | worker hcall hbusy hwk hcalls =>
      have hc := hinv.calls n _ (List.mem_of_getElem? hcall)
      exact hset (hc.worker habs.refines habs.spec habs.code g hnet hout hbusy hwk)
        hcalls
  | ack hcall _ hworker hcalls =>
      have hc := hgrow _ (List.mem_of_getElem? hcall)
      exact hset (hc.countAck (hc.entry.member habs'.refines habs'.code)
        (habs.code.static.peers n) hworker) hcalls
  | @gaveUp _ _ result hcall _ hresult hcalls =>
      refine hset ((hgrow _ (List.mem_of_getElem? hcall)).setLoc ?_)
        hcalls
      intro hd
      cases result <;> first | exact absurd rfl hresult | cases hd
  | committed hcall hloc hcalls =>
      have hc := hgrow _ (List.mem_of_getElem? hcall)
      exact hset (hc.setLoc fun _ => hc.committed (by rw [hloc]; rfl)) hcalls
  | returned hcall hloc _ hcalls =>
      have hc := hgrow _ (List.mem_of_getElem? hcall)
      exact hset (hc.setLoc fun _ => hc.committed (by rw [hloc]; rfl)) hcalls

/-! ## Returned calls -/

theorem Proc.Move.replicated {net : Net} {p p' : Proc} {l : Local}
    {out : Output} (h : p.Move net l p' out) {entry : LogEntry}
    (he : .replicated n entry ∈ out.events) :
    n = p.node.id ∧ ∃ c ∈ p.replicates, ∃ x, c.loc = .applying x
      ∧ entry = c.entry := by
  cases h with
  | replicateReturn hcall hloc =>
      cases List.mem_singleton.mp he
      exact ⟨rfl, _, List.mem_of_getElem? hcall, _, hloc, rfl⟩
  | campaign => cases List.mem_singleton.mp he
  | @becomeLeader term =>
      simp only at he
      split at he
      · cases List.mem_singleton.mp he
      · cases he
  | _ => cases he

/-- `Replicate` returns nil from the call that has its majority. -/
theorem Cluster.replicated_step (hw : Static C w)
    (hstep : C.step w a = some w') {entry : LogEntry}
    (he : .replicated n entry ∈ w'.history) :
    .replicated n entry ∈ w.history ∨ ∃ c ∈ (w.proc n).replicates,
      ∃ x, c.loc = .applying x ∧ entry = c.entry := by
  cases C.raw_move hstep with
  | @«local» m l p out _ hlocal =>
      rcases List.mem_append.mp he with he | he
      · obtain ⟨hid, hc⟩ := (Proc.move hlocal).replicated he
        rw [show n = m from hid.trans (hw.id m)]
        exact .inr hc
      · exact .inl he
  | @deliverVote call c =>
      simp only [World.answerVote] at he
      split at he
      · exact .inl ((List.mem_cons.mp he).resolve_left fun h => by cases h)
      · exact .inl he
  | deliverAppend => exact .inl he
  | crash => exact .inl he
  | restart => exact .inl ((List.mem_cons.mp he).resolve_left fun h => by cases h)

theorem CallInv.step (hinv : CallInv C w s) (habs : Abstracts C w s)
    (habs' : Abstracts C w' s') (g : Grow s s')
    (hstep : C.step w a = some w') : CallInv C w' s' where
  calls n := hinv.calls_step habs habs' g hstep n
  replicated n entry he := by
    rcases Cluster.replicated_step habs.code.static hstep he with
      he | ⟨c, hc, x, hloc, rfl⟩
    · obtain ⟨hok, hcom⟩ := hinv.replicated n entry he
      exact ⟨hok.grow g, hcom.grow g⟩
    · have hcall := hinv.calls n c hc
      refine ⟨hcall.entry.grow g, ?_⟩
      rw [hcall.term]
      exact (hcall.committed (by rw [hloc]; rfl)).grow g

end Step

theorem callInv_init (C : Cluster) : CallInv C C.init St.init where
  calls _ _ h := by cases h
  replicated _ _ h := by cases h

theorem callInv_of_reachable {C : Cluster} {w : World}
    (h : Reachable C.step orderly C.init w) :
    ∃ s, Abstracts C w s ∧ CallInv C w s := by
  obtain ⟨past, hr⟩ := h
  exact run_abstracts (fun _ _ ha => ha) (Q := fun _ w s => CallInv C w s)
    (callInv_init C)
    (fun _ _ _ _ _ _ habs habs' g hinv _ hstep => hinv.step habs habs' g hstep) hr

/-! ## Leader completeness -/

theorem Cluster.quorum_inter (C : Cluster) (Q R : Finset String)
    (hQ : C.quorum Q) (hR : C.quorum R) : ∃ v, v ∈ Q ∧ v ∈ R :=
  hQ.inter C.nodup hR

/-- A committed entry is in the log every later leader started with. -/
theorem elected_has_entry {C : Cluster} {w : World}
    (h : Reachable C.step orderly C.init w) {n m : String} {entry : LogEntry}
    (he : .replicated n entry ∈ w.history) {term : Nat} {log : LogStore}
    (hterm : entry.term < term) (hm : .elected m term log ∈ w.history) :
    log.body[entry.index - 1]? = some entry := by
  obtain ⟨s, habs, hinv⟩ := callInv_of_reachable h
  obtain ⟨hok, hcom⟩ := hinv.replicated n entry he
  have hlead : s.leader term ≠ none := by
    rw [habs.refines.hist.leader m term log hm]
    simp
  have hpre := leader_complete C.quorum_inter habs.spec hcom term hterm hlead
  rw [habs.refines.hist.base m term log hm] at hpre
  refine prefix_getElem? hpre ?_
  rw [List.getElem?_take, if_pos (Nat.sub_lt hok.pos Nat.one_pos)]
  exact hok.at_index

/-- What a leader started with it still has. -/
theorem leader_keeps {C : Cluster} {w : World}
    (h : Reachable C.step orderly C.init w) {n : String}
    (hstate : (w.core n).state = .leader) :
    ∃ log, .elected n (w.core n).currentTerm log ∈ w.history
      ∧ log.body <+: (w.core n).log.body := by
  obtain ⟨s, habs⟩ := abstracts_of_reachable h
  obtain ⟨log, he⟩ := habs.code.lead.leader n hstate
  refine ⟨log, he, ?_⟩
  rw [(habs.refines.leader_log habs.spec habs.code hstate).2,
    ← habs.refines.hist.base _ _ _ he]
  exact habs.spec.base_full _

theorem entry_pos {C : Cluster} {w : World}
    (h : Reachable C.step orderly C.init w) {n : String} {entry : LogEntry}
    (he : .replicated n entry ∈ w.history) : 0 < entry.index := by
  obtain ⟨s, -, hinv⟩ := callInv_of_reachable h
  exact (hinv.replicated n entry he).1.pos

theorem history_of_past {C : Cluster} {past : List World} {w w₀ : World}
    (h : Run C.step orderly C.init past w) (hw₀ : w₀ ∈ w :: past) :
    w₀.history ⊆ w.history :=
  h.past_related (R := fun w w' => w.history ⊆ w'.history)
    (fun _ => List.Subset.refl _) List.Subset.trans
    (fun _ _ _ hr _ hstep =>
      (C.move (static_of_reachable hr) hstep).grows.history) hw₀

/-- A leader of a later term has the entry, in any state of the run, also
in one before the call returned. -/
theorem leader_has_entry {C : Cluster} {past : List World} {w w₀ : World}
    (h : Run C.step orderly C.init past w) {n m : String} {entry : LogEntry}
    (he : .replicated n entry ∈ w.history) (hw₀ : w₀ ∈ w :: past)
    (hstate : (w₀.core m).state = .leader)
    (hterm : entry.term < (w₀.core m).currentTerm) :
    (w₀.core m).log.entryAt entry.index = some entry := by
  have hr₀ := h.reachable_of_mem hw₀
  obtain ⟨log, hm, hpre⟩ := leader_keeps hr₀ hstate
  have hget := elected_has_entry h.reachable he hterm
    (history_of_past h hw₀ hm)
  obtain ⟨s, habs⟩ := abstracts_of_reachable hr₀
  rw [(habs.code.log.logs m).positional.entryAt_pos (entry_pos h.reachable he)]
  exact prefix_getElem? hpre hget

/-- The log recorded with an election is a log of the node. -/
theorem elected_positional {C : Cluster} {w : World}
    (h : Reachable C.step orderly C.init w) {n : String} {term : Nat}
    {log : LogStore} (he : .elected n term log ∈ w.history) :
    log.Positional := by
  revert n term log
  refine h.invariant (P := fun w => ∀ {n term log},
    .elected n term log ∈ w.history → log.Positional) (fun he => by cases he) ?_
  intro w a w' hr ih _ hstep n term log he
  obtain ⟨s, habs⟩ := abstracts_of_reachable hr
  rcases (C.move habs.code.static hstep).elected_cases he with
    he | ⟨-, -, -, -, -, rfl, -⟩
  · exact ih he
  · exact (habs.code.log.logs n).positional

/-- An entry for which `Replicate` returned nil is in the log of every
node that wins a later term, when it wins and for as long as it leads. -/
theorem leader_completeness {C : Cluster} {past : List World} {w : World}
    (h : Run C.step asIntended C.init past w) {n : String} {entry : LogEntry}
    (he : .replicated n entry ∈ w.history) :
    (∀ m term log, entry.term < term → .elected m term log ∈ w.history →
      log.entryAt entry.index = some entry) ∧
    ∀ w₀ ∈ w :: past, ∀ m, (w₀.proc m).node.state = .leader →
      entry.term < (w₀.proc m).node.currentTerm →
      (w₀.proc m).node.log.entryAt entry.index = some entry := by
  have h' := h.mono fun _ _ => asIntended.orderly
  constructor
  · intro m term log hterm hm
    rw [(elected_positional h'.reachable hm).entryAt_pos (entry_pos h'.reachable he)]
    exact elected_has_entry h'.reachable he hterm hm
  · intro w₀ hw₀ m hstate hterm
    exact leader_has_entry h' he hw₀ hstate hterm

/-- `a` leads term 1 and `Replicate` returns nil with the help of `b`. -/
def returnRun : List Action :=
  replicateRun ++ [.local "a" (.replicateReply 0 0 0),
    .local "a" (.receiveAck 0 0), .local "a" (.replicateCommit 0),
    .local "a" (.collect 0), .local "a" (.send 0),
    .local "a" (.replicateReturn 0)]

/-- Then `b` wins term 2 with the vote of `c`. -/
def successorRun : List Action :=
  returnRun ++ [.local "b" .load, .local "b" .timeout, .local "b" .load,
    .local "b" .campaign, .deliverVote 3, .local "b" (.voteReply 1 1),
    .local "b" .becomeLeader]

theorem leader_completeness_b :
    ∃ w, Reachable threeNodes.step asIntended threeNodes.init w
      ∧ .replicated "a" ⟨1, 1, [7]⟩ ∈ w.history
      ∧ (w.proc "b").node.state = .leader
      ∧ (w.proc "b").node.currentTerm = 2
      ∧ (w.proc "b").node.log.entryAt 1 = some ⟨1, 1, [7]⟩ := by
  obtain ⟨w, ⟨past, hr⟩, he, hstate, hterm⟩ : ∃ w,
      Reachable threeNodes.step asIntended threeNodes.init w
        ∧ .replicated "a" ⟨1, 1, [7]⟩ ∈ w.history
        ∧ (w.proc "b").node.state = .leader
        ∧ (w.proc "b").node.currentTerm = 2 :=
    Reachable.of_exec_any successorRun (by decide +kernel)
  refine ⟨w, hr.reachable, he, hstate, hterm, ?_⟩
  refine (leader_completeness hr he).2 w (List.mem_cons_self ..) "b" hstate ?_
  rw [hterm]
  decide

/-! ## Restarts -/

/-- In the term of the call itself only the caller can be Leader, with
the log the entry was appended to. -/
theorem own_term_entry {C : Cluster} {w : World}
    (h : Reachable C.step orderly C.init w) {n m : String} {entry : LogEntry}
    (he : .replicated n entry ∈ w.history)
    (hstate : (w.core m).state = .leader)
    (hterm : entry.term = (w.core m).currentTerm) :
    (w.core m).log.entryAt entry.index = some entry := by
  obtain ⟨s, habs, hinv⟩ := callInv_of_reachable h
  obtain ⟨hok, -⟩ := hinv.replicated n entry he
  rw [(habs.code.log.logs m).positional.entryAt_pos hok.pos,
    (habs.refines.leader_log habs.spec habs.code hstate).2, ← hterm]
  exact hok.at_index

/-- With restarts that find a node without a vote and without entries, an
entry that `Replicate` reported is in the log of every later leader of
the call's term or a newer one. -/
theorem durable_across_blank_restarts {C : Cluster} {w : World}
    (h : Reachable C.step orderly C.init w) {n : String} {entry : LogEntry}
    (he : .replicated n entry ∈ w.history) {m : String}
    (hstate : (w.proc m).node.state = .leader)
    (hterm : entry.term ≤ (w.proc m).node.currentTerm) :
    (w.proc m).node.log.entryAt entry.index = some entry := by
  obtain ⟨past, hr⟩ := h
  rcases Nat.lt_or_eq_of_le hterm with hlt | heq
  · exact leader_has_entry hr he (List.mem_cons_self ..) hstate hlt
  · exact own_term_entry hr.reachable he hstate heq

/-- `c` restarts before it has heard of anything, then `a` leads. -/
def blankRestartRun : List Action := .crash "c" :: .restart "c" :: successorRun

theorem durable_across_blank_restarts_b :
    ∃ w, Reachable threeNodes.step orderly threeNodes.init w
      ∧ .restarted "c" ∈ w.history
      ∧ .replicated "a" ⟨1, 1, [7]⟩ ∈ w.history
      ∧ (w.proc "b").node.state = .leader
      ∧ (w.proc "b").node.log.entryAt 1 = some ⟨1, 1, [7]⟩ := by
  obtain ⟨w, hr, hc, he, hstate, hterm⟩ : ∃ w,
      Reachable threeNodes.step orderly threeNodes.init w
        ∧ .restarted "c" ∈ w.history
        ∧ .replicated "a" ⟨1, 1, [7]⟩ ∈ w.history
        ∧ (w.proc "b").node.state = .leader
        ∧ (w.proc "b").node.currentTerm = 2 :=
    Reachable.of_exec_any blankRestartRun (by decide +kernel)
  refine ⟨w, hr, hc, he, hstate, durable_across_blank_restarts hr he hstate ?_⟩
  rw [hterm]
  decide

/-- A crash leaves a majority of the cluster up. -/
def minorityDown (C : Cluster) (w : World) : Action → Prop
  | .crash _ => 2 * (C.members.countP (fun m => (w.proc m).down) + 1)
      < C.members.length
  | _ => True

instance (C : Cluster) (w : World) : (a : Action) →
    Decidable (minorityDown C w a)
  | .crash _ => inferInstanceAs (Decidable (_ < _))
  | .local _ _ => inferInstanceAs (Decidable True)
  | .deliverVote _ => inferInstanceAs (Decidable True)
  | .deliverAppend _ => inferInstanceAs (Decidable True)
  | .restart _ => inferInstanceAs (Decidable True)

/-- `b`, which has voted for `a` and stored its entry, restarts; `c`
campaigns until it reaches term 2 and gets the vote of `b`. -/
def lostEntryRun : List Action :=
  returnRun ++ [.crash "b", .restart "b", .local "c" .load,
    .local "c" .timeout, .local "c" .load, .local "c" .campaign,
    .local "c" .electionTimeout, .local "c" .load, .local "c" .campaign,
    .deliverVote 5, .local "c" (.voteReply 1 1), .local "c" .becomeLeader]

/-- `a` has the vote of `b` for term 1 but not yet run `becomeLeader`. `c`
reaches term 2, wins it with `b` and `Replicate` returns nil there; then
`a`, which has heard nothing, passes `becomeLeader` for term 1. -/
def lateWinnerRun : List Action :=
  [.local "a" .load, .local "a" .timeout, .local "a" .load,
    .local "a" .campaign, .deliverVote 0, .local "a" (.voteReply 0 0),
    .local "c" .load, .local "c" .timeout, .local "c" .load,
    .local "c" .campaign, .local "c" .electionTimeout, .local "c" .load,
    .local "c" .campaign, .deliverVote 5, .local "c" (.voteReply 1 1),
    .local "c" .becomeLeader, .local "c" (.replicate [7]),
    .local "c" (.replicateSend 0 1), .deliverAppend 0,
    .local "c" (.replicateReply 0 1 0), .local "c" (.receiveAck 0 1),
    .local "c" (.replicateCommit 0), .local "c" (.collect 0),
    .local "c" (.send 0), .local "c" (.replicateReturn 0),
    .local "a" .becomeLeader]

/-- `a` leads term 1, appends an entry that nobody gets and spawns its
heartbeats. `b` wins term 2 with `c` and `Replicate` returns nil there. The
heartbeat of `a` to `c` then goes out in term 2 and replaces the entry of
`b`; `c` wins term 3 with `a`. -/
def strayHeartbeatRun : List Action :=
  electRun ++ [.local "a" (.replicate [1]), .local "a" .load,
    .local "a" .spawnHeartbeats, .local "b" .load, .local "b" .timeout,
    .local "b" .load, .local "b" .campaign, .deliverVote 2, .deliverVote 3,
    .local "b" (.voteReply 1 2), .local "b" .becomeLeader,
    .local "b" (.replicate [7]), .local "b" (.replicateSend 0 1),
    .deliverAppend 0, .local "b" (.replicateReply 0 1 0),
    .local "b" (.receiveAck 0 1), .local "b" (.replicateCommit 0),
    .local "b" (.collect 0), .local "b" (.send 0),
    .local "b" (.replicateReturn 0), .local "a" (.heartbeat 1),
    .deliverAppend 1, .local "c" .load, .local "c" .timeout,
    .local "c" .load, .local "c" .campaign, .deliverVote 4,
    .local "c" (.voteReply 0 3), .local "c" .becomeLeader]

/-- Three ways to a leader that lacks an entry `Replicate` has reported:
after a restart of a node that held it; without restarts, by winning an
older term late; and without restarts, after a heartbeat of a node that
no longer led. -/
theorem lost_entry :
    (∃ w, Reachable threeNodes.step
        (fun w a => leaderHeartbeat w a ∧ minorityDown threeNodes w a)
        threeNodes.init w
      ∧ .replicated "a" ⟨1, 1, [7]⟩ ∈ w.history.tail
      ∧ w.history.head? = some (.elected "c" 2 newLogStore)) ∧
    (∃ w, Reachable threeNodes.step asIntended threeNodes.init w
      ∧ .replicated "c" ⟨2, 1, [7]⟩ ∈ w.history.tail
      ∧ w.history.head? = some (.elected "a" 1 newLogStore)) ∧
    ∃ w, Reachable threeNodes.step noRestart threeNodes.init w
      ∧ .replicated "b" ⟨2, 1, [7]⟩ ∈ w.history.tail
      ∧ w.history.head?
        = some (.elected "c" 3 (newLogStore.appendEntry ⟨1, 1, [1]⟩)) :=
  ⟨Reachable.of_exec_any lostEntryRun (by decide +kernel),
    Reachable.of_exec_any lateWinnerRun (by decide +kernel),
    Reachable.of_exec_any strayHeartbeatRun (by decide +kernel)⟩

end RaftStore
