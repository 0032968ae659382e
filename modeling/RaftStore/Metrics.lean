import RaftStore.Refinement

/-!
# What `/metrics` and `leaderID` say

`NodeMetrics` is written in four places of `raft/` and read by
`handleStatus`, `handleMetrics` and by the 503 that a node answers to a
write when it does not lead. Over any run, with crashes and restarts:

* `ElectionsStarted` and `VotesGranted` are exactly the elections and votes
  of the node since its process started (`Census`), `HeartbeatsRecvd` and
  `HeartbeatsSent` are never more than the requests answered and made
  (`metrics_account`).
* `LeaderID` is empty or names a member that has won an election, in a term
  that the node has reached (`leader_hint_has_won`). It may be out of date,
  but it never sends a client to somebody who has not led.
-/

namespace RaftStore

open Runs

/-- `LeaderID`. -/
def Node.leaderID (n : Node) : String := n.metrics.currentLeaderID

/-! ## What is counted -/

def Event.isCampaign (n : String) : Event → Bool
  | .campaigned m _ => m = n
  | _ => false

def Event.isGrant (n : String) : Event → Bool
  | .granted m _ => m = n
  | _ => false

/-- The history since the process of `n` last started. -/
def sinceStart (n : String) (history : List Event) : List Event :=
  history.takeWhile (· ≠ .restarted n)

/-- The answer of a handler that did not find the request stale. -/
def Net.answersInTerm (net : Net) (n : String) (answer : Nat × AppendEntriesReply) : Bool :=
  match net.appendCalls[answer.1]? with
  | some c => c.dst = n && c.args.term = answer.2.term
  | none => false

def Heartbeat.isAwaiting : Heartbeat → Bool
  | .awaiting _ _ => true
  | _ => false

/-- Heartbeat goroutines that wait for an answer. -/
def RunLoc.awaiting : RunLoc → Nat
  | .heartbeats ws => ws.countP Heartbeat.isAwaiting
  | _ => 0

theorem countP_isAwaiting_set {ws : List Heartbeat} {k : Nat} {x : Heartbeat}
    (h : ws[k]? = some x) (y : Heartbeat) :
    (ws.set k y).countP Heartbeat.isAwaiting + x.isAwaiting.toNat
      = ws.countP Heartbeat.isAwaiting + y.isAwaiting.toNat := by
  obtain ⟨hlt, rfl⟩ := List.getElem?_eq_some_iff.mp h
  have hpos : ws[k].isAwaiting = true → 0 < ws.countP Heartbeat.isAwaiting := fun hx =>
    List.countP_pos_iff.mpr ⟨_, List.getElem_mem hlt, hx⟩
  rw [List.countP_set hlt]
  cases hx : ws[k].isAwaiting with
  | false => cases y.isAwaiting <;> simp
  | true =>
      have := hpos hx
      cases y.isAwaiting <;> simp <;> omega

/-! ## One step of a process -/

@[simp] theorem Node.becomeFollower_metrics (n : Node) (term : Nat) :
    (n.becomeFollower term).metrics = n.metrics := by
  unfold Node.becomeFollower
  split <;> rfl

@[simp] theorem Node.lowerNext_metrics (n : Node) (peer : String) :
    (n.lowerNext peer).metrics = n.metrics := by
  unfold Node.lowerNext
  split <;> rfl

@[simp] theorem Node.commitEntry_metrics (n : Node) (index : Nat) :
    (n.commitEntry index).metrics = n.metrics := by
  unfold Node.commitEntry
  split <;> rfl

@[simp] theorem Node.heartbeatSuccess_metrics (n : Node) (peer : String) (newMatch : Nat) :
    (n.heartbeatSuccess peer newMatch).metrics = n.metrics := by
  simp only [Node.heartbeatSuccess, Node.advanceCommitIndex]
  split <;> rfl

theorem Proc.digestReplicate_metrics (p : Proc) (r : Nat) (c : ReplicateCall) (k : Nat)
    (peer : String) (reply : AppendEntriesReply) :
    (p.digestReplicate r c k peer reply).node.metrics = p.node.metrics := by
  unfold Proc.digestReplicate
  split
  · simp [Proc.setWorker]
  · split
    · rfl
    · split
      · simp
      · rfl

/-- A reply counts, whatever it says. -/
theorem Proc.digestHeartbeat_metrics (p : Proc) (ws : List Heartbeat) (k : Nat) (peer : String)
    (args : AppendEntriesArgs) (reply : AppendEntriesReply) :
    (p.digestHeartbeat ws k peer args reply).node.metrics = p.node.countHeartbeat.metrics
      ∧ ∃ x, (p.digestHeartbeat ws k peer args reply).run = .heartbeats (ws.set k x)
        ∧ x.isAwaiting = false := by
  unfold Proc.digestHeartbeat
  dsimp only
  split
  · exact ⟨by simp, .done, by simp, rfl⟩
  · split
    · exact ⟨rfl, .done, rfl, rfl⟩
    · split
      · exact ⟨by simp [Proc.startApply], _, rfl, rfl⟩
      · exact ⟨by simp, .done, rfl, rfl⟩

structure Proc.Counts (p p' : Proc) (out : Output) : Prop where
  elections : p'.node.metrics.electionsStarted
    = p.node.metrics.electionsStarted + out.events.countP (Event.isCampaign p.node.id)
  votes : p'.node.metrics.votesGranted = p.node.metrics.votesGranted
  received : p'.node.metrics.heartbeatsRecvd = p.node.metrics.heartbeatsRecvd
  sent : p'.node.metrics.heartbeatsSent + p'.run.awaiting
    ≤ p.node.metrics.heartbeatsSent + p.run.awaiting + out.appendCalls.length
  /-- only the node's own elections and calls are recorded -/
  events : ∀ e ∈ out.events, ∀ n, e ≠ .restarted n ∧ e.isGrant n = false
    ∧ (e.isCampaign n = true → n = p.node.id)
  calls : ∀ c ∈ out.appendCalls, c.src = p.node.id

section Counts

variable {p p' : Proc}

theorem Proc.Counts.quiet {out : Output} (hmetrics : p'.node.metrics = p.node.metrics)
    (hrun : p'.run.awaiting ≤ p.run.awaiting + out.appendCalls.length)
    (hevents : ∀ e ∈ out.events, ∃ n x, e = .replicated n x)
    (hcalls : ∀ c ∈ out.appendCalls, c.src = p.node.id) : p.Counts p' out where
  elections := by
    rw [hmetrics, List.countP_eq_zero.mpr, Nat.add_zero]
    intro e he
    obtain ⟨n, x, rfl⟩ := hevents e he
    simp [Event.isCampaign]
  votes := by rw [hmetrics]
  received := by rw [hmetrics]
  sent := by
    rw [hmetrics]
    omega
  events e he n := by
    obtain ⟨m, x, rfl⟩ := hevents e he
    simp [Event.isGrant, Event.isCampaign]
  calls := hcalls

theorem Proc.Counts.silent (hmetrics : p'.node.metrics = p.node.metrics)
    (hrun : p'.run.awaiting ≤ p.run.awaiting) : p.Counts p' {} :=
  .quiet hmetrics (Nat.le_trans hrun (Nat.le_add_right ..)) (by simp) (by simp)

theorem Proc.Counts.becomeLeader (term : Nat) : p.Counts
    { p with node := p.node.becomeLeader term, run := .top }
    { events := if p.node.wins term then [.elected p.node.id term p.node.log] else [] } := by
  unfold Node.becomeLeader
  cases p.node.wins term with
  | false => exact .silent rfl (Nat.zero_le _)
  | true =>
      refine ⟨rfl, rfl, rfl, Nat.le_add_right _ _, ?_, (by simp)⟩
      intro e he n
      cases List.mem_singleton.mp he
      simp [Event.isGrant, Event.isCampaign]

theorem countVote_awaiting (p : Proc) (c : Candidacy) (k : Nat) (granted : Bool) (term : Nat) :
    (p.countVote c k granted term).run.awaiting ≤ 0 := by
  unfold Proc.countVote
  dsimp only
  split
  · exact Nat.le_refl _
  · split
    · exact Nat.le_refl _
    · split <;> exact Nat.le_refl _

theorem awaiting_set_le {ws : List Heartbeat} {k : Nat} {x y : Heartbeat}
    (hrun : p.run = .heartbeats ws) (hk : ws[k]? = some x) (hy : y.isAwaiting = false) :
    (RunLoc.heartbeats (ws.set k y)).awaiting ≤ p.run.awaiting := by
  have hset := countP_isAwaiting_set hk y
  rw [hy, Bool.toNat_false] at hset
  rw [hrun]
  simp only [RunLoc.awaiting]
  omega

theorem Proc.Move.counts {net : Net} {l : Local} {out : Output} (h : p.Move net l p' out) :
    p.Counts p' out := by
  cases h with
  | load | tick =>
      refine .silent rfl ?_
      dsimp only
      split <;> exact Nat.zero_le _
  | stepDown => exact .silent (by simp) (Nat.zero_le _)
  | campaign =>
      refine ⟨?_, rfl, rfl, ?_, ?_, (by simp)⟩
      · simp [Event.isCampaign, Node.startElection]
      · dsimp only [Node.startElection]
        split <;> simp [RunLoc.awaiting]
      · intro e he n
        cases List.mem_singleton.mp he
        simp [Event.isGrant, Event.isCampaign, eq_comm]
  | voteReply | voteError =>
      exact .silent rfl (Nat.le_trans (countVote_awaiting ..) (Nat.zero_le _))
  | becomeLeader => exact .becomeLeader _
  | spawnHeartbeats =>
      refine .silent rfl ?_
      simp only [RunLoc.awaiting]
      rw [List.countP_eq_zero.mpr (by simp [Heartbeat.isAwaiting])]
      exact Nat.zero_le _
  | @heartbeat _ _ _ _ args hrun hws _ _ hws' =>
      have hset := countP_isAwaiting_set hws (.awaiting net.appendCalls.length args)
      refine .quiet rfl ?_ (by simp) (by simp)
      simp only [hrun, hws', RunLoc.awaiting]
      exact Nat.le_of_eq hset
  | heartbeatError hrun hws => exact .silent rfl (awaiting_set_le hrun hws rfl)
  | heartbeatReply hrun hws =>
      obtain ⟨hmetrics, x, hrun', hx⟩ := Proc.digestHeartbeat_metrics ..
      have hset := countP_isAwaiting_set hws x
      refine ⟨by rw [hmetrics]; rfl, by rw [hmetrics]; rfl, by rw [hmetrics]; rfl, ?_, (by simp),
        (by simp)⟩
      rw [hmetrics, hrun', hrun]
      rw [hx, Bool.toNat_false, Heartbeat.isAwaiting, Bool.toNat_true] at hset
      simp only [RunLoc.awaiting, Node.countHeartbeat, List.length_nil]
      omega
  | heartbeatApplied hrun hws => exact .silent rfl (awaiting_set_le hrun hws rfl)
  | replicateReply =>
      exact .silent (Proc.digestReplicate_metrics ..)
        (Nat.le_of_eq (congrArg RunLoc.awaiting (Proc.digestReplicate_run ..)))
  | replicateSend => exact .quiet rfl (Nat.le_succ _) (by simp) (by simp)
  | replicateCommit => exact .silent (by simp [Proc.startApply]) (Nat.le_refl _)
  | replicateReturn => exact .quiet rfl (Nat.le_refl _) (by simp) (by simp)
  | timeout | recvStepDown | electionTimeout | joinHeartbeats | quit =>
      exact .silent rfl (Nat.zero_le _)
  | replicate | replicateStale | replicateError | receiveAck | giveUp | collect | send | applyLoop
    | stop | abandon =>
      exact .silent rfl (Nat.le_refl _)

end Counts

/-! ## The handlers -/

theorem Node.observeTerm_metrics (n : Node) (term : Nat) :
    (n.observeTerm term).metrics = n.metrics := by
  unfold Node.observeTerm
  split <;> simp

theorem Node.VoteOutcome.metrics {n : Node} {args : RequestVoteArgs}
    {r : Node × RequestVoteReply} (h : n.VoteOutcome args r) :
    r.1.metrics = { n.metrics with
      votesGranted := n.metrics.votesGranted + r.2.voteGranted.toNat } := by
  cases h with
  | stale => rfl
  | denied _ hn' => rw [hn', Node.observeTerm_metrics]; rfl
  | granted _ hn' => rw [hn', Node.observeTerm_metrics]; rfl

theorem Node.VoteOutcome.leaderID {n : Node} {args : RequestVoteArgs}
    {r : Node × RequestVoteReply} (h : n.VoteOutcome args r) : r.1.leaderID = n.leaderID := by
  rw [Node.leaderID, h.metrics]
  rfl

/-- A request is stale, and the answer says so by its term, or it counts. -/
theorem Node.AppendOutcome.metrics {n : Node} {args : AppendEntriesArgs}
    {r : Node × AppendEntriesReply × Bool} (h : n.AppendOutcome args r) :
    args.term ≠ r.2.1.term ∧ r.1 = n
      ∨ args.term = r.2.1.term ∧ r.1.currentTerm = args.term
        ∧ r.1.metrics = { n.metrics with
          heartbeatsRecvd := n.metrics.heartbeatsRecvd + 1
          currentLeaderID := args.leaderID } := by
  have hobs : (n.observeLeader args).metrics = { n.metrics with
      heartbeatsRecvd := n.metrics.heartbeatsRecvd + 1
      currentLeaderID := args.leaderID } := by
    simp [Node.observeLeader, Node.observeTerm_metrics]
  cases h with
  | stale hlt => exact .inl ⟨Nat.ne_of_lt hlt, rfl⟩
  | rejected hle hn' =>
      have hterm := (n.observeLeader_spec hle).1
      rw [hn']
      exact .inr ⟨hterm.symm, hterm, hobs⟩
  | accepted hle hn' =>
      have hterm := (n.observeLeader_spec hle).1
      rw [hn']
      exact .inr ⟨hterm.symm, hterm, hobs⟩

/-! ## Whole runs -/

theorem sinceStart_append {n : String} {evs : List Event} (h : ∀ e ∈ evs, e ≠ .restarted n)
    (history : List Event) : sinceStart n (evs ++ history) = evs ++ sinceStart n history :=
  List.takeWhile_append_of_pos fun e he => by simpa using h e he

structure Census (w : World) (n : String) : Prop where
  elections : (w.proc n).node.metrics.electionsStarted
    = (sinceStart n w.history).countP (Event.isCampaign n)
  votes : (w.proc n).node.metrics.votesGranted
    = (sinceStart n w.history).countP (Event.isGrant n)
  received : (w.proc n).node.metrics.heartbeatsRecvd
    ≤ w.net.appendAnswers.countP (w.net.answersInTerm n)
  all : .restarted n ∉ w.history → (w.proc n).node.metrics.heartbeatsRecvd
    = w.net.appendAnswers.countP (w.net.answersInTerm n)
  sent : (w.proc n).node.metrics.heartbeatsSent + (w.proc n).run.awaiting
    ≤ w.net.appendCalls.countP (·.src = n)

structure CensusInv (w : World) : Prop where
  census : ∀ n, Census w n
  known : ∀ a ∈ w.net.appendAnswers, a.1 < w.net.appendCalls.length

theorem censusInv_init (C : Cluster) : CensusInv C.init where
  census _ := ⟨rfl, rfl, Nat.le_refl _, fun _ => rfl, Nat.le_refl _⟩
  known := by simp [Cluster.init]

section Step

variable {C : Cluster} {w v : World} {n : String}

theorem Census.after (h : Census w n) {evs : List Event} {d : Nat}
    (hhist : v.history = evs ++ w.history) (hevs : ∀ e ∈ evs, e ≠ .restarted n)
    (helections : (v.proc n).node.metrics.electionsStarted
      = (w.proc n).node.metrics.electionsStarted + evs.countP (Event.isCampaign n))
    (hvotes : (v.proc n).node.metrics.votesGranted
      = (w.proc n).node.metrics.votesGranted + evs.countP (Event.isGrant n))
    (hreceived : (v.proc n).node.metrics.heartbeatsRecvd
      = (w.proc n).node.metrics.heartbeatsRecvd + d)
    (hanswers : v.net.appendAnswers.countP (v.net.answersInTerm n)
      = w.net.appendAnswers.countP (w.net.answersInTerm n) + d)
    (hsent : (v.proc n).node.metrics.heartbeatsSent + (v.proc n).run.awaiting
        + w.net.appendCalls.countP (·.src = n)
      ≤ (w.proc n).node.metrics.heartbeatsSent + (w.proc n).run.awaiting
        + v.net.appendCalls.countP (·.src = n)) : Census v n where
  elections := by
    rw [hhist, sinceStart_append hevs, List.countP_append, helections, h.elections, Nat.add_comm]
  votes := by
    rw [hhist, sinceStart_append hevs, List.countP_append, hvotes, h.votes, Nat.add_comm]
  received := by
    have := h.received
    omega
  all hno := by
    have hno' : .restarted n ∉ w.history := fun hmem =>
      hno (hhist ▸ List.mem_append_right _ hmem)
    rw [hreceived, hanswers, h.all hno']
  sent := by
    have := h.sent
    omega

/-- Nothing that the counters of `n` are about has happened. -/
theorem Census.aside (h : Census w n) {evs : List Event} {calls : List AppendCall}
    (hhist : v.history = evs ++ w.history)
    (hevs : ∀ e ∈ evs, e ≠ .restarted n ∧ e.isGrant n = false ∧ e.isCampaign n = false)
    (hmetrics : (v.proc n).node.metrics = (w.proc n).node.metrics)
    (hrun : (v.proc n).run = (w.proc n).run)
    (hanswers : v.net.appendAnswers.countP (v.net.answersInTerm n)
      = w.net.appendAnswers.countP (w.net.answersInTerm n))
    (hcalls : v.net.appendCalls = w.net.appendCalls ++ calls) : Census v n := by
  refine h.after (d := 0) hhist (fun e he => (hevs e he).1) ?_ ?_ ?_ hanswers ?_
  · rw [hmetrics, List.countP_eq_zero.mpr fun e he => by simp [(hevs e he).2.2], Nat.add_zero]
  · rw [hmetrics, List.countP_eq_zero.mpr fun e he => by simp [(hevs e he).2.1], Nat.add_zero]
  · rw [hmetrics, Nat.add_zero]
  · rw [hmetrics, hrun, hcalls, List.countP_append]
    omega

/-- Requests that are made later change no count of answers. -/
theorem countP_answers (hinv : CensusInv w) (n : String) (net : Net) {calls : List AppendCall}
    (hanswers : net.appendAnswers = w.net.appendAnswers)
    (hcalls : net.appendCalls = w.net.appendCalls ++ calls) :
    net.appendAnswers.countP (net.answersInTerm n)
      = w.net.appendAnswers.countP (w.net.answersInTerm n) := by
  rw [hanswers]
  refine List.countP_congr fun a ha => ?_
  rw [Net.answersInTerm, Net.answersInTerm, hcalls,
    List.getElem?_append_left (hinv.known a ha)]

theorem CensusInv.local {m : String} {l : Local} {p : Proc} {out : Output} (hinv : CensusInv w)
    (hid : (w.proc m).node.id = m) (hstep : (w.proc m).step w.net l = some (p, out)) :
    CensusInv (w.commit m p out) := by
  obtain ⟨helections, hvotes, hreceived, hsent, hevents, hcalls⟩ := (Proc.move hstep).counts
  rw [hid] at helections hevents hcalls
  have hanswers := fun n => countP_answers hinv n (w.commit m p out).net rfl rfl
  refine ⟨fun n => ?_, fun a ha => ?_⟩
  · by_cases hn : n = m
    · subst hn
      have hproc : (w.commit n p out).proc n = p := by simp [World.commit]
      refine (hinv.census n).after (d := 0) rfl (fun e he => (hevents e he n).1)
        ?_ ?_ ?_ (hanswers n) ?_ <;> rw [hproc]
      · exact helections
      · rw [hvotes, List.countP_eq_zero.mpr fun e he => by simp [(hevents e he n).2.1],
          Nat.add_zero]
      · exact hreceived
      · have hall : out.appendCalls.countP (·.src = n) = out.appendCalls.length :=
          List.countP_eq_length.mpr fun c hc => by simp [hcalls c hc]
        simp only [World.commit, List.countP_append, hall]
        omega
    · have hproc : (w.commit m p out).proc n = w.proc n := by simp [World.commit, hn]
      refine (hinv.census n).aside rfl (fun e he => ?_) (by rw [hproc]) (by rw [hproc])
        (hanswers n) rfl
      obtain ⟨hrestart, hgrant, hcampaign⟩ := hevents e he n
      exact ⟨hrestart, hgrant, Bool.eq_false_iff.mpr fun htrue => hn (hcampaign htrue)⟩
  · exact Nat.lt_of_lt_of_le (hinv.known a ha) (by simp [World.commit])

theorem CensusInv.deliverVote {call : Nat} {c : VoteCall} (hinv : CensusInv w) :
    CensusInv (w.answerVote call c) := by
  refine ⟨fun n => ?_, hinv.known⟩
  have hout := (w.proc c.dst).node.handleRequestVote_outcome c.args
  have hmetrics := hout.metrics
  set r := (w.proc c.dst).node.handleRequestVote c.args with hr
  have hhist : (w.answerVote call c).history
      = (if r.2.voteGranted then [.granted c.dst c.args] else []) ++ w.history := by
    simp only [World.answerVote, ← hr]
    cases r.2.voteGranted <;> rfl
  by_cases hn : n = c.dst
  · subst hn
    have hproc : (w.answerVote call c).proc c.dst = { w.proc c.dst with node := r.1 } := by
      simp [World.answerVote, hr]
    refine (hinv.census c.dst).after (d := 0) hhist ?_ ?_ ?_ ?_ rfl ?_
    · cases r.2.voteGranted <;> simp
    · rw [hproc, hmetrics]
      cases r.2.voteGranted <;> simp [Event.isCampaign]
    · rw [hproc, hmetrics]
      cases r.2.voteGranted <;> simp [Event.isGrant]
    · rw [hproc, hmetrics]
      rfl
    · rw [hproc, hmetrics]
      exact Nat.le_refl _
  · have hproc : (w.answerVote call c).proc n = w.proc n := by simp [World.answerVote, hn]
    refine (hinv.census n).aside hhist ?_ (by rw [hproc]) (by rw [hproc]) rfl
      (List.append_nil _).symm
    intro e he
    split at he
    · cases List.mem_singleton.mp he
      simp [Event.isGrant, Event.isCampaign, Ne.symm hn]
    · cases he

theorem CensusInv.deliverAppend {call : Nat} {c : AppendCall} (hinv : CensusInv w)
    (hcall : w.net.appendCalls[call]? = some c) : CensusInv (w.answerAppend call c) := by
  have hout := (w.proc c.dst).node.handleAppendEntries_outcome c.args
  have hmetrics := hout.metrics
  set r := (w.proc c.dst).node.handleAppendEntries c.args with hr
  have hnew : ∀ n, (w.answerAppend call c).net.appendAnswers.countP
      ((w.answerAppend call c).net.answersInTerm n)
      = w.net.appendAnswers.countP (w.net.answersInTerm n)
        + (decide (c.dst = n) && decide (c.args.term = r.2.1.term)).toNat := by
    intro n
    have hthis : w.net.answersInTerm n (call, r.2.1)
        = (decide (c.dst = n) && decide (c.args.term = r.2.1.term)) := by
      simp [Net.answersInTerm, hcall]
    show (w.net.appendAnswers ++ [(call, r.2.1)]).countP (w.net.answersInTerm n) = _
    rw [List.countP_append, List.countP_singleton, hthis]
    cases (decide (c.dst = n) && decide (c.args.term = r.2.1.term)) <;> rfl
  refine ⟨fun n => ?_, ?_⟩
  · by_cases hn : n = c.dst
    · subst hn
      have hproc : ((w.answerAppend call c).proc c.dst).node = r.1
          ∧ ((w.answerAppend call c).proc c.dst).run = (w.proc c.dst).run := by
        simp only [World.answerAppend, ← hr, Function.update_self]
        split <;> exact ⟨rfl, rfl⟩
      have hcounts : r.1.metrics.electionsStarted
            = (w.proc c.dst).node.metrics.electionsStarted
          ∧ r.1.metrics.votesGranted = (w.proc c.dst).node.metrics.votesGranted
          ∧ r.1.metrics.heartbeatsSent = (w.proc c.dst).node.metrics.heartbeatsSent
          ∧ r.1.metrics.heartbeatsRecvd = (w.proc c.dst).node.metrics.heartbeatsRecvd
            + (decide (c.dst = c.dst) && decide (c.args.term = r.2.1.term)).toNat := by
        rcases hmetrics with ⟨hstale, hsame⟩ | ⟨hterm, -, hm⟩
        · simp [hstale, hsame]
        · simp [hterm, hm]
      obtain ⟨helections, hvotes, hsent, hreceived⟩ := hcounts
      refine (hinv.census c.dst).after (List.nil_append _).symm (by simp) ?_ ?_ ?_
        (hnew c.dst) ?_ <;> rw [hproc.1]
      · exact helections
      · exact hvotes
      · exact hreceived
      · rw [hproc.2, hsent]
        exact Nat.le_refl _
    · have hproc : (w.answerAppend call c).proc n = w.proc n := by simp [World.answerAppend, hn]
      refine (hinv.census n).aside (List.nil_append _).symm (by simp) (by rw [hproc])
        (by rw [hproc]) ?_ (List.append_nil _).symm
      rw [hnew n, decide_eq_false (Ne.symm hn)]
      rfl
  · intro a ha
    rcases List.mem_append.mp ha with hold | hlast
    · exact hinv.known a hold
    · cases List.mem_singleton.mp hlast
      exact (List.getElem?_eq_some_iff.mp hcall).1

theorem CensusInv.restart {m : String} (hinv : CensusInv w) : CensusInv (w.restart C m) := by
  refine ⟨fun n => ?_, hinv.known⟩
  by_cases hn : n = m
  · subst hn
    have hproc : (w.restart C n).proc n = newProc n (C.peers n) (C.applyCh n) := by
      simp [World.restart]
    have hstart : sinceStart n (w.restart C n).history = [] := by
      simp [World.restart, sinceStart]
    refine ⟨?_, ?_, ?_, ?_, ?_⟩
    · rw [hproc, hstart]
      rfl
    · rw [hproc, hstart]
      rfl
    · rw [hproc]
      exact Nat.zero_le _
    · exact fun hno => absurd (List.mem_cons_self ..) hno
    · rw [hproc]
      exact Nat.zero_le _
  · have hproc : (w.restart C m).proc n = w.proc n := by simp [World.restart, hn]
    have hhist : (w.restart C m).history = [.restarted m] ++ w.history := rfl
    refine (hinv.census n).aside hhist ?_ (by rw [hproc]) (by rw [hproc]) rfl
      (List.append_nil _).symm
    intro e he
    cases List.mem_singleton.mp he
    simp [Event.isGrant, Event.isCampaign, Ne.symm hn]

theorem CensusInv.step {a : Action} (hinv : CensusInv w) (hstatic : Static C w)
    (hstep : C.step w a = some v) : CensusInv v := by
  cases C.raw_move hstep with
  | «local» _ hlocal => exact hinv.local (hstatic.id _) hlocal
  | deliverVote => exact hinv.deliverVote
  | deliverAppend hcall => exact hinv.deliverAppend hcall
  | @crash m =>
      refine ⟨fun n => ?_, hinv.known⟩
      have hproc : ((w.setProc m { w.proc m with down := true }).proc n).node = (w.proc n).node
          ∧ ((w.setProc m { w.proc m with down := true }).proc n).run = (w.proc n).run := by
        by_cases hn : n = m
        · subst hn
          simp [World.setProc]
        · simp [World.setProc, hn]
      exact (hinv.census n).aside (List.nil_append _).symm (by simp) (by rw [hproc.1]) hproc.2 rfl
        (List.append_nil _).symm
  | restart => exact hinv.restart

end Step

theorem censusInv_of_reachable {C : Cluster} {ok : World → Action → Prop} {w : World}
    (h : Reachable C.step ok C.init w) : CensusInv w :=
  h.invariant (censusInv_init C) fun _ _ _ hr hinv _ hstep =>
    hinv.step (static_of_reachable hr) hstep

/-- What `/metrics` shows, after any run. -/
theorem metrics_account {C : Cluster} {w : World} (h : Reachable C.step anyStep C.init w)
    (n : String) :
    (w.proc n).node.metrics.electionsStarted
        = (sinceStart n w.history).countP (Event.isCampaign n)
      ∧ (w.proc n).node.metrics.votesGranted
        = (sinceStart n w.history).countP (Event.isGrant n)
      ∧ (w.proc n).node.metrics.heartbeatsRecvd
        ≤ w.net.appendAnswers.countP (w.net.answersInTerm n)
      ∧ (.restarted n ∉ w.history → (w.proc n).node.metrics.heartbeatsRecvd
        = w.net.appendAnswers.countP (w.net.answersInTerm n))
      ∧ (w.proc n).node.metrics.heartbeatsSent ≤ w.net.appendCalls.countP (·.src = n) := by
  obtain ⟨helections, hvotes, hreceived, hall, hsent⟩ := (censusInv_of_reachable h).census n
  exact ⟨helections, hvotes, hreceived, hall, Nat.le_trans (Nat.le_add_right ..) hsent⟩

/-- `b` has voted for `a` and has heard from it, in a run in which `c` has
started again. -/
theorem metrics_account_b :
    ∃ w, Reachable threeNodes.step anyStep threeNodes.init w ∧ .restarted "c" ∈ w.history
      ∧ (w.proc "b").node.metrics = ⟨0, 1, 0, 1, "a"⟩
      ∧ (sinceStart "b" w.history).countP (Event.isGrant "b") = 1
      ∧ w.net.appendAnswers.countP (w.net.answersInTerm "b") = 1 := by
  obtain ⟨w, hr, hrestart, hmetrics, hno⟩ : ∃ w,
      Reachable threeNodes.step anyStep threeNodes.init w ∧ .restarted "c" ∈ w.history
      ∧ (w.proc "b").node.metrics = ⟨0, 1, 0, 1, "a"⟩ ∧ .restarted "b" ∉ w.history :=
    Reachable.of_exec_any (replicateRun ++ [.crash "c", .restart "c"]) (by decide +kernel)
  obtain ⟨-, hvotes, -, hall, -⟩ := metrics_account hr "b"
  have hreceived := hall hno
  rw [hmetrics] at hvotes hreceived
  exact ⟨w, hr, hrestart, hmetrics, hvotes.symm, hreceived.symm⟩

/-! ## The leader hint -/

/-- `id` has won an election, in a term up to `term`. -/
def HasWon (history : List Event) (id : String) (term : Nat) : Prop :=
  ∃ t log, t ≤ term ∧ .elected id t log ∈ history

theorem HasWon.mono {history history' : List Event} {id : String} {term term' : Nat}
    (h : HasWon history id term) (hsub : history ⊆ history') (hterm : term ≤ term') :
    HasWon history' id term' := by
  obtain ⟨t, log, hle, hmem⟩ := h
  exact ⟨t, log, Nat.le_trans hle hterm, hsub hmem⟩

def RunLoc.leads : RunLoc → Bool
  | .loopLeader => true
  | .sendHeartbeats => true
  | .heartbeats _ => true
  | _ => false

/-- The node leads, or `run` has not noticed yet that it does not any more. -/
def Proc.leads (p : Proc) : Prop := p.node.state = .leader ∨ p.run.leads = true

/-- What a step has to do with leading. -/
structure Proc.Heads (p p' : Proc) (out : Output) : Prop where
  hint : p'.node.leaderID = p.node.leaderID
    ∨ p'.node.leaderID = p.node.id ∧ HasWon out.events p.node.id p.node.currentTerm
  leads : p'.leads → p.leads ∨ HasWon out.events p.node.id p.node.currentTerm
  calls : ∀ c ∈ out.appendCalls, c.args.leaderID = p.node.id
    ∧ c.args.term = p.node.currentTerm ∧ p.leads

section Heads

variable {p p' : Proc} {out : Output}

theorem Proc.Heads.quiet (hhint : p'.node.leaderID = p.node.leaderID)
    (hleads : p'.leads → p.leads) (hcalls : out.appendCalls = []) : p.Heads p' out where
  hint := .inl hhint
  leads := fun h => .inl (hleads h)
  calls := by
    rw [hcalls]
    simp

/-- `run` goes where it does not lead. -/
theorem Proc.leads_of_state (hrun : p'.run.leads = false)
    (hstate : p'.node.state = .leader → p.node.state = .leader) : p'.leads → p.leads := by
  rintro (hs | hr)
  · exact .inl (hstate hs)
  · rw [hrun] at hr
    cases hr

theorem Proc.leads_of_heartbeats {ws : List Heartbeat} (hrun : p.run = .heartbeats ws) :
    p.leads := .inr (by rw [hrun]; rfl)

theorem countVote_leads (p : Proc) (c : Candidacy) (k : Nat) (granted : Bool) (term : Nat) :
    (p.countVote c k granted term).run.leads = false := by
  unfold Proc.countVote
  dsimp only
  split
  · rfl
  · split
    · rfl
    · split <;> rfl

theorem Proc.Heads.becomeLeader (term : Nat) : p.Heads
    { p with node := p.node.becomeLeader term, run := .top }
    { events := if p.node.wins term then [.elected p.node.id term p.node.log] else [] } := by
  unfold Node.becomeLeader
  cases hwins : p.node.wins term with
  | false => exact .quiet rfl (Proc.leads_of_state rfl id) rfl
  | true =>
      have hterm : p.node.currentTerm = term := by
        simp only [Node.wins, Bool.and_eq_true, decide_eq_true_eq] at hwins
        exact hwins.1
      have hwon : HasWon [.elected p.node.id term p.node.log] p.node.id p.node.currentTerm :=
        ⟨term, p.node.log, Nat.le_of_eq hterm.symm, List.mem_singleton_self _⟩
      exact ⟨.inr ⟨rfl, hwon⟩, fun _ => .inr hwon, (by simp)⟩

theorem Proc.Move.heads {net : Net} {l : Local} (h : p.Move net l p' out) : p.Heads p' out := by
  have hsame : p'.node.state = p.node.state → p'.run = p.run → p'.leads → p.leads := by
    intro hstate hrun
    rw [Proc.leads, hstate, hrun]
    exact id
  cases h with
  | load =>
      refine .quiet rfl ?_ rfl
      rintro (hs | hr)
      · exact .inl hs
      · cases hstate : p.node.state <;> simp [hstate, RunLoc.leads] at hr
        exact .inl hstate
  | tick =>
      refine .quiet rfl ?_ rfl
      rintro (hs | hr)
      · exact .inl hs
      · by_cases hstate : p.node.state = .leader
        · exact .inl hstate
        · simp [hstate, RunLoc.leads] at hr
  | timeout => exact .quiet rfl (Proc.leads_of_state rfl (by simp [Node.electionTimeout])) rfl
  | stepDown =>
      exact .quiet (by simp [Node.leaderID]) (Proc.leads_of_state rfl (by simp)) rfl
  | campaign =>
      refine .quiet rfl (Proc.leads_of_state ?_ id) rfl
      dsimp only
      split <;> rfl
  | voteReply | voteError => exact .quiet rfl (Proc.leads_of_state (countVote_leads ..) id) rfl
  | electionTimeout | recvStepDown | quit => exact .quiet rfl (Proc.leads_of_state rfl id) rfl
  | becomeLeader => exact .becomeLeader _
  | spawnHeartbeats hrun => exact .quiet rfl (fun _ => .inr (by rw [hrun]; rfl)) rfl
  | heartbeat hrun _ _ hargs =>
      have hleads := Proc.leads_of_heartbeats hrun
      refine ⟨.inl rfl, fun _ => .inl hleads, fun c hc => ?_⟩
      cases List.mem_singleton.mp hc
      refine ⟨?_, ?_, hleads⟩ <;> simp only [hargs, Node.heartbeatArgs] <;> split <;> rfl
  | heartbeatReply hrun =>
      refine .quiet ?_ (fun _ => Proc.leads_of_heartbeats hrun) rfl
      rw [Node.leaderID, (Proc.digestHeartbeat_metrics ..).1]
      rfl
  | heartbeatError hrun | heartbeatApplied hrun | joinHeartbeats hrun =>
      exact .quiet rfl (fun _ => Proc.leads_of_heartbeats hrun) rfl
  | replicateSend _ _ _ hterm hstate hargs =>
      refine ⟨.inl rfl, fun _ => .inl (.inl hstate), fun c hc => ?_⟩
      cases List.mem_singleton.mp hc
      rw [hargs]
      exact ⟨rfl, hterm.symm, .inl hstate⟩
  | replicateReply =>
      refine .quiet ?_ (hsame ?_ ?_) rfl
      · rw [Node.leaderID, Proc.digestReplicate_metrics]
        rfl
      · exact congrArg Core.state (Proc.digestReplicate_core ..)
      · exact Proc.digestReplicate_run ..
  | replicateCommit =>
      refine .quiet (by simp [Proc.startApply, Node.leaderID]) (hsame ?_ rfl) rfl
      exact congrArg Core.state (Node.commitEntry_core ..)
  | replicate | replicateStale | replicateError | receiveAck | giveUp | replicateReturn | collect
    | send | applyLoop | stop | abandon =>
      exact .quiet rfl (hsame rfl rfl) rfl

end Heads

structure HintInv (w : World) : Prop where
  hint : ∀ n, (w.proc n).node.leaderID = ""
    ∨ HasWon w.history (w.proc n).node.leaderID (w.proc n).node.currentTerm
  leads : ∀ n, (w.proc n).leads → HasWon w.history n (w.proc n).node.currentTerm
  calls : ∀ c ∈ w.net.appendCalls, HasWon w.history c.args.leaderID c.args.term

theorem hintInv_init (C : Cluster) : HintInv C.init where
  hint _ := .inl rfl
  leads _ h := by rcases h with hs | hr <;> contradiction
  calls := by simp [Cluster.init]

theorem Node.VoteOutcome.state_leader {n : Node} {args : RequestVoteArgs}
    {r : Node × RequestVoteReply} (h : n.VoteOutcome args r) (hs : r.1.state = .leader) :
    n.state = .leader := by
  have hobs : ∀ {term : Nat}, (n.observeTerm term).state = .leader → n.state = .leader := by
    intro term
    unfold Node.observeTerm
    split
    · simp
    · exact fun hstate => hstate
  cases h with
  | stale => exact hs
  | denied _ hn' => exact hobs (hn' ▸ hs)
  | granted _ hn' => exact hobs (hn' ▸ hs)

theorem Node.AppendOutcome.state_leader {n : Node} {args : AppendEntriesArgs}
    {r : Node × AppendEntriesReply × Bool} (h : n.AppendOutcome args r)
    (hs : r.1.state = .leader) : n.state = .leader := by
  cases h with
  | stale => exact hs
  | rejected hle hn' => exact ((n.observeLeader_spec hle).2.2.2.2.2.2.2.2.2.1 (hn' ▸ hs)).1
  | accepted hle hn' => exact ((n.observeLeader_spec hle).2.2.2.2.2.2.2.2.2.1 (hn' ▸ hs)).1

/-- What is asked of a node. -/
def Proc.HintOK (p : Proc) (n : String) (history : List Event) : Prop :=
  (p.node.leaderID = "" ∨ HasWon history p.node.leaderID p.node.currentTerm)
    ∧ (p.leads → HasWon history n p.node.currentTerm)

section HintStep

variable {C : Cluster} {w v : World} {a : Action} {n : String}

theorem Proc.HintOK.after {p p' : Proc} {history history' : List Event} (h : p.HintOK n history)
    (hsub : history ⊆ history') (hterm : p.node.currentTerm ≤ p'.node.currentTerm)
    (hhint : p'.node.leaderID = p.node.leaderID
      ∨ HasWon history' p'.node.leaderID p'.node.currentTerm)
    (hleads : p'.leads → p.leads ∨ HasWon history' n p'.node.currentTerm) :
    p'.HintOK n history' := by
  refine ⟨?_, fun hl => ?_⟩
  · rcases hhint with hsame | hwon
    · rw [hsame]
      exact h.1.imp_right fun hwon => hwon.mono hsub hterm
    · exact .inr hwon
  · rcases hleads hl with hold | hwon
    · exact (h.2 hold).mono hsub hterm
    · exact hwon

theorem HintInv.node (hinv : HintInv w) (hstatic : Static C w) (hstep : C.step w a = some v) :
    (v.proc n).HintOK n v.history := by
  have hok : (w.proc n).HintOK n w.history := ⟨hinv.hint n, hinv.leads n⟩
  have hmove := C.move hstatic hstep
  have hsub := hmove.grows.history
  have hterm : a ≠ .restart n → (w.proc n).node.currentTerm ≤ (v.proc n).node.currentTerm :=
    fun ha => (hmove.keeps ha).term
  cases C.proc_step hstep n with
  | @own l out _ hown hv =>
      have hheads := hown.heads
      have hid : (w.proc n).node.id = n := hstatic.id n
      have hevents : out.events ⊆ v.history := by
        rw [hv]
        exact List.subset_append_left ..
      have hle := hterm (by simp)
      refine hok.after hsub hle ?_ ?_
      · refine hheads.hint.imp_right fun ⟨heq, hwon⟩ => ?_
        rw [heq]
        exact hwon.mono hevents hle
      · intro hl
        refine (hheads.leads hl).imp_right fun hwon => ?_
        rw [hid] at hwon
        exact hwon.mono hevents hle
  | voted _ _ hout hproc =>
      refine hok.after hsub (hterm (by simp)) (.inl ?_) ?_
      · rw [hproc]
        exact hout.leaderID
      · rw [hproc]
        rintro (hs | hr)
        · exact .inl (.inl (hout.state_leader hs))
        · exact .inl (.inr hr)
  | @appended call c node reply apply p hcall hdst hout hp hproc =>
      have hnode : (v.proc n).node = node ∧ (v.proc n).run = (w.proc n).run := by
        rw [hproc, hp]
        split <;> exact ⟨rfl, rfl⟩
      refine hok.after hsub (hterm (by simp)) ?_ ?_
      · rw [hnode.1]
        rcases hout.metrics with ⟨-, hstale⟩ | ⟨-, hcur, hmetrics⟩
        · exact .inl (congrArg Node.leaderID hstale)
        · have hwon := hinv.calls c (List.mem_of_getElem? hcall)
          rw [Node.leaderID, hmetrics]
          exact .inr (hwon.mono hsub (Nat.le_of_eq hcur.symm))
      · rintro (hs | hr)
        · exact .inl (.inl (hout.state_leader (hnode.1 ▸ hs)))
        · exact .inl (.inr (hnode.2 ▸ hr))
  | restarted hproc =>
      rw [hproc]
      exact ⟨.inl rfl, fun hl => by rcases hl with hs | hr <;> contradiction⟩
  | idle hproc =>
      rw [hproc]
      exact hok.after hsub (Nat.le_refl _) (.inl rfl) fun hl => .inl hl

theorem HintInv.step (hinv : HintInv w) (hstatic : Static C w) (hstep : C.step w a = some v) :
    HintInv v := by
  refine ⟨fun n => (hinv.node hstatic hstep).1, fun n => (hinv.node hstatic hstep).2, ?_⟩
  have hsub := (C.move hstatic hstep).grows.history
  intro c hc
  have hold : c ∈ w.net.appendCalls → HasWon v.history c.args.leaderID c.args.term :=
    fun hmem => (hinv.calls c hmem).mono hsub (Nat.le_refl _)
  cases C.raw_move hstep with
  | @«local» m l p out _ hlocal =>
      rcases List.mem_append.mp hc with hmem | hnew
      · exact hold hmem
      · obtain ⟨hid, hterm, hleads⟩ := (Proc.move hlocal).heads.calls c hnew
        rw [hid, hterm, show (w.proc m).node.id = m from hstatic.id m]
        exact (hinv.leads m hleads).mono hsub (Nat.le_refl _)
  | deliverVote => exact hold hc
  | deliverAppend => exact hold hc
  | crash => exact hold hc
  | restart => exact hold hc

end HintStep

/-- Whatever has happened, the hint that a node gives to its clients is empty
or names a member that has won an election by the node's own term. -/
theorem leader_hint_has_won {C : Cluster} {w : World} (h : Reachable C.step anyStep C.init w)
    (n : String) :
    (w.proc n).node.leaderID = "" ∨ ∃ term log,
      .elected (w.proc n).node.leaderID term log ∈ w.history
        ∧ term ≤ (w.proc n).node.currentTerm := by
  have hinv : HintInv w := h.invariant (hintInv_init C) fun _ _ _ hr hinv _ hstep =>
    hinv.step (static_of_reachable hr) hstep
  exact (hinv.hint n).imp_right fun ⟨term, log, hle, hmem⟩ => ⟨term, log, hmem, hle⟩

theorem leader_hint_has_won_b :
    ∃ w, Reachable threeNodes.step anyStep threeNodes.init w
      ∧ (w.proc "b").node.leaderID = "a"
      ∧ ∃ term log, .elected "a" term log ∈ w.history
        ∧ term ≤ (w.proc "b").node.currentTerm := by
  obtain ⟨w, hr, hhint⟩ : ∃ w, Reachable threeNodes.step anyStep threeNodes.init w
      ∧ (w.proc "b").node.leaderID = "a" :=
    Reachable.of_exec_any replicateRun (by decide +kernel)
  have hwon := (leader_hint_has_won hr "b").resolve_left (by simp [hhint])
  rw [hhint] at hwon
  exact ⟨w, hr, hhint, hwon⟩

end RaftStore
