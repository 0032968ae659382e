import RaftStore.Lib.Runs
import RaftStore.Handlers
import RaftStore.Moves

/-!
# One step of the cluster

`Move` lists what a step of the whole cluster can do to the cores of the
nodes, to the network and to the history; `Cluster.move` shows that every
step is one of these. It assumes `Static`, the wiring that no step ever
changes: who a process is, who its peers are, and that requests travel
between members. `Cluster.run_step` is the same for the `run` goroutine.
-/

namespace RaftStore

open Runs

/-! ## Reading and updating the world -/

namespace World

def core (w : World) (n : String) : Core := (w.proc n).node.core

@[simp] theorem commit_core (w : World) (n : String) (p : Proc) (out : Output) :
    (w.commit n p out).core = Function.update w.core n p.node.core := by
  funext m
  by_cases hm : m = n
  · subst hm; simp [core, commit]
  · simp [core, commit, hm]

theorem core_update (w : World) (n : String) (p : Proc) (net : Net)
    (history : List Event) :
    World.core ⟨Function.update w.proc n p, net, history⟩
      = Function.update w.core n p.node.core := by
  funext m
  by_cases hm : m = n
  · subst hm; simp [core]
  · simp [core, hm]

end World

/-! ## The wiring -/

structure Static (C : Cluster) (w : World) : Prop where
  id : ∀ n, (w.core n).id = n
  peers : ∀ n, (w.core n).peers = C.peers n
  voteCalls : ∀ c ∈ w.net.voteCalls, c.src ∈ C.members
    ∧ c.dst ∈ C.peers c.src ∧ c.args.candidateID = c.src ∧ 0 < c.args.term
  appendCalls : ∀ c ∈ w.net.appendCalls, c.src ∈ C.members
    ∧ c.dst ∈ C.peers c.src

/-- The raw shape of a step, one constructor an action. -/
inductive RawMove (C : Cluster) (w : World) : Action → World → Prop where
  | «local» {n : String} {a : Local} {p : Proc} {out : Output}
      (hn : n ∈ C.members) (hstep : (w.proc n).step w.net a = some (p, out)) :
      RawMove C w (.local n a) (w.commit n p out)
  | deliverVote {call : Nat} {c : VoteCall}
      (hcall : w.net.voteCalls[call]? = some c) :
      RawMove C w (.deliverVote call) (w.answerVote call c)
  | deliverAppend {call : Nat} {c : AppendCall}
      (hcall : w.net.appendCalls[call]? = some c) :
      RawMove C w (.deliverAppend call) (w.answerAppend call c)
  | crash {n : String} :
      RawMove C w (.crash n) (w.setProc n { w.proc n with down := true })
  | restart {n : String} (hn : n ∈ C.members) :
      RawMove C w (.restart n) (w.restart C n)

theorem Cluster.raw_move {C : Cluster} {w w' : World} {a : Action}
    (h : C.step w a = some w') : RawMove C w a w' := by
  cases a with
  | «local» n a =>
      simp only [Cluster.step] at h
      split at h
      · rename_i hn
        obtain ⟨⟨p, out⟩, hstep, rfl⟩ := Option.map_eq_some_iff.mp h
        exact .local hn.1 hstep
      · cases h
  | deliverVote call =>
      simp only [Cluster.step] at h
      split at h
      · split at h <;> cases h
        exact .deliverVote ‹_›
      · cases h
  | deliverAppend call =>
      simp only [Cluster.step] at h
      split at h
      · split at h <;> cases h
        exact .deliverAppend ‹_›
      · cases h
  | crash n =>
      simp only [Cluster.step] at h
      split at h <;> cases h
      exact .crash
  | restart n =>
      simp only [Cluster.step] at h
      split at h <;> cases h
      rename_i hn
      exact .restart hn.1

/-! ## Moves -/

/-- What winning an election does to the core. -/
def Core.lead (c : Core) : Core := { c with state := .leader }

/-- What appending a client command does to the core. -/
def Core.push (c : Core) (entry : LogEntry) : Core :=
  { c with log := c.log.appendEntry entry }

/-- What a step can do to cores, network and history. -/
inductive Move (C : Cluster) (w : World) : Action → World → Prop where
  | quiet {a : Action} {w' : World} {evs : List Event}
      (hrestart : ∀ n, a ≠ .restart n) (hcore : w'.core = w.core)
      (hnet : w'.net = w.net)
      (hevs : ∀ e ∈ evs, ∃ n x, e = .replicated n x)
      (hhist : w'.history = evs ++ w.history) : Move C w a w'
  | timeout {n : String} {w' : World} (hn : n ∈ C.members)
      (hrun : (w.proc n).run = .loopFollower)
      (hcore : w'.core
        = Function.update w.core n (w.proc n).node.electionTimeout.core)
      (hnet : w'.net = w.net) (hhist : w'.history = w.history) :
      Move C w (.local n .timeout) w'
  | stepDown {n : String} {term : Nat} {w' : World} (hn : n ∈ C.members)
      (hrun : (w.proc n).run = .stepDown term)
      (hcore : w'.core
        = Function.update w.core n ((w.proc n).node.becomeFollower term).core)
      (hnet : w'.net = w.net) (hhist : w'.history = w.history) :
      Move C w (.local n .stepDown) w'
  | campaign {n : String} {args : RequestVoteArgs} {w' : World}
      (hn : n ∈ C.members) (hrun : (w.proc n).run = .loopCandidate)
      (hargs : args = (w.proc n).node.voteRequest)
      (hcore : w'.core
        = Function.update w.core n (w.proc n).node.startElection.core)
      (hnet : w'.net = { w.net with voteCalls :=
        w.net.voteCalls ++ (C.peers n).map fun peer => ⟨n, peer, args⟩ })
      (hhist : w'.history = .campaigned n args :: w.history) :
      Move C w (.local n .campaign) w'
  | elect {n : String} {term : Nat} {w' : World} (hn : n ∈ C.members)
      (hrun : (w.proc n).run = .becomeLeader term)
      (hterm : (w.core n).currentTerm = term)
      (hstate : (w.core n).state = .candidate)
      (hcore : w'.core = Function.update w.core n (w.core n).lead)
      (hnet : w'.net = w.net)
      (hhist : w'.history = .elected n term (w.core n).log :: w.history) :
      Move C w (.local n .becomeLeader) w'
  | append {n : String} {command : Command} {entry : LogEntry} {w' : World}
      (hn : n ∈ C.members) (hstate : (w.core n).state = .leader)
      (hentry : entry = (w.proc n).node.newEntry command)
      (hcore : w'.core = Function.update w.core n ((w.core n).push entry))
      (hnet : w'.net = w.net) (hhist : w'.history = w.history) :
      Move C w (.local n (.replicate command)) w'
  | heartbeat {n peer : String} {k : Nat} {ws : List Heartbeat} {w' : World}
      (hn : n ∈ C.members) (hrun : (w.proc n).run = .heartbeats ws)
      (hpeer : peer ∈ C.peers n) (hcore : w'.core = w.core)
      (hnet : w'.net = { w.net with appendCalls := w.net.appendCalls
        ++ [⟨n, peer, (w.proc n).node.heartbeatArgs peer⟩] })
      (hhist : w'.history = w.history) :
      Move C w (.local n (.heartbeat k)) w'
  | replicateSend {n peer : String} {r k : Nat} {c : ReplicateCall} {w' : World}
      (hn : n ∈ C.members) (hcall : (w.proc n).replicates[r]? = some c)
      (hpeer : peer ∈ C.peers n) (hterm : (w.core n).currentTerm = c.term)
      (hstate : (w.core n).state = .leader) (hcore : w'.core = w.core)
      (hnet : w'.net = { w.net with appendCalls := w.net.appendCalls
        ++ [⟨n, peer, (w.proc n).node.replicateArgs peer c.entry c.term
              c.leaderCommit⟩] })
      (hhist : w'.history = w.history) :
      Move C w (.local n (.replicateSend r k)) w'
  | vote {call : Nat} {c : VoteCall} {node : Node} {reply : RequestVoteReply}
      {w' : World} (hcall : w.net.voteCalls[call]? = some c)
      (hout : (w.proc c.dst).node.VoteOutcome c.args (node, reply))
      (hcore : w'.core = Function.update w.core c.dst node.core)
      (hnet : w'.net = { w.net with
        voteAnswers := w.net.voteAnswers ++ [(call, reply)] })
      (hhist : w'.history = if reply.voteGranted then
        .granted c.dst c.args :: w.history else w.history) :
      Move C w (.deliverVote call) w'
  | deliver {call : Nat} {c : AppendCall} {node : Node}
      {reply : AppendEntriesReply} {apply : Bool} {w' : World}
      (hcall : w.net.appendCalls[call]? = some c)
      (hout : (w.proc c.dst).node.AppendOutcome c.args (node, reply, apply))
      (hcore : w'.core = Function.update w.core c.dst node.core)
      (hnet : w'.net = { w.net with
        appendAnswers := w.net.appendAnswers ++ [(call, reply)] })
      (hhist : w'.history = w.history) :
      Move C w (.deliverAppend call) w'
  | restart {n : String} {w' : World} (hn : n ∈ C.members)
      (hcore : w'.core = Function.update w.core n (newNode n (C.peers n)).core)
      (hnet : w'.net = w.net) (hhist : w'.history = .restarted n :: w.history) :
      Move C w (.restart n) w'

theorem Net.append_nil (net : Net) :
    ({ net with
        voteCalls := net.voteCalls ++ []
        appendCalls := net.appendCalls ++ [] } : Net) = net := by
  simp

/-- The moves of one process, seen from the cluster. -/
theorem CoreMove.move {C : Cluster} {w : World} (hw : Static C w) {n : String}
    {a : Local} {p : Proc} {out : Output} (hn : n ∈ C.members)
    (h : CoreMove w.net (w.proc n) a p out) :
    Move C w (.local n a) (w.commit n p out) := by
  have hid : (w.proc n).node.id = n := hw.id n
  have hpeers : (w.proc n).node.peers = C.peers n := hw.peers n
  cases h with
  | quiet hcore hvotes happends hevents =>
      refine .quiet (fun _ => by simp) ?_ ?_ ?_ rfl
      · rw [World.commit_core, hcore]
        exact Function.update_eq_self n w.core
      · simp only [World.commit, hvotes, happends]
        exact w.net.append_nil
      · intro e he
        obtain ⟨x, hx⟩ := hevents e he
        exact ⟨_, x, hx⟩
  | timeout hrun =>
      exact .timeout hn hrun (World.commit_core ..) w.net.append_nil rfl
  | stepDown hrun =>
      exact .stepDown hn hrun (World.commit_core ..) w.net.append_nil rfl
  | campaign hrun hnode =>
      refine .campaign hn hrun rfl ?_ ?_ ?_
      · rw [World.commit_core, hnode]
      · simp [World.commit, hid, hpeers]
      · simp [World.commit, hid]
  | elect hrun hwins =>
      have hw' := hwins
      simp only [Node.wins, Bool.and_eq_true, decide_eq_true_eq] at hw'
      refine .elect hn hrun hw'.1 hw'.2 ?_ w.net.append_nil ?_
      · rw [World.commit_core]
        simp only [Node.becomeLeader, hwins, if_true]
        rfl
      · simp [World.commit, hid, World.core, Node.core]
  | append hstate hnode =>
      refine .append hn hstate rfl ?_ w.net.append_nil rfl
      rw [World.commit_core, hnode]
      rfl
  | heartbeat hrun hpeer hnode =>
      refine .heartbeat hn hrun (hpeers ▸ List.mem_of_getElem? hpeer) ?_ ?_ rfl
      · rw [World.commit_core, hnode]
        exact Function.update_eq_self n w.core
      · simp [World.commit, hid]
  | replicateSend hcall hpeer hterm hstate hnode =>
      refine .replicateSend hn hcall (hpeers ▸ List.mem_of_getElem? hpeer)
        hterm hstate ?_ ?_ rfl
      · rw [World.commit_core, hnode]
        exact Function.update_eq_self n w.core
      · simp [World.commit, hid]

theorem Cluster.move {C : Cluster} {w w' : World} {a : Action}
    (hw : Static C w) (h : C.step w a = some w') : Move C w a w' := by
  cases C.raw_move h with
  | «local» hn hstep => exact (core_move (Proc.move hstep)).move hw hn
  | @deliverVote call c hcall =>
      exact .vote hcall ((w.proc c.dst).node.handleRequestVote_outcome c.args)
        (World.core_update ..) rfl rfl
  | @deliverAppend call c hcall =>
      refine .deliver hcall
        ((w.proc c.dst).node.handleAppendEntries_outcome c.args) ?_ rfl rfl
      simp only [World.answerAppend, World.core_update]
      split <;> rfl
  | @crash n =>
      refine .quiet (by simp) ?_ rfl ?_ (List.nil_append _).symm
      · rw [World.setProc, World.core_update]
        exact Function.update_eq_self n w.core
      · exact fun e he => by cases he
  | restart hn => exact .restart hn (World.core_update ..) rfl rfl

/-! ## One node of the cluster -/

/-- What a step does to the core of `n`. -/
inductive CoreStep (w w' : World) (n : String) : Action → Prop where
  | same {a : Action} (hcore : w'.core n = w.core n) : CoreStep w w' n a
  | timeout (hrun : (w.proc n).run = .loopFollower)
      (hcore : w'.core n = (w.proc n).node.electionTimeout.core) :
      CoreStep w w' n (.local n .timeout)
  | stepDown {term : Nat} (hrun : (w.proc n).run = .stepDown term)
      (hcore : w'.core n = ((w.proc n).node.becomeFollower term).core) :
      CoreStep w w' n (.local n .stepDown)
  | campaign (hrun : (w.proc n).run = .loopCandidate)
      (hcore : w'.core n = (w.proc n).node.startElection.core) :
      CoreStep w w' n (.local n .campaign)
  | elect (hstate : (w.core n).state = .candidate)
      (hrun : (w.proc n).run = .becomeLeader (w.core n).currentTerm)
      (hhist : w'.history
        = .elected n (w.core n).currentTerm (w.core n).log :: w.history)
      (hcore : w'.core n = (w.core n).lead) :
      CoreStep w w' n (.local n .becomeLeader)
  | append {command : Command} {entry : LogEntry}
      (hstate : (w.core n).state = .leader)
      (hentry : entry = (w.proc n).node.newEntry command)
      (hcore : w'.core n = (w.core n).push entry) :
      CoreStep w w' n (.local n (.replicate command))
  | vote {call : Nat} {c : VoteCall} {node : Node} {reply : RequestVoteReply}
      (hcall : w.net.voteCalls[call]? = some c) (hdst : c.dst = n)
      (hout : (w.proc n).node.VoteOutcome c.args (node, reply))
      (hcore : w'.core n = node.core) : CoreStep w w' n (.deliverVote call)
  | deliver {call : Nat} {c : AppendCall} {node : Node}
      {reply : AppendEntriesReply} {apply : Bool}
      (hcall : w.net.appendCalls[call]? = some c) (hdst : c.dst = n)
      (hout : (w.proc n).node.AppendOutcome c.args (node, reply, apply))
      (hcore : w'.core n = node.core) : CoreStep w w' n (.deliverAppend call)
  | restart {peers : List String} (hcore : w'.core n = (newNode n peers).core) :
      CoreStep w w' n (.restart n)

theorem Move.core_step {C : Cluster} {w w' : World} {a : Action}
    (h : Move C w a w') (n : String) : CoreStep w w' n a := by
  have hother : ∀ {m : String} {c : Core},
      w'.core = Function.update w.core m c → n ≠ m → CoreStep w w' n a :=
    fun hcore hm => .same (by rw [hcore, Function.update_of_ne hm])
  have hown : ∀ {c : Core},
      w'.core = Function.update w.core n c → w'.core n = c :=
    fun hcore => by rw [hcore, Function.update_self]
  cases h with
  | quiet _ hcore | heartbeat _ _ _ hcore | replicateSend _ _ _ _ _ hcore =>
      exact .same (by rw [hcore])
  | @timeout m _ _ hrun hcore =>
      by_cases hm : n = m
      · subst hm; exact .timeout hrun (hown hcore)
      · exact hother hcore hm
  | @stepDown m _ _ _ hrun hcore =>
      by_cases hm : n = m
      · subst hm; exact .stepDown hrun (hown hcore)
      · exact hother hcore hm
  | @campaign m _ _ _ hrun _ hcore =>
      by_cases hm : n = m
      · subst hm; exact .campaign hrun (hown hcore)
      · exact hother hcore hm
  | @elect m _ _ _ hrun hterm hstate hcore _ hhist =>
      by_cases hm : n = m
      · subst hm; subst hterm; exact .elect hstate hrun hhist (hown hcore)
      · exact hother hcore hm
  | @append m _ _ _ _ hstate hentry hcore =>
      by_cases hm : n = m
      · subst hm; exact .append hstate hentry (hown hcore)
      · exact hother hcore hm
  | @vote _ c _ _ _ hcall hout hcore =>
      by_cases hm : n = c.dst
      · subst hm; exact .vote hcall rfl hout (hown hcore)
      · exact hother hcore hm
  | @deliver _ c _ _ _ _ hcall hout hcore =>
      by_cases hm : n = c.dst
      · subst hm; exact .deliver hcall rfl hout (hown hcore)
      · exact hother hcore hm
  | @restart m _ _ hcore =>
      by_cases hm : n = m
      · subst hm; exact .restart (hown hcore)
      · exact hother hcore hm

/-! ## What a node keeps

Without a restart a node keeps its identity, its term never falls, and
within a term it keeps the vote it has. -/

structure Core.Keeps (c c' : Core) : Prop where
  id : c'.id = c.id
  peers : c'.peers = c.peers
  term : c.currentTerm ≤ c'.currentTerm
  vote : c'.currentTerm = c.currentTerm → c.votedFor ≠ "" →
    c'.votedFor = c.votedFor

theorem Core.Keeps.refl (c : Core) : c.Keeps c :=
  ⟨rfl, rfl, Nat.le_refl _, fun _ _ => rfl⟩

namespace Node

variable {n : Node}

theorem keeps_becomeFollower (term : Nat) :
    n.core.Keeps (n.becomeFollower term).core where
  id := n.becomeFollower_id term
  peers := n.becomeFollower_peers term
  term := by
    show n.currentTerm ≤ (n.becomeFollower term).currentTerm
    rw [becomeFollower_currentTerm]
    exact Nat.le_max_left ..
  vote heq _ := by
    refine n.becomeFollower_votedFor ?_
    have hmax : max n.currentTerm term = n.currentTerm :=
      (n.becomeFollower_currentTerm term).symm.trans heq
    omega

theorem keeps_observeTerm (term : Nat) :
    n.core.Keeps (n.observeTerm term).core := by
  unfold observeTerm
  split
  · exact keeps_becomeFollower term
  · exact .refl _

theorem keeps_startElection : n.core.Keeps n.startElection.core :=
  ⟨rfl, rfl, Nat.le_succ _, fun heq => absurd heq (Nat.succ_ne_self _)⟩

theorem VoteOutcome.keeps {args : RequestVoteArgs}
    {r : Node × RequestVoteReply} (h : n.VoteOutcome args r) :
    n.core.Keeps r.1.core := by
  cases h with
  | stale => exact .refl _
  | denied _ hn' => exact hn' ▸ keeps_observeTerm args.term
  | granted _ hn' hvoted =>
      have hk := keeps_observeTerm (n := n) args.term
      rw [← hn'] at hk
      refine ⟨hk.id, hk.peers, hk.term, ?_⟩
      intro heq hne
      have hv := hk.vote heq hne
      rcases hvoted with h0 | hc
      · exact absurd (hv.symm.trans h0) hne
      · exact hc.symm.trans hv

theorem AppendOutcome.keeps {args : AppendEntriesArgs}
    {r : Node × AppendEntriesReply × Bool} (h : n.AppendOutcome args r) :
    n.core.Keeps r.1.core := by
  have hk := keeps_observeTerm (n := n) args.term
  have hobs : n.core.Keeps (n.observeLeader args).core :=
    ⟨hk.id, hk.peers, hk.term, hk.vote⟩
  cases h with
  | stale => exact .refl _
  | rejected _ hn' => exact hn' ▸ hobs
  | accepted _ hn' =>
      rw [← hn'] at hobs
      exact ⟨hobs.id, hobs.peers, hobs.term, hobs.vote⟩

end Node

theorem Move.keeps {C : Cluster} {w w' : World} {a : Action}
    (h : Move C w a w') {n : String} (ha : a ≠ .restart n) :
    (w.core n).Keeps (w'.core n) := by
  cases h.core_step n with
  | same hcore => rw [hcore]; exact .refl _
  | timeout _ hcore => rw [hcore]; exact ⟨rfl, rfl, Nat.le_refl _, fun _ _ => rfl⟩
  | stepDown _ hcore => rw [hcore]; exact Node.keeps_becomeFollower _
  | campaign _ hcore => rw [hcore]; exact Node.keeps_startElection
  | elect _ _ _ hcore =>
      rw [hcore]; exact ⟨rfl, rfl, Nat.le_refl _, fun _ _ => rfl⟩
  | append _ _ hcore =>
      rw [hcore]; exact ⟨rfl, rfl, Nat.le_refl _, fun _ _ => rfl⟩
  | vote _ _ hout hcore => rw [hcore]; exact hout.keeps
  | deliver _ _ hout hcore => rw [hcore]; exact hout.keeps
  | restart => exact absurd rfl ha

theorem Move.core_restart {C : Cluster} {w w' : World} {n : String}
    (h : Move C w (.restart n) w') :
    w'.core n = (newNode n (C.peers n)).core := by
  cases h with
  | quiet hrestart => exact absurd rfl (hrestart n)
  | restart _ hcore => rw [hcore, Function.update_self]

/-! ## The wiring never changes -/

theorem static_init (C : Cluster) : Static C C.init where
  id _ := rfl
  peers _ := rfl
  voteCalls _ h := by cases h
  appendCalls _ h := by cases h

theorem Move.static {C : Cluster} {w w' : World} {a : Action}
    (h : Move C w a w') (hw : Static C w) : Static C w' where
  id n := by
    by_cases ha : a = .restart n
    · subst ha; rw [h.core_restart]; rfl
    · rw [(h.keeps ha).id, hw.id]
  peers n := by
    by_cases ha : a = .restart n
    · subst ha; rw [h.core_restart]; rfl
    · rw [(h.keeps ha).peers, hw.peers]
  voteCalls c hc := by
    cases h with
    | @campaign n args _ hn _ hargs _ hnet =>
        rw [hnet] at hc
        rcases List.mem_append.mp hc with hc | hc
        · exact hw.voteCalls c hc
        · obtain ⟨peer, hpeer, rfl⟩ := List.mem_map.mp hc
          rw [hargs]
          exact ⟨hn, hpeer, hw.id n, Nat.succ_pos _⟩
    | _ => simp only [*] at hc; exact hw.voteCalls c hc
  appendCalls c hc := by
    cases h with
    | heartbeat hn _ hpeer _ hnet =>
        rw [hnet] at hc
        rcases List.mem_append.mp hc with hc | hc
        · exact hw.appendCalls c hc
        · cases List.mem_singleton.mp hc
          exact ⟨hn, hpeer⟩
    | replicateSend hn _ hpeer _ _ _ hnet =>
        rw [hnet] at hc
        rcases List.mem_append.mp hc with hc | hc
        · exact hw.appendCalls c hc
        · cases List.mem_singleton.mp hc
          exact ⟨hn, hpeer⟩
    | _ => simp only [*] at hc; exact hw.appendCalls c hc

theorem static_of_reachable {C : Cluster} {ok : World → Action → Prop}
    {w : World} (h : Reachable C.step ok C.init w) : Static C w :=
  h.invariant (static_init C) fun _ _ _ _ hw _ hstep => (C.move hw hstep).static hw

/-! ## The handlers and the books -/

theorem Node.VoteOutcome.book {n : Node} {args : RequestVoteArgs}
    {r : Node × RequestVoteReply} (h : n.VoteOutcome args r) :
    r.1.book = n.book := by
  have hobs : ∀ term, (n.observeTerm term).book = n.book := by
    intro term
    unfold Node.observeTerm
    split
    · simp [Node.book]
    · rfl
  cases h with
  | stale => rfl
  | denied _ hn' => rw [hn']; exact hobs _
  | granted _ hn' => rw [hn']; exact hobs _

/-- `HandleAppendEntries` touches `commitIndex` only. -/
theorem Node.AppendOutcome.book {n : Node} {args : AppendEntriesArgs}
    {r : Node × AppendEntriesReply × Bool} (h : n.AppendOutcome args r) :
    r.1.nextIndex = n.nextIndex ∧ r.1.matchIndex = n.matchIndex
      ∧ r.1.lastApplied = n.lastApplied := by
  cases h with
  | stale => exact ⟨rfl, rfl, rfl⟩
  | rejected hterm hn' =>
      obtain ⟨-, -, -, -, -, ha, hx, hm, -⟩ := n.observeLeader_spec hterm
      subst hn'
      exact ⟨hx, hm, ha⟩
  | accepted hterm hn' =>
      obtain ⟨-, -, -, -, -, ha, hx, hm, -⟩ := n.observeLeader_spec hterm
      subst hn'
      exact ⟨hx, hm, ha⟩

/-! ## One process of the cluster -/

/-- What a step of the cluster does to the process of `n`. -/
inductive ProcStep (C : Cluster) (w w' : World) (n : String) : Action → Prop
    where
  | own {a : Local} {out : Output} (hn : n ∈ C.members)
      (hmove : (w.proc n).Move w.net a (w'.proc n) out)
      (hw' : w' = w.commit n (w'.proc n) out) : ProcStep C w w' n (.local n a)
  | voted {call : Nat} {c : VoteCall} {node : Node} {reply : RequestVoteReply}
      (hcall : w.net.voteCalls[call]? = some c) (hdst : c.dst = n)
      (hout : (w.proc n).node.VoteOutcome c.args (node, reply))
      (hproc : w'.proc n = { w.proc n with node := node }) :
      ProcStep C w w' n (.deliverVote call)
  | appended {call : Nat} {c : AppendCall} {node : Node}
      {reply : AppendEntriesReply} {apply : Bool} {p : Proc}
      (hcall : w.net.appendCalls[call]? = some c) (hdst : c.dst = n)
      (hout : (w.proc n).node.AppendOutcome c.args (node, reply, apply))
      (hp : p = { w.proc n with node := node })
      (hproc : w'.proc n = if apply then p.startApply else p) :
      ProcStep C w w' n (.deliverAppend call)
  | restarted (hproc : w'.proc n = newProc n (C.peers n) (C.applyCh n)) :
      ProcStep C w w' n (.restart n)
  | idle {a : Action} {down : Bool}
      (hproc : w'.proc n = { w.proc n with down := down }) :
      ProcStep C w w' n a

theorem ProcStep.unchanged {C : Cluster} {w w' : World} {n : String}
    {a : Action} (hproc : w'.proc n = w.proc n) : ProcStep C w w' n a :=
  .idle hproc

theorem Cluster.proc_step {C : Cluster} {w w' : World} {a : Action}
    (h : C.step w a = some w') (n : String) : ProcStep C w w' n a := by
  cases C.raw_move h with
  | @«local» m _ p out hn hstep =>
      by_cases hm : n = m
      · subst hm
        have hp : (w.commit n p out).proc n = p := by simp [World.commit]
        exact .own hn (by rw [hp]; exact Proc.move hstep) (by rw [hp])
      · exact .unchanged (by simp [World.commit, hm])
  | @deliverVote _ c hcall =>
      by_cases hm : n = c.dst
      · subst hm
        have hout := (w.proc c.dst).node.handleRequestVote_outcome c.args
        rcases hr : (w.proc c.dst).node.handleRequestVote c.args with ⟨node, reply⟩
        rw [hr] at hout
        exact .voted hcall rfl hout (by simp [World.answerVote, hr])
      · exact .unchanged (by simp [World.answerVote, hm])
  | @deliverAppend _ c hcall =>
      by_cases hm : n = c.dst
      · subst hm
        have hout := (w.proc c.dst).node.handleAppendEntries_outcome c.args
        rcases hr : (w.proc c.dst).node.handleAppendEntries c.args
          with ⟨node, reply, apply⟩
        rw [hr] at hout
        exact .appended hcall rfl hout rfl (by simp [World.answerAppend, hr])
      · exact .unchanged (by simp [World.answerAppend, hm])
  | @crash m =>
      by_cases hm : n = m
      · subst hm
        have hp : (w.setProc n { w.proc n with down := true }).proc n
            = { w.proc n with down := true } := by simp [World.setProc]
        exact .idle hp
      · exact .unchanged (by simp [World.setProc, hm])
  | @restart m =>
      by_cases hm : n = m
      · subst hm
        exact .restarted (by simp [World.restart])
      · exact .unchanged (by simp [World.restart, hm])

theorem Cluster.run_step {C : Cluster} {w w' : World} {a : Action}
    (h : C.step w a = some w') (n : String) :
    ∃ out, RunMove w.net (w.proc n) (w'.proc n) out
      ∧ (out = {} ∨ n ∈ C.members ∧ w' = w.commit n (w'.proc n) out) := by
  cases C.proc_step h n with
  | own hn hmove hw' => exact ⟨_, run_move hmove, .inr ⟨hn, hw'⟩⟩
  | voted _ _ _ hproc => exact ⟨{}, .same (by rw [hproc]), .inl rfl⟩
  | appended _ _ _ hp hproc =>
      refine ⟨{}, .same ?_, .inl rfl⟩
      rw [hproc, hp]
      split <;> rfl
  | restarted hproc =>
      exact ⟨{}, .elsewhere (by rw [hproc]; rfl) (by rw [hproc]; simp [newProc]),
        .inl rfl⟩
  | idle hproc => exact ⟨{}, .same (by rw [hproc]), .inl rfl⟩

/-- The calls of a process that has not just restarted. -/
theorem Cluster.call_step {C : Cluster} {w w' : World} {a : Action}
    (h : C.step w a = some w') (n : String) :
    (w'.proc n).replicates = [] ∨
      ∃ out, CallMove w.net (w.proc n) (w'.proc n) out
        ∧ (out = {} ∨ n ∈ C.members ∧ w' = w.commit n (w'.proc n) out) := by
  cases C.proc_step h n with
  | own hn hmove hw' => exact .inr ⟨_, call_move hmove, .inr ⟨hn, hw'⟩⟩
  | voted _ _ _ hproc => exact .inr ⟨{}, .same (by rw [hproc]), .inl rfl⟩
  | appended _ _ _ hp hproc =>
      refine .inr ⟨{}, .same ?_, .inl rfl⟩
      rw [hproc, hp]
      split <;> rfl
  | restarted hproc => exact .inl (by rw [hproc]; rfl)
  | idle hproc => exact .inr ⟨{}, .same (by rw [hproc]), .inl rfl⟩

theorem Node.VoteOutcome.feed {p : Proc} {args : RequestVoteArgs} {node : Node}
    {reply : RequestVoteReply} (h : p.node.VoteOutcome args (node, reply)) :
    Proc.feed { p with node := node } = p.feed := by
  have hlast : node.lastApplied = p.node.lastApplied :=
    congrArg Book.lastApplied h.book
  simp only [Proc.feed, hlast]

/-- `HandleAppendEntries` at most starts a call of `applyCommitted`. -/
theorem Node.AppendOutcome.feed {p : Proc} {args : AppendEntriesArgs}
    {node : Node} {reply : AppendEntriesReply} {apply : Bool}
    (h : p.node.AppendOutcome args (node, reply, apply)) (l : Local) :
    FeedMove p (if apply then { p with node := node }.startApply
      else { p with node := node }) l := by
  have hlast : node.lastApplied = p.node.lastApplied := h.book.2.2
  cases apply with
  | false => exact .same (by simp [Proc.feed, hlast])
  | true => exact .start (by simp [Proc.feed, Proc.startApply, hlast])

/-- The feed of a process that has not just restarted. -/
theorem Cluster.feed_step {C : Cluster} {w w' : World} {a : Action}
    (h : C.step w a = some w') (n : String) :
    w'.proc n = newProc n (C.peers n) (C.applyCh n) ∨
      ∃ l, FeedMove (w.proc n) (w'.proc n) l
        ∧ ∀ i, l = .collect i → a = .local n l := by
  have hother : FeedMove (w.proc n) (w'.proc n) .load →
      ∃ l, FeedMove (w.proc n) (w'.proc n) l
        ∧ ∀ i, l = .collect i → a = .local n l :=
    fun hfeed => ⟨.load, hfeed, fun _ hl => by cases hl⟩
  cases C.proc_step h n with
  | @own l _ _ hmove => exact .inr ⟨l, feed_move hmove, fun _ _ => rfl⟩
  | voted _ _ hout hproc => exact .inr (hother (.same (by rw [hproc, hout.feed])))
  | appended _ _ hout hp hproc =>
      refine .inr (hother ?_)
      rw [hproc, hp]
      exact hout.feed .load
  | restarted hproc => exact .inl hproc
  | idle hproc => exact .inr (hother (.same (by rw [hproc]; rfl)))

/-- Both ways back to the top of `run` that matter to a candidate. -/
theorem Cluster.run_top {C : Cluster} {w w' : World} {a : Action} {n : String}
    (h : C.step w a = some w')
    (ha : a = .restart n ∨ a = .local n .becomeLeader) :
    (w'.proc n).run = .top := by
  rcases ha with rfl | rfl
  · cases C.raw_move h
    simp [World.restart, newProc]
  · cases C.raw_move h with
    | «local» _ hstep =>
        simp only [Proc.step, Proc.becomeLeader] at hstep
        split at hstep <;> cases hstep
        simp [World.commit]

/-! ## What only grows -/

structure World.Grows (w w' : World) : Prop where
  history : w.history ⊆ w'.history
  voteCalls : w.net.voteCalls <+: w'.net.voteCalls
  voteAnswers : w.net.voteAnswers <+: w'.net.voteAnswers
  appendCalls : w.net.appendCalls <+: w'.net.appendCalls
  appendAnswers : w.net.appendAnswers <+: w'.net.appendAnswers

theorem Move.grows {C : Cluster} {w w' : World} {a : Action}
    (h : Move C w a w') : w.Grows w' := by
  have hnone : ∀ evs : List Event, w'.net = w.net →
      w'.history = evs ++ w.history → w.Grows w' := fun evs hnet hhist =>
    ⟨hhist ▸ List.subset_append_right .., hnet ▸ List.prefix_rfl,
      hnet ▸ List.prefix_rfl, hnet ▸ List.prefix_rfl, hnet ▸ List.prefix_rfl⟩
  cases h with
  | quiet _ _ hnet _ hhist => exact hnone _ hnet hhist
  | timeout _ _ _ hnet hhist | stepDown _ _ _ hnet hhist
  | append _ _ _ _ hnet hhist => exact hnone [] hnet hhist
  | elect _ _ _ _ _ hnet hhist | restart _ _ hnet hhist =>
      exact hnone [_] hnet hhist
  | campaign _ _ _ _ hnet hhist =>
      refine ⟨hhist ▸ List.subset_cons_self .., ?_, ?_, ?_, ?_⟩ <;> simp only [hnet]
      · exact List.prefix_append ..
      all_goals exact List.prefix_rfl
  | heartbeat _ _ _ _ hnet hhist | replicateSend _ _ _ _ _ _ hnet hhist =>
      refine ⟨hhist ▸ List.Subset.refl _, ?_, ?_, ?_, ?_⟩ <;> simp only [hnet]
      · exact List.prefix_rfl
      · exact List.prefix_rfl
      · exact List.prefix_append ..
      · exact List.prefix_rfl
  | @vote _ _ _ reply _ _ _ _ hnet hhist =>
      refine ⟨?_, ?_, ?_, ?_, ?_⟩
      · rw [hhist]
        split
        · exact List.subset_cons_self ..
        · exact List.Subset.refl _
      all_goals simp only [hnet]
      · exact List.prefix_rfl
      · exact List.prefix_append ..
      · exact List.prefix_rfl
      · exact List.prefix_rfl
  | deliver _ _ _ hnet hhist =>
      refine ⟨hhist ▸ List.Subset.refl _, ?_, ?_, ?_, ?_⟩ <;> simp only [hnet]
      · exact List.prefix_rfl
      · exact List.prefix_rfl
      · exact List.prefix_rfl
      · exact List.prefix_append ..

/-- An election in the history is an old one or won in this step. -/
theorem Move.elected_cases {C : Cluster} {w w' : World} {a : Action}
    (h : Move C w a w') {n : String} {term : Nat} {log : LogStore}
    (he : .elected n term log ∈ w'.history) :
    .elected n term log ∈ w.history ∨
      (a = .local n .becomeLeader ∧ n ∈ C.members
        ∧ (w.proc n).run = .becomeLeader term
        ∧ (w.core n).currentTerm = term ∧ (w.core n).state = .candidate
        ∧ log = (w.core n).log
        ∧ w'.core = Function.update w.core n (w.core n).lead) := by
  cases h with
  | quiet _ _ _ hevs hhist =>
      rw [hhist] at he
      rcases List.mem_append.mp he with he | he
      · obtain ⟨_, _, hx⟩ := hevs _ he
        cases hx
      · exact .inl he
  | elect hn hrun hterm hstate hcore _ hhist =>
      rw [hhist] at he
      rcases List.mem_cons.mp he with he | he
      · cases he
        exact .inr ⟨rfl, hn, hrun, hterm, hstate, rfl, hcore⟩
      · exact .inl he
  | campaign _ _ _ _ _ hhist | restart _ _ _ hhist =>
      rw [hhist] at he
      rcases List.mem_cons.mp he with he | he
      · cases he
      · exact .inl he
  | vote _ _ _ _ hhist =>
      rw [hhist] at he
      split at he
      · rcases List.mem_cons.mp he with he | he
        · cases he
        · exact .inl he
      · exact .inl he
  | timeout _ _ _ _ hhist | stepDown _ _ _ _ hhist | append _ _ _ _ _ hhist
  | heartbeat _ _ _ _ _ hhist | replicateSend _ _ _ _ _ _ _ hhist
  | deliver _ _ _ _ hhist => exact .inl (hhist ▸ he)

/-! ## Conditions on runs -/

def anyStep (_ : World) (_ : Action) : Prop := True

def noRestart (_ : World) : Action → Prop
  | .restart _ => False
  | _ => True

instance (w : World) (a : Action) : Decidable (anyStep w a) :=
  inferInstanceAs (Decidable True)

instance (w : World) : (a : Action) → Decidable (noRestart w a)
  | .restart _ => inferInstanceAs (Decidable False)
  | .local _ _ => inferInstanceAs (Decidable True)
  | .deliverVote _ => inferInstanceAs (Decidable True)
  | .deliverAppend _ => inferInstanceAs (Decidable True)
  | .crash _ => inferInstanceAs (Decidable True)

/-- A condition on the steps that processes take by themselves. -/
def onLocal (P : World → String → Local → Prop) (w : World) : Action → Prop
  | .local n l => P w n l
  | _ => True

instance (P : World → String → Local → Prop) [∀ w n l, Decidable (P w n l)]
    (w : World) : (a : Action) → Decidable (onLocal P w a)
  | .local n l => inferInstanceAs (Decidable (P w n l))
  | .deliverVote _ => inferInstanceAs (Decidable True)
  | .deliverAppend _ => inferInstanceAs (Decidable True)
  | .crash _ => inferInstanceAs (Decidable True)
  | .restart _ => inferInstanceAs (Decidable True)

/-- The smallest cluster with a majority that is not everyone. -/
def threeNodes : Cluster :=
  newCluster ["a", "b", "c"] true (by decide) (by decide)

end RaftStore
