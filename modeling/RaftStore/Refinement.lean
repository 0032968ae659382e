import RaftStore.Lib.LeaderComplete
import RaftStore.Pieces

/-!
# The cluster refines the leader-log protocol

`Lib.LeaderLog` is the protocol this code is meant to be: leaders own a
log for their term, nodes adopt pieces of it and remember how much they
acknowledged. `Refines` relates a state of the cluster to one of the
protocol, and `Refines.step` answers every step of the cluster with at
most one step of the protocol. It asks two things of a run: heartbeat
sections run while their node is Leader, and a process restarts only when
it has nothing to lose.

Log Matching is then a property of the protocol's invariant.
-/

namespace RaftStore

open Runs Quorum LeaderLog

/-! ## The relation -/

/-- The protocol over this code's ids and entries. -/
abbrev Spec := St String LogEntry

/-- Its quorums are the majorities of the cluster. -/
abbrev Cluster.quorum (C : Cluster) : Finset String → Prop :=
  IsMajority C.members

abbrev Cluster.specStep (C : Cluster) : Spec → Spec → Prop :=
  Step LogEntry.term C.quorum

abbrev Cluster.specInv (C : Cluster) : Spec → Prop :=
  Inv LogEntry.term C.quorum

structure NodesRefine (core : String → Core) (s : Spec) : Prop where
  cur : ∀ n, s.cur n = (core n).currentTerm
  log : ∀ n, s.log n = (core n).log.body

structure HistRefine (history : List Event) (s : Spec) : Prop where
  leader : ∀ n T log, .elected n T log ∈ history → s.leader T = some n
  won : ∀ T n, s.leader T = some n → ∃ log, .elected n T log ∈ history
  base : ∀ n T log, .elected n T log ∈ history → s.base T = log.body
  ballot : ∀ v args, Voted history v args →
    s.ballot v args.term args.lastLogTerm args.lastLogIndex
  voted : ∀ v T lt len, s.ballot v T lt len → ∃ args, Voted history v args

structure NetRefine (net : Net) (s : Spec) : Prop where
  calls : ∀ c ∈ net.appendCalls, s.leader c.args.term = some c.src
    ∧ (Piece (s.full c.args.term) c.args ∨ Hopeless c.args)
  answers : ∀ call (reply : AppendEntriesReply),
    (call, reply) ∈ net.appendAnswers →
      ∃ c, net.appendCalls[call]? = some c ∧ (reply.success = true →
        c.args.prevLogIndex + c.args.entries.length
          ≤ s.ack c.dst c.args.term)

structure Refines (w : World) (s : Spec) : Prop where
  nodes : NodesRefine w.core s
  hist : HistRefine w.history s
  net : NetRefine w.net s

theorem refines_init (C : Cluster) : Refines C.init St.init where
  nodes := ⟨fun _ => rfl, fun _ => rfl⟩
  hist :=
    { leader := fun _ _ _ h => by cases h
      won := fun _ _ h => by cases h
      base := fun _ _ _ h => by cases h
      ballot := fun _ _ h => absurd h not_voted_nil
      voted := fun _ _ _ _ h => h.elim }
  net :=
    { calls := fun _ h => by cases h
      answers := fun _ _ h => by cases h }

/-! ## How the parts move -/

section Parts

variable {s s' : Spec} {core : String → Core} {n : String} {c : Core}
  {history : List Event} {net : Net}

theorem NodesRefine.raise (h : NodesRefine core s)
    (hlog : c.log.body = (core n).log.body) :
    NodesRefine (Function.update core n c) (s.raise n c.currentTerm) where
  cur m := by
    by_cases hm : m = n
    · subst hm; simp [St.raise]
    · simp [St.raise, hm, h.cur m]
  log m := by
    by_cases hm : m = n
    · subst hm
      rw [Function.update_self, hlog]
      exact h.log m
    · rw [Function.update_of_ne hm]
      exact h.log m

theorem NodesRefine.same (h : NodesRefine core s)
    (hterm : c.currentTerm = (core n).currentTerm)
    (hlog : c.log.body = (core n).log.body) :
    NodesRefine (Function.update core n c) s where
  cur m := by
    by_cases hm : m = n
    · subst hm; rw [Function.update_self, hterm]; exact h.cur m
    · rw [Function.update_of_ne hm]; exact h.cur m
  log m := by
    by_cases hm : m = n
    · subst hm; rw [Function.update_self, hlog]; exact h.log m
    · rw [Function.update_of_ne hm]; exact h.log m

theorem NodesRefine.log_update (h : NodesRefine core s)
    (hcur : s'.cur = Function.update s.cur n c.currentTerm)
    (hlog : s'.log = Function.update s.log n c.log.body) :
    NodesRefine (Function.update core n c) s' where
  cur m := by
    rw [hcur]
    by_cases hm : m = n
    · subst hm; simp
    · simp [hm, h.cur m]
  log m := by
    rw [hlog]
    by_cases hm : m = n
    · subst hm; simp
    · simp [hm, h.log m]

theorem HistRefine.congr (h : HistRefine history s)
    (hleader : s'.leader = s.leader) (hbase : s'.base = s.base)
    (hballot : s'.ballot = s.ballot) : HistRefine history s' where
  leader n T log he := by rw [hleader]; exact h.leader n T log he
  won T n hl := h.won T n (hleader ▸ hl)
  base n T log he := by rw [hbase]; exact h.base n T log he
  ballot v args hv := by rw [hballot]; exact h.ballot v args hv
  voted v T lt len hb := h.voted v T lt len (hballot ▸ hb)

/-- Events that are neither votes nor wins do not matter. -/
theorem HistRefine.skip (h : HistRefine history s) {evs : List Event}
    (hvote : ∀ e ∈ evs, e.vote? = none)
    (hwin : ∀ n T log, .elected n T log ∉ evs) :
    HistRefine (evs ++ history) s where
  leader n T log he :=
    h.leader n T log ((List.mem_append.mp he).resolve_left (hwin n T log))
  won T n hl := (h.won T n hl).imp fun _ he => List.mem_append_right _ he
  base n T log he :=
    h.base n T log ((List.mem_append.mp he).resolve_left (hwin n T log))
  ballot v args hv := by
    refine h.ballot v args ((voted_append.mp hv).resolve_left ?_)
    rintro ⟨e, he, hsome⟩
    rw [hvote e he] at hsome
    cases hsome
  voted v T lt len hb :=
    (h.voted v T lt len hb).imp fun _ hv => voted_append.mpr (.inr hv)

theorem HistRefine.vote (h : HistRefine history s) {e : Event} {v : String}
    {args : RequestVoteArgs} (he : e.vote? = some (v, args)) :
    HistRefine (e :: history)
      (s.vote v args.term args.lastLogTerm args.lastLogIndex) where
  leader n T log hmem := by
    refine h.leader n T log ((List.mem_cons.mp hmem).resolve_left ?_)
    rintro rfl
    cases he
  won T n hl := (h.won T n hl).imp fun _ hmem => List.mem_cons_of_mem _ hmem
  base n T log hmem := by
    refine h.base n T log ((List.mem_cons.mp hmem).resolve_left ?_)
    rintro rfl
    cases he
  ballot v' args' hv := by
    rcases voted_cons.mp hv with heq | hv
    · cases he.symm.trans heq
      exact .inr ⟨rfl, rfl, rfl, rfl⟩
    · exact .inl (h.ballot v' args' hv)
  voted v' T lt len hb := by
    rcases hb with hb | ⟨rfl, -⟩
    · exact (h.voted v' T lt len hb).imp fun _ hv => voted_cons.mpr (.inr hv)
    · exact ⟨args, voted_cons.mpr (.inl he)⟩

theorem HistRefine.elect (h : HistRefine history s) {T : Nat} {log : LogStore}
    (hnone : s.leader T = none) (hlog : s.log n = log.body) :
    HistRefine (.elected n T log :: history) (s.elect n T) where
  leader m T' log' hmem := by
    rcases List.mem_cons.mp hmem with heq | hmem
    · cases heq
      exact St.elect_leader_self
    · have hold := h.leader m T' log' hmem
      rwa [St.elect_leader_of_ne fun hT => by rw [hT, hnone] at hold; cases hold]
  won T' m hl := by
    by_cases hT : T' = T
    · subst hT
      rw [St.elect_leader_self] at hl
      cases hl
      exact ⟨log, List.mem_cons_self ..⟩
    · rw [St.elect_leader_of_ne hT] at hl
      exact (h.won T' m hl).imp fun _ hmem => List.mem_cons_of_mem _ hmem
  base m T' log' hmem := by
    rcases List.mem_cons.mp hmem with heq | hmem
    · cases heq
      rw [St.elect_base_self, hlog]
    · have hold := h.leader m T' log' hmem
      rw [St.elect_base_of_ne fun hT => by rw [hT, hnone] at hold; cases hold]
      exact h.base m T' log' hmem
  ballot v args hv :=
    h.ballot v args ((voted_cons.mp hv).resolve_left fun heq => by cases heq)
  voted v T' lt len hb :=
    (h.voted v T' lt len hb).imp fun _ hv => voted_cons.mpr (.inr hv)

theorem NetRefine.grow (h : NetRefine net s) (g : Grow s s') :
    NetRefine net s' where
  calls c hc := by
    obtain ⟨hl, hp⟩ := h.calls c hc
    exact ⟨g.leader _ _ hl, hp.imp (fun hp => hp.mono (g.full _)) id⟩
  answers call reply hans := by
    obtain ⟨c, hc, hack⟩ := h.answers call reply hans
    exact ⟨c, hc, fun hs => Nat.le_trans (hack hs) (g.ack _ _)⟩

theorem NetRefine.send (h : NetRefine net s) {c : AppendCall}
    (hlead : s.leader c.args.term = some c.src)
    (hpiece : Piece (s.full c.args.term) c.args ∨ Hopeless c.args) :
    NetRefine { net with appendCalls := net.appendCalls ++ [c] } s where
  calls c' hc' := by
    rcases List.mem_append.mp hc' with hc' | hc'
    · exact h.calls c' hc'
    · cases List.mem_singleton.mp hc'
      exact ⟨hlead, hpiece⟩
  answers call reply hans := by
    obtain ⟨c', hc', hack⟩ := h.answers call reply hans
    exact ⟨c', prefix_getElem? (List.prefix_append ..) hc', hack⟩

theorem NetRefine.answer (h : NetRefine net s) {call : Nat} {c : AppendCall}
    {reply : AppendEntriesReply} (hcall : net.appendCalls[call]? = some c)
    (hack : reply.success = true →
      c.args.prevLogIndex + c.args.entries.length ≤ s.ack c.dst c.args.term) :
    NetRefine { net with
      appendAnswers := net.appendAnswers ++ [(call, reply)] } s where
  calls := h.calls
  answers call' reply' hans := by
    rcases List.mem_append.mp hans with hans | hans
    · exact h.answers call' reply' hans
    · cases List.mem_singleton.mp hans
      exact ⟨c, hcall, hack⟩

end Parts

theorem heartbeatArgs_piece {n : Node} {term : Nat}
    (h : n.log.WellFormed term) {peer : String}
    (hnext : 1 ≤ n.nextIndex peer) :
    Piece n.log.body (n.heartbeatArgs peer) ∨ Hopeless (n.heartbeatArgs peer) := by
  unfold Node.heartbeatArgs
  split
  · refine h.piece (m := n.log.body.length) rfl rfl ?_
    rw [List.take_of_length_le (by simp)]
    exact h.positional.entriesFrom_eq hnext
  · exact .inl ⟨Nat.zero_le _, by simp, fun hpos => absurd hpos (Nat.lt_irrefl 0)⟩

theorem replicateArgs_piece {n : Node} {term' : Nat}
    (h : n.log.WellFormed term') {peer : String} {entry : LogEntry}
    {term leaderCommit : Nat} (hnext : 1 ≤ n.nextIndex peer) :
    Piece n.log.body (n.replicateArgs peer entry term leaderCommit)
      ∨ Hopeless (n.replicateArgs peer entry term leaderCommit) :=
  h.piece rfl rfl (h.positional.slice_eq hnext _)

/-! ## Runs as the code intends them -/

/-- `sendHeartbeatToPeer`'s first section runs while the node is Leader. -/
def leaderHeartbeat : World → Action → Prop :=
  onLocal fun w n l => l.isHeartbeat = true → (w.proc n).node.state = .leader

instance (w : World) (a : Action) : Decidable (leaderHeartbeat w a) :=
  inferInstanceAs (Decidable (onLocal _ w a))

/-- What the refinement asks of a step. -/
def orderly (w : World) (a : Action) : Prop :=
  leaderHeartbeat w a ∧ blankRestart w a

instance (w : World) (a : Action) : Decidable (orderly w a) :=
  inferInstanceAs (Decidable (_ ∧ _))

/-- The invariants of the code that the refinement uses. -/
structure CodeInv (C : Cluster) (w : World) : Prop where
  static : Static C w
  vote : VoteInv C w
  elect : ElectInv C w
  lead : LeadInv C w
  log : LogInv w

theorem codeInv_of_reachable {C : Cluster} {w : World}
    (h : Reachable C.step blankRestart C.init w) : CodeInv C w where
  static := static_of_reachable h
  vote := voteInv_of_reachable h
  elect := electInv_of_reachable h
  lead := leadInv_of_reachable h
  log := logInv_of_reachable h

theorem LogStore.Positional.lastIndexAndTerm_eq {l : LogStore}
    (h : l.Positional) :
    l.lastIndexAndTerm = (l.body.length, lastTerm LogEntry.term l.body) := by
  refine Prod.ext h.lastIndexAndTerm_fst ?_
  rw [LogStore.lastIndexAndTerm, h.entries_eq, List.getLast?_cons, lastTerm]
  cases l.body.getLast? <;> rfl

section Step

variable {C : Cluster} {w w' : World} {a : Action} {s : Spec}

theorem Refines.won_iff (h : Refines w s) {n : String} {T : Nat} :
    Won w n T ↔ s.leader T = some n :=
  ⟨fun ⟨log, he⟩ => h.hist.leader n T log he, h.hist.won T n⟩

/-- A leader's log is the log of its term. -/
theorem Refines.leader_log (h : Refines w s) (hs : C.specInv s)
    (hcode : CodeInv C w) {n : String} (hstate : (w.core n).state = .leader) :
    s.leader (w.core n).currentTerm = some n
      ∧ (w.core n).log.body = s.full (w.core n).currentTerm := by
  have hlead := h.won_iff.mp (hcode.lead.leader n hstate)
  refine ⟨hlead, ?_⟩
  rw [← h.nodes.log n]
  exact hs.leader_log _ n hlead (h.nodes.cur n)

/-- No two nodes win a term, and none wins it twice. -/
theorem Refines.leader_none (h : Refines w s) (hcode : CodeInv C w) {n : String}
    {args : RequestVoteArgs} (hcamp : Campaign C w n args)
    (hback : Backed C w args) : s.leader args.term = none := by
  cases hl : s.leader args.term with
  | none => rfl
  | some m =>
      obtain ⟨log, he⟩ := h.hist.won _ _ hl
      obtain ⟨args', ht, hc, hback', -⟩ := hcode.elect.elected m _ log he
      have hm := hback.unique hcode.vote hcode.elect hback' ht.symm
      rw [hc, hcamp.candidate] at hm
      exact absurd (hm ▸ he) (hcamp.fresh log)

/-- The protocol's answer to winning an election. -/
theorem Refines.elect (h : Refines w s) (hs : C.specInv s)
    (hcode : CodeInv C w) {n : String} {T : Nat}
    (hrun : (w.proc n).run = .becomeLeader T)
    (hterm : (w.core n).currentTerm = T)
    (hstate : (w.core n).state = .candidate)
    (hcore : w'.core = Function.update w.core n (w.core n).lead)
    (hnet : w'.net = w.net)
    (hhist : w'.history = .elected n T (w.core n).log :: w.history) :
    C.specStep s (s.elect n T) ∧ Refines w' (s.elect n T) := by
  obtain ⟨args, hcamp, ht, hback⟩ := hcode.elect.winning n T hrun
  have hnone := h.leader_none hcode hcamp hback
  rw [ht] at hnone
  have hcur : s.cur n = T := (h.nodes.cur n).trans hterm
  obtain ⟨Q, hQ, -, hvoted⟩ := hback
  have hlast := hcamp.log hstate (hterm.trans ht.symm)
  rw [(hcode.log.logs n).positional.lastIndexAndTerm_eq, ← h.nodes.log n] at hlast
  obtain ⟨hlen, hlt⟩ := Prod.mk.inj hlast
  have hstep : C.specStep s (s.elect n T) := by
    refine .elect hcur hnone hQ ?_
    intro v hv
    rw [hlen, hlt, ← ht]
    exact h.hist.ballot v args (hvoted v hv)
  refine ⟨hstep, ?_, ?_, ?_⟩
  · have hnodes := h.nodes.same (n := n) (c := (w.core n).lead) rfl rfl
    rw [← hcore] at hnodes
    exact ⟨hnodes.cur, hnodes.log⟩
  · rw [hhist]
    exact h.hist.elect hnone (h.nodes.log n)
  · rw [hnet]
    exact h.net.grow (hstep.grow hs)

/-- The protocol's answer to a command appended by a leader. -/
theorem Refines.append (h : Refines w s) (hs : C.specInv s)
    (hcode : CodeInv C w) {n : String} {entry : LogEntry}
    (hstate : (w.core n).state = .leader)
    (hentry : entry.term = (w.core n).currentTerm)
    (hcore : w'.core = Function.update w.core n ((w.core n).push entry))
    (hnet : w'.net = w.net) (hhist : w'.history = w.history) :
    C.specStep s (s.append n (w.core n).currentTerm entry)
      ∧ Refines w' (s.append n (w.core n).currentTerm entry) := by
  have hlead := (h.leader_log hs hcode hstate).1
  have hstep : C.specStep s (s.append n (w.core n).currentTerm entry) :=
    .append (h.nodes.cur n) hlead hentry
  refine ⟨hstep, ?_, ?_, ?_⟩
  · rw [hcore]
    refine h.nodes.log_update ?_ ?_
    · show s.cur = Function.update s.cur n (w.core n).currentTerm
      rw [← h.nodes.cur n, Function.update_eq_self]
    · show Function.update s.log n (s.log n ++ [entry]) = _
      rw [h.nodes.log n]
      exact congrArg _ ((hcode.log.logs n).positional.body_append entry).symm
  · rw [hhist]
    exact h.hist.congr rfl rfl rfl
  · rw [hnet]
    exact h.net.grow (hstep.grow hs)

/-- The protocol's answer to an adopted term. -/
theorem Refines.raise (h : Refines w s) (hs : C.specInv s) {n : String}
    {c : Core} (hterm : (w.core n).currentTerm ≤ c.currentTerm)
    (hlog : c.log = (w.core n).log)
    (hcore : w'.core = Function.update w.core n c)
    (hhist : w'.history = w.history)
    (hnet : ∀ {s' : Spec}, Grow s s' → NetRefine w'.net s') :
    C.specStep s (s.raise n c.currentTerm)
      ∧ Refines w' (s.raise n c.currentTerm) := by
  have hstep : C.specStep s (s.raise n c.currentTerm) :=
    .raise ((h.nodes.cur n).symm ▸ hterm)
  refine ⟨hstep, ?_, ?_, hnet (hstep.grow hs)⟩
  · rw [hcore]
    exact h.nodes.raise (by rw [hlog])
  · rw [hhist]
    exact h.hist.congr rfl rfl rfl

/-- The protocol's answer to a vote. -/
theorem Refines.vote (h : Refines w s) (hs : C.specInv s)
    (hcode : CodeInv C w) {v : String} {args : RequestVoteArgs} {e : Event}
    {c : Core} (hvote : NewVote C w w' v args)
    (hcore : w'.core = Function.update w.core v c)
    (he : e.vote? = some (v, args)) (hhist : w'.history = e :: w.history)
    (hnet : w'.net.appendCalls = w.net.appendCalls
      ∧ w'.net.appendAnswers = w.net.appendAnswers) :
    C.specStep s (s.vote v args.term args.lastLogTerm args.lastLogIndex)
      ∧ Refines w'
        (s.vote v args.term args.lastLogTerm args.lastLogIndex) := by
  have hc : w'.core v = c := by rw [hcore, Function.update_self]
  have hup := hvote.upToDate
  rw [(hcode.log.logs v).positional.lastIndexAndTerm_eq, ← h.nodes.log v] at hup
  have hstep : C.specStep s
      (s.vote v args.term args.lastLogTerm args.lastLogIndex) :=
    .vote ((h.nodes.cur v).symm ▸ hvote.term_le)
      (hup.imp id fun hand => ⟨hand.1.symm, hand.2⟩)
  refine ⟨hstep, ?_, ?_, ?_⟩
  · have hnodes := h.nodes.raise (n := v) (c := c)
      (by rw [← hc, hvote.log'])
    rw [← hc, hvote.term', hc, ← hcore] at hnodes
    exact ⟨hnodes.cur, hnodes.log⟩
  · rw [hhist]
    exact h.hist.vote he
  · have hgrow := h.net.grow (hstep.grow hs)
    refine ⟨?_, ?_⟩
    · rw [hnet.1]; exact hgrow.calls
    · rw [hnet.1, hnet.2]; exact hgrow.answers

/-- The append loop on a log that passed the consistency check, in terms of
the log of the sender's term. -/
theorem Refines.installed (h : Refines w s) (hs : C.specInv s)
    (hcode : CodeInv C w) {call : Nat} {c : AppendCall}
    (hcall : w.net.appendCalls[call]? = some c)
    (hprev : (w.core c.dst).log.matchesPrev c.args = true) :
    c.args.prevLogIndex + c.args.entries.length
        ≤ (s.full c.args.term).length
      ∧ (s.full c.args.term).take
          (c.args.prevLogIndex + c.args.entries.length)
        <+: ((w.core c.dst).log.installAll c.args.entries).body
      ∧ (∀ x, x <+: (w.core c.dst).log.body → x <+: s.full c.args.term →
        x <+: ((w.core c.dst).log.installAll c.args.entries).body)
      ∧ (((w.core c.dst).log.installAll c.args.entries).body
          <+: (w.core c.dst).log.body
        ∨ ((w.core c.dst).log.installAll c.args.entries).body
          <+: s.full c.args.term)
      ∧ ((w.core c.dst).log.body ≠ [] →
        ((w.core c.dst).log.installAll c.args.entries).body ≠ []) := by
  have hmem := List.mem_of_getElem? hcall
  have hwf := hcode.log.logs c.dst
  have hpiece : Piece (s.full c.args.term) c.args := by
    rcases (h.net.calls c hmem).2 with hp | hhope
    · exact hp
    · exact absurd ((hhope.rejected hwf).symm.trans hprev) (by simp)
  have hroot := hs.rooted c.dst
  rw [h.nodes.log c.dst] at hroot
  exact ⟨hpiece.length, hpiece.install hwf.positional
    (hcode.log.calls c hmem).indexed
    (matching_of_rooted hroot (hs.rooted_full _)) hprev⟩

/-- The protocol's answer to an accepted AppendEntries. -/
theorem Refines.accept (h : Refines w s) (hs : C.specInv s)
    (hcode : CodeInv C w) {call : Nat} {c : AppendCall} {n' : Node}
    {reply : AppendEntriesReply}
    (hcall : w.net.appendCalls[call]? = some c)
    (hterm : (w.proc c.dst).node.currentTerm ≤ c.args.term)
    (hn' : n' = (w.proc c.dst).node.observeLeader c.args)
    (hprev : n'.log.matchesPrev c.args = true)
    (hcore : w'.core
      = Function.update w.core c.dst (n'.acceptEntries c.args).core)
    (hnet : w'.net = { w.net with
      appendAnswers := w.net.appendAnswers ++ [(call, reply)] })
    (hhist : w'.history = w.history) :
    ∃ s', C.specStep s s' ∧ Refines w' s' := by
  obtain ⟨hcur, hlog, -⟩ := (w.proc c.dst).node.observeLeader_spec hterm
  rw [← hn'] at hcur hlog
  rw [hlog] at hprev
  have hmem := List.mem_of_getElem? hcall
  have hlead := (h.net.calls c hmem).1
  obtain ⟨hsrc, hdst⟩ := hcode.static.appendCalls c hmem
  obtain ⟨hlen, hpre, hkeep, hfrom, hne⟩ := h.installed hs hcode hcall hprev
  rw [← h.nodes.log c.dst] at hkeep hfrom hne
  have hstep : C.specStep s (s.accept c.dst c.args.term
      (c.args.prevLogIndex + c.args.entries.length)
      ((w.core c.dst).log.installAll c.args.entries).body) := by
    refine .accept ((h.nodes.cur c.dst).symm ▸ hterm) (by rw [hlead]; simp) ?_
      hlen hpre hkeep hfrom hne
    rw [hlead]
    intro heq
    exact ((C.mem_peers _ hsrc _).mp hdst).2 (Option.some.inj heq).symm
  refine ⟨_, hstep, ?_, ?_, ?_⟩
  · rw [hcore]
    refine h.nodes.log_update ?_ ?_
    · show Function.update s.cur c.dst c.args.term
        = Function.update s.cur c.dst n'.currentTerm
      rw [hcur]
    · show Function.update s.log c.dst _
        = Function.update s.log c.dst (n'.log.installAll c.args.entries).body
      rw [hlog]
      rfl
  · rw [hhist]
    exact h.hist.congr rfl rfl rfl
  · rw [hnet]
    refine (h.net.grow (hstep.grow hs)).answer hcall ?_
    intro _
    show _ ≤ s.ackUpTo _ _ _ _ _
    rw [St.ackUpTo_self]
    exact Nat.le_max_right ..

/-- A step of the protocol, or none. -/
theorem Refines.stutter {s s' : Spec} (h : Refines w' s') (heq : s' = s) :
    ∃ s', (s' = s ∨ C.specStep s s') ∧ Refines w' s' :=
  ⟨s', .inl heq, h⟩

theorem Refines.answered {s s' : Spec}
    (h : C.specStep s s' ∧ Refines w' s') :
    ∃ s', (s' = s ∨ C.specStep s s') ∧ Refines w' s' :=
  ⟨s', .inr h.1, h.2⟩

theorem Refines.silent (h : Refines w s) (hcore : w'.core = w.core)
    (hhist : w'.history = w.history) (hnet : NetRefine w'.net s) :
    Refines w' s :=
  ⟨hcore ▸ h.nodes, hhist ▸ h.hist, hnet⟩

/-- A restart that loses nothing. -/
theorem Refines.reset (h : Refines w s) (hs : C.specInv s)
    (hcode : CodeInv C w) {n : String} (hok : blankRestart w (.restart n))
    (hcore : w'.core = Function.update w.core n (newNode n (C.peers n)).core)
    (hnet : w'.net = w.net) (hhist : w'.history = .restarted n :: w.history) :
    C.specStep s (s.raise n 0) ∧ Refines w' (s.raise n 0) := by
  have hbody : (w.proc n).node.log.body = [] := by rw [LogStore.body, hok.2]; rfl
  have hlog : s.log n = [] := (h.nodes.log n).trans hbody
  have hstep : C.specStep s (s.raise n 0) := by
    refine .reset hlog ?_ ?_
    · intro T hl
      obtain ⟨-, args, -, -, hvoted⟩ := Won.voted hcode.elect (h.won_iff.mpr hl)
      exact hok.not_voted hvoted
    · intro T lt len hb
      obtain ⟨args, hvoted⟩ := h.hist.voted n T lt len hb
      exact hok.not_voted hvoted
  refine ⟨hstep, ?_, ?_, ?_⟩
  · rw [hcore]
    exact h.nodes.raise hbody.symm
  · rw [hhist]
    have hskip : HistRefine ([.restarted n] ++ w.history) s :=
      h.hist.skip (by simp [Event.vote?]) (by simp)
    exact hskip.congr rfl rfl rfl
  · rw [hnet]
    exact h.net.grow (hstep.grow hs)

/-- Every step of an orderly run is at most one step of the protocol. -/
theorem Refines.step (h : Refines w s) (hs : C.specInv s)
    (hcode : CodeInv C w) (hok : orderly w a)
    (hstep : C.step w a = some w') :
    ∃ s', (s' = s ∨ C.specStep s s') ∧ Refines w' s' := by
  cases C.move hcode.static hstep with
  | quiet _ hcore hnet hevs hhist =>
      refine Refines.stutter ⟨hcore ▸ h.nodes, ?_, hnet ▸ h.net⟩ rfl
      rw [hhist]
      refine h.hist.skip ?_ ?_
      · intro e he
        obtain ⟨_, _, rfl⟩ := hevs e he
        rfl
      · intro n T log he
        obtain ⟨_, _, hx⟩ := hevs _ he
        cases hx
  | timeout _ _ hcore hnet hhist =>
      refine Refines.stutter ⟨?_, hhist ▸ h.hist, hnet ▸ h.net⟩ rfl
      rw [hcore]
      exact h.nodes.same rfl rfl
  | @stepDown n term _ _ _ hcore hnet hhist =>
      refine Refines.answered (h.raise hs ?_ ?_ hcore hhist ?_)
      · exact (Node.keeps_becomeFollower term).term
      · exact Node.becomeFollower_log ..
      · intro _ g
        rw [hnet]
        exact h.net.grow g
  | @campaign n args _ hn _ hargs hcore hnet hhist =>
      have hvote := newVote_campaign (hcode.static.id n) hn hcore
      rw [← hargs] at hvote
      exact Refines.answered (h.vote hs hcode hvote hcore rfl hhist
        ⟨by rw [hnet], by rw [hnet]⟩)
  | elect _ hrun hterm hstate hcore hnet hhist =>
      exact Refines.answered (h.elect hs hcode hrun hterm hstate hcore hnet hhist)
  | append _ hstate hentry hcore hnet hhist =>
      exact Refines.answered
        (h.append hs hcode hstate (by rw [hentry]; rfl) hcore hnet hhist)
  | @heartbeat n peer _ _ _ _ hrun hpeer hcore hnet hhist =>
      have hstate : (w.core n).state = .leader := hok.1 rfl
      obtain ⟨hlead, hlog⟩ := h.leader_log hs hcode hstate
      refine Refines.stutter (h.silent hcore hhist ?_) rfl
      rw [hnet]
      refine h.net.send ?_ ?_
      · rw [heartbeatArgs_term]; exact hlead
      · rw [heartbeatArgs_term]
        obtain ⟨term, hwon⟩ := hcode.lead.led n (by rw [hrun]; rfl)
        have hpiece := heartbeatArgs_piece (hcode.log.logs n)
          (hcode.lead.next n term hwon peer hpeer)
        rwa [show (w.proc n).node.log.body = s.full (w.core n).currentTerm
          from hlog] at hpiece
  | @replicateSend n peer _ _ c _ _ hcall hpeer hterm hstate hcore hnet hhist =>
      obtain ⟨hlead, hlog⟩ := h.leader_log hs hcode hstate
      refine Refines.stutter (h.silent hcore hhist ?_) rfl
      rw [hnet]
      rw [hterm] at hlead hlog
      refine h.net.send hlead ?_
      obtain ⟨term, hwon⟩ := hcode.lead.calls n fun hnil => by
        rw [hnil] at hcall
        cases hcall
      show Piece (s.full c.term) _ ∨ Hopeless _
      rw [← hlog]
      exact replicateArgs_piece (hcode.log.logs n)
        (hcode.lead.next n term hwon peer hpeer)
  | @vote call c node reply _ hcall hout hcore hnet hhist =>
      cases hg : reply.voteGranted with
      | true =>
          obtain ⟨hsrc, -, hid, hpos⟩ :=
            hcode.static.voteCalls c (List.mem_of_getElem? hcall)
          rw [hg, if_pos rfl] at hhist
          exact Refines.answered (h.vote hs hcode
            (newVote_granted (hid ▸ hsrc) hpos hout hcore hg) hcore rfl hhist
            ⟨by rw [hnet], by rw [hnet]⟩)
      | false =>
          rw [hg] at hhist
          refine Refines.answered (h.raise hs hout.keeps.term hout.log hcore
            hhist ?_)
          intro _ g
          rw [hnet]
          exact ⟨(h.net.grow g).calls, (h.net.grow g).answers⟩
  | @deliver call c node reply _ _ hcall hout hcore hnet hhist =>
      have hkeeps := hout.keeps
      -- a reply without success only moves the term
      have hterm : node.log = (w.proc c.dst).node.log → reply.success = false →
          ∃ s', (s' = s ∨ C.specStep s s') ∧ Refines w' s' := by
        intro hlog hfail
        refine Refines.answered (h.raise hs hkeeps.term hlog hcore hhist
          ?_)
        intro _ g
        rw [hnet]
        exact (h.net.grow g).answer hcall fun hsucc => by
          rw [hfail] at hsucc
          cases hsucc
      cases hout with
      | stale => exact hterm rfl rfl
      | rejected hle hn' =>
          obtain ⟨-, hlog, -⟩ := (w.proc c.dst).node.observeLeader_spec hle
          exact hterm (hn' ▸ hlog) rfl
      | accepted hle hn' hprev =>
          obtain ⟨s', hss', hR⟩ :=
            h.accept hs hcode hcall hle hn' hprev hcore hnet hhist
          exact ⟨s', .inr hss', hR⟩
  | restart _ hcore hnet hhist =>
      exact Refines.answered (h.reset hs hcode hok.2 hcore hnet hhist)

end Step

/-! ## Along a run -/

/-- A state of the cluster with the protocol state behind it. -/
structure Abstracts (C : Cluster) (w : World) (s : Spec) : Prop where
  code : CodeInv C w
  spec : C.specInv s
  refines : Refines w s

/-- The invariant rule over both levels: a property of the run so far and
the protocol state may use that the protocol state only grows. -/
theorem run_abstracts {C : Cluster} {ok : World → Action → Prop}
    (hok : ∀ w a, ok w a → orderly w a) {Q : List World → World → Spec → Prop}
    (h0 : Q [] C.init St.init)
    (hs : ∀ past w a w' s s', Abstracts C w s → Abstracts C w' s' → Grow s s' →
      Q past w s → ok w a → C.step w a = some w' → Q (w :: past) w' s')
    {past : List World} {w : World} (h : Run C.step ok C.init past w) :
    ∃ s, Abstracts C w s ∧ Q past w s := by
  have hcode {past w} (hr : Run C.step ok C.init past w) : CodeInv C w :=
    codeInv_of_reachable (hr.reachable.mono fun _ _ ha => (hok _ _ ha).2)
  induction h with
  | init => exact ⟨St.init, ⟨hcode .init, inv_init, refines_init C⟩, h0⟩
  | step run ha hstep ih =>
      obtain ⟨s, habs, hQ⟩ := ih
      obtain ⟨s', hspec, hR'⟩ :=
        habs.refines.step habs.spec habs.code (hok _ _ ha) hstep
      have hg : Grow s s' := by
        rcases hspec with rfl | hspec
        · exact .refl _
        · exact hspec.grow habs.spec
      have hspec' : C.specInv s' := by
        rcases hspec with rfl | hspec
        · exact habs.spec
        · exact hspec.inv habs.spec
      have habs' : Abstracts C _ s' := ⟨hcode (run.step ha hstep), hspec', hR'⟩
      exact ⟨s', habs', hs _ _ _ _ _ _ habs habs' hg hQ ha hstep⟩

theorem abstracts_of_reachable {C : Cluster} {w : World}
    (h : Reachable C.step orderly C.init w) : ∃ s, Abstracts C w s := by
  obtain ⟨past, hr⟩ := h
  obtain ⟨s, habs, -⟩ := run_abstracts (fun _ _ ha => ha)
    (Q := fun _ _ _ => True) trivial (fun _ _ _ _ _ _ _ _ _ _ _ _ => trivial) hr
  exact ⟨s, habs⟩

/-! ## Log Matching -/

/-- Runs without restarts whose heartbeats are sent by leaders. -/
def asIntended (w : World) (a : Action) : Prop :=
  leaderHeartbeat w a ∧ noRestart w a

instance (w : World) (a : Action) : Decidable (asIntended w a) :=
  inferInstanceAs (Decidable (_ ∧ _))

theorem asIntended.orderly {w : World} {a : Action} (h : asIntended w a) :
    orderly w a :=
  ⟨h.1, h.2.blank⟩

/-- Log Matching: two logs that have an entry of the same index and term
are identical up to it. -/
theorem log_matching {C : Cluster} {w : World}
    (h : Reachable C.step asIntended C.init w) {n m : String} {e e' : LogEntry}
    (he : e ∈ (w.proc n).node.log.entries)
    (he' : e' ∈ (w.proc m).node.log.entries)
    (hindex : e.index = e'.index) (hterm : e.term = e'.term) :
    ∀ i, i ≤ e.index →
      (w.proc n).node.log.entryAt i = (w.proc m).node.log.entryAt i := by
  obtain ⟨s, hcode, hs, hR⟩ :=
    abstracts_of_reachable (h.mono fun _ _ => asIntended.orderly)
  have hlog := hcode.log.logs
  have hn : (w.proc n).node.log.Positional := (hlog n).positional
  have hm : (w.proc m).node.log.Positional := (hlog m).positional
  -- an entry of a positional log stands at its index
  have hat : ∀ {l : LogStore} {x : LogEntry}, l.Positional → x ∈ l.entries →
      l.entries[x.index]? = some x := by
    intro l x hl hx
    obtain ⟨k, hk⟩ := List.mem_iff_getElem?.mp hx
    have hk' : x.index = k := by simpa using hl.index k x hk
    rwa [hk']
  have hx := hat hn he
  have hx' := hat hm he'
  rw [← hindex] at hx'
  intro i hi
  rw [hn.entryAt_eq, hm.entryAt_eq, hn.entries_eq, hm.entries_eq]
  rw [hn.entries_eq] at hx
  rw [hm.entries_eq] at hx'
  cases i with
  | zero => rfl
  | succ i =>
      obtain ⟨k, hk⟩ : ∃ k, e.index = k + 1 := ⟨e.index - 1, by omega⟩
      rw [hk, List.getElem?_cons_succ] at hx hx'
      have hroot := hs.rooted n
      have hroot' := hs.rooted m
      rw [hR.nodes.log] at hroot hroot'
      have htake := hroot.take_eq hroot' hx hx' hterm
      have hget := congrArg (·[i]?) htake
      simp only [List.getElem?_take, if_pos (show i < k + 1 by omega)] at hget
      exact hget

/-- `a` leads term 1, appends an entry and sends it to `b`. -/
def replicateRun : List Action :=
  electRun ++ [.local "a" (.replicate [7]), .local "a" (.replicateSend 0 0),
    .deliverAppend 0]

theorem log_matching_a_b :
    ∃ w, Reachable threeNodes.step asIntended threeNodes.init w
      ∧ ⟨1, 1, [7]⟩ ∈ (w.proc "a").node.log.entries
      ∧ ⟨1, 1, [7]⟩ ∈ (w.proc "b").node.log.entries
      ∧ (w.proc "a").node.log.entryAt 1 = (w.proc "b").node.log.entryAt 1 := by
  obtain ⟨w, hr, ha, hb⟩ : ∃ w,
      Reachable threeNodes.step asIntended threeNodes.init w
        ∧ ⟨1, 1, [7]⟩ ∈ (w.proc "a").node.log.entries
        ∧ ⟨1, 1, [7]⟩ ∈ (w.proc "b").node.log.entries :=
    Reachable.of_exec_any replicateRun (by decide +kernel)
  exact ⟨w, hr, ha, hb, log_matching hr ha hb rfl rfl 1 (Nat.le_refl 1)⟩

end RaftStore
