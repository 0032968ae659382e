import RaftStore.Commands

/-!
# What a leader counts

`advanceCommitIndex` counts the peers whose `matchIndex` has reached an
index. That is a majority of replicas as long as `matchIndex` is about
the term the leader is in: a peer with `matchIndex = m` has then taken
over the first `m` entries of that leader (`MatchInv`), and what a node
acknowledged it has held in some state of the run (`Held`).

The success branches of both senders write `matchIndex` whatever the
node has become since it sent the request, so a reply from an earlier
leadership can end up in the books of a later one. Runs without this
(`ownTermReply`) commit only what a majority has held
(`commit_backed_by_majority`); with it, they do not (`phantom_replica`).
-/

namespace RaftStore

open Runs Quorum LeaderLog

/-! ## The loop of `advanceCommitIndex` -/

theorem foldl_last {p : Nat → Bool} (l : List Nat) (init : Nat) :
    l.foldl (fun last i => if p i then i else last) init = init
      ∨ p (l.foldl (fun last i => if p i then i else last) init) = true := by
  induction l generalizing init with
  | nil => exact .inl rfl
  | cons i l ih =>
      rw [List.foldl_cons]
      by_cases hi : p i = true
      · rw [if_pos hi]
        rcases ih i with heq | hp
        · rw [heq]; exact .inr hi
        · exact .inr hp
      · rw [if_neg hi]
        exact ih init

theorem Node.lastCommittable_spec (n : Node) :
    n.lastCommittable = n.commitIndex ∨ n.committable n.lastCommittable = true :=
  foldl_last ..

/-- `committable` reads the core and `matchIndex` only. -/
theorem Node.committable_congr {n n' : Node} (hcore : n'.core = n.core)
    (hmatch : n'.matchIndex = n.matchIndex) (i : Nat) :
    n'.committable i = n.committable i := by
  have hlog : n'.log = n.log := congrArg Core.log hcore
  have hterm : n'.currentTerm = n.currentTerm := congrArg Core.currentTerm hcore
  have hpeers : n'.peers = n.peers := congrArg Core.peers hcore
  unfold Node.committable Node.replicaCount Node.majority
  rw [hlog, hterm, hpeers, hmatch]

/-- Where the success branch of the heartbeat leaves `commitIndex`. -/
theorem Node.heartbeatSuccess_commit {n n' : Node} {peer : String} {m : Nat}
    (hcore : n'.core = n.core) (hbook : n'.book = (n.heartbeatSuccess peer m).book) :
    n'.commitIndex = n.commitIndex ∨ n'.committable n'.commitIndex = true := by
  have hcommit : n'.commitIndex = (n.heartbeatSuccess peer m).commitIndex :=
    congrArg Book.commitIndex hbook
  rw [Node.committable_congr (hcore.trans (n.heartbeatSuccess_core peer m).symm)
    (congrArg Book.matchIndex hbook), hcommit]
  unfold Node.heartbeatSuccess
  split
  · exact Node.lastCommittable_spec _
  · exact n.lastCommittable_spec

/-! ## Replies of the own term -/

/-- The term of the request whose success the step digests. -/
def Proc.digestedTerm (net : Net) (p : Proc) : Local → Option Nat
  | .heartbeatReply k j =>
      match p.run, net.appendAnswers[j]? with
      | .heartbeats ws, some (_, reply) =>
          match ws[k]? with
          | some (.awaiting _ args) =>
              if reply.success ∧ args.entries ≠ [] then some args.term else none
          | _ => none
      | _, _ => none
  | .replicateReply r _ j =>
      match p.replicates[r]?, net.appendAnswers[j]? with
      | some c, some (_, reply) => if reply.success then some c.term else none
      | _, _ => none
  | _ => none

theorem Proc.digestedTerm_heartbeat {net : Net} {p : Proc} {k j call call' : Nat}
    {ws : List Heartbeat} {args : AppendEntriesArgs} {reply : AppendEntriesReply}
    (hrun : p.run = .heartbeats ws) (hws : ws[k]? = some (.awaiting call args))
    (hans : net.appendAnswers[j]? = some (call', reply))
    (hentries : args.entries ≠ []) (hsuccess : reply.success = true) :
    p.digestedTerm net (.heartbeatReply k j) = some args.term := by
  simp [digestedTerm, hrun, hws, hans, hentries, hsuccess]

theorem Proc.digestedTerm_replicate {net : Net} {p : Proc} {r k j call : Nat}
    {c : ReplicateCall} {reply : AppendEntriesReply}
    (hcall : p.replicates[r]? = some c)
    (hans : net.appendAnswers[j]? = some (call, reply))
    (hsuccess : reply.success = true) :
    p.digestedTerm net (.replicateReply r k j) = some c.term := by
  simp [digestedTerm, hcall, hans, hsuccess]

/-- A leader digests a success only in the term of the request. -/
def ownTermReply : World → Action → Prop :=
  onLocal fun w n l => (w.proc n).node.state = .leader →
    ∀ term ∈ (w.proc n).digestedTerm w.net l,
      term = (w.proc n).node.currentTerm

instance (w : World) (a : Action) : Decidable (ownTermReply w a) :=
  inferInstanceAs (Decidable (onLocal _ w a))

/-- Runs as the code intends them, without late replies. -/
def countedSoundly (w : World) (a : Action) : Prop :=
  asIntended w a ∧ ownTermReply w a

instance (w : World) (a : Action) : Decidable (countedSoundly w a) :=
  inferInstanceAs (Decidable (_ ∧ _))

/-! ## Requests of heartbeats -/

/-- A heartbeat goroutine waits for the answer to the request it made. -/
def BeatInv (C : Cluster) (w : World) : Prop :=
  ∀ n ws (k : Nat) call args peer, (w.proc n).run = .heartbeats ws →
    ws[k]? = some (.awaiting call args) → (C.peers n)[k]? = some peer →
      w.net.appendCalls[call]? = some ⟨n, peer, args⟩

section Step

variable {C : Cluster} {w w' : World} {a : Action} {s s' : Spec} {n : String}

theorem BeatInv.step (h : BeatInv C w) (hw : Static C w)
    (hstep : C.step w a = some w') : BeatInv C w' := by
  intro n ws k call args peer hrun hws hpeer
  have hgrow := (C.move hw hstep).grows.appendCalls
  obtain ⟨out, hmove, hout⟩ := C.run_step hstep n
  cases hmove with
  | same hloc =>
      exact prefix_getElem? hgrow
        (h n ws k call args peer (hloc.symm.trans hrun) hws hpeer)
  | away hplain => rw [hrun] at hplain; cases hplain
  | spawn _ hloc =>
      cases hloc.symm.trans hrun
      obtain ⟨_, -, hlock⟩ := List.mem_map.mp (List.mem_of_getElem? hws)
      cases hlock
  | @beat ws₀ k₀ hb hrun₀ hcall hloc =>
      cases hloc.symm.trans hrun
      by_cases hk : k₀ = k
      · subst hk
        have hlt := lt_length_of_getElem? hws
        rw [List.getElem?_set_self (by simpa using hlt)] at hws
        obtain ⟨rfl, peer', hpeer', hcalls⟩ := hcall call args (Option.some.inj hws)
        have hpeers : (w.proc n).node.peers = C.peers n := hw.peers n
        have hid : (w.proc n).node.id = n := hw.id n
        rw [hpeers, hpeer] at hpeer'
        cases hpeer'
        rcases hout with rfl | ⟨-, hw'⟩
        · cases hcalls
        · rw [hw']
          simp [World.commit, hcalls, hid]
      · rw [List.getElem?_set_ne hk] at hws
        exact prefix_getElem? hgrow (h n ws₀ k call args peer hrun₀ hws hpeer)
  | campaign _ _ _ _ hloc | counted _ _ _ hloc | won _ _ _ _ _ hloc
  | lead _ hloc | joined _ hloc => cases hloc.symm.trans hrun

/-- A success that a heartbeat goroutine received is an acknowledgement. -/
theorem BeatInv.of_answer (h : BeatInv C w) (hR : Refines w s)
    {ws : List Heartbeat} {k call : Nat} {args : AppendEntriesArgs}
    {reply : AppendEntriesReply} {peer : String}
    (hrun : (w.proc n).run = .heartbeats ws)
    (hws : ws[k]? = some (.awaiting call args))
    (hans : (call, reply) ∈ w.net.appendAnswers)
    (hsuccess : reply.success = true) (hpeer : (C.peers n)[k]? = some peer) :
    args.prevLogIndex + args.entries.length ≤ s.ack peer args.term := by
  have hcall := h n ws k call args peer hrun hws hpeer
  obtain ⟨c, hc, hack⟩ := hR.net.answers call reply hans
  rw [hcall] at hc
  cases hc
  exact hack hsuccess

/-! ## `matchIndex` -/

/-- A leader's `matchIndex` is about its own term. -/
def MatchInv (C : Cluster) (w : World) (s : Spec) : Prop :=
  ∀ n, (w.core n).state = .leader → ∀ peer ∈ C.peers n,
    (w.proc n).node.matchIndex peer ≤ s.ack peer (w.core n).currentTerm

/-- Taking note of `m` for `peer'` where it is larger. -/
theorem le_of_update {f : String → Nat} {peer peer' : String} {m b : Nat}
    (hold : f peer ≤ b) (hnew : peer = peer' → m ≤ b) :
    Function.update f peer' m peer ≤ b := by
  by_cases hp : peer = peer'
  · subst hp
    rw [Function.update_self]
    exact hnew rfl
  · rwa [Function.update_of_ne hp]

/-- The steps of a process that was leader of the same term before. -/
theorem MatchInv.book_step (hinv : MatchInv C w s) (habs : Abstracts C w s)
    (hbeat : BeatInv C w) (hcalls : CallInv C w s) {l : Local}
    (hn : n ∈ C.members) (hok : ownTermReply w (.local n l))
    (hmove : BookMove w.net (w.proc n) (w'.proc n) l)
    (hstate : (w.core n).state = .leader) {peer : String}
    (hpeer : peer ∈ C.peers n) :
    (w'.proc n).node.matchIndex peer
      ≤ s.ack peer (w.core n).currentTerm := by
  have hold := hinv n hstate peer hpeer
  have hpeers : (w.proc n).node.peers = C.peers n := habs.code.static.peers n
  have hof : ∀ {node : Node}, (w'.proc n).node.book = node.book →
      node.matchIndex peer ≤ s.ack peer (w.core n).currentTerm →
      (w'.proc n).node.matchIndex peer
        ≤ s.ack peer (w.core n).currentTerm := by
    intro node hbook hle
    have hmatch : (w'.proc n).node.matchIndex = node.matchIndex :=
      congrArg Book.matchIndex hbook
    rwa [hmatch]
  cases hmove with
  | same hbook => exact hof hbook hold
  | elect _ hwins =>
      have hcand : (w.proc n).node.state = .candidate := by
        simp only [Node.wins, Bool.and_eq_true, decide_eq_true_eq] at hwins
        exact hwins.2
      cases hcand.symm.trans hstate
  | append _ hnode =>
      rw [hnode]
      have hid : (w.proc n).node.id = n := habs.code.static.id n
      refine le_of_update hold ?_
      intro hp
      exact absurd (hp.trans hid) ((C.mem_peers n hn peer).mp hpeer).2
  | @heartbeatSuccess k j call ws peer' args reply hrun hws hpeer' hans _
      hentries hsuccess hbook =>
      have hterm : args.term = (w.core n).currentTerm := hok hstate _
        (Proc.digestedTerm_heartbeat hrun hws hans hentries hsuccess)
      rw [hpeers] at hpeer'
      have hack := hbeat.of_answer habs.refines hrun hws
        (List.mem_of_getElem? hans) hsuccess hpeer'
      rw [hterm] at hack
      refine hof hbook ?_
      unfold Node.heartbeatSuccess
      split
      · exact le_of_update hold fun hp => hp ▸ hack
      · exact hold
  | lower hbook =>
      refine hof hbook ?_
      unfold Node.lowerNext
      split <;> exact hold
  | @replicateSuccess r k j call c peer' args reply hcall hworker hpeer' hans _
      hsuccess hnode =>
      have hterm : c.term = (w.core n).currentTerm := hok hstate _
        (Proc.digestedTerm_replicate hcall hans hsuccess)
      rw [hpeers] at hpeer'
      have hack := (hcalls.calls n c (List.mem_of_getElem? hcall)).of_answer
        habs.refines hworker (List.mem_of_getElem? hans) hsuccess hpeer'
      rw [hterm] at hack
      rw [hnode]
      unfold Node.replicateSuccess
      simp only
      split
      · exact le_of_update hold fun hp => hp ▸ hack
      · exact hold
  | commit _ _ hnode =>
      rw [hnode, Node.commitEntry]
      split <;> exact hold
  | claim _ hnode => rw [hnode]; exact hold

theorem MatchInv.step (hinv : MatchInv C w s) (habs : Abstracts C w s)
    (hbeat : BeatInv C w) (hcalls : CallInv C w s) (g : Grow s s')
    (hok : ownTermReply w a) (hstep : C.step w a = some w') :
    MatchInv C w' s' := by
  intro n hstate' peer hpeer
  have hmove := C.move habs.code.static hstep
  rcases hmove.leader_back habs.code.lead hstate' with
    ⟨rfl, hcand, -⟩ | ⟨hstate, hterm⟩
  · -- a new leader starts from zero
    obtain ⟨term, hwins, hnode⟩ :=
      win_node hstep (fun hs => by cases hcand.symm.trans hs) hstate'
    have hpeers : (w.proc n).node.peers = C.peers n := habs.code.static.peers n
    rw [hnode, Node.becomeLeader, if_pos hwins]
    simp [hpeers, hpeer]
  rw [hterm]
  refine Nat.le_trans ?_ (g.ack peer _)
  have hold := hinv n hstate peer hpeer
  have hof : (w'.proc n).node.matchIndex = (w.proc n).node.matchIndex →
      (w'.proc n).node.matchIndex peer
        ≤ s.ack peer (w.core n).currentTerm := by
    intro hmatch
    rwa [hmatch]
  cases C.proc_step hstep n with
  | own hn hlocal =>
      exact hinv.book_step habs hbeat hcalls hn hok (book_move hlocal) hstate hpeer
  | voted _ _ hout hproc =>
      refine hof ?_
      rw [hproc]
      exact congrArg Book.matchIndex hout.book
  | appended _ _ hout hp hproc =>
      refine hof ?_
      rw [hproc, hp]
      split <;> exact hout.book.2.1
  | restarted hproc => rw [World.core, hproc] at hstate'; cases hstate'
  | idle hproc => exact hof (by rw [hproc])

/-- What the commit rule accepts on a leader is an entry of its term. -/
theorem committable_entry (habs : Abstracts C w s)
    (hstate : (w.core n).state = .leader) {i : Nat}
    (hcom : (w.proc n).node.committable i = true) :
    0 < i ∧ ∃ entry, (w.proc n).node.log.entryAt i = some entry
      ∧ entry.term = (w.core n).currentTerm
      ∧ (w.proc n).node.majority ≤ (w.proc n).node.replicaCount i := by
  have hlog : (w.proc n).node.log.Positional := (habs.code.log.logs n).positional
  unfold Node.committable at hcom
  split at hcom
  · rename_i entry hentry
    simp only [Bool.and_eq_true, decide_eq_true_eq] at hcom
    obtain ⟨hterm, hmaj⟩ := hcom
    refine ⟨Nat.pos_of_ne_zero ?_, entry, hentry, hterm, hmaj⟩
    intro hi
    -- the sentinel has term 0
    subst hi
    rw [hlog.entryAt_eq, hlog.entries_eq] at hentry
    cases hentry
    have hpos := (habs.code.lead.leader n hstate).pos habs.code.vote
      habs.code.elect
    have hzero : 0 = (w.core n).currentTerm := hterm
    omega
  · cases hcom

/-- It is committed in the protocol. -/
theorem MatchInv.committed (hinv : MatchInv C w s) (habs : Abstracts C w s)
    (hn : n ∈ C.members) (hstate : (w.core n).state = .leader) {i : Nat}
    (hcom : (w.proc n).node.committable i = true) :
    C.committedAt s (w.core n).currentTerm i := by
  obtain ⟨hpos, entry, hentry, hterm, hmaj⟩ := committable_entry habs hstate hcom
  obtain ⟨hlead, hlog⟩ := habs.refines.leader_log habs.spec habs.code hstate
  have hpeers : (w.proc n).node.peers = C.peers n := habs.code.static.peers n
  have hget : (s.full (w.core n).currentTerm)[i - 1]? = some entry := by
    rw [← hlog]
    exact ((habs.code.log.logs n).positional.entryAt_pos hpos).symm.trans hentry
  rw [Node.majority, Node.replicaCount, hpeers, C.length_peers hn] at hmaj
  obtain ⟨Q, hQ, -, hslots⟩ := exists_majority_of_slots hn (C.peers_nodup n hn)
    (fun p hp => (C.mem_peers n hn p).mp hp) rfl hmaj
  refine ⟨⟨entry, hpos, hget, hterm⟩, Q, hQ, ?_⟩
  intro v hv
  rcases hslots v hv with rfl | ⟨k, peer, hpeer, hpeer', hle⟩
  · rw [habs.spec.leader_ack _ _ hlead]
    have := lt_length_of_getElem? hget
    omega
  · cases hpeer.symm.trans hpeer'
    exact Nat.le_trans (of_decide_eq_true hle)
      (hinv n hstate v (List.mem_of_getElem? hpeer))

/-! ## Acknowledged is held -/

/-- What a node acknowledged was in its log in one of the states. -/
def Held (states : List World) (s : Spec) : Prop :=
  ∀ v T m, 0 < m → m ≤ s.ack v T →
    ∃ w ∈ states, (s.full T).take m <+: (w.core v).log.body

theorem Held.step {states : List World} (h : Held states s)
    (habs : Abstracts C w s) (habs' : Abstracts C w' s') (g : Grow s s') :
    Held (w' :: states) s' := by
  intro v T m hpos hm
  rcases g.ack_new v T with heq | hcur
  · -- acknowledged before: held before
    rw [heq] at hm
    obtain ⟨w₀, hw₀, hpre⟩ := h v T m hpos hm
    refine ⟨w₀, List.mem_cons_of_mem _ hw₀, ?_⟩
    rwa [g.take_eq (Nat.le_trans hm (habs.spec.ack_len v T))]
  · -- still in the term of the acknowledgement: held now
    refine ⟨w', List.mem_cons_self .., ?_⟩
    rw [← habs'.refines.nodes.log v]
    rcases habs'.spec.kept v T m hm with hpre | ⟨T', hlt, hle, -⟩
    · exact hpre
    · omega

end Step

/-! ## Majorities -/

/-- `v` has had `entry` at `index` in one of the states. -/
def EverHeld (states : List World) (index : Nat) (entry : LogEntry)
    (v : String) : Prop :=
  ∃ w ∈ states, (w.proc v).node.log.entryAt index = some entry

instance (states : List World) (index : Nat) (entry : LogEntry) (v : String) :
    Decidable (EverHeld states index entry v) :=
  inferInstanceAs (Decidable (∃ w ∈ states, _))

def Cluster.HeldByMajority (C : Cluster) (states : List World) (index : Nat)
    (entry : LogEntry) : Prop :=
  C.members.length / 2 + 1
    ≤ C.members.countP fun v => EverHeld states index entry v

instance (C : Cluster) (states : List World) (index : Nat) (entry : LogEntry) :
    Decidable (C.HeldByMajority states index entry) :=
  inferInstanceAs (Decidable (_ ≤ _))

theorem Held.majority {C : Cluster} {states : List World} {s : Spec}
    (h : Held states s) (hstates : ∀ w ∈ states, LogInv w) {T i : Nat}
    (hcom : C.committedAt s T i) {entry : LogEntry} (hpos : 0 < i)
    (hentry : (s.full T)[i - 1]? = some entry) :
    C.HeldByMajority states i entry := by
  obtain ⟨-, Q, hQ, hack⟩ := hcom
  refine hQ.le_countP fun v hv => decide_eq_true ?_
  obtain ⟨w, hw, hpre⟩ := h v T i hpos (hack v hv)
  refine ⟨w, hw, ?_⟩
  have hpositional := ((hstates w hw).logs v).positional
  refine (hpositional.entryAt_pos hpos).trans (prefix_getElem? hpre ?_)
  rw [List.getElem?_take, if_pos (Nat.sub_lt hpos Nat.one_pos)]
  exact hentry

/-! ## The commit rule -/

/-- What the commit rule rests on. -/
structure CommitBasis (C : Cluster) (past : List World) (w : World) (s : Spec) :
    Prop where
  calls : CallInv C w s
  beats : BeatInv C w
  matched : MatchInv C w s
  held : Held (w :: past) s

theorem commitBasis_init (C : Cluster) : CommitBasis C [] C.init St.init where
  calls := callInv_init C
  beats _ _ _ _ _ _ hrun := by cases hrun
  matched _ hstate := by cases hstate
  held _ _ _ hpos hm := absurd hm (Nat.not_le_of_lt hpos)

theorem CommitBasis.step {C : Cluster} {past : List World} {w w' : World}
    {a : Action} {s s' : Spec} (h : CommitBasis C past w s)
    (habs : Abstracts C w s) (habs' : Abstracts C w' s') (g : Grow s s')
    (hok : ownTermReply w a) (hstep : C.step w a = some w') :
    CommitBasis C (w :: past) w' s' where
  calls := h.calls.step habs habs' g hstep
  beats := h.beats.step habs.code.static hstep
  matched := h.matched.step habs h.beats h.calls g hok hstep
  held := h.held.step habs habs' g

theorem commitBasis_of_run {C : Cluster} {past : List World} {w : World}
    (h : Run C.step countedSoundly C.init past w) :
    ∃ s, Abstracts C w s ∧ CommitBasis C past w s :=
  run_abstracts (fun _ _ ha => ha.1.orderly) (commitBasis_init C)
    (fun _ _ _ _ _ _ habs habs' g hinv ha hstep =>
      hinv.step habs habs' g ha.2 hstep) h

/-- The reply branch of the heartbeat moves `commitIndex` only to an index
the commit rule accepts, and leaves the core alone. -/
theorem heartbeatReply_commit {C : Cluster} {w w' : World} {n : String}
    {k j : Nat} (hstep : C.step w (.local n (.heartbeatReply k j)) = some w')
    (hmoved : (w'.proc n).node.commitIndex ≠ (w.proc n).node.commitIndex) :
    n ∈ C.members ∧ w'.core n = w.core n
      ∧ (w'.proc n).node.committable (w'.proc n).node.commitIndex = true := by
  cases C.proc_step hstep n with
  | idle hproc => exact absurd (by rw [hproc]) hmoved
  | own hn hmove =>
      have hcore : (w'.proc n).node.core = (w.proc n).node.core := by
        cases core_move hmove with
        | quiet hcore => exact hcore
      refine ⟨hn, hcore, ?_⟩
      cases book_move hmove with
      | same hbook => exact absurd (congrArg Book.commitIndex hbook) hmoved
      | heartbeatSuccess _ _ _ _ _ _ _ hbook =>
          exact (Node.heartbeatSuccess_commit hcore hbook).resolve_left hmoved
      | lower hbook =>
          refine absurd ((congrArg Book.commitIndex hbook).trans ?_) hmoved
          unfold Node.lowerNext
          split <;> rfl

/-- `commitIndex` moves only to entries that a majority has held. -/
theorem commit_backed_by_majority {C : Cluster} {past : List World}
    {w w' : World} {n : String} {k j : Nat}
    (h : Run C.step countedSoundly C.init past w)
    (hok : countedSoundly w (.local n (.heartbeatReply k j)))
    (hstep : C.step w (.local n (.heartbeatReply k j)) = some w')
    (hlead : (w.proc n).node.state = .leader)
    (hmoved : (w'.proc n).node.commitIndex ≠ (w.proc n).node.commitIndex) :
    ∃ entry, (w'.proc n).node.log.entryAt (w'.proc n).node.commitIndex
        = some entry
      ∧ C.HeldByMajority (w' :: w :: past) (w'.proc n).node.commitIndex
        entry := by
  have hrun := h.step hok hstep
  obtain ⟨s, habs, hbasis⟩ := commitBasis_of_run hrun
  obtain ⟨hn, hcore, hcom⟩ := heartbeatReply_commit hstep hmoved
  have hlead' : (w'.core n).state = .leader := by
    rw [hcore]
    exact hlead
  have hcommitted := hbasis.matched.committed habs hn hlead' hcom
  obtain ⟨hpos, entry, hentry, -⟩ := committable_entry habs hlead' hcom
  refine ⟨entry, hentry, hbasis.held.majority ?_ hcommitted hpos ?_⟩
  · intro w₀ hw₀
    refine logInv_of_reachable ((hrun.reachable_of_mem hw₀).mono ?_)
    exact fun _ _ ha => ha.1.orderly.2
  · rw [← (habs.refines.leader_log habs.spec habs.code hlead').2]
    exact ((habs.code.log.logs n).positional.entryAt_pos hpos).symm.trans hentry

/-- `a` leads term 1, appends an entry and its heartbeat brings it to `b`. -/
def heartbeatRun : List Action :=
  electRun ++ [.local "a" (.replicate [7]), .local "a" .load,
    .local "a" .spawnHeartbeats, .local "a" (.heartbeat 0), .deliverAppend 0]

theorem commit_backed_by_majority_a :
    ∃ past w, Run threeNodes.step countedSoundly threeNodes.init past w
      ∧ ∃ w' ∈ threeNodes.step w (.local "a" (.heartbeatReply 0 0)),
        (w'.proc "a").node.commitIndex = 1
        ∧ ∃ entry, (w'.proc "a").node.log.entryAt 1 = some entry
          ∧ threeNodes.HeldByMajority (w' :: w :: past) 1 entry := by
  obtain ⟨past, w, hr, hok, hlead, w', hstep, h0, h1⟩ : ∃ past w,
      Run threeNodes.step countedSoundly threeNodes.init past w
        ∧ countedSoundly w (.local "a" (.heartbeatReply 0 0))
        ∧ (w.proc "a").node.state = .leader
        ∧ ∃ w' ∈ threeNodes.step w (.local "a" (.heartbeatReply 0 0)),
          (w.proc "a").node.commitIndex = 0
          ∧ (w'.proc "a").node.commitIndex = 1 :=
    Run.of_exec_any heartbeatRun (by decide +kernel)
  refine ⟨past, w, hr, w', hstep, h1, ?_⟩
  have hbacked := commit_backed_by_majority hr hok hstep hlead (by omega)
  rwa [h1] at hbacked

/-- Five nodes, so that two can lag behind a majority. -/
def fiveNodes : Cluster :=
  newCluster ["a", "b", "c", "d", "e"] true (by decide) (by decide)

/-- `a` leads term 1 and sends two entries to `b`, whose success is on its
way. `c` wins term 2 with `d` and `e` and overwrites the log of `a`. `a`
wins term 3 and appends entry 2, and now the success of `b` arrives: with
the one of `d` that makes three for the new entry 2. -/
def lateReplyRun : List Action :=
  [.local "a" .load, .local "a" .timeout, .local "a" .load,
    .local "a" .campaign, .deliverVote 0, .deliverVote 1,
    .local "a" (.voteReply 0 0), .local "a" (.voteReply 1 1),
    .local "a" .becomeLeader, .local "a" (.replicate [1]),
    .local "a" (.replicate [2]), .local "a" (.replicateSend 1 0),
    .deliverAppend 0, .local "c" .load, .local "c" .timeout,
    .local "c" .load, .local "c" .campaign, .deliverVote 6, .deliverVote 7,
    .local "c" (.voteReply 2 2), .local "c" (.voteReply 3 3),
    .local "c" .becomeLeader, .local "c" (.replicate [3]),
    .local "c" (.replicateSend 0 0), .local "c" (.replicateSend 0 2),
    .deliverAppend 1, .deliverAppend 2, .local "a" .load,
    .local "a" .timeout, .local "a" .load, .local "a" .campaign,
    .deliverVote 10, .deliverVote 11, .local "a" (.voteReply 2 4),
    .local "a" (.voteReply 3 5), .local "a" .becomeLeader,
    .local "a" (.replicate [4]), .local "a" (.replicateReply 1 0 0),
    .local "a" .load, .local "a" .spawnHeartbeats, .local "a" (.heartbeat 2),
    .deliverAppend 3]

/-- The reply of `d` makes `a` commit an entry only `a` and `d` have had. -/
theorem phantom_replica :
    ∃ past w, Run fiveNodes.step asIntended fiveNodes.init past w
      ∧ (w.proc "a").node.state = .leader
      ∧ (w.proc "a").node.commitIndex = 0
      ∧ ∃ w' ∈ fiveNodes.step w (.local "a" (.heartbeatReply 2 3)),
        (w'.proc "a").node.commitIndex = 2
        ∧ (w'.proc "a").node.log.entryAt 2 = some ⟨3, 2, [4]⟩
        ∧ ¬ fiveNodes.HeldByMajority (w' :: w :: past) 2 ⟨3, 2, [4]⟩ :=
  Run.of_exec_any lateReplyRun (by decide +kernel)

end RaftStore
