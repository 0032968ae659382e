import RaftStore.Commit

/-!
# State machine safety

The first `commitIndex` entries of a node are part of something a
majority has acknowledged (`CommitOK`), so what `applyCommitted` collects
on two nodes for one index is one entry (`state_machine_safety`).

A leader's own `commitIndex` is covered by what it counts. A follower
takes the leader's word, and there the source does less than it would
have to: an empty heartbeat carries `PrevLogIndex = 0` and passes the
consistency check on any log, and `commitIndex` then moves into entries
the leader has never seen. `commitAgrees` is the check that is missing;
`divergent_apply` is a run without it.
-/

namespace RaftStore

open Runs Quorum LeaderLog

abbrev Cluster.safe (C : Cluster) : Spec → Nat → List LogEntry → Prop :=
  Safe LogEntry.term C.quorum

abbrev Cluster.safeUpTo (C : Cluster) : Spec → Nat → Nat → Prop :=
  SafeUpTo LogEntry.term C.quorum

/-! ## What a run has to respect -/

/-- The reply section of `sendHeartbeatToPeer`. -/
def Local.isHeartbeatReply : Local → Bool
  | .heartbeatReply _ _ => true
  | _ => false

/-- `advanceCommitIndex` runs on a leader. -/
def leaderAdvance : World → Action → Prop :=
  onLocal fun w n l => l.isHeartbeatReply = true →
    (w.proc n).digestedTerm w.net l ≠ none → (w.proc n).node.state = .leader

instance (w : World) (a : Action) : Decidable (leaderAdvance w a) :=
  inferInstanceAs (Decidable (onLocal _ w a))

/-- The request moves `commitIndex` into entries that it says nothing about:
it passes the checks, its own entries are all there, and the log and
`LeaderCommit` go on after them. -/
def Node.commitsBeyond (n : Node) (args : AppendEntriesArgs) : Prop :=
  n.currentTerm ≤ args.term ∧ n.log.matchesPrev args = true
    ∧ n.commitIndex < args.leaderCommit
    ∧ (∀ e ∈ args.entries,
      (n.log.entryAt e.index).map LogEntry.term = some e.term)
    ∧ args.prevLogIndex + args.entries.length
      < min args.leaderCommit n.log.lastIndex

instance (n : Node) (args : AppendEntriesArgs) :
    Decidable (n.commitsBeyond args) :=
  inferInstanceAs (Decidable (_ ∧ _ ∧ _ ∧ (∀ e ∈ args.entries, _) ∧ _))

/-- Then the entry at the new `commitIndex` has the term that the sender's
entry has. -/
def Node.agreesBeyond (n sender : Node) (args : AppendEntriesArgs) : Prop :=
  n.commitsBeyond args →
    (n.log.entryAt (min args.leaderCommit n.log.lastIndex)).map LogEntry.term
      = (sender.log.entryAt (min args.leaderCommit n.log.lastIndex)).map
        LogEntry.term

instance (n sender : Node) (args : AppendEntriesArgs) :
    Decidable (n.agreesBeyond sender args) :=
  inferInstanceAs (Decidable (_ → _))

def commitAgrees (w : World) : Action → Prop
  | .deliverAppend call => ∀ c ∈ w.net.appendCalls[call]?,
      (w.proc c.dst).node.agreesBeyond (w.proc c.src).node c.args
  | _ => True

instance (w : World) : (a : Action) → Decidable (commitAgrees w a)
  | .deliverAppend _ => inferInstanceAs (Decidable (∀ _ ∈ _, _))
  | .local _ _ => inferInstanceAs (Decidable True)
  | .deliverVote _ => inferInstanceAs (Decidable True)
  | .crash _ => inferInstanceAs (Decidable True)
  | .restart _ => inferInstanceAs (Decidable True)

def committedSoundly (w : World) (a : Action) : Prop :=
  countedSoundly w a ∧ leaderAdvance w a ∧ commitAgrees w a

instance (w : World) (a : Action) : Decidable (committedSoundly w a) :=
  inferInstanceAs (Decidable (_ ∧ _))

/-! ## Committed prefixes -/

/-- What the node has committed is safe in its term. -/
structure CommitOK (C : Cluster) (s : Spec) (node : Node) : Prop where
  le : node.commitIndex ≤ node.log.body.length
  safe : C.safe s node.currentTerm (node.log.body.take node.commitIndex)

section Node

variable {C : Cluster} {s s' : Spec} {node node' : Node}

theorem CommitOK.keep (h : CommitOK C s node) (g : Grow s s')
    (hcommit : node'.commitIndex = node.commitIndex)
    (hterm : node.currentTerm ≤ node'.currentTerm)
    (hlog : node.log.body.take node.commitIndex <+: node'.log.body) :
    CommitOK C s' node' := by
  have hlen : (node.log.body.take node.commitIndex).length = node.commitIndex :=
    List.length_take_of_le h.le
  have htake : node'.log.body.take node'.commitIndex
      = node.log.body.take node.commitIndex := by
    rw [hcommit, prefix_take_eq hlog (Nat.le_of_eq hlen.symm)]
    exact List.take_of_length_le (Nat.le_of_eq hlen)
  constructor
  · rw [hcommit, ← hlen]
    exact hlog.length_le
  · rw [htake]
    exact h.safe.grow g hterm

/-- A node whose log has what was committed may commit it. -/
theorem CommitOK.of_safe {T : Nat}
    (hsafe : C.safeUpTo s T node.commitIndex) (hT : T ≤ node.currentTerm)
    (hlog : (s.full T).take node.commitIndex <+: node.log.body) :
    CommitOK C s node := by
  have hlen := List.length_take_of_le hsafe.1
  constructor
  · rw [← hlen]
    exact hlog.length_le
  · rw [prefix_take_eq hlog (Nat.le_of_eq hlen.symm),
      List.take_of_length_le (Nat.le_of_eq hlen)]
    exact hsafe.2.mono hT List.prefix_rfl

theorem safeUpTo_of_committed {T m : Nat} (h : C.committedAt s T m) :
    C.safeUpTo s T m :=
  ⟨h.1.le_length, .inr ⟨T, m, Nat.le_refl T, h, List.prefix_rfl⟩⟩

end Node

/-! ## The invariant -/

/-- `entry` is part of a safe log, at its index. -/
def SafeEntry (C : Cluster) (s : Spec) (entry : LogEntry) : Prop :=
  0 < entry.index ∧ ∃ T l, C.safe s T l ∧ l[entry.index - 1]? = some entry

structure CommitInv (C : Cluster) (w : World) (s : Spec) : Prop where
  nodes : ∀ n, CommitOK C s (w.proc n).node
  calls : ∀ n, ∀ c ∈ (w.proc n).replicates, C.safeUpTo s c.term c.leaderCommit
  requests : ∀ c ∈ w.net.appendCalls,
    C.safeUpTo s c.args.term c.args.leaderCommit
  collected : ∀ n, ∀ entry ∈ (w.proc n).collected, SafeEntry C s entry

theorem SafeEntry.grow {C : Cluster} {s s' : Spec} {entry : LogEntry}
    (h : SafeEntry C s entry) (g : Grow s s') : SafeEntry C s' entry := by
  obtain ⟨hpos, T, l, hsafe, hget⟩ := h
  exact ⟨hpos, T, l, hsafe.grow g (Nat.le_refl T), hget⟩

theorem commitInv_init (C : Cluster) : CommitInv C C.init St.init where
  nodes _ := ⟨Nat.zero_le _, .inl rfl⟩
  calls _ _ h := by cases h
  requests _ h := by cases h
  collected _ _ h := by cases h

section Step

variable {C : Cluster} {w w' : World} {a : Action} {s s' : Spec} {n : String}

/-- A leader's `commitIndex` is safe in its term. -/
theorem CommitInv.leader (hinv : CommitInv C w s) (habs : Abstracts C w s)
    (hstate : (w.core n).state = .leader) :
    C.safeUpTo s (w.core n).currentTerm (w.proc n).node.commitIndex := by
  have hlog := (habs.refines.leader_log habs.spec habs.code hstate).2
  obtain ⟨hle, hsafe⟩ := hinv.nodes n
  constructor
  · rw [← hlog]
    exact hle
  · rw [← hlog]
    exact hsafe

theorem CommitInv.requests_step (hinv : CommitInv C w s)
    (habs : Abstracts C w s) (g : Grow s s') (hok : leaderHeartbeat w a)
    (hstep : C.step w a = some w') :
    ∀ c ∈ w'.net.appendCalls, C.safeUpTo s' c.args.term c.args.leaderCommit := by
  have hold : ∀ c ∈ w.net.appendCalls,
      C.safeUpTo s' c.args.term c.args.leaderCommit :=
    fun c hc => (hinv.requests c hc).grow g
  cases C.move habs.code.static hstep with
  | @heartbeat n peer _ _ _ _ _ _ _ hnet =>
      rw [hnet]
      intro c hc
      rcases List.mem_append.mp hc with hc | hc
      · exact hold c hc
      · cases List.mem_singleton.mp hc
        have hsafe := (hinv.leader habs (n := n) (hok rfl)).grow g
        have hcommit : ((w.proc n).node.heartbeatArgs peer).leaderCommit
            = (w.proc n).node.commitIndex := by
          unfold Node.heartbeatArgs
          split <;> rfl
        rw [heartbeatArgs_term, hcommit]
        exact hsafe
  | @replicateSend n peer _ _ c _ _ hcall _ _ _ _ hnet =>
      rw [hnet]
      intro c' hc'
      rcases List.mem_append.mp hc' with hc' | hc'
      · exact hold c' hc'
      · cases List.mem_singleton.mp hc'
        exact (hinv.calls n c (List.mem_of_getElem? hcall)).grow g
  | _ => simp only [*]; exact hold

/-- A call keeps the term and the `LeaderCommit` it was opened with. -/
theorem CallMove.origin {net : Net} {p p' : Proc} {out : Output}
    (h : CallMove net p p' out) {c' : ReplicateCall} (hc' : c' ∈ p'.replicates) :
    (∃ c ∈ p.replicates, c'.term = c.term ∧ c'.leaderCommit = c.leaderCommit)
      ∨ p.node.state = .leader ∧ c'.term = p.node.currentTerm
        ∧ c'.leaderCommit = p.node.commitIndex := by
  have hset : ∀ {r : Nat} {c x : ReplicateCall}, p.replicates[r]? = some c →
      p'.replicates = p.replicates.set r x → x.term = c.term →
      x.leaderCommit = c.leaderCommit →
      ∃ c ∈ p.replicates, c'.term = c.term ∧ c'.leaderCommit = c.leaderCommit := by
    intro r c x hcall hcalls hterm hcommit
    rw [hcalls] at hc'
    rcases List.mem_or_eq_of_mem_set hc' with hold | rfl
    · exact ⟨c', hold, rfl, rfl⟩
    · exact ⟨c, List.mem_of_getElem? hcall, hterm, hcommit⟩
  cases h with
  | same hcalls => exact .inl ⟨c', hcalls ▸ hc', rfl, rfl⟩
  | opened hstate _ hcalls =>
      rw [hcalls] at hc'
      rcases List.mem_append.mp hc' with hold | hnew
      · exact .inl ⟨c', hold, rfl, rfl⟩
      · cases List.mem_singleton.mp hnew
        exact .inr ⟨hstate, rfl, rfl⟩
  | worker hcall _ _ hcalls => exact .inl (hset hcall hcalls rfl rfl)
  | ack hcall _ _ hcalls => exact .inl (hset hcall hcalls rfl rfl)
  | gaveUp hcall _ _ hcalls => exact .inl (hset hcall hcalls rfl rfl)
  | committed hcall _ hcalls => exact .inl (hset hcall hcalls rfl rfl)
  | returned hcall _ _ hcalls => exact .inl (hset hcall hcalls rfl rfl)

theorem CommitInv.calls_step (hinv : CommitInv C w s)
    (habs : Abstracts C w s) (g : Grow s s')
    (hstep : C.step w a = some w') (n : String) :
    ∀ c ∈ (w'.proc n).replicates, C.safeUpTo s' c.term c.leaderCommit := by
  intro c hc
  rcases C.call_step hstep n with hnil | ⟨out, hmove, -⟩
  · rw [hnil] at hc
    cases hc
  rcases hmove.origin hc with ⟨c₀, hc₀, hterm, hcommit⟩ | ⟨hstate, hterm, hcommit⟩
  · rw [hterm, hcommit]
    exact (hinv.calls n c₀ hc₀).grow g
  · rw [hterm, hcommit]
    exact (hinv.leader habs hstate).grow g

/-- What `applyCommitted` collects is committed. -/
theorem CommitOK.toApply {node : Node} (h : CommitOK C s node)
    (hpos : node.log.Positional) {entry : LogEntry}
    (he : entry ∈ node.toApply) : SafeEntry C s entry := by
  obtain ⟨i, hi, hget⟩ := List.mem_filterMap.mp he
  obtain ⟨hlo, hhi⟩ := List.mem_range'_1.mp hi
  obtain rfl := LogStore.entryAt_index hget
  have hlt : entry.index - 1 < node.commitIndex := by omega
  refine ⟨by omega, _, _, h.safe, ?_⟩
  rw [List.getElem?_take, if_pos hlt, ← hpos.entryAt_pos (by omega)]
  exact hget

theorem CommitInv.collected_step (hinv : CommitInv C w s)
    (habs : Abstracts C w s) (g : Grow s s')
    (hstep : C.step w a = some w') (n : String) :
    ∀ entry ∈ (w'.proc n).collected, SafeEntry C s' entry := by
  have hold : ∀ entry ∈ (w.proc n).collected, SafeEntry C s' entry :=
    fun entry he => (hinv.collected n entry he).grow g
  have hsame : (w'.proc n).collected = (w.proc n).collected →
      ∀ entry ∈ (w'.proc n).collected, SafeEntry C s' entry := by
    intro hcol
    rw [hcol]
    exact hold
  rcases C.feed_step hstep n with hnew | ⟨l, hmove, -⟩
  · rw [hnew]
    exact fun _ he => by cases he
  cases hmove with
  | same hfeed => exact hsame (congrArg Feed.collected hfeed)
  | start hfeed => exact hsame (congrArg Feed.collected hfeed)
  | collect _ hfeed =>
      have hcol : (w'.proc n).collected
          = (w.proc n).collected ++ (w.proc n).node.toApply :=
        congrArg Feed.collected hfeed
      rw [hcol]
      intro entry he
      rcases List.mem_append.mp he with he | he
      · exact hold entry he
      · exact ((hinv.nodes n).toApply (habs.code.log.logs n).positional he).grow g
  | send _ _ hfeed => exact hsame (congrArg Feed.collected hfeed)
  | applyLoop _ hfeed => exact hsame (congrArg Feed.collected hfeed)
  | abandon _ hfeed => exact hsame (congrArg Feed.collected hfeed)

/-- Only accepting entries can take any off a log. -/
theorem Move.log_grows (h : Move C w a w') (hlog : (w.core n).log.Positional)
    (hdeliver : ∀ call, a ≠ .deliverAppend call) (hrestart : a ≠ .restart n) :
    (w.core n).log.body <+: (w'.core n).log.body := by
  cases h.core_step n with
  | same hcore => rw [hcore]
  | timeout _ hcore => rw [hcore]; exact List.prefix_rfl
  | @stepDown term _ hcore =>
      rw [hcore]
      show _ <+: ((w.proc n).node.becomeFollower term).log.body
      rw [Node.becomeFollower_log]
      exact List.prefix_rfl
  | campaign _ hcore => rw [hcore]; exact List.prefix_rfl
  | elect _ _ _ hcore => rw [hcore]; exact List.prefix_rfl
  | @append _ entry _ _ hcore =>
      rw [hcore]
      exact (hlog.body_append entry).symm ▸ List.prefix_append ..
  | @vote _ _ node _ _ _ hout hcore =>
      rw [hcore]
      show _ <+: node.log.body
      rw [show node.log = (w.core n).log from hout.log]
  | deliver _ _ hout hcore => exact absurd rfl (hdeliver _)
  | restart hcore => exact absurd rfl hrestart

/-- `Replicate` commits its entry. The node may have lost its role by then,
but not what it acknowledged. -/
theorem CallOK.commitOK {c : ReplicateCall} (hc : CallOK C w.net s n c)
    (hdecided : c.loc.decided = true) (habs' : Abstracts C w' s')
    (g : Grow s s') (hindex : (w'.proc n).node.commitIndex = c.entry.index) :
    CommitOK C s' (w'.proc n).node := by
  have hcommitted := (hc.committed hdecided).grow g
  have hack := Nat.le_trans hc.own (g.ack n c.term)
  have hpos := hc.entry.pos
  refine .of_safe (T := c.term) ?_ ?_ ?_
  · rw [hindex]
    exact safeUpTo_of_committed hcommitted
  · have hcur := habs'.spec.ack_cur n c.term (by omega)
    rwa [habs'.refines.nodes.cur n] at hcur
  · have hpre := hcommitted.prefix_log C.quorum_inter habs'.spec hack
    rwa [habs'.refines.nodes.log n, ← hindex] at hpre

/-- The books of a process that steps by itself. -/
theorem CommitInv.own_step (hinv : CommitInv C w s) (habs : Abstracts C w s)
    (habs' : Abstracts C w' s') (g : Grow s s') (hcalls : CallInv C w s)
    (hmatch' : MatchInv C w' s') {l : Local} {out : Output}
    (hn : n ∈ C.members) (hok : leaderAdvance w (.local n l))
    (hstep : C.step w (.local n l) = some w')
    (hmove : (w.proc n).Move w.net l (w'.proc n) out) :
    CommitOK C s' (w'.proc n).node := by
  have hcluster := C.move habs.code.static hstep
  have hkeep : (w'.proc n).node.commitIndex = (w.proc n).node.commitIndex →
      CommitOK C s' (w'.proc n).node := by
    intro hcommit
    refine (hinv.nodes n).keep g hcommit (hcluster.keeps (by simp)).term ?_
    exact (List.take_prefix ..).trans (hcluster.log_grows
      (habs.code.log.logs n).positional (by simp) (by simp))
  cases book_move hmove with
  | same hbook => exact hkeep (congrArg Book.commitIndex hbook)
  | elect _ hwins hnode =>
      refine hkeep ?_
      rw [hnode, Node.becomeLeader, if_pos hwins]
  | append _ hnode => exact hkeep (by rw [hnode]; rfl)
  | heartbeatSuccess hrun hws hpeer hans _ hentries hsuccess hbook =>
      have hcore : (w'.proc n).node.core = (w.proc n).node.core := by
        cases core_move hmove with
        | quiet hcore => exact hcore
      rcases Node.heartbeatSuccess_commit hcore hbook with hsame | hcom
      · exact hkeep hsame
      have hstate : (w.proc n).node.state = .leader := hok rfl (by
        rw [Proc.digestedTerm_heartbeat hrun hws hans hentries hsuccess]
        simp)
      have hstate' : (w'.core n).state = .leader :=
        (congrArg Core.state hcore).trans hstate
      have hcommitted := hmatch'.committed habs' hn hstate' hcom
      refine .of_safe (safeUpTo_of_committed hcommitted) (Nat.le_refl _) ?_
      rw [← (habs'.refines.leader_log habs'.spec habs'.code hstate').2]
      exact List.take_prefix ..
  | @lower _ peer hbook =>
      refine hkeep ((congrArg Book.commitIndex hbook).trans ?_)
      show ((w.proc n).node.lowerNext peer).commitIndex = _
      unfold Node.lowerNext
      split <;> rfl
  | replicateSuccess _ _ _ _ _ _ hnode => exact hkeep (by rw [hnode]; rfl)
  | @commit r c hcall hloc hnode =>
      by_cases hlt : (w.proc n).node.commitIndex < c.entry.index
      · have hc := hcalls.calls n c (List.mem_of_getElem? hcall)
        refine hc.commitOK (by rw [hloc]; rfl) habs' g ?_
        rw [hnode, Node.commitEntry, if_pos hlt]
      · refine hkeep ?_
        rw [hnode, Node.commitEntry, if_neg hlt]
  | claim _ hnode => exact hkeep (by rw [hnode]; rfl)

/-- A log that goes on after the entries of a request has them all. -/
theorem installAll_beyond {l : LogStore} {args : AppendEntriesArgs}
    (hl : l.Positional) (hargs : args.WellFormed)
    (hprev : l.matchesPrev args = true)
    (hlong : args.prevLogIndex + args.entries.length
      < (l.installAll args.entries).body.length) :
    l.installAll args.entries = l ∧ ∀ e ∈ args.entries,
      (l.entryAt e.index).map LogEntry.term = some e.term := by
  obtain ⟨j, hj, hagree, ⟨rfl, heq⟩ | ⟨-, -, -, hbody⟩⟩ :=
    LogStore.installAll_spec hl hargs.indexed (matchesPrev_le hl hprev)
  · refine ⟨heq, ?_⟩
    intro e he
    obtain ⟨k, hk⟩ := List.mem_iff_getElem?.mp he
    have hindex : e.index = args.prevLogIndex + k + 1 := by
      have := hargs.indexed k e hk
      omega
    rw [hindex, hl.entryAt_succ]
    exact (hagree k (lt_length_of_getElem? hk)).trans (congrArg _ hk)
  · -- rewritten from some entry on, it ends with the last one
    rw [hbody] at hlong
    simp only [List.length_append, List.length_take, List.length_drop] at hlong
    omega

/-- The log that accepting a request leaves has the sender's entries up to
the new `commitIndex`. -/
theorem CommitInv.accepted_take (hinv : CommitInv C w s)
    (habs : Abstracts C w s) (habs' : Abstracts C w' s') {call : Nat}
    {c : AppendCall} (hcall : w.net.appendCalls[call]? = some c)
    (hcore : ∀ m, m ≠ c.dst → w'.core m = w.core m)
    (hlog : (w'.core c.dst).log
      = (w.core c.dst).log.installAll c.args.entries)
    (hprev : (w.core c.dst).log.matchesPrev c.args = true) {i : Nat}
    (hcommit : i ≤ c.args.leaderCommit)
    (hlen : i ≤ (w'.core c.dst).log.body.length)
    (hagree : i ≤ c.args.prevLogIndex + c.args.entries.length
      ∨ ((w'.core c.dst).log.entryAt i).map LogEntry.term
        = ((w.core c.src).log.entryAt i).map LogEntry.term) :
    (s.full c.args.term).take i <+: (w'.core c.dst).log.body := by
  obtain ⟨hfull, hpre, -⟩ :=
    habs.refines.installed habs.spec habs.code hcall hprev
  have hmem := List.mem_of_getElem? hcall
  rcases hagree with hle | hterm
  · -- within the entries of the request
    rw [hlog]
    exact (List.take_prefix_take_left hle).trans hpre
  · -- beyond them: by log matching with the sender
    by_cases hi : i = 0
    · subst hi
      simp
    have hsafe := hinv.requests c hmem
    have hlead := (habs.refines.net.calls c hmem).1
    have hsrc := hsafe.prefix_leader C.quorum_inter habs.spec hlead
    rw [habs.refines.nodes.log] at hsrc
    have htake : (w.core c.src).log.body.take i = (s.full c.args.term).take i := by
      rw [prefix_take_eq hsrc (by rw [List.length_take_of_le hsafe.1]; exact hcommit),
        List.take_take, Nat.min_eq_left hcommit]
    obtain ⟨hsrcs, hdst⟩ := habs.code.static.appendCalls c hmem
    have hsame := hcore c.src ((C.mem_peers _ hsrcs _).mp hdst).2.symm
    have hpos' := (habs'.code.log.logs c.dst).positional
    have hpos := (habs.code.log.logs c.src).positional
    rw [hpos'.entryAt_pos (by omega), hpos.entryAt_pos (by omega),
      List.getElem?_eq_getElem (by omega)] at hterm
    obtain ⟨e, he, hte⟩ := Option.map_eq_some_iff.mp hterm.symm
    have hroot := habs'.spec.rooted c.dst
    have hroot' := habs'.spec.rooted c.src
    rw [habs'.refines.nodes.log] at hroot hroot'
    rw [hsame] at hroot'
    have hmatch := hroot.take_eq hroot' (List.getElem?_eq_getElem (by omega)) he
      hte.symm
    rw [Nat.sub_add_cancel (by omega), htake] at hmatch
    rw [← hmatch]
    exact List.take_prefix ..

theorem Node.acceptEntries_commit (n : Node) (args : AppendEntriesArgs) :
    (n.acceptEntries args).commitIndex = n.commitIndex ∨
      (n.commitIndex < args.leaderCommit ∧ (n.acceptEntries args).commitIndex
        = min args.leaderCommit (n.acceptEntries args).log.lastIndex) := by
  by_cases hlt : n.commitIndex < args.leaderCommit
  · exact .inr ⟨hlt, if_pos hlt⟩
  · exact .inl (if_neg hlt)

theorem CommitInv.accepted_step (hinv : CommitInv C w s)
    (habs : Abstracts C w s) (habs' : Abstracts C w' s') (g : Grow s s')
    {call : Nat} {c : AppendCall} {node : Node}
    (hcall : w.net.appendCalls[call]? = some c)
    (hself : w'.core c.dst = (node.acceptEntries c.args).core)
    (hother : ∀ m, m ≠ c.dst → w'.core m = w.core m)
    (hterm : (w.proc c.dst).node.currentTerm ≤ c.args.term)
    (hnode : node = (w.proc c.dst).node.observeLeader c.args)
    (hprev : node.log.matchesPrev c.args = true)
    (hok : (w.proc c.dst).node.agreesBeyond (w.proc c.src).node c.args) :
    CommitOK C s' (node.acceptEntries c.args) := by
  have hold := hinv.nodes c.dst
  have hmem := List.mem_of_getElem? hcall
  obtain ⟨hcur, hlog, -, -, hci, -⟩ :=
    (w.proc c.dst).node.observeLeader_spec hterm
  rw [← hnode] at hcur hlog hci
  rw [hlog] at hprev
  have hlog' : (w'.core c.dst).log
      = (w.core c.dst).log.installAll c.args.entries := by
    rw [hself]
    exact congrArg (LogStore.installAll · c.args.entries) hlog
  have hbody : (node.acceptEntries c.args).log = (w'.core c.dst).log := by
    rw [hself]
    rfl
  rcases node.acceptEntries_commit c.args with hsame | ⟨hlt, hmoved⟩
  · -- what is safe is in the log of the sender's term, and stays
    have hlead := (habs.refines.net.calls c hmem).1
    obtain ⟨-, -, hkeep, -⟩ :=
      habs.refines.installed habs.spec habs.code hcall hprev
    refine hold.keep g (hsame.trans hci) ?_ ?_
    · exact Nat.le_trans hterm (Nat.le_of_eq hcur.symm)
    · rw [hbody, hlog']
      exact hkeep _ (List.take_prefix ..) (hold.safe.prefix_full
        C.quorum_inter habs.spec hterm (by rw [hlead]; simp))
  · rw [hbody, (habs'.code.log.logs c.dst).positional.lastIndex_eq] at hmoved
    have hle := Nat.le_trans (Nat.le_of_eq hmoved) (Nat.min_le_left ..)
    have hlen := Nat.le_trans (Nat.le_of_eq hmoved) (Nat.min_le_right ..)
    have hsafe := (hinv.requests c hmem).mono hle
    refine .of_safe (T := c.args.term) (hsafe.grow g) (Nat.le_of_eq hcur.symm) ?_
    rw [g.take_eq hsafe.1, hbody]
    refine hinv.accepted_take habs habs' hcall hother hlog' hprev hle hlen ?_
    by_contra hno
    obtain ⟨hbeyond, hdiffer⟩ := not_or.mp hno
    -- beyond its entries the request left the log as it was
    have hpos := (habs.code.log.logs c.dst).positional
    obtain ⟨heq, hentries⟩ := installAll_beyond hpos
      (habs.code.log.calls c hmem) hprev (by rw [← hlog']; omega)
    rw [heq] at hlog'
    rw [hmoved, hlog', ← hpos.lastIndex_eq] at hbeyond hdiffer
    exact hdiffer (hok ⟨hterm, hprev, hci ▸ hlt, hentries,
      Nat.lt_of_not_le hbeyond⟩)

theorem CommitInv.deliver_step (hinv : CommitInv C w s)
    (habs : Abstracts C w s) (habs' : Abstracts C w' s') (g : Grow s s')
    {call : Nat} {c : AppendCall} {node : Node} {reply : AppendEntriesReply}
    {apply : Bool} (hcall : w.net.appendCalls[call]? = some c)
    (hself : w'.core c.dst = node.core)
    (hother : ∀ m, m ≠ c.dst → w'.core m = w.core m)
    (hout : (w.proc c.dst).node.AppendOutcome c.args (node, reply, apply))
    (hok : (w.proc c.dst).node.agreesBeyond (w.proc c.src).node c.args) :
    CommitOK C s' node := by
  have hold := hinv.nodes c.dst
  cases hout with
  | stale => exact hold.keep g rfl (Nat.le_refl _) (List.take_prefix ..)
  | rejected hterm hn' =>
      obtain ⟨hcur, hlog, -, -, hci, -⟩ :=
        (w.proc c.dst).node.observeLeader_spec hterm
      rw [← hn'] at hcur hlog hci
      refine hold.keep g hci (by rw [hcur]; exact hterm) ?_
      rw [hlog]
      exact List.take_prefix ..
  | accepted hterm hn' hprev =>
      exact hinv.accepted_step habs habs' g hcall hself hother hterm hn' hprev hok

theorem CommitInv.nodes_step (hinv : CommitInv C w s) (habs : Abstracts C w s)
    (habs' : Abstracts C w' s') (g : Grow s s') (hcalls : CallInv C w s)
    (hmatch' : MatchInv C w' s') (hok : leaderAdvance w a ∧ commitAgrees w a)
    (hstep : C.step w a = some w') (n : String) :
    CommitOK C s' (w'.proc n).node := by
  have hold := hinv.nodes n
  cases C.proc_step hstep n with
  | own hn hlocal =>
      exact hinv.own_step habs habs' g hcalls hmatch' hn hok.1 hstep hlocal
  | @voted _ _ node _ _ _ hout hproc =>
      rw [hproc]
      refine hold.keep g (congrArg Book.commitIndex hout.book) hout.keeps.term ?_
      show _ <+: node.log.body
      rw [show node.log = (w.proc n).node.log from hout.log]
      exact List.take_prefix ..
  | @appended call c node reply apply p hcall hdst hout hp hproc =>
      subst hdst
      have hnode : (w'.proc c.dst).node = node := by
        rw [hproc, hp]
        split <;> rfl
      rw [hnode]
      refine hinv.deliver_step habs habs' g hcall ?_ ?_ hout ?_
      · rw [World.core, hnode]
      · intro m hm
        cases C.proc_step hstep m with
        | appended hcall' hdst' =>
            cases hcall.symm.trans hcall'
            exact absurd hdst'.symm hm
        | idle hproc' => rw [World.core, hproc']; rfl
      · exact hok.2 c hcall
  | restarted hproc =>
      rw [hproc]
      exact ⟨Nat.zero_le _, .inl rfl⟩
  | idle hproc =>
      rw [hproc]
      exact hold.keep g rfl (Nat.le_refl _) (List.take_prefix ..)

theorem CommitInv.step (hinv : CommitInv C w s) (habs : Abstracts C w s)
    (habs' : Abstracts C w' s') (g : Grow s s') (hcalls : CallInv C w s)
    (hmatch' : MatchInv C w' s') (hok : committedSoundly w a)
    (hstep : C.step w a = some w') : CommitInv C w' s' where
  nodes := hinv.nodes_step habs habs' g hcalls hmatch' hok.2 hstep
  calls := hinv.calls_step habs g hstep
  requests := hinv.requests_step habs g hok.1.1.1 hstep
  collected := hinv.collected_step habs g hstep

end Step

theorem commitInv_of_run {C : Cluster} {w : World}
    (h : Reachable C.step committedSoundly C.init w) :
    ∃ s, Abstracts C w s ∧ CommitInv C w s := by
  obtain ⟨past, hr⟩ := h
  obtain ⟨s, habs, -, hinv⟩ := run_abstracts
    (fun _ _ ha => ha.1.1.orderly)
    (Q := fun past w s => CommitBasis C past w s ∧ CommitInv C w s)
    ⟨commitBasis_init C, commitInv_init C⟩
    (fun past w a w' s s' habs habs' g hQ ha hstep => by
      have hbasis' := hQ.1.step habs habs' g ha.1.2 hstep
      exact ⟨hbasis', hQ.2.step habs habs' g hQ.1.calls hbasis'.matched ha hstep⟩)
    hr
  exact ⟨s, habs, hinv⟩

/-- Two safe entries of one index are one entry. -/
theorem SafeEntry.unique {C : Cluster} {s : Spec} (hs : C.specInv s)
    {e e' : LogEntry} (h : SafeEntry C s e) (h' : SafeEntry C s e')
    (hindex : e.index = e'.index) : e = e' := by
  obtain ⟨-, T, l, hsafe, hget⟩ := h
  obtain ⟨-, T', l', hsafe', hget'⟩ := h'
  rw [← hindex] at hget'
  rcases hsafe.compare C.quorum_inter hs hsafe' with hpre | hpre
  · exact Option.some.inj ((prefix_getElem? hpre hget).symm.trans hget')
  · exact Option.some.inj (hget.symm.trans (prefix_getElem? hpre hget'))

/-- What two nodes collect for one index has one command. -/
theorem state_machine_safety {C : Cluster} {w : World}
    (h : Reachable C.step committedSoundly C.init w) {n m : String}
    {e e' : LogEntry} (he : e ∈ (w.proc n).collected)
    (he' : e' ∈ (w.proc m).collected) (hindex : e.index = e'.index) :
    e.command = e'.command := by
  obtain ⟨s, habs, hinv⟩ := commitInv_of_run h
  rw [(hinv.collected n e he).unique habs.spec (hinv.collected m e' he') hindex]

/-- `a` leads term 1, commits an entry with `b`, and its next heartbeat
tells `b`; both collect it. -/
def applyRun : List Action :=
  returnRun ++ [.local "a" .load, .local "a" .spawnHeartbeats,
    .local "a" (.heartbeat 0), .deliverAppend 1, .local "b" (.collect 0)]

theorem state_machine_safety_a_b :
    ∃ w, Reachable threeNodes.step committedSoundly threeNodes.init w
      ∧ ⟨1, 1, [7]⟩ ∈ (w.proc "a").collected
      ∧ ⟨1, 1, [7]⟩ ∈ (w.proc "b").collected
      ∧ ∀ e ∈ (w.proc "b").collected, e.index = 1 → e.command = [7] := by
  obtain ⟨w, hr, ha, hb⟩ : ∃ w,
      Reachable threeNodes.step committedSoundly threeNodes.init w
        ∧ ⟨1, 1, [7]⟩ ∈ (w.proc "a").collected
        ∧ ⟨1, 1, [7]⟩ ∈ (w.proc "b").collected :=
    Reachable.of_exec_any applyRun (by decide +kernel)
  exact ⟨w, hr, ha, hb, fun e he hi => state_machine_safety hr he ha hi⟩

/-- `a` appends an entry in term 1 that nobody gets. `b` wins term 2 with
`c`, commits an entry with `c` and tells it so. `c` wins term 3 with `b`
and sends `a` an empty heartbeat with `LeaderCommit = 1`: `a` commits its
own entry. -/
def divergentRun : List Action :=
  electRun ++ [.local "a" (.replicate [1]),
    .local "b" .load, .local "b" .timeout, .local "b" .load,
    .local "b" .campaign, .deliverVote 3, .local "b" (.voteReply 1 1),
    .local "b" .becomeLeader, .local "b" (.replicate [2]),
    .local "b" (.replicateSend 0 1), .deliverAppend 0,
    .local "b" (.replicateReply 0 1 0), .local "b" (.receiveAck 0 1),
    .local "b" (.replicateCommit 0), .local "b" (.collect 0),
    .local "b" .load, .local "b" .spawnHeartbeats, .local "b" (.heartbeat 1),
    .deliverAppend 1, .local "c" .load, .local "c" .timeout,
    .local "c" .load, .local "c" .campaign, .deliverVote 5,
    .local "c" (.voteReply 1 2), .local "c" .becomeLeader,
    .local "c" .load, .local "c" .spawnHeartbeats, .local "c" (.heartbeat 0),
    .deliverAppend 2, .local "a" (.collect 0)]

theorem divergent_apply :
    ∃ w, Reachable threeNodes.step
        (fun w a => countedSoundly w a ∧ leaderAdvance w a) threeNodes.init w
      ∧ ⟨1, 1, [1]⟩ ∈ (w.proc "a").collected
      ∧ ⟨2, 1, [2]⟩ ∈ (w.proc "b").collected :=
  Reachable.of_exec_any divergentRun (by decide +kernel)

end RaftStore
