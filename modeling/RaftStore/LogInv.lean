import RaftStore.Leadership

/-!
# The representation of logs

Every log is the sentinel followed by entries that carry their position,
with terms that do not decrease and lie between 1 and the node's term
(`LogStore.WellFormed`); every request holds a run of such entries that
continues where `PrevLogIndex` points (`AppendEntriesArgs.WellFormed`).
Building a request from a log and installing it in another are the two
lemmas that matter (`WellFormed.request`, `WellFormed.install`). The
result is `log_representation`; it holds whatever the heartbeat
goroutines of a deposed leader send.
-/

namespace RaftStore

open Runs

/-! ## Logs and requests -/

structure LogStore.WellFormed (l : LogStore) (term : Nat) : Prop where
  positional : l.Positional
  sorted : l.body.Pairwise fun a b => a.term ≤ b.term
  terms : ∀ e ∈ l.body, 1 ≤ e.term ∧ e.term ≤ term

structure AppendEntriesArgs.WellFormed (args : AppendEntriesArgs) : Prop where
  indexed : IndexedFrom (args.prevLogIndex + 1) args.entries
  sorted : args.entries.Pairwise fun a b => a.term ≤ b.term
  terms : ∀ e ∈ args.entries, 1 ≤ e.term ∧ e.term ≤ args.term
  prev : 0 < args.prevLogIndex → ∀ e ∈ args.entries, args.prevLogTerm ≤ e.term

namespace LogStore.WellFormed

variable {l : LogStore} {term : Nat}

theorem new (term : Nat) : newLogStore.WellFormed term where
  positional := positional_new
  sorted := by simp
  terms := by simp

theorem mono (h : l.WellFormed term) {term' : Nat} (hle : term ≤ term') :
    l.WellFormed term' where
  positional := h.positional
  sorted := h.sorted
  terms e he := ⟨(h.terms e he).1, Nat.le_trans (h.terms e he).2 hle⟩

/-- Terms are ordered by position. -/
theorem term_le (h : l.WellFormed term) {i j : Nat} {a b : LogEntry}
    (hij : i ≤ j) (ha : l.body[i]? = some a) (hb : l.body[j]? = some b) :
    a.term ≤ b.term := by
  obtain ⟨hi, rfl⟩ := List.getElem?_eq_some_iff.mp ha
  obtain ⟨hj, rfl⟩ := List.getElem?_eq_some_iff.mp hb
  rcases Nat.eq_or_lt_of_le hij with rfl | hlt
  · exact Nat.le_refl _
  · exact List.pairwise_iff_getElem.mp h.sorted i j hi hj hlt

theorem push (h : l.WellFormed term) (hpos : 1 ≤ term) {e : LogEntry}
    (hterm : e.term = term) (hindex : e.index = l.body.length + 1) :
    (l.appendEntry e).WellFormed term where
  positional := h.positional.append hindex
  sorted := by
    rw [h.positional.body_append, List.pairwise_append]
    refine ⟨h.sorted, List.pairwise_singleton .., ?_⟩
    intro a ha b hb
    rw [List.mem_singleton.mp hb, hterm]
    exact (h.terms a ha).2
  terms x hx := by
    rw [h.positional.body_append] at hx
    rcases List.mem_append.mp hx with hx | hx
    · exact h.terms x hx
    · rw [List.mem_singleton.mp hx, hterm]
      exact ⟨hpos, Nat.le_refl _⟩

theorem prevTerm_eq (h : l.WellFormed term) {i : Nat} (hi : 0 < i) :
    l.prevTerm i = ((l.body[i - 1]?).map LogEntry.term).getD 0 := by
  rw [prevTerm, if_pos hi, h.positional.entryAt_pos hi]
  cases l.body[i - 1]? <;> rfl

/-- Any stretch of the log is a good request behind the entry before it. -/
theorem request (h : l.WellFormed term) {lo m : Nat} (hlo : 0 < lo)
    {args : AppendEntriesArgs} (hterm : args.term = term)
    (hindex : args.prevLogIndex = lo - 1)
    (hprev : args.prevLogTerm = l.prevTerm (lo - 1))
    (hentries : args.entries = (l.body.drop (lo - 1)).take m) :
    args.WellFormed where
  indexed := by
    rw [hindex, hentries, Nat.sub_add_cancel hlo]
    have := (h.positional.body_index.drop (lo - 1)).take m
    rwa [Nat.add_sub_cancel' hlo] at this
  sorted := by
    rw [hentries]
    exact (h.sorted.sublist (List.drop_sublist ..)).sublist (List.take_sublist ..)
  terms e he := by
    rw [hentries] at he
    rw [hterm]
    exact h.terms e (List.mem_of_mem_drop (List.mem_of_mem_take he))
  prev hpos e he := by
    rw [hentries] at he
    obtain ⟨k, hk⟩ := List.mem_iff_getElem?.mp (List.mem_of_mem_take he)
    rw [List.getElem?_drop] at hk
    rw [hindex] at hpos
    rw [hprev, h.prevTerm_eq hpos]
    cases hx : l.body[lo - 1 - 1]? with
    | none => exact Nat.zero_le _
    | some x => exact h.term_le (by omega) hx hk

end LogStore.WellFormed

/-! ## Installing a request -/

theorem matchesPrev_spec {l : LogStore} (hl : l.Positional)
    {args : AppendEntriesArgs} (h : l.matchesPrev args = true) :
    args.prevLogIndex = 0 ∨ ∃ x, l.body[args.prevLogIndex - 1]? = some x
      ∧ 0 < args.prevLogIndex ∧ x.term = args.prevLogTerm := by
  rcases Nat.eq_zero_or_pos args.prevLogIndex with h0 | hpos
  · exact .inl h0
  · right
    simp only [LogStore.matchesPrev, Bool.or_eq_true, decide_eq_true_eq] at h
    have h' := h.resolve_left (Nat.pos_iff_ne_zero.mp hpos)
    rw [hl.entryAt_pos hpos] at h'
    cases hx : l.body[args.prevLogIndex - 1]? with
    | none => rw [hx] at h'; cases h'
    | some x => rw [hx] at h'; exact ⟨x, rfl, hpos, of_decide_eq_true h'⟩

theorem matchesPrev_le {l : LogStore} (hl : l.Positional)
    {args : AppendEntriesArgs} (h : l.matchesPrev args = true) :
    args.prevLogIndex ≤ l.body.length := by
  rcases matchesPrev_spec hl h with h0 | ⟨x, hx, hpos, -⟩
  · omega
  · have := (List.getElem?_eq_some_iff.mp hx).1
    omega

/-- The entry in front of the part that a request rewrites. -/
theorem last_kept {l : LogStore} (hl : l.Positional) {args : AppendEntriesArgs}
    (hargs : args.WellFormed) (hprev : l.matchesPrev args = true) {j : Nat}
    (hj : j ≤ args.entries.length)
    (hagree : ∀ i, i < j → LogStore.termAt l.body (args.prevLogIndex + i)
      = LogStore.termAt args.entries i)
    (hpos : 0 < args.prevLogIndex + j) :
    ∃ x, l.body[args.prevLogIndex + j - 1]? = some x
      ∧ ∀ e ∈ args.entries.drop j, x.term ≤ e.term := by
  cases j with
  | zero =>
      rcases matchesPrev_spec hl hprev with h0 | ⟨x, hx, hp, ht⟩
      · omega
      · exact ⟨x, hx, fun e he => ht ▸ hargs.prev hp e (by simpa using he)⟩
  | succ j =>
      have hget := List.getElem?_eq_getElem (show j < args.entries.length by omega)
      have hterm := hagree j (Nat.lt_succ_self j)
      rw [LogStore.termAt, LogStore.termAt, hget] at hterm
      obtain ⟨x, hx, hxt⟩ := Option.map_eq_some_iff.mp hterm
      refine ⟨x, hx, ?_⟩
      intro e he
      obtain ⟨k, hk⟩ := List.mem_iff_getElem?.mp he
      rw [List.getElem?_drop] at hk
      obtain ⟨hlt, rfl⟩ := List.getElem?_eq_some_iff.mp hk
      rw [hxt]
      exact List.pairwise_iff_getElem.mp hargs.sorted j _ _ hlt (by omega)

theorem LogStore.WellFormed.install {l : LogStore} {args : AppendEntriesArgs}
    (h : l.WellFormed args.term) (hargs : args.WellFormed)
    (hprev : l.matchesPrev args = true) :
    (l.installAll args.entries).WellFormed args.term := by
  obtain ⟨j, hj, hagree, ⟨-, heq⟩ | ⟨-, -, hpos, hbody⟩⟩ :=
    installAll_spec h.positional hargs.indexed (matchesPrev_le h.positional hprev)
  · rw [heq]; exact h
  refine ⟨hpos, ?_, ?_⟩
  · rw [hbody, List.pairwise_append]
    refine ⟨h.sorted.sublist (List.take_sublist ..),
      hargs.sorted.sublist (List.drop_sublist ..), ?_⟩
    intro a ha b hb
    obtain ⟨i, hi⟩ := List.mem_iff_getElem?.mp ha
    rw [List.getElem?_take] at hi
    split at hi
    · rename_i hlt
      obtain ⟨x, hx, hle⟩ :=
        last_kept h.positional hargs hprev hj hagree (Nat.zero_lt_of_lt hlt)
      exact Nat.le_trans (h.term_le (by omega) hi hx) (hle b hb)
    · cases hi
  · intro e he
    rw [hbody] at he
    rcases List.mem_append.mp he with he | he
    · exact h.terms e (List.mem_of_mem_take he)
    · exact hargs.terms e (List.mem_of_mem_drop he)

/-! ## The invariant -/

structure LogInv (w : World) : Prop where
  logs : ∀ n, (w.core n).log.WellFormed (w.core n).currentTerm
  calls : ∀ c ∈ w.net.appendCalls, c.args.WellFormed

theorem logInv_init (C : Cluster) : LogInv C.init where
  logs _ := .new _
  calls _ h := by cases h

theorem heartbeatArgs_wellFormed {n : Node}
    (h : n.log.WellFormed n.currentTerm) {peer : String}
    (hnext : 1 ≤ n.nextIndex peer) : (n.heartbeatArgs peer).WellFormed := by
  unfold Node.heartbeatArgs
  split
  · refine h.request (m := n.log.body.length) hnext rfl rfl rfl ?_
    rw [List.take_of_length_le (by simp)]
    exact h.positional.entriesFrom_eq hnext
  · exact ⟨.nil _, .nil, by simp, by simp⟩

theorem replicateArgs_wellFormed {n : Node}
    (h : n.log.WellFormed n.currentTerm) {peer : String} {entry : LogEntry}
    {term : Nat} (hterm : n.currentTerm = term) (leaderCommit : Nat)
    (hnext : 1 ≤ n.nextIndex peer) :
    (n.replicateArgs peer entry term leaderCommit).WellFormed :=
  h.request hnext hterm.symm rfl rfl (h.positional.slice_eq hnext _)

theorem Won.pos {C : Cluster} {w : World} (hv : VoteInv C w)
    (hinv : ElectInv C w) {n : String} {term : Nat} (h : Won w n term) :
    1 ≤ term := by
  obtain ⟨-, args, ht, -, hvoted⟩ := h.voted hinv
  exact ht ▸ hv.pos n args (hinv.lasting n args hvoted)

section Step

variable {C : Cluster} {w w' : World} {a : Action}

theorem Node.VoteOutcome.log {n : Node} {args : RequestVoteArgs}
    {r : Node × RequestVoteReply} (h : n.VoteOutcome args r) :
    r.1.log = n.log := by
  cases h with
  | stale => rfl
  | denied _ hn' => rw [hn']; exact n.observeTerm_log _
  | granted _ hn' => rw [hn']; exact n.observeTerm_log _

theorem Node.AppendOutcome.wellFormed {n : Node} {args : AppendEntriesArgs}
    {r : Node × AppendEntriesReply × Bool} (h : n.AppendOutcome args r)
    (hlog : n.log.WellFormed n.currentTerm) (hargs : args.WellFormed) :
    r.1.log.WellFormed r.1.currentTerm := by
  cases h with
  | stale => exact hlog
  | rejected hterm hn' =>
      obtain ⟨hcur, hl, -⟩ := n.observeLeader_spec hterm
      subst hn'
      show (n.observeLeader args).log.WellFormed (n.observeLeader args).currentTerm
      rw [hcur, hl]
      exact hlog.mono hterm
  | accepted hterm hn' hprev =>
      obtain ⟨hcur, hl, -⟩ := n.observeLeader_spec hterm
      subst hn'
      show ((n.observeLeader args).log.installAll args.entries).WellFormed
        (n.observeLeader args).currentTerm
      rw [hl] at hprev ⊢
      rw [hcur]
      exact (hlog.mono hterm).install hargs hprev

theorem LogInv.logs_step (hinv : LogInv w) (hv : VoteInv C w)
    (helect : ElectInv C w) (hlead : LeadInv C w) (hmove : Move C w a w')
    (n : String) : (w'.core n).log.WellFormed (w'.core n).currentTerm := by
  have hlog := hinv.logs n
  cases hmove.core_step n with
  | same hcore => rw [hcore]; exact hlog
  | timeout _ hcore => rw [hcore]; exact hlog
  | @stepDown term _ hcore =>
      rw [hcore]
      show ((w.proc n).node.becomeFollower term).log.WellFormed
        ((w.proc n).node.becomeFollower term).currentTerm
      rw [Node.becomeFollower_log, Node.becomeFollower_currentTerm]
      exact hlog.mono (Nat.le_max_left ..)
  | campaign _ hcore => rw [hcore]; exact hlog.mono (Nat.le_succ _)
  | elect _ _ _ hcore => rw [hcore]; exact hlog
  | append hstate hentry hcore =>
      rw [hcore]
      refine hlog.push ((hlead.leader n hstate).pos hv helect) ?_ ?_
      · rw [hentry]; rfl
      · rw [hentry]
        exact congrArg (· + 1) hlog.positional.lastIndexAndTerm_fst
  | vote _ _ hout hcore =>
      rw [hcore]
      have hl : (Node.core _).log = (w.core n).log := hout.log
      rw [hl]
      exact hlog.mono hout.keeps.term
  | deliver hcall _ hout hcore =>
      rw [hcore]
      exact hout.wellFormed hlog (hinv.calls _ (List.mem_of_getElem? hcall))
  | restart hcore => rw [hcore]; exact .new _

theorem LogInv.calls_step (hinv : LogInv w) (hlead : LeadInv C w)
    (hmove : Move C w a w') : ∀ c ∈ w'.net.appendCalls, c.args.WellFormed := by
  intro c hc
  cases hmove with
  | @heartbeat n peer _ ws _ _ hrun hpeer _ hnet =>
      rw [hnet] at hc
      rcases List.mem_append.mp hc with hc | hc
      · exact hinv.calls c hc
      · cases List.mem_singleton.mp hc
        obtain ⟨term, hwon⟩ := hlead.led n (by rw [hrun]; rfl)
        exact heartbeatArgs_wellFormed (hinv.logs n)
          (hlead.next n term hwon peer hpeer)
  | @replicateSend n peer _ _ _ _ _ hcall hpeer hterm _ _ hnet =>
      rw [hnet] at hc
      rcases List.mem_append.mp hc with hc | hc
      · exact hinv.calls c hc
      · cases List.mem_singleton.mp hc
        obtain ⟨term, hwon⟩ := hlead.calls n fun hnil => by
          rw [hnil] at hcall
          cases hcall
        exact replicateArgs_wellFormed (hinv.logs n) hterm _
          (hlead.next n term hwon peer hpeer)
  | _ => exact hinv.calls c (by simpa only [*] using hc)

end Step

theorem logInv_of_reachable {C : Cluster} {w : World}
    (h : Reachable C.step blankRestart C.init w) : LogInv w :=
  h.invariant (logInv_init C) fun _ _ _ hr hinv _ hstep =>
    have hmove := C.move (static_of_reachable hr) hstep
    have hlead := leadInv_of_reachable hr
    { logs := hinv.logs_step (voteInv_of_reachable hr)
        (electInv_of_reachable hr) hlead hmove
      calls := hinv.calls_step hlead hmove }

/-! ## The representation -/

/-- What every helper of `log.go` and every index computation relies on. -/
structure LogRepresentation (w : World) : Prop where
  head : ∀ n, (w.proc n).node.log.entries.head? = some sentinel
  index : ∀ n (k : Nat) e, (w.proc n).node.log.entries[k]? = some e → e.index = k
  sorted : ∀ n, (w.proc n).node.log.entries.Pairwise
    fun a b => a.term ≤ b.term
  terms : ∀ n (k : Nat) e, 1 ≤ k → (w.proc n).node.log.entries[k]? = some e →
    1 ≤ e.term ∧ e.term ≤ (w.proc n).node.currentTerm
  requests : ∀ c ∈ w.net.appendCalls, ∀ (k : Nat) e, c.args.entries[k]? = some e →
    e.index = c.args.prevLogIndex + 1 + k
  /-- `nextIdx - 1` in `sendHeartbeatToPeer` -/
  heartbeat : ∀ n ws, (w.proc n).run = .heartbeats ws →
    ∀ peer ∈ (w.proc n).node.peers, 1 ≤ (w.proc n).node.nextIndex peer
  /-- `nextIdx - 1` in `replicateToPeer` -/
  replicate : ∀ n (r : Nat) c, (w.proc n).replicates[r]? = some c →
    ∀ peer ∈ (w.proc n).node.peers, 1 ≤ (w.proc n).node.nextIndex peer
  /-- `entry.Index - 1` in `HandleAppendEntries` -/
  install : ∀ c ∈ w.net.appendCalls, ∀ e ∈ c.args.entries, 1 ≤ e.index

theorem log_representation {C : Cluster} {w : World}
    (h : Reachable C.step noRestart C.init w) : LogRepresentation w := by
  have hr := h.mono fun _ _ => noRestart.blank
  have hw := static_of_reachable hr
  have hinv := logInv_of_reachable hr
  have hlead := leadInv_of_reachable hr
  have hlog : ∀ n, (w.proc n).node.log.WellFormed (w.proc n).node.currentTerm :=
    hinv.logs
  have hpeers : ∀ n, (w.proc n).node.peers = C.peers n := hw.peers
  refine ⟨fun n => (hlog n).positional.head, ?_, ?_, ?_,
    fun c hc => (hinv.calls c hc).indexed, ?_, ?_, ?_⟩
  · intro n k e hk
    simpa using (hlog n).positional.index k e hk
  · intro n
    rw [(hlog n).positional.entries_eq]
    exact List.pairwise_cons.mpr ⟨fun _ _ => Nat.zero_le _, (hlog n).sorted⟩
  · intro n k e hk he
    refine (hlog n).terms e (List.mem_iff_getElem?.mpr ⟨k - 1, ?_⟩)
    rw [(hlog n).positional.entries_eq, show k = k - 1 + 1 by omega,
      List.getElem?_cons_succ] at he
    exact he
  · intro n ws hrun peer hpeer
    obtain ⟨term, hwon⟩ := hlead.led n (by rw [hrun]; rfl)
    exact hlead.next n term hwon peer (hpeers n ▸ hpeer)
  · intro n r c hcall peer hpeer
    obtain ⟨term, hwon⟩ := hlead.calls n fun hnil => by
      rw [hnil] at hcall
      cases hcall
    exact hlead.next n term hwon peer (hpeers n ▸ hpeer)
  · intro c hc e he
    obtain ⟨k, hk⟩ := List.mem_iff_getElem?.mp he
    have := (hinv.calls c hc).indexed k e hk
    omega

/-- A leader with an entry in its log and a request for it on the way. -/
theorem log_representation_a :
    ∃ w, Reachable threeNodes.step noRestart threeNodes.init w
      ∧ (∃ c ∈ w.net.appendCalls, c.args.entries ≠ [])
      ∧ LogRepresentation w := by
  obtain ⟨w, hr, hcall⟩ : ∃ w,
      Reachable threeNodes.step noRestart threeNodes.init w
        ∧ ∃ c ∈ w.net.appendCalls, c.args.entries ≠ [] :=
    Reachable.of_exec_any (electRun ++ [.local "a" (.replicate [7]),
      .local "a" (.replicateSend 0 0)]) (by decide +kernel)
  exact ⟨w, hr, hcall, log_representation hr⟩

end RaftStore
