import RaftStore.OneNode

/-!
# How a leader loses its role

The handlers demote a leader only when they raise its term. `loopLeader`
does it for every signal in `stepDownCh`, and `becomeFollower` does not
compare the signal's term with the present one before it stores Follower.
The signals come from goroutines that saw a reply of a higher term than
the one they were started in, which may be long past: a leader of a later
term then steps down for a term below its own (`stale_signal`).

If every signal a leader takes is for a higher term than its own
(`FreshSignals`), a leader gives up its role only to a higher term
(`abdicates_to_higher_term`). A signal may be taken while the lock is not
held, so the invariant is about the signal in hand as well (`InOffice`).
-/

namespace RaftStore

open Runs

/-! ## Signals -/

/-- A leader that takes a signal takes one for a higher term. -/
def FreshSignals (p : Proc) : NodeAction → Prop
  | .own _ a => a = .recvStepDown → p.node.state = .leader →
      ∀ t ∈ p.stepDownCh.head?, p.node.currentTerm < t
  | _ => True

instance (p : Proc) : (a : NodeAction) → Decidable (FreshSignals p a)
  | .own _ a => inferInstanceAs (Decidable (a = .recvStepDown → _ →
      ∀ t ∈ p.stepDownCh.head?, p.node.currentTerm < t))
  | .requestVote _ => inferInstanceAs (Decidable True)
  | .appendEntries _ => inferInstanceAs (Decidable True)

/-! ## The handlers -/

theorem Node.observeTerm_leader {n : Node} {term : Nat}
    (hs : n.state = .leader) (hs' : (n.observeTerm term).state ≠ .leader) :
    n.currentTerm < (n.observeTerm term).currentTerm := by
  unfold Node.observeTerm at hs' ⊢
  split at hs' <;> rename_i hlt
  · rw [if_pos hlt, Node.becomeFollower_currentTerm]
    omega
  · exact absurd hs hs'

theorem Node.VoteOutcome.demoted {n : Node} {args : RequestVoteArgs}
    {r : Node × RequestVoteReply} (h : n.VoteOutcome args r)
    (hs : n.state = .leader) (hs' : r.1.state ≠ .leader) :
    n.currentTerm < r.1.currentTerm := by
  cases h with
  | stale => exact absurd hs hs'
  | denied hterm hn' =>
      subst hn'
      exact Node.observeTerm_leader hs hs'
  | granted hterm hn' =>
      subst hn'
      exact Node.observeTerm_leader hs hs'

theorem Node.AppendOutcome.demoted {n : Node} {args : AppendEntriesArgs}
    {r : Node × AppendEntriesReply × Bool} (h : n.AppendOutcome args r)
    (hs : n.state = .leader) (hs' : r.1.state ≠ .leader) :
    n.currentTerm < r.1.currentTerm := by
  have hobserve : (n.observeLeader args).state ≠ .leader →
      n.currentTerm < (n.observeLeader args).currentTerm := by
    intro hne
    suffices hlead : (n.observeTerm args.term).state ≠ .leader from
      Node.observeTerm_leader hs hlead
    intro hlead
    refine hne ?_
    show (if (n.observeTerm args.term).state = .candidate then _ else _) = _
    rw [hlead]
    rfl
  cases h with
  | stale => exact absurd hs hs'
  | rejected hterm hn' =>
      subst hn'
      exact hobserve hs'
  | accepted hterm hn' =>
      subst hn'
      exact hobserve hs'

/-! ## A leader's place -/

/-- While the node is Leader, `run` is not in one of the other two loops,
and a signal it has in hand is for a higher term. -/
structure InOffice (p : Proc) : Prop where
  place : p.node.state = .leader → p.run.electing = false
  signal : p.node.state = .leader → ∀ t, p.run = .stepDown t →
    p.node.currentTerm < t

section

variable {p p' : Proc}

theorem InOffice.of_same (h : InOffice p) (hstate : p'.node.state = p.node.state)
    (hterm : p'.node.currentTerm = p.node.currentTerm) (hrun : p'.run = p.run) :
    InOffice p' where
  place hs := by
    rw [hrun]
    exact h.place (hstate.symm.trans hs)
  signal hs t ht := by
    rw [hterm]
    exact h.signal (hstate.symm.trans hs) t (hrun.symm.trans ht)

/-- At a point of `run` that asks for nothing. -/
theorem InOffice.of_run (hplace : p'.run.electing = false)
    (hsignal : ∀ t, p'.run ≠ .stepDown t) : InOffice p' :=
  ⟨fun _ => hplace, fun _ t ht => absurd ht (hsignal t)⟩

theorem InOffice.of_role (hstate : p'.node.state ≠ .leader) : InOffice p' :=
  ⟨fun hs => absurd hs hstate, fun hs => absurd hs hstate⟩

theorem InOffice.not_leader (h : InOffice p) (hrun : p.run.electing = true) :
    p.node.state ≠ .leader := by
  intro hs
  cases hrun.symm.trans (h.place hs)

theorem InOffice.move (h : InOffice p) {net : Net} {a : Local} {out : Output}
    (hmove : p.Move net a p' out) (hfresh : FreshSignals p (.own net a)) :
    InOffice p' := by
  cases hmove with
  | load hrun =>
      cases hs : p.node.state with
      | follower => exact .of_role (by simp [hs])
      | candidate => exact .of_role (by simp [hs])
      | leader => exact .of_run (by simp [RunLoc.electing]) (by simp)
  | timeout => exact .of_role (by simp [Node.electionTimeout])
  | recvStepDown hrun hch =>
      refine ⟨fun _ => rfl, ?_⟩
      rintro hs t ⟨⟩
      exact hfresh rfl hs _ (by rw [hch]; rfl)
  | stepDown => exact .of_role (by simp)
  | campaign hrun =>
      refine .of_role (h.not_leader ?_)
      rw [hrun]
      rfl
  | voteReply hrun | voteError hrun | electionTimeout hrun =>
      refine .of_role (h.not_leader ?_)
      rw [hrun]
      rfl
  | becomeLeader => exact .of_run rfl (by simp)
  | tick => exact .of_run (by dsimp only; split <;> rfl) (by intro t; split <;> simp)
  | spawnHeartbeats | heartbeat | heartbeatError | heartbeatApplied
  | joinHeartbeats | quit => exact .of_run rfl (by simp)
  | @heartbeatReply k _ _ ws peer args reply =>
      obtain ⟨ws', hwaits⟩ := p.digestHeartbeat_waits ws k peer args reply
      exact .of_run (by rw [hwaits]; rfl) (by rw [hwaits]; simp)
  | @replicateReply r k _ _ c peer _ reply =>
      have hcore := p.digestReplicate_core r c k peer reply
      exact h.of_same (congrArg Core.state hcore) (congrArg Core.currentTerm hcore)
        (p.digestReplicate_run ..)
  | @replicateCommit r c c' =>
      have hcore := p.node.commitEntry_core c.entry.index
      exact h.of_same (congrArg Core.state hcore) (congrArg Core.currentTerm hcore) rfl
  | _ => exact h.of_same rfl rfl rfl

theorem InOffice.acts (h : InOffice p) {a : NodeAction}
    (hfresh : FreshSignals p a) (hact : p.act a = some p') : InOffice p' := by
  cases Proc.acts hact with
  | own hmove => exact h.move hmove hfresh
  | @voted args node reply hout =>
      by_cases hs : node.state = .leader
      · obtain ⟨hstate, hterm, -⟩ := hout.role (by rw [hs]; simp)
        exact h.of_same hstate hterm rfl
      · exact .of_role hs
  | @appended args node reply apply hout =>
      by_cases hs : node.state = .leader
      · obtain ⟨hstate, hterm⟩ := hout.leader hs
        exact h.of_same (by simp [hs, hstate]) (by simpa using hterm) (by simp)
      · exact .of_role (by simpa using hs)

/-- The step that takes the role away. -/
theorem InOffice.leaves (h : InOffice p) {a : NodeAction}
    (hact : p.act a = some p') (hs : p.node.state = .leader)
    (hs' : p'.node.state ≠ .leader) : p.node.currentTerm < p'.node.currentTerm := by
  cases Proc.acts hact with
  | own hmove =>
      cases core_move hmove with
      | quiet hcore =>
          exact absurd ((congrArg Core.state hcore).trans hs) hs'
      | timeout hrun => exact absurd hs (h.not_leader (by rw [hrun]; rfl))
      | stepDown hrun =>
          have hlt := h.signal hs _ hrun
          show _ < (p.node.becomeFollower _).currentTerm
          rw [Node.becomeFollower_currentTerm]
          omega
      | campaign hrun => exact absurd hs (h.not_leader (by rw [hrun]; rfl))
      | elect hrun => exact absurd hs (h.not_leader (by rw [hrun]; rfl))
      | append _ hnode => exact absurd (by rw [hnode]; exact hs) hs'
      | heartbeat _ _ hnode => exact absurd (by rw [hnode]; exact hs) hs'
      | replicateSend _ _ _ _ hnode => exact absurd (by rw [hnode]; exact hs) hs'
  | voted hout => exact hout.demoted hs hs'
  | appended hout =>
      rw [Proc.installed_node] at hs' ⊢
      exact hout.demoted hs hs'

end

/-! ## The result -/

theorem inOffice_reachable {id : String} {peers : List String} {applyCh : Bool}
    {p : Proc}
    (h : Reachable Proc.act FreshSignals (newProc id peers applyCh) p) :
    InOffice p :=
  h.invariant (.of_run rfl (by simp [newProc]))
    fun _ _ _ _ hinv hfresh hact => hinv.acts hfresh hact

/-- Where a leader takes only signals for higher terms, it gives up its
role only in a step that raises its term. -/
theorem abdicates_to_higher_term {id : String} {peers : List String}
    {applyCh : Bool} {p p' : Proc} {a : NodeAction}
    (h : Reachable Proc.act FreshSignals (newProc id peers applyCh) p)
    (hact : p.act a = some p') (hs : p.node.state = .leader)
    (hs' : p'.node.state ≠ .leader) : p.node.currentTerm < p'.node.currentTerm :=
  (inOffice_reachable h).leaves hact hs hs'

theorem abdicates_to_higher_term_a :
    ∃ p p', Reachable Proc.act FreshSignals (newProc "a" ["b", "c"] true) p
      ∧ p.act (.requestVote ⟨2, "c", 0, 0⟩) = some p'
      ∧ p.node.state = .leader ∧ p'.node.state = .follower
      ∧ p.node.currentTerm < p'.node.currentTerm := by
  obtain ⟨p, hr, hs, hs'⟩ :
      ∃ p, Reachable Proc.act FreshSignals (newProc "a" ["b", "c"] true) p
        ∧ p.node.state = .leader
        ∧ (p.node.handleRequestVote ⟨2, "c", 0, 0⟩).1.state = .follower :=
    Reachable.of_exec_any (winSteps 1) (by decide +kernel)
  exact ⟨p, _, hr, rfl, hs, hs', abdicates_to_higher_term
    (a := .requestVote ⟨2, "c", 0, 0⟩) hr rfl hs (by rw [hs']; simp)⟩

/-- A leader of term 1 has a request under way to `c` when `c` asks for
votes in term 2; it wins term 3, and only then hears the reply of `c`. -/
def lateReplySteps : List NodeAction :=
  winSteps 1
    ++ [.own silentNet (.replicate [7]), .own silentNet (.replicateSend 0 1),
      .requestVote ⟨2, "c", 0, 0⟩]
    ++ winSteps 3
    ++ [.own silentNet .load, .own silentNet .spawnHeartbeats,
      .own silentNet (.heartbeat 0), .own silentNet (.heartbeatError 0),
      .own silentNet (.heartbeat 1), .own silentNet (.heartbeatError 1),
      .own silentNet .joinHeartbeats,
      .own { silentNet with appendAnswers := [(0, ⟨2, false⟩)] }
        (.replicateReply 0 1 0),
      .own silentNet .recvStepDown]

theorem stale_signal :
    ∃ p p', Reachable Proc.act anyAct (newProc "a" ["b", "c"] true) p
      ∧ p.act (.own silentNet .stepDown) = some p'
      ∧ p.node.state = .leader ∧ p.node.currentTerm = 3
      ∧ p'.node.state = .follower ∧ p'.node.currentTerm = 3 := by
  obtain ⟨p, hr, hs, hterm, hnext⟩ :
      ∃ p, Reachable Proc.act anyAct (newProc "a" ["b", "c"] true) p
        ∧ p.node.state = .leader ∧ p.node.currentTerm = 3
        ∧ (p.act (.own silentNet .stepDown)).any (fun p' =>
          p'.node.state = .follower && p'.node.currentTerm = 3) = true :=
    Reachable.of_exec_any lateReplySteps (by decide +kernel)
  obtain ⟨p', hact, hp'⟩ := (Option.any_eq_true ..).mp hnext
  simp only [Bool.and_eq_true, decide_eq_true_eq] at hp'
  exact ⟨p, p', hr, hact, hs, hterm, hp'⟩

end RaftStore
