import RaftStore.LogScan

/-!
# What the locked sections do

One specification for each function on a node that changes its term,
vote, log or state. Later proofs use these and do not look inside.
-/

namespace RaftStore

namespace Node

variable (n : Node)

/-! ## Stepping down -/

@[simp] theorem becomeFollower_id (term : Nat) :
    (n.becomeFollower term).id = n.id := by
  unfold becomeFollower; split <;> rfl

@[simp] theorem becomeFollower_peers (term : Nat) :
    (n.becomeFollower term).peers = n.peers := by
  unfold becomeFollower; split <;> rfl

@[simp] theorem becomeFollower_log (term : Nat) :
    (n.becomeFollower term).log = n.log := by
  unfold becomeFollower; split <;> rfl

@[simp] theorem becomeFollower_state (term : Nat) :
    (n.becomeFollower term).state = .follower := by
  unfold becomeFollower; split <;> rfl

@[simp] theorem becomeFollower_currentTerm (term : Nat) :
    (n.becomeFollower term).currentTerm = max n.currentTerm term := by
  unfold becomeFollower
  split
  · simp only []; omega
  · simp only []; omega

theorem becomeFollower_votedFor {term : Nat} (h : term ≤ n.currentTerm) :
    (n.becomeFollower term).votedFor = n.votedFor := by
  unfold becomeFollower
  rw [if_neg (Nat.not_lt.mpr h)]

@[simp] theorem becomeFollower_commitIndex (term : Nat) :
    (n.becomeFollower term).commitIndex = n.commitIndex := by
  unfold becomeFollower; split <;> rfl

@[simp] theorem becomeFollower_lastApplied (term : Nat) :
    (n.becomeFollower term).lastApplied = n.lastApplied := by
  unfold becomeFollower; split <;> rfl

@[simp] theorem becomeFollower_nextIndex (term : Nat) :
    (n.becomeFollower term).nextIndex = n.nextIndex := by
  unfold becomeFollower; split <;> rfl

@[simp] theorem becomeFollower_matchIndex (term : Nat) :
    (n.becomeFollower term).matchIndex = n.matchIndex := by
  unfold becomeFollower; split <;> rfl

/-- A request that is not stale leaves the node at its term; it loses its
vote and its role exactly when the term is new to it. -/
theorem observeTerm_spec {term : Nat} (h : n.currentTerm ≤ term) :
    (n.currentTerm = term ∧ n.observeTerm term = n) ∨
      (n.currentTerm < term ∧ n.observeTerm term =
        { n with currentTerm := term, votedFor := "", state := .follower }) := by
  unfold observeTerm
  split
  · rename_i hlt
    exact .inr ⟨hlt, by rw [becomeFollower, if_pos hlt]⟩
  · exact .inl ⟨by omega, rfl⟩

/-! ## Voting -/

/-- The three ways `HandleRequestVote` ends. -/
inductive VoteOutcome (args : RequestVoteArgs) : Node × RequestVoteReply → Prop
    where
  | stale (hterm : args.term < n.currentTerm) :
      VoteOutcome args (n, { term := n.currentTerm, voteGranted := false })
  | denied {n' : Node} (hterm : n.currentTerm ≤ args.term)
      (hn' : n' = n.observeTerm args.term) :
      VoteOutcome args (n', { term := n'.currentTerm, voteGranted := false })
  | granted {n' : Node} (hterm : n.currentTerm ≤ args.term)
      (hn' : n' = n.observeTerm args.term)
      (hvoted : n'.votedFor = "" ∨ n'.votedFor = args.candidateID)
      (hlog : n'.log.lastIndexAndTerm.2 < args.lastLogTerm ∨
        (args.lastLogTerm = n'.log.lastIndexAndTerm.2
          ∧ n'.log.lastIndexAndTerm.1 ≤ args.lastLogIndex)) :
      VoteOutcome args
        ({ n' with
            votedFor := args.candidateID
            metrics := { n'.metrics with
              votesGranted := n'.metrics.votesGranted + 1 } },
          { term := n'.currentTerm, voteGranted := true })

theorem handleRequestVote_outcome (args : RequestVoteArgs) :
    n.VoteOutcome args (n.handleRequestVote args) := by
  unfold handleRequestVote
  split
  · exact .stale ‹_›
  · rename_i hterm
    simp only []
    split
    · exact .denied (Nat.le_of_not_lt hterm) rfl
    · rename_i hok
      simp only [Bool.or_eq_true, Bool.not_eq_true', not_or,
        Bool.not_eq_true, alreadyVoted, logOK] at hok
      refine .granted (Nat.le_of_not_lt hterm) rfl ?_ ?_
      · by_contra hno
        obtain ⟨h1, h2⟩ := not_or.mp hno
        simp [h1, h2] at hok
      · simpa [or_iff_not_imp_left] using hok.2

/-! ## Accepting entries -/

/-- The three ways `HandleAppendEntries` ends. -/
inductive AppendOutcome (args : AppendEntriesArgs) :
    Node × AppendEntriesReply × Bool → Prop where
  | stale (hterm : args.term < n.currentTerm) :
      AppendOutcome args (n, { term := n.currentTerm, success := false }, false)
  | rejected {n' : Node} (hterm : n.currentTerm ≤ args.term)
      (hn' : n' = n.observeLeader args)
      (hprev : n'.log.matchesPrev args = false) :
      AppendOutcome args
        (n', { term := n'.currentTerm, success := false }, false)
  | accepted {n' : Node} (hterm : n.currentTerm ≤ args.term)
      (hn' : n' = n.observeLeader args)
      (hprev : n'.log.matchesPrev args = true) :
      AppendOutcome args (n'.acceptEntries args,
        { term := n'.currentTerm, success := true },
        n'.commitIndex < args.leaderCommit)

theorem handleAppendEntries_outcome (args : AppendEntriesArgs) :
    n.AppendOutcome args (n.handleAppendEntries args) := by
  unfold handleAppendEntries
  split
  · exact .stale ‹_›
  · rename_i hterm
    simp only []
    split
    · exact .accepted (Nat.le_of_not_lt hterm) rfl ‹_›
    · exact .rejected (Nat.le_of_not_lt hterm) rfl (Bool.not_eq_true _ ▸ ‹_›)

/-- After `observeLeader` the node is at the request's term and is not a
candidate; log and bookkeeping are as before. -/
theorem observeLeader_spec {args : AppendEntriesArgs}
    (h : n.currentTerm ≤ args.term) :
    (n.observeLeader args).currentTerm = args.term
      ∧ (n.observeLeader args).log = n.log
      ∧ (n.observeLeader args).id = n.id
      ∧ (n.observeLeader args).peers = n.peers
      ∧ (n.observeLeader args).commitIndex = n.commitIndex
      ∧ (n.observeLeader args).lastApplied = n.lastApplied
      ∧ (n.observeLeader args).nextIndex = n.nextIndex
      ∧ (n.observeLeader args).matchIndex = n.matchIndex
      ∧ (n.observeLeader args).state ≠ .candidate
      ∧ ((n.observeLeader args).state = .leader →
        n.state = .leader ∧ n.currentTerm = args.term)
      ∧ (n.currentTerm = args.term →
        (n.observeLeader args).votedFor = n.votedFor) := by
  unfold observeLeader
  rcases n.observeTerm_spec h with ⟨heq, hn⟩ | ⟨hlt, hn⟩
  · rw [hn]
    refine ⟨heq, rfl, rfl, rfl, rfl, rfl, rfl, rfl, ?_, ?_, fun _ => rfl⟩
    · show (if n.state = .candidate then NodeState.follower else n.state)
        ≠ .candidate
      split <;> simp_all
    · show (if n.state = .candidate then NodeState.follower else n.state)
        = .leader → _
      split
      · intro hc; cases hc
      · exact fun hs => ⟨hs, heq⟩
  · rw [hn]
    refine ⟨rfl, rfl, rfl, rfl, rfl, rfl, rfl, rfl, ?_, ?_, ?_⟩
    · simp
    · simp
    · exact fun heq => absurd heq (Nat.ne_of_lt hlt)

end Node

end RaftStore
