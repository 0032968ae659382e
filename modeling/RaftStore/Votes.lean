import RaftStore.Steps

/-!
# Votes

A vote is a granted request or a candidacy, which is a vote for oneself;
the history records both. Within one life of a process, that is since it
last restarted, the node's `currentTerm` and `votedFor` account for all
votes it has cast (`VoteInv`), so it votes at most once a term
(`one_vote_per_life`). Nothing of this survives a restart:
`forgotten_vote` is a run in which a node votes twice in term 1.
-/

namespace RaftStore

open Runs

/-! ## Votes in a history -/

def Event.vote? : Event → Option (String × RequestVoteArgs)
  | .campaigned n args => some (n, args)
  | .granted n args => some (n, args)
  | _ => none

/-- `v` voted for the candidate of `args`, or is that candidate. -/
def Voted (history : List Event) (v : String) (args : RequestVoteArgs) : Prop :=
  ∃ e ∈ history, e.vote? = some (v, args)

instance (history : List Event) (v : String) (args : RequestVoteArgs) :
    Decidable (Voted history v args) :=
  inferInstanceAs (Decidable (∃ e ∈ history, e.vote? = some (v, args)))

/-- What happened since `n` last restarted; a history is newest first. -/
def sinceRestart (n : String) (history : List Event) : List Event :=
  history.takeWhile fun e => e ≠ .restarted n

theorem Voted.mono {h h' : List Event} (hsub : h ⊆ h') {v : String}
    {args : RequestVoteArgs} (hv : Voted h v args) : Voted h' v args :=
  hv.imp fun _ he => ⟨hsub he.1, he.2⟩

theorem voted_append {h h' : List Event} {v : String}
    {args : RequestVoteArgs} :
    Voted (h ++ h') v args ↔ Voted h v args ∨ Voted h' v args := by
  simp only [Voted, List.mem_append, or_and_right, exists_or]

theorem voted_cons {e : Event} {h : List Event} {v : String}
    {args : RequestVoteArgs} :
    Voted (e :: h) v args ↔ e.vote? = some (v, args) ∨ Voted h v args := by
  simp [Voted]

theorem not_voted_nil {v : String} {args : RequestVoteArgs} :
    ¬ Voted [] v args := by
  simp [Voted]

theorem sinceRestart_append {n : String} {evs h : List Event}
    (hevs : .restarted n ∉ evs) :
    sinceRestart n (evs ++ h) = evs ++ sinceRestart n h := by
  refine List.takeWhile_append_of_pos ?_
  intro e he
  simp only [ne_eq, decide_eq_true_eq]
  exact fun heq => hevs (heq ▸ he)

theorem sinceRestart_restarted {n : String} {h : List Event} :
    sinceRestart n (.restarted n :: h) = [] := by
  simp [sinceRestart]

/-! ## Casting a vote -/

/-- What casting a vote requires of a node and leaves behind. -/
structure NewVote (C : Cluster) (w w' : World) (v : String)
    (args : RequestVoteArgs) : Prop where
  candidate : args.candidateID ∈ C.members
  pos : 0 < args.term
  term_le : (w.core v).currentTerm ≤ args.term
  term' : (w'.core v).currentTerm = args.term
  votedFor' : (w'.core v).votedFor = args.candidateID
  votedFor : (w.core v).currentTerm = args.term → (w.core v).votedFor ≠ "" →
    (w.core v).votedFor = args.candidateID
  log' : (w'.core v).log = (w.core v).log
  upToDate : (w.core v).log.lastIndexAndTerm.2 < args.lastLogTerm ∨
    (args.lastLogTerm = (w.core v).log.lastIndexAndTerm.2
      ∧ (w.core v).log.lastIndexAndTerm.1 ≤ args.lastLogIndex)

theorem newVote_campaign {C : Cluster} {w w' : World} {n : String}
    (hid : (w.core n).id = n) (hn : n ∈ C.members)
    (hcore : w'.core
      = Function.update w.core n (w.proc n).node.startElection.core) :
    NewVote C w w' n (w.proc n).node.voteRequest := by
  have hcore' : w'.core n = (w.proc n).node.startElection.core := by
    rw [hcore, Function.update_self]
  refine ⟨(congrArg (· ∈ C.members) hid).mpr hn, Nat.succ_pos _, Nat.le_succ _,
    ?_, ?_, ?_, ?_, .inr ⟨rfl, Nat.le_refl _⟩⟩
  · rw [hcore']; rfl
  · rw [hcore']; rfl
  · exact fun heq => absurd heq (Nat.ne_of_lt (Nat.lt_succ_self _))
  · rw [hcore']; rfl

theorem Node.observeTerm_log (n : Node) (term : Nat) :
    (n.observeTerm term).log = n.log := by
  unfold Node.observeTerm
  split
  · exact n.becomeFollower_log term
  · rfl

theorem newVote_granted {C : Cluster} {w w' : World} {v : String}
    {args : RequestVoteArgs} {node : Node} {reply : RequestVoteReply}
    (hcand : args.candidateID ∈ C.members) (hpos : 0 < args.term)
    (hout : (w.proc v).node.VoteOutcome args (node, reply))
    (hcore : w'.core = Function.update w.core v node.core)
    (hgranted : reply.voteGranted = true) : NewVote C w w' v args := by
  have hkeeps := hout.keeps
  have hcore' : w'.core v = node.core := by rw [hcore, Function.update_self]
  cases hout with
  | stale => cases hgranted
  | denied => cases hgranted
  | @granted n' hterm hn' _ hlog =>
      have hlog' : n'.log = (w.proc v).node.log := by
        rw [hn', Node.observeTerm_log]
      have hterm' : n'.currentTerm = args.term := by
        rcases (w.proc v).node.observeTerm_spec hterm with ⟨heq, ho⟩ | ⟨_, ho⟩
        · rw [hn', ho, heq]
        · rw [hn', ho]
      rw [hlog'] at hlog
      refine ⟨hcand, hpos, hterm, ?_, ?_, ?_, ?_, hlog⟩
      · rw [hcore']; exact hterm'
      · rw [hcore']; rfl
      · exact fun heq hne => (hkeeps.vote (hterm'.trans heq.symm) hne).symm
      · rw [hcore']; exact hlog'

/-- How a step extends the history: restarts are recorded, and a recorded
vote is a `NewVote`. -/
theorem Move.history {C : Cluster} {w w' : World} {a : Action}
    (h : Move C w a w') (hw : Static C w) :
    ∃ evs, w'.history = evs ++ w.history
      ∧ (∀ n, .restarted n ∈ evs → a = .restart n)
      ∧ ∀ v args, Voted evs v args → NewVote C w w' v args := by
  have hnone : w'.history = w.history → ∃ evs, w'.history = evs ++ w.history
      ∧ (∀ n, .restarted n ∈ evs → a = .restart n)
      ∧ ∀ v args, Voted evs v args → NewVote C w w' v args := by
    intro hhist
    exact ⟨[], hhist, fun n hn => (List.not_mem_nil hn).elim,
      fun v args hv => absurd hv not_voted_nil⟩
  have hone : ∀ e : Event, w'.history = e :: w.history →
      (∀ n, e = .restarted n → a = .restart n) →
      (∀ v args, e.vote? = some (v, args) → NewVote C w w' v args) →
      ∃ evs, w'.history = evs ++ w.history
        ∧ (∀ n, .restarted n ∈ evs → a = .restart n)
        ∧ ∀ v args, Voted evs v args → NewVote C w w' v args := by
    intro e hhist hrestart hvote
    refine ⟨[e], hhist, ?_, ?_⟩
    · intro n hn
      exact hrestart n (List.mem_singleton.mp hn).symm
    · intro v args hv
      exact hvote v args ((voted_cons.mp hv).resolve_right not_voted_nil)
  cases h with
  | @quiet _ _ evs _ _ _ hevs hhist =>
      refine ⟨evs, hhist, ?_, ?_⟩
      · intro n hn
        obtain ⟨_, _, hx⟩ := hevs _ hn
        cases hx
      · rintro v args ⟨e, he, hvote⟩
        obtain ⟨_, _, rfl⟩ := hevs e he
        cases hvote
  | campaign hn _ hargs hcore _ hhist =>
      refine hone _ hhist (fun n hno => by cases hno) ?_
      rintro v args ⟨⟩
      exact hargs ▸ newVote_campaign (hw.id _) hn hcore
  | elect _ _ _ _ _ _ hhist =>
      exact hone _ hhist (fun n hno => by cases hno) (fun v args hno => by cases hno)
  | @vote call c node reply _ hcall hout hcore _ hhist =>
      cases hg : reply.voteGranted with
      | false =>
          rw [hg] at hhist
          exact hnone hhist
      | true =>
          rw [hg, if_pos rfl] at hhist
          refine hone _ hhist (fun n hno => by cases hno) ?_
          rintro v args ⟨⟩
          obtain ⟨hsrc, _, hid, hpos⟩ :=
            hw.voteCalls c (List.mem_of_getElem? hcall)
          exact newVote_granted (hid ▸ hsrc) hpos hout hcore hg
  | restart _ _ _ hhist =>
      refine hone _ hhist ?_ (fun v args hno => by cases hno)
      rintro n ⟨⟩
      rfl
  | timeout _ _ _ _ hhist | stepDown _ _ _ _ hhist | append _ _ _ _ _ hhist
  | heartbeat _ _ _ _ _ hhist | replicateSend _ _ _ _ _ _ _ hhist
  | deliver _ _ _ _ hhist => exact hnone hhist

/-! ## One vote a term -/

/-- A node's term and vote account for every vote of its present life. -/
structure VoteInv (C : Cluster) (w : World) : Prop where
  candidate : ∀ n args, Voted (sinceRestart n w.history) n args →
    args.candidateID ∈ C.members
  pos : ∀ n args, Voted (sinceRestart n w.history) n args → 0 < args.term
  term_le : ∀ n args, Voted (sinceRestart n w.history) n args →
    args.term ≤ (w.core n).currentTerm
  votedFor : ∀ n args, Voted (sinceRestart n w.history) n args →
    (w.core n).currentTerm = args.term →
      (w.core n).votedFor = args.candidateID
  unique : ∀ n args args', Voted (sinceRestart n w.history) n args →
    Voted (sinceRestart n w.history) n args' → args.term = args'.term →
      args.candidateID = args'.candidateID

theorem Cluster.ne_empty {C : Cluster} {id : String} (h : id ∈ C.members) :
    id ≠ "" := fun he => C.named (he ▸ h)

theorem voteInv_init (C : Cluster) : VoteInv C C.init where
  candidate _ _ h := absurd h not_voted_nil
  pos _ _ h := absurd h not_voted_nil
  term_le _ _ h := absurd h not_voted_nil
  votedFor _ _ h := absurd h not_voted_nil
  unique _ _ _ h := absurd h not_voted_nil

/-- A vote of the present life is an old one or cast in this step; after a
restart there is none. -/
theorem Move.voted_cases {C : Cluster} {w w' : World} {a : Action}
    (h : Move C w a w') (hw : Static C w) {n : String}
    {args : RequestVoteArgs} (hv : Voted (sinceRestart n w'.history) n args) :
    a ≠ .restart n ∧ (Voted (sinceRestart n w.history) n args
      ∨ NewVote C w w' n args) := by
  have hne : a ≠ .restart n := by
    rintro rfl
    cases h with
    | quiet hrestart => exact hrestart n rfl
    | restart _ _ _ hhist =>
        rw [hhist, sinceRestart_restarted] at hv
        exact not_voted_nil hv
  refine ⟨hne, ?_⟩
  obtain ⟨evs, hhist, hrestart, hnew⟩ := h.history hw
  rw [hhist, sinceRestart_append fun hmem => hne (hrestart n hmem)] at hv
  rcases voted_append.mp hv with hv | hv
  · exact .inr (hnew n args hv)
  · exact .inl hv

theorem NewVote.agrees {C : Cluster} {w w' : World} {n : String}
    {args args' : RequestVoteArgs} (hinv : VoteInv C w)
    (hnew : NewVote C w w' n args)
    (hold : Voted (sinceRestart n w.history) n args')
    (hterm : args.term = args'.term) : args.candidateID = args'.candidateID := by
  have hle := hinv.term_le n args' hold
  have hcur : (w.core n).currentTerm = args'.term := by
    have := hnew.term_le
    omega
  have hvoted := hinv.votedFor n args' hold hcur
  rw [← hvoted]
  refine (hnew.votedFor (hcur.trans hterm.symm) ?_).symm
  rw [hvoted]
  exact C.ne_empty (hinv.candidate n args' hold)

theorem Move.voteInv {C : Cluster} {w w' : World} {a : Action}
    (h : Move C w a w') (hw : Static C w) (hinv : VoteInv C w) :
    VoteInv C w' where
  candidate n args hv := by
    rcases (h.voted_cases hw hv).2 with hold | hnew
    · exact hinv.candidate n args hold
    · exact hnew.candidate
  pos n args hv := by
    rcases (h.voted_cases hw hv).2 with hold | hnew
    · exact hinv.pos n args hold
    · exact hnew.pos
  term_le n args hv := by
    obtain ⟨hne, hold | hnew⟩ := h.voted_cases hw hv
    · exact Nat.le_trans (hinv.term_le n args hold) (h.keeps hne).term
    · exact Nat.le_of_eq hnew.term'.symm
  votedFor n args hv hcur := by
    obtain ⟨hne, hold | hnew⟩ := h.voted_cases hw hv
    · have hkeeps := h.keeps hne
      have hcur' : (w.core n).currentTerm = args.term := by
        have := hinv.term_le n args hold
        have := hkeeps.term
        omega
      have hvoted := hinv.votedFor n args hold hcur'
      rw [hkeeps.vote (hcur.trans hcur'.symm), hvoted]
      rw [hvoted]
      exact C.ne_empty (hinv.candidate n args hold)
    · exact hnew.votedFor'
  unique n args args' hv hv' hterm := by
    rcases (h.voted_cases hw hv).2 with hold | hnew <;>
      rcases (h.voted_cases hw hv').2 with hold' | hnew'
    · exact hinv.unique n args args' hold hold' hterm
    · exact (hnew'.agrees hinv hold hterm.symm).symm
    · exact hnew.agrees hinv hold' hterm
    · exact hnew.votedFor'.symm.trans hnew'.votedFor'

theorem voteInv_of_reachable {C : Cluster} {ok : World → Action → Prop}
    {w : World} (h : Reachable C.step ok C.init w) : VoteInv C w :=
  h.invariant (voteInv_init C) fun _ _ _ hr hinv _ hstep =>
    have hw := static_of_reachable hr
    (C.move hw hstep).voteInv hw hinv

/-- Whatever crashes and restarts: all votes a process casts in one term
between two starts name the same candidate. -/
theorem one_vote_per_life {C : Cluster} {w : World}
    (h : Reachable C.step anyStep C.init w) {n : String}
    {args args' : RequestVoteArgs}
    (hv : Voted (sinceRestart n w.history) n args)
    (hv' : Voted (sinceRestart n w.history) n args')
    (hterm : args.term = args'.term) : args.candidateID = args'.candidateID :=
  (voteInv_of_reachable h).unique n args args' hv hv' hterm

/-- `a` campaigns in term 1 and `b` votes for it; `b` restarts; `c`, which
has heard nothing, campaigns in term 1 too and gets the vote of `b`. -/
def forgottenVoteRun : List Action :=
  [.local "a" .load, .local "a" .timeout, .local "a" .load,
    .local "a" .campaign, .deliverVote 0, .crash "b", .restart "b",
    .local "c" .load, .local "c" .timeout, .local "c" .load,
    .local "c" .campaign, .deliverVote 3]

theorem forgotten_vote :
    ∃ w, Reachable threeNodes.step anyStep threeNodes.init w
      ∧ Voted w.history "b" ⟨1, "a", 0, 0⟩
      ∧ Voted w.history "b" ⟨1, "c", 0, 0⟩ :=
  Reachable.of_exec_any forgottenVoteRun (by decide +kernel)

/-- The second life of `b` in that run: it has its one vote, for `c`. -/
theorem one_vote_per_life_b :
    ∃ w, Reachable threeNodes.step anyStep threeNodes.init w
      ∧ Voted (sinceRestart "b" w.history) "b" ⟨1, "c", 0, 0⟩
      ∧ (⟨1, "c", 0, 0⟩ : RequestVoteArgs).candidateID = "c" := by
  obtain ⟨w, hr, hv⟩ : ∃ w, Reachable threeNodes.step anyStep threeNodes.init w
      ∧ Voted (sinceRestart "b" w.history) "b" ⟨1, "c", 0, 0⟩ :=
    Reachable.of_exec_any forgottenVoteRun (by decide +kernel)
  exact ⟨w, hr, hv, one_vote_per_life hr hv hv rfl⟩

end RaftStore
