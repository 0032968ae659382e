import RaftStore.OneNode

/-!
# Elections and the election timer

`loopCandidate` raises the term as soon as it is entered, and `run` enters
it again as long as the state is Candidate. Of its ways out, all but one
change the state or have the timer fire first. The one left is the end of
the loop: when the results of all peers are in and there is neither a
majority nor a higher term among them, the function returns with the state
still Candidate, and the next election starts at once (`rushed_election`).
With no peers the loop has no round and this happens always.

`Spent` holds from the start of an election until a timer fires: the node
is not about to enter `loopCandidate`, and if its state is Candidate then
`run` is at a point from which it will not come back to the top with that
state. Every step but the exhausted loop keeps it (`Spent.acts`).
-/

namespace RaftStore

open Runs

/-! ## The timers, and the way out without them -/

/-- The timer branch of `loopFollower` or of `loopCandidate`. -/
def NodeAction.isElectionTimer : NodeAction → Bool
  | .own _ .timeout => true
  | .own _ .electionTimeout => true
  | _ => false

/-- The result of the `k`-th peer is the last that `loopCandidate` waits
for, and it leaves the node a candidate: there is no higher term in it, and
with it there is no majority. -/
def Proc.endsUndecided (p : Proc) (k : Nat) (granted : Bool) (term : Nat) : Bool :=
  match p.run with
  | .counting c =>
      p.node.state = .candidate && term ≤ c.args.term
        && !(granted && p.node.majority ≤ c.votes + 1)
        && (c.ballots.eraseIdx k).all (· ≠ .waiting)
  | _ => false

/-- The step does not end an election of a candidate undecided. One without
peers is over as soon as it begins. -/
def Proc.decides (p : Proc) : NodeAction → Bool
  | .own _ .campaign => p.node.state ≠ .candidate || p.node.peers ≠ []
  | .own net (.voteReply k j) => net.voteAnswers[j]?.all fun answer =>
      !p.endsUndecided k answer.2.voteGranted answer.2.term
  | .own _ (.voteError k) => !p.endsUndecided k false 0
  | _ => true

def Decided (p : Proc) (a : NodeAction) : Prop := p.decides a = true

instance (p : Proc) (a : NodeAction) : Decidable (Decided p a) :=
  inferInstanceAs (Decidable (p.decides a = true))

/-! ## Between an election and the next timer -/

/-- Points of `run` that a node in state Candidate leaves for another
state, or not at all. -/
inductive Awaits (term : Nat) : RunLoc → Prop where
  | counting {c : Candidacy} (hterm : c.args.term = term) :
      Awaits term (.counting c)
  | becomeLeader : Awaits term (.becomeLeader term)
  | stepDown {t : Nat} : Awaits term (.stepDown t)
  | stopped : Awaits term .stopped

structure Spent (p : Proc) : Prop where
  entered : p.run ≠ .loopCandidate
  candidate : p.node.state = .candidate → Awaits p.node.currentTerm p.run

section

variable {p p' : Proc}

theorem Spent.of_same (h : Spent p) (hcore : p'.node.core = p.node.core)
    (hrun : p'.run = p.run) : Spent p' where
  entered := by rw [hrun]; exact h.entered
  candidate hs := by
    have hterm : p'.node.currentTerm = p.node.currentTerm :=
      congrArg Core.currentTerm hcore
    rw [hrun, hterm]
    exact h.candidate ((congrArg Core.state hcore).symm.trans hs)

/-- Away from `loopCandidate`, and not a candidate. -/
theorem Spent.of_role (hrun : p'.run ≠ .loopCandidate)
    (hstate : p'.node.state ≠ .candidate) : Spent p' :=
  ⟨hrun, fun hs => absurd hs hstate⟩

theorem Spent.not_candidate (h : Spent p)
    (hrun : ¬ Awaits p.node.currentTerm p.run) : p.node.state ≠ .candidate :=
  fun hs => hrun (h.candidate hs)

/-- When the last result leaves no ballot waiting, the others were in. -/
theorem Proc.endsUndecided_of_last {c : Candidacy} {k term : Nat} {granted : Bool}
    (hrun : p.run = .counting c) (hstate : p.node.state = .candidate)
    (hterm : ¬ c.args.term < term)
    (hwon : ¬ (granted && p.node.majority ≤ (c.count k granted).votes) = true)
    (hall : (c.count k granted).ballots.all (· ≠ .waiting) = true) :
    p.endsUndecided k granted term = true := by
  have hvotes : (granted && p.node.majority ≤ c.votes + 1) = false := by
    cases granted with
    | false => rfl
    | true => exact Bool.eq_false_iff.mpr hwon
  have hothers : (c.ballots.eraseIdx k).all (· ≠ .waiting) = true := by
    rw [List.all_eq_true] at hall ⊢
    intro b hb
    obtain ⟨i, hi, hget⟩ := List.mem_eraseIdx_iff_getElem?.mp hb
    have hkept : (c.count k granted).ballots[i]? = some b :=
      (List.getElem?_set_ne (Ne.symm hi)).trans hget
    exact hall b (List.mem_of_getElem? hkept)
  unfold endsUndecided
  rw [hrun]
  dsimp only
  rw [hstate, hvotes, hothers, decide_eq_true (Nat.not_lt.mp hterm)]
  rfl

/-- One round of the loop, when it is not the last without a decision. -/
theorem Spent.count (h : Spent p) {c : Candidacy} {k term : Nat}
    {granted : Bool} (hrun : p.run = .counting c)
    (hdecided : (!p.endsUndecided k granted term) = true) :
    Spent (p.countVote c k granted term) := by
  have hterm : p.node.state = .candidate → c.args.term = p.node.currentTerm := by
    intro hs
    have hawaits := h.candidate hs
    rw [hrun] at hawaits
    cases hawaits with
    | counting hterm => exact hterm
  unfold Proc.countVote
  by_cases hhigher : c.args.term < term
  · rw [if_pos hhigher]
    exact ⟨by simp, fun _ => .stepDown⟩
  · rw [if_neg hhigher]
    by_cases hwon : (granted && p.node.majority ≤ (c.count k granted).votes) = true
    · rw [if_pos hwon]
      refine ⟨by simp, ?_⟩
      intro hs
      show Awaits p.node.currentTerm (.becomeLeader c.args.term)
      rw [hterm hs]
      exact .becomeLeader
    · rw [if_neg hwon]
      by_cases hall : (c.count k granted).ballots.all (· ≠ .waiting) = true
      · rw [if_pos hall]
        refine .of_role (by simp) ?_
        intro hs
        rw [Proc.endsUndecided_of_last hrun hs hhigher hwon hall] at hdecided
        cases hdecided
      · rw [if_neg hall]
        exact ⟨by simp, fun hs => .counting (hterm hs)⟩

theorem Spent.move (h : Spent p) {net : Net} {a : Local} {out : Output}
    (hmove : p.Move net a p' out)
    (htimer : (NodeAction.own net a).isElectionTimer = false)
    (hdecided : Decided p (.own net a)) : Spent p' := by
  cases hmove with
  | load hrun =>
      have hstate : p.node.state ≠ .candidate := by
        refine h.not_candidate ?_
        rw [hrun]
        rintro ⟨⟩
      refine .of_role ?_ hstate
      dsimp only
      cases hs : p.node.state with
      | follower => simp
      | candidate => exact absurd hs hstate
      | leader => simp
  | timeout | electionTimeout => cases htimer
  | recvStepDown => exact ⟨by simp, fun _ => .stepDown⟩
  | stepDown => exact .of_role (by simp) (by simp)
  | campaign hrun => exact absurd hrun h.entered
  | voteReply hrun hwait hans =>
      refine h.count hrun ?_
      simpa [Decided, Proc.decides, hans] using hdecided
  | voteError hrun => exact h.count hrun hdecided
  | @becomeLeader term hrun =>
      refine .of_role (by simp) ?_
      show (p.node.becomeLeader term).state ≠ .candidate
      by_cases hs : p.node.state = .candidate
      · -- the term cannot have moved on, or the state would have changed
        have hawaits := h.candidate hs
        rw [hrun] at hawaits
        cases hawaits
        simp [Node.becomeLeader, Node.wins, hs]
      · rw [Node.becomeLeader_of_not_wins (by simp [Node.wins, hs])]
        exact hs
  | tick hrun =>
      refine .of_role (by dsimp only; split <;> simp) (h.not_candidate ?_)
      rw [hrun]
      rintro ⟨⟩
  | spawnHeartbeats hrun | heartbeat hrun | heartbeatError hrun
  | heartbeatApplied hrun | joinHeartbeats hrun =>
      refine .of_role (by simp) (h.not_candidate ?_)
      rw [hrun]
      rintro ⟨⟩
  | @heartbeatReply k _ _ ws peer args reply hrun =>
      obtain ⟨ws', hwaits⟩ := p.digestHeartbeat_waits ws k peer args reply
      have hcore := p.digestHeartbeat_core ws k peer args reply
      refine .of_role (by rw [hwaits]; simp) ?_
      have hstate : (p.digestHeartbeat ws k peer args reply).node.state
          = p.node.state := congrArg Core.state hcore
      rw [hstate]
      refine h.not_candidate ?_
      rw [hrun]
      rintro ⟨⟩
  | quit => exact ⟨by simp, fun _ => .stopped⟩
  | replicateReply => exact h.of_same (p.digestReplicate_core ..) (p.digestReplicate_run ..)
  | replicateCommit => exact h.of_same (by simp) rfl
  | replicate hs => exact .of_role h.entered (by simp [Node.appendCommand, hs])
  | _ => exact h.of_same rfl rfl

theorem Spent.acts (h : Spent p) {a : NodeAction}
    (htimer : a.isElectionTimer = false) (hdecided : Decided p a)
    (hact : p.act a = some p') : Spent p' := by
  cases Proc.acts hact with
  | own hmove => exact h.move hmove htimer hdecided
  | @voted args node reply hout =>
      refine ⟨h.entered, ?_⟩
      intro hs
      obtain ⟨hstate, hterm, -⟩ := hout.role (by rw [hs]; simp)
      show Awaits node.currentTerm p.run
      rw [hterm]
      exact h.candidate (hstate.symm.trans hs)
  | @appended args node reply apply hout =>
      refine ⟨by simpa using h.entered, ?_⟩
      rw [Proc.installed_node, Proc.installed_run]
      intro hs
      have heq : node = p.node := hout.candidate hs
      subst heq
      exact h.candidate hs

/-- An election that has just begun. -/
theorem spent_campaign {net : Net} (hdecided : Decided p (.own net .campaign))
    (hact : p.act (.own net .campaign) = some p') : Spent p' := by
  cases Proc.acts hact with
  | own hmove =>
      cases hmove with
      | campaign hrun =>
          by_cases hpeers : p.node.peers = []
          · have hstate : p.node.state ≠ .candidate := by
              simpa [Decided, Proc.decides, hpeers] using hdecided
            simp only [hpeers, if_true]
            exact .of_role (by simp) hstate
          · simp only [hpeers, if_false]
            exact ⟨by simp, fun _ => .counting rfl⟩
      | giveUp ha => rcases ha with ha | ha <;> cases ha

theorem Spent.no_campaign (h : Spent p) (net : Net) :
    p.act (.own net .campaign) = none := by
  rw [Option.eq_none_iff_forall_not_mem]
  intro p' hp'
  cases Proc.acts hp' with
  | own hmove =>
      cases hmove with
      | campaign hrun => exact h.entered hrun
      | giveUp ha => rcases ha with ha | ha <;> cases ha

end

/-! ## The result -/

/-- Where no election runs out of results undecided, a timer fires between
any two times that `loopCandidate` raises the term. -/
theorem one_election_per_timeout {id : String} {peers : List String}
    {applyCh : Bool} {p : Proc} {before between : List NodeAction}
    {net net' : Net}
    (h : Steps Proc.act Decided (newProc id peers applyCh)
      (before ++ .own net .campaign :: (between ++ [.own net' .campaign])) p) :
    ∃ a ∈ between, a.isElectionTimer = true := by
  obtain ⟨q, -, hdecided, q', hcampaign, hrest⟩ := steps_append.mp h
  exact Steps.passes (f := Proc.act) (P := Spent)
    (T := fun a => a.isElectionTimer = true) (b := .own net' .campaign)
    (fun _ _ _ hspent htimer hok hact =>
      hspent.acts (eq_false_of_ne_true htimer) hok hact)
    (fun _ hspent => hspent.no_campaign net')
    (spent_campaign hdecided hcampaign) hrest

/-- The peers stay silent; the candidate's timer fires and it tries again. -/
theorem one_election_per_timeout_b :
    ∃ p, Steps Proc.act Decided (newProc "a" ["b"] true)
        ([.own silentNet .load, .own silentNet .timeout, .own silentNet .load]
          ++ .own silentNet .campaign
            :: ([.own silentNet .electionTimeout, .own silentNet .load]
              ++ [.own silentNet .campaign])) p
      ∧ p.node.currentTerm = 2
      ∧ ∃ a ∈ [NodeAction.own silentNet .electionTimeout, .own silentNet .load],
        a.isElectionTimer = true := by
  obtain ⟨p, hsteps, hterm⟩ : ∃ p, Steps Proc.act Decided (newProc "a" ["b"] true)
      ([.own silentNet .load, .own silentNet .timeout, .own silentNet .load]
        ++ .own silentNet .campaign
          :: ([.own silentNet .electionTimeout, .own silentNet .load]
            ++ [.own silentNet .campaign])) p ∧ p.node.currentTerm = 2 :=
    Steps.of_exec_any _ (by decide +kernel)
  exact ⟨p, hsteps, hterm, one_election_per_timeout hsteps⟩

/-- The only peer cannot be reached: the term goes up again with no timer
in between. -/
theorem rushed_election :
    ∃ p between, Steps Proc.act anyAct (newProc "a" ["b"] true)
        ([.own silentNet .load, .own silentNet .timeout, .own silentNet .load]
          ++ .own silentNet .campaign
            :: (between ++ [.own silentNet .campaign])) p
      ∧ p.node.currentTerm = 2
      ∧ ¬ ∃ a ∈ between, a.isElectionTimer = true := by
  obtain ⟨p, hsteps, hterm⟩ : ∃ p, Steps Proc.act anyAct (newProc "a" ["b"] true)
      ([.own silentNet .load, .own silentNet .timeout, .own silentNet .load]
        ++ .own silentNet .campaign
          :: ([.own silentNet (.voteError 0), .own silentNet .load]
            ++ [.own silentNet .campaign])) p ∧ p.node.currentTerm = 2 :=
    Steps.of_exec_any _ (by decide +kernel)
  exact ⟨p, _, hsteps, hterm, by simp [NodeAction.isElectionTimer]⟩

end RaftStore
