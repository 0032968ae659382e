import RaftStore.OneNode

/-!
# Counting to a majority

`loopCandidate` and `Replicate` both receive one result a peer and test the
count only where a positive result has just been added. Here each of the
two is followed from its first locked section to its return, over any list
of results in the order of their arrival and with nothing else happening:
no stop, no timer, no signal, no higher term. The rounds are those of
`World` (`Proc.countVote`, `Proc.countAck`), and a list of results is a
list of its steps (`takeResults_steps`, `takeAcks_steps`).

Both decide as the size of the quorum says on exactly the nodes that have a
peer (`quorum_decisions_exact`). Without peers the loops have no round: one
vote and one acknowledgement are a majority of one, and neither is ever
noticed (`lone_node_undecided`).
-/

namespace RaftStore

open Runs Quorum

/-! ## `loopCandidate` -/

/-- What the goroutine for the peer at position `peer` posts to `resultCh`.
After a transport error that is no vote, with term 0. -/
structure VoteResult where
  peer : Nat
  granted : Bool
  term : Nat
  deriving DecidableEq

namespace Proc

/-- The select loop when only results arrive. -/
def takeResults (p : Proc) : List VoteResult → Proc
  | [] => p
  | r :: rs =>
      match p.run with
      | .counting c => (p.countVote c r.peer r.granted r.term).takeResults rs
      | _ => p

/-- The locked section `loopCandidate` ends with, where it has one. -/
def endElection (p : Proc) : Proc :=
  ((p.becomeLeader <|> p.stepDown).map Prod.fst).getD p

def loopCandidate (net : Net) (p : Proc) (results : List VoteResult) : Option Proc :=
  (p.campaign net).map fun r => (r.1.takeResults results).endElection

end Proc

/-- Every peer's result arrives once, and none has a higher term. -/
structure VoteResults (n : Node) (results : List VoteResult) : Prop where
  once : (results.map VoteResult.peer).Perm (List.range n.peers.length)
  terms : ∀ r ∈ results, r.term ≤ n.currentTerm + 1

/-- A slot of `resultCh` that is still empty. -/
def Ballot.isWaiting (b : Ballot) : Bool := b = .waiting

namespace Proc

theorem takeResults_settled {p : Proc} (h : ∀ c, p.run ≠ .counting c)
    (rs : List VoteResult) : p.takeResults rs = p := by
  cases rs with
  | nil => rfl
  | cons r rs =>
      rw [takeResults]
      split
      · exact absurd ‹_› (h _)
      · rfl

/-- A round without a higher term. -/
theorem countVote_run {p : Proc} {c : Candidacy} {k term : Nat} {granted : Bool}
    {ks : List Nat} (hterm : term ≤ c.args.term)
    (hpending : Pending Ballot.isWaiting (c.count k granted).ballots ks) :
    p.countVote c k granted term
      = { p with
          run := if granted && p.node.majority ≤ (c.count k granted).votes then
              .becomeLeader c.args.term
            else if ks = [] then .top
            else .counting (c.count k granted) } := by
  have hall : (c.count k granted).ballots.all (· ≠ .waiting) = true ↔ ks = [] := by
    rw [← hpending.all_closed, List.all_eq_true]
    simp [Ballot.isWaiting]
  rw [countVote, if_neg (Nat.not_lt.mpr hterm)]
  simp only [hall]

/-- The loop from some round on: it ends with `becomeLeader` or, when every
ballot is counted, without. -/
theorem takeResults_run {p : Proc} {c : Candidacy} {rs : List VoteResult}
    (hrun : p.run = .counting c)
    (hpending : Pending Ballot.isWaiting c.ballots (rs.map VoteResult.peer))
    (hnodup : (rs.map VoteResult.peer).Nodup)
    (hterms : ∀ r ∈ rs, r.term ≤ c.args.term) (hne : rs ≠ []) :
    p.takeResults rs = { p with
      run := if reaches p.node.majority c.votes (rs.map VoteResult.granted)
        then .becomeLeader c.args.term else .top } := by
  induction rs generalizing p c with
  | nil => exact absurd rfl hne
  | cons r rs ih =>
      have hpending' : Pending Ballot.isWaiting (c.count r.peer r.granted).ballots
          (rs.map VoteResult.peer) := hpending.close hnodup rfl
      have hreaches : reaches p.node.majority c.votes
            ((r :: rs).map VoteResult.granted)
          = (r.granted && p.node.majority ≤ (c.count r.peer r.granted).votes
            || reaches p.node.majority (c.count r.peer r.granted).votes
              (rs.map VoteResult.granted)) := rfl
      rw [takeResults, hrun]
      dsimp only
      rw [countVote_run (hterms r List.mem_cons_self) hpending', hreaches]
      by_cases hwon : (r.granted && p.node.majority
          ≤ (c.count r.peer r.granted).votes) = true
      · rw [if_pos hwon, takeResults_settled (by simp), hwon, Bool.true_or]
        rfl
      · rw [if_neg hwon, Bool.eq_false_iff.mpr hwon, Bool.false_or]
        by_cases hrest : rs = []
        · subst hrest
          rfl
        · rw [if_neg (mt List.map_eq_nil_iff.mp hrest)]
          exact ih (p := { p with run := .counting (c.count r.peer r.granted) })
            rfl hpending' (List.nodup_cons.mp hnodup).2
            (fun x hx => hterms x (List.mem_cons_of_mem _ hx)) hrest

theorem endElection_won {p : Proc} {term : Nat} (h : p.run = .becomeLeader term) :
    p.endElection = { p with node := p.node.becomeLeader term, run := .top } := by
  rw [endElection, becomeLeader, h]
  rfl

theorem endElection_open {p : Proc} (h : p.run = .top) : p.endElection = p := by
  rw [endElection, becomeLeader, stepDown, h]
  rfl

end Proc

theorem Node.becomeLeader_candidate {n : Node} (h : n.state = .candidate) :
    (n.startElection.becomeLeader n.voteRequest.term).state = .leader := by
  have hwins : n.startElection.wins n.voteRequest.term = true := by
    simp [Node.wins, Node.startElection, Node.voteRequest, h]
  rw [Node.becomeLeader, if_pos hwins]

theorem Node.one_lt_majority {n : Node} (h : n.peers ≠ []) : 1 < n.majority := by
  have := List.length_pos_of_ne_nil h
  unfold Node.majority
  omega

/-- The whole call, up to its last locked section. -/
theorem Proc.loopCandidate_eq {p : Proc} (net : Net) {results : List VoteResult}
    (hrun : p.run = .loopCandidate) (hpeers : p.node.peers ≠ [])
    (h : VoteResults p.node results) :
    p.loopCandidate net results = some (Proc.endElection { p with
      node := p.node.startElection
      run := if reaches p.node.majority 1 (results.map VoteResult.granted)
        then .becomeLeader p.node.voteRequest.term else .top }) := by
  have hne : results ≠ [] := by
    rintro rfl
    exact hpeers (List.length_eq_zero_iff.mp (by simpa using h.once.length_eq.symm))
  have hnodup : (results.map VoteResult.peer).Nodup :=
    h.once.nodup_iff.mpr List.nodup_range
  unfold Proc.loopCandidate Proc.campaign
  rw [hrun]
  dsimp only
  rw [Option.map_some, if_neg hpeers,
    Proc.takeResults_run rfl (pending_of_open rfl h.once) hnodup h.terms hne]
  rfl

/-- The decision of an election with at least one peer. -/
theorem Proc.loopCandidate_decides {p : Proc} (net : Net) {results : List VoteResult}
    (hrun : p.run = .loopCandidate) (hstate : p.node.state = .candidate)
    (hpeers : p.node.peers ≠ []) (h : VoteResults p.node results) :
    ∃ p', p.loopCandidate net results = some p' ∧ p'.run = .top
      ∧ (p'.node.state = .leader ↔
        p.node.majority ≤ 1 + (results.map VoteResult.granted).count true) := by
  rw [← reaches_iff (Node.one_lt_majority hpeers), p.loopCandidate_eq net hrun hpeers h]
  cases reaches p.node.majority 1 (results.map VoteResult.granted) with
  | true =>
      rw [if_pos rfl, Proc.endElection_won rfl]
      exact ⟨_, rfl, rfl, iff_of_true (Node.becomeLeader_candidate hstate) rfl⟩
  | false =>
      rw [if_neg Bool.false_ne_true, Proc.endElection_open rfl]
      refine ⟨_, rfl, rfl, iff_of_false ?_ Bool.false_ne_true⟩
      show p.node.state ≠ .leader
      rw [hstate]
      simp

/-! ## `Replicate` -/

/-- What the goroutine for the peer at position `peer` posts to `ackCh`. -/
structure Ack where
  peer : Nat
  ok : Bool
  deriving DecidableEq

namespace Proc

/-- The select loop when only results arrive. -/
def takeAcks (p : Proc) (c : ReplicateCall) : List Ack → ReplicateCall
  | [] => c
  | a :: as =>
      match c.loc with
      | .waiting => p.takeAcks (p.countAck c a.peer a.ok) as
      | _ => c

/-- `Replicate`. The goroutines have left `nextIndex` and `matchIndex` as
given when the call locks again. `none` means that the node is not Leader
or that the call has not returned. -/
def replicateCall (p : Proc) (command : Command) (acks : List Ack)
    (nextIndex matchIndex : String → Nat) : Option (Node × ReplicateResult) :=
  (p.replicate command).bind fun r =>
    let c := p.takeAcks (p.openCall command) acks
    let n := { r.1.node with nextIndex := nextIndex, matchIndex := matchIndex }
    match c.loc with
    | .commit => some ((n.commitEntry c.entry.index).claim, .ok)
    | .returned result => some (n, result)
    | _ => none

theorem takeAcks_settled {p : Proc} {c : ReplicateCall} (h : c.loc ≠ .waiting)
    (as : List Ack) : p.takeAcks c as = c := by
  cases as with
  | nil => rfl
  | cons a as =>
      rw [takeAcks]
      split
      · exact absurd ‹_› h
      · rfl

/-- A result not yet taken from `ackCh`. -/
def isOut (w : Worker) : Bool := !w.isReceived

theorem countAck_loc {p : Proc} {c : ReplicateCall} {k : Nat} {ok : Bool}
    {ks : List Nat} (hpending : Pending isOut (p.countAck c k ok).workers ks) :
    (p.countAck c k ok).loc
      = if ok && p.node.majority ≤ (p.countAck c k ok).acks then .commit
        else if ks = [] then .returned .timedOut
        else .waiting := by
  have hall : (p.countAck c k ok).workers.all Worker.isReceived = true ↔ ks = [] := by
    rw [← hpending.all_closed, List.all_eq_true]
    simp [isOut]
  simp only [← hall]
  rfl

theorem takeAcks_loc {p : Proc} {c : ReplicateCall} {as : List Ack}
    (hloc : c.loc = .waiting) (hpending : Pending isOut c.workers (as.map Ack.peer))
    (hnodup : (as.map Ack.peer).Nodup) (hne : as ≠ []) :
    (p.takeAcks c as).entry = c.entry
      ∧ (p.takeAcks c as).loc = if reaches p.node.majority c.acks (as.map Ack.ok)
        then .commit else .returned .timedOut := by
  induction as generalizing c with
  | nil => exact absurd rfl hne
  | cons a as ih =>
      have hpending' : Pending isOut (p.countAck c a.peer a.ok).workers
          (as.map Ack.peer) := hpending.close hnodup rfl
      have hloc' := countAck_loc hpending'
      have hreaches : reaches p.node.majority c.acks ((a :: as).map Ack.ok)
          = (a.ok && p.node.majority ≤ (p.countAck c a.peer a.ok).acks
            || reaches p.node.majority (p.countAck c a.peer a.ok).acks
              (as.map Ack.ok)) := rfl
      rw [takeAcks, hloc]
      dsimp only
      rw [hreaches]
      by_cases hwon : (a.ok && p.node.majority
          ≤ (p.countAck c a.peer a.ok).acks) = true
      · rw [if_pos hwon] at hloc'
        rw [takeAcks_settled (by simp [hloc']), hwon, Bool.true_or]
        exact ⟨rfl, hloc'⟩
      · rw [if_neg hwon] at hloc'
        rw [Bool.eq_false_iff.mpr hwon, Bool.false_or]
        by_cases hrest : as = []
        · subst hrest
          exact ⟨rfl, hloc'⟩
        · rw [if_neg (mt List.map_eq_nil_iff.mp hrest)] at hloc'
          exact ih hloc' hpending' (List.nodup_cons.mp hnodup).2 hrest

end Proc

theorem Node.le_commitEntry (n : Node) (index : Nat) :
    index ≤ (n.commitEntry index).commitIndex := by
  unfold Node.commitEntry
  split
  · exact Nat.le_refl _
  · rename_i h
    exact Nat.not_lt.mp h

/-- The outcome of a write with at least one peer. -/
theorem Proc.replicateCall_decides {p : Proc} (command : Command) {acks : List Ack}
    (nextIndex matchIndex : String → Nat) (hstate : p.node.state = .leader)
    (hpeers : p.node.peers ≠ [])
    (honce : (acks.map Ack.peer).Perm (List.range p.node.peers.length)) :
    ∃ n' result, p.replicateCall command acks nextIndex matchIndex = some (n', result)
      ∧ (result = .ok ∧ (p.node.newEntry command).index ≤ n'.commitIndex ↔
        p.node.majority ≤ 1 + (acks.map Ack.ok).count true) := by
  have hne : acks ≠ [] := by
    rintro rfl
    exact hpeers (List.length_eq_zero_iff.mp (by simpa using honce.length_eq.symm))
  have hwaiting : (p.openCall command).loc = .waiting := if_neg hpeers
  obtain ⟨hentry, hloc⟩ := takeAcks_loc (p := p) hwaiting
    (pending_of_open rfl honce) (honce.nodup_iff.mpr List.nodup_range) hne
  rw [← reaches_iff (Node.one_lt_majority hpeers)]
  rw [show (p.openCall command).acks = 1 from rfl] at hloc
  unfold Proc.replicateCall Proc.replicate
  rw [if_pos hstate, Option.bind_some]
  dsimp only
  rw [hloc, hentry]
  cases reaches p.node.majority 1 (acks.map Ack.ok) with
  | true => exact ⟨_, _, rfl, iff_of_true ⟨rfl, Node.le_commitEntry ..⟩ rfl⟩
  | false => exact ⟨_, _, rfl, iff_of_false (by simp) Bool.false_ne_true⟩

/-! ## The loops as steps of the process -/

/-- `loopCandidate`'s loop, with the replies on the network. -/
theorem Proc.takeResults_steps {net : Net} {p : Proc} {c : Candidacy}
    {rs : List VoteResult} (hrun : p.run = .counting c)
    (hpending : Pending Ballot.isWaiting c.ballots (rs.map VoteResult.peer))
    (hnodup : (rs.map VoteResult.peer).Nodup)
    (hterms : ∀ r ∈ rs, r.term ≤ c.args.term)
    (hnet : ∀ r ∈ rs, (c.firstCall + r.peer, ⟨r.term, r.granted⟩) ∈ net.voteAnswers) :
    ∃ as, (∀ a ∈ as, ∃ k j, a = .own net (.voteReply k j))
      ∧ Steps Proc.act anyAct p as (p.takeResults rs) := by
  induction rs generalizing p c with
  | nil => exact ⟨[], by simp, rfl⟩
  | cons r rs ih =>
      have hpending' : Pending Ballot.isWaiting (c.count r.peer r.granted).ballots
          (rs.map VoteResult.peer) := hpending.close hnodup rfl
      obtain ⟨j, hj⟩ := List.mem_iff_getElem?.mp (hnet r List.mem_cons_self)
      obtain ⟨b, hb, hwaiting⟩ := (hpending r.peer).mpr List.mem_cons_self
      obtain rfl := of_decide_eq_true hwaiting
      have hstep : p.act (.own net (.voteReply r.peer j))
          = some (p.countVote c r.peer r.granted r.term) := by
        simp [Proc.act, Proc.step, Proc.voteReply, hrun, hj, hb]
      have hround := countVote_run (p := p) (hterms r List.mem_cons_self) hpending'
      rw [takeResults, hrun]
      dsimp only
      by_cases hgoes : ∃ c', (p.countVote c r.peer r.granted r.term).run = .counting c'
      · obtain ⟨c', hc'⟩ := hgoes
        obtain rfl : c' = c.count r.peer r.granted := by
          rw [hround] at hc'
          dsimp only at hc'
          split at hc'
          · cases hc'
          · split at hc'
            · cases hc'
            · exact (RunLoc.counting.inj hc').symm
        obtain ⟨as, has, hsteps⟩ := ih hc' hpending' (List.nodup_cons.mp hnodup).2
          (fun x hx => hterms x (List.mem_cons_of_mem _ hx))
          (fun x hx => hnet x (List.mem_cons_of_mem _ hx))
        exact ⟨_ :: as, List.forall_mem_cons.mpr ⟨⟨_, _, rfl⟩, has⟩,
          trivial, _, hstep, hsteps⟩
      · rw [takeResults_settled fun c' hc' => hgoes ⟨c', hc'⟩]
        exact ⟨[_], by simp, trivial, _, hstep, rfl⟩

/-- The loop looks at no other call. -/
theorem Proc.takeAcks_replicates (p : Proc) (calls : List ReplicateCall)
    (c : ReplicateCall) (as : List Ack) :
    Proc.takeAcks { p with replicates := calls } c as = p.takeAcks c as := by
  induction as generalizing c with
  | nil => rfl
  | cons a as ih =>
      rw [takeAcks, takeAcks]
      split
      · exact ih _
      · rfl

/-- `Replicate`'s loop, once the goroutines have posted what they found. -/
theorem Proc.takeAcks_steps (net : Net) {p : Proc} {r : Nat} {c : ReplicateCall}
    {as : List Ack} (hcall : p.replicates[r]? = some c)
    (hnodup : (as.map Ack.peer).Nodup)
    (hposted : ∀ a ∈ as, c.workers[a.peer]? = some (.done a.ok)) :
    ∃ bs, (∀ b ∈ bs, ∃ k, b = .own net (.receiveAck r k))
      ∧ Steps Proc.act anyAct p bs
        { p with replicates := p.replicates.set r (p.takeAcks c as) } := by
  have hlt := (List.getElem?_eq_some_iff.mp hcall).1
  have hsame : p.replicates.set r c = p.replicates := by
    obtain ⟨_, rfl⟩ := List.getElem?_eq_some_iff.mp hcall
    exact List.set_getElem_self _
  induction as generalizing p c with
  | nil => exact ⟨[], by simp, by rw [takeAcks, hsame]; rfl⟩
  | cons a as ih =>
      by_cases hloc : c.loc = .waiting
      · have ha := hposted a List.mem_cons_self
        have hstep : p.act (.own net (.receiveAck r a.peer))
            = some { p with
              replicates := p.replicates.set r (p.countAck c a.peer a.ok) } := by
          simp [Proc.act, Proc.step, Proc.receiveAck, hcall, hloc, ha]
        have hposted' : ∀ x ∈ as,
            (p.countAck c a.peer a.ok).workers[x.peer]? = some (.done x.ok) := by
          intro x hx
          have hne : a.peer ≠ x.peer := fun heq =>
            (List.nodup_cons.mp hnodup).1 (heq ▸ List.mem_map_of_mem hx)
          show (c.workers.set a.peer _)[x.peer]? = _
          rw [List.getElem?_set_ne hne]
          exact hposted x (List.mem_cons_of_mem _ hx)
        obtain ⟨bs, hbs, hsteps⟩ := ih (p := { p with
            replicates := p.replicates.set r (p.countAck c a.peer a.ok) })
          (List.getElem?_set_self hlt) (List.nodup_cons.mp hnodup).2 hposted'
          (by simpa using hlt) (List.set_set _)
        refine ⟨_ :: bs, List.forall_mem_cons.mpr ⟨⟨_, rfl⟩, hbs⟩, trivial, _, hstep, ?_⟩
        rw [takeAcks, hloc]
        dsimp only
        rw [List.set_set, takeAcks_replicates] at hsteps
        exact hsteps
      · rw [takeAcks_settled hloc, hsame]
        exact ⟨[], by simp, rfl⟩

/-! ## The result -/

/-- The outcome of an election that nothing disturbs. -/
def Proc.ElectsExactly (p : Proc) : Prop :=
  ∀ net results, VoteResults p.node results →
    ∃ p', p.loopCandidate net results = some p'
      ∧ (p'.node.state = .leader ↔ (p.node.peers.length + 1) / 2 + 1
        ≤ 1 + (results.map VoteResult.granted).count true)

/-- The outcome of a write that nothing disturbs. -/
def Proc.CommitsExactly (p : Proc) : Prop :=
  ∀ command acks nextIndex matchIndex,
    (acks.map Ack.peer).Perm (List.range p.node.peers.length) →
    ∃ n' result, p.replicateCall command acks nextIndex matchIndex = some (n', result)
      ∧ (result = .ok ∧ (p.node.newEntry command).index ≤ n'.commitIndex ↔
        (p.node.peers.length + 1) / 2 + 1 ≤ 1 + (acks.map Ack.ok).count true)

/-- A round without peers has no result to take. -/
theorem Proc.loopCandidate_alone {p : Proc} (net : Net) (hrun : p.run = .loopCandidate)
    (hpeers : p.node.peers = []) :
    p.loopCandidate net [] = some { p with node := p.node.startElection, run := .top } := by
  unfold Proc.loopCandidate Proc.campaign
  rw [hrun]
  dsimp only
  rw [if_pos hpeers]
  rfl

theorem Proc.not_electsExactly {p : Proc} (hrun : p.run = .loopCandidate)
    (hstate : p.node.state = .candidate) (hpeers : p.node.peers = []) :
    ¬ p.ElectsExactly := by
  intro hexact
  have hresults : VoteResults p.node [] := ⟨by rw [hpeers]; exact .nil, by simp⟩
  obtain ⟨p', hcall, hdecides⟩ := hexact ⟨[], [], [], []⟩ [] hresults
  rw [p.loopCandidate_alone _ hrun hpeers] at hcall
  cases hcall
  -- one vote is a majority of one, yet the state is what it was
  have hleader : p.node.state = .leader := hdecides.mpr (by simp [hpeers])
  rw [hstate] at hleader
  cases hleader

theorem Proc.not_commitsExactly {p : Proc} (hstate : p.node.state = .leader)
    (hpeers : p.node.peers = []) : ¬ p.CommitsExactly := by
  intro hexact
  obtain ⟨n', result, hcall, hdecides⟩ := hexact [] [] (fun _ => 0) (fun _ => 0)
    (by rw [hpeers]; exact .nil)
  have hloc : (p.openCall []).loc = .returned .timedOut := if_pos hpeers
  unfold Proc.replicateCall Proc.replicate at hcall
  rw [if_pos hstate, Option.bind_some] at hcall
  dsimp only [Proc.takeAcks] at hcall
  rw [hloc] at hcall
  cases hcall
  exact absurd (hdecides.mpr (by simp [hpeers])).1 (by simp)

/-- An election and a write that nothing disturbs come out as the number of
votes and of acknowledgements says, on the nodes that have a peer and on no
other. -/
theorem quorum_decisions_exact (p : Proc) :
    (p.run = .loopCandidate → p.node.state = .candidate →
      (p.ElectsExactly ↔ p.node.peers ≠ []))
    ∧ (p.node.state = .leader → (p.CommitsExactly ↔ p.node.peers ≠ [])) := by
  refine ⟨?_, ?_⟩
  · intro hrun hstate
    refine ⟨fun hexact hpeers => p.not_electsExactly hrun hstate hpeers hexact, ?_⟩
    intro hpeers net results h
    obtain ⟨p', hcall, -, hdecides⟩ := p.loopCandidate_decides net hrun hstate hpeers h
    exact ⟨p', hcall, hdecides⟩
  · intro hstate
    refine ⟨fun hexact hpeers => p.not_commitsExactly hstate hpeers hexact, ?_⟩
    intro hpeers command acks nextIndex matchIndex honce
    exact p.replicateCall_decides command nextIndex matchIndex hstate hpeers honce

/-- A candidate with four peers. -/
def candidateOfFive : Proc :=
  { newProc "a" ["b", "c", "d", "e"] true with
    node := { newNode "a" ["b", "c", "d", "e"] with state := .candidate }
    run := .loopCandidate }

/-- Two refusals come before two votes. -/
theorem quorum_decisions_exact_five :
    ∃ p', candidateOfFive.loopCandidate silentNet
        [⟨3, false, 1⟩, ⟨0, false, 0⟩, ⟨2, true, 1⟩, ⟨1, true, 1⟩] = some p'
      ∧ p'.node.state = .leader := by
  obtain ⟨p', hcall, hdecides⟩ :=
    ((quorum_decisions_exact candidateOfFive).1 rfl rfl).mpr (by decide) silentNet
      [⟨3, false, 1⟩, ⟨0, false, 0⟩, ⟨2, true, 1⟩, ⟨1, true, 1⟩] ⟨by decide, by decide⟩
  exact ⟨p', hcall, hdecides.mpr (by decide)⟩

/-- A node without peers, as `cmd/node` starts by default. -/
def loneNode (state : NodeState) (run : RunLoc) : Proc :=
  { newProc "a" [] true with
    node := { newNode "a" [] with state := state, currentTerm := 1 }, run := run }

/-- Its own vote is a majority, and it stays Candidate; were it Leader, its
own copy would be a majority, and its write would time out. -/
theorem lone_node_undecided :
    (([] : List String).length + 1) / 2 + 1 = 1
      ∧ ((loneNode .candidate .loopCandidate).loopCandidate silentNet []).any
        (fun p' => p'.node.state = .candidate && p'.run = .top) = true
      ∧ ∀ command nextIndex matchIndex, ∃ n',
        (loneNode .leader .loopLeader).replicateCall command [] nextIndex matchIndex
            = some (n', .timedOut)
          ∧ n'.commitIndex = 0 :=
  ⟨rfl, by decide, fun _ _ _ => ⟨_, rfl, rfl⟩⟩

end RaftStore
