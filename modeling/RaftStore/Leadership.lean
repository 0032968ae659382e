import RaftStore.Elections

/-!
# Who speaks as leader

`state = Leader` always belongs to an election the node won in its
current term (`LeadInv.leader`). The `run` goroutine is weaker: between
`loopLeader`'s check and `sendHeartbeatToPeer`'s locked section a handler
may move the node to a later term, and the request then carries a term
nobody may have won. What still tells the two apart at that moment is the
vote: in a term it entered by hearsay the node has not voted for itself.
`winner_speaks` makes this exact, `deposed_speaks` is the run in which it
goes wrong.

The same invariant gives `nextIndex ≥ 1` for every peer of a node that
ever led, which is what the message builders subtract from.
-/

namespace RaftStore

open Runs

/-! ## Winners -/

/-- `n` passed `becomeLeader`'s CAS in `term`. -/
def Won (w : World) (n : String) (term : Nat) : Prop :=
  ∃ log, .elected n term log ∈ w.history

def Event.isWin (n : String) (term : Nat) : Event → Bool
  | .elected m t _ => m = n && t = term
  | _ => false

theorem won_iff {w : World} {n : String} {term : Nat} :
    w.history.any (Event.isWin n term) = true ↔ Won w n term := by
  simp only [List.any_eq_true, Won]
  constructor
  · rintro ⟨e, he, hwin⟩
    cases e with
    | elected m t log =>
        simp only [Event.isWin, Bool.and_eq_true, decide_eq_true_eq] at hwin
        exact ⟨log, hwin.1 ▸ hwin.2 ▸ he⟩
    | _ => cases hwin
  · rintro ⟨log, he⟩
    exact ⟨_, he, by simp [Event.isWin]⟩

instance (w : World) (n : String) (term : Nat) : Decidable (Won w n term) :=
  decidable_of_iff _ won_iff

theorem Won.mono {w w' : World} {n : String} {term : Nat} (hg : w.Grows w')
    (h : Won w n term) : Won w' n term :=
  h.imp fun _ he => hg.history he

theorem Won.voted {C : Cluster} {w : World} (hinv : ElectInv C w) {n : String}
    {term : Nat} (h : Won w n term) :
    n ∈ C.members ∧ ∃ args, args.term = term ∧ args.candidateID = n
      ∧ Voted w.history n args := by
  obtain ⟨log, he⟩ := h
  obtain ⟨args, ht, hc, ⟨Q, hQ, hcQ, hvoted⟩, -⟩ := hinv.elected n term log he
  rw [hc] at hcQ
  exact ⟨hQ.1 n hcQ, args, ht, hc, hvoted n hcQ⟩

/-- A winner still in the term it won has its own vote. -/
theorem Won.votedFor {C : Cluster} {w : World} (hv : VoteInv C w)
    (hinv : ElectInv C w) {n : String} (h : Won w n (w.core n).currentTerm) :
    (w.core n).votedFor = n := by
  obtain ⟨-, args, ht, hc, hvoted⟩ := h.voted hinv
  rw [hv.votedFor n args (hinv.lasting n args hvoted) ht.symm, hc]

/-! ## The invariant -/

/-- Program points of `loopLeader` and below. -/
def RunLoc.leading : RunLoc → Bool
  | .loopLeader => true
  | .sendHeartbeats => true
  | .heartbeats _ => true
  | _ => false

/-- Program points of `loopFollower` and `loopCandidate`. -/
def RunLoc.electing : RunLoc → Bool
  | .loopFollower => true
  | .loopCandidate => true
  | .counting _ => true
  | .becomeLeader _ => true
  | _ => false

structure LeadInv (C : Cluster) (w : World) : Prop where
  leader : ∀ n, (w.core n).state = .leader → Won w n (w.core n).currentTerm
  electing : ∀ n, (w.proc n).run.electing = true → (w.core n).state ≠ .leader
  leading : ∀ n, (w.proc n).run.leading = true → (w.core n).votedFor = n →
    Won w n (w.core n).currentTerm
  led : ∀ n, (w.proc n).run.leading = true → ∃ term, Won w n term
  calls : ∀ n, (w.proc n).replicates ≠ [] → ∃ term, Won w n term
  next : ∀ n term, Won w n term → ∀ peer ∈ C.peers n,
    1 ≤ (w.proc n).node.nextIndex peer

theorem leadInv_init (C : Cluster) : LeadInv C C.init where
  leader _ h := by cases h
  electing _ h := by cases h
  leading _ h := by cases h
  led _ h := by cases h
  calls _ h := absurd rfl h
  next _ _ h := by obtain ⟨_, he⟩ := h; cases he

/-! ## How a leader stays one -/

theorem Node.AppendOutcome.leader {n : Node} {args : AppendEntriesArgs}
    {r : Node × AppendEntriesReply × Bool} (h : n.AppendOutcome args r)
    (hs : r.1.state = .leader) :
    n.state = .leader ∧ r.1.currentTerm = n.currentTerm := by
  cases h with
  | stale => exact ⟨hs, rfl⟩
  | rejected hterm hn' =>
      obtain ⟨hcur, -, -, -, -, -, -, -, -, hlead, -⟩ := n.observeLeader_spec hterm
      subst hn'
      obtain ⟨hs', ht⟩ := hlead hs
      exact ⟨hs', hcur.trans ht.symm⟩
  | accepted hterm hn' =>
      obtain ⟨hcur, -, -, -, -, -, -, -, -, hlead, -⟩ := n.observeLeader_spec hterm
      subst hn'
      obtain ⟨hs', ht⟩ := hlead hs
      exact ⟨hs', hcur.trans ht.symm⟩

section Step

variable {C : Cluster} {w w' : World} {a : Action}

/-- A leader after the step has just won or was leader of the same term. -/
theorem Move.leader_back (h : Move C w a w') (hinv : LeadInv C w) {n : String}
    (hs : (w'.core n).state = .leader) :
    a = .local n .becomeLeader ∧ (w.core n).state = .candidate
        ∧ Won w' n (w'.core n).currentTerm ∨
      (w.core n).state = .leader
        ∧ (w'.core n).currentTerm = (w.core n).currentTerm := by
  cases h.core_step n with
  | same hcore => rw [hcore] at hs ⊢; exact .inr ⟨hs, rfl⟩
  | timeout _ hcore => rw [hcore] at hs; cases hs
  | stepDown _ hcore =>
      rw [hcore] at hs
      exact absurd ((Node.becomeFollower_state ..).symm.trans hs) (by simp)
  | campaign hrun hcore =>
      rw [hcore] at hs
      exact absurd hs (hinv.electing n (by rw [hrun]; rfl))
  | elect hstate _ hhist hcore =>
      refine .inl ⟨rfl, hstate, (w.core n).log, ?_⟩
      rw [hhist, hcore]
      exact List.mem_cons_self ..
  | append hstate _ hcore => rw [hcore]; exact .inr ⟨hstate, rfl⟩
  | vote _ _ hout hcore =>
      rw [hcore] at hs ⊢
      obtain ⟨hs', ht, -⟩ := hout.role fun hf => by cases hs.symm.trans hf
      exact .inr ⟨hs'.symm.trans hs, ht⟩
  | deliver _ _ hout hcore =>
      rw [hcore] at hs ⊢
      obtain ⟨hs', ht⟩ := hout.leader hs
      exact .inr ⟨hs', ht⟩
  | restart hcore => rw [hcore] at hs; cases hs

theorem Move.leader_won (h : Move C w a w') (hinv : LeadInv C w) {n : String}
    (hs : (w'.core n).state = .leader) : Won w' n (w'.core n).currentTerm := by
  rcases h.leader_back hinv hs with ⟨-, -, hwon⟩ | ⟨hs', ht⟩
  · exact hwon
  · rw [ht]
    exact (hinv.leader n hs').mono h.grows

/-- While `run` is in the leader's loop the node gets no new vote for
itself, so one it has is from the term it still is in. -/
theorem Move.own_vote_back (h : Move C w a w') (hw : Static C w) {n : String}
    (hn : n ∈ C.members) (hrun : (w.proc n).run ≠ .loopCandidate)
    (hvote : (w'.core n).votedFor = n) :
    (w.core n).votedFor = n
      ∧ (w'.core n).currentTerm = (w.core n).currentTerm := by
  have hne := C.ne_empty hn
  -- a higher term wipes the vote
  have hobs : ∀ {node : Node} {term : Nat}, (w.proc n).node.currentTerm ≤ term →
      node.votedFor = ((w.proc n).node.observeTerm term).votedFor →
      node.currentTerm = ((w.proc n).node.observeTerm term).currentTerm →
      node.votedFor = n → (w.core n).votedFor = n
        ∧ node.currentTerm = (w.core n).currentTerm := by
    intro node term hle hv ht hvn
    rcases (w.proc n).node.observeTerm_spec hle with ⟨_, ho⟩ | ⟨_, ho⟩
    · rw [ho] at hv ht
      exact ⟨hv.symm.trans hvn, ht⟩
    · rw [ho] at hv
      exact absurd (hvn.symm.trans hv) hne
  cases h.core_step n with
  | same hcore => rw [hcore] at hvote ⊢; exact ⟨hvote, rfl⟩
  | timeout _ hcore => rw [hcore] at hvote ⊢; exact ⟨hvote, rfl⟩
  | @stepDown term _ hcore =>
      rw [hcore] at hvote ⊢
      by_cases hlt : (w.proc n).node.currentTerm < term
      · have hv : ((w.proc n).node.becomeFollower term).votedFor = "" := by
          rw [Node.becomeFollower, if_pos hlt]
        exact absurd (hvote.symm.trans hv) hne
      · rw [Node.becomeFollower, if_neg hlt] at hvote ⊢
        exact ⟨hvote, rfl⟩
  | campaign hrun' => exact absurd hrun' hrun
  | elect _ _ _ hcore => rw [hcore] at hvote ⊢; exact ⟨hvote, rfl⟩
  | append _ _ hcore => rw [hcore] at hvote ⊢; exact ⟨hvote, rfl⟩
  | @vote call c node reply hcall hdst hout hcore =>
      rw [hcore] at hvote ⊢
      cases hout with
      | stale => exact ⟨hvote, rfl⟩
      | denied hle hn' => exact hobs hle (by rw [hn']) (by rw [hn']) hvote
      | granted =>
          obtain ⟨hsrc, hpeer, hid, -⟩ :=
            hw.voteCalls c (List.mem_of_getElem? hcall)
          rw [hdst, C.mem_peers _ hsrc] at hpeer
          exact absurd (hvote.symm.trans hid) hpeer.2
  | deliver _ _ hout hcore =>
      rw [hcore] at hvote ⊢
      cases hout with
      | stale => exact ⟨hvote, rfl⟩
      | rejected hle hn' =>
          subst hn'
          exact hobs hle rfl rfl hvote
      | accepted hle hn' =>
          subst hn'
          exact hobs hle rfl rfl hvote
  | restart hcore => rw [hcore] at hvote; exact absurd hvote.symm hne

/-! ## `nextIndex` -/

theorem BookMove.next {net : Net} {p p' : Proc} {l : Local}
    (h : BookMove net p p' l) (peer : String) :
    p'.node.nextIndex peer = p.node.nextIndex peer
      ∨ 1 ≤ p'.node.nextIndex peer := by
  have hof : ∀ {n : Node}, p'.node.book = n.book →
      (n.nextIndex peer = p.node.nextIndex peer ∨ 1 ≤ n.nextIndex peer) →
      p'.node.nextIndex peer = p.node.nextIndex peer
        ∨ 1 ≤ p'.node.nextIndex peer := by
    intro n hbook hn
    have hnext : p'.node.nextIndex = n.nextIndex := congrArg Book.nextIndex hbook
    rwa [hnext]
  cases h with
  | same hbook => exact hof hbook (.inl rfl)
  | elect _ hwins hnode =>
      rw [hnode, Node.becomeLeader, if_pos hwins]
      by_cases hp : peer ∈ p.node.peers
      · right; simp [hp]
      · left; simp [hp]
  | append _ hnode => rw [hnode]; exact .inl rfl
  | @heartbeatSuccess _ _ _ _ peer' _ _ _ _ _ _ _ _ _ hbook =>
      refine hof hbook ?_
      unfold Node.heartbeatSuccess
      split
      · by_cases hp : peer = peer'
        · right; simp [Node.advanceCommitIndex, hp]
        · left; simp [Node.advanceCommitIndex, hp]
      · exact .inl rfl
  | @lower _ peer' hbook =>
      refine hof hbook ?_
      unfold Node.lowerNext
      split
      · by_cases hp : peer = peer'
        · right; simp only [hp, Function.update_self]; omega
        · left; simp [hp]
      · exact .inl rfl
  | @replicateSuccess _ _ _ _ _ peer' _ _ _ _ _ _ _ _ hnode =>
      rw [hnode]
      by_cases hp : peer = peer'
      · right; simp [Node.replicateSuccess, hp]
      · left; simp [Node.replicateSuccess, hp]
  | commit _ _ hnode =>
      rw [hnode, Node.commitEntry]
      split <;> exact .inl rfl
  | claim _ hnode => rw [hnode]; exact .inl rfl

/-- A step of `becomeLeader` after which the node leads is a win. -/
theorem win_node {n : String}
    (hstep : C.step w (.local n .becomeLeader) = some w')
    (hold : (w.core n).state ≠ .leader) (hlead : (w'.core n).state = .leader) :
    ∃ term, (w.proc n).node.wins term = true
      ∧ (w'.proc n).node = (w.proc n).node.becomeLeader term := by
  have hsame : (w'.proc n).node = (w.proc n).node → False := fun hnode =>
    hold (by rw [World.core, ← hnode]; exact hlead)
  cases C.proc_step hstep n with
  | own _ hmove =>
      generalize hp : w'.proc n = p' at hmove hsame
      cases hmove with
      | @becomeLeader term _ =>
          cases hwins : (w.proc n).node.wins term with
          | true => exact ⟨term, hwins, rfl⟩
          | false => exact (hsame (Node.becomeLeader_of_not_wins hwins)).elim
      | giveUp ha => simp at ha
  | idle hproc => exact (hsame (by rw [hproc])).elim

theorem LeadInv.next_step (hinv : LeadInv C w) (hw : Static C w)
    (helect : ElectInv C w) (hok : blankRestart w a)
    (hstep : C.step w a = some w') {n : String} {term : Nat}
    (hwon : Won w' n term) {peer : String} (hpeer : peer ∈ C.peers n) :
    1 ≤ (w'.proc n).node.nextIndex peer := by
  obtain ⟨log, he⟩ := hwon
  rcases (C.move hw hstep).elected_cases he with
    hold | ⟨rfl, -, hrun, hterm, hstate, -, hcore⟩
  · have hpos := hinv.next n term ⟨log, hold⟩ peer hpeer
    cases C.proc_step hstep n with
    | own _ hmove =>
        rcases (book_move hmove).next peer with heq | hge
        · rwa [heq]
        · exact hge
    | voted _ _ hout hproc =>
        have hnext : (w'.proc n).node.nextIndex = (w.proc n).node.nextIndex := by
          rw [hproc]
          exact congrArg Book.nextIndex hout.book
        rwa [hnext]
    | appended _ _ hout hp hproc =>
        have hnext : (w'.proc n).node.nextIndex = (w.proc n).node.nextIndex := by
          rw [hproc, hp]
          split <;> exact hout.book.1
        rwa [hnext]
    | restarted =>
        obtain ⟨-, args, -, -, hvoted⟩ := Won.voted helect ⟨log, hold⟩
        exact absurd hvoted hok.not_voted
    | idle hproc => rwa [hproc]
  · have hlead : (w'.core n).state = .leader := by
      rw [hcore, Function.update_self]
      rfl
    obtain ⟨term, hwins, hnode⟩ :=
      win_node hstep (fun hs => by cases hstate.symm.trans hs) hlead
    have hpeers : (w.proc n).node.peers = C.peers n := hw.peers n
    rw [hnode, Node.becomeLeader, if_pos hwins]
    simp [hpeers, hpeer]

/-! ## Preservation -/

theorem LeadInv.electing_step (hinv : LeadInv C w) (hw : Static C w)
    (hstep : C.step w a = some w') {n : String}
    (hrun' : (w'.proc n).run.electing = true) :
    (w'.core n).state ≠ .leader := by
  intro hs
  rcases (C.move hw hstep).leader_back hinv hs with ⟨ha, -⟩ | ⟨hs', -⟩
  · rw [C.run_top hstep (.inr ha)] at hrun'
    cases hrun'
  · have hno : (w.proc n).run.electing = true → False :=
      fun h => hinv.electing n h hs'
    obtain ⟨out, hr, -⟩ := C.run_step hstep n
    cases hr with
    | same hloc => exact hno (hloc ▸ hrun')
    | away hplain hloaded =>
        refine hloaded ?_ hs
        cases hloc : (w'.proc n).run <;> simp_all [RunLoc.plain, RunLoc.electing]
    | campaign hrun | counted hrun | won hrun => exact hno (by rw [hrun]; rfl)
    | lead _ hloc | spawn _ hloc | beat _ _ hloc | joined _ hloc =>
        rw [hloc] at hrun'
        cases hrun'

/-- The leader's loop is entered as leader and not left in between. -/
theorem leading_back (hstep : C.step w a = some w') {n : String}
    (hrun' : (w'.proc n).run.leading = true) :
    (w.proc n).run.leading = true ∨ (w.core n).state = .leader := by
  obtain ⟨out, hr, -⟩ := C.run_step hstep n
  cases hr with
  | same hloc => exact .inl (hloc ▸ hrun')
  | away hplain =>
      cases hloc : (w'.proc n).run <;> simp_all [RunLoc.plain, RunLoc.leading]
  | lead hstate => exact .inr hstate
  | spawn hrun | beat hrun | joined hrun => exact .inl (by rw [hrun]; rfl)
  | campaign _ _ _ _ hloc | counted _ _ _ hloc | won _ _ _ _ _ hloc =>
      rw [hloc] at hrun'
      cases hrun'

theorem LeadInv.won_of_leading (hinv : LeadInv C w) {n : String}
    (h : (w.proc n).run.leading = true ∨ (w.core n).state = .leader) :
    ∃ term, Won w n term :=
  h.elim (hinv.led n) fun hs => ⟨_, hinv.leader n hs⟩

theorem LeadInv.step (hinv : LeadInv C w) (hw : Static C w)
    (helect : ElectInv C w) (hok : blankRestart w a)
    (hstep : C.step w a = some w') : LeadInv C w' where
  leader n hs := (C.move hw hstep).leader_won hinv hs
  electing n hrun' := hinv.electing_step hw hstep hrun'
  leading n hrun' hvote := by
    have hmove := C.move hw hstep
    have hback := leading_back hstep hrun'
    obtain ⟨_, hwon⟩ := hinv.won_of_leading hback
    have hrun : (w.proc n).run ≠ .loopCandidate := by
      rintro hloc
      rcases hback with hl | hs
      · rw [hloc] at hl; cases hl
      · exact hinv.electing n (by rw [hloc]; rfl) hs
    obtain ⟨hvote', hterm⟩ :=
      hmove.own_vote_back hw (hwon.voted helect).1 hrun hvote
    rw [hterm]
    refine Won.mono hmove.grows ?_
    exact hback.elim (hinv.leading n · hvote') (hinv.leader n)
  led n hrun' :=
    (hinv.won_of_leading (leading_back hstep hrun')).imp
      fun _ => Won.mono (C.move hw hstep).grows
  calls n hcalls := by
    have hof : ∀ {r : Nat} {c : ReplicateCall},
        (w.proc n).replicates[r]? = some c → ∃ term, Won w n term := by
      intro r c hc
      refine hinv.calls n ?_
      intro hnil
      rw [hnil] at hc
      cases hc
    suffices h : ∃ term, Won w n term from
      h.imp fun _ => Won.mono (C.move hw hstep).grows
    rcases C.call_step hstep n with hnil | ⟨_, hmove, -⟩
    · exact absurd hnil hcalls
    · cases hmove with
      | same heq => exact hinv.calls n (heq ▸ hcalls)
      | opened hstate => exact ⟨_, hinv.leader n hstate⟩
      | worker hc | ack hc | gaveUp hc | committed hc | returned hc =>
          exact hof hc
  next n term hwon peer hpeer := hinv.next_step hw helect hok hstep hwon hpeer

end Step

theorem leadInv_of_reachable {C : Cluster} {w : World}
    (h : Reachable C.step blankRestart C.init w) : LeadInv C w :=
  h.invariant (leadInv_init C) fun _ _ _ hr hinv hok hstep =>
    hinv.step (static_of_reachable hr) (electInv_of_reachable hr) hok hstep

/-! ## Requests of a term -/

/-- Every AppendEntries sent so far is from the winner of its term. -/
def WinnerSpeaks (w : World) : Prop :=
  ∀ c ∈ w.net.appendCalls, Won w c.src c.args.term

/-- The first section of `sendHeartbeatToPeer`. -/
def Local.isHeartbeat : Local → Bool
  | .heartbeat _ => true
  | _ => false

/-- `sendHeartbeatToPeer`'s first section runs while the node's vote is
its own, and nobody restarts. -/
def ownVoteHeartbeats (w : World) (a : Action) : Prop :=
  onLocal (fun w n l => l.isHeartbeat = true → (w.proc n).node.votedFor = n) w a
    ∧ noRestart w a

instance (w : World) (a : Action) : Decidable (ownVoteHeartbeats w a) :=
  inferInstanceAs (Decidable (_ ∧ _))

theorem heartbeatArgs_term (n : Node) (peer : String) :
    (n.heartbeatArgs peer).term = n.currentTerm := by
  unfold Node.heartbeatArgs
  split <;> rfl

theorem WinnerSpeaks.step {C : Cluster} {w w' : World} {a : Action}
    (hspeaks : WinnerSpeaks w) (hw : Static C w) (hinv : LeadInv C w)
    (hok : ownVoteHeartbeats w a) (hstep : C.step w a = some w') :
    WinnerSpeaks w' := by
  have hmove := C.move hw hstep
  have hold : ∀ c ∈ w.net.appendCalls, Won w' c.src c.args.term :=
    fun c hc => (hspeaks c hc).mono hmove.grows
  intro c hc
  cases hmove with
  | @heartbeat n peer _ _ _ _ hrun _ _ hnet hhist =>
      rw [hnet] at hc
      rcases List.mem_append.mp hc with hc | hc
      · exact hold c hc
      · cases List.mem_singleton.mp hc
        have hwon : Won w n (w.core n).currentTerm :=
          hinv.leading n (by rw [hrun]; rfl) (hok.1 rfl)
        simp only [heartbeatArgs_term]
        obtain ⟨log, he⟩ := hwon
        exact ⟨log, hhist ▸ he⟩
  | @replicateSend n _ _ _ _ _ _ _ _ hterm hstate _ hnet hhist =>
      rw [hnet] at hc
      rcases List.mem_append.mp hc with hc | hc
      · exact hold c hc
      · cases List.mem_singleton.mp hc
        obtain ⟨log, he⟩ := hinv.leader n hstate
        rw [hterm] at he
        exact ⟨log, hhist ▸ he⟩
  | _ => exact hold c (by simpa only [*] using hc)

/-- A heartbeat section that runs without the own vote sends a request of
a term its node has not won. -/
theorem stray_heartbeat {C : Cluster} {w w' : World} {n : String} {k : Nat}
    (hw : Static C w) (hv : VoteInv C w) (hinv : ElectInv C w)
    (hvote : (w.proc n).node.votedFor ≠ n)
    (hstep : C.step w (.local n (.heartbeat k)) = some w') :
    ¬ WinnerSpeaks w' := by
  intro hspeaks
  have hlost : ¬ Won w n (w.core n).currentTerm :=
    fun hwon => hvote (hwon.votedFor hv hinv)
  cases C.raw_move hstep with
  | «local» _ hlocal =>
      cases Proc.move hlocal with
      | heartbeat _ _ _ hargs =>
          have hid : (w.proc n).node.id = n := hw.id n
          have hwon := hspeaks ⟨(w.proc n).node.id, _, _⟩
            (List.mem_append_right _ (List.mem_singleton.mpr rfl))
          rw [hargs, heartbeatArgs_term, hid] at hwon
          exact hlost hwon
      | giveUp ha => simp at ha

/-- As long as every heartbeat section runs with the own vote, requests of
a term come from its winner only, and one that runs without it at once
breaks this. -/
theorem winner_speaks {C : Cluster} {w : World}
    (h : Reachable C.step ownVoteHeartbeats C.init w) :
    WinnerSpeaks w ∧ ∀ a w', noRestart w a → C.step w a = some w' →
      (WinnerSpeaks w' ↔ ownVoteHeartbeats w a) := by
  have hblank {w : World} (hr : Reachable C.step ownVoteHeartbeats C.init w) :
      Reachable C.step blankRestart C.init w :=
    hr.mono fun _ _ hok => hok.2.blank
  have hspeaks : WinnerSpeaks w :=
    h.invariant (fun c hc => by cases hc) fun w a w' hr hspeaks hok hstep =>
      hspeaks.step (static_of_reachable hr) (leadInv_of_reachable (hblank hr))
        hok hstep
  have hw := static_of_reachable h
  refine ⟨hspeaks, ?_⟩
  intro a w' hno hstep
  constructor
  · intro hspeaks'
    refine ⟨?_, hno⟩
    cases a with
    | «local» n l =>
        cases l with
        | heartbeat k =>
            intro _
            by_contra hvote
            exact stray_heartbeat hw (voteInv_of_reachable h)
              (electInv_of_reachable (hblank h)) hvote hstep hspeaks'
        | _ => exact fun hbeat => by cases hbeat
    | _ => trivial
  · intro hok
    exact hspeaks.step hw (leadInv_of_reachable (hblank h)) hok hstep

/-- `a` wins term 1 and spawns its heartbeats; `b` campaigns in term 2 and
`a` votes for it; then a heartbeat goroutine of `a` gets the lock. -/
def deposedRun : List Action :=
  electRun ++ [.local "a" .load, .local "a" .spawnHeartbeats,
    .local "b" .load, .local "b" .timeout, .local "b" .load,
    .local "b" .campaign, .deliverVote 2, .local "a" (.heartbeat 0)]

theorem deposed_speaks :
    ∃ w, Reachable threeNodes.step noRestart threeNodes.init w
      ∧ (∃ c ∈ w.net.appendCalls, c.src = "a" ∧ c.args.term = 2)
      ∧ ¬ Won w "a" 2 :=
  Reachable.of_exec_any deposedRun (by decide +kernel)

/-- A leader's heartbeat in its own term. -/
theorem winner_speaks_a :
    ∃ w, Reachable threeNodes.step ownVoteHeartbeats threeNodes.init w
      ∧ w.net.appendCalls ≠ [] ∧ WinnerSpeaks w := by
  obtain ⟨w, hr, hcalls⟩ : ∃ w,
      Reachable threeNodes.step ownVoteHeartbeats threeNodes.init w
        ∧ w.net.appendCalls ≠ [] :=
    Reachable.of_exec_any (electRun ++ [.local "a" .load,
      .local "a" .spawnHeartbeats, .local "a" (.heartbeat 0)]) (by decide +kernel)
  exact ⟨w, hr, hcalls, (winner_speaks hr).1⟩

end RaftStore
