import RaftStore.Lib.Quorum
import RaftStore.Votes

/-!
# Elections

Behind every win of `becomeLeader`'s CAS stands a majority of votes for
the winner's request (`Backed`), and two majorities share a voter, so a
term has one winner. The invariant `ElectInv` follows the votes from the
voter's history entry through the answer in the network to the counter
of the candidate.

Everything here holds for runs in which a process restarts only as long
as it has nothing to lose (`blankRestart`); runs without restarts are a
special case.
-/

namespace RaftStore

open Runs Quorum

/-! ## Restarts that lose nothing -/

/-- A restart finds the process with no vote cast and no entry stored. -/
def blankRestart (w : World) : Action → Prop
  | .restart n => (∀ e ∈ w.history, e.vote?.map Prod.fst ≠ some n)
      ∧ (w.proc n).node.log.entries = newLogStore.entries
  | _ => True

instance (w : World) : (a : Action) → Decidable (blankRestart w a)
  | .restart _ => inferInstanceAs (Decidable (_ ∧ _))
  | .local _ _ => inferInstanceAs (Decidable True)
  | .deliverVote _ => inferInstanceAs (Decidable True)
  | .deliverAppend _ => inferInstanceAs (Decidable True)
  | .crash _ => inferInstanceAs (Decidable True)

theorem noRestart.blank {w : World} {a : Action} (h : noRestart w a) :
    blankRestart w a := by
  cases a with
  | restart n => exact h.elim
  | _ => trivial

theorem blankRestart.not_voted {w : World} {n : String}
    (h : blankRestart w (.restart n)) {args : RequestVoteArgs} :
    ¬ Voted w.history n args := by
  rintro ⟨e, he, hvote⟩
  exact h.1 e he (by rw [hvote]; rfl)

/-! ## Votes on their way to the counter -/

/-- A majority, the candidate included, voted for this request. -/
def Backed (C : Cluster) (w : World) (args : RequestVoteArgs) : Prop :=
  ∃ Q, IsMajority C.members Q ∧ args.candidateID ∈ Q
    ∧ ∀ v ∈ Q, Voted w.history v args

/-- What `loopCandidate` relies on about the request it sent. -/
structure Campaign (C : Cluster) (w : World) (n : String)
    (args : RequestVoteArgs) : Prop where
  member : n ∈ C.members
  candidate : args.candidateID = n
  voted : Voted w.history n args
  fresh : ∀ log, .elected n args.term log ∉ w.history
  log : (w.core n).state = .candidate → (w.core n).currentTerm = args.term →
    (w.core n).log.lastIndexAndTerm = (args.lastLogIndex, args.lastLogTerm)

/-- The locals of the counting loop, against the network and the votes. -/
structure Counting (C : Cluster) (w : World) (n : String) (c : Candidacy) :
    Prop where
  campaign : Campaign C w n c.args
  length : c.ballots.length = (C.peers n).length
  calls : ∀ (k : Nat) peer, (C.peers n)[k]? = some peer →
    w.net.voteCalls[c.firstCall + k]? = some ⟨n, peer, c.args⟩
  votes : c.votes = 1 + c.ballots.countP fun b => b = .counted true
  ballots : ∀ (k : Nat) peer, (C.peers n)[k]? = some peer →
    c.ballots[k]? = some (.counted true) → Voted w.history peer c.args

structure ElectInv (C : Cluster) (w : World) : Prop where
  lasting : ∀ n args, Voted w.history n args →
    Voted (sinceRestart n w.history) n args
  answers : ∀ call (reply : RequestVoteReply),
    (call, reply) ∈ w.net.voteAnswers → reply.voteGranted = true →
      ∃ c, w.net.voteCalls[call]? = some c ∧ Voted w.history c.dst c.args
  counting : ∀ n c, (w.proc n).run = .counting c → Counting C w n c
  winning : ∀ n term, (w.proc n).run = .becomeLeader term →
    ∃ args, Campaign C w n args ∧ args.term = term ∧ Backed C w args
  elected : ∀ n term log, .elected n term log ∈ w.history →
    ∃ args, args.term = term ∧ args.candidateID = n ∧ Backed C w args
      ∧ log.lastIndexAndTerm = (args.lastLogIndex, args.lastLogTerm)

theorem Backed.mono {C : Cluster} {w w' : World} {args : RequestVoteArgs}
    (hg : w.Grows w') (h : Backed C w args) : Backed C w' args := by
  obtain ⟨Q, hQ, hcand, hvoted⟩ := h
  exact ⟨Q, hQ, hcand, fun v hv => (hvoted v hv).mono hg.history⟩

/-- Votes of one term that back two requests are for one candidate. -/
theorem Backed.unique {C : Cluster} {w : World} (hv : VoteInv C w)
    (hinv : ElectInv C w) {args args' : RequestVoteArgs} (h : Backed C w args)
    (h' : Backed C w args') (hterm : args.term = args'.term) :
    args.candidateID = args'.candidateID := by
  obtain ⟨Q, hQ, -, hvoted⟩ := h
  obtain ⟨Q', hQ', -, hvoted'⟩ := h'
  obtain ⟨v, hvQ, hvQ'⟩ := hQ.inter C.nodup hQ'
  exact hv.unique v args args' (hinv.lasting v args (hvoted v hvQ))
    (hinv.lasting v args' (hvoted' v hvQ')) hterm

theorem Cluster.length_peers {C : Cluster} {n : String} (hn : n ∈ C.members) :
    (C.peers n).length + 1 = C.members.length := by
  have hperm : (n :: C.peers n).Perm C.members := by
    refine (List.perm_ext_iff_of_nodup ?_ C.nodup).mpr ?_
    · refine List.nodup_cons.mpr ⟨?_, C.peers_nodup n hn⟩
      intro h
      exact ((C.mem_peers n hn n).mp h).2 rfl
    · intro m
      rw [List.mem_cons, C.mem_peers n hn]
      by_cases hm : m = n
      · subst hm; simpa using hn
      · simp [hm]
  simpa using hperm.length_eq

theorem Counting.backed {C : Cluster} {w : World} {n : String} {c : Candidacy}
    (h : Counting C w n c) (hmaj : C.members.length / 2 + 1 ≤ c.votes) :
    Backed C w c.args := by
  have hn := h.campaign.member
  rw [h.votes] at hmaj
  obtain ⟨Q, hQ, hnQ, hslots⟩ := exists_majority_of_slots hn (C.peers_nodup n hn)
    (fun p hp => (C.mem_peers n hn p).mp hp) h.length hmaj
  refine ⟨Q, hQ, h.campaign.candidate ▸ hnQ, ?_⟩
  intro v hv
  rcases hslots v hv with rfl | ⟨k, b, hpeer, hb, htrue⟩
  · exact h.campaign.voted
  · rw [of_decide_eq_true htrue] at hb
    exact h.ballots k v hpeer hb

/-- The peer's vote was counted. -/
def Ballot.isVote (b : Ballot) : Bool := b = .counted true

theorem Candidacy.tally_count {peers : List String} {c : Candidacy}
    (h : Tally peers c.ballots Ballot.isVote c.votes) {k : Nat}
    (hwait : c.ballots[k]? = some .waiting) (granted : Bool) :
    Tally peers (c.count k granted).ballots Ballot.isVote (c.count k granted).votes := by
  have hset := h.set hwait rfl (.counted granted)
  cases granted <;> exact hset

/-- Taking one more result. -/
theorem Counting.count {C : Cluster} {w : World} {n : String} {c : Candidacy}
    (h : Counting C w n c) {k : Nat} {granted : Bool}
    (hwait : c.ballots[k]? = some .waiting)
    (hgranted : granted = true → ∀ peer, (C.peers n)[k]? = some peer →
      Voted w.history peer c.args) : Counting C w n (c.count k granted) where
  campaign := h.campaign
  length := (Candidacy.tally_count ⟨h.length, h.votes⟩ hwait granted).length
  calls := h.calls
  votes := (Candidacy.tally_count ⟨h.length, h.votes⟩ hwait granted).count
  ballots j peer hpeer hb := by
    by_cases hj : k = j
    · subst hj
      obtain ⟨hk, -⟩ := List.getElem?_eq_some_iff.mp hwait
      have hb' : granted = true := by
        simpa [Candidacy.count, List.getElem?_set_self hk] using hb
      exact hgranted hb' peer hpeer
    · refine h.ballots j peer hpeer ?_
      simpa [Candidacy.count, List.getElem?_set_ne hj] using hb

/-! ## A candidate's log stands still

Whatever makes a node change its log or its term also ends its candidacy,
as long as `run` is past the two points where a candidacy begins. -/

/-- Only a higher term makes `HandleRequestVote` change more than the vote,
and then the node is Follower. -/
theorem Node.VoteOutcome.role {n : Node} {args : RequestVoteArgs}
    {r : Node × RequestVoteReply} (h : n.VoteOutcome args r)
    (hs : r.1.state ≠ .follower) :
    r.1.state = n.state ∧ r.1.currentTerm = n.currentTerm
      ∧ r.1.log = n.log := by
  have hobs : ∀ n', n.currentTerm ≤ args.term → n' = n.observeTerm args.term →
      n'.state ≠ .follower → n' = n := by
    intro n' hterm hn' hs'
    rcases n.observeTerm_spec hterm with ⟨_, ho⟩ | ⟨_, ho⟩
    · rw [hn', ho]
    · rw [hn', ho] at hs'
      exact absurd rfl hs'
  cases h with
  | stale => exact ⟨rfl, rfl, rfl⟩
  | denied hterm hn' =>
      have heq := hobs _ hterm hn' hs
      subst heq
      exact ⟨rfl, rfl, rfl⟩
  | granted hterm hn' =>
      have heq := hobs _ hterm hn' hs
      subst heq
      exact ⟨rfl, rfl, rfl⟩

theorem Node.AppendOutcome.candidate {n : Node} {args : AppendEntriesArgs}
    {r : Node × AppendEntriesReply × Bool} (h : n.AppendOutcome args r)
    (hs : r.1.state = .candidate) : r.1 = n := by
  cases h with
  | stale => rfl
  | rejected hterm hn' =>
      obtain ⟨-, -, -, -, -, -, -, -, hne, -⟩ := n.observeLeader_spec hterm
      exact absurd (hn' ▸ hs) hne
  | accepted hterm hn' =>
      obtain ⟨-, -, -, -, -, -, -, -, hne, -⟩ := n.observeLeader_spec hterm
      exact absurd (hn' ▸ hs) hne

theorem Move.candidate_back {C : Cluster} {w w' : World} {a : Action}
    (h : Move C w a w') {n : String} (ha : a ≠ .restart n)
    (hfollower : (w.proc n).run ≠ .loopFollower)
    (hcandidate : (w.proc n).run ≠ .loopCandidate)
    (hs : (w'.core n).state = .candidate) :
    (w.core n).state = .candidate
      ∧ (w'.core n).currentTerm = (w.core n).currentTerm
      ∧ (w'.core n).log = (w.core n).log := by
  cases h.core_step n with
  | same hcore =>
      rw [hcore] at hs ⊢
      exact ⟨hs, rfl, rfl⟩
  | timeout hrun => exact absurd hrun hfollower
  | stepDown _ hcore =>
      rw [hcore] at hs
      exact absurd ((Node.becomeFollower_state ..).symm.trans hs) (by simp)
  | campaign hrun => exact absurd hrun hcandidate
  | elect _ _ _ hcore => rw [hcore] at hs; cases hs
  | append hstate _ hcore =>
      rw [hcore] at hs
      exact absurd (hstate.symm.trans hs) (by simp)
  | vote _ _ hout hcore =>
      rw [hcore] at hs ⊢
      obtain ⟨hs', hrest⟩ := hout.role fun hf => by cases hs.symm.trans hf
      exact ⟨hs'.symm.trans hs, hrest⟩
  | deliver _ _ hout hcore =>
      rw [hcore] at hs ⊢
      have heq := hout.candidate hs
      simp only at heq
      subst heq
      exact ⟨hs, rfl, rfl⟩
  | restart => exact absurd rfl ha

/-! ## Preservation -/

theorem Campaign.step {C : Cluster} {w w' : World} {a : Action} {n : String}
    {args : RequestVoteArgs} (h : Campaign C w n args) (hmove : Move C w a w')
    (hrestart : a ≠ .restart n) (helect : a ≠ .local n .becomeLeader)
    (hfollower : (w.proc n).run ≠ .loopFollower)
    (hcandidate : (w.proc n).run ≠ .loopCandidate) : Campaign C w' n args where
  member := h.member
  candidate := h.candidate
  voted := h.voted.mono hmove.grows.history
  fresh log hlog := by
    rcases hmove.elected_cases hlog with hold | hnew
    · exact h.fresh log hold
    · exact helect hnew.1
  log hs hterm := by
    obtain ⟨hs', hterm', hlog'⟩ :=
      hmove.candidate_back hrestart hfollower hcandidate hs
    rw [hlog']
    exact h.log hs' (hterm'.symm.trans hterm)

theorem Counting.step {C : Cluster} {w w' : World} {a : Action} {n : String}
    {c : Candidacy} (h : Counting C w n c) (hmove : Move C w a w')
    (hcampaign : Campaign C w' n c.args) : Counting C w' n c where
  campaign := hcampaign
  length := h.length
  calls k peer hpeer := by
    have hcall := h.calls k peer hpeer
    obtain ⟨rest, hrest⟩ := hmove.grows.voteCalls
    obtain ⟨hlt, -⟩ := List.getElem?_eq_some_iff.mp hcall
    rw [← hrest, List.getElem?_append_left hlt, hcall]
  votes := h.votes
  ballots k peer hpeer hb :=
    (h.ballots k peer hpeer hb).mono hmove.grows.history

/-- The candidacy that `loopCandidate`'s first section opens. -/
theorem campaign_new {C : Cluster} {w w' : World} {n : String}
    (hw : Static C w) (hv : VoteInv C w) (hinv : ElectInv C w)
    (hn : n ∈ C.members)
    (hcore : w'.core n = (w.proc n).node.startElection.core)
    (hhist : w'.history = .campaigned n (w.proc n).node.voteRequest :: w.history) :
    Campaign C w' n (w.proc n).node.voteRequest where
  member := hn
  candidate := hw.id n
  voted := by rw [hhist]; exact voted_cons.mpr (.inl rfl)
  fresh log hlog := by
    rw [hhist] at hlog
    have hold := (List.mem_cons.mp hlog).resolve_left fun heq => by cases heq
    -- a win in that term would have needed a vote of this node already
    obtain ⟨args, hterm, hcand, ⟨Q, -, hQ, hvoted⟩, -⟩ := hinv.elected _ _ _ hold
    have hle := hv.term_le n args (hinv.lasting n args (hvoted n (hcand ▸ hQ)))
    rw [hterm] at hle
    exact absurd hle (Nat.not_succ_le_self _)
  log _ _ := by rw [hcore]; rfl

theorem counting_new {C : Cluster} {w w' : World} {n : String} {out : Output}
    (hw : Static C w) (hv : VoteInv C w) (hinv : ElectInv C w)
    (hn : n ∈ C.members) (hw' : w' = w.commit n (w'.proc n) out)
    (hnode : (w'.proc n).node = (w.proc n).node.startElection)
    (hcalls : out.voteCalls = (w.proc n).node.peers.map fun peer =>
      ⟨(w.proc n).node.id, peer, (w.proc n).node.voteRequest⟩)
    (hevents : out.events
      = [.campaigned (w.proc n).node.id (w.proc n).node.voteRequest]) :
    Counting C w' n
      { args := (w.proc n).node.voteRequest
        firstCall := w.net.voteCalls.length
        votes := 1
        ballots := (w.proc n).node.peers.map fun _ => .waiting } := by
  have hid : (w.proc n).node.id = n := hw.id n
  have hpeers : (w.proc n).node.peers = C.peers n := hw.peers n
  have hhist : w'.history
      = .campaigned n (w.proc n).node.voteRequest :: w.history := by
    rw [hw', World.commit, hevents, hid]
    rfl
  have hvc : w'.net.voteCalls = w.net.voteCalls ++ (C.peers n).map fun peer =>
      ⟨n, peer, (w.proc n).node.voteRequest⟩ := by
    rw [hw', World.commit, hcalls, hid, hpeers]
  have hcore : w'.core n = (w.proc n).node.startElection.core := by
    rw [World.core, hnode]
  refine ⟨campaign_new hw hv hinv hn hcore hhist, by simp [hpeers], ?_, ?_, ?_⟩
  · intro k peer hpeer
    rw [hvc, List.getElem?_append_right (by simp)]
    simp [hpeer]
  · simp
  · intro k peer _ hb
    obtain ⟨_, -, hwait⟩ := List.mem_map.mp (List.mem_of_getElem? hb)
    cases hwait

theorem electInv_init (C : Cluster) : ElectInv C C.init where
  lasting _ _ h := absurd h not_voted_nil
  answers _ _ h := by cases h
  counting _ _ h := by cases h
  winning _ _ h := by cases h
  elected _ _ _ h := by cases h

section Step

variable {C : Cluster} {w w' : World} {a : Action}

theorem ElectInv.lasting_step (hinv : ElectInv C w) (hw : Static C w)
    (hok : blankRestart w a) (hmove : Move C w a w') {n : String}
    {args : RequestVoteArgs} (hv : Voted w'.history n args) :
    Voted (sinceRestart n w'.history) n args := by
  obtain ⟨evs, hhist, hrestart, hnew⟩ := hmove.history hw
  rw [hhist] at hv ⊢
  by_cases ha : a = .restart n
  · subst ha
    rcases voted_append.mp hv with hv | hv
    · have hcast := hnew n args hv
      have hempty : (w'.core n).votedFor = "" := by rw [hmove.core_restart]; rfl
      exact absurd (hcast.votedFor'.symm.trans hempty) (C.ne_empty hcast.candidate)
    · exact absurd hv hok.not_voted
  · rw [sinceRestart_append fun hmem => ha (hrestart n hmem)]
    exact voted_append.mpr ((voted_append.mp hv).imp id (hinv.lasting n args))

theorem ElectInv.answers_step (hinv : ElectInv C w) (hmove : Move C w a w')
    {call : Nat} {reply : RequestVoteReply}
    (hans : (call, reply) ∈ w'.net.voteAnswers)
    (hgranted : reply.voteGranted = true) :
    ∃ c, w'.net.voteCalls[call]? = some c ∧ Voted w'.history c.dst c.args := by
  have hold : (call, reply) ∈ w.net.voteAnswers →
      ∃ c, w'.net.voteCalls[call]? = some c
        ∧ Voted w'.history c.dst c.args := by
    intro hmem
    obtain ⟨c, hcall, hv⟩ := hinv.answers call reply hmem hgranted
    obtain ⟨rest, hrest⟩ := hmove.grows.voteCalls
    obtain ⟨hlt, -⟩ := List.getElem?_eq_some_iff.mp hcall
    refine ⟨c, ?_, hv.mono hmove.grows.history⟩
    rw [← hrest, List.getElem?_append_left hlt, hcall]
  cases hmove with
  | vote hcall _ _ hnet hhist =>
      rw [hnet] at hans
      rcases List.mem_append.mp hans with hmem | hmem
      · exact hold hmem
      · cases List.mem_singleton.mp hmem
        rw [hgranted, if_pos rfl] at hhist
        refine ⟨_, by rw [hnet]; exact hcall, ?_⟩
        rw [hhist]
        exact voted_cons.mpr (.inl rfl)
  | _ => exact hold (by simpa only [*] using hans)

/-- The answer a goroutine of the counting loop got is a vote. -/
theorem Counting.granted (hinv : ElectInv C w) {n : String} {c : Candidacy}
    (h : Counting C w n c) {k : Nat} {reply : RequestVoteReply}
    (hans : (c.firstCall + k, reply) ∈ w.net.voteAnswers)
    (hgranted : reply.voteGranted = true) {peer : String}
    (hpeer : (C.peers n)[k]? = some peer) : Voted w.history peer c.args := by
  obtain ⟨call, hcall, hv⟩ := hinv.answers _ _ hans hgranted
  rw [h.calls k peer hpeer] at hcall
  cases hcall
  exact hv

/-- What a step does to a candidacy while `run` stays past its start. -/
theorem Campaign.along {n : String} {args : RequestVoteArgs}
    (h : Campaign C w n args) (hstep : C.step w a = some w')
    (hmove : Move C w a w') (hrun' : (w'.proc n).run.plain = false)
    (hrun : (w.proc n).run.plain = false) : Campaign C w' n args := by
  have htop : ¬ (a = .restart n ∨ a = .local n .becomeLeader) := by
    intro ha
    rw [C.run_top hstep ha] at hrun'
    cases hrun'
  refine h.step hmove (fun ha => htop (.inl ha)) (fun ha => htop (.inr ha)) ?_ ?_
  · intro hloc; rw [hloc] at hrun; cases hrun
  · intro hloc; rw [hloc] at hrun; cases hrun

theorem ElectInv.counting_step (hinv : ElectInv C w) (hw : Static C w)
    (hv : VoteInv C w) (hstep : C.step w a = some w') {n : String}
    {c : Candidacy} (hrun' : (w'.proc n).run = .counting c) :
    Counting C w' n c := by
  have hmove := C.move hw hstep
  -- a counting loop that was there before
  have hgo : ∀ {c : Candidacy}, (w.proc n).run.plain = false →
      Counting C w n c → Counting C w' n c := fun hrun hc =>
    hc.step hmove (hc.campaign.along hstep hmove (by rw [hrun']; rfl) hrun)
  obtain ⟨out, hr, hout⟩ := C.run_step hstep n
  cases hr with
  | same hloc =>
      have hrun := hloc.symm.trans hrun'
      exact hgo (by rw [hrun]; rfl) (hinv.counting n c hrun)
  | away hplain => rw [hrun'] at hplain; cases hplain
  | campaign _ hnode hcalls hevents hloc =>
      rcases hout with rfl | ⟨hn, hw'⟩
      · cases hevents
      · cases hrun'.symm.trans hloc
        exact counting_new hw hv hinv hn hw' hnode hcalls hevents
  | counted hrun hwait hgranted hloc =>
      cases hrun'.symm.trans hloc
      have hc := hinv.counting n _ hrun
      refine hgo (by rw [hrun]; rfl) (hc.count hwait ?_)
      intro hg peer hpeer
      obtain ⟨reply, hans, hg'⟩ := hgranted hg
      exact hc.granted hinv hans hg' hpeer
  | won _ _ _ _ _ hloc | lead _ hloc | spawn _ hloc | beat _ _ hloc
  | joined _ hloc => cases hrun'.symm.trans hloc

theorem ElectInv.winning_step (hinv : ElectInv C w) (hw : Static C w)
    (hstep : C.step w a = some w') {n : String} {term : Nat}
    (hrun' : (w'.proc n).run = .becomeLeader term) :
    ∃ args, Campaign C w' n args ∧ args.term = term ∧ Backed C w' args := by
  have hmove := C.move hw hstep
  obtain ⟨out, hr, -⟩ := C.run_step hstep n
  cases hr with
  | same hloc =>
      have hrun := hloc.symm.trans hrun'
      obtain ⟨args, hc, hterm, hb⟩ := hinv.winning n term hrun
      exact ⟨args, hc.along hstep hmove (by rw [hrun']; rfl) (by rw [hrun]; rfl),
        hterm, hb.mono hmove.grows⟩
  | away hplain => rw [hrun'] at hplain; cases hplain
  | @won c k reply hrun hwait hans hgranted hmaj hloc =>
      cases hrun'.symm.trans hloc
      have hc := hinv.counting n _ hrun
      have hcount : Counting C w n (c.count k true) :=
        hc.count hwait fun _ peer hpeer => hc.granted hinv hans hgranted hpeer
      have hpeers : (w.proc n).node.peers = C.peers n := hw.peers n
      rw [Node.majority, hpeers, C.length_peers hc.campaign.member] at hmaj
      refine ⟨c.args, ?_, rfl, (hcount.backed hmaj).mono hmove.grows⟩
      exact hc.campaign.along hstep hmove (by rw [hrun']; rfl) (by rw [hrun]; rfl)
  | campaign _ _ _ _ hloc | counted _ _ _ hloc | lead _ hloc | spawn _ hloc
  | beat _ _ hloc | joined _ hloc => cases hrun'.symm.trans hloc

theorem ElectInv.step (hinv : ElectInv C w) (hw : Static C w)
    (hv : VoteInv C w) (hok : blankRestart w a)
    (hstep : C.step w a = some w') : ElectInv C w' where
  lasting _ _ := hinv.lasting_step hw hok (C.move hw hstep)
  answers _ _ := hinv.answers_step (C.move hw hstep)
  counting _ _ := hinv.counting_step hw hv hstep
  winning _ _ := hinv.winning_step hw hstep
  elected n term log he := by
    have hmove := C.move hw hstep
    rcases hmove.elected_cases he with hold | ⟨-, -, hrun, hterm, hstate, rfl, -⟩
    · obtain ⟨args, ht, hc, hb, hl⟩ := hinv.elected n term log hold
      exact ⟨args, ht, hc, hb.mono hmove.grows, hl⟩
    · obtain ⟨args, hcamp, ht, hb⟩ := hinv.winning n term hrun
      exact ⟨args, ht, hcamp.candidate, hb.mono hmove.grows,
        hcamp.log hstate (hterm.trans ht.symm)⟩

end Step

theorem electInv_of_reachable {C : Cluster} {w : World}
    (h : Reachable C.step blankRestart C.init w) : ElectInv C w :=
  h.invariant (electInv_init C) fun _ _ _ hr hinv hok hstep =>
    hinv.step (static_of_reachable hr) (voteInv_of_reachable hr) hok hstep

/-! ## One winner a term -/

theorem elected_unique {C : Cluster} {w : World}
    (h : Reachable C.step blankRestart C.init w) {n m : String} {term : Nat}
    {log log' : LogStore} (hn : .elected n term log ∈ w.history)
    (hm : .elected m term log' ∈ w.history) : n = m := by
  have hinv := electInv_of_reachable h
  obtain ⟨args, ht, rfl, hb, -⟩ := hinv.elected n term log hn
  obtain ⟨args', ht', rfl, hb', -⟩ := hinv.elected m term log' hm
  exact hb.unique (voteInv_of_reachable h) hinv hb' (ht.trans ht'.symm)

/-- Election Safety: at most one node ever passes the CAS of a term. -/
theorem election_safety {C : Cluster} {w : World}
    (h : Reachable C.step noRestart C.init w) {n m : String} {term : Nat}
    {log log' : LogStore} (hn : .elected n term log ∈ w.history)
    (hm : .elected m term log' ∈ w.history) : n = m :=
  elected_unique (h.mono fun _ _ => noRestart.blank) hn hm

/-- `a` wins term 1 with the vote of `b`. -/
def electRun : List Action :=
  [.local "a" .load, .local "a" .timeout, .local "a" .load,
    .local "a" .campaign, .deliverVote 0, .local "a" (.voteReply 0 0),
    .local "a" .becomeLeader]

theorem election_safety_a :
    ∃ w n, Reachable threeNodes.step noRestart threeNodes.init w
      ∧ .elected n 1 newLogStore ∈ w.history ∧ n = "a" := by
  obtain ⟨w, hr, he⟩ : ∃ w, Reachable threeNodes.step noRestart threeNodes.init w
      ∧ .elected "a" 1 newLogStore ∈ w.history :=
    Reachable.of_exec_any electRun (by decide +kernel)
  exact ⟨w, "a", hr, he, election_safety hr he he⟩

end RaftStore
