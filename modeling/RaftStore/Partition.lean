import RaftStore.Voters

/-!
# Minorities make no progress

From some state on, no request that is made on one side of the cluster
reaches a node on the other side (`severed`); what was under way before may
still arrive. On a side that is no majority then nobody wins an election of
a term that has not begun yet, and no call of `Replicate` that begins there
returns nil (`minority_makes_no_progress`).

Both quorum loops count replies to requests they have made themselves. For
elections the record of votes tells who has voted for a request; for calls
of `Replicate` the goroutines are followed from the request to the
acknowledgement (`OneSided`). No assumption is made about the order in
which goroutines run, and the sender of a stray heartbeat is as cut off as
a leader.
-/

namespace RaftStore

open Runs Quorum

/-! ## The cut -/

/-- Requests made since `w₀` stay on their side. -/
def severed (side : String → Bool) (w₀ w : World) : Action → Prop
  | .deliverVote call => w₀.net.voteCalls.length ≤ call →
      ∀ c ∈ w.net.voteCalls[call]?, side c.src = side c.dst
  | .deliverAppend call => w₀.net.appendCalls.length ≤ call →
      ∀ c ∈ w.net.appendCalls[call]?, side c.src = side c.dst
  | .restart _ => False
  | _ => True

instance (side : String → Bool) (w₀ w : World) : (a : Action) →
    Decidable (severed side w₀ w a)
  | .deliverVote _ => inferInstanceAs (Decidable (_ → ∀ _ ∈ _, _))
  | .deliverAppend _ => inferInstanceAs (Decidable (_ → ∀ _ ∈ _, _))
  | .restart _ => inferInstanceAs (Decidable False)
  | .local _ _ => inferInstanceAs (Decidable True)
  | .crash _ => inferInstanceAs (Decidable True)

theorem severed.noRestart {side : String → Bool} {w₀ w : World} {a : Action}
    (h : severed side w₀ w a) : noRestart w a := by
  cases a with
  | restart => exact h
  | _ => trivial

/-- The nodes of the side are at most half of the members. -/
def Cluster.Minority (C : Cluster) (side : String → Bool) : Prop :=
  C.members.countP side ≤ C.members.length / 2

theorem Cluster.Minority.not_majority {C : Cluster} {side : String → Bool}
    (h : C.Minority side) {Q : Finset String} (hQ : IsMajority C.members Q)
    (hside : ∀ v ∈ Q, side v = true) : False := by
  have := hQ.le_countP hside
  have : C.members.countP side ≤ _ := h
  omega

/-! ## Votes -/

section Votes

variable {C : Cluster} {w w' : World} {a : Action}

/-- A vote is an old one, the candidate's own, or the answer to a request. -/
theorem Move.vote_cases (h : Move C w a w') (hw : Static C w) {v : String}
    {args : RequestVoteArgs} (hv : Voted w'.history v args) :
    Voted w.history v args ∨ args.candidateID = v
        ∧ args.term = (w'.core v).currentTerm
      ∨ ∃ call c, a = .deliverVote call ∧ w.net.voteCalls[call]? = some c
        ∧ c.dst = v ∧ c.args = args ∧ c.src = args.candidateID := by
  have hother : ∀ e : Event, e.vote? = none → w'.history = e :: w.history →
      Voted w.history v args := by
    intro e he hhist
    rw [hhist] at hv
    refine (voted_cons.mp hv).resolve_left ?_
    rw [he]
    exact nofun
  cases h with
  | quiet _ _ _ hevs hhist =>
      rw [hhist] at hv
      refine .inl ((voted_append.mp hv).resolve_left ?_)
      rintro ⟨e, he, hvote⟩
      obtain ⟨_, _, rfl⟩ := hevs e he
      cases hvote
  | @campaign n _ _ _ _ hargs hcore _ hhist =>
      rw [hhist] at hv
      rcases voted_cons.mp hv with heq | hold
      · cases heq
        refine .inr (.inl ⟨?_, ?_⟩)
        · rw [hargs]
          exact hw.id _
        · rw [hcore, Function.update_self, hargs]
          rfl
      · exact .inl hold
  | elect _ _ _ _ _ _ hhist => exact .inl (hother _ rfl hhist)
  | @vote call c _ reply _ hcall _ _ _ hhist =>
      rw [hhist] at hv
      split at hv
      · rcases voted_cons.mp hv with heq | hold
        · cases heq
          have hsrc := (hw.voteCalls c (List.mem_of_getElem? hcall)).2.2.1
          exact .inr (.inr ⟨call, c, rfl, hcall, rfl, rfl, hsrc.symm⟩)
        · exact .inl hold
      · exact .inl hv
  | restart _ _ _ hhist => exact .inl (hother _ rfl hhist)
  | timeout _ _ _ _ hhist | stepDown _ _ _ _ hhist | append _ _ _ _ _ hhist
  | heartbeat _ _ _ _ _ hhist | replicateSend _ _ _ _ _ _ _ hhist
  | deliver _ _ _ _ hhist => exact .inl (hhist ▸ hv)

/-- Requests for votes and the votes themselves are for terms that their
candidate has reached. -/
structure TermsReached (w : World) : Prop where
  requests : ∀ c ∈ w.net.voteCalls, c.args.term ≤ (w.core c.src).currentTerm
  votes : ∀ v args, Voted w.history v args →
    args.term ≤ (w.core args.candidateID).currentTerm

theorem termsReached_of_reachable
    (h : Reachable C.step noRestart C.init w) : TermsReached w := by
  refine h.invariant (P := TermsReached)
    ⟨fun _ hc => (by cases hc), fun _ _ hv => absurd hv not_voted_nil⟩ ?_
  intro w a w' hr hinv hok hstep
  have hw := static_of_reachable hr
  have hmove := C.move hw hstep
  have hterm : ∀ n, (w.core n).currentTerm ≤ (w'.core n).currentTerm := by
    intro n
    refine (hmove.keeps ?_).term
    rintro rfl
    exact hok
  constructor
  · intro c hc
    have hold : c ∈ w.net.voteCalls → c.args.term ≤ (w'.core c.src).currentTerm :=
      fun hc => Nat.le_trans (hinv.requests c hc) (hterm c.src)
    cases hmove with
    | campaign _ _ hargs hcore hnet =>
        rw [hnet] at hc
        rcases List.mem_append.mp hc with hc | hc
        · exact hold hc
        · obtain ⟨_, -, rfl⟩ := List.mem_map.mp hc
          rw [hcore, Function.update_self, hargs]
          exact Nat.le_refl _
    | _ => exact hold (by simpa only [*] using hc)
  · intro v args hv
    rcases hmove.vote_cases hw hv with
      hold | ⟨rfl, heq⟩ | ⟨call, c, -, hcall, -, rfl, hsrc⟩
    · exact Nat.le_trans (hinv.votes v args hold) (hterm _)
    · exact Nat.le_of_eq heq
    · rw [← hsrc]
      exact Nat.le_trans (hinv.requests c (List.mem_of_getElem? hcall)) (hterm _)

end Votes

/-! ## Acknowledgements -/

/-- Every answer is to a request that was made. -/
def Answered (w : World) : Prop :=
  ∀ call (reply : AppendEntriesReply), (call, reply) ∈ w.net.appendAnswers →
    call < w.net.appendCalls.length

theorem answered_of_reachable {C : Cluster} {ok : World → Action → Prop} {w : World}
    (h : Reachable C.step ok C.init w) : Answered w := by
  refine h.invariant (P := Answered) (fun _ _ hans => by cases hans) ?_
  intro w a w' hr hinv _ hstep call reply hans
  have hmove := C.move (static_of_reachable hr) hstep
  have hlen := hmove.grows.appendCalls.length_le
  have hold : (call, reply) ∈ w.net.appendAnswers →
      call < w'.net.appendCalls.length :=
    fun hmem => Nat.lt_of_lt_of_le (hinv call reply hmem) hlen
  cases hmove with
  | deliver hcall _ _ hnet =>
      rw [hnet] at hans
      rcases List.mem_append.mp hans with hmem | hmem
      · exact hold hmem
      · cases List.mem_singleton.mp hmem
        rw [hnet]
        exact (List.getElem?_eq_some_iff.mp hcall).1
  | _ => exact hold (by simpa only [*] using hans)

/-- The requests that the goroutines of a call of `Replicate` wait for are
new, and those who have acknowledged are on the side of the node. -/
structure OneSided (C : Cluster) (side : String → Bool) (w₀ : World) (net : Net)
    (n : String) (workers : List Worker) : Prop where
  awaiting : ∀ (k : Nat) call args, workers[k]? = some (.awaiting call args) →
    w₀.net.appendCalls.length ≤ call ∧ ∃ peer, (C.peers n)[k]? = some peer
      ∧ net.appendCalls[call]? = some ⟨n, peer, args⟩
  acked : ∀ (k : Nat) wk peer, workers[k]? = some wk → wk.isAck = true →
    (C.peers n)[k]? = some peer → side peer = side n

structure SideInv (C : Cluster) (side : String → Bool) (w₀ w : World) : Prop where
  calls : w₀.net.voteCalls <+: w.net.voteCalls
  requests : w₀.net.appendCalls <+: w.net.appendCalls
  votes : ∀ v args, Voted w.history v args → side args.candidateID = true →
    (w₀.core args.candidateID).currentTerm < args.term → side v = true
  answers : ∀ call (reply : AppendEntriesReply),
    (call, reply) ∈ w.net.appendAnswers → w₀.net.appendCalls.length ≤ call →
      ∃ c, w.net.appendCalls[call]? = some c ∧ side c.src = side c.dst
  replicates : ∀ n (r : Nat) c, (w₀.proc n).replicates.length ≤ r →
    (w.proc n).replicates[r]? = some c → OneSided C side w₀ w.net n c.workers

section Worker

variable {C : Cluster} {side : String → Bool} {w₀ : World} {net net' : Net}
  {n : String} {workers : List Worker}

theorem OneSided.mono (h : OneSided C side w₀ net n workers)
    (hnet : net.appendCalls <+: net'.appendCalls) :
    OneSided C side w₀ net' n workers where
  awaiting k call args hwk := by
    obtain ⟨hnew, peer, hpeer, hcall⟩ := h.awaiting k call args hwk
    exact ⟨hnew, peer, hpeer, LeaderLog.prefix_getElem? hnet hcall⟩
  acked := h.acked

/-- One goroutine moves. -/
theorem OneSided.set (h : OneSided C side w₀ net n workers) {k : Nat} {wk : Worker}
    (hawait : ∀ call args, wk = .awaiting call args →
      w₀.net.appendCalls.length ≤ call ∧ ∃ peer, (C.peers n)[k]? = some peer
        ∧ net.appendCalls[call]? = some ⟨n, peer, args⟩)
    (hack : wk.isAck = true → ∀ peer, (C.peers n)[k]? = some peer →
      side peer = side n) : OneSided C side w₀ net n (workers.set k wk) := by
  have hcases : ∀ {j : Nat} {x : Worker}, (workers.set k wk)[j]? = some x →
      j = k ∧ x = wk ∨ workers[j]? = some x := by
    intro j x hx
    by_cases hj : k = j
    · subst hj
      have hlt := LeaderLog.lt_length_of_getElem? hx
      rw [List.getElem?_set_self (by simpa using hlt)] at hx
      exact .inl ⟨rfl, (Option.some.inj hx).symm⟩
    · rw [List.getElem?_set_ne hj] at hx
      exact .inr hx
  constructor
  · intro j call args hx
    rcases hcases hx with ⟨rfl, heq⟩ | hold
    · exact hawait call args heq.symm
    · exact h.awaiting j call args hold
  · intro j x peer hx hisAck hpeer
    rcases hcases hx with ⟨rfl, rfl⟩ | hold
    · exact hack hisAck peer hpeer
    · exact h.acked j x peer hold hisAck hpeer

theorem oneSided_open (p : Proc) (command : Command) :
    OneSided C side w₀ net n (p.openCall command).workers := by
  have hlock : ∀ {k : Nat} {wk : Worker},
      (p.openCall command).workers[k]? = some wk → wk = .lock := by
    intro k wk hwk
    obtain ⟨_, -, hlock⟩ := List.mem_map.mp (List.mem_of_getElem? hwk)
    exact hlock.symm
  exact ⟨fun _ _ _ hwk => (by cases hlock hwk),
    fun _ _ _ hwk hack => (by rw [hlock hwk] at hack; cases hack)⟩

end Worker

section Step

variable {C : Cluster} {side : String → Bool} {w₀ w w' : World} {a : Action}

theorem SideInv.init (h : Reachable C.step noRestart C.init w₀) :
    SideInv C side w₀ w₀ where
  calls := List.prefix_rfl
  requests := List.prefix_rfl
  votes v args hv _ hlt :=
    absurd ((termsReached_of_reachable h).votes v args hv) (Nat.not_le.mpr hlt)
  answers call reply hans hle :=
    absurd (answered_of_reachable h call reply hans) (Nat.not_lt.mpr hle)
  replicates _ _ _ hle hc :=
    absurd (LeaderLog.lt_length_of_getElem? hc) (Nat.not_lt.mpr hle)

theorem SideInv.votes_step (hinv : SideInv C side w₀ w) (h₀ : TermsReached w₀)
    (hw : Static C w) (hok : severed side w₀ w a) (hmove : Move C w a w')
    {v : String} {args : RequestVoteArgs} (hv : Voted w'.history v args)
    (hcand : side args.candidateID = true)
    (hterm : (w₀.core args.candidateID).currentTerm < args.term) :
    side v = true := by
  rcases hmove.vote_cases hw hv with
    hold | ⟨rfl, -⟩ | ⟨call, c, rfl, hcall, rfl, rfl, hsrc⟩
  · exact hinv.votes v args hold hcand hterm
  · exact hcand
  · rcases Nat.lt_or_ge call w₀.net.voteCalls.length with hlt | hge
    · -- a request from before is for a term that the candidate had reached
      have hcall₀ : w₀.net.voteCalls[call]? = some c := by
        rw [List.getElem?_eq_getElem hlt]
        have hsome := LeaderLog.prefix_getElem? hinv.calls (List.getElem?_eq_getElem hlt)
        exact hsome.symm.trans hcall
      have hle := h₀.requests c (List.mem_of_getElem? hcall₀)
      rw [hsrc] at hle
      omega
    · rw [← hok hge c hcall, hsrc]
      exact hcand

theorem SideInv.answers_step (hinv : SideInv C side w₀ w)
    (hok : severed side w₀ w a) (hmove : Move C w a w') {call : Nat}
    {reply : AppendEntriesReply} (hans : (call, reply) ∈ w'.net.appendAnswers)
    (hnew : w₀.net.appendCalls.length ≤ call) :
    ∃ c, w'.net.appendCalls[call]? = some c ∧ side c.src = side c.dst := by
  have hgrows := hmove.grows.appendCalls
  have hold : (call, reply) ∈ w.net.appendAnswers →
      ∃ c, w'.net.appendCalls[call]? = some c ∧ side c.src = side c.dst := by
    intro hmem
    obtain ⟨c, hcall, hside⟩ := hinv.answers call reply hmem hnew
    exact ⟨c, LeaderLog.prefix_getElem? hgrows hcall, hside⟩
  cases hmove with
  | deliver hcall _ _ hnet =>
      rw [hnet] at hans
      rcases List.mem_append.mp hans with hmem | hmem
      · exact hold hmem
      · cases List.mem_singleton.mp hmem
        exact ⟨_, LeaderLog.prefix_getElem? hgrows hcall, hok hnew _ hcall⟩
  | _ => exact hold (by simpa only [*] using hans)

/-- A goroutine of a call moves. -/
theorem SideInv.worker (hinv : SideInv C side w₀ w) (hw : Static C w) {n : String}
    {out : Output} {c : ReplicateCall} {k : Nat} {wk : Worker}
    (hc : OneSided C side w₀ w'.net n c.workers)
    (hold : OneSided C side w₀ w.net n c.workers)
    (hwk : WorkerMove w.net (w.proc n) out c k wk)
    (hout : out.appendCalls = []
      ∨ w'.net.appendCalls = w.net.appendCalls ++ out.appendCalls) :
    OneSided C side w₀ w'.net n (c.workers.set k wk) := by
  have hid : (w.proc n).node.id = n := hw.id n
  have hpeers : (w.proc n).node.peers = C.peers n := hw.peers n
  cases hwk with
  | retry => exact hc.set nofun nofun
  | failed => exact hc.set nofun nofun
  | @sent peer args hpeer _ _ _ hsent =>
      refine hc.set ?_ nofun
      rintro call args' ⟨⟩
      refine ⟨hinv.requests.length_le, peer, hpeers ▸ hpeer, ?_⟩
      rcases hout with hnil | hnet
      · rw [hnil] at hsent
        cases hsent
      · rw [hnet, hsent, hid]
        exact List.getElem?_concat_length
  | @acked call args reply hworker hans _ _ =>
      refine hc.set nofun ?_
      intro _ peer hpeer
      obtain ⟨hnew, peer', hpeer', hcall⟩ := hold.awaiting k call args hworker
      obtain ⟨c', hc', hside⟩ := hinv.answers call reply hans hnew
      cases hcall.symm.trans hc'
      cases hpeer.symm.trans hpeer'
      exact hside.symm

theorem SideInv.replicates_step (hinv : SideInv C side w₀ w) (hw : Static C w)
    (hstep : C.step w a = some w') {n : String} {r : Nat} {c' : ReplicateCall}
    (hr : (w₀.proc n).replicates.length ≤ r)
    (hc' : (w'.proc n).replicates[r]? = some c') :
    OneSided C side w₀ w'.net n c'.workers := by
  have hgrows := (C.move hw hstep).grows.appendCalls
  rcases C.call_step hstep n with hnil | ⟨out, hmove, hout⟩
  · rw [hnil] at hc'
    cases hc'
  have hset : ∀ {r₀ : Nat} {c x : ReplicateCall},
      (w.proc n).replicates[r₀]? = some c →
      (w'.proc n).replicates = (w.proc n).replicates.set r₀ x →
      (OneSided C side w₀ w.net n c.workers →
        OneSided C side w₀ w'.net n c.workers →
        OneSided C side w₀ w'.net n x.workers) →
      OneSided C side w₀ w'.net n c'.workers := by
    intro r₀ c x hcall hcalls hx
    rw [hcalls] at hc'
    by_cases hr₀ : r₀ = r
    · subst hr₀
      rw [List.getElem?_set_self (LeaderLog.lt_length_of_getElem? hcall)] at hc'
      cases hc'
      have hold := hinv.replicates n r₀ c hr hcall
      exact hx hold (hold.mono hgrows)
    · rw [List.getElem?_set_ne hr₀] at hc'
      exact (hinv.replicates n r c' hr hc').mono hgrows
  cases hmove with
  | same hcalls => exact (hinv.replicates n r c' hr (hcalls ▸ hc')).mono hgrows
  | opened _ _ hcalls =>
      rw [hcalls] at hc'
      rcases Nat.lt_or_ge r (w.proc n).replicates.length with hlt | hge
      · rw [List.getElem?_append_left hlt] at hc'
        exact (hinv.replicates n r c' hr hc').mono hgrows
      · rw [List.getElem?_append_right hge] at hc'
        rw [List.mem_singleton.mp (List.mem_of_getElem? hc')]
        exact oneSided_open ..
  | worker hcall _ hwk hcalls =>
      refine hset hcall hcalls fun hold hc => hinv.worker hw hc hold hwk ?_
      rcases hout with rfl | ⟨-, hw'⟩
      · exact .inl rfl
      · exact .inr (by rw [hw']; rfl)
  | @ack _ k c ok hcall _ hworker hcalls =>
      refine hset hcall hcalls fun _ hc => hc.set nofun ?_
      exact fun hok peer hpeer => hc.acked k _ peer hworker hok hpeer
  | gaveUp hcall _ _ hcalls => exact hset hcall hcalls fun _ hc => hc
  | committed hcall _ hcalls => exact hset hcall hcalls fun _ hc => hc
  | returned hcall _ _ hcalls => exact hset hcall hcalls fun _ hc => hc

end Step

theorem sideInv_of_reachable {C : Cluster} {side : String → Bool} {w₀ w : World}
    (h₀ : Reachable C.step noRestart C.init w₀)
    (h : Reachable C.step (severed side w₀) w₀ w) : SideInv C side w₀ w := by
  refine h.invariant (P := SideInv C side w₀) (.init h₀) ?_
  intro w a w' hr hinv hok hstep
  have hw : Static C w :=
    static_of_reachable (h₀.trans (hr.mono fun _ _ => severed.noRestart))
  have hmove := C.move hw hstep
  exact
    { calls := hinv.calls.trans hmove.grows.voteCalls
      requests := hinv.requests.trans hmove.grows.appendCalls
      votes := fun v args => hinv.votes_step (termsReached_of_reachable h₀) hw hok hmove
      answers := fun call reply => hinv.answers_step hok hmove
      replicates := fun n r c => hinv.replicates_step hw hstep }

/-! ## No progress -/

/-- A call that has its majority has it on the side of its node. -/
theorem decided_on_side {C : Cluster} {side : String → Bool} {w₀ w : World}
    {ok : World → Action → Prop} (h : Reachable C.step ok C.init w) {n : String}
    (hn : n ∈ C.members) {c : ReplicateCall} (hc : c ∈ (w.proc n).replicates)
    (hside : OneSided C side w₀ w.net n c.workers)
    (hdecided : c.loc.decided = true) :
    ∃ Q, IsMajority C.members Q ∧ ∀ v ∈ Q, side v = side n := by
  obtain ⟨p, hp, -, down, hproc⟩ := C.node_reachable h n
  have hslots := slotInv_reachable (hp.mono fun p a _ => onlyHeard_all p a)
  have htally := hslots.calls c (by rw [hproc] at hc; exact hc)
  have hmaj := htally.decided hdecided
  rw [quorumOf, C.length_peers hn, htally.acks.count] at hmaj
  obtain ⟨Q, hQ, -, hslots⟩ := exists_majority_of_slots hn (C.peers_nodup n hn)
    (fun p hp => (C.mem_peers n hn p).mp hp) htally.acks.length hmaj
  refine ⟨Q, hQ, fun v hv => ?_⟩
  rcases hslots v hv with rfl | ⟨k, wk, hpeer, hwk, hcount⟩
  · rfl
  · exact hside.acked k wk v hwk (Worker.isAck_of_isCounted hcount) hpeer

section Cut

variable {C : Cluster} {side : String → Bool} {w₀ w : World}

theorem elected_before_cut (hminor : C.Minority side)
    (h₀ : Reachable C.step noRestart C.init w₀)
    (h : Reachable C.step (severed side w₀) w₀ w) {n : String} (hn : side n = true)
    {term : Nat} {log : LogStore} (he : .elected n term log ∈ w.history) :
    term ≤ (w₀.core n).currentTerm := by
  have hinv := sideInv_of_reachable h₀ h
  have hreach := h₀.trans (h.mono fun _ _ => severed.noRestart)
  obtain ⟨args, rfl, rfl, ⟨Q, hQ, -, hvoted⟩, -⟩ :=
    (electInv_of_reachable (hreach.mono fun _ _ => noRestart.blank)).elected n term log he
  by_contra hlt
  refine hminor.not_majority hQ fun v hv => ?_
  exact hinv.votes v args (hvoted v hv) hn (Nat.lt_of_not_le hlt)

theorem undecided_since_cut (hminor : C.Minority side)
    (h₀ : Reachable C.step noRestart C.init w₀)
    (h : Reachable C.step (severed side w₀) w₀ w) {n : String}
    (hmem : n ∈ C.members) (hn : side n = true) {r : Nat} {c : ReplicateCall}
    (hr : (w₀.proc n).replicates.length ≤ r)
    (hc : (w.proc n).replicates[r]? = some c) : c.loc.decided = false := by
  have hinv := sideInv_of_reachable h₀ h
  have hreach := h₀.trans (h.mono fun _ _ => severed.noRestart)
  by_contra hdecided
  obtain ⟨Q, hQ, hside⟩ := decided_on_side hreach hmem (List.mem_of_getElem? hc)
    (hinv.replicates n r c hr hc) (by simpa using hdecided)
  exact hminor.not_majority hQ fun v hv => (hside v hv).trans hn

end Cut

/-- On a side that is no majority, nobody wins a term beyond the one it had
when the cluster was cut, and no call of `Replicate` made since then gets
its majority. -/
theorem minority_makes_no_progress {C : Cluster} {side : String → Bool} {w₀ w : World}
    (hminor : C.Minority side) (h₀ : Reachable C.step noRestart C.init w₀)
    (h : Reachable C.step (severed side w₀) w₀ w) {n : String}
    (hmem : n ∈ C.members) (hn : side n = true) :
    (∀ term log, .elected n term log ∈ w.history →
      term ≤ (w₀.proc n).node.currentTerm)
    ∧ ∀ (r : Nat) c, (w₀.proc n).replicates.length ≤ r →
      (w.proc n).replicates[r]? = some c → c.loc.decided = false := by
  constructor
  · intro term log he
    exact elected_before_cut hminor h₀ h hn he
  · intro r c hr hc
    exact undecided_since_cut hminor h₀ h hmem hn hr hc

/-- The leader is cut off. It accepts a command, its requests get lost, and
its old peers go on without it. -/
def aloneRun : List Action :=
  [.local "a" (.replicate [7]), .local "a" (.replicateSend 0 0),
    .local "a" (.replicateSend 0 1), .local "b" .load, .local "b" .timeout,
    .local "b" .load, .local "b" .campaign, .deliverVote 3,
    .local "b" (.voteReply 1 1), .local "b" .becomeLeader]

theorem minority_makes_no_progress_a :
    ∃ w₀ w, Reachable threeNodes.step noRestart threeNodes.init w₀
      ∧ Reachable threeNodes.step (severed (· == "a") w₀) w₀ w
      ∧ (w.proc "a").node.state = .leader ∧ (w.proc "b").node.state = .leader
      ∧ ∃ c ∈ (w.proc "a").replicates[0]?, c.loc.decided = false := by
  obtain ⟨w₀, h₀, hlen, hrest⟩ : ∃ w₀,
      Reachable threeNodes.step noRestart threeNodes.init w₀
        ∧ (w₀.proc "a").replicates.length ≤ 0
        ∧ (exec threeNodes.step (severed (· == "a") w₀) [] w₀ aloneRun).any
          (fun r => decide ((r.2.proc "a").node.state = .leader
            ∧ (r.2.proc "b").node.state = .leader
            ∧ (r.2.proc "a").replicates[0]?.isSome = true)) = true :=
    Reachable.of_exec_any electRun (by decide +kernel)
  obtain ⟨w, h, ha, hb, hsome⟩ := Reachable.of_exec_any aloneRun
    (P := fun w : World => (w.proc "a").node.state = .leader
      ∧ (w.proc "b").node.state = .leader
      ∧ (w.proc "a").replicates[0]?.isSome = true) hrest
  obtain ⟨c, hc⟩ := Option.isSome_iff_exists.mp hsome
  refine ⟨w₀, w, h₀, h, ha, hb, c, hc, ?_⟩
  have hminor : threeNodes.Minority (· == "a") := by unfold Cluster.Minority; decide
  exact (minority_makes_no_progress hminor h₀ h (by decide) rfl).2 0 c hlen hc

end RaftStore
