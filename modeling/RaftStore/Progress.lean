import Mathlib.Data.Finset.Max
import Mathlib.Data.Prod.Lex
import RaftStore.CatchUp
import RaftStore.Integrity
import RaftStore.Scheduling

/-!
# A majority makes progress

`Partition` shows what a minority cannot do. Here is the other side: as long
as a majority of the members is up, whatever else has happened before, the
requests among them can be delivered in such an order that a call of
`Replicate` made from now on returns nil (`majority_can_replicate`). So no
reachable state is a dead end: no vote, term, log, `nextIndex` or full
channel that the past has left behind stands in the way.

The order is this. A node whose term nobody in the majority exceeds may lead
already; then it can replicate right away (`can_replicate`). If not, the node
with the most recent log is made to step down, should it lead in an old term
(`can_depose`). It raises its term above all the others, asks for their votes
and gets them all (`can_win`), and then it replicates. Each time the loop of
`replicateToPeer` goes down until the peer accepts (`can_ack`).
-/

namespace RaftStore

open Runs

/-! ## The members that are up -/

structure Group (C : Cluster) (up : List String) (w : World) : Prop where
  reach : Reachable C.step noRestart C.init w
  up : ∀ n ∈ up, Up C w n

section Group

variable {C : Cluster} {up : List String} {n : String} {w v : World} {P : World → Prop}

theorem Group.live (h : Group C up w) (hn : n ∈ up) : Live C n w := ⟨h.reach, h.up n hn⟩

theorem Group.after (h : Group C up w) (hr : Reachable C.step ordinary w v) : Group C up v :=
  ⟨h.reach.trans (hr.mono fun _ _ ha => ha.noRestart), fun n hn => (h.up n hn).after hr⟩

theorem Group.static (h : Group C up w) : Static C w :=
  static_of_reachable (h.reach.mono fun _ _ ha => ha.blank)

theorem Group.id (h : Group C up w) : (w.proc n).node.id = n := h.static.id n

theorem Group.peers (h : Group C up w) : (w.proc n).node.peers = C.peers n := h.static.peers n

theorem Group.majority (h : Group C up w) (hn : n ∈ up) :
    (w.proc n).node.majority = C.members.length / 2 + 1 := by
  rw [Node.majority, h.peers, Cluster.length_peers (h.up n hn).member]

theorem Group.peer (h : Group C up w) (hn : n ∈ up) {m : String} (hm : m ∈ up) (hne : m ≠ n) :
    ∃ k : Nat, (C.peers n)[k]? = some m :=
  List.mem_iff_getElem?.mp
    ((C.mem_peers n (h.up n hn).member m).mpr ⟨(h.up m hm).member, hne⟩)

/-- What is asked of the members that are up. -/
structure Majority (C : Cluster) (up : List String) : Prop where
  size : 2 ≤ C.members.length
  nodup : up.Nodup
  more : C.members.length < 2 * up.length

theorem Majority.erase (h : Majority C up) (hn : n ∈ up) :
    C.members.length / 2 + 1 ≤ 1 + (up.erase n).length := by
  have hmore := h.more
  rw [List.length_erase_of_mem hn]
  omega

theorem Majority.peers (h : Majority C up) (hn : n ∈ C.members) : C.peers n ≠ [] := by
  intro hnil
  have hlen := Cluster.length_peers hn
  have hsize := h.size
  rw [hnil, List.length_nil] at hlen
  omega

theorem can_act (h : Group C up w) {a : Action} (hok : ordinary w a)
    (hstep : C.step w a = some v) (hnext : Group C up v → Can C.step ordinary P v) :
    Can C.step ordinary P w :=
  .step hok hstep (hnext (h.after ⟨_, .step .init hok hstep⟩))

theorem can_move (h : Group C up w) (hn : n ∈ up) {l : Local} (hl : l ≠ .stop) {p : Proc}
    {out : Output} (hstep : (w.proc n).step w.net l = some (p, out))
    (hnext : Group C up (w.commit n p out) → Can C.step ordinary P (w.commit n p out)) :
    Can C.step ordinary P w :=
  can_act h (a := .local n l) hl
    (by simp [Cluster.step, (h.up n hn).member, (h.up n hn).alive, hstep]) hnext

theorem can_deliverVote (h : Group C up w) {call : Nat} {c : VoteCall}
    (hcall : w.net.voteCalls[call]? = some c) (hdst : c.dst ∈ up)
    (hnext : Group C up (w.answerVote call c) → Can C.step ordinary P (w.answerVote call c)) :
    Can C.step ordinary P w :=
  can_act h (a := .deliverVote call) trivial
    (by simp [Cluster.step, hcall, (h.up _ hdst).alive]) hnext

theorem can_deliverAppend (h : Group C up w) {call : Nat} {c : AppendCall}
    (hcall : w.net.appendCalls[call]? = some c) (hdst : c.dst ∈ up)
    (hnext : Group C up (w.answerAppend call c) →
      Can C.step ordinary P (w.answerAppend call c)) :
    Can C.step ordinary P w :=
  can_act h (a := .deliverAppend call) trivial
    (by simp [Cluster.step, hcall, (h.up _ hdst).alive]) hnext

/-! ## Elections that are already won -/

def Calm (w : World) (n : String) : Prop := ∀ term, (w.proc n).run ≠ .becomeLeader term

/-- Who has won an election can take it. -/
theorem can_calm (h : Group C up w) :
    Can C.step ordinary (fun v => Group C up v ∧ ∀ n ∈ up, Calm v n) w := by
  refine Can.all (D := fun n v => Calm v n) (fun n hn v hgroup => ?_) h
  by_cases hcalm : Calm v n
  · exact .now ⟨hgroup, hcalm, fun _ _ hm => hm⟩
  · simp only [Calm, not_forall, not_not] at hcalm
    obtain ⟨term, hrun⟩ := hcalm
    refine can_move hgroup hn (l := .becomeLeader) (by simp)
      (by simp only [Proc.step, Proc.becomeLeader, hrun]; rfl) fun hgroup' => ?_
    refine .now ⟨hgroup', by simp [Calm], ?_⟩
    intro m _ hm
    by_cases hmn : m = n
    · subst hmn
      simp [Calm]
    · rwa [Calm, own_commit _ _ _ _ m hmn]

/-! ## Asking for votes -/

/-- `HandleRequestVote` in a term that is new to the node. -/
theorem Node.handleRequestVote_higher {n : Node} {args : RequestVoteArgs}
    (h : n.currentTerm < args.term) :
    (n.handleRequestVote args).1.state = .follower
      ∧ (n.handleRequestVote args).1.log = n.log
      ∧ (n.handleRequestVote args).1.currentTerm = args.term
      ∧ (n.handleRequestVote args).2.term = args.term
      ∧ (n.logOK args = true → (n.handleRequestVote args).2.voteGranted = true) := by
  unfold Node.handleRequestVote
  rw [if_neg (by omega), Node.observeTerm, if_pos h, Node.becomeFollower, if_pos h]
  dsimp only
  split
  · rename_i hno
    refine ⟨rfl, rfl, rfl, rfl, fun hok => ?_⟩
    simp [Node.alreadyVoted, Node.logOK] at hno hok
    omega
  · exact ⟨rfl, rfl, rfl, rfl, fun _ => rfl⟩

/-- `loopCandidate` has sent its requests. -/
structure Campaigning (C : Cluster) (n : String) (w v : World) (c : Candidacy) : Prop where
  own : Own n w v
  node : (v.proc n).node = (w.proc n).node.startElection
  run : (v.proc n).run = .counting c
  args : c.args = (w.proc n).node.voteRequest
  votes : c.votes = 1
  waiting : ∀ (k : Nat) peer, (C.peers n)[k]? = some peer → c.ballots[k]? = some .waiting
  calls : ∀ (k : Nat) peer, (C.peers n)[k]? = some peer →
    v.net.voteCalls[c.firstCall + k]? = some ⟨n, peer, c.args⟩

theorem can_campaign (hmaj : Majority C up) (h : Group C up w) (hn : n ∈ up)
    (hrun : (w.proc n).run = .loopCandidate) :
    Can C.step ordinary (fun v => Group C up v ∧ ∃ c, Campaigning C n w v c) w := by
  have hpeers := hmaj.peers (h.up n hn).member
  refine can_move h hn (l := .campaign) (by simp)
    (by simp only [Proc.step, Proc.campaign, hrun, h.peers, if_neg hpeers]; rfl)
    fun hgroup => .now ⟨hgroup, _, own_commit _ _ _ _, by rw [World.commit_self],
      by rw [World.commit_self], rfl, rfl, ?_, ?_⟩
  · intro k peer hk
    simp only [List.getElem?_map, hk]
    rfl
  · intro k peer hk
    simp only [World.commit, h.id]
    rw [List.getElem?_append_right (Nat.le_add_right ..), Nat.add_sub_cancel_left,
      List.getElem?_map, hk]
    rfl

/-- A vote request in a new term, and the node that gets it. -/
structure Asked (w v : World) (c : VoteCall) (call : Nat) : Prop where
  own : Own c.dst w v
  run : (v.proc c.dst).run = (w.proc c.dst).run
  state : (v.proc c.dst).node.state = .follower
  log : (v.proc c.dst).node.log = (w.proc c.dst).node.log
  term : (v.proc c.dst).node.currentTerm = c.args.term
  calls : v.net.voteCalls = w.net.voteCalls
  answer : (w.proc c.dst).node.logOK c.args = true → ∃ reply,
    v.net.voteAnswers[w.net.voteAnswers.length]? = some (call, reply)
      ∧ reply.voteGranted = true ∧ reply.term = c.args.term

theorem asked_answerVote (call : Nat) {c : VoteCall}
    (hterm : (w.proc c.dst).node.currentTerm < c.args.term) :
    Asked w (w.answerVote call c) c call := by
  obtain ⟨hstate, hlog, hcur, hreply, hgrant⟩ := Node.handleRequestVote_higher hterm
  refine ⟨fun m hm => ?_, ?_, ?_, ?_, ?_, rfl, fun hok => ⟨_, ?_, hgrant hok, hreply⟩⟩ <;>
    simp [World.answerVote, *]

/-- A node that leads in an old term can be made to step down by another one
that starts an election. -/
theorem can_depose (hmaj : Majority C up) (h : Group C up w) {m : String}
    (hm : m ∈ up) (hn : n ∈ up) (hne : n ≠ m) (hstate : (w.proc m).node.state ≠ .leader)
    (hcalm : Calm w m) :
    Can C.step ordinary (fun v => Group C up v ∧ (v.proc n).node.state ≠ .leader
      ∧ (v.proc n).run = (w.proc n).run
      ∧ ∀ x, (v.proc x).node.log = (w.proc x).node.log) w := by
  refine (can_raise (w.proc n).node.currentTerm (h.live hm) hstate hcalm).bind ?_
  rintro v₁ hr₁ ⟨hstand, hbound⟩
  refine (can_campaign hmaj (h.after hr₁) hm hstand.run).bind ?_
  rintro v₂ - ⟨hgroup, c, hcamp⟩
  obtain ⟨k, hk⟩ := h.peer hm hn hne
  have hsame : v₂.proc n = w.proc n := (hcamp.own n hne).trans (hstand.own n hne)
  have hterm : (v₂.proc n).node.currentTerm < c.args.term := by
    rw [hsame, hcamp.args]
    exact Nat.lt_succ_of_le hbound
  refine can_deliverVote hgroup (hcamp.calls k n hk) hn fun hgroup' => ?_
  have hasked := asked_answerVote (c.firstCall + k) (c := ⟨m, n, c.args⟩) hterm
  refine .now ⟨hgroup', by simp [hasked.state], hasked.run.trans (by rw [hsame]), fun x => ?_⟩
  have hlog₂ : (v₂.proc x).node.log = (w.proc x).node.log := by
    by_cases hxm : x = m
    · subst hxm
      rw [hcamp.node]
      exact hstand.log
    · rw [hcamp.own x hxm, hstand.own x hxm]
  by_cases hxn : x = n
  · subst hxn
    exact hasked.log.trans hlog₂
  · rw [hasked.own x hxn, hlog₂]

/-! ## Winning -/

/-- The candidate `n` has asked everybody and still waits for the members
in `left`, who will all vote for it. -/
structure Polling (C : Cluster) (n : String) (up left : List String) (v : World)
    (c : Candidacy) : Prop where
  run : (v.proc n).run = .counting c
  state : (v.proc n).node.state = .candidate
  term : (v.proc n).node.currentTerm = c.args.term
  calls : ∀ (k : Nat) peer, (C.peers n)[k]? = some peer →
    v.net.voteCalls[c.firstCall + k]? = some ⟨n, peer, c.args⟩
  waiting : ∀ (k : Nat) peer, (C.peers n)[k]? = some peer → peer ∈ left →
    c.ballots[k]? = some .waiting
  voters : ∀ m ∈ left, (v.proc m).node.currentTerm < c.args.term
    ∧ (v.proc m).node.logOK c.args = true
  terms : ∀ m ∈ up, (v.proc m).node.currentTerm ≤ c.args.term
  short : c.votes < C.members.length / 2 + 1
  enough : C.members.length / 2 + 1 ≤ c.votes + left.length

/-- The candidate has won in a term that nobody exceeds. -/
structure Winning (n : String) (up : List String) (term : Nat) (v : World) : Prop where
  run : (v.proc n).run = .becomeLeader term
  state : (v.proc n).node.state = .candidate
  current : (v.proc n).node.currentTerm = term
  terms : ∀ m ∈ up, (v.proc m).node.currentTerm ≤ term

theorem Proc.countVote_granted (p : Proc) (c : Candidacy) (k : Nat) :
    (p.countVote c k true c.args.term).run
      = if p.node.majority ≤ c.votes + 1 then .becomeLeader c.args.term
        else if (c.count k true).ballots.all (· ≠ .waiting) then .top
        else .counting (c.count k true) := by
  simp [Proc.countVote, Candidacy.count]

/-- `m` has given its vote, and the candidate `n` has counted it. -/
structure VoteCounted (C : Cluster) (n m : String) (k : Nat) (c : Candidacy) (w v : World) :
    Prop where
  run : (v.proc n).run
    = if C.members.length / 2 + 1 ≤ c.votes + 1 then .becomeLeader c.args.term
      else if (c.count k true).ballots.all (· ≠ .waiting) then .top
      else .counting (c.count k true)
  node : (v.proc n).node = (w.proc n).node
  voter : (v.proc m).node.currentTerm = c.args.term
  others : ∀ x, x ≠ n → x ≠ m → v.proc x = w.proc x
  calls : v.net.voteCalls = w.net.voteCalls

theorem can_vote {m : String} {k : Nat} {c : Candidacy} (h : Group C up w) (hn : n ∈ up)
    (hm : m ∈ up) (hne : m ≠ n) (hrun : (w.proc n).run = .counting c)
    (hcall : w.net.voteCalls[c.firstCall + k]? = some ⟨n, m, c.args⟩)
    (hwaiting : c.ballots[k]? = some .waiting)
    (hterm : (w.proc m).node.currentTerm < c.args.term)
    (hok : (w.proc m).node.logOK c.args = true) :
    Can C.step ordinary (fun v => Group C up v ∧ VoteCounted C n m k c w v) w := by
  refine can_deliverVote h hcall hm fun hgroup => ?_
  have hasked := asked_answerVote (c.firstCall + k) (c := ⟨n, m, c.args⟩) hterm
  obtain ⟨⟨term, granted⟩, hanswer, rfl, rfl⟩ := hasked.answer hok
  set v := w.answerVote (c.firstCall + k) ⟨n, m, c.args⟩ with hv
  have hcand : v.proc n = w.proc n := hasked.own n (Ne.symm hne)
  have hrun' : (v.proc n).run = .counting c := by rw [hcand, hrun]
  refine can_move hgroup hn (l := .voteReply k w.net.voteAnswers.length) (by simp)
    (by simp only [Proc.step, Proc.voteReply, hrun', hanswer, hwaiting, and_self, if_true]; rfl)
    fun hgroup' => .now ⟨hgroup', ?_, ?_, ?_, ?_, ?_⟩
  · rw [World.commit_self, Proc.countVote_granted, hgroup.majority hn]
  · rw [World.commit_self, ← hcand]
    rfl
  · rw [own_commit _ _ _ _ m hne]
    exact hasked.term
  · exact fun x hxn hxm => (own_commit _ _ _ _ x hxn).trans (hasked.own x hxm)
  · simp [World.commit, hasked.calls]

section Poll

variable {m : String} {left : List String} {c : Candidacy}
  (hpoll : Polling C n up (m :: left) w c) {k : Nat} (hk : (C.peers n)[k]? = some m)
  (hvoted : VoteCounted C n m k c w v) (hleft : m ∉ left)

include hpoll hvoted in
theorem Polling.terms_voted :
    ∀ x ∈ up, (v.proc x).node.currentTerm ≤ c.args.term := by
  intro x hx
  by_cases hxm : x = m
  · rw [hxm, hvoted.voter]
  · by_cases hxn : x = n
    · rw [hxn, hvoted.node, hpoll.term]
    · rw [hvoted.others x hxn hxm]
      exact hpoll.terms x hx

include hpoll hk hleft in
theorem Polling.waiting_count {j : Nat} {peer : String} (hj : (C.peers n)[j]? = some peer)
    (hpeer : peer ∈ left) : (c.count k true).ballots[j]? = some .waiting := by
  have hjk : k ≠ j := by
    rintro rfl
    rw [Option.some.inj (hk.symm.trans hj)] at hleft
    exact hleft hpeer
  rw [Candidacy.count, List.getElem?_set_ne hjk]
  exact hpoll.waiting j peer hj (List.mem_cons_of_mem _ hpeer)

include hpoll hk hvoted hleft in
/-- Without a majority yet, somebody is left, so `loopCandidate` goes on. -/
theorem Polling.run_voted (hpeers : ∀ x ∈ left, ∃ j : Nat, (C.peers n)[j]? = some x)
    (hshort : c.votes + 1 < C.members.length / 2 + 1) :
    (v.proc n).run = .counting (c.count k true) := by
  have henough := hpoll.enough
  rw [List.length_cons] at henough
  obtain ⟨x, hx⟩ := List.exists_mem_of_length_pos (show 0 < left.length by omega)
  obtain ⟨j, hj⟩ := hpeers x hx
  have hmore : ¬ (c.count k true).ballots.all (· ≠ .waiting) = true := by
    intro hall
    have hwait := List.mem_of_getElem? (hpoll.waiting_count hk hleft hj hx)
    simpa using List.all_eq_true.mp hall _ hwait
  rw [hvoted.run, if_neg (by omega), if_neg hmore]

include hpoll hk hvoted hleft in
/-- One more vote, and the election goes on or is won. -/
theorem Polling.voted (hpeers : ∀ x ∈ left, ∃ j : Nat, (C.peers n)[j]? = some x)
    (hnot : n ∉ m :: left) :
    Winning n up c.args.term v ∨ ∃ c', c'.args = c.args ∧ Polling C n up left v c' := by
  obtain ⟨hnm, hnleft⟩ := List.ne_and_not_mem_of_not_mem_cons hnot
  have hterms := hpoll.terms_voted hvoted
  have hstate : (v.proc n).node.state = .candidate := by rw [hvoted.node, hpoll.state]
  have hterm : (v.proc n).node.currentTerm = c.args.term := by rw [hvoted.node, hpoll.term]
  by_cases hwon : C.members.length / 2 + 1 ≤ c.votes + 1
  · exact .inl ⟨by rw [hvoted.run, if_pos hwon], hstate, hterm, hterms⟩
  · have hshort := Nat.lt_of_not_le hwon
    have hrun := hpoll.run_voted hk hvoted hleft hpeers hshort
    refine .inr ⟨c.count k true, rfl, hrun, hstate, hterm, ?_,
      fun j peer => hpoll.waiting_count hk hleft, ?_, hterms, hshort, ?_⟩
    · intro j peer hj
      rw [hvoted.calls]
      exact hpoll.calls j peer hj
    · intro x hx
      have hxm : x ≠ m := fun heq => hleft (heq ▸ hx)
      have hxn : x ≠ n := fun heq => hnleft (heq ▸ hx)
      rw [hvoted.others x hxn hxm]
      exact hpoll.voters x (List.mem_cons_of_mem _ hx)
    · have henough := hpoll.enough
      simp only [List.length_cons] at henough
      simp only [Candidacy.count, if_true]
      omega

end Poll

theorem can_win {left : List String} {c : Candidacy} (h : Group C up w) (hn : n ∈ up)
    (hsub : left ⊆ up) (hnodup : left.Nodup) (hnot : n ∉ left)
    (hpoll : Polling C n up left w c) :
    Can C.step ordinary (fun v => Group C up v ∧ Winning n up c.args.term v) w := by
  induction left generalizing w c with
  | nil =>
      have := hpoll.short
      have := hpoll.enough
      simp only [List.length_nil] at this
      omega
  | cons m left ih =>
      obtain ⟨hm, hsub'⟩ := List.cons_subset.mp hsub
      obtain ⟨hleft, hnodup'⟩ := List.nodup_cons.mp hnodup
      obtain ⟨hnm, hnleft⟩ := List.ne_and_not_mem_of_not_mem_cons hnot
      obtain ⟨k, hk⟩ := h.peer hn hm (Ne.symm hnm)
      obtain ⟨hterm, hok⟩ := hpoll.voters m (List.mem_cons_self ..)
      refine (can_vote h hn hm (Ne.symm hnm) hpoll.run (hpoll.calls k m hk)
        (hpoll.waiting k m hk (List.mem_cons_self ..)) hterm hok).bind ?_
      rintro v - ⟨hgroup, hvoted⟩
      have hpeers : ∀ x ∈ left, ∃ j : Nat, (C.peers n)[j]? = some x := fun x hx =>
        h.peer hn (hsub' hx) fun heq => hnleft (heq ▸ hx)
      rcases hpoll.voted hk hvoted hleft hpeers hnot with hwin | ⟨c', hargs, hpoll'⟩
      · exact .now ⟨hgroup, hwin⟩
      · rw [← hargs]
        exact ih hgroup hsub' hnodup' hnleft hpoll'

/-! ## Replicating -/

/-- The node leads, and nobody exceeds its term. -/
structure Leading (n : String) (up : List String) (term : Nat) (v : World) : Prop where
  state : (v.proc n).node.state = .leader
  current : (v.proc n).node.currentTerm = term
  terms : ∀ m ∈ up, (v.proc m).node.currentTerm ≤ term

theorem Leading.keeps {term : Nat} (h : Leading n up term w)
    (hcore : (v.proc n).node.core = (w.proc n).node.core)
    (hterms : ∀ m ∈ up, m ≠ n → (v.proc m).node.currentTerm ≤ term) : Leading n up term v := by
  have hcurrent : (v.proc n).node.currentTerm = term :=
    (congrArg Core.currentTerm hcore).trans h.current
  refine ⟨(congrArg Core.state hcore).trans h.state, hcurrent, fun m hm => ?_⟩
  by_cases hmn : m = n
  · rw [hmn, hcurrent]
  · exact hterms m hm hmn

theorem can_take {term : Nat} (h : Group C up w) (hn : n ∈ up) (hwin : Winning n up term w) :
    Can C.step ordinary (fun v => Group C up v ∧ Leading n up term v) w := by
  refine can_move h hn (l := .becomeLeader) (by simp)
    (by simp only [Proc.step, Proc.becomeLeader, hwin.run]; rfl)
    fun hgroup => .now ⟨hgroup, ?_, ?_, ?_⟩
  · simp [Node.becomeLeader, Node.wins, hwin.state, hwin.current]
  · simp [Node.becomeLeader, Node.wins, hwin.state, hwin.current]
  · intro m hm
    by_cases hmn : m = n
    · subst hmn
      simp [Node.becomeLeader, Node.wins, hwin.state, hwin.current]
    · rw [own_commit _ _ _ _ m hmn]
      exact hwin.terms m hm

theorem set_eq_self {α : Type} {l : List α} {i : Nat} {x : α} (h : l[i]? = some x) :
    l.set i x = l := by
  obtain ⟨hlt, rfl⟩ := List.getElem?_eq_some_iff.mp h
  exact List.set_getElem_self hlt

section Round

variable {m : String} {k r : Nat} {c : ReplicateCall}

theorem own_answerAppend (w : World) (call : Nat) (c : AppendCall) :
    Own c.dst w (w.answerAppend call c) := fun x hx => by simp [World.answerAppend, hx]

theorem answerAppend_node (w : World) (call : Nat) (c : AppendCall) :
    ((w.answerAppend call c).proc c.dst).node
      = ((w.proc c.dst).node.handleAppendEntries c.args).1 := by
  simp only [World.answerAppend, Function.update_self]
  split <;> rfl

/-- A goroutine of `replicateToPeer` has sent its request, and the peer has
handled it. -/
structure Exchanged (n m : String) (r k : Nat) (c : ReplicateCall) (w v : World)
    (args : AppendEntriesArgs) (reply : AppendEntriesReply) : Prop where
  sender : v.proc n = (w.proc n).setWorker r c k (.awaiting w.net.appendCalls.length args)
  receiver : (v.proc m).node.currentTerm = c.term
  others : ∀ x, x ≠ n → x ≠ m → v.proc x = w.proc x
  answer : v.net.appendAnswers[w.net.appendAnswers.length]?
    = some (w.net.appendCalls.length, reply)
  term : reply.term = c.term
  /-- `PrevLogIndex = 0` is always accepted -/
  refused : reply.success = false → 1 < (w.proc n).node.nextIndex m

theorem can_exchange (h : Group C up w) (hn : n ∈ up) (hm : m ∈ up) (hne : m ≠ n)
    (hk : (C.peers n)[k]? = some m) (hlead : Leading n up c.term w)
    (hcall : (w.proc n).replicates[r]? = some c) (hlock : c.workers[k]? = some .lock) :
    Can C.step ordinary (fun v => Group C up v
      ∧ ∃ args reply, Exchanged n m r k c w v args reply) w := by
  have hpeer : (w.proc n).node.peers[k]? = some m := by rw [h.peers, hk]
  have hon : ¬ ((w.proc n).node.currentTerm ≠ c.term ∨ (w.proc n).node.state ≠ .leader) := by
    simp [hlead.current, hlead.state]
  refine can_move h hn (l := .replicateSend r k) (by simp)
    (by simp only [Proc.step, Proc.replicateSend, hcall, hpeer, hlock, if_true, if_neg hon]; rfl)
    fun hgroup => ?_
  set args := (w.proc n).node.replicateArgs m c.entry c.term c.leaderCommit with hargs
  set v := w.commit n _ _ with hv
  have hsent : v.net.appendCalls[w.net.appendCalls.length]? = some ⟨n, m, args⟩ := by
    simp [hv, World.commit, h.id]
  have hpeerproc : v.proc m = w.proc m := own_commit _ _ _ _ m hne
  have hterm : (v.proc m).node.currentTerm ≤ args.term := by
    rw [hpeerproc]
    exact hlead.terms m hm
  obtain ⟨hreply, hcur, hsuccess, -, -⟩ := Node.handleAppendEntries_current hterm
  refine can_deliverAppend hgroup hsent hm fun hgroup' => ?_
  refine .now ⟨hgroup', args, ((v.proc m).node.handleAppendEntries args).2.1, ?_, ?_, ?_, ?_,
    hreply, ?_⟩
  · rw [own_answerAppend _ _ _ n (Ne.symm hne), hv, World.commit_self]
  · rw [answerAppend_node v _ ⟨n, m, args⟩]
    exact hcur
  · intro x hxn hxm
    rw [own_answerAppend _ _ _ x hxm]
    exact own_commit _ _ _ _ x hxn
  · simp [World.answerAppend, hv, World.commit]
  · intro hno
    rw [hsuccess] at hno
    by_contra hone
    have hzero : (w.proc n).node.nextIndex m - 1 = 0 := by omega
    simp [LogStore.matchesPrev, hargs, Node.replicateArgs, hzero] at hno

theorem Proc.digestReplicate_accepted {p : Proc} {reply : AppendEntriesReply}
    (hr : r < p.replicates.length) (hterm : reply.term = c.term)
    (hsuccess : reply.success = true) :
    (p.digestReplicate r c k m reply).replicates[r]?
      = some { c with workers := c.workers.set k (.done true) } := by
  simp [Proc.digestReplicate, hterm, hsuccess, Proc.setWorker, hr]

theorem Proc.digestReplicate_refused {p : Proc} {reply : AppendEntriesReply}
    (hr : r < p.replicates.length) (hterm : reply.term = c.term)
    (hsuccess : reply.success = false) (hnext : 1 < p.node.nextIndex m) :
    (p.digestReplicate r c k m reply).replicates[r]?
        = some { c with workers := c.workers.set k .lock }
      ∧ (p.digestReplicate r c k m reply).node.nextIndex m = p.node.nextIndex m - 1 := by
  simp [Proc.digestReplicate, hterm, hsuccess, Proc.setWorker, hr, hnext, Node.lowerNext]

/-- One round of `replicateToPeer`: the peer accepts, or `nextIndex` goes
down. -/
theorem can_round (h : Group C up w) (hn : n ∈ up) (hm : m ∈ up) (hne : m ≠ n)
    (hk : (C.peers n)[k]? = some m) (hlead : Leading n up c.term w)
    (hcall : (w.proc n).replicates[r]? = some c) (hlock : c.workers[k]? = some .lock) :
    Can C.step ordinary (fun v => Group C up v ∧ Leading n up c.term v
      ∧ ((v.proc n).replicates[r]? = some { c with workers := c.workers.set k (.done true) }
        ∨ (v.proc n).replicates[r]? = some c
          ∧ (v.proc n).node.nextIndex m < (w.proc n).node.nextIndex m)) w := by
  have hr := LeaderLog.lt_length_of_getElem? hcall
  have hlt := LeaderLog.lt_length_of_getElem? hlock
  refine (can_exchange h hn hm hne hk hlead hcall hlock).bind ?_
  rintro v - ⟨hgroup, args, reply, hex⟩
  set worker := Worker.awaiting w.net.appendCalls.length args with hworker
  set c' := { c with workers := c.workers.set k worker } with hc'
  have hpeer : (v.proc n).node.peers[k]? = some m := by rw [hgroup.peers, hk]
  have hcall' : (v.proc n).replicates[r]? = some c' := by
    rw [hex.sender]
    exact List.getElem?_set_self hr
  have hwait : c'.workers[k]? = some worker := List.getElem?_set_self hlt
  refine can_move hgroup hn (l := .replicateReply r k w.net.appendAnswers.length) (by simp)
    (by simp only [Proc.step, Proc.replicateReply, hcall', hpeer, hex.answer, hwait, hworker,
          if_true]; rfl)
    fun hgroup' => .now ⟨hgroup', ?_, ?_⟩
  · have hnode : (v.proc n).node = (w.proc n).node := by
      rw [hex.sender]
      rfl
    have hcore := (v.proc n).digestReplicate_core r c' k m reply
    rw [hnode] at hcore
    refine hlead.keeps (by rw [World.commit_self, hcore]) fun x hx hxn => ?_
    rw [own_commit _ _ _ _ x hxn]
    by_cases hxm : x = m
    · rw [hxm, hex.receiver]
    · rw [hex.others x hxn hxm]
      exact hlead.terms x hx
  · have hr' := LeaderLog.lt_length_of_getElem? hcall'
    have hterm : reply.term = c'.term := hex.term
    rw [World.commit_self]
    cases hsuccess : reply.success with
    | true =>
        left
        rw [Proc.digestReplicate_accepted hr' hterm hsuccess]
        simp [hc']
    | false =>
        have hnext : 1 < (v.proc n).node.nextIndex m := by
          rw [hex.sender]
          exact hex.refused hsuccess
        obtain ⟨hreplicates, hlower⟩ := Proc.digestReplicate_refused hr' hterm hsuccess hnext
        right
        refine ⟨?_, ?_⟩
        · rw [hreplicates]
          simp [hc', set_eq_self hlock]
        · rw [hlower, hex.sender]
          have := hex.refused hsuccess
          simp only [Proc.setWorker]
          omega

/-- The loop of `replicateToPeer` ends with a success. -/
theorem can_ack (h : Group C up w) (hn : n ∈ up) (hm : m ∈ up) (hne : m ≠ n)
    (hk : (C.peers n)[k]? = some m) (hlead : Leading n up c.term w)
    (hcall : (w.proc n).replicates[r]? = some c) (hlock : c.workers[k]? = some .lock) :
    Can C.step ordinary (fun v => Group C up v ∧ Leading n up c.term v
      ∧ (v.proc n).replicates[r]?
        = some { c with workers := c.workers.set k (.done true) }) w := by
  refine Can.descend (P := fun v => Group C up v ∧ Leading n up c.term v
    ∧ (v.proc n).replicates[r]? = some c) (fun v => (v.proc n).node.nextIndex m) ?_
    ⟨h, hlead, hcall⟩
  rintro v ⟨hgroup, hlead', hcall'⟩
  refine (can_round hgroup hn hm hne hk hlead' hcall' hlock).imp ?_
  rintro u - ⟨hgroup', hlead'', hdone | ⟨hagain, hlt⟩⟩
  · exact .inl ⟨hgroup', hlead'', hdone⟩
  · exact .inr ⟨⟨hgroup', hlead'', hagain⟩, hlt⟩

end Round

/-- A call of `Replicate` waits, and none of the members in `left` has been
sent anything for it. -/
structure Gathering (C : Cluster) (n : String) (up left : List String) (r : Nat) (v : World)
    (c : ReplicateCall) : Prop where
  leading : Leading n up c.term v
  call : (v.proc n).replicates[r]? = some c
  loc : c.loc = .waiting
  locked : ∀ (k : Nat) m, (C.peers n)[k]? = some m → m ∈ left → c.workers[k]? = some .lock
  short : c.acks < C.members.length / 2 + 1
  enough : C.members.length / 2 + 1 ≤ c.acks + left.length

theorem Proc.countAck_true (p : Proc) (c : ReplicateCall) (k : Nat) :
    (p.countAck c k true).loc = if p.node.majority ≤ c.acks + 1 then .commit
      else if (c.workers.set k (.received true)).all Worker.isReceived then .returned .timedOut
      else .waiting := by
  simp [Proc.countAck]

section Gather

variable {left : List String} {r : Nat} {c : ReplicateCall}

theorem Gathering.locked_set {m : String} (hgather : Gathering C n up (m :: left) r w c)
    (hleft : m ∉ left) {k : Nat} (hk : (C.peers n)[k]? = some m) {x y : Worker} {j : Nat}
    {peer : String} (hj : (C.peers n)[j]? = some peer) (hpeer : peer ∈ left) :
    ((c.workers.set k x).set k y)[j]? = some .lock := by
  have hjk : k ≠ j := by
    rintro rfl
    rw [Option.some.inj (hk.symm.trans hj)] at hleft
    exact hleft hpeer
  rw [List.set_set, List.getElem?_set_ne hjk]
  exact hgather.locked j peer hj (List.mem_cons_of_mem _ hpeer)

/-- Without a majority yet, somebody is left, so `Replicate` waits on. -/
theorem Gathering.waits {m : String} (hgather : Gathering C n up (m :: left) r w c)
    (hleft : m ∉ left) {k : Nat} (hk : (C.peers n)[k]? = some m)
    (hpeers : ∀ x ∈ left, ∃ j : Nat, (C.peers n)[j]? = some x)
    (hshort : c.acks + 1 < C.members.length / 2 + 1) (x y : Worker) :
    ¬ ((c.workers.set k x).set k y).all Worker.isReceived = true := by
  intro hall
  have henough := hgather.enough
  rw [List.length_cons] at henough
  obtain ⟨peer, hpeer⟩ := List.exists_mem_of_length_pos (show 0 < left.length by omega)
  obtain ⟨j, hj⟩ := hpeers peer hpeer
  have hlocked : ((c.workers.set k x).set k y)[j]? = some .lock :=
    hgather.locked_set hleft hk hj hpeer
  simpa [Worker.isReceived] using List.all_eq_true.mp hall _ (List.mem_of_getElem? hlocked)

/-- The next member is sent the entries it lacks, and its ack is counted. -/
theorem can_gather_one {m : String} (h : Group C up w) (hn : n ∈ up) (hm : m ∈ up)
    (hne : m ≠ n) (hleft : m ∉ left)
    (hpeers : ∀ x ∈ left, ∃ j : Nat, (C.peers n)[j]? = some x)
    (hgather : Gathering C n up (m :: left) r w c) :
    Can C.step ordinary (fun v => Group C up v ∧ ∃ c', c'.entry = c.entry
      ∧ (v.proc n).replicates[r]? = some c'
      ∧ (c'.loc = .commit ∨ Gathering C n up left r v c')) w := by
  obtain ⟨k, hk⟩ := h.peer hn hm hne
  have hlock := hgather.locked k m hk (List.mem_cons_self ..)
  refine (can_ack h hn hm hne hk hgather.leading hgather.call hlock).bind ?_
  rintro v - ⟨hgroup, hlead, hcall⟩
  have hdone : (c.workers.set k (.done true))[k]? = some (.done true) :=
    List.getElem?_set_self (LeaderLog.lt_length_of_getElem? hlock)
  refine can_move hgroup hn (l := .receiveAck r k) (by simp)
    (by simp only [Proc.step, Proc.receiveAck, hcall, hgather.loc, hdone]; rfl)
    fun hgroup' => ?_
  have hloc := (v.proc n).countAck_true { c with workers := c.workers.set k (.done true) } k
  rw [hgroup.majority hn] at hloc
  set c' := (v.proc n).countAck { c with workers := c.workers.set k (.done true) } k true with hc'
  set u := v.commit n _ _ with hu
  have hcall' : (u.proc n).replicates[r]? = some c' := by
    rw [hu, World.commit_self]
    exact List.getElem?_set_self (LeaderLog.lt_length_of_getElem? hcall)
  refine .now ⟨hgroup', c', rfl, hcall', ?_⟩
  by_cases hwon : C.members.length / 2 + 1 ≤ c.acks + 1
  · exact .inl (by rw [hloc, if_pos hwon])
  · have hshort := Nat.lt_of_not_le hwon
    rw [if_neg hwon, if_neg (hgather.waits hleft hk hpeers hshort _ _)] at hloc
    refine .inr ⟨?_, hcall', hloc, fun j y => hgather.locked_set hleft hk, hshort, ?_⟩
    · refine hlead.keeps (by rw [hu, World.commit_self]) fun y hy hyn => ?_
      rw [hu, own_commit _ _ _ _ y hyn]
      exact hlead.terms y hy
    · have henough := hgather.enough
      have hacks : c'.acks = c.acks + 1 := by simp [hc', Proc.countAck]
      rw [List.length_cons] at henough
      omega

theorem can_gather (h : Group C up w) (hn : n ∈ up) (hsub : left ⊆ up) (hnodup : left.Nodup)
    (hnot : n ∉ left) (hgather : Gathering C n up left r w c) :
    Can C.step ordinary (fun v => Group C up v ∧ ∃ c', c'.entry = c.entry
      ∧ (v.proc n).replicates[r]? = some c' ∧ c'.loc = .commit) w := by
  induction left generalizing w c with
  | nil =>
      have hshort := hgather.short
      have henough := hgather.enough
      simp only [List.length_nil] at henough
      omega
  | cons m left ih =>
      obtain ⟨hm, hsub'⟩ := List.cons_subset.mp hsub
      obtain ⟨hleft, hnodup'⟩ := List.nodup_cons.mp hnodup
      obtain ⟨hnm, hnleft⟩ := List.ne_and_not_mem_of_not_mem_cons hnot
      have hpeers : ∀ x ∈ left, ∃ j : Nat, (C.peers n)[j]? = some x := fun x hx =>
        h.peer hn (hsub' hx) fun heq => hnleft (heq ▸ hx)
      refine (can_gather_one h hn hm (Ne.symm hnm) hleft hpeers hgather).bind ?_
      rintro v - ⟨hgroup, c', hentry, hcall, hcommit | hgather'⟩
      · exact .now ⟨hgroup, c', hentry, hcall, hcommit⟩
      · rw [← hentry]
        exact ih hgroup hsub' hnodup' hnleft hgather'

/-- `Replicate` comes from its majority to its return. -/
theorem can_return (h : Group C up w) (hn : n ∈ up)
    (hcall : (w.proc n).replicates[r]? = some c) (hcommit : c.loc = .commit) :
    Can C.step ordinary (fun v =>
      (v.proc n).replicates[r]? = some { c with loc := .returned .ok }) w := by
  have hr := LeaderLog.lt_length_of_getElem? hcall
  refine can_move h hn (l := .replicateCommit r) (by simp)
    (by simp only [Proc.step, Proc.replicateCommit, hcall, hcommit, if_true]; rfl)
    fun hgroup => ?_
  set a := (w.proc n).appliers.length with ha
  set v := w.commit n _ _ with hv
  have hcall₁ : (v.proc n).replicates[r]? = some { c with loc := .applying a } := by
    rw [hv, World.commit_self]
    exact List.getElem?_set_self hr
  have happlier : a < (v.proc n).appliers.length := by
    rw [hv, World.commit_self]
    simp [Proc.startApply, ha]
  refine (can_finish (hgroup.live hn) happlier).bind ?_
  rintro u hr' ⟨-, hfrozen, -, hdone⟩
  have hcall₂ : (u.proc n).replicates[r]? = some { c with loc := .applying a } := by
    have hsame : (u.proc n).frozen.replicates = (v.proc n).frozen.replicates := by rw [hfrozen]
    rw [show (u.proc n).replicates = (v.proc n).replicates from hsame]
    exact hcall₁
  refine can_move (hgroup.after hr') hn (l := .replicateReturn r) (by simp)
    (by simp only [Proc.step, Proc.replicateReturn, hcall₂, hdone, if_true]; rfl)
    fun _ => .now ?_
  rw [World.commit_self]
  exact List.getElem?_set_self (LeaderLog.lt_length_of_getElem? hcall₂)

end Gather

/-- A call of `Replicate` for the command that was made after `w` has
returned nil on `n`. -/
def Acknowledges (w : World) (command : Command) (n : String) (v : World) : Prop :=
  ∃ (r : Nat) (c : ReplicateCall), (w.proc n).replicates.length ≤ r
    ∧ (v.proc n).replicates[r]? = some c ∧ c.entry.command = command
    ∧ c.loc = .returned .ok

/-- A leader whose term nobody exceeds. -/
theorem can_replicate (hmaj : Majority C up) (h : Group C up w) (hn : n ∈ up) {term : Nat}
    (hlead : Leading n up term w) (command : Command) :
    Can C.step ordinary (Acknowledges w command n) w := by
  have hpeers := hmaj.peers (h.up n hn).member
  refine can_move h hn (l := .replicate command) (by simp)
    (by simp only [Proc.step, Proc.replicate, if_pos hlead.state]; rfl) fun hgroup => ?_
  set r := (w.proc n).replicates.length with hr
  set c := (w.proc n).openCall command with hc
  set v := w.commit n _ _ with hv
  have hgather : Gathering C n up (up.erase n) r v c := by
    refine ⟨⟨?_, ?_, ?_⟩, ?_, ?_, ?_, ?_, hmaj.erase hn⟩
    · rw [hv, World.commit_self]
      exact hlead.state
    · rw [hv, World.commit_self]
      rfl
    · intro m hm
      rw [show c.term = term from hlead.current]
      by_cases hmn : m = n
      · rw [hmn, hv, World.commit_self]
        exact hlead.current.le
      · rw [hv, own_commit _ _ _ _ m hmn]
        exact hlead.terms m hm
    · rw [hv, World.commit_self]
      simp [hr]
    · simp [hc, Proc.openCall, h.peers, hpeers]
    · intro k m hk _
      simp only [hc, Proc.openCall, h.peers, List.getElem?_map, hk]
      rfl
    · have hmore := hmaj.size
      show 1 < _
      omega
  refine (can_gather hgroup hn (List.erase_subset ..) (hmaj.nodup.erase n)
    hmaj.nodup.not_mem_erase hgather).bind ?_
  rintro v₁ - ⟨hgroup₁, c₁, hentry, hcall, hcommit⟩
  refine (can_return hgroup₁ hn hcall hcommit).imp fun v₂ _ hreturned => ?_
  exact ⟨r, _, Nat.le_refl _, hreturned, by rw [hentry]; rfl, rfl⟩

/-! ## Choosing the leader -/

/-- What `HandleRequestVote` compares. -/
def Node.recency (n : Node) : Nat ×ₗ Nat :=
  toLex (n.log.lastIndexAndTerm.2, n.log.lastIndexAndTerm.1)

theorem Node.logOK_of_recency {n m : Node} {args : RequestVoteArgs}
    (hargs : args.lastLogTerm = m.log.lastIndexAndTerm.2
      ∧ args.lastLogIndex = m.log.lastIndexAndTerm.1) (h : n.recency ≤ m.recency) :
    n.logOK args = true := by
  rw [Node.recency, Node.recency, Prod.Lex.toLex_le_toLex] at h
  simp only [Node.logOK, hargs.1, hargs.2, Bool.or_eq_true, Bool.and_eq_true, decide_eq_true_eq]
  exact h.imp_right fun hsame => ⟨hsame.1.symm, hsame.2⟩

theorem exists_greatest {α : Type*} [LinearOrder α] (f : String → α) (hne : up ≠ []) :
    ∃ n ∈ up, ∀ m ∈ up, f m ≤ f n := by
  have hne' : up.toFinset.Nonempty := List.toFinset_nonempty_iff up |>.mpr hne
  obtain ⟨n, hn, hmax⟩ := Finset.exists_max_image up.toFinset f hne'
  exact ⟨n, List.mem_toFinset.mp hn, fun m hm => hmax m (List.mem_toFinset.mpr hm)⟩

/-- The member with the most recent log can win an election. -/
theorem can_elect (hmaj : Majority C up) (h : Group C up w) (hn : n ∈ up)
    (hstate : (w.proc n).node.state ≠ .leader) (hcalm : Calm w n)
    (hbest : ∀ m ∈ up, (w.proc m).node.recency ≤ (w.proc n).node.recency) :
    Can C.step ordinary (fun v => Group C up v ∧ ∃ term, Leading n up term v) w := by
  obtain ⟨x, hx, hmax⟩ := exists_greatest (fun m => (w.proc m).node.currentTerm)
    (List.ne_nil_of_mem hn)
  refine (can_raise (w.proc x).node.currentTerm (h.live hn) hstate hcalm).bind ?_
  rintro v₁ hr₁ ⟨hstand, hbound⟩
  refine (can_campaign hmaj (h.after hr₁) hn hstand.run).bind ?_
  rintro v₂ - ⟨hgroup, c, hcamp⟩
  have hother : ∀ m, m ≠ n → v₂.proc m = w.proc m := fun m hm =>
    (hcamp.own m hm).trans (hstand.own m hm)
  have hterm : c.args.term = (v₁.proc n).node.currentTerm + 1 := by
    rw [hcamp.args]
    rfl
  have hcurrent : (v₂.proc n).node.currentTerm = c.args.term := by
    rw [hcamp.node, hterm]
    rfl
  have hlower : ∀ m ∈ up, m ≠ n → (v₂.proc m).node.currentTerm < c.args.term := by
    intro m hm hmn
    rw [hother m hmn, hterm]
    exact Nat.lt_succ_of_le (Nat.le_trans (hmax m hm) hbound)
  have hpoll : Polling C n up (up.erase n) v₂ c := by
    refine ⟨hcamp.run, ?_, hcurrent, hcamp.calls, fun k peer hk _ => hcamp.waiting k peer hk,
      ?_, ?_, ?_, ?_⟩
    · rw [hcamp.node]
      exact hstand.state
    · intro m hm
      obtain ⟨hmn, hm'⟩ := (hmaj.nodup.mem_erase_iff).mp hm
      refine ⟨hlower m hm' hmn, ?_⟩
      rw [hother m hmn]
      refine Node.logOK_of_recency ?_ (hbest m hm')
      rw [hcamp.args, ← hstand.log]
      exact ⟨rfl, rfl⟩
    · intro m hm
      by_cases hmn : m = n
      · rw [hmn, hcurrent]
      · exact (hlower m hm hmn).le
    · have hsize := hmaj.size
      rw [hcamp.votes]
      omega
    · rw [hcamp.votes]
      exact hmaj.erase hn
  refine (can_win hgroup hn (List.erase_subset ..) (hmaj.nodup.erase n)
    hmaj.nodup.not_mem_erase hpoll).bind ?_
  rintro v₃ - ⟨hgroup₃, hwin⟩
  exact (can_take hgroup₃ hn hwin).imp fun v₄ _ ⟨hgroup₄, hlead⟩ => ⟨hgroup₄, _, hlead⟩

/-- Some member comes to lead in a term that nobody exceeds. -/
theorem can_lead (hmaj : Majority C up) (h : Group C up w) :
    Can C.step ordinary (fun v => Group C up v ∧ ∃ n ∈ up, ∃ term, Leading n up term v) w := by
  have hne : up ≠ [] := by
    rintro rfl
    have hmore := hmaj.more
    simp at hmore
  refine (can_calm h).bind ?_
  rintro v₁ - ⟨hgroup, hcalm⟩
  obtain ⟨m, hm, hmax⟩ := exists_greatest (fun m => (v₁.proc m).node.currentTerm) hne
  by_cases hleads : (v₁.proc m).node.state = .leader
  · exact .now ⟨hgroup, m, hm, _, hleads, rfl, hmax⟩
  obtain ⟨n, hn, hbest⟩ := exists_greatest (fun n => (v₁.proc n).node.recency) hne
  have hdeposed : Can C.step ordinary (fun v => Group C up v
      ∧ (v.proc n).node.state ≠ .leader ∧ (v.proc n).run = (v₁.proc n).run
      ∧ ∀ x, (v.proc x).node.log = (v₁.proc x).node.log) v₁ := by
    by_cases hstate : (v₁.proc n).node.state = .leader
    · have hnm : n ≠ m := fun heq => hleads (heq ▸ hstate)
      exact can_depose hmaj hgroup hm hn hnm hleads (hcalm m hm)
    · exact .now ⟨hgroup, hstate, rfl, fun _ => rfl⟩
  refine hdeposed.bind ?_
  rintro v₂ - ⟨hgroup₂, hstate₂, hrun₂, hlogs₂⟩
  have hcalm₂ : Calm v₂ n := fun term => hrun₂ ▸ hcalm n hn term
  have hbest₂ : ∀ x ∈ up, (v₂.proc x).node.recency ≤ (v₂.proc n).node.recency := by
    intro x hx
    simp only [Node.recency, hlogs₂]
    exact hbest x hx
  exact (can_elect hmaj hgroup₂ hn hstate₂ hcalm₂ hbest₂).imp
    fun v₃ _ ⟨hgroup₃, hlead⟩ => ⟨hgroup₃, n, hn, hlead⟩

theorem calledBy_after {call : String × Nat} {e : LogEntry} (h : w.CalledBy call e)
    (hr : Reachable C.step ordinary w v) : v.CalledBy call e := by
  refine hr.invariant (P := fun v => v.CalledBy call e) h ?_
  exact fun _ _ _ _ hc hok hstep => hc.step hok.noRestart hstep

theorem replicates_length_le (hr : Reachable C.step ordinary w v) (n : String) :
    (w.proc n).replicates.length ≤ (v.proc n).replicates.length := by
  cases hlen : (w.proc n).replicates.length with
  | zero => exact Nat.zero_le _
  | succ r =>
      have hlast := List.getElem?_eq_getElem (show r < (w.proc n).replicates.length by omega)
      have hcalled : w.CalledBy (n, r) _ := ⟨_, hlast, rfl⟩
      obtain ⟨c, hc, -⟩ := calledBy_after hcalled hr
      exact LeaderLog.lt_length_of_getElem? hc

end Group

/-- Wherever a run without restarts has led: if a majority of the members is
up, then there is a way on in which one of them acknowledges the command. -/
theorem majority_can_replicate {C : Cluster} {up : List String} {w : World}
    (hmaj : Majority C up) (h : Reachable C.step noRestart C.init w)
    (hup : ∀ n ∈ up, Up C w n) (command : Command) :
    Can C.step ordinary (fun v => ∃ n ∈ up, Acknowledges w command n v) w := by
  refine (can_lead hmaj ⟨h, hup⟩).bind ?_
  rintro v hr ⟨hgroup, n, hn, term, hlead⟩
  refine (can_replicate hmaj hgroup hn hlead command).imp ?_
  rintro u - ⟨r, c, hnew, hc⟩
  exact ⟨n, hn, r, c, Nat.le_trans (replicates_length_le hr n) hnew, hc⟩

/-- `a` has won the election and crashed, and nobody has heard of it. -/
theorem majority_can_replicate_b_c :
    ∃ w, Reachable threeNodes.step noRestart threeNodes.init w
      ∧ (w.proc "a").node.state = .leader ∧ (w.proc "a").down = true
      ∧ Can threeNodes.step ordinary
        (fun v => ∃ n ∈ ["b", "c"], Acknowledges w [7] n v) w := by
  obtain ⟨w, hr, hstate, hdown, hb, hc⟩ : ∃ w,
      Reachable threeNodes.step noRestart threeNodes.init w
      ∧ (w.proc "a").node.state = .leader ∧ (w.proc "a").down = true
      ∧ ((w.proc "b").down = false ∧ (w.proc "b").stopped = false)
      ∧ (w.proc "c").down = false ∧ (w.proc "c").stopped = false :=
    Reachable.of_exec_any (electRun ++ [.crash "a"]) (by decide +kernel)
  refine ⟨w, hr, hstate, hdown,
    majority_can_replicate ⟨by decide, by decide, by decide⟩ hr ?_ [7]⟩
  simp only [List.forall_mem_cons, List.not_mem_nil, false_implies, implies_true, and_true]
  exact ⟨⟨by decide, hb.1, hb.2⟩, by decide, hc.1, hc.2⟩

end RaftStore
