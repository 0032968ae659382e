import RaftStore.Peers
import RaftStore.Quorums

/-!
# Whose replies are counted

The quorum code has a slot for each element of the list of peers and takes
each positive reply for one more node. Whatever the list, `SlotInv` is what
it counts: one for the node itself and one for each slot with a positive
reply, and never more than a majority, since both loops end there.

A call to a peer is answered by the node that listens at the address which
the transport has for it, so the replies come from different other nodes
only if those that listen are different and not this one. That is exactly
when they do (`countsOthers_iff`), with one exception: with one or two
peers a single reply makes the majority, so that no two are ever counted.

`parsed_peers_are_other_nodes` says this of `RAFT_PEERS`. If the node
itself is in the list, it elects itself with its own two votes; if another
is there twice among three, it is a majority with this one alone
(`own_vote_counted_twice`).
-/

namespace RaftStore

open Runs Quorum Text LastWrite

/-! ## What one step counts -/

section Step

variable {net : Net} {p p' : Proc} {l : Local} {out : Output}

theorem Proc.countVote_counting {c c' : Candidacy} {k term : Nat} {granted : Bool}
    (h : (p.countVote c k granted term).run = .counting c') :
    c' = c.count k granted ∧ (granted = true → c'.votes < p.node.majority) := by
  rw [countVote] at h
  dsimp only at h
  split at h
  · cases h
  · split at h
    · cases h
    · rename_i hfew
      split at h
      · cases h
      · cases h
        refine ⟨rfl, ?_⟩
        rintro rfl
        simpa using hfew

theorem Proc.countVote_becomeLeader {c : Candidacy} {k term term' : Nat} {granted : Bool}
    (h : (p.countVote c k granted term).run = .becomeLeader term') :
    granted = true ∧ p.node.majority ≤ (c.count k true).votes := by
  rw [countVote] at h
  dsimp only at h
  split at h
  · cases h
  · split at h
    · rename_i hwon
      rw [Bool.and_eq_true, decide_eq_true_eq] at hwon
      obtain ⟨rfl, hmajority⟩ := hwon
      exact ⟨rfl, hmajority⟩
    · split at h <;> cases h

/-- Where a state of `loopCandidate`'s loop comes from. -/
theorem Proc.Move.polls (h : p.Move net l p' out) {c' : Candidacy}
    (hrun' : p'.run = .counting c') :
    p.run = .counting c'
      ∨ (p.node.peers ≠ [] ∧ c'.votes = 1
        ∧ c'.ballots = p.node.peers.map fun _ => .waiting)
      ∨ ∃ c k granted, p.run = .counting c ∧ c.ballots[k]? = some .waiting
        ∧ c' = c.count k granted
        ∧ (granted = true → (∃ j, l = .voteReply k j) ∧ c'.votes < p.node.majority) := by
  cases h with
  | load =>
      dsimp only at hrun'
      split at hrun' <;> cases hrun'
  | campaign =>
      dsimp only at hrun'
      split at hrun'
      · cases hrun'
      · cases hrun'
        exact .inr (.inl ⟨‹_›, rfl, rfl⟩)
  | voteReply hrun hwait =>
      obtain ⟨rfl, hvotes⟩ := countVote_counting hrun'
      exact .inr (.inr ⟨_, _, _, hrun, hwait, rfl, fun hg => ⟨⟨_, rfl⟩, hvotes hg⟩⟩)
  | voteError hrun hwait =>
      obtain ⟨rfl, -⟩ := countVote_counting hrun'
      exact .inr (.inr ⟨_, _, _, hrun, hwait, rfl, nofun⟩)
  | tick =>
      dsimp only at hrun'
      split at hrun' <;> cases hrun'
  | heartbeatReply =>
      obtain ⟨ws', hws'⟩ := Proc.digestHeartbeat_waits ..
      cases hws'.symm.trans hrun'
  | replicateReply => exact .inl ((p.digestReplicate_run ..) ▸ hrun')
  | replicate | replicateStale | replicateSend | replicateError | receiveAck | giveUp
    | replicateCommit | replicateReturn | collect | send | applyLoop | stop | abandon =>
      exact .inl hrun'
  | _ => cases hrun'

/-- The way to `becomeLeader` is a vote that makes a majority. -/
theorem Proc.Move.wins (h : p.Move net l p' out) {term : Nat}
    (hrun' : p'.run = .becomeLeader term) :
    p.run = .becomeLeader term
      ∨ ∃ k j c, l = .voteReply k j ∧ p.run = .counting c
        ∧ c.ballots[k]? = some .waiting ∧ p.node.majority ≤ (c.count k true).votes := by
  cases h with
  | load | campaign | tick =>
      dsimp only at hrun'
      split at hrun' <;> cases hrun'
  | voteReply hrun hwait =>
      obtain ⟨-, hmajority⟩ := countVote_becomeLeader hrun'
      exact .inr ⟨_, _, _, rfl, hrun, hwait, hmajority⟩
  | voteError => cases (countVote_becomeLeader hrun').1
  | heartbeatReply =>
      obtain ⟨ws', hws'⟩ := Proc.digestHeartbeat_waits ..
      cases hws'.symm.trans hrun'
  | replicateReply => exact .inl ((p.digestReplicate_run ..) ▸ hrun')
  | replicate | replicateStale | replicateSend | replicateError | receiveAck | giveUp
    | replicateCommit | replicateReturn | collect | send | applyLoop | stop | abandon =>
      exact .inl hrun'
  | _ => cases hrun'

/-- What `replicateToPeer` does with a reply to goroutine `k`. -/
theorem Proc.digestReplicate_replicates (p : Proc) (r : Nat) (c : ReplicateCall) (k : Nat)
    (peer : String) (reply : AppendEntriesReply) :
    ∃ wk, (p.digestReplicate r c k peer reply).replicates
      = p.replicates.set r { c with workers := c.workers.set k wk } := by
  unfold digestReplicate
  split
  · exact ⟨_, signalStepDown_replicates ..⟩
  · split
    · exact ⟨_, rfl⟩
    · split <;> exact ⟨_, rfl⟩

/-- Goroutine `k` of call `r` has a success to post. -/
def HasAck (calls : List ReplicateCall) (r k : Nat) : Prop :=
  ∃ c wk, calls[r]? = some c ∧ c.workers[k]? = some wk ∧ wk.isAck = true

/-- One call is replaced by another, which has no success that it had not. -/
theorem HasAck.of_set {calls : List ReplicateCall} {r₀ r k : Nat} {c x : ReplicateCall}
    (h : HasAck (calls.set r₀ x) r k) (hcall : calls[r₀]? = some c)
    (hx : r₀ = r → ∀ wk, x.workers[k]? = some wk → wk.isAck = true →
      ∃ old, c.workers[k]? = some old ∧ old.isAck = true) : HasAck calls r k := by
  obtain ⟨c', wk, hcall', hwk, hack⟩ := h
  by_cases hr : r₀ = r
  · subst hr
    rw [List.getElem?_set_self (List.getElem?_eq_some_iff.mp hcall).1] at hcall'
    cases hcall'
    obtain ⟨old, hold, hisAck⟩ := hx rfl wk hwk hack
    exact ⟨c, old, hcall, hold, hisAck⟩
  · rw [List.getElem?_set_ne hr] at hcall'
    exact ⟨c', wk, hcall', hwk, hack⟩

/-- One goroutine of a call moves, and has no success that it had not. -/
theorem HasAck.of_worker {calls : List ReplicateCall} {r₀ r k₀ k : Nat} {c x : ReplicateCall}
    {new : Worker} (h : HasAck (calls.set r₀ x) r k) (hcall : calls[r₀]? = some c)
    (hx : x.workers = c.workers.set k₀ new)
    (hnew : r₀ = r → k₀ = k → new.isAck = true →
      ∃ old, c.workers[k]? = some old ∧ old.isAck = true) : HasAck calls r k := by
  refine h.of_set hcall fun hr wk hwk hack => ?_
  rw [hx] at hwk
  by_cases hk : k₀ = k
  · subst hk
    have hlt : k₀ < c.workers.length := by
      simpa using (List.getElem?_eq_some_iff.mp hwk).1
    rw [List.getElem?_set_self hlt] at hwk
    cases hwk
    exact hnew hr rfl hack
  · rw [List.getElem?_set_ne hk] at hwk
    exact ⟨wk, hwk, hack⟩

/-- The goroutines of a new call have nothing to post. -/
theorem HasAck.of_append {calls : List ReplicateCall} {r k : Nat} {c : ReplicateCall}
    (h : HasAck (calls ++ [c]) r k) (hc : ∀ wk ∈ c.workers, wk.isAck = false) :
    HasAck calls r k := by
  obtain ⟨c', wk, hcall, hwk, hack⟩ := h
  rcases Nat.lt_or_ge r calls.length with hlt | hge
  · rw [List.getElem?_append_left hlt] at hcall
    exact ⟨c', wk, hcall, hwk, hack⟩
  · rw [List.getElem?_append_right hge, List.getElem?_singleton] at hcall
    split at hcall <;> cases hcall
    cases (hc wk (List.mem_of_getElem? hwk)).symm.trans hack

/-- A goroutine has a success to post only from a reply to it. -/
theorem Proc.Move.posted (h : p.Move net l p' out) {r k : Nat}
    (hack : HasAck p'.replicates r k) :
    (∃ j, l = .replicateReply r k j) ∨ HasAck p.replicates r k := by
  cases h with
  | replicate =>
      refine .inr (hack.of_append ?_)
      intro wk hwk
      obtain ⟨_, -, rfl⟩ := List.mem_map.mp hwk
      rfl
  | replicateStale hcall | replicateError hcall =>
      exact .inr (hack.of_worker hcall rfl fun _ _ hnew => by cases hnew)
  | replicateSend hcall =>
      exact .inr (hack.of_worker hcall rfl fun _ _ hnew => by cases hnew)
  | @replicateReply r₀ k₀ j _ c peer _ reply hcall =>
      obtain ⟨wk, hcalls⟩ := p.digestReplicate_replicates r₀ c k₀ peer reply
      rw [hcalls] at hack
      by_cases hsame : r₀ = r ∧ k₀ = k
      · obtain ⟨rfl, rfl⟩ := hsame
        exact .inl ⟨j, rfl⟩
      · exact .inr (hack.of_worker hcall rfl fun hr hk => absurd ⟨hr, hk⟩ hsame)
  | receiveAck hcall _ hdone =>
      refine .inr (hack.of_worker hcall rfl fun _ hk hnew => ?_)
      subst hk
      exact ⟨_, hdone, hnew⟩
  | giveUp _ _ hcall _ hc' | replicateCommit hcall _ hc' | replicateReturn hcall _ _ hc' =>
      subst hc'
      exact .inr (hack.of_set hcall fun _ wk hwk hisAck => ⟨wk, hwk, hisAck⟩)
  | heartbeatReply =>
      rw [digestHeartbeat_replicates] at hack
      exact .inr hack
  | _ => exact .inr hack

end Step

/-! ## What the quorum code counts -/

/-- The slot of the peer whose reply a step takes. -/
def NodeAction.replySlot : NodeAction → Option Nat
  | .own _ (.voteReply k _) => some k
  | .own _ (.heartbeatReply k _) => some k
  | .own _ (.replicateReply _ k _) => some k
  | _ => none

/-- Replies come only in the slots that are heard. -/
def OnlyHeard (heard : Nat → Bool) (_ : Proc) (a : NodeAction) : Prop :=
  a.replySlot.all heard = true

instance (heard : Nat → Bool) (p : Proc) (a : NodeAction) : Decidable (OnlyHeard heard p a) :=
  inferInstanceAs (Decidable (_ = true))

theorem onlyHeard_all (p : Proc) (a : NodeAction) : OnlyHeard (fun _ => true) p a :=
  Option.all_true

/-- More than half of a node and its peers. -/
def quorumOf (peers : List String) : Nat := (peers.length + 1) / 2 + 1

/-- The state of `loopCandidate`'s loop. -/
structure PollTally (heard : Nat → Bool) (peers : List String) (c : Candidacy) : Prop where
  votes : Tally peers c.ballots Ballot.isVote c.votes
  heard : ∀ k : Nat, c.ballots[k]? = some (.counted true) → heard k = true
  below : c.votes < quorumOf peers

/-- A call of `Replicate`, and how many acknowledgements it has. -/
structure CallTally (peers : List String) (c : ReplicateCall) : Prop where
  acks : Tally peers c.workers Worker.isCounted c.acks
  below : c.loc = .waiting → c.acks < quorumOf peers
  atMost : c.acks ≤ quorumOf peers
  decided : c.loc.decided = true → quorumOf peers ≤ c.acks

/-- Both loops count one for the node itself and one for each slot with a
positive reply, up to a majority. -/
structure SlotInv (heard : Nat → Bool) (peers : List String) (p : Proc) : Prop where
  node : p.node.peers = peers
  polls : ∀ c, p.run = .counting c → PollTally heard peers c
  calls : ∀ c ∈ p.replicates, CallTally peers c
  acked : ∀ (r k : Nat) c wk, p.replicates[r]? = some c → c.workers[k]? = some wk →
    wk.isAck = true → heard k = true

theorem PollTally.count {heard : Nat → Bool} {peers : List String} {c : Candidacy}
    (h : PollTally heard peers c) {k : Nat} (hwait : c.ballots[k]? = some .waiting)
    {granted : Bool} (hheard : granted = true → heard k = true) :
    Tally peers (c.count k granted).ballots Ballot.isVote (c.count k granted).votes
      ∧ (∀ j : Nat, (c.count k granted).ballots[j]? = some (.counted true) → heard j = true)
      ∧ (c.count k granted).votes ≤ quorumOf peers := by
  have hbelow := h.below
  refine ⟨Candidacy.tally_count h.votes hwait granted, ?_, ?_⟩
  · intro j hj
    by_cases hk : k = j
    · subst hk
      have hlt := (List.getElem?_eq_some_iff.mp hwait).1
      have hg : granted = true := by
        simpa [Candidacy.count, List.getElem?_set_self hlt] using hj
      exact hheard hg
    · refine h.heard j ?_
      simpa [Candidacy.count, List.getElem?_set_ne hk] using hj
  · show (if granted then c.votes + 1 else c.votes) ≤ _
    split <;> omega

section Invariant

variable {heard : Nat → Bool} {peers : List String} {p p' : Proc} {net : Net} {out : Output}

theorem SlotInv.majority (h : SlotInv heard peers p) : p.node.majority = quorumOf peers := by
  rw [Node.majority, h.node, quorumOf]

theorem SlotInv.polls_move (h : SlotInv heard peers p) {l : Local}
    (hmove : p.Move net l p' out) (hheard : OnlyHeard heard p (.own net l)) {c' : Candidacy}
    (hc' : p'.run = .counting c') : PollTally heard peers c' := by
  rcases hmove.polls hc' with hold | ⟨hpeers, hvotes, hballots⟩
    | ⟨c, k, granted, hrun, hwait, rfl, hgranted⟩
  · exact h.polls c' hold
  · rw [h.node] at hpeers hballots
    refine ⟨?_, ?_, ?_⟩
    · rw [hvotes, hballots]
      exact .start peers rfl
    · intro k hk
      rw [hballots] at hk
      obtain ⟨_, -, hwaiting⟩ := List.mem_map.mp (List.mem_of_getElem? hk)
      cases hwaiting
    · have := List.length_pos_of_ne_nil hpeers
      rw [hvotes, quorumOf]
      omega
  · have hheard : granted = true → heard k = true := by
      intro hg
      obtain ⟨⟨j, rfl⟩, -⟩ := hgranted hg
      exact hheard
    obtain ⟨htally, hheard', -⟩ := (h.polls c hrun).count hwait hheard
    refine ⟨htally, hheard', ?_⟩
    cases granted with
    | false => exact (h.polls c hrun).below
    | true => exact h.majority ▸ (hgranted rfl).2

/-- A goroutine of the call moves, short of being counted. -/
theorem CallTally.worker {c : ReplicateCall} (h : CallTally peers c) {k : Nat} {wk : Worker}
    (hbusy : c.workers[k]?.any Worker.isBusy = true) (hwk : WorkerMove net p out c k wk) :
    CallTally peers { c with workers := c.workers.set k wk } := by
  obtain ⟨old, hold, hcounted⟩ := Worker.not_counted_of_busy hbusy
  have hset := h.acks.set hold hcounted wk
  refine ⟨?_, h.below, h.atMost, h.decided⟩
  cases hwk <;> exact hset

theorem CallTally.countAck {c : ReplicateCall} (h : CallTally peers c)
    (hmaj : p.node.majority = quorumOf peers) (hloc : c.loc = .waiting) {k : Nat} {ok : Bool}
    (hworker : c.workers[k]? = some (.done ok)) : CallTally peers (p.countAck c k ok) := by
  have hset := h.acks.set hworker rfl (.received ok)
  have hbelow := h.below hloc
  constructor
  · cases ok <;> exact hset
  · intro hwaiting
    cases ok with
    | false => exact hbelow
    | true =>
        show c.acks + 1 < quorumOf peers
        by_contra hmany
        have hcommit : (p.countAck c k true).loc = .commit :=
          if_pos (by simpa [hmaj] using Nat.not_lt.mp hmany)
        cases hcommit.symm.trans hwaiting
  · show (if ok then c.acks + 1 else c.acks) ≤ _
    split <;> omega
  · intro hdecided
    obtain ⟨rfl, hle⟩ := countAck_decided hdecided
    exact hmaj ▸ hle

theorem CallTally.opened (hpeers : p.node.peers = peers) (command : Command) :
    CallTally peers (p.openCall command) := by
  have hone : (p.openCall command).acks = 1 := rfl
  refine ⟨hpeers ▸ p.openCall_tally command, ?_, ?_, ?_⟩
  · intro hwaiting
    have hne : peers ≠ [] := by
      rintro rfl
      have hover : (p.openCall command).loc = .returned .timedOut := if_pos hpeers
      cases hover.symm.trans hwaiting
    have := List.length_pos_of_ne_nil hne
    rw [hone, quorumOf]
    omega
  · rw [hone, quorumOf]
    omega
  · intro hdecided
    cases hdecided.symm.trans (p.openCall_undecided command)

theorem SlotInv.calls_move (h : SlotInv heard peers p) (hmove : CallMove net p p' out) :
    ∀ c ∈ p'.replicates, CallTally peers c := by
  -- one call is replaced by another
  have hset : ∀ {r : Nat} {c' : ReplicateCall}, CallTally peers c' →
      ∀ c ∈ p.replicates.set r c', CallTally peers c := by
    intro r c' hc' c hc
    rcases List.mem_or_eq_of_mem_set hc with hc | rfl
    · exact h.calls c hc
    · exact hc'
  have hold : ∀ {r : Nat} {c : ReplicateCall}, p.replicates[r]? = some c → CallTally peers c :=
    fun hcall => h.calls _ (List.mem_of_getElem? hcall)
  cases hmove with
  | same hcalls => exact hcalls ▸ h.calls
  | opened _ _ hcalls =>
      rw [hcalls]
      intro c hc
      rcases List.mem_append.mp hc with hc | hc
      · exact h.calls c hc
      · rw [List.mem_singleton.mp hc]
        exact .opened h.node _
  | worker hcall hbusy hwk hcalls => exact hcalls ▸ hset ((hold hcall).worker hbusy hwk)
  | ack hcall hloc hworker hcalls =>
      exact hcalls ▸ hset ((hold hcall).countAck h.majority hloc hworker)
  | @gaveUp _ _ result hcall _ hresult hcalls =>
      rw [hcalls]
      refine hset ⟨(hold hcall).acks, nofun, (hold hcall).atMost, ?_⟩
      cases result with
      | ok => exact absurd rfl hresult
      | timedOut | stopped => exact nofun
  | committed hcall hloc hcalls | returned hcall hloc _ hcalls =>
      rw [hcalls]
      exact hset ⟨(hold hcall).acks, nofun, (hold hcall).atMost,
        fun _ => (hold hcall).decided (by rw [hloc]; rfl)⟩

theorem SlotInv.acts (h : SlotInv heard peers p) {a : NodeAction}
    (hheard : OnlyHeard heard p a) (hacts : p.Acts a p') : SlotInv heard peers p' := by
  have hnode : p'.node.peers = peers := hacts.peers.trans h.node
  cases hacts with
  | @own _ l _ _ hmove =>
      refine ⟨hnode, fun c hc => h.polls_move hmove hheard hc, h.calls_move (call_move hmove),
        ?_⟩
      intro r k c' wk' hcall' hwk' hack
      rcases hmove.posted ⟨c', wk', hcall', hwk', hack⟩ with ⟨j, rfl⟩ | ⟨c, wk, hcall, hwk, hisAck⟩
      · exact hheard
      · exact h.acked r k c wk hcall hwk hisAck
  | voted => exact ⟨hnode, h.polls, h.calls, h.acked⟩
  | @appended _ _ _ apply => cases apply <;> exact ⟨hnode, h.polls, h.calls, h.acked⟩

theorem slotInv_reachable {id : String} {applyCh : Bool}
    (h : Reachable Proc.act (OnlyHeard heard) (newProc id peers applyCh) p) :
    SlotInv heard peers p := by
  refine h.invariant ⟨rfl, nofun, nofun, nofun⟩ ?_
  rintro p a p' - hinv hheard hact
  exact hinv.acts hheard (Proc.acts hact)

end Invariant

/-! ## Replies of other nodes -/

/-- Who answers the calls to a peer: the node that listens at the address
which the transport has for it. Without an address there is no call. -/
def answeredBy (addrs : PeerMap) (listens : Bytes → Option Bytes) (peer : Bytes) :
    Option Bytes :=
  (addrs peer).bind listens

/-- The slots whose peer is answered for by anyone. -/
def heardSlots (answers : Bytes → Option Bytes) (ids : List Bytes) (k : Nat) : Bool :=
  ids[k]?.all fun id => (answers id).isSome

/-- The replies in the slots that count come from different nodes, none of
them this one, and with the node's own they make the count. -/
def FromOthers {β : Type} (answers : Bytes → Option Bytes) (nodeID : Bytes) (ids : List Bytes)
    (slots : List β) (f : β → Bool) (count : Nat) : Prop :=
  ∃ voters : List Bytes, (chosen ids slots f).map answers = voters.map some
    ∧ voters.Nodup ∧ nodeID ∉ voters ∧ count = 1 + voters.length

/-- Every reply that is counted towards a majority is of a different other
node: while `loopCandidate` counts, in the step with which it has enough
votes, and in every call of `Replicate`. -/
structure CountsOthers (answers : Bytes → Option Bytes) (nodeID : Bytes) (ids : List Bytes)
    (p : Proc) : Prop where
  votes : ∀ c, p.run = .counting c →
    FromOthers answers nodeID ids c.ballots Ballot.isVote c.votes
  wins : ∀ a p' term, OnlyHeard (heardSlots answers ids) p a → p.act a = some p' →
    p'.run = .becomeLeader term →
    p.run = .becomeLeader term ∨ ∃ net k j c, a = .own net (.voteReply k j)
      ∧ p.run = .counting c ∧ c.ballots[k]? = some .waiting
      ∧ p.node.majority ≤ (c.count k true).votes
      ∧ FromOthers answers nodeID ids (c.count k true).ballots Ballot.isVote
        (c.count k true).votes
  acks : ∀ c ∈ p.replicates,
    FromOthers answers nodeID ids c.workers Worker.isCounted c.acks
      ∧ (c.loc.decided = true → p.node.majority ≤ c.acks)

/-- Those who answer are different and not this node. Of one or two peers
only one reply is ever counted, so there they need not be different. -/
structure OthersAnswer (answering : List Bytes) (nodeID : Bytes) (peers : Nat) : Prop where
  other : nodeID ∉ answering
  different : 2 < peers → answering.Nodup

section Answers

variable {β : Type} {answers : Bytes → Option Bytes} {nodeID : Bytes} {ids : List Bytes}
  {slots : List β} {f : β → Bool} {count : Nat}

theorem map_eq_map_some {l : List Bytes} (h : ∀ id ∈ l, (answers id).isSome = true) :
    l.map answers = (l.filterMap answers).map some := by
  induction l with
  | nil => rfl
  | cons id l ih =>
      obtain ⟨hid, hl⟩ := List.forall_mem_cons.mp h
      obtain ⟨node, hnode⟩ := Option.isSome_iff_exists.mp hid
      rw [List.map_cons, List.filterMap_cons_some hnode, List.map_cons, hnode, ih hl]

theorem FromOthers.of_tally (h : OthersAnswer (ids.filterMap answers) nodeID ids.length)
    (htally : Tally (ids.map latin1) slots f count)
    (hheard : ∀ (k : Nat) b, slots[k]? = some b → f b = true →
      heardSlots answers ids k = true)
    (hmost : count ≤ quorumOf (ids.map latin1)) :
    FromOthers answers nodeID ids slots f count := by
  have hlen : slots.length = ids.length := htally.length.trans (List.length_map ..)
  have hsub : ((chosen ids slots f).filterMap answers).Sublist (ids.filterMap answers) :=
    (chosen_sublist f hlen).filterMap answers
  have hsome : ∀ id ∈ chosen ids slots f, (answers id).isSome = true := by
    intro id hid
    obtain ⟨k, b, hk, hb, hf⟩ := mem_chosen hid
    have hslot := hheard k b hb hf
    rwa [heardSlots, hk] at hslot
  have hmap : (chosen ids slots f).map answers
      = ((chosen ids slots f).filterMap answers).map some := map_eq_map_some hsome
  have hcount : count = 1 + ((chosen ids slots f).filterMap answers).length := by
    have hlength := congrArg List.length hmap
    rw [List.length_map, List.length_map, length_chosen hlen] at hlength
    rw [← hlength]
    exact htally.count
  refine ⟨_, hmap, ?_, fun hmem => h.other (hsub.subset hmem), hcount⟩
  by_cases hmany : 2 < ids.length
  · exact hsub.nodup (h.different hmany)
  · have hone : ((chosen ids slots f).filterMap answers).length ≤ 1 := by
      rw [quorumOf, List.length_map] at hmost
      omega
    rw [List.nodup_iff_getElem?_ne_getElem?]
    intro i j hij hj
    omega

/-- If one node answers for all the slots that count, it is counted once,
and not at all if it is this one. -/
theorem FromOthers.one_answer (h : FromOthers answers nodeID ids slots f count) {x : Bytes}
    (hx : ∀ (k : Nat) id b, ids[k]? = some id → slots[k]? = some b → f b = true →
      answers id = some x) : count ≤ 2 ∧ (x = nodeID → count ≤ 1) := by
  obtain ⟨voters, hmap, hnodup, hother, hcount⟩ := h
  have hall : ∀ v ∈ voters, v = x := by
    intro v hv
    have hsome : some v ∈ (chosen ids slots f).map answers :=
      hmap ▸ List.mem_map_of_mem hv
    obtain ⟨id, hid, hv'⟩ := List.mem_map.mp hsome
    obtain ⟨k, b, hk, hb, hf⟩ := mem_chosen hid
    exact Option.some.inj (hv'.symm.trans (hx k id b hk hb hf))
  cases voters with
  | nil =>
      have hone : count = 1 := hcount
      exact ⟨by omega, fun _ => hone.le⟩
  | cons v voters =>
      obtain rfl := hall v List.mem_cons_self
      refine ⟨?_, ?_⟩
      · cases voters with
        | nil => exact hcount.le
        | cons u voters =>
            obtain rfl := hall u (by simp)
            simp at hnodup
      · rintro rfl
        simp at hother

/-! ## When they are counted -/

theorem SlotInv.countsOthers {p : Proc}
    (h : OthersAnswer (ids.filterMap answers) nodeID ids.length)
    (hslots : SlotInv (heardSlots answers ids) (ids.map latin1) p) :
    CountsOthers answers nodeID ids p where
  votes c hc := by
    have hpoll := hslots.polls c hc
    refine .of_tally h hpoll.votes ?_ hpoll.below.le
    intro k b hb hvote
    obtain rfl := of_decide_eq_true hvote
    exact hpoll.heard k hb
  wins a p' term hheard hact hrun' := by
    cases Proc.acts hact with
    | own hmove =>
        rcases hmove.wins hrun' with hrun | ⟨k, j, c, rfl, hrun, hwait, hmajority⟩
        · exact .inl hrun
        · obtain ⟨htally, hheard, hmost⟩ :=
            (hslots.polls c hrun).count hwait fun _ : true = true => hheard
          refine .inr ⟨_, k, j, c, rfl, hrun, hwait, hmajority, .of_tally h htally ?_ hmost⟩
          intro i b hb hvote
          obtain rfl := of_decide_eq_true hvote
          exact hheard i hb
    | voted => exact .inl hrun'
    | appended =>
        rw [Proc.installed_run] at hrun'
        exact .inl hrun'
  acks c hc := by
    have hcall := hslots.calls c hc
    refine ⟨.of_tally h hcall.acks ?_ hcall.atMost, ?_⟩
    · intro k wk hwk hcounted
      obtain ⟨r, hr⟩ := List.mem_iff_getElem?.mp hc
      exact hslots.acked r k c wk hr hwk (Worker.isAck_of_isCounted hcounted)
    · rw [hslots.majority]
      exact hcall.decided

end Answers

/-- Up to the request for votes. -/
def campaignSteps : List NodeAction :=
  [.own silentNet .load, .own silentNet .timeout, .own silentNet .load,
    .own silentNet .campaign]

/-- The vote that a candidate asked the peer of slot `k` for. -/
def Candidacy.vote (c : Candidacy) (k : Nat) : NodeAction :=
  .own { silentNet with voteAnswers := [(c.firstCall + k, ⟨c.args.term, true⟩)] }
    (.voteReply k 0)

theorem Proc.act_vote {p : Proc} {c : Candidacy} {k : Nat} (hrun : p.run = .counting c)
    (hwait : c.ballots[k]? = some .waiting) :
    p.act (c.vote k) = some (p.countVote c k true c.args.term) := by
  simp [Proc.act, Proc.step, Proc.voteReply, hrun, hwait, Candidacy.vote]

theorem Candidacy.ballots_count {c : Candidacy} {k j : Nat} {b : Ballot}
    (h : (c.count k true).ballots[j]? = some b) : j = k ∨ c.ballots[j]? = some b := by
  by_cases hk : k = j
  · exact .inl hk.symm
  · exact .inr ((List.getElem?_set_ne hk).symm.trans h)

section Needed

variable {answers : Bytes → Option Bytes} {nodeID : Bytes} {ids : List Bytes} {p : Proc}
  {c : Candidacy} {k : Nat}

/-- All that the node can come to, with replies from those who answer. -/
abbrev CanReach (answers : Bytes → Option Bytes) (nodeID : Bytes) (ids : List Bytes)
    (p : Proc) : Prop :=
  Reachable Proc.act (OnlyHeard (heardSlots answers ids)) (startNode nodeID ids) p

/-- The node has asked for votes, and none is there yet. -/
structure Asking (ids : List Bytes) (p : Proc) (c : Candidacy) : Prop where
  run : p.run = .counting c
  votes : c.votes = 1
  ballots : c.ballots = ids.map fun _ => .waiting
  majority : p.node.majority = (ids.length + 1) / 2 + 1

theorem Asking.waiting (h : Asking ids p c) {j : Nat} (hj : j < ids.length) :
    c.ballots[j]? = some .waiting := by
  simp [h.ballots, hj]

theorem Asking.no_vote (h : Asking ids p c) {j : Nat} {b : Ballot}
    (hb : c.ballots[j]? = some b) : b.isVote = false := by
  rw [h.ballots] at hb
  obtain ⟨_, -, rfl⟩ := List.mem_map.mp (List.mem_of_getElem? hb)
  rfl

theorem exists_asking (hne : ids ≠ []) : ∃ p c, CanReach answers nodeID ids p ∧ Asking ids p c := by
  have hpeers : ids.map latin1 ≠ [] := mt List.map_eq_nil_iff.mp hne
  have htimeout : Run Proc.act (OnlyHeard (heardSlots answers ids)) (startNode nodeID ids) _ _ :=
    .step (a := .own silentNet .timeout) (.step (a := .own silentNet .load) .init rfl rfl) rfl rfl
  have hcampaign : Run Proc.act (OnlyHeard (heardSlots answers ids)) (startNode nodeID ids) _ _ :=
    .step (a := .own silentNet .campaign) (.step (a := .own silentNet .load) htimeout rfl rfl)
      rfl rfl
  refine ⟨_, _, hcampaign.reachable, if_neg hpeers, rfl, List.map_map .., ?_⟩
  rw [(slotInv_reachable hcampaign.reachable).majority, quorumOf, List.length_map]

theorem CanReach.vote (h : CanReach answers nodeID ids p) (hrun : p.run = .counting c)
    (hwait : c.ballots[k]? = some .waiting) (hheard : heardSlots answers ids k = true) :
    CanReach answers nodeID ids (p.countVote c k true c.args.term) := by
  obtain ⟨past, hr⟩ := h
  exact ⟨_, hr.step (a := c.vote k) hheard (Proc.act_vote hrun hwait)⟩

/-- A vote that is not yet enough, with another slot open. -/
theorem Proc.countVote_goes_on (hfew : ¬ p.node.majority ≤ (c.count k true).votes) {m : Nat}
    (hm : m ≠ k) (hopen : c.ballots[m]? = some .waiting) :
    (p.countVote c k true c.args.term).run = .counting (c.count k true) := by
  have hstill : (c.count k true).ballots[m]? = some .waiting :=
    (List.getElem?_set_ne (Ne.symm hm)).trans hopen
  have hnot : ¬ (c.count k true).ballots.all (· ≠ .waiting) = true := by
    intro hall
    simpa using List.all_eq_true.mp hall _ (List.mem_of_getElem? hstill)
  rw [countVote]
  dsimp only
  rw [if_neg (Nat.lt_irrefl _), if_neg (by simpa using hfew), if_neg hnot]

section Always

-- whatever the node does, it counts replies of different other nodes
variable (hall : ∀ q, CanReach answers nodeID ids q → CountsOthers answers nodeID ids q)
include hall

/-- So it is for the votes as they are counted, the last one included. -/
theorem votes_fromOthers (h : CanReach answers nodeID ids p) (hrun : p.run = .counting c)
    (hwait : c.ballots[k]? = some .waiting) (hheard : heardSlots answers ids k = true)
    (hopen : p.node.majority ≤ (c.count k true).votes
      ∨ ∃ m, m ≠ k ∧ c.ballots[m]? = some .waiting) :
    FromOthers answers nodeID ids (c.count k true).ballots Ballot.isVote
      (c.count k true).votes := by
  by_cases hmajority : p.node.majority ≤ (c.count k true).votes
  · have hwon : (p.countVote c k true c.args.term).run = .becomeLeader c.args.term := by
      simp [Proc.countVote, hmajority]
    rcases (hall p h).wins (c.vote k) _ _ hheard (Proc.act_vote hrun hwait) hwon
      with hrun' | ⟨_, _, _, _, heq, hrun', -, -, hfrom⟩
    · cases hrun.symm.trans hrun'
    · cases heq
      cases hrun.symm.trans hrun'
      exact hfrom
  · obtain ⟨m, hm, hother⟩ := hopen.resolve_left hmajority
    exact (hall _ (h.vote hrun hwait hheard)).votes _
      (Proc.countVote_goes_on hmajority hm hother)

/-- The node does not answer for a peer of its own, as its reply can be the
first to be counted. -/
theorem not_answered_by_itself {i : Nat} {id : Bytes} (hi : ids[i]? = some id) :
    answers id ≠ some nodeID := by
  intro hself
  have hlt := (List.getElem?_eq_some_iff.mp hi).1
  have hheard : heardSlots answers ids i = true := by simp [heardSlots, hi, hself]
  obtain ⟨p, c, hp, hasks⟩ : ∃ p c, CanReach answers nodeID ids p ∧ Asking ids p c :=
    exists_asking (List.ne_nil_of_length_pos (Nat.zero_lt_of_lt hlt))
  have hcount : (c.count i true).votes = 2 := congrArg (· + 1) hasks.votes
  have hopen : p.node.majority ≤ (c.count i true).votes
      ∨ ∃ m, m ≠ i ∧ c.ballots[m]? = some .waiting := by
    rw [hasks.majority, hcount]
    by_cases hmany : 2 < ids.length
    · refine .inr ⟨if i = 0 then 1 else 0, ?_, hasks.waiting ?_⟩ <;> split <;> omega
    · exact .inl (by omega)
  have hfrom := votes_fromOthers hall hp hasks.run (hasks.waiting hlt) hheard hopen
  have hone := hfrom.one_answer (x := nodeID) ?_
  · have := hone.2 rfl
    omega
  · intro k id' b hk hb hvote
    rcases Candidacy.ballots_count hb with rfl | hold
    · cases hi.symm.trans hk
      exact hself
    · cases hvote.symm.trans (hasks.no_vote hold)

/-- No node answers for two of three or more peers, as both of its replies
can be counted before there is a majority. -/
theorem not_answered_twice (hmany : 2 < ids.length) {i j : Nat} (hij : i ≠ j) {id id' x : Bytes}
    (hi : ids[i]? = some id) (hj : ids[j]? = some id') (hx : answers id = some x) :
    answers id' ≠ some x := by
  intro hx'
  have hlti := (List.getElem?_eq_some_iff.mp hi).1
  have hltj := (List.getElem?_eq_some_iff.mp hj).1
  have hheardi : heardSlots answers ids i = true := by simp [heardSlots, hi, hx]
  have hheardj : heardSlots answers ids j = true := by simp [heardSlots, hj, hx']
  obtain ⟨m, hm, hmi, hmj⟩ : ∃ m, m < ids.length ∧ m ≠ i ∧ m ≠ j := by
    by_cases h0 : 0 ≠ i ∧ 0 ≠ j
    · exact ⟨0, by omega, h0⟩
    · by_cases h1 : 1 ≠ i ∧ 1 ≠ j
      · exact ⟨1, by omega, h1⟩
      · exact ⟨2, by omega, by omega, by omega⟩
  obtain ⟨p, c, hp, hasks⟩ : ∃ p c, CanReach answers nodeID ids p ∧ Asking ids p c :=
    exists_asking (List.ne_nil_of_length_pos (Nat.zero_lt_of_lt hlti))
  -- the first of the two votes is not enough
  have hfew : ¬ p.node.majority ≤ (c.count i true).votes := by
    rw [hasks.majority, show (c.count i true).votes = 2 from congrArg (· + 1) hasks.votes]
    omega
  have hnext := Proc.countVote_goes_on hfew hmi (hasks.waiting hm)
  have hstill : ∀ {k : Nat}, k ≠ i → k < ids.length →
      (c.count i true).ballots[k]? = some .waiting := fun hk hlt =>
    (List.getElem?_set_ne (Ne.symm hk)).trans (hasks.waiting hlt)
  have hfrom := votes_fromOthers hall (hp.vote hasks.run (hasks.waiting hlti) hheardi) hnext
    (hstill (Ne.symm hij) hltj) hheardj (.inr ⟨m, hmj, hstill hmi hm⟩)
  have hone := (hfrom.one_answer (x := x) ?_).1
  · have hthree : ((c.count i true).count j true).votes = 3 := congrArg (· + 2) hasks.votes
    omega
  · intro k id₀ b hk hb hvote
    rcases Candidacy.ballots_count hb with rfl | hold
    · cases hj.symm.trans hk
      exact hx'
    · rcases Candidacy.ballots_count hold with rfl | hold
      · cases hi.symm.trans hk
        exact hx
      · cases hvote.symm.trans (hasks.no_vote hold)

end Always

/-- In all that a node can do it counts replies of different other nodes,
exactly if those who answer at the addresses of its peers are such. -/
theorem countsOthers_iff :
    (∀ p, CanReach answers nodeID ids p → CountsOthers answers nodeID ids p)
      ↔ OthersAnswer (ids.filterMap answers) nodeID ids.length := by
  refine ⟨fun hall => ⟨?_, ?_⟩, fun h p hp => (slotInv_reachable hp).countsOthers h⟩
  · intro hmem
    obtain ⟨id, hid, hself⟩ := List.mem_filterMap.mp hmem
    obtain ⟨i, hi⟩ := List.mem_iff_getElem?.mp hid
    exact not_answered_by_itself hall hi hself
  · intro hmany
    rw [List.Nodup, List.pairwise_filterMap, List.pairwise_iff_getElem]
    rintro i j hi hj hij x hx _ hx' rfl
    exact not_answered_twice hall hmany hij.ne (List.getElem?_eq_getElem hi)
      (List.getElem?_eq_getElem hj) hx hx'

end Needed

/-! ## `RAFT_PEERS` -/

/-- The nodes that listen at the addresses of the peers, entry by entry. -/
def listeners (listens : Bytes → Option Bytes) (raw : Bytes) : List Bytes :=
  (fields 44 raw).filterMap fun e => (addressOf raw (entryId e)).bind listens

theorem listeners_eq {quote : Bytes → String} {raw : Bytes} {ids : List Bytes} {addrs : PeerMap}
    (hparse : parsePeers quote raw = .ok (ids, addrs)) (listens : Bytes → Option Bytes) :
    ids.length = (fields 44 raw).length
      ∧ ids.filterMap (answeredBy addrs listens) = listeners listens raw := by
  obtain ⟨-, hout⟩ := parsePeers_eq_ok.mp hparse
  cases hout
  refine ⟨List.length_map .., ?_⟩
  rw [List.filterMap_map]
  refine List.filterMap_congr fun e _ => ?_
  show answeredBy _ listens (entryId e) = _
  rw [answeredBy, addrs_eq]
  rfl

/-- The ids are the keys of the map. They are different and not the node's
own exactly if those of the entries are, and the replies it counts are of
different other nodes exactly if those who listen at the addresses are. -/
theorem parsed_peers_are_other_nodes {quote : Bytes → String} {raw : Bytes} {ids : List Bytes}
    {addrs : PeerMap} (hparse : parsePeers quote raw = .ok (ids, addrs)) (nodeID : Bytes) :
    (∀ id, id ∈ ids ↔ (addrs id).isSome = true)
      ∧ (ids.Nodup ∧ nodeID ∉ ids ↔ DistinctPeers nodeID raw)
      ∧ ((startNode nodeID ids).node.peers.Nodup
          ∧ (startNode nodeID ids).node.id ∉ (startNode nodeID ids).node.peers
        ↔ DistinctPeers nodeID raw)
      ∧ ∀ listens, (∀ p, CanReach (answeredBy addrs listens) nodeID ids p →
            CountsOthers (answeredBy addrs listens) nodeID ids p)
        ↔ OthersAnswer (listeners listens raw) nodeID (fields 44 raw).length := by
  have hdistinct : ids.Nodup ∧ nodeID ∉ ids ↔ DistinctPeers nodeID raw :=
    distinctPeers_iff hparse
  refine ⟨?_, hdistinct, ?_, ?_⟩
  · obtain ⟨hsome, hout⟩ := parsePeers_eq_ok.mp hparse
    cases hout
    exact addrs_isSome hsome
  · rw [← hdistinct]
    exact and_congr (List.nodup_map_iff latin1_injective)
      (not_congr (List.mem_map_of_injective latin1_injective))
  · intro listens
    obtain ⟨hlen, hlisten⟩ := listeners_eq hparse listens
    rw [countsOthers_iff, hlen, hlisten]

def fourPeers : Bytes := utf8 "b@h:1, c@h:2, d@h:3, e@h:4"

/-- Who listens where; two of the four have changed places. -/
def fourListen (addr : Bytes) : Option Bytes :=
  [(utf8 "http://h:1", utf8 "c"), (utf8 "http://h:2", utf8 "b"), (utf8 "http://h:3", utf8 "d"),
    (utf8 "http://h:4", utf8 "e")].lookup addr

theorem parsed_peers_are_other_nodes_four :
    ∃ ids addrs p c, parsePeers (fun _ => "") fourPeers = .ok (ids, addrs)
      ∧ CanReach (answeredBy addrs fourListen) (utf8 "a") ids p
      ∧ p.run = .counting c ∧ c.votes = 2
      ∧ FromOthers (answeredBy addrs fourListen) (utf8 "a") ids c.ballots Ballot.isVote
        c.votes := by
  have hparse : parsePeers (fun _ => "") fourPeers = .ok (_, _) :=
    parsePeers_eq_ok.mpr ⟨by decide +kernel, rfl⟩
  obtain ⟨-, -, -, hcounts⟩ := parsed_peers_are_other_nodes hparse (utf8 "a")
  have hothers : OthersAnswer (listeners fourListen fourPeers) (utf8 "a")
      (fields 44 fourPeers).length := ⟨by decide +kernel, fun _ => by decide +kernel⟩
  have hvote : ∃ p, CanReach
      (answeredBy (run ((fields 44 fourPeers).map entryWrite) fun _ => none) fourListen)
      (utf8 "a") ((fields 44 fourPeers).map entryId) p
        ∧ p.run = .counting ⟨⟨1, "a", 0, 0⟩, 0, 2,
          [.counted true, .waiting, .waiting, .waiting]⟩ :=
    Reachable.of_exec_any (campaignSteps ++ [.own (grantNet 1) (.voteReply 0 0)])
      (by decide +kernel)
  obtain ⟨p, hreach, hrun⟩ := hvote
  exact ⟨_, _, p, _, hparse, hreach, hrun, rfl, ((hcounts _).mpr hothers p hreach).votes _ hrun⟩

/-- The request of a node `a` in its first election. -/
def ownRequest : RequestVoteArgs := ⟨1, "a", 0, 0⟩

/-- It answers the request, takes the reply, and has its majority. -/
def ownVoteSteps : List NodeAction :=
  [.requestVote ownRequest, .own (grantNet 1) (.voteReply 0 0), .own silentNet .becomeLeader]

/-- It takes the votes of its first two peers. -/
def twoVoteSteps : List NodeAction :=
  [.own { silentNet with voteAnswers := [(0, ⟨1, true⟩), (1, ⟨1, true⟩)] } (.voteReply 0 0),
    .own { silentNet with voteAnswers := [(0, ⟨1, true⟩), (1, ⟨1, true⟩)] } (.voteReply 1 1),
    .own silentNet .becomeLeader]

/-- The node `a` is accepted as its own peer. It grants its own request,
takes its own reply for the vote of another, and is leader. An id that is
there twice is accepted as well: `b` grants both requests, and of four
nodes two have made a leader. -/
theorem own_vote_counted_twice :
    (∃ addrs, ∀ quote, parsePeers quote (utf8 "a@h:1") = .ok ([utf8 "a"], addrs))
      ∧ (∃ p, Steps Proc.act anyAct (startNode (utf8 "a") [utf8 "a"]) campaignSteps p
        ∧ p.run = .counting ⟨ownRequest, 0, 1, [.waiting]⟩
        ∧ (p.node.handleRequestVote ownRequest).2 = ⟨1, true⟩
        ∧ ∃ q, Steps Proc.act anyAct p ownVoteSteps q ∧ q.node.state = .leader)
      ∧ (∃ addrs, ∀ quote, parsePeers quote (utf8 "b@h:1,b@h:1,c@h:2")
        = .ok ([utf8 "b", utf8 "b", utf8 "c"], addrs))
      ∧ (∃ p, Steps Proc.act anyAct (startNode (utf8 "a") [utf8 "b", utf8 "b", utf8 "c"])
          (campaignSteps ++ twoVoteSteps) p ∧ p.node.state = .leader)
      ∧ ((newNode "b" []).handleRequestVote ownRequest).2 = ⟨1, true⟩
      ∧ (((newNode "b" []).handleRequestVote ownRequest).1.handleRequestVote ownRequest).2
        = ⟨1, true⟩ := by
  have hparse : ∀ {raw : Bytes} {ids : List Bytes},
      (∀ e ∈ fields 44 raw, (entryAddr e).isSome = true) → (fields 44 raw).map entryId = ids →
        ∃ addrs, ∀ quote, parsePeers quote raw = .ok (ids, addrs) := by
    rintro raw _ hsome rfl
    exact ⟨_, fun quote => parsePeers_eq_ok.mpr ⟨hsome, rfl⟩⟩
  refine ⟨hparse (by decide +kernel) (by decide +kernel), ?_,
    hparse (by decide +kernel) (by decide +kernel),
    Steps.of_exec_any _ (by decide +kernel), by decide, by decide⟩
  have hrun : ∃ p, Steps Proc.act anyAct (startNode (utf8 "a") [utf8 "a"]) campaignSteps p
      ∧ p.run = .counting ⟨ownRequest, 0, 1, [.waiting]⟩
      ∧ (p.node.handleRequestVote ownRequest).2 = ⟨1, true⟩
      ∧ (exec Proc.act anyAct [] p ownVoteSteps).any
        (fun r => decide (r.2.node.state = .leader)) = true :=
    Steps.of_exec_any campaignSteps (by decide +kernel)
  obtain ⟨p, hsteps, hcounting, hreply, hleader⟩ := hrun
  exact ⟨p, hsteps, hcounting, hreply, Steps.of_exec_any ownVoteSteps hleader⟩

/-! ## Clusters as they are started -/

/-- At each address listens the node of the id it is given for. -/
def Serves (listens : Bytes → Option Bytes) (raw : Bytes) : Prop :=
  ∀ e ∈ fields 44 raw, (entryAddr e).bind listens = some (entryId e)

/-- The calls to a peer are answered by the node of its id. -/
theorem DistinctPeers.answers {quote : Bytes → String} {nodeID raw : Bytes} {ids : List Bytes}
    {addrs : PeerMap} (h : DistinctPeers nodeID raw)
    (hparse : parsePeers quote raw = .ok (ids, addrs)) {listens : Bytes → Option Bytes}
    (hserves : Serves listens raw) : ∀ id ∈ ids, answeredBy addrs listens id = some id := by
  obtain ⟨-, hout⟩ := parsePeers_eq_ok.mp hparse
  cases hout
  intro id hid
  obtain ⟨e, he, rfl⟩ := List.mem_map.mp hid
  rw [answeredBy, addrs_of_nodup h.nodup he]
  exact hserves e he

/-- In a run of the whole cluster, with crashes and restarts, every node
counts replies of different other nodes. -/
theorem Deployment.countsOthers (d : Deployment) {n : Bytes} (hn : n ∈ d.ids)
    {quote : Bytes → String} {ids : List Bytes} {addrs : PeerMap}
    (hparse : parsePeers quote (d.raw n) = .ok (ids, addrs)) {listens : Bytes → Option Bytes}
    (hserves : Serves listens (d.raw n)) {ok : World → Action → Prop} {w : World}
    (h : Reachable d.cluster.step ok d.cluster.init w) :
    ∃ p, CountsOthers (answeredBy addrs listens) n ids p
      ∧ ∃ down, w.proc (latin1 n) = { p with down := down } := by
  obtain ⟨hnodup, hother⟩ := (distinctPeers_iff hparse).mpr (d.distinctPeers hn)
  have hans := (d.distinctPeers hn).answers hparse hserves
  obtain ⟨p, hreach, -, hproc⟩ := Cluster.node_reachable h (latin1 n)
  rw [d.starts hn hparse] at hreach
  have hall : ids.filterMap (answeredBy addrs listens) = ids :=
    (List.filterMap_congr hans).trans List.filterMap_some
  have hothers : OthersAnswer (ids.filterMap (answeredBy addrs listens)) n ids.length := by
    rw [hall]
    exact ⟨hother, fun _ => hnodup⟩
  refine ⟨p, countsOthers_iff.mpr hothers p (hreach.mono fun _ a _ => ?_), hproc⟩
  -- everyone is there to answer
  cases hslot : a.replySlot with
  | none => rw [OnlyHeard, hslot]; rfl
  | some k =>
      rw [OnlyHeard, hslot]
      show heardSlots _ ids k = true
      rw [heardSlots]
      cases hk : ids[k]? with
      | none => rfl
      | some id => simp [hans id (List.mem_of_getElem? hk)]

end RaftStore
