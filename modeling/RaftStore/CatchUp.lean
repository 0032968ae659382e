import Mathlib.Logic.Function.Iterate
import RaftStore.Slices
import RaftStore.World

/-!
# Bringing a follower level

A leader and one peer on their own: no message is lost and no other step
of either node interleaves. `Node.replicateToPeer` is the retry loop of
`replicateToPeer`, `Node.heartbeatExchange` one round of
`sendHeartbeatToPeer`, both with the peer's handler as the transport; the
cluster's goroutines run the same sections (`digestReplicate_node`,
`digestHeartbeat_node`).

The loop always gets there (`replicateToPeer_levels`). Heartbeats do so
only if `nextIndex` points into the leader's log
(`heartbeats_level_iff`): beyond its end they are empty, and the reply to
an empty heartbeat is ignored.
-/

namespace RaftStore

/-! ## The two exchanges -/

namespace Node

/-- `replicateToPeer` from the reply to the end of the round: the leader,
and what the function returns unless it goes round again. -/
def replicateDigest (n : Node) (peer : String) (entry : LogEntry) (term : Nat)
    (reply : AppendEntriesReply) : Node × Option Bool :=
  if term < reply.term then (n, some false)
  else if reply.success then (n.replicateSuccess peer entry, some true)
  else if 1 < n.nextIndex peer then (n.lowerNext peer, none)
  else (n, some false)

end Node

/-- Both nodes after a call of `replicateToPeer`, the number of requests
it sent, and what it returned. -/
structure ReplicateEnd where
  leader : Node
  follower : Node
  requests : Nat
  result : Bool

/-- `replicateToPeer` against the peer's own handler; `none` if the loop
has not ended after `fuel` rounds. -/
def Node.replicateToPeer (peer : String) (entry : LogEntry)
    (term leaderCommit : Nat) : Nat → Node → Node → Option ReplicateEnd
  | 0, _, _ => none
  | fuel + 1, leader, follower =>
      if leader.currentTerm ≠ term ∨ leader.state ≠ .leader then
        some ⟨leader, follower, 0, false⟩
      else
        let out := follower.handleAppendEntries
          (leader.replicateArgs peer entry term leaderCommit)
        match leader.replicateDigest peer entry term out.2.1 with
        | (leader', some ok) => some ⟨leader', out.1, 1, ok⟩
        | (leader', none) =>
            (replicateToPeer peer entry term leaderCommit fuel leader' out.1).map
              fun r => { r with requests := r.requests + 1 }

namespace Node

/-- `sendHeartbeatToPeer` from the reply on. The `applyCommitted` that
follows a success only moves `lastApplied` and is not part of it. -/
def heartbeatDigest (n : Node) (peer : String) (args : AppendEntriesArgs)
    (reply : AppendEntriesReply) : Node :=
  if args.term < reply.term then n.countHeartbeat
  else if args.entries = [] then n.countHeartbeat
  else if reply.success then
    n.countHeartbeat.heartbeatSuccess peer
      (args.prevLogIndex + args.entries.length)
  else n.countHeartbeat.lowerNext peer

/-- One heartbeat of the first node and its handling by the second. -/
def heartbeatExchange (peer : String) (s : Node × Node) : Node × Node :=
  let out := s.2.handleAppendEntries (s.1.heartbeatArgs peer)
  (s.1.heartbeatDigest peer (s.1.heartbeatArgs peer) out.2.1, out.1)

end Node

/-- A worker of `Replicate` digests a reply as the loop above does. -/
theorem digestReplicate_node (p : Proc) (r : Nat) (c : ReplicateCall) (k : Nat)
    (peer : String) (reply : AppendEntriesReply) :
    (p.digestReplicate r c k peer reply).node
        = (p.node.replicateDigest peer c.entry c.term reply).1
      ∧ (p.digestReplicate r c k peer reply).replicates
        = (p.setWorker r c k
          (match (p.node.replicateDigest peer c.entry c.term reply).2 with
            | some ok => .done ok
            | none => .lock)).replicates := by
  unfold Proc.digestReplicate Node.replicateDigest
  split
  · unfold Proc.signalStepDown
    split <;> exact ⟨rfl, rfl⟩
  · split
    · exact ⟨rfl, rfl⟩
    · split <;> exact ⟨rfl, rfl⟩

theorem digestHeartbeat_node (p : Proc) (ws : List Heartbeat) (k : Nat)
    (peer : String) (args : AppendEntriesArgs) (reply : AppendEntriesReply) :
    (p.digestHeartbeat ws k peer args reply).node
      = p.node.heartbeatDigest peer args reply := by
  unfold Proc.digestHeartbeat Node.heartbeatDigest
  split
  · dsimp only [Proc.signalStepDown]
    split <;> rfl
  · split
    · rfl
    · split <;> rfl

/-! ## Requests as slices -/

section Requests

variable {n : Node} {peer : String}

theorem LogStore.Positional.prevTerm_entryAt {l : LogStore}
    (h : l.Positional) {i : Nat} (hi : i ≤ l.lastIndex) :
    (l.entryAt i).map LogEntry.term = some (l.prevTerm i) := by
  have hlen := h.length_eq
  rw [prevTerm]
  rcases Nat.eq_zero_or_pos i with rfl | hpos
  · rw [h.entryAt_eq, h.entries_eq]
    rfl
  · rw [if_pos hpos, h.entryAt_eq, List.getElem?_eq_getElem (by omega)]
    rfl

theorem replicateArgs_slice (h : n.log.Positional)
    (hnext : 1 ≤ n.nextIndex peer) (hin : n.nextIndex peer - 1 ≤ n.log.lastIndex)
    {entry : LogEntry} (hentry : entry.index ≤ n.log.lastIndex)
    (term leaderCommit : Nat) :
    (n.replicateArgs peer entry term leaderCommit).SliceOf n.log
      (n.nextIndex peer - 1) (entry.index + 1 - n.nextIndex peer) where
  within := by omega
  prevLogIndex := rfl
  prevLogTerm := h.prevTerm_entryAt hin
  entries := by
    show n.log.slice (n.nextIndex peer) entry.index = _
    rw [h.slice_eq hnext, h.entries_eq, List.drop_succ_cons]

theorem heartbeatArgs_slice (h : n.log.Positional)
    (hnext : 1 ≤ n.nextIndex peer) (hin : n.nextIndex peer ≤ n.log.lastIndex) :
    (n.heartbeatArgs peer).SliceOf n.log (n.nextIndex peer - 1)
      (n.log.lastIndex + 1 - n.nextIndex peer) := by
  have hargs : n.heartbeatArgs peer = _ := if_pos hin
  rw [hargs]
  refine ⟨by omega, rfl, h.prevTerm_entryAt (by omega), ?_⟩
  show n.log.entriesFrom (n.nextIndex peer) = _
  rw [h.entriesFrom_eq hnext, h.entries_eq, List.drop_succ_cons,
    List.take_of_length_le]
  rw [List.length_drop, h.lastIndex_eq]
  omega

/-- A heartbeat to a peer that is believed level. -/
theorem heartbeatArgs_empty (hout : n.log.lastIndex < n.nextIndex peer) :
    (n.heartbeatArgs peer).entries = [] := by
  have hargs : n.heartbeatArgs peer = _ := if_neg (Nat.not_le.mpr hout)
  rw [hargs]

end Requests

/-- The handler at a request that is not stale. -/
theorem Node.handleAppendEntries_current {n : Node} {args : AppendEntriesArgs}
    (hterm : n.currentTerm ≤ args.term) :
    (n.handleAppendEntries args).2.1.term = args.term
      ∧ (n.handleAppendEntries args).1.currentTerm = args.term
      ∧ (n.handleAppendEntries args).2.1.success = n.log.matchesPrev args
      ∧ (n.log.matchesPrev args = false →
        (n.handleAppendEntries args).1.log = n.log)
      ∧ (n.log.matchesPrev args = true →
        (n.handleAppendEntries args).1.log = n.log.installAll args.entries) := by
  have hout := n.handleAppendEntries_outcome args
  generalize n.handleAppendEntries args = out at hout
  cases hout with
  | stale hlt => omega
  | rejected hle hn' hprev =>
      obtain ⟨hcur, hlog, -⟩ := n.observeLeader_spec hterm
      subst hn'
      rw [hlog] at hprev
      rw [hprev]
      exact ⟨hcur, hcur, rfl, fun _ => hlog, (fun h => by cases h)⟩
  | accepted hle hn' hprev =>
      obtain ⟨hcur, hlog, -⟩ := n.observeLeader_spec hterm
      subst hn'
      rw [hlog] at hprev
      rw [hprev]
      refine ⟨hcur, hcur, rfl, (fun h => by cases h), ?_⟩
      intro _
      rw [← hlog]
      rfl

/-! ## The retry loop -/

/-- Represented, with terms of at least 1 behind the sentinel. -/
structure LogStore.Proper (l : LogStore) : Prop extends l.Represented where
  pos : ∀ e ∈ l.body, 1 ≤ e.term

/-- Where `replicateToPeer` starts, and where each of its rounds does. -/
structure ReplicateReady (leader follower : Node) (peer : String)
    (entry : LogEntry) (term : Nat) : Prop where
  leads : leader.currentTerm = term ∧ leader.state = .leader
  leaderLog : leader.log.Proper
  followerLog : follower.log.Proper
  matching : follower.log.Matches leader.log
  next : 1 ≤ leader.nextIndex peer
  entry : leader.log.entryAt entry.index = some entry
  term : follower.currentTerm ≤ term

namespace ReplicateReady

variable {leader follower : Node} {peer : String} {entry : LogEntry}
  {term : Nat}

theorem entry_le (h : ReplicateReady leader follower peer entry term) :
    entry.index ≤ leader.log.lastIndex := by
  have hpos := h.leaderLog.positional
  have hentry := h.entry
  rw [hpos.entryAt_eq] at hentry
  have := (List.getElem?_eq_some_iff.mp hentry).1
  have := hpos.length_eq
  omega

/-- Beyond the leader's log `PrevLogTerm` is 0, which no entry has. -/
theorem rejects_beyond (h : ReplicateReady leader follower peer entry term)
    (hout : leader.log.lastIndex < leader.nextIndex peer - 1)
    (leaderCommit : Nat) :
    follower.log.matchesPrev
      (leader.replicateArgs peer entry term leaderCommit) = false := by
  have hprev : leader.log.prevTerm (leader.nextIndex peer - 1) = 0 := by
    have := h.leaderLog.positional.length_eq
    rw [LogStore.prevTerm, h.leaderLog.positional.entryAt_eq,
      List.getElem?_eq_none (by omega), if_pos (by omega)]
  by_contra htrue
  rw [Bool.not_eq_false] at htrue
  rcases matchesPrev_spec h.followerLog.positional htrue with h0 | ⟨x, hx, -, ht⟩
  · have : leader.nextIndex peer - 1 = 0 := h0
    omega
  · have hpos := h.followerLog.pos x (List.mem_of_getElem? hx)
    have : x.term = leader.log.prevTerm (leader.nextIndex peer - 1) := ht
    omega

/-- A rejection lowers `nextIndex` and changes nothing else that counts. -/
theorem lower (h : ReplicateReady leader follower peer entry term)
    (hnext : 1 < leader.nextIndex peer) {follower' : Node}
    (hlog : follower'.log = follower.log) (hterm : follower'.currentTerm ≤ term) :
    ReplicateReady (leader.lowerNext peer) follower' peer entry term
      ∧ (leader.lowerNext peer).nextIndex peer = leader.nextIndex peer - 1
      ∧ (leader.lowerNext peer).log = leader.log
      ∧ (leader.lowerNext peer).matchIndex = leader.matchIndex := by
  unfold Node.lowerNext
  rw [if_pos hnext]
  have hlow : Function.update leader.nextIndex peer
      (leader.nextIndex peer - 1) peer = leader.nextIndex peer - 1 :=
    Function.update_self ..
  refine ⟨⟨h.leads, h.leaderLog, hlog ▸ h.followerLog, hlog ▸ h.matching,
    ?_, h.entry, hterm⟩, hlow, rfl, rfl⟩
  show 1 ≤ Function.update leader.nextIndex peer _ peer
  omega

/-- One round: the follower is level up to the entry, or it said no and
`nextIndex` has room to go down. -/
theorem round (h : ReplicateReady leader follower peer entry term)
    (leaderCommit : Nat) {out : Node × AppendEntriesReply × Bool}
    (hout : out = follower.handleAppendEntries
      (leader.replicateArgs peer entry term leaderCommit)) :
    out.2.1.term = term ∧ out.1.currentTerm = term
      ∧ ((out.2.1.success = true
          ∧ ∀ i, i ≤ entry.index → out.1.log.entryAt i = leader.log.entryAt i)
        ∨ (out.2.1.success = false ∧ 1 < leader.nextIndex peer
          ∧ out.1.log = follower.log)) := by
  have hnext := h.next
  have hentry := h.entry_le
  have hterm : follower.currentTerm
      ≤ (leader.replicateArgs peer entry term leaderCommit).term := h.term
  obtain ⟨hreply, hcur, hok, hno, hyes⟩ :=
    Node.handleAppendEntries_current hterm
  rw [← hout] at hreply hcur hok hno hyes
  refine ⟨hreply, hcur, ?_⟩
  cases hprev : follower.log.matchesPrev
      (leader.replicateArgs peer entry term leaderCommit) with
  | false =>
      refine .inr ⟨hok.trans hprev, ?_, hno hprev⟩
      -- with `PrevLogIndex = 0` the check passes
      by_contra hone
      have hzero : leader.nextIndex peer - 1 = 0 := by omega
      simp [LogStore.matchesPrev, Node.replicateArgs, hzero] at hprev
  | true =>
      refine .inl ⟨hok.trans hprev, ?_⟩
      have hin : leader.nextIndex peer - 1 ≤ leader.log.lastIndex := by
        by_contra hgt
        rw [h.rejects_beyond (by omega)] at hprev
        cases hprev
      have hslice := replicateArgs_slice h.leaderLog.positional hnext hin hentry
        term leaderCommit
      have htaken := sliceTaken_of_absorb h.leaderLog.toRepresented
        h.followerLog.toRepresented h.matching hslice hprev
        (h.followerLog.positional.installAll_slice h.leaderLog.positional
          h.matching hslice hprev)
      intro i hi
      rw [hyes hprev]
      exact htaken.agrees i (by omega)

end ReplicateReady

theorem replicateSuccess_spec (n : Node) (peer : String) (entry : LogEntry) :
    (n.replicateSuccess peer entry).nextIndex peer = entry.index + 1
      ∧ (n.replicateSuccess peer entry).matchIndex peer
        = max (n.matchIndex peer) entry.index := by
  unfold Node.replicateSuccess
  refine ⟨Function.update_self .., ?_⟩
  show (if _ then _ else _ : String → Nat) peer = _
  split
  · rw [Function.update_self]
    omega
  · omega

/-- The loop ends after at most `nextIndex[peer]` requests, whatever fuel
beyond that it is given, and it returns true: neither `return false` is
reached. -/
theorem replicateToPeer_levels {leader follower : Node} {peer : String}
    {entry : LogEntry} {term : Nat} (leaderCommit : Nat)
    (h : ReplicateReady leader follower peer entry term) :
    ∃ r : ReplicateEnd,
      (∀ fuel, leader.nextIndex peer ≤ fuel →
        Node.replicateToPeer peer entry term leaderCommit fuel leader follower
          = some r)
      ∧ r.requests ≤ leader.nextIndex peer
      ∧ r.result = true
      ∧ (∀ i, 1 ≤ i → i ≤ entry.index →
        r.follower.log.entryAt i = leader.log.entryAt i)
      ∧ r.leader.nextIndex peer = entry.index + 1
      ∧ r.leader.matchIndex peer = max (leader.matchIndex peer) entry.index := by
  -- each rejection lowers `nextIndex`, and at 1 there is none
  induction hn : leader.nextIndex peer generalizing leader follower with
  | zero =>
      have := h.next
      omega
  | succ next ih =>
      obtain ⟨hreply, hcur, hround⟩ := h.round leaderCommit rfl
      have hloop : ∀ fuel,
          Node.replicateToPeer peer entry term leaderCommit (fuel + 1) leader
            follower = _ := fun fuel => if_neg (by simp [h.leads])
      rcases hround with ⟨hok, hagree⟩ | ⟨hno, hlt, hlog⟩
      · refine ⟨⟨leader.replicateSuccess peer entry, _, 1, true⟩, ?_, by simp,
          rfl, fun i _ hi => hagree i hi, (replicateSuccess_spec ..).1,
          (replicateSuccess_spec ..).2⟩
        intro fuel hfuel
        obtain ⟨fuel, rfl⟩ := Nat.exists_eq_add_of_lt
          (Nat.lt_of_lt_of_le (Nat.zero_lt_succ next) hfuel)
        rw [Nat.zero_add, hloop]
        simp only [Node.replicateDigest, hreply, hok, Nat.lt_irrefl, if_false,
          if_true]
      · obtain ⟨hready, hnext', hlog', hmatch'⟩ :=
          h.lower hlt hlog (Nat.le_of_eq hcur)
        obtain ⟨r, hrun, hreq, hres, hagree, hrnext, hrmatch⟩ :=
          ih hready (by omega)
        refine ⟨{ r with requests := r.requests + 1 }, ?_,
          Nat.succ_le_succ hreq, hres, ?_, hrnext, hmatch' ▸ hrmatch⟩
        · intro fuel hfuel
          obtain ⟨fuel, rfl⟩ := Nat.exists_eq_add_of_lt
            (Nat.lt_of_lt_of_le (Nat.zero_lt_succ next) hfuel)
          rw [Nat.zero_add] at hfuel ⊢
          rw [hloop]
          simp only [Node.replicateDigest, hreply, hno, hlt, Nat.lt_irrefl,
            if_false, if_true, Bool.false_eq_true]
          rw [hrun fuel (by omega)]
          rfl
        · intro i hpos hi
          rw [← hlog']
          exact hagree i hpos hi

/-- Leader of term 2 with `senderLog`, and a `nextIndex` far off. -/
def farLeader : Node :=
  { newNode "a" ["b", "c"] with
    currentTerm := 2
    state := .leader
    log := senderLog
    nextIndex := fun _ => 9 }

theorem farLeader_ready :
    ReplicateReady farLeader partedFollower "b" ⟨2, 3, [99]⟩ 2 where
  leads := ⟨rfl, rfl⟩
  leaderLog := { senderLog_represented with pos := by decide }
  followerLog := { partedFollower_represented with pos := by decide }
  matching := by decide
  next := by decide
  entry := by decide
  term := by decide

theorem replicateToPeer_levels_b :
    ∃ r : ReplicateEnd,
      Node.replicateToPeer "b" ⟨2, 3, [99]⟩ 2 0 9 farLeader partedFollower
        = some r
      ∧ r.requests ≤ 9 ∧ r.result = true
      ∧ r.follower.log.entryAt 2 = senderLog.entryAt 2
      ∧ r.leader.nextIndex "b" = 4 ∧ r.leader.matchIndex "b" = 3 := by
  obtain ⟨r, hrun, hreq, hres, hagree, hnext, hmatch⟩ :=
    replicateToPeer_levels 0 farLeader_ready
  exact ⟨r, hrun 9 (by decide), hreq, hres, hagree 2 (by decide) (by decide),
    hnext, hmatch⟩

/-! ## Heartbeats -/

/-- The logs agree as far as the second one goes. -/
def LogStore.LevelWith (l l' : LogStore) : Prop :=
  ∀ i, i ≤ l'.lastIndex → l.entryAt i = l'.entryAt i

instance (l l' : LogStore) : Decidable (l.LevelWith l') :=
  inferInstanceAs (Decidable (∀ i, i ≤ l'.lastIndex → l.entryAt i = l'.entryAt i))

/-- What a sender of heartbeats and its peer have in common before and
after every exchange. -/
structure HeartbeatPair (leader follower : Node) (peer : String) : Prop where
  leaderLog : leader.log.Represented
  followerLog : follower.log.Represented
  matching : follower.log.Matches leader.log
  next : 1 ≤ leader.nextIndex peer
  term : follower.currentTerm ≤ leader.currentTerm

namespace HeartbeatPair

variable {leader follower : Node} {peer : String}

/-- The peer takes over the leader's term. -/
theorem exchange_term (h : HeartbeatPair leader follower peer) :
    (Node.heartbeatExchange peer (leader, follower)).2.currentTerm
      = leader.currentTerm := by
  have hargs := heartbeatArgs_term leader peer
  obtain ⟨-, hcur, -⟩ := Node.handleAppendEntries_current
    (h.term.trans (Nat.le_of_eq hargs.symm))
  exact hcur.trans hargs

/-- Beyond the leader's log nothing moves. -/
theorem exchange_empty (h : HeartbeatPair leader follower peer)
    (hout : leader.log.lastIndex < leader.nextIndex peer)
    {s : Node × Node} (hs : s = Node.heartbeatExchange peer (leader, follower)) :
    HeartbeatPair s.1 s.2 peer ∧ s.1.log = leader.log
      ∧ s.1.nextIndex = leader.nextIndex ∧ s.2.log = follower.log := by
  have hempty := heartbeatArgs_empty hout
  have hargs := heartbeatArgs_term leader peer
  obtain ⟨-, -, -, hno, hyes⟩ := Node.handleAppendEntries_current
    (h.term.trans (Nat.le_of_eq hargs.symm))
  have hlog : s.2.log = follower.log := by
    rw [hs]
    show (follower.handleAppendEntries (leader.heartbeatArgs peer)).1.log = _
    cases hprev : follower.log.matchesPrev (leader.heartbeatArgs peer) with
    | false => exact hno hprev
    | true =>
        rw [hyes hprev, hempty]
        rfl
  have hleader : s.1 = leader.countHeartbeat := by
    rw [hs]
    show leader.heartbeatDigest peer (leader.heartbeatArgs peer) _ = _
    rw [Node.heartbeatDigest, if_pos hempty, ite_self]
  have hterm : s.2.currentTerm = leader.currentTerm := hs ▸ h.exchange_term
  rw [hleader]
  exact ⟨⟨h.leaderLog, hlog ▸ h.followerLog, hlog ▸ h.matching, h.next,
    Nat.le_of_eq hterm⟩, rfl, rfl, hlog⟩

/-- Entries that pass the check level the peer. -/
theorem exchange_accepted (h : HeartbeatPair leader follower peer)
    (hin : leader.nextIndex peer ≤ leader.log.lastIndex)
    (hprev : follower.log.matchesPrev (leader.heartbeatArgs peer) = true) :
    (Node.heartbeatExchange peer (leader, follower)).2.log.LevelWith
      leader.log := by
  have hnext := h.next
  have hslice := heartbeatArgs_slice h.leaderLog.positional hnext hin
  have hargs := heartbeatArgs_term leader peer
  obtain ⟨-, -, -, -, hyes⟩ := Node.handleAppendEntries_current
    (h.term.trans (Nat.le_of_eq hargs.symm))
  have htaken := sliceTaken_of_absorb h.leaderLog h.followerLog h.matching
    hslice hprev (h.followerLog.positional.installAll_slice
      h.leaderLog.positional h.matching hslice hprev)
  intro i hi
  show (follower.handleAppendEntries (leader.heartbeatArgs peer)).1.log.entryAt i
    = _
  rw [hyes hprev]
  exact htaken.agrees i (by omega)

/-- Entries that do not pass it lower `nextIndex`. -/
theorem exchange_refused (h : HeartbeatPair leader follower peer)
    (hin : leader.nextIndex peer ≤ leader.log.lastIndex)
    (hprev : follower.log.matchesPrev (leader.heartbeatArgs peer) = false)
    {s : Node × Node} (hs : s = Node.heartbeatExchange peer (leader, follower)) :
    1 < leader.nextIndex peer
      ∧ s.1.nextIndex peer = leader.nextIndex peer - 1
      ∧ s.1.log = leader.log ∧ HeartbeatPair s.1 s.2 peer := by
  have hnext := h.next
  have hslice := heartbeatArgs_slice h.leaderLog.positional hnext hin
  have hargs := heartbeatArgs_term leader peer
  obtain ⟨hreply, -, hok, hno, -⟩ := Node.handleAppendEntries_current
    (h.term.trans (Nat.le_of_eq hargs.symm))
  have hlt : 1 < leader.nextIndex peer := by
    by_contra hone
    have hzero : (leader.heartbeatArgs peer).prevLogIndex = 0 := by
      rw [hslice.prevLogIndex]
      omega
    simp [LogStore.matchesPrev, hzero] at hprev
  have hentries : (leader.heartbeatArgs peer).entries ≠ [] := by
    intro hnil
    have := hslice.length h.leaderLog.positional
    rw [hnil, List.length_nil] at this
    omega
  have hleader : s.1 = { leader.countHeartbeat with
      nextIndex := Function.update leader.nextIndex peer
        (leader.nextIndex peer - 1) } := by
    rw [hs]
    show leader.heartbeatDigest peer (leader.heartbeatArgs peer) _ = _
    rw [Node.heartbeatDigest, hreply, if_neg (Nat.lt_irrefl _),
      if_neg hentries, hok, hprev]
    exact if_pos hlt
  have hlog : s.2.log = follower.log := by
    rw [hs]
    exact hno hprev
  have hterm : s.2.currentTerm = leader.currentTerm := hs ▸ h.exchange_term
  have hnext' : s.1.nextIndex peer = leader.nextIndex peer - 1 := by
    rw [hleader]
    exact Function.update_self ..
  have hlog' : s.1.log = leader.log := by rw [hleader]; rfl
  have hterm' : s.1.currentTerm = leader.currentTerm := by rw [hleader]; rfl
  exact ⟨hlt, hnext', hlog', hlog' ▸ h.leaderLog, hlog ▸ h.followerLog,
    hlog ▸ hlog' ▸ h.matching, by omega, by omega⟩

/-- From inside the leader's log at most `nextIndex` exchanges suffice. -/
theorem reaches (h : HeartbeatPair leader follower peer)
    (hin : leader.nextIndex peer ≤ leader.log.lastIndex) :
    ∃ m, m ≤ leader.nextIndex peer
      ∧ ((Node.heartbeatExchange peer)^[m] (leader, follower)).2.log.LevelWith
        leader.log := by
  induction hn : leader.nextIndex peer generalizing leader follower with
  | zero =>
      have := h.next
      omega
  | succ next ih =>
      cases hprev : follower.log.matchesPrev (leader.heartbeatArgs peer) with
      | true => exact ⟨1, by omega, h.exchange_accepted hin hprev⟩
      | false =>
          obtain ⟨hlt, hnext', hlog', hpair⟩ := h.exchange_refused hin hprev rfl
          obtain ⟨m, hm, hlevel⟩ := ih hpair
            (by rw [hlog', hnext']; omega) (by omega)
          refine ⟨m + 1, by omega, ?_⟩
          rw [Function.iterate_succ_apply, ← hlog']
          exact hlevel

/-- From beyond it the peer's log stays what it was. -/
theorem stuck (h : HeartbeatPair leader follower peer)
    (hout : leader.log.lastIndex < leader.nextIndex peer) (m : Nat) :
    ((Node.heartbeatExchange peer)^[m] (leader, follower)).2.log
      = follower.log := by
  induction m generalizing leader follower with
  | zero => rfl
  | succ m ih =>
      obtain ⟨hpair, hlog, hnext, hsame⟩ := h.exchange_empty hout rfl
      have hout' := hout
      rw [← hlog, ← hnext] at hout'
      rw [Function.iterate_succ_apply, ← hsame]
      exact ih hpair hout'

end HeartbeatPair

theorem heartbeats_level_iff {leader follower : Node} {peer : String}
    (h : HeartbeatPair leader follower peer) :
    (∃ m, m ≤ leader.log.lastIndex + 1
        ∧ ((Node.heartbeatExchange peer)^[m] (leader, follower)).2.log.LevelWith
          leader.log)
      ↔ leader.nextIndex peer ≤ leader.log.lastIndex
        ∨ follower.log.LevelWith leader.log := by
  constructor
  · rintro ⟨m, -, hlevel⟩
    rcases Nat.lt_or_ge leader.log.lastIndex (leader.nextIndex peer) with
      hout | hin
    · rw [h.stuck hout m] at hlevel
      exact .inr hlevel
    · exact .inl hin
  · rintro (hin | hlevel)
    · obtain ⟨m, hm, hlevel⟩ := h.reaches hin
      exact ⟨m, by omega, hlevel⟩
    · exact ⟨0, Nat.zero_le _, hlevel⟩

/-- A leader whose `nextIndex` for the peer is at its first entry. -/
def nearLeader : Node := { farLeader with nextIndex := fun _ => 2 }

theorem nearLeader_pair : HeartbeatPair nearLeader partedFollower "b" :=
  ⟨senderLog_represented, partedFollower_represented, by decide, by decide,
    by decide⟩

theorem heartbeats_level_iff_b :
    ∃ m, m ≤ nearLeader.log.lastIndex + 1
      ∧ ((Node.heartbeatExchange "b")^[m] (nearLeader, partedFollower)).2.log.LevelWith
        nearLeader.log :=
  (heartbeats_level_iff nearLeader_pair).mpr (.inl (by decide))

/-- A candidate with `senderLog` right after it won the election of
term 3. -/
def freshLeader : Node :=
  { newNode "a" ["b", "c"] with
    currentTerm := 3
    state := .candidate
    log := senderLog }.becomeLeader 3

/-- A restarted peer of a leader that has just been elected is sent empty
heartbeats only. -/
theorem heartbeats_leave_straggler :
    freshLeader.state = .leader
      ∧ freshLeader.nextIndex "b" = freshLeader.log.lastIndex + 1
      ∧ HeartbeatPair freshLeader (newNode "b" ["a", "c"]) "b"
      ∧ ¬ ∃ m, m ≤ freshLeader.log.lastIndex + 1
        ∧ ((Node.heartbeatExchange "b")^[m]
          (freshLeader, newNode "b" ["a", "c"])).2.log.LevelWith
            freshLeader.log := by
  have hpair : HeartbeatPair freshLeader (newNode "b" ["a", "c"]) "b" :=
    ⟨senderLog_represented, ⟨LogStore.positional_new, by decide⟩, by decide,
      by decide, by decide⟩
  refine ⟨by decide, by decide, hpair, ?_⟩
  rintro ⟨m, -, hlevel⟩
  rw [hpair.stuck (by decide)] at hlevel
  exact absurd hlevel (by decide)

end RaftStore
