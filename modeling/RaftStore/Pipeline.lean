import RaftStore.ApplyOrder
import RaftStore.Slices

/-!
# From the log to the apply loop

What the steps of one process do to the way an entry takes: the log grows
at its end only (`log_grows`), `commitIndex` rises within it
(`commit_move`), a call of `Replicate` that has committed its entry waits
for an `applyCommitted` that claims it (`settled_move`), and every index
that is claimed has its command in a call that is sending or in the
channel, from which only the loop takes it (`carry_move`).
-/

namespace RaftStore

/-! ## Log and commit index -/

variable {net : Net} {p p' : Proc} {a : Local} {out : Output}

/-- Only `Replicate` changes the log. -/
theorem log_move (h : p.Move net a p' out) :
    p'.node.log = p.node.log ∨ ∃ command, a = .replicate command
      ∧ p'.node.log = p.node.log.appendEntry (p.node.newEntry command) := by
  cases core_move h with
  | quiet hcore hvotes happends hevents => exact .inl (congrArg Core.log hcore)
  | timeout hrun => exact .inl rfl
  | @stepDown term hrun =>
      left
      show (p.node.becomeFollower term).log = _
      unfold Node.becomeFollower
      split <;> rfl
  | campaign hrun hnode => exact .inl (by rw [hnode]; rfl)
  | @elect term hrun hwins =>
      left
      show (p.node.becomeLeader term).log = _
      unfold Node.becomeLeader
      split <;> rfl
  | append hstate hnode => exact .inr ⟨_, rfl, by rw [hnode]; rfl⟩
  | heartbeat hrun hpeer hnode => exact .inl (by rw [hnode])
  | replicateSend hcall hpeer hterm hstate hnode => exact .inl (by rw [hnode])

theorem Node.newEntry_index (n : Node) (command : Command) :
    (n.newEntry command).index = n.log.lastIndex + 1 := rfl

/-- The log only grows, at its end. -/
theorem log_grows (h : p.Move net a p' out) (hpos : p.node.log.Positional) :
    p'.node.log.Positional ∧ p.node.log.entries <+: p'.node.log.entries := by
  rcases log_move h with hlog | ⟨command, -, hlog⟩
  · rw [hlog]
    exact ⟨hpos, List.prefix_refl _⟩
  · rw [hlog]
    refine ⟨hpos.append ?_, List.prefix_append ..⟩
    rw [Node.newEntry_index, hpos.lastIndex_eq]

theorem lastIndex_grows (h : p.Move net a p' out)
    (hpos : p.node.log.Positional) :
    p.node.log.lastIndex ≤ p'.node.log.lastIndex := by
  obtain ⟨hpos', hpre⟩ := log_grows h hpos
  have hlen := hpre.length_le
  rw [hpos.length_eq, hpos'.length_eq] at hlen
  omega

theorem LogStore.Positional.lastIndex_append {l : LogStore} (h : l.Positional)
    {e : LogEntry} (he : e.index = l.lastIndex + 1) :
    (l.appendEntry e).lastIndex = l.lastIndex + 1 := by
  rw [(h.append (by rw [he, h.lastIndex_eq])).lastIndex_eq, h.body_append,
    List.length_append, h.lastIndex_eq, List.length_singleton]

theorem foldl_ge {p : Nat → Bool} {b : Nat} (l : List Nat) (init : Nat)
    (hinit : b ≤ init) (hl : ∀ i ∈ l, b ≤ i) :
    b ≤ l.foldl (fun last i => if p i then i else last) init := by
  induction l generalizing init with
  | nil => exact hinit
  | cons i l ih =>
      rw [List.foldl_cons]
      refine ih _ ?_ fun j hj => hl j (List.mem_cons_of_mem _ hj)
      split
      · exact hl i List.mem_cons_self
      · exact hinit

theorem LogStore.Positional.le_of_entryAt {l : LogStore} (h : l.Positional)
    {i : Nat} {e : LogEntry} (he : l.entryAt i = some e) : i ≤ l.lastIndex := by
  rw [h.entryAt_eq] at he
  have := (List.getElem?_eq_some_iff.mp he).1
  have := h.length_eq
  omega

theorem Node.advanceCommitIndex_bounds (n : Node) (hpos : n.log.Positional)
    (hcommit : n.commitIndex ≤ n.log.lastIndex) :
    n.commitIndex ≤ n.advanceCommitIndex.commitIndex
      ∧ n.advanceCommitIndex.commitIndex ≤ n.log.lastIndex := by
  show n.commitIndex ≤ n.lastCommittable ∧ n.lastCommittable ≤ n.log.lastIndex
  refine ⟨?_, ?_⟩
  · refine foldl_ge _ _ (Nat.le_refl _) ?_
    intro i hi
    have := (List.mem_range'_1.mp hi).1
    omega
  · rcases n.lastCommittable_spec with heq | hcomm
    · omega
    · unfold Node.committable at hcomm
      split at hcomm
      · exact hpos.le_of_entryAt ‹_›
      · cases hcomm

theorem Node.heartbeatSuccess_bounds {n : Node} (hpos : n.log.Positional)
    (hcommit : n.commitIndex ≤ n.log.lastIndex) (peer : String) (m : Nat) :
    n.commitIndex ≤ (n.heartbeatSuccess peer m).commitIndex
      ∧ (n.heartbeatSuccess peer m).commitIndex ≤ n.log.lastIndex := by
  unfold Node.heartbeatSuccess
  generalize hn₁ : (if n.matchIndex peer < m then _ else n : Node) = n₁
  have hlog : n₁.log = n.log := by
    rw [← hn₁]
    split <;> rfl
  have hsame : n₁.commitIndex = n.commitIndex := by
    rw [← hn₁]
    split <;> rfl
  have hbounds := n₁.advanceCommitIndex_bounds (hlog ▸ hpos)
    (by rw [hlog, hsame]; exact hcommit)
  rwa [hlog, hsame] at hbounds

/-- `commitIndex` only grows, and stays within the log. -/
theorem commit_move (h : p.Move net a p' out)
    (hpos : p.node.log.Positional)
    (hcommit : p.node.commitIndex ≤ p.node.log.lastIndex)
    (hcalls : ∀ c ∈ p.replicates, c.loc = .commit →
      c.entry.index ≤ p.node.log.lastIndex) :
    p.node.commitIndex ≤ p'.node.commitIndex
      ∧ p'.node.commitIndex ≤ p.node.log.lastIndex := by
  have hsame : p'.node.commitIndex = p.node.commitIndex →
      p.node.commitIndex ≤ p'.node.commitIndex
        ∧ p'.node.commitIndex ≤ p.node.log.lastIndex := by
    intro heq
    omega
  cases book_move h with
  | same hbook => exact hsame (congrArg Book.commitIndex hbook)
  | elect hrun hwins hnode =>
      refine hsame ?_
      rw [hnode, Node.becomeLeader, if_pos hwins]
  | append hstate hnode =>
      refine hsame ?_
      rw [hnode]
      rfl
  | @heartbeatSuccess k j call ws peer args reply hrun hws hpeer hans hterm
      hentries hsuccess hbook =>
      have heq : p'.node.commitIndex = _ := congrArg Book.commitIndex hbook
      rw [heq]
      exact Node.heartbeatSuccess_bounds hpos hcommit ..
  | @lower _ peer hbook =>
      refine hsame ((congrArg Book.commitIndex hbook).trans ?_)
      show (p.node.lowerNext peer).commitIndex = _
      unfold Node.lowerNext
      split <;> rfl
  | replicateSuccess hcall hworker hpeer hans hterm hsuccess hnode =>
      refine hsame ?_
      rw [hnode]
      rfl
  | commit hcall hloc hnode =>
      have hle := hcalls _ (List.mem_of_getElem? hcall) hloc
      rw [hnode]
      unfold Node.commitEntry
      split
      · exact ⟨Nat.le_of_lt ‹_›, hle⟩
      · exact ⟨Nat.le_refl _, hcommit⟩
  | claim hstart hnode =>
      refine hsame ?_
      rw [hnode]
      rfl

/-! ## Calls that wait for `applyCommitted` -/

/-- The call has committed its entry. -/
def ReplicateLoc.settles : ReplicateLoc → Bool
  | .applying _ => true
  | .returned .ok => true
  | _ => false

/-- What a step does to the calls that wait for an `applyCommitted`. -/
inductive WaitMove (p p' : Proc) : Prop where
  | committed {r : Nat} {c : ReplicateCall}
      (hcall : p.replicates[r]? = some c)
      (hcalls : p'.replicates
        = p.replicates.set r { c with loc := .applying p.appliers.length })
      (hstart : p'.appliers[p.appliers.length]? = some .start)
      (hcommit : c.entry.index ≤ p'.node.commitIndex)
  | returned {r i : Nat} {c : ReplicateCall}
      (hcall : p.replicates[r]? = some c) (hloc : c.loc = .applying i)
      (hdone : p.appliers[i]? = some .done)
      (hcalls : p'.replicates
        = p.replicates.set r { c with loc := .returned .ok })
  | kept (hkept : ∀ (r : Nat) (c : ReplicateCall), p.replicates[r]? = some c →
      ∃ c' : ReplicateCall, p'.replicates[r]? = some c' ∧ c'.entry = c.entry
        ∧ (c'.loc = c.loc ∨ c'.loc.settles = false))

/-- An element after one place of the list has been set. -/
theorem getElem?_set_cases {α : Type} {l : List α} {i j : Nat} {x y : α}
    (hi : l[i]? = some x) (hj : l[j]? = some y) (x' : α) :
    y = x ∧ (l.set i x')[j]? = some x' ∨ (l.set i x')[j]? = some y := by
  by_cases hij : i = j
  · subst hij
    cases hi.symm.trans hj
    exact .inl ⟨rfl, List.getElem?_set_self (LeaderLog.lt_length_of_getElem? hi)⟩
  · exact .inr ((List.getElem?_set_ne hij).trans hj)

theorem WaitMove.same (h : p'.replicates = p.replicates) : WaitMove p p' :=
  .kept fun _ c hc => ⟨c, h ▸ hc, rfl, .inl rfl⟩

theorem WaitMove.set {r : Nat} {c c' : ReplicateCall}
    (hcall : p.replicates[r]? = some c)
    (hcalls : p'.replicates = p.replicates.set r c') (hentry : c'.entry = c.entry)
    (hloc : c'.loc = c.loc ∨ c'.loc.settles = false) : WaitMove p p' := by
  refine .kept ?_
  intro r' x hx
  rw [hcalls]
  rcases getElem?_set_cases hcall hx c' with ⟨rfl, hx'⟩ | hx'
  · exact ⟨c', hx', hentry, hloc⟩
  · exact ⟨x, hx', rfl, .inl rfl⟩

theorem countAck_settles (p : Proc) (c : ReplicateCall) (k : Nat) (ok : Bool) :
    (p.countAck c k ok).loc.settles = false := by
  unfold Proc.countAck
  dsimp only
  generalize (if ok = true then c.acks + 1 else c.acks) = acks
  split
  · rfl
  · split <;> rfl

theorem digestReplicate_wait {r k : Nat} {c : ReplicateCall}
    (hcall : p.replicates[r]? = some c) (peer : String)
    (reply : AppendEntriesReply) :
    WaitMove p (p.digestReplicate r c k peer reply) := by
  unfold Proc.digestReplicate
  split
  · exact .set hcall (Proc.signalStepDown_replicates ..) rfl (.inl rfl)
  · split
    · exact .set hcall rfl rfl (.inl rfl)
    · split <;> exact .set hcall rfl rfl (.inl rfl)

theorem wait_move (h : p.Move net a p' out) : WaitMove p p' := by
  cases h with
  | replicate hstate =>
      refine .kept ?_
      intro r c hc
      exact ⟨c, List.getElem?_append_left (LeaderLog.lt_length_of_getElem? hc)
        |>.trans hc, rfl, .inl rfl⟩
  | replicateStale hcall _ _ => exact .set hcall rfl rfl (.inl rfl)
  | replicateSend hcall _ _ _ _ _ => exact .set hcall rfl rfl (.inl rfl)
  | replicateError hcall _ => exact .set hcall rfl rfl (.inl rfl)
  | replicateReply hcall _ _ _ => exact digestReplicate_wait hcall ..
  | receiveAck hcall _ _ =>
      exact .set hcall rfl rfl (.inr (countAck_settles ..))
  | @giveUp _ r c c' result _ hresult hcall _ hc' =>
      refine .set hcall rfl (by rw [hc']) (.inr ?_)
      rw [hc']
      cases result with
      | ok => exact absurd rfl hresult
      | timedOut => rfl
      | stopped => rfl
  | @replicateCommit r c c' hcall _ hc' =>
      refine .committed hcall (by rw [hc']; rfl) List.getElem?_concat_length ?_
      show c.entry.index ≤ (p.node.commitEntry c.entry.index).commitIndex
      unfold Node.commitEntry
      split
      · exact Nat.le_refl _
      · omega
  | replicateReturn hcall hloc hdone hc' =>
      exact .returned hcall hloc hdone (by rw [hc'])
  | heartbeatReply => exact .same (digestHeartbeat_replicates ..)
  | _ => exact .same rfl

/-- The calls of `applyCommitted` go forward: one that leaves its start
claims everything committed. -/
structure Forward (p p' : Proc) : Prop where
  commit : p.node.commitIndex ≤ p'.node.commitIndex
  applied : p.node.lastApplied ≤ p'.node.lastApplied
  appliers : ∀ (i : Nat) (x : Applier), p.appliers[i]? = some x →
    ∃ x' : Applier, p'.appliers[i]? = some x' ∧ (x' = .start → x = .start)
      ∧ (x = .start → x' ≠ .start → p.node.commitIndex ≤ p'.node.lastApplied)

theorem sendLater_ne_start (applyCh : Option (List Command))
    (rest : List LogEntry) : Proc.sendLater applyCh rest ≠ .start := by
  unfold Proc.sendLater
  split <;> simp

/-- The calls after one of them has moved off a point that is not the
start. -/
theorem appliers_set {as : List Applier} {i : Nat} {y y' : Applier}
    (hi : as[i]? = some y) (hy : y ≠ .start) (hy' : y' ≠ .start) {b c : Nat} :
    ∀ (j : Nat) (x : Applier), as[j]? = some x → ∃ x' : Applier,
      (as.set i y')[j]? = some x' ∧ (x' = .start → x = .start)
        ∧ (x = .start → x' ≠ .start → b ≤ c) := by
  intro j x hx
  rcases getElem?_set_cases hi hx y' with ⟨rfl, hx'⟩ | hx'
  · exact ⟨y', hx', fun h => absurd h hy', fun h => absurd h hy⟩
  · exact ⟨x, hx', id, fun h h' => absurd h h'⟩

theorem Forward.of_kept (hcommit : p.node.commitIndex ≤ p'.node.commitIndex)
    (happlied : p'.node.lastApplied = p.node.lastApplied)
    (happliers : ∀ (i : Nat) (x : Applier), p.appliers[i]? = some x →
      p'.appliers[i]? = some x) : Forward p p' where
  commit := hcommit
  applied := happlied.ge
  appliers i x hx := ⟨x, happliers i x hx, id, fun h h' => absurd h h'⟩

theorem forward_move (h : p.Move net a p' out)
    (hcommit : p.node.commitIndex ≤ p'.node.commitIndex) : Forward p p' := by
  cases feed_move h with
  | same hfeed =>
      refine .of_kept hcommit (congrArg Feed.lastApplied hfeed) ?_
      rw [show p'.appliers = _ from congrArg Feed.appliers hfeed]
      exact fun _ _ hx => hx
  | start hfeed =>
      refine .of_kept hcommit (congrArg Feed.lastApplied hfeed) ?_
      rw [show p'.appliers = p.appliers ++ [.start] from
        congrArg Feed.appliers hfeed]
      intro i x hx
      rw [List.getElem?_append_left (LeaderLog.lt_length_of_getElem? hx)]
      exact hx
  | @collect i hstart hfeed =>
      have happlied : p'.node.lastApplied
          = max p.node.lastApplied p.node.commitIndex :=
        congrArg Feed.lastApplied hfeed
      refine ⟨hcommit, by omega, ?_⟩
      rw [show p'.appliers = p.appliers.set i _ from congrArg Feed.appliers hfeed]
      intro j x hx
      rcases getElem?_set_cases hstart hx _ with ⟨-, hx'⟩ | hx'
      · exact ⟨_, hx', fun h => absurd h (sendLater_ne_start _ _),
          fun _ _ => by omega⟩
      · exact ⟨x, hx', id, fun h h' => absurd h h'⟩
  | send hsending hqueue hfeed =>
      refine ⟨hcommit, (congrArg Feed.lastApplied hfeed).ge, ?_⟩
      rw [show p'.appliers = _ from congrArg Feed.appliers hfeed]
      exact appliers_set hsending (by simp) (sendLater_ne_start _ _)
  | applyLoop hqueue hfeed =>
      refine .of_kept hcommit (congrArg Feed.lastApplied hfeed) ?_
      rw [show p'.appliers = _ from congrArg Feed.appliers hfeed]
      exact fun _ _ hx => hx
  | abandon hsending hfeed =>
      refine ⟨hcommit, (congrArg Feed.lastApplied hfeed).ge, ?_⟩
      rw [show p'.appliers = _ from congrArg Feed.appliers hfeed]
      exact appliers_set hsending (by simp) (by simp)

/-- A call that has committed its entry waits for an `applyCommitted` that
will claim it, or the entry has been claimed. -/
structure Settled (p : Proc) (c : ReplicateCall) : Prop where
  applying : ∀ i : Nat, c.loc = .applying i → ∃ x, p.appliers[i]? = some x
    ∧ (x = .start → c.entry.index ≤ p.node.commitIndex)
    ∧ (x ≠ .start → c.entry.index ≤ p.node.lastApplied)
  returned : c.loc = .returned .ok → c.entry.index ≤ p.node.lastApplied

theorem Settled.of_not_settles {c : ReplicateCall}
    (h : c.loc.settles = false) : Settled p c := by
  refine ⟨?_, ?_⟩
  · intro i hi
    rw [hi] at h
    cases h
  · intro hret
    rw [hret] at h
    cases h

theorem Settled.forward {c c' : ReplicateCall} (h : Settled p c)
    (hf : Forward p p') (hentry : c'.entry = c.entry)
    (hloc : c'.loc = c.loc ∨ c'.loc.settles = false) : Settled p' c' := by
  rcases hloc with hloc | hno
  · refine ⟨?_, ?_⟩
    · intro i hi
      obtain ⟨x, hx, hstart, hpast⟩ := h.applying i (hloc ▸ hi)
      obtain ⟨x', hx', hback, hclaim⟩ := hf.appliers i x hx
      have hcommit := hf.commit
      have happlied := hf.applied
      rw [hentry]
      refine ⟨x', hx', ?_, ?_⟩
      · intro h'
        exact Nat.le_trans (hstart (hback h')) hcommit
      · intro h'
        by_cases hxs : x = .start
        · exact Nat.le_trans (hstart hxs) (hclaim hxs h')
        · exact Nat.le_trans (hpast hxs) happlied
    · intro hret
      rw [hentry]
      exact Nat.le_trans (h.returned (hloc ▸ hret)) hf.applied
  · exact .of_not_settles hno

/-- A call stays settled. -/
theorem settled_move (h : p.Move net a p' out)
    (hcommit : p.node.commitIndex ≤ p'.node.commitIndex) {r : Nat}
    {c : ReplicateCall} (hcall : p.replicates[r]? = some c)
    (hs : Settled p c) :
    ∃ c', p'.replicates[r]? = some c' ∧ c'.entry = c.entry ∧ Settled p' c' := by
  have hf := forward_move h hcommit
  cases wait_move h with
  | @committed r₀ c₀ hcall₀ hcalls hstart hle =>
      rw [hcalls]
      rcases getElem?_set_cases hcall₀ hcall
        { c₀ with loc := .applying p.appliers.length } with ⟨rfl, hc'⟩ | hc'
      · refine ⟨_, hc', rfl, ?_, (fun hno => by cases hno)⟩
        rintro i ⟨⟩
        exact ⟨.start, hstart, fun _ => hle, fun hno => absurd rfl hno⟩
      · exact ⟨c, hc', rfl, hs.forward hf rfl (.inl rfl)⟩
  | @returned r₀ i c₀ hcall₀ hloc hdone hcalls =>
      rw [hcalls]
      rcases getElem?_set_cases hcall₀ hcall
        { c₀ with loc := .returned .ok } with ⟨rfl, hc'⟩ | hc'
      · obtain ⟨x, hx, -, hpast⟩ := hs.applying i hloc
        cases hdone.symm.trans hx
        refine ⟨_, hc', rfl, (fun _ hno => by cases hno), ?_⟩
        intro _
        exact Nat.le_trans (hpast (by simp)) hf.applied
      · exact ⟨c, hc', rfl, hs.forward hf rfl (.inl rfl)⟩
  | kept hkept =>
      obtain ⟨c', hc', hentry, hloc⟩ := hkept r c hcall
      exact ⟨c', hc', hentry, hs.forward hf hentry hloc⟩

/-- Every call is over or has its entry within the log. -/
def Proc.CallsWithin (p : Proc) : Prop :=
  ∀ c ∈ p.replicates, (∃ result, c.loc = .returned result)
    ∨ c.entry.index ≤ p.node.log.lastIndex

theorem Proc.CallsWithin.move (hcalls : p.CallsWithin)
    (h : p.Move net a p' out) (hpos : p.node.log.Positional) :
    p'.CallsWithin := by
  have hold : ∀ c ∈ p.replicates, (∃ result, c.loc = .returned result)
      ∨ c.entry.index ≤ p'.node.log.lastIndex := by
    intro c hc
    exact (hcalls c hc).imp_right fun hle =>
      Nat.le_trans hle (lastIndex_grows h hpos)
  -- a call that is at work and is not opened by this step keeps its entry
  have hset : ∀ (r : Nat) (c c' : ReplicateCall), p.replicates[r]? = some c →
      p'.replicates = p.replicates.set r c' →
      ((∃ result, c'.loc = .returned result) ∨ c'.entry = c.entry
        ∧ (c'.loc = c.loc ∨ ∀ result, c.loc ≠ .returned result)) →
      p'.CallsWithin := by
    intro r c c' hcall hreps hc' x hx
    rw [hreps] at hx
    rcases List.mem_or_eq_of_mem_set hx with hx | rfl
    · exact hold x hx
    · rcases hc' with hret | ⟨hentry, hloc⟩
      · exact .inl hret
      · rcases hold c (List.mem_of_getElem? hcall) with ⟨result, hret⟩ | hle
        · rcases hloc with hloc | hloc
          · exact .inl ⟨result, hloc.trans hret⟩
          · exact absurd hret (hloc result)
        · exact .inr (hentry ▸ hle)
  cases call_move h with
  | same hreps =>
      intro c hc
      exact hold c (hreps ▸ hc)
  | @opened command hstate hnode hreps =>
      intro c hc
      rw [hreps] at hc
      rcases List.mem_append.mp hc with hc | hc
      · exact hold c hc
      · obtain rfl := List.mem_singleton.mp hc
        right
        rw [hnode]
        exact (hpos.lastIndex_append (p.node.newEntry_index command)).ge
  | worker hcall hbusy hwk hreps =>
      exact hset _ _ _ hcall hreps (.inr ⟨rfl, .inl rfl⟩)
  | ack hcall hloc hworker hreps =>
      exact hset _ _ _ hcall hreps (.inr ⟨rfl, .inr (by simp [hloc])⟩)
  | gaveUp hcall hloc hresult hreps =>
      exact hset _ _ _ hcall hreps (.inl ⟨_, rfl⟩)
  | committed hcall hloc hreps =>
      exact hset _ _ _ hcall hreps (.inr ⟨rfl, .inr (by simp [hloc])⟩)
  | returned hcall hloc hout hreps =>
      exact hset _ _ _ hcall hreps (.inl ⟨_, rfl⟩)

/-! ## Commands on their way -/

/-- Collected by a call that is still sending, or in the channel. -/
def Proc.Carries (p : Proc) (cmd : Command) : Prop :=
  (∃ (i : Nat) (rest : List LogEntry) (e : LogEntry),
      p.appliers[i]? = some (.sending rest) ∧ e ∈ rest ∧ e.command = cmd)
    ∨ cmd ∈ p.applyCh.getD []

theorem LogStore.mem_slice {l : LogStore} {lo hi i : Nat} {e : LogEntry}
    (h : l.entryAt i = some e) (hlo : lo ≤ i) (hhi : i ≤ hi) :
    e ∈ l.slice lo hi :=
  List.mem_filterMap.mpr ⟨i, List.mem_range'_1.mpr ⟨hlo, by omega⟩, h⟩

theorem LogStore.mem_of_slice {l : LogStore} {lo hi : Nat} {e : LogEntry}
    (h : e ∈ l.slice lo hi) : e ∈ l.entries := by
  obtain ⟨i, -, hi⟩ := List.mem_filterMap.mp h
  exact List.mem_of_find?_eq_some hi

theorem sendLater_of_mem {queue : List Command} {rest : List LogEntry}
    {e : LogEntry} (he : e ∈ rest) :
    Proc.sendLater (some queue) rest = .sending rest := by
  refine if_neg ?_
  rintro (hno | rfl)
  · cases hno
  · cases he

/-- What a step of the process does to the commands on their way: none is
lost, new ones come out of the log, and every index it claims is among
them. -/
structure CarryMove (p p' : Proc) : Prop where
  channel : p'.applyCh.isSome = true
  kept : ∀ cmd, p.Carries cmd → p'.Carries cmd
  origin : ∀ cmd, p'.Carries cmd →
    p.Carries cmd ∨ ∃ e ∈ p.node.log.entries, e.command = cmd
  claimed : ∀ i e, p.node.lastApplied < i → i ≤ p'.node.lastApplied →
    p.node.log.entryAt i = some e → p'.Carries e.command
  bound : p'.node.lastApplied ≤ max p.node.lastApplied p.node.commitIndex

theorem CarryMove.of_feed (hch : p.applyCh.isSome = true)
    (happlied : p'.node.lastApplied = p.node.lastApplied)
    (happlyCh : p'.applyCh = p.applyCh)
    (hsending : ∀ (i : Nat) rest, p'.appliers[i]? = some (.sending rest)
      ↔ p.appliers[i]? = some (.sending rest)) : CarryMove p p' := by
  have hiff : ∀ cmd, p'.Carries cmd ↔ p.Carries cmd := by
    intro cmd
    simp only [Proc.Carries, hsending, happlyCh]
  refine ⟨happlyCh ▸ hch, fun cmd => (hiff cmd).mpr,
    fun cmd h => .inl ((hiff cmd).mp h), ?_, by omega⟩
  intro i e hlt hle
  omega

theorem sending_concat {as : List Applier} {i : Nat} {rest : List LogEntry} :
    (as ++ [.start])[i]? = some (.sending rest)
      ↔ as[i]? = some (.sending rest) := by
  rcases Nat.lt_or_ge i as.length with hlt | hge
  · rw [List.getElem?_append_left hlt]
  · rw [List.getElem?_append_right hge, List.getElem?_eq_none hge]
    constructor
    · intro h
      cases List.mem_singleton.mp (List.mem_of_getElem? h)
    · intro h
      cases h

theorem carry_collect (hch : p.applyCh.isSome = true) {a : Nat}
    (hstart : p.appliers[a]? = some .start)
    (hfeed : p'.feed = { p.feed with
      lastApplied := max p.node.lastApplied p.node.commitIndex
      appliers := p.appliers.set a (Proc.sendLater p.applyCh p.node.toApply)
      collected := p.collected ++ p.node.toApply }) : CarryMove p p' := by
  have happlied : p'.node.lastApplied
      = max p.node.lastApplied p.node.commitIndex :=
    congrArg Feed.lastApplied hfeed
  have happliers : p'.appliers
      = p.appliers.set a (Proc.sendLater p.applyCh p.node.toApply) :=
    congrArg Feed.appliers hfeed
  have happlyCh : p'.applyCh = p.applyCh := congrArg Feed.applyCh hfeed
  refine ⟨happlyCh ▸ hch, ?_, ?_, ?_, by omega⟩
  · rintro cmd (⟨i, rest, e, hi, he, hcmd⟩ | hqueue)
    · refine .inl ⟨i, rest, e, ?_, he, hcmd⟩
      rw [happliers]
      rcases getElem?_set_cases hstart hi _ with ⟨hno, -⟩ | hi'
      · cases hno
      · exact hi'
    · exact .inr (happlyCh ▸ hqueue)
  · rintro cmd (⟨i, rest, e, hi, he, hcmd⟩ | hqueue)
    · rw [happliers] at hi
      rcases sending_set hi with ⟨-, hnew⟩ | ⟨-, hold⟩
      · obtain ⟨rfl, -⟩ := sendLater_sending hnew
        exact .inr ⟨e, LogStore.mem_of_slice he, hcmd⟩
      · exact .inl (.inl ⟨i, rest, e, hold, he, hcmd⟩)
    · exact .inl (.inr (happlyCh ▸ hqueue))
  · intro i e hlt hle he
    obtain ⟨queue, hqueue⟩ := Option.isSome_iff_exists.mp hch
    have hmem : e ∈ p.node.toApply := LogStore.mem_slice he hlt (by omega)
    refine .inl ⟨a, p.node.toApply, e, ?_, hmem, rfl⟩
    rw [happliers, hqueue, sendLater_of_mem hmem]
    exact List.getElem?_set_self (LeaderLog.lt_length_of_getElem? hstart)

theorem carry_send {a : Nat} {entry : LogEntry} {rest : List LogEntry}
    {queue : List Command}
    (hsending : p.appliers[a]? = some (.sending (entry :: rest)))
    (hqueue : p.applyCh = some queue)
    (hfeed : p'.feed = { p.feed with
      appliers := p.appliers.set a (Proc.sendLater p.applyCh rest)
      applyCh := some (queue ++ [entry.command])
      sends := p.sends ++ [entry] }) : CarryMove p p' := by
  have happlied : p'.node.lastApplied = p.node.lastApplied :=
    congrArg Feed.lastApplied hfeed
  have happliers : p'.appliers
      = p.appliers.set a (Proc.sendLater p.applyCh rest) :=
    congrArg Feed.appliers hfeed
  have happlyCh : p'.applyCh = some (queue ++ [entry.command]) :=
    congrArg Feed.applyCh hfeed
  refine ⟨by rw [happlyCh]; rfl, ?_, ?_, ?_, by omega⟩
  · rintro cmd (⟨i, rest', e, hi, he, hcmd⟩ | hmem)
    · rcases getElem?_set_cases hsending hi
        (Proc.sendLater p.applyCh rest) with ⟨heq, hi'⟩ | hi'
      · cases heq
        rcases List.mem_cons.mp he with rfl | he
        · right
          rw [happlyCh, Option.getD_some, ← hcmd]
          exact List.mem_concat_self
        · rw [← happliers, hqueue, sendLater_of_mem he] at hi'
          exact .inl ⟨i, rest, e, hi', he, hcmd⟩
      · exact .inl ⟨i, rest', e, happliers ▸ hi', he, hcmd⟩
    · right
      rw [hqueue, Option.getD_some] at hmem
      rw [happlyCh, Option.getD_some]
      exact List.mem_append_left _ hmem
  · rintro cmd (⟨i, rest', e, hi, he, hcmd⟩ | hmem)
    · left
      rw [happliers] at hi
      rcases sending_set hi with ⟨-, hnew⟩ | ⟨-, hold⟩
      · obtain ⟨rfl, -⟩ := sendLater_sending hnew
        exact .inl ⟨a, _, e, hsending, List.mem_cons_of_mem _ he, hcmd⟩
      · exact .inl ⟨i, rest', e, hold, he, hcmd⟩
    · left
      rw [happlyCh, Option.getD_some] at hmem
      rcases List.mem_append.mp hmem with hmem | hmem
      · right
        rw [hqueue]
        exact hmem
      · exact .inl ⟨a, _, entry, hsending, List.mem_cons_self,
          (List.mem_singleton.mp hmem).symm⟩
  · intro i e hlt hle
    omega

theorem carry_move (h : p.Move net a p' out) (hch : p.applyCh.isSome = true)
    (hloop : a ≠ .applyLoop) (hrun : ∀ i, a ≠ .abandon i) : CarryMove p p' := by
  cases feed_move h with
  | same hfeed =>
      refine .of_feed hch (congrArg Feed.lastApplied hfeed)
        (congrArg Feed.applyCh hfeed) ?_
      intro i rest
      rw [show p'.appliers = p.appliers from congrArg Feed.appliers hfeed]
  | start hfeed =>
      refine .of_feed hch (congrArg Feed.lastApplied hfeed)
        (congrArg Feed.applyCh hfeed) ?_
      intro i rest
      rw [show p'.appliers = p.appliers ++ [.start] from
        congrArg Feed.appliers hfeed]
      exact sending_concat
  | collect hstart hfeed => exact carry_collect hch hstart hfeed
  | send hsending hqueue hfeed => exact carry_send hsending hqueue hfeed
  | applyLoop hqueue hfeed => exact absurd rfl hloop
  | abandon hsending hfeed => exact absurd rfl (hrun _)

end RaftStore
