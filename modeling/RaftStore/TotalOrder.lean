import RaftStore.ApplyOrder
import RaftStore.Faults
import RaftStore.Lib.Broadcast
import RaftStore.Permanence

/-!
# One order of commands

Behind the logs of the nodes there is one list, the longest that any of
them has committed (`Cluster.decided`). It only grows, and what a node has
put on its `applyCh` is always a beginning of it: a node sends the entries
in order (`ApplyOrder`), and it leaves none out, since what it collects is
its committed log up to `lastApplied` (`Ledger`) and what it has sent is
what it has collected but for the rest of the one call that is sending
(`Gapless`). So the cluster refines a totally ordered broadcast
(`cluster_refines_broadcast`), and the maps of the replicas are those that
one log leaves after so many commands (`replicas_replay_one_log`).

Besides the conditions of `StateMachineSafety` and `ApplyOrder` this needs
that no call of `applyCommitted` gives up, which it does once the node is
stopped.
-/

namespace RaftStore

open Runs Quorum LeaderLog LastWrite

/-! ## What a run has to respect -/

/-- `applyCommitted` leaves its loop because of `stopCh`. -/
def Local.isAbandon : Local → Bool
  | .abandon _ => true
  | _ => false

def keepsSending : World → Action → Prop :=
  onLocal fun _ _ l => l.isAbandon = false

instance (w : World) (a : Action) : Decidable (keepsSending w a) :=
  inferInstanceAs (Decidable (onLocal _ w a))

def inTurn (w : World) (a : Action) : Prop :=
  committedSoundly w a ∧ soloApply w a ∧ keepsSending w a

instance (w : World) (a : Action) : Decidable (inTurn w a) :=
  inferInstanceAs (Decidable (_ ∧ _))

/-! ## Nothing is left out -/

/-- What was collected has been sent, up to what the call that is sending
has left. -/
structure Gapless (f : Feed) : Prop where
  sent : f.sends <+: f.collected
  sending : ∀ (i : Nat) rest, f.appliers[i]? = some (.sending rest) →
    f.sends ++ rest = f.collected
  idle : f.applyCh.isSome = true →
    (∀ x ∈ f.appliers, x.isSending = false) → f.sends = f.collected

theorem gapless_new (n : String) (peers : List String) (applyCh : Bool) :
    Gapless (newProc n peers applyCh).feed where
  sent := List.prefix_rfl
  sending _ _ h := by cases h
  idle _ _ := rfl

section Move

variable {p p' : Proc} {l : Local}

theorem mem_set_of_ne {as : List Applier} {i : Nat} {x y z : Applier}
    (hi : as[i]? = some x) (hz : z ∈ as) (hne : z ≠ x) : z ∈ as.set i y := by
  obtain ⟨j, hj⟩ := List.mem_iff_getElem?.mp hz
  refine List.mem_iff_getElem?.mpr ⟨j, ?_⟩
  rwa [List.getElem?_set_ne]
  rintro rfl
  exact hne (Option.some.inj (hj.symm.trans hi))

theorem Gapless.start (h : Gapless p.feed) : Gapless p.startApply.feed where
  sent := h.sent
  sending i rest hi := by
    refine h.sending i rest ?_
    rcases Nat.lt_or_ge i p.appliers.length with hlt | hge
    · rwa [show p.startApply.feed.appliers = p.appliers ++ [.start] from rfl,
        List.getElem?_append_left hlt] at hi
    · rw [show p.startApply.feed.appliers = p.appliers ++ [.start] from rfl,
        List.getElem?_append_right hge] at hi
      cases List.mem_singleton.mp (List.mem_of_getElem? hi)
  idle hch hall := h.idle hch fun x hx => hall x (List.mem_append_left _ hx)

theorem Gapless.collect (h : Gapless p.feed) {a : Nat}
    (hstart : p.appliers[a]? = some .start)
    (hsolo : p.node.lastApplied < p.node.commitIndex →
      ∀ x ∈ p.appliers, x.isSending = false)
    (hfeed : p'.feed =
      { p.feed with
        lastApplied := max p.node.lastApplied p.node.commitIndex
        appliers := p.appliers.set a (Proc.sendLater p.applyCh p.node.toApply)
        collected := p.collected ++ p.node.toApply }) :
    Gapless p'.feed := by
  by_cases hnil : p.node.toApply = []
  · -- the call ends at once, and all is as before
    have hdone : Proc.sendLater p.applyCh p.node.toApply = .done :=
      if_pos (.inr hnil)
    rw [hfeed, hdone, hnil, List.append_nil]
    refine ⟨h.sent, ?_, ?_⟩
    · intro i rest hi
      rcases sending_set hi with ⟨-, hx⟩ | ⟨-, hold⟩
      · cases hx
      · exact h.sending i rest hold
    · intro hch hall
      refine h.idle hch fun x hx => ?_
      by_cases hxs : x = .start
      · rw [hxs]
        rfl
      · exact hall x (mem_set_of_ne hstart hx hxs)
  · obtain ⟨e, he⟩ := List.exists_mem_of_ne_nil _ hnil
    have hquiet := hsolo (by have := (toApply_index p.node).2 e he; omega)
    rw [hfeed]
    refine ⟨h.sent.trans (List.prefix_append ..), ?_, ?_⟩
    · intro i rest hi
      rcases sending_set hi with ⟨-, hx⟩ | ⟨-, hold⟩
      · obtain ⟨rfl, -⟩ := sendLater_sending hx
        have hch : p.applyCh.isSome = true := by
          unfold Proc.sendLater at hx
          split at hx
          · cases hx
          · rename_i hno
            exact Option.isSome_iff_ne_none.mpr fun hnone => hno (.inl hnone)
        exact congrArg (· ++ p.node.toApply) (h.idle hch hquiet)
      · cases hquiet _ (List.mem_of_getElem? hold)
    · intro hch hall
      have hsending : Proc.sendLater p.applyCh p.node.toApply
          = .sending p.node.toApply := by
        refine if_neg fun hor => ?_
        rcases hor with hnone | hno
        · rw [show p.feed.applyCh = none from hnone] at hch
          cases hch
        · exact hnil hno
      have hmem := List.mem_set (LeaderLog.lt_length_of_getElem? hstart)
        (Proc.sendLater p.applyCh p.node.toApply)
      have hfalse := hall _ hmem
      rw [hsending] at hfalse
      cases hfalse

theorem Gapless.send (h : Gapless p.feed) (hinv : FeedInv p.feed) {a : Nat}
    {entry : LogEntry} {rest : List LogEntry} {queue : List Command}
    (hsending : p.appliers[a]? = some (.sending (entry :: rest)))
    (hqueue : p.applyCh = some queue)
    (hfeed : p'.feed =
      { p.feed with
        appliers := p.appliers.set a (Proc.sendLater p.applyCh rest)
        applyCh := some (queue ++ [entry.command])
        sends := p.sends ++ [entry] }) :
    Gapless p'.feed := by
  have hall : (p.sends ++ [entry]) ++ rest = p.collected := by
    rw [List.append_assoc]
    exact h.sending a _ hsending
  rw [hfeed]
  refine ⟨⟨rest, hall⟩, ?_, ?_⟩
  · intro i rest' hi
    rcases sending_set hi with ⟨-, hx⟩ | ⟨hne, hold⟩
    · rw [(sendLater_sending hx).1]
      exact hall
    · exact absurd (hinv.solo i a _ _ hold hsending) hne
  · intro _ hidle
    have hnil : rest = [] := by
      by_contra hne
      have hlater : Proc.sendLater p.applyCh rest = .sending rest :=
        if_neg fun hor => hor.elim (fun hnone => by rw [hqueue] at hnone; cases hnone) hne
      have hmem := List.mem_set (LeaderLog.lt_length_of_getElem? hsending)
        (Proc.sendLater p.applyCh rest)
      have hfalse := hidle _ hmem
      rw [hlater] at hfalse
      cases hfalse
    rw [hnil, List.append_nil] at hall
    exact hall

theorem Gapless.move (h : Gapless p.feed) (hinv : FeedInv p.feed)
    (hmove : FeedMove p p' l) (hkeep : l.isAbandon = false)
    (hsolo : l.isCollect = true → p.node.lastApplied < p.node.commitIndex →
      ∀ x ∈ p.appliers, x.isSending = false) : Gapless p'.feed := by
  cases hmove with
  | same hfeed => rwa [hfeed]
  | start hfeed => rw [hfeed]; exact h.start
  | collect hstart hfeed => exact h.collect hstart (hsolo rfl) hfeed
  | send hsending hqueue hfeed => exact h.send hinv hsending hqueue hfeed
  | applyLoop hqueue hfeed =>
      rw [hfeed]
      exact ⟨h.sent, h.sending, fun _ => h.idle (by rw [Proc.feed, hqueue]; rfl)⟩
  | abandon => cases hkeep

end Move

/-! ## What a node has collected -/

/-- The entries a node has collected are its log up to `lastApplied`. -/
structure Ledger (p : Proc) : Prop where
  collected : p.collected = p.node.log.body.take p.node.lastApplied
  applied : p.node.lastApplied ≤ p.node.commitIndex

theorem ledger_new (n : String) (peers : List String) (applyCh : Bool) :
    Ledger (newProc n peers applyCh) :=
  ⟨rfl, Nat.le_refl 0⟩

/-- Collecting up to `commitIndex` gives what is committed. -/
theorem Ledger.committed {p : Proc} (h : Ledger p) (hpos : p.node.log.Positional) :
    p.collected ++ p.node.toApply = p.node.committed := by
  have hle := h.applied
  have hslice := hpos.slice_eq (Nat.succ_pos p.node.lastApplied) p.node.commitIndex
  rw [Nat.succ_sub_one, Nat.succ_eq_add_one, Nat.add_sub_add_right] at hslice
  rw [h.collected, Node.toApply, hslice, Node.committed, ← List.take_add,
    Nat.add_sub_cancel' hle]

theorem Ledger.move {p p' : Proc} {l : Local} (h : Ledger p)
    (hmove : FeedMove p p' l) (hpos : p.node.log.Positional)
    (hlen : p.node.committed.length = p.node.commitIndex)
    (hkept : p.node.committed <+: p'.node.log.body)
    (hcommit : p.node.commitIndex ≤ p'.node.commitIndex) : Ledger p' := by
  have hsame : p'.node.lastApplied = p.node.lastApplied →
      p'.collected = p.collected → Ledger p' := by
    intro hlast hcol
    constructor
    · rw [hlast, hcol, h.collected, prefix_take_eq hkept (hlen ▸ h.applied),
        Node.committed, List.take_take, Nat.min_eq_left h.applied]
    · rw [hlast]
      exact Nat.le_trans h.applied hcommit
  cases hmove with
  | same hfeed =>
      exact hsame (congrArg Feed.lastApplied hfeed) (congrArg Feed.collected hfeed)
  | start hfeed =>
      exact hsame (congrArg Feed.lastApplied hfeed) (congrArg Feed.collected hfeed)
  | collect _ hfeed =>
      have hlast : p'.node.lastApplied = p.node.commitIndex :=
        (congrArg Feed.lastApplied hfeed).trans (Nat.max_eq_right h.applied)
      have hcol : p'.collected = p.collected ++ p.node.toApply :=
        congrArg Feed.collected hfeed
      constructor
      · rw [hlast, hcol, h.committed hpos, ← hlen, prefix_take_eq hkept (Nat.le_refl _),
          List.take_length]
      · rw [hlast]
        exact hcommit
  | send _ _ hfeed =>
      exact hsame (congrArg Feed.lastApplied hfeed) (congrArg Feed.collected hfeed)
  | applyLoop _ hfeed =>
      exact hsame (congrArg Feed.lastApplied hfeed) (congrArg Feed.collected hfeed)
  | abandon _ hfeed =>
      exact hsame (congrArg Feed.lastApplied hfeed) (congrArg Feed.collected hfeed)

/-! ## The list behind the logs -/

/-- The longest that a member has committed. -/
def Cluster.decided (C : Cluster) (w : World) : List LogEntry :=
  Broadcast.longest (C.members.map fun n => (w.proc n).node.committed)

theorem committed_decided {C : Cluster} {w : World}
    (h : Reachable C.step committedSoundly C.init w) {n : String}
    (hn : n ∈ C.members) : (w.proc n).node.committed <+: C.decided w := by
  refine Broadcast.prefix_longest ?_ (List.mem_map_of_mem hn)
  intro l hl l' hl'
  obtain ⟨m, -, rfl⟩ := List.mem_map.mp hl
  obtain ⟨m', -, rfl⟩ := List.mem_map.mp hl'
  exact committed_compare h m m'

theorem decided_cases (C : Cluster) (w : World) :
    C.decided w = [] ∨ ∃ n ∈ C.members, C.decided w = (w.proc n).node.committed := by
  refine (Broadcast.longest_cases _).imp id fun hmem => ?_
  obtain ⟨n, hn, heq⟩ := List.mem_map.mp hmem
  exact ⟨n, hn, heq.symm⟩

theorem decided_step {C : Cluster} {w w' : World} {a : Action}
    (h : Reachable C.step committedSoundly C.init w) (hok : committedSoundly w a)
    (hstep : C.step w a = some w') : C.decided w <+: C.decided w' := by
  rcases decided_cases C w with hnil | ⟨n, hn, heq⟩
  · rw [hnil]
    exact List.nil_prefix
  · have hr' : Reachable C.step committedSoundly C.init w' :=
      h.elim fun _ hr => (hr.step hok hstep).reachable
    rw [heq]
    exact (committed_step h hok hstep n).trans (committed_decided hr' hn)

/-! ## The nodes along a run -/

structure SentInOrder (p : Proc) : Prop where
  gapless : Gapless p.feed
  ledger : Ledger p

/-- The feed of a process moves by a step of its own, or only gets a new
call. -/
theorem Cluster.feed_own {C : Cluster} {w w' : World} {a : Action}
    (h : C.step w a = some w') (hok : noRestart w a) (n : String) :
    ∃ l, FeedMove (w.proc n) (w'.proc n) l ∧ (l = .load ∨ a = .local n l) := by
  cases C.proc_step h n with
  | @own l _ _ hmove => exact ⟨l, feed_move hmove, .inr rfl⟩
  | voted _ _ hout hproc =>
      exact ⟨.load, .same (by rw [hproc, hout.feed]), .inl rfl⟩
  | appended _ _ hout hp hproc =>
      refine ⟨.load, ?_, .inl rfl⟩
      rw [hproc, hp]
      exact hout.feed .load
  | restarted => exact hok.elim
  | idle hproc => exact ⟨.load, .same (by rw [hproc]; rfl), .inl rfl⟩

theorem sentInOrder_of_reachable {C : Cluster} {w : World}
    (h : Reachable C.step inTurn C.init w) (n : String) : SentInOrder (w.proc n) := by
  revert n
  refine h.invariant (P := fun w => ∀ n, SentInOrder (w.proc n))
    (fun n => ⟨gapless_new .., ledger_new ..⟩) ?_
  intro w a w' hr hinv hok hstep n
  have hsound := hr.mono fun _ _ (ha : inTurn _ _) => ha.1
  have hkept := committed_step hsound hok.1 hstep n
  obtain ⟨s, habs, hcommit⟩ := commitInv_of_run hsound
  have hlen := (hcommit.nodes n).length
  have hpos : (w.proc n).node.log.Positional := (habs.code.log.logs n).positional
  have hlen' : (w.proc n).node.commitIndex ≤ (w'.proc n).node.commitIndex := by
    have hle := hkept.length_le
    rw [hlen] at hle
    exact Nat.le_trans hle (List.length_take_le ..)
  have hfeedInv := feedInv_of_reachable
    (hr.mono fun _ _ (ha : inTurn _ _) => ha.2.1) n
  obtain ⟨l, hmove, hown⟩ := C.feed_own hstep hok.1.1.1.2 n
  refine ⟨(hinv n).gapless.move hfeedInv hmove ?_ ?_, (hinv n).ledger.move hmove hpos
    hlen (hkept.trans (List.take_prefix ..)) hlen'⟩
  · rcases hown with rfl | rfl
    · rfl
    · exact hok.2.2
  · rcases hown with rfl | rfl
    · exact fun hno => by cases hno
    · exact hok.2.1

/-- What a node has sent is a beginning of what is decided. -/
theorem sends_decided {C : Cluster} {w : World}
    (h : Reachable C.step inTurn C.init w) {n : String} (hn : n ∈ C.members) :
    (w.proc n).sends <+: C.decided w := by
  obtain ⟨hgap, hledger⟩ := sentInOrder_of_reachable h n
  refine hgap.sent.trans ?_
  show (w.proc n).collected <+: _
  rw [hledger.collected]
  exact (List.take_prefix_take_left hledger.applied).trans
    (committed_decided (h.mono fun _ _ (ha : inTurn _ _) => ha.1) hn)

/-! ## A leader of the cluster as a server

What `read_your_write` asks of a node at the start and of its steps holds
of the leaders of a cluster. -/

/-- Entries in the term of a leader come from itself, and it has no call to
itself. -/
theorem Cluster.no_rival {C : Cluster} {w : World}
    (h : Reachable C.step orderly C.init w) {n : String}
    (hlead : (w.proc n).node.state = .leader) {c : AppendCall}
    (hc : c ∈ w.net.appendCalls) (hdst : c.dst = n) :
    c.args.term ≠ (w.proc n).node.currentTerm := by
  intro hterm
  obtain ⟨s, habs⟩ := abstracts_of_reachable h
  obtain ⟨log, hwon⟩ := habs.code.lead.leader n hlead
  have hleader : s.leader c.args.term = some n :=
    hterm ▸ habs.refines.hist.leader n _ log hwon
  obtain ⟨hsrc, hpeer⟩ := habs.code.static.appendCalls c hc
  have hself : c.src = n :=
    Option.some.inj ((habs.refines.net.calls c hc).1.symm.trans hleader)
  exact ((C.mem_peers c.src hsrc c.dst).mp hpeer).2 (hdst.trans hself.symm)

theorem Cluster.server_start {C : Cluster} {w : World}
    (h : Reachable C.step inTurn C.init w) {n : String} {s : Server}
    (hproc : s.proc = w.proc n) (hlead : (w.proc n).node.state = .leader)
    (hrunning : (w.proc n).stopped = false) (hchannel : (w.proc n).applyCh.isSome = true)
    (hcalls : ∀ c ∈ (w.proc n).replicates, ∃ result, c.loc = .returned result)
    (hrequests : s.requests = []) (hdone : s.applied = []) : s.Start := by
  obtain ⟨spec, habs, hinv⟩ := commitInv_of_run (h.mono fun _ _ (ha : inTurn _ _) => ha.1)
  have hpos : (w.proc n).node.log.Positional := (habs.code.log.logs n).positional
  have hcommit : (w.proc n).node.commitIndex ≤ (w.proc n).node.log.lastIndex :=
    hpos.lastIndex_eq ▸ (hinv.nodes n).le
  have happlied := (sentInOrder_of_reachable h n).ledger.applied
  rw [← hproc] at hlead hrunning hchannel hcalls hpos hcommit happlied
  exact ⟨hlead, hrunning, hchannel, hpos, hcommit, happlied.trans hcommit, hcalls, hrequests,
    hdone⟩

/-! ## The refinement -/

/-- The state of the broadcast behind a state of the cluster: a node
delivers what it puts on `applyCh`. -/
structure Delivers (C : Cluster) (w : World)
    (b : Broadcast.St String LogEntry) : Prop where
  decided : b.decided = C.decided w
  taken : ∀ n, b.taken n = if n ∈ C.members then (w.proc n).sends.length else 0
  delivered : ∀ n ∈ C.members, (w.proc n).sends = b.delivered n

theorem exists_delivers {C : Cluster} {w : World}
    (h : Reachable C.step inTurn C.init w) : ∃ b, Delivers C w b := by
  refine ⟨⟨C.decided w, fun n => if n ∈ C.members then (w.proc n).sends.length else 0,
    ?_⟩, rfl, fun _ => rfl, ?_⟩
  · intro n
    split
    · exact (sends_decided h ‹_›).length_le
    · exact Nat.zero_le _
  · intro n hn
    rw [Broadcast.St.delivered]
    dsimp only
    rw [if_pos hn]
    exact List.prefix_iff_eq_take.mp (sends_decided h hn)

/-- At the start nothing is decided. -/
theorem delivers_init (C : Cluster) : Delivers C C.init .init := by
  have hnil : C.decided C.init = [] := by
    rcases decided_cases C C.init with hnil | ⟨n, -, heq⟩
    · exact hnil
    · exact heq
  exact ⟨hnil.symm, fun n => (ite_self _).symm, fun n _ => rfl⟩

/-- One step sends at most one entry, and only on one node. -/
theorem Cluster.sends_step {C : Cluster} {w w' : World} {a : Action}
    (h : C.step w a = some w') (hok : noRestart w a) (n : String) :
    (w'.proc n).sends = (w.proc n).sends
      ∨ ∃ i entry, a = .local n (.send i)
        ∧ (w'.proc n).sends = (w.proc n).sends ++ [entry] := by
  obtain ⟨l, hmove, hown⟩ := C.feed_own h hok n
  cases hmove with
  | same hfeed => exact .inl (congrArg Feed.sends hfeed)
  | start hfeed => exact .inl (congrArg Feed.sends hfeed)
  | collect _ hfeed => exact .inl (congrArg Feed.sends hfeed)
  | @send i entry _ _ _ _ hfeed =>
      refine .inr ⟨i, entry, hown.resolve_left (by simp), ?_⟩
      exact congrArg Feed.sends hfeed
  | applyLoop _ hfeed => exact .inl (congrArg Feed.sends hfeed)
  | abandon _ hfeed => exact .inl (congrArg Feed.sends hfeed)

theorem Cluster.local_member {C : Cluster} {w w' : World} {n : String} {l : Local}
    (h : C.step w (.local n l) = some w') : n ∈ C.members := by
  by_contra hn
  simp [Cluster.step, hn] at h

/-- A step of the cluster decides what it adds to the list and delivers what
it sends. -/
theorem Delivers.step {C : Cluster} {w w' : World} {a : Action}
    {b b' : Broadcast.St String LogEntry} (hb : Delivers C w b)
    (hb' : Delivers C w' b') (hdecided : C.decided w <+: C.decided w')
    (hok : noRestart w a) (hstep : C.step w a = some w') :
    Broadcast.Step b b' := by
  rw [← hb.decided, ← hb'.decided] at hdecided
  by_cases hsend : ∃ n i entry, a = .local n (.send i)
      ∧ (w'.proc n).sends = (w.proc n).sends ++ [entry]
  · obtain ⟨n, i, entry, rfl, hsends⟩ := hsend
    have hn := C.local_member hstep
    refine .deliver n hdecided (funext fun m => ?_)
    rw [hb'.taken m, Function.update_apply]
    by_cases hm : m = n
    · subst hm
      rw [if_pos hn, if_pos rfl, hsends, List.length_append, hb.taken m, if_pos hn]
      rfl
    · rw [if_neg hm, hb.taken m]
      rcases C.sends_step hstep hok m with hsame | ⟨_, _, heq, -⟩
      · rw [hsame]
      · cases heq
        exact absurd rfl hm
  · refine .decide hdecided (funext fun m => ?_)
    rw [hb'.taken m, hb.taken m]
    rcases C.sends_step hstep hok m with hsame | ⟨i, entry, heq, hsends⟩
    · rw [hsame]
    · exact absurd ⟨m, i, entry, heq, hsends⟩ hsend

/-- The cluster is a totally ordered broadcast: every run is matched by one
of the broadcast, state by state and step by step. -/
theorem cluster_refines_broadcast {C : Cluster} {past : List World} {w : World}
    (h : Run C.step inTurn C.init past w) :
    ∃ bs b, Path Broadcast.Step .init bs b
      ∧ List.Forall₂ (Delivers C) (w :: past) (b :: bs) := by
  refine h.simulated (delivers_init C) ?_
  intro w a w' b hr hb hok hstep
  obtain ⟨b', hb'⟩ := exists_delivers (hr.elim fun _ hr => (hr.step hok hstep).reachable)
  have hdecided := decided_step (hr.mono fun _ _ (ha : inTurn _ _) => ha.1) hok.1 hstep
  exact ⟨b', hb.step hb' hdecided hok.1.1.1.2 hstep, hb'⟩

/-- `b` has put both commands on its channel. -/
theorem cluster_refines_broadcast_b :
    ∃ past w, Run threeNodes.step inTurn threeNodes.init past w
      ∧ ∃ bs b, Path Broadcast.Step .init bs b
        ∧ List.Forall₂ (Delivers threeNodes) (w :: past) (b :: bs)
        ∧ b.decided = [⟨1, 1, [7]⟩, ⟨1, 2, [8]⟩]
        ∧ b.delivered "b" = [⟨1, 1, [7]⟩, ⟨1, 2, [8]⟩] := by
  obtain ⟨past, w, hr, hdecided, hsends, hmem⟩ : ∃ past w,
      Run threeNodes.step inTurn threeNodes.init past w
        ∧ threeNodes.decided w = [⟨1, 1, [7]⟩, ⟨1, 2, [8]⟩]
        ∧ (w.proc "b").sends = [⟨1, 1, [7]⟩, ⟨1, 2, [8]⟩]
        ∧ "b" ∈ threeNodes.members :=
    Run.of_exec_any inOrderRun (by decide +kernel)
  obtain ⟨bs, b, hpath, hall⟩ := cluster_refines_broadcast hr
  have hb : Delivers threeNodes w b := (List.forall₂_cons.mp hall).1
  exact ⟨past, w, hr, bs, b, hpath, hall, hb.decided.trans hdecided,
    (hb.delivered "b" hmem).symm.trans hsends⟩

/-! ## The maps of the replicas -/

theorem decided_grows {C : Cluster} {past : List World} {w v : World}
    (h : Run C.step committedSoundly C.init past w) (hv : v ∈ w :: past) :
    C.decided v <+: C.decided w :=
  h.past_related (R := fun v w => C.decided v <+: C.decided w)
    (fun _ => List.prefix_rfl) .trans
    (fun _ _ _ hr hok hstep => decided_step hr hok hstep) hv

/-- The commands that the apply loop of a node has taken. -/
theorem applied_decided {C : Cluster} {w : World}
    (h : Reachable C.step inTurn C.init w) {n : String} (hn : n ∈ C.members) :
    (w.proc n).applied <+: (C.decided w).map LogEntry.command := by
  have hfeed := feedInv_of_reachable
    (h.mono fun _ _ (ha : inTurn _ _) => ha.2.1) n
  have hsends := (sends_decided h hn).map LogEntry.command
  rw [show (w.proc n).sends.map LogEntry.command = _ from hfeed.delivered] at hsends
  exact (List.prefix_append ..).trans hsends

/-- At every moment of a run, the commands a node has taken are the first
of one list, the same for all nodes and all moments, and the map that
`RunApplyLoop` has made of them is the map those make, whatever the node
keeps on disk, as long as its log took every entry. -/
theorem replicas_replay_one_log {C : Cluster} {past : List World} {w v : World}
    (h : Run C.step inTurn C.init past w) (hv : v ∈ w :: past) {n : String}
    (hn : n ∈ C.members) (unmarshal : Command → Option Entry)
    (wal snapshot : Device) (d : ByteDisk) {cmds : List (Command × FileIo)}
    (hfed : cmds.map Prod.fst = (v.proc n).applied)
    (htook : ∀ c ∈ cmds, Took unmarshal wal c) :
    ∃ k, (v.proc n).applied = ((C.decided w).take k).map LogEntry.command
      ∧ (runApplyLoop unmarshal (newByteStore wal snapshot) d cmds).1.data.get
        = replay ((((C.decided w).take k).map LogEntry.command).filterMap
          (effective unmarshal)) .empty := by
  have happlied : (v.proc n).applied <+: (C.decided w).map LogEntry.command :=
    (applied_decided (h.reachable_of_mem hv) hn).trans
      ((decided_grows (h.mono fun _ _ (ha : inTurn _ _) => ha.1) hv).map _)
  have htake : (v.proc n).applied
      = ((C.decided w).take (v.proc n).applied.length).map LogEntry.command := by
    rw [List.map_take]
    exact List.prefix_iff_eq_take.mp happlied
  have hall : cmds.filter (fun c => Took unmarshal (newByteStore wal snapshot).wal c) = cmds :=
    List.filter_eq_self.mpr fun c hc => decide_eq_true (htook c hc)
  refine ⟨_, htake, ?_⟩
  rw [runApplyLoop_data, hall, hfed, ← htake]
  rfl

/-- A client of `a` sets the key `k` to `v`. -/
def putRun : List Action :=
  electRun ++ [.local "a" (.replicate (Entry.mk .upsert [107] [118]).marshal),
    .local "a" (.replicateSend 0 0), .deliverAppend 0,
    .local "a" (.replicateReply 0 0 0), .local "a" (.receiveAck 0 0),
    .local "a" (.replicateCommit 0), .local "a" (.collect 0),
    .local "a" (.send 0), .local "a" .applyLoop, .local "a" (.replicateReturn 0)]

theorem replicas_replay_one_log_a :
    ∃ past w, Run threeNodes.step inTurn threeNodes.init past w
      ∧ ∃ k, (w.proc "a").applied
          = ((threeNodes.decided w).take k).map LogEntry.command
        ∧ replay ((((threeNodes.decided w).take k).map LogEntry.command).filterMap
          (effective unmarshalEntry)) .empty [107] = some [118] := by
  obtain ⟨past, w, hr, hmem, hfed⟩ : ∃ past w,
      Run threeNodes.step inTurn threeNodes.init past w
        ∧ "a" ∈ threeNodes.members
        ∧ [((Entry.mk .upsert [107] [118]).marshal, FileIo.ok)].map Prod.fst
          = (w.proc "a").applied :=
    Run.of_exec_any putRun (by decide +kernel)
  obtain ⟨k, hk, hdata⟩ := replicas_replay_one_log hr List.mem_cons_self hmem
    unmarshalEntry .file .file .empty hfed (by decide +kernel)
  refine ⟨past, w, hr, k, hk, ?_⟩
  rw [← hdata]
  decide +kernel

end RaftStore
