import RaftStore.OneNode

/-!
# Collecting committed entries

Any number of `applyCommitted` calls run at once on a node: one for each
request that moved the commit index, one for each client write, one for
each heartbeat. Each claims the indices between `lastApplied` and
`commitIndex` under the lock and sends their commands later.

`Claim` records a claimed index with what the log had there at that moment.
The claims of a run are the indices 1, 2, 3, ... in order, so no index is
claimed twice; what the claims took from the log is what has been sent and
what the calls still have to send (`Collector.Inv`), whatever the other
goroutines do to the log and to the commit index in the meantime
(`collected_exactly_once`).
-/

namespace RaftStore

open Runs

/-! ## Claims -/

/-- `index` was claimed by the call numbered `call`; `entry` is what the
log had there. -/
structure Claim where
  call : Nat
  index : Nat
  entry : Option LogEntry
  deriving DecidableEq

/-- What the locked loop of `applyCommitted` goes through. -/
def Node.claims (n : Node) (call : Nat) : List Claim :=
  (List.range' (n.lastApplied + 1) (n.commitIndex - n.lastApplied)).map
    fun i => ⟨call, i, n.log.entryAt i⟩

/-- A node with the record of its claims. -/
structure Collector where
  proc : Proc
  claims : List Claim

def Proc.newClaims (p : Proc) : NodeAction → List Claim
  | .own _ (.collect call) => p.node.claims call
  | _ => []

def Collector.act (s : Collector) (a : NodeAction) : Option Collector :=
  (s.proc.act a).map fun p => ⟨p, s.claims ++ s.proc.newClaims a⟩

/-- The node is not stopped. -/
def Unstopped (_ : Collector) : NodeAction → Prop
  | .own _ a => a ≠ .stop
  | _ => True

instance (s : Collector) : (a : NodeAction) → Decidable (Unstopped s a)
  | .own _ a => inferInstanceAs (Decidable (a ≠ .stop))
  | .requestVote _ => inferInstanceAs (Decidable True)
  | .appendEntries _ => inferInstanceAs (Decidable True)

theorem Node.claims_index (n : Node) (call : Nat) :
    (n.claims call).map Claim.index
      = List.range' (n.lastApplied + 1) (n.commitIndex - n.lastApplied) := by
  rw [Node.claims, List.map_map]
  exact List.map_id _

/-- The entries a call collects are those of its claims. -/
theorem Node.claims_entry (n : Node) (call : Nat) :
    (n.claims call).filterMap Claim.entry = n.toApply := by
  rw [Node.claims, List.filterMap_map, Node.toApply, LogStore.slice,
    Nat.add_sub_add_right]
  rfl

/-! ## What the calls have left to send -/

def Applier.rest : Applier → List LogEntry
  | .sending rest => rest
  | _ => []

theorem sendLater_rest (queue : List Command) (rest : List LogEntry) :
    (Proc.sendLater (some queue) rest).rest = rest := by
  unfold Proc.sendLater
  split
  · rename_i h
    rcases h with h | rfl
    · cases h
    · rfl
  · rfl

/-- Moving one call changes what is left by what that call has left. -/
theorem rest_set {as : List Applier} {i : Nat} {x y : Applier}
    (h : as[i]? = some x) :
    ((as.set i y).flatMap Applier.rest ++ x.rest).Perm
      (as.flatMap Applier.rest ++ y.rest) := by
  induction as generalizing i with
  | nil => cases h
  | cons z as ih =>
      cases i with
      | zero =>
          cases h
          simp only [List.set_cons_zero, List.flatMap_cons]
          refine List.perm_iff_count.mpr fun e => ?_
          simp only [List.count_append]
          omega
      | succ i =>
          simp only [List.set_cons_succ, List.flatMap_cons, List.append_assoc]
          exact (ih h).append_left _

theorem rest_start (as : List Applier) :
    (as ++ [Applier.start]).flatMap Applier.rest = as.flatMap Applier.rest := by
  rw [List.flatMap_append]
  exact List.append_nil _

/-! ## The accounts -/

/-- What was claimed, what was sent and what is left. -/
structure Balanced (f : Feed) (claims : List Claim) : Prop where
  channel : f.applyCh.isSome = true
  indices : claims.map Claim.index = List.range' 1 f.lastApplied
  entries : (claims.filterMap Claim.entry).Perm
    (f.sends ++ f.appliers.flatMap Applier.rest)
  delivered : f.sends.map LogEntry.command = f.applied ++ f.applyCh.getD []

section

variable {p p' : Proc} {claims : List Claim}

theorem Balanced.collect (h : Balanced p.feed claims) {call : Nat}
    (hstart : p.appliers[call]? = some .start)
    (hfeed : p'.feed =
      { p.feed with
        lastApplied := max p.node.lastApplied p.node.commitIndex
        appliers := p.appliers.set call (Proc.sendLater p.applyCh p.node.toApply)
        collected := p.collected ++ p.node.toApply }) :
    Balanced p'.feed (claims ++ p.node.claims call) := by
  obtain ⟨queue, hqueue⟩ := Option.isSome_iff_exists.mp h.channel
  rw [hfeed]
  refine ⟨h.channel, ?_, ?_, h.delivered⟩
  · show (claims ++ p.node.claims call).map Claim.index
      = List.range' 1 (max p.node.lastApplied p.node.commitIndex)
    rw [List.map_append, Node.claims_index, h.indices]
    show List.range' 1 p.node.lastApplied ++ _ = _
    rw [Nat.add_comm p.node.lastApplied 1, List.range'_append_1]
    congr 1
    omega
  · have hset := rest_set (y := Proc.sendLater p.applyCh p.node.toApply) hstart
    have hold := h.entries
    rw [show p.applyCh = some queue from hqueue, sendLater_rest] at hset
    rw [List.perm_iff_count] at hset hold ⊢
    intro e
    have h₁ := hset e
    have h₂ := hold e
    show List.count e ((claims ++ p.node.claims call).filterMap Claim.entry)
      = List.count e (p.sends ++ (p.appliers.set call
        (Proc.sendLater p.applyCh p.node.toApply)).flatMap Applier.rest)
    rw [List.filterMap_append, Node.claims_entry,
      show p.applyCh = some queue from hqueue]
    simp only [List.count_append, Applier.rest, List.count_nil] at h₁ h₂ ⊢
    change List.count e (claims.filterMap Claim.entry)
      = List.count e p.sends + List.count e (p.appliers.flatMap Applier.rest) at h₂
    omega

theorem Balanced.send (h : Balanced p.feed claims) {a : Nat} {entry : LogEntry}
    {rest : List LogEntry} {queue : List Command}
    (hsending : p.appliers[a]? = some (.sending (entry :: rest)))
    (hqueue : p.applyCh = some queue)
    (hfeed : p'.feed =
      { p.feed with
        appliers := p.appliers.set a (Proc.sendLater p.applyCh rest)
        applyCh := some (queue ++ [entry.command])
        sends := p.sends ++ [entry] }) :
    Balanced p'.feed claims := by
  rw [hfeed]
  refine ⟨rfl, h.indices, ?_, ?_⟩
  · have hset := rest_set (y := Proc.sendLater p.applyCh rest) hsending
    have hold := h.entries
    rw [hqueue, sendLater_rest] at hset
    rw [List.perm_iff_count] at hset hold ⊢
    intro e
    have h₁ := hset e
    have h₂ := hold e
    show _ = List.count e ((p.sends ++ [entry]) ++ (p.appliers.set a
      (Proc.sendLater p.applyCh rest)).flatMap Applier.rest)
    rw [hqueue]
    change List.count e (claims.filterMap Claim.entry)
      = List.count e (p.sends ++ p.appliers.flatMap Applier.rest) at h₂
    simp only [List.count_append, Applier.rest, List.count_cons, List.count_nil]
      at h₁ h₂ ⊢
    omega
  · have hold : p.sends.map LogEntry.command = p.applied ++ queue := by
      have := h.delivered
      rwa [show p.feed.applyCh = some queue from hqueue] at this
    simp [hold, Proc.feed]

/-- A step that is not a claim and does not give up a call. -/
theorem Balanced.move (h : Balanced p.feed claims) {l : Local}
    (hmove : FeedMove p p' l) (hcollect : ∀ call, l ≠ .collect call)
    (habandon : ∀ call, l ≠ .abandon call) : Balanced p'.feed claims := by
  cases hmove with
  | same hfeed => rwa [hfeed]
  | start hfeed =>
      rw [hfeed]
      refine ⟨h.channel, h.indices, ?_, h.delivered⟩
      show List.Perm _
        (p.sends ++ (p.appliers ++ [Applier.start]).flatMap Applier.rest)
      rw [rest_start]
      exact h.entries
  | collect => exact absurd rfl (hcollect _)
  | send hsending hqueue hfeed => exact h.send hsending hqueue hfeed
  | @applyLoop command queue hqueue hfeed =>
      have hold := h.delivered
      rw [show p.feed.applyCh = some (command :: queue) from hqueue] at hold
      rw [hfeed]
      refine ⟨rfl, h.indices, h.entries, ?_⟩
      simpa [Proc.feed] using hold
  | abandon => exact absurd rfl (habandon _)

end

theorem Proc.abandon_stopped {net : Net} {p : Proc} {call : Nat}
    {r : Proc × Output} (h : p.step net (.abandon call) = some r) :
    p.stopped = true := by
  simp only [Proc.step, Proc.abandon] at h
  split at h
  · split at h
    · assumption
    · cases h
  · cases h

/-- Only the locked section of `applyCommitted` claims. -/
theorem Proc.newClaims_nil (p : Proc) {a : NodeAction}
    (h : ∀ net call, a ≠ .own net (.collect call)) : p.newClaims a = [] := by
  unfold Proc.newClaims
  split
  · exact absurd rfl (h _ _)
  · rfl

structure Collector.Inv (s : Collector) : Prop where
  running : s.proc.stopped = false
  balanced : Balanced s.proc.feed s.claims

theorem Collector.inv_new (id : String) (peers : List String) :
    Collector.Inv ⟨newProc id peers true, []⟩ where
  running := rfl
  balanced := ⟨rfl, rfl, .refl _, rfl⟩

/-- A step of one of the node's own goroutines. -/
theorem Balanced.own {p p' : Proc} {claims : List Claim} {net : Net} {l : Local}
    {out : Output} (h : Balanced p.feed claims) (hrunning : p.stopped = false)
    (hmove : p.Move net l p' out) (hstep : p.step net l = some (p', out)) :
    Balanced p'.feed (claims ++ p.newClaims (.own net l)) := by
  by_cases hcollect : ∃ call, l = .collect call
  · obtain ⟨call, rfl⟩ := hcollect
    cases hmove with
    | collect hstart => exact h.collect hstart rfl
    | giveUp ha => rcases ha with ha | ha <;> cases ha
  · have hcollect' : ∀ call, l ≠ .collect call := fun call hl => hcollect ⟨call, hl⟩
    rw [Proc.newClaims_nil p (fun _ call hl => hcollect' call
      (NodeAction.own.inj hl).2), List.append_nil]
    refine h.move (feed_move hmove) hcollect' ?_
    rintro call rfl
    cases hrunning.symm.trans (Proc.abandon_stopped hstep)

theorem Collector.Inv.act {s s' : Collector} {a : NodeAction} (h : s.Inv)
    (hok : Unstopped s a) (hact : s.act a = some s') : s'.Inv := by
  obtain ⟨p', hp', rfl⟩ := Option.map_eq_some_iff.mp hact
  have hacts := Proc.acts hp'
  have hstop : ∀ net, a ≠ .own net .stop := by
    rintro net rfl
    exact hok rfl
  refine ⟨(hacts.stopped hstop).trans h.running, ?_⟩
  cases hacts with
  | own hmove hstep => exact h.balanced.own h.running hmove hstep
  | voted hout =>
      rw [Proc.newClaims_nil _ (by simp), List.append_nil, hout.feed]
      exact h.balanced
  | appended hout =>
      rw [Proc.newClaims_nil _ (by simp), List.append_nil]
      exact h.balanced.move (hout.feed .load) (by simp) (by simp)

theorem Collector.inv_reachable {id : String} {peers : List String} {s : Collector}
    (h : Reachable Collector.act Unstopped ⟨newProc id peers true, []⟩ s) : s.Inv :=
  h.invariant (Collector.inv_new id peers)
    fun _ _ _ _ hinv hok hact => hinv.act hok hact

theorem lastApplied_mono {p p' : Proc} {a : NodeAction} (h : p.act a = some p') :
    p.node.lastApplied ≤ p'.node.lastApplied := by
  have hfeed : ∀ {l : Local}, FeedMove p p' l →
      p.feed.lastApplied ≤ p'.feed.lastApplied := by
    intro l hmove
    cases hmove with
    | collect _ hfeed =>
        rw [hfeed]
        exact Nat.le_max_left ..
    | same hfeed | start hfeed | send _ _ hfeed | applyLoop _ hfeed
    | abandon _ hfeed => exact (congrArg Feed.lastApplied hfeed).ge
  cases Proc.acts h with
  | own hmove => exact hfeed (feed_move hmove)
  | voted hout => exact hfeed (l := .load) (.same hout.feed)
  | appended hout => exact hfeed (hout.feed .load)

/-! ## The result -/

/-- Over any run of a node that is not stopped: the indices claimed are
1, 2, 3, ..., each by one call; `lastApplied` does not go down; and when no
call is under way, the commands sent are those of the claimed indices that
were in the log, each once. -/
theorem collected_exactly_once {id : String} {peers : List String}
    {past : List Collector} {s : Collector}
    (h : Run Collector.act Unstopped ⟨newProc id peers true, []⟩ past s) :
    s.claims.map Claim.index = List.range' 1 s.proc.node.lastApplied
      ∧ (∀ c ∈ s.claims, ∀ c' ∈ s.claims, c.index = c'.index → c = c')
      ∧ (∀ s₀ ∈ past, s₀.proc.node.lastApplied ≤ s.proc.node.lastApplied)
      ∧ s.proc.sends.map LogEntry.command
        = s.proc.applied ++ s.proc.applyCh.getD []
      ∧ ((∀ x ∈ s.proc.appliers, x = .done) →
        (s.proc.sends.map LogEntry.command).Perm
          ((s.claims.filterMap Claim.entry).map LogEntry.command)) := by
  have hbal := (Collector.inv_reachable h.reachable).balanced
  have hindices : s.claims.map Claim.index
      = List.range' 1 s.proc.node.lastApplied := hbal.indices
  refine ⟨hindices, ?_, ?_, hbal.delivered, ?_⟩
  · have hnodup : (s.claims.map Claim.index).Nodup := by
      rw [hindices]
      exact List.nodup_range' ..
    intro c hc c' hc' heq
    exact List.inj_on_of_nodup_map hnodup hc hc' heq
  · intro s₀ hs₀
    refine h.past_related
      (R := fun s s' => s.proc.node.lastApplied ≤ s'.proc.node.lastApplied)
      (fun _ => Nat.le_refl _) Nat.le_trans ?_ (List.mem_cons_of_mem _ hs₀)
    intro t a t' _ _ hact
    obtain ⟨p', hp', rfl⟩ := Option.map_eq_some_iff.mp hact
    exact lastApplied_mono hp'
  · intro hdone
    have hrest : s.proc.appliers.flatMap Applier.rest = [] := by
      rw [List.flatMap_eq_nil_iff]
      intro x hx
      rw [hdone x hx]
      rfl
    have hentries := hbal.entries
    rw [show s.proc.feed.appliers.flatMap Applier.rest = [] from hrest,
      List.append_nil] at hentries
    exact hentries.symm.map _

/-- Two requests move the commit index to 1 and to 2; the call of the
second sends first. -/
def overlappingCalls : List NodeAction :=
  [.appendEntries ⟨1, "b", 0, 0, [⟨1, 1, [7]⟩, ⟨1, 2, [8]⟩], 1⟩,
    .own silentNet (.collect 0),
    .appendEntries ⟨1, "b", 2, 1, [], 2⟩,
    .own silentNet (.collect 1), .own silentNet (.send 1),
    .own silentNet (.send 0)]

theorem collected_exactly_once_overlapping :
    ∃ past s, Run Collector.act Unstopped ⟨newProc "a" ["b", "c"] true, []⟩ past s
      ∧ s.claims.map Claim.index = [1, 2]
      ∧ s.proc.applyCh = some [[8], [7]]
      ∧ (s.proc.sends.map LogEntry.command).Perm
        ((s.claims.filterMap Claim.entry).map LogEntry.command) := by
  obtain ⟨past, s, hr, happlied, hqueue, hdone⟩ :
      ∃ past s, Run Collector.act Unstopped ⟨newProc "a" ["b", "c"] true, []⟩ past s
        ∧ s.proc.node.lastApplied = 2 ∧ s.proc.applyCh = some [[8], [7]]
        ∧ ∀ x ∈ s.proc.appliers, x = .done :=
    Run.of_exec_any overlappingCalls (by decide +kernel)
  have h := collected_exactly_once hr
  exact ⟨past, s, hr, by rw [h.1, happlied]; rfl, hqueue, h.2.2.2.2 hdone⟩

end RaftStore
