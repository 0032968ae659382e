import RaftStore.Scheduling

/-!
# Stopping a node

`Stop` closes `stopCh` and does nothing else. The goroutines of the node find
out by themselves: the select loops of `run` and the wait in `Replicate`
listen on the channel, and so does `applyCommitted` when it sends. The others
do not look at it. A heartbeat or a `replicateToPeer` goroutine ends when its
request does, and `loopLeader` is held up until all its heartbeats have ended.

Whatever the node was doing when it was stopped, nothing of this can hang
(`stop_comes_to_rest`): its goroutines can all end, by steps of their own. No
peer has to answer, nobody has to read from `applyCh`, and that may be full.
(The goroutines that ask for votes are no part of the state: each ends with
its request, since `resultCh` has room for all results.)
-/

namespace RaftStore

open Runs

/-! ## Steps without help -/

/-- For this step a goroutine needs no answer of a peer, no client, and no
room in `applyCh`. -/
def Local.unaided : Local → Bool
  | .voteReply _ _ => false
  | .heartbeatReply _ _ => false
  | .replicateReply _ _ _ => false
  | .replicate _ => false
  | .send _ => false
  | .applyLoop => false
  | .stop => false
  | _ => true

/-- Only the node moves, and it has no help. -/
def windsDown (n : String) (_ : World) : Action → Prop
  | .local m l => m = n ∧ l.unaided = true
  | _ => False

theorem windsDown.ordinary {n : String} {w : World} {a : Action} (h : windsDown n w a) :
    ordinary w a := by
  cases a with
  | «local» m l =>
      rintro rfl
      cases h.2
  | _ => exact h.elim

/-- A reachable state in which the process runs, and has been told to stop. -/
structure Halting (C : Cluster) (n : String) (w : World) : Prop where
  reach : Reachable C.step anyStep C.init w
  member : n ∈ C.members
  alive : (w.proc n).down = false
  stopped : (w.proc n).stopped = true

theorem Halting.after {C : Cluster} {n : String} {w v : World} (h : Halting C n w)
    (hr : Reachable C.step (windsDown n) w v) : Halting C n v := by
  have hlife : (v.proc n).life = (w.proc n).life :=
    hr.invariant (P := fun v => (v.proc n).life = (w.proc n).life) rfl
      fun _ _ _ _ heq hok hstep => (life_step hstep hok.ordinary n).trans heq
  obtain ⟨hdown, hstopped⟩ := Prod.mk.inj hlife
  exact ⟨h.reach.trans (hr.mono fun _ _ _ => trivial), h.member, hdown.trans h.alive,
    hstopped.trans h.stopped⟩

/-! ## The calls of `Replicate` -/

def ReplicateLoc.isReturned : ReplicateLoc → Bool
  | .returned _ => true
  | _ => false

/-- The call has returned, and none of its goroutines is left. -/
structure ReplicateCall.Over (c : ReplicateCall) : Prop where
  returned : c.loc.isReturned = true
  workers : ∀ x ∈ c.workers, x.isBusy = false

/-- There is a goroutine for every peer, and a call waits only for a call of
`applyCommitted` that was made. -/
structure Joinable (peers : List String) (p : Proc) : Prop where
  workers : ∀ c ∈ p.replicates, c.workers.length = peers.length
  applying : ∀ c ∈ p.replicates, ∀ a, c.loc = .applying a → a < p.appliers.length

theorem digestReplicate_set (p : Proc) (r : Nat) (c : ReplicateCall) (k : Nat) (peer : String)
    (reply : AppendEntriesReply) : ∃ x, (p.digestReplicate r c k peer reply).replicates
      = p.replicates.set r { c with workers := c.workers.set k x } := by
  unfold Proc.digestReplicate
  split
  · exact ⟨_, Proc.signalStepDown_replicates ..⟩
  · split
    · exact ⟨_, rfl⟩
    · split <;> exact ⟨_, rfl⟩

theorem Proc.countAck_loc_ne (p : Proc) (c : ReplicateCall) (k : Nat) (ok : Bool) (a : Nat) :
    (p.countAck c k ok).loc ≠ .applying a := by
  unfold Proc.countAck
  dsimp only
  generalize (if ok then c.acks + 1 else c.acks) = acks
  split
  · simp
  · split <;> simp

/-- A call after a step is a new one, or it is an old one that may have gone
on to wait for `applyCommitted`. -/
theorem Proc.Move.call_shape {net : Net} {p p' : Proc} {l : Local} {out : Output}
    (h : p.Move net l p' out) {c' : ReplicateCall} (hc' : c' ∈ p'.replicates) :
    (∃ command, c' = p.openCall command)
      ∨ ∃ c ∈ p.replicates, c'.workers.length = c.workers.length
        ∧ ∀ a, c'.loc = .applying a → c.loc = .applying a ∨ a < p'.appliers.length := by
  have hsame : p'.replicates = p.replicates → ∃ c ∈ p.replicates,
      c'.workers.length = c.workers.length
        ∧ ∀ a, c'.loc = .applying a → c.loc = .applying a ∨ a < p'.appliers.length :=
    fun heq => ⟨c', heq ▸ hc', rfl, fun _ => .inl⟩
  have hset : ∀ {r : Nat} {c x : ReplicateCall}, p.replicates[r]? = some c →
      p'.replicates = p.replicates.set r x → x.workers.length = c.workers.length →
      (∀ a, x.loc = .applying a → c.loc = .applying a ∨ a < p'.appliers.length) →
      ∃ c ∈ p.replicates, c'.workers.length = c.workers.length
        ∧ ∀ a, c'.loc = .applying a → c.loc = .applying a ∨ a < p'.appliers.length := by
    intro r c x hc heq hlen hloc
    rw [heq] at hc'
    rcases List.mem_or_eq_of_mem_set hc' with hold | rfl
    · exact ⟨c', hold, rfl, fun _ => .inl⟩
    · exact ⟨c, List.mem_of_getElem? hc, hlen, hloc⟩
  cases h with
  | replicate =>
      rcases List.mem_append.mp hc' with hold | hnew
      · exact .inr ⟨c', hold, rfl, fun _ => .inl⟩
      · exact .inl ⟨_, List.mem_singleton.mp hnew⟩
  | replicateStale hc | replicateSend hc | replicateError hc =>
      exact .inr (hset hc rfl (List.length_set ..) fun _ => .inl)
  | replicateReply hc =>
      obtain ⟨x, hx⟩ := digestReplicate_set ..
      exact .inr (hset hc hx (List.length_set ..) fun _ => .inl)
  | receiveAck hc =>
      exact .inr (hset hc rfl (List.length_set ..) fun a ha =>
        absurd ha (p.countAck_loc_ne _ _ _ a))
  | giveUp _ _ hc _ hx | replicateReturn hc _ _ hx =>
      subst hx
      exact .inr (hset hc rfl rfl fun a ha => by cases ha)
  | replicateCommit hc _ hx =>
      subst hx
      refine .inr (hset hc rfl rfl fun a ha => ?_)
      cases ha
      exact .inr (by simp [Proc.startApply])
  | heartbeatReply => exact .inr (hsame (digestHeartbeat_replicates ..))
  | _ => exact .inr (hsame rfl)

theorem joinable_of_reachable {C : Cluster} {ok : World → Action → Prop} {w : World}
    (h : Reachable C.step ok C.init w) (n : String) : Joinable (C.peers n) (w.proc n) := by
  have hnew : ∀ n, Joinable (C.peers n) (newProc n (C.peers n) (C.applyCh n)) :=
    fun n => ⟨by simp [newProc], by simp [newProc]⟩
  revert n
  refine h.invariant (P := fun w => ∀ n, Joinable (C.peers n) (w.proc n)) hnew ?_
  intro w a w' hr hinv _ hstep n
  have hpeers : (w.proc n).node.peers = C.peers n := (static_of_reachable hr).peers n
  obtain ⟨hworkers, happlying⟩ := hinv n
  cases C.proc_step hstep n with
  | own _ hmove =>
      have hfeed := (feed_move hmove).appliers_le
      refine ⟨fun c' hc' => ?_, fun c' hc' b hb => ?_⟩
      · rcases hmove.call_shape hc' with ⟨command, rfl⟩ | ⟨c, hc, hlen, -⟩
        · simp [Proc.openCall, hpeers]
        · exact hlen.trans (hworkers c hc)
      · rcases hmove.call_shape hc' with ⟨command, rfl⟩ | ⟨c, hc, -, hloc⟩
        · simp only [Proc.openCall] at hb
          split at hb <;> cases hb
        · rcases hloc b hb with hold | hlt
          · exact Nat.lt_of_lt_of_le (happlying c hc b hold) hfeed
          · exact hlt
  | voted _ _ _ hproc | idle hproc =>
      rw [hproc]
      exact ⟨hworkers, happlying⟩
  | appended _ _ _ hp hproc =>
      rw [hproc, hp]
      split
      · exact ⟨hworkers, fun c hc b hb =>
          Nat.lt_of_lt_of_le (happlying c hc b hb) (by simp [Proc.startApply])⟩
      · exact ⟨hworkers, happlying⟩
  | restarted hproc =>
      rw [hproc]
      exact hnew n

/-! ## What has ended stays so -/

theorem CallMove.over {net : Net} {p p' : Proc} {out : Output} (h : CallMove net p p' out)
    {r : Nat} {c : ReplicateCall} (hc : p.replicates[r]? = some c) (hover : c.Over) :
    p'.replicates[r]? = some c := by
  -- the call that moves is another one
  have hset : ∀ {r' : Nat} {c' x : ReplicateCall}, p.replicates[r']? = some c' →
      p'.replicates = p.replicates.set r' x → ¬ c'.Over → p'.replicates[r]? = some c := by
    intro r' c' x hc' heq hbusy
    have hne : r' ≠ r := by
      rintro rfl
      cases hc.symm.trans hc'
      exact hbusy hover
    rw [heq, List.getElem?_set_ne hne, hc]
  cases h with
  | same hcalls => rw [hcalls, hc]
  | opened _ _ hcalls =>
      rw [hcalls, List.getElem?_append_left (LeaderLog.lt_length_of_getElem? hc), hc]
  | worker hcall hbusy _ hcalls =>
      refine hset hcall hcalls fun hover' => ?_
      obtain ⟨x, hx, hxbusy⟩ := (Option.any_eq_true ..).mp hbusy
      rw [hover'.workers x (List.mem_of_getElem? hx)] at hxbusy
      cases hxbusy
  | ack hcall hloc _ hcalls | gaveUp hcall hloc _ hcalls | committed hcall hloc hcalls
    | returned hcall hloc _ hcalls =>
      refine hset hcall hcalls fun hover' => ?_
      have hreturned := hover'.returned
      rw [hloc] at hreturned
      cases hreturned

theorem Proc.Move.replicates_length {net : Net} {p p' : Proc} {l : Local} {out : Output}
    (h : p.Move net l p' out) (hl : l.unaided = true) :
    p'.replicates.length = p.replicates.length := by
  cases h with
  | replicate | voteReply | heartbeatReply | replicateReply => cases hl
  | replicateStale | replicateSend | replicateError | receiveAck | giveUp | replicateCommit
    | replicateReturn => exact List.length_set ..
  | _ => rfl

section Can

variable {C : Cluster} {n : String} {w v : World} {P : World → Prop}

theorem windsDown.move {a : Action} {w' : World} (hok : windsDown n w a)
    (hstep : C.step w a = some w') :
    ∃ l out, l.unaided = true ∧ (w.proc n).Move w.net l (w'.proc n) out := by
  cases a with
  | «local» m l =>
      obtain ⟨rfl, hl⟩ := hok
      cases C.raw_move hstep with
      | «local» _ hlocal => exact ⟨l, _, hl, by simpa [World.commit] using Proc.move hlocal⟩
  | _ => exact hok.elim

theorem over_after (hr : Reachable C.step (windsDown n) w v) {r : Nat} {c : ReplicateCall}
    (hc : (w.proc n).replicates[r]? = some c) (hover : c.Over) :
    (v.proc n).replicates[r]? = some c := by
  refine hr.invariant (P := fun v => (v.proc n).replicates[r]? = some c) hc ?_
  intro v a v' _ hv hok hstep
  obtain ⟨l, out, -, hmove⟩ := hok.move hstep
  exact (call_move hmove).over hv hover

theorem calls_length (hr : Reachable C.step (windsDown n) w v) :
    (v.proc n).replicates.length = (w.proc n).replicates.length := by
  refine hr.invariant
    (P := fun v => (v.proc n).replicates.length = (w.proc n).replicates.length) rfl ?_
  intro v a v' _ hv hok hstep
  obtain ⟨l, out, hl, hmove⟩ := hok.move hstep
  exact (hmove.replicates_length hl).trans hv

/-! ## `applyCommitted` -/

theorem can_unaided (h : Halting C n w) {l : Local} (hl : l.unaided = true) {p : Proc}
    {out : Output} (hstep : (w.proc n).step w.net l = some (p, out))
    (hnext : Halting C n (w.commit n p out) → Can C.step (windsDown n) P (w.commit n p out)) :
    Can C.step (windsDown n) P w := by
  have hcluster : C.step w (.local n l) = some (w.commit n p out) := by
    simp [Cluster.step, h.member, h.alive, hstep]
  have hok : windsDown n w (.local n l) := ⟨rfl, hl⟩
  exact .step hok hcluster (hnext (h.after ⟨_, .step .init hok hcluster⟩))

/-- A call of `applyCommitted` has ended, and nothing else has. -/
structure ApplyEnds (n : String) (a : Nat) (w v : World) : Prop where
  run : (v.proc n).run = (w.proc n).run
  calls : (v.proc n).replicates = (w.proc n).replicates
  appliers : (v.proc n).appliers = (w.proc n).appliers.set a .done

theorem can_abandon (h : Halting C n w) {a : Nat} {rest : List LogEntry}
    (ha : (w.proc n).appliers[a]? = some (.sending rest)) :
    Can C.step (windsDown n) (ApplyEnds n a w) w := by
  refine can_unaided h (l := .abandon a) rfl
    (by simp only [Proc.step, Proc.abandon, ha, h.stopped, if_true]; rfl) fun _ => ?_
  exact .now ⟨by simp, by simp, by simp⟩

theorem can_settle (h : Halting C n w) {a : Nat} (ha : a < (w.proc n).appliers.length) :
    Can C.step (windsDown n) (ApplyEnds n a w) w := by
  have hget := List.getElem?_eq_getElem ha
  cases hx : (w.proc n).appliers[a] with
  | done => exact .now ⟨rfl, rfl, by rw [← hx, List.set_getElem_self]⟩
  | sending rest => exact can_abandon h (by rw [hget, hx])
  | start =>
      have hstart : (w.proc n).appliers[a]? = some .start := by rw [hget, hx]
      refine can_unaided h (l := .collect a) rfl
        (by simp only [Proc.step, Proc.collect, hstart]; rfl) fun hhalt => ?_
      set v := w.commit n _ _ with hv
      have happliers : (v.proc n).appliers = (w.proc n).appliers.set a
          (Proc.sendLater (w.proc n).applyCh (w.proc n).node.toApply) := by
        rw [hv, World.commit_self]
      have hrun : (v.proc n).run = (w.proc n).run := by rw [hv, World.commit_self]
      have hcalls : (v.proc n).replicates = (w.proc n).replicates := by
        rw [hv, World.commit_self]
      rcases sendLater_cases (w.proc n).applyCh (w.proc n).node.toApply with hdone | ⟨rest, hrest⟩
      · exact .now ⟨hrun, hcalls, by rw [happliers, hdone]⟩
      · rw [hrest] at happliers
        have hsending : (v.proc n).appliers[a]? = some (.sending rest) := by
          rw [happliers, List.getElem?_set_self ha]
        refine (can_abandon hhalt hsending).imp ?_
        rintro u - ⟨hrun', hcalls', happliers'⟩
        exact ⟨hrun'.trans hrun, hcalls'.trans hcalls, by rw [happliers', happliers, List.set_set]⟩

/-! ## `Replicate` -/

section Call

variable {r : Nat} {c : ReplicateCall}

/-- The call `r` has returned; its goroutines are as they were. -/
def Returned (n : String) (r : Nat) (c : ReplicateCall) (v : World) : Prop :=
  ∃ result, (v.proc n).replicates[r]? = some { c with loc := .returned result }

theorem can_return_applied (h : Halting C n w) (hc : (w.proc n).replicates[r]? = some c)
    {a : Nat} (hloc : c.loc = .applying a) :
    Can C.step (windsDown n) (Returned n r c) w := by
  have ha := (joinable_of_reachable h.reach n).applying c (List.mem_of_getElem? hc) a hloc
  refine (can_settle h ha).bind ?_
  rintro v hr ⟨-, hcalls, happliers⟩
  have hc' : (v.proc n).replicates[r]? = some c := by rw [hcalls, hc]
  have hdone : (v.proc n).appliers[a]? = some .done := by
    rw [happliers, List.getElem?_set_self ha]
  refine can_unaided (h.after hr) (l := .replicateReturn r) rfl
    (by simp only [Proc.step, Proc.replicateReturn, hc', hloc, hdone, if_true]; rfl)
    fun _ => .now ⟨.ok, ?_⟩
  rw [World.commit_self]
  exact List.getElem?_set_self (LeaderLog.lt_length_of_getElem? hc')

theorem can_return_stopped (h : Halting C n w) (hc : (w.proc n).replicates[r]? = some c) :
    Can C.step (windsDown n) (Returned n r c) w := by
  have hr := LeaderLog.lt_length_of_getElem? hc
  cases hloc : c.loc with
  | waiting =>
      refine can_unaided h (l := .replicateStopped r) rfl
        (by simp only [Proc.step, Proc.giveUp, h.stopped, hc, hloc, if_true]; rfl)
        fun _ => .now ⟨.stopped, ?_⟩
      rw [World.commit_self]
      exact List.getElem?_set_self hr
  | commit =>
      refine can_unaided h (l := .replicateCommit r) rfl
        (by simp only [Proc.step, Proc.replicateCommit, hc, hloc, if_true]; rfl)
        fun hhalt => ?_
      set v := w.commit n _ _ with hv
      have hc' : (v.proc n).replicates[r]?
          = some { c with loc := .applying (w.proc n).appliers.length } := by
        rw [hv, World.commit_self]
        exact List.getElem?_set_self hr
      exact (can_return_applied hhalt hc' rfl).imp fun _ _ hreturned => hreturned
  | applying a => exact can_return_applied h hc hloc
  | returned result => exact .now ⟨result, by rw [← hloc]; exact hc⟩

/-- The goroutine for the `k`-th peer has ended. -/
def WorkerEnds (n : String) (r k : Nat) (c : ReplicateCall) (v : World) : Prop :=
  ∃ x : Worker, x.isBusy = false
    ∧ (v.proc n).replicates[r]? = some { c with workers := c.workers.set k x }

theorem can_give_up (h : Halting C n w) (hc : (w.proc n).replicates[r]? = some c)
    {k call : Nat} {args : AppendEntriesArgs} (hk : c.workers[k]? = some (.awaiting call args)) :
    Can C.step (windsDown n) (WorkerEnds n r k c) w := by
  refine can_unaided h (l := .replicateError r k) rfl
    (by simp only [Proc.step, Proc.replicateError, hc, hk]; rfl)
    fun _ => .now ⟨.done false, rfl, ?_⟩
  rw [World.commit_self]
  exact List.getElem?_set_self (LeaderLog.lt_length_of_getElem? hc)

theorem can_end_worker (h : Halting C n w) (hc : (w.proc n).replicates[r]? = some c) {k : Nat}
    (hk : k < c.workers.length) : Can C.step (windsDown n) (WorkerEnds n r k c) w := by
  have hr := LeaderLog.lt_length_of_getElem? hc
  have hget := List.getElem?_eq_getElem hk
  cases hx : c.workers[k] with
  | done ok | received ok =>
      refine .now ⟨c.workers[k], by rw [hx]; rfl, ?_⟩
      rw [List.set_getElem_self]
      exact hc
  | awaiting call args => exact can_give_up h hc (by rw [hget, hx])
  | lock =>
      have hlock : c.workers[k]? = some .lock := by rw [hget, hx]
      have hpeers : (w.proc n).node.peers = C.peers n := (static_of_reachable h.reach).peers n
      have hlt : k < (w.proc n).node.peers.length := by
        rw [hpeers, ← (joinable_of_reachable h.reach n).workers c (List.mem_of_getElem? hc)]
        exact hk
      have hpeer := List.getElem?_eq_getElem hlt
      by_cases hstale : (w.proc n).node.currentTerm ≠ c.term ∨ (w.proc n).node.state ≠ .leader
      · refine can_unaided h (l := .replicateSend r k) rfl
          (by simp only [Proc.step, Proc.replicateSend, hc, hpeer, hlock, if_true, if_pos hstale]
              rfl)
          fun _ => .now ⟨.done false, rfl, ?_⟩
        rw [World.commit_self]
        exact List.getElem?_set_self hr
      · refine can_unaided h (l := .replicateSend r k) rfl
          (by simp only [Proc.step, Proc.replicateSend, hc, hpeer, hlock, if_true, if_neg hstale]
              rfl)
          fun hhalt => ?_
        refine (can_give_up hhalt (k := k) (by
          rw [World.commit_self]
          exact List.getElem?_set_self hr) (List.getElem?_set_self hk)).imp ?_
        rintro u - ⟨x, hover, hx⟩
        exact ⟨x, hover, by rw [hx, List.set_set]⟩

/-- The goroutines of the call. -/
def callWorkers (n : String) (r : Nat) (v : World) : List Worker :=
  ((v.proc n).replicates[r]?.map ReplicateCall.workers).getD []

theorem callWorkers_eq (hc : (w.proc n).replicates[r]? = some c) :
    callWorkers n r w = c.workers := by
  rw [callWorkers, hc]
  rfl

/-- The call comes to its end, with all its goroutines. -/
theorem can_end_call (h : Halting C n w) (hc : (w.proc n).replicates[r]? = some c) :
    Can C.step (windsDown n)
      (fun v => ∃ c', (v.proc n).replicates[r]? = some c' ∧ c'.Over) w := by
  refine (can_return_stopped h hc).bind ?_
  rintro v₁ hr₁ ⟨result, hc₁⟩
  let P (v : World) : Prop := Halting C n v ∧ ∃ c', (v.proc n).replicates[r]? = some c'
    ∧ c'.loc.isReturned = true
  have hall : Can C.step (windsDown n)
      (fun v => P v ∧ ∀ x ∈ callWorkers n r v, x.isBusy = false) v₁ := by
    refine Can.slots ?_ ⟨h.after hr₁, _, hc₁, rfl⟩
    rintro v ⟨hhalt, c', hc', hreturned⟩ k hk
    rw [callWorkers_eq hc'] at hk ⊢
    refine (can_end_worker hhalt hc' hk).imp ?_
    rintro u hr ⟨x, hx, hu⟩
    exact ⟨⟨hhalt.after hr, _, hu, hreturned⟩, x, hx, callWorkers_eq hu⟩
  refine hall.imp ?_
  rintro v - ⟨⟨-, c', hc', hreturned⟩, hdone⟩
  rw [callWorkers_eq hc'] at hdone
  exact ⟨c', hc', hreturned, hdone⟩

end Call

def CallsOver (n : String) (v : World) : Prop := ∀ c ∈ (v.proc n).replicates, c.Over

theorem CallsOver.after (h : CallsOver n w) (hr : Reachable C.step (windsDown n) w v) :
    CallsOver n v := by
  intro c hc
  obtain ⟨r, hr'⟩ := List.mem_iff_getElem?.mp hc
  have hlt := LeaderLog.lt_length_of_getElem? hr'
  rw [calls_length hr] at hlt
  have hold := List.getElem?_eq_getElem hlt
  have hover := h _ (List.mem_of_getElem? hold)
  cases hr'.symm.trans (over_after hr hold hover)
  exact hover

theorem can_end_calls (h : Halting C n w) :
    Can C.step (windsDown n) (fun v => Halting C n v ∧ CallsOver n v) w := by
  let P (v : World) : Prop := Halting C n v
    ∧ (v.proc n).replicates.length = (w.proc n).replicates.length
  let D (r : Nat) (v : World) : Prop := ∃ c, (v.proc n).replicates[r]? = some c ∧ c.Over
  have hall : Can C.step (windsDown n)
      (fun v => P v ∧ ∀ r ∈ List.range (w.proc n).replicates.length, D r v) w := by
    refine Can.all ?_ ⟨h, rfl⟩
    rintro r hr v ⟨hhalt, hlen⟩
    have hlt : r < (v.proc n).replicates.length := hlen ▸ List.mem_range.mp hr
    refine (can_end_call hhalt (List.getElem?_eq_getElem hlt)).imp ?_
    rintro u hru hover
    refine ⟨⟨hhalt.after hru, (calls_length hru).trans hlen⟩, hover, ?_⟩
    rintro j - ⟨c, hc, hcover⟩
    exact ⟨c, over_after hru hc hcover, hcover⟩
  refine hall.imp ?_
  rintro v - ⟨⟨hhalt, hlen⟩, hdone⟩
  refine ⟨hhalt, fun c hc => ?_⟩
  obtain ⟨r, hr⟩ := List.mem_iff_getElem?.mp hc
  have hlt := LeaderLog.lt_length_of_getElem? hr
  obtain ⟨c', hc', hover⟩ := hdone r (List.mem_range.mpr (hlen ▸ hlt))
  cases hr.symm.trans hc'
  exact hover

/-! ## `run` -/

/-- `run` returns from the top of its loop and from every select. -/
theorem can_quit (h : Halting C n w)
    (hrun : (w.proc n).run = .top ∨ (w.proc n).run.selects = true) :
    Can C.step (windsDown n) (fun v => (v.proc n).run = .stopped) w := by
  refine can_unaided h (l := .quit) rfl
    (by simp only [Proc.step, Proc.quit]; rw [if_pos ⟨h.stopped, hrun⟩]) fun _ => .now ?_
  rw [World.commit_self]

/-- The heartbeat goroutine for the `k`-th peer has ended. -/
def BeatEnds (n : String) (ws : List Heartbeat) (k : Nat) (v : World) : Prop :=
  (v.proc n).run = .heartbeats (ws.set k .done)

theorem can_miss (h : Halting C n w) {ws : List Heartbeat} {k call : Nat}
    {args : AppendEntriesArgs} (hrun : (w.proc n).run = .heartbeats ws)
    (hk : ws[k]? = some (.awaiting call args)) :
    Can C.step (windsDown n) (BeatEnds n ws k) w := by
  refine can_unaided h (l := .heartbeatError k) rfl
    (by simp only [Proc.step, Proc.heartbeatError, hrun, hk]; rfl) fun _ => .now ?_
  rw [BeatEnds, World.commit_self]

theorem can_end_beat (h : Halting C n w) {ws : List Heartbeat} {k : Nat}
    (hrun : (w.proc n).run = .heartbeats ws) (hk : k < ws.length) :
    Can C.step (windsDown n) (BeatEnds n ws k) w := by
  have hsched := schedulable_of_reachable h.reach n
  have hget := List.getElem?_eq_getElem hk
  cases hx : ws[k] with
  | done =>
      refine .now ?_
      rw [BeatEnds, hrun, ← hx, List.set_getElem_self]
  | awaiting call args => exact can_miss h hrun (by rw [hget, hx])
  | lock =>
      have hpeers : (w.proc n).node.peers = C.peers n := (static_of_reachable h.reach).peers n
      have hlt : k < (w.proc n).node.peers.length := by
        rw [hpeers, ← hsched.slots ws hrun]
        exact hk
      refine can_unaided h (l := .heartbeat k) rfl
        (by simp only [Proc.step, Proc.heartbeat, hrun, List.getElem?_eq_getElem hlt, hget, hx]
            rfl) fun hhalt => ?_
      refine (can_miss hhalt (k := k) (by rw [World.commit_self])
        (List.getElem?_set_self hk)).imp ?_
      intro u _ hends
      rw [BeatEnds, hends, List.set_set]
  | applying a =>
      have hget' : ws[k]? = some (.applying a) := by rw [hget, hx]
      have ha := hsched.applying ws k a hrun hget'
      refine (can_settle h ha).bind ?_
      rintro v hr ⟨hrun', -, happliers⟩
      rw [hrun] at hrun'
      have hdone : (v.proc n).appliers[a]? = some .done := by
        rw [happliers, List.getElem?_set_self ha]
      refine can_unaided (h.after hr) (l := .heartbeatApplied k) rfl
        (by simp only [Proc.step, Proc.heartbeatApplied, hrun', hget', hdone]; rfl)
        fun _ => .now ?_
      rw [BeatEnds, World.commit_self]

/-- `wg.Wait()` can return. -/
theorem can_end_round (h : Halting C n w) {ws : List Heartbeat}
    (hrun : (w.proc n).run = .heartbeats ws) :
    Can C.step (windsDown n) (fun v => (v.proc n).run = .stopped) w := by
  let P (v : World) : Prop := Halting C n v ∧ ∃ ws', (v.proc n).run = .heartbeats ws'
  have hall : Can C.step (windsDown n)
      (fun v => P v ∧ ∀ x ∈ (v.proc n).run.beats, x = Heartbeat.done) w := by
    refine Can.slots ?_ ⟨h, ws, hrun⟩
    rintro v ⟨hhalt, ws', hrun'⟩ k hk
    rw [hrun'] at hk ⊢
    refine (can_end_beat hhalt hrun' hk).imp ?_
    intro u hr hends
    exact ⟨⟨hhalt.after hr, _, hends⟩, .done, rfl, congrArg RunLoc.beats hends⟩
  refine hall.bind ?_
  rintro v hr ⟨⟨hhalt, ws', hrun'⟩, hdone⟩
  have hjoin : ws'.all (· = .done) = true := by simpa [hrun', RunLoc.beats] using hdone
  refine can_unaided hhalt (l := .joinHeartbeats) rfl
    (by simp only [Proc.step, Proc.joinHeartbeats, hrun', if_pos hjoin]; rfl) fun hhalt' => ?_
  exact can_quit hhalt' (.inr (by rw [World.commit_self]; rfl))

theorem can_end_run (h : Halting C n w) :
    Can C.step (windsDown n) (fun v => (v.proc n).run = .stopped) w := by
  cases hrun : (w.proc n).run with
  | top => exact can_quit h (.inl hrun)
  | loopFollower | counting | loopLeader => exact can_quit h (.inr (by rw [hrun]; rfl))
  | stopped => exact .now hrun
  | heartbeats ws => exact can_end_round h hrun
  | becomeLeader term =>
      exact can_unaided h (l := .becomeLeader) rfl
        (by simp only [Proc.step, Proc.becomeLeader, hrun]; rfl)
        fun hhalt => can_quit hhalt (.inl (by rw [World.commit_self]))
  | stepDown term =>
      exact can_unaided h (l := .stepDown) rfl
        (by simp only [Proc.step, Proc.stepDown, hrun]; rfl)
        fun hhalt => can_quit hhalt (.inl (by rw [World.commit_self]))
  | sendHeartbeats =>
      exact can_unaided h (l := .spawnHeartbeats) rfl
        (by simp only [Proc.step, Proc.spawnHeartbeats, hrun]; rfl)
        fun hhalt => can_end_round hhalt (by rw [World.commit_self])
  | loopCandidate =>
      refine can_unaided h (l := .campaign) rfl
        (by simp only [Proc.step, Proc.campaign, hrun]; rfl) fun hhalt => can_quit hhalt ?_
      rw [World.commit_self]
      dsimp only
      split
      · exact .inl rfl
      · exact .inr rfl

theorem can_end_appliers (h : Halting C n w) :
    Can C.step (windsDown n) (fun v => ((v.proc n).run = (w.proc n).run
      ∧ (v.proc n).replicates = (w.proc n).replicates)
      ∧ ∀ x ∈ (v.proc n).appliers, x = .done) w := by
  let P (v : World) : Prop := Halting C n v ∧ (v.proc n).run = (w.proc n).run
    ∧ (v.proc n).replicates = (w.proc n).replicates
  have hall : Can C.step (windsDown n)
      (fun v => P v ∧ ∀ x ∈ (v.proc n).appliers, x = Applier.done) w := by
    refine Can.slots ?_ ⟨h, rfl, rfl⟩
    rintro v ⟨hhalt, hrun, hcalls⟩ a ha
    refine (can_settle hhalt ha).imp ?_
    rintro u hr ⟨hrun', hcalls', happliers⟩
    exact ⟨⟨hhalt.after hr, hrun'.trans hrun, hcalls'.trans hcalls⟩, .done, rfl, happliers⟩
  exact hall.imp fun _ _ ⟨⟨_, hkept⟩, hdone⟩ => ⟨hkept, hdone⟩

end Can

/-! ## All of it -/

/-- No goroutine of the node is left. -/
structure Proc.AtRest (p : Proc) : Prop where
  run : p.run = .stopped
  calls : ∀ c ∈ p.replicates, c.Over
  appliers : ∀ x ∈ p.appliers, x = .done

/-- Wherever a run has led, also one with crashes and restarts: the goroutines
of a node that was stopped can all end, by steps of their own and without
anybody's help. -/
theorem stop_comes_to_rest {C : Cluster} {n : String} {w : World}
    (h : Reachable C.step anyStep C.init w) (hn : n ∈ C.members)
    (halive : (w.proc n).down = false) (hstopped : (w.proc n).stopped = true) :
    Can C.step (windsDown n) (fun v => (v.proc n).AtRest) w := by
  refine (can_end_calls ⟨h, hn, halive, hstopped⟩).bind ?_
  rintro v₁ - ⟨hhalt₁, hover₁⟩
  refine (can_end_run hhalt₁).bind ?_
  rintro v₂ hr₂ hrun₂
  have hover₂ := hover₁.after hr₂
  refine (can_end_appliers (hhalt₁.after hr₂)).imp ?_
  rintro v₃ - ⟨⟨hrun₃, hcalls₃⟩, hdone⟩
  exact ⟨hrun₃.trans hrun₂, fun c hc => hover₂ c (hcalls₃ ▸ hc), hdone⟩

/-- `a` leads and has a PUT in `Replicate` when it is stopped. -/
theorem stop_comes_to_rest_a :
    ∃ w, Reachable threeNodes.step anyStep threeNodes.init w
      ∧ (w.proc "a").node.state = .leader ∧ (w.proc "a").replicates.length = 1
      ∧ Can threeNodes.step (windsDown "a") (fun v => (v.proc "a").AtRest) w := by
  obtain ⟨w, hr, hstate, hcalls, halive, hstopped⟩ : ∃ w,
      Reachable threeNodes.step anyStep threeNodes.init w
      ∧ (w.proc "a").node.state = .leader ∧ (w.proc "a").replicates.length = 1
      ∧ (w.proc "a").down = false ∧ (w.proc "a").stopped = true :=
    Reachable.of_exec_any (electRun ++ [.local "a" (.replicate [7]), .local "a" .stop])
      (by decide +kernel)
  exact ⟨w, hr, hstate, hcalls, stop_comes_to_rest hr (by decide) halive hstopped⟩

end RaftStore
