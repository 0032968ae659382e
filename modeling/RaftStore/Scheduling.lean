import RaftStore.Lib.Possible
import RaftStore.OneNode
import RaftStore.Peers
import RaftStore.TotalOrder

/-!
# What one node can do by itself

Nothing a goroutine waits for inside its own process holds it up for good:
`applyCommitted` can send, since `RunApplyLoop` takes from the channel
(`can_finish`); `loopLeader` can get through a round of heartbeats, since a
request that is not answered fails (`can_join`). So a node that does not
lead can always come back to the top of `run` (`can_reach_top`), and from
there it can start elections until its term is as high as one likes
(`can_raise`).

All this needs a process that runs (`Up`), and a few facts about the places
where the goroutines of a reachable process can be (`Schedulable`).
-/

namespace RaftStore

open Runs

/-! ## Runs in which nothing stops -/

def ordinary (_ : World) : Action → Prop
  | .local _ l => l ≠ .stop
  | .deliverVote _ => True
  | .deliverAppend _ => True
  | .crash _ => False
  | .restart _ => False

theorem ordinary.noRestart {w : World} {a : Action} (h : ordinary w a) : noRestart w a := by
  cases a with
  | restart => exact h.elim
  | _ => trivial

/-- The process runs, and nobody has called `Stop`. -/
structure Up (C : Cluster) (w : World) (n : String) : Prop where
  member : n ∈ C.members
  alive : (w.proc n).down = false
  running : (w.proc n).stopped = false

def Proc.life (p : Proc) : Bool × Bool := (p.down, p.stopped)

@[simp] theorem Proc.signalStepDown_life (p : Proc) (term : Nat) :
    (p.signalStepDown term).life = p.life := by
  unfold Proc.signalStepDown
  split <;> rfl

@[simp] theorem Proc.digestHeartbeat_life (p : Proc) (ws : List Heartbeat) (k : Nat)
    (peer : String) (args : AppendEntriesArgs) (reply : AppendEntriesReply) :
    (p.digestHeartbeat ws k peer args reply).life = p.life := by
  unfold Proc.digestHeartbeat
  dsimp only
  split
  · exact Proc.signalStepDown_life ..
  · split
    · rfl
    · split <;> rfl

@[simp] theorem Proc.digestReplicate_life (p : Proc) (r : Nat) (c : ReplicateCall) (k : Nat)
    (peer : String) (reply : AppendEntriesReply) :
    (p.digestReplicate r c k peer reply).life = p.life := by
  unfold Proc.digestReplicate
  split
  · exact Proc.signalStepDown_life ..
  · split
    · rfl
    · split <;> rfl

theorem Proc.Move.life {net : Net} {p p' : Proc} {l : Local} {out : Output}
    (h : p.Move net l p' out) (hl : l ≠ .stop) : p'.life = p.life := by
  cases h with
  | stop => exact absurd rfl hl
  | heartbeatReply => exact Proc.digestHeartbeat_life ..
  | replicateReply => exact Proc.digestReplicate_life ..
  | _ => rfl

theorem life_step {C : Cluster} {w w' : World} {a : Action} (h : C.step w a = some w')
    (hok : ordinary w a) (n : String) : (w'.proc n).life = (w.proc n).life := by
  cases C.raw_move h with
  | @«local» m l p out _ hstep =>
      by_cases hn : n = m
      · subst hn
        simpa [World.commit] using (Proc.move hstep).life hok
      · simp [World.commit, hn]
  | @deliverVote _ c =>
      by_cases hn : n = c.dst
      · subst hn
        simp [World.answerVote, Proc.life]
      · simp [World.answerVote, hn]
  | @deliverAppend _ c =>
      by_cases hn : n = c.dst
      · subst hn
        simp only [World.answerAppend, Function.update_self]
        split <;> rfl
      · simp [World.answerAppend, hn]
  | crash => exact hok.elim
  | restart => exact hok.elim

theorem Up.after {C : Cluster} {w w' : World} {n : String} (h : Up C w n)
    (hr : Reachable C.step ordinary w w') : Up C w' n := by
  refine hr.invariant (P := fun w' => Up C w' n) h ?_
  rintro v a v' - ⟨hn, halive, hrunning⟩ hok hstep
  obtain ⟨hdown, hstopped⟩ := Prod.mk.inj (life_step hstep hok n)
  exact ⟨hn, hdown.trans halive, hstopped.trans hrunning⟩

/-! ## Where the goroutines can be -/

structure Schedulable (peers : List String) (p : Proc) : Prop where
  /-- a call of `applyCommitted` that sends has something to send -/
  sending : ∀ (a : Nat) rest, p.appliers[a]? = some (.sending rest) →
    rest ≠ [] ∧ p.applyCh.isSome = true
  slots : ∀ ws, p.run = .heartbeats ws → ws.length = peers.length
  applying : ∀ ws (k a : Nat), p.run = .heartbeats ws → ws[k]? = some (.applying a) →
    a < p.appliers.length
  stopped : p.run = .stopped → p.stopped = true

theorem schedulable_new (n : String) (peers : List String) (applyCh : Bool) :
    Schedulable peers (newProc n peers applyCh) where
  sending := nofun
  slots := nofun
  applying := nofun
  stopped := nofun

theorem sendLater_sends {applyCh : Option (List Command)} {es rest : List LogEntry}
    (h : Proc.sendLater applyCh es = .sending rest) :
    rest ≠ [] ∧ applyCh.isSome = true := by
  unfold Proc.sendLater at h
  split at h
  · cases h
  · rename_i hno
    cases h
    exact ⟨fun hnil => hno (.inr hnil),
      Option.isSome_iff_ne_none.mpr fun hnone => hno (.inl hnone)⟩

theorem sendLater_cases (applyCh : Option (List Command)) (es : List LogEntry) :
    Proc.sendLater applyCh es = .done ∨ ∃ rest, Proc.sendLater applyCh es = .sending rest := by
  unfold Proc.sendLater
  split
  · exact .inl rfl
  · exact .inr ⟨es, rfl⟩

theorem Schedulable.sending_move {peers : List String} {p p' : Proc} {l : Local}
    (h : Schedulable peers p)
    (hmove : FeedMove p p' l) {a : Nat} {rest : List LogEntry}
    (ha : p'.appliers[a]? = some (.sending rest)) :
    rest ≠ [] ∧ p'.applyCh.isSome = true := by
  cases hmove with
  | same hfeed =>
      rw [show p'.applyCh = p.applyCh from congrArg Feed.applyCh hfeed]
      exact h.sending a rest ((congrArg (·.appliers[a]?) hfeed).symm.trans ha)
  | start hfeed =>
      rw [show p'.applyCh = p.applyCh from congrArg Feed.applyCh hfeed]
      refine h.sending a rest ?_
      rw [show p'.appliers = p.appliers ++ [.start] from congrArg Feed.appliers hfeed] at ha
      rcases Nat.lt_or_ge a p.appliers.length with hlt | hge
      · rwa [List.getElem?_append_left hlt] at ha
      · rw [List.getElem?_append_right hge] at ha
        cases List.mem_singleton.mp (List.mem_of_getElem? ha)
  | collect _ hfeed =>
      rw [show p'.applyCh = p.applyCh from congrArg Feed.applyCh hfeed]
      rw [show p'.appliers = _ from congrArg Feed.appliers hfeed] at ha
      rcases sending_set ha with ⟨-, hx⟩ | ⟨-, hold⟩
      · exact sendLater_sends hx
      · exact h.sending a rest hold
  | send _ hqueue hfeed =>
      rw [show p'.applyCh = some _ from congrArg Feed.applyCh hfeed]
      rw [show p'.appliers = _ from congrArg Feed.appliers hfeed] at ha
      rcases sending_set ha with ⟨-, hx⟩ | ⟨-, hold⟩
      · exact ⟨(sendLater_sends hx).1, rfl⟩
      · exact ⟨(h.sending a rest hold).1, rfl⟩
  | applyLoop hqueue hfeed =>
      rw [show p'.applyCh = some _ from congrArg Feed.applyCh hfeed]
      rw [show p'.appliers = _ from congrArg Feed.appliers hfeed] at ha
      exact ⟨(h.sending a rest ha).1, rfl⟩
  | abandon _ hfeed =>
      rw [show p'.applyCh = p.applyCh from congrArg Feed.applyCh hfeed]
      rw [show p'.appliers = _ from congrArg Feed.appliers hfeed] at ha
      rcases sending_set ha with ⟨-, hx⟩ | ⟨-, hold⟩
      · cases hx
      · exact h.sending a rest hold

theorem getElem?_set_applying {ws : List Heartbeat} {i k a : Nat} {x : Heartbeat}
    (h : (ws.set i x)[k]? = some (.applying a)) :
    x = .applying a ∨ ws[k]? = some (.applying a) := by
  rw [List.getElem?_set] at h
  split at h
  · split at h
    · exact .inl (Option.some.inj h)
    · cases h
  · exact .inr h

/-- A heartbeat goroutine waits for a call of `applyCommitted` that it waited
for before, or that it has just started. -/
theorem Proc.digestHeartbeat_applying {p : Proc} {ws ws' : List Heartbeat} {k i a : Nat}
    {peer : String} {args : AppendEntriesArgs} {reply : AppendEntriesReply}
    (hrun : (p.digestHeartbeat ws i peer args reply).run = .heartbeats ws')
    (hk : ws'[k]? = some (.applying a)) :
    ws[k]? = some (.applying a)
      ∨ a < (p.digestHeartbeat ws i peer args reply).appliers.length := by
  have hdone : RunLoc.heartbeats (ws.set i .done) = .heartbeats ws' →
      ws[k]? = some (.applying a) := by
    intro heq
    cases heq
    exact (getElem?_set_applying hk).resolve_left (by simp)
  unfold Proc.digestHeartbeat at hrun ⊢
  dsimp only at hrun ⊢
  split at hrun
  · left
    rw [Proc.signalStepDown_run] at hrun
    exact hdone hrun
  · split at hrun
    · exact .inl (hdone hrun)
    · rename_i hterm hentries
      split at hrun
      · rename_i hsuccess
        cases hrun
        rw [if_neg hterm, if_neg hentries, if_pos hsuccess]
        rcases getElem?_set_applying hk with heq | hold
        · cases heq
          exact .inr (by simp [Proc.startApply])
        · exact .inl hold
      · exact .inl (hdone hrun)

theorem Proc.countVote_run_ne (p : Proc) (c : Candidacy) (k : Nat) (granted : Bool)
    (term : Nat) : (∀ ws, (p.countVote c k granted term).run ≠ .heartbeats ws)
      ∧ (p.countVote c k granted term).run ≠ .stopped := by
  unfold Proc.countVote
  dsimp only
  split
  · simp
  · split
    · simp
    · split <;> simp

theorem Proc.Move.applying {net : Net} {p p' : Proc} {l : Local} {out : Output}
    (h : p.Move net l p' out) {ws' : List Heartbeat} {k a : Nat}
    (hrun' : p'.run = .heartbeats ws') (hk : ws'[k]? = some (.applying a)) :
    (∃ ws, p.run = .heartbeats ws ∧ ws[k]? = some (.applying a))
      ∨ a < p'.appliers.length := by
  have hset : ∀ {ws : List Heartbeat} {i : Nat} {x : Heartbeat},
      p.run = .heartbeats ws → x ≠ .applying a →
      RunLoc.heartbeats (ws.set i x) = .heartbeats ws' →
      ∃ ws, p.run = .heartbeats ws ∧ ws[k]? = some (.applying a) := by
    intro ws i x hrun hx heq
    cases heq
    exact ⟨ws, hrun, (getElem?_set_applying hk).resolve_left hx⟩
  cases h with
  | heartbeatReply hrun =>
      exact (Proc.digestHeartbeat_applying hrun' hk).imp_left fun hold => ⟨_, hrun, hold⟩
  | heartbeat hrun _ _ _ hws' =>
      subst hws'
      exact .inl (hset hrun (by simp) hrun')
  | heartbeatError hrun => exact .inl (hset hrun (by simp) hrun')
  | heartbeatApplied hrun => exact .inl (hset hrun (by simp) hrun')
  | spawnHeartbeats =>
      cases hrun'
      obtain ⟨_, -, hlock⟩ := List.mem_map.mp (List.mem_of_getElem? hk)
      cases hlock
  | load | campaign | tick =>
      dsimp only at hrun'
      split at hrun' <;> cases hrun'
  | voteReply => exact absurd hrun' ((Proc.countVote_run_ne ..).1 _)
  | voteError => exact absurd hrun' ((Proc.countVote_run_ne ..).1 _)
  | replicateReply => exact .inl ⟨ws', (Proc.digestReplicate_run ..) ▸ hrun', hk⟩
  | replicate | replicateStale | replicateSend | replicateError | receiveAck | giveUp
    | replicateCommit | replicateReturn | collect | send | applyLoop | stop | abandon =>
      exact .inl ⟨ws', hrun', hk⟩
  | _ => cases hrun'

theorem Proc.Move.slots {net : Net} {p p' : Proc} {l : Local} {out : Output}
    (h : p.Move net l p' out) {ws' : List Heartbeat} (hrun' : p'.run = .heartbeats ws') :
    ws'.length = p.node.peers.length
      ∨ ∃ ws, p.run = .heartbeats ws ∧ ws'.length = ws.length := by
  cases run_move h with
  | same hloc => exact .inr ⟨ws', hloc ▸ hrun', rfl⟩
  | spawn _ hloc =>
      cases hloc.symm.trans hrun'
      exact .inl (List.length_map ..)
  | beat hrun _ hloc =>
      cases hloc.symm.trans hrun'
      exact .inr ⟨_, hrun, List.length_set ..⟩
  | away hplain =>
      rw [hrun'] at hplain
      cases hplain
  | campaign _ _ _ _ hloc => cases hloc.symm.trans hrun'
  | counted _ _ _ hloc => cases hloc.symm.trans hrun'
  | won _ _ _ _ _ hloc => cases hloc.symm.trans hrun'
  | lead _ hloc => cases hloc.symm.trans hrun'
  | joined _ hloc => cases hloc.symm.trans hrun'

theorem Proc.Move.run_stopped {net : Net} {p p' : Proc} {l : Local} {out : Output}
    (h : p.Move net l p' out) (hrun' : p'.run = .stopped) :
    p.run = .stopped ∨ l = .quit := by
  cases h with
  | quit => exact .inr rfl
  | heartbeatReply =>
      obtain ⟨ws', hws'⟩ := Proc.digestHeartbeat_waits ..
      cases hws'.symm.trans hrun'
  | load | campaign | tick =>
      dsimp only at hrun'
      split at hrun' <;> cases hrun'
  | voteReply => exact absurd hrun' (Proc.countVote_run_ne ..).2
  | voteError => exact absurd hrun' (Proc.countVote_run_ne ..).2
  | replicateReply => exact .inl ((Proc.digestReplicate_run ..) ▸ hrun')
  | replicate | replicateStale | replicateSend | replicateError | receiveAck | giveUp
    | replicateCommit | replicateReturn | collect | send | applyLoop | stop | abandon =>
      exact .inl hrun'
  | _ => cases hrun'

theorem FeedMove.appliers_le {p p' : Proc} {l : Local} (h : FeedMove p p' l) :
    p.appliers.length ≤ p'.appliers.length := by
  cases h with
  | same hfeed => exact (congrArg (·.appliers.length) hfeed).ge
  | start hfeed =>
      rw [show p'.appliers = p.appliers ++ [.start] from congrArg Feed.appliers hfeed]
      simp
  | collect _ hfeed | send _ _ hfeed | abandon _ hfeed =>
      exact ((congrArg (·.appliers.length) hfeed).trans (List.length_set ..)).ge
  | applyLoop _ hfeed => exact (congrArg (·.appliers.length) hfeed).ge

section Invariant

variable {peers : List String} {p p' : Proc}

theorem Schedulable.move {net : Net} {l : Local} {out : Output} (h : Schedulable peers p)
    (hpeers : p.node.peers = peers) (hstep : p.step net l = some (p', out)) :
    Schedulable peers p' := by
  have hmove := Proc.move hstep
  have hfeed := feed_move hmove
  refine ⟨fun a rest ha => h.sending_move hfeed ha, ?_, ?_, ?_⟩
  · intro ws' hrun'
    rcases hmove.slots hrun' with hlen | ⟨ws, hrun, hlen⟩
    · rw [hlen, hpeers]
    · exact hlen.trans (h.slots ws hrun)
  · intro ws' k a hrun' hk
    rcases hmove.applying hrun' hk with ⟨ws, hrun, hold⟩ | hlt
    · exact Nat.lt_of_lt_of_le (h.applying ws k a hrun hold) hfeed.appliers_le
    · exact hlt
  · intro hrun'
    rcases hmove.run_stopped hrun' with hrun | rfl
    · by_cases hl : l = .stop
      · subst hl
        cases hstep
        rfl
      · rw [(Prod.mk.inj (hmove.life hl)).2]
        exact h.stopped hrun
    · simp only [Proc.step, Proc.quit] at hstep
      split at hstep
      · rename_i hquit
        cases hstep
        exact hquit.1
      · cases hstep

theorem Schedulable.startApply (h : Schedulable peers p) : Schedulable peers p.startApply where
  sending a rest ha := by
    refine h.sending a rest ?_
    rcases Nat.lt_or_ge a p.appliers.length with hlt | hge
    · rwa [show p.startApply.appliers = p.appliers ++ [.start] from rfl,
        List.getElem?_append_left hlt] at ha
    · rw [show p.startApply.appliers = p.appliers ++ [.start] from rfl,
        List.getElem?_append_right hge] at ha
      cases List.mem_singleton.mp (List.mem_of_getElem? ha)
  slots := h.slots
  applying ws k a hrun hk :=
    Nat.lt_of_lt_of_le (h.applying ws k a hrun hk) (by simp [Proc.startApply])
  stopped := h.stopped

end Invariant

theorem schedulable_of_reachable {C : Cluster} {ok : World → Action → Prop} {w : World}
    (h : Reachable C.step ok C.init w) (n : String) :
    Schedulable (C.peers n) (w.proc n) := by
  revert n
  refine h.invariant (P := fun w => ∀ n, Schedulable (C.peers n) (w.proc n))
    (fun n => schedulable_new ..) ?_
  intro w a w' hr hinv hok hstep n
  have hstatic := static_of_reachable hr
  cases C.raw_move hstep with
  | @«local» m l p out _ hlocal =>
      by_cases hn : n = m
      · subst hn
        simpa [World.commit] using (hinv n).move (hstatic.peers n) hlocal
      · simpa [World.commit, hn] using hinv n
  | @deliverVote _ c =>
      by_cases hn : n = c.dst
      · subst hn
        obtain ⟨hsending, hslots, happlying, hstopped⟩ := hinv c.dst
        simp only [World.answerVote, Function.update_self]
        exact ⟨hsending, hslots, happlying, hstopped⟩
      · simpa [World.answerVote, hn] using hinv n
  | @deliverAppend _ c =>
      by_cases hn : n = c.dst
      · subst hn
        obtain ⟨hsending, hslots, happlying, hstopped⟩ := hinv c.dst
        have hnode : ∀ node, Schedulable (C.peers c.dst) { w.proc c.dst with node := node } :=
          fun _ => ⟨hsending, hslots, happlying, hstopped⟩
        simp only [World.answerAppend, Function.update_self]
        split
        · exact (hnode _).startApply
        · exact hnode _
      · simpa [World.answerAppend, hn] using hinv n
  | @crash m =>
      by_cases hn : n = m
      · subst hn
        obtain ⟨hsending, hslots, happlying, hstopped⟩ := hinv n
        simp only [World.setProc, Function.update_self]
        exact ⟨hsending, hslots, happlying, hstopped⟩
      · simpa [World.setProc, hn] using hinv n
  | @restart m =>
      by_cases hn : n = m
      · subst hn
        simpa [World.restart] using schedulable_new ..
      · simpa [World.restart, hn] using hinv n

/-! ## Steps of one node -/

/-- A reachable state in which this process runs. -/
structure Live (C : Cluster) (n : String) (w : World) : Prop where
  reach : Reachable C.step noRestart C.init w
  up : Up C w n

theorem Live.after {C : Cluster} {n : String} {w v : World} (h : Live C n w)
    (hr : Reachable C.step ordinary w v) : Live C n v :=
  ⟨h.reach.trans (hr.mono fun _ _ ha => ha.noRestart), h.up.after hr⟩

/-- The other processes are as they were. -/
def Own (n : String) (w v : World) : Prop := ∀ m, m ≠ n → v.proc m = w.proc m

theorem Own.refl (n : String) (w : World) : Own n w w := fun _ _ => rfl

theorem Own.trans {n : String} {w v u : World} (h : Own n w v) (h' : Own n v u) : Own n w u :=
  fun m hm => (h' m hm).trans (h m hm)

@[simp] theorem World.commit_self (w : World) (n : String) (p : Proc) (out : Output) :
    (w.commit n p out).proc n = p := by
  simp [World.commit]

theorem own_commit (w : World) (n : String) (p : Proc) (out : Output) :
    Own n w (w.commit n p out) := fun m hm => by simp [World.commit, hm]

section Can

variable {C : Cluster} {n : String} {w : World} {P : World → Prop}

theorem can_local (h : Live C n w) {l : Local} (hl : l ≠ .stop) {p : Proc} {out : Output}
    (hstep : (w.proc n).step w.net l = some (p, out))
    (hnext : Live C n (w.commit n p out) → Can C.step ordinary P (w.commit n p out)) :
    Can C.step ordinary P w := by
  have hcluster : C.step w (.local n l) = some (w.commit n p out) := by
    simp [Cluster.step, h.up.member, h.up.alive, hstep]
  have hok : ordinary w (.local n l) := hl
  exact .step hok hcluster (hnext (h.after ⟨_, .step .init hok hcluster⟩))

/-! ## `applyCommitted` -/

/-- The process without what `applyCommitted` and `RunApplyLoop` change. -/
def Proc.frozen (p : Proc) : Proc :=
  { p with
    node := { p.node with lastApplied := 0 }
    appliers := []
    applyCh := none
    collected := []
    sends := []
    applied := [] }

/-- `RunApplyLoop` empties the channel. -/
theorem can_drain (h : Live C n w) {queue : List Command}
    (hqueue : (w.proc n).applyCh = some queue) :
    Can C.step ordinary (fun v => Own n w v ∧ (v.proc n).frozen = (w.proc n).frozen
      ∧ (v.proc n).appliers = (w.proc n).appliers ∧ (v.proc n).applyCh = some []) w := by
  induction queue generalizing w with
  | nil => exact .now ⟨.refl n w, rfl, rfl, hqueue⟩
  | cons cmd queue ih =>
      refine can_local h (l := .applyLoop) (by simp)
        (by simp only [Proc.step, Proc.applyLoop, hqueue]; rfl) fun hlive => ?_
      refine (ih hlive (by simp)).imp ?_
      rintro v - ⟨hown, hfrozen, happliers, hch⟩
      simp only [World.commit_self] at hfrozen happliers
      exact ⟨(own_commit _ _ _ _).trans hown, hfrozen, happliers, hch⟩

/-- A call that is sending can send its next entry. -/
theorem can_send (h : Live C n w) {a : Nat} {entry : LogEntry} {rest : List LogEntry}
    (ha : (w.proc n).appliers[a]? = some (.sending (entry :: rest))) :
    Can C.step ordinary (fun v => Own n w v ∧ (v.proc n).frozen = (w.proc n).frozen
      ∧ (v.proc n).appliers
        = (w.proc n).appliers.set a (if rest = [] then .done else .sending rest)) w := by
  have hch := ((schedulable_of_reachable h.reach n).sending a _ ha).2
  obtain ⟨queue, hqueue⟩ := Option.isSome_iff_exists.mp hch
  refine (can_drain h hqueue).bind ?_
  rintro v hr ⟨hown, hfrozen, happliers, hempty⟩
  have ha' : (v.proc n).appliers[a]? = some (.sending (entry :: rest)) := happliers ▸ ha
  refine can_local (h.after hr) (l := .send a) (by simp)
    (by simp only [Proc.step, Proc.send, ha', hempty]; rfl) fun _ => ?_
  refine .now ⟨hown.trans (own_commit _ _ _ _), ?_, ?_⟩
  · rw [← hfrozen, World.commit_self]
    rfl
  · simp [Proc.sendLater, happliers]

/-- A call of `applyCommitted` is through. -/
def Finishes (n : String) (w : World) (a : Nat) (v : World) : Prop :=
  Own n w v ∧ (v.proc n).frozen = (w.proc n).frozen
    ∧ (v.proc n).appliers.length = (w.proc n).appliers.length
    ∧ (v.proc n).appliers[a]? = some .done

theorem can_send_all (h : Live C n w) {a : Nat} {rest : List LogEntry}
    (ha : (w.proc n).appliers[a]? = some (.sending rest)) :
    Can C.step ordinary (Finishes n w a) w := by
  induction rest generalizing w with
  | nil => exact absurd rfl ((schedulable_of_reachable h.reach n).sending a [] ha).1
  | cons entry rest ih =>
      have hlt := LeaderLog.lt_length_of_getElem? ha
      refine (can_send h ha).bind ?_
      rintro v hr ⟨hown, hfrozen, happliers⟩
      by_cases hrest : rest = []
      · refine .now ⟨hown, hfrozen, ?_, ?_⟩ <;> rw [happliers]
        · exact List.length_set ..
        · rw [List.getElem?_set_self hlt, if_pos hrest]
      · rw [if_neg hrest] at happliers
        refine (ih (h.after hr) (by rw [happliers, List.getElem?_set_self hlt])).imp ?_
        rintro u - ⟨hown', hfrozen', hlen, hdone⟩
        exact ⟨hown.trans hown', hfrozen'.trans hfrozen,
          hlen.trans (by rw [happliers, List.length_set]), hdone⟩

/-- Every call of `applyCommitted` can come to its end. -/
theorem can_finish (h : Live C n w) {a : Nat} (ha : a < (w.proc n).appliers.length) :
    Can C.step ordinary (Finishes n w a) w := by
  have hget := List.getElem?_eq_getElem ha
  cases hx : (w.proc n).appliers[a] with
  | done => exact .now ⟨.refl n w, rfl, rfl, by rw [hget, hx]⟩
  | sending rest => exact can_send_all h (by rw [hget, hx])
  | start =>
      have hstart : (w.proc n).appliers[a]? = some .start := by rw [hget, hx]
      refine can_local h (l := .collect a) (by simp)
        (by simp only [Proc.step, Proc.collect, hstart]; rfl) fun hlive => ?_
      set v := w.commit n _ _ with hv
      have hfrozen : (v.proc n).frozen = (w.proc n).frozen := by
        rw [hv, World.commit_self]
        rfl
      have hlen : (v.proc n).appliers.length = (w.proc n).appliers.length := by
        simp [hv]
      have hnew : (v.proc n).appliers[a]?
          = some (Proc.sendLater (w.proc n).applyCh (w.proc n).node.toApply) := by
        rw [hv, World.commit_self]
        exact List.getElem?_set_self ha
      have hown : Own n w v := own_commit _ _ _ _
      rcases sendLater_cases (w.proc n).applyCh (w.proc n).node.toApply with hdone | ⟨rest, hrest⟩
      · exact .now ⟨hown, hfrozen, hlen, by rw [hnew, hdone]⟩
      · refine (can_send_all hlive (by rw [hnew, hrest])).imp ?_
        rintro u - ⟨hown', hfrozen', hlen', hdone⟩
        exact ⟨hown.trans hown', hfrozen'.trans hfrozen, hlen'.trans hlen, hdone⟩

/-! ## `loopLeader` -/

/-- The heartbeat goroutine for the `k`-th peer is through, and nothing that
elections look at has changed. -/
def Beats (n : String) (w : World) (ws : List Heartbeat) (k : Nat) (v : World) : Prop :=
  Own n w v ∧ (v.proc n).node.core = (w.proc n).node.core
    ∧ (v.proc n).run = .heartbeats (ws.set k .done)

theorem can_error (h : Live C n w) {ws : List Heartbeat} {k call : Nat}
    {args : AppendEntriesArgs} (hrun : (w.proc n).run = .heartbeats ws)
    (hk : ws[k]? = some (.awaiting call args)) :
    Can C.step ordinary (Beats n w ws k) w := by
  refine can_local h (l := .heartbeatError k) (by simp)
    (by simp only [Proc.step, Proc.heartbeatError, hrun, hk]; rfl) fun _ => ?_
  exact .now ⟨own_commit _ _ _ _, by simp, by simp⟩

theorem can_beat (h : Live C n w) {ws : List Heartbeat} {k : Nat}
    (hrun : (w.proc n).run = .heartbeats ws) (hk : k < ws.length) :
    Can C.step ordinary (Beats n w ws k) w := by
  have hsched := schedulable_of_reachable h.reach n
  have hget := List.getElem?_eq_getElem hk
  cases hx : ws[k] with
  | done =>
      refine .now ⟨.refl n w, rfl, ?_⟩
      rw [hrun, ← hx, List.set_getElem_self]
  | awaiting call args => exact can_error h hrun (by rw [hget, hx])
  | lock =>
      have hpeers := (static_of_reachable (h.reach.mono fun _ _ ha => ha.blank)).peers n
      have hlt : k < (w.proc n).node.peers.length := by
        rw [show (w.proc n).node.peers = C.peers n from hpeers, ← hsched.slots ws hrun]
        exact hk
      refine can_local h (l := .heartbeat k) (by simp)
        (by simp only [Proc.step, Proc.heartbeat, hrun, List.getElem?_eq_getElem hlt, hget, hx]
            rfl) fun hlive => ?_
      refine (can_error hlive (k := k) (by rw [World.commit_self])
        (List.getElem?_set_self hk)).imp ?_
      rintro u - ⟨hown, hcore, hrun'⟩
      refine ⟨(own_commit _ _ _ _).trans hown, hcore.trans (by rw [World.commit_self]), ?_⟩
      rw [hrun', List.set_set]
  | applying a =>
      have hget' : ws[k]? = some (.applying a) := by rw [hget, hx]
      refine (can_finish h (hsched.applying ws k a hrun hget')).bind ?_
      rintro v hr ⟨hown, hfrozen, -, hdone⟩
      have hrun' : (v.proc n).run = .heartbeats ws :=
        (congrArg Proc.run hfrozen).trans hrun
      refine can_local (h.after hr) (l := .heartbeatApplied k) (by simp)
        (by simp only [Proc.step, Proc.heartbeatApplied, hrun', hget', hdone]; rfl)
        fun _ => ?_
      refine .now ⟨hown.trans (own_commit _ _ _ _), ?_, by rw [World.commit_self]⟩
      rw [World.commit_self]
      exact congrArg (fun p => p.node.core) hfrozen

/-- The heartbeat goroutines of the round that `loopLeader` waits for. -/
def RunLoc.beats : RunLoc → List Heartbeat
  | .heartbeats ws => ws
  | _ => []

/-- A round of heartbeats can end, whatever has been lost. -/
theorem can_join (h : Live C n w) {ws : List Heartbeat}
    (hrun : (w.proc n).run = .heartbeats ws) :
    Can C.step ordinary (fun v => Own n w v
      ∧ (v.proc n).node.core = (w.proc n).node.core ∧ (v.proc n).run = .loopLeader) w := by
  let P (v : World) : Prop := Live C n v ∧ Own n w v
    ∧ (v.proc n).node.core = (w.proc n).node.core ∧ ∃ ws', (v.proc n).run = .heartbeats ws'
  have hall : Can C.step ordinary
      (fun v => P v ∧ ∀ x ∈ (v.proc n).run.beats, x = Heartbeat.done) w := by
    refine Can.slots ?_ ⟨h, .refl n w, rfl, ws, hrun⟩
    rintro v ⟨hlive, hown, hcore, ws', hrun'⟩ k hk
    rw [hrun'] at hk
    refine (can_beat hlive hrun' hk).imp ?_
    rintro u hr ⟨hown', hcore', hrun''⟩
    refine ⟨⟨hlive.after hr, hown.trans hown', hcore'.trans hcore, _, hrun''⟩, .done, rfl, ?_⟩
    rw [hrun', hrun'']
    rfl
  refine hall.bind ?_
  rintro v hr ⟨⟨hlive, hown, hcore, ws', hrun'⟩, hdone⟩
  have hjoin : ws'.all (· = .done) = true := by simpa [hrun', RunLoc.beats] using hdone
  refine can_local hlive (l := .joinHeartbeats) (by simp)
    (by simp only [Proc.step, Proc.joinHeartbeats, hrun', if_pos hjoin]; rfl) fun _ => ?_
  exact .now ⟨hown.trans (own_commit _ _ _ _), by rw [World.commit_self]; exact hcore,
    by rw [World.commit_self]⟩

/-! ## `run` -/

/-- Since `w`, only `n` has moved; its log is as it was, and it does not lead. -/
structure Resting (n : String) (w v : World) : Prop where
  own : Own n w v
  log : (v.proc n).node.log = (w.proc n).node.log
  state : (v.proc n).node.state ≠ .leader

theorem Resting.trans {v u : World} (h : Resting n w v) (h' : Resting n v u) : Resting n w u :=
  ⟨h.own.trans h'.own, h'.log.trans h.log, h'.state⟩

theorem resting_commit {p : Proc} {out : Output}
    (hlog : p.node.log = (w.proc n).node.log) (hstate : p.node.state ≠ .leader) :
    Resting n w (w.commit n p out) :=
  ⟨own_commit _ _ _ _, by rw [World.commit_self, hlog], by rwa [World.commit_self]⟩

theorem resting_of_core {v : World} (hown : Own n w v)
    (hcore : (v.proc n).node.core = (w.proc n).node.core)
    (hstate : (w.proc n).node.state ≠ .leader) : Resting n w v where
  own := hown
  log := congrArg Core.log hcore
  state := by
    rw [show (v.proc n).node.state = (w.proc n).node.state from congrArg Core.state hcore]
    exact hstate

def AtTop (n : String) (w v : World) : Prop := Resting n w v ∧ (v.proc n).run = .top

/-- `loopLeader` finds at its next tick that the node does not lead any more. -/
theorem can_leave (h : Live C n w) (hstate : (w.proc n).node.state ≠ .leader)
    (hrun : (w.proc n).run = .loopLeader) : Can C.step ordinary (AtTop n w) w := by
  refine can_local h (l := .tick) (by simp)
    (by simp only [Proc.step, Proc.tick, hrun, if_neg hstate]; rfl) fun _ => ?_
  exact .now ⟨resting_commit rfl hstate, by rw [World.commit_self]⟩

theorem can_leave_round (h : Live C n w) (hstate : (w.proc n).node.state ≠ .leader)
    {ws : List Heartbeat} (hrun : (w.proc n).run = .heartbeats ws) :
    Can C.step ordinary (AtTop n w) w := by
  refine (can_join h hrun).bind ?_
  rintro v hr ⟨hown, hcore, hrun'⟩
  have hrest := resting_of_core hown hcore hstate
  exact (can_leave (h.after hr) hrest.state hrun').imp
    fun u _ ⟨hrest', htop⟩ => ⟨hrest.trans hrest', htop⟩

theorem can_lose (h : Live C n w) (hstate : (w.proc n).node.state ≠ .leader)
    {c : Candidacy} (hrun : (w.proc n).run = .counting c) :
    Can C.step ordinary (fun v => AtTop n w v ∧ (v.proc n).node = (w.proc n).node) w := by
  refine can_local h (l := .electionTimeout) (by simp)
    (by simp only [Proc.step, Proc.electionTimeout, hrun]; rfl) fun _ => ?_
  exact .now ⟨⟨resting_commit rfl hstate, by rw [World.commit_self]⟩, by rw [World.commit_self]⟩

/-- An election that nobody answers. -/
theorem can_fail (h : Live C n w) (hstate : (w.proc n).node.state ≠ .leader)
    (hrun : (w.proc n).run = .loopCandidate) :
    Can C.step ordinary (fun v => AtTop n w v
      ∧ (v.proc n).node = (w.proc n).node.startElection) w := by
  refine can_local h (l := .campaign) (by simp)
    (by simp only [Proc.step, Proc.campaign, hrun]; rfl) fun hlive => ?_
  set v := w.commit n _ _ with hv
  have hnode : (v.proc n).node = (w.proc n).node.startElection := by rw [hv, World.commit_self]
  have hrest : Resting n w v := resting_commit rfl hstate
  have hrun' : (v.proc n).run = .top ∨ ∃ c, (v.proc n).run = .counting c := by
    rw [hv, World.commit_self]
    dsimp only
    split
    · exact .inl rfl
    · exact .inr ⟨_, rfl⟩
  rcases hrun' with htop | ⟨c, hc⟩
  · exact .now ⟨⟨hrest, htop⟩, hnode⟩
  · refine (can_lose hlive hrest.state hc).imp ?_
    rintro u - ⟨⟨hrest', htop⟩, hnode'⟩
    exact ⟨⟨hrest.trans hrest', htop⟩, hnode'.trans hnode⟩

theorem can_reach_top (h : Live C n w) (hstate : (w.proc n).node.state ≠ .leader)
    (hrun : ∀ term, (w.proc n).run ≠ .becomeLeader term) :
    Can C.step ordinary (AtTop n w) w := by
  cases hloc : (w.proc n).run with
  | top => exact .now ⟨⟨.refl n w, rfl, hstate⟩, hloc⟩
  | loopFollower =>
      refine can_local h (l := .timeout) (by simp)
        (by simp only [Proc.step, Proc.timeout, hloc]; rfl) fun _ => ?_
      exact .now ⟨resting_commit rfl (by simp [Node.electionTimeout]),
        by rw [World.commit_self]⟩
  | loopCandidate =>
      exact (can_fail h hstate hloc).imp fun _ _ htop => htop.1
  | counting c => exact (can_lose h hstate hloc).imp fun _ _ htop => htop.1
  | becomeLeader term => exact absurd hloc (hrun term)
  | loopLeader => exact can_leave h hstate hloc
  | sendHeartbeats =>
      refine can_local h (l := .spawnHeartbeats) (by simp)
        (by simp only [Proc.step, Proc.spawnHeartbeats, hloc]; rfl) fun hlive => ?_
      set v := w.commit n _ _ with hv
      have hrest : Resting n w v := resting_commit rfl hstate
      refine (can_leave_round hlive hrest.state (by rw [hv, World.commit_self])).imp ?_
      rintro u - ⟨hrest', htop⟩
      exact ⟨hrest.trans hrest', htop⟩
  | heartbeats ws => exact can_leave_round h hstate hloc
  | stepDown term =>
      refine can_local h (l := .stepDown) (by simp)
        (by simp only [Proc.step, Proc.stepDown, hloc]; rfl) fun _ => ?_
      exact .now ⟨resting_commit (by simp) (by simp), by rw [World.commit_self]⟩
  | stopped =>
      have hstopped := (schedulable_of_reachable h.reach n).stopped hloc
      rw [h.up.running] at hstopped
      cases hstopped

/-- The node is about to start an election. -/
structure Standing (n : String) (w v : World) : Prop where
  own : Own n w v
  log : (v.proc n).node.log = (w.proc n).node.log
  state : (v.proc n).node.state = .candidate
  run : (v.proc n).run = .loopCandidate

theorem can_stand (h : Live C n w) (hstate : (w.proc n).node.state ≠ .leader)
    (hrun : (w.proc n).run = .top) :
    Can C.step ordinary (fun v => Standing n w v
      ∧ (v.proc n).node.currentTerm = (w.proc n).node.currentTerm) w := by
  have hcandidate : ∀ {v : World}, Live C n v → (v.proc n).node.state = .candidate →
      (v.proc n).run = .top → Can C.step ordinary (fun u => Standing n v u
        ∧ (u.proc n).node.currentTerm = (v.proc n).node.currentTerm) v := by
    intro v hlive hcand htop
    refine can_local hlive (l := .load) (by simp)
      (by simp only [Proc.step, Proc.load, htop, hcand]; rfl) fun _ => ?_
    exact .now ⟨⟨own_commit _ _ _ _, by simp, by simpa using hcand, by simp⟩, by simp⟩
  cases hs : (w.proc n).node.state with
  | leader => exact absurd hs hstate
  | candidate => exact hcandidate h hs hrun
  | follower =>
      refine can_local h (l := .load) (by simp)
        (by simp only [Proc.step, Proc.load, hrun, hs]; rfl) fun hlive => ?_
      refine can_local hlive (l := .timeout) (by simp)
        (by simp only [Proc.step, Proc.timeout, World.commit_self]; rfl) fun hlive' => ?_
      refine (hcandidate hlive' (by simp [Node.electionTimeout]) (by simp)).imp ?_
      rintro u - ⟨⟨hown, hlog, hcand, hloc⟩, hterm⟩
      simp only [World.commit_self] at hlog hterm
      exact ⟨⟨((own_commit _ _ _ _).trans (own_commit _ _ _ _)).trans hown, hlog, hcand, hloc⟩,
        hterm⟩

/-- Elections that nobody answers bring the term up to any bound. -/
theorem can_raise (bound : Nat) (h : Live C n w) (hstate : (w.proc n).node.state ≠ .leader)
    (hrun : ∀ term, (w.proc n).run ≠ .becomeLeader term) :
    Can C.step ordinary (fun v => Standing n w v ∧ bound ≤ (v.proc n).node.currentTerm) w := by
  have hfrom : ∀ {v : World}, Live C n v → AtTop n w v →
      Can C.step ordinary (fun u => Standing n w u
        ∧ (u.proc n).node.currentTerm = (v.proc n).node.currentTerm) v := by
    rintro v hlive ⟨hrest, htop⟩
    refine (can_stand hlive hrest.state htop).imp ?_
    rintro u - ⟨⟨hown, hlog, hcand, hloc⟩, hterm⟩
    exact ⟨⟨hrest.own.trans hown, hlog.trans hrest.log, hcand, hloc⟩, hterm⟩
  refine (can_reach_top h hstate hrun).bind fun v₀ hr₀ htop₀ => ?_
  refine (hfrom (h.after hr₀) htop₀).bind fun v₁ hr₁ hstand₁ => ?_
  refine Can.descend (P := fun v => Live C n v ∧ Standing n w v)
    (fun v => bound - (v.proc n).node.currentTerm) ?_
    ⟨(h.after hr₀).after hr₁, hstand₁.1⟩
  rintro v ⟨hlive, hstand⟩
  by_cases hbound : bound ≤ (v.proc n).node.currentTerm
  · exact .now (.inl ⟨hstand, hbound⟩)
  · refine (can_fail hlive (by simp [hstand.state]) hstand.run).bind ?_
    rintro u hr ⟨⟨hrest, htop⟩, hnode⟩
    have htop' : AtTop n w u :=
      ⟨⟨hstand.own.trans hrest.own, hrest.log.trans hstand.log, hrest.state⟩, htop⟩
    refine (hfrom (hlive.after hr) htop').imp ?_
    rintro x hr' ⟨hstand', hterm⟩
    refine .inr ⟨⟨(hlive.after hr).after hr', hstand'⟩, ?_⟩
    rw [hterm, hnode]
    simp only [Node.startElection]
    omega

end Can

end RaftStore
