import RaftStore.StateMachineSafety

/-!
# The order of applied commands

`applyCommitted` claims indices under the lock and sends the commands
after it has let go of it. Calls claim disjoint, increasing ranges
(`toApply_index`), and one call sends its range in order; so the commands
arrive in log order when no call claims a range while another one is
still sending (`apply_in_log_order`). Nothing in the source keeps two
calls of one node apart, and then they race for the channel
(`apply_out_of_order`).
-/

namespace RaftStore

open Runs

/-! ## What one call collects -/

theorem slice_index_sublist (l : LogStore) (lo hi : Nat) :
    ((l.slice lo hi).map LogEntry.index).Sublist
      (List.range' lo (hi + 1 - lo)) := by
  unfold LogStore.slice
  generalize hi + 1 - lo = len
  induction len generalizing lo with
  | zero => exact List.Sublist.refl _
  | succ len ih =>
      rw [List.range'_succ, List.filterMap_cons]
      cases hget : l.entryAt lo with
      | none => exact (ih (lo + 1)).cons lo
      | some e =>
          rw [List.map_cons, LogStore.entryAt_index hget]
          exact (ih (lo + 1)).cons_cons lo

/-- A call collects indices it claims, each once and in order. -/
theorem toApply_index (n : Node) :
    (n.toApply.map LogEntry.index).Pairwise (· < ·)
      ∧ ∀ e ∈ n.toApply, n.lastApplied < e.index
        ∧ e.index ≤ max n.lastApplied n.commitIndex := by
  have hsub := slice_index_sublist n.log (n.lastApplied + 1) n.commitIndex
  refine ⟨(List.pairwise_lt_range' ..).sublist hsub, ?_⟩
  intro e he
  have hmem := hsub.subset (List.mem_map_of_mem he)
  rw [List.mem_range'_1] at hmem
  omega

/-! ## Calls one at a time -/

def Applier.isSending : Applier → Bool
  | .sending _ => true
  | _ => false

/-- The locked section of `applyCommitted`. -/
def Local.isCollect : Local → Bool
  | .collect _ => true
  | _ => false

/-- A call that finds something to apply finds no other one sending. -/
def soloApply : World → Action → Prop :=
  onLocal fun w n l => l.isCollect = true →
    (w.proc n).node.lastApplied < (w.proc n).node.commitIndex →
    ∀ x ∈ (w.proc n).appliers, x.isSending = false

instance (w : World) (a : Action) : Decidable (soloApply w a) :=
  inferInstanceAs (Decidable (onLocal _ w a))

structure FeedInv (f : Feed) : Prop where
  sorted : (f.sends.map LogEntry.index).Pairwise (· < ·)
  sent : ∀ e ∈ f.sends, e.index ≤ f.lastApplied
  solo : ∀ (i j : Nat) rest rest', f.appliers[i]? = some (.sending rest) →
    f.appliers[j]? = some (.sending rest') → i = j
  pending : ∀ (i : Nat) rest, f.appliers[i]? = some (.sending rest) →
    (rest.map LogEntry.index).Pairwise (· < ·) ∧ ∀ e ∈ rest,
      e.index ≤ f.lastApplied ∧ ∀ e' ∈ f.sends, e'.index < e.index
  delivered : f.sends.map LogEntry.command = f.applied ++ f.applyCh.getD []

theorem feedInv_new (n : String) (peers : List String) (applyCh : Bool) :
    FeedInv (newProc n peers applyCh).feed where
  sorted := List.Pairwise.nil
  sent _ h := by cases h
  solo _ _ _ _ h := by cases h
  pending _ _ h := by cases h
  delivered := by cases applyCh <;> rfl

section Move

variable {p p' : Proc} {l : Local}

/-- A call that is sending after one of them has moved. -/
theorem sending_set {as : List Applier} {a i : Nat} {x : Applier}
    {rest : List LogEntry} (h : (as.set a x)[i]? = some (.sending rest)) :
    i = a ∧ x = .sending rest ∨ i ≠ a ∧ as[i]? = some (.sending rest) := by
  by_cases hi : a = i
  · subst hi
    have hlt := LeaderLog.lt_length_of_getElem? h
    rw [List.getElem?_set_self (by simpa using hlt)] at h
    exact .inl ⟨rfl, Option.some.inj h⟩
  · rw [List.getElem?_set_ne hi] at h
    exact .inr ⟨fun heq => hi heq.symm, h⟩

theorem sendLater_sending {applyCh : Option (List Command)}
    {rest rest' : List LogEntry}
    (h : Proc.sendLater applyCh rest = .sending rest') :
    rest' = rest ∧ rest ≠ [] := by
  unfold Proc.sendLater at h
  split at h
  · cases h
  · rename_i hno
    cases h
    exact ⟨rfl, fun hnil => hno (.inr hnil)⟩

theorem FeedInv.start (h : FeedInv p.feed) : FeedInv p.startApply.feed := by
  have hback : ∀ {i : Nat} {rest : List LogEntry},
      (p.appliers ++ [.start])[i]? = some (.sending rest) →
      p.appliers[i]? = some (.sending rest) := by
    intro i rest hi
    rcases Nat.lt_or_ge i p.appliers.length with hlt | hge
    · rwa [List.getElem?_append_left hlt] at hi
    · rw [List.getElem?_append_right hge] at hi
      cases List.mem_singleton.mp (List.mem_of_getElem? hi)
  exact
    { sorted := h.sorted
      sent := h.sent
      solo := fun i j rest rest' hi hj => h.solo i j rest rest' (hback hi) (hback hj)
      pending := fun i rest hi => h.pending i rest (hback hi)
      delivered := h.delivered }

theorem FeedInv.collect (h : FeedInv p.feed) {a : Nat}
    (hsolo : p.node.lastApplied < p.node.commitIndex →
      ∀ x ∈ p.appliers, x.isSending = false)
    (hfeed : p'.feed =
      { p.feed with
        lastApplied := max p.node.lastApplied p.node.commitIndex
        appliers := p.appliers.set a (Proc.sendLater p.applyCh p.node.toApply)
        collected := p.collected ++ p.node.toApply }) :
    FeedInv p'.feed := by
  obtain ⟨hsorted, hclaimed⟩ := toApply_index p.node
  have hle := Nat.le_max_left p.node.lastApplied p.node.commitIndex
  -- a call that starts to send is alone
  have hcases : ∀ {i : Nat} {rest : List LogEntry},
      (p.appliers.set a (Proc.sendLater p.applyCh p.node.toApply))[i]?
        = some (.sending rest) →
      (i = a ∧ rest = p.node.toApply ∧ p.node.toApply ≠ [])
        ∨ p.appliers[i]? = some (.sending rest) := by
    intro i rest hi
    rcases sending_set hi with ⟨rfl, hx⟩ | ⟨-, hold⟩
    · obtain ⟨rfl, hne⟩ := sendLater_sending hx
      exact .inl ⟨rfl, rfl, hne⟩
    · exact .inr hold
  have hno : ∀ {i : Nat} {rest : List LogEntry}, p.node.toApply ≠ [] →
      p.appliers[i]? ≠ some (.sending rest) := by
    intro i rest hne hi
    obtain ⟨e, he⟩ := List.exists_mem_of_ne_nil _ hne
    have hclaim := hclaimed e he
    have hfalse := hsolo (by omega) _ (List.mem_of_getElem? hi)
    cases hfalse
  rw [hfeed]
  refine ⟨h.sorted, fun e he => Nat.le_trans (h.sent e he) hle, ?_, ?_, h.delivered⟩
  · intro i j rest rest' hi hj
    rcases hcases hi with ⟨hi, -, hne⟩ | hold
    · rcases hcases hj with ⟨hj, -, -⟩ | hold
      · rw [hi, hj]
      · exact absurd hold (hno hne)
    · rcases hcases hj with ⟨-, -, hne⟩ | hold'
      · exact absurd hold (hno hne)
      · exact h.solo i j rest rest' hold hold'
  · intro i rest hi
    rcases hcases hi with ⟨rfl, rfl, -⟩ | hi
    · refine ⟨hsorted, ?_⟩
      intro e he
      refine ⟨(hclaimed e he).2, ?_⟩
      intro e' he'
      exact Nat.lt_of_le_of_lt (h.sent e' he') (hclaimed e he).1
    · obtain ⟨hs, hrest⟩ := h.pending i rest hi
      exact ⟨hs, fun e he => ⟨Nat.le_trans (hrest e he).1 hle, (hrest e he).2⟩⟩

theorem FeedInv.send (h : FeedInv p.feed) {a : Nat} {entry : LogEntry}
    {rest : List LogEntry} {queue : List Command}
    (hsending : p.appliers[a]? = some (.sending (entry :: rest)))
    (hqueue : p.applyCh = some queue)
    (hfeed : p'.feed =
      { p.feed with
        appliers := p.appliers.set a (Proc.sendLater p.applyCh rest)
        applyCh := some (queue ++ [entry.command])
        sends := p.sends ++ [entry] }) :
    FeedInv p'.feed := by
  obtain ⟨hsorted, hrest⟩ := h.pending a _ hsending
  rw [List.map_cons, List.pairwise_cons] at hsorted
  obtain ⟨hfirst, htail⟩ := hsorted
  have hentry := hrest entry (List.mem_cons_self ..)
  -- nobody else was sending
  have hcases : ∀ {i : Nat} {rest' : List LogEntry},
      (p.appliers.set a (Proc.sendLater p.applyCh rest))[i]?
        = some (.sending rest') → i = a ∧ rest' = rest := by
    intro i rest' hi
    rcases sending_set hi with ⟨rfl, hx⟩ | ⟨hne, hold⟩
    · exact ⟨rfl, (sendLater_sending hx).1⟩
    · exact absurd (h.solo i a _ _ hold hsending) hne
  rw [hfeed]
  refine ⟨?_, ?_, ?_, ?_, ?_⟩
  · show ((p.sends ++ [entry]).map LogEntry.index).Pairwise (· < ·)
    rw [List.map_append, List.pairwise_append]
    refine ⟨h.sorted, List.pairwise_singleton .., ?_⟩
    intro i hi j hj
    obtain ⟨e', he', rfl⟩ := List.mem_map.mp hi
    rw [List.mem_singleton.mp hj]
    exact hentry.2 e' he'
  · intro e he
    rcases List.mem_append.mp he with he | he
    · exact h.sent e he
    · rw [List.mem_singleton.mp he]
      exact hentry.1
  · intro i j rest₁ rest₂ hi hj
    rw [(hcases hi).1, (hcases hj).1]
  · intro i rest' hi
    obtain ⟨rfl, rfl⟩ := hcases hi
    refine ⟨htail, ?_⟩
    intro e he
    obtain ⟨hle, hlt⟩ := hrest e (List.mem_cons_of_mem _ he)
    refine ⟨hle, ?_⟩
    intro e' he'
    rcases List.mem_append.mp he' with he' | he'
    · exact hlt e' he'
    · rw [List.mem_singleton.mp he']
      exact hfirst _ (List.mem_map_of_mem he)
  · have hdel : p.sends.map LogEntry.command = p.applied ++ queue := by
      have := h.delivered
      rwa [show p.feed.applyCh = some queue from hqueue] at this
    simp [hdel, Proc.feed]

theorem FeedInv.move (h : FeedInv p.feed) (hmove : FeedMove p p' l)
    (hsolo : ∀ i, l = .collect i → p.node.lastApplied < p.node.commitIndex →
      ∀ x ∈ p.appliers, x.isSending = false) : FeedInv p'.feed := by
  cases hmove with
  | same hfeed => rwa [hfeed]
  | start hfeed => rw [hfeed]; exact h.start
  | collect _ hfeed => exact h.collect (hsolo _ rfl) hfeed
  | send hsending hqueue hfeed => exact h.send hsending hqueue hfeed
  | @applyLoop command queue hqueue hfeed =>
      have hdel := h.delivered
      rw [show p.feed.applyCh = some (command :: queue) from hqueue] at hdel
      rw [hfeed]
      refine ⟨h.sorted, h.sent, h.solo, h.pending, ?_⟩
      simpa [Proc.feed] using hdel
  | @abandon a _ _ hfeed =>
      have hback : ∀ {i : Nat} {rest : List LogEntry},
          (p.appliers.set a .done)[i]? = some (.sending rest) →
          p.appliers[i]? = some (.sending rest) := by
        intro i rest hi
        rcases sending_set hi with ⟨-, hx⟩ | ⟨-, hold⟩
        · cases hx
        · exact hold
      rw [hfeed]
      exact ⟨h.sorted, h.sent,
        fun i j rest rest' hi hj => h.solo i j rest rest' (hback hi) (hback hj),
        fun i rest hi => h.pending i rest (hback hi), h.delivered⟩

end Move

theorem feedInv_of_reachable {C : Cluster} {w : World}
    (h : Reachable C.step soloApply C.init w) (n : String) :
    FeedInv (w.proc n).feed := by
  revert n
  refine h.invariant (P := fun w => ∀ n, FeedInv (w.proc n).feed)
    (fun n => feedInv_new ..) ?_
  intro w a w' _ hinv hok hstep n
  rcases C.feed_step hstep n with hnew | ⟨l, hmove, hcollect⟩
  · rw [hnew]
    exact feedInv_new ..
  · refine (hinv n).move hmove ?_
    intro i hl
    obtain rfl := hcollect i hl
    subst hl
    exact hok rfl

/-- Where calls of `applyCommitted` that have something to send do not
overlap, every node sends in log order, and that is the order in which
its apply loop gets the commands. -/
theorem apply_in_log_order {C : Cluster} {w : World}
    (h : Reachable C.step soloApply C.init w) (n : String) :
    ((w.proc n).sends.map LogEntry.index).Pairwise (· < ·)
      ∧ (w.proc n).sends.map LogEntry.command
        = (w.proc n).applied ++ (w.proc n).applyCh.getD [] :=
  ⟨(feedInv_of_reachable h n).sorted, (feedInv_of_reachable h n).delivered⟩

/-- `a` commits a second entry; `b` hears of the first one with it. -/
def secondEntryRun : List Action :=
  returnRun ++ [.local "a" (.replicate [8]), .local "a" (.replicateSend 1 0),
    .deliverAppend 1, .local "a" (.replicateReply 1 0 1),
    .local "a" (.receiveAck 1 0), .local "a" (.replicateCommit 1),
    .local "a" (.collect 1), .local "a" (.send 1), .local "a" .applyLoop,
    .local "a" .applyLoop, .local "a" .load, .local "a" .spawnHeartbeats,
    .local "a" (.heartbeat 0)]

/-- The call of `b` for the first entry sends before the second is told. -/
def inOrderRun : List Action :=
  secondEntryRun ++ [.local "b" (.collect 0), .local "b" (.send 0),
    .deliverAppend 2, .local "b" (.collect 1), .local "b" (.send 1),
    .local "b" .applyLoop, .local "b" .applyLoop]

theorem apply_in_log_order_b :
    ∃ w, Reachable threeNodes.step soloApply threeNodes.init w
      ∧ (w.proc "b").applied = [[7], [8]]
      ∧ ((w.proc "b").sends.map LogEntry.index).Pairwise (· < ·) := by
  obtain ⟨w, hr, hb⟩ : ∃ w, Reachable threeNodes.step soloApply threeNodes.init w
      ∧ (w.proc "b").applied = [[7], [8]] :=
    Reachable.of_exec_any inOrderRun (by decide +kernel)
  exact ⟨w, hr, hb, (apply_in_log_order hr "b").1⟩

/-- It has claimed the first entry when the second is told, and the call
for the second is faster. -/
def overtakingRun : List Action :=
  secondEntryRun ++ [.local "b" (.collect 0), .deliverAppend 2,
    .local "b" (.collect 1), .local "b" (.send 1), .local "b" (.send 0),
    .local "b" .applyLoop, .local "b" .applyLoop]

theorem apply_out_of_order :
    ∃ w, Reachable threeNodes.step committedSoundly threeNodes.init w
      ∧ (w.proc "b").sends = [⟨1, 2, [8]⟩, ⟨1, 1, [7]⟩]
      ∧ (w.proc "b").applied = [[8], [7]]
      ∧ (w.proc "a").applied = [[7], [8]] :=
  Reachable.of_exec_any overtakingRun (by decide +kernel)

end RaftStore
