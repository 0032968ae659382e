import RaftStore.TotalOrder

/-!
# Acknowledged commands

What `Replicate` returning nil means for the order of commands. No two
calls that had a majority got the same index (`decided_calls_distinct`),
and a call that was made after another one had returned comes behind it
(`acknowledged_in_real_time`): a leader of the same or a later term has
the entry of the first call already, and a leader of an earlier term, one
that does not know it has been replaced, gets no majority any more. With
the total order of `TotalOrder`, an acknowledged command is applied by
every node, at the place of its index (`acknowledged_everywhere`); so the
decided list is a linearization of the acknowledged writes.
-/

namespace RaftStore

open Runs Quorum LeaderLog

/-! ## Where calls come from -/

/-- A call is an old one, with the entry it had, or was opened just now. -/
theorem CallMove.call_cases {net : Net} {p p' : Proc} {out : Output}
    (h : CallMove net p p' out) {r : Nat} {c' : ReplicateCall}
    (hc' : p'.replicates[r]? = some c') :
    (∃ c, p.replicates[r]? = some c ∧ c'.entry = c.entry ∧ c'.term = c.term)
      ∨ ∃ command, p.node.state = .leader ∧ p'.node = p.node.appendCommand command
        ∧ r = p.replicates.length ∧ c' = p.openCall command := by
  have hset : ∀ {r₀ : Nat} {c x : ReplicateCall}, p.replicates[r₀]? = some c →
      p'.replicates = p.replicates.set r₀ x → x.entry = c.entry →
      x.term = c.term →
      ∃ c, p.replicates[r]? = some c ∧ c'.entry = c.entry ∧ c'.term = c.term := by
    intro r₀ c x hcall hcalls hentry hterm
    rw [hcalls] at hc'
    by_cases hr : r₀ = r
    · subst hr
      rw [List.getElem?_set_self (lt_length_of_getElem? hcall)] at hc'
      cases hc'
      exact ⟨c, hcall, hentry, hterm⟩
    · rw [List.getElem?_set_ne hr] at hc'
      exact ⟨c', hc', rfl, rfl⟩
  cases h with
  | same hcalls => exact .inl ⟨c', hcalls ▸ hc', rfl, rfl⟩
  | @opened command hstate hnode hcalls =>
      rw [hcalls] at hc'
      rcases Nat.lt_or_ge r p.replicates.length with hlt | hge
      · rw [List.getElem?_append_left hlt] at hc'
        exact .inl ⟨c', hc', rfl, rfl⟩
      · rw [List.getElem?_append_right hge, List.getElem?_singleton] at hc'
        split at hc'
        · cases hc'
          exact .inr ⟨command, hstate, hnode, by omega, rfl⟩
        · cases hc'
  | worker hcall _ _ hcalls => exact .inl (hset hcall hcalls rfl rfl)
  | ack hcall _ _ hcalls => exact .inl (hset hcall hcalls rfl rfl)
  | gaveUp hcall _ _ hcalls => exact .inl (hset hcall hcalls rfl rfl)
  | committed hcall _ hcalls => exact .inl (hset hcall hcalls rfl rfl)
  | returned hcall _ _ hcalls => exact .inl (hset hcall hcalls rfl rfl)

theorem Cluster.call_cases {C : Cluster} {w w' : World} {a : Action}
    (hstep : C.step w a = some w') {n : String} {r : Nat} {c' : ReplicateCall}
    (hc' : (w'.proc n).replicates[r]? = some c') :
    (∃ c, (w.proc n).replicates[r]? = some c ∧ c'.entry = c.entry
        ∧ c'.term = c.term)
      ∨ ∃ command, (w.proc n).node.state = .leader
        ∧ (w'.proc n).node = (w.proc n).node.appendCommand command
        ∧ r = (w.proc n).replicates.length
        ∧ c' = (w.proc n).openCall command := by
  rcases C.call_step hstep n with hnil | ⟨out, hmove, -⟩
  · rw [hnil] at hc'
    cases hc'
  · exact hmove.call_cases hc'

section Opened

variable {C : Cluster} {w : World} {s : Spec} {n : String}

/-- The entry of a new call is the next of the log of the leader's term. -/
theorem Abstracts.newEntry_index (habs : Abstracts C w s)
    (hstate : (w.proc n).node.state = .leader) (command : Command) :
    ((w.proc n).openCall command).entry.index
      = (s.full (w.proc n).node.currentTerm).length + 1 := by
  have hlog := (habs.refines.leader_log habs.spec habs.code hstate).2
  have hpos : (w.proc n).node.log.Positional := (habs.code.log.logs n).positional
  show ((w.proc n).node.newEntry command).index = _
  rw [show (w.proc n).node.currentTerm = (w.core n).currentTerm from rfl, ← hlog]
  exact congrArg (· + 1) hpos.lastIndexAndTerm_fst

end Opened

/-! ## Every call has its own entry -/

def Separate (w : World) : Prop :=
  ∀ n (r r' : Nat) c c', (w.proc n).replicates[r]? = some c →
    (w.proc n).replicates[r']? = some c' → c.entry = c'.entry → r = r'

theorem separate_of_reachable {C : Cluster} {w : World}
    (h : Reachable C.step orderly C.init w) : Separate w := by
  refine h.invariant (P := Separate) (fun _ _ _ _ _ hc => by cases hc) ?_
  intro w a w' hr hinv _ hstep n r r' c c' hc hc' heq
  obtain ⟨s, habs, hcalls⟩ := callInv_of_reachable hr
  -- an old call has an entry that the log of the term had before
  have hfresh : ∀ {i : Nat} {c₀ : ReplicateCall} {command : Command},
      (w.proc n).replicates[i]? = some c₀ →
      (w.proc n).node.state = .leader →
      c₀.entry ≠ ((w.proc n).openCall command).entry := by
    intro i c₀ command hc₀ hstate heq₀
    have hentry := (hcalls.calls n c₀ (List.mem_of_getElem? hc₀)).entry
    have hlt := lt_length_of_getElem? hentry.at_index
    have hindex := habs.newEntry_index hstate command
    rw [heq₀] at hlt
    have hterm : ((w.proc n).openCall command).entry.term
        = (w.proc n).node.currentTerm := rfl
    rw [hterm, hindex] at hlt
    omega
  rcases C.call_cases hstep hc with
    ⟨c₀, hc₀, he₀, -⟩ | ⟨command, hstate, -, hr₀, rfl⟩
  · rcases C.call_cases hstep hc' with
      ⟨c₁, hc₁, he₁, -⟩ | ⟨command, hstate, -, -, rfl⟩
    · exact hinv n r r' c₀ c₁ hc₀ hc₁ (he₀ ▸ he₁ ▸ heq)
    · exact absurd (he₀ ▸ heq) (hfresh hc₀ hstate)
  · rcases C.call_cases hstep hc' with
      ⟨c₁, hc₁, he₁, -⟩ | ⟨command', -, -, hr₁, rfl⟩
    · exact absurd (he₁ ▸ heq.symm) (hfresh hc₁ hstate)
    · rw [hr₀, hr₁]

theorem EntryOK.at_take {s : Spec} {n : String} {entry : LogEntry}
    (h : EntryOK s n entry) :
    ((s.full entry.term).take entry.index)[entry.index - 1]? = some entry := by
  have hpos := h.pos
  rw [List.getElem?_take, if_pos (by omega)]
  exact h.at_index

theorem CallOK.safeEntry {C : Cluster} {net : Net} {s : Spec} {n : String}
    {c : ReplicateCall} (h : CallOK C net s n c) (hdecided : c.loc.decided = true) :
    SafeEntry C s c.entry := by
  refine ⟨h.entry.pos, c.term, _,
    (safeUpTo_of_committed (h.committed hdecided)).2, ?_⟩
  rw [← h.term]
  exact h.entry.at_take

/-- Two calls of `Replicate`, on whatever nodes, that each had a majority
have different indices. -/
theorem decided_calls_distinct {C : Cluster} {w : World}
    (h : Reachable C.step orderly C.init w) {n m : String} {r r' : Nat}
    {c c' : ReplicateCall} (hc : (w.proc n).replicates[r]? = some c)
    (hc' : (w.proc m).replicates[r']? = some c')
    (hdecided : c.loc.decided = true) (hdecided' : c'.loc.decided = true)
    (hother : n ≠ m ∨ r ≠ r') : c.entry.index ≠ c'.entry.index := by
  intro hindex
  obtain ⟨s, habs, hcalls⟩ := callInv_of_reachable h
  have hok := hcalls.calls n c (List.mem_of_getElem? hc)
  have hok' := hcalls.calls m c' (List.mem_of_getElem? hc')
  have heq : c.entry = c'.entry :=
    (hok.safeEntry hdecided).unique habs.spec (hok'.safeEntry hdecided') hindex
  have hlead := hok.entry.leader
  rw [heq, hok'.entry.leader] at hlead
  obtain rfl := Option.some.inj hlead
  exact hother.elim (absurd rfl)
    (absurd (separate_of_reachable h m r r' c c' hc hc' heq))

/-- After `successorRun` the new leader `b` commits a command of its own. -/
def successorPutRun : List Action :=
  successorRun ++ [.local "b" (.replicate [9]), .local "b" (.replicateSend 0 0),
    .deliverAppend 1, .local "b" (.replicateReply 0 0 1),
    .local "b" (.receiveAck 0 0)]

theorem decided_calls_distinct_a_b :
    ∃ w, Reachable threeNodes.step orderly threeNodes.init w
      ∧ ∃ c ∈ (w.proc "a").replicates[0]?, ∃ c' ∈ (w.proc "b").replicates[0]?,
        c.entry.index ≠ c'.entry.index := by
  obtain ⟨w, hr, c, hc, c', hc', hd, hd'⟩ : ∃ w,
      Reachable threeNodes.step orderly threeNodes.init w
        ∧ ∃ c ∈ (w.proc "a").replicates[0]?, ∃ c' ∈ (w.proc "b").replicates[0]?,
          c.loc.decided = true ∧ c'.loc.decided = true :=
    Reachable.of_exec_any successorPutRun (by decide +kernel)
  exact ⟨w, hr, c, hc, c', hc',
    decided_calls_distinct hr hc hc' hd hd' (.inl (by decide))⟩

/-! ## Calls after a return -/

/-- The call got a later index than `entry`, or it was opened by a leader
that had been replaced before. -/
def After (s : Spec) (entry : LogEntry) (c : ReplicateCall) : Prop :=
  entry.index < c.entry.index ∨ c.term < entry.term
    ∧ s.leader entry.term ≠ none
    ∧ ¬ (s.full c.term).take c.entry.index <+: s.base entry.term

theorem After.grow {s s' : Spec} {entry : LogEntry} {c : ReplicateCall}
    (h : After s entry c) (g : Grow s s')
    (hlen : c.entry.index ≤ (s.full c.term).length) : After s' entry c := by
  rcases h with hlt | ⟨hterm, hlead, hnot⟩
  · exact .inl hlt
  · refine .inr ⟨hterm, g.leader_ne hlead, ?_⟩
    rwa [g.take_eq hlen, g.base _ hlead]

theorem CallOK.within {C : Cluster} {net : Net} {s : Spec} {n : String}
    {c : ReplicateCall} (h : CallOK C net s n c) :
    c.entry.index ≤ (s.full c.term).length := by
  have hlt := lt_length_of_getElem? h.entry.at_index
  have hpos := h.entry.pos
  rw [h.term] at hlt
  omega

/-- A call opened now, and an entry acknowledged before. -/
theorem after_opened {C : Cluster} {w w' : World} {s s' : Spec}
    (habs : Abstracts C w s) (habs' : Abstracts C w' s') (g : Grow s s')
    {n m : String} {entry : LogEntry} {command : Command}
    (hentry : EntryOK s n entry)
    (hcommitted : C.committedAt s entry.term entry.index)
    (hstate : (w.proc m).node.state = .leader)
    (hnode : (w'.proc m).node = (w.proc m).node.appendCommand command) :
    After s' entry ((w.proc m).openCall command) := by
  have hindex := habs.newEntry_index hstate command
  obtain ⟨hlead, hlog⟩ := habs.refines.leader_log habs.spec habs.code hstate
  have hsome : s.leader entry.term ≠ none := by rw [hentry.leader]; simp
  rcases Nat.lt_or_ge (w.proc m).node.currentTerm entry.term with hlt | hge
  · -- the leader has been replaced: its new entry came too late for that
    have hstate' : (w'.core m).state = .leader := by
      rw [World.core, hnode]
      exact hstate
    have hlog' := (habs'.refines.leader_log habs'.spec habs'.code hstate').2
    rw [World.core, hnode] at hlog'
    have hpos : (w.proc m).node.log.Positional := (habs.code.log.logs m).positional
    have hfull : s'.full (w.proc m).node.currentTerm
        = s.full (w.proc m).node.currentTerm ++ [(w.proc m).node.newEntry command] :=
      hlog'.symm.trans ((hpos.body_append _).trans (congrArg (· ++ [_]) hlog))
    refine .inr ⟨hlt, g.leader_ne hsome, ?_⟩
    show ¬ (s'.full (w.proc m).node.currentTerm).take _ <+: _
    rw [hfull, g.base _ hsome, hindex, List.take_of_length_le (by simp)]
    exact not_prefix_base habs.spec _ rfl
  · -- the leader has the entry
    left
    have hpre := (safeUpTo_of_committed hcommitted).2.prefix_full C.quorum_inter
      habs.spec hge (by rw [show s.leader (w.proc m).node.currentTerm = _ from hlead]; simp)
    have hlen := hpre.length_le
    rw [List.length_take_of_le hcommitted.1.le_length] at hlen
    omega

/-- What was acknowledged in the past of a run, and the calls opened since. -/
theorem after_of_run {C : Cluster} {past : List World} {w : World}
    (h : Run C.step orderly C.init past w) :
    ∃ s, Abstracts C w s ∧ CallInv C w s ∧ ∀ v ∈ past, v.history ⊆ w.history
      ∧ ∀ n entry, .replicated n entry ∈ v.history →
        ∀ m (r : Nat) c, (v.proc m).replicates.length ≤ r →
          (w.proc m).replicates[r]? = some c → After s entry c := by
  refine run_abstracts (fun _ _ ha => ha) (Q := fun past w s => CallInv C w s
    ∧ ∀ v ∈ past, v.history ⊆ w.history
      ∧ ∀ n entry, .replicated n entry ∈ v.history →
        ∀ m (r : Nat) c, (v.proc m).replicates.length ≤ r →
          (w.proc m).replicates[r]? = some c → After s entry c)
    ⟨callInv_init C, fun _ hv => by cases hv⟩ ?_ h
  intro past w a w' s s' habs habs' g ⟨hcalls, hpast⟩ _ hstep
  have hgrows := (C.move habs.code.static hstep).grows.history
  refine ⟨hcalls.step habs habs' g hstep, ?_⟩
  intro v hv
  have hsub : v.history ⊆ w.history := by
    rcases List.mem_cons.mp hv with rfl | hv
    · exact List.Subset.refl _
    · exact (hpast v hv).1
  refine ⟨List.Subset.trans hsub hgrows, ?_⟩
  intro n entry he m r c' hr hc'
  rcases C.call_cases hstep hc' with
    ⟨c, hc, hentry, hterm⟩ | ⟨command, hstate, hnode, -, rfl⟩
  · have hafter : After s entry c := by
      rcases List.mem_cons.mp hv with rfl | hv
      · exact absurd (lt_length_of_getElem? hc) (Nat.not_lt.mpr hr)
      · exact (hpast v hv).2 n entry he m r c hr hc
    have hok := hcalls.calls m c (List.mem_of_getElem? hc)
    have hgrown := hafter.grow g hok.within
    unfold After at hgrown ⊢
    rwa [hentry, hterm]
  · obtain ⟨hok, hcommitted⟩ := hcalls.replicated n entry (hsub he)
    exact after_opened habs habs' g hok hcommitted hstate hnode

/-- Acknowledged writes keep their order in real time: a call of `Replicate`
that was made, on whatever node, after another had returned nil gets a
later index, if it gets a majority at all. -/
theorem acknowledged_in_real_time {C : Cluster} {past : List World} {w v : World}
    (h : Run C.step orderly C.init past w) (hv : v ∈ past) {n m : String}
    {entry : LogEntry} (hacked : .replicated n entry ∈ v.history) {r : Nat}
    {c : ReplicateCall} (hnew : (v.proc m).replicates.length ≤ r)
    (hc : (w.proc m).replicates[r]? = some c) (hdecided : c.loc.decided = true) :
    entry.index < c.entry.index := by
  obtain ⟨s, habs, hcalls, hpast⟩ := after_of_run h
  rcases (hpast v hv).2 n entry hacked m r c hnew hc with hlt | ⟨hterm, hlead, hnot⟩
  · exact hlt
  · have hcommitted := (hcalls.calls m c (List.mem_of_getElem? hc)).committed hdecided
    exact absurd (leader_complete C.quorum_inter habs.spec hcommitted _ hterm hlead) hnot

theorem acknowledged_in_real_time_a_b :
    ∃ past w, Run threeNodes.step orderly threeNodes.init past w
      ∧ ∃ v ∈ past, .replicated "a" ⟨1, 1, [7]⟩ ∈ v.history
        ∧ ∃ c ∈ (w.proc "b").replicates[0]?, c.entry.command = [9]
          ∧ 1 < c.entry.index := by
  obtain ⟨past, w, hr, v, hv, hacked, hnew, c, hc, hd, hcmd⟩ : ∃ past w,
      Run threeNodes.step orderly threeNodes.init past w ∧ ∃ v ∈ past,
        .replicated "a" ⟨1, 1, [7]⟩ ∈ v.history
        ∧ (v.proc "b").replicates.length ≤ 0
        ∧ ∃ c ∈ (w.proc "b").replicates[0]?, c.loc.decided = true
          ∧ c.entry.command = [9] :=
    Run.of_exec_any successorPutRun (by decide +kernel)
  exact ⟨past, w, hr, v, hv, hacked, c, hc, hcmd,
    acknowledged_in_real_time hr hv hacked hnew hc hd⟩

/-! ## What every node applies -/

/-- A call that has returned nil has had its entry claimed, and its entry is
still claimed. -/
structure ReturnInv (C : Cluster) (w : World) : Prop where
  settled : ∀ n, ∀ c ∈ (w.proc n).replicates, Settled (w.proc n) c
  replicated : ∀ n entry, .replicated n entry ∈ w.history →
    n ∈ C.members ∧ entry.index ≤ (w.proc n).node.lastApplied

section Step

variable {C : Cluster} {w w' : World} {a : Action}

/-- The calls of `applyCommitted` of every process go forward. -/
theorem forward_step (hr : Reachable C.step committedSoundly C.init w)
    (hok : committedSoundly w a) (hstep : C.step w a = some w') (n : String) :
    Forward (w.proc n) (w'.proc n) := by
  have hcommit : (w.proc n).node.commitIndex ≤ (w'.proc n).node.commitIndex := by
    obtain ⟨s, -, hinv⟩ := commitInv_of_run hr
    have hle := (committed_step hr hok hstep n).length_le
    rw [(hinv.nodes n).length] at hle
    exact Nat.le_trans hle (List.length_take_le ..)
  cases C.proc_step hstep n with
  | own _ hmove => exact forward_move hmove hcommit
  | voted _ _ hout hproc =>
      refine .of_kept hcommit ?_ ?_
      · rw [hproc]
        exact congrArg Book.lastApplied hout.book
      · rw [hproc]
        exact fun _ _ hx => hx
  | appended _ _ hout hp hproc =>
      refine .of_kept hcommit ?_ ?_
      · rw [hproc, hp]
        split <;> exact hout.book.2.2
      · rw [hproc, hp]
        intro i x hx
        split
        · exact prefix_getElem? (List.prefix_append ..) hx
        · exact hx
  | restarted => exact hok.1.1.2.elim
  | idle hproc =>
      refine .of_kept hcommit ?_ ?_ <;> rw [hproc]
      exact fun _ _ hx => hx

theorem ReturnInv.settled_step (hinv : ReturnInv C w)
    (hr : Reachable C.step committedSoundly C.init w)
    (hok : committedSoundly w a) (hstep : C.step w a = some w') (n : String) :
    ∀ c' ∈ (w'.proc n).replicates, Settled (w'.proc n) c' := by
  intro c' hmem
  have hforward := forward_step hr hok hstep n
  obtain ⟨r, hc'⟩ := List.mem_iff_getElem?.mp hmem
  have hsame : (w'.proc n).replicates = (w.proc n).replicates →
      Settled (w'.proc n) c' := fun heq =>
    (hinv.settled n c' (heq ▸ hmem)).forward hforward rfl (.inl rfl)
  cases C.proc_step hstep n with
  | own _ hmove =>
      rcases (call_move hmove).call_cases hc' with
        ⟨c, hc, -, -⟩ | ⟨command, -, -, -, rfl⟩
      · obtain ⟨c'', hc'', -, hsettled⟩ := settled_move hmove hforward.commit hc
          (hinv.settled n c (List.mem_of_getElem? hc))
        cases hc'.symm.trans hc''
        exact hsettled
      · refine .of_not_settles ?_
        unfold Proc.openCall
        dsimp only
        split <;> rfl
  | voted _ _ _ hproc => exact hsame (by rw [hproc])
  | appended _ _ _ hp hproc =>
      refine hsame ?_
      rw [hproc, hp]
      split <;> rfl
  | restarted => exact hok.1.1.2.elim
  | idle hproc => exact hsame (by rw [hproc])

/-- `Replicate` returns nil when its call of `applyCommitted` is done. -/
theorem Proc.Move.returned {net : Net} {p p' : Proc} {l : Local} {out : Output}
    (h : p.Move net l p' out) {n : String} {entry : LogEntry}
    (he : .replicated n entry ∈ out.events) :
    n = p.node.id ∧ ∃ c ∈ p.replicates, ∃ x : Nat, c.loc = .applying x
      ∧ p.appliers[x]? = some .done ∧ entry = c.entry := by
  cases h with
  | replicateReturn hcall hloc hdone =>
      cases List.mem_singleton.mp he
      exact ⟨rfl, _, List.mem_of_getElem? hcall, _, hloc, hdone, rfl⟩
  | campaign => cases List.mem_singleton.mp he
  | becomeLeader =>
      simp only at he
      split at he
      · cases List.mem_singleton.mp he
      · cases he
  | _ => cases he

theorem Cluster.returned_step (hw : Static C w) (hstep : C.step w a = some w')
    {n : String} {entry : LogEntry} (he : .replicated n entry ∈ w'.history) :
    .replicated n entry ∈ w.history ∨ n ∈ C.members
      ∧ ∃ c ∈ (w.proc n).replicates, ∃ x : Nat, c.loc = .applying x
        ∧ (w.proc n).appliers[x]? = some .done ∧ entry = c.entry := by
  cases C.raw_move hstep with
  | @«local» m l p out hm hlocal =>
      rcases List.mem_append.mp he with he | he
      · obtain ⟨hid, hc⟩ := (Proc.move hlocal).returned he
        rw [show n = m from hid.trans (hw.id m)]
        exact .inr ⟨hm, hc⟩
      · exact .inl he
  | deliverVote =>
      simp only [World.answerVote] at he
      split at he
      · exact .inl ((List.mem_cons.mp he).resolve_left fun h => by cases h)
      · exact .inl he
  | deliverAppend => exact .inl he
  | crash => exact .inl he
  | restart => exact .inl ((List.mem_cons.mp he).resolve_left fun h => by cases h)

end Step

theorem returnInv_of_reachable {C : Cluster} {w : World}
    (h : Reachable C.step committedSoundly C.init w) : ReturnInv C w := by
  refine h.invariant (P := ReturnInv C)
    ⟨fun _ _ hc => (by cases hc), fun _ _ he => (by cases he)⟩ ?_
  intro w a w' hr hinv hok hstep
  refine ⟨hinv.settled_step hr hok hstep, ?_⟩
  intro n entry he
  have hforward := forward_step hr hok hstep n
  rcases C.returned_step (static_of_reachable hr) hstep he with
    he | ⟨hn, c, hc, x, hloc, hdone, rfl⟩
  · obtain ⟨hn, hle⟩ := hinv.replicated n entry he
    exact ⟨hn, Nat.le_trans hle hforward.applied⟩
  · obtain ⟨y, hy, -, hclaimed⟩ := (hinv.settled n c hc).applying x hloc
    cases hdone.symm.trans hy
    exact ⟨hn, Nat.le_trans (hclaimed (by simp)) hforward.applied⟩

/-- A committed entry that its node has claimed stands in the decided list,
at its index. -/
theorem claimed_decided {C : Cluster} {w : World} {s : Spec}
    (h : Reachable C.step inTurn C.init w) (habs : Abstracts C w s) (hinv : CommitInv C w s)
    {n : String} (hn : n ∈ C.members) {entry : LogEntry} (hentry : EntryOK s n entry)
    (hcommitted : C.committedAt s entry.term entry.index)
    (hle : entry.index ≤ (w.proc n).node.lastApplied) :
    0 < entry.index ∧ (C.decided w)[entry.index - 1]? = some entry := by
  have happlied := (sentInOrder_of_reachable h n).ledger.applied
  have hpos := hentry.pos
  refine ⟨hpos, ?_⟩
  -- the node has committed at least as much
  have hlen := (hinv.nodes n).length
  have hlen' := List.length_take_of_le hcommitted.1.le_length
  have hpre : (s.full entry.term).take entry.index <+: (w.proc n).node.committed := by
    have hor : _ ∨ (w.proc n).node.committed <+: _ :=
      (safeUpTo_of_committed hcommitted).2.compare C.quorum_inter habs.spec
        (hinv.nodes n).safe
    rcases hor with hpre | hpre
    · exact hpre
    · exact hpre.eq_of_length_le (by omega) ▸ List.prefix_rfl
  exact prefix_getElem?
    (hpre.trans (committed_decided (h.mono fun _ _ (ha : inTurn _ _) => ha.1) hn))
    hentry.at_take

/-- An acknowledged entry stands in the decided list, at its index. -/
theorem acknowledged_decided {C : Cluster} {w : World}
    (h : Reachable C.step inTurn C.init w) {n : String} {entry : LogEntry}
    (hacked : .replicated n entry ∈ w.history) :
    0 < entry.index ∧ (C.decided w)[entry.index - 1]? = some entry := by
  have hsound := h.mono fun _ _ (ha : inTurn _ _) => ha.1
  obtain ⟨hn, hle⟩ := (returnInv_of_reachable hsound).replicated n entry hacked
  obtain ⟨past, hr⟩ := hsound
  obtain ⟨s, habs, hbasis, hinv⟩ := sound_of_run hr
  obtain ⟨hentry, hcommitted⟩ := hbasis.calls.replicated n entry hacked
  exact claimed_decided h habs hinv hn hentry hcommitted hle

/-- So does the entry of a call that has returned nil. -/
theorem returned_decided {C : Cluster} {w : World}
    (h : Reachable C.step inTurn C.init w) {n : String} (hn : n ∈ C.members)
    {c : ReplicateCall} (hc : c ∈ (w.proc n).replicates) (hloc : c.loc = .returned .ok) :
    0 < c.entry.index ∧ (C.decided w)[c.entry.index - 1]? = some c.entry := by
  have hsound := h.mono fun _ _ (ha : inTurn _ _) => ha.1
  have hle := ((returnInv_of_reachable hsound).settled n c hc).returned hloc
  obtain ⟨past, hr⟩ := hsound
  obtain ⟨s, habs, hbasis, hinv⟩ := sound_of_run hr
  have hok := hbasis.calls.calls n c hc
  refine claimed_decided h habs hinv hn hok.entry ?_ hle
  rw [hok.term]
  exact hok.committed (by rw [hloc]; rfl)

/-- Every node sends an acknowledged entry on its `applyCh`, as the one of
its index, and its loop takes it there. -/
theorem acknowledged_everywhere {C : Cluster} {w : World}
    (h : Reachable C.step inTurn C.init w) {n m : String} {entry : LogEntry}
    (hacked : .replicated n entry ∈ w.history) (hm : m ∈ C.members) :
    (C.decided w)[entry.index - 1]? = some entry
      ∧ (entry.index ≤ (w.proc m).sends.length →
        (w.proc m).sends[entry.index - 1]? = some entry)
      ∧ (entry.index ≤ (w.proc m).applied.length →
        (w.proc m).applied[entry.index - 1]? = some entry.command) := by
  obtain ⟨hpos, hget⟩ := acknowledged_decided h hacked
  refine ⟨hget, ?_, ?_⟩
  · intro hle
    have hlt : entry.index - 1 < (w.proc m).sends.length := by omega
    have hsome := List.getElem?_eq_getElem hlt
    rw [hsome, ← prefix_getElem? (sends_decided h hm) hsome, hget]
  · intro hle
    have hlt : entry.index - 1 < (w.proc m).applied.length := by omega
    have hsome := List.getElem?_eq_getElem hlt
    rw [hsome, ← prefix_getElem? (applied_decided h hm) hsome, List.getElem?_map, hget]
    rfl

/-- `a` has acknowledged its first command and `b` has sent and applied
two. -/
theorem acknowledged_everywhere_a_b :
    ∃ w, Reachable threeNodes.step inTurn threeNodes.init w
      ∧ .replicated "a" ⟨1, 1, [7]⟩ ∈ w.history
      ∧ (w.proc "b").sends[0]? = some ⟨1, 1, [7]⟩ ∧ (w.proc "b").applied[0]? = some [7] := by
  obtain ⟨w, hr, hacked, hsent, hlen, hmem⟩ : ∃ w,
      Reachable threeNodes.step inTurn threeNodes.init w
        ∧ .replicated "a" ⟨1, 1, [7]⟩ ∈ w.history
        ∧ (w.proc "b").sends.length = 2 ∧ (w.proc "b").applied.length = 2
        ∧ "b" ∈ threeNodes.members :=
    Reachable.of_exec_any inOrderRun (by decide +kernel)
  obtain ⟨-, hsends, happlied⟩ := acknowledged_everywhere hr hacked hmem
  exact ⟨w, hr, hacked, hsends (hsent ▸ by decide), happlied (hlen ▸ by decide)⟩

end RaftStore
