import RaftStore.Pipeline
import RaftStore.StateMachineSafety

/-!
# What a run never takes back

A leader's log only grows (`leader_append_only`), and so does what a node
has committed: `HandleAppendEntries` may cut a log, but never at an entry
below `commitIndex`, and `commitIndex` does not fall although it is set to
the smaller of `LeaderCommit` and the length of the new log. With State
Machine Safety this makes what any two nodes have ever committed parts of
one list (`committed_permanent`).

The first result needs heartbeats to be sent by leaders, the second the
conditions under which `commitIndex` means anything (`committedSoundly`).
-/

namespace RaftStore

open Runs Quorum LeaderLog

/-! ## Leaders -/

/-- What a leader had in its log is in the log of its term. -/
theorem led_in_full {C : Cluster} {past : List World} {w : World}
    (h : Run C.step orderly C.init past w) :
    ∃ s, Abstracts C w s ∧ ∀ v ∈ past, ∀ n, (v.core n).state = .leader →
      (v.core n).log.body <+: s.full (v.core n).currentTerm := by
  refine run_abstracts (fun _ _ ha => ha)
    (Q := fun past _ s => ∀ v ∈ past, ∀ n, (v.core n).state = .leader →
      (v.core n).log.body <+: s.full (v.core n).currentTerm)
    (fun _ hv => by cases hv) ?_ h
  intro past w a w' s s' habs _ g hQ _ _ v hv n hlead
  rcases List.mem_cons.mp hv with rfl | hv
  · rw [(habs.refines.leader_log habs.spec habs.code hlead).2]
    exact g.full _
  · exact (hQ v hv n hlead).trans (g.full _)

/-- A leader never overwrites or deletes an entry of its log. -/
theorem leader_append_only {C : Cluster} {past : List World} {w v : World}
    (h : Run C.step orderly C.init past w) (hv : v ∈ past) {n : String}
    (hbefore : (v.proc n).node.state = .leader)
    (hnow : (w.proc n).node.state = .leader)
    (hterm : (v.proc n).node.currentTerm = (w.proc n).node.currentTerm) :
    (v.proc n).node.log.entries <+: (w.proc n).node.log.entries := by
  obtain ⟨s, habs, hpast⟩ := led_in_full h
  have hpre := hpast v hv n hbefore
  have hfull := (habs.refines.leader_log habs.spec habs.code hnow).2
  have hcode := codeInv_of_reachable
    ((h.reachable_of_mem (List.mem_cons_of_mem _ hv)).mono fun _ _ ha => ha.2)
  have hposv : (v.proc n).node.log.Positional := (hcode.log.logs n).positional
  have hposw : (w.proc n).node.log.Positional :=
    (habs.code.log.logs n).positional
  rw [hposv.entries_eq, hposw.entries_eq, List.cons_prefix_cons]
  refine ⟨rfl, ?_⟩
  show (v.core n).log.body <+: (w.core n).log.body
  rw [hfull, show (w.core n).currentTerm = (v.core n).currentTerm from hterm.symm]
  exact hpre

theorem leader_append_only_a :
    ∃ past w, Run threeNodes.step orderly threeNodes.init past w
      ∧ ∃ v ∈ past, (v.proc "a").node.log.lastIndex = 0
        ∧ (w.proc "a").node.log.lastIndex = 1
        ∧ (v.proc "a").node.log.entries <+: (w.proc "a").node.log.entries := by
  obtain ⟨past, w, hr, v, hv, hbefore, hnow, hterm, hv0, hw1⟩ : ∃ past w,
      Run threeNodes.step orderly threeNodes.init past w ∧ ∃ v ∈ past,
        (v.proc "a").node.state = .leader ∧ (w.proc "a").node.state = .leader
        ∧ (v.proc "a").node.currentTerm = (w.proc "a").node.currentTerm
        ∧ (v.proc "a").node.log.lastIndex = 0
        ∧ (w.proc "a").node.log.lastIndex = 1 :=
    Run.of_exec_any replicateRun (by decide +kernel)
  exact ⟨past, w, hr, v, hv, hv0, hw1, leader_append_only hr hv hbefore hnow hterm⟩

/-! ## Committed entries -/

/-- What the node has committed. -/
def Node.committed (n : Node) : List LogEntry := n.log.body.take n.commitIndex

theorem CommitOK.length {C : Cluster} {s : Spec} {node : Node}
    (h : CommitOK C s node) : node.committed.length = node.commitIndex :=
  List.length_take_of_le h.le

section Step

variable {C : Cluster} {w w' : World} {a : Action} {s : Spec} {n : String}

/-- A call about to commit has its entry in the log. -/
theorem CallInv.within (hinv : CallInv C w s) (habs : Abstracts C w s)
    {c : ReplicateCall} (hc : c ∈ (w.proc n).replicates)
    (hloc : c.loc = .commit) : c.entry.index ≤ (w.proc n).node.log.lastIndex := by
  have hok := hinv.calls n c hc
  have hcommitted := hok.committed (by rw [hloc]; rfl)
  have hpre := hcommitted.prefix_log C.quorum_inter habs.spec hok.own
  rw [habs.refines.nodes.log n] at hpre
  have hlen := hpre.length_le
  rw [List.length_take_of_le hcommitted.1.le_length] at hlen
  have hpos : (w.proc n).node.log.Positional := (habs.code.log.logs n).positional
  rw [hpos.lastIndex_eq]
  exact hlen

/-- Accepting a request keeps what is committed. -/
theorem CommitInv.accepted_keeps (hinv : CommitInv C w s)
    (habs : Abstracts C w s) {call : Nat} {c : AppendCall} {node : Node}
    (hcall : w.net.appendCalls[call]? = some c)
    (hterm : (w.proc c.dst).node.currentTerm ≤ c.args.term)
    (hnode : node = (w.proc c.dst).node.observeLeader c.args)
    (hprev : node.log.matchesPrev c.args = true) :
    (w.proc c.dst).node.committed <+: (node.acceptEntries c.args).log.body
      ∧ (w.proc c.dst).node.commitIndex
        ≤ (node.acceptEntries c.args).commitIndex := by
  have hold := hinv.nodes c.dst
  have hmem := List.mem_of_getElem? hcall
  obtain ⟨-, hlog, -, -, hci, -⟩ := (w.proc c.dst).node.observeLeader_spec hterm
  rw [← hnode] at hlog hci
  rw [hlog] at hprev
  obtain ⟨-, -, hkeep, -⟩ :=
    habs.refines.installed habs.spec habs.code hcall hprev
  have hlead := (habs.refines.net.calls c hmem).1
  have hlog' : (node.acceptEntries c.args).log
      = (w.proc c.dst).node.log.installAll c.args.entries :=
    congrArg (LogStore.installAll · c.args.entries) hlog
  have hpre : (w.proc c.dst).node.committed
      <+: (node.acceptEntries c.args).log.body := by
    rw [hlog']
    exact hkeep _ (List.take_prefix ..) (hold.safe.prefix_full C.quorum_inter
      habs.spec hterm (by rw [hlead]; simp))
  refine ⟨hpre, ?_⟩
  rcases node.acceptEntries_commit c.args with hsame | ⟨hlt, hmoved⟩
  · rw [hsame, hci]
  · -- the new log is at least as long as what was committed
    have hpos : ((w.proc c.dst).node.log.installAll c.args.entries).Positional :=
      (((habs.code.log.logs c.dst).mono hterm).install
        (habs.code.log.calls c hmem) hprev).positional
    have hlen := hpre.length_le
    rw [hold.length, hlog'] at hlen
    rw [hmoved, hlog', hpos.lastIndex_eq, Nat.le_min]
    exact ⟨Nat.le_of_lt (hci ▸ hlt), hlen⟩

theorem sound_of_run {past : List World}
    (h : Run C.step committedSoundly C.init past w) :
    ∃ s, Abstracts C w s ∧ CommitBasis C past w s ∧ CommitInv C w s :=
  run_abstracts (fun _ _ ha => ha.1.1.orderly)
    (Q := fun past w s => CommitBasis C past w s ∧ CommitInv C w s)
    ⟨commitBasis_init C, commitInv_init C⟩
    (fun past w a w' s s' habs habs' g hQ ha hstep => by
      have hbasis' := hQ.1.step habs habs' g ha.1.2 hstep
      exact ⟨hbasis', hQ.2.step habs habs' g hQ.1.calls hbasis'.matched ha hstep⟩)
    h

theorem committed_step (hr : Reachable C.step committedSoundly C.init w)
    (hok : committedSoundly w a) (hstep : C.step w a = some w') (n : String) :
    (w.proc n).node.committed <+: (w'.proc n).node.committed := by
  obtain ⟨past, hr⟩ := hr
  obtain ⟨s, habs, hbasis, hinv⟩ := sound_of_run hr
  have hold := hinv.nodes n
  have hpos : (w.proc n).node.log.Positional := (habs.code.log.logs n).positional
  -- enough: the log still has it, and `commitIndex` has not fallen
  suffices hkeep : (w.proc n).node.committed <+: (w'.proc n).node.log.body
      ∧ (w.proc n).node.commitIndex ≤ (w'.proc n).node.commitIndex by
    refine List.prefix_take_iff.mpr ⟨hkeep.1, ?_⟩
    rw [hold.length]
    exact hkeep.2
  have hsame : (w'.proc n).node.log = (w.proc n).node.log →
      (w'.proc n).node.commitIndex = (w.proc n).node.commitIndex →
      (w.proc n).node.committed <+: (w'.proc n).node.log.body
        ∧ (w.proc n).node.commitIndex ≤ (w'.proc n).node.commitIndex := by
    intro hlog hcommit
    rw [hlog, hcommit]
    exact ⟨List.take_prefix .., Nat.le_refl _⟩
  cases C.proc_step hstep n with
  | own _ hmove =>
      refine ⟨(List.take_prefix ..).trans ?_, ?_⟩
      · exact (C.move habs.code.static hstep).log_grows (n := n) hpos (by simp)
          (by simp)
      · refine (commit_move hmove hpos ?_ ?_).1
        · rw [hpos.lastIndex_eq]
          exact hold.le
        · exact fun c hc hloc => hbasis.calls.within habs hc hloc
  | voted _ _ hout hproc =>
      rw [hproc] at hsame ⊢
      exact hsame hout.log (congrArg Book.commitIndex hout.book)
  | @appended call c node reply apply p hcall hdst hout hp hproc =>
      subst hdst
      have hnode : (w'.proc c.dst).node = node := by
        rw [hproc, hp]
        split <;> rfl
      rw [hnode] at hsame ⊢
      cases hout with
      | stale => exact hsame rfl rfl
      | rejected hterm hn' =>
          obtain ⟨-, hlog, -, -, hci, -⟩ :=
            (w.proc c.dst).node.observeLeader_spec hterm
          rw [← hn'] at hlog hci
          exact hsame hlog hci
      | accepted hterm hn' hprev =>
          exact hinv.accepted_keeps habs hcall hterm hn' hprev
  | restarted => exact hok.1.1.2.elim
  | idle hproc =>
      rw [hproc] at hsame ⊢
      exact hsame rfl rfl

end Step

theorem committed_compare {C : Cluster} {w : World}
    (h : Reachable C.step committedSoundly C.init w) (n m : String) :
    (w.proc n).node.committed <+: (w.proc m).node.committed
      ∨ (w.proc m).node.committed <+: (w.proc n).node.committed := by
  obtain ⟨s, habs, hinv⟩ := commitInv_of_run h
  exact (hinv.nodes n).safe.compare C.quorum_inter habs.spec (hinv.nodes m).safe

theorem committed_grows {C : Cluster} {past : List World} {w v : World}
    (h : Run C.step committedSoundly C.init past w) (hv : v ∈ w :: past)
    (n : String) : (v.proc n).node.committed <+: (w.proc n).node.committed :=
  h.past_related (R := fun v w => (v.proc n).node.committed
      <+: (w.proc n).node.committed) (fun _ => List.prefix_rfl) .trans
    (fun _ _ _ hr hok hstep => committed_step hr hok hstep n) hv

/-- What a node has committed stays committed, all of it is in the log, and
what two nodes have committed at any two moments are parts of one list. -/
theorem committed_permanent {C : Cluster} {past : List World} {w v : World}
    (h : Run C.step committedSoundly C.init past w) (hv : v ∈ w :: past)
    (n m : String) :
    (v.proc n).node.committed.length = (v.proc n).node.commitIndex
      ∧ (v.proc n).node.committed <+: (w.proc n).node.committed
      ∧ ((v.proc n).node.committed <+: (w.proc m).node.committed
        ∨ (w.proc m).node.committed <+: (v.proc n).node.committed) := by
  obtain ⟨s, -, hinv⟩ := commitInv_of_run (h.reachable_of_mem hv)
  have hgrow := committed_grows h hv n
  refine ⟨(hinv.nodes n).length, hgrow, ?_⟩
  rcases committed_compare h.reachable n m with hpre | hpre
  · exact .inl (hgrow.trans hpre)
  · exact List.prefix_or_prefix_of_prefix hgrow hpre

/-- `a` had committed its entry when `b` had not yet. -/
theorem committed_permanent_a_b :
    ∃ past w, Run threeNodes.step committedSoundly threeNodes.init past w
      ∧ ∃ v ∈ w :: past, (v.proc "b").node.commitIndex = 0
        ∧ (v.proc "a").node.committed = [⟨1, 1, [7]⟩]
        ∧ ((v.proc "a").node.committed <+: (w.proc "b").node.committed
          ∨ (w.proc "b").node.committed <+: (v.proc "a").node.committed) := by
  obtain ⟨past, w, hr, v, hv, hb, ha⟩ : ∃ past w,
      Run threeNodes.step committedSoundly threeNodes.init past w
        ∧ ∃ v ∈ w :: past, (v.proc "b").node.commitIndex = 0
          ∧ (v.proc "a").node.committed = [⟨1, 1, [7]⟩] :=
    Run.of_exec_any applyRun (by decide +kernel)
  exact ⟨past, w, hr, v, hv, hb, ha, (committed_permanent hr hv "a" "b").2.2⟩

end RaftStore
