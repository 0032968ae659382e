import Mathlib.Algebra.Group.Nat.Defs
import Mathlib.Order.Bounds.Defs
import RaftStore.Pipeline
import RaftStore.Slices

/-!
# The commit rule

`advanceCommitIndex` is written out here as its loop runs, with Go's 64-bit
counter and with `commitIndex` overwritten on the way
(`Node.advanceCommitIndexLoop`), and compared with the rule it stands for:
the largest index above the old commit index whose entry is of the current
term and is on a majority (`Node.CommitRule`).

`Node.advanceCommitIndex`, which the cluster's steps use, is the same
function (`commitLoop_spec`). The loop would not end on a log that reaches
2^64 - 1, where the counter starts again from 0.
-/

namespace RaftStore

/-! ## The last index a scan accepts -/

/-- Of an increasing list, the fold keeps the greatest element that passes,
or what it started with. -/
theorem foldl_last_greatest {p : Nat → Bool} {l : List Nat} (init : Nat)
    (h : l.Pairwise (· < ·)) :
    (∀ i ∈ l, p i = false)
        ∧ l.foldl (fun last i => if p i then i else last) init = init
      ∨ IsGreatest {i | i ∈ l ∧ p i = true}
        (l.foldl (fun last i => if p i then i else last) init) := by
  induction l generalizing init with
  | nil => exact .inl ⟨by simp, rfl⟩
  | cons i l ih =>
      obtain ⟨hi, hl⟩ := List.pairwise_cons.mp h
      rw [List.foldl_cons]
      rcases ih (if p i then i else init) hl with ⟨hnone, hfold⟩ | ⟨hin, hmax⟩
      · rw [hfold]
        by_cases hp : p i = true
        · rw [if_pos hp]
          refine .inr ⟨⟨List.mem_cons_self, hp⟩, ?_⟩
          rintro j ⟨hj, hpj⟩
          rcases List.mem_cons.mp hj with rfl | hj
          · exact Nat.le_refl _
          · cases (hnone j hj).symm.trans hpj
        · rw [if_neg hp]
          refine .inl ⟨?_, rfl⟩
          intro j hj
          rcases List.mem_cons.mp hj with rfl | hj
          · exact Bool.eq_false_iff.mpr hp
          · exact hnone j hj
      · refine .inr ⟨⟨List.mem_cons_of_mem _ hin.1, hin.2⟩, ?_⟩
        rintro j ⟨hj, hpj⟩
        rcases List.mem_cons.mp hj with rfl | hj
        · exact Nat.le_of_lt (hi _ hin.1)
        · exact hmax ⟨hj, hpj⟩

/-! ## The loop -/

namespace Node

/-- `count` as the inner loop computes it. -/
def countReplicas (n : Node) (idx : Nat) : Nat :=
  n.peers.foldl (fun count peer => if idx ≤ n.matchIndex peer then count + 1 else count) 1

/-- One round. -/
def commitRound (n : Node) (idx : Nat) : Node :=
  match n.log.entryAt idx with
  | none => n
  | some entry =>
      if entry.term ≠ n.currentTerm then n
      else if n.majority ≤ n.countReplicas idx then { n with commitIndex := idx }
      else n

/-- The rounds from `idx` on, `none` when `fuel` rounds do not end the
loop. -/
def commitLoop (lastIdx : Nat) : (fuel : Nat) → Node → (idx : Nat) → Option Node
  | 0, _, _ => none
  | fuel + 1, n, idx =>
      if idx ≤ lastIdx then
        commitLoop lastIdx fuel (n.commitRound idx) ((idx + 1) % 2 ^ 64)
      else some n

def advanceCommitIndexLoop (n : Node) (fuel : Nat) : Option Node :=
  commitLoop n.log.lastIndexAndTerm.1 fuel n ((n.commitIndex + 1) % 2 ^ 64)

theorem foldl_count (p : String → Prop) [DecidablePred p] (l : List String)
    (init : Nat) :
    l.foldl (fun count x => if p x then count + 1 else count) init
      = init + l.countP fun x => p x := by
  induction l generalizing init with
  | nil => rfl
  | cons x l ih =>
      rw [List.foldl_cons, ih, List.countP_cons]
      by_cases hx : p x
      · simp [hx]
        omega
      · simp [hx]

theorem countReplicas_eq (n : Node) (idx : Nat) :
    n.countReplicas idx = n.replicaCount idx :=
  foldl_count ..

theorem commitRound_eq (n : Node) (idx : Nat) :
    n.commitRound idx
      = { n with commitIndex := if n.committable idx then idx else n.commitIndex } := by
  unfold commitRound committable
  rw [countReplicas_eq]
  cases n.log.entryAt idx with
  | none => rfl
  | some entry =>
      by_cases hterm : entry.term = n.currentTerm
      · by_cases hcount : n.majority ≤ n.replicaCount idx
        · simp [hterm, hcount]
        · simp [hterm, hcount]
      · simp [hterm]

/-- The loop from `idx` on is the fold over what is left of the log. -/
theorem commitLoop_eq {lastIdx : Nat} (hlast : lastIdx < 2 ^ 64 - 1) {fuel : Nat}
    (n : Node) {idx : Nat} (hfuel : lastIdx + 1 - idx < fuel) :
    commitLoop lastIdx fuel n idx
      = some { n with
          commitIndex := (List.range' idx (lastIdx + 1 - idx)).foldl
            (fun commit i => if n.committable i then i else commit)
            n.commitIndex } := by
  induction fuel generalizing n idx with
  | zero => omega
  | succ fuel ih =>
      rw [commitLoop]
      by_cases hidx : idx ≤ lastIdx
      · -- the counter does not wrap: `idx` is at most 2^64 - 2
        rw [if_pos hidx, Nat.mod_eq_of_lt (by omega), ih _ (by omega), commitRound_eq,
          show lastIdx + 1 - idx = lastIdx + 1 - (idx + 1) + 1 by omega,
          List.range'_succ, List.foldl_cons]
        rfl
      · rw [if_neg hidx, show lastIdx + 1 - idx = 0 by omega]
        rfl

theorem commitLoop_spec {n : Node} (hcommit : n.commitIndex < 2 ^ 64 - 1)
    (hlast : n.log.lastIndex < 2 ^ 64 - 1) {fuel : Nat}
    (hfuel : n.log.lastIndex - n.commitIndex < fuel) :
    n.advanceCommitIndexLoop fuel = some n.advanceCommitIndex := by
  have hfuel' : n.log.lastIndex + 1 - (n.commitIndex + 1) < fuel := by omega
  have hloop := commitLoop_eq hlast n hfuel'
  rw [Nat.add_sub_add_right] at hloop
  unfold advanceCommitIndexLoop
  rw [Nat.mod_eq_of_lt (by omega)]
  exact hloop

/-! ## The rule -/

/-- Index `i` may become the commit index. -/
def CommitRule (n : Node) (i : Nat) : Prop :=
  n.commitIndex < i ∧ i ≤ n.log.lastIndex
    ∧ (∃ e ∈ n.log.entries, e.index = i ∧ e.term = n.currentTerm)
    ∧ (n.peers.length + 1) / 2 + 1
      ≤ 1 + (n.peers.toFinset.filter fun peer => i ≤ n.matchIndex peer).card

theorem replicaCount_card {n : Node} (hpeers : n.peers.Nodup) (i : Nat) :
    n.replicaCount i
      = 1 + (n.peers.toFinset.filter fun peer => i ≤ n.matchIndex peer).card := by
  have hfilter : (n.peers.toFinset.filter fun peer => i ≤ n.matchIndex peer)
      = (n.peers.filter fun peer => i ≤ n.matchIndex peer).toFinset := by
    rw [List.toFinset_filter]
    simp only [decide_eq_true_eq]
  rw [hfilter, List.toFinset_card_of_nodup (hpeers.filter _), replicaCount,
    List.countP_eq_length_filter]

theorem committable_iff {n : Node} (hlog : n.log.Positional)
    (hpeers : n.peers.Nodup) {i : Nat} :
    n.committable i = true
      ↔ (∃ e ∈ n.log.entries, e.index = i ∧ e.term = n.currentTerm)
        ∧ (n.peers.length + 1) / 2 + 1
          ≤ 1 + (n.peers.toFinset.filter fun peer => i ≤ n.matchIndex peer).card := by
  unfold committable
  rw [← replicaCount_card hpeers]
  constructor
  · intro h
    split at h
    · rename_i e he
      obtain ⟨hterm, hcount⟩ := Bool.and_eq_true_iff.mp h
      exact ⟨⟨e, List.mem_of_find?_eq_some he, LogStore.entryAt_index he,
        of_decide_eq_true hterm⟩, of_decide_eq_true hcount⟩
    · cases h
  · rintro ⟨⟨e, he, rfl, hterm⟩, hcount⟩
    obtain ⟨k, hk⟩ := List.mem_iff_getElem?.mp he
    rw [hlog.entryAt_eq, hlog.index k e hk, Nat.zero_add, hk]
    exact Bool.and_eq_true_iff.mpr ⟨decide_eq_true hterm,
      decide_eq_true (by rwa [hlog.index k e hk, Nat.zero_add] at hcount)⟩

/-- The indices the loop goes through that pass are those of the rule. -/
theorem committable_commitRule {n : Node} (hlog : n.log.Positional)
    (hpeers : n.peers.Nodup) {i : Nat} :
    i ∈ List.range' (n.commitIndex + 1) (n.log.lastIndexAndTerm.1 - n.commitIndex)
        ∧ n.committable i = true
      ↔ n.CommitRule i := by
  have hrange : i ∈ List.range' (n.commitIndex + 1)
      (n.log.lastIndexAndTerm.1 - n.commitIndex)
      ↔ n.commitIndex < i ∧ i ≤ n.log.lastIndex := by
    rw [List.mem_range'_1, LogStore.lastIndex]
    omega
  rw [committable_iff hlog hpeers, hrange, and_assoc]
  rfl

end Node

/-- `advanceCommitIndex` ends and leaves in `commitIndex` the largest index
the rule allows, or its old value; nothing else changes. -/
theorem advanceCommitIndex_commit_rule {n : Node} (hlog : n.log.Positional)
    (hpeers : n.peers.Nodup) (hcommit : n.commitIndex < 2 ^ 64 - 1)
    (hlast : n.log.lastIndex < 2 ^ 64 - 1) :
    ∃ i, (∀ fuel, n.log.lastIndex - n.commitIndex < fuel →
        n.advanceCommitIndexLoop fuel = some { n with commitIndex := i })
      ∧ n.advanceCommitIndex = { n with commitIndex := i }
      ∧ ((∀ j, ¬ n.CommitRule j) ∧ i = n.commitIndex
        ∨ IsGreatest {j | n.CommitRule j} i) := by
  refine ⟨n.lastCommittable, fun fuel hfuel => Node.commitLoop_spec hcommit hlast hfuel,
    rfl, ?_⟩
  have hrule : {j | j ∈ List.range' (n.commitIndex + 1)
      (n.log.lastIndexAndTerm.1 - n.commitIndex) ∧ n.committable j = true}
      = {j | n.CommitRule j} :=
    Set.ext fun j => Node.committable_commitRule hlog hpeers
  rcases foldl_last_greatest (p := n.committable) n.commitIndex
    (List.pairwise_lt_range' (s := n.commitIndex + 1)
      (n := n.log.lastIndexAndTerm.1 - n.commitIndex)) with ⟨hnone, hsame⟩ | hgreatest
  · refine .inl ⟨?_, hsame⟩
    intro j hj
    obtain ⟨hin, hcomm⟩ := (Node.committable_commitRule hlog hpeers).mpr hj
    cases (hnone j hin).symm.trans hcomm
  · rw [hrule] at hgreatest
    exact .inr hgreatest

/-- A leader of term 2 that knows index 3 on `b`, and on `c` only index 1,
which is of term 1. -/
def countingLeader : Node :=
  { newNode "a" ["b", "c"] with
    currentTerm := 2
    log := senderLog
    matchIndex := fun peer => if peer = "b" then 3 else 1 }

theorem advanceCommitIndex_commit_rule_a :
    countingLeader.advanceCommitIndexLoop 4
        = some { countingLeader with commitIndex := 3 }
      ∧ IsGreatest {j | countingLeader.CommitRule j} 3 := by
  obtain ⟨i, hloop, hadvance, hcases⟩ :=
    advanceCommitIndex_commit_rule (n := countingLeader)
      senderLog_represented.positional (by decide) (by decide) (by decide)
  obtain rfl : i = 3 := (congrArg Node.commitIndex hadvance).symm.trans (by decide)
  rcases hcases with ⟨-, hold⟩ | hgreatest
  · exact absurd hold (by decide)
  · exact ⟨hloop 4 (by decide), hgreatest⟩

end RaftStore
