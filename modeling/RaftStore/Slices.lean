import RaftStore.Pieces

/-!
# Slices of a sender's log

`HandleAppendEntries` at a request that carries any slice of a sender's
log, for any two logs that are represented well and match. Nothing here
depends on how the cluster got there, so the facts hold of requests that
are late, doubled or out of order.

The effect of a passed consistency check is `absorb`: a log that has the
sender's log up to the end of the slice stays as it is, any other one
becomes just that part of the sender's log (`handleAppendEntries_slice`).
What an accepted request leaves (`accepted_slice_agrees`) and that stale
and doubled requests do no harm (`stale_append_harmless`) are facts about
`absorb`.
-/

namespace RaftStore

open LeaderLog

/-! ## Absorbing a prefix -/

section Absorb

variable {α : Type} [DecidableEq α]

/-- `l` if it has `pre` already, else `pre`. -/
def absorb (pre l : List α) : List α := if pre <+: l then l else pre

theorem absorb_cases (pre l : List α) :
    (pre <+: l ∧ absorb pre l = l) ∨ (¬ pre <+: l ∧ absorb pre l = pre) := by
  unfold absorb
  split
  · exact .inl ⟨‹_›, rfl⟩
  · exact .inr ⟨‹_›, rfl⟩

theorem prefix_absorb (pre l : List α) : pre <+: absorb pre l := by
  rcases absorb_cases pre l with ⟨hpre, heq⟩ | ⟨-, heq⟩
  · rwa [heq]
  · simp only [heq, List.prefix_rfl]

/-- What is absorbed later does not take away a part of the same log. -/
theorem absorb_keeps {full a b l : List α} (ha : a <+: full) (hb : b <+: full)
    (hal : a <+: l) : a <+: absorb b l := by
  rcases absorb_cases b l with ⟨-, heq⟩ | ⟨hnot, heq⟩
  · rwa [heq]
  · rw [heq]
    rcases List.prefix_or_prefix_of_prefix ha hb with hab | hba
    · exact hab
    · exact absurd (hba.trans hal) hnot

theorem absorb_comm_of_shorter {a b : List α} (hab : a <+: b) (l : List α) :
    absorb a (absorb b l) = absorb b (absorb a l) := by
  have hleft : absorb a (absorb b l) = absorb b l :=
    if_pos (hab.trans (prefix_absorb b l))
  rw [hleft]
  rcases absorb_cases a l with ⟨-, heq⟩ | ⟨hnot, heq⟩
  · rw [heq]
  · have hb : ¬ b <+: l := fun hbl => hnot (hab.trans hbl)
    rw [heq, show absorb b l = b from if_neg hb]
    rcases absorb_cases b a with ⟨hba, heq'⟩ | ⟨-, heq'⟩
    · rw [heq']
      exact hba.eq_of_length_le hab.length_le
    · rw [heq']

theorem absorb_comm {full a b : List α} (ha : a <+: full) (hb : b <+: full)
    (l : List α) : absorb a (absorb b l) = absorb b (absorb a l) := by
  rcases List.prefix_or_prefix_of_prefix ha hb with hab | hba
  · exact absorb_comm_of_shorter hab l
  · exact (absorb_comm_of_shorter hba l).symm

end Absorb

/-! ## Represented logs -/

namespace LogStore

/-- The representation invariant on its own, without a node's term. -/
structure Represented (l : LogStore) : Prop where
  positional : l.Positional
  sorted : l.entries.Pairwise fun a b => a.term ≤ b.term

/-- Log Matching of two logs. -/
def Matches (l l' : LogStore) : Prop :=
  ∀ e ∈ l.entries, ∀ e' ∈ l'.entries, e.index = e'.index → e.term = e'.term →
    ∀ i, i ≤ e.index → l.entryAt i = l'.entryAt i

instance (l l' : LogStore) : Decidable (l.Matches l') :=
  inferInstanceAs (Decidable (∀ e ∈ l.entries, ∀ e' ∈ l'.entries,
    e.index = e'.index → e.term = e'.term →
      ∀ i, i ≤ e.index → l.entryAt i = l'.entryAt i))

/-- An entry of the request stands against an entry of another term. -/
def Conflicts (l : LogStore) (entries : List LogEntry) : Prop :=
  ∃ e ∈ entries, ∃ x, l.entryAt e.index = some x ∧ x.term ≠ e.term

theorem eq_of_entries {l l' : LogStore} (h : l.entries = l'.entries) : l = l' :=
  congrArg LogStore.mk h

theorem Positional.length_eq {l : LogStore} (h : l.Positional) :
    l.entries.length = l.lastIndex + 1 := by
  rw [h.lastIndex_eq, h.entries_eq, List.length_cons]

theorem Positional.body_take {l : LogStore} (h : l.Positional) (i : Nat) :
    l.entries.take (i + 1) = sentinel :: l.body.take i := by
  rw [h.entries_eq, List.take_succ_cons]

theorem Positional.of_shorter {l l' : LogStore} (h : l.Positional)
    (hpre : l'.entries <+: l.entries) (hne : l'.entries ≠ []) :
    l'.Positional where
  head := by
    rw [← h.head]
    obtain ⟨rest, hrest⟩ := hpre
    rw [← hrest, List.head?_append_of_ne_nil _ hne]
  index k e hk := h.index k e (prefix_getElem? hpre hk)

theorem Represented.of_shorter {l l' : LogStore} (h : l.Represented)
    (hpre : l'.entries <+: l.entries) (hne : l'.entries ≠ []) :
    l'.Represented where
  positional := h.positional.of_shorter hpre hne
  sorted := h.sorted.sublist hpre.sublist

theorem Positional.mem_le {l : LogStore} (h : l.Positional) {e : LogEntry}
    (he : e ∈ l.entries) : e.index < l.entries.length := by
  obtain ⟨k, hk⟩ := List.mem_iff_getElem?.mp he
  rw [h.index k e hk, Nat.zero_add]
  exact (List.getElem?_eq_some_iff.mp hk).1

/-- A prefix agrees with the whole as far as it reaches. -/
theorem entryAt_of_shorter {l l' : LogStore} (h : l.Positional)
    (h' : l'.Positional) (hpre : l'.entries <+: l.entries) {i : Nat}
    (hi : i < l'.entries.length) : l'.entryAt i = l.entryAt i := by
  rw [h.entryAt_eq, h'.entryAt_eq, List.getElem?_eq_getElem hi]
  exact (prefix_getElem? hpre (List.getElem?_eq_getElem hi)).symm

/-- A log that has the beginning of another agrees with it there. -/
theorem entryAt_of_cover {l l' : LogStore} (h : l.Positional)
    (h' : l'.Positional) {e i : Nat}
    (hcover : l.entries.take e <+: l'.entries) (hi : i < e)
    (hlen : i < l.entries.length) : l'.entryAt i = l.entryAt i := by
  have hat : (l.entries.take e)[i]? = some l.entries[i] := by
    rw [List.getElem?_take_of_lt hi, List.getElem?_eq_getElem hlen]
  rw [h.entryAt_eq, h'.entryAt_eq, prefix_getElem? hcover hat,
    List.getElem?_eq_getElem hlen]

theorem Matches.symm {l l' : LogStore} (h : l.Matches l') : l'.Matches l := by
  intro e he e' he' hindex hterm i hi
  exact (h e' he' e he hindex.symm hterm.symm i (by omega)).symm

theorem matches_self (l : LogStore) : l.Matches l :=
  fun _ _ _ _ _ _ _ _ => rfl

/-- A log that matches another matches every prefix of it. -/
theorem Matches.of_shorter {g l l' : LogStore} (h : g.Matches l)
    (hl : l.Positional) (hl' : l'.Positional)
    (hpre : l'.entries <+: l.entries) : g.Matches l' := by
  intro e he e' he' hindex hterm i hi
  have hlen := hl'.mem_le he'
  rw [h e he e' (hpre.subset he') hindex hterm i hi]
  exact (entryAt_of_shorter hl hl' hpre (by omega)).symm

theorem Matches.body {l l' : LogStore} (hl : l.Positional)
    (hl' : l'.Positional) (h : l.Matches l') : Matching l.body l'.body := by
  intro k t ht ht'
  obtain ⟨e, he, rfl⟩ := Option.map_eq_some_iff.mp ht
  obtain ⟨e', he', hterm⟩ := Option.map_eq_some_iff.mp ht'
  have hmem : e ∈ l.entries := List.mem_of_mem_tail (List.mem_of_getElem? he)
  have hmem' : e' ∈ l'.entries := List.mem_of_mem_tail (List.mem_of_getElem? he')
  have hindex := hl.body_index k e he
  have hindex' := hl'.body_index k e' he'
  refine List.ext_getElem? ?_
  intro i
  simp only [List.getElem?_take]
  split
  · rw [← hl.entryAt_succ, ← hl'.entryAt_succ]
    exact h e hmem e' hmem' (by omega) hterm.symm (i + 1) (by omega)
  · rfl

end LogStore

/-! ## Slices -/

/-- The request carries `S[p+1..p+k]` behind `S[p]`; its term and
`LeaderCommit` are arbitrary. -/
structure AppendEntriesArgs.SliceOf (args : AppendEntriesArgs) (S : LogStore)
    (p k : Nat) : Prop where
  within : p + k ≤ S.lastIndex
  prevLogIndex : args.prevLogIndex = p
  prevLogTerm : (S.entryAt p).map LogEntry.term = some args.prevLogTerm
  entries : args.entries = (S.entries.drop (p + 1)).take k

section Slice

variable {S S' : LogStore} {args : AppendEntriesArgs} {p k : Nat}

theorem AppendEntriesArgs.SliceOf.length (h : args.SliceOf S p k)
    (hS : S.Positional) : args.entries.length = k := by
  have := h.within
  have := hS.length_eq
  rw [h.entries, List.length_take, List.length_drop]
  omega

theorem AppendEntriesArgs.SliceOf.indexed (h : args.SliceOf S p k)
    (hS : S.Positional) :
    IndexedFrom (args.prevLogIndex + 1) args.entries := by
  rw [h.prevLogIndex, h.entries]
  have := (hS.index.drop (p + 1)).take k
  rwa [Nat.zero_add] at this

theorem AppendEntriesArgs.SliceOf.piece (h : args.SliceOf S p k)
    (hS : S.Positional) : Piece S.body args where
  length := by
    rw [h.length hS, h.prevLogIndex, ← hS.lastIndex_eq]
    exact h.within
  entries := by
    rw [h.length hS, h.prevLogIndex, h.entries, List.take_add, hS.entries_eq,
      List.drop_succ_cons]
  prev hpos := by
    rw [h.prevLogIndex] at hpos ⊢
    rw [LogStore.termAt, ← hS.entryAt_pos hpos]
    exact h.prevLogTerm

/-- A slice of a log is a slice of every longer one. -/
theorem AppendEntriesArgs.SliceOf.mono (h : args.SliceOf S p k)
    (hS : S.Positional) (hS' : S'.Positional)
    (hpre : S.entries <+: S'.entries) : args.SliceOf S' p k := by
  have hwithin := h.within
  have hlen := hS.length_eq
  have hlen' := hS'.length_eq
  have hle := hpre.length_le
  refine ⟨by omega, h.prevLogIndex, ?_, ?_⟩
  · rw [← LogStore.entryAt_of_shorter hS' hS hpre (by omega)]
    exact h.prevLogTerm
  · obtain ⟨rest, hrest⟩ := hpre
    rw [h.entries, ← hrest, List.drop_append_of_le_length (by omega),
      List.take_append_of_le_length]
    rw [List.length_drop]
    omega

/-- The append loop on a slice. -/
theorem LogStore.Positional.installAll_slice {F : LogStore}
    (hF : F.Positional) (hS : S.Positional) (hm : F.Matches S)
    (h : args.SliceOf S p k) (hprev : F.matchesPrev args = true) :
    (F.installAll args.entries).entries
      = absorb (S.entries.take (p + k + 1)) F.entries := by
  have hpre : S.entries.take (p + k + 1) <+: F.entries
      ↔ S.body.take (p + k) <+: F.body := by
    rw [hS.body_take, hF.entries_eq, List.cons_prefix_cons]
    simp only [true_and, body]
  have hcases := (h.piece hS).install_cases hF (h.indexed hS) (hm.body hF hS) hprev
  rw [h.length hS, h.prevLogIndex] at hcases
  rcases hcases with ⟨heq, hin⟩ | ⟨hpos, hbody, hnot⟩
  · rw [heq]
    exact (if_pos (hpre.mpr hin)).symm
  · rw [hpos.entries_eq, hbody, ← hS.body_take]
    exact (if_neg (fun hin => hnot (hpre.mp hin))).symm

end Slice

/-! ## Handling a slice -/

section Handle

variable {S : LogStore} {n : Node} {args : AppendEntriesArgs} {p k : Nat}

theorem Node.handleAppendEntries_slice (hS : S.Positional)
    (hF : n.log.Positional) (hm : n.log.Matches S) (h : args.SliceOf S p k) :
    ((n.handleAppendEntries args).2.1.success = true
        ∧ n.log.matchesPrev args = true
        ∧ (n.handleAppendEntries args).1.log.entries
          = absorb (S.entries.take (p + k + 1)) n.log.entries)
      ∨ ((n.handleAppendEntries args).2.1.success = false
        ∧ (n.handleAppendEntries args).1.log = n.log
        ∧ (n.handleAppendEntries args).1.commitIndex = n.commitIndex
        ∧ (n.handleAppendEntries args).1.lastApplied = n.lastApplied) := by
  have hout := n.handleAppendEntries_outcome args
  generalize n.handleAppendEntries args = out at hout
  cases hout with
  | stale hterm => exact .inr ⟨rfl, rfl, rfl, rfl⟩
  | rejected hterm hn' hprev =>
      obtain ⟨-, hlog, -, -, hcommit, happlied, -⟩ := n.observeLeader_spec hterm
      subst hn'
      exact .inr ⟨rfl, hlog, hcommit, happlied⟩
  | accepted hterm hn' hprev =>
      obtain ⟨-, hlog, -⟩ := n.observeLeader_spec hterm
      subst hn'
      rw [hlog] at hprev
      refine .inl ⟨rfl, hprev, ?_⟩
      rw [← hF.installAll_slice hS hm h hprev, ← hlog]
      unfold Node.acceptEntries
      split <;> rfl

/-- The log of a node that takes `S[p+1..p+k]` is as it was or a prefix of
`S`. -/
theorem absorb_log {F N : LogStore} (hS : S.Represented)
    {e : Nat} (hN : N.entries = absorb (S.entries.take (e + 1)) F.entries) :
    N = F ∨ (N.entries <+: S.entries ∧ N.Represented) := by
  rcases absorb_cases (S.entries.take (e + 1)) F.entries with
    ⟨-, heq⟩ | ⟨-, heq⟩
  · exact .inl (LogStore.eq_of_entries (hN.trans heq))
  · right
    rw [heq] at hN
    have hpre : N.entries <+: S.entries := hN ▸ List.take_prefix ..
    refine ⟨hpre, hS.of_shorter hpre ?_⟩
    rw [hN, hS.positional.body_take]
    simp

end Handle

/-! ## An accepted request -/

/-- What the receiver's log `F` has become (`N`) after it accepted the
slice `S[p+1..p+k]`. -/
structure LogStore.SliceTaken (S F N : LogStore) (p k : Nat)
    (entries : List LogEntry) : Prop where
  agrees : ∀ i, i ≤ p + k → N.entryAt i = S.entryAt i
  represented : N.Represented
  matches_sender : N.Matches S
  matches_third : ∀ G : LogStore, G.Matches S → G.Matches F → G.Matches N
  rest : (¬ F.Conflicts entries ∧ ∀ i, p + k < i → N.entryAt i = F.entryAt i)
    ∨ (F.Conflicts entries ∧ N.lastIndex = p + k)

section Accepted

variable {S F N : LogStore} {n : Node} {args : AppendEntriesArgs} {p k : Nat}

/-- A log that has the slice has no conflict with it. -/
theorem not_conflicts_of_shorter (hS : S.Positional) (hF : F.Positional)
    (h : args.SliceOf S p k)
    (hpre : S.entries.take (p + k + 1) <+: F.entries) :
    ¬ F.Conflicts args.entries := by
  rintro ⟨e, he, x, hx, hne⟩
  rw [h.entries] at he
  obtain ⟨i, hi⟩ := List.mem_iff_getElem?.mp he
  rw [List.getElem?_take] at hi
  split at hi
  · rename_i hlt
    rw [List.getElem?_drop] at hi
    have hindex := hS.index _ e hi
    have hin : (S.entries.take (p + k + 1))[p + 1 + i]? = some e := by
      rw [List.getElem?_take_of_lt (by omega), hi]
    have hxe := prefix_getElem? hpre hin
    rw [hF.entryAt_eq, hindex, Nat.zero_add, hxe] at hx
    exact hne (congrArg LogEntry.term (Option.some.inj hx)).symm
  · cases hi

/-- A log that lacks the slice and has no conflict with it is too short. -/
theorem short_of_not_conflicts (hS : S.Positional) (hF : F.Positional)
    (hm : F.Matches S) (h : args.SliceOf S p k)
    (hprev : F.matchesPrev args = true) (hno : ¬ F.Conflicts args.entries)
    (hnot : ¬ S.entries.take (p + k + 1) <+: F.entries) :
    F.entries.length ≤ p + k := by
  by_contra hlong
  refine hnot ?_
  have hlen := h.length hS
  -- every entry of the request is skipped
  have hagree : ∀ i, i < args.entries.length →
      LogStore.termAt F.body (args.prevLogIndex + i)
        = LogStore.termAt args.entries i := by
    intro i hi
    have hget := List.getElem?_eq_getElem hi
    have hindex := h.indexed hS i _ hget
    rw [h.prevLogIndex] at hindex ⊢
    obtain ⟨x, hx⟩ : ∃ x, F.body[p + i]? = some x := by
      refine ⟨_, List.getElem?_eq_getElem ?_⟩
      rw [hF.entries_eq, List.length_cons] at hlong
      omega
    have hat : F.entryAt args.entries[i].index = some x := by
      rw [hindex, show p + 1 + i = p + i + 1 by omega, hF.entryAt_succ, hx]
    have hterm : x.term = args.entries[i].term := by
      by_contra hne
      exact hno ⟨_, List.getElem_mem hi, x, hat, hne⟩
    rw [LogStore.termAt, LogStore.termAt, hx, hget]
    exact congrArg some hterm
  have htake := (h.piece hS).take_agree hF (hm.body hF hS) hprev
    (Nat.le_refl _) hagree
  rw [h.prevLogIndex, hlen] at htake
  rw [hS.body_take, ← htake, ← hF.body_take]
  exact List.take_prefix ..

theorem sliceTaken_of_absorb (hS : S.Represented) (hF : F.Represented)
    (hm : F.Matches S) (h : args.SliceOf S p k)
    (hprev : F.matchesPrev args = true)
    (hN : N.entries = absorb (S.entries.take (p + k + 1)) F.entries) :
    S.SliceTaken F N p k args.entries := by
  have hlen := hS.positional.length_eq
  have hwithin := h.within
  have hcover : S.entries.take (p + k + 1) <+: N.entries := hN ▸ prefix_absorb ..
  have hrep : N.Represented := by
    rcases absorb_log hS hN with rfl | ⟨-, hrep⟩
    · exact hF
    · exact hrep
  refine ⟨?_, hrep, ?_, ?_, ?_⟩
  · intro i hi
    exact LogStore.entryAt_of_cover hS.positional hrep.positional hcover
      (by omega) (by omega)
  · rcases absorb_log hS hN with rfl | ⟨hpre, -⟩
    · exact hm
    · exact ((LogStore.matches_self S).of_shorter hS.positional hrep.positional
        hpre).symm
  · intro G hGS hGF
    rcases absorb_log hS hN with rfl | ⟨hpre, -⟩
    · exact hGF
    · exact hGS.of_shorter hS.positional hrep.positional hpre
  · rcases absorb_cases (S.entries.take (p + k + 1)) F.entries with
      ⟨hpre, heq⟩ | ⟨hnot, heq⟩
    · left
      have hsame : N = F := LogStore.eq_of_entries (hN.trans heq)
      exact ⟨not_conflicts_of_shorter hS.positional hF.positional h hpre,
        fun i _ => hsame ▸ rfl⟩
    · have hNlen : N.entries.length = p + k + 1 := by
        rw [hN, heq, List.length_take_of_le (by omega)]
      by_cases hconf : F.Conflicts args.entries
      · right
        have := hrep.positional.length_eq
        exact ⟨hconf, by omega⟩
      · left
        have hshort := short_of_not_conflicts hS.positional hF.positional hm h
          hprev hconf hnot
        refine ⟨hconf, ?_⟩
        intro i hi
        rw [hrep.positional.entryAt_eq, hF.positional.entryAt_eq,
          List.getElem?_eq_none (by omega), List.getElem?_eq_none (by omega)]

theorem accepted_slice_agrees (hS : S.Represented) (hF : n.log.Represented)
    (hm : n.log.Matches S) (hslice : args.SliceOf S p k) :
    ((n.handleAppendEntries args).2.1.success = true →
        S.SliceTaken n.log (n.handleAppendEntries args).1.log p k args.entries)
      ∧ ((n.handleAppendEntries args).2.1.success = false →
        (n.handleAppendEntries args).1.log = n.log
          ∧ (n.handleAppendEntries args).1.commitIndex = n.commitIndex
          ∧ (n.handleAppendEntries args).1.lastApplied = n.lastApplied) := by
  rcases n.handleAppendEntries_slice hS.positional hF.positional hm hslice with
    ⟨hok, hprev, hlog⟩ | ⟨hfail, hsame⟩
  · refine ⟨fun _ => sliceTaken_of_absorb hS hF hm hslice hprev hlog, ?_⟩
    intro hfail
    rw [hok] at hfail
    cases hfail
  · refine ⟨?_, fun _ => hsame⟩
    intro hok
    rw [hfail] at hok
    cases hok

end Accepted

/-- A leader's log of two terms, for the concrete runs below. -/
def senderLog : LogStore :=
  ⟨[sentinel, ⟨1, 1, [97]⟩, ⟨2, 2, [98]⟩, ⟨2, 3, [99]⟩]⟩

/-- A follower that parted from `senderLog` at index 2. -/
def partedFollower : Node :=
  { newNode "b" ["a", "c"] with
    currentTerm := 1
    log := ⟨[sentinel, ⟨1, 1, [97]⟩, ⟨1, 2, [120]⟩, ⟨1, 3, [121]⟩]⟩ }

theorem senderLog_represented : senderLog.Represented :=
  ⟨⟨rfl, by simp [senderLog, sentinel, indexedFrom_cons, IndexedFrom.nil]⟩,
    by decide⟩

theorem partedFollower_represented : partedFollower.log.Represented :=
  ⟨⟨rfl, by simp [partedFollower, sentinel, indexedFrom_cons, IndexedFrom.nil]⟩,
    by decide⟩

/-- `senderLog[2..2]` behind index 1. -/
def oneEntry : AppendEntriesArgs := ⟨2, "a", 1, 1, [⟨2, 2, [98]⟩], 0⟩

theorem oneEntry_slice : oneEntry.SliceOf senderLog 1 1 :=
  ⟨by decide, rfl, rfl, rfl⟩

theorem accepted_slice_agrees_b :
    (partedFollower.handleAppendEntries oneEntry).2.1.success = true
      ∧ senderLog.SliceTaken partedFollower.log
        (partedFollower.handleAppendEntries oneEntry).1.log 1 1
        oneEntry.entries :=
  ⟨by decide, (accepted_slice_agrees senderLog_represented
    partedFollower_represented (by decide) oneEntry_slice).1 (by decide)⟩

/-! ## Late and doubled requests -/

/-- The node after it handled the requests one by one. -/
def Node.handleAll (n : Node) (ms : List AppendEntriesArgs) : Node :=
  ms.foldl (fun n m => (n.handleAppendEntries m).1) n

section Stale

variable {S : LogStore} {n : Node}

/-- A slice of `S`, accepted or not, leaves a log that matches `S`, with
every part of `S` that it had. -/
theorem Node.handleAppendEntries_keeps (hS : S.Represented)
    (hF : n.log.Represented) (hm : n.log.Matches S) {args : AppendEntriesArgs}
    {p k : Nat} (h : args.SliceOf S p k) :
    (n.handleAppendEntries args).1.log.Represented
      ∧ (n.handleAppendEntries args).1.log.Matches S
      ∧ ∀ pre, pre <+: S.entries → pre <+: n.log.entries →
        pre <+: (n.handleAppendEntries args).1.log.entries := by
  rcases n.handleAppendEntries_slice hS.positional hF.positional hm h with
    ⟨-, hprev, hlog⟩ | ⟨-, hsame, -⟩
  · have htaken := sliceTaken_of_absorb hS hF hm h hprev hlog
    refine ⟨htaken.represented, htaken.matches_sender, ?_⟩
    intro pre hpre hcov
    rw [hlog]
    exact absorb_keeps hpre (List.take_prefix ..) hcov
  · rw [hsame]
    exact ⟨hF, hm, fun _ _ hcov => hcov⟩

theorem Node.handleAll_keeps (hS : S.Represented) {ms : List AppendEntriesArgs}
    (hms : ∀ m ∈ ms, ∃ p k, m.SliceOf S p k) (hF : n.log.Represented)
    (hm : n.log.Matches S) {pre : List LogEntry} (hpre : pre <+: S.entries)
    (hcov : pre <+: n.log.entries) :
    (n.handleAll ms).log.Represented
      ∧ pre <+: (n.handleAll ms).log.entries := by
  induction ms generalizing n with
  | nil => exact ⟨hF, hcov⟩
  | cons m ms ih =>
      obtain ⟨p, k, h⟩ := hms m List.mem_cons_self
      obtain ⟨hF', hm', hkeep⟩ := n.handleAppendEntries_keeps hS hF hm h
      exact ih (fun x hx => hms x (List.mem_cons_of_mem _ hx)) hF' hm'
        (hkeep pre hpre hcov)

/-- The log after a slice that was accepted. -/
theorem Node.handleAppendEntries_absorbs (hS : S.Represented)
    (hF : n.log.Represented) (hm : n.log.Matches S) {args : AppendEntriesArgs}
    {p k : Nat} (h : args.SliceOf S p k)
    (hok : (n.handleAppendEntries args).2.1.success = true) :
    (n.handleAppendEntries args).1.log.entries
      = absorb (S.entries.take (p + k + 1)) n.log.entries := by
  rcases n.handleAppendEntries_slice hS.positional hF.positional hm h with
    ⟨-, -, hlog⟩ | ⟨hfail, -⟩
  · exact hlog
  · rw [hok] at hfail
    cases hfail

/-- Two slices of one log, accepted in both orders. -/
theorem Node.handleAppendEntries_comm (hS : S.Represented)
    (hF : n.log.Represented) (hm : n.log.Matches S)
    {a b : AppendEntriesArgs} {p k p' k' : Nat} (ha : a.SliceOf S p k)
    (hb : b.SliceOf S p' k')
    (hfst : (n.handleAppendEntries a).2.1.success = true)
    (hsnd : ((n.handleAppendEntries a).1.handleAppendEntries b).2.1.success
      = true)
    (hfst' : (n.handleAppendEntries b).2.1.success = true)
    (hsnd' : ((n.handleAppendEntries b).1.handleAppendEntries a).2.1.success
      = true) :
    ((n.handleAppendEntries a).1.handleAppendEntries b).1.log
      = ((n.handleAppendEntries b).1.handleAppendEntries a).1.log := by
  obtain ⟨hFa, hma, -⟩ := n.handleAppendEntries_keeps hS hF hm ha
  obtain ⟨hFb, hmb, -⟩ := n.handleAppendEntries_keeps hS hF hm hb
  have hab := Node.handleAppendEntries_absorbs hS hFa hma hb hsnd
  have hba := Node.handleAppendEntries_absorbs hS hFb hmb ha hsnd'
  rw [n.handleAppendEntries_absorbs hS hF hm ha hfst] at hab
  rw [n.handleAppendEntries_absorbs hS hF hm hb hfst'] at hba
  refine LogStore.eq_of_entries ?_
  rw [hab, hba]
  exact absorb_comm (List.take_prefix ..) (List.take_prefix ..) _

end Stale

/-- The term of the requests plays no part: a request that comes too late
for the receiver's term leaves the log alone. -/
theorem stale_append_harmless {S₁ S₂ : LogStore} {n : Node}
    {M₁ M₂ : AppendEntriesArgs} {p₁ k₁ p₂ k₂ : Nat} (hS₁ : S₁.Represented)
    (hS₂ : S₂.Represented) (hpre : S₁.entries <+: S₂.entries)
    (hF : n.log.Represented) (hm : n.log.Matches S₂)
    (hM₁ : M₁.SliceOf S₁ p₁ k₁) (hM₂ : M₂.SliceOf S₂ p₂ k₂) :
    ((n.handleAppendEntries M₂).2.1.success = true →
        ∀ ms : List AppendEntriesArgs, (∀ m ∈ ms, m = M₁ ∨ m = M₂) →
        ∀ i, i ≤ p₂ + k₂ →
          ((n.handleAppendEntries M₂).1.handleAll ms).log.entryAt i
            = (n.handleAppendEntries M₂).1.log.entryAt i)
      ∧ ((n.handleAppendEntries M₁).2.1.success = true →
        ((n.handleAppendEntries M₁).1.handleAppendEntries M₂).2.1.success
          = true →
        (n.handleAppendEntries M₂).2.1.success = true →
        ((n.handleAppendEntries M₂).1.handleAppendEntries M₁).2.1.success
          = true →
        ((n.handleAppendEntries M₁).1.handleAppendEntries M₂).1.log
          = ((n.handleAppendEntries M₂).1.handleAppendEntries M₁).1.log) := by
  have hM₁' := hM₁.mono hS₁.positional hS₂.positional hpre
  refine ⟨?_, ?_⟩
  · intro hok ms hms i hi
    have hlen := hS₂.positional.length_eq
    have hwithin := hM₂.within
    have hslices : ∀ m ∈ ms, ∃ p k, m.SliceOf S₂ p k := by
      intro m hmem
      rcases hms m hmem with rfl | rfl
      · exact ⟨_, _, hM₁'⟩
      · exact ⟨_, _, hM₂⟩
    have hcover : S₂.entries.take (p₂ + k₂ + 1)
        <+: (n.handleAppendEntries M₂).1.log.entries := by
      have hlog := n.handleAppendEntries_absorbs hS₂ hF hm hM₂ hok
      exact hlog ▸ prefix_absorb ..
    obtain ⟨hF', hm', -⟩ := n.handleAppendEntries_keeps hS₂ hF hm hM₂
    obtain ⟨hF'', hcover'⟩ := Node.handleAll_keeps hS₂ hslices hF' hm'
      (List.take_prefix ..) hcover
    rw [LogStore.entryAt_of_cover hS₂.positional hF''.positional hcover'
        (by omega) (by omega),
      LogStore.entryAt_of_cover hS₂.positional hF'.positional hcover
        (by omega) (by omega)]
  · exact n.handleAppendEntries_comm hS₂ hF hm hM₁' hM₂

/-- The beginning of `senderLog`, and a request from that time. -/
def earlierLog : LogStore := ⟨[sentinel, ⟨1, 1, [97]⟩, ⟨2, 2, [98]⟩]⟩

theorem earlierLog_represented : earlierLog.Represented :=
  senderLog_represented.of_shorter ⟨[⟨2, 3, [99]⟩], rfl⟩ (by simp [earlierLog])

theorem oneEntry_earlier : oneEntry.SliceOf earlierLog 1 1 :=
  ⟨by decide, rfl, rfl, rfl⟩

/-- `senderLog[2..3]` behind index 1. -/
def twoEntries : AppendEntriesArgs :=
  ⟨2, "a", 1, 1, [⟨2, 2, [98]⟩, ⟨2, 3, [99]⟩], 0⟩

theorem twoEntries_slice : twoEntries.SliceOf senderLog 1 2 :=
  ⟨by decide, rfl, rfl, rfl⟩

theorem stale_append_harmless_b :
    (∀ i, i ≤ 3 →
      ((partedFollower.handleAppendEntries twoEntries).1.handleAll
          [oneEntry, twoEntries, oneEntry]).log.entryAt i
        = (partedFollower.handleAppendEntries twoEntries).1.log.entryAt i)
      ∧ ((partedFollower.handleAppendEntries oneEntry).1.handleAppendEntries
          twoEntries).1.log
        = ((partedFollower.handleAppendEntries twoEntries).1.handleAppendEntries
          oneEntry).1.log := by
  have h := stale_append_harmless earlierLog_represented senderLog_represented
    ⟨[⟨2, 3, [99]⟩], rfl⟩ partedFollower_represented (by decide)
    oneEntry_earlier twoEntries_slice
  exact ⟨h.1 (by decide) _ (by decide),
    h.2 (by decide) (by decide) (by decide) (by decide)⟩

end RaftStore
