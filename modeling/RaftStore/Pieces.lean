import RaftStore.Lib.LeaderLog
import RaftStore.LogInv

/-!
# Requests as pieces of a leader's log

A request of a leader is a stretch of its log behind `PrevLogIndex`
(`Piece`), or it points behind the end of that log, carries no entries,
and no log can pass its consistency check (`Hopeless`).
`Piece.install_cases` is the effect of a passed check on a log that
matches the leader's (`Matching`): the receiver ends up with the leader's
log up to the end of the piece, or with its own log if that already had
it.
-/

namespace RaftStore

open LeaderLog

/-! ## Pieces -/

/-- The entries of the request stand in `full` behind `PrevLogIndex`. -/
structure Piece (full : List LogEntry) (args : AppendEntriesArgs) : Prop where
  length : args.prevLogIndex + args.entries.length ≤ full.length
  entries : full.take (args.prevLogIndex + args.entries.length)
    = full.take args.prevLogIndex ++ args.entries
  prev : 0 < args.prevLogIndex →
    LogStore.termAt full (args.prevLogIndex - 1) = some args.prevLogTerm

/-- A request no well-formed log accepts. -/
def Hopeless (args : AppendEntriesArgs) : Prop :=
  0 < args.prevLogIndex ∧ args.prevLogTerm = 0

theorem Piece.mono {full full' : List LogEntry} {args : AppendEntriesArgs}
    (h : Piece full args) (hpre : full <+: full') : Piece full' args where
  length := Nat.le_trans h.length hpre.length_le
  entries := by
    have hlen := h.length
    rw [prefix_take_eq hpre hlen, prefix_take_eq hpre (by omega)]
    exact h.entries
  prev hpos := by
    obtain ⟨e, he, ht⟩ := Option.map_eq_some_iff.mp (h.prev hpos)
    exact Option.map_eq_some_iff.mpr ⟨e, prefix_getElem? hpre he, ht⟩

theorem Piece.getElem? {full : List LogEntry} {args : AppendEntriesArgs}
    (h : Piece full args) {i : Nat} (hi : i < args.entries.length) :
    full[args.prevLogIndex + i]? = args.entries[i]? := by
  have hlen := h.length
  have hget := congrArg (·[args.prevLogIndex + i]?) h.entries
  simp only [List.getElem?_take] at hget
  rw [if_pos (by omega), List.getElem?_append_right (by simp)] at hget
  rw [hget, List.length_take_of_le (by omega), Nat.add_sub_cancel_left]

theorem Piece.take_add {full : List LogEntry} {args : AppendEntriesArgs}
    (h : Piece full args) {j : Nat} (hj : j ≤ args.entries.length) :
    full.take (args.prevLogIndex + j)
      = full.take args.prevLogIndex ++ args.entries.take j := by
  have hlen := h.length
  have htake := congrArg (List.take (args.prevLogIndex + j)) h.entries
  rw [List.take_take, Nat.min_eq_left (by omega), List.take_append,
    List.take_take, List.length_take_of_le (by omega),
    Nat.add_sub_cancel_left] at htake
  rw [htake, Nat.min_eq_right (Nat.le_add_right ..)]

/-- What a leader builds from its log with `lo = nextIndex`. -/
theorem LogStore.WellFormed.piece {l : LogStore} {term : Nat}
    (h : l.WellFormed term) {lo m : Nat} {args : AppendEntriesArgs}
    (hindex : args.prevLogIndex = lo - 1)
    (hprev : args.prevLogTerm = l.prevTerm (lo - 1))
    (hentries : args.entries = (l.body.drop (lo - 1)).take m) :
    Piece l.body args ∨ Hopeless args := by
  rcases Nat.lt_or_ge l.body.length (lo - 1) with hlt | hle
  · right
    have hpos : 0 < lo - 1 := Nat.zero_lt_of_lt hlt
    refine ⟨hindex ▸ hpos, ?_⟩
    rw [hprev, h.prevTerm_eq hpos, List.getElem?_eq_none (by omega)]
    rfl
  · left
    have hlen : args.entries.length = min m (l.body.length - (lo - 1)) := by
      rw [hentries, List.length_take, List.length_drop]
    refine ⟨by omega, ?_, ?_⟩
    · rw [hindex, List.take_add]
      congr 1
      rw [hlen, hentries, List.take_eq_take_iff, List.length_drop]
      omega
    · intro hpos
      rw [hindex] at hpos ⊢
      rw [hprev, h.prevTerm_eq hpos, LogStore.termAt]
      obtain ⟨e, he⟩ : ∃ e, l.body[lo - 1 - 1]? = some e :=
        ⟨_, List.getElem?_eq_getElem (by omega)⟩
      rw [he]
      rfl

theorem Hopeless.rejected {l : LogStore} {term : Nat} (h : l.WellFormed term)
    {args : AppendEntriesArgs} (hargs : Hopeless args) :
    l.matchesPrev args = false := by
  obtain ⟨hpos, hzero⟩ := hargs
  by_contra htrue
  rw [Bool.not_eq_false] at htrue
  rcases matchesPrev_spec h.positional htrue with h0 | ⟨x, hx, -, ht⟩
  · omega
  · have := (h.terms x (List.mem_of_getElem? hx)).1
    omega

/-! ## Log Matching -/

/-- Log Matching of two logs behind their sentinels: entries of one
position and one term have the same log up to them. -/
def Matching (l l' : List LogEntry) : Prop :=
  ∀ k t, LogStore.termAt l k = some t → LogStore.termAt l' k = some t →
    l.take (k + 1) = l'.take (k + 1)

/-- Logs that grew out of the leaders' logs match. -/
theorem matching_of_rooted {full : ℕ → List LogEntry} {l l' : List LogEntry}
    (hl : Rooted LogEntry.term full l) (hl' : Rooted LogEntry.term full l') :
    Matching l l' := by
  intro k t ht ht'
  obtain ⟨e, he, rfl⟩ := Option.map_eq_some_iff.mp ht
  obtain ⟨e', he', heq⟩ := Option.map_eq_some_iff.mp ht'
  exact hl.take_eq hl' he he' heq.symm

/-! ## Installing a piece -/

section Install

variable {l : LogStore} {full : List LogEntry} {args : AppendEntriesArgs}

/-- What the append loop skips is in the leader's log too. -/
theorem Piece.take_agree (h : Piece full args) (hpos : l.Positional)
    (hm : Matching l.body full) (hprev : l.matchesPrev args = true) {j : Nat}
    (hj : j ≤ args.entries.length)
    (hagree : ∀ i, i < j → LogStore.termAt l.body (args.prevLogIndex + i)
      = LogStore.termAt args.entries i) :
    l.body.take (args.prevLogIndex + j)
      = full.take (args.prevLogIndex + j) := by
  cases j with
  | zero =>
      rcases matchesPrev_spec hpos hprev with h0 | ⟨x, hx, hp, ht⟩
      · simp [h0]
      · have hlast : LogStore.termAt l.body (args.prevLogIndex - 1)
            = some args.prevLogTerm := Option.map_eq_some_iff.mpr ⟨x, hx, ht⟩
        have := hm _ _ hlast (h.prev hp)
        rwa [Nat.sub_add_cancel hp] at this
  | succ j =>
      have hget := List.getElem?_eq_getElem (show j < args.entries.length by omega)
      have hes : LogStore.termAt args.entries j = some (args.entries[j].term) := by
        rw [LogStore.termAt, hget]
        rfl
      have hfull : LogStore.termAt full (args.prevLogIndex + j)
          = some (args.entries[j].term) := by
        rw [LogStore.termAt, h.getElem? (show j < args.entries.length by omega)]
        exact hes
      exact hm _ _ ((hagree j (Nat.lt_succ_self j)).trans hes) hfull

/-- A receiver that has the leader's log up to the end of the piece keeps
its own; any other one ends up with just that part of the leader's. -/
theorem Piece.install_cases (h : Piece full args) (hpos : l.Positional)
    (hidx : IndexedFrom (args.prevLogIndex + 1) args.entries)
    (hm : Matching l.body full) (hprev : l.matchesPrev args = true) :
    (l.installAll args.entries = l
        ∧ full.take (args.prevLogIndex + args.entries.length) <+: l.body)
      ∨ ((l.installAll args.entries).Positional
        ∧ (l.installAll args.entries).body
          = full.take (args.prevLogIndex + args.entries.length)
        ∧ ¬ full.take (args.prevLogIndex + args.entries.length) <+: l.body) := by
  obtain ⟨j, hj, hagree, ⟨rfl, heq⟩ | ⟨hlt, hdiff, hpos', hbody⟩⟩ :=
    LogStore.installAll_spec hpos hidx (matchesPrev_le hpos hprev)
  · left
    refine ⟨heq, ?_⟩
    have htake := h.take_agree hpos hm hprev hj hagree
    rw [← htake]
    exact List.take_prefix ..
  · right
    have htake := h.take_agree hpos hm hprev hj hagree
    refine ⟨hpos', ?_, ?_⟩
    · rw [hbody, htake, h.take_add hj, List.append_assoc, List.take_append_drop,
        h.entries]
    · -- the two logs part at the first entry that was not skipped
      intro hpre
      have hlen := h.length
      obtain ⟨e, he⟩ : ∃ e, full[args.prevLogIndex + j]? = some e :=
        ⟨_, List.getElem?_eq_getElem (by omega)⟩
      have htaken : (full.take (args.prevLogIndex + args.entries.length))[
          args.prevLogIndex + j]? = some e := by
        rw [List.getElem?_take_of_lt (by omega), he]
      refine hdiff ?_
      rw [LogStore.termAt, LogStore.termAt, prefix_getElem? hpre htaken,
        ← h.getElem? hlt, he]

theorem Piece.install (h : Piece full args) (hpos : l.Positional)
    (hidx : IndexedFrom (args.prevLogIndex + 1) args.entries)
    (hm : Matching l.body full) (hprev : l.matchesPrev args = true) :
    full.take (args.prevLogIndex + args.entries.length)
        <+: (l.installAll args.entries).body
      ∧ (∀ x, x <+: l.body → x <+: full →
        x <+: (l.installAll args.entries).body)
      ∧ ((l.installAll args.entries).body <+: l.body
        ∨ (l.installAll args.entries).body <+: full)
      ∧ (l.body ≠ [] → (l.installAll args.entries).body ≠ []) := by
  rcases h.install_cases hpos hidx hm hprev with ⟨heq, hpre⟩ | ⟨-, hnew, hnot⟩
  · rw [heq]
    exact ⟨hpre, fun x hx _ => hx, .inl List.prefix_rfl, id⟩
  · rw [hnew]
    refine ⟨List.prefix_rfl, ?_, .inr (List.take_prefix ..), ?_⟩
    · intro x hx hx'
      rw [List.prefix_take_iff]
      refine ⟨hx', ?_⟩
      by_contra hlong
      have hshort : full.take (args.prevLogIndex + args.entries.length) <+: x :=
        List.prefix_of_prefix_length_le (List.take_prefix ..) hx' (by
          rw [List.length_take]
          omega)
      exact hnot (hshort.trans hx)
    · intro _ hnil
      exact hnot (hnil ▸ List.nil_prefix)

end Install

end RaftStore
