import RaftStore.LogScan

/-!
# The loops of the log

`Log` has the helpers of `raft/log.go` by what they find, over natural
numbers. Here they are the loops of the source, over entries with `uint64`
terms and indices: each goes through the slice once, compares in its own
way and returns early, and two of them cut the slice at the position they
have counted up to.

The loops refine the helpers of `Log` on every log, whatever its indices
(`entryAt_toLog`, `truncateAfter_toLog`, `entriesFrom_toLog`), and with them
the append loop of `HandleAppendEntries` (`installAll_toLog`). So on a log
that carries its positions what `LogScan` knows about scans applies, and
the loops are a lookup, a `take` and a `drop` (`scans_are_positions`).
-/

namespace RaftStore

/-! ## The slice and its loops -/

/-- `LogEntry` with the types of the source. -/
structure RawEntry where
  term : UInt64
  index : UInt64
  command : Command
  deriving DecidableEq

/-- `logStore` with the types of the source. -/
structure RawLog where
  entries : List RawEntry
  deriving DecidableEq

namespace RawLog

/-- `none` is the panic on an empty slice. -/
def lastIndex (l : RawLog) : Option UInt64 := l.entries.getLast?.map RawEntry.index

def entryAtLoop (index : UInt64) : List RawEntry → Option RawEntry
  | [] => none
  | e :: es => if e.index = index then some e else entryAtLoop index es

def entryAt (l : RawLog) (index : UInt64) : Option RawEntry :=
  entryAtLoop index l.entries

def appendEntry (l : RawLog) (entry : RawEntry) : RawLog :=
  { entries := l.entries ++ [entry] }

/-- `i` is the position of the first of the entries still to be seen. -/
def truncateAfterLoop (entries : List RawEntry) (index : UInt64) :
    (i : Nat) → List RawEntry → List RawEntry
  | _, [] => entries
  | i, e :: es =>
      if e.index > index then entries.take i
      else truncateAfterLoop entries index (i + 1) es

def truncateAfter (l : RawLog) (index : UInt64) : RawLog :=
  { entries := truncateAfterLoop l.entries index 0 l.entries }

/-- `none` is the nil slice. -/
def entriesFromLoop (entries : List RawEntry) (index : UInt64) :
    (i : Nat) → List RawEntry → Option (List RawEntry)
  | _, [] => none
  | i, e :: es =>
      if e.index ≥ index then some (entries.drop i)
      else entriesFromLoop entries index (i + 1) es

def entriesFrom (l : RawLog) (index : UInt64) : Option (List RawEntry) :=
  entriesFromLoop l.entries index 0 l.entries

/-- One round of the append loop of `HandleAppendEntries`. -/
def install (l : RawLog) (entry : RawEntry) : RawLog :=
  match l.entryAt entry.index with
  | some existing =>
      if existing.term ≠ entry.term then
        (l.truncateAfter (entry.index - 1)).appendEntry entry
      else l
  | none => l.appendEntry entry

def installAll (l : RawLog) (entries : List RawEntry) : RawLog := entries.foldl install l

/-- Append a slice of entries, one by one. -/
def appendAll (l : RawLog) (es : List RawEntry) : RawLog := es.foldl appendEntry l

end RawLog

/-! ## The loops refine the helpers of `Log` -/

def RawEntry.toEntry (e : RawEntry) : LogEntry where
  term := e.term.toNat
  index := e.index.toNat
  command := e.command

theorem RawEntry.toEntry_injective : Function.Injective RawEntry.toEntry := by
  rintro ⟨term, index, command⟩ ⟨term', index', command'⟩ h
  obtain ⟨hterm, hindex, hcommand⟩ := LogEntry.mk.inj h
  cases UInt64.toNat_inj.mp hterm
  cases UInt64.toNat_inj.mp hindex
  cases hcommand
  rfl

namespace RawLog

def toLog (l : RawLog) : LogStore := { entries := l.entries.map RawEntry.toEntry }

variable {l : RawLog}

theorem entryAt_toLog (l : RawLog) (i : UInt64) :
    (l.entryAt i).map RawEntry.toEntry = l.toLog.entryAt i.toNat := by
  obtain ⟨es⟩ := l
  show (entryAtLoop i es).map _ = (es.map RawEntry.toEntry).find? _
  induction es with
  | nil => rfl
  | cons e es ih =>
      rw [entryAtLoop, List.map_cons, List.find?_cons]
      by_cases h : e.index = i
      · have hnat : e.toEntry.index = i.toNat := congrArg UInt64.toNat h
        rw [if_pos h, decide_eq_true hnat]
        rfl
      · have hnat : ¬ e.toEntry.index = i.toNat := fun heq => h (UInt64.toNat_inj.mp heq)
        rw [if_neg h, decide_eq_false hnat]
        exact ih

/-- The loop stands behind `seen`, which is what it keeps. -/
theorem truncateAfterLoop_eq (i : UInt64) (seen es : List RawEntry) :
    truncateAfterLoop (seen ++ es) i seen.length es
      = seen ++ es.takeWhile fun e => e.index ≤ i := by
  induction es generalizing seen with
  | nil => rfl
  | cons e es ih =>
      rw [truncateAfterLoop, List.takeWhile_cons]
      by_cases h : e.index > i
      · have hle : ¬ e.index ≤ i := UInt64.not_le.mpr h
        rw [if_pos h, decide_eq_false hle, List.take_left]
        exact (List.append_nil seen).symm
      · have hle : e.index ≤ i := UInt64.not_lt.mp h
        have hstep := ih (seen ++ [e])
        rw [List.append_assoc, List.length_append, List.append_assoc] at hstep
        rw [if_neg h, decide_eq_true hle]
        exact hstep

theorem truncateAfter_toLog (l : RawLog) (i : UInt64) :
    (l.truncateAfter i).toLog = l.toLog.truncateAfter i.toNat := by
  have hloop := truncateAfterLoop_eq i [] l.entries
  unfold toLog truncateAfter LogStore.truncateAfter
  rw [show truncateAfterLoop l.entries i 0 l.entries = _ from hloop, List.nil_append,
    List.takeWhile_map]
  rfl

/-- A slice that is nil when there is nothing in it. -/
def orNil {α : Type} : List α → Option (List α)
  | [] => none
  | x :: xs => some (x :: xs)

theorem orNil_map {α β : Type} (f : α → β) (xs : List α) :
    (orNil xs).map (List.map f) = orNil (xs.map f) := by
  cases xs <;> rfl

theorem entriesFromLoop_eq (i : UInt64) (seen es : List RawEntry) :
    entriesFromLoop (seen ++ es) i seen.length es
      = orNil (es.dropWhile fun e => e.index < i) := by
  induction es generalizing seen with
  | nil => rfl
  | cons e es ih =>
      rw [entriesFromLoop, List.dropWhile_cons]
      by_cases h : e.index ≥ i
      · have hlt : ¬ e.index < i := UInt64.not_lt.mpr h
        rw [if_pos h, decide_eq_false hlt, List.drop_left]
        rfl
      · have hlt : e.index < i := UInt64.not_le.mp h
        have hstep := ih (seen ++ [e])
        rw [List.append_assoc, List.length_append] at hstep
        rw [if_neg h, decide_eq_true hlt]
        exact hstep

/-- The model has the empty list where the source has nil. -/
theorem entriesFrom_toLog (l : RawLog) (i : UInt64) :
    (l.entriesFrom i).map (List.map RawEntry.toEntry)
      = orNil (l.toLog.entriesFrom i.toNat) := by
  have hloop := entriesFromLoop_eq i [] l.entries
  unfold toLog LogStore.entriesFrom
  rw [show l.entriesFrom i = _ from hloop, orNil_map, List.dropWhile_map]
  rfl

theorem appendEntry_toLog (l : RawLog) (e : RawEntry) :
    (l.appendEntry e).toLog = l.toLog.appendEntry e.toEntry :=
  congrArg LogStore.mk List.map_append

/-- The subtraction does not wrap around. -/
theorem toNat_pred {i : UInt64} (h : 1 ≤ i) : (i - 1).toNat = i.toNat - 1 :=
  UInt64.toNat_sub_of_le i 1 h

/-- The append loop, as long as no entry has the index of the sentinel:
there `entry.Index - 1` would wrap around and nothing be truncated. -/
theorem install_toLog (l : RawLog) {e : RawEntry} (h : 1 ≤ e.index) :
    (l.install e).toLog = l.toLog.install e.toEntry := by
  have hat : (l.entryAt e.index).map RawEntry.toEntry = l.toLog.entryAt e.toEntry.index :=
    l.entryAt_toLog e.index
  rw [install, LogStore.install, ← hat]
  cases l.entryAt e.index with
  | none => exact l.appendEntry_toLog e
  | some existing =>
      have hterm : existing.toEntry.term = e.toEntry.term ↔ existing.term = e.term :=
        UInt64.toNat_inj
      dsimp only [Option.map_some]
      by_cases heq : existing.term = e.term
      · rw [if_neg (not_not.mpr heq), if_pos (hterm.mpr heq)]
      · rw [if_pos heq, if_neg (mt hterm.mp heq), appendEntry_toLog, truncateAfter_toLog,
          toNat_pred h]
        rfl

theorem installAll_toLog (l : RawLog) {es : List RawEntry} (h : ∀ e ∈ es, 1 ≤ e.index) :
    (l.installAll es).toLog = l.toLog.installAll (es.map RawEntry.toEntry) := by
  induction es generalizing l with
  | nil => rfl
  | cons e es ih =>
      obtain ⟨he, hes⟩ := List.forall_mem_cons.mp h
      show ((l.install e).installAll es).toLog = (l.toLog.install e.toEntry).installAll _
      rw [ih _ hes, install_toLog l he]

theorem appendAll_entries (l : RawLog) (es : List RawEntry) :
    (l.appendAll es).entries = l.entries ++ es := by
  induction es generalizing l with
  | nil => exact (List.append_nil _).symm
  | cons e es ih =>
      show ((l.appendEntry e).appendAll es).entries = _
      rw [ih, appendEntry, List.append_assoc]
      rfl

/-! ## Logs that carry their positions -/

/-- `entries[k].Index = k`, with at least the sentinel there. -/
structure Positional (l : RawLog) : Prop where
  sentinel : l.entries ≠ []
  index : ∀ k (e : RawEntry), l.entries[k]? = some e → e.index.toNat = k

namespace Positional

theorem indexedFrom (h : l.Positional) : IndexedFrom 0 l.toLog.entries := by
  intro k e hk
  obtain ⟨x, hx, rfl⟩ := Option.map_eq_some_iff.mp ((List.getElem?_map ..).symm.trans hk)
  rw [Nat.zero_add]
  exact h.index k x hx

theorem lastIndex_eq (h : l.Positional) :
    ∃ last, l.lastIndex = some last ∧ last.toNat + 1 = l.entries.length := by
  have hpos := List.length_pos_of_ne_nil h.sentinel
  cases hget : l.entries.getLast? with
  | none => exact absurd (List.getLast?_eq_none_iff.mp hget) h.sentinel
  | some e =>
      rw [List.getLast?_eq_getElem?] at hget
      refine ⟨e.index, ?_, ?_⟩
      · rw [lastIndex, List.getLast?_eq_getElem?, hget]
        rfl
      · rw [h.index _ _ hget]
        omega

theorem entryAt_eq (h : l.Positional) (i : UInt64) : l.entryAt i = l.entries[i.toNat]? := by
  refine Option.map_injective RawEntry.toEntry_injective ?_
  have hfind := h.indexedFrom.find? i.toNat
  rw [Nat.zero_add] at hfind
  rw [entryAt_toLog, LogStore.entryAt, hfind, toLog, List.getElem?_map]

theorem truncateAfter_eq (h : l.Positional) (i : UInt64) :
    (l.truncateAfter i).entries = l.entries.take (i.toNat + 1) := by
  refine List.map_injective_iff.mpr RawEntry.toEntry_injective ?_
  have htake := h.indexedFrom.takeWhile i.toNat
  rw [Nat.sub_zero] at htake
  show (l.truncateAfter i).toLog.entries = _
  rw [truncateAfter_toLog, LogStore.truncateAfter, htake, toLog, List.map_take]

theorem entriesFrom_eq (h : l.Positional) (i : UInt64) :
    l.entriesFrom i = orNil (l.entries.drop i.toNat) := by
  have hinj : Function.Injective (List.map RawEntry.toEntry) :=
    List.map_injective_iff.mpr RawEntry.toEntry_injective
  refine Option.map_injective hinj ?_
  have hdrop := h.indexedFrom.dropWhile i.toNat
  rw [Nat.sub_zero] at hdrop
  rw [entriesFrom_toLog, orNil_map, LogStore.entriesFrom, hdrop, toLog, List.map_drop]

theorem take (h : l.Positional) {n : Nat} (hn : n ≠ 0) :
    Positional { entries := l.entries.take n } where
  sentinel := by
    show l.entries.take n ≠ []
    rw [Ne, List.take_eq_nil_iff]
    exact not_or.mpr ⟨hn, h.sentinel⟩
  index k e hk := by
    have hk' : (l.entries.take n)[k]? = some e := hk
    rw [List.getElem?_take] at hk'
    split at hk'
    · exact h.index k e hk'
    · cases hk'

/-- What was cut off, appended again. -/
theorem rebuild (h : l.Positional) {i : UInt64} (hi : 1 ≤ i) :
    (l.truncateAfter (i - 1)).appendAll ((l.entriesFrom i).getD []) = l := by
  have hpred : (i - 1).toNat + 1 = i.toNat := by
    rw [toNat_pred hi]
    exact Nat.sub_add_cancel (UInt64.le_iff_toNat_le.mp hi)
  have hfrom : (l.entriesFrom i).getD [] = l.entries.drop i.toNat := by
    rw [h.entriesFrom_eq]
    cases l.entries.drop i.toNat <;> rfl
  have hentries :
      ((l.truncateAfter (i - 1)).appendAll ((l.entriesFrom i).getD [])).entries = l.entries := by
    rw [appendAll_entries, h.truncateAfter_eq, hpred, hfrom, List.take_append_drop]
  exact congrArg RawLog.mk hentries

end Positional

end RawLog

/-! ## The result -/

/-- On a log that carries its positions, the three loops are the operations
by position, and cutting the log in two and appending the second part
again gives it back. -/
theorem scans_are_positions {l : RawLog} (h : l.Positional) :
    ∃ last, l.lastIndex = some last ∧ ∀ i : UInt64,
      ((l.entryAt i).isSome = true ↔ i ≤ last) ∧ l.entryAt i = l.entries[i.toNat]?
      ∧ (l.truncateAfter i).entries = l.entries.take (i.toNat + 1)
      ∧ (last ≤ i → l.truncateAfter i = l) ∧ (l.truncateAfter i).Positional
      ∧ l.entriesFrom i = (if i ≤ last then some (l.entries.drop i.toNat) else none)
      ∧ (1 ≤ i → (l.truncateAfter (i - 1)).appendAll ((l.entriesFrom i).getD []) = l) := by
  obtain ⟨last, hlast, hlen⟩ := h.lastIndex_eq
  refine ⟨last, hlast, ?_⟩
  intro i
  have hle : i ≤ last ↔ i.toNat < l.entries.length := by
    rw [UInt64.le_iff_toNat_le]
    omega
  have htrunc := h.truncateAfter_eq i
  refine ⟨?_, h.entryAt_eq i, htrunc, ?_, ?_, ?_, h.rebuild⟩
  · rw [h.entryAt_eq, hle, Option.isSome_iff_ne_none, Ne, List.getElem?_eq_none_iff,
      Nat.not_le]
  · intro hge
    have hge' : l.entries.length ≤ i.toNat + 1 := by
      have := UInt64.le_iff_toNat_le.mp hge
      omega
    rw [List.take_of_length_le hge'] at htrunc
    exact congrArg RawLog.mk htrunc
  · have hpos := h.take (Nat.succ_ne_zero i.toNat)
    rw [← htrunc] at hpos
    exact hpos
  · rw [h.entriesFrom_eq]
    by_cases hi : i ≤ last
    · rw [if_pos hi, List.drop_eq_getElem_cons (hle.mp hi)]
      rfl
    · rw [if_neg hi, List.drop_eq_nil_of_le (Nat.not_lt.mp (mt hle.mpr hi))]
      rfl

/-- A log of two entries behind its sentinel. -/
def rawLogOfTwo : RawLog := ⟨[⟨0, 0, []⟩, ⟨1, 1, [7]⟩, ⟨3, 2, [8]⟩]⟩

theorem scans_are_positions_two :
    rawLogOfTwo.entryAt 2 = some ⟨3, 2, [8]⟩
      ∧ (rawLogOfTwo.truncateAfter (2 - 1)).appendAll
        ((rawLogOfTwo.entriesFrom 2).getD []) = rawLogOfTwo := by
  have hpos : rawLogOfTwo.Positional := ⟨by decide, by
    intro k e hk
    match k, hk with
    | 0, rfl => rfl
    | 1, rfl => rfl
    | 2, rfl => rfl⟩
  obtain ⟨last, hlast, hall⟩ := scans_are_positions hpos
  cases hlast
  obtain ⟨-, hat, -, -, -, -, hrebuild⟩ := hall 2
  exact ⟨hat, hrebuild (by decide)⟩

end RaftStore
