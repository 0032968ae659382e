import RaftStore.Election
import RaftStore.Replication

/-!
# Scans are positions

Every log a node holds starts with the sentinel and carries the position
of each entry in its `Index` (`LogStore.Positional`; that this is an
invariant of the cluster is proved in `LogInv`). On such a log the
scanning helpers are positional: `entryAt` is a lookup, `truncateAfter`
a `take`, `entriesFrom` a `drop`. The log behind the sentinel is
`LogStore.body`, and position `k` of it has index `k + 1`.

`installAll_spec` describes the append loop of `HandleAppendEntries`: it
skips the longest run of entries whose terms agree, and what follows, if
anything, replaces the rest of the log.
-/

namespace RaftStore

/-! ## Entries that carry their positions -/

/-- The entries are numbered from `a` on. -/
def IndexedFrom (a : Nat) (es : List LogEntry) : Prop :=
  ∀ k e, es[k]? = some e → e.index = a + k

theorem IndexedFrom.nil (a : Nat) : IndexedFrom a [] :=
  fun _ _ h => by simp at h

theorem indexedFrom_cons {a : Nat} {e : LogEntry} {es : List LogEntry} :
    IndexedFrom a (e :: es) ↔ e.index = a ∧ IndexedFrom (a + 1) es := by
  constructor
  · intro h
    refine ⟨h 0 e rfl, ?_⟩
    intro k x hk
    have := h (k + 1) x (by simpa using hk)
    omega
  · rintro ⟨he, h⟩ k x hk
    cases k with
    | zero => simp at hk; subst hk; exact he
    | succ k =>
        have := h k x (by simpa using hk)
        omega

theorem IndexedFrom.drop {a : Nat} {es : List LogEntry}
    (h : IndexedFrom a es) (i : Nat) : IndexedFrom (a + i) (es.drop i) := by
  intro k e hk
  rw [List.getElem?_drop] at hk
  have := h (i + k) e hk
  omega

theorem IndexedFrom.take {a : Nat} {es : List LogEntry}
    (h : IndexedFrom a es) (i : Nat) : IndexedFrom a (es.take i) := by
  intro k e hk
  rw [List.getElem?_take] at hk
  split at hk
  · exact h k e hk
  · cases hk

theorem IndexedFrom.append {a : Nat} {es fs : List LogEntry}
    (h : IndexedFrom a es) (h' : IndexedFrom (a + es.length) fs) :
    IndexedFrom a (es ++ fs) := by
  intro k e hk
  rcases Nat.lt_or_ge k es.length with hlt | hge
  · rw [List.getElem?_append_left hlt] at hk
    exact h k e hk
  · rw [List.getElem?_append_right hge] at hk
    have := h' (k - es.length) e hk
    omega

theorem IndexedFrom.find? {a : Nat} {es : List LogEntry}
    (h : IndexedFrom a es) (i : Nat) :
    es.find? (fun e => e.index = a + i) = es[i]? := by
  induction es generalizing a i with
  | nil => simp
  | cons e es ih =>
      obtain ⟨he, h'⟩ := indexedFrom_cons.mp h
      cases i with
      | zero => simp [he]
      | succ i =>
          have := ih h' i
          rw [Nat.add_assoc, Nat.add_comm 1 i] at this
          simpa [he] using this

theorem IndexedFrom.takeWhile {a : Nat} {es : List LogEntry}
    (h : IndexedFrom a es) (i : Nat) :
    es.takeWhile (fun e => e.index ≤ i) = es.take (i + 1 - a) := by
  induction es generalizing a with
  | nil => simp
  | cons e es ih =>
      obtain ⟨he, h'⟩ := indexedFrom_cons.mp h
      rw [List.takeWhile_cons]
      by_cases hle : a ≤ i
      · rw [if_pos (by simpa [he] using hle), ih h',
          show i + 1 - a = i + 1 - (a + 1) + 1 by omega, List.take_succ_cons]
      · rw [if_neg (by simpa [he] using hle),
          show i + 1 - a = 0 by omega, List.take_zero]

theorem IndexedFrom.dropWhile {a : Nat} {es : List LogEntry}
    (h : IndexedFrom a es) (i : Nat) :
    es.dropWhile (fun e => e.index < i) = es.drop (i - a) := by
  induction es generalizing a with
  | nil => simp
  | cons e es ih =>
      obtain ⟨he, h'⟩ := indexedFrom_cons.mp h
      rw [List.dropWhile_cons]
      by_cases hlt : a < i
      · rw [if_pos (by simpa [he] using hlt), ih h',
          show i - a = i - (a + 1) + 1 by omega, List.drop_succ_cons]
      · rw [if_neg (by simpa [he] using hlt),
          show i - a = 0 by omega, List.drop_zero]

/-! ## Positional logs -/

namespace LogStore

/-- The log behind the sentinel. -/
def body (l : LogStore) : List LogEntry := l.entries.tail

theorem entryAt_index {l : LogStore} {i : Nat} {e : LogEntry}
    (h : l.entryAt i = some e) : e.index = i := by
  simpa using List.find?_some h

structure Positional (l : LogStore) : Prop where
  head : l.entries.head? = some sentinel
  index : IndexedFrom 0 l.entries

theorem positional_new : newLogStore.Positional where
  head := rfl
  index := indexedFrom_cons.mpr ⟨rfl, .nil _⟩

@[simp] theorem body_new : newLogStore.body = [] := rfl

namespace Positional

variable {l : LogStore}

theorem entries_eq (h : l.Positional) : l.entries = sentinel :: l.body := by
  have := h.head
  rw [body]
  cases hl : l.entries with
  | nil => rw [hl] at this; cases this
  | cons e es => rw [hl] at this; simp at this; simp [this]

theorem body_index (h : l.Positional) : IndexedFrom 1 l.body := by
  have := h.index
  rw [h.entries_eq] at this
  simpa using (indexedFrom_cons.mp this).2

theorem of_body {es : List LogEntry} (h : l.entries = sentinel :: es)
    (hes : IndexedFrom 1 es) : l.Positional where
  head := by rw [h]; rfl
  index := by rw [h]; exact indexedFrom_cons.mpr ⟨rfl, by simpa using hes⟩

theorem entryAt_eq (h : l.Positional) (i : Nat) :
    l.entryAt i = l.entries[i]? := by
  simpa [entryAt] using h.index.find? i

theorem entryAt_succ (h : l.Positional) (k : Nat) :
    l.entryAt (k + 1) = l.body[k]? := by
  rw [h.entryAt_eq, h.entries_eq, List.getElem?_cons_succ]

theorem entryAt_pos (h : l.Positional) {i : Nat} (hi : 0 < i) :
    l.entryAt i = l.body[i - 1]? := by
  rw [← h.entryAt_succ, Nat.sub_add_cancel hi]

theorem lastIndex_eq (h : l.Positional) : l.lastIndex = l.body.length := by
  rw [lastIndex, lastIndexAndTerm]
  have hlast : l.entries.getLast? = l.entries[l.body.length]? := by
    rw [List.getLast?_eq_getElem?, h.entries_eq]
    simp [body]
  cases hg : l.entries.getLast? with
  | none => rw [h.entries_eq] at hg; simp at hg
  | some e =>
      rw [hlast] at hg
      simpa using h.index _ e hg

theorem lastIndexAndTerm_fst (h : l.Positional) :
    l.lastIndexAndTerm.1 = l.body.length := h.lastIndex_eq

theorem truncateAfter_body (h : l.Positional) (i : Nat) :
    (l.truncateAfter i).entries = sentinel :: l.body.take i := by
  rw [truncateAfter]
  show l.entries.takeWhile (fun e => e.index ≤ i) = _
  rw [h.index.takeWhile, h.entries_eq, Nat.sub_zero, List.take_succ_cons]

theorem entriesFrom_eq (h : l.Positional) {i : Nat} (hi : 0 < i) :
    l.entriesFrom i = l.body.drop (i - 1) := by
  rw [entriesFrom, h.index.dropWhile, h.entries_eq, Nat.sub_zero,
    show i = i - 1 + 1 by omega, List.drop_succ_cons, Nat.add_sub_cancel]

theorem append (h : l.Positional) {e : LogEntry}
    (he : e.index = l.body.length + 1) : (l.appendEntry e).Positional := by
  have hes : IndexedFrom 1 (l.body ++ [e]) :=
    h.body_index.append (indexedFrom_cons.mpr ⟨by omega, .nil _⟩)
  refine of_body ?_ hes
  show l.entries ++ [e] = _
  rw [h.entries_eq]
  rfl

theorem body_append (h : l.Positional) (e : LogEntry) :
    (l.appendEntry e).body = l.body ++ [e] := by
  show (l.entries ++ [e]).tail = _
  rw [h.entries_eq]
  rfl

theorem slice_eq (h : l.Positional) {lo : Nat} (hlo : 0 < lo) (hi : Nat) :
    l.slice lo hi = (l.body.drop (lo - 1)).take (hi + 1 - lo) := by
  rw [slice]
  generalize hi + 1 - lo = len
  induction len generalizing lo with
  | zero => simp
  | succ len ih =>
      rw [List.range'_succ, List.filterMap_cons, h.entryAt_pos hlo,
        ih (Nat.succ_pos lo)]
      cases hg : l.body[lo - 1]? with
      | none =>
          have hlen : l.body.length ≤ lo - 1 := List.getElem?_eq_none_iff.mp hg
          simp [List.drop_eq_nil_of_le hlen,
            List.drop_eq_nil_of_le (show l.body.length ≤ lo by omega)]
      | some e =>
          obtain ⟨hlt, rfl⟩ := List.getElem?_eq_some_iff.mp hg
          rw [List.drop_eq_getElem_cons hlt, List.take_succ_cons,
            Nat.sub_add_cancel hlo]
          rfl

end Positional

/-! ## The append loop -/

/-- Term at a position of a list of entries. -/
def termAt (es : List LogEntry) (k : Nat) : Option Nat :=
  es[k]?.map LogEntry.term

variable {l : LogStore}

/-- An entry of the term that is there already is skipped. -/
theorem Positional.install_skip (h : l.Positional) {p : Nat} {e : LogEntry}
    (he : e.index = p + 1) (hterm : termAt l.body p = some e.term) :
    l.install e = l := by
  have hat : l.entryAt e.index = l.body[p]? := by rw [he, h.entryAt_succ]
  obtain ⟨x, hx, hxt⟩ : ∃ x, l.body[p]? = some x ∧ x.term = e.term := by
    simpa [termAt, Option.map_eq_some_iff] using hterm
  simp [install, hat, hx, hxt]

/-- Any other entry ends up last, after what stood before its index. -/
theorem Positional.install_replace (h : l.Positional) {p : Nat} {e : LogEntry}
    (he : e.index = p + 1) (hp : p ≤ l.body.length)
    (hterm : termAt l.body p ≠ some e.term) :
    (l.install e).Positional ∧ (l.install e).body = l.body.take p ++ [e] := by
  have hat : l.entryAt e.index = l.body[p]? := by rw [he, h.entryAt_succ]
  cases hx : l.body[p]? with
  | none =>
      have hlen : l.body.length = p :=
        Nat.le_antisymm (List.getElem?_eq_none_iff.mp hx) hp
      have hinst : l.install e = l.appendEntry e := by simp [install, hat, hx]
      rw [hinst]
      refine ⟨h.append (by omega), ?_⟩
      rw [h.body_append, ← hlen, List.take_length]
  | some x =>
      -- conflict: the log is cut before the entry is appended
      have hne : x.term ≠ e.term := fun heq => hterm (by simp [termAt, hx, heq])
      have hinst : l.install e = (l.truncateAfter (e.index - 1)).appendEntry e := by
        simp [install, hat, hx, hne]
      have htr := h.truncateAfter_body (e.index - 1)
      rw [show e.index - 1 = p by omega] at hinst htr
      have hposT : (l.truncateAfter p).Positional :=
        .of_body htr (h.body_index.take p)
      have hbodyT : (l.truncateAfter p).body = l.body.take p := by
        rw [body, htr]; rfl
      rw [hinst]
      refine ⟨hposT.append ?_, ?_⟩
      · rw [hbodyT, List.length_take_of_le hp, he]
      · rw [hposT.body_append, hbodyT]

/-- Entries that continue the log are all appended. -/
theorem installAll_append (h : l.Positional) {es : List LogEntry}
    (hes : IndexedFrom (l.body.length + 1) es) :
    (l.installAll es).Positional ∧ (l.installAll es).body = l.body ++ es := by
  induction es generalizing l with
  | nil => exact ⟨h, by simp [installAll]⟩
  | cons e es ih =>
      obtain ⟨he, hes'⟩ := indexedFrom_cons.mp hes
      obtain ⟨hpos, hbody⟩ :=
        h.install_replace he (Nat.le_refl _) (by simp [termAt])
      rw [List.take_length] at hbody
      have hrest := ih hpos (by simpa [hbody] using hes')
      rw [hbody, List.append_assoc] at hrest
      exact hrest

/-- The append loop with entries that start at position `p` of the body:
the first `j` of them agree in term with what is there; either they are
all, and the log stays, or the rest replaces the log from there on. -/
theorem installAll_spec (h : l.Positional) {p : Nat} {es : List LogEntry}
    (hes : IndexedFrom (p + 1) es) (hp : p ≤ l.body.length) :
    ∃ j, j ≤ es.length
      ∧ (∀ i, i < j → termAt l.body (p + i) = termAt es i)
      ∧ ((j = es.length ∧ l.installAll es = l) ∨
        (j < es.length ∧ termAt l.body (p + j) ≠ termAt es j
          ∧ (l.installAll es).Positional
          ∧ (l.installAll es).body = l.body.take (p + j) ++ es.drop j)) := by
  induction es generalizing p with
  | nil =>
      exact ⟨0, Nat.le_refl _, fun i hi => absurd hi (Nat.not_lt_zero i),
        .inl ⟨rfl, rfl⟩⟩
  | cons e es ih =>
      obtain ⟨he, hes'⟩ := indexedFrom_cons.mp hes
      have hall : l.installAll (e :: es) = (l.install e).installAll es := rfl
      by_cases hterm : termAt l.body p = some e.term
      · have hlt : p < l.body.length := by
          by_contra hge
          simp [termAt, List.getElem?_eq_none (Nat.le_of_not_lt hge)] at hterm
        obtain ⟨j, hj, hagree, hrest⟩ := ih hes' hlt
        refine ⟨j + 1, Nat.succ_le_succ hj, ?_, ?_⟩
        · intro i hi
          cases i with
          | zero => simpa [termAt] using hterm
          | succ i =>
              have := hagree i (by omega)
              rw [show p + (i + 1) = p + 1 + i by omega]
              simpa [termAt] using this
        · rw [hall, h.install_skip he hterm, show p + (j + 1) = p + 1 + j by omega]
          simpa [termAt] using hrest
      · -- conflict, or past the end: from here on everything is appended
        obtain ⟨hpos₁, hbody₁⟩ := h.install_replace he hp hterm
        have hes₁ : IndexedFrom ((l.install e).body.length + 1) es := by
          simpa [hbody₁, Nat.min_eq_left hp] using hes'
        obtain ⟨hpos, hbody⟩ := installAll_append hpos₁ hes₁
        refine ⟨0, Nat.zero_le _, fun i hi => absurd hi (Nat.not_lt_zero i),
          .inr ⟨by simp, by simpa [termAt] using hterm, ?_, ?_⟩⟩
        · rw [hall]
          exact hpos
        · rw [hall, hbody, hbody₁]
          simp

end LogStore

end RaftStore
