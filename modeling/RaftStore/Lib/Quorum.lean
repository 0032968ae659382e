import Mathlib.Data.Finset.Card
import Mathlib.Data.List.Count

/-!
# Majorities

A majority of a list of distinct members is a set of more than half of
them, and any two majorities meet. The second half is about how programs
find one: by counting the slots of a list that runs parallel to the list
of peers (`Tally`, `exists_majority_of_slots`), or by counting answers as they come
until there are enough (`reaches`).
-/

namespace Quorum

variable {ι β : Type*}

/-- More than half of `members`. -/
def IsMajority (members : List ι) (Q : Finset ι) : Prop :=
  (∀ v ∈ Q, v ∈ members) ∧ members.length / 2 + 1 ≤ Q.card

theorem IsMajority.inter [DecidableEq ι] {members : List ι} (hnd : members.Nodup)
    {Q R : Finset ι} (hQ : IsMajority members Q) (hR : IsMajority members R) :
    ∃ v, v ∈ Q ∧ v ∈ R := by
  have hsub : ∀ {S : Finset ι}, IsMajority members S → S ⊆ members.toFinset :=
    fun hS v hv => List.mem_toFinset.mpr (hS.1 v hv)
  have hcard : members.toFinset.card < Q.card + R.card := by
    rw [List.toFinset_card_of_nodup hnd]
    have := hQ.2
    have := hR.2
    omega
  obtain ⟨v, hv⟩ := Finset.inter_nonempty_of_card_lt_card_add_card
    (hsub hQ) (hsub hR) hcard
  exact ⟨v, (Finset.mem_inter.mp hv).1, (Finset.mem_inter.mp hv).2⟩

theorem IsMajority.le_countP [DecidableEq ι] {members : List ι} {Q : Finset ι}
    (hQ : IsMajority members Q) {p : ι → Bool} (h : ∀ v ∈ Q, p v = true) :
    members.length / 2 + 1 ≤ members.countP p := by
  have hsub : Q ⊆ (members.filter p).toFinset := fun v hv =>
    List.mem_toFinset.mpr (List.mem_filter.mpr ⟨hQ.1 v hv, h v hv⟩)
  calc members.length / 2 + 1 ≤ Q.card := hQ.2
    _ ≤ (members.filter p).toFinset.card := Finset.card_le_card hsub
    _ ≤ (members.filter p).length := List.toFinset_card_le _
    _ = members.countP p := List.countP_eq_length_filter.symm

/-! ## Counting slots -/

/-- A slot that did not count changes. -/
theorem countP_set_of {l : List β} {k : Nat} {a b : β} {f : β → Bool}
    (hk : l[k]? = some a) (ha : f a = false) :
    (l.set k b).countP f = l.countP f + (if f b then 1 else 0) := by
  obtain ⟨hlt, rfl⟩ := List.getElem?_eq_some_iff.mp hk
  rw [List.countP_set hlt, ha]
  simp

/-- The peers whose slot satisfies `f`. -/
def chosen (peers : List ι) (slots : List β) (f : β → Bool) : List ι :=
  ((peers.zip slots).filter fun x => f x.2).map Prod.fst

theorem chosen_sublist {peers : List ι} {slots : List β} (f : β → Bool)
    (hlen : slots.length = peers.length) :
    (chosen peers slots f).Sublist peers := by
  have h : ((peers.zip slots).filter fun x => f x.2).Sublist
      (peers.zip slots) := List.filter_sublist
  simpa only [chosen, List.map_fst_zip (Nat.le_of_eq hlen.symm)]
    using h.map Prod.fst

theorem length_chosen {peers : List ι} {slots : List β} {f : β → Bool}
    (hlen : slots.length = peers.length) :
    (chosen peers slots f).length = slots.countP f := by
  rw [chosen, List.length_map, ← List.countP_eq_length_filter,
    show (fun x : ι × β => f x.2) = f ∘ Prod.snd from rfl,
    ← List.countP_map, List.map_snd_zip (Nat.le_of_eq hlen)]

theorem mem_chosen {peers : List ι} {slots : List β} {f : β → Bool} {v : ι}
    (h : v ∈ chosen peers slots f) :
    ∃ (k : Nat) (w : β), peers[k]? = some v ∧ slots[k]? = some w
      ∧ f w = true := by
  obtain ⟨⟨p, w⟩, hmem, rfl⟩ := List.mem_map.mp h
  obtain ⟨hzip, hf⟩ := List.mem_filter.mp hmem
  obtain ⟨k, hk⟩ := List.mem_iff_getElem?.mp hzip
  obtain ⟨h1, h2⟩ := List.getElem?_zip_eq_some.mp hk
  exact ⟨k, w, h1, h2, hf⟩

/-- One slot for each peer, and a count of one for the node itself and one
for every slot that counts. -/
structure Tally (peers : List ι) (slots : List β) (f : β → Bool) (count : Nat) : Prop where
  length : slots.length = peers.length
  count : count = 1 + slots.countP f

theorem Tally.start (peers : List ι) {b : β} {f : β → Bool} (hb : f b = false) :
    Tally peers (peers.map fun _ => b) f 1 where
  length := List.length_map ..
  count := by
    have hzero : (peers.map fun _ => b).countP f = 0 := by
      rw [List.countP_eq_zero]
      intro x hx
      obtain ⟨_, -, rfl⟩ := List.mem_map.mp hx
      exact Bool.eq_false_iff.mp hb
    rw [hzero]

theorem Tally.set {peers : List ι} {slots : List β} {f : β → Bool} {count : Nat}
    (h : Tally peers slots f count) {k : Nat} {a : β} (hk : slots[k]? = some a)
    (ha : f a = false) (b : β) :
    Tally peers (slots.set k b) f (count + if f b then 1 else 0) where
  length := (List.length_set ..).trans h.length
  count := by rw [countP_set_of hk ha, h.count, Nat.add_assoc]

/-- One for the node itself and one for every slot that counts, up to
more than half of the members, make a majority. -/
theorem exists_majority_of_slots [DecidableEq ι] {members peers : List ι} {n : ι}
    (hn : n ∈ members) (hnd : peers.Nodup)
    (hpeers : ∀ p ∈ peers, p ∈ members ∧ p ≠ n)
    {slots : List β} {f : β → Bool} (hlen : slots.length = peers.length)
    (hcount : members.length / 2 + 1 ≤ 1 + slots.countP f) :
    ∃ Q, IsMajority members Q ∧ n ∈ Q ∧ ∀ v ∈ Q, v = n ∨
      ∃ (k : Nat) (w : β), peers[k]? = some v ∧ slots[k]? = some w
        ∧ f w = true := by
  have hsub := chosen_sublist f hlen
  have hn' : n ∉ (chosen peers slots f).toFinset := fun h =>
    (hpeers n (hsub.subset (List.mem_toFinset.mp h))).2 rfl
  refine ⟨insert n (chosen peers slots f).toFinset, ⟨?_, ?_⟩,
    Finset.mem_insert_self .., ?_⟩
  · intro v hv
    rcases Finset.mem_insert.mp hv with rfl | hv
    · exact hn
    · exact (hpeers v (hsub.subset (List.mem_toFinset.mp hv))).1
  · rw [Finset.card_insert_of_notMem hn',
      List.toFinset_card_of_nodup (hsub.nodup hnd), length_chosen hlen]
    omega
  · intro v hv
    rcases Finset.mem_insert.mp hv with rfl | hv
    · exact .inl rfl
    · exact .inr (mem_chosen (List.mem_toFinset.mp hv))

/-! ## Counting answers -/

/-- Count the positive answers in the order in which they come, and look at
the count after each of them. -/
def reaches (need : Nat) : (count : Nat) → List Bool → Bool
  | _, [] => false
  | count, a :: answers =>
      let count := if a then count + 1 else count
      a && need ≤ count || reaches need count answers

/-- The order makes no difference to whether there are enough. -/
theorem reaches_iff {need count : Nat} {answers : List Bool} (h : count < need) :
    reaches need count answers = true ↔ need ≤ count + answers.count true := by
  induction answers generalizing count with
  | nil => simpa [reaches] using h
  | cons a answers ih =>
      cases a with
      | false =>
          rw [List.count_cons_of_ne (by simp), ← ih h]
          exact Iff.rfl
      | true =>
          show (decide (need ≤ count + 1) || reaches need (count + 1) answers) = true ↔ _
          rw [List.count_cons_self, Bool.or_eq_true, decide_eq_true_eq]
          by_cases hneed : need ≤ count + 1
          · exact iff_of_true (.inl hneed) (by omega)
          · rw [or_iff_right hneed, ih (by omega)]
            omega

/-- The slots still open are those at the positions `ks`. -/
def Pending (isOpen : β → Bool) (slots : List β) (ks : List Nat) : Prop :=
  ∀ k, (∃ b, slots[k]? = some b ∧ isOpen b = true) ↔ k ∈ ks

theorem Pending.all_closed {isOpen : β → Bool} {slots : List β} {ks : List Nat}
    (h : Pending isOpen slots ks) :
    (∀ b ∈ slots, isOpen b = false) ↔ ks = [] := by
  constructor
  · intro hall
    cases ks with
    | nil => rfl
    | cons k ks =>
        obtain ⟨b, hb, hopen⟩ := (h k).mpr List.mem_cons_self
        cases (hall b (List.mem_of_getElem? hb)).symm.trans hopen
  · rintro rfl b hb
    obtain ⟨k, hk⟩ := List.mem_iff_getElem?.mp hb
    refine Bool.eq_false_iff.mpr fun hopen => ?_
    cases (h k).mp ⟨b, hk, hopen⟩

theorem Pending.close {isOpen : β → Bool} {slots : List β} {k : Nat} {ks : List Nat}
    (h : Pending isOpen slots (k :: ks)) (hnodup : (k :: ks).Nodup) {b : β}
    (hb : isOpen b = false) : Pending isOpen (slots.set k b) ks := by
  obtain ⟨hk, -⟩ := List.nodup_cons.mp hnodup
  obtain ⟨_, hold, -⟩ := (h k).mpr List.mem_cons_self
  have hlt := (List.getElem?_eq_some_iff.mp hold).1
  intro j
  by_cases hj : k = j
  · subst hj
    simp [List.getElem?_set_self hlt, hb, hk]
  · rw [List.getElem?_set_ne hj, h j, List.mem_cons]
    exact or_iff_right (Ne.symm hj)

/-- One open slot for each of the elements of a list. -/
theorem pending_of_open {α : Type*} {isOpen : β → Bool} {b : β}
    (hb : isOpen b = true) {l : List α} {ks : List Nat}
    (h : ks.Perm (List.range l.length)) :
    Pending isOpen (l.map fun _ => b) ks := by
  intro k
  rw [h.mem_iff, List.mem_range, List.getElem?_map]
  constructor
  · rintro ⟨_, hk, -⟩
    obtain ⟨x, hx, -⟩ := Option.map_eq_some_iff.mp hk
    exact (List.getElem?_eq_some_iff.mp hx).1
  · intro hk
    exact ⟨b, by rw [List.getElem?_eq_getElem hk, Option.map_some], hb⟩

end Quorum
