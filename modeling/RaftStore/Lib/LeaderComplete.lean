import RaftStore.Lib.LeaderLogInv

/-!
# Leader completeness and committed prefixes

What a quorum acknowledged in a term, up to an entry of that term, is
`CommittedAt`. Leader completeness says that every later leader started
with it. A log is `Safe` when it is part of something committed; safe
logs are comparable, which is what agreement on applied entries needs.

The quorums are assumed to intersect.
-/

namespace LeaderLog

variable {ι ε : Type*} {tm : ε → ℕ} {quorum : Finset ι → Prop} {s s' : St ι ε}

/-- A quorum acknowledged the first `m` entries of term `T`, which end
with an entry of `T`. -/
def CommittedAt (tm : ε → ℕ) (quorum : Finset ι → Prop) (s : St ι ε)
    (T m : ℕ) : Prop :=
  OwnTerm tm s T m ∧ ∃ Q, quorum Q ∧ ∀ v ∈ Q, m ≤ s.ack v T

/-- `l` is part of what was committed in a term up to `U`. -/
def Safe (tm : ε → ℕ) (quorum : Finset ι → Prop) (s : St ι ε) (U : ℕ)
    (l : List ε) : Prop :=
  l = [] ∨ ∃ T m, T ≤ U ∧ CommittedAt tm quorum s T m ∧
    l <+: (s.full T).take m

theorem OwnTerm.le_length {T m : ℕ} (h : OwnTerm tm s T m) :
    m ≤ (s.full T).length := by
  obtain ⟨e, hpos, he, -⟩ := h
  have := lt_length_of_getElem? he
  omega

theorem CommittedAt.grow (g : Grow s s') {T m : ℕ}
    (h : CommittedAt tm quorum s T m) : CommittedAt tm quorum s' T m := by
  obtain ⟨ho, Q, hQ, hack⟩ := h
  exact ⟨ho.grow g, Q, hQ, fun v hv => (hack v hv).trans (g.ack v T)⟩

theorem Safe.grow (g : Grow s s') {U U' : ℕ} (hU : U ≤ U') {l : List ε}
    (h : Safe tm quorum s U l) : Safe tm quorum s' U' l := by
  rcases h with rfl | ⟨T, m, hT, hc, hl⟩
  · exact .inl rfl
  · refine .inr ⟨T, m, hT.trans hU, hc.grow g, ?_⟩
    rwa [g.take_eq hc.1.le_length]

theorem Safe.mono {U U' : ℕ} (hU : U ≤ U') {l l' : List ε} (hl : l' <+: l)
    (h : Safe tm quorum s U l) : Safe tm quorum s U' l' := by
  rcases h with rfl | ⟨T, m, hT, hc, hlm⟩
  · exact .inl (List.prefix_nil.mp hl)
  · exact .inr ⟨T, m, hT.trans hU, hc, hl.trans hlm⟩

/-- The first `m` entries of term `T` are safe in that term. -/
def SafeUpTo (tm : ε → ℕ) (quorum : Finset ι → Prop) (s : St ι ε)
    (T m : ℕ) : Prop :=
  m ≤ (s.full T).length ∧ Safe tm quorum s T ((s.full T).take m)

theorem SafeUpTo.grow (g : Grow s s') {T m : ℕ}
    (h : SafeUpTo tm quorum s T m) : SafeUpTo tm quorum s' T m := by
  refine ⟨h.1.trans (g.full T).length_le, ?_⟩
  rw [g.take_eq h.1]
  exact h.2.grow g (Nat.le_refl T)

theorem SafeUpTo.mono {T m m' : ℕ} (hm : m' ≤ m)
    (h : SafeUpTo tm quorum s T m) : SafeUpTo tm quorum s T m' :=
  ⟨hm.trans h.1, h.2.mono (Nat.le_refl T) (List.take_prefix_take_left hm)⟩

/-- No leader started with an entry that the log of its term does not have
yet. -/
theorem not_prefix_base (h : Inv tm quorum s) {T : ℕ} {e : ε} (T' : ℕ)
    (he : tm e = T) : ¬ s.full T ++ [e] <+: s.base T' := by
  intro hpre
  have hget : (s.full T')[(s.full T).length]? = some e :=
    prefix_getElem? (hpre.trans (h.base_full T')) (by simp)
  have hlen := (h.rooted_full T' _ e hget).length_le
  rw [List.length_take_of_le (lt_length_of_getElem? hget), he] at hlen
  omega

section Intersecting

variable (hquorum : ∀ Q R, quorum Q → quorum R → ∃ v, v ∈ Q ∧ v ∈ R)
include hquorum

/-- Every leader of a later term started with what was committed. -/
theorem leader_complete (h : Inv tm quorum s) {T m : ℕ}
    (hc : CommittedAt tm quorum s T m) :
    ∀ T', T < T' → s.leader T' ≠ none → (s.full T).take m <+: s.base T' := by
  obtain ⟨ho, Q, hQ, hack⟩ := hc
  intro T'
  -- strong induction: leaders between `T` and `T'` started with it
  induction T' using Nat.strong_induction_on with
  | _ T' ih =>
      intro hT hlead
      obtain ⟨R, hR, hall⟩ := h.elected T' hlead
      obtain ⟨v, hvQ, hvR⟩ := hquorum Q R hQ hR
      rcases (hall v hvR).2 T m hT (hack v hvQ) ho with hp | hlost
      · exact hp
      · obtain ⟨T'', hlt, hle, hl, hnot⟩ := hlost
        exact absurd (ih T'' (by omega) hlt hl) hnot

/-- A safe log is in the log of every leader from its term on. -/
theorem Safe.prefix_full (h : Inv tm quorum s) {U T' : ℕ} {l : List ε}
    (hs : Safe tm quorum s U l) (hU : U ≤ T') (hlead : s.leader T' ≠ none) :
    l <+: s.full T' := by
  rcases hs with rfl | ⟨T, m, hT, hc, hl⟩
  · exact List.nil_prefix
  · rcases Nat.lt_or_eq_of_le (hT.trans hU) with hlt | rfl
    · exact hl.trans ((leader_complete hquorum h hc T' hlt hlead).trans
        (h.base_full T'))
    · exact hl.trans (List.take_prefix ..)

/-- A node keeps a safe part of what it acknowledged. -/
theorem Safe.prefix_log (h : Inv tm quorum s) {T U m : ℕ} {n : ι}
    (hack : m ≤ s.ack n T) (hs : Safe tm quorum s U ((s.full T).take m))
    (hU : U ≤ T) : (s.full T).take m <+: s.log n := by
  rcases h.kept n T m hack with hp | ⟨T', hlt, -, hl, hnot⟩
  · exact hp
  · refine absurd ?_ hnot
    rcases hs with hnil | ⟨T₀, m₀, hT₀, hc, hl₀⟩
    · rw [hnil]; exact List.nil_prefix
    · exact hl₀.trans (leader_complete hquorum h hc T' (by omega) hl)

theorem CommittedAt.prefix_log (h : Inv tm quorum s) {T m : ℕ} {n : ι}
    (hc : CommittedAt tm quorum s T m) (hack : m ≤ s.ack n T) :
    (s.full T).take m <+: s.log n :=
  Safe.prefix_log hquorum h hack
    (.inr ⟨T, m, Nat.le_refl _, hc, List.prefix_rfl⟩) (Nat.le_refl _)

/-- The leader of a term keeps what is safe of it, also as a follower of
later ones. -/
theorem SafeUpTo.prefix_leader (h : Inv tm quorum s) {T m : ℕ} {n : ι}
    (hs : SafeUpTo tm quorum s T m) (hlead : s.leader T = some n) :
    (s.full T).take m <+: s.log n :=
  Safe.prefix_log hquorum h (h.leader_ack T n hlead ▸ hs.1) hs.2 (Nat.le_refl T)

/-- Two safe logs are comparable. -/
theorem Safe.compare (h : Inv tm quorum s) {U U' : ℕ} {l l' : List ε}
    (hs : Safe tm quorum s U l) (hs' : Safe tm quorum s U' l') :
    l <+: l' ∨ l' <+: l := by
  rcases hs with rfl | ⟨T, m, -, hc, hl⟩
  · exact .inl List.nil_prefix
  rcases hs' with rfl | ⟨T', m', -, hc', hl'⟩
  · exact .inr List.nil_prefix
  have hlead : ∀ {T m}, CommittedAt tm quorum s T m → s.leader T ≠ none := by
    rintro T m ⟨⟨e, -, he, -⟩, -⟩ hn
    rw [h.full_nil T hn] at he
    simp at he
  have hfull : ∀ {T m l}, CommittedAt tm quorum s T m →
      l <+: (s.full T).take m → Safe tm quorum s T l :=
    fun hc hl => .inr ⟨_, _, Nat.le_refl _, hc, hl⟩
  rcases Nat.le_total T T' with hle | hle
  · exact List.prefix_or_prefix_of_prefix
      ((hfull hc hl).prefix_full hquorum h hle (hlead hc'))
      ((hfull hc' hl').prefix_full hquorum h (Nat.le_refl _) (hlead hc'))
  · exact List.prefix_or_prefix_of_prefix
      ((hfull hc hl).prefix_full hquorum h (Nat.le_refl _) (hlead hc))
      ((hfull hc' hl').prefix_full hquorum h hle (hlead hc))

end Intersecting

end LeaderLog
