import RaftStore.Lib.LeaderLog

/-!
# The invariant of the replicated log

Every step of the protocol keeps `LeaderLog.Inv` (`Step.inv`).

The steps share one argument: everything the invariant says about votes
and elections of the past speaks of acknowledgements for terms below
what the voter has reached, and those cannot change any more
(`Grow.ack_eq`). What is left for each step are the fields it writes, at
the node and the term it writes them.
-/

namespace LeaderLog

variable {ι ε : Type*} {tm : ε → ℕ}
  {quorum : Finset ι → Prop} {s s' : St ι ε}

/-! ## What survives a step -/

theorem Grow.refl (s : St ι ε) : Grow s s where
  full _ := List.prefix_rfl
  leader _ _ h := h
  base _ _ := rfl
  ack _ _ := Nat.le_refl _
  ack_new _ _ := .inl rfl
  ballot _ _ _ _ h := h
  ballot_cur _ _ _ _ _ := Nat.le_refl _

theorem Grow.take_eq (g : Grow s s') {T m : ℕ} (hm : m ≤ (s.full T).length) :
    (s'.full T).take m = (s.full T).take m :=
  prefix_take_eq (g.full T) hm

theorem Grow.leader_ne (g : Grow s s') {T : ℕ} (h : s.leader T ≠ none) :
    s'.leader T ≠ none := by
  obtain ⟨n, hn⟩ := Option.ne_none_iff_exists'.mp h
  rw [g.leader T n hn]
  exact Option.some_ne_none n

theorem Lost.grow (g : Grow s s') {T m U U' : ℕ}
    (hm : m ≤ (s.full T).length) (hU : U ≤ U') (h : Lost s T m U) :
    Lost s' T m U' := by
  obtain ⟨T', hT, hle, hlead, hnot⟩ := h
  refine ⟨T', hT, hle.trans hU, g.leader_ne hlead, ?_⟩
  rwa [g.take_eq hm, g.base T' hlead]

theorem OwnTerm.of_grow (g : Grow s s') {T m : ℕ}
    (hm : m ≤ (s.full T).length) (h : OwnTerm tm s' T m) :
    OwnTerm tm s T m := by
  obtain ⟨e, hpos, he, ht⟩ := h
  refine ⟨e, hpos, ?_, ht⟩
  have hlt : m - 1 < (s.full T).length := by omega
  obtain ⟨t, ht'⟩ := g.full T
  rwa [← ht', List.getElem?_append_left hlt] at he

theorem OwnTerm.grow (g : Grow s s') {T m : ℕ} (h : OwnTerm tm s T m) :
    OwnTerm tm s' T m := by
  obtain ⟨e, hpos, he, ht⟩ := h
  exact ⟨e, hpos, prefix_getElem? (g.full T) he, ht⟩

/-- A voter's acknowledgements for terms before its vote are final. -/
theorem Grow.ack_eq (g : Grow s s') (h : Inv tm quorum s) {v : ι}
    {T T' lt len : ℕ} (hb : s.ballot v T' lt len) (hT : T < T') :
    s'.ack v T = s.ack v T := by
  rcases g.ack_new v T with heq | hcur
  · exact heq
  · have h1 := h.ballot_cur v T' lt len hb
    have h2 := g.ballot_cur v T' lt len hb
    omega

theorem Grow.ballot_log (g : Grow s s') (h : Inv tm quorum s) {v : ι}
    {T' lt len : ℕ} (hb : s.ballot v T' lt len) {T m : ℕ} (hT : T < T')
    (hm : m ≤ s'.ack v T) (ho : OwnTerm tm s' T m) :
    Lost s' T m T' ∨ T < lt ∨ (T = lt ∧ m ≤ len) := by
  rw [g.ack_eq h hb hT] at hm
  have hlen := hm.trans (h.ack_len v T)
  rcases h.ballot_log v T' lt len hb T m hT hm (ho.of_grow g hlen) with hl | hr
  · exact .inl (hl.grow g hlen (Nat.le_refl _))
  · exact .inr hr

theorem Grow.elected (g : Grow s s') (h : Inv tm quorum s) {T' : ℕ}
    (hlead : s.leader T' ≠ none) :
    ∃ Q, quorum Q ∧ ∀ v ∈ Q, (∃ lt len, s'.ballot v T' lt len) ∧
      ∀ T m, T < T' → m ≤ s'.ack v T → OwnTerm tm s' T m →
        (s'.full T).take m <+: s'.base T' ∨ Lost s' T m (T' - 1) := by
  obtain ⟨Q, hQ, hall⟩ := h.elected T' hlead
  refine ⟨Q, hQ, ?_⟩
  intro v hv
  obtain ⟨⟨lt, len, hb⟩, hrest⟩ := hall v hv
  refine ⟨⟨lt, len, g.ballot v T' lt len hb⟩, ?_⟩
  intro T m hT hm ho
  rw [g.ack_eq h hb hT] at hm
  have hlen := hm.trans (h.ack_len v T)
  rw [g.take_eq hlen, g.base T' hlead]
  rcases hrest T m hT hm (ho.of_grow g hlen) with hp | hl
  · exact .inl hp
  · exact .inr (hl.grow g hlen (Nat.le_refl _))

/-- `kept` for an acknowledgement that did not change on a node whose log
kept its common part with the leader's log. -/
theorem Grow.kept (g : Grow s s') (h : Inv tm quorum s) {n : ι} {T m : ℕ}
    (hm : m ≤ s.ack n T) (hcur : s.cur n ≤ s'.cur n)
    (hlog : (s.full T).take m <+: s.log n →
      (s.full T).take m <+: s'.log n ∨ Lost s T m (s'.cur n)) :
    (s'.full T).take m <+: s'.log n ∨ Lost s' T m (s'.cur n) := by
  have hlen := hm.trans (h.ack_len n T)
  rw [g.take_eq hlen]
  rcases h.kept n T m hm with hp | hl
  · rcases hlog hp with hp' | hl'
    · exact .inl hp'
    · exact .inr (hl'.grow g hlen (Nat.le_refl _))
  · exact .inr (hl.grow g hlen hcur)

/-- The vote's comparison of logs: a log that still has the first `m`
entries of `T`, the last of them of term `T`, is no shorter than `m`
where its last term is `T`. -/
theorem OwnTerm.le_last (h : Inv tm quorum s) {n : ι} {T m : ℕ}
    (ho : OwnTerm tm s T m) (hp : (s.full T).take m <+: s.log n) :
    T < lastTerm tm (s.log n) ∨
      (T = lastTerm tm (s.log n) ∧ m ≤ (s.log n).length) := by
  obtain ⟨e, hpos, he, ht⟩ := ho
  have hget : ((s.full T).take m)[m - 1]? = some e := by
    rw [List.getElem?_take_of_lt (by omega), he]
  have hlog := prefix_getElem? hp hget
  have hle := ((h.rooted n).sorted h.sorted).le_lastTerm hlog
  have hlen := lt_length_of_getElem? hlog
  omega

/-- A voter of the election answers for the log the winner starts from:
a prefix the voter acknowledged is in it, or lost before. -/
theorem base_of_ballot (h : Inv tm quorum s) {n v : ι} {T' : ℕ}
    (hcur : s.cur n = T') (hnone : s.leader T' = none)
    (hb : s.ballot v T' (lastTerm tm (s.log n)) (s.log n).length) {T m : ℕ}
    (hT : T < T') (hm : m ≤ s.ack v T) (ho : OwnTerm tm s T m) :
    (s.full T).take m <+: s.log n ∨ Lost s T m (T' - 1) := by
  have hlen := hm.trans (h.ack_len v T)
  have hpos : 0 < m := ho.elim fun _ h => h.1
  rcases h.ballot_log v T' _ _ hb T m hT hm ho with ⟨T'', hlt, hle, hl, hnot⟩ | hlast
  · -- `T'` itself has no leader yet
    have hne : T'' ≠ T' := fun heq => hl (heq ▸ hnone)
    exact .inr ⟨T'', hlt, by omega, hl, hnot⟩
  cases hlog : (s.log n).getLast? with
  | none =>
      rw [List.getLast?_eq_none_iff.mp hlog, lastTerm] at hlast
      simp at hlast
      omega
  | some e =>
      have hlt : lastTerm tm (s.log n) = tm e := by rw [lastTerm, hlog]; rfl
      rw [hlt] at hlast
      have hroot := (h.rooted n).prefix_last hlog
      rcases hlast with hgt | ⟨heq, hlen'⟩
      · -- the winner's last entry is of a later term `tm e`
        have hmem : e ∈ s.log n := List.mem_of_getLast? hlog
        have hle : tm e ≤ T' := hcur ▸ h.log_le n e hmem
        have hlead : s.leader (tm e) ≠ none := fun hn => by
          rw [h.full_nil _ hn, List.prefix_nil] at hroot
          rw [hroot] at hmem
          cases hmem
        have hne : tm e ≠ T' := fun heq => hlead (heq ▸ hnone)
        by_cases hbase : (s.full T).take m <+: s.base (tm e)
        · refine .inl (List.prefix_of_prefix_length_le
            (hbase.trans (h.base_full _)) hroot ?_)
          -- the first `m` entries have terms up to `T`, so `e` comes later
          rw [List.length_take_of_le hlen]
          by_contra hshort
          have hidx : (s.log n)[(s.log n).length - 1]? = some e := by
            rw [← List.getLast?_eq_getElem?, hlog]
          have hpos' := lt_length_of_getElem? hidx
          have hfull := prefix_getElem? hroot hidx
          have htake : ((s.full T).take m)[(s.log n).length - 1]? = some e := by
            obtain ⟨t, ht⟩ := hbase.trans (h.base_full _)
            rw [← ht, List.getElem?_append_left (by
              rw [List.length_take_of_le hlen]; omega)] at hfull
            exact hfull
          have := h.full_le T e
            (List.mem_of_mem_take (List.mem_of_getElem? htake))
          omega
        · exact .inr ⟨tm e, hgt, by omega, hlead, hbase⟩
      · -- the winner's last entry is of term `T`
        rw [← heq] at hroot
        exact .inl (List.prefix_of_prefix_length_le (List.take_prefix ..) hroot
          (by rw [List.length_take_of_le hlen]; exact hlen'))

theorem ack_of_log_nil (h : Inv tm quorum s) {n : ι} (hlog : s.log n = [])
    (T : ℕ) : s.ack n T = 0 :=
  Nat.eq_zero_of_not_pos fun hpos => h.ack_log n T hpos hlog

theorem inv_init : Inv tm quorum (St.init : St ι ε) where
  rooted _ := Rooted.nil
  rooted_full _ := Rooted.nil
  sorted _ := List.Pairwise.nil
  log_le _ _ h := by cases h
  full_le _ _ h := by cases h
  base_full _ := List.prefix_rfl
  full_nil _ _ := rfl
  leader_cur _ _ h := by cases h
  leader_log _ _ h := by cases h
  leader_ack _ _ h := by cases h
  ack_len _ _ := Nat.le_refl _
  ack_cur _ _ h := by cases h
  ack_log _ _ h := by cases h
  kept _ _ m _ := .inl (by simp [St.init])
  ballot_cur _ _ _ _ h := h.elim
  ballot_log _ _ _ _ h := h.elim
  elected _ h := absurd rfl h

/-! ## Raising a term, voting, starting over -/

variable [DecidableEq ι]

theorem cur_le_raise {n : ι} {T : ℕ} (hcur : s.cur n ≤ T) (v : ι) :
    s.cur v ≤ (s.raise n T).cur v := by
  by_cases hv : v = n
  · subst hv; rwa [St.raise_cur_self]
  · rw [St.raise_cur_of_ne hv]

theorem grow_raise {n : ι} {T : ℕ} (hcur : s.cur n ≤ T) :
    Grow s (s.raise n T) where
  full _ := List.prefix_rfl
  leader _ _ h := h
  base _ _ := rfl
  ack _ _ := Nat.le_refl _
  ack_new _ _ := .inl rfl
  ballot _ _ _ _ h := h
  ballot_cur v _ _ _ _ := cur_le_raise hcur v

theorem inv_raise (h : Inv tm quorum s) {n : ι} {T : ℕ} (hcur : s.cur n ≤ T) :
    Inv tm quorum (s.raise n T) where
  rooted := h.rooted
  rooted_full := h.rooted_full
  sorted := h.sorted
  log_le v e he := (h.log_le v e he).trans (cur_le_raise hcur v)
  full_le := h.full_le
  base_full := h.base_full
  full_nil := h.full_nil
  leader_cur T' v hl := (h.leader_cur T' v hl).trans (cur_le_raise hcur v)
  leader_log T' v hl hT' := by
    have h1 := h.leader_cur T' v hl
    have h2 := cur_le_raise hcur v
    exact h.leader_log T' v hl (by omega)
  leader_ack := h.leader_ack
  ack_len := h.ack_len
  ack_cur v T' hpos := (h.ack_cur v T' hpos).trans (cur_le_raise hcur v)
  ack_log := h.ack_log
  kept v T' m hm := (grow_raise hcur).kept h hm (cur_le_raise hcur v) .inl
  ballot_cur v T' lt len hb :=
    (h.ballot_cur v T' lt len hb).trans (cur_le_raise hcur v)
  ballot_log v T' lt len hb T₀ m hT hm ho :=
    (grow_raise hcur).ballot_log h hb hT hm ho
  elected T' hl := (grow_raise hcur).elected h hl

theorem inv_vote (h : Inv tm quorum s) {v : ι} {T lt len : ℕ}
    (hcur : s.cur v ≤ T)
    (hlog : lastTerm tm (s.log v) < lt ∨
      (lastTerm tm (s.log v) = lt ∧ (s.log v).length ≤ len)) :
    Inv tm quorum (s.vote v T lt len) := by
  have hr := inv_raise h hcur
  refine ⟨hr.rooted, hr.rooted_full, hr.sorted, hr.log_le, hr.full_le,
    hr.base_full, hr.full_nil, hr.leader_cur, hr.leader_log, hr.leader_ack,
    hr.ack_len, hr.ack_cur, hr.ack_log, hr.kept, ?_, ?_, ?_⟩
  · rintro v' T' lt' len' (hb | ⟨rfl, rfl, -, -⟩)
    · exact hr.ballot_cur v' T' lt' len' hb
    · exact Nat.le_of_eq St.raise_cur_self.symm
  · rintro v' T' lt' len' (hb | ⟨rfl, rfl, rfl, rfl⟩) T₀ m hT hm ho
    · exact hr.ballot_log v' T' lt' len' hb T₀ m hT hm ho
    -- the new vote: what the voter acknowledged it still has, or it is lost
    · rcases hr.kept v' T₀ m hm with hp | hl
      · rcases OwnTerm.le_last h ho hp with hlt | ⟨heq, hlen⟩
        · exact .inr (by omega)
        · exact .inr (by omega)
      · exact .inl (by rwa [St.raise_cur_self] at hl)
  · intro T' hl
    obtain ⟨Q, hQ, hall⟩ := hr.elected T' hl
    refine ⟨Q, hQ, ?_⟩
    intro v' hv'
    obtain ⟨⟨lt', len', hb⟩, hrest⟩ := hall v' hv'
    exact ⟨⟨lt', len', .inl hb⟩, hrest⟩

/-- A node that never voted and whose log is empty has acknowledged
nothing, so it may forget its term. -/
theorem grow_reset {n : ι} (hballot : ∀ T lt len, ¬ s.ballot n T lt len) :
    Grow s (s.raise n 0) where
  full _ := List.prefix_rfl
  leader _ _ h := h
  base _ _ := rfl
  ack _ _ := Nat.le_refl _
  ack_new _ _ := .inl rfl
  ballot _ _ _ _ h := h
  ballot_cur v _ _ _ hb := by
    have hv : v ≠ n := fun hv => hballot _ _ _ (hv ▸ hb)
    rw [St.raise_cur_of_ne hv]

theorem inv_reset (h : Inv tm quorum s) {n : ι} (hlog : s.log n = [])
    (hlead : ∀ T, s.leader T ≠ some n)
    (hballot : ∀ T lt len, ¬ s.ballot n T lt len) :
    Inv tm quorum (s.raise n 0) where
  rooted := h.rooted
  rooted_full := h.rooted_full
  sorted := h.sorted
  log_le v e he := by
    by_cases hv : v = n
    · subst hv
      rw [show (s.raise v 0).log v = [] from hlog] at he
      cases he
    · rw [St.raise_cur_of_ne hv]; exact h.log_le v e he
  full_le := h.full_le
  base_full := h.base_full
  full_nil := h.full_nil
  leader_cur T v hl := by
    have hv : v ≠ n := fun hv => hlead T (hv ▸ hl)
    rw [St.raise_cur_of_ne hv]
    exact h.leader_cur T v hl
  leader_log T v hl hT := by
    have hv : v ≠ n := fun hv => hlead T (hv ▸ hl)
    rw [St.raise_cur_of_ne hv] at hT
    exact h.leader_log T v hl hT
  leader_ack := h.leader_ack
  ack_len := h.ack_len
  ack_cur v T hpos := by
    by_cases hv : v = n
    · subst hv
      rw [show (s.raise v 0).ack v T = 0 from ack_of_log_nil h hlog T] at hpos
      cases hpos
    · rw [St.raise_cur_of_ne hv]; exact h.ack_cur v T hpos
  ack_log := h.ack_log
  kept v T m hm := by
    by_cases hv : v = n
    · subst hv
      rw [show (s.raise v 0).ack v T = 0 from ack_of_log_nil h hlog T] at hm
      rw [Nat.le_zero.mp hm]
      exact .inl (by simp)
    · exact (grow_reset hballot).kept h hm
        (Nat.le_of_eq (St.raise_cur_of_ne hv).symm) .inl
  ballot_cur v T lt len hb := by
    have hv : v ≠ n := fun hv => hballot _ _ _ (hv ▸ hb)
    rw [St.raise_cur_of_ne hv]
    exact h.ballot_cur v T lt len hb
  ballot_log v T' lt len hb T m hT hm ho :=
    (grow_reset hballot).ballot_log h hb hT hm ho
  elected T' hl := (grow_reset hballot).elected h hl

/-! ## Electing -/

theorem grow_elect (h : Inv tm quorum s) {n : ι} {T : ℕ} (hcur : s.cur n = T)
    (hnone : s.leader T = none) : Grow s (s.elect n T) where
  full T' := by
    by_cases hT : T' = T
    · subst hT; rw [h.full_nil _ hnone]; exact List.nil_prefix
    · have heq : (s.elect n T).full T' = s.full T' := St.elect_full_of_ne hT
      exact heq ▸ List.prefix_rfl
  leader T' v hl := by
    have hT : T' ≠ T := fun hT => by rw [hT, hnone] at hl; cases hl
    rwa [St.elect_leader_of_ne hT]
  base T' hl := St.elect_base_of_ne fun hT => hl (hT ▸ hnone)
  ack v T' := s.le_ackUpTo n v T T' _
  ack_new v T' := s.ackUpTo_new _ hcur
  ballot _ _ _ _ hb := hb
  ballot_cur _ _ _ _ _ := Nat.le_refl _

/-- The winner acknowledges the whole log it starts from. -/
theorem elect_ack_self (h : Inv tm quorum s) {n : ι} {T : ℕ}
    (hnone : s.leader T = none) :
    (s.elect n T).ack n T = (s.log n).length := by
  have hlen := h.ack_len n T
  rw [h.full_nil T hnone, List.length_nil, Nat.le_zero] at hlen
  rw [show (s.elect n T).ack n T = _ from s.ackUpTo_self n T _, hlen, Nat.zero_max]

theorem elect_voter (h : Inv tm quorum s) {n v : ι} {T : ℕ}
    (hcur : s.cur n = T) (hnone : s.leader T = none)
    (hvote : s.ballot v T (lastTerm tm (s.log n)) (s.log n).length)
    {T₀ m : ℕ} (hT : T₀ < T) (hm : m ≤ (s.elect n T).ack v T₀)
    (ho : OwnTerm tm (s.elect n T) T₀ m) :
    ((s.elect n T).full T₀).take m <+: (s.elect n T).base T
      ∨ Lost (s.elect n T) T₀ m (T - 1) := by
  have g := grow_elect h hcur hnone
  rw [g.ack_eq h hvote hT] at hm
  have hlen := hm.trans (h.ack_len v T₀)
  rw [St.elect_full_of_ne (Nat.ne_of_lt hT), St.elect_base_self]
  rcases base_of_ballot h hcur hnone hvote hT hm (ho.of_grow g hlen) with
    hp | hlost
  · exact .inl hp
  · exact .inr (hlost.grow g hlen (Nat.le_refl _))

theorem inv_elect (h : Inv tm quorum s) {n : ι} {T : ℕ} {Q : Finset ι}
    (hcur : s.cur n = T) (hnone : s.leader T = none) (hQ : quorum Q)
    (hvotes : ∀ v ∈ Q,
      s.ballot v T (lastTerm tm (s.log n)) (s.log n).length) :
    Inv tm quorum (s.elect n T) where
  rooted v := (h.rooted v).mono (grow_elect h hcur hnone).full
  rooted_full T' := by
    have hgrow := (grow_elect h hcur hnone).full
    by_cases hT : T' = T
    · subst hT; rw [St.elect_full_self]; exact (h.rooted n).mono hgrow
    · rw [St.elect_full_of_ne hT]; exact (h.rooted_full T').mono hgrow
  sorted T' := by
    by_cases hT : T' = T
    · subst hT; rw [St.elect_full_self]; exact (h.rooted n).sorted h.sorted
    · rw [St.elect_full_of_ne hT]; exact h.sorted T'
  log_le := h.log_le
  full_le T' := by
    by_cases hT : T' = T
    · subst hT; rw [St.elect_full_self, ← hcur]; exact h.log_le n
    · rw [St.elect_full_of_ne hT]; exact h.full_le T'
  base_full T' := by
    by_cases hT : T' = T
    · subst hT
      have heq : (s.elect n T').base T' = (s.elect n T').full T' :=
        St.elect_base_self.trans St.elect_full_self.symm
      exact heq ▸ List.prefix_rfl
    · rw [St.elect_full_of_ne hT, St.elect_base_of_ne hT]; exact h.base_full T'
  full_nil T' hl := by
    by_cases hT : T' = T
    · rw [hT, St.elect_leader_self] at hl; cases hl
    · rw [St.elect_leader_of_ne hT] at hl
      rw [St.elect_full_of_ne hT]
      exact h.full_nil T' hl
  leader_cur T' v hl := by
    by_cases hT : T' = T
    · subst hT
      rw [St.elect_leader_self] at hl
      exact Nat.le_of_eq (Option.some.inj hl ▸ hcur.symm)
    · rw [St.elect_leader_of_ne hT] at hl; exact h.leader_cur T' v hl
  leader_log T' v hl hT' := by
    by_cases hT : T' = T
    · subst hT
      rw [St.elect_leader_self] at hl
      rw [St.elect_full_self, ← Option.some.inj hl]
      rfl
    · rw [St.elect_leader_of_ne hT] at hl
      rw [St.elect_full_of_ne hT]
      exact h.leader_log T' v hl hT'
  leader_ack T' v hl := by
    by_cases hT : T' = T
    · subst hT
      rw [St.elect_leader_self] at hl
      rw [← Option.some.inj hl, elect_ack_self h hnone, St.elect_full_self]
    · rw [St.elect_leader_of_ne hT] at hl
      rw [St.elect_full_of_ne hT, St.elect_ack_of_ne fun hv => hT hv.2]
      exact h.leader_ack T' v hl
  ack_len v T' := by
    by_cases hv : v = n ∧ T' = T
    · obtain ⟨rfl, rfl⟩ := hv
      rw [elect_ack_self h hnone, St.elect_full_self]
    · rw [St.elect_ack_of_ne hv]
      exact (h.ack_len v T').trans ((grow_elect h hcur hnone).full T').length_le
  ack_cur v T' hpos := by
    by_cases hv : v = n ∧ T' = T
    · obtain ⟨rfl, rfl⟩ := hv; exact Nat.le_of_eq hcur.symm
    · rw [St.elect_ack_of_ne hv] at hpos; exact h.ack_cur v T' hpos
  ack_log v T' hpos := by
    by_cases hv : v = n ∧ T' = T
    · obtain ⟨rfl, rfl⟩ := hv
      rw [elect_ack_self h hnone] at hpos
      exact List.ne_nil_of_length_pos hpos
    · rw [St.elect_ack_of_ne hv] at hpos; exact h.ack_log v T' hpos
  kept v T' m hm := by
    by_cases hv : v = n ∧ T' = T
    · obtain ⟨rfl, rfl⟩ := hv
      rw [St.elect_full_self]
      exact .inl (List.take_prefix ..)
    · rw [St.elect_ack_of_ne hv] at hm
      exact (grow_elect h hcur hnone).kept h hm (Nat.le_refl _) .inl
  ballot_cur := h.ballot_cur
  ballot_log v T' lt len hb T₀ m hT hm ho :=
    (grow_elect h hcur hnone).ballot_log h hb hT hm ho
  elected T' hl := by
    by_cases hT : T' = T
    · subst hT
      exact ⟨Q, hQ, fun v hv => ⟨⟨_, _, hvotes v hv⟩, fun T₀ m hT₀ hm ho =>
        elect_voter h hcur hnone (hvotes v hv) hT₀ hm ho⟩⟩
    · rw [St.elect_leader_of_ne hT] at hl
      exact (grow_elect h hcur hnone).elected h hl

/-! ## Appending -/

theorem grow_append {n : ι} {T : ℕ} {e : ε} (hcur : s.cur n = T) :
    Grow s (s.append n T e) where
  full T' := by
    by_cases hT : T' = T
    · subst hT; rw [St.append_full_self]; exact List.prefix_append ..
    · have heq : (s.append n T e).full T' = s.full T' := St.append_full_of_ne hT
      exact heq ▸ List.prefix_rfl
  leader _ _ h := h
  base _ _ := rfl
  ack v T' := s.le_ackUpTo n v T T' _
  ack_new v T' := s.ackUpTo_new _ hcur
  ballot _ _ _ _ hb := hb
  ballot_cur _ _ _ _ _ := Nat.le_refl _

section Append

variable {n : ι} {T : ℕ} {e : ε}

/-- The appending leader's log is the log of its term. -/
theorem append_log_leader (h : Inv tm quorum s) (hcur : s.cur n = T)
    (hlead : s.leader T = some n) :
    (s.append n T e).log n = (s.append n T e).full T := by
  rw [St.append_full_self, ← h.leader_log T n hlead hcur]
  exact Function.update_self ..

theorem append_ack_leader (h : Inv tm quorum s) (hlead : s.leader T = some n) :
    (s.append n T e).ack n T = ((s.append n T e).full T).length := by
  rw [show (s.append n T e).ack n T = _ from s.ackUpTo_self n T _,
    h.leader_ack T n hlead, St.append_full_self, List.length_append,
    List.length_singleton]
  omega

theorem append_rooted_full (h : Inv tm quorum s) (hcur : s.cur n = T)
    (he : tm e = T) (T' : ℕ) :
    Rooted tm (s.append n T e).full ((s.append n T e).full T') := by
  have hgrow := (grow_append (e := e) hcur).full
  by_cases hT : T' = T
  · subst hT
    have hself := (s.append_full_self (n := n) (T := T') (e := e)).symm
    rw [St.append_full_self]
    exact ((h.rooted_full T').mono hgrow).concat
      (he.symm ▸ hself ▸ List.prefix_rfl)
  · rw [St.append_full_of_ne hT]
    exact (h.rooted_full T').mono hgrow

theorem append_full_le (h : Inv tm quorum s) (he : tm e = T) (T' : ℕ) :
    ∀ x ∈ (s.append n T e).full T', tm x ≤ T' := by
  by_cases hT : T' = T
  · subst hT
    intro x hx
    rw [St.append_full_self] at hx
    rcases List.mem_append.mp hx with hx | hx
    · exact h.full_le T' x hx
    · rw [List.mem_singleton.mp hx, he]
  · rw [St.append_full_of_ne hT]
    exact h.full_le T'

theorem append_sorted (h : Inv tm quorum s) (he : tm e = T) (T' : ℕ) :
    Sorted tm ((s.append n T e).full T') := by
  by_cases hT : T' = T
  · subst hT
    rw [St.append_full_self]
    refine List.pairwise_append.mpr ⟨h.sorted T', List.pairwise_singleton .., ?_⟩
    intro a ha b hb
    rw [List.mem_singleton.mp hb, he]
    exact h.full_le T' a ha
  · rw [St.append_full_of_ne hT]
    exact h.sorted T'

theorem inv_append (h : Inv tm quorum s) (hcur : s.cur n = T)
    (hlead : s.leader T = some n) (he : tm e = T) :
    Inv tm quorum (s.append n T e) where
  rooted v := by
    by_cases hv : v = n
    · subst hv
      rw [append_log_leader h hcur hlead]
      exact append_rooted_full h hcur he T
    · rw [St.append_log_of_ne hv]
      exact (h.rooted v).mono (grow_append hcur).full
  rooted_full := append_rooted_full h hcur he
  sorted := append_sorted h he
  log_le v x hx := by
    by_cases hv : v = n
    · subst hv
      rw [append_log_leader h hcur hlead] at hx
      exact (append_full_le h he T x hx).trans (Nat.le_of_eq hcur.symm)
    · rw [St.append_log_of_ne hv] at hx; exact h.log_le v x hx
  full_le := append_full_le h he
  base_full T' := (h.base_full T').trans ((grow_append hcur).full T')
  full_nil T' hl := by
    have hT : T' ≠ T := fun hT => by
      rw [hT, show (s.append n T e).leader T = some n from hlead] at hl; cases hl
    rw [St.append_full_of_ne hT]
    exact h.full_nil T' hl
  leader_cur := h.leader_cur
  leader_log T' v hl hT' := by
    by_cases hv : v = n
    · subst hv
      obtain rfl : T' = T := hT'.symm.trans hcur
      exact append_log_leader h hcur hlead
    · have hT : T' ≠ T := fun hT => hv (Option.some.inj (hl.symm.trans (hT ▸ hlead)))
      rw [St.append_log_of_ne hv, St.append_full_of_ne hT]
      exact h.leader_log T' v hl hT'
  leader_ack T' v hl := by
    by_cases hT : T' = T
    · subst hT
      obtain rfl : v = n := Option.some.inj (hl.symm.trans hlead)
      exact append_ack_leader h hlead
    · rw [St.append_ack_of_ne fun hv => hT hv.2, St.append_full_of_ne hT]
      exact h.leader_ack T' v hl
  ack_len v T' := by
    by_cases hv : v = n ∧ T' = T
    · obtain ⟨rfl, rfl⟩ := hv
      exact Nat.le_of_eq (append_ack_leader h hlead)
    · rw [St.append_ack_of_ne hv]
      exact (h.ack_len v T').trans ((grow_append hcur).full T').length_le
  ack_cur v T' hpos := by
    by_cases hv : v = n ∧ T' = T
    · obtain ⟨rfl, rfl⟩ := hv; exact Nat.le_of_eq hcur.symm
    · rw [St.append_ack_of_ne hv] at hpos; exact h.ack_cur v T' hpos
  ack_log v T' hpos := by
    by_cases hv : v = n
    · subst hv
      rw [append_log_leader h hcur hlead, St.append_full_self]
      simp
    · rw [St.append_ack_of_ne fun hn => hv hn.1] at hpos
      rw [St.append_log_of_ne hv]
      exact h.ack_log v T' hpos
  kept v T' m hm := by
    by_cases hv : v = n ∧ T' = T
    · obtain ⟨rfl, rfl⟩ := hv
      rw [append_log_leader h hcur hlead]
      exact .inl (List.take_prefix ..)
    · rw [St.append_ack_of_ne hv] at hm
      refine (grow_append hcur).kept h hm (Nat.le_refl _) fun hp => .inl ?_
      by_cases hn : v = n
      · subst hn
        rw [append_log_leader h hcur hlead, St.append_full_self,
          ← h.leader_log T v hlead hcur]
        exact hp.trans (List.prefix_append ..)
      · rw [St.append_log_of_ne hn]; exact hp
  ballot_cur := h.ballot_cur
  ballot_log v T' lt len hb T₀ m hT hm ho :=
    (grow_append hcur).ballot_log h hb hT hm ho
  elected T' hl := (grow_append hcur).elected h hl

end Append

/-! ## Accepting -/

section Accept

variable {n : ι} {T m : ℕ} {l : List ε}

theorem grow_accept (hcur : s.cur n ≤ T) : Grow s (s.accept n T m l) where
  full _ := List.prefix_rfl
  leader _ _ h := h
  base _ _ := rfl
  ack v T' := s.le_ackUpTo n v T T' _
  ack_new v T' := by
    by_cases hv : v = n ∧ T' = T
    · obtain ⟨rfl, rfl⟩ := hv; exact .inr St.accept_cur_self
    · exact .inl (St.accept_ack_of_ne hv)
  ballot _ _ _ _ hb := hb
  ballot_cur v _ _ _ _ := cur_le_raise hcur v

theorem le_accept_ack {T' m' : ℕ} (hm' : m' ≤ (s.accept n T m l).ack n T') :
    m' ≤ s.ack n T' ∨ T' = T ∧ m' ≤ m := by
  by_cases hT : T' = T
  · subst hT
    rw [St.accept_ack_self] at hm'
    omega
  · rw [St.accept_ack_of_ne fun hn => hT hn.2] at hm'
    exact .inl hm'

theorem accept_log_ne_nil (h : Inv tm quorum s) (hm : m ≤ (s.full T).length)
    (hpre : (s.full T).take m <+: l) (hne : s.log n ≠ [] → l ≠ []) {T' : ℕ}
    (hpos : 0 < (s.accept n T m l).ack n T') : l ≠ [] := by
  rcases le_accept_ack hpos with hold | ⟨-, hnew⟩
  · exact hne (h.ack_log n T' hold)
  · have hlen := hpre.length_le
    rw [List.length_take_of_le hm] at hlen
    exact List.ne_nil_of_length_pos (hnew.trans hlen)

/-- The accepting node gives up nothing it acknowledged, unless the leader
of `T` started without it. -/
theorem accept_kept (h : Inv tm quorum s) (hcur : s.cur n ≤ T)
    (hlead : s.leader T ≠ none) (hpre : (s.full T).take m <+: l)
    (hkeep : ∀ x, x <+: s.log n → x <+: s.full T → x <+: l) {T' m' : ℕ}
    (hm' : m' ≤ (s.accept n T m l).ack n T') :
    (s.full T').take m' <+: (s.accept n T m l).log n
      ∨ Lost (s.accept n T m l) T' m' ((s.accept n T m l).cur n) := by
  rcases le_accept_ack hm' with hold | ⟨rfl, hnew⟩
  · refine (grow_accept hcur).kept h hold (cur_le_raise hcur n) ?_
    intro hp
    rw [St.accept_log_self, St.accept_cur_self]
    rcases Nat.eq_zero_or_pos m' with h0 | hpos
    · subst h0; exact .inl (by simp)
    have hT' : T' ≤ T :=
      (h.ack_cur n T' (Nat.lt_of_lt_of_le hpos hold)).trans hcur
    rcases Nat.lt_or_eq_of_le hT' with hlt | heq
    · -- overwritten only by a leader that started without it
      by_cases hb : (s.full T').take m' <+: s.base T
      · exact .inl (hkeep _ hp (hb.trans (h.base_full T)))
      · exact .inr ⟨T, hlt, Nat.le_refl _, hlead, hb⟩
    · subst heq; exact .inl (hkeep _ hp (List.take_prefix ..))
  · -- just acknowledged
    rw [St.accept_log_self]
    exact .inl ((List.take_prefix_take_left hnew).trans hpre)

theorem inv_accept (h : Inv tm quorum s) (hcur : s.cur n ≤ T)
    (hlead : s.leader T ≠ none) (hother : s.leader T ≠ some n)
    (hm : m ≤ (s.full T).length) (hpre : (s.full T).take m <+: l)
    (hkeep : ∀ x, x <+: s.log n → x <+: s.full T → x <+: l)
    (hfrom : l <+: s.log n ∨ l <+: s.full T) (hne : s.log n ≠ [] → l ≠ []) :
    Inv tm quorum (s.accept n T m l) where
  rooted v := by
    by_cases hv : v = n
    · subst hv
      rw [St.accept_log_self]
      rcases hfrom with hf | hf
      · exact (h.rooted v).shrink hf
      · exact (h.rooted_full T).shrink hf
    · rw [St.accept_log_of_ne hv]; exact h.rooted v
  rooted_full := h.rooted_full
  sorted := h.sorted
  log_le v x hx := by
    by_cases hv : v = n
    · subst hv
      rw [St.accept_log_self] at hx
      rw [St.accept_cur_self]
      rcases hfrom with hf | hf
      · exact (h.log_le v x (hf.subset hx)).trans hcur
      · exact h.full_le T x (hf.subset hx)
    · rw [St.accept_log_of_ne hv] at hx
      rw [St.accept_cur_of_ne hv]
      exact h.log_le v x hx
  full_le := h.full_le
  base_full := h.base_full
  full_nil := h.full_nil
  leader_cur T' v hl := (h.leader_cur T' v hl).trans (cur_le_raise hcur v)
  leader_log T' v hl hT' := by
    by_cases hv : v = n
    · subst hv
      rw [St.accept_cur_self] at hT'
      exact absurd (hT' ▸ hl) hother
    · rw [St.accept_cur_of_ne hv] at hT'
      rw [St.accept_log_of_ne hv]
      exact h.leader_log T' v hl hT'
  leader_ack T' v hl := by
    rw [St.accept_ack_of_ne fun hv => hother (by rw [← hv.1, ← hv.2]; exact hl)]
    exact h.leader_ack T' v hl
  ack_len v T' := by
    by_cases hv : v = n ∧ T' = T
    · obtain ⟨rfl, rfl⟩ := hv
      rw [St.accept_ack_self]
      exact Nat.max_le.mpr ⟨h.ack_len v T', hm⟩
    · rw [St.accept_ack_of_ne hv]; exact h.ack_len v T'
  ack_cur v T' hpos := by
    by_cases hv : v = n ∧ T' = T
    · obtain ⟨rfl, rfl⟩ := hv; exact Nat.le_of_eq St.accept_cur_self.symm
    · rw [St.accept_ack_of_ne hv] at hpos
      exact (h.ack_cur v T' hpos).trans (cur_le_raise hcur v)
  ack_log v T' hpos := by
    by_cases hv : v = n
    · subst hv
      rw [St.accept_log_self]
      exact accept_log_ne_nil h hm hpre hne hpos
    · rw [St.accept_ack_of_ne fun hn => hv hn.1] at hpos
      rw [St.accept_log_of_ne hv]
      exact h.ack_log v T' hpos
  kept v T' m' hm' := by
    by_cases hv : v = n
    · subst hv; exact accept_kept h hcur hlead hpre hkeep hm'
    · rw [St.accept_ack_of_ne fun hn => hv hn.1] at hm'
      refine (grow_accept hcur).kept h hm' (cur_le_raise hcur v) fun hp => .inl ?_
      rw [St.accept_log_of_ne hv]
      exact hp
  ballot_cur v T' lt len hb :=
    (h.ballot_cur v T' lt len hb).trans (cur_le_raise hcur v)
  ballot_log v T' lt len hb T₀ m hT hm ho :=
    (grow_accept hcur).ballot_log h hb hT hm ho
  elected T' hl := (grow_accept hcur).elected h hl

end Accept

/-! ## Every step -/

theorem Step.grow (hs : Step tm quorum s s') (h : Inv tm quorum s) :
    Grow s s' := by
  cases hs with
  | raise hcur => exact grow_raise hcur
  | vote hcur _ =>
      have g := grow_raise hcur
      exact ⟨g.full, g.leader, g.base, g.ack, g.ack_new,
        fun _ _ _ _ hb => .inl hb, g.ballot_cur⟩
  | elect hcur hnone _ _ => exact grow_elect h hcur hnone
  | append hcur _ _ => exact grow_append hcur
  | accept hcur _ _ _ _ _ _ _ => exact grow_accept hcur
  | reset _ _ hballot => exact grow_reset hballot

theorem Step.inv (hs : Step tm quorum s s') (h : Inv tm quorum s) :
    Inv tm quorum s' := by
  cases hs with
  | raise hcur => exact inv_raise h hcur
  | vote hcur hlog => exact inv_vote h hcur hlog
  | elect hcur hnone hQ hvotes => exact inv_elect h hcur hnone hQ hvotes
  | append hcur hlead he => exact inv_append h hcur hlead he
  | accept hcur hlead hother hm hpre hkeep hfrom hne =>
      exact inv_accept h hcur hlead hother hm hpre hkeep hfrom hne
  | reset hlog hlead hballot => exact inv_reset h hlog hlead hballot

end LeaderLog
