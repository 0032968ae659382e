import Mathlib.Data.List.Forall2
import Mathlib.Logic.Basic

/-!
# Runs of a guarded step function

A system here is a partial step function `f : σ → α → Option σ` and a
start state. A condition `ok` on a state and the action about to be
taken there singles out the runs a property is claimed for; `True` gives
all runs.

`Run` keeps the list of the states passed, newest first, so that a
property may speak about the past of a run; `Reachable` forgets it. The
rule used everywhere is `Reachable.invariant`; `exec` makes concrete runs.
`Steps` keeps the actions instead, oldest first, for properties about the
order in which things happen (`Steps.passes`).

A run is matched by one of a more abstract system if each of its states has
an abstract one and each of its steps an abstract step between the two
(`Run.simulated`).
-/

namespace Runs

variable {σ α : Type*}

/-- `past` are the states before `s`, newest first, on a run from `s₀`
all of whose steps meet `ok`. -/
inductive Run (f : σ → α → Option σ) (ok : σ → α → Prop) (s₀ : σ) :
    List σ → σ → Prop where
  | init : Run f ok s₀ [] s₀
  | step {past : List σ} {s s' : σ} {a : α} (run : Run f ok s₀ past s)
      (hok : ok s a) (hstep : f s a = some s') :
      Run f ok s₀ (s :: past) s'

def Reachable (f : σ → α → Option σ) (ok : σ → α → Prop) (s₀ s : σ) :
    Prop :=
  ∃ past, Run f ok s₀ past s

section

variable {f : σ → α → Option σ} {ok ok' : σ → α → Prop} {s₀ : σ}

theorem Run.mono (h : ∀ s a, ok s a → ok' s a) {past : List σ} {s : σ}
    (hr : Run f ok s₀ past s) : Run f ok' s₀ past s := by
  induction hr with
  | init => exact .init
  | step _ hok hstep ih => exact .step ih (h _ _ hok) hstep

theorem Reachable.mono (h : ∀ s a, ok s a → ok' s a) {s : σ} :
    Reachable f ok s₀ s → Reachable f ok' s₀ s :=
  fun ⟨past, hr⟩ => ⟨past, hr.mono h⟩

theorem Run.reachable {past : List σ} {s : σ} (hr : Run f ok s₀ past s) :
    Reachable f ok s₀ s := ⟨past, hr⟩

theorem Run.reachable_of_mem {past : List σ} {s t : σ}
    (hr : Run f ok s₀ past s) (ht : t ∈ s :: past) : Reachable f ok s₀ t := by
  induction hr with
  | init =>
      cases List.mem_singleton.mp ht
      exact ⟨[], .init⟩
  | step run hok hstep ih =>
      rcases List.mem_cons.mp ht with rfl | ht
      · exact (run.step hok hstep).reachable
      · exact ih ht

/-- An invariant that also looks at the past of the run. -/
theorem Run.invariant {P : List σ → σ → Prop} (h0 : P [] s₀)
    (hs : ∀ past s a s', Run f ok s₀ past s → P past s → ok s a →
      f s a = some s' → P (s :: past) s')
    {past : List σ} {s : σ} (hr : Run f ok s₀ past s) : P past s := by
  induction hr with
  | init => exact h0
  | step run hok hstep ih => exact hs _ _ _ _ run ih hok hstep

/-- The invariant rule; the step may use that the state is reachable, so
invariants stack. -/
theorem Reachable.invariant {P : σ → Prop} (h0 : P s₀)
    (hs : ∀ s a s', Reachable f ok s₀ s → P s → ok s a →
      f s a = some s' → P s')
    {s : σ} (h : Reachable f ok s₀ s) : P s :=
  h.elim fun _ hr => Run.invariant (P := fun _ s => P s) h0
    (fun _ _ _ _ run ih hok hstep => hs _ _ _ run.reachable ih hok hstep) hr

/-- A run goes on from where another one ended. -/
theorem Reachable.trans {s t : σ} (h : Reachable f ok s₀ s)
    (h' : Reachable f ok s t) : Reachable f ok s₀ t := by
  refine h'.invariant (P := fun t => Reachable f ok s₀ t) h ?_
  rintro s a s' - ⟨past, hr⟩ hok hstep
  exact ⟨_, hr.step hok hstep⟩

/-- Every state passed is related to the present one by any preorder that
the steps respect. -/
theorem Run.past_related {R : σ → σ → Prop} (hrefl : ∀ s, R s s)
    (htrans : ∀ {r s t}, R r s → R s t → R r t)
    (hs : ∀ s a s', Reachable f ok s₀ s → ok s a → f s a = some s' → R s s')
    {past : List σ} {s t : σ} (hr : Run f ok s₀ past s) (ht : t ∈ s :: past) :
    R t s := by
  induction hr with
  | init =>
      cases List.mem_singleton.mp ht
      exact hrefl _
  | step run hok hstep ih =>
      rcases List.mem_cons.mp ht with rfl | ht
      · exact hrefl _
      · exact htrans (ih ht) (hs _ _ _ run.reachable hok hstep)

end

/-! ## Simulation -/

/-- The states `past` and then `t`, newest first, each after the first by a
step of `T` from the one before. -/
inductive Path {τ : Type*} (T : τ → τ → Prop) (t₀ : τ) : List τ → τ → Prop where
  | init : Path T t₀ [] t₀
  | step {past : List τ} {t t' : τ} (path : Path T t₀ past t) (hstep : T t t') :
      Path T t₀ (t :: past) t'

/-- A run is matched, state by state and step by step, if each step is. -/
theorem Run.simulated {f : σ → α → Option σ} {ok : σ → α → Prop} {s₀ : σ} {τ : Type*}
    {R : σ → τ → Prop} {T : τ → τ → Prop} {t₀ : τ} (h0 : R s₀ t₀)
    (hs : ∀ s a s' t, Reachable f ok s₀ s → R s t → ok s a → f s a = some s' →
      ∃ t', T t t' ∧ R s' t')
    {past : List σ} {s : σ} (hr : Run f ok s₀ past s) :
    ∃ ts t, Path T t₀ ts t ∧ List.Forall₂ R (s :: past) (t :: ts) := by
  induction hr with
  | init => exact ⟨[], t₀, .init, .cons h0 .nil⟩
  | step run hok hstep ih =>
      obtain ⟨ts, t, hpath, hall⟩ := ih
      cases hall with
      | cons hst hpast =>
          obtain ⟨t', hT, hst'⟩ := hs _ _ _ _ run.reachable hst hok hstep
          exact ⟨t :: ts, t', hpath.step hT, .cons hst' (.cons hst hpast)⟩

/-! ## Runs by their actions -/

/-- The actions `as` lead from `s` to `t`, each of them meeting `ok`. -/
def Steps (f : σ → α → Option σ) (ok : σ → α → Prop) : σ → List α → σ → Prop
  | s, [], t => s = t
  | s, a :: as, t => ok s a ∧ ∃ s', f s a = some s' ∧ Steps f ok s' as t

section

variable {f : σ → α → Option σ} {ok : σ → α → Prop}

theorem steps_append {s t : σ} {as bs : List α} :
    Steps f ok s (as ++ bs) t ↔ ∃ u, Steps f ok s as u ∧ Steps f ok u bs t := by
  induction as generalizing s with
  | nil => exact ⟨fun h => ⟨s, rfl, h⟩, fun ⟨_, hu, h⟩ => hu ▸ h⟩
  | cons a as ih =>
      constructor
      · rintro ⟨hok, s', hstep, hrest⟩
        obtain ⟨u, hu, hbs⟩ := ih.mp hrest
        exact ⟨u, ⟨hok, s', hstep, hu⟩, hbs⟩
      · rintro ⟨u, ⟨hok, s', hstep, hu⟩, hbs⟩
        exact ⟨hok, s', hstep, ih.mpr ⟨u, hu, hbs⟩⟩

/-- A property that rules out `b` and that only the actions in `T` end: no
`b` before one of them. -/
theorem Steps.passes {P : σ → Prop} {T : α → Prop} {b : α}
    (hkeep : ∀ s a s', P s → ¬ T a → ok s a → f s a = some s' → P s')
    (hblock : ∀ s, P s → f s b = none) {s t : σ} {as : List α} (hP : P s)
    (h : Steps f ok s (as ++ [b]) t) : ∃ a ∈ as, T a := by
  induction as generalizing s with
  | nil =>
      obtain ⟨-, s', hstep, -⟩ := h
      rw [hblock s hP] at hstep
      cases hstep
  | cons a as ih =>
      obtain ⟨hok, s', hstep, hrest⟩ := h
      by_cases hT : T a
      · exact ⟨a, List.mem_cons_self, hT⟩
      · obtain ⟨x, hx, hTx⟩ := ih (hkeep s a s' hP hT hok hstep) hrest
        exact ⟨x, List.mem_cons_of_mem _ hx, hTx⟩

end

/-! ## Executing a list of actions -/

/-- Take the actions one by one, checking the condition at each, and keep
the states passed. -/
def exec (f : σ → α → Option σ) (ok : σ → α → Prop)
    [∀ s a, Decidable (ok s a)] : List σ → σ → List α → Option (List σ × σ)
  | past, s, [] => some (past, s)
  | past, s, a :: as =>
      if ok s a then
        match f s a with
        | some s' => exec f ok (s :: past) s' as
        | none => none
      else none

section

variable {f : σ → α → Option σ} {ok : σ → α → Prop}
  [∀ s a, Decidable (ok s a)] {s₀ : σ}

theorem Run.of_exec {past past' : List σ} {s t : σ} {as : List α}
    (h : Run f ok s₀ past s) (he : exec f ok past s as = some (past', t)) :
    Run f ok s₀ past' t := by
  induction as generalizing past s with
  | nil =>
      cases he
      exact h
  | cons a as ih =>
      rw [exec] at he
      split at he
      · rename_i hok
        split at he
        · exact ih (h.step hok ‹_›) he
        · cases he
      · cases he

theorem Steps.of_exec {past past' : List σ} {s t : σ} {as : List α}
    (he : exec f ok past s as = some (past', t)) : Steps f ok s as t := by
  induction as generalizing past s with
  | nil =>
      cases he
      rfl
  | cons a as ih =>
      rw [exec] at he
      split at he
      · rename_i hok
        split at he
        · exact ⟨hok, _, ‹_›, ih he⟩
        · cases he
      · cases he

/-- A decidable property of the run that a list of actions makes. -/
theorem Run.of_exec_any (as : List α) {P : List σ → σ → Prop}
    [∀ past s, Decidable (P past s)]
    (h : (exec f ok [] s₀ as).any (fun r => decide (P r.1 r.2)) = true) :
    ∃ past s, Run f ok s₀ past s ∧ P past s := by
  cases he : exec f ok [] s₀ as with
  | none => rw [he] at h; cases h
  | some r =>
      rw [he] at h
      exact ⟨r.1, r.2, .of_exec .init he, of_decide_eq_true h⟩

theorem Steps.of_exec_any (as : List α) {P : σ → Prop} [DecidablePred P]
    (h : (exec f ok [] s₀ as).any (fun r => decide (P r.2)) = true) :
    ∃ s, Steps f ok s₀ as s ∧ P s := by
  cases he : exec f ok [] s₀ as with
  | none => rw [he] at h; cases h
  | some r =>
      rw [he] at h
      exact ⟨r.2, .of_exec he, of_decide_eq_true h⟩

theorem Reachable.of_exec_any (as : List α) {P : σ → Prop} [DecidablePred P]
    (h : (exec f ok [] s₀ as).any (fun r => decide (P r.2)) = true) :
    ∃ s, Reachable f ok s₀ s ∧ P s := by
  obtain ⟨past, s, hr, hP⟩ := Run.of_exec_any as (P := fun _ s => P s) h
  exact ⟨s, hr.reachable, hP⟩

end

end Runs
