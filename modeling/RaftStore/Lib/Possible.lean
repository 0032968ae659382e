import RaftStore.Lib.Runs

/-!
# What a system can still do

`Can f ok P s` says that some run from `s` leads to a state with `P`. It is
shown by giving the run, step by step (`Can.step`) and part by part
(`Can.bind`). A part that repeats itself is given once, by a measure that
goes down (`Can.descend`) or by the list of what has to be done, if nothing
that is done is undone (`Can.all`). A list inside the state, whose places can
be finished one by one, is finished (`Can.slots`).
-/

namespace Runs

variable {σ α : Type*} {f : σ → α → Option σ} {ok : σ → α → Prop} {s t : σ} {P Q : σ → Prop}

def Can (f : σ → α → Option σ) (ok : σ → α → Prop) (P : σ → Prop) (s : σ) : Prop :=
  ∃ t, Reachable f ok s t ∧ P t

theorem Can.now (h : P s) : Can f ok P s := ⟨s, ⟨[], .init⟩, h⟩

theorem Can.after (hr : Reachable f ok s t) (h : Can f ok P t) : Can f ok P s :=
  h.imp fun _ ⟨hr', hP⟩ => ⟨hr.trans hr', hP⟩

theorem Can.step {a : α} (hok : ok s a) (hstep : f s a = some t) (h : Can f ok P t) :
    Can f ok P s :=
  h.after ⟨_, .step .init hok hstep⟩

theorem Can.bind (h : Can f ok P s)
    (hnext : ∀ t, Reachable f ok s t → P t → Can f ok Q t) : Can f ok Q s := by
  obtain ⟨t, hr, hP⟩ := h
  exact (hnext t hr hP).after hr

theorem Can.imp (h : Can f ok P s) (himp : ∀ t, Reachable f ok s t → P t → Q t) :
    Can f ok Q s :=
  h.bind fun t hr hP => .now (himp t hr hP)

/-- What can be brought nearer again and again is reached. -/
theorem Can.descend (μ : σ → Nat)
    (h : ∀ s, P s → Can f ok (fun t => Q t ∨ P t ∧ μ t < μ s) s) (hs : P s) :
    Can f ok Q s := by
  induction hn : μ s using Nat.strongRecOn generalizing s with
  | ind n ih =>
      refine (h s hs).bind ?_
      rintro t - (hQ | ⟨hP, hlt⟩)
      · exact .now hQ
      · exact ih (μ t) (hn ▸ hlt) hP rfl

/-- One thing after the other. -/
theorem Can.all {β : Type*} {D : β → σ → Prop} {l : List β}
    (h : ∀ x ∈ l, ∀ s, P s →
      Can f ok (fun t => P t ∧ D x t ∧ ∀ y ∈ l, D y s → D y t) s) (hs : P s) :
    Can f ok (fun t => P t ∧ ∀ x ∈ l, D x t) s := by
  have hpart : ∀ l', l' ⊆ l → Can f ok (fun t => P t ∧ ∀ x ∈ l', D x t) s := by
    intro l'
    induction l' with
    | nil => exact fun _ => .now ⟨hs, nofun⟩
    | cons x l' ih =>
        intro hsub
        obtain ⟨hx, hl'⟩ := List.cons_subset.mp hsub
        refine (ih hl').bind ?_
        rintro t - ⟨hP, hall⟩
        refine (h x hx t hP).imp ?_
        rintro u - ⟨hP', hD, hkept⟩
        exact ⟨hP', List.forall_mem_cons.mpr ⟨hD, fun y hy => hkept y (hl' hy) (hall y hy)⟩⟩
  exact hpart l (List.Subset.refl l)

theorem Can.slots {β : Type*} {l : σ → List β} {Good : β → Prop}
    (h : ∀ s, P s → ∀ k, k < (l s).length →
      Can f ok (fun t => P t ∧ ∃ x, Good x ∧ l t = (l s).set k x) s) (hs : P s) :
    Can f ok (fun t => P t ∧ ∀ x ∈ l t, Good x) s := by
  have hall : Can f ok (fun t => (P t ∧ (l t).length = (l s).length)
      ∧ ∀ k ∈ List.range (l s).length, ∃ x, (l t)[k]? = some x ∧ Good x) s := by
    refine Can.all ?_ ⟨hs, rfl⟩
    rintro k hk t ⟨hP, hlen⟩
    have hk' : k < (l t).length := hlen ▸ List.mem_range.mp hk
    refine (h t hP k hk').imp ?_
    rintro u - ⟨hP', x, hx, hset⟩
    have hself : (l u)[k]? = some x := by rw [hset, List.getElem?_set_self hk']
    refine ⟨⟨hP', by rw [hset, List.length_set, hlen]⟩, ⟨x, hself, hx⟩, ?_⟩
    rintro j - ⟨y, hy, hgood⟩
    by_cases hkj : k = j
    · exact hkj ▸ ⟨x, hself, hx⟩
    · exact ⟨y, by rw [hset, List.getElem?_set_ne hkj, hy], hgood⟩
  refine hall.imp ?_
  rintro t - ⟨⟨hP, hlen⟩, hdone⟩
  refine ⟨hP, fun x hx => ?_⟩
  obtain ⟨k, hlt, rfl⟩ := List.getElem_of_mem hx
  obtain ⟨y, hy, hgood⟩ := hdone k (List.mem_range.mpr (hlen ▸ hlt))
  rw [List.getElem?_eq_getElem hlt] at hy
  exact Option.some.inj hy ▸ hgood

end Runs
