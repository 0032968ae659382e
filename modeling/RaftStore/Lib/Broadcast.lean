import Mathlib.Logic.Function.Basic

/-!
# Totally ordered broadcast

Parties deliver the entries of one list that only grows, each party from
the first entry on and without gaps: a state is the list so far and how
much of it each party has taken, which is never more than there is. In a
step the list may grow at its end, and at most one party delivers its next
entry.

A system whose parties each hold a part of the list, pairwise comparable,
has `longest` of the parts as the list.
-/

namespace Broadcast

variable {ι γ : Type*}

structure St (ι γ : Type*) where
  decided : List γ
  taken : ι → Nat
  within : ∀ n, taken n ≤ decided.length

namespace St

def init : St ι γ := ⟨[], fun _ => 0, fun _ => Nat.le_refl 0⟩

/-- What party `n` has delivered. -/
def delivered (s : St ι γ) (n : ι) : List γ := s.decided.take (s.taken n)

end St

/-- More may be decided, and at most one party delivers its next entry. -/
inductive Step [DecidableEq ι] (s s' : St ι γ) : Prop where
  | decide (hdecided : s.decided <+: s'.decided) (htaken : s'.taken = s.taken)
  | deliver (n : ι) (hdecided : s.decided <+: s'.decided)
      (htaken : s'.taken = Function.update s.taken n (s.taken n + 1))

/-! ## The list behind its parts -/

def longest : List (List γ) → List γ
  | [] => []
  | l :: ls => if (longest ls).length ≤ l.length then l else longest ls

theorem longest_cases (ls : List (List γ)) : longest ls = [] ∨ longest ls ∈ ls := by
  induction ls with
  | nil => exact .inl rfl
  | cons l ls ih =>
      rw [longest]
      split
      · exact .inr List.mem_cons_self
      · exact ih.imp id (List.mem_cons_of_mem l)

/-- Comparable parts are all parts of the longest. -/
theorem prefix_longest {ls : List (List γ)}
    (hcompare : ∀ l ∈ ls, ∀ l' ∈ ls, l <+: l' ∨ l' <+: l) {l : List γ}
    (hl : l ∈ ls) : l <+: longest ls := by
  induction ls with
  | nil => cases hl
  | cons x ls ih =>
      have hx : ∀ {l'}, longest ls <+: l' ∨ l' <+: longest ls →
          (longest ls).length ≤ l'.length → longest ls <+: l' := by
        intro l' hor hle
        rcases hor with hpre | hpre
        · exact hpre
        · exact hpre.eq_of_length_le hle ▸ List.prefix_rfl
      have hor : longest ls <+: x ∨ x <+: longest ls := by
        rcases longest_cases ls with hnil | hmem
        · rw [hnil]
          exact .inl List.nil_prefix
        · exact hcompare _ (List.mem_cons_of_mem _ hmem) _ List.mem_cons_self
      have ih' : l ∈ ls → l <+: longest ls := fun hmem =>
        ih (fun l hl l' hl' => hcompare l (List.mem_cons_of_mem _ hl) l'
          (List.mem_cons_of_mem _ hl')) hmem
      rw [longest]
      split
      · rename_i hle
        rcases List.mem_cons.mp hl with rfl | hmem
        · exact List.prefix_rfl
        · exact (ih' hmem).trans (hx hor hle)
      · rename_i hlt
        rcases List.mem_cons.mp hl with rfl | hmem
        · exact hor.resolve_left fun hpre => hlt hpre.length_le
        · exact ih' hmem

end Broadcast
