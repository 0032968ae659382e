import Mathlib.Data.List.Induction
import Mathlib.Logic.Function.Basic

/-!
# Logs of writes

A map is a function into `Option`. A write gives one key a value or takes
its value away, and a log of writes is executed from left to right. What a
key holds afterwards depends on the last write to it alone, so executing
a log over a map that differs only at keys the log writes makes no
difference (`run_congr`), and a log absorbs any earlier execution of
writes to its own keys (`run_absorb`).

Where the writes carry stamps, a log whose stamps do not go down at a key
leaves it with the write of the greatest stamp (`run_newest`). So does an
increasing log that is executed over the outcome of other writes, as long
as those of them that are not in the log are older than all of it
(`Layered.newest`).
-/

namespace LastWrite

variable {K V : Type*}

/-- Set a key, or take it away. -/
structure Write (K V : Type*) where
  key : K
  value : Option V

/-- Some write of the log is to this key. -/
def Touches (ws : List (Write K V)) (k : K) : Prop :=
  ∃ w ∈ ws, w.key = k

variable {ws ps : List (Write K V)} {m m' : K → Option V} {k : K}

theorem touches_append :
    Touches (ws ++ ps) k ↔ Touches ws k ∨ Touches ps k := by
  simp only [Touches, List.mem_append, or_and_right, exists_or]

theorem Touches.mono (h : Touches ps k) (hsub : ps ⊆ ws) : Touches ws k := by
  obtain ⟨w, hw, hk⟩ := h
  exact ⟨w, hsub hw, hk⟩

variable [DecidableEq K]

def Write.exec (w : Write K V) (m : K → Option V) : K → Option V :=
  Function.update m w.key w.value

/-- Execute a log. -/
def run (ws : List (Write K V)) (m : K → Option V) : K → Option V :=
  ws.foldl (fun m w => w.exec m) m

theorem run_append : run (ws ++ ps) m = run ps (run ws m) :=
  List.foldl_append ..

theorem run_untouched (h : ¬ Touches ws k) : run ws m k = m k := by
  induction ws generalizing m with
  | nil => rfl
  | cons w ws ih =>
      have hw : k ≠ w.key := fun heq => h ⟨w, List.mem_cons_self, heq.symm⟩
      have hws : ¬ Touches ws k := fun ht =>
        h (ht.mono (List.subset_cons_self ..))
      show run ws (w.exec m) k = m k
      rw [ih hws, Write.exec, Function.update_of_ne hw]

/-- A key the log writes forgets what it held before. -/
theorem run_touched (h : Touches ws k) : run ws m k = run ws m' k := by
  induction ws generalizing m m' with
  | nil =>
      obtain ⟨w, hw, -⟩ := h
      cases hw
  | cons w ws ih =>
      show run ws (w.exec m) k = run ws (w.exec m') k
      by_cases hws : Touches ws k
      · exact ih hws
      · obtain ⟨w', hw', rfl⟩ := h
        rcases List.mem_cons.mp hw' with rfl | hw'
        · rw [run_untouched hws, run_untouched hws, Write.exec, Write.exec,
            Function.update_self, Function.update_self]
        · exact absurd ⟨w', hw', rfl⟩ hws

/-- The starting map matters only where the log does not write. -/
theorem run_congr (h : ∀ k, ¬ Touches ws k → m k = m' k) :
    run ws m = run ws m' := by
  funext k
  by_cases hk : Touches ws k
  · exact run_touched hk
  · rw [run_untouched hk, run_untouched hk, h k hk]

/-- A key the log writes holds what some write to it gives it. -/
theorem run_value (h : Touches ws k) : ∃ w ∈ ws, w.key = k ∧ run ws m k = w.value := by
  induction ws generalizing m with
  | nil =>
      obtain ⟨w, hw, -⟩ := h
      cases hw
  | cons w ws ih =>
      show ∃ w' ∈ w :: ws, w'.key = k ∧ run ws (w.exec m) k = w'.value
      by_cases hws : Touches ws k
      · obtain ⟨w', hw', hkey, hval⟩ := ih hws
        exact ⟨w', List.mem_cons_of_mem _ hw', hkey, hval⟩
      · obtain ⟨w', hw', rfl⟩ := h
        rcases List.mem_cons.mp hw' with rfl | hw'
        · refine ⟨w', List.mem_cons_self, rfl, ?_⟩
          rw [run_untouched hws, Write.exec, Function.update_self]
        · exact absurd ⟨w', hw', rfl⟩ hws

/-- A key all of whose writes give it one value has that value. -/
theorem run_agreed {x : Option V} (h : Touches ws k)
    (hall : ∀ w ∈ ws, w.key = k → w.value = x) : run ws m k = x := by
  obtain ⟨w, hw, hkey, hval⟩ := run_value h
  exact hval.trans (hall w hw hkey)

theorem run_absorb (h : ∀ k, Touches ps k → Touches ws k) :
    run ws (run ps m) = run ws m := by
  refine run_congr ?_
  intro k hk
  exact run_untouched (fun hps => hk (h k hps))

/-! ## Stamps -/

/-- `x` is what the write to `k` of the greatest stamp gives it, or nothing
if there is no write to it. -/
def Newest (ws : List (Nat × Write K V)) (k : K) (x : Option V) : Prop :=
  (∃ w ∈ ws, w.2.key = k ∧ w.2.value = x ∧ ∀ v ∈ ws, v.2.key = k → v.1 ≤ w.1)
    ∨ (∀ v ∈ ws, v.2.key ≠ k) ∧ x = none

theorem run_newest {ws : List (Nat × Write K V)} {k : K}
    (h : ws.Pairwise fun a b => a.2.key = k → b.2.key = k → a.1 ≤ b.1) :
    Newest ws k (run (ws.map Prod.snd) (fun _ => none) k) := by
  induction ws using List.reverseRecOn with
  | nil => exact .inr ⟨by simp, rfl⟩
  | append_singleton ws w ih =>
      obtain ⟨hws, -, hlast⟩ := List.pairwise_append.mp h
      rw [List.map_append, run_append]
      show Newest _ k (w.2.exec (run (ws.map Prod.snd) fun _ => none) k)
      by_cases hk : w.2.key = k
      · refine .inl ⟨w, List.mem_append_right _ (List.mem_singleton_self w), hk, ?_, ?_⟩
        · rw [Write.exec, hk, Function.update_self]
        · intro v hv hvk
          rcases List.mem_append.mp hv with hv | hv
          · exact hlast v hv w (List.mem_singleton_self w) hvk hk
          · exact Nat.le_of_eq (congrArg Prod.fst (List.mem_singleton.mp hv))
      · rw [Write.exec, Function.update_of_ne (Ne.symm hk)]
        rcases ih hws with ⟨u, hu, huk, hval, hmax⟩ | ⟨hnone, hval⟩
        · refine .inl ⟨u, List.mem_append_left _ hu, huk, hval, ?_⟩
          intro v hv hvk
          rcases List.mem_append.mp hv with hv | hv
          · exact hmax v hv hvk
          · rw [List.mem_singleton.mp hv] at hvk
            exact absurd hvk hk
        · refine .inr ⟨?_, hval⟩
          intro v hv
          rcases List.mem_append.mp hv with hv | hv
          · exact hnone v hv
          · rwa [List.mem_singleton.mp hv]

/-! ## Layers -/

/-- Of the stamped items in `ws`, those that are not in the log are older
than all of it and in order. -/
structure Layered {α : Type*} (log ws : List (Nat × α)) : Prop where
  older : ∀ w ∈ ws, w ∈ log ∨ ∀ v ∈ log, w.1 < v.1
  sorted : ws.Pairwise fun a b => a ∉ log → b ∉ log → a.1 ≤ b.1

namespace Layered

section

variable {α β : Type*} {log ws : List (Nat × α)}

theorem nil (log : List (Nat × α)) : Layered log [] := ⟨by simp, .nil⟩

theorem self (log : List (Nat × α)) : Layered log log where
  older _ hw := .inl hw
  sorted := List.pairwise_of_forall_mem_list fun _ ha _ _ hna => absurd ha hna

/-- The whole log on top. -/
theorem append_log (h : Layered log ws) : Layered log (ws ++ log) where
  older w hw := (List.mem_append.mp hw).elim (h.older w) .inl
  sorted := List.pairwise_append.mpr ⟨h.sorted, (self log).sorted,
    fun _ _ _ hb _ hnb => absurd hb hnb⟩

/-- The log grows by an item that is newer than all of them. -/
theorem grow (h : Layered log ws) {x : Nat × α} (hfresh : ∀ w ∈ ws, w.1 < x.1) :
    Layered (log ++ [x]) ws where
  older w hw := by
    rcases h.older w hw with hin | hold
    · exact .inl (List.mem_append_left _ hin)
    · refine .inr fun v hv => ?_
      rcases List.mem_append.mp hv with hv | hv
      · exact hold v hv
      · rw [List.mem_singleton.mp hv]
        exact hfresh w hw
  sorted := h.sorted.imp fun hab hna hnb =>
    hab (fun ha => hna (List.mem_append_left _ ha))
      (fun hb => hnb (List.mem_append_left _ hb))

/-- One more item, from the log. -/
theorem push (h : Layered log ws) {x : Nat × α} (hx : x ∈ log) :
    Layered log (ws ++ [x]) where
  older w hw := by
    rcases List.mem_append.mp hw with hw | hw
    · exact h.older w hw
    · exact .inl (List.mem_singleton.mp hw ▸ hx)
  sorted := by
    refine List.pairwise_append.mpr ⟨h.sorted, List.pairwise_singleton _ _, ?_⟩
    intro a _ b hb _ hnb
    exact absurd (List.mem_singleton.mp hb ▸ hx) hnb

/-- One more item, with no log. -/
theorem push_nil (h : Layered [] ws) {x : Nat × α} (hx : ∀ w ∈ ws, w.1 ≤ x.1) :
    Layered [] (ws ++ [x]) where
  older w _ := .inr fun v hv => by cases hv
  sorted := by
    refine List.pairwise_append.mpr ⟨h.sorted, List.pairwise_singleton _ _, ?_⟩
    intro a ha b hb _ _
    rw [List.mem_singleton.mp hb]
    exact hx a ha

theorem map (h : Layered log ws) (f : α → β) :
    Layered (log.map fun w => (w.1, f w.2)) (ws.map fun w => (w.1, f w.2)) where
  older w hw := by
    obtain ⟨u, hu, rfl⟩ := List.mem_map.mp hw
    rcases h.older u hu with hin | hold
    · exact .inl (List.mem_map.mpr ⟨u, hin, rfl⟩)
    · refine .inr fun v hv => ?_
      obtain ⟨x, hx, rfl⟩ := List.mem_map.mp hv
      exact hold x hx
  sorted := List.pairwise_map.mpr (h.sorted.imp fun hab hna hnb =>
    hab (fun ha => hna (List.mem_map.mpr ⟨_, ha, rfl⟩))
      (fun hb => hnb (List.mem_map.mpr ⟨_, hb, rfl⟩)))

end

/-- An increasing log over older layers gives each key its newest write. -/
theorem newest {log ws : List (Nat × Write K V)} (h : Layered log ws)
    (hlog : log.Pairwise fun a b => a.1 < b.1) (k : K) :
    Newest (ws ++ log) k (run ((ws ++ log).map Prod.snd) (fun _ => none) k) := by
  rw [List.map_append, run_append]
  by_cases htouched : Touches (log.map Prod.snd) k
  · -- the newest of the log is newer than all of the layers
    have hnewest : Newest log k (run (log.map Prod.snd) (fun _ => none) k) :=
      run_newest (hlog.imp fun hab _ _ => Nat.le_of_lt hab)
    rw [run_touched htouched]
    rcases hnewest with ⟨w, hw, hk, hval, hmax⟩ | ⟨hnone, -⟩
    · refine .inl ⟨w, List.mem_append_right _ hw, hk, hval, ?_⟩
      intro v hv hvk
      rcases List.mem_append.mp hv with hv | hv
      · rcases h.older v hv with hv | hold
        · exact hmax v hv hvk
        · exact Nat.le_of_lt (hold w hw)
      · exact hmax v hv hvk
    · obtain ⟨w, hw, hk⟩ := htouched
      obtain ⟨x, hx, rfl⟩ := List.mem_map.mp hw
      exact absurd hk (hnone x hx)
  · -- the log says nothing about the key
    have hnot : ∀ x ∈ log, x.2.key ≠ k := fun x hx hk =>
      htouched ⟨x.2, List.mem_map_of_mem hx, hk⟩
    have hnewest : Newest ws k (run (ws.map Prod.snd) (fun _ => none) k) :=
      run_newest (h.sorted.imp fun hab ha hb =>
        hab (fun hin => hnot _ hin ha) (fun hin => hnot _ hin hb))
    rw [run_untouched htouched]
    rcases hnewest with ⟨w, hw, hk, hval, hmax⟩ | ⟨hnone, hval⟩
    · refine .inl ⟨w, List.mem_append_left _ hw, hk, hval, ?_⟩
      intro v hv hvk
      rcases List.mem_append.mp hv with hv | hv
      · exact hmax v hv hvk
      · exact absurd hvk (hnot v hv)
    · refine .inr ⟨?_, hval⟩
      intro v hv
      rcases List.mem_append.mp hv with hv | hv
      · exact hnone v hv
      · exact hnot v hv

end Layered

end LastWrite
