import RaftStore.Acknowledged

/-!
# Where entries come from

Entries travel from log to log, by heartbeats and by `replicateToPeer`, and
conflicting ones are cut off and sent again. None is made up on the way, and
none is made twice: whatever stands in a log or in a request was appended by
one call of `Replicate`, on the leader of its term (`entry_has_one_call`).

That there is a call is an invariant of the logs and the requests together
(`Sourced`). That there is only one follows from what `Acknowledged` and
`Commands` know of two calls with the same entry.
-/

namespace RaftStore

open Runs

/-! ## Entries of a log -/

theorem LogStore.mem_install {l : LogStore} {entry e : LogEntry}
    (h : e ∈ (l.install entry).entries) : e ∈ l.entries ∨ e = entry := by
  have happend : ∀ {l' : LogStore}, (∀ x ∈ l'.entries, x ∈ l.entries) →
      e ∈ (l'.appendEntry entry).entries → e ∈ l.entries ∨ e = entry := by
    intro l' hsub he
    rcases List.mem_append.mp he with he | he
    · exact .inl (hsub e he)
    · exact .inr (List.mem_singleton.mp he)
  unfold LogStore.install at h
  split at h
  · split at h
    · exact .inl h
    · exact happend (fun x hx => (List.takeWhile_sublist _).subset hx) h
  · exact happend (fun _ => id) h

theorem LogStore.mem_installAll {l : LogStore} {es : List LogEntry} {e : LogEntry}
    (h : e ∈ (l.installAll es).entries) : e ∈ l.entries ∨ e ∈ es := by
  induction es generalizing l with
  | nil => exact .inl h
  | cons x es ih =>
      rcases ih h with hl | hes
      · rcases LogStore.mem_install hl with hl | rfl
        · exact .inl hl
        · exact .inr List.mem_cons_self
      · exact .inr (List.mem_cons_of_mem _ hes)

theorem Node.AppendOutcome.mem_log {n : Node} {args : AppendEntriesArgs}
    {r : Node × AppendEntriesReply × Bool} (h : n.AppendOutcome args r) {e : LogEntry}
    (he : e ∈ r.1.log.entries) : e ∈ n.log.entries ∨ e ∈ args.entries := by
  cases h with
  | stale => exact .inl he
  | rejected hterm hn' =>
      subst hn'
      exact .inl ((n.observeLeader_spec hterm).2.1 ▸ he)
  | accepted hterm hn' =>
      subst hn'
      rw [← (n.observeLeader_spec hterm).2.1]
      exact LogStore.mem_installAll he

theorem Node.mem_heartbeatArgs {n : Node} {peer : String} {e : LogEntry}
    (h : e ∈ (n.heartbeatArgs peer).entries) : e ∈ n.log.entries := by
  unfold Node.heartbeatArgs at h
  split at h
  · exact (List.dropWhile_sublist _).subset h
  · cases h

/-! ## Calls -/

/-- The entry was appended by this call of `Replicate`. -/
def World.CalledBy (w : World) (call : String × Nat) (e : LogEntry) : Prop :=
  ∃ c, (w.proc call.1).replicates[call.2]? = some c ∧ c.entry = e

section Step

variable {C : Cluster} {w w' : World} {a : Action}

/-- A call stays, with its entry. -/
theorem World.CalledBy.step {call : String × Nat} {e : LogEntry} (h : w.CalledBy call e)
    (hok : noRestart w a) (hstep : C.step w a = some w') : w'.CalledBy call e := by
  obtain ⟨c, hc, rfl⟩ := h
  have hsame : (w'.proc call.1).replicates = (w.proc call.1).replicates →
      w'.CalledBy call c.entry := fun heq => ⟨c, heq ▸ hc, rfl⟩
  cases C.proc_step hstep call.1 with
  | own _ hmove =>
      have hset : ∀ {r : Nat} {x : ReplicateCall} {loc : ReplicateLoc},
          (w.proc call.1).replicates[r]? = some x →
          (w'.proc call.1).replicates
            = (w.proc call.1).replicates.set r { x with loc := loc } →
          w'.CalledBy call c.entry := by
        intro r x loc hx hcalls
        rcases getElem?_set_cases hx hc { x with loc := loc } with ⟨rfl, hc'⟩ | hc'
        · exact ⟨{ c with loc := loc }, by rw [hcalls]; exact hc', rfl⟩
        · exact ⟨c, by rw [hcalls]; exact hc', rfl⟩
      cases wait_move hmove with
      | committed hcall hcalls => exact hset hcall hcalls
      | returned hcall _ _ hcalls => exact hset hcall hcalls
      | kept hkept =>
          obtain ⟨c', hc', hentry, -⟩ := hkept _ c hc
          exact ⟨c', hc', hentry⟩
  | voted _ _ _ hproc => exact hsame (by rw [hproc])
  | appended _ _ _ hp hproc =>
      refine hsame ?_
      rw [hproc, hp]
      split <;> rfl
  | restarted => exact hok.elim
  | idle hproc => exact hsame (by rw [hproc])

/-- The call that appends an entry. -/
theorem calledBy_new {n : String} {command : Command}
    (hstep : C.step w (.local n (.replicate command)) = some w') :
    w'.CalledBy (n, (w.proc n).replicates.length) ((w.proc n).node.newEntry command) := by
  simp only [Cluster.step, Proc.step, Proc.replicate] at hstep
  split at hstep
  · split at hstep
    · cases hstep
      exact ⟨(w.proc n).openCall command, by simp [World.commit], rfl⟩
    · cases hstep
  · cases hstep

/-! ## Logs and requests -/

/-- Every entry but the sentinel has a call. -/
def World.Known (w : World) (e : LogEntry) : Prop :=
  e = sentinel ∨ ∃ call, w.CalledBy call e

structure Sourced (w : World) : Prop where
  logs : ∀ n, ∀ e ∈ (w.proc n).node.log.entries, w.Known e
  calls : ∀ c ∈ w.net.appendCalls, ∀ e ∈ c.args.entries, w.Known e

theorem sourced_init (C : Cluster) : Sourced C.init where
  logs _ _ he := .inl (List.mem_singleton.mp he)
  calls := nofun

theorem Sourced.logs_step (h : Sourced w) (hmove : Move C w a w') (hok : noRestart w a)
    (hstep : C.step w a = some w') (n : String) :
    ∀ e ∈ (w'.core n).log.entries, w'.Known e := by
  have hold : ∀ {e}, w.Known e → w'.Known e :=
    Or.imp_right fun ⟨call, hcall⟩ => ⟨call, hcall.step hok hstep⟩
  have hlog : ∀ e ∈ (w.core n).log.entries, w'.Known e := fun e he => hold (h.logs n e he)
  cases hmove.core_step n with
  | same hcore => rwa [hcore]
  | timeout _ hcore => rwa [hcore]
  | @stepDown term _ hcore =>
      rw [hcore]
      show ∀ e ∈ ((w.proc n).node.becomeFollower term).log.entries, _
      rwa [Node.becomeFollower_log]
  | campaign _ hcore => rwa [hcore]
  | elect _ _ _ hcore => rwa [hcore]
  | append _ hentry hcore =>
      rw [hcore]
      intro e he
      rcases List.mem_append.mp he with he | he
      · exact hlog e he
      · rw [List.mem_singleton.mp he, hentry]
        exact .inr ⟨_, calledBy_new hstep⟩
  | vote _ _ hout hcore =>
      rw [hcore]
      have hsame : (Node.core _).log = (w.core n).log := hout.log
      rwa [hsame]
  | deliver hcall _ hout hcore =>
      rw [hcore]
      intro e he
      rcases hout.mem_log he with he | he
      · exact hlog e he
      · exact hold (h.calls _ (List.mem_of_getElem? hcall) e he)
  | restart => exact hok.elim

theorem Sourced.calls_step (h : Sourced w) (hmove : Move C w a w') (hok : noRestart w a)
    (hstep : C.step w a = some w') :
    ∀ c ∈ w'.net.appendCalls, ∀ e ∈ c.args.entries, w'.Known e := by
  intro c hc e he
  refine Or.imp_right (fun ⟨call, hcall⟩ => ⟨call, hcall.step hok hstep⟩)
    (show w.Known e from ?_)
  cases hmove with
  | @heartbeat n peer _ _ _ _ _ _ _ hnet =>
      rw [hnet] at hc
      rcases List.mem_append.mp hc with hc | hc
      · exact h.calls c hc e he
      · cases List.mem_singleton.mp hc
        exact h.logs n e (Node.mem_heartbeatArgs he)
  | @replicateSend n peer _ _ _ _ _ _ _ _ _ _ hnet =>
      rw [hnet] at hc
      rcases List.mem_append.mp hc with hc | hc
      · exact h.calls c hc e he
      · cases List.mem_singleton.mp hc
        exact h.logs n e (LogStore.mem_of_slice he)
  | _ => exact h.calls c (by simpa only [*] using hc) e he

end Step

theorem sourced_of_reachable {C : Cluster} {w : World}
    (h : Reachable C.step noRestart C.init w) : Sourced w :=
  h.invariant (sourced_init C) fun _ _ _ hr hinv hok hstep =>
    have hmove := C.move (static_of_reachable (hr.mono fun _ _ h => h.blank)) hstep
    ⟨hinv.logs_step hmove hok hstep, hinv.calls_step hmove hok hstep⟩

/-! ## One call each -/

/-- Calls with the same entry are the same call. -/
theorem calledBy_unique {C : Cluster} {w : World}
    (h : Reachable C.step orderly C.init w) {call call' : String × Nat} {e : LogEntry}
    (hcall : w.CalledBy call e) (hcall' : w.CalledBy call' e) : call = call' := by
  obtain ⟨c, hc, rfl⟩ := hcall
  obtain ⟨c', hc', heq⟩ := hcall'
  obtain ⟨s, habs, hcalls⟩ := callInv_of_reachable h
  have hlead := (hcalls.calls _ c (List.mem_of_getElem? hc)).entry.leader
  rw [← heq, (hcalls.calls _ c' (List.mem_of_getElem? hc')).entry.leader] at hlead
  obtain ⟨n, r⟩ := call
  obtain ⟨m, r'⟩ := call'
  obtain rfl : m = n := Option.some.inj hlead
  rw [separate_of_reachable h m r r' c c' hc hc' heq.symm]

theorem calledBy_of_index {w : World} {e : LogEntry} (h : w.Known e) (hpos : 1 ≤ e.index) :
    ∃ call, w.CalledBy call e := by
  rcases h with rfl | hcall
  · cases hpos
  · exact hcall

theorem calledBy_of_log {C : Cluster} {w : World}
    (h : Reachable C.step asIntended C.init w) {n : String} {e : LogEntry}
    (he : e ∈ (w.proc n).node.log.body) : ∃ call, w.CalledBy call e := by
  have hlog := logInv_of_reachable (h.mono fun _ _ ha => ha.2.blank)
  obtain ⟨k, hk⟩ := List.mem_iff_getElem?.mp he
  have hindex : e.index = 1 + k := (hlog.logs n).positional.body_index k e hk
  have hsourced := sourced_of_reachable (h.mono fun _ _ ha => ha.2)
  exact calledBy_of_index (hsourced.logs n e (List.mem_of_mem_tail he)) (by omega)

theorem calledBy_of_request {C : Cluster} {w : World}
    (h : Reachable C.step asIntended C.init w) {c : AppendCall} {e : LogEntry}
    (hc : c ∈ w.net.appendCalls) (he : e ∈ c.args.entries) :
    ∃ call, w.CalledBy call e := by
  have hlog := logInv_of_reachable (h.mono fun _ _ ha => ha.2.blank)
  obtain ⟨k, hk⟩ := List.mem_iff_getElem?.mp he
  have hindex : e.index = c.args.prevLogIndex + 1 + k := (hlog.calls c hc).indexed k e hk
  have hsourced := sourced_of_reachable (h.mono fun _ _ ha => ha.2)
  exact calledBy_of_index (hsourced.calls c hc e he) (by omega)

/-- Every entry in a log or in a request, on whatever node and whether or not
it will be committed, was appended by exactly one call of `Replicate`. -/
theorem entry_has_one_call {C : Cluster} {w : World}
    (h : Reachable C.step asIntended C.init w) {e : LogEntry}
    (he : (∃ n, e ∈ (w.proc n).node.log.body)
      ∨ ∃ c ∈ w.net.appendCalls, e ∈ c.args.entries) :
    ∃! call, w.CalledBy call e := by
  have hexists : ∃ call, w.CalledBy call e := by
    rcases he with ⟨n, he⟩ | ⟨c, hc, he⟩
    · exact calledBy_of_log h he
    · exact calledBy_of_request h hc he
  obtain ⟨call, hcall⟩ := hexists
  exact ⟨call, hcall, fun call' hcall' =>
    calledBy_unique (h.mono fun _ _ ha => ha.orderly) hcall' hcall⟩

/-- The entry that `a` appended and `b` took over. -/
theorem entry_has_one_call_b :
    ∃ w, Reachable threeNodes.step asIntended threeNodes.init w
      ∧ (⟨1, 1, [7]⟩ : LogEntry) ∈ (w.proc "b").node.log.body
      ∧ ∃! call, w.CalledBy call ⟨1, 1, [7]⟩ := by
  obtain ⟨w, hr, hmem⟩ : ∃ w, Reachable threeNodes.step asIntended threeNodes.init w
      ∧ (⟨1, 1, [7]⟩ : LogEntry) ∈ (w.proc "b").node.log.body :=
    Reachable.of_exec_any replicateRun (by decide +kernel)
  exact ⟨w, hr, hmem, entry_has_one_call hr (.inl ⟨"b", hmem⟩)⟩

end RaftStore
