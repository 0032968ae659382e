import RaftStore.Partition

/-!
# The in-memory cluster

`raft/cluster.go` runs a cluster in one process. Its transport calls the
handler of the peer directly, unless `Isolate` has cut off one of the two.
A call of the transport first runs `resolve` and then the handler
(`Passage`); between the two there may be a delay, and `Isolate` does not
call back what is already on its way.

The runs are runs of the cluster with any network (`mem_world_reachable`).
A node that is isolated is cut off from the moment on:
`isolated_makes_no_progress` is `minority_makes_no_progress` for it alone.
But it does not notice. A leader gives up its role for what it hears, and
nothing in its own loops asks how long it has heard nothing: isolated, it
goes on as Leader in its old term (`isolated_leader_stays`), also when the
others have elected one in a later term.

`resolve` sleeps with the read lock held, so that `Isolate` waits for the
calls that sleep; the steps here let it overtake them.
-/

namespace RaftStore

open Runs

/-! ## `NewCluster` -/

/-- The verb `%c`: what is no Unicode scalar value prints as U+FFFD. -/
def runeChar (r : Nat) : Char :=
  if h : r.isValidChar then Char.ofNatAux r h else '�'

def memoryId (i : Nat) : String :=
  "node" ++ String.singleton (runeChar (65 + i))

def memoryIds (n : Nat) : List String := (List.range n).map memoryId

theorem runeChar_toNat {r : Nat} (h : r < 55296) : (runeChar r).toNat = r := by
  have hvalid : r.isValidChar := .inl h
  rw [runeChar, dif_pos hvalid]
  rfl

theorem memoryId_ne_empty (i : Nat) : memoryId i ≠ "" := by
  intro h
  have := congrArg String.toList h
  simp [memoryId] at this

/-- Beyond this the surrogates begin, which all print alike. -/
theorem nodup_memoryIds {n : Nat} (h : n ≤ 55231) : (memoryIds n).Nodup := by
  refine List.Nodup.map_on ?_ List.nodup_range
  intro i hi j hj heq
  have hlist := congrArg String.toList heq
  simp only [memoryId, String.toList_append, String.toList_singleton,
    List.append_cancel_left_eq, List.cons.injEq, and_true] at hlist
  have hnat := congrArg Char.toNat hlist
  simp only [List.mem_range] at hi hj
  rw [runeChar_toNat (by omega), runeChar_toNat (by omega)] at hnat
  omega

/-- `NewCluster`: the nodes have no `applyCh`. -/
def inMemory (n : Nat) (h : n ≤ 55231) : Cluster :=
  newCluster (memoryIds n) false (nodup_memoryIds h) (by
    intro hmem
    obtain ⟨i, -, hi⟩ := List.mem_map.mp hmem
    exact memoryId_ne_empty i hi)

/-! ## The transport -/

/-- Where a call of `clusterTransport` is. -/
inductive Passage where
  | called
  | resolved
  | refused
  | handled
  deriving DecidableEq

structure MemWorld where
  world : World
  votes : List Passage
  appends : List Passage
  isolated : String → Bool

inductive MemAction where
  | local (n : String) (a : Local)
  | resolveVote (call : Nat)
  | resolveAppend (call : Nat)
  | handleVote (call : Nat)
  | handleAppend (call : Nat)
  | isolate (id : String)
  | restore (id : String)
  deriving DecidableEq

namespace MemWorld

def resolve (C : Cluster) (m : MemWorld) (sender peerID : String) : Passage :=
  if m.isolated sender || m.isolated peerID then .refused
  else if peerID ∈ C.members then .resolved
  else .refused

/-- A goroutine sees an error only if its own call was refused. -/
def errorDue (m : MemWorld) (n : String) : Local → Bool
  | .voteError k =>
      match (m.world.proc n).run with
      | .counting c => m.votes[c.firstCall + k]? = some .refused
      | _ => false
  | .heartbeatError k =>
      match (m.world.proc n).run with
      | .heartbeats ws =>
          match ws[k]? with
          | some (.awaiting call _) => m.appends[call]? = some .refused
          | _ => false
      | _ => false
  | .replicateError r k =>
      match (m.world.proc n).replicates[r]? with
      | some c =>
          match c.workers[k]? with
          | some (.awaiting call _) => m.appends[call]? = some .refused
          | _ => false
      | none => false
  | _ => true

/-- A node has taken a step; the calls it has made are still to be resolved. -/
def extend (m : MemWorld) (w : World) : MemWorld where
  world := w
  votes := m.votes ++ List.replicate
    (w.net.voteCalls.length - m.world.net.voteCalls.length) .called
  appends := m.appends ++ List.replicate
    (w.net.appendCalls.length - m.world.net.appendCalls.length) .called
  isolated := m.isolated

end MemWorld

def Cluster.memInit (C : Cluster) : MemWorld where
  world := C.init
  votes := []
  appends := []
  isolated _ := false

def Cluster.memStep (C : Cluster) (m : MemWorld) : MemAction → Option MemWorld
  | .local n a =>
      if m.errorDue n a then (C.step m.world (.local n a)).map m.extend else none
  | .resolveVote call =>
      match m.world.net.voteCalls[call]?, m.votes[call]? with
      | some c, some .called =>
          some { m with votes := m.votes.set call (m.resolve C c.src c.dst) }
      | _, _ => none
  | .resolveAppend call =>
      match m.world.net.appendCalls[call]?, m.appends[call]? with
      | some c, some .called =>
          some { m with appends := m.appends.set call (m.resolve C c.src c.dst) }
      | _, _ => none
  | .handleVote call =>
      if m.votes[call]? = some .resolved then
        (C.step m.world (.deliverVote call)).map fun w =>
          { m with world := w, votes := m.votes.set call .handled }
      else none
  | .handleAppend call =>
      if m.appends[call]? = some .resolved then
        (C.step m.world (.deliverAppend call)).map fun w =>
          { m with world := w, appends := m.appends.set call .handled }
      else none
  | .isolate id => some { m with isolated := Function.update m.isolated id true }
  | .restore id => some { m with isolated := Function.update m.isolated id false }

def anyMem (_ : MemWorld) (_ : MemAction) : Prop := True

instance (m : MemWorld) (a : MemAction) : Decidable (anyMem m a) :=
  inferInstanceAs (Decidable True)

/-! ## What a step does -/

section Step

variable {C : Cluster} {m m' : MemWorld} {a : MemAction}

/-- The steps of the in-memory cluster, with the step of the cluster each
one is. -/
inductive MemMove (C : Cluster) (m : MemWorld) : MemAction → MemWorld → Prop where
  | local {n : String} {a : Local} {w : World}
      (hstep : C.step m.world (.local n a) = some w) :
      MemMove C m (.local n a) (m.extend w)
  | resolveVote {call : Nat} {c : VoteCall}
      (hcall : m.world.net.voteCalls[call]? = some c)
      (hold : m.votes[call]? = some .called) :
      MemMove C m (.resolveVote call)
        { m with votes := m.votes.set call (m.resolve C c.src c.dst) }
  | resolveAppend {call : Nat} {c : AppendCall}
      (hcall : m.world.net.appendCalls[call]? = some c)
      (hold : m.appends[call]? = some .called) :
      MemMove C m (.resolveAppend call)
        { m with appends := m.appends.set call (m.resolve C c.src c.dst) }
  | handleVote {call : Nat} {c : VoteCall} {w : World}
      (hcall : m.world.net.voteCalls[call]? = some c)
      (hold : m.votes[call]? = some .resolved)
      (hstep : C.step m.world (.deliverVote call) = some w) :
      MemMove C m (.handleVote call)
        { m with world := w, votes := m.votes.set call .handled }
  | handleAppend {call : Nat} {c : AppendCall} {w : World}
      (hcall : m.world.net.appendCalls[call]? = some c)
      (hold : m.appends[call]? = some .resolved)
      (hstep : C.step m.world (.deliverAppend call) = some w) :
      MemMove C m (.handleAppend call)
        { m with world := w, appends := m.appends.set call .handled }
  | isolate {id : String} : MemMove C m (.isolate id)
      { m with isolated := Function.update m.isolated id true }
  | restore {id : String} : MemMove C m (.restore id)
      { m with isolated := Function.update m.isolated id false }

theorem Cluster.mem_move (h : C.memStep m a = some m') : MemMove C m a m' := by
  cases a with
  | «local» n a =>
      simp only [memStep] at h
      split at h
      · obtain ⟨w, hw, rfl⟩ := Option.map_eq_some_iff.mp h
        exact .local hw
      · cases h
  | resolveVote call =>
      simp only [memStep] at h
      split at h
      case h_1 c hcall hold =>
        cases h
        exact .resolveVote hcall hold
      case h_2 => cases h
  | resolveAppend call =>
      simp only [memStep] at h
      split at h
      case h_1 c hcall hold =>
        cases h
        exact .resolveAppend hcall hold
      case h_2 => cases h
  | handleVote call =>
      simp only [memStep] at h
      split at h
      case isTrue hold =>
        obtain ⟨w, hw, rfl⟩ := Option.map_eq_some_iff.mp h
        cases hcall : m.world.net.voteCalls[call]? with
        | none => simp [step, hcall] at hw
        | some c => exact .handleVote hcall hold hw
      case isFalse => cases h
  | handleAppend call =>
      simp only [memStep] at h
      split at h
      case isTrue hold =>
        obtain ⟨w, hw, rfl⟩ := Option.map_eq_some_iff.mp h
        cases hcall : m.world.net.appendCalls[call]? with
        | none => simp [step, hcall] at hw
        | some c => exact .handleAppend hcall hold hw
      case isFalse => cases h
  | isolate id =>
      cases h
      exact .isolate
  | restore id =>
      cases h
      exact .restore

theorem Cluster.local_net {w w' : World} {n : String} {a : Local}
    (h : C.step w (.local n a) = some w') :
    ∃ votes appends, w'.net = { w.net with
      voteCalls := w.net.voteCalls ++ votes
      appendCalls := w.net.appendCalls ++ appends } := by
  simp only [step] at h
  split at h
  · obtain ⟨⟨p, out⟩, -, rfl⟩ := Option.map_eq_some_iff.mp h
    exact ⟨out.voteCalls, out.appendCalls, rfl⟩
  · cases h

theorem Cluster.deliverVote_net {w w' : World} {call : Nat}
    (h : C.step w (.deliverVote call) = some w') :
    ∃ reply, w'.net = { w.net with
      voteAnswers := w.net.voteAnswers ++ [(call, reply)] } := by
  simp only [step] at h
  split at h
  · split at h
    · cases h
      exact ⟨_, rfl⟩
    · cases h
  · cases h

theorem Cluster.deliverAppend_net {w w' : World} {call : Nat}
    (h : C.step w (.deliverAppend call) = some w') :
    ∃ reply, w'.net = { w.net with
      appendAnswers := w.net.appendAnswers ++ [(call, reply)] } := by
  simp only [step] at h
  split at h
  · split at h
    · cases h
      exact ⟨_, rfl⟩
    · cases h
  · cases h

end Step

/-! ## Calls and their passages -/

/-- What stands at a place when one of another kind is set. -/
theorem passage_set {passages : List Passage} {call call' : Nat} {x old : Passage}
    (hx : passages[call']? = some x) (hold : passages[call]? = some old) (hne : old ≠ x)
    (new : Passage) : (passages.set call new)[call']? = some x := by
  have hcall : call ≠ call' := by
    rintro rfl
    exact hne (Option.some.inj (hold.symm.trans hx))
  rw [List.getElem?_set_ne hcall]
  exact hx

/-- Every call has its passage, and what is answered was handled. -/
structure MemInv (m : MemWorld) : Prop where
  votesLength : m.votes.length = m.world.net.voteCalls.length
  appendsLength : m.appends.length = m.world.net.appendCalls.length
  answered : ∀ call reply, (call, reply) ∈ m.world.net.appendAnswers →
    m.appends[call]? = some .handled

theorem MemInv.step {C : Cluster} {m m' : MemWorld} {a : MemAction}
    (h : MemInv m) (hmove : MemMove C m a m') : MemInv m' := by
  obtain ⟨hvlen, halen, hanswered⟩ := h
  cases hmove with
  | «local» hstep =>
      obtain ⟨votes, appends, hnet⟩ := C.local_net hstep
      refine ⟨?_, ?_, ?_⟩ <;> simp only [MemWorld.extend, hnet]
      · simp [hvlen]
      · simp [halen]
      · exact fun call reply hans =>
          LeaderLog.prefix_getElem? (List.prefix_append ..) (hanswered call reply hans)
  | resolveVote hcall hold => exact ⟨by simpa using hvlen, halen, hanswered⟩
  | resolveAppend hcall hold =>
      refine ⟨hvlen, by simpa using halen, ?_⟩
      exact fun call reply hans => passage_set (hanswered call reply hans) hold (by simp) _
  | handleVote hcall hold hstep =>
      obtain ⟨reply, hnet⟩ := C.deliverVote_net hstep
      refine ⟨?_, ?_, ?_⟩ <;> simp only [hnet]
      · simpa using hvlen
      · exact halen
      · exact hanswered
  | handleAppend hcall hold hstep =>
      obtain ⟨reply, hnet⟩ := C.deliverAppend_net hstep
      refine ⟨?_, ?_, ?_⟩ <;> simp only [hnet]
      · exact hvlen
      · simpa using halen
      · intro call' reply' hans
        rcases List.mem_append.mp hans with hmem | hmem
        · exact passage_set (hanswered call' reply' hmem) hold (by simp) _
        · cases List.mem_singleton.mp hmem
          exact List.getElem?_set_self (LeaderLog.lt_length_of_getElem? hold)
  | isolate => exact ⟨hvlen, halen, hanswered⟩
  | restore => exact ⟨hvlen, halen, hanswered⟩

theorem memInv_of_reachable {C : Cluster} {ok : MemWorld → MemAction → Prop}
    {m : MemWorld} (h : Reachable C.memStep ok C.memInit m) : MemInv m := by
  refine h.invariant (P := MemInv) ?_ ?_
  · exact ⟨rfl, rfl, by simp [Cluster.memInit, Cluster.init]⟩
  · intro m a m' _ hinv _ hstep
    exact hinv.step (C.mem_move hstep)

/-! ## The runs are runs of the cluster -/

/-- A step of the in-memory cluster is a step of the cluster or leaves it
alone. -/
theorem MemMove.world_step {C : Cluster} {m m' : MemWorld} {a : MemAction}
    (h : MemMove C m a m') : m'.world = m.world
      ∨ ∃ b, noRestart m.world b ∧ C.step m.world b = some m'.world := by
  cases h with
  | @«local» n a _ hstep => exact .inr ⟨.local n a, trivial, hstep⟩
  | @handleVote call _ _ _ _ hstep => exact .inr ⟨.deliverVote call, trivial, hstep⟩
  | @handleAppend call _ _ _ _ hstep => exact .inr ⟨.deliverAppend call, trivial, hstep⟩
  | resolveVote | resolveAppend | isolate | restore => exact .inl rfl

theorem mem_world_reachable {C : Cluster} {m : MemWorld}
    (h : Reachable C.memStep anyMem C.memInit m) :
    Reachable C.step noRestart C.init m.world := by
  refine h.invariant (P := fun m => Reachable C.step noRestart C.init m.world)
    ⟨[], .init⟩ ?_
  intro m a m' _ hr _ hstep
  rcases (C.mem_move hstep).world_step with heq | ⟨b, hok, hb⟩
  · rw [heq]
    exact hr
  · obtain ⟨past, run⟩ := hr
    exact ⟨_, run.step hok hb⟩

/-! ## Isolation -/

def keepsIsolated (n : String) (_ : MemWorld) : MemAction → Prop
  | .restore id => id ≠ n
  | _ => True

instance (n : String) (m : MemWorld) : (a : MemAction) →
    Decidable (keepsIsolated n m a)
  | .restore id => inferInstanceAs (Decidable (id ≠ n))
  | .local _ _ | .resolveVote _ | .resolveAppend _ | .handleVote _
  | .handleAppend _ | .isolate _ => inferInstanceAs (Decidable True)

theorem MemWorld.resolve_refused {C : Cluster} {m : MemWorld} {n src dst : String}
    (hiso : m.isolated n = true) (h : src = n ∨ dst = n) : m.resolve C src dst = .refused := by
  rw [resolve, if_pos]
  rcases h with rfl | rfl
  · rw [hiso, Bool.true_or]
  · rw [hiso, Bool.or_true]

theorem MemWorld.resolve_isolated {C : Cluster} {m : MemWorld} {n src dst : String}
    (hiso : m.isolated n = true) (h : m.resolve C src dst = .resolved) :
    src ≠ n ∧ dst ≠ n := by
  constructor
  · intro hsrc
    cases (resolve_refused (C := C) hiso (.inl hsrc)).symm.trans h
  · intro hdst
    cases (resolve_refused (C := C) hiso (.inr hdst)).symm.trans h

/-- In a list where one place is set, what stands at a place is old or new. -/
theorem resolved_set {passages : List Passage} {call call' : Nat} {new : Passage}
    (h : (passages.set call new)[call']? = some .resolved) :
    call' = call ∧ new = .resolved ∨ passages[call']? = some .resolved := by
  by_cases hcall : call = call'
  · subst hcall
    have hlt := LeaderLog.lt_length_of_getElem? h
    rw [List.getElem?_set_self (by simpa using hlt)] at h
    exact .inl ⟨rfl, Option.some.inj h⟩
  · rw [List.getElem?_set_ne hcall] at h
    exact .inr h

theorem resolved_append {passages : List Passage} {k call : Nat}
    (h : (passages ++ List.replicate k .called)[call]? = some .resolved) :
    passages[call]? = some .resolved := by
  rcases Nat.lt_or_ge call passages.length with hlt | hge
  · rwa [List.getElem?_append_left hlt] at h
  · rw [List.getElem?_append_right hge] at h
    cases List.eq_of_mem_replicate (List.mem_of_getElem? h)

theorem keepsIsolated.step {C : Cluster} {n : String} {m m' : MemWorld} {a : MemAction}
    (hok : keepsIsolated n m a) (hmove : MemMove C m a m') (hiso : m.isolated n = true) :
    m'.isolated n = true := by
  cases hmove with
  | isolate =>
      simp only [Function.update_apply]
      split
      · rfl
      · exact hiso
  | restore => exact (Function.update_of_ne (Ne.symm hok) ..).trans hiso
  | «local» | resolveVote | resolveAppend | handleVote | handleAppend => exact hiso

/-- Of the later calls only such are let through and still to be handled. -/
structure MemWorld.Through (P : String → String → Prop) (votes₀ appends₀ : Nat)
    (m : MemWorld) : Prop where
  votes : ∀ (call : Nat) c, votes₀ ≤ call → m.world.net.voteCalls[call]? = some c →
    m.votes[call]? = some .resolved → P c.src c.dst
  appends : ∀ (call : Nat) c, appends₀ ≤ call → m.world.net.appendCalls[call]? = some c →
    m.appends[call]? = some .resolved → P c.src c.dst

section LetThrough

variable {α : Type} {Q : α → Prop} {first : Nat} {calls : List α} {passages : List Passage}

/-- What is asked of one of the two lists of calls. -/
def LetThrough (Q : α → Prop) (first : Nat) (calls : List α) (passages : List Passage) : Prop :=
  ∀ (call : Nat) c, first ≤ call → calls[call]? = some c →
    passages[call]? = some .resolved → Q c

/-- New calls are not let through yet. -/
theorem LetThrough.append (h : LetThrough Q first calls passages)
    (hlen : passages.length = calls.length) (new : List α) (k : Nat) :
    LetThrough Q first (calls ++ new) (passages ++ List.replicate k .called) := by
  intro call c hle hcall hres
  have hold := resolved_append hres
  rw [List.getElem?_append_left (hlen ▸ LeaderLog.lt_length_of_getElem? hold)] at hcall
  exact h call c hle hcall hold

/-- One call gets on. -/
theorem LetThrough.set (h : LetThrough Q first calls passages) {call : Nat} {new : Passage}
    (hnew : new = .resolved → ∀ c, calls[call]? = some c → Q c) :
    LetThrough Q first calls (passages.set call new) := by
  intro call' c hle hcall hres
  rcases resolved_set hres with ⟨rfl, hresolved⟩ | hold
  · exact hnew hresolved c hcall
  · exact h call' c hle hcall hold

end LetThrough

theorem MemWorld.Through.step {C : Cluster} {P : String → String → Prop}
    {votes₀ appends₀ : Nat} {m m' : MemWorld} {a : MemAction}
    (h : m.Through P votes₀ appends₀) (hinv : MemInv m)
    (hP : ∀ src dst, m.resolve C src dst = .resolved → P src dst)
    (hmove : MemMove C m a m') : m'.Through P votes₀ appends₀ := by
  have hvotes : LetThrough (fun c => P c.src c.dst) votes₀ m.world.net.voteCalls m.votes :=
    h.votes
  have happends : LetThrough (fun c => P c.src c.dst) appends₀ m.world.net.appendCalls
    m.appends := h.appends
  cases hmove with
  | «local» hstep =>
      obtain ⟨votes, appends, hnet⟩ := C.local_net hstep
      refine ⟨?_, ?_⟩ <;> simp only [extend, hnet]
      · exact hvotes.append hinv.votesLength votes _
      · exact happends.append hinv.appendsLength appends _
  | resolveVote hcall _ =>
      refine ⟨hvotes.set fun hnew c hc => ?_, happends⟩
      cases hcall.symm.trans hc
      exact hP _ _ hnew
  | resolveAppend hcall _ =>
      refine ⟨hvotes, happends.set fun hnew c hc => ?_⟩
      cases hcall.symm.trans hc
      exact hP _ _ hnew
  | handleVote _ _ hstep =>
      obtain ⟨reply, hnet⟩ := C.deliverVote_net hstep
      refine ⟨?_, ?_⟩ <;> simp only [hnet]
      · exact hvotes.set fun hnew => by cases hnew
      · exact happends
  | handleAppend _ _ hstep =>
      obtain ⟨reply, hnet⟩ := C.deliverAppend_net hstep
      refine ⟨?_, ?_⟩ <;> simp only [hnet]
      · exact hvotes
      · exact happends.set fun hnew => by cases hnew
  | isolate => exact ⟨hvotes, happends⟩
  | restore => exact ⟨hvotes, happends⟩

/-- Since `m₀` the node `n` is isolated; the later calls that `resolve` lets
through are between other nodes. -/
structure Isolated (n : String) (m₀ m : MemWorld) : Prop where
  isolated : m.isolated n = true
  through : m.Through (fun src dst => (src == n) = (dst == n))
    m₀.world.net.voteCalls.length m₀.world.net.appendCalls.length

theorem Isolated.init {n : String} {m : MemWorld} (h : m.isolated n = true) :
    Isolated n m m := by
  refine ⟨h, ?_, ?_⟩
  · intro call c hle hcall
    have := LeaderLog.lt_length_of_getElem? hcall
    omega
  · intro call c hle hcall
    have := LeaderLog.lt_length_of_getElem? hcall
    omega

/-- A step with `n` isolated: no later request from it or to it is handled. -/
theorem Isolated.step {C : Cluster} {n : String} {m₀ m m' : MemWorld} {a : MemAction}
    (h : Isolated n m₀ m) (hok : keepsIsolated n m a) (hinv : MemInv m)
    (hmove : MemMove C m a m') : Isolated n m₀ m' := by
  refine ⟨hok.step hmove h.isolated, h.through.step hinv ?_ hmove⟩
  intro src dst hres
  obtain ⟨hsrc, hdst⟩ := MemWorld.resolve_isolated h.isolated hres
  simp [hsrc, hdst]

/-- The steps taken while `n` is isolated leave it cut off. -/
theorem Isolated.severed {C : Cluster} {n : String} {m₀ m m' : MemWorld}
    {a : MemAction} (h : Isolated n m₀ m) (hmove : MemMove C m a m') :
    m'.world = m.world ∨ ∃ b, severed (· == n) m₀.world m.world b
      ∧ C.step m.world b = some m'.world := by
  cases hmove with
  | @«local» p a _ hstep => exact .inr ⟨.local p a, trivial, hstep⟩
  | @handleVote call _ _ _ hold hstep =>
      refine .inr ⟨.deliverVote call, ?_, hstep⟩
      intro hle c hcall
      exact h.through.votes call c hle hcall hold
  | @handleAppend call _ _ _ hold hstep =>
      refine .inr ⟨.deliverAppend call, ?_, hstep⟩
      intro hle c hcall
      exact h.through.appends call c hle hcall hold
  | resolveVote | resolveAppend | isolate | restore => exact .inl rfl

theorem severed_of_isolated {C : Cluster} {n : String} {m₀ m : MemWorld}
    (h₀ : Reachable C.memStep anyMem C.memInit m₀) (hiso : m₀.isolated n = true)
    (h : Reachable C.memStep (keepsIsolated n) m₀ m) :
    Reachable C.step (severed (· == n) m₀.world) m₀.world m.world := by
  have hinv₀ := memInv_of_reachable h₀
  have hall : Isolated n m₀ m
      ∧ Reachable C.step (severed (· == n) m₀.world) m₀.world m.world := by
    refine h.invariant (P := fun m => Isolated n m₀ m
      ∧ Reachable C.step (severed (· == n) m₀.world) m₀.world m.world)
      ⟨.init hiso, [], .init⟩ ?_
    rintro m a m' hr ⟨hisolated, past, run⟩ hok hstep
    have hmove := C.mem_move hstep
    have hinv := memInv_of_reachable (h₀.trans (hr.mono fun _ _ _ => trivial))
    refine ⟨hisolated.step hok hinv hmove, ?_⟩
    rcases hisolated.severed hmove with heq | ⟨b, hb, hworld⟩
    · rw [heq]
      exact ⟨past, run⟩
    · exact ⟨_, run.step hb hworld⟩
  exact hall.2

theorem minority_alone {C : Cluster} (h : 2 ≤ C.members.length) (n : String) :
    C.Minority (· == n) := by
  have hcount : C.members.count n ≤ 1 := List.nodup_iff_count_le_one.mp C.nodup n
  show C.members.count n ≤ _
  omega

/-- From `Isolate(n)` on, as long as no `Restore(n)` follows, the node wins
no term beyond the one it had, and no call of `Replicate` that it begins
gets a majority. -/
theorem isolated_makes_no_progress {C : Cluster} {n : String} {m₀ m : MemWorld}
    (hsize : 2 ≤ C.members.length) (hn : n ∈ C.members)
    (h₀ : Reachable C.memStep anyMem C.memInit m₀) (hiso : m₀.isolated n = true)
    (h : Reachable C.memStep (keepsIsolated n) m₀ m) :
    (∀ term log, .elected n term log ∈ m.world.history →
      term ≤ (m₀.world.proc n).node.currentTerm)
    ∧ ∀ (r : Nat) c, (m₀.world.proc n).replicates.length ≤ r →
      (m.world.proc n).replicates[r]? = some c → c.loc.decided = false := by
  have hworld₀ := mem_world_reachable h₀
  have hworld := severed_of_isolated h₀ hiso h
  have hminor := minority_alone hsize n
  constructor
  · intro term log he
    exact elected_before_cut hminor hworld₀ hworld (beq_self_eq_true n) he
  · intro r c hr hc
    exact undecided_since_cut hminor hworld₀ hworld hn (beq_self_eq_true n) hr hc

def threeInMemory : Cluster := inMemory 3 (by decide)

/-- `nodeA` wins the first term with the vote of `nodeB`. -/
def memElectRun : List MemAction :=
  [.local "nodeA" .load, .local "nodeA" .timeout, .local "nodeA" .load,
    .local "nodeA" .campaign, .resolveVote 0, .handleVote 0,
    .local "nodeA" (.voteReply 0 0), .local "nodeA" .becomeLeader]

/-- It is isolated, and a command that it accepts reaches nobody. -/
def memIsolatedRun : List MemAction :=
  [.local "nodeA" (.replicate [7]), .local "nodeA" (.replicateSend 0 0),
    .resolveAppend 0, .local "nodeA" (.replicateError 0 0),
    .local "nodeA" (.receiveAck 0 0)]

theorem isolated_makes_no_progress_a :
    ∃ m₀ m, Reachable threeInMemory.memStep anyMem threeInMemory.memInit m₀
      ∧ m₀.isolated "nodeA" = true
      ∧ Reachable threeInMemory.memStep (keepsIsolated "nodeA") m₀ m
      ∧ (m.world.proc "nodeA").node.state = .leader
      ∧ ∃ c ∈ (m.world.proc "nodeA").replicates[0]?, c.loc.decided = false := by
  obtain ⟨m₀, h₀, hiso, hlen, hrest⟩ : ∃ m₀,
      Reachable threeInMemory.memStep anyMem threeInMemory.memInit m₀
        ∧ m₀.isolated "nodeA" = true
        ∧ (m₀.world.proc "nodeA").replicates.length ≤ 0
        ∧ (exec threeInMemory.memStep (keepsIsolated "nodeA") [] m₀ memIsolatedRun).any
          (fun r => decide ((r.2.world.proc "nodeA").node.state = .leader
            ∧ (r.2.world.proc "nodeA").replicates[0]?.isSome = true)) = true :=
    Reachable.of_exec_any (memElectRun ++ [.isolate "nodeA"]) (by decide +kernel)
  obtain ⟨m, h, hstate, hsome⟩ := Reachable.of_exec_any memIsolatedRun
    (P := fun m : MemWorld => (m.world.proc "nodeA").node.state = .leader
      ∧ (m.world.proc "nodeA").replicates[0]?.isSome = true) hrest
  obtain ⟨c, hc⟩ := Option.isSome_iff_exists.mp hsome
  refine ⟨m₀, m, h₀, hiso, h, hstate, c, hc, ?_⟩
  exact (isolated_makes_no_progress (by decide) (by decide) h₀ hiso h).2 0 c hlen hc

/-! ## An isolated leader -/

/-- A goroutine of the node waits for the answer to this AppendEntries. -/
inductive Proc.Awaits (p : Proc) (call : Nat) : Prop where
  | heartbeat {ws : List Heartbeat} {args : AppendEntriesArgs}
      (hrun : p.run = .heartbeats ws) (hws : .awaiting call args ∈ ws) : Awaits p call
  | worker {c : ReplicateCall} {args : AppendEntriesArgs}
      (hcall : c ∈ p.replicates) (hworker : .awaiting call args ∈ c.workers) : Awaits p call

section Awaits

variable {net : Net} {p p' : Proc} {a : Local} {out : Output} {call : Nat}

/-- The request that a goroutine begins to wait for is the one of the step. -/
def Proc.Posts (net : Net) (p : Proc) (out : Output) (call : Nat) : Prop :=
  call = net.appendCalls.length ∧ ∃ peer args, out.appendCalls = [⟨p.node.id, peer, args⟩]

theorem Proc.Awaits.of_run {ws : List Heartbeat} {args : AppendEntriesArgs}
    (hmove : p.Move net a p' out) (hrun : p'.run = .heartbeats ws)
    (hws : .awaiting call args ∈ ws) : p.Awaits call ∨ p.Posts net out call := by
  cases run_move hmove with
  | same hloc => exact .inl (.heartbeat (hloc.symm.trans hrun) hws)
  | away hplain =>
      rw [hrun] at hplain
      cases hplain
  | spawn _ hloc =>
      cases hloc.symm.trans hrun
      obtain ⟨_, -, hlock⟩ := List.mem_map.mp hws
      cases hlock
  | @beat ws₀ k hb hrun₀ hcall hloc =>
      cases hloc.symm.trans hrun
      rcases List.mem_or_eq_of_mem_set hws with hold | rfl
      · exact .inl (.heartbeat hrun₀ hold)
      · obtain ⟨hnew, peer, -, hout⟩ := hcall call args rfl
        exact .inr ⟨hnew, peer, args, hout⟩
  | campaign _ _ _ _ hloc | counted _ _ _ hloc | won _ _ _ _ _ hloc
  | lead _ hloc | joined _ hloc => cases hloc.symm.trans hrun

theorem Proc.Awaits.of_calls {c : ReplicateCall} {args : AppendEntriesArgs}
    (hmove : p.Move net a p' out) (hcall : c ∈ p'.replicates)
    (hworker : .awaiting call args ∈ c.workers) :
    p.Awaits call ∨ p.Posts net out call := by
  -- one call is replaced by one that waits for no more
  have hset : ∀ {r : Nat} {c₀ c' : ReplicateCall}, p.replicates[r]? = some c₀ →
      p'.replicates = p.replicates.set r c' →
      (.awaiting call args ∈ c'.workers →
        .awaiting call args ∈ c₀.workers ∨ p.Posts net out call) →
        p.Awaits call ∨ p.Posts net out call := by
    intro r c₀ c' hc₀ hcalls hworkers
    rw [hcalls] at hcall
    rcases List.mem_or_eq_of_mem_set hcall with hold | rfl
    · exact .inl (.worker hold hworker)
    · exact (hworkers hworker).imp_left (.worker (List.mem_of_getElem? hc₀))
  cases call_move hmove with
  | same hcalls => exact .inl (.worker (hcalls ▸ hcall) hworker)
  | opened _ _ hcalls =>
      rw [hcalls] at hcall
      rcases List.mem_append.mp hcall with hold | hnew
      · exact .inl (.worker hold hworker)
      · rw [List.mem_singleton.mp hnew] at hworker
        obtain ⟨_, -, hlock⟩ := List.mem_map.mp hworker
        cases hlock
  | worker hc₀ _ hwk hcalls =>
      refine hset hc₀ hcalls ?_
      intro hmem
      rcases List.mem_or_eq_of_mem_set hmem with hold | rfl
      · exact .inl hold
      · cases hwk with
        | sent _ _ _ _ hout => exact .inr ⟨rfl, _, _, hout⟩
  | ack hc₀ _ _ hcalls =>
      refine hset hc₀ hcalls ?_
      intro hmem
      rcases List.mem_or_eq_of_mem_set hmem with hold | hnew
      · exact .inl hold
      · cases hnew
  | gaveUp hc₀ _ _ hcalls => exact hset hc₀ hcalls .inl
  | committed hc₀ _ hcalls => exact hset hc₀ hcalls .inl
  | returned hc₀ _ _ hcalls => exact hset hc₀ hcalls .inl

theorem Proc.Awaits.move (hmove : p.Move net a p' out) (h : p'.Awaits call) :
    p.Awaits call ∨ p.Posts net out call := by
  cases h with
  | heartbeat hrun hws => exact Proc.Awaits.of_run hmove hrun hws
  | worker hcall hworker => exact Proc.Awaits.of_calls hmove hcall hworker

/-- Who waits for nothing that is answered, and does not stand for election,
hears no other term. -/
theorem Proc.Move.unsignalled (hmove : p.Move net a p' out) (hch : p.stepDownCh = [])
    (htaken : ∀ term, p.run ≠ .stepDown term) (hplace : p.run.electing = false)
    (hanswers : ∀ call, p.Awaits call → ∀ reply, (call, reply) ∉ net.appendAnswers) :
    p'.stepDownCh = [] ∧ ∀ term, p'.run ≠ .stepDown term := by
  cases hmove with
  | load => exact ⟨hch, by intro term; dsimp only; split <;> simp⟩
  | recvStepDown _ hsignal => cases hch.symm.trans hsignal
  | stepDown hrun => exact absurd hrun (htaken _)
  | voteReply hrun | voteError hrun =>
      rw [hrun] at hplace
      cases hplace
  | campaign => exact ⟨hch, by intro term; dsimp only; split <;> simp⟩
  | tick => exact ⟨hch, by intro term; dsimp only; split <;> simp⟩
  | heartbeatReply hrun hws _ hans =>
      exact absurd (List.mem_of_getElem? hans)
        (hanswers _ (.heartbeat hrun (List.mem_of_getElem? hws)) _)
  | replicateReply hcall _ hworker hans =>
      exact absurd (List.mem_of_getElem? hans) (hanswers _
        (.worker (List.mem_of_getElem? hcall) (List.mem_of_getElem? hworker)) _)
  | timeout | electionTimeout | becomeLeader | spawnHeartbeats | heartbeat | heartbeatError
  | heartbeatApplied | joinHeartbeats | quit => exact ⟨hch, by simp⟩
  | replicate | replicateStale | replicateSend | replicateError | receiveAck | giveUp
  | replicateCommit | replicateReturn | collect | send | applyLoop | stop | abandon =>
      exact ⟨hch, htaken⟩

end Awaits

theorem Proc.Awaits.of_same {p p' : Proc} {call : Nat} (hrun : p'.run = p.run)
    (hcalls : p'.replicates = p.replicates) (h : p'.Awaits call) : p.Awaits call := by
  cases h with
  | heartbeat hrun' hws => exact .heartbeat (hrun.symm.trans hrun') hws
  | worker hcall hworker => exact .worker (hcalls ▸ hcall) hworker

section World

variable {C : Cluster} {w w' : World} {b : Action} {n : String} {call : Nat}

theorem Cluster.awaits_step (hok : noRestart w b) (hstep : C.step w b = some w')
    (h : (w'.proc n).Awaits call) :
    (w.proc n).Awaits call ∨ call = w.net.appendCalls.length
      ∧ ∃ c, w'.net.appendCalls = w.net.appendCalls ++ [c] ∧ c.src = (w.proc n).node.id := by
  cases C.proc_step hstep n with
  | own _ hmove hw' =>
      refine (h.move hmove).imp_right ?_
      rintro ⟨hnew, peer, args, hout⟩
      refine ⟨hnew, ⟨_, peer, args⟩, ?_, rfl⟩
      rw [hw']
      simp [World.commit, hout]
  | voted _ _ _ hproc => exact .inl (h.of_same (by rw [hproc]) (by rw [hproc]))
  | appended _ _ _ hp hproc =>
      refine .inl (h.of_same ?_ ?_) <;> rw [hproc, hp] <;> split <;> rfl
  | restarted => exact hok.elim
  | idle hproc => exact .inl (h.of_same (by rw [hproc]) (by rw [hproc]))

/-- What a goroutine waits for is a request of its own node. -/
theorem awaits_own (hr : Reachable C.step noRestart C.init w) (h : (w.proc n).Awaits call) :
    ∃ c, w.net.appendCalls[call]? = some c ∧ c.src = n := by
  refine hr.invariant (P := fun w => ∀ call, (w.proc n).Awaits call →
    ∃ c, w.net.appendCalls[call]? = some c ∧ c.src = n) ?_ ?_ call h
  · intro call h
    cases h with
    | heartbeat hrun => cases hrun
    | worker hcall => cases hcall
  · intro w b w' hr ih hok hstep call h
    have hw := static_of_reachable (hr.mono fun _ _ ha => ha.blank)
    rcases C.awaits_step hok hstep h with hold | ⟨rfl, c, hcalls, hsrc⟩
    · obtain ⟨c, hc, hsrc⟩ := ih call hold
      exact ⟨c, LeaderLog.prefix_getElem? (C.move hw hstep).grows.appendCalls hc, hsrc⟩
    · exact ⟨c, by simp [hcalls], hsrc.trans (hw.id n)⟩

/-- No request to `n` is handled, and no node restarts. -/
def spares (n : String) (w : World) : Action → Prop
  | .deliverVote call => ∀ c, w.net.voteCalls[call]? = some c → c.dst ≠ n
  | .deliverAppend call => ∀ c, w.net.appendCalls[call]? = some c → c.dst ≠ n
  | .restart _ => False
  | _ => True

/-- A leader that is not told of another term stays what it is. -/
theorem Cluster.leader_kept (hw : Static C w) (hlead : LeadInv C w)
    (hok : spares n w b) (hstep : C.step w b = some w') (hs : (w.core n).state = .leader)
    (htaken : ∀ term, (w.proc n).run ≠ .stepDown term) :
    (w'.core n).state = .leader ∧ (w'.core n).currentTerm = (w.core n).currentTerm
      ∧ (w.core n).log.entries <+: (w'.core n).log.entries := by
  have helecting (hrun : (w.proc n).run.electing = true) : False := hlead.electing n hrun hs
  cases (C.move hw hstep).core_step n with
  | same hcore => exact ⟨hcore ▸ hs, by rw [hcore], by rw [hcore]⟩
  | timeout hrun | campaign hrun => exact (helecting (by rw [hrun]; rfl)).elim
  | stepDown hrun => exact absurd hrun (htaken _)
  | elect hstate => cases hs.symm.trans hstate
  | append hstate hentry hcore =>
      rw [hcore]
      exact ⟨hs, rfl, List.prefix_append ..⟩
  | vote hcall hdst => exact absurd hdst (hok _ hcall)
  | deliver hcall hdst => exact absurd hdst (hok _ hcall)
  | restart => exact hok.elim

end World

/-- Nothing for `n` is on its way: no request that is still to be handled,
no answer to one of its own, and no signal of another term. -/
structure MemWorld.Quiet (m : MemWorld) (n : String) : Prop where
  requests : m.Through (fun _ dst => dst ≠ n) 0 0
  answers : ∀ call, (m.world.proc n).Awaits call →
    m.appends[call]? = some .called ∨ m.appends[call]? = some .refused
  signals : (m.world.proc n).stepDownCh = []
  taken : ∀ term, (m.world.proc n).run ≠ .stepDown term

namespace MemWorld.Quiet

variable {C : Cluster} {n : String} {m m' : MemWorld} {a : MemAction}

theorem unanswered (h : m.Quiet n) (hinv : MemInv m) {call : Nat}
    (hawaits : (m.world.proc n).Awaits call) (reply : AppendEntriesReply) :
    (call, reply) ∉ m.world.net.appendAnswers := by
  intro hans
  have hhandled := hinv.answered call reply hans
  rcases h.answers call hawaits with hp | hp
  · cases hp.symm.trans hhandled
  · cases hp.symm.trans hhandled

theorem spared (h : m.Quiet n) (hmove : MemMove C m a m') : m'.world = m.world
    ∨ ∃ b, spares n m.world b ∧ C.step m.world b = some m'.world := by
  cases hmove with
  | @«local» k a _ hstep => exact .inr ⟨.local k a, trivial, hstep⟩
  | @handleVote call _ _ _ hold hstep =>
      refine .inr ⟨.deliverVote call, ?_, hstep⟩
      exact fun c hc => h.requests.votes call c (Nat.zero_le _) hc hold
  | @handleAppend call _ _ _ hold hstep =>
      refine .inr ⟨.deliverAppend call, ?_, hstep⟩
      exact fun c hc => h.requests.appends call c (Nat.zero_le _) hc hold
  | resolveVote | resolveAppend | isolate | restore => exact .inl rfl

theorem unsignalled {b : Action} {w : World} (h : m.Quiet n) (hinv : MemInv m)
    (hplace : (m.world.proc n).run.electing = false) (hok : spares n m.world b)
    (hstep : C.step m.world b = some w) :
    (w.proc n).stepDownCh = [] ∧ ∀ term, (w.proc n).run ≠ .stepDown term := by
  cases C.proc_step hstep n with
  | own _ hmove =>
      exact hmove.unsignalled h.signals h.taken hplace fun _ hawaits =>
        h.unanswered hinv hawaits
  | voted hcall hdst => exact absurd hdst (hok _ hcall)
  | appended hcall hdst => exact absurd hdst (hok _ hcall)
  | restarted => exact hok.elim
  | idle hproc =>
      rw [hproc]
      exact ⟨h.signals, h.taken⟩

/-- A request of an isolated node is refused. -/
theorem answers_step (h : m.Quiet n) (hiso : m.isolated n = true)
    (hreach : Reachable C.memStep anyMem C.memInit m) (hmove : MemMove C m a m') {call : Nat}
    (hawaits : (m'.world.proc n).Awaits call) :
    m'.appends[call]? = some .called ∨ m'.appends[call]? = some .refused := by
  cases hmove with
  | @«local» k a w hstep =>
      rcases C.awaits_step (b := .local k a) trivial hstep hawaits
        with hold | ⟨rfl, c, hcalls, -⟩
      · exact (h.answers call hold).imp
          (LeaderLog.prefix_getElem? (List.prefix_append ..))
          (LeaderLog.prefix_getElem? (List.prefix_append ..))
      · simp [extend, hcalls, (memInv_of_reachable hreach).appendsLength]
  | @resolveAppend call' c hcall hold =>
      by_cases heq : call' = call
      · subst heq
        obtain ⟨c', hc', hsrc⟩ := awaits_own (mem_world_reachable hreach) hawaits
        cases hcall.symm.trans hc'
        rw [resolve_refused hiso (.inl hsrc)]
        exact .inr (List.getElem?_set_self (LeaderLog.lt_length_of_getElem? hold))
      · simp only [List.getElem?_set_ne heq]
        exact h.answers call hawaits
  | @handleVote call' c w hcall hold hstep =>
      obtain ⟨reply, hnet⟩ := C.deliverVote_net hstep
      rcases C.awaits_step (b := .deliverVote call') trivial hstep hawaits
        with hold' | ⟨-, c', hcalls, -⟩
      · exact h.answers call hold'
      · simp [hnet] at hcalls
  | @handleAppend call' c w hcall hold hstep =>
      obtain ⟨reply, hnet⟩ := C.deliverAppend_net hstep
      rcases C.awaits_step (b := .deliverAppend call') trivial hstep hawaits
        with hold' | ⟨-, c', hcalls, -⟩
      · exact (h.answers call hold').imp (passage_set · hold (by simp) _)
          (passage_set · hold (by simp) _)
      · simp [hnet] at hcalls
  | resolveVote | isolate | restore => exact h.answers call hawaits

theorem step (h : m.Quiet n) (hiso : m.isolated n = true)
    (hreach : Reachable C.memStep anyMem C.memInit m)
    (hplace : (m.world.proc n).run.electing = false) (hmove : MemMove C m a m') :
    m'.Quiet n := by
  have hinv := memInv_of_reachable hreach
  obtain ⟨hsignals, htaken⟩ : (m'.world.proc n).stepDownCh = []
      ∧ ∀ term, (m'.world.proc n).run ≠ .stepDown term := by
    rcases h.spared hmove with heq | ⟨b, hb, hstep⟩
    · rw [heq]
      exact ⟨h.signals, h.taken⟩
    · exact h.unsignalled hinv hplace hb hstep
  refine ⟨?_, fun call => h.answers_step hiso hreach hmove, hsignals, htaken⟩
  exact h.requests.step hinv (fun _ _ hres => (resolve_isolated hiso hres).2) hmove

end MemWorld.Quiet

/-- What an isolated leader is and has. -/
structure Unaware (n : String) (m₀ m : MemWorld) : Prop where
  isolated : m.isolated n = true
  quiet : m.Quiet n
  state : (m.world.proc n).node.state = .leader
  term : (m.world.proc n).node.currentTerm = (m₀.world.proc n).node.currentTerm
  log : (m₀.world.proc n).node.log.entries <+: (m.world.proc n).node.log.entries

theorem Unaware.step {C : Cluster} {n : String} {m₀ m m' : MemWorld} {a : MemAction}
    (h : Unaware n m₀ m) (hreach : Reachable C.memStep anyMem C.memInit m)
    (hok : keepsIsolated n m a) (hmove : MemMove C m a m') : Unaware n m₀ m' := by
  have hworld := (mem_world_reachable hreach).mono fun _ _ ha => ha.blank
  have hlead := leadInv_of_reachable hworld
  have hplace : (m.world.proc n).run.electing = false := by
    cases hrun : (m.world.proc n).run.electing with
    | false => rfl
    | true => exact absurd h.state (hlead.electing n hrun)
  have hiso' := hok.step hmove h.isolated
  have hquiet' := h.quiet.step h.isolated hreach hplace hmove
  rcases h.quiet.spared hmove with heq | ⟨b, hb, hstep⟩
  · exact ⟨hiso', hquiet', by rw [heq]; exact h.state, by rw [heq]; exact h.term,
      by rw [heq]; exact h.log⟩
  · obtain ⟨hstate, hterm, hlog⟩ := C.leader_kept (static_of_reachable hworld) hlead hb hstep
      h.state h.quiet.taken
    exact ⟨hiso', hquiet', hstate, hterm.trans h.term, h.log.trans hlog⟩

/-- A leader that is isolated, with nothing for it on its way, is Leader of
its term until `Restore`, and its log only grows. -/
theorem isolated_leader_stays {C : Cluster} {n : String} {m₀ m : MemWorld}
    (h₀ : Reachable C.memStep anyMem C.memInit m₀) (hiso : m₀.isolated n = true)
    (hquiet : m₀.Quiet n) (hs : (m₀.world.proc n).node.state = .leader)
    (h : Reachable C.memStep (keepsIsolated n) m₀ m) :
    (m.world.proc n).node.state = .leader
      ∧ (m.world.proc n).node.currentTerm = (m₀.world.proc n).node.currentTerm
      ∧ (m₀.world.proc n).node.log.entries <+: (m.world.proc n).node.log.entries := by
  have hall : Unaware n m₀ m := by
    refine h.invariant (P := Unaware n m₀) ⟨hiso, hquiet, hs, rfl, List.prefix_rfl⟩ ?_
    intro m a m' hr hunaware hok hstep
    exact hunaware.step (h₀.trans (hr.mono fun _ _ _ => trivial)) hok (C.mem_move hstep)
  exact ⟨hall.state, hall.term, hall.log⟩

/-- `nodeB` wins the second term with the vote of `nodeC`. -/
def memSuccessorRun : List MemAction :=
  [.local "nodeB" .load, .local "nodeB" .timeout, .local "nodeB" .load,
    .local "nodeB" .campaign, .resolveVote 3, .handleVote 3,
    .local "nodeB" (.voteReply 1 1), .local "nodeB" .becomeLeader]

/-- Two leaders at once. -/
theorem isolated_leader_stays_a :
    ∃ m₀ m, Reachable threeInMemory.memStep anyMem threeInMemory.memInit m₀
      ∧ m₀.isolated "nodeA" = true ∧ m₀.Quiet "nodeA"
      ∧ Reachable threeInMemory.memStep (keepsIsolated "nodeA") m₀ m
      ∧ (m.world.proc "nodeA").node.state = .leader
      ∧ (m.world.proc "nodeB").node.state = .leader
      ∧ (m.world.proc "nodeB").node.currentTerm = 2 := by
  obtain ⟨m₀, h₀, hiso, hvotes, happends, hcalls, hidle, hch, hs, hrest⟩ : ∃ m₀,
      Reachable threeInMemory.memStep anyMem threeInMemory.memInit m₀
        ∧ m₀.isolated "nodeA" = true ∧ .resolved ∉ m₀.votes ∧ m₀.appends = []
        ∧ (m₀.world.proc "nodeA").replicates = [] ∧ (m₀.world.proc "nodeA").run = .top
        ∧ (m₀.world.proc "nodeA").stepDownCh = []
        ∧ (m₀.world.proc "nodeA").node.state = .leader
        ∧ (exec threeInMemory.memStep (keepsIsolated "nodeA") [] m₀ memSuccessorRun).any
          (fun r => decide ((r.2.world.proc "nodeB").node.state = .leader
            ∧ (r.2.world.proc "nodeB").node.currentTerm = 2)) = true :=
    Reachable.of_exec_any (memElectRun ++ [.isolate "nodeA"]) (by decide +kernel)
  obtain ⟨m, h, hstate, hterm⟩ := Reachable.of_exec_any memSuccessorRun
    (P := fun m : MemWorld => (m.world.proc "nodeB").node.state = .leader
      ∧ (m.world.proc "nodeB").node.currentTerm = 2) hrest
  have hquiet : m₀.Quiet "nodeA" := by
    refine ⟨⟨?_, ?_⟩, ?_, hch, by simp [hidle]⟩
    · exact fun _ _ _ _ hres => absurd (List.mem_of_getElem? hres) hvotes
    · simp [happends]
    · intro call hawaits
      cases hawaits with
      | heartbeat hrun => cases hidle.symm.trans hrun
      | worker hcall => simp [hcalls] at hcall
  exact ⟨m₀, m, h₀, hiso, hquiet, h,
    (isolated_leader_stays h₀ hiso hquiet hs h).1, hstate, hterm⟩

end RaftStore
