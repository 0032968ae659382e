import RaftStore.OneNode
import RaftStore.Pipeline
import RaftStore.Redelivery

/-!
# Serving clients on the leader

The key-value handlers of `rpc/server.go` on one node, together with the
node's goroutines, its handlers of the other nodes' requests and
`RunApplyLoop`. Between them stand the calls of `Replicate`, the calls of
`applyCommitted`, the channel, and the command that the loop has taken but
not yet applied. The network is arbitrary, but for what election safety
gives: no other node sends entries in this node's term.

A PUT is answered when `Replicate` returns, which is before the loop has
applied its command: a GET right after it may miss the value
(`stale_read`). Nothing is lost on the way, though: until a GET finds the
value, the command of the PUT is with a call of `applyCommitted`, in the
channel or with the loop (`read_your_write`).
-/

namespace RaftStore

open LastWrite Runs

/-! ## Handlers -/

/-- The answers of the handlers, with their status. -/
inductive Answer where
  /-- 200 of `handleGet`. -/
  | found (key value : Bytes)
  /-- 200 of `handlePut`. -/
  | stored (key value : Bytes)
  /-- 204. -/
  | noContent
  /-- 400. -/
  | badRequest (error : String)
  /-- 404. -/
  | notFound (error : String)
  /-- 503. -/
  | unavailable (error : String)
  deriving DecidableEq

def handleGet (s : Store) (key : Bytes) : Answer :=
  match s.get key with
  | .error _ => .badRequest "key cannot be empty"
  | .ok none => .notFound "key not found"
  | .ok (some value) => .found key value

/-- What `handlePut` and `handleDelete` answer when `Replicate` returns. -/
def writeAnswer (e : Entry) : ReplicateResult → Answer
  | .ok =>
      match e.op with
      | .delete => .noContent
      | _ => .stored e.key e.value
  | .timedOut => .unavailable "replication timed out: no majority"
  | .stopped => .unavailable "not the leader"

/-- A request that reached `Replicate`: the number of the call and the
entry. -/
structure Request where
  call : Nat
  entry : Entry
  deriving DecidableEq

/-- One node with its store. `inHand` is the command `RunApplyLoop` is
at; `applied` and `requests` record what it has been through and what the
handlers have passed on. -/
structure Server where
  proc : Proc
  store : Store
  disk : Disk
  inHand : Option Command
  applied : List Command
  requests : List Request

inductive ServeAction where
  | put (key value : Bytes)
  | delete (key : Bytes)
  | node (a : NodeAction)
  | receive
  | apply

/-- The steps of a process that the handlers and the apply loop take. -/
def Local.isServed : Local → Bool
  | .replicate _ => true
  | .applyLoop => true
  | _ => false

def NodeAction.isServed : NodeAction → Bool
  | .own _ a => a.isServed
  | _ => false

/-- The term of the leader whose request it is. -/
def NodeAction.leaderTerm : NodeAction → Option Nat
  | .appendEntries args => some args.term
  | _ => none

namespace Server

/-- `handlePut` and `handleDelete` up to the wait in `Replicate`. A node
that is not Leader, and a body that does not parse, are answered at once
and change nothing. -/
def write (s : Server) (e : Entry) : Option Server :=
  (s.proc.replicate e.marshal).map fun r =>
    { s with
      proc := r.1
      requests := s.requests ++ [⟨s.proc.replicates.length, e⟩] }

/-- `RunApplyLoop` takes a command. -/
def receive (s : Server) : Option Server :=
  match s.inHand, s.proc.applyCh with
  | none, some (cmd :: _) => s.proc.applyLoop.map fun r =>
      { s with proc := r.1, inHand := some cmd }
  | _, _ => none

/-- `RunApplyLoop` applies it, without I/O errors. -/
def apply (s : Server) : Option Server :=
  match s.inHand with
  | some cmd =>
      let s := { s with inHand := none, applied := s.applied ++ [cmd] }
      match unmarshalEntry cmd with
      | none => some s
      | some e =>
          let out := s.store.apply s.disk .ok e
          some { s with store := out.1, disk := out.2.1 }
  | none => none

def step (s : Server) : ServeAction → Option Server
  | .put key value => s.write ⟨.upsert, key, value⟩
  | .delete key => s.write ⟨.delete, key, []⟩
  | .node a =>
      if a.isServed then none
      else (s.proc.act a).map fun p => { s with proc := p }
  | .receive => s.receive
  | .apply => s.apply

/-- What a client that made this request has been told. -/
def answer (s : Server) (q : Request) : Option Answer :=
  match s.proc.replicates[q.call]? with
  | some c =>
      match c.loc with
      | .returned result => some (writeAnswer q.entry result)
      | _ => none
  | none => none

/-- The node is Leader of the same term after the step, and not stopped;
and no other node is Leader of that term. -/
def StaysLeader (s : Server) : ServeAction → Prop
  | .node a => (s.proc.act a).all (fun p =>
      p.node.state = .leader
        && p.node.currentTerm = s.proc.node.currentTerm
        && !p.stopped) = true
      ∧ a.leaderTerm ≠ some s.proc.node.currentTerm
  | _ => True

instance (s : Server) (a : ServeAction) : Decidable (s.StaysLeader a) :=
  match a with
  | .node _ => inferInstanceAs (Decidable (_ = true ∧ _ ≠ _))
  | .put _ _ => isTrue trivial
  | .delete _ => isTrue trivial
  | .receive => isTrue trivial
  | .apply => isTrue trivial

/-- A leader at work, with no call of `Replicate` of an earlier term still
under way. -/
structure Start (s : Server) : Prop where
  leads : s.proc.node.state = .leader
  running : s.proc.stopped = false
  channel : s.proc.applyCh.isSome = true
  positional : s.proc.node.log.Positional
  commit : s.proc.node.commitIndex ≤ s.proc.node.log.lastIndex
  applied : s.proc.node.lastApplied ≤ s.proc.node.log.lastIndex
  calls : ∀ c ∈ s.proc.replicates, ∃ result, c.loc = .returned result
  requests : s.requests = []
  done : s.applied = []

end Server

/-! ## The store -/

instance (e : Entry) : Decidable e.Valid :=
  inferInstanceAs (Decidable (e.key ≠ [] ∧ e.known = true))

/-- The entry with which a command reaches the map, if it does. -/
def effective (unmarshal : Command → Option Entry) (cmd : Command) :
    Option Entry :=
  (unmarshal cmd).filter fun e => e.Valid

theorem effective_valid {unmarshal : Command → Option Entry} {cmd : Command}
    {e : Entry} (h : unmarshal cmd = some e) (hvalid : e.Valid) :
    effective unmarshal cmd = some e :=
  Option.filter_eq_some_iff.mpr ⟨h, decide_eq_true hvalid⟩

theorem Store.apply_ok (s : Store) (d : Disk) (e : Entry) :
    (s.apply d .ok e).1.data
      = if e.Valid then e.write.exec s.data else s.data := by
  unfold Store.apply
  by_cases hkey : e.key = []
  · rw [if_pos hkey, if_neg (fun hv => hv.1 hkey)]
  · rw [if_neg hkey]
    cases hop : e.op with
    | delete =>
        have hvalid : e.Valid := ⟨hkey, by simp [Entry.known, hop]⟩
        have hwrite : Entry.write ⟨.delete, e.key, []⟩ = e.write := by
          simp [Entry.write, hop]
        rw [if_pos hvalid, ← hwrite]
        show (s.delete d .ok e.key).1.data = _
        rw [Store.delete, if_neg hkey]
        exact (s.persistAndApplyLocked_ok d rfl).1
    | upsert =>
        have hvalid : e.Valid := ⟨hkey, by simp [Entry.known, hop]⟩
        have hwrite : Entry.write ⟨.upsert, e.key, e.value⟩ = e.write := by
          simp [Entry.write, hop]
        rw [if_pos hvalid, ← hwrite]
        show (s.upsert d .ok e.key e.value).1.data = _
        rw [Store.upsert, if_neg hkey]
        exact (s.persistAndApplyLocked_ok d rfl).1
    | other name =>
        refine (if_neg ?_).symm
        intro hv
        have := hv.2
        simp [Entry.known, hop] at this

/-! ## The server -/

namespace Server

/-- The command is on its way to the store, or has been there. -/
def OnItsWay (s : Server) (cmd : Command) : Prop :=
  s.proc.Carries cmd ∨ s.inHand = some cmd ∨ cmd ∈ s.applied

/-- The command is in the log or on its way. -/
def Pending (s : Server) (cmd : Command) : Prop :=
  (∃ e ∈ s.proc.node.log.entries, e.command = cmd) ∨ s.OnItsWay cmd

/-- What is known of the call of a request: its entry stands in the log,
and once its index has been claimed its command is on its way. -/
structure Tracks (s : Server) (q : Request) (c : ReplicateCall) : Prop where
  known : q.entry.known = true
  call : s.proc.replicates[q.call]? = some c
  command : c.entry.command = q.entry.marshal
  logged : s.proc.node.log.entryAt c.entry.index = some c.entry
  settled : Settled s.proc c
  claimed : c.entry.index ≤ s.proc.node.lastApplied →
    s.OnItsWay c.entry.command

structure Inv (s₀ s : Server) : Prop where
  running : s.proc.stopped = false
  channel : s.proc.applyCh.isSome = true
  positional : s.proc.node.log.Positional
  commit : s.proc.node.commitIndex ≤ s.proc.node.log.lastIndex
  applied : s.proc.node.lastApplied ≤ s.proc.node.log.lastIndex
  calls : s.proc.CallsWithin
  requests : ∀ q ∈ s.requests, ∃ c, Tracks s q c
  origin : ∀ cmd, s.Pending cmd →
    s₀.Pending cmd ∨ ∃ q ∈ s.requests, cmd = q.entry.marshal
  data : s.store.data
    = replay (s.applied.filterMap (effective unmarshalEntry)) s₀.store.data

variable {s₀ s : Server}

theorem Start.inv (h : s.Start) : Inv s s where
  running := h.running
  channel := h.channel
  positional := h.positional
  commit := h.commit
  applied := h.applied
  calls c hc := .inl (h.calls c hc)
  requests q hq := by
    rw [h.requests] at hq
    cases hq
  origin _ hcmd := .inl hcmd
  data := by rw [h.done]; rfl

theorem Tracks.move {net : Net} {a : Local} {p' : Proc} {out : Output}
    {q : Request} {c : ReplicateCall} {rs : List Request}
    (ht : Tracks s q c) (h : s.proc.Move net a p' out)
    (hpos : s.proc.node.log.Positional)
    (hcommit : s.proc.node.commitIndex ≤ p'.node.commitIndex)
    (hcarry : CarryMove s.proc p') :
    ∃ c', Tracks { s with proc := p', requests := rs } q c' := by
  obtain ⟨c', hc', hentry, hsettled⟩ :=
    settled_move h hcommit ht.call ht.settled
  obtain ⟨hpos', hpre⟩ := log_grows h hpos
  refine ⟨c', ht.known, hc', by rw [hentry]; exact ht.command, ?_, hsettled, ?_⟩
  · rw [hentry]
    have hat := ht.logged
    rw [hpos.entryAt_eq] at hat
    show p'.node.log.entryAt _ = _
    rw [hpos'.entryAt_eq]
    exact LeaderLog.prefix_getElem? hpre hat
  · intro hle
    rw [hentry] at hle ⊢
    by_cases hold : c.entry.index ≤ s.proc.node.lastApplied
    · exact (ht.claimed hold).imp_left (hcarry.kept _)
    · exact .inl (hcarry.claimed _ _ (Nat.lt_of_not_le hold) hle ht.logged)

/-- The steps of the process, together with the requests they open. -/
theorem Inv.move (hinv : Inv s₀ s) {net : Net} {a : Local}
    {p' : Proc} {out : Output} {rs : List Request}
    (h : s.proc.Move net a p' out) (hloop : a ≠ .applyLoop)
    (habandon : ∀ i, a ≠ .abandon i) (hrun : p'.stopped = false)
    (hsub : s.requests ⊆ rs)
    (hnew : ∀ q ∈ rs, q ∈ s.requests
      ∨ ∃ c, Tracks { s with proc := p', requests := rs } q c)
    (hlog : ∀ e ∈ p'.node.log.entries, e ∈ s.proc.node.log.entries
      ∨ ∃ q ∈ rs, e.command = q.entry.marshal) :
    Inv s₀ { s with proc := p', requests := rs } := by
  have hcarry := carry_move h hinv.channel hloop habandon
  have hgrow := lastIndex_grows h hinv.positional
  obtain ⟨hcommit, hcommit'⟩ := commit_move h hinv.positional hinv.commit (by
    intro c hc hloc
    rcases hinv.calls c hc with ⟨result, hret⟩ | hle
    · cases hloc.symm.trans hret
    · exact hle)
  have hold : ∀ cmd, s.Pending cmd →
      s₀.Pending cmd ∨ ∃ q ∈ rs, cmd = q.entry.marshal := by
    intro cmd hcmd
    refine (hinv.origin cmd hcmd).imp_right ?_
    rintro ⟨q, hq, heq⟩
    exact ⟨q, hsub hq, heq⟩
  refine ⟨hrun, hcarry.channel, (log_grows h hinv.positional).1,
    Nat.le_trans hcommit' hgrow, ?_, hinv.calls.move h hinv.positional,
    ?_, ?_, hinv.data⟩
  · refine Nat.le_trans hcarry.bound (Nat.le_trans ?_ hgrow)
    exact Nat.max_le.mpr ⟨hinv.applied, hinv.commit⟩
  · intro q hq
    rcases hnew q hq with hq | hq
    · obtain ⟨c, hc⟩ := hinv.requests q hq
      exact hc.move h hinv.positional hcommit hcarry
    · exact hq
  · rintro cmd (⟨e, he, rfl⟩ | hcmd | hcmd)
    · rcases hlog e he with he | hq
      · exact hold _ (.inl ⟨e, he, rfl⟩)
      · exact .inr hq
    · rcases hcarry.origin cmd hcmd with hcmd | hcmd
      · exact hold cmd (.inr (.inl hcmd))
      · exact hold cmd (.inl hcmd)
    · exact hold cmd (.inr (.inr hcmd))

theorem Inv.own (hinv : Inv s₀ s) {net : Net} {a : Local}
    {p' : Proc} {out : Output} (ha : NodeAction.isServed (.own net a) = false)
    (h : s.proc.step net a = some (p', out)) (hrun : p'.stopped = false) :
    Inv s₀ { s with proc := p' } := by
  refine hinv.move (Proc.move h) ?_ ?_ hrun (fun _ hq => hq)
    (fun _ hq => .inl hq) ?_
  · rintro rfl
    cases ha
  · -- a call of `applyCommitted` gives up only when the node is stopped
    rintro i rfl
    change s.proc.abandon i = _ at h
    unfold Proc.abandon at h
    rw [hinv.running] at h
    split at h <;> cases h
  · rcases log_move (Proc.move h) with hlog | ⟨command, rfl, -⟩
    · rw [hlog]
      exact fun e he => .inl he
    · cases ha

theorem Inv.write (hinv : Inv s₀ s) {e : Entry} {s' : Server} (he : e.known = true)
    (h : s.write e = some s') : Inv s₀ s' := by
  obtain ⟨⟨p', out⟩, hrep, rfl⟩ := Option.map_eq_some_iff.mp h
  have hmove : s.proc.Move ⟨[], [], [], []⟩ (.replicate e.marshal) p' out :=
    Proc.move hrep
  have hpos := hinv.positional
  have happlied := hinv.applied
  have hcall : p'.replicates = s.proc.replicates ++ [s.proc.openCall e.marshal]
      ∧ p'.node = s.proc.node.appendCommand e.marshal
      ∧ p'.stopped = s.proc.stopped := by
    unfold Proc.replicate at hrep
    split at hrep
    · cases hrep
      exact ⟨rfl, rfl, rfl⟩
    · cases hrep
  obtain ⟨hreps, hnode, hstopped⟩ := hcall
  refine hinv.move hmove (by simp) (by simp) (hstopped.trans hinv.running)
    (List.subset_append_left ..) ?_ ?_
  · intro q hq
    rcases List.mem_append.mp hq with hq | hq
    · exact .inl hq
    · obtain rfl := List.mem_singleton.mp hq
      refine .inr ⟨s.proc.openCall e.marshal, he, ?_, rfl, ?_, ?_, ?_⟩
      · show p'.replicates[_]? = _
        rw [hreps]
        exact List.getElem?_concat_length
      · show p'.node.log.entryAt (s.proc.node.log.lastIndex + 1) = _
        rw [(log_grows hmove hpos).1.entryAt_eq, hnode, ← hpos.length_eq]
        exact List.getElem?_concat_length
      · -- the call has just begun to wait
        have hloc : (s.proc.openCall e.marshal).loc.settles = false := by
          unfold Proc.openCall
          dsimp only
          split <;> rfl
        exact .of_not_settles hloc
      · show s.proc.node.log.lastIndex + 1 ≤ p'.node.lastApplied → _
        rw [hnode]
        intro hle
        exact absurd hle (Nat.not_le_of_lt (Nat.lt_succ_of_le happlied))
  · intro x hx
    rw [hnode] at hx
    rcases List.mem_append.mp hx with hx | hx
    · exact .inl hx
    · obtain rfl := List.mem_singleton.mp hx
      exact .inr ⟨_, List.mem_concat_self, rfl⟩

/-- What the other goroutines do: the commands on their way stay the same
ones. -/
theorem Inv.aside (hinv : Inv s₀ s) {s' : Server}
    (hlog : s'.proc.node.log = s.proc.node.log)
    (hbook : s'.proc.node.book = s.proc.node.book)
    (happliers : s'.proc.appliers = s.proc.appliers)
    (hreps : s'.proc.replicates = s.proc.replicates)
    (hstopped : s'.proc.stopped = s.proc.stopped)
    (hchannel : s'.proc.applyCh.isSome = true)
    (hrequests : s'.requests = s.requests)
    (hway : ∀ cmd, s'.OnItsWay cmd ↔ s.OnItsWay cmd)
    (hdata : s'.store.data
      = replay (s'.applied.filterMap (effective unmarshalEntry)) s₀.store.data) :
    Inv s₀ s' := by
  have hcommit : s'.proc.node.commitIndex = s.proc.node.commitIndex :=
    congrArg Book.commitIndex hbook
  have happlied : s'.proc.node.lastApplied = s.proc.node.lastApplied :=
    congrArg Book.lastApplied hbook
  refine ⟨hstopped.trans hinv.running, hchannel, hlog ▸ hinv.positional, ?_, ?_, ?_, ?_, ?_,
    hdata⟩
  · rw [hcommit, hlog]
    exact hinv.commit
  · rw [happlied, hlog]
    exact hinv.applied
  · intro c hc
    rw [hlog]
    exact hinv.calls c (hreps ▸ hc)
  · intro q hq
    obtain ⟨c, hc⟩ := hinv.requests q (hrequests ▸ hq)
    refine ⟨c, hc.known, hreps ▸ hc.call, hc.command, hlog ▸ hc.logged, ⟨?_, ?_⟩, ?_⟩
    · rw [happliers, hcommit, happlied]
      exact hc.settled.applying
    · rw [happlied]
      exact hc.settled.returned
    · rw [happlied, hway]
      exact hc.claimed
  · intro cmd hcmd
    rw [hrequests]
    refine hinv.origin cmd (hcmd.imp ?_ (hway cmd).mp)
    rw [hlog]
    exact id

/-- `HandleRequestVote` leaves log and books as they are. -/
theorem Inv.voted (hinv : Inv s₀ s) {args : RequestVoteArgs} {node : Node}
    {reply : RequestVoteReply} (hout : s.proc.node.VoteOutcome args (node, reply)) :
    Inv s₀ { s with proc := { s.proc with node := node } } :=
  hinv.aside hout.log hout.book rfl rfl rfl hinv.channel rfl (fun _ => Iff.rfl) hinv.data

/-- `HandleAppendEntries` of a leader that stays Leader answers a request
of an earlier term: one of a later term is the end of its own, and one of
the same term would have come from another leader of it. -/
theorem Inv.appended (hinv : Inv s₀ s) {args : AppendEntriesArgs} {node : Node}
    {reply : AppendEntriesReply} {apply : Bool}
    (hout : s.proc.node.AppendOutcome args (node, reply, apply))
    (hterm : node.currentTerm = s.proc.node.currentTerm)
    (hother : args.term ≠ s.proc.node.currentTerm) :
    Inv s₀ { s with proc := s.proc.installed node apply } := by
  have hnext : s.proc.node.currentTerm ≤ args.term →
      node.currentTerm ≠ args.term := by
    intro _ heq
    exact hother (heq.symm.trans hterm)
  cases hout with
  | stale => exact hinv
  | rejected hle hn' =>
      refine absurd ?_ (hnext hle)
      rw [hn']
      exact (s.proc.node.observeLeader_spec hle).1
  | @accepted n' hle hn' =>
      refine absurd ?_ (hnext hle)
      show n'.currentTerm = _
      rw [hn']
      exact (s.proc.node.observeLeader_spec hle).1

theorem Inv.receive (hinv : Inv s₀ s) {s' : Server}
    (h : s.receive = some s') : Inv s₀ s' := by
  unfold Server.receive at h
  split at h
  · rename_i cmd queue hhand hqueue
    rw [Proc.applyLoop, hqueue] at h
    obtain rfl := Option.some.inj h
    refine hinv.aside rfl rfl rfl rfl rfl rfl rfl ?_ hinv.data
    intro x
    simp only [OnItsWay, Proc.Carries, hhand, hqueue, Option.getD_some,
      List.mem_cons, Option.some.injEq, reduceCtorEq, false_or]
    rw [eq_comm (a := cmd), or_assoc, or_assoc, or_assoc,
      or_left_comm (a := x = cmd)]
  · cases h

theorem Inv.apply (hinv : Inv s₀ s) {s' : Server}
    (h : s.apply = some s') : Inv s₀ s' := by
  unfold Server.apply at h
  split at h
  · rename_i cmd hhand
    have hway : ∀ x, (s.proc.Carries x ∨ none = some x ∨ x ∈ s.applied ++ [cmd])
        ↔ s.OnItsWay x := by
      intro x
      simp only [OnItsWay, hhand, List.mem_append, List.mem_singleton,
        Option.some.injEq, reduceCtorEq, false_or]
      rw [eq_comm (a := cmd), or_comm (b := x = cmd)]
    have hdata := hinv.data
    dsimp only at h
    cases hdec : unmarshalEntry cmd with
    | none =>
        rw [hdec] at h
        cases h
        refine hinv.aside rfl rfl rfl rfl rfl hinv.channel rfl hway ?_
        rw [List.filterMap_append]
        simpa [effective, hdec] using hdata
    | some e =>
        rw [hdec] at h
        cases h
        refine hinv.aside rfl rfl rfl rfl rfl hinv.channel rfl hway ?_
        show (s.store.apply s.disk .ok e).1.data = _
        rw [s.store.apply_ok, List.filterMap_append]
        by_cases hvalid : e.Valid
        · rw [if_pos hvalid, List.filterMap_cons_some (effective_valid hdec hvalid),
            List.filterMap_nil, replay_concat, hdata]
        · have heff : [cmd].filterMap (effective unmarshalEntry) = [] := by
            simp [effective, hdec, hvalid]
          rw [if_neg hvalid, heff, List.append_nil, hdata]
  · cases h

theorem Inv.node (hinv : Inv s₀ s) {a : NodeAction} (ha : a.isServed = false) {p' : Proc}
    (h : s.proc.act a = some p') (hterm : p'.node.currentTerm = s.proc.node.currentTerm)
    (hrun : p'.stopped = false) (hother : a.leaderTerm ≠ some s.proc.node.currentTerm) :
    Inv s₀ { s with proc := p' } := by
  cases Proc.acts h with
  | own _ hstep => exact hinv.own ha hstep hrun
  | voted hout => exact hinv.voted hout
  | appended hout =>
      rw [Proc.installed_node] at hterm
      exact hinv.appended hout hterm fun heq => hother (congrArg some heq)

theorem Inv.step (hinv : Inv s₀ s) {a : ServeAction} {s' : Server}
    (hstays : s.StaysLeader a) (h : s.step a = some s') : Inv s₀ s' := by
  cases a with
  | put key value => exact hinv.write rfl h
  | delete key => exact hinv.write rfl h
  | node a =>
      change (if a.isServed then none else _) = _ at h
      split at h
      · cases h
      · obtain ⟨p', hact, rfl⟩ := Option.map_eq_some_iff.mp h
        obtain ⟨hleads, hother⟩ := hstays
        rw [hact] at hleads
        simp only [Option.all_some, Bool.and_eq_true, decide_eq_true_eq,
          Bool.not_eq_true'] at hleads
        exact hinv.node (Bool.eq_false_of_not_eq_true ‹_›) hact hleads.1.2 hleads.2 hother
  | receive => exact hinv.receive h
  | apply => exact hinv.apply h

theorem inv_reachable (h₀ : s₀.Start) (h : Reachable Server.step StaysLeader s₀ s) :
    Inv s₀ s :=
  h.invariant h₀.inv fun _ _ _ _ hinv hstays hstep => hinv.step hstays hstep

/-- A PUT that was answered 200 has its command on its way. -/
theorem Inv.stored (hinv : Inv s₀ s) {q : Request}
    (hq : q ∈ s.requests) {key value : Bytes}
    (h : s.answer q = some (.stored key value)) :
    s.OnItsWay q.entry.marshal := by
  obtain ⟨c, hc⟩ := hinv.requests q hq
  rw [answer, hc.call] at h
  dsimp only at h
  split at h
  · rename_i result hloc
    obtain rfl : result = .ok := by
      cases result with
      | ok => rfl
      | timedOut => cases Option.some.inj h
      | stopped => cases Option.some.inj h
    rw [← hc.command]
    exact hc.claimed (hc.settled.returned hloc)
  · cases h

/-- The entry of a command that has been applied: from before the start, or
what JSON has made of a request. -/
theorem Inv.applied_entry (hinv : Inv s₀ s) {k : Bytes}
    (hold : ∀ cmd e, s₀.Pending cmd → unmarshalEntry cmd = some e → e.key ≠ k) {e : Entry}
    (he : e ∈ s.applied.filterMap (effective unmarshalEntry)) (hkey : e.key = k) :
    ∃ q ∈ s.requests, e = q.entry.coerced := by
  obtain ⟨cmd, hcmd, heff⟩ := List.mem_filterMap.mp he
  have hdec : unmarshalEntry cmd = some e := (Option.filter_eq_some_iff.mp heff).1
  rcases hinv.origin cmd (.inr (.inr (.inr hcmd))) with hpending | ⟨q, hq, rfl⟩
  · exact absurd hkey (hold cmd e hpending hdec)
  · obtain ⟨c, hc⟩ := hinv.requests q hq
    rw [unmarshal_marshal hc.known] at hdec
    exact ⟨q, hq, (Option.some.inj hdec).symm⟩

end Server

/-- A PUT of `k` was answered 200 and no other write was issued that JSON
brings to `k`. Then a GET finds the value, unless the PUT's own command is
still with a call of `applyCommitted`, in the channel or in the hands of
`RunApplyLoop`. -/
theorem read_your_write {s₀ s : Server} (h₀ : s₀.Start)
    (h : Reachable Server.step Server.StaysLeader s₀ s)
    {k v : Bytes} (hk : k ≠ []) (hkey : Utf8.Valid k) (hvalue : Utf8.Valid v)
    {q : Request} (hq : q ∈ s.requests) (hentry : q.entry = ⟨.upsert, k, v⟩)
    (hanswer : s.answer q = some (.stored k v))
    (hother : ∀ q' ∈ s.requests, q' ≠ q → q'.entry.coerced.key ≠ k)
    (hold : ∀ cmd e, s₀.Pending cmd → unmarshalEntry cmd = some e → e.key ≠ k) :
    handleGet s.store k = .found k v
      ∨ s.proc.Carries q.entry.marshal
      ∨ s.inHand = some q.entry.marshal := by
  have hinv := Server.inv_reachable h₀ h
  rcases hinv.stored hq hanswer with hcarries | hhand | happlied
  · exact .inr (.inl hcarries)
  · exact .inr (.inr hhand)
  · left
    have hknown : q.entry.known = true := by rw [hentry]; rfl
    have hself : q.entry.coerced = ⟨.upsert, k, v⟩ := by
      rw [hentry]
      exact Entry.coerced_eq_self.mpr ⟨hkey, hvalue⟩
    have hvalid : q.entry.coerced.Valid := by
      rw [hself]
      exact ⟨hk, rfl⟩
    have hmem : q.entry.coerced ∈ s.applied.filterMap (effective unmarshalEntry) :=
      List.mem_filterMap.mpr
        ⟨_, happlied, effective_valid (unmarshal_marshal hknown) hvalid⟩
    have hget : s.store.data k = some v := by
      rw [hinv.data]
      refine run_agreed ⟨_, List.mem_map_of_mem hmem, by rw [hself]; rfl⟩ ?_
      intro w hw hwk
      obtain ⟨e, he, rfl⟩ := List.mem_map.mp hw
      obtain ⟨q', hq', rfl⟩ := hinv.applied_entry hold he hwk
      obtain rfl : q' = q := by
        by_contra hne
        exact hother q' hq' hne hwk
      rw [hself]
      rfl
    unfold handleGet Store.get
    rw [if_neg hk]
    simp only [hget]

/-! ## One PUT -/

/-- A new leader of three nodes. -/
def electedServer : Server where
  proc := { newProc "a" ["b", "c"] true with
    node := (newNode "a" ["b", "c"]).electionTimeout.startElection.becomeLeader 1 }
  store := newStore .file .file
  disk := .empty
  inHand := none
  applied := []
  requests := []

theorem electedServer_start : electedServer.Start where
  leads := by decide
  running := rfl
  channel := rfl
  positional := LogStore.positional_new
  commit := Nat.le_refl _
  applied := Nat.le_refl _
  calls c hc := by cases hc
  requests := rfl
  done := rfl

def onePut : Request := ⟨0, ⟨.upsert, [97], [49]⟩⟩

/-- A PUT, the reply of one follower, and the call's `applyCommitted`; the
client is answered while the command is in the channel. -/
def putSteps : List ServeAction :=
  let net : Net := ⟨[], [], [], []⟩
  let answered : Net := ⟨[], [], [], [(0, ⟨1, true⟩)]⟩
  [.put [97] [49], .node (.own net (.replicateSend 0 0)),
    .node (.own answered (.replicateReply 0 0 0)), .node (.own net (.receiveAck 0 0)),
    .node (.own net (.replicateCommit 0)), .node (.own net (.collect 0)),
    .node (.own net (.send 0)), .node (.own net (.replicateReturn 0))]

theorem read_your_write_a :
    ∃ s, Reachable Server.step Server.StaysLeader electedServer s
      ∧ s.answer onePut = some (.stored [97] [49])
      ∧ handleGet s.store [97] = .found [97] [49] := by
  obtain ⟨s, hr, hrequests, hanswer, happliers, hqueue, hhand⟩ :
      ∃ s, Reachable Server.step Server.StaysLeader electedServer s
        ∧ s.requests = [onePut]
        ∧ s.answer onePut = some (.stored [97] [49])
        ∧ s.proc.appliers = [.done] ∧ s.proc.applyCh = some []
        ∧ s.inHand = none :=
    Reachable.of_exec_any (putSteps ++ [.receive, .apply]) (by decide +kernel)
  have honly : ∀ q ∈ s.requests, q = onePut := by
    intro q hq
    rw [hrequests] at hq
    exact List.mem_singleton.mp hq
  have hgot := read_your_write electedServer_start hr (by decide) (by decide +kernel)
    (by decide +kernel) (hrequests ▸ List.mem_singleton_self onePut) rfl hanswer
    (fun q hq hne => absurd (honly q hq) hne)
    (by
      rintro cmd e (⟨x, hx, rfl⟩ | ⟨⟨i, rest, x, hi, -⟩ | hno⟩ | hno | hno) hdec
      · rw [List.mem_singleton.mp hx] at hdec
        cases hdec
      · cases hi
      · cases hno
      · cases hno
      · cases hno)
  refine ⟨s, hr, hanswer, ?_⟩
  rcases hgot with hfound | (⟨i, rest, x, hi, -⟩ | hmem) | hhand'
  · exact hfound
  · rw [happliers] at hi
    cases List.mem_singleton.mp (List.mem_of_getElem? hi)
  · rw [hqueue] at hmem
    cases hmem
  · rw [hhand] at hhand'
    cases hhand'

/-- The 200 is out and the key is not there. -/
theorem stale_read :
    ∃ s, Reachable Server.step Server.StaysLeader electedServer s
      ∧ s.requests = [onePut]
      ∧ s.answer onePut = some (.stored [97] [49])
      ∧ handleGet s.store [97] = .notFound "key not found" :=
  Reachable.of_exec_any putSteps (by decide +kernel)

end RaftStore
