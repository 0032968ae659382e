import RaftStore.FileWal
import RaftStore.Handlers
import RaftStore.Lib.JsonRead
import RaftStore.Peers

/-!
# Calls over HTTP

In the cluster a request reaches the handler of the peer as it was made.
Here is what happens to it on the way: `rpc/client.go` writes the arguments
as JSON and posts them, `rpc/server.go` reads them into its own variable,
calls the handler of `raft/election.go` and writes the reply, and the client
reads that.

The types are those of the source: terms and indices of 64 bits, ids of any
bytes, and slices that may be nil. All of it arrives, except that an id is
made valid UTF-8 (`voteArgs_arrive`, `appendArgs_arrive`). So a call of the
transport that is answered is a call of the handler, with the arguments the
caller gave if its id is text (`http_call_is_handler_call`).

JSON is that of `encoding/json`. The server is built on gin, which is not
part of the repository: `Gin` holds the functions it is used by, whatever
they are, and `Gin.Documented` what is assumed of them.
-/

namespace RaftStore

open Utf8

/-! ## Messages -/

/-- `LogEntry` on the wire; the command may be nil. -/
structure WireEntry where
  term : UInt64
  index : UInt64
  command : Option Bytes
  deriving DecidableEq

structure WireVoteArgs where
  term : UInt64
  candidateID : Bytes
  lastLogIndex : UInt64
  lastLogTerm : UInt64
  deriving DecidableEq

structure WireVoteReply where
  term : UInt64
  voteGranted : Bool
  deriving DecidableEq

structure WireAppendArgs where
  term : UInt64
  leaderID : Bytes
  prevLogIndex : UInt64
  prevLogTerm : UInt64
  entries : Option (List WireEntry)
  leaderCommit : UInt64
  deriving DecidableEq

structure WireAppendReply where
  term : UInt64
  success : Bool
  deriving DecidableEq

/-! ## Writing

`json.Marshal`: the fields in their order, under their own names. -/

def writeUInt64 (v : UInt64) : Bytes := Json.decimal v.toNat

/-- A nil slice is written as null. -/
def writeCommand : Option Bytes → Bytes
  | none => Json.nullText
  | some command => Json.writeBytes command

def WireEntry.marshal (e : WireEntry) : Bytes :=
  Json.writeFields [(utf8 "Term", writeUInt64 e.term), (utf8 "Index", writeUInt64 e.index),
    (utf8 "Command", writeCommand e.command)]

def writeEntries : Option (List WireEntry) → Bytes
  | none => Json.nullText
  | some es => Json.writeArray (es.map WireEntry.marshal)

def WireVoteArgs.marshal (a : WireVoteArgs) : Bytes :=
  Json.writeFields [(utf8 "Term", writeUInt64 a.term),
    (utf8 "CandidateID", Json.quote a.candidateID),
    (utf8 "LastLogIndex", writeUInt64 a.lastLogIndex),
    (utf8 "LastLogTerm", writeUInt64 a.lastLogTerm)]

def WireVoteReply.marshal (r : WireVoteReply) : Bytes :=
  Json.writeFields [(utf8 "Term", writeUInt64 r.term),
    (utf8 "VoteGranted", Json.writeBool r.voteGranted)]

def WireAppendArgs.marshal (a : WireAppendArgs) : Bytes :=
  Json.writeFields [(utf8 "Term", writeUInt64 a.term),
    (utf8 "LeaderID", Json.quote a.leaderID),
    (utf8 "PrevLogIndex", writeUInt64 a.prevLogIndex),
    (utf8 "PrevLogTerm", writeUInt64 a.prevLogTerm),
    (utf8 "Entries", writeEntries a.entries),
    (utf8 "LeaderCommit", writeUInt64 a.leaderCommit)]

def WireAppendReply.marshal (r : WireAppendReply) : Bytes :=
  Json.writeFields [(utf8 "Term", writeUInt64 r.term),
    (utf8 "Success", Json.writeBool r.success)]

/-! ## Reading

A member goes to the field whose name it has up to case, and a member of
another name is skipped. -/

def foldName (name : Bytes) : String :=
  String.ofList ((runes name).map fun r => foldRune (r.getD replacement))

/-- Read into one field of a variable. -/
def readInto {α σ : Type} (p : Json.Parser α) (set : α → σ) : Json.Parser σ := fun bs =>
  (p bs).map fun r => (set r.1, r.2)

def readUInt64 {σ : Type} (old : UInt64) (set : UInt64 → σ) : Json.Parser σ :=
  readInto (Json.uint 64 old.toNat) fun n => set n.toUInt64

def WireEntry.field (name : Bytes) (e : WireEntry) : Json.Parser WireEntry :=
  if foldName name = "TERM" then readUInt64 e.term fun v => { e with term := v }
  else if foldName name = "INDEX" then readUInt64 e.index fun v => { e with index := v }
  else if foldName name = "COMMAND" then readInto Json.bytes fun v => { e with command := v }
  else Json.skip 9997 e

def WireEntry.read : Json.Parser WireEntry := Json.object WireEntry.field ⟨0, 0, none⟩

def WireVoteArgs.field (name : Bytes) (a : WireVoteArgs) : Json.Parser WireVoteArgs :=
  if foldName name = "TERM" then readUInt64 a.term fun v => { a with term := v }
  else if foldName name = "CANDIDATEID" then
    readInto (Json.text a.candidateID) fun v => { a with candidateID := v }
  else if foldName name = "LASTLOGINDEX" then
    readUInt64 a.lastLogIndex fun v => { a with lastLogIndex := v }
  else if foldName name = "LASTLOGTERM" then
    readUInt64 a.lastLogTerm fun v => { a with lastLogTerm := v }
  else Json.skip 9999 a

def WireVoteArgs.read : Json.Parser WireVoteArgs :=
  Json.object WireVoteArgs.field ⟨0, [], 0, 0⟩

def WireVoteReply.field (name : Bytes) (r : WireVoteReply) : Json.Parser WireVoteReply :=
  if foldName name = "TERM" then readUInt64 r.term fun v => { r with term := v }
  else if foldName name = "VOTEGRANTED" then
    readInto (Json.boolean r.voteGranted) fun v => { r with voteGranted := v }
  else Json.skip 9999 r

def WireVoteReply.read : Json.Parser WireVoteReply :=
  Json.object WireVoteReply.field ⟨0, false⟩

def WireAppendArgs.field (name : Bytes) (a : WireAppendArgs) :
    Json.Parser WireAppendArgs :=
  if foldName name = "TERM" then readUInt64 a.term fun v => { a with term := v }
  else if foldName name = "LEADERID" then
    readInto (Json.text a.leaderID) fun v => { a with leaderID := v }
  else if foldName name = "PREVLOGINDEX" then
    readUInt64 a.prevLogIndex fun v => { a with prevLogIndex := v }
  else if foldName name = "PREVLOGTERM" then
    readUInt64 a.prevLogTerm fun v => { a with prevLogTerm := v }
  else if foldName name = "ENTRIES" then
    readInto (Json.slice WireEntry.read) fun v => { a with entries := v }
  else if foldName name = "LEADERCOMMIT" then
    readUInt64 a.leaderCommit fun v => { a with leaderCommit := v }
  else Json.skip 9999 a

def WireAppendArgs.read : Json.Parser WireAppendArgs :=
  Json.object WireAppendArgs.field ⟨0, [], 0, 0, none, 0⟩

def WireAppendReply.field (name : Bytes) (r : WireAppendReply) :
    Json.Parser WireAppendReply :=
  if foldName name = "TERM" then readUInt64 r.term fun v => { r with term := v }
  else if foldName name = "SUCCESS" then
    readInto (Json.boolean r.success) fun v => { r with success := v }
  else Json.skip 9999 r

def WireAppendReply.read : Json.Parser WireAppendReply :=
  Json.object WireAppendReply.field ⟨0, false⟩

/-! ## Messages arrive -/

section Takes

variable {α σ : Type} {p : Json.Parser α} {t : Bytes} {v : α}

theorem takes_readInto (h : Json.Takes p t v) (set : α → σ) :
    Json.Takes (readInto p set) t (set v) := by
  intro rest hrest
  rw [readInto, h rest hrest]
  rfl

theorem takes_readUInt64 (old v : UInt64) (set : UInt64 → σ) :
    Json.Takes (readUInt64 old set) (writeUInt64 v) (set v) := by
  have h := takes_readInto (Json.takes_uint v.toNat_lt old.toNat) fun n => set n.toUInt64
  have hv : v.toNat.toUInt64 = v := by simp
  rw [hv] at h
  exact h

theorem takes_command (command : Option Bytes) :
    Json.Takes Json.bytes (writeCommand command) command := by
  cases command with
  | none => exact Json.takes_null _ _
  | some command => exact Json.takes_bytes command

end Takes

/-- The names of the fields, folded. -/
theorem foldName_fields :
    foldName (toValid (utf8 "Term")) = "TERM"
      ∧ foldName (toValid (utf8 "Index")) = "INDEX"
      ∧ foldName (toValid (utf8 "Command")) = "COMMAND"
      ∧ foldName (toValid (utf8 "CandidateID")) = "CANDIDATEID"
      ∧ foldName (toValid (utf8 "LastLogIndex")) = "LASTLOGINDEX"
      ∧ foldName (toValid (utf8 "LastLogTerm")) = "LASTLOGTERM"
      ∧ foldName (toValid (utf8 "VoteGranted")) = "VOTEGRANTED"
      ∧ foldName (toValid (utf8 "LeaderID")) = "LEADERID"
      ∧ foldName (toValid (utf8 "PrevLogIndex")) = "PREVLOGINDEX"
      ∧ foldName (toValid (utf8 "PrevLogTerm")) = "PREVLOGTERM"
      ∧ foldName (toValid (utf8 "Entries")) = "ENTRIES"
      ∧ foldName (toValid (utf8 "LeaderCommit")) = "LEADERCOMMIT"
      ∧ foldName (toValid (utf8 "Success")) = "SUCCESS" := by
  decide +kernel

theorem entry_arrives (e : WireEntry) : Json.Takes WireEntry.read e.marshal e := by
  have hterm (e : WireEntry) (v : UInt64) :
      Json.Takes (WireEntry.field (toValid (utf8 "Term")) e) (writeUInt64 v)
        { e with term := v } := by
    simpa [WireEntry.field, foldName_fields] using takes_readUInt64 e.term v _
  have hindex (e : WireEntry) (v : UInt64) :
      Json.Takes (WireEntry.field (toValid (utf8 "Index")) e) (writeUInt64 v)
        { e with index := v } := by
    simpa [WireEntry.field, foldName_fields] using takes_readUInt64 e.index v _
  have hcommand (e : WireEntry) (v : Option Bytes) :
      Json.Takes (WireEntry.field (toValid (utf8 "Command")) e) (writeCommand v)
        { e with command := v } := by
    simpa [WireEntry.field, foldName_fields] using takes_readInto (takes_command v) _
  exact Json.takes_object
    (.cons (hterm _ _) (.cons (hindex _ _) (.cons (hcommand _ _) (.nil _))))

theorem entries_arrive (entries : Option (List WireEntry)) :
    Json.Takes (Json.slice WireEntry.read) (writeEntries entries) entries := by
  cases entries with
  | none => exact Json.takes_null _ _
  | some es =>
      refine Json.takes_slice ?_ ?_
      · rw [List.forall₂_map_left_iff, List.forall₂_same]
        exact fun e _ => entry_arrives e
      · intro t ht
        obtain ⟨e, -, rfl⟩ := List.mem_map.mp ht
        exact Json.opens_writeFields _

/-- The request as it arrives. -/
def WireVoteArgs.coerced (a : WireVoteArgs) : WireVoteArgs :=
  { a with candidateID := toValid a.candidateID }

theorem voteArgs_arrive (a : WireVoteArgs) :
    Json.Takes WireVoteArgs.read a.marshal a.coerced := by
  have hterm (a : WireVoteArgs) (v : UInt64) :
      Json.Takes (WireVoteArgs.field (toValid (utf8 "Term")) a) (writeUInt64 v)
        { a with term := v } := by
    simpa [WireVoteArgs.field, foldName_fields] using takes_readUInt64 a.term v _
  have hcandidate (a : WireVoteArgs) (v : Bytes) :
      Json.Takes (WireVoteArgs.field (toValid (utf8 "CandidateID")) a) (Json.quote v)
        { a with candidateID := toValid v } := by
    simpa [WireVoteArgs.field, foldName_fields]
      using takes_readInto (Json.takes_text a.candidateID v) _
  have hindex (a : WireVoteArgs) (v : UInt64) :
      Json.Takes (WireVoteArgs.field (toValid (utf8 "LastLogIndex")) a) (writeUInt64 v)
        { a with lastLogIndex := v } := by
    simpa [WireVoteArgs.field, foldName_fields] using takes_readUInt64 a.lastLogIndex v _
  have hlast (a : WireVoteArgs) (v : UInt64) :
      Json.Takes (WireVoteArgs.field (toValid (utf8 "LastLogTerm")) a) (writeUInt64 v)
        { a with lastLogTerm := v } := by
    simpa [WireVoteArgs.field, foldName_fields] using takes_readUInt64 a.lastLogTerm v _
  exact Json.takes_object (.cons (hterm _ _) (.cons (hcandidate _ _)
    (.cons (hindex _ _) (.cons (hlast _ _) (.nil _)))))

theorem voteReply_arrives (r : WireVoteReply) :
    Json.Takes WireVoteReply.read r.marshal r := by
  have hterm (r : WireVoteReply) (v : UInt64) :
      Json.Takes (WireVoteReply.field (toValid (utf8 "Term")) r) (writeUInt64 v)
        { r with term := v } := by
    simpa [WireVoteReply.field, foldName_fields] using takes_readUInt64 r.term v _
  have hgranted (r : WireVoteReply) (v : Bool) :
      Json.Takes (WireVoteReply.field (toValid (utf8 "VoteGranted")) r) (Json.writeBool v)
        { r with voteGranted := v } := by
    simpa [WireVoteReply.field, foldName_fields]
      using takes_readInto (Json.takes_boolean r.voteGranted v) _
  exact Json.takes_object (.cons (hterm _ _) (.cons (hgranted _ _) (.nil _)))

def WireAppendArgs.coerced (a : WireAppendArgs) : WireAppendArgs :=
  { a with leaderID := toValid a.leaderID }

theorem appendArgs_arrive (a : WireAppendArgs) :
    Json.Takes WireAppendArgs.read a.marshal a.coerced := by
  have hterm (a : WireAppendArgs) (v : UInt64) :
      Json.Takes (WireAppendArgs.field (toValid (utf8 "Term")) a) (writeUInt64 v)
        { a with term := v } := by
    simpa [WireAppendArgs.field, foldName_fields] using takes_readUInt64 a.term v _
  have hleader (a : WireAppendArgs) (v : Bytes) :
      Json.Takes (WireAppendArgs.field (toValid (utf8 "LeaderID")) a) (Json.quote v)
        { a with leaderID := toValid v } := by
    simpa [WireAppendArgs.field, foldName_fields]
      using takes_readInto (Json.takes_text a.leaderID v) _
  have hprev (a : WireAppendArgs) (v : UInt64) :
      Json.Takes (WireAppendArgs.field (toValid (utf8 "PrevLogIndex")) a) (writeUInt64 v)
        { a with prevLogIndex := v } := by
    simpa [WireAppendArgs.field, foldName_fields] using takes_readUInt64 a.prevLogIndex v _
  have hprevTerm (a : WireAppendArgs) (v : UInt64) :
      Json.Takes (WireAppendArgs.field (toValid (utf8 "PrevLogTerm")) a) (writeUInt64 v)
        { a with prevLogTerm := v } := by
    simpa [WireAppendArgs.field, foldName_fields] using takes_readUInt64 a.prevLogTerm v _
  have hentries (a : WireAppendArgs) (v : Option (List WireEntry)) :
      Json.Takes (WireAppendArgs.field (toValid (utf8 "Entries")) a) (writeEntries v)
        { a with entries := v } := by
    simpa [WireAppendArgs.field, foldName_fields] using takes_readInto (entries_arrive v) _
  have hcommit (a : WireAppendArgs) (v : UInt64) :
      Json.Takes (WireAppendArgs.field (toValid (utf8 "LeaderCommit")) a) (writeUInt64 v)
        { a with leaderCommit := v } := by
    simpa [WireAppendArgs.field, foldName_fields] using takes_readUInt64 a.leaderCommit v _
  exact Json.takes_object (.cons (hterm _ _) (.cons (hleader _ _) (.cons (hprev _ _)
    (.cons (hprevTerm _ _) (.cons (hentries _ _) (.cons (hcommit _ _) (.nil _)))))))

theorem appendReply_arrives (r : WireAppendReply) :
    Json.Takes WireAppendReply.read r.marshal r := by
  have hterm (r : WireAppendReply) (v : UInt64) :
      Json.Takes (WireAppendReply.field (toValid (utf8 "Term")) r) (writeUInt64 v)
        { r with term := v } := by
    simpa [WireAppendReply.field, foldName_fields] using takes_readUInt64 r.term v _
  have hsuccess (r : WireAppendReply) (v : Bool) :
      Json.Takes (WireAppendReply.field (toValid (utf8 "Success")) r) (Json.writeBool v)
        { r with success := v } := by
    simpa [WireAppendReply.field, foldName_fields]
      using takes_readInto (Json.takes_boolean r.success v) _
  exact Json.takes_object (.cons (hterm _ _) (.cons (hsuccess _ _) (.nil _)))

/-! ## Bodies -/

structure HttpReply where
  status : Nat
  body : Bytes
  deriving DecidableEq

/-- `Decoder.Decode` reads the first value of a body and does not look at
what follows. -/
def decodeBody {α : Type} (p : Json.Parser α) (body : Bytes) : Option α :=
  (p body).map Prod.fst

theorem decodeBody_takes {α : Type} {p : Json.Parser α} {body : Bytes} {v : α}
    (h : Json.Takes p body v) : decodeBody p body = some v := by
  have := h [] Json.closes_nil
  rw [List.append_nil] at this
  rw [decodeBody, this]
  rfl

/-! ## gin -/

structure Gin where
  /-- What is called for a path, of the handlers registered for a method. -/
  route {η : Type} : List (Bytes × η) → Bytes → Option η
  /-- The answer if there is none. -/
  noRoute : HttpReply
  /-- `Context.ShouldBindJSON`, for a variable that is read by this parser;
  the error is its text. -/
  shouldBindJSON {α : Type} : Json.Parser α → Bytes → Except Bytes α
  /-- `Context.JSON`, for an object that is written as this JSON. -/
  json : Nat → Bytes → HttpReply
  /-- `Context.Status`. -/
  status : Nat → HttpReply

/-- What is assumed of gin, as it documents it. -/
structure Gin.Documented (g : Gin) : Prop where
  /-- A path without parameters, that is, without `:` and `*`, calls the
  handler that was registered for it. -/
  route : ∀ {η : Type} {routes : List (Bytes × η)} {path : Bytes} {handler : η},
    (routes.map Prod.fst).Nodup → (∀ r ∈ routes, 58 ∉ r.1 ∧ 42 ∉ r.1) →
      (path, handler) ∈ routes → g.route routes path = some handler
  /-- Bodies are read by `encoding/json`; the types here ask for no validation. -/
  bind : ∀ {α : Type} (p : Json.Parser α) (body : Bytes),
    (g.shouldBindJSON p body).toOption = decodeBody p body
  json_status : ∀ code text, (g.json code text).status = code
  /-- The body is the object as JSON. -/
  json_body : ∀ {α : Type} {p : Json.Parser α} {text : Bytes} {v : α} (code : Nat),
    Json.Takes p text v → decodeBody p (g.json code text).body = some v

theorem Gin.Documented.bind_ok {g : Gin} (hg : g.Documented) {α : Type}
    {p : Json.Parser α} {body : Bytes} {v : α} (h : decodeBody p body = some v) :
    g.shouldBindJSON p body = .ok v := by
  have hbind := hg.bind p body
  rw [h] at hbind
  cases hok : g.shouldBindJSON p body with
  | error err =>
      rw [hok] at hbind
      cases hbind
  | ok v' =>
      rw [hok] at hbind
      cases hbind
      rfl

/-- One that does this and no more. -/
def plainGin : Gin where
  route routes path := (routes.find? fun r => r.1 = path).map Prod.snd
  noRoute := ⟨404, utf8 "404 page not found"⟩
  shouldBindJSON p body := (decodeBody p body).elim (.error (utf8 "invalid JSON")) .ok
  json code text := ⟨code, text⟩
  status code := ⟨code, []⟩

theorem plainGin_documented : plainGin.Documented where
  route {η routes path handler} hnodup _ hmem := by
    show (routes.find? fun r => r.1 = path).map Prod.snd = some handler
    have hsome : (routes.find? fun r => r.1 = path).isSome = true :=
      List.find?_isSome.mpr ⟨_, hmem, decide_eq_true rfl⟩
    obtain ⟨r, hr⟩ := Option.isSome_iff_exists.mp hsome
    have hfound := List.find?_some hr
    have hpath : r.1 = path := of_decide_eq_true hfound
    have heq : r = (path, handler) :=
      List.inj_on_of_nodup_map hnodup (List.mem_of_find?_eq_some hr) hmem hpath
    rw [hr, heq]
    rfl
  bind p body := by
    show Except.toOption ((decodeBody p body).elim (Except.error (utf8 "invalid JSON")) Except.ok)
      = _
    cases decodeBody p body <;> rfl
  json_status _ _ := rfl
  json_body _ h := decodeBody_takes h

/-! ## The server -/

/-- The handlers of `raft` with the numbers of the source; an id is the
same name in both. -/
def WireEntry.toEntry (e : WireEntry) : LogEntry :=
  ⟨e.term.toNat, e.index.toNat, e.command.getD []⟩

def WireVoteArgs.toArgs (a : WireVoteArgs) : RequestVoteArgs :=
  ⟨a.term.toNat, Text.latin1 a.candidateID, a.lastLogIndex.toNat, a.lastLogTerm.toNat⟩

def WireAppendArgs.toArgs (a : WireAppendArgs) : AppendEntriesArgs :=
  ⟨a.term.toNat, Text.latin1 a.leaderID, a.prevLogIndex.toNat, a.prevLogTerm.toNat,
    (a.entries.getD []).map WireEntry.toEntry, a.leaderCommit.toNat⟩

def wireVoteReply (r : RequestVoteReply) : WireVoteReply := ⟨r.term.toUInt64, r.voteGranted⟩

def wireAppendReply (r : AppendEntriesReply) : WireAppendReply := ⟨r.term.toUInt64, r.success⟩

def WireVoteReply.toReply (r : WireVoteReply) : RequestVoteReply := ⟨r.term.toNat, r.voteGranted⟩

def WireAppendReply.toReply (r : WireAppendReply) : AppendEntriesReply :=
  ⟨r.term.toNat, r.success⟩

section Server

variable (g : Gin)

/-- `gin.H{"error": err.Error()}`. -/
def badRequest (err : Bytes) : HttpReply :=
  g.json 400 (Json.writeFields [(utf8 "error", Json.quote err)])

/-- `Server.handleRequestVote`. -/
def Proc.serveRequestVote (p : Proc) (body : Bytes) : Proc × HttpReply :=
  match g.shouldBindJSON WireVoteArgs.read body with
  | .error err => (p, badRequest g err)
  | .ok args =>
      let (node, reply) := p.node.handleRequestVote args.toArgs
      ({ p with node := node }, g.json 200 (wireVoteReply reply).marshal)

/-- `Server.handleAppendEntries`. -/
def Proc.serveAppendEntries (p : Proc) (body : Bytes) : Proc × HttpReply :=
  match g.shouldBindJSON WireAppendArgs.read body with
  | .error err => (p, badRequest g err)
  | .ok args =>
      let (node, reply, apply) := p.node.handleAppendEntries args.toArgs
      let p := { p with node := node }
      (if apply then p.startApply else p, g.json 200 (wireAppendReply reply).marshal)

def requestVotePath : Bytes := utf8 "/raft/request-vote"

def appendEntriesPath : Bytes := utf8 "/raft/append-entries"

/-- What `routes` registers for POST. -/
def Proc.postRoutes (p : Proc) : List (Bytes × (Bytes → Proc × HttpReply)) :=
  [(requestVotePath, p.serveRequestVote g), (appendEntriesPath, p.serveAppendEntries g)]

def Proc.servePost (p : Proc) (path body : Bytes) : Proc × HttpReply :=
  match g.route (p.postRoutes g) path with
  | some handler => handler body
  | none => (p, g.noRoute)

/-- The network with this process behind the address `base`. -/
def exchangeAt (base : Bytes) (p : Proc) (addr path body : Bytes) :
    Proc × Option HttpReply :=
  if addr = base then
    let out := p.servePost g path body
    (out.1, some out.2)
  else (p, none)

variable {g}

theorem Proc.servePost_route (hg : g.Documented) (p : Proc) {path : Bytes}
    {handler : Bytes → Proc × HttpReply} (h : (path, handler) ∈ p.postRoutes g) (body : Bytes) :
    p.servePost g path body = handler body := by
  have hnodup : ((p.postRoutes g).map Prod.fst).Nodup := by
    show [requestVotePath, appendEntriesPath].Nodup
    decide +kernel
  have hstatic : ∀ path ∈ [requestVotePath, appendEntriesPath], 58 ∉ path ∧ 42 ∉ path := by
    decide +kernel
  have hroute := hg.route hnodup
    (fun r hr => hstatic r.1 (List.mem_map_of_mem (f := Prod.fst) hr)) h
  rw [servePost, hroute]

end Server

/-! ## The client -/

inductive TransportError where
  | notReachable (peerID : Bytes)
  | status (peerID : Bytes) (code : Nat)
  | decode
  deriving DecidableEq

/-- `HTTPTransport.post`. `exchange` is the exchange with the server at an
address, on a state of its own; there may be no answer. -/
def post {σ ρ : Type} (peers : PeerMap)
    (exchange : σ → (base path body : Bytes) → σ × Option HttpReply)
    (read : Json.Parser ρ) (s : σ) (peerID path body : Bytes) :
    σ × Except TransportError ρ :=
  match peers peerID with
  | none => (s, .error (.notReachable peerID))
  | some base =>
      match exchange s base path body with
      | (s, none) => (s, .error (.notReachable peerID))
      | (s, some resp) =>
          if resp.status ≠ 200 then (s, .error (.status peerID resp.status))
          else
            match decodeBody read resp.body with
            | none => (s, .error .decode)
            | some reply => (s, .ok reply)

section Client

variable {σ : Type} (peers : PeerMap)
  (exchange : σ → (base path body : Bytes) → σ × Option HttpReply)

def sendRequestVote (s : σ) (peerID : Bytes) (args : WireVoteArgs) :
    σ × Except TransportError RequestVoteReply :=
  let out := post peers exchange WireVoteReply.read s peerID requestVotePath args.marshal
  (out.1, out.2.map WireVoteReply.toReply)

def sendAppendEntries (s : σ) (peerID : Bytes) (args : WireAppendArgs) :
    σ × Except TransportError AppendEntriesReply :=
  let out := post peers exchange WireAppendReply.read s peerID appendEntriesPath args.marshal
  (out.1, out.2.map WireAppendReply.toReply)

end Client

/-! ## A call is a delivery -/

theorem Node.VoteOutcome.reply_term {n : Node} {args : RequestVoteArgs}
    {out : Node × RequestVoteReply} (h : n.VoteOutcome args out) :
    out.2.term ≤ max n.currentTerm args.term := by
  have hobserve (hterm : n.currentTerm ≤ args.term) :
      (n.observeTerm args.term).currentTerm = args.term := by
    rcases n.observeTerm_spec hterm with ⟨heq, hn⟩ | ⟨-, hn⟩
    · rw [hn, heq]
    · rw [hn]
  cases h with
  | stale => exact Nat.le_max_left ..
  | denied hterm hn' => simp [hn', hobserve hterm]
  | granted hterm hn' => simp [hn', hobserve hterm]

theorem Node.AppendOutcome.reply_term {n : Node} {args : AppendEntriesArgs}
    {out : Node × AppendEntriesReply × Bool} (h : n.AppendOutcome args out) :
    out.2.1.term ≤ max n.currentTerm args.term := by
  cases h with
  | stale => exact Nat.le_max_left ..
  | rejected hterm hn' => simp [hn', (n.observeLeader_spec hterm).1]
  | accepted hterm hn' => simp [hn', (n.observeLeader_spec hterm).1]

theorem wireVoteReply_toReply {r : RequestVoteReply} (h : r.term < 2 ^ 64) :
    (wireVoteReply r).toReply = r := by
  have hterm : r.term.toUInt64.toNat = r.term := by simpa using h
  simp [wireVoteReply, WireVoteReply.toReply, hterm]

theorem wireAppendReply_toReply {r : AppendEntriesReply} (h : r.term < 2 ^ 64) :
    (wireAppendReply r).toReply = r := by
  have hterm : r.term.toUInt64.toNat = r.term := by simpa using h
  simp [wireAppendReply, WireAppendReply.toReply, hterm]

section Call

variable {g : Gin} {peers : PeerMap} {peerID base : Bytes} {p : Proc}

theorem sendRequestVote_eq (hg : g.Documented) (hpeer : peers peerID = some base)
    (hterm : p.node.currentTerm < 2 ^ 64) (args : WireVoteArgs) :
    sendRequestVote peers (exchangeAt g base) p peerID args
      = ({ p with node := (p.node.handleRequestVote args.coerced.toArgs).1 },
        .ok (p.node.handleRequestVote args.coerced.toArgs).2) := by
  have hbind := hg.bind_ok (decodeBody_takes (voteArgs_arrive args))
  have hroute := p.servePost_route hg (.head _) args.marshal
  have hreply := (p.node.handleRequestVote_outcome args.coerced.toArgs).reply_term
  have hargs : args.coerced.toArgs.term < 2 ^ 64 := args.term.toNat_lt
  have hback := wireVoteReply_toReply (Nat.lt_of_le_of_lt hreply (by omega))
  simp only [sendRequestVote, post, hpeer, exchangeAt, if_true, hroute,
    Proc.serveRequestVote, hbind, hg.json_status, hg.json_body 200 (voteReply_arrives _)]
  simp [Except.map, hback]

theorem sendAppendEntries_eq (hg : g.Documented) (hpeer : peers peerID = some base)
    (hterm : p.node.currentTerm < 2 ^ 64) (args : WireAppendArgs) :
    sendAppendEntries peers (exchangeAt g base) p peerID args
      = (let out := p.node.handleAppendEntries args.coerced.toArgs
        (if out.2.2 then { p with node := out.1 }.startApply else { p with node := out.1 },
          .ok out.2.1)) := by
  have hbind := hg.bind_ok (decodeBody_takes (appendArgs_arrive args))
  have hroute := p.servePost_route hg (.tail _ (.head _)) args.marshal
  have hreply := (p.node.handleAppendEntries_outcome args.coerced.toArgs).reply_term
  have hargs : args.coerced.toArgs.term < 2 ^ 64 := args.term.toNat_lt
  have hback := wireAppendReply_toReply (Nat.lt_of_le_of_lt hreply (by omega))
  simp only [sendAppendEntries, post, hpeer, exchangeAt, if_true, hroute,
    Proc.serveAppendEntries, hbind, hg.json_status, hg.json_body 200 (appendReply_arrives _)]
  simp [Except.map, hback]

end Call

theorem WireVoteArgs.coerced_toArgs {a : WireVoteArgs} :
    a.coerced.toArgs = a.toArgs ↔ Valid a.candidateID := by
  rw [← toValid_eq_self]
  constructor
  · intro h
    exact Text.latin1_injective (congrArg RequestVoteArgs.candidateID h)
  · intro h
    rw [coerced, h]

theorem WireAppendArgs.coerced_toArgs {a : WireAppendArgs} :
    a.coerced.toArgs = a.toArgs ↔ Valid a.leaderID := by
  rw [← toValid_eq_self]
  constructor
  · intro h
    exact Text.latin1_injective (congrArg AppendEntriesArgs.leaderID h)
  · intro h
    rw [coerced, h]

/-- Whatever the arguments, a call over HTTP that reaches the peer changes
the process of the peer as the handler does and brings back its reply. The
handler is given the arguments themselves exactly when the id in them is
valid UTF-8. -/
theorem http_call_is_handler_call {g : Gin} (hg : g.Documented) {peers : PeerMap}
    {peerID base : Bytes} (hpeer : peers peerID = some base) {w : World}
    {src dst : String} (hterm : (w.proc dst).node.currentTerm < 2 ^ 64) (call : Nat) :
    (∀ args : WireVoteArgs, ∃ reply,
      sendRequestVote peers (exchangeAt g base) (w.proc dst) peerID args
        = ((w.answerVote call ⟨src, dst, args.coerced.toArgs⟩).proc dst, .ok reply)
      ∧ (w.answerVote call ⟨src, dst, args.coerced.toArgs⟩).net.voteAnswers
        = w.net.voteAnswers ++ [(call, reply)]
      ∧ (args.coerced.toArgs = args.toArgs ↔ Valid args.candidateID))
    ∧ ∀ args : WireAppendArgs, ∃ reply,
      sendAppendEntries peers (exchangeAt g base) (w.proc dst) peerID args
        = ((w.answerAppend call ⟨src, dst, args.coerced.toArgs⟩).proc dst, .ok reply)
      ∧ (w.answerAppend call ⟨src, dst, args.coerced.toArgs⟩).net.appendAnswers
        = w.net.appendAnswers ++ [(call, reply)]
      ∧ (args.coerced.toArgs = args.toArgs ↔ Valid args.leaderID) := by
  constructor
  · intro args
    refine ⟨((w.proc dst).node.handleRequestVote args.coerced.toArgs).2, ?_, rfl,
      WireVoteArgs.coerced_toArgs⟩
    rw [sendRequestVote_eq hg hpeer hterm args]
    simp [World.answerVote]
  · intro args
    refine ⟨((w.proc dst).node.handleAppendEntries args.coerced.toArgs).2.1, ?_, rfl,
      WireAppendArgs.coerced_toArgs⟩
    rw [sendAppendEntries_eq hg hpeer hterm args]
    simp [World.answerAppend]

/-- A request of node `b` in term 3, for two entries, the second without a
command. -/
def twoEntryArgs : WireAppendArgs :=
  ⟨3, utf8 "b", 0, 0, some [⟨2, 1, some [7, 255]⟩, ⟨3, 2, none⟩], 1⟩

example : WireAppendArgs.read twoEntryArgs.marshal = some (twoEntryArgs, []) := by
  decide +kernel

def onlyPeerA : PeerMap := fun id => if id = utf8 "a" then some (utf8 "http://a") else none

theorem http_call_is_handler_call_a :
    ∃ reply, sendAppendEntries onlyPeerA (exchangeAt plainGin (utf8 "http://a"))
        (threeNodes.init.proc "a") (utf8 "a") twoEntryArgs
        = ((threeNodes.init.answerAppend 0 ⟨"b", "a", twoEntryArgs.coerced.toArgs⟩).proc "a",
          .ok reply)
      ∧ reply.success = true ∧ twoEntryArgs.coerced.toArgs = twoEntryArgs.toArgs := by
  have hpeer : onlyPeerA (utf8 "a") = some (utf8 "http://a") := by decide +kernel
  have hterm : (threeNodes.init.proc "a").node.currentTerm < 2 ^ 64 := by decide
  obtain ⟨reply, hsend, hans, hiff⟩ :=
    (http_call_is_handler_call plainGin_documented hpeer hterm 0).2 twoEntryArgs
  have hreply : (threeNodes.init.answerAppend 0
      ⟨"b", "a", twoEntryArgs.coerced.toArgs⟩).net.appendAnswers = [(0, ⟨3, true⟩)] := by
    decide +kernel
  rw [hans] at hreply
  obtain ⟨-, rfl⟩ := Prod.mk.inj (List.cons.inj hreply).1
  exact ⟨_, hsend, rfl, hiff.mpr (by decide +kernel)⟩

end RaftStore
