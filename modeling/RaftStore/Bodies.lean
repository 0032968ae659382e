import RaftStore.Router
import RaftStore.Service
import RaftStore.Wire

/-!
# The bodies of requests

`Router` leaves open what JSON does to a string. Here the bodies are the
bytes that are sent (`Encoding.bytes`). `Router.Put` marshals a map, the
handlers decode into a structure of one field and answer with a structure
or a map, and `Router.Get` decodes that into a structure of its own. The
members of an answer that `Get` has no field for are skipped, and one that
is missing, as an empty value of `keyResponse` is, leaves the zero value.

On bytes the router and the servers of `api/http.go` do what they do with
`toValid` for JSON (`router_on_bytes`), which keeps text. What `Get` makes
of an answer of a Raft node, which gin writes, is the key in the history of
the cluster (`router_on_raft`): nothing is lost on the way, because nothing
but valid UTF-8 is ever in a map there.
-/

namespace RaftStore

open Runs Utf8

/-! ## Requests -/

/-- The payload of `Router.Put`. -/
def putPayload (value : Bytes) : Bytes :=
  Json.writeFields [(utf8 "value", Json.quote value)]

/-- The field of `upsertRequest` and of `kvPutRequest`. -/
def upsertField (name value : Bytes) : Json.Parser Bytes :=
  if foldName name = "VALUE" then Json.text value else Json.skip 9999 value

def upsertRequest : Json.Parser Bytes := Json.object upsertField []

/-! ## Answers -/

/-- `keyResponse`, where an empty value is omitted. -/
def keyResponse (key value : Bytes) (found : Bool) : Bytes :=
  Json.writeFields ((utf8 "key", Json.quote key)
    :: ((if value = [] then [] else [(utf8 "value", Json.quote value)])
      ++ [(utf8 "found", Json.writeBool found)]))

def errorResponse (message : Bytes) : Bytes :=
  Json.writeFields [(utf8 "error", Json.quote message)]

/-- What `Get` decodes into. -/
structure GetBody where
  value : Bytes
  found : Bool
  deriving DecidableEq

def GetBody.field (name : Bytes) (b : GetBody) : Json.Parser GetBody :=
  if foldName name = "VALUE" then readInto (Json.text b.value) fun v => { b with value := v }
  else if foldName name = "FOUND" then
    readInto (Json.boolean b.found) fun v => { b with found := v }
  else Json.skip 9999 b

def GetBody.read : Json.Parser GetBody := Json.object GetBody.field ⟨[], false⟩

/-- `decodeError` is what the decoder says about a body it refuses. -/
def decodeGetBody (decodeError : Bytes → String) (body : Bytes) :
    Except String (Bytes × Bool) :=
  match decodeBody GetBody.read body with
  | none => .error (decodeError body)
  | some b => .ok (b.value, b.found)

def readGet (decodeError : Bytes → String) (reply : HttpReply) : Option CallResult :=
  readAnswer reply.status (decodeGetBody decodeError reply.body)

/-- The answers of `rpc/server.go`. `gin.H` is a map, which is written in
the order of the names. A node that does not lead names the leader it
knows, unless it was `Replicate` that found out. -/
def Answer.write (g : Gin) (leader : Option Bytes) : Answer → HttpReply
  | .found key value => g.json 200 (Json.writeFields [(utf8 "found", Json.writeBool true),
      (utf8 "key", Json.quote key), (utf8 "value", Json.quote value)])
  | .stored key value => g.json 200
      (Json.writeFields [(utf8 "key", Json.quote key), (utf8 "value", Json.quote value)])
  | .noContent => g.status 204
  | .badRequest error => g.json 400 (errorResponse (utf8 error))
  | .notFound error => g.json 404 (errorResponse (utf8 error))
  | .unavailable error => g.json 503
      (Json.writeFields ((utf8 "error", Json.quote (utf8 error))
        :: leader.toList.map fun id => (utf8 "leaderID", Json.quote id)))

section Server

/- `err.Error()` of an error of the store. -/
variable (errorText : StoreError → String)

/-- `json.Encoder` ends what it writes with a newline. -/
def Payload.write : Payload → Bytes
  | .key k value found => keyResponse k value found ++ [10]
  | .error message => errorResponse (utf8 message) ++ [10]
  | .internal err => errorResponse (utf8 (errorText err)) ++ [10]
  | .status s => Json.writeFields [(utf8 "status", Json.quote (utf8 s))] ++ [10]
  | .text t => utf8 t

/-- A body that is not there is empty. -/
def Encoding.bytes (decodeError : Bytes → String) : Encoding where
  Request := Bytes
  Answer := Bytes
  putRequest := putPayload
  noRequest := []
  decodePut := decodeBody upsertRequest
  write := Payload.write errorText
  decodeGet := decodeGetBody decodeError

end Server

/-! ## Bodies arrive -/

theorem keepsText_toValid : KeepsText toValid := by
  rintro value ⟨text, rfl⟩
  refine toValid_of_valid ⟨text.toList, ?_⟩
  simp only [utf8, String.toUTF8, ← String.utf8Encode_toList, List.utf8Encode,
    List.data_toByteArray]

/-- The names of the members, folded. -/
theorem foldName_members :
    foldName (toValid (utf8 "value")) = "VALUE"
      ∧ foldName (toValid (utf8 "found")) = "FOUND"
      ∧ foldName (toValid (utf8 "key")) = "KEY"
      ∧ foldName (toValid (utf8 "error")) = "ERROR"
      ∧ foldName (toValid (utf8 "status")) = "STATUS" := by
  decide +kernel

theorem decodeBody_object {σ : Type} {field : Bytes → σ → Json.Parser σ} {s s' : σ}
    {ms : List (Bytes × Bytes)} (h : Json.Fills field s ms s') (rest : Bytes) :
    decodeBody (Json.object field s) (Json.writeFields ms ++ rest) = some s' := by
  rw [decodeBody, Json.object_writeFields h]
  rfl

theorem putPayload_arrives (value : Bytes) :
    decodeBody upsertRequest (putPayload value) = some (toValid value) := by
  refine decodeBody_takes (Json.takes_object (.cons ?_ (.nil _)))
  simpa [upsertField, foldName_members] using Json.takes_text [] value

theorem GetBody.takes_value (b : GetBody) (v : Bytes) :
    Json.Takes (GetBody.field (toValid (utf8 "value")) b) (Json.quote v)
      { b with value := toValid v } := by
  simpa [GetBody.field, foldName_members] using takes_readInto (Json.takes_text b.value v) _

theorem GetBody.takes_found (b : GetBody) (v : Bool) :
    Json.Takes (GetBody.field (toValid (utf8 "found")) b) (Json.writeBool v)
      { b with found := v } := by
  simpa [GetBody.field, foldName_members]
    using takes_readInto (Json.takes_boolean b.found v) _

/-- A string under a name that `Get` has no field for. -/
theorem GetBody.takes_other {name : Bytes} (b : GetBody) (v : Bytes)
    (hvalue : foldName (toValid name) ≠ "VALUE") (hfound : foldName (toValid name) ≠ "FOUND") :
    Json.Takes (GetBody.field (toValid name) b) (Json.quote v) b := by
  simpa [GetBody.field, hvalue, hfound] using Json.takes_skip_quote 9999 b v

theorem GetBody.takes_key (b : GetBody) (key : Bytes) :
    Json.Takes (GetBody.field (toValid (utf8 "key")) b) (Json.quote key) b :=
  b.takes_other key (by simp [foldName_members]) (by simp [foldName_members])

theorem keyResponse_arrives (key value : Bytes) (found : Bool) (rest : Bytes) :
    decodeBody GetBody.read (keyResponse key value found ++ rest)
      = some ⟨toValid value, found⟩ := by
  refine decodeBody_object (.cons (GetBody.takes_key _ key) ?_) rest
  split
  · subst value
    exact .cons (GetBody.takes_found _ _) (.nil _)
  · exact .cons (GetBody.takes_value _ _) (.cons (GetBody.takes_found _ _) (.nil _))

/-- A body without the fields that `Get` looks for. -/
theorem otherResponse_arrives {name : Bytes} (v rest : Bytes)
    (hvalue : foldName (toValid name) ≠ "VALUE") (hfound : foldName (toValid name) ≠ "FOUND") :
    decodeBody GetBody.read (Json.writeFields [(name, Json.quote v)] ++ rest)
      = some ⟨[], false⟩ :=
  decodeBody_object (.cons (GetBody.takes_other _ v hvalue hfound) (.nil _)) rest

theorem Payload.write_arrives (errorText : StoreError → String) (decodeError : Bytes → String)
    {p : Payload} (h : ∀ t, p ≠ .text t) :
    decodeGetBody decodeError (p.write errorText) = p.decode toValid := by
  have herror (v : Bytes) : decodeBody GetBody.read (errorResponse v ++ [10])
      = some ⟨[], false⟩ :=
    otherResponse_arrives v _ (by simp [foldName_members]) (by simp [foldName_members])
  rw [decodeGetBody]
  cases p with
  | key key value found =>
      rw [write, keyResponse_arrives]
      rfl
  | error message =>
      rw [write, herror]
      rfl
  | internal err =>
      rw [write, herror]
      rfl
  | status s =>
      rw [write, otherResponse_arrives _ _ (by simp [foldName_members])
        (by simp [foldName_members])]
      rfl
  | text t => exact absurd rfl (h t)

/-! ## The router on bytes -/

/-- Two encodings that the router and the servers cannot tell apart. `Get`
decodes no body that is not JSON. -/
structure Encoding.Agrees (enc enc' : Encoding) : Prop where
  put : ∀ value, enc.decodePut (enc.putRequest value) = enc'.decodePut (enc'.putRequest value)
  noRequest : enc.decodePut enc.noRequest = enc'.decodePut enc'.noRequest
  get : ∀ p : Payload, (∀ t, p ≠ .text t) →
    enc.decodeGet (enc.write p) = enc'.decodeGet (enc'.write p)

theorem Encoding.bytes_agrees (errorText : StoreError → String)
    (decodeError : Bytes → String) :
    (bytes errorText decodeError).Agrees (strings toValid) where
  put value := putPayload_arrives value
  noRequest := rfl
  get _ h := Payload.write_arrives errorText decodeError h

/-- What `Get` decodes is JSON. -/
def Response.Decodable (r : Response) : Prop := r.status = 200 → ∀ t, r.body ≠ .text t

theorem writeStoreError_decodable (err : StoreError) : (writeStoreError err).Decodable := by
  cases err <;> simp [writeStoreError, Response.Decodable]

namespace ApiServer

variable (srv : ApiServer)

theorem getKey_decodable (key : Bytes) : (srv.getKey key).Decodable := by
  unfold getKey
  split
  · exact writeStoreError_decodable _
  · simp [Response.Decodable]
  · simp [Response.Decodable]

theorem putKey_decodable (enc : Encoding) (key : Bytes) (body : enc.Request) :
    (srv.putKey enc key body).2.Decodable := by
  unfold putKey
  split
  · simp [Response.Decodable]
  · dsimp only
    split
    · exact writeStoreError_decodable _
    · simp [Response.Decodable]

theorem deleteKey_decodable (key : Bytes) : (srv.deleteKey key).2.Decodable := by
  unfold deleteKey
  dsimp only
  split
  · exact writeStoreError_decodable _
  · simp [Response.Decodable]

theorem handleKey_decodable (enc : Encoding) (method : Method) (path : Bytes)
    (body : enc.Request) : (srv.handleKey enc method path body).2.Decodable := by
  unfold handleKey
  dsimp only
  split
  · simp [Response.Decodable]
  · cases method with
    | get => exact srv.getKey_decodable _
    | put => exact srv.putKey_decodable enc _ body
    | delete => exact srv.deleteKey_decodable _
    | other => simp [Response.Decodable]

theorem clientDo_decodable {enc : Encoding} {requests : Nat} {srv srv' : ApiServer}
    {method : Method} {u : Url} {body : enc.Request} {r : Response}
    (h : srv.clientDo enc requests method u body = (srv', some r)) : r.Decodable := by
  induction requests generalizing method u body with
  | zero => simp [clientDo] at h
  | succ requests ih =>
      rw [clientDo, serve] at h
      split at h
      · exact ih h
      · rename_i srv₁ response hserve
        cases h
        split at hserve
        · cases hserve
          simp [Response.Decodable]
        · split at hserve
          · cases hserve
          · cases hserve
            simp [Response.Decodable]
          · cases hserve
            exact srv.handleKey_decodable enc method _ body
          · cases hserve
            simp [Response.Decodable]

variable {enc enc' : Encoding}

/-- The server sees of a body what it decodes. -/
theorem serve_congr {body : enc.Request} {body' : enc'.Request}
    (hbody : enc.decodePut body = enc'.decodePut body') (method : Method) (u : Url) :
    srv.serve enc method u body = srv.serve enc' method u body' := by
  simp only [serve, handleKey, putKey, hbody]

theorem clientDo_congr (h : enc.Agrees enc') (requests : Nat) (method : Method) (u : Url)
    {body : enc.Request} {body' : enc'.Request}
    (hbody : enc.decodePut body = enc'.decodePut body') :
    srv.clientDo enc requests method u body = srv.clientDo enc' requests method u body' := by
  induction requests generalizing method u body body' with
  | zero => rfl
  | succ requests ih =>
      rw [clientDo, clientDo, srv.serve_congr hbody]
      cases srv.serve enc' method u body' with
      | redirect u => exact ih .get u h.noRequest
      | answer srv' response => rfl

end ApiServer

section Agrees

variable {enc enc' : Encoding}

theorem getLoop_congr (h : enc.Agrees enc') (key : Bytes) (id : Int) (addrs : List String)
    (hosts : Hosts) : getLoop enc key id addrs hosts = getLoop enc' key id addrs hosts := by
  induction addrs generalizing hosts with
  | nil => rfl
  | cons addr addrs ih =>
      rw [getLoop, getLoop]
      cases parseUrl (keysPath ++ key) with
      | none => exact ih hosts
      | some u =>
          cases hosts addr with
          | none => exact ih hosts
          | some srv =>
              dsimp only
              rw [srv.clientDo_congr h 10 .get u h.noRequest]
              cases hdo : srv.clientDo enc' 10 .get u enc'.noRequest with
              | mk srv' response =>
                  cases response with
                  | none => exact ih _
                  | some r =>
                      dsimp only
                      have hread : readAnswer r.status (enc.decodeGet (enc.write r.body))
                          = readAnswer r.status (enc'.decodeGet (enc'.write r.body)) := by
                        by_cases hok : r.status = 200
                        · rw [h.get r.body (ApiServer.clientDo_decodable hdo hok)]
                        · exact readAnswer_other hok _ _
                      rw [hread, ih]

theorem writeLoop_congr (h : enc.Agrees enc') (method : Method) (key : Bytes)
    {body : enc.Request} {body' : enc'.Request}
    (hbody : enc.decodePut body = enc'.decodePut body') (accepts : Nat → Bool)
    (error : String) (addrs : List String) (hosts : Hosts) :
    writeLoop enc method key body accepts error addrs hosts
      = writeLoop enc' method key body' accepts error addrs hosts := by
  induction addrs generalizing hosts with
  | nil => rfl
  | cons addr addrs ih =>
      rw [writeLoop, writeLoop]
      cases parseUrl (keysPath ++ key) with
      | none => rfl
      | some u =>
          cases hosts addr with
          | none => exact ih hosts
          | some srv =>
              dsimp only
              rw [srv.clientDo_congr h 10 method u hbody]
              cases srv.clientDo enc' 10 method u body' with
              | mk srv' response =>
                  cases response with
                  | none => exact ih _
                  | some r =>
                      dsimp only
                      rw [ih]

theorem Router.call_congr (h : enc.Agrees enc') (r : Router) (hosts : Hosts) (c : Call) :
    r.call enc hosts c = r.call enc' hosts c := by
  cases c with
  | get key =>
      rw [call, call, get, get]
      cases r.route key with
      | none => rfl
      | some s => exact getLoop_congr h key s.id s.addrs hosts
  | put key value =>
      rw [call, call, put, put]
      cases r.route key with
      | none => rfl
      | some s => exact writeLoop_congr h .put key (h.put value) _ _ s.addrs hosts
  | delete key =>
      rw [call, call, delete, delete]
      cases r.route key with
      | none => rfl
      | some s => exact writeLoop_congr h .delete key h.noRequest _ _ s.addrs hosts

end Agrees

/-- Whatever the keys and values are, a sequence of calls through JSON on
the wire has the results it has with `toValid` for the wire, and leaves the
same servers; and text is not changed by it. -/
theorem router_on_bytes (errorText : StoreError → String) (decodeError : Bytes → String)
    (r : Router) (hosts : Hosts) (cs : List Call) :
    KeepsText toValid
      ∧ r.run (.bytes errorText decodeError) hosts cs = r.run (.strings toValid) hosts cs := by
  refine ⟨keepsText_toValid, ?_⟩
  have hagrees := Encoding.bytes_agrees errorText decodeError
  induction cs generalizing hosts with
  | nil => rfl
  | cons c cs ih =>
      rw [Router.run, Router.run, Router.call_congr hagrees, ih]

/-! ## The router on Raft nodes -/

theorem found_arrives {g : Gin} (hg : g.Documented) (key value : Bytes)
    (leader : Option Bytes) :
    decodeBody GetBody.read (Answer.write g leader (.found key value)).body
      = some ⟨toValid value, true⟩ :=
  hg.json_body 200 (Json.takes_object (.cons (GetBody.takes_found _ _)
    (.cons (GetBody.takes_key _ key) (.cons (GetBody.takes_value _ _) (.nil _)))))

/-- The key in this map, as `Get` returns it. -/
def lookupResult (m : Data) (key : Bytes) : CallResult :=
  match m key with
  | none => .got [] false
  | some value => .got value true

theorem readGet_getAnswer {g : Gin} (hg : g.Documented) {m : Data} {key : Bytes}
    (hkey : key ≠ []) (hvalid : ∀ value, m key = some value → Valid value)
    (decodeError : Bytes → String) (leader : Option Bytes) :
    readGet decodeError ((getAnswer m key).write g leader) = some (lookupResult m key) := by
  have hget : Store.get { newStore .file .file with data := m } key = .ok (m key) :=
    if_neg hkey
  rw [getAnswer, handleGet, hget, lookupResult]
  cases hm : m key with
  | none =>
      dsimp only
      rw [readGet, Answer.write, hg.json_status, readAnswer_missing]
  | some value =>
      have hread := found_arrives hg key value leader
      have hstatus : (Answer.write g leader (.found key value)).status = 200 :=
        hg.json_status 200 _
      dsimp only
      rw [readGet, hstatus, decodeGetBody, hread, toValid_of_valid (hvalid value hm)]
      exact readAnswer_ok value true

/-- A value in the map was the value of a command. -/
theorem commandMap_value {cmds : List Command} {key value : Bytes}
    (h : commandMap cmds key = some value) :
    ∃ cmd ∈ cmds, ∃ e, effective unmarshalEntry cmd = some e ∧ e.value = value := by
  by_cases htouched : LastWrite.Touches
      ((cmds.filterMap (effective unmarshalEntry)).map Entry.write) key
  · obtain ⟨w, hw, -, hvalue⟩ := LastWrite.run_value (m := Data.empty) htouched
    obtain ⟨e, he, rfl⟩ := List.mem_map.mp hw
    obtain ⟨cmd, hcmd, heff⟩ := List.mem_filterMap.mp he
    refine ⟨cmd, hcmd, e, heff, ?_⟩
    have hwrite : e.write.value = some value := hvalue.symm.trans h
    unfold Entry.write at hwrite
    cases hop : e.op <;> simp_all
  · rw [commandMap, replay, LastWrite.run_untouched htouched] at h
    cases h

section History

variable {C : Cluster} {s : Service}

theorem history_valid (h : Reachable (Service.step C) soundly (.init C) s) {seen : Nat}
    {key value : Bytes}
    (hm : commandMap (commands ((C.decided s.world).take seen)) key = some value) :
    Valid value := by
  obtain ⟨cmd, hcmd, x, hx, rfl⟩ := commandMap_value hm
  obtain ⟨e, he, rfl⟩ := List.mem_map.mp hcmd
  obtain ⟨q, hq, -⟩ := carries_of_decided h (List.mem_of_mem_take he)
  rw [hq.effective (serviceInv_of_reachable h).writes hx]
  exact valid_toValid _

/-- What the statuses of an answer to a write stand for. -/
theorem accepted_answer {g : Gin} (hg : g.Documented) {q : AcceptedWrite} {a : Answer}
    {leader : Option Bytes} (ha : s.answer q = some a)
    (hstatus : (a.write g leader).status = 200 ∨ (a.write g leader).status = 204) :
    s.answer q = some (writeAnswer q.entry .ok) := by
  rw [ha]
  unfold Service.answer at ha
  split at ha
  · split at ha
    · rename_i result _
      obtain rfl := Option.some.inj ha
      cases result with
      | ok => rfl
      | timedOut | stopped => simp [writeAnswer, Answer.write, hg.json_status] at hstatus
    · cases ha
  · cases ha

/-- On the nodes of a cluster, what `Router.Get` makes of an answer is the
key in the map after that part of the history which the node had applied,
and a PUT or DELETE that the router takes for done is in the history. -/
theorem router_on_raft {g : Gin} (hg : g.Documented)
    (h : Reachable (Service.step C) soundly (.init C) s) (decodeError : Bytes → String)
    (leader : Option Bytes) :
    (∀ r ∈ s.reads, r.key ≠ [] → r.seen ≤ (C.decided s.world).length
      ∧ readGet decodeError (r.answer.write g leader)
        = some (lookupResult
          (commandMap (commands ((C.decided s.world).take r.seen))) r.key))
    ∧ ∀ q ∈ s.writes, ∀ a, s.answer q = some a →
      (a.write g leader).status = 200 ∨ (a.write g leader).status = 204 →
      ∃ (i : Nat) (e : LogEntry), (C.decided s.world)[i]? = some e ∧ s.Carries q e := by
  refine ⟨?_, ?_⟩
  · intro r hr hkey
    obtain ⟨hseen, hanswer⟩ := read_decided h hr
    refine ⟨hseen, ?_⟩
    rw [hanswer]
    exact readGet_getAnswer hg hkey (fun value hm => history_valid h hm) decodeError leader
  · intro q hq a ha hstatus
    exact acknowledged_carried h hq (accepted_answer hg ha hstatus)

theorem router_on_raft_a_b :
    ∃ s : Service, s.reads.length = 2
      ∧ (∀ r ∈ s.reads, r.key ≠ [] → r.seen ≤ (threeNodes.decided s.world).length
        ∧ readGet (fun _ => "") (r.answer.write plainGin none)
          = some (lookupResult
            (commandMap (commands ((threeNodes.decided s.world).take r.seen))) r.key))
      ∧ s.reads.map (fun r => readGet (fun _ => "") (r.answer.write plainGin none))
        = [some (.got [118] true), some (.got [] false)] := by
  obtain ⟨s, hr, hlength, hreads⟩ : ∃ s,
      Reachable (Service.step threeNodes) soundly (.init threeNodes) s
      ∧ s.reads.length = 2
      ∧ s.reads.map (fun r => readGet (fun _ => "") (r.answer.write plainGin none))
        = [some (.got [118] true), some (.got [] false)] :=
    Reachable.of_exec_any putGetRun (by decide +kernel)
  exact ⟨s, hlength, (router_on_raft plainGin_documented hr (fun _ => "") none).1, hreads⟩

end History

end RaftStore
