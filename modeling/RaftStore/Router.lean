import RaftStore.Hashing
import RaftStore.Http

/-!
# The sharded router

The client `Router` of `shard/router.go` over the servers of
`api/http.go`. It hashes the key, and writes it into the URL as it is.
What is in the bodies is left to an `Encoding`.

On plain keys the router and its shards are one map (`router_is_one_map`).
On others they are not: a key with a `?` aliases the part before it, and
one with a stray `%` panics (`aliased_keys`).
-/

namespace RaftStore

open LastWrite

/-! ## JSON -/

/-- The bodies of answers. -/
inductive Payload where
  | key (key value : Bytes) (found : Bool)
  | error (message : String)
  /-- An error of the store, as its own text. -/
  | internal (err : StoreError)
  | status (status : String)
  /-- What `net/http` writes itself, which is not JSON. -/
  | text (text : String)

/-- What `Get` decodes. `json` is what becomes of a string that is encoded
and decoded: text comes back, and bytes that are not UTF-8 are replaced. -/
def Payload.decode (json : Bytes → Bytes) :
    Payload → Except String (Bytes × Bool)
  | .key _ value found => .ok (json value, found)
  | .text _ => .error "invalid character looking for beginning of value"
  | _ => .ok ([], false)

/-- How the bodies of requests and answers are written and read. -/
structure Encoding where
  Request : Type
  Answer : Type
  /-- The payload of `Put`. -/
  putRequest : Bytes → Request
  noRequest : Request
  /-- What the server decodes as an `upsertRequest`. -/
  decodePut : Request → Option Bytes
  write : Payload → Answer
  /-- What `Get` decodes. -/
  decodeGet : Answer → Except String (Bytes × Bool)

/-- Bodies that are not spelled out; only their strings go through JSON. -/
def Encoding.strings (json : Bytes → Bytes) : Encoding where
  Request := Option Bytes
  Answer := Payload
  putRequest := some
  noRequest := none
  decodePut body := body.map json
  write := id
  decodeGet := Payload.decode json

def ValidUtf8 (value : Bytes) : Prop := ∃ text : String, utf8 text = value

/-- Text comes back. -/
def KeepsText (json : Bytes → Bytes) : Prop :=
  ∀ value, ValidUtf8 value → json value = value

structure Encoding.KeepsText (enc : Encoding) : Prop where
  put : ∀ value, ValidUtf8 value → enc.decodePut (enc.putRequest value) = some value
  get : ∀ key value, ValidUtf8 value →
    enc.decodeGet (enc.write (.key key value true)) = .ok (value, true)

theorem Encoding.keepsText_strings {json : Bytes → Bytes} (hj : RaftStore.KeepsText json) :
    (strings json).KeepsText where
  put value hvalue := congrArg some (hj value hvalue)
  get _ value hvalue := congrArg (fun value => Except.ok (value, true)) (hj value hvalue)

/-! ## `api.Server` -/

inductive Method where
  | get
  | put
  | delete
  | other
  deriving DecidableEq

structure Response where
  status : Nat
  body : Payload

structure ApiServer where
  store : Store
  disk : Disk

def writeStoreError : StoreError → Response
  | .emptyKey => ⟨400, .error "key cannot be empty"⟩
  | err => ⟨500, .internal err⟩

/-- What the server makes of a request. -/
inductive Reply where
  | redirect (u : Url)
  | answer (srv : ApiServer) (response : Response)

namespace ApiServer

def getKey (srv : ApiServer) (key : Bytes) : Response :=
  match srv.store.get key with
  | .error err => writeStoreError err
  | .ok none => ⟨404, .error "key not found"⟩
  | .ok (some value) => ⟨200, .key key value true⟩

def putKey (enc : Encoding) (srv : ApiServer) (key : Bytes) (body : enc.Request) :
    ApiServer × Response :=
  match enc.decodePut body with
  | none => (srv, ⟨400, .error "invalid JSON request body"⟩)
  | some value =>
      let out := srv.store.upsert srv.disk .ok key value
      (⟨out.1, out.2.1⟩,
        match out.2.2 with
        | some err => writeStoreError err
        | none => ⟨200, .key key value true⟩)

def deleteKey (srv : ApiServer) (key : Bytes) : ApiServer × Response :=
  let out := srv.store.delete srv.disk .ok key
  (⟨out.1, out.2.1⟩,
    match out.2.2 with
    | some err => writeStoreError err
    | none => ⟨204, .text ""⟩)

def handleKey (enc : Encoding) (srv : ApiServer) (method : Method)
    (path : Bytes) (body : enc.Request) : ApiServer × Response :=
  let key := trimKeys path
  if key = [] ∨ 47 ∈ key then
    (srv, ⟨400, .error "key must be a single path segment"⟩)
  else
    match method with
    | .get => (srv, srv.getKey key)
    | .put => srv.putKey enc key body
    | .delete => srv.deleteKey key
    | .other => (srv, ⟨405, .error "method not allowed"⟩)

def serve (enc : Encoding) (srv : ApiServer) (method : Method) (u : Url)
    (body : enc.Request) : Reply :=
  match u.arrives with
  | none => .answer srv ⟨400, .text "400 Bad Request"⟩
  | some u =>
      match u.route with
      | .redirect u => .redirect u
      | .health => .answer srv ⟨200, .status "ok"⟩
      | .key =>
          let out := srv.handleKey enc method u.path body
          .answer out.1 out.2
      | .notFound => .answer srv ⟨404, .text "404 page not found"⟩

/-- `http.Client.Do`. A redirect is followed with a GET without a body;
the client gives up after ten requests. -/
def clientDo (enc : Encoding) :
    Nat → ApiServer → Method → Url → enc.Request → ApiServer × Option Response
  | 0, srv, _, _, _ => (srv, none)
  | requests + 1, srv, method, u, body =>
      match srv.serve enc method u body with
      | .redirect u => clientDo enc requests srv .get u enc.noRequest
      | .answer srv response => (srv, some response)

end ApiServer

/-! ## `Router` -/

structure Shard where
  id : Int
  addrs : List String

structure Router where
  shards : List Shard
  totalShards : Int

/-- The servers that can be reached, by address. -/
abbrev Hosts := String → Option ApiServer

inductive Call where
  | get (key : Bytes)
  | put (key value : Bytes)
  | delete (key : Bytes)
  deriving DecidableEq

def Call.key : Call → Bytes
  | .get key => key
  | .put key _ => key
  | .delete key => key

inductive CallResult where
  | got (value : Bytes) (found : Bool)
  | wrote
  | failed (error : String)
  | panicked
  deriving DecidableEq

/-- What `Get` makes of an answer; at `none` it goes on to the next address. -/
def readAnswer (status : Nat) (body : Except String (Bytes × Bool)) : Option CallResult :=
  if status = 404 then some (.got [] false)
  else if status ≠ 200 then none
  else
    match body with
    | .error err => some (.failed err)
    | .ok (value, found) => some (.got value found)

theorem readAnswer_missing (body : Except String (Bytes × Bool)) :
    readAnswer 404 body = some (.got [] false) := rfl

theorem readAnswer_ok (value : Bytes) (found : Bool) :
    readAnswer 200 (.ok (value, found)) = some (.got value found) := rfl

theorem readAnswer_other {status : Nat} (h : status ≠ 200)
    (body body' : Except String (Bytes × Bool)) :
    readAnswer status body = readAnswer status body' := by
  unfold readAnswer
  rw [if_pos h, if_pos h]

section Loops

variable (enc : Encoding)

/-- The loop of `Get` over the addresses. An address that cannot be
reached and a URL that does not parse are passed over. -/
def getLoop (key : Bytes) (id : Int) : List String → Hosts → Hosts × CallResult
  | [], hosts =>
      (hosts, .failed ("shard " ++ toString id ++ ": no node responded"))
  | addr :: addrs, hosts =>
      match parseUrl (keysPath ++ key), hosts addr with
      | some u, some srv =>
          match srv.clientDo enc 10 .get u enc.noRequest with
          | (srv, none) => getLoop key id addrs (Function.update hosts addr (some srv))
          | (srv, some response) =>
              let hosts := Function.update hosts addr (some srv)
              match readAnswer response.status (enc.decodeGet (enc.write response.body)) with
              | none => getLoop key id addrs hosts
              | some result => (hosts, result)
      | _, _ => getLoop key id addrs hosts

/-- The loop of `Put` and `Delete`. Both drop the error of `NewRequest`
and go on with the nil request. -/
def writeLoop (method : Method) (key : Bytes) (body : enc.Request) (accepts : Nat → Bool)
    (error : String) : List String → Hosts → Hosts × CallResult
  | [], hosts => (hosts, .failed error)
  | addr :: addrs, hosts =>
      match parseUrl (keysPath ++ key) with
      | none => (hosts, .panicked)
      | some u =>
          match hosts addr with
          | none => writeLoop method key body accepts error addrs hosts
          | some srv =>
              match srv.clientDo enc 10 method u body with
              | (srv, none) =>
                  writeLoop method key body accepts error addrs
                    (Function.update hosts addr (some srv))
              | (srv, some response) =>
                  let hosts := Function.update hosts addr (some srv)
                  if accepts response.status then (hosts, .wrote)
                  else writeLoop method key body accepts error addrs hosts

end Loops

namespace Router

/-- `none` is a panic: a division by zero, or an index out of range. -/
def route (r : Router) (key : Bytes) : Option Shard :=
  match keyToShard 64 key r.totalShards with
  | none => none
  | some id => if 0 ≤ id then r.shards[id.toNat]? else none

def get (enc : Encoding) (r : Router) (hosts : Hosts) (key : Bytes) :
    Hosts × CallResult :=
  match r.route key with
  | none => (hosts, .panicked)
  | some s => getLoop enc key s.id s.addrs hosts

def put (enc : Encoding) (r : Router) (hosts : Hosts) (key value : Bytes) :
    Hosts × CallResult :=
  match r.route key with
  | none => (hosts, .panicked)
  | some s =>
      writeLoop enc .put key (enc.putRequest value) (· = 200)
        ("shard " ++ toString s.id ++ ": no node accepted the write")
        s.addrs hosts

def delete (enc : Encoding) (r : Router) (hosts : Hosts) (key : Bytes) :
    Hosts × CallResult :=
  match r.route key with
  | none => (hosts, .panicked)
  | some s =>
      writeLoop enc .delete key enc.noRequest (fun status => status = 204 || status = 200)
        ("shard " ++ toString s.id ++ ": no node accepted the delete")
        s.addrs hosts

def call (enc : Encoding) (r : Router) (hosts : Hosts) : Call → Hosts × CallResult
  | .get key => r.get enc hosts key
  | .put key value => r.put enc hosts key value
  | .delete key => r.delete enc hosts key

/-- A sequence of calls, with their results. -/
def run (enc : Encoding) (r : Router) (hosts : Hosts) :
    List Call → Hosts × List CallResult
  | [] => (hosts, [])
  | c :: cs =>
      let out := r.call enc hosts c
      let rest := r.run enc out.1 cs
      (rest.1, out.2 :: rest.2)

end Router

/-! ## One map -/

namespace Data

/-- What a call does to a map, and what it gives. -/
def call (m : Data) : Call → Data × CallResult
  | .get key => (m, .got ((m key).getD []) (m key).isSome)
  | .put key value => (Function.update m key (some value), .wrote)
  | .delete key => (Function.update m key none, .wrote)

def calls (m : Data) : List Call → Data × List CallResult
  | [] => (m, [])
  | c :: cs =>
      let out := m.call c
      let rest := calls out.1 cs
      (rest.1, out.2 :: rest.2)

end Data

/-! ## Requests for plain keys -/

section Plain

variable (enc : Encoding) (srv : ApiServer) {key : Bytes}

theorem ApiServer.clientDo_plain (h : Plain key) (hne : key ≠ [])
    (hslash : 47 ∉ key) :
    ∃ u, parseUrl (keysPath ++ key) = some u ∧ ∀ method body,
      srv.clientDo enc 10 method u body
        = ((srv.handleKey enc method (keysPath ++ key) body).1,
          some (srv.handleKey enc method (keysPath ++ key) body).2) := by
  obtain ⟨u, u', hparse, harrives, hroute, hpath⟩ := arrives_plain h hne hslash
  refine ⟨u, hparse, ?_⟩
  intro method body
  rw [clientDo, serve, harrives]
  dsimp only
  rw [hroute, hpath]

theorem ApiServer.handleKey_keys (hne : key ≠ []) (hslash : 47 ∉ key)
    (method : Method) (body : enc.Request) :
    srv.handleKey enc method (keysPath ++ key) body
      = match method with
        | .get => (srv, srv.getKey key)
        | .put => srv.putKey enc key body
        | .delete => srv.deleteKey key
        | .other => (srv, ⟨405, .error "method not allowed"⟩) := by
  unfold handleKey
  rw [trimKeys_append]
  exact if_neg (not_or.mpr ⟨hne, hslash⟩)

theorem ApiServer.getKey_eq (hne : key ≠ []) :
    srv.getKey key
      = match srv.store.data key with
        | none => ⟨404, .error "key not found"⟩
        | some value => ⟨200, .key key value true⟩ := by
  rw [getKey, Store.get, if_neg hne]
  cases srv.store.data key <;> rfl

variable {enc} in
theorem ApiServer.putKey_ok (henc : enc.KeepsText) (hne : key ≠ []) {value : Bytes}
    (hvalue : ValidUtf8 value) :
    (srv.putKey enc key (enc.putRequest value)).1.store.data
        = Function.update srv.store.data key (some value)
      ∧ (srv.putKey enc key (enc.putRequest value)).2.status = 200 := by
  obtain ⟨hdata, herr⟩ := srv.store.persistAndApplyLocked_ok srv.disk
    (e := ⟨.upsert, key, value⟩) rfl
  rw [putKey, henc.put value hvalue]
  dsimp only
  rw [Store.upsert, if_neg hne, herr]
  exact ⟨hdata, rfl⟩

theorem ApiServer.deleteKey_ok (hne : key ≠ []) :
    (srv.deleteKey key).1.store.data = Function.update srv.store.data key none
      ∧ (srv.deleteKey key).2.status = 204 := by
  obtain ⟨hdata, herr⟩ := srv.store.persistAndApplyLocked_ok srv.disk
    (e := ⟨.delete, key, []⟩) rfl
  rw [deleteKey, Store.delete, if_neg hne]
  dsimp only
  rw [herr]
  exact ⟨hdata, rfl⟩

end Plain

/-! ## The router refines one map -/

/-- Every shard has one address of its own. -/
structure Router.Sharded (r : Router) (addr : Nat → String) : Prop where
  nonempty : r.shards ≠ []
  total : r.totalShards = r.shards.length
  addrs : ∀ (i : Nat) (s : Shard), r.shards[i]? = some s → s.addrs = [addr i]
  distinct : ∀ i k, i < r.shards.length → k < r.shards.length →
    addr i = addr k → i = k

/-- What the server at an address holds. -/
def Hosts.data (hosts : Hosts) (addr : String) : Data :=
  match hosts addr with
  | some srv => srv.store.data
  | none => .empty

/-- The shards hold the map: each key at its own shard, and everywhere
else what was there at first. -/
structure Router.Holds (r : Router) (addr : Nat → String) (hosts₀ hosts : Hosts)
    (m : Data) : Prop where
  up : ∀ i, i < r.shards.length → ∃ srv, hosts (addr i) = some srv
  data : ∀ i, i < r.shards.length → ∀ key, hosts.data (addr i) key
    = if keyToShard 64 key r.totalShards = some (i : Int) then m key
      else hosts₀.data (addr i) key
  valid : ∀ key value, m key = some value → ValidUtf8 value

section Refine

variable {enc : Encoding} {r : Router} {addr : Nat → String} {hosts₀ hosts : Hosts}
  {m : Data} {key : Bytes}

theorem Hosts.data_of_some {a : String} {srv : ApiServer}
    (h : hosts a = some srv) : hosts.data a = srv.store.data := by
  rw [Hosts.data, h]

theorem Router.Sharded.route (h : r.Sharded addr) (key : Bytes) :
    ∃ i s, i < r.shards.length
      ∧ keyToShard 64 key r.totalShards = some (i : Int)
      ∧ r.route key = some s ∧ s.addrs = [addr i] := by
  have hpos : 0 < r.shards.length := List.length_pos_iff.mpr h.nonempty
  have hshard := keyToShard_eq key (show 1 ≤ (r.shards.length : Int) by omega)
  have hcast : ((fnv32a key).toNat : Int) % r.shards.length
      = (((fnv32a key).toNat % r.shards.length : Nat) : Int) := by omega
  rw [hcast, ← h.total] at hshard
  have hlt := Nat.mod_lt (fnv32a key).toNat hpos
  generalize (fnv32a key).toNat % r.shards.length = i at hshard hlt
  refine ⟨i, r.shards[i], hlt, hshard, ?_,
    h.addrs i _ (List.getElem?_eq_getElem hlt)⟩
  rw [Router.route, hshard]
  exact List.getElem?_eq_getElem hlt

/-- A write at the key's own shard. -/
theorem Router.Holds.write (h : r.Holds addr hosts₀ hosts m)
    (hr : r.Sharded addr) {i : Nat} (hi : i < r.shards.length)
    {srv srv' : ApiServer} (hsrv : hosts (addr i) = some srv)
    {w : Write Bytes Bytes} (hkey : keyToShard 64 w.key r.totalShards = some (i : Int))
    (hdata : srv'.store.data = w.exec srv.store.data)
    (hvalid : ∀ value, w.value = some value → ValidUtf8 value) :
    r.Holds addr hosts₀ (Function.update hosts (addr i) (some srv'))
      (w.exec m) := by
  refine ⟨?_, ?_, ?_⟩
  · intro k hk
    by_cases hik : k = i
    · subst hik
      exact ⟨srv', Function.update_self ..⟩
    · rw [Function.update_of_ne fun heq => hik (hr.distinct k i hk hi heq)]
      exact h.up k hk
  · intro k hk key
    by_cases hik : k = i
    · subst hik
      have hold := h.data k hk key
      rw [Hosts.data_of_some hsrv] at hold
      rw [Hosts.data_of_some (Function.update_self ..), hdata, Write.exec,
        Write.exec]
      by_cases hwk : key = w.key
      · subst hwk
        rw [Function.update_self, if_pos hkey, Function.update_self]
      · rw [Function.update_of_ne hwk, Function.update_of_ne hwk]
        exact hold
    · have hne : addr k ≠ addr i := fun heq => hik (hr.distinct k i hk hi heq)
      have hsame : Hosts.data (Function.update hosts (addr i) (some srv')) (addr k)
          = hosts.data (addr k) := by
        rw [Hosts.data, Hosts.data, Function.update_of_ne hne]
      rw [hsame, h.data k hk key]
      by_cases hshard : keyToShard 64 key r.totalShards = some (k : Int)
      · have hwk : key ≠ w.key := by
          rintro rfl
          rw [hkey] at hshard
          have := Option.some.inj hshard
          omega
        rw [if_pos hshard, if_pos hshard, Write.exec, Function.update_of_ne hwk]
      · rw [if_neg hshard, if_neg hshard]
  · intro key value hv
    rw [Write.exec] at hv
    by_cases hwk : key = w.key
    · subst hwk
      rw [Function.update_self] at hv
      exact hvalid value hv
    · rw [Function.update_of_ne hwk] at hv
      exact h.valid key value hv

/-- A request for a plain key to its own shard. -/
theorem Router.Holds.request (h : r.Holds addr hosts₀ hosts m)
    (hr : r.Sharded addr) (enc : Encoding) (hplain : Plain key) (hne : key ≠ [])
    (hslash : 47 ∉ key) :
    ∃ i s srv u, i < r.shards.length
      ∧ keyToShard 64 key r.totalShards = some (i : Int)
      ∧ r.route key = some s ∧ s.addrs = [addr i] ∧ hosts (addr i) = some srv
      ∧ srv.store.data key = m key ∧ parseUrl (keysPath ++ key) = some u
      ∧ ∀ method body, srv.clientDo enc 10 method u body
        = ((srv.handleKey enc method (keysPath ++ key) body).1,
          some (srv.handleKey enc method (keysPath ++ key) body).2) := by
  obtain ⟨i, s, hi, hshard, hroute, haddrs⟩ := hr.route key
  obtain ⟨srv, hsrv⟩ := h.up i hi
  obtain ⟨u, hparse, hdo⟩ := srv.clientDo_plain enc hplain hne hslash
  refine ⟨i, s, srv, u, hi, hshard, hroute, haddrs, hsrv, ?_, hparse, hdo⟩
  have hdata := h.data i hi key
  rwa [Hosts.data_of_some hsrv, if_pos hshard] at hdata

theorem Router.Holds.get (h : r.Holds addr hosts₀ hosts m) (hr : r.Sharded addr)
    (henc : enc.KeepsText) (hplain : Plain key) (hne : key ≠ [])
    (hslash : 47 ∉ key) :
    r.get enc hosts key = (hosts, .got ((m key).getD []) (m key).isSome) := by
  obtain ⟨i, s, srv, u, hi, hshard, hroute, haddrs, hsrv, hdata, hparse, hdo⟩ :=
    h.request hr enc hplain hne hslash
  have hsame : Function.update hosts (addr i) (some srv) = hosts := by
    rw [← hsrv]
    exact Function.update_eq_self ..
  rw [Router.get, hroute]
  dsimp only
  rw [haddrs, getLoop, hparse, hsrv]
  dsimp only
  rw [hdo, srv.handleKey_keys enc hne hslash]
  dsimp only
  rw [srv.getKey_eq hne, hdata, hsame]
  cases hm : m key with
  | none => rfl
  | some value =>
      dsimp only
      rw [henc.get key value (h.valid key value hm)]
      rfl

/-- A write to a plain key that its server accepts. -/
theorem writeLoop_accepted {s : Shard} {i : Nat} {srv : ApiServer} {u : Url}
    {method : Method} {body : enc.Request} {accepts : Nat → Bool} {error : String}
    (haddrs : s.addrs = [addr i]) (hsrv : hosts (addr i) = some srv)
    (hparse : parseUrl (keysPath ++ key) = some u) {out : ApiServer × Response}
    (hdo : srv.clientDo enc 10 method u body = (out.1, some out.2))
    (haccepts : accepts out.2.status = true) :
    writeLoop enc method key body accepts error s.addrs hosts
      = (Function.update hosts (addr i) (some out.1), .wrote) := by
  rw [haddrs, writeLoop, hparse]
  dsimp only
  rw [hsrv]
  dsimp only
  rw [hdo]
  exact if_pos haccepts

theorem Router.Holds.put (h : r.Holds addr hosts₀ hosts m) (hr : r.Sharded addr)
    (henc : enc.KeepsText) (hplain : Plain key) (hne : key ≠ [])
    (hslash : 47 ∉ key) {value : Bytes} (hvalue : ValidUtf8 value) :
    (r.put enc hosts key value).2 = .wrote
      ∧ r.Holds addr hosts₀ (r.put enc hosts key value).1
        (Function.update m key (some value)) := by
  obtain ⟨i, s, srv, u, hi, hshard, hroute, haddrs, hsrv, -, hparse, hdo⟩ :=
    h.request hr enc hplain hne hslash
  obtain ⟨hdata, hstatus⟩ := srv.putKey_ok henc hne hvalue
  have hhandle := srv.handleKey_keys enc hne hslash .put (enc.putRequest value)
  rw [Router.put, hroute]
  dsimp only
  rw [writeLoop_accepted haddrs hsrv hparse (hdo ..)
    (by rw [hhandle]; exact decide_eq_true hstatus), hhandle]
  refine ⟨rfl, h.write hr hi hsrv (w := ⟨key, some value⟩) hshard hdata ?_⟩
  rintro v ⟨⟩
  exact hvalue

theorem Router.Holds.delete (h : r.Holds addr hosts₀ hosts m)
    (hr : r.Sharded addr) (enc : Encoding) (hplain : Plain key) (hne : key ≠ [])
    (hslash : 47 ∉ key) :
    (r.delete enc hosts key).2 = .wrote
      ∧ r.Holds addr hosts₀ (r.delete enc hosts key).1
        (Function.update m key none) := by
  obtain ⟨i, s, srv, u, hi, hshard, hroute, haddrs, hsrv, -, hparse, hdo⟩ :=
    h.request hr enc hplain hne hslash
  obtain ⟨hdata, hstatus⟩ := srv.deleteKey_ok hne
  have hhandle := srv.handleKey_keys enc hne hslash .delete enc.noRequest
  rw [Router.delete, hroute]
  dsimp only
  rw [writeLoop_accepted haddrs hsrv hparse (hdo ..)
    (by rw [hhandle]; exact Bool.or_eq_true_iff.mpr (.inl (decide_eq_true hstatus))),
    hhandle]
  refine ⟨rfl, h.write hr hi hsrv (w := ⟨key, none⟩) hshard hdata ?_⟩
  intro v hv
  cases hv

/-- A value that is written is UTF-8. -/
def Call.ValidValue : Call → Prop
  | .put _ value => ValidUtf8 value
  | _ => True

/-- The calls the router is for: a key that is one path segment, and
text as value. -/
structure Call.Admissible (c : Call) : Prop where
  nonempty : c.key ≠ []
  slash : 47 ∉ c.key
  value : c.ValidValue

theorem Router.Holds.call (h : r.Holds addr hosts₀ hosts m)
    (hr : r.Sharded addr) (henc : enc.KeepsText) {c : Call} (hc : c.Admissible)
    (hplain : Plain c.key) :
    (r.call enc hosts c).2 = (m.call c).2
      ∧ r.Holds addr hosts₀ (r.call enc hosts c).1 (m.call c).1 := by
  cases c with
  | get key =>
      have hget := h.get hr henc hplain hc.nonempty hc.slash
      refine ⟨congrArg Prod.snd hget, ?_⟩
      rw [show (r.call enc hosts (.get key)).1 = hosts from congrArg Prod.fst hget]
      exact h
  | put key value =>
      exact h.put hr henc hplain hc.nonempty hc.slash hc.value
  | delete key => exact h.delete hr enc hplain hc.nonempty hc.slash

theorem Router.Holds.run (h : r.Holds addr hosts₀ hosts m) (hr : r.Sharded addr)
    (henc : enc.KeepsText) {cs : List Call} (hcs : ∀ c ∈ cs, c.Admissible)
    (hplain : ∀ c ∈ cs, Plain c.key) :
    (r.run enc hosts cs).2 = (m.calls cs).2
      ∧ r.Holds addr hosts₀ (r.run enc hosts cs).1 (m.calls cs).1 := by
  induction cs generalizing hosts m with
  | nil => exact ⟨rfl, h⟩
  | cons c cs ih =>
      obtain ⟨hresult, hholds⟩ := h.call hr henc (hcs c List.mem_cons_self)
        (hplain c List.mem_cons_self)
      obtain ⟨hresults, hfinal⟩ := ih hholds
        (fun c hc => hcs c (List.mem_cons_of_mem _ hc))
        (fun c hc => hplain c (List.mem_cons_of_mem _ hc))
      refine ⟨?_, hfinal⟩
      rw [Router.run, Data.calls]
      dsimp only
      rw [hresult, hresults]

end Refine

/-- The map the shards make up: each key as its own shard has it. -/
def Router.map (r : Router) (addr : Nat → String) (hosts : Hosts) : Data :=
  fun key =>
    hosts.data (addr ((keyToShard 64 key r.totalShards).getD 0).toNat) key

theorem Router.holds_map {r : Router} {addr : Nat → String} {hosts : Hosts}
    (hup : ∀ i, i < r.shards.length → ∃ srv, hosts (addr i) = some srv)
    (hvalid : ∀ key value, r.map addr hosts key = some value → ValidUtf8 value) :
    r.Holds addr hosts hosts (r.map addr hosts) where
  up := hup
  data i hi key := by
    by_cases hshard : keyToShard 64 key r.totalShards = some (i : Int)
    · rw [if_pos hshard, Router.map, hshard]
      rfl
    · rw [if_neg hshard]
  valid := hvalid

theorem Data.calls_no_panic (m : Data) (cs : List Call) :
    .panicked ∉ (m.calls cs).2 := by
  induction cs generalizing m with
  | nil => exact List.not_mem_nil
  | cons c cs ih =>
      rw [Data.calls]
      dsimp only
      rw [List.mem_cons, not_or]
      refine ⟨?_, ih _⟩
      cases c <;> exact fun h => by cases h

/-- With plain keys no call panics, any sequence of calls gives what one
map gives, and a key is changed at its own shard only. -/
theorem router_is_one_map {json : Bytes → Bytes} (hj : KeepsText json) {r : Router}
    {addr : Nat → String} (hr : r.Sharded addr) {hosts : Hosts}
    (hup : ∀ i, i < r.shards.length → ∃ srv, hosts (addr i) = some srv)
    (hvalid : ∀ key value, r.map addr hosts key = some value → ValidUtf8 value)
    {cs : List Call} (hcs : ∀ c ∈ cs, c.Admissible)
    (hplain : ∀ c ∈ cs, Plain c.key) :
    .panicked ∉ (r.run (.strings json) hosts cs).2
      ∧ (r.run (.strings json) hosts cs).2 = ((r.map addr hosts).calls cs).2
      ∧ ∀ i, i < r.shards.length → ∀ key,
        (r.run (.strings json) hosts cs).1.data (addr i) key
          = if keyToShard 64 key r.totalShards = some (i : Int)
            then ((r.map addr hosts).calls cs).1 key
            else hosts.data (addr i) key := by
  obtain ⟨hresults, hholds⟩ :=
    (Router.holds_map hup hvalid).run hr (Encoding.keepsText_strings hj) hcs hplain
  refine ⟨?_, hresults, hholds.data⟩
  rw [hresults]
  exact Data.calls_no_panic _ _

/-! ## Two shards -/

def shardAddr (i : Nat) : String := if i = 0 then "http://shard0" else "http://shard1"

def twoShards : Router :=
  ⟨[⟨0, [shardAddr 0]⟩, ⟨1, [shardAddr 1]⟩], 2⟩

theorem twoShards_sharded : twoShards.Sharded shardAddr where
  nonempty := List.cons_ne_nil _ _
  total := rfl
  addrs i s hs := by
    rcases i with - | - | i
    · cases hs
      rfl
    · cases hs
      rfl
    · cases hs
  distinct i k hi hk h :=
    (by decide : ∀ i < 2, ∀ k < 2, shardAddr i = shardAddr k → i = k) i hi k hk h

/-- Both servers with new stores. -/
def newHosts : Hosts := fun a =>
  if a = shardAddr 0 ∨ a = shardAddr 1 then some ⟨newStore .noop .noop, .empty⟩
  else none

theorem newHosts_data (a : String) : newHosts.data a = .empty := by
  unfold Hosts.data newHosts
  split
  · rename_i srv hsrv
    split at hsrv
    · cases hsrv
      rfl
    · cases hsrv
  · rfl

theorem newHosts_up (i : Nat) (hi : i < twoShards.shards.length) :
    ∃ srv, newHosts (shardAddr i) = some srv := by
  rcases i with - | - | i
  · exact ⟨_, rfl⟩
  · exact ⟨_, rfl⟩
  · exact absurd hi (Nat.not_lt.mpr (Nat.le_add_left 2 i))

theorem one_text : ValidUtf8 [49] := ⟨"1", by decide +kernel⟩

/-- `a` and `b`, which are on different shards. -/
def plainCalls : List Call :=
  [.put [97] [49], .put [98] [50], .get [97], .get [98], .delete [97], .get [97]]

theorem plainCalls_admissible : ∀ c ∈ plainCalls, c.Admissible := by
  simp only [plainCalls, List.forall_mem_cons]
  exact ⟨⟨by decide, by decide, one_text⟩, ⟨by decide, by decide, "2", by decide +kernel⟩,
    ⟨by decide, by decide, trivial⟩, ⟨by decide, by decide, trivial⟩,
    ⟨by decide, by decide, trivial⟩, ⟨by decide, by decide, trivial⟩,
    List.forall_mem_nil _⟩

theorem router_is_one_map_ab :
    (twoShards.run (.strings id) newHosts plainCalls).2
      = [.wrote, .wrote, .got [49] true, .got [50] true, .wrote, .got [] false] := by
  have hvalid : ∀ key value,
      twoShards.map shardAddr newHosts key = some value → ValidUtf8 value := by
    intro key value h
    rw [Router.map, newHosts_data] at h
    cases h
  have hmap : (twoShards.run (.strings id) newHosts plainCalls).2
      = ((twoShards.map shardAddr newHosts).calls plainCalls).2 :=
    (router_is_one_map (fun _ _ => rfl) twoShards_sharded newHosts_up hvalid
      plainCalls_admissible (by decide +kernel)).2.1
  rw [hmap]
  decide +kernel

/-- `Put` of `a?c` and `Get` of `a`, and `Put` of a single `%`. -/
def strayCalls : List Call := [.put [97, 63, 99] [49], .get [97], .put [37] [49]]

/-- The first write lands under `a`, and the second panics. -/
theorem aliased_keys :
    (∀ c ∈ strayCalls, c.Admissible)
      ∧ (twoShards.run (.strings id) newHosts strayCalls).2
        = [.wrote, .got [49] true, .panicked]
      ∧ ((twoShards.map shardAddr newHosts).calls strayCalls).2
        = [.wrote, .got [] false, .wrote] := by
  refine ⟨?_, by decide +kernel, by decide +kernel⟩
  simp only [strayCalls, List.forall_mem_cons]
  exact ⟨⟨by decide, by decide, one_text⟩, ⟨by decide, by decide, trivial⟩,
    ⟨by decide, by decide, one_text⟩, List.forall_mem_nil _⟩

end RaftStore
