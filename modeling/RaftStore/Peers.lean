import RaftStore.Commands
import RaftStore.Hashing
import RaftStore.Http
import RaftStore.Lib.Text
import RaftStore.OneNode

/-!
# The peers a node is given

`parsePeers` of `cmd/node/main.go` reads `RAFT_PEERS` into the list of ids
that `NewNode` takes and the map of addresses that the transport takes.
The ids are always the keys of the map. But nothing is checked about them:
an id may be there twice, and it may be the node's own.

The quorum code takes each element of the list for another node; what it
then counts is the subject of `Voters`.

Nodes that name one another once are a `Cluster`, so what is known of
clusters is known of them (`Deployment.cluster`, `Deployment.starts`).
-/

namespace RaftStore

open Runs Quorum Text LastWrite

/-! ## `parsePeers` -/

/-- `rpc.PeerMap`. -/
abbrev PeerMap := Bytes → Option Bytes

/-- The loop over the entries. `log.Fatalf` ends the process; `quote` is
the verb `%q`. -/
def parsePeersLoop (quote : Bytes → String) :
    (ids : List Bytes) → (addrs : PeerMap) → List Bytes →
      Except String (List Bytes × PeerMap)
  | ids, addrs, [] => .ok (ids, addrs)
  | ids, addrs, entry :: rest =>
      let entry := trimSpace entry
      if entry = [] then parsePeersLoop quote ids addrs rest
      else
        match cut 64 entry with
        | (_, none) =>
            .error ("bad peer entry " ++ quote entry ++ " — want nodeID@host:port")
        | (id, some hostport) =>
            parsePeersLoop quote (ids ++ [id])
              (Function.update addrs id (some (utf8 "http://" ++ hostport))) rest

def parsePeers (quote : Bytes → String) (raw : Bytes) :
    Except String (List Bytes × PeerMap) :=
  parsePeersLoop quote [] (fun _ => none) (raw.splitOn 44)

/-! ## What it reads -/

/-- The id an entry names. -/
def entryId (entry : Bytes) : Bytes := (cut 64 entry).1

/-- The address it gives to the id. -/
def entryAddr (entry : Bytes) : Option Bytes :=
  (cut 64 entry).2.map fun hostport => utf8 "http://" ++ hostport

/-- What an entry writes into the map. -/
def entryWrite (entry : Bytes) : Write Bytes Bytes := ⟨entryId entry, entryAddr entry⟩

theorem parsePeersLoop_eq_ok {quote : Bytes → String} {pieces ids : List Bytes}
    {addrs : PeerMap} {out : List Bytes × PeerMap} :
    parsePeersLoop quote ids addrs pieces = .ok out ↔
      (∀ e ∈ trimAll pieces, (entryAddr e).isSome = true)
        ∧ out = (ids ++ (trimAll pieces).map entryId,
          run ((trimAll pieces).map entryWrite) addrs) := by
  induction pieces generalizing ids addrs with
  | nil =>
      have hnil : trimAll [] = [] := rfl
      rw [parsePeersLoop, hnil, List.map_nil, List.map_nil, List.append_nil, Except.ok.injEq]
      exact ⟨fun h => ⟨List.forall_mem_nil _, h.symm⟩, fun h => h.2.symm⟩
  | cons piece rest ih =>
      rw [parsePeersLoop]
      by_cases hblank : trimSpace piece = []
      · rw [if_pos hblank, trimAll_cons_blank hblank]
        exact ih
      · rw [if_neg hblank, trimAll_cons hblank, List.forall_mem_cons, List.map_cons,
          List.map_cons]
        cases hcut : cut 64 (trimSpace piece) with
        | mk id hostport =>
            have hid : entryId (trimSpace piece) = id := congrArg Prod.fst hcut
            have haddr : entryAddr (trimSpace piece)
                = hostport.map fun hostport => utf8 "http://" ++ hostport := by
              rw [entryAddr, hcut]
            rw [haddr, entryWrite, hid, haddr]
            cases hostport with
            | none => exact iff_of_false nofun fun h => nomatch h.1.1
            | some hostport =>
                dsimp only
                rw [ih, List.append_assoc]
                exact and_congr_left' (and_iff_right rfl).symm

/-- What `parsePeers` accepts: there is an `@` in every entry. The ids come
in their order, and each writes its address into the map. -/
theorem parsePeers_eq_ok {quote : Bytes → String} {raw : Bytes} {out : List Bytes × PeerMap} :
    parsePeers quote raw = .ok out ↔
      (∀ e ∈ fields 44 raw, (entryAddr e).isSome = true)
        ∧ out = ((fields 44 raw).map entryId,
          run ((fields 44 raw).map entryWrite) (fun _ => none)) :=
  parsePeersLoop_eq_ok

theorem touches_entries {entries : List Bytes} {id : Bytes} :
    Touches (entries.map entryWrite) id ↔ id ∈ entries.map entryId := by
  simp only [Touches, List.mem_map, exists_exists_and_eq_and]
  exact Iff.rfl

/-- Whatever is written twice, the keys of the map are the ids. -/
theorem addrs_isSome {entries : List Bytes} (hsome : ∀ e ∈ entries, (entryAddr e).isSome = true)
    (id : Bytes) :
    id ∈ entries.map entryId
      ↔ (run (entries.map entryWrite) (fun _ => none) id).isSome = true := by
  rw [← touches_entries]
  constructor
  · intro h
    obtain ⟨w, hw, -, hval⟩ := run_value (m := fun _ => none) h
    obtain ⟨e, he, rfl⟩ := List.mem_map.mp hw
    rw [hval]
    exact hsome e he
  · intro h
    by_contra hno
    rw [run_untouched hno] at h
    cases h

/-- An id that is there once has the address of its entry. -/
theorem addrs_of_nodup {entries : List Bytes} (hnodup : (entries.map entryId).Nodup)
    {e : Bytes} (he : e ∈ entries) :
    run (entries.map entryWrite) (fun _ => none) (entryId e) = entryAddr e := by
  refine run_agreed (touches_entries.mpr (List.mem_map_of_mem he)) ?_
  intro w hw hkey
  obtain ⟨e', he', rfl⟩ := List.mem_map.mp hw
  rw [List.inj_on_of_nodup_map hnodup he' he hkey]
  rfl

/-- Of several entries for an id the last gives the address. -/
def addressOf (raw id : Bytes) : Option Bytes :=
  ((fields 44 raw).reverse.find? fun e => entryId e = id).bind entryAddr

theorem addrs_eq (entries : List Bytes) (id : Bytes) :
    run (entries.map entryWrite) (fun _ => none) id
      = (entries.reverse.find? fun e => entryId e = id).bind entryAddr := by
  induction entries using List.reverseRecOn with
  | nil => rfl
  | append_singleton entries e ih =>
      have hlast : run ((entries ++ [e]).map entryWrite) (fun _ => none)
          = Function.update (run (entries.map entryWrite) fun _ => none) (entryId e)
            (entryAddr e) := by
        rw [List.map_append, run_append]
        rfl
      rw [hlast, List.reverse_append]
      by_cases hid : entryId e = id
      · subst hid
        simp
      · rw [Function.update_of_ne (Ne.symm hid), ih]
        simp [hid]

/-- No id is there twice, and none is the node's own. -/
structure DistinctPeers (nodeID raw : Bytes) : Prop where
  nodup : ((fields 44 raw).map entryId).Nodup
  other : nodeID ∉ (fields 44 raw).map entryId

theorem distinctPeers_iff {quote : Bytes → String} {nodeID raw : Bytes} {ids : List Bytes}
    {addrs : PeerMap} (hparse : parsePeers quote raw = .ok (ids, addrs)) :
    ids.Nodup ∧ nodeID ∉ ids ↔ DistinctPeers nodeID raw := by
  obtain ⟨-, hout⟩ := parsePeers_eq_ok.mp hparse
  cases hout
  exact ⟨fun h => ⟨h.1, h.2⟩, fun h => ⟨h.nodup, h.other⟩⟩

/-- `main` starts the node with what was read. A name is opaque to the
node, so the text of an id is as good as its bytes. -/
def startNode (nodeID : Bytes) (ids : List Bytes) : Proc :=
  newProc (latin1 nodeID) (ids.map latin1) true

/-! ## Clusters as they are started

A `Cluster` has a list of peers for each node, without repetition and
without the node itself. Nodes whose `RAFT_PEERS` name one another are
one. -/

/-- Nodes, each with a `RAFT_PEERS` that names the others once. -/
structure Deployment where
  ids : List Bytes
  raw : Bytes → Bytes
  nodup : ids.Nodup
  named : [] ∉ ids
  once : ∀ n ∈ ids, ((fields 44 (raw n)).map entryId).Nodup
  others : ∀ n ∈ ids, ∀ id, id ∈ (fields 44 (raw n)).map entryId ↔ id ∈ ids ∧ id ≠ n

namespace Deployment

variable (d : Deployment) {n : Bytes}

theorem distinctPeers (hn : n ∈ d.ids) : DistinctPeers n (d.raw n) :=
  ⟨d.once n hn, fun hmem => ((d.others n hn n).mp hmem).2 rfl⟩

/-- The peers of a node, by the name it has in the model. -/
def peers (name : String) : List String :=
  match d.ids.find? fun n => latin1 n = name with
  | some n => ((fields 44 (d.raw n)).map entryId).map latin1
  | none => []

theorem peers_latin1 (hn : n ∈ d.ids) :
    d.peers (latin1 n) = ((fields 44 (d.raw n)).map entryId).map latin1 := by
  rw [peers]
  cases hfind : d.ids.find? fun m => latin1 m = latin1 n with
  | none => exact absurd (decide_eq_true rfl) (List.find?_eq_none.mp hfind n hn)
  | some m =>
      have hname := List.find?_some hfind
      rw [latin1_injective (of_decide_eq_true hname)]

def cluster : Cluster where
  members := d.ids.map latin1
  peers := d.peers
  applyCh _ := true
  nodup := d.nodup.map latin1_injective
  named h := by
    obtain ⟨n, hn, hname⟩ := List.mem_map.mp h
    have hnil : latin1 n = latin1 [] := hname
    exact d.named (latin1_injective hnil ▸ hn)
  peers_nodup name hname := by
    obtain ⟨n, hn, rfl⟩ := List.mem_map.mp hname
    rw [d.peers_latin1 hn]
    exact (d.once n hn).map latin1_injective
  mem_peers name hname p := by
    obtain ⟨n, hn, rfl⟩ := List.mem_map.mp hname
    rw [d.peers_latin1 hn, List.mem_map, List.mem_map]
    constructor
    · rintro ⟨id, hid, rfl⟩
      obtain ⟨hmem, hne⟩ := (d.others n hn id).mp hid
      exact ⟨⟨id, hmem, rfl⟩, fun heq => hne (latin1_injective heq)⟩
    · rintro ⟨⟨id, hid, rfl⟩, hne⟩
      exact ⟨id, (d.others n hn id).mpr ⟨hid, fun heq => hne (congrArg latin1 heq)⟩, rfl⟩

variable {quote : Bytes → String} {ids : List Bytes} {addrs : PeerMap}

/-- The processes of the cluster are those that `main` starts. -/
theorem starts (hn : n ∈ d.ids) (hparse : parsePeers quote (d.raw n) = .ok (ids, addrs)) :
    newProc (latin1 n) (d.cluster.peers (latin1 n)) (d.cluster.applyCh (latin1 n))
      = startNode n ids := by
  obtain ⟨-, hout⟩ := parsePeers_eq_ok.mp hparse
  cases hout
  exact congrArg (newProc (latin1 n) · true) (d.peers_latin1 hn)

end Deployment

end RaftStore
