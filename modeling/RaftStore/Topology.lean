import RaftStore.Lib.Text
import RaftStore.Router

/-!
# The topology of the client

`LoadFromEnv` of `config/config.go`, which reads the number of shards and
their addresses from the environment, and the router that `cmd/client`
builds from it. Go's `int` is 32 or 64 bits wide. The width bounds the
number of shards, and it decides what becomes of a hash: `KeyToShard`
converts a `uint32` to `int`, and with 32 bits the upper half of the
hashes turns negative. A remainder keeps the sign, and `route` indexes the
slice with it.

`loadFromEnv_eq_ok` says what is accepted and what comes of it. With 64
bits every key is routed; with 32 bits a key of the upper half panics
unless the remainder happens to be zero (`accepted_topology_routes`,
`negative_hash_panics`).
-/

namespace RaftStore

open Text

/-! ## `LoadFromEnv` -/

/-- `os.Getenv`: empty where there is no such variable. -/
abbrev Env := String → Bytes

structure Config where
  totalShards : Int
  shards : List Shard

/-- The loop over the pieces of one variable. -/
def addrsLoop : (addrs : List Bytes) → List Bytes → List Bytes
  | addrs, [] => addrs
  | addrs, a :: rest =>
      if trimSpace a ≠ [] then addrsLoop (addrs ++ [trimSpace a]) rest
      else addrsLoop addrs rest

def addrsVar (i : Nat) : String := "CLIENT_SHARD_" ++ toString i ++ "_ADDRS"

/-- The loop over the shards: `n` more of them, from the `i`-th on. -/
def shardsLoop (env : Env) : (n i : Nat) → List Shard → Except String (List Shard)
  | 0, _, shards => .ok shards
  | n + 1, i, shards =>
      let key := addrsVar i
      let raw := env key
      if raw = [] then .error ("missing env var " ++ key)
      else
        let addrs := addrsLoop [] (raw.splitOn 44)
        if addrs = [] then .error (key ++ " is empty")
        else shardsLoop env n (i + 1) (shards ++ [⟨i, addrs.map latin1⟩])

/-- `CLIENT_SHARDS_TOTAL`, or its default. -/
def totalStr (env : Env) : Bytes :=
  if env "CLIENT_SHARDS_TOTAL" = [] then utf8 "1" else env "CLIENT_SHARDS_TOTAL"

/-- `quote` is the verb `%q`. -/
def loadFromEnv (quote : Bytes → String) (intBits : Nat) (env : Env) :
    Except String Config :=
  let notPositive := "CLIENT_SHARDS_TOTAL must be a positive integer, got " ++ quote (totalStr env)
  match atoi intBits (totalStr env) with
  | none => .error notPositive
  | some total =>
      if total < 1 then .error notPositive
      else
        match shardsLoop env total.toNat 0 [] with
        | .error err => .error err
        | .ok shards => .ok ⟨total, shards⟩

/-! ## The router on either platform -/

/-- `cmd/client` hands the topology to `NewRouter`. -/
def Config.router (cfg : Config) : Router := ⟨cfg.shards, cfg.totalShards⟩

namespace Router

def shardFor (intBits : Nat) (r : Router) (key : Bytes) : Option Int :=
  keyToShard intBits key r.totalShards

/-- `route` with an `int` of the given width. -/
def routeOn (intBits : Nat) (r : Router) (key : Bytes) : Option Shard :=
  match keyToShard intBits key r.totalShards with
  | none => none
  | some id => if 0 ≤ id then r.shards[id.toNat]? else none

theorem route_eq (r : Router) (key : Bytes) : r.route key = r.routeOn 64 key := rfl

end Router

/-! ## What is accepted -/

theorem addrsLoop_eq (addrs pieces : List Bytes) :
    addrsLoop addrs pieces = addrs ++ trimAll pieces := by
  induction pieces generalizing addrs with
  | nil => exact (List.append_nil addrs).symm
  | cons a rest ih =>
      rw [addrsLoop]
      by_cases h : trimSpace a = []
      · rw [if_neg (not_not.mpr h), ih, trimAll_cons_blank h]
      · rw [if_pos h, ih, trimAll_cons h, List.append_assoc]
        rfl

theorem addrsLoop_fields (raw : Bytes) : addrsLoop [] (raw.splitOn 44) = fields 44 raw :=
  addrsLoop_eq [] _

/-- The addresses of a shard. -/
def addrsOf (env : Env) (i : Nat) : List Bytes := fields 44 (env (addrsVar i))

def shardOf (env : Env) (i : Nat) : Shard := ⟨i, (addrsOf env i).map latin1⟩

theorem shardsLoop_eq_ok {env : Env} {n i : Nat} {shards out : List Shard} :
    shardsLoop env n i shards = .ok out ↔
      (∀ k ∈ List.range' i n, addrsOf env k ≠ [])
        ∧ out = shards ++ (List.range' i n).map (shardOf env) := by
  induction n generalizing i shards with
  | zero =>
      rw [shardsLoop, List.range'_zero, List.map_nil, List.append_nil, Except.ok.injEq]
      exact ⟨fun h => ⟨List.forall_mem_nil _, h.symm⟩, fun h => h.2.symm⟩
  | succ n ih =>
      rw [shardsLoop, List.range'_succ, List.forall_mem_cons, List.map_cons]
      dsimp only
      rw [addrsLoop_fields]
      -- an empty variable has no field either, so the two errors are one case
      by_cases hne : addrsOf env i = []
      · refine iff_of_false ?_ fun h => h.1.1 hne
        rw [if_pos (show fields 44 (env (addrsVar i)) = [] from hne)]
        split <;> exact nofun
      · have hraw : env (addrsVar i) ≠ [] := by
          intro hraw
          refine hne ?_
          rw [addrsOf, hraw]
          decide +kernel
        rw [if_neg hraw, if_neg (show fields 44 (env (addrsVar i)) ≠ [] from hne), ih,
          List.append_assoc]
        exact and_congr_left' (and_iff_right hne).symm

/-- What `LoadFromEnv` accepts, and what it makes of it. -/
theorem loadFromEnv_eq_ok {quote : Bytes → String} {intBits : Nat} {env : Env} {cfg : Config} :
    loadFromEnv quote intBits env = .ok cfg ↔
      atoi intBits (totalStr env) = some cfg.totalShards ∧ 1 ≤ cfg.totalShards
        ∧ (∀ k < cfg.totalShards.toNat, addrsOf env k ≠ [])
        ∧ cfg.shards = (List.range cfg.totalShards.toNat).map (shardOf env) := by
  obtain ⟨total, shards⟩ := cfg
  rw [loadFromEnv]
  dsimp only
  cases atoi intBits (totalStr env) with
  | none => exact iff_of_false nofun fun h => nomatch h.1
  | some t =>
      dsimp only
      by_cases ht : t < 1
      · rw [if_pos ht]
        refine iff_of_false nofun ?_
        rintro ⟨heq, hpos, -⟩
        cases heq
        omega
      · have hloop := @shardsLoop_eq_ok env t.toNat 0 []
        simp only [List.nil_append, ← List.range_eq_range', List.mem_range] at hloop
        rw [if_neg ht]
        constructor
        · intro h
          cases hout : shardsLoop env t.toNat 0 [] with
          | error err =>
              rw [hout] at h
              cases h
          | ok out =>
              rw [hout] at h
              cases h
              exact ⟨rfl, Int.not_lt.mp ht, hloop.mp hout⟩
        · rintro ⟨heq, -, hall⟩
          cases heq
          rw [hloop.mpr hall]

/-! ## Where a key goes -/

/-- With 32 bits the upper half of the hashes turns negative. -/
theorem toInt_setWidth_32 (h : UInt32) :
    (h.toBitVec.setWidth 32).toInt
      = if h.toNat < 2 ^ 31 then (h.toNat : Int) else -(2 ^ 32 - h.toNat) := by
  rw [BitVec.setWidth_eq, BitVec.toInt_eq_toNat_cond]
  have hnat : h.toBitVec.toNat = h.toNat := rfl
  rw [hnat]
  split <;> split <;> omega

/-- The remainder of a negative number is negative, or zero. -/
theorem tmod_neg_nonneg {m total : Int} (hm : 0 ≤ m) (htotal : 1 ≤ total) :
    0 ≤ (-m).tmod total ↔ total ∣ m := by
  rw [Int.neg_tmod, Int.tmod_eq_emod_of_nonneg hm, Int.dvd_iff_emod_eq_zero]
  have := Int.emod_nonneg m (show total ≠ 0 by omega)
  omega

/-- The hash is not negative as an `int`, or the remainder is zero. -/
def Routable (intBits : Nat) (total : Int) (key : Bytes) : Prop :=
  intBits = 64 ∨ (fnv32a key).toNat < 2 ^ 31 ∨ total ∣ 2 ^ 32 - (fnv32a key).toNat

theorem keyToShard_spec {intBits : Nat} (hbits : intBits = 32 ∨ intBits = 64) {total : Int}
    (htotal : 1 ≤ total) (key : Bytes) :
    ∃ id, keyToShard intBits key total = some id ∧ id < total
      ∧ (0 ≤ id ↔ Routable intBits total key) := by
  have hlt : (fnv32a key).toNat < 2 ^ 32 := (fnv32a key).toNat_lt
  refine ⟨_, if_neg (by omega), Int.tmod_lt_of_pos _ (by omega), ?_⟩
  rcases hbits with rfl | rfl
  · rw [toInt_setWidth_32, Routable]
    by_cases h : (fnv32a key).toNat < 2 ^ 31
    · rw [if_pos h]
      exact iff_of_true (Int.tmod_nonneg _ (Int.natCast_nonneg _)) (.inr (.inl h))
    · rw [if_neg h, tmod_neg_nonneg (by omega) htotal]
      constructor
      · intro hdvd
        exact .inr (.inr hdvd)
      · rintro (hbits | hsmall | hdvd)
        · cases hbits
        · exact absurd hsmall h
        · exact hdvd
  · rw [toInt_setWidth]
    exact iff_of_true (Int.tmod_nonneg _ (Int.natCast_nonneg _)) (.inl rfl)

theorem routeOn_eq {quote : Bytes → String} {intBits : Nat} {env : Env} {cfg : Config}
    (hload : loadFromEnv quote intBits env = .ok cfg) {key : Bytes} {id : Int}
    (hid : keyToShard intBits key cfg.totalShards = some id) (hlt : id < cfg.totalShards) :
    cfg.router.routeOn intBits key
      = if 0 ≤ id then some (shardOf env id.toNat) else none := by
  obtain ⟨-, -, -, hshards⟩ := loadFromEnv_eq_ok.mp hload
  have hid' : keyToShard intBits key cfg.router.totalShards = some id := hid
  rw [Router.routeOn, hid']
  dsimp only
  by_cases h : 0 ≤ id
  · have hget : cfg.router.shards[id.toNat]? = some (shardOf env id.toNat) := by
      rw [Config.router, hshards, List.getElem?_map, List.getElem?_range (by omega)]
      rfl
    rw [if_pos h, if_pos h, hget]
  · rw [if_neg h, if_neg h]

/-- There is a number of shards, and each of them has an address. -/
def Accepted (intBits : Nat) (env : Env) : Prop :=
  ∃ total, atoi intBits (totalStr env) = some total ∧ 1 ≤ total
    ∧ ∀ i < total.toNat, ∃ piece ∈ (env (addrsVar i)).splitOn 44, ¬ Blank piece

theorem loads_iff_accepted {quote : Bytes → String} {intBits : Nat} {env : Env} :
    (∃ cfg, loadFromEnv quote intBits env = .ok cfg) ↔ Accepted intBits env := by
  constructor
  · rintro ⟨cfg, hload⟩
    obtain ⟨htotal, hpos, hall, -⟩ := loadFromEnv_eq_ok.mp hload
    exact ⟨_, htotal, hpos, fun i hi => fields_ne_nil.mp (hall i hi)⟩
  · rintro ⟨total, htotal, hpos, hall⟩
    refine ⟨⟨total, (List.range total.toNat).map (shardOf env)⟩,
      loadFromEnv_eq_ok.mpr ⟨htotal, hpos, ?_, rfl⟩⟩
    intro i hi
    exact fields_ne_nil.mpr (hall i hi)

/-- Whatever is accepted, each key goes to the shard of its number, as far
as that is a number of a shard. -/
theorem accepted_topology_routes (quote : Bytes → String) {intBits : Nat}
    (hbits : intBits = 32 ∨ intBits = 64) (env : Env) :
    ((∃ cfg, loadFromEnv quote intBits env = .ok cfg) ↔ Accepted intBits env)
      ∧ ∀ cfg, loadFromEnv quote intBits env = .ok cfg → ∀ key,
        ((∃ s, cfg.router.routeOn intBits key = some s)
            ↔ Routable intBits cfg.totalShards key)
          ∧ ∀ s, cfg.router.routeOn intBits key = some s →
            cfg.router.shardFor intBits key = some s.id
              ∧ ∃ addrs : List Bytes, s.addrs = addrs.map latin1 ∧ addrs ≠ []
                ∧ addrs = fields 44 (env (addrsVar s.id.toNat))
                ∧ ∀ a ∈ addrs, Trimmed a := by
  refine ⟨loads_iff_accepted, ?_⟩
  intro cfg hload key
  obtain ⟨-, hpos, hall, -⟩ := loadFromEnv_eq_ok.mp hload
  obtain ⟨id, hid, hlt, hroutable⟩ := keyToShard_spec hbits hpos key
  rw [routeOn_eq hload hid hlt, ← hroutable]
  by_cases h : 0 ≤ id
  · rw [if_pos h]
    refine ⟨iff_of_true ⟨_, rfl⟩ h, ?_⟩
    rintro s hs
    cases hs
    have hcast : ((id.toNat : Nat) : Int) = id := Int.toNat_of_nonneg h
    refine ⟨hid.trans (congrArg some hcast.symm), addrsOf env id.toNat, rfl,
      hall _ (by omega), rfl, ?_⟩
    intro a ha
    exact (fields_spec ha).2
  · rw [if_neg h]
    exact ⟨iff_of_false nofun h, nofun⟩

/-- Two shards, the second with two addresses that are not trimmed. -/
def twoShardsEnv : Env := fun name =>
  if name = "CLIENT_SHARDS_TOTAL" then utf8 "2"
  else if name = "CLIENT_SHARD_0_ADDRS" then utf8 "http://h:1"
  else if name = "CLIENT_SHARD_1_ADDRS" then utf8 "http://h:2 ,, http://h:3"
  else []

def twoShardsConfig : Config := ⟨2, [shardOf twoShardsEnv 0, shardOf twoShardsEnv 1]⟩

theorem loadFromEnv_twoShards (quote : Bytes → String) {intBits : Nat}
    (hbits : intBits = 32 ∨ intBits = 64) :
    loadFromEnv quote intBits twoShardsEnv = .ok twoShardsConfig := by
  refine loadFromEnv_eq_ok.mpr ⟨?_, by decide, ?_, rfl⟩
  · rcases hbits with rfl | rfl <;> decide +kernel
  · decide +kernel

theorem accepted_topology_routes_two :
    ∃ s, twoShardsConfig.router.routeOn 64 (utf8 "b") = some s ∧ s.id = 1
      ∧ s.addrs = [utf8 "http://h:2", utf8 "http://h:3"].map latin1 := by
  obtain ⟨-, hroutes⟩ :=
    accepted_topology_routes (fun _ => "") (.inr rfl) twoShardsEnv
  obtain ⟨hsome, hshard⟩ :=
    hroutes _ (loadFromEnv_twoShards _ (.inr rfl)) (utf8 "b")
  obtain ⟨s, hs⟩ := hsome.mpr (.inl rfl)
  obtain ⟨hid, addrs, haddrs, -, hfields, -⟩ := hshard s hs
  have hone : twoShardsConfig.router.shardFor 64 (utf8 "b") = some 1 := by decide +kernel
  have hs1 : s.id = 1 := Option.some.inj (hid.symm.trans hone)
  refine ⟨s, hs, hs1, ?_⟩
  rw [haddrs, hfields, hs1]
  refine congrArg (List.map latin1) ?_
  decide +kernel

/-- With a 32-bit `int` the hash of the key `b` is negative and odd. -/
theorem negative_hash_panics :
    ∃ env cfg key, (∀ quote, loadFromEnv quote 32 env = .ok cfg)
      ∧ cfg.router.shardFor 32 key = some (-1) ∧ cfg.router.routeOn 32 key = none := by
  have hshard : keyToShard 32 (utf8 "b") twoShardsConfig.totalShards = some (-1) := by
    decide +kernel
  refine ⟨twoShardsEnv, twoShardsConfig, utf8 "b", ?_, hshard, ?_⟩
  · intro quote
    exact loadFromEnv_twoShards quote (.inl rfl)
  · rw [routeOn_eq (loadFromEnv_twoShards (fun _ => "") (.inl rfl)) hshard (by decide)]
    rfl

end RaftStore
