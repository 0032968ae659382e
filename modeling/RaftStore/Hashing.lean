import Mathlib.Data.Nat.Bitwise
import RaftStore.Store

/-!
# Hashing keys to shards

`KeyToShard` of `shard/hashing.go`, which every client must compute alike,
and the second implementation of it in the load test
(`horizontal_scaling/experiment.py`). One wraps in `uint32` and converts
to a signed `int` before the remainder, the other masks unbounded
integers; `routes_alike` is that they agree.
-/

namespace RaftStore

/-- `str.encode()`, and the bytes of the Go string with the same text. -/
def utf8 (s : String) : Bytes := s.toUTF8.data.toList

/-! ## Go -/

/-- `hash/fnv.New32a`: FNV-1a with wrap-around. -/
def fnv32a (bytes : Bytes) : UInt32 :=
  bytes.foldl (fun h b => (h ^^^ b.toUInt32) * 16777619) 2166136261

/-- `KeyToShard` with an `int` of the given width. The conversion keeps
the low bits, the remainder has the sign of the dividend, and division by
zero panics. -/
def keyToShard (intBits : Nat) (key : Bytes) (totalShards : Int) : Option Int :=
  if totalShards = 0 then none
  else some (((fnv32a key).toBitVec.setWidth intBits).toInt.tmod totalShards)

/-! ## Python -/

namespace Experiment

def fnvOffset : Nat := 0x811C9DC5

def fnvPrime : Nat := 0x01000193

def fnv1a32 (s : String) : Nat :=
  (utf8 s).foldl (fun h b => ((h ^^^ b.toNat) * fnvPrime) &&& 0xFFFFFFFF) fnvOffset

/-- The remainder of Python rounds down; a modulus of zero raises. -/
def keyToShard (key : String) (totalShards : Int) : Option Int :=
  if totalShards = 0 then none else some ((fnv1a32 key : Int).fmod totalShards)

end Experiment

/-! ## Agreement -/

/-- One byte of the fold, in `uint32` and masked. -/
theorem fnv_byte (h : UInt32) (b : UInt8) :
    ((h ^^^ b.toUInt32) * 16777619).toNat
      = ((h.toNat ^^^ b.toNat) * Experiment.fnvPrime) &&& 0xFFFFFFFF := by
  rw [show 0xFFFFFFFF = 2 ^ 32 - 1 from rfl, Nat.and_two_pow_sub_one_eq_mod,
    UInt32.toNat_mul, UInt32.toNat_xor, UInt8.toNat_toUInt32]
  rfl

theorem fnv_fold (bytes : Bytes) (h : UInt32) :
    (bytes.foldl (fun h b => (h ^^^ b.toUInt32) * 16777619) h).toNat
      = bytes.foldl
        (fun h b => ((h ^^^ b.toNat) * Experiment.fnvPrime) &&& 0xFFFFFFFF)
        h.toNat := by
  induction bytes generalizing h with
  | nil => rfl
  | cons b bytes ih => rw [List.foldl_cons, List.foldl_cons, ih, fnv_byte]

theorem fnv32a_eq (s : String) : (fnv32a (utf8 s)).toNat = Experiment.fnv1a32 s :=
  fnv_fold (utf8 s) _

/-- A 64-bit `int` holds every hash. -/
theorem toInt_setWidth (h : UInt32) :
    (h.toBitVec.setWidth 64).toInt = h.toNat := by
  have hlt : h.toNat < 2 ^ 32 := h.toNat_lt
  have hwidth : (h.toBitVec.setWidth 64).toNat = h.toNat := by
    rw [BitVec.toNat_setWidth_of_le (by decide)]
    rfl
  rw [BitVec.toInt_eq_toNat_of_lt (by omega), hwidth]

theorem keyToShard_eq (key : Bytes) {total : Int} (h : 1 ≤ total) :
    keyToShard 64 key total = some ((fnv32a key).toNat % total) := by
  rw [keyToShard, if_neg (by omega), toInt_setWidth,
    Int.tmod_eq_emod_of_nonneg (Int.natCast_nonneg _)]

theorem routes_alike (key : String) (total : Int) (h : 1 ≤ total) :
    ∃ shard, keyToShard 64 (utf8 key) total = some shard
      ∧ Experiment.keyToShard key total = some shard
      ∧ 0 ≤ shard ∧ shard < total := by
  refine ⟨(fnv32a (utf8 key)).toNat % total, keyToShard_eq _ h, ?_,
    Int.emod_nonneg _ (by omega), Int.emod_lt_of_pos _ (by omega)⟩
  rw [Experiment.keyToShard, if_neg (by omega), fnv32a_eq,
    Int.fmod_eq_emod_of_nonneg _ (by omega)]

theorem routes_alike_alpha :
    ∃ shard, keyToShard 64 (utf8 "alpha") 3 = some shard
      ∧ Experiment.keyToShard "alpha" 3 = some shard
      ∧ 0 ≤ shard ∧ shard < 3 :=
  routes_alike "alpha" 3 (by decide)

end RaftStore
