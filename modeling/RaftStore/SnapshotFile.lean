import Mathlib.Data.List.AList
import RaftStore.FileWal

/-!
# The bytes of the snapshot

`Store` keeps the snapshot as the map it decodes to. Here it is the file of
`storage/snapshot.go`: `Save` writes the map as one JSON object, with the
keys in order, and `Load` reads the object into a new map, member by member.

A map comes back as it was exactly when its keys and values are valid UTF-8
(`snapshot_reads_back`). Other bytes are replaced on the way, and keys that
become equal by that fall together.
-/

namespace RaftStore

open Utf8 Json LastWrite

/-- A `map[string]string`. -/
abbrev GoMap := AList (fun _ : Bytes => Bytes)

namespace GoMap

def empty : GoMap := ∅

def get (m : GoMap) : Data := fun k => m.lookup k

def set (m : GoMap) (k v : Bytes) : GoMap := AList.insert k v m

def delete (m : GoMap) (k : Bytes) : GoMap := AList.erase k m

def pairs (m : GoMap) : List (Bytes × Bytes) := m.entries.map fun e => (e.1, e.2)

/-- `json.Marshal` sorts the keys. -/
def members (m : GoMap) : List (Bytes × Bytes) :=
  m.pairs.mergeSort fun a b => a.1 ≤ b.1

def marshal (m : GoMap) : Bytes := writeObject m.members

/-- A null leaves the new element of the map empty. -/
def setMember (m : GoMap) : Bytes × Value → Option GoMap
  | (key, .string s) => some (m.set key s)
  | (key, .null) => some (m.set key [])
  | _ => none

end GoMap

/-- What `Load` returns; a file that is the text null makes the map nil. -/
inductive LoadedMap where
  | error
  | nil
  | map (m : GoMap)

/-- `FileSnapshot.Load`, of a file that may not exist. -/
def loadSnapshotFile : Option Bytes → LoadedMap
  | none => .map .empty
  | some payload =>
      if payload = [] then .map .empty
      else
        match parse payload with
        | some .null => .nil
        | some (.object ms) =>
            match ms.foldlM GoMap.setMember .empty with
            | some m => .map m
            | none => .error
        | _ => .error

/-! ## Members as writes -/

namespace GoMap

theorem mem_members {m : GoMap} {k v : Bytes} : (k, v) ∈ m.members ↔ m.get k = some v := by
  have hmem : (k, v) ∈ m.pairs ↔ Sigma.mk k v ∈ m.entries := by
    simp only [pairs, List.mem_map, Prod.mk.injEq]
    constructor
    · rintro ⟨⟨k', v'⟩, hmem, rfl, rfl⟩
      exact hmem
    · exact fun h => ⟨⟨k, v⟩, h, rfl, rfl⟩
  rw [members, List.mem_mergeSort, hmem, get]
  exact AList.mem_lookup_iff.symm

theorem get_set (m : GoMap) (k v : Bytes) :
    (m.set k v).get = Function.update m.get k (some v) := by
  funext k'
  by_cases h : k' = k
  · subst h
    simp [get, set]
  · simp [get, set, AList.lookup_insert_ne h, Function.update_of_ne h]

theorem get_delete (m : GoMap) (k : Bytes) :
    (m.delete k).get = Function.update m.get k none := by
  funext k'
  by_cases h : k' = k
  · subst h
    simp [get, delete]
  · simp [get, delete, AList.lookup_erase_ne h, Function.update_of_ne h]

def setAll (m : GoMap) (ps : List (Bytes × Bytes)) : GoMap :=
  ps.foldl (fun m p => m.set p.1 p.2) m

def memberWrite (p : Bytes × Bytes) : Write Bytes Bytes := ⟨p.1, some p.2⟩

theorem get_setAll (m : GoMap) (ps : List (Bytes × Bytes)) :
    (m.setAll ps).get = run (ps.map memberWrite) m.get := by
  induction ps generalizing m with
  | nil => rfl
  | cons p ps ih =>
      show ((m.set p.1 p.2).setAll ps).get = _
      rw [ih, get_set]
      rfl

/-- How a member comes back. -/
def coerceMember (p : Bytes × Bytes) : Bytes × Bytes := (toValid p.1, toValid p.2)

theorem setMembers_read (m : GoMap) (ps : List (Bytes × Bytes)) :
    (ps.map readMember).foldlM setMember m = some (m.setAll (ps.map coerceMember)) := by
  induction ps generalizing m with
  | nil => rfl
  | cons p ps ih =>
      rw [List.map_cons, List.foldlM_cons]
      exact ih (m.set (toValid p.1) (toValid p.2))

theorem load_marshal (m : GoMap) :
    loadSnapshotFile (some m.marshal)
      = .map (setAll .empty (m.members.map coerceMember)) := by
  have hne : m.marshal ≠ [] := List.cons_ne_nil _ _
  have hparse : parse m.marshal = some (.object (m.members.map readMember)) := by
    by_cases hnil : m.members = []
    · rw [marshal, hnil]
      rfl
    · exact parse_writeObject hnil
  rw [loadSnapshotFile, if_neg hne, hparse]
  dsimp only
  rw [setMembers_read]

/-- All keys and values are text. -/
def IsText (m : GoMap) : Prop := ∀ k v, m.get k = some v → Valid k ∧ Valid v

theorem isText_set {m : GoMap} (h : m.IsText) {k v : Bytes} (hk : Valid k) (hv : Valid v) :
    (m.set k v).IsText := by
  intro k' v' hget
  rw [get_set] at hget
  by_cases hkk : k' = k
  · subst hkk
    rw [Function.update_self] at hget
    cases hget
    exact ⟨hk, hv⟩
  · rw [Function.update_of_ne hkk] at hget
    exact h k' v' hget

theorem isText_empty : IsText empty := by
  intro k v h
  cases h

theorem isText_setAll {m : GoMap} (h : m.IsText) {ps : List (Bytes × Bytes)}
    (hps : ∀ p ∈ ps, Valid p.1 ∧ Valid p.2) : IsText (m.setAll ps) := by
  induction ps generalizing m with
  | nil => exact h
  | cons p ps ih =>
      obtain ⟨hp, hps⟩ := List.forall_mem_cons.mp hps
      exact ih (isText_set h hp.1 hp.2) hps

/-- The members of a map make the map again. -/
theorem get_members (m : GoMap) : (setAll .empty m.members).get = m.get := by
  rw [get_setAll]
  funext k
  cases hk : m.get k with
  | none =>
      refine (run_untouched ?_).trans rfl
      rintro ⟨w, hw, rfl⟩
      obtain ⟨⟨k, v⟩, hmem, rfl⟩ := List.mem_map.mp hw
      cases hk.symm.trans (mem_members.mp hmem)
  | some v =>
      refine run_agreed ⟨memberWrite (k, v), List.mem_map_of_mem (mem_members.mpr hk), rfl⟩ ?_
      rintro w hw rfl
      obtain ⟨⟨k, v'⟩, hmem, rfl⟩ := List.mem_map.mp hw
      exact (mem_members.mp hmem).symm.trans hk

theorem coerce_members {m : GoMap} (h : m.IsText) :
    m.members.map coerceMember = m.members := by
  refine (List.map_congr_left fun p hp => ?_).trans (List.map_id _)
  obtain ⟨hkey, hvalue⟩ := h p.1 p.2 (mem_members.mp hp)
  rw [coerceMember, toValid_of_valid hkey, toValid_of_valid hvalue]
  rfl

end GoMap

/-- What `Save` wrote, `Load` reads back as the same map exactly when all its
keys and values are valid UTF-8. -/
theorem snapshot_reads_back (m : GoMap) :
    ∃ m', loadSnapshotFile (some m.marshal) = .map m' ∧ (m'.get = m.get ↔ m.IsText) := by
  refine ⟨_, m.load_marshal, ?_, ?_⟩
  · intro h k v hkv
    rw [← h] at hkv
    refine GoMap.isText_setAll GoMap.isText_empty ?_ k v hkv
    intro p hp
    obtain ⟨q, -, rfl⟩ := List.mem_map.mp hp
    exact ⟨valid_toValid q.1, valid_toValid q.2⟩
  · intro h
    rw [GoMap.coerce_members h, GoMap.get_members]

end RaftStore
