import Mathlib.Data.List.Basic

/-!
# The in-memory Raft log

The log of `raft/log.go`: a slice of entries behind a sentinel, and the
helpers that scan it by the `Index` field of the entries. The scans are
kept as scans here; that they are positional operations on the logs a
node can hold is proved in `LogScan`.

Terms and indices are natural numbers. The source keeps them in
`uint64`, so the model is the code for as long as none of them reaches
`2^64`.
-/

namespace RaftStore

/-- The bytes of a replicated command. -/
abbrev Command := List UInt8

structure LogEntry where
  term : Nat
  index : Nat
  command : Command
  deriving DecidableEq

structure LogStore where
  entries : List LogEntry
  deriving DecidableEq

/-- The entry every log starts with. -/
def sentinel : LogEntry := { term := 0, index := 0, command := [] }

def newLogStore : LogStore := { entries := [sentinel] }

namespace LogStore

/-- Index and term of the last entry. The source would panic on an empty
slice; no node ever holds one. -/
def lastIndexAndTerm (l : LogStore) : Nat × Nat :=
  match l.entries.getLast? with
  | some last => (last.index, last.term)
  | none => (0, 0)

def lastIndex (l : LogStore) : Nat := l.lastIndexAndTerm.1

/-- The first entry that carries `index`. -/
def entryAt (l : LogStore) (index : Nat) : Option LogEntry :=
  l.entries.find? fun e => e.index = index

def appendEntry (l : LogStore) (entry : LogEntry) : LogStore :=
  { entries := l.entries ++ [entry] }

/-- Cut the log at the first entry with `Index > index`. -/
def truncateAfter (l : LogStore) (index : Nat) : LogStore :=
  { entries := l.entries.takeWhile fun e => e.index ≤ index }

/-- Everything from the first entry with `Index >= index` on. -/
def entriesFrom (l : LogStore) (index : Nat) : List LogEntry :=
  l.entries.dropWhile fun e => e.index < index

end LogStore

end RaftStore
