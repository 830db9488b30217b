import Mathlib.Data.Fintype.Basic
import Mathlib.Data.Finset.Card

namespace DistSys.Raft

inductive Stat
  | leader
  | follower
  | candidate
deriving DecidableEq, Repr

structure LogEntry (C : Type) where
  command : C
  term : Int
deriving DecidableEq, Repr

structure RequestVoteArgs where
  term : Int
  candidateID : Int
  lastLogIndex : Int
  lastLogTerm : Int
deriving DecidableEq, Repr

structure RequestVoteReply where
  term : Int
  voteGranted : Bool
deriving DecidableEq, Repr

structure AppendEntryArgs (C : Type) where
  term : Int
  leaderID : Int
  prevLogIndex : Int
  prevLogTerm : Int
  entries : List (LogEntry C)
  leaderCommitIndex : Int
  leaderCommitTerm : Int
deriving DecidableEq, Repr

structure AppendEntryReply where
  term : Int
  success : Bool
deriving DecidableEq, Repr

/-- The bytes of a snapshot. `covers` is a history variable: the log entries
the service had applied when it produced the bytes. No operation reads it. -/
structure Blob (C : Type) where
  bytes : List UInt8
  covers : List (LogEntry C)
deriving DecidableEq, Repr

structure InstallSnapshotArgs (C : Type) where
  term : Int
  leaderID : Int
  lastIncludedIndex : Int
  lastIncludedTerm : Int
  data : Blob C
deriving DecidableEq, Repr

structure InstallSnapshotReply where
  term : Int
deriving DecidableEq, Repr

/-- A message on `applyCh`; exactly one of `CommandValid` and `SnapshotValid`
is set in the source. -/
inductive ApplyMsg (C : Type)
  | command (command : C) (commandIndex commandTerm : Int)
  | snapshot (snapshot : Blob C) (snapshotTerm snapshotIndex : Int)
deriving DecidableEq, Repr

/-- One value of a labgob stream. A stream is the sequence of the values that
were encoded into it; decoding takes the first one and fails on another type. -/
inductive GobValue (C : Type)
  | int (value : Int)
  | logs (entries : List (LogEntry C))
deriving DecidableEq, Repr

def decodeInt {C : Type} : List (GobValue C) → Option (Int × List (GobValue C))
  | .int value :: rest => some (value, rest)
  | _ => none

def decodeLogs {C : Type} : List (GobValue C) → Option (List (LogEntry C) × List (GobValue C))
  | .logs entries :: rest => some (entries, rest)
  | _ => none

structure Persister (C : Type) where
  raftState : List (GobValue C)
  snapshot : Blob C
deriving DecidableEq, Repr

def makePersister {C : Type} : Persister C := ⟨[], ⟨[], []⟩⟩

def Persister.saveRaftState {C : Type} (ps : Persister C) (state : List (GobValue C)) : Persister C :=
  { ps with raftState := state }

def Persister.saveStateAndSnapshot {C : Type} (_ps : Persister C) (state : List (GobValue C))
    (snapshot : Blob C) : Persister C :=
  ⟨state, snapshot⟩

/-- The element `xs[i]` behind the bounds check `i < 0 || i >= len(xs)` of the
source. -/
def slot {α : Type} (xs : List α) (i : Int) : Option α :=
  if i < 0 then none else xs[i.toNat]?

end DistSys.Raft

namespace DistSys

open Raft in
/-- One Raft peer of a cluster of `n`, between two critical sections of its
mutex. Timers, the mutex and the RPC end points carry no data. -/
structure Raft (n : Nat) (C : Type) where
  me : Fin n
  dead : Bool
  state : Stat
  currentTerm : Int
  votedFor : Int
  logs : List (LogEntry C)
  lastIncludedIndex : Int
  lastIncludedTerm : Int
  commitIndex : Int
  lastApplied : Int
  nextIndex : Fin n → Int
  matchIndex : Fin n → Int
  applying : Bool
  snapshotInFlight : Bool
  persister : Persister C

end DistSys
