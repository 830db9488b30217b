import DistSys.Raft.FullLog

namespace DistSys.Raft

/-- A node that never compacts: every entry is kept, the one at index `i` in slot
`i - 1`, and no index is ever shifted. -/
structure Uncompacted (n : Nat) (C : Type) where
  me : Fin n
  state : Stat
  currentTerm : Int
  votedFor : Int
  log : List (LogEntry C)
  commitIndex : Int
  matchIndex : Fin n → Int
  lastApplied : Int
  applying : Bool
  /-- Nothing is handed over while this is set. -/
  held : Bool

/-- The command messages for consecutive entries. -/
def messages {C : Type} (index : Int) : List (LogEntry C) → List (ApplyMsg C)
  | [] => []
  | entry :: rest => .command entry.command index entry.term :: messages (index + 1) rest

/-- The log after a leader's entries have been laid over it from `index` on. -/
def overlay {C : Type} (log : List (LogEntry C)) (index : Int) : List (LogEntry C) → List (LogEntry C)
  | [] => log
  | entry :: rest =>
    if index > log.length then log ++ entry :: rest
    else if termOf log index ≠ entry.term then log.take (index - 1).toNat ++ entry :: rest
    else overlay log (index + 1) rest

theorem length_messages {C : Type} (index : Int) (entries : List (LogEntry C)) :
    (messages index entries).length = entries.length := by
  induction entries generalizing index with
  | nil => rfl
  | cons entry rest ih => rw [messages, List.length_cons, List.length_cons, ih]

namespace Uncompacted

variable {n : Nat} {C : Type}

def lastIndex (u : Uncompacted n C) : Int :=
  u.log.length

def termAt (u : Uncompacted n C) (index : Int) : Int :=
  termOf u.log index

def stepBack (u : Uncompacted n C) (term : Int) : Uncompacted n C :=
  { u with currentTerm := term, state := .follower, votedFor := -1 }

def castVote (u : Uncompacted n C) (args : RequestVoteArgs) (replyTerm : Int) :
    Uncompacted n C × RequestVoteReply :=
  if (u.votedFor = -1 ∨ u.votedFor = args.candidateID) ∧
      (args.lastLogTerm > u.termAt u.lastIndex ∨
        args.lastLogTerm = u.termAt u.lastIndex ∧ args.lastLogIndex ≥ u.lastIndex) then
    ({ u with votedFor := args.candidateID }, ⟨replyTerm, true⟩)
  else (u, ⟨replyTerm, false⟩)

def requestVoteHandle (u : Uncompacted n C) (args : RequestVoteArgs) :
    Uncompacted n C × RequestVoteReply :=
  if args.term < u.currentTerm then (u, ⟨u.currentTerm, false⟩)
  else if args.term > u.currentTerm then (u.stepBack args.term).castVote args u.currentTerm
  else u.castVote args u.currentTerm

def start (u : Uncompacted n C) (command : C) : Uncompacted n C × Int × Int × Bool :=
  if u.state ≠ .leader then (u, -1, u.currentTerm, false)
  else ({ u with log := u.log ++ [⟨command, u.currentTerm⟩] }, u.lastIndex + 1, u.currentTerm, true)

def hasLogInCurrentTerm (u : Uncompacted n C) : Bool :=
  u.termAt u.lastIndex == u.currentTerm

/-- The entries after the last one applied, up to the commit position. -/
def applyLoop (u : Uncompacted n C) : Uncompacted n C × Option (Batch C) :=
  let stop := min u.commitIndex u.lastIndex
  if u.held ∨ stop ≤ u.lastApplied then ({ u with applying := false }, none)
  else
    let entries := (u.log.drop u.lastApplied.toNat).take (stop - u.lastApplied).toNat
    (u, some ⟨messages (u.lastApplied + 1) entries, stop⟩)

def applyCommittedEntries (u : Uncompacted n C) : Uncompacted n C × Option (Batch C) :=
  if u.applying ∨ u.held then (u, none) else applyLoop { u with applying := true }

def replicas (u : Uncompacted n C) (N : Int) : Nat :=
  1 + (Finset.univ.filter fun i => i ≠ u.me ∧ u.matchIndex i ≥ N).card

def commitCandidate (u : Uncompacted n C) (N : Int) : Nat → Option Int
  | 0 => none
  | count + 1 =>
    if u.termAt N = u.currentTerm ∧ u.replicas N > n / 2 then some N
    else commitCandidate u (N - 1) count

def advanceCommitIndexLocked (u : Uncompacted n C) : Uncompacted n C × Option (Batch C) :=
  if u.state ≠ .leader then (u, none)
  else
    match u.commitCandidate u.lastIndex (u.lastIndex - u.commitIndex).toNat with
    | none => (u, none)
    | some N => applyCommittedEntries { u with commitIndex := N }

def prevMatches (u : Uncompacted n C) (args : AppendEntryArgs C) : Bool :=
  decide (args.prevLogIndex ≤ u.lastIndex ∧ u.termAt args.prevLogIndex = args.prevLogTerm)

def merge (u : Uncompacted n C) (args : AppendEntryArgs C) : Uncompacted n C :=
  { u with log := overlay u.log (args.prevLogIndex + 1) args.entries }

def commitHeartbeat (u : Uncompacted n C) (args : AppendEntryArgs C) :
    Uncompacted n C × Option (Batch C) :=
  let candidate := min args.leaderCommitIndex args.prevLogIndex
  if candidate > u.commitIndex ∧ u.termAt candidate = args.leaderCommitTerm then
    applyCommittedEntries { u with commitIndex := candidate }
  else (u, none)

def commitEntries (u : Uncompacted n C) (args : AppendEntryArgs C) :
    Uncompacted n C × Option (Batch C) :=
  let candidate := min args.leaderCommitIndex (args.prevLogIndex + args.entries.length)
  if candidate > u.commitIndex then applyCommittedEntries { u with commitIndex := candidate }
  else (u, none)

def followTerm (u : Uncompacted n C) (term : Int) : Uncompacted n C :=
  if term > u.currentTerm then u.stepBack term
  else if term = u.currentTerm then { u with state := .follower }
  else u

def appendEntriesHandler (u : Uncompacted n C) (args : AppendEntryArgs C) :
    Uncompacted n C × AppendEntryReply × Option (Batch C) :=
  let replyTerm := u.currentTerm
  let u := u.followTerm args.term
  if args.term < u.currentTerm ∨ u.prevMatches args = false then (u, ⟨replyTerm, false⟩, none)
  else
    let (u, batch) :=
      if args.entries = [] then u.commitHeartbeat args else (u.merge args).commitEntries args
    (u, ⟨replyTerm, true⟩, batch)

end Uncompacted

end DistSys.Raft
