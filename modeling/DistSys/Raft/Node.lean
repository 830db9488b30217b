import DistSys.Raft.Types

namespace DistSys.Raft

variable {n : Nat} {C : Type}

/-- The command of the placeholder that stands at slot 0 of every log. -/
def noneCommand [Inhabited C] : C := default

def lastIndex (rf : Raft n C) : Int :=
  rf.lastIncludedIndex + rf.logs.length - 1

def termAt (rf : Raft n C) (index : Int) : Int :=
  if index = rf.lastIncludedIndex then rf.lastIncludedTerm
  else
    match slot rf.logs (index - rf.lastIncludedIndex) with
    | none => -1
    | some entry => entry.term

/-- The labgob stream of the persistent fields. -/
def encodeState (rf : Raft n C) : List (GobValue C) :=
  [.int rf.currentTerm, .int rf.votedFor, .int rf.lastIncludedIndex, .int rf.lastIncludedTerm,
    .logs rf.logs]

def persist (rf : Raft n C) : Raft n C :=
  { rf with persister := rf.persister.saveRaftState rf.encodeState }

/-- The snapshot offset and the log of the current format, after term and vote. -/
def decodeOffset (data : List (GobValue C)) : Option (Int × Int × List (LogEntry C)) := do
  let (lastIncludedIndex, data) ← decodeInt data
  let (lastIncludedTerm, data) ← decodeInt data
  let (logs, _) ← decodeLogs data
  return (lastIncludedIndex, lastIncludedTerm, logs)

/-- No commit or apply position is left below the snapshot. -/
def raiseToBase (rf : Raft n C) : Raft n C :=
  { rf with
    commitIndex := if rf.commitIndex < rf.lastIncludedIndex then rf.lastIncludedIndex else rf.commitIndex
    lastApplied := if rf.lastApplied < rf.lastIncludedIndex then rf.lastIncludedIndex else rf.lastApplied }

def readPersist (rf : Raft n C) (data : List (GobValue C)) : Raft n C :=
  match decodeInt data with
  | none => rf
  | some (currentTerm, data) =>
    match decodeInt data with
    | none => rf
    | some (votedFor, data) =>
      match decodeOffset data with
      | some (lastIncludedIndex, lastIncludedTerm, logs) =>
        raiseToBase { rf with
          currentTerm, votedFor, lastIncludedIndex, lastIncludedTerm
          logs := if logs.length > 0 then logs else rf.logs }
      | none =>
        -- the old format, without an offset
        match decodeLogs data with
        | none => rf
        | some (logsOld, _) =>
          { rf with
            currentTerm, votedFor
            logs := if logsOld.length > 0 then logsOld else rf.logs
            lastIncludedIndex := 0
            lastIncludedTerm := 0 }

def make [Inhabited C] (me : Fin n) (persister : Persister C) : Raft n C :=
  readPersist
    { me
      dead := false
      state := .follower
      currentTerm := 0
      votedFor := -1
      logs := [⟨noneCommand, 0⟩]
      lastIncludedIndex := 0
      lastIncludedTerm := 0
      commitIndex := 0
      lastApplied := 0
      nextIndex := fun _ => 0
      matchIndex := fun _ => 0
      applying := false
      snapshotInFlight := false
      persister }
    persister.raftState

/-- The reaction to a higher term, the same block wherever one is seen. -/
def stepBack (rf : Raft n C) (term : Int) : Raft n C :=
  persist { rf with currentTerm := term, state := .follower, votedFor := -1 }

/-! Elections -/

/-- The first critical section of `Election`. -/
def election (rf : Raft n C) : Raft n C :=
  persist { rf with state := .candidate, currentTerm := rf.currentTerm + 1, votedFor := rf.me.val }

/-- The part of `RequestVote` before the call: `term` is that of the election,
the log position is read now. -/
def requestVote (rf : Raft n C) (term : Int) : RequestVoteArgs where
  term := term
  candidateID := rf.me.val
  lastLogIndex := rf.lastIndex
  lastLogTerm := rf.termAt rf.lastIndex

/-- The part of `RequestVote` after the call; the flag is its result. -/
def requestVoteReply (rf : Raft n C) (reply : RequestVoteReply) : Raft n C × Bool :=
  if reply.term > rf.currentTerm then (rf.stepBack reply.term, false)
  else (rf, reply.voteGranted && rf.state == .candidate)

/-- What a goroutine of `Election` does with enough votes of its own term. -/
def becomeLeader (rf : Raft n C) : Raft n C :=
  { rf with
    state := .leader
    nextIndex := fun _ => rf.lastIndex + 1
    matchIndex := fun i => if i = rf.me then rf.lastIndex else rf.lastIncludedIndex }

/-- The decision of `RequestVoteHandle` on a request that is not behind. -/
def castVote (rf : Raft n C) (args : RequestVoteArgs) (replyTerm : Int) :
    Raft n C × RequestVoteReply :=
  let lastLogIndex := rf.lastIndex
  let lastLogTerm := rf.termAt lastLogIndex
  let upToDate := args.lastLogTerm > lastLogTerm ∨
    args.lastLogTerm = lastLogTerm ∧ args.lastLogIndex ≥ lastLogIndex
  if (rf.votedFor = -1 ∨ rf.votedFor = args.candidateID) ∧ upToDate then
    (persist { rf with votedFor := args.candidateID }, ⟨replyTerm, true⟩)
  else (rf, ⟨replyTerm, false⟩)

def requestVoteHandle (rf : Raft n C) (args : RequestVoteArgs) : Raft n C × RequestVoteReply :=
  if args.term < rf.currentTerm then (rf, ⟨rf.currentTerm, false⟩)
  else if args.term > rf.currentTerm then (rf.stepBack args.term).castVote args rf.currentTerm
  else rf.castVote args rf.currentTerm

/-! Applying -/

/-- What `applyCommittedEntries` sends while it has released the mutex. -/
structure Batch (C : Type) where
  msgs : List (ApplyMsg C)
  lastSent : Int

/-- The messages for `count` indices from `i` on, up to the first slot that
is not there. -/
def collect (rf : Raft n C) (i : Int) : Nat → List (ApplyMsg C)
  | 0 => []
  | count + 1 =>
    match slot rf.logs (i - rf.lastIncludedIndex) with
    | none => []
    | some entry => .command entry.command i entry.term :: collect rf (i + 1) count

/-- The loop of `applyCommittedEntries` from its head to the next release of
the mutex, or to its end when there is no batch. -/
def applyLoop (rf : Raft n C) : Raft n C × Option (Batch C) :=
  if rf.snapshotInFlight then ({ rf with applying := false }, none)
  else if rf.commitIndex ≤ rf.lastApplied then ({ rf with applying := false }, none)
  else
    let start :=
      if rf.lastApplied + 1 ≤ rf.lastIncludedIndex then rf.lastIncludedIndex + 1 else rf.lastApplied + 1
    let stop := if rf.commitIndex > rf.lastIndex then rf.lastIndex else rf.commitIndex
    if start > stop then ({ rf with applying := false }, none)
    else
      let msgs := rf.collect start (stop - start + 1).toNat
      (rf, some ⟨msgs, start - 1 + msgs.length⟩)

def applyCommittedEntries (rf : Raft n C) : Raft n C × Option (Batch C) :=
  if rf.applying then (rf, none)
  else if rf.snapshotInFlight then (rf, none)
  else applyLoop { rf with applying := true }

/-- How `applyCommittedEntries` goes on after a batch has been sent and the
mutex is held again. -/
def applyResume (rf : Raft n C) (lastSent : Int) : Raft n C × Option (Batch C) :=
  if rf.snapshotInFlight then ({ rf with applying := false }, none)
  else applyLoop { rf with lastApplied := if rf.lastApplied < lastSent then lastSent else rf.lastApplied }

/-! Replication -/

/-- What one pass of `replicateToPeer` sends. -/
inductive Outgoing (C : Type)
  | stop
  | installSnapshot (args : InstallSnapshotArgs C)
  | appendEntries (args : AppendEntryArgs C)

/-- The log from a local position on, copied for a request. -/
def entriesFrom (rf : Raft n C) (localStart : Int) : List (LogEntry C) :=
  if 0 ≤ localStart ∧ localStart < rf.logs.length then rf.logs.drop localStart.toNat else []

/-- The critical section at the head of the loop of `replicateToPeer`. -/
def replicateToPeer (rf : Raft n C) (server : Fin n) (term : Int) : Outgoing C :=
  if rf.dead ∨ rf.state ≠ .leader ∨ term ≠ rf.currentTerm then .stop
  else
    let nextIdx := rf.nextIndex server
    if nextIdx ≤ rf.lastIncludedIndex then
      .installSnapshot
        { term := rf.currentTerm
          leaderID := rf.me.val
          lastIncludedIndex := rf.lastIncludedIndex
          lastIncludedTerm := rf.lastIncludedTerm
          data := rf.persister.snapshot }
    else
      .appendEntries
        { term := rf.currentTerm
          leaderID := rf.me.val
          prevLogIndex := nextIdx - 1
          prevLogTerm := rf.termAt (nextIdx - 1)
          entries := rf.entriesFrom (nextIdx - rf.lastIncludedIndex)
          leaderCommitIndex := rf.commitIndex
          leaderCommitTerm := rf.termAt rf.commitIndex }

/-- How `replicateToPeer` takes an `InstallSnapshot` reply; the flag says whether
the loop goes on. The role and the term of the call are not checked. -/
def installSnapshotReply (rf : Raft n C) (server : Fin n) (reply : InstallSnapshotReply) :
    Raft n C × Bool :=
  if reply.term > rf.currentTerm then (rf.stepBack reply.term, false)
  else
    ({ rf with
      matchIndex := Function.update rf.matchIndex server rf.lastIncludedIndex
      nextIndex := Function.update rf.nextIndex server (rf.lastIncludedIndex + 1) }, true)

/-- How many peers, this one included, are known to hold index `N`. -/
def replicas (rf : Raft n C) (N : Int) : Nat :=
  1 + (Finset.univ.filter fun i => i ≠ rf.me ∧ rf.matchIndex i ≥ N).card

/-- The downward search of `advanceCommitIndexLocked` through `count` indices. -/
def commitCandidate (rf : Raft n C) (N : Int) : Nat → Option Int
  | 0 => none
  | count + 1 =>
    if rf.termAt N = rf.currentTerm ∧ rf.replicas N > n / 2 then some N
    else commitCandidate rf (N - 1) count

def advanceCommitIndexLocked (rf : Raft n C) : Raft n C × Option (Batch C) :=
  if rf.state ≠ .leader then (rf, none)
  else
    match rf.commitCandidate rf.lastIndex (rf.lastIndex - rf.commitIndex).toNat with
    | none => (rf, none)
    | some N => applyCommittedEntries { rf with commitIndex := N }

/-- The progress of a peer after it has acknowledged index `matched`. -/
def acknowledge (rf : Raft n C) (server : Fin n) (matched : Int) : Raft n C :=
  { rf with
    matchIndex := Function.update rf.matchIndex server
      (if matched > rf.matchIndex server then matched else rf.matchIndex server)
    nextIndex := Function.update rf.nextIndex server
      (if rf.nextIndex server < matched + 1 then matched + 1 else rf.nextIndex server) }

/-- How `replicateToPeer` takes an `AppendEntries` reply; the flag says whether
the loop goes on. -/
def appendEntriesReply (rf : Raft n C) (server : Fin n) (term : Int) (args : AppendEntryArgs C)
    (reply : AppendEntryReply) : Raft n C × Option (Batch C) × Bool :=
  if reply.term > rf.currentTerm then (rf.stepBack reply.term, none, false)
  else if rf.state ≠ .leader ∨ term ≠ rf.currentTerm then (rf, none, false)
  else if reply.success then
    let (rf, batch) :=
      (rf.acknowledge server (args.prevLogIndex + args.entries.length)).advanceCommitIndexLocked
    (rf, batch, false)
  else
    ({ rf with
      nextIndex := Function.update rf.nextIndex server
        (if rf.nextIndex server > rf.lastIncludedIndex then rf.nextIndex server - 1
          else rf.nextIndex server) }, none, true)

/-- The consistency check, the same for heartbeats and for entries. -/
def prevMatches (rf : Raft n C) (args : AppendEntryArgs C) : Bool :=
  if args.prevLogIndex < rf.lastIncludedIndex then false
  else if args.prevLogIndex = rf.lastIncludedIndex then args.prevLogTerm == rf.lastIncludedTerm
  else
    match slot rf.logs (args.prevLogIndex - rf.lastIncludedIndex) with
    | none => false
    | some entry => entry.term == args.prevLogTerm

/-- Where the merge loop of `AppendEntriesHandler` stops. -/
inductive Scan (C : Type)
  | agrees
  | extend (rest : List (LogEntry C))
  | conflict (index : Int) (rest : List (LogEntry C))
deriving DecidableEq

/-- The merge loop up to its `break`; it changes nothing before. -/
def scan (rf : Raft n C) (index : Int) : List (LogEntry C) → Scan C
  | [] => .agrees
  | entry :: rest =>
    if index > rf.lastIndex then .extend (entry :: rest)
    else if rf.termAt index ≠ entry.term then .conflict index (entry :: rest)
    else scan rf (index + 1) rest

def merge (rf : Raft n C) (args : AppendEntryArgs C) : Raft n C :=
  match rf.scan (args.prevLogIndex + 1) args.entries with
  | .agrees => rf
  | .extend rest => persist { rf with logs := rf.logs ++ rest }
  | .conflict index rest =>
    -- also when `index <= rf.commitIndex`: that branch of the source is empty
    persist { rf with logs := rf.logs.take (index - rf.lastIncludedIndex).toNat ++ rest }

/-- The commit rule of a heartbeat. -/
def commitHeartbeat (rf : Raft n C) (args : AppendEntryArgs C) : Raft n C × Option (Batch C) :=
  if args.leaderCommitIndex > rf.commitIndex then
    let candidate := min args.leaderCommitIndex args.prevLogIndex
    if candidate > rf.commitIndex ∧ rf.termAt candidate = args.leaderCommitTerm then
      applyCommittedEntries { rf with commitIndex := candidate }
    else (rf, none)
  else (rf, none)

/-- The commit rule after entries have been merged. -/
def commitEntries (rf : Raft n C) (args : AppendEntryArgs C) : Raft n C × Option (Batch C) :=
  if args.leaderCommitIndex > rf.commitIndex then
    let lastNewIndex := args.prevLogIndex + args.entries.length
    let candidate := min args.leaderCommitIndex lastNewIndex
    if candidate > rf.commitIndex then applyCommittedEntries { rf with commitIndex := candidate }
    else (rf, none)
  else (rf, none)

/-- The term handling at the head of `AppendEntriesHandler`. -/
def followTerm (rf : Raft n C) (term : Int) : Raft n C :=
  if term > rf.currentTerm then rf.stepBack term
  else if term = rf.currentTerm then { rf with state := .follower }
  else rf

/-- The handler up to its end, or up to the release of the mutex inside
`applyCommittedEntries` when there is a batch. -/
def appendEntriesHandler (rf : Raft n C) (args : AppendEntryArgs C) :
    Raft n C × AppendEntryReply × Option (Batch C) :=
  let replyTerm := rf.currentTerm
  let rf := rf.followTerm args.term
  if args.term < rf.currentTerm then (rf, ⟨replyTerm, false⟩, none)
  else if args.entries.length = 0 then
    if rf.prevMatches args then
      let (rf, batch) := rf.commitHeartbeat args
      (rf, ⟨replyTerm, true⟩, batch)
    else (rf, ⟨replyTerm, false⟩, none)
  else if rf.prevMatches args then
    let (rf, batch) := (rf.merge args).commitEntries args
    (rf, ⟨replyTerm, true⟩, batch)
  else (rf, ⟨replyTerm, false⟩, none)

/-! Snapshots -/

/-- The first critical section of `InstallSnapshot`; the flag says whether
the snapshot is sent on `applyCh`. -/
def installSnapshot (rf : Raft n C) (args : InstallSnapshotArgs C) :
    Raft n C × InstallSnapshotReply × Bool :=
  let reply : InstallSnapshotReply := ⟨rf.currentTerm⟩
  if args.term < rf.currentTerm then (rf, reply, false)
  else
    let rf := if args.term > rf.currentTerm then rf.stepBack args.term else rf
    if args.lastIncludedIndex ≤ rf.lastIncludedIndex then (rf, reply, false)
    else ({ rf with snapshotInFlight := true }, reply, true)

/-- The log after position `position`, kept by a snapshot that ends there. -/
def suffixAfter (logs : List (LogEntry C)) (position : Int) : List (LogEntry C) :=
  if position + 1 < logs.length then logs.drop (position + 1).toNat else []

/-- What `CondInstallSnapshot` keeps of the log: the part after the snapshot,
if the entry at its position has the term of the snapshot. -/
def retained (rf : Raft n C) (lastIncludedTerm position : Int) : List (LogEntry C) :=
  match slot rf.logs position with
  | none => []
  | some entry => if entry.term = lastIncludedTerm then suffixAfter rf.logs position else []

/-- The common end of both snapshot operations: new base, new log, both saved
together. -/
def rebase [Inhabited C] (rf : Raft n C) (index term : Int) (suffix : List (LogEntry C))
    (snapshot : Blob C) : Raft n C :=
  let rf := raiseToBase { rf with
    logs := ⟨noneCommand, term⟩ :: suffix
    lastIncludedIndex := index
    lastIncludedTerm := term }
  { rf with persister := rf.persister.saveStateAndSnapshot rf.encodeState snapshot }

def condInstallSnapshot [Inhabited C] (rf : Raft n C) (lastIncludedTerm lastIncludedIndex : Int)
    (snapshot : Blob C) : Raft n C × Bool :=
  if lastIncludedIndex ≤ rf.lastIncludedIndex then (rf, false)
  else
    let suffix := rf.retained lastIncludedTerm (lastIncludedIndex - rf.lastIncludedIndex)
    (rf.rebase lastIncludedIndex lastIncludedTerm suffix snapshot, true)

def snapshot [Inhabited C] (rf : Raft n C) (index : Int) (bytes : List UInt8) : Raft n C :=
  if index ≤ rf.lastIncludedIndex ∨ index > rf.commitIndex then rf
  else
    let position := index - rf.lastIncludedIndex
    match slot rf.logs position with
    | none => rf
    | some entry =>
      let covers := rf.persister.snapshot.covers ++ rf.logs.tail.take position.toNat
      rf.rebase index entry.term (suffixAfter rf.logs position) ⟨bytes, covers⟩

/-! The service interface -/

def start (rf : Raft n C) (command : C) : Raft n C × Int × Int × Bool :=
  if rf.state ≠ .leader then (rf, -1, rf.currentTerm, false)
  else
    let rf := persist { rf with logs := rf.logs ++ [⟨command, rf.currentTerm⟩] }
    (rf, rf.lastIndex, rf.currentTerm, true)

def getState (rf : Raft n C) : Int × Bool :=
  (rf.currentTerm, rf.state == .leader)

def hasLogInCurrentTerm (rf : Raft n C) : Bool :=
  match rf.logs.getLast? with
  | none => false
  | some entry => entry.term == rf.currentTerm

end DistSys.Raft
