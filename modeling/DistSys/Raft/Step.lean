import DistSys.Raft.Cluster

namespace DistSys.Raft.Cluster

variable {n : Nat} {C : Type} [Inhabited C]

/-! Elections -/

/-- The ticker sees the election timer and starts `Election` unless it leads. -/
def electionTimeout (c : Cluster n C) (s : Fin n) : Option (Cluster n C) :=
  let server := c.server s
  if server.rf.state ≠ .leader then
    some (c.setServer s { server with elections := server.elections + 1 })
  else none

def election (c : Cluster n C) (s : Fin n) : Option (Cluster n C) :=
  let server := c.server s
  if 0 < server.elections then
    let rf := server.rf.election
    let ballot : Ballot n :=
      ⟨rf.currentTerm, 1, false, fun peer => if peer = s then .ended else .ready⟩
    some (c.setServer s { server with
      rf := rf
      elections := server.elections - 1
      ballots := server.ballots ++ [ballot] })
  else none

def requestVote (c : Cluster n C) (s : Fin n) (b : Nat) (peer : Fin n) : Option (Cluster n C) :=
  let server := c.server s
  match server.ballots[b]? with
  | none => none
  | some ballot =>
    if ballot.peer peer = .ready then
      some ((c.setServer s
        (server.setBallot b (setPeer ballot peer (.waiting c.requests.length)))).addRequest
          (.vote s peer (server.rf.requestVote ballot.term)))
    else none

/-- The call reports failure and the goroutine returns. -/
def requestVoteFailed (c : Cluster n C) (s : Fin n) (b : Nat) (peer : Fin n) :
    Option (Cluster n C) :=
  let server := c.server s
  match server.ballots[b]? with
  | none => none
  | some ballot =>
    match ballot.peer peer with
    | .waiting _ => some (c.setServer s (server.setBallot b (setPeer ballot peer .ended)))
    | _ => none

def requestVoteReply (c : Cluster n C) (s : Fin n) (b : Nat) (peer : Fin n) (k : Nat) :
    Option (Cluster n C) :=
  let server := c.server s
  match server.ballots[b]?, c.replies[k]? with
  | some ballot, some (call, .vote reply) =>
    if ballot.peer peer = .waiting call then
      let (rf, granted) := server.rf.requestVoteReply reply
      some (c.setServer s ({ server with rf := rf }.setBallot b
        (setPeer ballot peer (if granted then .granted else .ended))))
    else none
  | _, _ => none

/-- The critical section in which a goroutine of `Election` counts its vote. -/
def countVote (c : Cluster n C) (s : Fin n) (b : Nat) (peer : Fin n) : Option (Cluster n C) :=
  let server := c.server s
  match server.ballots[b]? with
  | none => none
  | some ballot =>
    if ballot.peer peer = .granted then
      let ballot := { setPeer ballot peer .counted with voteReceived := ballot.voteReceived + 1 }
      if ballot.finished ∨ ballot.voteReceived ≤ n / 2 then
        some (c.setServer s (server.setBallot b ballot))
      else
        let ballot := { ballot with finished := true }
        if server.rf.state ≠ .candidate ∨ server.rf.currentTerm ≠ ballot.term then
          some (c.setServer s (server.setBallot b ballot))
        else
          some (c.setServer s ({ server with
            rf := server.rf.becomeLeader
            broadcasts := server.broadcasts + 1 }.setBallot b ballot))
    else none

/-! Replication -/

/-- The ticker sees the heartbeat timer and broadcasts when it leads. -/
def heartbeat (c : Cluster n C) (s : Fin n) : Option (Cluster n C) :=
  let server := c.server s
  if server.rf.state = .leader then
    some (c.setServer s { server with broadcasts := server.broadcasts + 1 })
  else none

def broadcast (c : Cluster n C) (s : Fin n) : Option (Cluster n C) :=
  let server := c.server s
  if 0 < server.broadcasts then
    some (c.setServer s { server with
      broadcasts := server.broadcasts - 1
      replicators := server.replicators ++
        if server.rf.state = .leader then replicateAll s server.rf.currentTerm else [] })
  else none

def replicate (c : Cluster n C) (s : Fin n) (i : Nat) : Option (Cluster n C) :=
  let server := c.server s
  match server.replicators[i]? with
  | none => none
  | some r =>
    if r.pc = .head then
      match server.rf.replicateToPeer r.server r.term with
      | .stop => some (c.setServer s (server.setReplicator i { r with pc := .ended }))
      | .installSnapshot args =>
        some ((c.setServer s
          (server.setReplicator i { r with pc := .awaitInstall c.requests.length })).addRequest
            (.install s r.server args))
      | .appendEntries args =>
        some ((c.setServer s
          (server.setReplicator i { r with pc := .awaitAppend c.requests.length })).addRequest
            (.append s r.server args))
    else none

/-- The call reports failure and the loop goes on. -/
def replicateFailed (c : Cluster n C) (s : Fin n) (i : Nat) : Option (Cluster n C) :=
  let server := c.server s
  match server.replicators[i]? with
  | none => none
  | some r =>
    match r.pc with
    | .awaitInstall _ | .awaitAppend _ =>
      some (c.setServer s (server.setReplicator i { r with pc := .head }))
    | _ => none

def installReply (c : Cluster n C) (s : Fin n) (i k : Nat) : Option (Cluster n C) :=
  let server := c.server s
  match server.replicators[i]?, c.replies[k]? with
  | some r, some (call, .install reply) =>
    if r.pc = .awaitInstall call then
      let (rf, again) := server.rf.installSnapshotReply r.server reply
      some (c.setServer s ({ server with rf := rf }.setReplicator i
        { r with pc := if again then .head else .ended }))
    else none
  | _, _ => none

/-- A batch that was started replaces the one under way; there is none then. -/
def nextBatch (old : Option (Sending C)) (batch : Option (Batch C))
    (answer : Option (Nat × AppendEntryReply)) : Option (Sending C) :=
  match batch with
  | none => old
  | some batch => some ⟨batch.msgs, batch.lastSent, answer⟩

def appendReply (c : Cluster n C) (s : Fin n) (i k : Nat) : Option (Cluster n C) :=
  let server := c.server s
  match server.replicators[i]?, c.replies[k]? with
  | some r, some (call, .append reply) =>
    match c.requests[call]? with
    | some (.append _ _ args) =>
      if r.pc = .awaitAppend call then
        let (rf, batch, again) := server.rf.appendEntriesReply r.server r.term args reply
        some (c.setServer s ({ server with
          rf := rf
          batch := nextBatch server.batch batch none }.setReplicator i
            { r with pc := if again then .head else .ended }))
      else none
    | _ => none
  | _, _ => none

/-! Handlers -/

def handleVote (c : Cluster n C) (call : Nat) : Option (Cluster n C) :=
  match c.requests[call]? with
  | some (.vote _ s args) =>
    let server := c.server s
    let (rf, reply) := server.rf.requestVoteHandle args
    some ((c.setServer s { server with rf := rf }).addReply call (.vote reply))
  | _ => none

/-- The reply goes out at once, unless the handler is still inside
`applyCommittedEntries`. -/
def handleAppend (c : Cluster n C) (call : Nat) : Option (Cluster n C) :=
  match c.requests[call]? with
  | some (.append _ s args) =>
    let server := c.server s
    let (rf, reply, batch) := server.rf.appendEntriesHandler args
    match batch with
    | none => some ((c.setServer s { server with rf := rf }).addReply call (.append reply))
    | some batch =>
      some (c.setServer s { server with
        rf := rf
        batch := some ⟨batch.msgs, batch.lastSent, some (call, reply)⟩ })
  | _ => none

def handleInstall (c : Cluster n C) (call : Nat) : Option (Cluster n C) :=
  match c.requests[call]? with
  | some (.install _ s args) =>
    let server := c.server s
    let (rf, reply, send) := server.rf.installSnapshot args
    if send then
      some (c.setServer s { server with
        rf := rf
        installs := server.installs ++ [⟨call, args, reply, .sending⟩] })
    else some ((c.setServer s { server with rf := rf }).addReply call (.install reply))
  | _ => none

/-! The service and its channel -/

/-- The service takes the snapshot that an `InstallSnapshot` handler offers. -/
def sendSnapshot (c : Cluster n C) (s : Fin n) (i : Nat) : Option (Cluster n C) :=
  let server := c.server s
  match server.installs[i]? with
  | none => none
  | some install =>
    if install.pc = .sending then
      let msg : ApplyMsg C :=
        .snapshot install.args.data install.args.lastIncludedTerm install.args.lastIncludedIndex
      some (c.deliver s (server.setInstall i { install with pc := .sent }) msg)
    else none

/-- The second critical section of `InstallSnapshot`. -/
def installDone (c : Cluster n C) (s : Fin n) (i : Nat) : Option (Cluster n C) :=
  let server := c.server s
  match server.installs[i]? with
  | none => none
  | some install =>
    if install.pc = .sent then
      some ((c.setServer s ({ server with
        rf := { server.rf with snapshotInFlight := false } }.setInstall i
          { install with pc := .ended })).addReply install.call (.install install.reply))
    else none

/-- The service takes the next message of the batch under way. -/
def applySend (c : Cluster n C) (s : Fin n) : Option (Cluster n C) :=
  let server := c.server s
  match server.batch with
  | some ⟨msg :: msgs, lastSent, answer⟩ =>
    some (c.deliver s { server with batch := some ⟨msgs, lastSent, answer⟩ } msg)
  | _ => none

def answerWith (c : Cluster n C) (answer : Option (Nat × AppendEntryReply)) : Cluster n C :=
  match answer with
  | none => c
  | some (call, reply) => c.addReply call (.append reply)

def applyResume (c : Cluster n C) (s : Fin n) : Option (Cluster n C) :=
  let server := c.server s
  match server.batch with
  | some ⟨[], lastSent, answer⟩ =>
    let (rf, batch) := server.rf.applyResume lastSent
    match batch with
    | some batch =>
      some (c.setServer s { server with rf := rf, batch := some ⟨batch.msgs, batch.lastSent, answer⟩ })
    | none => some ((c.setServer s { server with rf := rf, batch := none }).answerWith answer)
  | _ => none

def start (c : Cluster n C) (s : Fin n) (command : C) : Option (Cluster n C) :=
  let server := c.server s
  let (rf, _, _, isLeader) := server.rf.start command
  some (c.setServer s { server with
    rf := rf
    broadcasts := if isLeader then server.broadcasts + 1 else server.broadcasts })

/-- The service compacts the log up to a command it has received. -/
def snapshot (c : Cluster n C) (s : Fin n) (index : Int) (bytes : List UInt8) :
    Option (Cluster n C) :=
  let server := c.server s
  if hasReceived server.service index then
    some (c.setServer s { server with rf := server.rf.snapshot index bytes })
  else none

/-- The service passes a snapshot message it has received back to Raft. -/
def condInstall (c : Cluster n C) (s : Fin n) (event : Nat) : Option (Cluster n C) :=
  let server := c.server s
  match server.service[event]? with
  | some (.received (.snapshot data term index)) =>
    let (rf, accepted) := server.rf.condInstallSnapshot term index data
    some (c.setServer s { server with
      rf := rf
      service := server.service ++ [.condInstalled index accepted] })
  | _ => none

/-! Failures -/

def kill (c : Cluster n C) (s : Fin n) : Option (Cluster n C) :=
  let server := c.server s
  some (c.setServer s { server with rf := { server.rf with dead := true } })

/-- All goroutines stop and a new incarnation boots from the persister. -/
def crash (c : Cluster n C) (s : Fin n) : Option (Cluster n C) :=
  some (c.setServer s (boot s (c.server s).rf.persister))

/-- A crash inside `RequestVoteHandle`, after the new term was persisted. -/
def crashInVote (c : Cluster n C) (call : Nat) : Option (Cluster n C) :=
  match c.requests[call]? with
  | some (.vote _ s args) =>
    let rf := (c.server s).rf
    if args.term > rf.currentTerm then
      some (c.setServer s (boot s (rf.stepBack args.term).persister))
    else none
  | _ => none

/-- A crash inside `AppendEntriesHandler`, after the new term was persisted. -/
def crashInAppend (c : Cluster n C) (call : Nat) : Option (Cluster n C) :=
  match c.requests[call]? with
  | some (.append _ s args) =>
    let rf := (c.server s).rf
    if args.term > rf.currentTerm then
      some (c.setServer s (boot s (rf.stepBack args.term).persister))
    else none
  | _ => none

/-- The transition function of the cluster. -/
def step (c : Cluster n C) : Action n C → Option (Cluster n C)
  | .electionTimeout s => c.electionTimeout s
  | .election s => c.election s
  | .requestVote s ballot peer => c.requestVote s ballot peer
  | .requestVoteFailed s ballot peer => c.requestVoteFailed s ballot peer
  | .requestVoteReply s ballot peer reply => c.requestVoteReply s ballot peer reply
  | .countVote s ballot peer => c.countVote s ballot peer
  | .heartbeat s => c.heartbeat s
  | .broadcast s => c.broadcast s
  | .replicate s replicator => c.replicate s replicator
  | .replicateFailed s replicator => c.replicateFailed s replicator
  | .installReply s replicator reply => c.installReply s replicator reply
  | .appendReply s replicator reply => c.appendReply s replicator reply
  | .handleVote call => c.handleVote call
  | .handleAppend call => c.handleAppend call
  | .handleInstall call => c.handleInstall call
  | .sendSnapshot s install => c.sendSnapshot s install
  | .installDone s install => c.installDone s install
  | .applySend s => c.applySend s
  | .applyResume s => c.applyResume s
  | .start s command => c.start s command
  | .snapshot s index bytes => c.snapshot s index bytes
  | .condInstall s event => c.condInstall s event
  | .kill s => c.kill s
  | .crash s => c.crash s
  | .crashInVote call => c.crashInVote call
  | .crashInAppend call => c.crashInAppend call

/-- The cluster after a list of actions from the empty persisters. -/
def after (n : Nat) (C : Type) [Inhabited C] (as : List (Action n C)) : Option (Cluster n C) :=
  exec step (init n C) as

/-- The state in which an executable list of actions ends. -/
def final (as : List (Action n C)) (runs : (after n C as).isSome = true) : Cluster n C :=
  (after n C as).get runs

theorem after_final (as : List (Action n C)) (runs : (after n C as).isSome = true) :
    after n C as = some (final as runs) :=
  (Option.some_get runs).symm

end DistSys.Raft.Cluster
