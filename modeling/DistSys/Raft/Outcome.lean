import DistSys.Raft.Step

namespace DistSys.Raft

variable {n : Nat} {C : Type} [Inhabited C] {c c' : Cluster n C} {a : Action n C}

/-- Every way in which an action can go, with what it found and the cluster it leads to. -/
inductive Outcome (c : Cluster n C) : Action n C → Cluster n C → Prop
  | electionTimeout {s : Fin n} : (c.server s).rf.state ≠ .leader →
      Outcome c (.electionTimeout s)
        (c.setServer s { c.server s with elections := (c.server s).elections + 1 })
  | election {s : Fin n} : 0 < (c.server s).elections →
      Outcome c (.election s) (c.setServer s { c.server s with
        rf := (c.server s).rf.election
        elections := (c.server s).elections - 1
        ballots := (c.server s).ballots ++ [⟨(c.server s).rf.election.currentTerm, 1, false,
          fun peer => if peer = s then .ended else .ready⟩] })
  | requestVote {s peer : Fin n} {b : Nat} {ballot : Ballot n} :
      (c.server s).ballots[b]? = some ballot → ballot.peer peer = .ready →
      Outcome c (.requestVote s b peer) ((c.setServer s
        ((c.server s).setBallot b (setPeer ballot peer (.waiting c.requests.length)))).addRequest
          (.vote s peer ((c.server s).rf.requestVote ballot.term)))
  | requestVoteFailed {s peer : Fin n} {b call : Nat} {ballot : Ballot n} :
      (c.server s).ballots[b]? = some ballot → ballot.peer peer = .waiting call →
      Outcome c (.requestVoteFailed s b peer)
        (c.setServer s ((c.server s).setBallot b (setPeer ballot peer .ended)))
  | requestVoteReply {s peer : Fin n} {b k call : Nat} {ballot : Ballot n} {reply : RequestVoteReply} :
      (c.server s).ballots[b]? = some ballot → c.replies[k]? = some (call, .vote reply) →
      ballot.peer peer = .waiting call →
      Outcome c (.requestVoteReply s b peer k)
        (c.setServer s ({ c.server s with rf := ((c.server s).rf.requestVoteReply reply).1 }.setBallot b
          (setPeer ballot peer (if ((c.server s).rf.requestVoteReply reply).2 then .granted else .ended))))
  | counted {s peer : Fin n} {b : Nat} {ballot : Ballot n} {finished : Bool} :
      (c.server s).ballots[b]? = some ballot → ballot.peer peer = .granted →
      Outcome c (.countVote s b peer) (c.setServer s ((c.server s).setBallot b
        { setPeer ballot peer .counted with voteReceived := ballot.voteReceived + 1, finished := finished }))
  | elected {s peer : Fin n} {b : Nat} {ballot : Ballot n} : (c.server s).ballots[b]? = some ballot →
      ballot.peer peer = .granted → n / 2 < ballot.voteReceived + 1 → (c.server s).rf.state = .candidate →
      (c.server s).rf.currentTerm = ballot.term →
      Outcome c (.countVote s b peer) (c.setServer s ({ c.server s with
        rf := (c.server s).rf.becomeLeader
        broadcasts := (c.server s).broadcasts + 1 }.setBallot b
          { setPeer ballot peer .counted with voteReceived := ballot.voteReceived + 1, finished := true }))
  | heartbeat {s : Fin n} : (c.server s).rf.state = .leader →
      Outcome c (.heartbeat s) (c.setServer s { c.server s with broadcasts := (c.server s).broadcasts + 1 })
  | broadcast {s : Fin n} : 0 < (c.server s).broadcasts →
      Outcome c (.broadcast s) (c.setServer s { c.server s with
        broadcasts := (c.server s).broadcasts - 1
        replicators := (c.server s).replicators ++
          if (c.server s).rf.state = .leader then replicateAll s (c.server s).rf.currentTerm else [] })
  | stopped {s : Fin n} {i : Nat} {r : Replicator n} : (c.server s).replicators[i]? = some r →
      (c.server s).rf.replicateToPeer r.server r.term = .stop →
      Outcome c (.replicate s i) (c.setServer s ((c.server s).setReplicator i { r with pc := .ended }))
  | sentInstall {s : Fin n} {i : Nat} {r : Replicator n} {args : InstallSnapshotArgs C} :
      (c.server s).replicators[i]? = some r →
      (c.server s).rf.replicateToPeer r.server r.term = .installSnapshot args →
      Outcome c (.replicate s i) ((c.setServer s ((c.server s).setReplicator i
        { r with pc := .awaitInstall c.requests.length })).addRequest (.install s r.server args))
  | sentAppend {s : Fin n} {i : Nat} {r : Replicator n} {args : AppendEntryArgs C} :
      (c.server s).replicators[i]? = some r →
      (c.server s).rf.replicateToPeer r.server r.term = .appendEntries args →
      Outcome c (.replicate s i) ((c.setServer s ((c.server s).setReplicator i
        { r with pc := .awaitAppend c.requests.length })).addRequest (.append s r.server args))
  | replicateFailed {s : Fin n} {i : Nat} {r : Replicator n} : (c.server s).replicators[i]? = some r →
      Outcome c (.replicateFailed s i) (c.setServer s ((c.server s).setReplicator i { r with pc := .head }))
  | installReply {s : Fin n} {i k call : Nat} {r : Replicator n} {reply : InstallSnapshotReply} :
      (c.server s).replicators[i]? = some r → c.replies[k]? = some (call, .install reply) →
      r.pc = .awaitInstall call →
      Outcome c (.installReply s i k) (c.setServer s ({ c.server s with
        rf := ((c.server s).rf.installSnapshotReply r.server reply).1 }.setReplicator i { r with
          pc := if ((c.server s).rf.installSnapshotReply r.server reply).2 then .head else .ended }))
  | appendReply {s t u : Fin n} {i k call : Nat} {r : Replicator n} {args : AppendEntryArgs C}
      {reply : AppendEntryReply} : (c.server s).replicators[i]? = some r →
      c.replies[k]? = some (call, .append reply) → c.requests[call]? = some (.append t u args) →
      r.pc = .awaitAppend call →
      Outcome c (.appendReply s i k) (c.setServer s ({ c.server s with
        rf := ((c.server s).rf.appendEntriesReply r.server r.term args reply).1
        batch := Cluster.nextBatch (c.server s).batch
          ((c.server s).rf.appendEntriesReply r.server r.term args reply).2.1 none }.setReplicator i { r with
            pc := if ((c.server s).rf.appendEntriesReply r.server r.term args reply).2.2 then .head else .ended }))
  | handleVote {s sender : Fin n} {call : Nat} {args : RequestVoteArgs} :
      c.requests[call]? = some (.vote sender s args) →
      Outcome c (.handleVote call) ((c.setServer s
        { c.server s with rf := ((c.server s).rf.requestVoteHandle args).1 }).addReply call
          (.vote ((c.server s).rf.requestVoteHandle args).2))
  | answeredAppend {s sender : Fin n} {call : Nat} {args : AppendEntryArgs C} :
      c.requests[call]? = some (.append sender s args) →
      ((c.server s).rf.appendEntriesHandler args).2.2 = none →
      Outcome c (.handleAppend call) ((c.setServer s
        { c.server s with rf := ((c.server s).rf.appendEntriesHandler args).1 }).addReply call
          (.append ((c.server s).rf.appendEntriesHandler args).2.1))
  | appliedAppend {s sender : Fin n} {call : Nat} {args : AppendEntryArgs C} {batch : Batch C} :
      c.requests[call]? = some (.append sender s args) →
      ((c.server s).rf.appendEntriesHandler args).2.2 = some batch →
      Outcome c (.handleAppend call) (c.setServer s { c.server s with
        rf := ((c.server s).rf.appendEntriesHandler args).1
        batch := some ⟨batch.msgs, batch.lastSent,
          some (call, ((c.server s).rf.appendEntriesHandler args).2.1)⟩ })
  | offeredInstall {s sender : Fin n} {call : Nat} {args : InstallSnapshotArgs C} :
      c.requests[call]? = some (.install sender s args) → ((c.server s).rf.installSnapshot args).2.2 = true →
      Outcome c (.handleInstall call) (c.setServer s { c.server s with
        rf := ((c.server s).rf.installSnapshot args).1
        installs := (c.server s).installs ++
          [⟨call, args, ((c.server s).rf.installSnapshot args).2.1, .sending⟩] })
  | answeredInstall {s sender : Fin n} {call : Nat} {args : InstallSnapshotArgs C} :
      c.requests[call]? = some (.install sender s args) →
      Outcome c (.handleInstall call) ((c.setServer s
        { c.server s with rf := ((c.server s).rf.installSnapshot args).1 }).addReply call
          (.install ((c.server s).rf.installSnapshot args).2.1))
  | sendSnapshot {s : Fin n} {i : Nat} {install : Install C} : (c.server s).installs[i]? = some install →
      Outcome c (.sendSnapshot s i) (c.deliver s ((c.server s).setInstall i { install with pc := .sent })
        (.snapshot install.args.data install.args.lastIncludedTerm install.args.lastIncludedIndex))
  | installDone {s : Fin n} {i : Nat} {install : Install C} : (c.server s).installs[i]? = some install →
      Outcome c (.installDone s i) ((c.setServer s ({ c.server s with
        rf := { (c.server s).rf with snapshotInFlight := false } }.setInstall i
          { install with pc := .ended })).addReply install.call (.install install.reply))
  | applySend {s : Fin n} {msg : ApplyMsg C} {msgs : List (ApplyMsg C)} {lastSent : Int}
      {answer : Option (Nat × AppendEntryReply)} :
      (c.server s).batch = some ⟨msg :: msgs, lastSent, answer⟩ →
      Outcome c (.applySend s) (c.deliver s { c.server s with batch := some ⟨msgs, lastSent, answer⟩ } msg)
  | applyAgain {s : Fin n} {lastSent : Int} {answer : Option (Nat × AppendEntryReply)} {batch : Batch C} :
      (c.server s).batch = some ⟨[], lastSent, answer⟩ →
      ((c.server s).rf.applyResume lastSent).2 = some batch →
      Outcome c (.applyResume s) (c.setServer s { c.server s with
        rf := ((c.server s).rf.applyResume lastSent).1
        batch := some ⟨batch.msgs, batch.lastSent, answer⟩ })
  | applyDone {s : Fin n} {lastSent : Int} {answer : Option (Nat × AppendEntryReply)} :
      (c.server s).batch = some ⟨[], lastSent, answer⟩ → ((c.server s).rf.applyResume lastSent).2 = none →
      Outcome c (.applyResume s) ((c.setServer s { c.server s with
        rf := ((c.server s).rf.applyResume lastSent).1, batch := none }).answerWith answer)
  | start {s : Fin n} {command : C} :
      Outcome c (.start s command) (c.setServer s { c.server s with
        rf := ((c.server s).rf.start command).1
        broadcasts := if ((c.server s).rf.start command).2.2.2 then (c.server s).broadcasts + 1
          else (c.server s).broadcasts })
  | snapshot {s : Fin n} {index : Int} {bytes : List UInt8} : hasReceived (c.server s).service index = true →
      Outcome c (.snapshot s index bytes)
        (c.setServer s { c.server s with rf := (c.server s).rf.snapshot index bytes })
  | condInstall {s : Fin n} {event : Nat} {data : Blob C} {term index : Int} :
      (c.server s).service[event]? = some (.received (.snapshot data term index)) →
      Outcome c (.condInstall s event) (c.setServer s { c.server s with
        rf := ((c.server s).rf.condInstallSnapshot term index data).1
        service := (c.server s).service ++
          [.condInstalled index ((c.server s).rf.condInstallSnapshot term index data).2] })
  | kill {s : Fin n} :
      Outcome c (.kill s) (c.setServer s { c.server s with rf := { (c.server s).rf with dead := true } })
  | crash {s : Fin n} : Outcome c (.crash s) (c.setServer s (boot s (c.server s).rf.persister))
  | crashInVote {s sender : Fin n} {call : Nat} {args : RequestVoteArgs} :
      c.requests[call]? = some (.vote sender s args) → args.term > (c.server s).rf.currentTerm →
      Outcome c (.crashInVote call) (c.setServer s (boot s ((c.server s).rf.stepBack args.term).persister))
  | crashInAppend {s sender : Fin n} {call : Nat} {args : AppendEntryArgs C} :
      c.requests[call]? = some (.append sender s args) → args.term > (c.server s).rf.currentTerm →
      Outcome c (.crashInAppend call) (c.setServer s (boot s ((c.server s).rf.stepBack args.term).persister))

/-- The transition function has no other outcomes. -/
theorem outcome_of_step (next : c.step a = some c') : Outcome c a c' := by
  cases a with
  | electionTimeout s =>
    simp only [Cluster.step, Cluster.electionTimeout] at next
    split at next
    next follows => cases next; exact .electionTimeout follows
    next => cases next
  | election s =>
    simp only [Cluster.step, Cluster.election] at next
    split at next
    next called => cases next; exact .election called
    next => cases next
  | requestVote s b peer =>
    simp only [Cluster.step, Cluster.requestVote] at next
    split at next
    next => cases next
    next found =>
      split at next
      next ready => cases next; exact .requestVote found ready
      next => cases next
  | requestVoteFailed s b peer =>
    simp only [Cluster.step, Cluster.requestVoteFailed] at next
    split at next
    next => cases next
    next found =>
      split at next
      next waits => cases next; exact .requestVoteFailed found waits
      next => cases next
  | requestVoteReply s b peer k =>
    simp only [Cluster.step, Cluster.requestVoteReply] at next
    split at next
    next found answered =>
      split at next
      next waits => cases next; exact .requestVoteReply found answered waits
      next => cases next
    next => cases next
  | countVote s b peer =>
    simp only [Cluster.step, Cluster.countVote] at next
    split at next
    next => cases next
    next found =>
      split at next
      next granted =>
        split at next
        next => cases next; exact .counted found granted
        next majority =>
          split at next
          next => cases next; exact .counted found granted
          next candidate =>
            cases next
            have enough := not_le.mp (not_or.mp majority).2
            obtain ⟨runs, now⟩ := not_or.mp candidate
            exact .elected found granted enough (not_not.mp runs) (not_not.mp now)
      next => cases next
  | heartbeat s =>
    simp only [Cluster.step, Cluster.heartbeat] at next
    split at next
    next leads => cases next; exact .heartbeat leads
    next => cases next
  | broadcast s =>
    simp only [Cluster.step, Cluster.broadcast] at next
    split at next
    next called => cases next; exact .broadcast called
    next => cases next
  | replicate s i =>
    simp only [Cluster.step, Cluster.replicate] at next
    split at next
    next => cases next
    next found =>
      split at next
      next =>
        split at next
        next stops => cases next; exact .stopped found stops
        next sends => cases next; exact .sentInstall found sends
        next sends => cases next; exact .sentAppend found sends
      next => cases next
  | replicateFailed s i =>
    simp only [Cluster.step, Cluster.replicateFailed] at next
    split at next
    next => cases next
    next found =>
      split at next
      next => cases next; exact .replicateFailed found
      next => cases next; exact .replicateFailed found
      next => cases next
  | installReply s i k =>
    simp only [Cluster.step, Cluster.installReply] at next
    split at next
    next found answered =>
      split at next
      next waits => cases next; exact .installReply found answered waits
      next => cases next
    next => cases next
  | appendReply s i k =>
    simp only [Cluster.step, Cluster.appendReply] at next
    split at next
    next found answered =>
      split at next
      next asked =>
        split at next
        next waits => cases next; exact .appendReply found answered asked waits
        next => cases next
      next => cases next
    next => cases next
  | handleVote call =>
    simp only [Cluster.step, Cluster.handleVote] at next
    split at next
    next found => cases next; exact .handleVote found
    next => cases next
  | handleAppend call =>
    simp only [Cluster.step, Cluster.handleAppend] at next
    split at next
    next found =>
      split at next
      next quiet => cases next; exact .answeredAppend found quiet
      next applies => cases next; exact .appliedAppend found applies
    next => cases next
  | handleInstall call =>
    simp only [Cluster.step, Cluster.handleInstall] at next
    split at next
    next found =>
      split at next
      next sends => cases next; exact .offeredInstall found sends
      next => cases next; exact .answeredInstall found
    next => cases next
  | sendSnapshot s i =>
    simp only [Cluster.step, Cluster.sendSnapshot] at next
    split at next
    next => cases next
    next found =>
      split at next
      next => cases next; exact .sendSnapshot found
      next => cases next
  | installDone s i =>
    simp only [Cluster.step, Cluster.installDone] at next
    split at next
    next => cases next
    next found =>
      split at next
      next => cases next; exact .installDone found
      next => cases next
  | applySend s =>
    simp only [Cluster.step, Cluster.applySend] at next
    split at next
    next under => cases next; exact .applySend under
    next => cases next
  | applyResume s =>
    simp only [Cluster.step, Cluster.applyResume] at next
    split at next
    next under =>
      split at next
      next again => cases next; exact .applyAgain under again
      next done => cases next; exact .applyDone under done
    next => cases next
  | start s command => cases next; exact .start
  | snapshot s index bytes =>
    simp only [Cluster.step, Cluster.snapshot] at next
    split at next
    next received => cases next; exact .snapshot received
    next => cases next
  | condInstall s event =>
    simp only [Cluster.step, Cluster.condInstall] at next
    split at next
    next found => cases next; exact .condInstall found
    next => cases next
  | kill s => cases next; exact .kill
  | crash s => cases next; exact .crash
  | crashInVote call =>
    simp only [Cluster.step, Cluster.crashInVote] at next
    split at next
    next found =>
      split at next
      next ahead => cases next; exact .crashInVote found ahead
      next => cases next
    next => cases next
  | crashInAppend call =>
    simp only [Cluster.step, Cluster.crashInAppend] at next
    split at next
    next found =>
      split at next
      next ahead => cases next; exact .crashInAppend found ahead
      next => cases next
    next => cases next

end DistSys.Raft
