import DistSys.KvRaft.WakeUp
import DistSys.Raft.SnapshotContent

namespace DistSys.KvRaft

open Raft (Cluster Blob)

/-- The value of an OK answer. -/
def HandlerState.okValue : HandlerState → Option GoString
  | .leaving _ (.ok value) => some value
  | _ => none

/-- A handler that is about to answer OK was so before, or finds its result in its channel. -/
def Finds (server server' : KVServer) : Prop :=
  ∀ op index value, ⟨op, .leaving index (.ok value)⟩ ∈ server'.handlers →
    ⟨op, .leaving index (.ok value)⟩ ∈ server.handlers ∨
      ∃ term channel, ⟨op, .waiting index term channel⟩ ∈ server.handlers ∧
        server.channels[channel]? = some (some ⟨op, value⟩)

/-- A step of a server that leaves alone what it has applied. -/
structure KVServer.Keeps (server server' : KVServer) : Prop where
  kv : server'.kv = server.kv
  applied : server'.applied = server.applied
  answers : Finds server server'

section
variable {server server' : KVServer} {h : Nat} {new : Handler}

theorem finds_same (same : server'.handlers = server.handlers) : Finds server server' := by
  intro op index value member
  rw [same] at member
  exact .inl member

/-- A handler goes on without an answer. -/
theorem finds_set (handlers : server'.handlers = server.handlers.set h new)
    (silent : new.state.okValue = none) : Finds server server' := by
  intro op index value member
  rw [handlers] at member
  rcases List.mem_or_eq_of_mem_set member with old | same
  · exact .inl old
  · rw [← same] at silent
    cases silent

theorem KVServer.Keeps.refl (server : KVServer) : server.Keeps server := ⟨rfl, rfl, finds_same rfl⟩

theorem register_keeps (next : server.register h = some server') : server.Keeps server' := by
  unfold KVServer.register at next
  split at next
  next =>
    simp only [KVServer.getNotifyCh] at next
    split at next <;> cases next <;> exact ⟨rfl, rfl, finds_set rfl rfl⟩
  next => cases next

theorem receive_keeps (next : server.receive h = some server') : server.Keeps server' := by
  unfold KVServer.receive at next
  split at next
  next op index term channel found =>
    split at next
    next res full =>
      cases next
      refine ⟨rfl, rfl, fun op' index' value member => ?_⟩
      rcases List.mem_or_eq_of_mem_set member with old | same
      · exact .inl old
      · simp only [Handler.mk.injEq, HandlerState.leaving.injEq] at same
        obtain ⟨rfl, rfl, answer⟩ := same
        split at answer
        next own =>
          cases answer
          refine .inr ⟨term, channel, List.mem_of_getElem? found, ?_⟩
          rw [full, ← sameOp_iff.mp own]
        next => cases answer
    next => cases next
  next => cases next

theorem callStart_keeps {answer : Option (Nat × Nat)} (next : server.callStart h answer = some server') :
    server.Keeps server' := by
  unfold KVServer.callStart at next
  split at next
  next => split at next <;> cases next <;> exact ⟨rfl, rfl, finds_set rfl rfl⟩
  next => cases next

theorem timeout_keeps {curTerm : Nat} {stillLeader : Bool}
    (next : server.timeout h curTerm stillLeader = some server') :
    server.Keeps server' := by
  unfold KVServer.timeout at next
  split at next
  next =>
    split at next
    next =>
      cases next
      exact ⟨rfl, rfl, finds_set rfl rfl⟩
    next =>
      cases next
      exact .refl _
  next => cases next

theorem leave_keeps (next : ((server.leave h).map fun left => left.1) = some server') : server.Keeps server' := by
  obtain ⟨left, found, rfl⟩ := Option.map_eq_some_iff.mp next
  unfold KVServer.leave at found
  split at found <;> cases found
  exact ⟨rfl, rfl, finds_set rfl rfl⟩

theorem sendNotification_keeps (next : server.sendNotification = some server') : server.Keeps server' := by
  unfold KVServer.sendNotification at next
  split at next
  next => split at next <;> cases next <;> exact ⟨rfl, rfl, finds_same rfl⟩
  next => cases next

theorem trim_keeps (next : server.trim = some server') : server.Keeps server' := by
  unfold KVServer.trim at next
  split at next <;> cases next
  exact ⟨rfl, rfl, finds_same rfl⟩

end

/-- The same for a server above its Raft peer. -/
structure Host.Keeps (host host' : Host) : Prop where
  server : host.server.Keeps host'.server
  results : host'.results = host.results

theorem Host.Keeps.refl (host : Host) : host.Keeps host := ⟨.refl _, rfl⟩

variable {n : Nat} {codec : Codec} {d d' : Deployment n} {s : Fin n} {e : Event n} {a : Raft.Action n Op}

theorem Host.keeps_serve {host host' : Host} {step : KVServer → Option KVServer}
    (keeps : ∀ server', step host.server = some server' → host.server.Keeps server')
    (next : host.serve step = some host') : host.Keeps host' := by
  obtain ⟨server', found, rfl⟩ := Host.serve_some next
  exact ⟨keeps server' found, rfl⟩

theorem Host.keeps_handle (host : Host) (op : Op) : host.Keeps (host.handle op) := by
  refine ⟨⟨rfl, rfl, fun op' index value member => ?_⟩, rfl⟩
  rcases List.mem_append.mp member with old | new
  · exact .inl old
  · cases List.mem_singleton.mp new

namespace Deployment

/-- The action of Raft that goes with a step. -/
def action (codec : Codec) (d : Deployment n) : Event n → Option (Raft.Action n Op)
  | .raft a => some a
  | .start s h =>
    match (d.host s).server.handlers[h]? with
    | some ⟨op, .calling⟩ => some (.start s op)
    | _ => none
  | .command s => some (.applySend s)
  | .maybeSnapshot s => some (.snapshot s (d.host s).server.applied (codec.encode (d.host s).server.kv))
  | .snapshot s install => some (.sendSnapshot s install)
  | .condInstall s => (d.host s).installing.map fun event => .condInstall s event
  | _ => none

/-- What a step does to the states of the servers, with the action of Raft. -/
inductive Goes (codec : Codec) (d : Deployment n) : Option (Raft.Action n Op) → Deployment n → Prop
  | alone {d' : Deployment n} : d'.cluster = d.cluster → (∀ t, (d.host t).Keeps (d'.host t)) → Goes codec d none d'
  | idles {a : Raft.Action n Op} {d' : Deployment n} : a.idles = true → d.cluster.step a = some d'.cluster →
      (∀ t, (d.host t).Keeps (d'.host t)) → Goes codec d (some a) d'
  | command {s : Fin n} {c' : Cluster n Op} {op : Op} {index term : Int} {msgs : List (Raft.ApplyMsg Op)}
      {lastSent : Int} {answer : Option (Nat × Raft.AppendEntryReply)} :
      (d.cluster.server s).batch = some ⟨.command op index term :: msgs, lastSent, answer⟩ →
      d.cluster.step (.applySend s) = some c' →
      Goes codec d (some (.applySend s)) ⟨c', Function.update d.host s ((d.host s).applyCommand op index.toNat)⟩
  | save {s : Fin n} {c' : Cluster n Op} :
      d.cluster.step (.snapshot s (d.host s).server.applied (codec.encode (d.host s).server.kv)) = some c' →
      Goes codec d (some (.snapshot s (d.host s).server.applied (codec.encode (d.host s).server.kv)))
        { d with cluster := c' }
  | install {s : Fin n} {c' : Cluster n Op} {event : Nat} {data : Blob Op} {term index : Int} :
      (d.cluster.server s).service[event]? = some (.received (.snapshot data term index)) →
      d.cluster.step (.condInstall s event) = some c' →
      Goes codec d (some (.condInstall s event)) ⟨c', Function.update d.host s ((d.host s).applySnapshot codec
        ((d.rf s).condInstallSnapshot term index data).2 data.bytes index.toNat)⟩
  | crash {s : Fin n} {a : Raft.Action n Op} {persister : Raft.Persister Op} {c' : Cluster n Op} :
      a.crashes = true → d.cluster.step a = some c' → c' = d.cluster.setServer s (Raft.boot s persister) →
      Goes codec d (some a) ⟨c', Function.update d.host s (.start codec (c'.server s).rf.persister.snapshot.bytes)⟩

theorem keeps_update {host' : Host} (keeps : (d.host s).Keeps host') (t : Fin n) :
    (d.host t).Keeps (Function.update d.host s host' t) := by
  by_cases here : t = s
  · subst here
    rwa [Function.update_self]
  · rw [Function.update_of_ne here]
    exact .refl _

/-- A server moves on its own. -/
theorem goes_of_move {host : Option Host} (next : d.move s host (some d.cluster) = some d')
    (keeps : ∀ host', host = some host' → (d.host s).Keeps host') : Goes codec d none d' := by
  obtain ⟨host', c', is, ⟨⟩, rfl⟩ := move_some next
  exact .alone rfl (keeps_update (keeps host' is))

theorem idles_of_raft (alone : ¬ ofService a = true) (stays : a.crashes = false) : a.idles = true := by
  cases a with
  | applySend | snapshot | condInstall => exact absurd rfl alone
  | crash | crashInVote | crashInAppend => cases stays
  | _ => rfl

theorem crashes_of_crashed {c : Cluster n Op} (down : crashed c a = some s) : a.crashes = true := by
  cases a <;> first | rfl | cases down

theorem goes_raft (next : d.raft codec a = some d') : Goes codec d (some a) d' := by
  unfold raft at next
  split at next
  next => cases next
  next alone =>
    obtain ⟨c', stepped, rfl⟩ := Option.map_eq_some_iff.mp next
    rcases crashed_cases stepped with ⟨stays, nobody⟩ | ⟨s, persister, down, same⟩
    · rw [nobody]
      exact .idles (idles_of_raft alone stays) stepped fun t => .refl _
    · rw [down]
      exact .crash (crashes_of_crashed down) stepped same

theorem goes_callStart {h : Nat} (next : d.callStart s h = some d') :
    Goes codec d (d.action codec (.start s h)) d' := by
  unfold callStart at next
  simp only at next
  split at next
  next op found =>
    obtain ⟨host', c', called, started, rfl⟩ := move_some next
    simp only [action, found]
    exact .idles rfl started (keeps_update (Host.keeps_serve (fun _ => callStart_keeps) called))
  next => cases next

theorem goes_command (next : d.command s = some d') : Goes codec d (d.action codec (.command s)) d' := by
  unfold command at next
  split at next
  next under =>
    obtain ⟨_, c', ⟨⟩, sent, rfl⟩ := move_some next
    exact .command under sent
  next => cases next

theorem goes_maybeSnapshot (next : d.maybeSnapshot codec s = some d') :
    Goes codec d (d.action codec (.maybeSnapshot s)) d' := by
  unfold maybeSnapshot at next
  simp only at next
  split at next
  next =>
    obtain ⟨_, c', ⟨⟩, saved, rfl⟩ := move_some next
    rw [Function.update_eq_self]
    exact .save saved
  next => cases next

theorem goes_snapshot {install : Nat} (next : d.snapshot s install = some d') :
    Goes codec d (d.action codec (.snapshot s install)) d' := by
  unfold snapshot at next
  simp only at next
  split at next
  next =>
    obtain ⟨_, c', ⟨⟩, sent, rfl⟩ := move_some next
    exact .idles rfl sent (keeps_update ⟨.refl _, rfl⟩)
  next => cases next

theorem goes_condInstall (next : d.condInstall codec s = some d') :
    Goes codec d (d.action codec (.condInstall s)) d' := by
  unfold condInstall at next
  simp only at next
  split at next
  next event _ installing =>
    split at next
    next data term index received =>
      obtain ⟨_, c', ⟨⟩, installed, rfl⟩ := move_some next
      simp only [action, installing, Option.map_some]
      exact .install received installed
    next => cases next
  next => cases next

theorem goes_of_step (next : d.step codec e = some d') : Goes codec d (d.action codec e) d' := by
  cases e with
  | raft a => exact goes_raft next
  | handle s op =>
    have next : d.move s (some ((d.host s).handle op)) (some d.cluster) = some d' := next
    refine goes_of_move next ?_
    rintro _ ⟨⟩
    exact Host.keeps_handle _ op
  | start s h => exact goes_callStart next
  | register s h => exact goes_of_move next fun _ => Host.keeps_serve fun _ => register_keeps
  | take s h => exact goes_of_move next fun _ => Host.keeps_serve fun _ => receive_keeps
  | timeout s h => exact goes_of_move next fun _ => Host.keeps_serve fun _ => timeout_keeps
  | leave s h => exact goes_of_move next fun _ => Host.keeps_serve fun _ => leave_keeps
  | command s => exact goes_command next
  | notify s => exact goes_of_move next fun _ => Host.keeps_serve fun _ => sendNotification_keeps
  | maybeSnapshot s => exact goes_maybeSnapshot next
  | snapshot s install => exact goes_snapshot next
  | condInstall s => exact goes_condInstall next
  | trim s => exact goes_of_move next fun _ => Host.keeps_serve fun _ => trim_keeps

end Deployment

end DistSys.KvRaft
