import DistSys.KvRaft.Results
import DistSys.Core.Ledger

namespace DistSys.KvRaft

/-- Some call asked for an operation when the log was not longer than a bound. -/
def Asked (calls : List Call) (op : Op) (bound : Nat) : Prop :=
  ∃ call ∈ calls, call.op = op ∧ call.length ≤ bound

section
variable {calls calls' : List Call} {op : Op} {bound j : Nat} {old : Call} {result : Option Result}

theorem Asked.append (asked : Asked calls op bound) (more : List Call) :
    Asked (calls ++ more) op bound := by
  obtain ⟨call, member, is⟩ := asked
  exact ⟨call, List.mem_append_left _ member, is⟩

theorem Asked.le {bound' : Nat} (asked : Asked calls op bound) (le : bound ≤ bound') :
    Asked calls op bound' := by
  obtain ⟨call, member, is, within⟩ := asked
  exact ⟨call, member, is, within.trans le⟩

/-- A result does not change what was asked. -/
theorem Asked.set (found : calls[j]? = some old) (asked : Asked calls op bound) :
    Asked (calls.set j { old with result := result }) op bound := by
  obtain ⟨call, member, is⟩ := asked
  obtain ⟨i, here⟩ := List.mem_iff_getElem?.mp member
  by_cases same : j = i
  · subst same
    cases found.symm.trans here
    exact ⟨_, List.mem_of_getElem? (List.getElem?_set_self (List.getElem?_eq_some_iff.mp found).1), is⟩
  · rw [← List.getElem?_set_ne same] at here
    exact ⟨call, List.mem_of_getElem? here, is⟩

end

namespace System

variable {sys sys' : System} {clientID : Int} {opType : OpType} {key value : GoString} {i : Nat}

theorem call_cases (next : sys.call clientID opType key value = some sys') :
    (sys.clerk clientID).pending = none ∧ ∃ op : Op, op.clientID = clientID ∧
      op.requestID = (sys.clerk clientID).nextReqID ∧
      sys' = { sys with
        clerk := Function.update sys.clerk clientID
          ⟨(sys.clerk clientID).nextReqID + 1, some sys.calls.length⟩
        calls := sys.calls ++ [⟨op, sys.clock, sys.log.length, none⟩]
        clock := sys.clock + 1 } := by
  unfold call at next
  simp only at next
  split at next
  next => cases next
  next idle =>
    cases next
    exact ⟨idle, _, rfl, rfl, rfl⟩

theorem receive_cases (next : sys.receive clientID i = some sys') :
    ∃ (j : Nat) (call : Call) (result : Result), (sys.clerk clientID).pending = some j ∧
      sys.calls[j]? = some call ∧
      (∃ value, (call.op, .ok value) ∈ sys.replies ∧ (call.op.opType = .get → result.value = value)) ∧
      result.time = sys.clock ∧ result.length = sys.log.length ∧
      sys' = { sys with
        clerk := Function.update sys.clerk clientID { sys.clerk clientID with pending := none }
        calls := sys.calls.set j { call with result := some result }
        clock := sys.clock + 1 } := by
  unfold receive at next
  split at next
  next => cases next
  next j pending =>
    split at next
    next call op value found there =>
      split at next
      next same =>
        subst same
        cases next
        exact ⟨j, call, _, pending, found, ⟨value, List.mem_of_getElem? there, fun reads => if_pos reads⟩,
          rfl, rfl, rfl⟩
      next => cases next
    next => cases next

/-- Nothing is handled, started or committed before some call asked for it. -/
structure Issued (sys : System) : Prop where
  lengths : ∀ call ∈ sys.calls, call.length ≤ sys.log.length
  handlers : ∀ {s handler}, handler ∈ (sys.server s).handlers →
    Asked sys.calls handler.op sys.log.length
  started : ∀ {op}, op ∈ sys.started → Asked sys.calls op sys.log.length
  log : ∀ {p : Nat} {op : Op}, sys.log[p]? = some op → Asked sys.calls op p

theorem issued_initial : Issued initial where
  lengths _ member := by cases member
  handlers member := by cases member
  started member := by cases member
  log here := by cases here

theorem Issued.serves (issued : Issued sys) (serves : Serves sys sys') : Issued sys' where
  lengths := by
    rw [serves.calls, serves.log]
    exact issued.lengths
  handlers member := by
    rw [serves.calls, serves.log]
    rcases serves.handlers _ _ member with ⟨call, asked, is⟩ | ⟨old, before, is⟩
    · exact ⟨call, asked, is, issued.lengths call asked⟩
    · rw [← is]
      exact issued.handlers before
  started member := by
    rw [serves.calls, serves.log]
    rcases serves.started _ member with old | ⟨t, handler, before, is⟩
    · exact issued.started old
    · rw [← is]
      exact issued.handlers before
  log := by
    rw [serves.calls, serves.log]
    exact issued.log

theorem Issued.call (issued : Issued sys) (next : sys.call clientID opType key value = some sys') :
    Issued sys' := by
  obtain ⟨_, op, _, _, rfl⟩ := call_cases next
  refine ⟨?_, fun member => (issued.handlers member).append _, fun member => (issued.started member).append _,
    fun here => (issued.log here).append _⟩
  intro call member
  rcases List.mem_append.mp member with old | new
  · exact issued.lengths call old
  · rw [List.mem_singleton.mp new]

theorem Issued.receive (issued : Issued sys) (next : sys.receive clientID i = some sys') :
    Issued sys' := by
  obtain ⟨j, call, result, _, found, _, _, _, rfl⟩ := receive_cases next
  refine ⟨?_, fun member => (issued.handlers member).set found, fun member => (issued.started member).set found,
    fun here => (issued.log here).set found⟩
  intro other member
  rcases List.mem_or_eq_of_mem_set member with old | rfl
  · exact issued.lengths other old
  · exact issued.lengths call (List.mem_of_getElem? found)

theorem Issued.commit (issued : Issued sys) (next : sys.commit i = some sys') : Issued sys' := by
  obtain ⟨op, found, rfl⟩ := Option.map_eq_some_iff.mp next
  have longer : sys.log.length ≤ (sys.log ++ [op]).length := by simp
  refine ⟨fun call member => (issued.lengths call member).trans longer,
    fun member => (issued.handlers member).le longer, fun member => (issued.started member).le longer, ?_⟩
  intro p other here
  rcases getElem?_concat_cases here with old | ⟨rfl, rfl⟩
  · exact issued.log old
  · exact issued.started (List.mem_of_getElem? found)

/-- The times and lengths of a call are past, and its result is an answer at a
place of the log that was there when the call returned. -/
structure Dated (log : List Op) (clock : Nat) (call : Call) : Prop where
  time : call.time < clock
  length : call.length ≤ log.length
  result : ∀ result, call.result = some result → result.time < clock ∧ result.length ≤ log.length ∧
    Answers (log.take result.length) call.op result.value

/-- The calls of a run in time: what a call that came after another's return has
seen of the log includes what the other had seen. -/
structure Timely (sys : System) : Prop where
  dated : ∀ call ∈ sys.calls, Dated sys.log sys.clock call
  inTime : ∀ a ∈ sys.calls, ∀ b ∈ sys.calls, ∀ result, a.result = some result →
    result.time < b.time → result.length ≤ b.length

/-- What a clerk knows of its calls. -/
structure Clerks (sys : System) : Prop where
  numbered : ∀ call ∈ sys.calls, call.op.requestID < (sys.clerk call.op.clientID).nextReqID
  waiting : ∀ {i : Nat} {call : Call}, sys.calls[i]? = some call → call.result = none →
    (sys.clerk call.op.clientID).pending = some i
  pending : ∀ {clientID i}, (sys.clerk clientID).pending = some i →
    ∃ call, sys.calls[i]? = some call ∧ call.op.clientID = clientID ∧ call.result = none

/-- A clerk numbers its calls, and makes one only when the one before has
returned. -/
structure Serial (sys : System) : Prop where
  named : ∀ {i j : Nat} {a b : Call}, sys.calls[i]? = some a → sys.calls[j]? = some b →
    a.op.clientID = b.op.clientID → a.op.requestID = b.op.requestID → i = j
  ordered : ∀ a ∈ sys.calls, ∀ b ∈ sys.calls, a.op.clientID = b.op.clientID →
    a.op.requestID < b.op.requestID → ∃ result, a.result = some result ∧ result.length ≤ b.length

/-- All that is known of the states of a run. -/
structure Regular (sys : System) : Prop where
  sound : Sound sys
  issued : Issued sys
  timely : Timely sys
  clerks : Clerks sys
  serial : Serial sys

/-! The clerks and the common log are a ledger -/

/-- A call as the ledger has it. -/
def entry (call : Call) : Ledger.Call Op GoString where
  op := call.op
  time := call.time
  length := call.length
  result := call.result.map fun result => ⟨result.value, result.time, result.length⟩

def ledger (sys : System) : Ledger Op GoString where
  log := sys.log
  calls := sys.calls.map entry
  clerk := (fun clerk => ⟨clerk.nextReqID, clerk.pending⟩) ∘ sys.clerk
  clock := sys.clock

/-- A read returns what the log before it has stored. A write has nothing to return. -/
def Right (before : List Op) (op : Op) (value : GoString) : Prop :=
  op.opType = .get → value = (KVState.replay before).read op.key

abbrev LedgerStep (sys sys' : System) : Prop :=
  Ledger.Step Op.clientID Op.requestID Right sys.ledger sys'.ledger

theorem ledger_calls {call : Call} (here : sys.calls[i]? = some call) :
    sys.ledger.calls[i]? = some (entry call) := by
  simp only [ledger, List.getElem?_map, here, Option.map_some]

theorem ledger_call (next : sys.call clientID opType key value = some sys') : LedgerStep sys sys' := by
  obtain ⟨idle, op, rfl, number, rfl⟩ := call_cases next
  have asked : Ledger.Step Op.clientID Op.requestID Right sys.ledger (sys.ledger.ask op.clientID op) :=
    .ask idle number
  simpa [LedgerStep, Ledger.ask, ledger, entry, Function.comp_update] using asked

/-- The reply that a clerk takes is an answer at a place of the log as it is. -/
theorem Sound.ledger_receive (sound : Sound sys) (next : sys.receive clientID i = some sys') :
    LedgerStep sys sys' := by
  obtain ⟨j, call, result, pending, found, ⟨value, reply, reads⟩, time, length, rfl⟩ := receive_cases next
  obtain ⟨p, here, answer⟩ := sound.replies reply
  have finished : Ledger.Step Op.clientID Op.requestID Right sys.ledger
      (sys.ledger.finish clientID j (entry call) result.value) :=
    .finish pending (ledger_calls found) ⟨p, here, fun get => (reads get).trans (answer get)⟩
  simpa [LedgerStep, Ledger.finish, ledger, entry, Function.comp_update, List.map_set, time, length]
    using finished

theorem Issued.ledger_commit (issued : Issued sys) (next : sys.commit i = some sys') :
    LedgerStep sys sys' := by
  obtain ⟨op, found, rfl⟩ := Option.map_eq_some_iff.mp next
  obtain ⟨call, member, rfl, _⟩ := issued.started (List.mem_of_getElem? found)
  exact Ledger.Step.commit (l := sys.ledger) (List.mem_map_of_mem member)

/-- What a run keeps: the servers' results, what was asked for, and the ledger. -/
structure Kept (sys : System) : Prop where
  sound : Sound sys
  issued : Issued sys
  ledger : Ledger.Regular Op.clientID Op.requestID Right sys.ledger

theorem Kept.step {a : Action} (kept : Kept sys) (next : step sys a = some sys') : Kept sys' := by
  obtain ⟨sound, issued, regular⟩ := kept
  rcases sound.step_cases next with serves | ⟨_, _, _, _, called⟩ | ⟨_, _, returned⟩ | ⟨_, committed⟩
  · refine ⟨serves.sound, issued.serves serves, ?_⟩
    rw [System.ledger, serves.log, serves.calls, serves.clerk, serves.clock]
    exact regular
  · refine ⟨?_, issued.call called, regular.step (ledger_call called)⟩
    obtain ⟨_, _, _, _, rfl⟩ := call_cases called
    exact ⟨sound.servers, sound.replies⟩
  · refine ⟨?_, issued.receive returned, regular.step (sound.ledger_receive returned)⟩
    obtain ⟨_, _, _, _, _, _, _, _, rfl⟩ := receive_cases returned
    exact ⟨sound.servers, sound.replies⟩
  · refine ⟨?_, issued.commit committed, regular.step (issued.ledger_commit committed)⟩
    obtain ⟨_, _, rfl⟩ := Option.map_eq_some_iff.mp committed
    exact sound.mono (List.prefix_append _ _) rfl rfl

theorem Kept.timely (kept : Kept sys) : Timely sys := by
  have timely := kept.ledger.timely
  refine ⟨fun call member => ?_, fun a first b second result is => ?_⟩
  · have dated := timely.dated _ (List.mem_map_of_mem member)
    refine ⟨dated.time, dated.length, fun result is => ?_⟩
    exact dated.result ⟨result.value, result.time, result.length⟩ (by simp only [entry, is, Option.map_some])
  · exact timely.inTime _ (List.mem_map_of_mem first) _ (List.mem_map_of_mem second)
      ⟨result.value, result.time, result.length⟩ (by simp only [entry, is, Option.map_some])

theorem Kept.clerks (kept : Kept sys) : Clerks sys := by
  have clerks := kept.ledger.clerks
  refine ⟨fun call member => clerks.numbered _ (List.mem_map_of_mem member), fun here none => ?_,
    fun is => ?_⟩
  · exact clerks.waiting (ledger_calls here) (by simp only [entry, none, Option.map_none])
  · obtain ⟨_, here, client, none⟩ := clerks.pending is
    simp only [System.ledger, List.getElem?_map, Option.map_eq_some_iff] at here
    obtain ⟨call, found, rfl⟩ := here
    exact ⟨call, found, client, Option.map_eq_none_iff.mp none⟩

theorem Kept.serial (kept : Kept sys) : Serial sys := by
  have serial := kept.ledger.serial
  refine ⟨fun here there => serial.named (ledger_calls here) (ledger_calls there), ?_⟩
  intro a first b second client less
  obtain ⟨_, is, bound⟩ :=
    serial.ordered _ (List.mem_map_of_mem first) _ (List.mem_map_of_mem second) client less
  obtain ⟨result, returned, rfl⟩ := Option.map_eq_some_iff.mp is
  exact ⟨result, returned, bound⟩

theorem regular_after {as : List Action} (run : after as = some sys) : Regular sys := by
  have kept : Kept sys := exec_invariant
    ⟨sound_initial, issued_initial, Ledger.regular_initial _ _ _⟩ (fun _ _ _ kept next => kept.step next) run
  exact ⟨kept.sound, kept.issued, kept.timely, kept.clerks, kept.serial⟩

end System

end DistSys.KvRaft
