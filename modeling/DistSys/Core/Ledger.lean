import DistSys.Core.Exec
import Mathlib.Logic.Function.Basic

namespace DistSys

/-- What a call returned, at which time, and the length that the log had then. -/
structure Ledger.Result (V : Type*) where
  value : V
  time : Nat
  length : Nat

/-- A call of a clerk, with the length of the log when it was made. -/
structure Ledger.Call (Op V : Type*) where
  op : Op
  time : Nat
  length : Nat
  result : Option (Ledger.Result V)

/-- A clerk makes one call at a time; `pending` is its position among all calls. -/
structure Ledger.Clerk where
  next : Int
  pending : Option Nat

/-- Clerks that work through one log. They number their operations; the network
and the servers may put what was asked for into the log at any time, any number
of times or never. -/
structure Ledger (Op V : Type*) where
  log : List Op
  calls : List (Ledger.Call Op V)
  clerk : Int → Ledger.Clerk
  clock : Nat

namespace Ledger

variable {Op V : Type*}

def initial (Op V : Type*) : Ledger Op V where
  log := []
  calls := []
  clerk _ := ⟨1, none⟩
  clock := 0

/-- A clerk makes a call. -/
def ask (l : Ledger Op V) (clientID : Int) (op : Op) : Ledger Op V where
  log := l.log
  calls := l.calls ++ [⟨op, l.clock, l.log.length, none⟩]
  clerk := Function.update l.clerk clientID ⟨(l.clerk clientID).next + 1, some l.calls.length⟩
  clock := l.clock + 1

/-- The pending call of a clerk returns. -/
def finish (l : Ledger Op V) (clientID : Int) (j : Nat) (call : Call Op V) (value : V) : Ledger Op V where
  log := l.log
  calls := l.calls.set j { call with result := some ⟨value, l.clock, l.log.length⟩ }
  clerk := Function.update l.clerk clientID ⟨(l.clerk clientID).next, none⟩
  clock := l.clock + 1

def commit (l : Ledger Op V) (op : Op) : Ledger Op V :=
  { l with log := l.log ++ [op] }

/-- A value is right for an operation at some place of the log. Whether it is
depends on what comes before. -/
def Answers (right : List Op → Op → V → Prop) (log : List Op) (op : Op) (value : V) : Prop :=
  ∃ p : Nat, log[p]? = some op ∧ right (log.take p) op value

section
variable {right : List Op → Op → V → Prop} {log log' : List Op} {op : Op} {value : V}

theorem Answers.mono (answers : Answers right log op value) (grows : log <+: log') :
    Answers right log' op value := by
  obtain ⟨p, here, is⟩ := answers
  obtain ⟨more, rfl⟩ := grows
  have within := (List.getElem?_eq_some_iff.mp here).1
  refine ⟨p, by rw [List.getElem?_append_left within, here], ?_⟩
  rwa [List.take_append_of_le_length within.le]

end

/-- Only what some call asked for enters the log, and a call returns only what is
right at some place. -/
inductive Step (client number : Op → Int) (right : List Op → Op → V → Prop) :
    Ledger Op V → Ledger Op V → Prop
  | ask {l : Ledger Op V} {op : Op} : (l.clerk (client op)).pending = none →
      number op = (l.clerk (client op)).next → Step client number right l (l.ask (client op) op)
  | finish {l : Ledger Op V} {clientID : Int} {j : Nat} {call : Call Op V} {value : V} :
      (l.clerk clientID).pending = some j → l.calls[j]? = some call →
      Answers right l.log call.op value → Step client number right l (l.finish clientID j call value)
  | commit {l : Ledger Op V} {call : Call Op V} : call ∈ l.calls →
      Step client number right l (l.commit call.op)

/-- The times and lengths of a call are past, and its result is right at a place of
the log that was there when the call returned. -/
structure Dated (right : List Op → Op → V → Prop) (l : Ledger Op V) (call : Call Op V) : Prop where
  time : call.time < l.clock
  length : call.length ≤ l.log.length
  result : ∀ result, call.result = some result → result.time < l.clock ∧
    result.length ≤ l.log.length ∧ Answers right (l.log.take result.length) call.op result.value

/-- The calls in time. Nothing is in the log before it was asked for, and a call
made after another has returned has seen at least as much of the log. -/
structure Timely (right : List Op → Op → V → Prop) (l : Ledger Op V) : Prop where
  dated : ∀ call ∈ l.calls, Dated right l call
  asked : ∀ {p : Nat} {op : Op}, l.log[p]? = some op → ∃ call ∈ l.calls, call.op = op ∧ call.length ≤ p
  inTime : ∀ a ∈ l.calls, ∀ b ∈ l.calls, ∀ result, a.result = some result →
    result.time < b.time → result.length ≤ b.length

/-- What a clerk knows of its calls. -/
structure Clerks (client number : Op → Int) (l : Ledger Op V) : Prop where
  numbered : ∀ call ∈ l.calls, number call.op < (l.clerk (client call.op)).next
  waiting : ∀ {i : Nat} {call : Call Op V}, l.calls[i]? = some call → call.result = none →
    (l.clerk (client call.op)).pending = some i
  pending : ∀ {clientID i}, (l.clerk clientID).pending = some i →
    ∃ call, l.calls[i]? = some call ∧ client call.op = clientID ∧ call.result = none

/-- A clerk makes a call only when the one before has returned. -/
structure Serial (client number : Op → Int) (l : Ledger Op V) : Prop where
  named : ∀ {i j : Nat} {a b : Call Op V}, l.calls[i]? = some a → l.calls[j]? = some b →
    client a.op = client b.op → number a.op = number b.op → i = j
  ordered : ∀ a ∈ l.calls, ∀ b ∈ l.calls, client a.op = client b.op → number a.op < number b.op →
    ∃ result, a.result = some result ∧ result.length ≤ b.length

/-- All that is known of the calls of a run. -/
structure Regular (client number : Op → Int) (right : List Op → Op → V → Prop) (l : Ledger Op V) :
    Prop where
  timely : Timely right l
  clerks : Clerks client number l
  serial : Serial client number l

section
variable {client number : Op → Int} {right : List Op → Op → V → Prop} {l l' : Ledger Op V}
variable {op : Op} {call : Call Op V} {clientID : Int} {i j : Nat} {value : V}

theorem Dated.mono (dated : Dated right l call) (grows : l.log <+: l'.log) (later : l.clock ≤ l'.clock) :
    Dated right l' call where
  time := dated.time.trans_le later
  length := dated.length.trans grows.length_le
  result result is := by
    obtain ⟨time, length, answers⟩ := dated.result result is
    obtain ⟨more, longer⟩ := grows
    refine ⟨time.trans_le later, by rw [← longer, List.length_append]; omega, ?_⟩
    rwa [← longer, List.take_append_of_le_length length]

theorem getElem?_set_cases {α : Type*} {xs : List α} {old new x : α} (found : xs[j]? = some old)
    (here : (xs.set j new)[i]? = some x) : (i = j ∧ x = new) ∨ (i ≠ j ∧ xs[i]? = some x) := by
  by_cases same : j = i
  · subst same
    rw [List.getElem?_set_self (List.getElem?_eq_some_iff.mp found).1] at here
    exact Or.inl ⟨rfl, (Option.some.inj here).symm⟩
  · rw [List.getElem?_set_ne same] at here
    exact Or.inr ⟨fun is => same is.symm, here⟩

theorem regular_initial (client number : Op → Int) (right : List Op → Op → V → Prop) :
    Regular client number right (initial Op V) := by
  have none {call : Call Op V} (member : call ∈ (initial Op V).calls) : False := by cases member
  have nowhere {call : Call Op V} {i : Nat} (here : (initial Op V).calls[i]? = some call) : False :=
    none (List.mem_of_getElem? here)
  constructor
  case timely =>
    exact ⟨fun _ member => (none member).elim, fun here => by (cases here),
      fun _ member => (none member).elim⟩
  case clerks =>
    exact ⟨fun _ member => (none member).elim, fun here => (nowhere here).elim,
      fun is => by (cases is)⟩
  case serial => exact ⟨fun here => (nowhere here).elim, fun _ member => (none member).elim⟩

theorem Timely.ask (timely : Timely right l) (clientID : Int) (op : Op) :
    Timely right (l.ask clientID op) := by
  constructor
  case dated =>
    intro call member
    rcases List.mem_append.mp member with old | new
    · exact (timely.dated call old).mono List.prefix_rfl (Nat.le_succ _)
    · rw [List.mem_singleton.mp new]
      exact ⟨Nat.lt_succ_self _, Nat.le_refl _, fun _ is => by cases is⟩
  case asked =>
    intro p op here
    obtain ⟨call, member, is⟩ := timely.asked here
    exact ⟨call, List.mem_append_left _ member, is⟩
  case inTime =>
    intro a member b member' result is before
    rcases List.mem_append.mp member with old | new
    · rcases List.mem_append.mp member' with old' | new'
      · exact timely.inTime a old b old' result is before
      · rw [List.mem_singleton.mp new']
        exact ((timely.dated a old).result result is).2.1
    · rw [List.mem_singleton.mp new] at is
      cases is

/-- Before a clerk makes a call, all its earlier ones have returned. -/
theorem Clerks.returned (clerks : Clerks client number l) (idle : (l.clerk clientID).pending = none)
    (here : l.calls[i]? = some call) (mine : client call.op = clientID) :
    ∃ result, call.result = some result := by
  rw [← Option.ne_none_iff_exists']
  intro none
  have pending := clerks.waiting here none
  rw [mine, idle] at pending
  cases pending

theorem Clerks.ask (clerks : Clerks client number l) (idle : (l.clerk (client op)).pending = none)
    (fresh : number op = (l.clerk (client op)).next) : Clerks client number (l.ask (client op) op) := by
  constructor
  case numbered =>
    intro call member
    simp only [Ledger.ask]
    rcases List.mem_append.mp member with old | new
    · have bound := clerks.numbered call old
      by_cases mine : client call.op = client op
      · rw [mine] at bound ⊢
        rw [Function.update_self]
        exact Int.lt_trans bound (Int.lt_succ _)
      · rwa [Function.update_of_ne mine]
    · rw [List.mem_singleton.mp new, Function.update_self, fresh]
      exact Int.lt_succ _
  case waiting =>
    intro i call here none
    simp only [Ledger.ask]
    rcases getElem?_concat_cases here with here | ⟨rfl, rfl⟩
    · by_cases mine : client call.op = client op
      · obtain ⟨result, is⟩ := clerks.returned idle here mine
        rw [none] at is
        cases is
      · rw [Function.update_of_ne mine]
        exact clerks.waiting here none
    · rw [Function.update_self]
  case pending =>
    intro other i is
    simp only [Ledger.ask] at is ⊢
    by_cases mine : other = client op
    · subst mine
      rw [Function.update_self] at is
      cases is
      exact ⟨_, List.getElem?_concat_length, rfl, rfl⟩
    · rw [Function.update_of_ne mine] at is
      obtain ⟨call, here, is⟩ := clerks.pending is
      exact ⟨call, by rw [List.getElem?_append_left (List.getElem?_eq_some_iff.mp here).1, here], is⟩

theorem Serial.ask (serial : Serial client number l) (clerks : Clerks client number l)
    (timely : Timely right l) (idle : (l.clerk (client op)).pending = none)
    (fresh : number op = (l.clerk (client op)).next) : Serial client number (l.ask (client op) op) := by
  -- the new call has a number above all earlier ones of its clerk
  have below {a : Call Op V} (member : a ∈ l.calls) (mine : client a.op = client op) :
      number a.op < number op := by
    have bound := clerks.numbered a member
    rwa [mine, ← fresh] at bound
  constructor
  case named =>
    intro i j a b here there sameClient sameNumber
    rcases getElem?_concat_cases here with here | ⟨rfl, rfl⟩ <;>
      rcases getElem?_concat_cases there with there | ⟨rfl, rfl⟩
    · exact serial.named here there sameClient sameNumber
    · exact absurd sameNumber (Int.ne_of_lt (below (List.mem_of_getElem? here) sameClient))
    · exact absurd sameNumber.symm (Int.ne_of_lt (below (List.mem_of_getElem? there) sameClient.symm))
    · rfl
  case ordered =>
    intro a member b member' sameClient less
    rcases List.mem_append.mp member with old | new
    · rcases List.mem_append.mp member' with old' | new'
      · exact serial.ordered a old b old' sameClient less
      · rw [List.mem_singleton.mp new'] at sameClient ⊢
        obtain ⟨i, here⟩ := List.mem_iff_getElem?.mp old
        obtain ⟨result, is⟩ := clerks.returned idle here sameClient
        exact ⟨result, is, ((timely.dated a old).result result is).2.1⟩
    · rw [List.mem_singleton.mp new] at sameClient less
      rcases List.mem_append.mp member' with old' | new'
      · exact absurd less (Int.lt_asymm (below old' sameClient.symm))
      · rw [List.mem_singleton.mp new'] at less
        exact absurd less (Int.lt_irrefl _)

/-- The value that a clerk takes is right at a place of the log as it is. -/
theorem Timely.finish (timely : Timely right l) (clientID : Int) (found : l.calls[j]? = some call)
    (answers : Answers right l.log call.op value) : Timely right (l.finish clientID j call value) := by
  have member := List.mem_of_getElem? found
  constructor
  case dated =>
    intro other inside
    rcases List.mem_or_eq_of_mem_set inside with old | rfl
    · exact (timely.dated other old).mono List.prefix_rfl (Nat.le_succ _)
    · have dated := timely.dated call member
      refine ⟨dated.time.trans (Nat.lt_succ_self _), dated.length, fun given is => ?_⟩
      cases is
      refine ⟨Nat.lt_succ_self _, Nat.le_refl _, ?_⟩
      simp only [Ledger.finish]
      rwa [List.take_length]
  case asked =>
    intro p op here
    obtain ⟨asker, inside, is⟩ := timely.asked here
    obtain ⟨i, there⟩ := List.mem_iff_getElem?.mp inside
    by_cases same : j = i
    · subst same
      cases found.symm.trans there
      exact ⟨_, List.mem_of_getElem? (List.getElem?_set_self (List.getElem?_eq_some_iff.mp found).1), is⟩
    · rw [← List.getElem?_set_ne same] at there
      exact ⟨asker, List.mem_of_getElem? there, is⟩
  case inTime =>
    intro a first b second given is before
    rcases List.mem_or_eq_of_mem_set second with old' | rfl <;>
      rcases List.mem_or_eq_of_mem_set first with old | rfl
    · exact timely.inTime a old b old' given is before
    · cases is
      exact absurd before (Nat.lt_asymm (timely.dated b old').time)
    · exact timely.inTime a old call member given is before
    · cases is
      exact absurd before (Nat.lt_asymm (timely.dated call member).time)

theorem Clerks.finish (clerks : Clerks client number l) (pending : (l.clerk clientID).pending = some j)
    (found : l.calls[j]? = some call) (value : V) :
    Clerks client number (l.finish clientID j call value) := by
  obtain ⟨_, there, mine, _⟩ := clerks.pending pending
  cases found.symm.trans there
  constructor
  case numbered =>
    intro other inside
    have same : ((l.finish clientID j call value).clerk (client other.op)).next =
        (l.clerk (client other.op)).next := by
      simp only [Ledger.finish]
      by_cases is : client other.op = clientID
      · rw [is, Function.update_self]
      · rw [Function.update_of_ne is]
    rw [same]
    rcases List.mem_or_eq_of_mem_set inside with old | rfl
    · exact clerks.numbered other old
    · exact clerks.numbered call (List.mem_of_getElem? found)
  case waiting =>
    intro i other here left
    rcases getElem?_set_cases found here with ⟨rfl, rfl⟩ | ⟨away, here⟩
    · cases left
    · have was := clerks.waiting here left
      simp only [Ledger.finish]
      by_cases is : client other.op = clientID
      · rw [is, pending] at was
        exact absurd (Option.some.inj was).symm away
      · rwa [Function.update_of_ne is]
  case pending =>
    intro other i is
    simp only [Ledger.finish] at is ⊢
    by_cases same : other = clientID
    · subst same
      rw [Function.update_self] at is
      cases is
    · rw [Function.update_of_ne same] at is
      obtain ⟨call', here, owner, left⟩ := clerks.pending is
      refine ⟨call', ?_, owner, left⟩
      rw [List.getElem?_set_ne, here]
      rintro rfl
      cases found.symm.trans here
      exact same (owner.symm.trans mine)

theorem Serial.finish (serial : Serial client number l) (clerks : Clerks client number l)
    (pending : (l.clerk clientID).pending = some j) (found : l.calls[j]? = some call) (value : V) :
    Serial client number (l.finish clientID j call value) := by
  have member := List.mem_of_getElem? found
  obtain ⟨_, there, _, left⟩ := clerks.pending pending
  cases found.symm.trans there
  constructor
  case named =>
    intro i k a b here there sameClient sameNumber
    rcases getElem?_set_cases found here with ⟨rfl, rfl⟩ | ⟨_, first⟩ <;>
      rcases getElem?_set_cases found there with ⟨rfl, rfl⟩ | ⟨_, second⟩
    · rfl
    · exact serial.named found second sameClient sameNumber
    · exact serial.named first found sameClient sameNumber
    · exact serial.named first second sameClient sameNumber
  case ordered =>
    intro a first b second sameClient less
    -- the call that returns was the last of its clerk
    have last {b : Call Op V} (inside : b ∈ l.calls) (same : client call.op = client b.op) :
        ¬ number call.op < number b.op := by
      intro less
      obtain ⟨given, is, _⟩ := serial.ordered call member b inside same less
      rw [left] at is
      cases is
    rcases List.mem_or_eq_of_mem_set second with old' | rfl <;>
      rcases List.mem_or_eq_of_mem_set first with old | rfl
    · exact serial.ordered a old b old' sameClient less
    · exact absurd less (last old' sameClient)
    · exact serial.ordered a old call member sameClient less
    · exact absurd less (Int.lt_irrefl _)

theorem Timely.commit (timely : Timely right l) (member : call ∈ l.calls) :
    Timely right (l.commit call.op) where
  dated other inside := (timely.dated other inside).mono (List.prefix_append _ _) (Nat.le_refl _)
  asked here := by
    rcases getElem?_concat_cases here with old | ⟨rfl, rfl⟩
    · exact timely.asked old
    · exact ⟨call, member, rfl, (timely.dated call member).length⟩
  inTime := timely.inTime

theorem Regular.step (regular : Regular client number right l) (next : Step client number right l l') :
    Regular client number right l' := by
  obtain ⟨timely, clerks, serial⟩ := regular
  cases next with
  | ask idle fresh => exact ⟨timely.ask _ _, clerks.ask idle fresh, serial.ask clerks timely idle fresh⟩
  | finish pending found answers =>
    exact ⟨timely.finish _ found answers, clerks.finish pending found _,
      serial.finish clerks pending found _⟩
  | commit member =>
    exact ⟨timely.commit member, ⟨clerks.numbered, clerks.waiting, clerks.pending⟩,
      ⟨serial.named, serial.ordered⟩⟩

/-- The operation identifies the call. -/
theorem Serial.eq_of_op {other : Call Op V} (serial : Serial client number l)
    (here : l.calls[i]? = some call) (there : l.calls[j]? = some other)
    (sameClient : client call.op = client other.op) (sameNumber : number call.op = number other.op) :
    i = j ∧ call = other := by
  have same := serial.named here there sameClient sameNumber
  subst same
  exact ⟨rfl, Option.some.inj (here.symm.trans there)⟩

end

end Ledger

end DistSys
