import DistSys.Porcupine.Verdict

namespace DistSys.Porcupine

variable {S I O : Type}

inductive CheckResult
  /-- Timed out. -/
  | unknown
  | ok
  | illegal
deriving DecidableEq, Repr

/-- A goroutine of `checkParallel`, which has its own nodes. -/
inductive Worker (S I O : Type)
  | running (heap : Heap I O) (headEntry : Nat) (single : Single S)
  | exited

/-- Where `checkParallel` is: in its loop, waiting for the other goroutines, or at its end. -/
inductive Phase
  | loop
  | draining
  | done
deriving DecidableEq, Repr

/-- The variables of `checkParallel`. The channel of the results has room for all of them. -/
structure Parallel (S I O : Type) where
  workers : List (Worker S I O)
  results : List Bool
  longest : List (Option Longest)
  kill : Bool
  count : Nat
  ok : Bool
  timedOut : Bool
  phase : Phase

/-- What happens next: a goroutine goes on, a result is received, or the time is up. -/
inductive Happens
  | worker (i : Nat)
  | receive
  | timeout

namespace Parallel

/-- After the loop: only with `computeInfo` the other goroutines are waited for. -/
def leave (p : Parallel S I O) (computeInfo : Bool) : Parallel S I O :=
  { p with phase := if computeInfo && decide (p.count < p.workers.length) then .draining else .done }

theorem leave_ne_loop {p : Parallel S I O} {computeInfo : Bool} : (p.leave computeInfo).phase ≠ .loop := by
  simp only [leave]
  split <;> simp

theorem leave_draining {p : Parallel S I O} {computeInfo : Bool} :
    (p.leave computeInfo).phase = .draining ↔ computeInfo = true ∧ p.count < p.workers.length := by
  simp [leave]

theorem leave_done {p : Parallel S I O} {computeInfo : Bool} :
    (p.leave computeInfo).phase = .done ↔ (computeInfo = true → p.workers.length ≤ p.count) := by
  simp [leave]

/-- One turn of a goroutine in `checkSingle`, or what it does after that. -/
def work (model : FullModel S I O) (computeInfo : Bool) (p : Parallel S I O) (i : Nat) : Option (Parallel S I O) := do
  match ← p.workers[i]? with
  | .running heap headEntry (.searching search) =>
    let single ← search.turn model heap.nodes headEntry computeInfo p.kill
    some { p with workers := p.workers.set i (.running heap headEntry single) }
  | .running _ _ (.returned ok l) =>
    some { p with
      longest := p.longest.set i (some l)
      results := p.results ++ [ok]
      workers := p.workers.set i .exited }
  | .exited => none

def receive (computeInfo : Bool) (p : Parallel S I O) : Option (Parallel S I O) :=
  match p.phase, p.results with
  | .loop, result :: results =>
    let p := { p with results := results, count := p.count + 1, ok := p.ok && result }
    some (if !p.ok && !computeInfo then leave { p with kill := true } computeInfo
      else if p.count ≥ p.workers.length then p.leave computeInfo else p)
  | .draining, _ :: results => some (leave { p with results := results, count := p.count + 1 } computeInfo)
  | _, _ => none

def expire (computeInfo : Bool) (timeout : Int) (p : Parallel S I O) : Option (Parallel S I O) :=
  if p.phase = .loop ∧ timeout > 0 then some (leave { p with timedOut := true, kill := true } computeInfo)
  else none

def step (model : FullModel S I O) (computeInfo : Bool) (timeout : Int) (p : Parallel S I O) :
    Happens → Option (Parallel S I O)
  | .worker i => p.work model computeInfo i
  | .receive => p.receive computeInfo
  | .timeout => p.expire computeInfo timeout

/-- The goroutine of one of the histories. -/
def spawn (model : FullModel S I O) (subhistory : List (Entry I O)) : Option (Worker S I O) :=
  (beginSearch model subhistory).map fun (heap, headEntry, search) => .running heap headEntry (.searching search)

def start (model : FullModel S I O) (history : List (List (Entry I O))) : Option (Parallel S I O) := do
  let workers ← history.mapM (spawn model)
  some
    { workers := workers
      results := []
      longest := List.replicate history.length none
      kill := false
      count := 0
      ok := true
      timedOut := false
      phase := .loop }

/-- The result, once `checkParallel` is at its end. -/
def result (p : Parallel S I O) : CheckResult :=
  if !p.ok then .illegal else if p.timedOut then .unknown else .ok

end Parallel

/-- `checkParallel`, for what happens in it. -/
def checkParallel (model : FullModel S I O) (history : List (List (Entry I O))) (computeInfo : Bool) (timeout : Int)
    (events : List Happens) : Option (Parallel S I O) := do
  let p ← Parallel.start model history
  exec (Parallel.step model computeInfo timeout) p events

section
variable (model : FullModel S I O) (computeInfo : Bool)

/-- A goroutine that has a number of steps left, at most. -/
inductive Working (killed : Bool) (entries : List (Entry I O)) : Worker S I O → Nat → Prop
  | running {heap headEntry links single bound} :
      Ready model entries heap.nodes headEntry links (addresses entries) (entries.length / 2) →
      After model entries heap.nodes headEntry (addresses entries) computeInfo killed bound single →
      Working killed entries (.running heap headEntry single) (bound + 1)
  | exited : Working killed entries .exited 0

/-- The goroutines: those that have exited have sent their results, in some order. -/
structure Spread (history : List (List (Entry I O))) (workers : List (Worker S I O)) (longest : List (Option Longest))
    (kill : Bool) (left : List Nat) (sent : List (Nat × Bool)) : Prop where
  size : workers.length = history.length
  lefts : left.length = history.length
  longests : longest.length = history.length
  working : ∀ {i : Nat} {entries worker bound}, history[i]? = some entries → workers[i]? = some worker →
    left[i]? = some bound → Working model computeInfo kill entries worker bound
  once : (sent.map Prod.fst).Nodup
  exited : ∀ {i : Nat}, workers[i]? = some .exited ↔ i ∈ sent.map Prod.fst
  answers : ∀ {i ok}, (i, ok) ∈ sent → ∃ entries l, history[i]? = some entries ∧ longest[i]? = some (some l) ∧
    Answer model entries computeInfo kill ok l

/-- What holds between the steps of `checkParallel`; `received` are the results taken from
the channel. -/
structure Together (history : List (List (Entry I O))) (p : Parallel S I O) (left : List Nat)
    (sent : List (Nat × Bool)) (received : List Bool) : Prop where
  spread : Spread model computeInfo history p.workers p.longest p.kill left sent
  channel : sent.map Prod.snd = received ++ p.results
  count : p.count = received.length
  inLoop : p.phase = .loop → p.kill = false ∧ p.timedOut = false ∧ p.ok = received.all (fun ok => ok) ∧
    (history ≠ [] → p.count < history.length)
  draining : p.phase = .draining → p.count < history.length
  done : p.phase = .done → computeInfo = true → p.count = history.length
  timedOut : computeInfo = true → p.kill = p.timedOut
  illegal : p.ok = false → model.Lawful → ∃ entries ∈ history, ∀ order, ¬ Finished model entries order
  legal : p.phase ≠ .loop → p.ok = true → p.timedOut = false →
    ∀ entries ∈ history, ∃ order, Finished model entries order

end

section
variable {model : FullModel S I O} {computeInfo : Bool} {history : List (List (Entry I O))}
variable {workers : List (Worker S I O)} {longest : List (Option Longest)} {kill : Bool}
variable {left : List Nat} {sent : List (Nat × Bool)}

theorem Working.mono {killed killed' : Bool} {entries : List (Entry I O)} {worker : Worker S I O} {bound : Nat}
    (working : Working model computeInfo killed entries worker bound) (seen : killed' = false → killed = false) :
    Working model computeInfo killed' entries worker bound := by
  cases working with
  | running ready after => exact .running ready (after.mono seen (Nat.le_refl _))
  | exited => exact .exited

theorem sum_set_lt {l : List Nat} {i b b' : Nat} (here : l[i]? = some b) (less : b' < b) :
    (l.set i b').sum < l.sum := by
  induction l generalizing i with
  | nil => cases here
  | cons a l ih =>
    cases i with
    | zero =>
      cases here
      simp only [List.set_cons_zero, List.sum_cons]
      omega
    | succ i =>
      have later := ih here
      simp only [List.set_cons_succ, List.sum_cons]
      omega

theorem exists_notMem {l : List Nat} {n : Nat} (few : l.length < n) : ∃ i < n, i ∉ l := by
  by_contra none
  have all : List.range n ⊆ l := fun i inside => by_contra fun absent => none ⟨i, List.mem_range.mp inside, absent⟩
  have length := (List.subperm_of_subset List.nodup_range all).length_le
  rw [List.length_range] at length
  omega

namespace Spread

variable (inv : Spread model computeInfo history workers longest kill left sent)
include inv

theorem at_index {i : Nat} {worker : Worker S I O} (here : workers[i]? = some worker) :
    ∃ entries bound, history[i]? = some entries ∧ left[i]? = some bound ∧
      Working model computeInfo kill entries worker bound := by
  have within := (List.getElem?_eq_some_iff.mp here).1
  have isEntries := List.getElem?_eq_getElem (inv.size ▸ within)
  have isBound := List.getElem?_eq_getElem (inv.lefts ▸ inv.size ▸ within)
  exact ⟨_, _, isEntries, isBound, inv.working isEntries here isBound⟩

theorem sent_subset : sent.map Prod.fst ⊆ List.range history.length := by
  intro i inside
  have bound := (List.getElem?_eq_some_iff.mp (inv.exited.mpr inside)).1
  rw [List.mem_range, ← inv.size]
  exact bound

/-- Every result sent is of a goroutine of its own. -/
theorem sent_le : sent.length ≤ history.length := by
  simpa using (List.subperm_of_subset inv.once inv.sent_subset).length_le

/-- If there are as many results as goroutines, then each has sent one. -/
theorem sent_all (full : history.length ≤ sent.length) {i : Nat} (within : i < history.length) :
    ∃ ok, (i, ok) ∈ sent := by
  have all := (List.subperm_of_subset inv.once inv.sent_subset).perm_of_length_le (by simpa using full)
  obtain ⟨⟨_, ok⟩, member, rfl⟩ := List.mem_map.mp (all.mem_iff.mpr (List.mem_range.mpr within))
  exact ⟨ok, member⟩

/-- The flag `kill` is set. -/
theorem stop (killed : Bool) (seen : killed = false → kill = false) :
    Spread model computeInfo history workers longest killed left sent := by
  refine { inv with working := fun isEntries here isBound => ?_, answers := fun inside => ?_ }
  · exact (inv.working isEntries here isBound).mono seen
  · obtain ⟨entries, l, isEntries, isLongest, answer⟩ := inv.answers inside
    exact ⟨entries, l, isEntries, isLongest, answer.mono seen⟩

/-- A goroutine changes. -/
theorem working_set {i : Nat} {entries : List (Entry I O)} {worker : Worker S I O} {bound : Nat}
    (isEntries : history[i]? = some entries) (working : Working model computeInfo kill entries worker bound) :
    ∀ {k : Nat} {entries' worker' bound'}, history[k]? = some entries' → (workers.set i worker)[k]? = some worker' →
      (left.set i bound)[k]? = some bound' → Working model computeInfo kill entries' worker' bound' := by
  intro k entries' worker' bound' isEntries' there isBound'
  have within := (List.getElem?_eq_some_iff.mp isEntries).1
  by_cases same : i = k
  · subst same
    rw [List.getElem?_set_self (inv.size ▸ within)] at there
    rw [List.getElem?_set_self (inv.lefts ▸ within)] at isBound'
    cases there
    cases isBound'
    cases isEntries.symm.trans isEntries'
    exact working
  · rw [List.getElem?_set_ne same] at there isBound'
    exact inv.working isEntries' there isBound'

/-- A goroutine does one more turn of its search. -/
theorem search {i : Nat} {heap : Heap I O} {headEntry : Nat} {search : Search S} {single : Single S}
    (here : workers[i]? = some (.running heap headEntry (.searching search)))
    (turn : search.turn model heap.nodes headEntry computeInfo kill = some single) : ∃ left',
      Spread model computeInfo history (workers.set i (.running heap headEntry single)) longest kill left' sent ∧
      left'.sum < left.sum := by
  obtain ⟨entries, bound, isEntries, isBound, working⟩ := inv.at_index here
  have within := (List.getElem?_eq_some_iff.mp here).1
  cases working with
  | @running _ _ links _ bound ready after =>
    obtain ⟨single', turn', after'⟩ := after.turn ready kill
    cases turn.symm.trans turn'
    have pos : 0 < bound := by
      cases after with
      | searching _ less => omega
    rw [Bool.or_self] at after'
    refine ⟨left.set i (bound - 1 + 1), { inv with
      size := by rw [List.length_set, inv.size]
      lefts := by rw [List.length_set, inv.lefts]
      working := inv.working_set isEntries (.running ready after')
      exited := ?_ }, sum_set_lt isBound (by omega)⟩
    intro k
    rw [← inv.exited]
    by_cases same : i = k
    · subst same
      simp [List.getElem?_set_self within, here]
    · rw [List.getElem?_set_ne same]

/-- A goroutine sends its result. -/
theorem send {i : Nat} {heap : Heap I O} {headEntry : Nat} {ok : Bool} {l : Longest}
    (here : workers[i]? = some (.running heap headEntry (.returned ok l))) : ∃ left',
      Spread model computeInfo history (workers.set i .exited)
        (longest.set i (some l)) kill left' (sent ++ [(i, ok)]) ∧
      left'.sum < left.sum := by
  obtain ⟨entries, bound, isEntries, isBound, working⟩ := inv.at_index here
  have within := (List.getElem?_eq_some_iff.mp here).1
  have absent : i ∉ sent.map Prod.fst := by
    rw [← inv.exited, here]
    simp
  cases working with
  | @running _ _ links _ bound ready after =>
    cases after with
    | returned answer =>
      refine ⟨left.set i 0, {
        size := by rw [List.length_set, inv.size]
        lefts := by rw [List.length_set, inv.lefts]
        longests := by rw [List.length_set, inv.longests]
        working := inv.working_set isEntries .exited
        once := ?_
        exited := ?_
        answers := ?_ }, sum_set_lt isBound (by omega)⟩
      · rw [List.map_append, List.map_singleton, ← List.concat_eq_append]
        exact inv.once.concat absent
      · intro k
        rw [List.map_append, List.mem_append, List.map_singleton, List.mem_singleton, ← inv.exited]
        by_cases same : i = k
        · subst same
          simp [List.getElem?_set_self within]
        · rw [List.getElem?_set_ne same]
          exact ⟨Or.inl, fun either => either.resolve_right (Ne.symm same)⟩
      · intro k ok' member
        rcases List.mem_append.mp member with old | new
        · obtain ⟨entries', l', isEntries', isLongest, answer'⟩ := inv.answers old
          refine ⟨entries', l', isEntries', ?_, answer'⟩
          rw [List.getElem?_set_ne, isLongest]
          rintro rfl
          exact absent (List.mem_map.mpr ⟨_, old, rfl⟩)
        · cases List.mem_singleton.mp new
          refine ⟨entries, l, isEntries, ?_, answer⟩
          rw [List.getElem?_set_self]
          rw [inv.longests, ← inv.size]
          exact within

end Spread

/-- A bound on the number of steps that `checkParallel` still takes. -/
def steps (p : Parallel S I O) (left : List Nat) : Nat :=
  left.sum + (p.workers.length - p.count) + if p.phase = .loop then 1 else 0

theorem steps_leave {p q : Parallel S I O} {left : List Nat} (loop : p.phase = .loop) (count : p.count ≤ q.count)
    (workers : q.workers = p.workers) : steps (q.leave computeInfo) left < steps p left := by
  simp only [steps, if_neg Parallel.leave_ne_loop, if_pos loop]
  simp only [Parallel.leave, workers]
  omega

namespace Together

variable {p p' : Parallel S I O} {received : List Bool} {timeout : Int}
variable (inv : Together model computeInfo history p left sent received)
include inv

theorem count_add : p.count + p.results.length = sent.length := by
  have length := congrArg List.length inv.channel
  rw [List.length_map, List.length_append, ← inv.count] at length
  exact length.symm

/-- A goroutine that has not exited can go on. -/
theorem worker_enabled {i : Nat} {worker : Worker S I O} (here : p.workers[i]? = some worker)
    (alive : worker ≠ .exited) : (p.work model computeInfo i).isSome = true := by
  obtain ⟨entries, bound, _, _, working⟩ := inv.spread.at_index here
  cases working with
  | exited => exact absurd rfl alive
  | @running heap headEntry links single bound ready after =>
    cases single with
    | returned ok l => simp [Parallel.work, here]
    | searching search =>
      obtain ⟨single', turn, _⟩ := after.turn ready p.kill
      have turn : search.turn model heap.nodes headEntry computeInfo p.kill = some single' := turn
      simp [Parallel.work, here, turn]

/-- Unless it has returned, `checkParallel` can go on. -/
theorem enabled (running : p.phase ≠ .done) (some : history ≠ []) :
    ∃ event, (p.step model computeInfo timeout event).isSome = true := by
  cases results : p.results with
  | cons result results =>
    refine ⟨.receive, ?_⟩
    cases phase : p.phase with
    | loop => simp [Parallel.step, Parallel.receive, phase, results]
    | draining => simp [Parallel.step, Parallel.receive, phase, results]
    | done => exact absurd phase running
  | nil =>
    have few : (sent.map Prod.fst).length < history.length := by
      have count := inv.count_add
      rw [results, List.length_nil, Nat.add_zero] at count
      rw [List.length_map, ← count]
      cases phase : p.phase with
      | loop => exact (inv.inLoop phase).2.2.2 some
      | draining => exact inv.draining phase
      | done => exact absurd phase running
    -- so there is a goroutine that has not sent its result
    obtain ⟨i, within, absent⟩ := exists_notMem few
    have here := List.getElem?_eq_getElem (inv.spread.size ▸ within)
    exact ⟨.worker i, inv.worker_enabled here fun is => absent (inv.spread.exited.mp (is ▸ here))⟩

theorem work {i : Nat} (step : p.work model computeInfo i = some p') : ∃ left' sent',
    Together model computeInfo history p' left' sent' received ∧ steps p' left' < steps p left := by
  simp only [Parallel.work, Option.bind_eq_bind, Option.bind_eq_some_iff] at step
  obtain ⟨worker, here, step⟩ := step
  cases worker with
  | exited => cases step
  | running heap headEntry single =>
    cases single with
    | searching search =>
      obtain ⟨single, turn, is⟩ := Option.bind_eq_some_iff.mp step
      cases is
      obtain ⟨left', spread, less⟩ := inv.spread.search here turn
      refine ⟨left', sent, { inv with spread := spread }, ?_⟩
      simp only [steps, List.length_set]
      omega
    | returned ok l =>
      cases step
      obtain ⟨left', spread, less⟩ := inv.spread.send here
      refine ⟨left', _, { inv with spread := spread, channel := ?_ }, ?_⟩
      · rw [List.map_append, inv.channel, List.append_assoc, List.map_singleton]
      · simp only [steps, List.length_set]
        omega

/-- A negative result sent while the flag `kill` is not set. -/
theorem refuted (alive : p.kill = false) (inside : false ∈ sent.map Prod.snd) (lawful : model.Lawful) :
    ∃ entries ∈ history, ∀ order, ¬ Finished model entries order := by
  obtain ⟨⟨i, _⟩, member, rfl⟩ := List.mem_map.mp inside
  obtain ⟨entries, l, isEntries, _, answer⟩ := inv.spread.answers member
  refine ⟨entries, List.mem_of_getElem? isEntries, fun order finished => ?_⟩
  have reached : Reached model entries order := ⟨finished.choose, finished.choose_spec.1⟩
  exact (answer.refutes rfl alive lawful order reached).1 finished

/-- Only positive results, and one of each goroutine. -/
theorem confirmed (full : history.length ≤ sent.length) (all : ∀ ok ∈ sent.map Prod.snd, ok = true) :
    ∀ entries ∈ history, ∃ order, Finished model entries order := by
  intro entries inside
  obtain ⟨i, within, rfl⟩ := List.mem_iff_getElem.mp inside
  obtain ⟨ok, member⟩ := inv.spread.sent_all full within
  obtain ⟨entries, l, isEntries, _, answer⟩ := inv.spread.answers member
  obtain ⟨order, finished, _⟩ := answer.accepts (all ok (List.mem_map.mpr ⟨_, member, rfl⟩))
  cases (List.getElem?_eq_getElem within).symm.trans isEntries
  exact ⟨order, finished⟩

theorem receive (step : p.receive computeInfo = some p') : ∃ received',
    Together model computeInfo history p' left sent received' ∧ steps p' left < steps p left := by
  have counted := inv.count_add
  have most := inv.spread.sent_le
  have size := inv.spread.size
  unfold Parallel.receive at step
  split at step
  next result results loop channel =>
    obtain ⟨alive, inTime, ok, few⟩ := inv.inLoop loop
    have sends : sent.map Prod.snd = (received ++ [result]) ++ results := by
      rw [inv.channel, channel, List.append_assoc, List.singleton_append]
    have all : (p.ok && result) = (received ++ [result]).all (fun ok => ok) := by
      rw [ok, List.all_append]
      simp
    have illegal : (p.ok && result) = false → model.Lawful →
        ∃ entries ∈ history, ∀ order, ¬ Finished model entries order := by
      intro no lawful
      cases result with
      | true => exact inv.illegal (by simpa using no) lawful
      | false => exact inv.refuted alive (by rw [sends]; simp) lawful
    rw [channel, List.length_cons] at counted
    refine ⟨received ++ [result], ?_⟩
    cases step
    split
    next stops =>
      -- a negative result ends the loop at once, and without `computeInfo` also the check
      obtain ⟨no, noInfo⟩ := Bool.and_eq_true_iff.mp stops
      rw [Bool.not_eq_true'] at no noInfo
      subst noInfo
      refine ⟨⟨inv.spread.stop true (by simp), sends, by simp [Parallel.leave, inv.count], ?_, ?_, by simp, by simp,
        illegal, ?_⟩, ?_⟩
      · exact fun is => absurd is Parallel.leave_ne_loop
      · exact fun is => absurd (Parallel.leave_draining.mp is).1 (by simp)
      · intro _ yes
        cases no.symm.trans yes
      · refine steps_leave loop ?_ rfl
        show p.count ≤ p.count + 1
        omega
    next goes =>
      split
      next last =>
        refine ⟨⟨inv.spread, sends, by simp [Parallel.leave, inv.count], ?_, ?_, ?_, inv.timedOut, illegal, ?_⟩, ?_⟩
        · exact fun is => absurd is Parallel.leave_ne_loop
        · exact fun is => absurd (Parallel.leave_draining.mp is).2 (Nat.not_lt.mpr last)
        · intro _ _
          refine Nat.le_antisymm ?_ (size ▸ last)
          show p.count + 1 ≤ history.length
          omega
        · intro _ yes _
          have last : p.count + 1 ≥ p.workers.length := last
          have none : results = [] := by
            rw [← List.length_eq_zero_iff]
            omega
          refine inv.confirmed (by omega) fun ok inside => ?_
          rw [sends, none, List.append_nil] at inside
          exact List.all_eq_true.mp (all.symm.trans yes) ok inside
        · refine steps_leave loop ?_ rfl
          show p.count ≤ p.count + 1
          omega
      next more =>
        have more : p.count + 1 < p.workers.length := Nat.not_le.mp more
        refine ⟨⟨inv.spread, sends, by simp [inv.count], ?_, ?_, ?_, inv.timedOut, illegal, ?_⟩, ?_⟩
        · exact fun _ => ⟨alive, inTime, all, fun _ => size ▸ more⟩
        · exact fun is => by cases loop.symm.trans is
        · exact fun is => by cases loop.symm.trans is
        · exact fun out => absurd loop out
        · simp only [steps, loop, if_true]
          omega
  next result results draining channel =>
    have few := inv.draining draining
    have sends : sent.map Prod.snd = (received ++ [result]) ++ results := by
      rw [inv.channel, channel, List.append_assoc, List.singleton_append]
    cases step
    refine ⟨received ++ [result], ⟨inv.spread, sends, by simp [Parallel.leave, inv.count], ?_, ?_, ?_, inv.timedOut,
      inv.illegal, ?_⟩, ?_⟩
    · exact fun is => absurd is Parallel.leave_ne_loop
    · exact fun is => size ▸ (Parallel.leave_draining.mp is).2
    · intro is info
      refine Nat.le_antisymm ?_ (size ▸ Parallel.leave_done.mp is info)
      show p.count + 1 ≤ history.length
      omega
    · exact fun _ => inv.legal (by rw [draining]; simp)
    · simp only [steps, if_neg Parallel.leave_ne_loop, draining, reduceCtorEq, if_false]
      simp only [Parallel.leave]
      omega
  next => cases step

theorem expire (step : p.expire computeInfo timeout = some p') :
    Together model computeInfo history p' left sent received ∧ steps p' left < steps p left := by
  unfold Parallel.expire at step
  split at step
  next now =>
    obtain ⟨loop, _⟩ := now
    obtain ⟨alive, inTime, ok, few⟩ := inv.inLoop loop
    have size := inv.spread.size
    have counted := inv.count_add
    have most := inv.spread.sent_le
    cases step
    refine ⟨⟨inv.spread.stop true (by simp), inv.channel, inv.count, ?_, ?_, ?_, fun _ => rfl, inv.illegal, ?_⟩, ?_⟩
    · exact fun is => absurd is Parallel.leave_ne_loop
    · exact fun is => size ▸ (Parallel.leave_draining.mp is).2
    · intro is info
      refine Nat.le_antisymm ?_ (size ▸ Parallel.leave_done.mp is info)
      show p.count ≤ history.length
      omega
    · intro _ _ no
      cases no
    · exact steps_leave loop (Nat.le_refl _) rfl
  next => cases step

theorem step {event : Happens} (step : p.step model computeInfo timeout event = some p') : ∃ left' sent' received',
    Together model computeInfo history p' left' sent' received' ∧ steps p' left' < steps p left := by
  cases event with
  | worker i =>
    obtain ⟨left', sent', after⟩ := inv.work step
    exact ⟨left', sent', received, after⟩
  | receive =>
    obtain ⟨received', after⟩ := inv.receive step
    exact ⟨left, sent, received', after⟩
  | timeout => exact ⟨left, sent, received, inv.expire step⟩

end Together

theorem mapM_exists {α β : Type} {f : α → Option β} {P : α → β → Prop} {l : List α}
    (each : ∀ a ∈ l, ∃ b, f a = some b ∧ P a b) : ∃ bs, l.mapM f = some bs ∧ bs.length = l.length ∧
      ∀ {i : Nat} {a b}, l[i]? = some a → bs[i]? = some b → P a b := by
  induction l with
  | nil => exact ⟨[], rfl, rfl, by simp⟩
  | cons a l ih =>
    obtain ⟨b, first, holds⟩ := each a List.mem_cons_self
    obtain ⟨bs, rest, length, later⟩ := ih fun a inside => each a (List.mem_cons_of_mem _ inside)
    refine ⟨b :: bs, by rw [List.mapM_cons, first, rest]; rfl, by rw [List.length_cons, length, List.length_cons], ?_⟩
    intro i a' b' here there
    cases i with
    | zero =>
      cases here
      cases there
      exact holds
    | succ i => exact later here there

/-- The number of steps of a whole check, at most. -/
def enoughSteps (history : List (List (Entry I O))) : Nat :=
  (history.map fun entries => enough entries + 1).sum + history.length + 1

theorem Together.start (model : FullModel S I O) (computeInfo : Bool)
    (wellFormed : ∀ entries ∈ history, WellFormed entries) : ∃ p : Parallel S I O,
    Parallel.start model history = some p ∧
      Together model computeInfo history p (history.map fun entries => enough entries + 1) [] [] ∧
      steps p (history.map fun entries => enough entries + 1) = enoughSteps history := by
  have each : ∀ entries ∈ history, ∃ worker, Parallel.spawn model entries = some worker ∧ worker ≠ .exited ∧
      Working model computeInfo false entries worker (enough entries + 1) := by
    intro entries inside
    obtain ⟨heap, headEntry, links, begun, ready⟩ := (wellFormed entries inside).beginSearch model
    refine ⟨_, by rw [Parallel.spawn, begun, Option.map_some], by simp, .running ready ?_⟩
    exact ready.start (wellFormed entries inside).even
  obtain ⟨workers, spawned, length, working⟩ := mapM_exists each
  refine ⟨_, by simp only [Parallel.start, spawned, Option.bind_eq_bind, Option.bind_some]; rfl, ?_, ?_⟩
  · refine ⟨⟨length, List.length_map .., List.length_replicate, ?_,
      List.nodup_nil, ?_, ?_⟩, rfl, rfl, ?_, ?_, ?_, ?_, ?_, ?_⟩
    · intro i entries worker bound isEntries here isBound
      rw [List.getElem?_map, isEntries, Option.map_some] at isBound
      cases isBound
      exact (working isEntries here).2
    · intro i
      refine ⟨fun here => ?_, fun inside => by cases inside⟩
      have within := (List.getElem?_eq_some_iff.mp here).1
      exact absurd rfl (working (List.getElem?_eq_getElem (length ▸ within)) here).1
    · intro i ok inside
      cases inside
    · exact fun _ => ⟨rfl, rfl, rfl, List.length_pos_of_ne_nil⟩
    · exact fun is => by cases is
    · exact fun is => by cases is
    · exact fun _ => rfl
    · exact fun is => by cases is
    · exact fun out => absurd rfl out
  · simp only [steps, enoughSteps, length, if_true, Nat.sub_zero]

/-- A run of `checkParallel`. -/
theorem Together.run (wellFormed : ∀ entries ∈ history, WellFormed entries) {timeout : Int} {events : List Happens}
    {p : Parallel S I O} (run : checkParallel model history computeInfo timeout events = some p) :
    ∃ left sent received, Together model computeInfo history p left sent received ∧
      events.length + steps p left ≤ enoughSteps history := by
  obtain ⟨p₀, begun, inv, most⟩ := Together.start model computeInfo wellFormed
  simp only [checkParallel, begun, Option.bind_eq_bind, Option.bind_some] at run
  refine exec_history (P := fun events p => ∃ left sent received,
    Together model computeInfo history p left sent received ∧
    events.length + steps p left ≤ enoughSteps history) ⟨_, _, _, inv, by simp [most]⟩ ?_ run
  rintro events p event p' _ ⟨left, sent, received, inv, bound⟩ next
  obtain ⟨left', sent', received', inv', less⟩ := inv.step next
  refine ⟨left', sent', received', inv', ?_⟩
  rw [List.length_append, List.length_singleton]
  omega

/-- Only a timeout that was asked for ends a check. -/
theorem timedOut_run {timeout : Int} {events : List Happens} {p : Parallel S I O}
    (run : checkParallel model history computeInfo timeout events = some p) (timedOut : p.timedOut = true) :
    0 < timeout := by
  obtain ⟨p₀, begun, run⟩ := Option.bind_eq_some_iff.mp run
  obtain ⟨workers, _, is⟩ := Option.bind_eq_some_iff.mp begun
  refine exec_invariant (P := fun p => p.timedOut = true → 0 < timeout) ?_ ?_ run timedOut
  · cases is
    simp
  · intro p event p' old next
    cases event with
    | worker i =>
      obtain ⟨worker, _, step⟩ := Option.bind_eq_some_iff.mp next
      cases worker with
      | exited => cases step
      | running heap headEntry single =>
        cases single with
        | searching search =>
          obtain ⟨single, _, is⟩ := Option.bind_eq_some_iff.mp step
          cases is
          exact old
        | returned ok l =>
          cases step
          exact old
    | receive =>
      simp only [Parallel.step, Parallel.receive] at next
      split at next
      · cases next
        split
        · exact old
        · split
          · exact old
          · exact old
      · cases next
        exact old
      · cases next
    | timeout =>
      simp only [Parallel.step, Parallel.expire] at next
      split at next
      next now => exact fun _ => now.2
      next => cases next

/-- Without partitions and without a timeout, nothing ever happens. -/
theorem stuck_run {timeout : Int} (never : timeout ≤ 0) {events : List Happens} {p : Parallel S I O}
    (run : checkParallel model [] computeInfo timeout events = some p) : p.phase = .loop := by
  cases events with
  | nil =>
    cases run
    rfl
  | cons event events =>
    have none :
      (Parallel.step model computeInfo timeout ⟨[], [], [], false, 0, true, false, .loop⟩ event) = none := by
      cases event with
      | worker i => rfl
      | receive => rfl
      | timeout => simp [Parallel.step, Parallel.expire, Int.not_lt.mpr never]
    have run : exec (Parallel.step model computeInfo timeout) ⟨[], [], [], false, 0, true, false, .loop⟩
        (event :: events) = some p := run
    rw [exec, none] at run
    cases run

end

section
variable {model : FullModel S I O} {history : List (List (Entry I O))} {computeInfo : Bool} {timeout : Int}
variable {events : List Happens} {p : Parallel S I O}

/-- Whatever the goroutines and the clock do: `Illegal` is returned only for a history with
a partition that has no linearization, `Ok` only if every partition has one, and `Unknown`
only after a timeout. -/
theorem checkParallel_result (lawful : model.Lawful) (wellFormed : ∀ entries ∈ history, WellFormed entries)
    (run : checkParallel model history computeInfo timeout events = some p) (done : p.phase = .done) :
    (p.result = .illegal → ∃ entries ∈ history, ∀ order, ¬ CompleteLinearization model entries order) ∧
      (p.result = .ok → ∀ entries ∈ history, ∃ order, CompleteLinearization model entries order) ∧
      (p.result = .unknown → 0 < timeout) := by
  obtain ⟨left, sent, received, inv, _⟩ := Together.run wellFormed run
  refine ⟨fun is => ?_, fun is => ?_, fun is => timedOut_run run ?_⟩
  · have no : p.ok = false := by
      simp only [Parallel.result] at is
      split at is
      next no => simpa using no
      next => split at is <;> cases is
    obtain ⟨entries, inside, none⟩ := inv.illegal no lawful
    exact ⟨entries, inside, fun order given => none order ((wellFormed entries inside).finished_iff.mpr given)⟩
  · obtain ⟨yes, inTime⟩ : p.ok = true ∧ p.timedOut = false := by
      simp only [Parallel.result] at is
      split at is
      next => cases is
      next yes =>
        split at is
        next => cases is
        next inTime => exact ⟨by simpa using yes, by simpa using inTime⟩
    intro entries inside
    obtain ⟨order, finished⟩ := inv.legal (by rw [done]; simp) yes inTime entries inside
    exact ⟨order, (wellFormed entries inside).finished_iff.mp finished⟩
  · simp only [Parallel.result] at is
    split at is
    next => cases is
    next =>
      split at is
      next late => exact late
      next => cases is

/-- All goroutines begin, and in every run each of them that has not exited can go on, before
and after `checkParallel` has returned: none of them panics. Every run is finite. One that
cannot go on has returned, unless there is no partition and no timeout: then
`checkParallel` waits forever. -/
theorem checkParallel_returns (wellFormed : ∀ entries ∈ history, WellFormed entries) :
    (Parallel.start model history).isSome = true ∧
    ∀ events p, checkParallel model history computeInfo timeout events = some p →
      (∀ (i : Nat) worker, p.workers[i]? = some worker → worker ≠ .exited →
        (p.step model computeInfo timeout (.worker i)).isSome = true) ∧
      events.length ≤ enoughSteps history ∧
      ((∀ event, p.step model computeInfo timeout event = none) →
        (p.phase = .done ↔ history ≠ [] ∨ 0 < timeout)) := by
  constructor
  · obtain ⟨p, begun, _⟩ := Together.start model computeInfo wellFormed
    rw [begun]
    rfl
  intro events p run
  obtain ⟨left, sent, received, inv, bound⟩ := Together.run wellFormed run
  refine ⟨fun i worker here alive => inv.worker_enabled here alive, by omega,
    fun stuck => ⟨fun done => ?_, fun goes => ?_⟩⟩
  · by_contra neither
    rw [not_or, not_not] at neither
    obtain ⟨rfl, never⟩ := neither
    have never : timeout ≤ 0 := Int.not_lt.mp never
    cases done.symm.trans (stuck_run never run)
  · by_contra running
    by_cases some : history = []
    · subst some
      cases phase : p.phase with
      | loop =>
        have now : timeout > 0 := goes.resolve_left (by simp)
        have expires := stuck .timeout
        simp [Parallel.step, Parallel.expire, phase, now] at expires
      | draining => cases inv.draining phase
      | done => exact running phase
    · obtain ⟨event, enabled⟩ := inv.enabled running some
      rw [stuck event] at enabled
      cases enabled

/-- One goroutine that finds an order of two calls. -/
def overlappingRun : List Happens :=
  List.replicate 5 (.worker 0) ++ [.receive]

theorem overlappingRun_runs (computeInfo : Bool) :
    (checkParallel counter [overlapping] computeInfo 0 overlappingRun).map (fun p => (p.phase, p.timedOut)) =
      some (.done, false) := by
  cases computeInfo <;> decide +kernel

theorem checkParallel_returns_overlapping : (∀ entries ∈ [overlapping], WellFormed entries) ∧
    ∃ p, checkParallel counter [overlapping] false 0 overlappingRun = some p ∧
      overlappingRun.length ≤ enoughSteps [overlapping] ∧
      ((∀ event, p.step counter false 0 event = none) → (p.phase = .done ↔ [overlapping] ≠ [] ∨ (0 : Int) < 0)) := by
  have wellFormed : ∀ entries ∈ [overlapping], WellFormed entries := by simp [overlapping_wellFormed]
  obtain ⟨p, run, _⟩ := Option.map_eq_some_iff.mp (overlappingRun_runs false)
  exact ⟨wellFormed, p, run, ((checkParallel_returns wellFormed).2 _ p run).2⟩

/-- With `computeInfo`, a check that does not time out finds for each operation of each
partition a longest sequence of operations that includes it. -/
theorem checkParallel_info (lawful : model.Lawful) (wellFormed : ∀ entries ∈ history, WellFormed entries)
    (run : checkParallel model history true timeout events = some p) (done : p.phase = .done)
    (inTime : p.timedOut = false) {i : Nat} {entries : List (Entry I O)} (here : history[i]? = some entries) :
    ∃ longest, p.longest[i]? = some (some longest) ∧ Partials model entries longest := by
  obtain ⟨left, sent, received, inv, _⟩ := Together.run wellFormed run
  have full : history.length ≤ sent.length := by
    have count := inv.count_add
    rw [inv.done done rfl] at count
    omega
  obtain ⟨ok, member⟩ := inv.spread.sent_all full (List.getElem?_eq_some_iff.mp here).1
  obtain ⟨entries', longest, isEntries, isLongest, answer⟩ := inv.spread.answers member
  cases here.symm.trans isEntries
  rw [inv.timedOut rfl, inTime] at answer
  exact ⟨longest, isLongest, answer.partials lawful (wellFormed entries (List.mem_of_getElem? here))⟩

theorem checkParallel_info_overlapping : ∃ p, checkParallel counter [overlapping] true 0 overlappingRun = some p ∧
    ∃ longest, p.longest[0]? = some (some longest) ∧ Partials counter overlapping longest := by
  obtain ⟨p, run, is⟩ := Option.map_eq_some_iff.mp (overlappingRun_runs true)
  obtain ⟨done, inTime⟩ := Prod.mk.inj is
  exact ⟨p, run, checkParallel_info counter_lawful (by simp [overlapping_wellFormed]) run done inTime rfl⟩

end

end DistSys.Porcupine
