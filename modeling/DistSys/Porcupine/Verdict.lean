import DistSys.Porcupine.Loop

namespace DistSys.Porcupine

open Intervals

variable {S I O : Type}

/-- Equal states allow the same steps, and lead to equal states. -/
structure FullModel.Lawful (model : FullModel S I O) : Prop where
  trans : ∀ {s t u}, model.equal s t = true → model.equal t u = true → model.equal s u = true
  step : ∀ {s t input output}, model.equal s t = true → (model.step s input output).1 = true →
    (model.step t input output).1 = true ∧
      model.equal (model.step s input output).2 (model.step t input output).2 = true

section
variable {model : FullModel S I O} {entries : List (Entry I O)}

theorem Alike.trans (lawful : model.Lawful) {s t u : S} (first : Alike model s t) (second : Alike model t u) :
    Alike model s u := by
  rcases first with rfl | first
  · exact second
  · rcases second with rfl | second
    · exact Or.inr first
    · exact Or.inr (lawful.trans first second)

theorem effect_some {s s' : S} {i : Nat} : effect model entries s i = some s' ↔ ∃ input output,
    (entries.findSome? fun entry => entry.input i) = some input ∧
    (entries.findSome? fun entry => entry.output i) = some output ∧
    (model.step s input output).1 = true ∧ (model.step s input output).2 = s' := by
  simp only [effect, Option.bind_eq_bind, Option.bind_eq_some_iff]
  constructor
  · rintro ⟨input, isInput, output, isOutput, step⟩
    split at step
    next ok => exact ⟨input, output, isInput, isOutput, ok, Option.some.inj step⟩
    next => cases step
  · rintro ⟨input, output, isInput, isOutput, ok, is⟩
    exact ⟨input, isInput, output, isOutput, by rw [if_pos ok, is]⟩

theorem Alike.effect (lawful : model.Lawful) {s t s' : S} {i : Nat} (alike : Alike model s t)
    (takes : effect model entries s i = some s') :
    ∃ t', effect model entries t i = some t' ∧ Alike model s' t' := by
  rcases alike with rfl | equal
  · exact ⟨s', takes, Or.inl rfl⟩
  · obtain ⟨input, output, isInput, isOutput, ok, rfl⟩ := effect_some.mp takes
    obtain ⟨ok', equal'⟩ := lawful.step equal ok
    exact ⟨_, effect_some.mpr ⟨input, output, isInput, isOutput, ok', rfl⟩, Or.inr equal'⟩

end

section
variable (model : FullModel S I O) (entries : List (Entry I O))

/-- Some operations of the history in an order that the model accepts, in which each comes
after all those that returned before it was called. -/
structure PartialLinearization (order : List Nat) : Prop where
  nodup : order.Nodup
  within : ∀ i ∈ order, i < entries.length / 2
  inTime : ∀ before i after, order = before ++ i :: after →
    ∀ j, [Mark.ret j, Mark.call i].Sublist (marks entries) → j ∈ before
  legal : (exec (effect model entries) model.init order).isSome = true

/-- All operations of the history in such an order. -/
structure CompleteLinearization (order : List Nat) : Prop extends PartialLinearization model entries order where
  complete : order.length = entries.length / 2

/-- The search can come to these calls, in their order, with nothing left. -/
def Finished (order : List Nat) : Prop :=
  ∃ state, Linearized (effect model entries) model.init (marks entries) order state ∧
    rest (marks entries) order = []

/-- The search can come to these calls, in their order. -/
def Reached (order : List Nat) : Prop :=
  ∃ state, Linearized (effect model entries) model.init (marks entries) order state

/-- What `checkSingle` returns, `killed` if the flag has been seen set. -/
structure Answer (computePartial killed ok : Bool) (longest : Longest) : Prop where
  length : longest.length = entries.length / 2
  accepts : ok = true → ∃ order, Finished model entries order ∧ order.Perm (List.range (entries.length / 2)) ∧
    ∀ i < longest.length, longest[i]? = some (some order)
  found : ∀ i known, longest[i]? = some (some known) → i ∈ known ∧ Reached model entries known
  refutes : ok = false → killed = false → model.Lawful → ∀ order, Reached model entries order →
    ¬ Finished model entries order ∧ (computePartial = true → Recorded longest order)

/-- What a turn of the loop leaves: it goes on with fewer turns left, or it has returned. -/
inductive After (nodes : Nat → Node I O) (headEntry : Nat) (xs : List Nat) (computePartial killed : Bool)
    (bound : Nat) : Single S → Prop
  | searching {search before after budget} :
      Searching model entries nodes headEntry xs (entries.length / 2) computePartial search before after budget →
      turns (entries.length / 2) search after budget < bound →
      After nodes headEntry xs computePartial killed bound (.searching search)
  | returned {ok longest} : Answer model entries computePartial killed ok longest →
      After nodes headEntry xs computePartial killed bound (.returned ok longest)

end

section
variable {model : FullModel S I O} {entries : List (Entry I O)} {order : List Nat} {i : Nat}

/-- There are as many operations as numbers below half the number of entries. -/
theorem WellFormed.call_iff (wellFormed : WellFormed entries) :
    Mark.call i ∈ marks entries ↔ i < entries.length / 2 := by
  let every := (List.range (entries.length / 2)).map Mark.call ++ (List.range (entries.length / 2)).map Mark.ret
  have bounded : ∀ {mark}, mark ∈ marks entries → mark.id < entries.length / 2 := by
    intro mark inside
    obtain ⟨entry, member, rfl⟩ := List.mem_map.mp inside
    have bound := wellFormed.bounded entry member
    have same : entry.mark.id = entry.id := by
      cases kind : entry.kind <;> simp only [Entry.mark, kind, Mark.id]
    omega
  have within : marks entries ⊆ every := by
    intro mark inside
    have bound := bounded inside
    cases mark with
    | call k => exact List.mem_append_left _ (List.mem_map.mpr ⟨k, List.mem_range.mpr bound, rfl⟩)
    | ret k => exact List.mem_append_right _ (List.mem_map.mpr ⟨k, List.mem_range.mpr bound, rfl⟩)
  have all : (marks entries).Perm every := by
    refine (List.subperm_of_subset wellFormed.paired.nodup within).perm_of_length_le ?_
    have even := wellFormed.even
    simp only [every, marks, List.length_append, List.length_map, List.length_range]
    omega
  rw [all.mem_iff]
  simp [every]

theorem WellFormed.reached_iff (wellFormed : WellFormed entries) :
    Reached model entries order ↔ PartialLinearization model entries order := by
  constructor
  · rintro ⟨state, linearized⟩
    obtain ⟨run, nodup, made, inTime⟩ := (Linearized.iff_order wellFormed.paired.nodup).mp linearized
    exact ⟨nodup, fun i inside => wellFormed.call_iff.mp (made i inside), inTime, by rw [run]; rfl⟩
  · intro given
    obtain ⟨state, run⟩ := Option.isSome_iff_exists.mp given.legal
    refine ⟨state, (Linearized.iff_order wellFormed.paired.nodup).mpr ⟨run, given.nodup, ?_, given.inTime⟩⟩
    exact fun i inside => wellFormed.call_iff.mpr (given.within i inside)

theorem PartialLinearization.length_le (given : PartialLinearization model entries order) :
    order.length ≤ entries.length / 2 := by
  have subperm := List.subperm_of_subset given.nodup fun i inside => List.mem_range.mpr (given.within i inside)
  simpa using subperm.length_le

theorem CompleteLinearization.perm (given : CompleteLinearization model entries order) :
    order.Perm (List.range (entries.length / 2)) := by
  refine (List.subperm_of_subset given.nodup
    fun i inside => List.mem_range.mpr (given.within i inside)).perm_of_length_le ?_
  rw [List.length_range, given.complete]

theorem WellFormed.finished_iff (wellFormed : WellFormed entries) :
    Finished model entries order ↔ CompleteLinearization model entries order := by
  constructor
  · rintro ⟨state, linearized, empty⟩
    have given := wellFormed.reached_iff.mp ⟨state, linearized⟩
    refine ⟨given, Nat.le_antisymm given.length_le ?_⟩
    have all : List.range (entries.length / 2) ⊆ order := by
      intro i inside
      by_contra absent
      have left := mem_rest.mpr ⟨wellFormed.call_iff.mpr (List.mem_range.mp inside), absent⟩
      rw [empty] at left
      cases left
    simpa using (List.subperm_of_subset List.nodup_range all).length_le
  · intro given
    obtain ⟨state, linearized⟩ := wellFormed.reached_iff.mpr given.toPartialLinearization
    refine ⟨state, linearized, List.eq_nil_iff_forall_not_mem.mpr fun mark left => ?_⟩
    obtain ⟨inside, absent⟩ := mem_rest.mp left
    have made : Mark.call mark.id ∈ marks entries := by
      cases mark with
      | call k => exact inside
      | ret k => exact wellFormed.paired.called inside
    exact absent (given.perm.mem_iff.mpr (List.mem_range.mpr (wellFormed.call_iff.mp made)))

end

section
variable {model : FullModel S I O} {entries : List (Entry I O)} {nodes : Nat → Node I O} {headEntry : Nat}
variable {xs : List Nat} {n : Nat} {links₀ : Links} {computePartial : Bool}
variable {search : Search S} {before after : List Nat} {budget a m : Nat}

theorem Recorded.congr {longest : Longest} {order order' : List Nat} (same : ∀ i, i ∈ order ↔ i ∈ order')
    (nodup : order.Nodup) (nodup' : order'.Nodup) (recorded : Recorded longest order) : Recorded longest order' := by
  have length : order.length = order'.length :=
    ((List.perm_ext_iff_of_nodup nodup nodup').mpr same).length_eq
  intro i inside
  rw [← length]
  exact recorded i ((same i).mpr inside)

/-- A search that ends without an order has met everything that can come first. -/
theorem Searching.refutes (lawful : model.Lawful)
    (inv : Searching model entries nodes headEntry xs n computePartial search before (a :: after) budget)
    (returns : (nodes a).matching = none) (stack : search.calls = []) {order : List Nat} {state : S}
    (given : Linearized (effect model entries) model.init (marks entries) order state) :
    rest (marks entries) order ≠ [] ∧ (computePartial = true → Recorded search.longest order) := by
  have closed := inv.closed returns
  have frame := inv.trail.frame
  have cached := inv.cached
  rw [stack] at closed frame cached
  have start : search.state = model.init := frame.linearized.state_of_nil
  have whole : marks entries ≠ [] := by
    have remaining := frame.remaining
    rw [seq, List.map_nil, List.reverse_nil, rest_nil] at remaining
    rw [← remaining]
    simp
  -- what has been met: no call at all, or a pair in the cache
  let seen (order : List Nat) (state : S) : Prop :=
    Linearized (effect model entries) model.init (marks entries) order state ∧
    Closed model entries n search.cache order state ∧ rest (marks entries) order ≠ [] ∧
    (computePartial = true → Recorded search.longest order)
  have root : seen [] model.init := by
    refine ⟨.nil, start ▸ closed, rest_nil.symm ▸ whole, fun _ i inside => ?_⟩
    cases inside
  have met : ∀ hash, ∀ elem ∈ search.cache hash, ∀ order, elem.linearized.Holds n order →
      ∃ order', seen order' elem.state ∧ ∀ i, i ∈ order' ↔ i ∈ order := by
    intro hash elem inside order holds
    obtain ⟨_, order', linearized, holds', status⟩ := cached hash elem inside
    have same := (holds'.equals_iff holds).mp (by simp [Bitset.equals])
    have incomplete := inv.incomplete (by simp) hash elem inside order' holds'
    rcases status with ⟨closed', recorded⟩ | onStack
    · exact ⟨order', ⟨linearized, closed', incomplete, recorded⟩, same⟩
    · obtain ⟨rfl, is⟩ := Prod.mk.inj (List.mem_singleton.mp onStack)
      exact ⟨[], is ▸ start ▸ root, same⟩
  have next : ∀ {order state i state'}, seen order state → Open (rest (marks entries) order) i →
      effect model entries state i = some state' →
      ∃ order' t, seen order' t ∧ (∀ k, k ∈ order' ↔ k ∈ order ++ [i]) ∧ Alike model state' t := by
    intro order state i state' known opened takes
    obtain ⟨hash, elem, inside, holds, alike⟩ := known.2.1 i opened state' takes
    obtain ⟨order', known', same⟩ := met hash elem inside _ holds
    exact ⟨order', elem.state, known', same, alike⟩
  have refl : ∀ s, Alike model s s := fun s => Or.inl rfl
  obtain ⟨order', state', ⟨linearized, _, incomplete, recorded⟩, same, _⟩ :=
    given.met refl (Alike.trans lawful) (Alike.effect lawful) root next
  refine ⟨rest_congr same ▸ incomplete, fun partials => ?_⟩
  exact (recorded partials).congr same linearized.nodup given.nodup

/-- A list without nodes behind the head: all calls are on the stack. -/
theorem Searching.complete
    (inv : Searching model entries nodes headEntry xs n computePartial search before after budget)
    (last : search.links.next headEntry = none) : Finished model entries (seq nodes search.calls) := by
  have frame := inv.trail.frame
  have empty : before ++ after = [] := by
    rw [frame.chain.head_next] at last
    exact List.head?_eq_none_iff.mp last
  refine ⟨search.state, frame.linearized, ?_⟩
  rw [← frame.remaining, empty]
  rfl

/-- The order of a search that is complete has each operation once. -/
theorem Searching.complete_perm (ready : Ready model entries nodes headEntry links₀ xs n)
    (inv : Searching model entries nodes headEntry xs n computePartial search before after budget)
    (last : search.links.next headEntry = none) : (seq nodes search.calls).Perm (List.range n) := by
  have frame := inv.trail.frame
  have size := frame.size
  rw [frame.chain.head_next, List.head?_eq_none_iff] at last
  rw [last, List.length_nil] at size
  have within : seq nodes search.calls ⊆ List.range n := fun i inside =>
    List.mem_range.mpr (frame.seq_lt ready inside)
  refine (List.subperm_of_subset frame.linearized.nodup within).perm_of_length_le ?_
  simp only [seq, List.length_reverse, List.length_map, List.length_range]
  omega

theorem Searching.turn (ready : Ready model entries nodes headEntry links₀ xs (entries.length / 2))
    (inv : Searching model entries nodes headEntry xs (entries.length / 2) computePartial search before after budget)
    (kill : Bool) : ∃ single, search.turn model nodes headEntry computePartial kill = some single ∧
      After model entries nodes headEntry xs computePartial kill
        (turns (entries.length / 2) search after budget) single := by
  have frame := inv.trail.frame
  by_cases last : search.links.next headEntry = none
  · refine ⟨_, by rw [Search.turn, if_pos last], .returned ⟨?_, fun _ => ?_, ?_, by simp⟩⟩
    · rw [List.length_map, inv.length]
    · refine ⟨_, inv.complete last, inv.complete_perm ready last, fun i within => ?_⟩
      rw [List.length_map] at within
      rw [List.getElem?_map, List.getElem?_eq_getElem within, Option.map_some]
    · intro i known is
      rw [List.getElem?_map] at is
      obtain ⟨old, inside, is⟩ := Option.map_eq_some_iff.mp is
      cases is
      have within := (List.getElem?_eq_some_iff.mp inside).1
      rw [inv.length] at within
      refine ⟨(inv.complete_perm ready last).mem_iff.mpr (List.mem_range.mpr within), ?_⟩
      obtain ⟨state, linearized, _⟩ := inv.complete last
      exact ⟨state, linearized⟩
  · cases kill with
    | true =>
      refine ⟨.returned false search.longest, by simp [Search.turn, last],
        .returned ⟨inv.length, ?_, inv.longest, ?_⟩⟩
      · simp
      · simp
    | false =>
      cases after with
      | nil =>
        obtain rfl := inv.stops rfl
        exact absurd frame.chain.head_next last
      | cons a after =>
        have entry : search.entry = some a := inv.entry
        cases found : (nodes a).matching with
        | some m =>
          obtain ⟨search', before', after', budget', step, inv', less⟩ := inv.tryCall ready found
          exact ⟨_, by simp [Search.turn, last, entry, found, step], .searching inv' less⟩
        | none =>
          cases stack : search.calls with
          | nil =>
            refine ⟨_, by simp [Search.turn, last, entry, found, stack]; rfl,
              .returned ⟨inv.length, by simp, inv.longest, ?_⟩⟩
            rintro _ _ lawful order ⟨state, given⟩
            obtain ⟨incomplete, recorded⟩ := inv.refutes lawful found stack given
            exact ⟨fun ⟨_, _, complete⟩ => incomplete complete, recorded⟩
          | cons top calls =>
            obtain ⟨search', before', after', budget', step, inv', less⟩ := inv.backtrack ready found stack
            exact ⟨_, by simp [Search.turn, last, entry, found, stack, step], .searching inv' less⟩

theorem Answer.mono {killed killed' ok : Bool} {longest : Longest}
    (answer : Answer model entries computePartial killed ok longest) (seen : killed' = false → killed = false) :
    Answer model entries computePartial killed' ok longest :=
  { answer with refutes := fun no alive => answer.refutes no (seen alive) }

theorem After.mono {killed killed' : Bool} {bound bound' : Nat} {single : Single S}
    (given : After model entries nodes headEntry xs computePartial killed bound single)
    (seen : killed' = false → killed = false) (more : bound ≤ bound') :
    After model entries nodes headEntry xs computePartial killed' bound' single := by
  cases given with
  | searching inv less => exact .searching inv (Nat.lt_of_lt_of_le less more)
  | returned answer => exact .returned (answer.mono seen)

/-- One turn of `checkSingle`, which may have returned already. -/
theorem After.turn (ready : Ready model entries nodes headEntry links₀ xs (entries.length / 2)) {killed : Bool}
    {bound : Nat} {single : Single S}
    (given : After model entries nodes headEntry xs computePartial killed bound single) (kill : Bool) :
    ∃ single', single.turn model nodes headEntry computePartial kill = some single' ∧
      After model entries nodes headEntry xs computePartial (killed || kill) (bound - 1) single' := by
  cases given with
  | searching inv less =>
    obtain ⟨single', step, after⟩ := inv.turn ready kill
    exact ⟨single', step, after.mono (fun alive => (Bool.or_eq_false_iff.mp alive).2) (by omega)⟩
  | returned answer => exact ⟨_, rfl, .returned (answer.mono fun alive => (Bool.or_eq_false_iff.mp alive).1)⟩

/-- A number of turns after which `checkSingle` has returned. -/
def enough (entries : List (Entry I O)) : Nat :=
  entries.length * weight (entries.length / 2) + 1

theorem Ready.start (ready : Ready model entries nodes headEntry links₀ xs (entries.length / 2))
    (even : entries.length % 2 = 0) : After model entries nodes headEntry xs computePartial false (enough entries)
      (.searching
        { links := links₀
          entry := xs.head?
          state := model.init
          linearized := newBitset (entries.length / 2)
          cache := fun _ => []
          calls := []
          longest := List.replicate (entries.length / 2) none }) := by
  have remaining : xs.map (fun a => (nodes a).mark) =
      rest (marks entries) (seq nodes ([] : List (CallsEntry S))) := by
    rw [ready.marked, seq, List.map_nil, List.reverse_nil, rest_nil]
  refine .searching (?_ : Searching _ _ _ _ _ _ _ _ [] xs 0) ?_
  · refine ⟨.root ⟨ready.chain, .refl xs, remaining, .nil, ?_⟩, rfl, ?_, ?_, ?_, .newBitset _, ?_, ?_, ?_, ?_⟩
    · simp [ready.size]
    · simp
    · simp
    · simp
    · simp
    · simp
    · simp
    · intro i known is
      rw [List.getElem?_replicate] at is
      split at is <;> cases is
  · have size : xs.length = entries.length := by
      rw [ready.size]
      omega
    simp [turns, enough, size]

end

/-- A run of `checkSingle` on a well-formed history: it does not panic, returns after enough
turns, and its answer is right. -/
theorem WellFormed.checkSingle {entries : List (Entry I O)} (wellFormed : WellFormed entries)
    (model : FullModel S I O) (computePartial : Bool) (kills : List Bool) :
    ∃ single, checkSingle model entries computePartial kills = some single ∧
      (∀ search, single = .searching search → kills.length < enough entries) ∧
      ∀ ok longest, single = .returned ok longest →
        Answer model entries computePartial (kills.any fun kill => kill) ok longest := by
  obtain ⟨heap, headEntry, links, begun, ready⟩ := wellFormed.beginSearch model
  have run : ∀ (kills : List Bool) {killed bound single},
      After model entries heap.nodes headEntry (addresses entries) computePartial killed bound single →
      ∃ single', exec (Single.turn model heap.nodes headEntry computePartial) single kills = some single' ∧
        After model entries heap.nodes headEntry (addresses entries) computePartial
          (killed || kills.any fun kill => kill) (bound - kills.length) single' := by
    intro kills
    induction kills with
    | nil =>
      intro killed bound single given
      exact ⟨single, rfl, by simpa using given⟩
    | cons kill kills ih =>
      intro killed bound single given
      obtain ⟨middle, step, between⟩ := given.turn ready kill
      obtain ⟨single', later, after⟩ := ih between
      refine ⟨single', by rw [exec, step]; exact later, ?_⟩
      rw [List.any_cons, ← Bool.or_assoc, List.length_cons]
      exact after.mono id (by omega)
  obtain ⟨single, last, after⟩ := run kills (ready.start wellFormed.even)
  refine ⟨single, by simp only [Porcupine.checkSingle, begun, Option.bind_eq_bind, Option.bind_some, last], ?_, ?_⟩
  · rintro search rfl
    cases after with
    | searching _ less => omega
  · rintro ok longest rfl
    cases after with
    | returned answer => simpa using answer

/-- `checkSingle` returns if nobody stops it. -/
theorem WellFormed.checkSingle_returns {entries : List (Entry I O)} (wellFormed : WellFormed entries)
    (model : FullModel S I O) (computePartial : Bool) {k : Nat} (long : enough entries ≤ k) : ∃ ok longest,
      Porcupine.checkSingle model entries computePartial (List.replicate k false) = some (.returned ok longest) ∧
      Answer model entries computePartial false ok longest := by
  obtain ⟨single, run, short, answer⟩ := wellFormed.checkSingle model computePartial (List.replicate k false)
  cases single with
  | searching search =>
    have few := short search rfl
    rw [List.length_replicate] at few
    omega
  | returned ok longest => exact ⟨ok, longest, run, by simpa using answer ok longest rfl⟩

/-- `checkSingle` decides whether the operations of a history can be put in an order. One that
is killed, at whatever turns it looks at the flag, does not panic either, and does not take
more turns. It may give up, but if it returns true there is such an order. -/
theorem checkSingle_decides {model : FullModel S I O} {entries : List (Entry I O)} {k : Nat}
    (lawful : model.Lawful) (wellFormed : WellFormed entries) (computePartial : Bool) (long : enough entries ≤ k) :
    (∃ ok longest, checkSingle model entries computePartial (List.replicate k false) = some (.returned ok longest) ∧
      (ok = true ↔ ∃ order, CompleteLinearization model entries order)) ∧
    ∀ kills, ∃ single, checkSingle model entries computePartial kills = some single ∧
      (∀ search, single = .searching search → kills.length < enough entries) ∧
      ∀ longest, single = .returned true longest → ∃ order, CompleteLinearization model entries order := by
  have accepted : ∀ {killed ok longest}, Answer model entries computePartial killed ok longest → ok = true →
      ∃ order, CompleteLinearization model entries order := by
    intro killed ok longest answer yes
    obtain ⟨order, finished, _⟩ := answer.accepts yes
    exact ⟨order, wellFormed.finished_iff.mp finished⟩
  constructor
  · obtain ⟨ok, longest, run, answer⟩ := wellFormed.checkSingle_returns model computePartial long
    refine ⟨ok, longest, run, accepted answer, fun ⟨order, complete⟩ => ?_⟩
    by_contra no
    have reached := wellFormed.reached_iff.mpr complete.toPartialLinearization
    exact (answer.refutes (Bool.eq_false_iff.mpr no) rfl lawful order reached).1
      (wellFormed.finished_iff.mpr complete)
  · intro kills
    obtain ⟨single, run, short, answer⟩ := wellFormed.checkSingle model computePartial kills
    exact ⟨single, run, short, fun longest is => accepted (answer true longest is) rfl⟩

/-- A counter that answers with its old value. -/
def counter : FullModel Nat Unit Nat where
  partition := noPartition
  partitionEvent := noPartitionEvent
  init := 0
  step := fun s _ output => (decide (output = s), s + 1)
  equal := shallowEqual

theorem counter_lawful : counter.Lawful := by
  refine ⟨fun {s t u} first second => ?_, fun {s t input output} equal ok => ?_⟩
  · simp only [counter, shallowEqual, decide_eq_true_eq] at first second ⊢
    exact first.trans second
  · simp only [counter, shallowEqual, decide_eq_true_eq] at equal ok ⊢
    exact ⟨ok.trans equal, by rw [equal]⟩

/-- Two calls at the same time. The one that was made first took effect last. -/
def overlapping : List (Entry Unit Nat) :=
  [⟨.callEntry, .inl (), 0, 0, 0⟩, ⟨.callEntry, .inl (), 1, 1, 1⟩, ⟨.returnEntry, .inr 1, 0, 2, 0⟩,
    ⟨.returnEntry, .inr 0, 1, 3, 1⟩]

theorem overlapping_wellFormed : WellFormed overlapping := by
  have marked : marks overlapping = [.call 0, .call 1, .ret 0, .ret 1] := rfl
  refine ⟨⟨by decide, fun {i} made => ?_, fun {i} returned => ?_⟩, ?_, ?_, by decide, by decide⟩
  · rw [marked] at made
    simp only [List.mem_cons, Mark.call.injEq, reduceCtorEq, List.not_mem_nil, or_false] at made
    rcases made with rfl | rfl
    · decide
    · decide
  · rw [marked] at returned
    simp only [List.mem_cons, Mark.ret.injEq, reduceCtorEq, List.not_mem_nil, or_false, false_or] at returned
    rcases returned with rfl | rfl
    · decide
    · decide
  · simp [overlapping]
  · simp [overlapping]

theorem checkSingle_decides_overlapping : enough overlapping ≤ 13 ∧ ∃ ok longest,
    checkSingle counter overlapping false (List.replicate 13 false) = some (.returned ok longest) ∧
      (ok = true ↔ ∃ order, CompleteLinearization counter overlapping order) :=
  ⟨by decide, (checkSingle_decides counter_lawful overlapping_wellFormed false (by decide)).1⟩

/-- For each operation a sequence of operations that includes it, and none only if there is
none. -/
structure Partials (model : FullModel S I O) (entries : List (Entry I O)) (longest : Longest) : Prop where
  length : longest.length = entries.length / 2
  found : ∀ i order, longest[i]? = some (some order) → i ∈ order ∧ PartialLinearization model entries order
  longest : ∀ i order, PartialLinearization model entries order → i ∈ order →
    ∃ known, longest[i]? = some (some known) ∧ order.length ≤ known.length

theorem Answer.partials {model : FullModel S I O} {entries : List (Entry I O)} {ok : Bool} {longest : Longest}
    (answer : Answer model entries true false ok longest) (lawful : model.Lawful) (wellFormed : WellFormed entries) :
    Partials model entries longest := by
  refine ⟨answer.length, fun i order is => ?_, fun i order given inside => ?_⟩
  · obtain ⟨inside, reached⟩ := answer.found i order is
    exact ⟨inside, wellFormed.reached_iff.mp reached⟩
  · cases ok with
    | true =>
      obtain ⟨known, _, perm, every⟩ := answer.accepts rfl
      refine ⟨known, every i (answer.length ▸ given.within i inside), ?_⟩
      rw [perm.length_eq, List.length_range]
      exact given.length_le
    | false => exact (answer.refutes rfl rfl lawful order (wellFormed.reached_iff.mpr given)).2 rfl i inside

end DistSys.Porcupine
