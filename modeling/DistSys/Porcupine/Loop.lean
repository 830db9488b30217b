import DistSys.Porcupine.Search

namespace DistSys.Porcupine

open Intervals

variable {S I O : Type}

/-- A sequence was entered for some of its entries, wherever it is longer than the one known. -/
structure Grown (found ids : List Nat) (longest longest' : Longest) : Prop where
  length : longest'.length = longest.length
  entered : ∀ i ∈ ids, ∃ known, longest'[i]? = some (some known) ∧ found.length ≤ known.length
  others : ∀ i : Nat, longest'[i]? = longest[i]? ∨ (i ∈ ids ∧ longest'[i]? = some (some found) ∧
    ∀ known : List Nat, longest[i]? = some (some known) → known.length ≤ found.length)

theorem Grown.longer {found ids : List Nat} {longest longest' : Longest} (grown : Grown found ids longest longest')
    {i : Nat} {known : List Nat} (is : longest[i]? = some (some known)) :
    ∃ known', longest'[i]? = some (some known') ∧ known.length ≤ known'.length := by
  rcases grown.others i with same | ⟨_, new, shorter⟩
  · exact ⟨known, same.trans is, Nat.le_refl _⟩
  · exact ⟨found, new, shorter known is⟩

theorem Longest.record_spec (found : List Nat) {longest : Longest} {id : Nat} (within : id < longest.length) :
    ∃ longest', Longest.record found longest id = some longest' ∧ Grown found [id] longest longest' := by
  obtain ⟨known, is⟩ : ∃ known, longest[id]? = some known := ⟨_, List.getElem?_eq_getElem within⟩
  by_cases short : known.all fun old => decide (found.length > old.length)
  · refine ⟨List.set longest id (some found), by simp only [record, is, Option.map_some, short, if_true],
      List.length_set, ?_, fun i => ?_⟩
    · intro i inside
      rw [List.mem_singleton.mp inside]
      exact ⟨found, List.getElem?_set_self within, Nat.le_refl _⟩
    · by_cases here : id = i
      · subst here
        refine Or.inr ⟨by simp, List.getElem?_set_self within, fun old isOld => ?_⟩
        rw [is] at isOld
        cases isOld
        exact Nat.le_of_lt (of_decide_eq_true short)
      · exact Or.inl (List.getElem?_set_ne here)
  · refine ⟨longest, by simp only [record, is, Option.map_some, if_neg short], rfl, ?_, fun i => Or.inl rfl⟩
    intro i inside
    rw [List.mem_singleton.mp inside]
    cases known with
    | none => exact absurd rfl short
    | some old => exact ⟨old, is, by simpa using short⟩

/-- Entering a sequence for one entry after the other. -/
theorem record_fold (found : List Nat) (ids : List Nat) {longest : Longest}
    (within : ∀ i ∈ ids, i < longest.length) : ∃ longest',
      ids.foldlM (Longest.record found) longest = some longest' ∧ Grown found ids longest longest' := by
  induction ids generalizing longest with
  | nil => exact ⟨longest, rfl, rfl, by simp, fun i => Or.inl rfl⟩
  | cons id ids ih =>
    obtain ⟨middle, first, grown⟩ := Longest.record_spec found (within id List.mem_cons_self)
    have bound : ∀ i ∈ ids, i < middle.length := fun i inside =>
      grown.length ▸ within i (List.mem_cons_of_mem _ inside)
    obtain ⟨longest', later, grown'⟩ := ih bound
    refine ⟨longest', by rw [List.foldlM_cons, first]; exact later, grown'.length.trans grown.length, ?_, ?_⟩
    · intro i inside
      rcases List.mem_cons.mp inside with rfl | inside
      · obtain ⟨known, is, length⟩ := grown.entered i (by simp)
        obtain ⟨known', is', length'⟩ := grown'.longer is
        exact ⟨known', is', Nat.le_trans length length'⟩
      · exact grown'.entered i inside
    · intro i
      rcases grown'.others i with same | ⟨inside, is, shorter⟩
      · rcases grown.others i with same' | ⟨inside, is, shorter⟩
        · exact Or.inl (same.trans same')
        · exact Or.inr ⟨List.mem_cons.mpr (Or.inl (List.mem_singleton.mp inside)), same.trans is, shorter⟩
      · refine Or.inr ⟨List.mem_cons_of_mem _ inside, is, fun known was => ?_⟩
        obtain ⟨known', now, length⟩ := grown.longer was
        exact Nat.le_trans length (shorter known' now)

theorem Longest.recordAll_spec (computePartial : Bool) {found : List Nat} {longest : Longest}
    (within : ∀ i ∈ found, i < longest.length) : ∃ longest', longest.recordAll computePartial found = some longest' ∧
      Grown found (if computePartial then found else []) longest longest' := by
  cases computePartial with
  | false => exact ⟨longest, rfl, rfl, by simp, fun i => Or.inl rfl⟩
  | true => exact record_fold found found within

section
variable {model : FullModel S I O} {entries : List (Entry I O)} {nodes : Nat → Node I O} {headEntry : Nat}
variable {xs : List Nat} {n : Nat} {links₀ : Links} {computePartial : Bool}
variable {search : Search S} {before after : List Nat} {budget a m : Nat}

/-- The number of turns that the search has left, at most. -/
def turns (n : Nat) (search : Search S) (after : List Nat) (budget : Nat) : Nat :=
  budget + after.length * weight (n - search.calls.length)

/-- Passing over a call that was tried. -/
theorem Searching.skip (ready : Ready model entries nodes headEntry links₀ xs n)
    (inv : Searching model entries nodes headEntry xs n computePartial search before (a :: after) budget)
    (found : (nodes a).matching = some m)
    (tried : Tried model entries n search.cache (seq nodes search.calls) search.state (nodes a).id) :
    Searching model entries nodes headEntry xs n computePartial
      { search with entry := search.links.next a } (before ++ [a]) after budget := by
  have frame := inv.trail.frame
  have shape : before ++ a :: after = before ++ [a] ++ after := by
    rw [List.append_assoc, List.singleton_append]
  refine { inv with trail := shape ▸ inv.trail, entry := ?_, stops := ?_, calls := ?_, tried := ?_, incomplete := ?_ }
  · have chain := frame.chain
    rw [← List.cons_append] at chain
    exact chain.right.head_next
  · rintro rfl
    cases frame.match_mem ready found
  · intro b inside
    rcases List.mem_append.mp inside with old | new
    · exact inv.calls b old
    · rw [List.mem_singleton.mp new, found]
      rfl
  · intro b inside
    rcases List.mem_append.mp inside with old | new
    · exact inv.tried b old
    · rw [List.mem_singleton.mp new]
      exact tried
  · exact shape ▸ inv.incomplete

theorem turns_skip : turns n { search with entry := search.links.next a } after budget <
    turns n search (a :: after) budget := by
  have pos := weight_pos (n - search.calls.length)
  simp only [turns, List.length_cons, Nat.add_mul, Nat.one_mul]
  omega

/-- A call is lifted, with the new entry of the cache. -/
def pushed (headEntry : Nat) (search : Search S) (a : Nat) (links' : Links) (elem : CacheEntry S) : Search S :=
  { search with
    cache := Function.update search.cache elem.linearized.hash (search.cache elem.linearized.hash ++ [elem])
    calls := ⟨a, search.state⟩ :: search.calls
    state := elem.state
    linearized := elem.linearized
    links := links'
    entry := links'.next headEntry }

theorem mem_pushed {links' : Links} {elem old : CacheEntry S} {hash : UInt64} :
    old ∈ (pushed headEntry search a links' elem).cache hash ↔
      old ∈ search.cache hash ∨ (hash = elem.linearized.hash ∧ old = elem) := by
  by_cases here : hash = elem.linearized.hash
  · subst here
    simp [pushed]
  · simp [pushed, here]

theorem Searching.push (ready : Ready model entries nodes headEntry links₀ xs n)
    (inv : Searching model entries nodes headEntry xs n computePartial search before (a :: after) budget)
    (found : (nodes a).matching = some m) (elem : CacheEntry S)
    (takes : effect model entries search.state (nodes a).id = some elem.state)
    (holds : elem.linearized.Holds n (seq nodes search.calls ++ [(nodes a).id])) :
    ∃ links' list, lift search.links a m = some links' ∧
      Searching model entries nodes headEntry xs n computePartial (pushed headEntry search a links' elem)
        [] list (budget + after.length * weight (n - search.calls.length)) ∧
      turns n (pushed headEntry search a links' elem) list
        (budget + after.length * weight (n - search.calls.length)) < turns n search (a :: after) budget := by
  obtain ⟨links', list, lifted, put, frame⟩ := inv.trail.frame.push ready inv.calls found takes
  have more : ∀ hash, ∀ old ∈ search.cache hash, old ∈ (pushed headEntry search a links' elem).cache hash :=
    fun hash old inside => mem_pushed.mpr (Or.inl inside)
  have tried : ∀ b ∈ before ++ [a], Tried model entries n (pushed headEntry search a links' elem).cache
      (seq nodes search.calls) search.state (nodes b).id := by
    intro b inside
    rcases List.mem_append.mp inside with old | new
    · exact (inv.tried b old).mono more
    · intro state' takes'
      rw [List.mem_singleton.mp new] at takes' ⊢
      cases takes.symm.trans takes'
      exact ⟨_, elem, mem_pushed.mpr (Or.inr ⟨rfl, rfl⟩), holds, Or.inl rfl⟩
  refine ⟨links', list, lifted, ?_, ?_⟩
  · refine ⟨?_, frame.chain.head_next, fun _ => rfl, by simp, by simp, ?_, ?_, ?_, inv.length, inv.longest⟩
    · exact .push (inv.trail.mono fun order state i old => old.mono more) inv.calls found put tried frame
    · rw [show (pushed headEntry search a links' elem).calls = ⟨a, search.state⟩ :: search.calls from rfl, seq_cons]
      exact holds
    · intro hash old inside
      rcases mem_pushed.mp inside with inside | ⟨rfl, rfl⟩
      · obtain ⟨isHash, order, linearized, held, status⟩ := inv.cached hash old inside
        refine ⟨isHash, order, linearized, held, status.imp ?_ (List.mem_cons_of_mem _)⟩
        exact fun done => ⟨done.1.mono more, done.2⟩
      · refine ⟨rfl, _, frame.linearized, ?_, Or.inr List.mem_cons_self⟩
        rw [seq_cons]
        exact holds
    · intro nonempty hash old inside order held
      rcases mem_pushed.mp inside with inside | ⟨rfl, rfl⟩
      · exact inv.incomplete (by simp) hash old inside order held
      · have same := (holds.equals_iff held).mp (by simp [Bitset.equals])
        rw [← rest_congr same, ← seq_cons ⟨a, search.state⟩, ← frame.remaining]
        simpa using nonempty
  · have size := frame.size
    obtain ⟨k, rest⟩ : ∃ k, n - search.calls.length = k + 1 := by
      refine ⟨n - search.calls.length - 1, ?_⟩
      simp only [List.length_cons] at size
      omega
    have left : n - (search.calls.length + 1) = k := by omega
    have length : list.length = 2 * k := by
      simp only [List.length_cons] at size
      omega
    simp only [turns, pushed, List.length_cons, rest, left, length, weight, Nat.add_mul after.length 1, Nat.one_mul]
    omega

/-- The branch for a call. -/
theorem Searching.tryCall (ready : Ready model entries nodes headEntry links₀ xs n)
    (inv : Searching model entries nodes headEntry xs n computePartial search before (a :: after) budget)
    (found : (nodes a).matching = some m) : ∃ search' before' after' budget',
      tryCall model nodes headEntry search a m = some search' ∧
      Searching model entries nodes headEntry xs n computePartial search' before' after' budget' ∧
      turns n search' after' budget' < turns n search (a :: after) budget := by
  have within : a ∈ xs := inv.trail.frame.sublist.subset (by simp)
  obtain ⟨input, output, isInput, isOutput, is⟩ := ready.values within found
  obtain ⟨newLinearized, set, holds⟩ := inv.linearized.set (ready.bounded a within)
  have effect := is search.state
  simp only [Porcupine.tryCall, isInput, isOutput, set]
  by_cases ok : (model.step search.state input output).1 = true
  · rw [if_pos ok] at effect
    by_cases contains : cacheContains model search.cache
        ⟨newLinearized, (model.step search.state input output).2⟩ = true
    · -- the cache answers for this call
      refine ⟨_, _, _, _, by simp [ok, contains], inv.skip ready found fun state' takes => ?_, turns_skip⟩
      cases effect.symm.trans takes
      obtain ⟨elem, inside, matched⟩ := List.any_eq_true.mp contains
      obtain ⟨equals, equal⟩ := Bool.and_eq_true_iff.mp matched
      have same : newLinearized = elem.linearized := beq_iff_eq.mp equals
      exact ⟨_, elem, inside, same ▸ holds, Or.inr equal⟩
    · obtain ⟨links', list, lifted, inv', less⟩ := inv.push ready found
        ⟨newLinearized, (model.step search.state input output).2⟩ effect holds
      exact ⟨_, _, _, _, by simp [ok, contains, lifted, pushed], inv', less⟩
  · rw [if_neg ok] at effect
    refine ⟨_, _, _, _, by simp [ok], inv.skip ready found fun state' takes => ?_, turns_skip⟩
    rw [effect] at takes
    cases takes

theorem mark_of_return (none : (nodes a).matching = none) : (nodes a).mark = .ret (nodes a).id := by
  simp only [Node.mark, none]

/-- At a return, everything that can come next has been tried. -/
theorem Searching.closed
    (inv : Searching model entries nodes headEntry xs n computePartial search before (a :: after) budget)
    (returns : (nodes a).matching = none) :
    Closed model entries n search.cache (seq nodes search.calls) search.state := by
  intro i opened
  have remaining := inv.trail.frame.remaining
  rw [List.map_append, List.map_cons, mark_of_return returns] at remaining
  rw [← remaining] at opened
  obtain ⟨b, inside, is⟩ := List.mem_map.mp opened.mem_before
  obtain ⟨m, found⟩ := Option.isSome_iff_exists.mp (inv.calls b inside)
  rw [mark_of_match found] at is
  cases is
  exact inv.tried b inside

theorem Frame.seq_lt (ready : Ready model entries nodes headEntry links₀ xs n) {calls : List (CallsEntry S)}
    {links : Links} {state : S} {list : List Nat}
    (frame : Frame model entries nodes headEntry xs n calls links state list) {i : Nat}
    (inside : i ∈ seq nodes calls) : i < n := by
  have made := frame.linearized.mem_call inside
  rw [← ready.marked] at made
  obtain ⟨b, within, is⟩ := List.mem_map.mp made
  cases found : (nodes b).matching with
  | none =>
    rw [mark_of_return found] at is
    cases is
  | some m =>
    rw [mark_of_match found] at is
    cases is
    exact ready.bounded b within

/-- The branch for a return, when there is a call to take back. -/
theorem Searching.backtrack (ready : Ready model entries nodes headEntry links₀ xs n)
    (inv : Searching model entries nodes headEntry xs n computePartial search before (a :: after) budget)
    (returns : (nodes a).matching = none) {top : CallsEntry S} {calls : List (CallsEntry S)}
    (stack : search.calls = top :: calls) : ∃ search' before' after' budget',
      backtrack nodes computePartial search top calls = some search' ∧
      Searching model entries nodes headEntry xs n computePartial search' before' after' budget' ∧
      turns n search' after' budget' < turns n search (a :: after) budget := by
  have closed := inv.closed returns
  have frame := inv.trail.frame
  have trail := inv.trail
  generalize whole : before ++ a :: after = list at trail
  rw [stack] at trail
  cases trail with
  | @push _ links state before₀ a₀ after₀ budget₀ m _ _ _ below front found put tried _ =>
    have within : a₀ ∈ xs := below.frame.sublist.subset (by simp)
    have held := inv.linearized
    rw [stack, seq_cons] at held
    have nodup := frame.linearized.nodup
    rw [stack, seq_cons] at nodup
    obtain ⟨linearized, cleared, holds⟩ := held.clear (ready.bounded a₀ within) fun inside =>
      (List.nodup_append.mp nodup).2.2 _ inside _ (by simp) rfl
    obtain ⟨longest, recorded, grown⟩ := Longest.recordAll_spec computePartial fun i inside =>
      inv.length ▸ frame.seq_lt ready inside
    refine ⟨_, before₀ ++ [a₀], after₀, budget₀, by
      simp only [Porcupine.backtrack, recorded, cleared, found, put, Option.bind_eq_bind, Option.bind_some]; rfl,
      ?_, ?_⟩
    · refine ⟨?_, ?_, ?_, ?_, tried, holds, ?_, ?_, grown.length.trans inv.length, ?_⟩
      · rw [List.append_assoc, List.singleton_append]
        exact below
      · have chain := below.frame.chain
        rw [← List.cons_append] at chain
        exact chain.right.head_next
      · rintro rfl
        cases below.frame.match_mem ready found
      · intro b inside
        rcases List.mem_append.mp inside with old | new
        · exact front b old
        · rw [List.mem_singleton.mp new, found]
          rfl
      · intro hash elem inside
        obtain ⟨isHash, order, linearized, held, status⟩ := inv.cached hash elem inside
        refine ⟨isHash, order, linearized, held, ?_⟩
        rcases status with ⟨closed, known⟩ | onStack
        · refine Or.inl ⟨closed, fun partials i member => ?_⟩
          obtain ⟨sequence, is, length⟩ := known partials i member
          obtain ⟨sequence', is', length'⟩ := grown.longer is
          exact ⟨sequence', is', Nat.le_trans length length'⟩
        · rw [stack] at onStack
          rcases List.mem_cons.mp onStack with top | lower
          · obtain ⟨rfl, same⟩ := Prod.mk.inj top
            rw [← stack, same]
            refine Or.inl ⟨closed, fun partials i member => ?_⟩
            exact grown.entered i (by rw [partials]; exact member)
          · exact Or.inr lower
      · exact fun _ => inv.incomplete (by simp)
      · intro i known is
        rcases grown.others i with same | ⟨inside, new, _⟩
        · exact inv.longest i known (same.symm.trans is)
        · cases new.symm.trans is
          refine ⟨?_, _, frame.linearized⟩
          cases computePartial with
          | false => cases inside
          | true => exact inside
    · have pos := weight_pos (n - search.calls.length)
      simp only [turns, List.length_cons, Nat.add_mul after.length 1, Nat.one_mul]
      omega

end

end DistSys.Porcupine
