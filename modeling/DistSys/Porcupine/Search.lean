import DistSys.Porcupine.Linked

namespace DistSys.Porcupine

open Intervals

variable {S I O : Type}

section
variable {links links' : Links} {a b m : Nat}

theorem lift_eq (next : links.next a = some b) : lift links a m = (links.unlink a).bind fun l => l.unlink m := by
  have same (p : Nat) : Function.update links.next p (some b) a = some b := by
    by_cases here : a = p
    · rw [here, Function.update_self]
    · rw [Function.update_of_ne here, next]
  cases back : links.prev a with
  | none => simp [lift, Links.unlink, Links.setNext, back]
  | some p => simp [lift, Links.unlink, Links.setNext, Links.setPrevIf, back, next, same]

theorem unlift_eq (put : links'.relink m = some links) (next : links.next a = some b) :
    unlift links' a m = links.relink a := by
  have linked (p : Nat) : ∃ c, Function.update links.next p (some a) a = some c := by
    by_cases here : a = p
    · exact ⟨a, by rw [here, Function.update_self]⟩
    · exact ⟨b, by rw [Function.update_of_ne here, next]⟩
  rw [unlift, put]
  cases back : links.prev a with
  | none => simp [Links.relink, Links.setNext, back]
  | some p =>
    obtain ⟨c, is⟩ := linked p
    simp [Links.relink, Links.setNext, Links.setPrevIf, back, is]

/-- Lifting takes a call and its return out of the list, and `unlift` undoes it. -/
theorem lift_spec {headEntry : Nat} {before between after : List Nat}
    (chain : links.Chain (headEntry :: (before ++ a :: (between ++ m :: after))))
    (nodup : (headEntry :: (before ++ a :: (between ++ m :: after))).Nodup) :
    ∃ links', lift links a m = some links' ∧ links'.Chain (headEntry :: (before ++ (between ++ after))) ∧
      unlift links' a m = some links := by
  obtain ⟨front, p, split⟩ := (List.eq_nil_or_concat (headEntry :: before)).resolve_left (by simp)
  rw [List.concat_eq_append] at split
  have shape (rest : List Nat) : headEntry :: (before ++ rest) = front ++ p :: rest := by
    rw [← List.cons_append, split, List.append_assoc, List.singleton_append]
  rw [shape] at chain nodup
  obtain ⟨l, unlinked, chain', relinked, kept⟩ := chain.unlink nodup
  obtain ⟨c, next⟩ : ∃ c, links.next a = some c := by
    rw [chain.right.tail.head_next]
    cases between <;> simp
  have nodup' : (front ++ p :: (between ++ m :: after)).Nodup := by
    refine nodup.sublist ((List.sublist_cons_self a _).cons_cons p |>.append_left front)
  obtain ⟨front', p', split'⟩ := (List.eq_nil_or_concat (front ++ p :: between)).resolve_left (by simp)
  rw [List.concat_eq_append] at split'
  have shape' (rest : List Nat) : front ++ p :: (between ++ rest) = front' ++ p' :: rest := by
    rw [← List.cons_append, ← List.append_assoc, split', List.append_assoc, List.singleton_append]
  rw [shape'] at chain' nodup'
  obtain ⟨l', unlinked', chain'', relinked', _⟩ := chain'.unlink nodup'
  refine ⟨l', ?_, ?_, ?_⟩
  · rw [lift_eq next, unlinked, Option.bind_some, unlinked']
  · rw [shape, shape']
    exact chain''
  · rw [unlift_eq relinked' (kept.trans next), relinked]

end

section
variable (model : FullModel S I O) (entries : List (Entry I O)) (nodes : Nat → Node I O) (headEntry : Nat)
variable (xs : List Nat) (n : Nat)

/-- The list and the state after the calls on the stack. -/
structure Frame (calls : List (CallsEntry S)) (links : Links) (state : S) (list : List Nat) : Prop where
  chain : links.Chain (headEntry :: list)
  sublist : list.Sublist xs
  remaining : list.map (fun a => (nodes a).mark) = rest (marks entries) (seq nodes calls)
  linearized : Linearized (effect model entries) model.init (marks entries) (seq nodes calls) state
  size : list.length + 2 * calls.length = 2 * n

/-- A bound on the turns that the search takes for each node of the list while a number of
calls is left. -/
def weight : Nat → Nat
  | 0 => 1
  | k + 1 => 1 + 2 * k * weight k

/-- How the search came to where it is. Every call on the stack was lifted from the list of
its own frame, in front of it are only calls, and these and the call itself have been tried.
The number bounds the turns that the search still takes after it comes back to them. -/
inductive Trail (tried : List Nat → S → Nat → Prop) :
    List (CallsEntry S) → Links → S → List Nat → Nat → Prop
  | root {links} : Frame model entries nodes headEntry xs n [] links model.init xs →
      Trail tried [] links model.init xs 0
  | push {calls links state before a after budget m links' state' list} :
      Trail tried calls links state (before ++ a :: after) budget →
      (∀ b ∈ before, (nodes b).matching.isSome) → (nodes a).matching = some m →
      unlift links' a m = some links →
      (∀ b ∈ before ++ [a], tried (seq nodes calls) state (nodes b).id) →
      Frame model entries nodes headEntry xs n (⟨a, state⟩ :: calls) links' state' list →
      Trail tried (⟨a, state⟩ :: calls) links' state' list
        (budget + after.length * weight (n - calls.length))

/-- The search does not tell the states apart. -/
def Alike (state state' : S) : Prop :=
  state = state' ∨ model.equal state state' = true

/-- The cache has an entry for the calls of a list, with a state that is not told apart. -/
def Cached (cache : UInt64 → List (CacheEntry S)) (order : List Nat) (state : S) : Prop :=
  ∃ hash, ∃ elem ∈ cache hash, elem.linearized.Holds n order ∧ Alike model state elem.state

/-- If the call can come next, then the cache knows what comes of it. -/
def Tried (cache : UInt64 → List (CacheEntry S)) (order : List Nat) (state : S) (i : Nat) : Prop :=
  ∀ state', effect model entries state i = some state' → Cached model n cache (order ++ [i]) state'

/-- What the search was to try has been tried. -/
def Closed (cache : UInt64 → List (CacheEntry S)) (order : List Nat) (state : S) : Prop :=
  ∀ i, Open (rest (marks entries) order) i → Tried model entries n cache order state i

/-- The sequence has been taken into account for its entries. -/
def Recorded (longest : Longest) (order : List Nat) : Prop :=
  ∀ i ∈ order, ∃ known, longest[i]? = some (some known) ∧ order.length ≤ known.length

/-- The calls and states of the frames of the stack. -/
def frames : List (CallsEntry S) → S → List (List Nat × S)
  | [], state => [([], state)]
  | top :: calls, state => (seq nodes (top :: calls), state) :: frames calls top.state

/-- The invariant of the loop of `checkSingle`: the list up to the current entry has been
tried, and every cached pair of calls and state is on the stack or has been searched. -/
structure Searching (computePartial : Bool) (search : Search S) (before after : List Nat) (budget : Nat) :
    Prop where
  trail : Trail model entries nodes headEntry xs n (Tried model entries n search.cache)
    search.calls search.links search.state (before ++ after) budget
  entry : search.entry = after.head?
  stops : after = [] → before = []
  calls : ∀ b ∈ before, (nodes b).matching.isSome
  tried : ∀ b ∈ before, Tried model entries n search.cache (seq nodes search.calls) search.state (nodes b).id
  linearized : search.linearized.Holds n (seq nodes search.calls)
  cached : ∀ hash, ∀ elem ∈ search.cache hash, elem.linearized.hash = hash ∧ ∃ order,
    Linearized (effect model entries) model.init (marks entries) order elem.state ∧
    elem.linearized.Holds n order ∧
    ((Closed model entries n search.cache order elem.state ∧
        (computePartial = true → Recorded search.longest order)) ∨
      (order, elem.state) ∈ frames nodes search.calls search.state)
  incomplete : before ++ after ≠ [] → ∀ hash, ∀ elem ∈ search.cache hash, ∀ order,
    elem.linearized.Holds n order → rest (marks entries) order ≠ []
  length : search.longest.length = n
  longest : ∀ i known, search.longest[i]? = some (some known) → i ∈ known ∧
    ∃ state, Linearized (effect model entries) model.init (marks entries) known state

end

section
variable {model : FullModel S I O} {entries : List (Entry I O)} {nodes : Nat → Node I O} {headEntry : Nat}
variable {xs : List Nat} {n : Nat} {links₀ : Links}
variable {calls : List (CallsEntry S)} {links : Links} {state : S} {list before after : List Nat} {budget : Nat}
variable {cache cache' : UInt64 → List (CacheEntry S)} {order : List Nat} {a m : Nat}

theorem seq_cons (top : CallsEntry S) (calls : List (CallsEntry S)) :
    seq nodes (top :: calls) = seq nodes calls ++ [(nodes top.entry).id] := by
  simp [seq]

theorem mark_of_match (found : (nodes a).matching = some m) : (nodes a).mark = .call (nodes a).id := by
  simp only [Node.mark, found]

theorem weight_pos (k : Nat) : 0 < weight k := by
  cases k with
  | zero => exact Nat.one_pos
  | succ k =>
    rw [weight]
    omega

theorem Trail.frame {tried : List Nat → S → Nat → Prop}
    (trail : Trail model entries nodes headEntry xs n tried calls links state list budget) :
    Frame model entries nodes headEntry xs n calls links state list := by
  cases trail with
  | root frame => exact frame
  | push _ _ _ _ _ frame => exact frame

theorem Trail.mono {tried tried' : List Nat → S → Nat → Prop}
    (more : ∀ order state i, tried order state i → tried' order state i)
    (trail : Trail model entries nodes headEntry xs n tried calls links state list budget) :
    Trail model entries nodes headEntry xs n tried' calls links state list budget := by
  induction trail with
  | root frame => exact .root frame
  | push _ front found put tried frame ih =>
    exact .push ih front found put (fun b inside => more _ _ _ (tried b inside)) frame

theorem Cached.mono (more : ∀ hash, ∀ elem ∈ cache hash, elem ∈ cache' hash) {order : List Nat} {state : S}
    (cached : Cached model n cache order state) : Cached model n cache' order state := by
  obtain ⟨hash, elem, inside, holds, equal⟩ := cached
  exact ⟨hash, elem, more hash elem inside, holds, equal⟩

theorem Tried.mono (more : ∀ hash, ∀ elem ∈ cache hash, elem ∈ cache' hash) {order : List Nat} {state : S}
    {i : Nat} (tried : Tried model entries n cache order state i) : Tried model entries n cache' order state i :=
  fun state' takes => (tried state' takes).mono more

theorem Closed.mono (more : ∀ hash, ∀ elem ∈ cache hash, elem ∈ cache' hash) {order : List Nat} {state : S}
    (closed : Closed model entries n cache order state) : Closed model entries n cache' order state :=
  fun i opened => (closed i opened).mono more

/-- A call with only calls in front of it can come next. -/
theorem Frame.opened (frame : Frame model entries nodes headEntry xs n calls links state (before ++ a :: after))
    (front : ∀ b ∈ before, (nodes b).matching.isSome) (found : (nodes a).matching = some m) :
    Open (rest (marks entries) (seq nodes calls)) (nodes a).id := by
  refine ⟨before.map fun a => (nodes a).mark, after.map fun a => (nodes a).mark, ?_, fun j inside => ?_⟩
  · rw [← frame.remaining, List.map_append, List.map_cons, mark_of_match found]
  · obtain ⟨b, inside, is⟩ := List.mem_map.mp inside
    obtain ⟨m', found'⟩ := Option.isSome_iff_exists.mp (front b inside)
    rw [mark_of_match found'] at is
    cases is

variable (ready : Ready model entries nodes headEntry links₀ xs n)
include ready

theorem Ready.mark_inj {a b : Nat} (inside : a ∈ xs) (inside' : b ∈ xs) (same : (nodes a).mark = (nodes b).mark) :
    a = b := by
  refine List.inj_on_of_nodup_map (f := fun a => (nodes a).mark) ?_ inside inside' same
  rw [ready.marked]
  exact ready.paired.nodup

/-- A call in the list has its return behind it. -/
theorem Frame.match_mem (frame : Frame model entries nodes headEntry xs n calls links state (before ++ a :: after))
    (found : (nodes a).matching = some m) : m ∈ after := by
  have within : a ∈ xs := frame.sublist.subset (by simp)
  obtain ⟨partner, mark⟩ := ready.partner within found
  have paired := ready.paired.rest (seq nodes calls)
  rw [← frame.remaining, List.map_append, List.map_cons, mark_of_match found] at paired
  obtain ⟨m', inside, is⟩ := List.mem_map.mp paired.ret_mem
  have same := ready.mark_inj (frame.sublist.subset (by simp [inside])) partner (is.trans mark.symm)
  exact same ▸ inside

theorem Frame.nodup (frame : Frame model entries nodes headEntry xs n calls links state list) :
    (headEntry :: list).Nodup :=
  ready.nodup.sublist (frame.sublist.cons_cons headEntry)

/-- Lifting a call that the model accepts. -/
theorem Frame.push (frame : Frame model entries nodes headEntry xs n calls links state (before ++ a :: after))
    (front : ∀ b ∈ before, (nodes b).matching.isSome) (found : (nodes a).matching = some m) {state' : S}
    (takes : effect model entries state (nodes a).id = some state') :
    ∃ links' list, lift links a m = some links' ∧ unlift links' a m = some links ∧
      Frame model entries nodes headEntry xs n (⟨a, state⟩ :: calls) links' state' list := by
  obtain ⟨between, later, rfl⟩ := List.append_of_mem (frame.match_mem ready found)
  obtain ⟨links', lifted, chain, put⟩ := lift_spec frame.chain (frame.nodup ready)
  refine ⟨links', before ++ (between ++ later), lifted, put, chain, ?_, ?_, ?_, ?_⟩
  · refine List.Sublist.trans (List.Sublist.append_left ?_ before) frame.sublist
    exact ((List.sublist_cons_self m later).append_left between).cons a
  · have mark := (ready.partner (frame.sublist.subset (by simp)) found).2
    have paired := ready.paired.rest (seq nodes calls)
    rw [seq_cons, rest_concat]
    rw [← frame.remaining] at paired ⊢
    simp only [List.map_append, List.map_cons, mark_of_match found, mark] at paired ⊢
    rw [paired.filter_id]
  · rw [seq_cons]
    exact .snoc frame.linearized (frame.opened front found) takes
  · have size := frame.size
    simp only [List.length_append, List.length_cons] at size ⊢
    omega

end

end DistSys.Porcupine
