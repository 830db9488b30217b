import DistSys.Core.Exec
import DistSys.Core.Links
import DistSys.Porcupine.Bitset

namespace DistSys.Porcupine

structure Operation (I O : Type) where
  clientId : Int
  input : I
  /-- The time of the invocation. -/
  call : Int
  output : O
  /-- The time of the response. -/
  ret : Int

inductive EventKind
  | callEvent
  | returnEvent

/-- The value is an input or an output. -/
structure Event (I O : Type) where
  clientId : Int
  kind : EventKind
  value : I ⊕ O
  id : Int

/-- The functions that a user may leave out are `none`. -/
structure Model (S I O : Type) where
  partition : Option (List (Operation I O) → List (List (Operation I O)))
  partitionEvent : Option (List (Event I O) → List (List (Event I O)))
  init : S
  step : S → I → O → Bool × S
  equal : Option (S → S → Bool)

def noPartition {I O : Type} (history : List (Operation I O)) : List (List (Operation I O)) :=
  [history]

def noPartitionEvent {I O : Type} (history : List (Event I O)) : List (List (Event I O)) :=
  [history]

def shallowEqual {S : Type} [DecidableEq S] (state1 state2 : S) : Bool :=
  decide (state1 = state2)

/-- A model in which no function is missing. -/
structure FullModel (S I O : Type) where
  partition : List (Operation I O) → List (List (Operation I O))
  partitionEvent : List (Event I O) → List (List (Event I O))
  init : S
  step : S → I → O → Bool × S
  equal : S → S → Bool

def fillDefault {S I O : Type} [DecidableEq S] (model : Model S I O) : FullModel S I O where
  partition := model.partition.getD noPartition
  partitionEvent := model.partitionEvent.getD noPartitionEvent
  init := model.init
  step := model.step
  equal := model.equal.getD shallowEqual

inductive EntryKind
  | callEntry
  | returnEntry

structure Entry (I O : Type) where
  kind : EntryKind
  value : I ⊕ O
  id : Nat
  time : Int
  clientId : Int

section
variable {S I O : Type}

/-- The entries of `makeEntries` before they are sorted. -/
def entriesFrom (id : Nat) : List (Operation I O) → List (Entry I O)
  | [] => []
  | elem :: history =>
    ⟨.callEntry, .inl elem.input, id, elem.call, elem.clientId⟩ ::
    ⟨.returnEntry, .inr elem.output, id, elem.ret, elem.clientId⟩ ::
    entriesFrom (id + 1) history

/-- `sort.Sort(byTime(entries))` is only known to sort by the time. -/
structure SortsByTime (sort : List (Entry I O) → List (Entry I O)) : Prop where
  perm : ∀ entries, (sort entries).Perm entries
  sorted : ∀ entries, (sort entries).Pairwise fun first second => ¬ second.time < first.time

def makeEntries (sort : List (Entry I O) → List (Entry I O)) (history : List (Operation I O)) :
    List (Entry I O) :=
  sort (entriesFrom 0 history)

/-- The loop of `renumber`: the numbers given so far and the next one. -/
def renumberFrom (m : Int → Option Nat) (id : Nat) : List (Event I O) → List (Event I O)
  | [] => []
  | v :: events =>
    match m v.id with
    | some r => { v with id := r } :: renumberFrom m id events
    | none => { v with id := id } :: renumberFrom (Function.update m v.id (some id)) (id + 1) events

def renumber (events : List (Event I O)) : List (Event I O) :=
  renumberFrom (fun _ => none) 0 events

/-- The loop of `convertEntries`. Numbers given by `renumber` are not negative. -/
def convertFrom (i : Nat) : List (Event I O) → List (Entry I O)
  | [] => []
  | elem :: events =>
    let kind := match elem.kind with
      | .callEvent => EntryKind.callEntry
      | .returnEvent => EntryKind.returnEntry
    ⟨kind, elem.value, elem.id.toNat, i, elem.clientId⟩ :: convertFrom (i + 1) events

/-- The index of an event serves as its time. -/
def convertEntries (events : List (Event I O)) : List (Entry I O) :=
  convertFrom 0 events

/-- A node of the linked list, but for the pointers to its neighbours. It is a call if
`matching` is not `nil`, and otherwise a return. -/
structure Node (I O : Type) where
  value : Option (I ⊕ O)
  matching : Option Nat
  id : Nat

/-- The nodes allocated so far, by their addresses. -/
structure Heap (I O : Type) where
  size : Nat
  nodes : Nat → Node I O
  links : Links

/-- Allocates a node with the pointers to its neighbours `nil`. Its address is the old size. -/
def Heap.new (heap : Heap I O) (node : Node I O) : Heap I O where
  size := heap.size + 1
  nodes := Function.update heap.nodes heap.size node
  links := ⟨Function.update heap.links.next heap.size none, Function.update heap.links.prev heap.size none⟩

/-- `insertBefore(n, mark)`. -/
def Heap.insertBefore (heap : Heap I O) (n : Nat) (mark : Option Nat) : Heap I O :=
  { heap with links := heap.links.insertBefore n mark }

/-- The state of the loop of `makeLinkedEntries`. -/
structure Linked (I O : Type) where
  heap : Heap I O
  root : Option Nat
  matching : Nat → Option Nat

/-- One turn of the loop, which goes through the entries from the last one on. -/
def Linked.add (elem : Entry I O) (made : Linked I O) : Linked I O :=
  let entry := made.heap.size
  match elem.kind with
  | .returnEntry =>
    { heap := (made.heap.new ⟨some elem.value, none, elem.id⟩).insertBefore entry made.root
      root := some entry
      matching := Function.update made.matching elem.id (some entry) }
  | .callEntry =>
    { made with
      heap := (made.heap.new ⟨some elem.value, made.matching elem.id, elem.id⟩).insertBefore entry made.root
      root := some entry }

def makeLinkedEntries (entries : List (Entry I O)) : Linked I O :=
  entries.foldr Linked.add ⟨⟨0, fun _ => ⟨none, none, 0⟩, ⟨fun _ => none, fun _ => none⟩⟩, none, fun _ => none⟩

/-- `length(n)`; `none` if the given number of turns is too small. -/
def length (links : Links) : Nat → Option Nat → Option Nat
  | _, none => some 0
  | 0, some _ => none
  | turns + 1, some n => (length links turns (links.next n)).map (· + 1)

structure CacheEntry (S : Type) where
  linearized : Bitset
  state : S

def cacheContains (model : FullModel S I O) (cache : UInt64 → List (CacheEntry S)) (entry : CacheEntry S) :
    Bool :=
  (cache entry.linearized.hash).any fun elem =>
    entry.linearized.equals elem.linearized && model.equal entry.state elem.state

structure CallsEntry (S : Type) where
  entry : Nat
  state : S

/-- `lift(entry)`, where `matching` is `entry.match`; `none` is a `nil` dereference. -/
def lift (links : Links) (entry matching : Nat) : Option Links := do
  let links ← links.setNext (links.prev entry) (links.next entry)
  let links ← links.setPrev (links.next entry) (links.prev entry)
  links.unlink matching

def unlift (links : Links) (entry matching : Nat) : Option Links := do
  let links ← links.relink matching
  let links ← links.setNext (links.prev entry) (some entry)
  links.setPrev (links.next entry) (some entry)

/-- For each entry, the longest sequence of calls found so far that includes it. -/
abbrev Longest := List (Option (List Nat))

/-- Enters a sequence for one of its entries if it is longer than the one known. -/
def Longest.record (seq : List Nat) (longest : Longest) (id : Nat) : Option Longest :=
  longest[id]?.map fun known =>
    if known.all fun old => decide (seq.length > old.length) then List.set longest id (some seq) else longest

/-- Enters the sequence of the calls on the stack for each of them. -/
def Longest.recordAll (computePartial : Bool) (seq : List Nat) (longest : Longest) : Option Longest :=
  if computePartial then seq.foldlM (record seq) longest else some longest

/-- The variables of the loop of `checkSingle`. The newest of the calls is the first. -/
structure Search (S : Type) where
  links : Links
  entry : Option Nat
  state : S
  linearized : Bitset
  cache : UInt64 → List (CacheEntry S)
  calls : List (CallsEntry S)
  longest : Longest

/-- `checkSingle` is in its loop, or has returned. -/
inductive Single (S : Type)
  | searching (search : Search S)
  | returned (ok : Bool) (longest : Longest)

section
variable (model : FullModel S I O) (nodes : Nat → Node I O) (headEntry : Nat) (computePartial : Bool)

/-- The ids of the calls on the stack, the oldest first. -/
def seq (calls : List (CallsEntry S)) : List Nat :=
  (calls.map fun v => (nodes v.entry).id).reverse

/-- The branch for a call: try to linearize it next. -/
def tryCall (search : Search S) (entry matching : Nat) : Option (Search S) :=
  match (nodes entry).value, (nodes matching).value with
  | some (.inl input), some (.inr output) =>
    let (ok, newState) := model.step search.state input output
    if ok then do
      let newLinearized ← search.linearized.set (nodes entry).id
      let newCacheEntry : CacheEntry S := ⟨newLinearized, newState⟩
      if cacheContains model search.cache newCacheEntry then
        some { search with entry := search.links.next entry }
      else
        let hash := newLinearized.hash
        let links ← lift search.links entry matching
        some { search with
          cache := Function.update search.cache hash (search.cache hash ++ [newCacheEntry])
          calls := ⟨entry, search.state⟩ :: search.calls
          state := newState
          linearized := newLinearized
          links := links
          entry := links.next headEntry }
    else some { search with entry := search.links.next entry }
  -- the model's step function asserts the types of its arguments
  | _, _ => none

/-- The branch for a return: take back the last call. -/
def backtrack (search : Search S) (callsTop : CallsEntry S) (calls : List (CallsEntry S)) :
    Option (Search S) := do
  let longest ← search.longest.recordAll computePartial (seq nodes search.calls)
  let linearized ← search.linearized.clear (nodes callsTop.entry).id
  let matching ← (nodes callsTop.entry).matching
  let links ← unlift search.links callsTop.entry matching
  some { search with
    longest := longest
    state := callsTop.state
    linearized := linearized
    calls := calls
    links := links
    entry := links.next callsTop.entry }

/-- One turn of the loop, in which the flag `kill` reads as given. -/
def Search.turn (kill : Bool) (search : Search S) : Option (Single S) :=
  if search.links.next headEntry = none then
    some (.returned true (search.longest.map fun _ => some (seq nodes search.calls)))
  else if kill then
    some (.returned false search.longest)
  else do
    let entry ← search.entry
    match (nodes entry).matching with
    | some matching => (tryCall model nodes headEntry search entry matching).map .searching
    | none =>
      match search.calls with
      | [] => some (.returned false search.longest)
      | callsTop :: calls => (backtrack nodes computePartial search callsTop calls).map .searching

def Single.turn (single : Single S) (kill : Bool) : Option (Single S) :=
  match single with
  | .searching search => search.turn model nodes headEntry computePartial kill
  | .returned ok longest => some (.returned ok longest)

end

/-- The nodes of a search, with the address of the head, and the search before its loop.
The value and the id of the head are never read. -/
def beginSearch (model : FullModel S I O) (history : List (Entry I O)) : Option (Heap I O × Nat × Search S) := do
  let made := makeLinkedEntries history
  let n := (← length made.heap.links made.heap.size made.root) / 2
  let headEntry := made.heap.size
  let heap := (made.heap.new ⟨none, none, 0⟩).insertBefore headEntry made.root
  some (heap, headEntry,
    { links := heap.links
      entry := made.root
      state := model.init
      linearized := newBitset n
      cache := fun _ => []
      calls := []
      longest := List.replicate n none })

/-- `checkSingle`, for as many turns as there are readings of the flag `kill`. -/
def checkSingle (model : FullModel S I O) (history : List (Entry I O)) (computePartial : Bool)
    (kills : List Bool) : Option (Single S) := do
  let (heap, headEntry, search) ← beginSearch model history
  exec (Single.turn model heap.nodes headEntry computePartial) (.searching search) kills

end

end DistSys.Porcupine
