import DistSys.Core.Intervals
import DistSys.Porcupine.Checker

namespace DistSys.Porcupine

open Intervals

variable {S I O : Type}

def Entry.mark (entry : Entry I O) : Mark :=
  match entry.kind with
  | .callEntry => .call entry.id
  | .returnEntry => .ret entry.id

def Node.mark (node : Node I O) : Mark :=
  match node.matching with
  | some _ => .call node.id
  | none => .ret node.id

theorem Entry.mark_call {entry : Entry I O} (kind : entry.kind = .callEntry) : entry.mark = .call entry.id := by
  simp only [Entry.mark, kind]

theorem Entry.mark_return {entry : Entry I O} (kind : entry.kind = .returnEntry) :
    entry.mark = .ret entry.id := by
  simp only [Entry.mark, kind]

def marks (entries : List (Entry I O)) : List Mark :=
  entries.map Entry.mark

def Entry.input (entry : Entry I O) (i : Nat) : Option I :=
  match entry.kind, entry.value with
  | .callEntry, .inl input => if entry.id = i then some input else none
  | _, _ => none

def Entry.output (entry : Entry I O) (i : Nat) : Option O :=
  match entry.kind, entry.value with
  | .returnEntry, .inr output => if entry.id = i then some output else none
  | _, _ => none

/-- What the model says to one of the operations of a history. -/
def effect (model : FullModel S I O) (entries : List (Entry I O)) (state : S) (i : Nat) : Option S := do
  let input ← entries.findSome? fun entry => entry.input i
  let output ← entries.findSome? fun entry => entry.output i
  let (ok, newState) := model.step state input output
  if ok then some newState else none

/-- Histories as the checker expects them: every call returns after it was made, calls have
inputs and returns have outputs, and the ids are the numbers below the number of calls. -/
structure WellFormed (entries : List (Entry I O)) : Prop where
  paired : Paired (marks entries)
  input : ∀ entry ∈ entries, entry.kind = .callEntry → ∃ input, entry.value = .inl input
  output : ∀ entry ∈ entries, entry.kind = .returnEntry → ∃ output, entry.value = .inr output
  bounded : ∀ entry ∈ entries, 2 * entry.id + 1 < entries.length
  even : entries.length % 2 = 0

/-- The addresses of the nodes, in the order of the list. -/
def addresses (entries : List (Entry I O)) : List Nat :=
  (List.range entries.length).reverse

theorem addresses_cons (elem : Entry I O) (entries : List (Entry I O)) :
    addresses (elem :: entries) = entries.length :: addresses entries := by
  simp [addresses, List.range_succ]

theorem mem_addresses {entries : List (Entry I O)} {a : Nat} : a ∈ addresses entries ↔ a < entries.length := by
  simp [addresses]

section
variable {heap : Heap I O} {xs : List Nat}

/-- A chain that starts with a node without a predecessor. -/
structure Rooted (links : Links) (xs : List Nat) : Prop where
  chain : links.Chain xs
  nodup : xs.Nodup
  first : ∀ m ∈ xs.head?, links.prev m = none

/-- A new node in front of the list. -/
theorem Rooted.insert (rooted : Rooted heap.links xs) (within : ∀ a ∈ xs, a < heap.size) (node : Node I O) :
    Rooted ((heap.new node).insertBefore heap.size xs.head?).links (heap.size :: xs) := by
  have fresh : heap.size ∉ xs := fun inside => Nat.lt_irrefl _ (within _ inside)
  have nodup : (heap.size :: xs).Nodup := List.nodup_cons.mpr ⟨fresh, rooted.nodup⟩
  have old : (heap.new node).links.Chain xs := by
    refine rooted.chain.congr (fun b inside => ?_) fun b inside => ?_
    · refine Function.update_of_ne ?_ _ _
      rintro rfl
      exact fresh inside
    · refine Function.update_of_ne ?_ _ _
      rintro rfl
      exact fresh (List.mem_of_mem_tail inside)
  have first : ∀ m ∈ xs.head?, (heap.new node).links.prev m = none := by
    intro m head
    refine (Function.update_of_ne ?_ _ _).trans (rooted.first m head)
    exact fun is => fresh (is ▸ List.mem_of_mem_head? head)
  refine ⟨old.insertBefore nodup (Function.update_self ..) first, nodup, ?_⟩
  intro m head
  cases Option.mem_some_iff.mp head
  cases xs with
  | nil => exact Function.update_self ..
  | cons b xs =>
    have apart : heap.size ≠ b := fun is => fresh (is ▸ List.mem_cons_self)
    have unlinked := first b rfl
    simp only [Heap.insertBefore, List.head?_cons, Links.insertBefore, unlinked]
    rw [Function.update_of_ne apart]
    exact Function.update_self ..

end

theorem makeLinkedEntries_cons (elem : Entry I O) (entries : List (Entry I O)) :
    makeLinkedEntries (elem :: entries) = (makeLinkedEntries entries).add elem :=
  rfl

/-- The node that `makeLinkedEntries` makes of an entry. -/
def Linked.node (made : Linked I O) (elem : Entry I O) : Node I O :=
  match elem.kind with
  | .returnEntry => ⟨some elem.value, none, elem.id⟩
  | .callEntry => ⟨some elem.value, made.matching elem.id, elem.id⟩

theorem Linked.add_heap (made : Linked I O) (elem : Entry I O) :
    (made.add elem).heap = (made.heap.new (made.node elem)).insertBefore made.heap.size made.root ∧
      (made.add elem).root = some made.heap.size := by
  obtain ⟨kind, value, id, time, clientId⟩ := elem
  cases kind <;> exact ⟨rfl, rfl⟩

/-- The list has one node for each entry, in the order of the entries. -/
theorem makeLinkedEntries_rooted (entries : List (Entry I O)) :
    (makeLinkedEntries entries).heap.size = entries.length ∧
      (makeLinkedEntries entries).root = (addresses entries).head? ∧
      Rooted (makeLinkedEntries entries).heap.links (addresses entries) := by
  induction entries with
  | nil => exact ⟨rfl, rfl, trivial, List.nodup_nil, by simp [addresses]⟩
  | cons elem entries ih =>
    obtain ⟨size, root, rooted⟩ := ih
    obtain ⟨heap, newRoot⟩ := (makeLinkedEntries entries).add_heap elem
    rw [makeLinkedEntries_cons, heap, newRoot, addresses_cons, root, ← size]
    refine ⟨?_, rfl, rooted.insert ?_ _⟩
    · simp only [Heap.insertBefore, Heap.new, size, List.length_cons]
    · intro a inside
      rw [size]
      exact mem_addresses.mp inside

/-- The node of an entry does not change after it was made. -/
theorem makeLinkedEntries_nodes (before : List (Entry I O)) (elem : Entry I O) (after : List (Entry I O)) :
    (makeLinkedEntries (before ++ elem :: after)).heap.nodes after.length =
      (makeLinkedEntries after).node elem := by
  induction before with
  | nil =>
    rw [List.nil_append, makeLinkedEntries_cons, (Linked.add_heap _ _).1,
      ← (makeLinkedEntries_rooted after).1]
    exact Function.update_self ..
  | cons first before ih =>
    rw [List.cons_append, makeLinkedEntries_cons, (Linked.add_heap _ _).1, ← ih]
    refine Function.update_of_ne ?_ _ _
    rw [(makeLinkedEntries_rooted _).1, List.length_append, List.length_cons]
    omega

/-- A call is matched with a return that has its id, if there is one. -/
theorem makeLinkedEntries_matching (entries : List (Entry I O)) (i : Nat) :
    (∀ m, (makeLinkedEntries entries).matching i = some m → ∃ before ret after,
      entries = before ++ ret :: after ∧ ret.mark = .ret i ∧ m = after.length) ∧
    (Mark.ret i ∈ marks entries → ((makeLinkedEntries entries).matching i).isSome) := by
  induction entries with
  | nil =>
    refine ⟨fun m found => ?_, fun inside => ?_⟩
    · cases found
    · cases inside
  | cons elem entries ih =>
    obtain ⟨found, some⟩ := ih
    have later : ∀ m, (makeLinkedEntries entries).matching i = .some m → ∃ before ret after,
        elem :: entries = before ++ ret :: after ∧ ret.mark = .ret i ∧ m = after.length := by
      intro m here
      obtain ⟨before, ret, after, split, is, length⟩ := found m here
      exact ⟨elem :: before, ret, after, by rw [split, List.cons_append], is, length⟩
    rw [makeLinkedEntries_cons]
    cases kind : elem.kind with
    | callEntry =>
      have same : ((makeLinkedEntries entries).add elem).matching = (makeLinkedEntries entries).matching := by
        simp only [Linked.add, kind]
      rw [same]
      refine ⟨later, fun inside => some ?_⟩
      rcases List.mem_cons.mp inside with is | inside
      · rw [Entry.mark_call kind] at is
        cases is
      · exact inside
    | returnEntry =>
      have new : ((makeLinkedEntries entries).add elem).matching =
          Function.update (makeLinkedEntries entries).matching elem.id (.some entries.length) := by
        simp only [Linked.add, kind, (makeLinkedEntries_rooted entries).1]
      have mark := Entry.mark_return kind
      rw [new]
      by_cases here : i = elem.id
      · subst here
        simp only [Function.update_self]
        exact ⟨fun m is => ⟨[], elem, entries, rfl, mark, (Option.some.inj is).symm⟩, fun _ => rfl⟩
      · rw [Function.update_of_ne here]
        refine ⟨later, fun inside => some ?_⟩
        rcases List.mem_cons.mp inside with is | inside
        · rw [mark] at is
          exact absurd (Mark.ret.inj is) here
        · exact inside

theorem length_chain {links : Links} {xs : List Nat} (chain : links.Chain xs) {turns : Nat}
    (enough : xs.length ≤ turns) : length links turns xs.head? = some xs.length := by
  induction xs generalizing turns with
  | nil => cases turns <;> rfl
  | cons a xs ih =>
    cases turns with
    | zero => cases enough
    | succ turns =>
      rw [List.head?_cons, length, chain.head_next, ih chain.tail (Nat.le_of_succ_le_succ enough)]
      rfl

/-- What the loop of `checkSingle` relies on: a list with a head and a node for each entry,
and calls that point to their returns. -/
structure Ready (model : FullModel S I O) (entries : List (Entry I O)) (nodes : Nat → Node I O)
    (headEntry : Nat) (links : Links) (xs : List Nat) (n : Nat) : Prop where
  chain : links.Chain (headEntry :: xs)
  nodup : (headEntry :: xs).Nodup
  paired : Paired (marks entries)
  size : xs.length = 2 * n
  marked : xs.map (fun a => (nodes a).mark) = marks entries
  bounded : ∀ a ∈ xs, (nodes a).id < n
  partner : ∀ {a m}, a ∈ xs → (nodes a).matching = some m → m ∈ xs ∧ (nodes m).mark = .ret (nodes a).id
  values : ∀ {a m}, a ∈ xs → (nodes a).matching = some m → ∃ input output,
    (nodes a).value = some (.inl input) ∧ (nodes m).value = some (.inr output) ∧
    ∀ s, effect model entries s (nodes a).id =
      if (model.step s input output).1 then some (model.step s input output).2 else none

theorem findSome?_unique {α β : Type} {f : α → Option β} {l : List α} {x : α} {v : β} (inside : x ∈ l)
    (here : f x = some v) (only : ∀ y ∈ l, ∀ w, f y = some w → w = v) : l.findSome? f = some v := by
  cases found : l.findSome? f with
  | none => rw [List.findSome?_eq_none_iff.mp found x inside] at here; cases here
  | some w =>
    obtain ⟨y, member, is⟩ := List.exists_of_findSome?_eq_some found
    rw [only y member w is]

theorem Entry.mark_of_input {entry : Entry I O} {i : Nat} {input : I} (is : entry.input i = some input) :
    entry.mark = .call i ∧ entry.value = .inl input := by
  obtain ⟨kind, value, id, time, clientId⟩ := entry
  cases kind <;> cases value <;> simp_all [Entry.input, Entry.mark]

theorem Entry.mark_of_output {entry : Entry I O} {i : Nat} {output : O} (is : entry.output i = some output) :
    entry.mark = .ret i ∧ entry.value = .inr output := by
  obtain ⟨kind, value, id, time, clientId⟩ := entry
  cases kind <;> cases value <;> simp_all [Entry.output, Entry.mark]

theorem WellFormed.entry_of_mark {entries : List (Entry I O)} (wellFormed : WellFormed entries)
    {first second : Entry I O} (inside : first ∈ entries) (inside' : second ∈ entries)
    (same : first.mark = second.mark) : first = second :=
  List.inj_on_of_nodup_map wellFormed.paired.nodup inside inside' same

/-- The operation of a call and a return of a history. -/
theorem WellFormed.effect_eq {entries : List (Entry I O)} (wellFormed : WellFormed entries)
    (model : FullModel S I O) {call ret : Entry I O} (made : call ∈ entries) (returned : ret ∈ entries)
    (kind : call.kind = .callEntry) (kind' : ret.kind = .returnEntry) (same : ret.id = call.id) :
    ∃ input output, call.value = .inl input ∧ ret.value = .inr output ∧ ∀ s, effect model entries s call.id =
      if (model.step s input output).1 then some (model.step s input output).2 else none := by
  obtain ⟨input, isInput⟩ := wellFormed.input call made kind
  obtain ⟨output, isOutput⟩ := wellFormed.output ret returned kind'
  refine ⟨input, output, isInput, isOutput, fun s => ?_⟩
  have reads : (entries.findSome? fun entry => entry.input call.id) = some input := by
    refine findSome?_unique made (by simp [Entry.input, kind, isInput]) fun other inside value is => ?_
    obtain ⟨mark, isValue⟩ := Entry.mark_of_input is
    have equal := wellFormed.entry_of_mark inside made (mark.trans (Entry.mark_call kind).symm)
    rw [equal, isInput] at isValue
    exact (Sum.inl.inj isValue).symm
  have writes : (entries.findSome? fun entry => entry.output call.id) = some output := by
    refine findSome?_unique returned (by simp [Entry.output, kind', isOutput, same])
      fun other inside value is => ?_
    obtain ⟨mark, isValue⟩ := Entry.mark_of_output is
    have equal := wellFormed.entry_of_mark inside returned (mark.trans (same ▸ Entry.mark_return kind').symm)
    rw [equal, isOutput] at isValue
    exact (Sum.inr.inj isValue).symm
  simp only [effect, reads, writes, Option.bind_eq_bind, Option.bind_some]

theorem exists_split {α : Type} {l : List α} {a : Nat} (within : a < l.length) :
    ∃ before x after, l = before ++ x :: after ∧ after.length = a := by
  refine ⟨l.take (l.length - 1 - a), l[l.length - 1 - a], l.drop (l.length - 1 - a + 1), ?_, ?_⟩
  · rw [List.cons_getElem_drop_succ, List.take_append_drop]
  · rw [List.length_drop]
    omega

/-- An entry and its node, of which `after` are the later entries. -/
theorem WellFormed.node_mark {before after : List (Entry I O)} {elem : Entry I O}
    (wellFormed : WellFormed (before ++ elem :: after)) :
    ((makeLinkedEntries after).node elem).mark = elem.mark := by
  cases kind : elem.kind with
  | returnEntry => simp only [Linked.node, Node.mark, Entry.mark, kind]
  | callEntry =>
    have paired := wellFormed.paired
    rw [marks, List.map_append, List.map_cons, Entry.mark_call kind] at paired
    obtain ⟨m, found⟩ := Option.isSome_iff_exists.mp ((makeLinkedEntries_matching after elem.id).2 paired.ret_mem)
    simp only [Linked.node, Node.mark, Entry.mark, kind, found]

theorem Linked.node_id (made : Linked I O) (elem : Entry I O) : (made.node elem).id = elem.id := by
  cases kind : elem.kind <;> simp only [Linked.node, kind]

/-- The marks of the list are the marks of the entries. -/
theorem WellFormed.map_mark {entries : List (Entry I O)} (wellFormed : WellFormed entries) :
    (addresses entries).map (fun a => ((makeLinkedEntries entries).heap.nodes a).mark) = marks entries := by
  have suffix (before after : List (Entry I O)) (split : entries = before ++ after) :
      (addresses after).map (fun a => ((makeLinkedEntries entries).heap.nodes a).mark) = marks after := by
    induction after generalizing before with
    | nil => rfl
    | cons elem after ih =>
      rw [addresses_cons, List.map_cons, ih (before ++ [elem]) (by simp [split])]
      subst split
      rw [makeLinkedEntries_nodes, wellFormed.node_mark]
      rfl
  exact suffix [] entries rfl

/-- A node with a match is a call, and its match is the return. -/
theorem WellFormed.match_entry {entries : List (Entry I O)} (wellFormed : WellFormed entries) {a m : Nat}
    (within : a < entries.length) (found : ((makeLinkedEntries entries).heap.nodes a).matching = some m) :
    ∃ call ∈ entries, ∃ ret ∈ entries, call.kind = .callEntry ∧ ret.kind = .returnEntry ∧ ret.id = call.id ∧
      m < entries.length ∧ (makeLinkedEntries entries).heap.nodes a = ⟨some call.value, some m, call.id⟩ ∧
      (makeLinkedEntries entries).heap.nodes m = ⟨some ret.value, none, ret.id⟩ := by
  obtain ⟨before, call, after, rfl, rfl⟩ := exists_split within
  have node := makeLinkedEntries_nodes before call after
  rw [node] at found
  cases kind : call.kind with
  | returnEntry =>
    simp only [Linked.node, kind] at found
    cases found
  | callEntry =>
    simp only [Linked.node, kind] at found node
    rw [found] at node
    obtain ⟨between, ret, later, rfl, mark, rfl⟩ := (makeLinkedEntries_matching after call.id).1 m found
    have node' := makeLinkedEntries_nodes (before ++ call :: between) ret later
    rw [List.append_assoc, List.cons_append] at node'
    cases kind' : ret.kind with
    | callEntry =>
      rw [Entry.mark_call kind'] at mark
      cases mark
    | returnEntry =>
      rw [Entry.mark_return kind'] at mark
      simp only [Linked.node, kind'] at node'
      refine ⟨call, by simp, ret, by simp, kind, kind', Mark.ret.inj mark, ?_, node, node'⟩
      simp only [List.length_append, List.length_cons]
      omega

/-- `checkSingle` reaches its loop, with the list ready. -/
theorem WellFormed.beginSearch {entries : List (Entry I O)} (wellFormed : WellFormed entries)
    (model : FullModel S I O) : ∃ heap headEntry links,
      beginSearch model entries = some (heap, headEntry,
        { links := links
          entry := (addresses entries).head?
          state := model.init
          linearized := newBitset (entries.length / 2)
          cache := fun _ => []
          calls := []
          longest := List.replicate (entries.length / 2) none }) ∧
      Ready model entries heap.nodes headEntry links (addresses entries) (entries.length / 2) := by
  obtain ⟨size, root, rooted⟩ := makeLinkedEntries_rooted entries
  have count : length (makeLinkedEntries entries).heap.links (makeLinkedEntries entries).heap.size
      (makeLinkedEntries entries).root = some entries.length := by
    rw [root, length_chain rooted.chain (by simp [addresses, size])]
    simp [addresses]
  refine ⟨_, _, _, by simp only [Porcupine.beginSearch, count]; rw [root]; rfl, ?_⟩
  have within {a : Nat} (inside : a ∈ addresses entries) : a < (makeLinkedEntries entries).heap.size := by
    rw [size]
    exact mem_addresses.mp inside
  have headed := rooted.insert (fun a => within) ⟨none, none, 0⟩
  -- allocating the head leaves the nodes of the list as they are
  have nodes {a : Nat} (inside : a ∈ addresses entries) :
      Function.update (makeLinkedEntries entries).heap.nodes (makeLinkedEntries entries).heap.size
        ⟨none, none, 0⟩ a = (makeLinkedEntries entries).heap.nodes a :=
    Function.update_of_ne (Nat.ne_of_lt (within inside)) _ _
  have even := wellFormed.even
  refine ⟨headed.chain, headed.nodup, wellFormed.paired, ?_, ?_, fun a inside => ?_, ?_, ?_⟩
  · simp only [addresses, List.length_reverse, List.length_range]
    omega
  · rw [← wellFormed.map_mark]
    refine List.map_congr_left fun a inside => ?_
    simp only [Heap.insertBefore, Heap.new, nodes inside]
  · obtain ⟨before, elem, after, rfl, rfl⟩ := exists_split (mem_addresses.mp inside)
    have bound := wellFormed.bounded elem (by simp)
    simp only [Heap.insertBefore, Heap.new, nodes inside, makeLinkedEntries_nodes, Linked.node_id]
    omega
  · intro a m inside found
    simp only [Heap.insertBefore, Heap.new, nodes inside] at found ⊢
    obtain ⟨call, _, ret, _, _, _, same, bound, node, node'⟩ :=
      wellFormed.match_entry (mem_addresses.mp inside) found
    have inside' : m ∈ addresses entries := mem_addresses.mpr bound
    refine ⟨inside', ?_⟩
    rw [nodes inside', node, node']
    simp only [Node.mark, same]
  · intro a m inside found
    simp only [Heap.insertBefore, Heap.new, nodes inside] at found ⊢
    obtain ⟨call, made, ret, returned, kind, kind', same, bound, node, node'⟩ :=
      wellFormed.match_entry (mem_addresses.mp inside) found
    obtain ⟨input, output, isInput, isOutput, is⟩ := wellFormed.effect_eq model made returned kind kind' same
    refine ⟨input, output, ?_, ?_, ?_⟩
    · rw [node, isInput]
    · rw [nodes (mem_addresses.mpr bound), node', isOutput]
    · rw [node]
      exact is

end DistSys.Porcupine
