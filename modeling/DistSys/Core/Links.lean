import Mathlib.Data.List.Nodup
import Mathlib.Logic.Function.Basic

namespace DistSys

/-- The pointers of the nodes of doubly linked lists. A node is its address, and `none`
is `nil`. -/
structure Links where
  next : Nat → Option Nat
  prev : Nat → Option Nat

namespace Links

variable (l : Links)

/-- `node.next = target`; `none` if the node is `nil`. -/
def setNext (node target : Option Nat) : Option Links :=
  node.map fun a => { l with next := Function.update l.next a target }

/-- `node.prev = target`; `none` if the node is `nil`. -/
def setPrev (node target : Option Nat) : Option Links :=
  node.map fun a => { l with prev := Function.update l.prev a target }

def setPrevIf (node target : Option Nat) : Option Links :=
  match node with
  | some a => l.setPrev (some a) target
  | none => some l

/-- Takes a node out. Its own pointers stay as they are. -/
def unlink (a : Nat) : Option Links :=
  (l.setNext (l.prev a) (l.next a)).bind fun l => l.setPrevIf (l.next a) (l.prev a)

/-- Puts a node back between the nodes that it still points to. -/
def relink (a : Nat) : Option Links :=
  (l.setNext (l.prev a) (some a)).bind fun l => l.setPrevIf (l.next a) (some a)

/-- Puts a node before another one, or nowhere. -/
def insertBefore (n : Nat) (mark : Option Nat) : Links :=
  match mark with
  | none => l
  | some m =>
    let linked : Links := ⟨Function.update l.next n (some m), Function.update l.prev m (some n)⟩
    match l.prev m with
    | none => linked
    | some b => ⟨Function.update linked.next b (some n), Function.update linked.prev n (some b)⟩

/-- The nodes are a list: each points to the next and back, and the last to `nil`. -/
def Chain : List Nat → Prop
  | [] => True
  | [a] => l.next a = none
  | a :: b :: rest => l.next a = some b ∧ l.prev b = some a ∧ Chain (b :: rest)

variable {l} {l' : Links} {a p : Nat} {xs ys : List Nat}

/-- Only the pointers inside of a list matter. -/
theorem Chain.congr (next : ∀ b ∈ xs, l'.next b = l.next b) (prev : ∀ b ∈ xs.tail, l'.prev b = l.prev b)
    (chain : l.Chain xs) : l'.Chain xs := by
  induction xs with
  | nil => trivial
  | cons a rest ih =>
    cases rest with
    | nil => exact (next a List.mem_cons_self).trans chain
    | cons b rest =>
      obtain ⟨forth, back, chain⟩ := chain
      refine ⟨(next a List.mem_cons_self).trans forth, (prev b List.mem_cons_self).trans back, ?_⟩
      exact ih (fun c member => next c (List.mem_cons_of_mem _ member))
        (fun c member => prev c (List.mem_cons_of_mem _ member)) chain

theorem Chain.head_next (chain : l.Chain (a :: ys)) : l.next a = ys.head? := by
  cases ys with
  | nil => exact chain
  | cons b ys => exact chain.1

theorem Chain.tail (chain : l.Chain (a :: ys)) : l.Chain ys := by
  cases ys with
  | nil => trivial
  | cons b ys => exact chain.2.2

theorem Chain.right (chain : l.Chain (xs ++ ys)) : l.Chain ys := by
  induction xs with
  | nil => exact chain
  | cons a xs ih => exact ih chain.tail

theorem Chain.middle_prev (chain : l.Chain (xs ++ p :: a :: ys)) : l.prev a = some p :=
  chain.right.2.1

/-- Exchanges what follows a node of a list. -/
theorem Chain.splice (chain : l.Chain (xs ++ p :: ys)) {zs : List Nat} (next : ∀ b ∈ xs, l'.next b = l.next b)
    (prev : ∀ b ∈ xs ++ [p], l'.prev b = l.prev b) (rest : l'.Chain (p :: zs)) : l'.Chain (xs ++ p :: zs) := by
  induction xs with
  | nil => exact rest
  | cons a xs ih =>
    have later := ih chain.tail (fun b member => next b (List.mem_cons_of_mem _ member))
      fun b member => prev b (List.mem_cons_of_mem _ member)
    have forth := (next a List.mem_cons_self).trans chain.head_next
    cases xs with
    | nil => exact ⟨forth, (prev p (by simp)).trans chain.2.1, later⟩
    | cons b xs => exact ⟨forth, (prev b (by simp)).trans chain.2.1, later⟩

/-- A new node becomes the first of a list. -/
theorem Chain.insertBefore {n : Nat} (chain : l.Chain xs) (nodup : (n :: xs).Nodup) (alone : l.next n = none)
    (first : ∀ m ∈ xs.head?, l.prev m = none) : (l.insertBefore n xs.head?).Chain (n :: xs) := by
  obtain ⟨fresh, nodup⟩ := List.nodup_cons.mp nodup
  cases xs with
  | nil => exact alone
  | cons m xs =>
    have unlinked := first m rfl
    simp only [Links.insertBefore, List.head?_cons, unlinked]
    refine ⟨Function.update_self .., Function.update_self .., chain.congr (fun b member => ?_) fun b member => ?_⟩
    · refine Function.update_of_ne ?_ _ _
      rintro rfl
      exact fresh member
    · refine Function.update_of_ne ?_ _ _
      rintro rfl
      exact (List.nodup_cons.mp nodup).1 member

/-- A node of a list that is not its first can be taken out; then it still points to its
neighbours, and putting it back restores every pointer. -/
theorem Chain.unlink (chain : l.Chain (xs ++ p :: a :: ys)) (nodup : (xs ++ p :: a :: ys).Nodup) :
    ∃ l', l.unlink a = some l' ∧ l'.Chain (xs ++ p :: ys) ∧ l'.relink a = some l ∧ l'.next a = l.next a := by
  have back := chain.middle_prev
  have forth : l.next a = ys.head? := chain.right.tail.head_next
  have before : Function.update l.next p (some a) = l.next := by
    rw [← chain.right.1, Function.update_eq_self]
  obtain ⟨_, rest, apart⟩ := List.nodup_append.mp nodup
  simp only [List.nodup_cons, List.mem_cons, not_or] at rest
  obtain ⟨⟨notSame, pAway⟩, aAway, ysNodup⟩ := rest
  cases ys with
  | nil =>
    refine ⟨{ l with next := Function.update l.next p none }, ?_, ?_, ?_, ?_⟩
    · simp [Links.unlink, setNext, setPrevIf, back, forth, Ne.symm notSame]
    · refine chain.splice (fun b member => ?_) (fun _ _ => rfl) ?_
      · exact Function.update_of_ne (apart b member p (by simp)) _ _
      · exact Function.update_self ..
    · simp [relink, setNext, setPrevIf, back, forth, before]
    · exact Function.update_of_ne (Ne.symm notSame) _ _
  | cons b ys =>
    have behind : Function.update l.prev b (some a) = l.prev := by
      rw [← chain.right.tail.2.1, Function.update_eq_self]
    simp only [List.mem_cons, not_or, List.nodup_cons] at pAway aAway ysNodup
    refine ⟨⟨Function.update l.next p (some b), Function.update l.prev b (some p)⟩, ?_, ?_, ?_, ?_⟩
    · simp [Links.unlink, setNext, setPrevIf, setPrev, back, forth, Ne.symm notSame]
    · refine chain.splice (fun c member => ?_) (fun c member => ?_) ⟨?_, ?_, ?_⟩
      · exact Function.update_of_ne (apart c member p (by simp)) _ _
      · refine Function.update_of_ne ?_ _ _
        rcases List.mem_append.mp member with outside | is
        · exact apart c outside b (by simp)
        · rw [List.mem_singleton.mp is]
          exact pAway.1
      · exact Function.update_self ..
      · exact Function.update_self ..
      · refine chain.right.tail.tail.congr (fun c member => ?_) fun c member => ?_
        · refine Function.update_of_ne ?_ _ _
          rintro rfl
          rcases List.mem_cons.mp member with is | later
          · exact pAway.1 is
          · exact pAway.2 later
        · refine Function.update_of_ne ?_ _ _
          rintro rfl
          exact ysNodup.1 member
    · simp [relink, setNext, setPrevIf, setPrev, back, forth, before, behind, aAway.1]
    · exact Function.update_of_ne (Ne.symm notSame) _ _

end Links

end DistSys
