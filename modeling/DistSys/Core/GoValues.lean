import Mathlib.Data.List.Nodup
import Mathlib.Logic.Function.Basic

namespace DistSys

/-- A Go string is a sequence of bytes. -/
abbrev GoString := List UInt8

/-- What a map still holds after a `delete` was there before. -/
theorem some_of_update_none {α β : Type*} [DecidableEq α] {f : α → Option β} {i j : α} {b : β}
    (there : Function.update f i none j = some b) : f j = some b := by
  by_cases same : j = i
  · subst same
    rw [Function.update_self] at there
    cases there
  · rwa [Function.update_of_ne same] at there

/-- An order in which `range` may visit the keys of a map. -/
structure Enumerates {κ α : Type*} (order : List κ) (m : κ → Option α) : Prop where
  nodup : order.Nodup
  mem : ∀ k, k ∈ order ↔ (m k).isSome = true

theorem Enumerates.eq_none {κ α : Type*} {order : List κ} {m : κ → Option α} (orderly : Enumerates order m)
    {k : κ} (absent : k ∉ order) : m k = none := by
  rw [orderly.mem, Bool.not_eq_true, Option.isSome_eq_false_iff, Option.isNone_iff_eq_none] at absent
  exact absent

theorem Enumerates.empty {κ α : Type*} : Enumerates [] (fun _ => none : κ → Option α) :=
  ⟨.nil, fun _ => by simp⟩

/-- A map that was built by assignments can be enumerated. -/
theorem Enumerates.assign {κ α : Type*} [DecidableEq κ] {order : List κ} {m : κ → Option α}
    (orderly : Enumerates order m) (k : κ) (a : α) :
    Enumerates (order.insert k) (Function.update m k (some a)) := by
  refine ⟨orderly.nodup.insert, fun j => ?_⟩
  rw [List.mem_insert_iff, orderly.mem, Function.update_apply]
  split
  next here => simp [here]
  next other => simp [other]

/-- A loop over keys that changes, at each key, what is stored for it does so whatever
the order. -/
theorem foldl_update {κ β : Type*} [DecidableEq κ] (f : κ → β → β) {order : List κ} (nodup : order.Nodup)
    (s : κ → β) :
    order.foldl (fun s k => Function.update s k (f k (s k))) s =
      fun k => if k ∈ order then f k (s k) else s k := by
  induction order generalizing s with
  | nil => simp
  | cons k order ih =>
    obtain ⟨fresh, rest⟩ := List.nodup_cons.mp nodup
    rw [List.foldl_cons, ih rest]
    funext j
    by_cases here : j = k
    · subst here
      simp [fresh]
    · simp [here]

/-- The loop that copies a map into a new one. -/
def copyMap {κ α : Type*} [DecidableEq κ] (order : List κ) (m : κ → Option α) : κ → Option α :=
  order.foldl (fun copy k => Function.update copy k (m k)) fun _ => none

theorem copyMap_eq {κ α : Type*} [DecidableEq κ] {order : List κ} {m : κ → Option α}
    (orderly : Enumerates order m) : copyMap order m = m := by
  rw [copyMap, foldl_update (fun k _ => m k) orderly.nodup]
  funext k
  split
  next => rfl
  next absent => exact (orderly.eq_none absent).symm

/-- A loop that may fail, and never does, is a `map`. -/
theorem mapM_eq_some {α β : Type} {f : α → Option β} {g : α → β} {l : List α} (each : ∀ a ∈ l, f a = some (g a)) :
    l.mapM f = some (l.map g) := by
  induction l with
  | nil => rfl
  | cons a l ih =>
    rw [List.mapM_cons, each a List.mem_cons_self, ih fun a member => each a (List.mem_cons_of_mem _ member)]
    rfl

end DistSys
