import Mathlib.Data.List.Basic
import Mathlib.Data.UInt

namespace DistSys.Porcupine

/-- A set of numbers below a bound: bits 0 to 63 are in the first word. -/
abbrev Bitset := List UInt64

def newBitset (bits : Nat) : Bitset :=
  let extra := if bits % 64 ≠ 0 then 1 else 0
  List.replicate (bits / 64 + extra) 0

namespace Bitset

variable (b : Bitset) (pos : Nat)

/-- `none` is an index out of range. -/
def set : Option Bitset :=
  b[pos / 64]?.map fun word => List.set b (pos / 64) (word ||| 1 <<< UInt64.ofNat (pos % 64))

def clear : Option Bitset :=
  b[pos / 64]?.map fun word => List.set b (pos / 64) (word &&& ~~~(1 <<< UInt64.ofNat (pos % 64)))

/-- The function `bits.OnesCount64`. -/
def onesCount64 (word : UInt64) : Nat :=
  (List.range 64).countP fun i => word.toBitVec.getLsbD i

def popcnt : Nat :=
  (b.map onesCount64).sum

def hash : UInt64 :=
  b.foldl (fun hash word => hash ^^^ word) (UInt64.ofNat b.popcnt)

def equals (b₂ : Bitset) : Bool :=
  b == b₂

/-- Whether a number is in the set. -/
def bit : Bool :=
  (b[pos / 64]?.getD 0).toBitVec.getLsbD (pos % 64)

variable {b pos} {b' : Bitset}

theorem toBitVec_mask {k : Nat} (small : k < 64) :
    ((1 : UInt64) <<< UInt64.ofNat k).toBitVec = BitVec.twoPow 64 k := by
  rw [UInt64.toBitVec_shiftLeft]
  simp [BitVec.twoPow, Nat.mod_eq_of_lt small]

/-- Two sets of one size with the same numbers are the same words. -/
theorem ext_bit (length : b.length = b'.length) (same : ∀ i, bit b i = bit b' i) : b = b' := by
  refine List.ext_getElem length fun k inside inside' => ?_
  refine UInt64.toBitVec_inj.mp (BitVec.eq_of_getLsbD_eq fun j small => ?_)
  have here := same (64 * k + j)
  have major : (64 * k + j) / 64 = k := by omega
  have minor : (64 * k + j) % 64 = j := by omega
  simpa [bit, major, minor, inside, inside'] using here

theorem bit_newBitset (bits i : Nat) : bit (newBitset bits) i = false := by
  have zero (k : Nat) : (List.replicate k (0 : UInt64))[i / 64]?.getD 0 = 0 := by
    rw [List.getElem?_replicate]
    split <;> rfl
  rw [bit, newBitset, zero]
  exact BitVec.getLsbD_zero

theorem within_newBitset {bits : Nat} (within : pos < bits) : pos / 64 < (newBitset bits).length := by
  simp only [newBitset, List.length_replicate]
  split <;> omega

/-- Writing a word that agrees with the old one but for one number. -/
theorem bit_write {word : UInt64} (inside : pos / 64 < b.length) {value : Bool}
    (agree : ∀ j < 64, word.toBitVec.getLsbD j =
      if j = pos % 64 then value else (b[pos / 64]?.getD 0).toBitVec.getLsbD j) (i : Nat) :
    bit (List.set b (pos / 64) word) i = if i = pos then value else bit b i := by
  by_cases sameWord : pos / 64 = i / 64
  · have sameBit : i % 64 = pos % 64 ↔ i = pos := by omega
    simp only [bit, ← sameWord, List.getElem?_set_self inside, Option.getD_some]
    rw [agree _ (Nat.mod_lt _ (by decide))]
    simp only [sameBit]
  · have apart : i ≠ pos := by
      rintro rfl
      exact sameWord rfl
    simp [bit, List.getElem?_set_ne sameWord, apart]

theorem set_spec (inside : pos / 64 < b.length) :
    ∃ b', b.set pos = some b' ∧ b'.length = b.length ∧ ∀ i, bit b' i = if i = pos then true else bit b i := by
  refine ⟨_, by rw [Bitset.set, List.getElem?_eq_getElem inside, Option.map_some], List.length_set,
    bit_write inside fun j small => ?_⟩
  simp only [UInt64.toBitVec_or, toBitVec_mask (Nat.mod_lt pos (by decide : 64 > 0)), BitVec.getLsbD_or,
    BitVec.getLsbD_twoPow, List.getElem?_eq_getElem inside, Option.getD_some]
  by_cases here : j = pos % 64
  · simp [here, Nat.mod_lt]
  · simp [here, Ne.symm here]

theorem clear_spec (inside : pos / 64 < b.length) :
    ∃ b', b.clear pos = some b' ∧ b'.length = b.length ∧ ∀ i, bit b' i = if i = pos then false else bit b i := by
  refine ⟨_, by rw [Bitset.clear, List.getElem?_eq_getElem inside, Option.map_some], List.length_set,
    bit_write inside fun j small => ?_⟩
  simp only [UInt64.toBitVec_and, UInt64.toBitVec_not, toBitVec_mask (Nat.mod_lt pos (by decide : 64 > 0)),
    BitVec.getLsbD_and, BitVec.getLsbD_not, BitVec.getLsbD_twoPow, List.getElem?_eq_getElem inside,
    Option.getD_some]
  by_cases here : j = pos % 64
  · simp [here, Nat.mod_lt]
  · simp [here, Ne.symm here, small]

/-- A bit set of the given size that holds the numbers of a list. -/
structure Holds (bits : Nat) (b : Bitset) (numbers : List Nat) : Prop where
  length : b.length = (newBitset bits).length
  mem : ∀ i, bit b i = true ↔ i ∈ numbers

variable {bits : Nat} {numbers numbers' : List Nat}

theorem Holds.newBitset (bits : Nat) : Holds bits (newBitset bits) [] :=
  ⟨rfl, fun i => by simp [bit_newBitset]⟩

theorem Holds.set (holds : Holds bits b numbers) (within : pos < bits) :
    ∃ b', b.set pos = some b' ∧ Holds bits b' (numbers ++ [pos]) := by
  obtain ⟨b', done, length, mem⟩ := set_spec (holds.length ▸ within_newBitset within)
  refine ⟨b', done, length.trans holds.length, fun i => ?_⟩
  rw [mem, List.mem_append, List.mem_singleton, ← holds.mem]
  split
  next here => simp [here]
  next apart => simp [apart]

theorem Holds.clear (holds : Holds bits b (numbers ++ [pos])) (within : pos < bits) (absent : pos ∉ numbers) :
    ∃ b', b.clear pos = some b' ∧ Holds bits b' numbers := by
  obtain ⟨b', done, length, mem⟩ := clear_spec (holds.length ▸ within_newBitset within)
  refine ⟨b', done, length.trans holds.length, fun i => ?_⟩
  rw [mem]
  split
  next here => simp [here, absent]
  next apart => simp [holds.mem, apart]

/-- Bit sets are equal when they hold the same numbers. -/
theorem Holds.equals_iff (holds : Holds bits b numbers) (holds' : Holds bits b' numbers') :
    b.equals b' = true ↔ ∀ i, i ∈ numbers ↔ i ∈ numbers' := by
  rw [equals, beq_iff_eq]
  constructor
  · rintro rfl i
    rw [← holds.mem, holds'.mem]
  · intro same
    refine ext_bit (holds.length.trans holds'.length.symm) fun i => ?_
    rw [Bool.eq_iff_iff, holds.mem, holds'.mem, same]

end Bitset

end DistSys.Porcupine
