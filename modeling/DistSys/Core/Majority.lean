import Mathlib.Data.Fintype.Card

namespace DistSys

/-- More than half of all members. -/
def Majority {S : Type*} [Fintype S] (Q : Finset S) : Prop :=
  Fintype.card S < 2 * Q.card

theorem Majority.meet {S : Type*} [Fintype S] [DecidableEq S] {P Q : Finset S}
    (left : Majority P) (right : Majority Q) : ∃ v ∈ P, v ∈ Q := by
  by_contra apart
  have disjoint : Disjoint P Q := by
    rw [Finset.disjoint_left]
    intro v inP inQ
    exact apart ⟨v, inP, inQ⟩
  have total := Finset.card_le_univ (P ∪ Q)
  rw [Finset.card_union_of_disjoint disjoint] at total
  unfold Majority at left right
  omega

end DistSys
