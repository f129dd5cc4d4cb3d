import Mathlib.Data.Fintype.Card
import Mathlib.Data.Finset.Card

/-!
# Quorum systems

What an election and a commit rest on: a family of sets of members, any two of which share a member. A strict majority of a
finite type of members is one.
-/

namespace Consensus

/-- A quorum system over the members `ι`: which sets of members are quorums, and that any two of them meet. -/
structure QuorumSystem (ι : Type*) where
  IsQuorum : Finset ι → Prop
  inter : ∀ {P Q : Finset ι}, IsQuorum P → IsQuorum Q → ∃ v, v ∈ P ∧ v ∈ Q

/-- The strict majorities of a finite type of members. -/
def majority (ι : Type*) [Fintype ι] [DecidableEq ι] : QuorumSystem ι where
  IsQuorum Q := Fintype.card ι < 2 * Q.card
  inter := by
    intro P Q hP hQ
    have hsub : Finset.card (P ∪ Q) ≤ Fintype.card ι := Finset.card_le_univ _
    have hsum := Finset.card_union_add_card_inter P Q
    have hpos : 0 < (P ∩ Q).card := by omega
    obtain ⟨v, hv⟩ := Finset.card_pos.mp hpos
    exact ⟨v, Finset.mem_inter.mp hv⟩

/-- A quorum of a majority system is a set that holds more than half of the members. -/
theorem majority_isQuorum_iff {ι : Type*} [Fintype ι] [DecidableEq ι] (Q : Finset ι) :
    (majority ι).IsQuorum Q ↔ Fintype.card ι < 2 * Q.card := Iff.rfl

end Consensus
