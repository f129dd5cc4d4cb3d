import Mathlib.Data.List.Basic

/-!
# Catching up with a list

A copy of a list is brought up to the list from an index that moves: back by one where the copy does not match the list before it, and
forward when the copy has become the beginning of the list. Where nothing matches from the index on, the copy has caught up after a
number of steps that is bounded by the length of the list and the index.
-/

namespace Systems

variable {α σ : Type*}

/-- Steps one after the other. -/
def steps (step : σ → Option σ) : ℕ → σ → Option σ
  | 0, x => some x
  | k + 1, x => (step x).bind (steps step k)

/-- The two lists have elements at a place that count as the same. -/
def MatchAt (same : α → α → Prop) (f l : List α) (k : ℕ) : Prop := ∃ x y, f[k]? = some x ∧ l[k]? = some y ∧ same x y

/-- A copy, and the index from which it is brought up to the list. -/
structure CatchUp (α : Type*) where
  next : ℕ
  copy : List α

namespace CatchUp

variable {same : α → α → Prop} {l : List α} {s s' : CatchUp α}

/-- Nothing matches from the index on. -/
structure Apart (same : α → α → Prop) (l : List α) (s : CatchUp α) : Prop where
  next : s.next ≤ l.length
  apart : ∀ j, s.next ≤ j → ¬MatchAt same s.copy l j

/-- One step: back by one, or forward to where the copy is the beginning of the list. -/
inductive Step (same : α → α → Prop) (l : List α) : CatchUp α → CatchUp α → Prop where
  | retreat {k : ℕ} {f : List α} (h : ¬MatchAt same f l k) : Step same l ⟨k + 1, f⟩ ⟨k, f⟩
  | extend {k j : ℕ} {f : List α} (hlt : k < j) (hle : j ≤ l.length) : Step same l ⟨k, f⟩ ⟨j, l.take j⟩

/-- The index is at the end of the list, and the copy begins with the list. -/
structure Caught (l : List α) (s : CatchUp α) : Prop where
  next : s.next = l.length
  copy : l <+: s.copy

/-- A beginning of the list has nothing to match beyond its end. -/
theorem apart_take {j : ℕ} (hle : j ≤ l.length) : Apart same l ⟨j, l.take j⟩ := by
  refine ⟨hle, fun i hi h => ?_⟩
  obtain ⟨x, _, hx, _⟩ := h
  have hlt := (List.getElem?_eq_some_iff.mp hx).1
  rw [List.length_take] at hlt
  have hi : j ≤ i := hi
  omega

theorem Apart.step (h : s.Apart same l) (hs : Step same l s s') : s'.Apart same l := by
  cases hs with
  | @retreat k f hno =>
    refine ⟨Nat.le_trans (Nat.le_succ k) h.next, fun j hj => ?_⟩
    rcases Nat.eq_or_lt_of_le (show k ≤ j from hj) with rfl | hlt
    · exact hno
    · exact h.apart j hlt
  | extend hlt hle => exact apart_take hle

open Classical in
/-- How many steps are left at most: the index goes back only until the copy is the beginning of the list. -/
noncomputable def left (l : List α) (s : CatchUp α) : ℕ :=
  if s.copy = l.take s.next then l.length - s.next else l.length + s.next + 1

theorem left_le (l : List α) (s : CatchUp α) : s.left l ≤ l.length + s.next + 1 := by
  unfold left
  split <;> omega

/-- Every step leaves fewer. -/
theorem left_lt (hrefl : ∀ x, same x x) (h : s.Apart same l) (hs : Step same l s s') : s'.left l < s.left l := by
  cases hs with
  | @retreat k f hno =>
    have hk : k + 1 ≤ l.length := h.next
    have hne : f ≠ l.take (k + 1) := by
      rintro rfl
      have hget : l[k]? = some l[k] := List.getElem?_eq_getElem hk
      exact hno ⟨l[k], l[k], by rw [List.getElem?_take_of_lt (Nat.lt_succ_self k), hget], hget, hrefl _⟩
    unfold left
    rw [if_neg hne]
    simp only
    split <;> omega
  | @extend k j f hlt hle =>
    unfold left
    rw [if_pos rfl]
    simp only
    split <;> omega

/-- A system that takes such a step wherever it has not caught up will have caught up before long. -/
theorem exists_caught {step : σ → Option σ} {view : σ → CatchUp α} {I : σ → Prop} (hrefl : ∀ x, same x x)
    (hstep : ∀ x, I x → (view x).Apart same l → (view x).Caught l ∨ ∃ y, step x = some y ∧ I y ∧ Step same l (view x) (view y))
    {x : σ} (hx : I x) (ha : (view x).Apart same l) :
    ∃ k y, k ≤ (view x).left l ∧ steps step k x = some y ∧ I y ∧ (view y).Caught l := by
  induction hn : (view x).left l using Nat.strongRecOn generalizing x with
  | ind n ih =>
    rcases hstep x hx ha with hdone | ⟨y, hy, hIy, hs⟩
    · exact ⟨0, x, Nat.zero_le _, rfl, hx, hdone⟩
    · have hlt := left_lt hrefl ha hs
      obtain ⟨k, z, hk, hz, hIz, hdone⟩ := ih _ (hn ▸ hlt) hIy (ha.step hs) rfl
      refine ⟨k + 1, z, by omega, ?_, hIz, hdone⟩
      show (step x).bind (steps step k) = some z
      rw [hy]
      exact hz

end CatchUp

end Systems
