import Mathlib.Order.WellFounded
import RaftStore.Systems.Runs

/-!
# Endless runs

A trace is a run that never ends. It is fair to a kind of action that is not left out for ever while it can be taken. Something that is
pending comes to an end in every fair trace, if a rank goes down whenever the action that helps is taken, and stays with it until then.
-/

namespace Systems

variable {σ α ι ρ : Type*} {step : σ → α → Option σ}

/-- A run without an end. -/
structure Trace (step : σ → α → Option σ) where
  state : ℕ → σ
  action : ℕ → α
  next : ∀ n, step (state n) (action n) = some (state (n + 1))

namespace Trace

variable {tr : Trace step}

/-- What holds at the start and is kept by every step holds at all times. -/
theorem invariant {I : σ → Prop} (hstep : ∀ x a y, I x → step x a = some y → I y) (h : I (tr.state 0)) (n : ℕ) : I (tr.state n) := by
  induction n with
  | zero => exact h
  | succ n ih => exact hstep _ _ _ ih (tr.next n)

/-- Again and again an action of the kind `moves` is taken, or cannot be taken. -/
def Fair (tr : Trace step) (able : σ → Prop) (moves : α → Prop) : Prop :=
  ∀ n, ∃ m, n ≤ m ∧ (able (tr.state m) → moves (tr.action m))

variable {able : ι → σ → Prop} {moves : ι → α → Prop} [Preorder ρ] {helps : σ → ι} {rank : σ → ρ} {pending : σ → Prop} {n : ℕ}

/-- While the rank stays, so does the kind of action that helps. -/
theorem rank_or_helps (hpending : ∀ m, n ≤ m → pending (tr.state m))
    (hstep : ∀ m, pending (tr.state m) → pending (tr.state (m + 1)) → rank (tr.state (m + 1)) < rank (tr.state m) ∨
      rank (tr.state (m + 1)) = rank (tr.state m) ∧ helps (tr.state (m + 1)) = helps (tr.state m) ∧
        ¬moves (helps (tr.state m)) (tr.action m)) (d : ℕ) :
    (∃ m, n ≤ m ∧ rank (tr.state m) < rank (tr.state n)) ∨
      rank (tr.state (n + d)) = rank (tr.state n) ∧ helps (tr.state (n + d)) = helps (tr.state n) := by
  induction d with
  | zero => exact .inr ⟨rfl, rfl⟩
  | succ d ih =>
    rcases ih with hlower | ⟨hrank, hhelps⟩
    · exact .inl hlower
    · rcases hstep (n + d) (hpending _ (by omega)) (hpending _ (by omega)) with hlt | ⟨hrank', hhelps', _⟩
      · exact .inl ⟨n + d + 1, by omega, hlt.trans_eq hrank⟩
      · exact .inr ⟨hrank'.trans hrank, hhelps'.trans hhelps⟩

/-- What is pending comes to an end, where each step lowers the rank, or leaves it and is none that helps. -/
theorem eventually_not [WellFoundedLT ρ] (pending : σ → Prop) (helps : σ → ι) (rank : σ → ρ)
    (hfair : ∀ i, tr.Fair (able i) (moves i))
    (hable : ∀ m, pending (tr.state m) → able (helps (tr.state m)) (tr.state m))
    (hstep : ∀ m, pending (tr.state m) → pending (tr.state (m + 1)) → rank (tr.state (m + 1)) < rank (tr.state m) ∨
      rank (tr.state (m + 1)) = rank (tr.state m) ∧ helps (tr.state (m + 1)) = helps (tr.state m) ∧
        ¬moves (helps (tr.state m)) (tr.action m)) (n : ℕ) : ∃ m, n ≤ m ∧ ¬pending (tr.state m) := by
  by_contra hall
  push Not at hall
  -- a rank that goes down for ever
  have hlower (m : ℕ) (hm : n ≤ m) : ∃ k, m ≤ k ∧ rank (tr.state k) < rank (tr.state m) := by
    have hpending (k : ℕ) (hk : m ≤ k) : pending (tr.state k) := hall k (hm.trans hk)
    obtain ⟨k, hk, hmoves⟩ := hfair (helps (tr.state m)) m
    obtain ⟨d, rfl⟩ := Nat.exists_eq_add_of_le hk
    rcases rank_or_helps hpending hstep d with hlt | ⟨hrank, hhelps⟩
    · exact hlt
    · have hmove := hmoves (hhelps ▸ hable _ (hpending _ hk))
      rcases hstep (m + d) (hpending _ hk) (hpending _ (by omega)) with hlt | ⟨_, _, hno⟩
      · exact ⟨m + d + 1, by omega, hlt.trans_eq hrank⟩
      · exact absurd (hhelps ▸ hmove) hno
  have hnone (r : ρ) : ∀ m, n ≤ m → rank (tr.state m) ≠ r := by
    induction r using WellFoundedLT.induction with
    | ind r ih =>
      rintro m hm rfl
      obtain ⟨k, hk, hlt⟩ := hlower m hm
      exact ih _ hlt k (hm.trans hk) rfl
  exact hnone _ n le_rfl rfl

/-- Something that is pending and comes to an end does so in one step. -/
theorem exists_last {m : ℕ} (hnm : n ≤ m) (hn : pending (tr.state n)) (hm : ¬pending (tr.state m)) :
    ∃ k, n ≤ k ∧ pending (tr.state k) ∧ ¬pending (tr.state (k + 1)) := by
  induction m, hnm using Nat.le_induction with
  | base => exact absurd hn hm
  | succ m hle ih =>
    by_cases hp : pending (tr.state m)
    · exact ⟨m, hle, hp, hm⟩
    · exact ih hp

/-- A choice of actions that can always be taken where `I` holds, and that keeps it, makes a trace. -/
theorem exists_follow {I : σ → Prop} {f : σ → α} (hI : ∀ x, I x → ∃ y, step x (f x) = some y ∧ I y) {x : σ} (hx : I x) :
    ∃ tr : Trace step, tr.state 0 = x ∧ ∀ n, I (tr.state n) ∧ tr.action n = f (tr.state n) := by
  choose! g hstep hkeep using hI
  have hinv (n : ℕ) : I (g^[n] x) := by
    induction n with
    | zero => exact hx
    | succ n ih =>
      rw [Function.iterate_succ_apply']
      exact hkeep _ ih
  refine ⟨⟨fun n => g^[n] x, fun n => f (g^[n] x), fun n => ?_⟩, rfl, fun n => ⟨hinv n, rfl⟩⟩
  rw [Function.iterate_succ_apply']
  exact hstep _ (hinv n)

end Trace

end Systems
