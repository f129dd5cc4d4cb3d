import Mathlib.Data.List.Basic

/-!
# Programs with scoped locks

What a thread does to its mutexes: a mutex is held over a scope and given back where the scope is left, also by a return or an
exception. A thread is safe when it never takes a mutex that it holds, and takes mutexes in the order of their ranks; whether all
runs of a program are safe can be read off the program.
-/

namespace Systems

/-- What a thread does to a mutex. -/
inductive LockOp (μ : Type*) where
  | acquire (m : μ)
  | release (m : μ)
  deriving DecidableEq

/-- The mutexes that a thread takes. `lockGuard`: held while the rest is done; `attempt`: what leaves the rest ends here, as at a
`catch` or at the end of a called function. -/
inductive LockProg (μ : Type*) where
  | skip
  | lockGuard (m : μ) (p : LockProg μ)
  | seq (p q : LockProg μ)
  | choice (p q : LockProg μ)
  | loop (p : LockProg μ)
  | attempt (p : LockProg μ)

namespace LockProg

variable {μ : Type*}

/-- It may be done or not. -/
def maybe (p : LockProg μ) : LockProg μ := choice p skip

/-- One thing after the other. -/
def block : List (LockProg μ) → LockProg μ
  | [] => skip
  | p :: ps => seq p (block ps)

/-- The runs of a program: what is done to the mutexes, and whether the program was left before its end. Any program may be left at
any time. -/
inductive Exec : LockProg μ → List (LockOp μ) → Bool → Prop where
  | leave (p : LockProg μ) : Exec p [] true
  | skip : Exec skip [] false
  | lockGuard {m : μ} {p : LockProg μ} {t : List (LockOp μ)} {b : Bool} :
      Exec p t b → Exec (lockGuard m p) (.acquire m :: (t ++ [.release m])) b
  | seq {p q : LockProg μ} {t u : List (LockOp μ)} {b : Bool} : Exec p t false → Exec q u b → Exec (seq p q) (t ++ u) b
  | seqLeft {p q : LockProg μ} {t : List (LockOp μ)} : Exec p t true → Exec (seq p q) t true
  | left {p q : LockProg μ} {t : List (LockOp μ)} {b : Bool} : Exec p t b → Exec (choice p q) t b
  | right {p q : LockProg μ} {t : List (LockOp μ)} {b : Bool} : Exec q t b → Exec (choice p q) t b
  | loopEnd {p : LockProg μ} : Exec (loop p) [] false
  | loopTurn {p : LockProg μ} {t u : List (LockOp μ)} {b : Bool} :
      Exec p t false → Exec (loop p) u b → Exec (loop p) (t ++ u) b
  | loopLeft {p : LockProg μ} {t : List (LockOp μ)} : Exec p t true → Exec (loop p) t true
  | attempt {p : LockProg μ} {t : List (LockOp μ)} {b : Bool} : Exec p t b → Exec (attempt p) t false

/-- Every program can run to its end. -/
theorem exists_exec (p : LockProg μ) : ∃ t, p.Exec t false := by
  induction p with
  | skip => exact ⟨[], .skip⟩
  | lockGuard m p ih =>
    obtain ⟨t, ht⟩ := ih
    exact ⟨_, ht.lockGuard⟩
  | seq p q ihp ihq =>
    obtain ⟨t, ht⟩ := ihp
    obtain ⟨u, hu⟩ := ihq
    exact ⟨_, ht.seq hu⟩
  | choice p q ihp _ =>
    obtain ⟨t, ht⟩ := ihp
    exact ⟨t, ht.left⟩
  | loop p _ => exact ⟨[], .loopEnd⟩
  | attempt p ih =>
    obtain ⟨t, ht⟩ := ih
    exact ⟨t, ht.attempt⟩

variable [DecidableEq μ] {rank : μ → ℕ} {held : List μ} {p : LockProg μ} {t u : List (LockOp μ)} {b : Bool}

/-- No mutex is taken that is held, and each one that is taken has a higher rank than those held. -/
def Safe (rank : μ → ℕ) : List μ → List (LockOp μ) → Prop
  | _, [] => True
  | held, .acquire m :: t => (m ∉ held ∧ ∀ k ∈ held, rank k < rank m) ∧ Safe rank (m :: held) t
  | held, .release m :: t => Safe rank (held.erase m) t

/-- The mutexes that are held afterwards. -/
def heldAfter : List μ → List (LockOp μ) → List μ
  | held, [] => held
  | held, .acquire m :: t => heldAfter (m :: held) t
  | held, .release m :: t => heldAfter (held.erase m) t

/-- The same as `Safe` of all runs, read off the program. -/
def check (rank : μ → ℕ) : List μ → LockProg μ → Prop
  | _, skip => True
  | held, lockGuard m p => (m ∉ held ∧ ∀ k ∈ held, rank k < rank m) ∧ check rank (m :: held) p
  | held, seq p q => check rank held p ∧ check rank held q
  | held, choice p q => check rank held p ∧ check rank held q
  | held, loop p => check rank held p
  | held, attempt p => check rank held p

instance decidableCheck (rank : μ → ℕ) : ∀ (held : List μ) (p : LockProg μ), Decidable (check rank held p)
  | _, skip => instDecidableTrue
  | held, lockGuard m p =>
    have := decidableCheck rank (m :: held) p
    inferInstanceAs (Decidable ((m ∉ held ∧ ∀ k ∈ held, rank k < rank m) ∧ check rank (m :: held) p))
  | held, seq p q =>
    have := decidableCheck rank held p
    have := decidableCheck rank held q
    inferInstanceAs (Decidable (check rank held p ∧ check rank held q))
  | held, choice p q =>
    have := decidableCheck rank held p
    have := decidableCheck rank held q
    inferInstanceAs (Decidable (check rank held p ∧ check rank held q))
  | held, loop p => decidableCheck rank held p
  | held, attempt p => decidableCheck rank held p

theorem safe_append : Safe rank held (t ++ u) ↔ Safe rank held t ∧ Safe rank (heldAfter held t) u := by
  induction t generalizing held with
  | nil => simp [Safe, heldAfter]
  | cons op t ih =>
    cases op with
    | acquire m => simp only [List.cons_append, Safe, heldAfter, ih, and_assoc]
    | release m => simp only [List.cons_append, Safe, heldAfter, ih]

theorem heldAfter_append : heldAfter held (t ++ u) = heldAfter (heldAfter held t) u := by
  induction t generalizing held with
  | nil => rfl
  | cons op t ih =>
    cases op with
    | acquire m => simp only [List.cons_append, heldAfter, ih]
    | release m => simp only [List.cons_append, heldAfter, ih]

/-- A run of a program that passes the check is safe, and gives back what it takes. -/
theorem Exec.safe (h : p.Exec t b) {held : List μ} (hc : p.check rank held) : Safe rank held t ∧ heldAfter held t = held := by
  induction h generalizing held with
  | leave p => exact ⟨trivial, rfl⟩
  | skip => exact ⟨trivial, rfl⟩
  | @lockGuard m p t b _ ih =>
    obtain ⟨hs, ha⟩ := ih hc.2
    refine ⟨⟨hc.1, safe_append.mpr ⟨hs, trivial⟩⟩, ?_⟩
    show heldAfter (m :: held) (t ++ [.release m]) = held
    rw [heldAfter_append, ha]
    exact List.erase_cons_head m held
  | seq _ _ ih ih' =>
    obtain ⟨hs, ha⟩ := ih hc.1
    obtain ⟨hs', ha'⟩ := ih' hc.2
    rw [heldAfter_append, safe_append, ha]
    exact ⟨⟨hs, hs'⟩, ha'⟩
  | seqLeft _ ih => exact ih hc.1
  | left _ ih => exact ih hc.1
  | right _ ih => exact ih hc.2
  | loopEnd => exact ⟨trivial, rfl⟩
  | loopTurn _ _ ih ih' =>
    obtain ⟨hs, ha⟩ := ih hc
    obtain ⟨hs', ha'⟩ := ih' hc
    rw [heldAfter_append, safe_append, ha]
    exact ⟨⟨hs, hs'⟩, ha'⟩
  | loopLeft _ ih => exact ih hc
  | attempt _ ih => exact ih hc

/-- A program whose runs are all safe passes the check. -/
theorem check_of_safe (h : ∀ t b, p.Exec t b → Safe rank held t) : p.check rank held := by
  induction p generalizing held with
  | skip => trivial
  | lockGuard m p ih =>
    refine ⟨(h _ _ (Exec.leave p).lockGuard).1, ih fun t b ht => ?_⟩
    exact (safe_append.mp (h _ _ ht.lockGuard).2).1
  | seq p q ihp ihq =>
    have hp : p.check rank held := ihp fun t b ht => by
      cases b with
      | true => exact h _ _ ht.seqLeft
      | false => exact (safe_append.mp (h _ _ (ht.seq (.leave q)))).1
    refine ⟨hp, ihq fun u b hu => ?_⟩
    obtain ⟨t, ht⟩ := p.exists_exec
    have hsafe := (safe_append.mp (h _ _ (ht.seq hu))).2
    rwa [(ht.safe hp).2] at hsafe
  | choice p q ihp ihq => exact ⟨ihp fun t b ht => h t b ht.left, ihq fun t b ht => h t b ht.right⟩
  | loop p ih =>
    refine ih fun t b ht => ?_
    cases b with
    | true => exact h _ _ ht.loopLeft
    | false => exact (safe_append.mp (h _ _ (ht.loopTurn .loopEnd))).1
  | attempt p ih => exact ih fun t b ht => h t false ht.attempt

/-- All runs of a program are safe if and only if it passes the check. -/
theorem safe_iff_check : (∀ t b, p.Exec t b → Safe rank held t) ↔ p.check rank held :=
  ⟨check_of_safe, fun hc _ _ ht => (ht.safe hc).1⟩

end LockProg

end Systems
