import Mathlib.Data.Nat.Digits.Lemmas
import Mathlib.Tactic.Ring
import Mathlib.Tactic.Linarith

/-!
# Numerals that are read digit by digit

A reader keeps a number, and takes each digit in by multiplying the number by the base and adding the digit. The number only grows, so
it stays below a bound all the way exactly when it ends below it, and that is seen from the digits behind the leading zeros.
-/

namespace Systems

variable {α β : Type*}

/-- The number after the digits are taken in, the highest first. -/
def numeral (b v : ℕ) (ds : List ℕ) : ℕ := ds.foldl (fun v d => v * b + d) v

/-- A text of at most `n` letters, or of one more with a first letter that is allowed there. -/
def Leading (p : α → Prop) (n : ℕ) (l : List α) : Prop := l.length ≤ n ∨ l.length = n + 1 ∧ ∀ x ∈ l.head?, p x

instance {p : α → Prop} [DecidablePred p] {n : ℕ} {l : List α} : Decidable (Leading p n l) :=
  inferInstanceAs (Decidable (l.length ≤ n ∨ l.length = n + 1 ∧ ∀ x ∈ l.head?, p x))

/-- Letter by letter into another alphabet, where the same first letters are allowed. -/
theorem leading_map {p : α → Prop} {q : β → Prop} {n : ℕ} {f : α → β} {l : List α} (h : ∀ x ∈ l.head?, q (f x) ↔ p x) :
    Leading q n (l.map f) ↔ Leading p n l := by
  cases l with
  | nil => simp [Leading]
  | cons x l => simp [Leading, h x rfl]

theorem numeral_nil (b v : ℕ) : numeral b v [] = v := rfl

theorem numeral_cons (b v d : ℕ) (ds : List ℕ) : numeral b v (d :: ds) = numeral b (v * b + d) ds := rfl

/-- The number only grows. -/
theorem le_numeral {b : ℕ} (hb : 0 < b) (v : ℕ) (ds : List ℕ) : v ≤ numeral b v ds := by
  induction ds generalizing v with
  | nil => exact Nat.le_refl v
  | cons d ds ih =>
    rw [numeral_cons]
    exact le_trans (le_trans (Nat.le_mul_of_pos_right v hb) (Nat.le_add_right _ _)) (ih _)

/-- Each digit moves what came before it up by one place. -/
theorem numeral_eq (b v : ℕ) (ds : List ℕ) : numeral b v ds = v * b ^ ds.length + Nat.ofDigits b ds.reverse := by
  induction ds generalizing v with
  | nil => rw [numeral_nil, List.length_nil, pow_zero, mul_one, List.reverse_nil, Nat.ofDigits_nil, add_zero]
  | cons d ds ih =>
    rw [numeral_cons, ih, Nat.ofDigits_reverse_cons, List.length_cons]
    ring

/-- The digits alone are less than one at the place before them. -/
theorem ofDigits_reverse_lt {b : ℕ} (hb : 1 < b) {ds : List ℕ} (h : ∀ d ∈ ds, d < b) : Nat.ofDigits b ds.reverse < b ^ ds.length := by
  rw [← List.length_reverse]
  exact Nat.ofDigits_lt_base_pow_length hb fun d hd => h d (List.mem_reverse.mp hd)

/-- Leading zeros take no part in the number. -/
theorem numeral_dropWhile (b : ℕ) (ds : List ℕ) : numeral b 0 (ds.dropWhile (· = 0)) = numeral b 0 ds := by
  induction ds with
  | nil => rfl
  | cons d ds ih =>
    by_cases h : d = 0
    · subst h
      rw [List.dropWhile_cons_of_pos (by simp), ih, numeral_cons, Nat.zero_mul]
    · rw [List.dropWhile_cons_of_neg (by simp [h])]

/-- A number is below `h` at place `n` exactly when the digits behind its leading zeros reach at most that far. -/
theorem numeral_lt_iff {b h : ℕ} (n : ℕ) (hb : 1 < b) (hpos : 0 < h) (hle : h ≤ b) {ds : List ℕ} (hds : ∀ d ∈ ds, d < b) :
    numeral b 0 ds < h * b ^ n ↔ Leading (· < h) n (ds.dropWhile (· = 0)) := by
  have hmem : ∀ d ∈ ds.dropWhile (· = 0), d < b := fun d hd => hds d ((List.dropWhile_sublist _).mem hd)
  have hhead : ∀ d ∈ (ds.dropWhile (· = 0)).head?, d ≠ 0 := by
    intro d hd
    have hnot := List.head?_dropWhile_not (p := fun d : ℕ => decide (d = 0)) ds
    rw [hd] at hnot
    simpa using hnot
  rw [← numeral_dropWhile]
  cases he : ds.dropWhile (· = 0) with
  | nil =>
    refine ⟨fun _ => Or.inl (Nat.zero_le n), fun _ => ?_⟩
    exact Nat.mul_pos hpos (Nat.pow_pos (by omega))
  | cons d es =>
    rw [he] at hmem hhead
    have hd : 0 < d := Nat.pos_of_ne_zero (hhead d rfl)
    have hlow := ofDigits_reverse_lt hb fun x hx => hmem x (List.mem_cons_of_mem _ hx)
    have hval : numeral b 0 (d :: es) = d * b ^ es.length + Nat.ofDigits b es.reverse := by
      rw [numeral_cons, Nat.zero_mul, Nat.zero_add, numeral_eq]
    rw [hval]
    rcases Nat.lt_trichotomy es.length n with hlt | heq | hgt
    · -- a digit less than there is room for: the number is below one at place `n`
      have hpow : b ^ (es.length + 1) ≤ b ^ n := Nat.pow_le_pow_right (by omega) hlt
      have hdb : d + 1 ≤ b := hmem d List.mem_cons_self
      have hup : (d + 1) * b ^ es.length ≤ b ^ (es.length + 1) := by
        rw [pow_succ, Nat.mul_comm _ b]
        exact Nat.mul_le_mul_right _ hdb
      refine ⟨fun _ => Or.inl hlt, fun _ => ?_⟩
      calc d * b ^ es.length + Nat.ofDigits b es.reverse < (d + 1) * b ^ es.length := by rw [Nat.add_one_mul]; omega
        _ ≤ b ^ n := le_trans hup hpow
        _ ≤ h * b ^ n := Nat.le_mul_of_pos_left _ hpos
    · subst heq
      constructor
      · intro hnum
        refine Or.inr ⟨rfl, fun x hx => ?_⟩
        cases hx
        exact Nat.lt_of_mul_lt_mul_right (lt_of_le_of_lt (Nat.le_add_right _ _) hnum)
      · intro hlead
        have hdh : d + 1 ≤ h := by
          rcases hlead with hshort | ⟨_, hfirst⟩
          · exact absurd hshort (by rw [List.length_cons]; omega)
          · exact hfirst d rfl
        calc d * b ^ es.length + Nat.ofDigits b es.reverse < (d + 1) * b ^ es.length := by rw [Nat.add_one_mul]; omega
          _ ≤ h * b ^ es.length := Nat.mul_le_mul_right _ hdh
    · -- a digit more: the number is at least one at place `n + 1`
      have hpow : b ^ (n + 1) ≤ b ^ es.length := Nat.pow_le_pow_right (by omega) hgt
      constructor
      · intro hnum
        have hge : h * b ^ n ≤ d * b ^ es.length := by
          calc h * b ^ n ≤ b ^ (n + 1) := by rw [pow_succ, Nat.mul_comm _ b]; exact Nat.mul_le_mul_right _ hle
            _ ≤ b ^ es.length := hpow
            _ ≤ d * b ^ es.length := Nat.le_mul_of_pos_left _ hd
        omega
      · rintro (hshort | ⟨hlen, _⟩)
        · rw [List.length_cons] at hshort
          omega
        · rw [List.length_cons] at hlen
          omega

end Systems
