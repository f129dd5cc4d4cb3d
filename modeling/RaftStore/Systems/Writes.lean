import Mathlib.Data.List.AList
import Mathlib.Data.List.Induction

/-!
# Writes to a map

A write puts a value at a key or takes the key out. After a list of writes a key has what the last write of it has left there.
-/

namespace Systems

variable {κ β : Type*}

/-- A write of one key: the value it puts there, or none where it takes the key out. -/
structure Write (κ β : Type*) where
  key : κ
  value : Option β
  deriving DecidableEq

variable [DecidableEq κ] {k : κ} {m : AList (fun _ : κ => β)} {ws ws' : List (Write κ β)}

/-- The map after a write. -/
def Write.apply (m : AList (fun _ : κ => β)) (w : Write κ β) : AList (fun _ : κ => β) :=
  match w.value with
  | some v => m.insert w.key v
  | none => m.erase w.key

/-- The last write of a key. -/
def lastWrite (k : κ) (ws : List (Write κ β)) : Option (Write κ β) := (ws.filter fun w => w.key = k).getLast?

/-- What a list of writes leaves at a key that had nothing before. -/
def left (k : κ) (ws : List (Write κ β)) : Option β := (lastWrite k ws).bind Write.value

/-- A write changes the key it is of, and no other. -/
theorem Write.lookup_apply (w : Write κ β) (m : AList (fun _ : κ => β)) (k : κ) :
    (w.apply m).lookup k = if w.key = k then w.value else m.lookup k := by
  unfold Write.apply
  split_ifs with h
  · subst h
    cases w.value <;> simp
  · cases w.value
    · exact AList.lookup_erase_ne (Ne.symm h)
    · exact AList.lookup_insert_ne (Ne.symm h)

/-- After a list of writes a key has what the last write of it has left, or what it had where there is none. -/
theorem lookup_foldl_apply (ws : List (Write κ β)) (m : AList (fun _ : κ => β)) (k : κ) :
    (ws.foldl Write.apply m).lookup k = ((lastWrite k ws).map Write.value).getD (m.lookup k) := by
  induction ws using List.reverseRecOn with
  | nil => rfl
  | append_singleton ws w ih =>
    rw [List.foldl_append, List.foldl_cons, List.foldl_nil, Write.lookup_apply, ih]
    unfold lastWrite
    rw [List.filter_append, List.filter_singleton]
    by_cases h : w.key = k <;> simp [h]

/-- A list of writes to the empty map. -/
theorem lookup_foldl_empty (ws : List (Write κ β)) (k : κ) : (ws.foldl Write.apply ∅).lookup k = left k ws := by
  rw [lookup_foldl_apply, left]
  cases lastWrite k ws <;> simp

/-- A key is written in a list exactly where it has a last write there. -/
theorem lastWrite_isSome_iff : (lastWrite k ws).isSome ↔ ∃ w ∈ ws, w.key = k := by
  unfold lastWrite
  rw [List.getLast?_isSome, ← List.length_pos_iff_ne_nil, List.length_pos_iff_exists_mem]
  simp only [List.mem_filter, decide_eq_true_eq]

/-- Writes that are made once more before all of them change nothing in what all of them leave. -/
theorem lookup_foldl_again {ps : List (Write κ β)} (h : ps <+: ws) (m : AList (fun _ : κ => β)) (k : κ) :
    (ws.foldl Write.apply (ps.foldl Write.apply m)).lookup k = (ws.foldl Write.apply m).lookup k := by
  rw [lookup_foldl_apply, lookup_foldl_apply ps, lookup_foldl_apply ws]
  cases hw : lastWrite k ws with
  | some w => rfl
  | none =>
    -- a key that is not written at all is not written before
    have hnone : lastWrite k ps = none := by
      rw [Option.eq_none_iff_forall_not_mem]
      intro w hp
      obtain ⟨w', hw', hk⟩ := lastWrite_isSome_iff.mp (Option.isSome_iff_exists.mpr ⟨w, hp⟩)
      have hsome := lastWrite_isSome_iff.mpr ⟨w', h.subset hw', hk⟩
      rw [hw] at hsome
      cases hsome
    rw [hnone]
    rfl

/-- Two lists that write the same keys make the same of a map exactly where the last write of every key is the same in both. -/
theorem lookup_foldl_eq_iff (hk : ∀ k, (∃ w ∈ ws, w.key = k) ↔ ∃ w ∈ ws', w.key = k) (m : AList (fun _ : κ => β)) :
    (∀ k, (ws.foldl Write.apply m).lookup k = (ws'.foldl Write.apply m).lookup k) ↔
      ∀ k, (lastWrite k ws).map Write.value = (lastWrite k ws').map Write.value := by
  refine forall_congr' fun k => ?_
  rw [lookup_foldl_apply, lookup_foldl_apply]
  have hsome := hk k
  rw [← lastWrite_isSome_iff, ← lastWrite_isSome_iff] at hsome
  cases hw : lastWrite k ws <;> cases hw' : lastWrite k ws' <;> simp [hw, hw'] at hsome ⊢

end Systems
