import RaftStore.Conditions

/-!
# What a message does to the log

The insertion of the entries of a message, by global indices: the entries take the place of the log from the first one on where
that one conflicts, nothing happens where it does not, and only what lies beyond the log is appended where there is none to
compare it with.
-/

namespace RaftStore

namespace RaftNode

variable {n : RaftNode} {m : AppendEntriesRPC} {p : ℕ}

/-- The loop that appends the entries of a message appends those that lie beyond the log. -/
theorem foldl_pushEntry_full {es : List LogEntry} (hc : (n.covered.length : ℤ) = n.baseIndex) (hp : Placed p es)
    (hle : p ≤ n.full.length) : (es.foldl pushEntry n).full = n.full ++ es.drop (n.full.length - p) := by
  induction es generalizing n p with
  | nil => simp
  | cons e es ih =>
    have hlen : n.full.length = n.covered.length + n.log.length := List.length_append
    have he : e.index = p := by simpa using (hp 0 e rfl).1
    have hes : Placed (p + 1) es := hp.drop 1
    rw [List.foldl_cons]
    by_cases hpush : (n.log.length : ℤ) ≤ n.logIdx e.index
    · have hpe : pushEntry n e = n.appendLogEntry e := if_pos hpush
      have hfull : (n.appendLogEntry e).full = n.full ++ [e] := (List.append_assoc _ _ _).symm
      rw [logIdx_eq, he] at hpush
      have heq : n.full.length = p := by omega
      rw [hpe, ih (n := n.appendLogEntry e) hc hes (by rw [hfull, List.length_append]; simp [heq]), hfull]
      simp [heq]
    · have hpe : pushEntry n e = n := if_neg hpush
      rw [logIdx_eq, he] at hpush
      rw [hpe, ih hc hes (by omega)]
      congr 1
      rw [show n.full.length - p = n.full.length - (p + 1) + 1 by omega, List.drop_succ_cons]

namespace Aligned

variable (h : n.Aligned)

include h

/-- What the check on `prevLogIndex` and `prevLogTerm` finds. -/
theorem prevMatches_full (hprev : 0 ≤ m.prevLogIndex) (hm : n.prevMatches m = true) :
    n.baseIndex ≤ m.prevLogIndex + 1 ∧ ∃ e, n.full[m.prevLogIndex.toNat]? = some e ∧ e.term = m.prevLogTerm := by
  have hentry {i : ℤ} (hi : n.baseIndex ≤ i) (ht : ((n.entryAt (n.logIdx i)).map
      (fun e => decide (e.term = m.prevLogTerm))).getD false = true) :
      ∃ e, n.full[i.toNat]? = some e ∧ e.term = m.prevLogTerm := by
    rw [h.entryAt_logIdx hi] at ht
    cases he : n.full[i.toNat]? with
    | none => simp [he] at ht
    | some e => exact ⟨e, rfl, by simpa [he] using ht⟩
  unfold prevMatches at hm
  rw [if_pos hprev] at hm
  split at hm
  · next s hs =>
    have hb : n.baseIndex = s.lastIncludedIndex + 1 := by simp [baseIndex, hs]
    split at hm
    · cases hm
    · split at hm
      · next heq =>
        obtain ⟨e, he, ht⟩ := h.term_lastIncluded hs
        exact ⟨by omega, e, heq ▸ he, ht.trans (of_decide_eq_true hm).symm⟩
      · exact ⟨by omega, hentry (by omega) hm⟩
  · next hs =>
    have hb : n.baseIndex = 0 := by simp [baseIndex, hs]
    exact ⟨by omega, hentry (by omega) hm⟩

/-- The place of the first new entry: below the end of the log, and above the snapshot unless it is the first of all. -/
theorem prevMatches_place (hprev : m.prevLogIndex + 1 = p) (hm : n.prevMatches m = true) :
    p ≤ n.full.length ∧ (p = 0 ∨ n.baseIndex ≤ p) := by
  by_cases h0 : 0 ≤ m.prevLogIndex
  · obtain ⟨hb, e, he, _⟩ := h.prevMatches_full h0 hm
    have := (List.getElem?_eq_some_iff.mp he).1
    exact ⟨by omega, Or.inr (by omega)⟩
  · obtain rfl : p = 0 := by omega
    exact ⟨Nat.zero_le _, Or.inl rfl⟩

omit h in
/-- The first new entry is compared with the entry in its place, where there are both. -/
theorem firstMatches_eq {b : Bool} (hf : n.firstMatches m = some b) : ∃ e f, m.entries.head? = some f ∧
    n.entryAt (n.logIdx (m.prevLogIndex + 1)) = some e ∧ b = decide (e.term = f.term) := by
  unfold firstMatches at hf
  split at hf
  · next e f es he hes => exact ⟨e, f, by simp [hes], he, (Option.some.inj hf).symm⟩
  · cases hf

/-- Where both are there, the entry is that of the whole log. -/
theorem firstMatches_full {b : Bool} (hprev : m.prevLogIndex + 1 = p) (hf : n.firstMatches m = some b) :
    n.baseIndex ≤ p ∧ ∃ e f, m.entries.head? = some f ∧ n.full[p]? = some e ∧ b = decide (e.term = f.term) := by
  obtain ⟨e, f, hhead, he, hb⟩ := firstMatches_eq hf
  have hs : 0 ≤ n.logIdx (m.prevLogIndex + 1) := ((n.entryAt_isSome _).mp (by rw [he]; rfl)).1
  rw [logIdx_eq] at hs
  rw [h.entryAt_logIdx (by omega), hprev] at he
  exact ⟨by omega, e, f, hhead, he, hb⟩

omit h in
/-- A conflict: the log is cut before the entries are appended. -/
theorem insertEntries_cut (hf : n.firstMatches m = some false) : n.insertEntries m =
    m.entries.foldl pushEntry { n with log := n.log.take (n.logIdx (m.prevLogIndex + 1)).toNat } := by
  obtain ⟨e, f, hhead, he, hterm⟩ := firstMatches_eq hf
  obtain ⟨es, hes⟩ : ∃ es, m.entries = f :: es := ⟨m.entries.tail, (List.cons_head?_tail hhead).symm⟩
  have hne : e.term ≠ f.term := of_decide_eq_false hterm.symm
  unfold insertEntries
  simp only [he, hes]
  rw [if_pos hne]

omit h in
/-- Nothing to compare: the entries are appended to the log as it is. -/
theorem insertEntries_push (hf : n.firstMatches m = none) : n.insertEntries m = m.entries.foldl pushEntry n := by
  unfold insertEntries
  simp only
  split
  · next e f es he hes => simp [firstMatches, he, hes] at hf
  · rfl

/-- A conflict: the entries take the place of the log from the first one on. -/
theorem insertEntries_conflict (hprev : m.prevLogIndex + 1 = p) (hm : Placed p m.entries)
    (hf : n.firstMatches m = some false) : (n.insertEntries m).full = n.full.take p ++ m.entries := by
  have hc := h.covered_length
  obtain ⟨hb, _, _, _, hplace, _⟩ := h.firstMatches_full hprev hf
  have hlt := (List.getElem?_eq_some_iff.mp hplace).1
  have htake : n.covered ++ n.log.take (n.logIdx (m.prevLogIndex + 1)).toNat = n.full.take p := by
    rw [full, List.take_append, List.take_of_length_le (show n.covered.length ≤ p by omega), logIdx_eq]
    congr 2
    omega
  have hfull : ({ n with log := n.log.take (n.logIdx (m.prevLogIndex + 1)).toNat } : RaftNode).full = n.full.take p :=
    htake
  have hlen : (n.full.take p).length = p := by
    rw [List.length_take]
    omega
  rw [insertEntries_cut hf, foldl_pushEntry_full (n := { n with log := n.log.take (n.logIdx (m.prevLogIndex + 1)).toNat }) hc hm
    (by rw [hfull, hlen]), hfull, hlen, Nat.sub_self, List.drop_zero]

omit h in
/-- The first new entry has the term of the one in its place: nothing happens. -/
theorem insertEntries_skip (hf : n.firstMatches m = some true) : n.insertEntries m = n := by
  obtain ⟨e, f, hhead, he, hterm⟩ := firstMatches_eq hf
  obtain ⟨es, hes⟩ : ∃ es, m.entries = f :: es := ⟨m.entries.tail, (List.cons_head?_tail hhead).symm⟩
  have heq : e.term = f.term := of_decide_eq_true hterm.symm
  unfold insertEntries
  simp only [he, hes]
  rw [if_neg (not_not.mpr heq)]

/-- Nothing to compare: what lies beyond the log is appended. -/
theorem insertEntries_join (hm : Placed p m.entries) (hle : p ≤ n.full.length) (hf : n.firstMatches m = none) :
    (n.insertEntries m).full = n.full ++ m.entries.drop (n.full.length - p) := by
  rw [insertEntries_push hf, foldl_pushEntry_full h.covered_length hm hle]

end Aligned

end RaftNode

end RaftStore
