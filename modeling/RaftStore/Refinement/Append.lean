import RaftStore.Refinement.Logs

/-!
# AppendEntries and the chains

What the AppendEntries handler does to a log, seen in the abstract protocol: a message that is accepted brings a piece of the
chain of its term, and the log becomes that chain up to the end of the message or stays as it is. The code looks at one entry
only: that the rest agrees is what matching logs are for, and where it skips entries it has not compared, the conditions on
the run say that it has them.
-/

namespace RaftStore

open Consensus Cluster

variable {N : ℕ} {strict bound : Prop} {a b : Global N} {v : Fin N} {n : RaftNode} {m : AppendEntriesRPC}

namespace RaftNode

/-- The places of an accepted message: where its entries begin and end in the chain of its term, and that the log of the node
agrees with the chain up to where they begin. -/
structure Accepted (C : List LogEntry) (n : RaftNode) (m : AppendEntriesRPC) (p q : ℕ) : Prop where
  first : m.prevLogIndex + 1 = p
  last : m.reach + 1 = q
  place : p ≤ n.full.length
  base : p = 0 ∨ n.baseIndex ≤ p
  le : q ≤ C.length
  length : p + m.entries.length = q
  entries : C.take q = C.take p ++ m.entries
  agree : SameTermAt LogEntry.term n.full C p

/-- An AppendEntries message of the cluster that passes the check. -/
theorem Aligned.accepted (h : n.Aligned) (hm : AppendRel bound a m) (hp : n.prevMatches m = true) :
    ∃ p q, Accepted (a.chain m.term) n m p q := by
  obtain ⟨p, hfirst, hes, hprev⟩ := hm.entries
  obtain ⟨hle, hbase⟩ := h.prevMatches_place hfirst hp
  have hagree : SameTermAt LogEntry.term n.full (a.chain m.term) p ∧ p ≤ (a.chain m.term).length := by
    rcases Nat.eq_zero_or_pos p with rfl | hpos
    · exact ⟨Or.inl rfl, Nat.zero_le _⟩
    · obtain ⟨_, e, he, ht⟩ := h.prevMatches_full (by omega) hp
      rw [show m.prevLogIndex.toNat = p - 1 by omega] at he
      have hterm := (h.placed (p - 1) e he).2
      obtain ⟨e', he', ht'⟩ := hprev (by omega) hpos
      have := (List.getElem?_eq_some_iff.mp he').1
      exact ⟨Or.inr ⟨e, e', he, he', ht.trans ht'.symm⟩, by omega⟩
  have hlen := hes.length_le
  rw [List.length_drop] at hlen
  have htake := List.prefix_iff_eq_take.mp hes
  refine ⟨p, p + m.entries.length, hfirst, ?_, hle, hbase, by omega, rfl, ?_, hagree.1⟩
  · show m.prevLogIndex + m.entries.length + 1 = _
    push_cast
    omega
  · rw [List.take_add, ← htake]

namespace Accepted

variable {C : List LogEntry} {p q : ℕ}

/-- The last entry of the message is the one of the chain in its place. -/
theorem getLast (h : Accepted C n m p q) (hne : m.entries ≠ []) : ∃ e, m.entries.getLast? = some e ∧ C[q - 1]? = some e := by
  have hpos : 0 < m.entries.length := List.length_pos_iff.mpr hne
  have hq := h.length
  have hle := h.le
  obtain ⟨e, he⟩ : ∃ e, m.entries.getLast? = some e := ⟨_, List.getLast?_eq_some_getLast hne⟩
  refine ⟨e, he, ?_⟩
  rw [List.getLast?_eq_getElem?] at he
  have htake : (C.take p).length = p := by
    rw [List.length_take]
    omega
  rw [← List.getElem?_take_of_lt (show q - 1 < q by omega), h.entries, List.getElem?_append_right (by omega), htake, ← he]
  congr 1
  omega

/-- The first entry of the message is the one of the chain in its place. -/
theorem head (h : Accepted C n m p q) {f : LogEntry} (hf : m.entries.head? = some f) : p < q ∧ C[p]? = some f := by
  have hpos : 0 < m.entries.length := List.length_pos_iff.mpr (by rintro hnil; simp [hnil] at hf)
  have hq := h.length
  have hle := h.le
  have htake : (C.take p).length = p := by
    rw [List.length_take]
    omega
  refine ⟨by omega, ?_⟩
  rw [← List.getElem?_take_of_lt (show p < q by omega), h.entries, List.getElem?_append_right (by omega), htake,
    Nat.sub_self, ← List.head?_eq_getElem?, hf]

/-- A node that holds the last entry of the message agrees with the chain up to it. -/
theorem agree_last (h : Accepted C n m p q) (hn : n.Aligned) (hm : Placed p m.entries) (hl : n.holdsLast m) :
    SameTermAt LogEntry.term n.full C q := by
  have hq := h.length
  have hlast := h.last
  by_cases hne : m.entries = []
  · rw [hne, List.length_nil, Nat.add_zero] at hq
    exact hq ▸ h.agree
  · obtain ⟨e, he, hCe⟩ := h.getLast hne
    have hterm := hl e he
    have hpos := hm.term_pos (List.mem_of_getLast? he)
    obtain ⟨h0, _, e', he', ht'⟩ := hn.getLogTerm_ne (i := m.reach) (by omega)
    rw [show m.reach.toNat = q - 1 by omega] at he'
    exact Or.inr ⟨e', e, he', hCe, ht'.trans hterm⟩

/-- A conflict at the first new entry is a conflict at the last. -/
theorem not_agree (h : Accepted C n m p q) (hn : n.Aligned) (hf : n.firstMatches m = some false)
    (heq : n.full.take q = C.take q) : False := by
  obtain ⟨_, e, f, hhead, he, hterm⟩ := hn.firstMatches_full h.first hf
  obtain ⟨hlt, hCf⟩ := h.head hhead
  have h1 : (n.full.take q)[p]? = (C.take q)[p]? := by rw [heq]
  rw [List.getElem?_take_of_lt hlt, List.getElem?_take_of_lt hlt, he, hCf] at h1
  exact of_decide_eq_false hterm.symm (congrArg LogEntry.term (Option.some.inj h1))

/-- Without an entry to compare, the log ends where the message begins, or a snapshot of the node reaches beyond that. -/
theorem join_base (h : Accepted C n m p q) (hn : n.Aligned) (hf : n.firstMatches m = none)
    (hlt : p < n.full.length) (hne : m.entries ≠ []) : m.prevLogIndex < 0 ∧ n.latestSnapshot ≠ none := by
  obtain ⟨f, es, hes⟩ : ∃ f es, m.entries = f :: es := List.exists_cons_of_ne_nil hne
  have hnone : n.entryAt (n.logIdx (m.prevLogIndex + 1)) = none := by
    cases he : n.entryAt (n.logIdx (m.prevLogIndex + 1)) with
    | none => rfl
    | some e => simp [firstMatches, he, hes] at hf
  have hnot : ¬(n.entryAt (n.logIdx (m.prevLogIndex + 1))).isSome := by simp [hnone]
  have hc := hn.covered_length
  have hlen : n.full.length = n.covered.length + n.log.length := List.length_append
  rw [entryAt_isSome, logIdx_eq, h.first] at hnot
  have hbase : (p : ℤ) < n.baseIndex := by omega
  have hfirst := h.first
  obtain rfl : p = 0 := h.base.resolve_right (by omega)
  refine ⟨by omega, fun hs => ?_⟩
  have hb : n.baseIndex = 0 := by simp [baseIndex, hs]
  omega

end Accepted

/-! ## The log after an accepted message -/

/-- The log of the node after an accepted message, when logs match: the chain up to the end of the message where that lies
beyond the log or conflicts with it, and else as it was. -/
theorem Accepted.acceptEntries {C : List LogEntry} {p q : ℕ} (h : Accepted C n m p q) (hn : n.Aligned)
    (hm : Placed p m.entries) (hprev : n.prevMatches m = true)
    (hmatch : ∀ k, SameTermAt LogEntry.term n.full C k → n.full.take k = C.take k)
    (hjoin : m.prevLogIndex < 0 → n.latestSnapshot ≠ none → n.getLogSize ≤ m.reach →
      ∀ e ∈ m.entries[(n.getLogSize - 1).toNat]?, n.getLogTerm (n.getLogSize - 1) = e.term) :
    ((n.acceptEntries m).full = n.full ∧ (n.firstMatches m = some true ∨ n.firstMatches m = none ∧ q ≤ n.full.length)) ∨
    ((n.acceptEntries m).full = C.take q ∧ (n.firstMatches m = some false ∨ n.full.length ≤ q ∧ n.full <+: C.take q)) := by
  have hacc : (n.acceptEntries m).full = (n.insertEntries m).full := by
    unfold RaftNode.acceptEntries
    rw [if_pos hprev]
    rfl
  have hq := h.length
  have hpe := hmatch p h.agree
  rw [hacc]
  cases hf : n.firstMatches m with
  | some matched =>
    cases matched with
    | true => exact Or.inl ⟨by rw [Aligned.insertEntries_skip hf], Or.inl rfl⟩
    | false => exact Or.inr ⟨by rw [hn.insertEntries_conflict h.first hm hf, hpe, h.entries], Or.inl rfl⟩
  | none =>
    rw [hn.insertEntries_join hm h.place hf]
    by_cases hle : q ≤ n.full.length
    · refine Or.inl ⟨?_, Or.inr ⟨rfl, hle⟩⟩
      rw [List.drop_eq_nil_of_le (by omega), List.append_nil]
    · -- the message reaches beyond the log: the log is a piece of the chain
      have hagree : n.full = C.take n.full.length := by
        rcases h.place.lt_or_eq with hlt | heq
        · have hne : m.entries ≠ [] := by
            rintro hnil
            rw [hnil, List.length_nil] at hq
            omega
          obtain ⟨hneg, hsnap⟩ := h.join_base hn hf hlt hne
          have hsize := hn.getLogSize_eq
          have hlast := h.last
          have hfirst := h.first
          have hc := hn.covered_length
          have hlen : n.full.length = n.covered.length + n.log.length := List.length_append
          have hp0 : p = 0 := by omega
          have hCe : m.entries = C.take q := by
            have := h.entries
            rw [hp0, List.take_zero, List.nil_append] at this
            exact this.symm
          obtain ⟨e, he⟩ : ∃ e, C[n.full.length - 1]? = some e :=
            ⟨_, List.getElem?_eq_getElem (show n.full.length - 1 < C.length by have := h.le; omega)⟩
          have hterm := hjoin hneg hsnap (by omega) e (by
            rw [hCe, show (n.getLogSize - 1).toNat = n.full.length - 1 by omega,
              List.getElem?_take_of_lt (by omega)]
            exact he)
          obtain ⟨e', he'⟩ : ∃ e', n.full[n.full.length - 1]? = some e' :=
            ⟨_, List.getElem?_eq_getElem (by omega)⟩
          have hterm' : n.getLogTerm (n.getLogSize - 1) = e'.term := by
            rw [hn.getLogTerm_eq (by omega) (by omega), show (n.getLogSize - 1).toNat = n.full.length - 1 by omega, he']
            rfl
          have := hmatch n.full.length (Or.inr ⟨e', e, he', he, hterm'.symm.trans hterm⟩)
          rwa [List.take_of_length_le le_rfl] at this
        · have := hpe
          rw [heq, List.take_of_length_le le_rfl] at this
          exact this
      refine Or.inr ⟨?_, Or.inr ⟨by omega, ?_⟩⟩
      · conv_lhs => rw [hagree]
        rw [List.length_take, Nat.min_eq_left (by have := h.le; omega)]
        have hdrop : (C.take q).drop p = m.entries := by
          rw [h.entries, List.drop_left' (by rw [List.length_take]; have := h.le; omega)]
        rw [← hdrop, List.drop_drop, show p + (n.full.length - p) = n.full.length by have := h.place; omega]
        conv_rhs => rw [← List.take_append_drop n.full.length (C.take q)]
        rw [List.take_take, Nat.min_eq_left (by omega)]
      · conv_lhs => rw [hagree]
        exact List.take_prefix_take_left (by omega)

/-! ## The steps of the member -/

variable (strict) in
/-- A node that stays as it is acknowledges what agrees with the chain of its term. -/
theorem follows_keep {w : Fin N} {k : ℕ} (h : RoleRel n.role (a.member v)) (hw : a.winner n.currentTerm = some w)
    (hne : w ≠ v) (hk : k ≤ (a.chain n.currentTerm).length)
    (hm : SameTermAt LogEntry.term (a.member v).log (a.chain n.currentTerm) k) :
    ∃ b, Follows strict v n n a b ∧ (v, n.currentTerm, k) ∈ b.acks := by
  have ht : (a.member v).term = n.currentTerm := h.term
  refine ⟨_, ⟨(Step.keep v w k (ht ▸ hw) hne (ht ▸ hk) (ht ▸ hm)).steps, fun _ _ => rfl, rfl, rfl, h, fun hl => hl⟩, ?_⟩
  rw [← ht]
  exact Set.mem_insert _ _

variable (strict) in
/-- A node that puts a piece of the chain of its term in the place of its log, and writes it to its files. -/
theorem follows_replace {n' : RaftNode} {w : Fin N} {k : ℕ} (h : RoleRel n.role (a.member v)) (hr : n'.role = n.role)
    (hw : a.winner n.currentTerm = some w) (hne : w ≠ v) (hk : k ≤ (a.chain n.currentTerm).length)
    (hd : strict → (a.member v).log.length ≤ k ∨
      ¬SameTermAt LogEntry.term (a.member v).log (a.chain n.currentTerm) k)
    (hfull : n'.full = (a.chain n.currentTerm).take k) (hs : n'.stable = n'.full) :
    ∃ b, Follows strict v n n' a b ∧ (v, n.currentTerm, k) ∈ b.acks := by
  have ht : (a.member v).term = n.currentTerm := h.term
  refine ⟨_, ⟨(Step.replace v w k (ht ▸ hw) hne (ht ▸ hk) (ht ▸ hd)).steps, ?_, rfl, rfl, ?_, ?_⟩, ?_⟩
  · intro u hu
    simp [hu]
  · rw [hr]
    simp only [State.put_member, if_true]
    exact ⟨h.term, h.vote, h.cand, h.lead⟩
  · intro _
    simp only [State.put_member, if_true, ht]
    exact ⟨hfull.symm, by rw [hs, hfull]⟩
  · rw [← ht]
    exact Set.mem_insert _ _

theorem acceptEntries_stable (n : RaftNode) (m : AppendEntriesRPC) :
    (n.acceptEntries m).stable = (n.acceptEntries m).full := rfl

variable (strict) in
/-- An accepted message, in the abstract protocol. What the log of the node is afterwards, and with `strict` an acknowledgement
of all the message reaches. -/
theorem follows_acceptEntries (ha : Consistent LogEntry.term (majority (Fin N)) a) (hrole : RoleRel n.role (a.member v))
    (hlogs : LogRel n (a.member v)) (hn : n.Aligned) (hterm : n.currentTerm = m.term) (hs : SentBy a m.term (port v))
    {p q : ℕ} (h : Accepted (a.chain m.term) n m p q) (hm : Placed p m.entries) (hprev : n.prevMatches m = true)
    (hjoin : m.prevLogIndex < 0 → n.latestSnapshot ≠ none → n.getLogSize ≤ m.reach →
      ∀ e ∈ m.entries[(n.getLogSize - 1).toNat]?, n.getLogTerm (n.getLogSize - 1) = e.term)
    (hskip : strict → n.firstMatches m ≠ some false → n.firstMatches m = some true ∨ m.reach < n.getLogSize →
      n.holdsLast m) :
    ∃ b, Follows strict v n (n.acceptEntries m) a b ∧
      (strict → Acked b v m.term q ∧ (n.acceptEntries m).full.take q = (a.chain m.term).take q) ∧
      ((n.acceptEntries m).full = n.full ∧ n.firstMatches m ≠ some false ∨
        (n.acceptEntries m).full = (a.chain m.term).take q ∧
          (n.firstMatches m = some false ∨ n.full <+: (a.chain m.term).take q)) := by
  obtain ⟨w, hw, hport⟩ := hs
  have hne : w ≠ v := by
    rintro rfl
    exact hport rfl
  have hmatch {k : ℕ} (hk : SameTermAt LogEntry.term n.full (a.chain m.term) k) :
      n.full.take k = (a.chain m.term).take k := by
    rw [← hlogs.log] at hk ⊢
    exact (ha.logs.log_chained v).take_eq (ha.logs.chain_chained _) hk
  rcases h.acceptEntries hn hm hprev (fun k hk => hmatch hk) hjoin with ⟨hfull, hcase⟩ | ⟨hfull, hcase⟩
  · obtain ⟨a₁, h₁⟩ := follows_save strict hrole (acceptEntries_role n m) hfull (acceptEntries_stable n m)
    have hnot : n.firstMatches m ≠ some false := by
      rcases hcase with hc | ⟨hc, _⟩ <;> rw [hc] <;> exact nofun
    by_cases hst : strict
    · have hsize := hn.getLogSize_eq
      have hlast := h.last
      have hagree := h.agree_last hn hm (hskip hst hnot (by
        rcases hcase with hc | ⟨_, hc⟩
        · exact Or.inl hc
        · exact Or.inr (by omega)))
      have hterm' : (n.acceptEntries m).currentTerm = m.term :=
        (congrArg Role.currentTerm (acceptEntries_role n m)).trans hterm
      obtain ⟨b, hb, hack⟩ := follows_keep strict (k := q) h₁.role
        (by rw [h₁.winner, hterm']; exact hw) hne
        (by rw [h₁.chain, hterm']; exact h.le)
        (by rw [h₁.chain, hterm', (h₁.logs hlogs).log, hfull]; exact hagree)
      refine ⟨b, h₁.trans hb, fun _ => ⟨⟨q, le_rfl, hterm' ▸ hack⟩, ?_⟩, Or.inl ⟨hfull, hnot⟩⟩
      rw [hfull]
      exact hmatch hagree
    · exact ⟨a₁, h₁, fun hst' => absurd hst' hst, Or.inl ⟨hfull, hnot⟩⟩
  · obtain ⟨b, hb, hack⟩ := follows_replace strict (k := q) hrole (acceptEntries_role n m)
      (by rw [hterm]; exact hw) hne (by rw [hterm]; exact h.le)
      (fun _ => by
        rw [hlogs.log, hterm]
        rcases hcase with hc | ⟨hc, _⟩
        · exact Or.inr (fun hk => h.not_agree hn hc (hmatch hk))
        · exact Or.inl hc)
      (by rw [hterm]; exact hfull) (acceptEntries_stable n m)
    refine ⟨b, hb, fun _ => ⟨⟨q, le_rfl, hterm ▸ hack⟩, ?_⟩, Or.inr ⟨hfull, hcase.imp_right (·.2)⟩⟩
    rw [hfull, List.take_take, Nat.min_self]

/-! ## Commit sections -/

/-- What a snapshot keeps of the node. -/
theorem Aligned.createSnapshot_kept (h : n.Aligned) (store : KVStore) (hne : n.full ≠ []) :
    (n.createSnapshot store).1.full = n.full ∧ (n.createSnapshot store).1.lastApplied = n.lastApplied ∧
      (n.createSnapshot store).1.commitIndex = n.commitIndex ∧ (n.createSnapshot store).1.currentTerm = n.currentTerm := by
  have hf := createSnapshot_full h store hne
  rw [createSnapshot_eq h store hne] at hf ⊢
  exact ⟨hf, rfl, rfl, rfl⟩

/-- A snapshot at the threshold keeps the log, what is applied and what is committed. -/
theorem Aligned.snapshotAtThreshold_kept (h : n.Aligned) (store : KVStore) :
    (n.snapshotAtThreshold store).1.full = n.full ∧ (n.snapshotAtThreshold store).1.lastApplied = n.lastApplied ∧
      (n.snapshotAtThreshold store).1.commitIndex = n.commitIndex ∧
      (n.snapshotAtThreshold store).1.currentTerm = n.currentTerm := by
  unfold RaftNode.snapshotAtThreshold
  split
  · next ht => exact h.createSnapshot_kept store (full_ne_nil (by rintro hnil; simp [hnil, snapshotThreshold] at ht))
  · exact ⟨rfl, rfl, rfl, rfl⟩

theorem createSnapshot_stable (n : RaftNode) (store : KVStore) :
    (n.createSnapshot store).1.stable = (n.createSnapshot store).1.full := rfl

variable (strict) in
/-- Committing, applying and taking a snapshot at the threshold, in the abstract protocol. -/
theorem Aligned.follows_commitSection (h : n.Aligned) (hrole : RoleRel n.role (a.member v)) (store store' : KVStore) {k : ℤ}
    (hk : k < n.full.length) :
    ∃ b, Follows strict v n (((n.setCommitIndex k).applyCommitted store).node.snapshotAtThreshold store').1 a b := by
  have h' : (n.setCommitIndex k).Aligned := h.congr rfl rfl rfl h.nextIndex
  have hal := h'.applyCommitted store (Or.inl hk)
  have h₁ : Follows strict v n ((n.setCommitIndex k).applyCommitted store).node a a := by
    rw [applyCommitted_node]
    exact follows_of_eq hrole rfl rfl rfl
  unfold RaftNode.snapshotAtThreshold
  split
  · next ht =>
    obtain ⟨b, hb⟩ := follows_save strict h₁.role (createSnapshot_role _ store')
      (createSnapshot_full hal store' (full_ne_nil (by rintro hnil; simp [hnil, snapshotThreshold] at ht)))
      (createSnapshot_stable _ store')
    exact ⟨b, h₁.trans hb⟩
  · exact ⟨a, h₁⟩

/-- What is applied in a commit section is committed. -/
theorem Aligned.appliedRel_commitSection (h : n.Aligned) (hal : AppliedRel a n) (store store' : KVStore) {k : ℤ}
    (hk : k < n.full.length) (hs : Settled a n.currentTerm n.full k) :
    AppliedRel a (((n.setCommitIndex k).applyCommitted store).node.snapshotAtThreshold store').1 := by
  have h' : (n.setCommitIndex k).Aligned := h.congr rfl rfl rfl h.nextIndex
  obtain ⟨hfull, happ, hcom, hterm⟩ := (h'.applyCommitted store (Or.inl hk)).snapshotAtThreshold_kept store'
  rw [applyCommitted_node] at hfull happ hcom hterm
  constructor
  · rw [applyCommitted_node, hcom, happ]
    exact le_max_right _ _
  · rw [applyCommitted_node, hfull, happ, hterm]
    show Settled a n.currentTerm n.full (max n.lastApplied k)
    rcases le_total n.lastApplied k with hle | hle
    · rw [max_eq_right hle]
      exact hs
    · rw [max_eq_left hle]
      exact hal.settled

theorem Aligned.event_commitSection (h : n.Aligned) (store : KVStore) {k : ℤ}
    (hs : bound → Settled a n.currentTerm n.full k) {ev : Event}
    (hev : ev ∈ ((n.setCommitIndex k).applyCommitted store).events) : EventRel strict bound a ev := by
  obtain ⟨i, e, rfl, h1, h2, he⟩ := applyCommitted_events hev
  have h0 := h.applied_nonneg
  have hb := h.applied_base
  have h1' : n.lastApplied < i := h1
  have h2' : i ≤ k := h2
  intro hbound
  have he' : n.entryAt (n.logIdx i) = some e := he
  rw [h.entryAt_logIdx (by omega)] at he'
  exact ⟨by omega, ((hs hbound).mono le_rfl h2' List.prefix_rfl).entry (by omega) he'⟩

end RaftNode

end RaftStore
