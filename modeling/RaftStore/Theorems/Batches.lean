import RaftStore.Batches
import RaftStore.Lemmas.Places
import RaftStore.Refinement.Append
import RaftStore.Theorems.Acknowledged

/-!
# Messages that are pieces of the log

`getLogTerm` knows nothing below a snapshot, and `getLogEntries` begins above it, whatever is asked for. A message is a piece of the leader's
log where no snapshot that is there at these reads has reached the entries that it begins with.
-/

namespace RaftStore

namespace RaftNode

variable {n x : RaftNode}

/-! ## What happens in the meantime -/

/-- The commit section of a client command keeps the whole log. -/
theorem Aligned.commit_kept (h : n.Aligned) (ht : 1 ≤ n.currentTerm) (store : KVStore) {call : ClientCall}
    (hm : Site.mayCommit n call) : (Site.commit n store call).1.Aligned ∧ (Site.commit n store call).1.full = n.full ∧
      (Site.commit n store call).1.currentTerm = n.currentTerm := by
  obtain ⟨_, _, e, he, _⟩ := h.getLogTerm_ne (i := call.newIndex) (by have := hm.1; omega)
  have hlt := (List.getElem?_eq_some_iff.mp he).1
  have h' : (n.setCommitIndex call.newIndex).Aligned := h.congr rfl rfl rfl h.nextIndex
  have happlied : (Site.applyWhileUp (n.setCommitIndex call.newIndex) store).node.Aligned ∧
      (Site.applyWhileUp (n.setCommitIndex call.newIndex) store).node.full = n.full ∧
        (Site.applyWhileUp (n.setCommitIndex call.newIndex) store).node.currentTerm = n.currentTerm := by
    unfold Site.applyWhileUp
    split
    · exact ⟨h', rfl, rfl⟩
    · refine ⟨h'.applyCommitted store (.inl ?_), ?_⟩
      · show call.newIndex < n.full.length
        omega
      · rw [applyCommitted_node]
        exact ⟨rfl, rfl⟩
  obtain ⟨ha, hfull, hterm⟩ := happlied
  obtain ⟨hfull', _, _, hterm'⟩ := ha.snapshotAtThreshold_kept (Site.applyWhileUp (n.setCommitIndex call.newIndex) store).store
  have hs := ha.snapshotAtThreshold (Site.applyWhileUp (n.setCommitIndex call.newIndex) store).store
  exact ⟨hs.congr rfl rfl rfl hs.nextIndex, hfull'.trans hfull, hterm'.trans hterm⟩

/-- The log of an aligned leader only grows in the meantime, above the snapshots. -/
theorem Meanwhile.aligned (h : Meanwhile n x) (hn : n.Aligned) (ht : 1 ≤ n.currentTerm) :
    x.Aligned ∧ 1 ≤ x.currentTerm ∧ n.full <+: x.full := by
  induction h with
  | refl => exact ⟨hn, ht, List.prefix_refl _⟩
  | snapshotNow h hx ih =>
    next x y store _ =>
    obtain ⟨ha, hterm, hpre⟩ := ih
    obtain ⟨⟨hne, _⟩, hcreate⟩ := triggerSnapshot_eq_some.mp hx
    have hfull := full_ne_nil hne
    have hy : (x.createSnapshot store).1 = y := congrArg Prod.fst hcreate
    obtain ⟨hkept, _, _, hterm'⟩ := ha.createSnapshot_kept store hfull
    rw [← hy, hkept, hterm']
    exact ⟨ha.createSnapshot store hfull, hterm, hpre⟩
  | commit store h hx ih =>
    obtain ⟨ha, hterm, hpre⟩ := ih
    obtain ⟨ha', hfull, hterm'⟩ := ha.commit_kept hterm store hx
    rw [hfull, hterm']
    exact ⟨ha', hterm, hpre⟩
  | append req h ih =>
    obtain ⟨ha, hterm, hpre⟩ := ih
    refine ⟨ha.append rfl hterm, hterm, hpre.trans ?_⟩
    exact ⟨[Site.newEntry _ req], List.append_assoc _ _ _⟩

/-! ## The two reads -/

/-- What is asked for from below the snapshot on begins above it. -/
theorem getLogEntries_below {a : ℤ} (ha : a < n.baseIndex) (b : ℤ) : n.getLogEntries a b = n.log.take (b - n.baseIndex).toNat := by
  unfold getLogEntries
  have hstart : max 0 (a - n.baseIndex) = 0 := by omega
  simp only [hstart]
  split
  · next hle =>
    symm
    rw [List.take_eq_nil_iff, ← List.length_eq_zero_iff]
    omega
  · rw [Int.toNat_zero, List.drop_zero]
    rcases le_total (n.log.length : ℤ) (b - n.baseIndex) with hb | hb
    · rw [min_eq_left hb, Int.toNat_natCast, List.take_length, List.take_of_length_le (by omega)]
    · rw [min_eq_right hb]

/-- Entries that are asked for from a global index on stand there where no snapshot reaches it, or none of them is left. -/
theorem Aligned.getLogEntries_indexed_iff (h : n.Aligned) {a : ℤ} (ha : 0 ≤ a) (b : ℤ) :
    Indexed a (n.getLogEntries a b) ↔ n.baseIndex ≤ a ∨ min b n.getLogSize ≤ n.baseIndex := by
  by_cases hb : n.baseIndex ≤ a
  · refine iff_of_true (fun j e he => ?_) (.inl hb)
    rw [h.getLogEntries_eq hb] at he
    have := (((h.placed.piece (List.take_prefix b.toNat _)).drop a.toNat) j e he).1
    push_cast at this
    omega
  · rw [or_iff_right hb, getLogEntries_below (by omega)]
    unfold getLogSize
    constructor
    · intro hidx
      by_contra hlt
      obtain ⟨e, es, hlog⟩ : ∃ e es, n.log = e :: es := List.exists_cons_of_length_pos (by omega)
      obtain ⟨k, hk⟩ : ∃ k, (b - n.baseIndex).toNat = k + 1 := Nat.exists_eq_add_one.mpr (by omega)
      have hasked := hidx 0 e (by rw [hlog, hk]; rfl)
      have hc := h.covered_length
      have hplace := (h.placed n.covered.length e (by rw [full, List.getElem?_append_right le_rfl, Nat.sub_self, hlog]; rfl)).1
      omega
    · intro hle
      have hnil : n.log.take (b - n.baseIndex).toNat = [] := by
        rw [List.take_eq_nil_iff, ← List.length_eq_zero_iff]
        omega
      rw [hnil]
      exact Indexed.nil a

/-- The term that is read for `prevLogIndex` is the one of the entry there where no snapshot reaches beyond it. -/
theorem Aligned.prevLogTerm_iff (h : n.Aligned) (hx : x.Aligned) (hpre : n.full <+: x.full) {i : ℤ} (hi : 0 ≤ i)
    (hlt : i ≤ n.full.length) :
    (i - 1 = -1 ∧ n.getLogTerm (i - 1) = 0 ∨
      n.getLogTerm (i - 1) ≠ 0 ∧ ∃ e ∈ x.globalEntry (i - 1), e.term = n.getLogTerm (i - 1)) ↔ i = 0 ∨ n.baseIndex ≤ i := by
  by_cases h0 : i = 0
  · subst h0
    exact iff_of_true (.inl ⟨rfl, h.getLogTerm_zero (.inl (by omega))⟩) (.inl rfl)
  · rw [or_iff_right h0]
    constructor
    · rintro (⟨hneg, _⟩ | ⟨hne, _⟩)
      · omega
      · have := (h.getLogTerm_ne hne).2.1
        omega
    · intro hb
      have hin : (i - 1).toNat < n.full.length := by omega
      have hread := h.getLogTerm_eq (i := i - 1) (by omega) (by omega)
      rw [List.getElem?_eq_getElem hin] at hread
      have hterm : n.getLogTerm (i - 1) = n.full[(i - 1).toNat].term := hread
      have hpos := h.placed.term_pos (List.getElem_mem hin)
      refine .inr ⟨by omega, n.full[(i - 1).toNat], ?_, hterm.symm⟩
      obtain ⟨t, ht⟩ := hpre
      rw [Option.mem_def, hx.globalEntry_eq (by omega), ← ht, List.getElem?_append_left hin, List.getElem?_eq_getElem hin]

end RaftNode

/-! ## The two senders -/

namespace Readings

variable {r : Readings} {i : ℕ}

/-- Where the reads of a leader leave its log. -/
theorem aligned (hn : r.atSnapshot.Aligned) (ht : 1 ≤ r.atSnapshot.currentTerm) : r.atNext.Aligned ∧ r.atTerm.Aligned ∧ r.atEntries.Aligned ∧
    r.atNext.full <+: r.atTerm.full ∧ r.atTerm.full <+: r.atEntries.full ∧ r.atSize.getLogSize ≤ r.atEntries.getLogSize := by
  obtain ⟨hnext, ht₁, _⟩ := r.beforeNext.aligned hn ht
  obtain ⟨hterm, ht₂, hpre₁⟩ := r.beforeTerm.aligned hnext ht₁
  obtain ⟨hsize, ht₃, hpre₂⟩ := r.beforeSize.aligned hterm ht₂
  obtain ⟨hentries, _, hpre₃⟩ := r.beforeEntries.aligned hsize ht₃
  refine ⟨hnext, hterm, hentries, hpre₁, hpre₂.trans hpre₃, ?_⟩
  rw [hsize.getLogSize_eq, hentries.getLogSize_eq]
  exact Int.ofNat_le.mpr hpre₃.length_le

theorem nextIdx_nonneg (hn : r.atNext.Aligned) (i : ℕ) : 0 ≤ r.nextIdx i := hn.nextIndex_getD i

/-- A message is a piece of the log where its entries follow on `nextIndex`, and no snapshot was there beyond `prevLogIndex`. -/
theorem message_isPiece_iff (hn : r.atSnapshot.Aligned) (ht : 1 ≤ r.atSnapshot.currentTerm) (hi : r.nextIdx i ≤ r.atNext.getLogSize)
    (entries : List LogEntry) : (r.message i entries).IsPiece r.atEntries ↔
      (r.nextIdx i = 0 ∨ r.atTerm.baseIndex ≤ r.nextIdx i) ∧ Indexed (r.nextIdx i) entries := by
  obtain ⟨hnext, hterm, hentries, hpre, hpre', _⟩ := aligned hn ht
  have h0 := nextIdx_nonneg hnext i
  have hle : r.nextIdx i ≤ r.atTerm.full.length := by
    rw [hnext.getLogSize_eq] at hi
    have := hpre.length_le
    omega
  have hindexed : (∀ (j : ℕ) (e : LogEntry), entries[j]? = some e → e.index = r.nextIdx i - 1 + 1 + j) ↔ Indexed (r.nextIdx i) entries := by
    rw [sub_add_cancel]
    rfl
  exact (and_congr hindexed (hterm.prevLogTerm_iff hentries hpre' h0 hle)).trans and_comm

/-- Every message that a leader sends is a piece of its log, exactly where no snapshot that is there when `getLogTerm` and `getLogEntries`
are called reaches `nextIndex`, but for the first entry of all in `getLogTerm` and batches that end below the snapshot. That the leader is
aligned says also that `lastApplied` is an index of its log, or 0, and not under its snapshot. -/
theorem isPiece_iff (hn : r.atSnapshot.Aligned) (ht : 1 ≤ r.atSnapshot.currentTerm) (hi : r.nextIdx i ≤ r.atNext.getLogSize) (newIndex : ℤ) :
    ((r.clientMessage i newIndex).IsPiece r.atEntries ↔ (r.nextIdx i = 0 ∨ r.atTerm.baseIndex ≤ r.nextIdx i) ∧
      (r.atEntries.baseIndex ≤ r.nextIdx i ∨ min (newIndex + 1) r.atEntries.getLogSize ≤ r.atEntries.baseIndex)) ∧
    ∀ m ∈ r.heartbeatMessage i, m.IsPiece r.atEntries ↔ (r.nextIdx i = 0 ∨ r.atTerm.baseIndex ≤ r.nextIdx i) ∧
      (r.atEntries.baseIndex ≤ r.nextIdx i ∨ r.atSize.getLogSize ≤ r.nextIdx i ∨ r.batchEnd i ≤ r.atEntries.baseIndex) := by
  obtain ⟨hnext, _, hentries, _, _, hsize⟩ := aligned hn ht
  have h0 := nextIdx_nonneg hnext i
  constructor
  · rw [← hentries.getLogEntries_indexed_iff h0]
    exact message_isPiece_iff hn ht hi _
  · intro m hm
    unfold heartbeatMessage at hm
    split at hm
    · cases hm
    · obtain rfl := Option.some.inj hm
      refine (message_isPiece_iff hn ht hi _).trans (and_congr_right fun _ => ?_)
      split
      · next hlt =>
        have hend : r.batchEnd i ≤ r.atEntries.getLogSize := (min_le_right _ _).trans hsize
        rw [hentries.getLogEntries_indexed_iff h0, or_iff_right (not_le.mpr hlt), min_eq_left hend]
      · next hge => exact iff_of_true (Indexed.nil _) (.inr (.inl (not_lt.mp hge)))

/-- All reads find the leader as it is. -/
def still (n : RaftNode) : Readings where
  atSnapshot := n
  atNext := n
  atTerm := n
  atSize := n
  atEntries := n
  beforeNext := .refl n
  beforeTerm := .refl n
  beforeSize := .refl n
  beforeEntries := .refl n

/-- A leader with one peer that lacks the two entries of its log, and the same leader with a snapshot of the first one. -/
def twoEntries : RaftNode :=
  { RaftNode.create 0 5000 [5001] { metadata := none, snapshotFile := .absent } with
    state := .leader
    currentTerm := 1
    log := [RaftNode.entryOf 0 "PUT a 1", RaftNode.entryOf 1 "PUT b 2"] }

def compactedFirst : RaftNode :=
  { twoEntries with
    log := [RaftNode.entryOf 1 "PUT b 2"]
    latestSnapshot := some { lastIncludedIndex := 0, lastIncludedTerm := 1, kvState := ∅, covered := [RaftNode.entryOf 0 "PUT a 1"] } }

theorem twoEntries_placed : Placed 0 [RaftNode.entryOf 0 "PUT a 1", RaftNode.entryOf 1 "PUT b 2"] :=
  (Placed.singleton (e := RaftNode.entryOf 0 "PUT a 1") rfl le_rfl).append
    (Placed.singleton (e := RaftNode.entryOf 1 "PUT b 2") rfl le_rfl)

theorem twoEntries_aligned : twoEntries.Aligned where
  genuine := nofun
  placed := twoEntries_placed
  applied_nonneg := le_rfl
  applied_base := zero_le_one
  applied_lt := .inl rfl
  nextIndex := by decide

theorem compactedFirst_aligned : compactedFirst.Aligned where
  genuine s hs := by
    obtain rfl := Option.some.inj hs
    exact ⟨le_rfl, rfl, rfl, Placed.singleton rfl le_rfl⟩
  placed := twoEntries_placed
  applied_nonneg := le_rfl
  applied_base := le_rfl
  applied_lt := .inl rfl
  nextIndex := by decide

/-- The same leader, whose peer has the first entry. -/
def firstSent : RaftNode := { twoEntries with nextIndex := [1] }

theorem firstSent_aligned : firstSent.Aligned := twoEntries_aligned.congr rfl rfl rfl (by decide)

/-- SNAPSHOT_NOW puts the first entry under a snapshot, between the reads of `nextIndex` and of the log. -/
def compacting : Readings where
  atSnapshot := firstSent
  atNext := firstSent
  atTerm := (firstSent.createSnapshot KVStore.empty).1
  atSize := (firstSent.createSnapshot KVStore.empty).1
  atEntries := (firstSent.createSnapshot KVStore.empty).1
  beforeNext := .refl _
  beforeTerm := .snapshotNow (.refl firstSent) (RaftNode.triggerSnapshot_eq_some.mpr ⟨⟨by decide, by decide +kernel, by decide +kernel⟩, rfl⟩)
  beforeSize := .refl _
  beforeEntries := .refl _

/-- The second entry still follows on the first one, whose term is that of the snapshot. -/
theorem isPiece_iff_compacting : compacting.atEntries.latestSnapshot ≠ none ∧
    (compacting.clientMessage 0 1).IsPiece compacting.atEntries ∧
      ∀ m ∈ compacting.heartbeatMessage 0, m.IsPiece compacting.atEntries := by
  obtain ⟨hclient, hheartbeat⟩ := isPiece_iff (r := compacting) (i := 0) firstSent_aligned (by decide) (by decide) 1
  exact ⟨by decide, hclient.mpr (by decide), fun m hm => (hheartbeat m hm).mpr (by decide)⟩

/-- With the first entry under a snapshot, a client command sends the second one as if it followed on nothing. -/
theorem clientMessage_skips : ¬∀ (r : Readings) (i : ℕ) (newIndex : ℤ), r.atSnapshot.Aligned → 1 ≤ r.atSnapshot.currentTerm →
    r.nextIdx i ≤ r.atNext.getLogSize → (r.clientMessage i newIndex).IsPiece r.atEntries ∧
      ∀ m ∈ r.heartbeatMessage i, m.IsPiece r.atEntries := by
  intro h
  obtain ⟨⟨hindex, _⟩, _⟩ := h (still compactedFirst) 0 1 compactedFirst_aligned (by decide) (by decide)
  exact absurd (hindex 0 (RaftNode.entryOf 1 "PUT b 2") (by decide)) (by decide)

end Readings

end RaftStore
