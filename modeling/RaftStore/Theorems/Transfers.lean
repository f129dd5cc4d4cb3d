import RaftStore.Exchange
import RaftStore.Lemmas.Aligned
import RaftStore.Lemmas.Images

/-!
# What a transfer leaves of a snapshot

A transfer whose chunks are handled one after the other installs the snapshot, whatever was in the buffer before: each chunk extends
the image in the buffer, and the last one is decoded.
-/

namespace RaftStore

open RaftNode (writeChunk chunkOf)

/-! ## Chunks -/

/-- The handler, for a chunk that is written into the buffer. -/
theorem RaftNode.handleInstallSnapshot_written {f : RaftNode} {store : KVStore} {m : InstallSnapshotRPC} {buffer : Str}
    (ht : ¬m.term < f.currentTerm)
    (hw : writeChunk (if m.offset = 0 then [] else (f.seeTerm m.term).snapshotBuffer) m.offset (chunkOf m) = .written buffer) :
    f.handleInstallSnapshot store m =
      if m.done then some (((f.seeTerm m.term).setBuffer buffer).finishTransfer store m)
      else
        some { node := (f.seeTerm m.term).setBuffer buffer, store := store,
               reply := .installSnapshot (f.seeTerm m.term).currentTerm true [], events := [] } := by
  have hw' : writeChunk ((f.seeTerm m.term).setBuffer (if m.offset = 0 then [] else (f.seeTerm m.term).snapshotBuffer)).snapshotBuffer
      m.offset (chunkOf m) = .written buffer := hw
  unfold handleInstallSnapshot
  rw [if_neg ht]
  simp only
  rw [hw']
  rfl

/-- A chunk of the image of which the buffer has a beginning leaves the longer beginning. -/
theorem writeChunk_take {image : Str} {k offset stop : ℕ} (hk : offset ≤ k) (hstop : offset < stop) (hle : stop ≤ image.length)
    (hkle : k ≤ image.length) (hlen : image.length < 2 ^ 31) :
    writeChunk (image.take k) offset ((image.take stop).drop offset) = .written (image.take (max k stop)) := by
  have hchunk : ((image.take stop).drop offset).length = stop - offset := by
    rw [List.length_drop, List.length_take, min_eq_left hle]
  have hbuffer : (image.take k).length = k := by rw [List.length_take, min_eq_left hkle]
  have hsize : (((offset : ℤ) + (stop - offset : ℕ)) % 2 ^ 64).toNat = stop := by omega
  have hne : (image.take stop).drop offset ≠ [] := by
    intro h
    rw [h] at hchunk
    simp only [List.length_nil] at hchunk
    omega
  have hhead : ((image.take k ++ List.replicate (stop - k) 0).take offset) = (image.take stop).take offset := by
    rw [List.take_append_of_le_length (by omega), List.take_take, List.take_take, min_eq_left hk, min_eq_left hstop.le]
  unfold writeChunk RaftNode.maxBufferSize
  simp only [hchunk, hsize, hbuffer]
  rw [if_neg (by omega), if_neg hne, if_neg (by omega), Int.toNat_natCast, hhead, List.take_append_drop,
    show offset + (stop - offset) = stop by omega]
  rcases le_total k stop with h | h
  · -- the chunk goes on to the end of the buffer
    rw [max_eq_right h, List.drop_of_length_le (by rw [List.length_append, List.length_replicate]; omega), List.append_nil]
  · -- the chunk is in the buffer already
    rw [max_eq_left h, Nat.sub_eq_zero_of_le h, List.replicate_zero, List.append_nil]
    conv_rhs => rw [← List.take_append_drop stop (image.take k)]
    rw [List.take_take, min_eq_left h]

namespace Transfer

variable {t : Transfer} {n f : RaftNode} {store : KVStore} {i : ℕ}

/-- The bytes of a message are those of the chunk. -/
theorem chunkOf_message (t : Transfer) (n : RaftNode) : chunkOf (t.message n) = (t.snapBytes.take t.stop).drop t.offset := by
  unfold chunkOf message
  simp only
  split
  · next h => exact (base64Encode_eq_nil h).symm
  · exact base64Decode_base64Encode _

/-- A chunk that the loop sends begins within the image. -/
theorem offset_lt (h : t.chunkNum < t.chunkCount) : t.offset < t.snapBytes.length := by
  unfold chunkCount chunkSize at h
  unfold offset chunkSize
  omega

/-- A chunk of an image of at most 2^31 - 512 bytes does not take the loop's sum out of `int`. -/
theorem counted_of_sendable (h : t.chunkNum < t.chunkCount) (hlen : t.snapBytes.length ≤ 2 ^ 31 - 512) : t.Counted := by
  have hlt := offset_lt h
  unfold Counted chunkSize
  unfold offset chunkSize at *
  omega

/-- The last chunk ends with the image. -/
theorem stop_eq_iff (h : t.chunkNum < t.chunkCount) : t.stop = t.snapBytes.length ↔ t.chunkNum + 1 = t.chunkCount := by
  have hlt := offset_lt h
  unfold chunkCount chunkSize at h ⊢
  unfold stop offset chunkSize at *
  omega

/-- Every other chunk ends where the next one begins. -/
theorem stop_eq_offset (h : t.chunkNum + 1 < t.chunkCount) : t.stop = { t with chunkNum := t.chunkNum + 1 }.offset := by
  have hlt := offset_lt (t := { t with chunkNum := t.chunkNum + 1 }) h
  unfold stop offset chunkSize at *
  simp only at hlt ⊢
  omega

/-- The buffer has the image up to the next chunk, or that is the first one. -/
def Follows (t : Transfer) (f : RaftNode) : Prop := t.chunkNum = 0 ∨ f.snapshotBuffer = t.snapBytes.take t.offset

/-- What the handler does with a chunk of an image of which the buffer has the first `k` bytes, the chunk's offset among them. -/
theorem handle_chunk {k : ℕ} (hlen : t.snapBytes.length < 2 ^ 31) (hlt : t.chunkNum < t.chunkCount)
    (hk : t.chunkNum = 0 ∧ k = 0 ∨ t.offset ≤ k ∧ k ≤ t.snapBytes.length ∧ t.chunkNum ≠ 0 ∧ f.snapshotBuffer = t.snapBytes.take k)
    (ht : f.currentTerm ≤ n.currentTerm) (store : KVStore) : f.handleInstallSnapshot store (t.message n) =
      some (if t.stop = t.snapBytes.length then
          ((f.seeTerm n.currentTerm).setBuffer (t.snapBytes.take (max k t.stop))).finishTransfer store (t.message n)
        else
          { node := (f.seeTerm n.currentTerm).setBuffer (t.snapBytes.take (max k t.stop))
            store := store
            reply := .installSnapshot (f.seeTerm n.currentTerm).currentTerm true []
            events := [] }) := by
  have hoff := offset_lt hlt
  have hstop : t.offset < t.stop ∧ t.stop ≤ t.snapBytes.length := by
    unfold stop chunkSize
    omega
  have hle : t.offset ≤ k ∧ k ≤ t.snapBytes.length := by
    rcases hk with ⟨hz, rfl⟩ | ⟨h, h', _⟩
    · unfold offset
      rw [hz]
      omega
    · exact ⟨h, h'⟩
  have hbuffer : (if (t.offset : ℤ) = 0 then [] else (f.seeTerm n.currentTerm).snapshotBuffer) = t.snapBytes.take k := by
    obtain ⟨_, _, _, _, _, heq⟩ := f.seeTerm_shape n.currentTerm
    rcases hk with ⟨hz, rfl⟩ | ⟨_, _, hnz, hb⟩
    · rw [if_pos (by unfold offset; rw [hz]; rfl), List.take_zero]
    · rw [if_neg (by unfold offset chunkSize; omega), heq]
      exact hb
  have hwrite := writeChunk_take hle.1 hstop.1 hstop.2 hle.2 hlen
  rw [← chunkOf_message t n] at hwrite
  rw [← hbuffer] at hwrite
  rw [RaftNode.handleInstallSnapshot_written (show ¬(t.message n).term < f.currentTerm from not_lt.mpr ht) hwrite]
  show (if decide (t.stop = t.snapBytes.length) = true then _ else _) = _
  simp only [decide_eq_true_eq]
  split <;> rfl

/-- What the handler does with the next chunk. -/
theorem handle_message (hlen : t.snapBytes.length < 2 ^ 31) (hlt : t.chunkNum < t.chunkCount) (hf : t.Follows f)
    (ht : f.currentTerm ≤ n.currentTerm) (store : KVStore) : f.handleInstallSnapshot store (t.message n) =
      some (if t.stop = t.snapBytes.length then
          ((f.seeTerm n.currentTerm).setBuffer (t.snapBytes.take t.stop)).finishTransfer store (t.message n)
        else
          { node := (f.seeTerm n.currentTerm).setBuffer (t.snapBytes.take t.stop)
            store := store
            reply := .installSnapshot (f.seeTerm n.currentTerm).currentTerm true []
            events := [] }) := by
  have hoff := offset_lt hlt
  have hmax : max t.offset t.stop = t.stop := max_eq_right (by unfold stop; omega)
  by_cases hz : t.chunkNum = 0
  · have h := handle_chunk hlen hlt (.inl ⟨hz, rfl⟩) ht store
    rwa [Nat.zero_max] at h
  · have h := handle_chunk hlen hlt (.inr ⟨le_rfl, hoff.le, hz, hf.resolve_left hz⟩) ht store
    rwa [hmax] at h

/-- The fields that an installation sets. -/
theorem installSnapshot_shape (n : RaftNode) (store : KVStore) (s : Snapshot) : ∃ disk : Disk, disk.snapshotFile = .saved s ∧
    (n.installSnapshot store s).1 = { n with
      lastApplied := s.lastIncludedIndex, commitIndex := s.lastIncludedIndex, log := [], latestSnapshot := some s,
      snapshotBuffer := [], disk := disk } :=
  ⟨{ metadata := some
       { currentTerm := n.currentTerm
         votedFor := n.votedFor
         logEntries := []
         clientLastRequest := n.clientLastRequest
         clientResultCache := n.clientResultCache }
     snapshotFile := .saved s }, rfl, rfl⟩

/-- What the last chunk leaves: the snapshot in the place of the log, and its map in the store. -/
structure Installed (snap : Snapshot) (f f' : RaftNode) (store' : KVStore) : Prop where
  node : ∃ (term : ℤ) (state : NodeState) (vote : ℤ) (b : Bool) (disk : Disk) (s : Snapshot), s.Same snap ∧ s.covered = snap.covered ∧
    disk.snapshotFile = .saved s ∧ store'.mp = s.kvState ∧ f' = { f with
      currentTerm := term, state := state, votedFor := vote, runningHeartbeats := b, disk := disk, snapshotBuffer := [],
      lastApplied := s.lastIncludedIndex, commitIndex := s.lastIncludedIndex, log := [], latestSnapshot := some s }

/-- Bytes that are decoded as the snapshot, and saved, are installed. -/
theorem finishTransfer_installed {buffer : Str} {m : InstallSnapshotRPC} {snap s : Snapshot} (hs : deserializeSnapshot buffer = some s)
    (hd : s.dumps = true) (hsame : s.Same snap) (hcov : m.covered = snap.covered) (term : ℤ) (store : KVStore) :
    Installed snap f (((f.seeTerm term).setBuffer buffer).finishTransfer store m).node
      (((f.seeTerm term).setBuffer buffer).finishTransfer store m).store := by
  obtain ⟨term', state, vote, b, d, heq⟩ := f.seeTerm_shape term
  obtain ⟨disk, hdisk, hshape⟩ := installSnapshot_shape ((f.seeTerm term).setBuffer buffer) store { s with covered := m.covered }
  rw [RaftNode.finishTransfer_saved (n := (f.seeTerm term).setBuffer buffer) hs hd]
  refine ⟨term', state, vote, b, disk, { s with covered := m.covered }, ⟨hsame.index, hsame.term, hsame.lookup⟩, hcov, hdisk, rfl, ?_⟩
  rw [hshape, heq]
  rfl

/-- The last chunk of the image of a snapshot is decoded, saved and installed. -/
theorem finishTransfer_image (hfits : t.snap.Fits) (hdumps : t.snap.dumps = true) (himage : t.snapBytes = serializeSnapshot t.snap)
    (term : ℤ) (store : KVStore) : ∃ h, ((f.seeTerm term).setBuffer t.snapBytes).finishTransfer store (t.message n) = h ∧
      Installed t.snap f h.node h.store ∧ h.reply = .installSnapshot h.node.currentTerm true [] ∧
      h.node.currentTerm = (f.seeTerm term).currentTerm := by
  obtain ⟨s, hs, hsame, _⟩ := hfits.deserialize
  have hdecode : deserializeSnapshot ((f.seeTerm term).setBuffer t.snapBytes).snapshotBuffer = some s := by
    rw [← hs, ← himage]
    rfl
  have hd : s.dumps = true := by rw [hsame.dumps, hdumps]
  refine ⟨_, rfl, finishTransfer_installed hdecode hd hsame rfl term store, ?_, ?_⟩
  · rw [RaftNode.finishTransfer_saved hdecode hd]
    rfl
  · rw [RaftNode.finishTransfer_saved hdecode hd]
    rfl

/-! ## The loop -/

/-- The last chunk is accepted: the peer is known to have the snapshot. -/
theorem reply_last (hstop : t.stop = t.snapBytes.length) (hlast : t.chunkNum + 1 = t.chunkCount) (n : RaftNode) (i : ℕ) (term : ℤ) :
    t.reply n i (some (.installSnapshot term true [])) = ({ n with
      nextIndex := n.nextIndex.set i (t.snap.lastIncludedIndex + 1)
      matchIndex := n.matchIndex.set i t.snap.lastIncludedIndex }, none) := by
  unfold reply
  simp only [Reply.accepted, hstop, hlast, if_true, lt_irrefl, if_false]

/-- Another one is accepted: the next one follows. -/
theorem reply_next (hstop : t.stop ≠ t.snapBytes.length) (hnext : t.chunkNum + 1 < t.chunkCount) (n : RaftNode) (i : ℕ) (term : ℤ) :
    t.reply n i (some (.installSnapshot term true [])) = (n, some { t with chunkNum := t.chunkNum + 1 }) := by
  unfold reply
  simp only [Reply.accepted, hstop, hnext, if_true, if_false]

theorem seeTerm_le {f : RaftNode} {term : ℤ} (h : f.currentTerm ≤ term) : (f.seeTerm term).currentTerm ≤ term := by
  unfold RaftNode.seeTerm RaftNode.becomeFollower
  split
  · split
    · exact h
    · exact le_refl term
  · exact h

/-- What a transfer leaves that has gone to its end. -/
structure Delivered (snap : Snapshot) (i : ℕ) (x y : Exchange) : Prop where
  installed : Installed snap x.follower y.follower y.store
  term : y.follower.currentTerm ≤ x.leader.currentTerm
  leader : y.leader = { x.leader with
    nextIndex := x.leader.nextIndex.set i (snap.lastIncludedIndex + 1)
    matchIndex := x.leader.matchIndex.set i snap.lastIncludedIndex }

/-- A transfer from any chunk on that follows what the buffer has. -/
theorem deliver_image {fuel : ℕ} (hfits : t.snap.Fits) (hsend : t.snap.Sendable) (hdumps : t.snap.dumps = true)
    (himage : t.snapBytes = serializeSnapshot t.snap) {x : Exchange} (hlt : t.chunkNum < t.chunkCount) (hf : t.Follows x.follower)
    (ht : x.follower.currentTerm ≤ x.leader.currentTerm) (hfuel : fuel = t.chunkCount - t.chunkNum) :
    ∃ y ms m, t.deliver i fuel x = some (y, ms ++ [m]) ∧ Delivered t.snap i x y ∧ m.done = true ∧ ∀ m ∈ ms, m.done = false := by
  induction fuel generalizing t x with
  | zero => omega
  | succ fuel ih =>
    have hlen : t.snapBytes.length < 2 ^ 31 := by
      rw [himage]
      exact hfits.image
    have hcounted : t.Counted := counted_of_sendable hlt (himage ▸ hsend)
    have hhandle := handle_message hlen hlt hf ht x.store
    have hle := seeTerm_le ht
    by_cases hlast : t.chunkNum + 1 = t.chunkCount
    · -- the last chunk ends the loop
      have hstop := (stop_eq_iff hlt).mpr hlast
      obtain ⟨h, hfinish, hinst, hreply, hterm⟩ := finishTransfer_image (f := x.follower) (n := x.leader) hfits hdumps himage
        x.leader.currentTerm x.store
      rw [if_pos hstop, hstop, List.take_length, hfinish] at hhandle
      refine ⟨{ leader := _, follower := h.node, store := h.store }, [], t.message x.leader, ?_, ⟨hinst, by rw [hterm]; exact hle, rfl⟩,
        decide_eq_true hstop, fun _ hm => absurd hm List.not_mem_nil⟩
      unfold deliver
      simp only [if_pos hcounted, hhandle]
      rw [hreply, reply_last hstop hlast]
      rfl
    · -- after another one the buffer has the image up to the next chunk
      have hnext : t.chunkNum + 1 < t.chunkCount := by omega
      have hstop : t.stop ≠ t.snapBytes.length := fun h => hlast ((stop_eq_iff hlt).mp h)
      rw [if_neg hstop] at hhandle
      obtain ⟨y, ms, m, hdeliver, hdelivered, hdone, hms⟩ := ih (t := { t with chunkNum := t.chunkNum + 1 })
        (x := { leader := x.leader, follower := (x.follower.seeTerm x.leader.currentTerm).setBuffer (t.snapBytes.take t.stop),
                store := x.store })
        hfits hsend hdumps himage hnext (.inr (by rw [← stop_eq_offset hnext]; rfl)) hle (by
          show fuel = t.chunkCount - (t.chunkNum + 1)
          omega)
      refine ⟨y, t.message x.leader :: ms, m, ?_, ⟨?_, hdelivered.term, hdelivered.leader⟩, hdone, fun m' hm' => ?_⟩
      · unfold deliver
        simp only [if_pos hcounted, hhandle]
        rw [reply_next hstop hnext]
        simp only [hdeliver, Option.map_some]
        rfl
      · obtain ⟨term, state, vote, b, d, heq⟩ := x.follower.seeTerm_shape x.leader.currentTerm
        obtain ⟨term', state', vote', b', disk, s, hsame, hcov, hdisk, hmp, hnode⟩ := hdelivered.installed.node
        refine ⟨term', state', vote', b', disk, s, hsame, hcov, hdisk, hmp, ?_⟩
        rw [hnode, heq]
        rfl
      · rcases List.mem_cons.mp hm' with rfl | hm'
        · exact decide_eq_false hstop
        · exact hms m' hm'

/-- What a chunk of the loop comes to: it is the last one, or the next one follows. -/
theorem deliver_cases {fuel : ℕ} {x y : Exchange} {ms : List InstallSnapshotRPC} (h : t.deliver i (fuel + 1) x = some (y, ms)) :
    t.Counted ∧ ∃ hd, x.follower.handleInstallSnapshot x.store (t.message x.leader) = some hd ∧
      ((t.reply x.leader i (some hd.reply)).2 = none ∧
          y = { leader := (t.reply x.leader i (some hd.reply)).1, follower := hd.node, store := hd.store } ∧
          ms = [t.message x.leader] ∨
        ∃ t' ms', (t.reply x.leader i (some hd.reply)).2 = some t' ∧
          t'.deliver i fuel { leader := (t.reply x.leader i (some hd.reply)).1, follower := hd.node, store := hd.store } = some (y, ms') ∧
          ms = t.message x.leader :: ms') := by
  unfold deliver at h
  split at h
  · next hcounted =>
    refine ⟨hcounted, ?_⟩
    simp only at h
    split at h
    · cases h
    · next hd hhandle =>
      refine ⟨hd, hhandle, ?_⟩
      split at h
      · next hrest =>
        obtain ⟨rfl, rfl⟩ := Prod.mk.inj (Option.some.inj h)
        exact .inl ⟨hrest, rfl, rfl⟩
      · next t' hrest =>
        obtain ⟨⟨z, ms'⟩, hz, hyz⟩ := Option.map_eq_some_iff.mp h
        obtain ⟨rfl, rfl⟩ := Prod.mk.inj hyz
        exact .inr ⟨t', ms', hrest, hz, rfl⟩
  · cases h

/-- An image is never empty, so that a transfer has a first chunk. -/
theorem start_chunkCount (snap : Snapshot) : 0 < (start snap).chunkCount := by
  have hlen := Snapshot.serializeSnapshot_length snap
  unfold chunkCount chunkSize start
  simp only
  omega

end Transfer

namespace Exchange

variable {x : Exchange} {snap : Snapshot}

/-- A transfer goes to its end. -/
theorem transfer_eq (hfits : snap.Fits) (hsend : snap.Sendable) (hdumps : snap.dumps = true)
    (ht : x.follower.currentTerm ≤ x.leader.currentTerm) (i : ℕ) :
    ∃ y ms m, x.transfer i snap = some (y, ms ++ [m]) ∧ Transfer.Delivered snap i x y ∧ m.done = true ∧ ∀ m ∈ ms, m.done = false :=
  Transfer.deliver_image (t := Transfer.start snap) hfits hsend hdumps rfl (Transfer.start_chunkCount snap) (.inl rfl) ht rfl

/-- The transfer ends with the one message that is `done`, and the follower has the snapshot. -/
def Lossless (i : ℕ) (snap : Snapshot) (x : Exchange) : Prop :=
  ∃ y ms m, x.transfer i snap = some (y, ms ++ [m]) ∧ m.done = true ∧ (∀ m ∈ ms, m.done = false) ∧
    ∃ s, y.follower.latestSnapshot = some s ∧ s.lastIncludedIndex = snap.lastIncludedIndex ∧
      s.lastIncludedTerm = snap.lastIncludedTerm ∧ ∀ k, s.kvState.lookup k = snap.kvState.lookup k

/-- An undisturbed transfer installs the snapshot, and its last message is the one that is `done`: for every snapshot of texts whose
image the chunk loop can go through, and whatever the follower has in its buffer. -/
theorem transfer_lossless (hfits : snap.Fits) (hsend : snap.Sendable) (htexts : snap.dumps = true)
    (ht : x.follower.currentTerm ≤ x.leader.currentTerm) (i : ℕ) : x.Lossless i snap := by
  obtain ⟨y, ms, m, htransfer, hdelivered, hdone, hms⟩ := transfer_eq hfits hsend htexts ht i
  obtain ⟨_, _, _, _, _, s, hsame, _, _, _, hnode⟩ := hdelivered.installed.node
  exact ⟨y, ms, m, htransfer, hdone, hms, s, by rw [hnode], hsame.index, hsame.term, hsame.lookup⟩

/-- A snapshot of one key. -/
def oneKey (value : Str) : Snapshot where
  lastIncludedIndex := 4
  lastIncludedTerm := 2
  kvState := (∅ : StrMap).insert (ascii "a") value
  covered := []

/-- A leader, and a follower that has something in its buffer. -/
def pair : Exchange where
  leader := RaftNode.create 0 5000 [5001] { metadata := none, snapshotFile := .absent }
  follower := (RaftNode.create 1 5001 [5000] { metadata := none, snapshotFile := .absent }).setBuffer (ascii "rest")
  store := KVStore.empty

/-- The snapshot of the text `1` is sent. -/
theorem transfer_lossless_oneKey : pair.Lossless 0 (oneKey (ascii "1")) :=
  transfer_lossless (show (oneKey (ascii "1")).Fits by decide) (by decide) (by decide) (by decide) 0

/-! ## Images that are not transferred -/

/-- A chunk that ends an image of more than 2^31 - 512 bytes is not sent. -/
theorem deliver_done {t : Transfer} (hlen : 2 ^ 31 - 512 < t.snapBytes.length) {i fuel : ℕ} {y : Exchange}
    {ms : List InstallSnapshotRPC} (h : t.deliver i fuel x = some (y, ms)) : ∀ m ∈ ms, m.done = false := by
  induction fuel generalizing t x ms with
  | zero =>
    obtain ⟨_, rfl⟩ := Prod.mk.inj (Option.some.inj h)
    exact fun _ hm => absurd hm List.not_mem_nil
  | succ fuel ih =>
    obtain ⟨hcounted, hd, _, hrest⟩ := Transfer.deliver_cases h
    have hdone : (t.message x.leader).done = false := by
      refine decide_eq_false fun hstop => ?_
      unfold Transfer.Counted at hcounted
      unfold Transfer.stop Transfer.offset Transfer.chunkSize at *
      omega
    intro m hm
    rcases hrest with ⟨_, _, rfl⟩ | ⟨t', ms', ht', hms', rfl⟩
    · obtain rfl := List.mem_singleton.mp hm
      exact hdone
    · obtain ⟨_, rfl⟩ := Transfer.reply_rest ht'
      rcases List.mem_cons.mp hm with rfl | hm
      · exact hdone
      · exact ih (t := { t with chunkNum := t.chunkNum + 1 }) hlen hms' m hm

theorem oneKey_entries (value : Str) : (oneKey value).kvState.entries = [⟨ascii "a", value⟩] := rfl

theorem oneKey_length (value : Str) : (serializeSnapshot (oneKey value)).length = 21 + value.length := by
  have hkey : (ascii "a").length = 1 := rfl
  rw [Snapshot.serializeSnapshot_length, oneKey_entries]
  simp only [List.map_cons, List.map_nil, List.flatten_cons, List.flatten_nil, List.append_nil, serializePair_length, hkey]
  omega

/-- A value of so many letters `a`. -/
theorem oneKey_long {n : ℕ} (hn : n < 2 ^ 31 - 21) :
    (oneKey (List.replicate n 97)).Fits ∧ (oneKey (List.replicate n 97)).dumps = true := by
  have hlen := oneKey_length (List.replicate n 97)
  rw [List.length_replicate] at hlen
  refine ⟨⟨show (-2 ^ 31 : ℤ) ≤ 4 ∧ (4 : ℤ) < 2 ^ 31 by omega, show (-2 ^ 31 : ℤ) ≤ 2 ∧ (2 : ℤ) < 2 ^ 31 by omega, by omega⟩, ?_⟩
  have htext : isUtf8 (List.replicate n 97) = true := isUtf8_of_low fun b hb => by
    rw [List.eq_of_mem_replicate hb]
    decide
  unfold Snapshot.dumps
  rw [oneKey_entries, List.all_cons, List.all_nil, htext]
  rfl

/-- An image that the chunk loop does not go through is not transferred. -/
theorem not_lossless_of_long {i : ℕ} (h : ¬snap.Sendable) : ¬x.Lossless i snap := by
  rintro ⟨y, ms, m, htransfer, hdone, _⟩
  have hlen : 2 ^ 31 - 512 < (Transfer.start snap).snapBytes.length := not_le.mp h
  have hno := deliver_done hlen htransfer m (List.mem_append_right ms List.mem_cons_self)
  rw [hdone] at hno
  cases hno

/-- A value that is no text keeps the snapshot from being saved, and so from being installed. -/
theorem not_lossless_of_bytes : ¬pair.Lossless 0 (oneKey [255]) := by
  rintro ⟨y, ms, m, htransfer, _, _, s, hs, _⟩
  have hnone : (pair.transfer 0 (oneKey [255])).map (fun r => r.1.follower.latestSnapshot) = some none := by decide +kernel
  rw [htransfer, Option.map_some, hs] at hnone
  cases hnone

/-- A map with a value that is no text is lost, and so is one whose image takes the loop's sum out of `int` at the last chunk. -/
theorem transfer_loses : (¬∀ snap : Snapshot, snap.Fits → snap.Sendable → pair.Lossless 0 snap) ∧
    ¬∀ snap : Snapshot, snap.Fits → snap.dumps = true → pair.Lossless 0 snap := by
  constructor
  · intro h
    exact not_lossless_of_bytes (h (oneKey [255]) (by decide) (by decide))
  · intro h
    obtain ⟨hfits, hdumps⟩ := oneKey_long (n := 2 ^ 31 - 100) (by omega)
    refine not_lossless_of_long (fun hsend => ?_) (h (oneKey (List.replicate (2 ^ 31 - 100) 97)) hfits hdumps)
    have hlen := oneKey_length (List.replicate (2 ^ 31 - 100) 97)
    rw [List.length_replicate] at hlen
    unfold Snapshot.Sendable at hsend
    omega

end Exchange

end RaftStore
