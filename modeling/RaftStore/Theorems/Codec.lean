import RaftStore.Lemmas.Codec
import RaftStore.Lemmas.Images
import RaftStore.Lemmas.Log
import RaftStore.Theorems.Base64
import RaftStore.Theorems.Wire

/-!
# Values from outside

A node that gets some JSON value does what it does for a message, or nothing, or the first half of an AppendEntries. What it has written to
its files is read back from them. A chunk message is short, so that the branch of the transfer loops for long ones is never taken.
-/

namespace RaftStore

/-! ## Values of any shape -/

namespace RaftNode

variable {n : RaftNode} {store : KVStore}

end RaftNode

namespace Served

end Served

/-! ## Files -/

/-- A string that has been the name of a member is read back. -/
theorem ascii_key (s : Str) : ascii (Json.key s) = s := by
  unfold ascii Json.key
  rw [String.toList_ofList, List.map_map]
  refine (List.map_congr_left fun b _ => ?_).trans (List.map_id s)
  have hvalid : b.toNat.isValidChar := Or.inl (lt_trans b.toNat_lt (by decide))
  have hchar : (Char.ofNat b.toNat).toNat = b.toNat := by
    unfold Char.ofNat
    rw [dif_pos hvalid]
    rfl
  simp only [Function.comp_apply, hchar, id]
  exact UInt8.ofNat_toNat

namespace Json

variable {α : Type}

/-- The members for the pairs of a table are put into a map one after the other. -/
theorem foldlM_members (get : Json → Except Exception α) (value : α → Json) {ps : List (Sigma fun _ : Str => α)}
    (hget : ∀ p ∈ ps, get (value p.2) = .ok p.2) (map : AList fun _ : Str => α) :
    ((ps.map fun p => (key p.1, value p.2)).map fun m => (ascii m.1, m.2)).foldlM
      (fun (map : AList fun _ : Str => α) el => (get el.2).map fun x => map.insert el.1 x) map =
        .ok (ps.foldl (fun m p => m.insert p.1 p.2) map) := by
  induction ps generalizing map with
  | nil => rfl
  | cons p ps ih =>
    simp only [List.map_cons, List.foldlM_cons, List.foldl_cons, hget p List.mem_cons_self, ascii_key]
    exact ih (fun p hp => hget p (List.mem_cons_of_mem _ hp)) _

/-- A table that was written is read back, up to the order of its pairs. -/
theorem lookup_foldl_entries (t : AList fun _ : Str => α) (k : Str) :
    (t.entries.foldl (fun m p => m.insert p.1 p.2) (∅ : AList fun _ : Str => α)).lookup k = t.lookup k := by
  rw [lookup_foldl_insert t.nodupKeys, AList.lookup_empty, Option.or_none]
  rfl

end Json

/-- Two contents of a metadata file are the same up to the order of the tables and to what only the model has of entries. -/
structure Metadata.Same (m m' : Metadata) : Prop where
  currentTerm : m.currentTerm = m'.currentTerm
  votedFor : m.votedFor = m'.votedFor
  logEntries : m.logEntries = m'.logEntries.map LogEntry.bare
  clientLastRequest : ∀ k, m.clientLastRequest.lookup k = m'.clientLastRequest.lookup k
  clientResultCache : ∀ k, m.clientResultCache.lookup k = m'.clientResultCache.lookup k

/-- The numbers in a metadata file are of type `int`. -/
structure Metadata.IsInt (m : Metadata) : Prop where
  currentTerm : RaftStore.IsInt m.currentTerm
  votedFor : RaftStore.IsInt m.votedFor
  logEntries : ∀ e ∈ m.logEntries, e.IsInt
  clientLastRequest : ∀ p ∈ m.clientLastRequest.entries, RaftStore.IsInt p.2

/-- The entries of a file are read back. -/
theorem Json.getVector_entries {es : List LogEntry} (h : ∀ e ∈ es, e.IsInt) :
    Json.getVector LogEntry.ofJson (.arr (es.map LogEntry.toJson)) = .ok (es.map LogEntry.bare) := by
  show (es.map LogEntry.toJson).mapM LogEntry.ofJson = _
  induction es with
  | nil => rfl
  | cons e es ih =>
    rw [List.map_cons, List.mapM_cons, ih fun e he => h e (List.mem_cons_of_mem _ he), LogEntry.ofJson_toJson (h e List.mem_cons_self)]
    rfl

/-- What `persistMetadata` writes is what `loadMetadata` reads. -/
theorem Metadata.ofJson_toJson {m : Metadata} (h : m.IsInt) : ∃ m', Metadata.ofJson m.toJson = .ok m' ∧ m'.Same m := by
  have hlast := Json.foldlM_members Json.getInt32 Json.int (fun p hp => Json.getInt32_int (h.clientLastRequest p hp)) ∅
  have hcache := Json.foldlM_members Json.getStr Json.str (fun p (_ : p ∈ m.clientResultCache.entries) => rfl) ∅
  refine ⟨{ currentTerm := m.currentTerm
            votedFor := m.votedFor
            logEntries := m.logEntries.map LogEntry.bare
            clientLastRequest := m.clientLastRequest.entries.foldl (fun t p => t.insert p.1 p.2) ∅
            clientResultCache := m.clientResultCache.entries.foldl (fun t p => t.insert p.1 p.2) ∅ }, ?_,
    ⟨rfl, rfl, rfl, Json.lookup_foldl_entries _, Json.lookup_foldl_entries _⟩⟩
  have hentries : m.toJson.value (Json.getVector LogEntry.ofJson) "logEntries" [] = .ok (m.logEntries.map LogEntry.bare) :=
    Json.getVector_entries h.logEntries
  have hterm : m.toJson.value Json.getInt32 "currentTerm" 0 = .ok m.currentTerm := Json.getInt32_int h.currentTerm
  have hvote : m.toJson.value Json.getInt32 "votedFor" (-1) = .ok m.votedFor := Json.getInt32_int h.votedFor
  have hlast' : m.toJson.table Json.getInt32 "clientLastRequest" = .ok _ := hlast
  have hcache' : m.toJson.table Json.getStr "clientResultCache" = .ok _ := hcache
  unfold Metadata.ofJson
  rw [hterm, hvote, hentries, hlast', hcache']
  rfl

/-- What `saveSnapshot` writes is what `RaftNode::start` reads. -/
theorem Snapshot.ofJson_toJson {snap : Snapshot} (h : snap.IsInt) : ∃ snap', Snapshot.ofJson snap.toJson = .ok snap' ∧ snap'.Same snap := by
  refine ⟨{ lastIncludedIndex := snap.lastIncludedIndex
            lastIncludedTerm := snap.lastIncludedTerm
            kvState := snap.kvState.entries.foldl (fun t p => t.insert p.1 p.2) ∅
            covered := [] }, ?_, ⟨rfl, rfl, Json.lookup_foldl_entries _⟩⟩
  have hstate (ps : List (Sigma fun _ : Str => Str)) (map : StrMap) :
      (ps.map fun p => (Json.key p.1, Json.str p.2)).foldlM
        (fun (map : StrMap) m => (m.2.getStr).map fun value => map.insert (ascii m.1) value) map =
          (.ok (ps.foldl (fun t p => t.insert p.1 p.2) map) : Except Exception StrMap) := by
    induction ps generalizing map with
    | nil => rfl
    | cons p ps ih =>
      simp only [List.map_cons, List.foldlM_cons, List.foldl_cons, ascii_key]
      exact ih _
  have hmap : (snap.toJson.member "state").bind Json.getMap = .ok _ := hstate snap.kvState.entries ∅
  have hindex : (snap.toJson.path ["metadata", "lastIncludedIndex"]).bind Json.getInt32 = .ok snap.lastIncludedIndex :=
    Json.getInt32_int h.1
  have hterm : (snap.toJson.path ["metadata", "lastIncludedTerm"]).bind Json.getInt32 = .ok snap.lastIncludedTerm :=
    Json.getInt32_int h.2
  unfold Snapshot.ofJson
  rw [hindex, hterm, hmap]
  rfl

namespace RaftNode

variable {n : RaftNode}

/-- Two nodes are the same up to the order of the tables and to what only the model has of entries and snapshots. -/
structure Same (n n' : RaftNode) : Prop where
  log : n.log = n'.log.map LogEntry.bare
  clientLastRequest : ∀ k, n.clientLastRequest.lookup k = n'.clientLastRequest.lookup k
  clientResultCache : ∀ k, n.clientResultCache.lookup k = n'.clientResultCache.lookup k
  latestSnapshot : Option.Rel Snapshot.Same n.latestSnapshot n'.latestSnapshot
  others : { n with log := [], clientLastRequest := ∅, clientResultCache := ∅, latestSnapshot := none } =
    { n' with log := [], clientLastRequest := ∅, clientResultCache := ∅, latestSnapshot := none }

/-- The numbers in the two files of a node are of type `int`. -/
structure FilesInt (n : RaftNode) : Prop where
  metadata : ∀ m, n.disk.metadata = some m → m.IsInt
  snapshotFile : ∀ snap, n.disk.snapshotFile = .saved snap → snap.IsInt

/-- A node that has just been built has the same fields when its metadata is read from the value in the file. -/
theorem loadJson_same (h : n.FilesInt) (hlog : n.log = []) (hsnap : n.latestSnapshot = none) :
    ∃ n', n.loadJson = .ok n' ∧ n'.Same n.loadMetadata := by
  unfold loadJson loadMetadata
  cases hm : n.disk.metadata with
  | none =>
    refine ⟨n, rfl, ?_, fun _ => rfl, fun _ => rfl, ?_, rfl⟩
    · rw [hlog]
      rfl
    · rw [hsnap]
      exact .none
  | some m =>
    obtain ⟨m', hread, hsame⟩ := Metadata.ofJson_toJson (h.metadata m hm)
    refine ⟨_, congrArg (Except.map _) hread, hsame.logEntries, hsame.clientLastRequest, hsame.clientResultCache, ?_, ?_⟩
    · show Option.Rel Snapshot.Same n.latestSnapshot n.latestSnapshot
      rw [hsnap]
      exact .none
    · simp only [hsame.currentTerm, hsame.votedFor]

/-- What a node has after a crash is what it had written to its files: reading them gives the node and the store that the model restarts
with, and fails exactly where a dump that threw has left one of them empty. -/
theorem restartJson_same (h : n.FilesInt) (store : KVStore) :
    Option.Rel (fun p p' => p.1.Same p'.1 ∧ ∀ k, p.2.get k = p'.2.get k) (n.restartJson store) (n.restart store) ∧
      (n.restartJson store = none ↔ n.disk.snapshotFile = .empty ∨ n.disk.metadataEmptied = true) := by
  unfold restartJson restart
  by_cases hw : n.disk.metadataEmptied = true
  · rw [if_pos hw, if_pos hw]
    exact ⟨.none, iff_of_true rfl (Or.inr hw)⟩
  rw [if_neg hw, if_neg hw]
  have hcreate : (create n.id n.rpcPort n.peerRpcPorts n.disk).FilesInt := ⟨h.metadata, h.snapshotFile⟩
  obtain ⟨n', hload, hsame⟩ := loadJson_same hcreate rfl rfl
  have hdisk := congrArg RaftNode.disk hsame.others
  have hfile : (create n.id n.rpcPort n.peerRpcPorts n.disk).loadMetadata.disk.snapshotFile = n.disk.snapshotFile := by
    unfold loadMetadata
    split <;> rfl
  rw [hload]
  show Option.Rel _ (n'.startJson store) _ ∧ (n'.startJson store = none ↔ _)
  unfold startJson start
  rw [show n'.disk.snapshotFile = n.disk.snapshotFile from (congrArg Disk.snapshotFile hdisk).trans hfile, hfile]
  cases hf : n.disk.snapshotFile with
  | absent => exact ⟨.some ⟨hsame, fun _ => rfl⟩, iff_of_false (by simp) (by simp [hw])⟩
  | empty => exact ⟨.none, iff_of_true rfl (Or.inl rfl)⟩
  | saved snap =>
    obtain ⟨snap', hread, hsnap⟩ := Snapshot.ofJson_toJson (h.snapshotFile snap hf)
    unfold readSnapshot
    simp only [hread]
    refine ⟨.some ⟨⟨hsame.log, hsame.clientLastRequest, hsame.clientResultCache, .some hsnap, ?_⟩, hsnap.lookup⟩,
      iff_of_false (by simp [Except.map, Except.toOption]) (by simp [hw])⟩
    simp only [hsnap.index]
    exact congrArg (fun x : RaftNode => { x with lastApplied := snap.lastIncludedIndex, commitIndex := snap.lastIncludedIndex })
      hsame.others

/-- A node in term 3 with one entry, which has written its metadata. -/
def writtenNode : RaftNode :=
  { create 1 5001 [5000] { metadata := none, snapshotFile := .absent } with
    currentTerm := 3
    log := [{ term := 1, index := 0, command := ascii "PUT a 1", origin := ([], 0) }] }.persistMetadata

/-- It is started again from its files. -/
theorem restartJson_same_written : writtenNode.restartJson KVStore.empty ≠ none := by
  have hfiles : writtenNode.FilesInt := by
    refine ⟨fun m hm => ?_, fun snap hs => by cases hs⟩
    obtain rfl := Option.some.inj hm
    refine ⟨by constructor <;> decide, by constructor <;> decide, fun e he => ?_, fun p hp => absurd hp List.not_mem_nil⟩
    obtain rfl := List.mem_singleton.mp he
    exact ⟨by constructor <;> decide, by constructor <;> decide⟩
  intro hnone
  exact absurd ((restartJson_same hfiles KVStore.empty).2.mp hnone) (by decide)

end RaftNode

/-! ## Short messages -/

/-- A number of type `int` takes eleven characters at most. -/
theorem width_le {i : ℤ} (h : IsInt i) : width i ≤ 11 := by
  obtain ⟨hlow, hhigh⟩ := h
  have hlog {n : ℕ} (hn : n < 10 ^ 10) : Nat.log 10 n < 10 := Nat.log_lt_of_lt_pow' (by decide) hn
  cases i with
  | ofNat n =>
    have := hlog (n := n) (by simp only [Int.ofNat_eq_natCast] at hhigh; omega)
    show Nat.log 10 n + 1 ≤ 11
    omega
  | negSucc n =>
    have := hlog (n := n + 1) (by rw [Int.negSucc_eq] at hlow; omega)
    show Nat.log 10 (n + 1) + 2 ≤ 11
    omega

/-- No character of a Base64 text is escaped. -/
theorem base64Encode_weight (data : Str) : ((base64Encode data).map weight).sum = 4 * ((data.length + 2) / 3) := by
  have hchars : ∀ c ∈ base64Chars, weight c = 1 := by decide +kernel
  obtain ⟨chars, heq, hmem⟩ := standardBase64_padded data
  have htext : base64Encode data = standardBase64 data := encodeFrom_standard 0 data
  have hone : ∀ w ∈ (base64Encode data).map weight, w = 1 := by
    intro w hw
    obtain ⟨c, hc, rfl⟩ := List.mem_map.mp hw
    rw [htext, heq] at hc
    rcases List.mem_append.mp hc with hc | hc
    · exact hchars c (hmem c hc).1
    · rw [List.eq_of_mem_replicate hc]
      decide
  rw [List.eq_replicate_of_mem hone, List.sum_replicate_nat, List.length_map, htext, standardBase64_length, mul_one]

/-- A chunk has 512 bytes at most. -/
theorem Transfer.chunk_length_le (t : Transfer) : ((t.snapBytes.take t.stop).drop t.offset).length ≤ 512 := by
  have hstop : t.stop ≤ t.offset + 512 := min_le_left _ _
  rw [List.length_drop, List.length_take]
  omega

theorem RequestVoteRPC.toJson_length (m : RequestVoteRPC) :
    m.toJson.text.length = 75 + width m.term + width m.candidateId + width m.lastLogIndex + width m.lastLogTerm := by
  have h1 : (quote (ascii "rpc")).length = 5 := by decide
  have h2 : (quote (ascii "term")).length = 6 := by decide
  have h3 : (quote (ascii "candidateId")).length = 13 := by decide
  have h4 : (quote (ascii "lastLogIndex")).length = 14 := by decide
  have h5 : (quote (ascii "lastLogTerm")).length = 13 := by decide
  have h6 : (quote (ascii "RequestVote")).length = 13 := by decide
  have hlit : (Json.lit "RequestVote").text = quote (ascii "RequestVote") := rfl
  have hint (i : ℤ) : (Json.int i).text.length = width i := toString_length i
  unfold toJson
  rw [Json.obj_length]
  simp only [List.map_cons, List.map_nil, List.sum_cons, List.sum_nil, List.length_cons, List.length_nil, h1, h2, h3, h4, h5, h6, hlit, hint]
  omega

theorem InstallSnapshotRPC.toJson_length (m : InstallSnapshotRPC) (chunkNum totalChunks : ℤ) :
    (m.toJson chunkNum totalChunks).text.length = 141 + width m.term + width m.leaderId + width m.lastIncludedIndex +
      width m.lastIncludedTerm + width m.offset + (m.data.map weight).sum + (if m.done then 4 else 5) + width chunkNum + width totalChunks := by
  have h1 : (quote (ascii "rpc")).length = 5 := by decide
  have h2 : (quote (ascii "term")).length = 6 := by decide
  have h3 : (quote (ascii "leaderId")).length = 10 := by decide
  have h4 : (quote (ascii "lastIncludedIndex")).length = 19 := by decide
  have h5 : (quote (ascii "lastIncludedTerm")).length = 18 := by decide
  have h6 : (quote (ascii "offset")).length = 8 := by decide
  have h7 : (quote (ascii "data")).length = 6 := by decide
  have h8 : (quote (ascii "done")).length = 6 := by decide
  have h9 : (quote (ascii "chunkNum")).length = 10 := by decide
  have h10 : (quote (ascii "totalChunks")).length = 13 := by decide
  have h11 : (quote (ascii "InstallSnapshot")).length = 17 := by decide
  have hlit : (Json.lit "InstallSnapshot").text = quote (ascii "InstallSnapshot") := rfl
  have hint (i : ℤ) : (Json.int i).text.length = width i := toString_length i
  have hstr : (Json.str m.data).text.length = (m.data.map weight).sum + 2 := quote_length m.data
  have hbool : (Json.bool m.done).text.length = if m.done then 4 else 5 := by cases m.done <;> rfl
  unfold toJson
  rw [Json.obj_length]
  simp only [List.map_cons, List.map_nil, List.sum_cons, List.sum_nil, List.length_cons, List.length_nil, h1, h2, h3, h4, h5, h6, h7, h8, h9,
    h10, h11, hlit, hint, hstr, hbool]
  omega

theorem RequestVoteRPC.toJson_ne_zero (m : RequestVoteRPC) : ∀ b ∈ m.toJson.text, b ≠ 0 := by
  refine Json.obj_ne_zero fun x hx => ?_
  simp only [List.mem_cons, List.not_mem_nil, or_false] at hx
  rcases hx with rfl | rfl | rfl | rfl | rfl
  · exact quote_ne_zero _
  all_goals exact toString_ne_zero _

theorem InstallSnapshotRPC.toJson_ne_zero (m : InstallSnapshotRPC) (chunkNum totalChunks : ℤ) :
    ∀ b ∈ (m.toJson chunkNum totalChunks).text, b ≠ 0 := by
  refine Json.obj_ne_zero fun x hx => ?_
  simp only [List.mem_cons, List.not_mem_nil, or_false] at hx
  rcases hx with rfl | rfl | rfl | rfl | rfl | rfl | rfl | rfl | rfl | rfl
  · exact quote_ne_zero _
  · exact toString_ne_zero _
  · exact toString_ne_zero _
  · exact toString_ne_zero _
  · exact toString_ne_zero _
  · exact toString_ne_zero _
  · exact quote_ne_zero _
  · show ∀ b ∈ (Json.bool m.done).text, b ≠ 0
    cases m.done <;> decide +kernel
  · exact toString_ne_zero _
  · exact toString_ne_zero _

/-- A text without zero bytes that is short enough comes in whole. -/
theorem received_whole {payload : Str} (hlen : payload.length ≤ recvSize) (hz : ∀ b ∈ payload, b ≠ 0) : received payload = payload := by
  unfold received
  rw [List.take_of_length_le hlen, List.takeWhile_eq_self_iff]
  exact fun b hb => bne_iff_ne.mpr (hz b hb)

/-- Of the messages that a node sends, those without entries have 2040 bytes at most, and come in whole: the branch of the transfer loops
that makes the chunks smaller is never taken. -/
theorem Site.Step.sends_short {size next : ℕ} {s : Site} {store : KVStore} {i : Input} {o : Outcome} (hs : Site.Step size next s store i o)
    {x : Send} (hx : o.send = some x) (hno : ∀ m, x.req ≠ .appendEntries m) (hint : x.req.IsInt) (t : Option Transfer)
    (ht : ∀ u ∈ t, IsInt u.chunkNum ∧ IsInt u.chunkCount) :
    (x.req.toJson t).text.length ≤ 2040 ∧ received (x.req.toJson t).text = (x.req.toJson t).text := by
  have hzero : IsInt 0 := by constructor <;> decide
  have hchunk (u : Transfer) {m : InstallSnapshotRPC} (hm : m = u.message s.node) (hint : Request.IsInt (.installSnapshot m)) :
      ((Request.installSnapshot m).toJson t).text.length ≤ 2040 := by
    obtain ⟨h1, h2, h3, h4, h5⟩ := hint
    have hnum : width ((t.map fun u => (u.chunkNum : ℤ)).getD 0) ≤ 11 ∧ width ((t.map fun u => (u.chunkCount : ℤ)).getD 0) ≤ 11 := by
      cases t with
      | none => exact ⟨width_le hzero, width_le hzero⟩
      | some u => exact ⟨width_le (ht u rfl).1, width_le (ht u rfl).2⟩
    have hdata : (m.data.map weight).sum ≤ 684 := by
      subst hm
      have := u.chunk_length_le
      show ((base64Encode _).map weight).sum ≤ 684
      rw [base64Encode_weight]
      omega
    have hdone : (if m.done then 4 else 5) ≤ 5 := by split <;> decide
    have := width_le h1
    have := width_le h2
    have := width_le h3
    have := width_le h4
    have := width_le h5
    show (m.toJson _ _).text.length ≤ 2040
    rw [InstallSnapshotRPC.toJson_length]
    omega
  have hsize : (2040 : ℕ) ≤ recvSize := by decide
  cases hs with
  | ask el p rest he hp hr =>
    obtain rfl := Option.some.inj hx
    obtain ⟨h1, h2, h3, h4⟩ := hint
    have := width_le h1
    have := width_le h2
    have := width_le h3
    have := width_le h4
    have hlen : (RequestVoteRPC.toJson s.node.voteRequest).text.length ≤ 2040 := by
      rw [RequestVoteRPC.toJson_length]
      omega
    exact ⟨hlen, received_whole (hlen.trans hsize) (RequestVoteRPC.toJson_ne_zero _)⟩
  | sendHeartbeat hb j p hh hp hrun hi hn entries hes =>
    obtain rfl := Option.some.inj hx
    exact absurd rfl (hno _)
  | sendHeartbeatChunk hb j u p hh hp hi =>
    obtain rfl := Option.some.inj hx
    have hlen := hchunk u rfl hint
    exact ⟨hlen, received_whole (hlen.trans hsize) (InstallSnapshotRPC.toJson_ne_zero _ _ _)⟩
  | send k call p hk hp hi =>
    obtain rfl := Option.some.inj hx
    exact absurd rfl (hno _)
  | sendChunk k call u p hk hp hi =>
    obtain rfl := Option.some.inj hx
    have hlen := hchunk u rfl hint
    exact ⟨hlen, received_whole (hlen.trans hsize) (InstallSnapshotRPC.toJson_ne_zero _ _ _)⟩
  | _ => cases hx

/-- The transfer of a snapshot with a value of 600 bytes. -/
def longTransfer : Transfer :=
  Transfer.start
    { lastIncludedIndex := 4, lastIncludedTerm := 1, kvState := (∅ : StrMap).insert (ascii "k") (List.replicate 600 0x76), covered := [] }

/-- A leader about to send the first chunk of it. -/
def sendingSite : Site :=
  { Site.create 0 5000 [5001] with heartbeat := some { phase := .chunk 0 longTransfer, term := 1 } }

theorem longTransfer_length : longTransfer.snapBytes.length = 621 := by
  decide +kernel

/-- The chunk that it sends has 512 bytes, and its message is short. -/
theorem sends_short_chunk : ∃ o x m, Site.Step 2 0 sendingSite KVStore.empty (.step .heartbeat) o ∧ o.send = some x ∧
    x.req = .installSnapshot m ∧ m.data.length = 684 ∧ (x.req.toJson (some longTransfer)).text.length ≤ 2040 := by
  have hint {i : ℤ} (h0 : 0 ≤ i) (h9 : i ≤ 9) : IsInt i := ⟨by omega, by omega⟩
  have hcount : longTransfer.chunkCount = 2 := by
    unfold Transfer.chunkCount
    rw [longTransfer_length]
    rfl
  have hchunk : ((longTransfer.snapBytes.take longTransfer.stop).drop longTransfer.offset).length = 512 := by
    unfold Transfer.stop
    rw [List.length_drop, List.length_take, longTransfer_length]
    rfl
  have hstep : Site.Step 2 0 sendingSite KVStore.empty (.step .heartbeat) _ := .sendHeartbeatChunk _ 0 _ 5001 rfl rfl rfl
  have hshort := hstep.sends_short rfl (fun m h => by cases h)
    ⟨hint le_rfl (by decide), hint le_rfl (by decide), hint (by decide) (by decide), hint (by decide) (by decide), hint le_rfl (by decide)⟩
    (some longTransfer) (fun u h => by
      obtain rfl := Option.some.inj h
      exact ⟨hint le_rfl (by decide), by rw [hcount]; exact hint (by decide) (by decide)⟩)
  have hdata : (base64Encode ((longTransfer.snapBytes.take longTransfer.stop).drop longTransfer.offset)).length = 684 := by
    have htext : base64Encode _ = standardBase64 ((longTransfer.snapBytes.take longTransfer.stop).drop longTransfer.offset) :=
      encodeFrom_standard 0 _
    rw [htext, standardBase64_length, hchunk]
  exact ⟨_, _, _, hstep, rfl, rfl, hdata, hshort.1⟩

end RaftStore
