import RaftStore.Theorems.Convergence

/-!
# A snapshot that never arrives

A follower without entries gets a leader's snapshot chunk by chunk, and the chunk loop counts the bytes in an `int`. A store of two
million values of a kilobyte has an image that the loop cannot go through, and a follower that needs it is never brought up.
-/

namespace RaftStore

/-! ## What a node of a run has applied -/

namespace RaftNode

variable {n : RaftNode} {store : KVStore} {m : AppendEntriesRPC}

theorem Roomy.congr (h : n.Roomy) {n' : RaftNode} (hp : n'.progress = n.progress) (hs : n'.latestSnapshot = n.latestSnapshot) :
    n'.Roomy := by
  have ha : n'.lastApplied = n.lastApplied := congrArg Progress.lastApplied hp
  have hb : n'.baseIndex = n.baseIndex := by rw [baseIndex, baseIndex, hs]
  unfold Roomy
  rw [ha, hb]
  exact h

/-- A snapshot reaches up to what is applied. -/
theorem createSnapshot_roomy (n : RaftNode) (store : KVStore) : (n.createSnapshot store).1.Roomy := by
  have ha : (n.createSnapshot store).1.lastApplied = n.lastApplied := congrArg Progress.lastApplied (n.createSnapshot_progress store)
  have hb : (n.createSnapshot store).1.baseIndex = n.lastApplied + 1 := by
    rw [baseIndex, (n.createSnapshot_log store).1]
    rfl
  unfold Roomy
  rw [ha, hb]
  unfold snapshotThreshold
  omega

/-- A commit section up to an index of the log: it applies fewer entries than make a snapshot, or takes one. -/
theorem Roomy.commit (h : n.Roomy) {k : ℤ} (hk : k < n.getLogSize) (store store' : KVStore) :
    (((n.setCommitIndex k).applyCommitted store).node.snapshotAtThreshold store').1.Roomy := by
  obtain ⟨y, hy⟩ : ∃ y, y = ((n.setCommitIndex k).applyCommitted store).node := ⟨_, rfl⟩
  have hnode : y = { n with lastApplied := max n.lastApplied k, commitIndex := k } := by
    rw [hy, applyCommitted_node]
    rfl
  rw [← hy]
  unfold snapshotAtThreshold
  split
  · exact y.createSnapshot_roomy store'
  · next hlt =>
    have hsize : n.getLogSize = n.baseIndex + n.log.length := rfl
    have hroom : n.lastApplied < n.baseIndex + snapshotThreshold := h
    rw [hnode] at hlt ⊢
    show max n.lastApplied k < n.baseIndex + snapshotThreshold
    simp only at hlt
    omega

/-- What the AppendEntries handler leaves. -/
theorem Roomy.handleAppendEntries (h : n.Roomy) (store : KVStore) (m : AppendEntriesRPC) :
    (n.handleAppendEntries store m).node.Roomy := by
  have hdown : (n.stepDown m).Roomy := by
    obtain ⟨_, _, _, _, _, heq⟩ := n.stepDown_shape m
    rw [heq]
    exact h.congr rfl rfl
  have hacc : ((n.stepDown m).acceptEntries m).Roomy := by
    obtain ⟨log, heq⟩ := (n.stepDown m).acceptEntries_eq m
    rw [heq]
    exact hdown.congr rfl rfl
  rcases n.handleAppendEntries_node store m with heq | ⟨_, heq | heq⟩
  · rw [heq]
    exact h
  · rw [heq]
    exact hacc
  · rw [heq]
    exact hacc.commit (by omega) store _

/-- What the InstallSnapshot handler leaves: an installed snapshot reaches up to what is applied. -/
theorem Roomy.handleInstallSnapshot (h : n.Roomy) {m : InstallSnapshotRPC} {r : Handled}
    (hr : n.handleInstallSnapshot store m = some r) : r.node.Roomy := by
  have hseen (b : Str) : ((n.seeTerm m.term).setBuffer b).Roomy := by
    obtain ⟨_, _, _, _, _, heq⟩ := n.seeTerm_shape m.term
    rw [heq]
    exact h.congr rfl rfl
  rcases handleInstallSnapshot_node hr with heq | ⟨_, b, heq | heq | ⟨_, snap, _, _, _, heq⟩⟩
  · rw [heq]
    exact h
  · rw [heq]
    exact hseen b
  · rw [heq]
    exact (hseen b).congr rfl rfl
  · rw [heq]
    show snap.lastIncludedIndex < snap.lastIncludedIndex + 1 + snapshotThreshold
    unfold snapshotThreshold
    omega

/-- What any handler leaves. -/
theorem Roomy.handle (h : n.Roomy) {req : Request} {r : Handled} (hr : n.handle store req = some r) : r.node.Roomy := by
  cases req with
  | requestVote m =>
    obtain rfl := Option.some.inj hr
    have hseen : (n.seeTerm m.term).Roomy := by
      obtain ⟨_, _, _, _, _, heq⟩ := n.seeTerm_shape m.term
      rw [heq]
      exact h.congr rfl rfl
    show (n.handleRequestVote store m).node.Roomy
    unfold handleRequestVote
    simp only
    split
    · exact h
    · split
      · exact hseen.congr rfl rfl
      · exact hseen
  | appendEntries m =>
    obtain rfl := Option.some.inj hr
    exact h.handleAppendEntries store m
  | installSnapshot m => exact h.handleInstallSnapshot hr

/-- A node that is started again has applied what its snapshot stands for. -/
theorem Sound.restart_roomy {n' : RaftNode} (h : n.Sound) {store' : KVStore} (hr : n.restart store = some (n', store')) : n'.Roomy := by
  obtain ⟨_, rfl⟩ := h.restart_eq hr
  unfold Roomy baseIndex lastIncluded snapshotThreshold
  cases hs : n.latestSnapshot with
  | none => simp
  | some snap =>
    simp only [Option.map_some, Option.getD_some]
    omega

end RaftNode

namespace Site

variable {size next : ℕ} {s : Site} {store : KVStore} {i : Input} {o : Outcome}

/-- The node is roomy, and its client commands have appended entries of the terms of elections. -/
structure Roomy (s : Site) : Prop where
  node : s.node.Roomy
  client : ∀ call ∈ s.clients, 1 ≤ call.entry.term

/-- A client command goes on with its entry. -/
theorem Roomy.clientAt (h : s.Roomy) {n : RaftNode} (hn : n.Roomy) {k : ℕ} {call call' : ClientCall} (hc : s.clients[k]? = some call)
    (he : call'.entry = call.entry) : ({ s with node := n }.clientAt k call').Roomy := by
  refine ⟨hn, fun c hmem => ?_⟩
  obtain ⟨call₀, hcall₀, hentry⟩ := entry_of_mem_set hc he hmem
  rw [hentry]
  exact h.client call₀ hcall₀

/-- Every step keeps a site roomy. -/
theorem Roomy.step (h : s.Roomy) (hs : s.Sound) (hst : Step size next s store i o) : o.site.Roomy := by
  have hn := h.node
  have hsame {n : RaftNode} (hp : n.progress = s.node.progress) (hl : n.latestSnapshot = s.node.latestSnapshot) : n.Roomy :=
    hn.congr hp hl
  cases hst with
  | startElection he hl => exact ⟨hsame rfl rfl, h.client⟩
  | join el he hp hh => exact ⟨hsame rfl rfl, h.client⟩
  | win el he hp hr hv =>
    obtain ⟨_, _, heq⟩ := s.elected_node el
    refine ⟨?_, fun call hc => h.client call (s.elected_clients el ▸ hc)⟩
    rw [heq]
    exact hsame rfl rfl
  | voteLater el call r term g he hp hr ht => exact ⟨hsame rfl rfl, h.client⟩
  | heartbeatLater hb j nextIdx count call r term success hh hp hr ht => exact ⟨hsame rfl rfl, h.client⟩
  | heartbeatReply hb j nextIdx count call r term success hh hp hr ht =>
    obtain ⟨_, _, heq⟩ := heartbeatAnswered_shape s.node j nextIdx count success
    refine ⟨?_, h.client⟩
    show (heartbeatAnswered s.node j nextIdx count success).Roomy
    rw [heq]
    exact hsame rfl rfl
  | heartbeatChunkReply hb j t call r hh hp phase hph =>
    obtain ⟨_, _, heq⟩ := t.reply_shape s.node j r
    refine ⟨?_, h.client⟩
    show (t.reply s.node j r).1.Roomy
    rw [heq]
    exact hsame rfl rfl
  | append req hl hc =>
    have hterm : 1 ≤ s.node.currentTerm := hs.state_term (by rw [hl]; decide)
    refine ⟨hsame rfl rfl, fun c hmem => ?_⟩
    rcases List.mem_append.mp hmem with hmem | hmem
    · exact h.client c hmem
    · obtain rfl := List.mem_singleton.mp hmem
      exact hterm
  | send k call p hc hp hi => exact h.clientAt hn hc rfl
  | commit k call hc hp hi hm =>
    have hterm : 1 ≤ s.node.currentTerm :=
      (h.client call (List.mem_of_getElem? hc)).trans (hs.client call (List.mem_of_getElem? hc)).1
    have hlt : call.newIndex < s.node.getLogSize := (RaftNode.lt_of_getLogTerm_ne (by rw [hm.1]; omega)).1
    have hup : (s.node.setCommitIndex call.newIndex).Sound := hs.node.congr rfl rfl rfl rfl
    refine h.clientAt ?_ hc rfl
    unfold commit
    simp only [hup.applyWhileUp_eq]
    exact (hn.commit hlt store _).congr rfl rfl
  | notCommitted k call hc hp hi hm => exact h.clientAt hn hc rfl
  | sendChunk k call t p hc hp hi => exact h.clientAt hn hc rfl
  | lost k call id r hc hp hr => exact h.clientAt hn hc rfl
  | later k call id r term success hc hp hr ht =>
    have hfollow : (s.node.followReply term).Roomy := hsame rfl rfl
    exact h.clientAt hfollow hc rfl
  | success k call id r term hc hp hr ht =>
    have hanswered : (clientAnswered s.node call).Roomy := hsame rfl rfl
    exact h.clientAt hanswered hc rfl
  | failure k call id r term hc hp hr ht call' hc' =>
    have hretreat : (s.node.retreat call.i).Roomy := by
      obtain ⟨_, heq⟩ := s.node.retreat_shape call.i
      rw [heq]
      exact hsame rfl rfl
    refine h.clientAt hretreat hc ?_
    rw [hc']
    split <;> rfl
  | chunkReply k call t id r hc hp call' hc' =>
    have hreply : (t.reply s.node call.i r).1.Roomy := by
      obtain ⟨_, _, heq⟩ := t.reply_shape s.node call.i r
      rw [heq]
      exact hsame rfl rfl
    refine h.clientAt hreply hc ?_
    rw [hc']
    split <;> rfl
  | receive req r hr => exact ⟨hn.handle hr, h.client⟩
  | snapshotNow hl => exact ⟨s.node.createSnapshot_roomy store, h.client⟩
  | restart n store' hr => exact ⟨hs.node.restart_roomy hr, fun c hmem => absurd hmem List.not_mem_nil⟩
  | _ => exact ⟨hn, h.client⟩

end Site

namespace Cluster

variable {N : ℕ} {c : Cluster N}

/-- In every run every node has applied fewer entries above its snapshot than make another one. -/
theorem Reachable.roomy {P : Cluster N → Action N → Prop} (h : Reachable P c) (v : Fin N) : (c.sites v).Roomy := by
  induction h with
  | init =>
    refine ⟨?_, fun _ hc => absurd hc List.not_mem_nil⟩
    show (0 : ℤ) < 0 + (3000 : ℕ)
    omega
  | step hreach hP hstep ih =>
    rcases step_cases hstep with ⟨u, i, o, hi, hs⟩ | ⟨id, y, _, _, _, rfl⟩
    · rw [hs.site v]
      split
      · next hv => exact (hv ▸ ih).step (hreach.sound.site u) ((hreach.sound.site u).step hs.outcome).1
      · exact ih
    · exact ih

end Cluster

/-! ## An image that is not sent -/

/-- A key of `w` letters `a` and `b`: the binary digits of `j`. -/
def binaryKey (w j : ℕ) : Str := (List.range w).map fun b => if j.testBit b then 98 else 97

theorem binaryKey_inj {w j k : ℕ} (hj : j < 2 ^ w) (hk : k < 2 ^ w) (h : binaryKey w j = binaryKey w k) : j = k := by
  refine Nat.eq_of_testBit_eq fun b => ?_
  rcases Nat.lt_or_ge b w with hb | hb
  · have hget := congrArg (fun l : Str => l[b]?) h
    simp only [binaryKey, List.getElem?_map, List.getElem?_range hb, Option.map_some, Option.some.injEq] at hget
    cases hbj : j.testBit b <;> cases hbk : k.testBit b <;> simp [hbj, hbk] at hget ⊢
  · have hle : 2 ^ w ≤ 2 ^ b := Nat.pow_le_pow_right (by omega) hb
    rw [Nat.testBit_lt_two_pow (by omega), Nat.testBit_lt_two_pow (by omega)]

/-- A value of a kilobyte. -/
def kilobyte : Str := List.replicate 1024 120

/-- A store that has a kilobyte for each of the keys. -/
def fullMap (w : ℕ) : StrMap where
  entries := (List.range (2 ^ w)).map fun j => ⟨binaryKey w j, kilobyte⟩
  nodupKeys := by
    show (List.map Sigma.fst _).Nodup
    rw [List.map_map]
    refine List.Nodup.map_on (fun j hj k hk h => ?_) List.nodup_range
    exact binaryKey_inj (List.mem_range.mp hj) (List.mem_range.mp hk) h

/-- The commands that make it: a `PUT` for each key, the first of which is committed and not applied, and given again at the end. -/
def fills (w : ℕ) : List LogEntry :=
  (List.range (2 ^ w + 1)).map fun (j : ℕ) =>
    { term := 1, index := (j : ℤ), command := ascii "PUT " ++ binaryKey w (j % 2 ^ w) ++ ascii " " ++ kilobyte, origin := ([], 0) }

/-- The snapshot of that store. -/
def fullSnapshot (w : ℕ) : Snapshot where
  lastIncludedIndex := (2 ^ w : ℕ)
  lastIncludedTerm := 1
  kvState := fullMap w
  covered := fills w

namespace Exchange

variable {w : ℕ}

/-- A leader of term 2 whose log is under the snapshot, and a follower of the same term that has been away until then. -/
def distant (w : ℕ) : Exchange where
  leader :=
    { RaftNode.create 0 5000 [5001, 5002] { metadata := none, snapshotFile := .saved (fullSnapshot w) } with
      state := .leader
      currentTerm := 2
      commitIndex := (2 ^ w : ℕ)
      lastApplied := (2 ^ w : ℕ)
      latestSnapshot := some (fullSnapshot w)
      nextIndex := [(2 ^ w : ℕ) + 1, (2 ^ w : ℕ) + 1] }
  follower := { RaftNode.create 1 5001 [5000, 5002] { metadata := none, snapshotFile := .absent } with currentTerm := 2 }
  store := { KVStore.empty with mp := fullMap w }

/-- The leader has the whole log under its snapshot. -/
theorem distant_full (w : ℕ) : (distant w).leader.full = fills w := List.append_nil _

theorem fills_getElem? {j : ℕ} {e : LogEntry} (h : (fills w)[j]? = some e) : j < 2 ^ w + 1 ∧ e.term = 1 ∧ e.index = j := by
  unfold fills at h
  rw [List.getElem?_map] at h
  rcases Nat.lt_or_ge j (2 ^ w + 1) with hj | hj
  · rw [List.getElem?_range hj] at h
    obtain rfl := Option.some.inj h
    exact ⟨hj, rfl, rfl⟩
  · rw [List.getElem?_eq_none (by rw [List.length_range]; omega)] at h
    cases h

theorem fills_length (w : ℕ) : (fills w).length = 2 ^ w + 1 := by
  unfold fills
  rw [List.length_map, List.length_range]

theorem fills_placed (w : ℕ) : Placed 0 (fills w) := by
  intro j e he
  obtain ⟨_, hterm, hindex⟩ := fills_getElem? he
  exact ⟨by rw [hindex]; simp, hterm.ge⟩

theorem fullSnapshot_genuine (w : ℕ) : (fullSnapshot w).Genuine where
  index_nonneg := Int.natCast_nonneg _
  length := by
    show ((fills w).length : ℤ) = (2 ^ w : ℕ) + 1
    rw [fills_length]
    rfl
  term := by
    show ((fills w).getLast?).map (·.term) = some 1
    rw [List.getLast?_eq_getElem?, fills_length, Nat.add_sub_cancel]
    obtain ⟨e, he⟩ : ∃ e, (fills w)[2 ^ w]? = some e := ⟨_, List.getElem?_eq_getElem (by rw [fills_length]; omega)⟩
    rw [he, Option.map_some, (fills_getElem? he).2.1]
  placed := fills_placed w

theorem distant_leader (w : ℕ) : (distant w).leader.Aligned where
  genuine s hs := by
    obtain rfl := Option.some.inj hs
    exact fullSnapshot_genuine w
  placed := by
    rw [distant_full]
    exact fills_placed w
  applied_nonneg := Int.natCast_nonneg _
  applied_base := le_rfl
  applied_lt := .inr (by
    rw [distant_full, fills_length]
    show ((2 ^ w : ℕ) : ℤ) < ((2 ^ w + 1 : ℕ) : ℤ)
    omega)
  nextIndex i hi := by
    have hi : i ∈ [((2 ^ w : ℕ) : ℤ) + 1, ((2 ^ w : ℕ) : ℤ) + 1] := hi
    have hpos : 0 ≤ ((2 ^ w : ℕ) : ℤ) := Int.natCast_nonneg _
    simp only [List.mem_cons, List.not_mem_nil, or_false, or_self] at hi
    omega

theorem distant_follower (w : ℕ) : (distant w).follower.Aligned :=
  ⟨nofun, Placed.nil 0, le_rfl, zero_le_one, .inl rfl, fun i hi => by
    obtain ⟨_, _, rfl⟩ := List.mem_map.mp (show i ∈ [5000, 5002].map fun _ => (0 : ℤ) from hi)
    exact le_rfl⟩

theorem kilobyte_isUtf8 : isUtf8 kilobyte = true := isUtf8_of_low fun b hb => by
  rw [List.eq_of_mem_replicate hb]
  decide

theorem binaryKey_isUtf8 (w j : ℕ) : isUtf8 (binaryKey w j) = true := isUtf8_of_low fun b hb => by
  obtain ⟨k, _, rfl⟩ := List.mem_map.mp hb
  split <;> decide

/-- The snapshot is one that is saved. -/
theorem fullSnapshot_dumps (w : ℕ) : (fullSnapshot w).dumps = true := by
  refine List.all_eq_true.mpr fun p hp => ?_
  obtain ⟨j, _, rfl⟩ := List.mem_map.mp (show p ∈ (List.range (2 ^ w)).map fun j => ⟨binaryKey w j, kilobyte⟩ from hp)
  rw [binaryKey_isUtf8, kilobyte_isUtf8]
  rfl

theorem fullSnapshot_length (w : ℕ) : (serializeSnapshot (fullSnapshot w)).length = 12 + 2 ^ w * (1032 + w) := by
  have hpair (j : ℕ) : (serializePair (binaryKey w j) kilobyte).length = 1032 + w := by
    rw [serializePair_length, binaryKey, List.length_map, List.length_range, kilobyte, List.length_replicate]
    omega
  rw [Snapshot.serializeSnapshot_length]
  show 12 + (((List.range (2 ^ w)).map fun j => (⟨binaryKey w j, kilobyte⟩ : Sigma fun _ : Str => Str)).map
    fun p => serializePair p.1 p.2).flatten.length = _
  rw [List.map_map, List.length_flatten, List.map_map]
  simp only [Function.comp_def, hpair, List.map_const', List.sum_replicate_nat, List.length_range]

theorem distant_begun {w : ℕ} (hw : w < 31) : Begun 0 (distant w) where
  term := rfl
  idle := rfl
  leader := distant_leader w
  follower := distant_follower w
  matching j h := by
    obtain ⟨_, _, he, _⟩ := h
    cases he
  below := List.nil_prefix
  saved s hs := by
    obtain rfl := Option.some.inj hs
    refine ⟨⟨⟨?_, ?_⟩, ?_⟩, fullSnapshot_dumps w⟩
    · have hpos : 0 ≤ ((2 ^ w : ℕ) : ℤ) := Int.natCast_nonneg _
      show (-2 ^ 31 : ℤ) ≤ (2 ^ w : ℕ)
      omega
    · have hlt : 2 ^ w < 2 ^ 31 := Nat.pow_lt_pow_right (by omega) hw
      show ((2 ^ w : ℕ) : ℤ) < 2 ^ 31
      omega
    · show (-2 ^ 31 : ℤ) ≤ 1 ∧ (1 : ℤ) < 2 ^ 31
      omega
  next := by
    show some (((2 ^ w : ℕ) : ℤ) + 1) = some ((2 ^ w : ℕ) + 1 + ([] : List LogEntry).length)
    simp

/-- A round that would send a snapshot whose image is too long has no defined outcome. -/
theorem round_of_long {x : Exchange} {i : ℕ} {snap : Snapshot} (hn : x.leader.neededSnapshot i = some snap)
    (hlong : 2 ^ 31 ≤ (serializeSnapshot snap).length) : x.round i = none := by
  obtain ⟨fuel, hfuel⟩ : ∃ fuel, (Transfer.start snap).chunkCount = fuel + 1 :=
    Nat.exists_eq_succ_of_ne_zero (Transfer.start_chunkCount snap).ne'
  have hno : ¬(Transfer.start snap).Counted := fun h => absurd h.2 (not_lt.mpr hlong)
  unfold round transfer
  rw [hn]
  simp only [hfuel]
  unfold Transfer.deliver
  rw [if_neg hno]
  rfl

/-- The follower has nothing, so that the first batch is refused. -/
theorem distant_refused {w : ℕ} (hw : w < 31) : ∃ y, (distant w).round 0 = some y ∧ y.Led (distant w).leader 0 ∧
    (y.view 0).next = 2 ^ w := by
  have hled := (distant_begun hw).led
  have hnext : ((distant w).view 0).next = 2 ^ w + 1 := by
    show (((2 ^ w : ℕ) : ℤ) + 1).toNat = _
    rw [← Nat.cast_succ, Int.toNat_natCast]
  have hneed : (distant w).leader.neededSnapshot 0 = none := by
    unfold RaftNode.neededSnapshot
    refine Option.filter_eq_none_iff.mpr fun s hs => ?_
    obtain rfl := Option.some.inj hs
    show ¬decide (((2 ^ w : ℕ) : ℤ) + 1 ≤ ((2 ^ w : ℕ) : ℤ)) = true
    rw [decide_eq_true_eq]
    exact not_le.mpr (Int.lt_succ _)
  obtain ⟨m, y, hm, haway, hround, hy, hf⟩ := hled.request hneed
  have hp : (distant w).follower.prevMatches m = false := by
    have hprev := hm.prev
    rw [hnext] at hprev
    cases hp : (distant w).follower.prevMatches m with
    | false => rfl
    | true =>
      rw [Nat.cast_succ, add_left_inj] at hprev
      obtain ⟨_, e, he, _⟩ := (distant_follower w).prevMatches_full (hprev ▸ Int.natCast_nonneg _) hp
      cases he
  rw [hp] at hy
  obtain ⟨hled', hview, _⟩ := hled.refused haway hm.term hp hnext hy hf
  exact ⟨y, hround, hled', congrArg Systems.CatchUp.next hview⟩

/-- Where the image is too long, no number of rounds brings the follower up. -/
theorem distant_never {w : ℕ} (hw : w < 31) (hlong : 2 ^ 31 ≤ (serializeSnapshot (fullSnapshot w)).length) (k : ℕ) {y : Exchange}
    (hy : (distant w).rounds 0 k = some y) : ¬Converged 0 (distant w) y := by
  intro hdone
  obtain ⟨z, hz, hled, hnext⟩ := distant_refused hw
  have hsize : (distant w).leader.getLogSize = (2 ^ w : ℕ) + 1 := by
    rw [(distant_leader w).getLogSize_eq, distant_full, fills_length]
    rfl
  match k with
  | 0 =>
    -- at the start the follower has no term for the last index
    obtain rfl := Option.some.inj hy
    have hpos : 0 ≤ ((2 ^ w : ℕ) : ℤ) := Int.natCast_nonneg _
    have hterm := hdone.term (2 ^ w : ℕ) hpos (by
      show max (((2 ^ w : ℕ) : ℤ) + 1) 0 - 1 ≤ _
      omega) (by rw [hsize]; omega)
    have hlead : (distant w).leader.getLogTerm (2 ^ w : ℕ) = 1 := by
      show (if ((2 ^ w : ℕ) : ℤ) ≤ (2 ^ w : ℕ) then if ((2 ^ w : ℕ) : ℤ) = (2 ^ w : ℕ) then (1 : ℤ) else 0 else _) = 1
      rw [if_pos le_rfl, if_pos rfl]
    have hfollow : (distant w).follower.getLogTerm (2 ^ w : ℕ) = 0 := by
      rw [(distant_follower w).getLogTerm_eq hpos (show (0 : ℤ) ≤ (2 ^ w : ℕ) + 1 by omega)]
      rfl
    rw [hlead, hfollow] at hterm
    cases hterm
  | 1 =>
    rw [show (distant w).rounds 0 1 = ((distant w).round 0).bind some from rfl, hz] at hy
    obtain rfl := Option.some.inj hy
    have hcaught := hdone.next
    rw [hled.getLogSize_eq, distant_full, fills_length] at hcaught
    have hget := hled.nextIndex_eq
    rw [List.getD_eq_getElem?_getD, hcaught, hnext] at hget
    simp only [Option.getD_some] at hget
    omega
  | k + 2 =>
    have hneed : z.leader.neededSnapshot 0 = some (fullSnapshot w) := by
      have hget := hled.nextIndex_eq
      obtain ⟨_, _, hstill⟩ := hled.still
      have hsnap : z.leader.latestSnapshot = some (fullSnapshot w) := by
        rw [hstill]
        rfl
      unfold RaftNode.neededSnapshot
      rw [hsnap]
      refine Option.filter_eq_some_iff.mpr ⟨rfl, ?_⟩
      rw [decide_eq_true_eq, hget, hnext]
      exact le_rfl
    rw [show (distant w).rounds 0 (k + 2) = ((distant w).round 0).bind fun z => (z.round 0).bind (rounds 0 k) from rfl, hz] at hy
    simp only [Option.bind_some, round_of_long hneed hlong, Option.bind_none] at hy
    cases hy

/-- Two million keys with a value of a kilobyte each, and the follower never gets the leader's log. -/
theorem diverges : ¬∃ bound : ℤ → ℤ → ℕ, ∀ (i : ℕ) (x : Exchange), Begun i x → x.follower.Roomy →
    ∃ (k : ℕ) (y : Exchange), k ≤ bound x.leader.getLogSize x.follower.getLogSize ∧ x.rounds i k = some y ∧ Converged i x y := by
  rintro ⟨bound, h⟩
  obtain ⟨k, y, _, hy, hdone⟩ := h 0 (distant 21) (distant_begun (by omega)) (by
    show (0 : ℤ) < 0 + (3000 : ℕ)
    omega)
  exact distant_never (by omega) (by rw [fullSnapshot_length]; omega) k hy hdone

end Exchange

end RaftStore
