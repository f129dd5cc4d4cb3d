import RaftStore.Lemmas.Storage
import RaftStore.Replay

/-!
# What a restart makes of the store

The map of the live store is what the calls have written, the map after a restart is what is read back of them. The two are the
same exactly where, for every key, the last call of it and the last one that is read back as it leave the same value.
-/

namespace RaftStore

open Systems (Write left lookup_foldl_empty lookup_foldl_again)

/-! ## Calls -/

namespace StoreCall

variable {c : StoreCall} {s : KVStore}

theorem run_mp (s : KVStore) (c : StoreCall) : (c.run s).mp = c.write.apply s.mp := by
  cases c <;> rfl

theorem run_wal (s : KVStore) (c : StoreCall) : (c.run s).writeAheadLog = s.writeAheadLog.appendEntry c.record := by
  cases c <;> rfl

/-- A record of two words, the first one without a blank, is taken apart at the blank between them. -/
theorem replayCommand_words {cmd rest : Str} (h : 32 ∉ cmd) (mp : StrMap) : KVStore.replayCommand mp (cmd ++ 32 :: rest) =
    if cmd = ascii "PUT" then
      if 61 ∉ rest then mp
      else if rest.takeWhile (· != 61) = [] then mp
      else mp.insert (rest.takeWhile (· != 61)) (rest.drop ((rest.takeWhile (· != 61)).length + 1))
    else if cmd = ascii "DELETE" then
      if rest = [] then mp else mp.erase rest
    else mp := by
  have hne : ∀ b ∈ cmd, (b != 32) = true := fun b hb => bne_iff_ne.mpr fun heq => h (heq ▸ hb)
  have htake : (cmd ++ 32 :: rest).takeWhile (· != 32) = cmd := by
    rw [List.takeWhile_append_of_pos hne]
    simp
  have hdrop : (cmd ++ 32 :: rest).drop (cmd.length + 1) = rest := by simp
  unfold KVStore.replayCommand
  rw [if_neg (by simp)]
  simp only [htake, hdrop]

/-- The constructor does for a record what is read back of it. -/
theorem replayCommand_record (mp : StrMap) (c : StoreCall) :
    KVStore.replayCommand mp c.record = c.readBack.elim mp (Write.apply mp) := by
  cases c with
  | put key value =>
    have hrec : (put key value).record = ascii "PUT" ++ 32 :: (key ++ ascii "=" ++ value) := by simp [record, ascii]
    rw [hrec, replayCommand_words (by decide), if_pos rfl, if_neg (by simp [ascii]), readBack]
    split <;> rfl
  | remove key =>
    have hrec : (remove key).record = ascii "DELETE" ++ 32 :: key := by simp [record, ascii]
    rw [hrec, replayCommand_words (by decide), if_neg (by decide), if_pos rfl, readBack]
    split <;> rfl

end StoreCall

namespace KVStore

variable {s : KVStore} {calls : List StoreCall}

/-- The map of the live store is what the calls have written. -/
theorem foldl_run_mp (s : KVStore) (calls : List StoreCall) :
    (calls.foldl StoreCall.run s).mp = (calls.map StoreCall.write).foldl Write.apply s.mp := by
  induction calls generalizing s with
  | nil => rfl
  | cons c calls ih => rw [List.foldl_cons, ih, StoreCall.run_mp, List.map_cons, List.foldl_cons]

/-- The map that is replayed from the records of calls is what is read back of them. -/
theorem foldl_replayCommand (mp : StrMap) (calls : List StoreCall) :
    (calls.map StoreCall.record).foldl replayCommand mp = (calls.filterMap StoreCall.readBack).foldl Write.apply mp := by
  induction calls generalizing mp with
  | nil => rfl
  | cons c calls ih =>
    rw [List.map_cons, List.foldl_cons, ih, StoreCall.replayCommand_record, List.filterMap_cons]
    cases c.readBack <;> rfl

/-- The write-ahead log is filed, and has the records of these calls. -/
structure Logged (s : KVStore) (calls : List StoreCall) : Prop where
  filed : s.writeAheadLog.Filed
  records : s.writeAheadLog.cachedEntries.map (·.command) = calls.map StoreCall.record

theorem logged_empty : empty.Logged [] := ⟨⟨rfl, fun _ h => absurd h List.not_mem_nil, rfl⟩, rfl⟩

theorem Logged.run (h : s.Logged calls) {c : StoreCall} (hc : c.Fits) : (c.run s).Logged (calls ++ [c]) where
  filed := by
    rw [StoreCall.run_wal]
    exact h.filed.appendEntry hc
  records := by
    rw [StoreCall.run_wal, List.map_append, ← h.records]
    show (s.writeAheadLog.cachedEntries ++ [_]).map _ = _
    rw [List.map_append]
    rfl

theorem filed_foldl_run (h : s.writeAheadLog.Filed) {cs : List StoreCall} (hc : ∀ c ∈ cs, c.Fits) :
    (cs.foldl StoreCall.run s).writeAheadLog.Filed := by
  induction cs generalizing s with
  | nil => exact h
  | cons c cs ih =>
    refine ih ?_ fun c hm => hc c (List.mem_cons_of_mem _ hm)
    rw [StoreCall.run_wal]
    exact h.appendEntry (hc c List.mem_cons_self)

theorem Logged.foldl_run (h : s.Logged calls) {cs : List StoreCall} (hc : ∀ c ∈ cs, c.Fits) :
    (cs.foldl StoreCall.run s).Logged (calls ++ cs) := by
  induction cs generalizing s calls with
  | nil => simpa using h
  | cons c cs ih =>
    have := ih (h.run (hc c List.mem_cons_self)) fun c hm => hc c (List.mem_cons_of_mem _ hm)
    simpa using this

/-- What the constructor makes of the records of calls. -/
theorem Logged.reopen (h : s.Logged calls) :
    ∃ s', s.reopen = some s' ∧ s'.writeAheadLog = s.writeAheadLog ∧ ∀ k, s'.get k = left k (calls.filterMap StoreCall.readBack) := by
  refine ⟨ofWal s.writeAheadLog, by rw [KVStore.reopen, h.filed.ofFile]; rfl, rfl, fun k => ?_⟩
  show (s.writeAheadLog.cachedEntries.foldl (fun mp e => replayCommand mp e.command) ∅).lookup k = _
  rw [← List.foldl_map (f := fun e : Wal.LogEntry => e.command), h.records, foldl_replayCommand, lookup_foldl_empty]

/-- A store that is constructed over the file of another one holds the same map exactly where, for every key, the last call of
the key and the last call whose record is read back as the key leave the same value. -/
theorem reopen_restores (hc : ∀ c ∈ calls, c.Fits) : (∃ s, (live calls).reopen = some s ∧ ∀ k, s.get k = (live calls).get k) ↔
    ∀ k, left k (calls.map StoreCall.write) = left k (calls.filterMap StoreCall.readBack) := by
  have hlogged : (live calls).Logged calls := logged_empty.foldl_run hc
  have hlive (k : Str) : (live calls).get k = left k (calls.map StoreCall.write) := by
    show (calls.foldl StoreCall.run empty).mp.lookup k = _
    rw [foldl_run_mp]
    exact lookup_foldl_empty _ k
  obtain ⟨s, hs, _, hget⟩ := hlogged.reopen
  constructor
  · rintro ⟨s', hs', heq⟩ k
    obtain rfl := Option.some.inj (hs.symm.trans hs')
    rw [← hlive, ← heq, hget]
  · intro h
    exact ⟨s, hs, fun k => by rw [hget, hlive, h]⟩

/-- Two keys are put, and the first one is removed. -/
def twoKeys : List StoreCall :=
  [.put (ascii "key1") (ascii "value1"), .put (ascii "key2") (ascii "value2"), .remove (ascii "key1")]

/-- After these calls a restart finds the map of the live store. -/
theorem reopen_restores_twoKeys : ∃ s, (live twoKeys).reopen = some s ∧ ∀ k, s.get k = (live twoKeys).get k := by
  have hread : twoKeys.filterMap StoreCall.readBack = twoKeys.map StoreCall.write := by decide
  exact (reopen_restores (by decide)).mpr fun k => by rw [hread]

/-- A restart need not find the map of the live store: the key of a record ends at its first `=`. -/
theorem reopen_splits_key : ¬∀ calls : List StoreCall, (∀ c ∈ calls, c.Fits) →
    ∃ s, (live calls).reopen = some s ∧ ∀ k, s.get k = (live calls).get k := by
  intro h
  have hfits : ∀ c ∈ [StoreCall.put (ascii "a=b") (ascii "1")], c.Fits := by decide
  obtain ⟨s, hs, heq⟩ := h [.put (ascii "a=b") (ascii "1")] hfits
  obtain ⟨s', hs', _, hget⟩ := (logged_empty.foldl_run hfits).reopen
  obtain rfl := Option.some.inj (hs.symm.trans hs')
  have hnone : s.get (ascii "a=b") = none := (hget _).trans (by decide)
  have hsome : (live [.put (ascii "a=b") (ascii "1")]).get (ascii "a=b") = some (ascii "1") := by decide
  rw [heq, hsome] at hnone
  cases hnone

end KVStore

/-! ## A process with one node -/

/-- What a command does to the store is what its call does, if it makes one. -/
theorem KVStore.applyCommand_store (s : KVStore) (command : Str) :
    (s.applyCommand command).1 = (StoreCall.ofCommand command).elim s (StoreCall.run s) := by
  unfold KVStore.applyCommand StoreCall.ofCommand
  simp only
  split
  · rfl
  · split
    · next hget =>
      rw [if_neg (by rw [hget]; decide)]
      cases s.get (parseCommand command).2.1 <;> rfl
    · split <;> rfl

/-- What a command does to the map is what its call writes. -/
theorem KVStore.applyCommand_mp (s : KVStore) (command : Str) : (s.applyCommand command).1.mp =
    (((StoreCall.ofCommand command).map StoreCall.write).toList).foldl Write.apply s.mp := by
  rw [KVStore.applyCommand_store]
  cases StoreCall.ofCommand command with
  | none => rfl
  | some c => exact StoreCall.run_mp s c

namespace RaftNode

variable {n : RaftNode}

/-- What a turn of an apply loop does to the store: the calls of the commands that it leaves in the history. -/
theorem applyNext_calls (n : RaftNode) (store : KVStore) :
    (Applying.applyNext { node := n, store := store, applyResult := [], events := [] }).store =
      (Solitary.callsOf (Applying.applyNext { node := n, store := store, applyResult := [], events := [] }).events).foldl
        StoreCall.run store ∧
      ∀ c ∈ Solitary.callsOf (Applying.applyNext { node := n, store := store, applyResult := [], events := [] }).events,
        ∃ e ∈ n.log, c ∈ StoreCall.ofCommand e.command := by
  unfold Applying.applyNext
  simp only
  split
  · exact ⟨rfl, fun c hc => absurd hc List.not_mem_nil⟩
  · next e he =>
    have hmem : e ∈ n.log := mem_of_entryAt he
    unfold applyToStateMachine
    by_cases hd : n.shutdownRequested = true
    · simp [hd, Solitary.callsOf]
    · simp only [hd, Bool.false_eq_true, if_false, KVStore.applyCommand_store]
      cases hc : StoreCall.ofCommand e.command with
      | none => simp [Solitary.callsOf, hc]
      | some c => simpa [Solitary.callsOf, hc] using ⟨e, hmem, hc⟩

/-- The store that a node is started with: the one it is given, or the content of its snapshot. -/
theorem restart_store {n : RaftNode} (hw : n.disk.metadataEmptied = false) (s : KVStore) :
    (n.restart s).map Prod.snd = match n.disk.snapshotFile with
      | .absent => some s
      | .empty => none
      | .saved snap => some (s.loadFromMap snap.kvState) := by
  rw [restart, if_neg (by simp [hw]), loadMetadata_create]
  unfold start
  cases hf : n.disk.snapshotFile <;> simp [create, hf]

/-- From an empty file nothing is started. -/
theorem filesWhole_of_restart {n : RaftNode} {s : KVStore} (h : (n.restart s).isSome = true) : n.FilesWhole := by
  obtain ⟨r, hr⟩ := Option.isSome_iff_exists.mp h
  obtain ⟨hw, _⟩ := restart_whole hr
  refine ⟨fun hf => ?_, hw⟩
  have hstore := restart_store hw s
  rw [hr, hf] at hstore
  cases hstore

end RaftNode

namespace Solitary

variable {x : Solitary}

/-- What the files of a process have of the calls that it has made. -/
structure Tracked (x : Solitary) : Prop where
  live : x.store.mp = (x.calls.map StoreCall.write).foldl Write.apply ∅
  filed : x.store.writeAheadLog.Filed
  fits : ∀ e ∈ x.node.log, ∀ c ∈ StoreCall.ofCommand e.command, c.Fits
  unkept : x.kept = none → (x.node.disk.snapshotFile = .empty ∨ x.node.disk.snapshotFile = .absent) ∧ x.store.Logged x.calls
  kept : ∀ calls, x.kept = some calls → x.node.disk.snapshotFile = .empty ∨ ∃ s, x.node.disk.snapshotFile = .saved s ∧
    ∀ k, s.kvState.lookup k = left k (calls.map StoreCall.write)

theorem tracked_create (nodeId port : ℤ) (peers : List ℤ) : (create nodeId port peers).Tracked where
  live := rfl
  filed := KVStore.logged_empty.filed
  fits _ h := absurd h List.not_mem_nil
  unkept _ := ⟨Or.inr rfl, KVStore.logged_empty⟩
  kept _ h := nomatch h

theorem Tracked.step (h : x.Tracked) {a : Act} (ha : a.Fits) : (x.step a).Tracked := by
  cases a with
  | append e =>
    refine ⟨h.live, h.filed, fun e' he' => ?_, h.unkept, h.kept⟩
    rcases List.mem_append.mp he' with he' | he'
    · exact h.fits e' he'
    · obtain rfl := List.mem_singleton.mp he'
      exact ha
  | apply =>
    obtain ⟨hstore, hcalls⟩ := x.node.applyNext_calls x.store
    have hnode := RaftNode.applyNext_node { node := x.node, store := x.store, applyResult := [], events := [] }
    unfold Solitary.step
    generalize Applying.applyNext { node := x.node, store := x.store, applyResult := [], events := [] } = r at *
    have hfits (c : StoreCall) (hc : c ∈ callsOf r.events) : c.Fits := by
      obtain ⟨e, he, hce⟩ := hcalls c hc
      exact h.fits e he c hce
    refine ⟨?_, ?_, fun e he => ?_, fun hk => ?_, fun calls hk => ?_⟩
    · show r.store.mp = _
      rw [hstore, KVStore.foldl_run_mp, h.live, List.map_append, List.foldl_append]
    · show r.store.writeAheadLog.Filed
      rw [hstore]
      exact KVStore.filed_foldl_run h.filed hfits
    · simp only [hnode] at he
      exact h.fits e he
    · obtain ⟨hf, hl⟩ := h.unkept hk
      simp only [hnode, hstore]
      exact ⟨hf, hl.foldl_run hfits⟩
    · simp only [hnode]
      exact h.kept calls hk
  | snapshot =>
    by_cases hlog : x.node.log = []
    · have hsame : x.step .snapshot = x := by
        simp [Solitary.step, RaftNode.triggerSnapshot, RaftNode.snapshotFailed, hlog]
      rw [hsame]
      exact h
    · by_cases hd : (x.node.newSnapshot x.store).dumps = true
      · obtain ⟨node, heq, hnlog, hfile⟩ := RaftNode.triggerSnapshot_saved hlog hd
        have hsub : node.log ⊆ x.node.log := by
          rw [hnlog]
          exact RaftNode.truncateLogSafe_subset (x.node.saveSnapshot (x.node.newSnapshot x.store)) x.node.lastApplied
        have hstep : x.step .snapshot =
            { x with node := node, store := (x.node.createSnapshot x.store).2, kept := some x.calls } := by
          unfold Solitary.step
          simp only [heq, if_pos (And.intro hlog hd)]
        rw [hstep]
        refine ⟨h.live, h.filed.truncateUpTo _, fun e he => h.fits e (hsub he), nofun, fun calls hk => Or.inr ⟨_, hfile, fun k => ?_⟩⟩
        obtain rfl := Option.some.inj hk
        show x.store.mp.lookup k = _
        rw [h.live, lookup_foldl_empty]
      · -- the dump of the snapshot throws, and leaves its file empty
        have hstep : x.step .snapshot = { x with node := x.node.emptySnapshotFile } := by
          simp [Solitary.step, RaftNode.triggerSnapshot, RaftNode.snapshotFailed, hlog, hd]
        rw [hstep]
        exact ⟨h.live, h.filed, h.fits, fun hk => ⟨Or.inl rfl, (h.unkept hk).2⟩, fun _ _ => Or.inl rfl⟩

/-- Whatever has happened, the files have what the calls have made of them. -/
theorem Tracked.foldl_step (h : x.Tracked) {as : List Act} (ha : ∀ a ∈ as, a.Fits) : (as.foldl Solitary.step x).Tracked := by
  induction as generalizing x with
  | nil => exact h
  | cons a as ih => exact ih (h.step (ha a List.mem_cons_self)) fun a hm => ha a (List.mem_cons_of_mem _ hm)

/-- What a restart makes of the files. -/
theorem Tracked.restarted (h : x.Tracked) (hw : x.node.FilesWhole) :
    ∃ s, x.restarted = some s ∧ ∀ k, s.get k = left k x.survivors := by
  unfold Solitary.restarted survivors
  cases hk : x.kept with
  | none =>
    obtain ⟨hf, hl⟩ := h.unkept hk
    obtain ⟨s, hs, _, hget⟩ := hl.reopen
    refine ⟨s, ?_, hget⟩
    rw [hs, Option.bind_some, RaftNode.restart_store hw.2, hf.resolve_left hw.1]
  | some calls =>
    obtain ⟨snap, hf, hget⟩ := (h.kept calls hk).resolve_left hw.1
    refine ⟨(KVStore.ofWal x.store.writeAheadLog).loadFromMap snap.kvState, ?_, hget⟩
    rw [KVStore.reopen, h.filed.ofFile, Option.map_some, Option.bind_some, RaftNode.restart_store hw.2, hf]

/-- A clean restart of a process with one node yields the map that its store held exactly where neither file was left empty by a dump, and,
for every key, the last call of the key leaves what the snapshot has, or, as long as there is no snapshot, what the last record that is
read back as the key leaves. -/
theorem restart_restores {nodeId port : ℤ} {peers : List ℤ} {as : List Act} (ha : ∀ a ∈ as, a.Fits)
    (hx : as.foldl step (create nodeId port peers) = x) : (∃ s, x.restarted = some s ∧ ∀ k, s.get k = x.store.get k) ↔
      x.node.FilesWhole ∧ ∀ k, left k (x.calls.map StoreCall.write) = left k x.survivors := by
  have htracked : x.Tracked := hx ▸ (tracked_create nodeId port peers).foldl_step ha
  have hlive (k : Str) : x.store.get k = left k (x.calls.map StoreCall.write) := by
    show x.store.mp.lookup k = _
    rw [htracked.live, lookup_foldl_empty]
  constructor
  · rintro ⟨s', hs', heq⟩
    have hw : x.node.FilesWhole := by
      obtain ⟨s, _, hr⟩ := Option.bind_eq_some_iff.mp hs'
      exact RaftNode.filesWhole_of_restart (by rw [← Option.isSome_map (f := Prod.snd), hr]; rfl)
    obtain ⟨s, hs, hget⟩ := htracked.restarted hw
    obtain rfl := Option.some.inj (hs.symm.trans hs')
    exact ⟨hw, fun k => by rw [← hlive, ← heq, hget]⟩
  · rintro ⟨hw, h⟩
    obtain ⟨s, hs, hget⟩ := htracked.restarted hw
    exact ⟨s, hs, fun k => by rw [hget, hlive, h]⟩

/-- Append the entry with this index and command. -/
def appendCommand (index : ℤ) (command : String) : Act :=
  .append { term := 1, index := index, command := ascii command, origin := ([], 0) }

/-- Two commands are appended, the second one is applied, and a snapshot is taken. -/
def snapshotted : List Act := [appendCommand 0 "PUT a 1", appendCommand 1 "PUT b 2", .apply, .snapshot]

/-- A restart right after a snapshot yields the map. -/
theorem restart_restores_snapshotted : ∃ s, (snapshotted.foldl step (create 0 5000 [])).restarted = some s ∧
    ∀ k, s.get k = (snapshotted.foldl step (create 0 5000 [])).store.get k := by
  have hkept : (snapshotted.foldl step (create 0 5000 [])).node.FilesWhole ∧ (snapshotted.foldl step (create 0 5000 [])).survivors =
      (snapshotted.foldl step (create 0 5000 [])).calls.map StoreCall.write := by decide +kernel
  exact (restart_restores (by decide +kernel) rfl).mpr ⟨hkept.1, fun k => by rw [hkept.2]⟩

/-- After the snapshot one more command is appended and applied. -/
def overwritten : List Act := snapshotted ++ [appendCommand 2 "PUT b 3", .apply]

/-- A restart can lose what was written after the last snapshot. -/
theorem restart_loses_write : ¬∀ as : List Act, (∀ a ∈ as, a.Fits) →
    ∃ s, (as.foldl step (create 0 5000 [])).restarted = some s ∧
      ∀ k, s.get k = (as.foldl step (create 0 5000 [])).store.get k := by
  intro h
  have hfits : ∀ a ∈ overwritten, a.Fits := by decide +kernel
  obtain ⟨s, hs, heq⟩ := h overwritten hfits
  obtain ⟨s', hs', hget⟩ := ((tracked_create 0 5000 []).foldl_step hfits).restarted (by decide +kernel)
  obtain rfl := Option.some.inj (hs.symm.trans hs')
  have hold : s.get (ascii "b") = some (ascii "2") := (hget _).trans (by decide +kernel)
  have hnew : (overwritten.foldl step (create 0 5000 [])).store.get (ascii "b") = some (ascii "3") := by decide +kernel
  rw [heq, hnew] at hold
  exact absurd hold (by decide)

end Solitary

/-! ## Entries that are applied again -/

/-- The store after these commands have been given to `applyToStateMachine`. -/
def RaftNode.applyAll (n : RaftNode) (store : KVStore) (commands : List Str) : KVStore :=
  commands.foldl (fun store command => (n.applyToStateMachine store command).1) store

/-- The writes that a command makes on a node: at most one, and none while the node is shutting down. -/
def RaftNode.writesOf (n : RaftNode) (command : Str) : List (Write Str Str) :=
  if n.shutdownRequested then [] else ((StoreCall.ofCommand command).map StoreCall.write).toList

theorem RaftNode.applyToStateMachine_mp (n : RaftNode) (store : KVStore) (command : Str) :
    (n.applyToStateMachine store command).1.mp = (n.writesOf command).foldl Write.apply store.mp := by
  unfold applyToStateMachine writesOf
  cases n.shutdownRequested
  · exact KVStore.applyCommand_mp store command
  · rfl

/-- The map after commands is what they have written, one after the other. -/
theorem RaftNode.applyAll_mp (n : RaftNode) (store : KVStore) (commands : List Str) :
    (n.applyAll store commands).mp = (commands.flatMap n.writesOf).foldl Write.apply store.mp := by
  induction commands generalizing store with
  | nil => rfl
  | cons command commands ih =>
    have hcons : n.applyAll store (command :: commands) = n.applyAll (n.applyToStateMachine store command).1 commands := rfl
    rw [hcons, ih, applyToStateMachine_mp, List.flatMap_cons, List.foldl_append]

/-- Commands of which some first ones have been applied already leave every key as they do when they are applied once. -/
theorem RaftNode.applyAll_again (n : RaftNode) (store : KVStore) {ps commands : List Str} (h : ps <+: commands) (key : Str) :
    (n.applyAll (n.applyAll store ps) commands).get key = (n.applyAll store commands).get key := by
  obtain ⟨rest, rfl⟩ := h
  have hwrites : ps.flatMap n.writesOf <+: (ps ++ rest).flatMap n.writesOf := by
    rw [List.flatMap_append]
    exact List.prefix_append _ _
  have hlookup := lookup_foldl_again hwrites store.mp key
  rw [← applyAll_mp, ← applyAll_mp, ← applyAll_mp] at hlookup
  exact hlookup

/-- A value that is replaced and removed again: the restarted node has applied the first PUT already. -/
theorem RaftNode.applyAll_again_twice :
    [ascii "PUT a 1"] <+: [ascii "PUT a 1", ascii "GET a", ascii "PUT b", ascii "DELETE a", ascii "x"] ∧
    ((RaftNode.create 1 5001 [] { metadata := none, snapshotFile := .absent }).applyAll
      ((RaftNode.create 1 5001 [] { metadata := none, snapshotFile := .absent }).applyAll KVStore.empty [ascii "PUT a 1"])
      [ascii "PUT a 1", ascii "GET a", ascii "PUT b", ascii "DELETE a", ascii "x"]).get (ascii "b") =
    ((RaftNode.create 1 5001 [] { metadata := none, snapshotFile := .absent }).applyAll KVStore.empty
      [ascii "PUT a 1", ascii "GET a", ascii "PUT b", ascii "DELETE a", ascii "x"]).get (ascii "b") :=
  ⟨⟨_, rfl⟩, RaftNode.applyAll_again _ KVStore.empty ⟨_, rfl⟩ (ascii "b")⟩

end RaftStore
