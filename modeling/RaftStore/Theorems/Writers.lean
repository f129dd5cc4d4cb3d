import RaftStore.Systems.Runs
import RaftStore.Theorems.Replay
import RaftStore.Writers

/-!
# What threads that write to one store leave behind

The map is what the calls have written in the order of their updates, the write-ahead log is read back in the order of their
records. Once all calls have returned, the two are the same exactly where the last call of every key in the one order leaves what the
last call of the key in the other order leaves.
-/

namespace RaftStore

open Systems (Run Write lastWrite lookup_foldl_eq_iff)

/-- A call of a key that is not empty and has no `=` is read back as what it has written. -/
theorem StoreCall.readBack_eq {c : StoreCall} (hkey : c.key ≠ []) (heq : 61 ∉ c.key) : c.readBack = some c.write := by
  cases c with
  | put key value =>
    have htake : (key ++ ascii "=" ++ value).takeWhile (· != 61) = key := by
      have hne : ∀ b ∈ key, (b != 61) = true := fun b hb => bne_iff_ne.mpr fun h => heq (h ▸ hb)
      rw [List.append_assoc, List.takeWhile_append_of_pos hne]
      simp [ascii]
    have hdrop : (key ++ ascii "=" ++ value).drop (key.length + 1) = value := List.drop_left' (by simp [ascii])
    unfold readBack
    simp only [htake, hdrop]
    exact if_neg hkey
  | remove key => exact if_neg hkey

namespace Writers

variable {ι : Type*} [DecidableEq ι] {x y : Writers ι} {i : ι} {w : WAL} {calls : ι → List StoreCall}

/-- What a step does: the call under way changes the map, or the next call writes its record. -/
theorem step_cases (h : x.step i = some y) :
    (∃ todo c, x.threads i = { todo := todo, logged := some c } ∧
      y = { x with store := c.update x.store, threads := Function.update x.threads i { todo := todo, logged := none },
                   updates := x.updates ++ [c] }) ∨
    (∃ todo c, x.threads i = { todo := c :: todo, logged := none } ∧
      y = { x with store := c.append x.store, threads := Function.update x.threads i { todo := todo, logged := some c },
                   records := x.records ++ [c] }) := by
  unfold step at h
  split at h
  · next todo c ht => exact .inl ⟨todo, c, ht, (Option.some.inj h).symm⟩
  · next c todo ht => exact .inr ⟨todo, c, ht, (Option.some.inj h).symm⟩
  · cases h

/-- What the store has of the calls, in the two orders of them. -/
structure Traced (w : WAL) (calls : ι → List StoreCall) (x : Writers ι) : Prop where
  mp : x.store.mp = (x.updates.map StoreCall.write).foldl Write.apply (KVStore.ofWal w).mp
  filed : x.store.writeAheadLog.Filed
  log : x.store.writeAheadLog.cachedEntries.map (·.command) = w.cachedEntries.map (·.command) ++ x.records.map StoreCall.record
  todo : ∀ i, ∀ c ∈ (x.threads i).todo, ∃ j, c ∈ calls j
  made : ∀ c ∈ x.records, ∃ j, c ∈ calls j
  updated : ∀ c, c ∈ x.records ↔ c ∈ x.updates ∨ ∃ i, (x.threads i).logged = some c

omit [DecidableEq ι] in
theorem traced_start (hw : w.Filed) (calls : ι → List StoreCall) : (start w calls).Traced w calls where
  mp := rfl
  filed := hw
  log := (List.append_nil _).symm
  todo i c hc := ⟨i, hc⟩
  made _ h := absurd h List.not_mem_nil
  updated c := by simp [start]

/-- The calls under way are that of one thread and those of the others. -/
theorem exists_logged_iff (threads : ι → Writer) (i : ι) (c : StoreCall) :
    (∃ j, (threads j).logged = some c) ↔ (threads i).logged = some c ∨ ∃ j, j ≠ i ∧ (threads j).logged = some c := by
  conv_lhs => rw [← Function.update_eq_self i threads]
  exact Function.exists_update_iff threads (p := fun _ t => t.logged = some c)

theorem Traced.step (h : x.Traced w calls) (hfits : ∀ i, ∀ c ∈ calls i, c.Fits) (hs : x.step i = some y) : y.Traced w calls := by
  obtain ⟨todo, c, ht, rfl⟩ | ⟨todo, c, ht, rfl⟩ := step_cases hs
  · -- the call is taken from those under way to the updates
    have htodo := h.todo i
    rw [ht] at htodo
    refine ⟨?_, h.filed, h.log, ?_, h.made, fun c' => ?_⟩
    · show c.write.apply x.store.mp = _
      rw [h.mp, List.map_append, List.foldl_append]
      rfl
    · exact (Function.forall_update_iff x.threads (p := fun _ t => ∀ c ∈ t.todo, ∃ j, c ∈ calls j)).mpr
        ⟨htodo, fun j _ => h.todo j⟩
    · have hothers := Function.exists_update_iff x.threads (a := i) (b := { todo := todo, logged := none })
        (p := fun _ t => t.logged = some c')
      have hthis : (x.threads i).logged = some c' ↔ c' = c := by
        rw [ht]
        exact ⟨fun h => (Option.some.inj h).symm, fun h => congrArg some h.symm⟩
      show c' ∈ x.records ↔ c' ∈ x.updates ++ [c] ∨ _
      rw [hothers, h.updated c', exists_logged_iff x.threads i, hthis, List.mem_append, List.mem_singleton, or_assoc]
      simp
  · -- the call is taken from those still to be made to the records
    have htodo := h.todo i
    rw [ht] at htodo
    obtain ⟨k, hk⟩ := htodo c List.mem_cons_self
    refine ⟨h.mp, h.filed.appendEntry (hfits k c hk), ?_, ?_, fun c' hc' => ?_, fun c' => ?_⟩
    · show (x.store.writeAheadLog.cachedEntries ++ [_]).map _ = _
      rw [List.map_append, h.log, List.map_append, List.append_assoc]
      rfl
    · exact (Function.forall_update_iff x.threads (p := fun _ t => ∀ c ∈ t.todo, ∃ j, c ∈ calls j)).mpr
        ⟨fun c' hc' => htodo c' (List.mem_cons_of_mem _ hc'), fun j _ => h.todo j⟩
    · rcases List.mem_append.mp hc' with hc' | hc'
      · exact h.made c' hc'
      · exact ⟨k, List.mem_singleton.mp hc' ▸ hk⟩
    · have hothers := Function.exists_update_iff x.threads (a := i) (b := { todo := todo, logged := some c })
        (p := fun _ t => t.logged = some c')
      have hthis : ¬(x.threads i).logged = some c' := by
        rw [ht]
        exact nofun
      have hnew : some c = some c' ↔ c' = c := ⟨fun h => (Option.some.inj h).symm, fun h => congrArg some h.symm⟩
      show c' ∈ x.records ++ [c] ↔ c' ∈ x.updates ∨ _
      rw [hothers, List.mem_append, List.mem_singleton, h.updated c', exists_logged_iff x.threads i, or_assoc]
      simp only [hthis, hnew, false_or]
      rw [or_comm (a := c' = c)]

omit [DecidableEq ι] in
/-- A key has a record exactly where it has an update, once all calls have returned. -/
theorem Traced.keys (h : x.Traced w calls) (hx : x.Finished) (k : Str) :
    (∃ u ∈ x.records.map StoreCall.write, u.key = k) ↔ ∃ u ∈ x.updates.map StoreCall.write, u.key = k := by
  have hmem (c : StoreCall) : c ∈ x.records ↔ c ∈ x.updates := by
    rw [h.updated c]
    refine ⟨?_, .inl⟩
    rintro (hu | ⟨i, hi⟩)
    · exact hu
    · rw [hx i] at hi
      cases hi
  simp only [List.mem_map, exists_exists_and_eq_and, hmem]

omit [DecidableEq ι] in
/-- What is read back from the file of the store. -/
theorem Traced.reopen (h : x.Traced w calls) (hkeys : ∀ i, ∀ c ∈ calls i, c.key ≠ [] ∧ 61 ∉ c.key) :
    ∃ s, x.store.reopen = some s ∧ s.mp = (x.records.map StoreCall.write).foldl Write.apply (KVStore.ofWal w).mp := by
  refine ⟨KVStore.ofWal x.store.writeAheadLog, by rw [KVStore.reopen, h.filed.ofFile]; rfl, ?_⟩
  have hback : x.records.filterMap StoreCall.readBack = x.records.map StoreCall.write := by
    rw [← List.filterMap_eq_map]
    refine List.filterMap_congr fun c hc => ?_
    obtain ⟨j, hj⟩ := h.made c hc
    exact StoreCall.readBack_eq (hkeys j c hj).1 (hkeys j c hj).2
  show (x.store.writeAheadLog.cachedEntries.foldl (fun mp e => KVStore.replayCommand mp e.command) ∅) = _
  rw [← List.foldl_map (f := fun e : Wal.LogEntry => e.command), h.log, List.foldl_append, KVStore.foldl_replayCommand, hback]
  congr 1
  exact List.foldl_map

/-- Once the calls of any number of threads, in any order of their critical sections, have returned, the map that is rebuilt from the
write-ahead log is the live map exactly where, for every key, the call of it that has written its record last and the call of it that
has changed the map last leave the same value. -/
theorem reopen_agrees_iff (hw : w.Filed) (hfits : ∀ i, ∀ c ∈ calls i, c.Fits) (hkeys : ∀ i, ∀ c ∈ calls i, c.key ≠ [] ∧ 61 ∉ c.key)
    (h : Run step (fun _ _ => True) (start w calls) x) (hx : x.Finished) :
    (∃ s, x.store.reopen = some s ∧ ∀ k, s.get k = x.store.get k) ↔
      ∀ k, (lastWrite k (x.records.map StoreCall.write)).map Write.value =
        (lastWrite k (x.updates.map StoreCall.write)).map Write.value := by
  have htraced : x.Traced w calls := h.invariant (fun x i y hx _ hs => hx.step hfits hs) (traced_start hw calls)
  obtain ⟨s, hs, hmp⟩ := htraced.reopen hkeys
  rw [← lookup_foldl_eq_iff (htraced.keys hx) (KVStore.ofWal w).mp, ← hmp, ← htraced.mp]
  constructor
  · rintro ⟨s', hs', heq⟩
    obtain rfl := Option.some.inj (hs.symm.trans hs')
    exact heq
  · exact fun heq => ⟨s, hs, heq⟩

/-- Two threads that put one key. -/
def rivals : Fin 2 → List StoreCall
  | 0 => [.put (ascii "a") (ascii "1")]
  | 1 => [.put (ascii "a") (ascii "2")]

theorem rivals_fits : ∀ i, ∀ c ∈ rivals i, c.Fits := by decide

theorem rivals_keys : ∀ i, ∀ c ∈ rivals i, c.key ≠ [] ∧ 61 ∉ c.key := by decide

/-- The threads on an empty file. -/
def rivalsStart : Writers (Fin 2) := start KVStore.empty.writeAheadLog rivals

/-- The threads after these steps. -/
def rivalsAfter (is : List (Fin 2)) : Option (Writers (Fin 2)) := Systems.runAll step (fun _ _ => True) rivalsStart is

/-- One thread after the other: the map is rebuilt. -/
theorem reopen_agrees_serial : ∃ x, rivalsAfter [0, 0, 1, 1] = some x ∧
    ∃ s, x.store.reopen = some s ∧ ∀ k, s.get k = x.store.get k := by
  obtain ⟨x, hx⟩ : ∃ x, rivalsAfter [0, 0, 1, 1] = some x := ⟨_, rfl⟩
  have hrun : Run step (fun _ _ => True) rivalsStart x := Run.refl.runAll hx
  obtain rfl := Option.some.inj hx
  refine ⟨_, hx, (reopen_agrees_iff KVStore.logged_empty.filed rivals_fits rivals_keys hrun ?_).mpr fun k => rfl⟩
  intro i
  match i with
  | 0 => rfl
  | 1 => rfl

/-- The records of the threads are written in the one order, and the map is changed in the other: the map that is rebuilt is not the
live map. -/
theorem reopen_disagrees : ¬∀ (ι : Type) [DecidableEq ι] (calls : ι → List StoreCall) (x : Writers ι),
    (∀ i, ∀ c ∈ calls i, c.Fits) → (∀ i, ∀ c ∈ calls i, c.key ≠ [] ∧ 61 ∉ c.key) →
    Run step (fun _ _ => True) (start KVStore.empty.writeAheadLog calls) x → x.Finished →
    ∃ s, x.store.reopen = some s ∧ ∀ k, s.get k = x.store.get k := by
  intro h
  obtain ⟨x, hx⟩ : ∃ x, rivalsAfter [0, 1, 1, 0] = some x := ⟨_, rfl⟩
  have hrun : Run step (fun _ _ => True) rivalsStart x := Run.refl.runAll hx
  obtain rfl := Option.some.inj hx
  obtain ⟨s, hs, hget⟩ := h (Fin 2) rivals _ rivals_fits rivals_keys hrun fun i => match i with
    | 0 => rfl
    | 1 => rfl
  have hread : s.get (ascii "a") = some (ascii "2") := by
    have hwal : (rivalsAfter [0, 1, 1, 0]).bind (fun x => x.store.reopen.bind fun s => s.get (ascii "a")) = some (ascii "2") := by
      decide +kernel
    rwa [hx, Option.bind_some, hs] at hwal
  have hlive := hget (ascii "a")
  rw [hread] at hlive
  exact absurd hlive (by decide)

end Writers

end RaftStore
