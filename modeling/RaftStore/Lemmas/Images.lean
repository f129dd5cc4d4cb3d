import RaftStore.Lemmas.Base64
import RaftStore.Lemmas.Wal
import RaftStore.Rpc
import Mathlib.Data.Bool.AllAny

/-!
# Snapshot images

The image of a snapshot is decoded as the snapshot, up to the order of its pairs, and a chunk that is written where the image in the
buffer ends extends it.
-/

namespace RaftStore

/-! ## Texts -/

/-- ASCII is valid UTF-8. -/
theorem isUtf8_of_low {s : Str} (h : ∀ b ∈ s, b < 0x80) : isUtf8 s = true := by
  induction s with
  | nil => rfl
  | cons b s ih =>
    obtain ⟨hb, hs⟩ := List.forall_mem_cons.mp h
    unfold isUtf8
    rw [if_pos hb]
    exact ih hs

theorem isUtf8_of_all {s : Str} (h : s.all (fun b => b < 0x80) = true) : isUtf8 s = true :=
  isUtf8_of_low (List.all_iff_forall_prop.mp h)

/-! ## Reading an image -/

namespace IStream

/-- An `int` is read back from its image. -/
theorem readInt_append {x : ℤ} (h : -2 ^ 31 ≤ x) (h' : x < 2 ^ 31) (rest : Str) :
    ({ bytes := intBytes x ++ rest, good := true } : IStream).readInt 0 = (x, { bytes := rest, good := true }) := by
  unfold readInt
  rw [read_append (intBytes_length x)]
  simp only [intBytes_length]
  rw [List.drop_of_length_le (by simp), List.append_nil, ofIntBytes_intBytes h h']

end IStream

/-- A text is read back. -/
theorem readText_append (s rest : Str) :
    readText (s.length : ℤ) { bytes := s ++ rest, good := true } = some (s, { bytes := rest, good := true }) := by
  unfold readText
  rw [if_neg (by omega), Int.toNat_natCast, IStream.read_append rfl]
  simp

theorem serializePair_length (k v : Str) : (serializePair k v).length = 8 + k.length + v.length := by
  simp only [serializePair, List.length_append, intBytes_length]
  omega

theorem serializePair_append (k v rest : Str) :
    serializePair k v ++ rest = intBytes k.length ++ (k ++ (intBytes v.length ++ (v ++ rest))) := by
  simp only [serializePair, List.append_assoc]

/-- The pairs of an image are put into the map one after the other. -/
theorem readPairs_append {ps : List (Sigma fun _ : Str => Str)} (h : ∀ p ∈ ps, p.1.length < 2 ^ 31 ∧ p.2.length < 2 ^ 31)
    (rest : Str) (kvState : StrMap) :
    readPairs ps.length { bytes := (ps.map fun p => serializePair p.1 p.2).flatten ++ rest, good := true } kvState =
      some (ps.foldl (fun m p => m.insert p.1 p.2) kvState) := by
  induction ps generalizing kvState with
  | nil => rfl
  | cons p ps ih =>
    obtain ⟨hk, hv⟩ := h p List.mem_cons_self
    rw [List.map_cons, List.flatten_cons, List.length_cons, List.append_assoc, serializePair_append, List.foldl_cons, readPairs]
    rw [IStream.readInt_append (by omega) (by omega)]
    simp only
    rw [readText_append]
    simp only
    rw [IStream.readInt_append (by omega) (by omega)]
    simp only
    rw [readText_append]
    exact ih (fun q hq => h q (List.mem_cons_of_mem _ hq)) _

/-- Pairs of different keys that are put into a map are found there. -/
theorem lookup_foldl_insert {α : Type} {ps : List (Sigma fun _ : Str => α)} (h : ps.NodupKeys) (m : AList fun _ : Str => α) (k : Str) :
    (ps.foldl (fun m p => m.insert p.1 p.2) m).lookup k = (ps.dlookup k).or (m.lookup k) := by
  induction ps generalizing m with
  | nil => simp
  | cons p ps ih =>
    obtain ⟨key, value⟩ := p
    obtain ⟨hnot, hps⟩ := List.nodupKeys_cons.mp h
    rw [List.foldl_cons, ih hps]
    by_cases hk : k = key
    · subst hk
      rw [AList.lookup_insert, List.dlookup_cons_eq, List.dlookup_eq_none.mpr hnot]
      rfl
    · rw [AList.lookup_insert_ne hk, List.dlookup_cons_ne _ _ hk]

namespace Snapshot

variable {snap : Snapshot}

/-- A snapshot that a process can hold and send: its numbers are of type `int`, also the size of its image. -/
structure Fits (snap : Snapshot) : Prop where
  index : -2 ^ 31 ≤ snap.lastIncludedIndex ∧ snap.lastIncludedIndex < 2 ^ 31
  term : -2 ^ 31 ≤ snap.lastIncludedTerm ∧ snap.lastIncludedTerm < 2 ^ 31
  image : (serializeSnapshot snap).length < 2 ^ 31

instance (snap : Snapshot) : Decidable snap.Fits :=
  decidable_of_iff ((-2 ^ 31 ≤ snap.lastIncludedIndex ∧ snap.lastIncludedIndex < 2 ^ 31) ∧
    (-2 ^ 31 ≤ snap.lastIncludedTerm ∧ snap.lastIncludedTerm < 2 ^ 31) ∧ (serializeSnapshot snap).length < 2 ^ 31)
    ⟨fun h => ⟨h.1, h.2.1, h.2.2⟩, fun h => ⟨h.1, h.2, h.3⟩⟩

/-- The numbers of a snapshot are of type `int`. -/
def IsInt (snap : Snapshot) : Prop := (-2 ^ 31 ≤ snap.lastIncludedIndex ∧ snap.lastIncludedIndex < 2 ^ 31) ∧
  -2 ^ 31 ≤ snap.lastIncludedTerm ∧ snap.lastIncludedTerm < 2 ^ 31

/-- A snapshot whose image the chunk loop can go through: no chunk that is sent takes `offset + chunkSize` out of `int`. -/
def Sendable (snap : Snapshot) : Prop := (serializeSnapshot snap).length ≤ 2 ^ 31 - 512

instance (snap : Snapshot) : Decidable snap.Sendable := Nat.decLe _ _

theorem IsInt.fits (h : snap.IsInt) (hsend : snap.Sendable) : snap.Fits where
  index := h.1
  term := h.2
  image := by
    unfold Sendable at hsend
    omega

/-- Two snapshots are the same up to the order of their pairs and to what only the model has of them. -/
structure Same (s snap : Snapshot) : Prop where
  index : s.lastIncludedIndex = snap.lastIncludedIndex
  term : s.lastIncludedTerm = snap.lastIncludedTerm
  lookup : ∀ k, s.kvState.lookup k = snap.kvState.lookup k

/-- The image is at least as long as each of its parts. -/
theorem length_le_pairs (ps : List (Sigma fun _ : Str => Str)) : 8 * ps.length ≤ ((ps.map fun p => serializePair p.1 p.2).flatten).length ∧
    ∀ p ∈ ps, p.1.length ≤ ((ps.map fun p => serializePair p.1 p.2).flatten).length ∧
      p.2.length ≤ ((ps.map fun p => serializePair p.1 p.2).flatten).length := by
  induction ps with
  | nil => simp
  | cons q ps ih =>
    obtain ⟨hlen, hparts⟩ := ih
    simp only [List.map_cons, List.flatten_cons, List.length_append, List.length_cons, serializePair_length]
    refine ⟨by omega, fun p hp => ?_⟩
    rcases List.mem_cons.mp hp with rfl | hp
    · omega
    · have := hparts p hp
      omega

theorem serializeSnapshot_length (snap : Snapshot) : (serializeSnapshot snap).length =
    12 + ((snap.kvState.entries.map fun p => serializePair p.1 p.2).flatten).length := by
  simp [serializeSnapshot]
  omega

/-- The image of a snapshot is decoded as the snapshot. -/
theorem Fits.deserialize (h : snap.Fits) : ∃ s, deserializeSnapshot (serializeSnapshot snap) = some s ∧ s.Same snap ∧ s.covered = [] := by
  obtain ⟨hlen, hparts⟩ := length_le_pairs snap.kvState.entries
  have himage := h.image
  rw [serializeSnapshot_length] at himage
  have hpairs : ∀ p ∈ snap.kvState.entries, p.1.length < 2 ^ 31 ∧ p.2.length < 2 ^ 31 := fun p hp => by
    have := hparts p hp
    omega
  refine ⟨{ lastIncludedIndex := snap.lastIncludedIndex, lastIncludedTerm := snap.lastIncludedTerm,
            kvState := snap.kvState.entries.foldl (fun m p => m.insert p.1 p.2) ∅, covered := [] }, ?_, ⟨rfl, rfl, fun k => ?_⟩, rfl⟩
  · unfold deserializeSnapshot serializeSnapshot
    simp only [List.append_assoc]
    rw [IStream.readInt_append h.index.1 h.index.2]
    simp only
    rw [IStream.readInt_append h.term.1 h.term.2]
    simp only
    rw [IStream.readInt_append (by omega) (by omega)]
    simp only [Int.toNat_natCast]
    have hread := readPairs_append hpairs [] ∅
    rw [List.append_nil] at hread
    rw [hread]
    rfl
  · show AList.lookup k (snap.kvState.entries.foldl _ ∅) = _
    rw [lookup_foldl_insert snap.kvState.nodupKeys]
    show (snap.kvState.entries.dlookup k).or none = _
    rw [Option.or_none]
    rfl

/-- What the dump accepts does not depend on the order of the pairs. -/
theorem Same.dumps {s : Snapshot} (h : s.Same snap) : s.dumps = snap.dumps := by
  have hmem (p : Sigma fun _ : Str => Str) : p ∈ s.kvState.entries ↔ p ∈ snap.kvState.entries := by
    rw [← AList.mem_lookup_iff, ← AList.mem_lookup_iff, h.lookup]
  unfold Snapshot.dumps
  rw [Bool.eq_iff_iff, List.all_eq_true, List.all_eq_true]
  simp only [hmem]

end Snapshot

end RaftStore
