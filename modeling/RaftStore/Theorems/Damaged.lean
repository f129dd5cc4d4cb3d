import RaftStore.Install
import RaftStore.Lemmas.Images

/-!
# Which bytes are taken for a snapshot

`deserializeSnapshot` looks at no stream state: it throws only for a size that is there in full and negative, and takes every other
sequence of bytes for an image. What it makes of one that has no such size is what was serialized exactly where the header, the pairs
that it announces and nothing else are there, and no two of them have the same key.
-/

namespace RaftStore

/-! ## The form of an image -/

/-- A text with its size before it, and what follows; `none` where a byte of it is missing or the size is negative. -/
def takeText (bs : Str) : Option (Str × Str) :=
  let len := ofIntBytes (bs.take 4)
  if 4 ≤ bs.length ∧ 0 ≤ len ∧ len + 4 ≤ bs.length then some ((bs.drop 4).take len.toNat, (bs.drop 4).drop len.toNat) else none

/-- The bytes begin with a negative size. -/
def negativeSize (bs : Str) : Bool := decide (4 ≤ bs.length ∧ ofIntBytes (bs.take 4) < 0)

/-- The bytes are this many pairs of texts and nothing else, with different keys, none of them in `keys`. -/
def wholePairs : ℕ → List Str → Str → Bool
  | 0, _, bs => bs.isEmpty
  | size + 1, keys, bs =>
    match takeText bs with
    | none => false
    | some (key, bs) =>
      match takeText bs with
      | none => false
      | some (_, bs) => !keys.contains key && wholePairs size (key :: keys) bs

/-- Whole texts, of at most this many pairs, come before a negative size. -/
def negativePairs : ℕ → Str → Bool
  | 0, _ => false
  | size + 1, bs =>
    negativeSize bs ||
      match takeText bs with
      | none => false
      | some (_, bs) =>
        negativeSize bs ||
          match takeText bs with
          | none => false
          | some (_, bs) => negativePairs size bs

/-- The number of pairs that the header of an image announces. -/
def pairCount (buffer : Str) : ℤ := ofIntBytes ((buffer.drop 8).take 4)

/-- A header, the pairs that it announces, and nothing else. -/
def wholeImage (buffer : Str) : Bool :=
  decide (12 ≤ buffer.length) && decide (0 ≤ pairCount buffer) && wholePairs (pairCount buffer).toNat [] (buffer.drop 12)

/-- A header, whole texts, fewer than it announces, and a negative size. -/
def negativeImage (buffer : Str) : Bool := decide (12 ≤ buffer.length) && negativePairs (pairCount buffer).toNat (buffer.drop 12)

/-- The bytes are what `serializeSnapshot` makes of the snapshot, with the pairs of the map in some order. -/
def Snapshot.HasImage (snap : Snapshot) (buffer : Str) : Prop :=
  ∃ kvState : StrMap, kvState.entries.Perm snap.kvState.entries ∧ serializeSnapshot { snap with kvState := kvState } = buffer

/-! ## Reading a text -/

/-- A size is read, and then the text. -/
def readSized (is : IStream) : Option (Str × IStream) := readText (is.readInt 0).1 (is.readInt 0).2

theorem readPairs_succ (size : ℕ) (is : IStream) (kvState : StrMap) : readPairs (size + 1) is kvState =
    (readSized is).bind fun (key, is) => (readSized is).bind fun (value, is) => readPairs size is (kvState.insert key value) := by
  rw [readPairs, readSized]
  simp only
  cases readText (is.readInt 0).1 (is.readInt 0).2 with
  | none => rfl
  | some p =>
    obtain ⟨key, is⟩ := p
    simp only [Option.bind_some, readSized]
    cases readText (is.readInt 0).1 (is.readInt 0).2 <;> rfl

/-- A stream with four bytes or more. -/
theorem readInt_good {bs : Str} (h : 4 ≤ bs.length) :
    ({ bytes := bs, good := true } : IStream).readInt 0 = (ofIntBytes (bs.take 4), { bytes := bs.drop 4, good := true }) := by
  unfold IStream.readInt
  rw [IStream.read_of_le h]
  simp only [List.length_take, min_eq_left h]
  rw [List.drop_of_length_le (by simp), List.append_nil]

/-- A stream with fewer. -/
theorem readInt_short {bs : Str} (h : bs.length < 4) :
    (({ bytes := bs, good := true } : IStream).readInt 0).2 = { bytes := [], good := false } := by
  unfold IStream.readInt
  rw [IStream.read_of_lt h]

theorem takeText_eq {bs t rest : Str} (h : takeText bs = some (t, rest)) :
    bs = intBytes t.length ++ (t ++ rest) ∧ t.length < 2 ^ 31 := by
  unfold takeText at h
  simp only at h
  split at h
  · next hc =>
    obtain ⟨h4, h0, hle⟩ := hc
    obtain ⟨rfl, rfl⟩ := Prod.mk.inj (Option.some.inj h)
    have hsize : (bs.take 4).length = 4 := by
      rw [List.length_take]
      omega
    have hrange := ofIntBytes_range hsize
    have hlen : (((bs.drop 4).take (ofIntBytes (bs.take 4)).toNat).length : ℤ) = ofIntBytes (bs.take 4) := by
      rw [List.length_take, List.length_drop]
      omega
    refine ⟨?_, by omega⟩
    rw [hlen, intBytes_ofIntBytes hsize, List.take_append_drop, List.take_append_drop]
  · cases h

theorem takeText_append {t : Str} (h : t.length < 2 ^ 31) (rest : Str) : takeText (intBytes t.length ++ (t ++ rest)) = some (t, rest) := by
  have hlen : ofIntBytes ((intBytes t.length ++ (t ++ rest)).take 4) = t.length := by
    rw [List.take_left' (intBytes_length _), ofIntBytes_intBytes (by omega) (by omega)]
  unfold takeText
  simp only [hlen]
  rw [if_pos]
  · rw [List.drop_left' (intBytes_length _), Int.toNat_natCast, List.take_left, List.drop_left]
  · simp only [List.length_append, intBytes_length]
    omega

/-- A size of which a byte is missing is not negative. -/
theorem readInt_short_nonneg {bs : Str} (h : bs.length < 4) : 0 ≤ (({ bytes := bs, good := true } : IStream).readInt 0).1 := by
  have hzero : intBytes 0 = [0, 0, 0, 0] := by decide
  have hsmall {cs : Str} (hc : ofLittleEndian cs < 2 ^ 31) : 0 ≤ ofIntBytes cs := by
    unfold ofIntBytes
    simp only
    rw [if_pos hc]
    omega
  unfold IStream.readInt
  rw [IStream.read_of_lt h, hzero]
  refine hsmall ?_
  rcases bs with _ | ⟨a, _ | ⟨b, _ | ⟨c, _ | ⟨d, bs⟩⟩⟩⟩
  · decide
  · have := a.toNat_lt
    simp [ofLittleEndian]
    omega
  · have := a.toNat_lt
    have := b.toNat_lt
    simp [ofLittleEndian]
    omega
  · have := a.toNat_lt
    have := b.toNat_lt
    have := c.toNat_lt
    simp [ofLittleEndian]
    omega
  · simp only [List.length_cons] at h
    omega

/-- A text that is there is read. -/
theorem readSized_of_takeText {bs t rest : Str} (h : takeText bs = some (t, rest)) :
    readSized { bytes := bs, good := true } = some (t, { bytes := rest, good := true }) := by
  obtain ⟨rfl, hlen⟩ := takeText_eq h
  unfold readSized
  rw [IStream.readInt_append (by omega) (by omega)]
  exact readText_append t rest

/-- What reading a text comes to: it throws for a negative size, or finds the text, or fails, and goes on with what it has. -/
theorem readSized_cases (bs : Str) :
    (negativeSize bs = true ∧ readSized { bytes := bs, good := true } = none) ∨
      (negativeSize bs = false ∧
        ((∃ t rest, takeText bs = some (t, rest) ∧ readSized { bytes := bs, good := true } = some (t, { bytes := rest, good := true })) ∨
          takeText bs = none ∧ ∃ t, readSized { bytes := bs, good := true } = some (t, { bytes := [], good := false }))) := by
  unfold readSized negativeSize takeText readText
  by_cases h4 : 4 ≤ bs.length
  · rw [readInt_good h4]
    by_cases hneg : ofIntBytes (bs.take 4) < 0
    · exact .inl ⟨decide_eq_true ⟨h4, hneg⟩, if_pos hneg⟩
    · refine .inr ⟨decide_eq_false (fun h => hneg h.2), ?_⟩
      rw [if_neg hneg]
      by_cases hle : ofIntBytes (bs.take 4) + 4 ≤ bs.length
      · refine .inl ⟨_, _, if_pos ⟨h4, by omega, hle⟩, ?_⟩
        rw [IStream.read_of_le (by rw [List.length_drop]; omega)]
        simp only [List.length_take, List.length_drop]
        rw [show (ofIntBytes (bs.take 4)).toNat - min (ofIntBytes (bs.take 4)).toNat (bs.length - 4) = 0 by omega]
        simp
      · refine .inr ⟨if_neg (fun h => hle h.2.2), ?_⟩
        rw [IStream.read_of_lt (by rw [List.length_drop]; omega)]
        exact ⟨_, rfl⟩
  · have hlt : bs.length < 4 := by omega
    refine .inr ⟨decide_eq_false (fun h => h4 h.1), .inr ⟨if_neg (fun h => h4 h.1), ?_⟩⟩
    rw [if_neg (by have := readInt_short_nonneg hlt; omega), readInt_short hlt]
    exact ⟨_, rfl⟩

/-- A stream that has failed gives empty texts. -/
theorem readPairs_failed (size : ℕ) (kvState : StrMap) : ∃ kvState', readPairs size { bytes := [], good := false } kvState = some kvState' := by
  induction size generalizing kvState with
  | zero => exact ⟨kvState, rfl⟩
  | succ size ih => exact ih _

/-! ## Reading the pairs -/

/-- The loop throws exactly where it comes to a negative size. -/
theorem readPairs_eq_none (size : ℕ) (bs : Str) (kvState : StrMap) :
    readPairs size { bytes := bs, good := true } kvState = none ↔ negativePairs size bs = true := by
  have hfailed (size : ℕ) (kvState : StrMap) : ¬readPairs size { bytes := [], good := false } kvState = none := fun h => by
    obtain ⟨kvState', heq⟩ := readPairs_failed size kvState
    rw [heq] at h
    cases h
  induction size generalizing bs kvState with
  | zero => exact iff_of_false nofun nofun
  | succ size ih =>
    rw [readPairs_succ, negativePairs, Bool.or_eq_true]
    rcases readSized_cases bs with ⟨hneg, heq⟩ | ⟨hneg, ⟨key, rest, htext, heq⟩ | ⟨htext, key, heq⟩⟩
    · rw [heq, hneg]
      exact iff_of_true rfl (.inl rfl)
    · rw [heq, hneg, htext]
      simp only [Option.bind_some, Bool.false_eq_true, false_or, Bool.or_eq_true]
      rcases readSized_cases rest with ⟨hneg, heq⟩ | ⟨hneg, ⟨value, rest, htext, heq⟩ | ⟨htext, value, heq⟩⟩
      · rw [heq, hneg]
        exact iff_of_true rfl (.inl rfl)
      · rw [heq, hneg, htext]
        simp only [Option.bind_some, Bool.false_eq_true, false_or]
        exact ih rest _
      · rw [heq, hneg, htext]
        simp only [Option.bind_some, Bool.false_eq_true, or_self, iff_false]
        exact hfailed size _
    · rw [heq, hneg, htext]
      simp only [Option.bind_some, Bool.false_eq_true, or_self, iff_false]
      exact hfailed size _

/-- The pairs of a list, one after the other in an image. -/
def pairsImage (ps : List (Sigma fun _ : Str => Str)) : Str := (ps.map fun p => serializePair p.1 p.2).flatten

theorem pairsImage_cons (p : Sigma fun _ : Str => Str) (ps : List (Sigma fun _ : Str => Str)) :
    pairsImage (p :: ps) = intBytes p.1.length ++ (p.1 ++ (intBytes p.2.length ++ (p.2 ++ pairsImage ps))) := by
  rw [pairsImage, List.map_cons, List.flatten_cons, serializePair_append]
  rfl

/-- Whole pairs are put into a map that has none of their keys, beside what it has. -/
theorem readPairs_whole {size : ℕ} {keys : List Str} {bs : Str} {kvState : StrMap} (h : wholePairs size keys bs = true)
    (hkeys : ∀ k ∈ kvState, k ∈ keys) : ∃ ps kvState', pairsImage ps = bs ∧ ps.length = size ∧
      readPairs size { bytes := bs, good := true } kvState = some kvState' ∧ (ps ++ kvState.entries).Perm kvState'.entries := by
  induction size generalizing keys bs kvState with
  | zero => exact ⟨[], kvState, (List.isEmpty_iff.mp h).symm, rfl, rfl, .refl _⟩
  | succ size ih =>
    unfold wholePairs at h
    split at h
    · cases h
    · next key rest hkey =>
      split at h
      · cases h
      · next value rest' hvalue =>
        simp only [Bool.and_eq_true, Bool.not_eq_true', List.contains_eq_mem, decide_eq_false_iff_not] at h
        obtain ⟨hnew, hrest⟩ := h
        have hnot : key ∉ kvState := fun hk => hnew (hkeys key hk)
        have hkeys' : ∀ k ∈ kvState.insert key value, k ∈ key :: keys := by
          intro k hk
          rcases (AList.mem_insert kvState).mp hk with rfl | hk
          · exact List.mem_cons_self
          · exact List.mem_cons_of_mem _ (hkeys k hk)
        obtain ⟨ps, kvState', hbytes, hlen, hread, hperm⟩ := ih hrest hkeys'
        refine ⟨⟨key, value⟩ :: ps, kvState', ?_, by rw [List.length_cons, hlen], ?_, ?_⟩
        · rw [pairsImage_cons, hbytes, ← (takeText_eq hvalue).1, ← (takeText_eq hkey).1]
        · rw [readPairs_succ, readSized_of_takeText hkey]
          simp only [Option.bind_some, readSized_of_takeText hvalue]
          exact hread
        · rw [AList.insert_of_notMem hnot] at hperm
          exact List.perm_middle.symm.trans hperm

/-- Pairs of sizes that an `int` holds are whole pairs. -/
theorem wholePairs_pairsImage {ps : List (Sigma fun _ : Str => Str)} {keys : List Str}
    (hsize : ∀ p ∈ ps, p.1.length < 2 ^ 31 ∧ p.2.length < 2 ^ 31) (hnodup : ps.NodupKeys) (hkeys : ∀ p ∈ ps, p.1 ∉ keys) :
    wholePairs ps.length keys (pairsImage ps) = true := by
  induction ps generalizing keys with
  | nil => rfl
  | cons p ps ih =>
    obtain ⟨key, value⟩ := p
    obtain ⟨hnot, hps⟩ := List.nodupKeys_cons.mp hnodup
    obtain ⟨hk, hv⟩ := hsize ⟨key, value⟩ List.mem_cons_self
    rw [List.length_cons, pairsImage_cons, wholePairs, takeText_append hk]
    simp only
    rw [takeText_append hv]
    simp only [Bool.and_eq_true, Bool.not_eq_true', List.contains_eq_mem, decide_eq_false_iff_not]
    refine ⟨hkeys ⟨key, value⟩ List.mem_cons_self, ih (fun q hq => hsize q (List.mem_cons_of_mem _ hq)) hps fun q hq hmem => ?_⟩
    rcases List.mem_cons.mp hmem with rfl | hmem
    · exact hnot (List.mem_map.mpr ⟨q, hq, rfl⟩)
    · exact hkeys q (List.mem_cons_of_mem _ hq) hmem

/-! ## What is read -/

theorem read_length_le (is : IStream) (n : ℕ) : (is.read n).1.length ≤ n := by
  unfold IStream.read
  split
  · split
    · exact List.length_take_le _ _
    · next h => exact (not_le.mp h).le
  · exact Nat.zero_le _

theorem readInt_lt (is : IStream) : (is.readInt 0).1 < 2 ^ 31 := by
  have hread := read_length_le is 4
  refine (ofIntBytes_range ?_).2
  show ((is.read 4).1 ++ (intBytes 0).drop (is.read 4).1.length).length = 4
  rw [List.length_append, List.length_drop, intBytes_length]
  omega

/-- The texts that are read have sizes that an `int` holds. -/
theorem readSized_length {is is' : IStream} {t : Str} (h : readSized is = some (t, is')) : t.length < 2 ^ 31 := by
  have hlt := readInt_lt is
  have hread := read_length_le (is.readInt 0).2 (is.readInt 0).1.toNat
  unfold readSized readText at h
  split at h
  · cases h
  · simp only [Option.some.injEq, Prod.mk.injEq] at h
    rw [← h.1, List.length_append, List.length_replicate]
    omega

/-- The map that is read has pairs of such sizes, at most as many as were announced. -/
theorem readPairs_bounds {size : ℕ} {is : IStream} {kvState kvState' : StrMap} (h : readPairs size is kvState = some kvState')
    (hb : ∀ p ∈ kvState.entries, p.1.length < 2 ^ 31 ∧ p.2.length < 2 ^ 31) :
    (∀ p ∈ kvState'.entries, p.1.length < 2 ^ 31 ∧ p.2.length < 2 ^ 31) ∧
      kvState'.entries.length ≤ kvState.entries.length + size := by
  induction size generalizing is kvState with
  | zero =>
    obtain rfl := Option.some.inj h
    exact ⟨hb, le_rfl⟩
  | succ size ih =>
    rw [readPairs_succ] at h
    obtain ⟨⟨key, is'⟩, hkey, h⟩ := Option.bind_eq_some_iff.mp h
    obtain ⟨⟨value, is''⟩, hvalue, h⟩ := Option.bind_eq_some_iff.mp h
    have hsub : (kvState.insert key value).entries = ⟨key, value⟩ :: List.kerase key kvState.entries := List.kinsert_def
    have hle := (List.kerase_sublist key kvState.entries).length_le
    obtain ⟨hps, hlen⟩ := ih h (fun p hp => by
      rw [hsub] at hp
      rcases List.mem_cons.mp hp with rfl | hp
      · exact ⟨readSized_length hkey, readSized_length hvalue⟩
      · exact hb p ((List.kerase_sublist key kvState.entries).subset hp))
    refine ⟨hps, ?_⟩
    rw [hsub, List.length_cons] at hlen
    omega

/-! ## Images -/

/-- An image with a header: its pairs are read from a good stream. -/
theorem deserializeSnapshot_long {buffer : Str} (h : 12 ≤ buffer.length) : deserializeSnapshot buffer =
    (readPairs (pairCount buffer).toNat { bytes := buffer.drop 12, good := true } ∅).map fun kvState =>
      { lastIncludedIndex := ofIntBytes (buffer.take 4)
        lastIncludedTerm := ofIntBytes ((buffer.drop 4).take 4)
        kvState := kvState
        covered := [] } := by
  unfold deserializeSnapshot pairCount
  simp only
  rw [readInt_good (by omega)]
  simp only
  rw [readInt_good (by rw [List.length_drop]; omega)]
  simp only
  rw [readInt_good (by simp only [List.length_drop]; omega)]
  simp only [List.drop_drop]

/-- Without a header there is an answer too. -/
theorem deserializeSnapshot_short {buffer : Str} (h : buffer.length < 12) : deserializeSnapshot buffer ≠ none := by
  have hfailed (size : ℕ) (f : StrMap → Snapshot) :
      (readPairs size { bytes := [], good := false } ∅).map f ≠ none := by
    obtain ⟨kvState, heq⟩ := readPairs_failed size ∅
    rw [heq]
    exact nofun
  unfold deserializeSnapshot
  simp only
  by_cases h4 : 4 ≤ buffer.length
  · rw [readInt_good h4]
    simp only
    by_cases h8 : 4 ≤ (buffer.drop 4).length
    · rw [readInt_good h8]
      simp only
      rw [readInt_short (by rw [List.length_drop, List.length_drop] at *; omega)]
      exact hfailed _ _
    · rw [readInt_short (by omega)]
      exact hfailed _ _
  · rw [readInt_short (by omega)]
    exact hfailed _ _

theorem serializeSnapshot_eq (snap : Snapshot) : serializeSnapshot snap = intBytes snap.lastIncludedIndex ++
    (intBytes snap.lastIncludedTerm ++ (intBytes snap.kvState.entries.length ++ pairsImage snap.kvState.entries)) := by
  simp only [serializeSnapshot, pairsImage, List.append_assoc]

/-- What is decoded and was serialized is whole. -/
theorem Snapshot.HasImage.whole {buffer : Str} {snap : Snapshot} (h : deserializeSnapshot buffer = some snap)
    (himage : snap.HasImage buffer) : wholeImage buffer = true := by
  obtain ⟨kvState, hperm, heq⟩ := himage
  rw [serializeSnapshot_eq] at heq
  have hlen : 12 ≤ buffer.length := by
    rw [← heq]
    simp only [List.length_append, intBytes_length]
    omega
  rw [deserializeSnapshot_long hlen, Option.map_eq_some_iff] at h
  obtain ⟨kvState', hread, rfl⟩ := h
  obtain ⟨hsize, hcount⟩ := readPairs_bounds hread (fun p hp => absurd hp List.not_mem_nil)
  have hfour : ((buffer.drop 8).take 4).length = 4 := by
    rw [List.length_take, List.length_drop]
    omega
  have hrange := (ofIntBytes_range hfour).2
  have hlt : kvState.entries.length < 2 ^ 31 := by
    rw [hperm.length_eq]
    have hnil : (∅ : StrMap).entries.length = 0 := rfl
    unfold pairCount at hcount
    simp only at hcount ⊢
    omega
  have hdrop8 : buffer.drop 8 = intBytes kvState.entries.length ++ pairsImage kvState.entries := by
    rw [← heq, List.drop_append, List.drop_append, List.drop_of_length_le (by simp), List.drop_of_length_le (by simp)]
    simp
  have hpairs : pairCount buffer = kvState.entries.length := by
    unfold pairCount
    rw [hdrop8, List.take_left' (intBytes_length _), ofIntBytes_intBytes (by omega) (by omega)]
  have hdrop12 : buffer.drop 12 = pairsImage kvState.entries := by
    rw [show 12 = 8 + 4 from rfl, ← List.drop_drop, hdrop8, List.drop_left' (intBytes_length _)]
  unfold wholeImage
  rw [hpairs, hdrop12]
  simp only [Bool.and_eq_true, decide_eq_true_eq, Int.toNat_natCast]
  exact ⟨⟨hlen, by omega⟩, wholePairs_pairsImage (fun p hp => hsize p (hperm.subset hp)) kvState.nodupKeys (fun _ _ => List.not_mem_nil)⟩

/-- What is whole is decoded, and is what was serialized. -/
theorem wholeImage_deserialize {buffer : Str} (h : wholeImage buffer = true) :
    ∃ snap, deserializeSnapshot buffer = some snap ∧ snap.HasImage buffer := by
  unfold wholeImage at h
  simp only [Bool.and_eq_true, decide_eq_true_eq] at h
  obtain ⟨⟨hlen, hcount⟩, hpairs⟩ := h
  have hkeys : ∀ k ∈ (∅ : StrMap), k ∈ ([] : List Str) := fun k hk => absurd hk (AList.notMem_empty k)
  obtain ⟨ps, kvState, hbytes, hsize, hread, hperm⟩ := readPairs_whole hpairs hkeys
  rw [show (∅ : StrMap).entries = [] from rfl, List.append_nil] at hperm
  rw [deserializeSnapshot_long hlen, hread]
  refine ⟨_, rfl, ⟨ps, (List.perm_nodupKeys hperm).mpr kvState.nodupKeys⟩, hperm, ?_⟩
  rw [serializeSnapshot_eq]
  simp only
  rw [hbytes, show (ps.length : ℤ) = pairCount buffer by omega]
  unfold pairCount
  rw [intBytes_ofIntBytes (by rw [List.length_take]; omega), intBytes_ofIntBytes (by rw [List.length_take, List.length_drop]; omega),
    intBytes_ofIntBytes (by rw [List.length_take, List.length_drop]; omega)]
  rw [show buffer.drop 12 = (buffer.drop 8).drop 4 by rw [List.drop_drop], List.take_append_drop,
    show buffer.drop 8 = (buffer.drop 4).drop 4 by rw [List.drop_drop], List.take_append_drop, List.take_append_drop]

/-- Bytes are either refused, by an exception of `deserializeSnapshot`, or decoded as the snapshot they are an image of, exactly where
they are a header, the pairs that it announces and nothing else, with different keys, or where whole texts come before a negative size. -/
theorem damaged_rejected_iff (buffer : Str) :
    ((deserializeSnapshot buffer = none ∧ ∀ (n : RaftNode) (store : KVStore) (m : InstallSnapshotRPC), n.snapshotBuffer = buffer →
        (n.finishTransfer store m).Refused) ∨
      ∃ snap, deserializeSnapshot buffer = some snap ∧ snap.HasImage buffer) ↔
        wholeImage buffer = true ∨ negativeImage buffer = true := by
  have hrefused (hnone : deserializeSnapshot buffer = none) (n : RaftNode) (store : KVStore) (m : InstallSnapshotRPC)
      (hn : n.snapshotBuffer = buffer) : (n.finishTransfer store m).Refused := by
    unfold RaftNode.finishTransfer
    rw [hn, hnone]
    exact ⟨_, _, rfl⟩
  have hnone (hlen : 12 ≤ buffer.length) : deserializeSnapshot buffer = none ↔ negativeImage buffer = true := by
    rw [deserializeSnapshot_long hlen, Option.map_eq_none_iff, readPairs_eq_none, negativeImage]
    simp [hlen]
  constructor
  · rintro (⟨hn, _⟩ | ⟨snap, hsnap, himage⟩)
    · by_cases hlen : 12 ≤ buffer.length
      · exact .inr ((hnone hlen).mp hn)
      · exact absurd hn (deserializeSnapshot_short (by omega))
    · exact .inl (himage.whole hsnap)
  · rintro (hwhole | hneg)
    · exact .inr (wholeImage_deserialize hwhole)
    · have hlen : 12 ≤ buffer.length := by
        unfold negativeImage at hneg
        exact of_decide_eq_true (Bool.and_eq_true_iff.mp hneg).1
      exact .inl ⟨(hnone hlen).mpr hneg, hrefused ((hnone hlen).mpr hneg)⟩

/-- An image with one pair, of which the last byte of the value is missing. -/
def cutImage : Str := (serializeSnapshot
  { lastIncludedIndex := 3, lastIncludedTerm := 1, kvState := (∅ : StrMap).insert (ascii "k") (ascii "vw"), covered := [] }).take 22

/-- The cut image is decoded, with a zero byte in the place of the missing one. -/
theorem damaged_accepted : ¬∀ buffer : Str, (deserializeSnapshot buffer = none ∧ ∀ (n : RaftNode) (store : KVStore)
    (m : InstallSnapshotRPC), n.snapshotBuffer = buffer → (n.finishTransfer store m).Refused) ∨
      ∃ snap, deserializeSnapshot buffer = some snap ∧ snap.HasImage buffer := by
  intro h
  rcases (damaged_rejected_iff cutImage).mp (h cutImage) with h | h
  · exact absurd h (by decide +kernel)
  · exact absurd h (by decide +kernel)

end RaftStore
