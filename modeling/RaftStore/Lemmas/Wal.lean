import RaftStore.Store
import RaftStore.Systems.Records

/-!
# The write-ahead log is read back as it was written

The image of a record is read back as the record, up to the size a string can have, an image that is cut short ends the file, and
what is read as a record is the image of one: the records are a code, and the constructor reads the file by it. A write-ahead log
that is *filed* is the one its file is read back as.
-/

namespace RaftStore

open Systems (Code)

/-! ## Bytes -/

@[simp] theorem littleEndian_length (n x : ℕ) : (littleEndian n x).length = n := by
  induction n generalizing x with
  | zero => rfl
  | succ n ih => simp [littleEndian, ih]

/-- The low bytes of a number are read back as the number, up to the size of the image. -/
theorem ofLittleEndian_littleEndian (n x : ℕ) : ofLittleEndian (littleEndian n x) = x % 256 ^ n := by
  induction n generalizing x with
  | zero => simp [littleEndian, ofLittleEndian, Nat.mod_one]
  | succ n ih =>
    have hb : x.toUInt8.toNat = x % 256 := by simp
    rw [littleEndian, ofLittleEndian, ih, hb, pow_succ', Nat.mod_mul]

@[simp] theorem intBytes_length (x : ℤ) : (intBytes x).length = 4 := littleEndian_length 4 _

/-- An `int` is read back from its image. -/
theorem ofIntBytes_intBytes {x : ℤ} (h : -2 ^ 31 ≤ x) (h' : x < 2 ^ 31) : ofIntBytes (intBytes x) = x := by
  unfold ofIntBytes intBytes
  rw [ofLittleEndian_littleEndian]
  simp only
  split <;> omega

/-- The image of the number that bytes are the image of. -/
theorem littleEndian_ofLittleEndian (bs : Str) : littleEndian bs.length (ofLittleEndian bs) = bs := by
  induction bs with
  | nil => rfl
  | cons b bs ih =>
    have hb : (b.toNat + 256 * ofLittleEndian bs) / 256 = ofLittleEndian bs := by
      have := b.toNat_lt
      omega
    have hb' : (b.toNat + 256 * ofLittleEndian bs).toUInt8 = b := by
      apply UInt8.toNat_inj.mp
      have := b.toNat_lt
      simp
    rw [List.length_cons, ofLittleEndian, littleEndian, hb, hb', ih]

theorem ofLittleEndian_lt (bs : Str) : ofLittleEndian bs < 256 ^ bs.length := by
  induction bs with
  | nil => simp [ofLittleEndian]
  | cons b bs ih =>
    have := b.toNat_lt
    rw [ofLittleEndian, List.length_cons, pow_succ']
    omega

/-- The image of the `int` that four bytes are the image of. -/
theorem intBytes_ofIntBytes {bs : Str} (h : bs.length = 4) : intBytes (ofIntBytes bs) = bs := by
  have hlt := ofLittleEndian_lt bs
  rw [h] at hlt
  have hn : (ofIntBytes bs % 2 ^ 32).toNat = ofLittleEndian bs := by
    unfold ofIntBytes
    simp only
    split <;> omega
  unfold intBytes
  rw [hn, ← h, littleEndian_ofLittleEndian]

theorem ofIntBytes_range {bs : Str} (h : bs.length = 4) : -2 ^ 31 ≤ ofIntBytes bs ∧ ofIntBytes bs < 2 ^ 31 := by
  have hlt := ofLittleEndian_lt bs
  rw [h] at hlt
  unfold ofIntBytes
  simp only
  split <;> omega

namespace IStream

theorem read_of_le {bs : Str} {n : ℕ} (h : n ≤ bs.length) :
    ({ bytes := bs, good := true } : IStream).read n = (bs.take n, { bytes := bs.drop n, good := true }) := by
  unfold read
  rw [if_pos rfl, if_pos h]

theorem read_of_lt {bs : Str} {n : ℕ} (h : bs.length < n) :
    ({ bytes := bs, good := true } : IStream).read n = (bs, { bytes := [], good := false }) := by
  unfold read
  rw [if_pos rfl, if_neg (by simpa using h)]

/-- A stream that has the bytes gives them. -/
theorem read_append {n : ℕ} {bs : Str} (h : bs.length = n) (rest : Str) :
    ({ bytes := bs ++ rest, good := true } : IStream).read n = (bs, { bytes := rest, good := true }) := by
  subst h
  unfold read
  rw [if_pos rfl, if_pos (by simp)]
  simp

end IStream

namespace Wal

/-- A record that a file can hold: its term is an `int`, and its text has the size of a string. -/
def LogEntry.Fits (e : LogEntry) : Prop := -2 ^ 31 ≤ e.term ∧ e.term < 2 ^ 31 ∧ e.command.length ≤ maxSize

/-- The image of a record is read back as the record. -/
theorem LogEntry.fromBinary_toBinary {e : LogEntry} (h : e.Fits) (rest : Str) :
    LogEntry.fromBinary { bytes := e.toBinary ++ rest, good := true } = .entry e { bytes := rest, good := true } := by
  obtain ⟨ht, ht', hc⟩ := h
  have hsize : ofLittleEndian (littleEndian 8 e.command.length) = e.command.length := by
    rw [ofLittleEndian_littleEndian]
    unfold maxSize at hc
    omega
  have hindex : (ofLittleEndian (littleEndian 8 e.index.toNat)).toUInt64 = e.index := by
    rw [ofLittleEndian_littleEndian, Nat.mod_eq_of_lt (show e.index.toNat < 256 ^ 8 from e.index.toNat_lt)]
    exact UInt64.ofNat_toNat
  unfold fromBinary toBinary
  simp only [List.append_assoc]
  rw [IStream.read_append (intBytes_length _)]
  simp only [Bool.not_true, Bool.false_eq_true, if_false]
  rw [IStream.read_append (littleEndian_length _ _)]
  simp only [Bool.not_true, Bool.false_eq_true, if_false]
  rw [IStream.read_append (littleEndian_length _ _)]
  simp only [Bool.not_true, Bool.false_eq_true, if_false, hsize]
  rw [if_neg (by omega), IStream.read_append rfl]
  simp only [Bool.not_true, Bool.false_eq_true, if_false, ofIntBytes_intBytes ht ht', hindex]

/-- The size of the text that the header of a record announces. -/
def announced (bs : Str) : ℕ := ofLittleEndian ((bs.drop 12).take 8)

/-- Bytes that end inside a record: in its header, or in the text that its header announces. -/
def CutShort (bs : Str) : Prop := bs.length < 20 ∨ announced bs ≤ maxSize ∧ bs.length < 20 + announced bs

instance (bs : Str) : Decidable (CutShort bs) := inferInstanceAs (Decidable (_ ∨ _))

/-- What `fromBinary` makes of the bytes of a stream. -/
theorem LogEntry.fromBinary_eq (bs : Str) : LogEntry.fromBinary { bytes := bs, good := true } =
    if bs.length < 20 then .stop
    else if maxSize < announced bs then .lengthError
    else if bs.length < 20 + announced bs then .stop
    else .entry { term := ofIntBytes (bs.take 4), index := (ofLittleEndian ((bs.drop 4).take 8)).toUInt64,
                  command := (bs.drop 20).take (announced bs) } { bytes := bs.drop (20 + announced bs), good := true } := by
  unfold fromBinary
  by_cases h4 : bs.length < 4
  · rw [IStream.read_of_lt h4, if_pos (show bs.length < 20 by omega)]
    rfl
  · rw [IStream.read_of_le (by omega)]
    simp only [Bool.not_true, Bool.false_eq_true, if_false]
    by_cases h12 : bs.length < 12
    · rw [IStream.read_of_lt (by rw [List.length_drop]; omega), if_pos (show bs.length < 20 by omega)]
      rfl
    · rw [IStream.read_of_le (by rw [List.length_drop]; omega), List.drop_drop]
      simp only [Bool.not_true, Bool.false_eq_true, if_false]
      by_cases h20 : bs.length < 20
      · rw [IStream.read_of_lt (by rw [List.length_drop]; omega), if_pos h20]
        rfl
      · rw [IStream.read_of_le (by rw [List.length_drop]; omega), List.drop_drop, if_neg h20]
        simp only [Bool.not_true, Bool.false_eq_true, if_false, show 4 + 8 = 12 from rfl, show 12 + 8 = 20 from rfl,
          show ofLittleEndian ((bs.drop 12).take 8) = announced bs from rfl]
        by_cases hmax : maxSize < announced bs
        · rw [if_pos hmax, if_pos hmax]
        · rw [if_neg hmax, if_neg hmax]
          by_cases htext : bs.length < 20 + announced bs
          · rw [IStream.read_of_lt (by rw [List.length_drop]; omega), if_pos htext]
            rfl
          · rw [IStream.read_of_le (by rw [List.length_drop]; omega), List.drop_drop, if_neg htext]
            rfl

/-- The image of a record: its header, the size of its text in the last eight bytes of it, and its text. -/
theorem LogEntry.toBinary_length (e : LogEntry) : e.toBinary.length = 20 + e.command.length := by
  simp [toBinary]
  omega

theorem LogEntry.announced_toBinary {e : LogEntry} (h : e.Fits) {p : Str} (hp : p <+: e.toBinary) (hlen : 20 ≤ p.length) :
    announced p = e.command.length := by
  obtain ⟨t, ht⟩ := hp
  have hsize : (p.drop 12).take 8 = ((p ++ t).drop 12).take 8 := by
    rw [List.drop_append_of_le_length (by omega), List.take_append_of_le_length (by rw [List.length_drop]; omega)]
  have hfit := h.2.2
  unfold maxSize at hfit
  unfold announced
  rw [hsize, ht, toBinary, List.append_assoc, List.drop_left' (by simp), List.take_left' (by simp),
    ofLittleEndian_littleEndian]
  omega

/-- The bytes of a record that is cut short. -/
theorem LogEntry.cutShort_of_prefix {e : LogEntry} (h : e.Fits) {p : Str} (hp : p <+: e.toBinary) (hne : p ≠ e.toBinary) :
    CutShort p := by
  by_cases hlen : p.length < 20
  · exact .inl hlen
  · have hlt : p.length < e.toBinary.length := by
      refine lt_of_le_of_ne hp.length_le fun heq => hne (hp.eq_of_length heq)
    rw [toBinary_length] at hlt
    refine .inr ?_
    rw [announced_toBinary h hp (by omega)]
    exact ⟨h.2.2, hlt⟩

/-- What is read as a record is the image of one. -/
theorem LogEntry.toBinary_fromBinary {bs : Str} {e : LogEntry} {is : IStream}
    (h : fromBinary { bytes := bs, good := true } = .entry e is) : e.Fits ∧ bs = e.toBinary ++ is.bytes ∧ is.good = true := by
  rw [fromBinary_eq] at h
  split_ifs at h with h20 hmax htext
  cases h
  have hcmd : ((bs.drop 20).take (announced bs)).length = announced bs := by
    rw [List.length_take, List.length_drop]
    omega
  have hterm : (bs.take 4).length = 4 := by
    rw [List.length_take]
    omega
  have hindex : ((bs.drop 4).take 8).length = 8 := by
    rw [List.length_take, List.length_drop]
    omega
  have hsize : ((bs.drop 12).take 8).length = 8 := by
    rw [List.length_take, List.length_drop]
    omega
  obtain ⟨hlo, hhi⟩ := ofIntBytes_range hterm
  refine ⟨⟨hlo, hhi, by simp only [hcmd]; omega⟩, ?_, rfl⟩
  have himage : littleEndian 8 (ofLittleEndian ((bs.drop 4).take 8)).toUInt64.toNat = (bs.drop 4).take 8 := by
    have hlt := ofLittleEndian_lt ((bs.drop 4).take 8)
    rw [hindex] at hlt
    have := littleEndian_ofLittleEndian ((bs.drop 4).take 8)
    rw [hindex] at this
    rw [show (ofLittleEndian ((bs.drop 4).take 8)).toUInt64.toNat = ofLittleEndian ((bs.drop 4).take 8) from
      UInt64.toNat_ofNat_of_lt hlt, this]
  have hannounced : littleEndian 8 (announced bs) = (bs.drop 12).take 8 := by
    have := littleEndian_ofLittleEndian ((bs.drop 12).take 8)
    rwa [hsize] at this
  simp only [toBinary, hcmd, intBytes_ofIntBytes hterm, himage, hannounced]
  conv_lhs => rw [← List.take_append_drop 4 bs, ← List.take_append_drop 8 (bs.drop 4), List.drop_drop,
    ← List.take_append_drop 8 (bs.drop 12), List.drop_drop, ← List.take_append_drop (announced bs) (bs.drop 20),
    List.drop_drop]
  simp only [List.append_assoc]

/-- What is read at the beginning of a file. -/
def decode (bs : Str) : Systems.Decoded LogEntry UInt8 :=
  match LogEntry.fromBinary { bytes := bs, good := true } with
  | .entry e is => .record e is.bytes
  | .stop => .stop
  | .lengthError => .failure

theorem decode_encode {e : LogEntry} (h : e.Fits) (rest : Str) : decode (e.toBinary ++ rest) = .record e rest := by
  unfold decode
  rw [LogEntry.fromBinary_toBinary h]

/-- A record that is cut short ends the reading. -/
theorem decode_torn {e : LogEntry} {p : Str} (h : e.Fits) (hp : p <+: e.toBinary) (hne : p ≠ e.toBinary) : decode p = .stop := by
  unfold decode
  rcases LogEntry.cutShort_of_prefix h hp hne with hlen | ⟨hmax, hlen⟩
  · rw [LogEntry.fromBinary_eq, if_pos hlen]
  · rw [LogEntry.fromBinary_eq]
    split_ifs with _ hmax' <;> first | rfl | omega

/-- What is read as a record is the image of one. -/
theorem decode_record {bs rest : Str} {e : LogEntry} (h : decode bs = .record e rest) : e.Fits ∧ bs = e.toBinary ++ rest := by
  unfold decode at h
  split at h
  · next e' is he =>
    cases h
    obtain ⟨hfit, heq, _⟩ := LogEntry.toBinary_fromBinary he
    exact ⟨hfit, heq⟩
  · cases h
  · cases h

/-- The records of the write-ahead log as a code. -/
def code : Code LogEntry UInt8 where
  encode := LogEntry.toBinary
  decode := decode
  Fits := LogEntry.Fits
  decode_encode := decode_encode
  decode_torn := decode_torn
  decode_record := decode_record

/-- The bytes that no record begins with, at the end of a file. -/
theorem code_stop_iff (bs : Str) : code.decode bs = .stop ↔ CutShort bs := by
  have hdecode : code.decode bs = decode bs := rfl
  rw [hdecode, decode, LogEntry.fromBinary_eq]
  unfold CutShort
  split_ifs with h20 hmax htext
  · exact ⟨fun _ => .inl h20, fun _ => rfl⟩
  · exact ⟨fun h => (by cases h), fun h => by omega⟩
  · exact ⟨fun _ => .inr ⟨by omega, htext⟩, fun _ => rfl⟩
  · exact ⟨fun h => (by cases h), fun h => by omega⟩

end Wal

namespace WAL

variable {w : WAL}

/-- The constructor's loop reads the file as the records of the code. -/
theorem loadEntries_iff {bs : Str} {fuel : ℕ} (hf : bs.length < fuel) {es : List Wal.LogEntry} :
    loadEntries fuel { bytes := bs, good := true } = some es ↔ Wal.code.Reads bs es := by
  induction fuel generalizing bs es with
  | zero => omega
  | succ fuel ih =>
    rw [loadEntries]
    cases hd : Wal.LogEntry.fromBinary { bytes := bs, good := true } with
    | entry e is =>
      obtain ⟨_, heq, hgood⟩ := Wal.LogEntry.toBinary_fromBinary hd
      have hdecode : Wal.code.decode bs = .record e is.bytes := by
        simp only [Wal.code, Wal.decode, hd]
      obtain ⟨rest, good⟩ := is
      obtain rfl : good = true := hgood
      have hlen : rest.length < fuel := by
        have := congrArg List.length heq
        rw [List.length_append, Wal.LogEntry.toBinary_length] at this
        simp only at this
        omega
      simp only [Option.map_eq_some_iff, ih hlen]
      constructor
      · rintro ⟨es, hr, rfl⟩
        exact .cons hdecode hr
      · intro h
        cases h with
        | nil h => rw [hdecode] at h; cases h
        | cons h hr =>
          rw [hdecode] at h
          cases h
          exact ⟨_, hr, rfl⟩
    | stop =>
      have hdecode : Wal.code.decode bs = .stop := by
        simp only [Wal.code, Wal.decode, hd]
      exact ⟨fun h => Option.some.inj h ▸ .nil hdecode, fun h => (congrArg some ((Code.Reads.nil hdecode).unique h))⟩
    | lengthError =>
      have hdecode : Wal.code.decode bs = .failure := by
        simp only [Wal.code, Wal.decode, hd]
      refine ⟨nofun, fun h => ?_⟩
      cases h with
      | nil h => rw [hdecode] at h; cases h
      | cons h _ => rw [hdecode] at h; cases h

/-- What the constructor makes of a file that is read as these records. -/
theorem ofFile_eq_some_iff {file : Str} {w : WAL} : ofFile file = some w ↔ Wal.code.Reads file w.cachedEntries ∧
    w.file = file ∧ w.lastIndex = (w.cachedEntries.getLast?.map (·.index)).getD 0 := by
  unfold ofFile
  rw [Option.map_eq_some_iff]
  constructor
  · rintro ⟨es, hes, rfl⟩
    exact ⟨(loadEntries_iff (Nat.lt_succ_self _)).mp hes, rfl, rfl⟩
  · rintro ⟨hr, rfl, hlast⟩
    refine ⟨w.cachedEntries, (loadEntries_iff (Nat.lt_succ_self _)).mpr hr, ?_⟩
    rw [← hlast]

/-- The file holds the images of the records, and `lastIndex` is the index of the last one. -/
structure Filed (w : WAL) : Prop where
  file : w.file = (w.cachedEntries.map Wal.LogEntry.toBinary).flatten
  fits : ∀ e ∈ w.cachedEntries, e.Fits
  lastIndex : w.lastIndex = (w.cachedEntries.getLast?.map (·.index)).getD 0

/-- The constructor reads a filed log back from its file. -/
theorem Filed.ofFile (h : w.Filed) : ofFile w.file = some w := by
  refine ofFile_eq_some_iff.mpr ⟨?_, rfl, h.lastIndex⟩
  have hread := (Code.Reads.nil ((Wal.code_stop_iff []).mpr (.inl (by decide)))).images_append h.fits
  rw [List.append_nil, List.append_nil] at hread
  rw [h.file]
  exact hread

theorem Filed.appendEntry (h : w.Filed) {command : Str} (hc : command.length ≤ Wal.maxSize) : (w.appendEntry command).Filed where
  file := by
    unfold WAL.appendEntry
    simp [h.file]
  fits e he := by
    rcases List.mem_append.mp he with he | he
    · exact h.fits e he
    · obtain rfl := List.mem_singleton.mp he
      exact ⟨show (-2 ^ 31 : ℤ) ≤ 1 by decide, show (1 : ℤ) < 2 ^ 31 by decide, hc⟩
  lastIndex := by
    unfold WAL.appendEntry
    simp

theorem Filed.truncateUpTo (h : w.Filed) (i : ℤ) : (w.truncateUpTo i).Filed where
  file := rfl
  fits e he := h.fits e (List.mem_of_mem_filter he)
  lastIndex := rfl

end WAL

end RaftStore
