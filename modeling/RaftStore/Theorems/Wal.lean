import RaftStore.Lemmas.Wal
import RaftStore.Systems.Runs

/-!
# The write-ahead log over its whole life

A file that is cut anywhere is read as the records that it holds all the bytes of. Records that are appended behind a torn one are
read back only where they overlap with it. As long as no file is torn, what the log has in memory and what it has on disk are the
same after any sequence of operations.
-/

namespace RaftStore

open Systems (Code Run runAll)

namespace WAL

variable {w : WAL} {es : List Wal.LogEntry}

/-- The `lastIndex` of a log with these records. -/
def lastOf (es : List Wal.LogEntry) : UInt64 := (es.getLast?.map (·.index)).getD 0

/-- What the constructor makes of a file that is read as these records. -/
theorem ofFile_of_reads {file : Str} (h : Wal.code.Reads file es) :
    ofFile file = some { file := file, cachedEntries := es, lastIndex := lastOf es } :=
  ofFile_eq_some_iff.mpr ⟨h, rfl, rfl⟩

/-! ## A file that is cut -/

/-- The first bytes of a file of records are read as the longest list of records that lie within them. -/
theorem ofFile_take (hes : ∀ e ∈ es, e.Fits) (n : ℕ) :
    ∃ w, ofFile ((es.map Wal.LogEntry.toBinary).flatten.take n) = some w ∧ w.cachedEntries <+: es ∧
      (w.cachedEntries.map Wal.LogEntry.toBinary).flatten.length ≤ n ∧
      (∀ es', es' <+: es → (es'.map Wal.LogEntry.toBinary).flatten.length ≤ n → es' <+: w.cachedEntries) ∧
      (n = (es.map Wal.LogEntry.toBinary).flatten.length → w.cachedEntries = es) := by
  have hstop : Wal.code.decode [] = .stop := (Wal.code_stop_iff []).mpr (.inl (by decide))
  obtain ⟨l, hread, hl, hlen, hmax⟩ := Code.reads_take hstop hes n
  refine ⟨_, ofFile_of_reads hread, hl, hlen, hmax, fun hn => ?_⟩
  exact hl.eq_of_length_le (hmax es (List.prefix_refl _) (le_of_eq hn.symm)).length_le

/-- Two records, and all bytes of the file but the last. -/
theorem ofFile_take_two : ∃ w, ofFile
      (([{ term := 1, index := 1, command := ascii "PUT a=1" }, { term := -1, index := 2, command := [0, 10] }].map
        Wal.LogEntry.toBinary).flatten.take 48) = some w ∧
      w.cachedEntries <+: [{ term := 1, index := 1, command := ascii "PUT a=1" }, { term := -1, index := 2, command := [0, 10] }] := by
  have hfits : ∀ e ∈ [({ term := 1, index := 1, command := ascii "PUT a=1" } : Wal.LogEntry),
      { term := -1, index := 2, command := [0, 10] }], e.Fits := by
    unfold Wal.LogEntry.Fits
    decide
  obtain ⟨w, hw, hl, _⟩ := ofFile_take hfits 48
  exact ⟨w, hw, hl⟩

/-! ## A torn record -/

/-- The records that `appendEntry` makes of commands, after a record with this index. -/
def newEntries (lastIndex : UInt64) : List Str → List Wal.LogEntry
  | [] => []
  | command :: commands => { term := 1, index := lastIndex + 1, command := command } :: newEntries (lastIndex + 1) commands

/-- What reopening a file, appending commands and reopening it once more loads; `none` where an exception leaves a constructor. -/
def resume (file : Str) (commands : List Str) : Option (List Wal.LogEntry) :=
  (ofFile file).bind fun w => (ofFile (commands.foldl appendEntry w).file).map (·.cachedEntries)

theorem newEntries_fits (lastIndex : UInt64) {commands : List Str} (h : ∀ c ∈ commands, c.length ≤ Wal.maxSize) :
    ∀ e ∈ newEntries lastIndex commands, e.Fits := by
  induction commands generalizing lastIndex with
  | nil => exact fun _ he => absurd he List.not_mem_nil
  | cons c commands ih =>
    intro e he
    rcases List.mem_cons.mp he with rfl | he
    · exact ⟨show (-2 ^ 31 : ℤ) ≤ 1 by decide, show (1 : ℤ) < 2 ^ 31 by decide, h c List.mem_cons_self⟩
    · exact ih (lastIndex + 1) (fun c hc => h c (List.mem_cons_of_mem _ hc)) e he

/-- What commands append to the file. -/
theorem foldl_appendEntry_file (w : WAL) (commands : List Str) :
    (commands.foldl appendEntry w).file = w.file ++ Wal.code.images (newEntries w.lastIndex commands) := by
  induction commands generalizing w with
  | nil => exact (List.append_nil _).symm
  | cons c commands ih =>
    rw [List.foldl_cons, ih]
    exact List.append_assoc _ _ _

/-- A file of records that ends with a torn one: after commands have been appended to it, it is read as the records and those of the
commands exactly where the torn bytes and the new records are, in this order, the new records followed by bytes that are cut short. -/
theorem resume_torn_iff (hes : ∀ e ∈ es, e.Fits) {r : Wal.LogEntry} (hr : r.Fits) {p : Str} (hp : p <+: r.toBinary)
    (hne : p ≠ r.toBinary) {commands : List Str} (hc : ∀ c ∈ commands, c.length ≤ Wal.maxSize) :
    resume ((es.map Wal.LogEntry.toBinary).flatten ++ p) commands =
        some (es ++ newEntries (lastOf es) commands) ↔
      ∃ s, p ++ ((newEntries (lastOf es) commands).map Wal.LogEntry.toBinary).flatten =
        ((newEntries (lastOf es) commands).map Wal.LogEntry.toBinary).flatten ++ s ∧ Wal.CutShort s := by
  have htorn : Wal.code.Reads p [] := .nil ((Wal.code_stop_iff p).mpr (Wal.LogEntry.cutShort_of_prefix hr hp hne))
  have hfirst : Wal.code.Reads (Wal.code.images es ++ p) es := by
    have := htorn.images_append hes
    rwa [List.append_nil] at this
  have hnew := newEntries_fits (lastOf es) hc
  have hiff := Code.reads_torn_iff (c := Wal.code) (p := p) hes hnew
  simp only [Wal.code_stop_iff] at hiff
  refine Iff.trans ?_ hiff
  show (ofFile (Wal.code.images es ++ p)).bind _ = _ ↔ _
  rw [ofFile_of_reads hfirst, Option.bind_some, foldl_appendEntry_file, Option.map_eq_some_iff, List.append_assoc]
  constructor
  · rintro ⟨w, hw, heq⟩
    rw [← heq]
    exact (ofFile_eq_some_iff.mp hw).1
  · intro h
    exact ⟨_, ofFile_of_reads h, rfl⟩

/-- The record of a first write. -/
def firstRecord : Wal.LogEntry := { term := 1, index := 1, command := ascii "PUT a=1" }

theorem firstRecord_fits : firstRecord.Fits := by
  unfold Wal.LogEntry.Fits
  decide

/-- Where nothing is appended behind the first byte of a torn record, the complete records are read back. -/
theorem resume_torn_unwritten : resume (firstRecord.toBinary ++ [1]) [] = some [firstRecord] := by
  have hes : ∀ e ∈ [firstRecord], e.Fits := fun e he => List.mem_singleton.mp he ▸ firstRecord_fits
  have hc : ∀ c ∈ ([] : List Str), c.length ≤ Wal.maxSize := nofun
  have h := resume_torn_iff hes firstRecord_fits (p := [1]) (by decide) (by decide) hc
  exact h.mpr ⟨[1], rfl, by decide⟩

/-- One command that is appended behind the first byte of a torn record is lost. -/
theorem resume_torn_loses : ¬∀ (es : List Wal.LogEntry) (r : Wal.LogEntry) (p : Str) (commands : List Str), (∀ e ∈ es, e.Fits) →
    r.Fits → p <+: r.toBinary → p ≠ r.toBinary → (∀ c ∈ commands, c.length ≤ Wal.maxSize) →
    resume ((es.map Wal.LogEntry.toBinary).flatten ++ p) commands = some (es ++ newEntries (lastOf es) commands) := by
  intro h
  have hlost : resume [1] [ascii "PUT a=1"] = some [] := by decide +kernel
  have hkept := h [] firstRecord [1] [ascii "PUT a=1"] (fun _ he => absurd he List.not_mem_nil) firstRecord_fits (by decide)
    (by decide) (by decide)
  rw [List.map_nil, List.flatten_nil, List.nil_append, hlost] at hkept
  cases hkept

/-! ## A whole life -/

/-- The most records that a vector of them can hold: one takes 48 bytes. -/
def maxEntries : ℕ := (2 ^ 63 - 1) / 48

/-- What is done to a write-ahead log: the calls of the store, and the end of the process and the start of the next one. -/
inductive Op where
  | appendEntry (command : Str)
  | truncateUpTo (lastIncludedIndex : ℤ)
  | reopen

/-- One operation: a command has the size of a string and a vector has room for its record, the argument of `truncateUpTo` is an
`int` that is not negative, and no exception leaves the constructor. -/
def step (w : WAL) : Op → Option WAL
  | .appendEntry command =>
    if command.length ≤ Wal.maxSize ∧ w.cachedEntries.length < maxEntries then some (w.appendEntry command) else none
  | .truncateUpTo lastIncludedIndex =>
    if 0 ≤ lastIncludedIndex ∧ lastIncludedIndex < 2 ^ 31 then some (w.truncateUpTo lastIncludedIndex) else none
  | .reopen => ofFile w.file

/-- The write-ahead log before there is a file. -/
def fresh : WAL where
  file := []
  cachedEntries := []
  lastIndex := 0

/-- What every operation keeps: the log is filed, and its records are numbered one after the other, from a number that is at most one
more than an `int`. -/
structure Numbered (w : WAL) : Prop where
  filed : w.Filed
  indices : ∃ first ≤ 2 ^ 31, w.cachedEntries.map (·.index.toNat) = List.range' first w.cachedEntries.length
  room : w.cachedEntries.length ≤ maxEntries

theorem numbered_fresh : fresh.Numbered := ⟨⟨rfl, fun _ h => absurd h List.not_mem_nil, rfl⟩, ⟨0, by decide, rfl⟩, Nat.zero_le _⟩

/-- The comparison of `truncateUpTo` is one of the numbers themselves. -/
theorem truncateUpTo_cachedEntries (w : WAL) {n : ℤ} (h0 : 0 ≤ n) (hn : n < 2 ^ 31) :
    (w.truncateUpTo n).cachedEntries = w.cachedEntries.filter (fun e => n < e.index.toNat) := by
  show w.cachedEntries.filter _ = _
  congr 1
  funext e
  rw [decide_eq_decide]
  omega

/-- What is left of consecutive numbers above a bound is consecutive. -/
theorem filter_range' {α : Type*} (f : α → ℕ) (n : ℕ) {l : List α} {first : ℕ} (h : l.map f = List.range' first l.length) :
    ∃ first' ≤ max first (n + 1), (l.filter (n < f ·)).map f = List.range' first' (l.filter (n < f ·)).length := by
  induction l generalizing first with
  | nil => exact ⟨first, le_max_left _ _, rfl⟩
  | cons e l ih =>
    have hcons := h
    rw [List.map_cons, List.length_cons, List.range'_succ] at hcons
    obtain ⟨hfirst, htail⟩ := List.cons.inj hcons
    by_cases hn : n < first
    · -- every number of the list is above the bound
      have hall : (e :: l).filter (n < f ·) = e :: l := by
        refine List.filter_eq_self.mpr fun a ha => ?_
        have hmem : f a ∈ List.range' first (e :: l).length := h ▸ List.mem_map_of_mem ha
        rw [List.mem_range'_1] at hmem
        simp only [decide_eq_true_eq]
        omega
      rw [hall]
      exact ⟨first, le_max_left _ _, h⟩
    · obtain ⟨first', hle, heq⟩ := ih htail
      rw [List.filter_cons_of_neg (by simp [hfirst]; omega)]
      exact ⟨first', by omega, heq⟩

/-- The last record of a numbered log. -/
theorem Numbered.lastIndex_toNat (h : w.Numbered) : w.cachedEntries = [] ∧ w.lastIndex = 0 ∨ ∃ first ≤ 2 ^ 31,
    w.cachedEntries.map (·.index.toNat) = List.range' first w.cachedEntries.length ∧
      w.lastIndex.toNat + 1 = first + w.cachedEntries.length := by
  obtain ⟨first, hfirst, hidx⟩ := h.indices
  have hlast := h.filed.lastIndex
  rcases List.eq_nil_or_concat w.cachedEntries with hnil | ⟨l, e, hl⟩
  · rw [hnil] at hlast
    exact .inl ⟨hnil, hlast⟩
  · rw [hl, List.concat_eq_append, List.getLast?_append] at hlast
    refine .inr ⟨first, hfirst, hidx, ?_⟩
    rw [hl, List.concat_eq_append, List.map_append, List.length_append, List.length_singleton, List.range'_concat] at hidx
    have he : e.index.toNat = first + 1 * l.length := by
      have := List.append_inj_right' hidx (by simp)
      simpa using this
    have hle : w.lastIndex = e.index := by simpa using hlast
    rw [hl, List.concat_eq_append, List.length_append, List.length_singleton, hle]
    omega

theorem Numbered.appendEntry (h : w.Numbered) {command : Str} (hc : command.length ≤ Wal.maxSize)
    (hroom : w.cachedEntries.length < maxEntries) : (w.appendEntry command).Numbered where
  filed := h.filed.appendEntry hc
  indices := by
    rcases h.lastIndex_toNat with ⟨hnil, hlast⟩ | ⟨first, hfirst, hidx, hlast⟩
    · refine ⟨1, by decide, ?_⟩
      unfold WAL.appendEntry
      simp [hnil, hlast]
    · refine ⟨first, hfirst, ?_⟩
      have hnext : (w.lastIndex + 1).toNat = first + w.cachedEntries.length := by
        rw [UInt64.toNat_add, ← hlast]
        unfold maxEntries at hroom
        exact Nat.mod_eq_of_lt (by simp; omega)
      unfold WAL.appendEntry
      simp only [List.map_append, List.map_cons, List.map_nil, List.length_append, List.length_singleton, List.range'_concat, hidx,
        hnext, Nat.one_mul]
  room := by
    unfold WAL.appendEntry
    rw [List.length_append]
    exact hroom

theorem Numbered.truncateUpTo (h : w.Numbered) {n : ℤ} (h0 : 0 ≤ n) (hn : n < 2 ^ 31) : (w.truncateUpTo n).Numbered where
  filed := h.filed.truncateUpTo n
  indices := by
    obtain ⟨first, hfirst, hidx⟩ := h.indices
    obtain ⟨first', hle, heq⟩ := filter_range' (fun e : Wal.LogEntry => e.index.toNat) n.toNat hidx
    have hfilter : (w.truncateUpTo n).cachedEntries = w.cachedEntries.filter (n.toNat < ·.index.toNat) := by
      rw [truncateUpTo_cachedEntries w h0 hn]
      congr 1
      funext e
      rw [decide_eq_decide]
      omega
    rw [hfilter]
    exact ⟨first', by omega, heq⟩
  room := (List.length_filter_le _ _).trans h.room

theorem Numbered.step {w' : WAL} (h : w.Numbered) {op : Op} (hs : w.step op = some w') : w'.Numbered := by
  cases op with
  | appendEntry command =>
    obtain ⟨⟨hc, hroom⟩, hs⟩ := Option.ite_none_right_eq_some.mp hs
    obtain rfl := Option.some.inj hs
    exact h.appendEntry hc hroom
  | truncateUpTo n =>
    obtain ⟨⟨h0, hn⟩, hs⟩ := Option.ite_none_right_eq_some.mp hs
    obtain rfl := Option.some.inj hs
    exact h.truncateUpTo h0 hn
  | reopen =>
    obtain rfl := Option.some.inj (h.filed.ofFile.symm.trans hs)
    exact h

/-- After any operations on a file that was not there before, the file is the images of the records in memory, their indices increase
and `lastIndex` is the last of them, reopening finds the same log, and a truncation keeps the records with a greater index. -/
theorem lifetime (h : Run step (fun _ _ => True) fresh w) :
    w.file = (w.cachedEntries.map Wal.LogEntry.toBinary).flatten ∧
      w.cachedEntries.Pairwise (fun e e' => e.index < e'.index) ∧
      w.lastIndex = (w.cachedEntries.getLast?.map (·.index)).getD 0 ∧
      w.step .reopen = some w ∧
      ∀ n : ℤ, 0 ≤ n → n < 2 ^ 31 → ∃ w', w.step (.truncateUpTo n) = some w' ∧
        w'.cachedEntries = w.cachedEntries.filter (fun e => n < e.index.toNat) := by
  have hw : w.Numbered := h.invariant (fun x op y hx _ hs => hx.step hs) numbered_fresh
  obtain ⟨first, _, hidx⟩ := hw.indices
  refine ⟨hw.filed.file, ?_, hw.filed.lastIndex, hw.filed.ofFile, fun n h0 hn => ?_⟩
  · have hlt := List.pairwise_lt_range' (s := first) (n := w.cachedEntries.length)
    rw [← hidx, List.pairwise_map] at hlt
    exact hlt.imp UInt64.lt_iff_toNat_lt.mpr
  · exact ⟨_, if_pos ⟨h0, hn⟩, truncateUpTo_cachedEntries w h0 hn⟩

/-- Two commands are appended, the log is truncated up to the first one, and reopened. -/
theorem lifetime_truncated : ∃ w, ([.appendEntry (ascii "PUT a=1"), .appendEntry (ascii "PUT b=2"), .truncateUpTo 1,
      .reopen] : List Op).foldlM step fresh = some w ∧ w.step .reopen = some w := by
  refine ⟨_, rfl, (lifetime ?_).2.2.2.1⟩
  exact (((Run.refl.tail (a := .appendEntry (ascii "PUT a=1")) trivial rfl).tail (a := .appendEntry (ascii "PUT b=2")) trivial
    rfl).tail (a := .truncateUpTo 1) trivial rfl).tail (a := .reopen) trivial rfl

/-! ## The indices of records -/

/-- What is done to the file of a write-ahead log, as far as indices go. -/
inductive Wrote where
  /-- A new record was given this index. -/
  | record (index : UInt64)
  /-- `truncateUpTo` was called. -/
  | truncated (lastIncludedIndex : ℤ)
  deriving DecidableEq

/-- `truncateUpTo` does not remove a record with this index. -/
def Spares (lastIncludedIndex : ℤ) (index : UInt64) : Prop :=
  ∀ w : WAL, ∀ e ∈ w.cachedEntries, e.index = index → e ∈ (w.truncateUpTo lastIncludedIndex).cachedEntries

/-- What may come after what: a new record has a greater index than one before it, and is not removed when a truncation before it is
repeated. -/
def Wrote.Before : Wrote → Wrote → Prop
  | record index, record index' => index < index'
  | truncated lastIncludedIndex, record index' => Spares lastIncludedIndex index'
  | _, truncated _ => True

/-- A write-ahead log, and what has been done to its file from the beginning. -/
structure Ledger where
  wal : WAL
  history : List Wrote

namespace Ledger

variable {x y : Ledger}

/-- A file that is not there yet. -/
def start : Ledger := { wal := fresh, history := [] }

/-- One operation, with any `int` as the argument of `truncateUpTo`. -/
def step (x : Ledger) : Op → Option Ledger
  | .appendEntry command =>
    (x.wal.step (.appendEntry command)).map fun w => { wal := w, history := x.history ++ [.record w.lastIndex] }
  | .truncateUpTo n =>
    if -2 ^ 31 ≤ n ∧ n < 2 ^ 31 then some { wal := x.wal.truncateUpTo n, history := x.history ++ [.truncated n] } else none
  | .reopen => (x.wal.step .reopen).map fun w => { x with wal := w }

/-- A truncation does not reach the last record, or is up to 0, and the counter does not wrap around. -/
def KeepsLast (x : Ledger) : Op → Prop
  | .appendEntry _ => x.wal.lastIndex.toNat + 1 < 2 ^ 64
  | .truncateUpTo n => n = 0 ∨ (n % 2 ^ 64).toNat < x.wal.lastIndex.toNat
  | .reopen => True

instance (x : Ledger) : ∀ op : Op, Decidable (x.KeepsLast op)
  | .appendEntry _ => Nat.decLt ..
  | .truncateUpTo _ => inferInstanceAs (Decidable (_ ∨ _))
  | .reopen => instDecidableTrue

/-- The index that a step has put out of use for later records. -/
def used : Wrote → ℕ
  | .record index => index.toNat
  | .truncated n => (n % 2 ^ 64).toNat

/-- What every step under the condition keeps: the log is filed, no record has the index 0, and what is done next comes after all that
has been done. -/
structure Fresh (x : Ledger) : Prop where
  filed : x.wal.Filed
  pos : ∀ e ∈ x.wal.cachedEntries, 0 < e.index.toNat
  used_le : ∀ a ∈ x.history, used a ≤ x.wal.lastIndex.toNat
  ordered : x.history.Pairwise Wrote.Before

theorem fresh_start : start.Fresh := by
  refine ⟨numbered_fresh.filed, fun _ h => ?_, fun _ h => ?_, List.Pairwise.nil⟩ <;> exact absurd h List.not_mem_nil

/-- An index above all that are out of use comes after everything. -/
theorem before_record {a : Wrote} {index : UInt64} (h : used a < index.toNat) : a.Before (.record index) := by
  cases a with
  | record index' => exact UInt64.lt_iff_toNat_lt.mpr h
  | truncated n =>
    intro w e he hidx
    rw [← hidx] at h
    exact List.mem_filter.mpr ⟨he, decide_eq_true h⟩

/-- A truncation that does not reach the last record leaves it the last one. -/
theorem truncateUpTo_lastIndex {w : WAL} (h : w.Filed) (hpos : ∀ e ∈ w.cachedEntries, 0 < e.index.toNat) {n : ℤ}
    (hn : n = 0 ∨ (n % 2 ^ 64).toNat < w.lastIndex.toNat) : (w.truncateUpTo n).lastIndex = w.lastIndex := by
  rw [(h.truncateUpTo n).lastIndex, h.lastIndex]
  have hlast := h.lastIndex
  rcases List.eq_nil_or_concat w.cachedEntries with hnil | ⟨l, e, hl⟩
  · have hnone : (w.truncateUpTo n).cachedEntries = [] := by
      unfold WAL.truncateUpTo
      simp only [hnil, List.filter_nil]
    rw [hnone, hnil]
  · rw [List.concat_eq_append] at hl
    have hidx : w.lastIndex = e.index := by
      rw [hlast, hl, List.getLast?_concat]
      rfl
    have hkept : (n % 2 ^ 64).toNat < e.index.toNat := by
      rcases hn with rfl | hn
      · exact hpos e (by rw [hl]; exact List.mem_append_right _ List.mem_cons_self)
      · rwa [← hidx]
    have hcached : (w.truncateUpTo n).cachedEntries = l.filter (fun e => (n % 2 ^ 64).toNat < e.index.toNat) ++ [e] := by
      unfold WAL.truncateUpTo
      simp only [hl, List.filter_append, List.filter_singleton, decide_eq_true hkept, cond_true]
    rw [hcached, hl, List.getLast?_concat, List.getLast?_concat]

/-- A history goes on with something that comes after all of it. -/
theorem ordered_append {history : List Wrote} (h : history.Pairwise Wrote.Before) {b : Wrote} (hb : ∀ a ∈ history, a.Before b) :
    (history ++ [b]).Pairwise Wrote.Before :=
  List.pairwise_append.mpr ⟨h, List.pairwise_singleton _ _, fun a ha _ hb' => List.mem_singleton.mp hb' ▸ hb a ha⟩

theorem Fresh.appendEntry (h : x.Fresh) {command : Str} (hc : command.length ≤ Wal.maxSize)
    (hwrap : x.wal.lastIndex.toNat + 1 < 2 ^ 64) :
    Fresh { wal := x.wal.appendEntry command, history := x.history ++ [.record (x.wal.appendEntry command).lastIndex] } := by
  have hnext : (x.wal.appendEntry command).lastIndex.toNat = x.wal.lastIndex.toNat + 1 := by
    show (x.wal.lastIndex + 1).toNat = _
    rw [UInt64.toNat_add]
    exact Nat.mod_eq_of_lt hwrap
  refine ⟨h.filed.appendEntry hc, fun e he => ?_, fun a ha => ?_, ordered_append h.ordered fun a ha => before_record ?_⟩
  · rcases List.mem_append.mp he with he | he
    · exact h.pos e he
    · obtain rfl := List.mem_singleton.mp he
      show 0 < (x.wal.appendEntry command).lastIndex.toNat
      omega
  · show used a ≤ (x.wal.appendEntry command).lastIndex.toNat
    rcases List.mem_append.mp ha with ha | ha
    · have := h.used_le a ha
      omega
    · obtain rfl := List.mem_singleton.mp ha
      exact Nat.le_refl _
  · have := h.used_le a ha
    omega

theorem Fresh.truncateUpTo (h : x.Fresh) {n : ℤ} (hn : n = 0 ∨ (n % 2 ^ 64).toNat < x.wal.lastIndex.toNat) :
    Fresh { wal := x.wal.truncateUpTo n, history := x.history ++ [.truncated n] } := by
  have hlast := truncateUpTo_lastIndex h.filed h.pos hn
  refine ⟨h.filed.truncateUpTo n, fun e he => h.pos e (List.mem_filter.mp he).1, fun a ha => ?_,
    ordered_append h.ordered fun a _ => ?_⟩
  · show used a ≤ (x.wal.truncateUpTo n).lastIndex.toNat
    rw [hlast]
    rcases List.mem_append.mp ha with ha | ha
    · exact h.used_le a ha
    · obtain rfl := List.mem_singleton.mp ha
      rcases hn with rfl | hn
      · exact Nat.zero_le _
      · exact Nat.le_of_lt hn
  · cases a <;> trivial

theorem Fresh.step (h : x.Fresh) {op : Op} (hop : x.KeepsLast op) (hs : x.step op = some y) : y.Fresh := by
  cases op with
  | appendEntry command =>
    obtain ⟨w, hw, rfl⟩ := Option.map_eq_some_iff.mp hs
    obtain ⟨⟨hc, _⟩, hw⟩ := Option.ite_none_right_eq_some.mp hw
    obtain rfl := Option.some.inj hw
    exact h.appendEntry hc hop
  | truncateUpTo n =>
    obtain ⟨_, hs⟩ := Option.ite_none_right_eq_some.mp hs
    obtain rfl := Option.some.inj hs
    exact h.truncateUpTo hop
  | reopen =>
    obtain ⟨w, hw, rfl⟩ := Option.map_eq_some_iff.mp hs
    obtain rfl := Option.some.inj (h.filed.ofFile.symm.trans hw)
    exact h

/-- As long as no truncation reaches the last record, each new record has an index above all that records have ever had, and no
repeated truncation removes a record that was appended after the first one. -/
theorem indices_fresh (h : Run step KeepsLast start x) : x.history.Pairwise Wrote.Before :=
  (h.invariant (fun _ _ _ hx hop hs => hx.step hop hs) fresh_start).ordered

/-- Two commands are appended, the log is truncated up to the first one and reopened, and one more is appended. -/
theorem indices_fresh_reopened : ∃ x, (runAll step KeepsLast start [.appendEntry (ascii "PUT a=1"), .appendEntry (ascii "PUT b=2"),
      .truncateUpTo 1, .reopen, .appendEntry (ascii "PUT c=3")] = some x) ∧
    x.history = [.record 1, .record 2, .truncated 1, .record 3] ∧ x.history.Pairwise Wrote.Before := by
  have hrun : (runAll step KeepsLast start [.appendEntry (ascii "PUT a=1"), .appendEntry (ascii "PUT b=2"), .truncateUpTo 1, .reopen,
      .appendEntry (ascii "PUT c=3")]).map (·.history) = some [.record 1, .record 2, .truncated 1, .record 3] := by rfl
  obtain ⟨x, hx, hhist⟩ := Option.map_eq_some_iff.mp hrun
  exact ⟨x, hx, hhist, indices_fresh (Run.refl.runAll hx)⟩

/-- A truncation that leaves no record starts the indices anew: the record that is appended after it is removed when it is repeated. -/
theorem indices_reused : (runAll step (fun _ _ => True) start [.appendEntry (ascii "PUT a=1"), .truncateUpTo 1,
      .appendEntry (ascii "PUT b=2")]).map (·.history) = some [.record 1, .truncated 1, .record 1] ∧
    ¬∀ x : Ledger, Run step (fun _ _ => True) start x → x.history.Pairwise Wrote.Before := by
  have hrun : (runAll step (fun _ _ => True) start [.appendEntry (ascii "PUT a=1"), .truncateUpTo 1,
      .appendEntry (ascii "PUT b=2")]).map (·.history) = some [.record 1, .truncated 1, .record 1] := by rfl
  refine ⟨hrun, fun h => ?_⟩
  obtain ⟨x, hx, hhist⟩ := Option.map_eq_some_iff.mp hrun
  have hbefore := h x (Run.refl.runAll hx)
  rw [hhist] at hbefore
  have hlt : (1 : UInt64) < 1 := (List.pairwise_cons.mp hbefore).1 (.record 1) (by decide)
  exact absurd hlt (by decide)

end Ledger

end WAL

end RaftStore
