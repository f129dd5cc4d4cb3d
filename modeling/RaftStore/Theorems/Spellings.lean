import RaftStore.Theorems.Commands
import Mathlib.Data.List.DropRight
import Mathlib.Data.List.Infix

/-!
# How a `PUT` can be spelled

Key and value stand behind the command, or behind flags, bare or in quotes. A value without quotes is read to the end of the line: it can
be the last word, and nothing else. So a bare key behind a flag takes the value with it. And a line is read up to its first byte that is
zero, and as far as the buffer goes: what is parsed is a prefix of it.
-/

namespace RaftStore

open TextStream (ofStr)

variable {k v s t rest kf vf : Str} {is : TextStream} {c q : UInt8}

/-! ## Spellings -/

/-- A key or a value is written as it is, or in quotes. -/
inductive Spelling where
  | bare
  | double
  | single
  deriving DecidableEq

namespace Spelling

/-- A bare text is not empty and has no blanks and no quotes, a quoted one has not the quote that ends it. -/
def Admits : Spelling → Str → Prop
  | bare, s => s ≠ [] ∧ ∀ c ∈ s, isSpace c = false ∧ c ≠ 34 ∧ c ≠ 39
  | double, s => 34 ∉ s
  | single, s => 39 ∉ s

/-- The text as it is written. -/
def write : Spelling → Str → Str
  | bare, s => s
  | double, s => 34 :: (s ++ [34])
  | single, s => 39 :: (s ++ [39])

end Spelling

/-- `--key` or `-k`, in either letter case. -/
def KeyFlag (token : Str) : Prop := toUpper token = ascii "--KEY" ∨ toUpper token = ascii "-K"

instance (token : Str) : Decidable (KeyFlag token) := inferInstanceAs (Decidable (_ ∨ _))

/-- `--value` or `-v`, in either letter case. -/
def ValueFlag (token : Str) : Prop := toUpper token = ascii "--VALUE" ∨ toUpper token = ascii "-V"

instance (token : Str) : Decidable (ValueFlag token) := inferInstanceAs (Decidable (_ ∨ _))

/-- `PUT k v`, with key and value as they are written. -/
def plainLine (key value : Str) : Str := ascii "PUT" ++ 32 :: (key ++ 32 :: value)

/-- `PUT --key k --value v`, with these flags, and key and value as they are written. -/
def flagLine (kf key vf value : Str) : Str := ascii "PUT" ++ 32 :: (kf ++ 32 :: (key ++ 32 :: (vf ++ 32 :: value)))

/-- Key and value in a command line, where its command is `PUT`. -/
def parseText (text : Str) : Option (Str × Str) :=
  match (ofStr text).token with
  | (some command, iss) => if resolveCommandAlias command = ascii "PUT" then parsePut iss else none
  | (none, _) => none

/-- Key and value that `handle_client` parses from a line that a client sends. -/
def parseLine (line : Str) : Option (Str × Str) := parseText (commandLine (buffered line))

/-- A line with this value at its end fits into the buffer; or only the quote behind the value does not, and nothing is trimmed then. -/
def Spelling.FitsBuffer (st : Spelling) (line value : Str) : Prop :=
  line.length ≤ 4095 ∨ line.length = 4096 ∧ st ≠ .bare ∧ ∀ c ∈ value.getLast?, isBlank c = false

/-! ## Prefixes -/

/-- A prefix of two texts ends in the first, or in the second. -/
theorem prefix_append_cases {l xs ys : Str} (h : l <+: xs ++ ys) : l <+: xs ∨ ∃ l', l = xs ++ l' ∧ l' <+: ys := by
  rcases List.prefix_or_prefix_of_prefix h (List.prefix_append xs ys) with hl | ⟨l', rfl⟩
  · exact .inl hl
  · exact .inr ⟨l', rfl, (List.prefix_append_right_inj xs).mp h⟩

/-- A part of a text without blanks has none. -/
theorem noSpace_cut (hs : s <+: t) (ht : ∀ b ∈ t, isSpace b = false) : ∀ b ∈ s, isSpace b = false :=
  fun b hb => ht b (hs.subset hb)

/-! ## Streams -/

namespace TextStream

/-- The stream at the end of its text. -/
def ended (fail : Bool) : TextStream := { rest := [], eof := true, fail := fail }

@[simp] theorem token_ended (fail : Bool) : (ended fail).token.1 = none := rfl

theorem token_skip (s : Str) : (ofStr (32 :: s)).token = (ofStr s).token := by
  have hgood (s : Str) : (ofStr s).good = true := rfl
  have hrest (s : Str) : (ofStr s).rest = s := rfl
  simp only [token, hgood, hrest, if_true, takeToken_skip]

/-- A text without blanks is one word. -/
theorem token_word (hne : t ≠ []) (ht : ∀ b ∈ t, isSpace b = false) : (ofStr t).token = (some t, ended false) := by
  have hdrop : t.dropWhile isSpace = t := by
    obtain ⟨c, t, rfl⟩ := List.exists_cons_of_ne_nil hne
    exact List.dropWhile_cons_of_neg (by simp [ht c List.mem_cons_self])
  have hall : ∀ b ∈ t, (!isSpace b) = true := fun b hb => by simp [ht b hb]
  have htake : takeToken t = (t, []) := by
    rw [takeToken_eq, hdrop, List.takeWhile_eq_self_iff.mpr hall, List.dropWhile_eq_nil_iff.mpr hall]
  have hgood : (ofStr t).good = true := rfl
  have hrest : (ofStr t).rest = t := rfl
  simp only [token, hgood, hrest, if_true, htake, if_neg hne]
  rfl

/-- A word without blanks is read up to the blank behind it. -/
theorem token_append (hne : t ≠ []) (ht : ∀ b ∈ t, isSpace b = false) (rest : Str) :
    (ofStr (t ++ 32 :: rest)).token = (some t, ofStr (32 :: rest)) := by
  have hgood : (ofStr (t ++ 32 :: rest)).good = true := rfl
  have htake : takeToken (ofStr (t ++ 32 :: rest)).rest = (t, 32 :: rest) := takeToken_append hne ht rest
  simp only [token, hgood, if_true, htake, if_neg hne]
  rfl

theorem ws_skip (s : Str) : (ofStr (32 :: s)).ws = (ofStr s).ws := by
  have hdrop : (32 :: s).dropWhile isSpace = s.dropWhile isSpace := List.dropWhile_cons_of_pos (by decide)
  have hgood (s : Str) : (ofStr s).good = true := rfl
  have hrest (s : Str) : (ofStr s).rest = s := rfl
  simp only [ws, hgood, hrest, if_true, hdrop]

/-- Where no blank comes next, nothing is skipped. -/
theorem ws_stop {c : UInt8} (hc : isSpace c = false) (s : Str) : (ofStr (c :: s)).ws = ofStr (c :: s) := by
  have hdrop : (c :: s).dropWhile isSpace = c :: s := List.dropWhile_cons_of_neg (by simp [hc])
  have hgood : (ofStr (c :: s)).good = true := rfl
  have hrest : (ofStr (c :: s)).rest = c :: s := rfl
  simp only [ws, hgood, hrest, if_true, hdrop]
  rfl

/-- A text is read up to the delimiter that it does not have. -/
theorem getline_append {q : UInt8} (hq : q ∉ s) (rest : Str) : (ofStr (s ++ q :: rest)).getline q = (s, ofStr rest) := by
  have hne : ∀ c ∈ s, (c != q) = true := fun c hc => bne_iff_ne.mpr fun heq => hq (heq ▸ hc)
  have htake : (s ++ q :: rest).takeWhile (· != q) = s := by
    rw [List.takeWhile_append_of_pos hne, List.takeWhile_cons_of_neg (by simp), List.append_nil]
  have hdrop : (s ++ q :: rest).dropWhile (· != q) = q :: rest := by
    rw [List.dropWhile_append_of_pos hne, List.dropWhile_cons_of_neg (by simp)]
  have hgood : (ofStr (s ++ q :: rest)).good = true := rfl
  have hrest : (ofStr (s ++ q :: rest)).rest = s ++ q :: rest := rfl
  simp only [getline, hgood, hrest, if_true, htake, hdrop]
  rfl

/-- Without the delimiter a text is read to its end. -/
theorem getline_end (hq : q ∉ s) : (ofStr s).getline q = (s, ended s.isEmpty) := by
  have hne : ∀ c ∈ s, (c != q) = true := fun c hc => bne_iff_ne.mpr fun heq => hq (heq ▸ hc)
  have hgood : (ofStr s).good = true := rfl
  have hrest : (ofStr s).rest = s := rfl
  simp only [getline, hgood, hrest, if_true, List.takeWhile_eq_self_iff.mpr hne, List.dropWhile_eq_nil_iff.mpr hne]
  rfl

/-- Where no more than a word and the blank behind it is left of a text, nothing comes after the first word. -/
theorem token_cut (hne : t ≠ []) (ht : ∀ b ∈ t, isSpace b = false) (hs : s <+: t ++ [32]) :
    s = [] ∨ ∃ w is, (ofStr s).token = (some w, is) ∧ is.rest.length ≤ 1 := by
  by_cases hnil : s = []
  · exact .inl hnil
  rcases prefix_append_cases hs with hs | ⟨b, rfl, hb⟩
  · exact .inr ⟨s, _, token_word hnil (noSpace_cut hs ht), Nat.zero_le _⟩
  · rcases List.prefix_cons_iff.mp hb with rfl | ⟨r, rfl, hr⟩
    · rw [List.append_nil]
      exact .inr ⟨t, _, token_word hne ht, Nat.zero_le _⟩
    · obtain rfl := List.prefix_nil.mp hr
      exact .inr ⟨t, _, token_append hne ht [], Nat.le_refl _⟩

/-! ### What is left only gets shorter -/

theorem length_ws (is : TextStream) : is.ws.rest.length ≤ is.rest.length := by
  unfold ws
  split
  · exact List.length_dropWhile_le ..
  · exact Nat.le_refl _

theorem rest_peek (is : TextStream) : is.peek.2.rest = is.rest := by
  unfold peek
  split
  · split <;> simp_all
  · rfl

theorem length_get (is : TextStream) : is.get.rest.length ≤ is.rest.length := by
  unfold get
  split
  · split
    · next hr => simp [hr]
    · next hr => simp [hr]
  · exact Nat.le_refl _

theorem length_getline (is : TextStream) (q : UInt8) :
    (is.getline q).1.length ≤ is.rest.length ∧ (is.getline q).2.rest.length ≤ is.rest.length := by
  have htake : (is.rest.takeWhile (· != q)).length ≤ is.rest.length := (List.takeWhile_sublist _).length_le
  have hdrop : (is.rest.dropWhile (· != q)).length ≤ is.rest.length := List.length_dropWhile_le ..
  unfold getline
  split
  · simp only
    split
    · next rest hr =>
      rw [hr, List.length_cons] at hdrop
      exact ⟨htake, by simp only; omega⟩
    · exact ⟨htake, Nat.zero_le _⟩
  · exact ⟨Nat.zero_le _, Nat.le_refl _⟩

/-- A word takes a byte at least. -/
theorem length_token {t : Str} {is' : TextStream} (h : is.token = (some t, is')) : is'.rest.length < is.rest.length := by
  unfold token at h
  split at h
  · have hsplit := congrArg List.length (List.takeWhile_append_dropWhile (p := fun c => !isSpace c) (l := is.rest.dropWhile isSpace))
    have hdrop : (is.rest.dropWhile isSpace).length ≤ is.rest.length := List.length_dropWhile_le ..
    rw [List.length_append] at hsplit
    simp only [takeToken_eq] at h
    split at h
    · cases h
    · next hne =>
      have hpos := List.length_pos_iff.mpr hne
      cases h
      simp only
      omega
  · cases h

/-- A word leaves `failbit` as it is. -/
theorem token_fail {t : Str} {is' : TextStream} (h : is.token = (some t, is')) : is'.fail = false := by
  unfold token at h
  split at h
  · simp only [takeToken_eq] at h
    split at h
    · cases h
    · cases h
      rfl
  · cases h

/-- Behind a word comes a blank, or nothing. -/
theorem length_token_ws {t : Str} {is' : TextStream} (h : is.token = (some t, is')) :
    is'.ws.rest = [] ∨ is'.ws.rest.length < is'.rest.length := by
  unfold token at h
  split at h
  · simp only [takeToken_eq] at h
    split at h
    · cases h
    · cases h
      cases hrest : (is.rest.dropWhile isSpace).dropWhile (fun c => !isSpace c) with
      | nil => exact .inl rfl
      | cons c r =>
        have hc : isSpace c = true := by
          have hhead := List.head_dropWhile_not (p := fun c => !isSpace c) (l := is.rest.dropWhile isSpace) (by simp [hrest])
          simpa [hrest] using hhead
        have hdrop : (c :: r).dropWhile isSpace = r.dropWhile isSpace := List.dropWhile_cons_of_pos hc
        have hle : (r.dropWhile isSpace).length ≤ r.length := List.length_dropWhile_le ..
        refine .inr ?_
        simp only [ws, good, List.isEmpty_cons, Bool.not_false, Bool.and_self, if_true, hdrop, List.length_cons]
        omega
  · cases h

end TextStream

/-! ## Values -/

/-- A quoted value is read up to its quote. -/
theorem parseValue_quote (hq : q = 34 ∨ q = 39) (s : Str) : parseValue (ofStr (q :: s)) = (ofStr s).getline q := by
  have hget : (ofStr (q :: s)).get = ofStr s := rfl
  have hpeek : (ofStr (q :: s)).peek = (some q, ofStr (q :: s)) := rfl
  unfold parseValue
  rcases hq with rfl | rfl
  · simp only [TextStream.ws_stop (c := 34) (by decide), hpeek, if_true, hget]
  · have hne : ¬(some 39 : Option UInt8) = some 34 := by decide
    simp only [TextStream.ws_stop (c := 39) (by decide), hpeek, if_neg hne, if_true, hget]

/-- A value that begins with neither a blank nor a quote is the rest of its line. -/
theorem parseValue_line (hc : isSpace c = false) (hd : c ≠ 34) (hs : c ≠ 39) (t : Str) :
    parseValue (ofStr (c :: t)) = (trim ((ofStr (c :: t)).getline 10).1, ((ofStr (c :: t)).getline 10).2) := by
  have hpeek : (ofStr (c :: t)).peek = (some c, ofStr (c :: t)) := rfl
  have hne (q : UInt8) (h : c ≠ q) : ¬(some c = some q) := fun heq => h (Option.some.inj heq)
  unfold parseValue
  simp only [TextStream.ws_stop hc, hpeek, if_neg (hne 34 hd), if_neg (hne 39 hs)]

/-- What `trim` takes for a blank is one for `operator>>`. -/
theorem isBlank_of_noSpace (hc : isSpace c = false) : isBlank c = false := by
  by_contra hb
  simp only [isBlank, Bool.not_eq_false, Bool.or_eq_true, beq_iff_eq] at hb
  rcases hb with ((rfl | rfl) | rfl) | rfl <;> exact absurd hc (by decide)

/-- Nothing is trimmed from a text without blanks. -/
theorem trim_of_noSpace (h : ∀ c ∈ s, isSpace c = false) : trim s = s := by
  have hdrop (l : Str) (hl : ∀ c ∈ l, isSpace c = false) : l.dropWhile isBlank = l := by
    cases l with
    | nil => rfl
    | cons c l => exact List.dropWhile_cons_of_neg (by simp [isBlank_of_noSpace (hl c List.mem_cons_self)])
  rw [trim, hdrop s h, hdrop s.reverse fun c hc => h c (List.mem_reverse.mp hc), List.reverse_reverse]

theorem trim_length (s : Str) : (trim s).length ≤ s.length := by
  have h₁ : (s.dropWhile isBlank).length ≤ s.length := List.length_dropWhile_le ..
  have h₂ : ((s.dropWhile isBlank).reverse.dropWhile isBlank).length ≤ (s.dropWhile isBlank).reverse.length := List.length_dropWhile_le ..
  rw [List.length_reverse] at h₂
  rw [trim, List.length_reverse]
  omega

/-- A bare value at the end of the text is read as it is. -/
theorem parseValue_bare (h : Spelling.bare.Admits s) : parseValue (ofStr s) = (s, TextStream.ended false) := by
  obtain ⟨hne, hall⟩ := h
  have hline : 10 ∉ s := fun h10 => absurd (hall 10 h10).1 (by decide)
  have htrim := trim_of_noSpace fun c hc => (hall c hc).1
  obtain ⟨c, t, rfl⟩ := List.exists_cons_of_ne_nil hne
  obtain ⟨hc, hd, hs⟩ := hall c List.mem_cons_self
  rw [parseValue_line hc hd hs, TextStream.getline_end hline, htrim]
  rfl

/-- Behind a blank a value is parsed as at the beginning of a text. -/
theorem parseValue_skip (hc : isSpace c = false) (s : Str) : parseValue (ofStr (32 :: c :: s)).ws = parseValue (ofStr (c :: s)) := by
  rw [TextStream.ws_skip, TextStream.ws_stop hc]

/-- How many bytes at the end of what is written are not needed: the quote that ends it is not. -/
def Spelling.spare (st : Spelling) : ℕ := if st = .bare then 0 else 1

/-- What there is of a quoted value is read, and no word is left. -/
theorem parseValue_quoted_cut (hq : q = 34 ∨ q = 39) (hs : s ≠ []) (hqs : q ∉ s) (ht : t <+: q :: (s ++ [q])) :
    ∃ v is, parseValue (ofStr (32 :: t)).ws = (v, is) ∧ is.token.1 = none ∧ (v = s ↔ s.length + 2 ≤ t.length + 1) := by
  have hspace : isSpace q = false := by rcases hq with rfl | rfl <;> decide
  have hpos := List.length_pos_iff.mpr hs
  rcases List.prefix_cons_iff.mp ht with rfl | ⟨r, rfl, hr⟩
  · refine ⟨[], _, rfl, rfl, iff_of_false hs.symm ?_⟩
    rw [List.length_nil]
    omega
  rw [parseValue_skip hspace, parseValue_quote hq]
  rcases prefix_append_cases hr with hr | ⟨e, rfl, he⟩
  · refine ⟨r, _, TextStream.getline_end fun hmem => hqs (hr.subset hmem), rfl, ?_⟩
    rw [List.length_cons]
    constructor
    · rintro rfl
      exact Nat.le_refl _
    · intro hle
      exact hr.eq_of_length_le (by omega)
  · rcases List.prefix_cons_iff.mp he with rfl | ⟨d, rfl, hd⟩
    · rw [List.append_nil]
      exact ⟨s, _, TextStream.getline_end hqs, rfl, iff_of_true rfl (Nat.le_refl _)⟩
    · obtain rfl := List.prefix_nil.mp hd
      refine ⟨s, _, TextStream.getline_append hqs [], rfl, iff_of_true rfl ?_⟩
      simp only [List.length_cons, List.length_append, List.length_nil]
      omega

/-- However a value is written, what there is of it at the end of the text is read, and no word is left. -/
theorem parseValue_cut {st : Spelling} (h : st.Admits s) (hs : s ≠ []) (ht : t <+: st.write s) :
    ∃ v is, parseValue (ofStr (32 :: t)).ws = (v, is) ∧ is.token.1 = none ∧ (v = s ↔ (st.write s).length ≤ t.length + st.spare) := by
  have hquoted (q : UInt8) : (q :: (s ++ [q])).length = s.length + 2 := by simp
  cases st with
  | bare =>
    by_cases hnil : t = []
    · subst hnil
      exact ⟨[], _, rfl, rfl, iff_of_false hs.symm fun hle => hs (List.length_eq_zero_iff.mp (Nat.le_zero.mp hle))⟩
    · have hadmits : Spelling.bare.Admits t := ⟨hnil, fun c hc => h.2 c (ht.subset hc)⟩
      obtain ⟨c, t, rfl⟩ := List.exists_cons_of_ne_nil hnil
      refine ⟨_, _, (parseValue_skip (hadmits.2 c List.mem_cons_self).1 t).trans (parseValue_bare hadmits), rfl, ?_⟩
      exact ⟨fun heq => heq ▸ Nat.le_refl _, fun hle => ht.eq_of_length_le hle⟩
  | double => exact hquoted 34 ▸ parseValue_quoted_cut (.inl rfl) hs h ht
  | single => exact hquoted 39 ▸ parseValue_quoted_cut (.inr rfl) hs h ht

/-- A quoted value ends with its quote. -/
theorem parseValue_quoted {st : Spelling} (h : st.Admits s) (hq : st ≠ .bare) (rest : Str) :
    parseValue (ofStr (32 :: (st.write s ++ rest))).ws = (s, ofStr rest) := by
  have happend (q : UInt8) : q :: (s ++ [q]) ++ rest = q :: (s ++ q :: rest) := by simp
  cases st with
  | bare => exact absurd rfl hq
  | double =>
    rw [Spelling.write, happend, parseValue_skip (by decide), parseValue_quote (.inl rfl), TextStream.getline_append h]
  | single =>
    rw [Spelling.write, happend, parseValue_skip (by decide), parseValue_quote (.inr rfl), TextStream.getline_append h]

/-- A value is no longer than what it is read from, and leaves no more. -/
theorem parseValue_length (is : TextStream) :
    (parseValue is).1.length ≤ is.rest.length ∧ (parseValue is).2.rest.length ≤ is.rest.length := by
  have hws := is.length_ws
  have hp := congrArg List.length is.ws.rest_peek
  have hp' := congrArg List.length is.ws.peek.2.rest_peek
  have hget := is.ws.peek.2.length_get
  have hget' := is.ws.peek.2.peek.2.length_get
  unfold parseValue
  simp only
  split
  · have := is.ws.peek.2.get.length_getline 34
    omega
  · split
    · have := is.ws.peek.2.peek.2.get.length_getline 39
      omega
    · have := is.ws.peek.2.peek.2.length_getline 10
      have htrim := trim_length ((is.ws.peek.2.peek.2.getline 10).1)
      simp only
      omega

/-! ## Flags -/

/-- No flag of the one kind is one of the other. -/
theorem ValueFlag.not_keyFlag (h : ValueFlag t) : ¬KeyFlag t := by
  rintro (hk | hk) <;> rcases h with h | h <;> exact absurd (hk.symm.trans h) (by decide)

/-- A word that is a letter-case form of a text without blanks has no blanks. -/
theorem noSpace_of_toUpper (h : ∀ c ∈ toUpper t, isSpace c = false) : ∀ c ∈ t, isSpace c = false := by
  intro c hc
  have hup := h (upperByte c) (List.mem_map_of_mem hc)
  unfold upperByte at hup
  split at hup
  · next hlow =>
    by_contra hb
    simp only [isSpace, Bool.not_eq_false, Bool.or_eq_true, Bool.and_eq_true, beq_iff_eq, decide_eq_true_eq] at hb
    rcases hb with rfl | ⟨_, hle⟩
    · exact absurd hlow.1 (by decide)
    · exact absurd (UInt8.le_trans hlow.1 hle) (by decide)
  · exact hup

/-- A flag is one word. -/
theorem noSpace_flag {flag : Str} (hne : flag ≠ []) (hflag : ∀ c ∈ flag, isSpace c = false) (h : toUpper t = flag) :
    t ≠ [] ∧ ∀ c ∈ t, isSpace c = false := by
  refine ⟨?_, noSpace_of_toUpper (h ▸ hflag)⟩
  rintro rfl
  exact hne h.symm

theorem KeyFlag.noSpace (h : KeyFlag t) : t ≠ [] ∧ ∀ c ∈ t, isSpace c = false :=
  h.elim (noSpace_flag (by decide) (List.all_iff_forall_prop.mp rfl)) (noSpace_flag (by decide) (List.all_iff_forall_prop.mp rfl))

theorem ValueFlag.noSpace (h : ValueFlag t) : t ≠ [] ∧ ∀ c ∈ t, isSpace c = false :=
  h.elim (noSpace_flag (by decide) (List.all_iff_forall_prop.mp rfl)) (noSpace_flag (by decide) (List.all_iff_forall_prop.mp rfl))

/-- A turn of the loop, by the word that is read. -/
theorem parseFlags_key {is' : TextStream} (h : is.token = (some t, is')) (ht : KeyFlag t) (fuel : ℕ) :
    parseFlags (fuel + 1) is k v = parseFlags fuel (parseValue is'.ws).2 (parseValue is'.ws).1 v := by
  unfold KeyFlag at ht
  simp only [parseFlags, h, if_pos ht]

theorem parseFlags_value {is' : TextStream} (h : is.token = (some t, is')) (ht : ValueFlag t) (fuel : ℕ) :
    parseFlags (fuel + 1) is k v = parseFlags fuel (parseValue is'.ws).2 k (parseValue is'.ws).1 := by
  have hk := ht.not_keyFlag
  unfold KeyFlag at hk
  unfold ValueFlag at ht
  simp only [parseFlags, h, if_neg hk, if_pos ht]

theorem parseFlags_end (h : is.token.1 = none) (fuel : ℕ) : parseFlags fuel is k v = (k, v) := by
  cases fuel with
  | zero => rfl
  | succ fuel =>
    unfold parseFlags
    split
    · rfl
    · next heq =>
      rw [heq] at h
      cases h

/-- The value that the loop ends with is the one that it has begun with, or is read from what is left. -/
theorem parseFlags_snd (fuel : ℕ) (is : TextStream) (k v : Str) :
    (parseFlags fuel is k v).2 = v ∨ (parseFlags fuel is k v).2.length < is.rest.length := by
  induction fuel generalizing is k v with
  | zero => exact .inl rfl
  | succ fuel ih =>
    unfold parseFlags
    split
    · exact .inl rfl
    · next token is' heq =>
      have htoken := TextStream.length_token heq
      have hws := is'.length_ws
      obtain ⟨hvalue, hrest⟩ := parseValue_length is'.ws
      simp only
      split
      · rcases ih (parseValue is'.ws).2 (parseValue is'.ws).1 v with h | h
        · exact .inl h
        · exact .inr (by omega)
      · split
        · rcases ih (parseValue is'.ws).2 k (parseValue is'.ws).1 with h | h
          · exact .inr (by rw [h]; omega)
          · exact .inr (by omega)
        · rcases ih is' k v with h | h
          · exact .inl h
          · exact .inr (by omega)

/-- Nor is it longer than what follows the first word. -/
theorem parseFlags_short {is' : TextStream} (h : is.token = (some t, is')) (fuel : ℕ) (k : Str) :
    (parseFlags fuel is k []).2 = [] ∨ (parseFlags fuel is k []).2.length < is'.rest.length := by
  have hws := is'.length_ws
  have hword := TextStream.length_token_ws h
  obtain ⟨hvalue, hrest⟩ := parseValue_length is'.ws
  cases fuel with
  | zero => exact .inl rfl
  | succ fuel =>
    simp only [parseFlags, h]
    split
    · rcases parseFlags_snd fuel (parseValue is'.ws).2 (parseValue is'.ws).1 [] with h | h
      · exact .inl h
      · exact .inr (by omega)
    · split
      · rcases parseFlags_snd fuel (parseValue is'.ws).2 k (parseValue is'.ws).1 with h | h
        · rw [h]
          rcases hword with hnil | hlt
          · rw [hnil] at hvalue
            exact .inl (List.length_eq_zero_iff.mp (Nat.le_zero.mp hvalue))
          · exact .inr (by omega)
        · exact .inr (by omega)
      · exact parseFlags_snd fuel is' k []

/-- Where no more than a word and the blank behind it is left, no value is found. -/
theorem parseFlags_cut (hne : t ≠ []) (ht : ∀ b ∈ t, isSpace b = false) (hs : s <+: t ++ [32]) (fuel : ℕ) (k : Str) :
    (parseFlags fuel (ofStr s) k []).2 = [] := by
  rcases TextStream.token_cut hne ht hs with rfl | ⟨w, is, hw, hlen⟩
  · rw [parseFlags_end rfl]
  · rcases parseFlags_short hw fuel k with h | h
    · exact h
    · exact List.length_eq_zero_iff.mp (by omega)

theorem parseFlags_skip (fuel : ℕ) (s k v : Str) : parseFlags fuel (ofStr (32 :: s)) k v = parseFlags fuel (ofStr s) k v := by
  cases fuel with
  | zero => rfl
  | succ fuel => simp only [parseFlags, TextStream.token_skip]

theorem parseKeyValueFormat_iff (hk : k ≠ []) :
    parseKeyValueFormat is = some (k, v) ↔ parseFlags (is.rest.length + 1) is [] [] = (k, v) := by
  unfold parseKeyValueFormat
  simp only
  constructor
  · intro h
    split at h
    · cases h
    · exact Option.some.inj h
  · intro h
    rw [h, if_neg hk]

/-! ## What is left of a line -/

/-- A value that is written is longer than what can be spared of it. -/
theorem Spelling.spare_lt (st : Spelling) (hs : s ≠ []) : st.spare < (st.write s).length := by
  have hpos := List.length_pos_iff.mpr hs
  cases st <;> simp only [spare, write, List.length_cons, List.length_append, List.length_nil, reduceCtorEq, if_true, if_false] <;> omega

/-- The first word tells whether there are flags. -/
theorem parsePut_token (hc : isSpace c = false) (h : (ofStr (c :: s)).token = (some t, is)) : parsePut (ofStr (32 :: c :: s)) =
    if KeyFlag t then parseKeyValueFormat (ofStr (c :: s)) else some (t, (parseValue is.ws).1) := by
  have hws : (ofStr (32 :: c :: s)).ws = ofStr (c :: s) := by rw [TextStream.ws_skip, TextStream.ws_stop hc]
  have hpos : (ofStr (c :: s)).tellg = (some (c :: s), ofStr (c :: s)) := rfl
  have hseek : is.seekg (some (c :: s)) = ofStr (c :: s) := by simp [TextStream.seekg, TextStream.token_fail h, ofStr]
  unfold parsePut
  simp only [hws, hpos, h, hseek, Option.getD_some]
  rfl

theorem parsePut_word (hne : t ≠ []) (ht : ∀ c ∈ t, isSpace c = false) (rest : Str) : parsePut (ofStr (32 :: (t ++ 32 :: rest))) =
    if KeyFlag t then parseKeyValueFormat (ofStr (t ++ 32 :: rest)) else some (t, (parseValue (ofStr (32 :: rest)).ws).1) := by
  have htoken := TextStream.token_append hne ht rest
  obtain ⟨c, t, rfl⟩ := List.exists_cons_of_ne_nil hne
  exact parsePut_token (ht c List.mem_cons_self) htoken

/-- Of a line that ends with its first word, or with the blank behind it, no value is parsed. -/
theorem parsePut_cut (hne : t ≠ []) (ht : ∀ c ∈ t, isSpace c = false) (hs : s <+: t ++ [32])
    (h : parsePut (ofStr (32 :: s)) = some (k, v)) : v = [] := by
  rcases TextStream.token_cut hne ht hs with rfl | ⟨w, is, hw, hlen⟩
  · have hnil : parsePut (ofStr [32]) = some ([], []) := by decide +kernel
    exact (congrArg Prod.snd (Option.some.inj (hnil.symm.trans h))).symm
  obtain ⟨c, t, rfl⟩ := List.exists_cons_of_ne_nil hne
  cases s with
  | nil => cases hw
  | cons b s =>
    obtain ⟨rfl, _⟩ := List.cons_prefix_cons.mp hs
    rw [parsePut_token (ht b List.mem_cons_self) hw] at h
    split at h
    · have hsnd := parseFlags_cut hne ht hs ((ofStr (b :: s)).rest.length + 1) []
      unfold parseKeyValueFormat at h
      simp only at h
      split at h
      · cases h
      · exact (congrArg Prod.snd (Option.some.inj h)).symm.trans hsnd
    · have hvalue := (parseValue_length is.ws).1
      have hshort : (parseValue is.ws).1.length = 0 := by
        rcases TextStream.length_token_ws hw with hnil | hlt
        · rw [hnil] at hvalue
          exact Nat.le_zero.mp hvalue
        · omega
      exact (congrArg Prod.snd (Option.some.inj h)).symm.trans (List.length_eq_zero_iff.mp hshort)

theorem getline_rest (s : Str) (q : UInt8) : ((ofStr s).getline q).2.rest = (s.dropWhile (· != q)).tail := by
  have hgood : (ofStr s).good = true := rfl
  have hrest : (ofStr s).rest = s := rfl
  simp only [TextStream.getline, hgood, hrest, if_true]
  cases s.dropWhile (· != q) <;> rfl

/-- Behind the first line of what is written no more is left than the text has. -/
theorem getline_write_length {st : Spelling} (h : st.Admits s) (ht : ∀ c ∈ t, isSpace c = false ∨ c = 32) :
    ((ofStr (t ++ st.write s)).getline 10).2.rest.length ≤ s.length := by
  have hline : ∀ c ∈ t, (c != 10) = true := by
    intro c hc
    refine bne_iff_ne.mpr fun heq => ?_
    rcases ht c hc with hspace | rfl
    · rw [heq] at hspace
      exact absurd hspace (by decide)
    · exact absurd heq (by decide)
  have hquoted (q : UInt8) (hq : (q != 10) = true) : ((q :: (s ++ [q])).dropWhile (· != 10)).tail.length ≤ s.length := by
    have hle : ((s ++ [q]).dropWhile (· != 10)).length ≤ (s ++ [q]).length := List.length_dropWhile_le ..
    rw [List.length_append, List.length_singleton] at hle
    rw [List.dropWhile_cons_of_pos (by simpa using hq), List.length_tail]
    omega
  rw [getline_rest, List.dropWhile_append_of_pos hline]
  cases st with
  | bare =>
    have hnone : (Spelling.bare.write s).dropWhile (· != 10) = [] := by
      refine List.dropWhile_eq_nil_iff.mpr fun c hc => bne_iff_ne.mpr fun heq => ?_
      have hspace := (h.2 c hc).1
      rw [heq] at hspace
      exact absurd hspace (by decide)
    rw [hnone]
    exact Nat.zero_le _
  | double => exact hquoted 34 (by decide)
  | single => exact hquoted 39 (by decide)

/-- Nor behind that of a part of it. -/
theorem getline_prefix_length (hs : s <+: t) (q : UInt8) :
    ((ofStr s).getline q).2.rest.length ≤ ((ofStr t).getline q).2.rest.length := by
  obtain ⟨r, rfl⟩ := hs
  rw [getline_rest, getline_rest, List.dropWhile_append]
  split
  · next hnil =>
    rw [List.isEmpty_iff.mp hnil]
    exact Nat.zero_le _
  · simp only [List.length_tail, List.length_append]
    omega

/-- A bare key behind a flag takes the value with it. -/
theorem parseFlags_bare {vs : Spelling} (hks : Spelling.bare.Admits k) (hv : v ≠ []) (hvs : vs.Admits v) (hvf : ValueFlag vf)
    (ht : t <+: k ++ 32 :: (vf ++ 32 :: vs.write v)) (fuel : ℕ) :
    (parseFlags fuel (parseValue (ofStr (32 :: t)).ws).2 (parseValue (ofStr (32 :: t)).ws).1 []).2 ≠ v := by
  have hline : ∀ b ∈ k ++ 32 :: (vf ++ [32]), isSpace b = false ∨ b = 32 := by
    intro b hb
    simp only [List.mem_append, List.mem_cons, List.not_mem_nil, or_false] at hb
    rcases hb with hb | rfl | hb | rfl
    · exact .inl (hks.2 b hb).1
    · exact .inr rfl
    · exact .inl (hvf.noSpace.2 b hb)
    · exact .inr rfl
  have hwhole : k ++ 32 :: (vf ++ 32 :: vs.write v) = k ++ 32 :: (vf ++ [32]) ++ vs.write v := by simp
  have hleft : (parseValue (ofStr (32 :: t)).ws).2.rest.length ≤ v.length := by
    cases t with
    | nil => exact Nat.zero_le _
    | cons c t =>
      have hle := (getline_prefix_length ht 10).trans (hwhole ▸ getline_write_length hvs hline)
      obtain ⟨c', k, rfl⟩ := List.exists_cons_of_ne_nil hks.1
      obtain ⟨rfl, _⟩ := List.cons_prefix_cons.mp ht
      obtain ⟨hc, hd, hs⟩ := hks.2 c List.mem_cons_self
      rw [parseValue_skip hc, parseValue_line hc hd hs]
      exact hle
  -- the value that is found is none, or is read from less than there is of `v`
  intro hsnd
  rcases parseFlags_snd fuel (parseValue (ofStr (32 :: t)).ws).2 (parseValue (ofStr (32 :: t)).ws).1 [] with h | h
  · exact hv (hsnd.symm.trans h)
  · rw [hsnd] at h
    omega

/-- What there is of a key and a value behind the key's flag is parsed as they are meant exactly where the key is quoted, and no more is
missing than the quote behind the value. -/
theorem parseKeyValueFormat_cut {ks vs : Spelling} (hk : k ≠ []) (hv : v ≠ []) (hks : ks.Admits k) (hvs : vs.Admits v)
    (hkf : KeyFlag kf) (hvf : ValueFlag vf) (ht : t <+: ks.write k ++ 32 :: (vf ++ 32 :: vs.write v)) :
    parseKeyValueFormat (ofStr (kf ++ 32 :: t)) = some (k, v) ↔
      ks ≠ .bare ∧ (ks.write k ++ 32 :: (vf ++ 32 :: vs.write v)).length ≤ t.length + vs.spare := by
  obtain ⟨hkne, hkf'⟩ := hkf.noSpace
  obtain ⟨hvne, hvf'⟩ := hvf.noSpace
  have hspare := vs.spare_lt hv
  have hfuel : ∃ fuel, (ofStr (kf ++ 32 :: t)).rest.length = fuel + 1 := by
    have hrest : (ofStr (kf ++ 32 :: t)).rest = kf ++ 32 :: t := rfl
    rw [hrest, List.length_append, List.length_cons]
    exact ⟨_, rfl⟩
  obtain ⟨fuel, hfuel⟩ := hfuel
  rw [parseKeyValueFormat_iff hk, hfuel, parseFlags_key (TextStream.token_append hkne hkf' _) hkf]
  by_cases hq : ks = .bare
  · subst hq
    exact iff_of_false (fun h => parseFlags_bare hks hv hvs hvf ht _ (congrArg Prod.snd h)) fun h => h.1 rfl
  -- where the value is missing, or cut before its first byte, none is found
  have hnone {r : Str × Str} (hsnd : r.2 = []) (hlen : t.length ≤ (ks.write k).length + 2 + vf.length) : r = (k, v) ↔
      ks ≠ .bare ∧ (ks.write k ++ 32 :: (vf ++ 32 :: vs.write v)).length ≤ t.length + vs.spare := by
    refine iff_of_false (fun h => hv ?_) fun h => ?_
    · rw [h] at hsnd
      exact hsnd
    · simp only [List.length_append, List.length_cons] at h
      omega
  rcases prefix_append_cases ht with ht | ⟨u, rfl, hu⟩
  · obtain ⟨k', is, hval, hend, _⟩ := parseValue_cut hks hk ht
    have hlen := ht.length_le
    rw [hval, parseFlags_end hend]
    exact hnone rfl (by omega)
  rw [parseValue_quoted hks hq]
  rcases List.prefix_cons_iff.mp hu with rfl | ⟨w, rfl, hw⟩
  · rw [parseFlags_end rfl]
    refine hnone rfl ?_
    rw [List.append_nil]
    omega
  have hflag : vf ++ 32 :: vs.write v = vf ++ [32] ++ vs.write v := by simp
  rw [hflag] at hw
  rw [parseFlags_skip]
  rcases prefix_append_cases hw with hw | ⟨x, rfl, hx⟩
  · have hlen := hw.length_le
    refine hnone (parseFlags_cut hvne hvf' hw _ _) ?_
    simp only [List.length_append, List.length_cons, List.length_nil] at hlen ⊢
    omega
  · obtain ⟨v', is, hval, hend, hiff⟩ := parseValue_cut hvs hv hx
    have hcons : vf ++ [32] ++ x = vf ++ 32 :: x := by simp
    rw [hcons, parseFlags_value (TextStream.token_append hvne hvf' _) hvf, hval, parseFlags_end hend, Prod.mk.injEq, hiff]
    simp only [List.length_append, List.length_cons, true_and]
    constructor
    · intro h
      exact ⟨hq, by omega⟩
    · rintro ⟨_, h⟩
      omega

/-- So of a line with flags. -/
theorem parsePut_flags {ks vs : Spelling} (hk : k ≠ []) (hv : v ≠ []) (hks : ks.Admits k) (hvs : vs.Admits v)
    (hkf : KeyFlag kf) (hvf : ValueFlag vf) (ht : t <+: kf ++ 32 :: (ks.write k ++ 32 :: (vf ++ 32 :: vs.write v))) :
    parsePut (ofStr (32 :: t)) = some (k, v) ↔
      ks ≠ .bare ∧ (kf ++ 32 :: (ks.write k ++ 32 :: (vf ++ 32 :: vs.write v))).length ≤ t.length + vs.spare := by
  obtain ⟨hkne, hkf'⟩ := hkf.noSpace
  have hspare := vs.spare_lt hv
  have hflag (r : Str) : kf ++ 32 :: r = kf ++ [32] ++ r := by simp
  rw [hflag] at ht
  rcases prefix_append_cases ht with ht | ⟨u, rfl, hu⟩
  · have hlen := ht.length_le
    refine iff_of_false (fun h => hv (parsePut_cut hkne hkf' ht h)) fun h => ?_
    simp only [List.length_append, List.length_cons, List.length_nil] at hlen h
    omega
  · rw [← hflag, parsePut_word hkne hkf', if_pos hkf, parseKeyValueFormat_cut hk hv hks hvs hkf hvf hu]
    simp only [List.length_append, List.length_cons]
    refine and_congr_right fun _ => ?_
    constructor <;> intro h <;> omega

/-- What there is of a line without flags is parsed as key and value exactly where the key is not spelled like a flag, and no more is
missing than the quote behind the value. -/
theorem parsePut_plain {vs : Spelling} (hks : Spelling.bare.Admits k) (hv : v ≠ []) (hvs : vs.Admits v)
    (ht : t <+: k ++ 32 :: vs.write v) :
    parsePut (ofStr (32 :: t)) = some (k, v) ↔ ¬KeyFlag k ∧ (k ++ 32 :: vs.write v).length ≤ t.length + vs.spare := by
  have hspare := vs.spare_lt hv
  have hkey : ∀ b ∈ k, isSpace b = false := fun b hb => (hks.2 b hb).1
  have hword (r : Str) : k ++ 32 :: r = k ++ [32] ++ r := by simp
  rw [hword] at ht
  rcases prefix_append_cases ht with ht | ⟨u, rfl, hu⟩
  · have hlen := ht.length_le
    refine iff_of_false (fun h => hv (parsePut_cut hks.1 hkey ht h)) fun h => ?_
    simp only [List.length_append, List.length_cons, List.length_nil] at hlen h
    omega
  obtain ⟨v', is, hval, hend, hiff⟩ := parseValue_cut hvs hv hu
  rw [← hword, parsePut_word hks.1 hkey, hval]
  by_cases hkf : KeyFlag k
  · rw [if_pos hkf]
    refine iff_of_false (fun h => ?_) fun h => h.1 hkf
    -- the key is taken for its flag, and the value for the key
    rw [parseKeyValueFormat_iff hks.1, parseFlags_key (TextStream.token_append hks.1 hkey _) hkf, hval, parseFlags_end hend] at h
    exact hv (Prod.mk.inj h).2.symm
  · rw [if_neg hkf, Option.some.injEq, Prod.mk.injEq, hiff]
    simp only [List.length_append, List.length_cons, true_and]
    constructor
    · intro h
      exact ⟨hkf, by omega⟩
    · rintro ⟨_, h⟩
      omega

/-- A line with the command `PUT` is parsed from what follows it. -/
theorem parseText_put (rest : Str) : parseText (ascii "PUT" ++ 32 :: rest) = parsePut (ofStr (32 :: rest)) := by
  have hput : resolveCommandAlias (ascii "PUT") = ascii "PUT" := by decide +kernel
  rw [parseText, TextStream.token_append (by decide) (List.all_iff_forall_prop.mp rfl)]
  simp only [hput, if_true]

/-- Of a part of the command no key is parsed. -/
theorem parseText_command : ∀ s ∈ (ascii "PUT" ++ [32]).inits, ∀ p ∈ parseText s, p.1 = [] := by decide +kernel

/-- Key and value that are parsed from such a line are those that `handle_client` sends to the nodes. -/
theorem handleLine_parseLine {s : Session} {line : Str} (hline : commandLine (buffered line) = ascii "PUT" ++ 32 :: rest) (hk : k ≠ [])
    (hv : v ≠ []) (hparse : parseLine line = some (k, v)) :
    ∃ s' : Session, s.handleLine (buffered line) = .ok (s', [], .ask (.put k) (s'.message "PUT" k v)) := by
  have htyped : typed (buffered line) = some (ascii "PUT", ofStr (32 :: rest)) := by
    rw [typed, hline, TextStream.token_append (by decide) (List.all_iff_forall_prop.mp rfl)]
  have hname : Command.ofName (resolveCommandAlias (ascii "PUT")) = .put := by decide +kernel
  obtain ⟨s', hs'⟩ := handleLine_typed s htyped
  rw [parseLine, hline, parseText_put] at hparse
  have hdispatch : s'.dispatch .put (ofStr (32 :: rest)) = .ok (.ask (.put k) (s'.message "PUT" k v)) := by
    unfold Session.dispatch
    simp only [hparse, hk, hv, or_self, if_false]
  have hplain : fromHistory (s.commandHistory ++ [commandLine (buffered line)]) (ascii "PUT") (ofStr (32 :: rest)) =
      .ok ([], some (ascii "PUT", ofStr (32 :: rest))) := rfl
  refine ⟨s', hs'.trans ?_⟩
  simp only [hplain, Except.bind, hname, hdispatch, Except.map]

/-- A part of a line is parsed to a key exactly where it has the command and parses so behind it. -/
theorem parseText_cut {body : Str} {P : Prop} {m : ℕ} (hk : k ≠ []) (hm : m < body.length)
    (hbody : ∀ t, t <+: body → (parsePut (ofStr (32 :: t)) = some (k, v) ↔ P ∧ body.length ≤ t.length + m))
    (ht : t <+: ascii "PUT" ++ 32 :: body) :
    parseText t = some (k, v) ↔ P ∧ (ascii "PUT" ++ 32 :: body).length ≤ t.length + m := by
  have hput : ascii "PUT" ++ 32 :: body = ascii "PUT" ++ [32] ++ body := by simp
  rw [hput] at ht ⊢
  rcases prefix_append_cases ht with ht | ⟨u, rfl, hu⟩
  · have hlen := ht.length_le
    refine iff_of_false (fun h => hk (parseText_command t ((List.mem_inits t _).mpr ht) _ h)) fun h => ?_
    rw [List.length_append] at h
    omega
  · have hcons : ascii "PUT" ++ [32] ++ u = ascii "PUT" ++ 32 :: u := by simp
    rw [hcons, parseText_put, hbody u hu]
    simp only [List.length_append, List.length_cons, List.length_nil]
    refine and_congr_right fun _ => ?_
    constructor <;> intro h <;> omega

/-! ## The buffer -/

/-- From a text that begins with no blank only the end is trimmed. -/
theorem trim_cons (hc : isBlank c = false) (s : Str) : trim (c :: s) = (c :: s).rdropWhile isBlank := by
  have hdrop : (c :: s).dropWhile isBlank = c :: s := List.dropWhile_cons_of_neg (by simp [hc])
  rw [trim, hdrop]
  rfl

/-- The command line of a line that begins so. -/
theorem commandLine_cons (hc : isBlank c = false) (h0 : c ≠ 0) (s : Str) :
    commandLine (buffered (c :: s)) = ((buffered (c :: s)).takeWhile (· != 0)).rdropWhile isBlank := by
  have hpos : (c != 0) = true := bne_iff_ne.mpr h0
  have htake : (buffered (c :: s)).takeWhile (· != 0) = c :: (s.take 4094).takeWhile (· != 0) :=
    List.takeWhile_cons_of_pos (l := s.take 4094) hpos
  rw [commandLine, htake, trim_cons hc]

/-- It is a part of the line. -/
theorem commandLine_prefix (hc : isBlank c = false) (h0 : c ≠ 0) (s : Str) : commandLine (buffered (c :: s)) <+: c :: s := by
  rw [commandLine_cons hc h0]
  exact ((List.rdropWhile_prefix _ _).trans (List.takeWhile_prefix _)).trans (List.take_prefix 4095 _)

theorem takeWhile_ne_zero (h : 0 ∉ s) : s.takeWhile (· != 0) = s :=
  List.takeWhile_eq_self_iff.mpr fun _ hb => bne_iff_ne.mpr fun heq => h (heq ▸ hb)

/-- Nothing is trimmed from the end of a text that ends with no blank. -/
theorem rdropWhile_of_last (h : ∀ b ∈ s.getLast?, isBlank b = false) : s.rdropWhile isBlank = s := by
  refine List.rdropWhile_eq_self_iff.mpr fun hne hlast => ?_
  rw [h _ (List.getLast?_eq_some_getLast hne)] at hlast
  cases hlast

/-- What is trimmed ends with no blank. -/
theorem last_rdropWhile {b : UInt8} (hb : b ∈ (s.rdropWhile isBlank).getLast?) : isBlank b = false := by
  have hne : s.rdropWhile isBlank ≠ [] := by
    intro hnil
    rw [hnil] at hb
    cases hb
  rw [List.getLast?_eq_some_getLast hne] at hb
  exact Option.some.inj hb ▸ Bool.eq_false_iff.mpr (List.rdropWhile_last_not _ _ hne)

/-- A line that ends with no blank is taken whole exactly where it has no byte that is zero and fits into the buffer. -/
theorem length_commandLine_iff (hc : isBlank c = false) (h0 : c ≠ 0) (hlast : ∀ b ∈ (c :: s).getLast?, isBlank b = false) :
    (c :: s).length ≤ (commandLine (buffered (c :: s))).length ↔ 0 ∉ c :: s ∧ (c :: s).length ≤ 4095 := by
  rw [commandLine_cons hc h0]
  generalize c :: s = line at hlast ⊢
  constructor
  · intro hle
    have htrim := (List.rdropWhile_prefix isBlank ((buffered line).takeWhile (· != 0))).length_le
    have htext := (List.takeWhile_prefix (l := buffered line) (· != 0)).length_le
    have hbuf : (buffered line).length = min 4095 line.length := List.length_take
    have hreach : line.length ≤ (buffered line).length := by omega
    have hwhole : buffered line = line := (List.take_prefix 4095 line).eq_of_length_le hreach
    have hkept := hle.trans htrim
    rw [hwhole] at hkept
    have hall : line.takeWhile (· != 0) = line := (List.takeWhile_prefix _).eq_of_length_le hkept
    refine ⟨fun hmem => ?_, by omega⟩
    exact absurd (List.takeWhile_eq_self_iff.mp hall 0 hmem) (by decide)
  · rintro ⟨hz, hlen⟩
    have hwhole : buffered line = line := List.take_of_length_le hlen
    rw [hwhole, takeWhile_ne_zero hz, rdropWhile_of_last hlast]

/-- Of a line that ends with a quote no more than the quote is missing exactly where it has no byte that is zero, and fits into the buffer,
or only the quote does not, and nothing is trimmed behind it. -/
theorem length_commandLine_quote (hc : isBlank c = false) (h0 : c ≠ 0) (hq : isBlank q = false) (hq0 : q ≠ 0) :
    (c :: s ++ [q]).length ≤ (commandLine (buffered (c :: s ++ [q]))).length + 1 ↔ 0 ∉ c :: s ∧
      ((c :: s ++ [q]).length ≤ 4095 ∨ (c :: s ++ [q]).length = 4096 ∧ ∀ b ∈ (c :: s).getLast?, isBlank b = false) := by
  have hlast : ∀ b ∈ (c :: (s ++ [q])).getLast?, isBlank b = false := by
    intro b hb
    rw [← List.cons_append, List.getLast?_append_of_ne_nil _ (List.cons_ne_nil q [])] at hb
    exact Option.some.inj hb ▸ hq
  have hwhole := length_commandLine_iff hc h0 hlast
  have hpre := commandLine_prefix hc h0 (s ++ [q])
  have hdef := commandLine_cons hc h0 (s ++ [q])
  rw [← List.cons_append] at hwhole hpre hdef
  have hnew : (c :: s ++ [q]).length = (c :: s).length + 1 := by rw [List.length_append, List.length_singleton]
  have hzero : 0 ∉ c :: s → 0 ∉ c :: s ++ [q] := by
    intro h hmem
    rcases List.mem_append.mp hmem with hmem | hmem
    · exact h hmem
    · exact hq0 (List.mem_singleton.mp hmem).symm
  generalize c :: s = body at *
  by_cases hfull : (body ++ [q]).length ≤ (commandLine (buffered (body ++ [q]))).length
  · obtain ⟨hz, hlen⟩ := hwhole.mp hfull
    exact iff_of_true (by omega) ⟨fun h => hz (List.mem_append_left _ h), .inl hlen⟩
  constructor
  · intro hle
    have hsame : commandLine (buffered (body ++ [q])) = body := by
      have hshort := List.prefix_of_prefix_length_le hpre (List.prefix_append body [q]) (by omega)
      exact hshort.eq_of_length_le (by omega)
    have hz : 0 ∉ body := by
      intro hmem
      rw [← hsame, hdef] at hmem
      exact absurd (List.mem_takeWhile_imp ((List.rdropWhile_prefix _ _).subset hmem)) (by decide)
    have hlen : (commandLine (buffered (body ++ [q]))).length ≤ 4095 := by
      rw [hdef]
      exact (((List.rdropWhile_prefix _ _).trans (List.takeWhile_prefix _)).length_le).trans (List.length_take_le 4095 _)
    refine ⟨hz, .inr ⟨?_, fun b hb => ?_⟩⟩
    · have hlong : ¬(body ++ [q]).length ≤ 4095 := fun h => hfull (hwhole.mpr ⟨hzero hz, h⟩)
      rw [hsame] at hlen
      omega
    · rw [← hsame, hdef] at hb
      exact last_rdropWhile hb
  · rintro ⟨hz, hlen | ⟨hlen, hbody⟩⟩
    · exact absurd (hwhole.mpr ⟨hzero hz, hlen⟩) hfull
    · have hcut : buffered (body ++ [q]) = body := List.take_left' (by omega)
      rw [hdef, hcut, takeWhile_ne_zero hz, rdropWhile_of_last hbody]
      omega

/-- A text is written with a byte that is zero exactly where it has one. -/
theorem Spelling.zero_mem_write (st : Spelling) (s : Str) : 0 ∈ st.write s ↔ 0 ∈ s := by
  cases st <;> simp [write]

/-- Of a line that ends with a value no more than its quote is missing exactly where it has no byte that is zero, and fits into the
buffer. -/
theorem Spelling.length_commandLine {st : Spelling} (hv : v ≠ []) (hvs : st.Admits v) (hc : isBlank c = false) (h0 : c ≠ 0) (s : Str) :
    (c :: (s ++ st.write v)).length ≤ (commandLine (buffered (c :: (s ++ st.write v)))).length + st.spare ↔
      0 ∉ s ∧ 0 ∉ v ∧ st.FitsBuffer (c :: (s ++ st.write v)) v := by
  have hmem (l : Str) : 0 ∉ c :: (s ++ l) ↔ 0 ∉ s ∧ 0 ∉ l := by simp [h0.symm]
  have hquote (q : UInt8) (hne : st ≠ .bare) (hq : isBlank q = false) (hq0 : q ≠ 0) (hw : st.write v = q :: (v ++ [q])) :
      (c :: (s ++ st.write v)).length ≤ (commandLine (buffered (c :: (s ++ st.write v)))).length + 1 ↔
        0 ∉ s ∧ 0 ∉ v ∧ st.FitsBuffer (c :: (s ++ st.write v)) v := by
    have hline : c :: (s ++ st.write v) = c :: (s ++ q :: v) ++ [q] := by simp [hw]
    have hlast : (c :: (s ++ q :: v)).getLast? = v.getLast? := by
      rw [← List.cons_append, List.getLast?_append_of_ne_nil _ (List.cons_ne_nil q v)]
      obtain ⟨b, v, rfl⟩ := List.exists_cons_of_ne_nil hv
      exact List.getLast?_cons_cons
    have hz : 0 ∉ q :: v ↔ 0 ∉ v := by simp [hq0.symm]
    rw [hline, length_commandLine_quote hc h0 hq hq0, hlast, hmem, hz, and_assoc, FitsBuffer]
    simp only [hne, ne_eq, not_false_eq_true, true_and]
  cases st with
  | bare =>
    have hlast : ∀ b ∈ (c :: (s ++ v)).getLast?, isBlank b = false := by
      intro b hb
      have hmem' : b ∈ v := by
        rw [← List.cons_append, List.getLast?_append_of_ne_nil _ hv] at hb
        exact List.mem_of_getLast? hb
      exact isBlank_of_noSpace (hvs.2 b hmem').1
    have hiff := length_commandLine_iff hc h0 hlast
    rw [hmem, and_assoc] at hiff
    exact hiff.trans (and_congr_right fun _ => and_congr_right fun _ => ⟨.inl, fun h => h.elim id fun h => absurd rfl h.2.1⟩)
  | double => exact hquote 34 nofun (by decide) (by decide) rfl
  | single => exact hquote 39 nofun (by decide) (by decide) rfl

/-- A line with a value at its end is parsed as it is meant, by what is parsed of its parts behind the command. -/
theorem parseLine_put {st : Spelling} {pre : Str} {P : Prop} (hk : k ≠ []) (hv : v ≠ []) (hvs : st.Admits v)
    (hbody : ∀ t, t <+: pre ++ st.write v →
      (parsePut (ofStr (32 :: t)) = some (k, v) ↔ P ∧ (pre ++ st.write v).length ≤ t.length + st.spare)) :
    parseLine (ascii "PUT" ++ 32 :: (pre ++ st.write v)) = some (k, v) ↔
      P ∧ 0 ∉ pre ∧ 0 ∉ v ∧ st.FitsBuffer (ascii "PUT" ++ 32 :: (pre ++ st.write v)) v := by
  have hm : st.spare < (pre ++ st.write v).length := by
    have hspare := st.spare_lt hv
    rw [List.length_append]
    omega
  have hP : isBlank 80 = false := by decide
  have hline : ascii "PUT" ++ 32 :: (pre ++ st.write v) = 80 :: (85 :: 84 :: 32 :: pre ++ st.write v) := rfl
  have hpre := commandLine_prefix hP (by decide) (85 :: 84 :: 32 :: pre ++ st.write v)
  have hlen := Spelling.length_commandLine hv hvs hP (by decide) (85 :: 84 :: 32 :: pre)
  rw [← hline] at hpre hlen
  rw [parseLine, parseText_cut hk hm hbody hpre, hlen]
  simp

/-! ## All spellings -/

/-- A flag has no byte that is zero. -/
theorem zero_notMem_flag {flag : Str} (hflag : 0 ∉ flag) (h : toUpper t = flag) : 0 ∉ t := by
  intro hmem
  have hup : upperByte 0 ∈ toUpper t := List.mem_map_of_mem hmem
  rw [h] at hup
  exact hflag hup

theorem KeyFlag.zero_notMem (h : KeyFlag t) : 0 ∉ t :=
  h.elim (zero_notMem_flag (by decide)) (zero_notMem_flag (by decide))

theorem ValueFlag.zero_notMem (h : ValueFlag t) : 0 ∉ t :=
  h.elim (zero_notMem_flag (by decide)) (zero_notMem_flag (by decide))

/-- Key and value behind flags are parsed as they are meant exactly where the key is quoted; without flags, exactly where the key is not
spelled like a flag itself. In both, the line has to come through the buffer: without a byte that is zero, and no longer than it. -/
theorem parseLine_iff (hk : k ≠ []) (hv : v ≠ []) :
    (∀ (ks vs : Spelling) (kf vf : Str), ks.Admits k → vs.Admits v → KeyFlag kf → ValueFlag vf →
      (parseLine (flagLine kf (ks.write k) vf (vs.write v)) = some (k, v) ↔
        ks ≠ .bare ∧ 0 ∉ k ∧ 0 ∉ v ∧ vs.FitsBuffer (flagLine kf (ks.write k) vf (vs.write v)) v)) ∧
    ∀ vs : Spelling, Spelling.bare.Admits k → vs.Admits v →
      (parseLine (plainLine (Spelling.bare.write k) (vs.write v)) = some (k, v) ↔
        ¬KeyFlag k ∧ 0 ∉ k ∧ 0 ∉ v ∧ vs.FitsBuffer (plainLine (Spelling.bare.write k) (vs.write v)) v) := by
  refine ⟨fun ks vs kf vf hks hvs hkf hvf => ?_, fun vs hks hvs => ?_⟩
  · have hpre : flagLine kf (ks.write k) vf (vs.write v) =
        ascii "PUT" ++ 32 :: (kf ++ 32 :: (ks.write k ++ 32 :: (vf ++ [32])) ++ vs.write v) := by simp [flagLine]
    have hbody : kf ++ 32 :: (ks.write k ++ 32 :: (vf ++ [32])) ++ vs.write v =
        kf ++ 32 :: (ks.write k ++ 32 :: (vf ++ 32 :: vs.write v)) := by simp
    have hzero : 0 ∉ kf ++ 32 :: (ks.write k ++ 32 :: (vf ++ [32])) ↔ 0 ∉ k := by
      simp [hkf.zero_notMem, hvf.zero_notMem, ks.zero_mem_write]
    rw [hpre, parseLine_put hk hv hvs fun t ht => ?_, hzero]
    rw [hbody] at ht ⊢
    exact parsePut_flags hk hv hks hvs hkf hvf ht
  · have hpre : plainLine (Spelling.bare.write k) (vs.write v) = ascii "PUT" ++ 32 :: (k ++ [32] ++ vs.write v) := by
      simp [plainLine, Spelling.write]
    have hbody : k ++ [32] ++ vs.write v = k ++ 32 :: vs.write v := by simp
    have hzero : 0 ∉ k ++ [32] ↔ 0 ∉ k := by simp
    rw [hpre, parseLine_put hk hv hvs fun t ht => ?_, hzero]
    rw [hbody] at ht ⊢
    exact parsePut_plain hks hv hvs ht

/-- A key in double quotes and a value in single quotes with a blank in it, and the same key without flags. -/
theorem parseLine_iff_blank :
    parseLine (flagLine (ascii "--Key") (Spelling.double.write (ascii "a")) (ascii "-v") (Spelling.single.write (ascii "b c"))) =
      some (ascii "a", ascii "b c") ∧
    parseLine (plainLine (Spelling.bare.write (ascii "a")) (Spelling.double.write (ascii "b c"))) = some (ascii "a", ascii "b c") :=
  ⟨((parseLine_iff (k := ascii "a") (v := ascii "b c") (by decide) (by decide)).1 .double .single _ _ (by decide : 34 ∉ ascii "a")
      (by decide : 39 ∉ ascii "b c") (by decide) (by decide)).mpr ⟨by decide, by decide, by decide, .inl (by decide)⟩,
    ((parseLine_iff (k := ascii "a") (v := ascii "b c") (by decide) (by decide)).2 .double
      ⟨by decide, List.forall_mem_singleton.mpr (by decide)⟩ (by decide : 34 ∉ ascii "b c")).mpr
      ⟨by decide, by decide, by decide, .inl (by decide)⟩⟩

/-- The line `PUT --key a --value b` of the help text has the key `a --value b`, and no value. -/
theorem parseLine_swallows : flagLine (ascii "--key") (ascii "a") (ascii "--value") (ascii "b") = ascii "PUT --key a --value b" ∧
    parseLine (ascii "PUT --key a --value b") = some (ascii "a --value b", []) ∧
    ¬∀ (k v : Str) (ks vs : Spelling) (kf vf : Str), k ≠ [] → v ≠ [] → ks.Admits k → vs.Admits v → KeyFlag kf → ValueFlag vf →
      parseLine (flagLine kf (ks.write k) vf (vs.write v)) = some (k, v) := by
  have hline : flagLine (ascii "--key") (ascii "a") (ascii "--value") (ascii "b") = ascii "PUT --key a --value b" := by decide
  have hparse : parseLine (ascii "PUT --key a --value b") = some (ascii "a --value b", []) := by decide +kernel
  refine ⟨hline, hparse, fun h => ?_⟩
  have hbare := h (ascii "a") (ascii "b") .bare .bare (ascii "--key") (ascii "--value") (by decide) (by decide)
    ⟨by decide, List.forall_mem_singleton.mpr (by decide)⟩ ⟨by decide, List.forall_mem_singleton.mpr (by decide)⟩ (by decide) (by decide)
  have hsame : parseLine (ascii "PUT --key a --value b") = some (ascii "a", ascii "b") := hline ▸ hbare
  rw [hparse] at hsame
  exact absurd hsame (by decide)

end RaftStore
