import RaftStore.Consensus.Election

/-!
# Logs match

Every log in the system, a member's, one shown with a request or one kept with a ballot, is *chained*: up to an entry of term
`t` it is a piece of the chain of `t`, the log that the one winner of `t` built. Two chained logs that have entries of one term
at one position are equal up to it. Nothing here depends on what members vote for or on what they drop.
-/

namespace Consensus

/-! ## Pieces of a list -/

/-- A prefix and the list it is a prefix of have the same first `k` elements, for `k` up to the length of the prefix. -/
theorem prefix_take_eq {E : Type*} {l l' : List E} (hp : l' <+: l) {k : ℕ} (hk : k ≤ l'.length) :
    l'.take k = l.take k := by
  obtain ⟨t, rfl⟩ := hp
  rw [List.take_append_of_le_length hk]

/-- A prefix and the list it is a prefix of have the same element at each place of the prefix. -/
theorem prefix_getElem? {E : Type*} {l l' : List E} (hp : l' <+: l) {i : ℕ} (hi : i < l'.length) :
    l'[i]? = l[i]? := by
  obtain ⟨t, rfl⟩ := hp
  rw [List.getElem?_append_left hi]

/-- A list that agrees with another on its first `k` elements has that piece of the other as a prefix. -/
theorem take_prefix_of_take_eq {E : Type*} {l l' : List E} {k : ℕ} (h : l.take k = l'.take k) : l'.take k <+: l :=
  h ▸ List.take_prefix k l

section Chained

variable {ι T E : Type*} (τ : E → T)

/-- Up to each of its entries the log is a piece of the chain of that entry's term, a term that has a winner. -/
def Chained (a : State ι T E) (l : List E) : Prop :=
  ∀ i e, l[i]? = some e → (a.winner (τ e)).isSome ∧ l.take (i + 1) <+: a.chain (τ e)

variable {τ}

theorem chained_nil (a : State ι T E) : Chained τ a [] := by
  intro i e h
  simp at h

/-- A piece of a chained log is chained. -/
theorem Chained.piece {a : State ι T E} {l l' : List E} (h : Chained τ a l) (hp : l' <+: l) : Chained τ a l' := by
  intro i e he
  have hi : i < l'.length := (List.getElem?_eq_some_iff.mp he).1
  obtain ⟨hw, hc⟩ := h i e (by rw [← prefix_getElem? hp hi]; exact he)
  exact ⟨hw, by rwa [prefix_take_eq hp (by omega)]⟩

theorem Chained.take {a : State ι T E} {l : List E} (h : Chained τ a l) (k : ℕ) : Chained τ a (l.take k) :=
  h.piece (List.take_prefix k l)

/-- The last entry of a chained log makes the whole log a piece of a chain. -/
theorem Chained.prefix_chain {a : State ι T E} {l : List E} (h : Chained τ a l) {e : E} (he : l.getLast? = some e) :
    (a.winner (τ e)).isSome ∧ l <+: a.chain (τ e) := by
  have hne : l ≠ [] := by
    rintro rfl
    simp at he
  have hlen : 0 < l.length := List.length_pos_iff.mpr hne
  obtain ⟨hw, hc⟩ := h (l.length - 1) e (by rw [← List.getLast?_eq_getElem?]; exact he)
  refine ⟨hw, ?_⟩
  rwa [show l.length - 1 + 1 = l.length by omega, List.take_length] at hc

/-- Two chained logs with entries of one term at position `k - 1` are equal up to `k`. -/
theorem Chained.take_eq {a : State ι T E} {l l' : List E} (h : Chained τ a l) (h' : Chained τ a l') {k : ℕ}
    (hk : SameTermAt τ l l' k) : l.take k = l'.take k := by
  rcases hk with rfl | ⟨e, e', he, he', ht⟩
  · simp
  · cases k with
    | zero => simp
    | succ k =>
      rw [Nat.add_sub_cancel] at he he'
      have hl := (List.getElem?_eq_some_iff.mp he).1
      have hl' := (List.getElem?_eq_some_iff.mp he').1
      have hp := (h k e he).2
      have hp' := (h' k e' he').2
      rw [← ht] at hp'
      have hlen : (l.take (k + 1)).length = (l'.take (k + 1)).length := by
        rw [List.length_take, List.length_take]
        omega
      exact (List.prefix_of_prefix_length_le hp hp' (le_of_eq hlen)).eq_of_length hlen

/-- The same, the other way: logs equal up to `k`, both at least that long, have one term at position `k - 1`. -/
theorem sameTermAt_of_take_eq {l l' : List E} {k : ℕ} (hk : k ≤ l.length) (h : l.take k = l'.take k) :
    SameTermAt τ l l' k := by
  cases k with
  | zero => exact Or.inl rfl
  | succ k =>
    right
    have h1 : (l.take (k + 1))[k]? = (l'.take (k + 1))[k]? := by rw [h]
    rw [List.getElem?_take_of_lt (by omega), List.getElem?_take_of_lt (by omega)] at h1
    obtain ⟨e, he⟩ : ∃ e, l[k]? = some e := ⟨l[k], List.getElem?_eq_getElem (by omega)⟩
    exact ⟨e, e, by rw [Nat.add_sub_cancel]; exact he, by rw [Nat.add_sub_cancel, ← h1]; exact he, rfl⟩

/-- Logs that match at `k` match at every earlier position. -/
theorem SameTermAt.mono {a : State ι T E} {l l' : List E} (h : Chained τ a l) (h' : Chained τ a l') {j k : ℕ}
    (hk : SameTermAt τ l l' k) (hj : j ≤ k) (hl : k ≤ l.length) : SameTermAt τ l l' j := by
  have heq := h.take_eq h' hk
  refine sameTermAt_of_take_eq (by omega) ?_
  have := congrArg (List.take j) heq
  rwa [List.take_take, List.take_take, Nat.min_eq_left hj] at this

variable [LinearOrder T]

/-- A log chained in one state is chained in every later one. -/
theorem Chained.grows {a b : State ι T E} {l : List E} (h : Chained τ a l) (hg : Grows τ a b) : Chained τ b l := by
  intro i e he
  obtain ⟨hw, hc⟩ := h i e he
  obtain ⟨w, hw⟩ := Option.isSome_iff_exists.mp hw
  exact ⟨by rw [hg.winner _ _ hw]; rfl, hc.trans (hg.chain _ _ hw)⟩

/-- A piece of a sorted log is sorted. -/
theorem Sorted.piece {l l' : List E} (h : Sorted τ l) (hp : l' <+: l) : Sorted τ l' :=
  List.Pairwise.sublist hp.sublist h

/-- In a sorted log a later entry has no smaller term. -/
theorem Sorted.le {l : List E} (h : Sorted τ l) {i j : ℕ} {e e' : E} (hi : l[i]? = some e) (hj : l[j]? = some e')
    (hij : i ≤ j) : τ e ≤ τ e' := by
  obtain ⟨hi', rfl⟩ := List.getElem?_eq_some_iff.mp hi
  obtain ⟨hj', rfl⟩ := List.getElem?_eq_some_iff.mp hj
  rcases Nat.lt_or_eq_of_le hij with hlt | rfl
  · exact List.pairwise_iff_getElem.mp h i j hi' hj' hlt
  · exact le_rfl

end Chained

section

variable {ι T E : Type*} [DecidableEq ι] [LinearOrder T] {τ : E → T} {𝓠 : QuorumSystem ι}

variable (τ)

/-- What makes logs match. `request_cand`, `ballot_cand`: as long as its term has no winner, a candidate's log is the one it
has shown and the one its ballots were cast for. -/
structure Logs (a : State ι T E) : Prop where
  log_chained : ∀ v, Chained τ a (a.member v).log
  chain_chained : ∀ t, Chained τ a (a.chain t)
  request_chained : ∀ t c L, (t, c, L) ∈ a.requests → Chained τ a L
  ballot_chained : ∀ b ∈ a.ballots, Chained τ a b.candLog ∧ Chained τ a b.voterLog
  stable_prefix : ∀ v, (a.member v).stable <+: (a.member v).log
  stable_log : ∀ v, ¬(a.member v).lead → (a.member v).stable = (a.member v).log
  lead_chain : ∀ v, (a.member v).lead → (a.member v).log = a.chain (a.member v).term
  log_le : ∀ v, ∀ e ∈ (a.member v).log, τ e ≤ (a.member v).term
  chain_sorted : ∀ t, Sorted τ (a.chain t)
  chain_le : ∀ t, ∀ e ∈ a.chain t, τ e ≤ t
  request_term : ∀ t c L, (t, c, L) ∈ a.requests → t ≤ (a.member c).term
  ballot_term : ∀ b ∈ a.ballots, b.term ≤ (a.member b.candidate).term
  request_cand : ∀ c, (a.member c).cand → a.winner (a.member c).term = none →
    ∀ L, ((a.member c).term, c, L) ∈ a.requests → L = (a.member c).log
  ballot_cand : ∀ c, (a.member c).cand → a.winner (a.member c).term = none →
    ∀ b ∈ a.ballots, b.term = (a.member c).term → b.candidate = c → b.candLog = (a.member c).log

variable {τ}

omit [DecidableEq ι] in
/-- The start of a run: every log is empty. -/
theorem logs_init (t₀ : T) : Logs τ (State.init t₀ : State ι T E) := by
  constructor <;> simp [State.init, chained_nil, Sorted]

omit [DecidableEq ι] in
/-- A chained log is sorted: it is a piece of a chain. -/
theorem Logs.sorted {a : State ι T E} (h : Logs τ a) {l : List E} (hl : Chained τ a l) : Sorted τ l := by
  rcases List.eq_nil_or_concat l with rfl | ⟨l', e, rfl⟩
  · exact List.Pairwise.nil
  · exact (h.chain_sorted _).piece (hl.prefix_chain (e := e) (by simp)).2

omit [DecidableEq ι] in
/-- The entries of a leader's log extended by one of its term are the chain extended by it. -/
theorem chained_append {a b : State ι T E} (hg : Grows τ a b) {l : List E} {e : E} (hl : Chained τ a l)
    (hw : (b.winner (τ e)).isSome) (hc : b.chain (τ e) = l ++ [e]) : Chained τ b (l ++ [e]) := by
  intro i x hx
  rcases Nat.lt_trichotomy i l.length with hi | hi | hi
  · rw [List.getElem?_append_left hi] at hx
    obtain ⟨hw', hc'⟩ := hl.grows hg i x hx
    exact ⟨hw', by rwa [List.take_append_of_le_length (by omega)]⟩
  · subst hi
    rw [List.getElem?_concat_length] at hx
    obtain rfl := Option.some.inj hx
    exact ⟨hw, by rw [hc, List.take_of_length_le (by simp)]⟩
  · rw [List.getElem?_eq_none (by simp; omega)] at hx
    cases hx

omit [LinearOrder T] [DecidableEq ι] in
/-- Being chained is a matter of the winners and their chains. -/
theorem chained_congr {a b : State ι T E} (hw : b.winner = a.winner) (hc : b.chain = a.chain) {l : List E} :
    Chained τ b l ↔ Chained τ a l := by
  simp only [Chained, hw, hc]

/-! ## What one step does to the logs -/

/-- A member that keeps its log, writes it to stable storage and takes on no new role: logs still match. -/
theorem Logs.put {a : State ι T E} (h : Logs τ a) (v : ι) (m : Member ι T E) (hlog : m.log = (a.member v).log)
    (hterm : (a.member v).term ≤ m.term) (hstable : m.stable = m.log)
    (hlead : m.lead → (a.member v).lead ∧ m.term = (a.member v).term)
    (hcand : m.cand → (a.member v).cand ∧ m.term = (a.member v).term) : Logs τ (a.put v m) := by
  obtain ⟨h1, h2, h3, h4, h5, h6, h7, h8, h9, h10, h11, h12, h13, h14⟩ := h
  constructor <;> simp only [State.put_member, State.put_requests, State.put_ballots, State.put_winner, State.put_chain,
    chained_congr (State.put_winner a v m) (State.put_chain a v m)]
  case stable_prefix =>
    intro u
    split
    · rw [hstable]
    · exact h5 u
  case log_le =>
    intro u e he
    split at he
    · next hu =>
      subst hu
      simp only [if_true]
      exact (h8 u e (hlog ▸ he)).trans hterm
    · next hu =>
      simp only [hu, if_false]
      exact h8 u e he
  all_goals grind

/-- A new candidate has shown its log to nobody, and its own ballot is for the log it has. -/
theorem Logs.campaign {a b : State ι T E} (h : Logs τ a) (v : ι) (t : T) (ht : (a.member v).term < t)
    (hb : b = { a.put v { a.member v with
        term := t, vote := some v, cand := True, lead := False, stable := (a.member v).log } with
      ballots := insert ⟨v, t, v, (a.member v).log, (a.member v).log⟩ a.ballots }) : Logs τ b := by
  have hch : ∀ l, Chained τ b l ↔ Chained τ a l := fun l => chained_congr (by rw [hb]; rfl) (by rw [hb]; rfl)
  obtain ⟨h1, h2, h3, h4, h5, h6, h7, h8, h9, h10, h11, h12, h13, h14⟩ := h
  have hmem : ∀ u, b.member u = if u = v then
      { a.member v with term := t, vote := some v, cand := True, lead := False, stable := (a.member v).log }
      else a.member u := by
    intro u
    rw [hb]
    exact State.put_member a v _ u
  have hwin : b.winner = a.winner := by rw [hb]; rfl
  have hchn : b.chain = a.chain := by rw [hb]; rfl
  have hreq : b.requests = a.requests := by rw [hb]; rfl
  have hbal : b.ballots = insert ⟨v, t, v, (a.member v).log, (a.member v).log⟩ a.ballots := by rw [hb]
  constructor <;> simp only [hch, hmem, hwin, hchn, hreq, hbal, Set.mem_insert_iff]
  case log_le =>
    intro u e he
    by_cases hu : u = v
    · subst hu
      simp only [if_true] at he ⊢
      exact (h8 u e he).trans ht.le
    · simp only [hu, if_false] at he ⊢
      exact h8 u e he
  all_goals grind

omit [DecidableEq ι] in
/-- A request shows the log its sender has. -/
theorem Logs.ask {a b : State ι T E} (h : Logs τ a) (v : ι)
    (hb : b = { a with requests := insert ((a.member v).term, v, (a.member v).log) a.requests }) : Logs τ b := by
  have hch : ∀ l, Chained τ b l ↔ Chained τ a l := fun l => chained_congr (by rw [hb]) (by rw [hb])
  obtain ⟨h1, h2, h3, h4, h5, h6, h7, h8, h9, h10, h11, h12, h13, h14⟩ := h
  have hmem : b.member = a.member := by rw [hb]
  have hwin : b.winner = a.winner := by rw [hb]
  have hchn : b.chain = a.chain := by rw [hb]
  have hreq : b.requests = insert ((a.member v).term, v, (a.member v).log) a.requests := by rw [hb]
  have hbal : b.ballots = a.ballots := by rw [hb]
  constructor <;> simp only [hch, hmem, hwin, hchn, hreq, hbal, Set.mem_insert_iff]
  all_goals grind

/-- A ballot granted on a request is for the log the request showed. -/
theorem Logs.grant {a b : State ι T E} (h : Logs τ a) (v c : ι) (L : List E)
    (hr : ((a.member v).term, c, L) ∈ a.requests)
    (hb : b = { a.put v { a.member v with vote := some c, stable := (a.member v).log } with
      ballots := insert ⟨v, (a.member v).term, c, L, (a.member v).log⟩ a.ballots }) : Logs τ b := by
  have hL := h.request_chained _ _ _ hr
  have hc := h.request_term _ _ _ hr
  have hch : ∀ l, Chained τ b l ↔ Chained τ a l := fun l => chained_congr (by rw [hb]; rfl) (by rw [hb]; rfl)
  obtain ⟨h1, h2, h3, h4, h5, h6, h7, h8, h9, h10, h11, h12, h13, h14⟩ := h
  have hmem : ∀ u, b.member u = if u = v then { a.member v with vote := some c, stable := (a.member v).log }
      else a.member u := by
    intro u
    rw [hb]
    exact State.put_member a v _ u
  have hwin : b.winner = a.winner := by rw [hb]; rfl
  have hchn : b.chain = a.chain := by rw [hb]; rfl
  have hreq : b.requests = a.requests := by rw [hb]; rfl
  have hbal : b.ballots = insert ⟨v, (a.member v).term, c, L, (a.member v).log⟩ a.ballots := by rw [hb]
  constructor <;> simp only [hch, hmem, hwin, hchn, hreq, hbal, Set.mem_insert_iff]
  all_goals grind

/-- The log of a new leader becomes the chain of its term. -/
theorem Logs.elect {a b : State ι T E} (h : Logs τ a) (he : Elections 𝓠 a) (c : ι)
    (hnone : a.winner (a.member c).term = none) (hg : Grows τ a b)
    (hb : b = { a.put c { a.member c with cand := False, lead := True, stable := (a.member c).log } with
      winner := Function.update a.winner (a.member c).term (some c)
      chain := Function.update a.chain (a.member c).term (a.member c).log }) : Logs τ b := by
  have hch : ∀ l, Chained τ a l → Chained τ b l := fun l hl => hl.grows hg
  have hs := h.sorted (h.log_chained c)
  have hlw := he.lead_winner
  obtain ⟨h1, h2, h3, h4, h5, h6, h7, h8, h9, h10, h11, h12, h13, h14⟩ := h
  have hmem : ∀ u, b.member u = if u = c then
      { a.member c with cand := False, lead := True, stable := (a.member c).log } else a.member u := by
    intro u
    rw [hb]
    exact State.put_member a c _ u
  have hwin : ∀ t, b.winner t = if t = (a.member c).term then some c else a.winner t := by
    intro t
    rw [hb]
    exact Function.update_apply _ _ _ _
  have hchn : ∀ t, b.chain t = if t = (a.member c).term then (a.member c).log else a.chain t := by
    intro t
    rw [hb]
    exact Function.update_apply _ _ _ _
  have hreq : b.requests = a.requests := by rw [hb]; rfl
  have hbal : b.ballots = a.ballots := by rw [hb]; rfl
  constructor <;> simp only [hmem, hwin, hchn, hreq, hbal]
  all_goals grind

/-- A leader and the chain of its term grow together. -/
theorem Logs.append {a b : State ι T E} (h : Logs τ a) (he : Elections 𝓠 a) (c : ι) (e : E) (hl : (a.member c).lead)
    (hte : τ e = (a.member c).term) (hg : Grows τ a b)
    (hb : b = { a.put c { a.member c with log := (a.member c).log ++ [e] } with
      chain := Function.update a.chain (a.member c).term (a.chain (a.member c).term ++ [e]) }) : Logs τ b := by
  have hch : ∀ l, Chained τ a l → Chained τ b l := fun l hl => hl.grows hg
  have hlw := he.lead_winner
  have hwv := he.winner_vote
  have hlc := h.lead_chain c hl
  have hwc := hlw c hl
  have hnew : Chained τ b ((a.member c).log ++ [e]) := by
    refine chained_append hg (h.log_chained c) ?_ ?_
    · rw [hte, hg.winner _ _ hwc]
      rfl
    · rw [hte, hb]
      simp [hlc]
  obtain ⟨h1, h2, h3, h4, h5, h6, h7, h8, h9, h10, h11, h12, h13, h14⟩ := h
  have hmem : ∀ u, b.member u = if u = c then { a.member c with log := (a.member c).log ++ [e] } else a.member u := by
    intro u
    rw [hb]
    exact State.put_member a c _ u
  have hwin : b.winner = a.winner := by rw [hb]; rfl
  have hchn : ∀ t, b.chain t = if t = (a.member c).term then a.chain (a.member c).term ++ [e] else a.chain t := by
    intro t
    rw [hb]
    exact Function.update_apply _ _ _ _
  have hreq : b.requests = a.requests := by rw [hb]; rfl
  have hbal : b.ballots = a.ballots := by rw [hb]; rfl
  constructor <;> simp only [hmem, hwin, hchn, hreq, hbal]
  case stable_prefix =>
    intro u
    split
    · next hu =>
      subst hu
      exact (h5 u).trans (List.prefix_append _ _)
    · exact h5 u
  case chain_sorted =>
    intro t
    split
    · refine List.pairwise_append.mpr ⟨h9 _, List.pairwise_singleton _ _, ?_⟩
      intro x hx y hy
      rw [List.mem_singleton.mp hy, hte]
      exact h10 _ x hx
    · exact h9 t
  all_goals grind

/-- A piece of the chain of a member's term fits in the place of its log. -/
theorem Logs.replace {a b : State ι T E} (h : Logs τ a) (v w : ι) (k : ℕ) (hw : a.winner (a.member v).term = some w)
    (hnl : ¬(a.member v).lead)
    (hb : b = { a.put v { a.member v with
        log := (a.chain (a.member v).term).take k, stable := (a.chain (a.member v).term).take k } with
      acks := insert (v, (a.member v).term, k) a.acks }) : Logs τ b := by
  have hk := (h.chain_chained (a.member v).term).take k
  have hle : ∀ e ∈ (a.chain (a.member v).term).take k, τ e ≤ (a.member v).term :=
    fun e he => h.chain_le _ e (List.mem_of_mem_take he)
  have hch : ∀ l, Chained τ b l ↔ Chained τ a l := fun l => chained_congr (by rw [hb]; rfl) (by rw [hb]; rfl)
  obtain ⟨h1, h2, h3, h4, h5, h6, h7, h8, h9, h10, h11, h12, h13, h14⟩ := h
  have hmem : ∀ u, b.member u = if u = v then { a.member v with
      log := (a.chain (a.member v).term).take k, stable := (a.chain (a.member v).term).take k } else a.member u := by
    intro u
    rw [hb]
    exact State.put_member a v _ u
  have hwin : b.winner = a.winner := by rw [hb]; rfl
  have hchn : b.chain = a.chain := by rw [hb]; rfl
  have hreq : b.requests = a.requests := by rw [hb]; rfl
  have hbal : b.ballots = a.ballots := by rw [hb]; rfl
  constructor <;> simp only [hch, hmem, hwin, hchn, hreq, hbal]
  all_goals grind

/-- What a crash leaves is a piece of the log. -/
theorem Logs.crash {a : State ι T E} (h : Logs τ a) (v : ι) :
    Logs τ (a.put v { a.member v with cand := False, lead := False, log := (a.member v).stable }) := by
  have hk := (h.log_chained v).piece (h.stable_prefix v)
  have hle : ∀ e ∈ (a.member v).stable, τ e ≤ (a.member v).term :=
    fun e he => h.log_le v e ((h.stable_prefix v).subset he)
  obtain ⟨h1, h2, h3, h4, h5, h6, h7, h8, h9, h10, h11, h12, h13, h14⟩ := h
  constructor <;> simp only [State.put_member, State.put_requests, State.put_ballots, State.put_winner, State.put_chain,
    chained_congr (State.put_winner a v _) (State.put_chain a v _)]
  all_goals grind

/-- Every step from a state whose elections are safe keeps logs matching. -/
theorem Logs.step {strict : Prop} {a b : State ι T E} (h : Logs τ a) (he : Elections 𝓠 a) (hs : Step τ 𝓠 strict a b) :
    Logs τ b := by
  have hg := he.grows hs
  cases hs with
  | adopt v t ht => exact h.put v _ rfl ht.le rfl (fun hl => absurd hl id) (fun hc => absurd hc id)
  | yield v hv => exact h.put v _ rfl le_rfl rfl (fun hl => ⟨hl, rfl⟩) (fun hc => absurd hc id)
  | campaign v t ht => exact h.campaign v t ht rfl
  | ask v => exact h.ask v rfl
  | grant v c L hr _ _ => exact h.grant v c L hr rfl
  | elect c Q hc hQ hb => exact h.elect he c (he.no_winner hc hQ hb) hg rfl
  | append c e hl hte => exact h.append he c e hl hte hg rfl
  | save v => exact h.put v _ rfl le_rfl rfl (fun hl => ⟨hl, rfl⟩) (fun hc => ⟨hc, rfl⟩)
  | confirm c k _ _ => exact ⟨h.1, h.2, h.3, h.4, h.5, h.6, h.7, h.8, h.9, h.10, h.11, h.12, h.13, h.14⟩
  | keep v w k _ _ _ _ => exact ⟨h.1, h.2, h.3, h.4, h.5, h.6, h.7, h.8, h.9, h.10, h.11, h.12, h.13, h.14⟩
  | replace v w k hw hne _ _ => exact h.replace v w k hw (he.not_lead hw hne) rfl
  | crash v => exact h.crash v

omit [DecidableEq ι] in
/-- Log matching: two members whose logs have entries of one term at one position have equal logs up to it. -/
theorem Logs.matching {a : State ι T E} (h : Logs τ a) (u v : ι) {k : ℕ}
    (hk : SameTermAt τ (a.member u).log (a.member v).log k) :
    (a.member u).log.take k = (a.member v).log.take k :=
  (h.log_chained u).take_eq (h.log_chained v) hk

end

end Consensus
