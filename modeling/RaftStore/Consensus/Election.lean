import RaftStore.Consensus.Protocol

/-!
# One leader for a term

The votes alone, whatever the logs are: in every state a run reaches, a term has at most one winner and a member leads only a
term it has won. A member may forget the vote it gave itself when it stands back (`Step.yield`), so that it can be counted
for itself and grant another candidate in one term; the elections are safe all the same, because the self-vote counts only
for a candidate that has not stood back.
-/

namespace Consensus

section

variable {ι T E : Type*} [DecidableEq ι]

@[simp] theorem State.put_winner (a : State ι T E) (v : ι) (m : Member ι T E) : (a.put v m).winner = a.winner := rfl
@[simp] theorem State.put_chain (a : State ι T E) (v : ι) (m : Member ι T E) : (a.put v m).chain = a.chain := rfl
@[simp] theorem State.put_requests (a : State ι T E) (v : ι) (m : Member ι T E) : (a.put v m).requests = a.requests := rfl
@[simp] theorem State.put_ballots (a : State ι T E) (v : ι) (m : Member ι T E) : (a.put v m).ballots = a.ballots := rfl
@[simp] theorem State.put_acks (a : State ι T E) (v : ι) (m : Member ι T E) : (a.put v m).acks = a.acks := rfl

/-- The record of a member after a put. -/
@[simp] theorem State.put_member (a : State ι T E) (v : ι) (m : Member ι T E) (u : ι) :
    (a.put v m).member u = if u = v then m else a.member u := by
  simp [State.put, Function.update_apply]

variable [LinearOrder T] {τ : E → T} (𝓠 : QuorumSystem ι)

/-- What makes elections safe: where a member's vote stands, what ballots say about it, and that a winner had a quorum. -/
structure Elections (a : State ι T E) : Prop where
  ballot_term : ∀ b ∈ a.ballots, b.term ≤ (a.member b.voter).term
  cand_vote : ∀ v, (a.member v).cand → (a.member v).vote = some v
  lead_winner : ∀ v, (a.member v).lead → a.winner (a.member v).term = some v
  winner_term : ∀ t w, a.winner t = some w → t ≤ (a.member w).term
  winner_vote : ∀ w, a.winner (a.member w).term = some w → (a.member w).vote = some w ∧ ¬(a.member w).cand
  ballot_vote : ∀ b ∈ a.ballots, b.candidate ≠ b.voter → b.term = (a.member b.voter).term →
    (a.member b.voter).vote = some b.candidate
  ballot_unique : ∀ b ∈ a.ballots, ∀ b' ∈ a.ballots, b.voter = b'.voter → b.term = b'.term →
    b.candidate ≠ b.voter → b'.candidate ≠ b'.voter → b.candidate = b'.candidate
  winner_ballot : ∀ t w, a.winner t = some w → ∀ b ∈ a.ballots, b.voter = w → b.term = t → b.candidate = w
  winner_quorum : ∀ t w, a.winner t = some w → ∃ Q, 𝓠.IsQuorum Q ∧
    ∀ v ∈ Q, ∃ b ∈ a.ballots, b.voter = v ∧ b.term = t ∧ b.candidate = w

variable {𝓠}

omit [DecidableEq ι] in
/-- The start of a run is safe. -/
theorem elections_init (t₀ : T) : Elections 𝓠 (State.init t₀ : State ι T E) := by
  constructor <;> simp [State.init]

omit [DecidableEq ι] in
/-- A candidate that a quorum has voted for finds its term without a winner. -/
theorem Elections.no_winner {a : State ι T E} (h : Elections 𝓠 a) {c : ι} {Q : Finset ι} (hc : (a.member c).cand)
    (hQ : 𝓠.IsQuorum Q)
    (hb : ∀ v ∈ Q, ∃ b ∈ a.ballots, b.voter = v ∧ b.term = (a.member c).term ∧ b.candidate = c) :
    a.winner (a.member c).term = none := by
  cases hw : a.winner (a.member c).term with
  | none => rfl
  | some w =>
    exfalso
    obtain ⟨Q', hQ', hb'⟩ := h.winner_quorum _ _ hw
    obtain ⟨v, hv, hv'⟩ := 𝓠.inter hQ hQ'
    obtain ⟨b, hbm, hbv, hbt, hbc⟩ := hb v hv
    obtain ⟨b', hbm', hbv', hbt', hbc'⟩ := hb' v hv'
    have hcw : c ≠ w := by
      rintro rfl
      exact (h.winner_vote c hw).2 hc
    -- the common voter is neither the winner, which has voted for itself, nor the candidate, which has too
    have hvw : v ≠ w := by
      rintro rfl
      exact hcw (hbc ▸ h.winner_ballot _ _ hw b hbm hbv hbt)
    have hvc : v ≠ c := by
      rintro rfl
      have := h.ballot_vote b' hbm' (by rw [hbc', hbv']; exact Ne.symm hcw) (by rw [hbt', hbv'])
      rw [hbv', h.cand_vote v hc, hbc'] at this
      exact hcw (Option.some.inj this)
    have := h.ballot_unique b hbm b' hbm' (hbv.trans hbv'.symm) (hbt.trans hbt'.symm)
      (by rw [hbc, hbv]; exact Ne.symm hvc) (by rw [hbc', hbv']; exact Ne.symm hvw)
    exact hcw (hbc.symm.trans (this.trans hbc'))

/-! ## What one step does to the votes -/

omit [DecidableEq ι] in
/-- A step that leaves every member's term, vote and flags, the winners and the ballots as they are keeps elections safe. -/
theorem Elections.congr {a b : State ι T E} (h : Elections 𝓠 a)
    (hm : ∀ v, (b.member v).term = (a.member v).term ∧ (b.member v).vote = (a.member v).vote ∧
      (b.member v).cand = (a.member v).cand ∧ (b.member v).lead = (a.member v).lead)
    (hw : b.winner = a.winner) (hb : b.ballots = a.ballots) : Elections 𝓠 b := by
  obtain ⟨h1, h2, h3, h4, h5, h6, h7, h8, h9⟩ := h
  constructor
  · intro x hx
    rw [(hm _).1]
    exact h1 x (hb ▸ hx)
  · intro v hv
    rw [(hm v).2.1]
    exact h2 v ((hm v).2.2.1 ▸ hv)
  · intro v hv
    rw [hw, (hm v).1]
    exact h3 v ((hm v).2.2.2 ▸ hv)
  · intro t w ht
    rw [(hm w).1]
    exact h4 t w (hw ▸ ht)
  · intro w ht
    rw [hw, (hm w).1] at ht
    rw [(hm w).2.1, (hm w).2.2.1]
    exact h5 w ht
  · intro x hx hne ht
    rw [(hm _).1] at ht
    rw [(hm _).2.1]
    exact h6 x (hb ▸ hx) hne ht
  · rw [hb]
    exact h7
  · rw [hb, hw]
    exact h8
  · rw [hb, hw]
    exact h9

/-- A member that takes a later term starts it without a vote, and no ballot of its own names that term. -/
theorem Elections.adopt {a : State ι T E} (h : Elections 𝓠 a) (v : ι) (t : T) (ht : (a.member v).term < t) (S : List E) :
    Elections 𝓠 (a.put v { a.member v with term := t, vote := none, cand := False, lead := False, stable := S }) := by
  obtain ⟨h1, h2, h3, h4, h5, h6, h7, h8, h9⟩ := h
  constructor <;> simp only [State.put_member, State.put_winner, State.put_ballots] <;> grind

/-- A candidate that stands back has granted nobody in its term, and cannot have won it. -/
theorem Elections.yield {a : State ι T E} (h : Elections 𝓠 a) (v : ι) (hv : (a.member v).cand) (S : List E) :
    Elections 𝓠 (a.put v { a.member v with vote := none, cand := False, stable := S }) := by
  obtain ⟨h1, h2, h3, h4, h5, h6, h7, h8, h9⟩ := h
  have hvote := h2 v hv
  constructor <;> simp only [State.put_member, State.put_winner, State.put_ballots] <;> grind

/-- A new candidate's ballot for itself is the first of its term. -/
theorem Elections.campaign {a : State ι T E} (h : Elections 𝓠 a) (v : ι) (t : T) (ht : (a.member v).term < t)
    (S L L' : List E) :
    Elections 𝓠 { a.put v { a.member v with term := t, vote := some v, cand := True, lead := False, stable := S } with
      ballots := insert ⟨v, t, v, L, L'⟩ a.ballots } := by
  obtain ⟨h1, h2, h3, h4, h5, h6, h7, h8, h9⟩ := h
  constructor <;> simp only [State.put_member, State.put_winner, Set.mem_insert_iff] <;> grind

/-- A grant goes to the candidate the member already has its vote with, or is the member's first of the term. -/
theorem Elections.grant {a : State ι T E} (h : Elections 𝓠 a) (v c : ι)
    (hv : (a.member v).vote = none ∨ (a.member v).vote = some c) (S L L' : List E) :
    Elections 𝓠 { a.put v { a.member v with vote := some c, stable := S } with
      ballots := insert ⟨v, (a.member v).term, c, L, L'⟩ a.ballots } := by
  obtain ⟨h1, h2, h3, h4, h5, h6, h7, h8, h9⟩ := h
  constructor <;> simp only [State.put_member, State.put_winner, Set.mem_insert_iff] <;> grind

/-- A candidate elected by a quorum is the only winner of its term. -/
theorem Elections.elect {a : State ι T E} (h : Elections 𝓠 a) (c : ι) (Q : Finset ι) (hc : (a.member c).cand)
    (hQ : 𝓠.IsQuorum Q)
    (hb : ∀ v ∈ Q, ∃ b ∈ a.ballots, b.voter = v ∧ b.term = (a.member c).term ∧ b.candidate = c)
    (S : List E) (ch : T → List E) :
    Elections 𝓠 { a.put c { a.member c with cand := False, lead := True, stable := S } with
      winner := Function.update a.winner (a.member c).term (some c), chain := ch } := by
  have hnone := h.no_winner hc hQ hb
  obtain ⟨h1, h2, h3, h4, h5, h6, h7, h8, h9⟩ := h
  have hvote := h2 c hc
  constructor <;> simp only [State.put_member, State.put_ballots, Function.update_apply]
  case winner_quorum =>
    intro t w hw
    split at hw
    · next htc =>
      obtain rfl : c = w := Option.some.inj hw
      exact ⟨Q, hQ, htc ▸ hb⟩
    · exact h9 t w hw
  all_goals grind

/-- A crash keeps the term and the vote. -/
theorem Elections.crash {a : State ι T E} (h : Elections 𝓠 a) (v : ι) (S : List E) :
    Elections 𝓠 (a.put v { a.member v with cand := False, lead := False, log := S }) := by
  obtain ⟨h1, h2, h3, h4, h5, h6, h7, h8, h9⟩ := h
  constructor <;> simp only [State.put_member, State.put_winner, State.put_ballots] <;> grind

/-- Every step keeps elections safe. -/
theorem Elections.step {strict : Prop} {a b : State ι T E} (h : Elections 𝓠 a) (hs : Step τ 𝓠 strict a b) :
    Elections 𝓠 b := by
  cases hs with
  | adopt v t ht => exact h.adopt v t ht _
  | yield v hv => exact h.yield v hv _
  | campaign v t ht => exact h.campaign v t ht _ _ _
  | ask v => exact h.congr (fun _ => ⟨rfl, rfl, rfl, rfl⟩) rfl rfl
  | grant v c L _ hv _ => exact h.grant v c hv _ _ _
  | elect c Q hc hQ hb => exact h.elect c Q hc hQ hb _ _
  | append c e _ _ =>
    refine h.congr (fun u => ?_) rfl rfl
    by_cases hu : u = c <;> simp [hu]
  | save v =>
    refine h.congr (fun u => ?_) rfl rfl
    by_cases hu : u = v <;> simp [hu]
  | confirm c k _ _ => exact h.congr (fun _ => ⟨rfl, rfl, rfl, rfl⟩) rfl rfl
  | keep v w k _ _ _ _ => exact h.congr (fun _ => ⟨rfl, rfl, rfl, rfl⟩) rfl rfl
  | replace v w k _ _ _ _ =>
    refine h.congr (fun u => ?_) rfl rfl
    by_cases hu : u = v <;> simp [hu]
  | crash v => exact h.crash v _

/-- Elections are safe along every run. -/
theorem Elections.steps {strict : Prop} {a b : State ι T E} (h : Elections 𝓠 a) (hs : Steps τ 𝓠 strict a b) :
    Elections 𝓠 b := by
  induction hs with
  | refl => exact h
  | tail _ hs ih => exact ih.step hs

omit [DecidableEq ι] in
/-- A member other than the winner of its term does not lead it. -/
theorem Elections.not_lead {a : State ι T E} (h : Elections 𝓠 a) {v w : ι} (hw : a.winner (a.member v).term = some w)
    (hne : w ≠ v) : ¬(a.member v).lead := by
  intro hl
  exact hne (Option.some.inj (hw.symm.trans (h.lead_winner v hl)))

/-! ## The history only grows -/

/-- `b` is a later state than `a`: terms have not decreased, nothing of the history is lost, and what a chain has gained is of
its own term. -/
structure Grows (τ : E → T) (a b : State ι T E) : Prop where
  term : ∀ v, (a.member v).term ≤ (b.member v).term
  winner : ∀ t w, a.winner t = some w → b.winner t = some w
  chain : ∀ t w, a.winner t = some w → a.chain t <+: b.chain t
  chain_new : ∀ t w, a.winner t = some w → ∀ i e, (a.chain t).length ≤ i → (b.chain t)[i]? = some e → τ e = t
  requests : a.requests ⊆ b.requests
  ballots : a.ballots ⊆ b.ballots
  acks : a.acks ⊆ b.acks

omit [DecidableEq ι] in
theorem Grows.refl (a : State ι T E) : Grows τ a a :=
  ⟨fun _ => le_rfl, fun _ _ h => h, fun _ _ _ => List.prefix_rfl,
    fun _ _ _ _ _ hi he => absurd (List.getElem?_eq_some_iff.mp he).1 (not_lt.mpr hi), subset_rfl, subset_rfl, subset_rfl⟩

omit [DecidableEq ι] in
theorem Grows.trans {a b c : State ι T E} (h : Grows τ a b) (h' : Grows τ b c) : Grows τ a c where
  term v := (h.term v).trans (h'.term v)
  winner t w hw := h'.winner t w (h.winner t w hw)
  chain t w hw := (h.chain t w hw).trans (h'.chain t w (h.winner t w hw))
  chain_new t w hw i e hi he := by
    by_cases hb : i < (b.chain t).length
    · obtain ⟨l, hl⟩ := h'.chain t w (h.winner t w hw)
      rw [← hl, List.getElem?_append_left hb] at he
      exact h.chain_new t w hw i e hi he
    · exact h'.chain_new t w (h.winner t w hw) i e (not_lt.mp hb) he
  requests := h.requests.trans h'.requests
  ballots := h.ballots.trans h'.ballots
  acks := h.acks.trans h'.acks

omit [DecidableEq ι] in
/-- A state with the same history and no smaller terms is a later one. -/
theorem Grows.of_eq {a b : State ι T E} (ht : ∀ v, (a.member v).term ≤ (b.member v).term) (hw : b.winner = a.winner)
    (hc : b.chain = a.chain) (hr : a.requests ⊆ b.requests) (hb : a.ballots ⊆ b.ballots) (hk : a.acks ⊆ b.acks) :
    Grows τ a b :=
  ⟨ht, fun _ _ h => hw ▸ h, fun t _ _ => by rw [hc],
    fun t _ _ i e hi he => absurd (List.getElem?_eq_some_iff.mp (hc ▸ he)).1 (not_lt.mpr hi), hr, hb, hk⟩

/-- The terms do not decrease when a member's record is replaced by one whose term is no smaller. -/
theorem put_term_le (a : State ι T E) (v : ι) (m : Member ι T E) (hm : (a.member v).term ≤ m.term) (u : ι) :
    (a.member u).term ≤ ((a.put v m).member u).term := by
  by_cases hu : u = v
  · subst hu
    simpa using hm
  · simp [hu]

/-- Every step from a state whose elections are safe leads to a later state. -/
theorem Elections.grows {strict : Prop} {a b : State ι T E} (h : Elections 𝓠 a) (hs : Step τ 𝓠 strict a b) :
    Grows τ a b := by
  cases hs with
  | adopt v t ht =>
    exact Grows.of_eq (put_term_le a v _ ht.le) rfl rfl subset_rfl subset_rfl subset_rfl
  | yield v _ => exact Grows.of_eq (put_term_le a v _ le_rfl) rfl rfl subset_rfl subset_rfl subset_rfl
  | campaign v t ht =>
    exact Grows.of_eq (put_term_le a v _ ht.le) rfl rfl subset_rfl (Set.subset_insert _ _) subset_rfl
  | ask v => exact Grows.of_eq (fun _ => le_rfl) rfl rfl (Set.subset_insert _ _) subset_rfl subset_rfl
  | grant v c L _ _ _ =>
    exact Grows.of_eq (put_term_le a v _ le_rfl) rfl rfl subset_rfl (Set.subset_insert _ _) subset_rfl
  | elect c Q hc hQ hb =>
    have hnone := h.no_winner hc hQ hb
    have hne : ∀ t w, a.winner t = some w → t ≠ (a.member c).term := by
      rintro t w hw rfl
      simp [hnone] at hw
    refine ⟨put_term_le a c _ le_rfl, ?_, ?_, ?_, subset_rfl, subset_rfl, subset_rfl⟩
    · intro t w hw
      simpa [hne t w hw] using hw
    · intro t w hw
      simp [hne t w hw]
    · intro t w hw i e hi he
      simp only [Function.update_of_ne (hne t w hw)] at he
      exact absurd (List.getElem?_eq_some_iff.mp he).1 (not_lt.mpr hi)
  | append c e _ hte =>
    refine ⟨put_term_le a c _ le_rfl, fun _ _ hw => hw, ?_, ?_, subset_rfl, subset_rfl, subset_rfl⟩
    · intro t w _
      by_cases ht : t = (a.member c).term
      · subst ht
        simp
      · simp [ht]
    · intro t w _ i x hi hx
      by_cases ht : t = (a.member c).term
      · subst ht
        simp only [Function.update_self] at hx
        rw [List.getElem?_append_right hi] at hx
        obtain rfl : x = e := List.mem_singleton.mp (List.mem_of_getElem? hx)
        exact hte
      · simp only [Function.update_of_ne ht] at hx
        exact absurd (List.getElem?_eq_some_iff.mp hx).1 (not_lt.mpr hi)
  | save v => exact Grows.of_eq (put_term_le a v _ le_rfl) rfl rfl subset_rfl subset_rfl subset_rfl
  | confirm c k _ _ => exact Grows.of_eq (fun _ => le_rfl) rfl rfl subset_rfl subset_rfl (Set.subset_insert _ _)
  | keep v w k _ _ _ _ => exact Grows.of_eq (fun _ => le_rfl) rfl rfl subset_rfl subset_rfl (Set.subset_insert _ _)
  | replace v w k _ _ _ _ =>
    exact Grows.of_eq (put_term_le a v _ le_rfl) rfl rfl subset_rfl subset_rfl (Set.subset_insert _ _)
  | crash v => exact Grows.of_eq (put_term_le a v _ le_rfl) rfl rfl subset_rfl subset_rfl subset_rfl

end

end Consensus
