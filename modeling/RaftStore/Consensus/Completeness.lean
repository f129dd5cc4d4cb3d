import RaftStore.Consensus.Matching

/-!
# Committed entries stay

The runs in which members vote only for logs at least as up to date as their own and drop no entry they have acknowledged. An
entry of the chain of a term `t` is *choosable* as long as a quorum has acknowledged it or can still do so, that is, has not left
`t`. A choosable entry of term `t` is on the stable storage of every member that has acknowledged it and in the chain of every
later term that has a winner. A committed entry, which a quorum has acknowledged, stays choosable.
-/

namespace Consensus

variable {ι T E : Type*}

section

variable (τ : E → T)

/-- Position `k - 1` of the chain of `t` holds an entry of term `t`. -/
def Own (a : State ι T E) (t : T) (k : ℕ) : Prop :=
  0 < k ∧ ∃ e, (a.chain t)[k - 1]? = some e ∧ τ e = t

/-- Member `v` has acknowledged `k` entries of the chain of `t`, or more. -/
def Acked (a : State ι T E) (v : ι) (t : T) (k : ℕ) : Prop :=
  ∃ k', k ≤ k' ∧ (v, t, k') ∈ a.acks

variable [LinearOrder T] (𝓠 : QuorumSystem ι)

/-- Each member of a quorum has acknowledged `k` entries of the chain of `t`, or is in no later term and can still do so. -/
def Choosable (a : State ι T E) (t : T) (k : ℕ) : Prop :=
  ∃ Q, 𝓠.IsQuorum Q ∧ ∀ v ∈ Q, Acked a v t k ∨ (a.member v).term ≤ t

/-- A quorum has acknowledged `k` entries of the chain of `t`, the last of which is of term `t`. -/
def Committed (a : State ι T E) (t : T) (k : ℕ) : Prop :=
  Own τ a t k ∧ ∃ Q, 𝓠.IsQuorum Q ∧ ∀ v ∈ Q, Acked a v t k

/-- What keeps committed entries. `ack_stable` and `ballot_kept`: what a member has acknowledged of a choosable piece is on its
stable storage, and was there when it voted in a later term. `later_chain`: a later winner has a choosable piece. -/
structure Completeness (a : State ι T E) : Prop where
  ack_valid : ∀ v t k, (v, t, k) ∈ a.acks →
    t ≤ (a.member v).term ∧ (a.winner t).isSome ∧ k ≤ (a.chain t).length
  ack_stable : ∀ v t k, Acked a v t k → Own τ a t k → Choosable 𝓠 a t k →
    (a.chain t).take k <+: (a.member v).stable
  ballot_kept : ∀ x ∈ a.ballots, ∀ t k, t < x.term → Acked a x.voter t k → Own τ a t k → Choosable 𝓠 a t k →
    (a.chain t).take k <+: x.voterLog
  later_chain : ∀ t t' k, t < t' → (a.winner t').isSome → Own τ a t k → Choosable 𝓠 a t k →
    (a.chain t).take k <+: a.chain t'
  ballot_upToDate : ∀ x ∈ a.ballots, UpToDate τ x.candLog x.voterLog

variable {τ 𝓠}

/-- A committed piece of a chain is choosable. -/
theorem Committed.choosable {a : State ι T E} {t : T} {k : ℕ} (h : Committed τ 𝓠 a t k) : Choosable 𝓠 a t k := by
  obtain ⟨_, Q, hQ, hack⟩ := h
  exact ⟨Q, hQ, fun v hv => Or.inl (hack v hv)⟩

omit [LinearOrder T] in
/-- The own position is within the chain. -/
theorem Own.le_length {a : State ι T E} {t : T} {k : ℕ} (h : Own τ a t k) : k ≤ (a.chain t).length := by
  obtain ⟨hk, e, he, _⟩ := h
  have := (List.getElem?_eq_some_iff.mp he).1
  omega

omit [LinearOrder T] in
/-- What is acknowledged is acknowledged for every shorter piece. -/
theorem Acked.mono {a : State ι T E} {v : ι} {t : T} {k k' : ℕ} (h : Acked a v t k) (hk : k' ≤ k) : Acked a v t k' := by
  obtain ⟨j, hj, hm⟩ := h
  exact ⟨j, hk.trans hj, hm⟩

/-- What was acknowledged stays acknowledged. -/
theorem Acked.grows {a b : State ι T E} (hg : Grows τ a b) {v : ι} {t : T} {k : ℕ} (h : Acked a v t k) : Acked b v t k := by
  obtain ⟨k', hk, hm⟩ := h
  exact ⟨k', hk, hg.acks hm⟩

/-- The first `k` entries of the chain of a term with a winner stay. -/
theorem Grows.take_chain {a b : State ι T E} (hg : Grows τ a b) {t : T} {k : ℕ} (hw : (a.winner t).isSome)
    (hk : k ≤ (a.chain t).length) : (a.chain t).take k = (b.chain t).take k := by
  obtain ⟨w, hw⟩ := Option.isSome_iff_exists.mp hw
  exact prefix_take_eq (hg.chain t w hw) hk

/-- Within the earlier chain, a position is of the chain's own term after the step only if it was before. -/
theorem Grows.own {a b : State ι T E} (hg : Grows τ a b) {t : T} {k : ℕ} (hw : (a.winner t).isSome)
    (hk : k ≤ (a.chain t).length) : Own τ b t k ↔ Own τ a t k := by
  obtain ⟨w, hw⟩ := Option.isSome_iff_exists.mp hw
  refine and_congr_right fun hpos => ?_
  rw [prefix_getElem? (hg.chain t w hw) (show k - 1 < (a.chain t).length by omega)]

/-- A committed piece stays committed. -/
theorem Committed.grows {a b : State ι T E} (hg : Grows τ a b) {t : T} {k : ℕ} (hw : (a.winner t).isSome)
    (h : Committed τ 𝓠 a t k) : Committed τ 𝓠 b t k := by
  obtain ⟨hown, Q, hQ, hack⟩ := h
  exact ⟨(hg.own hw hown.le_length).mpr hown, Q, hQ, fun v hv => (hack v hv).grows hg⟩

/-- The start of a run: nothing is acknowledged, nobody has voted and nobody has won. -/
theorem completeness_init (t₀ : T) : Completeness τ 𝓠 (State.init t₀ : State ι T E) := by
  constructor <;> simp [State.init, Acked]

end

/-! ## What one step can do -/

section

variable [DecidableEq ι] [LinearOrder T] {τ : E → T} {𝓠 : QuorumSystem ι} {a b : State ι T E}

/-- A new acknowledgement is of the chain of its member's term, which the member has on stable storage. -/
theorem Step.acks {strict : Prop} (hs : Step τ 𝓠 strict a b) (he : Elections 𝓠 a) (hl : Logs τ a) {v : ι} {t : T} {k : ℕ}
    (h : (v, t, k) ∈ b.acks) : (v, t, k) ∈ a.acks ∨
      (t = (a.member v).term ∧ (a.winner t).isSome ∧ k ≤ (a.chain t).length ∧
        (a.chain t).take k <+: (b.member v).stable ∧ b.ballots = a.ballots) := by
  cases hs with
  | confirm c j hlead hk =>
    rcases Set.mem_insert_iff.mp h with heq | h
    · obtain ⟨rfl, rfl, rfl⟩ := Prod.mk.injEq .. ▸ heq
      have hchain := hl.lead_chain v hlead
      have hpre := hl.stable_prefix v
      refine Or.inr ⟨rfl, by rw [he.lead_winner v hlead]; rfl, ?_, ?_, rfl⟩
      · rw [← hchain]
        exact hk.trans hpre.length_le
      · rw [← hchain, ← prefix_take_eq hpre hk]
        exact List.take_prefix _ _
    · exact Or.inl h
  | keep u w j hw hne hk hm =>
    rcases Set.mem_insert_iff.mp h with heq | h
    · obtain ⟨rfl, rfl, rfl⟩ := Prod.mk.injEq .. ▸ heq
      refine Or.inr ⟨rfl, by rw [hw]; rfl, hk, ?_, rfl⟩
      rw [hl.stable_log v (he.not_lead hw hne)]
      exact take_prefix_of_take_eq ((hl.log_chained v).take_eq (hl.chain_chained _) hm)
    · exact Or.inl h
  | replace u w j hw hne hk _ =>
    rcases Set.mem_insert_iff.mp h with heq | h
    · obtain ⟨rfl, rfl, rfl⟩ := Prod.mk.injEq .. ▸ heq
      exact Or.inr ⟨rfl, by rw [hw]; rfl, hk, by simp, rfl⟩
    · exact Or.inl h
  | _ => exact Or.inl h

/-- A new ballot keeps the log its voter has, and no acknowledgement comes with it. -/
theorem Step.ballots (hs : Step τ 𝓠 True a b) {x : Ballot ι T E} (h : x ∈ b.ballots) : x ∈ a.ballots ∨
    (x.voterLog = (a.member x.voter).log ∧ UpToDate τ x.candLog x.voterLog) := by
  cases hs with
  | campaign v t _ =>
    rcases Set.mem_insert_iff.mp h with rfl | h
    · refine Or.inr ⟨rfl, ?_⟩
      rcases List.eq_nil_or_concat (a.member v).log with hnil | ⟨l, e, hcat⟩
      · exact Or.inl hnil
      · exact Or.inr ⟨e, e, by simp [hcat], by simp [hcat], Or.inr ⟨rfl, le_rfl⟩⟩
    · exact Or.inl h
  | grant v c L _ _ hu =>
    rcases Set.mem_insert_iff.mp h with rfl | h
    · exact Or.inr ⟨rfl, hu trivial⟩
    · exact Or.inl h
  | _ => exact Or.inl h

/-- Stable storage is kept, or a replacement by a piece of the chain of the member's term stands in its place. -/
theorem Step.stable (hs : Step τ 𝓠 True a b) (hl : Logs τ a) (u : ι) :
    (a.member u).stable <+: (b.member u).stable ∨ ∃ w k, a.winner (a.member u).term = some w ∧
      k ≤ (a.chain (a.member u).term).length ∧ (b.member u).stable = (a.chain (a.member u).term).take k ∧
      ((a.member u).log.length ≤ k ∨ ¬SameTermAt τ (a.member u).log (a.chain (a.member u).term) k) := by
  have hp := hl.stable_prefix u
  cases hs with
  | replace v w k hw _ hk hd =>
    by_cases hu : u = v
    · subst hu
      exact Or.inr ⟨w, k, hw, hk, by simp, hd trivial⟩
    · left
      simp [hu]
  | ask v => exact Or.inl List.prefix_rfl
  | confirm c k _ _ => exact Or.inl List.prefix_rfl
  | keep v w k _ _ _ _ => exact Or.inl List.prefix_rfl
  | adopt v t _ | yield v _ | campaign v t _ | grant v c L _ _ _ | elect v Q _ _ _ | append v e _ _ | save v | crash v =>
    left
    by_cases hu : u = v
    · subst hu
      simp [hp]
    · simp [hu]

/-- What can be chosen after a step could be chosen before it: a new acknowledgement is of its member's own term. -/
theorem Choosable.of_step {strict : Prop} (hs : Step τ 𝓠 strict a b) (he : Elections 𝓠 a) (hl : Logs τ a) {t : T} {k : ℕ}
    (h : Choosable 𝓠 b t k) : Choosable 𝓠 a t k := by
  obtain ⟨Q, hQ, hall⟩ := h
  refine ⟨Q, hQ, fun v hv => ?_⟩
  rcases hall v hv with ⟨k', hk, hm⟩ | hle
  · rcases hs.acks he hl hm with hm | ⟨rfl, _⟩
    · exact Or.inl ⟨k', hk, hm⟩
    · exact Or.inr le_rfl
  · exact Or.inr (((he.grows hs).term v).trans hle)

omit [DecidableEq ι] in
/-- What a member has acknowledged is of a term with a winner, and within its chain. -/
theorem Completeness.acked {a : State ι T E} (h : Completeness τ 𝓠 a) {v : ι} {t : T} {k : ℕ} (hk : Acked a v t k) :
    (a.winner t).isSome ∧ k ≤ (a.chain t).length := by
  obtain ⟨k', hkk, hm⟩ := hk
  obtain ⟨_, hw, hlen⟩ := h.ack_valid v t k' hm
  exact ⟨hw, hkk.trans hlen⟩

omit [DecidableEq ι] in
/-- Of what is acknowledged, what a member drops with a replacement is not choosable. -/
theorem Completeness.replaced (h : Completeness τ 𝓠 a) (hl : Logs τ a) {u w : ι} {t : T} {k j : ℕ}
    (hack : Acked a u t k) (hown : Own τ a t k) (hch : Choosable 𝓠 a t k) (hw : a.winner (a.member u).term = some w)
    (hd : (a.member u).log.length ≤ j ∨ ¬SameTermAt τ (a.member u).log (a.chain (a.member u).term) j) :
    (a.chain t).take k <+: (a.chain (a.member u).term).take j := by
  have hlen := hown.le_length
  have hlog : (a.chain t).take k <+: (a.member u).log := (h.ack_stable u t k hack hown hch).trans (hl.stable_prefix u)
  have hkl : k ≤ (a.member u).log.length := by
    have := hlog.length_le
    rwa [List.length_take, Nat.min_eq_left hlen] at this
  have hchain : (a.chain t).take k <+: a.chain (a.member u).term := by
    obtain ⟨k', _, hm⟩ := hack
    rcases (h.ack_valid u t k' hm).1.lt_or_eq with hlt | rfl
    · exact h.later_chain t _ k hlt (by rw [hw]; rfl) hown hch
    · exact List.take_prefix k _
  have hkj : k ≤ j := by
    rcases hd with hd | hd
    · omega
    · -- were the piece shorter, log and chain would have one term where it ends
      by_contra hlt
      have e1 := prefix_take_eq hlog (k := j) (by rw [List.length_take]; omega)
      have e2 := prefix_take_eq hchain (k := j) (by rw [List.length_take]; omega)
      exact hd (sameTermAt_of_take_eq (by omega) (e1.symm.trans e2))
  exact List.prefix_take_iff.mpr ⟨hchain, by rw [List.length_take]; omega⟩

/-! ## What one step keeps -/

/-- Acknowledgements stay valid. -/
theorem Completeness.ack_valid_step (h : Completeness τ 𝓠 a) (he : Elections 𝓠 a) (hl : Logs τ a) (hs : Step τ 𝓠 True a b)
    {v : ι} {t : T} {k : ℕ} (hm : (v, t, k) ∈ b.acks) :
    t ≤ (b.member v).term ∧ (b.winner t).isSome ∧ k ≤ (b.chain t).length := by
  have hg := he.grows hs
  obtain ⟨ht, hw, hk⟩ : t ≤ (a.member v).term ∧ (a.winner t).isSome ∧ k ≤ (a.chain t).length := by
    rcases hs.acks he hl hm with hm | ⟨rfl, hw, hk, _⟩
    · exact h.ack_valid v t k hm
    · exact ⟨le_rfl, hw, hk⟩
  obtain ⟨w, hw⟩ := Option.isSome_iff_exists.mp hw
  exact ⟨ht.trans (hg.term v), by rw [hg.winner t w hw]; rfl, hk.trans (hg.chain t w hw).length_le⟩

/-- What is acknowledged and choosable stays on stable storage. -/
theorem Completeness.ack_stable_step (h : Completeness τ 𝓠 a) (he : Elections 𝓠 a) (hl : Logs τ a)
    (hs : Step τ 𝓠 True a b) {v : ι} {t : T} {k : ℕ} (hack : Acked b v t k) (hown : Own τ b t k)
    (hch : Choosable 𝓠 b t k) : (b.chain t).take k <+: (b.member v).stable := by
  have hg := he.grows hs
  have hch' := hch.of_step hs he hl
  obtain ⟨k', hkk, hm⟩ := hack
  rcases hs.acks he hl hm with hm | ⟨rfl, hw, hk, hpre, _⟩
  · obtain ⟨hw, hk⟩ := h.acked ⟨k', hkk, hm⟩
    have hown' := (hg.own hw hk).mp hown
    rw [← hg.take_chain hw hk]
    rcases hs.stable hl v with hpre | ⟨w, j, hwin, _, heq, hd⟩
    · exact (h.ack_stable v t k ⟨k', hkk, hm⟩ hown' hch').trans hpre
    · rw [heq]
      exact h.replaced hl ⟨k', hkk, hm⟩ hown' hch' hwin hd
  · rw [← hg.take_chain hw (hkk.trans hk)]
    exact (List.take_prefix_take_left hkk).trans hpre

/-- A ballot of a later term shows what its voter had acknowledged. -/
theorem Completeness.ballot_kept_step (h : Completeness τ 𝓠 a) (he : Elections 𝓠 a) (hl : Logs τ a)
    (hs : Step τ 𝓠 True a b) {x : Ballot ι T E} (hx : x ∈ b.ballots) {t : T} {k : ℕ} (ht : t < x.term)
    (hack : Acked b x.voter t k) (hown : Own τ b t k) (hch : Choosable 𝓠 b t k) :
    (b.chain t).take k <+: x.voterLog := by
  have hg := he.grows hs
  have hch' := hch.of_step hs he hl
  obtain ⟨k', hkk, hm⟩ := hack
  rcases hs.acks he hl hm with hm | ⟨rfl, _, _, _, hbal⟩
  · obtain ⟨hw, hk⟩ := h.acked ⟨k', hkk, hm⟩
    have hown' := (hg.own hw hk).mp hown
    rw [← hg.take_chain hw hk]
    rcases hs.ballots hx with hx | ⟨hlog, _⟩
    · exact h.ballot_kept x hx t k ht ⟨k', hkk, hm⟩ hown' hch'
    · rw [hlog]
      exact (h.ack_stable _ t k ⟨k', hkk, hm⟩ hown' hch').trans (hl.stable_prefix _)
  · -- the voter acknowledges in its own term, and has cast no ballot of a later one
    rw [hbal] at hx
    exact absurd ht (not_lt.mpr (he.ballot_term x hx))

omit [DecidableEq ι] in
/-- The log of a candidate that a quorum has voted for has every choosable piece of an earlier chain: one of its voters has
acknowledged the piece, and the candidate's log is at least as up to date as that voter's. -/
theorem Completeness.elected (h : Completeness τ 𝓠 a) (he : Elections 𝓠 a) (hl : Logs τ a) {c : ι} {Q : Finset ι}
    (hc : (a.member c).cand) (hQ : 𝓠.IsQuorum Q) (hnone : a.winner (a.member c).term = none)
    (hb : ∀ v ∈ Q, ∃ x ∈ a.ballots, x.voter = v ∧ x.term = (a.member c).term ∧ x.candidate = c)
    {t : T} {k : ℕ} (ht : t < (a.member c).term) (hown : Own τ a t k) (hch : Choosable 𝓠 a t k) :
    (a.chain t).take k <+: (a.member c).log := by
  obtain ⟨Q', hQ', hall⟩ := hch
  obtain ⟨v, hv, hv'⟩ := 𝓠.inter hQ hQ'
  obtain ⟨x, hx, rfl, hxt, hxc⟩ := hb v hv
  have hack : Acked a x.voter t k := by
    refine (hall _ hv').resolve_right fun hle => ?_
    exact absurd ((he.ballot_term x hx).trans hle) (not_le.mpr (hxt ▸ ht))
  have hkept := h.ballot_kept x hx t k (hxt ▸ ht) hack hown ⟨Q', hQ', hall⟩
  have hup := h.ballot_upToDate x hx
  rw [hl.ballot_cand c hc hnone x hx hxt hxc] at hup
  have hklen := hown.le_length
  obtain ⟨hkpos, f, hf, hft⟩ := hown
  have hpiece : ∀ {l : List E}, (a.chain t).take k <+: l → l[k - 1]? = some f := by
    intro l hp
    rw [← prefix_getElem? hp (by rw [List.length_take]; omega), List.getElem?_take_of_lt (by omega), hf]
  obtain ⟨_, hvc⟩ := hl.ballot_chained x hx
  have hlc := hl.log_chained c
  rcases hup with hnil | ⟨e, e', hlast, hlast', hcmp⟩
  · rw [hnil] at hkept
    exact hkept.trans (List.nil_prefix)
  · obtain ⟨_, hvp⟩ := hvc.prefix_chain hlast'
    obtain ⟨hw, hlp⟩ := hlc.prefix_chain hlast
    rcases hcmp with hlt | ⟨heq, hle⟩
    · -- the candidate's last entry is of a later term than `t`: that term's chain has the piece
      have hte : t < τ e := by
        refine lt_of_le_of_lt ?_ hlt
        rw [← hft]
        rw [List.getLast?_eq_getElem?] at hlast'
        have := (List.getElem?_eq_some_iff.mp (hpiece hkept)).1
        exact (hl.sorted hvc).le (hpiece hkept) hlast' (by omega)
      have hp := h.later_chain t (τ e) k hte hw ⟨hkpos, f, hf, hft⟩ ⟨Q', hQ', hall⟩
      refine List.prefix_of_prefix_length_le hp hlp ?_
      rw [List.length_take, Nat.min_eq_left hklen]
      by_contra hshort
      have hpos : 0 < (a.member c).log.length := by
        rw [List.length_pos_iff]
        rintro hnil
        simp [hnil] at hlast
      have hi : (a.chain (τ e))[(a.member c).log.length - 1]? = some e := by
        rw [← prefix_getElem? hlp (by omega), ← List.getLast?_eq_getElem?, hlast]
      have := (hl.chain_sorted (τ e)).le hi (hpiece hp) (by omega)
      rw [hft] at this
      exact absurd hte (not_lt.mpr this)
    · rw [← heq] at hvp
      exact hkept.trans (List.prefix_of_prefix_length_le hvp hlp hle)

omit [DecidableEq ι] in
/-- A position past the chain of a term cannot be chosen once a later term has a winner: a quorum has left the term. -/
theorem Completeness.not_choosable (h : Completeness τ 𝓠 a) (he : Elections 𝓠 a) {t t' : T} {k : ℕ} (ht : t < t')
    (hw : (a.winner t').isSome) (hk : (a.chain t).length < k) : ¬Choosable 𝓠 a t k := by
  rintro ⟨Q, hQ, hall⟩
  obtain ⟨w, hw⟩ := Option.isSome_iff_exists.mp hw
  obtain ⟨Q', hQ', hvote⟩ := he.winner_quorum t' w hw
  obtain ⟨v, hv, hv'⟩ := 𝓠.inter hQ hQ'
  rcases hall v hv with hack | hle
  · exact absurd (h.acked hack).2 (by omega)
  · obtain ⟨x, hx, rfl, rfl, _⟩ := hvote v hv'
    exact absurd ((he.ballot_term x hx).trans hle) (not_le.mpr ht)

/-- A later winner has every choosable piece, after the step too. -/
theorem Completeness.later_chain_step (h : Completeness τ 𝓠 a) (he : Elections 𝓠 a) (hl : Logs τ a)
    (hs : Step τ 𝓠 True a b) {t t' : T} {k : ℕ} (ht : t < t') (hw : (b.winner t').isSome) (hown : Own τ b t k)
    (hch : Choosable 𝓠 b t k) : (b.chain t).take k <+: b.chain t' := by
  have hch' := hch.of_step hs he hl
  have hg := he.grows hs
  cases hs with
  | elect c Q hc hQ hb =>
    have hnone := he.no_winner hc hQ hb
    by_cases ht' : t' = (a.member c).term
    · subst ht'
      simp only [Own, Function.update_of_ne ht.ne, Function.update_self] at hown ⊢
      exact h.elected he hl hc hQ hnone hb ht hown hch'
    · by_cases hte : t = (a.member c).term
      · -- the new chain is the candidate's log, which has no entry of a term without a winner
        exfalso
        subst hte
        simp only [Own, Function.update_self] at hown
        obtain ⟨_, e, hf, hft⟩ := hown
        have := (hl.log_chained c _ e hf).1
        rw [hft, hnone] at this
        cases this
      · simp only [Own, Function.update_of_ne ht', Function.update_of_ne hte] at hown hw ⊢
        exact h.later_chain t t' k ht hw hown hch'
  | append c e hlead hte =>
    have hwin := he.lead_winner c hlead
    simp only [State.put_winner] at hw
    obtain ⟨w', hw'⟩ := Option.isSome_iff_exists.mp hw
    refine List.IsPrefix.trans ?_ (hg.chain t' w' hw')
    by_cases htc : t = (a.member c).term
    · subst htc
      have hwc : (a.winner (a.member c).term).isSome := by rw [hwin]; rfl
      by_cases hk : k ≤ (a.chain (a.member c).term).length
      · rw [← hg.take_chain hwc hk]
        exact h.later_chain _ t' k ht hw ((hg.own hwc hk).mp hown) hch'
      · exact absurd hch' (h.not_choosable he ht hw (by omega))
    · simp only [Own, Function.update_of_ne htc] at hown ⊢
      exact h.later_chain t t' k ht hw hown hch'
  | _ => exact h.later_chain t t' k ht hw hown hch'

/-- Every strict step keeps what keeps committed entries. -/
theorem Completeness.step (h : Completeness τ 𝓠 a) (he : Elections 𝓠 a) (hl : Logs τ a) (hs : Step τ 𝓠 True a b) :
    Completeness τ 𝓠 b where
  ack_valid _ _ _ hm := h.ack_valid_step he hl hs hm
  ack_stable _ _ _ hack hown hch := h.ack_stable_step he hl hs hack hown hch
  ballot_kept _ hx _ _ ht hack hown hch := h.ballot_kept_step he hl hs hx ht hack hown hch
  later_chain _ _ _ ht hw hown hch := h.later_chain_step he hl hs ht hw hown hch
  ballot_upToDate x hx := (hs.ballots hx).elim (h.ballot_upToDate x) (fun hn => hn.2)

end

/-! ## Runs -/

section

variable [LinearOrder T]

/-- The state of a run in which nothing is assumed of votes and of what members drop. -/
structure Consistent (τ : E → T) (𝓠 : QuorumSystem ι) (a : State ι T E) : Prop where
  elections : Elections 𝓠 a
  logs : Logs τ a

/-- The state of a run of strict steps. -/
structure Safe (τ : E → T) (𝓠 : QuorumSystem ι) (a : State ι T E) : Prop extends Consistent τ 𝓠 a where
  completeness : Completeness τ 𝓠 a

variable {τ : E → T} {𝓠 : QuorumSystem ι}

theorem safe_init (t₀ : T) : Safe τ 𝓠 (State.init t₀ : State ι T E) where
  elections := elections_init t₀
  logs := logs_init t₀
  completeness := completeness_init t₀

variable [DecidableEq ι] {a b : State ι T E}

/-- Any run keeps elections safe and logs matching, and the history grows along it. -/
theorem Consistent.steps {strict : Prop} (h : Consistent τ 𝓠 a) (hs : Steps τ 𝓠 strict a b) :
    Consistent τ 𝓠 b ∧ Grows τ a b := by
  induction hs with
  | refl => exact ⟨h, Grows.refl a⟩
  | tail _ hs ih =>
    obtain ⟨hc, hg⟩ := ih
    exact ⟨⟨hc.elections.step hs, hc.logs.step hc.elections hs⟩, hg.trans (hc.elections.grows hs)⟩

/-- A run of strict steps keeps committed entries. -/
theorem Safe.steps (h : Safe τ 𝓠 a) (hs : Steps τ 𝓠 True a b) : Safe τ 𝓠 b := by
  induction hs with
  | refl => exact h
  | tail _ hs ih =>
    exact ⟨⟨ih.elections.step hs, ih.logs.step ih.elections hs⟩, ih.completeness.step ih.elections ih.logs hs⟩

omit [DecidableEq ι] in
/-- A committed piece of a chain is in the chain of every later term that has a winner. -/
theorem Safe.committed_later (h : Safe τ 𝓠 a) {t t' : T} {k : ℕ} (hc : Committed τ 𝓠 a t k) (ht : t < t')
    (hw : (a.winner t').isSome) : (a.chain t).take k <+: a.chain t' :=
  h.completeness.later_chain t t' k ht hw hc.1 hc.choosable

omit [DecidableEq ι] in
/-- A committed piece of a chain is on the stable storage of every member of a quorum. -/
theorem Safe.committed_stored (h : Safe τ 𝓠 a) {t : T} {k : ℕ} (hc : Committed τ 𝓠 a t k) :
    ∃ Q, 𝓠.IsQuorum Q ∧ ∀ v ∈ Q, (a.chain t).take k <+: (a.member v).stable := by
  have hch := hc.choosable
  obtain ⟨hown, Q, hQ, hack⟩ := hc
  exact ⟨Q, hQ, fun v hv => h.completeness.ack_stable v t k (hack v hv) hown hch⟩

omit [DecidableEq ι] in
/-- The term of a committed piece has a winner. -/
theorem Safe.committed_winner (h : Safe τ 𝓠 a) {t : T} {k : ℕ} (hc : Committed τ 𝓠 a t k) : (a.winner t).isSome := by
  obtain ⟨_, Q, hQ, hack⟩ := hc
  obtain ⟨v, hv, _⟩ := 𝓠.inter hQ hQ
  exact (h.completeness.acked (hack v hv)).1

omit [DecidableEq ι] in
/-- Of two committed pieces one is a piece of the other. -/
theorem Safe.committed_agree (h : Safe τ 𝓠 a) {t t' : T} {k k' : ℕ} (hc : Committed τ 𝓠 a t k)
    (hc' : Committed τ 𝓠 a t' k') :
    (a.chain t).take k <+: (a.chain t').take k' ∨ (a.chain t').take k' <+: (a.chain t).take k := by
  rcases lt_trichotomy t t' with hlt | rfl | hgt
  · exact List.prefix_or_prefix_of_prefix (h.committed_later hc hlt (h.committed_winner hc')) (List.take_prefix _ _)
  · exact List.prefix_or_prefix_of_prefix (List.take_prefix _ _) (List.take_prefix _ _)
  · exact List.prefix_or_prefix_of_prefix (List.take_prefix _ _) (h.committed_later hc' hgt (h.committed_winner hc))

end

end Consensus
