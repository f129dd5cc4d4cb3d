import RaftStore.Theorems.Sessions

/-!
# How many nodes a request asks

`sendClientRequest` counts an attempt for each answer that it cannot use, and none for a redirect: the `continue` comes before the
counter. It returns with the first reply of the status `OK`, or with the third answer that is neither that nor a redirect. Nodes that
redirect to each other, or all to one that is no leader, keep it asking for ever.
-/

namespace RaftStore

variable {msg reply : Json} {c : Asked} {p : Sending} {leaderId : ℤ}

/-! ## Redirects -/

/-- The `leaderId` that a reply with the status `redirect` names. -/
def Json.redirect (reply : Json) : Option ℤ :=
  match reply.member "status" with
  | .ok status => if status.isLit "redirect" then (reply.value Json.getInt "leaderId" (-1)).toOption else none
  | .error _ => none

/-- The `leaderId` that the answer to a call names, where it is a redirect. -/
def Asked.redirect (msg : Json) (c : Asked) : Option ℤ :=
  c.answer.bind fun v => if msg.dumps then (v.handle msg).2.redirect else none

/-- A status is not both. -/
theorem isLit_redirect {status : Json} (h : status.isLit "redirect" = true) : status.isLit "OK" = false := by
  cases status with
  | str t =>
    have ht : t = ascii "redirect" := of_decide_eq_true h
    rw [ht]
    decide
  | _ => cases h

namespace Sending

theorem follow_redirect {random : ℕ} (h : reply.redirect = some leaderId) : p.follow random reply =
    .ok (.inl { p with currentNode := if leaderId = -1 then (random % raftNodes : ℕ) else leaderId }) := by
  unfold Json.redirect at h
  unfold follow
  cases hs : reply.member "status" with
  | error e =>
    rw [hs] at h
    cases h
  | ok status =>
    rw [hs] at h
    simp only [Except.bind] at h ⊢
    split at h
    · next hr =>
      rw [if_neg (by rw [isLit_redirect hr]; decide), if_pos hr]
      cases hv : reply.value Json.getInt "leaderId" (-1) with
      | error e =>
        rw [hv] at h
        cases h
      | ok leaderId' =>
        rw [hv] at h
        obtain rfl := Option.some.inj h
        rfl
    · cases h

/-- A redirect is followed, and counts for nothing. -/
theorem turn_redirect (h : c.redirect msg = some leaderId) : p.turn msg c =
    .inl { p with currentNode := if leaderId = -1 then (c.random % raftNodes : ℕ) else leaderId } := by
  obtain ⟨v, hv, hr⟩ := Option.bind_eq_some_iff.mp h
  split at hr
  · next hd =>
    unfold turn
    simp only [hv, hd, if_true, follow_redirect hr]
  · cases hr

/-- What is neither a redirect nor a reply with the status `OK` counts as an attempt. -/
theorem follow_other {random : ℕ} (hr : reply.redirect = none) (hok : reply.isOk = false) :
    p.follow random reply = .ok (.inl (p.retry random)) ∨ ∃ e, p.follow random reply = .error e := by
  unfold Json.redirect at hr
  unfold Json.isOk at hok
  unfold follow
  cases hs : reply.member "status" with
  | error e => exact .inr ⟨e, rfl⟩
  | ok status =>
    rw [hs] at hr hok
    simp only [Except.bind] at hr hok ⊢
    rw [if_neg (by rw [hok]; decide)]
    split at hr
    · next hlit =>
      rw [if_pos hlit]
      cases hv : reply.value Json.getInt "leaderId" (-1) with
      | error e => exact .inr ⟨e, rfl⟩
      | ok leaderId =>
        rw [hv] at hr
        cases hr
    · next hlit =>
      rw [if_neg hlit]
      exact .inl rfl

theorem turn_other (hr : c.redirect msg = none) (hs : ∀ reply, ¬c.Serves msg reply) : ∃ node, p.turn msg c = .inl (p.retry node) := by
  unfold Asked.redirect at hr
  unfold turn
  split
  · exact ⟨_, rfl⟩
  · next v hv =>
    rw [hv, Option.bind_some] at hr
    by_cases hd : msg.dumps = true
    · rw [if_pos hd] at hr ⊢
      have hok : (v.handle msg).2.isOk = false := Bool.eq_false_iff.mpr fun hok => hs _ ⟨v, hv, hd, rfl, hok⟩
      have hfollow : p.follow c.random (v.handle msg).2 = .ok (.inl (p.retry c.random)) ∨
          ∃ e, p.follow c.random (v.handle msg).2 = .error e := follow_other hr hok
      rcases hfollow with hf | ⟨e, hf⟩
      · exact ⟨_, by rw [hf]⟩
      · exact ⟨_, by rw [hf]⟩
    · rw [if_neg hd]
      exact ⟨_, rfl⟩

end Sending

/-! ## The loop -/

/-- The loop returns within `k` calls of an endless sequence of them. -/
def Sending.ReturnsWithin (msg : Json) (p : Sending) (calls : ℕ → Asked) (k : ℕ) : Prop :=
  ∃ n ≤ k, (sendClientRequest msg p ((List.range n).map calls)).isSome

/-- The redirects among the calls name no node, or one of the nodes. -/
def NamesNodes (msg : Json) (calls : ℕ → Asked) : Prop :=
  ∀ n leaderId, (calls n).redirect msg = some leaderId → -1 ≤ leaderId ∧ leaderId < raftNodes

/-- How many of the first `k` calls are no redirects. -/
def misses (msg : Json) (calls : ℕ → Asked) (k : ℕ) : ℕ := (List.range k).countP fun n => ((calls n).redirect msg).isNone

/-- The first call, and those after it. -/
theorem misses_succ (msg : Json) (calls : ℕ → Asked) (k : ℕ) :
    misses msg calls (k + 1) = misses msg (fun n => calls (n + 1)) k + if ((calls 0).redirect msg).isNone then 1 else 0 := by
  unfold misses
  rw [List.range_succ_eq_map, List.countP_cons, List.countP_map]
  rfl

theorem calls_succ (calls : ℕ → Asked) (n : ℕ) :
    (List.range (n + 1)).map calls = calls 0 :: (List.range n).map fun n => calls (n + 1) := by
  rw [List.range_succ_eq_map, List.map_cons, List.map_map]
  rfl

/-- An attempt more: the loop goes on with the next call. -/
theorem returnsWithin_succ {calls : ℕ → Asked} {p p' : Sending} (hlt : p.attempts < raftNodes)
    (hnode : 0 ≤ p.currentNode ∧ p.currentNode < raftNodes) (ht : p.turn msg (calls 0) = .inl p') (k : ℕ) :
    p.ReturnsWithin msg calls (k + 1) ↔ p'.ReturnsWithin msg (fun n => calls (n + 1)) k := by
  have hzero : sendClientRequest msg p ((List.range 0).map calls) = none := if_pos hlt
  have hsucc (n : ℕ) : sendClientRequest msg p ((List.range (n + 1)).map calls) =
      sendClientRequest msg p' ((List.range n).map fun n => calls (n + 1)) := by
    rw [calls_succ, sendClientRequest, if_pos ⟨hlt, hnode⟩, ht]
  unfold Sending.ReturnsWithin
  constructor
  · rintro ⟨n, hn, hsome⟩
    cases n with
    | zero =>
      rw [hzero] at hsome
      cases hsome
    | succ n => exact ⟨n, Nat.le_of_succ_le_succ hn, by rwa [hsucc] at hsome⟩
  · rintro ⟨n, hn, hsome⟩
    exact ⟨n + 1, Nat.succ_le_succ hn, by rwa [hsucc]⟩

/-- The loop returns within `k` calls exactly where one of them serves the request, or enough of them are no redirects. -/
theorem returnsWithin_iff (k : ℕ) : ∀ (calls : ℕ → Asked) (p : Sending), NamesNodes msg calls →
    0 ≤ p.currentNode ∧ p.currentNode < raftNodes → (p.ReturnsWithin msg calls k ↔
      (∃ n < k, ∃ reply, (calls n).Serves msg reply) ∨ raftNodes ≤ p.attempts + misses msg calls k) := by
  induction k with
  | zero =>
    intro calls p _ _
    have hnone : ¬∃ n < 0, ∃ reply, (calls n).Serves msg reply := fun ⟨_, hn, _⟩ => absurd hn (Nat.not_lt_zero _)
    have hmisses : misses msg calls 0 = 0 := rfl
    have hends : sendClientRequest msg p ((List.range 0).map calls) = if p.attempts < raftNodes then none else some unreachable := rfl
    rw [or_iff_right hnone, hmisses, Nat.add_zero]
    unfold Sending.ReturnsWithin
    constructor
    · rintro ⟨n, hn, hsome⟩
      obtain rfl := Nat.le_zero.mp hn
      by_contra hlt
      rw [hends, if_pos (Nat.lt_of_not_le hlt)] at hsome
      cases hsome
    · intro hle
      refine ⟨0, Nat.le_refl 0, ?_⟩
      rw [hends, if_neg (Nat.not_lt.mpr hle)]
      rfl
  | succ k ih =>
    intro calls p hnames hnode
    have hnames' : NamesNodes msg fun n => calls (n + 1) := fun n leaderId h => hnames (n + 1) leaderId h
    have hserves (h : ∀ reply, ¬(calls 0).Serves msg reply) : (∃ n < k + 1, ∃ reply, (calls n).Serves msg reply) ↔
        ∃ n < k, ∃ reply, (calls (n + 1)).Serves msg reply := by
      constructor
      · rintro ⟨n, hn, reply, hreply⟩
        cases n with
        | zero => exact absurd hreply (h reply)
        | succ n => exact ⟨n, Nat.lt_of_succ_lt_succ hn, reply, hreply⟩
      · rintro ⟨n, hn, hreply⟩
        exact ⟨n + 1, Nat.succ_lt_succ hn, hreply⟩
    rcases Nat.lt_or_ge p.attempts raftNodes with hlt | hge
    · by_cases hs : ∃ reply, (calls 0).Serves msg reply
      · -- the first call serves the request: the loop returns after it
        obtain ⟨reply, hreply⟩ := hs
        refine iff_of_true ⟨1, Nat.succ_le_succ (Nat.zero_le k), ?_⟩ (.inl ⟨0, Nat.succ_pos k, reply, hreply⟩)
        rw [calls_succ, sendClientRequest, if_pos ⟨hlt, hnode⟩, Sending.turn_serves hreply]
        rfl
      · have hno : ∀ reply, ¬(calls 0).Serves msg reply := fun reply h => hs ⟨reply, h⟩
        rw [hserves hno, misses_succ]
        cases hr : (calls 0).redirect msg with
        | some leaderId =>
          obtain ⟨hlow, hhigh⟩ := hnames 0 leaderId hr
          rw [returnsWithin_succ hlt hnode (Sending.turn_redirect hr), ih _ _ hnames' ?_]
          · rfl
          · simp only
            unfold raftNodes at hhigh ⊢
            split <;> omega
        | none =>
          obtain ⟨node, ht⟩ := Sending.turn_other hr hno
          have hcount : (p.retry node).attempts = p.attempts + 1 := rfl
          have hnode' : 0 ≤ (p.retry node).currentNode ∧ (p.retry node).currentNode < raftNodes := by
            unfold Sending.retry raftNodes
            simp only
            omega
          rw [returnsWithin_succ hlt hnode ht, ih _ _ hnames' hnode', hcount, Nat.add_assoc, Nat.add_comm 1]
          rfl
    · refine iff_of_true ⟨0, Nat.zero_le _, ?_⟩ (.inr (Nat.le_add_right_of_le hge))
      have hends : sendClientRequest msg p ((List.range 0).map calls) = some unreachable := if_neg (Nat.not_lt.mpr hge)
      rw [hends]
      rfl

/-- `sendClientRequest` returns within `k` calls exactly where one of the first `k` answers has the status `OK`, or three of them are no
redirects. -/
theorem reply_within_iff {calls : ℕ → Asked} (h : NamesNodes msg calls) (random k : ℕ) :
    (∃ n ≤ k, (({ random := random, calls := (List.range n).map calls } : Requests).reply msg).isSome) ↔
      (∃ n < k, ∃ reply, (calls n).Serves msg reply) ∨ raftNodes ≤ misses msg calls k := by
  have hnode : 0 ≤ ((random % raftNodes : ℕ) : ℤ) ∧ ((random % raftNodes : ℕ) : ℤ) < raftNodes := by
    unfold raftNodes
    omega
  have hiff := returnsWithin_iff k calls { attempts := 0, currentNode := (random % raftNodes : ℕ) } h hnode
  rw [Nat.zero_add] at hiff
  exact hiff

/-- A call that nobody answers. -/
def noAnswer : Asked := { answer := none, random := 0 }

/-- No node can be reached: the third call is the last one. -/
theorem reply_within_unreachable : (∃ n ≤ 3, (({ random := 1, calls := (List.range n).map fun _ => noAnswer } : Requests).reply
      (plainMessage "STATUS")).isSome) ↔
    (∃ n < 3, ∃ reply, noAnswer.Serves (plainMessage "STATUS") reply) ∨ raftNodes ≤ misses (plainMessage "STATUS") (fun _ => noAnswer) 3 :=
  reply_within_iff (show NamesNodes (plainMessage "STATUS") fun _ => noAnswer from fun _ _ h => by cases h) 1 3

/-- A node that is no leader, and knows of no other leader than node 1. -/
def stale : Served where
  node := { RaftNode.create 1 5001 [] { metadata := none, snapshotFile := .absent } with leaderId := 1 }
  metrics := .initial
  store := KVStore.empty
  uptimeSeconds := 0
  result := []

/-- A call that the stale node answers. -/
def astray : Asked := { answer := some stale, random := 0 }

/-- A request that a client sends. -/
def getRequest : Json := .obj [("rpc", .lit "ClientRequest"), ("command", .lit "GET"), ("key", .lit "k")]

/-- The stale node redirects every request to itself: however many calls are allowed for a node, the loop goes on. -/
theorem redirects_endless : ¬∃ multiple, ∀ (msg : Json) (random : ℕ) (calls : ℕ → Asked), NamesNodes msg calls →
    ∃ n ≤ multiple * raftNodes, (({ random := random, calls := (List.range n).map calls } : Requests).reply msg).isSome := by
  rintro ⟨multiple, h⟩
  have hredirect : astray.redirect getRequest = some 1 := by decide +kernel
  have hnames : NamesNodes getRequest fun _ => astray := by
    intro _ leaderId hr
    obtain rfl := Option.some.inj (hredirect.symm.trans hr)
    exact ⟨by decide, by decide⟩
  have hreturns := h getRequest 1 _ hnames
  have hiff := returnsWithin_iff (multiple * raftNodes) _ { attempts := 0, currentNode := ((1 % raftNodes : ℕ) : ℤ) } hnames (by decide)
  rcases hiff.mp hreturns with ⟨_, _, reply, hserves⟩ | hmisses
  · have hturn := Sending.turn_redirect (p := { attempts := 0, currentNode := 0 }) hredirect
    rw [Sending.turn_serves hserves] at hturn
    cases hturn
  · have hzero : misses getRequest (fun _ => astray) (multiple * raftNodes) = 0 := by
      unfold misses
      rw [List.countP_eq_zero]
      intro _ _
      simp [hredirect]
    rw [hzero] at hmisses
    exact absurd hmisses (by decide)

end RaftStore
