import RaftStore.Terms
import RaftStore.Conditions

/-!
# The term never decreases

Seven places raise the term of a node, five of them after a test that is made before the mutex is taken. Where no thread raises the
term past one that another thread has tested and not yet assigned, no thread of `persistMetadata` writes a term that is no longer the
node's unless another one still has to write, and no crash comes before the last of them has written, `currentTerm` never
decreases, and is never behind a term the node has sent.
-/

namespace RaftStore

namespace TermProg

/-- The tested term that a thread is about to assign. -/
def assigned : TermProg → Option ℤ
  | .assign term _ _ => some term
  | _ => none

/-- The term that a thread is about to write to the metadata file. -/
def written : TermProg → Option ℤ
  | .write term _ => some term
  | _ => none

/-- A thread in `persistMetadata` that has yet to read the term, or has read this one and has yet to write it. -/
def owes (currentTerm : ℤ) : TermProg → Bool
  | .gather _ => true
  | .write term _ => term == currentTerm
  | _ => false

/-- The term to which a thread is about to take the node. -/
def raises (currentTerm : ℤ) : TermProg → Option ℤ
  | .assign term _ _ => some term
  | .increment _ => some (currentTerm + 1)
  | .appendEntries term candidate _ =>
    if term < currentTerm then none else if currentTerm < term ∨ candidate then some term else none
  | _ => none

/-- A term is assigned only right after it has been tested, and a term that is not written where it is assigned is written next. -/
def Tested : TermProg → Prop
  | .done => True
  | .ifStale _ yes no => (yes.assigned = none ∧ yes.Tested) ∧ no.assigned = none ∧ no.Tested
  | .ifLater term yes no => ((∀ t ∈ yes.assigned, t = term) ∧ yes.Tested) ∧ no.assigned = none ∧ no.Tested
  | .assign _ persists next => (persists = true ∨ ∃ rest, next = .gather rest) ∧ next.assigned = none ∧ next.Tested
  | .increment next => (∃ rest, next = .gather rest) ∧ next.assigned = none ∧ next.Tested
  | .appendEntries _ _ next | .gather next | .write _ next | .send next => next.assigned = none ∧ next.Tested
  | .recv next => ∀ reply, (next reply).assigned = none ∧ (next reply).Tested

/-- A loop that sends messages, and stops at a reply with a later term. -/
theorem tested_ask {p q : TermProg} {yes : ℤ → TermProg} (hp : p.assigned = none ∧ p.Tested) (hq : q = .send (.recv fun
      | none => p
      | some term => .ifLater term (yes term) p)) (hyes : ∀ term, (∀ t ∈ (yes term).assigned, t = term) ∧ (yes term).Tested) :
    q.assigned = none ∧ q.Tested := by
  subst hq
  refine ⟨rfl, rfl, fun reply => ?_⟩
  cases reply with
  | none => exact hp
  | some term => exact ⟨rfl, hyes term, hp⟩

theorem tested_askVotes (elected : Bool) (peers : ℕ) : (askVotes elected peers).assigned = none ∧ (askVotes elected peers).Tested := by
  induction peers with
  | zero => cases elected <;> simp [askVotes, persistMetadata, assigned, Tested]
  | succ peers ih => exact tested_ask ih rfl (fun term => by simp [assigned, Tested])

theorem tested_sendHeartbeats (messages : ℕ) : (sendHeartbeats messages).assigned = none ∧ (sendHeartbeats messages).Tested := by
  induction messages with
  | zero => simp [sendHeartbeats, assigned, Tested]
  | succ messages ih => exact tested_ask ih rfl (fun term => by simp [persistMetadata, assigned, Tested])

theorem tested_handleClientCommand (committed : Bool) (messages : ℕ) :
    (handleClientCommand committed messages).assigned = none ∧ (handleClientCommand committed messages).Tested := by
  induction messages with
  | zero => cases committed <;> simp [handleClientCommand, persistMetadata, assigned, Tested]
  | succ messages ih => exact tested_ask ih rfl (fun term => by simp [assigned, Tested])

end TermProg

/-- Every thread of the sources tests a term before it assigns it. -/
theorem TermCause.tested (c : TermCause) : c.prog.assigned = none ∧ c.prog.Tested := by
  cases c with
  | requestVote term voteGranted =>
    cases voteGranted <;>
      simp [prog, TermProg.requestVote, TermProg.becomeFollower, TermProg.persistMetadata, TermProg.assigned, TermProg.Tested]
  | appendEntries term candidate => simp [prog, TermProg.handleAppendEntries, TermProg.assigned, TermProg.Tested]
  | installSnapshot term done =>
    cases done <;>
      simp [prog, TermProg.installSnapshot, TermProg.becomeFollower, TermProg.persistMetadata, TermProg.assigned, TermProg.Tested]
  | startElection peers elected => exact ⟨rfl, ⟨_, rfl⟩, rfl, TermProg.tested_askVotes elected peers⟩
  | sendHeartbeats messages => exact TermProg.tested_sendHeartbeats messages
  | clientCommand committed messages => exact TermProg.tested_handleClientCommand committed messages

namespace NodeTerm

variable {n : NodeTerm} {p : TermProg}

/-- A thread that is about to take the node to no other term leaves the term as it is, and sends no other. -/
theorem exec_term (n : NodeTerm) (reply : Option ℤ) (p : TermProg) :
    ((n.exec reply p).1.currentTerm = n.currentTerm ∨ (n.exec reply p).1.currentTerm ∈ p.raises n.currentTerm) ∧
      ∀ t ∈ (n.exec reply p).1.sent, t ∈ n.sent ∨ t = n.currentTerm := by
  cases p with
  | assign term persists next => exact ⟨Or.inr rfl, fun t ht => Or.inl ht⟩
  | increment next => exact ⟨Or.inr rfl, fun t ht => Or.inl ht⟩
  | appendEntries term candidate next =>
    unfold exec TermProg.raises
    simp only
    split
    · exact ⟨Or.inl rfl, fun t ht => Or.inl ht⟩
    · refine ⟨?_, fun t ht => Or.inl ht⟩
      simp only
      split
      · exact Or.inr rfl
      · exact Or.inl rfl
  | send next =>
    refine ⟨Or.inl rfl, fun t ht => ?_⟩
    rcases List.mem_append.mp ht with ht | ht
    · exact Or.inl ht
    · exact Or.inr (List.mem_singleton.mp ht)
  | _ => exact ⟨Or.inl rfl, fun t ht => Or.inl ht⟩

/-- A thread that has only tested terms the node is not past leaves the node in no earlier term, and tests again. -/
theorem exec_tested (n : NodeTerm) (reply : Option ℤ) {p : TermProg} (hp : p.Tested) (ht : ∀ t ∈ p.assigned, n.currentTerm ≤ t) :
    n.currentTerm ≤ (n.exec reply p).1.currentTerm ∧ (n.exec reply p).2.Tested ∧
      ∀ t ∈ (n.exec reply p).2.assigned, (n.exec reply p).1.currentTerm ≤ t := by
  have hnone {q : TermProg} {a b : ℤ} (hq : q.assigned = none ∧ q.Tested) (hle : a ≤ b) :
      a ≤ b ∧ q.Tested ∧ ∀ t ∈ q.assigned, b ≤ t :=
    ⟨hle, hq.2, fun t h => by rw [hq.1] at h; cases h⟩
  cases p with
  | done => exact ⟨le_rfl, trivial, fun t h => by cases h⟩
  | ifStale term yes no =>
    simp only [exec]
    split
    · exact hnone hp.1 le_rfl
    · exact hnone hp.2 le_rfl
  | ifLater term yes no =>
    simp only [exec]
    split
    · next hlt => exact ⟨le_rfl, hp.1.2, fun t h => (hp.1.1 t h).symm ▸ hlt.le⟩
    · exact hnone hp.2 le_rfl
  | assign term persists next => exact hnone hp.2 (ht term rfl)
  | increment next => exact hnone hp.2 (Int.le_add_one le_rfl)
  | appendEntries term candidate next =>
    unfold exec
    simp only
    split
    · exact hnone (q := next) hp le_rfl
    · refine hnone (q := next) hp ?_
      simp only
      split <;> omega
  | gather next => exact hnone (q := .write n.currentTerm next) ⟨rfl, hp⟩ le_rfl
  | write term next | send next => exact hnone (q := next) hp le_rfl
  | recv next => exact hnone (hp reply) le_rfl

/-- After a step the file holds the term, or the thread has yet to write it, or the step has changed neither the term nor the file, or
has written a term that is not the node's. -/
theorem exec_saved (n : NodeTerm) (reply : Option ℤ) {p : TermProg} (hp : p.Tested) :
    (n.exec reply p).1.currentTerm ≤ (n.exec reply p).1.saved ∨
      (n.exec reply p).2.owes (n.exec reply p).1.currentTerm = true ∨
      (n.exec reply p).1.currentTerm = n.currentTerm ∧ ((n.exec reply p).1.saved = n.saved ∧ p.owes n.currentTerm = false ∨
        ∃ t ∈ p.written, t ≠ n.currentTerm) := by
  cases p with
  | assign term persists next =>
    rcases hp.1 with rfl | ⟨rest, rfl⟩
    · exact Or.inl le_rfl
    · exact Or.inr (Or.inl rfl)
  | increment next =>
    obtain ⟨rest, rfl⟩ := hp.1
    exact Or.inr (Or.inl rfl)
  | appendEntries term candidate next =>
    simp only [exec]
    split
    · exact Or.inr (Or.inr ⟨rfl, Or.inl ⟨rfl, rfl⟩⟩)
    · exact Or.inl le_rfl
  | gather next => exact Or.inr (Or.inl (by simp [exec, TermProg.owes]))
  | write term next =>
    by_cases h : term = n.currentTerm
    · exact Or.inl h.ge
    · exact Or.inr (Or.inr ⟨rfl, Or.inr ⟨term, rfl, h⟩⟩)
  | _ => exact Or.inr (Or.inr ⟨rfl, Or.inl ⟨rfl, rfl⟩⟩)

end NodeTerm

namespace Terms

variable {x y : Terms} {a : TermAction}

/-- No thread takes the node past a term that another thread has tested and not yet assigned, or writes a term that is not the node's
unless another thread still has to write it, and the node crashes when no thread has to. -/
def keepsTerm (x : Terms) : TermAction → Prop
  | .start _ => True
  | .go k _ => ∀ p ∈ x.threads[k]?,
      (∀ t ∈ p.raises x.node.currentTerm, ∀ q ∈ x.threads.eraseIdx k, ∀ u ∈ q.assigned, t ≤ u) ∧
      ∀ t ∈ p.written, t ≠ x.node.currentTerm → ∃ q ∈ x.threads.eraseIdx k, q.owes x.node.currentTerm = true
  | .crash => ∀ p ∈ x.threads, p.owes x.node.currentTerm = false

instance (x : Terms) : ∀ a, Decidable (x.keepsTerm a)
  | .start _ => instDecidableTrue
  | .go k _ => inferInstanceAs (Decidable (∀ p ∈ x.threads[k]?,
      (∀ t ∈ p.raises x.node.currentTerm, ∀ q ∈ x.threads.eraseIdx k, ∀ u ∈ q.assigned, t ≤ u) ∧
      ∀ t ∈ p.written, t ≠ x.node.currentTerm → ∃ q ∈ x.threads.eraseIdx k, q.owes x.node.currentTerm = true))
  | .crash => inferInstanceAs (Decidable (∀ p ∈ x.threads, p.owes x.node.currentTerm = false))

/-- Every thread that is about to assign a term has tested one that the node is not past, the metadata file holds the term of the node
unless a thread has yet to write it, and the node has sent no later term. -/
structure Kept (x : Terms) : Prop where
  tested : ∀ p ∈ x.threads, p.Tested ∧ ∀ t ∈ p.assigned, x.node.currentTerm ≤ t
  saved : x.node.currentTerm ≤ x.node.saved ∨ ∃ p ∈ x.threads, p.owes x.node.currentTerm = true
  sent : ∀ t ∈ x.node.sent, t ≤ x.node.currentTerm

theorem kept_init : init.Kept where
  tested _ h := absurd h List.not_mem_nil
  saved := Or.inl le_rfl
  sent _ h := absurd h List.not_mem_nil

/-- A thread after another one has done a step is that one, or was there before. -/
theorem mem_set {l : List TermProg} {k : ℕ} {p q : TermProg} (h : q ∈ l.set k p) : q = p ∨ q ∈ l.eraseIdx k := by
  obtain ⟨j, hj⟩ := List.mem_iff_getElem?.mp h
  by_cases hjk : j = k
  · subst hjk
    rw [List.getElem?_set_self'] at hj
    obtain ⟨_, _, rfl⟩ := Option.map_eq_some_iff.mp hj
    exact Or.inl rfl
  · rw [List.getElem?_set_ne (Ne.symm hjk)] at hj
    exact Or.inr (List.mem_eraseIdx_iff_getElem?.mpr ⟨j, hjk, hj⟩)

/-- The other threads are still there. -/
theorem mem_set_of_eraseIdx {l : List TermProg} {k : ℕ} {q : TermProg} (p : TermProg) (h : q ∈ l.eraseIdx k) : q ∈ l.set k p := by
  obtain ⟨j, hjk, hj⟩ := List.mem_eraseIdx_iff_getElem?.mp h
  exact List.mem_iff_getElem?.mpr ⟨j, by rw [List.getElem?_set_ne (Ne.symm hjk), hj]⟩

/-- A step of one thread. -/
theorem Kept.go (h : x.Kept) {k : ℕ} {reply : Option ℤ} {p : TermProg} (hp : x.threads[k]? = some p) (hk : x.keepsTerm (.go k reply)) :
    (x.go k reply p).Kept ∧ x.node.currentTerm ≤ (x.go k reply p).node.currentTerm := by
  obtain ⟨hraise, hwrite⟩ := hk p hp
  obtain ⟨htested, hassigned⟩ := h.tested p (List.mem_of_getElem? hp)
  obtain ⟨hle, hnext⟩ := x.node.exec_tested reply htested hassigned
  obtain ⟨hterm, hsent⟩ := x.node.exec_term reply p
  have hlt : k < x.threads.length := (List.getElem?_eq_some_iff.mp hp).1
  refine ⟨⟨fun q hq => ?_, ?_, fun t ht => ?_⟩, hle⟩
  · rcases mem_set hq with rfl | hq
    · exact hnext
    · obtain ⟨hqt, hqa⟩ := h.tested q (List.mem_of_mem_eraseIdx hq)
      refine ⟨hqt, fun u hu => ?_⟩
      rcases hterm with heq | hmem
      · exact heq.trans_le (hqa u hu)
      · exact hraise _ hmem q hq u hu
  · rcases x.node.exec_saved reply htested with hsaved | howes | ⟨heq, hor⟩
    · exact Or.inl hsaved
    · exact Or.inr ⟨_, List.mem_set hlt _, howes⟩
    -- the step leaves the term, and what another thread has to write is still to be written
    · have hother : x.node.currentTerm ≤ (x.go k reply p).node.saved ∨
          ∃ q ∈ x.threads.eraseIdx k, q.owes x.node.currentTerm = true := by
        rcases hor with ⟨hsaved, hno⟩ | ⟨t, ht, hne⟩
        · rcases h.saved with hle | ⟨q, hq, howes⟩
          · exact Or.inl (hle.trans_eq hsaved.symm)
          · obtain ⟨j, hj⟩ := List.mem_iff_getElem?.mp hq
            refine Or.inr ⟨q, List.mem_eraseIdx_iff_getElem?.mpr ⟨j, ?_, hj⟩, howes⟩
            rintro rfl
            obtain rfl := Option.some.inj (hj.symm.trans hp)
            rw [hno] at howes
            cases howes
        · exact Or.inr (hwrite t ht hne)
      have heq' : (x.go k reply p).node.currentTerm = x.node.currentTerm := heq
      rw [heq']
      exact hother.imp id fun ⟨q, hq, howes⟩ => ⟨q, mem_set_of_eraseIdx _ hq, howes⟩
  · rcases hsent t ht with ht | rfl
    · exact (h.sent t ht).trans hle
    · exact hle

/-- Every step keeps this, and leaves the node in no earlier term. -/
theorem Kept.step (h : x.Kept) (hk : x.keepsTerm a) (hs : x.step a = some y) : y.Kept ∧ x.node.currentTerm ≤ y.node.currentTerm := by
  cases a with
  | start cause =>
    obtain rfl := Option.some.inj hs
    refine ⟨⟨fun p hp => ?_, ?_, h.sent⟩, le_rfl⟩
    · rcases List.mem_append.mp hp with hp | hp
      · exact h.tested p hp
      · obtain rfl := List.mem_singleton.mp hp
        obtain ⟨hnone, htested⟩ := cause.tested
        exact ⟨htested, fun t ht => by rw [hnone] at ht; cases ht⟩
    · exact h.saved.imp id fun ⟨p, hp, howes⟩ => ⟨p, List.mem_append_left _ hp, howes⟩
  | go k reply =>
    obtain ⟨p, hp, rfl⟩ := Option.map_eq_some_iff.mp hs
    exact h.go hp hk
  | crash =>
    obtain rfl := Option.some.inj hs
    have hsaved : x.node.currentTerm ≤ x.node.saved := by
      rcases h.saved with hle | ⟨p, hp, howes⟩
      · exact hle
      · rw [hk p hp] at howes
        cases howes
    exact ⟨⟨fun p hp => absurd hp List.not_mem_nil, Or.inl le_rfl, fun t ht => (h.sent t ht).trans hsaved⟩, hsaved⟩

/-- `currentTerm` never decreases, and is at least every term the node has sent: in every run from a fresh start in which no thread
takes the term past one that another thread is about to assign, no thread writes a term that was raised since it was read as the last
one, and no crash comes before the term is written. -/
theorem term_monotone (h : Systems.Run step keepsTerm init x) (hy : Systems.Run step keepsTerm x y) :
    x.node.currentTerm ≤ y.node.currentTerm ∧ ∀ t ∈ y.node.sent, t ≤ y.node.currentTerm := by
  have hkept {z : Terms} (hz : Systems.Run step keepsTerm init z) : z.Kept :=
    hz.invariant (fun _ _ _ hz hk hs => (hz.step hk hs).1) kept_init
  refine ⟨?_, (hkept (h.trans hy)).sent⟩
  have hrun : y.Kept ∧ x.node.currentTerm ≤ y.node.currentTerm := by
    refine hy.invariant (I := fun z => z.Kept ∧ x.node.currentTerm ≤ z.node.currentTerm) (fun z a w hz hk hs => ?_)
      ⟨hkept h, le_rfl⟩
    obtain ⟨hw, hle⟩ := hz.1.step hk hs
    exact ⟨hw, hz.2.trans hle⟩
  exact hrun.2

/-- A node asks for votes in term 1, tests the terms of two RequestVote messages, 2 and 3, assigns them in this order, writes them, and
crashes. -/
def followed : List TermAction :=
  [.start (.startElection 1 false), .go 0 none, .go 0 none, .go 0 none, .go 0 none,
    .start (.requestVote 2 false), .start (.requestVote 3 true), .go 1 none, .go 1 none, .go 2 none, .go 2 none,
    .go 1 none, .go 2 none, .go 1 none, .go 1 none, .go 1 none, .go 2 none, .go 2 none, .go 2 none, .go 2 none, .go 2 none, .crash]

theorem followed_term : ∃ y ∈ Systems.runAll step keepsTerm init followed,
    y.node.currentTerm = 3 ∧ y.node.sent = [1, 3, 3] := by
  decide +kernel

/-- In that run the node is in term 3 at the end, after what it has sent. -/
theorem term_monotone_followed : ∃ y ∈ Systems.runAll step keepsTerm init followed,
    y.node.currentTerm = 3 ∧ init.node.currentTerm ≤ y.node.currentTerm ∧ ∀ t ∈ y.node.sent, t ≤ y.node.currentTerm := by
  obtain ⟨y, hy, hterm, _⟩ := followed_term
  exact ⟨y, hy, hterm, term_monotone .refl (Systems.Run.refl.runAll hy)⟩

/-- Two RequestVote messages, of terms 3 and 2, are tested on a node in term 0, and the term of the first one is assigned. -/
def bothTested : List TermAction :=
  [.start (.requestVote 3 false), .start (.requestVote 2 false), .go 0 none, .go 0 none, .go 1 none, .go 1 none, .go 0 none]

theorem bothTested_term : ∃ x ∈ Systems.runAll step (fun _ _ => True) init bothTested,
    ∃ y ∈ x.step (.go 1 none), x.node.currentTerm = 3 ∧ y.node.currentTerm = 2 := by
  decide +kernel

/-- `currentTerm` can decrease: the earlier of two tested terms is assigned last. -/
theorem term_decreases : ¬∀ x a y, Systems.Run step (fun _ _ => True) init x → x.step a = some y →
    x.node.currentTerm ≤ y.node.currentTerm ∧ ∀ t ∈ y.node.sent, t ≤ y.node.currentTerm := by
  intro h
  obtain ⟨x, hx, y, hy, hcx, hcy⟩ := bothTested_term
  have := (h x _ y (Systems.Run.refl.runAll hx) hy).1
  rw [hcx, hcy] at this
  exact absurd this (by decide)

end Terms

/-! ## Threads that nothing interrupts -/

namespace TermProg

/-- What a thread does to a node when nothing comes between its steps and its messages get no reply. -/
def alone : TermProg → NodeTerm → NodeTerm
  | .done, n => n
  | .ifStale term yes no, n => if term < n.currentTerm then yes.alone n else no.alone n
  | .ifLater term yes no, n => if n.currentTerm < term then yes.alone n else no.alone n
  | .gather next, n => next.alone { n with saved := n.currentTerm }
  | .recv next, n => (next none).alone n
  | .assign term persists next, n => next.alone (n.exec none (.assign term persists next)).1
  | .increment next, n => next.alone (n.exec none (.increment next)).1
  | .appendEntries term candidate next, n => next.alone (n.exec none (.appendEntries term candidate next)).1
  | .write term next, n => next.alone (n.exec none (.write term next)).1
  | .send next, n => next.alone (n.exec none (.send next)).1

end TermProg

namespace Terms

variable {x : Terms}

/-- One step of a thread before the rest of it. -/
theorem run_go {k : ℕ} {p q : TermProg} {n z : NodeTerm} (hp : x.threads[k]? = some p)
    (he : x.node.exec none p = (n, q))
    (hrest : ∀ w : Terms, w.threads[k]? = some q → w.node = n →
      ∃ y, Systems.Run step (fun _ _ => True) w y ∧ y.node = z) :
    ∃ y, Systems.Run step (fun _ _ => True) x y ∧ y.node = z := by
  have hlt := (List.getElem?_eq_some_iff.mp hp).1
  obtain ⟨y, hy, hnode⟩ := hrest (x.go k none p) (by rw [go, he, List.getElem?_set_self hlt]) (by rw [go, he])
  have hs : x.step (.go k none) = some (x.go k none p) := by rw [step, hp, Option.map_some]
  exact ⟨y, (Systems.Run.single trivial hs).trans hy, hnode⟩

/-- A thread can do all that it does without an interruption. -/
theorem run_alone {k : ℕ} (p : TermProg) (hp : x.threads[k]? = some p) :
    ∃ y, Systems.Run step (fun _ _ => True) x y ∧ y.node = p.alone x.node := by
  induction p generalizing x with
  | done => exact ⟨x, .refl, rfl⟩
  | ifStale term yes no hyes hno =>
    refine run_go hp rfl (fun w hw hn => ?_)
    rw [← hn] at hw ⊢
    simp only [TermProg.alone]
    split at hw
    · next hc =>
      simp only [hc, if_true]
      exact hyes hw
    · next hc =>
      simp only [hc, if_false]
      exact hno hw
  | ifLater term yes no hyes hno =>
    refine run_go hp rfl (fun w hw hn => ?_)
    rw [← hn] at hw ⊢
    simp only [TermProg.alone]
    split at hw
    · next hc =>
      simp only [hc, if_true]
      exact hyes hw
    · next hc =>
      simp only [hc, if_false]
      exact hno hw
  | gather next ih =>
    refine run_go hp rfl (fun w hw hn => run_go hw rfl (fun v hv hn' => ?_))
    obtain ⟨y, hy, hnode⟩ := ih hv
    exact ⟨y, hy, by rw [hnode, hn', hn, TermProg.alone]⟩
  | recv next ih =>
    refine run_go hp rfl (fun w hw hn => ?_)
    obtain ⟨y, hy, hnode⟩ := ih none hw
    exact ⟨y, hy, by rw [hnode, hn, TermProg.alone]⟩
  | appendEntries term candidate next ih =>
    have he : x.node.exec none (.appendEntries term candidate next) =
        ((x.node.exec none (.appendEntries term candidate next)).1, next) := by
      simp only [NodeTerm.exec]
      split <;> rfl
    refine run_go hp he (fun w hw hn => ?_)
    obtain ⟨y, hy, hnode⟩ := ih hw
    exact ⟨y, hy, by rw [hnode, hn, TermProg.alone]⟩
  | assign term persists next ih | increment next ih | write term next ih | send next ih =>
    refine run_go hp rfl (fun w hw hn => ?_)
    obtain ⟨y, hy, hnode⟩ := ih hw
    exact ⟨y, hy, by rw [hnode, hn, TermProg.alone, NodeTerm.exec]⟩

end Terms

/-- The term of a message. -/
def Request.term : Request → ℤ
  | .requestVote m => m.term
  | .appendEntries m => m.term
  | .installSnapshot m => m.term

namespace RaftNode

variable {n : RaftNode}

/-- The term of a node and the one in its metadata file, with what it has sent. -/
def terms (n : RaftNode) (sent : List ℤ) : NodeTerm :=
  { currentTerm := n.currentTerm, saved := n.saved.currentTerm, sent := sent }

/-- The metadata file of a sound node holds its term. -/
theorem Sound.terms_eq (h : n.Sound) (sent : List ℤ) :
    n.terms sent = { currentTerm := n.currentTerm, saved := n.currentTerm, sent := sent } := by
  rw [terms, h.saved_term]

/-- The thread that handles a message. -/
def cause (n : RaftNode) : Request → TermCause
  | .requestVote m => .requestVote m.term (decide (n.grants m))
  | .appendEntries m => .appendEntries m.term (decide (n.state = .candidate))
  | .installSnapshot m => .installSnapshot m.term m.done

/-- A thread that handles a message alone takes the later one of the two terms, and answers with it. -/
theorem cause_alone (n : RaftNode) (req : Request) (t : ℤ) (sent : List ℤ) :
    (n.cause req).prog.alone { currentTerm := t, saved := t, sent := sent } =
      { currentTerm := max t req.term, saved := max t req.term, sent := sent ++ [max t req.term] } := by
  -- what follows the test for a later term writes the term, if anything, and answers with it
  have hrest (b : Bool) (u : ℤ) : (if b then TermProg.persistMetadata (.send .done) else .send .done).alone
      { currentTerm := u, saved := u, sent := sent } = { currentTerm := u, saved := u, sent := sent ++ [u] } := by
    cases b <;> rfl
  have hhandler (b : Bool) : (TermProg.requestVote req.term b).alone { currentTerm := t, saved := t, sent := sent } =
      { currentTerm := max t req.term, saved := max t req.term, sent := sent ++ [max t req.term] } := by
    simp only [TermProg.requestVote, TermProg.alone, TermProg.becomeFollower, TermProg.persistMetadata, NodeTerm.exec]
    split
    · next hlt => rw [max_eq_left hlt.le]
    · next hge =>
      split
      · next hlt =>
        rw [max_eq_right hlt.le]
        exact hrest b req.term
      · next hle =>
        rw [show max t req.term = t by omega]
        exact hrest b t
  cases req with
  | requestVote m => exact hhandler _
  | installSnapshot m => exact hhandler _
  | appendEntries m =>
    simp only [cause, TermCause.prog, TermProg.handleAppendEntries, TermProg.alone, Request.term, NodeTerm.exec]
    split
    · next hlt => rw [max_eq_left hlt.le]
    · next hge =>
      have hmax : (if t < m.term ∨ decide (n.state = .candidate) = true then m.term else t) = max t m.term := by
        split <;> omega
      rw [hmax]

/-- Every handler takes a node to the later one of the two terms. -/
theorem Sound.handle_term (h : n.Sound) {store : KVStore} {req : Request} {r : Handled} (hr : n.handle store req = some r) :
    r.node.currentTerm = max n.currentTerm req.term := by
  have hsee (t : ℤ) : (n.seeTerm t).currentTerm = max n.currentTerm t := by
    unfold RaftNode.seeTerm
    split
    · next hlt =>
      rw [h.becomeFollower_eq, max_eq_right hlt.le]
      rfl
    · omega
  cases req with
  | requestVote m =>
    obtain rfl := Option.some.inj hr
    unfold RaftNode.handleRequestVote
    simp only
    split
    · next hlt => exact (max_eq_left hlt.le).symm
    · split
      · exact hsee m.term
      · exact hsee m.term
  | appendEntries m =>
    obtain rfl := Option.some.inj hr
    by_cases ht : n.currentTerm ≤ m.term
    · have hterm : (n.stepDown m).currentTerm = m.term := (h.stepDown_role ht).1
      have hrole : (n.handleAppendEntries store m).node.role = (n.stepDown m).role := by
        unfold RaftNode.handleAppendEntries
        rw [if_neg (by simp [h.idle]), if_neg (not_lt.mpr ht)]
        simp only
        split
        · rw [advanceCommit_role, acceptEntries_role]
        · rw [acceptEntries_role]
      exact (congrArg Role.currentTerm hrole).trans (hterm.trans (max_eq_right ht).symm)
    · have hnode : (n.handleAppendEntries store m).node = n :=
        (n.handleAppendEntries_node store m).resolve_right (fun hc => ht hc.1)
      rw [hnode]
      exact (max_eq_left (not_le.mp ht).le).symm
  | installSnapshot m =>
    by_cases ht : n.currentTerm ≤ m.term
    · exact (congrArg Role.currentTerm (handleInstallSnapshot_role hr ht)).trans (hsee m.term)
    · rcases handleInstallSnapshot_node hr with heq | ⟨hle, _⟩
      · rw [heq]
        exact (max_eq_left (not_le.mp ht).le).symm
      · exact absurd hle ht

/-- What a handler does to the term of a node is what its thread does when nothing interrupts it. -/
theorem Sound.handle_terms (h : n.Sound) {store : KVStore} {req : Request} {r : Handled}
    (hr : n.handle store req = some r) (sent : List ℤ) :
    (n.cause req).prog.alone (n.terms sent) = r.node.terms (sent ++ [r.node.currentTerm]) := by
  rw [h.terms_eq, (h.handle hr).1.terms_eq, h.handle_term hr]
  exact n.cause_alone req n.currentTerm sent

/-- The first section of `start_election`, and what is written after it. -/
theorem candidacy_terms (n : RaftNode) (sent : List ℤ) :
    (TermProg.startElection 0 false).alone (n.terms sent) = (Site.candidacy n).terms sent := rfl

/-- The step down for a later term in a reply, in `start_election` and `handleClientCommand`. -/
theorem followReply_terms (n : RaftNode) (t : ℤ) (sent : List ℤ) :
    (TermProg.assign t true .done).alone (n.terms sent) = (n.followReply t).terms sent := rfl

end RaftNode

end RaftStore
