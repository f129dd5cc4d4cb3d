import RaftStore.Lemmas.Site
import RaftStore.Systems.Runs

/-!
# A node on its own

One node with its threads, whatever messages and replies come in and whatever the other nodes of the process have done to the
store before each step. What holds here does not depend on what the peers do.
-/

namespace RaftStore

/-- A node with its threads, the store as its last step has left it, and what it has done. -/
structure Solo where
  site : Site
  store : KVStore
  events : List Event

/-- What happens to a node on its own: an input, over the store that other nodes have left, or over its own (`none`). -/
structure Occurrence where
  input : Input
  store : Option KVStore

namespace Solo

/-- A node that has never run, with an empty store. -/
def create (nodeId port : ℤ) (peers : List ℤ) : Solo where
  site := Site.create nodeId port peers
  store := KVStore.empty
  events := []

/-- One step, in a cluster of `size` nodes. -/
def step (size : ℕ) (x : Solo) (w : Occurrence) : Option Solo :=
  (x.site.step size 0 (w.store.getD x.store) w.input).map fun o =>
    { site := o.site, store := o.store, events := x.events ++ o.events }

/-- The runs whose every step satisfies `P`, a condition on the site and the input. -/
abbrev Run (size : ℕ) (P : Site → Input → Prop) : Solo → Solo → Prop :=
  Systems.Run (step size) (fun x w => P x.site w.input)

/-- Take steps one after the other, each over the store the last one has left. -/
def run (size : ℕ) (P : Site → Input → Prop) [∀ s i, Decidable (P s i)] (x : Solo) (is : List Input) : Option Solo :=
  Systems.runAll (step size) (fun x w => P x.site w.input) x (is.map fun i => { input := i, store := none })

variable {size : ℕ} {P Q : Site → Input → Prop} {x y z : Solo}

/-- What a list of inputs leads to is reached. -/
theorem Run.run [∀ s i, Decidable (P s i)] (h : Run size P x y) {is : List Input} (hr : run size P y is = some z) :
    Run size P x z := h.runAll hr

/-- A run under a condition is one under a weaker condition. -/
theorem Run.mono (hPQ : ∀ s i, P s i → Q s i) (h : Run size P x y) : Run size Q x y :=
  Systems.Run.mono (fun x w => hPQ x.site w.input) h

/-- A step of a sound node is one of the list, and keeps it sound. -/
theorem step_inv (h : x.site.Sound) {w : Occurrence} (hs : x.step size w = some y) :
    ∃ o, Site.Step size 0 x.site (w.store.getD x.store) w.input o ∧ y.site.Sound ∧
      y = { site := o.site, store := o.store, events := x.events ++ o.events } := by
  obtain ⟨o, ho, rfl⟩ := Option.map_eq_some_iff.mp hs
  obtain ⟨hstep, hsound⟩ := h.step ho
  exact ⟨o, hstep, hsound, rfl⟩

/-- Every run keeps a node sound. -/
theorem sound_of_run {R : Solo → Occurrence → Prop} (h : Systems.Run (step size) R x y) (hx : x.site.Sound) :
    y.site.Sound := by
  refine h.invariant (I := fun x : Solo => x.site.Sound) (fun x w y hx _ hs => ?_) hx
  obtain ⟨_, _, hy, _⟩ := step_inv hx hs
  exact hy

end Solo

end RaftStore
