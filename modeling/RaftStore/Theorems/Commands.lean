import RaftStore.Theorems.Sessions
import RaftStore.Wire

/-!
# What a logged command means

`handleClientCommand` writes command, key and value with a blank between them, and `applyToStateMachine` takes the text apart again: two
tokens, and the rest of the line. A quoted key can have blanks, a quoted value can have newlines, and neither comes back.
-/

namespace RaftStore

variable {key value : Str} {s s' : Session} {received sent : Str} {msg : Json}

/-! ## Key and value of a line -/

/-- The `PUT` branch of `handle_client` parses key and value from what is received, and sends them on. -/
def Session.SendsPut (s : Session) (received : Str) (s' : Session) (key value : Str) : Prop :=
  ∃ sent, s.handleLine received = .ok (s', sent, .ask (.put key) (s'.message "PUT" key value)) ∧ (s'.message "PUT" key value).dumps = true

/-- A line asks the nodes with what its command does. -/
theorem handleLine_ask {q : Query} (h : s.handleLine received = .ok (s', sent, .ask q msg)) :
    ∃ command iss, s'.dispatch command iss = .ok (.ask q msg) := by
  unfold Session.handleLine at h
  simp only at h
  split at h
  · cases h
  · split at h
    · cases h
    · obtain ⟨⟨sent', next⟩, _, h⟩ := bind_eq_ok.mp h
      cases next with
      | none => cases h
      | some next =>
        obtain ⟨command, iss⟩ := next
        obtain ⟨act, hd, h⟩ := map_eq_ok.mp h
        cases h
        exact ⟨_, _, hd⟩

/-- A `PUT` without a key is not sent. -/
theorem Session.SendsPut.key_ne_nil (h : s.SendsPut received s' key value) : key ≠ [] := by
  obtain ⟨sent, hline, _⟩ := h
  obtain ⟨command, iss, hd⟩ := handleLine_ask hline
  cases dispatch_ask hd with
  | put =>
    unfold Session.dispatch at hd
    simp only [Except.ok.injEq] at hd
    split at hd
    · cases hd
    · split at hd
      · cases hd
      · next hne =>
        cases hd
        exact fun hnil => hne (.inl hnil)

/-- The request that a node reads in the message of a `PUT`. -/
theorem message_clientRequest (s : Session) (key value : Str) (session : ℕ) : (s.message "PUT" key value).clientRequest session =
    .ok { clientId := clientIdOf s.socket, requestId := s.requestCounter, command := ascii "PUT", key := key, value := value,
          session := session } := rfl

/-! ## Tokens -/

theorem takeToken_eq (t : Str) : takeToken t =
    ((t.dropWhile isSpace).takeWhile (fun c => !isSpace c), (t.dropWhile isSpace).dropWhile (fun c => !isSpace c)) :=
  List.span_eq_takeWhile_dropWhile ..

/-- A token has no blank. -/
theorem takeToken_noSpace (t : Str) : ∀ b ∈ (takeToken t).1, isSpace b = false := by
  intro b hb
  rw [takeToken_eq] at hb
  simpa using List.mem_takeWhile_imp hb

/-- A blank before a token is skipped. -/
theorem takeToken_skip (t : Str) : takeToken (32 :: t) = takeToken t := by
  rw [takeToken_eq, takeToken_eq, List.dropWhile_cons_of_pos (by decide)]

/-- A token without blanks is read back up to the blank after it. -/
theorem takeToken_append {t : Str} (hne : t ≠ []) (ht : ∀ b ∈ t, isSpace b = false) (rest : Str) :
    takeToken (t ++ 32 :: rest) = (t, 32 :: rest) := by
  obtain ⟨c, t, rfl⟩ := List.exists_cons_of_ne_nil hne
  have hdrop : (c :: t ++ 32 :: rest).dropWhile isSpace = c :: t ++ 32 :: rest :=
    List.dropWhile_cons_of_neg (by simp [ht c List.mem_cons_self])
  have hall : ∀ b ∈ c :: t, (!isSpace b) = true := fun b hb => by simp [ht b hb]
  have htake : (32 :: rest).takeWhile (fun c => !isSpace c) = [] := List.takeWhile_cons_of_neg (by decide)
  have hrest : (32 :: rest).dropWhile (fun c => !isSpace c) = 32 :: rest := List.dropWhile_cons_of_neg (by decide)
  rw [takeToken_eq, hdrop, List.takeWhile_append_of_pos hall, List.dropWhile_append_of_pos hall, htake, hrest, List.append_nil]

/-! ## The text of the entry -/

/-- The text of an entry for a `PUT`. -/
def putCommand (key value : Str) : Str := ascii "PUT" ++ [32] ++ key ++ [32] ++ value

theorem takeToken_putCommand (key value : Str) : takeToken (putCommand key value) = (ascii "PUT", 32 :: (key ++ 32 :: value)) := by
  have hput : putCommand key value = ascii "PUT" ++ 32 :: (key ++ 32 :: value) := by simp [putCommand]
  rw [hput, takeToken_append (by decide) (List.all_iff_forall_prop.mp rfl)]

/-- The command of such a text is `PUT`, and the key is the first token behind it. -/
theorem parseCommand_put (key value : Str) : parseCommand (putCommand key value) =
    (ascii "PUT", (takeToken (key ++ 32 :: value)).1, (parseCommand (putCommand key value)).2.2) := by
  unfold parseCommand
  simp only [takeToken_putCommand, takeToken_skip]

/-- With a key without blanks the value is the first line of what follows. -/
theorem parseCommand_value (hne : key ≠ []) (hkey : ∀ b ∈ key, isSpace b = false) :
    (parseCommand (putCommand key value)).2.2 = getline value := by
  have hline : getline (32 :: value) = 32 :: getline value := List.takeWhile_cons_of_pos (by decide)
  unfold parseCommand
  simp only [takeToken_putCommand, takeToken_skip, takeToken_append hne hkey, hline]

/-- A text without newlines is one line. -/
theorem getline_eq_self_iff : getline value = value ↔ 10 ∉ value := by
  unfold getline
  rw [List.takeWhile_eq_self_iff]
  exact ⟨fun h hmem => absurd (h 10 hmem) (by decide), fun h b hb => bne_iff_ne.mpr fun heq => h (heq ▸ hb)⟩

/-- Which keys and values come back. -/
theorem parseCommand_put_iff (hne : key ≠ []) : parseCommand (putCommand key value) = (ascii "PUT", key, value) ↔
    (∀ b ∈ key, isSpace b = false) ∧ 10 ∉ value := by
  constructor
  · intro h
    have htoken : (takeToken (key ++ 32 :: value)).1 = key := by
      rw [parseCommand_put] at h
      exact (Prod.mk.inj (Prod.mk.inj h).2).1
    have hkey : ∀ b ∈ key, isSpace b = false := fun b hb => takeToken_noSpace (key ++ 32 :: value) b (htoken.symm ▸ hb)
    refine ⟨hkey, getline_eq_self_iff.mp ?_⟩
    rw [← parseCommand_value hne hkey, h]
  · rintro ⟨hkey, hval⟩
    rw [parseCommand_put, parseCommand_value hne hkey, takeToken_append hne hkey, getline_eq_self_iff.mpr hval]

/-- On an empty store the call of `put` shows its key and value. -/
theorem put_empty_inj {k v : Str} (h : KVStore.empty.put k v = KVStore.empty.put key value) : k = key ∧ v = value := by
  have hmp : (KVStore.empty.put k v).mp.entries = (KVStore.empty.put key value).mp.entries := by rw [h]
  have hcons : [(⟨k, v⟩ : Sigma fun _ : Str => Str)] = [⟨key, value⟩] := hmp
  cases hcons
  exact ⟨rfl, rfl⟩

/-- The entry of a `PUT` that a client sends is one for `store.put` with its key and value if and only if the key has no blank and the value
no newline. -/
theorem logged_put_iff (h : s.SendsPut received s' key value) (session : ℕ) :
    (∀ req, (s'.message "PUT" key value).clientRequest session = .ok req → ∀ (n : RaftNode) (store : KVStore), n.shutdownRequested = false →
        n.applyToStateMachine store (Site.sendCommand req) = (store.put key value, ascii "OK")) ↔
      (∀ b ∈ key, isSpace b = false) ∧ 10 ∉ value := by
  have hne := h.key_ne_nil
  rw [← parseCommand_put_iff hne]
  have happly (n : RaftNode) (store : KVStore) (hn : n.shutdownRequested = false) : n.applyToStateMachine store (putCommand key value) =
      (store.put (parseCommand (putCommand key value)).2.1 (parseCommand (putCommand key value)).2.2, ascii "OK") := by
    have hcmd : (parseCommand (putCommand key value)).1 = ascii "PUT" := by rw [parseCommand_put]
    unfold RaftNode.applyToStateMachine KVStore.applyCommand
    simp only [hn, Bool.false_eq_true, if_false, hcmd, if_true]
  constructor
  · intro hall
    let n : RaftNode := .create 0 5000 [] { metadata := none, snapshotFile := .absent }
    have hput := hall _ (message_clientRequest s' key value session) n .empty rfl
    have hreq := (happly n .empty rfl).symm.trans hput
    obtain ⟨hkey, hval⟩ := put_empty_inj (Prod.mk.inj hreq).1
    rw [parseCommand_put] at hkey ⊢
    exact Prod.ext rfl (Prod.ext hkey hval)
  · intro hparse req hreq n store hn
    rw [message_clientRequest] at hreq
    cases hreq
    refine (happly n store hn).trans ?_
    rw [hparse]

/-- A session after its first line. -/
def firstLine (line : Str) : Session := { socket := 4, commandHistory := [line], commandCount := 1, requestCounter := 1 }

/-- The line `PUT k v`. -/
theorem sendsPut_plain : (Session.start 4).SendsPut (ascii "PUT k v") (firstLine (ascii "PUT k v")) (ascii "k") (ascii "v") := by
  refine ⟨[], rfl, ?_⟩
  rw [message_dumps _ (isUtf8_of_all rfl), isUtf8_of_all rfl, isUtf8_of_all rfl]
  rfl

theorem logged_put_plain :
    (∀ req, ((firstLine (ascii "PUT k v")).message "PUT" (ascii "k") (ascii "v")).clientRequest 0 = .ok req →
        ∀ (n : RaftNode) (store : KVStore), n.shutdownRequested = false →
          n.applyToStateMachine store (Site.sendCommand req) = (store.put (ascii "k") (ascii "v"), ascii "OK")) ↔
      (∀ b ∈ ascii "k", isSpace b = false) ∧ 10 ∉ ascii "v" :=
  logged_put_iff sendsPut_plain 0

/-- A line with a blank in its key. -/
def quotedLine : Str := ascii "PUT --key \"a b\" --value c"

theorem sendsPut_quoted : (Session.start 4).SendsPut quotedLine (firstLine quotedLine) (ascii "a b") (ascii "c") := by
  refine ⟨[], rfl, ?_⟩
  rw [message_dumps _ (isUtf8_of_all rfl), isUtf8_of_all rfl, isUtf8_of_all rfl]
  rfl

/-- The entry of that line puts the value `b c` under the key `a`. -/
theorem logged_put_torn : ¬∀ (s s' : Session) (received key value : Str), s.SendsPut received s' key value → ∀ (session : ℕ) req,
    (s'.message "PUT" key value).clientRequest session = .ok req → ∀ (n : RaftNode) (store : KVStore), n.shutdownRequested = false →
      n.applyToStateMachine store (Site.sendCommand req) = (store.put key value, ascii "OK") := by
  intro h
  let n : RaftNode := .create 0 5000 [] { metadata := none, snapshotFile := .absent }
  have hput := h _ _ _ _ _ sendsPut_quoted 0 _ (message_clientRequest _ _ _ 0) n .empty rfl
  have hget : (n.applyToStateMachine .empty (putCommand (ascii "a b") (ascii "c"))).1.get (ascii "a") = some (ascii "b c") := by decide
  have hnone : (KVStore.empty.put (ascii "a b") (ascii "c")).get (ascii "a") = none := by decide
  have hboth : some (ascii "b c") = none := hget.symm.trans ((congrArg (fun r => r.1.get (ascii "a")) hput).trans hnone)
  cases hboth

end RaftStore
