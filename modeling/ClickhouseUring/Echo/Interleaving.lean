import ClickhouseUring.Echo.Protocol

/-!
# Interleaved steps of the echo

Where the two programs can be at the same time (`Phases`), and what a step does to the bytes under
way: it moves them from one place to the next and never changes their order (`Moves.request`,
`Moves.answer`).
-/

namespace ClickhouseUring.Echo

/-! ## What is under way -/

attribute [simp] Stream.push Stream.pop Stream.close Client.finished

@[simp] def Client.sending : Client → List UInt8
  | .send bytes => bytes
  | _ => []

@[simp] def Client.writing : Client → List UInt8
  | .write bytes => bytes
  | _ => []

@[simp] def Server.writing : Server → List UInt8
  | .write bytes => bytes
  | _ => []

@[simp] def Server.sending : Server → List UInt8
  | .send bytes => bytes
  | _ => []

/-- Before its `shutdown`. -/
@[simp] def Client.requesting : Client → Bool
  | .read | .send _ | .shutdown => true
  | _ => false

/-- In its second loop. -/
@[simp] def Client.receiving : Client → Bool
  | .recv | .write _ => true
  | _ => false

/-- Before it opens `response.txt` for the second time. -/
@[simp] def Server.storing : Server → Bool
  | .openResponse | .read | .write _ | .openReply => true
  | _ => false

@[simp] def Server.finished : Server → Bool
  | .done _ | .killed => true
  | _ => false

/-- Both programs have come to an end. -/
def State.Finished (s : State) : Prop := s.client.finished = true ∧ s.server.finished = true

/-- What is still to be stored in `response.txt`. -/
def State.request (s : State) : List UInt8 :=
  s.server.writing ++ (s.up.bytes ++ (s.client.sending ++ s.temp))

/-- What is still to be stored in `recv.txt`, where the server answers with `all`. -/
def State.answer (all : List UInt8) (s : State) : List UInt8 :=
  s.client.writing ++ (s.down.bytes ++
    if s.server.storing then all else s.server.sending ++ s.reply)

/-- What the server sends back. -/
def echo (temp : List UInt8) (response : Option (List UInt8)) : List UInt8 :=
  response.elim [] fun content => temp ++ content.drop temp.length

/-- What `test` of `server.c` returns. -/
def serverStatus (response : Option (List UInt8)) : ℤ := if response.isSome then 0 else -1

/-- A step of one of the two programs in which nothing goes wrong. -/
def Event.regular : Event → Bool
  | .client _ | .server _ => true
  | _ => false

/-- The answer is what a run of the four loops alone leaves in `recv.txt`. -/
theorem echo_eq_received {temp content : List UInt8} (r : Run temp content) :
    echo temp (some content) = r.received := (received_eq r).symm

variable {capUp capDown : ℕ} {s s' : State} {e : Event} {temp : List UInt8}
  {response recv : Option (List UInt8)}

/-! ## Where the parties can be together -/

structure Phases (s : State) : Prop where
  shut : s.up.closed = !s.client.requesting
  temp_nil : s.client = .shutdown ∨ s.client.requesting = false → s.temp = []
  up_nil : s.server.storing = false ∨ s.server = .openReply →
    s.up.bytes = [] ∧ s.up.closed = true
  quiet : s.server.storing = true → s.down.bytes = [] ∧ s.reply = []
  closed : s.down.closed = s.server.finished
  killed : s.server = .killed → s.client.finished = true
  unopened : s.client.requesting = true ∨ s.client = .openRecv → s.opened = false
  opened : s.client.receiving = true → s.opened = true
  replying : s.server.storing = false → s.server.finished = false → s.response ≠ none

theorem phases_init : Phases (.init temp response recv) := by
  constructor <;> simp [State.init]

section Phases

variable (h : Moves s e s')
include h

theorem Moves.shut (hs : s.up.closed = !s.client.requesting) :
    s'.up.closed = !s'.client.requesting := by
  cases h <;> simp_all

theorem Moves.temp_nil (hs : s.client = .shutdown ∨ s.client.requesting = false → s.temp = []) :
    s'.client = .shutdown ∨ s'.client.requesting = false → s'.temp = [] := by
  cases h <;> simp_all

theorem Moves.up_nil (hshut : s.up.closed = !s.client.requesting)
    (hs : s.server.storing = false ∨ s.server = .openReply →
      s.up.bytes = [] ∧ s.up.closed = true) :
    s'.server.storing = false ∨ s'.server = .openReply →
      s'.up.bytes = [] ∧ s'.up.closed = true := by
  cases h <;> simp_all

theorem Moves.quiet (hs : s.server.storing = true → s.down.bytes = [] ∧ s.reply = []) :
    s'.server.storing = true → s'.down.bytes = [] ∧ s'.reply = [] := by
  cases h <;> simp_all

theorem Moves.closed (hs : s.down.closed = s.server.finished) :
    s'.down.closed = s'.server.finished := by
  cases h <;> simp_all

theorem Moves.killed (hs : s.server = .killed → s.client.finished = true) :
    s'.server = .killed → s'.client.finished = true := by
  cases h <;> simp_all

theorem Moves.unopened
    (hs : s.client.requesting = true ∨ s.client = .openRecv → s.opened = false) :
    s'.client.requesting = true ∨ s'.client = .openRecv → s'.opened = false := by
  cases h <;> simp_all

theorem Moves.opened (hs : s.client.receiving = true → s.opened = true) :
    s'.client.receiving = true → s'.opened = true := by
  cases h <;> simp_all

theorem Moves.replying
    (hs : s.server.storing = false → s.server.finished = false → s.response ≠ none) :
    s'.server.storing = false → s'.server.finished = false → s'.response ≠ none := by
  cases h <;> simp_all

theorem Moves.phases (hs : Phases s) : Phases s' where
  shut := h.shut hs.shut
  temp_nil := h.temp_nil hs.temp_nil
  up_nil := h.up_nil hs.shut hs.up_nil
  quiet := h.quiet hs.quiet
  closed := h.closed hs.closed
  killed := h.killed hs.killed
  unopened := h.unopened hs.unopened
  opened := h.opened hs.opened
  replying := h.replying hs.replying

end Phases

/-- A client that is gone stays away. -/
theorem Moves.finished (h : Moves s e s') (hs : s.client.finished = true) :
    s'.client.finished = true := by
  cases h <;> simp_all

/-- A `send` or `write` under way has bytes to hand over. -/
def State.Pending (s : State) : Prop :=
  (s.client ≠ .send [] ∧ s.client ≠ .write []) ∧ s.server ≠ .send [] ∧ s.server ≠ .write []

theorem take_ne_nil {bytes : List UInt8} {n : ℕ} (hn : n ≠ 0) (hlen : n ≤ bytes.length) :
    bytes.take n ≠ [] := by
  intro h
  have := congrArg List.length h
  rw [List.length_take, List.length_nil] at this
  omega

theorem drop_ne_nil {bytes : List UInt8} {n : ℕ} (hlen : n < bytes.length) :
    bytes.drop n ≠ [] := by
  rw [ne_eq, List.drop_eq_nil_iff]
  omega

theorem Moves.pending (hs : s.Pending) (h : Moves s e s') : s'.Pending := by
  unfold State.Pending at hs ⊢
  cases h with
  | clientRead hc hr hn => simp [hs, take_ne_nil hn hr.2.1]
  | clientSend hc hn hlen => simp [hs, drop_ne_nil hlen]
  | clientRecv hc hr hn => simp [hs, take_ne_nil hn hr.2.1]
  | serverRead hc hr hn => simp [hs, take_ne_nil hn hr.2.1]
  | serverReadReply hc hr hn => simp [hs, take_ne_nil hn hr.2.1]
  | serverSend hc hgone hn hlen => simp [hs, drop_ne_nil hlen]
  | serverLose hc hgone hn hlen => simp [hs, drop_ne_nil hlen]
  | _ => simp [hs]

/-! ## The bytes -/

theorem take_append_drop_append (n : ℕ) (bytes rest : List UInt8) :
    bytes.take n ++ (bytes.drop n ++ rest) = bytes ++ rest := by
  rw [← List.append_assoc, List.take_append_drop]

theorem map_write_nil (f : Option File) : f.map (fun f => f.write []) = f := by
  cases f with
  | none => rfl
  | some f => rw [Option.map_some, File.write_nil]

/-- A step stores the first bytes of the request, often none. -/
theorem Moves.request (h : Moves s e s') : ∃ bytes,
    s'.response = s.response.map (fun f => f.write bytes) ∧ s.request = bytes ++ s'.request := by
  unfold State.request
  cases h with
  | serverWrite hc => exact ⟨_, rfl, by simp [hc]⟩
  | _ => exact ⟨[], (map_write_nil _).symm, by simp [take_append_drop_append, *]⟩

/-- What a run has made of `recv.txt`: `got` since its open, and nothing before it. -/
def State.Stored (recv : Option (List UInt8)) (got : List UInt8) (s : State) : Prop :=
  if s.opened then s.recv = some ((File.opened []).write got)
  else s.recv = recv.map File.opened ∧ got = []

theorem State.Stored.of_unopened {got : List UInt8} (hs : s.Stored recv got)
    (hopened : s.opened = false) : s.recv = recv.map File.opened ∧ got = [] := by
  unfold State.Stored at hs
  rwa [hopened, if_neg Bool.false_ne_true] at hs

theorem State.Stored.of_opened {got : List UInt8} (hs : s.Stored recv got)
    (hopened : s.opened = true) : s.recv = some ((File.opened []).write got) := by
  unfold State.Stored at hs
  rwa [if_pos hopened] at hs

/-- A step that leaves `recv.txt` alone. -/
theorem State.Stored.of_eq {got : List UInt8} (hs : s.Stored recv got) (hrecv : s'.recv = s.recv)
    (hopened : s'.opened = s.opened) : s'.Stored recv (got ++ []) := by
  unfold State.Stored at hs ⊢
  rw [hrecv, hopened, List.append_nil]
  exact hs

/-- A write to the open file. -/
theorem State.Stored.write {got bytes : List UInt8} (hs : s.Stored recv got)
    (hopened : s.opened = true) (hrecv : s'.recv = s.recv.map fun f => f.write bytes)
    (hopened' : s'.opened = s.opened) : s'.Stored recv (got ++ bytes) := by
  unfold State.Stored
  rw [hopened', if_pos hopened, hrecv, hs.of_opened hopened, Option.map_some, File.write_write]

/-- A step stores the first bytes of the answer; those after them stay, as long as the client is
there to store them. -/
theorem Moves.answer {all got : List UInt8} (hs : Phases s) (h : Moves s e s')
    (hgot : s.Stored recv got)
    (hall : s.server = .openReply → (s.response.elim [] fun f => f.content) = all) :
    ∃ bytes, s'.Stored recv (got ++ bytes) ∧
      (bytes = [] ∨ s.client.finished = false ∧ bytes <+: s.answer all) ∧
      (s'.client.finished = false → s.answer all = bytes ++ s'.answer all) := by
  unfold State.answer
  cases h with
  | clientOpen hc =>
    refine ⟨[], ?_, .inl rfl, by simp [hc]⟩
    obtain ⟨-, rfl⟩ := hgot.of_unopened (hs.unopened (.inr hc))
    exact congrArg some (File.write_nil _).symm
  | @clientWrite n bytes hc =>
    refine ⟨bytes, hgot.write (hs.opened (hc ▸ rfl)) rfl rfl, .inr ⟨hc ▸ rfl, ?_⟩, by simp [hc]⟩
    rw [hc]
    exact List.prefix_append _ _
  | @writeFault n bytes hc hn =>
    refine ⟨bytes.take n, hgot.write (hs.opened (hc ▸ rfl)) rfl rfl, .inr ⟨hc ▸ rfl, ?_⟩, by simp⟩
    rw [hc]
    exact (List.take_prefix n bytes).trans (List.prefix_append _ _)
  | serverNoReply hc hf =>
    have hnil : all = [] := by rw [← hall hc, hf]; rfl
    have hreply := (hs.quiet (hc ▸ rfl)).2
    exact ⟨[], hgot.of_eq rfl rfl, .inl rfl, by simp [hc, hnil, hreply]⟩
  | @serverOpenReply n f hc hf =>
    have hcontent : f.content = all := by rw [← hall hc, hf]; rfl
    exact ⟨[], hgot.of_eq rfl rfl, .inl rfl, by simp [hc, hcontent]⟩
  | _ =>
    exact ⟨[], hgot.of_eq rfl rfl, .inl rfl, by simp_all [take_append_drop_append]⟩

end ClickhouseUring.Echo
