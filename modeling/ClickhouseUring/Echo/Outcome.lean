import ClickhouseUring.Echo.Interleaving

/-!
# What every interleaving of the echo comes to

`recv.txt` is what it was until the client opens it.  From then on it is a prefix of the answer in
every state of every run, and all of it once the client ends without a time-out or a fault
(`answer_of_run`).

No interleaving blocks: the client receives nothing before it has shut its side down and the server
sends nothing before it has seen that, so one of the two can go on whatever the streams hold
(`step_progress`).  Every step lowers `State.left`; all runs end, with both programs finished
(`run_ends`).
-/

namespace ClickhouseUring.Echo

variable {capUp capDown : ℕ} {s s' : State} {e : Event} {temp : List UInt8}
  {response recv : Option (List UInt8)}

/-! ## Safety -/

/-- The state of a run in which the server has stored `stored` and the client `got`; `clean` says
that nothing has gone wrong. -/
structure Carried (temp : List UInt8) (response recv : Option (List UInt8)) (clean : Prop)
    (stored got : List UInt8) (s : State) : Prop where
  phases : Phases s
  pending : s.Pending
  stored_eq : s.response = response.map fun content => (File.opened content).write stored
  request_eq : stored ++ s.request = temp
  got_eq : s.Stored recv got
  got_prefix : got <+: echo temp response
  answer_eq : s.client.finished = false → got ++ s.answer (echo temp response) = echo temp response
  status : ∀ c, s.server = .done c → c = serverStatus response ∧ s.reply = []
  ended : clean → s.client.finished = true → s.client = .done 0 ∧ got = echo temp response ∧
    s.opened = true ∧ s.server = .done (serverStatus response)

variable {clean : Prop} {stored got : List UInt8}

theorem carried_init : Carried temp response recv clean [] [] (.init temp response recv) where
  phases := phases_init
  pending := ⟨⟨Client.noConfusion, Client.noConfusion⟩, Server.noConfusion, Server.noConfusion⟩
  stored_eq := by
    cases response with
    | none => rfl
    | some content => exact congrArg some (File.write_nil _).symm
  request_eq := rfl
  got_eq := ⟨rfl, rfl⟩
  got_prefix := List.nil_prefix
  answer_eq _ := rfl
  status _ h := Server.noConfusion h
  ended _ h := Bool.noConfusion h

namespace Carried

/-- When the server opens `response.txt` for the second time, and from then on, the request is in
it. -/
theorem content_eq (hs : Carried temp response recv clean stored got s)
    (hc : s.server.storing = false ∨ s.server = .openReply) :
    (s.response.elim [] fun f => f.content) = echo temp response := by
  obtain ⟨hup, hclosed⟩ := hs.phases.up_nil hc
  have hclient : s.client.requesting = false := by
    rw [hs.phases.shut] at hclosed
    simpa using hclosed
  have hsending : s.client.sending = [] := by
    cases h : s.client <;> simp_all
  have hwriting : s.server.writing = [] := by
    cases h : s.server <;> simp_all
  have hstored : stored = temp := by
    have hreq := hs.request_eq
    unfold State.request at hreq
    rw [hup, hsending, hwriting, hs.phases.temp_nil (.inr hclient)] at hreq
    exact (List.append_nil stored).symm.trans hreq
  rw [hs.stored_eq, hstored]
  cases response with
  | none => rfl
  | some content => exact File.content_write_opened content temp

/-- A client that has seen the end of the answer has stored all of it. -/
theorem got_of_closed (hs : Carried temp response recv clean stored got s) (hc : s.client = .recv)
    (hd : s.down = ⟨[], true⟩) :
    got = echo temp response ∧ s.server = .done (serverStatus response) := by
  have halive : s.client.finished = false := hc ▸ rfl
  have hfinished : s.server.finished = true := by
    rw [← hs.phases.closed, hd]
  obtain ⟨c, hserver⟩ : ∃ c, s.server = .done c := by
    cases h : s.server with
    | done c => exact ⟨c, rfl⟩
    | killed => rw [hs.phases.killed h] at halive; cases halive
    | _ => rw [h] at hfinished; cases hfinished
  obtain ⟨rfl, hreply⟩ := hs.status c hserver
  have hanswer := hs.answer_eq halive
  unfold State.answer at hanswer
  rw [hc, hd, hserver, hreply] at hanswer
  exact ⟨(List.append_nil got).symm.trans hanswer, hserver⟩

end Carried

/-- The server returns -1 exactly when it could not open `response.txt`. -/
theorem Moves.status (hs : Carried temp response recv clean stored got s) (h : Moves s e s') :
    ∀ c, s'.server = .done c → c = serverStatus response ∧ s'.reply = [] := by
  have hold := hs.status
  have hstored := hs.stored_eq
  unfold serverStatus at hold ⊢
  cases h with
  | serverNoReply hc hf =>
    have hnone : response = none := by
      rw [hf] at hstored
      exact Option.map_eq_none_iff.mp hstored.symm
    have hreply := (hs.phases.quiet (hc ▸ rfl)).2
    simp [hnone, hreply]
  | serverReplyEnd hc hr =>
    have hsome : response ≠ none := by
      intro hnone
      rw [hnone] at hstored
      exact hs.phases.replying (hc ▸ rfl) (hc ▸ rfl) hstored
    simp [Option.isSome_iff_ne_none, hsome, hr]
  | _ => first | exact hold | exact fun _ h => Server.noConfusion h

/-- Without time-outs and faults the client ends at the end of the answer only. -/
theorem Moves.ended (hs : Carried temp response recv clean stored got s) (h : Moves s e s')
    (he : clean → e.regular = true) : clean → s'.client.finished = true →
      s'.client = .done 0 ∧ got = echo temp response ∧ s'.opened = true ∧
        s'.server = .done (serverStatus response) := by
  intro hclean
  have hregular := he hclean
  have hold := hs.ended hclean
  cases h with
  | clientRecvEnd hc hr =>
    obtain ⟨hgot, hserver⟩ := hs.got_of_closed hc hr
    exact fun _ => ⟨rfl, hgot, hs.phases.opened (hc ▸ rfl), hserver⟩
  | timeout | openFault | writeFault => cases hregular
  | _ =>
    first
    | exact fun hf => Bool.noConfusion hf
    | exact fun hf => Server.noConfusion ((hold hf).2.2.2.symm.trans ‹s.server = _›)

theorem Carried.step (hs : Carried temp response recv clean stored got s) (h : Moves s e s')
    (he : clean → e.regular = true) : ∃ stored got, Carried temp response recv clean stored got s' := by
  obtain ⟨stored', hresponse, hrequest⟩ := h.request
  obtain ⟨got', hrecv, hgot', hanswer⟩ :=
    h.answer hs.phases hs.got_eq fun hc => hs.content_eq (.inr hc)
  have halive : s'.client.finished = false → s.client.finished = false := by
    intro h'
    by_contra hf
    rw [h.finished (by simpa using hf)] at h'
    cases h'
  have hprefix : got ++ got' <+: echo temp response := by
    obtain rfl | ⟨hf, hgot'⟩ := hgot'
    · rw [List.append_nil]
      exact hs.got_prefix
    · rw [← hs.answer_eq hf]
      exact (List.prefix_append_right_inj got).mpr hgot'
  refine ⟨stored ++ stored', got ++ got', h.phases hs.phases, h.pending hs.pending, ?_, ?_, hrecv,
    hprefix, ?_, h.status hs, ?_⟩
  · rw [hresponse, hs.stored_eq, Option.map_map]
    exact congrArg (Option.map · response) (funext fun f => File.write_write _ _ _)
  · rw [List.append_assoc, ← hrequest, hs.request_eq]
  · intro h'
    rw [List.append_assoc, ← hanswer h', hs.answer_eq (halive h')]
  · intro hclean hf
    obtain ⟨hclient, hgot, hopened, hserver⟩ := h.ended hs he hclean hf
    refine ⟨hclient, hprefix.eq_of_length_le ?_, hopened, hserver⟩
    rw [hgot, List.length_append]
    exact Nat.le_add_right _ _

/-! ## Liveness -/

def Client.rank : Client → ℕ
  | .read | .send _ => 4
  | .shutdown => 3
  | .openRecv => 2
  | .recv | .write _ => 1
  | .done _ => 0

def Server.rank : Server → ℕ
  | .openResponse => 4
  | .read | .write _ => 3
  | .openReply => 2
  | .readReply | .send _ => 1
  | .done _ | .killed => 0

/-- A bound on the number of steps to come, where the server answers with `all`. -/
def State.left (all : List UInt8) (s : State) : ℕ :=
  s.client.rank + s.server.rank + 4 * s.temp.length + 3 * s.client.sending.length +
    2 * s.up.bytes.length + s.server.writing.length +
    (if s.server.storing then 4 * all.length
      else 4 * s.reply.length + 3 * s.server.sending.length) +
    2 * s.down.bytes.length + s.client.writing.length

theorem Moves.left_lt {all : List UInt8} (hs : Phases s) (hp : s.Pending) (h : Moves s e s')
    (hall : s.server = .openReply → (s.response.elim [] fun f => f.content) = all) :
    s'.left all < s.left all := by
  unfold State.left
  unfold State.Pending at hp
  cases h with
  | clientWrite hc =>
    have hlen := List.length_pos_iff.mpr fun hnil => hp.1.2 (hnil ▸ hc)
    simp only [Client.rank, Client.sending, List.length_nil, Nat.mul_zero, Nat.add_zero,
      Server.writing, Server.storing, Server.sending, Client.writing, hc,
      Nat.lt_add_right_iff_pos, gt_iff_lt]
    omega
  | serverWrite hc =>
    have hlen := List.length_pos_iff.mpr fun hnil => hp.2.2 (hnil ▸ hc)
    simp only [Server.rank, Client.sending, Server.writing, List.length_nil, Nat.add_zero,
      Server.storing, ↓reduceIte, Client.writing, hc, Nat.add_lt_add_iff_right,
      Nat.lt_add_right_iff_pos, gt_iff_lt]
    omega
  | serverNoReply hc hf =>
    simp only [Server.rank, Nat.add_zero, Client.sending, Server.writing, List.length_nil,
      Server.storing, Bool.false_eq_true, ↓reduceIte, (hs.quiet (hc ▸ rfl)).2, Nat.mul_zero,
      Server.sending, Stream.close, Client.writing, hc, Nat.add_lt_add_iff_right]
    omega
  | @serverOpenReply n f hc hf =>
    have hcontent : f.content = all := by rw [← hall hc, hf]; rfl
    simp [hc, Server.rank, hcontent]
  | _ => simp_all [Client.rank, Server.rank, ReadsFile, ReadsSocket] <;> omega

/-! ### Progress -/

theorem exists_readsFile (rest : List UInt8) : ∃ n, ReadsFile rest n := by
  refine ⟨min bufSize rest.length, Nat.min_le_left _ _, Nat.min_le_right _ _, fun h => ?_⟩
  rw [bufSize] at h
  exact List.length_eq_zero_iff.mp (by omega)

/-- A read of a socket returns once there are bytes or the stream is closed. -/
theorem exists_readsSocket {t : Stream} (h : t.bytes ≠ [] ∨ t.closed = true) :
    ∃ n, ReadsSocket t n := by
  refine ⟨min bufSize t.bytes.length, Nat.min_le_left _ _, Nat.min_le_right _ _, fun h0 => ?_⟩
  rw [bufSize] at h0
  have hnil : t.bytes = [] := List.length_eq_zero_iff.mp (by omega)
  exact ⟨hnil, h.resolve_left fun hne => hne hnil⟩

theorem takes_one {cap : ℕ} {t : Stream} {bytes : List UInt8} (hbytes : bytes ≠ [])
    (hroom : t.bytes.length < cap) : Takes cap t bytes 1 :=
  ⟨Nat.one_pos, List.length_pos_iff.mpr hbytes, hroom⟩

/-- The server goes on unless it waits for the client. -/
theorem server_progress (hp : s.Pending) (hf : s.server.finished = false)
    (hread : s.server = .read → s.up.bytes ≠ [] ∨ s.up.closed = true)
    (hsend : s.server.storing = false → s.client.finished = false →
      s.down.bytes.length < capDown) :
    ∃ n s', serverStep capDown s n = some s' := by
  unfold serverStep
  cases hc : s.server with
  | openResponse => exact ⟨0, _, rfl⟩
  | read =>
    obtain ⟨n, hn⟩ := exists_readsSocket (hread hc)
    refine ⟨n, ?_⟩
    dsimp only
    rw [if_pos hn]
    split_ifs <;> exact ⟨_, rfl⟩
  | write bytes => exact ⟨0, _, rfl⟩
  | openReply =>
    refine ⟨0, ?_⟩
    cases hf : s.response with
    | none => exact ⟨_, rfl⟩
    | some f => exact ⟨_, rfl⟩
  | readReply =>
    obtain ⟨n, hn⟩ := exists_readsFile s.reply
    refine ⟨n, ?_⟩
    dsimp only
    rw [if_pos hn]
    split_ifs <;> exact ⟨_, rfl⟩
  | send bytes =>
    have hbytes : bytes ≠ [] := fun hnil => hp.2.1 (hnil ▸ hc)
    refine ⟨1, ?_⟩
    dsimp only
    by_cases hgone : s.client.finished = true
    · rw [if_pos hgone, if_pos ⟨Nat.one_pos, List.length_pos_iff.mpr hbytes⟩]
      exact ⟨_, rfl⟩
    · have hroom := hsend (hc ▸ rfl) (by simpa using hgone)
      rw [if_neg hgone, if_pos (takes_one hbytes hroom)]
      exact ⟨_, rfl⟩
  | done c => rw [hc] at hf; cases hf
  | killed => rw [hc] at hf; cases hf

theorem step_progress (hUp : 0 < capUp) (hDown : 0 < capDown) (hs : Phases s) (hp : s.Pending)
    (hf : ¬ s.Finished) :
    ∃ e s', e.regular = true ∧ step capUp capDown s e = some s' := by
  have hclient : ∀ {n s'}, clientStep capUp s n = some s' →
      ∃ e s', e.regular = true ∧ step capUp capDown s e = some s' :=
    fun h => ⟨.client _, _, rfl, h⟩
  have hserver : (∃ n s', serverStep capDown s n = some s') →
      ∃ e s', e.regular = true ∧ step capUp capDown s e = some s' :=
    fun ⟨n, s', h⟩ => ⟨.server n, s', rfl, h⟩
  cases hc : s.client with
  | read =>
    obtain ⟨n, hn⟩ := exists_readsFile s.temp
    by_cases h0 : n = 0
    · exact hclient (by unfold clientStep; rw [hc]; dsimp only; rw [if_pos hn, if_pos h0])
    · exact hclient (by unfold clientStep; rw [hc]; dsimp only; rw [if_pos hn, if_neg h0])
  | send bytes =>
    have hbytes : bytes ≠ [] := fun hnil => hp.1.1 (hnil ▸ hc)
    by_cases hroom : s.up.bytes.length < capUp
    · have htakes := takes_one hbytes hroom
      exact hclient (by unfold clientStep; rw [hc]; dsimp only; rw [if_pos htakes])
    · -- The stream is full, and the server has not seen its end.
      have hopen : s.up.closed = false := by rw [hs.shut, hc]; rfl
      have hstoring : s.server.storing = true := by
        by_contra h
        rw [(hs.up_nil (.inl (by simpa using h))).2] at hopen
        cases hopen
      have hfull : s.up.bytes ≠ [] := by
        intro hnil
        rw [hnil] at hroom
        exact hroom hUp
      refine hserver (server_progress hp ?_ (fun _ => .inl hfull) fun h => ?_)
      · cases h : s.server <;> simp_all
      · rw [hstoring] at h
        cases h
  | shutdown => exact hclient (n := 0) (by unfold clientStep; rw [hc])
  | openRecv => exact hclient (n := 0) (by unfold clientStep; rw [hc])
  | recv =>
    by_cases hready : s.down.bytes ≠ [] ∨ s.down.closed = true
    · obtain ⟨n, hn⟩ := exists_readsSocket hready
      by_cases h0 : n = 0
      · exact hclient (by unfold clientStep; rw [hc]; dsimp only; rw [if_pos hn, if_pos h0])
      · exact hclient (by unfold clientStep; rw [hc]; dsimp only; rw [if_pos hn, if_neg h0])
    · -- There is nothing to receive; the server is still at work, with an empty stream to fill.
      obtain ⟨hnil, hopen⟩ := not_or.mp hready
      have hshut : s.up.closed = true := by rw [hs.shut, hc]; rfl
      refine hserver (server_progress hp ?_ (fun _ => .inr hshut) fun _ _ => ?_)
      · rw [← hs.closed]
        simpa using hopen
      · rw [not_ne_iff.mp hnil]
        exact hDown
  | write bytes => exact hclient (n := 0) (by unfold clientStep; rw [hc])
  | done c =>
    have hshut : s.up.closed = true := by rw [hs.shut, hc]; rfl
    have hgone : s.client.finished = true := hc ▸ rfl
    refine hserver (server_progress hp ?_ (fun _ => .inr hshut) fun _ h => ?_)
    · by_contra h
      exact hf ⟨hgone, by simpa using h⟩
    · rw [hgone] at h
      cases h

/-- When both programs have ended nothing can happen. -/
theorem stuck_of_finished (hf : s.Finished) : Transition.Stuck (step capUp capDown) s := by
  intro e
  obtain ⟨hclient, hserver⟩ := hf
  obtain ⟨c, hc⟩ : ∃ c, s.client = .done c := by
    cases h : s.client <;> simp_all
  cases e with
  | client n => simp [step, clientStep, hc]
  | server n => cases h : s.server <;> simp_all [step, serverStep]
  | timeout => simp [step, timeoutStep, hc]
  | fault n => simp [step, faultStep, hc]
  | sigpipe => cases h : s.server <;> simp_all [step, sigpipeStep]

/-! ## Whole runs -/

section Runs

open Transition

variable {es : List Event}

theorem carried_of_run (h : run (step capUp capDown) (.init temp response recv) es = some s)
    (hclean : clean → ∀ e ∈ es, e.regular = true) :
    ∃ stored got, Carried temp response recv clean stored got s := by
  refine run_of_invariant (I := fun s => ∃ stored got, Carried temp response recv clean stored got s)
    (E := fun e => clean → e.regular = true) ?_ ⟨[], [], carried_init⟩
    (fun e he hc => hclean hc e he) h
  rintro s e s' ⟨stored, got, hs⟩ he hstep
  exact hs.step (moves_of_step hstep) he

/-- **Safety.** In every interleaving, with time-outs, faults and signals, `recv.txt` is as it was
until the client has opened it, and from then on a prefix of the answer.  Where nothing goes wrong,
a client that has ended has all of it, `response.txt` holds the same, and the server has ended
too. -/
theorem answer_of_run (h : run (step capUp capDown) (.init temp response recv) es = some s) :
    (s.opened = false → s.recv.map File.content = recv) ∧
      (s.opened = true → ∃ got, s.recv.map File.content = some got ∧
        got <+: echo temp response) ∧
      ((∀ e ∈ es, e.regular = true) → s.client.finished = true →
        s.client = .done 0 ∧ s.server = .done (serverStatus response) ∧
          s.recv.map File.content = some (echo temp response) ∧
          (s.response.elim [] fun f => f.content) = echo temp response) := by
  obtain ⟨stored, got, hs⟩ := carried_of_run h id
  have hgot (hopened : s.opened = true) : s.recv.map File.content = some got := by
    rw [hs.got_eq.of_opened hopened, Option.map_some, File.content_write_opened, List.drop_nil,
      List.append_nil]
  refine ⟨fun hopened => ?_, fun hopened => ⟨got, hgot hopened, hs.got_prefix⟩,
    fun hclean hf => ?_⟩
  · rw [(hs.got_eq.of_unopened hopened).1, Option.map_map]
    exact Option.map_id_apply
  · obtain ⟨hclient, hall, hopened, hserver⟩ := hs.ended hclean hf
    exact ⟨hclient, hserver, hall ▸ hgot hopened, hs.content_eq (.inl (hserver ▸ rfl))⟩

/-- Two bytes, echoed through a file of three, where the streams have room for one and for two. -/
def twoBytes : List Event :=
  [.server 0, .client 2, .client 1, .server 1, .client 1, .server 0, .server 1, .client 0,
    .client 0, .server 0, .client 0, .server 0, .server 0, .server 3, .server 2, .client 2,
    .server 1, .client 0, .server 0, .client 1, .client 0, .client 0]

theorem answer_of_run_twoBytes : ∃ s,
    run (step 1 2) (.init [104, 105] (some [120, 121, 33]) (some [46])) twoBytes = some s ∧
      s.recv.map File.content = some [104, 105, 33] := by
  refine ⟨_, rfl, ?_⟩
  exact ((@answer_of_run 1 2 _ [104, 105] (some [120, 121, 33]) (some [46]) twoBytes rfl).2.2
    (by decide) rfl).2.2.1

/-- **Liveness.** No run is longer than four steps a byte and eight more; it can stop only when both
programs have ended, and it can get there without a time-out, a fault or a signal. -/
theorem run_ends (hUp : 0 < capUp) (hDown : 0 < capDown)
    (h : run (step capUp capDown) (.init temp response recv) es = some s) :
    es.length ≤ 4 * (temp.length + (echo temp response).length) + 8 ∧
      (Stuck (step capUp capDown) s ↔ s.Finished) ∧
      ∃ fs t, (∀ e ∈ fs, e.regular = true) ∧ run (step capUp capDown) s fs = some t ∧
        t.Finished := by
  let I : State → Prop := fun s => ∃ stored got, Carried temp response recv False stored got s
  have hI : ∀ s e s', I s → step capUp capDown s e = some s' → I s' := by
    rintro s e s' ⟨stored, got, hs⟩ hstep
    exact hs.step (moves_of_step hstep) False.elim
  have hleft : ∀ s e s', I s → step capUp capDown s e = some s' →
      s'.left (echo temp response) < s.left (echo temp response) := by
    rintro s e s' ⟨stored, got, hs⟩ hstep
    exact (moves_of_step hstep).left_lt hs.phases hs.pending fun hc => hs.content_eq (.inr hc)
  have hprogress : ∀ s, I s → ¬ s.Finished →
      ∃ e s', e.regular = true ∧ step capUp capDown s e = some s' := by
    rintro s ⟨stored, got, hs⟩ hf
    exact step_progress hUp hDown hs.phases hs.pending hf
  have hs : I s := carried_of_run h False.elim
  refine ⟨?_, ⟨final_of_stuck hprogress hs, stuck_of_finished⟩,
    exists_completion hI hleft hprogress hs⟩
  have hlen := length_add_le hI hleft ⟨[], [], carried_init⟩ h
  have hinit : (State.init temp response recv).left (echo temp response) =
      4 * (temp.length + (echo temp response).length) + 8 := by
    simp [State.left, State.init, Client.rank, Server.rank]
    omega
  omega

theorem run_ends_twoBytes : ∃ s fs t,
    run (step 1 2) (.init [104, 105] (some [120, 121, 33]) none) (twoBytes.take 5) = some s ∧
      run (step 1 2) s fs = some t ∧ t.Finished := by
  obtain ⟨-, -, fs, t, -, hrun, ht⟩ :=
    @run_ends 1 2 _ [104, 105] (some [120, 121, 33]) none (twoBytes.take 5) (by decide) (by decide)
      rfl
  exact ⟨_, fs, t, rfl, hrun, ht⟩

end Runs

end ClickhouseUring.Echo
