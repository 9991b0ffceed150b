import ClickhouseUring.UringCopy.Copy

/-!
# Whose completion is taken

The single wait of an iteration takes whatever completion comes first.  In the first iteration of a
loop nothing else is in flight; from the second on the send or the write queued before is submitted
with the read or the receive, and its completion may come first.  So the completions match in every
order of delivery exactly if neither loop gets to a second submission (`matched_iff`).
-/

namespace ClickhouseUring.UringCopy

open Uring

/-- The completion taken is that of the operation just submitted. -/
def Report.Matched : Report → Prop
  | .taken op cqe => cqe.op = op
  | .logError _ => True

/-- The service gives each operation its result. -/
def Gives (res : Op → ℤ) (k : Service Op) : Prop := ∀ r n, ∀ cqe ∈ k.posts r n, cqe.res = res cqe.op

/-- The system gives each operation its result, in an order of its own; `recv.txt` can be opened or
not. -/
structure Turn.Delivers (res : Op → ℤ) (opened : Bool) (t : Turn) : Prop where
  serve : ∀ k, t.serve = .served k → Gives res k
  flush : Gives res t.flush
  opened : t.opened = opened

/-- Every completion taken is the right one, whatever is delivered when. -/
def AllMatched (stSize : ℤ) (res : Op → ℤ) (opened : Bool) : Prop :=
  ∀ ts : List Turn, (∀ t ∈ ts, t.Delivers res opened) →
    ∀ r ∈ (copy stSize).trace (some started) ts, r.Matched

/-- The first read of the file. -/
def firstRead (stSize : ℤ) : Op :=
  ⟨.read (if (0 : ℤ) + bufSize > stSize then (stSize - 0).toNat else bufSize) 0, 0⟩

/-- The first receive. -/
def firstRecv : Op := ⟨.recv bufSize, 0⟩

/-- No read is submitted after the first one: the file is empty, or the first read fails, finds
nothing, or gets to the end of the file. -/
def SingleRead (stSize : ℤ) (res : Op → ℤ) : Prop :=
  stSize ≤ 0 ∨ res (firstRead stSize) ≤ 0 ∨ stSize ≤ res (firstRead stSize)

/-- No receive is submitted after the first one: `recv.txt` cannot be opened, or the first receive
fails or gets nothing. -/
def SingleRecv (res : Op → ℤ) (opened : Bool) : Prop := opened = true → res firstRecv ≤ 0

/-! ## The parts of the loops -/

section Parts

variable {res : Op → ℤ} {c : Client}

/-- A flush of everything queued leaves the ring empty. -/
theorem flushBatch_eq {q : List Op} (hring : c.ring = ⟨q, [], []⟩)
    (hcount : c.batchCount = q.length) (k : Service Op) (peekError resError : String) :
    ∃ reports, flushBatch c k peekError resError = some ({ c with ring := .empty }, reports) ∧
      ∀ r ∈ reports, r.Matched := by
  obtain ⟨cqes, hwait, -, hreap⟩ := k.flush_eq q
  have hnone : none ∉ cqes.map some := by simp
  unfold flushBatch
  rw [hring, hcount, hwait, Option.bind_eq_bind, Option.bind_some, hreap]
  dsimp only
  rw [if_neg hnone]
  refine ⟨_, rfl, fun r hr => ?_⟩
  obtain ⟨peek, hpeek, hr⟩ := List.mem_flatMap.mp hr
  obtain ⟨cqe, -, rfl⟩ := List.mem_map.mp hpeek
  dsimp only at hr
  split_ifs at hr
  · rw [List.mem_singleton.mp hr]
    trivial
  · exact absurd hr List.not_mem_nil

theorem flushRest_eq {q : List Op} (hring : c.ring = ⟨q, [], []⟩)
    (hcount : c.batchCount = q.length) (name resError : String) (k : Service Op) :
    ∃ reports, flushRest c name resError k = some ({ c with ring := .empty }, reports) ∧
      ∀ r ∈ reports, r.Matched := by
  unfold flushRest
  by_cases hpos : c.batchCount > 0
  · rw [if_pos hpos]
    exact flushBatch_eq hring hcount k _ _
  · have hnil : q = [] := List.length_eq_zero_iff.mp (by omega)
    have hempty : c = { c with ring := .empty } := by
      rw [← show c.ring = .empty by rw [hring, hnil]; rfl]
    rw [if_neg hpos]
    refine ⟨[], congrArg (fun c => some (c, [])) hempty, List.forall_mem_nil _⟩

/-- A send or a write goes into a batch with room. -/
theorem queueOp_eq (hroom : c.ring.queued.length < queueDepth)
    (hbatch : c.batchCount + 1 < batchSize) (request : Request) (name resError : String)
    (k : Service Op) :
    queueOp c request name resError k = some ({ c with
      ring := { c.ring with queued := c.ring.queued ++ [⟨request, c.iteration⟩] }
      batchCount := c.batchCount + 1, iteration := c.iteration + 1 }, []) := by
  unfold queueOp
  rw [Queues.getSqe_eq hroom]
  dsimp only
  rw [if_neg (not_le.mpr hbatch)]

/-- With nothing else in flight the completion taken is the right one. -/
theorem submitOp_alone (hring : c.ring = .empty) (op : Op) (name : String) {s : Served}
    (hs : ∀ k, s = .served k → Gives res k) :
    ∃ c' reports cqe, submitOp c op name s = some ((c', reports), cqe) ∧
      (∀ r ∈ reports, r.Matched) ∧
      (cqe = none ∧ c'.phase = .failed ∨ cqe = some ⟨op, res op⟩ ∧ c' = c) := by
  have hsqe : c.ring.getSqe queueDepth op = some ⟨[op], [], []⟩ := by
    rw [hring]
    rfl
  unfold submitOp
  rw [hsqe]
  dsimp only
  cases s with
  | submitFails =>
    exact ⟨_, _, _, rfl, List.forall_mem_singleton.mpr trivial, Or.inl ⟨rfl, rfl⟩⟩
  | waitFails =>
    exact ⟨_, _, _, rfl, List.forall_mem_singleton.mpr trivial, Or.inl ⟨rfl, rfl⟩⟩
  | served k =>
    obtain ⟨⟨op', res'⟩, r, hwait, hperm, hqueued⟩ :=
      k.waitCqe_eq (r := ⟨[], [op], []⟩) (Nat.succ_pos 0)
    have hmem := Service.mem_of_waitCqe hwait
    have hres : res' = res op' := hs k rfl _ _ _ hmem
    have hop := List.singleton_perm.mp hperm
    obtain ⟨rfl, hout⟩ := List.cons.inj hop
    have hempty : r = .empty := Queues.eq_empty hqueued hout.symm
    have hsubmit : (Queues.mk [op] [] []).submit = ⟨[], [op], []⟩ := rfl
    dsimp only
    rw [hsubmit, hwait, Option.bind_eq_bind, Option.bind_some]
    refine ⟨_, _, _, rfl, List.forall_mem_singleton.mpr rfl, Or.inr ⟨by rw [hres], ?_⟩⟩
    rw [hempty, ← hring]

end Parts

/-- The first offset of a file. -/
theorem add_zero_res {res : Op → ℤ} (hres : ∀ op, CInt.Fits 32 (res op)) (op : Op) :
    CInt.add 64 0 (res op) = some (res op) := by
  have hfit : CInt.Fits 64 (0 + res op) := by
    rw [Int.zero_add]
    exact (hres op).mono (by decide)
  rw [CInt.add_eq_some hfit, Int.zero_add]

/-! ## One iteration -/

/-- The read that an iteration of the first loop submits. -/
def Client.nextRead (stSize : ℤ) (c : Client) : Op :=
  ⟨.read (if c.fileOffset + bufSize > stSize then (stSize - c.fileOffset).toNat else bufSize)
    c.fileOffset, c.iteration⟩

section Iteration

variable {stSize : ℤ} {c c₁ : Client} {t : Turn} {reports : List Report} {cqe : Cqe Op} {offset : ℤ}

theorem sendChunk_failed (hfit : CInt.Fits 64 (c.fileOffset + bufSize))
    (h : submitOp c (c.nextRead stSize) "read" t.serve = some ((c₁, reports), none)) :
    sendChunk stSize c t = some (c₁, reports) := by
  unfold sendChunk
  rw [CInt.add_eq_some hfit, Option.bind_eq_bind, Option.bind_some]
  show (submitOp c (c.nextRead stSize) "read" t.serve).bind _ = _
  rw [h]
  rfl

theorem sendChunk_ended (hfit : CInt.Fits 64 (c.fileOffset + bufSize))
    (h : submitOp c (c.nextRead stSize) "read" t.serve = some ((c₁, reports), some cqe))
    (hres : cqe.res ≤ 0) :
    sendChunk stSize c t = some ({ c₁ with phase := .sent },
      reports ++ if cqe.res < 0 then [.logError "Read error"] else []) := by
  unfold sendChunk
  rw [CInt.add_eq_some hfit, Option.bind_eq_bind, Option.bind_some]
  show (submitOp c (c.nextRead stSize) "read" t.serve).bind _ = _
  rw [h, Option.bind_some]
  exact if_pos hres

theorem sendChunk_queued (hfit : CInt.Fits 64 (c.fileOffset + bufSize))
    (h : submitOp c (c.nextRead stSize) "read" t.serve = some ((c₁, reports), some cqe))
    (hres : 0 < cqe.res) (hadd : CInt.add 64 c₁.fileOffset cqe.res = some offset)
    (hroom : c₁.ring.queued.length < queueDepth) (hbatch : c₁.batchCount + 1 < batchSize) :
    sendChunk stSize c t = some ({ c₁ with
      fileOffset := offset
      ring := { c₁.ring with
        queued := c₁.ring.queued ++ [⟨.send cqe.res.toNat, c₁.iteration⟩] }
      batchCount := c₁.batchCount + 1, iteration := c₁.iteration + 1 }, reports) := by
  have hqueue := queueOp_eq (c := { c₁ with fileOffset := offset }) hroom hbatch
    (.send cqe.res.toNat) "send" "Send error" t.flush
  unfold sendChunk
  rw [CInt.add_eq_some hfit, Option.bind_eq_bind, Option.bind_some]
  show (submitOp c (c.nextRead stSize) "read" t.serve).bind _ = _
  rw [h, Option.bind_some]
  dsimp only
  rw [if_neg (not_le.mpr hres), hadd, Option.bind_eq_bind, Option.bind_some, hqueue]
  exact congrArg (fun reports => some (_, reports)) (List.append_nil reports)

theorem receive_failed
    (h : submitOp c ⟨.recv bufSize, c.iteration⟩ "recv" t.serve = some ((c₁, reports), none)) :
    receive c t = some (c₁, reports) := by
  unfold receive
  rw [h]
  rfl

theorem receive_ended
    (h : submitOp c ⟨.recv bufSize, c.iteration⟩ "recv" t.serve = some ((c₁, reports), some cqe))
    (hres : cqe.res ≤ 0) :
    receive c t = some ({ c₁ with phase := .received },
      reports ++ if cqe.res < 0 then [.logError "Receive error"] else []) := by
  unfold receive
  rw [h, Option.bind_eq_bind, Option.bind_some]
  exact if_pos hres

theorem receive_queued
    (h : submitOp c ⟨.recv bufSize, c.iteration⟩ "recv" t.serve = some ((c₁, reports), some cqe))
    (hres : 0 < cqe.res) (hadd : CInt.add 64 c₁.recvFileOffset cqe.res = some offset)
    (hroom : c₁.ring.queued.length < queueDepth) (hbatch : c₁.batchCount + 1 < batchSize) :
    receive c t = some ({ c₁ with
      recvFileOffset := offset
      ring := { c₁.ring with
        queued := c₁.ring.queued ++ [⟨.write cqe.res.toNat c₁.recvFileOffset, c₁.iteration⟩] }
      batchCount := c₁.batchCount + 1, iteration := c₁.iteration + 1 }, reports) := by
  have hqueue := queueOp_eq (c := { c₁ with recvFileOffset := offset }) hroom hbatch
    (.write cqe.res.toNat c₁.recvFileOffset) "write" "Write error" t.flush
  unfold receive
  rw [h, Option.bind_eq_bind, Option.bind_some]
  dsimp only
  rw [if_neg (not_le.mpr hres), hadd, Option.bind_eq_bind, Option.bind_some, hqueue]
  exact congrArg (fun reports => some (_, reports)) (List.append_nil reports)

end Iteration

/-! ## Runs with one submission in each loop -/

/-- Where `main` is when neither loop submits twice. -/
def Quiet (stSize : ℤ) (opened : Bool) (c : Client) : Prop :=
  match c.phase with
  | .sending => c = started ∨
      stSize ≤ c.fileOffset ∧ ∃ op, c.ring = ⟨[op], [], []⟩ ∧ c.batchCount = 1
  | .sent => c.ring = .empty ∧ c.batchCount = 0
  | .receiving => opened = true ∧ c.ring = .empty ∧ c.batchCount = 0 ∧ c.iteration = 0
  | .received => c.ring = .empty ∧ c.batchCount = 0
  | .finished => True
  | .failed => True

section Quiet

variable {stSize : ℤ} {res : Op → ℤ} {opened : Bool} {c : Client} {t : Turn}

theorem quiet_failed (h : c.phase = .failed) : Quiet stSize opened c := by
  unfold Quiet
  rw [h]
  trivial

/-- What `main` does between its loops, with so much queued. -/
theorem finishSending_eq {q : List Op} (hphase : c.phase ≠ .failed) (hring : c.ring = ⟨q, [], []⟩)
    (hcount : c.batchCount = q.length) (t : Turn) :
    ∃ reports, (∀ r ∈ reports, r.Matched) ∧ finishSending c t =
      if t.opened then some ({ c with
        ring := .empty, phase := .receiving, batchCount := 0, iteration := 0 }, reports)
      else some ({ c with ring := .empty, phase := .failed },
        reports ++ [.logError "Failed to open file recv.txt"]) := by
  obtain ⟨reports, hflush, hr⟩ := flushRest_eq hring hcount "send" "Send error" t.flush
  refine ⟨reports, hr, ?_⟩
  unfold finishSending
  rw [hflush, Option.bind_eq_bind, Option.bind_some]
  dsimp only
  rw [if_neg hphase]
  rfl

theorem finishSending_quiet {q : List Op} (hphase : c.phase ≠ .failed)
    (hring : c.ring = ⟨q, [], []⟩) (hcount : c.batchCount = q.length) (ht : t.Delivers res opened) :
    ∃ c' reports, finishSending c t = some (c', reports) ∧ Quiet stSize opened c' ∧
      ∀ r ∈ reports, r.Matched := by
  obtain ⟨reports, hr, hfinish⟩ := finishSending_eq hphase hring hcount t
  rw [hfinish]
  by_cases hopen : t.opened
  · rw [if_pos hopen]
    exact ⟨_, _, rfl, ⟨ht.opened.symm.trans hopen, rfl, rfl, rfl⟩, hr⟩
  · rw [if_neg hopen]
    refine ⟨_, _, rfl, quiet_failed rfl, List.forall_mem_append.mpr ⟨hr, ?_⟩⟩
    exact List.forall_mem_singleton.mpr trivial

theorem finishReceiving_quiet {q : List Op} (hphase : c.phase ≠ .failed)
    (hring : c.ring = ⟨q, [], []⟩) (hcount : c.batchCount = q.length) (t : Turn) :
    ∃ c' reports, finishReceiving c t = some (c', reports) ∧ Quiet stSize opened c' ∧
      ∀ r ∈ reports, r.Matched := by
  obtain ⟨reports, hflush, hr⟩ := flushRest_eq hring hcount "write" "Write error" t.flush
  unfold finishReceiving
  rw [hflush, Option.bind_eq_bind, Option.bind_some]
  dsimp only
  rw [if_neg hphase]
  exact ⟨_, _, rfl, trivial, hr⟩

/-- The reports of a submission, and the message of a result that is negative. -/
theorem matched_append_error {reports : List Report} (h : ∀ r ∈ reports, r.Matched)
    (p : Prop) [Decidable p] (message : String) :
    ∀ r ∈ reports ++ (if p then [.logError message] else []), r.Matched := by
  refine List.forall_mem_append.mpr ⟨h, ?_⟩
  split_ifs
  · exact List.forall_mem_singleton.mpr trivial
  · exact List.forall_mem_nil _

/-- The first iteration of the first loop. -/
theorem sendChunk_quiet (hres : ∀ op, CInt.Fits 32 (res op)) (hsingle : SingleRead stSize res)
    (hpos : 0 < stSize) (ht : t.Delivers res opened) :
    ∃ c' reports, sendChunk stSize started t = some (c', reports) ∧ Quiet stSize opened c' ∧
      ∀ r ∈ reports, r.Matched := by
  have hfit : CInt.Fits 64 (started.fileOffset + bufSize) := by decide
  obtain ⟨c', reports, cqe, hsubmit, hr, hcqe⟩ :=
    submitOp_alone (c := started) rfl (firstRead stSize) "read" ht.serve
  rcases hcqe with ⟨rfl, hfailed⟩ | ⟨rfl, rfl⟩
  · exact ⟨_, _, sendChunk_failed hfit hsubmit, quiet_failed hfailed, hr⟩
  · by_cases hneg : res (firstRead stSize) ≤ 0
    · exact ⟨_, _, sendChunk_ended hfit hsubmit hneg, ⟨rfl, rfl⟩, matched_append_error hr _ _⟩
    · refine ⟨_, _, sendChunk_queued hfit hsubmit (not_le.mp hneg) (add_zero_res hres _)
        (by decide) (by decide), Or.inr ⟨?_, _, rfl, rfl⟩, hr⟩
      rcases hsingle with h0 | hneg' | hall
      · omega
      · exact absurd hneg' hneg
      · exact hall

/-- The first iteration of the second loop. -/
theorem receive_quiet (hsingle : res firstRecv ≤ 0) (hring : c.ring = .empty)
    (hbatch : c.batchCount = 0) (hit : c.iteration = 0) (ht : t.Delivers res opened) :
    ∃ c' reports, receive c t = some (c', reports) ∧ Quiet stSize opened c' ∧
      ∀ r ∈ reports, r.Matched := by
  obtain ⟨c', reports, cqe, hsubmit, hr, hcqe⟩ :=
    submitOp_alone hring ⟨.recv bufSize, c.iteration⟩ "recv" ht.serve
  rcases hcqe with ⟨rfl, hfailed⟩ | ⟨rfl, rfl⟩
  · exact ⟨_, _, receive_failed hsubmit, quiet_failed hfailed, hr⟩
  · have hneg : res ⟨.recv bufSize, c'.iteration⟩ ≤ 0 := by
      rw [hit]
      exact hsingle
    exact ⟨_, _, receive_ended hsubmit hneg, ⟨hring, hbatch⟩, matched_append_error hr _ _⟩

theorem turn_quiet (hres : ∀ op, CInt.Fits 32 (res op)) (hread : SingleRead stSize res)
    (hrecv : SingleRecv res opened) (hc : Quiet stSize opened c) (ht : t.Delivers res opened) :
    ∃ c' reports, turn stSize c t = some (c', reports) ∧ Quiet stSize opened c' ∧
      ∀ r ∈ reports, r.Matched := by
  unfold turn
  unfold Quiet at hc
  cases hphase : c.phase with
  | sending =>
    rw [hphase] at hc
    have hlive : c.phase ≠ .failed := by
      rw [hphase]
      exact Phase.noConfusion
    dsimp only at hc ⊢
    split_ifs with hend
    · rcases hc with rfl | ⟨-, op, hring, hcount⟩
      · exact finishSending_quiet (q := []) hlive rfl rfl ht
      · exact finishSending_quiet hlive hring hcount ht
    · rcases hc with rfl | ⟨hall, -⟩
      · exact sendChunk_quiet hres hread (not_le.mp hend) ht
      · exact absurd hall hend
  | sent =>
    rw [hphase] at hc
    exact finishSending_quiet (q := []) (by rw [hphase]; exact Phase.noConfusion) hc.1 hc.2 ht
  | receiving =>
    rw [hphase] at hc
    obtain ⟨hopen, hring, hbatch, hit⟩ := hc
    exact receive_quiet (hrecv hopen) hring hbatch hit ht
  | received =>
    rw [hphase] at hc
    exact finishReceiving_quiet (q := []) (by rw [hphase]; exact Phase.noConfusion) hc.1 hc.2 t
  | finished | failed =>
    refine ⟨c, [], rfl, ?_, List.forall_mem_nil _⟩
    unfold Quiet
    rw [hphase]
    trivial

end Quiet

/-- In such a run the completions match. -/
theorem trace_quiet {stSize : ℤ} {res : Op → ℤ} {opened : Bool}
    (hres : ∀ op, CInt.Fits 32 (res op)) (hread : SingleRead stSize res)
    (hrecv : SingleRecv res opened) {ts : List Turn} (hts : ∀ t ∈ ts, t.Delivers res opened) :
    ∀ r ∈ (copy stSize).trace (some started) ts, r.Matched := by
  have hturn (_ : ℕ) (tr : List Report) (c : Client) (t : Turn)
      (h : Quiet stSize opened c ∧ ∀ r ∈ tr, r.Matched) (ht : t.Delivers res opened) :
      ∃ c' reports, turn stSize c t = some (c', reports) ∧
        Quiet stSize opened c' ∧ ∀ r ∈ tr ++ reports, r.Matched := by
    obtain ⟨c', reports, hturn, hc', hreports⟩ := turn_quiet hres hread hrecv h.1 ht
    exact ⟨c', reports, hturn, hc', List.forall_mem_append.mpr ⟨h.2, hreports⟩⟩
  have hstart : Quiet stSize opened started := Or.inl rfl
  have hnil : ∀ r ∈ ([] : List Report), r.Matched := List.forall_mem_nil _
  obtain ⟨_, -, -, hmatched⟩ := Machine.ofPartial_run hturn ⟨hstart, hnil⟩ hts
  exact hmatched

/-! ## Prompt service -/

/-- A turn in which everything completes at once and in order. -/
def promptTurn (res : Op → ℤ) (opened : Bool) : Turn := ⟨.served (.prompt res), .prompt res, opened⟩

section Prompt

variable {stSize : ℤ} {res : Op → ℤ} {opened : Bool} {c : Client}

theorem gives_prompt (res : Op → ℤ) : Gives res (.prompt res) := by
  intro r n cqe hmem
  obtain ⟨op, -, rfl⟩ := List.mem_map.mp hmem
  rfl

theorem delivers_prompt (res : Op → ℤ) (opened : Bool) : (promptTurn res opened).Delivers res opened
    where
  serve _ hk := Served.served.inj hk ▸ gives_prompt res
  flush := gives_prompt res
  opened := rfl

theorem submitOp_first (res : Op → ℤ) (hring : c.ring = .empty) (op : Op) (name : String) :
    submitOp c op name (.served (.prompt res)) =
      some ((c, [.taken op ⟨op, res op⟩]), some ⟨op, res op⟩) := by
  obtain ⟨phase, fileOffset, recvFileOffset, batchCount, iteration, ring⟩ := c
  cases hring
  rfl

/-- The completion of what was queued before comes first. -/
theorem submitOp_second (res : Op → ℤ) {op' : Op} (hring : c.ring = ⟨[op'], [], []⟩) (op : Op)
    (name : String) :
    submitOp c op name (.served (.prompt res)) =
      some (({ c with ring := ⟨[], [], [⟨op, res op⟩]⟩ }, [.taken op ⟨op', res op'⟩]),
        some ⟨op', res op'⟩) := by
  obtain ⟨phase, fileOffset, recvFileOffset, batchCount, iteration, ring⟩ := c
  cases hring
  rfl

/-- A second iteration of the first loop takes the completion of the send. -/
theorem sendChunk_second (stSize : ℤ) (opened : Bool) {op' : Op}
    (hring : c.ring = ⟨[op'], [], []⟩) (hbatch : c.batchCount = 1)
    (hfit : CInt.Fits 64 (c.fileOffset + bufSize)) (hfit' : CInt.Fits 64 (c.fileOffset + res op')) :
    ∃ c' reports, sendChunk stSize c (promptTurn res opened) =
      some (c', .taken (c.nextRead stSize) ⟨op', res op'⟩ :: reports) := by
  have hsubmit := submitOp_second res hring (c.nextRead stSize) "read"
  have hroom : ([] : List Op).length < queueDepth := by decide
  have hbatch' : c.batchCount + 1 < batchSize := by
    rw [hbatch]
    decide
  by_cases hneg : res op' ≤ 0
  · have hended := sendChunk_ended (t := promptTurn res opened) hfit hsubmit hneg
    exact ⟨_, _, hended⟩
  · have hqueued := sendChunk_queued (t := promptTurn res opened) hfit hsubmit (not_le.mp hneg)
      (CInt.add_eq_some hfit') hroom hbatch'
    exact ⟨_, _, hqueued⟩

/-- A second iteration of the second loop takes the completion of the write. -/
theorem receive_second (opened : Bool) {op' : Op} (hring : c.ring = ⟨[op'], [], []⟩)
    (hbatch : c.batchCount = 1) (hfit : CInt.Fits 64 (c.recvFileOffset + res op')) :
    ∃ c' reports, receive c (promptTurn res opened) =
      some (c', .taken ⟨.recv bufSize, c.iteration⟩ ⟨op', res op'⟩ :: reports) := by
  have hsubmit := submitOp_second res hring ⟨.recv bufSize, c.iteration⟩ "recv"
  have hroom : ([] : List Op).length < queueDepth := by decide
  have hbatch' : c.batchCount + 1 < batchSize := by
    rw [hbatch]
    decide
  by_cases hneg : res op' ≤ 0
  · have hended := receive_ended (t := promptTurn res opened) hsubmit hneg
    exact ⟨_, _, hended⟩
  · have hqueued := receive_queued (t := promptTurn res opened) hsubmit (not_le.mp hneg)
      (CInt.add_eq_some hfit) hroom hbatch'
    exact ⟨_, _, hqueued⟩

/-! ## Runs with prompt service -/

/-- `main` gets to `c` when everything completes at once and in order. -/
def Promptly (stSize : ℤ) (res : Op → ℤ) (opened : Bool) (c : Client) : Prop :=
  ∃ n, (copy stSize).after (some started) (List.replicate n (promptTurn res opened)) = some c

theorem promptly_started : Promptly stSize res opened started := ⟨0, rfl⟩

theorem Promptly.next (hc : Promptly stSize res opened c) {c' : Client} {reports : List Report}
    (h : turn stSize c (promptTurn res opened) = some (c', reports)) :
    Promptly stSize res opened c' := by
  obtain ⟨n, hn⟩ := hc
  refine ⟨n + 1, ?_⟩
  rw [List.replicate_succ', Machine.after_concat, hn]
  exact (Machine.ofPartial_of_some h).1

theorem Promptly.matched (hc : Promptly stSize res opened c) {c' : Client} {reports : List Report}
    (h : turn stSize c (promptTurn res opened) = some (c', reports))
    (hall : AllMatched stSize res opened) : ∀ r ∈ reports, r.Matched := by
  obtain ⟨n, hn⟩ := hc
  intro r hr
  refine hall (List.replicate n (promptTurn res opened) ++ [promptTurn res opened])
    (fun t ht => ?_) r ?_
  · rcases List.mem_append.mp ht with ht | ht
    · rw [List.eq_of_mem_replicate ht]
      exact delivers_prompt res opened
    · rw [List.mem_singleton.mp ht]
      exact delivers_prompt res opened
  · rw [Machine.trace_concat, hn, copy, (Machine.ofPartial_of_some h).2]
    exact List.mem_append_right _ hr

/-- After the first loop `main` gets to the second. -/
theorem Promptly.receiving {q : List Op} (hc : Promptly stSize res true c)
    (hphase : c.phase ≠ .failed) (hring : c.ring = ⟨q, [], []⟩) (hcount : c.batchCount = q.length)
    (hturn : turn stSize c (promptTurn res true) =
      finishSending c (promptTurn res true)) :
    Promptly stSize res true
      { c with ring := .empty, phase := .receiving, batchCount := 0, iteration := 0 } := by
  obtain ⟨reports, -, hfinish⟩ := finishSending_eq hphase hring hcount (promptTurn res true)
  exact hc.next (hturn.trans hfinish)

/-- The first iteration of the first loop, when its read finds something. -/
theorem promptly_sent (hres : ∀ op, CInt.Fits 32 (res op)) (opened : Bool) (hpos : 0 < stSize)
    (hread : 0 < res (firstRead stSize)) :
    Promptly stSize res opened { started with
      fileOffset := res (firstRead stSize)
      ring := ⟨[⟨.send (res (firstRead stSize)).toNat, 0⟩], [], []⟩
      batchCount := 1, iteration := 1 } := by
  have hfit : CInt.Fits 64 (started.fileOffset + bufSize) := by decide
  have hsubmit := submitOp_first (c := started) res rfl (firstRead stSize) "read"
  have hfirst := sendChunk_queued (t := promptTurn res opened) hfit hsubmit hread
    (add_zero_res hres _) (by decide) (by decide)
  exact promptly_started.next ((if_neg (not_le.mpr hpos)).trans hfirst)

/-- When the first loop has one iteration at most, `main` gets to the second. -/
theorem promptly_receiving (hres : ∀ op, CInt.Fits 32 (res op)) (hsingle : SingleRead stSize res) :
    ∃ fileOffset, Promptly stSize res true ⟨.receiving, fileOffset, 0, 0, 0, .empty⟩ := by
  by_cases hempty : stSize ≤ 0
  · refine ⟨_, promptly_started.receiving (q := []) Phase.noConfusion rfl rfl ?_⟩
    exact if_pos hempty
  · by_cases hneg : res (firstRead stSize) ≤ 0
    · have hfit : CInt.Fits 64 (started.fileOffset + bufSize) := by decide
      have hsubmit := submitOp_first (c := started) res rfl (firstRead stSize) "read"
      have hfirst := sendChunk_ended (t := promptTurn res true) hfit hsubmit hneg
      have hsent := promptly_started.next ((if_neg hempty).trans hfirst)
      exact ⟨_, hsent.receiving (q := []) Phase.noConfusion rfl rfl rfl⟩
    · have hsent := promptly_sent hres true (not_le.mp hempty) (not_le.mp hneg)
      refine ⟨_, hsent.receiving Phase.noConfusion rfl rfl (if_pos ?_)⟩
      rcases hsingle with h0 | hneg' | hall
      · exact absurd h0 hempty
      · exact absurd hneg' hneg
      · exact hall

/-- A second read takes the completion of the send. -/
theorem AllMatched.singleRead (hres : ∀ op, CInt.Fits 32 (res op))
    (hall : AllMatched stSize res opened) : SingleRead stSize res := by
  by_contra hmore
  unfold SingleRead at hmore
  obtain ⟨hpos, hread, hmore⟩ : 0 < stSize ∧ 0 < res (firstRead stSize) ∧
      res (firstRead stSize) < stSize := by
    omega
  have hbuf : CInt.Fits 32 bufSize := by decide
  have hfit : CInt.Fits 64 (res (firstRead stSize) + bufSize) :=
    ((hres _).add hbuf).mono (by decide)
  have hfit' (op : Op) : CInt.Fits 64 (res (firstRead stSize) + res op) :=
    ((hres _).add (hres op)).mono (by decide)
  have hsent := promptly_sent hres opened hpos hread
  obtain ⟨c', reports, hsecond⟩ := sendChunk_second stSize opened
    (c := { started with
      fileOffset := res (firstRead stSize)
      ring := ⟨[⟨.send (res (firstRead stSize)).toNat, 0⟩], [], []⟩
      batchCount := 1, iteration := 1 }) rfl rfl hfit (hfit' _)
  have hmatched := hsent.matched ((if_neg (not_le.mpr hmore)).trans hsecond) hall _
    List.mem_cons_self
  exact absurd (congrArg Op.iteration hmatched) Nat.zero_ne_one

/-- A second receive takes the completion of the write. -/
theorem AllMatched.singleRecv (hres : ∀ op, CInt.Fits 32 (res op))
    (hall : AllMatched stSize res opened) : SingleRecv res opened := by
  rintro rfl
  by_contra hmore
  obtain ⟨fileOffset, hreceiving⟩ := promptly_receiving hres (hall.singleRead hres)
  have hsubmit := submitOp_first (c := ⟨.receiving, fileOffset, 0, 0, 0, .empty⟩) res rfl
    firstRecv "recv"
  have hroom : ([] : List Op).length < queueDepth := by decide
  have hbatch : 0 + 1 < batchSize := by decide
  have hfirst := receive_queued (t := promptTurn res true) hsubmit (not_le.mp hmore)
    (add_zero_res hres _) hroom hbatch
  have hwritten := hreceiving.next hfirst
  have hfit (op : Op) : CInt.Fits 64 (res firstRecv + res op) :=
    ((hres _).add (hres op)).mono (by decide)
  obtain ⟨c', reports, hsecond⟩ := receive_second
    (c := ⟨.receiving, fileOffset, res firstRecv, 1, 1,
      ⟨[⟨.write (res firstRecv).toNat 0, 0⟩], [], []⟩⟩) true rfl rfl (hfit _)
  have hmatched := hwritten.matched hsecond hall _ List.mem_cons_self
  exact absurd (congrArg Op.iteration hmatched) Nat.zero_ne_one

end Prompt

/-- **When the completions match.**  In every run, whatever is delivered when, each completion
taken for that of a read or a receive is the one of that iteration exactly if the first loop
submits no second read and the second loop no second receive. -/
theorem matched_iff {stSize : ℤ} {res : Op → ℤ} (hres : ∀ op, CInt.Fits 32 (res op))
    (opened : Bool) :
    AllMatched stSize res opened ↔ SingleRead stSize res ∧ SingleRecv res opened := by
  constructor
  · intro hall
    exact ⟨AllMatched.singleRead hres hall, AllMatched.singleRecv hres hall⟩
  · rintro ⟨hread, hrecv⟩ ts hts
    exact trace_quiet hres hread hrecv hts

/-- A file of 4 bytes, and a server that answers nothing. -/
theorem matched_single_read : AllMatched 4 (fun op => if op = firstRead 4 then 4 else 0) true := by
  have hfits (op : Op) : CInt.Fits 32 (if op = firstRead 4 then 4 else 0) := by
    split_ifs
    · decide
    · decide
  exact (matched_iff hfits true).mpr ⟨Or.inr (Or.inr (by decide)), fun _ => by decide⟩

/-- A file of 8 bytes, with everything served at once and in full: the second read is taken to be
done when the first send is. -/
theorem not_matched_second : ¬ AllMatched 8 (fun _ => 4) true := by
  intro h
  have hturns : ∀ t ∈ List.replicate 2 (promptTurn (fun _ => 4) true),
      t.Delivers (fun _ => 4) true := by
    intro t ht
    rw [List.eq_of_mem_replicate ht]
    exact delivers_prompt _ _
  have hmatched := h _ hturns (.taken ⟨.read 4 4, 1⟩ ⟨⟨.send 4, 0⟩, 4⟩) (by decide)
  exact absurd (congrArg Op.iteration hmatched) Nat.zero_ne_one

end ClickhouseUring.UringCopy
