import ClickhouseUring.Kit.File
import ClickhouseUring.Kit.Lag
import ClickhouseUring.Kit.Reorder
import ClickhouseUring.UringCopy.Matching

/-!
# What `uring_client copy.c` does to its buffer

A run of `main` in which every operation succeeds: each submission is executed at once and in
order, a read or a receive fills the length asked for as long as there is something left, a send
or a write takes its whole length, and the response of the server is there when it is received.

Even so an iteration does not get its own completion, but one that lags behind (`Lagging`).  Only
the write of the terminator behind a full buffer is left out.
-/

namespace ClickhouseUring.UringCopy

open Uring

/-- The buffer, what has been sent on the socket, and `recv.txt` since it was opened. -/
structure World where
  buffer : List UInt8
  sent : List UInt8
  recvTxt : List UInt8
  deriving DecidableEq, Repr

section

variable (file response : List UInt8)

/-- What an operation puts into the buffer.  Receives take the response one after the other. -/
def gets (op : Op) : List UInt8 :=
  match op.request with
  | .read n offset => (file.drop offset.toNat).take n
  | .recv n => (response.drop (op.iteration * n)).take n
  | .send _ => []
  | .write _ _ => []

/-- The result of an operation. -/
def result (op : Op) : ℕ :=
  match op.request with
  | .read _ _ => (gets file response op).length
  | .recv _ => (gets file response op).length
  | .send n => n
  | .write n _ => n

/-- The effect of an operation. -/
def act (op : Op) (w : World) : World :=
  match op.request with
  | .read _ _ => { w with
      buffer := gets file response op ++ w.buffer.drop (result file response op) }
  | .recv _ => { w with
      buffer := gets file response op ++ w.buffer.drop (result file response op) }
  | .send n => { w with sent := w.sent ++ w.buffer.take n }
  | .write n offset => { w with recvTxt := pwrite w.recvTxt offset.toNat (w.buffer.take n) }

/-- The result that is taken for that of `op`. -/
def takes (c : Client) (op : Op) : ℤ :=
  ((c.ring.posted.map Cqe.res ++
    (c.ring.queued ++ [op]).map fun op => (result file response op : ℤ)).head?).getD 0

/-- What an iteration has executed: what was queued, its own operation, and at the end of a batch
the operation that it queues. -/
def iterates (c : Client) (op : Op) (next : ℕ → Request) : List Op :=
  let res := takes file response c op
  c.ring.queued ++ [op] ++
    if res > 0 ∧ c.batchCount + 1 ≥ batchSize then [⟨next res.toNat, c.iteration⟩] else []

/-- What a flush after a loop has executed. -/
def flushes (c : Client) : List Op := if c.batchCount > 0 then c.ring.queued else []

/-- What a turn does to the world.  An iteration of the first loop clears the buffer first and
writes a terminator at last. -/
def World.turn (c : Client) (w : World) : World :=
  match c.phase with
  | .sending =>
    if c.fileOffset ≥ file.length then execAll (act file response) (flushes c) w
    else
      let op := c.nextRead file.length
      let w := execAll (act file response) (iterates file response c op .send)
        { w with buffer := List.replicate bufSize 0 }
      let res := takes file response c op
      if res > 0 then { w with buffer := w.buffer.set res.toNat 0 } else w
  | .sent => execAll (act file response) (flushes c) w
  | .receiving => execAll (act file response)
      (iterates file response c ⟨.recv bufSize, c.iteration⟩ fun n => .write n c.recvFileOffset) w
  | .received => execAll (act file response) (flushes c) w
  | .finished => w
  | .failed => w

/-- `main` with the world, turn after turn. -/
def copying (buffer : List UInt8) : ℕ → Option (Client × World)
  | 0 => some (started, ⟨buffer, [], []⟩)
  | n + 1 => do
    let (c, w) ← copying buffer n
    let (c', _) ← turn file.length c (promptTurn (fun op => result file response op) true)
    return (c', w.turn file response c)

theorem copying_succ {file response buffer : List UInt8} {n : ℕ} {c c' : Client} {w : World}
    {reports : List Report} (h : copying file response buffer n = some (c, w))
    (hturn : turn file.length c (promptTurn (fun op => result file response op) true) =
      some (c', reports)) :
    copying file response buffer (n + 1) = some (c', w.turn file response c) := by
  rw [copying, h, Option.bind_eq_bind, Option.bind_some]
  dsimp only
  rw [hturn]
  rfl

end

/-! ## Chunks -/

/-- The bytes of a chunk. -/
def chunk (bytes : List UInt8) (i : ℕ) : List UInt8 := (bytes.drop (i * bufSize)).take bufSize

/-- The number of chunks. -/
def chunks (bytes : List UInt8) : ℕ := (bytes.length + (bufSize - 1)) / bufSize

/-- The results of a batch of reads or receives. -/
def lengths (bytes : List UInt8) (batch t : ℕ) : ℕ := (chunk bytes (batchSize * batch + t)).length

/-- What iteration `i` takes for the number of bytes it got. -/
def takenAt (bytes : List UInt8) (i : ℕ) : ℕ :=
  Lag.taken (lengths bytes (i / batchSize)) (i % batchSize)

section Chunks

variable (bytes : List UInt8) {i : ℕ}

theorem length_chunk (i : ℕ) :
    (chunk bytes i).length = min bufSize (bytes.length - i * bufSize) := by
  rw [chunk, List.length_take, List.length_drop]

theorem lt_chunks : i < chunks bytes ↔ i * bufSize < bytes.length := by
  unfold chunks bufSize
  omega

theorem length_chunk_pos : 0 < (chunk bytes i).length ↔ i < chunks bytes := by
  rw [length_chunk, lt_chunks]
  unfold bufSize
  omega

theorem chunk_eq_nil (h : chunks bytes ≤ i) : chunk bytes i = [] :=
  List.length_eq_zero_iff.mp (Nat.eq_zero_of_not_pos fun hpos =>
    absurd ((length_chunk_pos bytes).mp hpos) (not_lt.mpr h))

/-- A chunk before the last one is a whole buffer. -/
theorem length_chunk_of_lt (h : i + 1 < chunks bytes) : (chunk bytes i).length = bufSize := by
  rw [length_chunk]
  rw [lt_chunks] at h
  unfold bufSize at h ⊢
  omega

theorem flatMap_chunk (n : ℕ) :
    (List.range n).flatMap (chunk bytes) = bytes.take (n * bufSize) := by
  induction n with
  | zero => rw [Nat.zero_mul, List.take_zero]; rfl
  | succ n ih =>
    rw [List.range_succ, List.flatMap_append, ih, List.flatMap_singleton, Nat.succ_mul,
      List.take_add]
    rfl

theorem flatMap_chunks : (List.range (chunks bytes)).flatMap (chunk bytes) = bytes := by
  rw [flatMap_chunk]
  refine List.take_of_length_le ?_
  unfold chunks bufSize
  omega

theorem takenAt_le (i : ℕ) : takenAt bytes i ≤ bufSize := by
  obtain ⟨t, -, heq⟩ := Lag.exists_taken_eq (lengths bytes (i / batchSize)) (i % batchSize)
  rw [takenAt, heq, lengths, length_chunk]
  exact Nat.min_le_left _ _

/-- The first iteration of a batch takes what it got. -/
theorem takenAt_of_mod (h : i % batchSize = 0) : takenAt bytes i = (chunk bytes i).length := by
  rw [takenAt, h, Lag.taken_zero, lengths, Nat.add_zero,
    Nat.mul_div_cancel' (Nat.dvd_of_mod_eq_zero h)]

/-- Another one takes a whole buffer. -/
theorem takenAt_eq (hmod : i % batchSize ≠ 0) (h : i < chunks bytes) :
    takenAt bytes i = bufSize := by
  refine Lag.taken_eq_of_forall fun t ht => length_chunk_of_lt bytes ?_
  have hdiv := Nat.div_add_mod i batchSize
  omega

theorem takenAt_of_lt (h : i + 1 < chunks bytes) : takenAt bytes i = bufSize := by
  by_cases hmod : i % batchSize = 0
  · rw [takenAt_of_mod bytes hmod, length_chunk_of_lt bytes h]
  · exact takenAt_eq bytes hmod (Nat.lt_of_succ_lt h)

theorem length_chunk_le_takenAt (h : i < chunks bytes) :
    (chunk bytes i).length ≤ takenAt bytes i := by
  by_cases hmod : i % batchSize = 0
  · exact Nat.le_of_eq (takenAt_of_mod bytes hmod).symm
  · rw [takenAt_eq bytes hmod h, length_chunk]
    exact Nat.min_le_left _ _

end Chunks

/-! ## Completions that lag behind -/

section Prompt

variable {α : Type*} (res : α → ℤ) (queued running : List α) (posted : List (Cqe α))

theorem wait_prompt {n : ℕ} (h : n ≤ running.length + posted.length) :
    (Service.prompt res).wait n ⟨queued, running, posted⟩ =
      some ⟨queued, [], posted ++ running.map fun op => ⟨op, res op⟩⟩ := by
  refine if_pos ?_
  rw [Queues.outstanding, List.length_append, List.length_map]
  exact h

/-- The first completion is that of the operation that was submitted first. -/
theorem waitCqe_prompt {c : Cqe α} {cs : List (Cqe α)}
    (h : posted ++ running.map (fun op => ⟨op, res op⟩) = c :: cs) :
    (Service.prompt res).waitCqe ⟨queued, running, posted⟩ = some (c, ⟨queued, [], cs⟩) := by
  have hlen := congrArg List.length h
  rw [List.length_append, List.length_map, List.length_cons] at hlen
  rw [Service.waitCqe, wait_prompt res queued running posted (by omega), Option.bind_some, h]
  rfl

end Prompt

/-- `main` is in round `j` of a batch, with own results `l`, and takes completions as they come. -/
structure Lagging (res : Op → ℕ) (l : ℕ → ℕ) (j : ℕ) (c : Client) : Prop where
  room : j < batchSize
  batchCount : c.batchCount = j
  running : c.ring.running = []
  posted : c.ring.posted.map Cqe.res = (Lag.backlog l j).map Nat.cast
  queued : c.ring.queued.map res = if j = 0 then [] else [Lag.taken l (j - 1)]

section Lagging

variable {res : Op → ℕ} {l : ℕ → ℕ} {j : ℕ} {c : Client} {op : Op} {posted : List (Cqe Op)}

/-- A batch starts with nothing queued or posted. -/
theorem Lagging.start (hring : c.ring = .empty) (hcount : c.batchCount = 0) (res : Op → ℕ)
    (l : ℕ → ℕ) : Lagging res l 0 c :=
  ⟨by decide, hcount, by rw [hring]; rfl, by rw [hring]; rfl, by rw [hring]; rfl⟩

/-- What has been posted when the operation of the round is executed. -/
theorem Lagging.results (h : Lagging res l j c) (hop : res op = l j) :
    c.ring.posted.map Cqe.res ++ (c.ring.queued ++ [op]).map (fun op => (res op : ℤ)) =
      (Lag.taken l j : ℤ) :: (Lag.backlog l (j + 1)).map Nat.cast := by
  have hmap : (c.ring.queued ++ [op]).map (fun op => (res op : ℤ)) =
      ((c.ring.queued ++ [op]).map res).map Nat.cast := (List.map_map ..).symm
  have harrivals : (c.ring.queued ++ [op]).map res = Lag.arrivals l j := by
    rw [List.map_append, h.queued, List.map_singleton, hop, Lag.arrivals]
    split_ifs with hj
    · rw [hj]; rfl
    · rfl
  rw [hmap, harrivals, h.posted, ← List.map_append, Lag.backlog_append_arrivals, List.map_cons]

/-- What is taken for the result of the round is one that lags behind. -/
theorem Lagging.takes_eq {file response : List UInt8} (h : Lagging (result file response) l j c)
    (hop : result file response op = l j) : takes file response c op = Lag.taken l j := by
  rw [takes, h.results hop]
  rfl

/-- What the iteration executes. -/
theorem Lagging.iterates_eq {file response : List UInt8} (h : Lagging (result file response) l j c)
    (hop : result file response op = l j) (hpos : 0 < Lag.taken l j) (next : ℕ → Request) :
    iterates file response c op next = c.ring.queued ++ [op] ++
      if j + 1 = batchSize then [⟨next (Lag.taken l j), c.iteration⟩] else [] := by
  have hroom := h.room
  rw [iterates, h.takes_eq hop, h.batchCount, Int.toNat_natCast]
  congr 1
  refine if_congr ?_ rfl rfl
  omega

theorem Lagging.length_queued (h : Lagging res l j c) :
    c.ring.queued.length = if j = 0 then 0 else 1 := by
  have hlen := congrArg List.length h.queued
  rw [List.length_map] at hlen
  rw [hlen]
  split_ifs <;> rfl

theorem Lagging.length_posted (h : Lagging res l j c) : c.ring.posted.length = j - 1 := by
  have hlen := congrArg List.length h.posted
  rwa [List.length_map, List.length_map, Lag.length_backlog] at hlen

/-- The wait of a round. -/
theorem Lagging.submitOp (h : Lagging res l j c) (hop : res op = l j) (name : String) :
    ∃ cqe posted, submitOp c op name (.served (.prompt fun op => res op)) =
        some (({ c with ring := ⟨[], [], posted⟩ }, [.taken op cqe]), some cqe) ∧
      cqe.res = Lag.taken l j ∧ posted.map Cqe.res = (Lag.backlog l (j + 1)).map Nat.cast := by
  have hroom : c.ring.queued.length < queueDepth := by
    rw [h.length_queued, queueDepth]
    split_ifs <;> omega
  have hposted : (c.ring.posted ++ (c.ring.queued ++ [op]).map fun op =>
      (⟨op, res op⟩ : Cqe Op)).map Cqe.res =
        (Lag.taken l j : ℤ) :: (Lag.backlog l (j + 1)).map Nat.cast := by
    rw [List.map_append, List.map_map]
    exact h.results hop
  obtain ⟨cqe, posted, heq, hres, hrest⟩ := List.map_eq_cons_iff.mp hposted
  refine ⟨cqe, posted, ?_, hres, hrest⟩
  have hsubmit : ({ c.ring with queued := c.ring.queued ++ [op] } : Queues Op).submit =
      ⟨[], c.ring.queued ++ [op], c.ring.posted⟩ := by
    rw [Queues.submit, h.running, List.nil_append]
  have hwait := waitCqe_prompt _ [] _ _ heq
  unfold UringCopy.submitOp
  rw [Queues.getSqe_eq hroom]
  dsimp only
  rw [hsubmit, hwait]
  rfl

/-- A flush that waits for everything there is leaves the ring empty. -/
theorem flushBatch_prompt {queued : List Op} (hring : c.ring = ⟨queued, [], posted⟩)
    (hlen : queued.length + posted.length = c.batchCount) (res : Op → ℤ)
    (peekError resError : String) :
    ∃ reports, flushBatch c (.prompt res) peekError resError =
      some ({ c with ring := .empty }, reports) := by
  have hsubmit : c.ring.submit = ⟨[], queued, posted⟩ := by
    rw [hring]
    rfl
  have hwait := wait_prompt res [] queued posted (Nat.le_of_eq hlen.symm)
  have hreap (cqes : List (Cqe Op)) (hcqes : cqes.length = c.batchCount) :
      (Queues.mk ([] : List Op) [] cqes).reap c.batchCount = (cqes.map some, .empty) := by
    rw [Queues.reap_eq (Nat.le_of_eq hcqes.symm)]
    dsimp only
    rw [← hcqes, List.take_length, List.drop_length]
    rfl
  unfold flushBatch
  rw [hsubmit, hwait, Option.bind_eq_bind, Option.bind_some, hreap _ (by
    rw [List.length_append, List.length_map, ← hlen, Nat.add_comm])]
  dsimp only
  rw [if_neg (by simp)]
  exact ⟨_, rfl⟩

theorem flushRest_prompt {queued : List Op} (hring : c.ring = ⟨queued, [], posted⟩)
    (hlen : queued.length + posted.length = c.batchCount) (res : Op → ℤ) (name resError : String) :
    ∃ reports, flushRest c name resError (.prompt res) =
      some ({ c with ring := .empty }, reports) := by
  unfold flushRest
  split_ifs with hcount
  · exact flushBatch_prompt hring hlen res _ _
  · have hqueued : queued = [] := List.length_eq_zero_iff.mp (by omega)
    have hposted : posted = [] := List.length_eq_zero_iff.mp (by omega)
    have hempty : c = { c with ring := .empty } := by
      rw [← show c.ring = .empty by rw [hring, hqueued, hposted]; rfl]
    exact ⟨[], congrArg (fun c => some (c, [])) hempty⟩

/-- The end of a round: the last one of a batch leaves the ring empty. -/
theorem queueOp_prompt (hring : c.ring = ⟨[], [], posted⟩) (hlen : posted.length = c.batchCount)
    (hroom : c.batchCount + 1 ≤ batchSize) (request : Request) (name resError : String)
    (res : Op → ℤ) :
    ∃ c' reports, queueOp c request name resError (.prompt res) = some (c', reports) ∧
      if c.batchCount + 1 = batchSize then
        c' = { c with ring := .empty, batchCount := 0, iteration := c.iteration + 1 }
      else c' = { c with
        ring := ⟨[⟨request, c.iteration⟩], [], posted⟩
        batchCount := c.batchCount + 1, iteration := c.iteration + 1 } := by
  have hsqe : c.ring.getSqe queueDepth ⟨request, c.iteration⟩ =
      some ⟨[⟨request, c.iteration⟩], [], posted⟩ := by
    rw [hring]
    rfl
  unfold queueOp
  rw [hsqe]
  dsimp only
  by_cases hfull : c.batchCount + 1 = batchSize
  · obtain ⟨reports, hflush⟩ := flushBatch_prompt (c := { c with
      ring := ⟨[⟨request, c.iteration⟩], [], posted⟩
      batchCount := c.batchCount + 1, iteration := c.iteration + 1 }) rfl
      (by rw [hlen, List.length_singleton, Nat.add_comm]) res
      s!"Error peeking for cqe during {name} operation" resError
    rw [if_pos (Nat.le_of_eq hfull.symm), hflush]
    exact ⟨_, reports, rfl, by rw [if_pos hfull]⟩
  · rw [if_neg (by omega)]
    exact ⟨_, [], rfl, by rw [if_neg hfull]⟩

end Lagging

/-! ## Iterations -/

/-- An iteration has queued `request`; the last one of a batch has emptied the ring. -/
structure Iterated (c : Client) (request : Request) (posted : List (Cqe Op)) (c' : Client) :
    Prop where
  phase : c'.phase = c.phase
  iteration : c'.iteration = c.iteration + 1
  batch : if c.batchCount + 1 = batchSize then c'.ring = .empty ∧ c'.batchCount = 0
    else c'.ring = ⟨[⟨request, c.iteration⟩], [], posted⟩ ∧ c'.batchCount = c.batchCount + 1

section Iteration

variable {res : Op → ℕ} {l : ℕ → ℕ} {j : ℕ} {c : Client} {stSize : ℤ}

/-- The rest of a round, after the wait. -/
theorem Lagging.queueOp (h : Lagging res l j c) {posted : List (Cqe Op)}
    (hposted : posted.map Cqe.res = (Lag.backlog l (j + 1)).map Nat.cast) {d : Client}
    (hring : d.ring = ⟨[], [], posted⟩) (hcount : d.batchCount = c.batchCount)
    (hiteration : d.iteration = c.iteration) (hphase : d.phase = c.phase) (request : Request)
    (name resError : String) :
    ∃ c' reports, queueOp d request name resError (.prompt fun op => res op) =
        some (c', reports) ∧ Iterated c request posted c' ∧
      c'.fileOffset = d.fileOffset ∧ c'.recvFileOffset = d.recvFileOffset := by
  have hlen : posted.length = d.batchCount := by
    have hlen := congrArg List.length hposted
    rw [List.length_map, List.length_map, Lag.length_backlog] at hlen
    rw [hlen, hcount, h.batchCount, Nat.add_sub_cancel]
  have hroom : d.batchCount + 1 ≤ batchSize := by
    rw [hcount, h.batchCount]
    exact h.room
  obtain ⟨c', reports, hqueue, hc'⟩ := queueOp_prompt hring hlen hroom request name resError
    fun op => res op
  rw [hcount, hiteration] at hc'
  refine ⟨c', reports, hqueue, ⟨?_, ?_, ?_⟩, ?_⟩ <;> split_ifs at * with hfull <;> subst hc'
  · exact hphase
  · exact hphase
  · rfl
  · rfl
  · exact ⟨rfl, rfl⟩
  · exact ⟨rfl, rfl⟩
  · exact ⟨rfl, rfl⟩
  · exact ⟨rfl, rfl⟩

/-- An iteration of the first loop that takes something. -/
theorem Lagging.sendChunk (h : Lagging res l j c) (hop : res (c.nextRead stSize) = l j)
    (hpos : 0 < Lag.taken l j) (hfit : CInt.Fits 64 (c.fileOffset + bufSize))
    (hadd : CInt.Fits 64 (c.fileOffset + Lag.taken l j)) :
    ∃ c' reports posted, sendChunk stSize c (promptTurn (fun op => res op) true) =
        some (c', reports) ∧
      posted.map Cqe.res = (Lag.backlog l (j + 1)).map Nat.cast ∧
      Iterated c (.send (Lag.taken l j)) posted c' ∧
      c'.fileOffset = c.fileOffset + Lag.taken l j ∧ c'.recvFileOffset = c.recvFileOffset := by
  obtain ⟨cqe, posted, hsubmit, hres, hposted⟩ := h.submitOp hop "read"
  obtain ⟨c', reports, hqueue, hc', hoffset, hrecv⟩ := h.queueOp hposted
    (d := { c with ring := ⟨[], [], posted⟩, fileOffset := c.fileOffset + Lag.taken l j })
    rfl rfl rfl rfl (.send (Lag.taken l j)) "send" "Send error"
  refine ⟨c', [.taken (c.nextRead stSize) cqe] ++ reports, posted, ?_, hposted, hc', hoffset,
    hrecv⟩
  unfold UringCopy.sendChunk
  rw [CInt.add_eq_some hfit, Option.bind_eq_bind, Option.bind_some]
  show (UringCopy.submitOp c (c.nextRead stSize) "read" (.served (.prompt _))).bind _ = _
  rw [hsubmit, Option.bind_some]
  dsimp only
  rw [hres, if_neg (by omega), CInt.add_eq_some hadd, Option.bind_eq_bind, Option.bind_some,
    Int.toNat_natCast]
  show (UringCopy.queueOp _ _ _ _ (.prompt _)).bind _ = _
  rw [hqueue]
  rfl

/-- An iteration of the second loop that takes something. -/
theorem Lagging.receive (h : Lagging res l j c) (hop : res ⟨.recv bufSize, c.iteration⟩ = l j)
    (hpos : 0 < Lag.taken l j) (hadd : CInt.Fits 64 (c.recvFileOffset + Lag.taken l j)) :
    ∃ c' reports posted, receive c (promptTurn (fun op => res op) true) = some (c', reports) ∧
      posted.map Cqe.res = (Lag.backlog l (j + 1)).map Nat.cast ∧
      Iterated c (.write (Lag.taken l j) c.recvFileOffset) posted c' ∧
      c'.fileOffset = c.fileOffset ∧ c'.recvFileOffset = c.recvFileOffset + Lag.taken l j := by
  obtain ⟨cqe, posted, hsubmit, hres, hposted⟩ := h.submitOp hop "recv"
  obtain ⟨c', reports, hqueue, hc', hoffset, hrecv⟩ := h.queueOp hposted
    (d := { c with ring := ⟨[], [], posted⟩, recvFileOffset := c.recvFileOffset + Lag.taken l j })
    rfl rfl rfl rfl (.write (Lag.taken l j) c.recvFileOffset) "write" "Write error"
  refine ⟨c', [.taken ⟨.recv bufSize, c.iteration⟩ cqe] ++ reports, posted, ?_, hposted, hc',
    hoffset, hrecv⟩
  unfold UringCopy.receive
  show (UringCopy.submitOp c _ "recv" (.served (.prompt _))).bind _ = _
  rw [hsubmit, Option.bind_some]
  dsimp only
  rw [hres, if_neg (by omega), CInt.add_eq_some hadd, Option.bind_eq_bind, Option.bind_some,
    Int.toNat_natCast]
  show (UringCopy.queueOp _ _ _ _ (.prompt _)).bind _ = _
  rw [hqueue]
  rfl

/-- The iteration of the second loop that takes nothing. -/
theorem Lagging.receive_end (h : Lagging res l j c)
    (hop : res ⟨.recv bufSize, c.iteration⟩ = l j) (hzero : Lag.taken l j = 0) :
    ∃ reports posted, UringCopy.receive c (promptTurn (fun op => res op) true) =
        some ({ c with phase := .received, ring := ⟨[], [], posted⟩ }, reports) ∧
      posted.length = c.batchCount := by
  obtain ⟨cqe, posted, hsubmit, hres, hposted⟩ := h.submitOp hop "recv"
  have hlen := congrArg List.length hposted
  rw [List.length_map, List.length_map, Lag.length_backlog, Nat.add_sub_cancel,
    ← h.batchCount] at hlen
  rw [hzero, Nat.cast_zero] at hres
  refine ⟨[.taken ⟨.recv bufSize, c.iteration⟩ cqe], posted, ?_, hlen⟩
  unfold UringCopy.receive
  show (UringCopy.submitOp c _ "recv" (.served (.prompt _))).bind _ = _
  rw [hsubmit, Option.bind_some]
  dsimp only
  rw [if_pos (Int.le_of_eq hres), hres]
  rfl

/-- The flush after a loop that ends before a round. -/
theorem Lagging.flushRest (h : Lagging res l j c) (name resError : String) :
    ∃ reports, flushRest c name resError (.prompt fun op => res op) =
      some ({ c with ring := .empty }, reports) := by
  have hring : c.ring = ⟨c.ring.queued, [], c.ring.posted⟩ := by rw [← h.running]
  refine flushRest_prompt hring ?_ (fun op => res op) name resError
  rw [h.length_queued, h.length_posted, h.batchCount]
  split_ifs <;> omega

theorem Lagging.flushes_eq (h : Lagging res l j c) : flushes c = c.ring.queued := by
  unfold flushes
  rw [h.batchCount]
  split_ifs with hpos
  · rfl
  · have hnone := h.length_queued
    rw [if_pos (Nat.eq_zero_of_not_pos hpos)] at hnone
    exact (List.length_eq_zero_iff.mp hnone).symm

/-- What comes after an iteration, in its batch or in a new one. -/
theorem batch_succ (i : ℕ) :
    (i % batchSize + 1 = batchSize ∧ (i + 1) % batchSize = 0 ∧
      (i + 1) / batchSize = i / batchSize + 1) ∨
    (i % batchSize + 1 < batchSize ∧ (i + 1) % batchSize = i % batchSize + 1 ∧
      (i + 1) / batchSize = i / batchSize) := by
  unfold batchSize
  omega

/-- The next iteration lags behind as well. -/
theorem Lagging.next {bytes : List UInt8} {i : ℕ} {posted : List (Cqe Op)} {request : Request}
    {c' : Client} (h : Lagging res (lengths bytes (i / batchSize)) (i % batchSize) c)
    (hposted : posted.map Cqe.res =
      (Lag.backlog (lengths bytes (i / batchSize)) (i % batchSize + 1)).map Nat.cast)
    (hc' : Iterated c request posted c')
    (hres : res ⟨request, c.iteration⟩ = takenAt bytes i) :
    Lagging res (lengths bytes ((i + 1) / batchSize)) ((i + 1) % batchSize) c' ∧
      c'.ring.queued = if (i + 1) % batchSize = 0 then [] else [⟨request, c.iteration⟩] := by
  have hbatch := hc'.batch
  rw [h.batchCount] at hbatch
  obtain ⟨hfull, hmod, -⟩ | ⟨hroom, hmod, hdiv⟩ := batch_succ i
  · rw [if_pos hfull] at hbatch
    rw [hmod, if_pos rfl, hbatch.1]
    exact ⟨.start hbatch.1 hbatch.2 res _, rfl⟩
  · rw [if_neg (Nat.ne_of_lt hroom)] at hbatch
    obtain ⟨hring, hcount⟩ := hbatch
    rw [hmod, hdiv, if_neg (Nat.succ_ne_zero _), hring]
    refine ⟨⟨hroom, hcount, by rw [hring], by rw [hring]; exact hposted, ?_⟩, rfl⟩
    rw [hring, if_neg (Nat.succ_ne_zero _), Nat.add_sub_cancel, List.map_singleton, hres, takenAt]

end Iteration

end ClickhouseUring.UringCopy
