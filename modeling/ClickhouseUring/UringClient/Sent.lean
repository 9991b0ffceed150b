import ClickhouseUring.Kit.File
import ClickhouseUring.Kit.Reorder
import ClickhouseUring.UringClient.Batches

/-!
# What the client sends

All reads and sends of a batch share one buffer, and no entry is linked, so the kernel may execute
a batch in any order.  A send that is executed before its read sends what the buffer held before.

So the file is sent whatever the orders only if that makes no difference: when every chunk is what
the buffer held from the start (`sends_file_iff`).
-/

namespace ClickhouseUring.UringClient

open Uring

/-- The shared buffer, and what has been sent on the socket. -/
structure World where
  buffer : List UInt8
  sent : List UInt8
deriving DecidableEq, Repr

/-- The effect of an operation of the send phase, where a read fills its length and a send
transmits its length; there is no receive or write in that phase. -/
def act (file : List UInt8) : Op → World → World
  | .read n offset, w =>
    { w with buffer := (file.drop offset.toNat).take n ++ w.buffer.drop n }
  | .send n, w => { w with sent := w.sent ++ w.buffer.take n }
  | .recv _, w => w
  | .write _ _, w => w

/-- In whatever order the entries of each flush are executed, the file is sent. -/
def SendsFile (file buffer : List UInt8) (tr : List Report) : Prop :=
  ∀ runs, List.Forall₂ List.Perm runs (flushes tr) →
    (execAll (act file) runs.flatten ⟨buffer, []⟩).sent = file

/-- The chunk of an iteration of the first loop. -/
def chunk (file : List UInt8) (i : ℕ) : List UInt8 := (file.drop (i * bufSize)).take bufSize

/-- The file repeats what the buffer holds, and if the last, incomplete chunk is not alone in its
batch, it may as well be sent earlier. -/
structure Repeats (file buffer : List UInt8) : Prop where
  chunks : ∀ i, chunk file i <+: buffer
  last : file.length / bufSize % perBatch ≠ 0 →
    chunk file (file.length / bufSize) ++ buffer = buffer ++ chunk file (file.length / bufSize)

/-! ## Chunks -/

theorem iterations_length (file : List UInt8) :
    iterations file.length = (file.length + (bufSize - 1)) / bufSize := by
  unfold iterations
  rw [show bufSize = 4096 from rfl]
  omega

theorem chunkAt_length (file : List UInt8) (i : ℕ) :
    chunkAt file.length (i * bufSize) = (chunk file i).length := by
  unfold chunkAt chunk
  rw [List.length_take, List.length_drop, show bufSize = 4096 from rfl]
  split_ifs <;> omega

theorem length_chunk_le (file : List UInt8) (i : ℕ) : (chunk file i).length ≤ bufSize :=
  List.length_take_le _ _

theorem chunk_eq_nil {file : List UInt8} {i : ℕ} (h : file.length ≤ i * bufSize) :
    chunk file i = [] := by
  unfold chunk
  rw [List.drop_eq_nil_of_le h, List.take_nil]

theorem requests_eq (file : List UInt8) (i : ℕ) :
    requests file.length i =
      [.read (chunk file i).length (i * bufSize), .send (chunk file i).length] := by
  unfold requests chunkOps
  rw [chunkAt_length]

/-- What is read for a chunk. -/
theorem take_chunk (file : List UInt8) (i : ℕ) :
    (file.drop (i * bufSize : ℤ).toNat).take (chunk file i).length = chunk file i := by
  have hoffset : (i * bufSize : ℤ).toNat = i * bufSize := Int.toNat_natCast (i * bufSize)
  unfold chunk
  rw [hoffset, List.length_take, ← List.take_eq_take_min]

/-- The chunks make up the file. -/
theorem flatMap_chunk (file : List UInt8) :
    (List.range (iterations file.length)).flatMap (chunk file) = file := by
  have htake : ∀ n, (List.range n).flatMap (chunk file) = file.take (n * bufSize) := by
    intro n
    induction n with
    | zero => rw [Nat.zero_mul]; rfl
    | succ n ih =>
      rw [List.range_succ, List.flatMap_append, ih, List.flatMap_singleton, Nat.succ_mul,
        List.take_add]
      rfl
  rw [htake, iterations_length, List.take_of_length_le]
  rw [show bufSize = 4096 from rfl]
  omega

/-! ## A buffer that keeps its content -/

/-- What an operation sends while the buffer keeps its content. -/
def emits (buffer : List UInt8) : Op → List UInt8
  | .send n => buffer.take n
  | _ => []

/-- A chunk that the buffer already holds leaves it as it is. -/
theorem act_of_held {file buffer : List UInt8} {i : ℕ} (h : chunk file i <+: buffer) {op : Op}
    (hop : op ∈ requests file.length i) (out : List UInt8) :
    act file op ⟨buffer, out⟩ = ⟨buffer, out ++ emits buffer op⟩ := by
  rw [requests_eq] at hop
  rcases List.mem_cons.mp hop with rfl | hop
  · show World.mk ((file.drop (i * bufSize : ℤ).toNat).take (chunk file i).length ++
      buffer.drop (chunk file i).length) out = ⟨buffer, out ++ []⟩
    rw [take_chunk, List.prefix_iff_eq_append.mp h, List.append_nil]
  · obtain rfl := List.mem_singleton.mp hop
    rfl

theorem execAll_of_held {file buffer : List UInt8} {ops : List Op}
    (h : ∀ op ∈ ops, ∃ i, chunk file i <+: buffer ∧ op ∈ requests file.length i)
    (out : List UInt8) :
    execAll (act file) ops ⟨buffer, out⟩ = ⟨buffer, out ++ ops.flatMap (emits buffer)⟩ := by
  induction ops generalizing out with
  | nil =>
    rw [List.flatMap_nil, List.append_nil]
    rfl
  | cons op ops ih =>
    obtain ⟨⟨i, hi, hop⟩, hops⟩ := List.forall_mem_cons.mp h
    show execAll (act file) ops (act file op ⟨buffer, out⟩) = _
    rw [act_of_held hi hop, ih hops, List.flatMap_cons, List.append_assoc]

theorem flatMap_emits {file buffer : List UInt8} (h : ∀ i, chunk file i <+: buffer)
    (is : List ℕ) :
    (is.flatMap (requests file.length)).flatMap (emits buffer) = is.flatMap (chunk file) := by
  rw [List.flatMap_assoc]
  refine List.flatMap_congr fun i _ => ?_
  rw [requests_eq]
  show [] ++ (buffer.take _ ++ []) = _
  rw [List.nil_append, List.append_nil]
  exact (List.prefix_iff_eq_take.mp (h i)).symm

/-- What a run of batches sends. -/
theorem execAll_runs {file buffer : List UInt8} (h : ∀ i, chunk file i <+: buffer)
    {runs : List (List Op)} {iss : List (List ℕ)}
    (hruns : List.Forall₂ (fun run is => run.Perm (is.flatMap (requests file.length))) runs iss)
    (out : List UInt8) :
    execAll (act file) runs.flatten ⟨buffer, out⟩ =
      ⟨buffer, out ++ runs.flatMap fun run => run.flatMap (emits buffer)⟩ := by
  induction hruns generalizing out with
  | nil =>
    rw [List.flatMap_nil, List.append_nil]
    rfl
  | @cons run is runs iss hrun _ ih =>
    have hrun' : ∀ op ∈ run, ∃ i, chunk file i <+: buffer ∧ op ∈ requests file.length i := by
      intro op hop
      obtain ⟨i, -, hop⟩ := List.mem_flatMap.mp (hrun.mem_iff.mp hop)
      exact ⟨i, h i, hop⟩
    rw [List.flatten_cons, execAll_append, execAll_of_held hrun', ih, List.flatMap_cons,
      List.append_assoc]

/-! ## When the orders make no difference -/

theorem length_chunk {file : List UInt8} {i : ℕ} (hi : i < file.length / bufSize) :
    (chunk file i).length = bufSize := by
  unfold chunk
  rw [List.length_take, List.length_drop, show bufSize = 4096 from rfl] at *
  omega

theorem chunk_eq_buffer {file buffer : List UInt8} (hbuf : buffer.length = bufSize) {i : ℕ}
    (h : chunk file i <+: buffer) (hi : i < file.length / bufSize) : chunk file i = buffer :=
  h.eq_of_length ((length_chunk hi).trans hbuf.symm)

section Repeats

variable {file buffer : List UInt8} (hbuf : buffer.length = bufSize) (h : Repeats file buffer)

include hbuf h

theorem Repeats.comm_of_lt {i j : ℕ} (hij : i < j) (hj : j < iterations file.length)
    (hsame : i / perBatch = j / perBatch) :
    chunk file i ++ chunk file j = chunk file j ++ chunk file i := by
  have hlast : j ≤ file.length / bufSize := by
    rw [iterations_length] at hj
    rw [show bufSize = 4096 from rfl] at hj ⊢
    omega
  rw [chunk_eq_buffer hbuf (h.chunks i) (hij.trans_le hlast)]
  rcases hlast.lt_or_eq with hlt | rfl
  · rw [chunk_eq_buffer hbuf (h.chunks j) hlt]
  · refine (h.last ?_).symm
    rw [show perBatch = 128 from rfl] at hsame ⊢
    omega

theorem Repeats.comm {is : List ℕ} (his : is ∈ batches (iterations file.length)) {i j : ℕ}
    (hi : i ∈ is) (hj : j ∈ is) :
    chunk file i ++ chunk file j = chunk file j ++ chunk file i := by
  obtain ⟨k, hk⟩ := div_of_mem_batches his
  obtain ⟨hi', hi⟩ := hk i hi
  obtain ⟨hj', hj⟩ := hk j hj
  rcases lt_trichotomy i j with hij | rfl | hij
  · exact h.comm_of_lt hbuf hij hj (hi'.trans hj'.symm)
  · rfl
  · exact (h.comm_of_lt hbuf hij hi (hj'.trans hi'.symm)).symm

/-- In any order a batch sends its chunks. -/
theorem Repeats.flatMap_run {is : List ℕ} (his : is ∈ batches (iterations file.length))
    {run : List Op} (hrun : run.Perm (is.flatMap (requests file.length))) :
    run.flatMap (emits buffer) = is.flatMap (chunk file) := by
  rw [flatMap_perm_of_commute hrun, flatMap_emits h.chunks]
  -- an operation sends nothing or its chunk
  have hemits : ∀ op ∈ is.flatMap (requests file.length),
      emits buffer op = [] ∨ ∃ i ∈ is, emits buffer op = chunk file i := by
    intro op hop
    obtain ⟨i, hi, hop⟩ := List.mem_flatMap.mp hop
    rw [requests_eq] at hop
    rcases List.mem_cons.mp hop with rfl | hop
    · exact Or.inl rfl
    · obtain rfl := List.mem_singleton.mp hop
      exact Or.inr ⟨i, hi, (List.prefix_iff_eq_take.mp (h.chunks i)).symm⟩
  intro x hx y hy
  rcases hemits x hx with hx | ⟨i, hi, hx⟩
  · rw [hx, List.append_nil, List.nil_append]
  · rcases hemits y hy with hy | ⟨j, hj, hy⟩
    · rw [hy, List.append_nil, List.nil_append]
    · rw [hx, hy, h.comm hbuf his hi hj]

theorem Repeats.sent {runs : List (List Op)}
    (hruns : List.Forall₂ (fun run is => run.Perm (is.flatMap (requests file.length))) runs
      (batches (iterations file.length))) :
    (execAll (act file) runs.flatten ⟨buffer, []⟩).sent = file := by
  have hsame : ∀ {runs : List (List Op)} {iss : List (List ℕ)},
      List.Forall₂ (fun run is => run.Perm (is.flatMap (requests file.length))) runs iss →
      (∀ is ∈ iss, is ∈ batches (iterations file.length)) →
      (runs.flatMap fun run => run.flatMap (emits buffer)) =
        iss.flatten.flatMap (chunk file) := by
    intro runs iss hruns hmem
    induction hruns with
    | nil => rfl
    | cons hrun _ ih =>
      obtain ⟨his, hiss⟩ := List.forall_mem_cons.mp hmem
      rw [List.flatMap_cons, h.flatMap_run hbuf his hrun, ih hiss, List.flatten_cons,
        List.flatMap_append]
  rw [execAll_runs h.chunks hruns]
  show [] ++ _ = file
  rw [List.nil_append, hsame hruns fun _ his => his, flatten_batches, flatMap_chunk]

end Repeats

/-! ## Sends before reads -/

/-- The requests of the chunks, with the sends first. -/
def sendsFirst (file : List UInt8) (is : List ℕ) : List Op :=
  is.flatMap (fun i => [.send (chunk file i).length]) ++
    is.flatMap fun i => [.read (chunk file i).length (i * bufSize)]

theorem sendsFirst_perm (file : List UInt8) (is : List ℕ) :
    (sendsFirst file is).Perm (is.flatMap (requests file.length)) := by
  have hreq : is.flatMap (requests file.length) = is.flatMap fun i =>
      [.read (chunk file i).length (i * bufSize)] ++ [.send (chunk file i).length] :=
    List.flatMap_congr fun i _ => requests_eq file i
  rw [hreq]
  exact List.perm_append_comm.trans (List.flatMap_append_perm is _ _)

theorem execAll_sends (file : List UInt8) (is : List ℕ) (w : World) :
    execAll (act file) (is.flatMap fun i => [.send (chunk file i).length]) w =
      ⟨w.buffer, w.sent ++ is.flatMap fun i => w.buffer.take (chunk file i).length⟩ := by
  induction is generalizing w with
  | nil =>
    rw [List.flatMap_nil, List.flatMap_nil, List.append_nil]
    rfl
  | cons i is ih =>
    rw [List.flatMap_cons, execAll_append, ih, List.flatMap_cons, ← List.append_assoc]
    rfl

/-- Nothing that was sent is taken back. -/
theorem sent_isPrefix (file : List UInt8) (ops : List Op) (w : World) :
    w.sent <+: (execAll (act file) ops w).sent := by
  induction ops generalizing w with
  | nil => exact List.prefix_rfl
  | cons op ops ih =>
    refine List.IsPrefix.trans ?_ (ih (act file op w))
    cases op with
    | send n => exact List.prefix_append _ _
    | _ => exact List.prefix_rfl

/-- What the buffer has to hold for sends before reads to be right. -/
theorem held_of_sends {file buffer : List UInt8} (hbuf : buffer.length = bufSize) {is : List ℕ}
    {ops : List Op} {out rest : List UInt8}
    (h : (execAll (act file) ops
      ⟨buffer, out ++ is.flatMap fun i => buffer.take (chunk file i).length⟩).sent =
        out ++ (is.flatMap (chunk file) ++ rest)) :
    ∀ i ∈ is, chunk file i <+: buffer := by
  have hlen : ∀ i ∈ is, (buffer.take (chunk file i).length).length = (chunk file i).length :=
    fun i _ => List.length_take_of_le ((length_chunk_le file i).trans hbuf.ge)
  obtain ⟨more, hmore⟩ := sent_isPrefix file ops
    ⟨buffer, out ++ is.flatMap fun i => buffer.take (chunk file i).length⟩
  rw [h] at hmore
  dsimp only at hmore
  rw [List.append_assoc] at hmore
  have heq := (flatMap_append_inj hlen (List.append_cancel_left hmore)).1
  intro i hi
  rw [← heq i hi]
  exact List.take_prefix _ _

/-- Reads of what the buffer holds. -/
theorem execAll_reads {file buffer : List UInt8} {is : List ℕ}
    (hheld : ∀ i ∈ is, chunk file i <+: buffer) (out : List UInt8) :
    execAll (act file) (is.flatMap fun i => [.read (chunk file i).length (i * bufSize)])
      ⟨buffer, out⟩ = ⟨buffer, out⟩ := by
  induction is with
  | nil => rfl
  | cons i is ih =>
    obtain ⟨hi, his⟩ := List.forall_mem_cons.mp hheld
    have hread : Op.read (chunk file i).length (i * bufSize) ∈ requests file.length i := by
      rw [requests_eq]
      exact List.mem_cons_self
    rw [List.flatMap_cons, execAll_append]
    show execAll (act file) _ (act file (.read (chunk file i).length (i * bufSize))
      ⟨buffer, out⟩) = _
    rw [act_of_held hi hread]
    show execAll (act file) _ ⟨buffer, out ++ []⟩ = _
    rw [List.append_nil, ih his]

/-- If the file is sent although every batch sends first, the buffer holds every chunk from the
start. -/
theorem held_of_sendsFirst {file buffer : List UInt8} (hbuf : buffer.length = bufSize)
    (iss : List (List ℕ)) (out : List UInt8)
    (h : (execAll (act file) (iss.map (sendsFirst file)).flatten ⟨buffer, out⟩).sent =
      out ++ iss.flatten.flatMap (chunk file)) :
    ∀ i ∈ iss.flatten, chunk file i <+: buffer := by
  induction iss generalizing out with
  | nil => exact List.forall_mem_nil _
  | cons is iss ih =>
    rw [List.map_cons, List.flatten_cons, sendsFirst, List.append_assoc, execAll_append,
      execAll_sends, List.flatten_cons, List.flatMap_append] at h
    dsimp only at h
    have hheld := held_of_sends hbuf h
    have hsent : (is.flatMap fun i => buffer.take (chunk file i).length) =
        is.flatMap (chunk file) :=
      List.flatMap_congr fun i hi => (List.prefix_iff_eq_take.mp (hheld i hi)).symm
    -- the reads of the batch leave the buffer as it is
    rw [execAll_append, execAll_reads hheld, hsent, ← List.append_assoc] at h
    intro i hi
    rw [List.flatten_cons] at hi
    rcases List.mem_append.mp hi with hi | hi
    · exact hheld i hi
    · exact ih _ h i hi

/-! ## The last chunk before the one before it -/

/-- Batches sent chunk by chunk, in any order of the chunks. -/
theorem sent_chunks {file buffer : List UInt8} (h : ∀ i, chunk file i <+: buffer)
    (iss : List (List ℕ)) :
    (execAll (act file) (iss.map fun is => is.flatMap (requests file.length)).flatten
      ⟨buffer, []⟩).sent = iss.flatten.flatMap (chunk file) := by
  have hops : (iss.map fun is => is.flatMap (requests file.length)).flatten =
      iss.flatten.flatMap (requests file.length) := by
    rw [← List.flatMap_def, ← List.flatMap_id' (L := iss), List.flatMap_assoc]
  have hmem : ∀ op ∈ iss.flatten.flatMap (requests file.length),
      ∃ i, chunk file i <+: buffer ∧ op ∈ requests file.length i := by
    intro op hop
    obtain ⟨i, -, hop⟩ := List.mem_flatMap.mp hop
    exact ⟨i, h i, hop⟩
  rw [hops, execAll_of_held hmem, flatMap_emits h]
  exact List.nil_append _

/-- If the file is sent in every order of the chunks, the last one may come earlier. -/
theorem last_of_sent {file buffer : List UInt8} (hbuf : buffer.length = bufSize)
    (hheld : ∀ i, chunk file i <+: buffer)
    (h : ∀ iss, List.Forall₂ List.Perm iss (batches (iterations file.length)) →
      (execAll (act file) (iss.map fun is => is.flatMap (requests file.length)).flatten
        ⟨buffer, []⟩).sent = file)
    (hshared : file.length / bufSize % perBatch ≠ 0) :
    chunk file (file.length / bufSize) ++ buffer =
      buffer ++ chunk file (file.length / bufSize) := by
  obtain ⟨p, hp⟩ : ∃ p, file.length / bufSize = p + 1 := by
    refine Nat.exists_eq_succ_of_ne_zero fun h0 => hshared ?_
    rw [h0]
    exact Nat.zero_mod perBatch
  rw [hp] at hshared ⊢
  rw [← chunk_eq_buffer hbuf (hheld p) (by omega)]
  by_cases hrest : file.length % bufSize = 0
  · have hnil : chunk file (p + 1) = [] := by
      apply chunk_eq_nil
      rw [← hp, Nat.div_mul_cancel (Nat.dvd_of_mod_eq_zero hrest)]
    rw [hnil, List.append_nil, List.nil_append]
  · have hcount : iterations file.length = p + 1 + 1 := by
      rw [iterations_length]
      rw [show bufSize = 4096 from rfl] at hp hrest ⊢
      omega
    have hbatches := batches_succ_succ hshared
    rw [hcount, hbatches] at h
    have hfile := flatMap_chunk file
    rw [hcount, ← flatten_batches, hbatches] at hfile
    have hswap := h (_ ++ [batchUpTo (p / perBatch) (p % perBatch) ++ [p + 1] ++ [p]])
      (List.rel_append (List.forall₂_same.mpr fun is _ => List.Perm.refl is) (.cons (by
        rw [List.append_assoc, List.append_assoc]
        exact List.Perm.append_left _ (List.Perm.swap _ _ _)) .nil))
    rw [sent_chunks hheld] at hswap
    have hsame := hswap.trans hfile.symm
    simp only [List.flatten_append, List.flatten_singleton, List.flatMap_append,
      List.flatMap_singleton, List.append_assoc, List.append_cancel_left_eq] at hsame
    exact hsame

/-! ## Files that are too long -/

theorem length_sent_le (file : List UInt8) (is : List ℕ) (w : World) :
    (execAll (act file) (is.flatMap (requests file.length)) w).sent.length ≤
      w.sent.length + is.length * bufSize := by
  induction is generalizing w with
  | nil => exact Nat.le_add_right _ _
  | cons i is ih =>
    have hhead : (execAll (act file) (requests file.length i) w).sent.length ≤
        w.sent.length + bufSize := by
      rw [requests_eq]
      show (w.sent ++ List.take _ _).length ≤ _
      rw [List.length_append]
      exact Nat.add_le_add_left ((List.length_take_le _ _).trans (length_chunk_le file i)) _
    rw [List.flatMap_cons, execAll_append, List.length_cons, Nat.succ_mul]
    exact (ih _).trans (by omega)

/-- Some of the full batches are not the file. -/
theorem sent_ne_of_lt {file buffer : List UInt8} {n : ℕ} (hn : n * bufSize < file.length) :
    (execAll (act file) ((List.range (n / perBatch)).map fun j =>
      (batchUpTo j perBatch).flatMap (requests file.length)).flatten ⟨buffer, []⟩).sent ≠
        file := by
  intro h
  have hle := length_sent_le file (List.range (perBatch * (n / perBatch))) ⟨buffer, []⟩
  rw [← flatMap_batchUpTo, List.flatMap_assoc, List.flatMap_def, h, List.length_nil,
    flatMap_batchUpTo, List.length_range, Nat.zero_add] at hle
  have := Nat.mul_le_mul_right bufSize (Nat.mul_div_le n perBatch)
  omega

/-! ## All orders -/

/-- A file that is sent in all orders of its batches. -/
theorem repeats_of_sent {file buffer : List UInt8} (hbuf : buffer.length = bufSize)
    (h : ∀ runs, List.Forall₂ List.Perm runs ((batches (iterations file.length)).map
      fun is => is.flatMap (requests file.length)) →
        (execAll (act file) runs.flatten ⟨buffer, []⟩).sent = file) : Repeats file buffer := by
  have hfirst : (execAll (act file) ((batches (iterations file.length)).map
      (sendsFirst file)).flatten ⟨buffer, []⟩).sent = file := by
    refine h _ ?_
    rw [List.forall₂_map_left_iff, List.forall₂_map_right_iff, List.forall₂_same]
    exact fun is _ => sendsFirst_perm file is
  have hall := held_of_sendsFirst hbuf (batches (iterations file.length)) [] (by
    rw [hfirst, flatten_batches, flatMap_chunk]
    rfl)
  have hheld : ∀ i, chunk file i <+: buffer := by
    intro i
    by_cases hi : i < iterations file.length
    · refine hall i ?_
      rw [flatten_batches]
      exact List.mem_range.mpr hi
    · rw [chunk_eq_nil]
      · exact List.nil_prefix
      · have := mt lt_iterations.mpr hi
        exact_mod_cast not_lt.mp this
  refine ⟨hheld, last_of_sent hbuf hheld fun iss hiss => h _ ?_⟩
  rw [List.forall₂_map_left_iff, List.forall₂_map_right_iff]
  exact hiss.imp fun is is' hp => hp.flatMap_right _

/-- **The file is sent in all orders exactly if the buffer held each of its chunks from the start**,
the last one may as well come earlier in its batch, and the offsets stay clear of the end of
`off_t`. -/
theorem sends_file_iff {file buffer : List UInt8} (hbuf : buffer.length = bufSize)
    {ts : List Turn} (hlen : iterations file.length < ts.length) :
    SendsFile file buffer ((client file.length).trace (some started) ts) ↔
      (file.length : ℤ) + bufSize ≤ 2 ^ 63 ∧ Repeats file buffer := by
  have h0 : (0 : ℤ) ≤ file.length := Int.natCast_nonneg _
  unfold SendsFile
  constructor
  · intro h
    by_cases hfit : (file.length : ℤ) + bufSize ≤ 2 ^ 63
    · rw [flushes_sent h0 hfit hlen] at h
      exact ⟨hfit, repeats_of_sent hbuf h⟩
    · obtain ⟨n, hn, hflushes⟩ := overflow_run h0 (not_le.mp hfit) hlen
      rw [hflushes] at h
      refine absurd (h _ (List.forall₂_same.mpr fun ops _ => List.Perm.refl ops))
        (sent_ne_of_lt ?_)
      exact_mod_cast hn
  · rintro ⟨hfit, hrep⟩ runs hruns
    rw [flushes_sent h0 hfit hlen, List.forall₂_map_right_iff] at hruns
    exact hrep.sent hbuf hruns

/-- A file of one byte, which the buffer holds from the start. -/
theorem sends_file_iff_one :
    SendsFile [7] (List.replicate bufSize 7)
        ((client [(7 : UInt8)].length).trace (some started) ([0, 0].map promptTurn)) ↔
      ([(7 : UInt8)].length : ℤ) + bufSize ≤ 2 ^ 63 ∧ Repeats [7] (List.replicate bufSize 7) :=
  sends_file_iff List.length_replicate (by decide)

/-- From a buffer of zeros a file of one byte is not sent if the send comes before the read. -/
theorem not_sends_one :
    ¬ SendsFile [7] (List.replicate bufSize 0)
      ((client [(7 : UInt8)].length).trace (some started) ([0, 0].map promptTurn)) := by
  intro h
  have hsent := h [[.send 1, .read 1 0]] (.cons (List.Perm.swap _ _ []) .nil)
  have hzero : (execAll (act [7]) [.send 1, .read 1 0] ⟨List.replicate bufSize 0, []⟩).sent =
      [0] := rfl
  rw [List.flatten_singleton, hzero] at hsent
  exact absurd hsent (by decide)

end ClickhouseUring.UringClient
