import ClickhouseUring.Kit.File

/-!
# The echo of `iouring_hotpatch/client.c` and `server.c`

The client sends `temp.txt` and shuts its side down; the server writes what it reads to
`response.txt`, then sends that file back; the client stores the answer in `recv.txt`.  Sends and
writes transfer in full, and the reads of a file or stream may return any parts of up to `BUF_SIZE`
bytes.

The server opens `response.txt` without truncating it.  What the file held beyond the length of
`temp.txt` comes back as well (`received_eq`).
-/

namespace ClickhouseUring.Echo

/-- `BUF_SIZE`. -/
def bufSize : ℕ := 1024

/-- Sending on a socket appends to its stream. -/
def send (stream bytes : List UInt8) : List UInt8 := stream ++ bytes

/-! ## The loops of the source -/

/-- The first loop of `test` in `client.c`: the stream it sends. -/
def clientSend (buf : List UInt8) (reads : List (List UInt8)) : List UInt8 :=
  copyLoop send buf [] reads

/-- The first loop of `test` in `server.c`: `response.txt`, opened with `O_RDWR`, afterwards. -/
def serverStore (buf response : List UInt8) (reads : List (List UInt8)) : List UInt8 :=
  (copyLoop File.write buf (File.opened response) reads).content

/-- The second loop of `test` in `server.c`: the stream it sends. -/
def serverReply (buf : List UInt8) (reads : List (List UInt8)) : List UInt8 :=
  copyLoop send buf [] reads

/-- The second loop of `test` in `client.c`: `recv.txt`, opened with `O_TRUNC`, afterwards. -/
def clientReceive (buf : List UInt8) (reads : List (List UInt8)) : List UInt8 :=
  (copyLoop File.write buf (File.opened []) reads).content

/-! ## The round trip -/

/-- A run of the two programs in which both `test` functions return 0 and no `recv` fails, with
`temp.txt` at the client and `response.txt` at the server.  Before each of the four loops the buffer
may hold anything. -/
structure Run (temp response : List UInt8) where
  bufs : Fin 4 → List UInt8
  tempReads : Segmentation bufSize temp
  serverReads : Segmentation bufSize (clientSend (bufs 0) tempReads.parts)
  responseReads : Segmentation bufSize (serverStore (bufs 1) response serverReads.parts)
  clientReads : Segmentation bufSize (serverReply (bufs 2) responseReads.parts)

/-- The content of `recv.txt` after the run. -/
def Run.received {temp response : List UInt8} (r : Run temp response) : List UInt8 :=
  clientReceive (r.bufs 3) r.clientReads.parts

theorem foldl_send (stream : List UInt8) (parts : List (List UInt8)) :
    parts.foldl send stream = stream ++ parts.flatten := by
  induction parts generalizing stream with
  | nil => exact (List.append_nil stream).symm
  | cons p parts ih => rw [List.foldl_cons, ih, send, List.flatten_cons, List.append_assoc]

section Segments

variable {stream : List UInt8} (buf : List UInt8) (seg : Segmentation bufSize stream)

theorem clientSend_eq : clientSend buf seg.parts = stream := by
  unfold clientSend
  rw [copyLoop_eq, foldl_send, seg.flatten_eq, List.nil_append]

theorem serverReply_eq : serverReply buf seg.parts = stream := clientSend_eq buf seg

theorem serverStore_eq (response : List UInt8) :
    serverStore buf response seg.parts = stream ++ response.drop stream.length := by
  unfold serverStore
  rw [copyLoop_eq, File.foldl_write, File.content_write_opened, seg.flatten_eq]

theorem clientReceive_eq : clientReceive buf seg.parts = stream := by
  unfold clientReceive
  rw [copyLoop_eq, File.foldl_write, File.content_write_opened, seg.flatten_eq, List.drop_nil,
    List.append_nil]

end Segments

/-- However the streams are cut, the client gets `temp.txt` and what `response.txt` held beyond
its length. -/
theorem received_eq {temp response : List UInt8} (r : Run temp response) :
    r.received = temp ++ response.drop temp.length := by
  unfold Run.received
  rw [clientReceive_eq, serverReply_eq, serverStore_eq, clientSend_eq]

/-- **Round trip.** `recv.txt` is `temp.txt` exactly when `response.txt` was no longer than it. -/
theorem received_eq_temp_iff {temp response : List UInt8} (r : Run temp response) :
    r.received = temp ↔ response.length ≤ temp.length := by
  rw [received_eq, List.append_right_eq_self, List.drop_eq_nil_iff]

/-- Two bytes echoed through a file of five. -/
theorem not_received_eq_temp :
    ∃ r : Run [104, 105] [104, 101, 108, 108, 111],
      r.received = [104, 105, 108, 108, 111] ∧ r.received ≠ [104, 105] := by
  refine ⟨⟨fun _ => [], .single ⟨by decide, by decide⟩, .single ⟨by decide, by decide⟩,
    .single ⟨by decide, by decide⟩, .single ⟨by decide, by decide⟩⟩, rfl, ?_⟩
  show [104, 105, 108, 108, 111] ≠ [104, 105]
  decide

end ClickhouseUring.Echo
