import ClickhouseUring.Echo.RoundTrip
import ClickhouseUring.Kit.Transitions
import Mathlib.Data.Int.Notation

/-!
# The two programs of the echo at work

`client.c` and `server.c` from the moment they are connected, as two parties with a stream in each
direction.  A stream holds a bounded number of bytes; a `send` waits for room and may hand its bytes
over in parts, a `recv` waits for bytes or for the end of the stream.  The steps of the parties
interleave in any order.

Reads of local files succeed, and so do the writes of the server.  `recv.txt` may fail to open or to
take a write, the client's `recv` may time out, and a server that sends to a client that is gone may
be killed by the signal.  `response.txt` need not exist: the server opens it without a check.  What
an earlier run left in `recv.txt` is there until the client opens the file, which truncates it; an
open that fails leaves it as it is.
-/

namespace ClickhouseUring.Echo

/-! ## The parties -/

/-- Where `test` of `client.c` is; `send` and `write` have the bytes still to be taken. -/
inductive Client
  | read
  | send (bytes : List UInt8)
  | shutdown
  | openRecv
  | recv
  | write (bytes : List UInt8)
  | done (status : ℤ)
  deriving DecidableEq

/-- Where `test` of `server.c` is. -/
inductive Server
  | openResponse
  | read
  | write (bytes : List UInt8)
  | openReply
  | readReply
  | send (bytes : List UInt8)
  | done (status : ℤ)
  | killed
  deriving DecidableEq

/-- One direction of the connection. -/
structure Stream where
  bytes : List UInt8
  closed : Bool
  deriving DecidableEq

structure State where
  client : Client
  server : Server
  /-- What `read(file_fd, ..)` has not returned yet. -/
  temp : List UInt8
  /-- `response.txt`, with the position of the server's `recv_fd`. -/
  response : Option File
  /-- What `read(response_fd, ..)` has not returned yet. -/
  reply : List UInt8
  /-- `recv.txt`, with the position of the client's `recv_fd`. -/
  recv : Option File
  /-- The client has opened `recv.txt`. -/
  opened : Bool
  up : Stream
  down : Stream

/-- Connected, with the files as they are. -/
def State.init (temp : List UInt8) (response recv : Option (List UInt8)) : State where
  client := .read
  server := .openResponse
  temp := temp
  response := response.map File.opened
  reply := []
  recv := recv.map File.opened
  opened := false
  up := ⟨[], false⟩
  down := ⟨[], false⟩

/-! ## System calls -/

/-- A read of a file returns `n` bytes of the rest. -/
def ReadsFile (rest : List UInt8) (n : ℕ) : Prop :=
  n ≤ bufSize ∧ n ≤ rest.length ∧ (n = 0 → rest = [])

/-- A read of a socket returns `n` bytes: none only at the end of the stream. -/
def ReadsSocket (s : Stream) (n : ℕ) : Prop :=
  n ≤ bufSize ∧ n ≤ s.bytes.length ∧ (n = 0 → s.bytes = [] ∧ s.closed = true)

/-- A stream with room for `cap` bytes takes `n` of those to send. -/
def Takes (cap : ℕ) (s : Stream) (bytes : List UInt8) (n : ℕ) : Prop :=
  0 < n ∧ n ≤ bytes.length ∧ s.bytes.length + n ≤ cap

instance (rest : List UInt8) (n : ℕ) : Decidable (ReadsFile rest n) :=
  inferInstanceAs (Decidable (_ ∧ _ ∧ _))

instance (s : Stream) (n : ℕ) : Decidable (ReadsSocket s n) :=
  inferInstanceAs (Decidable (_ ∧ _ ∧ _))

instance (cap : ℕ) (s : Stream) (bytes : List UInt8) (n : ℕ) : Decidable (Takes cap s bytes n) :=
  inferInstanceAs (Decidable (_ ∧ _ ∧ _))

/-- `send` at the end of the stream. -/
def Stream.push (s : Stream) (bytes : List UInt8) : Stream := { s with bytes := s.bytes ++ bytes }

/-- `recv` at its front. -/
def Stream.pop (s : Stream) (n : ℕ) : Stream := { s with bytes := s.bytes.drop n }

/-- `shutdown` and `close`. -/
def Stream.close (s : Stream) : Stream := { s with closed := true }

/-- `send` returns when it has handed over its last byte. -/
def Client.sent (bytes : List UInt8) (n : ℕ) : Client :=
  if n = bytes.length then .read else .send (bytes.drop n)

def Server.sent (bytes : List UInt8) (n : ℕ) : Server :=
  if n = bytes.length then .readReply else .send (bytes.drop n)

def Client.finished : Client → Bool
  | .done _ => true
  | _ => false

/-! ## Steps -/

section Steps

variable (capUp capDown : ℕ)

/-- The client goes on; where it reads, receives or sends, the call moves `n` bytes. -/
def clientStep (s : State) (n : ℕ) : Option State :=
  match s.client with
  | .read =>
    if ReadsFile s.temp n then
      if n = 0 then some { s with client := .shutdown }
      else some { s with client := .send (s.temp.take n), temp := s.temp.drop n }
    else none
  | .send bytes =>
    if Takes capUp s.up bytes n then
      some { s with client := .sent bytes n, up := s.up.push (bytes.take n) }
    else none
  | .shutdown => some { s with client := .openRecv, up := s.up.close }
  | .openRecv => some { s with client := .recv, recv := some (File.opened []), opened := true }
  | .recv =>
    if ReadsSocket s.down n then
      if n = 0 then some { s with client := .done 0 }
      else some { s with client := .write (s.down.bytes.take n), down := s.down.pop n }
    else none
  | .write bytes => some { s with client := .recv, recv := s.recv.map fun f => f.write bytes }
  | .done _ => none

/-- The server goes on.  Where `response.txt` did not open, its writes do nothing; what it sends to
a client that is gone is lost. -/
def serverStep (s : State) (n : ℕ) : Option State :=
  match s.server with
  | .openResponse => some { s with server := .read }
  | .read =>
    if ReadsSocket s.up n then
      if n = 0 then some { s with server := .openReply }
      else some { s with server := .write (s.up.bytes.take n), up := s.up.pop n }
    else none
  | .write bytes =>
    some { s with server := .read, response := s.response.map fun f => f.write bytes }
  | .openReply =>
    match s.response with
    | none => some { s with server := .done (-1), down := s.down.close }
    | some f => some { s with server := .readReply, reply := f.content }
  | .readReply =>
    if ReadsFile s.reply n then
      if n = 0 then some { s with server := .done 0, down := s.down.close }
      else some { s with server := .send (s.reply.take n), reply := s.reply.drop n }
    else none
  | .send bytes =>
    if s.client.finished then
      if 0 < n ∧ n ≤ bytes.length then some { s with server := .sent bytes n } else none
    else if Takes capDown s.down bytes n then
      some { s with server := .sent bytes n, down := s.down.push (bytes.take n) }
    else none
  | .done _ => none
  | .killed => none

inductive Event
  | client (n : ℕ)
  | server (n : ℕ)
  /-- The client's `recv` has waited for five seconds. -/
  | timeout
  /-- `recv.txt` does not open, or a write to it stops after `n` bytes. -/
  | fault (n : ℕ)
  /-- The server is killed for sending to a client that is gone. -/
  | sigpipe
  deriving DecidableEq

/-- The client's calls that go wrong. -/
def faultStep (s : State) (n : ℕ) : Option State :=
  match s.client with
  | .openRecv => some { s with client := .done (-1) }
  | .write bytes =>
    if n < bytes.length then
      some { s with client := .done (-1), recv := s.recv.map fun f => f.write (bytes.take n) }
    else none
  | _ => none

/-- `recv` times out only while there is nothing to receive; `test` then returns 0 all the same. -/
def timeoutStep (s : State) : Option State :=
  if s.client = .recv ∧ s.down = ⟨[], false⟩ then some { s with client := .done 0 } else none

def sigpipeStep (s : State) : Option State :=
  match s.server with
  | .send _ =>
    if s.client.finished then some { s with server := .killed, down := s.down.close } else none
  | _ => none

def step (s : State) : Event → Option State
  | .client n => clientStep capUp s n
  | .server n => serverStep capDown s n
  | .timeout => timeoutStep s
  | .fault n => faultStep s n
  | .sigpipe => sigpipeStep s

end Steps

/-! ## What a step can do -/

theorem eq_ended {s : Stream} (h : ReadsSocket s 0) : s = ⟨[], true⟩ := by
  obtain ⟨bytes, closed⟩ := s
  obtain ⟨rfl, rfl⟩ := h.2.2 rfl
  rfl

/-- Every step, with what it needs, room in the streams aside. -/
inductive Moves (s : State) : Event → State → Prop
  | clientRead {n : ℕ} (hc : s.client = .read) (hr : ReadsFile s.temp n) (hn : n ≠ 0) :
    Moves s (.client n)
      { s with client := .send (s.temp.take n), temp := s.temp.drop n }
  | clientReadEnd (hc : s.client = .read) (hr : s.temp = []) :
    Moves s (.client 0) { s with client := .shutdown }
  | clientSend {n : ℕ} {bytes : List UInt8} (hc : s.client = .send bytes) (hn : 0 < n)
    (hlen : n < bytes.length) :
    Moves s (.client n)
      { s with client := .send (bytes.drop n), up := s.up.push (bytes.take n) }
  | clientSent {bytes : List UInt8} (hc : s.client = .send bytes) (hlen : 0 < bytes.length) :
    Moves s (.client bytes.length)
      { s with client := .read, up := s.up.push bytes }
  | clientShutdown {n : ℕ} (hc : s.client = .shutdown) :
    Moves s (.client n) { s with client := .openRecv, up := s.up.close }
  | clientOpen {n : ℕ} (hc : s.client = .openRecv) :
    Moves s (.client n)
      { s with client := .recv, recv := some (File.opened []), opened := true }
  | clientRecv {n : ℕ} (hc : s.client = .recv) (hr : ReadsSocket s.down n) (hn : n ≠ 0) :
    Moves s (.client n)
      { s with client := .write (s.down.bytes.take n), down := s.down.pop n }
  | clientRecvEnd (hc : s.client = .recv) (hr : s.down = ⟨[], true⟩) :
    Moves s (.client 0) { s with client := .done 0 }
  | clientWrite {n : ℕ} {bytes : List UInt8} (hc : s.client = .write bytes) :
    Moves s (.client n)
      { s with client := .recv, recv := s.recv.map fun f => f.write bytes }
  | serverOpen {n : ℕ} (hc : s.server = .openResponse) :
    Moves s (.server n) { s with server := .read }
  | serverRead {n : ℕ} (hc : s.server = .read) (hr : ReadsSocket s.up n) (hn : n ≠ 0) :
    Moves s (.server n)
      { s with server := .write (s.up.bytes.take n), up := s.up.pop n }
  | serverReadEnd (hc : s.server = .read) (hr : s.up = ⟨[], true⟩) :
    Moves s (.server 0) { s with server := .openReply }
  | serverWrite {n : ℕ} {bytes : List UInt8} (hc : s.server = .write bytes) :
    Moves s (.server n)
      { s with server := .read, response := s.response.map fun f => f.write bytes }
  | serverNoReply {n : ℕ} (hc : s.server = .openReply) (hf : s.response = none) :
    Moves s (.server n) { s with server := .done (-1), down := s.down.close }
  | serverOpenReply {n : ℕ} {f : File} (hc : s.server = .openReply) (hf : s.response = some f) :
    Moves s (.server n) { s with server := .readReply, reply := f.content }
  | serverReadReply {n : ℕ} (hc : s.server = .readReply) (hr : ReadsFile s.reply n) (hn : n ≠ 0) :
    Moves s (.server n)
      { s with server := .send (s.reply.take n), reply := s.reply.drop n }
  | serverReplyEnd (hc : s.server = .readReply) (hr : s.reply = []) :
    Moves s (.server 0) { s with server := .done 0, down := s.down.close }
  | serverSend {n : ℕ} {bytes : List UInt8} (hc : s.server = .send bytes)
    (hgone : s.client.finished = false) (hn : 0 < n) (hlen : n < bytes.length) :
    Moves s (.server n)
      { s with server := .send (bytes.drop n), down := s.down.push (bytes.take n) }
  | serverSent {bytes : List UInt8} (hc : s.server = .send bytes)
    (hgone : s.client.finished = false) (hlen : 0 < bytes.length) :
    Moves s (.server bytes.length)
      { s with server := .readReply, down := s.down.push bytes }
  | serverLose {n : ℕ} {bytes : List UInt8} (hc : s.server = .send bytes)
    (hgone : s.client.finished = true) (hn : 0 < n) (hlen : n < bytes.length) :
    Moves s (.server n) { s with server := .send (bytes.drop n) }
  | serverLost {bytes : List UInt8} (hc : s.server = .send bytes)
    (hgone : s.client.finished = true) (hlen : 0 < bytes.length) :
    Moves s (.server bytes.length) { s with server := .readReply }
  | timeout (hc : s.client = .recv) (hd : s.down = ⟨[], false⟩) :
    Moves s .timeout { s with client := .done 0 }
  | openFault {n : ℕ} (hc : s.client = .openRecv) :
    Moves s (.fault n) { s with client := .done (-1) }
  | writeFault {n : ℕ} {bytes : List UInt8} (hc : s.client = .write bytes)
    (hn : n < bytes.length) :
    Moves s (.fault n)
      { s with client := .done (-1), recv := s.recv.map fun f => f.write (bytes.take n) }
  | sigpipe {bytes : List UInt8} (hc : s.server = .send bytes)
    (hgone : s.client.finished = true) :
    Moves s .sigpipe { s with server := .killed, down := s.down.close }

variable {capUp capDown : ℕ} {s s' : State} {e : Event}

theorem moves_client {n : ℕ} (h : clientStep capUp s n = some s') :
    Moves s (.client n) s' := by
  unfold clientStep at h
  split at h
  case h_1 hc =>
    split_ifs at h with hr hn
    · obtain rfl := Option.some.inj h
      subst hn
      exact .clientReadEnd hc (hr.2.2 rfl)
    · obtain rfl := Option.some.inj h
      exact .clientRead hc hr hn
  case h_2 hc =>
    split_ifs at h with ht
    obtain ⟨hn, hlen, -⟩ := ht
    unfold Client.sent at h
    split_ifs at h with hlast
    · subst hlast
      rw [List.take_length] at h
      obtain rfl := Option.some.inj h
      exact .clientSent hc hn
    · obtain rfl := Option.some.inj h
      exact .clientSend hc hn (Nat.lt_of_le_of_ne hlen hlast)
  case h_3 hc =>
    obtain rfl := Option.some.inj h
    exact .clientShutdown hc
  case h_4 hc =>
    obtain rfl := Option.some.inj h
    exact .clientOpen hc
  case h_5 hc =>
    split_ifs at h with hr hn
    · obtain rfl := Option.some.inj h
      subst hn
      exact .clientRecvEnd hc (eq_ended hr)
    · obtain rfl := Option.some.inj h
      exact .clientRecv hc hr hn
  case h_6 hc =>
    obtain rfl := Option.some.inj h
    exact .clientWrite hc
  case h_7 hc => cases h

theorem moves_server {n : ℕ} (h : serverStep capDown s n = some s') :
    Moves s (.server n) s' := by
  unfold serverStep at h
  split at h
  case h_1 hc =>
    obtain rfl := Option.some.inj h
    exact .serverOpen hc
  case h_2 hc =>
    split_ifs at h with hr hn
    · obtain rfl := Option.some.inj h
      subst hn
      exact .serverReadEnd hc (eq_ended hr)
    · obtain rfl := Option.some.inj h
      exact .serverRead hc hr hn
  case h_3 hc =>
    obtain rfl := Option.some.inj h
    exact .serverWrite hc
  case h_4 hc =>
    split at h
    case h_1 hf =>
      obtain rfl := Option.some.inj h
      exact .serverNoReply hc hf
    case h_2 hf =>
      obtain rfl := Option.some.inj h
      exact .serverOpenReply hc hf
  case h_5 hc =>
    split_ifs at h with hr hn
    · obtain rfl := Option.some.inj h
      subst hn
      exact .serverReplyEnd hc (hr.2.2 rfl)
    · obtain rfl := Option.some.inj h
      exact .serverReadReply hc hr hn
  case h_6 hc =>
    unfold Server.sent at h
    split_ifs at h with hgone hn hlast ht hlast
    · subst hlast
      obtain rfl := Option.some.inj h
      exact .serverLost hc hgone hn.1
    · obtain rfl := Option.some.inj h
      exact .serverLose hc hgone hn.1 (Nat.lt_of_le_of_ne hn.2 hlast)
    · subst hlast
      rw [List.take_length] at h
      obtain rfl := Option.some.inj h
      exact .serverSent hc (Bool.eq_false_iff.mpr hgone) ht.1
    · obtain rfl := Option.some.inj h
      exact .serverSend hc (Bool.eq_false_iff.mpr hgone) ht.1 (Nat.lt_of_le_of_ne ht.2.1 hlast)
  case h_7 hc => cases h
  case h_8 hc => cases h

theorem moves_of_step (h : step capUp capDown s e = some s') : Moves s e s' := by
  cases e with
  | client n => exact moves_client h
  | server n => exact moves_server h
  | timeout =>
    unfold step timeoutStep at h
    split_ifs at h with hc
    obtain rfl := Option.some.inj h
    exact .timeout hc.1 hc.2
  | fault n =>
    unfold step faultStep at h
    dsimp only at h
    split at h
    case h_1 hc =>
      obtain rfl := Option.some.inj h
      exact .openFault hc
    case h_2 hc =>
      split_ifs at h with hn
      obtain rfl := Option.some.inj h
      exact .writeFault hc hn
    case h_3 hc => cases h
  | sigpipe =>
    unfold step sigpipeStep at h
    dsimp only at h
    split at h
    case h_1 hc =>
      split_ifs at h with hgone
      obtain rfl := Option.some.inj h
      exact .sigpipe hc hgone
    case h_2 hc => cases h

end ClickhouseUring.Echo
