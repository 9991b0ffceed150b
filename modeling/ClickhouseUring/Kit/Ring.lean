import Mathlib.Data.List.Basic
import Mathlib.Tactic.Common

/-!
# Submission rings

A ring of operations of type `α`.  A program drives it with commands: it queues operations one
by one, may link the last one to its successor, hands all queued operations to the kernel at
once and reaps completions one by one.  A wait with nothing in flight never returns; `exec` then
gives `none`.

On a ring with a bounded number of submission slots `resolve` settles which of the pushes queue
their operation.

`flushes` reads the flushes off a command sequence alone: for each submission how much it handed
over, how much was still unreaped from before, and how many waits follow it directly.
-/

namespace Uring

/-- A submission queue entry.  A linked entry completes before the next one of its submission
starts. -/
structure Sqe (α : Type*) where
  op : α
  link : Bool
deriving DecidableEq, Repr

/-- What a program asks of its ring. -/
inductive Cmd (α : Type*)
  /-- Install a fresh, empty ring. -/
  | init
  /-- Try to queue an operation; `ok` says whether it was queued. -/
  | push (op : α) (ok : Bool)
  /-- Link the entry queued last. -/
  | link
  /-- Hand every queued entry to the kernel. -/
  | submit
  /-- Block for one completion and mark it seen. -/
  | wait
deriving DecidableEq, Repr

/-- The entries not yet submitted, and how many submitted ones are not yet reaped. -/
structure IoRing (α : Type*) where
  queued : List (Sqe α)
  inflight : ℕ
deriving DecidableEq, Repr

variable {α : Type*}

/-- Link the last entry of a queue. -/
def linkLast : List (Sqe α) → List (Sqe α)
  | [] => []
  | [q] => [{ q with link := true }]
  | q :: q' :: qs => q :: linkLast (q' :: qs)

@[simp] theorem linkLast_concat (qs : List (Sqe α)) (q : Sqe α) :
    linkLast (qs ++ [q]) = qs ++ [{ q with link := true }] := by
  induction qs with
  | nil => rfl
  | cons p qs ih =>
    cases qs with
    | nil => rfl
    | cons p' qs => exact congrArg (p :: ·) ih

namespace IoRing

/-- A ring with nothing on it. -/
def empty : IoRing α := ⟨[], 0⟩

/-- How many entries are queued or submitted and not yet reaped. -/
def outstanding (r : IoRing α) : ℕ := r.queued.length + r.inflight

/-- The effect of one command. -/
def exec (r : IoRing α) : Cmd α → Option (IoRing α)
  | .init => some empty
  | .push op ok => some (if ok then { r with queued := r.queued ++ [⟨op, false⟩] } else r)
  | .link => some { r with queued := linkLast r.queued }
  | .submit => some ⟨[], r.inflight + r.queued.length⟩
  | .wait => if r.inflight = 0 then none else some { r with inflight := r.inflight - 1 }

/-- Queue one more entry. -/
def add (r : IoRing α) (q : Sqe α) : IoRing α := { r with queued := r.queued ++ [q] }

/-- The effect of a command sequence; `none` when one of its waits never returns. -/
def run (r : IoRing α) : List (Cmd α) → Option (IoRing α)
  | [] => some r
  | c :: cs => (r.exec c).bind fun r' => r'.run cs

@[simp] theorem run_nil (r : IoRing α) : r.run [] = some r := rfl

@[simp] theorem run_cons (r : IoRing α) (c : Cmd α) (cs : List (Cmd α)) :
    r.run (c :: cs) = (r.exec c).bind fun r' => r'.run cs := rfl

@[simp] theorem outstanding_add (r : IoRing α) (q : Sqe α) :
    (r.add q).outstanding = r.outstanding + 1 := by
  simp only [outstanding, add, List.length_append, List.length_singleton]; omega

theorem run_append (r : IoRing α) (cs ds : List (Cmd α)) :
    r.run (cs ++ ds) = (r.run cs).bind fun r' => r'.run ds := by
  induction cs generalizing r with
  | nil => rfl
  | cons c cs ih =>
    rw [List.cons_append, run_cons, run_cons, Option.bind_assoc]
    simp only [ih]

/-- `n` waits succeed exactly when at least `n` entries are in flight. -/
theorem run_waits (r : IoRing α) (n : ℕ) :
    r.run (List.replicate n .wait) =
      if n ≤ r.inflight then some { r with inflight := r.inflight - n } else none := by
  induction n generalizing r with
  | zero => simp
  | succ n ih =>
    rw [List.replicate_succ, run_cons]
    by_cases h0 : r.inflight = 0
    · rw [if_neg (by omega)]
      simp [exec, h0]
    · have hw : r.exec .wait = some { r with inflight := r.inflight - 1 } := by
        simp [exec, h0]
      rw [hw, Option.bind_some, ih]
      simp only [Nat.sub_sub, Nat.add_comm 1 n]
      by_cases hn : n + 1 ≤ r.inflight
      · rw [if_pos hn, if_pos (show n ≤ r.inflight - 1 by omega)]
      · rw [if_neg hn, if_neg (show ¬ n ≤ r.inflight - 1 by omega)]

/-- A submission followed by waits for at most as many entries as are outstanding. -/
theorem run_submit_waits {r : IoRing α} {n : ℕ} (h : n ≤ r.outstanding) :
    r.run (.submit :: List.replicate n .wait) = some ⟨[], r.outstanding - n⟩ := by
  have hs : r.exec .submit = some ⟨[], r.outstanding⟩ := by
    unfold outstanding
    rw [Nat.add_comm]
    rfl
  rw [run_cons, hs, Option.bind_some, run_waits, if_pos h]

/-- A submission followed by as many waits as entries are outstanding empties the ring. -/
theorem run_flush (r : IoRing α) :
    r.run (.submit :: List.replicate r.outstanding .wait) = some empty := by
  rw [run_submit_waits (Nat.le_refl _), Nat.sub_self]
  rfl

end IoRing

/-! ## Bounded rings -/

/-- A command as it goes on a ring that has a free slot or not. -/
def Cmd.settle (free : Bool) : Cmd α → Cmd α
  | .push op _ => .push op free
  | c => c

/-- What becomes of a command sequence on a ring with `entries` submission slots: a push with no
slot left queues nothing, and nothing comes after a wait that never returns. -/
def resolve (entries : ℕ) (r : IoRing α) : List (Cmd α) → List (Cmd α)
  | [] => []
  | c :: cs =>
    let c := c.settle (decide (r.queued.length < entries))
    c :: match r.exec c with
      | none => []
      | some r' => resolve entries r' cs

section Resolve

variable {entries : ℕ} {r : IoRing α}

theorem resolve_push (h : r.queued.length < entries) (op : α) (cs : List (Cmd α)) :
    resolve entries r (.push op true :: cs) =
      .push op true :: resolve entries (r.add ⟨op, false⟩) cs := by
  rw [resolve, Cmd.settle, decide_eq_true h]
  rfl

theorem resolve_waits {n : ℕ} (h : n ≤ r.inflight) :
    resolve entries r (List.replicate n .wait) = List.replicate n .wait := by
  induction n generalizing r with
  | zero => rfl
  | succ n ih =>
    have hw : r.exec .wait = some { r with inflight := r.inflight - 1 } := by
      unfold IoRing.exec
      rw [if_neg (by omega)]
    have htail : resolve entries { r with inflight := r.inflight - 1 } (List.replicate n .wait) =
        List.replicate n .wait := by
      apply ih
      show n ≤ r.inflight - 1
      omega
    rw [List.replicate_succ, resolve, Cmd.settle, hw]
    · exact congrArg (Cmd.wait :: ·) htail
    · rintro _ _ ⟨⟩

/-- A flush of everything outstanding pushes nothing and blocks nowhere. -/
theorem resolve_flush :
    resolve entries r (.submit :: List.replicate r.outstanding .wait) =
      .submit :: List.replicate r.outstanding .wait := by
  rw [resolve, Cmd.settle]
  · refine congrArg (Cmd.submit :: ·) (resolve_waits ?_)
    show r.queued.length + r.inflight ≤ r.inflight + r.queued.length
    omega
  · rintro _ _ ⟨⟩

end Resolve

/-! ## Flushes -/

/-- One submission and the waits that follow it. -/
structure Flush where
  /-- Entries this submission hands over. -/
  submitted : ℕ
  /-- Entries submitted earlier and still unreaped. -/
  leftover : ℕ
  /-- Waits directly after the submission. -/
  waits : ℕ
deriving DecidableEq, Repr

/-- The flush waits once for each entry it submitted, and there is nothing else to reap. -/
def Flush.Balanced (f : Flush) : Prop := f.leftover = 0 ∧ f.waits = f.submitted

instance (f : Flush) : Decidable f.Balanced := by unfold Flush.Balanced; infer_instance

/-- The waits a command sequence starts with. -/
def leadingWaits : List (Cmd α) → ℕ
  | .wait :: cs => leadingWaits cs + 1
  | _ => 0

/-- The flush that command `c`, with `cs` still to come, starts on ring `r`. -/
def flushAt (r : IoRing α) (c : Cmd α) (cs : List (Cmd α)) : List Flush :=
  match c with
  | .submit => [⟨r.queued.length, r.inflight, leadingWaits cs⟩]
  | _ => []

/-- The flushes of a command sequence, up to a wait that never returns. -/
def flushes (r : IoRing α) : List (Cmd α) → List Flush
  | [] => []
  | c :: cs => flushAt r c cs ++
    match r.exec c with
    | none => []
    | some r' => flushes r' cs

/-- The operations a command sequence queues, in order. -/
def pushed : List (Cmd α) → List α
  | [] => []
  | .push op ok :: cs => if ok then op :: pushed cs else pushed cs
  | _ :: cs => pushed cs

@[simp] theorem leadingWaits_replicate (n : ℕ) :
    leadingWaits (List.replicate n (.wait : Cmd α)) = n := by
  induction n with
  | zero => rfl
  | succ n ih => simp only [List.replicate_succ, leadingWaits, ih]

theorem flushes_replicate_wait (r : IoRing α) (n : ℕ) :
    flushes r (List.replicate n .wait) = [] := by
  induction n generalizing r with
  | zero => rfl
  | succ n ih =>
    rw [List.replicate_succ, flushes]
    cases h : r.exec .wait with
    | none => rfl
    | some r' => simpa [flushAt] using ih r'

theorem flushes_push (r : IoRing α) (op : α) (cs : List (Cmd α)) :
    flushes r (.push op true :: cs) = flushes (r.add ⟨op, false⟩) cs := rfl

/-- A submission followed by `n` waits is one flush. -/
theorem flushes_flush (r : IoRing α) (n : ℕ) :
    flushes r (.submit :: List.replicate n .wait) =
      [⟨r.queued.length, r.inflight, n⟩] := by
  have hs : r.exec .submit = some ⟨[], r.inflight + r.queued.length⟩ := rfl
  simp only [flushes, flushAt, hs, flushes_replicate_wait, leadingWaits_replicate,
    List.append_nil]

/-- Installing a fresh ring afterwards is no part of a flush. -/
theorem leadingWaits_concat_init (cs : List (Cmd α)) :
    leadingWaits (cs ++ [.init]) = leadingWaits cs := by
  induction cs with
  | nil => rfl
  | cons c cs ih =>
    cases c with
    | wait => exact congrArg (· + 1) ih
    | _ => rfl

theorem flushes_concat_init (r : IoRing α) (cs : List (Cmd α)) :
    flushes r (cs ++ [.init]) = flushes r cs := by
  induction cs generalizing r with
  | nil => rfl
  | cons c cs ih =>
    have hat : flushAt r c (cs ++ [.init]) = flushAt r c cs := by
      cases c with
      | submit => simp only [flushAt, leadingWaits_concat_init]
      | _ => rfl
    rw [List.cons_append, flushes, flushes, hat]
    cases r.exec c with
    | none => rfl
    | some r' => simp only [ih]

/-- How many completions a command sequence reaps. -/
def waits (cs : List (Cmd α)) : ℕ := cs.countP fun c => c matches .wait

@[simp] theorem waits_replicate (n : ℕ) : waits (List.replicate n (.wait : Cmd α)) = n := by
  unfold waits
  rw [List.countP_replicate, if_pos rfl]

@[simp] theorem pushed_replicate_wait (n : ℕ) :
    pushed (List.replicate n (.wait : Cmd α)) = [] := by
  induction n with
  | zero => rfl
  | succ n ih => simp only [List.replicate_succ, pushed, ih]

end Uring
