import Mathlib.Data.Int.Notation
import Mathlib.Data.List.Basic
import Mathlib.Data.List.Perm.Basic
import Mathlib.Tactic.Common

/-!
# The queues of an io_uring instance

`Queues α` keeps operations of type `α` apart by where they are: in the submission queue,
submitted and running, or completed with a completion in the completion queue.  Every operation
yields one completion.

A `Service` is what the kernel may do while the program waits: it completes running operations in
any order and with any results, as many as the program waits for.
-/

namespace Uring

variable {α : Type*}

/-- A completion queue entry. -/
structure Cqe (α : Type*) where
  op : α
  res : ℤ
deriving DecidableEq, Repr

/-- The entries queued, the operations running, and the completions not yet seen. -/
structure Queues (α : Type*) where
  queued : List α
  running : List α
  posted : List (Cqe α)
deriving DecidableEq, Repr

namespace Queues

/-- Nothing queued, running or completed. -/
def empty : Queues α := ⟨[], [], []⟩

/-- `io_uring_get_sqe` on a ring with `entries` submission entries, prepared with `op`; it fails
when all entries are taken. -/
def getSqe (entries : ℕ) (r : Queues α) (op : α) : Option (Queues α) :=
  if r.queued.length < entries then some { r with queued := r.queued ++ [op] } else none

/-- `io_uring_submit`. -/
def submit (r : Queues α) : Queues α := { r with queued := [], running := r.running ++ r.queued }

/-- The operations submitted whose completions have not been seen. -/
def outstanding (r : Queues α) : List α := r.running ++ r.posted.map Cqe.op

/-- The first completion, and the queues once it is marked seen. -/
def next (r : Queues α) : Option (Cqe α × Queues α) :=
  match r.posted with
  | [] => none
  | c :: cs => some (c, { r with posted := cs })

/-- Peek at and see `n` completions, up to the first peek that finds none. -/
def reap : ℕ → Queues α → List (Option (Cqe α)) × Queues α
  | 0, r => ([], r)
  | n + 1, r =>
    match r.next with
    | none => ([none], r)
    | some (c, r) => let p := reap n r; (some c :: p.1, p.2)

end Queues

/-- The completions that the kernel posts while the program waits for `n` of them. -/
structure Service (α : Type*) where
  posts : Queues α → ℕ → List (Cqe α)
  leaves : Queues α → ℕ → List α
  perm : ∀ (r : Queues α) n, r.running.Perm ((posts r n).map Cqe.op ++ leaves r n)
  enough : ∀ (r : Queues α) n, n ≤ r.outstanding.length → n ≤ (r.posted ++ posts r n).length

/-- The queues after a wait for `n` completions, which does not return if fewer are outstanding. -/
def Service.wait (k : Service α) (n : ℕ) (r : Queues α) : Option (Queues α) :=
  if n ≤ r.outstanding.length then
    some { r with running := k.leaves r n, posted := r.posted ++ k.posts r n }
  else none

/-- `io_uring_wait_cqe`; the completion is then marked seen. -/
def Service.waitCqe (k : Service α) (r : Queues α) : Option (Cqe α × Queues α) :=
  (k.wait 1 r).bind Queues.next

/-- `n` waits one after the other, from the `i`-th on, each with a service of its own. -/
def waitCqes (ks : ℕ → Service α) : ℕ → ℕ → Queues α → Option (List (Cqe α) × Queues α)
  | 0, _, r => some ([], r)
  | n + 1, i, r => do
    let (c, r) ← (ks i).waitCqe r
    let (cs, r) ← waitCqes ks n (i + 1) r
    return (c :: cs, r)

/-- Everything completes at once and in order. -/
def Service.prompt (res : α → ℤ) : Service α where
  posts r _ := r.running.map fun op => ⟨op, res op⟩
  leaves _ _ := []
  perm r n := by
    rw [List.map_map, List.append_nil]
    exact List.Perm.of_eq (List.map_id r.running).symm
  enough r n h := by
    unfold Queues.outstanding at h
    rw [List.length_append, List.length_map] at h ⊢
    omega

/-! ## Facts -/

namespace Queues

theorem getSqe_eq {entries : ℕ} {r : Queues α} (h : r.queued.length < entries) (op : α) :
    r.getSqe entries op = some { r with queued := r.queued ++ [op] } := if_pos h

theorem eq_empty {r : Queues α} (hqueued : r.queued = []) (hout : r.outstanding = []) :
    r = empty := by
  obtain ⟨queued, running, posted⟩ := r
  obtain ⟨hrunning, hposted⟩ := List.append_eq_nil_iff.mp hout
  cases hqueued
  cases hrunning
  cases List.map_eq_nil_iff.mp hposted
  rfl

/-- Peeks find the completions that are there. -/
theorem reap_eq {n : ℕ} {r : Queues α} (h : n ≤ r.posted.length) :
    r.reap n = ((r.posted.take n).map some, { r with posted := r.posted.drop n }) := by
  induction n generalizing r with
  | zero => rfl
  | succ n ih =>
    obtain ⟨queued, running, posted⟩ := r
    cases posted with
    | nil => exact absurd h (Nat.not_succ_le_zero n)
    | cons c cs =>
      have hcs : n ≤ cs.length := Nat.le_of_succ_le_succ h
      show (let p := reap n ⟨queued, running, cs⟩; (some c :: p.1, p.2)) = _
      dsimp only
      rw [ih (show n ≤ (Queues.mk queued running cs).posted.length from hcs)]
      rfl

end Queues

theorem Service.posted_of_wait {k : Service α} {n : ℕ} {r r' : Queues α}
    (h : k.wait n r = some r') : r'.posted = r.posted ++ k.posts r n := by
  unfold Service.wait at h
  split_ifs at h
  rw [← Option.some.inj h]

/-- A wait returns a completion that was there or is posted now. -/
theorem Service.mem_of_waitCqe {k : Service α} {r r' : Queues α} {c : Cqe α}
    (h : k.waitCqe r = some (c, r')) : c ∈ r.posted ++ k.posts r 1 := by
  unfold Service.waitCqe at h
  obtain ⟨served, hwait, hnext⟩ := Option.bind_eq_some_iff.mp h
  rw [← Service.posted_of_wait hwait]
  obtain ⟨queued, running, _ | ⟨c', cs⟩⟩ := served
  · exact absurd hnext (Option.some_ne_none _).symm
  · obtain ⟨rfl, -⟩ := Prod.mk.inj (Option.some.inj hnext)
    exact List.mem_cons_self

/-- With nothing running a wait returns the first completion posted. -/
theorem Service.waitCqe_posted (k : Service α) (queued : List α) (c : Cqe α) (cs : List (Cqe α)) :
    k.waitCqe ⟨queued, [], c :: cs⟩ = some (c, ⟨queued, [], cs⟩) := by
  have hperm := k.perm ⟨queued, [], c :: cs⟩ 1
  obtain ⟨hposts, hleaves⟩ := List.append_eq_nil_iff.mp hperm.nil_eq.symm
  have hone : 1 ≤ (Queues.mk queued [] (c :: cs)).outstanding.length :=
    Nat.succ_le_succ (Nat.zero_le _)
  have hwait : k.wait 1 ⟨queued, [], c :: cs⟩ = some ⟨queued, [], c :: cs⟩ := by
    unfold Service.wait
    rw [if_pos hone, hleaves, List.map_eq_nil_iff.mp hposts, List.append_nil]
  unfold Service.waitCqe
  rw [hwait]
  rfl

/-- A wait for everything outstanding leaves nothing running. -/
theorem Service.wait_all (k : Service α) (queued running : List α) :
    ∃ cs, k.wait running.length ⟨queued, running, []⟩ = some ⟨queued, [], cs⟩ ∧
      (cs.map Cqe.op).Perm running := by
  have hout : (Queues.mk queued running ([] : List (Cqe α))).outstanding = running :=
    List.append_nil running
  have hle : running.length ≤
      (Queues.mk queued running ([] : List (Cqe α))).outstanding.length :=
    Nat.le_of_eq (congrArg List.length hout).symm
  have hperm := k.perm ⟨queued, running, []⟩ running.length
  have henough := k.enough ⟨queued, running, []⟩ running.length hle
  have hleaves : k.leaves ⟨queued, running, []⟩ running.length = [] := by
    have hlen := hperm.length_eq
    rw [List.length_append, List.length_map] at hlen
    rw [List.nil_append] at henough
    rw [← List.length_eq_zero_iff]
    dsimp only at hlen
    omega
  rw [hleaves, List.append_nil] at hperm
  refine ⟨_, ?_, hperm.symm⟩
  unfold Service.wait
  rw [if_pos hle, hleaves]
  rfl

/-- A submit of everything queued, a wait for it and as many peeks find all completions and leave
the ring empty. -/
theorem Service.flush_eq (k : Service α) (q : List α) :
    ∃ cs, k.wait q.length (Queues.mk q [] []).submit = some ⟨[], [], cs⟩ ∧
      (cs.map Cqe.op).Perm q ∧ (Queues.mk [] [] cs).reap q.length = (cs.map some, .empty) := by
  obtain ⟨cs, hwait, hperm⟩ := k.wait_all [] q
  have hlen : cs.length = q.length := by
    rw [← hperm.length_eq, List.length_map]
  refine ⟨cs, hwait, hperm, ?_⟩
  rw [Queues.reap_eq (Nat.le_of_eq hlen.symm)]
  dsimp only
  rw [← hlen, List.take_length, List.drop_length]
  rfl

/-- A wait for the only operation running, when everything completes at once. -/
theorem Service.wait_prompt (res : α → ℤ) (op : α) :
    (Service.prompt res).wait 1 ⟨[], [op], []⟩ = some ⟨[], [], [⟨op, res op⟩]⟩ := rfl

/-- A wait with something outstanding returns the completion of one of the operations. -/
theorem Service.waitCqe_eq (k : Service α) {r : Queues α} (h : 0 < r.outstanding.length) :
    ∃ c r', k.waitCqe r = some (c, r') ∧ r.outstanding.Perm (c.op :: r'.outstanding) ∧
      r'.queued = r.queued := by
  have henough := k.enough r 1 h
  have hperm := k.perm r 1
  have hwait : k.wait 1 r =
      some { r with running := k.leaves r 1, posted := r.posted ++ k.posts r 1 } := if_pos h
  unfold Service.waitCqe
  rw [hwait, Option.bind_some]
  cases hposted : r.posted ++ k.posts r 1 with
  | nil =>
    rw [hposted] at henough
    exact absurd henough (Nat.not_succ_le_zero 0)
  | cons c cs =>
    refine ⟨c, ⟨r.queued, k.leaves r 1, cs⟩, rfl, ?_, rfl⟩
    unfold Queues.outstanding
    have hops : r.posted.map Cqe.op ++ (k.posts r 1).map Cqe.op = c.op :: cs.map Cqe.op := by
      rw [← List.map_append, hposted, List.map_cons]
    calc List.Perm (r.running ++ r.posted.map Cqe.op)
          (((k.posts r 1).map Cqe.op ++ k.leaves r 1) ++ r.posted.map Cqe.op) :=
        hperm.append_right _
      List.Perm _ (r.posted.map Cqe.op ++ ((k.posts r 1).map Cqe.op ++ k.leaves r 1)) :=
        List.perm_append_comm
      List.Perm _ (c.op :: (k.leaves r 1 ++ cs.map Cqe.op)) := by
        rw [← List.append_assoc, hops]
        exact List.perm_append_comm.cons c.op

/-- So many waits return the completions of so many operations. -/
theorem waitCqes_eq (ks : ℕ → Service α) {n : ℕ} (i : ℕ) {r : Queues α}
    (h : n ≤ r.outstanding.length) :
    ∃ cs r', waitCqes ks n i r = some (cs, r') ∧ cs.length = n ∧
      r.outstanding.Perm (cs.map Cqe.op ++ r'.outstanding) ∧ r'.queued = r.queued := by
  induction n generalizing i r with
  | zero => exact ⟨[], r, rfl, rfl, List.Perm.refl _, rfl⟩
  | succ n ih =>
    obtain ⟨c, r₁, hwait, hperm, hqueued⟩ := (ks i).waitCqe_eq (r := r) (by omega)
    have hlen := hperm.length_eq
    rw [List.length_cons] at hlen
    obtain ⟨cs, r₂, hwaits, hcs, hperm', hqueued'⟩ := ih (i + 1) (r := r₁) (by omega)
    refine ⟨c :: cs, r₂, ?_, by rw [List.length_cons, hcs], ?_, hqueued'.trans hqueued⟩
    · rw [waitCqes, hwait, Option.bind_eq_bind, Option.bind_some]
      dsimp only
      rw [hwaits]
      rfl
    · exact hperm.trans (hperm'.cons c.op)

theorem length_of_waitCqes {ks : ℕ → Service α} {n i : ℕ} {r r' : Queues α} {cs : List (Cqe α)}
    (h : waitCqes ks n i r = some (cs, r')) : cs.length = n := by
  induction n generalizing i r cs with
  | zero =>
    obtain ⟨rfl, -⟩ := Prod.mk.inj (Option.some.inj h)
    rfl
  | succ n ih =>
    obtain ⟨⟨c, r₁⟩, -, h⟩ := Option.bind_eq_some_iff.mp h
    obtain ⟨⟨cs', r₂⟩, hrest, h⟩ := Option.bind_eq_some_iff.mp h
    obtain ⟨rfl, rfl⟩ := Prod.mk.inj (Option.some.inj h)
    rw [List.length_cons, ih hrest]

end Uring
