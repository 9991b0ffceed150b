import Mathlib.Data.List.Basic
import Mathlib.Tactic.Common

/-!
# What a crash leaves of an appended file

A `Disk` is a file with the length up to which it is safe.  An append leaves that length alone, a
sync moves it to the end.  After operations in any order the file has all that was appended
(`content_run`) and is safe up to where it was before the first of them, once there was a sync
(`length_le_synced_run`).
-/

structure Disk where
  content : List UInt8
  /-- The length of what a crash leaves. -/
  synced : ℕ
  synced_le : synced ≤ content.length

namespace Disk

inductive Op
  | append (bytes : List UInt8)
  | sync
deriving DecidableEq, Repr

/-- What the operation appends. -/
def Op.bytes : Op → List UInt8
  | append bytes => bytes
  | sync => []

/-- A file that is safe. -/
def stable (content : List UInt8) : Disk := ⟨content, content.length, Nat.le_refl _⟩

def act : Op → Disk → Disk
  | .append bytes, d => ⟨d.content ++ bytes, d.synced, by
      rw [List.length_append]
      exact Nat.le_add_right_of_le d.synced_le⟩
  | .sync, d => stable d.content

/-- The operations, one after the other. -/
def run (ops : List Op) (d : Disk) : Disk := ops.foldl (fun d op => act op d) d

@[simp] theorem run_nil (d : Disk) : run [] d = d := rfl

@[simp] theorem run_cons (op : Op) (ops : List Op) (d : Disk) :
    run (op :: ops) d = run ops (act op d) := rfl

theorem run_append (ops ops' : List Op) (d : Disk) : run (ops ++ ops') d = run ops' (run ops d) :=
  List.foldl_append

theorem content_act (op : Op) (d : Disk) : (act op d).content = d.content ++ op.bytes := by
  cases op with
  | append bytes => rfl
  | sync => exact (List.append_nil _).symm

theorem synced_le_act (op : Op) (d : Disk) : d.synced ≤ (act op d).synced := by
  cases op with
  | append bytes => exact Nat.le_refl _
  | sync => exact d.synced_le

theorem content_run (ops : List Op) (d : Disk) :
    (run ops d).content = d.content ++ ops.flatMap Op.bytes := by
  induction ops generalizing d with
  | nil => exact (List.append_nil _).symm
  | cons op ops ih => rw [run_cons, ih, content_act, List.flatMap_cons, List.append_assoc]

theorem synced_le_run (ops : List Op) (d : Disk) : d.synced ≤ (run ops d).synced := by
  induction ops generalizing d with
  | nil => exact Nat.le_refl _
  | cons op ops ih => exact Nat.le_trans (synced_le_act op d) (ih _)

/-- A sync among the operations makes safe what was there before them. -/
theorem length_le_synced_run {ops : List Op} (h : .sync ∈ ops) (d : Disk) :
    d.content.length ≤ (run ops d).synced := by
  obtain ⟨before, after, rfl⟩ := List.append_of_mem h
  rw [run_append, run_cons]
  refine Nat.le_trans ?_ (synced_le_run after _)
  show d.content.length ≤ (run before d).content.length
  rw [content_run, List.length_append]
  exact Nat.le_add_right _ _

/-- Appends alone make nothing safe. -/
theorem synced_run_of_appends {ops : List Op} (h : .sync ∉ ops) (d : Disk) :
    (run ops d).synced = d.synced := by
  induction ops generalizing d with
  | nil => rfl
  | cons op ops ih =>
    obtain ⟨hop, hops⟩ := not_or.mp fun hor => h (List.mem_cons.mpr hor)
    rw [run_cons, ih hops]
    cases op with
    | append bytes => rfl
    | sync => exact absurd rfl hop

/-- Syncs alone append nothing. -/
theorem content_run_of_syncs {ops : List Op} (h : ∀ op ∈ ops, op = .sync) (d : Disk) :
    (run ops d).content = d.content := by
  have hnil : ops.flatMap Op.bytes = [] := by
    refine List.flatMap_eq_nil_iff.mpr fun op hop => ?_
    rw [h op hop]
    rfl
  rw [content_run, hnil, List.append_nil]

/-- Syncs that come before all appends make safe what was there before, and no more. -/
theorem synced_run_syncs_first {syncs appends : List Op} (hne : syncs ≠ [])
    (hsyncs : ∀ op ∈ syncs, op = .sync) (happends : .sync ∉ appends) (d : Disk) :
    (run (syncs ++ appends) d).synced = d.content.length := by
  have hsync : .sync ∈ syncs := by
    obtain ⟨op, hop⟩ := List.exists_mem_of_ne_nil _ hne
    exact hsyncs op hop ▸ hop
  rw [run_append, synced_run_of_appends happends]
  apply Nat.le_antisymm
  · rw [← content_run_of_syncs hsyncs d]
    exact (run syncs d).synced_le
  · exact length_le_synced_run hsync d

end Disk
