import ClickhouseUring.Kit.Ring
import Mathlib.Data.List.Perm.Basic
import Mathlib.Data.Nat.Basic
import Mathlib.Logic.Function.Conjugate
import Mathlib.Order.Lattice
import Mathlib.Data.List.Range

/-!
# Executing a submission out of order

The kernel may execute the entries of one submission in any order in which every linked entry
comes before its successor (`Permitted`).  `foldl_perm_of_commute` says when an order does not
matter: it has the effect of the program order as soon as every pair it turns around commutes.
For a submission the pairs that can be turned around are those with an unlinked entry between
them (`serve_of_permitted`).

`kernel` lets a command sequence act on a world: every submission is executed as a whole, the
way `batch` says.
-/

namespace Uring

/-! ## Orders that do not matter -/

section Commute

variable {ι σ : Type*} {act : ι → σ → σ}

/-- An action that commutes with all of `u` can be moved across it. -/
theorem foldl_comm_of_forall {f : σ → σ} {u : List ι}
    (h : ∀ x ∈ u, Function.Commute f (act x)) (s : σ) :
    u.foldl (fun s i => act i s) (f s) = f (u.foldl (fun s i => act i s) s) := by
  induction u generalizing s with
  | nil => rfl
  | cons x u ih =>
    obtain ⟨hx, hu⟩ := List.forall_mem_cons.mp h
    rw [List.foldl_cons, List.foldl_cons, ← hx s, ih hu]

/-- A permutation of a sorted list has the effect of the list when every pair it turns around
commutes. -/
theorem foldl_perm_of_commute [LinearOrder ι] {l l' : List ι} (hp : l'.Perm l)
    (hs : l.Pairwise (· < ·))
    (hc : l'.Pairwise fun a b => b < a → Function.Commute (act b) (act a)) (s : σ) :
    l'.foldl (fun s i => act i s) s = l.foldl (fun s i => act i s) s := by
  induction l generalizing l' s with
  | nil => rw [hp.eq_nil]
  | cons a l ih =>
    obtain ⟨ha, hs⟩ := List.pairwise_cons.mp hs
    obtain ⟨u, v, rfl⟩ := List.append_of_mem (hp.mem_iff.mpr List.mem_cons_self)
    have hp' : (u ++ v).Perm l := (List.perm_middle.symm.trans hp).cons_inv
    obtain ⟨hu, hav, hcross⟩ := List.pairwise_append.mp hc
    -- everything executed before `a` comes after it in the sorted list
    have hua : ∀ x ∈ u, Function.Commute (act a) (act x) := fun x hx =>
      hcross x hx a List.mem_cons_self (ha x (hp'.mem_iff.mp (List.mem_append_left v hx)))
    have hc' : (u ++ v).Pairwise fun a b => b < a → Function.Commute (act b) (act a) :=
      List.pairwise_append.mpr ⟨hu, (List.pairwise_cons.mp hav).2,
        fun x hx y hy => hcross x hx y (List.mem_cons_of_mem a hy)⟩
    rw [List.foldl_append, List.foldl_cons, ← foldl_comm_of_forall hua, ← List.foldl_append,
      ih hp' hs hc', List.foldl_cons]

end Commute

/-- Outputs that commute come out the same in any order. -/
theorem flatMap_perm_of_commute {ι β : Type*} {f : ι → List β} {l l' : List ι} (hp : l'.Perm l)
    (hc : ∀ x ∈ l, ∀ y ∈ l, f x ++ f y = f y ++ f x) : l'.flatMap f = l.flatMap f := by
  induction hp with
  | nil => rfl
  | cons x _ ih =>
    rw [List.flatMap_cons, List.flatMap_cons, ih fun y hy z hz =>
      hc y (List.mem_cons_of_mem x hy) z (List.mem_cons_of_mem x hz)]
  | swap x y l =>
    have hxy := hc y (List.mem_cons_of_mem x List.mem_cons_self) x List.mem_cons_self
    rw [List.flatMap_cons, List.flatMap_cons, List.flatMap_cons, List.flatMap_cons,
      ← List.append_assoc, hxy, List.append_assoc]
  | trans _ h₂ ih₁ ih₂ =>
    have hc' := fun x hx y hy => hc x (h₂.mem_iff.mp hx) y (h₂.mem_iff.mp hy)
    exact (ih₁ hc').trans (ih₂ hc)

/-! ## Permitted orders -/

variable {α σ : Type*}

/-- An order of the positions of `b` in which every linked entry precedes its successor. -/
def Permitted (b : List (Sqe α)) (ord : List ℕ) : Prop :=
  ord.Perm (List.range b.length) ∧
    ∀ i, i + 1 < b.length → (b[i]?.map Sqe.link = some true) → ord.idxOf i < ord.idxOf (i + 1)

instance (b : List (Sqe α)) (ord : List ℕ) : Decidable (Permitted b ord) :=
  decidable_of_iff (ord.Perm (List.range b.length) ∧ ∀ i < b.length - 1,
      (b[i]?.map Sqe.link = some true) → ord.idxOf i < ord.idxOf (i + 1)) <|
    and_congr_right fun _ => forall_congr' fun _ => imp_congr_left Nat.lt_sub_iff_add_lt

/-- The effect of executing the entry at position `i` of `b`. -/
def actAt (act : α → σ → σ) (b : List (Sqe α)) (i : ℕ) (s : σ) : σ :=
  match b[i]? with
  | some q => act q.op s
  | none => s

/-- The effect of executing the entries of `b` in the order `ord`. -/
def serve (act : α → σ → σ) (b : List (Sqe α)) (ord : List ℕ) (s : σ) : σ :=
  ord.foldl (fun s i => actAt act b i s) s

/-- The effect of executing operations one after the other. -/
def execAll (act : α → σ → σ) (ops : List α) (s : σ) : σ := ops.foldl (fun s o => act o s) s

theorem execAll_append (act : α → σ → σ) (a b : List α) (s : σ) :
    execAll act (a ++ b) s = execAll act b (execAll act a s) := List.foldl_append

/-- The program order is permitted. -/
theorem permitted_range (b : List (Sqe α)) : Permitted b (List.range b.length) := by
  refine ⟨List.Perm.refl _, fun i hi _ => ?_⟩
  have hidx : ∀ k, k < b.length → (List.range b.length).idxOf k = k := by
    intro k hk
    have := List.nodup_range.idxOf_getElem k
      (by rwa [List.length_range] : k < (List.range _).length)
    rwa [List.getElem_range] at this
  rw [hidx i (by omega), hidx (i + 1) hi]
  exact Nat.lt_succ_self i

/-- Serving the positions of `b` within `c ++ b ++ d` executes the operations of `b`. -/
theorem serve_range' (act : α → σ → σ) (b c d : List (Sqe α)) (s : σ) :
    serve act (c ++ b ++ d) (List.range' c.length b.length) s =
      execAll act (b.map Sqe.op) s := by
  induction b generalizing c s with
  | nil => rfl
  | cons q b ih =>
    have h := ih (c ++ [q]) (act q.op s)
    rw [List.append_assoc c [q] b, List.length_append, List.length_singleton] at h
    have hq : (c ++ q :: b ++ d)[c.length]? = some q := by
      rw [List.append_assoc, List.getElem?_append_right le_rfl, Nat.sub_self]
      rfl
    rw [List.length_cons, List.range'_succ]
    unfold serve at h ⊢
    rw [List.foldl_cons, actAt, hq]
    exact h

/-- In program order a submission has the effect of its operations one after the other. -/
theorem serve_range (act : α → σ → σ) (b : List (Sqe α)) (s : σ) :
    serve act b (List.range b.length) s = execAll act (b.map Sqe.op) s := by
  have h := serve_range' act b [] [] s
  rwa [List.append_nil, List.nil_append, List.length_nil, ← List.range_eq_range'] at h

/-- Served in any order, a submission has the effect of its operations in some order. -/
theorem serve_eq_execAll_perm (act : α → σ → σ) {b : List (Sqe α)} {ord : List ℕ}
    (h : ord.Perm (List.range b.length)) (s : σ) :
    serve act b ord s = execAll act (ord.filterMap fun i => b[i]?.map Sqe.op) s ∧
      (ord.filterMap fun i => b[i]?.map Sqe.op).Perm (b.map Sqe.op) := by
  have hserve : ∀ (ord : List ℕ) (s : σ), serve act b ord s =
      execAll act (ord.filterMap fun i => b[i]?.map Sqe.op) s := by
    intro ord
    induction ord with
    | nil => exact fun s => rfl
    | cons i ord ih =>
      intro s
      show serve act b ord (actAt act b i s) = _
      rw [ih, List.filterMap_cons, actAt]
      cases b[i]? with
      | none => rfl
      | some q => rfl
  have hrange : (List.range b.length).filterMap (fun i => b[i]?.map Sqe.op) = b.map Sqe.op := by
    clear h hserve
    induction b with
    | nil => rfl
    | cons q b ih =>
      rw [List.length_cons, List.range_succ_eq_map, List.filterMap_cons, List.filterMap_map]
      exact congrArg (q.op :: ·) ih
  exact ⟨hserve ord s, hrange ▸ h.filterMap _⟩

/-- Linked entries are executed in a row. -/
theorem idxOf_lt_of_linked {b : List (Sqe α)} {ord : List ℕ} (h : Permitted b ord) {i j : ℕ}
    (hij : i < j) (hj : j < b.length)
    (hl : ∀ k, i ≤ k → k < j → b[k]?.map Sqe.link = some true) :
    ord.idxOf i < ord.idxOf j := by
  induction j, hij using Nat.le_induction with
  | base => exact h.2 i hj (hl i le_rfl (Nat.lt_succ_self i))
  | succ j hij ih =>
    have h1 := ih (by omega) fun k hk hkj => hl k hk (by omega)
    exact h1.trans (h.2 j hj (hl j (by omega) (Nat.lt_succ_self j)))

/-- **Link rule.** When any two operations with an unlinked entry between them commute, every
permitted order has the effect of the program order. -/
theorem serve_of_permitted {act : α → σ → σ} {b : List (Sqe α)} {ord : List ℕ}
    (h : Permitted b ord)
    (hc : ∀ (i j : ℕ) (p q : Sqe α), i < j → b[i]? = some p → b[j]? = some q →
      (∃ k, i ≤ k ∧ k < j ∧ b[k]?.map Sqe.link = some false) →
      Function.Commute (act p.op) (act q.op)) (s : σ) :
    serve act b ord s = execAll act (b.map Sqe.op) s := by
  rw [← serve_range]
  have hnd : ord.Nodup := h.1.nodup_iff.mpr List.nodup_range
  refine foldl_perm_of_commute h.1 List.pairwise_lt_range ?_ s
  rw [List.pairwise_iff_getElem]
  intro x y hx hy hxy hlt
  have hmem : ∀ z (hz : z < ord.length), ord[z] < b.length := fun z hz =>
    List.mem_range.mp (h.1.mem_iff.mp (List.getElem_mem hz))
  have hyb := hmem y hy
  have hxb := hmem x hx
  -- the pair is turned around, so some entry between the two is not linked
  have hgap : ∃ k, ord[y] ≤ k ∧ k < ord[x] ∧ b[k]?.map Sqe.link = some false := by
    by_contra hno
    have hl : ∀ k, ord[y] ≤ k → k < ord[x] → b[k]?.map Sqe.link = some true := by
      intro k hk hkx
      have hkb : k < b.length := hkx.trans hxb
      rw [List.getElem?_eq_getElem hkb, Option.map_some]
      by_cases hb : b[k].link = true
      · rw [hb]
      · refine absurd ⟨k, hk, hkx, ?_⟩ hno
        rw [List.getElem?_eq_getElem hkb, Option.map_some, Bool.eq_false_iff.mpr hb]
    have := idxOf_lt_of_linked h hlt hxb hl
    rw [hnd.idxOf_getElem y hy, hnd.idxOf_getElem x hx] at this
    omega
  have := hc ord[y] ord[x] b[ord[y]] b[ord[x]] hlt (List.getElem?_eq_getElem hyb)
    (List.getElem?_eq_getElem hxb) hgap
  intro t
  simpa only [actAt, List.getElem?_eq_getElem hyb, List.getElem?_eq_getElem hxb] using this t

/-! ## Submissions of a command sequence -/

section Kernel

variable (batch : List (Sqe α) → σ → σ)

/-- The effect of a command sequence on the world, up to a wait that never returns. -/
def kernel (r : IoRing α) : List (Cmd α) → σ → σ
  | [], s => s
  | c :: cs, s =>
    let s := match c with
      | .submit => batch r.queued s
      | _ => s
    match r.exec c with
    | none => s
    | some r' => kernel r' cs s

theorem kernel_waits (r : IoRing α) (n : ℕ) (s : σ) :
    kernel batch r (List.replicate n .wait) s = s := by
  induction n generalizing r with
  | zero => rfl
  | succ n ih =>
    show (match r.exec .wait with
      | none => s
      | some r' => kernel batch r' (List.replicate n .wait) s) = s
    cases r.exec .wait with
    | none => rfl
    | some r' => exact ih r'

/-- A flush executes what is queued. -/
theorem kernel_flush (r : IoRing α) (n : ℕ) (s : σ) :
    kernel batch r (.submit :: List.replicate n .wait) s = batch r.queued s :=
  kernel_waits batch _ n _

end Kernel

/-! ## Rotations -/

/-- The order that starts after position `k` and comes back to the first `k + 1` entries. -/
def rotation (k n : ℕ) : List ℕ := List.range' (k + 1) (n - (k + 1)) ++ List.range (k + 1)

theorem idxOf_rotation_of_le {k n x : ℕ} (hx : x ≤ k) :
    (rotation k n).idxOf x = n - (k + 1) + x := by
  have hno : x ∉ List.range' (k + 1) (n - (k + 1)) := by
    rw [List.mem_range'_1]; omega
  have := List.nodup_range.idxOf_getElem x (by rw [List.length_range]; omega :
    x < (List.range (k + 1)).length)
  rw [List.getElem_range] at this
  rw [rotation, List.idxOf_append_of_notMem hno, List.length_range', this]

theorem idxOf_rotation_of_lt {k n x : ℕ} (hx : k < x) (hn : x < n) :
    (rotation k n).idxOf x = x - (k + 1) := by
  have hmem : x ∈ List.range' (k + 1) (n - (k + 1)) := by
    rw [List.mem_range'_1]; omega
  have := (List.nodup_range' (s := k + 1) (n := n - (k + 1))).idxOf_getElem (x - (k + 1))
    (by rw [List.length_range']; omega)
  rw [List.getElem_range', Nat.one_mul, Nat.add_sub_cancel' hx] at this
  rw [rotation, List.idxOf_append_of_mem hmem, this]

/-- The kernel may start with what follows an unlinked entry. -/
theorem permitted_rotation {b : List (Sqe α)} {k : ℕ} (hk : k < b.length)
    (hu : b[k]?.map Sqe.link = some false) : Permitted b (rotation k b.length) := by
  constructor
  · have hsplit : List.range b.length =
        List.range (k + 1) ++ List.range' (k + 1) (b.length - (k + 1)) := by
      have h := @List.range'_append_1 0 (k + 1) (b.length - (k + 1))
      rw [Nat.zero_add, Nat.add_sub_cancel' hk] at h
      rw [List.range_eq_range', List.range_eq_range', h]
    rw [hsplit]
    exact List.perm_append_comm
  · intro i hi hl
    have hik : i ≠ k := by
      rintro rfl
      rw [hu] at hl
      exact Bool.noConfusion (Option.some.inj hl)
    rcases Nat.lt_or_gt_of_ne hik with h | h
    · rw [idxOf_rotation_of_le (by omega), idxOf_rotation_of_le (by omega)]
      omega
    · rw [idxOf_rotation_of_lt h (by omega), idxOf_rotation_of_lt (by omega) hi]
      omega

/-- A rotation executes the operations after position `k` first. -/
theorem serve_rotation (act : α → σ → σ) {b : List (Sqe α)} {k : ℕ} (hk : k < b.length) (s : σ) :
    serve act b (rotation k b.length) s =
      execAll act ((b.drop (k + 1) ++ b.take (k + 1)).map Sqe.op) s := by
  have h1 := serve_range' act (b.drop (k + 1)) (b.take (k + 1)) [] s
  have h2 := serve_range' act (b.take (k + 1)) [] (b.drop (k + 1))
    (execAll act ((b.drop (k + 1)).map Sqe.op) s)
  rw [List.append_nil, List.take_append_drop, List.length_drop, List.length_take,
    Nat.min_eq_left hk] at h1
  rw [List.nil_append, List.take_append_drop, List.length_nil, List.length_take,
    Nat.min_eq_left hk, ← List.range_eq_range'] at h2
  rw [List.map_append, execAll_append, ← h2, ← h1]
  unfold serve rotation
  rw [List.foldl_append]

end Uring
