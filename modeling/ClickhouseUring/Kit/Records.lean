import Mathlib.Algebra.BigOperators.Group.List.Basic
import Mathlib.Algebra.Order.Ring.Nat
import Mathlib.Data.List.Forall2
import Mathlib.Tactic.Common

/-!
# Records that carry their own length

A buffer holds records one behind the other, and a record says how long it is.  `walk` visits the
first `n` cells of a buffer the way a loop does that adds the length of each record to its
position.  It may read outside of the buffer, and a record of length zero keeps it where it is.

`Encodes` is what a record looks like to a reader that does not look behind it.  `walk_iff` says
that a walk visits exactly the records that make up the buffer, and nothing else is walked without
a remainder.
-/

namespace Records

/-- How a walk stands after the rounds it was given. -/
inductive Stop
  | ended
  | outside
  | running
  deriving DecidableEq, Repr

variable {α β : Type*} (item : List α → Option β) (size : β → ℕ)

/-- The records found from `pos` on, in at most `rounds` rounds. -/
def walk (buf : List α) (n : ℕ) : ℕ → ℕ → List β × Stop
  | 0, _ => ([], .running)
  | rounds + 1, pos =>
    if pos < n then
      match item (buf.drop pos) with
      | none => ([], .outside)
      | some b =>
        let r := walk buf n rounds (pos + size b)
        (b :: r.1, r.2)
    else ([], .ended)

/-- The cells are read as `b` and are as many as `b` says, whatever is behind them. -/
def Encodes (cells : List α) (b : β) : Prop :=
  cells.length = size b ∧ ∀ rest, item (cells ++ rest) = some b

variable {item size} {buf : List α} {n pos rounds : ℕ} {bs : List β} {b : β}

theorem walk_ended (h : n ≤ pos) (rounds : ℕ) :
    walk item size buf n (rounds + 1) pos = ([], .ended) := if_neg (Nat.not_lt.mpr h)

theorem walk_outside (h : pos < n) (hitem : item (buf.drop pos) = none) (rounds : ℕ) :
    walk item size buf n (rounds + 1) pos = ([], .outside) := by
  rw [walk, if_pos h, hitem]

theorem walk_item (h : pos < n) (hitem : item (buf.drop pos) = some b) (rounds : ℕ) :
    walk item size buf n (rounds + 1) pos =
      (b :: (walk item size buf n rounds (pos + size b)).1,
        (walk item size buf n rounds (pos + size b)).2) := by
  rw [walk, if_pos h, hitem]

/-- What one more round can find. -/
theorem walk_succ_cases (item : List α → Option β) (size : β → ℕ) (buf : List α)
    (n rounds pos : ℕ) :
    (n ≤ pos ∧ walk item size buf n (rounds + 1) pos = ([], .ended)) ∨
    (pos < n ∧ item (buf.drop pos) = none ∧
      walk item size buf n (rounds + 1) pos = ([], .outside)) ∨
    (∃ b, pos < n ∧ item (buf.drop pos) = some b ∧
      walk item size buf n (rounds + 1) pos =
        (b :: (walk item size buf n rounds (pos + size b)).1,
          (walk item size buf n rounds (pos + size b)).2)) := by
  rcases Nat.lt_or_ge pos n with h | h
  · cases hitem : item (buf.drop pos) with
    | none => exact .inr (.inl ⟨h, rfl, walk_outside h hitem rounds⟩)
    | some b => exact .inr (.inr ⟨b, h, rfl, walk_item h hitem rounds⟩)
  · exact .inl ⟨h, walk_ended h rounds⟩

/-! ## Progress -/

/-- Records of a positive length bring the end closer. -/
theorem walk_ne_running (h : n ≤ pos + rounds)
    (hsize : ∀ b ∈ (walk item size buf n (rounds + 1) pos).1, size b ≠ 0) :
    (walk item size buf n (rounds + 1) pos).2 ≠ .running := by
  induction rounds generalizing pos with
  | zero => rw [walk_ended (by simpa using h)]; exact Stop.noConfusion
  | succ rounds ih =>
    obtain ⟨-, heq⟩ | ⟨-, -, heq⟩ | ⟨b, -, -, heq⟩ :=
      walk_succ_cases item size buf n (rounds + 1) pos
    · rw [heq]; exact Stop.noConfusion
    · rw [heq]; exact Stop.noConfusion
    · rw [heq] at hsize ⊢
      have hb := hsize b List.mem_cons_self
      exact ih (by omega) fun c hc => hsize c (List.mem_cons_of_mem _ hc)

/-- At a record of length zero the walk stays. -/
theorem walk_stays (h : pos < n) (hitem : item (buf.drop pos) = some b) (hb : size b = 0)
    (rounds : ℕ) : walk item size buf n rounds pos = (List.replicate rounds b, .running) := by
  induction rounds with
  | zero => rfl
  | succ rounds ih => rw [walk_item h hitem, hb, Nat.add_zero, ih, List.replicate_succ]

/-- A record of length zero that is ever found keeps the walk from ending. -/
theorem running_of_mem (hb : b ∈ (walk item size buf n rounds pos).1) (h0 : size b = 0)
    (more : ℕ) : (walk item size buf n more pos).2 = .running := by
  induction rounds generalizing pos more with
  | zero => exact absurd hb List.not_mem_nil
  | succ rounds ih =>
    obtain ⟨-, heq⟩ | ⟨-, -, heq⟩ | ⟨c, hpos, hitem, heq⟩ :=
      walk_succ_cases item size buf n rounds pos
    · rw [heq] at hb; exact absurd hb List.not_mem_nil
    · rw [heq] at hb; exact absurd hb List.not_mem_nil
    · rw [heq] at hb
      obtain rfl | hb := List.mem_cons.mp hb
      · rw [walk_stays hpos hitem h0]
      · cases more with
        | zero => rfl
        | succ more => rw [walk_item hpos hitem]; exact ih hb more

/-- **Exactly when a walk does not end.** -/
theorem running_iff (h : n ≤ pos + rounds) :
    (walk item size buf n (rounds + 1) pos).2 = .running ↔
      ∃ b ∈ (walk item size buf n (rounds + 1) pos).1, size b = 0 := by
  constructor
  · intro hrun
    by_contra hsize
    push Not at hsize
    exact walk_ne_running h hsize hrun
  · rintro ⟨b, hb, h0⟩
    exact running_of_mem hb h0 _

/-- A walk that has not ended after as many rounds as there are cells runs for ever. -/
theorem forever_of_running (h : n ≤ pos + rounds)
    (hrun : (walk item size buf n (rounds + 1) pos).2 = .running) (more : ℕ) :
    (walk item size buf n more pos).2 = .running := by
  obtain ⟨b, hb, h0⟩ := (running_iff h).mp hrun
  exact running_of_mem hb h0 more

/-! ## What is walked -/

theorem map_size {chunks : List (List α)} (h : List.Forall₂ (Encodes item size) chunks bs) :
    chunks.map List.length = bs.map size := by
  induction h with
  | nil => rfl
  | cons hcells _ ih => rw [List.map_cons, List.map_cons, hcells.1, ih]

theorem forall_fits {Fits : β → Prop} (hfits : ∀ cells b, Encodes item size cells b → Fits b)
    {chunks : List (List α)} (h : List.Forall₂ (Encodes item size) chunks bs) :
    ∀ b ∈ bs, Fits b := by
  induction h with
  | nil => exact List.forall_mem_nil _
  | cons hcells _ ih => exact List.forall_mem_cons.mpr ⟨hfits _ _ hcells, ih⟩

/-- Records that are encoded one behind the other are found in their order. -/
theorem walk_of_encodes {chunks : List (List α)} (h : List.Forall₂ (Encodes item size) chunks bs)
    (hsize : ∀ b ∈ bs, size b ≠ 0) {rest : List α} (hbuf : buf.drop pos = chunks.flatten ++ rest)
    (hn : n = pos + chunks.flatten.length) (hrounds : bs.length < rounds) :
    walk item size buf n rounds pos = (bs, .ended) := by
  induction h generalizing pos rounds with
  | nil =>
    obtain ⟨rounds, rfl⟩ := Nat.exists_eq_add_of_lt hrounds
    exact walk_ended (by simp [hn]) _
  | @cons cells b chunks bs hcells _ ih =>
    obtain ⟨rounds, rfl⟩ := Nat.exists_eq_add_of_lt (Nat.zero_lt_of_lt hrounds)
    have hb : size b ≠ 0 := hsize b List.mem_cons_self
    rw [List.flatten_cons, List.length_append, hcells.1] at hn
    rw [List.flatten_cons, List.append_assoc] at hbuf
    have hitem : item (buf.drop pos) = some b := by rw [hbuf]; exact hcells.2 _
    have hrest : buf.drop (pos + size b) = chunks.flatten ++ rest := by
      rw [← List.drop_drop, hbuf, ← hcells.1, List.drop_left]
    rw [Nat.zero_add, walk_item (by omega) hitem,
      ih (fun c hc => hsize c (List.mem_cons_of_mem _ hc)) hrest (by omega)
        (by rw [List.length_cons] at hrounds; omega)]

/-- What is walked without a remainder is an encoding, when every record found fits its length. -/
theorem encodes_of_walk {Fits : β → Prop}
    (hitem : ∀ cells b, item cells = some b → Fits b → size b ≤ cells.length →
      Encodes item size (cells.take (size b)) b)
    (h : walk item size buf n rounds pos = (bs, .ended)) (hfits : ∀ b ∈ bs, Fits b)
    (hsum : pos + (bs.map size).sum = n) (hn : n ≤ buf.length) :
    ∃ chunks, List.Forall₂ (Encodes item size) chunks bs ∧
      (buf.drop pos).take (n - pos) = chunks.flatten := by
  induction rounds generalizing pos bs with
  | zero => simp [walk] at h
  | succ rounds ih =>
    obtain ⟨hpos, heq⟩ | ⟨-, -, heq⟩ | ⟨b, hpos, hb, heq⟩ :=
      walk_succ_cases item size buf n rounds pos
    · rw [heq, Prod.mk.injEq] at h
      obtain ⟨rfl, -⟩ := h
      refine ⟨[], .nil, ?_⟩
      rw [Nat.sub_eq_zero_of_le hpos]
      simp
    · rw [heq] at h; simp at h
    · rw [heq, Prod.mk.injEq] at h
      obtain ⟨rfl, hend⟩ := h
      rw [List.map_cons, List.sum_cons, ← Nat.add_assoc] at hsum
      obtain ⟨chunks, hchunks, hflat⟩ :=
        ih (Prod.ext rfl hend) (fun c hc => hfits c (List.mem_cons_of_mem _ hc)) hsum
      have hlen : size b ≤ (buf.drop pos).length := by rw [List.length_drop]; omega
      refine ⟨(buf.drop pos).take (size b) :: chunks,
        .cons (hitem _ b hb (hfits b List.mem_cons_self) hlen) hchunks, ?_⟩
      rw [List.flatten_cons, ← hflat, ← List.drop_drop, ← List.take_add]
      congr 1
      omega

/-- Records of a positive length are no more than the cells they take. -/
theorem length_le_sum (hsize : ∀ b ∈ bs, size b ≠ 0) : bs.length ≤ (bs.map size).sum := by
  induction bs with
  | nil => exact Nat.zero_le _
  | cons b bs ih =>
    have hb := hsize b List.mem_cons_self
    have := ih fun c hc => hsize c (List.mem_cons_of_mem _ hc)
    rw [List.length_cons, List.map_cons, List.sum_cons]
    omega

/-- **What a walk accepts.**  It finds records that all fit and leave no remainder exactly when
the cells are the encoding of these records. -/
theorem walk_iff {Fits : β → Prop} (hpos : ∀ b, Fits b → size b ≠ 0)
    (hitem : ∀ cells b, item cells = some b → Fits b → size b ≤ cells.length →
      Encodes item size (cells.take (size b)) b)
    (hfits : ∀ cells b, Encodes item size cells b → Fits b) (hn : n ≤ buf.length)
    (hrounds : n < rounds) :
    (walk item size buf n rounds 0 = (bs, .ended) ∧ (∀ b ∈ bs, Fits b) ∧
        (bs.map size).sum = n) ↔
      ∃ chunks, List.Forall₂ (Encodes item size) chunks bs ∧ buf.take n = chunks.flatten := by
  constructor
  · rintro ⟨h, hbs, hsum⟩
    have := encodes_of_walk hitem h hbs (by rw [Nat.zero_add]; exact hsum) hn
    simpa using this
  · rintro ⟨chunks, hchunks, hflat⟩
    have hlen : chunks.flatten.length = n := by
      rw [← hflat, List.length_take, Nat.min_eq_left hn]
    have hsum : (bs.map size).sum = n := by
      rw [← hlen, List.length_flatten, map_size hchunks]
    have hbs := forall_fits hfits hchunks
    have hsize : ∀ b ∈ bs, size b ≠ 0 := fun b hb => hpos b (hbs b hb)
    have hfew := length_le_sum hsize
    have hbuf : buf.drop 0 = chunks.flatten ++ buf.drop n := by
      rw [← hflat, List.drop_zero, List.take_append_drop]
    exact ⟨walk_of_encodes hchunks hsize hbuf (by omega) (by omega), hbs, hsum⟩

end Records
