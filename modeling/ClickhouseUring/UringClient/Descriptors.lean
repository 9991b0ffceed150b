import ClickhouseUring.UringClient.Main

/-!
# Which exits release what they hold

`cleanup` closes whatever is positive in the three variables and exits the ring.  An error before
`io_uring_queue_init` has succeeded makes it exit a ring that was never set up, and an error after
`close(file_fd)` makes it close the number in `file_fd` a second time, which may belong to `recv_fd`
by then.  On all other ways out `main` releases what it holds, and nothing else (`releases_iff`).
-/

namespace ClickhouseUring.UringClient

open Use

/-- The outcome is an error to the operation that `main` is at. -/
def Main.Fails (m : Main) (o : Outcome) : Prop :=
  match m.point with
  | .posixMemalign => o.ret ≠ 0
  | .inetPton => o.ret ≤ 0
  | .readSqe | .sendSqe | .recvSqe | .writeSqe => o.ret = 0
  | .fstat | .returned => False
  | _ => o.ret < 0

/-- No error comes between the opening of the file and the success of `io_uring_queue_init`, and
none after `close(file_fd)`, unless `file_fd` is a number that `cleanup` leaves alone. -/
def Main.CleanExit (m : Main) (o : Outcome) : Prop :=
  m.Fails o →
    match m.point with
    | .socket | .inetPton | .connect | .queueInit => False
    | .openRecv | .recvSqe | .recvWait | .writeSqe | .writeWait => m.fileFd ≤ 0
    | _ => True

/-- What `main` holds at an operation. -/
def Main.holds (m : Main) : List (Var × ℤ) :=
  match m.point with
  | .posixMemalign | .openFile | .returned => []
  | .socket => [(.fileFd, m.fileFd)]
  | .inetPton | .connect | .queueInit => [(.sock, m.sock), (.fileFd, m.fileFd)]
  | .fstat | .readSqe | .sendSqe | .peek _ | .peekRest _ =>
    [(.ring, 0), (.sock, m.sock), (.fileFd, m.fileFd)]
  | .openRecv => [(.ring, 0), (.sock, m.sock)]
  | .recvSqe | .recvWait | .writeSqe | .writeWait =>
    [(.recvFd, m.recvFd), (.ring, 0), (.sock, m.sock)]

/-- `main` with the handles that it holds. -/
def tracked : Machine (Option Main × List (Var × ℤ)) Outcome (Use Var) where
  step p o := (main.step p.1 o, ledger.after p.2 (main.out p.1 o))
  out p o := main.out p.1 o

/-- The handles held are those of the operation, and the other variables are not positive. -/
structure Owns (m : Main) (held : List (Var × ℤ)) : Prop where
  eq : held = m.holds
  sock : m.sock > 0 → (.sock, m.sock) ∈ held
  recvFd : m.recvFd > 0 → (.recvFd, m.recvFd) ∈ held

/-- The state of a run: `main` owns what is held, or has returned. -/
def Kept (p : Option Main × List (Var × ℤ)) : Prop :=
  ∀ m, p.1 = some m → m.point = .returned ∨ Owns m p.2

/-! ## The exits -/

theorem cleanup_eq (sock fileFd recvFd : ℤ) :
    cleanup sock fileFd recvFd = releases
      ((if sock > 0 then [(.sock, sock)] else []) ++
        (if fileFd > 0 then [(.fileFd, fileFd)] else []) ++
        (if recvFd > 0 then [(.recvFd, recvFd)] else []) ++ [(.ring, 0)]) := by
  unfold cleanup
  split_ifs <;> rfl

/-- An error exit releases what is held if `file_fd` and the ring are. -/
theorem disciplined_abort {m : Main} {held : List (Var × ℤ)} (h : Owns m held) :
    Disciplined held m.abort.2 ↔
      (m.fileFd > 0 → (.fileFd, m.fileFd) ∈ held) ∧ (.ring, 0) ∈ held := by
  have hsock := h.sock
  have hrecv := h.recvFd
  show Disciplined held (cleanup m.sock m.fileFd m.recvFd) ↔ _
  rw [cleanup_eq, disciplined_releases]
  · split_ifs <;> simp_all
  · split_ifs <;> simp

/-- `main` goes on with what it holds. -/
theorem Owns.goto {m m' : Main} {held : List (Var × ℤ)} (h : Owns m held)
    (hholds : m'.holds = m.holds) (hsock : m'.sock = m.sock) (hrecv : m'.recvFd = m.recvFd) :
    Owns m' held := by
  refine ⟨h.eq.trans hholds.symm, fun hpos => ?_, fun hpos => ?_⟩
  · rw [hsock] at hpos ⊢
    exact h.sock hpos
  · rw [hrecv] at hpos ⊢
    exact h.recvFd hpos

/-- What `main` holds while it sends. -/
def Main.sends (m : Main) : List (Var × ℤ) := [(.ring, 0), (.sock, m.sock), (.fileFd, m.fileFd)]

theorem fileSent_eq {m : Main} {held : List (Var × ℤ)} (heq : held = m.sends)
    (hrecv : ¬ m.recvFd > 0) :
    Disciplined held m.fileSent.2 ∧ Owns m.fileSent.1 (ledger.after held m.fileSent.2) := by
  subst heq
  have hafter : ledger.after m.sends m.fileSent.2 = [(.ring, 0), (.sock, m.sock)] := by
    show List.erase _ _ = _
    simp [Main.sends]
  refine ⟨⟨?_, trivial⟩, ?_⟩
  · show (Var.fileFd, m.fileFd) ∈ m.sends
    simp [Main.sends]
  · rw [hafter]
    exact ⟨rfl, fun _ => List.mem_cons_of_mem _ List.mem_cons_self, fun h => absurd h hrecv⟩

theorem sendLoop_eq {m : Main} {held : List (Var × ℤ)} (heq : held = m.sends)
    (hrecv : ¬ m.recvFd > 0) :
    Disciplined held m.sendLoop.2 ∧ Owns m.sendLoop.1 (ledger.after held m.sendLoop.2) := by
  have hsock : (Var.sock, m.sock) ∈ held := by
    rw [heq]
    exact List.mem_cons_of_mem _ List.mem_cons_self
  unfold Main.sendLoop
  split_ifs with hend hrest
  · exact ⟨trivial, heq, fun _ => hsock, fun h => absurd h hrecv⟩
  · exact fileSent_eq heq hrecv
  · exact ⟨trivial, heq, fun _ => hsock, fun h => absurd h hrecv⟩

/-! ## One operation -/

/-- Where `main` gets to is disciplined exactly if the exit is clean, and then `main` owns what is
held. -/
structure Good (held : List (Var × ℤ)) (clean : Prop) (r : Main × List (Use Var)) : Prop where
  iff : Disciplined held r.2 ↔ clean
  kept : clean → r.1.point = .returned ∨ Owns r.1 (ledger.after held r.2)

section Good

variable {m m' : Main} {held : List (Var × ℤ)} {clean : Prop}

theorem Owns.good_goto (h : Owns m held) (hholds : m'.holds = m.holds) (hsock : m'.sock = m.sock)
    (hrecv : m'.recvFd = m.recvFd) (hclean : clean) : Good held clean (m', []) :=
  ⟨iff_of_true (disciplined_nil held) hclean, fun _ => Or.inr (h.goto hholds hsock hrecv)⟩

/-- An error before the ring is set up. -/
theorem Owns.good_abort_early (h : Owns m held) (hring : (.ring, 0) ∉ held) (hclean : ¬ clean) :
    Good held clean m.abort :=
  ⟨iff_of_false (fun hd => hring ((disciplined_abort h).mp hd).2) hclean, fun hc =>
    absurd hc hclean⟩

/-- An error while the file is open. -/
theorem Owns.good_abort_open (h : Owns m held) (heq : held = m.sends) (hclean : clean) :
    Good held clean m.abort := by
  refine ⟨iff_of_true ((disciplined_abort h).mpr ⟨fun _ => ?_, ?_⟩) hclean, fun _ => Or.inl rfl⟩
  · rw [heq]
    simp [Main.sends]
  · rw [heq]
    exact List.mem_cons_self

/-- An error after the file is closed. -/
theorem Owns.good_abort_late (h : Owns m held) (hring : (.ring, 0) ∈ held)
    (hfile : (.fileFd, m.fileFd) ∉ held) (hclean : clean ↔ m.fileFd ≤ 0) :
    Good held clean m.abort := by
  refine ⟨?_, fun _ => Or.inl rfl⟩
  rw [disciplined_abort h, hclean, and_iff_left hring, ← not_lt]
  exact ⟨fun hmem hpos => hfile (hmem hpos), fun hneg hpos => absurd hpos hneg⟩

/-- A handle is acquired. -/
theorem good_acquire {v : Var} {n : ℤ} (hholds : m'.holds = (v, n) :: held)
    (hsock : m'.sock > 0 → (.sock, m'.sock) ∈ (v, n) :: held)
    (hrecv : m'.recvFd > 0 → (.recvFd, m'.recvFd) ∈ (v, n) :: held) (hclean : clean) :
    Good held clean (m', [.acquire v n]) :=
  ⟨iff_of_true (disciplined_acquire held v n) hclean, fun _ =>
    Or.inr ⟨hholds.symm, hsock, hrecv⟩⟩

variable {r : Main × List (Use Var)} (fails : Prop) [Decidable fails]

/-- A check before the ring is set up. -/
theorem Owns.good_early (h : Owns m held)
    (hr : (if fails then some m.abort else some (m', [])) = some r) (hring : (.ring, 0) ∉ held)
    (hholds : m'.holds = m.holds) (hsock : m'.sock = m.sock) (hrecv : m'.recvFd = m.recvFd) :
    Good held (fails → False) r := by
  split_ifs at hr with hfail <;> obtain rfl := Option.some.inj hr
  · exact h.good_abort_early hring fun hc => hc hfail
  · exact h.good_goto hholds hsock hrecv hfail

/-- A check after the file is closed. -/
theorem Owns.good_late (h : Owns m held)
    (hr : (if fails then some m.abort else some (m', [])) = some r) (hring : (.ring, 0) ∈ held)
    (hfile : (.fileFd, m.fileFd) ∉ held) (hholds : m'.holds = m.holds) (hsock : m'.sock = m.sock)
    (hrecv : m'.recvFd = m.recvFd) : Good held (fails → m.fileFd ≤ 0) r := by
  split_ifs at hr with hfail <;> obtain rfl := Option.some.inj hr
  · exact h.good_abort_late hring hfile (forall_prop_of_true hfail)
  · exact h.good_goto hholds hsock hrecv fun hf => absurd hf hfail

end Good

/-- The operations before the ring is set up. -/
theorem exec_setup {m : Main} {held : List (Var × ℤ)} (h : Owns m held) {o : Outcome}
    {r : Main × List (Use Var)} (hr : m.exec o = some r)
    (hpoint : m.point = .posixMemalign ∨ m.point = .openFile ∨ m.point = .socket ∨
      m.point = .inetPton ∨ m.point = .connect ∨ m.point = .queueInit) :
    Good held (m.CleanExit o) r := by
  obtain ⟨point, sock, fileFd, recvFd, stSize, fileOffset, batchCount⟩ := m
  obtain rfl := h.eq
  cases point with
  | posixMemalign =>
    dsimp only [Main.exec] at hr
    split_ifs at hr <;> obtain rfl := Option.some.inj hr
    · exact ⟨iff_of_true trivial fun _ => trivial, fun _ => Or.inl rfl⟩
    · exact h.good_goto rfl rfl rfl fun _ => trivial
  | openFile =>
    dsimp only [Main.exec] at hr
    split_ifs at hr <;> obtain rfl := Option.some.inj hr
    · exact ⟨iff_of_true trivial fun _ => trivial, fun _ => Or.inl rfl⟩
    · refine good_acquire rfl (fun hpos => ?_) (fun hpos => ?_) fun _ => trivial
      · exact List.mem_cons_of_mem _ (h.sock hpos)
      · exact List.mem_cons_of_mem _ (h.recvFd hpos)
  | socket =>
    dsimp only [Main.exec] at hr
    split_ifs at hr with hfail <;> obtain rfl := Option.some.inj hr
    · have howns : Owns ⟨.socket, o.ret, fileFd, recvFd, stSize, fileOffset, batchCount⟩ _ :=
        ⟨h.eq, fun hpos => absurd hpos (not_lt.mpr hfail.le), h.recvFd⟩
      exact howns.good_abort_early (by simp [Main.holds]) fun hc => hc hfail
    · refine good_acquire rfl (fun _ => List.mem_cons_self) (fun hpos => ?_) fun hf => hfail hf
      exact List.mem_cons_of_mem _ (h.recvFd hpos)
  | inetPton => exact h.good_early (o.ret ≤ 0) hr (by simp [Main.holds]) rfl rfl rfl
  | connect => exact h.good_early (o.ret < 0) hr (by simp [Main.holds]) rfl rfl rfl
  | queueInit =>
    dsimp only [Main.exec] at hr
    split_ifs at hr with hfail <;> obtain rfl := Option.some.inj hr
    · exact h.good_abort_early (by simp [Main.holds]) fun hc => hc hfail
    · refine good_acquire rfl (fun hpos => ?_) (fun hpos => ?_) fun hf => hfail hf
      · exact List.mem_cons_of_mem _ (h.sock hpos)
      · exact List.mem_cons_of_mem _ (h.recvFd hpos)
  | _ => simp at hpoint

/-- The operations while the file is open. -/
theorem exec_sending {m : Main} {held : List (Var × ℤ)} (h : Owns m held) {o : Outcome}
    {r : Main × List (Use Var)} (hr : m.exec o = some r) (hsends : m.holds = m.sends)
    (hclean : m.CleanExit o) : Good held (m.CleanExit o) r := by
  have heq : held = m.sends := h.eq.trans hsends
  have hrecv : ¬ m.recvFd > 0 := by
    intro hpos
    have hmem := h.recvFd hpos
    rw [heq] at hmem
    simp [Main.sends] at hmem
  -- the loop head, with the variables of the first loop changed
  have hloop : ∀ m' : Main, m'.sends = m.sends → m'.recvFd = m.recvFd →
      Good held (m.CleanExit o) m'.sendLoop := by
    intro m' hsends' hrecv'
    obtain ⟨hd, howns⟩ :=
      sendLoop_eq (m := m') (heq.trans hsends'.symm) (by rw [hrecv']; exact hrecv)
    exact ⟨iff_of_true hd hclean, fun _ => Or.inr howns⟩
  obtain ⟨point, sock, fileFd, recvFd, stSize, fileOffset, batchCount⟩ := m
  cases point with
  | fstat => exact Option.some.inj hr ▸ hloop _ rfl rfl
  | readSqe =>
    dsimp only [Main.exec] at hr
    rw [Option.bind_eq_bind, Option.bind_eq_some_iff] at hr
    obtain ⟨bound, -, hr⟩ := hr
    split_ifs at hr with hfail hlast <;> obtain rfl := Option.some.inj hr
    · exact h.good_abort_open heq hclean
    · exact h.good_goto rfl rfl rfl hclean
    · exact h.good_goto rfl rfl rfl hclean
  | sendSqe =>
    dsimp only [Main.exec] at hr
    split_ifs at hr with hfail hfull <;> obtain rfl := Option.some.inj hr
    · exact h.good_abort_open heq hclean
    · exact h.good_goto rfl rfl rfl hclean
    · exact hloop _ rfl rfl
  | peek i =>
    dsimp only [Main.exec] at hr
    split_ifs at hr with hfail hmore <;> obtain rfl := Option.some.inj hr
    · exact h.good_abort_open heq hclean
    · exact h.good_goto rfl rfl rfl hclean
    · exact hloop _ rfl rfl
  | peekRest i =>
    dsimp only [Main.exec] at hr
    split_ifs at hr with hfail hmore <;> obtain rfl := Option.some.inj hr
    · exact h.good_abort_open heq hclean
    · exact h.good_goto rfl rfl rfl hclean
    · obtain ⟨hd, howns⟩ := fileSent_eq heq hrecv
      exact ⟨iff_of_true hd hclean, fun _ => Or.inr howns⟩
  | _ => simp [Main.holds, Main.sends] at hsends

/-- The operations after the file is closed. -/
theorem exec_receiving {m : Main} {held : List (Var × ℤ)} (h : Owns m held) {o : Outcome}
    {r : Main × List (Use Var)} (hr : m.exec o = some r)
    (hpoint : m.point = .openRecv ∨ m.point = .recvSqe ∨ m.point = .recvWait ∨
      m.point = .writeSqe ∨ m.point = .writeWait) :
    Good held (m.CleanExit o) r := by
  obtain ⟨point, sock, fileFd, recvFd, stSize, fileOffset, batchCount⟩ := m
  obtain rfl := h.eq
  cases point with
  | openRecv =>
    dsimp only [Main.exec] at hr
    split_ifs at hr with hfail <;> obtain rfl := Option.some.inj hr
    · have howns : Owns ⟨.openRecv, sock, fileFd, o.ret, stSize, fileOffset, batchCount⟩ _ :=
        ⟨h.eq, h.sock, fun hpos => absurd hpos (not_lt.mpr hfail.le)⟩
      exact howns.good_abort_late (by simp [Main.holds]) (by simp [Main.holds])
        (forall_prop_of_true hfail)
    · refine good_acquire rfl (fun hpos => ?_) (fun _ => List.mem_cons_self)
        fun hf => absurd hf hfail
      exact List.mem_cons_of_mem _ (h.sock hpos)
  | recvSqe =>
    exact h.good_late (o.ret = 0) hr (by simp [Main.holds]) (by simp [Main.holds]) rfl rfl rfl
  | recvWait =>
    dsimp only [Main.exec] at hr
    split_ifs at hr with hfail hend <;> obtain rfl := Option.some.inj hr
    · exact h.good_abort_late (by simp [Main.holds]) (by simp [Main.holds])
        (forall_prop_of_true hfail)
    · have hnodup : [(Var.recvFd, recvFd), (Var.ring, 0), (Var.sock, sock)].Nodup := by simp
      refine ⟨iff_of_true ?_ fun hf => absurd hf hfail, fun _ => Or.inl rfl⟩
      exact (disciplined_releases hnodup _).mpr fun h hmem => hmem
    · exact h.good_goto rfl rfl rfl fun hf => absurd hf hfail
  | writeSqe =>
    exact h.good_late (o.ret = 0) hr (by simp [Main.holds]) (by simp [Main.holds]) rfl rfl rfl
  | writeWait =>
    exact h.good_late (o.ret < 0) hr (by simp [Main.holds]) (by simp [Main.holds]) rfl rfl rfl
  | _ => simp at hpoint

theorem cleanExit_returned {m : Main} (h : m.point = .returned) (o : Outcome) :
    m.CleanExit o := by
  unfold Main.CleanExit
  rw [h]
  exact fun _ => trivial

/-- **One operation.** -/
theorem exec_good {m : Main} {held : List (Var × ℤ)} (h : Owns m held) {o : Outcome}
    {r : Main × List (Use Var)} (hr : m.exec o = some r) : Good held (m.CleanExit o) r := by
  cases hp : m.point with
  | posixMemalign | openFile | socket | inetPton | connect | queueInit =>
    exact exec_setup h hr (by simp [hp])
  | fstat | readSqe | sendSqe | peek | peekRest =>
    refine exec_sending h hr ?_ ?_
    · unfold Main.holds
      rw [hp]
      rfl
    · unfold Main.CleanExit
      rw [hp]
      exact fun _ => trivial
  | openRecv | recvSqe | recvWait | writeSqe | writeWait =>
    exact exec_receiving h hr (by simp [hp])
  | returned =>
    unfold Main.exec at hr
    rw [hp] at hr
    obtain rfl := Option.some.inj hr
    exact ⟨iff_of_true trivial (cleanExit_returned hp o), fun _ => Or.inl hp⟩

/-! ## Runs -/

theorem kept_start : Kept (some Main.start, []) := by
  rintro m h
  obtain rfl := Option.some.inj h
  exact Or.inr ⟨rfl, fun hpos => absurd hpos (by decide), fun hpos => absurd hpos (by decide)⟩

/-- What a step needs to be clean: nothing, once the run is undefined. -/
def CleanStep : Option Main × List (Var × ℤ) → Outcome → Prop
  | (none, _), _ => True
  | (some m, _), o => m.CleanExit o

/-- Every handle that the step releases is held when it is released. -/
def Releases (p : Option Main × List (Var × ℤ)) (o : Outcome) : Prop :=
  Disciplined p.2 (main.out p.1 o)

instance (p : Option Main × List (Var × ℤ)) (o : Outcome) : Decidable (Releases p o) :=
  inferInstanceAs (Decidable (Disciplined p.2 (main.out p.1 o)))

/-- Only the sum in the first loop can be undefined. -/
theorem point_of_undefined {m : Main} {o : Outcome} (h : m.exec o = none) :
    m.point = .readSqe := by
  unfold Main.exec at h
  cases hp : m.point with
  | readSqe => rfl
  | fstat | returned =>
    rw [hp] at h
    exact absurd h (Option.some_ne_none _)
  | _ =>
    rw [hp] at h
    dsimp only at h
    split_ifs at h

theorem releases_step {p : Option Main × List (Var × ℤ)} (hp : Kept p) (o : Outcome) :
    (Releases p o ↔ CleanStep p o) ∧ (CleanStep p o → Kept (tracked.step p o)) := by
  obtain ⟨_ | m, held⟩ := p
  · exact ⟨iff_of_true trivial trivial, fun _ m h => absurd h (Option.some_ne_none m).symm⟩
  · unfold Releases tracked CleanStep main
    dsimp only
    cases hexec : m.exec o with
    | none =>
      obtain ⟨hstep, hout⟩ := Machine.ofPartial_of_none hexec
      rw [hstep, hout]
      refine ⟨iff_of_true trivial ?_, fun _ m h => absurd h (Option.some_ne_none m).symm⟩
      unfold Main.CleanExit
      rw [point_of_undefined hexec]
      exact fun _ => trivial
    | some r =>
      obtain ⟨hstep, hout⟩ := Machine.ofPartial_of_some hexec
      rw [hstep, hout]
      rcases hp m rfl with hret | howns
      · have hself : m.exec o = some (m, []) := by
          unfold Main.exec
          rw [hret]
        obtain rfl := Option.some.inj (hself.symm.trans hexec)
        refine ⟨iff_of_true trivial (cleanExit_returned hret o), fun _ m' hm' => ?_⟩
        exact Or.inl (Option.some.inj hm' ▸ hret)
      · obtain ⟨hiff, hkept⟩ := exec_good howns hexec
        refine ⟨hiff, fun hclean m' hm' => ?_⟩
        obtain rfl := Option.some.inj hm'
        exact hkept hclean

/-- **Descriptors.** Every descriptor and the ring that `main` releases in a run is held by the
variable that it is released through, exactly if no step of the run leaves by an unclean exit. -/
theorem releases_iff (os : List Outcome) :
    tracked.Steps Releases (some .start, []) os ↔ tracked.Steps CleanStep (some .start, []) os := by
  apply tracked.steps_iff_of_invariant (I := Kept) _ _ kept_start
  · intro p o hp
    exact (releases_step hp o).1
  · intro p o hp hclean
    exact (releases_step hp o).2 hclean

/-- The socket cannot be created, and `cleanup` exits a ring that was never set up; or `recv.txt`
cannot be opened after an empty file, and `cleanup` closes the file again. -/
theorem not_releases :
    ¬ tracked.Steps Releases (some .start, []) [⟨0, 0⟩, ⟨3, 0⟩, ⟨-1, 0⟩] ∧
      ¬ tracked.Steps Releases (some .start, [])
        [⟨0, 0⟩, ⟨3, 0⟩, ⟨4, 0⟩, ⟨1, 0⟩, ⟨0, 0⟩, ⟨0, 0⟩, ⟨0, 0⟩, ⟨-1, 0⟩] := by
  decide

end ClickhouseUring.UringClient
