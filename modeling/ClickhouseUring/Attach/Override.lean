import Mathlib.Data.BitVec
import Mathlib.Tactic.Common

/-!
# Attaching an override in `attach_override.h`

`bpf_prog_attach_with_override` looks the symbol up, opens a perf event at its offset and attaches
the program to that event.  Four directories have a copy of the header; the copies differ in the
message of a failed open.

Each operation is performed at most once, so its result is a parameter.  A function returns what
the caller sees and what it has asked for, in order.

The offset comes as a `long`, is kept in an `int` and handed on as a `uint64_t`
(`attachesAtSymbol_iff`).
-/

namespace ClickhouseUring.Attach

/-- The headers. -/
inductive Header
  | clickhouseIouring
  | iouringHotpatch
  | simpleOverride
  | ioSyscallPatch
deriving DecidableEq, Repr

/-- The fields of `struct perf_event_attr` that are set; the others are zero. -/
structure PerfEventAttr where
  size : BitVec 32
  type : BitVec 32
  config : BitVec 64
  config1 : BitVec 64
  config2 : BitVec 64
deriving DecidableEq, Repr

/-- What `syscall` returns, and the `errno` it leaves. -/
structure Syscall where
  ret : BitVec 32
  errno : BitVec 32
  errno_pos : ret.toInt < 0 → 0 < errno.toInt

/-- The results of the operations.  The size of `struct perf_event_attr` depends on the kernel
headers. -/
structure Outcome where
  attrSize : BitVec 32
  elfFindFuncOffsetFromFile : BitVec 64
  perfEventOpen : Syscall
  bpfProgAttach : BitVec 32

/-- What the functions ask for. -/
inductive Action
  | elfFindFuncOffsetFromFile (binaryPath name : BitVec 64)
  | printf (format : String) (arg : BitVec 32)
  | perfEventOpen (attr : PerfEventAttr) (pid cpu groupFd : BitVec 32) (flags : BitVec 64)
  | bpfProgAttach (progFd targetFd : BitVec 32) (type flags : BitVec 32)
deriving DecidableEq, Repr

/-! ## The functions of the source -/

/-- `PERF_UPROBE_REF_CTR_OFFSET_BITS`. -/
def perfUprobeRefCtrOffsetBits : ℕ := 32

/-- `PERF_UPROBE_REF_CTR_OFFSET_SHIFT`. -/
def perfUprobeRefCtrOffsetShift : ℕ := 32

/-- `BPF_TYPE_UPROBE_OVERRIDE`. -/
def bpfTypeUprobeOverride : BitVec 32 := 1008

/-- `PERF_FLAG_FD_CLOEXEC`. -/
def perfFlagFdCloexec : BitVec 64 := 8

/-- `BPF_MODIFY_RETURN`. -/
def bpfModifyReturn : BitVec 32 := 26

/-- `EINVAL`. -/
def einval : BitVec 32 := 22

/-- The message of a failed open. -/
def Header.openFailed : Header → String
  | ioSyscallPatch => "perf_event_open_with_override failed: %d\n"
  | _ => "perf_event_open_error_inject failed: %d\n"

/-- `perf_event_open_with_override`. -/
def perfEventOpenWithOverride (o : Outcome) (name offset : BitVec 64) (pid : BitVec 32)
    (refCtrOff : BitVec 64) (type : BitVec 32) : BitVec 32 × List Action :=
  if 1 <<< perfUprobeRefCtrOffsetBits ≤ refCtrOff then (-einval, [])
  else
    let attr : PerfEventAttr :=
      { size := o.attrSize, type, config := refCtrOff <<< perfUprobeRefCtrOffsetShift,
        config1 := name, config2 := offset }
    let pfd := o.perfEventOpen
    (if 0 ≤ pfd.ret.toInt then pfd.ret else -pfd.errno,
      [.perfEventOpen attr (if pid.toInt < 0 then -1 else pid) (if pid = -1 then 0 else -1) (-1)
        perfFlagFdCloexec])

/-- `bpf_prog_attach_with_override`. -/
def bpfProgAttachWithOverride (h : Header) (o : Outcome) (progFd : BitVec 32)
    (binaryPath name : BitVec 64) (type : BitVec 32) : BitVec 32 × List Action :=
  let lookup := [.elfFindFuncOffsetFromFile binaryPath name]
  -- the `long` becomes an `int`
  let offset : BitVec 32 := o.elfFindFuncOffsetFromFile.setWidth 32
  if offset.toInt < 0 then (offset, lookup)
  else
    let event := perfEventOpenWithOverride o binaryPath (offset.signExtend 64) (-1) 0 type
    let res := event.1
    let opened := lookup ++ .printf "offset: %d" offset :: event.2
    if res.toInt < 0 then (res, opened ++ [.printf h.openFailed res])
    else
      let attached := opened ++ [.bpfProgAttach progFd res bpfModifyReturn 0]
      let res := o.bpfProgAttach
      if res.toInt < 0 then (res, attached ++ [.printf "bpf_prog_attach failed: %d\n" res])
      else (0, attached)

/-- `bpf_prog_attach_uprobe_with_override`. -/
def bpfProgAttachUprobeWithOverride (h : Header) (o : Outcome) (progFd : BitVec 32)
    (binaryPath name : BitVec 64) : BitVec 32 × List Action :=
  bpfProgAttachWithOverride h o progFd binaryPath name bpfTypeUprobeOverride

/-! ## Where the event is opened -/

/-- The `config2` of the event, if one is opened. -/
def Action.config2? : Action → Option (BitVec 64)
  | .perfEventOpen attr _ _ _ _ => some attr.config2
  | _ => none

/-- Something fails. -/
def Outcome.Fails (o : Outcome) : Prop :=
  o.elfFindFuncOffsetFromFile.toInt < 0 ∨ o.perfEventOpen.ret.toInt < 0 ∨ o.bpfProgAttach.toInt < 0

/-- A return of 0 means that one event is opened, at the symbol, and a failure is returned as a
negative number. -/
def AttachesAtSymbol (h : Header) (o : Outcome) (progFd : BitVec 32)
    (binaryPath name : BitVec 64) : Prop :=
  let r := bpfProgAttachUprobeWithOverride h o progFd binaryPath name
  (r.1 = 0 → 0 ≤ o.elfFindFuncOffsetFromFile.toInt ∧
    r.2.filterMap Action.config2? = [o.elfFindFuncOffsetFromFile]) ∧
  (o.Fails → r.1.toInt < 0)

theorem toInt_neg_neg {x : BitVec 32} (h : 0 < x.toInt) : (-x).toInt < 0 := by
  have hx : x ≠ BitVec.intMin 32 := by
    rintro rfl
    exact absurd h (by decide)
  rw [BitVec.toInt_neg_of_ne_intMin hx]
  omega

/-- The event that is opened without a reference counter. -/
theorem perfEventOpenWithOverride_eq (o : Outcome) (name offset : BitVec 64) (type : BitVec 32) :
    ((perfEventOpenWithOverride o name offset (-1) 0 type).1.toInt < 0 ↔
      o.perfEventOpen.ret.toInt < 0) ∧
    (perfEventOpenWithOverride o name offset (-1) 0 type).2.filterMap Action.config2? =
      [offset] := by
  refine ⟨?_, rfl⟩
  show (if 0 ≤ o.perfEventOpen.ret.toInt then _ else _ : BitVec 32).toInt < 0 ↔ _
  split_ifs with hret
  · rfl
  · have hneg := not_le.mp hret
    exact iff_of_true (toInt_neg_neg (o.perfEventOpen.errno_pos hneg)) hneg

/-- What a caller of `bpf_prog_attach_with_override` gets. -/
theorem bpfProgAttachWithOverride_eq (h : Header) (o : Outcome) (progFd : BitVec 32)
    (binaryPath name : BitVec 64) (type : BitVec 32) :
    let offset : BitVec 32 := o.elfFindFuncOffsetFromFile.setWidth 32
    let r := bpfProgAttachWithOverride h o progFd binaryPath name type
    if offset.toInt < 0 ∨ o.perfEventOpen.ret.toInt < 0 ∨ o.bpfProgAttach.toInt < 0 then
      r.1.toInt < 0
    else r.1 = 0 ∧ r.2.filterMap Action.config2? = [offset.signExtend 64] := by
  intro offset r
  obtain ⟨hopen, hconfig⟩ :=
    perfEventOpenWithOverride_eq o binaryPath (offset.signExtend 64) type
  have hr : r = bpfProgAttachWithOverride h o progFd binaryPath name type := rfl
  unfold bpfProgAttachWithOverride at hr
  dsimp only at hr
  by_cases hoffset : offset.toInt < 0
  · rw [if_pos hoffset] at hr
    rw [if_pos (Or.inl hoffset), hr]
    exact hoffset
  rw [if_neg hoffset] at hr
  by_cases hret : o.perfEventOpen.ret.toInt < 0
  · rw [if_pos (hopen.mpr hret)] at hr
    rw [if_pos (Or.inr (Or.inl hret)), hr]
    exact hopen.mpr hret
  rw [if_neg (mt hopen.mp hret)] at hr
  by_cases hres : o.bpfProgAttach.toInt < 0
  · rw [if_pos hres] at hr
    rw [if_pos (Or.inr (Or.inr hres)), hr]
    exact hres
  · rw [if_neg hres] at hr
    rw [if_neg (by tauto), hr]
    refine ⟨rfl, ?_⟩
    rw [List.filterMap_append]
    show List.filterMap _ _ ++ [] = _
    rw [List.append_nil]
    exact hconfig

/-- An offset survives its way through an `int` that is not negative if it fits. -/
theorem signExtend_setWidth_eq_iff {off : BitVec 64} (h : 0 ≤ (off.setWidth 32).toInt) :
    (off.setWidth 32).signExtend 64 = off ↔ off.toNat < 2 ^ 31 := by
  have hmsb : (off.setWidth 32).msb = false := by
    rw [BitVec.msb_eq_toInt]
    exact decide_eq_false (not_lt.mpr h)
  have hlow : (off.setWidth 32).toNat < 2 ^ 31 := BitVec.toNat_lt_of_msb_false hmsb
  rw [BitVec.signExtend_eq_setWidth_of_msb_false hmsb, ← BitVec.toNat_inj, BitVec.toNat_setWidth,
    BitVec.toNat_setWidth]
  rw [BitVec.toNat_setWidth] at hlow
  omega

/-- The program is attached where the symbol is exactly when the offset fits in an `int`, or its low
half is a negative number, or the open or the attach fails. -/
theorem attachesAtSymbol_iff (h : Header) (o : Outcome) (progFd : BitVec 32)
    (binaryPath name : BitVec 64) :
    AttachesAtSymbol h o progFd binaryPath name ↔
      o.elfFindFuncOffsetFromFile.toNat < 2 ^ 31 ∨
      (o.elfFindFuncOffsetFromFile.setWidth 32).toInt < 0 ∨ o.perfEventOpen.ret.toInt < 0 ∨
      o.bpfProgAttach.toInt < 0 := by
  have hspec := bpfProgAttachWithOverride_eq h o progFd binaryPath name bpfTypeUprobeOverride
  dsimp only at hspec
  unfold AttachesAtSymbol bpfProgAttachUprobeWithOverride
  dsimp only
  split_ifs at hspec with hfail
  · refine iff_of_true ⟨fun hzero => ?_, fun _ => hspec⟩ (Or.inr hfail)
    rw [hzero] at hspec
    exact absurd hspec (by decide)
  · obtain ⟨hret, hconfig⟩ := hspec
    obtain ⟨hoffset, hrest⟩ := not_or.mp hfail
    rw [hret, hconfig, or_iff_left hfail, List.singleton_inj,
      signExtend_setWidth_eq_iff (not_lt.mp hoffset)]
    constructor
    · intro hattaches
      exact (hattaches.1 rfl).2
    · intro hlt
      have hnonneg : 0 ≤ o.elfFindFuncOffsetFromFile.toInt := by
        rw [BitVec.toInt_eq_toNat_of_lt (by omega)]
        exact Int.natCast_nonneg _
      refine ⟨fun _ => ⟨hnonneg, hlt⟩, ?_⟩
      rintro (hlookup | hrest')
      · exact absurd hlookup (not_lt.mpr hnonneg)
      · exact absurd hrest' hrest

/-- A symbol behind the first 4 GiB of the binary: the event is opened at offset 4096. -/
theorem not_attachesAtSymbol_large :
    ¬ AttachesAtSymbol .clickhouseIouring ⟨128, 0x100001000, ⟨5, 0, by decide⟩, 0⟩ 3 0 0 := by
  intro hattaches
  have hconfig := (hattaches.1 (by decide)).2
  exact absurd hconfig (by decide)

end ClickhouseUring.Attach
