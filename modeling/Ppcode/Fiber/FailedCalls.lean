import Ppcode.Fiber.FdManager

/-!
# Hooked calls whose call of the kernel fails

`fcntl`, `ioctl` and `setsockopt` of `src/fiber/hook.cc` each do two things: they
write the `FdCtx` and they call the kernel. They write first and do not take it
back, and `fcntl(F_GETFL)` puts the user's `O_NONBLOCK` into whatever the kernel
returned, -1 included.

* `transparent_iff`: when the kernel's call fails, the hooked call returns -1 and
  leaves the `FdCtx` as it was, exactly if it is `Harmless`: the `FdCtx` already
  has what the call writes, and a failed `F_GETFL` has the user's bit set.
* `getfl_of_closed`: a failed `F_GETFL` that returns -2049.

A pointer is null or points to an object of its type.
-/
namespace Ppcode

/-- The `timeval` of `SO_RCVTIMEO` and `SO_SNDTIMEO`; both members are `long`. -/
structure Timeval where
  tv_sec : Int64
  tv_usec : Int64
  deriving DecidableEq, Repr

/-- As the `uint64_t` that `setTimeout` is given.
mirrors src/fiber/hook.cc:530-531 -/
def Timeval.ms (v : Timeval) : UInt64 := (v.tv_sec * 1000 + v.tv_usec / 1000).toUInt64

/-- The members that the hooked calls write. -/
def FdCtx.shadow (c : FdCtx) : Bool × Bool × UInt64 × UInt64 :=
  (c.m_userNonblock, c.m_sysNonblock, c.m_recvTimeout, c.m_sendTimeout)

namespace FdManager

/-- The kernel's call; its own time-outs are not part of `File`. -/
def setsockopt_f (w : FdManager) (fd : Nat) (ok : Bool) : FdManager × Flags :=
  if (w.files fd).isSome && ok then (w, 0) else (w, Flags.failed)

/-- `setsockopt` at the level `SOL_SOCKET` with one of the two time-outs; any other
is passed on. `none` is the access through a null pointer.
mirrors src/fiber/hook.cc:517-536 -/
def setsockopt (depth : Nat) (w : FdManager) (hooked : Bool) (fd : Nat) (optname : TimeoutType)
    (optval : Option Timeval) (ok : Bool) : Option (FdManager × Flags) := do
  if !hooked then return w.setsockopt_f fd ok
  let (w, fd_ctx) ← get depth w fd false
  match fd_ctx with
  | none => return w.setsockopt_f fd ok
  | some ctx =>
    let v ← optval
    return (w.setEntry fd (some (ctx.setTimeout optname v.ms))).setsockopt_f fd ok

/-- A call that writes the `FdCtx`, or reads it for the user. -/
inductive HookedCall where
  | F_SETFL (arg : Flags)
  | F_GETFL
  | fionbio (arg : Option (BitVec 32))
  | setsockopt (hooked : Bool) (optname : TimeoutType) (optval : Option Timeval)
  deriving DecidableEq, Repr

/-- `ok` is whether the kernel's call succeeds on an open fd. -/
def HookedCall.run (depth : Nat) (w : FdManager) (fd : Nat) (ok : Bool) :
    HookedCall → Option (FdManager × Flags)
  | .F_SETFL arg => w.fcntl depth fd (.F_SETFL arg) ok
  | .F_GETFL => w.fcntl depth fd .F_GETFL ok
  | .fionbio arg => arg.bind fun v => w.ioctl depth fd v ok
  | .setsockopt hooked optname optval => w.setsockopt depth hooked fd optname optval ok

/-- The call returns -1 and the `FdCtx` is the same as before. -/
def Transparent (depth : Nat) (w : FdManager) (fd : Nat) (ok : Bool) (ctx : FdCtx)
    (c : HookedCall) : Prop :=
  ∃ w' ctx', c.run depth w fd ok = some (w', Flags.failed) ∧ w'.entry fd = some ctx' ∧
    ctx'.shadow = ctx.shadow

/-- The call writes what is there already, or nothing. -/
def Harmless (ctx : FdCtx) : HookedCall → Prop
  | .F_SETFL arg => ctx.ignored = true ∨ ctx.m_userNonblock = arg.nonblock
  | .F_GETFL => ctx.ignored = true ∨ ctx.m_userNonblock = true
  | .fionbio arg => ∃ v, arg = some v ∧ (ctx.ignored = true ∨ ctx.m_userNonblock = (v != 0))
  | .setsockopt hooked optname optval =>
    hooked = false ∨ ∃ v, optval = some v ∧ ctx.getTimeout optname = v.ms

/-! ## The kernel's part -/

/-- The kernel's call on `fd` returns -1. -/
def KernelFails (w : FdManager) (fd : Nat) (ok : Bool) : Prop := ok = false ∨ w.files fd = none

section Failing
variable {w : FdManager} {fd : Nat} {ok : Bool} (hfail : w.KernelFails fd ok)
include hfail

theorem fcntl_f_fails (cmd : FcntlCmd) : w.fcntl_f fd cmd ok = (w, Flags.failed) := by
  unfold fcntl_f
  rcases hfail with h | h
  · rw [h]
    cases w.files fd <;> rfl
  · rw [h]

theorem ioctl_f_fails (v : Bool) : w.ioctl_f fd v ok = (w, Flags.failed) := by
  unfold ioctl_f
  rcases hfail with h | h
  · rw [h]
    cases w.files fd <;> rfl
  · rw [h]

theorem setsockopt_f_fails : w.setsockopt_f fd ok = (w, Flags.failed) := by
  unfold setsockopt_f
  rcases hfail with h | h <;> simp [h]

theorem KernelFails.setEntry (ctx : Option FdCtx) : (w.setEntry fd ctx).KernelFails fd ok := hfail

end Failing

theorem Flags.failed_getfl (b : Bool) : Flags.withNonblock Flags.failed b = Flags.failed ↔ b = true := by
  cases b <;> decide

/-! ## The hooked calls -/

section Calls
variable {w : FdManager} {fd d : Nat} {ok : Bool} {ctx : FdCtx}

theorem lt_of_entry (hent : w.entry fd = some ctx) : fd < w.m_datas.length := by
  refine Nat.lt_of_not_le fun hle => ?_
  rw [entry_of_le hle] at hent
  cases hent

/-- A call that returns -1 in the world `w'`. -/
theorem transparent_of_run {c : HookedCall} {w' : FdManager} {ctx' : FdCtx} {ret : Flags}
    (hrun : c.run d w fd ok = some (w', ret)) (hent : w'.entry fd = some ctx') :
    Transparent d w fd ok ctx c ↔ ret = Flags.failed ∧ ctx'.shadow = ctx.shadow := by
  constructor
  · intro hex
    obtain ⟨w₁, ctx₁, h, h₁, hs⟩ := hex
    rw [hrun] at h
    cases h
    rw [hent] at h₁
    cases h₁
    exact ⟨rfl, hs⟩
  · intro hex
    obtain ⟨rfl, hs⟩ := hex
    exact ⟨w', ctx', hrun, hent, hs⟩

theorem not_transparent_of_none {c : HookedCall} (hrun : c.run d w fd ok = none) :
    ¬ Transparent d w fd ok ctx c := by
  intro hex
  obtain ⟨w', ctx', h, -, -⟩ := hex
  rw [hrun] at h
  cases h

theorem setUserNonblock_shadow (b : Bool) :
    FdCtx.shadow { ctx with m_userNonblock := b } = ctx.shadow ↔ ctx.m_userNonblock = b := by
  simp [FdCtx.shadow, eq_comm]

theorem setTimeout_shadow (optname : TimeoutType) (v : UInt64) :
    (ctx.setTimeout optname v).shadow = ctx.shadow ↔ ctx.getTimeout optname = v := by
  cases optname <;> simp [FdCtx.shadow, FdCtx.setTimeout, FdCtx.getTimeout, eq_comm]

variable (hent : w.entry fd = some ctx) (hfail : w.KernelFails fd ok)
include hent hfail

theorem run_setfl (arg : Flags) : (HookedCall.F_SETFL arg).run (d + 1) w fd ok =
    some (if ctx.ignored then w
      else w.setEntry fd (some { ctx with m_userNonblock := arg.nonblock }), Flags.failed) := by
  simp only [HookedCall.run, fcntl, fcntlWith, get_read (lt_of_entry hent), hent,
    Option.bind_eq_bind, Option.bind_some]
  cases ctx.ignored with
  | true => simp [fcntl_f_fails hfail]
  | false => simp [fcntl_f_fails (hfail.setEntry _)]

theorem run_getfl : HookedCall.F_GETFL.run (d + 1) w fd ok =
    some (w, if ctx.ignored then Flags.failed
      else Flags.withNonblock Flags.failed ctx.m_userNonblock) := by
  simp only [HookedCall.run, fcntl, fcntlWith, fcntl_f_fails hfail, get_read (lt_of_entry hent),
    hent, Option.bind_eq_bind, Option.bind_some]
  cases ctx.ignored with
  | true => rfl
  | false => cases hu : ctx.m_userNonblock <;> rfl

theorem run_fionbio (v : BitVec 32) : (HookedCall.fionbio (some v)).run (d + 1) w fd ok =
    some (if ctx.ignored then w
      else w.setEntry fd (some { ctx with m_userNonblock := v != 0 }), Flags.failed) := by
  simp only [HookedCall.run, ioctl, ioctlWith, get_read (lt_of_entry hent), hent,
    Option.bind_eq_bind, Option.bind_some]
  cases ctx.ignored with
  | true => simp [ioctl_f_fails hfail]
  | false => simp [ioctl_f_fails (hfail.setEntry _)]

theorem run_setsockopt (optname : TimeoutType) (optval : Option Timeval) :
    (HookedCall.setsockopt true optname optval).run (d + 1) w fd ok =
      optval.map fun v => (w.setEntry fd (some (ctx.setTimeout optname v.ms)), Flags.failed) := by
  simp only [HookedCall.run, setsockopt, get_read (lt_of_entry hent), hent, Bool.not_true,
    Bool.false_eq_true, if_false, Option.bind_eq_bind, Option.bind_some]
  cases optval with
  | none => rfl
  | some v => simp [setsockopt_f_fails (hfail.setEntry _)]

omit hfail in
/-- A call that notes `m_userNonblock` before the kernel fails. -/
theorem transparent_of_nonblock {c : HookedCall} {b : Bool}
    (hrun : c.run d w fd ok = some (if ctx.ignored then w
      else w.setEntry fd (some { ctx with m_userNonblock := b }), Flags.failed)) :
    Transparent d w fd ok ctx c ↔ ctx.ignored = true ∨ ctx.m_userNonblock = b := by
  cases hign : ctx.ignored with
  | true =>
    rw [hign] at hrun
    simp [transparent_of_run hrun hent]
  | false =>
    rw [hign] at hrun
    have hself := setEntry_entry_self (some { ctx with m_userNonblock := b }) (lt_of_entry hent)
    simp [transparent_of_run hrun hself, setUserNonblock_shadow]

end Calls

/-- When the kernel's call fails, the hooked call returns -1 and leaves the `FdCtx` alone if and
only if it is harmless. -/
theorem transparent_iff (d : Nat) (w : FdManager) (fd : Nat) (ok : Bool) (ctx : FdCtx)
    (c : HookedCall) (hent : w.entry fd = some ctx) (hfail : w.KernelFails fd ok) :
    Transparent (d + 1) w fd ok ctx c ↔ Harmless ctx c := by
  cases c with
  | F_SETFL arg => exact transparent_of_nonblock hent (run_setfl hent hfail arg)
  | F_GETFL =>
    have hrun := run_getfl (d := d) hent hfail
    simp only [Harmless]
    rw [transparent_of_run hrun hent]
    cases ctx.ignored with
    | true => simp
    | false => simp [Flags.failed_getfl]
  | fionbio arg =>
    cases arg with
    | none =>
      have hrun : (HookedCall.fionbio none).run (d + 1) w fd ok = none := rfl
      simp [Harmless, not_transparent_of_none hrun]
    | some v =>
      simp only [Harmless, Option.some.injEq, exists_eq_left']
      exact transparent_of_nonblock hent (run_fionbio hent hfail v)
  | setsockopt hooked optname optval =>
    simp only [Harmless]
    cases hooked with
    | false =>
      have hrun : (HookedCall.setsockopt false optname optval).run (d + 1) w fd ok =
          some (w, Flags.failed) := by
        simp [HookedCall.run, setsockopt, setsockopt_f_fails hfail]
      simp [transparent_of_run hrun hent]
    | true =>
      have hrun := run_setsockopt (d := d) hent hfail optname optval
      cases optval with
      | none => simp [not_transparent_of_none hrun]
      | some v =>
        have hself := setEntry_entry_self (some (ctx.setTimeout optname v.ms)) (lt_of_entry hent)
        simp [transparent_of_run hrun hself, setTimeout_shadow]

/-- The table in which fd 3, a socket, has been closed behind the hook's back. -/
def closedBehind : FdManager := (new fun _ => none).setEntry 3 (some (.fresh 3 true))

theorem closedBehind_entry : closedBehind.entry 3 = some (.fresh 3 true) :=
  setEntry_entry_self _ (by simp [new])

/-- Clearing what is clear already. -/
theorem transparent_setfl :
    Transparent 1 closedBehind 3 true (.fresh 3 true) (.F_SETFL 0x400) :=
  (transparent_iff 0 closedBehind 3 true (.fresh 3 true) (.F_SETFL 0x400) closedBehind_entry
    (.inr rfl)).mpr (.inr (by decide))

/-- `F_GETFL` of a closed fd returns -1 with a bit cleared. -/
theorem getfl_of_closed :
    (∃ w, HookedCall.F_GETFL.run 1 closedBehind 3 true = some (w, -2049)) ∧
    ¬ Transparent 1 closedBehind 3 true (.fresh 3 true) .F_GETFL := by
  have hfail : KernelFails closedBehind 3 true := .inr rfl
  have hrun := run_getfl (d := 0) closedBehind_entry hfail
  refine ⟨⟨closedBehind, ?_⟩, ?_⟩
  · rw [hrun]
    rfl
  · rw [transparent_of_run hrun closedBehind_entry]
    decide

end FdManager
end Ppcode
