import Mathlib.Data.BitVec
import Mathlib.Logic.Function.Basic

/-!
# `FdManager`: the table of `FdCtx`s

`src/fiber/fdcontext.cc` keeps for each fd what the hooked calls have to know:
whether it is a socket, whether the kernel's `O_NONBLOCK` was set for the
scheduler's sake (`m_sysNonblock`), whether the user asked for it
(`m_userNonblock`), and the two time-outs. `src/fiber/hook.cc` has the hooked
`fcntl` and `ioctl`, which write both the kernel's flags and the `FdCtx`.

`FdCtx::init` itself calls `fcntl`, which is the hooked one, and that calls
`FdManager::get`: the three are mutually recursive. `get` has a bound on the
depth of the calls and is `none` when the bound is too small. Two is enough,
unless `get` is called without `auto_create` on a socket beyond the end of the
table: then no bound is (`get_diverges`), since every `get` makes an `FdCtx`
before it grows the table.

An fd is a `Nat`; `get` returns `nullptr` for a negative one. Each function is one
step here, without `m_mutex`, which `FdLock` has.
-/
namespace Ppcode

/-- The file status flags of a file. -/
abbrev Flags := BitVec 32

def O_NONBLOCK : Flags := 0x800

/-- `flags & O_NONBLOCK` as a `bool`. -/
def Flags.nonblock (flags : Flags) : Bool := flags &&& O_NONBLOCK != 0

/-- `flags` with the given `O_NONBLOCK` bit. -/
def Flags.withNonblock (flags : Flags) (b : Bool) : Flags :=
  if b then flags ||| O_NONBLOCK else flags &&& ~~~O_NONBLOCK

/-- What a failed call returns. -/
def Flags.failed : Flags := -1

/-- What the kernel has for an open fd: `S_ISSOCK` of its mode, its status flags,
and those of them that `F_SETFL` changes. -/
structure File where
  isSock : Bool
  flags : Flags
  settable : Flags
  deriving DecidableEq, Repr

/-! ## The `O_NONBLOCK` bit -/

namespace Flags

theorem getLsbD_O_NONBLOCK (i : Nat) : O_NONBLOCK.getLsbD i = decide (i = 11) := by
  rw [show O_NONBLOCK = BitVec.twoPow 32 11 by rfl, BitVec.getLsbD_twoPow]
  by_cases h : i = 11
  · simp [h]
  · simp [h, Ne.symm h]

theorem nonblock_eq (flags : Flags) : flags.nonblock = flags.getLsbD 11 := by
  have h := BitVec.and_twoPow flags 11
  rw [show BitVec.twoPow 32 11 = O_NONBLOCK by rfl] at h
  simp only [nonblock, h]
  cases flags.getLsbD 11 <;> rfl

theorem getLsbD_withNonblock (flags : Flags) (b : Bool) (i : Nat) :
    (flags.withNonblock b).getLsbD i = if i = 11 then b else flags.getLsbD i := by
  have hlt : flags.getLsbD i = true → i < 32 := BitVec.lt_of_getLsbD
  cases b with
  | false =>
    simp only [withNonblock, Bool.false_eq_true, if_false, BitVec.getLsbD_and, BitVec.getLsbD_not,
      getLsbD_O_NONBLOCK]
    by_cases h : i = 11
    · simp [h]
    · cases hf : flags.getLsbD i with
      | false => simp
      | true => simp [h, hlt hf]
  | true =>
    simp only [withNonblock, if_true, BitVec.getLsbD_or, getLsbD_O_NONBLOCK]
    by_cases h : i = 11 <;> simp [h]

@[simp] theorem nonblock_withNonblock (flags : Flags) (b : Bool) :
    (flags.withNonblock b).nonblock = b := by rw [nonblock_eq, getLsbD_withNonblock, if_pos rfl]

theorem withNonblock_nonblock (flags : Flags) : flags.withNonblock flags.nonblock = flags := by
  apply BitVec.eq_of_getLsbD_eq
  intro i _
  rw [getLsbD_withNonblock, nonblock_eq]
  split
  · rename_i h
    rw [h]
  · rfl

@[simp] theorem withNonblock_withNonblock (flags : Flags) (b b' : Bool) :
    (flags.withNonblock b).withNonblock b' = flags.withNonblock b' := by
  apply BitVec.eq_of_getLsbD_eq
  intro i _
  simp only [getLsbD_withNonblock]
  split <;> rfl

end Flags

namespace File

/-- What a successful `F_SETFL` does. -/
def setfl (f : File) (arg : Flags) : File :=
  { f with flags := (arg &&& f.settable) ||| (f.flags &&& ~~~f.settable) }

/-- What a successful `FIONBIO` does. -/
def fionbio (f : File) (v : Bool) : File :=
  { f with flags := f.flags.withNonblock v }

end File

/-- mirrors src/fiber/fdcontext.h:38-51 -/
structure FdCtx where
  m_isSocket : Bool
  m_sysNonblock : Bool
  m_userNonblock : Bool
  m_isClosed : Bool
  m_fd : Nat
  m_recvTimeout : UInt64
  m_sendTimeout : UInt64
  deriving DecidableEq, Repr

/-- `SO_RCVTIMEO` and `SO_SNDTIMEO`. -/
inductive TimeoutType where
  | recv | send
  deriving DecidableEq, Repr

namespace FdCtx

/-- mirrors src/fiber/fdcontext.cc:43-49 -/
def setTimeout (c : FdCtx) (type : TimeoutType) (v : UInt64) : FdCtx :=
  match type with
  | .recv => { c with m_recvTimeout := v }
  | .send => { c with m_sendTimeout := v }

/-- mirrors src/fiber/fdcontext.cc:51-57 -/
def getTimeout (c : FdCtx) : TimeoutType → UInt64
  | .recv => c.m_recvTimeout
  | .send => c.m_sendTimeout

/-- The test `isClose() || !isSocket()` with which the hooked calls leave an fd alone. -/
def ignored (c : FdCtx) : Bool := c.m_isClosed || !c.m_isSocket

/-- The members after `init`, for what `fstat` says.
mirrors src/fiber/fdcontext.cc:19-41 -/
def fresh (fd : Nat) (isSocket : Bool) : FdCtx := ⟨isSocket, isSocket, false, false, fd, -1, -1⟩

end FdCtx

/-- The commands that `fcntl` treats; it passes every other one on. -/
inductive FcntlCmd where
  | F_SETFL (arg : Flags)
  | F_GETFL
  deriving DecidableEq, Repr

/-- The kernel's open files and the table of `FdManager`.
mirrors src/fiber/fdcontext.h:54-69 -/
structure FdManager where
  files : Nat → Option File
  m_datas : List (Option FdCtx)

namespace FdManager

/-- mirrors src/fiber/fdcontext.cc:58 -/
def new (files : Nat → Option File) : FdManager := ⟨files, List.replicate 128 none⟩

/-- The entry of an fd. -/
def entry (w : FdManager) (fd : Nat) : Option FdCtx := (w.m_datas[fd]?).join

/-- `S_ISSOCK` of `fstat`, `false` when it fails. -/
def isSock (w : FdManager) (fd : Nat) : Bool := (w.files fd).any (·.isSock)

def setFile (w : FdManager) (fd : Nat) (f : Option File) : FdManager :=
  { w with files := Function.update w.files fd f }

/-- `m_datas[fd] = ctx` -/
def setEntry (w : FdManager) (fd : Nat) (ctx : Option FdCtx) : FdManager :=
  { w with m_datas := w.m_datas.set fd ctx }

/-- `m_datas.resize(size)` -/
def resize (w : FdManager) (size : Nat) : FdManager :=
  { w with m_datas := w.m_datas.take size ++ List.replicate (size - w.m_datas.length) none }

/-! ## The kernel's calls

`ok` says whether a call on an open fd succeeds. -/

def fcntl_f (w : FdManager) (fd : Nat) (cmd : FcntlCmd) (ok : Bool) : FdManager × Flags :=
  match w.files fd, ok with
  | some f, true =>
    match cmd with
    | .F_SETFL arg => (w.setFile fd (some (f.setfl arg)), 0)
    | .F_GETFL => (w, f.flags)
  | _, _ => (w, Flags.failed)

def ioctl_f (w : FdManager) (fd : Nat) (v : Bool) (ok : Bool) : FdManager × Flags :=
  match w.files fd, ok with
  | some f, true => (w.setFile fd (some (f.fionbio v)), 0)
  | _, _ => (w, Flags.failed)

/-! ## The hooked calls -/

section Hooked
variable (get : FdManager → Nat → Bool → Option (FdManager × Option FdCtx))

/-- mirrors src/fiber/hook.cc:415-447 -/
def fcntlWith (w : FdManager) (fd : Nat) (cmd : FcntlCmd) (ok : Bool) :
    Option (FdManager × Flags) :=
  match cmd with
  | .F_SETFL arg => do
    let (w, fd_ctx) ← get w fd false
    match fd_ctx with
    | none => return w.fcntl_f fd (.F_SETFL arg) ok
    | some ctx =>
      if ctx.ignored then return w.fcntl_f fd (.F_SETFL arg) ok
      let w := w.setEntry fd (some { ctx with m_userNonblock := arg.nonblock })
      let arg := if ctx.m_sysNonblock then arg ||| O_NONBLOCK else arg &&& ~~~O_NONBLOCK
      return w.fcntl_f fd (.F_SETFL arg) ok
  | .F_GETFL => do
    let (w, arg) := w.fcntl_f fd .F_GETFL ok
    let (w, fd_ctx) ← get w fd false
    match fd_ctx with
    | none => return (w, arg)
    | some ctx =>
      if ctx.ignored then return (w, arg)
      if ctx.m_userNonblock then return (w, arg ||| O_NONBLOCK)
      return (w, arg &&& ~~~O_NONBLOCK)

/-- `ioctl` with the request `FIONBIO`; any other is passed on.
mirrors src/fiber/hook.cc:493-510 -/
def ioctlWith (w : FdManager) (fd : Nat) (v : BitVec 32) (ok : Bool) :
    Option (FdManager × Flags) := do
  let user_nonblock := v != 0
  let (w, fd_ctx) ← get w fd false
  match fd_ctx with
  | none => return w.ioctl_f fd user_nonblock ok
  | some ctx =>
    if ctx.ignored then return w.ioctl_f fd user_nonblock ok
    let w := w.setEntry fd (some { ctx with m_userNonblock := user_nonblock })
    return w.ioctl_f fd user_nonblock ok

/-- The constructor of `FdCtx`; the kernel lets `O_NONBLOCK` be set on a socket.
mirrors src/fiber/fdcontext.cc:17-41 -/
def newCtx (w : FdManager) (fd : Nat) : Option (FdManager × FdCtx) :=
  if w.isSock fd then do
    let (w, flags) ← fcntlWith get w fd .F_GETFL true
    if flags.nonblock then return (w, .fresh fd true)
    let (w, _) ← fcntlWith get w fd (.F_SETFL (flags ||| O_NONBLOCK)) true
    return (w, .fresh fd true)
  else some (w, .fresh fd false)

end Hooked

/-- mirrors src/fiber/fdcontext.cc:60-85 -/
def get (depth : Nat) (w : FdManager) (fd : Nat) (auto_create : Bool) :
    Option (FdManager × Option FdCtx) :=
  match depth with
  | 0 => none
  | depth + 1 =>
    let create := do
      let (w, ctx) ← newCtx (get depth) w fd
      let w := if w.m_datas.length ≤ fd then w.resize (fd * 3 / 2) else w
      return (w.setEntry fd (some ctx), some ctx)
    if w.m_datas.length ≤ fd then
      if auto_create then some (w, none) else create
    else if (w.entry fd).isSome || !auto_create then some (w, w.entry fd) else create

/-- mirrors src/fiber/fdcontext.cc:87-93 -/
def del (w : FdManager) (fd : Nat) : FdManager :=
  if w.m_datas.length ≤ fd then w else w.setEntry fd none

def fcntl (depth : Nat) : FdManager → Nat → FcntlCmd → Bool → Option (FdManager × Flags) :=
  fcntlWith (get depth)

def ioctl (depth : Nat) : FdManager → Nat → BitVec 32 → Bool → Option (FdManager × Flags) :=
  ioctlWith (get depth)

/-! ## What `get` does -/

variable {w : FdManager} {fd : Nat} {d : Nat}

@[simp] theorem setEntry_files (w : FdManager) (fd : Nat) (ctx : Option FdCtx) :
    (w.setEntry fd ctx).files = w.files := rfl

@[simp] theorem setEntry_length (w : FdManager) (fd : Nat) (ctx : Option FdCtx) :
    (w.setEntry fd ctx).m_datas.length = w.m_datas.length := by simp [setEntry]

@[simp] theorem setFile_datas (w : FdManager) (fd : Nat) (f : Option File) :
    (w.setFile fd f).m_datas = w.m_datas := rfl

@[simp] theorem setFile_files_self (w : FdManager) (fd : Nat) (f : Option File) :
    (w.setFile fd f).files fd = f := Function.update_self ..

@[simp] theorem setFile_entry (w : FdManager) (fd fd' : Nat) (f : Option File) :
    (w.setFile fd f).entry fd' = w.entry fd' := rfl

theorem setEntry_entry_self (ctx : Option FdCtx) (h : fd < w.m_datas.length) :
    (w.setEntry fd ctx).entry fd = ctx := by simp [entry, setEntry, h]

theorem setEntry_entry_of_ne {fd' : Nat} (ctx : Option FdCtx) (h : fd' ≠ fd) :
    (w.setEntry fd ctx).entry fd' = w.entry fd' := by
  simp [entry, setEntry, List.getElem?_set_ne (Ne.symm h)]

theorem entry_of_le (h : w.m_datas.length ≤ fd) : w.entry fd = none := by
  simp [entry, List.getElem?_eq_none h]

/-- Inside the table and without `auto_create` it only reads. -/
theorem get_read (h : fd < w.m_datas.length) : get (d + 1) w fd false = some (w, w.entry fd) := by
  simp [get, Nat.not_le.mpr h]

/-- The kernel's flags after `FdCtx::init`. -/
def markNonblock (w : FdManager) (fd : Nat) : FdManager :=
  match w.files fd with
  | some f =>
    if f.isSock && !f.flags.nonblock then w.setFile fd (some (f.setfl (f.flags ||| O_NONBLOCK)))
    else w
  | none => w

@[simp] theorem markNonblock_datas (w : FdManager) (fd : Nat) :
    (w.markNonblock fd).m_datas = w.m_datas := by
  unfold markNonblock
  split
  · split <;> rfl
  · rfl

/-- On an fd that `get` knows nothing of, the hooked `fcntl` is the kernel's. -/
theorem fcntlWith_unmanaged {cmd : FcntlCmd} {ok : Bool} (h : fd < w.m_datas.length)
    (hent : w.entry fd = none) : fcntlWith (get (d + 1)) w fd cmd ok = some (w.fcntl_f fd cmd ok) := by
  cases cmd with
  | F_SETFL arg => simp [fcntlWith, get_read h, hent]
  | F_GETFL =>
    have hw : (w.fcntl_f fd .F_GETFL ok).1 = w := by
      unfold fcntl_f
      split <;> rfl
    simp [fcntlWith, hw, get_read h, hent, Prod.ext_iff]

theorem newCtx_eq (h : fd < w.m_datas.length) (hent : w.entry fd = none) :
    newCtx (get (d + 1)) w fd = some (w.markNonblock fd, .fresh fd (w.isSock fd)) := by
  unfold newCtx
  cases hs : w.isSock fd with
  | false =>
    rw [if_neg (by decide)]
    unfold markNonblock
    cases hf : w.files fd with
    | none => rfl
    | some f =>
      have hsock : f.isSock = false := by simpa [isSock, hf] using hs
      simp [hsock]
  | true =>
    rw [if_pos rfl]
    obtain ⟨f, hf, hsock⟩ := (Option.any_eq_true _ _).mp hs
    have hget : w.fcntl_f fd .F_GETFL true = (w, f.flags) := by simp [fcntl_f, hf]
    simp only [fcntlWith_unmanaged h hent, hget, Option.bind_eq_bind, Option.bind_some]
    cases hn : f.flags.nonblock with
    | true => simp [markNonblock, hf, hn]
    | false => simp [markNonblock, hf, hn, hsock, fcntl_f]

/-- The table after `get` has made an entry inside it. -/
def created (w : FdManager) (fd : Nat) : FdManager :=
  (w.markNonblock fd).setEntry fd (some (.fresh fd (w.isSock fd)))

theorem get_create (h : fd < w.m_datas.length) (hent : w.entry fd = none) :
    get (d + 2) w fd true = some (w.created fd, some (.fresh fd (w.isSock fd))) := by
  rw [get]
  simp [Nat.not_le.mpr h, hent, newCtx_eq h hent, created]

/-- Beyond the table `auto_create` makes nothing. -/
theorem get_beyond (h : w.m_datas.length ≤ fd) : get (d + 1) w fd true = some (w, none) := by
  simp [get, h]

/-- Without `auto_create`, on a socket beyond the table, the calls never end. -/
theorem get_diverges (h : w.m_datas.length ≤ fd) (hs : w.isSock fd = true) :
    ∀ d, get d w fd false = none := by
  intro d
  induction d with
  | zero => rfl
  | succ d ih =>
    obtain ⟨f, hf, -⟩ := (Option.any_eq_true _ _).mp hs
    have hget : w.fcntl_f fd .F_GETFL true = (w, f.flags) := by simp [fcntl_f, hf]
    have hnew : newCtx (get d) w fd = none := by simp [newCtx, hs, fcntlWith, hget, ih]
    simp [get, h, hnew]

/-! ## What a call changes -/

/-- A call on `fd` has left the other numbers alone, and has neither opened nor closed it. -/
structure Touches (w w' : FdManager) (fd : Nat) : Prop where
  files : ∀ fd', fd' ≠ fd → w'.files fd' = w.files fd'
  entry : ∀ fd', fd' ≠ fd → w'.entry fd' = w.entry fd'
  opened : w'.files fd = none ↔ w.files fd = none
  isSock : w'.isSock fd = w.isSock fd

theorem Touches.refl (w : FdManager) (fd : Nat) : Touches w w fd :=
  ⟨fun _ _ => rfl, fun _ _ => rfl, Iff.rfl, rfl⟩

theorem Touches.trans {w₁ w₂ w₃ : FdManager} (h : Touches w₁ w₂ fd) (h' : Touches w₂ w₃ fd) :
    Touches w₁ w₃ fd :=
  ⟨fun fd' hne => (h'.files fd' hne).trans (h.files fd' hne),
    fun fd' hne => (h'.entry fd' hne).trans (h.entry fd' hne), h'.opened.trans h.opened,
    h'.isSock.trans h.isSock⟩

theorem Touches.setEntry (w : FdManager) (fd : Nat) (ctx : Option FdCtx) :
    Touches w (w.setEntry fd ctx) fd :=
  ⟨fun _ _ => rfl, fun _ hne => setEntry_entry_of_ne ctx hne, Iff.rfl, rfl⟩

/-- The flags of an open file change. -/
theorem Touches.setFile {f f' : File} (hf : w.files fd = some f) (hsock : f'.isSock = f.isSock) :
    Touches w (w.setFile fd (some f')) fd where
  files fd' hne := Function.update_of_ne hne ..
  entry _ _ := rfl
  opened := by simp [hf]
  isSock := by simp [FdManager.isSock, hf, hsock]

theorem Touches.fcntl_f (w : FdManager) (fd : Nat) (cmd : FcntlCmd) (ok : Bool) :
    Touches w (w.fcntl_f fd cmd ok).1 fd := by
  unfold FdManager.fcntl_f
  cases hf : w.files fd with
  | none => exact .refl w fd
  | some f =>
    cases ok with
    | false => exact .refl w fd
    | true =>
      cases cmd with
      | F_SETFL arg => exact .setFile hf rfl
      | F_GETFL => exact .refl w fd

@[simp] theorem fcntl_f_datas (w : FdManager) (fd : Nat) (cmd : FcntlCmd) (ok : Bool) :
    (w.fcntl_f fd cmd ok).1.m_datas = w.m_datas := by
  unfold fcntl_f
  split
  · cases cmd <;> rfl
  · rfl

theorem Touches.markNonblock (w : FdManager) (fd : Nat) : Touches w (w.markNonblock fd) fd := by
  unfold FdManager.markNonblock
  split
  · next f hf =>
    split
    · exact .setFile hf rfl
    · exact .refl w fd
  · exact .refl w fd

theorem resize_entry {size : Nat} (h : w.m_datas.length ≤ size) (fd : Nat) :
    (w.resize size).entry fd = w.entry fd := by
  unfold entry resize
  rw [List.take_of_length_le h]
  by_cases hin : fd < w.m_datas.length
  · rw [List.getElem?_append_left hin]
  · have hout : w.m_datas[fd]? = none := List.getElem?_eq_none (Nat.le_of_not_lt hin)
    rw [List.getElem?_append_right (Nat.le_of_not_lt hin), List.getElem?_replicate, hout]
    split <;> rfl

theorem Touches.grow (h : w.m_datas.length ≤ fd) (ctx : Option FdCtx) :
    Touches w ((w.resize (fd * 3 / 2)).setEntry fd ctx) fd where
  files _ _ := rfl
  entry fd' hne := by rw [setEntry_entry_of_ne ctx hne, resize_entry (by omega)]
  opened := Iff.rfl
  isSock := rfl

/-- `get` without `auto_create` reads, or makes an entry for what is no socket. -/
theorem get_cases {w' : FdManager} {r : Option FdCtx} (h : get 3 w fd false = some (w', r)) :
    (fd < w.m_datas.length ∧ w' = w ∧ r = w.entry fd) ∨
    (w.m_datas.length ≤ fd ∧ w.isSock fd = false ∧ Touches w w' fd ∧ r.isSome = true) := by
  by_cases hlt : fd < w.m_datas.length
  · rw [get_read hlt] at h
    cases h
    exact .inl ⟨hlt, rfl, rfl⟩
  · have hle := Nat.le_of_not_lt hlt
    cases hs : w.isSock fd with
    | true =>
      rw [get_diverges hle hs] at h
      cases h
    | false =>
      have hnew : newCtx (get 2) w fd = some (w, .fresh fd false) := by simp [newCtx, hs]
      rw [get] at h
      simp only [hle, if_true, Bool.false_eq_true, if_false, hnew, Option.bind_eq_bind,
        Option.bind_some, Option.pure_def, Option.some.injEq, Prod.mk.injEq] at h
      obtain ⟨rfl, rfl⟩ := h
      exact .inr ⟨hle, rfl, .grow hle _, rfl⟩

theorem fcntl_f_entry (w : FdManager) (fd fd' : Nat) (cmd : FcntlCmd) (ok : Bool) :
    (w.fcntl_f fd cmd ok).1.entry fd' = w.entry fd' := by
  unfold entry
  rw [fcntl_f_datas]

/-- `F_SETFL` on an fd that has the entry `ctx`. -/
theorem setfl_touches (w : FdManager) (fd : Nat) (ctx : Option FdCtx) (cmd : FcntlCmd) (ok : Bool) :
    Touches w ((w.setEntry fd ctx).fcntl_f fd cmd ok).1 fd :=
  (Touches.setEntry w fd ctx).trans (.fcntl_f _ fd cmd ok)

/-- What the hooked `fcntl` does once `get` has returned `r`. -/
theorem fcntl_after {w₁ w' : FdManager} {r : Option FdCtx} {cmd : FcntlCmd} {ok : Bool}
    {flags : Flags} (hget : get 3 w fd false = some (w₁, r))
    (h : w.fcntl 3 fd cmd ok = some (w', flags)) :
    Touches w₁ w' fd ∧ (fd < w₁.m_datas.length → r = w₁.entry fd →
      (w'.entry fd = none ↔ w₁.entry fd = none)) := by
  unfold fcntl fcntlWith at h
  cases cmd with
  | F_GETFL =>
    have hfile : (w.fcntl_f fd .F_GETFL ok).1 = w := by
      unfold fcntl_f
      split <;> rfl
    simp only [hfile, hget, Option.bind_eq_bind, Option.bind_some] at h
    have hw : w' = w₁ := by
      cases r with
      | none => simp_all
      | some ctx =>
        simp only at h
        repeat' split at h
        all_goals simp_all
    subst hw
    exact ⟨.refl _ fd, fun _ _ => Iff.rfl⟩
  | F_SETFL arg =>
    simp only [hget, Option.bind_eq_bind, Option.bind_some] at h
    cases r with
    | none =>
      have hw : w' = (w₁.fcntl_f fd (.F_SETFL arg) ok).1 := by simp_all
      subst hw
      exact ⟨.fcntl_f .., fun _ _ => by rw [fcntl_f_entry]⟩
    | some ctx =>
      cases hign : ctx.ignored with
      | true =>
        have hw : w' = (w₁.fcntl_f fd (.F_SETFL arg) ok).1 := by simp_all
        subst hw
        exact ⟨.fcntl_f .., fun _ _ => by rw [fcntl_f_entry]⟩
      | false =>
        simp only [hign, Bool.false_eq_true, if_false, Option.pure_def, Option.some.injEq] at h
        have hw := congrArg Prod.fst h
        simp only at hw
        subst hw
        refine ⟨setfl_touches .., fun hlt hr => ?_⟩
        rw [fcntl_f_entry, setEntry_entry_self _ hlt, ← hr]
        simp

/-- What the hooked `fcntl` does to the tables. -/
theorem fcntl_cases {w' : FdManager} {cmd : FcntlCmd} {ok : Bool} {flags : Flags}
    (h : w.fcntl 3 fd cmd ok = some (w', flags)) :
    Touches w w' fd ∧
    ((fd < w.m_datas.length ∧ (w'.entry fd = none ↔ w.entry fd = none)) ∨
      (w.m_datas.length ≤ fd ∧ w.isSock fd = false)) := by
  have hget : ∃ w₁ r, get 3 w fd false = some (w₁, r) := by
    cases hg : get 3 w fd false with
    | some res => exact ⟨res.1, res.2, rfl⟩
    | none =>
      have hfile : (w.fcntl_f fd .F_GETFL ok).1 = w := by
        unfold fcntl_f
        split <;> rfl
      cases cmd <;> simp [fcntl, fcntlWith, hg, hfile] at h
  obtain ⟨w₁, r, hget⟩ := hget
  obtain ⟨ht, hent⟩ := fcntl_after hget h
  rcases get_cases hget with ⟨hlt, rfl, hr⟩ | ⟨hle, hs, ht₁, -⟩
  · exact ⟨ht, .inl ⟨hlt, hent hlt hr⟩⟩
  · exact ⟨ht₁.trans ht, .inr ⟨hle, hs⟩⟩

/-- `get` with `auto_create` inside the table, on an fd without an entry. -/
theorem Touches.created (w : FdManager) (fd : Nat) : Touches w (w.created fd) fd :=
  (Touches.markNonblock w fd).trans (.setEntry _ fd _)

theorem Touches.del (w : FdManager) (fd : Nat) : Touches w (w.del fd) fd := by
  unfold FdManager.del
  split
  · exact .refl w fd
  · exact .setEntry w fd none

theorem del_entry (w : FdManager) (fd : Nat) : (w.del fd).entry fd = none := by
  unfold del
  split
  · next h => exact entry_of_le h
  · next h => exact setEntry_entry_self none (Nat.lt_of_not_le h)

end FdManager
end Ppcode
