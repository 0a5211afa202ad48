import Ppcode.Fiber.FdLock
import Ppcode.Fiber.PollerFires

/-!
# Hooked calls on file descriptors

`src/fiber/hook.cc` over its three tables: the kernel's open files and interest
list, `FdManager`'s `FdCtx`s and `Poller`'s `FdContext`s. `n` fibers make the
calls, on threads with the hook or without it; the calls into `FdManager`, into
`Poller` and into the kernel are steps of their own, so that those of one fiber
come between those of another. A call into `FdManager` waits where `m_mutex` says so:
after the first socket has got its `FdCtx` the lock lacks a reader, and lets a writer in
only while another thread is inside a read-locked section (`enter`, `leave`). What the
calls may rely on:

* the kernel hands out numbers that are not open, and drops a number that is
  closed from the interest list;
* a call on a number that is not open fails with `EBADF`.

`socket_f` and `accept_f` may return at any time; files may be opened in other
ways (`openOther`); the event loop may dispatch any events at any time. `log`
records what the calls did (`Obs`).
-/
namespace Ppcode.Hook

open Poller (Kernel)

/-- The values of `errno` that the calls tell apart. -/
inductive IoErrno where
  | EINTR | EAGAIN | EINPROGRESS | EBADF | ETIMEDOUT | other
  deriving DecidableEq, Repr

/-- The hooked calls that may wait: those of the read family, of the write family,
`accept` and `connect`. -/
inductive IoKind where
  | read | write | accept | connect
  deriving DecidableEq, Repr

namespace IoKind

/-- The event that a call waits for. -/
def event : IoKind → Event
  | read | accept => .READ
  | write | connect => .WRITE

/-- The time-out that a call has. -/
def timeoutType : IoKind → TimeoutType
  | read | accept => .recv
  | write | connect => .send

end IoKind

/-- A call on its way: whether it has a time-out, whether the timer was ever armed, and
`tinfo->canclelled`, which only the timer's callback sets. -/
structure IoCall where
  kind : IoKind
  fd : Nat
  timed : Bool
  armed : Bool
  canclelled : Bool
  deriving DecidableEq, Repr

/-- What is left of a hooked `close`. -/
inductive ClosePhase where
  | cancelAll | del | close_f
  deriving DecidableEq, Repr

/-- The callbacks in the tables: that of a waiting fiber, and those of the users of
`Poller::addEvent`. -/
inductive Cb (n : Nat) where
  | addFiber (t : Fin n)
  | user (k : Nat)
  deriving DecidableEq, Repr

/-- A call of `createFiber`. -/
abbrev Handed (n : Nat) := Nat × Option (Cb n)

/-- Where a fiber is. `mark` is the number of calls of `createFiber` made when the call fell
asleep, or the `close` began, and `saw` the callbacks that were registered then. -/
inductive Pc (n : Nat) where
  | idle
  | direct (c : IoCall)
  | call (c : IoCall)
  | wait (c : IoCall)
  | suspended (c : IoCall) (mark : Nat)
  | getsockopt (c : IoCall)
  | created (fd : Nat)
  | closing (fd : Nat) (phase : ClosePhase) (saw : List (Handed n)) (mark : Nat)
  deriving DecidableEq, Repr

namespace Pc
variable {n : Nat}

/-- A control point that holds no number. -/
def Plain : Pc n → Prop
  | created _ | closing .. => False
  | _ => True

/-- The loop of `do_io`. -/
def inLoop : Pc n → Bool
  | call c | wait c | suspended c _ => c.kind != .connect
  | _ => false

/-- In the loop of `do_io`, at the call of `fun`. -/
def awake : Pc n → Bool
  | call c => c.kind != .connect
  | _ => false

/-- Asleep in `do_io` on `fd`. -/
def sleepsOn (fd : Nat) : Pc n → Bool
  | suspended c _ => c.kind != .connect && c.fd == fd
  | _ => false

/-- In a hooked `close` of `fd`. -/
def closesOn (fd : Nat) : Pc n → Bool
  | closing fd' .. => fd' == fd
  | _ => false

/-- `pc'` is `pc` but for the members of the call. -/
def Same (pc pc' : Pc n) : Prop :=
  pc'.Plain ∧ pc'.inLoop = pc.inLoop ∧ pc'.awake = pc.awake

end Pc

/-- What a call did: `close` with what it left behind in `FdManager` and in the
`FdContext` and the callbacks that it lost; `socket` or `accept` with the `FdCtx`, if it
asks for one; `addEvent` with the operations that it gave to `epoll_ctl`, and whether it is the
first on a number since that was closed; `do_io` with a call of `fun` and with its
result, and whether its number was closed in its sleep. -/
inductive Obs (n : Nat) where
  | closed (fd : Nat) (entry : Option FdCtx) (events : Mask) (lost : List (Handed n))
  | opened (fd : Nat) (made : Bool) (entry : Option FdCtx)
  | added (fd : Nat) (ops : List CtlOp) (first : Bool)
  | called (t : Fin n) (fd : Nat) (late : Bool)
  | returned (t : Fin n) (fd : Nat) (late : Bool) (ret : Int)
  deriving DecidableEq, Repr

/-- `lock` is `FdManager`'s `m_mutex`, one name being enough for the thread that has it in a step;
`reading` counts the threads that are inside a read-locked section of it, in a `get` that only
reads. `touched fd`: an `addEvent` has succeeded since the number was last closed. `under t u`: the
`do_io` that `t` is in has slept during the `close` of its number that `u` is in. `late t`:
such a `close` has returned. -/
structure Sys (n : Nat) where
  fm : FdManager
  lock : RWLock Unit
  reading : Nat
  p : Poller (Cb n)
  interest : Nat → Option Mask
  pc : Fin n → Pc n
  errno : Fin n → IoErrno
  touched : Nat → Bool
  under : Fin n → Fin n → Bool
  late : Fin n → Bool
  log : List (Obs n)

/-- The outcome of a call of the kernel; `errno` counts when `ret` is -1, and `file` when
a connection was accepted. -/
structure Outcome where
  ret : Int
  errno : IoErrno
  file : File

inductive Act (n : Nat) where
  | socket (t : Fin n) (hooked : Bool) (fd : Nat) (file : File)
  | register (t : Fin n)
  | openOther (fd : Nat) (file : File)
  | io (t : Fin n) (hooked : Bool) (kind : IoKind) (fd : Nat) (timed : Bool)
  | call (t : Fin n) (o : Outcome)
  | addEvent (t : Fin n) (fault : Bool)
  | resume (t : Fin n)
  | getsockopt (t : Fin n)
  | timeout (t : Fin n) (fault : Bool)
  | pollerAddEvent (fd : Nat) (event : Event) (k : Nat) (fault : Bool)
  | dispatch (fd : Nat) (events : Mask) (fault : Bool)
  | setsockopt (hooked : Bool) (fd : Nat) (type : TimeoutType) (v : UInt64)
  | fcntl (fd : Nat) (cmd : FcntlCmd) (ok : Bool)
  | close (t : Fin n) (hooked : Bool) (fd : Nat)
  | cancelAll (t : Fin n) (sche : Bool) (fault : Bool)
  | del (t : Fin n)
  | close_f (t : Fin n)
  | enter
  | leave

namespace Sys
variable {n : Nat}

def setPc (s : Sys n) (t : Fin n) (pc : Pc n) : Sys n :=
  { s with pc := Function.update s.pc t pc }

@[simp] theorem setPc_pc (s : Sys n) (t u : Fin n) (pc : Pc n) :
    (s.setPc t pc).pc u = if u = t then pc else s.pc u := Function.update_apply ..

def setErrno (s : Sys n) (t : Fin n) (errno : IoErrno) : Sys n :=
  { s with errno := Function.update s.errno t errno }

def push (s : Sys n) (o : Obs n) : Sys n := { s with log := s.log ++ [o] }

/-- A number is opened. -/
def openFile (s : Sys n) (fd : Nat) (file : File) : Option (Sys n) :=
  if s.fm.files fd = none then some { s with fm := s.fm.setFile fd (some file) } else none

/-- The kernel as `epoll_ctl` on `fd` finds it. -/
def kernel (s : Sys n) (fd : Nat) (fault : Bool) : Kernel :=
  ⟨s.interest, fault || (s.fm.files fd).isNone, none⟩

/-- What a thread requests of `m_mutex`. -/
def locked (s : Sys n) (ops : List RWLock.Op) : Option (Sys n) :=
  (s.lock.exec () ops).map fun l => { s with lock := l }

/-- `FdManager::get(fd, auto_create)`; the depth is enough unless no depth is. -/
def getWith (s : Sys n) (fd : Nat) (auto_create : Bool) : Option (Sys n × Option FdCtx) := do
  let s ← (FdManager.locks 3 s.fm fd auto_create).bind s.locked
  let (fm, fd_ctx) ← FdManager.get 3 s.fm fd auto_create
  return ({ s with fm := fm }, fd_ctx)

def get (s : Sys n) (fd : Nat) : Option (Sys n × Option FdCtx) := s.getWith fd false

/-- The kernel, with the operations that it was given. -/
def traced (k : Kernel × List CtlOp) (fd : Nat) (op : CtlOp) (mask : Mask) :
    CtlResult × Kernel × List CtlOp :=
  let (rt, k') := Kernel.ctl k.1 fd op mask
  (rt, k', k.2 ++ [op])

/-- `Poller::addEvent`, and its result. -/
def pollerAddEvent (s : Sys n) (fd : Nat) (event : Event) (cb : Cb n) (fault : Bool) :
    Option (Sys n × CtlResult) := do
  let (p, k, rt) ← s.p.addEvent traced (s.kernel fd fault, []) fd event cb
  return (({ s with
    p := p
    interest := k.1.entries
    touched := if rt = none then Function.update s.touched fd true else s.touched }).push
      (.added fd k.2 (!s.touched fd)), rt)

/-- The callbacks that are registered on a number. -/
def registered (p : Poller (Cb n)) (fd : Nat) : List (Handed n) :=
  [Event.READ, Event.WRITE].filterMap fun e =>
    (p.waiting (fd, e)).bind fun ctx => ctx.scheduler_.map fun sche => (sche, ctx.cb_)

/-- The calls of `createFiber` since the first `mark`. -/
def since (s : Sys n) (mark : Nat) : List (Handed n) := s.p.created.drop mark

/-- The kernel closes a number. -/
def closeFile (s : Sys n) (fd : Nat) : Sys n :=
  { s with
    fm := s.fm.setFile fd none
    interest := Function.update s.interest fd none
    touched := Function.update s.touched fd false }

/-- The record of a `close` that returns in the state `s`. -/
def pushClosed (s : Sys n) (fd : Nat) (saw : List (Handed n)) (mark : Nat) : Sys n :=
  s.push (.closed fd (s.fm.entry fd) (s.p.eventsOf fd) (saw.filter fun h => h ∉ s.since mark))

/-- The call that a fiber is in has ended. -/
def forget (s : Sys n) (t : Fin n) : Sys n :=
  { s with
    under := Function.update s.under t fun _ => false
    late := Function.update s.late t false }

/-- `do_io` falls asleep. -/
def fallAsleep (s : Sys n) (t : Fin n) (c : IoCall) : Sys n :=
  { s with
    under := Function.update s.under t fun u =>
      s.under t u || (c.kind != .connect && (s.pc u).closesOn c.fd) }

/-- A hooked `close` begins. -/
def beginClose (s : Sys n) (u : Fin n) (fd : Nat) : Sys n :=
  { s with under := fun t v => s.under t v || (v == u && (s.pc t).sleepsOn fd) }

/-- The hooked `close` that a fiber is in returns. -/
def endClose (s : Sys n) (u : Fin n) : Sys n :=
  { s with
    under := fun t v => s.under t v && v != u
    late := fun t => s.late t || s.under t u }

/-- `do_io` or `connect` returns; `accept` goes on with the number that it got.
mirrors src/fiber/hook.cc:237-244 -/
def ioReturn (s : Sys n) (t : Fin n) (c : IoCall) (ret : Int) : Sys n :=
  ((s.push (.returned t c.fd (s.late t) ret)).forget t).setPc t
    (if c.kind = .accept ∧ 0 ≤ ret then .created ret.toNat else .idle)

/-- A call that fails sets `errno`. -/
def withOutcome (s : Sys n) (t : Fin n) (o : Outcome) : Sys n :=
  if o.ret = -1 then s.setErrno t o.errno else s

/-- A call of the kernel by a fiber: a connection may be accepted. -/
def kernelCall (s : Sys n) (t : Fin n) (c : IoCall) (o : Outcome) : Option (Sys n) :=
  if s.fm.files c.fd = none ∧ ¬ (o.ret = -1 ∧ o.errno = .EBADF) then none
  else
    let s := (s.push (.called t c.fd (s.late t))).withOutcome t o
    if c.kind = .accept ∧ 0 ≤ o.ret then
      if o.file.isSock then s.openFile o.ret.toNat o.file else none
    else some s

/-- mirrors src/fiber/hook.cc:209-222 -/
def socket (s : Sys n) (t : Fin n) (hooked : Bool) (fd : Nat) (file : File) : Option (Sys n) :=
  if s.pc t ≠ .idle ∨ !file.isSock then none
  else do
    let s ← s.openFile fd file
    if hooked then return s.setPc t (.created fd)
    return s.push (.opened fd false (s.fm.entry fd))

/-- `FdManager::get(fd, true)`
mirrors src/fiber/hook.cc:218 and 241 -/
def register (s : Sys n) (t : Fin n) : Option (Sys n) :=
  match s.pc t with
  | .created fd => do
    let (s, fd_ctx) ← s.getWith fd true
    return (s.push (.opened fd true fd_ctx)).setPc t .idle
  | _ => none

/-- The beginning of a call that may wait.
mirrors src/fiber/hook.cc:34-55 and 228-341 -/
def io (s : Sys n) (t : Fin n) (hooked : Bool) (kind : IoKind) (fd : Nat) (timed : Bool) :
    Option (Sys n) :=
  let c : IoCall := ⟨kind, fd, false, false, false⟩
  if s.pc t ≠ .idle then none
  else if !hooked then some (s.setPc t (.direct c))
  else do
    let (s, fd_ctx) ← s.get fd
    match fd_ctx with
    | none =>
      if kind = .connect then
        return (s.setErrno t .EBADF).ioReturn t c (-1)
      return s.setPc t (.direct c)
    | some ctx =>
      if ctx.m_isClosed then
        return (s.setErrno t .EBADF).ioReturn t c (-1)
      if !ctx.m_isSocket || ctx.m_userNonblock then return s.setPc t (.direct c)
      let timed := if kind = .connect then timed else ctx.getTimeout kind.timeoutType != -1
      return s.setPc t (.call { c with timed := timed })

/-- A call of `fun` or of `connect_f`, and what follows it: `do_io` calls again, sets up to
wait, or returns.
mirrors src/fiber/hook.cc:60-65, 108-113 and 343-350 -/
def call (s : Sys n) (t : Fin n) (o : Outcome) : Option (Sys n) :=
  match s.pc t with
  | .direct c => (s.kernelCall t c o).map fun s => s.ioReturn t c o.ret
  | .call c => (s.kernelCall t c o).map fun s =>
      let armed := { c with armed := c.armed || c.timed }
      if c.kind = .connect then
        if o.ret = -1 ∧ s.errno t = .EINPROGRESS then s.setPc t (.wait armed)
        else s.ioReturn t c o.ret
      else if o.ret = 1 ∧ s.errno t = .EINTR then s.setPc t (.call c)
      else if o.ret = -1 ∧ s.errno t = .EAGAIN then s.setPc t (.wait armed)
      else s.ioReturn t c o.ret
  | _ => none

/-- mirrors src/fiber/hook.cc:89-98 and 374-393 -/
def addEvent (s : Sys n) (t : Fin n) (fault : Bool) : Option (Sys n) :=
  match s.pc t with
  | .wait c => do
    let (s, rt) ← s.pollerAddEvent c.fd c.kind.event (.addFiber t) fault
    if rt = none then return (s.fallAsleep t c).setPc t (.suspended c s.p.created.length)
    if c.kind = .connect then return s.setPc t (.getsockopt c)
    return s.ioReturn t c (-1)
  | _ => none

/-- The fiber goes on once its callback was handed over.
mirrors src/fiber/hook.cc:99-107 and 378-386 -/
def resume (s : Sys n) (t : Fin n) : Option (Sys n) :=
  match s.pc t with
  | .suspended c mark =>
    if (s.since mark).any fun h => h.2 = some (.addFiber t) then
      if c.kind = .connect then some (s.setPc t (.getsockopt c))
      else if c.canclelled then some ((s.setErrno t .ETIMEDOUT).ioReturn t c (-1))
      else some (s.setPc t (.call c))
    else none
  | _ => none

/-- mirrors src/fiber/hook.cc:394-407 -/
def getsockopt (s : Sys n) (t : Fin n) : Option (Sys n) :=
  match s.pc t with
  | .getsockopt _ => some (s.setPc t .idle)
  | _ => none

/-- The callback of the timer of the call `c`, with the control point that follows.
mirrors src/fiber/hook.cc:77-85 and 361-369 -/
def timerCallback (s : Sys n) (t : Fin n) (fault : Bool) (c : IoCall) (pc : IoCall → Pc n) :
    Option (Sys n) :=
  if c.armed && !c.canclelled then do
    let (p, k, _) ← s.p.cancelEvent Kernel.ctl (s.kernel c.fd fault) c.fd c.kind.event
    return ({ s with p := p, interest := k.entries }).setPc t (pc { c with canclelled := true })
  else none

/-- A timer that was armed expires; `winfo` holds until the call returns. -/
def timeout (s : Sys n) (t : Fin n) (fault : Bool) : Option (Sys n) :=
  match s.pc t with
  | .call c => s.timerCallback t fault c .call
  | .wait c => s.timerCallback t fault c .wait
  | .suspended c mark => s.timerCallback t fault c fun c => .suspended c mark
  | .getsockopt c => s.timerCallback t fault c .getsockopt
  | _ => none

def dispatch (s : Sys n) (fd : Nat) (events : Mask) (fault : Bool) : Option (Sys n) := do
  let (p, k) ← s.p.dispatch Kernel.ctl (s.kernel fd fault) fd events
  return { s with p := p, interest := k.entries }

/-- The two time-outs; any other option is passed on.
mirrors src/fiber/hook.cc:517-536 -/
def setsockopt (s : Sys n) (hooked : Bool) (fd : Nat) (type : TimeoutType) (v : UInt64) :
    Option (Sys n) :=
  if !hooked then some s
  else do
    let (s, fd_ctx) ← s.get fd
    match fd_ctx with
    | none => return s
    | some ctx => return { s with fm := s.fm.setEntry fd (some (ctx.setTimeout type v)) }

/-- What it requests of the lock is what its `get` does.
mirrors src/fiber/hook.cc:415-447 -/
def fcntl (s : Sys n) (fd : Nat) (cmd : FcntlCmd) (ok : Bool) : Option (Sys n) := do
  let s ← (FdManager.locks 3 s.fm fd false).bind s.locked
  let (fm, _) ← FdManager.fcntl 3 s.fm fd cmd ok
  return { s with fm := fm }

/-- The beginning of a `close`, or all of it without the hook.
mirrors src/fiber/hook.cc:247-253 -/
def close (s : Sys n) (t : Fin n) (hooked : Bool) (fd : Nat) : Option (Sys n) :=
  let saw := registered s.p fd
  let mark := s.p.created.length
  if s.pc t ≠ .idle then none
  else if !hooked then some ((s.closeFile fd).pushClosed fd saw mark)
  else do
    let (s, fd_ctx) ← s.get fd
    return (s.beginClose t fd).setPc t
      (.closing fd (if fd_ctx.isSome then .cancelAll else .close_f) saw mark)

/-- mirrors src/fiber/hook.cc:254-257 -/
def cancelAll (s : Sys n) (t : Fin n) (sche : Bool) (fault : Bool) : Option (Sys n) :=
  match s.pc t with
  | .closing fd .cancelAll saw mark =>
    if sche then do
      let (p, k, _) ← s.p.cancelAll Kernel.ctl (s.kernel fd fault) fd
      return ({ s with p := p, interest := k.entries }).setPc t (.closing fd .del saw mark)
    else some (s.setPc t (.closing fd .del saw mark))
  | _ => none

/-- mirrors src/fiber/hook.cc:258 -/
def del (s : Sys n) (t : Fin n) : Option (Sys n) :=
  match s.pc t with
  | .closing fd .del saw mark => do
    let s ← s.locked [.wrlock, .unlock]
    return ({ s with fm := s.fm.del fd }).setPc t (.closing fd .close_f saw mark)
  | _ => none

/-- mirrors src/fiber/hook.cc:261 -/
def close_f (s : Sys n) (t : Fin n) : Option (Sys n) :=
  match s.pc t with
  | .closing fd .close_f saw mark =>
    some ((((s.closeFile fd).pushClosed fd saw mark).endClose t).setPc t .idle)
  | _ => none

/-- A thread comes into a read-locked section of `FdManager`. -/
def enter (s : Sys n) : Option (Sys n) :=
  (s.locked [.rdlock]).map fun s => { s with reading := s.reading + 1 }

def leave (s : Sys n) : Option (Sys n) :=
  if s.reading = 0 then none
  else (s.locked [.unlock]).map fun s => { s with reading := s.reading - 1 }

def step (s : Sys n) : Act n → Option (Sys n)
  | .socket t hooked fd file => s.socket t hooked fd file
  | .register t => s.register t
  | .openOther fd file => s.openFile fd file
  | .io t hooked kind fd timed => s.io t hooked kind fd timed
  | .call t o => s.call t o
  | .addEvent t fault => s.addEvent t fault
  | .resume t => s.resume t
  | .getsockopt t => s.getsockopt t
  | .timeout t fault => s.timeout t fault
  | .pollerAddEvent fd event k fault => (s.pollerAddEvent fd event (.user k) fault).map Prod.fst
  | .dispatch fd events fault => s.dispatch fd events fault
  | .setsockopt hooked fd type v => s.setsockopt hooked fd type v
  | .fcntl fd cmd ok => s.fcntl fd cmd ok
  | .close t hooked fd => s.close t hooked fd
  | .cancelAll t sche fault => s.cancelAll t sche fault
  | .del t => s.del t
  | .close_f t => s.close_f t
  | .enter => s.enter
  | .leave => s.leave

/-- Nothing was called yet; `files` are open, and the poller reads its pipe at `pipe`. -/
def init (files : Nat → Option File) (pipe sche : Nat) : Sys n where
  fm := .new files
  lock := .new
  reading := 0
  p := .new sche
  interest := Function.update (fun _ => none) pipe (some (EPOLLIN ||| EPOLLET))
  pc _ := .idle
  errno _ := .other
  touched _ := false
  under _ _ := false
  late _ := false
  log := []

def lts (n : Nat) (files : Nat → Option File) (pipe sche : Nat) : LTS (Sys n) (Act n) :=
  LTS.ofFn (· = init files pipe sche) step

/-! ## What the calls do -/

variable {s s' : Sys n} {fd : Nat}

theorem locked_eq {ops : List RWLock.Op} (hs : s.locked ops = some s') :
    ∃ l, s' = { s with lock := l } := by
  obtain ⟨l, -, rfl⟩ := Option.map_eq_some_iff.mp hs
  exact ⟨l, rfl⟩

theorem getWith_eq {auto_create : Bool} {r : Option FdCtx}
    (hs : s.getWith fd auto_create = some (s', r)) :
    ∃ fm l, FdManager.get 3 s.fm fd auto_create = some (fm, r) ∧
      s' = { s with fm := fm, lock := l } := by
  obtain ⟨s₁, hlock, hs⟩ := Option.bind_eq_some_iff.mp hs
  obtain ⟨ops, -, hlock⟩ := Option.bind_eq_some_iff.mp hlock
  obtain ⟨l, rfl⟩ := locked_eq hlock
  obtain ⟨⟨fm, r'⟩, hget, hs⟩ := Option.bind_eq_some_iff.mp hs
  cases hs
  exact ⟨fm, l, hget, rfl⟩

theorem get_eq {r : Option FdCtx} (hs : s.get fd = some (s', r)) :
    ∃ fm l, FdManager.get 3 s.fm fd false = some (fm, r) ∧ s' = { s with fm := fm, lock := l } :=
  getWith_eq hs

theorem openFile_eq {file : File} (hs : s.openFile fd file = some s') :
    s.fm.files fd = none ∧ s' = { s with fm := s.fm.setFile fd (some file) } := by
  unfold Sys.openFile at hs
  split at hs
  · next hfree =>
    cases hs
    exact ⟨hfree, rfl⟩
  · cases hs

/-- What `addEvent` does to the tables, `p` and `entries` being those after it. -/
theorem pollerAddEvent_cases {event : Event} {cb : Cb n} {fault : Bool} {rt : CtlResult}
    (h : s.pollerAddEvent fd event cb fault = some (s', rt)) :
    ∃ p entries, s' = ({ s with
        p := p
        interest := entries
        touched := if rt = none then Function.update s.touched fd true else s.touched }).push
          (.added fd [if s.p.eventsOf fd = 0 then .ADD else .MOD] (!s.touched fd)) ∧
      ((rt ≠ none ∧ p = s.p.grow fd ∧ entries = s.interest) ∨
        (rt = none ∧ (s.kernel fd fault).fault = false ∧ (s.p.grow fd).register fd event cb = some p ∧
          ∃ mask, entries = Function.update s.interest fd (some mask))) := by
  unfold Sys.pollerAddEvent at h
  obtain ⟨⟨p, k, rt'⟩, hadd, h⟩ := Option.bind_eq_some_iff.mp h
  cases h
  obtain ⟨c, hc, hctl, hcase⟩ := Poller.addEvent_spec hadd
  have hev : s.p.eventsOf fd = c.events_ := by
    rw [← Poller.grow_eventsOf s.p fd, Poller.eventsOf_eq hc]
  have hop : (if c.events_ = 0 then CtlOp.ADD else .MOD) ≠ .DEL := by split <;> simp
  generalize hk : (s.kernel fd fault).ctl fd (if c.events_ = 0 then .ADD else .MOD)
    (EPOLLET ||| event.mask ||| c.events_) = res
  obtain ⟨rt, k₁⟩ := res
  have htraced : traced (s.kernel fd fault, []) fd (if c.events_ = 0 then .ADD else .MOD)
      (EPOLLET ||| event.mask ||| c.events_) =
      (rt, k₁, [if c.events_ = 0 then .ADD else .MOD]) := by
    unfold traced
    rw [hk]
    rfl
  cases htraced.symm.trans hctl
  rw [hev]
  refine ⟨p, k₁.entries, rfl, ?_⟩
  rcases Poller.ctl_result hk with ⟨hrt, he⟩ | ⟨hrt, he⟩
  · exact .inl ⟨hrt, (hcase.resolve_right fun hg => hrt hg.1).2, he⟩
  · rw [if_neg hop] at he
    refine .inr ⟨hrt, ?_, (hcase.resolve_left fun hg => hg.1 hrt).2, _, he⟩
    apply Bool.eq_false_iff.mpr
    intro hfault
    unfold Poller.Kernel.ctl at hk
    rw [hfault, if_pos rfl] at hk
    cases hk
    cases hrt

theorem timerCallback_cases {t : Fin n} {fault : Bool} {c : IoCall} {pc : IoCall → Pc n}
    (hs : s.timerCallback t fault c pc = some s') :
    ∃ (p : Poller (Cb n)) (k : Kernel) (ok : Bool),
      s.p.cancelEvent Kernel.ctl (s.kernel c.fd fault) c.fd c.kind.event = some (p, k, ok) ∧
      s' = ({ s with p := p, interest := k.entries } : Sys n).setPc t
        (pc { c with canclelled := true }) := by
  unfold timerCallback at hs
  split at hs
  · obtain ⟨⟨p, k, ok⟩, hc, hs⟩ := Option.bind_eq_some_iff.mp hs
    cases hs
    exact ⟨p, k, ok, hc, rfl⟩
  · cases hs

/-- A timer that expires fires the event of the call, which stays where it is. -/
theorem timeout_cases {t : Fin n} {fault : Bool} (hs : s.timeout t fault = some s') :
    ∃ (c : IoCall) (p : Poller (Cb n)) (k : Kernel) (ok : Bool) (pc : Pc n),
      s.p.cancelEvent Kernel.ctl (s.kernel c.fd fault) c.fd c.kind.event = some (p, k, ok) ∧
      (s.pc t).Same pc ∧
      s' = ({ s with p := p, interest := k.entries } : Sys n).setPc t pc := by
  unfold Sys.timeout at hs
  split at hs
  case h_5 => cases hs
  all_goals
    next hpc =>
      obtain ⟨p, k, ok, hc, rfl⟩ := timerCallback_cases hs
      refine ⟨_, p, k, ok, _, hc, ?_, rfl⟩
      rw [hpc]
      exact ⟨trivial, rfl, rfl⟩

theorem socket_cases {t : Fin n} {hooked : Bool} {file : File}
    (hs : s.socket t hooked fd file = some s') :
    s.pc t = .idle ∧ file.isSock = true ∧ ∃ s₁, s.openFile fd file = some s₁ ∧
      ((hooked = true ∧ s' = s₁.setPc t (.created fd)) ∨
        (hooked = false ∧ s' = s₁.push (.opened fd false (s₁.fm.entry fd)))) := by
  unfold Sys.socket at hs
  split at hs
  · cases hs
  · next hc =>
    obtain ⟨hidle, hsock⟩ := not_or.mp hc
    obtain ⟨s₁, hopen, hs⟩ := Option.bind_eq_some_iff.mp hs
    refine ⟨not_not.mp hidle, by simpa using hsock, s₁, hopen, ?_⟩
    cases hooked with
    | true =>
      cases hs
      exact .inl ⟨rfl, rfl⟩
    | false =>
      cases hs
      exact .inr ⟨rfl, rfl⟩

theorem register_cases {t : Fin n} (hs : s.register t = some s') :
    ∃ fd fm l r, s.pc t = .created fd ∧ FdManager.get 3 s.fm fd true = some (fm, r) ∧
      s' = (({ s with fm := fm, lock := l } : Sys n).push (.opened fd true r)).setPc t .idle := by
  unfold Sys.register at hs
  split at hs
  · next fd hpc =>
    obtain ⟨⟨s₁, r⟩, hread, hs⟩ := Option.bind_eq_some_iff.mp hs
    obtain ⟨fm, l, hget, rfl⟩ := getWith_eq hread
    cases hs
    exact ⟨fd, fm, l, r, hpc, hget, rfl⟩
  · cases hs

/-- A call that may wait fails at once, calls the kernel once, or enters its loop. -/
theorem io_cases {t : Fin n} {hooked timed : Bool} {kind : IoKind}
    (hs : s.io t hooked kind fd timed = some s') :
    s.pc t = .idle ∧ ∃ c : IoCall, c.kind = kind ∧ c.fd = fd ∧
      ((hooked = false ∧ s' = s.setPc t (.direct c)) ∨
        (hooked = true ∧ ∃ s₁ r, s.get fd = some (s₁, r) ∧
          (s' = (s₁.setErrno t .EBADF).ioReturn t c (-1) ∨ s' = s₁.setPc t (.direct c) ∨
            s' = s₁.setPc t (.call c)))) := by
  unfold Sys.io at hs
  split at hs
  · cases hs
  · next hidle =>
    refine ⟨not_not.mp hidle, ?_⟩
    cases hooked with
    | false =>
      cases hs
      exact ⟨_, rfl, rfl, .inl ⟨rfl, rfl⟩⟩
    | true =>
      obtain ⟨⟨s₁, r⟩, hget, hs⟩ := Option.bind_eq_some_iff.mp hs
      cases r with
      | none =>
        simp only at hs
        split at hs
        · cases hs
          exact ⟨_, rfl, rfl, .inr ⟨rfl, s₁, _, hget, .inl rfl⟩⟩
        · cases hs
          exact ⟨_, rfl, rfl, .inr ⟨rfl, s₁, _, hget, .inr (.inl rfl)⟩⟩
      | some ctx =>
        simp only at hs
        split at hs
        · cases hs
          exact ⟨_, rfl, rfl, .inr ⟨rfl, s₁, _, hget, .inl rfl⟩⟩
        · split at hs
          · cases hs
            exact ⟨_, rfl, rfl, .inr ⟨rfl, s₁, _, hget, .inr (.inl rfl)⟩⟩
          · cases hs
            exact ⟨_, rfl, rfl, .inr ⟨rfl, s₁, _, hget, .inr (.inr rfl)⟩⟩

/-- What a call of the kernel leaves besides its outcome: perhaps a file for a connection. -/
theorem kernelCall_cases {t : Fin n} {c : IoCall} {o : Outcome}
    (hs : s.kernelCall t c o = some s') :
    let s₁ := (s.push (.called t c.fd (s.late t))).withOutcome t o
    ((c.kind = .accept ∧ 0 ≤ o.ret) ∧ o.file.isSock = true ∧
        s₁.openFile o.ret.toNat o.file = some s') ∨
      (¬ (c.kind = .accept ∧ 0 ≤ o.ret) ∧ s' = s₁) := by
  unfold Sys.kernelCall at hs
  split at hs
  · cases hs
  · simp only at hs
    split at hs
    · next hacc =>
      split at hs
      · next hsock => exact .inl ⟨hacc, hsock, hs⟩
      · cases hs
    · next hacc =>
      cases hs
      exact .inr ⟨hacc, rfl⟩

/-- A fiber calls the kernel, and returns or stays in its loop. -/
theorem call_cases {t : Fin n} {o : Outcome} (hs : s.call t o = some s') :
    ∃ c s₁, s.kernelCall t c o = some s₁ ∧
      ((s.pc t = .direct c ∧ s' = s₁.ioReturn t c o.ret) ∨
        (s.pc t = .call c ∧ (s' = s₁.ioReturn t c o.ret ∨
          ∃ pc : Pc n, pc.Plain ∧ pc.inLoop = (s.pc t).inLoop ∧ s' = s₁.setPc t pc))) := by
  unfold Sys.call at hs
  split at hs
  · next c hpc =>
    obtain ⟨s₁, hk, rfl⟩ := Option.map_eq_some_iff.mp hs
    exact ⟨c, s₁, hk, .inl ⟨hpc, rfl⟩⟩
  · next c hpc =>
    obtain ⟨s₁, hk, rfl⟩ := Option.map_eq_some_iff.mp hs
    refine ⟨c, s₁, hk, .inr ⟨hpc, ?_⟩⟩
    have hgo {pc : Pc n} (hplain : pc.Plain) (hloop : pc.inLoop = (Pc.call c : Pc n).inLoop) :
        ∃ pc' : Pc n, pc'.Plain ∧ pc'.inLoop = (s.pc t).inLoop ∧
          s₁.setPc t pc = s₁.setPc t pc' :=
      ⟨pc, hplain, by rw [hpc, hloop], rfl⟩
    simp only
    repeat' split
    · exact .inr (hgo trivial rfl)
    · exact .inl rfl
    · exact .inr (hgo trivial rfl)
    · exact .inr (hgo trivial rfl)
    · exact .inl rfl
  · cases hs

theorem addEvent_cases {t : Fin n} {fault : Bool} (hs : s.addEvent t fault = some s') :
    ∃ c s₁ rt, s.pc t = .wait c ∧
      s.pollerAddEvent c.fd c.kind.event (.addFiber t) fault = some (s₁, rt) ∧
      (s' = (s₁.fallAsleep t c).setPc t (.suspended c s₁.p.created.length) ∨
        (c.kind = .connect ∧ s' = s₁.setPc t (.getsockopt c)) ∨ s' = s₁.ioReturn t c (-1)) := by
  unfold Sys.addEvent at hs
  split at hs
  · next c hpc =>
    obtain ⟨⟨s₁, rt⟩, hadd, hs⟩ := Option.bind_eq_some_iff.mp hs
    refine ⟨c, s₁, rt, hpc, hadd, ?_⟩
    simp only at hs
    split at hs
    · cases hs
      exact .inl rfl
    · split at hs
      · next hkind =>
        cases hs
        exact .inr (.inl ⟨hkind, rfl⟩)
      · cases hs
        exact .inr (.inr rfl)
  · cases hs

/-- A fiber wakes: `connect` asks for its error, `do_io` returns or goes on. -/
theorem resume_cases {t : Fin n} (hs : s.resume t = some s') :
    ∃ c mark, s.pc t = .suspended c mark ∧
      ((c.kind = .connect ∧ s' = s.setPc t (.getsockopt c)) ∨
        (c.kind ≠ .connect ∧ c.canclelled = true ∧
          s' = (s.setErrno t .ETIMEDOUT).ioReturn t c (-1)) ∨
        (c.kind ≠ .connect ∧ c.canclelled = false ∧ s' = s.setPc t (.call c))) := by
  unfold Sys.resume at hs
  split at hs
  · next c mark hpc =>
    refine ⟨c, mark, hpc, ?_⟩
    split at hs
    · split at hs
      · next hkind =>
        cases hs
        exact .inl ⟨hkind, rfl⟩
      · next hkind =>
        split at hs
        · next hcan =>
          cases hs
          exact .inr (.inl ⟨hkind, hcan, rfl⟩)
        · next hcan =>
          cases hs
          exact .inr (.inr ⟨hkind, by simpa using hcan, rfl⟩)
    · cases hs
  · cases hs

theorem getsockopt_cases {t : Fin n} (hs : s.getsockopt t = some s') :
    ∃ c, s.pc t = .getsockopt c ∧ s' = s.setPc t .idle := by
  unfold Sys.getsockopt at hs
  split at hs
  · next c hpc =>
    cases hs
    exact ⟨c, hpc, rfl⟩
  · cases hs

theorem setsockopt_cases {hooked : Bool} {type : TimeoutType} {v : UInt64}
    (hs : s.setsockopt hooked fd type v = some s') :
    (hooked = false ∧ s' = s) ∨
    (hooked = true ∧ ∃ fm l r, FdManager.get 3 s.fm fd false = some (fm, r) ∧
      ((r = none ∧ s' = { s with fm := fm, lock := l }) ∨
        ∃ ctx, r = some ctx ∧
          s' = { s with fm := fm.setEntry fd (some (ctx.setTimeout type v)), lock := l })) := by
  unfold Sys.setsockopt at hs
  cases hooked with
  | false =>
    cases hs
    exact .inl ⟨rfl, rfl⟩
  | true =>
    obtain ⟨⟨s₁, r⟩, hread, hs⟩ := Option.bind_eq_some_iff.mp hs
    obtain ⟨fm, l, hget, rfl⟩ := get_eq hread
    refine .inr ⟨rfl, fm, l, r, hget, ?_⟩
    cases r with
    | none =>
      cases hs
      exact .inl ⟨rfl, rfl⟩
    | some ctx =>
      cases hs
      exact .inr ⟨ctx, rfl, rfl⟩

theorem close_cases {t : Fin n} {hooked : Bool} (hs : s.close t hooked fd = some s') :
    s.pc t = .idle ∧
    ((hooked = false ∧
        s' = (s.closeFile fd).pushClosed fd (registered s.p fd) s.p.created.length) ∨
      (hooked = true ∧ ∃ fm l r, FdManager.get 3 s.fm fd false = some (fm, r) ∧
        s' = (({ s with fm := fm, lock := l } : Sys n).beginClose t fd).setPc t (.closing fd
          (if r.isSome then .cancelAll else .close_f) (registered s.p fd) s.p.created.length))) := by
  unfold Sys.close at hs
  split at hs
  · cases hs
  · next hidle =>
    refine ⟨not_not.mp hidle, ?_⟩
    cases hooked with
    | false =>
      cases hs
      exact .inl ⟨rfl, rfl⟩
    | true =>
      obtain ⟨⟨s₁, r⟩, hread, hs⟩ := Option.bind_eq_some_iff.mp hs
      obtain ⟨fm, l, hget, rfl⟩ := get_eq hread
      cases hs
      exact .inr ⟨rfl, fm, l, r, hget, rfl⟩

theorem cancelAll_cases {t : Fin n} {sche fault : Bool} (hs : s.cancelAll t sche fault = some s') :
    ∃ fd saw mark, s.pc t = .closing fd .cancelAll saw mark ∧
      ((sche = false ∧ s' = s.setPc t (.closing fd .del saw mark)) ∨
        (sche = true ∧ ∃ (p : Poller (Cb n)) (k : Kernel) (ok : Bool),
          s.p.cancelAll Kernel.ctl (s.kernel fd fault) fd = some (p, k, ok) ∧
          s' = ({ s with p := p, interest := k.entries } : Sys n).setPc t
            (.closing fd .del saw mark))) := by
  unfold Sys.cancelAll at hs
  split at hs
  · next fd saw mark hpc =>
    refine ⟨fd, saw, mark, hpc, ?_⟩
    cases sche with
    | false =>
      cases hs
      exact .inl ⟨rfl, rfl⟩
    | true =>
      obtain ⟨⟨p, k, ok⟩, hc, hs⟩ := Option.bind_eq_some_iff.mp hs
      cases hs
      exact .inr ⟨rfl, p, k, ok, hc, rfl⟩
  · cases hs

theorem del_cases {t : Fin n} (hs : s.del t = some s') :
    ∃ fd saw mark l, s.pc t = .closing fd .del saw mark ∧
      s' = ({ s with fm := s.fm.del fd, lock := l } : Sys n).setPc t
        (.closing fd .close_f saw mark) := by
  unfold Sys.del at hs
  split at hs
  · next fd saw mark hpc =>
    obtain ⟨s₁, hlock, hs⟩ := Option.bind_eq_some_iff.mp hs
    obtain ⟨l, rfl⟩ := locked_eq hlock
    cases hs
    exact ⟨fd, saw, mark, l, hpc, rfl⟩
  · cases hs

theorem fcntl_cases {cmd : FcntlCmd} {ok : Bool} (hs : s.fcntl fd cmd ok = some s') :
    ∃ fm l flags, FdManager.fcntl 3 s.fm fd cmd ok = some (fm, flags) ∧
      s' = { s with fm := fm, lock := l } := by
  obtain ⟨s₁, hlock, hs⟩ := Option.bind_eq_some_iff.mp hs
  obtain ⟨ops, -, hlock⟩ := Option.bind_eq_some_iff.mp hlock
  obtain ⟨l, rfl⟩ := locked_eq hlock
  obtain ⟨⟨fm, flags⟩, hf, hs⟩ := Option.bind_eq_some_iff.mp hs
  cases hs
  exact ⟨fm, l, flags, hf, rfl⟩

theorem enter_cases (hs : s.enter = some s') :
    ∃ l k, s' = { s with lock := l, reading := k } := by
  obtain ⟨s₁, hlock, rfl⟩ := Option.map_eq_some_iff.mp hs
  obtain ⟨l, rfl⟩ := locked_eq hlock
  exact ⟨l, _, rfl⟩

theorem leave_cases (hs : s.leave = some s') :
    ∃ l k, s' = { s with lock := l, reading := k } := by
  simp only [Sys.leave, Option.ite_none_left_eq_some] at hs
  obtain ⟨s₁, hlock, rfl⟩ := Option.map_eq_some_iff.mp hs.2
  obtain ⟨l, rfl⟩ := locked_eq hlock
  exact ⟨l, _, rfl⟩

theorem close_f_cases {t : Fin n} (hs : s.close_f t = some s') :
    ∃ fd saw mark, s.pc t = .closing fd .close_f saw mark ∧
      s' = (((s.closeFile fd).pushClosed fd saw mark).endClose t).setPc t .idle := by
  unfold Sys.close_f at hs
  split at hs
  · next fd saw mark hpc =>
    cases hs
    exact ⟨fd, saw, mark, hpc, rfl⟩
  · cases hs

end Sys
end Ppcode.Hook
