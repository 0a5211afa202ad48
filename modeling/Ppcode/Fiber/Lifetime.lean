import Ppcode.Fiber.Processer

/-!
# The life of a scheduler, from `start` to the end of its destructor

`src/fiber/scheduler.cc`. The owner's thread calls `start`, which makes `m`
processers and the poller, each with a thread of its own, and later the
destructor, which stores `stop` in the scheduler's state and calls `stop`: that
stores `stop` in every processer and wakes it, joins the threads of the
processers, stores `stop` in the poller unless it is there, wakes it and joins
its thread. Meanwhile up to `k` calls of `Processer::addFiber` are under way, on any
processer and from any thread; those of the poller's thread in a round and of a fiber
are steps of their own here, and `Shutdown` says which calls keep these threads.

A thread of a processer (`Processer.next`) and the poller's (`pollerStep`) write
their own `m_state`: `running` when they start and, for a processer, `idle` and
`running` in `idle`. A thread exists from the moment it is made, so it may be
anywhere before its first store when the destructor runs.

Nothing initialises the poller's `m_state` before its thread does; `init` leaves
it open.
-/
namespace Ppcode

/-- Control point of the poller's thread. -/
inductive PollerPc where
  /-- not made yet -/
  | none
  /-- poller.cc:218, `m_state = running` -/
  | start
  /-- :224, the test for the end -/
  | top
  /-- :234, `epoll_wait` -/
  | wait
  /-- :240, the second test -/
  | test
  /-- :248, timers and events -/
  | work
  | exited
  deriving DecidableEq, Repr

/-- In the `while` of poller.cc:220. -/
def PollerPc.inLoop : PollerPc → Bool
  | .top | .wait | .test | .work => true
  | _ => false

/-- Control point of the owner's thread. -/
inductive OwnerPc where
  /-- scheduler.cc:37, about to make the processer `i` -/
  | spawn (i : Nat)
  /-- :45 -/
  | spawnPoller
  /-- :48, `m_state = running` -/
  | publish
  | started
  /-- :120 and 124, the processer `i` -/
  | set (i : Nat)
  /-- :125 -/
  | notify (i : Nat)
  /-- :130, joining the processer `i` -/
  | join (i : Nat)
  /-- :136 -/
  | testPoller
  /-- :137 -/
  | setPoller
  /-- :139 -/
  | notifyPoller
  /-- :142 -/
  | joinPoller
  /-- :152 -/
  | finish
  | done
  deriving DecidableEq, Repr

/-- The poller has no thread yet. -/
def OwnerPc.spawning : OwnerPc → Bool
  | .spawn _ | .spawnPoller => true
  | _ => false

/-- `made` processers have a thread. -/
structure Lifetime (m k : Nat) where
  m_state : TaskState
  m_processers : Fin m → Processer Nat
  made : Nat
  pollerState : TaskState
  poller : PollerPc
  owner : OwnerPc
  callers : Fin k → Option (Fin m × Processer.AddPc Nat)

namespace Lifetime
open Processer (ProcPc AddPc)
variable {m k : Nat}

/-- mirrors src/fiber/scheduler.h:37 -/
def isStopping (s : Lifetime m k) : Bool := decide (s.m_state = .stop)

/-- mirrors src/fiber/poller.cc:212 -/
def stopping (s : Lifetime m k) : Bool := decide (s.pollerState = .stop)

def setProc (s : Lifetime m k) (i : Fin m) (p : Processer Nat) : Lifetime m k :=
  { s with m_processers := Function.update s.m_processers i p }

inductive Act (m k : Nat) where
  /-- the owner's thread goes on; from `started` it calls the destructor -/
  | owner
  /-- a processer's thread goes on; `state` is the state of the fiber in hand -/
  | proc (i : Fin m) (state : TaskState)
  /-- the poller's thread goes on; whether `epoll_wait` returns with `EINTR` -/
  | poller (eintr : Bool)
  /-- a thread calls `addFiber` of a processer -/
  | addFiber (c : Fin k) (i : Fin m) (fb : Nat)
  /-- a thread goes on with its call -/
  | call (c : Fin k)

/-- mirrors src/fiber/scheduler.cc:32-49 and 105-153 -/
def ownerStep (s : Lifetime m k) : Option (Lifetime m k) :=
  match s.owner with
  | .spawn i =>
    if h : i < m then some { s.setProc ⟨i, h⟩ .new with made := i + 1, owner := .spawn (i + 1) }
    else some { s with owner := .spawnPoller }
  | .spawnPoller => some { s with poller := .start, owner := .publish }
  | .publish => some { s with m_state := .running, owner := .started }
  | .started =>
    if s.m_state = .done then none else some { s with m_state := .stop, owner := .set 0 }
  | .set i =>
    if h : i < m then
      some { s.setProc ⟨i, h⟩ { s.m_processers ⟨i, h⟩ with m_state := .stop } with
        owner := .notify i }
    else some { s with owner := .join 0 }
  | .notify i =>
    if h : i < m then
      (s.m_processers ⟨i, h⟩).notify.map fun p =>
        { s.setProc ⟨i, h⟩ p with owner := .set (i + 1) }
    else none
  | .join i =>
    if h : i < m then
      if (s.m_processers ⟨i, h⟩).pc = .exited then some { s with owner := .join (i + 1) } else none
    else some { s with owner := .testPoller }
  | .testPoller => some { s with owner := if s.stopping then .notifyPoller else .setPoller }
  | .setPoller => some { s with pollerState := .stop, owner := .notifyPoller }
  | .notifyPoller => some { s with owner := .joinPoller }
  | .joinPoller => if s.poller = .exited then some { s with owner := .finish } else none
  | .finish => some { s with m_state := .done, owner := .done }
  | .done => none

/-- mirrors src/fiber/poller.cc:214-316 -/
def pollerStep (s : Lifetime m k) (eintr : Bool) : Option (Lifetime m k) :=
  match s.poller with
  | .none => none
  | .start => some { s with pollerState := .running, poller := .top }
  | .top => some { s with poller := if s.stopping && s.isStopping then .exited else .wait }
  | .wait => some { s with poller := if eintr then .top else .test }
  | .test => some { s with poller := if s.stopping && s.isStopping then .exited else .work }
  | .work => some { s with poller := .top }
  | .exited => none

def step (s : Lifetime m k) : Act m k → Option (Lifetime m k)
  | .owner => s.ownerStep
  | .proc i state =>
    if i < s.made then ((s.m_processers i).next s.isStopping state).map fun p => s.setProc i p
    else none
  | .poller eintr => s.pollerStep eintr
  | .addFiber c i fb =>
    if s.callers c = none ∧ i < s.made then
      some { s with callers := Function.update s.callers c (some (i, .enter fb)) }
    else none
  | .call c =>
    match s.callers c with
    | none => none
    | some (i, pc) => ((s.m_processers i).addStep pc).map fun r =>
      { s.setProc i r.1 with
        callers := Function.update s.callers c (if r.2 = .idle then none else some (i, r.2)) }

/-- Constructed. -/
def init (s : Lifetime m k) : Prop :=
  s.m_state = .init ∧ s.made = 0 ∧ s.poller = .none ∧ s.owner = .spawn 0 ∧ ∀ c, s.callers c = none

def lts (m k : Nat) : LTS (Lifetime m k) (Act m k) := LTS.ofFn init step

end Lifetime
end Ppcode
