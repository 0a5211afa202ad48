import Ppcode.Fiber.Processer

/-!
# `Scheduler`: the processers of one scheduler and their fibers

`src/fiber/scheduler.cc`, after `start`. `m` processers run their `execute`
(`Processer.next`); `k` threads call `createFiber` and `addFiber`, which choose a
processer and call its `addFiber` (`Processer.addStep`); the destructor stores
`stop` and stops the processers. Here the fibers have their state, so what a
processer reads from a fiber is what is there, and a fiber swaps out where it
says so: `yield` and the end of `run` first write its state and then jump.

A fiber that is going to yield registers its wait first, with a timer or the
poller; from then on one `addFiber` may be called for it, also before it has
yielded. It does not end between the registration and the yield.
-/
namespace Ppcode

/-- Control point of a fiber's own context. -/
inductive FiberPc where
  /-- not made yet -/
  | unborn
  /-- its context is saved -/
  | out
  | run
  /-- `yield`: past processer.cc:42, `SwapOut` not done -/
  | yielding
  /-- `run`: past fiber.cc:70, `SwapOut` not done -/
  | ending
  | ended
  deriving DecidableEq, Repr

/-- The wait that a fiber has registered since it was swapped in last. -/
inductive Wait where
  | none
  | registered
  /-- its `addFiber` is called; so is that of a new fiber -/
  | answered
  deriving DecidableEq, Repr

/-- mirrors src/fiber/fiber.h:102-111 -/
structure Fiber (m : Nat) where
  m_state : TaskState
  m_proc : Option (Fin m)
  pc : FiberPc
  wait : Wait
  deriving DecidableEq

namespace Scheduler
open Processer (ProcPc AddPc)

/-- Control point of a thread in `createFiber` or `addFiber`. -/
inductive CallPc (m : Nat) where
  | idle
  /-- :63, read the fiber's processer -/
  | read (fb : Nat)
  /-- :65, `isRunning` -/
  | test (fb : Nat) (proc : Fin m)
  /-- :72, `isWaitting` of the processer at `j` -/
  | scan (fb : Nat) (j : Nat)
  /-- :83 or :96, read `id`; `i` processers are skipped -/
  | pick (fb : Nat) (i : Nat)
  /-- :86, `isBlock` -/
  | robin (fb : Nat) (i : Nat) (proc : Fin m)
  /-- :91 -/
  | skip (fb : Nat) (i : Nat)
  /-- in `addFiber` of a processer; whether `id` is moved afterwards -/
  | add (proc : Fin m) (moves : Bool) (pc : AddPc Nat)
  /-- :88 or :98 -/
  | move
  deriving DecidableEq

/-- Control point of the destructor. -/
inductive StopPc where
  /-- :106 -/
  | idle
  /-- :124, of the processer at `i` -/
  | set (i : Nat)
  /-- :125 -/
  | notify (i : Nat)
  /-- :130, joining the threads -/
  | join
  deriving DecidableEq, Repr

end Scheduler

/-- `id` is the `static` of `addFiber`.
mirrors src/fiber/scheduler.h:60-79 -/
structure Scheduler (m k : Nat) where
  m_state : TaskState
  m_processers : Fin m → Processer Nat
  id : Nat
  fibers : Nat → Fiber m
  callers : Fin k → Scheduler.CallPc m
  stop : Scheduler.StopPc

namespace Scheduler
open Processer (ProcPc AddPc)
variable {m k : Nat}

/-- mirrors src/fiber/scheduler.h:37 -/
def isStopping (s : Scheduler m k) : Bool := decide (s.m_state = .stop)

inductive Act (m k : Nat) where
  /-- a thread makes a fiber and adds it -/
  | createFiber (c : Fin k) (fb : Nat)
  /-- a thread answers the wait of a fiber -/
  | addFiber (c : Fin k) (fb : Nat)
  /-- a thread goes on with its call -/
  | call (c : Fin k)
  /-- a processer's thread goes on -/
  | proc (i : Fin m)
  /-- the fiber that a processer runs registers its wait -/
  | register (i : Fin m)
  /-- and takes it back, unanswered -/
  | withdraw (i : Fin m)
  | yield (i : Fin m)
  /-- its function returns -/
  | finish (i : Fin m)
  /-- the destructor goes on -/
  | stop

def setFiber (s : Scheduler m k) (fb : Nat) (f : Fiber m) : Nat → Fiber m :=
  Function.update s.fibers fb f

def setCaller (s : Scheduler m k) (c : Fin k) (pc : CallPc m) : Fin k → CallPc m :=
  Function.update s.callers c pc

def setProc (s : Scheduler m k) (i : Fin m) (p : Processer Nat) : Fin m → Processer Nat :=
  Function.update s.m_processers i p

/-- mirrors src/fiber/scheduler.cc:60-99 -/
def callStep (s : Scheduler m k) (c : Fin k) : Option (Scheduler m k) :=
  match s.callers c with
  | .idle => none
  | .read fb =>
    match (s.fibers fb).m_proc with
    | some proc => some { s with callers := s.setCaller c (.test fb proc) }
    | none => some { s with callers := s.setCaller c (.scan fb 0) }
  | .test fb proc =>
    if (s.m_processers proc).isRunning then
      some { s with callers := s.setCaller c (.add proc false (.enter fb)) }
    else some { s with callers := s.setCaller c (.scan fb 0) }
  | .scan fb j =>
    if h : j < m then
      if (s.m_processers ⟨j, h⟩).isWaitting then
        some { s with callers := s.setCaller c (.add ⟨j, h⟩ false (.enter fb)) }
      else some { s with callers := s.setCaller c (.scan fb (j + 1)) }
    else some { s with callers := s.setCaller c (.pick fb 0) }
  | .pick fb i =>
    if h : s.id < m then
      if i < m then some { s with callers := s.setCaller c (.robin fb i ⟨s.id, h⟩) }
      else some { s with callers := s.setCaller c (.add ⟨s.id, h⟩ true (.enter fb)) }
    else none
  | .robin fb i proc =>
    if (s.m_processers proc).isBlock then some { s with callers := s.setCaller c (.skip fb i) }
    else some { s with callers := s.setCaller c (.add proc true (.enter fb)) }
  | .skip fb i =>
    some { s with id := (s.id + 1) % m, callers := s.setCaller c (.pick fb (i + 1)) }
  | .add proc moves pc =>
    ((s.m_processers proc).addStep pc).map fun r =>
      { s with
        m_processers := s.setProc proc r.1
        callers := s.setCaller c
          (if r.2 = .idle then if moves then .move else .idle else .add proc moves r.2) }
  | .move => some { s with id := (s.id + 1) % m, callers := s.setCaller c .idle }

/-- What a step of the processer at `i` writes to the fiber in its hand; a fiber
that is not at a `SwapOut` does not return.
mirrors src/fiber/processer.cc:141-145 -/
def fiberWrite (s : Scheduler m k) (i : Fin m) : ProcPc Nat → Option (Nat → Fiber m)
  | .resume fb => some (s.setFiber fb { s.fibers fb with m_state := .running })
  | .bind fb => some (s.setFiber fb { s.fibers fb with m_proc := some i })
  | .swapIn fb => some (s.setFiber fb { s.fibers fb with pc := .run, wait := .none })
  | .inFiber fb =>
    match (s.fibers fb).pc with
    | .yielding => some (s.setFiber fb { s.fibers fb with pc := .out })
    | .ending => some (s.setFiber fb { s.fibers fb with pc := .ended })
    | _ => none
  | _ => some s.fibers

/-- The state of the fiber in hand. -/
def fiberState (s : Scheduler m k) : ProcPc Nat → TaskState
  | .switch fb => (s.fibers fb).m_state
  | _ => .init

def procStep (s : Scheduler m k) (i : Fin m) : Option (Scheduler m k) := do
  let pc := (s.m_processers i).pc
  let p ← (s.m_processers i).next s.isStopping (s.fiberState pc)
  let fibers ← s.fiberWrite i pc
  return { s with m_processers := s.setProc i p, fibers := fibers }

/-- A step of the fiber that the processer at `i` runs.
mirrors src/fiber/processer.cc:39-44 and src/fiber/fiber.cc:59-73 -/
def fiberStep (s : Scheduler m k) (i : Fin m) (f : Fiber m → Option (Fiber m)) :
    Option (Scheduler m k) :=
  match (s.m_processers i).pc with
  | .inFiber fb =>
    if (s.fibers fb).pc = .run then
      (f (s.fibers fb)).map fun f => { s with fibers := s.setFiber fb f }
    else none
  | _ => none

/-- mirrors src/fiber/scheduler.cc:105-136 -/
def stopStep (s : Scheduler m k) : Option (Scheduler m k) :=
  match s.stop with
  | .idle => if s.m_state = .done then none else some { s with m_state := .stop, stop := .set 0 }
  | .set i =>
    if h : i < m then
      some { s with
        m_processers := s.setProc ⟨i, h⟩ { s.m_processers ⟨i, h⟩ with m_state := .stop }
        stop := .notify i }
    else some { s with stop := .join }
  | .notify i =>
    if h : i < m then
      (s.m_processers ⟨i, h⟩).notify.map fun p =>
        { s with m_processers := s.setProc ⟨i, h⟩ p, stop := .set (i + 1) }
    else none
  | .join => none

def step (s : Scheduler m k) : Act m k → Option (Scheduler m k)
  | .createFiber c fb =>
    if s.callers c = .idle ∧ (s.fibers fb).pc = .unborn then
      some { s with
        fibers := s.setFiber fb ⟨.running, none, .out, .answered⟩
        callers := s.setCaller c (.read fb) }
    else none
  | .addFiber c fb =>
    if s.callers c = .idle ∧ (s.fibers fb).wait = .registered then
      some { s with
        fibers := s.setFiber fb { s.fibers fb with wait := .answered }
        callers := s.setCaller c (.read fb) }
    else none
  | .call c => s.callStep c
  | .proc i => s.procStep i
  | .register i => s.fiberStep i fun f =>
    if f.wait = .none then some { f with wait := .registered } else none
  | .withdraw i => s.fiberStep i fun f =>
    if f.wait = .registered then some { f with wait := .none } else none
  | .yield i => s.fiberStep i fun f => some { f with m_state := .block, pc := .yielding }
  | .finish i => s.fiberStep i fun f =>
    if f.wait = .none then some { f with m_state := .done, pc := .ending } else none
  | .stop => s.stopStep

/-- `start` is done. -/
def started : Scheduler m k :=
  ⟨.running, fun _ => .new, 0, fun _ => ⟨.init, none, .unborn, .none⟩, fun _ => .idle, .idle⟩

def lts (m k : Nat) : LTS (Scheduler m k) (Act m k) := LTS.ofFn (fun s => s = started) step

/-! ## What the steps write -/

/-- `callStep`, one constructor for each of its branches. -/
inductive CallStep (s : Scheduler m k) (c : Fin k) : Scheduler m k → Prop
  | known (fb : Nat) (proc : Fin m) (hc : s.callers c = .read fb)
    (hproc : (s.fibers fb).m_proc = some proc) :
    CallStep s c { s with callers := s.setCaller c (.test fb proc) }
  | fresh (fb : Nat) (hc : s.callers c = .read fb) (hproc : (s.fibers fb).m_proc = none) :
    CallStep s c { s with callers := s.setCaller c (.scan fb 0) }
  | running (fb : Nat) (proc : Fin m) (hc : s.callers c = .test fb proc)
    (hrun : (s.m_processers proc).isRunning = true) :
    CallStep s c { s with callers := s.setCaller c (.add proc false (.enter fb)) }
  | notRunning (fb : Nat) (proc : Fin m) (hc : s.callers c = .test fb proc)
    (hrun : (s.m_processers proc).isRunning = false) :
    CallStep s c { s with callers := s.setCaller c (.scan fb 0) }
  | waits (fb j : Nat) (hj : j < m) (hc : s.callers c = .scan fb j)
    (hwait : (s.m_processers ⟨j, hj⟩).isWaitting = true) :
    CallStep s c { s with callers := s.setCaller c (.add ⟨j, hj⟩ false (.enter fb)) }
  | next (fb j : Nat) (hj : j < m) (hc : s.callers c = .scan fb j)
    (hwait : (s.m_processers ⟨j, hj⟩).isWaitting = false) :
    CallStep s c { s with callers := s.setCaller c (.scan fb (j + 1)) }
  | scanned (fb j : Nat) (hj : ¬ j < m) (hc : s.callers c = .scan fb j) :
    CallStep s c { s with callers := s.setCaller c (.pick fb 0) }
  | pick (fb i : Nat) (hid : s.id < m) (hi : i < m) (hc : s.callers c = .pick fb i) :
    CallStep s c { s with callers := s.setCaller c (.robin fb i ⟨s.id, hid⟩) }
  | last (fb i : Nat) (hid : s.id < m) (hi : ¬ i < m) (hc : s.callers c = .pick fb i) :
    CallStep s c { s with callers := s.setCaller c (.add ⟨s.id, hid⟩ true (.enter fb)) }
  | blocked (fb i : Nat) (proc : Fin m) (hc : s.callers c = .robin fb i proc)
    (hblock : (s.m_processers proc).isBlock = true) :
    CallStep s c { s with callers := s.setCaller c (.skip fb i) }
  | robin (fb i : Nat) (proc : Fin m) (hc : s.callers c = .robin fb i proc)
    (hblock : (s.m_processers proc).isBlock = false) :
    CallStep s c { s with callers := s.setCaller c (.add proc true (.enter fb)) }
  | skip (fb i : Nat) (hc : s.callers c = .skip fb i) :
    CallStep s c { s with id := (s.id + 1) % m, callers := s.setCaller c (.pick fb (i + 1)) }
  | add (proc : Fin m) (moves : Bool) (a a' : AddPc Nat) (p : Processer Nat)
    (hc : s.callers c = .add proc moves a)
    (hadd : (s.m_processers proc).addStep a = some (p, a')) :
    CallStep s c { s with
      m_processers := s.setProc proc p
      callers := s.setCaller c
        (if a' = .idle then if moves then .move else .idle else .add proc moves a') }
  | move (hc : s.callers c = .move) :
    CallStep s c { s with id := (s.id + 1) % m, callers := s.setCaller c .idle }

theorem callStep_spec {s s' : Scheduler m k} {c : Fin k} (h : s.callStep c = some s') :
    s.CallStep c s' := by
  unfold callStep at h
  cases hc : s.callers c with
  | idle =>
    simp only [hc] at h
    cases h
  | read fb =>
    simp only [hc] at h
    split at h
    · rename_i proc hproc
      cases h
      exact .known fb proc hc hproc
    · rename_i hproc
      cases h
      exact .fresh fb hc hproc
  | test fb proc =>
    simp only [hc] at h
    split at h
    · rename_i hrun
      cases h
      exact .running fb proc hc hrun
    · rename_i hrun
      cases h
      exact .notRunning fb proc hc (Bool.eq_false_iff.mpr hrun)
  | scan fb j =>
    simp only [hc] at h
    split at h
    · rename_i hj
      split at h
      · rename_i hwait
        cases h
        exact .waits fb j hj hc hwait
      · rename_i hwait
        cases h
        exact .next fb j hj hc (Bool.eq_false_iff.mpr hwait)
    · rename_i hj
      cases h
      exact .scanned fb j hj hc
  | pick fb i =>
    simp only [hc] at h
    split at h
    · rename_i hid
      split at h
      · rename_i hi
        cases h
        exact .pick fb i hid hi hc
      · rename_i hi
        cases h
        exact .last fb i hid hi hc
    · cases h
  | robin fb i proc =>
    simp only [hc] at h
    split at h
    · rename_i hblock
      cases h
      exact .blocked fb i proc hc hblock
    · rename_i hblock
      cases h
      exact .robin fb i proc hc (Bool.eq_false_iff.mpr hblock)
  | skip fb i =>
    simp only [hc] at h
    cases h
    exact .skip fb i hc
  | add proc moves a =>
    simp only [hc] at h
    obtain ⟨⟨p, a'⟩, hadd, rfl⟩ := Option.map_eq_some_iff.mp h
    exact .add proc moves a a' p hc hadd
  | move =>
    simp only [hc] at h
    cases h
    exact .move hc

theorem procStep_spec {s s' : Scheduler m k} {i : Fin m} (h : s.procStep i = some s') :
    ∃ p fibers, (s.m_processers i).next s.isStopping (s.fiberState (s.m_processers i).pc) = some p ∧
      s.fiberWrite i (s.m_processers i).pc = some fibers ∧
      s' = { s with m_processers := s.setProc i p, fibers := fibers } := by
  simp only [procStep, Option.bind_eq_bind] at h
  obtain ⟨p, hp, h⟩ := Option.bind_eq_some_iff.mp h
  obtain ⟨fibers, hf, h⟩ := Option.bind_eq_some_iff.mp h
  cases h
  exact ⟨p, fibers, hp, hf, rfl⟩

theorem fiberStep_spec {s s' : Scheduler m k} {i : Fin m} {f : Fiber m → Option (Fiber m)}
    (h : s.fiberStep i f = some s') : ∃ fb f', (s.m_processers i).pc = .inFiber fb ∧
      (s.fibers fb).pc = .run ∧ f (s.fibers fb) = some f' ∧
      s' = { s with fibers := s.setFiber fb f' } := by
  unfold fiberStep at h
  split at h
  · rename_i fb hpc
    split at h
    · rename_i hrun
      obtain ⟨f', hf, rfl⟩ := Option.map_eq_some_iff.mp h
      exact ⟨fb, f', hpc, hrun, hf, rfl⟩
    · cases h
  · cases h

/-- The destructor stops the processers one after the other. -/
theorem stopStep_spec {s s' : Scheduler m k} (h : s.stopStep = some s') :
    s'.callers = s.callers ∧ s'.fibers = s.fibers ∧ s'.id = s.id ∧ s'.stop ≠ .idle ∧
      ∀ i, s'.m_processers i = s.m_processers i ∨
        s'.m_processers i = { s.m_processers i with m_state := .stop } ∨
        (s.m_processers i).notify = some (s'.m_processers i) := by
  unfold stopStep at h
  cases hs : s.stop with
  | idle =>
    simp only [hs, Option.ite_none_left_eq_some, Option.some.injEq] at h
    obtain ⟨-, rfl⟩ := h
    exact ⟨rfl, rfl, rfl, by simp, fun _ => .inl rfl⟩
  | set j =>
    simp only [hs] at h
    split at h
    · rename_i hj
      cases h
      refine ⟨rfl, rfl, rfl, by simp, fun i => ?_⟩
      by_cases hi : i = ⟨j, hj⟩
      · subst hi
        exact .inr (.inl (Function.update_self ..))
      · exact .inl (Function.update_of_ne hi ..)
    · cases h
      exact ⟨rfl, rfl, rfl, by simp, fun _ => .inl rfl⟩
  | notify j =>
    simp only [hs] at h
    split at h
    · rename_i hj
      obtain ⟨p, hp, rfl⟩ := Option.map_eq_some_iff.mp h
      refine ⟨rfl, rfl, rfl, by simp, fun i => ?_⟩
      by_cases hi : i = ⟨j, hj⟩
      · subst hi
        have hself : s.setProc ⟨j, hj⟩ p ⟨j, hj⟩ = p := Function.update_self ..
        exact .inr (.inr (hp.trans (congrArg some hself.symm)))
      · exact .inl (Function.update_of_ne hi ..)
    · cases h
  | join =>
    simp only [hs] at h
    cases h

/-! ## The index of `addFiber` -/

theorem callStep_id {s s' : Scheduler m k} {c : Fin k} (h : s.callStep c = some s') :
    s'.id = s.id ∨ s'.id = (s.id + 1) % m := by
  cases callStep_spec h with
  | skip | move => exact .inr rfl
  | _ => exact .inl rfl

theorem step_id {s s' : Scheduler m k} {a : Act m k} (h : s.step a = some s') :
    s'.id = s.id ∨ s'.id = (s.id + 1) % m := by
  cases a with
  | call c => exact callStep_id h
  | createFiber c fb | addFiber c fb =>
    simp only [step, Option.ite_none_right_eq_some, Option.some.injEq] at h
    obtain ⟨-, rfl⟩ := h
    exact .inl rfl
  | proc i =>
    obtain ⟨p, fibers, -, -, rfl⟩ := procStep_spec h
    exact .inl rfl
  | register i | withdraw i | yield i | finish i =>
    unfold step at h
    obtain ⟨fb, f, -, -, -, rfl⟩ := fiberStep_spec h
    exact .inl rfl
  | stop =>
    obtain ⟨-, -, he, -⟩ := stopStep_spec h
    exact .inl he

/-- It is in range, so a call never gets stuck at `pick`. -/
theorem id_lt (hm : 0 < m) (s : Scheduler m k) (hr : (lts m k).Reachable s) : s.id < m := by
  have hind : (lts m k).Inductive fun s => s.id < m := by
    refine ⟨fun s hs => ?_, fun s a s' h hst => ?_⟩
    · rw [hs]
      exact hm
    · rcases step_id hst with he | he
      · rw [he]
        exact h
      · rw [he]
        exact Nat.mod_lt _ hm
  exact hind.reachable s hr

end Scheduler
end Ppcode
