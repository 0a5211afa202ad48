import Ppcode.Core.LTS

/-!
# `Processer`: one run queue and the threads that add to it

`src/fiber/processer.cc`. The processer's own thread runs `execute`: it takes
fibers from `runableQueue`, fetches new ones from `newQueue` (`getNewFibers`)
when there are none, and sleeps in `idle` when there are still none. Any thread
may call `addFiber`, which pushes to `newQueue`, counts the fiber in
`m_newfiberCount` and notifies; a fiber that the processer runs may, too.

Every access to a shared field is a step: `next` is the processer's own thread,
`addStep` a thread in `addFiber` or `notify`. `newQueue` is an atomic bounded
queue. What stands in `notify` is one step under `m_mutex`; `idle` holds
`m_mutex` from `.test` to `.wait` (`ProcPc.locked`). `m_cv.wait` returns only
after a `notify_all`.

`Sys` is one processer with `n` other threads. There, what the processer reads
from its surroundings comes with the step: the scheduler is not stopping, and
the state of the fiber that swapped out is arbitrary.
-/
namespace Ppcode

/-- mirrors src/fiber/fiber.h:11-19 -/
inductive TaskState where
  | init | running | block | idle | stop | done | execpt
  deriving DecidableEq, Repr

namespace Processer

/-- The two calls of `getNewFibers`. -/
inductive Ret where
  /-- :129, before the test for `idle` -/
  | idle
  /-- :153, at the end of the switch -/
  | switch
  deriving DecidableEq, Repr

/-- Control point of the processer's own thread. -/
inductive ProcPc (F : Type) where
  /-- :118, `m_state = running` -/
  | start
  /-- :120, the outer `isStopping` -/
  | loop
  /-- :123 -/
  | take
  /-- `getNewFibers`: :190, read `m_newfiberCount` -/
  | fetch (r : Ret)
  /-- :192, compare-exchange with 0 -/
  | exchange (size : Nat) (r : Ret)
  /-- :203, `left` pops to go -/
  | pop (left : Nat) (r : Ret)
  /-- `idle`: :219, `gc`, then lock `m_mutex` -/
  | gcLock
  /-- :226 -/
  | test
  /-- :228, `m_notidied = false` and unlock -/
  | clear
  /-- :232, `m_state = idle` -/
  | publish
  /-- :234, the loop test -/
  | again
  /-- :235, about to call `m_cv.wait` -/
  | wait
  /-- in `m_cv.wait`; whether a `notify_all` came -/
  | waiting (notified : Bool)
  /-- :238, `m_state = running` and unlock -/
  | wake
  /-- :137, the inner `isStopping`, with a fiber taken -/
  | check (fb : F)
  /-- :141, write the fiber's state -/
  | resume (fb : F)
  /-- :142, write the fiber's processer -/
  | bind (fb : F)
  /-- :145, about to swap in -/
  | swapIn (fb : F)
  /-- between `SwapIn` and its return -/
  | inFiber (fb : F)
  /-- :147, read the fiber's state -/
  | switch (fb : F)
  /-- :152, read `m_newfiberCount` -/
  | many
  | exited
  deriving DecidableEq, Repr

/-- `idle` holds `m_mutex`. -/
def ProcPc.locked {F : Type} : ProcPc F → Bool
  | .test | .clear | .publish | .again | .wait | .wake => true
  | _ => false

/-- Control point of a thread in `addFiber` or `notify`. -/
inductive AddPc (F : Type) where
  | idle
  /-- :64 -/
  | enter (fb : F)
  /-- :70, until the push succeeds -/
  | push (fb : F)
  /-- :72 -/
  | count
  /-- :75, `isRunning` -/
  | test
  /-- :79 -/
  | flag
  /-- :76 -/
  | flagNotify
  /-- `notify`, :107-109 -/
  | notify
  deriving DecidableEq, Repr

end Processer

/-- mirrors src/fiber/processer.h:73-106 -/
structure Processer (F : Type) where
  m_newfiberCount : Nat
  runableQueue : List F
  newQueue : List F
  gcQueue : List F
  m_state : TaskState
  m_notidied : Bool
  pc : Processer.ProcPc F
  deriving DecidableEq

namespace Processer
variable {F : Type}

/-- mirrors src/fiber/processer.cc:15-21 -/
def new : Processer F := ⟨0, [], [], [], .init, false, .start⟩

/-- The capacity of `newQueue`.
mirrors src/fiber/processer.h:19 -/
def capacity : Nat := 128

def isRunning (p : Processer F) : Bool := decide (p.m_state = .running)
def isWaitting (p : Processer F) : Bool := decide (p.m_state = .idle)
def isBlock (p : Processer F) : Bool := decide (p.m_state = .block)

/-- `notify_all` wakes the thread that waits.
mirrors src/fiber/processer.cc:106-110 -/
def notify (p : Processer F) : Option (Processer F) :=
  if p.pc.locked then none
  else some { p with
    m_notidied := true
    pc := match p.pc with
      | .waiting _ => .waiting true
      | pc => pc }

theorem notify_spec {p p' : Processer F} (h : p.notify = some p') : p.pc.locked = false ∧
    p' = { p with m_notidied := true, pc := p'.pc } ∧
    ((∀ b, p.pc ≠ .waiting b) ∧ p'.pc = p.pc ∨ ∃ b, p.pc = .waiting b ∧ p'.pc = .waiting true) := by
  unfold notify at h
  split at h
  · cases h
  · rename_i hl
    cases h
    refine ⟨Bool.eq_false_iff.mpr hl, rfl, ?_⟩
    simp only
    split
    · rename_i b hb
      exact .inr ⟨b, hb, rfl⟩
    · rename_i hb
      exact .inl ⟨hb, rfl⟩

/-- Where `getNewFibers` returns to.
mirrors src/fiber/processer.cc:131-134,155 -/
def back (p : Processer F) : Ret → ProcPc F
  | .idle => if p.runableQueue = [] then .gcLock else .loop
  | .switch => .loop

/-- The fiber that swapped out is queued again, left alone, or put into `gcQueue`;
its `m_eptr` is never set.
mirrors src/fiber/processer.cc:147-171 -/
def switched (p : Processer F) (fb : F) : TaskState → Processer F
  | .running => { p with runableQueue := p.runableQueue ++ [fb], pc := .many }
  | .block => { p with pc := .loop }
  | _ => { p with gcQueue := (if p.gcQueue.length > 32 then [] else p.gcQueue) ++ [fb], pc := .loop }

/-- One step of the processer's thread, where `isStopping` returns `stopping` and
the fiber's state is `state`. A fiber swaps out at any time.
mirrors src/fiber/processer.cc:113-174,185-210,218-240 -/
def next (stopping : Bool) (state : TaskState) (p : Processer F) : Option (Processer F) :=
  match p.pc with
  | .start => some { p with m_state := .running, pc := .loop }
  | .loop => some { p with pc := if stopping then .exited else .take }
  | .take =>
    match p.runableQueue with
    | [] => some { p with pc := .fetch .idle }
    | fb :: q => some { p with runableQueue := q, pc := .check fb }
  | .fetch r => some { p with pc := .exchange p.m_newfiberCount r }
  | .exchange size r =>
    if p.m_newfiberCount = size then some { p with m_newfiberCount := 0, pc := .pop size r }
    else some { p with pc := .fetch r }
  | .pop 0 r => some { p with pc := p.back r }
  | .pop (left + 1) r =>
    match p.newQueue with
    | [] => some { p with pc := .pop left r }
    | fb :: q =>
      some { p with newQueue := q, runableQueue := p.runableQueue ++ [fb], pc := .pop left r }
  | .gcLock => some { p with gcQueue := [], pc := .test }
  | .test => some { p with pc := if p.m_notidied then .clear else .publish }
  | .clear => some { p with m_notidied := false, pc := .loop }
  | .publish => some { p with m_state := .idle, pc := .again }
  | .again => some { p with pc := if p.m_notidied then .wake else .wait }
  | .wait => some { p with pc := .waiting false }
  | .waiting notified => if notified then some { p with pc := .again } else none
  | .wake => some { p with m_state := .running, pc := .loop }
  | .check fb => some { p with pc := if stopping then .loop else .resume fb }
  | .resume fb => some { p with pc := .bind fb }
  | .bind fb => some { p with pc := .swapIn fb }
  | .swapIn fb => some { p with pc := .inFiber fb }
  | .inFiber fb => some { p with pc := .switch fb }
  | .switch fb => some (p.switched fb state)
  | .many => some { p with pc := if p.m_newfiberCount > 32 then .fetch .switch else .loop }
  | .exited => none

/-- `next`, one constructor for each of its branches. -/
inductive Next (stopping : Bool) (state : TaskState) : Processer F → Processer F → Prop
  | start (p : Processer F) :
    Next stopping state { p with pc := .start } { p with m_state := .running, pc := .loop }
  | loop (p : Processer F) :
    Next stopping state { p with pc := .loop } { p with pc := if stopping then .exited else .take }
  | empty (p : Processer F) :
    Next stopping state { p with runableQueue := [], pc := .take }
      { p with runableQueue := [], pc := .fetch .idle }
  | take (p : Processer F) (fb : F) (q : List F) :
    Next stopping state { p with runableQueue := fb :: q, pc := .take }
      { p with runableQueue := q, pc := .check fb }
  | fetch (p : Processer F) (r : Ret) :
    Next stopping state { p with pc := .fetch r } { p with pc := .exchange p.m_newfiberCount r }
  | exchange (p : Processer F) (r : Ret) :
    Next stopping state { p with pc := .exchange p.m_newfiberCount r }
      { p with m_newfiberCount := 0, pc := .pop p.m_newfiberCount r }
  | retry (p : Processer F) (size : Nat) (r : Ret) :
    Next stopping state { p with pc := .exchange size r } { p with pc := .fetch r }
  | fetched (p : Processer F) (r : Ret) :
    Next stopping state { p with pc := .pop 0 r } { p with pc := p.back r }
  | pop (p : Processer F) (left : Nat) (r : Ret) (fb : F) (q : List F) :
    Next stopping state { p with newQueue := fb :: q, pc := .pop (left + 1) r }
      { p with newQueue := q, runableQueue := p.runableQueue ++ [fb], pc := .pop left r }
  | miss (p : Processer F) (left : Nat) (r : Ret) :
    Next stopping state { p with newQueue := [], pc := .pop (left + 1) r }
      { p with newQueue := [], pc := .pop left r }
  | gcLock (p : Processer F) :
    Next stopping state { p with pc := .gcLock } { p with gcQueue := [], pc := .test }
  | test (p : Processer F) :
    Next stopping state { p with pc := .test }
      { p with pc := if p.m_notidied then .clear else .publish }
  | clear (p : Processer F) :
    Next stopping state { p with pc := .clear } { p with m_notidied := false, pc := .loop }
  | publish (p : Processer F) :
    Next stopping state { p with pc := .publish } { p with m_state := .idle, pc := .again }
  | again (p : Processer F) :
    Next stopping state { p with pc := .again } { p with pc := if p.m_notidied then .wake else .wait }
  | wait (p : Processer F) :
    Next stopping state { p with pc := .wait } { p with pc := .waiting false }
  | waiting (p : Processer F) :
    Next stopping state { p with pc := .waiting true } { p with pc := .again }
  | wake (p : Processer F) :
    Next stopping state { p with pc := .wake } { p with m_state := .running, pc := .loop }
  | check (p : Processer F) (fb : F) :
    Next stopping state { p with pc := .check fb }
      { p with pc := if stopping then .loop else .resume fb }
  | resume (p : Processer F) (fb : F) :
    Next stopping state { p with pc := .resume fb } { p with pc := .bind fb }
  | bind (p : Processer F) (fb : F) :
    Next stopping state { p with pc := .bind fb } { p with pc := .swapIn fb }
  | swapIn (p : Processer F) (fb : F) :
    Next stopping state { p with pc := .swapIn fb } { p with pc := .inFiber fb }
  | inFiber (p : Processer F) (fb : F) :
    Next stopping state { p with pc := .inFiber fb } { p with pc := .switch fb }
  | switch (p : Processer F) (fb : F) :
    Next stopping state { p with pc := .switch fb } ({ p with pc := .switch fb }.switched fb state)
  | many (p : Processer F) :
    Next stopping state { p with pc := .many }
      { p with pc := if p.m_newfiberCount > 32 then .fetch .switch else .loop }

theorem next_spec {stopping : Bool} {state : TaskState} {p p' : Processer F}
    (h : p.next stopping state = some p') : Next stopping state p p' := by
  obtain ⟨count, runable, newq, gc, st, notidied, pc⟩ := p
  unfold next at h
  cases pc with
  | take =>
    cases runable with
    | nil =>
      cases h
      exact .empty ⟨count, [], newq, gc, st, notidied, .take⟩
    | cons fb q =>
      cases h
      exact .take ⟨count, q, newq, gc, st, notidied, .take⟩ fb q
  | exchange size r =>
    simp only at h
    split at h
    · next heq =>
      cases h
      subst heq
      exact .exchange ⟨count, runable, newq, gc, st, notidied, .loop⟩ r
    · cases h
      exact .retry ⟨count, runable, newq, gc, st, notidied, .loop⟩ size r
  | pop left r =>
    cases left with
    | zero =>
      cases h
      exact .fetched ⟨count, runable, newq, gc, st, notidied, .pop 0 r⟩ r
    | succ left =>
      cases newq with
      | nil =>
        cases h
        exact .miss ⟨count, runable, [], gc, st, notidied, .loop⟩ left r
      | cons fb q =>
        cases h
        exact .pop ⟨count, runable, q, gc, st, notidied, .loop⟩ left r fb q
  | waiting notified =>
    cases notified with
    | false => cases h
    | true =>
      cases h
      exact .waiting ⟨count, runable, newq, gc, st, notidied, .loop⟩
  | exited => cases h
  | start => cases h; exact .start ⟨count, runable, newq, gc, st, notidied, .loop⟩
  | loop => cases h; exact .loop ⟨count, runable, newq, gc, st, notidied, .loop⟩
  | fetch r => cases h; exact .fetch ⟨count, runable, newq, gc, st, notidied, .loop⟩ r
  | gcLock => cases h; exact .gcLock ⟨count, runable, newq, gc, st, notidied, .loop⟩
  | test => cases h; exact .test ⟨count, runable, newq, gc, st, notidied, .loop⟩
  | clear => cases h; exact .clear ⟨count, runable, newq, gc, st, notidied, .loop⟩
  | publish => cases h; exact .publish ⟨count, runable, newq, gc, st, notidied, .loop⟩
  | again => cases h; exact .again ⟨count, runable, newq, gc, st, notidied, .loop⟩
  | wait => cases h; exact .wait ⟨count, runable, newq, gc, st, notidied, .loop⟩
  | wake => cases h; exact .wake ⟨count, runable, newq, gc, st, notidied, .loop⟩
  | check fb => cases h; exact .check ⟨count, runable, newq, gc, st, notidied, .loop⟩ fb
  | resume fb => cases h; exact .resume ⟨count, runable, newq, gc, st, notidied, .loop⟩ fb
  | bind fb => cases h; exact .bind ⟨count, runable, newq, gc, st, notidied, .loop⟩ fb
  | swapIn fb => cases h; exact .swapIn ⟨count, runable, newq, gc, st, notidied, .loop⟩ fb
  | inFiber fb => cases h; exact .inFiber ⟨count, runable, newq, gc, st, notidied, .loop⟩ fb
  | switch fb => cases h; exact .switch ⟨count, runable, newq, gc, st, notidied, .loop⟩ fb
  | many => cases h; exact .many ⟨count, runable, newq, gc, st, notidied, .loop⟩

/-- Only the condition of the outer loop leads into its body, or out of `execute`. -/
theorem next_loop {stopping : Bool} {state : TaskState} {p p' : Processer F}
    (h : p.next stopping state = some p') (hpc : p'.pc = .take ∨ p'.pc = .exited) :
    p'.pc = if stopping then .exited else .take := by
  cases next_spec h with
  | loop => rfl
  | fetched p r =>
    simp only [back] at hpc
    split at hpc
    · split at hpc <;> rcases hpc with hpc | hpc <;> cases hpc
    · rcases hpc with hpc | hpc <;> cases hpc
  | switch p fb => cases state <;> rcases hpc with hpc | hpc <;> cases hpc
  | test | again | check | many =>
    simp only at hpc
    split at hpc <;> rcases hpc with hpc | hpc <;> cases hpc
  | _ => rcases hpc with hpc | hpc <;> cases hpc

/-- One step of a thread in `addFiber` or `notify`.
mirrors src/fiber/processer.cc:58-81,106-110 -/
def addStep (p : Processer F) : AddPc F → Option (Processer F × AddPc F)
  | .idle => none
  | .enter fb =>
    if p.m_state = .stop ∨ p.m_state = .done then some (p, .idle) else some (p, .push fb)
  | .push fb =>
    if p.newQueue.length < capacity then some ({ p with newQueue := p.newQueue ++ [fb] }, .count)
    else none
  | .count => some ({ p with m_newfiberCount := p.m_newfiberCount + 1 }, .test)
  | .test => some (p, if p.isRunning then .flag else .flagNotify)
  | .flag => some ({ p with m_notidied := true }, .idle)
  | .flagNotify => some ({ p with m_notidied := true }, .notify)
  | .notify => p.notify.map fun p => (p, .idle)

/-! ## One processer and `n` threads -/

/-- `pushed` are the fibers pushed to `newQueue`, `moved` those that the loop of
`getNewFibers` has appended to `runableQueue`, in order. -/
structure Sys (F : Type) (n : Nat) where
  p : Processer F
  adders : Fin n → AddPc F
  pushed : List F
  moved : List F

inductive Act (F : Type) (n : Nat) where
  /-- a thread calls `addFiber` -/
  | addFiber (i : Fin n) (fb : F)
  /-- a thread calls `notify` -/
  | notify (i : Fin n)
  /-- a thread goes on with its call -/
  | go (i : Fin n)
  /-- the processer's thread goes on; `state` is the state of the fiber in hand -/
  | proc (state : TaskState)

/-- What a step of a call pushes. -/
def AddPc.pushes : AddPc F → List F
  | .push fb => [fb]
  | _ => []

/-- What a step of the processer from `p` to `p'` appends to `runableQueue` in the loop of
`getNewFibers`. -/
def moves (p p' : Processer F) : List F :=
  match p.pc with
  | .pop .. => p'.runableQueue.drop p.runableQueue.length
  | _ => []

namespace Sys
variable {n : Nat}

def step (s : Sys F n) : Act F n → Option (Sys F n)
  | .addFiber i fb =>
    match s.adders i with
    | .idle => some { s with adders := Function.update s.adders i (.enter fb) }
    | _ => none
  | .notify i =>
    match s.adders i with
    | .idle => some { s with adders := Function.update s.adders i .notify }
    | _ => none
  | .go i => (s.p.addStep (s.adders i)).map fun r =>
    { s with p := r.1, adders := Function.update s.adders i r.2,
             pushed := s.pushed ++ (s.adders i).pushes }
  | .proc state => (s.p.next false state).map fun p =>
    { s with p := p, moved := s.moved ++ s.p.moves p }

def init : Sys F n := ⟨new, fun _ => .idle, [], []⟩

def lts (F : Type) (n : Nat) : LTS (Sys F n) (Act F n) := LTS.ofFn (fun s => s = init) step

end Sys
end Processer
end Ppcode
