import Mathlib.Algebra.BigOperators.Group.List.Basic
import Mathlib.Data.BitVec
import Ppcode.Core.LTS

/-!
# `Poller`: waiters of file descriptors

`src/fiber/poller.cc` keeps one `FdContext` for each file descriptor: the
events somebody waits for (`events_`) and, for each of the two events, a
callback and the scheduler to run it. `addEvent` registers a callback,
`delEvent` removes one, `cancelEvent` and `cancelAll` fire callbacks at once,
and the event loop (`dispatch`, one entry of the array that `epoll_wait` fills)
fires those whose event has come. Each of them changes the kernel's interest
list by one `epoll_ctl` call, which may fail.

The functions take the kernel as a parameter `ctl` on a state `σ`, so that they
run against arbitrary outcomes of `epoll_ctl` as well as against a model of the
interest list. They are `none` where the process dies: an index outside the
table, a null `scheduler_`, a failed assert. Each runs under the mutex of the
one `FdContext` it touches, so it is one step.

Results of this file: an operation leaves every other `FdContext` alone, and
what it does to its own is one of `Poller.register`, `Poller.fire` and
`Poller.remove` (`addEvent_spec`, `delEvent_spec`, `cancelEvent_spec`,
`cancelAll_spec`, `dispatch_spec`).
-/
namespace Ppcode

/-- A set of events, as `epoll_event::events` and `events_` hold it. -/
abbrev Mask := BitVec 32

def EPOLLIN : Mask := 0x1
def EPOLLOUT : Mask := 0x4
def EPOLLERR : Mask := 0x8
def EPOLLHUP : Mask := 0x10
def EPOLLET : Mask := 0x80000000

/-- The test `mask & bits` of an `if`. -/
def Mask.has (mask bits : Mask) : Bool := mask &&& bits != 0

/-- mirrors src/fiber/poller.h:12 -/
inductive Event where
  | NONE | READ | WRITE
  deriving DecidableEq, Repr

def Event.mask : Event → Mask
  | .NONE => 0x0
  | .READ => 0x1
  | .WRITE => 0x4

theorem Mask.has_event (m : Mask) (e : Event) : m.has e.mask =
    match e with
    | .NONE => false
    | .READ => m.getLsbD 0
    | .WRITE => m.getLsbD 2 := by
  cases e with
  | NONE => simp [Mask.has, Event.mask]
  | READ =>
    have h := BitVec.and_twoPow m 0
    rw [show BitVec.twoPow 32 0 = 0x1 by rfl] at h
    simp only [Mask.has, Event.mask, h]
    cases m.getLsbD 0 <;> rfl
  | WRITE =>
    have h := BitVec.and_twoPow m 2
    rw [show BitVec.twoPow 32 2 = 0x4 by rfl] at h
    simp only [Mask.has, Event.mask, h]
    cases m.getLsbD 2 <;> rfl

theorem Mask.has_or (m m' : Mask) (e : Event) :
    Mask.has (m ||| m') e.mask = (m.has e.mask || m'.has e.mask) := by
  cases e <;> simp [Mask.has_event]

theorem Mask.has_andNot (m m' : Mask) (e : Event) :
    Mask.has (m &&& ~~~m') e.mask = (m.has e.mask && !m'.has e.mask) := by
  cases e <;> simp [Mask.has_event]

@[simp] theorem Mask.has_zero (e : Event) : Mask.has 0#32 e.mask = false := by cases e <;> rfl

theorem Event.mask_has (e e' : Event) : e.mask.has e'.mask = decide (e = e' ∧ e ≠ .NONE) := by
  cases e <;> cases e' <;> rfl

/-- `scheduler_` is a pointer, `cb_` a function; `none` is `nullptr`.
mirrors src/fiber/poller.h:14-19 -/
structure EventContext (Cb : Type) where
  scheduler_ : Option Nat
  cb_ : Option Cb
  deriving DecidableEq, Repr

/-- mirrors src/fiber/poller.h:10-38 -/
structure FdContext (Cb : Type) where
  read_ : EventContext Cb
  write_ : EventContext Cb
  fd_ : Nat
  events_ : Mask
  deriving DecidableEq, Repr

namespace FdContext
variable {Cb : Type}

/-- A new context, with the `fd_` that `resize` gives it. -/
def new (fd : Nat) : FdContext Cb := ⟨⟨none, none⟩, ⟨none, none⟩, fd, Event.NONE.mask⟩

/-- `none` is the failed assert.
mirrors src/fiber/poller.cc:16-24 -/
def getContext (c : FdContext Cb) : Event → Option (EventContext Cb)
  | .READ => some c.read_
  | .WRITE => some c.write_
  | .NONE => none

/-- An assignment through the reference that `getContext` returns. -/
def setContext (c : FdContext Cb) (event : Event) (ctx : EventContext Cb) : FdContext Cb :=
  match event with
  | .READ => { c with read_ := ctx }
  | .WRITE => { c with write_ := ctx }
  | .NONE => c

@[simp] theorem setContext_events (c : FdContext Cb) (event : Event) (ctx : EventContext Cb) :
    (c.setContext event ctx).events_ = c.events_ := by cases event <;> rfl

@[simp] theorem setContext_fd (c : FdContext Cb) (event : Event) (ctx : EventContext Cb) :
    (c.setContext event ctx).fd_ = c.fd_ := by cases event <;> rfl

/-- mirrors src/fiber/poller.cc:26-29 -/
def resetContext : EventContext Cb := ⟨none, none⟩

/-- The new context, and the scheduler and argument of the call of `createFiber`.
mirrors src/fiber/poller.cc:32-38 -/
def triggerEvent (c : FdContext Cb) (event : Event) : Option (FdContext Cb × Nat × Option Cb) := do
  let ctx ← c.getContext event
  let scheduler ← ctx.scheduler_
  pure ({ c with events_ := c.events_ &&& ~~~event.mask }, scheduler, ctx.cb_)

end FdContext

/-- `m_pendingEventCount` is the value without wrap-around: the `size_t` shows
it modulo 2^64. `created` records the calls of `createFiber`.
mirrors src/fiber/poller.h:40-77 -/
structure Poller (Cb : Type) where
  m_fdContexts : List (FdContext Cb)
  m_pendingEventCount : Int
  m_sche : Nat
  created : List (Nat × Option Cb)

inductive CtlOp where
  | ADD | MOD | DEL
  deriving DecidableEq, Repr

/-- The `errno` of a failed `epoll_ctl`. -/
inductive Errno where
  | EEXIST | ENOENT | other
  deriving DecidableEq, Repr

/-- The result of `epoll_ctl`; `none` is 0. -/
abbrev CtlResult := Option Errno

namespace Poller
variable {Cb σ : Type}

/-- mirrors src/fiber/poller.cc:59-68 -/
def resize (p : Poller Cb) (size : Nat) : Poller Cb :=
  { p with m_fdContexts := p.m_fdContexts.take size ++
      (List.range' p.m_fdContexts.length (size - p.m_fdContexts.length)).map FdContext.new }

/-- The constructor, but for the pipe.
mirrors src/fiber/poller.cc:40-49 -/
def new (sche : Nat) : Poller Cb := resize ⟨[], 0, sche, []⟩ 64

/-- A change of one context and of the counter. -/
def put (p : Poller Cb) (fd : Nat) (c : FdContext Cb) (count : Int) : Poller Cb :=
  { p with m_fdContexts := p.m_fdContexts.set fd c, m_pendingEventCount := count }

/-- `triggerEvent` of an fd's context, and the decrement that follows it.
mirrors src/fiber/poller.cc:173-174 -/
def fire (p : Poller Cb) (fd : Nat) (event : Event) : Option (Poller Cb) := do
  let c ← p.m_fdContexts[fd]?
  let (c, created) ← c.triggerEvent event
  pure { p.put fd c (p.m_pendingEventCount - 1) with created := p.created ++ [created] }

/-- `if (mask & event) { triggerEvent(event); --m_pendingEventCount; }` -/
def fireIf (p : Poller Cb) (mask : Mask) (fd : Nat) (event : Event) : Option (Poller Cb) :=
  if mask.has event.mask then p.fire fd event else some p

/-- What `addEvent` does to the context after `epoll_ctl` has succeeded.
mirrors src/fiber/poller.cc:94-102 -/
def register (p : Poller Cb) (fd : Nat) (event : Event) (cb : Cb) : Option (Poller Cb) := do
  let c ← p.m_fdContexts[fd]?
  let _ ← c.getContext event
  let c := { c with events_ := c.events_ ||| event.mask }
  pure (p.put fd (c.setContext event ⟨some p.m_sche, some cb⟩) (p.m_pendingEventCount + 1))

/-- What `delEvent` does to the context after `epoll_ctl` has succeeded.
mirrors src/fiber/poller.cc:136-139 -/
def remove (p : Poller Cb) (fd : Nat) (event : Event) : Option (Poller Cb) := do
  let c ← p.m_fdContexts[fd]?
  let _ ← c.getContext event
  let c := { c with events_ := c.events_ &&& ~~~event.mask }
  pure (p.put fd (c.setContext event FdContext.resetContext) (p.m_pendingEventCount - 1))

/-- The table as `addEvent` needs it.
mirrors src/fiber/poller.cc:74-76 -/
def grow (p : Poller Cb) (fd : Nat) : Poller Cb :=
  if p.m_fdContexts.length < fd then p.resize (fd * 2) else p

section Operations
variable (ctl : σ → Nat → CtlOp → Mask → CtlResult × σ)

/-- mirrors src/fiber/poller.cc:70-103 -/
def addEvent (p : Poller Cb) (k : σ) (fd : Nat) (event : Event) (cb : Cb) :
    Option (Poller Cb × σ × CtlResult) := do
  let p := p.grow fd
  let fd_ctx ← p.m_fdContexts[fd]?
  let op := if fd_ctx.events_ = 0 then .ADD else .MOD
  let (rt, k) := ctl k fd op (EPOLLET ||| event.mask ||| fd_ctx.events_)
  if rt ≠ none then return (p, k, rt)
  let p ← p.register fd event cb
  return (p, k, none)

/-- `delEvent` and `cancelEvent` up to what they do (`act`) once `epoll_ctl` has
returned a result that they take for a success (`good`). -/
def dropEvent (good : CtlResult → Bool) (act : Poller Cb → Nat → Event → Option (Poller Cb))
    (p : Poller Cb) (k : σ) (fd : Nat) (event : Event) : Option (Poller Cb × σ × Bool) := do
  if p.m_fdContexts.length < fd then return (p, k, false)
  let fd_ctx ← p.m_fdContexts[fd]?
  if !fd_ctx.events_.has event.mask then return (p, k, false)
  let new_event := fd_ctx.events_ &&& ~~~event.mask
  let op := if new_event = 0 then .DEL else .MOD
  let (rt, k) := ctl k fd op (EPOLLET ||| new_event)
  if !good rt then return (p, k, false)
  let p ← act p fd event
  return (p, k, true)

/-- A failure with `EEXIST` passes for a success.
mirrors src/fiber/poller.cc:105-141 -/
def delEvent (p : Poller Cb) (k : σ) (fd : Nat) (event : Event) :
    Option (Poller Cb × σ × Bool) :=
  dropEvent ctl (fun rt => rt = none ∨ rt = some .EEXIST) remove p k fd event

/-- mirrors src/fiber/poller.cc:143-176 -/
def cancelEvent (p : Poller Cb) (k : σ) (fd : Nat) (event : Event) :
    Option (Poller Cb × σ × Bool) :=
  dropEvent ctl (fun rt => rt = none) fire p k fd event

/-- mirrors src/fiber/poller.cc:177-210 -/
def cancelAll (p : Poller Cb) (k : σ) (fd : Nat) : Option (Poller Cb × σ × Bool) := do
  if p.m_fdContexts.length < fd then return (p, k, false)
  let fd_ctx ← p.m_fdContexts[fd]?
  let (rt, k) := ctl k fd .DEL 0
  if rt ≠ none then return (p, k, false)
  let p ← p.fireIf fd_ctx.events_ fd .READ
  let fd_ctx ← p.m_fdContexts[fd]?
  let p ← p.fireIf fd_ctx.events_ fd .WRITE
  return (p, k, true)

/-- `real_events` for the events that `epoll_wait` returned.
mirrors src/fiber/poller.cc:274-287 -/
def realEvents (events : Mask) : Mask :=
  let events := if events.has (EPOLLERR ||| EPOLLHUP) then events ||| (EPOLLIN ||| EPOLLOUT)
    else events
  let real_events := if events.has EPOLLOUT then Event.NONE.mask ||| Event.READ.mask
    else Event.NONE.mask
  if events.has EPOLLIN then real_events ||| Event.WRITE.mask else real_events

/-- One entry of the array: the context of `fd`, with the events returned for it.
mirrors src/fiber/poller.cc:270-315 -/
def dispatch (p : Poller Cb) (k : σ) (fd : Nat) (events : Mask) : Option (Poller Cb × σ) := do
  let fd_ctx ← p.m_fdContexts[fd]?
  let real_events := realEvents events
  if fd_ctx.events_ &&& real_events = Event.NONE.mask then return (p, k)
  let left_events := fd_ctx.events_ &&& ~~~real_events
  let op := if left_events = 0 then .DEL else .MOD
  let (rt, k) := ctl k fd_ctx.fd_ op (EPOLLET ||| left_events)
  if rt ≠ none then return (p, k)
  let p ← p.fireIf real_events fd .READ
  let p ← p.fireIf real_events fd .WRITE
  return (p, k)

/-! ## What the operations do -/

variable {ctl} {p p' : Poller Cb} {k k' : σ} {fd : Nat} {event : Event}

theorem addEvent_spec {cb : Cb} {rt : CtlResult}
    (h : addEvent ctl p k fd event cb = some (p', k', rt)) :
    ∃ c, (p.grow fd).m_fdContexts[fd]? = some c ∧
      ctl k fd (if c.events_ = 0 then .ADD else .MOD)
        (EPOLLET ||| event.mask ||| c.events_) = (rt, k') ∧
      (rt ≠ none ∧ p' = p.grow fd ∨ rt = none ∧ (p.grow fd).register fd event cb = some p') := by
  simp only [addEvent, Option.bind_eq_bind, Option.bind_eq_some_iff] at h
  obtain ⟨c, hc, h⟩ := h
  refine ⟨c, hc, ?_⟩
  generalize ctl k fd _ _ = res at h ⊢
  obtain ⟨rt', k₁⟩ := res
  cases rt' with
  | some e =>
    cases h
    exact ⟨rfl, .inl ⟨nofun, rfl⟩⟩
  | none =>
    obtain ⟨p₁, hp₁, h⟩ := Option.bind_eq_some_iff.mp h
    cases h
    exact ⟨rfl, .inr ⟨rfl, hp₁⟩⟩

theorem dropEvent_spec {good : CtlResult → Bool}
    {act : Poller Cb → Nat → Event → Option (Poller Cb)} {ok : Bool}
    (h : dropEvent ctl good act p k fd event = some (p', k', ok)) :
    (ok = false ∧ p' = p ∧ k' = k) ∨
    ∃ c rt, p.m_fdContexts[fd]? = some c ∧ c.events_.has event.mask = true ∧
      ctl k fd (if c.events_ &&& ~~~event.mask = 0 then .DEL else .MOD)
        (EPOLLET ||| (c.events_ &&& ~~~event.mask)) = (rt, k') ∧
      (good rt = false ∧ ok = false ∧ p' = p ∨
        good rt = true ∧ ok = true ∧ act p fd event = some p') := by
  simp only [dropEvent, Option.bind_eq_bind] at h
  by_cases hlen : p.m_fdContexts.length < fd
  · rw [if_pos hlen] at h
    cases h
    exact .inl ⟨rfl, rfl, rfl⟩
  · rw [if_neg hlen] at h
    obtain ⟨c, hc, h⟩ := Option.bind_eq_some_iff.mp h
    cases hbit : c.events_.has event.mask with
    | false =>
      rw [hbit, if_pos (by rfl)] at h
      cases h
      exact .inl ⟨rfl, rfl, rfl⟩
    | true =>
      rw [hbit, if_neg (by decide)] at h
      refine .inr ?_
      generalize hres : ctl k fd _ _ = res at h
      obtain ⟨rt, k₁⟩ := res
      refine ⟨c, rt, hc, hbit, ?_⟩
      cases hgood : good rt with
      | false =>
        simp only [hgood, Bool.not_false, if_true] at h
        cases h
        exact ⟨hres, .inl ⟨rfl, rfl, rfl⟩⟩
      | true =>
        simp only [hgood, Bool.not_true, Bool.false_eq_true, if_false] at h
        obtain ⟨p₁, hp₁, h⟩ := Option.bind_eq_some_iff.mp h
        cases h
        exact ⟨hres, .inr ⟨rfl, rfl, hp₁⟩⟩

theorem cancelAll_spec {ok : Bool} (h : cancelAll ctl p k fd = some (p', k', ok)) :
    (ok = false ∧ p' = p ∧ k' = k) ∨
    ∃ c rt, p.m_fdContexts[fd]? = some c ∧ ctl k fd .DEL 0 = (rt, k') ∧
      (rt ≠ none ∧ ok = false ∧ p' = p ∨
        rt = none ∧ ok = true ∧ ∃ p₁ c₁, p.fireIf c.events_ fd .READ = some p₁ ∧
          p₁.m_fdContexts[fd]? = some c₁ ∧ p₁.fireIf c₁.events_ fd .WRITE = some p') := by
  simp only [cancelAll, Option.bind_eq_bind] at h
  by_cases hlen : p.m_fdContexts.length < fd
  · rw [if_pos hlen] at h
    cases h
    exact .inl ⟨rfl, rfl, rfl⟩
  · rw [if_neg hlen] at h
    obtain ⟨c, hc, h⟩ := Option.bind_eq_some_iff.mp h
    refine .inr ?_
    generalize ctl k fd _ _ = res at h ⊢
    obtain ⟨rt, k₁⟩ := res
    refine ⟨c, rt, hc, ?_⟩
    cases rt with
    | some e =>
      cases h
      exact ⟨rfl, .inl ⟨nofun, rfl, rfl⟩⟩
    | none =>
      obtain ⟨p₁, hp₁, h⟩ := Option.bind_eq_some_iff.mp h
      obtain ⟨c₁, hc₁, h⟩ := Option.bind_eq_some_iff.mp h
      obtain ⟨p₂, hp₂, h⟩ := Option.bind_eq_some_iff.mp h
      cases h
      exact ⟨rfl, .inr ⟨rfl, rfl, p₁, c₁, hp₁, hc₁, hp₂⟩⟩

theorem dispatch_spec {events : Mask} (h : dispatch ctl p k fd events = some (p', k')) :
    (p' = p ∧ k' = k) ∨
    ∃ c rt, p.m_fdContexts[fd]? = some c ∧ c.events_ &&& realEvents events ≠ 0 ∧
      ctl k c.fd_ (if c.events_ &&& ~~~realEvents events = 0 then .DEL else .MOD)
        (EPOLLET ||| (c.events_ &&& ~~~realEvents events)) = (rt, k') ∧
      (rt ≠ none ∧ p' = p ∨
        rt = none ∧ ∃ p₁, p.fireIf (realEvents events) fd .READ = some p₁ ∧
          p₁.fireIf (realEvents events) fd .WRITE = some p') := by
  simp only [dispatch, Option.bind_eq_bind] at h
  obtain ⟨c, hc, h⟩ := Option.bind_eq_some_iff.mp h
  by_cases hreal : c.events_ &&& realEvents events = Event.NONE.mask
  · rw [if_pos hreal] at h
    cases h
    exact .inl ⟨rfl, rfl⟩
  · rw [if_neg hreal] at h
    refine .inr ?_
    generalize hres : ctl k _ _ _ = res at h
    obtain ⟨rt, k₁⟩ := res
    refine ⟨c, rt, hc, hreal, ?_⟩
    cases rt with
    | some e =>
      cases h
      exact ⟨hres, .inl ⟨nofun, rfl⟩⟩
    | none =>
      obtain ⟨p₁, hp₁, h⟩ := Option.bind_eq_some_iff.mp h
      obtain ⟨p₂, hp₂, h⟩ := Option.bind_eq_some_iff.mp h
      cases h
      exact ⟨hres, .inr ⟨rfl, p₁, hp₁, hp₂⟩⟩

end Operations

/-! ## The table -/

/-- The events of an fd; 0 outside the table. -/
def eventsOf (p : Poller Cb) (fd : Nat) : Mask := p.m_fdContexts[fd]?.elim 0 FdContext.events_

/-- The registered context of an event. -/
def waiting (p : Poller Cb) (x : Nat × Event) : Option (EventContext Cb) :=
  p.m_fdContexts[x.1]?.bind fun c => if c.events_.has x.2.mask then c.getContext x.2 else none

theorem eventsOf_eq {p : Poller Cb} {fd : Nat} {c : FdContext Cb}
    (h : p.m_fdContexts[fd]? = some c) : p.eventsOf fd = c.events_ := by
  rw [eventsOf, h]
  rfl

theorem waiting_eq {p : Poller Cb} {fd : Nat} {c : FdContext Cb} {e : Event}
    (h : p.m_fdContexts[fd]? = some c) :
    p.waiting (fd, e) = if c.events_.has e.mask then c.getContext e else none := by
  rw [waiting, h]
  rfl

theorem waiting_eq_none (p : Poller Cb) (fd : Nat) (e : Event) :
    p.waiting (fd, e) = none ↔ (p.eventsOf fd).has e.mask = false := by
  unfold waiting eventsOf
  cases p.m_fdContexts[fd]? with
  | none => simp [Mask.has]
  | some c => cases e <;> simp [FdContext.getContext, Mask.has_event]

theorem new_get {sche fd : Nat} {c : FdContext Cb}
    (h : (new sche : Poller Cb).m_fdContexts[fd]? = some c) : c = FdContext.new fd := by
  change ((List.range' 0 64).map FdContext.new)[fd]? = some c at h
  rw [List.getElem?_map, Option.map_eq_some_iff] at h
  obtain ⟨i, hi, rfl⟩ := h
  obtain ⟨hlt, hi⟩ := List.getElem?_eq_some_iff.mp hi
  rw [List.getElem_range'] at hi
  congr 1
  omega

theorem new_eventsOf (sche : Nat) : (new sche : Poller Cb).eventsOf = fun _ => 0 := by
  funext fd
  cases h : (new sche : Poller Cb).m_fdContexts[fd]? with
  | none => rw [eventsOf, h]; rfl
  | some c => rw [eventsOf_eq h, new_get h]; rfl

section Put
variable (p : Poller Cb) {fd : Nat} {c₀ c : FdContext Cb} (n : Int)
  (h : p.m_fdContexts[fd]? = some c₀)
include h

theorem put_get (fd' : Nat) : (p.put fd c n).m_fdContexts[fd']? =
    if fd' = fd then some c else p.m_fdContexts[fd']? := by
  obtain ⟨hlt, -⟩ := List.getElem?_eq_some_iff.mp h
  unfold put
  by_cases hfd : fd' = fd
  · subst hfd
    rw [if_pos rfl, List.getElem?_set_self hlt]
  · rw [if_neg hfd, List.getElem?_set_ne (Ne.symm hfd)]

theorem put_eventsOf : (p.put fd c n).eventsOf = Function.update p.eventsOf fd c.events_ := by
  funext fd'
  unfold eventsOf
  rw [put_get p n h]
  by_cases hfd : fd' = fd
  · subst hfd
    rw [if_pos rfl, Function.update_self]
    rfl
  · rw [if_neg hfd, Function.update_of_ne hfd]

/-- A change of one context changes what is registered for the one event `e`. -/
theorem put_waiting {e : Event} (w : Option (EventContext Cb))
    (hc : ∀ e', (if c.events_.has e'.mask then c.getContext e' else none) =
      if e' = e then w else if c₀.events_.has e'.mask then c₀.getContext e' else none) :
    (p.put fd c n).waiting = Function.update p.waiting (fd, e) w := by
  funext x
  obtain ⟨fd', e'⟩ := x
  by_cases hfd : fd' = fd
  · subst hfd
    rw [waiting_eq (c := c) (by rw [put_get p n h, if_pos rfl]), hc]
    by_cases he : e' = e
    · subst he
      rw [if_pos rfl, Function.update_self]
    · rw [if_neg he, Function.update_of_ne (by simp [he]), waiting_eq h]
  · rw [Function.update_of_ne (by simp [hfd])]
    unfold waiting
    rw [put_get p n h, if_neg hfd]

end Put

/-! ## Registering, firing, removing -/

section Primitives
variable {p p' : Poller Cb} {fd : Nat} {e : Event}

/-- What one of the three changes does to the registered events. -/
structure Change (p p' : Poller Cb) (fd : Nat) (e : Event) (w : Option (EventContext Cb))
    (events : Mask) : Prop where
  ne_none : e ≠ .NONE
  lt : fd < p.m_fdContexts.length
  waiting : p'.waiting = Function.update p.waiting (fd, e) w
  eventsOf : p'.eventsOf = Function.update p.eventsOf fd events
  sche : p'.m_sche = p.m_sche
  fd_ : ∀ (fd' : Nat) (c' : FdContext Cb), p'.m_fdContexts[fd']? = some c' →
    ∃ c : FdContext Cb, p.m_fdContexts[fd']? = some c ∧ c'.fd_ = c.fd_
  length : p'.m_fdContexts.length = p.m_fdContexts.length

theorem Change.of_put {c₀ c : FdContext Cb} {n : Int} {w : Option (EventContext Cb)}
    {created : List (Nat × Option Cb)} {events : Mask} (h : p.m_fdContexts[fd]? = some c₀)
    (he : e ≠ .NONE) (hfd : c.fd_ = c₀.fd_) (hev : c.events_ = events)
    (hc : ∀ e', (if c.events_.has e'.mask then c.getContext e' else none) =
      if e' = e then w else if c₀.events_.has e'.mask then c₀.getContext e' else none) :
    Change p { p.put fd c n with created := created } fd e w events where
  ne_none := he
  lt := (List.getElem?_eq_some_iff.mp h).1
  waiting := put_waiting p n h w hc
  eventsOf := by
    rw [← hev]
    exact put_eventsOf p n h
  sche := rfl
  fd_ fd' c' hc' := by
    change (p.put fd c n).m_fdContexts[fd']? = some c' at hc'
    rw [put_get p n h] at hc'
    by_cases hfd' : fd' = fd
    · rw [if_pos hfd'] at hc'
      cases hc'
      exact ⟨c₀, by rw [hfd', h], hfd⟩
    · rw [if_neg hfd'] at hc'
      exact ⟨c', hc', rfl⟩
  length := List.length_set

/-- No context is that of `NONE`. -/
theorem ne_none_of_getContext {c : FdContext Cb} {e : Event} {ctx : EventContext Cb}
    (h : c.getContext e = some ctx) : e ≠ .NONE := by
  intro heq
  subst heq
  cases h

theorem register_spec {cb : Cb} (h : p.register fd e cb = some p') :
    Change p p' fd e (some ⟨some p.m_sche, some cb⟩) (p.eventsOf fd ||| e.mask) ∧
    p'.m_pendingEventCount = p.m_pendingEventCount + 1 ∧ p'.created = p.created := by
  simp only [register, Option.bind_eq_bind, Option.bind_eq_some_iff] at h
  obtain ⟨c, hc, ctx, hctx, h⟩ := h
  cases h
  refine ⟨?_, rfl, rfl⟩
  rw [eventsOf_eq hc]
  refine Change.of_put hc (ne_none_of_getContext hctx) (by simp) (by simp) fun e' => ?_
  rw [FdContext.setContext_events, Mask.has_or, Event.mask_has]
  cases e <;> cases e' <;> simp_all [FdContext.setContext, FdContext.getContext]

theorem remove_spec (h : p.remove fd e = some p') :
    Change p p' fd e none (p.eventsOf fd &&& ~~~e.mask) ∧
    p'.m_pendingEventCount = p.m_pendingEventCount - 1 ∧ p'.created = p.created := by
  simp only [remove, Option.bind_eq_bind, Option.bind_eq_some_iff] at h
  obtain ⟨c, hc, ctx, hctx, h⟩ := h
  cases h
  refine ⟨?_, rfl, rfl⟩
  rw [eventsOf_eq hc]
  refine Change.of_put hc (ne_none_of_getContext hctx) (by simp) (by simp) fun e' => ?_
  rw [FdContext.setContext_events, Mask.has_andNot, Event.mask_has]
  cases e <;> cases e' <;> simp_all [FdContext.setContext, FdContext.getContext]

/-- `fire` on an event that is not registered is also covered: what it hands
over then is whatever the context still holds. -/
theorem fire_spec (h : p.fire fd e = some p') :
    Change p p' fd e none (p.eventsOf fd &&& ~~~e.mask) ∧
    p'.m_pendingEventCount = p.m_pendingEventCount - 1 ∧
    ∃ c ctx s, p.m_fdContexts[fd]? = some c ∧ c.getContext e = some ctx ∧
      ctx.scheduler_ = some s ∧ p'.created = p.created ++ [(s, ctx.cb_)] := by
  simp only [fire, FdContext.triggerEvent, Option.bind_eq_bind, Option.bind_eq_some_iff] at h
  obtain ⟨c, hc, r, ⟨ctx, hctx, s, hs, hr⟩, h⟩ := h
  cases hr
  cases h
  refine ⟨?_, rfl, c, ctx, s, hc, hctx, hs, rfl⟩
  rw [eventsOf_eq hc]
  refine Change.of_put hc (ne_none_of_getContext hctx) rfl rfl fun e' => ?_
  rw [Mask.has_andNot, Event.mask_has]
  cases e <;> cases e' <;> simp_all [FdContext.getContext]

theorem fireIf_eventsOf {mask : Mask} (h : p.fireIf mask fd e = some p') :
    p'.eventsOf = Function.update p.eventsOf fd
      (if mask.has e.mask then p.eventsOf fd &&& ~~~e.mask else p.eventsOf fd) := by
  unfold fireIf at h
  split at h
  · rename_i hm
    rw [if_pos hm]
    exact (fire_spec h).1.eventsOf
  · rename_i hm
    cases h
    rw [if_neg hm, Function.update_eq_self]

end Primitives

/-- Growing the table adds new contexts and leaves the others alone. -/
theorem grow_get (p : Poller Cb) (fd fd' : Nat) :
    (p.grow fd).m_fdContexts[fd']? = p.m_fdContexts[fd']? ∨
    p.m_fdContexts[fd']? = none ∧ (p.grow fd).m_fdContexts[fd']? = some (FdContext.new fd') := by
  unfold grow
  by_cases hlen : p.m_fdContexts.length < fd
  · rw [if_pos hlen, resize, List.take_of_length_le (by omega)]
    by_cases hin : fd' < p.m_fdContexts.length
    · exact .inl (List.getElem?_append_left hin)
    · rw [List.getElem?_append_right (by omega), List.getElem?_eq_none (Nat.le_of_not_lt hin),
        List.getElem?_map]
      by_cases hnew : fd' - p.m_fdContexts.length < fd * 2 - p.m_fdContexts.length
      · refine .inr ⟨rfl, ?_⟩
        rw [List.getElem?_range' hnew, Option.map_some]
        congr 2
        omega
      · exact .inl (by rw [List.getElem?_eq_none (by simpa using hnew)]; rfl)
  · exact .inl (by rw [if_neg hlen])

theorem grow_eventsOf (p : Poller Cb) (fd : Nat) : (p.grow fd).eventsOf = p.eventsOf := by
  funext fd'
  unfold eventsOf
  rcases grow_get p fd fd' with h | ⟨h0, h⟩
  · rw [h]
  · rw [h, h0]
    rfl

theorem grow_waiting (p : Poller Cb) (fd : Nat) : (p.grow fd).waiting = p.waiting := by
  funext x
  unfold waiting
  rcases grow_get p fd x.1 with h | ⟨h0, h⟩
  · rw [h]
  · rw [h, h0]
    have hnone : (Event.NONE.mask).has x.2.mask = false := by rw [Event.mask_has]; simp
    simp [FdContext.new, hnone]

theorem grow_frame (p : Poller Cb) (fd : Nat) : (p.grow fd).m_sche = p.m_sche ∧
    (p.grow fd).created = p.created ∧
    (p.grow fd).m_pendingEventCount = p.m_pendingEventCount := by
  unfold grow
  split <;> exact ⟨rfl, rfl, rfl⟩

end Poller
end Ppcode
