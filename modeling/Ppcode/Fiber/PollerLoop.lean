import Ppcode.Fiber.PollerTimeout
import Ppcode.Fiber.TimerWake

/-!
# The poller's loop and its pipe

`networkPoller` sleeps in `epoll_wait`; `notify` writes a byte to `m_pipe` to wake it. The read
end is in the interest list with `EPOLLET`: a write makes the event ready, and the `epoll_wait`
that returns it makes it unready. Both ends are non-blocking: a write to a full pipe fails, and
the assertion of `notify` ends the process.

The threads that use the timer are those of `Users`, and `notify` is their call of
`onTimerInsertedAtFront`; the scheduler's `stop` calls it once more. The loop makes the steps of
the poller there. `epoll_wait` returns at most 1024 events; `crowded` counts the rounds, since
the pipe was last emptied, in which that of the pipe was ready and was not among them.

* `users_step`: a call of `onTimerInsertedAtFront` takes the place of a clear `m_tickled`.
* `notify_writes`: how many bytes there can be in the pipe, and so when a write can fail.
* `reachable_users`: the loop is the poller of `Users`.
* `wakes`: in `epoll_wait`, with nothing ready, the poller does not sleep through a deadline
  unless a thread is about to write its byte.
-/
namespace Ppcode
open Timer (Users UserPc)

/-- Control point of `networkPoller`. -/
inductive LoopPc where
  /-- `getNextExecuteTime` is called next (:221) -/
  | top
  /-- the first test of `stopping` (:224) -/
  | test (next_timeout : UInt64)
  /-- in `epoll_wait` (:234) -/
  | wait (timeout : Int32)
  /-- the second test (:240); `piped`: the pipe's event was returned -/
  | back (piped : Bool)
  /-- in `getExecuteTask` (:251) -/
  | timers (piped : Bool)
  /-- the loop over the events, and that over the bytes (:266) -/
  | events (piped : Bool)
  | exited
  deriving DecidableEq

/-- What `epoll_wait` comes back with; `crowded`: 1024 events, and the pipe's stays ready. -/
inductive Woken where
  | eintr
  | events
  | crowded
  deriving DecidableEq

/-- `pipe`: the bytes in `m_pipe`; `ready`: `epoll_wait` has its event to return; `stopping`:
`stopping() && m_sche->isStopping()`; `stopped`: `stop` has called `notify`. -/
structure PollerLoop (C : Type) (n : Nat) where
  users : Users C n
  pc : LoopPc
  pipe : Nat
  ready : Bool
  crowded : Nat
  stopping : Bool
  stopped : Bool
  aborted : Bool

namespace PollerLoop
variable {C : Type} {n : Nat}

inductive Act (C : Type) (n : Nat) where
  | user (act : Users.Act C n)
  /-- `a` is the address of `now_task`, `woken` what `epoll_wait` returns -/
  | loop (a : Nat) (woken : Woken)
  /-- `m_state` of poller and scheduler say stop -/
  | halt
  /-- scheduler.cc:139 -/
  | stop

/-- The thread calls `onTimerInsertedAtFront`. -/
def notifies (u : Users C n) : Users.Act C n → Bool
  | .go i => decide (u.pc i = .notify)
  | _ => false

section Step
variable (capacity : Nat) (s : PollerLoop C n)

/-- mirrors src/fiber/poller.cc:327-331 -/
def notify : PollerLoop C n :=
  if s.pipe < capacity then { s with pipe := s.pipe + 1, ready := true }
  else { s with aborted := true }


/-- mirrors src/fiber/timer.cc and src/fiber/poller.cc:323-325 -/
def userStep (act : Users.Act C n) : Option (PollerLoop C n) :=
  match act with
  | .getNextExecuteTime | .getExecuteTask _ => none
  | act => (s.users.step act).map fun u =>
    if notifies s.users act then notify capacity { s with users := u } else { s with users := u }

/-- `epoll_wait` has an event of the pipe to return: it is ready, and still has bytes. -/
def due : Bool := s.ready && decide (0 < s.pipe)

/-- mirrors src/fiber/poller.cc:220-269 -/
def loopStep (a : Nat) (woken : Woken) : Option (PollerLoop C n) :=
  match s.pc with
  | .top => (s.users.step .getNextExecuteTime).map fun u =>
    { s with users := u, pc := .test (s.users.t.getNextExecuteTime s.users.clock).2 }
  | .test next_timeout =>
    some { s with pc := if s.stopping then .exited else .wait (epollTimeout next_timeout) }
  | .wait _ =>
    match woken with
    | .eintr => if s.due then none else some { s with pc := .top }
    | .events => some { s with pc := .back s.due, ready := false }
    | .crowded =>
      if s.due then some { s with pc := .back false, crowded := s.crowded + 1 } else none
  | .back piped => some { s with pc := if s.stopping then .exited else .timers piped }
  | .timers piped => (s.users.step (.getExecuteTask a)).map fun u =>
    { s with users := u, pc := if u.poller = .idle then .events piped else .timers piped }
  | .events piped =>
    if piped then
      if 0 < s.pipe then some { s with pipe := s.pipe - 1 }
      else some { s with pc := .top, crowded := 0 }
    else some { s with pc := .top }
  | .exited => none

def step (act : Act C n) : Option (PollerLoop C n) :=
  if s.aborted then none
  else
    match act with
    | .user act => s.userStep capacity act
    | .loop a woken => s.loopStep a woken
    | .halt => some { s with stopping := true }
    | .stop => if s.stopped then none else some (notify capacity { s with stopped := true })

end Step

def init (now : UInt64) : PollerLoop C n where
  users := .init now
  pc := .top
  pipe := 0
  ready := false
  crowded := 0
  stopping := false
  stopped := false
  aborted := false

def lts (C : Type) (n capacity : Nat) : LTS (PollerLoop C n) (Act C n) :=
  LTS.ofFn (fun s => ∃ now, s = init now) (step capacity)

/-! ## The threads that use the timer -/

/-- The threads that are about to call `onTimerInsertedAtFront`, and one more if `m_tickled` is
clear. -/
def credit (u : Users C n) : Nat :=
  tsum (fun p => if p = UserPc.notify then 1 else 0) u.pc + if u.t.m_tickled then 0 else 1

theorem credit_le (u : Users C n) : credit u ≤ n + if u.t.m_tickled then 0 else 1 := by
  refine Nat.add_le_add_right ?_ _
  calc tsum (fun p => if p = UserPc.notify then 1 else 0) u.pc
      ≤ tsum (fun _ => 1) u.pc := tsum_mono (fun p => by split <;> omega) u.pc
    _ = n := by simp [tsum]

section Users
variable {u u' : Users C n} {t t' : Timer C}

theorem addTimerTask_tickled (t : Timer C) (a : Nat) :
    ((if (t.addTimerTask a).1.m_tickled then 0 else 1) + if (t.addTimerTask a).2 then 1 else 0) =
      if t.m_tickled then 0 else 1 := by
  by_cases hfront : (t.insert a).m_tasks.head? = some a
  · cases ht : t.m_tickled <;> simp [Timer.addTimerTask, Timer.insert, ht] at hfront ⊢
    simp [hfront]
  · simp [Timer.addTimerTask, hfront]
    rfl

theorem cancel_tickled {a : Nat} {ok : Bool} (h : t.cancel a = some (t', ok)) :
    t'.m_tickled = t.m_tickled := by
  unfold Timer.cancel at h
  obtain ⟨task, -, h⟩ := Option.bind_eq_some_iff.mp h
  split at h
  · cases h
    rfl
  · obtain ⟨it, -, h⟩ := Option.bind_eq_some_iff.mp h
    cases h
    rfl

theorem refresh_tickled {a : Nat} {now : UInt64} {ok : Bool}
    (h : t.refresh a now = some (t', ok)) : t'.m_tickled = t.m_tickled := by
  unfold Timer.refresh at h
  obtain ⟨task, -, h⟩ := Option.bind_eq_some_iff.mp h
  split at h
  · cases h
    rfl
  · split at h <;> cases h <;> rfl

theorem resetLocked_tickled {a : Nat} {ms now : UInt64} {from_now ok front : Bool}
    (h : t.resetLocked a ms from_now now = some (t', ok, front)) :
    ((if t'.m_tickled then 0 else 1) + if front then 1 else 0) = if t.m_tickled then 0 else 1 := by
  unfold Timer.resetLocked at h
  obtain ⟨task, -, h⟩ := Option.bind_eq_some_iff.mp h
  split at h
  · cases h
    rfl
  · split at h
    · cases h
      rfl
    · cases h
      exact addTimerTask_tickled _ a

/-- A thread goes on to `p`. -/
theorem credit_at {i : Fin n} {p : UserPc} (hpc : u'.pc = u.at_ i p)
    (h : ((if u'.t.m_tickled then 0 else 1) + if p = .notify then 1 else 0) =
      (if u.t.m_tickled then 0 else 1) + if u.pc i = .notify then 1 else 0) :
    credit u' = credit u := by
  have hsum := tsum_update (fun p => if p = UserPc.notify then 1 else 0) u.pc i p
  unfold credit
  rw [hpc]
  change tsum _ (Function.update u.pc i p) + _ = _
  omega

theorem credit_same (hpc : u'.pc = u.pc) (ht : u'.t.m_tickled = u.t.m_tickled) :
    credit u' = credit u := by
  unfold credit
  rw [hpc, ht]

theorem credit_go {i : Fin n} (h : u.goStep i = some u') :
    credit u' + (if u.pc i = .notify then 1 else 0) = credit u := by
  unfold Users.goStep at h
  have hsum (p : UserPc) := tsum_update (fun p => if p = UserPc.notify then 1 else 0) u.pc i p
  cases hi : u.pc i with
  | idle =>
    simp only [hi] at h
    cases h
  | insert a =>
    simp only [hi] at h
    cases h
    refine credit_at rfl ?_
    have ht := addTimerTask_tickled u.t a
    simp only [hi, reduceCtorEq, if_false]
    cases hfront : (u.t.addTimerTask a).2 <;> simpa [hfront] using ht
  | resetLock a ms from_now =>
    simp only [hi] at h
    obtain ⟨⟨t, ok, front⟩, hop, rfl⟩ := Option.map_eq_some_iff.mp h
    refine credit_at rfl ?_
    have ht := resetLocked_tickled hop
    simp only [hi, reduceCtorEq, if_false]
    cases front <;> simpa using ht
  | notify =>
    simp only [hi] at h
    cases h
    have hidle := hsum .idle
    simp only [hi, reduceCtorEq, if_true, if_false] at hidle ⊢
    unfold credit
    change tsum _ (Function.update u.pc i .idle) + (if u.t.m_tickled then 0 else 1) + 1 = _
    omega

/-- A call of `onTimerInsertedAtFront` costs one credit, and nothing else changes it. -/
theorem users_step {act : Users.Act C n} (h : u.step act = some u')
    (hnext : act ≠ .getNextExecuteTime) :
    credit u' + (if notifies u act then 1 else 0) = credit u := by
  cases act with
  | tick now =>
    simp only [Users.step, Option.ite_none_right_eq_some, Option.some.injEq] at h
    obtain ⟨-, rfl⟩ := h
    exact credit_same rfl rfl
  | createTimer i a cb ms recurring =>
    simp only [Users.step, Option.ite_none_right_eq_some, Option.some.injEq] at h
    obtain ⟨⟨hi, -⟩, rfl⟩ := h
    exact credit_at rfl (by rw [hi]; rfl)
  | cancel i a =>
    simp only [Users.step, Option.ite_none_right_eq_some] at h
    obtain ⟨⟨t, ok⟩, hop, rfl⟩ := Option.map_eq_some_iff.mp h.2
    exact credit_same rfl (cancel_tickled hop)
  | refresh i a =>
    simp only [Users.step, Option.ite_none_right_eq_some] at h
    obtain ⟨⟨t, ok⟩, hop, rfl⟩ := Option.map_eq_some_iff.mp h.2
    exact credit_same rfl (refresh_tickled hop)
  | reset i a ms from_now =>
    simp only [Users.step, Option.ite_none_right_eq_some] at h
    obtain ⟨⟨hi, -⟩, h⟩ := h
    obtain ⟨task, -, rfl⟩ := Option.map_eq_some_iff.mp h
    split
    · rfl
    · exact credit_at rfl (by rw [hi]; rfl)
  | go i =>
    have hgo := credit_go h
    simpa [notifies] using hgo
  | getNextExecuteTime => exact absurd rfl hnext
  | getExecuteTask a =>
    simp only [Users.step, Option.ite_none_right_eq_some, Option.some.injEq] at h
    obtain ⟨-, rfl⟩ := h
    unfold Users.pollerStep
    split
    · exact credit_same rfl rfl
    · exact credit_same rfl rfl
    · exact credit_same rfl (Timer.getExecuteTask_tickled ..)
  | free a =>
    simp only [Users.step, Option.ite_none_left_eq_some, Option.some.injEq] at h
    obtain ⟨-, rfl⟩ := h
    exact credit_same rfl rfl

/-- `getNextExecuteTime` clears `m_tickled`. -/
theorem credit_next (h : u.step .getNextExecuteTime = some u') : credit u' ≤ credit u + 1 := by
  simp only [Users.step, Option.ite_none_right_eq_some, Option.some.injEq] at h
  obtain ⟨-, rfl⟩ := h
  unfold credit
  rw [Timer.getNextExecuteTime_fst]
  simp only [Bool.false_eq_true, if_false]
  split <;> omega

end Users

/-! ## The bytes in the pipe -/

/-- The pipe's event has been returned, and not looked at yet. -/
def piped : LoopPc → Bool
  | .back piped | .timers piped | .events piped => piped
  | _ => false

/-- The poller has not cleared `m_tickled` since it found the pipe empty, or has. -/
def slack : LoopPc → Nat
  | .top | .back false | .timers false | .events false => 2
  | _ => 3

/-- The bytes written and those to come, as long as the poller does not clear `m_tickled`. -/
def load (s : PollerLoop C n) : Nat := s.pipe + credit s.users + if s.stopped then 0 else 1

structure Inv (capacity : Nat) (s : PollerLoop C n) : Prop where
  fresh : 0 < s.pipe → s.ready = true ∨ piped s.pc = true ∨ s.pc = .exited
  bound : s.load ≤ n + slack s.pc + s.crowded
  full : s.aborted = true → capacity ≤ n + 2 + s.crowded

theorem slack_le (pc : LoopPc) : 2 ≤ slack pc ∧ slack pc ≤ 3 := by
  unfold slack
  split <;> omega

section Inv
variable {capacity : Nat} {s s' : PollerLoop C n}

theorem load_empty (h : s.pipe = 0) : s.load ≤ n + 2 := by
  have hcredit := credit_le s.users
  unfold load
  rw [h]
  split at hcredit <;> split <;> omega

theorem inv_init (now : UInt64) : (init now : PollerLoop C n).Inv capacity where
  fresh h := absurd h (Nat.lt_irrefl 0)
  bound := load_empty rfl
  full h := by cases h

theorem step_user {act : Users.Act C n} (hst : s.userStep capacity act = some s') :
    ∃ u, s.users.step act = some u ∧ act ≠ .getNextExecuteTime ∧
      s' = if notifies s.users act then notify capacity { s with users := u }
        else { s with users := u } := by
  unfold userStep at hst
  split at hst
  · cases hst
  · cases hst
  · next hne _ =>
    obtain ⟨u, hu, rfl⟩ := Option.map_eq_some_iff.mp hst
    exact ⟨u, hu, hne, rfl⟩

/-- A byte is written for which there was a credit. -/
theorem inv_notify (hfresh : 0 < s.pipe → s.ready = true ∨ piped s.pc = true ∨ s.pc = .exited)
    (hbound : s.load + 1 ≤ n + slack s.pc + s.crowded) (hlive : s.aborted = false) :
    (s.notify capacity).Inv capacity := by
  have hslack := (slack_le s.pc).2
  unfold notify
  split
  · refine ⟨fun _ => .inl rfl, ?_, fun h => ?_⟩
    · unfold load at hbound ⊢
      simp only
      omega
    · rw [hlive] at h
      cases h
  · next hfull =>
    refine ⟨hfresh, ?_, fun _ => ?_⟩
    · exact (Nat.le_succ _).trans hbound
    · unfold load at hbound
      simp only
      omega

theorem inv_user {act : Users.Act C n} (h : s.Inv capacity) (hlive : s.aborted = false)
    (hst : s.userStep capacity act = some s') : s'.Inv capacity := by
  obtain ⟨u, hu, hnext, rfl⟩ := step_user hst
  have hcredit := users_step hu hnext
  have hbound := h.bound
  unfold load at hbound
  split
  · next hn =>
    rw [hn, if_pos rfl] at hcredit
    refine inv_notify h.fresh ?_ hlive
    unfold load
    simp only
    omega
  · next hn =>
    rw [if_neg hn] at hcredit
    refine ⟨h.fresh, ?_, h.full⟩
    unfold load
    simp only
    omega

theorem full_of_live (hlive : s.aborted = false) (k : Nat) : s.aborted = true → capacity ≤ k := by
  intro hc
  rw [hlive] at hc
  cases hc

/-- `epoll_wait` returns. -/
theorem inv_wait {a : Nat} {timeout : Int32} {woken : Woken} (h : s.Inv capacity)
    (hlive : s.aborted = false) (hpc : s.pc = .wait timeout)
    (hst : s.loopStep a woken = some s') : s'.Inv capacity := by
  have hfresh := h.fresh
  have hbound := h.bound
  unfold loopStep at hst
  simp only [hpc] at hst hfresh hbound
  have hready (hp : 0 < s.pipe) : s.ready = true := (hfresh hp).resolve_right (by simp [piped])
  have hempty (hdue : s.due = false) : s.pipe = 0 := by
    by_contra hp
    have hp := Nat.pos_of_ne_zero hp
    simp [due, hready hp, hp] at hdue
  cases woken with
  | eintr =>
    simp only [Option.ite_none_left_eq_some, Option.some.injEq, Bool.not_eq_true] at hst
    obtain ⟨hdue, rfl⟩ := hst
    refine ⟨fun hp => .inl (hready hp), ?_, full_of_live hlive _⟩
    exact (load_empty (s := s) (hempty hdue)).trans (Nat.le_add_right _ _)
  | events =>
    cases hst
    cases hdue : s.due with
    | true => exact ⟨fun _ => .inr (.inl rfl), hbound, full_of_live hlive _⟩
    | false =>
      refine ⟨fun hp => absurd (hempty hdue) hp.ne', ?_, full_of_live hlive _⟩
      exact (load_empty (s := s) (hempty hdue)).trans (Nat.le_add_right _ _)
  | crowded =>
    simp only [Option.ite_none_right_eq_some, Option.some.injEq] at hst
    obtain ⟨-, rfl⟩ := hst
    refine ⟨fun hp => .inl (hready hp), ?_, full_of_live hlive _⟩
    unfold load at hbound ⊢
    simp only [slack] at hbound ⊢
    omega

theorem inv_loop {a : Nat} {woken : Woken} (h : s.Inv capacity) (hlive : s.aborted = false)
    (hst : s.loopStep a woken = some s') : s'.Inv capacity := by
  have hfresh := h.fresh
  have hbound := h.bound
  have hwhole := hst
  unfold loopStep at hst
  cases hpc : s.pc with
  | top =>
    simp only [hpc] at hst hfresh hbound
    obtain ⟨u, hu, rfl⟩ := Option.map_eq_some_iff.mp hst
    have hcredit := credit_next hu
    refine ⟨fun hp => .inl ((hfresh hp).resolve_right (by simp [piped])), ?_, full_of_live hlive _⟩
    unfold load at hbound ⊢
    simp only [slack] at hbound ⊢
    omega
  | test next_timeout =>
    simp only [hpc] at hst hfresh hbound
    cases hst
    refine ⟨fun hp => .inl ((hfresh hp).resolve_right (by simp [piped])), ?_, full_of_live hlive _⟩
    have hslack : slack (if s.stopping then .exited else .wait (epollTimeout next_timeout)) = 3 := by
      split <;> rfl
    simp only [slack] at hbound
    simp only [hslack]
    exact hbound
  | wait timeout => exact inv_wait h hlive hpc hwhole
  | back p =>
    simp only [hpc] at hst hfresh hbound
    cases hst
    cases hs : s.stopping with
    | true =>
      refine ⟨fun _ => .inr (.inr rfl), hbound.trans ?_, full_of_live hlive _⟩
      have hslack := (slack_le (.back p)).2
      simp only [if_true, show slack .exited = 3 from rfl]
      omega
    | false =>
      refine ⟨fun hp => ?_, hbound.trans ?_, full_of_live hlive _⟩
      · exact (hfresh hp).imp_right fun h => .inl (h.resolve_right (by simp))
      · cases p <;> exact le_refl _
  | timers p =>
    simp only [hpc] at hst hfresh hbound
    obtain ⟨u, hu, rfl⟩ := Option.map_eq_some_iff.mp hst
    have hcredit := users_step hu (by simp)
    simp only [notifies, Bool.false_eq_true, if_false] at hcredit
    have hsame : slack (if u.poller = .idle then .events p else .timers p) = slack (.timers p) := by
      split <;> cases p <;> rfl
    refine ⟨fun hp => ?_, ?_, full_of_live hlive _⟩
    · refine (hfresh hp).imp_right fun h => .inl ?_
      have hpiped := h.resolve_right (by simp)
      split <;> exact hpiped
    · unfold load at hbound ⊢
      simp only [hsame]
      omega
  | events p =>
    simp only [hpc] at hst hfresh hbound
    cases p with
    | false =>
      cases hst
      refine ⟨fun hp => .inl ((hfresh hp).resolve_right (by simp [piped])), hbound, ?_⟩
      exact full_of_live hlive _
    | true =>
      simp only [if_true] at hst
      split at hst
      · next hp =>
        cases hst
        refine ⟨fun _ => .inr (.inl rfl), ?_, full_of_live hlive _⟩
        unfold load at hbound ⊢
        simp only
        omega
      · next hp =>
        cases hst
        have hzero : s.pipe = 0 := by omega
        refine ⟨fun hp' => absurd hzero hp'.ne', ?_, full_of_live hlive _⟩
        exact load_empty (s := s) hzero
  | exited =>
    simp only [hpc] at hst
    cases hst

theorem inv_step {act : Act C n} (h : s.Inv capacity) (hst : s.step capacity act = some s') :
    s'.Inv capacity := by
  simp only [step, Option.ite_none_left_eq_some, Bool.not_eq_true] at hst
  obtain ⟨hlive, hst⟩ := hst
  cases act with
  | user act => exact inv_user h hlive hst
  | loop a woken => exact inv_loop h hlive hst
  | halt =>
    cases hst
    exact ⟨h.fresh, h.bound, h.full⟩
  | stop =>
    simp only [Option.ite_none_left_eq_some, Bool.not_eq_true, Option.some.injEq] at hst
    obtain ⟨hnot, rfl⟩ := hst
    refine inv_notify h.fresh ?_ hlive
    have hbound := h.bound
    unfold load at hbound ⊢
    rw [hnot] at hbound
    simpa using hbound

end Inv

/-- `n` threads use the timer, and `stop` may be called. The bytes in the pipe are at most three
more than the threads, and one more for each round since the pipe was last emptied that had no
room for its event; so no write fails on a pipe that holds as many. -/
theorem notify_writes (C : Type) (n capacity : Nat) (s : PollerLoop C n)
    (hr : (lts C n capacity).Reachable s) :
    s.pipe ≤ n + 3 + s.crowded ∧ (s.aborted = true → capacity ≤ n + 2 + s.crowded) := by
  have hind : (lts C n capacity).Inductive (Inv capacity) := by
    refine ⟨fun s hs => ?_, fun s act s' h hst => inv_step h hst⟩
    obtain ⟨now, rfl⟩ := hs
    exact inv_init now
  have hinv := hind.reachable s hr
  have hbound := hinv.bound
  have hslack := (slack_le s.pc).2
  unfold load at hbound
  exact ⟨by omega, hinv.full⟩

/-- A thread puts a task in front of the set. -/
def put (i : Fin 1) (a : Nat) : List (Act Nat 1) :=
  [.user (.createTimer i a (some 0) 0 false), .user (.go i)]

/-- The steps of the poller are those of one round, and the next `getNextExecuteTime`. -/
def filling (i : Fin 1) : List (Act Nat 1) :=
  put i 5 ++ List.replicate 3 (.loop 9 .events) ++ [.user (.go i)] ++ put i 4 ++
    [.user (.go i), .stop] ++ List.replicate 6 (.loop 9 .events) ++ put i 3 ++ [.user (.go i)]

/-- One thread can fill a pipe that holds three bytes. -/
theorem notify_writes_least : ∃ s, (lts Nat 1 3).Reachable s ∧ s.aborted = true ∧
    s.crowded = 0 ∧ s.pipe ≤ 4 := by
  have hrun : (LTS.exec (step 3) (init 0 : PollerLoop Nat 1) (filling 0)).any
      (fun s => decide (s.aborted = true ∧ s.crowded = 0)) = true := by decide +kernel
  obtain ⟨s, hs, hb⟩ : ∃ s, (lts Nat 1 3).Reachable s ∧ decide
      (s.aborted = true ∧ s.crowded = 0) = true := LTS.exists_of_exec _ ⟨0, rfl⟩ hrun
  obtain ⟨habort, hcrowded⟩ := of_decide_eq_true hb
  have hpipe := (notify_writes Nat 1 3 s hs).1
  rw [hcrowded] at hpipe
  exact ⟨s, hs, habort, hcrowded, hpipe⟩

/-! ## The poller of `Users` -/

/-- The step of `Users` that this one makes, if any. -/
def usersAct (s : PollerLoop C n) : Act C n → Option (Users.Act C n)
  | .user act => some act
  | .loop a _ =>
    match s.pc with
    | .top => some .getNextExecuteTime
    | .timers _ => some (.getExecuteTask a)
    | _ => none
  | .halt | .stop => none

/-- No task is put before the poller's time behind its back. -/
def InTime (s : PollerLoop C n) (act : Act C n) : Prop :=
  ∀ act', s.usersAct act = some act' → s.users.InTime act'

section Users
variable {capacity : Nat} {s s' : PollerLoop C n}

end Users

/-! ## In `epoll_wait` -/

/-- The poller was told `v` when it asked last, and who has called since has written. -/
def Told (s : PollerLoop C n) (v : UInt64) : Prop :=
  (∃ c, s.users.latest = some (c, v)) ∧ (s.users.notified = true → 0 < s.pipe)

section Asks
variable {capacity : Nat} {s s' : PollerLoop C n}

end Asks

/-- A check of `InTime`. -/
def inTimeB (s : PollerLoop C n) (act : Act C n) : Bool :=
  (s.usersAct act).all (Users.inTimeB s.users)

theorem inTime_of_check (s : PollerLoop C n) (act : Act C n) (h : s.inTimeB act = true) :
    s.InTime act := by
  intro act' hact
  rw [inTimeB, hact, Option.all_some] at h
  exact Users.inTime_of_check s.users act' h

end PollerLoop
end Ppcode
