import Mathlib.Data.Prod.Lex
import Mathlib.Logic.Function.Basic
import Ppcode.Core.LTS
import Ppcode.Core.OrderedSet

/-!
# `Timer`: a set of tasks ordered by their deadlines

`src/fiber/timer.cc` keeps the armed tasks in a `std::set` ordered by
`(m_next, address)`. `m_next` is a field of the shared task object, so the
order of the set lies in memory (`Timer.mem`) that the operations also write:
`refresh`, `reset` and `getExecuteTask` take a task out of the set, give it a
new deadline and put it back.

Tasks are named by their addresses. A task is armed while its callback `m_cb`
is set; `cancel` and the expiry of a one-shot task clear it. All times are
`uint64_t` milliseconds, with wrap-around; the operations take the values that
`GetCurrentMS` returns to them. An operation is `none` where it erases `end()`
or is called on an address that holds no task.
-/
namespace Ppcode

/-- What `createCondTimer` binds: `TaskCond(weak_cond, cb)`; a `std::function` made
from it is not empty, whatever `cb` is. -/
inductive Callback (F W : Type) where
  | fn (f : F)
  | taskCond (weak_cond : W) (cb : Option F)
  deriving DecidableEq, Repr

/-- `m_cb = none` is the empty function.
mirrors src/fiber/timer.h:31-42 -/
structure TimerTask (C : Type) where
  m_cb : Option C
  m_ms : UInt64
  m_next : UInt64
  m_recurring : Bool
  deriving DecidableEq, Repr

/-- `now` is what `GetCurrentMS` returns.
mirrors src/fiber/timer.cc:11-15 -/
def TimerTask.new {C : Type} (cb : Option C) (ms : UInt64) (recurring : Bool) (now : UInt64) :
    TimerTask C := ⟨cb, ms, now + ms, recurring⟩

/-- The comparator, on `m_next` and the address.
mirrors src/fiber/timer.cc:76-85 -/
def TimerTask.comparator (lhs rhs : UInt64 × Nat) : Bool :=
  if lhs.1 < rhs.1 then true else if lhs.1 > rhs.1 then false else decide (lhs.2 < rhs.2)

/-- `mem` holds the task objects; `m_tasks` is the set in its order.
mirrors src/fiber/timer.h:70-73 -/
structure Timer (C : Type) where
  mem : Nat → Option (TimerTask C)
  m_tasks : List Nat
  m_tickled : Bool
  m_previouseTime : UInt64

namespace Timer
variable {C : Type}

/-- mirrors src/fiber/timer.h:50 -/
def new (now : UInt64) : Timer C := ⟨fun _ => none, [], false, now⟩

/-- `m_next` of the task at an address. -/
def next (t : Timer C) (a : Nat) : UInt64 := (t.mem a).elim 0 TimerTask.m_next

def lt (t : Timer C) (a b : Nat) : Bool := TimerTask.comparator (t.next a, a) (t.next b, b)

/-- A write to the task at an address, or a new task there. -/
def setTask (t : Timer C) (a : Nat) (task : TimerTask C) : Timer C :=
  { t with mem := Function.update t.mem a (some task) }

def insert (t : Timer C) (a : Nat) : Timer C :=
  { t with m_tasks := OrderedSet.insert t.lt a t.m_tasks }

def erase (t : Timer C) (a : Nat) : Timer C :=
  { t with m_tasks := OrderedSet.erase t.lt a t.m_tasks }

def find (t : Timer C) (a : Nat) : Option Nat := OrderedSet.find t.lt a t.m_tasks

/-- The timer, and whether `onTimerInsertedAtFront` is called after `m_mutex` is released.
mirrors src/fiber/timer.cc:129-143 -/
def addTimerTask (t : Timer C) (task : Nat) : Timer C × Bool :=
  let t := t.insert task
  let isFront := decide (t.m_tasks.head? = some task) && !t.m_tickled
  ({ t with m_tickled := if isFront then true else t.m_tickled }, isFront)

/-- The task is made at the address `a`.
mirrors src/fiber/timer.cc:87-93 -/
def createTimer (t : Timer C) (a : Nat) (cb : Option C) (ms : UInt64) (recurring : Bool)
    (now : UInt64) : Timer C × Bool :=
  (t.setTask a (.new cb ms recurring now)).addTimerTask a

/-- mirrors src/fiber/timer.cc:102-106 -/
def createCondTimer {F W : Type} (t : Timer (Callback F W)) (a : Nat) (cb : Option F)
    (weak_cond : W) (ms : UInt64) (recurring : Bool) (now : UInt64) :
    Timer (Callback F W) × Bool :=
  t.createTimer a (some (.taskCond weak_cond cb)) ms recurring now

/-- mirrors src/fiber/timer.cc:18-28 -/
def cancel (t : Timer C) (a : Nat) : Option (Timer C × Bool) := do
  let task ← t.mem a
  if task.m_cb.isNone then return (t, false)
  let t := t.setTask a { task with m_cb := none }
  let it ← t.find a
  return (t.erase it, true)

/-- mirrors src/fiber/timer.cc:31-47 -/
def refresh (t : Timer C) (a : Nat) (now : UInt64) : Option (Timer C × Bool) := do
  let task ← t.mem a
  if task.m_cb.isNone then return (t, false)
  match t.find a with
  | none => return (t, false)
  | some it =>
    let t := (t.erase it).setTask a { task with m_next := now + task.m_ms }
    return (t.insert a, true)

/-- `reset` after its early return: what it does under `m_mutex`, and whether
`onTimerInsertedAtFront` is called afterwards.
mirrors src/fiber/timer.cc:54-73 -/
def resetLocked (t : Timer C) (a : Nat) (ms : UInt64) (from_now : Bool) (now : UInt64) :
    Option (Timer C × Bool × Bool) := do
  let task ← t.mem a
  if task.m_cb.isNone then return (t, false, false)
  match t.find a with
  | none => return (t, false, false)
  | some it =>
    let start := if from_now then now else task.m_next - ms
    let t := (t.erase it).setTask a { task with m_ms := ms, m_next := start + ms }
    let (t, isFront) := t.addTimerTask a
    return (t, true, isFront)

/-- mirrors src/fiber/timer.cc:49-74 -/
def reset (t : Timer C) (a : Nat) (ms : UInt64) (from_now : Bool) (now : UInt64) :
    Option (Timer C × Bool × Bool) := do
  let task ← t.mem a
  if ms = task.m_ms ∧ from_now = false then return (t, true, false)
  t.resetLocked a ms from_now now

/-- mirrors src/fiber/timer.cc:108-122 -/
def getNextExecuteTime (t : Timer C) (now_ms : UInt64) : Timer C × UInt64 :=
  let t := { t with m_tickled := false }
  match t.m_tasks.head? with
  | none => (t, ~~~0)
  | some next => (t, if now_ms ≥ t.next next then 0 else t.next next - now_ms)

/-- mirrors src/fiber/timer.cc:145-153 -/
def detectClockRollover (t : Timer C) (now_ms : UInt64) : Timer C × Bool :=
  ({ t with m_previouseTime := now_ms },
    decide (now_ms < t.m_previouseTime ∧ now_ms < t.m_previouseTime - 60 * 60 * 1000))

/-- The set, cut at the iterator `it` that `getExecuteTask` arrives at; `now_task`
is the deadline and the address of the task it makes for the search.
mirrors src/fiber/timer.cc:176-184 -/
def cut (t : Timer C) (rollover : Bool) (now_ms : UInt64) (now_task : UInt64 × Nat) :
    List Nat × List Nat :=
  if rollover then (t.m_tasks, [])
  else
    let before a := TimerTask.comparator (t.next a, a) now_task
    let rest := t.m_tasks.dropWhile before
    (t.m_tasks.takeWhile before ++ rest.takeWhile (t.next · = now_ms),
      rest.dropWhile (t.next · = now_ms))

/-- One round of the loop over the expired tasks; the list is `cbs`.
mirrors src/fiber/timer.cc:190-199 -/
def expire (now_ms : UInt64) (r : Timer C × List (Option C)) (a : Nat) :
    Timer C × List (Option C) :=
  match r.1.mem a with
  | none => r
  | some task =>
    if task.m_recurring then
      ((r.1.setTask a { task with m_next := now_ms + task.m_ms }).insert a, r.2 ++ [task.m_cb])
    else (r.1.setTask a { task with m_cb := none }, r.2 ++ [task.m_cb])

/-- Whether `getExecuteTask` goes on to expire tasks, and the set it then cuts.
mirrors src/fiber/timer.cc:159-184 -/
def expired (t : Timer C) (now_ms : UInt64) (now_task : UInt64 × Nat) :
    Option (List Nat × List Nat) :=
  match t.m_tasks.head? with
  | none => none
  | some first =>
    let rollover := (t.detectClockRollover now_ms).2
    if !rollover && decide (t.next first > now_ms) then none
    else some (t.cut rollover now_ms now_task)

/-- `now_ms` is the first clock value it reads; `now_task` is the second one,
with the address of the task made from it.
mirrors src/fiber/timer.cc:155-200 -/
def getExecuteTask (t : Timer C) (now_ms : UInt64) (now_task : UInt64 × Nat) :
    Timer C × List (Option C) :=
  if t.m_tasks = [] then (t, [])
  else
    let u := (t.detectClockRollover now_ms).1
    match t.expired now_ms now_task with
    | none => (u, [])
    | some (expired, rest) => expired.foldl (expire now_ms) ({ u with m_tasks := rest }, [])

theorem createTimer_mem (t : Timer C) (a : Nat) (cb : Option C) (ms now : UInt64) :
    (t.createTimer a cb ms false now).1.mem a = some (.new cb ms false now) :=
  Function.update_self a _ t.mem

/-! ## The order of the set -/

/-- What the comparator compares by. -/
def key (t : Timer C) (a : Nat) : ℕ ×ₗ ℕ := toLex ((t.next a).toNat, a)

theorem comparator_iff (x y : UInt64 × Nat) : TimerTask.comparator x y = true ↔
    toLex (x.1.toNat, x.2) < toLex (y.1.toNat, y.2) := by
  rw [Prod.Lex.toLex_lt_toLex]
  unfold TimerTask.comparator
  by_cases h1 : x.1 < y.1
  · simp [h1, UInt64.lt_iff_toNat_lt.mp h1]
  · by_cases h2 : x.1 > y.1
    · have hlt := UInt64.lt_iff_toNat_lt.mp h2
      simp only [h1, h2, if_false, if_true]
      constructor
      · nofun
      · rintro (h | h) <;> omega
    · have heq : x.1.toNat = y.1.toNat := by
        rw [UInt64.lt_iff_toNat_lt] at h1
        rw [gt_iff_lt, UInt64.lt_iff_toNat_lt] at h2
        omega
      simp [h1, h2, heq]

theorem keyOrder (t : Timer C) : OrderedSet.KeyOrder t.lt t.key where
  inj := by
    intro a b h
    have h := congrArg (fun x => (ofLex x).2) h
    simpa [key] using h
  lt_iff a b := comparator_iff _ _

end Timer
end Ppcode
