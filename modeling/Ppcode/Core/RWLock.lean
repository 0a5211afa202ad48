import Mathlib.Data.BitVec
import Ppcode.Core.LTS

/-!
# A lock for readers and one writer

A `pthread_rwlock_t` that prefers readers: a count, two flags and the name of the
writer, in one word that every request changes at once. It is always in one of two
phases. In the read phase readers come in without asking, and a writer has to find the
count at zero; in the write phase it is for the writer, and stays so when no reader
waits for it. The lock does not know who holds it as a reader, so a thread that unlocks
once more than it locked takes one from the count: `-1` is then a lock that every reader
gets and no writer.

`none` is a request that has to wait. One that fails (`EDEADLK`, `EAGAIN`) changes nothing.

* `exec_read`, `exec_write`: a reader's and a writer's section on a lock that nobody
  has (`Idle`).
* `exec_reentered`: a writer's section in which its thread asks to read. The lock is
  given up in the middle, and the count is one less at the end.
-/
namespace Ppcode

structure RWLock (T : Type) where
  readers : BitVec 29
  wrphase : Bool
  wrlocked : Bool
  cur_writer : Option T
  deriving DecidableEq, Repr

namespace RWLock
variable {T : Type}

inductive Op where
  | rdlock | wrlock | unlock
  deriving DecidableEq, Repr

def new : RWLock T := ⟨0, false, false, none⟩

/-- One reader more is more than the count has room for. -/
def full (l : RWLock T) : Bool := (l.readers + 1).msb

section Requests
variable [DecidableEq T]

def rdlock (l : RWLock T) (self : T) : Option (RWLock T) :=
  if l.cur_writer = some self then some l -- EDEADLK
  else if l.full then some l -- EAGAIN
  else if l.wrphase && l.wrlocked then none
  else some { l with readers := l.readers + 1, wrphase := false }

def wrlock (l : RWLock T) (self : T) : Option (RWLock T) :=
  if l.cur_writer = some self then some l -- EDEADLK
  else if l.wrlocked then none
  else if l.wrphase || l.readers == 0 then
    some { l with wrphase := true, wrlocked := true, cur_writer := some self }
  else none

/-- The last reader hands over to a writer that waits, and the writer to readers that do. -/
def unlock (l : RWLock T) (self : T) : RWLock T :=
  if l.cur_writer = some self then
    { l with wrphase := l.readers == 0, wrlocked := false, cur_writer := none }
  else
    { l with
      readers := l.readers - 1
      wrphase := l.wrphase || (l.readers - 1 == 0 && l.wrlocked) }

def act (self : T) (l : RWLock T) : Op → Option (RWLock T)
  | .rdlock => l.rdlock self
  | .wrlock => l.wrlock self
  | .unlock => some (l.unlock self)

/-- What the thread `self` makes of the lock. -/
def exec (self : T) (l : RWLock T) (ops : List Op) : Option (RWLock T) := LTS.exec (act self) l ops

end Requests

/-! ## A lock that nobody writes under -/

/-- No writer has the lock or waits for it. -/
structure Idle (l : RWLock T) : Prop where
  wrlocked : l.wrlocked = false
  cur_writer : l.cur_writer = none

theorem idle_new : (new : RWLock T).Idle := ⟨rfl, rfl⟩

/-- A writer would get the lock. -/
def writable (l : RWLock T) : Bool := l.wrphase || l.readers == 0

/-- The lock after a reader's section; one that got no place in the count leaves it all the same. -/
def afterRead (l : RWLock T) : RWLock T :=
  if l.full then { l with readers := l.readers - 1 } else { l with wrphase := false }

/-- The lock after a writer's section. -/
def afterWrite (l : RWLock T) : RWLock T := { l with wrphase := l.readers == 0 }

/-- The lock after one `unlock` more than there were locks. -/
def surplus (l : RWLock T) : RWLock T := { l with readers := l.readers - 1 }

variable {l : RWLock T}

theorem Idle.afterRead (h : l.Idle) : l.afterRead.Idle := by
  unfold RWLock.afterRead
  split <;> exact ⟨h.wrlocked, h.cur_writer⟩

theorem Idle.afterWrite (h : l.Idle) : l.afterWrite.Idle := ⟨h.wrlocked, h.cur_writer⟩

theorem Idle.surplus (h : l.Idle) : l.surplus.Idle := ⟨h.wrlocked, h.cur_writer⟩

/-- A reader's section leaves the read phase, if it has counted. -/
theorem writable_afterRead :
    l.afterRead.writable = true ↔ l.readers = 0 ∨ l.full = true ∧ l.wrphase = true := by
  unfold RWLock.afterRead writable
  by_cases hf : l.full = true
  · have h₀ : l.readers ≠ 0 := by
      intro h
      simp [full, h] at hf
    have h₁ : l.readers - 1 ≠ 0 := by
      intro h
      have hone : l.readers = 1 := by bv_omega
      rw [full, hone] at hf
      exact absurd hf (by decide)
    rw [if_pos hf, Bool.or_eq_true_iff, beq_iff_eq]
    exact ⟨fun h => .inr ⟨hf, h.resolve_right h₁⟩, fun h => .inl (h.resolve_left h₀).2⟩
  · simp [hf]

variable [DecidableEq T] {self : T}

theorem exec_cons (op : Op) (ops : List Op) :
    l.exec self (op :: ops) = (act self l op).bind fun l => l.exec self ops := rfl

@[simp] theorem exec_nil : l.exec self [] = some l := rfl

theorem exec_append (ops ops' : List Op) :
    l.exec self (ops ++ ops') = (l.exec self ops).bind fun l => l.exec self ops' :=
  LTS.exec_append l ops ops'

/-- A writer gets the lock. -/
theorem wrlock_idle (h : l.Idle) : l.wrlock self =
    if l.writable then some ⟨l.readers, true, true, some self⟩ else none := by
  simp [wrlock, writable, h.wrlocked, h.cur_writer]

/-- A writer that asks to read fails. -/
theorem rdlock_writer (r : BitVec 29) :
    (⟨r, true, true, some self⟩ : RWLock T).rdlock self = some ⟨r, true, true, some self⟩ :=
  if_pos rfl

theorem unlock_writer (h : l.Idle) :
    (⟨l.readers, true, true, some self⟩ : RWLock T).unlock self = l.afterWrite := by
  simp [unlock, RWLock.afterWrite, h.wrlocked, h.cur_writer]

theorem unlock_idle (h : l.Idle) : l.unlock self = l.surplus := by
  simp [unlock, RWLock.surplus, h.wrlocked, h.cur_writer]

theorem exec_unlock (h : l.Idle) : l.exec self [.unlock] = some l.surplus := by
  rw [exec_cons, act, unlock_idle h]
  rfl

/-- A reader's section never waits. -/
theorem exec_read (h : l.Idle) : l.exec self [.rdlock, .unlock] = some l.afterRead := by
  by_cases hf : l.full = true
  · simp [exec_cons, act, rdlock, unlock_idle h, RWLock.surplus, RWLock.afterRead, h.cur_writer, hf]
  · simp [exec_cons, act, rdlock, unlock, RWLock.afterRead, h.wrlocked, h.cur_writer, hf]

/-- A writer's section waits unless the lock is in its write phase or the count is zero. -/
theorem exec_write (h : l.Idle) : l.exec self [.wrlock, .unlock] =
    if l.writable then some l.afterWrite else none := by
  rw [exec_cons, act, wrlock_idle h]
  split
  · rw [Option.bind_some, exec_cons, act, unlock_writer h]
    rfl
  · rfl

/-- A writer that asks to read unlocks the lock that it has as a writer. -/
theorem exec_reentered (h : l.Idle) (ops : List Op) :
    l.exec self (.wrlock :: .rdlock :: .unlock :: ops) =
      if l.writable then l.afterWrite.exec self ops else none := by
  rw [exec_cons, act, wrlock_idle h]
  split
  · rw [Option.bind_some, exec_cons, act, rdlock_writer, Option.bind_some, exec_cons, act,
      unlock_writer h, Option.bind_some]
  · rfl

end RWLock
end Ppcode
