import Ppcode.Core.Simulation

/-!
# A bounded queue whose calls take effect at one moment

`n` threads call `push` and `pop`. Between its call and its return a push appends its
value once, a pop takes the first value once: `effect`. A call that returns without an
effect has failed (`fail`): a push only if, but for one place for each thread, the queue
is full; a pop only if the queue is empty, or if another pop took a value since its own
call.

What is seen of it are the calls and the returns (`events`), so a system whose traces are
traces of this one is a queue to its users, whatever its steps are.
-/
namespace Ppcode

namespace AtomicQueue

inductive Op (V : Type) where
  | push (v : V)
  | pop
  deriving DecidableEq

inductive Ret (V : Type) where
  | pushed (v : V) (ok : Bool)
  | popped (v : V)
  | empty
  deriving DecidableEq

inductive Event (V : Type) where
  | call (op : Op V)
  | ret (r : Ret V)
  deriving DecidableEq

/-- Where a thread is in its call. -/
inductive Status (V : Type) where
  | idle
  | pushing (v : V)
  /-- the value is in the queue -/
  | pushed (v : V)
  /-- whether another pop took a value meanwhile -/
  | popping (raced : Bool)
  /-- the value is taken -/
  | popped (v : V)

def Status.race {V : Type} : Status V → Status V
  | .popping _ => .popping true
  | st => st

def Op.start {V : Type} : Op V → Status V
  | .push v => .pushing v
  | .pop => .popping false

inductive Act (V : Type) (n : Nat) where
  | call (t : Fin n) (op : Op V)
  | effect (t : Fin n)
  | fail (t : Fin n)
  | done (t : Fin n)

end AtomicQueue

structure AtomicQueue (V : Type) (n : Nat) where
  items : List V
  status : Fin n → AtomicQueue.Status V

namespace AtomicQueue
variable {V : Type} {n : Nat}

/-- `m - 1` values fit. -/
def step (m : Nat) (s : AtomicQueue V n) : Act V n → Option (AtomicQueue V n)
  | .call t op =>
    match s.status t with
    | .idle => some { s with status := Function.update s.status t op.start }
    | _ => none
  | .effect t =>
    match s.status t with
    | .pushing v =>
      if s.items.length + 1 < m then
        some ⟨s.items ++ [v], Function.update s.status t (.pushed v)⟩
      else none
    | .popping _ =>
      match s.items with
      | [] => none
      | v :: items => some ⟨items, Function.update (fun u => (s.status u).race) t (.popped v)⟩
    | _ => none
  | .fail t =>
    match s.status t with
    | .pushing _ =>
      if m ≤ s.items.length + n then some { s with status := Function.update s.status t .idle }
      else none
    | .popping raced =>
      if s.items.isEmpty ∨ raced then some { s with status := Function.update s.status t .idle }
      else none
    | _ => none
  | .done t =>
    match s.status t with
    | .pushed _ | .popped _ => some { s with status := Function.update s.status t .idle }
    | _ => none

/-- What a thread that returns has to say. -/
def answer : Status V → Bool → List (Ret V)
  | .pushing v, false => [.pushed v false]
  | .pushed v, true => [.pushed v true]
  | .popping _, false => [.empty]
  | .popped v, true => [.popped v]
  | _, _ => []

def events (s : AtomicQueue V n) : Act V n → List (Fin n × Event V)
  | .call t op => [(t, .call op)]
  | .effect _ => []
  | .fail t => (answer (s.status t) false).map fun r => (t, .ret r)
  | .done t => (answer (s.status t) true).map fun r => (t, .ret r)

def empty : AtomicQueue V n := ⟨[], fun _ => .idle⟩

def lts (V : Type) (n m : Nat) : LTS (AtomicQueue V n) (Act V n) :=
  LTS.ofFn (fun s => s = empty) (step m)

/-! ## One step -/

section Step
variable {m : Nat} {s s' : AtomicQueue V n} {t : Fin n} {r : Ret V}

theorem shows_call (h : s.status t = .idle) (op : Op V) : (lts V n m).Shows events s
    [(t, .call op)] { s with status := Function.update s.status t op.start } := by
  refine .one (T := lts V n m) (l := .call t op) ?_
  change s.step m (.call t op) = _
  simp only [step, h]

theorem shows_effect (h : s.step m (.effect t) = some s') : (lts V n m).Shows events s [] s' :=
  .one (T := lts V n m) h

theorem shows_fail (hr : answer (s.status t) false = [r]) (h : s.step m (.fail t) = some s') :
    (lts V n m).Shows events s [(t, .ret r)] s' := by
  rw [show [(t, Event.ret r)] = events s (.fail t) by rw [events, hr]; rfl]
  exact .one (T := lts V n m) h

theorem shows_done (hr : answer (s.status t) true = [r]) (h : s.step m (.done t) = some s') :
    (lts V n m).Shows events s [(t, .ret r)] s' := by
  rw [show [(t, Event.ret r)] = events s (.done t) by rw [events, hr]; rfl]
  exact .one (T := lts V n m) h

end Step

end AtomicQueue
end Ppcode
