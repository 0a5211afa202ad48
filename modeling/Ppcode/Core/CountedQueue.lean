import Ppcode.Core.LTS

/-!
# A queue with a counter beside it

Producers push an element and count it in a second step. The consumer takes the
whole counter, which becomes its batch, and pops that many elements one by one.
`pushed` and `moved` are the elements that went in and came out, in order.

`law`: every element in the queue is counted, in the batch, or not counted yet,
so no pop finds the queue empty; and what came out is the beginning of what went
in.
-/
namespace Ppcode

structure CountedQueue (α : Type) where
  queue : List α
  count : Nat
  /-- elements that are pushed but not counted -/
  uncounted : Nat
  /-- pops to go in the batch -/
  batch : Nat
  pushed : List α
  moved : List α

namespace CountedQueue
variable {α : Type}

inductive Act (α : Type) where
  | push (x : α)
  | count
  | take
  | pop

def step (q : CountedQueue α) : Act α → Option (CountedQueue α)
  | .push x =>
    some { q with queue := q.queue ++ [x], uncounted := q.uncounted + 1, pushed := q.pushed ++ [x] }
  | .count =>
    if q.uncounted = 0 then none
    else some { q with uncounted := q.uncounted - 1, count := q.count + 1 }
  | .take => if q.batch = 0 then some { q with batch := q.count, count := 0 } else none
  | .pop =>
    if q.batch = 0 then none
    else some { q with
      queue := q.queue.drop 1, moved := q.moved ++ q.queue.take 1, batch := q.batch - 1 }

def empty : CountedQueue α := ⟨[], 0, 0, 0, [], []⟩

def lts (α : Type) : LTS (CountedQueue α) (Act α) := LTS.ofFn (fun q => q = empty) step

/-- Every element in the queue is counted, in the batch, or still to be counted. -/
structure Law (q : CountedQueue α) : Prop where
  length : q.queue.length = q.count + q.batch + q.uncounted
  order : q.moved ++ q.queue = q.pushed

theorem law_empty : (empty : CountedQueue α).Law := ⟨rfl, rfl⟩

theorem law_step {q q' : CountedQueue α} {a : Act α} (h : q.Law) (hs : q.step a = some q') :
    q'.Law := by
  obtain ⟨hlen, hord⟩ := h
  cases a with
  | push x =>
    simp only [step, Option.some.injEq] at hs
    subst hs
    refine ⟨?_, ?_⟩
    · simp only [List.length_append, List.length_singleton]
      omega
    · simp only [← hord, List.append_assoc]
  | count =>
    simp only [step, Option.ite_none_left_eq_some, Option.some.injEq] at hs
    obtain ⟨hne, rfl⟩ := hs
    refine ⟨?_, hord⟩
    simp only
    omega
  | take =>
    simp only [step, Option.ite_none_right_eq_some, Option.some.injEq] at hs
    obtain ⟨hz, rfl⟩ := hs
    refine ⟨?_, hord⟩
    simp only
    omega
  | pop =>
    simp only [step, Option.ite_none_left_eq_some, Option.some.injEq] at hs
    obtain ⟨hne, rfl⟩ := hs
    refine ⟨?_, ?_⟩
    · simp only [List.length_drop]
      omega
    · simp only [List.append_assoc, List.take_append_drop]
      exact hord

theorem law {q : CountedQueue α} (hr : (lts α).Reachable q) : q.Law := by
  have hind : (lts α).Inductive Law := by
    refine ⟨?_, fun q a q' h hs => law_step h hs⟩
    intro q hq
    rw [hq]
    exact law_empty
  exact hind.reachable q hr

theorem Law.queue_ne_nil {q : CountedQueue α} (h : q.Law) (hb : 0 < q.batch) : q.queue ≠ [] := by
  intro hnil
  have hlen := h.length
  rw [hnil, List.length_nil] at hlen
  omega

theorem Law.in_order {q : CountedQueue α} (h : q.Law) : q.moved <+: q.pushed := ⟨q.queue, h.order⟩

end CountedQueue
end Ppcode
