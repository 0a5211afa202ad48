import Ppcode.Fiber.Processer

/-!
# `addFibers`: a list of fibers at once

`addFibers` pushes the fibers of a list in a loop and then counts and notifies
once. The test of its loop is `list.empty()`, so it pushes nothing from a list that
has fibers, counts them all the same and leaves them in the list; for an empty list
it goes on to `list.front()`.

* `addFiber_steps`: a call of `addFiber` that nobody disturbs is what the steps of
  `addStep` make of it.
* `addFibers_never`: for no processer and no list is it `addFiber` of each.
* `falls_behind`: with room, and a processer that takes fibers, `addFiber` of each
  puts the list at the end of `newQueue`; `addFibers` only counts it.
-/
namespace Ppcode.Processer
variable {F : Type}

/-- A call that nobody disturbs; `none` where it does not return: `newQueue` is full, or the
processer is in `idle` with `m_mutex`.
mirrors src/fiber/processer.cc:58-81 -/
def addFiber (p : Processer F) (fiber : F) : Option (Processer F) :=
  if p.m_state = .stop ∨ p.m_state = .done then some p
  else if p.newQueue.length < capacity then
    let p := { p with newQueue := p.newQueue ++ [fiber], m_newfiberCount := p.m_newfiberCount + 1 }
    if p.isRunning then some { p with m_notidied := true }
    else { p with m_notidied := true }.notify
  else none

/-- The loop; `none` is `front` of an empty list.
mirrors src/fiber/processer.cc:88-92 -/
def pushAll (p : Processer F) (list : List F) : Option (Processer F × List F) :=
  if list.isEmpty then none else some (p, list)

/-- The processer, and what is left of the list.
mirrors src/fiber/processer.cc:84-103 -/
def addFibers (p : Processer F) (list : List F) : Option (Processer F × List F) := do
  let (p, list) ← p.pushAll list
  let p := { p with m_newfiberCount := p.m_newfiberCount + list.length }
  if p.isRunning then return ({ p with m_notidied := true }, list)
  else
    let p ← p.notify
    return (p, list)

/-- `addFiber` of each. -/
def addEach (p : Processer F) (list : List F) : Option (Processer F) := list.foldlM addFiber p

/-- `addFibers` returns, has done what `addFiber` of each does, and the list is empty. -/
def AsOneByOne (p : Processer F) (list : List F) : Prop :=
  ∃ q, p.addFibers list = some (q, []) ∧ p.addEach list = some q

/-! ## `addFiber` and its steps -/

/-- A thread goes on with a call to its end, in at most `n` steps. -/
def goOn : Nat → Processer F × AddPc F → Option (Processer F)
  | _, (p, .idle) => some p
  | 0, _ => none
  | n + 1, (p, pc) => (p.addStep pc).bind (goOn n)

theorem addFiber_steps (p : Processer F) (fiber : F) :
    p.addFiber fiber = goOn 6 (p, .enter fiber) := by
  unfold addFiber
  by_cases hstop : p.m_state = .stop ∨ p.m_state = .done
  · simp [goOn, addStep, hstop]
  · by_cases hroom : p.newQueue.length < capacity
    · rw [if_neg hstop, if_pos hroom]
      by_cases hrun : p.m_state = .running
      · simp [goOn, addStep, hroom, hrun, isRunning]
      · simp only [goOn, addStep, hstop, hroom, hrun, isRunning, if_true, if_false, decide_false,
          Bool.false_eq_true, Option.bind_some]
        generalize notify _ = r
        cases r <;> rfl
    · simp [goOn, addStep, hstop, hroom]

/-! ## `addFibers` -/

/-- The loop pushes nothing. -/
theorem addFibers_spec {p q : Processer F} {list rest : List F}
    (h : p.addFibers list = some (q, rest)) : list ≠ [] ∧ rest = list ∧
    q.newQueue = p.newQueue ∧ q.m_newfiberCount = p.m_newfiberCount + list.length := by
  unfold addFibers pushAll at h
  cases list with
  | nil => cases h
  | cons fb list =>
    simp only [List.isEmpty_cons, Bool.false_eq_true, if_false, Option.bind_eq_bind,
      Option.bind_some] at h
    split at h
    · cases h
      exact ⟨by simp, rfl, rfl, rfl⟩
    · obtain ⟨q', hq, h⟩ := Option.bind_eq_some_iff.mp h
      cases h
      obtain ⟨-, he, -⟩ := notify_spec hq
      rw [he]
      exact ⟨by simp, rfl, rfl, rfl⟩

/-- `addFibers` is `addFiber` of each for no processer and no list. -/
theorem addFibers_never (p : Processer F) (list : List F) : ¬ AsOneByOne p list := by
  intro hex
  obtain ⟨q, hall, -⟩ := hex
  obtain ⟨hne, hrest, -, -⟩ := addFibers_spec hall
  exact hne hrest.symm

/-! ## How they differ -/

/-- The processer takes fibers, and who notifies it need not wait. -/
structure Takes (p : Processer F) : Prop where
  state : p.m_state ≠ .stop ∧ p.m_state ≠ .done
  unlocked : p.pc.locked = false

theorem notify_takes {p : Processer F} (h : p.Takes) : ∃ q, p.notify = some q ∧ q.Takes ∧
    q.newQueue = p.newQueue ∧ q.m_newfiberCount = p.m_newfiberCount := by
  have hnotify : p.notify = some _ := if_neg (by simp [h.unlocked])
  refine ⟨_, hnotify, ⟨h.state, ?_⟩, rfl, rfl⟩
  have hpc := (notify_spec hnotify).2.2
  rcases hpc with ⟨-, hpc⟩ | ⟨b, -, hpc⟩
  · exact (congrArg ProcPc.locked hpc).trans h.unlocked
  · exact congrArg ProcPc.locked hpc

theorem addFiber_spec {p : Processer F} (h : p.Takes) (hroom : p.newQueue.length < capacity)
    (fiber : F) : ∃ q, p.addFiber fiber = some q ∧ q.Takes ∧
      q.newQueue = p.newQueue ++ [fiber] ∧ q.m_newfiberCount = p.m_newfiberCount + 1 := by
  have hstop : ¬ (p.m_state = .stop ∨ p.m_state = .done) := not_or.mpr h.state
  unfold addFiber
  rw [if_neg hstop, if_pos hroom]
  by_cases hrun : p.isRunning = true
  · exact ⟨_, if_pos hrun, ⟨h.state, h.unlocked⟩, rfl, rfl⟩
  · obtain ⟨q, hq, ht, hqueue, hcount⟩ := notify_takes
      (p := { p with newQueue := p.newQueue ++ [fiber], m_newfiberCount := p.m_newfiberCount + 1,
                     m_notidied := true }) ⟨h.state, h.unlocked⟩
    exact ⟨q, (if_neg hrun).trans hq, ht, hqueue, hcount⟩

/-- The fibers of the list come to the end of `newQueue`, in order, and are counted. -/
theorem addEach_spec {p : Processer F} (h : p.Takes) (list : List F)
    (hroom : p.newQueue.length + list.length ≤ capacity) : ∃ q, p.addEach list = some q ∧
      q.newQueue = p.newQueue ++ list ∧ q.m_newfiberCount = p.m_newfiberCount + list.length := by
  induction list generalizing p with
  | nil => exact ⟨p, rfl, (List.append_nil _).symm, rfl⟩
  | cons fiber list ih =>
    simp only [List.length_cons] at hroom
    obtain ⟨q₁, hadd, ht, hq₁, hc₁⟩ := addFiber_spec h (by omega) fiber
    obtain ⟨q, hall, hq, hc⟩ := ih ht (by
      rw [hq₁, List.length_append, List.length_singleton]
      omega)
    refine ⟨q, ?_, ?_, ?_⟩
    · simp only [addEach, List.foldlM_cons, hadd]
      exact hall
    · rw [hq, hq₁, List.append_assoc, List.singleton_append]
    · rw [hc, hc₁, List.length_cons]
      omega

/-- After `addFibers` more fibers are counted than queued, by the length of the list. -/
theorem falls_behind {p : Processer F} (h : p.Takes) {list : List F} (hne : list ≠ [])
    (hroom : p.newQueue.length + list.length ≤ capacity) :
    ∃ q q', p.addFibers list = some (q, list) ∧ p.addEach list = some q' ∧
      q.m_newfiberCount = q'.m_newfiberCount ∧
      q'.newQueue.length = q.newQueue.length + list.length := by
  obtain ⟨q', hall, hq', hc'⟩ := addEach_spec h list hroom
  have hloop : p.pushAll list = some (p, list) := if_neg (by simpa using hne)
  have hbatch : ∃ q, p.addFibers list = some (q, list) := by
    unfold addFibers
    rw [hloop]
    simp only [Option.bind_eq_bind, Option.bind_some]
    split
    · exact ⟨_, rfl⟩
    · obtain ⟨q, hq, -⟩ := notify_takes (p := { p with
        m_newfiberCount := p.m_newfiberCount + list.length }) ⟨h.state, h.unlocked⟩
      exact ⟨q, by rw [hq]; rfl⟩
  obtain ⟨q, hbatch⟩ := hbatch
  obtain ⟨-, -, hq, hc⟩ := addFibers_spec hbatch
  refine ⟨q, q', hbatch, hall, hc.trans hc'.symm, ?_⟩
  rw [hq, hq', List.length_append]

/-- Fiber 7 is counted and stays in the list. -/
theorem counted_only :
    addFibers (new : Processer Nat) [7] = some (⟨1, [], [], [], .init, true, .start⟩, [7]) ∧
    addEach (new : Processer Nat) [7] = some ⟨1, [], [7], [], .init, true, .start⟩ ∧
    ¬ AsOneByOne (new : Processer Nat) [7] ∧ ¬ AsOneByOne (new : Processer Nat) [] := by
  have hone : addFibers (new : Processer Nat) [7] =
      some (⟨1, [], [], [], .init, true, .start⟩, [7]) := by decide
  refine ⟨hone, by decide, fun hex => ?_, fun hex => ?_⟩
  · obtain ⟨q, hall, -⟩ := hex
    rw [hone] at hall
    cases hall
  · obtain ⟨q, hall, -⟩ := hex
    cases hall

end Ppcode.Processer
