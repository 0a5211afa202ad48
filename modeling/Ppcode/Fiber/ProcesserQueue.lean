import Ppcode.Core.CountedQueue
import Ppcode.Fiber.Processer

/-!
# From `addFiber` to the run queue

`newQueue` and `m_newfiberCount` are a queue with a counter beside it: a thread
between its push and its increment has an element that is not counted, and
`getNewFibers` takes the whole counter as its batch. `counted` is that view of a
processer and its threads, and every step is one of the counted queue or leaves
it alone (`counted_step`).

`queue_law`: no pop of `getNewFibers` fails, each appends one fiber to
`runableQueue`, these come in the order in which they were pushed and without a gap,
and when no call is in progress one `getNewFibers` leaves `newQueue` empty.
-/
namespace Ppcode.Processer
variable {F : Type} {n : Nat}

/-- Pops that `getNewFibers` has still to do. -/
def ProcPc.left : ProcPc F → Nat
  | .pop left _ => left
  | _ => 0

/-- A thread between its push and its increment. -/
def AddPc.uncounted : AddPc F → Nat
  | .count => 1
  | _ => 0

/-- The view of `newQueue` as a counted queue. -/
def Sys.counted (s : Sys F n) : CountedQueue F :=
  ⟨s.p.newQueue, s.p.m_newfiberCount, tsum AddPc.uncounted s.adders, s.p.pc.left, s.pushed, s.moved⟩

/-! ## One step -/

theorem back_left (p : Processer F) (r : Ret) : (p.back r).left = 0 := by
  unfold back
  split
  · split <;> rfl
  · rfl

theorem switched_queue (p : Processer F) (fb : F) (state : TaskState) :
    (p.switched fb state).newQueue = p.newQueue ∧
    (p.switched fb state).m_newfiberCount = p.m_newfiberCount ∧
    (p.switched fb state).pc.left = 0 := by
  cases state <;> exact ⟨rfl, rfl, rfl⟩

/-- What a step of the processer does to the queue, its counter and the batch. -/
theorem next_queue {stopping : Bool} {state : TaskState} {p p' : Processer F}
    (h : p.next stopping state = some p') :
    (p'.newQueue = p.newQueue ∧ p'.m_newfiberCount = p.m_newfiberCount ∧
      p.pc.left = 0 ∧ p'.pc.left = 0 ∧ p.moves p' = []) ∨
    (p'.newQueue = p.newQueue ∧ p'.m_newfiberCount = 0 ∧
      p.pc.left = 0 ∧ p'.pc.left = p.m_newfiberCount ∧ p.moves p' = []) ∨
    (0 < p.pc.left ∧ p'.newQueue = p.newQueue.drop 1 ∧ p'.m_newfiberCount = p.m_newfiberCount ∧
      p'.pc.left = p.pc.left - 1 ∧ p.moves p' = p.newQueue.take 1 ∧
      p'.runableQueue = p.runableQueue ++ p.newQueue.take 1) := by
  cases next_spec h with
  | fetched p r => exact .inl ⟨rfl, rfl, rfl, back_left p r, List.drop_length⟩
  | pop p left r fb q =>
    exact .inr (.inr ⟨Nat.succ_pos left, rfl, rfl, rfl, List.drop_left, rfl⟩)
  | miss p left r =>
    exact .inr (.inr ⟨Nat.succ_pos left, rfl, rfl, rfl, List.drop_length, (List.append_nil _).symm⟩)
  | exchange p r => exact .inr (.inl ⟨rfl, rfl, rfl, rfl, rfl⟩)
  | switch p fb =>
    obtain ⟨hq, hc, hl⟩ := switched_queue p fb state
    exact .inl ⟨hq, hc, rfl, hl, rfl⟩
  | loop | test | again | check | many =>
    refine .inl ⟨rfl, rfl, rfl, ?_, rfl⟩
    simp only
    split <;> rfl
  | _ => exact .inl ⟨rfl, rfl, rfl, rfl, rfl⟩

/-- What a step of a call does to the queue and its counter. -/
theorem addStep_queue {p p' : Processer F} {a a' : AddPc F} (h : p.addStep a = some (p', a')) :
    p'.pc.left = p.pc.left ∧
    ((p'.newQueue = p.newQueue ∧ p'.m_newfiberCount = p.m_newfiberCount ∧ a.pushes = [] ∧
        a.uncounted = 0 ∧ a'.uncounted = 0) ∨
      (p'.newQueue = p.newQueue ∧ p'.m_newfiberCount = p.m_newfiberCount + 1 ∧ a.pushes = [] ∧
        a.uncounted = 1 ∧ a'.uncounted = 0) ∨
      ∃ fb, p'.newQueue = p.newQueue ++ [fb] ∧ p'.m_newfiberCount = p.m_newfiberCount ∧
        a.pushes = [fb] ∧ a.uncounted = 0 ∧ a'.uncounted = 1) := by
  cases a with
  | idle => cases h
  | enter fb =>
    simp only [addStep] at h
    split at h
    · cases h
      exact ⟨rfl, .inl ⟨rfl, rfl, rfl, rfl, rfl⟩⟩
    · cases h
      exact ⟨rfl, .inl ⟨rfl, rfl, rfl, rfl, rfl⟩⟩
  | push fb =>
    simp only [addStep] at h
    split at h
    · cases h
      exact ⟨rfl, .inr (.inr ⟨fb, rfl, rfl, rfl, rfl, rfl⟩)⟩
    · cases h
  | count =>
    cases h
    exact ⟨rfl, .inr (.inl ⟨rfl, rfl, rfl, rfl, rfl⟩)⟩
  | test =>
    cases h
    refine ⟨rfl, .inl ⟨rfl, rfl, rfl, rfl, ?_⟩⟩
    split <;> rfl
  | flag =>
    cases h
    exact ⟨rfl, .inl ⟨rfl, rfl, rfl, rfl, rfl⟩⟩
  | flagNotify =>
    cases h
    exact ⟨rfl, .inl ⟨rfl, rfl, rfl, rfl, rfl⟩⟩
  | notify =>
    obtain ⟨q, hq, he⟩ := Option.map_eq_some_iff.mp h
    cases he
    obtain ⟨-, he, hpc⟩ := notify_spec hq
    rw [he]
    refine ⟨?_, .inl ⟨rfl, rfl, rfl, rfl, rfl⟩⟩
    rcases hpc with ⟨-, hpc⟩ | ⟨b, hb, hpc⟩
    · rw [hpc]
    · rw [hpc, hb]
      rfl

/-- A thread starts a call. -/
theorem counted_start (s : Sys F n) {i : Fin n} {a : AddPc F} (hi : s.adders i = .idle)
    (ha : a.uncounted = 0) :
    Sys.counted { s with adders := Function.update s.adders i a } = s.counted := by
  unfold Sys.counted
  rw [tsum_update_same AddPc.uncounted s.adders i a (by rw [hi, ha]; rfl)]

theorem counted_go {s s' : Sys F n} {i : Fin n} (h : s.step (.go i) = some s') :
    s'.counted = s.counted ∨ ∃ a, s.counted.step a = some s'.counted := by
  obtain ⟨⟨p', a'⟩, hst, rfl⟩ := Option.map_eq_some_iff.mp h
  obtain ⟨hleft, hq⟩ := addStep_queue hst
  have hsum := tsum_update AddPc.uncounted s.adders i a'
  unfold Sys.counted
  rcases hq with ⟨hq, hc, hp, hu, hu'⟩ | ⟨hq, hc, hp, hu, hu'⟩ | ⟨fb, hq, hc, hp, hu, hu'⟩
  · left
    have hsame : tsum AddPc.uncounted (Function.update s.adders i a') =
        tsum AddPc.uncounted s.adders := by omega
    simp only [hq, hc, hp, hleft, hsame, List.append_nil]
  · right
    refine ⟨.count, ?_⟩
    have hdec : tsum AddPc.uncounted (Function.update s.adders i a') =
        tsum AddPc.uncounted s.adders - 1 := by omega
    have hne : tsum AddPc.uncounted s.adders ≠ 0 := by omega
    simp only [CountedQueue.step, if_neg hne, hq, hc, hp, hleft, hdec, List.append_nil]
  · right
    refine ⟨.push fb, ?_⟩
    have hinc : tsum AddPc.uncounted (Function.update s.adders i a') =
        tsum AddPc.uncounted s.adders + 1 := by omega
    simp only [CountedQueue.step, hq, hc, hp, hleft, hinc]

theorem counted_proc {s s' : Sys F n} {state : TaskState} (h : s.step (.proc state) = some s') :
    s'.counted = s.counted ∨ ∃ a, s.counted.step a = some s'.counted := by
  obtain ⟨p', hst, rfl⟩ := Option.map_eq_some_iff.mp h
  unfold Sys.counted
  rcases next_queue hst with ⟨hq, hc, hl, hl', hm⟩ | ⟨hq, hc, hl, hl', hm⟩ |
    ⟨hl, hq, hc, hl', hm, -⟩
  · left
    simp only [hq, hc, hl, hl', hm, List.append_nil]
  · right
    refine ⟨.take, ?_⟩
    simp only [CountedQueue.step, if_pos hl, hq, hc, hl', hm, List.append_nil]
  · right
    refine ⟨.pop, ?_⟩
    have hne : s.p.pc.left ≠ 0 := by omega
    simp only [CountedQueue.step, if_neg hne, hq, hc, hl', hm]

theorem counted_step {s s' : Sys F n} {a : Act F n} (h : s.step a = some s') :
    s'.counted = s.counted ∨ ∃ a, s.counted.step a = some s'.counted := by
  cases a with
  | addFiber i fb =>
    simp only [Sys.step] at h
    split at h
    · rename_i hi
      cases h
      exact .inl (counted_start s hi rfl)
    · cases h
  | notify i =>
    simp only [Sys.step] at h
    split at h
    · rename_i hi
      cases h
      exact .inl (counted_start s hi rfl)
    · cases h
  | go i => exact counted_go h
  | proc state => exact counted_proc h

theorem counted_law {s : Sys F n} (hr : (Sys.lts F n).Reachable s) : s.counted.Law := by
  refine CountedQueue.law (LTS.reachable_proj Sys.counted ?_ (fun s a s' => counted_step) s hr)
  intro s hs
  rw [hs]
  have hz : tsum AddPc.uncounted (Sys.init : Sys F n).adders = 0 := tsum_zero _ _ fun _ => rfl
  unfold Sys.counted
  rw [hz]
  rfl

/-! ## One call of `getNewFibers` -/

/-- What the rest of a call of `getNewFibers` does when no other thread takes a step. -/
theorem pops_exec (state : TaskState) (r : Ret) : ∀ (left : Nat) (s : Sys F n),
    s.p.pc = .pop left r → left ≤ s.p.newQueue.length →
    ∃ p, LTS.exec Sys.step s (List.replicate (left + 1) (.proc state)) =
        some { s with p := p, moved := s.moved ++ s.p.newQueue.take left } ∧
      p.newQueue = s.p.newQueue.drop left ∧
      p.runableQueue = s.p.runableQueue ++ s.p.newQueue.take left ∧
      p.m_newfiberCount = s.p.m_newfiberCount ∧ p.pc = p.back r := by
  intro left
  induction left with
  | zero =>
    intro s hpc _
    refine ⟨{ s.p with pc := s.p.back r }, ?_, rfl, (List.append_nil _).symm, rfl, rfl⟩
    simp only [Nat.zero_add, List.replicate_one, LTS.exec, Sys.step, next, moves, hpc,
      Option.map_some, Option.bind_some, List.take_zero, List.drop_length]
  | succ left ih =>
    intro s hpc hlen
    cases hq : s.p.newQueue with
    | nil =>
      rw [hq] at hlen
      cases hlen
    | cons fb q =>
      -- one pop, then the rest of the batch
      have hstep : s.step (.proc state) = some { s with
          p := { s.p with newQueue := q, runableQueue := s.p.runableQueue ++ [fb], pc := .pop left r }
          moved := s.moved ++ [fb] } := by
        simp only [Sys.step, next, moves, hpc, hq, Option.map_some, List.drop_left]
      rw [hq, List.length_cons] at hlen
      obtain ⟨p, hex, hnq, hrq, hc, hp⟩ := ih { s with
          p := { s.p with newQueue := q, runableQueue := s.p.runableQueue ++ [fb], pc := .pop left r }
          moved := s.moved ++ [fb] } rfl (by simp only; omega)
      refine ⟨p, ?_, hnq, ?_, hc, hp⟩
      · rw [List.replicate_succ, LTS.exec, hstep, Option.bind_some, hex]
        simp only [List.append_assoc, List.singleton_append, List.take_succ_cons]
      · rw [hrq]
        simp only [List.append_assoc, List.singleton_append, List.take_succ_cons]

/-- A call that starts when everything in `newQueue` is counted. -/
theorem getNewFibers_exec (state : TaskState) (r : Ret) (s : Sys F n) (hpc : s.p.pc = .fetch r)
    (hlen : s.p.newQueue.length = s.p.m_newfiberCount) :
    ∃ p, LTS.exec Sys.step s (List.replicate (s.p.m_newfiberCount + 3) (.proc state)) =
        some { s with p := p, moved := s.moved ++ s.p.newQueue } ∧
      p.newQueue = [] ∧ p.runableQueue = s.p.runableQueue ++ s.p.newQueue ∧
      p.m_newfiberCount = 0 ∧ p.pc = p.back r := by
  have hfetch : s.step (.proc state) =
      some { s with p := { s.p with pc := .exchange s.p.m_newfiberCount r } } := by
    simp only [Sys.step, next, moves, hpc, Option.map_some, List.append_nil]
  have htake : Sys.step { s with p := { s.p with pc := .exchange s.p.m_newfiberCount r } }
      (.proc state) = some { s with
        p := { s.p with m_newfiberCount := 0, pc := .pop s.p.m_newfiberCount r } } := by
    simp only [Sys.step, next, moves, if_true, Option.map_some, List.append_nil]
  obtain ⟨p, hex, hnq, hrq, hc, hp⟩ := pops_exec state r s.p.m_newfiberCount { s with
    p := { s.p with m_newfiberCount := 0, pc := .pop s.p.m_newfiberCount r } } rfl
    (Nat.le_of_eq hlen.symm)
  refine ⟨p, ?_, ?_, ?_, hc, hp⟩
  · rw [List.replicate_succ, List.replicate_succ, LTS.exec, hfetch, Option.bind_some, LTS.exec,
      htake, Option.bind_some, hex]
    simp only [← hlen, List.take_length]
  · rw [hnq]
    exact List.drop_eq_nil_of_le (Nat.le_of_eq hlen)
  · rw [hrq]
    simp only [← hlen, List.take_length]

/-! ## Runs -/

/-- What holds between `addFiber` and the run queue. -/
structure QueueLaw (s : Sys F n) : Prop where
  length : s.p.m_newfiberCount + s.p.pc.left ≤ s.p.newQueue.length
  pop : ∀ left r, s.p.pc = .pop (left + 1) r → s.p.newQueue ≠ []
  appended : ∀ left r state s', s.p.pc = .pop (left + 1) r → s.step (.proc state) = some s' →
    ∃ fb, s'.moved = s.moved ++ [fb] ∧ s'.p.runableQueue = s.p.runableQueue ++ [fb]
  order : s.moved <+: s.pushed
  kept : s.moved ++ s.p.newQueue = s.pushed
  -- `getNewFibers` reads the counter, takes it, does its pops and leaves the loop
  drained : (∀ i, s.adders i = .idle) → ∀ r state, s.p.pc = .fetch r → ∃ s',
    LTS.exec Sys.step s (List.replicate (s.p.m_newfiberCount + 3) (.proc state)) = some s' ∧
    s'.p.pc = s'.p.back r ∧ s'.p.newQueue = [] ∧ s'.p.m_newfiberCount = 0 ∧
    s'.p.runableQueue = s.p.runableQueue ++ s.p.newQueue ∧ s'.moved = s'.pushed

/-- In every interleaving of calls of `addFiber` and `notify` with `execute`. -/
theorem queue_law (s : Sys F n) (hr : (Sys.lts F n).Reachable s) : QueueLaw s := by
  have h := counted_law hr
  have hlen : s.p.newQueue.length =
      s.p.m_newfiberCount + s.p.pc.left + tsum AddPc.uncounted s.adders := h.length
  have hpop (left : Nat) (r : Ret) (hpc : s.p.pc = .pop (left + 1) r) : s.p.newQueue ≠ [] := by
    refine h.queue_ne_nil ?_
    change 0 < s.p.pc.left
    rw [hpc]
    exact Nat.succ_pos left
  refine ⟨by omega, hpop, fun left r state s' hpc hst => ?_, h.in_order, h.order,
    fun hidle r state hpc => ?_⟩
  · obtain ⟨fb, q, hq⟩ := List.exists_cons_of_ne_nil (hpop left r hpc)
    simp only [Sys.step, next, moves, hpc, hq, Option.map_some, List.drop_left,
      Option.some.injEq] at hst
    subst hst
    exact ⟨fb, rfl, rfl⟩
  · have hz : tsum AddPc.uncounted s.adders = 0 := by
      refine tsum_zero _ _ fun i => ?_
      rw [hidle i]
      rfl
    have hl : s.p.pc.left = 0 := by rw [hpc]; rfl
    obtain ⟨p, hex, hnq, hrq, hc, hp⟩ := getNewFibers_exec state r s hpc (by omega)
    exact ⟨_, hex, hp, hnq, hc, hrq, h.order⟩

/-- Two threads push and only the second one counts; its fiber is in the batch that
takes the other one's. -/
theorem queue_law_two : ∃ s, (Sys.lts Nat 2).Reachable s ∧
    (s.p.newQueue = [8] ∧ s.moved = [7] ∧ s.p.m_newfiberCount = 0) ∧ QueueLaw s := by
  have hrun : (LTS.exec Sys.step (Sys.init : Sys Nat 2)
      [.addFiber 0 7, .addFiber 1 8, .go 0, .go 0, .go 1, .go 1, .go 1, .proc .block, .proc .block,
        .proc .block, .proc .block, .proc .block, .proc .block]).any
      (fun s => decide (s.p.newQueue = [8] ∧ s.moved = [7] ∧ s.p.m_newfiberCount = 0)) = true := by
    decide
  obtain ⟨s, hs, hb⟩ : ∃ s, (Sys.lts Nat 2).Reachable s ∧ decide
      (s.p.newQueue = [8] ∧ s.moved = [7] ∧ s.p.m_newfiberCount = 0) = true :=
    LTS.exists_of_exec _ rfl hrun
  exact ⟨s, hs, of_decide_eq_true hb, queue_law s hs⟩

end Ppcode.Processer
