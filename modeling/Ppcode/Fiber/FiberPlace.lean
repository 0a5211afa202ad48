import Ppcode.Fiber.FiberCalls
import Ppcode.Fiber.ProcesserRound
import Ppcode.Fiber.ProcesserWake

/-!
# A fiber on its way to a processer

A call of `addFiber` has the fiber in its hands until it pushes it to a `newQueue`;
`getNewFibers` moves it to `runableQueue`, and the processer's thread takes it from there and
swaps it in. Here is what one step does to a fiber at each of these places, as long as the
scheduler is not stopping (`Serves`), and what it does to the length of a processer's round
(`round_step`).

* `Before.back`: a fiber that is on its way was so before, or is just being added.
* `Queued.ahead`, `Runnable.ahead`: how the places before it get fewer.
-/
namespace Ppcode.Scheduler
open Processer (ProcPc AddPc capacity)
variable {m k : Nat} {s s' : Scheduler m k} {a : Act m k} {i : Fin m} {c : Fin k} {fb : Nat}

/-! ## Not stopping -/

structure Serves (s : Scheduler m k) : Prop where
  state : s.m_state = .running
  procs : ∀ i, (s.m_processers i).m_state ≠ .stop ∧ (s.m_processers i).m_state ≠ .done

theorem Serves.isStopping (h : s.Serves) : s.isStopping = false := by
  simp [Scheduler.isStopping, h.state]

theorem addStep_kept {p p' : Processer Nat} {x x' : AddPc Nat} (h : p.addStep x = some (p', x')) :
    p'.m_state = p.m_state ∧ p'.runableQueue = p.runableQueue := by
  cases x with
  | idle => cases h
  | enter fb =>
    simp only [Processer.addStep] at h
    split at h <;> cases h <;> exact ⟨rfl, rfl⟩
  | push fb =>
    simp only [Processer.addStep, Option.ite_none_right_eq_some, Option.some.injEq] at h
    obtain ⟨-, h⟩ := h
    cases h
    exact ⟨rfl, rfl⟩
  | count | test | flag | flagNotify =>
    cases h
    exact ⟨rfl, rfl⟩
  | notify =>
    obtain ⟨q, hq, he⟩ := Option.map_eq_some_iff.mp h
    cases he
    rw [(Processer.notify_spec hq).2.1]
    exact ⟨rfl, rfl⟩

theorem Serves.step (h : s.Serves) (hst : s.step a = some s') (ha : a ≠ .stop) : s'.Serves := by
  refine ⟨(step_state hst ha).1.trans h.state, fun i => ?_⟩
  rcases step_proc hst i with rfl | he | ⟨c, moves, x, x', -, -, hadd, -⟩ | ⟨hs, -⟩
  · obtain ⟨p, fibers, hn, -, rfl⟩ := procStep_spec hst
    rw [h.isStopping] at hn
    simp only [setProc, Function.update_self]
    rcases (Processer.next_wake hn).1 with he | he | he
    · rw [he]
      exact h.procs i
    · rw [he]
      decide
    · rw [he]
      decide
  · rw [he]
    exact h.procs i
  · rw [(addStep_kept hadd).1]
    exact h.procs i
  · exact absurd hs ha

/-! ## The round of a processer -/

def uncountedAt (i : Fin m) : CallPc m → Nat
  | .add j _ x => if j = i then x.uncounted else 0
  | _ => 0

/-- The calls that have pushed to the processer at `i` and have not counted. -/
def counting (s : Scheduler m k) (i : Fin m) : Nat := tsum (uncountedAt i) s.callers

theorem uncountedAt_after (i j : Fin m) (moves : Bool) (x : AddPc Nat) :
    uncountedAt i (after j moves x) = if j = i then x.uncounted else 0 := by
  unfold after
  by_cases hx : x = .idle
  · rw [if_pos hx, hx]
    cases moves <;> simp [uncountedAt, AddPc.uncounted]
  · rw [if_neg hx]
    rfl

/-- Nobody but its own thread and the destructor keeps a processer busy for longer. -/
theorem round_step (hst : s.step a = some s') (hproc : a ≠ .proc i) (hstop : a ≠ .stop)
    (hsleep : (s.m_processers i).pc ≠ .waiting false) :
    (s'.m_processers i).round (s'.counting i) ≤ (s.m_processers i).round (s.counting i) := by
  cases a with
  | stop => exact absurd rfl hstop
  | proc j =>
    have hj : i ≠ j := fun he => hproc (by rw [he])
    obtain ⟨p, fibers, -, -, rfl⟩ := procStep_spec hst
    simp only [setProc, Function.update_of_ne hj]
    exact le_refl _
  | register j | withdraw j | yield j | finish j =>
    unfold step at hst
    obtain ⟨x, f, -, -, -, rfl⟩ := fiberStep_spec hst
    exact le_refl _
  | createFiber c fb | addFiber c fb =>
    simp only [step, Option.ite_none_right_eq_some, Option.some.injEq] at hst
    obtain ⟨⟨hidle, -⟩, rfl⟩ := hst
    refine le_of_eq (congrArg (fun n => (s.m_processers i).round n) ?_)
    exact tsum_update_same _ _ _ _ (by rw [hidle]; rfl)
  | call c =>
    cases callStep_goes hst with
    | way id pc hrank hold hnew =>
      refine le_of_eq (congrArg (fun n => (s.m_processers i).round n) ?_)
      refine tsum_update_same _ _ _ _ ?_
      have hzero (pc : CallPc m) (h : ∀ j moves x, pc = .add j moves x → x.uncounted = 0) :
          uncountedAt i pc = 0 := by
        cases pc with
        | add j moves x => simp [uncountedAt, h j moves x rfl]
        | _ => rfl
      rw [hzero pc fun j moves x he => ?_, hzero (s.callers c) fun j moves x he => ?_]
      · exact absurd he (hold j moves x)
      · obtain ⟨fb, rfl⟩ := hnew j moves x he
        rfl
    | add j moves x x' p hc hadd =>
      have hsum := tsum_update (uncountedAt i) s.callers c (after j moves x')
      rw [hc, uncountedAt_after] at hsum
      by_cases hj : j = i
      · subst hj
        simp only [setProc, Function.update_self]
        refine Processer.addStep_round hadd ?_ hsleep
        simpa [uncountedAt, counting, setCaller] using hsum
      · simp only [setProc, Function.update_of_ne (Ne.symm hj)]
        refine le_of_eq (congrArg (fun n => (s.m_processers i).round n) ?_)
        simpa [uncountedAt, counting, setCaller, hj] using hsum

/-! ## From place to place -/

/-- The call has the fiber in its hands. -/
def Held (s : Scheduler m k) (c : Fin k) (fb : Nat) : Prop := viewOf (s.callers c) fb ≠ .away

def Queued (s : Scheduler m k) (i : Fin m) (fb : Nat) : Prop := fb ∈ (s.m_processers i).newQueue

def Runnable (s : Scheduler m k) (i : Fin m) (fb : Nat) : Prop :=
  fb ∈ (s.m_processers i).runableQueue

def Taken (s : Scheduler m k) (i : Fin m) (fb : Nat) : Prop :=
  (s.m_processers i).pc = .check fb ∨ (s.m_processers i).pc = .resume fb ∨
    (s.m_processers i).pc = .bind fb

/-- A call has it in its hands until it pushes it. -/
theorem Held.step (h : s.Held c fb) (hserves : s.Serves) (hst : s.step a = some s') :
    s'.Held c fb ∨ ∃ i, s'.Queued i fb := by
  unfold Held at h ⊢
  rcases step_caller hst c with rfl | he | ⟨hidle, -⟩
  · cases callStep_spec hst with
    | known _ _ hc | fresh _ hc | running _ _ hc | notRunning _ _ hc | waits _ _ _ hc | next _ _ _ hc
    | scanned _ _ _ hc | pick _ _ _ _ hc | last _ _ _ _ hc | blocked _ _ _ hc | robin _ _ _ hc
    | skip _ _ hc =>
      left
      simpa [hc, viewOf, setCaller] using h
    | move hc => simp [hc, viewOf] at h
    | add proc moves x x' p hc hadd =>
      cases x with
      | enter y =>
        simp only [Processer.addStep, if_neg (not_or.mpr (hserves.procs proc)),
          Option.some.injEq, Prod.mk.injEq] at hadd
        obtain ⟨-, rfl⟩ := hadd
        left
        simpa [hc, viewOf, setCaller] using h
      | push y =>
        simp only [Processer.addStep, Option.ite_none_right_eq_some, Option.some.injEq,
          Prod.mk.injEq] at hadd
        obtain ⟨-, rfl, rfl⟩ := hadd
        have hy : y = fb := by
          by_contra hne
          simp [hc, viewOf, hne] at h
        exact .inr ⟨proc, by simp [Queued, setProc, hy]⟩
      | _ => simp [hc, viewOf] at h
  · rw [he]
    exact .inl h
  · simp [hidle, viewOf] at h

theorem Queued.step (h : s.Queued i fb) (hst : s.step a = some s') :
    s'.Queued i fb ∨ s'.Runnable i fb := by
  unfold Queued Runnable at *
  rcases step_newQueue hst i with rfl | he | ⟨-, x, he⟩
  · obtain ⟨p, fibers, hn, -, rfl⟩ := procStep_spec hst
    simp only [setProc, Function.update_self]
    rcases Processer.next_queue hn with ⟨he, -⟩ | ⟨he, -⟩ | ⟨-, he, -, -, -, hrun⟩
    · rw [he]
      exact .inl h
    · rw [he]
      exact .inl h
    · rw [he, hrun]
      rw [← List.take_append_drop 1 (s.m_processers i).newQueue] at h
      rcases List.mem_append.mp h with h | h
      · exact .inr (List.mem_append_right _ h)
      · exact .inl h
  · rw [he]
    exact .inl h
  · rw [he]
    exact .inl (List.mem_append_left _ h)

/-- Only its own thread changes what is in `runableQueue`, or what it has taken. -/
theorem step_runable (hst : s.step a = some s') (ha : a ≠ .proc i) :
    (s'.m_processers i).runableQueue = (s.m_processers i).runableQueue := by
  rcases step_proc hst i with he | he | ⟨c, moves, x, x', -, -, hadd, -⟩ | ⟨-, he | hn⟩
  · exact absurd he ha
  · rw [he]
  · exact (addStep_kept hadd).2
  · rw [he]
  · rw [(Processer.notify_spec hn).2.1]

theorem Runnable.step (h : s.Runnable i fb) (hst : s.step a = some s') :
    s'.Runnable i fb ∨ s'.Taken i fb := by
  unfold Runnable Taken at *
  by_cases ha : a = .proc i
  · subst ha
    obtain ⟨p, fibers, hn, -, rfl⟩ := procStep_spec hst
    simp only [setProc, Function.update_self]
    generalize s.m_processers i = q at hn h
    cases Processer.next_spec hn with
    | take q x rest =>
      rcases List.mem_cons.mp h with rfl | h
      · exact .inr (.inl rfl)
      · exact .inl h
    | empty => exact absurd h List.not_mem_nil
    | pop => exact .inl (List.mem_append_left _ h)
    | switch q x =>
      left
      generalize s.fiberState _ = state
      cases state with
      | running => exact List.mem_append_left _ h
      | _ => exact h
    | _ => exact .inl h
  · rw [step_runable hst ha]
    exact .inl h

theorem Taken.step (h : s.Taken i fb) (hserves : s.Serves) (hst : s.step a = some s') :
    s'.Taken i fb ∨ (s'.m_processers i).pc = .swapIn fb := by
  unfold Taken at *
  rcases step_pc hst i with rfl | he | ⟨⟨b, hb, -⟩, -⟩
  · obtain ⟨p, fibers, hn, -, rfl⟩ := procStep_spec hst
    rw [hserves.isStopping] at hn
    simp only [setProc, Function.update_self]
    rcases h with hpc | hpc | hpc
    · simp only [Processer.next, hpc, Option.some.injEq] at hn
      exact .inl (.inr (.inl (by rw [← hn]; rfl)))
    · simp only [Processer.next, hpc, Option.some.injEq] at hn
      exact .inl (.inr (.inr (by rw [← hn])))
    · simp only [Processer.next, hpc, Option.some.injEq] at hn
      exact .inr (by rw [← hn])
  · rw [he]
    exact .inl h
  · rw [hb] at h
    simp at h

/-- On its way, and not about to be swapped in. -/
def Before (s : Scheduler m k) (fb : Nat) : Prop :=
  (∃ c, s.Held c fb) ∨ ∃ i, s.Queued i fb ∨ s.Runnable i fb ∨ s.Taken i fb

theorem Held.back (h : s'.Held c fb) (hst : s.step a = some s') :
    s.Held c fb ∨ s'.callers c = .read fb := by
  unfold Held at h ⊢
  rcases step_caller hst c with rfl | he | ⟨-, x, -, he⟩
  · left
    cases callStep_spec hst with
    | known _ _ hc | fresh _ hc | running _ _ hc | notRunning _ _ hc | waits _ _ _ hc | next _ _ _ hc
    | scanned _ _ _ hc | pick _ _ _ _ hc | last _ _ _ _ hc | blocked _ _ _ hc | robin _ _ _ hc
    | skip _ _ hc =>
      simpa [hc, viewOf, setCaller] using h
    | move hc => simp [viewOf, setCaller] at h
    | add proc moves x x' p hc hadd =>
      cases x with
      | enter y =>
        simp only [Processer.addStep] at hadd
        split at hadd
        · cases hadd
          cases moves <;> simp [viewOf, setCaller] at h
        · cases hadd
          simpa [hc, viewOf, setCaller] using h
      | push y =>
        simp only [Processer.addStep, Option.ite_none_right_eq_some, Option.some.injEq,
          Prod.mk.injEq] at hadd
        obtain ⟨-, -, rfl⟩ := hadd
        simp [viewOf, setCaller] at h
      | idle => cases hadd
      | notify =>
        obtain ⟨q, -, he⟩ := Option.map_eq_some_iff.mp hadd
        cases he
        cases moves <;> simp [viewOf, setCaller] at h
      | count | flag | flagNotify =>
        cases hadd
        cases moves <;> simp [viewOf, setCaller] at h
      | test =>
        cases hadd
        cases hrun : (s.m_processers proc).isRunning <;> simp [hrun, viewOf, setCaller] at h
  · rw [he] at h
    exact .inl h
  · right
    rw [he]
    rw [he] at h
    by_cases hx : x = fb
    · rw [hx]
    · simp [viewOf, hx] at h

theorem Queued.back (h : s'.Queued i fb) (hst : s.step a = some s') :
    s.Queued i fb ∨ ∃ c, s.Held c fb := by
  unfold Queued Held at *
  rcases step_proc hst i with rfl | he | ⟨c, moves, x, x', -, hc, hadd, -⟩ | ⟨-, he | hn⟩
  · left
    obtain ⟨p, fibers, hn, -, rfl⟩ := procStep_spec hst
    simp only [setProc, Function.update_self] at h
    rcases Processer.next_queue hn with ⟨he, -⟩ | ⟨he, -⟩ | ⟨-, he, -⟩
    · rwa [he] at h
    · rwa [he] at h
    · rw [he] at h
      exact List.mem_of_mem_drop h
  · rw [he] at h
    exact .inl h
  · rcases addStep_cases hadd with ⟨-, -, he, -⟩ | ⟨y, rfl, -, -, he⟩ | ⟨-, he, -⟩
    · rw [he] at h
      exact .inl h
    · rw [he] at h
      rcases List.mem_append.mp h with h | h
      · exact .inl h
      · rw [List.mem_singleton.mp h]
        exact .inr ⟨c, by simp [hc, viewOf]⟩
    · rw [he] at h
      exact .inl h
  · rw [he] at h
    exact .inl h
  · rw [(Processer.notify_spec hn).2.1] at h
    exact .inl h

theorem Runnable.back (h : s'.Runnable i fb) (hst : s.step a = some s') (hinv : s.Inv) :
    s.Runnable i fb ∨ s.Queued i fb := by
  unfold Runnable Queued at *
  by_cases ha : a = .proc i
  · subst ha
    obtain ⟨p, fibers, hn, -, rfl⟩ := procStep_spec hst
    simp only [setProc, Function.update_self] at h
    have hstate (x : Nat) (hpc : (s.m_processers i).pc = .switch x) :
        s.fiberState (s.m_processers i).pc ≠ .running := by
      rw [hpc]
      exact ((hinv.life x).left i ((life_spot_eq hpc x).trans (if_pos rfl))).2
    generalize s.fiberState (s.m_processers i).pc = state at hn hstate
    generalize s.m_processers i = q at hn hstate ⊢
    cases Processer.next_spec hn with
    | take => exact .inl (List.mem_cons_of_mem _ h)
    | pop q left r x rest =>
      rcases List.mem_append.mp h with h | h
      · exact .inl h
      · rw [List.mem_singleton.mp h]
        exact .inr List.mem_cons_self
    | switch q x =>
      have hne := hstate x rfl
      cases state with
      | running => exact absurd rfl hne
      | _ => exact .inl h
    | _ => exact .inl h
  · rw [step_runable hst ha] at h
    exact .inl h

theorem Taken.back (h : s'.Taken i fb) (hst : s.step a = some s') :
    s.Taken i fb ∨ s.Runnable i fb := by
  unfold Taken Runnable at *
  rcases step_pc hst i with rfl | he | ⟨⟨b, -, hb⟩, -⟩
  · obtain ⟨p, fibers, hn, -, rfl⟩ := procStep_spec hst
    simp only [setProc, Function.update_self] at h
    generalize s.fiberState (s.m_processers i).pc = state at hn
    generalize s.m_processers i = q at hn ⊢
    cases Processer.next_spec hn with
    | take q x rest =>
      have hx : x = fb := by simpa using h
      rw [hx]
      exact .inr List.mem_cons_self
    | check q x =>
      left
      cases hs : s.isStopping with
      | true => simp [hs] at h
      | false =>
        have hx : x = fb := by simpa [hs] using h
        exact .inl (by rw [hx])
    | resume q x =>
      have hx : x = fb := by simpa using h
      exact .inl (.inr (.inl (by rw [hx])))
    | fetched q r =>
      cases r with
      | switch => simp [Processer.back] at h
      | idle =>
        simp only [Processer.back] at h
        split at h <;> simp at h
    | switch q x => cases state <;> simp [Processer.switched] at h
    | loop | test | again | many =>
      simp only at h
      split at h <;> simp at h
    | _ => simp at h
  · rw [he] at h
    exact .inl h
  · rw [hb] at h
    simp at h

theorem Before.back (h : s'.Before fb) (hst : s.step a = some s') (hinv : s.Inv) :
    s.Before fb ∨ ∃ c, s'.callers c = .read fb := by
  rcases h with ⟨c, h⟩ | ⟨i, h | h | h⟩
  · rcases h.back hst with h | h
    · exact .inl (.inl ⟨c, h⟩)
    · exact .inr ⟨c, h⟩
  · rcases h.back hst with h | h
    · exact .inl (.inr ⟨i, .inl h⟩)
    · exact .inl (.inl h)
  · rcases h.back hst hinv with h | h
    · exact .inl (.inr ⟨i, .inr (.inl h)⟩)
    · exact .inl (.inr ⟨i, .inl h⟩)
  · rcases h.back hst with h | h
    · exact .inl (.inr ⟨i, .inr (.inr h)⟩)
    · exact .inl (.inr ⟨i, .inr (.inl h)⟩)

/-- There is one entry for it, so it is nowhere about to be swapped in. -/
theorem Before.not_entering (h : s.Before fb) (hinv : s.Inv) (i : Fin m) :
    (s.m_processers i).pc ≠ .swapIn fb := by
  intro hpc
  have htok : tokOf (s.m_processers i) fb = (s.m_processers i).newQueue.count fb +
      (s.m_processers i).runableQueue.count fb + 1 := by
    simp [tokOf, hpc, inHand]
  obtain ⟨hone, hother, haway⟩ := (hinv.life fb).only (i := i) (by
    change 0 < tokOf (s.m_processers i) fb
    omega)
  change tokOf (s.m_processers i) fb = 1 at hone
  rcases h with ⟨c, h⟩ | ⟨j, h⟩
  · exact h (haway c)
  · have hpos : 0 < tokOf (s.m_processers j) fb := by
      unfold tokOf
      rcases h with h | h | h
      · have := List.count_pos_iff.mpr h
        omega
      · have := List.count_pos_iff.mpr h
        omega
      · rcases h with h | h | h <;> simp [h, inHand]
    have hj : j = i := by
      by_contra hne
      have hzero : tokOf (s.m_processers j) fb = 0 := hother j hne
      omega
    subst hj
    rcases h with h | h | h
    · have := List.count_pos_iff.mpr h
      omega
    · have := List.count_pos_iff.mpr h
      omega
    · unfold Taken at h
      rw [hpc] at h
      simp at h

/-! ## Asleep with an empty `runableQueue` -/

/-- In `idle`. -/
def inIdle : ProcPc Nat → Bool
  | .gcLock | .test | .clear | .publish | .again | .wait | .waiting _ | .wake => true
  | _ => false

theorem idle_empty (hr : (lts m k).Reachable s) (i : Fin m)
    (hidle : inIdle (s.m_processers i).pc = true) : (s.m_processers i).runableQueue = [] := by
  have hind : (lts m k).Inductive fun s : Scheduler m k =>
      ∀ i, inIdle (s.m_processers i).pc = true → (s.m_processers i).runableQueue = [] := by
    refine ⟨fun s hs i hi => ?_, fun s a s' h hst i hi => ?_⟩
    · rw [show s = started from hs] at hi
      cases hi
    · change s.step a = some s' at hst
      by_cases ha : a = .proc i
      · subst ha
        have hi' := h i
        obtain ⟨p, fibers, hn, -, rfl⟩ := procStep_spec hst
        simp only [setProc, Function.update_self] at hi ⊢
        generalize s.m_processers i = q at hn hi'
        cases Processer.next_spec hn with
        | fetched q r =>
          cases r with
          | switch => cases hi
          | idle =>
            simp only [Processer.back] at hi
            split at hi
            · next he => exact he
            · cases hi
        | loop | check | many =>
          simp only at hi
          split at hi <;> cases hi
        | switch q x =>
          generalize s.fiberState _ = state at hi
          cases state <;> cases hi
        | gcLock | test | clear | publish | again | wait | waiting | wake => exact hi' rfl
        | _ => cases hi
      · rw [step_runable hst ha]
        refine h i ?_
        rcases step_pc hst i with he | he | ⟨⟨b, hb, -⟩, -⟩
        · exact absurd he ha
        · rw [← he]
          exact hi
        · rw [hb]
          rfl
  exact hind.reachable s hr i hidle

/-! ## How far it is -/

/-- The fibers before it, and how many may still come behind it. -/
def queueAhead (s : Scheduler m k) (i : Fin m) (fb : Nat) : ℕ ×ₗ ℕ :=
  toLex ((s.m_processers i).newQueue.idxOf fb, capacity - (s.m_processers i).newQueue.length)

theorem Queued.ahead (h : s.Queued i fb) (hst : s.step a = some s') (hnot : ¬ s'.Runnable i fb) :
    (s'.m_processers i).newQueue = (s.m_processers i).newQueue ∨
      s'.queueAhead i fb < s.queueAhead i fb := by
  unfold Queued Runnable queueAhead at *
  rcases step_newQueue hst i with rfl | he | ⟨hlt, x, he⟩
  · obtain ⟨p, fibers, hn, -, rfl⟩ := procStep_spec hst
    simp only [setProc, Function.update_self] at hnot ⊢
    rcases Processer.next_queue hn with ⟨he, -⟩ | ⟨he, -⟩ | ⟨-, he, -, -, -, hrun⟩
    · exact .inl he
    · exact .inl he
    · right
      rw [hrun] at hnot
      rw [he]
      cases hq : (s.m_processers i).newQueue with
      | nil =>
        rw [hq] at h
        cases h
      | cons x q =>
        have hne : x ≠ fb := fun hx => hnot (List.mem_append_right _ (by simp [hq, hx]))
        refine Prod.Lex.toLex_lt_toLex.mpr (.inl ?_)
        simp [List.idxOf_cons_ne q hne]
  · exact .inl he
  · right
    rw [he]
    refine Prod.Lex.toLex_lt_toLex.mpr (.inr ⟨List.idxOf_append_of_mem h, ?_⟩)
    simp only [List.length_append, List.length_singleton]
    omega

/-- The fibers before it, and what the processer has to do until it takes the next one. -/
def runAhead (s : Scheduler m k) (i : Fin m) (fb : Nat) : ℕ ×ₗ (ℕ ×ₗ ℕ) :=
  toLex ((s.m_processers i).runableQueue.idxOf fb, (s.m_processers i).round (s.counting i))

theorem Runnable.ahead (h : s.Runnable i fb) (hst : s.procStep i = some s')
    (hnot : ¬ s'.Taken i fb) : s'.runAhead i fb < s.runAhead i fb := by
  obtain ⟨p, fibers, hn, -, rfl⟩ := procStep_spec hst
  unfold Runnable Taken runAhead counting at *
  simp only [setProc, Function.update_self] at hnot ⊢
  generalize s.fiberState (s.m_processers i).pc = state at hn
  generalize s.m_processers i = q at hn h
  by_cases htake : q.pc = .take
  · refine Prod.Lex.toLex_lt_toLex.mpr (.inl ?_)
    cases Processer.next_spec hn with
    | take q x rest =>
      have hne : x ≠ fb := fun hx => hnot (.inl (by rw [hx]))
      simp [List.idxOf_cons_ne rest hne]
    | empty => cases h
    | _ => cases htake
  · refine Prod.Lex.toLex_lt_toLex.mpr (.inr ⟨?_, Processer.next_round hn htake⟩)
    cases Processer.next_spec hn with
    | take | empty => exact absurd rfl htake
    | pop => exact List.idxOf_append_of_mem h
    | switch q x =>
      cases state with
      | running => exact List.idxOf_append_of_mem h
      | _ => rfl
    | _ => rfl

theorem Runnable.awake (h : s.Runnable i fb) (hr : (lts m k).Reachable s) :
    (s.m_processers i).pc ≠ .waiting false := by
  intro hpc
  unfold Runnable at h
  rw [idle_empty hr i (by rw [hpc]; rfl)] at h
  cases h

theorem Taken.awake (h : s.Taken i fb) :
    (s.m_processers i).pc ≠ .waiting false ∧ (s.m_processers i).pc ≠ .take := by
  rcases h with h | h | h <;> rw [h] <;> exact ⟨nofun, nofun⟩

/-- A step of its own thread shortens the round of a processer that does not take a fiber with
it. -/
theorem procStep_round (hst : s.procStep i = some s') (htake : (s.m_processers i).pc ≠ .take) :
    (s'.m_processers i).round (s'.counting i) < (s.m_processers i).round (s.counting i) := by
  obtain ⟨p, fibers, hn, -, rfl⟩ := procStep_spec hst
  simp only [setProc, Function.update_self]
  exact Processer.next_round hn htake

end Ppcode.Scheduler
