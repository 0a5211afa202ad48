import Ppcode.Core.Fairness
import Ppcode.Fiber.ProcesserQueue
import Ppcode.Fiber.SchedulerAffinity
import Ppcode.Fiber.SchedulerStep

/-!
# `createFiber` from a fiber

The loop of processer.cc:70 waits for room in the `newQueue` of the processer that
`addFiber` has chosen. Only that processer's own thread makes room, in
`getNewFibers`, and it does not get there as long as the fiber that it runs does not
swap out.

`owner c = some i`: the thread `c` makes the calls of `createFiber` of the fiber that
the processer at `i` runs. The other threads are users, the poller's thread, and
fibers in a call of `addFiber` of their own.

A run is infinite and fair to the threads that call and to the processers'
(`FairRun`). `Stalled` says that a fiber's call waits for room at a processer, and
that a set of processers with that one in it waits for itself.

* `Sound.step`: what holds in every state of such a run; a fiber with a call in
  progress is not swapped out.
* `Blocked.step`: nothing gets a stalled set of processers out of where it is.
* `stalled_self`: the shortest case, one processer whose fiber waits for room there.
-/
namespace Ppcode.Scheduler
open Processer (ProcPc AddPc capacity)
variable {m k : Nat}

/-- The processer at `i` runs a fiber that has not begun to swap out. -/
def Runs (s : Scheduler m k) (i : Fin m) : Prop :=
  ∃ fb, (s.m_processers i).pc = .inFiber fb ∧ (s.fibers fb).pc = .run

/-! ## Runs -/

section Owner
variable (owner : Fin k → Option (Fin m))

/-- The fiber that the processer at `i` runs has no call in progress. -/
def Free (s : Scheduler m k) (i : Fin m) : Prop := ∀ c, owner c = some i → s.callers c = .idle

/-- A fiber that calls runs, and does one thing at a time. -/
def InOrder (s : Scheduler m k) : Act m k → Prop
  | .createFiber c _ => ∀ i, owner c = some i → s.Runs i ∧ s.Free owner i
  | .addFiber c _ => owner c = none
  | .register i | .withdraw i | .yield i | .finish i => s.Free owner i
  | .call _ | .proc _ | .stop => True

def fiberLts : LTS (Scheduler m k) (Act m k) := (lts m k).restrict (InOrder owner)

/-- A thread that can go on again and again does. -/
structure FairRun (σ : ℕ → Scheduler m k) (l : ℕ → Option (Act m k)) : Prop where
  path : (fiberLts owner).Path σ l
  calls : ∀ c, (fiberLts owner).Fair σ l (.call c)
  procs : ∀ i, (fiberLts owner).Fair σ l (.proc i)

/-- Every call of `createFiber` from a fiber returns. -/
def Returns (σ : ℕ → Scheduler m k) : Prop := ∀ c i t, owner c = some i →
  (σ t).callers c ≠ .idle → ∃ t' ≥ t, (σ t').callers c = .idle

/-- From `t` on the fiber that the processer at `i` runs is not swapped out, though none of its
calls stays: its function goes on and on. -/
def Hogs (σ : ℕ → Scheduler m k) (t : ℕ) (i : Fin m) : Prop :=
  ∀ t' ≥ t, (σ t').Runs i ∧ ∀ c, owner c = some i → ∃ t'' ≥ t', (σ t'').callers c = .idle

/-! ## Waiting for room -/

def Full (s : Scheduler m k) (i : Fin m) : Prop := capacity ≤ (s.m_processers i).newQueue.length

/-- In the loop of processer.cc:70. -/
def Spins (s : Scheduler m k) (c : Fin k) (i : Fin m) : Prop :=
  ∃ moves fb, s.callers c = .add i moves (.push fb)

/-- In `m_cv.wait`, and no call is on its way to notify it. -/
structure Asleep (s : Scheduler m k) (i : Fin m) : Prop where
  waiting : (s.m_processers i).pc = .waiting false
  pushing : ∀ c moves a, s.callers c = .add i moves a → ∃ fb, a = .enter fb ∨ a = .push fb

/-- Between `idle` and the end of `execute`. -/
def quits : ProcPc Nat → Bool
  | .again | .wait | .waiting _ | .wake | .loop | .exited => true
  | _ => false

/-- The scheduler is being destroyed, and this processer takes no fibers any more. -/
structure Quits (s : Scheduler m k) (i : Fin m) : Prop where
  stopping : s.m_state = .stop
  pc : quits (s.m_processers i).pc = true

/-- Each of these processers has no room, and does not get to make any: it sleeps, it quits, its
fiber hogs it, or its fiber waits for room at one of them. -/
def Blocked (s : Scheduler m k) (hogs : Fin m → Prop) (procs : Set (Fin m)) : Prop :=
  ∀ i ∈ procs, s.Full i ∧ ((s.Asleep i ∨ s.Quits i) ∨ hogs i ∨
    ∃ c, owner c = some i ∧ ∃ j ∈ procs, s.Spins c j)

/-- A fiber's call waits for room at one of them. -/
def Stalled (s : Scheduler m k) (hogs : Fin m → Prop) : Prop :=
  ∃ procs, s.Blocked owner hogs procs ∧ ∃ c, (owner c).isSome ∧ ∃ j ∈ procs, s.Spins c j

end Owner

/-! ## What holds in every state of a run -/

section Owner
variable (owner : Fin k → Option (Fin m))

structure Sound (s : Scheduler m k) : Prop where
  inv : s.Inv
  up : ∀ i, (s.m_processers i).pc = .exited → s.m_state = .stop
  room : ∀ i, (s.m_processers i).newQueue.length ≤ capacity
  adding : ∀ c i moves, s.callers c ≠ .add i moves .idle
  calling : ∀ c i, owner c = some i → s.callers c ≠ .idle → s.Runs i

variable {owner}
variable {s s' : Scheduler m k} {a : Act m k}

theorem sound_started : (started : Scheduler m k).Sound owner where
  inv := inv_started
  up _ := by
    intro hc
    cases hc
  room _ := Nat.zero_le _
  adding _ _ _ := by
    intro hc
    cases hc
  calling _ _ _ hc := absurd rfl hc

theorem next_exited {stopping : Bool} {state : TaskState} {p p' : Processer Nat}
    (h : p.next stopping state = some p') (hc : p'.pc = .exited) : stopping = true := by
  have hloop := Processer.next_loop h (.inr hc)
  rw [hc] at hloop
  by_contra hne
  rw [if_neg hne] at hloop
  cases hloop

/-- A scheduler that is stopping goes on to. -/
theorem stop_step (h : s.Inv) (hst : s.step a = some s') (hs : a = .stop ∨ s.m_state = .stop) :
    s'.m_state = .stop := by
  by_cases ha : a = .stop
  · subst ha
    obtain ⟨-, -, -, hne, -⟩ := stopStep_spec hst
    exact (inv_step h hst).stop hne
  · rw [(step_state hst ha).1]
    exact hs.resolve_left ha

theorem runs_step (h : s.Sound owner) {i : Fin m} (hruns : s.Runs i) (hst : s.step a = some s')
    (hswap : a ≠ .yield i ∧ a ≠ .finish i) : s'.Runs i := by
  obtain ⟨fb, hpc, hrun⟩ := hruns
  refine ⟨fb, ?_, step_run hst hrun fun j hj => ?_⟩
  · rcases step_pc hst i with rfl | he | ⟨⟨b, hb, -⟩, -⟩
    · obtain ⟨p, fibers, -, hw, -⟩ := procStep_spec hst
      simp only [hpc, fiberWrite, hrun] at hw
      cases hw
    · rw [he]
      exact hpc
    · rw [hpc] at hb
      cases hb
  · rw [h.inv.law.one j i fb hj hpc]
    exact hswap

section Step
variable (h : s.Sound owner) (hst : s.step a = some s') (hord : s.InOrder owner a)
include h hst

theorem step_up (i : Fin m) (hc : (s'.m_processers i).pc = .exited) : s'.m_state = .stop := by
  refine stop_step h.inv hst (.inr ?_)
  rcases step_pc hst i with rfl | he | ⟨⟨b, -, hb⟩, -⟩
  · obtain ⟨p, fibers, hn, -, rfl⟩ := procStep_spec hst
    simp only [setProc, Function.update_self] at hc
    exact of_decide_eq_true (next_exited hn hc)
  · rw [he] at hc
    exact h.up i hc
  · rw [hb] at hc
    cases hc

theorem step_room (i : Fin m) : (s'.m_processers i).newQueue.length ≤ capacity := by
  have hle := h.room i
  rcases step_newQueue hst i with rfl | he | ⟨hlt, fb, he⟩
  · obtain ⟨p, fibers, hn, -, rfl⟩ := procStep_spec hst
    simp only [setProc, Function.update_self]
    rcases Processer.next_queue hn with ⟨he, -⟩ | ⟨he, -⟩ | ⟨-, he, -⟩
    · rw [he]
      exact hle
    · rw [he]
      exact hle
    · rw [he, List.length_drop]
      omega
  · rw [he]
    exact hle
  · rw [he, List.length_append, List.length_singleton]
    exact hlt

theorem step_adding (c : Fin k) (i : Fin m) (moves : Bool) : s'.callers c ≠ .add i moves .idle := by
  intro hc
  rcases step_caller hst c with rfl | he | ⟨-, fb, -, he⟩
  · cases callStep_goes hst with
    | add j moves' x x' p hc' =>
      simp only [setCaller, Function.update_self, after] at hc
      split at hc
      · split at hc <;> cases hc
      · rename_i hne
        cases hc
        exact hne rfl
    | way id pc hrank hold hnew =>
      simp only [setCaller, Function.update_self] at hc
      obtain ⟨fb, hfb⟩ := hnew i moves _ hc
      cases hfb
  · rw [he] at hc
    exact h.adding c i moves hc
  · rw [he] at hc
    cases hc

include hord

/-- A fiber is not swapped out while a call of it is in progress. -/
theorem step_calling {c : Fin k} {i : Fin m} (ho : owner c = some i)
    (hc : s'.callers c ≠ .idle) : s'.Runs i := by
  have hruns : s.Runs i ∧ a ≠ .yield i ∧ a ≠ .finish i := by
    rcases step_caller hst c with rfl | he | ⟨hidle, fb, rfl | rfl, -⟩
    · refine ⟨h.calling c i ho fun hidle => ?_, by simp, by simp⟩
      change s.callStep c = _ at hst
      unfold callStep at hst
      simp only [hidle] at hst
      cases hst
    · rw [he] at hc
      refine ⟨h.calling c i ho hc, ?_, ?_⟩
      · rintro rfl
        exact hc (hord c ho)
      · rintro rfl
        exact hc (hord c ho)
    · exact ⟨(hord i ho).1, by simp, by simp⟩
    · change owner c = none at hord
      rw [ho] at hord
      cases hord
  exact runs_step h hruns.1 hst hruns.2

theorem Sound.step : s'.Sound owner where
  inv := inv_step h.inv hst
  up := step_up h hst
  room := step_room h hst
  adding := step_adding h hst
  calling _ _ := step_calling h hst hord

end Step

theorem fiberLts_reachable (s : Scheduler m k) (hr : (fiberLts owner).Reachable s) :
    (lts m k).Reachable s := by
  have hind : (fiberLts owner).Inductive (lts m k).Reachable :=
    ⟨fun _ h => LTS.reachable_init h, fun _ _ _ h hst => h.step hst.1⟩
  exact hind.reachable s hr

theorem sound (s : Scheduler m k) (hr : (fiberLts owner).Reachable s) : s.Sound owner := by
  have hind : (fiberLts owner).Inductive (Sound owner) := by
    refine ⟨fun s hs => ?_, fun s a s' h hst => h.step hst.1 hst.2⟩
    rw [show s = started from hs]
    exact sound_started
  exact hind.reachable s hr

/-! ## A stalled set of processers -/

theorem procStep_runs {i : Fin m} (hruns : s.Runs i) : s.procStep i = none := by
  obtain ⟨fb, hpc, hrun⟩ := hruns
  cases hst : s.procStep i with
  | none => rfl
  | some s' =>
    obtain ⟨p, fibers, -, hw, -⟩ := procStep_spec hst
    simp only [hpc, fiberWrite, hrun] at hw
    cases hw

theorem procStep_waiting {i : Fin m} (hpc : (s.m_processers i).pc = .waiting false) :
    s.procStep i = none := by
  cases hst : s.procStep i with
  | none => rfl
  | some s' =>
    obtain ⟨p, fibers, hn, -, -⟩ := procStep_spec hst
    simp only [Processer.next, hpc] at hn
    cases hn

theorem push_full {c : Fin k} {i : Fin m} (hc : s.Spins c i) (hfull : s.Full i) :
    s.callStep c = none := by
  obtain ⟨moves, fb, hc⟩ := hc
  unfold callStep
  simp only [hc, Processer.addStep, if_neg (not_lt.mpr hfull), Option.map_none]

/-- Only `getNewFibers` makes room. -/
theorem Full.step {i : Fin m} (hfull : s.Full i) (hst : s.step a = some s')
    (hpop : (s.m_processers i).pc.left = 0) : s'.Full i := by
  unfold Full at hfull ⊢
  rcases step_newQueue hst i with rfl | he | ⟨hlt, -⟩
  · obtain ⟨p, fibers, hn, -, rfl⟩ := procStep_spec hst
    simp only [setProc, Function.update_self]
    rcases Processer.next_queue hn with ⟨he, -⟩ | ⟨he, -⟩ | ⟨hleft, -⟩
    · rw [he]
      exact hfull
    · rw [he]
      exact hfull
    · omega
  · rw [he]
    exact hfull
  · exact absurd hlt (not_lt.mpr hfull)

theorem Spins.step {c : Fin k} {i : Fin m} (hc : s.Spins c i) (hfull : s.Full i)
    (hst : s.step a = some s') : s'.Spins c i := by
  rcases step_caller hst c with rfl | he | ⟨hidle, -⟩
  · rw [show s.step (.call c) = s.callStep c from rfl, push_full hc hfull] at hst
    cases hst
  · unfold Spins
    rw [he]
    exact hc
  · obtain ⟨moves, fb, hc⟩ := hc
    rw [hidle] at hc
    cases hc

theorem Quits.step {i : Fin m} (h : s.Quits i) (hinv : s.Inv) (hst : s.step a = some s') :
    s'.Quits i where
  stopping := stop_step hinv hst (.inr h.stopping)
  pc := by
    have hpc := h.pc
    rcases step_pc hst i with rfl | he | ⟨⟨b, -, hb⟩, -⟩
    · obtain ⟨p, fibers, hn, -, rfl⟩ := procStep_spec hst
      simp only [setProc, Function.update_self]
      rw [show s.isStopping = true from decide_eq_true h.stopping] at hn
      generalize s.m_processers i = q at hn hpc
      cases Processer.next_spec hn with
      | again p =>
        simp only
        split <;> rfl
      | loop | wait | waiting | wake => rfl
      | _ => cases hpc
    · rw [he]
      exact hpc
    · rw [hb]
      rfl

/-- No call is on its way to notify a processer whose `newQueue` stays full. -/
theorem Asleep.pushing_step {i : Fin m} (h : s.Asleep i) (hfull : s.Full i)
    (hst : s.step a = some s') (c : Fin k) (moves : Bool) (x : AddPc Nat)
    (hx : s'.callers c = .add i moves x) : ∃ fb, x = .enter fb ∨ x = .push fb := by
  rcases step_caller hst c with rfl | he | ⟨-, fb, -, he⟩
  · cases callStep_goes hst with
    | add j moves' y y' p hy hadd =>
      simp only [setCaller, Function.update_self, after] at hx
      split at hx
      · split at hx <;> cases hx
      · rename_i hne
        cases hx
        rcases addStep_cases hadd with ⟨fb, -, -, he | he⟩ | ⟨fb, -, -, hlt, -⟩ | ⟨hdue, -⟩
        · exact absurd he hne
        · exact ⟨fb, .inr he⟩
        · exact absurd hlt (not_lt.mpr hfull)
        · obtain ⟨fb, rfl | rfl⟩ := h.pushing c _ y hy
          · cases hdue
          · cases hdue
    | way id pc hrank hold hnew =>
      simp only [setCaller, Function.update_self] at hx
      obtain ⟨fb, hfb⟩ := hnew i moves x hx
      exact ⟨fb, .inl hfb⟩
  · rw [he] at hx
    exact h.pushing c moves x hx
  · rw [he] at hx
    cases hx

/-- Only the destructor wakes it, and then it takes no fibers any more. -/
theorem Asleep.step {i : Fin m} (h : s.Asleep i) (hinv : s.Inv) (hfull : s.Full i)
    (hst : s.step a = some s') : s'.Asleep i ∨ s'.Quits i := by
  have hpushing := h.pushing_step hfull hst
  rcases step_pc hst i with rfl | he | ⟨⟨b, -, hb⟩, rfl | ⟨c, moves, -, hc⟩⟩
  · rw [show s.step (.proc i) = s.procStep i from rfl, procStep_waiting h.waiting] at hst
    cases hst
  · exact .inl ⟨by rw [he]; exact h.waiting, hpushing⟩
  · exact .inr ⟨stop_step hinv hst (.inl rfl), by rw [hb]; rfl⟩
  · obtain ⟨fb, he | he⟩ := h.pushing c moves _ hc
    · cases he
    · cases he

section Blocked
variable {hogs hogs' : Fin m → Prop} {procs : Set (Fin m)}

/-- None of them is in the loop of `getNewFibers`. -/
theorem Blocked.left (hb : s.Blocked owner hogs procs) (h : s.Sound owner)
    (hhogs : ∀ i, hogs i → s.Runs i) {i : Fin m} (hi : i ∈ procs) :
    (s.m_processers i).pc.left = 0 := by
  have hruns (hruns : s.Runs i) : (s.m_processers i).pc.left = 0 := by
    obtain ⟨fb, hpc, -⟩ := hruns
    rw [hpc]
    rfl
  obtain ⟨-, (hs | hq) | hh | ⟨c, ho, j, -, moves, fb, hc⟩⟩ := hb i hi
  · rw [hs.waiting]
    rfl
  · have hpc := hq.pc
    cases hp : (s.m_processers i).pc with
    | pop => simp [hp, quits] at hpc
    | _ => rfl
  · exact hruns (hhogs i hh)
  · exact hruns (h.calling c i ho (by simp [hc]))

theorem Blocked.mono (hb : s.Blocked owner hogs procs) (hle : ∀ i, hogs i → hogs' i) :
    s.Blocked owner hogs' procs := fun i hi =>
  ⟨(hb i hi).1, (hb i hi).2.imp_right fun h => h.imp_left (hle i)⟩

theorem Blocked.step (hb : s.Blocked owner hogs procs) (h : s.Sound owner)
    (hhogs : ∀ i, hogs i → s.Runs i ∧ hogs' i) (hst : s.step a = some s') :
    s'.Blocked owner hogs' procs := by
  intro i hi
  obtain ⟨hfull, hcase⟩ := hb i hi
  refine ⟨hfull.step hst (hb.left h (fun i hi => (hhogs i hi).1) hi), ?_⟩
  rcases hcase with (hs | hq) | hh | ⟨c, ho, j, hj, hc⟩
  · exact .inl (hs.step h.inv hfull hst)
  · exact .inl (.inr (hq.step h.inv hst))
  · exact .inr (.inl (hhogs i hh).2)
  · exact .inr (.inr ⟨c, ho, j, hj, hc.step (hb j hj).1 hst⟩)

/-- A call that waits for room at its own fiber's processer, where there is none. -/
theorem stalled_self {c : Fin k} {i : Fin m} (ho : owner c = some i) (hc : s.Spins c i)
    (hfull : s.Full i) : s.Stalled owner hogs := by
  refine ⟨{i}, fun j hj => ?_, c, by rw [ho]; rfl, i, rfl, hc⟩
  rw [Set.mem_singleton_iff.mp hj]
  exact ⟨hfull, .inr (.inr ⟨c, ho, i, rfl, hc⟩)⟩

end Blocked
end Owner
end Ppcode.Scheduler
