import Ppcode.Core.Fairness
import Ppcode.Fiber.CallReturns
import Ppcode.Fiber.StopLaw

/-!
# Whether the destructor comes to its end

`Scheduler::~Scheduler` joins the threads of the processers and the poller's, and then
deletes what they run on. `caller c` is the thread that makes the calls of `addFiber` that
have the number `c`: the poller's thread in a round (`work`), the fiber that a processer runs
(`inFiber`), or another one. The poller's thread and a fiber do not go on before their call
has returned (`InOrder`), and the loop of processer.cc:70 may keep them for ever.

A run is infinite and fair to the owner, to the processers' threads and to the poller's
(`FairRun`); the other threads that call `addFiber` may stop anywhere, and may call again
and again.

* `exits`: a processer that has been told comes to its end.
* `poller_exits`: so does a poller that has been stopped and stays so (`poller_stops`).
* `ends_iff`: in a fair run the destructor comes to its end, and then all threads are at
  theirs, exactly where the poller's thread has made its first store when the owner wakes
  it (scheduler.cc:139), and no call of the poller's thread or of a fiber goes on for ever.
-/
namespace Ppcode
open Filter

/-- How many steps the owner has to take at most. -/
def OwnerPc.rank (m : Nat) : OwnerPc → Nat
  | .spawn i => 4 * m + 11 - i
  | .spawnPoller => 3 * m + 10
  | .publish => 3 * m + 9
  | .started => 3 * m + 8
  | .set i => m + 7 + 2 * (m - i)
  | .notify i => m + 6 + 2 * (m - i)
  | .join i => 6 + (m - i)
  | .testPoller => 5
  | .setPoller => 4
  | .notifyPoller => 3
  | .joinPoller => 2
  | .finish => 1
  | .done => 0

namespace Lifetime
open Processer (ProcPc AddPc)
variable {m k : Nat} {s s' : Lifetime m k}

/-! ## Who waits for what -/

theorem ownerStep_rank (h : s.Law) (hst : s.ownerStep = some s') :
    s'.owner.rank m < s.owner.rank m := by
  have he := h.expects
  unfold Expects at he
  cases ownerStep_spec hst with
  | spawned i hi ho =>
    simp only [ho] at he
    simp only [ho, OwnerPc.rank]
    omega
  | spawn i ho | set i ho | notify i p ho | join i ho =>
    have hi := i.isLt
    simp only [ho, OwnerPc.rank]
    omega
  | told _ _ ho | joined _ _ ho | spawnPoller ho | publish ho | destroy ho | found ho | testPoller ho
  | setPoller ho | notifyPoller ho | joinPoller ho | finish ho =>
    simp only [ho, OwnerPc.rank]
    omega

/-- A processer takes from `runableQueue` at most once more. -/
def exitRank (c : Nat) (p : Processer Nat) : ℕ ×ₗ (ℕ ×ₗ ℕ) :=
  toLex (if p.pc = .take then 1 else 0, p.round c)

/-- It goes to the outer loop's condition first, which ends it. -/
theorem next_ne_take {p p' : Processer Nat} {state : TaskState} (hn : p.next true state = some p') :
    p'.pc ≠ .take := by
  intro hc
  have hloop := Processer.next_loop hn (.inl hc)
  rw [hc] at hloop
  cases hloop

theorem next_exitRank {p p' : Processer Nat} {state : TaskState} {c : Nat}
    (hn : p.next true state = some p') : exitRank c p' < exitRank c p := by
  unfold exitRank
  rw [if_neg (next_ne_take hn)]
  by_cases ht : p.pc = .take
  · rw [if_pos ht]
    exact Prod.Lex.toLex_lt_toLex.mpr (.inl Nat.zero_lt_one)
  · rw [if_neg ht]
    exact Prod.Lex.toLex_lt_toLex.mpr (.inr ⟨rfl, Processer.next_round hn ht⟩)

theorem exit_step {a : Act m k} {i : Fin m} (h : s.Goes i a s') (hproc : ∀ state, a ≠ .proc i state)
    (howner : a ≠ .owner) (htold : Told (s.m_processers i)) :
    exitRank (s'.counting i) (s'.m_processers i) ≤ exitRank (s.counting i) (s.m_processers i) := by
  have hround := round_step h hproc howner htold.awake
  have htake : (s'.m_processers i).pc = .take ↔ (s.m_processers i).pc = .take := by
    cases h with
    | proc state => exact absurd rfl (hproc state)
    | owner => exact absurd rfl howner
    | rest _ _ _ _ hat => rw [hat]
    | call c x x' p _ hc hadd hat =>
      rw [hat]
      rcases Scheduler.addStep_cases hadd with
        ⟨-, -, he, -⟩ | ⟨fb, -, -, -, he⟩ | ⟨-, -, he | ⟨-, b, hb, hb'⟩⟩
      · rw [he]
      · rw [he]
      · rw [he]
      · simp [hb, hb']
  unfold exitRank
  simp only [htake]
  exact Prod.Lex.toLex_le_toLex.mpr (.inr ⟨rfl, hround⟩)

/-- The owner waits for `m_mutex` of a processer, or for a thread that it joins, or it is done. -/
def Waits (s : Lifetime m k) : Prop :=
  match s.owner with
  | .notify i => ∃ h : i < m, (s.m_processers ⟨i, h⟩).pc.locked = true
  | .join i => ∃ h : i < m, (s.m_processers ⟨i, h⟩).pc ≠ .exited
  | .joinPoller => s.poller ≠ .exited
  | .done => True
  | _ => False

theorem ownerStep_none (h : s.Law) (hn : s.ownerStep = none) : s.Waits := by
  have he := h.expects
  unfold Expects at he
  unfold ownerStep at hn
  unfold Waits
  cases ho : s.owner with
  | spawn i | set i =>
    simp only [ho] at hn
    split at hn <;> cases hn
  | spawnPoller | publish | testPoller | setPoller | notifyPoller | finish =>
    simp only [ho] at hn
    cases hn
  | started =>
    simp only [ho] at he hn
    rw [he.2.2] at hn
    cases hn
  | notify i =>
    simp only [ho] at he hn
    rw [dif_pos he.2.2.2, Option.map_eq_none_iff] at hn
    exact ⟨he.2.2.2, by simpa [Processer.notify] using hn⟩
  | join i =>
    simp only [ho] at hn
    split at hn
    · next hi =>
      split at hn
      · cases hn
      · next hne => exact ⟨hi, hne⟩
    · cases hn
  | joinPoller =>
    simp only [ho] at hn
    split at hn
    · cases hn
    · next hne => exact hne
  | done => trivial

theorem step_owner {a : Act m k} (hst : s.step a = some s') (ha : a ≠ .owner) :
    s'.owner = s.owner ∧ s'.made = s.made ∧ s'.m_state = s.m_state := by
  cases a with
  | owner => exact absurd rfl ha
  | poller eintr =>
    simp only [step, pollerStep] at hst
    split at hst <;> cases hst <;> exact ⟨rfl, rfl, rfl⟩
  | proc i state =>
    simp only [step, Option.ite_none_right_eq_some] at hst
    obtain ⟨p, -, rfl⟩ := Option.map_eq_some_iff.mp hst.2
    exact ⟨rfl, rfl, rfl⟩
  | addFiber c i fb =>
    simp only [step, Option.ite_none_right_eq_some, Option.some.injEq] at hst
    obtain ⟨-, rfl⟩ := hst
    exact ⟨rfl, rfl, rfl⟩
  | call c =>
    simp only [step] at hst
    split at hst
    · cases hst
    · obtain ⟨r, -, rfl⟩ := Option.map_eq_some_iff.mp hst
      exact ⟨rfl, rfl, rfl⟩

/-- Only its own thread moves the poller on, once it is made. -/
theorem step_poller {a : Act m k} (hst : s.step a = some s') (ha : ∀ eintr, a ≠ .poller eintr)
    (ho : a ≠ .owner) : s'.poller = s.poller ∧ s'.pollerState = s.pollerState := by
  cases a with
  | owner => exact absurd rfl ho
  | poller eintr => exact absurd rfl (ha eintr)
  | proc i state =>
    simp only [step, Option.ite_none_right_eq_some] at hst
    obtain ⟨p, -, rfl⟩ := Option.map_eq_some_iff.mp hst.2
    exact ⟨rfl, rfl⟩
  | addFiber c i fb =>
    simp only [step, Option.ite_none_right_eq_some, Option.some.injEq] at hst
    obtain ⟨-, rfl⟩ := hst
    exact ⟨rfl, rfl⟩
  | call c =>
    simp only [step] at hst
    split at hst
    · cases hst
    · obtain ⟨r, -, rfl⟩ := Option.map_eq_some_iff.mp hst
      exact ⟨rfl, rfl⟩

/-! ## The poller -/

/-- How many steps the poller's thread has to take at most when it and the scheduler are
stopping. -/
def pollerRank : PollerPc → Nat
  | .exited => 0
  | .top | .test => 1
  | .wait | .work => 2
  | .start => 3
  | .none => 4

theorem pollerStep_rank {eintr : Bool} (hst : s.pollerStep eintr = some s')
    (hstop : s.stopping = true) (hstop' : s.isStopping = true) :
    pollerRank s'.poller < pollerRank s.poller := by
  unfold pollerStep at hst
  cases hp : s.poller with
  | none | exited => simp [hp] at hst
  | start | work =>
    simp only [hp] at hst
    cases hst
    simp [pollerRank]
  | top | test =>
    simp only [hp, hstop, hstop', Bool.and_self, if_true] at hst
    cases hst
    simp [pollerRank]
  | wait =>
    simp only [hp] at hst
    cases hst
    cases eintr <;> simp [pollerRank]

theorem pollerStep_begun {eintr : Bool} (hst : s.pollerStep eintr = some s')
    (hp : s.poller ≠ .start) : s'.poller ≠ .start ∧ s'.pollerState = s.pollerState ∧
      s'.owner = s.owner := by
  unfold pollerStep at hst
  cases hpc : s.poller with
  | none | exited => simp [hpc] at hst
  | start => exact absurd hpc hp
  | work =>
    simp only [hpc] at hst
    cases hst
    exact ⟨nofun, rfl, rfl⟩
  | top | wait | test =>
    simp only [hpc] at hst
    cases hst
    refine ⟨?_, rfl, rfl⟩
    simp only
    split <;> nofun

/-- The owner has `stop` in the poller's state before it wakes the poller. -/
theorem ownerStep_wakes (hst : s.ownerStep = some s')
    (ho : s'.owner = .notifyPoller ∨ s'.owner = .joinPoller) :
    s'.owner = .notifyPoller ∧ s'.stopping = true ∨
      s.owner = .notifyPoller ∧ s'.stopping = s.stopping ∧ s'.poller = s.poller := by
  cases ownerStep_spec hst with
  | found _ hs => exact .inl ⟨rfl, hs⟩
  | setPoller => exact .inl ⟨rfl, rfl⟩
  | notifyPoller hown => exact .inr ⟨hown, rfl, rfl⟩
  | _ => simp at ho

/-- The owner wakes or joins a poller that has lost `stop`, or will. -/
def Late (s : Lifetime m k) : Prop :=
  (s.owner = .notifyPoller ∨ s.owner = .joinPoller) ∧
    (s.poller = .start ∨ s.poller.inLoop = true ∧ s.pollerState = .running)

theorem Late.step {a : Act m k} (h : s.Late) (hst : s.step a = some s') : s'.Late := by
  obtain ⟨ho, hp⟩ := h
  by_cases ha : a = .owner
  · subst ha
    simp only [Lifetime.step, ownerStep] at hst
    rcases ho with ho | ho
    · simp only [ho] at hst
      cases hst
      exact ⟨.inr rfl, hp⟩
    · simp only [ho] at hst
      split at hst
      · next he =>
        rw [he] at hp
        simp [PollerPc.inLoop] at hp
      · cases hst
  · have ho' := (step_owner hst ha).1
    refine ⟨by rw [ho']; exact ho, ?_⟩
    by_cases hpoll : ∃ eintr, a = .poller eintr
    · obtain ⟨eintr, rfl⟩ := hpoll
      right
      simp only [Lifetime.step, pollerStep] at hst
      rcases hp with hp | ⟨hp, hrunning⟩
      · simp only [hp] at hst
        cases hst
        exact ⟨rfl, rfl⟩
      · have hs : s.stopping = false := by simp [stopping, hrunning]
        cases hpc : s.poller with
        | none | start | exited =>
          rw [hpc] at hp
          cases hp
        | top | test | work =>
          simp only [hpc, hs, Bool.false_and, Bool.false_eq_true, if_false] at hst
          cases hst
          exact ⟨rfl, hrunning⟩
        | wait =>
          simp only [hpc] at hst
          cases hst
          refine ⟨?_, hrunning⟩
          cases eintr <;> rfl
    · push Not at hpoll
      obtain ⟨he, he'⟩ := step_poller hst hpoll ha
      rw [he, he']
      exact hp

/-! ## Who calls -/

/-- The thread that is in a call of `addFiber`. -/
inductive Caller (m : Nat) where
  /-- the poller's thread, for a timer or an event of its round -/
  | poller
  /-- the fiber that the processer `i` runs -/
  | fiber (i : Fin m)
  | other
  deriving DecidableEq

/-- The processer `i` is in a fiber. -/
def Runs (s : Lifetime m k) (i : Fin m) : Prop :=
  i.val < s.made ∧ ∃ fb, (s.m_processers i).pc = .inFiber fb

section Caller
variable (caller : Fin k → Caller m)

/-- The thread is in no call. -/
def Free (s : Lifetime m k) (w : Caller m) : Prop := ∀ c, caller c = w → s.callers c = none

/-- The poller's thread calls in its rounds and a fiber while it runs, and they do one thing at a
time. -/
def InOrder (s : Lifetime m k) : Act m k → Prop
  | .addFiber c _ _ =>
    match caller c with
    | .poller => s.poller = .work ∧ s.Free caller .poller
    | .fiber i => s.Runs i ∧ s.Free caller (.fiber i)
    | .other => True
  | .poller _ => s.poller = .work → s.Free caller .poller
  | .proc i _ => s.Runs i → s.Free caller (.fiber i)
  | .owner | .call _ => True

def callerLts : LTS (Lifetime m k) (Act m k) := (lts m k).restrict (InOrder caller)

/-- A thread that is in a call is where it makes calls. -/
structure Sound (s : Lifetime m k) : Prop where
  poller : ∀ c, caller c = .poller → s.callers c ≠ none → s.poller = .work
  fiber : ∀ c i, caller c = .fiber i → s.callers c ≠ none → s.Runs i
  early : s.owner.spawning = true → s.poller = .none

end Caller

section Sound
variable {caller : Fin k → Caller m}

theorem Sound.owner (h : s.Sound caller) (hlaw : s.Law) (hst : s.ownerStep = some s') :
    s'.Sound caller := by
  obtain ⟨hpoller, hfiber, hearly⟩ := h
  have he := hlaw.expects
  unfold Expects at he
  cases ownerStep_spec hst with
  | spawn i ho =>
    simp only [ho, OwnerPc.spawning] at he hearly
    refine ⟨hpoller, fun c j hc hne => ?_, fun _ => hearly trivial⟩
    obtain ⟨hlt, fb, hpc⟩ := hfiber c j hc hne
    have hj : j ≠ i := by
      rintro rfl
      omega
    refine ⟨?_, fb, ?_⟩
    · change j.val < i.val + 1
      omega
    · simpa [Lifetime.setProc, Function.update_of_ne hj] using hpc
  | spawned i hi ho =>
    simp only [ho, OwnerPc.spawning] at hearly
    exact ⟨hpoller, hfiber, fun _ => hearly trivial⟩
  | spawnPoller ho =>
    simp only [ho, OwnerPc.spawning] at hearly
    refine ⟨fun c hc hne => ?_, hfiber, fun hno => by cases hno⟩
    have hwork := hpoller c hc hne
    rw [hearly trivial] at hwork
    cases hwork
  | set i ho =>
    refine ⟨hpoller, fun c j hc hne => ?_, fun hno => by cases hno⟩
    obtain ⟨hlt, fb, hpc⟩ := hfiber c j hc hne
    refine ⟨hlt, fb, ?_⟩
    simp only [Lifetime.setProc]
    by_cases hj : j = i
    · rw [hj, Function.update_self]
      rw [hj] at hpc
      exact hpc
    · rw [Function.update_of_ne hj]
      exact hpc
  | notify i p ho hp =>
    refine ⟨hpoller, fun c j hc hne => ?_, fun hno => by cases hno⟩
    obtain ⟨hlt, fb, hpc⟩ := hfiber c j hc hne
    refine ⟨hlt, fb, ?_⟩
    simp only [Lifetime.setProc]
    by_cases hj : j = i
    · rw [hj, Function.update_self]
      rw [hj] at hpc
      obtain ⟨-, -, ⟨-, heq⟩ | ⟨b, hb, -⟩⟩ := Processer.notify_spec hp
      · rw [heq]
        exact hpc
      · rw [hb] at hpc
        cases hpc
    · rw [Function.update_of_ne hj]
      exact hpc
  | publish | destroy | told | join | joined | found | testPoller | setPoller | notifyPoller
  | joinPoller | finish => exact ⟨hpoller, hfiber, fun hno => by cases hno⟩

/-- The thread of a processer goes on only where its fiber is in no call. -/
theorem Sound.proc {i : Fin m} {state : TaskState} (h : s.Sound caller)
    (hst : s.step (.proc i state) = some s') (hord : s.InOrder caller (.proc i state)) :
    s'.Sound caller := by
  simp only [step, Option.ite_none_right_eq_some] at hst
  obtain ⟨p, -, rfl⟩ := Option.map_eq_some_iff.mp hst.2
  refine ⟨h.poller, fun c j hc hne => ?_, h.early⟩
  have hruns := h.fiber c j hc hne
  have hj : j ≠ i := by
    rintro rfl
    exact hne (hord hruns c hc)
  obtain ⟨hlt, fb, hpc⟩ := hruns
  refine ⟨hlt, fb, ?_⟩
  simp only [Lifetime.setProc]
  rw [Function.update_of_ne hj]
  exact hpc

theorem Sound.call {c : Fin k} (h : s.Sound caller) (hst : s.step (.call c) = some s') :
    s'.Sound caller := by
  simp only [step] at hst
  split at hst
  · cases hst
  · rename_i i a hcall
    obtain ⟨⟨p, a'⟩, hadd, rfl⟩ := Option.map_eq_some_iff.mp hst
    have hne {c' : Fin k} (hc' : Function.update s.callers c
        (if a' = .idle then none else some (i, a')) c' ≠ none) : s.callers c' ≠ none := by
      by_cases he : c' = c
      · rw [he, hcall]
        exact Option.some_ne_none _
      · rwa [Function.update_of_ne he] at hc'
    refine ⟨fun c' hc hn => h.poller c' hc (hne hn), fun c' j hc hn => ?_, h.early⟩
    obtain ⟨hlt, fb, hpc⟩ := h.fiber c' j hc (hne hn)
    refine ⟨hlt, fb, ?_⟩
    simp only [Lifetime.setProc]
    by_cases hj : j = i
    · rw [hj, Function.update_self]
      rw [hj] at hpc
      rcases Scheduler.addStep_cases hadd with
        ⟨-, -, he, -⟩ | ⟨_, -, -, -, he⟩ | ⟨-, -, he | ⟨-, b, hb, -⟩⟩
      · rw [he]
        exact hpc
      · rw [he]
        exact hpc
      · rw [he]
        exact hpc
      · rw [hb] at hpc
        cases hpc
    · rw [Function.update_of_ne hj]
      exact hpc

theorem Sound.step {a : Act m k} (h : s.Sound caller) (hlaw : s.Law) (hst : s.step a = some s')
    (hord : s.InOrder caller a) : s'.Sound caller := by
  cases a with
  | owner => exact h.owner hlaw hst
  | proc i state => exact h.proc hst hord
  | call c => exact h.call hst
  | poller eintr =>
    obtain ⟨hp, ho, hmade, hcallers, hnone⟩ : s'.m_processers = s.m_processers ∧
        s'.owner = s.owner ∧ s'.made = s.made ∧ s'.callers = s.callers ∧ s.poller ≠ .none := by
      simp only [Lifetime.step, pollerStep] at hst
      cases hpc : s.poller <;> simp only [hpc] at hst <;> cases hst <;> simp
    refine ⟨fun c hc hne => ?_, fun c i hc hne => ?_, fun hearly => ?_⟩
    · rw [hcallers] at hne
      exact absurd (hord (h.poller c hc hne) c hc) hne
    · rw [hcallers] at hne
      have hruns := h.fiber c i hc hne
      unfold Runs at hruns ⊢
      rwa [hp, hmade]
    · rw [ho] at hearly
      exact absurd (h.early hearly) hnone
  | addFiber c i fb =>
    simp only [Lifetime.step, Option.ite_none_right_eq_some, Option.some.injEq] at hst
    obtain ⟨-, rfl⟩ := hst
    have hold {c' : Fin k} (hc' : Function.update s.callers c (some (i, .enter fb)) c' ≠ none)
        (hne : c' ≠ c) : s.callers c' ≠ none := by
      rwa [Function.update_of_ne hne] at hc'
    simp only [InOrder] at hord
    refine ⟨fun c' hc hne => ?_, fun c' j hc hne => ?_, h.early⟩
    · by_cases he : c' = c
      · rw [← he, hc] at hord
        exact hord.1
      · exact h.poller c' hc (hold hne he)
    · by_cases he : c' = c
      · rw [← he, hc] at hord
        exact hord.1
      · exact h.fiber c' j hc (hold hne he)

theorem law_of_caller (h : (callerLts caller).Reachable s) : s.Law := by
  have hind : (callerLts caller).Inductive Law :=
    ⟨fun _ hs => law (LTS.reachable_init hs), fun _ _ _ hi hst => hi.step hst.1⟩
  exact hind.reachable s h

theorem sound (h : (callerLts caller).Reachable s) : s.Sound caller := by
  have hind : (callerLts caller).Inductive fun s => s.Law ∧ s.Sound caller := by
    refine ⟨fun s hs => ⟨law (LTS.reachable_init hs), ?_⟩, fun s a s' hi hst =>
      ⟨hi.1.step hst.1, hi.2.step hi.1 hst.1 hst.2⟩⟩
    obtain ⟨-, -, hp, -, hc⟩ := hs
    exact ⟨fun c _ hne => absurd (hc c) hne, fun c _ _ hne => absurd (hc c) hne, fun _ => hp⟩
  exact (hind.reachable s h).2

end Sound

/-! ## In a fair run -/

/-- A thread that can go on again and again does; in which state a fiber swaps out, and whether
`epoll_wait` is interrupted, is open. -/
structure FairRun (caller : Fin k → Caller m) (σ : ℕ → Lifetime m k) (l : ℕ → Option (Act m k)) :
    Prop where
  path : (callerLts caller).Path σ l
  owner : (callerLts caller).Fair σ l .owner
  procs : ∀ i, (callerLts caller).FairTo σ l {a | ∃ state, a = .proc i state}
  poller : (callerLts caller).FairTo σ l {a | ∃ eintr, a = .poller eintr}

/-- No call of `addFiber` from the poller's thread or from a fiber goes on for ever. -/
def Returns (caller : Fin k → Caller m) (σ : ℕ → Lifetime m k) : Prop :=
  ∀ w, w ≠ .other → ∀ t, ∃ t' ≥ t, (σ t').Free caller w

section Fair
variable {caller : Fin k → Caller m} {σ : ℕ → Lifetime m k} {l : ℕ → Option (Act m k)}
  (hrun : FairRun caller σ l)
include hrun

theorem law_at (t : ℕ) : (σ t).Law := law_of_caller (hrun.path.reachable t)

theorem moves_at (t : ℕ) : l t = none ∧ σ (t + 1) = σ t ∨
    ∃ a, l t = some a ∧ (σ t).step a = some (σ (t + 1)) := by
  have hm := hrun.path.moves t
  cases hl : l t with
  | none =>
    rw [hl] at hm
    exact .inl ⟨rfl, hm⟩
  | some a =>
    rw [hl] at hm
    exact .inr ⟨a, rfl, hm.1⟩

/-- The owner comes to its end, or waits for something for ever. -/
theorem owner_rests : ∃ pc, ∀ᶠ t in atTop, (σ t).owner = pc ∧ (σ t).ownerStep = none ∧
    l t ≠ some .owner := by
  have hquiet : ∀ᶠ t in atTop, l t ≠ some .owner := by
    refine LTS.eventually_quiet (f := fun t => (σ t).owner.rank m) (.of_forall fun t => ?_)
    rcases moves_at hrun t with ⟨hl, he⟩ | ⟨a, hl, hst⟩
    · rw [hl, he]
      exact .inr ⟨nofun, le_refl _⟩
    · by_cases ha : a = .owner
      · subst ha
        exact .inl (ownerStep_rank (law_at hrun t) hst)
      · rw [(step_owner hst ha).1, hl]
        exact .inr ⟨by simpa using ha, le_refl _⟩
  have hkeep : ∀ᶠ t in atTop, (σ (t + 1)).owner = (σ t).owner := by
    filter_upwards [hquiet] with t ht
    rcases moves_at hrun t with ⟨-, he⟩ | ⟨a, hl, hst⟩
    · rw [he]
    · exact (step_owner hst fun ha => ht (by rw [hl, ha])).1
  obtain ⟨pc, hpc⟩ := LTS.eventually_const (f := fun t => (σ t).owner) hkeep
  refine ⟨pc, ?_⟩
  filter_upwards [hpc, hrun.owner.disabled hquiet, hquiet] with t ht hoff hq
  refine ⟨ht, ?_, hq⟩
  by_contra hne
  obtain ⟨s', hs'⟩ := Option.ne_none_iff_exists'.mp hne
  exact hoff ⟨s', hs', trivial⟩

section Processer
variable {i : Fin m} (hmade : ∀ᶠ t in atTop, (σ t).made = m)
  (howner : ∀ᶠ t in atTop, l t ≠ some .owner)
include hmade

theorem proc_off (h : ∀ᶠ t in atTop, ¬ ∃ a ∈ {a | ∃ state, a = Act.proc i state}, l t = some a) :
    ∀ᶠ t in atTop, ((σ t).m_processers i).pc = .waiting false ∨
      ((σ t).m_processers i).pc = .exited ∨
      (σ t).Runs i ∧ ¬ (σ t).Free caller (.fiber i) := by
  filter_upwards [(hrun.procs i).disabled h, hmade] with t ht hm
  by_contra hcon
  push Not at hcon
  obtain ⟨hwaiting, hexited, hfree⟩ := hcon
  have hnext : ((σ t).m_processers i).next (σ t).isStopping .init ≠ none := fun hnone =>
    (Scheduler.next_none hnone).elim hwaiting hexited
  obtain ⟨p, hp⟩ := Option.ne_none_iff_exists'.mp hnext
  refine ht ⟨.proc i .init, ⟨.init, rfl⟩, (σ t).setProc i p, ?_, hfree⟩
  change step _ _ = _
  simp only [step, hm, i.isLt, if_true, hp, Option.map_some]

include howner

/-- `idle` gives `m_mutex` back. -/
theorem unlocks : ¬ ∀ᶠ t in atTop, ((σ t).m_processers i).pc.locked = true := by
  intro hlock
  have hquiet : ∀ᶠ t in atTop, ¬ ∃ a ∈ {a | ∃ state, a = Act.proc i state}, l t = some a := by
    refine LTS.eventually_never (f := fun t => Scheduler.lockRank ((σ t).m_processers i).pc) ?_
    filter_upwards [hlock, (tendsto_add_atTop_nat 1).eventually hlock, howner] with t ht ht' ho
    rcases moves_at hrun t with ⟨hl, he⟩ | ⟨a, hl, hst⟩
    · rw [hl, he]
      exact .inr ⟨by simp, le_refl _⟩
    · cases step_goes hst i with
      | proc state p _ hn hat =>
        rw [hat] at ht' ⊢
        exact .inl (Scheduler.next_locked hn ht ht')
      | call c x x' p _ hc hadd hat =>
        refine .inr ⟨by simp [hl], ?_⟩
        rcases Scheduler.addStep_cases hadd with
          ⟨-, -, he, -⟩ | ⟨fb, -, -, -, he⟩ | ⟨-, -, he | ⟨-, b, hb, -⟩⟩
        · rw [hat, he]
        · rw [hat, he]
        · rw [hat, he]
        · rw [hb] at ht
          cases ht
      | owner => exact absurd hl ho
      | rest _ _ hproc _ hat =>
        rw [hat, hl]
        refine .inr ⟨?_, le_refl _⟩
        rintro ⟨a', ⟨state, rfl⟩, he⟩
        exact hproc state (Option.some.inj he)
  obtain ⟨t, hoff, ht⟩ := ((proc_off hrun hmade hquiet).and hlock).exists
  rcases hoff with hpc | hpc | ⟨⟨-, fb, hpc⟩, -⟩
  · rw [hpc] at ht
    cases ht
  · rw [hpc] at ht
    cases ht
  · rw [hpc] at ht
    cases ht

/-- No fiber of a processer that has stopped to go on is in a call for ever. -/
theorem proc_rests (hreturns : Returns caller σ)
    (h : ∀ᶠ t in atTop, ¬ ∃ a ∈ {a | ∃ state, a = Act.proc i state}, l t = some a) :
    ∀ᶠ t in atTop, ((σ t).m_processers i).pc = .waiting false ∨
      ((σ t).m_processers i).pc = .exited := by
  have hoff := proc_off hrun hmade h
  -- a fiber that is in a call swaps out no more
  have hstays : ∀ᶠ t in atTop, (∃ fb, ((σ t).m_processers i).pc = .inFiber fb) →
      ∃ fb, ((σ (t + 1)).m_processers i).pc = .inFiber fb := by
    filter_upwards [h, howner] with t hquiet ho
    rintro ⟨fb, hpc⟩
    refine ⟨fb, ?_⟩
    rcases moves_at hrun t with ⟨-, he⟩ | ⟨a, hl, hst⟩
    · rw [he]
      exact hpc
    · cases step_goes hst i with
      | proc state => exact absurd ⟨_, ⟨state, rfl⟩, hl⟩ hquiet
      | owner => exact absurd hl ho
      | rest _ _ _ _ hat => rw [hat, hpc]
      | call c x x' p _ hc hadd hat =>
        rw [hat]
        rcases Scheduler.addStep_cases hadd with
          ⟨-, -, he, -⟩ | ⟨_, -, -, -, he⟩ | ⟨-, -, he | ⟨-, b, hb, -⟩⟩
        · rw [he, hpc]
        · rw [he]
          exact hpc
        · rw [he, hpc]
        · rw [hb] at hpc
          cases hpc
  obtain ⟨t₀, hlast⟩ := eventually_atTop.mp (hoff.and hstays)
  refine eventually_atTop.mpr ⟨t₀, fun t ht => ?_⟩
  rcases (hlast t ht).1 with hpc | hpc | ⟨⟨-, hfb⟩, -⟩
  · exact .inl hpc
  · exact .inr hpc
  · have hruns : ∀ t' ≥ t, ∃ fb, ((σ t').m_processers i).pc = .inFiber fb := by
      intro t' ht'
      induction t', ht' using Nat.le_induction with
      | base => exact hfb
      | succ t' ht' ih => exact (hlast t' (le_trans ht ht')).2 ih
    obtain ⟨t', ht', hfree⟩ := hreturns (.fiber i) nofun t
    obtain ⟨fb, hpc⟩ := hruns t' ht'
    rcases (hlast t' (le_trans ht ht')).1 with he | he | ⟨-, hnot⟩
    · rw [hpc] at he
      cases he
    · rw [hpc] at he
      cases he
    · exact absurd hfree hnot

/-- A processer that has been told comes to its end. -/
theorem exits (hreturns : Returns caller σ)
    (htold : ∀ᶠ t in atTop, (σ t).owner.told i = true) :
    ∀ᶠ t in atTop, ((σ t).m_processers i).pc = .exited := by
  have hquiet : ∀ᶠ t in atTop, ¬ ∃ a ∈ {a | ∃ state, a = Act.proc i state}, l t = some a := by
    refine LTS.eventually_never
      (f := fun t => exitRank ((σ t).counting i) ((σ t).m_processers i)) ?_
    filter_upwards [htold, howner] with t ht ho
    have hlaw := law_at hrun t
    have htell := hlaw.told i ht
    rcases moves_at hrun t with ⟨hl, he⟩ | ⟨a, hl, hst⟩
    · rw [hl, he]
      exact .inr ⟨by simp, le_refl _⟩
    · have hgoes := step_goes hst i
      by_cases ha : ∃ state, a = .proc i state
      · obtain ⟨state, rfl⟩ := ha
        left
        cases hgoes with
        | proc _ p _ hn hat hcallers =>
          rw [hlaw.stopping ht] at hn
          rw [hat, show (σ (t + 1)).counting i = (σ t).counting i by unfold counting; rw [hcallers]]
          exact next_exitRank hn
        | rest _ _ hproc => exact absurd rfl (hproc state)
      · push Not at ha
        have ho' : a ≠ .owner := fun he => ho (he ▸ hl)
        refine .inr ⟨?_, exit_step hgoes ha ho' htell⟩
        rintro ⟨a', ⟨state, rfl⟩, he⟩
        rw [hl] at he
        exact ha state (Option.some.inj he)
  filter_upwards [proc_rests hrun hmade howner hreturns hquiet, htold] with t ht htell
  have htold := (law_at hrun t).told i htell
  rcases ht with hpc | hpc
  · exact absurd hpc htold.awake
  · exact hpc

end Processer
/-- A poller that has been stopped comes to its end. -/
theorem poller_exits (hreturns : Returns caller σ) (howner : ∀ᶠ t in atTop, l t ≠ some .owner)
    (hstop : ∀ᶠ t in atTop, (σ t).stopping = true ∧ (σ t).isStopping = true)
    (hmade : ∀ᶠ t in atTop, (σ t).poller ≠ .none) : ∀ᶠ t in atTop, (σ t).poller = .exited := by
  have hquiet : ∀ᶠ t in atTop, ¬ ∃ a ∈ {a | ∃ eintr, a = Act.poller eintr}, l t = some a := by
    refine LTS.eventually_never (f := fun t => pollerRank (σ t).poller) ?_
    filter_upwards [howner, hstop] with t ho hs
    rcases moves_at hrun t with ⟨hl, he⟩ | ⟨a, hl, hst⟩
    · rw [hl, he]
      exact .inr ⟨by simp, le_refl _⟩
    · by_cases ha : ∃ eintr, a = .poller eintr
      · obtain ⟨eintr, rfl⟩ := ha
        exact .inl (pollerStep_rank hst hs.1 hs.2)
      · push Not at ha
        rw [(step_poller hst ha fun he => ho (he ▸ hl)).1]
        refine .inr ⟨?_, le_refl _⟩
        rintro ⟨a', ⟨eintr, rfl⟩, he⟩
        rw [hl] at he
        exact ha eintr (Option.some.inj he)
  have hoff : ∀ᶠ t in atTop, (σ t).poller = .exited ∨
      (σ t).poller = .work ∧ ¬ (σ t).Free caller .poller := by
    filter_upwards [hrun.poller.disabled hquiet, hmade] with t ht hm
    by_contra hcon
    push Not at hcon
    obtain ⟨hexited, hfree⟩ := hcon
    have hstep : (σ t).pollerStep false ≠ none := by
      unfold pollerStep
      cases hp : (σ t).poller with
      | none => exact absurd hp hm
      | exited => exact absurd hp hexited
      | _ => simp
    obtain ⟨s', hs'⟩ := Option.ne_none_iff_exists'.mp hstep
    exact ht ⟨.poller false, ⟨false, rfl⟩, s', hs', hfree⟩
  have hstays : ∀ᶠ t in atTop, (σ (t + 1)).poller = (σ t).poller := by
    filter_upwards [hquiet, howner] with t hq ho
    rcases moves_at hrun t with ⟨-, he⟩ | ⟨a, hl, hst⟩
    · rw [he]
    · exact (step_poller hst (fun eintr he => hq ⟨a, ⟨eintr, he⟩, hl⟩) fun he => ho (he ▸ hl)).1
  obtain ⟨pc, hpc⟩ := LTS.eventually_const (f := fun t => (σ t).poller) hstays
  obtain ⟨t₀, hlast⟩ := eventually_atTop.mp (hpc.and hoff)
  refine eventually_atTop.mpr ⟨t₀, fun t ht => ?_⟩
  obtain ⟨t', ht', hfree⟩ := hreturns .poller nofun t
  obtain ⟨hpc', hoff'⟩ := hlast t' (le_trans ht ht')
  rcases hoff' with he | ⟨-, hnot⟩
  · rw [(hlast t ht).1, ← hpc']
    exact he
  · exact absurd hfree hnot

/-- Where the poller's thread is past its first store when the owner wakes it, it stays
stopped. -/
theorem poller_stops (hbegun : ∀ t, (σ t).owner = .notifyPoller → (σ t).poller ≠ .start) (t : ℕ)
    (ho : (σ t).owner = .notifyPoller ∨ (σ t).owner = .joinPoller) :
    (σ t).stopping = true ∧ (σ t).poller ≠ .start := by
  induction t with
  | zero =>
    have hinit := hrun.path.init.2.2.2.1
    rw [hinit] at ho
    simp at ho
  | succ t ih =>
    rcases moves_at hrun t with ⟨-, he⟩ | ⟨a, -, hst⟩
    · rw [he] at ho ⊢
      exact ih ho
    · by_cases ha : a = .owner
      · subst ha
        rcases ownerStep_wakes hst ho with ⟨ho', hs⟩ | ⟨ho', hs, hp⟩
        · exact ⟨hs, hbegun (t + 1) ho'⟩
        · rw [hs, hp]
          exact ih (.inl ho')
      · rw [(step_owner hst ha).1] at ho
        obtain ⟨hs, hp⟩ := ih ho
        unfold stopping at hs ⊢
        by_cases hpoll : ∃ eintr, a = .poller eintr
        · obtain ⟨eintr, rfl⟩ := hpoll
          obtain ⟨hp', he, -⟩ := pollerStep_begun hst hp
          rw [he]
          exact ⟨hs, hp'⟩
        · push Not at hpoll
          obtain ⟨he, he'⟩ := step_poller hst hpoll ha
          rw [he, he']
          exact ⟨hs, hp⟩

theorem done_lasts {t t' : ℕ} (ht : t ≤ t') (hd : (σ t).owner = .done) : (σ t').owner = .done := by
  induction t', ht using Nat.le_induction with
  | base => exact hd
  | succ t' _ ih =>
    rcases moves_at hrun t' with ⟨-, he⟩ | ⟨a, -, hst⟩
    · rw [he]
      exact ih
    · by_cases ha : a = .owner
      · subst ha
        simp only [step, ownerStep, ih] at hst
        cases hst
      · rw [(step_owner hst ha).1]
        exact ih

theorem late_lasts {t t' : ℕ} (ht : t ≤ t') (hl : (σ t).Late) : (σ t').Late := by
  induction t', ht using Nat.le_induction with
  | base => exact hl
  | succ t' _ ih =>
    rcases moves_at hrun t' with ⟨-, he⟩ | ⟨a, -, hst⟩
    · rw [he]
      exact ih
    · exact ih.step hst

/-- A thread that the owner waits for gets there. -/
theorem comes_to_end (hbegun : ∀ t, (σ t).owner = .notifyPoller → (σ t).poller ≠ .start)
    (hreturns : Returns caller σ) : ∃ t, (σ t).owner = .done := by
  obtain ⟨pc, hpc⟩ := owner_rests hrun
  have hquiet : ∀ᶠ t in atTop, l t ≠ some .owner := hpc.mono fun t ht => ht.2.2
  have hwaits : ∀ᶠ t in atTop, ({ σ t with owner := pc } : Lifetime m k).Waits := by
    filter_upwards [hpc] with t ht
    rw [← ht.1]
    exact ownerStep_none (law_at hrun t) ht.2.1
  have hexpects : ∀ᶠ t in atTop, ({ σ t with owner := pc } : Lifetime m k).Expects := by
    filter_upwards [hpc] with t ht
    rw [← ht.1]
    exact (law_at hrun t).expects
  cases pc with
  | done => exact hpc.exists.imp fun t ht => ht.1
  | notify i =>
    obtain ⟨t, hi, -⟩ := hwaits.exists
    exact absurd (hwaits.mono fun t ht => ht.snd)
      (unlocks hrun (i := ⟨i, hi⟩) (hexpects.mono fun t ht => ht.1) hquiet)
  | join i =>
    obtain ⟨t, hi, -⟩ := hwaits.exists
    have htold : ∀ᶠ t in atTop, (σ t).owner.told i = true := by
      filter_upwards [hpc] with t ht
      rw [ht.1]
      rfl
    have hexit := exits hrun (i := ⟨i, hi⟩) (hexpects.mono fun t ht => ht.1) hquiet hreturns htold
    obtain ⟨t, hw, he⟩ := (hwaits.and hexit).exists
    exact absurd he hw.snd
  | joinPoller =>
    have hstop : ∀ᶠ t in atTop, (σ t).stopping = true ∧ (σ t).isStopping = true := by
      filter_upwards [hpc, hexpects] with t ht he
      exact ⟨(poller_stops hrun hbegun t (.inr ht.1)).1, decide_eq_true he.2.2⟩
    have hexit := poller_exits hrun hreturns hquiet hstop (hexpects.mono fun t ht => ht.2.1)
    obtain ⟨t, hw, he⟩ := (hwaits.and hexit).exists
    exact absurd he hw
  | _ =>
    obtain ⟨t, hw⟩ := hwaits.exists
    exact hw.elim

end Fair

/-- In a fair run the destructor comes to its end, all threads at theirs, exactly where the poller's
thread has made its first store whenever the owner is about to wake it, and no call from the poller's
thread or from a fiber goes on for ever. -/
theorem ends_iff (m k : Nat) (caller : Fin k → Caller m) (σ : ℕ → Lifetime m k)
    (l : ℕ → Option (Act m k)) (hrun : FairRun caller σ l) :
    (∃ t, (σ t).owner = .done ∧ (∀ i, ((σ t).m_processers i).pc = .exited) ∧
        (σ t).poller = .exited) ↔
      (∀ t, (σ t).owner = .notifyPoller → (σ t).poller ≠ .start) ∧ Returns caller σ := by
  constructor
  · intro hdone
    obtain ⟨t', hd, -⟩ := hdone
    refine ⟨fun t ho hp => ?_, fun w hw t => ?_⟩
    · have hlate : (σ t).Late := ⟨.inl ho, .inl hp⟩
      rcases le_total t t' with ht | ht
      · have hl := (late_lasts hrun ht hlate).1
        rw [hd] at hl
        simp at hl
      · rw [done_lasts hrun ht hd] at ho
        cases ho
    · -- who is at the end is in no call
      refine ⟨max t t', le_max_left .., fun c hc => ?_⟩
      have hd' := done_lasts hrun (le_max_right t t') hd
      have hlaw := law_at hrun (max t t')
      have he := hlaw.expects
      unfold Expects at he
      rw [hd'] at he
      have hsound := sound (hrun.path.reachable (max t t'))
      by_contra hne
      cases w with
      | other => exact hw rfl
      | poller =>
        have hwork := hsound.poller c hc hne
        rw [he.2] at hwork
        cases hwork
      | fiber i =>
        obtain ⟨-, fb, hpc⟩ := hsound.fiber c i hc hne
        rw [hlaw.joined i (by rw [hd']; rfl)] at hpc
        cases hpc
  · rintro ⟨hbegun, hreturns⟩
    obtain ⟨t, hd⟩ := comes_to_end hrun hbegun hreturns
    have hlaw := law_at hrun t
    have he := hlaw.expects
    unfold Expects at he
    rw [hd] at he
    exact ⟨t, hd, fun i => hlaw.joined i (by rw [hd]; rfl), he.2⟩

/-- One processer and one call. -/
def oneCall : Lifetime 1 1 := ⟨.init, fun _ => .new, 0, .init, .none, .spawn 0, fun _ => none⟩

theorem oneCall_init : oneCall.init := ⟨rfl, rfl, rfl, rfl, fun _ => rfl⟩

/-- The poller's thread begins before the destructor and adds a fiber for a timer, which is never
swapped in; the destructor comes to its end. -/
def inGoodTime (i c : Fin 1) : List (Act 1 1) :=
  [.owner, .owner, .owner, .owner, .proc i .init, .poller false, .poller false, .poller false,
    .poller false, .addFiber c i 7, .call c, .call c, .call c, .call c, .call c, .poller false,
    .owner, .owner, .owner, .owner, .proc i .init, .owner, .owner, .owner, .owner, .owner,
    .poller false, .owner, .owner]

/-- The condition of `InOrder` for the poller's thread, computed. -/
def inOrderB (c : Fin 1) (s : Lifetime 1 1) : Act 1 1 → Bool
  | .addFiber .. => decide (s.poller = .work) && (s.callers c).isNone
  | .poller _ => decide (s.poller ≠ .work) || (s.callers c).isNone
  | _ => true

theorem inOrderB_spec (c : Fin 1) (s : Lifetime 1 1) (a : Act 1 1) (h : inOrderB c s a = true) :
    s.InOrder (fun _ => .poller) a := by
  have hfree (hnone : (s.callers c).isNone = true) : s.Free (fun _ => .poller) .poller :=
    fun c' _ => by
      rw [Subsingleton.elim c' c]
      exact Option.isNone_iff_eq_none.mp hnone
  cases a with
  | addFiber c' i fb =>
    obtain ⟨hwork, hnone⟩ := Bool.and_eq_true_iff.mp h
    exact ⟨of_decide_eq_true hwork, hfree hnone⟩
  | poller eintr =>
    intro hwork
    rcases Bool.or_eq_true_iff.mp h with hne | hnone
    · exact absurd hwork (of_decide_eq_true hne)
    · exact hfree hnone
  | proc i state => exact fun _ c hc => nomatch hc
  | owner | call => trivial

theorem ends_in_good_time : ∃ (σ : ℕ → Lifetime 1 1) (l : ℕ → Option (Act 1 1)),
    FairRun (fun _ => .poller) σ l ∧ (∃ t, (σ t).owner = .done) ∧
      (∀ t, (σ t).owner = .notifyPoller → (σ t).poller ≠ .start) ∧
      Returns (fun _ => .poller) σ := by
  have hexec : (LTS.execWith step (inOrderB 0) oneCall (inGoodTime 0 0)).any (fun s =>
      decide (s.owner = .done ∧ (∀ i, (s.m_processers i).pc = .exited) ∧ s.poller = .exited)) =
        true := by decide
  obtain ⟨s, hs, hb⟩ := (Option.any_eq_true _ _).mp hexec
  obtain ⟨ho, hp, hpoll⟩ := of_decide_eq_true hb
  obtain ⟨σ, hpath, hend⟩ := LTS.exists_path (T := callerLts fun _ => .poller) oneCall_init
    (LTS.run_of_execWith (inOrderB_spec 0) hs)
  have hfair : FairRun (fun _ => .poller) σ (fun t => (inGoodTime 0 0)[t]?) := by
    refine ⟨hpath, LTS.fair_of_end hend ?_, fun i => LTS.fairTo_of_end hend ?_,
      LTS.fairTo_of_end hend ?_⟩
    · rintro ⟨s', hst, -⟩
      change s.ownerStep = some s' at hst
      simp [ownerStep, ho] at hst
    · rintro ⟨a, ⟨state, rfl⟩, s', hst, -⟩
      change s.step (.proc i state) = some s' at hst
      simp [step, Processer.next, hp i] at hst
    · rintro ⟨a, ⟨eintr, rfl⟩, s', hst, -⟩
      change s.pollerStep eintr = some s' at hst
      simp [pollerStep, hpoll] at hst
  obtain ⟨t, ht⟩ := hend.exists
  have hdone : (σ t).owner = .done ∧ (∀ i, ((σ t).m_processers i).pc = .exited) ∧
      (σ t).poller = .exited := by
    rw [ht]
    exact ⟨ho, hp, hpoll⟩
  exact ⟨σ, _, hfair, ⟨t, hdone.1⟩, (ends_iff 1 1 _ σ _ hfair).mp ⟨t, hdone⟩⟩

end Lifetime
end Ppcode
