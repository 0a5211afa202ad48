import Ppcode.Fiber.ProcesserRound
import Ppcode.Fiber.SchedulerStep
import Ppcode.Fiber.StopSticks

/-!
# Processers that have been told to stop

`Scheduler::stop` stores `stop` in the state of each processer and calls its `notify`; then
it joins their threads. The scheduler is stopping from before the first `notify` on.

* `ownerStep_spec`, `step_goes`: what a step of the owner does, and what any step does to one
  processer.
* `Law`: a processer that has been told (`Told`) does not go to sleep any more; one that has
  been joined is at its end.
* `round_step`: nobody but the owner and its own thread keeps a processer awake for longer.
-/
namespace Ppcode

namespace OwnerPc

/-- `notify` of the processer `i` is done, and the scheduler is stopping. -/
def told (i : Nat) : OwnerPc → Bool
  | .set j | .notify j => i < j
  | .join _ | .testPoller | .setPoller | .notifyPoller | .joinPoller | .finish => true
  | .spawn _ | .spawnPoller | .publish | .started | .done => false

/-- The processer `i` has been joined. -/
def joined (i : Nat) : OwnerPc → Bool
  | .join j => i < j
  | .testPoller | .setPoller | .notifyPoller | .joinPoller | .finish | .done => true
  | .spawn _ | .spawnPoller | .publish | .started | .set _ | .notify _ => false

end OwnerPc

namespace Lifetime
open Processer (ProcPc AddPc)
variable {m k : Nat} {s s' : Lifetime m k}

/-! ## A processer that has been told -/

/-- It does not go to sleep: the flag is set, or there is nothing ahead but the test for the
end. -/
def Told (p : Processer Nat) : Prop :=
  (p.m_notidied = true ∧ p.pc ≠ .wait ∧ p.pc ≠ .waiting false) ∨ p.pc = .loop ∨ p.pc = .exited

theorem Told.awake {p : Processer Nat} (h : Told p) : p.pc ≠ .waiting false := by
  rcases h with ⟨-, -, h⟩ | h | h
  · exact h
  · rw [h]
    nofun
  · rw [h]
    nofun

theorem told_notify {p p' : Processer Nat} (h : p.notify = some p') : Told p' := by
  obtain ⟨hl, he, hpc⟩ := Processer.notify_spec h
  refine .inl ⟨by rw [he], ?_⟩
  rcases hpc with ⟨hne, hpc⟩ | ⟨b, -, hpc⟩
  · rw [hpc]
    refine ⟨fun hw => ?_, hne false⟩
    rw [hw] at hl
    cases hl
  · rw [hpc]
    exact ⟨nofun, nofun⟩

theorem Told.addStep {p : Processer Nat} {a : AddPc Nat} {r : Processer Nat × AddPc Nat}
    (h : Told p) (ha : p.addStep a = some r) : Told r.1 := by
  cases a with
  | idle => cases ha
  | enter fb =>
    simp only [Processer.addStep] at ha
    split at ha <;> cases ha <;> exact h
  | push fb =>
    simp only [Processer.addStep] at ha
    split at ha <;> cases ha
    exact h
  | count | test =>
    cases ha
    exact h
  | flag | flagNotify =>
    cases ha
    exact h.imp_left fun h => ⟨rfl, h.2⟩
  | notify =>
    obtain ⟨p', hp', rfl⟩ := Option.map_eq_some_iff.mp ha
    exact told_notify hp'

theorem Told.next {p p' : Processer Nat} {state : TaskState} (h : Told p)
    (hn : p.next true state = some p') : Told p' := by
  unfold Told at h ⊢
  cases Processer.next_spec hn with
  | loop => exact .inr (.inr rfl)
  | start | clear | wake | check => exact .inr (.inl rfl)
  | wait => simp at h
  | test p | again p =>
    have hset : p.m_notidied = true := by simpa using h
    simp [hset]
  | fetched p r =>
    have hset : p.m_notidied = true := by simpa using h
    cases r with
    | switch => exact .inr (.inl rfl)
    | idle =>
      simp only [Processer.back]
      split <;> simp [hset]
  | switch p fb =>
    have hset : p.m_notidied = true := by simpa using h
    cases state <;> simp [Processer.switched, hset]
  | many p =>
    have hset : p.m_notidied = true := by simpa using h
    simp only
    split <;> simp [hset]
  | _ => simpa using h

/-- The threads that have pushed to the processer `i` and have not counted. -/
def counting (s : Lifetime m k) (i : Fin m) : Nat :=
  tsum (fun x => if x = some (i, .count) then 1 else 0) s.callers

theorem counting_update (s : Lifetime m k) {i j : Fin m} {c : Fin k} {a : AddPc Nat}
    (a' : AddPc Nat) (hc : s.callers c = some (j, a)) :
    tsum (fun x => if x = some (i, .count) then 1 else 0)
        (Function.update s.callers c (if a' = .idle then none else some (j, a'))) +
      (if j = i then a.uncounted else 0) = s.counting i + if j = i then a'.uncounted else 0 := by
  have hval (x : AddPc Nat) : (if (some (j, x) : Option (Fin m × AddPc Nat)) = some (i, .count)
      then 1 else 0) = if j = i then x.uncounted else 0 := by
    by_cases hj : j = i <;> cases x <;> simp [hj, AddPc.uncounted]
  have hnext : (if (if a' = .idle then none else some (j, a')) = some (i, .count) then 1 else 0) =
      if j = i then a'.uncounted else 0 := by
    by_cases ha : a' = .idle
    · simp [ha, AddPc.uncounted]
    · rw [if_neg ha, hval]
  have h := tsum_update (fun x => if x = some (i, .count) then 1 else 0) s.callers c
    (if a' = .idle then none else some (j, a'))
  rw [hc, hval, hnext] at h
  exact h

/-! ## What a step does -/

/-- `ownerStep`, one constructor for each of its branches. -/
inductive OwnerGoes (s : Lifetime m k) : Lifetime m k → Prop
  | spawn (i : Fin m) (at_ : s.owner = .spawn i) :
    OwnerGoes s { s.setProc i .new with made := i + 1, owner := .spawn (i + 1) }
  | spawned (i : Nat) (hi : m ≤ i) (at_ : s.owner = .spawn i) :
    OwnerGoes s { s with owner := .spawnPoller }
  | spawnPoller (at_ : s.owner = .spawnPoller) :
    OwnerGoes s { s with poller := .start, owner := .publish }
  | publish (at_ : s.owner = .publish) : OwnerGoes s { s with m_state := .running, owner := .started }
  | destroy (at_ : s.owner = .started) : OwnerGoes s { s with m_state := .stop, owner := .set 0 }
  | set (i : Fin m) (at_ : s.owner = .set i) :
    OwnerGoes s { s.setProc i { s.m_processers i with m_state := .stop } with owner := .notify i }
  | told (i : Nat) (hi : m ≤ i) (at_ : s.owner = .set i) : OwnerGoes s { s with owner := .join 0 }
  | notify (i : Fin m) (p : Processer Nat) (at_ : s.owner = .notify i)
    (notify : (s.m_processers i).notify = some p) :
    OwnerGoes s { s.setProc i p with owner := .set (i + 1) }
  | join (i : Fin m) (at_ : s.owner = .join i) (exited : (s.m_processers i).pc = .exited) :
    OwnerGoes s { s with owner := .join (i + 1) }
  | joined (i : Nat) (hi : m ≤ i) (at_ : s.owner = .join i) :
    OwnerGoes s { s with owner := .testPoller }
  | found (at_ : s.owner = .testPoller) (stop : s.stopping = true) :
    OwnerGoes s { s with owner := .notifyPoller }
  | testPoller (at_ : s.owner = .testPoller) (stop : s.stopping = false) :
    OwnerGoes s { s with owner := .setPoller }
  | setPoller (at_ : s.owner = .setPoller) :
    OwnerGoes s { s with pollerState := .stop, owner := .notifyPoller }
  | notifyPoller (at_ : s.owner = .notifyPoller) : OwnerGoes s { s with owner := .joinPoller }
  | joinPoller (at_ : s.owner = .joinPoller) (exited : s.poller = .exited) :
    OwnerGoes s { s with owner := .finish }
  | finish (at_ : s.owner = .finish) : OwnerGoes s { s with m_state := .done, owner := .done }

theorem ownerStep_spec (h : s.ownerStep = some s') : s.OwnerGoes s' := by
  unfold ownerStep at h
  cases ho : s.owner with
  | spawn i =>
    simp only [ho] at h
    split at h
    · next hi =>
      cases h
      exact .spawn ⟨i, hi⟩ ho
    · next hi =>
      cases h
      exact .spawned i (not_lt.mp hi) ho
  | spawnPoller =>
    simp only [ho] at h
    cases h
    exact .spawnPoller ho
  | publish =>
    simp only [ho] at h
    cases h
    exact .publish ho
  | started =>
    simp only [ho] at h
    split at h <;> cases h
    exact .destroy ho
  | set i =>
    simp only [ho] at h
    split at h
    · next hi =>
      cases h
      exact .set ⟨i, hi⟩ ho
    · next hi =>
      cases h
      exact .told i (not_lt.mp hi) ho
  | notify i =>
    simp only [ho] at h
    split at h
    · next hi =>
      obtain ⟨p, hp, rfl⟩ := Option.map_eq_some_iff.mp h
      exact .notify ⟨i, hi⟩ p ho hp
    · cases h
  | join i =>
    simp only [ho] at h
    split at h
    · next hi =>
      split at h
      · next he =>
        cases h
        exact .join ⟨i, hi⟩ ho he
      · cases h
    · next hi =>
      cases h
      exact .joined i (not_lt.mp hi) ho
  | testPoller =>
    simp only [ho] at h
    cases h
    cases hs : s.stopping with
    | true => exact .found ho hs
    | false => exact .testPoller ho hs
  | setPoller =>
    simp only [ho] at h
    cases h
    exact .setPoller ho
  | notifyPoller =>
    simp only [ho] at h
    cases h
    exact .notifyPoller ho
  | joinPoller =>
    simp only [ho] at h
    split at h
    · next he =>
      cases h
      exact .joinPoller ho he
    · cases h
  | finish =>
    simp only [ho] at h
    cases h
    exact .finish ho
  | done =>
    simp only [ho] at h
    cases h

/-- Each thread writes its own control point; a processer is changed by its thread, by a call and by
the owner. -/
inductive Goes (s : Lifetime m k) (i : Fin m) : Act m k → Lifetime m k → Prop
  | proc (state : TaskState) (p : Processer Nat) (s' : Lifetime m k)
    (next : (s.m_processers i).next s.isStopping state = some p) (at_ : s'.m_processers i = p)
    (callers : s'.callers = s.callers) : Goes s i (.proc i state) s'
  | call (c : Fin k) (a a' : AddPc Nat) (p : Processer Nat) (s' : Lifetime m k)
    (caller : s.callers c = some (i, a)) (add : (s.m_processers i).addStep a = some (p, a'))
    (at_ : s'.m_processers i = p)
    (callers : s'.callers =
      Function.update s.callers c (if a' = .idle then none else some (i, a'))) :
    Goes s i (.call c) s'
  | owner (s' : Lifetime m k) (callers : s'.callers = s.callers) : Goes s i .owner s'
  | rest (a : Act m k) (s' : Lifetime m k) (proc : ∀ state, a ≠ .proc i state) (owner : a ≠ .owner)
    (at_ : s'.m_processers i = s.m_processers i) (counting : s'.counting i = s.counting i) :
    Goes s i a s'

theorem step_goes {a : Act m k} (h : s.step a = some s') (i : Fin m) : s.Goes i a s' := by
  cases a with
  | owner => exact .owner s' (by cases ownerStep_spec h <;> rfl)
  | poller eintr =>
    refine .rest _ _ (by simp) (by simp) ?_ ?_ <;>
    · simp only [step, pollerStep] at h
      split at h <;> cases h <;> rfl
  | proc j state =>
    simp only [step, Option.ite_none_right_eq_some] at h
    obtain ⟨p, hp, rfl⟩ := Option.map_eq_some_iff.mp h.2
    by_cases hj : j = i
    · subst hj
      exact .proc state p _ hp (Function.update_self ..) rfl
    · refine .rest _ _ (fun st he => ?_) (by simp) (Function.update_of_ne (Ne.symm hj) ..) rfl
      cases he
      exact hj rfl
  | addFiber c j fb =>
    simp only [step, Option.ite_none_right_eq_some, Option.some.injEq] at h
    obtain ⟨⟨hc, -⟩, rfl⟩ := h
    exact .rest _ _ (by simp) (by simp) rfl (tsum_update_same _ _ _ _ (by simp [hc]))
  | call c =>
    simp only [step] at h
    split at h
    · cases h
    · next j a hc =>
      obtain ⟨⟨p, a'⟩, hp, rfl⟩ := Option.map_eq_some_iff.mp h
      by_cases hj : j = i
      · subst hj
        exact .call c a a' p _ hc hp (Function.update_self ..) rfl
      · refine .rest _ _ (by simp) (by simp) (Function.update_of_ne (Ne.symm hj) ..) ?_
        have hcount := counting_update s (i := i) a' hc
        rw [if_neg hj, if_neg hj] at hcount
        exact hcount

/-- Nobody but the owner and its own thread keeps a processer awake for longer. -/
theorem round_step {a : Act m k} {i : Fin m} (h : s.Goes i a s') (hproc : ∀ state, a ≠ .proc i state)
    (howner : a ≠ .owner) (hsleep : (s.m_processers i).pc ≠ .waiting false) :
    (s'.m_processers i).round (s'.counting i) ≤ (s.m_processers i).round (s.counting i) := by
  cases h with
  | proc state => exact absurd rfl (hproc state)
  | call c a a' p _ hc hadd hat hcallers =>
    rw [hat]
    refine Processer.addStep_round hadd ?_ hsleep
    have hcount := counting_update s (i := i) a' hc
    rw [if_pos rfl, if_pos rfl, ← hcallers] at hcount
    exact hcount
  | owner => exact absurd rfl howner
  | rest _ _ _ _ hat hcount => rw [hat, hcount]

/-! ## What holds in every state -/

/-- What is there for the owner's next step. -/
def Expects (s : Lifetime m k) : Prop :=
  match s.owner with
  | .spawn i => s.made = i ∧ i ≤ m
  | .spawnPoller => s.made = m
  | .publish => s.made = m ∧ s.poller ≠ .none
  | .started => s.made = m ∧ s.poller ≠ .none ∧ s.m_state = .running
  | .notify i => s.made = m ∧ s.poller ≠ .none ∧ s.m_state = .stop ∧ i < m
  | .set _ | .join _ | .testPoller | .setPoller | .notifyPoller | .joinPoller =>
    s.made = m ∧ s.poller ≠ .none ∧ s.m_state = .stop
  | .finish => s.made = m ∧ s.poller = .exited ∧ s.m_state = .stop
  | .done => s.made = m ∧ s.poller = .exited

structure Law (s : Lifetime m k) : Prop where
  expects : s.Expects
  told : ∀ i : Fin m, s.owner.told i = true → Told (s.m_processers i)
  joined : ∀ i : Fin m, s.owner.joined i = true → (s.m_processers i).pc = .exited

theorem Expects.poller {eintr : Bool} (h : s.Expects) (hst : s.pollerStep eintr = some s') :
    s'.Expects := by
  have hstep : s.poller ≠ .none ∧ s.poller ≠ .exited ∧ s'.poller ≠ .none ∧
      s'.owner = s.owner ∧ s'.made = s.made ∧ s'.m_state = s.m_state := by
    unfold pollerStep at hst
    cases hp : s.poller with
    | none | exited => simp [hp] at hst
    | start | work =>
      simp only [hp] at hst
      cases hst
      exact ⟨nofun, nofun, nofun, rfl, rfl, rfl⟩
    | top | wait | test =>
      simp only [hp] at hst
      cases hst
      refine ⟨nofun, nofun, ?_, rfl, rfl, rfl⟩
      simp only
      split <;> nofun
  obtain ⟨hnone, hexit, hnone', ho, hm, hst'⟩ := hstep
  unfold Expects at h ⊢
  rw [ho, hm, hst']
  cases hown : s.owner <;> simp_all

theorem Expects.owner (h : s.Expects) (hst : s.ownerStep = some s') : s'.Expects := by
  unfold Expects at h
  cases ownerStep_spec hst with
  | spawn i ho =>
    rw [ho] at h
    exact ⟨rfl, i.isLt⟩
  | spawned i hi ho =>
    rw [ho] at h
    exact h.1.trans (le_antisymm h.2 hi)
  | spawnPoller ho =>
    rw [ho] at h
    exact ⟨h, nofun⟩
  | publish ho =>
    rw [ho] at h
    exact ⟨h.1, h.2, rfl⟩
  | destroy ho =>
    rw [ho] at h
    exact ⟨h.1, h.2.1, rfl⟩
  | set i ho =>
    rw [ho] at h
    exact ⟨h.1, h.2.1, h.2.2, i.isLt⟩
  | notify i p ho =>
    rw [ho] at h
    exact ⟨h.1, h.2.1, h.2.2.1⟩
  | joinPoller ho he =>
    rw [ho] at h
    exact ⟨h.1, he, h.2.2⟩
  | finish ho =>
    rw [ho] at h
    exact ⟨h.1, h.2.1⟩
  | told _ _ ho | join _ ho | joined _ _ ho | found ho | testPoller ho | setPoller ho
  | notifyPoller ho =>
    rw [ho] at h
    exact h

theorem Law.stopping (h : s.Law) {i : Fin m} (ht : s.owner.told i = true) :
    s.isStopping = true := by
  have he := h.expects
  unfold Expects at he
  refine decide_eq_true ?_
  cases ho : s.owner <;> simp_all [OwnerPc.told]

/-- A step that leaves the owner where it is. -/
theorem Law.proc {a : Act m k} (h : s.Law) (hst : s.step a = some s') (ha : a ≠ .owner)
    (i : Fin m) : (s.owner.told i = true → Told (s'.m_processers i)) ∧
      (s.owner.joined i = true → (s'.m_processers i).pc = .exited) := by
  cases step_goes hst i with
  | proc state p _ hn hat =>
    rw [hat]
    refine ⟨fun ht => ?_, fun hj => ?_⟩
    · rw [h.stopping ht] at hn
      exact (h.told i ht).next hn
    · simp [Processer.next, h.joined i hj] at hn
  | call c x x' p _ hc hadd hat =>
    rw [hat]
    refine ⟨fun ht => (h.told i ht).addStep hadd, fun hj => ?_⟩
    have hexit := h.joined i hj
    rcases Scheduler.addStep_cases hadd with
      ⟨-, -, he, -⟩ | ⟨fb, -, -, -, he⟩ | ⟨-, -, he | ⟨-, b, hb, -⟩⟩
    · rw [he]
      exact hexit
    · rw [he]
      exact hexit
    · rw [he]
      exact hexit
    · rw [hexit] at hb
      cases hb
  | owner => exact absurd rfl ha
  | rest _ _ _ _ hat =>
    rw [hat]
    exact ⟨h.told i, h.joined i⟩

theorem told_owner (h : s.Law) (hst : s.ownerStep = some s') (i : Fin m)
    (hi : s'.owner.told i = true) : Told (s'.m_processers i) := by
  have hold := h.told i
  cases ownerStep_spec hst with
  | spawn | spawned | spawnPoller | publish | destroy | finish => cases hi
  | set j ho =>
    have hlt : i.val < j := of_decide_eq_true hi
    simp only [Lifetime.setProc]
    rw [Function.update_of_ne (fun he => absurd (congrArg Fin.val he) (Nat.ne_of_lt hlt))]
    exact hold (by rw [ho]; exact hi)
  | told j hj ho => exact hold (by rw [ho]; exact decide_eq_true (by omega))
  | notify j p ho hp =>
    have hlt : i.val < j + 1 := of_decide_eq_true hi
    simp only [Lifetime.setProc]
    by_cases he : i = j
    · rw [he, Function.update_self]
      exact told_notify hp
    · rw [Function.update_of_ne he]
      have hne : i.val ≠ j := fun hv => he (Fin.ext hv)
      exact hold (by rw [ho]; exact decide_eq_true (by omega))
  | join _ ho | joined _ _ ho | found ho | testPoller ho | setPoller ho | notifyPoller ho
  | joinPoller ho => exact hold (by rw [ho]; rfl)

theorem joined_owner (h : s.Law) (hst : s.ownerStep = some s') (i : Fin m)
    (hi : s'.owner.joined i = true) : (s'.m_processers i).pc = .exited := by
  have hold := h.joined i
  cases ownerStep_spec hst with
  | spawn | spawned | spawnPoller | publish | destroy | set | told | notify => cases hi
  | join j ho hexit =>
    have hlt : i.val < j + 1 := of_decide_eq_true hi
    by_cases he : i = j
    · rw [he]
      exact hexit
    · have hne : i.val ≠ j := fun hv => he (Fin.ext hv)
      exact hold (by rw [ho]; exact decide_eq_true (by omega))
  | joined j hj ho => exact hold (by rw [ho]; exact decide_eq_true (by omega))
  | found ho | testPoller ho | setPoller ho | notifyPoller ho | joinPoller ho | finish ho =>
    exact hold (by rw [ho]; rfl)

theorem Law.step {a : Act m k} (h : s.Law) (hst : s.step a = some s') : s'.Law := by
  cases a with
  | owner => exact ⟨h.expects.owner hst, told_owner h hst, joined_owner h hst⟩
  | poller eintr =>
    have hproc := h.proc hst (by simp)
    have ho : s'.owner = s.owner := by
      simp only [Lifetime.step, pollerStep] at hst
      split at hst <;> cases hst <;> rfl
    exact ⟨h.expects.poller hst, fun i => by rw [ho]; exact (hproc i).1,
      fun i => by rw [ho]; exact (hproc i).2⟩
  | proc i state =>
    have hproc := h.proc hst (by simp)
    simp only [Lifetime.step, Option.ite_none_right_eq_some] at hst
    obtain ⟨p, -, rfl⟩ := Option.map_eq_some_iff.mp hst.2
    exact ⟨h.expects, fun j => (hproc j).1, fun j => (hproc j).2⟩
  | addFiber c i fb =>
    have hproc := h.proc hst (by simp)
    simp only [Lifetime.step, Option.ite_none_right_eq_some, Option.some.injEq] at hst
    obtain ⟨-, rfl⟩ := hst
    exact ⟨h.expects, fun j => (hproc j).1, fun j => (hproc j).2⟩
  | call c =>
    have hproc := h.proc hst (by simp)
    simp only [Lifetime.step] at hst
    split at hst
    · cases hst
    · obtain ⟨r, -, rfl⟩ := Option.map_eq_some_iff.mp hst
      exact ⟨h.expects, fun j => (hproc j).1, fun j => (hproc j).2⟩

theorem law (h : (lts m k).Reachable s) : s.Law := by
  have hind : (lts m k).Inductive Law := by
    refine ⟨fun s hs => ?_, fun s a s' hi hst => hi.step hst⟩
    obtain ⟨-, hmade, -, ho, -⟩ := hs
    refine ⟨?_, fun i hi => ?_, fun i hi => ?_⟩
    · unfold Expects
      rw [ho]
      exact ⟨hmade, Nat.zero_le m⟩
    · rw [ho] at hi
      cases hi
    · rw [ho] at hi
      cases hi
  exact hind.reachable s h

end Lifetime
end Ppcode
