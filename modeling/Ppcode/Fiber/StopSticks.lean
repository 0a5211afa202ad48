import Ppcode.Fiber.Lifetime

/-!
# Whether a stop request stays

`Scheduler::stop` stores `stop` in the state of each processer and of the poller.
Their threads store `running` when they start, and a processer's thread stores
`idle` and `running` in `idle`, whatever is there.

* `sticks`: what `stop` has stored stays, in every run in which each thread has
  no such store ahead when `stop` stores or finds `stop`, and no processer that is
  stopped goes to sleep. Then the owner never joins a poller that runs on.
* `lost_stop`: the poller's thread starts late and the owner waits for ever.
-/
namespace Ppcode

/-- `stop` has stored in the processer `i`. -/
def OwnerPc.stored (i : Nat) : OwnerPc → Bool
  | .spawn _ | .spawnPoller | .publish | .started => false
  | .set j => i < j
  | .notify j => i ≤ j
  | _ => true

/-- `stop` has stored in the poller, or found `stop` there. -/
def OwnerPc.pollerStored : OwnerPc → Bool
  | .notifyPoller | .joinPoller | .finish | .done => true
  | _ => false

/-- The thread stores in `m_state` before it tests `isStopping` again. -/
def Processer.ProcPc.storeAhead {F : Type} : ProcPc F → Bool
  | .start | .publish | .again | .wait | .waiting _ | .wake => true
  | _ => false

namespace Lifetime
open Processer (ProcPc AddPc)
variable {m k : Nat}

/-- What `stop` has stored is there. -/
structure Sticks (s : Lifetime m k) : Prop where
  proc : ∀ i : Fin m, s.owner.stored i = true → (s.m_processers i).m_state = .stop
  poller : s.owner.pollerStored = true → s.pollerState = .stop
  join : ¬ (s.owner = .joinPoller ∧ s.poller.inLoop = true ∧ s.pollerState = .running)

/-- `stop` stores, or finds `stop`, where the thread has no store ahead, and a stopped processer
does not find `m_notidied` clear. -/
def Quiet (s : Lifetime m k) : Act m k → Prop
  | .owner =>
    match s.owner with
    | .set i => ∀ h : i < m, (s.m_processers ⟨i, h⟩).pc.storeAhead = false
    | .testPoller => s.stopping = true → s.poller ≠ .start
    | .setPoller => s.poller ≠ .start
    | _ => True
  | .proc i _ => s.owner.stored i = true → (s.m_processers i).pc = .test →
    (s.m_processers i).m_notidied = true
  | _ => True

/-! ## A stopped processer -/

/-- Stopped, with no store ahead. -/
def Held (p : Processer Nat) : Prop := p.m_state = .stop ∧ p.pc.storeAhead = false

theorem Held.next {p p' : Processer Nat} {stopping : Bool} {state : TaskState} (h : Held p)
    (hn : p.next stopping state = some p') (ht : p.pc = .test → p.m_notidied = true) : Held p' := by
  obtain ⟨hst, hpc⟩ := h
  cases Processer.next_spec hn with
  | start | publish | again | wait | waiting | wake => cases hpc
  | test p =>
    refine ⟨hst, ?_⟩
    have hset : p.m_notidied = true := ht rfl
    simp only [hset, if_true]
    rfl
  | loop | check =>
    refine ⟨hst, ?_⟩
    cases stopping <;> rfl
  | fetched p r =>
    refine ⟨hst, ?_⟩
    cases r with
    | switch => rfl
    | idle =>
      simp only [Processer.back]
      split <;> rfl
  | switch => cases state <;> exact ⟨hst, rfl⟩
  | many =>
    refine ⟨hst, ?_⟩
    simp only
    split <;> rfl
  | _ => exact ⟨hst, rfl⟩

theorem Held.notify {p p' : Processer Nat} (h : Held p) (hn : p.notify = some p') : Held p' := by
  obtain ⟨-, he, hpc⟩ := Processer.notify_spec hn
  rcases hpc with ⟨-, hpc⟩ | ⟨b, hb, -⟩
  · refine ⟨?_, ?_⟩
    · rw [he]
      exact h.1
    · rw [hpc]
      exact h.2
  · have hs := h.2
    rw [hb] at hs
    cases hs

theorem Held.addStep {p : Processer Nat} {pc : AddPc Nat} {r : Processer Nat × AddPc Nat}
    (h : Held p) (ha : p.addStep pc = some r) : Held r.1 := by
  cases pc with
  | idle => cases ha
  | enter fb =>
    simp only [Processer.addStep] at ha
    split at ha <;> cases ha <;> exact h
  | push fb =>
    simp only [Processer.addStep] at ha
    split at ha <;> cases ha
    exact h
  | count | test | flag | flagNotify =>
    cases ha
    exact h
  | notify =>
    obtain ⟨p', hp', rfl⟩ := Option.map_eq_some_iff.mp ha
    exact h.notify hp'

/-! ## The invariant -/

/-- What is stored stays, with what is needed to keep it so. -/
structure Inv (s : Lifetime m k) : Prop where
  held : ∀ i : Fin m, s.owner.stored i = true → Held (s.m_processers i)
  begun : s.owner.pollerStored = true → s.poller ≠ .start
  poller : s.owner.pollerStored = true → s.pollerState = .stop

/-- A step of a processer's thread or of a call, on the processer `i`. -/
theorem Inv.setProc {s s' : Lifetime m k} {i : Fin m} {p : Processer Nat} (hi : Inv s)
    (hp : s.owner.stored i = true → Held p)
    (hm : s'.m_processers = Function.update s.m_processers i p) (ho : s'.owner = s.owner)
    (hpo : s'.poller = s.poller) (hps : s'.pollerState = s.pollerState) : Inv s' := by
  refine ⟨fun j hj => ?_, ?_, ?_⟩
  · rw [ho] at hj
    rw [hm]
    by_cases h : j = i
    · subst h
      rw [Function.update_self]
      exact hp hj
    · rw [Function.update_of_ne h]
      exact hi.held j hj
  · rw [ho, hpo]
    exact hi.begun
  · rw [ho, hps]
    exact hi.poller

/-- A step of the owner that moves it to `o` and, where it stores, stores in one
processer. -/
theorem inv_owner {s s' : Lifetime m k} (hi : Inv s) (h : s.ownerStep = some s')
    (hq : s.Quiet .owner) : Inv s' := by
  unfold ownerStep at h
  cases ho : s.owner with
  | spawn i =>
    simp only [ho] at h
    split at h <;> cases h <;> exact ⟨nofun, nofun, nofun⟩
  | spawnPoller | publish =>
    simp only [ho] at h
    cases h
    exact ⟨nofun, nofun, nofun⟩
  | started =>
    simp only [ho] at h
    split at h <;> cases h
    exact ⟨fun i hs => by simp [OwnerPc.stored] at hs, nofun, nofun⟩
  | set i =>
    simp only [ho] at h
    have hheld (j : Fin m) (hj : j.val < i) : Held (s.m_processers j) :=
      hi.held j (by rw [ho]; exact decide_eq_true hj)
    split at h
    · rename_i him
      cases h
      refine ⟨fun j hj => ?_, nofun, nofun⟩
      have hji : j.val ≤ i := of_decide_eq_true hj
      simp only [Lifetime.setProc]
      by_cases hjeq : j = ⟨i, him⟩
      · rw [hjeq, Function.update_self]
        simp only [Quiet, ho] at hq
        exact ⟨rfl, hq him⟩
      · rw [Function.update_of_ne hjeq]
        have hne : j.val ≠ i := fun he => hjeq (Fin.ext he)
        exact hheld j (by omega)
    · cases h
      exact ⟨fun j _ => hheld j (by omega), nofun, nofun⟩
  | notify i =>
    simp only [ho] at h
    split at h
    · rename_i him
      obtain ⟨p, hp, rfl⟩ := Option.map_eq_some_iff.mp h
      have hheld (j : Fin m) (hj : j.val ≤ i) : Held (s.m_processers j) :=
        hi.held j (by rw [ho]; exact decide_eq_true hj)
      refine ⟨fun j hj => ?_, nofun, nofun⟩
      have hji : j.val < i + 1 := of_decide_eq_true hj
      simp only [Lifetime.setProc]
      by_cases hjeq : j = ⟨i, him⟩
      · rw [hjeq, Function.update_self]
        exact (hheld ⟨i, him⟩ (Nat.le_refl i)).notify hp
      · rw [Function.update_of_ne hjeq]
        exact hheld j (by omega)
    · cases h
  | join i =>
    simp only [ho] at h
    have hheld (j : Fin m) : Held (s.m_processers j) := hi.held j (by rw [ho]; rfl)
    split at h
    · split at h <;> cases h
      exact ⟨fun j _ => hheld j, nofun, nofun⟩
    · cases h
      exact ⟨fun j _ => hheld j, nofun, nofun⟩
  | testPoller =>
    simp only [ho] at h
    cases h
    have hheld (j : Fin m) : Held (s.m_processers j) := hi.held j (by rw [ho]; rfl)
    simp only [Quiet, ho] at hq
    cases hs : s.stopping with
    | true => exact ⟨fun j _ => hheld j, fun _ => hq hs, fun _ => of_decide_eq_true hs⟩
    | false => exact ⟨fun j _ => hheld j, nofun, nofun⟩
  | setPoller =>
    simp only [ho] at h
    cases h
    simp only [Quiet, ho] at hq
    exact ⟨fun j _ => hi.held j (by rw [ho]; rfl), fun _ => hq, fun _ => rfl⟩
  | notifyPoller | finish =>
    simp only [ho] at h
    cases h
    exact ⟨fun j _ => hi.held j (by rw [ho]; rfl), fun _ => hi.begun (by rw [ho]; rfl),
      fun _ => hi.poller (by rw [ho]; rfl)⟩
  | joinPoller =>
    simp only [ho] at h
    split at h <;> cases h
    exact ⟨fun j _ => hi.held j (by rw [ho]; rfl), fun _ => hi.begun (by rw [ho]; rfl),
      fun _ => hi.poller (by rw [ho]; rfl)⟩
  | done =>
    simp only [ho] at h
    cases h

theorem inv_poller {s s' : Lifetime m k} {eintr : Bool} (hi : Inv s)
    (h : s.pollerStep eintr = some s') : Inv s' := by
  -- every step but the first leaves the poller's state alone and does not lead back to it
  have hkeep (pc : PollerPc) (hpc : pc ≠ .start) : Inv { s with poller := pc } :=
    ⟨hi.held, fun _ => hpc, hi.poller⟩
  unfold pollerStep at h
  cases hp : s.poller with
  | none | exited => simp [hp] at h
  | start =>
    simp only [hp] at h
    cases h
    exact ⟨hi.held, nofun, fun hst => absurd hp (hi.begun hst)⟩
  | top | test =>
    simp only [hp] at h
    cases h
    refine hkeep _ ?_
    split <;> nofun
  | wait =>
    simp only [hp] at h
    cases h
    refine hkeep _ ?_
    split <;> nofun
  | work =>
    simp only [hp] at h
    cases h
    exact hkeep _ nofun

theorem inv_step {s s' : Lifetime m k} {a : Act m k} (hi : Inv s) (h : s.step a = some s')
    (hq : s.Quiet a) : Inv s' := by
  cases a with
  | owner => exact inv_owner hi h hq
  | poller eintr => exact inv_poller hi h
  | proc i state =>
    simp only [step, Option.ite_none_right_eq_some] at h
    obtain ⟨p, hp, rfl⟩ := Option.map_eq_some_iff.mp h.2
    exact hi.setProc (fun hst => (hi.held i hst).next hp (hq hst)) rfl rfl rfl rfl
  | addFiber c i fb =>
    simp only [step, Option.ite_none_right_eq_some, Option.some.injEq] at h
    obtain ⟨-, rfl⟩ := h
    exact ⟨hi.held, hi.begun, hi.poller⟩
  | call c =>
    simp only [step] at h
    split at h
    · cases h
    · rename_i i pc _
      obtain ⟨r, hr, rfl⟩ := Option.map_eq_some_iff.mp h
      exact hi.setProc (fun hst => (hi.held i hst).addStep hr) rfl rfl rfl rfl

/-- What `stop` stores stays. -/
theorem sticks (m k : Nat) (s : Lifetime m k) (hr : ((lts m k).restrict Quiet).Reachable s) :
    s.Sticks := by
  have hind : ((lts m k).restrict Quiet).Inductive Inv := by
    refine ⟨fun s hs => ?_, fun s a s' hi hst => inv_step hi hst.1 hst.2⟩
    obtain ⟨-, -, -, ho, -⟩ := hs
    refine ⟨fun i hst => ?_, fun hst => ?_, fun hst => ?_⟩
    · rw [ho] at hst
      cases hst
    · rw [ho] at hst
      exact absurd hst (by decide)
    · rw [ho] at hst
      cases hst
  have hi := hind.reachable s hr
  refine ⟨fun i hst => (hi.held i hst).1, hi.poller, fun hjoin => ?_⟩
  obtain ⟨ho, -, hrun⟩ := hjoin
  rw [hi.poller (by rw [ho]; rfl)] at hrun
  cases hrun

/-! ## A late thread -/

/-- The owner joins a poller that runs on. -/
def Stuck (s : Lifetime m k) : Prop :=
  s.owner = .joinPoller ∧ s.poller.inLoop = true ∧ s.pollerState = .running

instance (s : Lifetime m k) : Decidable s.Stuck := inferInstanceAs (Decidable (_ ∧ _ ∧ _))

/-- It stays so, whatever the threads do. -/
theorem stuck_step {s s' : Lifetime m k} {a : Act m k} (hs : s.Stuck) (h : s.step a = some s') :
    s'.Stuck := by
  obtain ⟨ho, hp, hst⟩ := hs
  have hstop : s.stopping = false := by simp [stopping, hst]
  cases a with
  | owner =>
    simp only [step, ownerStep, ho] at h
    split at h
    · rename_i he
      rw [he] at hp
      cases hp
    · cases h
  | poller eintr =>
    simp only [step, pollerStep] at h
    cases hpc : s.poller with
    | none | start | exited =>
      rw [hpc] at hp
      cases hp
    | top | test | work =>
      simp only [hpc, hstop, Bool.false_and, Bool.false_eq_true, if_false] at h
      cases h
      exact ⟨ho, rfl, hst⟩
    | wait =>
      simp only [hpc] at h
      cases h
      refine ⟨ho, ?_, hst⟩
      cases eintr <;> rfl
  | proc i state =>
    simp only [step, Option.ite_none_right_eq_some] at h
    obtain ⟨p, -, rfl⟩ := Option.map_eq_some_iff.mp h.2
    exact ⟨ho, hp, hst⟩
  | addFiber c i fb =>
    simp only [step, Option.ite_none_right_eq_some, Option.some.injEq] at h
    obtain ⟨-, rfl⟩ := h
    exact ⟨ho, hp, hst⟩
  | call c =>
    simp only [step] at h
    split at h
    · cases h
    · obtain ⟨r, -, rfl⟩ := Option.map_eq_some_iff.mp h
      exact ⟨ho, hp, hst⟩

theorem stuck_run {s s' : Lifetime m k} {ls : List (Act m k)} (hs : s.Stuck)
    (h : (lts m k).Run s ls s') : s'.Stuck := by
  induction h with
  | nil => exact hs
  | cons hst _ ih => exact ih (stuck_step hs hst)

/-- Constructed, with one processer. -/
def constructed : Lifetime 1 0 := ⟨.init, fun _ => .new, 0, .init, .none, .spawn 0, nofun⟩

theorem constructed_init : constructed.init := ⟨rfl, rfl, rfl, rfl, nofun⟩

/-- `start`, then the processer's thread up to its loop. -/
def starting : List (Act 1 0) := [.owner, .owner, .owner, .owner, .proc 0 .init]

/-- The destructor up to the join of the poller's thread; the processer's thread ends
in between. -/
def destroying : List (Act 1 0) :=
  [.owner, .owner, .owner, .owner, .proc 0 .init, .owner, .owner, .owner, .owner, .owner]

/-- The poller's thread makes its first store after `stop` has stored: the owner waits
for it for ever. -/
theorem lost_stop : ∃ s, (lts 1 0).Reachable s ∧ ¬ s.Sticks ∧
    ∀ ls s', (lts 1 0).Run s ls s' → s'.owner = .joinPoller := by
  have hrun : (LTS.exec step constructed (starting ++ destroying ++ [.poller false])).any
      (fun s => decide s.Stuck) = true := by decide
  obtain ⟨s, hs, hb⟩ : ∃ s, (lts 1 0).Reachable s ∧ decide s.Stuck = true :=
    LTS.exists_of_exec _ constructed_init hrun
  have hstuck : s.Stuck := of_decide_eq_true hb
  exact ⟨s, hs, fun h => h.join hstuck, fun ls s' hr => (stuck_run hstuck hr).1⟩

/-- The condition, computed. -/
def quiet (s : Lifetime 1 0) : Act 1 0 → Bool
  | .owner =>
    match s.owner with
    | .set i => decide (∀ h : i < 1, (s.m_processers ⟨i, h⟩).pc.storeAhead = false)
    | .testPoller => decide (s.stopping = true → s.poller ≠ .start)
    | .setPoller => decide (s.poller ≠ .start)
    | _ => true
  | .proc i _ => decide (s.owner.stored i = true → (s.m_processers i).pc = .test →
    (s.m_processers i).m_notidied = true)
  | _ => true

theorem quiet_spec (s : Lifetime 1 0) (a : Act 1 0) (h : quiet s a = true) : s.Quiet a := by
  unfold quiet at h
  unfold Quiet
  cases a with
  | owner =>
    simp only at h ⊢
    split at h
    · exact of_decide_eq_true h
    · exact of_decide_eq_true h
    · exact of_decide_eq_true h
    · trivial
  | proc i state => exact of_decide_eq_true h
  | poller | addFiber | call => trivial

/-- The same run with the poller's first store before the destructor. -/
theorem sticks_in_turn : ∃ s, ((lts 1 0).restrict Quiet).Reachable s ∧ s.owner = .joinPoller ∧
    s.Sticks := by
  have hrun : (LTS.execWith step quiet constructed (starting ++ .poller false :: destroying)).any
      (fun s => decide (s.owner = .joinPoller)) = true := by decide
  obtain ⟨s, hs, hb⟩ : ∃ s, ((lts 1 0).restrict Quiet).Reachable s ∧
      decide (s.owner = .joinPoller) = true :=
    LTS.exists_of_execWith quiet_spec _ constructed_init hrun
  exact ⟨s, hs, of_decide_eq_true hb, sticks 1 0 s hs⟩

end Lifetime
end Ppcode
