import Ppcode.Fiber.Scheduler

/-!
# Who is inside `push` and `pop` of a `newQueue`

`Processer::newQueue` is a `spsc_queue`: one thread may be inside `push` and one
inside `pop`. Its own thread is the only one that pops. Every thread that calls
`createFiber` or `addFiber` may push: users, the poller's thread, and the fibers
themselves; nothing keeps two that choose one processer apart.

Here any thread may pass any fiber to `Scheduler::addFiber`.

* `exclusive`: at most one thread is inside `push` and one inside `pop` of each
  queue, in every run in which a call chooses a processer only when no other call
  that chose it has its push still to do.
* `overlap_reaches`: where a call does otherwise, two threads can get inside `push`.
* `two_producers`: two calls of `createFiber` do.
-/
namespace Ppcode.Scheduler
open Processer (ProcPc AddPc)
variable {m k : Nat}

/-- The threads: those of the processers, and those that call. -/
inductive Thread (m k : Nat) where
  | proc (i : Fin m)
  | caller (c : Fin k)
  deriving DecidableEq

/-- A step of the scheduler, or a call of `addFiber` with any fiber. -/
inductive PushAct (m k : Nat) where
  | step (a : Act m k)
  | addFiber (c : Fin k) (fb : Nat)

def pushStep (s : Scheduler m k) : PushAct m k → Option (Scheduler m k)
  | .step a => s.step a
  | .addFiber c fb =>
    if s.callers c = .idle then some { s with callers := s.setCaller c (.read fb) } else none

def pushLts (m k : Nat) : LTS (Scheduler m k) (PushAct m k) :=
  LTS.ofFn (fun s => s = started) pushStep

/-- In the loop of processer.cc:70. -/
def inPush (s : Scheduler m k) (p : Fin m) : Thread m k → Prop
  | .proc _ => False
  | .caller c => ∃ moves fb, s.callers c = .add p moves (.push fb)

/-- In the loop of processer.cc:203. -/
def inPop (s : Scheduler m k) (p : Fin m) : Thread m k → Prop
  | .proc i => i = p ∧ ∃ left r, (s.m_processers i).pc = .pop (left + 1) r
  | .caller _ => False

/-- The contract of the `spsc_queue`s. -/
structure Contract (s : Scheduler m k) : Prop where
  push : ∀ p t t', s.inPush p t → s.inPush p t' → t = t'
  pop : ∀ p t t', s.inPop p t → s.inPop p t' → t = t'

/-- The push is still to do. -/
def pushing : AddPc Nat → Bool
  | .enter _ | .push _ => true
  | _ => false

/-- A call has chosen `p` and has its push still to do. -/
def CallPc.pending (p : Fin m) : CallPc m → Bool
  | .add q _ pc => decide (q = p) && pushing pc
  | _ => false

/-- The processer that the next step of a call chooses.
mirrors src/fiber/scheduler.cc:65-98 -/
def chooses (s : Scheduler m k) : CallPc m → Option (Fin m)
  | .test _ proc => if (s.m_processers proc).isRunning then some proc else none
  | .scan _ j =>
    if h : j < m then if (s.m_processers ⟨j, h⟩).isWaitting then some ⟨j, h⟩ else none else none
  | .pick _ i => if h : s.id < m then if i < m then none else some ⟨s.id, h⟩ else none
  | .robin _ _ proc => if (s.m_processers proc).isBlock then none else some proc
  | _ => none

/-- A call chooses a processer that no other call has still to push to. -/
def OneAtATime (s : Scheduler m k) : PushAct m k → Prop
  | .step (.call c) => ∀ p, s.chooses (s.callers c) = some p →
    ∀ c', c' ≠ c → (s.callers c').pending p = false
  | _ => True

/-! ## One step -/

theorem addStep_pushing {p : Processer Nat} {pc : AddPc Nat} {r : Processer Nat × AddPc Nat}
    (h : p.addStep pc = some r) (hr : pushing r.2 = true) : pushing pc = true := by
  cases pc with
  | enter fb | push fb => rfl
  | idle => cases h
  | count | flag | flagNotify =>
    cases h
    cases hr
  | test =>
    cases h
    simp only at hr
    split at hr <;> cases hr
  | notify =>
    obtain ⟨p', -, rfl⟩ := Option.map_eq_some_iff.mp h
    cases hr

/-- What a step of a call does to its control point, with respect to pushes. -/
theorem callStep_pending {s s' : Scheduler m k} {c : Fin k} (h : s.callStep c = some s') :
    ∃ pc, s'.callers = s.setCaller c pc ∧
      ∀ p, pc.pending p = true → s.chooses (s.callers c) = some p ∨ (s.callers c).pending p = true := by
  cases callStep_spec h with
  | running fb proc hc hrun =>
    exact ⟨_, rfl, fun p hp =>
      .inl (by simpa [hc, chooses, hrun, CallPc.pending, pushing] using hp)⟩
  | waits fb j hj hc hwait =>
    exact ⟨_, rfl, fun p hp =>
      .inl (by simpa [hc, chooses, hj, hwait, CallPc.pending, pushing] using hp)⟩
  | last fb i hid hi hc =>
    exact ⟨_, rfl, fun p hp =>
      .inl (by simpa [hc, chooses, hid, hi, CallPc.pending, pushing] using hp)⟩
  | robin fb i proc hc hblock =>
    exact ⟨_, rfl, fun p hp =>
      .inl (by simpa [hc, chooses, hblock, CallPc.pending, pushing] using hp)⟩
  | add proc moves a a' p hc hadd =>
    refine ⟨_, rfl, fun p hp => .inr ?_⟩
    rw [hc]
    split at hp
    · split at hp <;> cases hp
    · simp only [CallPc.pending, Bool.and_eq_true] at hp ⊢
      exact ⟨hp.1, addStep_pushing hadd hp.2⟩
  | _ => exact ⟨_, rfl, fun p hp => by cases hp⟩

/-- Only calls move their control points. -/
theorem step_callers {s s' : Scheduler m k} {a : Act m k} (h : s.step a = some s')
    (ha : ∀ c, a ≠ .call c) : s'.callers = s.callers ∨
      ∃ c fb, s.callers c = .idle ∧ s'.callers = s.setCaller c (.read fb) := by
  cases a with
  | call c => exact absurd rfl (ha c)
  | createFiber c fb | addFiber c fb =>
    simp only [step, Option.ite_none_right_eq_some, Option.some.injEq] at h
    obtain ⟨hc, rfl⟩ := h
    exact .inr ⟨c, fb, hc.1, rfl⟩
  | proc i =>
    obtain ⟨p, fibers, -, -, rfl⟩ := procStep_spec h
    exact .inl rfl
  | register i | withdraw i | yield i | finish i =>
    unfold step at h
    obtain ⟨fb, f, -, -, -, rfl⟩ := fiberStep_spec h
    exact .inl rfl
  | stop =>
    obtain ⟨he, -⟩ := stopStep_spec h
    exact .inl he

/-! ## The contract -/

/-- No two calls have to push to one processer. -/
def Disjoint (s : Scheduler m k) : Prop :=
  ∀ p c c', (s.callers c).pending p = true → (s.callers c').pending p = true → c = c'

/-- One control point is moved, and what it is pending on now no other is. -/
theorem disjoint_setCaller {s : Scheduler m k} (hd : s.Disjoint) {c : Fin k} {pc : CallPc m}
    (h : ∀ p, pc.pending p = true → ∀ c', c' ≠ c → (s.callers c').pending p = false)
    {s' : Scheduler m k} (hs : s'.callers = s.setCaller c pc) : s'.Disjoint := by
  intro p c₁ c₂ h₁ h₂
  rw [hs, setCaller] at h₁ h₂
  by_cases e₁ : c₁ = c <;> by_cases e₂ : c₂ = c
  · rw [e₁, e₂]
  · subst e₁
    rw [Function.update_self] at h₁
    rw [Function.update_of_ne e₂, h p h₁ c₂ e₂] at h₂
    cases h₂
  · subst e₂
    rw [Function.update_self] at h₂
    rw [Function.update_of_ne e₁, h p h₂ c₁ e₁] at h₁
    cases h₁
  · rw [Function.update_of_ne e₁] at h₁
    rw [Function.update_of_ne e₂] at h₂
    exact hd p c₁ c₂ h₁ h₂

theorem disjoint_callStep {s s' : Scheduler m k} {c : Fin k} (hd : s.Disjoint)
    (h : s.callStep c = some s') (hone : s.OneAtATime (.step (.call c))) : s'.Disjoint := by
  obtain ⟨pc, hs, hp⟩ := callStep_pending h
  refine disjoint_setCaller hd (fun p hpc c' hc' => ?_) hs
  rcases hp p hpc with hch | hold
  · exact hone p hch c' hc'
  · cases he : (s.callers c').pending p with
    | false => rfl
    | true => exact absurd (hd p c' c he hold) hc'

theorem disjoint_step {s s' : Scheduler m k} {a : PushAct m k} (hd : s.Disjoint)
    (h : s.pushStep a = some s') (hone : s.OneAtATime a) : s'.Disjoint := by
  have hread (c : Fin k) (fb : Nat) (hs : s'.callers = s.setCaller c (.read fb)) : s'.Disjoint :=
    disjoint_setCaller hd (fun p hp => by cases hp) hs
  cases a with
  | addFiber c fb =>
    simp only [pushStep, Option.ite_none_right_eq_some, Option.some.injEq] at h
    obtain ⟨-, rfl⟩ := h
    exact hread c fb rfl
  | step a =>
    by_cases ha : ∃ c, a = .call c
    · obtain ⟨c, rfl⟩ := ha
      exact disjoint_callStep hd h hone
    · rcases step_callers h fun c hc => ha ⟨c, hc⟩ with he | ⟨c, fb, -, he⟩
      · intro p c c' h₁ h₂
        rw [he] at h₁ h₂
        exact hd p c c' h₁ h₂
      · exact hread c fb he

theorem inPop_unique {s : Scheduler m k} {p : Fin m} {t t' : Thread m k} (h : s.inPop p t)
    (h' : s.inPop p t') : t = t' := by
  cases t with
  | caller c => exact h.elim
  | proc i =>
    cases t' with
    | caller c => exact h'.elim
    | proc j => rw [h.1, h'.1]

theorem inPush_pending {s : Scheduler m k} {p : Fin m} {t : Thread m k} (h : s.inPush p t) :
    ∃ c, t = .caller c ∧ (s.callers c).pending p = true := by
  cases t with
  | proc i => exact h.elim
  | caller c =>
    obtain ⟨moves, fb, hc⟩ := h
    exact ⟨c, rfl, by simp [hc, CallPc.pending, pushing]⟩

/-- At most one thread is inside `push`, and one inside `pop`, of each `newQueue`. -/
theorem exclusive (m k : Nat) (s : Scheduler m k)
    (hr : ((pushLts m k).restrict OneAtATime).Reachable s) : s.Contract := by
  have hind : ((pushLts m k).restrict OneAtATime).Inductive Disjoint := by
    refine ⟨fun s hs => ?_, fun s a s' hd hst => disjoint_step hd hst.1 hst.2⟩
    intro p c c' h
    rw [show s = started from hs] at h
    cases h
  have hd := hind.reachable s hr
  refine ⟨fun p t t' ht ht' => ?_, fun p t t' => inPop_unique⟩
  obtain ⟨c, rfl, hc⟩ := inPush_pending ht
  obtain ⟨c', rfl, hc'⟩ := inPush_pending ht'
  rw [hd p c c' hc hc']

/-! ## Two producers -/

/-- The call of `c` is at `pc`. -/
def goto (s : Scheduler m k) (c : Fin k) (pc : CallPc m) : Scheduler m k :=
  { s with callers := s.setCaller c pc }

@[simp] theorem goto_self (s : Scheduler m k) (c : Fin k) (pc : CallPc m) :
    (s.goto c pc).callers c = pc := Function.update_self ..

theorem goto_of_ne {c c' : Fin k} (s : Scheduler m k) (pc : CallPc m) (h : c' ≠ c) :
    (s.goto c pc).callers c' = s.callers c' := Function.update_of_ne h ..

@[simp] theorem goto_m_processers (s : Scheduler m k) (c : Fin k) (pc : CallPc m) :
    (s.goto c pc).m_processers = s.m_processers := rfl

theorem call_chooses {s : Scheduler m k} {c : Fin k} {p : Fin m}
    (h : s.chooses (s.callers c) = some p) : ∃ moves fb, s.callStep c =
      some (s.goto c (.add p moves (.enter fb))) := by
  cases hc : s.callers c with
  | test fb proc =>
    simp only [hc, chooses, Option.ite_none_right_eq_some, Option.some.injEq] at h
    obtain ⟨hr, rfl⟩ := h
    exact ⟨false, fb, by simp only [callStep, hc, if_pos hr, goto]⟩
  | scan fb j =>
    simp only [hc, chooses] at h
    split at h
    · rename_i hj
      simp only [Option.ite_none_right_eq_some, Option.some.injEq] at h
      obtain ⟨hw, rfl⟩ := h
      exact ⟨false, fb, by simp only [callStep, hc, dif_pos hj, if_pos hw, goto]⟩
    · cases h
  | pick fb i =>
    simp only [hc, chooses] at h
    split at h
    · rename_i hid
      simp only [Option.ite_none_left_eq_some, Option.some.injEq] at h
      obtain ⟨hi, rfl⟩ := h
      exact ⟨true, fb, by simp only [callStep, hc, dif_pos hid, if_neg hi, goto]⟩
    · cases h
  | robin fb i proc =>
    simp only [hc, chooses, Option.ite_none_left_eq_some, Option.some.injEq] at h
    obtain ⟨hb, rfl⟩ := h
    exact ⟨true, fb, by simp only [callStep, hc, if_neg hb, goto]⟩
  | idle | read | skip | add | move => simp [hc, chooses] at h

/-- A call goes into the push to a processer that is not stopped. -/
theorem call_enter {s : Scheduler m k} {c : Fin k} {p : Fin m} {moves : Bool} {fb : Nat}
    (hc : s.callers c = .add p moves (.enter fb))
    (hrun : (s.m_processers p).m_state ≠ .stop ∧ (s.m_processers p).m_state ≠ .done) :
    s.callStep c = some (s.goto c (.add p moves (.push fb))) := by
  have hadd : (s.m_processers p).addStep (.enter fb) = some (s.m_processers p, .push fb) := by
    simp [Processer.addStep, hrun]
  simp [callStep, hc, hadd, setProc, goto]

/-- A call that chooses a processer that another has still to push to: from there
both get inside `push`. -/
theorem overlap_reaches {s : Scheduler m k} {c c' : Fin k} {p : Fin m} (hne : c' ≠ c)
    (hch : s.chooses (s.callers c) = some p) (hpend : (s.callers c').pending p = true)
    (hrun : (s.m_processers p).m_state ≠ .stop ∧ (s.m_processers p).m_state ≠ .done) :
    ∃ ls s', (pushLts m k).Run s ls s' ∧ s'.inPush p (.caller c) ∧ s'.inPush p (.caller c') := by
  obtain ⟨mv, fb, h₁⟩ := call_chooses hch
  have hself₁ := goto_self s c (.add p mv (.enter fb))
  have h₂ := call_enter hself₁ (by simpa using hrun)
  generalize hs₁ : s.goto c (.add p mv (.enter fb)) = s₁ at h₁ h₂
  generalize hs₂ : s₁.goto c (.add p mv (.push fb)) = s₂ at h₂
  have hrun₂ : (pushLts m k).Run s [.step (.call c), .step (.call c)] s₂ :=
    .cons h₁ (.cons h₂ (.nil _))
  have hself : s₂.callers c = .add p mv (.push fb) := by rw [← hs₂, goto_self]
  have hother : s₂.callers c' = s.callers c' := by
    rw [← hs₂, goto_of_ne _ _ hne, ← hs₁, goto_of_ne _ _ hne]
  have hstate : s₂.m_processers = s.m_processers := by rw [← hs₂, ← hs₁]; rfl
  cases hc' : s.callers c' with
  | add q mv' pc =>
    simp only [hc', CallPc.pending, Bool.and_eq_true, decide_eq_true_eq] at hpend
    obtain ⟨rfl, hpc⟩ := hpend
    cases pc with
    | push fb' => exact ⟨_, s₂, hrun₂, ⟨mv, fb, hself⟩, mv', fb', by rw [hother, hc']⟩
    | enter fb' =>
      have h₃ : (pushLts m k).step s₂ (.step (.call c')) _ :=
        call_enter (hother.trans hc') (by rw [hstate]; exact hrun)
      refine ⟨_, _, hrun₂.snoc h₃, ?_, ?_⟩
      · exact ⟨mv, fb, by rw [goto_of_ne _ _ hne.symm, hself]⟩
      · exact ⟨mv', fb', goto_self ..⟩
    | idle | count | test | flag | flagNotify | notify => cases hpc
  | idle | read | test | scan | pick | robin | skip | move => simp [hc', CallPc.pending] at hpend

/-- `createFiber`, up to the loop of processer.cc:70. -/
def create (c : Fin 2) (fb : Nat) : List (PushAct 1 2) :=
  .step (.createFiber c fb) :: List.replicate 6 (.step (.call c))

/-- Two threads create a fiber each, with one processer. -/
theorem two_producers : ∃ s, (pushLts 1 2).Reachable s ∧ ¬ s.Contract := by
  have hrun : (LTS.exec pushStep started (create 0 0 ++ create 1 1)).any (fun s =>
      decide (s.callers 0 = .add 0 true (.push 0) ∧ s.callers 1 = .add 0 true (.push 1))) = true := by
    decide
  obtain ⟨s, hs, hb⟩ : ∃ s, (pushLts 1 2).Reachable s ∧ decide (s.callers 0 =
      .add 0 true (.push 0) ∧ s.callers 1 = .add 0 true (.push 1)) = true :=
    LTS.exists_of_exec _ rfl hrun
  have hpush := of_decide_eq_true hb
  refine ⟨s, hs, fun hc => ?_⟩
  have heq := hc.push 0 (.caller 0) (.caller 1) ⟨true, 0, hpush.1⟩ ⟨true, 1, hpush.2⟩
  cases heq

/-- The condition, computed. -/
def oneAtATime (s : Scheduler 1 2) : PushAct 1 2 → Bool
  | .step (.call c) => decide (∀ p, s.chooses (s.callers c) = some p →
    ∀ c', c' ≠ c → (s.callers c').pending p = false)
  | _ => true

theorem oneAtATime_spec (s : Scheduler 1 2) (a : PushAct 1 2) (h : oneAtATime s a = true) :
    s.OneAtATime a := by
  cases a with
  | addFiber c fb => trivial
  | step a =>
    cases a with
    | call c =>
      unfold oneAtATime at h
      have hd := of_decide_eq_true h
      exact hd
    | _ => trivial

/-- The two calls one after the other. -/
theorem exclusive_in_turn : ∃ s, ((pushLts 1 2).restrict OneAtATime).Reachable s ∧
    s.inPush 0 (.caller 1) ∧ s.Contract := by
  have hrun : (LTS.execWith pushStep oneAtATime started (create 0 0 ++
      List.replicate 6 (.step (.call 0)) ++ create 1 1)).any
      (fun s => decide (s.callers 1 = .add 0 true (.push 1))) = true := by decide
  obtain ⟨s, hs, hb⟩ : ∃ s, ((pushLts 1 2).restrict OneAtATime).Reachable s ∧
      decide (s.callers 1 = .add 0 true (.push 1)) = true :=
    LTS.exists_of_execWith oneAtATime_spec _ rfl hrun
  exact ⟨s, hs, ⟨true, 1, of_decide_eq_true hb⟩, exclusive 1 2 s hs⟩

end Ppcode.Scheduler
