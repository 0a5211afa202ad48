import Ppcode.Fiber.Scheduler

/-!
# What a step of the scheduler does

Seen from one call, one processer and one fiber.

* `callStep_goes`: a step of a call is one in `addFiber` of a processer or one on the
  way there; either way the call has less to do (`CallPc.rank`).
* `addStep_cases`: in `addFiber` it comes to the loop of processer.cc:70, pushes, or is
  past the push (`due`).
* `step_caller`, `step_proc`, `step_pc`: what any step does to a call, to a processer
  and to its control point.
* `step_run`: a fiber runs until it says that it will swap out.
-/
namespace Ppcode.Scheduler
open Processer (ProcPc AddPc capacity)
variable {m k : Nat}

/-! ## Calls -/

/-- How many steps of `Processer::addFiber` are left, at most. -/
def addRank : AddPc Nat → Nat
  | .idle => 0
  | .notify | .flag => 1
  | .flagNotify => 2
  | .test => 3
  | .count => 4
  | .push _ => 5
  | .enter _ => 6

/-- The same, after its push. -/
def due : AddPc Nat → Nat
  | .enter _ | .push _ => 0
  | a => addRank a

/-- Falls with every step of a call. -/
def CallPc.rank : CallPc m → Nat
  | .idle => 0
  | .move => 1
  | .add _ _ a => 2 + addRank a
  | .pick _ i => 3 * (m - i) + 11
  | .skip _ i => 3 * (m - (i + 1)) + 12
  | .robin _ i _ => 3 * (m - (i + 1)) + 13
  | .scan _ j => 3 * m + (m - j) + 12
  | .test .. => 4 * m + 13
  | .read _ => 4 * m + 14

theorem addRank_lt {p p' : Processer Nat} {a a' : AddPc Nat} (h : p.addStep a = some (p', a')) :
    addRank a' < addRank a := by
  cases a with
  | idle => cases h
  | enter fb =>
    simp only [Processer.addStep] at h
    split at h <;> cases h <;> simp only [addRank] <;> omega
  | push fb =>
    simp only [Processer.addStep, Option.ite_none_right_eq_some, Option.some.injEq] at h
    obtain ⟨-, h⟩ := h
    cases h
    exact Nat.lt_succ_self 4
  | count | flag | flagNotify =>
    cases h
    exact Nat.lt_succ_self _
  | test =>
    cases h
    split <;> simp only [addRank] <;> omega
  | notify =>
    obtain ⟨q, -, he⟩ := Option.map_eq_some_iff.mp h
    cases he
    exact Nat.zero_lt_one

/-- A step of `Processer::addFiber` comes to the loop, pushes, or is one of those after. -/
theorem addStep_cases {p p' : Processer Nat} {a a' : AddPc Nat}
    (h : p.addStep a = some (p', a')) :
    (∃ fb, a = .enter fb ∧ p' = p ∧ (a' = .idle ∨ a' = .push fb)) ∨
    (∃ fb, a = .push fb ∧ a' = .count ∧ p.newQueue.length < capacity ∧
      p' = { p with newQueue := p.newQueue ++ [fb] }) ∨
    (due a' < due a ∧ p'.newQueue = p.newQueue ∧ (p'.pc = p.pc ∨
      a = .notify ∧ ∃ b, p.pc = .waiting b ∧ p'.pc = .waiting true)) := by
  cases a with
  | idle => cases h
  | enter fb =>
    simp only [Processer.addStep] at h
    left
    split at h <;> cases h
    · exact ⟨fb, rfl, rfl, .inl rfl⟩
    · exact ⟨fb, rfl, rfl, .inr rfl⟩
  | push fb =>
    simp only [Processer.addStep, Option.ite_none_right_eq_some, Option.some.injEq] at h
    obtain ⟨hroom, h⟩ := h
    cases h
    exact .inr (.inl ⟨fb, rfl, rfl, hroom, rfl⟩)
  | count | flag | flagNotify =>
    cases h
    exact .inr (.inr ⟨Nat.lt_succ_self _, rfl, .inl rfl⟩)
  | test =>
    cases h
    refine .inr (.inr ⟨?_, rfl, .inl rfl⟩)
    split <;> simp only [due, addRank] <;> omega
  | notify =>
    obtain ⟨q, hq, he⟩ := Option.map_eq_some_iff.mp h
    cases he
    obtain ⟨-, he, hpc⟩ := Processer.notify_spec hq
    refine .inr (.inr ⟨Nat.zero_lt_one, by rw [he], ?_⟩)
    rcases hpc with ⟨-, hpc⟩ | hpc
    · exact .inl hpc
    · exact .inr ⟨rfl, hpc⟩

/-- Where a call is after a step in `addFiber` of a processer. -/
def after (i : Fin m) (moves : Bool) (a : AddPc Nat) : CallPc m :=
  if a = .idle then if moves then .move else .idle else .add i moves a

/-- A step of a call, in `addFiber` of a processer or on its way there. -/
inductive Goes (s : Scheduler m k) (c : Fin k) : Scheduler m k → Prop
  | add (i : Fin m) (moves : Bool) (a a' : AddPc Nat) (p : Processer Nat)
    (at_ : s.callers c = .add i moves a) (step : (s.m_processers i).addStep a = some (p, a')) :
    Goes s c { s with m_processers := s.setProc i p, callers := s.setCaller c (after i moves a') }
  | way (id : Nat) (pc : CallPc m) (rank : pc.rank < (s.callers c).rank)
    (old : ∀ i moves a, s.callers c ≠ .add i moves a)
    (new : ∀ i moves a, pc = .add i moves a → ∃ fb, a = .enter fb) :
    Goes s c { s with id := id, callers := s.setCaller c pc }

theorem callStep_goes {s s' : Scheduler m k} {c : Fin k} (h : s.callStep c = some s') :
    s.Goes c s' := by
  have hway {pc₀ : CallPc m} (hc : s.callers c = pc₀) (id : Nat) (pc : CallPc m)
      (hrank : pc.rank < pc₀.rank) (hold : ∀ i moves a, pc₀ ≠ .add i moves a)
      (hnew : ∀ i moves a, pc = .add i moves a → ∃ fb, a = .enter fb) :
      s.Goes c { s with id := id, callers := s.setCaller c pc } := by
    subst hc
    exact .way id pc hrank hold hnew
  cases callStep_spec h with
  | known fb proc hc | fresh fb hc | notRunning fb proc hc | next fb j _ hc | scanned fb j _ hc
  | pick fb i _ _ hc | blocked fb i proc hc | skip fb i hc =>
    exact hway hc _ _ (by simp only [CallPc.rank]; omega) (by simp) (by simp)
  | running fb proc hc | waits fb j _ hc | last fb i _ _ hc | robin fb i proc hc =>
    exact hway hc _ _ (by simp only [CallPc.rank, addRank]; omega) (by simp) (by simp)
  | add i moves a a' p hc hadd => exact .add i moves a a' p hc hadd
  | move hc => exact hway hc _ _ (by simp only [CallPc.rank]; omega) (by simp) (by simp)

theorem after_rank (i : Fin m) (moves : Bool) (a : AddPc Nat) :
    (after i moves a).rank ≤ 2 + addRank a := by
  unfold after
  split
  · split <;> simp only [CallPc.rank] <;> omega
  · exact le_refl _

theorem callStep_rank {s s' : Scheduler m k} {c : Fin k} (h : s.callStep c = some s') :
    (s'.callers c).rank < (s.callers c).rank := by
  cases callStep_goes h with
  | add i moves a a' p hc hst =>
    have hlt := addRank_lt hst
    have hle := after_rank i moves a'
    simp only [setCaller, Function.update_self, hc]
    exact lt_of_le_of_lt hle (Nat.add_lt_add_left hlt 2)
  | way id pc hrank =>
    simp only [setCaller, Function.update_self]
    exact hrank

/-! ## Processers, fibers and the destructor -/

/-- What the destructor has still to do. -/
def StopPc.rank (m : Nat) : StopPc → Nat
  | .idle => 2 * m + 2
  | .set i => 2 * (m - i) + 1
  | .notify i => 2 * (m - i)
  | .join => 0

theorem stopStep_rank {s s' : Scheduler m k} (h : s.stopStep = some s') :
    s'.stop.rank m < s.stop.rank m := by
  unfold stopStep at h
  cases hs : s.stop with
  | idle =>
    simp only [hs, Option.ite_none_left_eq_some, Option.some.injEq] at h
    obtain ⟨-, rfl⟩ := h
    simp only [StopPc.rank]
    omega
  | set i =>
    simp only [hs] at h
    split at h <;> cases h <;> simp only [StopPc.rank] <;> omega
  | notify i =>
    simp only [hs] at h
    split at h
    · obtain ⟨p, -, rfl⟩ := Option.map_eq_some_iff.mp h
      simp only [StopPc.rank]
      omega
    · cases h
  | join =>
    simp only [hs] at h
    cases h

/-- What a step does to a call. -/
theorem step_caller {s s' : Scheduler m k} {a : Act m k} (h : s.step a = some s') (c : Fin k) :
    a = .call c ∨ s'.callers c = s.callers c ∨ s.callers c = .idle ∧
      ∃ fb, (a = .createFiber c fb ∨ a = .addFiber c fb) ∧ s'.callers c = .read fb := by
  cases a with
  | call c' =>
    by_cases hc : c = c'
    · exact .inl (by rw [hc])
    · right; left
      cases callStep_goes h with
      | add | way => exact Function.update_of_ne hc ..
  | createFiber c' fb | addFiber c' fb =>
    simp only [step, Option.ite_none_right_eq_some, Option.some.injEq] at h
    obtain ⟨hidle, rfl⟩ := h
    right
    by_cases hc : c = c'
    · subst hc
      exact .inr ⟨hidle.1, fb, by simp, Function.update_self ..⟩
    · exact .inl (Function.update_of_ne hc ..)
  | proc i =>
    obtain ⟨p, fibers, -, -, rfl⟩ := procStep_spec h
    exact .inr (.inl rfl)
  | register i | withdraw i | yield i | finish i =>
    unfold step at h
    obtain ⟨fb, f, -, -, -, rfl⟩ := fiberStep_spec h
    exact .inr (.inl rfl)
  | stop =>
    obtain ⟨he, -⟩ := stopStep_spec h
    exact .inr (.inl (congrFun he c))

/-- What a step does to a processer. -/
theorem step_proc {s s' : Scheduler m k} {a : Act m k} (h : s.step a = some s') (i : Fin m) :
    a = .proc i ∨ s'.m_processers i = s.m_processers i ∨
    (∃ c moves x x', a = .call c ∧ s.callers c = .add i moves x ∧
      (s.m_processers i).addStep x = some (s'.m_processers i, x') ∧
      s'.callers c = after i moves x') ∨
    a = .stop ∧ (s'.m_processers i = { s.m_processers i with m_state := .stop } ∨
      (s.m_processers i).notify = some (s'.m_processers i)) := by
  cases a with
  | call c =>
    right
    cases callStep_goes h with
    | way => exact .inl rfl
    | add i' moves x x' p hc hst =>
      by_cases hi : i = i'
      · subst hi
        have hp : s.setProc i p i = p := Function.update_self ..
        refine .inr (.inl ⟨c, moves, x, x', rfl, hc, ?_, Function.update_self ..⟩)
        exact hst.trans (congrArg (fun p => some (p, x')) hp.symm)
      · exact .inl (Function.update_of_ne hi ..)
  | proc i' =>
    by_cases hi : i = i'
    · exact .inl (by rw [hi])
    · right; left
      obtain ⟨p, fibers, -, -, rfl⟩ := procStep_spec h
      exact Function.update_of_ne hi ..
  | createFiber c fb | addFiber c fb =>
    simp only [step, Option.ite_none_right_eq_some, Option.some.injEq] at h
    obtain ⟨-, rfl⟩ := h
    exact .inr (.inl rfl)
  | register i' | withdraw i' | yield i' | finish i' =>
    unfold step at h
    obtain ⟨fb, f, -, -, -, rfl⟩ := fiberStep_spec h
    exact .inr (.inl rfl)
  | stop =>
    obtain ⟨-, -, -, -, hp⟩ := stopStep_spec h
    rcases hp i with he | he
    · exact .inr (.inl he)
    · exact .inr (.inr (.inr ⟨rfl, he⟩))

theorem setFiber_run {s : Scheduler m k} {fb : Nat} (hrun : (s.fibers fb).pc = .run) (x : Nat)
    (f : Fiber m) (hx : fb = x → f.pc = .run) : (s.setFiber x f fb).pc = .run := by
  unfold setFiber
  by_cases hfb : fb = x
  · subst hfb
    rw [Function.update_self]
    exact hx rfl
  · rw [Function.update_of_ne hfb]
    exact hrun

/-- What a step does to the control point of a processer: `notify` wakes it. -/
theorem step_pc {s s' : Scheduler m k} {a : Act m k} (h : s.step a = some s') (i : Fin m) :
    a = .proc i ∨ (s'.m_processers i).pc = (s.m_processers i).pc ∨
    (∃ b, (s.m_processers i).pc = .waiting b ∧ (s'.m_processers i).pc = .waiting true) ∧
      (a = .stop ∨ ∃ c moves, a = .call c ∧ s.callers c = .add i moves .notify) := by
  rcases step_proc h i with ha | he | ⟨c, moves, x, x', ha, hc, hadd, -⟩ | ⟨ha, he | hn⟩
  · exact .inl ha
  · exact .inr (.inl (by rw [he]))
  · right
    rcases addStep_cases hadd with ⟨-, -, he, -⟩ | ⟨x, -, -, -, he⟩ | ⟨-, -, he | ⟨hx, hb⟩⟩
    · exact .inl (by rw [he])
    · exact .inl (by rw [he])
    · exact .inl he
    · rw [hx] at hc
      exact .inr ⟨hb, .inr ⟨c, moves, ha, hc⟩⟩
  · exact .inr (.inl (by rw [he]))
  · right
    obtain ⟨-, -, ⟨-, he⟩ | hb⟩ := Processer.notify_spec hn
    · exact .inl he
    · exact .inr ⟨hb, .inl ha⟩

/-- What a step does to a `newQueue`. -/
theorem step_newQueue {s s' : Scheduler m k} {a : Act m k} (h : s.step a = some s') (i : Fin m) :
    a = .proc i ∨ (s'.m_processers i).newQueue = (s.m_processers i).newQueue ∨
    (s.m_processers i).newQueue.length < capacity ∧
      ∃ fb, (s'.m_processers i).newQueue = (s.m_processers i).newQueue ++ [fb] := by
  rcases step_proc h i with ha | he | ⟨c, moves, x, x', -, -, hadd, -⟩ | ⟨-, he | hn⟩
  · exact .inl ha
  · exact .inr (.inl (by rw [he]))
  · right
    rcases addStep_cases hadd with ⟨-, -, he, -⟩ | ⟨fb, -, -, hlt, he⟩ | ⟨-, he, -⟩
    · exact .inl (by rw [he])
    · exact .inr ⟨hlt, fb, by rw [he]⟩
    · exact .inl he
  · exact .inr (.inl (by rw [he]))
  · obtain ⟨-, he, -⟩ := Processer.notify_spec hn
    exact .inr (.inl (by rw [he]))

/-- The write of a processer leaves a fiber that runs where it is. -/
theorem fiberWrite_run {s : Scheduler m k} {i : Fin m} {pc : ProcPc Nat} {fibers : Nat → Fiber m}
    (h : s.fiberWrite i pc = some fibers) {fb : Nat} (hrun : (s.fibers fb).pc = .run) :
    (fibers fb).pc = .run := by
  cases pc with
  | resume x | bind x =>
    cases h
    refine setFiber_run hrun x _ fun he => ?_
    rw [← he]
    exact hrun
  | swapIn x =>
    cases h
    exact setFiber_run hrun x _ fun _ => rfl
  | inFiber x =>
    simp only [fiberWrite] at h
    split at h
    · rename_i hy
      cases h
      refine setFiber_run hrun x _ fun he => ?_
      rw [← he, hrun] at hy
      cases hy
    · rename_i hy
      cases h
      refine setFiber_run hrun x _ fun he => ?_
      rw [← he, hrun] at hy
      cases hy
    · cases h
  | _ =>
    cases h
    exact hrun

/-- A fiber runs until it says that it will swap out. -/
theorem step_run {s s' : Scheduler m k} {a : Act m k} (h : s.step a = some s') {fb : Nat}
    (hrun : (s.fibers fb).pc = .run)
    (ha : ∀ i, (s.m_processers i).pc = .inFiber fb → a ≠ .yield i ∧ a ≠ .finish i) :
    (s'.fibers fb).pc = .run := by
  cases a with
  | createFiber c x =>
    simp only [step, Option.ite_none_right_eq_some, Option.some.injEq] at h
    obtain ⟨⟨-, hnew⟩, rfl⟩ := h
    refine setFiber_run hrun x _ fun he => ?_
    rw [← he, hrun] at hnew
    cases hnew
  | addFiber c x =>
    simp only [step, Option.ite_none_right_eq_some, Option.some.injEq] at h
    obtain ⟨-, rfl⟩ := h
    refine setFiber_run hrun x _ fun he => ?_
    rw [← he]
    exact hrun
  | call c =>
    cases callStep_goes h with
    | add | way => exact hrun
  | proc i =>
    obtain ⟨p, fibers, -, hw, rfl⟩ := procStep_spec h
    exact fiberWrite_run hw hrun
  | register i | withdraw i =>
    unfold step at h
    obtain ⟨x, f, -, hx, hf, rfl⟩ := fiberStep_spec h
    simp only [Option.ite_none_right_eq_some, Option.some.injEq] at hf
    obtain ⟨-, rfl⟩ := hf
    exact setFiber_run hrun x _ fun _ => hx
  | yield i =>
    unfold step at h
    obtain ⟨x, f, hpc, -, -, rfl⟩ := fiberStep_spec h
    refine setFiber_run hrun x _ fun he => ?_
    rw [← he] at hpc
    exact absurd rfl (ha i hpc).1
  | finish i =>
    unfold step at h
    obtain ⟨x, f, hpc, -, -, rfl⟩ := fiberStep_spec h
    refine setFiber_run hrun x _ fun he => ?_
    rw [← he] at hpc
    exact absurd rfl (ha i hpc).2
  | stop =>
    obtain ⟨-, he, -⟩ := stopStep_spec h
    rw [he]
    exact hrun

/-- Only the destructor stops the scheduler. -/
theorem step_state {s s' : Scheduler m k} {a : Act m k} (h : s.step a = some s')
    (hstop : a ≠ .stop) : s'.m_state = s.m_state ∧ s'.stop = s.stop := by
  cases a with
  | call c =>
    cases callStep_goes h with
    | add | way => exact ⟨rfl, rfl⟩
  | createFiber c fb | addFiber c fb =>
    simp only [step, Option.ite_none_right_eq_some, Option.some.injEq] at h
    obtain ⟨-, rfl⟩ := h
    exact ⟨rfl, rfl⟩
  | proc i =>
    obtain ⟨p, fibers, -, -, rfl⟩ := procStep_spec h
    exact ⟨rfl, rfl⟩
  | register i | withdraw i | yield i | finish i =>
    unfold step at h
    obtain ⟨fb, f, -, -, -, rfl⟩ := fiberStep_spec h
    exact ⟨rfl, rfl⟩
  | stop => exact absurd rfl hstop

end Ppcode.Scheduler
