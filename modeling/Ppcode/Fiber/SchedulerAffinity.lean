import Ppcode.Fiber.SchedulerView

/-!
# A fiber runs on one processer

The steps of the processers, the fibers and the destructor are events of `Life`,
too, so `Inv` holds in every reachable state.

`fiber_law`: no fiber is between `SwapIn` and its return on two processers, and
none is swapped in that has not swapped out, or is done.
-/
namespace Ppcode.Scheduler
open Processer (ProcPc AddPc)
variable {m k : Nat}

/-! ## Processers -/

section Procs
variable {s : Scheduler m k} {i : Fin m}

theorem back_tok (p : Processer Nat) (r : Processer.Ret) :
    (∀ fb, spotOf (p.back r) fb = .away) ∧ ∀ fb, inHand (p.back r) fb = 0 := by
  unfold Processer.back
  split
  · split <;> exact ⟨fun _ => rfl, fun _ => rfl⟩
  · exact ⟨fun _ => rfl, fun _ => rfl⟩

/-- The steps that touch no fiber in hand only move entries in the queues. -/
theorem next_tok {stopping : Bool} {state : TaskState} {p p' : Processer Nat}
    (h : p.next stopping state = some p')
    (hpc : ∀ x, p.pc ≠ .check x ∧ p.pc ≠ .resume x ∧ p.pc ≠ .bind x ∧ p.pc ≠ .swapIn x ∧
      p.pc ≠ .inFiber x ∧ p.pc ≠ .switch x) :
    (∀ fb, spotOf p'.pc fb = spotOf p.pc fb) ∧ ∀ fb, tokOf p' fb = tokOf p fb := by
  unfold tokOf
  cases Processer.next_spec h with
  | check p x => exact absurd rfl (hpc x).1
  | resume p x => exact absurd rfl (hpc x).2.1
  | bind p x => exact absurd rfl (hpc x).2.2.1
  | swapIn p x => exact absurd rfl (hpc x).2.2.2.1
  | inFiber p x => exact absurd rfl (hpc x).2.2.2.2.1
  | switch p x => exact absurd rfl (hpc x).2.2.2.2.2
  | take p x q =>
    refine ⟨fun _ => rfl, fun fb => ?_⟩
    simp only [inHand, List.count_cons, beq_iff_eq]
    omega
  | fetched p r =>
    obtain ⟨hspot, hhand⟩ := back_tok p r
    refine ⟨hspot, fun fb => ?_⟩
    simp only [hhand]
    rfl
  | pop p left r x q =>
    refine ⟨fun _ => rfl, fun fb => ?_⟩
    simp only [inHand, List.count_append, List.count_cons, List.count_nil, beq_iff_eq]
    omega
  | loop | test | again | many =>
    refine ⟨fun _ => ?_, fun _ => ?_⟩
    · simp only
      split <;> rfl
    · simp only
      split <;> rfl
  | _ => exact ⟨fun _ => rfl, fun _ => rfl⟩

theorem next_up {stopping : Bool} {state : TaskState} {p p' : Processer Nat}
    (h : p.next stopping state = some p') (hup : isUp p.pc = true → p.m_state = .running)
    (hu : isUp p'.pc = true) : p'.m_state = .running := by
  cases Processer.next_spec h with
  | start | wake => rfl
  | publish | wait | waiting => cases hu
  | again =>
    simp only at hu
    split at hu <;> cases hu
  | switch => cases state <;> exact hup rfl
  | _ => exact hup rfl

theorem life_spot_eq {pc : ProcPc Nat} (hp : (s.m_processers i).pc = pc) (fb : Nat) :
    (s.life fb).spot i = spotOf pc fb := by
  rw [← hp]
  rfl

/-- A step with the fiber `x` in hand. -/
theorem inv_hand (h : s.Inv) (x : Nat) {p : Processer Nat} {f : Fiber m}
    (hother : ∀ fb, fb ≠ x → spotOf p.pc fb = spotOf (s.m_processers i).pc fb ∧
      tokOf p fb = tokOf (s.m_processers i) fb)
    (hx : Life.Ok (s.m_state = .stop) { s.life x with
      spot := Function.update (s.life x).spot i (spotOf p.pc x)
      tok := Function.update (s.life x).tok i (tokOf p x)
      fiber := f })
    (hup : s.m_state ≠ .stop → isUp p.pc = true → p.m_state = .running) :
    Inv { s with m_processers := s.setProc i p, fibers := s.setFiber x f } := by
  refine ⟨fun fb => ?_, fun hn => ?_, h.stop⟩
  · have hlife : life { s with m_processers := s.setProc i p, fibers := s.setFiber x f } fb =
        { s.life fb with
          spot := Function.update (s.life fb).spot i (spotOf p.pc fb)
          tok := Function.update (s.life fb).tok i (tokOf p fb)
          fiber := s.setFiber x f fb } := by
      have hl := life_setProc { s with fibers := s.setFiber x f } i p fb
      exact hl
    rw [hlife]
    by_cases hfb : fb = x
    · subst hfb
      rw [show s.setFiber fb f fb = f from Function.update_self ..]
      exact hx
    · obtain ⟨hspot, htok⟩ := hother fb hfb
      rw [show s.setFiber x f fb = s.fibers fb from Function.update_of_ne hfb _ _, hspot, htok]
      change Life.Ok _ { s.life fb with
        spot := Function.update (s.life fb).spot i ((s.life fb).spot i)
        tok := Function.update (s.life fb).tok i ((s.life fb).tok i) }
      rw [Function.update_eq_self, Function.update_eq_self]
      exact h.life fb
  · exact (Function.forall_update_iff s.m_processers fun _ p =>
      isUp p.pc = true → p.m_state = .running).mpr ⟨hup hn, fun j _ => h.up hn j⟩

/-- What the fiber `x` sees when the entry count of the processer does not change. -/
theorem life_spot {x : Nat} {p : Processer Nat} {f : Fiber m} {stopping : Prop} (spot : Spot)
    (hspot : spotOf p.pc x = spot) (htok : tokOf p x = tokOf (s.m_processers i) x)
    (h : Life.Ok stopping { s.life x with
      spot := Function.update (s.life x).spot i spot, fiber := f }) :
    Life.Ok stopping { s.life x with
      spot := Function.update (s.life x).spot i (spotOf p.pc x)
      tok := Function.update (s.life x).tok i (tokOf p x)
      fiber := f } := by
  rw [hspot, htok]
  change Life.Ok _ { s.life x with
    spot := Function.update (s.life x).spot i spot
    tok := Function.update (s.life x).tok i ((s.life x).tok i)
    fiber := f }
  rw [Function.update_eq_self]
  exact h

/-- A step from `pc` to `pc'` that keeps the fiber `x` in hand, or out of it. -/
theorem inv_held (h : s.Inv) (x : Nat) {pc pc' : ProcPc Nat} {f : Fiber m} (spot : Spot)
    (hp : (s.m_processers i).pc = pc) (hhand : ∀ fb, inHand pc' fb = inHand pc fb)
    (hother : ∀ fb, fb ≠ x → spotOf pc' fb = spotOf pc fb) (hspot : spotOf pc' x = spot)
    (hx : Life.Ok (s.m_state = .stop) { s.life x with
      spot := Function.update (s.life x).spot i spot, fiber := f })
    (hup : s.m_state ≠ .stop → isUp pc' = true → (s.m_processers i).m_state = .running) :
    Inv { s with m_processers := s.setProc i { s.m_processers i with pc := pc' },
                 fibers := s.setFiber x f } := by
  have htok (fb : Nat) :
      tokOf { s.m_processers i with pc := pc' } fb = tokOf (s.m_processers i) fb := by
    unfold tokOf
    rw [hp, ← hhand fb]
  refine inv_hand h x (fun fb hfb => ⟨?_, htok fb⟩) (life_spot spot hspot (htok x) hx) hup
  rw [hp]
  exact hother fb hfb

section Hand
variable {x : Nat} {p : Processer Nat} (h : s.Inv)
  (hup : s.m_state ≠ .stop → isUp p.pc = true → p.m_state = .running)
include h hup

/-- :137 with the scheduler stopping: the entry is dropped. -/
theorem inv_drop (hp : (s.m_processers i).pc = .check x)
    (he : p = { s.m_processers i with pc := .loop }) :
    Inv { s with m_processers := s.setProc i p, fibers := s.setFiber x (s.fibers x) } := by
  subst he
  have hspot : (s.life x).spot i = .away := life_spot_eq hp x
  refine inv_hand h x (fun fb hfb => ?_) ?_ hup
  · unfold tokOf
    rw [hp]
    simp only [spotOf, inHand, if_neg hfb.symm, and_self]
  · have hle : tokOf { s.m_processers i with pc := .loop } x ≤ (s.life x).tok i := by
      change _ ≤ tokOf _ x
      unfold tokOf
      exact Nat.add_le_add_left (Nat.zero_le _) _
    have hmove := (h.life x).move hle (by rw [hspot]; nofun)
    have hself : Function.update (s.life x).spot i .away = (s.life x).spot := by
      rw [← hspot]
      exact Function.update_eq_self i (s.life x).spot
    change Life.Ok _ { s.life x with
      spot := Function.update (s.life x).spot i .away
      tok := Function.update (s.life x).tok i (tokOf { s.m_processers i with pc := .loop } x) }
    rw [hself]
    exact hmove

/-- :137 otherwise. -/
theorem inv_check (hn : s.m_state ≠ .stop) (hp : (s.m_processers i).pc = .check x)
    (he : p = { s.m_processers i with pc := .resume x }) :
    Inv { s with m_processers := s.setProc i p, fibers := s.setFiber x (s.fibers x) } := by
  subst he
  refine inv_held h x .hand hp (fun _ => rfl) (fun fb hfb => ?_) (if_pos rfl) ?_ hup
  · simp only [spotOf, if_neg hfb.symm]
  · refine (h.life x).take hn ?_ ?_
    · exact life_spot_eq hp x
    · change 0 < tokOf _ x
      unfold tokOf
      rw [hp]
      simp only [inHand, if_true]
      omega

/-- :141 -/
theorem inv_resume (hp : (s.m_processers i).pc = .resume x)
    (he : p = { s.m_processers i with pc := .bind x }) :
    Inv { s with m_processers := s.setProc i p,
                 fibers := s.setFiber x { s.fibers x with m_state := .running } } := by
  subst he
  have hspot : (s.life x).spot i = .hand := (life_spot_eq hp x).trans (if_pos rfl)
  refine inv_held h x .hand hp (fun _ => rfl) (fun fb hfb => ?_) (if_pos rfl) ?_ hup
  · simp only [spotOf, if_neg hfb.symm]
  · rw [← hspot, Function.update_eq_self]
    exact (h.life x).resume (by rw [hspot]; rfl)

/-- :142 -/
theorem inv_bind (hp : (s.m_processers i).pc = .bind x)
    (he : p = { s.m_processers i with pc := .swapIn x }) :
    Inv { s with m_processers := s.setProc i p,
                 fibers := s.setFiber x { s.fibers x with m_proc := some i } } := by
  subst he
  refine inv_held h x .bound hp (fun _ => rfl) (fun fb hfb => ?_) (if_pos rfl) ?_ hup
  · simp only [spotOf, if_neg hfb.symm]
  · refine (h.life x).bind ?_
    rw [life_spot_eq hp x]
    simp only [spotOf, if_true]
    rfl

/-- :145 -/
theorem inv_swapIn (hp : (s.m_processers i).pc = .swapIn x)
    (he : p = { s.m_processers i with pc := .inFiber x }) :
    Inv { s with m_processers := s.setProc i p,
                 fibers := s.setFiber x { s.fibers x with pc := .run, wait := .none } } := by
  subst he
  refine inv_hand h x (fun fb hfb => ?_) ?_ hup
  · unfold tokOf
    rw [hp]
    simp only [spotOf, inHand, if_neg hfb.symm, and_self]
  · have hspot : (s.life x).spot i = .bound := (life_spot_eq hp x).trans (if_pos rfl)
    have htok : tokOf { s.m_processers i with pc := .inFiber x } x = (s.life x).tok i - 1 := by
      change _ = tokOf _ x - 1
      unfold tokOf
      rw [hp]
      simp only [inHand, if_true]
      omega
    have hself : spotOf (ProcPc.inFiber x) x = .inFiber := if_pos rfl
    rw [htok, hself]
    exact (h.life x).swapIn hspot

/-- The fiber returns to :147. -/
theorem inv_swapOut (hp : (s.m_processers i).pc = .inFiber x)
    (he : p = { s.m_processers i with pc := .switch x }) {pc : FiberPc}
    (hpc : (s.fibers x).pc = .yielding ∧ pc = .out ∨ (s.fibers x).pc = .ending ∧ pc = .ended) :
    Inv { s with m_processers := s.setProc i p,
                 fibers := s.setFiber x { s.fibers x with pc := pc } } := by
  subst he
  refine inv_held h x .switch hp (fun _ => rfl) (fun fb hfb => ?_) (if_pos rfl) ?_ hup
  · simp only [spotOf, if_neg hfb.symm]
  · exact (h.life x).swapOut ((life_spot_eq hp x).trans (if_pos rfl)) hpc

end Hand

/-- The state that is read at :147 is not `running`, so the fiber is not queued again. -/
theorem inv_switch (h : s.Inv) {x : Nat} {p : Processer Nat}
    (hup : s.m_state ≠ .stop → isUp p.pc = true → p.m_state = .running)
    (hp : (s.m_processers i).pc = .switch x)
    (he : p = (s.m_processers i).switched x (s.fibers x).m_state) :
    Inv { s with m_processers := s.setProc i p, fibers := s.setFiber x (s.fibers x) } := by
  have hspot : (s.life x).spot i = .switch := (life_spot_eq hp x).trans (if_pos rfl)
  have hsame : p.newQueue = (s.m_processers i).newQueue ∧
      p.runableQueue = (s.m_processers i).runableQueue ∧ p.pc = .loop := by
    have hne := ((h.life x).left i hspot).2
    subst he
    change (s.fibers x).m_state ≠ .running at hne
    cases hs : (s.fibers x).m_state with
    | running => exact absurd hs hne
    | _ => exact ⟨rfl, rfl, rfl⟩
  obtain ⟨hnew, hrun, hpc⟩ := hsame
  have htok : ∀ fb, tokOf p fb = tokOf (s.m_processers i) fb := by
    intro fb
    unfold tokOf
    rw [hnew, hrun, hpc, hp]
    rfl
  refine inv_hand h x (fun fb hfb => ⟨?_, htok fb⟩) (life_spot .away ?_ (htok x) ?_) hup
  · rw [hpc, hp]
    simp only [spotOf, if_neg hfb.symm]
  · rw [hpc]
    rfl
  · exact (h.life x).leave hspot

theorem setFiber_self (x : Nat) : s.setFiber x (s.fibers x) = s.fibers :=
  Function.update_eq_self x s.fibers

theorem inv_procStep {s' : Scheduler m k} (h : s.Inv) (hst : s.procStep i = some s') : s'.Inv := by
  obtain ⟨p, fibers, hnext, hwrite, rfl⟩ := procStep_spec hst
  have hup : s.m_state ≠ .stop → isUp p.pc = true → p.m_state = .running :=
    fun hn => next_up hnext (h.up hn i)
  cases hp : (s.m_processers i).pc with
  | check x =>
    rw [hp] at hnext hwrite
    simp only [Processer.next, hp, Option.some.injEq] at hnext
    cases hwrite
    rw [← setFiber_self x]
    cases hs : s.isStopping with
    | true =>
      rw [hs] at hnext
      exact inv_drop h hup hp hnext.symm
    | false =>
      rw [hs] at hnext
      exact inv_check h hup (of_decide_eq_false hs) hp hnext.symm
  | resume x =>
    rw [hp] at hnext hwrite
    simp only [Processer.next, hp, Option.some.injEq] at hnext
    cases hwrite
    exact inv_resume h hup hp hnext.symm
  | bind x =>
    rw [hp] at hnext hwrite
    simp only [Processer.next, hp, Option.some.injEq] at hnext
    cases hwrite
    exact inv_bind h hup hp hnext.symm
  | swapIn x =>
    rw [hp] at hnext hwrite
    simp only [Processer.next, hp, Option.some.injEq] at hnext
    cases hwrite
    exact inv_swapIn h hup hp hnext.symm
  | inFiber x =>
    rw [hp] at hnext hwrite
    simp only [Processer.next, hp, Option.some.injEq] at hnext
    simp only [fiberWrite] at hwrite
    split at hwrite
    · rename_i hy
      cases hwrite
      exact inv_swapOut h hup hp hnext.symm (.inl ⟨hy, rfl⟩)
    · rename_i hy
      cases hwrite
      exact inv_swapOut h hup hp hnext.symm (.inr ⟨hy, rfl⟩)
    · cases hwrite
  | switch x =>
    rw [hp] at hnext hwrite
    simp only [Processer.next, hp, Option.some.injEq] at hnext
    cases hwrite
    rw [← setFiber_self x]
    exact inv_switch h hup hp hnext.symm
  | _ =>
    rw [hp] at hwrite
    cases hwrite
    obtain ⟨hspot, htok⟩ := next_tok hnext (by rw [hp]; exact fun x => ⟨nofun, nofun, nofun, nofun,
      nofun, nofun⟩)
    exact h.setProc hspot htok hup

end Procs

/-! ## Fibers -/

section Fibers
variable {s s' : Scheduler m k} {i : Fin m} {c : Fin k}

theorem life_setFiber (s : Scheduler m k) (x : Nat) (f : Fiber m) (fb : Nat) :
    life { s with fibers := s.setFiber x f } fb =
      { s.life fb with fiber := if fb = x then f else s.fibers fb } := by
  unfold life setFiber
  simp only [Function.update_apply]

/-- The fiber that a processer runs goes on. -/
theorem inv_fiberStep (h : s.Inv) {step : Fiber m → Option (Fiber m)}
    (hstep : ∀ f f', f.pc = .run → f.Ok → step f = some f' → f'.Ok ∧ f'.pc.inside = true ∧
      f'.m_proc = f.m_proc ∧ (f.wait = .answered → f'.wait = .answered))
    (hst : s.fiberStep i step = some s') : s'.Inv := by
  obtain ⟨x, f, hp, hrun, hf, rfl⟩ := fiberStep_spec hst
  obtain ⟨hok, hin, hproc, hwait⟩ := hstep _ f hrun (h.life x).fiber hf
  refine ⟨fun fb => ?_, h.up, h.stop⟩
  rw [life_setFiber]
  by_cases hfb : fb = x
  · subst hfb
    rw [if_pos rfl]
    have hspot := (life_spot_eq hp fb).trans (if_pos rfl)
    exact (h.life fb).run (i := i) hspot hok hin hproc hwait
  · rw [if_neg hfb]
    exact h.life fb

/-- A thread calls `addFiber` for the fiber `x`. -/
theorem inv_issue (h : s.Inv) (hc : s.callers c = .idle) (x : Nat) {f : Fiber m}
    (hx : (s.life x).view c = .away → Life.Ok (s.m_state = .stop)
      { s.life x with view := Function.update (s.life x).view c .read, fiber := f }) :
    Inv { s with fibers := s.setFiber x f, callers := s.setCaller c (.read x) } := by
  refine ⟨fun fb => ?_, h.up, h.stop⟩
  have hlife : life { s with fibers := s.setFiber x f, callers := s.setCaller c (.read x) } fb =
      { s.life fb with
        view := Function.update (s.life fb).view c (if x = fb then .read else .away)
        fiber := if fb = x then f else s.fibers fb } := by
    have hl := life_setCaller { s with fibers := s.setFiber x f } c (.read x) s.id fb
    rw [life_setFiber] at hl
    exact hl
  rw [hlife]
  have haway : ∀ fb, (s.life fb).view c = .away := by
    intro fb
    change viewOf (s.callers c) fb = _
    rw [hc]
    rfl
  by_cases hfb : fb = x
  · subst hfb
    rw [if_pos rfl, if_pos rfl]
    exact hx (haway fb)
  · rw [if_neg hfb, if_neg (Ne.symm hfb), ← haway fb, Function.update_eq_self]
    exact h.life fb

end Fibers

/-! ## Runs -/

theorem inv_stopStep {s s' : Scheduler m k} (h : s.Inv) (hst : s.stopStep = some s') : s'.Inv := by
  unfold stopStep at hst
  cases hs : s.stop with
  | idle =>
    simp only [hs] at hst
    split at hst
    · cases hst
    · cases hst
      exact ⟨fun fb => (h.life fb).stop rfl, fun hn => absurd rfl hn, fun _ => rfl⟩
  | set i =>
    have hstop : s.m_state = .stop := h.stop (by rw [hs]; nofun)
    simp only [hs] at hst
    split at hst
    · cases hst
      rename_i hi
      have h' := h.setProc (i := ⟨i, hi⟩) (p := { s.m_processers ⟨i, hi⟩ with m_state := .stop })
        (fun _ => rfl) (fun _ => rfl) fun hn => absurd hstop hn
      exact ⟨h'.life, h'.up, fun _ => hstop⟩
    · cases hst
      exact ⟨h.life, h.up, fun _ => hstop⟩
  | notify i =>
    have hstop : s.m_state = .stop := h.stop (by rw [hs]; nofun)
    simp only [hs] at hst
    split at hst
    · obtain ⟨p, hp, rfl⟩ := Option.map_eq_some_iff.mp hst
      obtain ⟨hspot, -, -, htok⟩ := notify_tok hp
      have h' := h.setProc hspot htok fun hn => absurd hstop hn
      exact ⟨h'.life, h'.up, fun _ => hstop⟩
    · cases hst
  | join =>
    simp only [hs] at hst
    cases hst

theorem inv_step {s s' : Scheduler m k} {a : Act m k} (h : s.Inv) (hst : s.step a = some s') :
    s'.Inv := by
  cases a with
  | createFiber c fb =>
    simp only [step, Option.ite_none_right_eq_some, Option.some.injEq] at hst
    obtain ⟨⟨hc, hpc⟩, rfl⟩ := hst
    exact inv_issue h hc fb fun haway => (h.life fb).create haway hpc
  | addFiber c fb =>
    simp only [step, Option.ite_none_right_eq_some, Option.some.injEq] at hst
    obtain ⟨⟨hc, hw⟩, rfl⟩ := hst
    exact inv_issue h hc fb fun haway => (h.life fb).answer haway hw
  | call c => exact inv_callStep h hst
  | proc i => exact inv_procStep h hst
  | register i | withdraw i =>
    unfold step at hst
    refine inv_fiberStep h (fun f f' hrun hok hf => ?_) hst
    simp only [Option.ite_none_right_eq_some, Option.some.injEq] at hf
    obtain ⟨hw, rfl⟩ := hf
    refine ⟨hok.of_run hrun hrun rfl, by rw [hrun]; rfl, rfl, fun ha => ?_⟩
    rw [hw] at ha
    cases ha
  | yield i =>
    unfold step at hst
    refine inv_fiberStep h (fun f f' hrun hok hf => ?_) hst
    simp only [Option.some.injEq] at hf
    subst hf
    exact ⟨f.ok_yielding, rfl, rfl, fun ha => ha⟩
  | finish i =>
    unfold step at hst
    refine inv_fiberStep h (fun f f' hrun hok hf => ?_) hst
    simp only [Option.ite_none_right_eq_some, Option.some.injEq] at hf
    obtain ⟨hw, rfl⟩ := hf
    exact ⟨Fiber.ok_ending hw, rfl, rfl, fun ha => ha⟩
  | stop => exact inv_stopStep h hst

/-- Where a fiber runs. -/
structure FiberLaw (s : Scheduler m k) : Prop where
  -- between `SwapIn` and its return on at most one processer
  one : ∀ i j fb, (s.m_processers i).pc = .inFiber fb → (s.m_processers j).pc = .inFiber fb → i = j
  -- about to swap in: its last `SwapOut` is complete
  out : ∀ i fb, (s.m_processers i).pc = .swapIn fb →
    (s.fibers fb).pc = .out ∧ ∀ j, (s.m_processers j).pc ≠ .inFiber fb
  -- not done, neither before its state is written nor when it is swapped in
  alive : ∀ i fb, (s.m_processers i).pc = .resume fb ∨ (s.m_processers i).pc = .bind fb ∨
    (s.m_processers i).pc = .swapIn fb →
    (s.fibers fb).m_state ≠ .done ∧ (s.fibers fb).pc ≠ .ended

theorem Inv.law {s : Scheduler m k} (h : s.Inv) : FiberLaw s where
  one i j fb hi hj := by
    have hat : ∀ i, (s.m_processers i).pc = .inFiber fb → (s.fibers fb).m_proc = some i := by
      intro i hi
      refine (h.life fb).affinity i ?_
      rw [life_spot_eq hi fb]
      simp only [spotOf, if_true]
      rfl
    have he := hat i hi
    rw [hat j hj] at he
    exact (Option.some.inj he).symm
  out i fb hi := by
    have hheld : ((s.life fb).spot i).held = true := by
      rw [life_spot_eq hi fb]
      simp only [spotOf, if_true]
      rfl
    refine ⟨(h.life fb).out_of_held hheld, fun j hj => ?_⟩
    have hoff := ((h.life fb).held i hheld).2 j
    rw [life_spot_eq hj fb] at hoff
    simp only [spotOf, if_true] at hoff
    cases hoff
  alive i fb hi := by
    have hheld : ((s.life fb).spot i).held = true := by
      rcases hi with hi | hi | hi <;> rw [life_spot_eq hi fb] <;> simp only [spotOf, if_true] <;> rfl
    obtain ⟨hdone, -, -, hended⟩ := (h.life fb).alive_of_tok ((h.life fb).held i hheld).1
    exact ⟨hdone, hended⟩

/-- In every interleaving of the processers, the threads that add fibers, the
fibers and the destructor. -/
theorem fiber_law (s : Scheduler m k) (hr : (lts m k).Reachable s) : FiberLaw s := by
  have hind : (lts m k).Inductive Inv := by
    refine ⟨?_, fun s a s' h hst => inv_step h hst⟩
    intro s hs
    rw [hs]
    exact inv_started
  exact (hind.reachable s hr).law

/-- A fiber whose wait is answered before it yields is taken again by its processer. -/
theorem fiber_law_early : ∃ s, (lts 2 1).Reachable s ∧
    ((s.m_processers 0).pc = .swapIn 5 ∧ (s.fibers 5).m_proc = some 0 ∧
      (s.fibers 5).pc = .out) ∧ FiberLaw s := by
  have hrun : (LTS.exec step (started : Scheduler 2 1) (List.flatten
      [[.createFiber 0 5], .replicate 13 (.call 0), .replicate 13 (.proc 0),
        [.register 0, .addFiber 0 5], .replicate 7 (.call 0), [.yield 0],
        .replicate 13 (.proc 0)])).any
      (fun s => decide ((s.m_processers 0).pc = .swapIn 5 ∧ (s.fibers 5).m_proc = some 0 ∧
        (s.fibers 5).pc = .out)) = true := by decide +kernel
  obtain ⟨s, hs, hb⟩ : ∃ s, (lts 2 1).Reachable s ∧ decide ((s.m_processers 0).pc = .swapIn 5 ∧
      (s.fibers 5).m_proc = some 0 ∧ (s.fibers 5).pc = .out) = true :=
    LTS.exists_of_exec _ rfl hrun
  exact ⟨s, hs, of_decide_eq_true hb, fiber_law s hs⟩

end Ppcode.Scheduler
