import Ppcode.Fiber.FiberLife

/-!
# The scheduler as one fiber sees it

`life fb` is what the scheduler looks like from the fiber `fb`. `Inv` says that
`Life.Ok` holds of every fiber. What this needs from the processers is that one
that runs a fiber is in `TaskState::running` unless the scheduler is stopping
(`isUp`): only then does an answer that comes before the yield go to the processer
that runs the fiber.

Here are the steps of the calls of `addFiber` (`inv_callStep`): each is, for each
fiber, one of the events of `Life` or nothing.
-/
namespace Ppcode.Scheduler
open Processer (ProcPc AddPc)
variable {m k : Nat}

/-! ## The view of one fiber -/

def spotOf (pc : ProcPc Nat) (fb : Nat) : Spot :=
  match pc with
  | .resume x | .bind x => if x = fb then .hand else .away
  | .swapIn x => if x = fb then .bound else .away
  | .inFiber x => if x = fb then .inFiber else .away
  | .switch x => if x = fb then .switch else .away
  | _ => .away

/-- The entry that is neither in `newQueue` nor in `runableQueue`. -/
def inHand (pc : ProcPc Nat) (fb : Nat) : Nat :=
  match pc with
  | .check x | .resume x | .bind x | .swapIn x => if x = fb then 1 else 0
  | _ => 0

def tokOf (p : Processer Nat) (fb : Nat) : Nat :=
  p.newQueue.count fb + p.runableQueue.count fb + inHand p.pc fb

def viewOf (pc : CallPc m) (fb : Nat) : View m :=
  match pc with
  | .read x => if x = fb then .read else .away
  | .test x proc => if x = fb then .test proc else .away
  | .scan x _ | .pick x _ | .robin x _ _ | .skip x _ => if x = fb then .loose else .away
  | .add proc _ (.enter x) | .add proc _ (.push x) => if x = fb then .add proc else .away
  | _ => .away

def life (s : Scheduler m k) (fb : Nat) : Life m k where
  spot i := spotOf (s.m_processers i).pc fb
  tok i := tokOf (s.m_processers i) fb
  view c := viewOf (s.callers c) fb
  fiber := s.fibers fb

theorem map_update {ι α β : Type} [DecidableEq ι] (g : α → β) (f : ι → α) (i : ι) (x : α) :
    (fun j => g (Function.update f i x j)) = Function.update (fun j => g (f j)) i (g x) := by
  funext j
  exact Function.apply_update (fun _ => g) f i x j

/-- Not in `idle` past its publication, and started. -/
def isUp : ProcPc Nat → Bool
  | .start | .again | .wait | .waiting _ | .wake | .exited => false
  | _ => true

structure Inv (s : Scheduler m k) : Prop where
  life : ∀ fb, (s.life fb).Ok (s.m_state = .stop)
  up : s.m_state ≠ .stop → ∀ i, isUp (s.m_processers i).pc = true →
    (s.m_processers i).m_state = .running
  stop : s.stop ≠ .idle → s.m_state = .stop

theorem inv_started : (started : Scheduler m k).Inv where
  life fb := by
    refine Life.ok_of_idle ?_ ⟨fun _ => rfl, fun _ => nofun, nofun⟩ (fun _ => rfl) rfl nofun nofun
      nofun
    rw [Life.tokens_zero (fun _ => rfl) fun _ => rfl]
    exact Nat.zero_le _
  up _ i hi := by cases hi
  stop := by
    intro hc
    exact absurd rfl hc

/-- A processer that runs a fiber is up. -/
theorem up_of_active {pc : ProcPc Nat} {fb : Nat} (h : (spotOf pc fb).active = true) :
    isUp pc = true := by
  cases pc with
  | start | again | wait | waiting | wake | exited => cases h
  | _ => rfl

/-! ## Calls -/

section Calls
variable {s : Scheduler m k} {c : Fin k} {pc : CallPc m}

theorem life_setCaller (s : Scheduler m k) (c : Fin k) (pc : CallPc m) (id fb : Nat) :
    life { s with id := id, callers := s.setCaller c pc } fb =
      { s.life fb with view := Function.update (s.life fb).view c (viewOf pc fb) } := by
  unfold life setCaller
  simp only [map_update fun pc => viewOf pc fb]

/-- A call for the fiber `x` goes on without touching a processer. -/
theorem inv_setCaller (h : s.Inv) (x : Nat) (v : View m)
    (hold : (viewOf (s.callers c) x).tok = 1)
    (hnew : ∀ fb, viewOf pc fb = if x = fb then v else .away)
    (hv : Life.ViewOk (s.m_state = .stop) (s.life x) v) (id : Nat) :
    Inv { s with id := id, callers := s.setCaller c pc } := by
  refine ⟨fun fb => ?_, h.up, h.stop⟩
  rw [life_setCaller, hnew]
  refine (h.life fb).call ?_ ?_
  · split
    · rename_i hx
      subst hx
      change v.tok ≤ (viewOf (s.callers c) x).tok
      rw [hold]
      exact v.tok_le_one
    · exact Nat.zero_le _
  · split
    · rename_i hx
      subst hx
      exact hv
    · trivial

/-- A call that is done with its fiber. -/
theorem inv_endCaller (h : s.Inv) (hnew : ∀ fb, viewOf pc fb = .away) (id : Nat) :
    Inv { s with id := id, callers := s.setCaller c pc } := by
  refine ⟨fun fb => ?_, h.up, h.stop⟩
  rw [life_setCaller, hnew]
  exact (h.life fb).call (Nat.zero_le _) trivial

/-- A fiber that nobody runs is still looking for a processer, -/
theorem inv_loose (h : s.Inv) {x : Nat} (hv : viewOf (s.callers c) x = .loose)
    (hnew : ∀ fb, viewOf pc fb = if x = fb then .loose else .away) (id : Nat) :
    Inv { s with id := id, callers := s.setCaller c pc } := by
  have hok := (h.life x).views c
  rw [show (s.life x).view c = .loose from hv] at hok
  exact inv_setCaller h x .loose (by rw [hv]; rfl) hnew hok id

/-- and any one will do. -/
theorem inv_choose (h : s.Inv) {x : Nat} (hv : viewOf (s.callers c) x = .loose) {proc : Fin m}
    (hnew : ∀ fb, viewOf pc fb = if x = fb then .add proc else .away) :
    Inv { s with callers := s.setCaller c pc } := by
  have hok := (h.life x).views c
  rw [show (s.life x).view c = .loose from hv] at hok
  refine inv_setCaller h x (.add proc) (by rw [hv]; rfl) hnew (fun hn j hj => ?_) s.id
  rw [hok hn j] at hj
  cases hj

/-- The fiber's processer is read, and `isRunning` tested. -/
theorem inv_test (h : s.Inv) {x : Nat} {proc : Fin m} (hc : s.callers c = .test x proc) :
    (Inv { s with callers := s.setCaller c (.add proc false (.enter x)) }) ∧
    ((s.m_processers proc).isRunning = false →
      Inv { s with callers := s.setCaller c (.scan x 0) }) := by
  have hview : viewOf (s.callers c) x = .test proc := by
    rw [hc]
    exact if_pos rfl
  have hproc : (s.fibers x).m_proc = some proc := (h.life x).test_proc c proc hview
  have hat : ∀ j, ((s.life x).spot j).active = true → j = proc := by
    intro j hj
    have he : (s.fibers x).m_proc = some j := (h.life x).affinity j hj
    rw [hproc] at he
    exact (Option.some.inj he).symm
  have htok : (viewOf (s.callers c) x).tok = 1 := by rw [hview]; rfl
  refine ⟨inv_setCaller h x (.add proc) htok (fun _ => rfl) (fun _ => hat) s.id, fun hrun => ?_⟩
  refine inv_setCaller h x .loose htok (fun _ => rfl) (fun hn j => ?_) s.id
  -- whoever runs the fiber is in `TaskState::running`
  rw [Bool.eq_false_iff]
  intro hj
  have hup := h.up hn j (up_of_active hj)
  rw [hat j hj] at hup
  unfold Processer.isRunning at hrun
  rw [hup] at hrun
  cases hrun

theorem life_setProc (s : Scheduler m k) (i : Fin m) (p : Processer Nat) (fb : Nat) :
    life { s with m_processers := s.setProc i p } fb = { s.life fb with
      spot := Function.update (s.life fb).spot i (spotOf p.pc fb)
      tok := Function.update (s.life fb).tok i (tokOf p fb) } := by
  unfold life setProc
  simp only [map_update fun (p : Processer Nat) => spotOf p.pc fb, map_update fun (p : Processer Nat) => tokOf p fb]

theorem notify_tok {p p' : Processer Nat} (h : p.notify = some p') :
    (∀ fb, spotOf p'.pc fb = spotOf p.pc fb) ∧ p'.m_state = p.m_state ∧ isUp p'.pc = isUp p.pc ∧
    ∀ fb, tokOf p' fb = tokOf p fb := by
  obtain ⟨-, he, hpc⟩ := Processer.notify_spec h
  have hstate : p'.m_state = p.m_state := by rw [he]
  have hqueue : p'.newQueue = p.newQueue ∧ p'.runableQueue = p.runableQueue := by
    rw [he]
    exact ⟨rfl, rfl⟩
  unfold tokOf
  rw [hqueue.1, hqueue.2]
  rcases hpc with ⟨-, hpc⟩ | ⟨b, hb, hpc⟩
  · rw [hpc]
    exact ⟨fun _ => rfl, hstate, rfl, fun _ => rfl⟩
  · rw [hpc, hb]
    exact ⟨fun _ => rfl, hstate, rfl, fun _ => rfl⟩

/-- What a step of a call of `Processer::addFiber` does to the entries of a processer. -/
theorem addStep_tok {p p' : Processer Nat} {a a' : AddPc Nat} (h : p.addStep a = some (p', a')) :
    (∀ fb, spotOf p'.pc fb = spotOf p.pc fb) ∧ p'.m_state = p.m_state ∧ isUp p'.pc = isUp p.pc ∧
    ((∃ x, a = .push x ∧ a' = .count ∧ ∀ fb, tokOf p' fb = tokOf p fb + if x = fb then 1 else 0) ∨
      (∀ fb, tokOf p' fb = tokOf p fb) ∧
        ((∃ x, a = .enter x ∧ a' = .push x) ∨ ∀ x, a' ≠ .enter x ∧ a' ≠ .push x)) := by
  cases a with
  | idle => cases h
  | enter x =>
    simp only [Processer.addStep] at h
    split at h
    · cases h
      exact ⟨fun _ => rfl, rfl, rfl, .inr ⟨fun _ => rfl, .inr fun _ => ⟨nofun, nofun⟩⟩⟩
    · cases h
      exact ⟨fun _ => rfl, rfl, rfl, .inr ⟨fun _ => rfl, .inl ⟨x, rfl, rfl⟩⟩⟩
  | push x =>
    simp only [Processer.addStep, Option.ite_none_right_eq_some] at h
    obtain ⟨-, h⟩ := h
    cases h
    refine ⟨fun _ => rfl, rfl, rfl, .inl ⟨x, rfl, rfl, fun fb => ?_⟩⟩
    simp only [tokOf, List.count_append, List.count_singleton, beq_iff_eq]
    omega
  | count | flag | flagNotify =>
    cases h
    exact ⟨fun _ => rfl, rfl, rfl, .inr ⟨fun _ => rfl, .inr fun _ => ⟨nofun, nofun⟩⟩⟩
  | test =>
    cases h
    refine ⟨fun _ => rfl, rfl, rfl, .inr ⟨fun _ => rfl, .inr fun _ => ?_⟩⟩
    split <;> exact ⟨nofun, nofun⟩
  | notify =>
    obtain ⟨q, hq, he⟩ := Option.map_eq_some_iff.mp h
    cases he
    obtain ⟨hspot, hstate, hup, htok⟩ := notify_tok hq
    exact ⟨hspot, hstate, hup, .inr ⟨htok, .inr fun _ => ⟨nofun, nofun⟩⟩⟩

/-- Changes of a processer that leave its entries alone. -/
theorem Inv.setProc (h : s.Inv) {i : Fin m} {p : Processer Nat}
    (hspot : ∀ fb, spotOf p.pc fb = spotOf (s.m_processers i).pc fb)
    (htok : ∀ fb, tokOf p fb = tokOf (s.m_processers i) fb)
    (hup : s.m_state ≠ .stop → isUp p.pc = true → p.m_state = .running) :
    Inv { s with m_processers := s.setProc i p } := by
  refine ⟨fun fb => ?_, fun hn => ?_, h.stop⟩
  · rw [life_setProc, hspot, htok]
    change Life.Ok _ { s.life fb with
      spot := Function.update (s.life fb).spot i ((s.life fb).spot i)
      tok := Function.update (s.life fb).tok i ((s.life fb).tok i) }
    rw [Function.update_eq_self, Function.update_eq_self]
    exact h.life fb
  · exact (Function.forall_update_iff s.m_processers fun _ p =>
      isUp p.pc = true → p.m_state = .running).mpr ⟨hup hn, fun j _ => h.up hn j⟩

/-- The entry is in the queue. -/
theorem inv_push (h : s.Inv) {proc : Fin m} {moves : Bool} {x : Nat} {p : Processer Nat}
    (hc : s.callers c = .add proc moves (.push x))
    (hspot : ∀ fb, spotOf p.pc fb = spotOf (s.m_processers proc).pc fb)
    (htok : ∀ fb, tokOf p fb = tokOf (s.m_processers proc) fb + if x = fb then 1 else 0)
    (hup : s.m_state ≠ .stop → isUp p.pc = true → p.m_state = .running)
    (hnew : ∀ fb, viewOf pc fb = .away) :
    Inv { s with m_processers := s.setProc proc p, callers := s.setCaller c pc } := by
  refine ⟨fun fb => ?_, fun hn => ?_, h.stop⟩
  · have hlife : life { s with m_processers := s.setProc proc p, callers := s.setCaller c pc } fb =
        { s.life fb with
          tok := Function.update (s.life fb).tok proc ((s.life fb).tok proc + if x = fb then 1 else 0)
          view := Function.update (s.life fb).view c .away } := by
      have hsame : Function.update (s.life fb).spot proc (spotOf p.pc fb) = (s.life fb).spot := by
        rw [hspot]
        exact Function.update_eq_self proc (s.life fb).spot
      have hs := life_setCaller { s with m_processers := s.setProc proc p } c pc s.id fb
      rw [life_setProc, hsame, htok, hnew] at hs
      exact hs
    rw [hlife]
    have hview : (s.life fb).view c = if x = fb then .add proc else .away := by
      change viewOf (s.callers c) fb = _
      rw [hc]
      rfl
    by_cases hx : x = fb
    · rw [if_pos hx] at hview ⊢
      exact (h.life fb).push hview
    · rw [if_neg hx] at hview ⊢
      rw [← hview, Nat.add_zero, Function.update_eq_self, Function.update_eq_self]
      exact h.life fb
  · exact (Function.forall_update_iff s.m_processers fun _ p =>
      isUp p.pc = true → p.m_state = .running).mpr ⟨hup hn, fun j _ => h.up hn j⟩

theorem inv_add (h : s.Inv) {proc : Fin m} {moves : Bool} {a a' : AddPc Nat} {p : Processer Nat}
    (hc : s.callers c = .add proc moves a)
    (hst : (s.m_processers proc).addStep a = some (p, a')) :
    Inv { s with
      m_processers := s.setProc proc p
      callers := s.setCaller c
        (if a' = .idle then if moves then .move else .idle else .add proc moves a') } := by
  obtain ⟨hspot, hstate, hisUp, htok⟩ := addStep_tok hst
  have hup : s.m_state ≠ .stop → isUp p.pc = true → p.m_state = .running := by
    intro hn hu
    rw [hstate]
    exact h.up hn proc (hisUp ▸ hu)
  rcases htok with ⟨x, rfl, rfl, htok⟩ | ⟨htok, ⟨x, rfl, rfl⟩ | ha⟩
  · exact inv_push h hc hspot htok hup fun _ => rfl
  · have hview : viewOf (s.callers c) x = .add proc := by
      rw [hc]
      exact if_pos rfl
    have hok := (h.life x).views c
    rw [show (s.life x).view c = .add proc from hview] at hok
    have h' := h.setProc hspot htok hup
    have hok' := (h'.life x).views c
    rw [show (life { s with m_processers := s.setProc proc p } x).view c = .add proc from hview] at hok'
    exact inv_setCaller h' x (.add proc) (by rw [hview]; rfl) (fun _ => rfl) hok' s.id
  · refine inv_endCaller (h.setProc hspot htok hup) (fun fb => ?_) s.id
    split
    · split <;> rfl
    · cases a' with
      | enter x => exact absurd rfl (ha x).1
      | push x => exact absurd rfl (ha x).2
      | _ => rfl

theorem inv_callStep {s' : Scheduler m k} (h : s.Inv) (hst : s.callStep c = some s') : s'.Inv := by
  have hread (x : Nat) (hc : s.callers c = .read x) : (viewOf (s.callers c) x).tok = 1 := by
    rw [hc]
    simp only [viewOf, if_true]
    rfl
  have hloose {pc : CallPc m} {x : Nat} (hc : s.callers c = pc) (hpc : viewOf pc x = .loose) :
      viewOf (s.callers c) x = .loose := by
    rw [hc]
    exact hpc
  cases callStep_spec hst with
  | known x proc hc hproc =>
    exact inv_setCaller h x (.test proc) (hread x hc) (fun _ => rfl) hproc s.id
  | fresh x hc hproc =>
    refine inv_setCaller h x .loose (hread x hc) (fun _ => rfl) (fun _ j => ?_) s.id
    rw [Bool.eq_false_iff]
    intro hj
    have he : (s.fibers x).m_proc = some j := (h.life x).affinity j hj
    rw [hproc] at he
    cases he
  | running x proc hc => exact (inv_test h hc).1
  | notRunning x proc hc hrun => exact (inv_test h hc).2 hrun
  | waits x j _ hc | last x j _ _ hc | robin x i proc hc =>
    exact inv_choose h (hloose hc (if_pos rfl)) fun _ => rfl
  | next x j _ hc | scanned x j _ hc | pick x i _ _ hc | blocked x i proc hc | skip x i hc =>
    exact inv_loose h (hloose hc (if_pos rfl)) (fun _ => rfl) _
  | add proc moves a a' p hc hadd => exact inv_add h hc hadd
  | move hc => exact inv_endCaller h (fun _ => rfl) _

end Calls

end Ppcode.Scheduler
