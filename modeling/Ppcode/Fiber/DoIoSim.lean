import Ppcode.Fiber.DoIo
import Ppcode.Fiber.IoAfterClose

/-!
# A fiber's `do_io` in the system

In `Ppcode.Hook` a `do_io` runs among other fibers, which use the tables, close its
number and fire its callback. What they can do to it is what the labels of
`Ppcode.DoIo` allow.

* `io_enters`: a hooked call enters `do_io` as `DoIo.enter` says.
* `step_sim`: a step of the system is a step of that `DoIo`, or leaves it alone.
* `run_sim`: along a run of the system the fiber is in a state of a run of `DoIo`,
  until it returns what that returns. `run_law` has what follows for the fiber.
-/
namespace Ppcode.Hook
variable {n : Nat}

/-- The number; one stands for all the others. -/
def IoErrno.value : IoErrno → Int
  | EINTR => Ppcode.EINTR
  | EAGAIN => Ppcode.EAGAIN
  | EINPROGRESS => 115
  | EBADF => Ppcode.EBADF
  | ETIMEDOUT => Ppcode.ETIMEDOUT
  | other => 5

@[simp] theorem IoErrno.value_eq_eintr {e : IoErrno} : e.value = Ppcode.EINTR ↔ e = .EINTR := by
  cases e <;> decide

@[simp] theorem IoErrno.value_eq_eagain {e : IoErrno} : e.value = Ppcode.EAGAIN ↔ e = .EAGAIN := by
  cases e <;> decide

/-- The control point of `do_io` that is the fiber's. -/
inductive Spot : Pc n → IoCall → DoIo.Pc → Prop
  | call (c : IoCall) : Spot (.call c) c .call
  | addEvent (c : IoCall) : Spot (.wait c) c .addEvent
  | suspended (c : IoCall) (mark : Nat) : Spot (.suspended c mark) c .suspended

theorem Spot.inLoop {pc : Pc n} {c : IoCall} {d : DoIo.Pc} (h : Spot pc c d)
    (hkind : c.kind ≠ .connect) : pc.inLoop = true := by
  cases h <;> simp [Pc.inLoop, hkind]

theorem Spot.inside {pc : Pc n} {c : IoCall} {d : DoIo.Pc} (h : Spot pc c d) :
    d ≠ .direct ∧ ∀ ret waited, d ≠ .done ret waited := by
  cases h <;> exact ⟨nofun, nofun⟩

/-- The fiber that takes a step. -/
def Act.fiber : Act n → Option (Fin n)
  | .socket t .. | .register t | .io t .. | .call t _ | .addEvent t _ | .resume t | .getsockopt t
  | .timeout t _ | .close t .. | .cancelAll t .. | .del t | .close_f t => some t
  | .openOther .. | .pollerAddEvent .. | .dispatch .. | .setsockopt .. | .fcntl .. | .enter
  | .leave => none

namespace Sys
variable {s s' : Sys n} {t u : Fin n} {c : IoCall} {d : DoIo}

/-- The fiber is in the `do_io` that `d` has. -/
structure InDoIo (s : Sys n) (t : Fin n) (c : IoCall) (d : DoIo) : Prop where
  kind : c.kind ≠ .connect
  spot : Spot (s.pc t) c d.pc
  errno : d.errno = (s.errno t).value
  timed : d.timed = c.timed
  armed : d.armed = c.armed
  canclelled : d.canclelled = c.canclelled

/-- `do_io` has just returned. -/
def HasReturned (s : Sys n) (t : Fin n) (d : DoIo) : Prop :=
  ∃ ret waited fd late, d.pc = .done ret waited ∧ s.log.getLast? = some (.returned t fd late ret)

/-! ## Steps of others -/

/-- The fiber is where it was. -/
structure Still (u : Fin n) (s s' : Sys n) : Prop where
  pc : s'.pc u = s.pc u
  errno : s'.errno u = s.errno u

theorem Still.refl (u : Fin n) (s : Sys n) : Still u s s := ⟨rfl, rfl⟩

theorem Still.setPc {pc : Pc n} (h : Still u s s') (hu : t ≠ u) : Still u s (s'.setPc t pc) where
  pc := by rw [setPc_pc, if_neg (Ne.symm hu), h.pc]
  errno := h.errno

theorem Still.setErrno {errno : IoErrno} (h : Still u s s') (hu : t ≠ u) :
    Still u s (s'.setErrno t errno) :=
  ⟨h.pc, (Function.update_of_ne (Ne.symm hu) ..).trans h.errno⟩

theorem Still.ioReturn {ret : Int} (h : Still u s s') (hu : t ≠ u) :
    Still u s (s'.ioReturn t c ret) := by
  have hforget : Still u s ((s'.push (.returned t c.fd (s'.late t) ret)).forget t) := ⟨h.pc, h.errno⟩
  exact hforget.setPc hu

/-- Only the outcome of its own calls becomes the fiber's `errno`. -/
theorem kernelCall_errno {o : Outcome} (hs : s.kernelCall t c o = some s') :
    s'.errno = if o.ret = -1 then Function.update s.errno t o.errno else s.errno := by
  have herrno : ((s.push (.called t c.fd (s.late t))).withOutcome t o).errno =
      if o.ret = -1 then Function.update s.errno t o.errno else s.errno := by
    unfold withOutcome
    split <;> rfl
  rcases kernelCall_cases hs with ⟨-, -, hopen⟩ | ⟨-, rfl⟩
  · obtain ⟨-, rfl⟩ := openFile_eq hopen
    exact herrno
  · exact herrno

theorem Still.kernelCall {o : Outcome} (hu : t ≠ u) (hs : s.kernelCall t c o = some s') :
    Still u s s' := by
  refine ⟨by rw [(kernelCall_frame hs).1], ?_⟩
  rw [kernelCall_errno hs]
  split
  · exact Function.update_of_ne (Ne.symm hu) ..
  · rfl

theorem Still.pollerAddEvent {fd : Nat} {event : Event} {cb : Cb n} {fault : Bool} {rt : CtlResult}
    (hs : s.pollerAddEvent fd event cb fault = some (s', rt)) : Still u s s' := by
  obtain ⟨p, entries, rfl, -⟩ := pollerAddEvent_cases hs
  exact ⟨rfl, rfl⟩

/-- A fiber stays where it is until it takes a step. -/
theorem Still.step {a : Act n} (hst : s.step a = some s') (hu : a.fiber ≠ some u) :
    Still u s s' := by
  have hne {t : Fin n} (ht : (some t : Option (Fin n)) ≠ some u) : t ≠ u := fun he => ht (by rw [he])
  cases a with
  | socket t hooked fd file =>
    obtain ⟨-, -, s₁, hopen, hcase⟩ := socket_cases hst
    obtain ⟨-, rfl⟩ := openFile_eq hopen
    rcases hcase with ⟨-, rfl⟩ | ⟨-, rfl⟩
    · exact Still.setPc ⟨rfl, rfl⟩ (hne hu)
    · exact ⟨rfl, rfl⟩
  | register t =>
    obtain ⟨fd, fm, l, r, -, -, rfl⟩ := register_cases hst
    exact Still.setPc ⟨rfl, rfl⟩ (hne hu)
  | openOther fd file =>
    obtain ⟨-, rfl⟩ := openFile_eq hst
    exact ⟨rfl, rfl⟩
  | io t hooked kind fd timed =>
    obtain ⟨-, c, -, -, hcase⟩ := io_cases hst
    rcases hcase with ⟨-, rfl⟩ | ⟨-, s₁, r, hget, hcase⟩
    · exact .setPc (.refl u s) (hne hu)
    · obtain ⟨fm, l, -, rfl⟩ := get_eq hget
      rcases hcase with rfl | rfl | rfl
      · exact Still.ioReturn (Still.setErrno ⟨rfl, rfl⟩ (hne hu)) (hne hu)
      · exact Still.setPc ⟨rfl, rfl⟩ (hne hu)
      · exact Still.setPc ⟨rfl, rfl⟩ (hne hu)
  | call t o =>
    obtain ⟨c, s₁, hk, hcase⟩ := call_cases hst
    have h₁ : Still u s s₁ := .kernelCall (hne hu) hk
    rcases hcase with ⟨-, rfl⟩ | ⟨-, rfl | ⟨pc, -, -, rfl⟩⟩
    · exact h₁.ioReturn (hne hu)
    · exact h₁.ioReturn (hne hu)
    · exact h₁.setPc (hne hu)
  | addEvent t fault =>
    obtain ⟨c, s₁, rt, -, hadd, hcase⟩ := addEvent_cases hst
    have h₁ : Still u s s₁ := .pollerAddEvent hadd
    rcases hcase with rfl | ⟨-, rfl⟩ | rfl
    · exact Still.setPc ⟨h₁.pc, h₁.errno⟩ (hne hu)
    · exact h₁.setPc (hne hu)
    · exact h₁.ioReturn (hne hu)
  | resume t =>
    obtain ⟨c, mark, -, hcase⟩ := resume_cases hst
    rcases hcase with ⟨-, rfl⟩ | ⟨-, -, rfl⟩ | ⟨-, -, rfl⟩
    · exact .setPc (.refl u s) (hne hu)
    · exact ((Still.refl u s).setErrno (hne hu)).ioReturn (hne hu)
    · exact .setPc (.refl u s) (hne hu)
  | getsockopt t =>
    obtain ⟨c, -, rfl⟩ := getsockopt_cases hst
    exact .setPc (.refl u s) (hne hu)
  | timeout t fault =>
    obtain ⟨c, p, k, ok, pc, -, -, rfl⟩ := timeout_cases hst
    exact Still.setPc ⟨rfl, rfl⟩ (hne hu)
  | pollerAddEvent fd event k fault =>
    obtain ⟨⟨s₁, rt⟩, hadd, rfl⟩ := Option.map_eq_some_iff.mp hst
    exact .pollerAddEvent hadd
  | dispatch fd events fault =>
    obtain ⟨⟨p, k⟩, -, hst⟩ := Option.bind_eq_some_iff.mp hst
    cases hst
    exact ⟨rfl, rfl⟩
  | setsockopt hooked fd type v =>
    rcases setsockopt_cases hst with ⟨-, rfl⟩ | ⟨-, fm, l, r, -, ⟨-, rfl⟩ | ⟨ctx, -, rfl⟩⟩
    · exact ⟨rfl, rfl⟩
    · exact ⟨rfl, rfl⟩
    · exact ⟨rfl, rfl⟩
  | fcntl fd cmd ok =>
    obtain ⟨fm, l, flags, -, rfl⟩ := fcntl_cases hst
    exact ⟨rfl, rfl⟩
  | close t hooked fd =>
    rcases close_cases hst with ⟨-, ⟨-, rfl⟩ | ⟨-, fm, l, r, -, rfl⟩⟩
    · exact ⟨rfl, rfl⟩
    · exact Still.setPc ⟨rfl, rfl⟩ (hne hu)
  | cancelAll t sche fault =>
    obtain ⟨fd, saw, mark, -, hcase⟩ := cancelAll_cases hst
    rcases hcase with ⟨-, rfl⟩ | ⟨-, p, k, ok, -, rfl⟩
    · exact .setPc (.refl u s) (hne hu)
    · exact Still.setPc ⟨rfl, rfl⟩ (hne hu)
  | del t =>
    obtain ⟨fd, saw, mark, l, -, rfl⟩ := del_cases hst
    exact Still.setPc ⟨rfl, rfl⟩ (hne hu)
  | close_f t =>
    obtain ⟨fd, saw, mark, -, rfl⟩ := close_f_cases hst
    exact Still.setPc ⟨rfl, rfl⟩ (hne hu)
  | enter =>
    obtain ⟨l, k, rfl⟩ := enter_cases hst
    exact ⟨rfl, rfl⟩
  | leave =>
    obtain ⟨l, k, rfl⟩ := leave_cases hst
    exact ⟨rfl, rfl⟩

theorem InDoIo.still (h : s.InDoIo t c d) (hs : Still t s s') : s'.InDoIo t c d where
  kind := h.kind
  spot := by
    rw [hs.pc]
    exact h.spot
  errno := by rw [hs.errno, h.errno]
  timed := h.timed
  armed := h.armed
  canclelled := h.canclelled

/-! ## The fiber's own steps -/

/-- `DoIo.Meets` for the calls of the fiber. -/
def Meets (t : Fin n) (s : Sys n) : Act n → Prop
  | .call u o => u = t → ¬ (o.ret = -1 ∧ o.errno = .EINTR) ∧ ¬ (o.ret = 1 ∧ s.errno t = .EINTR)
  | _ => True

/-- What the step `a` of the system is for the `do_io`. -/
def Simulates (t : Fin n) (s : Sys n) (a : Act n) (s' : Sys n) (d : DoIo) : Prop :=
  ∃ l d', d.step l = some d' ∧ (s.Meets t a → d.Meets l) ∧
    ((∃ c', s'.InDoIo t c' d') ∨ s'.HasReturned t d')

theorem hasReturned_ioReturn {ret : Int} {waited : Bool} (hpc : d.pc = .done ret waited) :
    (s.ioReturn t c ret).HasReturned t d :=
  ⟨ret, waited, c.fd, s.late t, hpc, List.getLast?_concat⟩

theorem sim_call {o : Outcome} (h : s.InDoIo t c d) (hpc : s.pc t = .call c)
    (hd : d.pc = .call) (hs : s.call t o = some s') : Simulates t s (.call t o) s' d := by
  simp only [Sys.call, hpc] at hs
  obtain ⟨s₁, hk, rfl⟩ := Option.map_eq_some_iff.mp hs
  have herrno : (d.called o.ret o.errno.value).errno = (s₁.errno t).value := by
    rw [kernelCall_errno hk, DoIo.called]
    by_cases hret : o.ret = -1
    · simp [hret]
    · simp [hret, h.errno]
  have hintr := herrno ▸ (IoErrno.value_eq_eintr (e := s₁.errno t))
  have hagain := herrno ▸ (IoErrno.value_eq_eagain (e := s₁.errno t))
  have hmeet : s.Meets t (.call t o) → d.Meets (.call o.ret o.errno.value) := by
    intro hm
    have hm' := hm rfl
    simpa [DoIo.Meets, h.errno] using hm'
  refine ⟨.call o.ret o.errno.value, ?_⟩
  simp only [DoIo.step, hd, hintr, hagain, h.kind, if_false]
  by_cases hone : o.ret = 1 ∧ s₁.errno t = .EINTR
  · rw [if_pos hone, if_pos hone]
    refine ⟨_, rfl, hmeet, .inl ⟨c, h.kind, ?_, herrno, h.timed, h.armed, h.canclelled⟩⟩
    rw [setPc_pc, if_pos rfl]
    exact hd ▸ Spot.call c
  · rw [if_neg hone, if_neg hone]
    by_cases hwait : o.ret = -1 ∧ s₁.errno t = .EAGAIN
    · rw [if_pos hwait, if_pos hwait]
      refine ⟨_, rfl, hmeet, .inl ⟨{ c with armed := c.armed || c.timed }, h.kind, ?_, herrno,
        h.timed, ?_, h.canclelled⟩⟩
      · rw [setPc_pc, if_pos rfl]
        exact .addEvent _
      · simp only [h.armed, h.timed]
    · rw [if_neg hwait, if_neg hwait]
      exact ⟨_, rfl, hmeet, .inr (hasReturned_ioReturn rfl)⟩

theorem sim_addEvent {fault : Bool} (h : s.InDoIo t c d) (hpc : s.pc t = .wait c)
    (hd : d.pc = .addEvent) (hs : s.addEvent t fault = some s') :
    Simulates t s (.addEvent t fault) s' d := by
  simp only [Sys.addEvent, hpc] at hs
  obtain ⟨⟨s₁, rt⟩, hadd, hs⟩ := Option.bind_eq_some_iff.mp hs
  have h₁ : Still t s s₁ := .pollerAddEvent hadd
  simp only [h.kind, if_false] at hs
  split at hs
  · cases hs
    refine ⟨.addEvent none, { d with pc := .suspended }, ?_, fun _ => trivial,
      .inl ⟨c, h.kind, ?_, ?_, h.timed, h.armed, h.canclelled⟩⟩
    · simp [DoIo.step, hd]
    · rw [setPc_pc, if_pos rfl]
      exact .suspended c _
    · exact h.errno.trans (by rw [← h₁.errno]; rfl)
  · cases hs
    refine ⟨.addEvent (some d.errno), { d with pc := .done (-1) true }, ?_, fun _ => trivial,
      .inr (hasReturned_ioReturn rfl)⟩
    simp [DoIo.step, hd]

theorem sim_resume {mark : Nat} (h : s.InDoIo t c d) (hpc : s.pc t = .suspended c mark)
    (hd : d.pc = .suspended) (hs : s.resume t = some s') : Simulates t s (.resume t) s' d := by
  obtain ⟨c', mark', hpc', hcase⟩ := resume_cases hs
  rw [hpc] at hpc'
  cases hpc'
  rcases hcase with ⟨hkind, -⟩ | ⟨-, hcan, rfl⟩ | ⟨-, hcan, rfl⟩
  · exact absurd hkind h.kind
  · refine ⟨.resume 0, { d with errno := Ppcode.ETIMEDOUT, pc := .done (-1) true }, ?_,
      fun _ => trivial, .inr (hasReturned_ioReturn rfl)⟩
    simp [DoIo.step, hd, h.canclelled, hcan]
  · refine ⟨.resume d.errno, { d with pc := .call }, ?_, fun _ => trivial,
      .inl ⟨c, h.kind, ?_, h.errno, h.timed, h.armed, h.canclelled⟩⟩
    · simp [DoIo.step, hd, h.canclelled, hcan]
    · rw [setPc_pc, if_pos rfl]
      exact .call c

/-- The callback of the timer, wherever the fiber is in `do_io`. -/
theorem sim_timer {fault : Bool} (h : s.InDoIo t c d) {pc : IoCall → Pc n}
    (hspot : ∀ c, Spot (pc c) c d.pc) (hs : s.timerCallback t fault c pc = some s') :
    Simulates t s (.timeout t fault) s' d := by
  unfold timerCallback at hs
  split at hs
  · next harmed =>
    obtain ⟨⟨p, k, ok⟩, -, hs⟩ := Option.bind_eq_some_iff.mp hs
    cases hs
    rw [← h.armed, ← h.canclelled] at harmed
    refine ⟨.timer, { d with canclelled := true }, ?_, fun _ => trivial,
      .inl ⟨{ c with canclelled := true }, h.kind, ?_, h.errno, h.timed, h.armed, rfl⟩⟩
    · have hinside := (hspot c).inside
      simp only [DoIo.step]
      split
      · next hd => exact absurd hd hinside.1
      · next hd => exact absurd hd (hinside.2 _ _)
      · rw [if_pos harmed]
    · rw [setPc_pc, if_pos rfl]
      exact hspot _
  · cases hs

/-- A step of the fiber itself: no other steps than those of `do_io` are open to it. -/
theorem own_sim {a : Act n} (h : s.InDoIo t c d) (ha : a.fiber = some t)
    (hst : s.step a = some s') : Simulates t s a s' d := by
  have hloop : (s.pc t).inLoop = true := h.spot.inLoop h.kind
  have hspot := h.spot
  generalize hp : s.pc t = pc at hspot hloop
  generalize hd : d.pc = dpc at hspot
  cases a with
  | call u o =>
    cases ha
    cases hspot with
    | call => exact sim_call h hp hd hst
    | addEvent | suspended => simp [Sys.step, Sys.call, hp] at hst
  | addEvent u fault =>
    cases ha
    cases hspot with
    | addEvent => exact sim_addEvent h hp hd hst
    | call | suspended => simp [Sys.step, Sys.addEvent, hp] at hst
  | resume u =>
    cases ha
    cases hspot with
    | suspended => exact sim_resume h hp hd hst
    | call | addEvent => simp [Sys.step, Sys.resume, hp] at hst
  | timeout u fault =>
    cases ha
    cases hspot with
    | call | addEvent | suspended =>
      simp only [Sys.step, Sys.timeout, hp] at hst
      refine sim_timer h (fun c => ?_) hst
      rw [hd]
      constructor
  | socket u hooked fd file =>
    cases ha
    have hidle := (socket_cases hst).1
    rw [← hp, hidle] at hloop
    cases hloop
  | register u =>
    cases ha
    obtain ⟨fd, fm, l, r, hpc, -⟩ := register_cases hst
    rw [← hp, hpc] at hloop
    cases hloop
  | io u hooked kind fd timed =>
    cases ha
    have hidle := (io_cases hst).1
    rw [← hp, hidle] at hloop
    cases hloop
  | getsockopt u =>
    cases ha
    obtain ⟨c', hpc, -⟩ := getsockopt_cases hst
    rw [← hp, hpc] at hloop
    cases hloop
  | close u hooked fd =>
    cases ha
    have hidle := (close_cases hst).1
    rw [← hp, hidle] at hloop
    cases hloop
  | cancelAll u sche fault =>
    cases ha
    obtain ⟨fd, saw, mark, hpc, -⟩ := cancelAll_cases hst
    rw [← hp, hpc] at hloop
    cases hloop
  | del u =>
    cases ha
    obtain ⟨fd, saw, mark, l, hpc, -⟩ := del_cases hst
    rw [← hp, hpc] at hloop
    cases hloop
  | close_f u =>
    cases ha
    obtain ⟨fd, saw, mark, hpc, -⟩ := close_f_cases hst
    rw [← hp, hpc] at hloop
    cases hloop
  | openOther | pollerAddEvent | dispatch | setsockopt | fcntl | enter | leave => cases ha

/-- A step of the system is a step of the fiber's `do_io`, or leaves it alone. -/
theorem step_sim {a : Act n} (h : s.InDoIo t c d) (hst : s.step a = some s') :
    s'.InDoIo t c d ∨ Simulates t s a s' d := by
  by_cases ha : a.fiber = some t
  · exact .inr (own_sim h ha hst)
  · exact .inl (h.still (.step hst ha))

/-! ## Runs -/

/-- A hooked call other than `connect` enters `do_io`, passes on to the kernel, or returns. -/
theorem io_enters {kind : IoKind} {fd : Nat} {timed : Bool} (hkind : kind ≠ .connect)
    (hs : s.io t true kind fd timed = some s') :
    ∃ s₁ fd_ctx, s.get fd = some (s₁, fd_ctx) ∧
      let d := DoIo.enter true fd_ctx kind.timeoutType (s.errno t).value
      (d.pc = .direct ∧ ∃ c, s'.pc t = .direct c) ∨
        s'.HasReturned t d ∨ ∃ c, s'.InDoIo t c d := by
  unfold Sys.io at hs
  split at hs
  · cases hs
  · obtain ⟨⟨s₁, fd_ctx⟩, hget, hs⟩ := Option.bind_eq_some_iff.mp hs
    refine ⟨s₁, fd_ctx, hget, ?_⟩
    obtain ⟨fm, l, -, rfl⟩ := get_eq hget
    cases fd_ctx with
    | none =>
      simp only at hs
      cases hs
      exact .inl ⟨rfl, _, by rw [setPc_pc, if_pos rfl]⟩
    | some ctx =>
      simp only at hs
      by_cases hclosed : ctx.m_isClosed = true
      · rw [if_pos hclosed] at hs
        cases hs
        refine .inr (.inl ?_)
        simp only [DoIo.enter, hclosed, if_true]
        exact hasReturned_ioReturn rfl
      · rw [if_neg hclosed] at hs
        by_cases hdirect : (!ctx.m_isSocket || ctx.m_userNonblock) = true
        · rw [if_pos hdirect] at hs
          cases hs
          refine .inl ⟨?_, _, by rw [setPc_pc, if_pos rfl]⟩
          simp [DoIo.enter, hclosed, hdirect]
        · rw [if_neg hdirect] at hs
          cases hs
          have hmanaged : ctx.ManagedBlocking := by simpa [FdCtx.ManagedBlocking, hclosed] using hdirect
          refine .inr (.inr ⟨⟨kind, fd, ctx.getTimeout kind.timeoutType != -1, false, false⟩, ?_⟩)
          rw [DoIo.enter_managed hmanaged]
          refine ⟨hkind, ?_, rfl, rfl, rfl, rfl⟩
          rw [setPc_pc, if_pos rfl]
          exact .call _

/-- Along a run of the system the fiber is where a run of its `do_io` leads, until it returns what
that returns. -/
theorem run_sim {acts : List (Act n)} (h : s.InDoIo t c d) (hrun : LTS.exec step s acts = some s') :
    ∃ run d', LTS.exec DoIo.step d run = some d' ∧
      (LTS.StepsMeet step (Meets t) s acts → LTS.StepsMeet DoIo.step DoIo.Meets d run) ∧
      ((∃ c', s'.InDoIo t c' d') ∨
        ∃ before after s₁, acts = before ++ after ∧ LTS.exec step s before = some s₁ ∧
          s₁.HasReturned t d') := by
  induction acts generalizing s c d with
  | nil =>
    cases hrun
    exact ⟨[], d, rfl, fun _ => trivial, .inl ⟨c, h⟩⟩
  | cons a acts ih =>
    obtain ⟨s₁, hst, hrest⟩ := Option.bind_eq_some_iff.mp hrun
    -- the run up to the return begins with this step
    have hcons {d' : DoIo} (hret : ∃ before after s₂, acts = before ++ after ∧
        LTS.exec step s₁ before = some s₂ ∧ s₂.HasReturned t d') :
        ∃ before after s₂, a :: acts = before ++ after ∧ LTS.exec step s before = some s₂ ∧
          s₂.HasReturned t d' := by
      obtain ⟨before, after, s₂, rfl, hbefore, hret⟩ := hret
      exact ⟨a :: before, after, s₂, rfl, Option.bind_eq_some_iff.mpr ⟨s₁, hst, hbefore⟩, hret⟩
    rcases step_sim h hst with hin | ⟨l, d₁, hl, hmeet, ⟨c', hin⟩ | hret⟩
    · obtain ⟨run, d', hexec, hmeets, hcase⟩ := ih hin hrest
      exact ⟨run, d', hexec, fun hm => hmeets (hm s₁ hst).2, hcase.imp_right hcons⟩
    · obtain ⟨run, d', hexec, hmeets, hcase⟩ := ih hin hrest
      refine ⟨l :: run, d', Option.bind_eq_some_iff.mpr ⟨d₁, hl, hexec⟩, ?_, hcase.imp_right hcons⟩
      intro hm d₂ hd₂
      rw [hl] at hd₂
      cases hd₂
      exact ⟨hmeet (hm s₁ hst).1, hmeets (hm s₁ hst).2⟩
    · refine ⟨[l], d₁, Option.bind_eq_some_iff.mpr ⟨d₁, hl, rfl⟩, ?_, .inr ?_⟩
      · intro hm _ _
        exact ⟨hmeet (hm s₁ hst).1, trivial⟩
      · exact ⟨[a], acts, s₁, rfl, Option.bind_eq_some_iff.mpr ⟨s₁, hst, rfl⟩, hret⟩

/-- In a system whose other fibers may do anything: the `do_io` of a fiber loses no transfer if no
call of it is interrupted and none returns 1 while `errno` is `EINTR`. -/
theorem run_law {acts : List (Act n)} (h : s.InDoIo t c d) (hi : d.Inv) (hl : d.Law)
    (hmeet : LTS.StepsMeet step (Meets t) s acts) (hrun : LTS.exec step s acts = some s') :
    ∃ d' : DoIo, d'.Law ∧ ((∃ c', s'.InDoIo t c' d') ∨
      ∃ before after s₁, acts = before ++ after ∧ LTS.exec step s before = some s₁ ∧
        s₁.HasReturned t d') := by
  obtain ⟨run, d', hexec, hmeets, hcase⟩ := run_sim h hrun
  exact ⟨d', ((DoIo.along_law hi hl).mpr (hmeets hmeet)).last hexec, hcase⟩

end Sys
end Ppcode.Hook
