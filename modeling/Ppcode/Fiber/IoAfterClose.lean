import Ppcode.Fiber.HookedFd

/-!
# A call that sleeps while its number is closed

`do_io` calls `fun` in a loop, and sleeps when that says `EAGAIN`. What it knows of
the number it has read before the loop: nothing tells it afterwards that the number was
closed, or is another socket's by now. The one thing that ends the loop is
`tinfo->canclelled`, which the callback of its own timer sets. So a call that a `close`
has woken returns -1 if its time-out has expired as well (`no_call_after_close`), and calls
`fun` on the number otherwise (`call_after_close`, `reads_another`).
-/
namespace Ppcode.Hook
variable {n : Nat}

/-- `do_io` makes no call on a number that was closed in its sleep, and returns -1. -/
def Obs.Kept : Obs n → Prop
  | .called _ _ late => late = false
  | .returned _ _ late ret => late = true → ret = -1
  | .closed .. | .opened .. | .added .. => True

theorem Pc.inLoop_of_sleepsOn {pc : Pc n} {fd : Nat} (h : pc.sleepsOn fd = true) :
    pc.inLoop = true := by
  cases pc with
  | suspended c mark => exact (Bool.and_eq_true_iff.mp h).1
  | _ => cases h

namespace Sys
variable {s s' : Sys n} {fd : Nat}

/-- Only a `do_io` has slept, and one that is about to call `fun` has not slept during a `close`
that has returned. -/
structure Kept (s : Sys n) : Prop where
  outside : ∀ t, (s.pc t).inLoop = false → s.late t = false ∧ ∀ u, s.under t u = false
  awake : ∀ t, (s.pc t).awake = true → s.late t = false
  log : ∀ o ∈ s.log, o.Kept

/-! ## Records and control points -/

/-- The tables do not matter. -/
theorem Kept.congr (h : s.Kept) (hpc : s'.pc = s.pc) (hunder : s'.under = s.under)
    (hlate : s'.late = s.late) (hlog : s'.log = s.log) : s'.Kept := by
  refine ⟨?_, ?_, ?_⟩
  · rw [hpc, hunder, hlate]
    exact h.outside
  · rw [hpc, hlate]
    exact h.awake
  · rw [hlog]
    exact h.log

theorem Kept.push {o : Obs n} (h : s.Kept) (ho : o.Kept) : (s.push o).Kept where
  outside := h.outside
  awake := h.awake
  log := by
    intro o' ho'
    rcases List.mem_append.mp ho' with ho' | ho'
    · exact h.log o' ho'
    · rw [List.mem_singleton.mp ho']
      exact ho

theorem Kept.setPc {t : Fin n} {pc : Pc n} (h : s.Kept)
    (hout : pc.inLoop = false → s.late t = false ∧ ∀ u, s.under t u = false)
    (hawake : pc.awake = true → s.late t = false) : (s.setPc t pc).Kept where
  outside u hu := by
    rw [setPc_pc] at hu
    split at hu
    · next hut =>
      subst hut
      exact hout hu
    · exact h.outside u hu
  awake u hu := by
    rw [setPc_pc] at hu
    split at hu
    · next hut =>
      subst hut
      exact hawake hu
    · exact h.awake u hu
  log := h.log

/-- A fiber that is not in the loop goes on. -/
theorem Kept.setPc_outside {t : Fin n} {pc : Pc n} (h : s.Kept) (ht : (s.pc t).inLoop = false) :
    (s.setPc t pc).Kept := h.setPc (fun _ => h.outside t ht) fun _ => (h.outside t ht).1

theorem Kept.ioReturn {t : Fin n} {c : IoCall} {ret : Int} (h : s.Kept)
    (hret : s.late t = true → ret = -1) : (s.ioReturn t c ret).Kept := by
  have hpush : (s.push (.returned t c.fd (s.late t) ret)).Kept := h.push hret
  have hforget : ((s.push (.returned t c.fd (s.late t) ret)).forget t).Kept := by
    refine ⟨fun u hu => ?_, fun u hu => ?_, hpush.log⟩
    · by_cases hut : u = t
      · subst hut
        exact ⟨Function.update_self .., fun v => by simp [forget]⟩
      · have hu := h.outside u hu
        exact ⟨(Function.update_of_ne hut ..).trans hu.1, fun v => by simp [forget, hut, hu.2 v, Sys.push]⟩
    · by_cases hut : u = t
      · subst hut
        exact Function.update_self ..
      · exact (Function.update_of_ne hut ..).trans (h.awake u hu)
  have hnone : (((s.push (.returned t c.fd (s.late t) ret)).forget t).late t = false ∧
      ∀ u, ((s.push (.returned t c.fd (s.late t) ret)).forget t).under t u = false) := by
    simp [forget]
  exact hforget.setPc (fun _ => hnone) fun _ => hnone.1

/-! ## Steps -/

theorem Kept.get {r : Option FdCtx} (h : s.Kept) (hs : s.get fd = some (s', r)) :
    s'.Kept ∧ s'.pc = s.pc := by
  obtain ⟨fm, l, -, rfl⟩ := get_eq hs
  exact ⟨h.congr rfl rfl rfl rfl, rfl⟩

theorem Kept.openFile {file : File} (h : s.Kept) (hs : s.openFile fd file = some s') :
    s'.Kept ∧ s'.pc = s.pc ∧ s'.late = s.late := by
  obtain ⟨-, rfl⟩ := openFile_eq hs
  exact ⟨h.congr rfl rfl rfl rfl, rfl, rfl⟩

theorem Kept.pollerAddEvent {event : Event} {cb : Cb n} {fault : Bool} {rt : CtlResult}
    (h : s.Kept) (hs : s.pollerAddEvent fd event cb fault = some (s', rt)) :
    s'.Kept ∧ s'.pc = s.pc := by
  obtain ⟨p, entries, rfl, -⟩ := pollerAddEvent_cases hs
  exact ⟨Kept.push (h.congr rfl rfl rfl rfl) trivial, rfl⟩

theorem Kept.socket {t : Fin n} {hooked : Bool} {file : File} (h : s.Kept)
    (hs : s.socket t hooked fd file = some s') : s'.Kept := by
  obtain ⟨hidle, -, s₁, hopen, hcase⟩ := socket_cases hs
  obtain ⟨h₁, hpc, -⟩ := h.openFile hopen
  rcases hcase with ⟨-, rfl⟩ | ⟨-, rfl⟩
  · exact h₁.setPc_outside (by rw [hpc, hidle]; rfl)
  · exact h₁.push trivial

theorem Kept.register {t : Fin n} (h : s.Kept) (hs : s.register t = some s') : s'.Kept := by
  obtain ⟨fd, fm, l, r, hpc, -, rfl⟩ := register_cases hs
  have h₁ : ({ s with fm := fm, lock := l } : Sys n).Kept := h.congr rfl rfl rfl rfl
  have h₂ : (({ s with fm := fm, lock := l } : Sys n).push (.opened fd true r)).Kept :=
    h₁.push trivial
  refine h₂.setPc_outside ?_
  change (s.pc t).inLoop = false
  rw [hpc]
  rfl

theorem Kept.io {t : Fin n} {hooked timed : Bool} {kind : IoKind} (h : s.Kept)
    (hs : s.io t hooked kind fd timed = some s') : s'.Kept := by
  obtain ⟨hidle, c, -, -, hcase⟩ := io_cases hs
  have hout : (s.pc t).inLoop = false := by
    rw [hidle]
    rfl
  rcases hcase with ⟨-, rfl⟩ | ⟨-, s₁, r, hget, hcase⟩
  · exact h.setPc_outside hout
  · obtain ⟨h₁, hpc⟩ := h.get hget
    rw [← hpc] at hout
    rcases hcase with rfl | rfl | rfl
    · exact Kept.ioReturn (h₁.congr rfl rfl rfl rfl) fun _ => rfl
    · exact h₁.setPc_outside hout
    · exact h₁.setPc_outside hout

theorem withOutcome_frame (s : Sys n) (t : Fin n) (o : Outcome) :
    (s.withOutcome t o).pc = s.pc ∧ (s.withOutcome t o).under = s.under ∧
    (s.withOutcome t o).late = s.late ∧ (s.withOutcome t o).log = s.log := by
  unfold withOutcome
  split <;> exact ⟨rfl, rfl, rfl, rfl⟩

/-- What a call of the kernel leaves as it was. -/
theorem kernelCall_frame {t : Fin n} {c : IoCall} {o : Outcome}
    (hs : s.kernelCall t c o = some s') : s'.pc = s.pc ∧ s'.under = s.under ∧
    s'.late = s.late ∧ s'.log = s.log ++ [.called t c.fd (s.late t)] := by
  have h₁ := withOutcome_frame (s.push (.called t c.fd (s.late t))) t o
  rcases kernelCall_cases hs with ⟨-, -, hopen⟩ | ⟨-, rfl⟩
  · obtain ⟨-, rfl⟩ := openFile_eq hopen
    exact h₁
  · exact h₁

/-- A call of the kernel by a fiber whose number was not closed in its sleep. -/
theorem Kept.kernelCall {t : Fin n} {c : IoCall} {o : Outcome} (h : s.Kept)
    (hlate : s.late t = false) (hs : s.kernelCall t c o = some s') :
    s'.Kept ∧ s'.pc = s.pc ∧ s'.late t = false := by
  obtain ⟨hpc, hunder, hl, hlog⟩ := kernelCall_frame hs
  have hpush : (s.push (.called t c.fd (s.late t))).Kept := h.push hlate
  exact ⟨hpush.congr hpc hunder hl hlog, hpc, by rw [hl, hlate]⟩

/-- The fiber that calls `fun` or `connect_f`. -/
theorem Kept.late_of_call {t : Fin n} {c : IoCall} (h : s.Kept) (hpc : s.pc t = .call c) :
    s.late t = false := by
  cases hkind : c.kind != .connect with
  | true =>
    apply h.awake t
    rw [hpc]
    exact hkind
  | false =>
    refine (h.outside t ?_).1
    rw [hpc]
    exact hkind

theorem Kept.call {t : Fin n} {o : Outcome} (h : s.Kept) (hs : s.call t o = some s') :
    s'.Kept := by
  obtain ⟨c, s₁, hk, hcase⟩ := call_cases hs
  have hlate : s.late t = false := by
    rcases hcase with ⟨hpc, -⟩ | ⟨hpc, -⟩
    · exact (h.outside t (by rw [hpc]; rfl)).1
    · exact h.late_of_call hpc
  obtain ⟨h₁, hpc₁, hl⟩ := h.kernelCall hlate hk
  have hret : (s₁.ioReturn t c o.ret).Kept := h₁.ioReturn fun hlate => by simp [hl] at hlate
  rcases hcase with ⟨-, rfl⟩ | ⟨-, rfl | ⟨pc, -, hloop, rfl⟩⟩
  · exact hret
  · exact hret
  · refine h₁.setPc (fun hout => h₁.outside t ?_) fun _ => hl
    rw [hpc₁, ← hloop, hout]

theorem Kept.fallAsleep {t : Fin n} {c : IoCall} {mark : Nat} (h : s.Kept)
    (hpc : s.pc t = .wait c) : ((s.fallAsleep t c).setPc t (.suspended c mark)).Kept where
  outside u hu := by
    rw [setPc_pc] at hu
    by_cases hut : u = t
    · subst hut
      rw [if_pos rfl] at hu
      have hout := h.outside u (by rw [hpc]; exact hu)
      have hkind : (c.kind != .connect) = false := hu
      exact ⟨hout.1, fun v => by simp [Sys.fallAsleep, hkind, hout.2 v, Sys.setPc]⟩
    · rw [if_neg hut] at hu
      have hout := h.outside u hu
      exact ⟨hout.1, fun v => by simp [Sys.fallAsleep, hut, hout.2 v, Sys.setPc]⟩
  awake u hu := by
    rw [setPc_pc] at hu
    split at hu
    · cases hu
    · exact h.awake u hu
  log := h.log

theorem Kept.addEvent {t : Fin n} {fault : Bool} (h : s.Kept)
    (hs : s.addEvent t fault = some s') : s'.Kept := by
  obtain ⟨c, s₁, rt, hpc, hadd, hcase⟩ := addEvent_cases hs
  obtain ⟨h₁, hpc₁⟩ := h.pollerAddEvent hadd
  rw [← hpc₁] at hpc
  rcases hcase with rfl | ⟨hkind, rfl⟩ | rfl
  · exact h₁.fallAsleep hpc
  · refine h₁.setPc_outside ?_
    rw [hpc]
    simp [Pc.inLoop, hkind]
  · exact h₁.ioReturn fun _ => rfl

/-- A `do_io` that wakes after a `close` of its number has timed out, and no `close` returns while
a fiber that it has woken is about to call `fun`. -/
def timely (s : Sys n) : Act n → Bool
  | .resume t =>
    match s.pc t with
    | .suspended c _ => !s.late t || c.canclelled
    | _ => true
  | .close_f u => decide (∀ t, s.under t u = true → (s.pc t).awake = false)
  | _ => true

theorem Kept.resume {t : Fin n} (h : s.Kept) (hok : s.timely (.resume t) = true)
    (hs : s.resume t = some s') : s'.Kept := by
  obtain ⟨c, mark, hpc, hcase⟩ := resume_cases hs
  simp only [timely, hpc] at hok
  rcases hcase with ⟨hkind, rfl⟩ | ⟨-, -, rfl⟩ | ⟨-, hcan, rfl⟩
  · refine h.setPc_outside ?_
    rw [hpc]
    simp [Pc.inLoop, hkind]
  · exact Kept.ioReturn (h.congr rfl rfl rfl rfl) fun _ => rfl
  · refine h.setPc (fun hout => ?_) fun _ => ?_
    · apply h.outside t
      rw [hpc]
      exact hout
    · simpa [hcan] using hok

theorem Kept.getsockopt {t : Fin n} (h : s.Kept) (hs : s.getsockopt t = some s') : s'.Kept := by
  obtain ⟨c, hpc, rfl⟩ := getsockopt_cases hs
  exact h.setPc_outside (by rw [hpc]; rfl)

theorem Kept.timeout {t : Fin n} {fault : Bool} (h : s.Kept)
    (hs : s.timeout t fault = some s') : s'.Kept := by
  obtain ⟨c, p, k, ok, pc, -, ⟨-, hloop, hawake⟩, rfl⟩ := timeout_cases hs
  have h₁ : ({ s with p := p, interest := k.entries } : Sys n).Kept := h.congr rfl rfl rfl rfl
  refine h₁.setPc (fun hout => h.outside t ?_) fun haw => h.awake t ?_
  · rw [← hloop, hout]
  · rw [← hawake, haw]

theorem Kept.setsockopt {hooked : Bool} {type : TimeoutType} {v : UInt64} (h : s.Kept)
    (hs : s.setsockopt hooked fd type v = some s') : s'.Kept := by
  rcases setsockopt_cases hs with ⟨-, rfl⟩ | ⟨-, fm, l, r, -, ⟨-, rfl⟩ | ⟨ctx, -, rfl⟩⟩
  · exact h
  · exact h.congr rfl rfl rfl rfl
  · exact h.congr rfl rfl rfl rfl

theorem Kept.beginClose {u : Fin n} (h : s.Kept) : (s.beginClose u fd).Kept where
  outside t ht := by
    obtain ⟨hlate, hunder⟩ := h.outside t ht
    have hsleep : (s.pc t).sleepsOn fd = false := by
      apply Bool.eq_false_iff.mpr
      intro hsleep
      rw [Sys.beginClose, Pc.inLoop_of_sleepsOn hsleep] at ht
      cases ht
    exact ⟨hlate, fun v => by simp [Sys.beginClose, hunder v, hsleep]⟩
  awake := h.awake
  log := h.log

theorem Kept.close {t : Fin n} {hooked : Bool} (h : s.Kept)
    (hs : s.close t hooked fd = some s') : s'.Kept := by
  obtain ⟨hidle, hcase⟩ := close_cases hs
  rcases hcase with ⟨-, rfl⟩ | ⟨-, fm, l, r, -, rfl⟩
  · have h₁ : (s.closeFile fd).Kept := h.congr rfl rfl rfl rfl
    exact h₁.push trivial
  · have h₁ : ({ s with fm := fm, lock := l } : Sys n).Kept := h.congr rfl rfl rfl rfl
    refine h₁.beginClose.setPc_outside ?_
    change (s.pc t).inLoop = false
    rw [hidle]
    rfl

theorem Kept.cancelAll {t : Fin n} {sche fault : Bool} (h : s.Kept)
    (hs : s.cancelAll t sche fault = some s') : s'.Kept := by
  obtain ⟨fd, saw, mark, hpc, hcase⟩ := cancelAll_cases hs
  have hout : (s.pc t).inLoop = false := by
    rw [hpc]
    rfl
  rcases hcase with ⟨-, rfl⟩ | ⟨-, p, k, ok, -, rfl⟩
  · exact h.setPc_outside hout
  · have h₁ : ({ s with p := p, interest := k.entries } : Sys n).Kept := h.congr rfl rfl rfl rfl
    exact h₁.setPc_outside hout

theorem Kept.del {t : Fin n} (h : s.Kept) (hs : s.del t = some s') : s'.Kept := by
  obtain ⟨fd, saw, mark, l, hpc, rfl⟩ := del_cases hs
  have h₁ : ({ s with fm := s.fm.del fd, lock := l } : Sys n).Kept := h.congr rfl rfl rfl rfl
  refine h₁.setPc_outside ?_
  change (s.pc t).inLoop = false
  rw [hpc]
  rfl

theorem Kept.endClose {u : Fin n} (h : s.Kept) (hok : s.timely (.close_f u) = true) :
    (s.endClose u).Kept where
  outside t ht := by
    obtain ⟨hlate, hunder⟩ := h.outside t ht
    exact ⟨by simp [Sys.endClose, hlate, hunder u], fun v => by simp [Sys.endClose, hunder v]⟩
  awake t ht := by
    have hlate := h.awake t ht
    have hunder : s.under t u = false := by
      apply Bool.eq_false_iff.mpr
      intro hu
      have haw := of_decide_eq_true hok t hu
      rw [Sys.endClose, haw] at ht
      cases ht
    simp [Sys.endClose, hlate, hunder]
  log := h.log

theorem Kept.close_f {t : Fin n} (h : s.Kept) (hok : s.timely (.close_f t) = true)
    (hs : s.close_f t = some s') : s'.Kept := by
  obtain ⟨fd, saw, mark, hpc, rfl⟩ := close_f_cases hs
  have h₁ : (s.closeFile fd).Kept := h.congr rfl rfl rfl rfl
  have h₂ : ((s.closeFile fd).pushClosed fd saw mark).Kept := h₁.push trivial
  refine (h₂.endClose hok).setPc_outside ?_
  change (s.pc t).inLoop = false
  rw [hpc]
  rfl

theorem Kept.step {a : Act n} (h : s.Kept) (hok : s.timely a = true) (hs : s.step a = some s') :
    s'.Kept := by
  cases a with
  | socket t hooked fd file => exact h.socket hs
  | register t => exact h.register hs
  | openOther fd file => exact (h.openFile hs).1
  | io t hooked kind fd timed => exact h.io hs
  | call t o => exact h.call hs
  | addEvent t fault => exact h.addEvent hs
  | resume t => exact h.resume hok hs
  | getsockopt t => exact h.getsockopt hs
  | timeout t fault => exact h.timeout hs
  | pollerAddEvent fd event k fault =>
    obtain ⟨⟨s₁, rt⟩, hadd, rfl⟩ := Option.map_eq_some_iff.mp hs
    exact (h.pollerAddEvent hadd).1
  | dispatch fd events fault =>
    obtain ⟨⟨p, k⟩, -, hs⟩ := Option.bind_eq_some_iff.mp hs
    cases hs
    exact h.congr rfl rfl rfl rfl
  | setsockopt hooked fd type v => exact h.setsockopt hs
  | fcntl fd cmd ok =>
    obtain ⟨fm, l, flags, -, rfl⟩ := fcntl_cases hs
    exact h.congr rfl rfl rfl rfl
  | close t hooked fd => exact h.close hs
  | cancelAll t sche fault => exact h.cancelAll hs
  | del t => exact h.del hs
  | close_f t => exact h.close_f hok hs
  | enter =>
    obtain ⟨l, k, rfl⟩ := enter_cases hs
    exact h.congr rfl rfl rfl rfl
  | leave =>
    obtain ⟨l, k, rfl⟩ := leave_cases hs
    exact h.congr rfl rfl rfl rfl

/-! ## Without the time-out -/

/-- A step that misses the condition leaves a fiber at the call of `fun` whose number was closed in
its sleep. -/
theorem late_of_step {a : Act n} (h : s.Kept) (hbad : s.timely a = false)
    (hs : s.step a = some s') : ∃ t c, s'.pc t = .call c ∧ s'.late t = true := by
  cases a with
  | resume t =>
    obtain ⟨c, mark, hpc, hcase⟩ := resume_cases hs
    simp only [timely, hpc, Bool.or_eq_false_iff, Bool.not_eq_false'] at hbad
    obtain ⟨hlate, hcan⟩ := hbad
    rcases hcase with ⟨hkind, -⟩ | ⟨-, hcan', -⟩ | ⟨-, -, rfl⟩
    · have hout := (h.outside t (by rw [hpc]; simp [Pc.inLoop, hkind])).1
      rw [hlate] at hout
      cases hout
    · rw [hcan] at hcan'
      cases hcan'
    · exact ⟨t, c, by rw [setPc_pc, if_pos rfl], hlate⟩
  | close_f u =>
    have hex : ¬ ∀ t, s.under t u = true → (s.pc t).awake = false := of_decide_eq_false hbad
    obtain ⟨t, ht⟩ := not_forall.mp hex
    obtain ⟨hunder, hawake⟩ := Classical.not_imp.mp ht
    obtain ⟨fd, saw, mark, hpc, rfl⟩ := close_f_cases hs
    have hne : t ≠ u := by
      intro htu
      rw [htu, hpc] at hawake
      exact hawake rfl
    cases hpct : s.pc t with
    | call c =>
      refine ⟨t, c, ?_, ?_⟩
      · rw [setPc_pc, if_neg hne]
        exact hpct
      · change (s.late t || s.under t u) = true
        rw [hunder, Bool.or_true]
    | _ =>
      rw [hpct] at hawake
      exact absurd rfl hawake
  | _ => cases hbad

/-- That call is made on the number. -/
theorem call_after_close {t : Fin n} {c : IoCall} {o : Outcome} (hpc : s.pc t = .call c)
    (hlate : s.late t = true) (hs : s.call t o = some s') : .called t c.fd true ∈ s'.log := by
  unfold Sys.call at hs
  rw [hpc] at hs
  obtain ⟨s₁, hk, rfl⟩ := Option.map_eq_some_iff.mp hs
  obtain ⟨-, -, -, hlog⟩ := kernelCall_frame hk
  have hin : .called t c.fd true ∈ s₁.log := by simp [hlog, hlate]
  simp only
  unfold Sys.ioReturn
  repeat' split
  all_goals first
    | exact hin
    | exact List.mem_append_left _ hin

/-! ## Runs -/

/-- In a run whose steps all meet the condition no call that was closed in its sleep goes on, and
each that returns has returned -1. -/
theorem no_call_after_close (files : Nat → Option File) (pipe sche : Nat) (s : Sys n)
    (hr : ((lts n files pipe sche).restrict fun s a => s.timely a = true).Reachable s) :
    (∀ t, (s.pc t).awake = true → s.late t = false) ∧ ∀ o ∈ s.log, o.Kept := by
  have hind : ((lts n files pipe sche).restrict fun s a => s.timely a = true).Inductive Kept := by
    constructor
    · intro s hi
      subst hi
      refine ⟨fun _ _ => ⟨rfl, fun _ => rfl⟩, fun _ _ => rfl, fun o ho => ?_⟩
      cases ho
    · intro s a s' h hs
      exact h.step hs.2 hs.1
  have hkept := hind.reachable s hr
  exact ⟨hkept.awake, hkept.log⟩

/-- A `read` of 5 sleeps; 5 is closed, where `del` gets the lock as another thread is inside a
read-locked section, and is the next socket's, from which the `read` then takes ten bytes. -/
theorem reads_another :
    ¬ ∀ s, (lts 2 (fun _ => none) 3 0).Reachable s →
      (∀ t, (s.pc t).awake = true → s.late t = false) ∧ ∀ o ∈ s.log, o.Kept := by
  intro h
  have hrun : (LTS.exec step (init (n := 2) (fun _ => none) 3 0)
      [.socket 0 true 5 ⟨true, 0, O_NONBLOCK⟩, .register 0, .io 1 true .read 5 false,
        .call 1 ⟨-1, .EAGAIN, ⟨true, 0, 0⟩⟩, .addEvent 1 false, .close 0 true 5,
        .cancelAll 0 true false, .enter, .del 0, .leave, .close_f 0,
        .socket 0 false 5 ⟨true, 0, O_NONBLOCK⟩, .resume 1, .call 1 ⟨10, .other, ⟨true, 0, 0⟩⟩]).any (fun s => decide
          (.called 1 5 true ∈ s.log ∧ .returned 1 5 true 10 ∈ s.log)) = true := by decide +kernel
  obtain ⟨s, hr, hb⟩ : ∃ s, (lts 2 (fun _ => none) 3 0).Reachable s ∧ decide
      (.called 1 5 true ∈ s.log ∧ .returned 1 5 true 10 ∈ s.log) = true :=
    LTS.exists_of_exec _ rfl hrun
  obtain ⟨hcall, -⟩ := of_decide_eq_true hb
  cases (h s hr).2 _ hcall

/-- The same run with a time-out that has expired before the `read` wakes. -/
theorem no_call_expired : ∃ s,
    ((lts 2 (fun _ => none) 3 0).restrict fun s a => s.timely a = true).Reachable s ∧
    .returned 1 5 true (-1) ∈ s.log ∧ (∀ t, (s.pc t).awake = true → s.late t = false) ∧ ∀ o ∈ s.log, o.Kept := by
  have hrun : (LTS.execWith step timely (init (n := 2) (fun _ => none) 3 0)
      [.socket 0 true 5 ⟨true, 0, O_NONBLOCK⟩, .register 0, .setsockopt true 5 .recv 1000,
        .io 1 true .read 5 false, .call 1 ⟨-1, .EAGAIN, ⟨true, 0, 0⟩⟩, .addEvent 1 false,
        .close 0 true 5, .cancelAll 0 true false, .enter, .del 0, .leave, .close_f 0,
        .socket 0 false 5 ⟨true, 0, O_NONBLOCK⟩, .timeout 1 false, .resume 1]).any
      (fun s => decide (.returned 1 5 true (-1) ∈ s.log)) = true := by decide +kernel
  obtain ⟨s, hr, hb⟩ : ∃ s,
      ((lts 2 (fun _ => none) 3 0).restrict fun s a => s.timely a = true).Reachable s ∧
      decide (.returned 1 5 true (-1) ∈ s.log) = true :=
    LTS.exists_of_execWith (fun _ _ h => h) _ rfl hrun
  exact ⟨s, hr, of_decide_eq_true hb, no_call_after_close _ 3 0 s hr⟩

end Sys
end Ppcode.Hook
