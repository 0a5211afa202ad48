import Ppcode.Fiber.HookedFd

/-!
# What `close` leaves behind

The kernel, `FdManager` and `Poller` each have a table of the same numbers. A
number is put into them and taken out of them by different calls, so a `close`
may leave a part of it behind: the next socket that gets the number has then the
`FdCtx` or the events of the one before. `Sys.Clean` is the invariant of the runs in
which that does not happen: a number that is not open is in no table, and a
`close` on its way owes nothing but what is still registered. Each call keeps it
if the step meets `Sys.tidy`; what goes wrong otherwise is

* a `close` without the hook, on a thread without a scheduler, or of a number that
  is in the poller alone (`event_left_behind`);
* a socket beyond the table of `FdManager`, which gets no `FdCtx`, and a call on a
  number beyond it that is not open, which makes an `FdCtx`;
* an `addEvent`, or a call that makes an `FdCtx`, between `cancelAll` and `close_f`.
-/
namespace Ppcode.Hook

open Poller (Valid Indexed FiresWith Fires)

/-- A `close` that has left nothing behind, a `socket` or `accept` that has got a new `FdCtx`,
a first `addEvent` that has added the number to the interest list. -/
def Obs.Good {n : Nat} : Obs n → Prop
  | .closed _ entry events lost => entry = none ∧ events = 0 ∧ lost = []
  | .opened fd made entry => entry = if made then some (.fresh fd true) else none
  | .added _ ops first => first = true → ops = [.ADD]
  | .called .. | .returned .. => True

variable {n : Nat}

instance : (o : Obs n) → Decidable o.Good
  | .closed _ entry events lost =>
    inferInstanceAs (Decidable (entry = none ∧ events = 0 ∧ lost = []))
  | .opened fd made entry =>
    inferInstanceAs (Decidable (entry = if made then some (.fresh fd true) else none))
  | .added _ ops first => inferInstanceAs (Decidable (first = true → ops = [.ADD]))
  | .called .. | .returned .. => instDecidableTrue

/-! ## The invariant -/

/-- What holds while a `close` of `fd` is in progress. -/
structure Closing (fm : FdManager) (p : Poller (Cb n)) (fd : Nat) (phase : ClosePhase)
    (saw : List (Handed n)) (mark : Nat) : Prop where
  mark_le : mark ≤ p.created.length
  owed : ∀ h ∈ saw, h ∈ p.created.drop mark ∨ h ∈ Sys.registered p fd
  events : phase ≠ .cancelAll → p.eventsOf fd = 0
  entry : phase = .close_f → fm.entry fd = none

/-- What the tables have for one number. -/
structure Num (fm : FdManager) (p : Poller (Cb n)) (interest : Nat → Option Mask)
    (touched : Nat → Bool) (pc : Fin n → Pc n) (fd : Nat) : Prop where
  closed : fm.files fd = none → fm.entry fd = none ∧ p.eventsOf fd = 0
  valid : Valid (p.eventsOf fd)
  present : p.eventsOf fd ≠ 0 → interest fd ≠ none
  touched : touched fd = false → p.eventsOf fd = 0
  created : ∀ t, pc t = .created fd → fm.isSock fd = true ∧ fm.entry fd = none
  unique : ∀ t u, pc t = .created fd → pc u = .created fd → t = u
  closing : ∀ t phase saw mark, pc t = .closing fd phase saw mark → Closing fm p fd phase saw mark

structure Sys.Clean (s : Sys n) : Prop where
  num : ∀ fd, Num s.fm s.p s.interest s.touched s.pc fd
  indexed : Indexed s.p
  log : ∀ o ∈ s.log, o.Good

/-- `Num` is about one number: the rest of the tables may change. -/
theorem Num.frame {fm fm' : FdManager} {p p' : Poller (Cb n)} {interest interest' : Nat → Option Mask}
    {touched touched' : Nat → Bool} {pc : Fin n → Pc n} {fd : Nat} (h : Num fm p interest touched pc fd)
    (hfile : fm'.files fd = fm.files fd) (hent : fm'.entry fd = fm.entry fd)
    (hev : p'.eventsOf fd = p.eventsOf fd) (hreg : Sys.registered p' fd = Sys.registered p fd)
    (hcr : p.created <+: p'.created) (hin : interest' fd = interest fd)
    (htou : touched' fd = touched fd) : Num fm' p' interest' touched' pc fd where
  closed := by rw [hfile, hent, hev]; exact h.closed
  valid := by rw [hev]; exact h.valid
  present := by rw [hev, hin]; exact h.present
  touched := by rw [hev, htou]; exact h.touched
  created := by rw [FdManager.isSock, hfile, hent]; exact h.created
  unique := h.unique
  closing t phase saw mark ht := by
    have hc := h.closing t phase saw mark ht
    refine ⟨hc.mark_le.trans hcr.length_le, ?_, ?_, ?_⟩
    · intro x hx
      rw [hreg]
      exact (hc.owed x hx).imp_left (Poller.mem_drop_mono hcr)
    · rw [hev]
      exact hc.events
    · rw [hent]
      exact hc.entry

/-- The number that a `close` is on, and what is left of it. -/
def Pc.closing? : Pc n → Option (Nat × ClosePhase)
  | .closing fd phase _ _ => some (fd, phase)
  | _ => none

namespace Sys
variable {s s' : Sys n} {fd : Nat}

/-! ## Records and control points -/

theorem Clean.push {o : Obs n} (h : s.Clean) (ho : o.Good) : (s.push o).Clean where
  num := h.num
  indexed := h.indexed
  log := by
    intro o' ho'
    rcases List.mem_append.mp ho' with ho' | ho'
    · exact h.log o' ho'
    · rw [List.mem_singleton.mp ho']
      exact ho

theorem Clean.setErrno {t : Fin n} {errno : IoErrno} (h : s.Clean) : (s.setErrno t errno).Clean :=
  ⟨h.num, h.indexed, h.log⟩

theorem Clean.forget {t : Fin n} (h : s.Clean) : (s.forget t).Clean := ⟨h.num, h.indexed, h.log⟩

theorem Clean.fallAsleep {t : Fin n} {c : IoCall} (h : s.Clean) : (s.fallAsleep t c).Clean :=
  ⟨h.num, h.indexed, h.log⟩

theorem Clean.beginClose {t : Fin n} (h : s.Clean) : (s.beginClose t fd).Clean :=
  ⟨h.num, h.indexed, h.log⟩

theorem Clean.endClose {t : Fin n} (h : s.Clean) : (s.endClose t).Clean :=
  ⟨h.num, h.indexed, h.log⟩

theorem Clean.withLock (h : s.Clean) (l : RWLock Unit) (k : Nat) :
    ({ s with lock := l, reading := k } : Sys n).Clean := ⟨h.num, h.indexed, h.log⟩

/-- A fiber moves to the control point `pc`. -/
theorem Clean.setPc {t : Fin n} {pc : Pc n} (h : s.Clean)
    (hcreated : ∀ fd, pc = .created fd → s.fm.isSock fd = true ∧ s.fm.entry fd = none ∧
      ∀ u, s.pc u ≠ .created fd)
    (hclosing : ∀ fd phase saw mark, pc = .closing fd phase saw mark →
      Closing s.fm s.p fd phase saw mark) : (s.setPc t pc).Clean where
  indexed := h.indexed
  log := h.log
  num fd := by
    refine ⟨(h.num fd).closed, (h.num fd).valid, (h.num fd).present, (h.num fd).touched, ?_, ?_, ?_⟩
    · intro u hu
      rw [setPc_pc] at hu
      split at hu
      · exact ⟨(hcreated fd hu).1, (hcreated fd hu).2.1⟩
      · exact (h.num fd).created u hu
    · intro u v hu hv
      rw [setPc_pc] at hu hv
      split at hu
      · split at hv
        · simp_all
        · exact absurd hv ((hcreated fd hu).2.2 v)
      · split at hv
        · exact absurd hu ((hcreated fd hv).2.2 u)
        · exact (h.num fd).unique u v hu hv
    · intro u phase saw mark hu
      rw [setPc_pc] at hu
      split at hu
      · exact hclosing fd phase saw mark hu
      · exact (h.num fd).closing u phase saw mark hu

theorem Clean.setPc_plain {t : Fin n} {pc : Pc n} (h : s.Clean) (hpc : Pc.Plain pc) :
    (s.setPc t pc).Clean := by
  apply h.setPc
  · intro fd he
    rw [he] at hpc
    exact hpc.elim
  · intro fd phase saw mark he
    rw [he] at hpc
    exact hpc.elim

/-! ## The tables -/

theorem registered_congr {p p' : Poller (Cb n)}
    (h : ∀ e, p'.waiting (fd, e) = p.waiting (fd, e)) : registered p' fd = registered p fd := by
  simp [registered, h]

theorem registered_mem {p : Poller (Cb n)} {x : Handed n} : x ∈ registered p fd ↔
    ∃ e ctx, e ∈ [Event.READ, Event.WRITE] ∧ p.waiting (fd, e) = some ctx ∧
      ctx.scheduler_ = some x.1 ∧ ctx.cb_ = x.2 := by
  unfold registered
  rw [List.mem_filterMap]
  constructor
  · intro h
    obtain ⟨e, he, h⟩ := h
    obtain ⟨ctx, hctx, h⟩ := Option.bind_eq_some_iff.mp h
    obtain ⟨sche, hs, rfl⟩ := Option.map_eq_some_iff.mp h
    exact ⟨e, ctx, he, hctx, hs, rfl⟩
  · intro h
    obtain ⟨e, ctx, he, hctx, hs, hcb⟩ := h
    refine ⟨e, he, ?_⟩
    rw [hctx, Option.bind_some, hs, Option.map_some, hcb]

/-- A callback that was registered still is, or has been handed over. -/
theorem registered_fires {p p' : Poller (Cb n)} {x : Handed n} (hf : Fires p p' fd)
    (hx : x ∈ registered p fd) :
    x ∈ registered p' fd ∨ x ∈ p'.created.drop p.created.length := by
  obtain ⟨e, ctx, he, hctx, hs, hcb⟩ := registered_mem.mp hx
  rcases hf.handed e ctx x.1 hctx hs with hw | hc
  · exact .inl (registered_mem.mpr ⟨e, ctx, he, hw, hs, hcb⟩)
  · rw [hcb] at hc
    exact .inr hc

/-- Nothing is registered on a number without events. -/
theorem registered_zero {p : Poller (Cb n)} (h : p.eventsOf fd = 0) : registered p fd = [] := by
  apply List.eq_nil_iff_forall_not_mem.mpr
  intro x hx
  obtain ⟨e, ctx, -, hctx, -, -⟩ := registered_mem.mp hx
  have hnone : p.waiting (fd, e) = none := by
    rw [Poller.waiting_eq_none, h]
    exact Mask.has_zero e
  rw [hnone] at hctx
  cases hctx

/-- A call on `fd` makes an entry only where nobody counts on there being none. -/
theorem Clean.touch {fm : FdManager} (h : s.Clean) (ht : s.fm.Touches fm fd)
    (hent : fm.entry fd ≠ none → s.fm.entry fd = none → s.fm.files fd ≠ none ∧
      (∀ t, s.pc t ≠ .created fd) ∧ ∀ t saw mark, s.pc t ≠ .closing fd .close_f saw mark) :
    ({ s with fm := fm } : Sys n).Clean where
  indexed := h.indexed
  log := h.log
  num fd' := by
    by_cases hne : fd' = fd
    · subst hne
      have hn := h.num fd'
      refine ⟨?_, hn.valid, hn.present, hn.touched, ?_, hn.unique, ?_⟩
      · intro hclosed
        obtain ⟨he, hev⟩ := hn.closed (ht.opened.mp hclosed)
        refine ⟨?_, hev⟩
        by_contra hsome
        exact (hent hsome he).1 (ht.opened.mp hclosed)
      · intro t hpc
        obtain ⟨hs, he⟩ := hn.created t hpc
        refine ⟨by rw [ht.isSock]; exact hs, ?_⟩
        by_contra hsome
        exact (hent hsome he).2.1 t hpc
      · intro t phase saw mark hpc
        have hc := hn.closing t phase saw mark hpc
        refine ⟨hc.mark_le, hc.owed, hc.events, fun hphase => ?_⟩
        by_contra hsome
        subst hphase
        exact (hent hsome (hc.entry rfl)).2.2 t saw mark hpc
    · exact (h.num fd').frame (ht.files fd' hne) (ht.entry fd' hne) rfl rfl (List.prefix_refl _)
        rfl rfl

/-- Callbacks of `fd` are fired. -/
theorem Clean.fires {p : Poller (Cb n)} {k k' : Poller.Kernel} (h : s.Clean)
    (hk : k.entries = s.interest) (hf : FiresWith s.p k p k' fd) :
    ({ s with p := p, interest := k'.entries } : Sys n).Clean where
  indexed := hf.fires.indexed h.indexed
  log := h.log
  num fd' := by
    by_cases hne : fd' = fd
    · subst hne
      have hn := h.num fd'
      have hzero : s.p.eventsOf fd' = 0 → p.eventsOf fd' = 0 := hf.fires.none
      refine ⟨fun hc => ⟨(hn.closed hc).1, hzero (hn.closed hc).2⟩, hf.fires.valid hn.valid,
        hf.present (by rw [hk]; exact hn.present), fun ht => hzero (hn.touched ht), hn.created,
        hn.unique, ?_⟩
      intro t phase saw mark hpc
      have hc := hn.closing t phase saw mark hpc
      refine ⟨hc.mark_le.trans hf.fires.created.length_le, ?_, fun hp => hzero (hc.events hp),
        hc.entry⟩
      intro x hx
      rcases hc.owed x hx with hin | hin
      · exact .inl (Poller.mem_drop_mono hf.fires.created hin)
      · rcases registered_fires hf.fires hin with hreg | hcr
        · exact .inr hreg
        · exact .inl (Poller.mem_drop_of_le hc.mark_le hcr)
    · refine (h.num fd').frame rfl rfl (hf.fires.events fd' hne) ?_ hf.fires.created ?_ rfl
      · exact registered_congr fun e => hf.fires.others fd' e hne
      · exact (hf.entries fd' hne).trans (congrFun hk fd')

/-- A number that was not open is opened. -/
theorem Clean.openFile {file : File} (h : s.Clean) (hs : s.openFile fd file = some s') :
    s'.Clean ∧ s'.fm.files fd = some file ∧ s'.fm.entry fd = none ∧ s'.pc = s.pc ∧
      ∀ t, s.pc t ≠ .created fd := by
  obtain ⟨hfree, rfl⟩ := openFile_eq hs
  obtain ⟨he, hev⟩ := (h.num fd).closed hfree
  have hnone : ∀ t, s.pc t ≠ .created fd := by
    intro t ht
    have hsock := ((h.num fd).created t ht).1
    simp [FdManager.isSock, hfree] at hsock
  refine ⟨⟨fun fd' => ?_, h.indexed, h.log⟩, FdManager.setFile_files_self .., he, rfl, hnone⟩
  by_cases hne : fd' = fd
  · subst hne
    have hn := h.num fd'
    refine ⟨fun hc => ?_, hn.valid, hn.present, hn.touched, fun t ht => absurd ht (hnone t),
      hn.unique, ?_⟩
    · rw [FdManager.setFile_files_self] at hc
      cases hc
    · intro t phase saw mark ht
      have hc := hn.closing t phase saw mark ht
      exact ⟨hc.mark_le, hc.owed, hc.events, hc.entry⟩
  · exact (h.num fd').frame (Function.update_of_ne hne ..) rfl rfl rfl (List.prefix_refl _) rfl rfl

/-- A number that is in no table is closed. -/
theorem Clean.closeFile (h : s.Clean) (hent : s.fm.entry fd = none) (hev : s.p.eventsOf fd = 0)
    (hcr : ∀ t, s.pc t ≠ .created fd) : (s.closeFile fd).Clean where
  indexed := h.indexed
  log := h.log
  num fd' := by
    by_cases hne : fd' = fd
    · subst hne
      have hn := h.num fd'
      refine ⟨fun _ => ⟨hent, hev⟩, hn.valid, fun hp => absurd hev hp, fun _ => hev,
        fun t ht => absurd ht (hcr t), hn.unique, ?_⟩
      intro t phase saw mark ht
      have hc := hn.closing t phase saw mark ht
      exact ⟨hc.mark_le, hc.owed, hc.events, hc.entry⟩
    · exact (h.num fd').frame (Function.update_of_ne hne ..) rfl rfl rfl (List.prefix_refl _)
        (Function.update_of_ne hne ..) (Function.update_of_ne hne ..)

/-! ## `addEvent` -/

/-- A `close` of `fd` is in progress and has come to `phase`. -/
def InPhase (s : Sys n) (fd : Nat) (phase : ClosePhase) : Prop :=
  ∃ t, (s.pc t).closing? = some (fd, phase)

/-- An `addEvent` may run: no `close` of the number is past the poller, and none that is on the
way to it loses a callback. -/
def MayAdd (s : Sys n) (fd : Nat) (event : Event) : Prop :=
  ¬ s.InPhase fd .del ∧ ¬ s.InPhase fd .close_f ∧
  (s.InPhase fd .cancelAll → (s.p.eventsOf fd).has event.mask = false)

theorem MayAdd.closing {event : Event} (h : s.MayAdd fd event) {t : Fin n} {phase : ClosePhase}
    {saw : List (Handed n)} {mark : Nat} (ht : s.pc t = .closing fd phase saw mark) :
    phase = .cancelAll ∧ (s.p.eventsOf fd).has event.mask = false := by
  have hin : s.InPhase fd phase := ⟨t, by rw [ht]; rfl⟩
  cases phase with
  | cancelAll => exact ⟨rfl, h.2.2 hin⟩
  | del => exact absurd hin h.1
  | close_f => exact absurd hin h.2.1

/-- The callbacks of a number that were registered when one more is. -/
theorem registered_register {p : Poller (Cb n)} {event : Event} {cb : Cb n} {x : Handed n}
    (hreg : (s.p.grow fd).register fd event cb = some p)
    (hfree : (s.p.eventsOf fd).has event.mask = false) (hx : x ∈ registered s.p fd) :
    x ∈ registered p fd := by
  obtain ⟨hch, -, -⟩ := Poller.register_spec hreg
  obtain ⟨e, ctx, he, hctx, hs, hcb⟩ := registered_mem.mp hx
  have hne : e ≠ event := by
    intro heq
    subst heq
    rw [(Poller.waiting_eq_none s.p fd e).mpr hfree] at hctx
    cases hctx
  refine registered_mem.mpr ⟨e, ctx, he, ?_, hs, hcb⟩
  rw [hch.waiting, Function.update_of_ne (by simp [hne]), Poller.grow_waiting, hctx]

theorem Clean.pollerAddEvent {event : Event} {cb : Cb n} {fault : Bool} {rt : CtlResult}
    (h : s.Clean) (hmay : (s.kernel fd fault).fault = false → s.MayAdd fd event)
    (hs : s.pollerAddEvent fd event cb fault = some (s', rt)) :
    s'.Clean ∧ s'.pc = s.pc := by
  obtain ⟨p, entries, rfl, hcase⟩ := pollerAddEvent_cases hs
  refine ⟨Clean.push ?_ ?_, rfl⟩
  · rcases hcase with ⟨hrt, rfl, rfl⟩ | ⟨hrt, hfault, hreg, mask, rfl⟩
    · rw [if_neg hrt]
      refine ⟨fun fd' => ?_, h.indexed.grow fd, h.log⟩
      refine (h.num fd').frame rfl rfl ?_ ?_ ?_ rfl rfl
      · exact congrFun (Poller.grow_eventsOf s.p fd) fd'
      · exact registered_congr fun e => congrFun (Poller.grow_waiting s.p fd) (fd', e)
      · rw [(Poller.grow_frame s.p fd).2.1]
    · rw [if_pos hrt]
      obtain ⟨hch, -, hcr⟩ := Poller.register_spec hreg
      rw [(Poller.grow_frame s.p fd).2.1] at hcr
      refine ⟨fun fd' => ?_, hch.indexed (h.indexed.grow fd), h.log⟩
      by_cases hne : fd' = fd
      · subst hne
        have hn := h.num fd'
        have hopen : s.fm.files fd' ≠ none := by
          intro hclosed
          simp [Sys.kernel, hclosed] at hfault
        have hev : p.eventsOf fd' = s.p.eventsOf fd' ||| event.mask := by
          rw [hch.eventsOf, Function.update_self, Poller.grow_eventsOf]
        refine ⟨fun hc => absurd hc hopen, by rw [hev]; exact hn.valid.or event,
          fun _ => by simp, fun ht => by simp at ht, hn.created, hn.unique, ?_⟩
        · intro t phase saw mark hpc
          obtain ⟨hphase, hfree⟩ := (hmay hfault).closing hpc
          have hc := hn.closing t phase saw mark hpc
          rw [hphase]
          refine ⟨by rw [hcr]; exact hc.mark_le, ?_, fun hne => absurd rfl hne, fun he => by cases he⟩
          intro x hx
          rw [hcr]
          exact (hc.owed x hx).imp_right (registered_register hreg hfree)
      · refine (h.num fd').frame rfl rfl ?_ ?_ (by rw [hcr]) (Function.update_of_ne hne ..)
          (Function.update_of_ne hne ..)
        · rw [hch.eventsOf, Function.update_of_ne hne, Poller.grow_eventsOf]
        · refine registered_congr fun e => ?_
          rw [hch.waiting, Function.update_of_ne (by simp [hne]), Poller.grow_waiting]
  · intro hfirst
    rw [if_pos ((h.num fd).touched (by simpa using hfirst))]

/-! ## The condition -/

/-- A `socket` or `accept` has got the number and has not asked for its `FdCtx` yet. -/
def InCreation (s : Sys n) (fd : Nat) : Prop := ∃ t, s.pc t = .created fd

/-- The number is inside `FdManager`'s table, or is open and no `close` of it is past `del`. -/
def NumberOk (s : Sys n) (fd : Nat) : Prop :=
  fd < s.fm.m_datas.length ∨ (s.fm.files fd).isSome ∧ ¬ s.InPhase fd .close_f

instance (s : Sys n) (fd : Nat) (phase : ClosePhase) : Decidable (s.InPhase fd phase) :=
  inferInstanceAs (Decidable (∃ t, (s.pc t).closing? = some (fd, phase)))

instance (s : Sys n) (fd : Nat) (event : Event) : Decidable (s.MayAdd fd event) :=
  inferInstanceAs (Decidable (_ ∧ _))

instance (s : Sys n) (fd : Nat) : Decidable (s.InCreation fd) :=
  inferInstanceAs (Decidable (∃ t, s.pc t = .created fd))

instance (s : Sys n) (fd : Nat) : Decidable (s.NumberOk fd) :=
  inferInstanceAs (Decidable (_ ∨ _))

/-- The steps after which nothing is left behind. -/
def tidy (s : Sys n) : Act n → Bool
  | .register t =>
    match s.pc t with
    | .created fd => decide (fd < s.fm.m_datas.length ∧ ¬ s.InPhase fd .close_f)
    | _ => true
  | .io _ hooked _ fd _ | .setsockopt hooked fd _ _ => !hooked || decide (s.NumberOk fd)
  | .fcntl fd _ _ => decide (s.NumberOk fd)
  | .addEvent t fault =>
    match s.pc t with
    | .wait c => (s.kernel c.fd fault).fault || decide (s.MayAdd c.fd c.kind.event)
    | _ => true
  | .pollerAddEvent fd event _ fault => (s.kernel fd fault).fault || decide (s.MayAdd fd event)
  | .close _ true fd => decide (s.NumberOk fd ∧
      (fd < s.fm.m_datas.length → s.fm.entry fd = none → s.p.eventsOf fd = 0))
  | .close _ false fd =>
    decide (s.fm.entry fd = none ∧ s.p.eventsOf fd = 0 ∧ ¬ s.InCreation fd)
  | .cancelAll t sche fault =>
    match s.pc t with
    | .closing fd _ _ _ => decide (s.p.eventsOf fd = 0) || sche && !fault
    | _ => true
  | .close_f t =>
    match s.pc t with
    | .closing fd _ _ _ => decide (¬ s.InCreation fd)
    | _ => true
  | _ => true

/-! ## The steps that read the table -/

/-- A call that makes an entry beyond the table, which it does for what is no socket. -/
theorem Clean.touch_grown {fm : FdManager} (h : s.Clean) (hok : s.NumberOk fd)
    (hle : s.fm.m_datas.length ≤ fd) (hsock : s.fm.isSock fd = false) (ht : s.fm.Touches fm fd) :
    ({ s with fm := fm } : Sys n).Clean := by
  obtain ⟨hopen, hphase⟩ := hok.resolve_left (Nat.not_lt.mpr hle)
  refine h.touch ht fun _ _ => ⟨Option.isSome_iff_ne_none.mp hopen, ?_, ?_⟩
  · intro t hpc
    rw [((h.num fd).created t hpc).1] at hsock
    cases hsock
  · intro t saw mark hpc
    exact hphase ⟨t, by rw [hpc]; rfl⟩

theorem Clean.get {fm : FdManager} {r : Option FdCtx} (h : s.Clean) (hok : s.NumberOk fd)
    (hget : FdManager.get 3 s.fm fd false = some (fm, r)) (l : RWLock Unit) :
    ({ s with fm := fm, lock := l } : Sys n).Clean := by
  rcases FdManager.get_cases hget with ⟨-, rfl, -⟩ | ⟨hle, hsock, ht, -⟩
  · exact h.withLock l _
  · exact (h.touch_grown hok hle hsock ht).withLock l _

theorem Clean.ioReturn {t : Fin n} {c : IoCall} {ret : Int} (h : s.Clean)
    (hacc : c.kind = .accept → 0 ≤ ret → s.fm.isSock ret.toNat = true ∧
      s.fm.entry ret.toNat = none ∧ ∀ u, s.pc u ≠ .created ret.toNat) :
    (s.ioReturn t c ret).Clean := by
  have hpush : (s.push (.returned t c.fd (s.late t) ret)).Clean := h.push trivial
  unfold Sys.ioReturn
  split
  · next hret =>
    apply hpush.forget.setPc
    · intro fd he
      cases he
      exact hacc hret.1 hret.2
    · intro fd phase saw mark he
      cases he
  · exact hpush.forget.setPc_plain trivial

theorem Clean.ioFail {t : Fin n} {c : IoCall} (h : s.Clean) :
    (s.ioReturn t c (-1)).Clean := h.ioReturn fun _ hret => by omega

theorem Clean.io {t : Fin n} {hooked timed : Bool} {kind : IoKind} (h : s.Clean)
    (hok : hooked = true → s.NumberOk fd) (hs : s.io t hooked kind fd timed = some s') :
    s'.Clean := by
  obtain ⟨-, c, -, -, hcase⟩ := io_cases hs
  rcases hcase with ⟨-, rfl⟩ | ⟨hh, s₁, r, hget, hcase⟩
  · exact h.setPc_plain trivial
  · obtain ⟨fm, l, hread, rfl⟩ := get_eq hget
    have h₁ := h.get (hok hh) hread l
    rcases hcase with rfl | rfl | rfl
    · exact h₁.setErrno.ioFail
    · exact h₁.setPc_plain trivial
    · exact h₁.setPc_plain trivial

theorem Clean.setsockopt {hooked : Bool} {type : TimeoutType} {v : UInt64} (h : s.Clean)
    (hok : hooked = true → s.NumberOk fd) (hs : s.setsockopt hooked fd type v = some s') :
    s'.Clean := by
  rcases setsockopt_cases hs with ⟨-, rfl⟩ | ⟨hh, fm, l, r, hget, hcase⟩
  · exact h
  · have hnum := hok hh
    rcases hcase with ⟨-, rfl⟩ | ⟨ctx, rfl, rfl⟩
    · exact h.get hnum hget l
    · rcases FdManager.get_cases hget with ⟨-, rfl, hr⟩ | ⟨hle, hsock, ht, -⟩
      · refine (h.touch (.setEntry ..) fun _ hnone => ?_).withLock l _
        rw [hnone] at hr
        cases hr
      · exact (h.touch_grown hnum hle hsock (ht.trans (.setEntry ..))).withLock l _

theorem Clean.fcntl {cmd : FcntlCmd} {ok : Bool} (h : s.Clean) (hok : s.NumberOk fd)
    (hs : s.fcntl fd cmd ok = some s') : s'.Clean := by
  obtain ⟨fm, l, flags, hf, rfl⟩ := fcntl_cases hs
  obtain ⟨ht, hcase⟩ := FdManager.fcntl_cases hf
  rcases hcase with ⟨-, hent⟩ | ⟨hle, hsock⟩
  · exact (h.touch ht fun hne hnone => absurd (hent.mpr hnone) hne).withLock l _
  · exact (h.touch_grown hok hle hsock ht).withLock l _

/-! ## `socket`, `accept` and the calls of the kernel -/

theorem Clean.socket {t : Fin n} {hooked : Bool} {file : File} (h : s.Clean)
    (hs : s.socket t hooked fd file = some s') : s'.Clean := by
  obtain ⟨-, hsock, s₁, hopen, hcase⟩ := socket_cases hs
  obtain ⟨h₁, hfile, hent, hpc, hnone⟩ := h.openFile hopen
  rcases hcase with ⟨-, rfl⟩ | ⟨-, rfl⟩
  · apply h₁.setPc
    · intro fd' he
      cases he
      refine ⟨?_, hent, by rw [hpc]; exact hnone⟩
      simpa [FdManager.isSock, hfile] using hsock
    · intro fd' phase saw mark he
      cases he
  · exact h₁.push hent

/-- The number gets a new `FdCtx`. -/
theorem Clean.register {t : Fin n} (h : s.Clean)
    (hok : ∀ fd, s.pc t = .created fd → fd < s.fm.m_datas.length ∧ ¬ s.InPhase fd .close_f)
    (hs : s.register t = some s') : s'.Clean := by
  obtain ⟨fd, fm, l, r, hpc, hget, rfl⟩ := register_cases hs
  obtain ⟨hlt, hphase⟩ := hok fd hpc
  obtain ⟨hsock, hent⟩ := (h.num fd).created t hpc
  rw [FdManager.get_create hlt hent, hsock] at hget
  cases hget
  have hidle : (s.setPc t .idle).Clean := h.setPc_plain trivial
  have htouch : ({ s.setPc t .idle with fm := s.fm.created fd } : Sys n).Clean := ?_
  · exact (htouch.withLock l s.reading).push rfl
  refine hidle.touch (.created s.fm fd) fun _ _ => ⟨?_, ?_, ?_⟩
  · intro hfile
    change s.fm.files fd = none at hfile
    simp [FdManager.isSock, hfile] at hsock
  · intro u hu
    change (s.setPc t .idle).pc u = _ at hu
    rw [setPc_pc] at hu
    split at hu
    · cases hu
    · next hut => exact hut ((h.num fd).unique u t hu hpc)
  · intro u saw mark hu
    change (s.setPc t .idle).pc u = _ at hu
    rw [setPc_pc] at hu
    split at hu
    · cases hu
    · exact hphase ⟨u, by rw [hu]; rfl⟩

theorem Clean.kernelCall {t : Fin n} {c : IoCall} {o : Outcome} (h : s.Clean)
    (hs : s.kernelCall t c o = some s') :
    s'.Clean ∧ (c.kind = .accept → 0 ≤ o.ret → s'.fm.isSock o.ret.toNat = true ∧
      s'.fm.entry o.ret.toNat = none ∧ ∀ u, s'.pc u ≠ .created o.ret.toNat) := by
  have h₁ : ((s.push (.called t c.fd (s.late t))).withOutcome t o).Clean := by
    have hpush : (s.push (.called t c.fd (s.late t))).Clean := h.push trivial
    unfold withOutcome
    split
    · exact hpush.setErrno
    · exact hpush
  rcases kernelCall_cases hs with ⟨-, hsock, hopen⟩ | ⟨hacc, rfl⟩
  · obtain ⟨h', hfile, hent, hpc, hnone⟩ := h₁.openFile hopen
    refine ⟨h', fun _ _ => ⟨?_, hent, by rw [hpc]; exact hnone⟩⟩
    simpa [FdManager.isSock, hfile] using hsock
  · exact ⟨h₁, fun hk hr => absurd ⟨hk, hr⟩ hacc⟩

theorem Clean.call {t : Fin n} {o : Outcome} (h : s.Clean) (hs : s.call t o = some s') :
    s'.Clean := by
  obtain ⟨c, s₁, hk, hcase⟩ := call_cases hs
  obtain ⟨h₁, hacc⟩ := h.kernelCall hk
  rcases hcase with ⟨-, rfl⟩ | ⟨-, rfl | ⟨pc, hplain, -, rfl⟩⟩
  · exact h₁.ioReturn hacc
  · exact h₁.ioReturn hacc
  · exact h₁.setPc_plain hplain

/-! ## Waiting -/

theorem Clean.addEvent {t : Fin n} {fault : Bool} (h : s.Clean)
    (hok : ∀ c, s.pc t = .wait c → (s.kernel c.fd fault).fault = false →
      s.MayAdd c.fd c.kind.event)
    (hs : s.addEvent t fault = some s') : s'.Clean := by
  obtain ⟨c, s₁, rt, hpc, hadd, hcase⟩ := addEvent_cases hs
  obtain ⟨h₁, -⟩ := h.pollerAddEvent (hok c hpc) hadd
  rcases hcase with rfl | ⟨-, rfl⟩ | rfl
  · exact h₁.fallAsleep.setPc_plain trivial
  · exact h₁.setPc_plain trivial
  · exact h₁.ioFail

theorem Clean.resume {t : Fin n} (h : s.Clean) (hs : s.resume t = some s') : s'.Clean := by
  obtain ⟨c, mark, -, hcase⟩ := resume_cases hs
  rcases hcase with ⟨-, rfl⟩ | ⟨-, -, rfl⟩ | ⟨-, -, rfl⟩
  · exact h.setPc_plain trivial
  · exact h.setErrno.ioFail
  · exact h.setPc_plain trivial

theorem Clean.getsockopt {t : Fin n} (h : s.Clean) (hs : s.getsockopt t = some s') :
    s'.Clean := by
  obtain ⟨c, -, rfl⟩ := getsockopt_cases hs
  exact h.setPc_plain trivial

theorem Clean.timeout {t : Fin n} {fault : Bool} (h : s.Clean)
    (hs : s.timeout t fault = some s') : s'.Clean := by
  obtain ⟨c, p, k, ok, pc, hc, ⟨hpc, -, -⟩, rfl⟩ := timeout_cases hs
  exact (h.fires rfl (Poller.cancelEvent_fires hc)).setPc_plain hpc

theorem Clean.dispatch {events : Mask} {fault : Bool} (h : s.Clean)
    (hs : s.dispatch fd events fault = some s') : s'.Clean := by
  obtain ⟨⟨p, k⟩, hd, hs⟩ := Option.bind_eq_some_iff.mp hs
  cases hs
  exact h.fires rfl (Poller.dispatch_fires h.indexed hd)

/-! ## `close` -/

/-- A `close` that returns when the number is in no table has left nothing behind. -/
theorem Clean.pushClosed {saw : List (Handed n)} {mark : Nat} (h : s.Clean)
    (hent : s.fm.entry fd = none) (hev : s.p.eventsOf fd = 0)
    (howed : ∀ x ∈ saw, x ∈ s.since mark) : (s.pushClosed fd saw mark).Clean := by
  refine h.push ⟨hent, hev, ?_⟩
  apply List.filter_eq_nil_iff.mpr
  intro x hx
  simpa using howed x hx

theorem Clean.close {t : Fin n} {hooked : Bool} (h : s.Clean)
    (hhook : hooked = true → s.NumberOk fd ∧
      (fd < s.fm.m_datas.length → s.fm.entry fd = none → s.p.eventsOf fd = 0))
    (hplain : hooked = false → s.fm.entry fd = none ∧ s.p.eventsOf fd = 0 ∧ ¬ s.InCreation fd)
    (hs : s.close t hooked fd = some s') : s'.Clean := by
  obtain ⟨-, hcase⟩ := close_cases hs
  rcases hcase with ⟨hh, rfl⟩ | ⟨hh, fm, l, r, hget, rfl⟩
  · obtain ⟨hent, hev, hcr⟩ := hplain hh
    refine (h.closeFile hent hev fun t ht => hcr ⟨t, ht⟩).pushClosed hent hev ?_
    intro x hx
    rw [registered_zero hev] at hx
    cases hx
  · obtain ⟨hnum, hzero⟩ := hhook hh
    have h₁ := h.get hnum hget l
    apply h₁.beginClose.setPc
    · intro fd' he
      cases he
    · intro fd' phase saw mark he
      cases he
      refine ⟨le_refl _, fun x hx => .inr hx, ?_, ?_⟩
      · intro hphase
        rcases FdManager.get_cases hget with ⟨hlt, rfl, hr⟩ | ⟨-, -, -, hr⟩
        · refine hzero hlt (Option.not_isSome_iff_eq_none.mp ?_)
          rw [← hr]
          exact fun hsome => hphase (if_pos hsome)
        · exact absurd (if_pos hr) hphase
      · intro hphase
        rcases FdManager.get_cases hget with ⟨-, rfl, hr⟩ | ⟨-, -, -, hr⟩
        · refine hr.symm.trans ?_
          split at hphase
          · cases hphase
          · next hnone => exact Option.not_isSome_iff_eq_none.mp hnone
        · rw [if_pos hr] at hphase
          cases hphase

theorem Clean.cancelAll {t : Fin n} {sche fault : Bool} (h : s.Clean)
    (hok : ∀ fd phase saw mark, s.pc t = .closing fd phase saw mark →
      s.p.eventsOf fd = 0 ∨ sche = true ∧ fault = false)
    (hs : s.cancelAll t sche fault = some s') : s'.Clean := by
  obtain ⟨fd, saw, mark, hpc, hcase⟩ := cancelAll_cases hs
  have hnext {s₁ : Sys n} (h₁ : s₁.Clean) (hpc₁ : s₁.pc = s.pc) (hev : s₁.p.eventsOf fd = 0) :
      (s₁.setPc t (.closing fd .del saw mark)).Clean := by
    apply h₁.setPc
    · intro fd' he
      cases he
    · intro fd' phase saw' mark' he
      cases he
      have hc := (h₁.num fd).closing t .cancelAll saw mark (by rw [hpc₁, hpc])
      exact ⟨hc.mark_le, hc.owed, fun _ => hev, fun he => by cases he⟩
  rcases hcase with ⟨rfl, rfl⟩ | ⟨rfl, p, k, ok, hc, rfl⟩
  · exact hnext h rfl ((hok fd _ saw mark hpc).resolve_right fun hg => by simp at hg)
  · have hv := (h.num fd).valid
    refine hnext (h.fires rfl (Poller.cancelAll_fires hv hc).1) rfl
      (Poller.cancelAll_clears hv (fun hne => ⟨?_, (h.num fd).present hne⟩) hc)
    obtain ⟨-, rfl⟩ := (hok fd _ saw mark hpc).resolve_left hne
    have hopen : s.fm.files fd ≠ none := fun hclosed => hne ((h.num fd).closed hclosed).2
    simpa [Sys.kernel, Option.isSome_iff_ne_none] using hopen

theorem Clean.del {t : Fin n} (h : s.Clean) (hs : s.del t = some s') : s'.Clean := by
  obtain ⟨fd, saw, mark, l, hpc, rfl⟩ := del_cases hs
  have hent : (s.fm.del fd).entry fd = none := FdManager.del_entry s.fm fd
  have h₁ := (h.touch (.del s.fm fd) fun hne => absurd hent hne).withLock l s.reading
  apply h₁.setPc
  · intro fd' he
    cases he
  · intro fd' phase saw' mark' he
    cases he
    have hc := (h.num fd).closing t .del saw mark hpc
    exact ⟨hc.mark_le, hc.owed, fun _ => hc.events (by simp), fun _ => hent⟩

theorem Clean.close_f {t : Fin n} (h : s.Clean)
    (hok : ∀ fd phase saw mark, s.pc t = .closing fd phase saw mark → ¬ s.InCreation fd)
    (hs : s.close_f t = some s') : s'.Clean := by
  obtain ⟨fd, saw, mark, hpc, rfl⟩ := close_f_cases hs
  have hc := (h.num fd).closing t .close_f saw mark hpc
  have hev : s.p.eventsOf fd = 0 := hc.events (by simp)
  have h₁ := h.closeFile (hc.entry rfl) hev fun u hu => hok fd _ saw mark hpc ⟨u, hu⟩
  refine (h₁.pushClosed (hc.entry rfl) hev ?_).endClose.setPc_plain trivial
  intro x hx
  rcases hc.owed x hx with hin | hin
  · exact hin
  · rw [registered_zero hev] at hin
    cases hin

/-! ## Runs -/

/-- A step that meets the condition keeps the tables clean. -/
theorem Clean.step {a : Act n} (h : s.Clean) (hok : s.tidy a = true) (hs : s.step a = some s') :
    s'.Clean := by
  cases a with
  | socket t hooked fd file => exact h.socket hs
  | register t =>
    refine h.register (fun fd hpc => ?_) hs
    simpa only [tidy, hpc, decide_eq_true_eq] using hok
  | openOther fd file => exact (h.openFile hs).1
  | io t hooked kind fd timed =>
    refine h.io (fun hh => ?_) hs
    simpa [tidy, hh] using hok
  | call t o => exact h.call hs
  | addEvent t fault =>
    refine h.addEvent (fun c hpc hfault => ?_) hs
    simpa [tidy, hpc, hfault] using hok
  | resume t => exact h.resume hs
  | getsockopt t => exact h.getsockopt hs
  | timeout t fault => exact h.timeout hs
  | pollerAddEvent fd event k fault =>
    obtain ⟨⟨s₁, rt⟩, hadd, rfl⟩ := Option.map_eq_some_iff.mp hs
    refine (h.pollerAddEvent (fun hfault => ?_) hadd).1
    simpa [tidy, hfault] using hok
  | dispatch fd events fault => exact h.dispatch hs
  | setsockopt hooked fd type v =>
    refine h.setsockopt (fun hh => ?_) hs
    simpa [tidy, hh] using hok
  | fcntl fd cmd ok => exact h.fcntl (of_decide_eq_true hok) hs
  | close t hooked fd =>
    refine h.close (fun hh => ?_) (fun hh => ?_) hs
    · subst hh
      exact of_decide_eq_true hok
    · subst hh
      exact of_decide_eq_true hok
  | cancelAll t sche fault =>
    refine h.cancelAll (fun fd phase saw mark hpc => ?_) hs
    simpa [tidy, hpc] using hok
  | del t => exact h.del hs
  | close_f t =>
    refine h.close_f (fun fd phase saw mark hpc => ?_) hs
    simpa only [tidy, hpc, decide_eq_true_eq] using hok
  | enter =>
    obtain ⟨l, k, rfl⟩ := enter_cases hs
    exact h.withLock l k
  | leave =>
    obtain ⟨l, k, rfl⟩ := leave_cases hs
    exact h.withLock l k

theorem clean_init (files : Nat → Option File) (pipe sche : Nat) :
    (init (n := n) files pipe sche).Clean where
  indexed fd c hc := by rw [Poller.new_get hc]; rfl
  log o ho := by cases ho
  num fd := by
    have hent : (FdManager.new files).entry fd = none := by
      unfold FdManager.entry FdManager.new
      rw [List.getElem?_replicate]
      split <;> rfl
    have hev : (Poller.new sche : Poller (Cb n)).eventsOf fd = 0 := by rw [Poller.new_eventsOf]
    refine ⟨fun _ => ⟨hent, hev⟩, ?_, fun hne => absurd hev hne, fun _ => hev, ?_, ?_, ?_⟩
    · change Valid ((Poller.new sche : Poller (Cb n)).eventsOf fd)
      rw [hev]
      exact Poller.valid_zero
    · intro t he
      cases he
    · intro t u he
      cases he
    · intro t phase saw mark he
      cases he

/-- In a run whose steps all meet the condition every `close` leaves nothing behind, every `socket`
and `accept` gets a new `FdCtx` and the next `addEvent` adds the number to the interest list. -/
theorem nothing_left_of_tidy (files : Nat → Option File) (pipe sche : Nat) (s : Sys n)
    (hr : ((lts n files pipe sche).restrict fun s a => s.tidy a = true).Reachable s) :
    ∀ o ∈ s.log, o.Good := by
  have hind : ((lts n files pipe sche).restrict fun s a => s.tidy a = true).Inductive Clean := by
    constructor
    · intro s hi
      subst hi
      exact clean_init files pipe sche
    · intro s a s' h hs
      exact h.step hs.2 hs.1
  exact (hind.reachable s hr).log

/-- A socket of a thread without the hook, which is in the poller alone: the hooked `close` leaves
its event, and the next `addEvent` on the number modifies what is not there. -/
theorem event_left_behind :
    ¬ ∀ s, (lts 1 (fun _ => none) 3 0).Reachable s → ∀ o ∈ s.log, o.Good := by
  intro h
  have hrun : (LTS.exec step (init (n := 1) (fun _ => none) 3 0)
      [.socket 0 false 5 ⟨true, 0, O_NONBLOCK⟩, .pollerAddEvent 5 .READ 0 false, .close 0 true 5,
        .close_f 0, .socket 0 true 5 ⟨true, 0, O_NONBLOCK⟩, .register 0,
        .pollerAddEvent 5 .READ 1 false]).any (fun s => decide
          (.closed 5 none Event.READ.mask [(0, some (.user 0))] ∈ s.log ∧
            .added 5 [.MOD] true ∈ s.log)) = true := by decide +kernel
  obtain ⟨s, hr, hb⟩ : ∃ s, (lts 1 (fun _ => none) 3 0).Reachable s ∧ decide
      (.closed 5 none Event.READ.mask [(0, some (.user 0))] ∈ s.log ∧
        .added 5 [.MOD] true ∈ s.log) = true :=
    LTS.exists_of_exec _ rfl hrun
  obtain ⟨-, hmod⟩ := of_decide_eq_true hb
  cases h s hr _ hmod rfl

/-- A pipe beyond the table, which a `read` has made an `FdCtx` of, is closed with an event; the
number is a new socket's afterwards. -/
theorem nothing_left_reused : ∃ s,
    ((lts 2 (fun _ => none) 3 0).restrict fun s a => s.tidy a = true).Reachable s ∧
    (.closed 200 none 0 [] ∈ s.log ∧ .opened 200 true (some (.fresh 200 true)) ∈ s.log ∧
      .added 200 [.ADD] true ∈ s.log) ∧ ∀ o ∈ s.log, o.Good := by
  have hrun : (LTS.execWith step tidy (init (n := 2) (fun _ => none) 3 0)
      [.openOther 200 ⟨false, 0, O_NONBLOCK⟩, .io 1 true .read 200 false,
        .call 1 ⟨10, .other, ⟨true, 0, 0⟩⟩, .pollerAddEvent 200 .READ 0 false, .close 0 true 200,
        .cancelAll 0 true false, .del 0, .close_f 0, .socket 0 true 200 ⟨true, 0, O_NONBLOCK⟩,
        .register 0, .pollerAddEvent 200 .READ 1 false]).any (fun s => decide
          (.closed 200 none 0 [] ∈ s.log ∧ .opened 200 true (some (.fresh 200 true)) ∈ s.log ∧
            .added 200 [.ADD] true ∈ s.log)) = true := by
    decide +kernel
  obtain ⟨s, hr, hb⟩ : ∃ s,
      ((lts 2 (fun _ => none) 3 0).restrict fun s a => s.tidy a = true).Reachable s ∧
      decide (.closed 200 none 0 [] ∈ s.log ∧ .opened 200 true (some (.fresh 200 true)) ∈ s.log ∧
        .added 200 [.ADD] true ∈ s.log) = true :=
    LTS.exists_of_execWith (fun _ _ h => h) _ rfl hrun
  exact ⟨s, hr, of_decide_eq_true hb, nothing_left_of_tidy _ 3 0 s hr⟩

end Sys
end Ppcode.Hook
