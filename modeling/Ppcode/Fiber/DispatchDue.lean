import Ppcode.Fiber.PollerMirror

/-!
# Which callbacks the event loop fires

For what `epoll_wait` returns for a context the loop is to fire the callbacks that
are due: those of the registered events among `READ`, if the mask has `EPOLLIN`,
and `WRITE`, if it has `EPOLLOUT`, and both on `EPOLLERR` and `EPOLLHUP`.
`networkPoller` takes `EPOLLOUT` for `READ` and `EPOLLIN` for `WRITE`
(:281-286), and it fires what the mask says, not what is registered of it
(:305-312).

* `firesDue_iff`: when `epoll_ctl` succeeds, exactly the due callbacks are fired,
  if and only if the two mistakes make no difference: nothing is registered, or
  nothing is reported, or both events are both.
* `fires_null`: a peer hangs up on a socket that somebody reads from; the loop
  goes on to the scheduler of the writer, which is null.
-/
namespace Ppcode.Poller
variable {Cb σ : Type}

/-- The mask that `epoll_wait` returned reports an event. -/
def reports (events : Mask) : Event → Bool
  | .READ => events.has (EPOLLIN ||| EPOLLERR ||| EPOLLHUP)
  | .WRITE => events.has (EPOLLOUT ||| EPOLLERR ||| EPOLLHUP)
  | .NONE => false

/-- The event is registered, and its callback is to be fired. -/
def due (c : FdContext Cb) (events : Mask) (e : Event) : Bool :=
  c.events_.has e.mask && reports events e

/-- A set of events as `events_` holds it. -/
def maskOf (s : Event → Bool) : Mask :=
  (if s .READ then Event.READ.mask else 0) ||| (if s .WRITE then Event.WRITE.mask else 0)

/-- The call of `createFiber` for the callback of an event. -/
def handover (c : FdContext Cb) (e : Event) : Option (Nat × Option Cb) :=
  (c.getContext e).bind fun ctx => ctx.scheduler_.map fun sche => (sche, ctx.cb_)

/-- `fd`'s context was `c`, and the callbacks of the events `s` were fired. -/
structure Fired (p p' : Poller Cb) (fd : Nat) (c : FdContext Cb) (s : Event → Bool) : Prop where
  /-- one call of `createFiber` for each -/
  created : ∃ calls, p'.created = p.created ++ calls ∧
    (calls.map some).Perm (([Event.READ, Event.WRITE].filter s).map (handover c))
  count : p'.m_pendingEventCount =
    p.m_pendingEventCount - ([Event.READ, Event.WRITE].filter s).length
  context : ∃ c', p'.m_fdContexts[fd]? = some c' ∧ c'.events_ = c.events_ &&& ~~~maskOf s ∧
    ∀ e, s e = false → c'.getContext e = c.getContext e
  others : ∀ fd', fd' ≠ fd → p'.m_fdContexts[fd']? = p.m_fdContexts[fd']?

/-- The loop fires the callbacks that are due, and no others. -/
def FiresDue (ctl : σ → Nat → CtlOp → Mask → CtlResult × σ) (p : Poller Cb) (k : σ) (fd : Nat)
    (c : FdContext Cb) (events : Mask) : Prop :=
  ∃ p' k', dispatch ctl p k fd events = some (p', k') ∧ Fired p p' fd c (due c events)

/-- Nothing is registered, or nothing is reported, or both events are registered, with their
schedulers, and both are reported. -/
def Unmixed (c : FdContext Cb) (events : Mask) : Prop :=
  (∀ e : Event, c.events_.has e.mask = false) ∨ (∀ e, reports events e = false) ∨
    ∀ e, e ≠ .NONE → c.events_.has e.mask = true ∧ reports events e = true ∧ (handover c e).isSome

/-! ## The three encodings -/

theorem has_or_bits (m a b : Mask) : Mask.has m (a ||| b) = (m.has a || m.has b) := by
  unfold Mask.has
  rw [BitVec.and_or_distrib_left]
  cases ha : m &&& a != 0 with
  | true =>
    have hne : ¬ (m &&& a ||| m &&& b) = 0 := by
      intro h0
      rw [(BitVec.or_eq_zero_iff.mp h0).1] at ha
      exact absurd ha (by decide)
    simpa using hne
  | false =>
    have hz : m &&& a = 0 := by simpa using ha
    rw [hz, Bool.false_or]
    congr 1
    exact BitVec.zero_or

theorem has_self_or (m : Mask) : Mask.has (m ||| (EPOLLIN ||| EPOLLOUT)) EPOLLIN = true ∧
    Mask.has (m ||| (EPOLLIN ||| EPOLLOUT)) EPOLLOUT = true := by
  have hin := Mask.has_or m (EPOLLIN ||| EPOLLOUT) .READ
  have hout := Mask.has_or m (EPOLLIN ||| EPOLLOUT) .WRITE
  refine ⟨hin.trans ?_, hout.trans ?_⟩
  · rw [show Mask.has (EPOLLIN ||| EPOLLOUT) Event.READ.mask = true from rfl, Bool.or_true]
  · rw [show Mask.has (EPOLLIN ||| EPOLLOUT) Event.WRITE.mask = true from rfl, Bool.or_true]

/-- `real_events` is what the mask reports, with the events exchanged. -/
theorem realEvents_eq (events : Mask) : realEvents events =
    maskOf fun e => match e with
      | .READ => reports events .WRITE
      | .WRITE => reports events .READ
      | .NONE => false := by
  have hin : reports events .READ =
      (events.has EPOLLIN || events.has (EPOLLERR ||| EPOLLHUP)) := by
    simp only [reports, has_or_bits, Bool.or_assoc]
  have hout : reports events .WRITE =
      (events.has EPOLLOUT || events.has (EPOLLERR ||| EPOLLHUP)) := by
    simp only [reports, has_or_bits, Bool.or_assoc]
  simp only [maskOf, hin, hout]
  unfold realEvents
  cases herr : events.has (EPOLLERR ||| EPOLLHUP) with
  | true =>
    obtain ⟨h1, h2⟩ := has_self_or events
    simp only [if_true, h1, h2, Bool.or_true]
    rfl
  | false =>
    simp only [Bool.false_eq_true, if_false, Bool.or_false]
    cases events.has EPOLLIN <;> cases events.has EPOLLOUT <;> rfl

theorem maskOf_has (s : Event → Bool) (e : Event) (he : e ≠ .NONE) :
    (maskOf s).has e.mask = s e := by
  unfold maskOf
  rw [Mask.has_or]
  cases e with
  | NONE => exact absurd rfl he
  | READ => cases s .READ <;> cases s .WRITE <;> rfl
  | WRITE => cases s .READ <;> cases s .WRITE <;> rfl

theorem real_has_read (events : Mask) :
    (realEvents events).has Event.READ.mask = reports events .WRITE := by
  rw [realEvents_eq, maskOf_has _ _ (by decide)]

theorem real_has_write (events : Mask) :
    (realEvents events).has Event.WRITE.mask = reports events .READ := by
  rw [realEvents_eq, maskOf_has _ _ (by decide)]

/-- The test that nothing registered is in `real_events`. -/
theorem and_real_eq_zero (m events : Mask) : m &&& realEvents events = 0 ↔
    (m.has Event.READ.mask && reports events .WRITE) = false ∧
      (m.has Event.WRITE.mask && reports events .READ) = false := by
  rw [realEvents_eq]
  unfold maskOf
  simp only
  have hr : m.has Event.READ.mask = false ↔ m &&& Event.READ.mask = 0 := by simp [Mask.has]
  have hw : m.has Event.WRITE.mask = false ↔ m &&& Event.WRITE.mask = 0 := by simp [Mask.has]
  cases reports events .WRITE <;> cases reports events .READ <;>
    simp [hr, hw, BitVec.and_or_distrib_left]

/-! ## The loop -/

section Loop
variable {ctl : σ → Nat → CtlOp → Mask → CtlResult × σ} {p p' p₁ : Poller Cb} {k : σ} {fd : Nat}
  {c : FdContext Cb} {events : Mask}

/-- Firing hands the callback over and clears the bit, whether it was set or not. -/
theorem fire_iff {e : Event} (hc : p.m_fdContexts[fd]? = some c) : p.fire fd e = some p' ↔
    ∃ call, handover c e = some call ∧
      p' = { p.put fd { c with events_ := c.events_ &&& ~~~e.mask } (p.m_pendingEventCount - 1) with
        created := p.created ++ [call] } := by
  simp only [fire, FdContext.triggerEvent, handover, hc, Option.bind_eq_bind, Option.bind_some]
  cases c.getContext e with
  | none => simp
  | some ctx =>
    cases hs : ctx.scheduler_ with
    | none => simp [hs]
    | some sche => simp [hs, eq_comm]

theorem dispatch_quiet (hc : p.m_fdContexts[fd]? = some c) (h0 : c.events_ &&& realEvents events = 0) :
    dispatch ctl p k fd events = some (p, k) := by
  simp only [dispatch, hc, Option.bind_eq_bind, Option.bind_some]
  exact if_pos h0

theorem dispatch_ready (hc : p.m_fdContexts[fd]? = some c)
    (hok : ∀ op mask, (ctl k c.fd_ op mask).1 = none) (h0 : c.events_ &&& realEvents events ≠ 0) :
    ∃ k', dispatch ctl p k fd events = (p.fireIf (realEvents events) fd .READ).bind fun p₁ =>
      (p₁.fireIf (realEvents events) fd .WRITE).map fun p' => (p', k') := by
  simp only [dispatch, hc, Option.bind_eq_bind, Option.bind_some]
  rw [if_neg (by exact h0)]
  have hrt := hok (if c.events_ &&& ~~~realEvents events = 0 then .DEL else .MOD)
    (EPOLLET ||| (c.events_ &&& ~~~realEvents events))
  generalize ctl k _ _ _ = res at hrt ⊢
  obtain ⟨rt, k'⟩ := res
  subst hrt
  refine ⟨k', ?_⟩
  cases p.fireIf (realEvents events) fd .READ with
  | none => rfl
  | some p₁ => cases h : p₁.fireIf (realEvents events) fd .WRITE <;> simp [h]

/-- `fireIf` for the two events in turn, as far as the bits and the number of calls go. -/
theorem fireIf_counts {mask : Mask} {e : Event} (he : e ≠ .NONE)
    (hc : p.m_fdContexts[fd]? = some c) (h : p.fireIf mask fd e = some p') :
    ∃ c', p'.m_fdContexts[fd]? = some c' ∧ (∀ e', handover c' e' = handover c e') ∧
      (∀ e' : Event, c'.events_.has e'.mask =
        (c.events_.has e'.mask && !(mask.has e.mask && decide (e' = e)))) ∧
      p'.created.length = p.created.length + (mask.has e.mask).toNat ∧
      (mask.has e.mask = true → (handover c e).isSome) := by
  unfold fireIf at h
  cases hm : mask.has e.mask with
  | false =>
    rw [hm, if_neg (by decide)] at h
    cases h
    exact ⟨c, hc, fun _ => rfl, fun _ => by simp, rfl, nofun⟩
  | true =>
    rw [hm, if_pos rfl] at h
    obtain ⟨call, hcall, rfl⟩ := (fire_iff hc).mp h
    refine ⟨{ c with events_ := c.events_ &&& ~~~e.mask }, ?_, fun e' => ?_, fun e' => ?_, ?_,
      fun _ => by rw [hcall]; rfl⟩
    · exact (put_get p (p.m_pendingEventCount - 1) hc fd).trans (if_pos rfl)
    · cases e' <;> rfl
    · simp only [Mask.has_andNot, Event.mask_has]
      by_cases hee : e' = e
      · subst hee
        simp [he]
      · simp [hee, Ne.symm hee]
    · simp

/-- What the callbacks of `s` leave, and how many they are. -/
theorem Fired.counts {s : Event → Bool} (h : Fired p p' fd c s) :
    (∀ c', p'.m_fdContexts[fd]? = some c' → ∀ e : Event, e ≠ .NONE →
      c'.events_.has e.mask = (c.events_.has e.mask && !s e)) ∧
    p'.created.length = p.created.length + (s .READ).toNat + (s .WRITE).toNat := by
  obtain ⟨calls, hcalls, hperm⟩ := h.created
  obtain ⟨c₁, hc₁, hevents, -⟩ := h.context
  refine ⟨fun c' hc' e he => ?_, ?_⟩
  · rw [hc₁] at hc'
    cases hc'
    rw [hevents, Mask.has_andNot, maskOf_has s e he]
  · have hlen := hperm.length_eq
    rw [hcalls, List.length_append]
    simp only [List.length_map] at hlen
    rw [hlen]
    cases hr : s .READ <;> cases hw : s .WRITE <;> simp [hr, hw]

theorem Fired.nothing {s : Event → Bool} (hc : p.m_fdContexts[fd]? = some c)
    (hs : s .READ = false ∧ s .WRITE = false) : Fired p p fd c s where
  created := ⟨[], by simp, by simp [hs.1, hs.2]⟩
  count := by simp [hs.1, hs.2]
  context := by
    refine ⟨c, hc, ?_, fun _ _ => rfl⟩
    simp only [maskOf, hs.1, hs.2, Bool.false_eq_true, if_false]
    exact BitVec.and_allOnes.symm
  others _ _ := rfl

/-- Both callbacks are fired. -/
theorem Fired.both {s : Event → Bool} {r w : Nat × Option Cb} (hc : p.m_fdContexts[fd]? = some c)
    (hs : s .READ = true ∧ s .WRITE = true) (hr : handover c .READ = some r)
    (hw : handover c .WRITE = some w) {mask : Mask}
    (hmask : mask.has Event.READ.mask = true ∧ mask.has Event.WRITE.mask = true) :
    ∃ p₁ p', p.fireIf mask fd .READ = some p₁ ∧ p₁.fireIf mask fd .WRITE = some p' ∧
      Fired p p' fd c s := by
  have hread := (fire_iff hc).mpr ⟨r, hr, rfl⟩
  generalize hp₁ : ({ p.put fd { c with events_ := c.events_ &&& ~~~Event.READ.mask }
    (p.m_pendingEventCount - 1) with created := p.created ++ [r] } : Poller Cb) = p₁ at hread
  have hget (fd' : Nat) : p₁.m_fdContexts[fd']? = if fd' = fd
      then some { c with events_ := c.events_ &&& ~~~Event.READ.mask }
      else p.m_fdContexts[fd']? := by
    rw [← hp₁]
    exact put_get p (p.m_pendingEventCount - 1) hc fd'
  have hc₁ := (hget fd).trans (if_pos rfl)
  have hw₁ : handover { c with events_ := c.events_ &&& ~~~Event.READ.mask } .WRITE = some w := hw
  have hwrite := (fire_iff hc₁).mpr ⟨w, hw₁, rfl⟩
  refine ⟨p₁, _, by rw [fireIf, if_pos hmask.1, hread], by rw [fireIf, if_pos hmask.2, hwrite], ?_⟩
  refine
    { created := ⟨[r, w], ?_, ?_⟩
      count := ?_
      context := ⟨_, (put_get p₁ (p₁.m_pendingEventCount - 1) hc₁ fd).trans (if_pos rfl), ?_,
        fun e he => ?_⟩
      others := fun fd' hne => ?_ }
  · rw [← hp₁]
    simp
  · simp [hs.1, hs.2, hr, hw]
  · rw [← hp₁]
    simp only [put, List.filter, hs.1, hs.2, List.length_cons, List.length_nil]
    omega
  · simp only [maskOf, hs.1, hs.2, if_true]
    rw [BitVec.and_assoc]
    congr 1
  · cases e with
    | NONE => rfl
    | READ => rw [hs.1] at he; cases he
    | WRITE => rw [hs.2] at he; cases he
  · exact ((put_get p₁ (p₁.m_pendingEventCount - 1) hc₁ fd').trans (if_neg hne)).trans
      ((hget fd').trans (if_neg hne))

/-- For what is true of `NONE` anyway. -/
theorem Event.forall_iff {P : Event → Prop} (h : P .NONE) :
    (∀ e, P e) ↔ P .READ ∧ P .WRITE := by
  constructor
  · exact fun hall => ⟨hall _, hall _⟩
  · intro hex e
    cases e with
    | NONE => exact h
    | READ => exact hex.1
    | WRITE => exact hex.2

/-- The condition, as far as the four bits go. -/
theorem unmixed_iff : Unmixed c events ↔
    (c.events_.has Event.READ.mask = false ∧ c.events_.has Event.WRITE.mask = false) ∨
    (reports events .READ = false ∧ reports events .WRITE = false) ∨
    ((c.events_.has Event.READ.mask = true ∧ reports events .READ = true ∧
        (handover c .READ).isSome) ∧
      c.events_.has Event.WRITE.mask = true ∧ reports events .WRITE = true ∧
        (handover c .WRITE).isSome) := by
  unfold Unmixed
  rw [Event.forall_iff (by rw [Mask.has_event]), Event.forall_iff (by rfl),
    Event.forall_iff (fun h => absurd rfl h)]
  simp

/-- The loop does not come near the context: that is right if no callback is due. -/
theorem firesDue_quiet (hc : p.m_fdContexts[fd]? = some c)
    (h0 : c.events_ &&& realEvents events = 0) :
    FiresDue ctl p k fd c events ↔ Unmixed c events := by
  rw [unmixed_iff]
  obtain ⟨hrw, hwr⟩ := (and_real_eq_zero _ _).mp h0
  constructor
  · intro hex
    obtain ⟨p', k', hdisp, hfired⟩ := hex
    rw [dispatch_quiet hc h0] at hdisp
    cases hdisp
    have hbits := hfired.counts.1 c hc
    have hread := hbits .READ (by decide)
    have hwrite := hbits .WRITE (by decide)
    simp only [due] at hread hwrite
    revert hrw hwr hread hwrite
    cases c.events_.has Event.READ.mask <;> cases c.events_.has Event.WRITE.mask <;>
      cases reports events .READ <;> cases reports events .WRITE <;> simp
  · intro hun
    refine ⟨p, k, dispatch_quiet hc h0, Fired.nothing hc ?_⟩
    unfold due
    revert hun hrw hwr
    cases c.events_.has Event.READ.mask <;> cases c.events_.has Event.WRITE.mask <;>
      cases reports events .READ <;> cases reports events .WRITE <;> simp

/-- The loop fires for what `events` has: that is right if both callbacks are due. -/
theorem firesDue_ready (hc : p.m_fdContexts[fd]? = some c)
    (hok : ∀ op mask, (ctl k c.fd_ op mask).1 = none) (h0 : c.events_ &&& realEvents events ≠ 0) :
    FiresDue ctl p k fd c events ↔ Unmixed c events := by
  rw [unmixed_iff]
  obtain ⟨k', hdisp⟩ := dispatch_ready (k := k) hc hok h0
  have hfires : ¬ ((c.events_.has Event.READ.mask && reports events .WRITE) = false ∧
      (c.events_.has Event.WRITE.mask && reports events .READ) = false) :=
    fun h => h0 ((and_real_eq_zero _ _).mpr h)
  constructor
  · intro hex
    obtain ⟨p', k₁, hp', hfired⟩ := hex
    rw [hdisp] at hp'
    obtain ⟨p₁, hp₁, hp'⟩ := Option.bind_eq_some_iff.mp hp'
    obtain ⟨p₂, hp₂, he⟩ := Option.map_eq_some_iff.mp hp'
    cases he
    obtain ⟨c₁, hc₁, hover₁, hbits₁, hlen₁, hsome₁⟩ := fireIf_counts (by decide) hc hp₁
    obtain ⟨c₂, hc₂, hover₂, hbits₂, hlen₂, hsome₂⟩ := fireIf_counts (by decide) hc₁ hp₂
    have hread := hbits₂ .READ
    have hwrite := hbits₂ .WRITE
    rw [hfired.counts.1 c₂ hc₂ _ (by decide), hbits₁] at hread hwrite
    have hlen := hfired.counts.2
    rw [hlen₂, hlen₁, Nat.add_assoc, Nat.add_assoc, Nat.add_left_cancel_iff] at hlen
    rw [real_has_read] at hread hwrite hlen hsome₁
    rw [real_has_write] at hread hwrite hlen hsome₂
    rw [hover₁] at hsome₂
    simp only [due] at hread hwrite hlen
    revert hfires hread hwrite hlen hsome₁ hsome₂
    cases c.events_.has Event.READ.mask <;> cases c.events_.has Event.WRITE.mask <;>
      cases reports events .READ <;> cases reports events .WRITE <;> simp
    exact fun hr hw => ⟨hr, hw⟩
  · intro hun
    have hboth : (c.events_.has Event.READ.mask = true ∧ reports events .READ = true ∧
        (handover c .READ).isSome) ∧ c.events_.has Event.WRITE.mask = true ∧
        reports events .WRITE = true ∧ (handover c .WRITE).isSome := by
      rcases hun with hnone | hnone | hboth
      · exact absurd (by simp [hnone.1, hnone.2]) hfires
      · exact absurd (by simp [hnone.1, hnone.2]) hfires
      · exact hboth
    obtain ⟨⟨hr, har, hsr⟩, hw, haw, hsw⟩ := hboth
    obtain ⟨r, hr'⟩ := Option.isSome_iff_exists.mp hsr
    obtain ⟨w, hw'⟩ := Option.isSome_iff_exists.mp hsw
    have hdue : due c events .READ = true ∧ due c events .WRITE = true := by
      simp [due, hr, hw, har, haw]
    have hmask : (realEvents events).has Event.READ.mask = true ∧
        (realEvents events).has Event.WRITE.mask = true := by
      rw [real_has_read, real_has_write]
      exact ⟨haw, har⟩
    obtain ⟨p₁, p', hp₁, hp', hfired⟩ := Fired.both hc hdue hr' hw' hmask
    exact ⟨p', k', by rw [hdisp, hp₁, Option.bind_some, hp']; rfl, hfired⟩

/-- When `epoll_ctl` succeeds, the loop fires the callbacks that are due, and no others, if and
only if it cannot mix up the events. -/
theorem firesDue_iff (ctl : σ → Nat → CtlOp → Mask → CtlResult × σ) (p : Poller Cb) (k : σ)
    (fd : Nat) (c : FdContext Cb) (events : Mask) (hc : p.m_fdContexts[fd]? = some c)
    (hok : ∀ op mask, (ctl k c.fd_ op mask).1 = none) :
    FiresDue ctl p k fd c events ↔ Unmixed c events := by
  by_cases h0 : c.events_ &&& realEvents events = 0
  · exact firesDue_quiet hc h0
  · exact firesDue_ready hc hok h0

end Loop

/-- Some fiber waits for fd 5, as `c` says. -/
def waitingOn (c : FdContext Nat) : Poller Nat := (new 0).put 5 c 1

theorem waitingOn_get (c : FdContext Nat) : (waitingOn c).m_fdContexts[5]? = some c := rfl

/-- A kernel whose `epoll_ctl` succeeds. -/
def willing (k : Unit) (_ : Nat) (_ : CtlOp) (_ : Mask) : CtlResult × Unit := (none, k)

/-- A reader and a writer of a socket whose peer hangs up. -/
theorem firesDue_hangUp :
    FiresDue willing (waitingOn ⟨⟨some 0, some 7⟩, ⟨some 0, some 8⟩, 5, 5⟩) () 5
      ⟨⟨some 0, some 7⟩, ⟨some 0, some 8⟩, 5, 5⟩ (EPOLLIN ||| EPOLLHUP) :=
  (firesDue_iff willing _ () 5 _ _ (waitingOn_get _) fun _ _ => rfl).mpr
    (unmixed_iff.mpr (.inr (.inr (by decide))))

/-- A reader alone: the loop calls through the null scheduler of the writer. -/
theorem fires_null :
    dispatch willing (waitingOn ⟨⟨some 0, some 7⟩, ⟨none, none⟩, 5, 1⟩) () 5
      (EPOLLIN ||| EPOLLHUP) = none ∧
    ¬ FiresDue willing (waitingOn ⟨⟨some 0, some 7⟩, ⟨none, none⟩, 5, 1⟩) () 5
      ⟨⟨some 0, some 7⟩, ⟨none, none⟩, 5, 1⟩ (EPOLLIN ||| EPOLLHUP) := by
  have hnone : dispatch willing (waitingOn ⟨⟨some 0, some 7⟩, ⟨none, none⟩, 5, 1⟩) () 5
      (EPOLLIN ||| EPOLLHUP) = none := rfl
  refine ⟨hnone, fun hex => ?_⟩
  obtain ⟨p', k', hdisp, -⟩ := hex
  rw [hnone] at hdisp
  cases hdisp

end Ppcode.Poller
