import Ppcode.Fiber.Poller

/-!
# The kernel's interest list and the `FdContext`s

The interest list is a map from fds to masks: `ADD` fails on a present fd,
`MOD` and `DEL` on an absent one, and any call may fail for another reason.
The poller starts with its pipe in the list (its constructor adds it), whose
`FdContext` has no events.

* `mirror`: for every fd but the pipe's, the list holds the events of the
  `FdContext` and `EPOLLET`, after any run of operations; the operation that
  each function chooses fits the list, and a call that fails changes nothing.
* `pipe_not_mirrored`: for the pipe itself none of this holds.
-/
namespace Ppcode.Poller
variable {Cb : Type}

/-- The interest list, whether the next call fails for a reason of its own, and
the result of the last call. -/
structure Kernel where
  entries : Nat → Option Mask
  fault : Bool
  last : Option CtlResult

def Kernel.ret (k : Kernel) (rt : CtlResult) (entries : Nat → Option Mask) : CtlResult × Kernel :=
  (rt, { k with entries := entries, last := some rt })

def Kernel.ctl (k : Kernel) (fd : Nat) (op : CtlOp) (mask : Mask) : CtlResult × Kernel :=
  if k.fault then k.ret (some .other) k.entries
  else match op, k.entries fd with
    | .ADD, none => k.ret none (Function.update k.entries fd (some mask))
    | .ADD, some _ => k.ret (some .EEXIST) k.entries
    | .MOD, some _ => k.ret none (Function.update k.entries fd (some mask))
    | .DEL, some _ => k.ret none (Function.update k.entries fd none)
    | .MOD, none | .DEL, none => k.ret (some .ENOENT) k.entries

/-- One operation. -/
inductive Op (Cb : Type) where
  | addEvent (fd : Nat) (event : Event) (cb : Cb)
  | delEvent (fd : Nat) (event : Event)
  | cancelEvent (fd : Nat) (event : Event)
  | cancelAll (fd : Nat)
  | dispatch (fd : Nat) (events : Mask)

def Op.fd : Op Cb → Nat
  | .addEvent fd _ _ | .delEvent fd _ | .cancelEvent fd _ | .cancelAll fd | .dispatch fd _ => fd

/-- `last` is the result of the `epoll_ctl` call of the last operation, if it made one. -/
structure Pair (Cb : Type) where
  p : Poller Cb
  entries : Nat → Option Mask
  last : Option CtlResult

def Op.run (p : Poller Cb) (k : Kernel) : Op Cb → Option (Poller Cb × Kernel)
  | .addEvent fd event cb => (Poller.addEvent Kernel.ctl p k fd event cb).map fun r => (r.1, r.2.1)
  | .delEvent fd event => (Poller.delEvent Kernel.ctl p k fd event).map fun r => (r.1, r.2.1)
  | .cancelEvent fd event => (Poller.cancelEvent Kernel.ctl p k fd event).map fun r => (r.1, r.2.1)
  | .cancelAll fd => (Poller.cancelAll Kernel.ctl p k fd).map fun r => (r.1, r.2.1)
  | .dispatch fd events => Poller.dispatch Kernel.ctl p k fd events

/-- An operation, and whether its call fails for a reason of its own. -/
def Pair.step (s : Pair Cb) (l : Op Cb × Bool) : Option (Pair Cb) :=
  (l.1.run s.p ⟨s.entries, l.2, none⟩).map fun r => ⟨r.1, r.2.entries, r.2.last⟩

/-- The constructor, whose pipe is read at the fd `pipe`.
mirrors src/fiber/poller.cc:40-49 -/
def Pair.init (pipe sche : Nat) : Pair Cb :=
  ⟨new sche, Function.update (fun _ => none) pipe (some (EPOLLIN ||| EPOLLET)), none⟩

def Pair.lts (Cb : Type) (pipe sche : Nat) : LTS (Pair Cb) (Op Cb × Bool) :=
  LTS.ofFn (· = Pair.init pipe sche) Pair.step

/-- The entry that fits the events of a context. -/
def entryFor (events : Mask) : Option Mask :=
  if events = Event.NONE.mask then none else some (EPOLLET ||| events)

/-- No event, callback or count has changed; the table may have grown. -/
structure Same (p p' : Poller Cb) : Prop where
  eventsOf : p'.eventsOf = p.eventsOf
  waiting : p'.waiting = p.waiting
  created : p'.created = p.created
  count : p'.m_pendingEventCount = p.m_pendingEventCount

/-- The `epoll_ctl` call of one operation, from `s` to `s'`: how it can fail, and
that nothing changes then. -/
structure StepLaw (s : Pair Cb) (op : Op Cb) (s' : Pair Cb) : Prop where
  not_EEXIST : s'.last ≠ some (some .EEXIST)
  ENOENT : s'.last = some (some .ENOENT) → ∃ fd, op = .cancelAll fd ∧ s.p.eventsOf fd = 0
  failed : ∀ e, s'.last = some (some e) → s'.entries = s.entries ∧ Same s.p s'.p

/-! ## The interest list -/

theorem ctl_last {k k' : Kernel} {fd : Nat} {op : CtlOp} {mask : Mask} {rt : CtlResult}
    (h : k.ctl fd op mask = (rt, k')) : k'.last = some rt := by
  unfold Kernel.ctl at h
  repeat' split at h
  all_goals cases h; rfl

/-- A call that fits the entry of the fd only fails for a reason of its own. -/
theorem ctl_fits {k k' : Kernel} {fd : Nat} {op : CtlOp} {mask : Mask} {rt : CtlResult}
    (h : k.ctl fd op mask = (rt, k')) (hfit : op = .ADD ↔ k.entries fd = none) :
    (rt = some .other ∧ k'.entries = k.entries) ∨
    (rt = none ∧ k'.entries =
      Function.update k.entries fd (if op = .DEL then none else some mask)) := by
  unfold Kernel.ctl at h
  split at h
  · cases h
    exact .inl ⟨rfl, rfl⟩
  · split at h
    · cases h
      exact .inr ⟨rfl, rfl⟩
    · rename_i hp
      rw [hp] at hfit
      exact absurd (hfit.mp rfl) nofun
    · cases h
      exact .inr ⟨rfl, rfl⟩
    · cases h
      exact .inr ⟨rfl, rfl⟩
    · rename_i hp
      exact absurd (hfit.mpr hp) nofun
    · rename_i hp
      exact absurd (hfit.mpr hp) nofun

/-- `DEL` on an absent fd. -/
theorem ctl_absent {k k' : Kernel} {fd : Nat} {mask : Mask} {rt : CtlResult}
    (h : k.ctl fd .DEL mask = (rt, k')) (hp : k.entries fd = none) :
    (rt = some .other ∨ rt = some .ENOENT) ∧ k'.entries = k.entries := by
  unfold Kernel.ctl at h
  rw [hp] at h
  split at h
  · cases h
    exact ⟨.inl rfl, rfl⟩
  · cases h
    exact ⟨.inr rfl, rfl⟩

/-! ## Masks -/

/-- The values that `events_` takes. -/
def Valid (m : Mask) : Prop := m ∈ [0, 1, 4, 5]

theorem valid_zero : Valid 0 := by unfold Valid; decide

theorem Valid.cases {m : Mask} (h : Valid m) : m = 0 ∨ m = 1 ∨ m = 4 ∨ m = 5 := by
  simpa [Valid] using h

theorem Valid.or {m : Mask} (h : Valid m) (e : Event) : Valid (m ||| e.mask) := by
  rcases h.cases with rfl | rfl | rfl | rfl <;> cases e <;> unfold Valid <;> decide

theorem Valid.andNot {m : Mask} (h : Valid m) (e : Event) : Valid (m &&& ~~~e.mask) := by
  rcases h.cases with rfl | rfl | rfl | rfl <;> cases e <;> unfold Valid <;> decide

theorem realEvents_valid (events : Mask) : Valid (realEvents events) := by
  unfold realEvents
  simp only
  repeat' split
  all_goals unfold Valid; decide

/-- `mask` without the events of `sub`, cleared one by one. -/
def clear (sub m : Mask) (e : Event) : Mask := if sub.has e.mask then m &&& ~~~e.mask else m

theorem Valid.clear {m : Mask} (h : Valid m) (sub : Mask) (e : Event) :
    Valid (clear sub m e) := by
  unfold Poller.clear
  split
  · exact h.andNot e
  · exact h

theorem clear_both {sub : Mask} (h : Valid sub) (m : Mask) :
    clear sub (clear sub m .READ) .WRITE = m &&& ~~~sub := by
  have hboth : m &&& ~~~(1 : Mask) &&& ~~~(4 : Mask) = m &&& ~~~(5 : Mask) := by
    rw [BitVec.and_assoc]
    rfl
  have hnone : m &&& ~~~(0 : Mask) = m := BitVec.and_allOnes
  rcases h.cases with rfl | rfl | rfl | rfl
  · rw [hnone]
    rfl
  · rfl
  · rfl
  · exact hboth

/-- `cancelAll` clears everything. -/
theorem clear_all {m : Mask} (h : Valid m) :
    clear (clear m m .READ) (clear m m .READ) .WRITE = 0 := by
  rcases h.cases with rfl | rfl | rfl | rfl <;> decide

/-! ## The invariant -/

structure Mirrors (pipe : Nat) (p : Poller Cb) (entries : Nat → Option Mask) : Prop where
  valid : ∀ fd, Valid (p.eventsOf fd)
  indexed : ∀ (fd : Nat) (c : FdContext Cb), p.m_fdContexts[fd]? = some c → c.fd_ = fd
  entry : ∀ fd, fd ≠ pipe → entries fd = entryFor (p.eventsOf fd)

section Mirrors
variable {pipe : Nat} {p p' : Poller Cb} {entries entries' : Nat → Option Mask} {fd : Nat}
  {e : Event}

theorem Mirrors.grow (h : Mirrors pipe p entries) (fd : Nat) :
    Mirrors pipe (p.grow fd) entries where
  valid := by rw [grow_eventsOf]; exact h.valid
  indexed fd' c hc := by
    rcases grow_get p fd fd' with he | ⟨-, he⟩
    · exact h.indexed fd' c (by rw [← he, hc])
    · rw [he] at hc
      cases hc
      rfl
  entry := by rw [grow_eventsOf]; exact h.entry

/-- The contexts `p'` differ from `p` in the events of `fd`, and the list follows. -/
theorem Mirrors.update {m : Mask} (h : Mirrors pipe p entries) (hm : Valid m)
    (hev : p'.eventsOf = Function.update p.eventsOf fd m)
    (hindex : ∀ (fd : Nat) (c : FdContext Cb), p'.m_fdContexts[fd]? = some c → c.fd_ = fd)
    (hent : entries' = Function.update entries fd (entryFor m)) : Mirrors pipe p' entries' where
  valid fd' := by
    rw [hev]
    by_cases hfd : fd' = fd
    · rw [hfd, Function.update_self]
      exact hm
    · rw [Function.update_of_ne hfd]
      exact h.valid fd'
  indexed := hindex
  entry fd' hne := by
    rw [hev, hent]
    by_cases hfd : fd' = fd
    · rw [hfd, Function.update_self, Function.update_self]
    · rw [Function.update_of_ne hfd, Function.update_of_ne hfd]
      exact h.entry fd' hne

theorem Change.indexed {w : Option (EventContext Cb)} {m : Mask} (c : Change p p' fd e w m)
    (h : ∀ (fd : Nat) (c : FdContext Cb), p.m_fdContexts[fd]? = some c → c.fd_ = fd) :
    ∀ (fd : Nat) (c : FdContext Cb), p'.m_fdContexts[fd]? = some c → c.fd_ = fd := by
  intro fd' c' hc'
  obtain ⟨c₀, hc₀, he⟩ := c.fd_ fd' c' hc'
  rw [he]
  exact h fd' c₀ hc₀

theorem fireIf_indexed {mask : Mask}
    (h : ∀ (fd : Nat) (c : FdContext Cb), p.m_fdContexts[fd]? = some c → c.fd_ = fd)
    (hp : p.fireIf mask fd e = some p') :
    ∀ (fd : Nat) (c : FdContext Cb), p'.m_fdContexts[fd]? = some c → c.fd_ = fd := by
  unfold fireIf at hp
  split at hp
  · exact (fire_spec hp).1.indexed h
  · cases hp
    exact h

/-- The two conditional `triggerEvent`s of `cancelAll` and of the event loop. -/
theorem fires_eventsOf {p₁ : Poller Cb} {mask mask₁ : Mask}
    (hread : p.fireIf mask fd .READ = some p₁) (hwrite : p₁.fireIf mask₁ fd .WRITE = some p') :
    p'.eventsOf = Function.update p.eventsOf fd
      (clear mask₁ (clear mask (p.eventsOf fd) .READ) .WRITE) := by
  rw [fireIf_eventsOf hwrite, fireIf_eventsOf hread, Function.update_self, Function.update_idem]
  rfl

/-- What `DEL` or `MOD` leaves in the list for the remaining events `m`. -/
theorem entryFor_left (m : Mask) :
    (if (if m = 0 then CtlOp.DEL else .MOD) = .DEL then none else some (EPOLLET ||| m)) =
      entryFor m := by
  by_cases hm : m = 0
  · subst hm
    rfl
  · have hm' : m ≠ Event.NONE.mask := hm
    rw [if_neg hm, if_neg (by decide), entryFor, if_neg hm']

theorem entryFor_eq_none {m : Mask} : entryFor m = none ↔ m = 0 := by
  unfold entryFor
  split
  · rename_i h
    exact iff_of_true rfl h
  · rename_i h
    exact iff_of_false nofun h

end Mirrors

/-! ## One operation -/

theorem Same.rfl {p : Poller Cb} : Same p p := ⟨Eq.refl _, Eq.refl _, Eq.refl _, Eq.refl _⟩

theorem Same.grow (p : Poller Cb) (fd : Nat) : Same p (p.grow fd) :=
  ⟨grow_eventsOf p fd, grow_waiting p fd, (grow_frame p fd).2.1, (grow_frame p fd).2.2⟩

section Laws
variable {s s' : Pair Cb} {op : Op Cb}

theorem StepLaw.no_call (h : s'.last = none) : StepLaw s op s' :=
  ⟨by rw [h]; nofun, by rw [h]; nofun, by rw [h]; nofun⟩

theorem StepLaw.ok (h : s'.last = some none) : StepLaw s op s' :=
  ⟨by rw [h]; nofun, by rw [h]; nofun, by rw [h]; nofun⟩

theorem StepLaw.other (h : s'.last = some (some .other)) (he : s'.entries = s.entries)
    (hp : Same s.p s'.p) : StepLaw s op s' :=
  ⟨by rw [h]; nofun, by rw [h]; nofun, fun _ _ => ⟨he, hp⟩⟩

end Laws

section Steps
variable {pipe : Nat} {p p' : Poller Cb} {k k' : Kernel} {fd : Nat}
  (h : Mirrors pipe p k.entries) (hfd : fd ≠ pipe)
include h hfd

/-- An operation has kept the two sides in step. -/
structure Outcome (pipe : Nat) (p : Poller Cb) (entries : Nat → Option Mask) (op : Op Cb)
    (p' : Poller Cb) (k' : Kernel) : Prop where
  mirrors : Mirrors pipe p' k'.entries
  law : ∀ last, StepLaw ⟨p, entries, last⟩ op ⟨p', k'.entries, k'.last⟩

theorem addEvent_outcome {event : Event} {cb : Cb} {rt : CtlResult}
    (hop : addEvent Kernel.ctl p k fd event cb = some (p', k', rt)) :
    Outcome pipe p k.entries (.addEvent fd event cb) p' k' := by
  obtain ⟨c, hc, hctl, hcase⟩ := addEvent_spec hop
  have hg := h.grow fd
  have hev : p.eventsOf fd = c.events_ := by rw [← grow_eventsOf p fd, eventsOf_eq hc]
  have hfit : (if c.events_ = 0 then CtlOp.ADD else .MOD) = .ADD ↔ k.entries fd = none := by
    rw [h.entry fd hfd, entryFor_eq_none, hev]
    split <;> simp_all
  have hlast := ctl_last hctl
  rcases ctl_fits hctl hfit with ⟨hrt, hent⟩ | ⟨hrt, hent⟩
  · subst hrt
    obtain ⟨-, rfl⟩ := hcase.resolve_right nofun
    refine ⟨by rw [hent]; exact hg, fun last => .other hlast hent (Same.grow p fd)⟩
  · subst hrt
    obtain ⟨-, hp⟩ := hcase.resolve_left fun hn => hn.1 rfl
    obtain ⟨hch, -, -⟩ := register_spec hp
    refine ⟨?_, fun last => .ok hlast⟩
    refine hg.update ((hg.valid fd).or event) hch.eventsOf (hch.indexed hg.indexed) ?_
    have hop : (if c.events_ = 0 then CtlOp.ADD else .MOD) ≠ .DEL := by split <;> nofun
    have hne : c.events_ ||| event.mask ≠ Event.NONE.mask := by
      intro h0
      have hbit := congrArg (fun m : Mask => m.has event.mask) h0
      simp only [Mask.has_or, Event.mask_has] at hbit
      simp [hch.ne_none] at hbit
    rw [hent, if_neg hop, grow_eventsOf, hev, entryFor, if_neg hne, BitVec.or_assoc,
      BitVec.or_comm event.mask]

theorem dropEvent_outcome {good : CtlResult → Bool}
    {act : Poller Cb → Nat → Event → Option (Poller Cb)} {op : Op Cb} {event : Event} {ok : Bool}
    (hgood : good none = true) (hbad : good (some .other) = false)
    (hact : ∀ p', act p fd event = some p' → ∃ w,
      Change p p' fd event w (p.eventsOf fd &&& ~~~event.mask))
    (hop : dropEvent Kernel.ctl good act p k fd event = some (p', k', ok)) (hlast : k.last = none) :
    Outcome pipe p k.entries op p' k' := by
  rcases dropEvent_spec hop with ⟨-, rfl, rfl⟩ | ⟨c, rt, hc, hbit, hctl, hcase⟩
  · exact ⟨h, fun last => .no_call hlast⟩
  · have hev := eventsOf_eq hc
    have hfit : (if c.events_ &&& ~~~event.mask = 0 then CtlOp.DEL else .MOD) = .ADD ↔
        k.entries fd = none := by
      rw [h.entry fd hfd, entryFor_eq_none, hev]
      refine iff_of_false (by split <;> nofun) fun h0 => ?_
      rw [h0] at hbit
      simp at hbit
    have hlast := ctl_last hctl
    rcases ctl_fits hctl hfit with ⟨hrt, hent⟩ | ⟨hrt, hent⟩
    · subst hrt
      obtain ⟨-, -, rfl⟩ := hcase.resolve_right fun hg => by simp [hbad] at hg
      exact ⟨by rw [hent]; exact h, fun last => .other hlast hent Same.rfl⟩
    · subst hrt
      obtain ⟨-, -, hp⟩ := hcase.resolve_left fun hg => by simp [hgood] at hg
      obtain ⟨w, hch⟩ := hact p' hp
      refine ⟨?_, fun last => .ok hlast⟩
      refine h.update ((h.valid fd).andNot event) hch.eventsOf (hch.indexed h.indexed) ?_
      rw [hent, hev, entryFor_left]

theorem cancelAll_outcome {ok : Bool}
    (hop : cancelAll Kernel.ctl p k fd = some (p', k', ok)) (hlast : k.last = none) :
    Outcome pipe p k.entries (.cancelAll fd) p' k' := by
  rcases cancelAll_spec hop with ⟨-, rfl, rfl⟩ | ⟨c, rt, hc, hctl, hcase⟩
  · exact ⟨h, fun last => .no_call hlast⟩
  · have hev := eventsOf_eq hc
    have hlast := ctl_last hctl
    have hentry := h.entry fd hfd
    by_cases h0 : c.events_ = 0
    · have habs : k.entries fd = none := by rw [hentry, entryFor_eq_none, hev, h0]
      obtain ⟨hrt, hent⟩ := ctl_absent hctl habs
      have hne : rt ≠ none := by
        rcases hrt with rfl | rfl <;> nofun
      obtain ⟨-, -, rfl⟩ := hcase.resolve_right fun hg => hne hg.1
      refine ⟨by rw [hent]; exact h, fun last => ?_⟩
      rcases hrt with rfl | rfl
      · exact .other hlast hent Same.rfl
      · refine ⟨?_, fun _ => ⟨fd, rfl, by rw [hev, h0]⟩, fun _ _ => ⟨hent, Same.rfl⟩⟩
        rw [hlast]
        nofun
    · have hfit : CtlOp.DEL = .ADD ↔ k.entries fd = none := by
        rw [hentry, entryFor_eq_none, hev]
        exact iff_of_false nofun h0
      rcases ctl_fits hctl hfit with ⟨hrt, hent⟩ | ⟨hrt, hent⟩
      · subst hrt
        obtain ⟨-, -, rfl⟩ := hcase.resolve_right fun hg => nomatch hg.1
        exact ⟨by rw [hent]; exact h, fun last => .other hlast hent Same.rfl⟩
      · subst hrt
        obtain ⟨-, -, p₁, c₁, hread, hc₁, hwrite⟩ := hcase.resolve_left fun hn => hn.1 rfl
        refine ⟨?_, fun last => .ok hlast⟩
        have hev₁ : c₁.events_ = clear c.events_ c.events_ .READ := by
          rw [← eventsOf_eq hc₁, fireIf_eventsOf hread, Function.update_self, hev]
          rfl
        have hfires := fires_eventsOf hread hwrite
        rw [hev₁, hev, clear_all (by rw [← hev]; exact h.valid fd)] at hfires
        refine h.update valid_zero hfires
          (fireIf_indexed (fireIf_indexed h.indexed hread) hwrite) ?_
        rw [hent]
        rfl

theorem dispatch_outcome {events : Mask}
    (hop : dispatch Kernel.ctl p k fd events = some (p', k')) (hlast : k.last = none) :
    Outcome pipe p k.entries (.dispatch fd events) p' k' := by
  rcases dispatch_spec hop with ⟨rfl, rfl⟩ | ⟨c, rt, hc, hreal, hctl, hcase⟩
  · exact ⟨h, fun last => .no_call hlast⟩
  · have hev := eventsOf_eq hc
    have hlast := ctl_last hctl
    rw [h.indexed fd c hc] at hctl
    have hfit : (if c.events_ &&& ~~~realEvents events = 0 then CtlOp.DEL else .MOD) = .ADD ↔
        k.entries fd = none := by
      rw [h.entry fd hfd, entryFor_eq_none, hev]
      refine iff_of_false (by split <;> nofun) fun h0 => ?_
      rw [h0] at hreal
      simp at hreal
    rcases ctl_fits hctl hfit with ⟨hrt, hent⟩ | ⟨hrt, hent⟩
    · subst hrt
      obtain ⟨-, rfl⟩ := hcase.resolve_right fun hg => nomatch hg.1
      exact ⟨by rw [hent]; exact h, fun last => .other hlast hent Same.rfl⟩
    · subst hrt
      obtain ⟨-, p₁, hread, hwrite⟩ := hcase.resolve_left fun hn => hn.1 rfl
      refine ⟨?_, fun last => .ok hlast⟩
      have hreal := realEvents_valid events
      have hfires := fires_eventsOf hread hwrite
      have hvalid := ((h.valid fd).clear (realEvents events) .READ).clear (realEvents events) .WRITE
      rw [clear_both hreal] at hfires hvalid
      refine h.update hvalid hfires
        (fireIf_indexed (fireIf_indexed h.indexed hread) hwrite) ?_
      rw [hent, hev, entryFor_left]

end Steps

theorem run_outcome {pipe : Nat} {p p' : Poller Cb} {k k' : Kernel} {op : Op Cb}
    (h : Mirrors pipe p k.entries) (hfd : op.fd ≠ pipe) (hlast : k.last = none)
    (hop : op.run p k = some (p', k')) : Outcome pipe p k.entries op p' k' := by
  cases op with
  | addEvent fd event cb =>
    obtain ⟨⟨p₁, k₁, rt⟩, hr, he⟩ := Option.map_eq_some_iff.mp hop
    cases he
    exact addEvent_outcome h hfd hr
  | delEvent fd event =>
    obtain ⟨⟨p₁, k₁, ok⟩, hr, he⟩ := Option.map_eq_some_iff.mp hop
    cases he
    exact dropEvent_outcome h hfd rfl rfl (fun _ hp => ⟨_, (remove_spec hp).1⟩) hr hlast
  | cancelEvent fd event =>
    obtain ⟨⟨p₁, k₁, ok⟩, hr, he⟩ := Option.map_eq_some_iff.mp hop
    cases he
    exact dropEvent_outcome h hfd rfl rfl (fun _ hp => ⟨_, (fire_spec hp).1⟩) hr hlast
  | cancelAll fd =>
    obtain ⟨⟨p₁, k₁, ok⟩, hr, he⟩ := Option.map_eq_some_iff.mp hop
    cases he
    exact cancelAll_outcome h hfd hr hlast
  | dispatch fd events => exact dispatch_outcome h hfd hop hlast

theorem mirrors_step {pipe : Nat} {s s' : Pair Cb} {l : Op Cb × Bool}
    (h : Mirrors pipe s.p s.entries) (hfd : l.1.fd ≠ pipe) (hst : s.step l = some s') :
    Mirrors pipe s'.p s'.entries ∧ StepLaw s l.1 s' := by
  obtain ⟨⟨p', k'⟩, hr, rfl⟩ := Option.map_eq_some_iff.mp hst
  have ho := run_outcome (k := ⟨s.entries, l.2, none⟩) h hfd rfl hr
  exact ⟨ho.mirrors, ho.law s.last⟩

theorem mirrors_init (pipe sche : Nat) :
    Mirrors pipe (Pair.init pipe sche : Pair Cb).p (Pair.init pipe sche : Pair Cb).entries where
  valid fd := by
    change Valid ((new sche : Poller Cb).eventsOf fd)
    rw [new_eventsOf]
    exact valid_zero
  indexed fd c hc := by
    rw [new_get hc]
    rfl
  entry fd hne := by
    change Function.update (fun _ => none) pipe _ fd = entryFor ((new sche : Poller Cb).eventsOf fd)
    rw [Function.update_of_ne hne, new_eventsOf]
    rfl

/-- The steps that leave the pipe's fd alone. -/
def OffPipe (pipe : Nat) (_ : Pair Cb) (l : Op Cb × Bool) : Prop := l.1.fd ≠ pipe

/-- For every fd but the pipe's the interest list mirrors the contexts, and the
operation that each function chooses fits the list. -/
theorem mirror (pipe sche : Nat) (s : Pair Cb)
    (hr : ((Pair.lts Cb pipe sche).restrict (OffPipe pipe)).Reachable s) :
    (∀ fd, fd ≠ pipe → s.entries fd = entryFor (s.p.eventsOf fd)) ∧
    ∀ l s', s.step l = some s' → l.1.fd ≠ pipe → StepLaw s l.1 s' := by
  have hind : ((Pair.lts Cb pipe sche).restrict (OffPipe pipe)).Inductive fun s =>
      Mirrors pipe s.p s.entries := by
    refine ⟨?_, ?_⟩
    · intro s hs
      rw [hs]
      exact mirrors_init pipe sche
    · intro s l s' h hs
      exact (mirrors_step h hs.2 hs.1).1
  have h := hind.reachable s hr
  exact ⟨h.entry, fun l s' hst hfd => (mirrors_step h hfd hst).2⟩

/-- The pipe's fd is in the list from the start, its context has no events, and
`addEvent` on it fails with `EEXIST`. -/
theorem pipe_not_mirrored : ∃ s : Pair Nat, (Pair.lts Nat 3 0).Reachable s ∧
    s.p.eventsOf 3 = 0 ∧ s.entries 3 ≠ none ∧ s.last = some (some .EEXIST) := by
  have hrun : (LTS.exec Pair.step (Pair.init 3 0) [(.addEvent 3 .READ 0, false)]).any
      (fun s => decide (s.p.eventsOf 3 = 0 ∧ s.entries 3 ≠ none ∧
        s.last = some (some .EEXIST))) = true := by decide
  obtain ⟨s, hs, hb⟩ : ∃ s : Pair Nat, (Pair.lts Nat 3 0).Reachable s ∧
      decide (s.p.eventsOf 3 = 0 ∧ s.entries 3 ≠ none ∧ s.last = some (some .EEXIST)) = true :=
    LTS.exists_of_exec _ rfl hrun
  exact ⟨s, hs, of_decide_eq_true hb⟩

/-- An `addEvent` on fd 5, and one whose call fails. -/
theorem mirror_addEvent : ∃ s : Pair Nat,
    ((Pair.lts Nat 3 0).restrict (OffPipe 3)).Reachable s ∧
    s.entries 5 = entryFor (s.p.eventsOf 5) ∧ s.entries 5 = some (EPOLLET ||| 1) := by
  have hC : ∀ (s : Pair Nat) (l : Op Nat × Bool), decide (l.1.fd ≠ 3) = true → OffPipe 3 s l :=
    fun _ l h => of_decide_eq_true (p := l.1.fd ≠ 3) h
  have hrun : (LTS.execWith Pair.step (fun _ l => decide (l.1.fd ≠ 3)) (Pair.init 3 0)
      [(.addEvent 5 .READ (0 : Nat), false), (.addEvent 5 .WRITE 1, true)]).any
      (fun s => decide (s.entries 5 = some (EPOLLET ||| 1))) = true := by decide
  obtain ⟨s, hs, hb⟩ : ∃ s, ((Pair.lts Nat 3 0).restrict (OffPipe 3)).Reachable s ∧
      decide (s.entries 5 = some (EPOLLET ||| 1)) = true := LTS.exists_of_execWith hC _ rfl hrun
  exact ⟨s, hs, (mirror 3 0 s hs).1 5 (by decide), of_decide_eq_true hb⟩

end Ppcode.Poller
