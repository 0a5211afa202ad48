import Ppcode.Fiber.PollerMirror

/-!
# What an operation does to one number

The operations of `Poller` against the interest list, as far as one fd is concerned:
those that fire callbacks (`FiresWith`: `cancelEvent`, `cancelAll` and the event loop) leave
fewer events and hand over each callback that goes. `cancelAll` leaves no event unless its call
of the kernel fails (`cancelAll_clears`).
-/
namespace Ppcode.Poller
variable {Cb : Type} {p p' p₁ : Poller Cb} {k k' : Kernel} {fd : Nat} {e : Event}

/-- The contexts are those of their indices. -/
def Indexed (p : Poller Cb) : Prop :=
  ∀ (fd : Nat) (c : FdContext Cb), p.m_fdContexts[fd]? = some c → c.fd_ = fd

theorem Indexed.grow (h : Indexed p) (fd : Nat) : Indexed (p.grow fd) := by
  intro fd' c hc
  rcases grow_get p fd fd' with he | ⟨-, he⟩
  · exact h fd' c (by rw [← he, hc])
  · rw [he] at hc
    cases hc
    rfl

/-- Callbacks of `fd` were fired, and nothing else was done. -/
structure Fires (p p' : Poller Cb) (fd : Nat) : Prop where
  events : ∀ fd', fd' ≠ fd → p'.eventsOf fd' = p.eventsOf fd'
  none : p.eventsOf fd = 0 → p'.eventsOf fd = 0
  valid : Valid (p.eventsOf fd) → Valid (p'.eventsOf fd)
  others : ∀ fd' e, fd' ≠ fd → p'.waiting (fd', e) = p.waiting (fd', e)
  handed : ∀ e ctx s, p.waiting (fd, e) = some ctx → ctx.scheduler_ = some s →
    p'.waiting (fd, e) = some ctx ∨ (s, ctx.cb_) ∈ p'.created.drop p.created.length
  created : p.created <+: p'.created
  indexed : Indexed p → Indexed p'

theorem Fires.refl (p : Poller Cb) (fd : Nat) : Fires p p fd :=
  ⟨fun _ _ => rfl, id, id, fun _ _ _ => rfl, fun _ _ _ h _ => .inl h, List.prefix_refl _, id⟩

/-- What was handed over in the meantime is handed over in the longer meantime. -/
theorem mem_drop_mono {A : Type} {l l' : List A} {x : A} {m : Nat} (h : l <+: l')
    (hx : x ∈ l.drop m) : x ∈ l'.drop m := by
  obtain ⟨r, rfl⟩ := h
  rw [List.drop_append]
  exact List.mem_append_left _ hx

theorem mem_drop_of_le {A : Type} {l : List A} {x : A} {m m' : Nat} (h : m ≤ m')
    (hx : x ∈ l.drop m') : x ∈ l.drop m :=
  List.mem_of_mem_drop (i := m' - m) (by rwa [List.drop_drop, Nat.add_sub_cancel' h])

theorem Fires.trans (h : Fires p p₁ fd) (h' : Fires p₁ p' fd) : Fires p p' fd where
  events fd' hne := (h'.events fd' hne).trans (h.events fd' hne)
  none h0 := h'.none (h.none h0)
  valid hv := h'.valid (h.valid hv)
  others fd' e hne := (h'.others fd' e hne).trans (h.others fd' e hne)
  handed e ctx s hw hs := by
    rcases h.handed e ctx s hw hs with hw₁ | hc
    · rcases h'.handed e ctx s hw₁ hs with hw' | hc
      · exact .inl hw'
      · exact .inr (mem_drop_of_le h.created.length_le hc)
    · exact .inr (mem_drop_mono h'.created hc)
  created := h.created.trans h'.created
  indexed hi := h'.indexed (h.indexed hi)

theorem Fires.fire (h : p.fire fd e = some p') : Fires p p' fd := by
  obtain ⟨hch, -, c, ctx, s, hc, hctx, hs, hcr⟩ := fire_spec h
  have hne {fd' : Nat} (e' : Event) (h : fd' ≠ fd) : (fd', e') ≠ (fd, e) := by simp [h]
  refine ⟨?_, ?_, ?_, ?_, ?_, ?_, ?_⟩
  · intro fd' hfd
    rw [hch.eventsOf, Function.update_of_ne hfd]
  · intro h0
    rw [hch.eventsOf, Function.update_self, h0]
    exact BitVec.zero_and
  · intro hv
    rw [hch.eventsOf, Function.update_self]
    exact hv.andNot e
  · intro fd' e' hfd
    rw [hch.waiting, Function.update_of_ne (hne e' hfd)]
  · intro e' ctx' s' hw hs'
    by_cases he : e' = e
    · subst he
      rw [waiting_eq hc] at hw
      split at hw
      · rw [hctx] at hw
        cases hw
        rw [hs] at hs'
        cases hs'
        exact .inr (by simp [hcr])
      · cases hw
    · exact .inl (by rw [hch.waiting, Function.update_of_ne (by simp [he]), hw])
  · exact ⟨_, hcr.symm⟩
  · intro hi fd' c' hc'
    obtain ⟨c₀, hc₀, hfd⟩ := hch.fd_ fd' c' hc'
    rw [hfd]
    exact hi fd' c₀ hc₀

theorem Fires.fireIf {mask : Mask} (h : p.fireIf mask fd e = some p') : Fires p p' fd := by
  unfold Poller.fireIf at h
  split at h
  · exact .fire h
  · cases h
    exact .refl p fd

/-! ## The interest list -/

theorem ctl_result {op : CtlOp} {mask : Mask} {rt : CtlResult}
    (h : k.ctl fd op mask = (rt, k')) :
    (rt ≠ none ∧ k'.entries = k.entries) ∨
    (rt = none ∧ k'.entries =
      Function.update k.entries fd (if op = .DEL then none else some mask)) := by
  unfold Kernel.ctl at h
  repeat' split at h
  all_goals cases h
  all_goals simp

/-- `DEL` on a present fd. -/
theorem ctl_present {mask : Mask} {rt : CtlResult} (h : k.ctl fd .DEL mask = (rt, k'))
    (hfault : k.fault = false) (hp : k.entries fd ≠ none) : rt = none := by
  unfold Kernel.ctl at h
  rw [hfault] at h
  cases he : k.entries fd with
  | none => exact absurd he hp
  | some m =>
    simp only [he, Bool.false_eq_true, if_false] at h
    cases h
    rfl

/-- Callbacks of `fd` were fired, and the interest list follows. -/
structure FiresWith (p : Poller Cb) (k : Kernel) (p' : Poller Cb) (k' : Kernel) (fd : Nat) :
    Prop where
  fires : Fires p p' fd
  entries : ∀ fd', fd' ≠ fd → k'.entries fd' = k.entries fd'
  present : (p.eventsOf fd ≠ 0 → k.entries fd ≠ none) →
    p'.eventsOf fd ≠ 0 → k'.entries fd ≠ none

theorem FiresWith.unchanged (h : k'.entries = k.entries) : FiresWith p k p k' fd :=
  ⟨.refl p fd, fun _ _ => by rw [h], fun hk => by rw [h]; exact hk⟩

/-- The call of the kernel has succeeded for the events `m` that are left. -/
theorem FiresWith.ok {m mask : Mask} (h : Fires p p' fd)
    (hm : p'.eventsOf fd = m) (he : k'.entries =
      Function.update k.entries fd (if (if m = 0 then CtlOp.DEL else .MOD) = .DEL then none
        else some mask)) : FiresWith p k p' k' fd where
  fires := h
  entries fd' hne := by rw [he, Function.update_of_ne hne]
  present _ h0 := by
    rw [hm] at h0
    rw [he, Function.update_self, if_neg h0]
    simp

theorem cancelEvent_fires {ok : Bool}
    (h : cancelEvent Kernel.ctl p k fd e = some (p', k', ok)) : FiresWith p k p' k' fd := by
  rcases dropEvent_spec h with ⟨-, rfl, rfl⟩ | ⟨c, rt, hc, -, hctl, hcase⟩
  · exact .unchanged rfl
  · rcases ctl_result hctl with ⟨hrt, he⟩ | ⟨hrt, he⟩
    · obtain ⟨-, -, rfl⟩ := hcase.resolve_right fun hg => hrt (of_decide_eq_true hg.1)
      exact .unchanged he
    · obtain ⟨-, -, hf⟩ := hcase.resolve_left fun hg => by simp [hrt] at hg
      refine .ok (.fire hf) ?_ he
      rw [(fire_spec hf).1.eventsOf, Function.update_self, eventsOf_eq hc]

theorem dispatch_fires {events : Mask} (hi : Indexed p)
    (h : dispatch Kernel.ctl p k fd events = some (p', k')) : FiresWith p k p' k' fd := by
  rcases dispatch_spec h with ⟨rfl, rfl⟩ | ⟨c, rt, hc, -, hctl, hcase⟩
  · exact .unchanged rfl
  · rw [hi fd c hc] at hctl
    rcases ctl_result hctl with ⟨hrt, he⟩ | ⟨hrt, he⟩
    · obtain ⟨-, rfl⟩ := hcase.resolve_right fun hg => hrt hg.1
      exact .unchanged he
    · obtain ⟨-, p₁, hread, hwrite⟩ := hcase.resolve_left fun hg => hg.1 hrt
      refine .ok ((Fires.fireIf hread).trans (.fireIf hwrite)) ?_ he
      rw [fires_eventsOf hread hwrite, Function.update_self, clear_both (realEvents_valid events),
        eventsOf_eq hc]

theorem cancelAll_fires {ok : Bool} (hv : Valid (p.eventsOf fd))
    (h : cancelAll Kernel.ctl p k fd = some (p', k', ok)) :
    FiresWith p k p' k' fd ∧ (ok = true → p'.eventsOf fd = 0) := by
  rcases cancelAll_spec h with ⟨rfl, rfl, rfl⟩ | ⟨c, rt, hc, hctl, hcase⟩
  · exact ⟨.unchanged rfl, fun h => nomatch h⟩
  · rcases ctl_result hctl with ⟨hrt, he⟩ | ⟨hrt, he⟩
    · obtain ⟨-, rfl, rfl⟩ := hcase.resolve_right fun hg => hrt hg.1
      exact ⟨.unchanged he, fun h => nomatch h⟩
    · obtain ⟨-, -, p₁, c₁, hread, hc₁, hwrite⟩ := hcase.resolve_left fun hg => hg.1 hrt
      have hev := eventsOf_eq hc
      have hev₁ : c₁.events_ = clear c.events_ c.events_ .READ := by
        rw [← eventsOf_eq hc₁, fireIf_eventsOf hread, Function.update_self, hev]
        rfl
      have hzero : p'.eventsOf fd = 0 := by
        rw [fires_eventsOf hread hwrite, Function.update_self, hev₁, hev,
          clear_all (by rw [← hev]; exact hv)]
      exact ⟨.ok ((Fires.fireIf hread).trans (.fireIf hwrite)) hzero (by rw [he]; rfl),
        fun _ => hzero⟩

/-- `cancelAll` leaves no event, if its call of the kernel succeeds on an fd that has one. -/
theorem cancelAll_clears {ok : Bool} (hv : Valid (p.eventsOf fd))
    (hk : p.eventsOf fd ≠ 0 → k.fault = false ∧ k.entries fd ≠ none)
    (h : cancelAll Kernel.ctl p k fd = some (p', k', ok)) : p'.eventsOf fd = 0 := by
  obtain ⟨hf, hok⟩ := cancelAll_fires hv h
  by_cases h0 : p.eventsOf fd = 0
  · exact hf.fires.none h0
  · obtain ⟨hfault, hp⟩ := hk h0
    have hlen : ¬ p.m_fdContexts.length < fd := by
      intro hlt
      apply h0
      rw [eventsOf, List.getElem?_eq_none (Nat.le_of_lt hlt)]
      rfl
    cases hok' : ok with
    | true => exact hok hok'
    | false =>
      subst hok'
      simp only [cancelAll, Option.bind_eq_bind, if_neg hlen] at h
      obtain ⟨c, hc, h⟩ := Option.bind_eq_some_iff.mp h
      generalize hctl : k.ctl fd .DEL 0 = res at h
      obtain ⟨rt, k₁⟩ := res
      have hrt := ctl_present hctl hfault hp
      subst hrt
      obtain ⟨p₁, -, h⟩ := Option.bind_eq_some_iff.mp h
      obtain ⟨c₁, -, h⟩ := Option.bind_eq_some_iff.mp h
      obtain ⟨p₂, -, h⟩ := Option.bind_eq_some_iff.mp h
      cases h

end Ppcode.Poller
