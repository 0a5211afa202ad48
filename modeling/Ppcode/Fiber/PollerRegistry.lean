import Ppcode.Core.Registry
import Ppcode.Fiber.Poller

/-!
# The `Poller` as a registry of waiters

A callback is named by the number of the `addEvent` call that brought it.
`Sys` adds to the `Poller` the callbacks that were accepted and those that
`delEvent` removed; a step is one operation, with any result of its `epoll_ctl`
call and any events returned by `epoll_wait`.

* `answered_of_ok`: if every step meets `Ok`, the `Poller` runs as a registry
  (`Sim`), so each accepted callback is answered exactly once (`Answered`).
* `answered_twice`: without `Ok` it does not. Both events are registered and
  fired by `EPOLLHUP`; one is registered again; the next `EPOLLHUP` fires the
  other one too, from what its context still holds.

`Ok` excludes two things that nothing in the source prevents: `addEvent` on an
event that is registered already, which overwrites its callback, and an entry
of the event loop with events beyond the registered ones, which the loop fires
as well (`cancelAll` tests each event before it fires it).
-/
namespace Ppcode.Poller

/-- One operation, with the result of its `epoll_ctl` call. -/
inductive Act where
  | addEvent (fd : Nat) (event : Event) (rt : CtlResult)
  | delEvent (fd : Nat) (event : Event) (rt : CtlResult)
  | cancelEvent (fd : Nat) (event : Event) (rt : CtlResult)
  | cancelAll (fd : Nat) (rt : CtlResult)
  | dispatch (fd : Nat) (events : Mask) (rt : CtlResult)
  /-- the array entry of the poller's own pipe
  mirrors src/fiber/poller.cc:263-268 -/
  | pipe

structure Sys where
  p : Poller Nat
  calls : Nat
  accepted : List ((Nat × Event) × Nat)
  /-- what `delEvent` calls that returned true found in the context -/
  removed : List ((Nat × Event) × Option Nat)

/-- The kernel answers `rt`. -/
def result (rt : CtlResult) : Unit → Nat → CtlOp → Mask → CtlResult × Unit := fun _ _ _ _ => (rt, ())

/-- The stored callback of an event. -/
def callback {Cb : Type} (p : Poller Cb) (x : Nat × Event) : Option Cb :=
  p.m_fdContexts[x.1]?.bind fun c => (c.getContext x.2).bind EventContext.cb_

def step (s : Sys) : Act → Option Sys
  | .addEvent fd event rt =>
    (addEvent (result rt) s.p () fd event s.calls).map fun (p, _, ret) =>
      { s with
        p := p, calls := s.calls + 1
        accepted := if ret = none then s.accepted ++ [((fd, event), s.calls)] else s.accepted }
  | .delEvent fd event rt =>
    (delEvent (result rt) s.p () fd event).map fun (p, _, ok) =>
      { s with
        p := p
        removed := if ok then s.removed ++ [((fd, event), s.p.callback (fd, event))]
          else s.removed }
  | .cancelEvent fd event rt =>
    (cancelEvent (result rt) s.p () fd event).map fun (p, _) => { s with p := p }
  | .cancelAll fd rt => (cancelAll (result rt) s.p () fd).map fun (p, _) => { s with p := p }
  | .dispatch fd events rt =>
    (dispatch (result rt) s.p () fd events).map fun (p, _) => { s with p := p }
  | .pipe => some s

def init (sche : Nat) : Sys := ⟨new sche, 0, [], []⟩

def lts (sche : Nat) : LTS Sys Act := LTS.ofFn (· = init sche) step

/-- How often the callback `k` was handed to `createFiber`. -/
def handed (s : Sys) (k : Nat) : Nat := (s.p.created.map Prod.snd).count (some k)

/-- `k` is registered for the event `x`. -/
def Registered (s : Sys) (x : Nat × Event) (k : Nat) : Prop :=
  ∃ ctx, s.p.waiting x = some ctx ∧ ctx.cb_ = some k

structure Answered (s : Sys) : Prop where
  at_most_once : ∀ x k, (x, k) ∈ s.accepted → handed s k ≤ 1
  settled : ∀ x k, (x, k) ∈ s.accepted → ¬ Registered s x k →
    (handed s k = 1 ∧ (x, some k) ∉ s.removed) ∨ (handed s k = 0 ∧ (x, some k) ∈ s.removed)
  no_other : ∀ y ∈ s.p.created, ∃ x k, y = (s.p.m_sche, some k) ∧ (x, k) ∈ s.accepted

/-- An accepted `addEvent` is for an event that is not registered, and events
that are fired are all registered. -/
def Ok {Cb : Type} (p : Poller Cb) : Act → Prop
  | .addEvent fd event rt => rt = none → (p.eventsOf fd).has event.mask = false
  | .dispatch fd events rt => rt = none → p.eventsOf fd &&& realEvents events ≠ 0 →
    realEvents events &&& ~~~p.eventsOf fd = 0
  | _ => True

instance {Cb : Type} (p : Poller Cb) : (a : Act) → Decidable (Ok p a)
  | .addEvent fd event rt =>
    inferInstanceAs (Decidable (rt = none → (p.eventsOf fd).has event.mask = false))
  | .dispatch fd events rt =>
    inferInstanceAs (Decidable (rt = none → p.eventsOf fd &&& realEvents events ≠ 0 →
      realEvents events &&& ~~~p.eventsOf fd = 0))
  | .delEvent .. | .cancelEvent .. | .cancelAll .. | .pipe => inferInstanceAs (Decidable True)

/-! ## The operations that fire -/

section Fires
variable {Cb : Type} {J : Poller Cb → Prop} {p p' : Poller Cb} {fd : Nat} {rt : CtlResult}
  (hfire : ∀ p p' fd e, J p → (p.eventsOf fd).has (Event.mask e) = true →
    p.fire fd e = some p' → J p')
include hfire

theorem fireIf_keeps {mask : Mask} {e : Event} (h : J p)
    (hreg : mask.has e.mask = true → (p.eventsOf fd).has e.mask = true)
    (hp : p.fireIf mask fd e = some p') : J p' := by
  unfold Poller.fireIf at hp
  split at hp
  · rename_i hm
    exact hfire _ _ _ _ h (hreg hm) hp
  · cases hp
    exact h

theorem cancelEvent_keeps {e : Event} {u : Unit} {ok : Bool} (h : J p)
    (hop : cancelEvent (result rt) p () fd e = some (p', u, ok)) : J p' := by
  rcases dropEvent_spec hop with ⟨-, rfl, -⟩ | ⟨c, rt', hc, hbit, -, hcase⟩
  · exact h
  · rcases hcase with ⟨-, -, rfl⟩ | ⟨-, -, hp⟩
    · exact h
    · exact hfire _ _ _ _ h (by rw [eventsOf_eq hc]; exact hbit) hp

theorem cancelAll_keeps {u : Unit} {ok : Bool} (h : J p)
    (hop : cancelAll (result rt) p () fd = some (p', u, ok)) : J p' := by
  rcases cancelAll_spec hop with ⟨-, rfl, -⟩ | ⟨c, rt', hc, -, hcase⟩
  · exact h
  · rcases hcase with ⟨-, -, rfl⟩ | ⟨-, -, p₁, c₁, hread, hc₁, hwrite⟩
    · exact h
    · have h₁ : J p₁ := fireIf_keeps hfire h (fun hb => by rw [eventsOf_eq hc]; exact hb) hread
      exact fireIf_keeps hfire h₁ (fun hb => by rw [eventsOf_eq hc₁]; exact hb) hwrite

theorem dispatch_keeps {events : Mask} {u : Unit} (h : J p) (hok : Ok p (.dispatch fd events rt))
    (hop : dispatch (result rt) p () fd events = some (p', u)) : J p' := by
  rcases dispatch_spec hop with ⟨rfl, -⟩ | ⟨c, rt', hc, hreal, hctl, hcase⟩
  · exact h
  · rcases hcase with ⟨-, rfl⟩ | ⟨hrt, p₁, hread, hwrite⟩
    · exact h
    · have hrt' : rt = none := by
        cases hctl
        exact hrt
      have hsub : ∀ e : Event, (realEvents events).has e.mask = true →
          (p.eventsOf fd).has e.mask = true := by
        intro e he
        have hz := congrArg (fun m : Mask => m.has e.mask)
          (hok hrt' (by rw [eventsOf_eq hc]; exact hreal))
        simp only [Mask.has_andNot, he, Bool.true_and] at hz
        simpa using hz
      have h₁ : J p₁ := fireIf_keeps hfire h (hsub .READ) hread
      refine fireIf_keeps hfire h₁ (fun he => ?_) hwrite
      rw [fireIf_eventsOf hread, Function.update_self]
      split
      · rw [Mask.has_andNot, hsub .WRITE he]
        rfl
      · exact hsub .WRITE he

end Fires

/-! ## Simulation by the registry -/

/-- `p` holds the waiters of the registry `r` and has handed over those that `r` has answered. -/
structure Sim (p : Poller Nat) (r : Registry (Nat × Event) Nat) : Prop where
  reach : (Registry.lts (Nat × Event) Nat).Reachable r
  waiting : ∀ x, p.waiting x = (r.waiting x).map fun w => ⟨some p.m_sche, some w⟩
  created : p.created = r.answered.map fun x => (p.m_sche, some x.2)

section Sim
variable {p p' : Poller Nat} {r : Registry (Nat × Event) Nat} {fd : Nat} {event : Event}

theorem Sim.grow (h : Sim p r) (fd : Nat) : Sim (p.grow fd) r where
  reach := h.reach
  waiting := by
    rw [grow_waiting, (grow_frame p fd).1]
    exact h.waiting
  created := by
    rw [(grow_frame p fd).1, (grow_frame p fd).2.1]
    exact h.created

/-- The three changes act on the registry's slot as they act on the context. -/
theorem Change.sim_waiting {w : Option (EventContext Nat)} {m : Mask} {w' : Option Nat}
    (c : Change p p' fd event w m) (h : ∀ x, p.waiting x = (r.waiting x).map
      fun w => ⟨some p.m_sche, some w⟩) (hw : w = w'.map fun w => ⟨some p.m_sche, some w⟩)
    (x : Nat × Event) : p'.waiting x =
      (Function.update r.waiting (fd, event) w' x).map fun w => ⟨some p'.m_sche, some w⟩ := by
  rw [c.waiting, c.sche]
  by_cases hx : x = (fd, event)
  · subst hx
    rw [Function.update_self, Function.update_self, hw]
  · rw [Function.update_of_ne hx, Function.update_of_ne hx, h x]

theorem Sim.register {k : Nat} (h : Sim p r) (hfree : p.waiting (fd, event) = none)
    (hk : k ∉ r.issued.map Prod.snd) (hp : p.register fd event k = some p') :
    ∃ r', Sim p' r' ∧ r'.issued = r.issued ++ [((fd, event), k)] ∧ r'.withdrawn = r.withdrawn := by
  obtain ⟨hc, -, hcr⟩ := register_spec hp
  have hr : r.waiting (fd, event) = none := by
    have := h.waiting (fd, event)
    rw [hfree] at this
    exact Option.map_eq_none_iff.mp this.symm
  refine ⟨r.put (fd, event) k, ?_, rfl, rfl⟩
  exact
    { reach := Registry.reachable_put h.reach hr hk
      waiting := hc.sim_waiting h.waiting rfl
      created := by
        rw [hcr, hc.sche]
        exact h.created }

theorem Sim.fire (h : Sim p r) (hreg : (p.eventsOf fd).has event.mask = true)
    (hp : p.fire fd event = some p') :
    ∃ r', Sim p' r' ∧ r'.issued = r.issued ∧ r'.withdrawn = r.withdrawn := by
  obtain ⟨hch, -, c, ctx, sche, hc, hctx, hsche, hcr⟩ := fire_spec hp
  have hw : p.waiting (fd, event) = some ctx := by
    rw [waiting_eq hc, if_pos (by rw [← eventsOf_eq hc]; exact hreg), hctx]
  rw [h.waiting] at hw
  obtain ⟨k, hk, rfl⟩ := Option.map_eq_some_iff.mp hw
  cases hsche
  refine ⟨r.answer (fd, event) k, ?_, rfl, rfl⟩
  exact
    { reach := Registry.reachable_answer h.reach hk
      waiting := hch.sim_waiting h.waiting rfl
      created := by
        rw [hcr, hch.sche, h.created, Registry.answer, List.map_append]
        rfl }

theorem Sim.remove (h : Sim p r) (hreg : (p.eventsOf fd).has event.mask = true)
    (hp : p.remove fd event = some p') :
    ∃ r' k, Sim p' r' ∧ r'.issued = r.issued ∧ p.callback (fd, event) = some k ∧
      r'.withdrawn = r.withdrawn ++ [((fd, event), k)] := by
  obtain ⟨hch, -, hcr⟩ := remove_spec hp
  have hw : p.waiting (fd, event) ≠ none := by
    rw [Ne, waiting_eq_none, hreg]
    decide
  obtain ⟨ctx, hctx⟩ := Option.ne_none_iff_exists'.mp hw
  have hcb : p.callback (fd, event) = ctx.cb_ := by
    unfold Poller.waiting at hctx
    obtain ⟨c, hc, hif⟩ := Option.bind_eq_some_iff.mp hctx
    split at hif
    · unfold callback
      rw [hc, Option.bind_some, hif]
      rfl
    · cases hif
  rw [h.waiting] at hctx
  obtain ⟨k, hk, rfl⟩ := Option.map_eq_some_iff.mp hctx
  refine ⟨r.withdraw (fd, event) k, k, ?_, rfl, hcb, rfl⟩
  exact
    { reach := Registry.reachable_withdraw h.reach hk
      waiting := hch.sim_waiting h.waiting rfl
      created := by
        rw [hcr, hch.sche]
        exact h.created }

end Sim

/-- As `Sim.fire`, for a registry that has the same issued and withdrawn waiters as before. -/
theorem Sim.fires {A : List ((Nat × Event) × Nat)} {B : List ((Nat × Event) × Nat)} :
    ∀ p p' : Poller Nat, ∀ fd event, (∃ r, Sim p r ∧ r.issued = A ∧ r.withdrawn = B) →
      (p.eventsOf fd).has (Event.mask event) = true → p.fire fd event = some p' →
      ∃ r, Sim p' r ∧ r.issued = A ∧ r.withdrawn = B := by
  intro p p' fd event h hreg hp
  obtain ⟨r, hs, hi, hw⟩ := h
  obtain ⟨r', hs', hi', hw'⟩ := hs.fire hreg hp
  exact ⟨r', hs', hi'.trans hi, hw'.trans hw⟩

/-! ## Runs -/

/-- The logs of `s` are those of the registry, whose waiters are named below `calls`. -/
structure SimSys (s : Sys) (r : Registry (Nat × Event) Nat) : Prop where
  sim : Sim s.p r
  accepted : s.accepted = r.issued
  removed : s.removed = r.withdrawn.map fun x => (x.1, some x.2)
  lt_calls : ∀ k ∈ r.issued.map Prod.snd, k < s.calls

theorem simSys_init (sche : Nat) : SimSys (init sche) Registry.empty where
  sim :=
    { reach := LTS.reachable_init rfl
      waiting := fun x => by
        obtain ⟨fd, e⟩ := x
        change (new sche).waiting (fd, e) = none
        rw [waiting_eq_none, new_eventsOf]
        exact Mask.has_zero e
      created := rfl }
  accepted := rfl
  removed := rfl
  lt_calls := fun k h => by cases h

/-- An operation that only fires or changes nothing. -/
theorem SimSys.keep {s : Sys} {r r' : Registry (Nat × Event) Nat} {p' : Poller Nat}
    (h : SimSys s r) (hs : Sim p' r') (hi : r'.issued = r.issued)
    (hw : r'.withdrawn = r.withdrawn) : SimSys { s with p := p' } r' where
  sim := hs
  accepted := by rw [hi]; exact h.accepted
  removed := by rw [hw]; exact h.removed
  lt_calls := by rw [hi]; exact h.lt_calls

theorem simSys_step {s s' : Sys} {r : Registry (Nat × Event) Nat} {a : Act} (h : SimSys s r)
    (hok : Ok s.p a) (hst : step s a = some s') : ∃ r', SimSys s' r' := by
  cases a with
  | addEvent fd event rt =>
    obtain ⟨⟨p', u, ret⟩, hop, rfl⟩ := Option.map_eq_some_iff.mp hst
    obtain ⟨c, hc, hctl, hcase⟩ := addEvent_spec hop
    have hlt : ∀ k ∈ r.issued.map Prod.snd, k < s.calls + 1 :=
      fun k hk => Nat.lt_succ_of_lt (h.lt_calls k hk)
    rcases hcase with ⟨hrt, rfl⟩ | ⟨hrt, hp⟩
    · refine ⟨r, h.sim.grow fd, ?_, h.removed, hlt⟩
      simp only [hrt, if_false]
      exact h.accepted
    · have hrt' : rt = none := by
        cases hctl
        exact hrt
      have hfree : (s.p.grow fd).waiting (fd, event) = none := by
        rw [grow_waiting, waiting_eq_none]
        exact hok hrt'
      have hnew : s.calls ∉ r.issued.map Prod.snd :=
        fun hm => Nat.lt_irrefl _ (h.lt_calls _ hm)
      obtain ⟨r', hs, hi, hw⟩ := (h.sim.grow fd).register hfree hnew hp
      refine ⟨r', hs, ?_, by rw [hw]; exact h.removed, ?_⟩
      · simp only [hrt, if_true, hi, h.accepted]
      · intro k hk
        rw [hi, List.map_append, List.mem_append] at hk
        rcases hk with hk | hk
        · exact hlt k hk
        · rw [List.mem_singleton.mp hk]
          exact Nat.lt_succ_self _
  | delEvent fd event rt =>
    obtain ⟨⟨p', u, ok⟩, hop, rfl⟩ := Option.map_eq_some_iff.mp hst
    rcases dropEvent_spec hop with ⟨rfl, rfl, -⟩ | ⟨c, rt', hc, hbit, -, hcase⟩
    · exact ⟨r, h.keep h.sim rfl rfl⟩
    · rcases hcase with ⟨-, rfl, rfl⟩ | ⟨-, rfl, hp⟩
      · exact ⟨r, h.keep h.sim rfl rfl⟩
      · rw [← eventsOf_eq hc] at hbit
        obtain ⟨r', k, hs, hi, hcb, hw⟩ := h.sim.remove hbit hp
        refine ⟨r', hs, by rw [hi]; exact h.accepted, ?_, by rw [hi]; exact h.lt_calls⟩
        simp only [if_true, hcb, hw, List.map_append, h.removed]
        rfl
  | cancelEvent fd event rt =>
    obtain ⟨⟨p', u, ok⟩, hop, rfl⟩ := Option.map_eq_some_iff.mp hst
    obtain ⟨r', hs, hi, hw⟩ := cancelEvent_keeps Sim.fires ⟨r, h.sim, rfl, rfl⟩ hop
    exact ⟨r', h.keep hs hi hw⟩
  | cancelAll fd rt =>
    obtain ⟨⟨p', u, ok⟩, hop, rfl⟩ := Option.map_eq_some_iff.mp hst
    obtain ⟨r', hs, hi, hw⟩ := cancelAll_keeps Sim.fires ⟨r, h.sim, rfl, rfl⟩ hop
    exact ⟨r', h.keep hs hi hw⟩
  | dispatch fd events rt =>
    obtain ⟨⟨p', u⟩, hop, rfl⟩ := Option.map_eq_some_iff.mp hst
    obtain ⟨r', hs, hi, hw⟩ := dispatch_keeps Sim.fires ⟨r, h.sim, rfl, rfl⟩ hok hop
    exact ⟨r', h.keep hs hi hw⟩
  | pipe =>
    cases hst
    exact ⟨r, h⟩

theorem simSys_reachable (sche : Nat) (s : Sys)
    (hr : ((lts sche).restrict fun s a => Ok s.p a).Reachable s) : ∃ r, SimSys s r := by
  have hind : ((lts sche).restrict fun s a => Ok s.p a).Inductive fun s => ∃ r, SimSys s r := by
    refine ⟨?_, ?_⟩
    · intro s hs
      rw [hs]
      exact ⟨_, simSys_init sche⟩
    · intro s a s' h hs
      obtain ⟨r, hr⟩ := h
      exact simSys_step hr hs.2 hs.1
  exact hind.reachable s hr

theorem SimSys.answered {s : Sys} {r : Registry (Nat × Event) Nat} (h : SimSys s r) :
    Answered s := by
  have hset := Registry.settled_reachable r h.sim.reach
  have hhanded : ∀ k, handed s k = (r.answered.map Prod.snd).count k := by
    intro k
    rw [handed, h.sim.created, List.map_map]
    have e : (Prod.snd ∘ fun x : (Nat × Event) × Nat => (s.p.m_sche, some x.2)) =
      some ∘ Prod.snd := rfl
    rw [e, ← List.map_map, List.count_map_of_injective _ some (Option.some_injective Nat)]
  have hremoved : ∀ x k, (x, some k) ∈ s.removed ↔ (x, k) ∈ r.withdrawn := by
    intro x k
    rw [h.removed]
    constructor
    · intro hm
      obtain ⟨y, hy, he⟩ := List.mem_map.mp hm
      cases he
      exact hy
    · intro hm
      exact List.mem_map.mpr ⟨(x, k), hm, rfl⟩
  have hle : ∀ k, handed s k ≤ 1 := by
    intro k
    rw [hhanded]
    exact List.nodup_iff_count_le_one.mp hset.answered_snd_nodup k
  refine ⟨fun x k _ => hle k, ?_, ?_⟩
  · intro x k hacc hreg
    rw [h.accepted] at hacc
    rw [hremoved, hhanded]
    cases hset.status _ hacc with
    | waiting hw _ _ =>
      refine absurd ⟨⟨some s.p.m_sche, some k⟩, ?_, rfl⟩ hreg
      rw [h.sim.waiting, hw]
      rfl
    | answered _ ha hw =>
      refine .inl ⟨?_, hw⟩
      exact List.count_eq_one_of_mem hset.answered_snd_nodup (List.mem_map.mpr ⟨_, ha, rfl⟩)
    | withdrawn _ ha hw =>
      refine .inr ⟨List.count_eq_zero.mpr fun hm => ?_, hw⟩
      -- a name is issued once, so the waiter answered under it is this one
      obtain ⟨y, hy, he⟩ := List.mem_map.mp hm
      have := List.inj_on_of_nodup_map hset.issued_nodup (hset.answered_issued y hy) hacc he
      exact ha (this ▸ hy)
  · intro y hy
    rw [h.sim.created] at hy
    obtain ⟨⟨x, k⟩, hx, rfl⟩ := List.mem_map.mp hy
    exact ⟨x, k, rfl, by rw [h.accepted]; exact hset.answered_issued _ hx⟩

/-- In a run whose steps meet `Ok` every accepted callback is answered exactly once. -/
theorem answered_of_ok (sche : Nat) (s : Sys)
    (hr : ((lts sche).restrict fun s a => Ok s.p a).Reachable s) : Answered s := by
  obtain ⟨r, h⟩ := simSys_reachable sche s hr
  exact h.answered

/-- Two waits on fd 5, a first `EPOLLHUP` fires both; one is registered again,
and the second `EPOLLHUP` fires both once more. -/
def hangUpRun : List Act :=
  [.addEvent 5 .READ none, .addEvent 5 .WRITE none, .dispatch 5 EPOLLHUP none,
   .addEvent 5 .READ none, .dispatch 5 EPOLLHUP none]

theorem answered_twice : ∃ s, (lts 0).Reachable s ∧ ¬ Answered s := by
  obtain ⟨s, hs, hb⟩ : ∃ s, (lts 0).Reachable s ∧
      decide ((((5, .WRITE), 1) : (Nat × Event) × Nat) ∈ s.accepted ∧ handed s 1 = 2) = true :=
    LTS.exists_of_exec (s := init 0) hangUpRun rfl (by decide)
  obtain ⟨hacc, htwo⟩ := of_decide_eq_true hb
  refine ⟨s, hs, fun h => ?_⟩
  have := h.at_most_once _ _ hacc
  omega

/-- The first half of that run meets `Ok`. -/
theorem answered_hangUp : ∃ s, ((lts 0).restrict fun s a => Ok s.p a).Reachable s ∧
    handed s 1 = 1 ∧ Answered s := by
  have hC : ∀ (s : Sys) (a : Act), decide (Ok s.p a) = true → Ok s.p a :=
    fun _ _ h => of_decide_eq_true h
  have hrun : (LTS.execWith step (fun s a => decide (Ok s.p a)) (init 0) (hangUpRun.take 3)).any
      (fun s => decide (handed s 1 = 1)) = true := by decide
  obtain ⟨s, hs, hb⟩ : ∃ s, ((lts 0).restrict fun s a => Ok s.p a).Reachable s ∧
      decide (handed s 1 = 1) = true := LTS.exists_of_execWith hC _ rfl hrun
  exact ⟨s, hs, of_decide_eq_true hb, answered_of_ok 0 s hs⟩

end Ppcode.Poller
