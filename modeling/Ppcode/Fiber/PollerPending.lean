import Mathlib.Algebra.BigOperators.Group.Finset.Piecewise
import Ppcode.Fiber.PollerRegistry

/-!
# `Poller::m_pendingEventCount`

The counter goes up with every `addEvent` that succeeds and down with every
callback that is fired or removed. It equals the number of registered events as
long as each of these changes a bit of `events_`, which is the condition `Ok`
again (`pending_of_ok`): an `addEvent` on a registered event counts it twice,
and an event that the loop fires without being registered is subtracted all the
same, at worst from 0 (`pending_below_zero`).
-/
namespace Ppcode.Poller
variable {Cb : Type}

/-- The number of pairs `(fd, e)` with `e` set in `events_` of the context of `fd`. -/
def pairs (p : Poller Cb) : Nat :=
  ((Finset.range p.m_fdContexts.length ×ˢ {Event.READ, Event.WRITE}).filter
    fun x => (p.eventsOf x.1).has x.2.mask = true).card

/-- How many events a mask has. -/
def bits (m : Mask) : Nat :=
  (if m.has Event.READ.mask = true then 1 else 0) + (if m.has Event.WRITE.mask = true then 1 else 0)

theorem bits_zero : bits 0 = 0 := by decide

theorem pairs_eq (p : Poller Cb) :
    p.pairs = ∑ fd ∈ Finset.range p.m_fdContexts.length, bits (p.eventsOf fd) := by
  unfold pairs
  rw [Finset.card_filter, Finset.sum_product]
  refine Finset.sum_congr rfl fun fd _ => ?_
  rw [Finset.sum_pair (by decide)]
  rfl

theorem bits_or {m : Mask} {e : Event} (he : e ≠ .NONE) (hm : m.has e.mask = false) :
    bits (m ||| e.mask) = bits m + 1 := by
  unfold bits
  simp only [Mask.has_or, Event.mask_has]
  cases e with
  | NONE => exact absurd rfl he
  | READ => simp [hm]; omega
  | WRITE => simp [hm]

theorem bits_andNot {m : Mask} {e : Event} (he : e ≠ .NONE) (hm : m.has e.mask = true) :
    bits (m &&& ~~~e.mask) + 1 = bits m := by
  unfold bits
  simp only [Mask.has_andNot, Event.mask_has]
  cases e with
  | NONE => exact absurd rfl he
  | READ => simp [hm]; omega
  | WRITE => simp [hm]

section Changes
variable {p p' : Poller Cb} {fd : Nat} {e : Event}

theorem Change.pairs {w : Option (EventContext Cb)} {m : Mask} (c : Change p p' fd e w m) :
    p'.pairs + bits (p.eventsOf fd) = p.pairs + bits m := by
  rw [pairs_eq, pairs_eq, c.length, c.eventsOf]
  have hfd : fd ∈ Finset.range p.m_fdContexts.length := Finset.mem_range.mpr c.lt
  rw [← Finset.add_sum_erase _ _ hfd,
    ← Finset.add_sum_erase _ (fun fd => bits (p.eventsOf fd)) hfd, Function.update_self]
  have hrest : ∑ i ∈ (Finset.range p.m_fdContexts.length).erase fd,
        bits (Function.update p.eventsOf fd m i) =
      ∑ i ∈ (Finset.range p.m_fdContexts.length).erase fd, bits (p.eventsOf i) := by
    refine Finset.sum_congr rfl fun i hi => ?_
    rw [Function.update_of_ne (Finset.ne_of_mem_erase hi)]
  rw [hrest]
  omega

/-- The counter is right. -/
def Counts (p : Poller Cb) : Prop := p.m_pendingEventCount = p.pairs

theorem Counts.register {cb : Cb} (h : Counts p) (hm : (p.eventsOf fd).has e.mask = false)
    (hp : p.register fd e cb = some p') : Counts p' := by
  obtain ⟨hc, hcount, -⟩ := register_spec hp
  have hpairs := hc.pairs
  have hbits := bits_or hc.ne_none hm
  unfold Counts at *
  omega

theorem Counts.remove (h : Counts p) (hm : (p.eventsOf fd).has e.mask = true)
    (hp : p.remove fd e = some p') : Counts p' := by
  obtain ⟨hc, hcount, -⟩ := remove_spec hp
  have hpairs := hc.pairs
  have hbits := bits_andNot hc.ne_none hm
  unfold Counts at *
  omega

theorem Counts.fire (h : Counts p) (hm : (p.eventsOf fd).has e.mask = true)
    (hp : p.fire fd e = some p') : Counts p' := by
  obtain ⟨hc, hcount, -⟩ := fire_spec hp
  have hpairs := hc.pairs
  have hbits := bits_andNot hc.ne_none hm
  unfold Counts at *
  omega

/-- New contexts have no events. -/
theorem Counts.grow (h : Counts p) (fd : Nat) : Counts (p.grow fd) := by
  have hlen : p.m_fdContexts.length ≤ (p.grow fd).m_fdContexts.length := by
    unfold Poller.grow
    split
    · rw [resize, List.take_of_length_le (by omega), List.length_append]
      exact Nat.le_add_right _ _
    · exact Nat.le_refl _
  have hpairs : (p.grow fd).pairs = p.pairs := by
    rw [pairs_eq, pairs_eq, grow_eventsOf]
    refine (Finset.sum_subset (Finset.range_mono hlen) fun i _ hi => ?_).symm
    have hnone : p.m_fdContexts[i]? = none :=
      List.getElem?_eq_none (Nat.le_of_not_lt fun hc => hi (Finset.mem_range.mpr hc))
    rw [eventsOf, hnone]
    exact bits_zero
  unfold Counts at *
  rw [(grow_frame p fd).2.2, hpairs, h]

end Changes

theorem counts_step {s s' : Sys} {a : Act} (h : Counts s.p) (hok : Ok s.p a)
    (hst : step s a = some s') : Counts s'.p := by
  have hfires : ∀ (p p' : Poller Nat) fd e, Counts p →
      (p.eventsOf fd).has (Event.mask e) = true → p.fire fd e = some p' → Counts p' :=
    fun _ _ _ _ hc hm hp => hc.fire hm hp
  cases a with
  | addEvent fd event rt =>
    obtain ⟨⟨p', u, ret⟩, hop, rfl⟩ := Option.map_eq_some_iff.mp hst
    obtain ⟨c, hc, hctl, hcase⟩ := addEvent_spec hop
    rcases hcase with ⟨-, rfl⟩ | ⟨hrt, hp⟩
    · exact h.grow fd
    · have hrt' : rt = none := by
        cases hctl
        exact hrt
      exact (h.grow fd).register (by rw [grow_eventsOf]; exact hok hrt') hp
  | delEvent fd event rt =>
    obtain ⟨⟨p', u, ok⟩, hop, rfl⟩ := Option.map_eq_some_iff.mp hst
    rcases dropEvent_spec hop with ⟨-, rfl, -⟩ | ⟨c, rt', hc, hbit, -, hcase⟩
    · exact h
    · rcases hcase with ⟨-, -, rfl⟩ | ⟨-, -, hp⟩
      · exact h
      · exact h.remove (by rw [eventsOf_eq hc]; exact hbit) hp
  | cancelEvent fd event rt =>
    obtain ⟨⟨p', u, ok⟩, hop, rfl⟩ := Option.map_eq_some_iff.mp hst
    exact cancelEvent_keeps hfires h hop
  | cancelAll fd rt =>
    obtain ⟨⟨p', u, ok⟩, hop, rfl⟩ := Option.map_eq_some_iff.mp hst
    exact cancelAll_keeps hfires h hop
  | dispatch fd events rt =>
    obtain ⟨⟨p', u⟩, hop, rfl⟩ := Option.map_eq_some_iff.mp hst
    exact dispatch_keeps hfires h hok hop
  | pipe =>
    cases hst
    exact h

theorem counts_init (sche : Nat) : Counts (init sche).p := by
  unfold Counts
  rw [pairs_eq]
  change (0 : Int) = ((∑ fd ∈ _, bits ((new sche : Poller Nat).eventsOf fd) : Nat) : Int)
  rw [new_eventsOf, Finset.sum_eq_zero fun _ _ => bits_zero]
  rfl

/-- In a run whose steps meet `Ok` the counter is the number of registered
events, so it is never below 0. -/
theorem pending_of_ok (sche : Nat) (s : Sys)
    (hr : ((lts sche).restrict fun s a => Ok s.p a).Reachable s) :
    s.p.m_pendingEventCount = s.p.pairs ∧ 0 ≤ s.p.m_pendingEventCount := by
  have hind : ((lts sche).restrict fun s a => Ok s.p a).Inductive fun s => Counts s.p := by
    refine ⟨?_, ?_⟩
    · intro s hs
      rw [hs]
      exact counts_init sche
    · intro s a s' h hs
      exact counts_step h hs.2 hs.1
  have h : s.p.m_pendingEventCount = s.p.pairs := hind.reachable s hr
  exact ⟨h, by omega⟩

/-- After the second `EPOLLHUP` of `hangUpRun` nothing is registered and the
counter is below 0: the `size_t` shows 2^64 - 1. -/
theorem pending_below_zero : ∃ s, (lts 0).Reachable s ∧ s.p.pairs = 0 ∧
    s.p.m_pendingEventCount = -1 ∧ s.p.m_pendingEventCount % 2 ^ 64 ≠ s.p.pairs := by
  have hrun : (LTS.exec step (init 0) hangUpRun).any
      (fun s => decide (s.p.pairs = 0 ∧ s.p.m_pendingEventCount = -1)) = true := by decide +kernel
  obtain ⟨s, hs, hb⟩ : ∃ s, (lts 0).Reachable s ∧
      decide (s.p.pairs = 0 ∧ s.p.m_pendingEventCount = -1) = true :=
    LTS.exists_of_exec _ rfl hrun
  obtain ⟨hpairs, hcount⟩ := of_decide_eq_true hb
  refine ⟨s, hs, hpairs, hcount, ?_⟩
  rw [hpairs, hcount]
  decide

/-- Registering both events and firing them meets `Ok`. -/
theorem pending_hangUp : ∃ s, ((lts 0).restrict fun s a => Ok s.p a).Reachable s ∧
    s.p.eventsOf 5 = 5 ∧ s.p.m_pendingEventCount = s.p.pairs := by
  have hC : ∀ (s : Sys) (a : Act), decide (Ok s.p a) = true → Ok s.p a :=
    fun _ _ h => of_decide_eq_true h
  have hrun : (LTS.execWith step (fun s a => decide (Ok s.p a)) (init 0) (hangUpRun.take 2)).any
      (fun s => decide (s.p.eventsOf 5 = 5)) = true := by decide
  obtain ⟨s, hs, hb⟩ : ∃ s, ((lts 0).restrict fun s a => Ok s.p a).Reachable s ∧
      decide (s.p.eventsOf 5 = 5) = true := LTS.exists_of_execWith hC _ rfl hrun
  exact ⟨s, hs, of_decide_eq_true hb, (pending_of_ok 0 s hs).1⟩

end Ppcode.Poller
