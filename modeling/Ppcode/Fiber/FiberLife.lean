import Ppcode.Fiber.Scheduler

/-!
# The life of one fiber

What the scheduler looks like from one fiber: where each processer stands with
respect to it (`spot`), how many entries for it each processer has in its queues
or in its hand (`tok`), how far each call of `addFiber` is with it (`view`), and
the fiber itself.

`Life.Ok` says what keeps a fiber in one place. An answered wait is worth one
entry, so there is never more than one. And as long as the scheduler is not
stopping, the entry of a fiber that is still being run is on its way to the
processer that runs it, or there: that processer swaps it out before it gets to
the entry. Once the scheduler is stopping nobody takes an entry any more, and the
entries may be anywhere.

There is one lemma for each thing that can happen to a fiber.
-/
namespace Ppcode

/-- Where a processer stands with respect to a fiber. -/
inductive Spot where
  | away
  /-- past the last test of `isStopping`, up to the write of `m_proc` -/
  | hand
  /-- about to swap in -/
  | bound
  | inFiber
  /-- swapped out, the fiber's state not read yet -/
  | switch
  deriving DecidableEq, Repr

def Spot.active : Spot → Bool
  | .inFiber | .switch => true
  | _ => false

def Spot.held : Spot → Bool
  | .hand | .bound => true
  | _ => false

/-- How far a call of `addFiber` is with a fiber. -/
inductive View (m : Nat) where
  /-- it is for another fiber, or the entry is in the queue -/
  | away
  | read
  /-- the fiber's processer is read -/
  | test (proc : Fin m)
  /-- its processer was not running: any other will do -/
  | loose
  /-- in `addFiber` of a processer -/
  | add (proc : Fin m)
  deriving DecidableEq

def View.tok {m : Nat} : View m → Nat
  | .away => 0
  | _ => 1

theorem View.tok_le_one {m : Nat} (v : View m) : v.tok ≤ 1 := by
  unfold tok
  split <;> omega

structure Life (m k : Nat) where
  spot : Fin m → Spot
  tok : Fin m → Nat
  view : Fin k → View m
  fiber : Fiber m

def FiberPc.inside : FiberPc → Bool
  | .run | .yielding | .ending => true
  | _ => false

/-- What a fiber's own fields have to do with each other. -/
structure Fiber.Ok {m : Nat} (f : Fiber m) : Prop where
  wait : f.pc = .unborn ∨ f.pc = .ending ∨ f.pc = .ended → f.wait = .none
  running : f.pc = .yielding ∨ f.pc = .ending → f.m_state ≠ .running
  done : f.m_state = .done → f.pc = .ending ∨ f.pc = .ended

/-- A fiber that runs may change its wait. -/
theorem Fiber.Ok.of_run {m : Nat} {f f' : Fiber m} (h : f.Ok) (hrun : f.pc = .run)
    (hrun' : f'.pc = .run) (hstate : f'.m_state = f.m_state) : f'.Ok := by
  refine ⟨fun hc => ?_, fun hc => ?_, fun hd => ?_⟩
  · rw [hrun'] at hc
    rcases hc with hc | hc | hc <;> cases hc
  · rw [hrun'] at hc
    rcases hc with hc | hc <;> cases hc
  · rw [hrun', ← hrun]
    exact h.done (hstate ▸ hd)

theorem Fiber.ok_yielding {m : Nat} (f : Fiber m) :
    Fiber.Ok { f with m_state := .block, pc := .yielding } := by
  refine ⟨fun hc => ?_, fun _ hc => ?_, fun hc => ?_⟩
  · rcases hc with hc | hc | hc <;> cases hc
  · cases hc
  · cases hc

theorem Fiber.ok_ending {m : Nat} {f : Fiber m} (hw : f.wait = .none) :
    Fiber.Ok { f with m_state := .done, pc := .ending } := by
  refine ⟨fun _ => hw, fun _ hc => ?_, fun _ => .inl rfl⟩
  cases hc

namespace Life
variable {m k : Nat}

def tokens (l : Life m k) : Nat := tsum id l.tok + tsum View.tok l.view

theorem tokens_zero {l : Life m k} (ht : ∀ i, l.tok i = 0) (hv : ∀ c, l.view c = .away) :
    l.tokens = 0 := by
  have h1 : tsum id l.tok = 0 := tsum_zero _ _ ht
  have h2 : tsum View.tok l.view = 0 := by
    refine tsum_zero _ _ fun c => ?_
    rw [hv c]
    rfl
  unfold tokens
  omega

def ViewOk (stopping : Prop) (l : Life m k) : View m → Prop
  | .test proc => l.fiber.m_proc = some proc
  | .loose => ¬ stopping → ∀ j, (l.spot j).active = false
  | .add proc => ¬ stopping → ∀ j, (l.spot j).active = true → j = proc
  | _ => True

structure Ok (stopping : Prop) (l : Life m k) : Prop where
  tokens : l.tokens ≤ if l.fiber.wait = .answered then 1 else 0
  fiber : l.fiber.Ok
  affinity : ∀ i, (l.spot i).active = true → l.fiber.m_proc = some i
  bound : ∀ i, l.spot i = .bound → l.fiber.m_proc = some i
  inside : ∀ i, l.spot i = .inFiber → l.fiber.pc.inside = true
  outside : l.fiber.pc.inside = true → ∃ i, l.spot i = .inFiber
  left : ∀ i, l.spot i = .switch →
    (l.fiber.pc = .out ∨ l.fiber.pc = .ended) ∧ l.fiber.m_state ≠ .running
  held : ∀ i, (l.spot i).held = true → 0 < l.tok i ∧ ∀ j, (l.spot j).active = false
  located : ¬ stopping → ∀ i j, 0 < l.tok i → (l.spot j).active = true → i = j
  views : ∀ c, ViewOk stopping l (l.view c)

/-! ## Entries -/

section Entries
variable {stopping : Prop} {l : Life m k} (h : l.Ok stopping)
include h

theorem Ok.tokens_le_one : l.tokens ≤ 1 := by
  have ht := h.tokens
  split at ht <;> omega

theorem Ok.answered (ht : 0 < l.tokens) : l.fiber.wait = .answered := by
  have hle := h.tokens
  by_contra hw
  rw [if_neg hw] at hle
  omega

/-- An entry at one processer is the only one. -/
theorem Ok.only {i : Fin m} (hi : 0 < l.tok i) :
    l.tok i = 1 ∧ (∀ j, j ≠ i → l.tok j = 0) ∧ ∀ c, l.view c = .away := by
  have hone := h.tokens_le_one
  unfold Life.tokens at hone
  have hle := le_tsum id l.tok i
  simp only [id] at hle
  refine ⟨by omega, fun j hj => ?_, fun c => ?_⟩
  · have hpair := pair_le_tsum id l.tok hj
    simp only [id] at hpair
    omega
  · have hc := le_tsum View.tok l.view c
    cases hv : l.view c with
    | away => rfl
    | _ =>
      rw [hv] at hc
      simp only [View.tok] at hc
      omega

theorem Ok.wait_of_tok {i : Fin m} (hi : 0 < l.tok i) : l.fiber.wait = .answered := by
  refine h.answered ?_
  have hle := le_tsum id l.tok i
  unfold Life.tokens
  simp only [id] at hle
  omega

/-- A fiber with an entry is neither new nor done. -/
theorem Ok.alive_of_tok {i : Fin m} (hi : 0 < l.tok i) : l.fiber.m_state ≠ .done ∧
    l.fiber.pc ≠ .unborn ∧ l.fiber.pc ≠ .ending ∧ l.fiber.pc ≠ .ended := by
  have hw := h.wait_of_tok hi
  have hne : ¬ (l.fiber.pc = .unborn ∨ l.fiber.pc = .ending ∨ l.fiber.pc = .ended) := by
    intro hc
    rw [h.fiber.wait hc] at hw
    cases hw
  refine ⟨fun hd => hne (.inr (h.fiber.done hd)), fun hc => hne (.inl hc),
    fun hc => hne (.inr (.inl hc)), fun hc => hne (.inr (.inr hc))⟩

/-- A fiber that a processer holds is not in anybody's hands, and has its context saved. -/
theorem Ok.out_of_held {i : Fin m} (hi : (l.spot i).held = true) : l.fiber.pc = .out := by
  obtain ⟨ht, hact⟩ := h.held i hi
  obtain ⟨-, hu, -, he⟩ := h.alive_of_tok ht
  have hins : l.fiber.pc.inside = false := by
    rw [Bool.eq_false_iff]
    intro hc
    obtain ⟨j, hj⟩ := h.outside hc
    have hj' := hact j
    rw [hj] at hj'
    cases hj'
  cases hpc : l.fiber.pc with
  | out => rfl
  | unborn => exact absurd hpc hu
  | ended => exact absurd hpc he
  | _ =>
    rw [hpc] at hins
    cases hins

end Entries

/-! ## What can happen -/

section Events
variable {stopping : Prop} {l : Life m k} {i : Fin m} {c : Fin k} {f : Fiber m}

/-- The scheduler starts to stop. -/
theorem Ok.stop (h : l.Ok stopping) {stopping' : Prop} (hs : stopping') : l.Ok stopping' where
  tokens := h.tokens
  fiber := h.fiber
  affinity := h.affinity
  bound := h.bound
  inside := h.inside
  outside := h.outside
  left := h.left
  held := h.held
  located hn := absurd hs hn
  views c := by
    have hc := h.views c
    cases hv : l.view c with
    | test proc => rwa [hv] at hc
    | away | read => trivial
    | loose | add => exact fun hn => absurd hs hn

/-- Calls go on, and entries are moved on their way. -/
theorem Ok.carry (h : l.Ok stopping) {tok : Fin m → Nat} {view : Fin k → View m}
    (hle : tsum id tok + tsum View.tok view ≤ l.tokens)
    (hheld : ∀ i, (l.spot i).held = true → l.tok i ≤ tok i)
    (hloc : ¬ stopping → ∀ i, 0 < tok i → 0 < l.tok i ∨ ∀ j, (l.spot j).active = true → j = i)
    (hview : ∀ c, view c = l.view c ∨ ViewOk stopping l (view c)) :
    Ok stopping { l with tok := tok, view := view } where
  tokens := Nat.le_trans hle h.tokens
  fiber := h.fiber
  affinity := h.affinity
  bound := h.bound
  inside := h.inside
  outside := h.outside
  left := h.left
  held i hi := ⟨Nat.lt_of_lt_of_le (h.held i hi).1 (hheld i hi), (h.held i hi).2⟩
  located hn i j hi hj := by
    rcases hloc hn i hi with hi | hi
    · exact h.located hn i j hi hj
    · exact (hi j hj).symm
  views c := by
    simp only
    rcases hview c with he | hc
    · rw [he]
      exact h.views c
    · exact hc

/-- A processer moves an entry in its own queues, or drops it. -/
theorem Ok.move (h : l.Ok stopping) {x : Nat} (hle : x ≤ l.tok i)
    (hheld : (l.spot i).held = true → l.tok i ≤ x) :
    Ok stopping { l with tok := Function.update l.tok i x } := by
  refine h.carry ?_ ?_ ?_ fun _ => .inl rfl
  · have hsum := tsum_update id l.tok i x
    simp only [id] at hsum
    unfold Life.tokens
    omega
  · exact (Function.forall_update_iff l.tok fun j y => (l.spot j).held = true → l.tok j ≤ y).mpr
      ⟨hheld, fun j _ _ => Nat.le_refl _⟩
  · intro _
    exact (Function.forall_update_iff l.tok fun j y => 0 < y → 0 < l.tok j ∨ _).mpr
      ⟨fun hx => .inl (Nat.lt_of_lt_of_le hx hle), fun j _ => .inl⟩

/-- A call of `addFiber` goes on. -/
theorem Ok.call (h : l.Ok stopping) {v : View m} (hle : v.tok ≤ (l.view c).tok)
    (hv : ViewOk stopping l v) : Ok stopping { l with view := Function.update l.view c v } := by
  refine h.carry ?_ (fun _ _ => Nat.le_refl _) (fun _ _ => .inl) ?_
  · have hsum := tsum_update View.tok l.view c v
    unfold Life.tokens
    omega
  · exact (Function.forall_update_iff l.view fun c v => v = l.view c ∨ ViewOk stopping l v).mpr
      ⟨.inr hv, fun _ _ => .inl rfl⟩

/-- A call pushes the entry. -/
theorem Ok.push (h : l.Ok stopping) (hc : l.view c = .add i) : Ok stopping { l with
    tok := Function.update l.tok i (l.tok i + 1), view := Function.update l.view c .away } := by
  have hv := h.views c
  rw [hc] at hv
  refine h.carry ?_ ?_ (fun hn => ?_) ?_
  · have hsum := tsum_update View.tok l.view c .away
    have hsum' := tsum_update id l.tok i (l.tok i + 1)
    rw [hc] at hsum
    simp only [View.tok, id] at hsum hsum'
    unfold Life.tokens
    omega
  · exact (Function.forall_update_iff l.tok fun j y => (l.spot j).held = true → l.tok j ≤ y).mpr
      ⟨fun _ => Nat.le_succ _, fun j _ _ => Nat.le_refl _⟩
  · exact (Function.forall_update_iff l.tok fun j y => 0 < y → 0 < l.tok j ∨ _).mpr
      ⟨fun _ => .inr (hv hn), fun j _ => .inl⟩
  · exact (Function.forall_update_iff l.view fun c v => v = l.view c ∨ ViewOk stopping l v).mpr
      ⟨.inr trivial, fun _ _ => .inl rfl⟩

/-- While no processer runs the fiber, its entry may be anywhere. -/
theorem ok_of_idle (ht : l.tokens ≤ if l.fiber.wait = .answered then 1 else 0) (hf : l.fiber.Ok)
    (hnone : ∀ j, (l.spot j).active = false) (hpc : l.fiber.pc.inside = false)
    (hheld : ∀ j, (l.spot j).held = true → 0 < l.tok j)
    (hbound : ∀ j, l.spot j = .bound → l.fiber.m_proc = some j)
    (htest : ∀ c p, l.view c = .test p → l.fiber.m_proc = some p) : l.Ok stopping := by
  have hoff : ∀ {j x}, l.spot j = x → x.active = false := by
    intro j x hj
    rw [← hj]
    exact hnone j
  refine ⟨ht, hf, fun j hj => ?_, hbound, fun j hj => ?_, fun hc => ?_, fun j hj => ?_,
    fun j hj => ⟨hheld j hj, hnone⟩, fun _ j j' _ hj' => ?_, fun c => ?_⟩
  · rw [hnone j] at hj
    cases hj
  · cases hoff hj
  · rw [hpc] at hc
    cases hc
  · cases hoff hj
  · rw [hnone j'] at hj'
    cases hj'
  · cases hv : l.view c with
    | test proc => exact htest c proc hv
    | away | read => trivial
    | loose => exact fun _ => hnone
    | add proc =>
      intro _ j hj
      rw [hnone j] at hj
      cases hj

/-- Nobody is inside a fiber that no processer runs. -/
theorem Ok.not_inside (h : l.Ok stopping) (hnone : ∀ j, (l.spot j).active = false) :
    l.fiber.pc.inside = false := by
  rw [Bool.eq_false_iff]
  intro hc
  obtain ⟨j, hj⟩ := h.outside hc
  have hj' := hnone j
  rw [hj] at hj'
  cases hj'

theorem Ok.test_proc (h : l.Ok stopping) (c : Fin k) (p : Fin m) (hv : l.view c = .test p) :
    l.fiber.m_proc = some p := by
  have hc := h.views c
  rwa [hv] at hc

/-- A processer passes the last test of `isStopping` with an entry in its hand. -/
theorem Ok.take (h : l.Ok stopping) (hn : ¬ stopping) (hi : l.spot i = .away) (ht : 0 < l.tok i) :
    Ok stopping { l with spot := Function.update l.spot i .hand } := by
  -- the entry is here, so whoever runs the fiber would be here too
  have hnone : ∀ j, (l.spot j).active = false := by
    intro j
    rw [Bool.eq_false_iff]
    intro hj
    have hij := h.located hn i j ht hj
    subst hij
    rw [hi] at hj
    cases hj
  refine ok_of_idle h.tokens h.fiber ?_ (h.not_inside hnone) ?_ ?_ h.test_proc
  · exact (Function.forall_update_iff l.spot fun _ x => x.active = false).mpr
      ⟨rfl, fun j _ => hnone j⟩
  · exact (Function.forall_update_iff l.spot fun j x => x.held = true → 0 < l.tok j).mpr
      ⟨fun _ => ht, fun j _ hj => (h.held j hj).1⟩
  · exact (Function.forall_update_iff l.spot fun j x => x = .bound → l.fiber.m_proc = some j).mpr
      ⟨nofun, fun j _ => h.bound j⟩

/-- The processer that holds the entry writes the fiber's state, -/
theorem Ok.resume (h : l.Ok stopping) (hi : (l.spot i).held = true) :
    Ok stopping { l with fiber := { l.fiber with m_state := .running } } := by
  obtain ⟨ht, hnone⟩ := h.held i hi
  have hout := h.out_of_held hi
  refine ok_of_idle h.tokens ⟨h.fiber.wait, fun hc => ?_, nofun⟩ hnone (h.not_inside hnone)
    (fun j hj => (h.held j hj).1) h.bound h.test_proc
  simp only [hout, reduceCtorEq, or_self] at hc

/-- then its processer, -/
theorem Ok.bind (h : l.Ok stopping) (hi : (l.spot i).held = true) :
    Ok stopping { l with
      spot := Function.update l.spot i .bound, fiber := { l.fiber with m_proc := some i } } := by
  obtain ⟨ht, hnone⟩ := h.held i hi
  obtain ⟨-, htok, hview⟩ := h.only ht
  refine ok_of_idle h.tokens ⟨h.fiber.wait, h.fiber.running, h.fiber.done⟩ ?_
    (h.not_inside hnone) ?_ ?_ fun c p hv => ?_
  · exact (Function.forall_update_iff l.spot fun _ x => x.active = false).mpr
      ⟨rfl, fun j _ => hnone j⟩
  · exact (Function.forall_update_iff l.spot fun j x => x.held = true → 0 < l.tok j).mpr
      ⟨fun _ => ht, fun j _ hj => (h.held j hj).1⟩
  · refine (Function.forall_update_iff l.spot fun j x => x = .bound → some i = some j).mpr
      ⟨fun _ => rfl, fun j hji hj => ?_⟩
    have hpos := (h.held j (by rw [hj]; rfl)).1
    rw [htok j hji] at hpos
    cases hpos
  · simp only [hview c, reduceCtorEq] at hv

/-- and swaps in, which uses the entry up. -/
theorem Ok.swapIn (h : l.Ok stopping) (hi : l.spot i = .bound) :
    Ok stopping { l with
      spot := Function.update l.spot i .inFiber
      tok := Function.update l.tok i (l.tok i - 1)
      fiber := { l.fiber with pc := .run, wait := .none } } := by
  have hheld : (l.spot i).held = true := by rw [hi]; rfl
  obtain ⟨ht, hnone⟩ := h.held i hheld
  obtain ⟨hone, htok, hview⟩ := h.only ht
  have hzero : ∀ j, Function.update l.tok i (l.tok i - 1) j = 0 :=
    (Function.forall_update_iff l.tok fun _ x => x = 0).mpr ⟨by omega, htok⟩
  -- nobody else holds it, or runs it
  have haway : ∀ j, j ≠ i → l.spot j = .away := by
    intro j hji
    cases hs : l.spot j with
    | away => rfl
    | hand | bound =>
      have hpos := (h.held j (by rw [hs]; rfl)).1
      rw [htok j hji] at hpos
      cases hpos
    | inFiber | switch =>
      have hj := hnone j
      rw [hs] at hj
      cases hj
  have hspot : ∀ (p : Fin m → Spot → Prop), p i .inFiber → (∀ j, p j .away) →
      ∀ j, p j (Function.update l.spot i .inFiber j) := by
    intro p hpi hp
    refine (Function.forall_update_iff l.spot p).mpr ⟨hpi, fun j hji => ?_⟩
    rw [haway j hji]
    exact hp j
  refine ⟨?_, ⟨fun hc => ?_, fun hc => ?_, fun hd => absurd hd (h.alive_of_tok ht).1⟩,
    hspot (fun j x => x.active = true → l.fiber.m_proc = some j) (fun _ => h.bound i hi) nofun,
    hspot (fun j x => x = .bound → l.fiber.m_proc = some j) nofun nofun,
    fun _ _ => rfl, fun _ => ⟨i, Function.update_self ..⟩,
    hspot (fun _ x => x = .switch → _) nofun nofun,
    hspot (fun _ x => x.held = true → _) nofun nofun, fun _ j _ hj => ?_, fun c => ?_⟩
  · exact Nat.le_trans (Nat.le_of_eq (tokens_zero hzero hview)) (Nat.zero_le _)
  · rcases hc with hc | hc | hc <;> cases hc
  · rcases hc with hc | hc <;> cases hc
  · simp only [hzero] at hj
    exact absurd hj (Nat.lt_irrefl 0)
  · simp only [hview c]
    trivial

/-- A fiber that a processer runs is run by no other. -/
theorem Ok.elsewhere (h : l.Ok stopping) (hi : (l.spot i).active = true) {j : Fin m} (hji : j ≠ i) :
    (l.spot j).active = false := by
  rw [Bool.eq_false_iff]
  intro hj
  have he := h.affinity j hj
  rw [h.affinity i hi] at he
  exact hji (Option.some.inj he).symm

theorem ViewOk.mono {v : View m} (hv : ViewOk stopping l v) (l' : Life m k)
    (hact : ∀ j, (l'.spot j).active = true → (l.spot j).active = true)
    (hproc : l'.fiber.m_proc = l.fiber.m_proc) : ViewOk stopping l' v := by
  cases v with
  | away | read => trivial
  | test proc => exact hproc.trans hv
  | loose =>
    intro hn j
    rw [Bool.eq_false_iff]
    intro hj
    have hj := hact j hj
    rw [hv hn j] at hj
    cases hj
  | add proc => exact fun hn j hj => hv hn j (hact j hj)

/-- A processer that no longer runs the fiber changes nothing for the others. -/
theorem Ok.mono (h : l.Ok stopping) {l' : Life m k} (htok : l'.tok = l.tok)
    (hview : l'.view = l.view) (hwait : l'.fiber.wait = l.fiber.wait)
    (hproc : l'.fiber.m_proc = l.fiber.m_proc) (hf : l'.fiber.Ok)
    (hact : ∀ j, (l'.spot j).active = true → (l.spot j).active = true)
    (hheld : ∀ j, (l'.spot j).held = true → (l.spot j).held = true)
    (hbound : ∀ j, l'.spot j = .bound → l.spot j = .bound)
    (hinside : ∀ j, l'.spot j = .inFiber → l'.fiber.pc.inside = true)
    (houtside : l'.fiber.pc.inside = true → ∃ j, l'.spot j = .inFiber)
    (hleft : ∀ j, l'.spot j = .switch →
      (l'.fiber.pc = .out ∨ l'.fiber.pc = .ended) ∧ l'.fiber.m_state ≠ .running) :
    l'.Ok stopping := by
  refine ⟨?_, hf, fun j hj => ?_, fun j hj => ?_, hinside, houtside, hleft, fun j hj => ?_,
    fun hn j j' ht hj' => ?_, fun c => ?_⟩
  · unfold Life.tokens
    rw [htok, hview, hwait]
    exact h.tokens
  · rw [hproc]
    exact h.affinity j (hact j hj)
  · rw [hproc]
    exact h.bound j (hbound j hj)
  · obtain ⟨ht, hnone⟩ := h.held j (hheld j hj)
    rw [htok]
    refine ⟨ht, fun j' => ?_⟩
    rw [Bool.eq_false_iff]
    intro hj'
    have hj' := hact j' hj'
    rw [hnone j'] at hj'
    cases hj'
  · rw [htok] at ht
    exact h.located hn j j' ht (hact j' hj')
  · rw [hview]
    exact (h.views c).mono l' hact hproc

/-- The fiber swaps out of the processer that runs it. -/
theorem Ok.swapOut (h : l.Ok stopping) (hi : l.spot i = .inFiber) {pc : FiberPc}
    (hpc : l.fiber.pc = .yielding ∧ pc = .out ∨ l.fiber.pc = .ending ∧ pc = .ended) :
    Ok stopping { l with
      spot := Function.update l.spot i .switch, fiber := { l.fiber with pc := pc } } := by
  have hacti : (l.spot i).active = true := by rw [hi]; rfl
  have hnot : ∀ j, j ≠ i → l.spot j ≠ .inFiber := by
    intro j hji hj
    have hoff := h.elsewhere hacti hji
    rw [hj] at hoff
    cases hoff
  have hpc' : (pc = .out ∨ pc = .ended) ∧ l.fiber.m_state ≠ .running := by
    rcases hpc with ⟨hy, rfl⟩ | ⟨he, rfl⟩
    · exact ⟨.inl rfl, h.fiber.running (.inl hy)⟩
    · exact ⟨.inr rfl, h.fiber.running (.inr he)⟩
  refine h.mono rfl rfl rfl rfl ⟨fun hc => ?_, fun hc => ?_, fun hd => ?_⟩ ?_ ?_ ?_ ?_ (fun hc => ?_)
    fun _ _ => hpc'
  · rcases hpc with ⟨-, rfl⟩ | ⟨he, -⟩
    · rcases hc with hc | hc | hc <;> cases hc
    · exact h.fiber.wait (.inr (.inl he))
  · rcases hpc'.1 with rfl | rfl <;> rcases hc with hc | hc <;> cases hc
  · rcases hpc with ⟨hy, -⟩ | ⟨-, rfl⟩
    · rcases h.fiber.done hd with hc | hc <;> rw [hy] at hc <;> cases hc
    · exact .inr rfl
  · exact (Function.forall_update_iff l.spot fun j x => x.active = true →
      (l.spot j).active = true).mpr ⟨fun _ => hacti, fun _ _ => id⟩
  · exact (Function.forall_update_iff l.spot fun j x => x.held = true →
      (l.spot j).held = true).mpr ⟨nofun, fun _ _ => id⟩
  · exact (Function.forall_update_iff l.spot fun j x => x = .bound → l.spot j = .bound).mpr
      ⟨nofun, fun _ _ => id⟩
  · exact (Function.forall_update_iff l.spot fun _ x => x = .inFiber → pc.inside = true).mpr
      ⟨nofun, fun j hji hj => absurd hj (hnot j hji)⟩
  · simp only at hc
    rcases hpc'.1 with rfl | rfl <;> cases hc

/-- The processer has read the state of the fiber that swapped out. -/
theorem Ok.leave (h : l.Ok stopping) (hi : l.spot i = .switch) :
    Ok stopping { l with spot := Function.update l.spot i .away } := by
  refine h.mono rfl rfl rfl rfl h.fiber ?_ ?_ ?_ ?_ (fun hc => ?_) ?_
  · exact (Function.forall_update_iff l.spot fun j x => x.active = true →
      (l.spot j).active = true).mpr ⟨nofun, fun _ _ => id⟩
  · exact (Function.forall_update_iff l.spot fun j x => x.held = true →
      (l.spot j).held = true).mpr ⟨nofun, fun _ _ => id⟩
  · exact (Function.forall_update_iff l.spot fun j x => x = .bound → l.spot j = .bound).mpr
      ⟨nofun, fun _ _ => id⟩
  · exact (Function.forall_update_iff l.spot fun _ x => x = .inFiber → _).mpr
      ⟨nofun, fun j _ => h.inside j⟩
  · obtain ⟨j, hj⟩ := h.outside hc
    refine ⟨j, ?_⟩
    simp only
    rw [Function.update_of_ne, hj]
    intro heq
    subst heq
    rw [hi] at hj
    cases hj
  · exact (Function.forall_update_iff l.spot fun _ x => x = .switch → _).mpr
      ⟨nofun, fun j _ => h.left j⟩

/-- The fiber itself goes on. -/
theorem Ok.run (h : l.Ok stopping) (hi : l.spot i = .inFiber) (hf : f.Ok)
    (hpc : f.pc.inside = true) (hproc : f.m_proc = l.fiber.m_proc)
    (hwait : l.fiber.wait = .answered → f.wait = .answered) : Ok stopping { l with fiber := f } := by
  have hacti : (l.spot i).active = true := by rw [hi]; rfl
  refine ⟨?_, hf, fun j hj => hproc.trans (h.affinity j hj), fun j hj => hproc.trans (h.bound j hj),
    fun _ _ => hpc, fun _ => ⟨i, hi⟩, fun j hj => ?_, h.held, h.located, fun c => ?_⟩
  · have ht := h.tokens
    change l.tokens ≤ if f.wait = .answered then 1 else 0
    by_cases hw : l.fiber.wait = .answered
    · rw [if_pos hw] at ht
      rw [if_pos (hwait hw)]
      exact ht
    · rw [if_neg hw] at ht
      omega
  · exfalso
    by_cases hji : j = i
    · subst hji
      rw [hi] at hj
      cases hj
    · have hoff := h.elsewhere hacti hji
      simp only at hj
      rw [hj] at hoff
      cases hoff
  · exact (h.views c).mono { l with fiber := f } (fun _ => id) hproc

/-- A thread starts to add the fiber: an entry where there was none. -/
theorem tokens_issue (h : l.Ok stopping) (hw : l.fiber.wait ≠ .answered) (hc : l.view c = .away) :
    tsum id l.tok + tsum View.tok (Function.update l.view c .read) ≤ 1 := by
  have ht := h.tokens
  rw [if_neg hw] at ht
  unfold Life.tokens at ht
  have hsum := tsum_update View.tok l.view c .read
  rw [hc] at hsum
  simp only [View.tok] at hsum
  omega

/-- It answers the wait of the fiber. -/
theorem Ok.answer (h : l.Ok stopping) (hc : l.view c = .away) (hw : l.fiber.wait = .registered) :
    Ok stopping { l with
      view := Function.update l.view c .read, fiber := { l.fiber with wait := .answered } } := by
  have ht := tokens_issue h (by rw [hw]; nofun) hc
  refine ⟨ht, ⟨fun hp => ?_, h.fiber.running, h.fiber.done⟩, h.affinity, h.bound, h.inside,
    h.outside, h.left, h.held, h.located, ?_⟩
  · have hn := h.fiber.wait hp
    rw [hw] at hn
    cases hn
  · exact (Function.forall_update_iff l.view fun _ v => ViewOk stopping _ v).mpr
      ⟨trivial, fun c' _ => (h.views c').mono _ (fun _ => id) rfl⟩

/-- It has just made the fiber. -/
theorem Ok.create (h : l.Ok stopping) (hc : l.view c = .away) (hpc : l.fiber.pc = .unborn) :
    Ok stopping { l with
      view := Function.update l.view c .read, fiber := ⟨.running, none, .out, .answered⟩ } := by
  have hw : l.fiber.wait = .none := h.fiber.wait (.inl hpc)
  have ht := tokens_issue h (by rw [hw]; nofun) hc
  have htok : ∀ j, l.tok j = 0 := by
    intro j
    by_contra hj
    exact (h.alive_of_tok (Nat.pos_of_ne_zero hj)).2.1 hpc
  have hnone : ∀ j, (l.spot j).active = false := by
    intro j
    cases hs : l.spot j with
    | inFiber =>
      have hin := h.inside j hs
      rw [hpc] at hin
      cases hin
    | switch =>
      rcases (h.left j hs).1 with hc | hc <;> rw [hpc] at hc <;> cases hc
    | _ => rfl
  have hheld : ∀ j, (l.spot j).held = true → 0 < l.tok j := fun j hj => (h.held j hj).1
  refine ok_of_idle ht ⟨fun hp => ?_, fun hp => ?_, nofun⟩ hnone rfl hheld (fun j hj => ?_) ?_
  · rcases hp with hp | hp | hp <;> cases hp
  · rcases hp with hp | hp <;> cases hp
  · have hpos := hheld j (by rw [show l.spot j = _ from hj]; rfl)
    rw [htok j] at hpos
    cases hpos
  · refine (Function.forall_update_iff l.view fun _ v => ∀ p, v = .test p →
      (none : Option (Fin m)) = some p).mpr
      ⟨nofun, fun c' _ p hv => ?_⟩
    have hle := le_tsum View.tok l.view c'
    have hone := h.tokens
    rw [hw, if_neg nofun] at hone
    unfold Life.tokens at hone
    rw [hv] at hle
    simp only [View.tok] at hle
    omega

end Events
end Life
end Ppcode
