import Ppcode.Fiber.CallReturns
import Ppcode.Fiber.FiberPlace

/-!
# Whether a fiber that is added runs

A run is infinite and fair to the threads that call and to the processers'; the scheduler is
not destroyed, and no fiber hogs its processer.

* `held_goes`, `queued_goes`, `runnable_goes`, `taken_goes`: from each place a fiber gets to
  the next. What can go wrong is a call that does not return, and a processer that sleeps for
  ever though there are fibers in its `newQueue` (`Lost`).
* `runs_iff`: each time a fiber is added it is swapped in later, exactly where every call of
  `createFiber` from a fiber returns and no processer is lost.
-/
namespace Ppcode.Scheduler
open Processer (ProcPc AddPc capacity)
open Filter
variable {m k : Nat} {owner : Fin k → Option (Fin m)}
variable {σ : ℕ → Scheduler m k} {l : ℕ → Option (Act m k)}

/-- Each time that a fiber is added, it is about to be swapped in later. -/
def AllRun (σ : ℕ → Scheduler m k) : Prop := ∀ c fb t, (σ t).callers c = .read fb →
  ∃ t' ≥ t, ∃ i, ((σ t').m_processers i).pc = .swapIn fb

/-- The processer at `i` sleeps for ever, and does not get to the fibers in its `newQueue`. -/
def Lost (σ : ℕ → Scheduler m k) (i : Fin m) : Prop := ∀ᶠ t in atTop,
  ((σ t).m_processers i).pc = .waiting false ∧ ((σ t).m_processers i).newQueue ≠ []

/-! ## What a call is waiting for -/

variable (owner σ l) in
/-- The scheduler is not destroyed, no fiber hogs its processer, and calls return. -/
structure Calm : Prop where
  fair : FairRun owner σ l
  goesOn : ∀ t, l t ≠ some .stop
  hogs : ∀ i t, ¬ Hogs owner σ t i
  returns : Returns owner σ

theorem path_step (hrun : FairRun owner σ l) (t : ℕ) : σ (t + 1) = σ t ∨
    ∃ a, l t = some a ∧ (σ t).step a = some (σ (t + 1)) := by
  rcases moves_at hrun t with ⟨-, he⟩ | ⟨a, hl, hst, -⟩
  · exact .inl he
  · exact .inr ⟨a, hl, hst⟩

theorem reachable_at (hrun : FairRun owner σ l) (t : ℕ) : (lts m k).Reachable (σ t) :=
  fiberLts_reachable _ (hrun.path.reachable t)

theorem serves (hrun : FairRun owner σ l) (hstop : ∀ t, l t ≠ some .stop) (t : ℕ) :
    (σ t).Serves := by
  induction t with
  | zero =>
    rw [show σ 0 = started from hrun.path.init]
    exact ⟨rfl, fun _ => ⟨nofun, nofun⟩⟩
  | succ t ih =>
    rcases path_step hrun t with he | ⟨a, hl, hst⟩
    · rw [he]
      exact ih
    · exact ih.step hst fun ha => hstop t (by rw [hl, ha])

section Calm
variable (h : Calm owner σ l) {i : Fin m} {c : Fin k} {fb t : ℕ}
include h

theorem Calm.serves (t : ℕ) : (σ t).Serves := Scheduler.serves h.fair h.goesOn t

theorem Calm.up (t : ℕ) (i : Fin m) : (σ t).m_state ≠ .stop ∧
    ((σ t).m_processers i).pc ≠ .exited := by
  have hs : (σ t).m_state ≠ .stop := by
    rw [(h.serves t).state]
    decide
  exact ⟨hs, fun he => hs ((sound_at h.fair t).up i he)⟩

/-- A processer that does not go on any more sleeps: the fiber that it runs would swap out. -/
theorem Calm.sleeps (hquiet : ∀ᶠ t in atTop, l t ≠ some (.proc i)) :
    ∀ᶠ t in atTop, ((σ t).m_processers i).pc = .waiting false := by
  obtain ⟨t₀, hall⟩ := eventually_atTop.mp (hquiet.and (proc_off h.fair hquiet))
  have hcase (t : ℕ) (ht : t₀ ≤ t) : ((σ t).m_processers i).pc = .waiting false ∨ (σ t).Runs i := by
    rcases procStep_none (sound_at h.fair t) (hall t ht).2 with (hpc | hpc) | hruns
    · exact .inl hpc
    · exact absurd hpc (h.up t i).2
    · exact .inr hruns
  refine eventually_atTop.mpr ⟨t₀, fun t ht => (hcase t ht).resolve_right fun hruns => ?_⟩
  -- nobody else moves it, so it runs the fiber for ever
  refine h.hogs i t fun t' ht' => ⟨?_, fun c ho => ?_⟩
  · induction t', ht' using Nat.le_induction with
    | base => exact hruns
    | succ t' ht' ih =>
      refine (hcase (t' + 1) (by omega)).resolve_left fun hpc => ?_
      obtain ⟨fb, hin, -⟩ := ih
      rcases path_step h.fair t' with he | ⟨a, hl, hst⟩
      · rw [he, hin] at hpc
        cases hpc
      · rcases step_pc hst i with rfl | he | ⟨⟨b, hb, -⟩, -⟩
        · exact (hall t' (by omega)).1 hl
        · rw [he, hin] at hpc
          cases hpc
        · rw [hin] at hb
          cases hb
  · by_cases hc : (σ t').callers c = .idle
    · exact ⟨t', le_refl t', hc⟩
    · exact h.returns c i t' ho hc

/-- A processer from whose `newQueue` nothing is popped, and to which nothing is pushed any more, is
lost. -/
theorem Calm.lost (hsame : ∀ᶠ t in atTop,
    ((σ (t + 1)).m_processers i).newQueue = ((σ t).m_processers i).newQueue)
    (hne : ∀ᶠ t in atTop, ((σ t).m_processers i).newQueue ≠ []) : Lost σ i := by
  rcases still_lasts h.fair hsame hne with hs | hh | ⟨c, ho, j, hspin⟩
  · filter_upwards [hs, hne] with t ht hq
    rcases ht with ht | ht
    · exact ⟨ht.waiting, hq⟩
    · exact absurd ht.stopping (h.up t i).1
  · obtain ⟨t, ht⟩ := hh.exists
    exact absurd ht (h.hogs i t)
  · obtain ⟨t, hall⟩ := eventually_atTop.mp hspin
    have hbusy (t' : ℕ) (ht' : t ≤ t') : (σ t').callers c ≠ .idle := by
      obtain ⟨⟨moves, fb, hc⟩, -⟩ := hall t' ht'
      rw [hc]
      nofun
    obtain ⟨t', ht', hidle⟩ := h.returns c i t ho (hbusy t (le_refl t))
    exact absurd hidle (hbusy t' ht')

/-! ## From place to place -/

/-- A fiber in the hands of a call gets into a `newQueue`. -/
theorem Calm.held_goes (hm : 0 < m) (hc : (σ t).Held c fb) :
    (∃ t' ≥ t, ∃ i, (σ t').Queued i fb) ∨ ∃ i, Lost σ i := by
  by_cases hstay : ∀ t' ≥ t, (σ t').Held c fb
  · right
    have hbusy : ∀ᶠ t in atTop, (σ t).callers c ≠ .idle := by
      refine eventually_atTop.mpr ⟨t, fun t' ht' hidle => ?_⟩
      have hheld := hstay t' ht'
      simp [Held, hidle, viewOf] at hheld
    obtain ⟨i, hspin⟩ := stuck_spins h.fair hm hbusy
    have hfull : ∀ᶠ t in atTop, (σ t).Full i := hspin.mono fun t ht => ht.2
    refine ⟨i, h.lost (full_still h.fair hfull) ?_⟩
    filter_upwards [hfull] with t ht he
    simp [Full, he, capacity] at ht
  · left
    obtain ⟨u, hu, hheld, hnot⟩ := LTS.exists_leave (P := fun t => (σ t).Held c fb) hc hstay
    rcases path_step h.fair u with he | ⟨a, hl, hst⟩
    · rw [he] at hnot
      exact absurd hheld hnot
    · rcases hheld.step (h.serves u) hst with hh | ⟨i, hq⟩
      · exact absurd hh hnot
      · exact ⟨u + 1, by omega, i, hq⟩

/-- A fiber in a `newQueue` gets into `runableQueue`. -/
theorem Calm.queued_goes (hq : (σ t).Queued i fb) :
    (∃ t' ≥ t, (σ t').Runnable i fb) ∨ Lost σ i := by
  by_cases hruns : ∃ t' ≥ t, (σ t').Runnable i fb
  · exact .inl hruns
  · right
    push Not at hruns
    have hstay (t' : ℕ) (ht' : t ≤ t') : (σ t').Queued i fb := by
      induction t', ht' using Nat.le_induction with
      | base => exact hq
      | succ t' ht' ih =>
        rcases path_step h.fair t' with he | ⟨a, hl, hst⟩
        · rw [he]
          exact ih
        · exact (ih.step hst).resolve_right (hruns (t' + 1) (by omega))
    have hsame : ∀ᶠ t in atTop,
        ((σ (t + 1)).m_processers i).newQueue = ((σ t).m_processers i).newQueue := by
      refine (LTS.eventually_never (f := fun t => (σ t).queueAhead i fb) (P := fun t =>
        ((σ (t + 1)).m_processers i).newQueue ≠ ((σ t).m_processers i).newQueue) ?_).mono
        fun t ht => not_not.mp ht
      refine eventually_atTop.mpr ⟨t, fun t' ht' => ?_⟩
      rcases path_step h.fair t' with he | ⟨a, hl, hst⟩
      · rw [he]
        exact .inr ⟨fun hne => hne rfl, le_refl _⟩
      · rcases (hstay t' ht').ahead hst (hruns (t' + 1) (by omega)) with he | hlt
        · refine .inr ⟨fun hne => hne he, ?_⟩
          unfold queueAhead
          rw [he]
        · exact .inl hlt
    refine h.lost hsame (eventually_atTop.mpr ⟨t, fun t' ht' he => ?_⟩)
    have hmem := hstay t' ht'
    unfold Queued at hmem
    rw [he] at hmem
    cases hmem

/-- A fiber in `runableQueue` is taken. -/
theorem Calm.runnable_goes (hr : (σ t).Runnable i fb) : ∃ t' ≥ t, (σ t').Taken i fb := by
  by_contra hcon
  push Not at hcon
  have hstay (t' : ℕ) (ht' : t ≤ t') : (σ t').Runnable i fb := by
    induction t', ht' using Nat.le_induction with
    | base => exact hr
    | succ t' ht' ih =>
      rcases path_step h.fair t' with he | ⟨a, hl, hst⟩
      · rw [he]
        exact ih
      · exact (ih.step hst).resolve_right (hcon (t' + 1) (by omega))
  have hquiet : ∀ᶠ t in atTop, l t ≠ some (.proc i) := by
    refine LTS.eventually_quiet (f := fun t => (σ t).runAhead i fb) ?_
    refine eventually_atTop.mpr ⟨t, fun t' ht' => ?_⟩
    have hrun := hstay t' ht'
    rcases moves_at h.fair t' with ⟨hl, he⟩ | ⟨a, hl, hst, -⟩
    · rw [hl, he]
      exact .inr ⟨nofun, le_refl _⟩
    · by_cases ha : a = .proc i
      · subst ha
        exact .inl (hrun.ahead hst (hcon (t' + 1) (by omega)))
      · refine .inr ⟨by simpa [hl] using ha, ?_⟩
        have hround := round_step hst ha (fun hs => h.goesOn t' (by rw [hl, hs]))
          (hrun.awake (reachable_at h.fair t'))
        unfold runAhead
        rw [step_runable hst ha]
        exact Prod.Lex.toLex_le_toLex.mpr (.inr ⟨rfl, hround⟩)
  obtain ⟨t', hpc, ht'⟩ := ((h.sleeps hquiet).and (eventually_ge_atTop t)).exists
  exact (hstay t' ht').awake (reachable_at h.fair t') hpc

/-- A fiber that is taken is swapped in. -/
theorem Calm.taken_goes (htaken : (σ t).Taken i fb) :
    ∃ t' ≥ t, ((σ t').m_processers i).pc = .swapIn fb := by
  by_contra hcon
  push Not at hcon
  have hstay (t' : ℕ) (ht' : t ≤ t') : (σ t').Taken i fb := by
    induction t', ht' using Nat.le_induction with
    | base => exact htaken
    | succ t' ht' ih =>
      rcases path_step h.fair t' with he | ⟨a, hl, hst⟩
      · rw [he]
        exact ih
      · exact (ih.step (h.serves t') hst).resolve_right (hcon (t' + 1) (by omega))
  have hquiet : ∀ᶠ t in atTop, l t ≠ some (.proc i) := by
    refine LTS.eventually_quiet (f := fun t => ((σ t).m_processers i).round ((σ t).counting i)) ?_
    refine eventually_atTop.mpr ⟨t, fun t' ht' => ?_⟩
    obtain ⟨hawake, htake⟩ := (hstay t' ht').awake
    rcases moves_at h.fair t' with ⟨hl, he⟩ | ⟨a, hl, hst, -⟩
    · rw [hl, he]
      exact .inr ⟨nofun, le_refl _⟩
    · by_cases ha : a = .proc i
      · subst ha
        exact .inl (procStep_round hst htake)
      · exact .inr ⟨by simpa [hl] using ha,
          round_step hst ha (fun hs => h.goesOn t' (by rw [hl, hs])) hawake⟩
  obtain ⟨t', hpc, ht'⟩ := ((h.sleeps hquiet).and (eventually_ge_atTop t)).exists
  exact (hstay t' ht').awake.1 hpc

/-- A fiber that is added is swapped in later, if no processer is lost. -/
theorem Calm.all_run (hm : 0 < m) (hlost : ∀ i, ¬ Lost σ i) : AllRun σ := by
  intro c fb t hc
  have hheld : (σ t).Held c fb := by simp [Held, hc, viewOf]
  obtain ⟨t₁, ht₁, i, hq⟩ := (h.held_goes hm hheld).resolve_right (not_exists.mpr hlost)
  obtain ⟨t₂, ht₂, hr⟩ := (h.queued_goes hq).resolve_right (hlost i)
  obtain ⟨t₃, ht₃, htaken⟩ := h.runnable_goes hr
  obtain ⟨t₄, ht₄, hin⟩ := h.taken_goes htaken
  exact ⟨t₄, by omega, i, hin⟩

end Calm

/-! ## Fibers that do not run -/

section Never
variable (hrun : FairRun owner σ l) {fb t : ℕ}
include hrun

/-- A fiber that is on its way has been so since it was added. -/
theorem since_added (hb : (σ t).Before fb) : ∃ c, ∃ t₀ ≤ t, (σ t₀).callers c = .read fb ∧
    ∀ t', t₀ ≤ t' → t' ≤ t → (σ t').Before fb := by
  induction t with
  | zero =>
    rw [show σ 0 = started from hrun.path.init] at hb
    rcases hb with ⟨c, hb⟩ | ⟨i, hb | hb | hb⟩
    · exact absurd rfl hb
    · cases hb
    · cases hb
    · rcases hb with hb | hb | hb <;> cases hb
  | succ t ih =>
    have hback : (σ t).Before fb ∨ ∃ c, (σ (t + 1)).callers c = .read fb := by
      rcases path_step hrun t with he | ⟨a, -, hst⟩
      · rw [he] at hb
        exact .inl hb
      · exact hb.back hst (sound_at hrun t).inv
    rcases hback with hold | ⟨c, hc⟩
    · obtain ⟨c, t₀, ht₀, hc, hall⟩ := ih hold
      refine ⟨c, t₀, by omega, hc, fun t' h₁ h₂ => ?_⟩
      rcases Nat.lt_or_ge t t' with hlt | hle
      · rw [show t' = t + 1 by omega]
        exact hb
      · exact hall t' h₁ hle
    · refine ⟨c, t + 1, le_refl _, hc, fun t' h₁ h₂ => ?_⟩
      rw [show t' = t + 1 by omega]
      exact hb

/-- A fiber that stays on its way for ever has been added, and does not run. -/
theorem not_all_run (hb : ∀ t' ≥ t, (σ t').Before fb) : ¬ AllRun σ := by
  intro hall
  obtain ⟨c, t₀, ht₀, hc, hsince⟩ := since_added hrun (hb t (le_refl t))
  obtain ⟨t', ht', i, hin⟩ := hall c fb t₀ hc
  have hbefore : (σ t').Before fb := by
    rcases le_total t' t with hle | hle
    · exact hsince t' ht' hle
    · exact hb t' hle
  exact hbefore.not_entering (sound_at hrun t').inv i hin

/-- A lost processer never gets to the first fiber of its `newQueue`. -/
theorem lost_not_all_run {i : Fin m} (hlost : Lost σ i) : ¬ AllRun σ := by
  obtain ⟨t, hall⟩ := eventually_atTop.mp hlost
  obtain ⟨fb, q, hq⟩ := List.exists_cons_of_ne_nil (hall t (le_refl t)).2
  suffices hin : ∀ t' ≥ t, (σ t').Queued i fb from
    not_all_run hrun fun t' ht' => .inr ⟨i, .inl (hin t' ht')⟩
  intro t' ht'
  induction t', ht' using Nat.le_induction with
  | base => simp [Queued, hq]
  | succ t' ht' ih =>
    unfold Queued at ih ⊢
    rcases path_step hrun t' with he | ⟨a, -, hst⟩
    · rw [he]
      exact ih
    · rcases step_newQueue hst i with rfl | he | ⟨-, x, he⟩
      · rw [show (σ t').step (.proc i) = (σ t').procStep i from rfl,
          procStep_waiting (hall t' ht').1] at hst
        cases hst
      · rw [he]
        exact ih
      · rw [he]
        exact List.mem_append_left _ ih

/-- A call that does not return does not give its fiber away. -/
theorem stuck_not_all_run (hm : 0 < m) {c : Fin k} (hc : ∀ᶠ t in atTop, (σ t).callers c ≠ .idle) :
    ¬ AllRun σ := by
  obtain ⟨i, hspin⟩ := stuck_spins hrun hm hc
  obtain ⟨t, hall⟩ := eventually_atTop.mp hspin
  obtain ⟨⟨moves, fb, hpush⟩, -⟩ := hall t (le_refl t)
  suffices hsame : ∀ t' ≥ t, (σ t').callers c = .add i moves (.push fb) by
    have hb : ∀ t' ≥ t, (σ t').Before fb := fun t' ht' =>
      .inl ⟨c, by simp [Held, hsame t' ht', viewOf]⟩
    exact not_all_run hrun hb
  intro t' ht'
  induction t', ht' using Nat.le_induction with
  | base => exact hpush
  | succ t' ht' ih =>
    obtain ⟨hsp, hfull⟩ := hall t' ht'
    rcases path_step hrun t' with he | ⟨a, -, hst⟩
    · rw [he]
      exact ih
    · rcases step_caller hst c with rfl | he | ⟨hidle, -⟩
      · rw [show (σ t').step (.call c) = (σ t').callStep c from rfl, push_full hsp hfull] at hst
        cases hst
      · rw [he]
        exact ih
      · rw [ih] at hidle
        cases hidle

end Never

/-- In a fair run of a scheduler that is not destroyed, in which no fiber hogs its processer, every
fiber that is added runs exactly where the fibers' calls of `createFiber` return and no processer
sleeps for ever with fibers in its `newQueue`. -/
theorem runs_iff (hm : 0 < m) (owner : Fin k → Option (Fin m)) (σ : ℕ → Scheduler m k)
    (l : ℕ → Option (Act m k)) (hrun : FairRun owner σ l) (hstop : ∀ t, l t ≠ some .stop)
    (hhogs : ∀ i t, ¬ Hogs owner σ t i) :
    AllRun σ ↔ Returns owner σ ∧ ∀ i, ¬ Lost σ i := by
  constructor
  · intro hall
    refine ⟨?_, fun i hlost => lost_not_all_run hrun hlost hall⟩
    by_contra hret
    unfold Returns at hret
    push Not at hret
    obtain ⟨c, i, t, -, -, hbusy⟩ := hret
    exact stuck_not_all_run hrun hm (eventually_atTop.mpr ⟨t, hbusy⟩) hall
  · rintro ⟨hret, hlost⟩
    exact Calm.all_run ⟨hrun, hstop, hhogs, hret⟩ hm hlost

/-- One fiber is added and runs, and then the processer sleeps with no other. -/
theorem runs_iff_once : ∃ (σ : ℕ → Scheduler 1 1) (l : ℕ → Option (Act 1 1)),
    FairRun (fun _ => none) σ l ∧ (∃ t, l t = some (.createFiber 0 0)) ∧ AllRun σ := by
  let ls : List (Act 1 1) := .createFiber 0 0 :: List.replicate 12 (.call 0) ++
    List.replicate 13 (.proc 0) ++ .finish 0 :: List.replicate 20 (.proc 0)
  have hls : (LTS.exec step (started : Scheduler 1 1) ls).any (fun s =>
      decide (s.callers 0 = .idle ∧ (s.m_processers 0).pc = .waiting false ∧
        (s.m_processers 0).newQueue = [])) = true := by decide +kernel
  obtain ⟨s, hs, hb⟩ := (Option.any_eq_true _ _).mp hls
  obtain ⟨hidle, hpc, hnew⟩ := of_decide_eq_true hb
  have hmem : ∀ a ∈ ls, a = .createFiber 0 0 ∨ a = .call 0 ∨ a = .proc 0 ∨ a = .finish 0 := by
    simp only [ls, List.cons_append, List.mem_cons, List.mem_append, List.mem_replicate]
    tauto
  have hfree : ∀ a ∈ ls, ∀ s : Scheduler 1 1, s.InOrder (fun _ => none) a := by
    intro a ha s
    rcases hmem a ha with rfl | rfl | rfl | rfl
    · exact nofun
    · trivial
    · trivial
    · exact nofun
  obtain ⟨σ, hfair, hend⟩ := exists_fair (run_free hfree hs)
    (fun c => by unfold callStep; rw [Subsingleton.elim c 0, hidle])
    (fun i => by rw [Subsingleton.elim i 0]; exact procStep_waiting hpc)
  have hstop : ∀ t : ℕ, ls[t]? ≠ some Act.stop := by
    intro t h
    have ha := hmem _ (List.mem_of_getElem? h)
    simp at ha
  have hhogs : ∀ i t, ¬ Hogs (fun _ => none) σ t i := by
    intro i t hhog
    obtain ⟨t', hs', ht'⟩ := (hend.and (eventually_ge_atTop t)).exists
    obtain ⟨⟨fb, hin, -⟩, -⟩ := hhog t' ht'
    rw [hs', Subsingleton.elim i 0, hpc] at hin
    cases hin
  refine ⟨σ, _, hfair, ⟨0, rfl⟩,
    (runs_iff Nat.one_pos (fun _ => none) σ _ hfair hstop hhogs).mpr ⟨nofun, ?_⟩⟩
  intro i hlost
  obtain ⟨t, hs', -, hne⟩ := (hend.and hlost).exists
  rw [hs', Subsingleton.elim i 0] at hne
  exact hne hnew

end Ppcode.Scheduler
