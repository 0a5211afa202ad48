import Ppcode.Fiber.FiberCalls

/-!
# Whether `createFiber` returns

A call has so many steps (`CallPc.rank`) and only two places to wait at: the loop of
processer.cc:70, and `m_mutex`, which `idle` gives back. What keeps it in the loop is
a `newQueue` that stays full. While a `newQueue` stays as it is nobody pushes there, so the
calls that have pushed come to their ends, and then the processer has so much work (`work`)
until it waits for something itself, or is at its end.

* `stuck_spins`: a call that does not return waits for room that never comes.
* `still_lasts`, `full_lasts`: a processer whose `newQueue` stays as it is, or full, sleeps or
  quits, or its fiber hogs it or waits for such a processer.
* `returns_iff`: in a fair run the calls of `createFiber` from fibers return exactly
  where no state is stalled.
* `spins_on_itself`: a fiber that fills the `newQueue` of its own processer waits there.
-/
namespace Ppcode.Scheduler
open Processer (ProcPc AddPc capacity)
open Filter
variable {m k : Nat} {owner : Fin k → Option (Fin m)}
variable {σ : ℕ → Scheduler m k} {l : ℕ → Option (Act m k)}

/-! ## The work of a processer -/

/-- The weight of the steps of `getNewFibers` that find nothing, and of what comes then. -/
def fetching (p : Processer Nat) (r : Processer.Ret) : Nat :=
  if r = .idle ∧ p.runableQueue = [] then 25 else 35

/-- A weight for each control point. It rises where a fiber is taken or the flag taken down. -/
def pcWork (p : Processer Nat) : Nat :=
  match p.pc with
  | .start | .many => 40
  | .loop => 30
  | .take => 29
  | .fetch r => fetching p r + 2
  | .exchange size r => fetching p r + if size = p.m_newfiberCount then 1 else 3
  | .pop _ r => fetching p r
  | .gcLock => 24
  | .test => if p.m_notidied then 23 else 11
  | .clear => 22
  | .publish => if p.m_notidied then 33 else 10
  | .again => if p.m_notidied then 32 else 9
  | .wait => 8
  | .waiting notified => if notified ∧ p.m_notidied then 33 else if notified then 10 else 7
  | .wake => 31
  | .check _ => 50
  | .resume _ => 49
  | .bind _ => 48
  | .swapIn _ => 47
  | .inFiber _ => 46
  | .switch _ => 45
  | .exited => 0

/-- A fiber to run, and the flag, is worth a time round the loop. -/
def work (p : Processer Nat) : Nat :=
  64 * (p.runableQueue.length + if p.m_notidied ∨ p.pc = .clear then 1 else 0) + pcWork p

/-- As long as `newQueue` stays as it is, and is not empty, the work of the processer gets less. -/
theorem next_work {stopping : Bool} {state : TaskState} {p p' : Processer Nat}
    (h : p.next stopping state = some p') (hsame : p'.newQueue = p.newQueue)
    (hne : p.newQueue ≠ [])
    (hstate : ∀ fb, p.pc = .switch fb → state ≠ .running) : work p' < work p := by
  unfold work pcWork
  cases Processer.next_spec h with
  | pop p left r fb q => exact absurd (congrArg List.length hsame) (by simp)
  | miss p left r => exact absurd rfl hne
  | fetched p r =>
    cases r with
    | switch =>
      simp [Processer.back, fetching]
    | idle =>
      by_cases hrun : p.runableQueue = []
      · simp [Processer.back, fetching, hrun]
      · simp [Processer.back, fetching, hrun]
  | switch p fb =>
    have hne := hstate fb rfl
    cases state with
    | running => exact absurd rfl hne
    | _ => simp [Processer.switched]
  | take p fb q =>
    simp
    omega
  | exchange p r => simp [fetching]
  | retry p size r =>
    -- stale only if a fiber was counted in between
    have hstale : size ≠ p.m_newfiberCount := by
      intro he
      simp [Processer.next, he] at h
    simp [fetching, hstale]
  | test p | publish p | again p | waiting p | gcLock p =>
    cases hn : p.m_notidied <;> simp
  | clear p =>
    -- the flag is taken down
    cases hn : p.m_notidied <;> simp <;> omega
  | many p =>
    simp only [fetching]
    split <;> simp
  | fetch | empty => simp [fetching]
  | loop | check => cases stopping <;> simp
  | start | wait | wake | resume | bind | swapIn | inFiber => simp

/-- How many steps of `idle` with `m_mutex` are left before the last one. -/
def lockRank : ProcPc Nat → Nat
  | .test => 3
  | .publish => 2
  | .again => 1
  | _ => 0

theorem next_locked {stopping : Bool} {state : TaskState} {p p' : Processer Nat}
    (h : p.next stopping state = some p') (hl : p.pc.locked = true) (hl' : p'.pc.locked = true) :
    lockRank p'.pc < lockRank p.pc := by
  cases Processer.next_spec h with
  | test p =>
    simp only
    split <;> decide
  | publish => exact Nat.lt_succ_self 1
  | again p =>
    simp only
    split <;> decide
  | clear | wait | wake => cases hl'
  | _ => cases hl

theorem next_none {stopping : Bool} {state : TaskState} {p : Processer Nat}
    (h : p.next stopping state = none) : p.pc = .waiting false ∨ p.pc = .exited := by
  unfold Processer.next at h
  cases hpc : p.pc with
  | take =>
    simp only [hpc] at h
    split at h <;> cases h
  | exchange size r =>
    simp only [hpc] at h
    split at h <;> cases h
  | pop left r =>
    simp only [hpc] at h
    cases left with
    | zero => cases h
    | succ left =>
      simp only at h
      split at h <;> cases h
  | waiting notified =>
    cases notified with
    | false => exact .inl rfl
    | true => simp [hpc] at h
  | exited => exact .inr rfl
  | _ => simp [hpc] at h

/-- A processer that cannot go on sleeps, is at its end, or runs a fiber. -/
theorem procStep_none {s : Scheduler m k} (h : s.Sound owner) {i : Fin m}
    (hn : s.procStep i = none) : ((s.m_processers i).pc = .waiting false ∨
      (s.m_processers i).pc = .exited) ∨ s.Runs i := by
  unfold procStep at hn
  simp only [Option.bind_eq_bind] at hn
  cases hnext : (s.m_processers i).next s.isStopping (s.fiberState (s.m_processers i).pc) with
  | none => exact .inl (next_none hnext)
  | some p =>
    right
    rw [hnext, Option.bind_some] at hn
    cases hpc : (s.m_processers i).pc with
    | inFiber fb =>
      refine ⟨fb, hpc, ?_⟩
      have hin := (h.inv.life fb).inside i ((life_spot_eq hpc fb).trans (if_pos rfl))
      change (s.fibers fb).pc.inside = true at hin
      simp only [hpc, fiberWrite] at hn
      cases hf : (s.fibers fb).pc with
      | run => rfl
      | yielding | ending => simp [hf] at hn
      | unborn | out | ended =>
        rw [hf] at hin
        cases hin
    | _ => simp [hpc, fiberWrite] at hn

/-- A call that cannot go on waits for room, or for `m_mutex`. -/
theorem callStep_none {s : Scheduler m k} (h : s.Sound owner) (hid : s.id < m) {c : Fin k}
    (hc : s.callers c ≠ .idle) (hn : s.callStep c = none) : (∃ i, s.Spins c i ∧ s.Full i) ∨
      ∃ i moves, s.callers c = .add i moves .notify ∧ (s.m_processers i).pc.locked = true := by
  unfold callStep at hn
  cases hpc : s.callers c with
  | idle => exact absurd hpc hc
  | read | test =>
    simp only [hpc] at hn
    split at hn <;> cases hn
  | scan =>
    simp only [hpc] at hn
    split at hn
    · split at hn <;> cases hn
    · cases hn
  | pick =>
    simp only [hpc, dif_pos hid] at hn
    split at hn <;> cases hn
  | robin =>
    simp only [hpc] at hn
    split at hn <;> cases hn
  | skip | move => simp [hpc] at hn
  | add i moves a =>
    simp only [hpc, Option.map_eq_none_iff] at hn
    cases a with
    | idle => exact absurd hpc (h.adding c i moves)
    | enter =>
      simp only [Processer.addStep] at hn
      split at hn <;> cases hn
    | push fb =>
      simp only [Processer.addStep, ite_eq_right_iff, reduceCtorEq, imp_false] at hn
      exact .inl ⟨i, ⟨moves, fb, hpc⟩, not_lt.mp hn⟩
    | count | test | flag | flagNotify => cases hn
    | notify =>
      simp only [Processer.addStep, Option.map_eq_none_iff, Processer.notify,
        ite_eq_left_iff, reduceCtorEq, imp_false, not_not] at hn
      exact .inr ⟨i, moves, rfl, hn⟩

/-- What a call has still to do at the processer at `i` after its push. -/
def owes (i : Fin m) : CallPc m → Nat
  | .add j _ a => if j = i then due a else 0
  | _ => 0

theorem owes_after (i j : Fin m) (moves : Bool) (a : AddPc Nat) :
    owes i (after j moves a) = if j = i then due a else 0 := by
  unfold after
  by_cases ha : a = .idle
  · rw [if_pos ha, ha]
    cases moves <;> simp [owes, due, addRank]
  · rw [if_neg ha]
    rfl

/-- A step that pushes nothing there. -/
theorem owes_step {s s' : Scheduler m k} {a : Act m k} (hst : s.step a = some s') {i : Fin m}
    (hsame : (s'.m_processers i).newQueue = (s.m_processers i).newQueue) (c : Fin k) :
    owes i (s'.callers c) ≤ owes i (s.callers c) := by
  rcases step_caller hst c with rfl | he | ⟨-, fb, -, he⟩
  · cases callStep_goes hst with
    | add j moves x x' p hx hadd =>
      simp only [setCaller, Function.update_self, owes_after, hx]
      rw [show owes i (.add j moves x) = if j = i then due x else 0 from rfl]
      by_cases hj : j = i
      · subst hj
        rw [if_pos rfl, if_pos rfl]
        rcases addStep_cases hadd with ⟨fb, -, -, rfl | rfl⟩ | ⟨fb, -, -, -, rfl⟩ | ⟨hlt, -⟩
        · exact Nat.zero_le _
        · exact Nat.zero_le _
        · simp only [setProc, Function.update_self] at hsame
          exact absurd (congrArg List.length hsame) (by simp)
        · exact le_of_lt hlt
      · rw [if_neg hj]
        exact Nat.zero_le _
    | way id pc hrank hold hnew =>
      simp only [setCaller, Function.update_self]
      cases pc with
      | add j moves x =>
        obtain ⟨fb, rfl⟩ := hnew j moves x rfl
        simp [owes, due]
      | _ => exact Nat.zero_le _
  · rw [he]
  · rw [he]
    exact Nat.zero_le _

/-- No call has anything to do at the processer after its push: only its own thread and the
destructor change it. -/
theorem proc_kept {s s' : Scheduler m k} {a : Act m k} (hst : s.step a = some s') {i : Fin m}
    (hsame : (s'.m_processers i).newQueue = (s.m_processers i).newQueue)
    (howes : ∀ c, owes i (s.callers c) = 0) (ha : a ≠ .proc i) (hstop : a ≠ .stop) :
    s'.m_processers i = s.m_processers i := by
  rcases step_proc hst i with hp | he | ⟨c, moves, x, x', -, hx, hadd, -⟩ | ⟨hp, -⟩
  · exact absurd hp ha
  · exact he
  · rcases addStep_cases hadd with ⟨fb, -, he, -⟩ | ⟨fb, -, -, -, he⟩ | ⟨hlt, -⟩
    · exact he
    · rw [he] at hsame
      exact absurd (congrArg List.length hsame) (by simp)
    · have hc := howes c
      simp only [hx, owes, if_true] at hc
      omega
  · exact absurd hp hstop

/-- The work of a processer gets less with each of its steps as long as `newQueue` stays as it is. -/
theorem work_step {s s' : Scheduler m k} (h : s.Sound owner) {i : Fin m}
    (hst : s.procStep i = some s')
    (hsame : (s'.m_processers i).newQueue = (s.m_processers i).newQueue)
    (hne : (s.m_processers i).newQueue ≠ []) :
    work (s'.m_processers i) < work (s.m_processers i) := by
  obtain ⟨p, fibers, hn, -, rfl⟩ := procStep_spec hst
  have hp : s.setProc i p i = p := Function.update_self ..
  simp only [hp] at hsame ⊢
  refine next_work hn hsame hne fun fb hpc => ?_
  rw [hpc]
  exact ((h.inv.life fb).left i ((life_spot_eq hpc fb).trans (if_pos rfl))).2

/-! ## In a fair run -/

theorem Hogs.later {i : Fin m} {t t' : ℕ} (h : Hogs owner σ t i) (ht : t ≤ t') :
    Hogs owner σ t' i := fun t'' ht'' => h t'' (le_trans ht ht'')

section Fair
variable (hrun : FairRun owner σ l)
include hrun

theorem sound_at (t : ℕ) : (σ t).Sound owner := sound _ (hrun.path.reachable t)

theorem moves_at (t : ℕ) : l t = none ∧ σ (t + 1) = σ t ∨
    ∃ a, l t = some a ∧ (σ t).step a = some (σ (t + 1)) ∧ (σ t).InOrder owner a := by
  have hm := hrun.path.moves t
  cases hl : l t with
  | none =>
    rw [hl] at hm
    exact .inl ⟨rfl, hm⟩
  | some a =>
    rw [hl] at hm
    exact .inr ⟨a, rfl, hm⟩

theorem call_off {c : Fin k} (h : ∀ᶠ t in atTop, l t ≠ some (.call c)) :
    ∀ᶠ t in atTop, (σ t).callStep c = none := by
  filter_upwards [(hrun.calls c).disabled h] with t ht
  by_contra hne
  obtain ⟨s', hs'⟩ := Option.ne_none_iff_exists'.mp hne
  exact ht ⟨s', hs', trivial⟩

theorem proc_off {i : Fin m} (h : ∀ᶠ t in atTop, l t ≠ some (.proc i)) :
    ∀ᶠ t in atTop, (σ t).procStep i = none := by
  filter_upwards [(hrun.procs i).disabled h] with t ht
  by_contra hne
  obtain ⟨s', hs'⟩ := Option.ne_none_iff_exists'.mp hne
  exact ht ⟨s', hs', trivial⟩

/-- A call that is not over goes on or stays where it is. -/
theorem call_at {c : Fin k} {t : ℕ} (hc : (σ t).callers c ≠ .idle) :
    l t = some (.call c) ∧ ((σ (t + 1)).callers c).rank < ((σ t).callers c).rank ∨
      l t ≠ some (.call c) ∧ (σ (t + 1)).callers c = (σ t).callers c := by
  rcases moves_at hrun t with ⟨hl, he⟩ | ⟨a, hl, hst, hord⟩
  · right
    rw [hl, he]
    simp
  · rcases step_caller hst c with rfl | he | ⟨hidle, -⟩
    · exact .inl ⟨hl, callStep_rank hst⟩
    · by_cases ha : a = .call c
      · subst ha
        exact .inl ⟨hl, callStep_rank hst⟩
      · right
        rw [hl]
        exact ⟨by simpa using ha, he⟩
    · exact absurd hidle hc

/-- The destructor comes to its end, or stays where it is. -/
theorem stop_quiet : ∀ᶠ t in atTop, l t ≠ some .stop := by
  refine LTS.eventually_quiet (f := fun t => (σ t).stop.rank m) (.of_forall fun t => ?_)
  rcases moves_at hrun t with ⟨hl, he⟩ | ⟨a, hl, hst, -⟩
  · right
    rw [hl, he]
    exact ⟨by simp, le_refl _⟩
  · by_cases ha : a = .stop
    · subst ha
      exact .inl (stopStep_rank hst)
    · right
      rw [(step_state hst ha).2]
      exact ⟨by simpa [hl] using ha, le_refl _⟩

/-- `idle` gives `m_mutex` back. -/
theorem not_locked (i : Fin m) : ¬ ∀ᶠ t in atTop, ((σ t).m_processers i).pc.locked = true := by
  intro hlock
  have hquiet : ∀ᶠ t in atTop, l t ≠ some (.proc i) := by
    refine LTS.eventually_quiet (f := fun t => lockRank ((σ t).m_processers i).pc) ?_
    filter_upwards [hlock, (tendsto_add_atTop_nat 1).eventually hlock] with t ht ht'
    rcases moves_at hrun t with ⟨hl, he⟩ | ⟨a, hl, hst, hord⟩
    · right
      rw [hl, he]
      exact ⟨by simp, le_refl _⟩
    · by_cases ha : a = .proc i
      · subst ha
        obtain ⟨p, fibers, hn, -, he⟩ := procStep_spec hst
        have hp : (σ (t + 1)).m_processers i = p := by
          rw [he]
          exact Function.update_self ..
        rw [hp] at ht' ⊢
        exact .inl (next_locked hn ht ht')
      · right
        refine ⟨by simpa [hl] using ha, ?_⟩
        rcases step_pc hst i with hp | he | ⟨⟨b, hb, -⟩, -⟩
        · exact absurd hp ha
        · rw [he]
        · rw [hb] at ht
          cases ht
  obtain ⟨t, hoff, ht⟩ := ((proc_off hrun hquiet).and hlock).exists
  rcases procStep_none (sound_at hrun t) hoff with (hpc | hpc) | ⟨fb, hpc, -⟩
  · rw [hpc] at ht
    cases ht
  · rw [hpc] at ht
    cases ht
  · rw [hpc] at ht
    cases ht

/-- A call that does not return waits for room that never comes. -/
theorem stuck_spins (hm : 0 < m) {c : Fin k} (hc : ∀ᶠ t in atTop, (σ t).callers c ≠ .idle) :
    ∃ i, ∀ᶠ t in atTop, (σ t).Spins c i ∧ (σ t).Full i := by
  have hquiet : ∀ᶠ t in atTop, l t ≠ some (.call c) := by
    refine LTS.eventually_quiet (f := fun t => ((σ t).callers c).rank) ?_
    filter_upwards [hc] with t ht
    exact (call_at hrun ht).imp And.right fun h => ⟨h.1, le_of_eq (congrArg CallPc.rank h.2)⟩
  have hkeep : ∀ᶠ t in atTop, (σ (t + 1)).callers c = (σ t).callers c := by
    filter_upwards [hc, hquiet] with t ht hq
    rcases call_at hrun ht with ⟨hl, -⟩ | ⟨-, he⟩
    · exact absurd hl hq
    · exact he
  obtain ⟨pc, hpc⟩ := LTS.eventually_const (f := fun t => (σ t).callers c) hkeep
  have hwait : ∀ᶠ t in atTop, (∃ i, (σ t).Spins c i ∧ (σ t).Full i) ∨
      ∃ i moves, (σ t).callers c = .add i moves .notify ∧
        ((σ t).m_processers i).pc.locked = true := by
    filter_upwards [hc, call_off hrun hquiet] with t ht hoff
    have hid := id_lt hm (σ t) (fiberLts_reachable _ (hrun.path.reachable t))
    exact callStep_none (sound_at hrun t) hid ht hoff
  obtain ⟨t, ht, hw⟩ := (hpc.and hwait).exists
  rcases hw with ⟨i, ⟨moves, fb, hspin⟩, -⟩ | ⟨i, moves, hnotify, -⟩
  · rw [ht] at hspin
    refine ⟨i, ?_⟩
    filter_upwards [hpc, hwait] with t' ht' hw'
    rw [hspin] at ht'
    rcases hw' with ⟨i', ⟨moves', fb', he⟩, hfull⟩ | ⟨i', moves', he, -⟩
    · rw [ht'] at he
      cases he
      exact ⟨⟨moves, fb, ht'⟩, hfull⟩
    · rw [ht'] at he
      cases he
  · rw [ht] at hnotify
    refine absurd ?_ (not_locked hrun i)
    filter_upwards [hpc, hwait] with t' ht' hw'
    rw [hnotify] at ht'
    rcases hw' with ⟨i', ⟨moves', fb', he⟩, -⟩ | ⟨i', moves', he, hlock⟩
    · rw [ht'] at he
      cases he
    · rw [ht'] at he
      cases he
      exact hlock

section Still
variable {i : Fin m} (hsame : ∀ᶠ t in atTop,
  ((σ (t + 1)).m_processers i).newQueue = ((σ t).m_processers i).newQueue)
include hsame

/-- The calls that have pushed come to their ends. -/
theorem owes_none : ∀ᶠ t in atTop, ∀ c, owes i ((σ t).callers c) = 0 := by
  refine eventually_all.mpr fun c => ?_
  have hle : ∀ᶠ t in atTop, owes i ((σ (t + 1)).callers c) ≤ owes i ((σ t).callers c) := by
    filter_upwards [hsame] with t ht
    rcases moves_at hrun t with ⟨-, he⟩ | ⟨a, -, hst, hord⟩
    · rw [he]
    · exact owes_step hst ht c
  obtain ⟨v, hv⟩ := LTS.eventually_least (f := fun t => owes i ((σ t).callers c)) hle
  by_cases hzero : v = 0
  · rw [hzero] at hv
    exact hv
  · have hc : ∀ᶠ t in atTop, (σ t).callers c ≠ .idle := by
      filter_upwards [hv] with t ht hidle
      rw [hidle] at ht
      exact hzero ht.symm
    obtain ⟨j, hspin⟩ := stuck_spins hrun i.pos hc
    obtain ⟨t, ht, ⟨moves, fb, hpush⟩, -⟩ := (hv.and hspin).exists
    rw [hpush] at ht
    simp only [owes, due, ite_self] at ht
    exact absurd ht.symm hzero

variable (hne : ∀ᶠ t in atTop, ((σ t).m_processers i).newQueue ≠ [])
include hne

/-- It waits for something from some time on, and stays as it is. -/
theorem still_rests : (∀ᶠ t in atTop, (σ t).procStep i = none) ∧
    ∃ p, ∀ᶠ t in atTop, (σ t).m_processers i = p := by
  have hquiet : ∀ᶠ t in atTop, l t ≠ some (.proc i) := by
    refine LTS.eventually_quiet (f := fun t => work ((σ t).m_processers i)) ?_
    filter_upwards [hsame, hne, owes_none hrun hsame, stop_quiet hrun] with t ht ht' howes hs
    rcases moves_at hrun t with ⟨hl, he⟩ | ⟨a, hl, hst, hord⟩
    · right
      rw [hl, he]
      exact ⟨by simp, le_refl _⟩
    · by_cases ha : a = .proc i
      · subst ha
        exact .inl (work_step (sound_at hrun t) hst ht ht')
      · right
        rw [proc_kept hst ht howes ha fun ha => hs (by rw [hl, ha])]
        exact ⟨by simpa [hl] using ha, le_refl _⟩
  refine ⟨proc_off hrun hquiet, LTS.eventually_const (f := fun t => (σ t).m_processers i) ?_⟩
  filter_upwards [hsame, owes_none hrun hsame, hquiet, stop_quiet hrun] with t ht howes hq hs
  rcases moves_at hrun t with ⟨-, he⟩ | ⟨a, hl, hst, -⟩
  · rw [he]
  · exact proc_kept hst ht howes (fun ha => hq (by rw [hl, ha])) fun ha => hs (by rw [hl, ha])

/-- A processer from whose `newQueue` nothing is popped sleeps or quits, or its fiber does not swap
out. -/
theorem still_lasts : (∀ᶠ t in atTop, (σ t).Asleep i ∨ (σ t).Quits i) ∨
    (∀ᶠ t in atTop, Hogs owner σ t i) ∨
    ∃ c, owner c = some i ∧ ∃ j, ∀ᶠ t in atTop, (σ t).Spins c j ∧ (σ t).Full j := by
  obtain ⟨hoff, p, hp⟩ := still_rests hrun hsame hne
  by_cases hrest : p.pc = .waiting false ∨ p.pc = .exited
  · left
    filter_upwards [hp, owes_none hrun hsame] with t ht howes
    rcases hrest with hpc | hpc
    · refine .inl ⟨by rw [ht]; exact hpc, fun c moves a ha => ?_⟩
      have hc := howes c
      simp only [ha, owes, if_true] at hc
      cases a with
      | enter fb => exact ⟨fb, .inl rfl⟩
      | push fb => exact ⟨fb, .inr rfl⟩
      | idle => exact absurd ha ((sound_at hrun t).adding c i moves)
      | _ => cases hc
    · rw [← ht] at hpc
      exact .inr ⟨(sound_at hrun t).up i hpc, by rw [hpc]; rfl⟩
  · right
    have hruns : ∀ᶠ t in atTop, (σ t).Runs i := by
      filter_upwards [hp, hoff] with t ht ho
      refine (procStep_none (sound_at hrun t) ho).resolve_left ?_
      rw [ht]
      exact hrest
    by_cases hstuck : ∃ c, owner c = some i ∧ ∀ᶠ t in atTop, (σ t).callers c ≠ .idle
    · obtain ⟨c, ho, hc⟩ := hstuck
      exact .inr ⟨c, ho, stuck_spins hrun i.pos hc⟩
    · left
      obtain ⟨t₀, hruns⟩ := eventually_atTop.mp hruns
      refine eventually_atTop.mpr ⟨t₀, fun t ht t' ht' => ⟨hruns t' (le_trans ht ht'), ?_⟩⟩
      intro c ho
      by_contra hne
      refine hstuck ⟨c, ho, eventually_atTop.mpr ⟨t', fun t'' ht'' hidle => hne ⟨t'', ht'', hidle⟩⟩⟩

end Still

/-- A `newQueue` that stays full stays as it is. -/
theorem full_still {i : Fin m} (hfull : ∀ᶠ t in atTop, (σ t).Full i) :
    ∀ᶠ t in atTop, ((σ (t + 1)).m_processers i).newQueue = ((σ t).m_processers i).newQueue := by
  filter_upwards [hfull, (tendsto_add_atTop_nat 1).eventually hfull] with t ht ht'
  unfold Full at ht ht'
  rcases moves_at hrun t with ⟨-, he⟩ | ⟨a, -, hst, -⟩
  · rw [he]
  · rcases step_newQueue hst i with rfl | he | ⟨hlt, -⟩
    · obtain ⟨p, fibers, hn, -, he⟩ := procStep_spec hst
      have hp : (σ (t + 1)).m_processers i = p := by
        rw [he]
        exact Function.update_self ..
      have hroom := (sound_at hrun t).room i
      rw [hp] at ht' ⊢
      rcases Processer.next_queue hn with ⟨he, -⟩ | ⟨he, -⟩ | ⟨-, he, -⟩
      · exact he
      · exact he
      · simp only [he, List.length_drop, capacity] at ht' hroom
        omega
    · exact he
    · exact absurd hlt (not_lt.mpr ht)

/-- A processer whose `newQueue` stays full sleeps or quits, or its fiber does not swap out. -/
theorem full_lasts {i : Fin m} (hfull : ∀ᶠ t in atTop, (σ t).Full i) :
    (∀ᶠ t in atTop, (σ t).Asleep i ∨ (σ t).Quits i) ∨ (∀ᶠ t in atTop, Hogs owner σ t i) ∨
    ∃ c, owner c = some i ∧ ∃ j, ∀ᶠ t in atTop, (σ t).Spins c j ∧ (σ t).Full j := by
  refine still_lasts hrun (full_still hrun hfull) ?_
  filter_upwards [hfull] with t ht he
  simp [Full, he, capacity] at ht

end Fair

/-! ## Whether calls return -/

/-- A stalled state stays one, and the call does not return. -/
theorem not_returns (hrun : FairRun owner σ l) {t : ℕ}
    (hst : (σ t).Stalled owner (Hogs owner σ t)) : ¬ Returns owner σ := by
  obtain ⟨procs, hb, c, ho, j, hj, hc⟩ := hst
  have hstay (t' : ℕ) (ht' : t ≤ t') :
      (σ t').Blocked owner (Hogs owner σ t') procs ∧ (σ t').Spins c j := by
    induction t', ht' using Nat.le_induction with
    | base => exact ⟨hb, hc⟩
    | succ t' _ ih =>
      obtain ⟨hb, hc⟩ := ih
      have hhogs (i : Fin m) (h : Hogs owner σ t' i) :
          (σ t').Runs i ∧ Hogs owner σ (t' + 1) i :=
        ⟨(h t' (le_refl t')).1, h.later (Nat.le_succ t')⟩
      rcases moves_at hrun t' with ⟨-, he⟩ | ⟨a, -, hst, hord⟩
      · rw [he]
        exact ⟨hb.mono fun i h => (hhogs i h).2, hc⟩
      · exact ⟨hb.step (sound_at hrun t') hhogs hst, hc.step (hb j hj).1 hst⟩
  intro hret
  obtain ⟨i, ho⟩ := Option.isSome_iff_exists.mp ho
  obtain ⟨moves, fb, hpush⟩ := hc
  obtain ⟨t', ht', hidle⟩ := hret c i t ho (by simp [hpush])
  obtain ⟨moves', fb', hpush'⟩ := (hstay t' ht').2
  rw [hidle] at hpush'
  cases hpush'

/-- A call that does not return comes to a stalled state. -/
theorem stalls (hrun : FairRun owner σ l) {c : Fin k} {i : Fin m} (ho : owner c = some i)
    (hc : ∀ᶠ t in atTop, (σ t).callers c ≠ .idle) :
    ∃ t, (σ t).Stalled owner (Hogs owner σ t) := by
  obtain ⟨j, hspin⟩ := stuck_spins hrun i.pos hc
  -- those that are full from some time on
  let procs : Set (Fin m) := {j | ∀ᶠ t in atTop, (σ t).Full j}
  have hall : ∀ᶠ t in atTop, ∀ i, i ∈ procs → (σ t).Full i ∧ (((σ t).Asleep i ∨ (σ t).Quits i) ∨
      Hogs owner σ t i ∨ ∃ c, owner c = some i ∧ ∃ j ∈ procs, (σ t).Spins c j) := by
    refine eventually_all.mpr fun i => ?_
    by_cases hi : i ∈ procs
    · rcases full_lasts hrun hi with hs | hh | ⟨c, ho, j, hspin⟩
      · filter_upwards [show ∀ᶠ t in atTop, (σ t).Full i from hi, hs] with t ht hs _
        exact ⟨ht, .inl hs⟩
      · filter_upwards [show ∀ᶠ t in atTop, (σ t).Full i from hi, hh] with t ht hh _
        exact ⟨ht, .inr (.inl hh)⟩
      · filter_upwards [show ∀ᶠ t in atTop, (σ t).Full i from hi, hspin] with t ht hsp _
        exact ⟨ht, .inr (.inr ⟨c, ho, j, hspin.mono fun _ h => h.2, hsp.1⟩)⟩
    · exact .of_forall fun t h => absurd h hi
  obtain ⟨t, hb, hsp⟩ := (hall.and hspin).exists
  exact ⟨t, procs, hb, c, by simp [ho], j, hspin.mono fun _ h => h.2, hsp.1⟩

/-- In a fair run every call of `createFiber` from a fiber returns exactly where no state is
stalled. -/
theorem returns_iff (owner : Fin k → Option (Fin m)) (σ : ℕ → Scheduler m k)
    (l : ℕ → Option (Act m k)) (hrun : FairRun owner σ l) :
    Returns owner σ ↔ ∀ t, ¬ (σ t).Stalled owner (Hogs owner σ t) := by
  refine ⟨fun hret t hst => not_returns hrun hst hret, fun hno => ?_⟩
  by_contra hret
  unfold Returns at hret
  push Not at hret
  obtain ⟨c, i, t, ho, -, hc⟩ := hret
  obtain ⟨t', hst⟩ := stalls hrun ho (eventually_atTop.mpr ⟨t, hc⟩)
  exact hno t' hst
/-! ## Runs that end -/

/-- A run to a state in which nobody can go on, and then nothing. -/
theorem exists_fair {s : Scheduler m k} {ls : List (Act m k)}
    (hrun : (fiberLts owner).Run started ls s) (hcalls : ∀ c, s.callStep c = none)
    (hprocs : ∀ i, s.procStep i = none) :
    ∃ σ, FairRun owner σ (fun t => ls[t]?) ∧ ∀ᶠ t in atTop, σ t = s := by
  obtain ⟨σ, hpath, hend⟩ := LTS.exists_path (T := fiberLts owner) rfl hrun
  refine ⟨σ, ⟨hpath, fun c => LTS.fair_of_end hend ?_, fun i => LTS.fair_of_end hend ?_⟩, hend⟩
  · intro hen
    obtain ⟨s', hst, -⟩ := hen
    change s.callStep c = some s' at hst
    rw [hcalls c] at hst
    cases hst
  · intro hen
    obtain ⟨s', hst, -⟩ := hen
    change s.procStep i = some s' at hst
    rw [hprocs i] at hst
    cases hst

/-- A replay of steps that are in order in every state. -/
theorem run_free {s s' : Scheduler m k} {ls : List (Act m k)}
    (hls : ∀ a ∈ ls, ∀ s : Scheduler m k, s.InOrder owner a) (h : LTS.exec step s ls = some s') :
    (fiberLts owner).Run s ls s' := by
  induction ls generalizing s with
  | nil =>
    cases h
    exact .nil _
  | cons a ls ih =>
    obtain ⟨ha, hls⟩ := List.forall_mem_cons.mp hls
    obtain ⟨s₁, hst, h⟩ := Option.bind_eq_some_iff.mp h
    exact .cons ⟨hst, ha s⟩ (ih hls h)

theorem run_calls {s s' : Scheduler m k} {c : Fin k} {n : Nat}
    (h : LTS.exec step s (List.replicate n (.call c)) = some s') :
    (fiberLts owner).Run s (List.replicate n (.call c)) s' := by
  refine run_free (fun a ha s => ?_) h
  rw [List.eq_of_mem_replicate ha]
  trivial

/-! ## One processer, and one fiber that creates others -/

/-- The second thread makes the calls of the fiber. -/
def lastCalls (c : Fin 2) : Option (Fin 1) := if c.val = 1 then some ⟨0, Nat.zero_lt_one⟩ else none

/-- The fiber has made `n` others. -/
def created (n : Nat) : Scheduler 1 2 where
  m_state := .running
  m_processers _ := ⟨n, [], List.range' 1 n, [], .running, true, .inFiber 0⟩
  id := 0
  fibers fb := if fb = 0 then ⟨.running, some ⟨0, Nat.zero_lt_one⟩, .run, .none⟩
    else if fb ≤ n then ⟨.running, none, .out, .answered⟩ else ⟨.init, none, .unborn, .none⟩
  callers _ := .idle
  stop := .idle

/-- It is in the loop of processer.cc:70 with one more. -/
def atPush (n : Nat) : Scheduler 1 2 :=
  { created n with
    fibers := (created n).setFiber (n + 1) ⟨.running, none, .out, .answered⟩
    callers := (created n).setCaller ⟨1, Nat.one_lt_two⟩
      (.add ⟨0, Nat.zero_lt_one⟩ true (.push (n + 1))) }

/-- A fiber is created from outside, and swapped in. -/
def enterFiber : List (Act 1 2) :=
  .createFiber ⟨0, Nat.two_pos⟩ 0 :: List.replicate 12 (.call ⟨0, Nat.two_pos⟩) ++
    List.replicate 13 (.proc ⟨0, Nat.zero_lt_one⟩)

theorem enterFiber_exec : LTS.exec step started enterFiber = some (created 0) := by
  have hfields : (LTS.exec step started enterFiber).map (fun s => (s.m_state, s.m_processers 0,
      s.id, s.callers 0, s.callers 1, s.stop)) =
        some (.running, (created 0).m_processers 0, 0, .idle, .idle, .idle) := by decide +kernel
  have hfibers (fb : Nat) : (LTS.exec step started enterFiber).map (fun s => s.fibers fb) =
      some ((created 0).fibers fb) := by
    cases fb with
    | zero => rfl
    | succ fb => rfl
  obtain ⟨s, hs, hf⟩ := Option.map_eq_some_iff.mp hfields
  simp only [hs, Option.map_some, Option.some.injEq] at hfibers
  rw [hs]
  obtain ⟨st, procs, id, fibers, callers, stop⟩ := s
  simp only [Prod.mk.injEq] at hf
  obtain ⟨rfl, hp, rfl, h0, h1, rfl⟩ := hf
  have hprocs : procs = (created 0).m_processers := by
    funext i
    rw [Subsingleton.elim i 0]
    exact hp
  have hcallers : callers = (created 0).callers := by
    funext c
    match c with
    | 0 => exact h0
    | 1 => exact h1
  rw [hprocs, hcallers, show fibers = _ from funext hfibers]
  rfl

theorem create_exec (n : Nat) : LTS.exec step (created n)
    (.createFiber 1 (n + 1) :: List.replicate 6 (.call 1)) = some (atPush n) := by
  simp [List.replicate, LTS.exec, step, callStep, created, atPush, setCaller, setFiber, setProc,
    Processer.addStep, Processer.isWaitting, Processer.isBlock]

theorem push_exec (n : Nat) (hn : n < capacity) :
    LTS.exec step (atPush n) (List.replicate 5 (.call 1)) = some (created (n + 1)) := by
  have hprocs : (fun _ => ⟨n + 1, [], List.range' 1 n ++ [n + 1], [], .running, true, .inFiber 0⟩) =
      (created (n + 1)).m_processers := by
    funext i
    simp only [created, List.range'_concat, Nat.one_mul, Nat.add_comm 1 n]
  have hfibers : (created n).setFiber (n + 1) ⟨.running, none, .out, .answered⟩ =
      (created (n + 1)).fibers := by
    funext fb
    simp only [setFiber, created, Function.update_apply]
    split_ifs <;> first | rfl | omega
  have hset (p : Processer Nat) : (created n).setProc 0 p = fun _ => p := by
    funext i
    rw [Subsingleton.elim i 0]
    exact Function.update_self ..
  have hexec : LTS.exec step (atPush n) (List.replicate 5 (.call 1)) =
      some { created n with
        m_processers := (created n).setProc 0
          ⟨n + 1, [], List.range' 1 n ++ [n + 1], [], .running, true, .inFiber 0⟩
        fibers := (created n).setFiber (n + 1) ⟨.running, none, .out, .answered⟩ } := by
    simp [List.replicate, LTS.exec, step, callStep, atPush, created, setCaller, setProc,
      Processer.addStep, Processer.isRunning, hn]
  rw [hexec, hset, hprocs, hfibers]
  rfl

theorem enterFiber_run : (fiberLts lastCalls).Run started enterFiber (created 0) := by
  refine run_free (fun a ha s => ?_) enterFiber_exec
  simp only [enterFiber, List.mem_append, List.mem_cons, List.mem_replicate] at ha
  rcases ha with (rfl | ⟨-, rfl⟩) | ⟨-, rfl⟩
  · intro i ho
    cases ho
  · trivial
  · trivial

theorem create_run (n : Nat) : (fiberLts lastCalls).Run (created n)
    (.createFiber 1 (n + 1) :: List.replicate 6 (.call 1)) (atPush n) := by
  obtain ⟨s₁, hst, h⟩ := Option.bind_eq_some_iff.mp (create_exec n)
  exact .cons ⟨hst, fun i _ => ⟨⟨0, rfl, rfl⟩, fun c _ => rfl⟩⟩ (run_calls h)

/-- As long as there is room the call returns. -/
theorem created_run (n : Nat) (hn : n ≤ capacity) :
    ∃ ls, (fiberLts lastCalls).Run started ls (created n) := by
  induction n with
  | zero => exact ⟨_, enterFiber_run⟩
  | succ n ih =>
    obtain ⟨ls, hls⟩ := ih (Nat.le_of_succ_le hn)
    exact ⟨_, (hls.append (create_run n)).append (run_calls (push_exec n hn))⟩

/-- With one processer, the call after 128 others does not return. -/
theorem spins_on_itself : ¬ ∀ (m k : Nat) (owner : Fin k → Option (Fin m)) (σ : ℕ → Scheduler m k)
    (l : ℕ → Option (Act m k)), FairRun owner σ l → Returns owner σ := by
  intro hall
  obtain ⟨ls, hls⟩ := created_run capacity (le_refl _)
  have hspin : (atPush capacity).Spins 1 0 := ⟨true, capacity + 1, rfl⟩
  have hfull : (atPush capacity).Full 0 := le_of_eq List.length_range'.symm
  have hcalls (c : Fin 2) : (atPush capacity).callStep c = none := by
    match c with
    | 0 => rfl
    | 1 => exact push_full hspin hfull
  have hprocs (i : Fin 1) : (atPush capacity).procStep i = none :=
    procStep_runs ⟨0, rfl, rfl⟩
  obtain ⟨σ, hrun, hend⟩ := exists_fair (hls.append (create_run capacity)) hcalls hprocs
  obtain ⟨t, ht⟩ := hend.exists
  refine not_returns hrun (t := t) ?_ (hall 1 2 lastCalls σ _ hrun)
  rw [ht]
  exact stalled_self rfl hspin hfull

/-- The condition, for a fiber that has no call in progress. -/
def atEase (s : Scheduler 1 2) : Act 1 2 → Bool
  | .finish _ => decide (s.callers ⟨1, Nat.one_lt_two⟩ = .idle)
  | .call _ | .proc _ => true
  | _ => false

theorem atEase_spec (s : Scheduler 1 2) (a : Act 1 2) (h : atEase s a = true) :
    s.InOrder lastCalls a := by
  cases a with
  | finish i =>
    intro c ho
    match c with
    | 0 => cases ho
    | 1 => exact of_decide_eq_true h
  | call | proc => trivial
  | createFiber | addFiber | register | withdraw | yield | stop => cases h

/-- The fiber makes one other, both come to their ends, and the processer goes to sleep. -/
theorem returns_iff_once : ∃ σ l, FairRun lastCalls σ l ∧ (∃ t, l t = some (.createFiber 1 1)) ∧
    Returns lastCalls σ ∧ ∀ t, ¬ (σ t).Stalled lastCalls (Hogs lastCalls σ t) := by
  let rest : List (Act 1 2) := .finish 0 :: List.replicate 14 (.proc 0) ++
    .finish 0 :: List.replicate 20 (.proc 0)
  have hrest : (LTS.execWith step atEase (created 1) rest).any (fun s =>
      decide (s.callers 0 = .idle ∧ s.callers 1 = .idle ∧
        (s.m_processers 0).pc = .waiting false)) = true := by decide +kernel
  obtain ⟨s, hs, hb⟩ := (Option.any_eq_true _ _).mp hrest
  obtain ⟨h0, h1, hpc⟩ := of_decide_eq_true hb
  have hidle (c : Fin 2) : s.callers c = .idle := by
    match c with
    | 0 => exact h0
    | 1 => exact h1
  have hpush : (fiberLts lastCalls).Run (atPush 0) (List.replicate 5 (.call 1)) (created 1) :=
    run_calls (push_exec 0 (by decide))
  have hsleep : (fiberLts lastCalls).Run (created 1) rest s := LTS.run_of_execWith atEase_spec hs
  obtain ⟨σ, hfair, hend⟩ := exists_fair
    (((enterFiber_run.append (create_run 0)).append hpush).append hsleep)
    (fun c => by unfold callStep; rw [hidle c])
    (fun i => by rw [Subsingleton.elim i 0]; exact procStep_waiting hpc)
  have hret : Returns lastCalls σ := by
    intro c i t _ _
    obtain ⟨t', hs', ht'⟩ := (hend.and (Filter.eventually_ge_atTop t)).exists
    exact ⟨t', ht', by rw [hs']; exact hidle c⟩
  refine ⟨σ, _, hfair, ?_, hret, (returns_iff lastCalls σ _ hfair).mp hret⟩
  exact List.mem_iff_getElem?.mp (by simp)

end Ppcode.Scheduler
