import Ppcode.Fiber.TimerExpire

/-!
# What the handle of a task reports

`createTimer` returns a `shared_ptr` to the task; `cancel`, `refresh` and `reset`
are called on it at any later time, also when the task is no longer in the set.
`createTimer` takes an empty callback as well, and such a task stays in the set with
its `m_cb` empty; what is said here is about a task that was created with a callback,
whatever the other tasks are.

* `held`: as long as the handle of a task with a callback is kept, the task is in
  the set exactly while its callback is set.
* `reports_iff`: the three operations report the truth all along a run exactly
  when no `reset` that keeps the period and the start is called on a task that is
  not in the set. That `reset` returns true before it looks at the task.
-/
namespace Ppcode.Timer
variable {C : Type}

/-- A call on the handle of a task, with the clock value it reads.
mirrors src/fiber/timer.h:23-27 -/
inductive HandleOp where
  | cancel
  | refresh (now : UInt64)
  | reset (ms : UInt64) (from_now : Bool) (now : UInt64)
  deriving DecidableEq, Repr

/-- The timer afterwards, and what the call returns. -/
def call (t : Timer C) (a : Nat) : HandleOp → Option (Timer C × Bool)
  | .cancel => t.cancel a
  | .refresh now => t.refresh a now
  | .reset ms from_now now => (t.reset a ms from_now now).map fun r => (r.1, r.2.1)

/-- What is done to a timer. `createCondTimer` is `createTimer` with a callback that
is not empty. -/
inductive Use (C : Type) where
  | createTimer (a : Nat) (cb : Option C) (ms : UInt64) (recurring : Bool) (now : UInt64)
  | handle (a : Nat) (op : HandleOp)
  | getNextExecuteTime (now_ms : UInt64)
  | getExecuteTask (now_ms : UInt64) (now_task : UInt64 × Nat)
  /-- the last handle of a task outside the set is dropped; its address may be used again -/
  | free (a : Nat)
  deriving DecidableEq, Repr

/-- A new task, and the one made for a search, have addresses of their own. -/
def use (t : Timer C) : Use C → Option (Timer C)
  | .createTimer a cb ms recurring now =>
    if t.mem a = none then some (t.createTimer a cb ms recurring now).1 else none
  | .handle a op => (t.call a op).map Prod.fst
  | .getNextExecuteTime now_ms => some (t.getNextExecuteTime now_ms).1
  | .getExecuteTask now_ms now_task =>
    if t.mem now_task.2 = none then some (t.getExecuteTask now_ms now_task).1 else none
  | .free a =>
    if a ∈ t.m_tasks then none else some { t with mem := Function.update t.mem a none }

def useLts (C : Type) : LTS (Timer C) (Use C) := LTS.ofFn (fun t => ∃ now, t = new now) use

theorem getNextExecuteTime_fst (t : Timer C) (now_ms : UInt64) :
    (t.getNextExecuteTime now_ms).1 = { t with m_tickled := false } := by
  unfold getNextExecuteTime
  simp only
  split <;> rfl

/-! ## One call on a handle -/

section Call
variable {t t' : Timer C} {a b : Nat} {task : TimerTask C} {op : HandleOp} {ok : Bool}

/-- The early return of `reset`, whether the task is in the set or not. -/
theorem call_reset_same (hmem : t.mem a = some task) (now : UInt64) :
    t.call a (.reset task.m_ms false now) = some (t, true) := by
  simp [call, reset, hmem]

/-- Every other call. -/
theorem call_cases (h : AtRest t) (hmem : t.mem a = some task)
    (hop : ∀ now, op ≠ .reset task.m_ms false now) :
    (task.m_cb = none ∧ t.call a op = some (t, false)) ∨
    (task.m_cb ≠ none ∧ ∃ t' task', t.call a op = some (t', true) ∧
      t'.mem = (t.setTask a task').mem ∧
      task'.m_cb = if op = .cancel then none else task.m_cb) := by
  cases op with
  | cancel =>
    rcases cancel_spec h id hmem with ⟨hcb, he⟩ | ⟨hcb, -, he⟩
    · exact .inl ⟨hcb, he⟩
    · exact .inr ⟨hcb, _, _, he, rfl, rfl⟩
  | refresh now =>
    rcases refresh_spec now h id hmem with ⟨hcb, he⟩ | ⟨hcb, -, he⟩
    · exact .inl ⟨hcb, he⟩
    · exact .inr ⟨hcb, _, _, he, rfl, rfl⟩
  | reset ms from_now now =>
    have hlocked : t.reset a ms from_now now = t.resetLocked a ms from_now now := by
      have hkeep : ¬ (ms = task.m_ms ∧ from_now = false) := by
        intro hex
        obtain ⟨rfl, rfl⟩ := hex
        exact hop now rfl
      simp only [reset, hmem, Option.bind_eq_bind, Option.bind_some, hkeep, if_false]
    rw [call, hlocked]
    rcases resetLocked_spec ms from_now now h id hmem with ⟨hcb, he⟩ | ⟨hcb, -, u, hu, he⟩
    · refine .inl ⟨hcb, ?_⟩
      rw [he]
      rfl
    · refine .inr ⟨hcb, (u.addTimerTask a).1, { task with
        m_ms := ms, m_next := (if from_now then now else task.m_next - ms) + ms }, ?_, ?_, rfl⟩
      · rw [he]
        rfl
      · rw [addTimerTask_mem, hu]
        rfl

theorem AtRest.call (h : AtRest t) (hcall : t.call a op = some (t', ok)) : AtRest t' := by
  cases op with
  | cancel => exact SetInv.cancel h id hcall
  | refresh now => exact SetInv.refresh h id hcall
  | reset ms from_now now =>
    obtain ⟨⟨t₁, ok₁, front⟩, hop, heq⟩ := Option.map_eq_some_iff.mp hcall
    cases heq
    exact SetInv.reset h id hop

theorem Filled.call (h : t.Filled b) (hrest : AtRest t) (hcall : t.call a op = some (t', ok)) :
    t'.Filled b := by
  cases op with
  | cancel => exact h.cancel hrest id hcall
  | refresh now => exact h.refresh hrest id hcall
  | reset ms from_now now =>
    obtain ⟨⟨t₁, ok₁, front⟩, hop, heq⟩ := Option.map_eq_some_iff.mp hcall
    cases heq
    exact h.reset hrest id hop

/-- Of a call on another task, or on its own, a task keeps its callback or loses it. -/
theorem call_kept (h : AtRest t) (hmem : t.mem a = some task)
    (hcall : t.call b op = some (t', ok)) :
    ∃ task', t'.mem a = some task' ∧ (task'.m_cb = task.m_cb ∨ task'.m_cb = none) := by
  cases hb : t.mem b with
  | none => cases op <;> simp [Timer.call, cancel, refresh, reset, hb] at hcall
  | some old =>
    by_cases hkeep : ∃ now, op = .reset old.m_ms false now
    · obtain ⟨now, rfl⟩ := hkeep
      rw [call_reset_same hb] at hcall
      cases hcall
      exact ⟨task, hmem, .inl rfl⟩
    · rcases call_cases h hb (not_exists.mp hkeep) with ⟨-, he⟩ | ⟨-, t₁, new, he, hwrite, hcb⟩
      · rw [he] at hcall
        cases hcall
        exact ⟨task, hmem, .inl rfl⟩
      · rw [he] at hcall
        cases hcall
        rw [hwrite]
        by_cases hab : a = b
        · subst hab
          rw [hmem] at hb
          cases hb
          refine ⟨new, setTask_mem_self, ?_⟩
          rw [hcb]
          split
          · exact .inr rfl
          · exact .inl rfl
        · exact ⟨task, by rw [setTask_mem hab, hmem], .inl rfl⟩

end Call

/-! ## Runs -/

section Runs
variable {t t' : Timer C} {a : Nat} {l : Use C}

theorem atRest_use (h : AtRest t) (hop : t.use l = some t') : AtRest t' := by
  cases l with
  | createTimer b cb ms recurring now =>
    obtain ⟨hb, hop⟩ := Option.ite_none_right_eq_some.mp hop
    rw [← Option.some.inj hop]
    exact h.create hb
  | handle b op =>
    obtain ⟨⟨t₁, ok⟩, hcall, rfl⟩ := Option.map_eq_some_iff.mp hop
    exact h.call hcall
  | getNextExecuteTime now_ms =>
    rw [← Option.some.inj hop, getNextExecuteTime_fst]
    exact h.frame false t.m_previouseTime
  | getExecuteTask now_ms now_task =>
    obtain ⟨-, hop⟩ := Option.ite_none_right_eq_some.mp hop
    rw [← Option.some.inj hop]
    exact SetInv.getExecuteTask h
  | free b =>
    obtain ⟨hb, hop⟩ := Option.ite_none_left_eq_some.mp hop
    rw [← Option.some.inj hop]
    exact h.free hb

theorem atRest_reachable (hr : (useLts C).Reachable t) : AtRest t := by
  have hind : (useLts C).Inductive AtRest := by
    refine ⟨?_, ?_⟩
    · intro t ht
      obtain ⟨now, rfl⟩ := ht
      exact atRest_new now
    · intro t l t' h hop
      exact atRest_use h hop
  exact hind.reachable t hr

/-- No operation puts a task that exists into the set without a callback. -/
theorem filled_use (h : t.Filled a) (hrest : AtRest t) (hmem : t.mem a ≠ none)
    (hop : t.use l = some t') : t'.Filled a := by
  cases l with
  | createTimer b cb ms recurring now =>
    obtain ⟨hb, hop⟩ := Option.ite_none_right_eq_some.mp hop
    rw [← Option.some.inj hop]
    refine h.create fun heq => ?_
    rw [heq] at hmem
    exact absurd hb hmem
  | handle b op =>
    obtain ⟨⟨t₁, ok⟩, hcall, rfl⟩ := Option.map_eq_some_iff.mp hop
    exact h.call hrest hcall
  | getNextExecuteTime now_ms =>
    rw [← Option.some.inj hop, getNextExecuteTime_fst]
    exact h
  | getExecuteTask now_ms now_task =>
    obtain ⟨-, hop⟩ := Option.ite_none_right_eq_some.mp hop
    rw [← Option.some.inj hop]
    exact h.getExecuteTask hrest
  | free b =>
    obtain ⟨hb, hop⟩ := Option.ite_none_left_eq_some.mp hop
    rw [← Option.some.inj hop]
    exact h.free hb

/-- Until its handle is dropped a task stays where it is, and its callback is kept or cleared. -/
theorem use_kept (h : AtRest t) (hl : l ≠ .free a) {task : TimerTask C} (hmem : t.mem a = some task)
    (hop : t.use l = some t') :
    ∃ task', t'.mem a = some task' ∧ (task'.m_cb = task.m_cb ∨ task'.m_cb = none) := by
  cases l with
  | createTimer b cb ms recurring now =>
    obtain ⟨hb, hop⟩ := Option.ite_none_right_eq_some.mp hop
    rw [← Option.some.inj hop]
    have hab : a ≠ b := by
      intro heq
      rw [heq, hb] at hmem
      cases hmem
    refine ⟨task, ?_, .inl rfl⟩
    rw [createTimer, addTimerTask_mem, setTask_mem hab, hmem]
  | handle b op =>
    obtain ⟨⟨t₁, ok⟩, hcall, rfl⟩ := Option.map_eq_some_iff.mp hop
    exact call_kept h hmem hcall
  | getNextExecuteTime now_ms =>
    rw [← Option.some.inj hop, getNextExecuteTime_fst]
    exact ⟨task, hmem, .inl rfl⟩
  | getExecuteTask now_ms now_task =>
    obtain ⟨-, hop⟩ := Option.ite_none_right_eq_some.mp hop
    rw [← Option.some.inj hop, getExecuteTask_mem h, hmem]
    split
    · refine ⟨_, rfl, ?_⟩
      unfold afterExpire
      split
      · exact .inl rfl
      · exact .inr rfl
    · exact ⟨task, rfl, .inl rfl⟩
  | free b =>
    obtain ⟨-, hop⟩ := Option.ite_none_left_eq_some.mp hop
    rw [← Option.some.inj hop]
    have hab : a ≠ b := by
      intro heq
      subst heq
      exact hl rfl
    exact ⟨task, (Function.update_of_ne hab _ _).trans hmem, .inl rfl⟩

/-- The task at `a` was created with a callback, and its handle is kept. -/
structure Held (a : Nat) (t : Timer C) : Prop where
  rest : AtRest t
  alloc : t.mem a ≠ none
  filled : t.Filled a

/-- The callback of the task at `a` is gone. -/
structure Cleared (a : Nat) (t : Timer C) : Prop extends Held a t where
  unarmed : ¬ t.Armed a

theorem Held.step (h : Held a t) (hl : l ≠ .free a) (hop : t.use l = some t') : Held a t' := by
  obtain ⟨task, hmem⟩ := Option.ne_none_iff_exists'.mp h.alloc
  obtain ⟨task', hmem', -⟩ := use_kept h.rest hl hmem hop
  refine ⟨atRest_use h.rest hop, ?_, filled_use h.filled h.rest h.alloc hop⟩
  rw [hmem']
  nofun

theorem Cleared.step (h : Cleared a t) (hl : l ≠ .free a) (hop : t.use l = some t') :
    Cleared a t' := by
  obtain ⟨task, hmem⟩ := Option.ne_none_iff_exists'.mp h.alloc
  obtain ⟨task', hmem', hcb⟩ := use_kept h.rest hl hmem hop
  refine ⟨h.toHeld.step hl hop, ?_⟩
  have hnone : task.m_cb = none := by_contra fun hc => h.unarmed ((armed_iff hmem).mpr hc)
  rw [armed_iff hmem', not_not]
  rcases hcb with hcb | hcb
  · rw [hcb, hnone]
  · exact hcb

/-- What `createTimer` returns is the handle of a task with a callback. -/
theorem held_create (hr : (useLts C).Reachable t) (ha : t.mem a = none) (cb : C) (ms : UInt64)
    (recurring : Bool) (now : UInt64) : Held a (t.createTimer a (some cb) ms recurring now).1 where
  rest := (atRest_reachable hr).create ha
  alloc := by
    rw [createTimer, addTimerTask_mem, setTask_mem_self]
    nofun
  filled := by
    refine Filled.create (fun hin => ?_) fun _ => nofun
    exact absurd ha ((atRest_reachable hr).alloc a hin).1

/-- While its handle is kept, such a task is in the set exactly while its callback is set. -/
theorem held (h : Held a t) : ∃ task, t.mem a = some task ∧ (a ∈ t.m_tasks ↔ task.m_cb ≠ none) := by
  obtain ⟨task, hmem⟩ := Option.ne_none_iff_exists'.mp h.alloc
  refine ⟨task, hmem, ?_⟩
  rw [← armed_iff hmem]
  exact ⟨h.filled, fun harmed => h.rest.armed a harmed id⟩

/-! ## What the calls report -/

/-- A call on the handle returns true exactly while the task is in the set, and changes
nothing where it returns false. -/
def Truthful (a : Nat) (t : Timer C) (l : Use C) : Prop :=
  ∀ o t' ok, l = .handle a o → t.call a o = some (t', ok) →
    (ok = true ↔ a ∈ t.m_tasks) ∧ (ok = false → t' = t)

/-- No call on the handle returns true, and the task is not among those whose callbacks
are returned. -/
def Silent (a : Nat) (t : Timer C) (l : Use C) : Prop :=
  (∀ o t' ok, l = .handle a o → t.call a o = some (t', ok) → ok = false) ∧
  ∀ now_ms now_task, l = .getExecuteTask now_ms now_task →
    (t.getExecuteTask now_ms now_task).2 = (t.fired now_ms now_task).map t.callback ∧
    a ∉ t.fired now_ms now_task

/-- Every call is truthful, and after a `cancel` that returned true there is silence. -/
def Reports (a : Nat) (t : Timer C) (ls : List (Use C)) : Prop :=
  LTS.StepsMeet use (Truthful a) t ls ∧
  ∀ pre post u v, ls = pre ++ .handle a .cancel :: post → LTS.exec use t pre = some u →
    u.cancel a = some (v, true) → LTS.StepsMeet use (Silent a) v post

/-- A `reset` that changes neither the period nor the start is called on a task in the set. -/
def ResetsPending (a : Nat) (t : Timer C) (l : Use C) : Prop :=
  ∀ now task, t.mem a = some task → l = .handle a (.reset task.m_ms false now) → a ∈ t.m_tasks

/-- One call on the handle of a task, in terms of the callback. -/
theorem call_held (h : Held a t) : ∃ task, t.mem a = some task ∧
    ∀ o, (∀ now, o ≠ .reset task.m_ms false now) → ∃ t', ∃ ok, t.call a o = some (t', ok) ∧
      (ok = true ↔ task.m_cb ≠ none) ∧ (ok = false → t' = t) ∧
      (o = .cancel → ok = true → ¬ t'.Armed a) := by
  obtain ⟨task, hmem⟩ := Option.ne_none_iff_exists'.mp h.alloc
  refine ⟨task, hmem, fun o ho => ?_⟩
  rcases call_cases h.rest hmem ho with ⟨hnone, he⟩ | ⟨hsome, t', new, he, hwrite, hnew⟩
  · exact ⟨_, _, he, iff_of_false Bool.false_ne_true (not_not.mpr hnone), fun _ => rfl, fun _ => nofun⟩
  · refine ⟨_, _, he, iff_of_true rfl hsome, nofun, fun hcancel _ => ?_⟩
    have hmem' : t'.mem a = some new := by
      rw [hwrite]
      exact setTask_mem_self
    rw [armed_iff hmem', hnew, if_pos hcancel]
    exact not_not.mpr rfl

theorem truthful_iff {l : Use C} (h : Held a t) : Truthful a t l ↔ ResetsPending a t l := by
  obtain ⟨task, hmem, hcall⟩ := call_held h
  obtain ⟨task', hmem', harmed⟩ := held h
  rw [hmem] at hmem'
  cases hmem'
  constructor
  · intro htrue now task' hmem' hl
    rw [hmem] at hmem'
    cases hmem'
    exact (htrue _ _ _ hl (call_reset_same hmem now)).1.mp rfl
  · intro hmeets o t' ok hl he
    by_cases hkeep : ∃ now, o = .reset task.m_ms false now
    · obtain ⟨now, rfl⟩ := hkeep
      rw [call_reset_same hmem] at he
      cases he
      exact ⟨iff_of_true rfl (hmeets now task hmem hl), nofun⟩
    · obtain ⟨t₁, ok₁, he₁, hok, hsame, -⟩ := hcall o (not_exists.mp hkeep)
      rw [he₁] at he
      cases he
      exact ⟨hok.trans harmed.symm, hsame⟩

theorem held_exec {t t' : Timer C} {ls : List (Use C)} (h : Held a t) (hls : ∀ l ∈ ls, l ≠ .free a)
    (hr : LTS.exec use t ls = some t') : Held a t' := by
  induction ls generalizing t with
  | nil =>
    cases hr
    exact h
  | cons l ls ih =>
    simp only [LTS.exec, Option.bind_eq_some_iff] at hr
    obtain ⟨t₁, hop, hr⟩ := hr
    obtain ⟨hl, hls⟩ := List.forall_mem_cons.mp hls
    exact ih (h.step hl hop) hls hr

theorem cleared_cancel (h : Held a t) (hcancel : t.cancel a = some (t', true)) : Cleared a t' := by
  have hop : t.use (.handle a .cancel) = some t' := by
    rw [use, call, hcancel]
    rfl
  have hkept : (.handle a .cancel : Use C) ≠ .free a := nofun
  refine ⟨h.step hkept hop, ?_⟩
  obtain ⟨task, -, hcall⟩ := call_held h
  obtain ⟨t₁, ok, he, -, -, hunarmed⟩ := hcall .cancel nofun
  rw [call, hcancel] at he
  cases he
  exact hunarmed rfl rfl

theorem Cleared.not_mem (h : Cleared a t) : a ∉ t.m_tasks :=
  fun hin => h.unarmed (h.filled hin)

theorem silent_iff {l : Use C} (h : Cleared a t) : Silent a t l ↔ ResetsPending a t l := by
  rw [← truthful_iff h.toHeld]
  constructor
  · intro hsilent o t' ok hl he
    have hok := hsilent.1 o t' ok hl he
    subst hok
    refine ⟨iff_of_false Bool.false_ne_true h.not_mem, fun _ => ?_⟩
    obtain ⟨task, hmem, hcall⟩ := call_held h.toHeld
    by_cases hkeep : ∃ now, o = .reset task.m_ms false now
    · obtain ⟨now, rfl⟩ := hkeep
      rw [call_reset_same hmem] at he
      cases he
    · obtain ⟨t₁, ok₁, he₁, -, hsame, -⟩ := hcall o (not_exists.mp hkeep)
      rw [he₁] at he
      cases he
      exact hsame rfl
  · intro htrue
    refine ⟨fun o t' ok hl he => ?_, fun now_ms now_task _ => ⟨getExecuteTask_cbs h.rest, ?_⟩⟩
    · have hok := (htrue o t' ok hl he).1
      rw [← Bool.not_eq_true, hok]
      exact h.not_mem
    · exact fun hin => h.not_mem (fired_sublist.subset hin)

/-- From its creation on, and while its handle is kept, the calls on a task report the truth
exactly when no `reset` that keeps its period and its start is called while it is outside the
set. -/
theorem reports_iff (t₀ : Timer C) (hr : (useLts C).Reachable t₀) (a : Nat) (ha : t₀.mem a = none)
    (cb : C) (ms : UInt64) (recurring : Bool) (now : UInt64) (ls : List (Use C))
    (hls : ∀ l ∈ ls, l ≠ .free a) :
    Reports a (t₀.createTimer a (some cb) ms recurring now).1 ls ↔
      LTS.StepsMeet use (ResetsPending a) (t₀.createTimer a (some cb) ms recurring now).1 ls := by
  have hstart := held_create hr ha cb ms recurring now
  generalize (t₀.createTimer a (some cb) ms recurring now).1 = t at hstart ⊢
  have htrue : LTS.StepsMeet use (Truthful a) t ls ↔ LTS.StepsMeet use (ResetsPending a) t ls := by
    refine LTS.stepsMeet_congr (I := fun t ls => Held a t ∧ ∀ l ∈ ls, l ≠ .free a) ?_ ⟨hstart, hls⟩
    intro t l ls t' hI hop
    obtain ⟨hl, hls⟩ := List.forall_mem_cons.mp hI.2
    exact ⟨truthful_iff hI.1, hI.1.step hl hop, hls⟩
  refine ⟨fun h => htrue.mp h.1, fun h => ⟨htrue.mpr h, ?_⟩⟩
  intro pre post u v hsplit hpre hcancel
  subst hsplit
  have hu : Held a u := held_exec hstart (fun l hl => hls l (by simp [hl])) hpre
  have hv : Cleared a v := cleared_cancel hu hcancel
  have hpost : LTS.StepsMeet use (ResetsPending a) v post := by
    have hstep : u.use (.handle a .cancel) = some v := by
      rw [use, call, hcancel]
      rfl
    exact (h.suffix hpre v hstep).2
  refine (LTS.stepsMeet_congr (I := fun t ls => Cleared a t ∧ ∀ l ∈ ls, l ≠ .free a) ?_
    ⟨hv, fun l hl => hls l (by simp [hl])⟩).mpr hpost
  intro t l ls t' hI hop
  obtain ⟨hl, hls⟩ := List.forall_mem_cons.mp hI.2
  exact ⟨silent_iff hI.1, hI.1.step hl hop, hls⟩

end Runs

def resetsPendingB (a : Nat) (t : Timer C) : Use C → Bool
  | .handle b (.reset ms false _) =>
    b != a || (t.mem a).all (fun task => ms != task.m_ms) || t.m_tasks.contains a
  | _ => true

theorem resetsPending_of_check (a : Nat) (t : Timer C) (l : Use C)
    (h : resetsPendingB a t l = true) : ResetsPending a t l := by
  intro now task hmem hl
  subst hl
  simpa [resetsPendingB, hmem] using h

/-- A task that is reset, cancelled and refreshed. -/
theorem reports_iff_cancelled :
    Reports 1 ((new 0 : Timer Nat).createTimer 1 (some 7) 5 false 0).1
      [.handle 1 (.reset 5 false 1), .handle 1 .cancel, .handle 1 (.refresh 2),
        .getExecuteTask 9 (9, 2)] :=
  (reports_iff (new 0) (LTS.reachable_init ⟨0, rfl⟩) 1 rfl 7 5 false 0 _ (by decide)).mpr
    (LTS.stepsMeet_of_check (resetsPending_of_check 1) (by decide))

/-- A task is cancelled, and a `reset` to the period that it had returns true. -/
theorem reset_after_cancel : (useLts Nat).Reachable (new 0) ∧
    ¬ Reports 1 ((new 0 : Timer Nat).createTimer 1 (some 7) 5 false 0).1
      [.handle 1 .cancel, .handle 1 (.reset 5 false 0)] := by
  refine ⟨LTS.reachable_init ⟨0, rfl⟩, fun h => ?_⟩
  obtain ⟨u, hu, hres⟩ : ∃ u, ((new 0 : Timer Nat).createTimer 1 (some 7) 5 false 0).1.cancel 1 =
      some (u, true) ∧ u.mem 1 = some ⟨none, 5, 5, false⟩ := ⟨_, rfl, rfl⟩
  have hsilent := h.2 [] [.handle 1 (.reset 5 false 0)] _ u rfl rfl hu
  have hcall : u.call 1 (.reset 5 false 0) = some (u, true) := call_reset_same hres 0
  have hstep : u.use (.handle 1 (.reset 5 false 0)) = some u := by
    rw [use, hcall]
    rfl
  have hfalse := (hsilent u hstep).1.1 _ _ _ rfl hcall
  cases hfalse

end Ppcode.Timer
