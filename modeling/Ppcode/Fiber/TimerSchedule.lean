import Ppcode.Fiber.TimerSet

/-!
# When a task is due

`start a` is the clock value that the latest event to restart the countdown of
the task at `a` has read: its creation, a `refresh` or a `reset` from now that
succeeded, or the call of `getExecuteTask` that last fired it, if it recurs.

* `on_schedule`: every armed task is due at `start + m_ms` (modulo 2^64), in
  every run in which `reset(ms, false)` on an armed task keeps the period.
* `off_schedule`: any other `reset(ms, false)` breaks this. It is meant to move
  the deadline to `start + ms` and computes the start as `m_next - ms`, with the
  new period in place of the old one, so the deadline stays where it is.
-/
namespace Ppcode.Timer
variable {F W : Type}

structure Sched (F W : Type) where
  t : Timer (Callback F W)
  start : Nat → UInt64

/-- The countdowns that an operation restarts. -/
def restart (t : Timer (Callback F W)) (start : Nat → UInt64) : Act F W → Nat → UInt64
  | .createTimer a _ _ _ now | .createCondTimer a _ _ _ _ now => Function.update start a now
  | .refresh a now =>
    if (t.refresh a now).any Prod.snd then Function.update start a now else start
  | .reset a ms from_now now =>
    if from_now && (t.reset a ms from_now now).any fun r => r.2.1 then Function.update start a now
    else start
  | .getExecuteTask now_ms now_task => fun a =>
    if a ∈ t.fired now_ms now_task ∧ (t.mem a).any TimerTask.m_recurring then now_ms else start a
  | .cancel _ | .free _ => start

def Sched.step (s : Sched F W) (a : Act F W) : Option (Sched F W) :=
  (Timer.step s.t a).map fun t => ⟨t, restart s.t s.start a⟩

def Sched.lts (F W : Type) : LTS (Sched F W) (Act F W) :=
  LTS.ofFn (fun s => ∃ now, s.t = new now) Sched.step

/-- Every armed task is due one period after its start. -/
def OnSchedule (s : Sched F W) : Prop :=
  ∀ a ∈ s.t.m_tasks, ∀ task, s.t.mem a = some task → task.m_next = s.start a + task.m_ms

/-- `reset(ms, false)` on an armed task has the task's own period. -/
def KeepsPeriod (s : Sched F W) : Act F W → Prop
  | .reset a ms false _ => ∀ task, s.t.mem a = some task → task.m_cb ≠ none → ms = task.m_ms
  | _ => True

/-! ## One operation -/

/-- The tasks and starts that differ from `s` only at `a`. -/
theorem OnSchedule.write {s : Sched F W} (h : OnSchedule s) {t' : Timer (Callback F W)} {a : Nat}
    {start : Nat → UInt64} (task : TimerTask (Callback F W))
    (hmem : t'.mem = Function.update s.t.mem a (some task))
    (hin : ∀ b ∈ t'.m_tasks, b ≠ a → b ∈ s.t.m_tasks)
    (hstart : ∀ b, b ≠ a → start b = s.start b)
    (ha : a ∈ t'.m_tasks → task.m_next = start a + task.m_ms) : OnSchedule ⟨t', start⟩ := by
  intro b hb task' htask'
  simp only at hb htask'
  rw [hmem] at htask'
  by_cases hab : b = a
  · subst hab
    rw [Function.update_self] at htask'
    cases htask'
    exact ha hb
  · rw [Function.update_of_ne hab] at htask'
    simp only
    rw [hstart b hab]
    exact h b (hin b hb hab) task' htask'

theorem restart_of_ne {start : Nat → UInt64} {a : Nat} {now : UInt64} (b : Nat) (hab : b ≠ a) :
    Function.update start a now b = start b := Function.update_of_ne hab _ _

theorem onSchedule_create {s : Sched F W} (h : OnSchedule s) {a : Nat}
    {cb : Option (Callback F W)} {ms now : UInt64} {recurring : Bool} :
    OnSchedule ⟨(s.t.createTimer a cb ms recurring now).1, Function.update s.start a now⟩ := by
  refine h.write (.new cb ms recurring now) rfl
    (fun b hb hab => (mem_insert.mp hb).resolve_left hab) restart_of_ne fun _ => ?_
  rw [Function.update_self]
  rfl

theorem onSchedule_refresh {s : Sched F W} (h : OnSchedule s) (hold : AtRest s.t) {a : Nat}
    {now : UInt64} {t' : Timer (Callback F W)} {ok : Bool}
    (hop : s.t.refresh a now = some (t', ok)) :
    OnSchedule ⟨t', restart s.t s.start (.refresh a now)⟩ := by
  simp only [restart, hop, Option.any_some]
  rcases refresh_cases hold id hop with ⟨rfl, rfl⟩ | ⟨task, -, -, rfl, rfl⟩
  · exact h
  · refine h.write { task with m_next := now + task.m_ms } rfl
      (fun b hb hab => mem_requeue hold hb hab) restart_of_ne fun _ => ?_
    rw [if_pos rfl, Function.update_self]

theorem onSchedule_reset {s : Sched F W} (h : OnSchedule s) (hold : AtRest s.t) {a : Nat}
    {ms now : UInt64} {from_now : Bool} {t' : Timer (Callback F W)} {r : Bool × Bool}
    (hkeep : KeepsPeriod s (.reset a ms from_now now))
    (hop : s.t.reset a ms from_now now = some (t', r)) :
    OnSchedule ⟨t', restart s.t s.start (.reset a ms from_now now)⟩ := by
  have hany := hop
  simp only [Timer.reset, Option.bind_eq_bind] at hop
  obtain ⟨old, -, hop⟩ := Option.bind_eq_some_iff.mp hop
  split at hop
  · rename_i hsame
    cases hop
    simp only [restart, hsame.2, Bool.false_and, Bool.false_eq_true, if_false]
    exact h
  · obtain ⟨ok, front⟩ := r
    simp only [restart, hany, Option.any_some]
    rcases resetLocked_cases hold id hop with
      ⟨rfl, rfl, -⟩ | ⟨task, u, hmem, hcb, hin, rfl, rfl, rfl, -⟩
    · rw [Bool.and_false, if_neg Bool.false_ne_true]
      exact h
    · rw [Bool.and_true]
      cases from_now with
      | true =>
        refine h.write _ rfl (fun b hb hab => mem_requeue hold hb hab) restart_of_ne fun _ => ?_
        simp [Function.update_self]
      | false =>
        -- the start is computed with `ms`, which here is the old period
        have hms := hkeep task hmem hcb
        subst hms
        have hdue := h a hin task hmem
        refine h.write _ rfl (fun b hb hab => mem_requeue hold hb hab) (fun _ _ => rfl) fun _ => ?_
        simp only [Bool.false_eq_true, if_false]
        rw [UInt64.sub_add_cancel, hdue]

theorem onSchedule_getExecuteTask {s : Sched F W} (h : OnSchedule s) (hold : AtRest s.t)
    {now_ms : UInt64} {now_task : UInt64 × Nat} :
    OnSchedule ⟨(s.t.getExecuteTask now_ms now_task).1,
      restart s.t s.start (.getExecuteTask now_ms now_task)⟩ := by
  intro b hb task hmem
  obtain ⟨hin, hrec⟩ := (mem_getExecuteTask hold).mp hb
  simp only [getExecuteTask_mem hold] at hmem
  simp only [restart]
  by_cases hf : b ∈ s.t.fired now_ms now_task
  · have hrec := hrec hf
    rw [if_pos hf] at hmem
    obtain ⟨task₀, hmem₀, rfl⟩ := Option.map_eq_some_iff.mp hmem
    rw [if_pos ⟨hf, hrec⟩, afterExpire]
    rw [hmem₀, Option.any_some] at hrec
    rw [if_pos hrec]
  · rw [if_neg hf] at hmem
    simp only [hf, false_and, if_false]
    exact h b hin task hmem

theorem onSchedule_step {s s' : Sched F W} {a : Act F W} (h : OnSchedule s) (hold : AtRest s.t)
    (hkeep : KeepsPeriod s a) (hst : s.step a = some s') : OnSchedule s' := by
  obtain ⟨t', hop, rfl⟩ := Option.map_eq_some_iff.mp hst
  cases a with
  | createTimer a cb ms recurring now =>
    simp only [step] at hop
    split at hop
    · cases hop
      exact onSchedule_create h
    · cases hop
  | createCondTimer a cb weak_cond ms recurring now =>
    simp only [step] at hop
    split at hop
    · cases hop
      exact onSchedule_create h
    · cases hop
  | cancel a =>
    obtain ⟨⟨t₁, ok⟩, hc, rfl⟩ := Option.map_eq_some_iff.mp hop
    rcases cancel_cases hold id hc with rfl | ⟨task, -, -, rfl⟩
    · exact h
    · refine h.write _ rfl (fun b hb _ => ((mem_erase hold).mp hb).1) (fun _ _ => rfl) ?_
      exact fun hin => absurd rfl ((mem_erase hold).mp hin).2
  | refresh a now =>
    obtain ⟨⟨t₁, ok⟩, hc, rfl⟩ := Option.map_eq_some_iff.mp hop
    exact onSchedule_refresh h hold hc
  | reset a ms from_now now =>
    obtain ⟨⟨t₁, r⟩, hc, rfl⟩ := Option.map_eq_some_iff.mp hop
    exact onSchedule_reset h hold hkeep hc
  | getExecuteTask now_ms now_task =>
    simp only [step] at hop
    split at hop
    · cases hop
      exact onSchedule_getExecuteTask h hold
    · cases hop
  | free a =>
    simp only [step] at hop
    split at hop
    · cases hop
    · cases hop
      intro b hb task hmem
      by_cases hab : b = a
      · subst hab
        simp [Function.update_self] at hmem
      · simp only [Function.update_of_ne hab] at hmem
        exact h b hb task hmem

/-- In a run in which every `reset(ms, false)` keeps the period, every armed task
is due one period after its start. -/
theorem on_schedule (s : Sched F W)
    (hr : ((Sched.lts F W).restrict KeepsPeriod).Reachable s) : OnSchedule s := by
  have hind : ((Sched.lts F W).restrict KeepsPeriod).Inductive fun s =>
      AtRest s.t ∧ OnSchedule s := by
    refine ⟨?_, ?_⟩
    · intro s hs
      obtain ⟨now, hs⟩ := hs
      rw [hs]
      refine ⟨atRest_new now, ?_⟩
      intro a ha
      rw [hs] at ha
      cases ha
    · intro s a s' h hst
      obtain ⟨hst, hkeep⟩ := hst
      refine ⟨?_, onSchedule_step h.2 h.1 hkeep hst⟩
      obtain ⟨t', hop, rfl⟩ := Option.map_eq_some_iff.mp hst
      exact atRest_step h.1 hop
  exact (hind.reachable s hr).2

/-- Made at 0 with a period of 1000 and reset to 500 without a restart, a task is
still due at 1000. -/
theorem off_schedule : ∃ s, (Sched.lts Nat Nat).Reachable s ∧ ¬ OnSchedule s := by
  have hrun : (LTS.exec Sched.step (⟨new 0, fun _ => 0⟩ : Sched Nat Nat)
      [.createTimer 1 (some 0) 1000 false 0, .reset 1 500 false 10]).any
      (fun s => decide (s.t.m_tasks = [1] ∧ s.start 1 = 0 ∧
        s.t.mem 1 = some ⟨some (.fn 0), 500, 1000, false⟩)) = true := by decide
  obtain ⟨s, hs, hb⟩ : ∃ s, (Sched.lts Nat Nat).Reachable s ∧
      decide (s.t.m_tasks = [1] ∧ s.start 1 = 0 ∧
        s.t.mem 1 = some ⟨some (.fn 0), 500, 1000, false⟩) = true :=
    LTS.exists_of_exec _ ⟨0, rfl⟩ hrun
  obtain ⟨hin, hstart, hmem⟩ := of_decide_eq_true hb
  refine ⟨s, hs, fun h => ?_⟩
  have hdue := h 1 (by rw [hin]; exact List.mem_singleton_self 1) _ hmem
  rw [hstart] at hdue
  exact absurd hdue (by decide)

/-- A check of `KeepsPeriod`. -/
def keepsPeriodB (s : Sched F W) : Act F W → Bool
  | .reset a ms false _ => (s.t.mem a).all fun task => task.m_cb.isNone || decide (ms = task.m_ms)
  | _ => true

theorem keepsPeriod_of_check (s : Sched F W) (a : Act F W) (h : keepsPeriodB s a = true) :
    KeepsPeriod s a := by
  cases a with
  | reset a ms from_now now =>
    cases from_now with
    | true => trivial
    | false =>
      intro task hmem hcb
      simp only [keepsPeriodB, hmem, Option.all_some, Bool.or_eq_true, Option.isNone_iff_eq_none,
        decide_eq_true_eq] at h
      exact h.resolve_left hcb
  | _ => trivial

/-- A recurring task that is reset from now, fires and is refreshed. -/
theorem on_schedule_recurring : ∃ s, ((Sched.lts Nat Nat).restrict KeepsPeriod).Reachable s ∧
    (s.t.m_tasks = [1] ∧ s.start 1 = 40) ∧ OnSchedule s := by
  have hrun : (LTS.execWith Sched.step keepsPeriodB (⟨new 0, fun _ => 0⟩ : Sched Nat Nat)
      [.createTimer 1 (some 0) 1000 true 0, .reset 1 20 true 10, .getExecuteTask 31 (31, 2),
        .refresh 1 40]).any
      (fun s => decide (s.t.m_tasks = [1] ∧ s.start 1 = 40)) = true := by decide
  obtain ⟨s, hs, hb⟩ : ∃ s, ((Sched.lts Nat Nat).restrict KeepsPeriod).Reachable s ∧
      decide (s.t.m_tasks = [1] ∧ s.start 1 = 40) = true :=
    LTS.exists_of_execWith keepsPeriod_of_check _ ⟨0, rfl⟩ hrun
  exact ⟨s, hs, of_decide_eq_true hb, on_schedule s hs⟩

end Ppcode.Timer
