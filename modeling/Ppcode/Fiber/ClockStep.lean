import Ppcode.Fiber.TimerExpire

/-!
# When the clock steps back

`detectClockRollover` takes a clock that has gone back by more than an hour for a
change of the date, and `getExecuteTask` then expires all tasks. The test subtracts
the hour in `uint64_t`, from a value that may be smaller.

* `rollover_iff`: what the test comes to: the clock has gone back at all, and it
  has by more than an hour or was in its first hour.
* `keepsTime_iff`: where no clock value of a run is more than an hour below an
  earlier one, no task expires early exactly when no call of `getExecuteTask` reads
  a value below the previous one in the first hour of the clock, with a task in the
  set that is not due (`Meets`). After more than an hour all tasks always expire.
* `early`: the clock goes from 1000 to 999, and a task that is due at 61000 expires.
-/
namespace Ppcode.Timer
variable {C F W : Type}

/-- An operation; `getNextExecuteTime` reads the clock, too. -/
inductive Op (F W : Type) where
  | act (a : Act F W)
  | getNextExecuteTime (now_ms : UInt64)

def opStep (t : Timer (Callback F W)) : Op F W → Option (Timer (Callback F W))
  | .act a => t.step a
  | .getNextExecuteTime now_ms => some (t.getNextExecuteTime now_ms).1

/-- Whether `refresh` and `reset` get past their tests. -/
def active (t : Timer C) (a : Nat) : Bool :=
  (t.mem a).any (·.m_cb.isSome) && (t.find a).isSome

/-- The values of `GetCurrentMS` that an operation reads, in their order.
mirrors src/fiber/timer.cc:14, 44, 66, 116, 156 and 175 -/
def reads (t : Timer (Callback F W)) : Op F W → List UInt64
  | .act (.createTimer _ _ _ _ now) | .act (.createCondTimer _ _ _ _ _ now) => [now]
  | .act (.refresh a now) => if t.active a then [now] else []
  | .act (.reset a _ from_now now) => if from_now && t.active a then [now] else []
  | .act (.getExecuteTask now_ms now_task) =>
    if (t.expired now_ms now_task).isSome then [now_ms, now_task.1] else [now_ms]
  | .act (.cancel _) | .act (.free _) => []
  | .getNextExecuteTime now_ms => if t.m_tasks = [] then [] else [now_ms]

/-- The values that a run reads. -/
def clock : Timer (Callback F W) → List (Op F W) → List UInt64
  | _, [] => []
  | t, o :: ops => t.reads o ++ (t.opStep o).elim [] fun t' => clock t' ops

/-- An hour, in milliseconds. -/
def hour : Nat := 60 * 60 * 1000

/-- No value is more than an hour below an earlier one. -/
def Steady (values : List UInt64) : Prop :=
  values.Pairwise fun earlier later => earlier.toNat ≤ later.toNat + hour

/-- The callbacks returned are those of the tasks expired, and each of these is due at the larger
of the two values. -/
def OnTime (t : Timer (Callback F W)) : Op F W → Prop
  | .act (.getExecuteTask now_ms now_task) =>
    (t.getExecuteTask now_ms now_task).2 = (t.fired now_ms now_task).map t.callback ∧
      ∀ a ∈ t.fired now_ms now_task, t.next a ≤ now_ms ∨ t.next a ≤ now_task.1
  | _ => True

/-- After a change of more than an hour the callbacks of all tasks are returned. -/
def ExpiresAll (t : Timer (Callback F W)) : Op F W → Prop
  | .act (.getExecuteTask now_ms now_task) =>
    t.m_tasks ≠ [] → now_ms.toNat + hour < t.m_previouseTime.toNat →
      (t.getExecuteTask now_ms now_task).2 = t.m_tasks.map t.callback
  | _ => True

/-- The run, from a new timer, keeps to the clock. -/
def KeepsTime (now : UInt64) (ops : List (Op F W)) : Prop :=
  (Steady (now :: clock (new now) ops) → LTS.StepsMeet opStep OnTime (new now) ops) ∧
    LTS.StepsMeet opStep ExpiresAll (new now) ops

/-- If the clock steps back in its first hour, all tasks are due. -/
def Meets (t : Timer (Callback F W)) : Op F W → Prop
  | .act (.getExecuteTask now_ms now_task) =>
    now_ms < t.m_previouseTime → t.m_previouseTime.toNat < hour →
      ∀ a ∈ t.m_tasks, t.next a ≤ now_ms ∨ t.next a ≤ now_task.1
  | _ => True

/-! ## The test -/

section Test
variable {t : Timer C} {now_ms : UInt64} {now_task : UInt64 × Nat}

theorem rollover_iff : (t.detectClockRollover now_ms).2 = true ↔ now_ms < t.m_previouseTime ∧
    (t.m_previouseTime.toNat < hour ∨ now_ms.toNat + hour < t.m_previouseTime.toNat) := by
  have hconst : (60 * 60 * 1000 : UInt64).toNat = 3600000 := rfl
  have hnow := now_ms.toNat_lt
  have hprev := t.m_previouseTime.toNat_lt
  simp only [detectClockRollover, decide_eq_true_eq, UInt64.lt_iff_toNat_lt, UInt64.toNat_sub,
    hconst, hour]
  omega

/-- After a rollover everything expires. -/
theorem fired_rollover (hr : (t.detectClockRollover now_ms).2 = true) :
    t.fired now_ms now_task = t.m_tasks := by
  unfold fired expired
  cases hhead : t.m_tasks.head? with
  | none => exact (List.head?_eq_none_iff.mp hhead).symm
  | some first => simp [hr, cut]

end Test

/-! ## Runs -/

section Runs
variable {t t' : Timer (Callback F W)} {o : Op F W}

theorem onTime_iff_meets (h : AtRest t)
    (hsteady : ∀ now_ms now_task, o = .act (.getExecuteTask now_ms now_task) →
      t.m_previouseTime.toNat ≤ now_ms.toNat + hour) : t.OnTime o ↔ t.Meets o := by
  cases o with
  | getNextExecuteTime => exact Iff.rfl
  | act a =>
    cases a with
    | getExecuteTask now_ms now_task =>
      have hback := hsteady now_ms now_task rfl
      simp only [OnTime, Meets, getExecuteTask_cbs h, true_and]
      cases hr : (t.detectClockRollover now_ms).2 with
      | true =>
        obtain ⟨hlt, hwhere⟩ := rollover_iff.mp hr
        have hfirst : t.m_previouseTime.toNat < hour := hwhere.resolve_right (by omega)
        rw [fired_rollover hr]
        exact ⟨fun hall _ _ => hall, fun hall => hall hlt hfirst⟩
      | false =>
        refine iff_of_true (fun a ha => fired_early hr ha) fun hlt hfirst => ?_
        have hroll := rollover_iff.mpr ⟨hlt, .inl hfirst⟩
        rw [hr] at hroll
        cases hroll
    | _ => exact Iff.rfl

theorem expiresAll (h : AtRest t) (o : Op F W) : t.ExpiresAll o := by
  cases o with
  | getNextExecuteTime => trivial
  | act a =>
    cases a with
    | getExecuteTask now_ms now_task =>
      intro _ hback
      have hlt : now_ms < t.m_previouseTime := UInt64.lt_iff_toNat_lt.mpr (by omega)
      rw [getExecuteTask_cbs h, fired_rollover (rollover_iff.mpr ⟨hlt, .inr hback⟩)]
    | _ => trivial

theorem atRest_opStep (h : AtRest t) (hst : t.opStep o = some t') : AtRest t' := by
  cases o with
  | act a => exact atRest_step h hst
  | getNextExecuteTime now_ms =>
    cases hst
    have hframe := h.frame false t.m_previouseTime
    simp only [Timer.getNextExecuteTime]
    split <;> exact hframe

theorem expireAll_previouse {now_ms : UInt64} (es : List Nat) :
    ∀ r : Timer C × List (Option C),
      (es.foldl (expire now_ms) r).1.m_previouseTime = r.1.m_previouseTime := by
  induction es with
  | nil => exact fun _ => rfl
  | cons a es ih =>
    intro r
    rw [List.foldl_cons, ih]
    unfold expire
    split
    · rfl
    · split <;> rfl

theorem getExecuteTask_previouse {now_ms : UInt64} {now_task : UInt64 × Nat} {t : Timer C} :
    (t.getExecuteTask now_ms now_task).1.m_previouseTime = t.m_previouseTime ∨
      (t.getExecuteTask now_ms now_task).1.m_previouseTime = now_ms := by
  unfold Timer.getExecuteTask
  split
  · exact .inl rfl
  · simp only
    split
    · exact .inr rfl
    · rw [expireAll_previouse]
      exact .inr rfl

theorem cancel_previouse {t t' : Timer C} {a : Nat} {ok : Bool}
    (hop : t.cancel a = some (t', ok)) : t'.m_previouseTime = t.m_previouseTime := by
  obtain ⟨task, -, hop⟩ := Option.bind_eq_some_iff.mp hop
  split at hop
  · cases hop
    rfl
  · obtain ⟨it, -, hop⟩ := Option.bind_eq_some_iff.mp hop
    cases hop
    rfl

theorem refresh_previouse {t t' : Timer C} {a : Nat} {now : UInt64} {ok : Bool}
    (hop : t.refresh a now = some (t', ok)) : t'.m_previouseTime = t.m_previouseTime := by
  obtain ⟨task, -, hop⟩ := Option.bind_eq_some_iff.mp hop
  split at hop
  · cases hop
    rfl
  · split at hop
    · cases hop
      rfl
    · cases hop
      rfl

theorem reset_previouse {t t' : Timer C} {a : Nat} {ms now : UInt64} {from_now ok front : Bool}
    (hop : t.reset a ms from_now now = some (t', ok, front)) :
    t'.m_previouseTime = t.m_previouseTime := by
  obtain ⟨task, -, hop⟩ := Option.bind_eq_some_iff.mp hop
  split at hop
  · cases hop
    rfl
  · obtain ⟨task, -, hop⟩ := Option.bind_eq_some_iff.mp hop
    split at hop
    · cases hop
      rfl
    · split at hop
      · cases hop
        rfl
      · cases hop
        rfl

/-- `m_previouseTime` is a value that was read. -/
theorem previouse_opStep (hst : t.opStep o = some t') :
    t'.m_previouseTime = t.m_previouseTime ∨ t'.m_previouseTime ∈ t.reads o := by
  cases o with
  | getNextExecuteTime now_ms =>
    cases hst
    simp only [Timer.getNextExecuteTime]
    split <;> exact .inl rfl
  | act a =>
    cases a with
    | createTimer a cb ms recurring now =>
      obtain ⟨-, hst⟩ := Option.ite_none_right_eq_some.mp hst
      rw [← Option.some.inj hst]
      exact .inl rfl
    | createCondTimer a cb weak_cond ms recurring now =>
      obtain ⟨-, hst⟩ := Option.ite_none_right_eq_some.mp hst
      rw [← Option.some.inj hst]
      exact .inl rfl
    | cancel a =>
      obtain ⟨⟨t₁, ok⟩, hop, rfl⟩ := Option.map_eq_some_iff.mp hst
      exact .inl (cancel_previouse hop)
    | refresh a now =>
      obtain ⟨⟨t₁, ok⟩, hop, rfl⟩ := Option.map_eq_some_iff.mp hst
      exact .inl (refresh_previouse hop)
    | reset a ms from_now now =>
      obtain ⟨⟨t₁, ok, front⟩, hop, rfl⟩ := Option.map_eq_some_iff.mp hst
      exact .inl (reset_previouse hop)
    | free a =>
      obtain ⟨-, hst⟩ := Option.ite_none_left_eq_some.mp hst
      rw [← Option.some.inj hst]
      exact .inl rfl
    | getExecuteTask now_ms now_task =>
      obtain ⟨-, hst⟩ := Option.ite_none_right_eq_some.mp hst
      rw [← Option.some.inj hst]
      refine getExecuteTask_previouse.imp_right fun heq => ?_
      rw [heq, reads]
      split <;> exact List.mem_cons_self

/-- The state between two operations, the rest of the run and the values read before. -/
def Follows (t : Timer (Callback F W)) (ops : List (Op F W)) : Prop :=
  AtRest t ∧ ∃ before, t.m_previouseTime ∈ before ∧ Steady (before ++ clock t ops)

theorem follows_step {ops : List (Op F W)} (h : t.Follows (o :: ops))
    (hst : t.opStep o = some t') : t'.Follows ops := by
  obtain ⟨hset, before, hprev, hsteady⟩ := h
  refine ⟨atRest_opStep hset hst, before ++ t.reads o, ?_, ?_⟩
  · rcases previouse_opStep hst with heq | hread
    · exact List.mem_append_left _ (heq ▸ hprev)
    · exact List.mem_append_right _ hread
  · simpa [clock, hst] using hsteady

/-- The clock is at most an hour back when `getExecuteTask` reads it. -/
theorem Follows.back {ops : List (Op F W)} (h : t.Follows (o :: ops)) (now_ms : UInt64)
    (now_task : UInt64 × Nat) (ho : o = .act (.getExecuteTask now_ms now_task)) :
    t.m_previouseTime.toNat ≤ now_ms.toNat + hour := by
  obtain ⟨-, before, hprev, hsteady⟩ := h
  have hpair := (List.pairwise_append.mp hsteady).2.2 _ hprev
  refine hpair now_ms (List.mem_append_left _ ?_)
  rw [ho, reads]
  split <;> exact List.mem_cons_self

/-- A run keeps to the clock exactly when, if its clock is steady, every call of `getExecuteTask`
meets the condition. -/
theorem keepsTime_iff (now : UInt64) (ops : List (Op F W)) : KeepsTime now ops ↔
    (Steady (now :: clock (new now) ops) → LTS.StepsMeet opStep Meets (new now) ops) := by
  have hall : LTS.StepsMeet opStep ExpiresAll (new now) ops :=
    LTS.stepsMeet_of_inv (fun t o t' h hst => ⟨expiresAll h o, atRest_opStep h hst⟩)
      (atRest_new now)
  refine (and_iff_left hall).trans (imp_congr_right fun hsteady => ?_)
  refine LTS.stepsMeet_congr (I := Follows) (fun t o ops t' h hst => ⟨?_, follows_step h hst⟩)
    ⟨atRest_new now, [now], List.mem_singleton_self now, hsteady⟩
  exact onTime_iff_meets h.1 h.back

end Runs

/-- A task that is due a minute after 1000; then the clock reads 999. -/
def stepBack : List (Op Nat Nat) :=
  [.act (.createTimer 1 (some 7) 60000 false 1000), .act (.getExecuteTask 999 (999, 2))]

/-- The task expires. -/
theorem early : Steady (1000 :: clock (new 1000) stepBack) ∧
    ¬ KeepsTime (F := Nat) (W := Nat) 1000 stepBack := by
  have hsteady : Steady (1000 :: clock (new 1000) stepBack) := by
    unfold Steady
    decide
  refine ⟨hsteady, fun h => ?_⟩
  have hfires := ((h.1 hsteady _ rfl).2 _ rfl).1.2 1 (by decide)
  exact absurd hfires (by decide)

end Ppcode.Timer
