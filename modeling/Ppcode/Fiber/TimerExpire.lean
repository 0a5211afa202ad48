import Mathlib.Data.List.TakeWhile
import Ppcode.Fiber.TimerSet

/-!
# What `getExecuteTask` expires

`getExecuteTask` reads the clock twice: `now_ms`, and once more in the constructor
of the task with which it searches the set. The tasks that it expires are an
initial segment of the set (`fired`).

* `fired_due`, `fired_early`: without a rollover every task that is due at
  `now_ms` is among them, and none that is due after both values.
* `getExecuteTask_expires`: the callbacks it returns are theirs, in the order of
  the deadlines; a one-shot task is done with, a recurring one has a new deadline,
  and all others are as they were.
-/
namespace Ppcode.Timer
variable {C : Type} {t : Timer C} {now_ms : UInt64} {now_task : UInt64 × Nat} {a : Nat}

/-- `m_cb` of the task at an address. -/
def callback (t : Timer C) (a : Nat) : Option C := (t.mem a).bind TimerTask.m_cb

/-- A call that returned `cbs` has expired `es`. -/
structure Expires (t t' : Timer C) (cbs : List (Option C)) (now_ms next_ms : UInt64)
    (es : List Nat) : Prop where
  nodup : es.Nodup
  member : ∀ a ∈ es, a ∈ t.m_tasks
  returned : cbs = es.map t.callback
  called : ∀ a ∈ es, t.callback a ≠ none
  due : ∀ a ∈ t.m_tasks, t.next a ≤ now_ms → a ∈ es
  early : ∀ a ∈ es, t.next a ≤ next_ms
  ordered : es.Pairwise fun a b => t.next a ≤ t.next b
  oneShot : ∀ a ∈ es, ∀ task, t.mem a = some task → task.m_recurring = false →
    a ∉ t'.m_tasks ∧ t'.mem a = some { task with m_cb := none }
  recurring : ∀ a ∈ es, ∀ task, t.mem a = some task → task.m_recurring = true →
    a ∈ t'.m_tasks ∧ t'.mem a = some { task with m_next := now_ms + task.m_ms }
  others : ∀ a, a ∉ es → t'.mem a = t.mem a ∧ (a ∈ t'.m_tasks ↔ a ∈ t.m_tasks)

/-! ## The callbacks -/

theorem expireAll_cbs {es : List Nat} (hnd : es.Nodup) :
    ∀ r : Timer C × List (Option C), (∀ a ∈ es, r.1.mem a ≠ none) →
      (es.foldl (expire now_ms) r).2 = r.2 ++ es.map r.1.callback := by
  induction es with
  | nil => exact fun r _ => (List.append_nil r.2).symm
  | cons a es ih =>
    intro r hmem
    obtain ⟨hnot, hnd⟩ := List.nodup_cons.mp hnd
    obtain ⟨task, htask⟩ := Option.ne_none_iff_exists'.mp (hmem a List.mem_cons_self)
    have hkept : ∀ b ∈ es, (expire now_ms r a).1.mem b = r.1.mem b := by
      intro b hb
      have hab : b ≠ a := by
        intro heq
        subst heq
        exact hnot hb
      exact expire_mem hab
    have hcb : (expire now_ms r a).2 = r.2 ++ [r.1.callback a] := by
      rw [show r = (r.1, r.2) from rfl, expire_spec htask, callback, htask]
      rfl
    rw [List.foldl_cons, ih hnd]
    · rw [hcb, List.map_cons, List.append_assoc, List.singleton_append]
      congr 2
      refine List.map_congr_left fun b hb => ?_
      rw [callback, hkept b hb, callback]
    · intro b hb
      rw [hkept b hb]
      exact hmem b (List.mem_cons_of_mem a hb)

/-- The callbacks returned are those of the tasks expired. -/
theorem getExecuteTask_cbs {flight : Nat → Prop} (h : SetInv flight t) :
    (t.getExecuteTask now_ms now_task).2 = (t.fired now_ms now_task).map t.callback := by
  have hnd : (t.fired now_ms now_task).Nodup := fired_sublist.nodup h.sorted.nodup
  have halloc : ∀ a ∈ t.fired now_ms now_task, t.mem a ≠ none :=
    fun a ha => (h.alloc a (fired_sublist.subset ha)).1
  unfold fired at hnd halloc ⊢
  unfold getExecuteTask
  split
  · next hnil =>
    have he : t.expired now_ms now_task = none := by
      unfold expired
      rw [hnil]
      rfl
    rw [he]
    rfl
  · simp only
    split
    · next he =>
      rw [he]
      rfl
    · next es rest he =>
      simp only [he, Option.map_some, Option.getD_some] at hnd halloc ⊢
      rw [expireAll_cbs hnd _ halloc, List.nil_append]
      rfl

/-! ## Which tasks -/

theorem next_le {b : Nat} (h : t.key a ≤ t.key b) : t.next a ≤ t.next b := by
  unfold key at h
  rw [Prod.Lex.toLex_le_toLex] at h
  refine UInt64.le_iff_toNat_le.mpr ?_
  rcases h with hlt | heq
  · exact Nat.le_of_lt hlt
  · exact Nat.le_of_eq heq.1

theorem next_le_of_before (h : TimerTask.comparator (t.next a, a) now_task = true) :
    t.next a ≤ now_task.1 := by
  have hlt := (comparator_iff _ _).mp h
  rw [Prod.Lex.toLex_lt_toLex] at hlt
  refine UInt64.le_iff_toNat_le.mpr ?_
  rcases hlt with hlt | heq
  · exact Nat.le_of_lt hlt
  · exact Nat.le_of_eq heq.1

theorem le_next_of_not_before (h : TimerTask.comparator (t.next a, a) now_task = false) :
    now_task.1 ≤ t.next a := by
  have hnot : ¬ toLex ((t.next a).toNat, a) < toLex (now_task.1.toNat, now_task.2) := by
    rw [← comparator_iff (t.next a, a) now_task, h]
    exact Bool.false_ne_true
  have hle := not_lt.mp hnot
  rw [Prod.Lex.toLex_le_toLex] at hle
  refine UInt64.le_iff_toNat_le.mpr ?_
  rcases hle with hlt | heq
  · exact Nat.le_of_lt hlt
  · exact Nat.le_of_eq heq.1

section NoRollover
variable (hr : (t.detectClockRollover now_ms).2 = false)
include hr

/-- A task that expires is due at one of the two values. -/
theorem fired_early (ha : a ∈ t.fired now_ms now_task) :
    t.next a ≤ now_ms ∨ t.next a ≤ now_task.1 := by
  unfold fired expired at ha
  split at ha
  · cases ha
  · simp only [hr, Bool.not_false, Bool.true_and] at ha
    split at ha
    · cases ha
    · simp only [Option.map_some, Option.getD_some, cut, Bool.false_eq_true, if_false,
        List.mem_append] at ha
      rcases ha with ha | ha
      · have hbefore := List.mem_takeWhile_imp ha
        exact .inr (next_le_of_before hbefore)
      · have heq := List.mem_takeWhile_imp ha
        rw [decide_eq_true_eq] at heq
        exact .inl (heq ▸ UInt64.le_refl _)

/-- Where the clock does not go back between the two values, what is due at the first expires. -/
theorem fired_due {flight : Nat → Prop} (h : SetInv flight t) (hnow : now_ms ≤ now_task.1) (ha : a ∈ t.m_tasks)
    (hdue : t.next a ≤ now_ms) : a ∈ t.fired now_ms now_task := by
  unfold fired expired
  cases hhead : t.m_tasks.head? with
  | none =>
    rw [List.head?_eq_none_iff] at hhead
    rw [hhead] at ha
    cases ha
  | some first =>
    have hfirst : ¬ t.next first > now_ms := by
      have hle := UInt64.le_trans (next_le (h.sorted.head_le hhead ha)) hdue
      exact UInt64.not_lt.mpr hle
    have hcut := h.sorted.cut (p := fun a => TimerTask.comparator (t.next a, a) now_task)
      fun a _ b _ hlt hb =>
        (comparator_iff _ _).mpr (lt_trans hlt ((comparator_iff (t.next b, b) _).mp hb))
    have hrest := (h.sorted.sublist (List.filter_sublist
      (p := fun a => !TimerTask.comparator (t.next a, a) now_task))).cut
      (p := fun a => decide (t.next a = now_ms)) fun a ha b hb hlt heq => ?_
    · simp only [hr, Bool.not_false, Bool.true_and, decide_eq_true_eq, hfirst, if_false, cut,
        Bool.false_eq_true, Option.map_some, Option.getD_some, hcut.1, hcut.2, hrest.1,
        List.mem_append, List.mem_filter]
      cases hb : TimerTask.comparator (t.next a, a) now_task with
      | true => exact .inl ⟨ha, rfl⟩
      | false =>
        have hge := UInt64.le_trans hnow (le_next_of_not_before hb)
        exact .inr ⟨⟨ha, rfl⟩, UInt64.le_antisymm hdue hge⟩
    -- what is left before a task that is due at `now_ms` is due then, too
    · have hnot : TimerTask.comparator (t.next a, a) now_task = false := by
        simpa using (List.mem_filter.mp ha).2
      have hle := next_le (le_of_lt hlt)
      rw [of_decide_eq_true heq] at hle
      exact decide_eq_true (UInt64.le_antisymm hle
        (UInt64.le_trans hnow (le_next_of_not_before hnot)))

end NoRollover

theorem no_rollover (hprev : t.m_previouseTime ≤ now_ms) :
    (t.detectClockRollover now_ms).2 = false :=
  decide_eq_false fun h => UInt64.not_lt.mpr hprev h.1

/-- What a call expires, and what it leaves, while the clock goes forward. -/
theorem getExecuteTask_expires (t : Timer C) (now_ms : UInt64) (now_task : UInt64 × Nat)
    (h : Settled t) (hnow : now_ms ≤ now_task.1) (hprev : t.m_previouseTime ≤ now_ms) :
    Expires t (t.getExecuteTask now_ms now_task).1 (t.getExecuteTask now_ms now_task).2 now_ms
      now_task.1 (t.fired now_ms now_task) := by
  have hr := no_rollover hprev
  have hsub : (t.fired now_ms now_task).Sublist t.m_tasks := fired_sublist
  have hmem (a : Nat) : (t.getExecuteTask now_ms now_task).1.mem a =
      if a ∈ t.fired now_ms now_task then (t.mem a).map (afterExpire now_ms) else t.mem a :=
    getExecuteTask_mem h.toSetInv a
  have hin (a : Nat) : a ∈ (t.getExecuteTask now_ms now_task).1.m_tasks ↔ a ∈ t.m_tasks ∧
      (a ∈ t.fired now_ms now_task → (t.mem a).any TimerTask.m_recurring = true) :=
    mem_getExecuteTask h.toSetInv
  exact
    { nodup := hsub.nodup h.sorted.nodup
      member := hsub.subset
      returned := getExecuteTask_cbs h.toSetInv
      called := by
        intro a ha
        obtain ⟨task, htask, hcb⟩ := h.filled a (hsub.subset ha)
        rw [callback, htask]
        exact Option.isSome_iff_ne_none.mp hcb
      due := fun a ha hdue => fired_due hr h.toSetInv hnow ha hdue
      early := by
        intro a ha
        rcases fired_early hr ha with hle | hle
        · exact UInt64.le_trans hle hnow
        · exact hle
      ordered := ((h.sorted.sublist hsub).imp fun hlt => next_le (le_of_lt hlt))
      oneShot := by
        intro a ha task htask honce
        refine ⟨fun hstays => ?_, ?_⟩
        · have hrec := ((hin a).mp hstays).2 ha
          rw [htask, Option.any_some, honce] at hrec
          cases hrec
        · rw [hmem, if_pos ha, htask, Option.map_some, afterExpire, honce]
          rfl
      recurring := by
        intro a ha task htask hagain
        refine ⟨(hin a).mpr ⟨hsub.subset ha, fun _ => ?_⟩, ?_⟩
        · rw [htask, Option.any_some, hagain]
        · rw [hmem, if_pos ha, htask, Option.map_some, afterExpire, hagain]
          rfl
      others := by
        intro a ha
        refine ⟨by rw [hmem, if_neg ha], ?_⟩
        rw [hin]
        exact and_iff_left fun hc => absurd hc ha }

/-- A recurring task and two one-shot ones, one of them due later. -/
def threeTasks : Timer Nat :=
  (((((new 0).createTimer 1 (some 10) 10 true 0).1).createTimer 2 (some 20) 10 false 0).1.createTimer
    3 (some 30) 50 false 0).1

theorem threeTasks_settled : Settled threeTasks :=
  (((settled_new 0).create rfl).create rfl).create rfl

/-- The clock reads 10, and then 12. -/
theorem expires_threeTasks :
    (threeTasks.getExecuteTask 10 (12, 4)).2 = [some 10, some 20] ∧
    Expires threeTasks (threeTasks.getExecuteTask 10 (12, 4)).1
      (threeTasks.getExecuteTask 10 (12, 4)).2 10 12 [1, 2] := by
  have hfired : threeTasks.fired 10 (12, 4) = [1, 2] := by decide
  refine ⟨by decide, ?_⟩
  rw [← hfired]
  exact getExecuteTask_expires threeTasks 10 (12, 4) threeTasks_settled (by decide) (by decide)

end Ppcode.Timer
