import Ppcode.Fiber.Timer

/-!
# The set of armed tasks

`SetInv` is the invariant of `m_tasks`: it is strictly ordered by the current
deadlines and addresses, and holds every armed task, but for those that an
operation has taken out and not put back yet (`flight`). There is one lemma
for each elementary change: a task is taken out (`SetInv.erase`), written while
it is out (`SetInv.setTask`), put back (`SetInv.insert`) or left out for good
(`SetInv.land`); each operation is a sequence of these.

`createTimer` takes an empty callback as well, and puts the task into the set all
the same. `Filled` says of one task that it is in the set only while it is armed;
no operation undoes that, and it holds of a task created with a callback.

`timer_set`: after any run of operations in which `createTimer` has callbacks, with
any clock values, nothing is in flight, the set holds exactly the armed tasks, and
looking up one of them succeeds.
-/
namespace Ppcode.Timer
variable {C : Type}

def Armed (t : Timer C) (a : Nat) : Prop := ∃ task, t.mem a = some task ∧ task.m_cb.isSome

structure SetInv (flight : Nat → Prop) (t : Timer C) : Prop where
  sorted : OrderedSet.Sorted t.key t.m_tasks
  armed : ∀ a, t.Armed a → ¬ flight a → a ∈ t.m_tasks
  alloc : ∀ a ∈ t.m_tasks, t.mem a ≠ none ∧ ¬ flight a

/-- The task at `a` is in the set only while it is armed. -/
def Filled (t : Timer C) (a : Nat) : Prop := a ∈ t.m_tasks → t.Armed a

section Changes
variable {t : Timer C} {flight flight' : Nat → Prop} {a b : Nat} {task : TimerTask C}

theorem Armed.mem_ne_none (h : t.Armed a) : t.mem a ≠ none := by
  obtain ⟨task, hmem, -⟩ := h
  rw [hmem]
  nofun

theorem armed_iff (hmem : t.mem a = some task) : t.Armed a ↔ task.m_cb ≠ none := by
  unfold Armed
  rw [hmem, ← Option.isSome_iff_ne_none]
  constructor
  · intro hex
    obtain ⟨task', htask', hcb⟩ := hex
    cases htask'
    exact hcb
  · exact fun hcb => ⟨task, rfl, hcb⟩

theorem SetInv.congr (h : SetInv flight t) (he : ∀ a, t.mem a ≠ none → (flight a ↔ flight' a)) :
    SetInv flight' t where
  sorted := h.sorted
  armed a ha hf := h.armed a ha ((he a ha.mem_ne_none).not.mpr hf)
  alloc a ha := by
    obtain ⟨hmem, hf⟩ := h.alloc a ha
    exact ⟨hmem, (he a hmem).not.mp hf⟩

theorem setTask_next (hab : b ≠ a) : (t.setTask a task).next b = t.next b := by
  simp [next, setTask, hab]

theorem setTask_mem (hab : b ≠ a) : (t.setTask a task).mem b = t.mem b :=
  Function.update_of_ne hab _ _

theorem setTask_mem_self : (t.setTask a task).mem a = some task := Function.update_self ..

theorem setTask_armed (hab : b ≠ a) : (t.setTask a task).Armed b ↔ t.Armed b := by
  unfold Armed
  rw [setTask_mem hab]

/-- Membership alone; the order does not matter for these. -/
theorem mem_insert : b ∈ (t.insert a).m_tasks ↔ b = a ∨ b ∈ t.m_tasks :=
  OrderedSet.mem_insert t.keyOrder

theorem mem_erase (h : SetInv flight t) : b ∈ (t.erase a).m_tasks ↔ b ∈ t.m_tasks ∧ b ≠ a :=
  OrderedSet.mem_erase t.keyOrder h.sorted

theorem find_eq (h : SetInv flight t) : t.find a = some b ↔ b = a ∧ a ∈ t.m_tasks :=
  OrderedSet.find_eq_some t.keyOrder h.sorted

theorem SetInv.erase (h : SetInv flight t) : SetInv (fun b => flight b ∨ b = a) (t.erase a) where
  sorted := h.sorted.sublist OrderedSet.erase_sublist
  armed b hb hf := by
    rw [not_or] at hf
    exact (mem_erase h).mpr ⟨h.armed b hb hf.1, hf.2⟩
  alloc b hb := by
    obtain ⟨hin, hab⟩ := (mem_erase h).mp hb
    obtain ⟨hmem, hf⟩ := h.alloc b hin
    exact ⟨hmem, not_or.mpr ⟨hf, hab⟩⟩

theorem SetInv.setTask (h : SetInv flight t) (ha : flight a) :
    SetInv flight (t.setTask a task) := by
  have hne : ∀ {b}, ¬ flight b → b ≠ a := by
    intro b hf heq
    subst heq
    exact hf ha
  refine ⟨?_, fun b hb hf => ?_, fun b hb => ?_⟩
  · refine h.sorted.congr fun b hb => ?_
    unfold key
    rw [setTask_next (hne (h.alloc b hb).2)]
  · exact h.armed b ((setTask_armed (hne hf)).mp hb) hf
  · obtain ⟨hmem, hf⟩ := h.alloc b hb
    rw [setTask_mem (hne hf)]
    exact ⟨hmem, hf⟩

theorem SetInv.insert (h : SetInv flight t) (ha : t.mem a ≠ none) :
    SetInv (fun b => flight b ∧ b ≠ a) (t.insert a) where
  sorted := OrderedSet.Sorted.insert t.keyOrder h.sorted
  armed b hb hf := by
    rw [not_and_not_right] at hf
    by_cases hfl : flight b
    · exact mem_insert.mpr (.inl (hf hfl))
    · exact mem_insert.mpr (.inr (h.armed b hb hfl))
  alloc b hb := by
    rcases mem_insert.mp hb with rfl | hin
    · exact ⟨ha, fun hf => hf.2 rfl⟩
    · obtain ⟨hmem, hf⟩ := h.alloc b hin
      exact ⟨hmem, fun hc => hf hc.1⟩

/-- A task that is not armed need not come back. -/
theorem SetInv.land (h : SetInv flight t) (ha : ¬ t.Armed a) :
    SetInv (fun b => flight b ∧ b ≠ a) t where
  sorted := h.sorted
  armed b hb hf := by
    rw [not_and_not_right] at hf
    refine h.armed b hb fun hfl => ?_
    rw [hf hfl] at hb
    exact ha hb
  alloc b hb := by
    obtain ⟨hmem, hf⟩ := h.alloc b hb
    exact ⟨hmem, fun hc => hf hc.1⟩

/-- The task that was taken out is back, or out for good. -/
theorem SetInv.back (h : SetInv (fun b => (flight b ∨ b = a) ∧ b ≠ a) t) (hf : ¬ flight a) :
    SetInv flight t := by
  refine h.congr fun b _ => ?_
  by_cases hab : b = a
  · subst hab
    simp [hf]
  · simp [hab]

/-- Neither a change of `m_tickled` nor of `m_previouseTime` matters. -/
theorem SetInv.frame (h : SetInv flight t) (tickled : Bool) (previouse : UInt64) :
    SetInv flight { t with m_tickled := tickled, m_previouseTime := previouse } :=
  ⟨h.sorted, h.armed, h.alloc⟩

end Changes

/-! ## The operations -/

section Operations
variable {t t' : Timer C} {flight : Nat → Prop} {a : Nat} {task : TimerTask C}

theorem addTimerTask_mem (t : Timer C) (a : Nat) : (t.addTimerTask a).1.mem = t.mem := rfl

theorem addTimerTask_fst (t : Timer C) (a : Nat) : ∃ tickled,
    (t.addTimerTask a).1 = { t.insert a with m_tickled := tickled } := ⟨_, rfl⟩

theorem SetInv.addTimerTask (h : SetInv flight t) (ha : t.mem a ≠ none) :
    SetInv (fun b => flight b ∧ b ≠ a) (t.addTimerTask a).1 := by
  obtain ⟨tickled, e⟩ := addTimerTask_fst t a
  rw [e]
  exact (h.insert ha).frame tickled t.m_previouseTime

/-- A new task at a free address is in flight. -/
theorem SetInv.fresh (h : SetInv flight t) (ha : t.mem a = none) :
    SetInv (fun b => flight b ∨ b = a) (t.setTask a task) := by
  have h' : SetInv (fun b => flight b ∨ b = a) t := by
    refine h.congr fun b hb => ?_
    have hab : b ≠ a := by
      intro heq
      subst heq
      exact hb ha
    simp [hab]
  exact h'.setTask (.inr rfl)

theorem cancel_spec (h : SetInv flight t) (hf : ¬ flight a) (hmem : t.mem a = some task) :
    (task.m_cb = none ∧ t.cancel a = some (t, false)) ∨
    (task.m_cb ≠ none ∧ a ∈ t.m_tasks ∧
      t.cancel a = some ((t.erase a).setTask a { task with m_cb := none }, true)) := by
  unfold cancel
  rw [hmem]
  cases hcb : task.m_cb with
  | none => exact .inl ⟨rfl, by simp [hcb]⟩
  | some cb =>
    have hin : a ∈ t.m_tasks := h.armed a ⟨task, hmem, by rw [hcb]; rfl⟩ hf
    refine .inr ⟨nofun, hin, ?_⟩
    -- `m_cb` is no part of the order
    have hlt : (t.setTask a { task with m_cb := none }).lt = t.lt := by
      have hnext : (t.setTask a { task with m_cb := none }).next = t.next := by
        funext b
        by_cases hab : b = a
        · subst hab
          simp [next, setTask, hmem]
        · exact setTask_next hab
      unfold lt
      rw [hnext]
    have hfind : (t.setTask a { task with m_cb := none }).find a = some a := by
      have := (find_eq h).mpr ⟨rfl, hin⟩
      unfold find at this ⊢
      rw [hlt]
      exact this
    simp only [Option.bind_eq_bind, Option.bind_some, hcb, Option.isNone_some, Bool.false_eq_true,
      if_false, hfind, erase, hlt]
    rfl

/-- What a call of `cancel` that returns has done. -/
theorem cancel_cases {ok : Bool} (h : SetInv flight t) (hf : ¬ flight a)
    (hop : t.cancel a = some (t', ok)) : t' = t ∨ ∃ task, t.mem a = some task ∧
      task.m_cb ≠ none ∧ t' = (t.erase a).setTask a { task with m_cb := none } := by
  cases hmem : t.mem a with
  | none =>
    rw [cancel, hmem] at hop
    cases hop
  | some task =>
    rcases cancel_spec h hf hmem with ⟨-, he⟩ | ⟨hcb, -, he⟩
    · rw [he] at hop
      cases hop
      exact .inl rfl
    · rw [he] at hop
      cases hop
      exact .inr ⟨task, rfl, hcb, rfl⟩

theorem SetInv.cancel {ok : Bool} (h : SetInv flight t) (hf : ¬ flight a)
    (hop : t.cancel a = some (t', ok)) : SetInv flight t' := by
  rcases cancel_cases h hf hop with rfl | ⟨task, -, -, rfl⟩
  · exact h
  · refine SetInv.back ((h.erase.setTask (.inr rfl)).land fun hc => ?_) hf
    exact (armed_iff setTask_mem_self).mp hc rfl

theorem refresh_spec (now : UInt64) (h : SetInv flight t) (hf : ¬ flight a)
    (hmem : t.mem a = some task) :
    (task.m_cb = none ∧ t.refresh a now = some (t, false)) ∨
    (task.m_cb ≠ none ∧ a ∈ t.m_tasks ∧ t.refresh a now =
      some (((t.erase a).setTask a { task with m_next := now + task.m_ms }).insert a, true)) := by
  unfold refresh
  rw [hmem]
  cases hcb : task.m_cb with
  | none => exact .inl ⟨rfl, by simp [hcb]⟩
  | some cb =>
    have hin : a ∈ t.m_tasks := h.armed a ⟨task, hmem, by rw [hcb]; rfl⟩ hf
    have hfind : t.find a = some a := (find_eq h).mpr ⟨rfl, hin⟩
    refine .inr ⟨nofun, hin, ?_⟩
    simp [hcb, hfind]

/-- What a call of `refresh` that returns has done. -/
theorem refresh_cases {now : UInt64} {ok : Bool} (h : SetInv flight t) (hf : ¬ flight a)
    (hop : t.refresh a now = some (t', ok)) :
    t' = t ∧ ok = false ∨ ∃ task, t.mem a = some task ∧ task.m_cb ≠ none ∧
      t' = ((t.erase a).setTask a { task with m_next := now + task.m_ms }).insert a ∧ ok = true := by
  cases hmem : t.mem a with
  | none =>
    rw [refresh, hmem] at hop
    cases hop
  | some task =>
    rcases refresh_spec now h hf hmem with ⟨-, he⟩ | ⟨hcb, -, he⟩
    · rw [he] at hop
      cases hop
      exact .inl ⟨rfl, rfl⟩
    · rw [he] at hop
      cases hop
      exact .inr ⟨task, rfl, hcb, rfl, rfl⟩

theorem resetLocked_spec (ms : UInt64) (from_now : Bool) (now : UInt64) (h : SetInv flight t)
    (hf : ¬ flight a) (hmem : t.mem a = some task) :
    (task.m_cb = none ∧ t.resetLocked a ms from_now now = some (t, false, false)) ∨
    (task.m_cb ≠ none ∧ a ∈ t.m_tasks ∧ ∃ u, u = ((t.erase a).setTask a
        { task with m_ms := ms, m_next := (if from_now then now else task.m_next - ms) + ms }) ∧
      t.resetLocked a ms from_now now = some ((u.addTimerTask a).1, true, (u.addTimerTask a).2)) := by
  unfold resetLocked
  rw [hmem]
  cases hcb : task.m_cb with
  | none => exact .inl ⟨rfl, by simp [hcb]⟩
  | some cb =>
    have hin : a ∈ t.m_tasks := h.armed a ⟨task, hmem, by rw [hcb]; rfl⟩ hf
    have hfind : t.find a = some a := (find_eq h).mpr ⟨rfl, hin⟩
    refine .inr ⟨nofun, hin, _, rfl, ?_⟩
    simp [hcb, hfind]

/-- What a section of `reset` that ends has done. -/
theorem resetLocked_cases {ms now : UInt64} {from_now ok front : Bool} (h : SetInv flight t)
    (hf : ¬ flight a) (hop : t.resetLocked a ms from_now now = some (t', ok, front)) :
    t' = t ∧ ok = false ∧ front = false ∨ ∃ task u, t.mem a = some task ∧ task.m_cb ≠ none ∧
      a ∈ t.m_tasks ∧ u = (t.erase a).setTask a
        { task with m_ms := ms, m_next := (if from_now then now else task.m_next - ms) + ms } ∧
      t' = (u.addTimerTask a).1 ∧ ok = true ∧ front = (u.addTimerTask a).2 := by
  cases hmem : t.mem a with
  | none =>
    rw [resetLocked, hmem] at hop
    cases hop
  | some task =>
    rcases resetLocked_spec ms from_now now h hf hmem with ⟨-, he⟩ | ⟨hcb, hin, u, hu, he⟩
    · rw [he] at hop
      cases hop
      exact .inl ⟨rfl, rfl, rfl⟩
    · rw [he] at hop
      cases hop
      exact .inr ⟨task, u, rfl, hcb, hin, hu, rfl, rfl, rfl⟩

/-- A task taken out and put back with other values. -/
theorem SetInv.requeue (h : SetInv flight t) (hf : ¬ flight a) :
    SetInv flight (((t.erase a).setTask a task).insert a) ∧
    SetInv flight (((t.erase a).setTask a task).addTimerTask a).1 := by
  have hset : SetInv (fun b => flight b ∨ b = a) ((t.erase a).setTask a task) :=
    h.erase.setTask (.inr rfl)
  have hmem : ((t.erase a).setTask a task).mem a ≠ none := by
    rw [setTask_mem_self]
    nofun
  exact ⟨(hset.insert hmem).back hf, (hset.addTimerTask hmem).back hf⟩

/-- The tasks besides the one that was put back were in the set. -/
theorem mem_requeue {b : Nat} (h : SetInv flight t)
    (hb : b ∈ (((t.erase a).setTask a task).insert a).m_tasks) (hab : b ≠ a) : b ∈ t.m_tasks :=
  ((mem_erase h).mp ((mem_insert.mp hb).resolve_left hab)).1

theorem SetInv.refresh {now : UInt64} {ok : Bool} (h : SetInv flight t) (hf : ¬ flight a)
    (hop : t.refresh a now = some (t', ok)) : SetInv flight t' := by
  rcases refresh_cases h hf hop with ⟨rfl, -⟩ | ⟨task, -, -, rfl, -⟩
  · exact h
  · exact (SetInv.requeue h hf).1

theorem SetInv.resetLocked {ms now : UInt64} {from_now ok front : Bool} (h : SetInv flight t)
    (hf : ¬ flight a) (hop : t.resetLocked a ms from_now now = some (t', ok, front)) :
    SetInv flight t' := by
  rcases resetLocked_cases h hf hop with ⟨rfl, -⟩ | ⟨task, u, -, -, -, rfl, rfl, -⟩
  · exact h
  · exact (SetInv.requeue h hf).2

theorem SetInv.reset {ms now : UInt64} {from_now ok front : Bool} (h : SetInv flight t)
    (hf : ¬ flight a) (hop : t.reset a ms from_now now = some (t', ok, front)) :
    SetInv flight t' := by
  simp only [Timer.reset, Option.bind_eq_bind] at hop
  obtain ⟨task, -, hop⟩ := Option.bind_eq_some_iff.mp hop
  split at hop
  · cases hop
    exact h
  · exact SetInv.resetLocked h hf hop

theorem SetInv.free (h : SetInv flight t) (ha : a ∉ t.m_tasks) :
    SetInv flight { t with mem := Function.update t.mem a none } := by
  have hne : ∀ b ∈ t.m_tasks, b ≠ a := by
    intro b hb heq
    subst heq
    exact ha hb
  refine ⟨?_, fun b hb hf => ?_, fun b hb => ?_⟩
  · refine h.sorted.congr fun b hb => ?_
    simp [key, next, hne b hb]
  · have hab : b ≠ a := by
      intro heq
      subst heq
      exact hb.mem_ne_none (Function.update_self ..)
    simp only [Armed, Function.update_of_ne hab] at hb
    exact h.armed b hb hf
  · simp only [Function.update_of_ne (hne b hb)]
    exact h.alloc b hb

/-! ## Expiry -/

/-- The cut only cuts. -/
theorem cut_append (t : Timer C) (rollover : Bool) (now_ms : UInt64) (now_task : UInt64 × Nat) :
    (t.cut rollover now_ms now_task).1 ++ (t.cut rollover now_ms now_task).2 = t.m_tasks := by
  unfold cut
  split
  · exact List.append_nil _
  · simp only [List.append_assoc, List.takeWhile_append_dropWhile]

theorem expired_append {now_ms : UInt64} {now_task : UInt64 × Nat} {es rest : List Nat}
    (h : t.expired now_ms now_task = some (es, rest)) : es ++ rest = t.m_tasks := by
  unfold expired at h
  split at h
  · cases h
  · simp only at h
    split at h
    · cases h
    · rw [← cut_append t (t.detectClockRollover now_ms).2 now_ms now_task, Option.some.inj h]

/-- The expired tasks are in flight until `expire` has dealt with them. -/
theorem SetInv.cut {es rest : List Nat} (h : SetInv flight t) (he : es ++ rest = t.m_tasks)
    (previouse : UInt64) : SetInv (fun b => flight b ∨ b ∈ es)
      { t with m_previouseTime := previouse, m_tasks := rest } where
  sorted := h.sorted.sublist (by rw [← he]; exact List.sublist_append_right es rest)
  armed b hb hf := by
    rw [not_or] at hf
    have hin := h.armed b hb hf.1
    rw [← he, List.mem_append] at hin
    exact hin.resolve_left hf.2
  alloc b hb := by
    have hnd : (es ++ rest).Nodup := by
      rw [he]
      exact h.sorted.nodup
    have hin : b ∈ t.m_tasks := by
      rw [← he]
      exact List.mem_append_right es hb
    obtain ⟨hmem, hf⟩ := h.alloc b hin
    exact ⟨hmem, not_or.mpr ⟨hf, fun hes => List.disjoint_of_nodup_append hnd hes hb⟩⟩

/-- What the expiry of one task does to memory and to the set. -/
theorem expire_spec {now_ms : UInt64} {cbs : List (Option C)} (hmem : t.mem a = some task) :
    expire now_ms (t, cbs) a = (if task.m_recurring = true then
        (t.setTask a { task with m_next := now_ms + task.m_ms }).insert a
      else t.setTask a { task with m_cb := none }, cbs ++ [task.m_cb]) := by
  unfold expire
  simp only [hmem]
  split <;> rfl

theorem SetInv.expire {now_ms : UInt64} {cbs : List (Option C)} (h : SetInv flight t)
    (hf : flight a) (ha : t.mem a ≠ none) :
    SetInv (fun b => flight b ∧ b ≠ a) (expire now_ms (t, cbs) a).1 := by
  obtain ⟨task, hmem⟩ := Option.ne_none_iff_exists'.mp ha
  rw [expire_spec hmem]
  simp only
  split
  · refine (h.setTask hf).insert ?_
    rw [setTask_mem_self]
    nofun
  · refine (h.setTask hf).land fun hc => ?_
    exact (armed_iff setTask_mem_self).mp hc rfl

/-- A recurring task is put back into the set, and nothing else is. -/
theorem mem_expire {now_ms : UInt64} {cbs : List (Option C)} {b : Nat} :
    b ∈ (Timer.expire now_ms (t, cbs) a).1.m_tasks ↔
      b ∈ t.m_tasks ∨ b = a ∧ (t.mem a).any TimerTask.m_recurring = true := by
  cases hmem : t.mem a with
  | none => simp [Timer.expire, hmem]
  | some task =>
    rw [expire_spec hmem]
    cases hrec : task.m_recurring with
    | false =>
      simp only [Option.any_some, hrec, Bool.false_eq_true, if_false, and_false, or_false]
      exact Iff.rfl
    | true =>
      simp only [Option.any_some, hrec, if_true, and_true, or_comm (a := b ∈ t.m_tasks)]
      exact mem_insert

/-- Other tasks are not touched. -/
theorem expire_mem {now_ms : UInt64} {cbs : List (Option C)} {b : Nat} (hab : b ≠ a) :
    (Timer.expire now_ms (t, cbs) a).1.mem b = t.mem b := by
  unfold Timer.expire
  split
  · rfl
  · split
    · exact setTask_mem hab
    · exact setTask_mem hab

/-- What the loop does to one expired task.
mirrors src/fiber/timer.cc:192-198 -/
def afterExpire (now_ms : UInt64) (task : TimerTask C) : TimerTask C :=
  if task.m_recurring then { task with m_next := now_ms + task.m_ms } else { task with m_cb := none }

theorem expire_mem_self {now_ms : UInt64} {cbs : List (Option C)} :
    (Timer.expire now_ms (t, cbs) a).1.mem a = (t.mem a).map (afterExpire now_ms) := by
  cases hmem : t.mem a with
  | none => simp [Timer.expire, hmem]
  | some task =>
    rw [expire_spec hmem, Option.map_some]
    unfold afterExpire
    split <;> exact setTask_mem_self

theorem expireAll_mem {now_ms : UInt64} {es : List Nat} (hnd : es.Nodup) (b : Nat) :
    ∀ r : Timer C × List (Option C), (es.foldl (Timer.expire now_ms) r).1.mem b =
      if b ∈ es then (r.1.mem b).map (afterExpire now_ms) else r.1.mem b := by
  induction es with
  | nil => exact fun _ => rfl
  | cons a es ih =>
    intro r
    obtain ⟨hnot, hnd⟩ := List.nodup_cons.mp hnd
    rw [List.foldl_cons, ih hnd]
    by_cases hab : b = a
    · subst hab
      rw [if_neg hnot, if_pos List.mem_cons_self]
      exact expire_mem_self
    · rw [show r = (r.1, r.2) from rfl, expire_mem hab]
      simp [hab]

/-- The tasks that a call of `getExecuteTask` expires. -/
def fired (t : Timer C) (now_ms : UInt64) (now_task : UInt64 × Nat) : List Nat :=
  ((t.expired now_ms now_task).map Prod.fst).getD []

theorem fired_sublist {now_ms : UInt64} {now_task : UInt64 × Nat} :
    (t.fired now_ms now_task).Sublist t.m_tasks := by
  unfold fired
  cases he : t.expired now_ms now_task with
  | none => exact List.nil_sublist _
  | some r =>
    obtain ⟨es, rest⟩ := r
    rw [← expired_append he]
    exact List.sublist_append_left es rest

theorem getExecuteTask_mem {now_ms : UInt64} {now_task : UInt64 × Nat} (h : SetInv flight t)
    (b : Nat) : (t.getExecuteTask now_ms now_task).1.mem b =
      if b ∈ t.fired now_ms now_task then (t.mem b).map (afterExpire now_ms) else t.mem b := by
  have hnd : (t.fired now_ms now_task).Nodup := fired_sublist.nodup h.sorted.nodup
  unfold fired at hnd ⊢
  unfold Timer.getExecuteTask
  split
  · rename_i hnil
    have he : t.expired now_ms now_task = none := by
      unfold Timer.expired
      rw [hnil]
      rfl
    simp [he]
  · simp only
    split
    · rename_i he
      simp [he, detectClockRollover]
    · rename_i es rest he
      rw [he] at hnd ⊢
      exact expireAll_mem hnd b _

theorem SetInv.expireAll {now_ms : UInt64} {es : List Nat} (hnd : es.Nodup) :
    ∀ {r : Timer C × List (Option C)}, (∀ a ∈ es, r.1.mem a ≠ none ∧ ¬ flight a) →
      SetInv (fun b => flight b ∨ b ∈ es) r.1 →
      SetInv flight (es.foldl (Timer.expire now_ms) r).1 := by
  induction es with
  | nil => exact fun _ h => h.congr fun b _ => by simp
  | cons a es ih =>
    intro r ha h
    obtain ⟨hnot, hnd⟩ := List.nodup_cons.mp hnd
    obtain ⟨hmem, hfa⟩ := ha a List.mem_cons_self
    refine ih hnd (fun b hb => ?_) ?_
    · have hab : b ≠ a := by
        intro heq
        subst heq
        exact hnot hb
      rw [show r = (r.1, r.2) from rfl, expire_mem hab]
      exact ha b (List.mem_cons_of_mem _ hb)
    · refine (SetInv.expire h (.inr List.mem_cons_self) hmem).congr fun b _ => ?_
      by_cases hab : b = a
      · subst hab
        simp [hfa, hnot]
      · simp [hab]

theorem expireAll_tickled {now_ms : UInt64} (es : List Nat) :
    ∀ r : Timer C × List (Option C),
      (es.foldl (Timer.expire now_ms) r).1.m_tickled = r.1.m_tickled := by
  induction es with
  | nil => exact fun _ => rfl
  | cons a es ih =>
    intro r
    rw [List.foldl_cons, ih]
    unfold Timer.expire
    split
    · rfl
    · split <;> rfl

theorem getExecuteTask_tickled {now_ms : UInt64} {now_task : UInt64 × Nat} :
    (t.getExecuteTask now_ms now_task).1.m_tickled = t.m_tickled := by
  unfold Timer.getExecuteTask
  split
  · rfl
  · simp only
    split
    · rfl
    · exact expireAll_tickled _ _

theorem SetInv.getExecuteTask {now_ms : UInt64} {now_task : UInt64 × Nat}
    (h : SetInv flight t) : SetInv flight (t.getExecuteTask now_ms now_task).1 := by
  unfold Timer.getExecuteTask
  split
  · exact h
  · simp only
    split
    · exact h.frame t.m_tickled now_ms
    · rename_i es rest hex
      have he := expired_append hex
      have hnd : es.Nodup := (List.nodup_append.mp (by rw [he]; exact h.sorted.nodup)).1
      refine SetInv.expireAll hnd (fun a ha => ?_) (h.cut he now_ms)
      have hin : a ∈ t.m_tasks := by
        rw [← he]
        exact List.mem_append_left _ ha
      exact h.alloc a hin

theorem mem_expireAll {now_ms : UInt64} {es : List Nat} {b : Nat} (hnd : es.Nodup) :
    ∀ r : Timer C × List (Option C), b ∈ (es.foldl (Timer.expire now_ms) r).1.m_tasks ↔
      b ∈ r.1.m_tasks ∨ b ∈ es ∧ (r.1.mem b).any TimerTask.m_recurring = true := by
  induction es with
  | nil => exact fun r => by simp
  | cons a es ih =>
    intro r
    obtain ⟨hnot, hnd⟩ := List.nodup_cons.mp hnd
    rw [List.foldl_cons, ih hnd, show r = (r.1, r.2) from rfl, mem_expire]
    by_cases hab : b = a
    · subst hab
      simp [hnot]
    · rw [expire_mem hab]
      simp [hab]

/-- A task that fires stays in the set if it recurs. -/
theorem mem_getExecuteTask {now_ms : UInt64} {now_task : UInt64 × Nat} {b : Nat}
    (h : SetInv flight t) : b ∈ (t.getExecuteTask now_ms now_task).1.m_tasks ↔ b ∈ t.m_tasks ∧
      (b ∈ t.fired now_ms now_task → (t.mem b).any TimerTask.m_recurring = true) := by
  have hnd : (t.fired now_ms now_task).Nodup := fired_sublist.nodup h.sorted.nodup
  unfold fired at hnd ⊢
  unfold Timer.getExecuteTask
  split
  · rename_i hnil
    simp [hnil]
  · simp only
    split
    · rename_i he
      simp [he, detectClockRollover]
    · rename_i es rest he
      have happend := expired_append he
      have hdisj : b ∈ es → b ∉ rest := by
        refine fun hes hrest => List.disjoint_of_nodup_append ?_ hes hrest
        rw [happend]
        exact h.sorted.nodup
      simp only [he, Option.map_some, Option.getD_some] at hnd ⊢
      rw [mem_expireAll hnd, ← happend, List.mem_append]
      change b ∈ rest ∨ b ∈ es ∧ (t.mem b).any TimerTask.m_recurring = true ↔ _
      by_cases hes : b ∈ es
      · simp [hes, hdisj hes]
      · simp [hes]

end Operations

/-! ## Which tasks are armed -/

section Filled
variable {t t' : Timer C} {flight : Nat → Prop} {a b : Nat} {task : TimerTask C}

/-- One task is written, and no other one is put into the set. -/
theorem Filled.write (h : t.Filled b) (hmem : t'.mem = Function.update t.mem a (some task))
    (hin : b ∈ t'.m_tasks → b ≠ a → b ∈ t.m_tasks)
    (ha : b = a → b ∈ t'.m_tasks → task.m_cb ≠ none) : t'.Filled b := by
  intro hb
  by_cases hab : b = a
  · have hself : t'.mem b = some task := by rw [hmem, hab, Function.update_self]
    exact (armed_iff hself).mpr (ha hab hb)
  · unfold Armed
    rw [hmem, Function.update_of_ne hab]
    exact h (hin hb hab)

theorem Filled.create {cb : Option C} {ms now : UInt64} {recurring : Bool} (h : t.Filled b)
    (hcb : b = a → cb ≠ none) : (t.createTimer a cb ms recurring now).1.Filled b := by
  have hmem : (t.createTimer a cb ms recurring now).1.mem =
      Function.update t.mem a (some (.new cb ms recurring now)) := rfl
  refine h.write hmem (fun hb hab => ?_) fun hab _ => hcb hab
  exact (mem_insert.mp hb).resolve_left hab

theorem Filled.cancel {ok : Bool} (h : t.Filled b) (hset : SetInv flight t) (hf : ¬ flight a)
    (hop : t.cancel a = some (t', ok)) : t'.Filled b := by
  rcases cancel_cases hset hf hop with rfl | ⟨task, -, -, rfl⟩
  · exact h
  · refine h.write rfl (fun hb _ => ((mem_erase hset).mp hb).1) fun hab hb => ?_
    exact absurd hab ((mem_erase hset).mp hb).2

theorem Filled.refresh {now : UInt64} {ok : Bool} (h : t.Filled b) (hset : SetInv flight t)
    (hf : ¬ flight a) (hop : t.refresh a now = some (t', ok)) : t'.Filled b := by
  rcases refresh_cases hset hf hop with ⟨rfl, -⟩ | ⟨task, -, hcb, rfl, -⟩
  · exact h
  · exact h.write rfl (fun hb hab => mem_requeue hset hb hab) fun _ _ => hcb

theorem Filled.reset {ms now : UInt64} {from_now ok front : Bool} (h : t.Filled b)
    (hset : SetInv flight t) (hf : ¬ flight a)
    (hop : t.reset a ms from_now now = some (t', ok, front)) : t'.Filled b := by
  simp only [Timer.reset, Option.bind_eq_bind] at hop
  obtain ⟨task, -, hop⟩ := Option.bind_eq_some_iff.mp hop
  split at hop
  · cases hop
    exact h
  · rcases resetLocked_cases hset hf hop with ⟨rfl, -⟩ | ⟨task, u, -, hcb, -, rfl, rfl, -⟩
    · exact h
    · exact h.write rfl (fun hb hab => mem_requeue hset hb hab) fun _ _ => hcb

theorem Filled.getExecuteTask {now_ms : UInt64} {now_task : UInt64 × Nat} (h : t.Filled b)
    (hset : SetInv flight t) : (t.getExecuteTask now_ms now_task).1.Filled b := by
  intro hb
  obtain ⟨hin, hrec⟩ := (mem_getExecuteTask hset).mp hb
  obtain ⟨task, hmem, hcb⟩ := h hin
  unfold Armed
  rw [getExecuteTask_mem hset, hmem]
  split
  · next hfired =>
    have hrec := hrec hfired
    rw [hmem, Option.any_some] at hrec
    refine ⟨_, rfl, ?_⟩
    rw [afterExpire, if_pos hrec]
    exact hcb
  · exact ⟨task, rfl, hcb⟩

theorem Filled.free (h : t.Filled b) (ha : a ∉ t.m_tasks) :
    Filled { t with mem := Function.update t.mem a none } b := by
  intro hb
  have hab : b ≠ a := by
    intro heq
    subst heq
    exact ha hb
  simp only [Armed, Function.update_of_ne hab]
  exact h hb

end Filled

/-! ## Runs -/

/-- One operation, with the address of a new task and the clock values it reads. -/
inductive Act (F W : Type) where
  | createTimer (a : Nat) (cb : Option F) (ms : UInt64) (recurring : Bool) (now : UInt64)
  | createCondTimer (a : Nat) (cb : Option F) (weak_cond : W) (ms : UInt64) (recurring : Bool)
    (now : UInt64)
  | cancel (a : Nat)
  | refresh (a : Nat) (now : UInt64)
  | reset (a : Nat) (ms : UInt64) (from_now : Bool) (now : UInt64)
  | getExecuteTask (now_ms : UInt64) (now_task : UInt64 × Nat)
  /-- the last handle of a task outside the set is dropped; its address may be used again -/
  | free (a : Nat)

variable {F W : Type}

/-- A new task, and the one made for a search, have addresses of their own. -/
def step (t : Timer (Callback F W)) : Act F W → Option (Timer (Callback F W))
  | .createTimer a cb ms recurring now =>
    if t.mem a = none then some (t.createTimer a (cb.map .fn) ms recurring now).1 else none
  | .createCondTimer a cb weak_cond ms recurring now =>
    if t.mem a = none then some (t.createCondTimer a cb weak_cond ms recurring now).1 else none
  | .cancel a => (t.cancel a).map Prod.fst
  | .refresh a now => (t.refresh a now).map Prod.fst
  | .reset a ms from_now now => (t.reset a ms from_now now).map Prod.fst
  | .getExecuteTask now_ms now_task =>
    if t.mem now_task.2 = none then some (t.getExecuteTask now_ms now_task).1 else none
  | .free a =>
    if a ∈ t.m_tasks then none else some { t with mem := Function.update t.mem a none }

def lts (F W : Type) : LTS (Timer (Callback F W)) (Act F W) :=
  LTS.ofFn (fun t => ∃ now, t = new now) step

/-- `createTimer` has a callback. -/
def HasCallback (_ : Timer (Callback F W)) : Act F W → Prop
  | .createTimer _ cb _ _ _ => cb ≠ none
  | _ => True

/-- Nothing is in flight between operations. -/
abbrev AtRest (t : Timer C) : Prop := SetInv (fun _ => False) t

theorem AtRest.create {t : Timer C} {a : Nat} {cb : Option C} {ms now : UInt64} {recurring : Bool}
    (h : AtRest t) (ha : t.mem a = none) : AtRest (t.createTimer a cb ms recurring now).1 := by
  refine SetInv.back ((h.fresh ha).addTimerTask ?_) id
  rw [setTask_mem_self]
  nofun

theorem atRest_step {t t' : Timer (Callback F W)} {a : Act F W} (h : AtRest t)
    (hst : step t a = some t') : AtRest t' := by
  cases a with
  | createTimer a cb ms recurring now =>
    simp only [step] at hst
    split at hst
    · rename_i ha
      cases hst
      exact h.create ha
    · cases hst
  | createCondTimer a cb weak_cond ms recurring now =>
    simp only [step] at hst
    split at hst
    · rename_i ha
      cases hst
      exact h.create ha
    · cases hst
  | cancel a =>
    obtain ⟨⟨t₁, ok⟩, hop, rfl⟩ := Option.map_eq_some_iff.mp hst
    exact SetInv.cancel h id hop
  | refresh a now =>
    obtain ⟨⟨t₁, ok⟩, hop, rfl⟩ := Option.map_eq_some_iff.mp hst
    exact SetInv.refresh h id hop
  | reset a ms from_now now =>
    obtain ⟨⟨t₁, ok, front⟩, hop, rfl⟩ := Option.map_eq_some_iff.mp hst
    exact SetInv.reset h id hop
  | getExecuteTask now_ms now_task =>
    simp only [step] at hst
    split at hst
    · cases hst
      exact SetInv.getExecuteTask h
    · cases hst
  | free a =>
    simp only [step] at hst
    split at hst
    · cases hst
    · rename_i ha
      cases hst
      exact h.free ha

theorem filled_step {t t' : Timer (Callback F W)} {a : Act F W} {b : Nat} (h : t.Filled b)
    (hrest : AtRest t) (hcb : t.HasCallback a) (hst : step t a = some t') : t'.Filled b := by
  cases a with
  | createTimer a cb ms recurring now =>
    simp only [step] at hst
    split at hst
    · cases hst
      refine h.create fun _ => ?_
      rw [ne_eq, Option.map_eq_none_iff]
      exact hcb
    · cases hst
  | createCondTimer a cb weak_cond ms recurring now =>
    simp only [step] at hst
    split at hst
    · cases hst
      exact h.create nofun
    · cases hst
  | cancel a =>
    obtain ⟨⟨t₁, ok⟩, hop, rfl⟩ := Option.map_eq_some_iff.mp hst
    exact h.cancel hrest id hop
  | refresh a now =>
    obtain ⟨⟨t₁, ok⟩, hop, rfl⟩ := Option.map_eq_some_iff.mp hst
    exact h.refresh hrest id hop
  | reset a ms from_now now =>
    obtain ⟨⟨t₁, ok, front⟩, hop, rfl⟩ := Option.map_eq_some_iff.mp hst
    exact h.reset hrest id hop
  | getExecuteTask now_ms now_task =>
    simp only [step] at hst
    split at hst
    · cases hst
      exact h.getExecuteTask hrest
    · cases hst
  | free a =>
    simp only [step] at hst
    split at hst
    · cases hst
    · rename_i ha
      cases hst
      exact h.free ha

theorem atRest_new (now : UInt64) : AtRest (new now : Timer C) where
  sorted := List.Pairwise.nil
  armed a ha := by
    obtain ⟨task, hmem, -⟩ := ha
    cases hmem
  alloc := nofun

/-- The invariant of the set: between operations it holds exactly the armed tasks. -/
structure Settled (t : Timer C) : Prop extends AtRest t where
  filled : ∀ a, t.Filled a

theorem Settled.mem_iff {t : Timer C} (h : Settled t) (a : Nat) : a ∈ t.m_tasks ↔ t.Armed a :=
  ⟨h.filled a, fun ha => h.armed a ha id⟩

theorem Settled.create {t : Timer C} {a : Nat} {cb : C} {ms now : UInt64} {recurring : Bool}
    (h : Settled t) (ha : t.mem a = none) :
    Settled (t.createTimer a (some cb) ms recurring now).1 :=
  ⟨AtRest.create h.toSetInv ha, fun b => (h.filled b).create nofun⟩

theorem settled_new (now : UInt64) : Settled (new now : Timer C) :=
  ⟨atRest_new now, fun _ => nofun⟩

theorem settled_reachable (t : Timer (Callback F W))
    (hr : ((lts F W).restrict HasCallback).Reachable t) : Settled t := by
  have hind : ((lts F W).restrict HasCallback).Inductive Settled := by
    refine ⟨?_, ?_⟩
    · intro t ht
      obtain ⟨now, rfl⟩ := ht
      exact settled_new now
    · intro t a t' h hst
      obtain ⟨hst, hcb⟩ := hst
      exact ⟨atRest_step h.toSetInv hst, fun b => filled_step (h.filled b) h.toSetInv hcb hst⟩
  exact hind.reachable t hr

/-- The set of a timer between two operations. -/
structure SetLaw (t : Timer C) : Prop where
  nodup : t.m_tasks.Nodup
  ordered : t.m_tasks.Pairwise fun a b => t.next a < t.next b ∨ t.next a = t.next b ∧ a < b
  alloc : ∀ a ∈ t.m_tasks, t.mem a ≠ none
  armed : ∀ a task, t.mem a = some task → (a ∈ t.m_tasks ↔ task.m_cb ≠ none)
  -- `erase(end())` never happens
  cancel_defined : ∀ a, t.mem a ≠ none → t.cancel a ≠ none
  find_armed : ∀ a task, t.mem a = some task → task.m_cb ≠ none → t.find a = some a

theorem Settled.law {t : Timer C} (h : Settled t) : SetLaw t where
  nodup := h.sorted.nodup
  ordered := by
    refine List.Pairwise.imp ?_ h.sorted
    intro a b hlt
    unfold key at hlt
    rw [Prod.Lex.toLex_lt_toLex] at hlt
    rcases hlt with hlt | ⟨heq, hlt⟩
    · exact .inl (UInt64.lt_iff_toNat_lt.mpr hlt)
    · exact .inr ⟨UInt64.toNat_inj.mp heq, hlt⟩
  alloc a ha := (h.alloc a ha).1
  armed a task hmem := (h.mem_iff a).trans (armed_iff hmem)
  cancel_defined a ha := by
    obtain ⟨task, hmem⟩ := Option.ne_none_iff_exists'.mp ha
    rcases cancel_spec h.toSetInv id hmem with ⟨-, he⟩ | ⟨-, -, he⟩
    · rw [he]
      nofun
    · rw [he]
      nofun
  find_armed a task hmem hcb := by
    refine (find_eq h.toSetInv).mpr ⟨rfl, ?_⟩
    exact (h.mem_iff a).mpr ((armed_iff hmem).mpr hcb)

/-- After any run of operations the set is ordered by the current deadlines and
holds exactly the armed tasks. -/
theorem timer_set (t : Timer (Callback F W))
    (hr : ((lts F W).restrict HasCallback).Reachable t) : SetLaw t :=
  (settled_reachable t hr).law

def hasCallbackB (_ : Timer (Callback F W)) : Act F W → Bool
  | .createTimer _ cb _ _ _ => cb.isSome
  | _ => true

theorem hasCallback_of_check (t : Timer (Callback F W)) (a : Act F W)
    (h : hasCallbackB t a = true) : t.HasCallback a := by
  cases a with
  | createTimer a cb ms recurring now => exact Option.isSome_iff_ne_none.mp h
  | _ => trivial

/-- A recurring and a one-shot task that expire together. -/
theorem timer_set_expire : ∃ t, ((lts Nat Nat).restrict HasCallback).Reachable t ∧
    (t.m_tasks = [1] ∧ t.next 1 = 9) ∧ SetLaw t := by
  have hrun : (LTS.execWith step hasCallbackB (new 0 : Timer (Callback Nat Nat))
      [.createTimer 1 (some 0) 10 true 0, .createTimer 2 (some 1) 5 false 0, .reset 1 3 true 1,
        .getExecuteTask 6 (6, 3)]).any
      (fun t => decide (t.m_tasks = [1] ∧ t.next 1 = 9)) = true := by decide
  obtain ⟨t, ht, hb⟩ : ∃ t, ((lts Nat Nat).restrict HasCallback).Reachable t ∧
      decide (t.m_tasks = [1] ∧ t.next 1 = 9) = true :=
    LTS.exists_of_execWith hasCallback_of_check _ ⟨0, rfl⟩ hrun
  exact ⟨t, ht, of_decide_eq_true hb, timer_set t ht⟩

end Ppcode.Timer
