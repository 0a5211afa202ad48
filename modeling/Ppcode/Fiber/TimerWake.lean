import Ppcode.Fiber.TimerSet

/-!
# Timer users and the sleeping poller

The poller asks `getNextExecuteTime` how long it may sleep; a user who arms an
earlier task has to call `onTimerInsertedAtFront`, which wakes it. The critical
sections of `m_mutex` are steps, and so is that call, which comes after the
section. `createTimer` makes its task, and reads the clock for it, before it
takes the lock; `reset` compares the periods before it does. The clock never
goes back.

`Signalled`: since the poller's latest `getNextExecuteTime` the call has been
made, or a thread is about to make it. `Awake` says that this is so whenever a
task is due before the time the poller sleeps to.

* `awake_of_inTime`: `Awake` holds in every run whose steps meet `InTime`:
  `refresh` and the re-arming of `getExecuteTask`, which insert a task without
  a call, do not put it before the time the poller sleeps to.
* `asleep`: `refresh` can do just that. After `reset` has made the period
  shorter, the deadline is still the old one, and a `refresh` moves it forward.
-/
namespace Ppcode.Timer
variable {C : Type} {n : Nat}

/-- Control point of a timer user. -/
inductive UserPc where
  | idle
  /-- `createTimer`: the task at `a` is made (:89), `m_mutex` not yet taken -/
  | insert (a : Nat)
  /-- `reset`: past the early return (:50), `m_mutex` not yet taken -/
  | resetLock (a : Nat) (ms : UInt64) (from_now : Bool)
  /-- `addTimerTask`: `m_mutex` released (:138), `isFront` -/
  | notify
  deriving DecidableEq

/-- The task that a call is on. -/
def UserPc.task : UserPc → Option Nat
  | .insert a | .resetLock a _ _ => some a
  | .idle | .notify => none

/-- Control point of the poller; it calls nothing else between two operations. -/
inductive PollerPc where
  | idle
  /-- `getExecuteTask`: `now_ms` is read (:156) -/
  | check (now_ms : UInt64)
  /-- past the read-locked test (:159) -/
  | expire (now_ms : UInt64)
  deriving DecidableEq

/-- `latest`: when `getNextExecuteTime` was last called, and what it returned;
`notified`: `onTimerInsertedAtFront` was called since. -/
structure Users (C : Type) (n : Nat) where
  t : Timer C
  clock : UInt64
  pc : Fin n → UserPc
  poller : PollerPc
  latest : Option (UInt64 × UInt64)
  notified : Bool

namespace Users

/-- The task at `a` is made but not returned to anybody yet. -/
def InFlight (s : Users C n) (a : Nat) : Prop := ∃ i, s.pc i = .insert a

instance (s : Users C n) (a : Nat) : Decidable (s.InFlight a) :=
  inferInstanceAs (Decidable (∃ i, s.pc i = .insert a))

/-- A thread is in a call on the task at `a`. -/
def InUse (s : Users C n) (a : Nat) : Prop := ∃ i, (s.pc i).task = some a

instance (s : Users C n) (a : Nat) : Decidable (s.InUse a) :=
  inferInstanceAs (Decidable (∃ i, (s.pc i).task = some a))

inductive Act (C : Type) (n : Nat) where
  | tick (now : UInt64)
  | createTimer (i : Fin n) (a : Nat) (cb : Option C) (ms : UInt64) (recurring : Bool)
  | cancel (i : Fin n) (a : Nat)
  | refresh (i : Fin n) (a : Nat)
  | reset (i : Fin n) (a : Nat) (ms : UInt64) (from_now : Bool)
  /-- a user goes on with its call -/
  | go (i : Fin n)
  | getNextExecuteTime
  /-- the poller starts `getExecuteTask`, or goes on with it; `a` is the address of `now_task` -/
  | getExecuteTask (a : Nat)
  /-- the last handle of a task outside the set is dropped -/
  | free (a : Nat)

def at_ (s : Users C n) (i : Fin n) (p : UserPc) : Fin n → UserPc := Function.update s.pc i p

/-- A user's next section, or its call of `onTimerInsertedAtFront`. -/
def goStep (s : Users C n) (i : Fin n) : Option (Users C n) :=
  match s.pc i with
  | .idle => none
  | .insert a =>
    let r := s.t.addTimerTask a
    some { s with t := r.1, pc := s.at_ i (if r.2 then .notify else .idle) }
  | .resetLock a ms from_now => (s.t.resetLocked a ms from_now s.clock).map fun r =>
    { s with t := r.1, pc := s.at_ i (if r.2.2 then .notify else .idle) }
  | .notify => some { s with pc := s.at_ i .idle, notified := true }

/-- The poller's next step in `getExecuteTask`. -/
def pollerStep (s : Users C n) (a : Nat) : Users C n :=
  match s.poller with
  | .idle => { s with poller := .check s.clock }
  | .check now_ms => { s with poller := if s.t.m_tasks = [] then .idle else .expire now_ms }
  | .expire now_ms =>
    { s with t := (s.t.getExecuteTask now_ms (s.clock, a)).1, poller := .idle }

/-- Thread `i` may call an operation on the task at `a`: one that was returned to somebody. -/
def Calls (s : Users C n) (i : Fin n) (a : Nat) : Prop := s.pc i = .idle ∧ ¬ s.InFlight a

instance (s : Users C n) (i : Fin n) (a : Nat) : Decidable (s.Calls i a) :=
  inferInstanceAs (Decidable (_ ∧ _))

def step (s : Users C n) : Act C n → Option (Users C n)
  | .tick now => if s.clock ≤ now then some { s with clock := now } else none
  | .createTimer i a cb ms recurring =>
    if s.pc i = .idle ∧ s.t.mem a = none then
      some { s with
        t := s.t.setTask a (.new cb ms recurring s.clock), pc := s.at_ i (.insert a) }
    else none
  | .cancel i a =>
    if s.Calls i a then (s.t.cancel a).map fun r => { s with t := r.1 } else none
  | .refresh i a =>
    if s.Calls i a then (s.t.refresh a s.clock).map fun r => { s with t := r.1 } else none
  | .reset i a ms from_now =>
    if s.Calls i a then
      (s.t.mem a).map fun task =>
        if ms = task.m_ms ∧ from_now = false then s
        else { s with pc := s.at_ i (.resetLock a ms from_now) }
    else none
  | .go i => s.goStep i
  | .getNextExecuteTime =>
    if s.poller = .idle then
      let r := s.t.getNextExecuteTime s.clock
      some { s with t := r.1, latest := some (s.clock, r.2), notified := false }
    else none
  | .getExecuteTask a => if s.t.mem a = none then some (s.pollerStep a) else none
  | .free a =>
    if a ∈ s.t.m_tasks ∨ s.InUse a then none
    else some { s with t := { s.t with mem := Function.update s.t.mem a none } }

def init (now : UInt64) : Users C n := ⟨new now, now, fun _ => .idle, .idle, none, false⟩

def lts (C : Type) (n : Nat) : LTS (Users C n) (Act C n) :=
  LTS.ofFn (fun s => ∃ now, s = init now) step

/-- `onTimerInsertedAtFront` was called since the latest `getNextExecuteTime`, or
a thread has inserted a task and is about to call it. -/
def Signalled (s : Users C n) : Prop := s.notified = true ∨ ∃ i, s.pc i = .notify

/-- The deadline `next` is before the time the poller sleeps to. -/
def Before : Option (UInt64 × UInt64) → UInt64 → Prop
  | none, _ => False
  | some (c, v), next => v ≠ 0 ∧ (v = ~~~0 ∨ next.toNat < c.toNat + v.toNat)

instance : ∀ latest next, Decidable (Before latest next)
  | none, _ => inferInstanceAs (Decidable False)
  | some (_, _), _ => inferInstanceAs (Decidable (_ ∧ _))

instance (s : Users C n) : Decidable s.Signalled :=
  inferInstanceAs (Decidable (s.notified = true ∨ ∃ i, s.pc i = .notify))

def Awake (s : Users C n) : Prop :=
  (∃ a ∈ s.t.m_tasks, Before s.latest (s.t.next a)) → s.Signalled

/-- A `refresh`, or the re-arming of a recurring task, that puts a task before
the time the poller sleeps to comes after a signal; and `getNextExecuteTime`
does not return `~0` for a task that is due at `~0` (at clock 0). -/
def InTime (s : Users C n) : Act C n → Prop
  | .refresh _ a => ∀ task, s.t.mem a = some task → task.m_cb ≠ none →
    Before s.latest (s.clock + task.m_ms) → s.Signalled
  | .getExecuteTask a => ∀ now_ms, s.poller = .expire now_ms →
    ∀ b ∈ s.t.fired now_ms (s.clock, a), ∀ task, s.t.mem b = some task →
      task.m_recurring = true → Before s.latest (now_ms + task.m_ms) → s.Signalled
  | .getNextExecuteTime => ∀ a ∈ s.t.m_tasks, ¬ (s.clock = 0 ∧ s.t.next a = ~~~0)
  | _ => True

/-! ## The invariant -/

/-- What the calls in progress rely on. -/
structure PcInv (s : Users C n) : Prop where
  -- one thread inserts a task
  unique : ∀ i j a, s.pc i = .insert a → s.pc j = .insert a → i = j
  alloc : ∀ i a, (s.pc i).task = some a → s.t.mem a ≠ none
  locking : ∀ i a ms from_now, s.pc i = .resetLock a ms from_now → ¬ s.InFlight a

structure Inv (s : Users C n) : Prop where
  pcs : s.PcInv
  set : SetInv s.InFlight s.t
  tickled : s.t.m_tickled = true → s.Signalled
  awake : s.Awake

theorem inv_init (now : UInt64) : (init now : Users C n).Inv where
  pcs := ⟨nofun, nofun, nofun⟩
  set := (atRest_new now).congr fun a _ => ⟨False.elim, fun ⟨i, h⟩ => nomatch h⟩
  tickled := nofun
  awake := by
    intro hex
    obtain ⟨a, ha, -⟩ := hex
    cases ha

section Pc
variable {s : Users C n} {i j : Fin n} {a : Nat} {p : UserPc}

theorem at_self : s.at_ i p i = p := Function.update_self ..

theorem at_of_ne (h : j ≠ i) : s.at_ i p j = s.pc j := Function.update_of_ne h _ _

/-- A control point found after thread `i` went to `p` is that of `i`, or was there before. -/
theorem at_eq {q : UserPc} (h : s.at_ i p j = q) : j = i ∧ q = p ∨ j ≠ i ∧ s.pc j = q := by
  by_cases hj : j = i
  · subst hj
    rw [at_self] at h
    exact .inl ⟨rfl, h.symm⟩
  · rw [at_of_ne hj] at h
    exact .inr ⟨hj, h⟩

theorem Signalled.at_ {s' : Users C n} (h : s.Signalled) (hi : s.pc i ≠ .notify)
    (hpc : s'.pc = s.at_ i p) (hn : s'.notified = s.notified) : s'.Signalled := by
  rcases h with h | ⟨j, hj⟩
  · exact .inl (hn.trans h)
  · refine .inr ⟨j, ?_⟩
    rw [hpc, at_of_ne, hj]
    intro heq
    subst heq
    exact hi hj

theorem at_ends (hp : p.task = none) (j : Fin n) :
    s.at_ i p j = s.pc j ∨ (s.at_ i p j).task = none := by
  by_cases hj : j = i
  · subst hj
    rw [at_self]
    exact .inr hp
  · exact .inl (at_of_ne hj)

theorem inFlight_at {b : Nat} (hi : s.pc i ≠ .insert b) :
    (∃ j, s.at_ i p j = .insert b) ↔ s.InFlight b ∨ p = .insert b := by
  constructor
  · intro hex
    obtain ⟨j, hj⟩ := hex
    rcases at_eq hj with ⟨-, he⟩ | ⟨-, he⟩
    · exact .inr he.symm
    · exact .inl ⟨j, he⟩
  · intro hor
    rcases hor with ⟨j, hj⟩ | rfl
    · refine ⟨j, ?_⟩
      rw [at_of_ne, hj]
      intro heq
      subst heq
      exact hi hj
    · exact ⟨i, at_self⟩

/-- Calls that go on or end; none of their tasks is freed. -/
theorem PcInv.of_ends {s' : Users C n} (h : s.PcInv)
    (hpc : ∀ j, s'.pc j = s.pc j ∨ (s'.pc j).task = none)
    (huse : ∀ b, s.InUse b → s'.t.mem b ≠ none) : s'.PcInv := by
  have hold : ∀ {j b q}, s'.pc j = q → q.task = some b → s.pc j = q := by
    intro j b q hj hq
    rcases hpc j with he | he
    · rw [← he, hj]
    · rw [hj, hq] at he
      cases he
  refine ⟨fun j k b hj hk => ?_, fun j b hj => ?_, fun j b ms fn hj hc => ?_⟩
  · exact h.unique j k b (hold hj rfl) (hold hk rfl)
  · refine huse b ⟨j, ?_⟩
    rw [hold rfl hj, hj]
  · obtain ⟨k, hk⟩ := hc
    exact h.locking j b ms fn (hold hj rfl) ⟨k, hold hk rfl⟩

end Pc

/-! ## The time the poller sleeps to -/

theorem Before.mono {latest : Option (UInt64 × UInt64)} {x y : UInt64} (hxy : x ≤ y)
    (h : Before latest y) : Before latest x := by
  rcases latest with - | ⟨c, v⟩
  · exact h
  · refine ⟨h.1, h.2.imp_right fun hlt => ?_⟩
    have hxy := UInt64.le_iff_toNat_le.mp hxy
    omega

/-- Tasks that were in the set before, with the deadlines they had, change nothing. -/
theorem Awake.mono {s s' : Users C n} (h : s.Awake) (hl : s'.latest = s.latest)
    (hsig : s.Signalled → s'.Signalled)
    (hset : ∀ b ∈ s'.t.m_tasks, Before s.latest (s'.t.next b) →
      (b ∈ s.t.m_tasks ∧ s'.t.next b = s.t.next b) ∨ s'.Signalled) : s'.Awake := by
  intro ⟨b, hb, hbefore⟩
  rw [hl] at hbefore
  rcases hset b hb hbefore with ⟨hin, hnext⟩ | hs
  · rw [hnext] at hbefore
    exact hsig (h ⟨b, hin, hbefore⟩)
  · exact hs

/-- `addTimerTask` on a set `u` that holds nothing new: either the task is not the
first one, and an earlier one was there before, or the front is signalled. -/
theorem awake_addTimerTask {s : Users C n} (h : s.Inv) {u : Timer C} {i : Fin n} {a : Nat}
    (hi : s.pc i ≠ .notify) (htick : u.m_tickled = s.t.m_tickled)
    (hold : ∀ b ∈ u.m_tasks, b ∈ s.t.m_tasks ∧ u.next b = s.t.next b) {s' : Users C n}
    (he : s' = { s with t := (u.addTimerTask a).1,
                        pc := s.at_ i (if (u.addTimerTask a).2 then .notify else .idle) }) :
    (s'.t.m_tickled = true → s'.Signalled) ∧ s'.Awake := by
  subst he
  cases hfront : (u.addTimerTask a).2 with
  | true =>
    have hsig : ∀ t : Timer C, Signalled { s with t := t, pc := s.at_ i .notify } :=
      fun _ => .inr ⟨i, at_self⟩
    exact ⟨fun _ => hsig _, fun _ => hsig _⟩
  | false =>
    have hsig : s.Signalled → ∀ t : Timer C, Signalled { s with t := t, pc := s.at_ i .idle } :=
      fun hs t => hs.at_ hi rfl rfl
    simp only [Bool.false_eq_true, if_false]
    have htickled : (u.addTimerTask a).1.m_tickled = s.t.m_tickled := by
      unfold addTimerTask at hfront ⊢
      simp only at hfront ⊢
      rw [hfront, ← htick]
      rfl
    refine ⟨fun ht => hsig (h.tickled (htickled ▸ ht)) _, ?_⟩
    refine h.awake.mono rfl (fun hs => hsig hs _) fun b hb hbefore => ?_
    change b ∈ (u.insert a).m_tasks at hb
    rcases mem_insert.mp hb with rfl | hb
    · right
      refine hsig ?_ _
      -- not at the front, or `m_tickled` was set
      unfold addTimerTask at hfront
      simp only [Bool.and_eq_false_iff, decide_eq_false_iff_not, Bool.not_eq_false'] at hfront
      rcases hfront with hhead | ht
      · rcases OrderedSet.head_insert u.keyOrder b u.m_tasks with hc | ⟨y, hy, -, hlt⟩
        · exact absurd hc hhead
        · have hy := hold y (List.mem_of_mem_head? hy)
          refine h.awake ⟨y, hy.1, Before.mono ?_ hbefore⟩
          unfold key at hlt
          rw [Prod.Lex.toLex_lt_toLex] at hlt
          rw [← hy.2, UInt64.le_iff_toNat_le]
          change (u.next y).toNat ≤ (u.next b).toNat
          omega
      · exact h.tickled (htick ▸ ht)
    · exact .inl (hold b hb)

/-! ## One step -/

section Steps
variable {s : Users C n} {i : Fin n} {a : Nat}

/-- The clock, and what the poller holds, matter to no thread. -/
theorem Inv.frame (h : s.Inv) (clock : UInt64) (poller : PollerPc) :
    Inv { s with clock := clock, poller := poller } :=
  ⟨⟨h.pcs.unique, h.pcs.alloc, h.pcs.locking⟩, h.set, h.tickled, h.awake⟩

theorem PcInv.create (h : s.PcInv) (ha : s.t.mem a = none) {task : TimerTask C} :
    PcInv { s with t := s.t.setTask a task, pc := s.at_ i (.insert a) } := by
  -- no call is on the new address yet
  have hused : ∀ {j b}, (s.pc j).task = some b → b ≠ a := by
    intro j b hj heq
    subst heq
    exact h.alloc j b hj ha
  refine ⟨fun j k b hj hk => ?_, fun j b hj => ?_, fun j b ms fn hj hc => ?_⟩
  · rcases at_eq hj with ⟨hji, he⟩ | ⟨-, hje⟩
    · cases he
      rcases at_eq hk with ⟨hki, -⟩ | ⟨-, hke⟩
      · rw [hji, hki]
      · exact absurd rfl (hused (j := k) (by rw [hke]; rfl))
    · rcases at_eq hk with ⟨-, he⟩ | ⟨-, hke⟩
      · cases he
        exact absurd rfl (hused (j := j) (by rw [hje]; rfl))
      · exact h.unique j k b hje hke
  · change (s.at_ i (.insert a) j).task = some b at hj
    by_cases hji : j = i
    · subst hji
      rw [at_self] at hj
      cases hj
      rw [setTask_mem_self]
      nofun
    · rw [at_of_ne hji] at hj
      rw [setTask_mem (hused hj)]
      exact h.alloc j b hj
  · rcases at_eq hj with ⟨-, he⟩ | ⟨-, hje⟩
    · cases he
    · obtain ⟨k, hk⟩ := hc
      rcases at_eq hk with ⟨-, he⟩ | ⟨-, hke⟩
      · cases he
        exact absurd rfl (hused (j := j) (by rw [hje]; rfl))
      · exact h.locking j b ms fn hje ⟨k, hke⟩

theorem PcInv.reset (h : s.PcInv) (ha : ¬ s.InFlight a) (hmem : s.t.mem a ≠ none) (ms : UInt64)
    (from_now : Bool) : PcInv { s with pc := s.at_ i (.resetLock a ms from_now) } := by
  have hins : ∀ {j b}, s.at_ i (.resetLock a ms from_now) j = .insert b → s.pc j = .insert b := by
    intro j b hj
    rcases at_eq hj with ⟨-, he⟩ | ⟨-, he⟩
    · cases he
    · exact he
  refine ⟨fun j k b hj hk => h.unique j k b (hins hj) (hins hk), fun j b hj => ?_,
    fun j b ms' fn hj hc => ?_⟩
  · change (s.at_ i (.resetLock a ms from_now) j).task = some b at hj
    by_cases hji : j = i
    · subst hji
      rw [at_self] at hj
      cases hj
      exact hmem
    · rw [at_of_ne hji] at hj
      exact h.alloc j b hj
  · obtain ⟨k, hk⟩ := hc
    rcases at_eq hj with ⟨-, he⟩ | ⟨-, hje⟩
    · cases he
      exact ha ⟨k, hins hk⟩
    · exact h.locking j b ms' fn hje ⟨k, hins hk⟩

theorem inv_create (h : s.Inv) (hi : s.pc i = .idle) (ha : s.t.mem a = none) (cb : Option C)
    (ms : UInt64) (recurring : Bool) : Inv { s with
      t := s.t.setTask a (.new cb ms recurring s.clock), pc := s.at_ i (.insert a) } := by
  have hsig : s.Signalled → ∀ t : Timer C, Signalled { s with t := t, pc := s.at_ i (.insert a) } :=
    fun hs t => hs.at_ (by rw [hi]; nofun) rfl rfl
  refine ⟨h.pcs.create ha, ?_, fun ht => hsig (h.tickled ht) _, ?_⟩
  · refine (h.set.fresh ha).congr fun b _ => ?_
    unfold InFlight
    rw [inFlight_at (by rw [hi]; nofun), UserPc.insert.injEq, eq_comm]
    rfl
  · refine h.awake.mono rfl (fun hs => hsig hs _) fun b hb _ => .inl ⟨hb, setTask_next ?_⟩
    intro heq
    subst heq
    exact (h.set.alloc b hb).1 ha

theorem inv_reset (h : s.Inv) (hi : s.pc i = .idle) (ha : ¬ s.InFlight a)
    (hmem : s.t.mem a ≠ none) (ms : UInt64) (from_now : Bool) :
    Inv { s with pc := s.at_ i (.resetLock a ms from_now) } := by
  have hsig : s.Signalled → Signalled { s with pc := s.at_ i (.resetLock a ms from_now) } :=
    fun hs => hs.at_ (by rw [hi]; nofun) rfl rfl
  refine ⟨h.pcs.reset ha hmem ms from_now, h.set.congr fun b _ => ?_,
    fun ht => hsig (h.tickled ht), h.awake.mono rfl hsig fun b hb _ => .inl ⟨hb, rfl⟩⟩
  unfold InFlight
  rw [inFlight_at (by rw [hi]; nofun)]
  exact (or_iff_left nofun).symm

/-- A change of the timer alone, that frees no task in use. -/
theorem Inv.write (h : s.Inv) {t : Timer C} (hset : SetInv s.InFlight t)
    (huse : ∀ b, s.InUse b → t.mem b ≠ none) (htick : t.m_tickled = s.t.m_tickled)
    (hin : ∀ b ∈ t.m_tasks, Before s.latest (t.next b) →
      (b ∈ s.t.m_tasks ∧ t.next b = s.t.next b) ∨ s.Signalled) : Inv { s with t := t } := by
  refine ⟨h.pcs.of_ends (fun _ => .inl rfl) huse, hset, fun ht => ?_, ?_⟩
  · exact h.tickled (htick ▸ ht)
  · exact h.awake.mono rfl id hin

/-- As `Inv.write`, for a change of one task. -/
theorem Inv.writeTask (h : s.Inv) {t : Timer C} {task : TimerTask C}
    (hset : SetInv s.InFlight t) (hmem : t.mem = Function.update s.t.mem a (some task))
    (htick : t.m_tickled = s.t.m_tickled)
    (hin : ∀ b ∈ t.m_tasks, b ≠ a → b ∈ s.t.m_tasks)
    (hnext : a ∈ t.m_tasks → Before s.latest task.m_next →
      (a ∈ s.t.m_tasks ∧ task.m_next = s.t.next a) ∨ s.Signalled) : Inv { s with t := t } := by
  have hne : ∀ b, b ≠ a → t.mem b = s.t.mem b := by
    intro b hab
    rw [hmem, Function.update_of_ne hab]
  have hself : t.mem a = some task := by rw [hmem, Function.update_self]
  refine h.write hset (fun b hb => ?_) htick fun b hb hbefore => ?_
  · by_cases hab : b = a
    · subst hab
      rw [hself]
      nofun
    · obtain ⟨j, hj⟩ := hb
      rw [hne b hab]
      exact h.pcs.alloc j b hj
  · by_cases hab : b = a
    · subst hab
      have hn : t.next b = task.m_next := by
        unfold next
        rw [hself]
        rfl
      rw [hn] at hbefore ⊢
      exact hnext hb hbefore
    · left
      refine ⟨hin b hb hab, ?_⟩
      unfold next
      rw [hne b hab]

theorem inv_cancel (h : s.Inv) (ha : ¬ s.InFlight a) {t : Timer C} {ok : Bool}
    (hop : s.t.cancel a = some (t, ok)) : Inv { s with t := t } := by
  have hset := SetInv.cancel h.set ha hop
  rcases cancel_cases h.set ha hop with rfl | ⟨task, -, -, rfl⟩
  · exact h
  · refine h.writeTask hset rfl rfl (fun b hb _ => ((mem_erase h.set).mp hb).1) ?_
    exact fun hc => absurd rfl ((mem_erase h.set).mp hc).2

theorem inv_refresh (h : s.Inv) (ha : ¬ s.InFlight a) {t : Timer C} {ok : Bool}
    (htime : s.InTime (.refresh i a)) (hop : s.t.refresh a s.clock = some (t, ok)) :
    Inv { s with t := t } := by
  have hset := SetInv.refresh h.set ha hop
  rcases refresh_cases h.set ha hop with ⟨rfl, -⟩ | ⟨task, hmem, hcb, rfl, -⟩
  · exact h
  · exact h.writeTask hset rfl rfl (fun b hb hab => mem_requeue h.set hb hab) fun _ hbefore =>
      .inr (htime task hmem hcb hbefore)

/-- Thread `i` calls `onTimerInsertedAtFront`. -/
theorem inv_notify (h : s.Inv) (hi : s.pc i = .notify) :
    Inv { s with pc := s.at_ i .idle, notified := true } := by
  refine ⟨h.pcs.of_ends (at_ends rfl) (fun b hb => ?_), h.set.congr fun b _ => ?_,
    fun _ => .inl rfl, fun _ => .inl rfl⟩
  · obtain ⟨j, hj⟩ := hb
    exact h.pcs.alloc j b hj
  · unfold InFlight
    rw [inFlight_at (by rw [hi]; nofun)]
    exact (or_iff_left nofun).symm

/-- The control point after the section of `addTimerTask`. -/
theorem task_after (front : Bool) : (if front then UserPc.notify else .idle).task = none := by
  cases front <;> rfl

theorem after_ne_insert (front : Bool) (b : Nat) :
    (if front then UserPc.notify else .idle) ≠ .insert b := by
  cases front <;> nofun

/-- `createTimer` puts its task into the set. -/
theorem inv_insert (h : s.Inv) (hi : s.pc i = .insert a) :
    Inv { s with t := (s.t.addTimerTask a).1,
                 pc := s.at_ i (if (s.t.addTimerTask a).2 then .notify else .idle) } := by
  obtain ⟨htick, hawake⟩ := awake_addTimerTask h (i := i) (a := a) (by rw [hi]; nofun) rfl
    (fun b hb => ⟨hb, rfl⟩) rfl
  refine ⟨h.pcs.of_ends (at_ends (task_after _)) (fun b hb => ?_), ?_, htick, hawake⟩
  · obtain ⟨j, hj⟩ := hb
    exact h.pcs.alloc j b hj
  · refine (h.set.addTimerTask (h.pcs.alloc i a (by rw [hi]; rfl))).congr fun b _ => ?_
    constructor
    · intro hex
      obtain ⟨⟨j, hj⟩, hab⟩ := hex
      refine ⟨j, ?_⟩
      change s.at_ i _ j = _
      rw [at_of_ne, hj]
      intro heq
      subst heq
      rw [hi] at hj
      cases hj
      exact hab rfl
    · intro hex
      obtain ⟨j, hj⟩ := hex
      rcases at_eq hj with ⟨-, he⟩ | ⟨hji, he⟩
      · exact absurd he.symm (after_ne_insert _ b)
      · refine ⟨⟨j, he⟩, ?_⟩
        intro heq
        subst heq
        exact hji (h.pcs.unique j i b he hi)

/-- `reset` ends its section, having written to its own task at most. -/
theorem inv_unlock (h : s.Inv) {ms : UInt64} {from_now : Bool}
    (hi : s.pc i = .resetLock a ms from_now) {t : Timer C} {front : Bool}
    (hset : SetInv s.InFlight t) (hmem : ∀ b, b ≠ a → t.mem b = s.t.mem b) (hself : t.mem a ≠ none)
    {s' : Users C n} (he : s' = { s with t := t, pc := s.at_ i (if front then .notify else .idle) })
    (hawake : (s'.t.m_tickled = true → s'.Signalled) ∧ s'.Awake) : s'.Inv := by
  subst he
  refine ⟨h.pcs.of_ends (at_ends (task_after front)) (fun b hb => ?_),
    hset.congr fun b _ => ?_, hawake.1, hawake.2⟩
  · by_cases hab : b = a
    · subst hab
      exact hself
    · obtain ⟨j, hj⟩ := hb
      rw [hmem b hab]
      exact h.pcs.alloc j b hj
  · unfold InFlight
    rw [inFlight_at (by rw [hi]; nofun)]
    exact (or_iff_left (after_ne_insert front b)).symm

/-- The section of `reset`. -/
theorem inv_resetLocked (h : s.Inv) {ms : UInt64} {from_now : Bool}
    (hi : s.pc i = .resetLock a ms from_now) {t : Timer C} {ok front : Bool}
    (hop : s.t.resetLocked a ms from_now s.clock = some (t, ok, front)) :
    Inv { s with t := t, pc := s.at_ i (if front then .notify else .idle) } := by
  have ha := h.pcs.locking i a ms from_now hi
  have hset := SetInv.resetLocked h.set ha hop
  have hnot : s.pc i ≠ .notify := by
    rw [hi]
    nofun
  rcases resetLocked_cases h.set ha hop with
    ⟨rfl, -, rfl⟩ | ⟨task, u, -, -, -, hu, rfl, -, rfl⟩
  · have hsig : s.Signalled → Signalled { s with pc := s.at_ i .idle } :=
      fun hs => hs.at_ hnot rfl rfl
    have hmem := h.pcs.alloc i a (by rw [hi]; rfl)
    refine inv_unlock h hi h.set (fun _ _ => rfl) hmem rfl ?_
    exact ⟨fun ht => hsig (h.tickled ht), h.awake.mono rfl hsig fun b hb _ => .inl ⟨hb, rfl⟩⟩
  · have hself : u.mem a ≠ none := by
      rw [hu, setTask_mem_self]
      nofun
    refine inv_unlock h hi hset (fun b hab => ?_) hself rfl
      (awake_addTimerTask h hnot (by rw [hu]; rfl) (fun b hb => ?_) rfl)
    · rw [addTimerTask_mem, hu]
      exact setTask_mem hab
    · have hin : b ∈ s.t.m_tasks ∧ b ≠ a := (mem_erase h.set).mp (by rw [hu] at hb; exact hb)
      rw [hu]
      exact ⟨hin.1, setTask_next hin.2⟩

/-- No task is due before the time that `getNextExecuteTime` returns. -/
theorem not_before_next {t : Timer C} {flight : Nat → Prop} (hset : SetInv flight t) {c : UInt64}
    (hcorner : ∀ a ∈ t.m_tasks, ¬ (c = 0 ∧ t.next a = ~~~0)) (b : Nat) (hb : b ∈ t.m_tasks) :
    ¬ Before (some (c, (t.getNextExecuteTime c).2)) (t.next b) := by
  intro hex
  obtain ⟨hv, hbefore⟩ := hex
  unfold getNextExecuteTime at hv hbefore
  cases hhead : t.m_tasks.head? with
  | none =>
    rw [List.head?_eq_none_iff.mp hhead] at hb
    cases hb
  | some y =>
    have hle : t.next y ≤ t.next b := by
      have hle := hset.sorted.head_le hhead hb
      unfold key at hle
      rw [Prod.Lex.toLex_le_toLex] at hle
      rw [UInt64.le_iff_toNat_le]
      omega
    simp only [hhead] at hv hbefore
    change (if c ≥ t.next y then 0 else t.next y - c) ≠ 0 at hv
    change (if c ≥ t.next y then 0 else t.next y - c) = _ ∨
      _ < c.toNat + (if c ≥ t.next y then (0 : UInt64) else t.next y - c).toNat at hbefore
    split at hv
    · exact hv rfl
    · rename_i hlt
      rw [if_neg hlt] at hbefore
      rw [ge_iff_le, UInt64.le_iff_toNat_le] at hlt
      rw [UInt64.le_iff_toNat_le] at hle
      have hsub : (t.next y - c).toNat = (t.next y).toNat - c.toNat := by
        rw [UInt64.toNat_sub_of_le]
        rw [UInt64.le_iff_toNat_le]
        omega
      rcases hbefore with he | hbefore
      · have he := congrArg UInt64.toNat he
        have hmax : (~~~0 : UInt64).toNat = 2 ^ 64 - 1 := rfl
        have hy := (t.next y).toNat_lt
        refine hcorner y (List.mem_of_mem_head? hhead) ⟨?_, ?_⟩
        · refine UInt64.toNat_inj.mp ?_
          change _ = 0
          omega
        · refine UInt64.toNat_inj.mp ?_
          omega
      · omega

theorem inv_getNextExecuteTime (h : s.Inv) (htime : s.InTime .getNextExecuteTime) :
    Inv { s with
      t := (s.t.getNextExecuteTime s.clock).1
      latest := some (s.clock, (s.t.getNextExecuteTime s.clock).2)
      notified := false } := by
  have hfst : (s.t.getNextExecuteTime s.clock).1 = { s.t with m_tickled := false } := by
    unfold getNextExecuteTime
    simp only
    split <;> rfl
  rw [hfst]
  refine ⟨⟨h.pcs.unique, h.pcs.alloc, h.pcs.locking⟩,
    h.set.frame false s.t.m_previouseTime, nofun, ?_⟩
  intro hex
  obtain ⟨b, hb, hbefore⟩ := hex
  exact absurd hbefore (not_before_next h.set htime b hb)

/-- Members of the set after `getExecuteTask` are those that have not fired, and
recurring ones that have. -/
theorem inv_expire (h : s.Inv) (htime : s.InTime (.getExecuteTask a)) {now_ms : UInt64}
    (hp : s.poller = .expire now_ms) :
    Inv { s with t := (s.t.getExecuteTask now_ms (s.clock, a)).1, poller := .idle } := by
  have hmem : ∀ b, (s.t.getExecuteTask now_ms (s.clock, a)).1.mem b =
      if b ∈ s.t.fired now_ms (s.clock, a) then (s.t.mem b).map (afterExpire now_ms)
      else s.t.mem b := getExecuteTask_mem h.set
  refine (h.write h.set.getExecuteTask (fun b hb => ?_) ?_ fun b hb hbefore => ?_).frame s.clock .idle
  · obtain ⟨j, hj⟩ := hb
    have hne := h.pcs.alloc j b hj
    rw [hmem]
    split
    · rwa [ne_eq, Option.map_eq_none_iff]
    · exact hne
  · exact getExecuteTask_tickled
  · obtain ⟨hin, hrec⟩ := (mem_getExecuteTask h.set).mp hb
    unfold next at hbefore ⊢
    rw [hmem] at hbefore ⊢
    by_cases hf : b ∈ s.t.fired now_ms (s.clock, a)
    · right
      have hrec := hrec hf
      obtain ⟨task, htask⟩ := Option.ne_none_iff_exists'.mp (h.set.alloc b hin).1
      rw [htask, Option.any_some] at hrec
      rw [if_pos hf, htask, Option.map_some, afterExpire, if_pos hrec] at hbefore
      exact htime now_ms hp b hf task htask hrec hbefore
    · rw [if_neg hf]
      exact .inl ⟨hin, rfl⟩

theorem inv_free (h : s.Inv) (ha : a ∉ s.t.m_tasks) (hu : ¬ s.InUse a) :
    Inv { s with t := { s.t with mem := Function.update s.t.mem a none } } := by
  have hmem : ∀ {b}, b ≠ a → Function.update s.t.mem a none b = s.t.mem b :=
    fun hab => Function.update_of_ne hab _ _
  have huse : ∀ {b}, s.InUse b → b ≠ a := by
    intro b hb heq
    subst heq
    exact hu hb
  refine h.write (h.set.free ha) (fun b hb => ?_) rfl fun b hb _ => .inl ⟨hb, ?_⟩
  · obtain ⟨j, hj⟩ := hb
    exact fun hc => h.pcs.alloc j b hj ((hmem (huse ⟨j, hj⟩)).symm.trans hc)
  · have hab : b ≠ a := by
      intro heq
      subst heq
      exact ha hb
    exact congrArg (fun o => o.elim 0 TimerTask.m_next) (hmem hab)

theorem inv_go {s' : Users C n} (h : s.Inv) (hst : s.goStep i = some s') : s'.Inv := by
  unfold goStep at hst
  cases hi : s.pc i with
  | idle =>
    simp only [hi] at hst
    cases hst
  | insert a =>
    simp only [hi] at hst
    cases hst
    exact inv_insert h hi
  | resetLock a ms from_now =>
    simp only [hi] at hst
    obtain ⟨⟨t, ok, front⟩, hop, rfl⟩ := Option.map_eq_some_iff.mp hst
    exact inv_resetLocked h hi hop
  | notify =>
    simp only [hi] at hst
    cases hst
    exact inv_notify h hi

theorem inv_pollerStep (h : s.Inv) (htime : s.InTime (.getExecuteTask a)) :
    (s.pollerStep a).Inv := by
  unfold pollerStep
  cases hp : s.poller with
  | idle => exact h.frame s.clock _
  | check now_ms => exact h.frame s.clock _
  | expire now_ms => exact inv_expire h htime hp

theorem inv_step {s' : Users C n} {l : Act C n} (h : s.Inv) (htime : s.InTime l)
    (hst : s.step l = some s') : s'.Inv := by
  cases l with
  | tick now =>
    simp only [step, Option.ite_none_right_eq_some, Option.some.injEq] at hst
    obtain ⟨-, rfl⟩ := hst
    exact h.frame now s.poller
  | createTimer i a cb ms recurring =>
    simp only [step, Option.ite_none_right_eq_some, Option.some.injEq] at hst
    obtain ⟨⟨hi, ha⟩, rfl⟩ := hst
    exact inv_create h hi ha cb ms recurring
  | cancel i a =>
    simp only [step, Option.ite_none_right_eq_some] at hst
    obtain ⟨hc, hst⟩ := hst
    obtain ⟨⟨t, ok⟩, hop, rfl⟩ := Option.map_eq_some_iff.mp hst
    exact inv_cancel h hc.2 hop
  | refresh i a =>
    simp only [step, Option.ite_none_right_eq_some] at hst
    obtain ⟨hc, hst⟩ := hst
    obtain ⟨⟨t, ok⟩, hop, rfl⟩ := Option.map_eq_some_iff.mp hst
    exact inv_refresh h hc.2 htime hop
  | reset i a ms from_now =>
    simp only [step, Option.ite_none_right_eq_some] at hst
    obtain ⟨hc, hst⟩ := hst
    obtain ⟨task, hmem, rfl⟩ := Option.map_eq_some_iff.mp hst
    split
    · exact h
    · exact inv_reset h hc.1 hc.2 (by rw [hmem]; nofun) ms from_now
  | go i => exact inv_go h hst
  | getNextExecuteTime =>
    simp only [step, Option.ite_none_right_eq_some, Option.some.injEq] at hst
    obtain ⟨-, rfl⟩ := hst
    exact inv_getNextExecuteTime h htime
  | getExecuteTask a =>
    simp only [step, Option.ite_none_right_eq_some, Option.some.injEq] at hst
    obtain ⟨-, rfl⟩ := hst
    exact inv_pollerStep h htime
  | free a =>
    simp only [step, Option.ite_none_left_eq_some, Option.some.injEq, not_or] at hst
    obtain ⟨⟨ha, hu⟩, rfl⟩ := hst
    exact inv_free h ha hu

end Steps

/-! ## Runs -/

/-- In a run in which no task is put before the poller's time behind its back, a
poller that sleeps past a deadline has been called, or is about to be. -/
theorem awake_of_inTime (s : Users C n) (hr : ((lts C n).restrict InTime).Reachable s) :
    s.Awake := by
  have hind : ((lts C n).restrict InTime).Inductive Inv := by
    refine ⟨?_, ?_⟩
    · intro s hs
      obtain ⟨now, rfl⟩ := hs
      exact inv_init now
    · intro s l s' h hst
      exact inv_step h hst.2 hst.1
  exact (hind.reachable s hr).awake

/-- A task due at 10000 is reset to a period of 100, which leaves it where it is.
The poller then goes to sleep for 10000, and a refresh at 5 makes the task due at 105. -/
theorem asleep : ∃ s, (lts Nat 1).Reachable s ∧ ¬ s.Awake := by
  have hrun : (LTS.exec step (init 0 : Users Nat 1)
      [.createTimer 0 1 (some 0) 10000 false, .go 0, .go 0, .reset 0 1 100 false, .go 0,
        .getNextExecuteTime, .tick 5, .refresh 0 1]).any
      (fun s => decide (s.t.m_tasks = [1] ∧ Before s.latest (s.t.next 1) ∧ ¬ s.Signalled)) = true := by
    decide
  obtain ⟨s, hs, hb⟩ : ∃ s, (lts Nat 1).Reachable s ∧ decide
      (s.t.m_tasks = [1] ∧ Before s.latest (s.t.next 1) ∧ ¬ s.Signalled) = true :=
    LTS.exists_of_exec _ ⟨0, rfl⟩ hrun
  obtain ⟨hin, hbefore, hnot⟩ := of_decide_eq_true hb
  refine ⟨s, hs, fun h => hnot (h ⟨1, ?_, hbefore⟩)⟩
  rw [hin]
  exact List.mem_singleton_self 1

/-- A check of `InTime`. -/
def inTimeB (s : Users C n) : Act C n → Bool
  | .refresh _ a => (s.t.mem a).all fun task =>
    task.m_cb.isNone || !decide (Before s.latest (s.clock + task.m_ms)) || decide s.Signalled
  | .getExecuteTask a =>
    match s.poller with
    | .expire now_ms => (s.t.fired now_ms (s.clock, a)).all fun b => (s.t.mem b).all fun task =>
      !task.m_recurring || !decide (Before s.latest (now_ms + task.m_ms)) || decide s.Signalled
    | _ => true
  | .getNextExecuteTime => s.t.m_tasks.all fun a => !decide (s.clock = 0 ∧ s.t.next a = ~~~0)
  | _ => true

theorem inTime_of_check (s : Users C n) (l : Act C n) (h : inTimeB s l = true) : s.InTime l := by
  cases l with
  | refresh i a =>
    intro task hmem hcb hbefore
    simp only [inTimeB, hmem, Option.all_some, Bool.or_eq_true, Option.isNone_iff_eq_none,
      Bool.not_eq_true', decide_eq_false_iff_not, decide_eq_true_eq] at h
    exact h.resolve_left fun hc => hc.elim hcb fun hc => hc hbefore
  | getExecuteTask a =>
    intro now_ms hp b hb task hmem hrec hbefore
    simp only [inTimeB, hp, List.all_eq_true] at h
    have h := h b hb
    simp only [hmem, Option.all_some, hrec, Bool.not_true, Bool.false_or, Bool.or_eq_true,
      Bool.not_eq_true', decide_eq_false_iff_not, decide_eq_true_eq] at h
    exact h.resolve_left fun hc => hc hbefore
  | getNextExecuteTime =>
    intro a ha
    simp only [inTimeB, List.all_eq_true, Bool.not_eq_true', decide_eq_false_iff_not] at h
    exact h a ha
  | _ => trivial

/-- A recurring task fires; then an earlier one is put into the set, and its thread
has not called yet. -/
theorem awake_of_inTime_insert : ∃ s, ((lts Nat 2).restrict InTime).Reachable s ∧
    (s.t.m_tasks = [2, 1] ∧ Before s.latest (s.t.next 2) ∧ s.notified = false) ∧ s.Awake := by
  have hrun : (LTS.execWith step inTimeB (init 0 : Users Nat 2)
      [.createTimer 0 1 (some 0) 10 true, .go 0, .go 0, .getNextExecuteTime, .tick 10,
        .getExecuteTask 3, .getExecuteTask 3, .getExecuteTask 3, .getNextExecuteTime,
        .createTimer 1 2 (some 0) 5 false, .go 1, .refresh 0 1]).any
      (fun s => decide (s.t.m_tasks = [2, 1] ∧ Before s.latest (s.t.next 2) ∧
        s.notified = false)) = true := by decide
  obtain ⟨s, hs, hb⟩ : ∃ s, ((lts Nat 2).restrict InTime).Reachable s ∧ decide
      (s.t.m_tasks = [2, 1] ∧ Before s.latest (s.t.next 2) ∧ s.notified = false) = true :=
    LTS.exists_of_execWith inTime_of_check _ ⟨0, rfl⟩ hrun
  exact ⟨s, hs, of_decide_eq_true hb, awake_of_inTime s hs⟩

end Users
end Ppcode.Timer
