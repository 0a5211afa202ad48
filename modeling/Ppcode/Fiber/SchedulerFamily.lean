import Mathlib.Data.List.FinRange
import Ppcode.Fiber.Scheduler

/-!
# Several `Scheduler`s and the one `id` of `addFiber`

`src/fiber/scheduler.cc`: `Scheduler::getScheduler`, the singleton of
`src/fiber/coroutines.h` and the users' own objects may all be started in one process,
and the `static size_t id` of `addFiber` is one for all of them. It is taken modulo the
number of processers of the `Scheduler` that moved it last.

Here a family of `Scheduler`s gets a sequence of calls of `addFiber`; the states that a call
finds the processers in come with the call.

* `robin_right`: a loop that starts in range stays there, and comes to a processer that is not
  blocked if there is one.
* `picks_iff`: all calls pick a processer as they should exactly when each that gets to the
  loop finds `id` in range; every sequence of calls does exactly when all `Scheduler`s have
  the same number of processers.
* `addFiber_alone`: a thread of one `Scheduler` (`Scheduler.lean`), undisturbed, does what a call
  does here.
* `two_sizes`: a `Scheduler` with two processers and one with one.
-/
namespace Ppcode.Scheduler

section Family
variable {S : Type}

/-- A processer of one of the `Scheduler`s, of which `s` has `n s`. -/
abbrev FamilyProc (n : S → Nat) := Σ s, Fin (n s)

/-- A call of `addFiber` of the `Scheduler` `sched`. `m_proc` is the processer of the fiber,
which may be that of another `Scheduler`. None of the `Scheduler`s is stopping. -/
structure FamilyCall (n : S → Nat) where
  sched : S
  m_proc : Option (FamilyProc n)
  state : FamilyProc n → TaskState
  live : ∀ p, state p ≠ .stop ∧ state p ≠ .done

/-- The indices used on `m_processers`, the processers that got the fiber, and `id`
afterwards. -/
structure Outcome (n : S → Nat) where
  used : List Nat
  handed : List (FamilyProc n)
  id : Nat

variable {n : S → Nat}

namespace FamilyCall

/-- `Processer::addFiber`, where one that is stopped does not take the fiber.
mirrors src/fiber/processer.cc:58-81 -/
def give (c : FamilyCall n) (p : FamilyProc n) : List (FamilyProc n) :=
  if c.state p = .stop ∨ c.state p = .done then [] else [p]

/-- The loop, with `rounds` to go, and the call after it. An index out of range is used, and
nothing is known of what follows.
mirrors src/fiber/scheduler.cc:79-98 -/
def robin (c : FamilyCall n) : Nat → Nat → Outcome n
  | rounds, id =>
    if h : id < n c.sched then
      match rounds with
      | 0 => ⟨[id], c.give ⟨c.sched, id, h⟩, (id + 1) % n c.sched⟩
      | rounds + 1 =>
        if c.state ⟨c.sched, id, h⟩ = .block then
          let rest := robin c rounds ((id + 1) % n c.sched)
          { rest with used := id :: rest.used }
        else ⟨[id], c.give ⟨c.sched, id, h⟩, (id + 1) % n c.sched⟩
    else ⟨[id], [], id⟩

/-- mirrors src/fiber/scheduler.cc:60-99 -/
def addFiber (c : FamilyCall n) (id : Nat) : Outcome n :=
  match c.m_proc.filter fun p => decide (c.state p = .running) with
  | some proc => ⟨[], c.give proc, id⟩
  | none =>
    match (List.finRange (n c.sched)).find? fun i => decide (c.state ⟨c.sched, i⟩ = .idle) with
    | some i => ⟨[], c.give ⟨c.sched, i⟩, id⟩
    | none => c.robin (n c.sched) id

/-- The call uses indices in range and hands the fiber to one processer, which is not blocked
unless all processers of its `Scheduler` are. -/
def Picks (c : FamilyCall n) (o : Outcome n) : Prop :=
  (∀ i ∈ o.used, i < n c.sched) ∧
  ∃ p, o.handed = [p] ∧ (c.state p = .block → ∀ i, c.state ⟨p.1, i⟩ = .block)

/-- The processer of the fiber runs, or a processer waits, or `id` is in range. -/
def Meets (c : FamilyCall n) (id : Nat) : Prop :=
  (∃ p, c.m_proc = some p ∧ c.state p = .running) ∨
  (∃ i, c.state ⟨c.sched, i⟩ = .idle) ∨ id < n c.sched

end FamilyCall

open FamilyCall

/-- Each call of a sequence picks a processer as it should; `id` is what the first one finds. -/
def AllPick : Nat → List (FamilyCall n) → Prop
  | _, [] => True
  | id, c :: cs => c.Picks (c.addFiber id) ∧ AllPick (c.addFiber id).id cs

/-- Each call of a sequence meets the condition, in the state that it finds. -/
def AllMeet : Nat → List (FamilyCall n) → Prop
  | _, [] => True
  | id, c :: cs => c.Meets id ∧ AllMeet (c.addFiber id).id cs

/-! ## The loop -/

theorem give_live (c : FamilyCall n) (p : FamilyProc n) : c.give p = [p] := by
  obtain ⟨hstop, hdone⟩ := c.live p
  rw [give, if_neg (by simp [hstop, hdone])]

/-- The index that comes `j` rounds later, one round on. -/
theorem mod_succ (m id j : Nat) : ((id + 1) % m + j) % m = (id + (j + 1)) % m := by
  rw [Nat.mod_add_mod]
  congr 1
  omega

/-- A loop that starts in range stays there. It hands the fiber to one processer of the
`Scheduler`; if all that it does not look at are blocked and this one is, all are. -/
theorem robin_right (c : FamilyCall n) (rounds id : Nat) (hid : id < n c.sched)
    (hrest : ∀ i : Fin (n c.sched), (∀ j < rounds, (id + j) % n c.sched ≠ i) →
      c.state ⟨c.sched, i⟩ = .block) :
    c.Picks (c.robin rounds id) ∧ (c.robin rounds id).id < n c.sched := by
  have hpos : 0 < n c.sched := by omega
  induction rounds generalizing id with
  | zero =>
    rw [robin, dif_pos hid]
    refine ⟨⟨by simpa using hid, _, give_live c _, fun _ i => ?_⟩, Nat.mod_lt _ hpos⟩
    exact hrest i nofun
  | succ rounds ih =>
    rw [robin, dif_pos hid]
    by_cases hblock : c.state ⟨c.sched, id, hid⟩ = .block
    · simp only [hblock, if_true]
      have hnext := ih ((id + 1) % n c.sched) (Nat.mod_lt _ hpos) fun i hi => ?_
      · obtain ⟨⟨hused, p, hp, hall⟩, hlt⟩ := hnext
        exact ⟨⟨List.forall_mem_cons.mpr ⟨hid, hused⟩, p, hp, hall⟩, hlt⟩
      · by_cases hi' : i = ⟨id, hid⟩
        · rw [hi']
          exact hblock
        · refine hrest i fun j hj => ?_
          cases j with
          | zero =>
            rw [Nat.add_zero, Nat.mod_eq_of_lt hid]
            exact fun heq => hi' (Fin.ext heq.symm)
          | succ j =>
            rw [← mod_succ]
            exact hi j (by omega)
    · simp only [hblock, if_false]
      exact ⟨⟨by simpa using hid, _, give_live c _, fun h => absurd h hblock⟩, Nat.mod_lt _ hpos⟩

/-- As many rounds as there are processers come to each of them. -/
theorem robin_all {m id i : Nat} (hid : id < m) (hi : i < m) : ∃ j < m, (id + j) % m = i := by
  by_cases hle : id ≤ i
  · refine ⟨i - id, by omega, ?_⟩
    rw [Nat.add_sub_cancel' hle, Nat.mod_eq_of_lt hi]
  · refine ⟨m + i - id, by omega, ?_⟩
    have heq : id + (m + i - id) = i + m := by omega
    rw [heq, Nat.add_mod_right, Nat.mod_eq_of_lt hi]

/-- A loop that finds the first processer not blocked moves `id` by one. -/
theorem robin_id (c : FamilyCall n) (rounds : Nat) {id : Nat} (hid : id < n c.sched)
    (hrun : c.state ⟨c.sched, id, hid⟩ ≠ .block) :
    (c.robin rounds id).id = (id + 1) % n c.sched := by
  cases rounds with
  | zero => rw [robin, dif_pos hid]
  | succ rounds => rw [robin, dif_pos hid]; simp only [hrun, if_false]

/-! ## One call -/

/-- A call that gives the fiber back to its processer. -/
theorem addFiber_running (c : FamilyCall n) (id : Nat) {p : FamilyProc n}
    (hproc : c.m_proc = some p) (hrun : c.state p = .running) :
    c.addFiber id = ⟨[], [p], id⟩ := by
  have hfilter : c.m_proc.filter (fun p => decide (c.state p = .running)) = some p := by
    rw [hproc, Option.filter_some, if_pos (decide_eq_true hrun)]
  rw [addFiber, hfilter, ← give_live c p]

theorem addFiber_scan (c : FamilyCall n) (id : Nat)
    (hproc : ∀ p, c.m_proc = some p → c.state p ≠ .running) :
    c.addFiber id =
      match (List.finRange (n c.sched)).find? fun i => decide (c.state ⟨c.sched, i⟩ = .idle) with
      | some i => ⟨[], c.give ⟨c.sched, i⟩, id⟩
      | none => c.robin (n c.sched) id := by
  have hfilter : c.m_proc.filter (fun p => decide (c.state p = .running)) = none := by
    cases hp : c.m_proc with
    | none => rfl
    | some p => rw [Option.filter_some, if_neg (by simpa using hproc p hp)]
  rw [addFiber, hfilter]

/-- A call that finds a processer waiting. -/
theorem addFiber_idle (c : FamilyCall n) (id : Nat)
    (hproc : ∀ p, c.m_proc = some p → c.state p ≠ .running)
    (hidle : ∃ i, c.state ⟨c.sched, i⟩ = .idle) :
    ∃ i, c.state ⟨c.sched, i⟩ = .idle ∧ c.addFiber id = ⟨[], [⟨c.sched, i⟩], id⟩ := by
  have hfound : ((List.finRange (n c.sched)).find?
      fun i => decide (c.state ⟨c.sched, i⟩ = .idle)).isSome = true := by
    rw [List.find?_isSome]
    obtain ⟨i, hi⟩ := hidle
    exact ⟨i, List.mem_finRange i, decide_eq_true hi⟩
  obtain ⟨i, hi⟩ := Option.isSome_iff_exists.mp hfound
  have hwaits := List.find?_some hi
  refine ⟨i, of_decide_eq_true hwaits, ?_⟩
  rw [addFiber_scan c id hproc, hi]
  simp only [give_live]

/-- A call that gets to the loop. -/
theorem addFiber_robin (c : FamilyCall n) (id : Nat)
    (hproc : ∀ p, c.m_proc = some p → c.state p ≠ .running)
    (hidle : ∀ i, c.state ⟨c.sched, i⟩ ≠ .idle) :
    c.addFiber id = c.robin (n c.sched) id := by
  have hnone : (List.finRange (n c.sched)).find?
      (fun i => decide (c.state ⟨c.sched, i⟩ = .idle)) = none :=
    List.find?_eq_none.mpr fun i _ => by simpa using hidle i
  rw [addFiber_scan c id hproc, hnone]

/-- The three ways of a call. -/
theorem addFiber_cases (c : FamilyCall n) (id : Nat) :
    (∃ p, c.m_proc = some p ∧ c.state p = .running ∧ c.addFiber id = ⟨[], [p], id⟩) ∨
    (∃ i, c.state ⟨c.sched, i⟩ = .idle ∧ c.addFiber id = ⟨[], [⟨c.sched, i⟩], id⟩) ∨
    ((∀ p, c.m_proc = some p → c.state p ≠ .running) ∧
      (∀ i, c.state ⟨c.sched, i⟩ ≠ .idle) ∧ c.addFiber id = c.robin (n c.sched) id) := by
  by_cases hrun : ∃ p, c.m_proc = some p ∧ c.state p = .running
  · obtain ⟨p, hp, hrun⟩ := hrun
    exact .inl ⟨p, hp, hrun, addFiber_running c id hp hrun⟩
  · have hproc : ∀ p, c.m_proc = some p → c.state p ≠ .running :=
      fun p hp hr => hrun ⟨p, hp, hr⟩
    by_cases hidle : ∃ i, c.state ⟨c.sched, i⟩ = .idle
    · exact .inr (.inl (addFiber_idle c id hproc hidle))
    · have hno : ∀ i, c.state ⟨c.sched, i⟩ ≠ .idle := fun i hi => hidle ⟨i, hi⟩
      exact .inr (.inr ⟨hproc, hno, addFiber_robin c id hproc hno⟩)

theorem robin_picks (c : FamilyCall n) {id : Nat} (hid : id < n c.sched) :
    c.Picks (c.robin (n c.sched) id) ∧ (c.robin (n c.sched) id).id < n c.sched := by
  refine robin_right c (n c.sched) id hid fun i hi => ?_
  obtain ⟨j, hj, heq⟩ := robin_all hid i.isLt
  exact absurd heq (hi j hj)

/-- A call picks a processer as it should exactly when it meets the condition. -/
theorem picks_call (c : FamilyCall n) (id : Nat) : c.Picks (c.addFiber id) ↔ c.Meets id := by
  rcases addFiber_cases c id with hrun | hidle | hrobin
  · obtain ⟨p, hp, hrun, heq⟩ := hrun
    rw [heq]
    refine iff_of_true ⟨nofun, p, rfl, fun hblock => ?_⟩ (.inl ⟨p, hp, hrun⟩)
    rw [hrun] at hblock
    cases hblock
  · obtain ⟨i, hi, heq⟩ := hidle
    rw [heq]
    refine iff_of_true ⟨nofun, _, rfl, fun hblock => ?_⟩ (.inr (.inl ⟨i, hi⟩))
    rw [hi] at hblock
    cases hblock
  · obtain ⟨hproc, hno, heq⟩ := hrobin
    rw [heq]
    constructor
    · intro hpicks
      right; right
      by_contra hid
      have hused := hpicks.1 id
      rw [robin, dif_neg hid] at hused
      exact hid (hused List.mem_cons_self)
    · intro hmeets
      rcases hmeets with hrun | hidle | hid
      · obtain ⟨p, hp, hrun⟩ := hrun
        exact absurd hrun (hproc p hp)
      · obtain ⟨i, hi⟩ := hidle
        exact absurd hi (hno i)
      · exact (robin_picks c hid).1

/-- A call leaves `id` as it was, or in the range of its `Scheduler`. -/
theorem addFiber_id (c : FamilyCall n) (id : Nat) (h : c.Meets id) :
    (c.addFiber id).id = id ∨ (c.addFiber id).id < n c.sched := by
  rcases addFiber_cases c id with hrun | hidle | hrobin
  · obtain ⟨p, -, -, heq⟩ := hrun
    exact .inl (by rw [heq])
  · obtain ⟨i, -, heq⟩ := hidle
    exact .inl (by rw [heq])
  · obtain ⟨hproc, hno, heq⟩ := hrobin
    rw [heq]
    rcases h with hrun | hidle | hid
    · obtain ⟨p, hp, hrun⟩ := hrun
      exact absurd hrun (hproc p hp)
    · obtain ⟨i, hi⟩ := hidle
      exact absurd hi (hno i)
    · exact .inr (robin_picks c hid).2

/-! ## Sequences of calls -/

theorem allPick_iff (id : Nat) (calls : List (FamilyCall n)) :
    AllPick id calls ↔ AllMeet id calls := by
  induction calls generalizing id with
  | nil => exact Iff.rfl
  | cons c calls ih => rw [AllPick, AllMeet, picks_call, ih]

/-- With one number of processers `id` is always in range. -/
theorem allMeet_of_same {m : Nat} (hsame : ∀ s, n s = m) {id : Nat} (hid : id < m)
    (calls : List (FamilyCall n)) : AllMeet id calls := by
  induction calls generalizing id with
  | nil => trivial
  | cons c calls ih =>
    have hmeets : c.Meets id := .inr (.inr (by rw [hsame]; exact hid))
    refine ⟨hmeets, ih ?_⟩
    rcases addFiber_id c id hmeets with heq | hlt
    · rw [heq]
      exact hid
    · rwa [hsame] at hlt

/-- A new fiber, for a `Scheduler` whose processers all run. -/
def busy (n : S → Nat) (s : S) : FamilyCall n :=
  ⟨s, none, fun _ => .running, fun _ => ⟨nofun, nofun⟩⟩

theorem busy_meets (s : S) (id : Nat) : (busy n s).Meets id ↔ id < n s := by
  constructor
  · intro h
    rcases h with hrun | hidle | hid
    · obtain ⟨p, hp, -⟩ := hrun
      cases hp
    · obtain ⟨i, hi⟩ := hidle
      cases hi
    · exact hid
  · intro hid
    exact .inr (.inr hid)

theorem busy_id {s : S} {id : Nat} (hid : id + 1 < n s) : ((busy n s).addFiber id).id = id + 1 := by
  have hrun := robin_id (busy n s) (n (busy n s).sched) (show id < n s by omega) nofun
  rw [addFiber_robin (busy n s) id nofun nofun, hrun]
  exact Nat.mod_eq_of_lt hid

/-- New fibers for a `Scheduler` move `id` up to its last processer. -/
theorem busy_run {s : S} (k id : Nat) (h : id + k < n s) (calls : List (FamilyCall n)) :
    AllMeet id (List.replicate k (busy n s) ++ calls) ↔ AllMeet (id + k) calls := by
  induction k generalizing id with
  | zero => rfl
  | succ k ih =>
    rw [List.replicate_succ, List.cons_append, AllMeet, busy_id (by omega), ih (id + 1) (by omega),
      busy_meets]
    have hid : id < n s := by omega
    have hadd : id + 1 + k = id + (k + 1) := by omega
    simp only [hid, true_and, hadd]

/-- All calls pick a processer as they should exactly when each of them meets the condition; and
all sequences of calls do, from the start of the process, exactly when all `Scheduler`s
have the same number of processers. -/
theorem picks_iff (n : S → Nat) (hpos : ∀ s, 0 < n s) :
    (∀ calls : List (FamilyCall n), AllPick 0 calls ↔ AllMeet 0 calls) ∧
    ((∀ calls : List (FamilyCall n), AllPick 0 calls) ↔ ∀ s s', n s = n s') := by
  refine ⟨allPick_iff 0, fun hall => ?_, fun hsame calls => ?_⟩
  · -- the larger one moves `id` past the smaller one
    have hle (s s' : S) : n s ≤ n s' := by
      by_contra hlt
      have hmeet := (allPick_iff 0 _).mp (hall (List.replicate (n s') (busy n s) ++ [busy n s']))
      rw [busy_run (n s') 0 (by omega), Nat.zero_add] at hmeet
      exact Nat.lt_irrefl _ ((busy_meets s' (n s')).mp hmeet.1)
    exact fun s s' => Nat.le_antisymm (hle s s') (hle s' s)
  · rw [allPick_iff]
    cases calls with
    | nil => trivial
    | cons c calls => exact allMeet_of_same (fun s => hsame s c.sched) (hpos c.sched) _

end Family

/-! ## One `Scheduler` -/

section One
variable {m k : Nat} {s : Scheduler m k} {c : Fin k} {fb : Nat}

/-- A call of `addFiber` with the fiber `fb`, in the states that the processers of `s` have. -/
def asCall (s : Scheduler m k) (fb : Nat)
    (hlive : ∀ i, (s.m_processers i).m_state ≠ .stop ∧ (s.m_processers i).m_state ≠ .done) :
    FamilyCall fun _ : Unit => m where
  sched := ()
  m_proc := (s.fibers fb).m_proc.map fun i => ⟨(), i⟩
  state p := (s.m_processers p.2).m_state
  live p := hlive p.2

/-- The thread `c` has come to `pc`, and left `id`. -/
def upTo (s : Scheduler m k) (c : Fin k) (id : Nat) (pc : CallPc m) : Scheduler m k :=
  { s with id := id, callers := s.setCaller c pc }

@[simp] theorem upTo_pc (s : Scheduler m k) (c : Fin k) (id : Nat) (pc : CallPc m) :
    (upTo s c id pc).callers c = pc := Function.update_self ..

@[simp] theorem upTo_upTo (s : Scheduler m k) (c : Fin k) (id id' : Nat) (pc pc' : CallPc m) :
    upTo (upTo s c id pc) c id' pc' = upTo s c id' pc' := by
  simp [upTo, setCaller]

/-- The thread `c` alone gets from `s` to `s'`. -/
def Alone (c : Fin k) (s s' : Scheduler m k) : Prop :=
  ∃ j, LTS.exec step s (List.replicate j (.call c)) = some s'

theorem Alone.refl (c : Fin k) (s : Scheduler m k) : Alone c s s := ⟨0, rfl⟩

theorem Alone.step {s₁ s' : Scheduler m k} (h : s.callStep c = some s₁) (h' : Alone c s₁ s') :
    Alone c s s' := by
  obtain ⟨j, hj⟩ := h'
  refine ⟨j + 1, ?_⟩
  rw [List.replicate_succ, LTS.exec]
  show (s.callStep c).bind _ = _
  rw [h, Option.bind_some, hj]

theorem finRange_drop {j : Nat} (hj : j < m) :
    (List.finRange m).drop j = ⟨j, hj⟩ :: (List.finRange m).drop (j + 1) := by
  rw [List.drop_eq_getElem_cons (by simpa using hj)]
  simp

theorem Alone.trans {s₁ s' : Scheduler m k} (h : Alone c s s₁) (h' : Alone c s₁ s') :
    Alone c s s' := by
  obtain ⟨j, hj⟩ := h
  induction j generalizing s with
  | zero =>
    cases hj
    exact h'
  | succ j ih =>
    rw [List.replicate_succ, LTS.exec] at hj
    obtain ⟨s₂, hs₂, hj⟩ := Option.bind_eq_some_iff.mp hj
    exact .step hs₂ (ih hj)

/-- Where the scan ends that has found this processer, or none. -/
def scanned (fb : Nat) : Option (Fin m) → CallPc m
  | some i => .add i false (.enter fb)
  | none => .pick fb 0

/-- The scan stops at the first processer that waits, or comes to the loop. -/
theorem scan_alone (s : Scheduler m k) (c : Fin k) (fb id j : Nat) (hj : j ≤ m) :
    Alone c (upTo s c id (.scan fb j)) (upTo s c id (scanned fb
      (((List.finRange m).drop j).find? fun i => (s.m_processers i).isWaitting))) := by
  induction hd : m - j generalizing j with
  | zero =>
    obtain rfl : j = m := by omega
    have hend : (upTo s c id (.scan fb j)).callStep c = some (upTo s c id (.pick fb 0)) := by
      unfold callStep
      rw [upTo_pc]
      exact (dif_neg (Nat.lt_irrefl j)).trans (congrArg some (upTo_upTo s c id id _ _))
    rw [List.drop_eq_nil_of_le (by simp)]
    exact .step hend (.refl c _)
  | succ d ih =>
    have hlt : j < m := by omega
    rw [finRange_drop hlt, List.find?_cons]
    cases hwait : (s.m_processers ⟨j, hlt⟩).isWaitting with
    | true =>
      have hstop : (upTo s c id (.scan fb j)).callStep c =
          some (upTo s c id (.add ⟨j, hlt⟩ false (.enter fb))) := by
        unfold callStep
        rw [upTo_pc]
        exact (dif_pos hlt).trans
          ((if_pos hwait).trans (congrArg some (upTo_upTo s c id id _ _)))
      exact .step hstop (.refl c _)
    | false =>
      have hgo : (upTo s c id (.scan fb j)).callStep c =
          some (upTo s c id (.scan fb (j + 1))) := by
        unfold callStep
        rw [upTo_pc]
        exact (dif_pos hlt).trans
          ((if_neg (by simp [upTo, hwait])).trans (congrArg some (upTo_upTo s c id id _ _)))
      exact .step hgo (ih (j + 1) hlt (by omega))

/-- The loop comes to the processer that `robin` does. -/
theorem robin_alone (s : Scheduler m k) (c : Fin k) (fb : Nat) (hlive) (rounds i id : Nat)
    (hi : i + rounds = m) (hid : id < m) :
    ∃ id' p, Alone c (upTo s c id (.pick fb i)) (upTo s c id' (.add p true (.enter fb))) ∧
      ((asCall s fb hlive).robin rounds id).handed = [⟨(), p⟩] ∧
      ((asCall s fb hlive).robin rounds id).id = (id' + 1) % m := by
  induction rounds generalizing i id with
  | zero =>
    have hlast : (upTo s c id (.pick fb i)).callStep c =
        some (upTo s c id (.add ⟨id, hid⟩ true (.enter fb))) := by
      unfold callStep
      rw [upTo_pc]
      dsimp only
      refine (dif_pos hid).trans ((if_neg (by omega)).trans ?_)
      exact congrArg some (upTo_upTo s c id id _ _)
    refine ⟨id, ⟨id, hid⟩, .step hlast (.refl c _), ?_, ?_⟩
    · rw [FamilyCall.robin, dif_pos (show id < m from hid), give_live]
    · rw [FamilyCall.robin, dif_pos (show id < m from hid)]
  | succ rounds ih =>
    have hpick : (upTo s c id (.pick fb i)).callStep c =
        some (upTo s c id (.robin fb i ⟨id, hid⟩)) := by
      unfold callStep
      rw [upTo_pc]
      exact (dif_pos hid).trans
        ((if_pos (by omega)).trans (congrArg some (upTo_upTo s c id id _ _)))
    rw [FamilyCall.robin, dif_pos (show id < m from hid)]
    by_cases hblock : (s.m_processers ⟨id, hid⟩).m_state = .block
    · have hskip : (upTo s c id (.robin fb i ⟨id, hid⟩)).callStep c =
          some (upTo s c id (.skip fb i)) := by
        unfold callStep
        rw [upTo_pc]
        exact (if_pos (decide_eq_true hblock)).trans (congrArg some (upTo_upTo s c id id _ _))
      have hmove : (upTo s c id (.skip fb i)).callStep c =
          some (upTo s c ((id + 1) % m) (.pick fb (i + 1))) := by
        unfold callStep
        rw [upTo_pc]
        exact congrArg some (upTo_upTo s c id _ _ _)
      have hpos : 0 < m := by omega
      obtain ⟨id', p, halone, hhanded, hid'⟩ :=
        ih (i + 1) ((id + 1) % m) (by omega) (Nat.mod_lt _ hpos)
      have hstate : (asCall s fb hlive).state ⟨(), id, hid⟩ = .block := hblock
      simp only [hstate, if_true]
      exact ⟨id', p, .step hpick (.step hskip (.step hmove halone)), hhanded, hid'⟩
    · have htake : (upTo s c id (.robin fb i ⟨id, hid⟩)).callStep c =
          some (upTo s c id (.add ⟨id, hid⟩ true (.enter fb))) := by
        unfold callStep
        rw [upTo_pc]
        exact (if_neg fun h => hblock (of_decide_eq_true h)).trans
          (congrArg some (upTo_upTo s c id id _ _))
      have hstate : (asCall s fb hlive).state ⟨(), id, hid⟩ ≠ .block := hblock
      simp only [hstate, if_false]
      refine ⟨id, ⟨id, hid⟩, .step hpick (.step htake (.refl c _)), ?_, rfl⟩
      exact give_live (asCall s fb hlive) ⟨(), id, hid⟩

/-- The thread `c` alone comes to the processer that gets the fiber here, and is to leave `id` as
it is left here. -/
def Follows (s : Scheduler m k) (c : Fin k) (fb : Nat) (o : Outcome fun _ : Unit => m) : Prop :=
  ∃ id p moves, Alone c s (upTo s c id (.add p moves (.enter fb))) ∧
    o.handed = [⟨(), p⟩] ∧ o.id = if moves then (id + 1) % m else id

/-- From the start of the scan. -/
theorem scan_follows (s : Scheduler m k) (c : Fin k) (fb : Nat) (hlive) (hid : s.id < m)
    (hscan : Alone c s (upTo s c s.id (.scan fb 0)))
    (hproc : ∀ p, (asCall s fb hlive).m_proc = some p → (asCall s fb hlive).state p ≠ .running) :
    Follows s c fb ((asCall s fb hlive).addFiber s.id) := by
  have hend := hscan.trans (scan_alone s c fb s.id 0 (Nat.zero_le m))
  rw [List.drop_zero] at hend
  rw [addFiber_scan _ s.id hproc]
  cases hfind : (List.finRange m).find? fun i => (s.m_processers i).isWaitting with
  | some i =>
    have hwaits : (List.finRange ((fun _ : Unit => m) (asCall s fb hlive).sched)).find?
        (fun i => decide ((asCall s fb hlive).state ⟨(asCall s fb hlive).sched, i⟩ = .idle)) =
          some i := hfind
    rw [hfind] at hend
    rw [hwaits]
    exact ⟨s.id, i, false, hend, give_live _ _, rfl⟩
  | none =>
    have hwaits : (List.finRange ((fun _ : Unit => m) (asCall s fb hlive).sched)).find?
        (fun i => decide ((asCall s fb hlive).state ⟨(asCall s fb hlive).sched, i⟩ = .idle)) =
          none := hfind
    rw [hfind] at hend
    rw [hwaits]
    obtain ⟨id', p, halone, hhanded, hid'⟩ :=
      robin_alone s c fb hlive m 0 s.id (Nat.zero_add m) hid
    exact ⟨id', p, true, hend.trans halone, hhanded, hid'⟩

/-- A thread of one `Scheduler` that no other disturbs does what the call does here. -/
theorem addFiber_alone (s : Scheduler m k) (c : Fin k) (fb : Nat) (hlive)
    (hread : s.callers c = .read fb) (hid : s.id < m) :
    Follows s c fb ((asCall s fb hlive).addFiber s.id) := by
  cases hproc : (s.fibers fb).m_proc with
  | none =>
    have hstep : s.callStep c = some (upTo s c s.id (.scan fb 0)) := by
      unfold callStep
      simp only [hread, hproc]
      rfl
    refine scan_follows s c fb hlive hid (.step hstep (.refl c _)) fun p hp => ?_
    rw [asCall, hproc] at hp
    cases hp
  | some q =>
    have hstep : s.callStep c = some (upTo s c s.id (.test fb q)) := by
      unfold callStep
      simp only [hread, hproc]
      rfl
    by_cases hrun : (s.m_processers q).m_state = .running
    · have htest : (upTo s c s.id (.test fb q)).callStep c =
          some (upTo s c s.id (.add q false (.enter fb))) := by
        unfold callStep
        rw [upTo_pc]
        exact (if_pos (decide_eq_true hrun)).trans (congrArg some (upTo_upTo s c s.id s.id _ _))
      have hcall : (asCall s fb hlive).m_proc = some ⟨(), q⟩ := by
        rw [asCall, hproc]
        rfl
      rw [addFiber_running (asCall s fb hlive) s.id hcall hrun]
      exact ⟨s.id, q, false, .step hstep (.step htest (.refl c _)), rfl, rfl⟩
    · have htest : (upTo s c s.id (.test fb q)).callStep c =
          some (upTo s c s.id (.scan fb 0)) := by
        unfold callStep
        rw [upTo_pc]
        exact (if_neg fun h => hrun (of_decide_eq_true h)).trans
          (congrArg some (upTo_upTo s c s.id s.id _ _))
      refine scan_follows s c fb hlive hid (.step hstep (.step htest (.refl c _))) fun p hp => ?_
      rw [asCall, hproc] at hp
      cases hp
      exact hrun

end One

/-! ## Two families -/

/-- Two `Scheduler`s with two processers each. -/
theorem picks_twice :
    (∀ calls : List (FamilyCall fun _ : Bool => 2), AllPick 0 calls ↔ AllMeet 0 calls) ∧
    ((∀ calls : List (FamilyCall fun _ : Bool => 2), AllPick 0 calls) ↔
      ∀ _ _ : Bool, 2 = 2) :=
  picks_iff (fun _ : Bool => 2) fun _ => Nat.two_pos

/-- A `Scheduler` with two processers and one with one: after a fiber for the first, one for the
second has `m_processers[1]` read. -/
def twoSizes (s : Bool) : Nat := if s then 2 else 1

theorem two_sizes : ¬ AllPick 0 [busy twoSizes true, busy twoSizes false] ∧
    ((busy twoSizes false).addFiber ((busy twoSizes true).addFiber 0).id).used = [1] := by
  have hone : ((busy twoSizes true).addFiber 0).id = 1 := busy_id (by decide)
  constructor
  · intro h
    have hmeets := (picks_call _ _).mp h.2.1
    rw [hone, busy_meets] at hmeets
    exact absurd hmeets (by decide)
  · rw [hone]
    decide

end Ppcode.Scheduler
