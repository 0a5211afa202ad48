import Ppcode.Fiber.Processer

/-!
# The sleep of a processer

`addFiber` calls `notify` only if it saw the processer not running; otherwise it
just sets `m_notidied`, outside `m_mutex`. `idle` tests `m_notidied`, publishes
`m_state = idle`, tests again and waits.

* `lost_wakeup`: a thread that saw the processer running can set the flag after
  the second test. The processer then sleeps with a fiber in its queue.
* `no_lost_wakeup`: there is no other way. Until the processer is past the second
  test (`ProcPc.quiet`) a fiber that was counted after `getNewFibers` has set the
  flag, or its thread is still in `addFiber`; past the test (`ProcPc.asleep`) its
  thread is still there.
-/
namespace Ppcode.Processer
variable {F : Type} {n : Nat}

/-- Between the compare-exchange of `getNewFibers` and the second test of the flag. -/
def ProcPc.quiet : ProcPc F → Bool
  | .pop _ _ | .gcLock | .test | .publish | .again => true
  | _ => false

/-- Past the second test, and not notified since. -/
def ProcPc.asleep : ProcPc F → Bool
  | .wait | .waiting false => true
  | _ => false

/-- The processer is blocked with a fiber in its queue, and no call is in progress. -/
def Sys.Lost (s : Sys F n) : Prop :=
  s.p.pc = .waiting false ∧ 0 < s.p.m_newfiberCount ∧ ∀ i, s.adders i = .idle

/-- A thread that saw the processer running does not set the flag when the
processer is past the second test with a fiber counted, unless another call is in
progress. -/
def Sys.OnTime (s : Sys F n) : Act F n → Prop
  | .go i => s.adders i = .flag → s.p.pc.asleep = true → 0 < s.p.m_newfiberCount →
    ∃ j, j ≠ i ∧ s.adders j ≠ .idle
  | _ => True

/-! ## The invariant -/

structure Sys.Wakes (s : Sys F n) : Prop where
  alive : s.p.m_state ≠ .stop ∧ s.p.m_state ≠ .done
  heard : s.p.pc.quiet = true → 0 < s.p.m_newfiberCount →
    s.p.m_notidied = true ∨ ∃ i, s.adders i ≠ .idle
  asleep : s.p.pc.asleep = true → 0 < s.p.m_newfiberCount → ∃ i, s.adders i ≠ .idle
  notified : s.p.pc = .waiting true → s.p.m_notidied = true

theorem back_awake (p : Processer F) (r : Ret) :
    (p.back r).asleep = false ∧ p.back r ≠ .waiting true := by
  unfold back
  split
  · split <;> exact ⟨rfl, nofun⟩
  · exact ⟨rfl, nofun⟩

/-- What a step of the processer does to the fields that matter here. -/
theorem next_wake {state : TaskState} {p p' : Processer F} (h : p.next false state = some p') :
    (p'.m_state = p.m_state ∨ p'.m_state = .running ∨ p'.m_state = .idle) ∧
    (p'.pc.quiet = true → p'.m_newfiberCount = 0 ∨ p'.m_newfiberCount = p.m_newfiberCount ∧
      p'.m_notidied = p.m_notidied ∧ (p.pc.quiet = true ∨ p.pc = .waiting true)) ∧
    (p'.pc.asleep = true → p'.m_newfiberCount = p.m_newfiberCount ∧
      (p.pc.asleep = true ∨ p.pc.quiet = true ∧ p.m_notidied = false)) ∧
    p'.pc ≠ .waiting true := by
  cases next_spec h with
  | fetched p r =>
    obtain ⟨hasleep, hne⟩ := back_awake p r
    refine ⟨.inl rfl, fun _ => .inr ⟨rfl, rfl, .inl rfl⟩, fun ha => ?_, hne⟩
    rw [hasleep] at ha
    cases ha
  | pop | miss | gcLock =>
    exact ⟨.inl rfl, fun _ => .inr ⟨rfl, rfl, .inl rfl⟩, nofun, nofun⟩
  | exchange => exact ⟨.inl rfl, fun _ => .inl rfl, nofun, nofun⟩
  | test =>
    refine ⟨.inl rfl, fun _ => .inr ⟨rfl, rfl, .inl rfl⟩, ?_, ?_⟩
    · split <;> nofun
    · split <;> nofun
  | publish => exact ⟨.inr (.inr rfl), fun _ => .inr ⟨rfl, rfl, .inl rfl⟩, nofun, nofun⟩
  | again p =>
    obtain ⟨count, runable, newq, gc, st, notidied, pc⟩ := p
    cases notidied with
    | true => exact ⟨.inl rfl, nofun, nofun, nofun⟩
    | false => exact ⟨.inl rfl, nofun, fun _ => ⟨rfl, .inr ⟨rfl, rfl⟩⟩, nofun⟩
  | wait => exact ⟨.inl rfl, nofun, fun _ => ⟨rfl, .inl rfl⟩, nofun⟩
  | waiting => exact ⟨.inl rfl, fun _ => .inr ⟨rfl, rfl, .inr rfl⟩, nofun, nofun⟩
  | start | wake => exact ⟨.inr (.inl rfl), nofun, nofun, nofun⟩
  | switch => cases state <;> exact ⟨.inl rfl, nofun, nofun, nofun⟩
  | many =>
    refine ⟨.inl rfl, ?_, ?_, ?_⟩
    · split <;> nofun
    · split <;> nofun
    · split <;> nofun
  | _ => exact ⟨.inl rfl, nofun, nofun, nofun⟩

/-- A step of a call: one of the two last ones, or the call goes on. -/
theorem addStep_wake {p p' : Processer F} {a a' : AddPc F}
    (hstate : p.m_state ≠ .stop ∧ p.m_state ≠ .done) (h : p.addStep a = some (p', a')) :
    (a = .flag ∧ a' = .idle ∧ p' = { p with m_notidied := true }) ∨
    (a = .notify ∧ a' = .idle ∧ p.notify = some p') ∨
    (a' ≠ .idle ∧ p'.m_state = p.m_state ∧ p'.pc = p.pc ∧
      (p.m_notidied = true → p'.m_notidied = true)) := by
  cases a with
  | idle => cases h
  | enter fb =>
    simp only [addStep, if_neg (not_or.mpr hstate)] at h
    cases h
    exact .inr (.inr ⟨nofun, rfl, rfl, id⟩)
  | push fb =>
    simp only [addStep, Option.ite_none_right_eq_some] at h
    obtain ⟨-, h⟩ := h
    cases h
    exact .inr (.inr ⟨nofun, rfl, rfl, id⟩)
  | count =>
    cases h
    exact .inr (.inr ⟨nofun, rfl, rfl, id⟩)
  | test =>
    cases h
    refine .inr (.inr ⟨?_, rfl, rfl, id⟩)
    split <;> nofun
  | flag =>
    cases h
    exact .inl ⟨rfl, rfl, rfl⟩
  | flagNotify =>
    cases h
    exact .inr (.inr ⟨nofun, rfl, rfl, fun _ => rfl⟩)
  | notify =>
    obtain ⟨q, hq, he⟩ := Option.map_eq_some_iff.mp h
    cases he
    exact .inr (.inl ⟨rfl, rfl, hq⟩)

/-! ## One step -/

section Steps
variable {s : Sys F n} {i : Fin n}

theorem wakes_init : (Sys.init : Sys F n).Wakes :=
  ⟨⟨nofun, nofun⟩, nofun, nofun, nofun⟩

/-- The processer's own step. -/
theorem wakes_proc (h : s.Wakes) {state : TaskState} {p : Processer F}
    (hst : s.p.next false state = some p) (moved : List F) :
    Sys.Wakes { s with p := p, moved := moved } := by
  obtain ⟨hstate, hquiet, hasleep, hne⟩ := next_wake hst
  refine ⟨?_, fun hq hc => ?_, fun ha hc => ?_, fun hw => absurd hw hne⟩
  · rcases hstate with he | he | he
    · rw [he]
      exact h.alive
    · rw [he]
      exact ⟨nofun, nofun⟩
    · rw [he]
      exact ⟨nofun, nofun⟩
  · simp only at hc ⊢
    rcases hquiet hq with hz | ⟨he, hn, hq | hw⟩
    · omega
    · rw [hn]
      exact h.heard hq (by omega)
    · rw [hn]
      exact .inl (h.notified hw)
  · simp only at hc ⊢
    obtain ⟨he, ha | ⟨hq, hn⟩⟩ := hasleep ha
    · exact h.asleep ha (by omega)
    · -- the flag was found clear
      rcases h.heard hq (by omega) with hc | hi
      · rw [hn] at hc
        cases hc
      · exact hi

/-- A step of a thread that stays in its call: it is the one in progress. -/
theorem wakes_busy (h : s.Wakes) {p : Processer F} {a : AddPc F} (ha : a ≠ .idle)
    (hstate : p.m_state = s.p.m_state) (hpc : p.pc = s.p.pc)
    (hn : s.p.m_notidied = true → p.m_notidied = true) (pushed : List F) :
    Sys.Wakes { s with p := p, adders := Function.update s.adders i a, pushed := pushed } := by
  have hbusy : ∃ j, Function.update s.adders i a j ≠ .idle := by
    refine ⟨i, ?_⟩
    rw [Function.update_self]
    exact ha
  refine ⟨?_, fun _ _ => .inr hbusy, fun _ _ => hbusy, fun hw => hn (h.notified ?_)⟩
  · rw [hstate]
    exact h.alive
  · rw [← hpc]
    exact hw

/-- A thread that saw the processer running sets the flag and is done. -/
theorem wakes_flag (h : s.Wakes) (hi : s.adders i = .flag) (htime : s.OnTime (.go i))
    (pushed : List F) : Sys.Wakes { s with
      p := { s.p with m_notidied := true }, adders := Function.update s.adders i .idle,
      pushed := pushed } := by
  refine ⟨h.alive, fun _ _ => .inl rfl, fun ha hc => ?_, fun _ => rfl⟩
  obtain ⟨j, hj, hbusy⟩ := htime hi ha hc
  refine ⟨j, ?_⟩
  simp only [Function.update_of_ne hj]
  exact hbusy

theorem asleep_cases {pc : ProcPc F} (h : pc.asleep = true) :
    pc.locked = true ∨ pc = .waiting false := by
  cases pc with
  | wait => exact .inl rfl
  | waiting notified =>
    cases notified with
    | true => cases h
    | false => exact .inr rfl
  | _ => cases h

/-- `notify` finds the processer before the first test, or wakes it. -/
theorem wakes_notify (h : s.Wakes) {p : Processer F} (hst : s.p.notify = some p)
    (adders : Fin n → AddPc F) (pushed : List F) :
    Sys.Wakes { s with p := p, adders := adders, pushed := pushed } := by
  obtain ⟨hl, he, hpc⟩ := notify_spec hst
  rw [he]
  refine ⟨h.alive, fun _ _ => .inl rfl, fun ha _ => ?_, fun _ => rfl⟩
  exfalso
  simp only at ha
  rcases hpc with ⟨hne, hpc⟩ | ⟨b, -, hpc⟩
  · rw [hpc] at ha
    rcases asleep_cases ha with hc | hc
    · rw [hl] at hc
      cases hc
    · exact hne false hc
  · rw [hpc] at ha
    cases ha

theorem wakes_start (h : s.Wakes) {a : AddPc F} (ha : a ≠ .idle) :
    Sys.Wakes { s with adders := Function.update s.adders i a } :=
  wakes_busy h ha rfl rfl id s.pushed

theorem wakes_go {s' : Sys F n} (h : s.Wakes) (htime : s.OnTime (.go i))
    (hgo : s.step (.go i) = some s') : s'.Wakes := by
  obtain ⟨⟨p, a⟩, hst, rfl⟩ := Option.map_eq_some_iff.mp hgo
  rcases addStep_wake h.alive hst with ⟨hi, rfl, rfl⟩ | ⟨-, -, hn⟩ | ⟨ha, hstate, hpc, hn⟩
  · exact wakes_flag h hi htime _
  · exact wakes_notify h hn _ _
  · exact wakes_busy h ha hstate hpc hn _

theorem wakes_step {s' : Sys F n} {a : Act F n} (h : s.Wakes) (htime : s.OnTime a)
    (hst : s.step a = some s') : s'.Wakes := by
  cases a with
  | addFiber i fb =>
    simp only [Sys.step] at hst
    split at hst
    · cases hst
      exact wakes_start h nofun
    · cases hst
  | notify i =>
    simp only [Sys.step] at hst
    split at hst
    · cases hst
      exact wakes_start h nofun
    · cases hst
  | go i => exact wakes_go h htime hst
  | proc state =>
    obtain ⟨p, hp, rfl⟩ := Option.map_eq_some_iff.mp hst
    exact wakes_proc h hp _

end Steps

/-! ## Runs -/

/-- In a run in which no thread that saw the processer running is the last to set
the flag when it is past its second test, no wake-up is lost. -/
theorem no_lost_wakeup (s : Sys F n) (hr : ((Sys.lts F n).restrict Sys.OnTime).Reachable s) :
    ¬ s.Lost := by
  have hind : ((Sys.lts F n).restrict Sys.OnTime).Inductive Sys.Wakes := by
    refine ⟨?_, fun s a s' h hst => wakes_step h hst.2 hst.1⟩
    intro s hs
    rw [hs]
    exact wakes_init
  intro hlost
  obtain ⟨hpc, hc, hidle⟩ := hlost
  obtain ⟨i, hi⟩ := (hind.reachable s hr).asleep (by rw [hpc]; rfl) hc
  exact hi (hidle i)

/-- The thread sees the processer running before it publishes that it is idle, and
sets the flag when it waits. -/
theorem lost_wakeup : ∃ s, (Sys.lts Nat 1).Reachable s ∧ s.Lost := by
  have hrun : (LTS.exec Sys.step (Sys.init : Sys Nat 1)
      [.proc .block, .proc .block, .proc .block, .proc .block, .proc .block, .proc .block,
        .proc .block, .proc .block, .addFiber 0 7, .go 0, .go 0, .go 0, .go 0, .proc .block,
        .proc .block, .proc .block, .go 0]).any
      (fun s => decide (s.p.pc = .waiting false ∧ 0 < s.p.m_newfiberCount ∧
        ∀ i, s.adders i = .idle)) = true := by decide
  obtain ⟨s, hs, hb⟩ : ∃ s, (Sys.lts Nat 1).Reachable s ∧ decide
      (s.p.pc = .waiting false ∧ 0 < s.p.m_newfiberCount ∧ ∀ i, s.adders i = .idle) = true :=
    LTS.exists_of_exec _ rfl hrun
  have hlost := of_decide_eq_true hb
  exact ⟨s, hs, hlost⟩

/-- A check of `OnTime`. -/
def Sys.onTimeB [DecidableEq F] (s : Sys F n) : Act F n → Bool
  | .go i => decide (s.adders i = .flag → s.p.pc.asleep = true → 0 < s.p.m_newfiberCount →
    ∃ j, j ≠ i ∧ s.adders j ≠ .idle)
  | _ => true

theorem onTime_of_check [DecidableEq F] (s : Sys F n) (a : Act F n) (h : s.onTimeB a = true) :
    s.OnTime a := by
  cases a with
  | go i =>
    simp only [Sys.onTimeB, decide_eq_true_eq] at h
    exact h
  | _ => trivial

/-- A fiber added while the processer waits: its thread has counted it and still
has to call `notify`. -/
theorem no_lost_wakeup_notify : ∃ s, ((Sys.lts Nat 1).restrict Sys.OnTime).Reachable s ∧
    (s.p.pc = .waiting false ∧ 0 < s.p.m_newfiberCount) ∧ ¬ s.Lost := by
  have hrun : (LTS.execWith Sys.step Sys.onTimeB (Sys.init : Sys Nat 1)
      [.proc .block, .proc .block, .proc .block, .proc .block, .proc .block, .proc .block,
        .proc .block, .proc .block, .proc .block, .proc .block, .proc .block, .addFiber 0 7,
        .go 0, .go 0, .go 0, .go 0]).any
      (fun s => decide (s.p.pc = .waiting false ∧ 0 < s.p.m_newfiberCount)) = true := by decide
  obtain ⟨s, hs, hb⟩ : ∃ s, ((Sys.lts Nat 1).restrict Sys.OnTime).Reachable s ∧ decide
      (s.p.pc = .waiting false ∧ 0 < s.p.m_newfiberCount) = true :=
    LTS.exists_of_execWith onTime_of_check _ rfl hrun
  exact ⟨s, hs, of_decide_eq_true hb, no_lost_wakeup s hs⟩

end Ppcode.Processer
