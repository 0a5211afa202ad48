import Ppcode.Core.LTS
import Ppcode.Fiber.FdTable

/-!
# One `FdCtx` for an fd

`n` threads call `get` and `del`; the sections that these run under `m_mutex` are
the steps. `get` decides in its read-locked section to make an `FdCtx`, and does so
in a write-locked one without looking again. `got` records what the calls of `get`
returned. A section waits where the lock says so; other threads may be inside a
read-locked section meanwhile (`enter`, `leave`), and after a socket's `FdCtx` was
made only this lets a writer in.

`OneCtx fd`: all that was returned for `fd` is one object, and it is the entry.

* `oneCtx_iff`: it holds all along a run without a `del(fd)` exactly when no `get(fd)`
  of the run makes an `FdCtx` after one was returned (`InTime`).
* `two_ctxs`: two threads that use one fd for the first time get two objects.
-/
namespace Ppcode.FdTable

/-- `pc i = some fd`: the thread is in `get(fd)`, between the sections. `reading` counts the other
threads that are inside a read-locked section. -/
structure Threads (n : Nat) where
  t : FdTable
  pc : Fin n → Option Nat
  got : List (Nat × Nat)
  reading : Nat

namespace Threads
variable {n : Nat}

inductive Act (n : Nat) where
  | read (i : Fin n) (fd : Nat) (auto_create : Bool)
  | write (i : Fin n) (kind : FdKind)
  | del (i : Fin n) (fd : Nat)
  | enter
  | leave
  deriving DecidableEq, Repr

/-- A `get(fd)` returns. -/
def returns (s : Threads n) (fd : Nat) (ctx : Option Nat) : Threads n :=
  { s with got := s.got ++ ctx.toList.map (fd, ·) }

/-- mirrors src/fiber/fdcontext.cc:60-93 -/
def step (s : Threads n) : Act n → Option (Threads n)
  | .read i fd auto_create =>
    if s.pc i ≠ none then none
    else (s.t.readSection fd auto_create).map fun r =>
      match r.2 with
      | .ret ctx => { s with t := r.1 }.returns fd ctx
      | .create => { s with t := r.1, pc := Function.update s.pc i (some fd) }
  | .write i kind => do
    let fd ← s.pc i
    let (t, ctx) ← s.t.writeSection fd kind
    return ({ s with t := t, pc := Function.update s.pc i none } : Threads n).returns fd (some ctx)
  | .del i fd => if s.pc i ≠ none then none else (s.t.del fd).map fun t => { s with t := t }
  | .enter => (s.t.locked [.rdlock]).map fun t => { s with t := t, reading := s.reading + 1 }
  | .leave =>
    if s.reading = 0 then none
    else (s.t.locked [.unlock]).map fun t => { s with t := t, reading := s.reading - 1 }

/-- No call is in progress, and nothing was returned yet. -/
def Initial (s : Threads n) : Prop :=
  (∀ fd ctx, s.t.entry fd = some ctx → ctx < s.t.made) ∧ (∀ i, s.pc i = none) ∧ s.got = []

/-- All calls `get(fd, _)` have returned one object, which is the entry of `fd`. -/
def OneCtx (fd : Nat) (s : Threads n) : Prop := ∀ ctx, (fd, ctx) ∈ s.got → s.t.entry fd = some ctx

/-- The step is no `del(fd)`. -/
def NoDel (fd : Nat) : Act n → Prop
  | .del _ fd' => fd' ≠ fd
  | _ => True

/-- After an object was returned for `fd`, no `get(fd)` makes one, and none cuts it off. -/
def InTime (fd : Nat) (s : Threads n) : Act n → Prop
  | .write i _ => ∀ fd' ctx, s.pc i = some fd' → (fd, ctx) ∈ s.got → fd' ≠ fd ∧ ¬ s.t.Cuts fd' fd
  | _ => True

/-! ## The sections -/

theorem found_ret {t : FdTable} {fd : Nat} {auto_create : Bool} {ctx : Nat}
    (h : t.found fd auto_create = .ret (some ctx)) : t.entry fd = some ctx := by
  unfold found at h
  repeat' split at h
  all_goals simp_all

theorem make_spec {t t' : FdTable} {fd ctx : Nat} {kind : FdKind}
    (h : t.make fd kind = some (t', ctx)) :
    ctx = t.made ∧ t'.made = t.made + 1 ∧ t'.entry fd = some ctx ∧
      ∀ fd', fd' ≠ fd → t'.entry fd' = if t.Cuts fd fd' then none else t.entry fd' := by
  unfold make at h
  split at h
  · cases h
  · simp only at h
    split at h
    · next hin =>
      simp only [Option.some.injEq, Prod.mk.injEq] at h
      obtain ⟨rfl, rfl⟩ := h
      have hset := setEntry_entry (some t.made) hin
      refine ⟨rfl, ?_, ?_, ?_⟩
      · rw [setEntry_made, room_made]
      · rw [hset, Function.update_self]
      · intro fd' hne
        rw [hset, Function.update_of_ne hne, room_entry]
        rfl
    · cases h

theorem writeSection_spec {t t' : FdTable} {fd ctx : Nat} {kind : FdKind}
    (h : t.writeSection fd kind = some (t', ctx)) :
    ctx = t.made ∧ t'.made = t.made + 1 ∧ t'.entry fd = some ctx ∧
      ∀ fd', fd' ≠ fd → t'.entry fd' = if t.Cuts fd fd' then none else t.entry fd' := by
  obtain ⟨t₁, hlock, hmake⟩ := Option.bind_eq_some_iff.mp h
  obtain ⟨l, rfl⟩ := locked_eq hlock
  obtain ⟨hctx, hmade, hent, hothers⟩ := make_spec hmake
  refine ⟨hctx, hmade, hent, fun fd' hne => (hothers fd' hne).trans ?_⟩
  by_cases hc : t.Cuts fd fd'
  · rw [if_pos hc]
    exact if_pos hc
  · rw [if_neg hc]
    exact if_neg hc

theorem clear_entry {t : FdTable} {fd fd' : Nat} (hne : fd ≠ fd') :
    (t.clear fd').entry fd = t.entry fd := by
  unfold clear
  split
  · rfl
  · simp [entry, setEntry, List.getElem?_set_ne (Ne.symm hne)]

theorem clear_entry_some {t : FdTable} {fd fd' ctx : Nat} (h : (t.clear fd').entry fd = some ctx) :
    t.entry fd = some ctx := by
  by_cases hne : fd = fd'
  · subst hne
    unfold clear at h
    split at h
    · exact h
    · by_cases hin : fd < t.m_datas.length
      · rw [setEntry_entry none hin, Function.update_self] at h
        cases h
      · rw [entry_of_le (by simpa using Nat.le_of_not_lt hin)] at h
        cases h
  · rwa [clear_entry hne] at h

theorem clear_made (t : FdTable) (fd : Nat) : (t.clear fd).made = t.made := by
  unfold clear
  split
  · rfl
  · exact setEntry_made none

theorem del_spec {t t' : FdTable} {fd : Nat} (h : t.del fd = some t') : t'.made = t.made ∧
    (∀ fd', fd' ≠ fd → t'.entry fd' = t.entry fd') ∧
    ∀ fd' ctx, t'.entry fd' = some ctx → t.entry fd' = some ctx := by
  obtain ⟨t₁, hlock, rfl⟩ := Option.map_eq_some_iff.mp h
  obtain ⟨l, rfl⟩ := locked_eq hlock
  exact ⟨clear_made _ fd, fun fd' hne => clear_entry hne, fun fd' ctx => clear_entry_some⟩

@[simp] theorem mem_returns {s : Threads n} {fd fd' ctx' : Nat} {ctx : Option Nat} :
    (fd', ctx') ∈ (s.returns fd ctx).got ↔ (fd', ctx') ∈ s.got ∨ fd' = fd ∧ ctx = some ctx' := by
  cases ctx <;> simp [returns, eq_comm]

/-! ## Runs -/

/-- No object is made twice. -/
structure Inv (s : Threads n) : Prop where
  entry : ∀ fd ctx, s.t.entry fd = some ctx → ctx < s.t.made
  got : ∀ fd ctx, (fd, ctx) ∈ s.got → ctx < s.t.made

theorem step_read {s s' : Threads n} {i : Fin n} {fd : Nat} {auto_create : Bool}
    (hst : s.step (.read i fd auto_create) = some s') : ∃ l, s'.t = s.t.withLock l ∧
      ∀ fd' ctx, (fd', ctx) ∈ s'.got → (fd', ctx) ∈ s.got ∨ s.t.entry fd' = some ctx := by
  simp only [step, Option.ite_none_left_eq_some] at hst
  obtain ⟨-, hst⟩ := hst
  obtain ⟨r, hread, rfl⟩ := Option.map_eq_some_iff.mp hst
  obtain ⟨t₁, hlock, rfl⟩ := Option.map_eq_some_iff.mp hread
  obtain ⟨l, rfl⟩ := locked_eq hlock
  cases hfound : (s.t.withLock l).found fd auto_create with
  | ret ctx =>
    refine ⟨l, rfl, fun fd' ctx' h => ?_⟩
    rcases mem_returns.mp h with h | ⟨rfl, rfl⟩
    · exact .inl h
    · exact .inr (found_ret hfound)
  | create => exact ⟨l, rfl, fun _ _ h => .inl h⟩

theorem step_write {s s' : Threads n} {i : Fin n} {kind : FdKind}
    (hst : s.step (.write i kind) = some s') : ∃ fd, s.pc i = some fd ∧
      s.t.writeSection fd kind = some (s'.t, s.t.made) ∧
      ∀ fd' ctx, (fd', ctx) ∈ s'.got ↔ (fd', ctx) ∈ s.got ∨ fd' = fd ∧ ctx = s.t.made := by
  obtain ⟨fd, hpc, hst⟩ := Option.bind_eq_some_iff.mp hst
  obtain ⟨⟨t, ctx⟩, hw, hst⟩ := Option.bind_eq_some_iff.mp hst
  cases hst
  obtain ⟨rfl, -⟩ := writeSection_spec hw
  refine ⟨fd, hpc, hw, fun fd' ctx' => ?_⟩
  rw [mem_returns, Option.some.injEq, eq_comm (a := ctx')]

theorem step_del {s s' : Threads n} {i : Fin n} {fd : Nat} (hst : s.step (.del i fd) = some s') :
    s.t.del fd = some s'.t ∧ s'.got = s.got := by
  simp only [step, Option.ite_none_left_eq_some] at hst
  obtain ⟨t, hdel, rfl⟩ := Option.map_eq_some_iff.mp hst.2
  exact ⟨hdel, rfl⟩

theorem step_enter {s s' : Threads n} (hst : s.step .enter = some s') :
    (∃ l, s'.t = s.t.withLock l) ∧ s'.got = s.got := by
  obtain ⟨t, hlock, rfl⟩ := Option.map_eq_some_iff.mp hst
  exact ⟨locked_eq hlock, rfl⟩

theorem step_leave {s s' : Threads n} (hst : s.step .leave = some s') :
    (∃ l, s'.t = s.t.withLock l) ∧ s'.got = s.got := by
  simp only [step, Option.ite_none_left_eq_some] at hst
  obtain ⟨t, hlock, rfl⟩ := Option.map_eq_some_iff.mp hst.2
  exact ⟨locked_eq hlock, rfl⟩

theorem Inv.withLock {s s' : Threads n} {l : RWLock Unit} (h : s.Inv)
    (ht : s'.t = s.t.withLock l)
    (hgot : ∀ fd ctx, (fd, ctx) ∈ s'.got → (fd, ctx) ∈ s.got ∨ s.t.entry fd = some ctx) :
    s'.Inv := by
  refine ⟨by rw [ht]; exact h.entry, fun fd ctx hmem => ?_⟩
  rw [ht]
  exact (hgot fd ctx hmem).elim (h.got fd ctx) (h.entry fd ctx)

theorem inv_step {s s' : Threads n} {a : Act n} (h : s.Inv) (hst : s.step a = some s') :
    s'.Inv := by
  cases a with
  | read i fd auto_create =>
    obtain ⟨l, ht, hgot⟩ := step_read hst
    exact h.withLock ht hgot
  | enter =>
    obtain ⟨⟨l, ht⟩, hgot⟩ := step_enter hst
    exact h.withLock ht fun _ _ hmem => .inl (hgot ▸ hmem)
  | leave =>
    obtain ⟨⟨l, ht⟩, hgot⟩ := step_leave hst
    exact h.withLock ht fun _ _ hmem => .inl (hgot ▸ hmem)
  | write i kind =>
    obtain ⟨fd, -, hw, hgot⟩ := step_write hst
    obtain ⟨-, hmade, hent, hothers⟩ := writeSection_spec hw
    refine ⟨fun fd' ctx he => ?_, fun fd' ctx hmem => ?_⟩
    · rw [hmade]
      by_cases hfd : fd' = fd
      · rw [hfd, hent] at he
        cases he
        exact Nat.lt_succ_self _
      · rw [hothers fd' hfd] at he
        split at he
        · cases he
        · exact Nat.lt_succ_of_lt (h.entry fd' ctx he)
    · rw [hmade]
      rcases (hgot fd' ctx).mp hmem with hmem | ⟨-, rfl⟩
      · exact Nat.lt_succ_of_lt (h.got fd' ctx hmem)
      · exact Nat.lt_succ_self _
  | del i fd =>
    obtain ⟨hdel, hgot⟩ := step_del hst
    obtain ⟨hmade, -, hold⟩ := del_spec hdel
    refine ⟨fun fd' ctx he => ?_, fun fd' ctx hmem => ?_⟩
    · rw [hmade]
      exact h.entry fd' ctx (hold fd' ctx he)
    · rw [hgot] at hmem
      rw [hmade]
      exact h.got fd' ctx hmem

/-- A step keeps the property, a write-locked section if it is in time. -/
theorem oneCtx_step {s s' : Threads n} {a : Act n} {fd : Nat} (h : OneCtx fd s)
    (hdel : NoDel fd a) (hin : InTime fd s a) (hst : s.step a = some s') : OneCtx fd s' := by
  cases a with
  | read i fd' auto_create =>
    obtain ⟨l, ht, hgot⟩ := step_read hst
    intro ctx hmem
    rw [ht]
    exact (hgot fd ctx hmem).elim (h ctx) id
  | enter =>
    obtain ⟨⟨l, ht⟩, hgot⟩ := step_enter hst
    intro ctx hmem
    rw [ht]
    exact h ctx (hgot ▸ hmem)
  | leave =>
    obtain ⟨⟨l, ht⟩, hgot⟩ := step_leave hst
    intro ctx hmem
    rw [ht]
    exact h ctx (hgot ▸ hmem)
  | write i kind =>
    obtain ⟨fd', hpc, hw, hgot⟩ := step_write hst
    obtain ⟨-, -, hent, hothers⟩ := writeSection_spec hw
    intro ctx hmem
    rcases (hgot fd ctx).mp hmem with hmem | ⟨rfl, rfl⟩
    · obtain ⟨hne, hcut⟩ := hin fd' ctx hpc hmem
      rw [hothers fd (Ne.symm hne), if_neg hcut]
      exact h ctx hmem
    · exact hent
  | del i fd' =>
    obtain ⟨ht, hgot⟩ := step_del hst
    intro ctx hmem
    rw [hgot] at hmem
    rw [(del_spec ht).2.1 fd (Ne.symm hdel)]
    exact h ctx hmem

theorem inv_initial {s : Threads n} (h : s.Initial) : s.Inv :=
  ⟨h.1, fun _ _ hmem => by rw [h.2.2] at hmem; cases hmem⟩

/-- A section that is not in time takes the object out of its place. -/
theorem replaced {s s' : Threads n} {a : Act n} {fd : Nat} (hinv : s.Inv)
    (hin : ¬ InTime fd s a) (hst : s.step a = some s') : ¬ OneCtx fd s' := by
  cases a with
  | read | del | enter | leave => exact absurd trivial hin
  | write i kind =>
    obtain ⟨fd', hpc, hw, hgot⟩ := step_write hst
    obtain ⟨-, -, hent, hothers⟩ := writeSection_spec hw
    simp only [InTime, not_forall] at hin
    obtain ⟨fd'', ctx, hpc', hmem, hnot⟩ := hin
    rw [hpc] at hpc'
    cases hpc'
    intro hone
    have hkept := hone ctx ((hgot fd ctx).mpr (.inl hmem))
    by_cases hfd : fd' = fd
    · subst hfd
      rw [hent, Option.some.injEq] at hkept
      exact absurd (hinv.got fd' ctx hmem) (by omega)
    · rw [hothers fd (Ne.symm hfd), if_pos (not_not.mp fun hc => hnot ⟨hfd, hc⟩)] at hkept
      cases hkept

theorem oneCtx_initial {s : Threads n} (h : s.Initial) (fd : Nat) : OneCtx fd s := by
  intro ctx hmem
  rw [h.2.2] at hmem
  cases hmem

/-- All along a run without a `del(fd)` the calls `get(fd, _)` return one object, the entry of
`fd`, exactly when the write-locked sections of the run are in time. -/
theorem oneCtx_iff (n fd : Nat) (s : Threads n) (acts : List (Act n)) (hs : s.Initial)
    (hdel : ∀ a ∈ acts, NoDel fd a) :
    LTS.Along step (OneCtx fd) s acts ↔ LTS.StepsMeet step (InTime fd) s acts := by
  refine LTS.along_iff (fun s a s' h hst => inv_step h hst) (fun s a s' hinv hone ha hst => ?_)
    (inv_initial hs) (oneCtx_initial hs fd) hdel
  constructor
  · intro hone'
    by_contra hin
    exact replaced hinv hin hst hone'
  · intro hin
    exact oneCtx_step hone ha hin hst

/-! ## Runs on the table of the constructor -/

def start (n : Nat) : Threads n := ⟨new, fun _ => none, [], 0⟩

theorem start_initial (n : Nat) : (start n).Initial := by
  refine ⟨fun fd ctx h => ?_, fun _ => rfl, rfl⟩
  simp only [start, new, entry, List.getElem?_replicate] at h
  split at h <;> cases h

/-- A check of `InTime`. -/
def inTimeB (fd : Nat) (s : Threads n) : Act n → Bool
  | .write i _ => (s.pc i).all fun fd' => s.got.all fun r =>
      r.1 != fd || (fd' != fd && decide (¬ s.t.Cuts fd' fd))
  | _ => true

theorem inTime_of_check {fd : Nat} (s : Threads n) (a : Act n) (h : inTimeB fd s a = true) :
    InTime fd s a := by
  cases a with
  | read | del | enter | leave => trivial
  | write i kind =>
    intro fd' ctx hpc hmem
    simp only [inTimeB, hpc, Option.all_some, List.all_eq_true] at h
    simpa using h (fd, ctx) hmem

/-- Of three threads, that which makes the `FdCtx` of fd 3 returns before another asks; fd 4 is
opened and closed. Neither is a socket. -/
def inTurn : List (Act 3) :=
  [.read 0 3 true, .read 2 4 true, .write 0 .other, .write 2 .other, .read 1 3 true, .del 2 4]

theorem oneCtx_inTurn :
    (LTS.exec step (start 3) inTurn).map (·.got) = some [(3, 0), (4, 1), (3, 0)] ∧
      LTS.Along step (OneCtx 3) (start 3) inTurn := by
  have hdel : ∀ a ∈ inTurn, NoDel 3 a := by simp [inTurn, NoDel]
  have hmeet : LTS.StepsMeet step (InTime 3) (start 3) inTurn :=
    LTS.stepsMeet_of_check inTime_of_check (by decide +kernel)
  exact ⟨by decide +kernel, (oneCtx_iff 3 3 (start 3) inTurn (start_initial 3) hdel).mpr hmeet⟩

/-- Two threads use fd 3, which is no socket, for the first time; both find no `FdCtx` before one of
them makes one. -/
def twoAsk (i j : Fin 2) : List (Act 2) :=
  [.read i 3 true, .read j 3 true, .write i .other, .write j .other]

/-- They get two objects, and the first is the entry no longer. -/
theorem two_ctxs : (∀ a ∈ twoAsk 0 1, NoDel 3 a) ∧
    (LTS.exec step (start 2) (twoAsk 0 1)).map (·.got) = some [(3, 0), (3, 1)] ∧
    ¬ LTS.Along step (OneCtx 3) (start 2) (twoAsk 0 1) := by
  have hgot : (LTS.exec step (start 2) (twoAsk 0 1)).map (·.got) = some [(3, 0), (3, 1)] := by
    decide +kernel
  refine ⟨by simp [twoAsk, NoDel], hgot, fun hall => ?_⟩
  obtain ⟨s, hs, hsgot⟩ := Option.map_eq_some_iff.mp hgot
  have hone := hall.last hs
  have h₀ := hone 0 (by rw [hsgot]; simp)
  have h₁ := hone 1 (by rw [hsgot]; simp)
  rw [h₀] at h₁
  cases h₁

end Threads
end Ppcode.FdTable
