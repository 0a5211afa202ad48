import Ppcode.Core.LTS

/-!
# `ReadLock` and `WriteLock`: scopes of one thread on one `RWMutex`

`src/thread/scopedlock.h` over `src/thread/rwmutex.cc`. The functions of `RWMutex`
call pthread, where any call may fail; `rdlock` and `wrlock` write a failure to the
log and return nothing, `try_rdlock` and `try_wrlock` return whether they have the
lock. A scope notes in `m_isLocked` that it has to unlock.

A run is what a thread does with its scopes, one in the other, the innermost first;
`rt` is what pthread returns. A request succeeds only if it fits what the thread
holds already.

* `releasesOwn_iff`: a program that has ended has released just what each scope had
  acquired, and an inner scope that leaves the outer ones alone has left the lock as
  it was, exactly when no call of `rdlock` or `wrlock` failed on the way.
* `outer_released`: a reader in a writer's scope, which gives up the writer's lock.
-/
namespace Ppcode

def EBUSY : Int := 16

/-- What this thread holds of the lock; `unlocks` counts its calls of `pthread_rwlock_unlock`. -/
structure RWMutex where
  readers : Nat
  writer : Bool
  unlocks : Nat
  deriving DecidableEq, Repr

/-- The two locks; they differ in the function of `RWMutex` that they call. -/
inductive LockKind where
  | read | write
  deriving DecidableEq, Repr

namespace RWMutex

/-- `pthread_rwlock_rdlock`, `pthread_rwlock_wrlock` and their try forms, which return `rt`. -/
def request (m : RWMutex) (kind : LockKind) (rt : Int) : Option RWMutex :=
  if rt = 0 then
    if m.writer then none
    else match kind with
      | .read => some { m with readers := m.readers + 1 }
      | .write => if m.readers = 0 then some { m with writer := true } else none
  else some m

/-- mirrors src/thread/rwmutex.cc:25-39 -/
def lock (m : RWMutex) (kind : LockKind) (rt : Int) : Option RWMutex := m.request kind rt

/-- mirrors src/thread/rwmutex.cc:41-68 -/
def tryLock (m : RWMutex) (kind : LockKind) (rt : Int) : Option (RWMutex × Bool) :=
  (m.request kind rt).map fun m => (m, if rt = EBUSY then false else decide (rt = 0))

/-- What pthread releases is the writer's lock, if the thread has it.
mirrors src/thread/rwmutex.cc:70-76 -/
def unlock (m : RWMutex) : RWMutex :=
  if m.writer then { m with writer := false, unlocks := m.unlocks + 1 }
  else { m with readers := m.readers - 1, unlocks := m.unlocks + 1 }

end RWMutex

/-- `holds`: the last request of the scope succeeded and it has not released it.
mirrors src/thread/scopedlock.h:49-127 -/
structure RWScopedLock where
  kind : LockKind
  m_isLocked : Bool
  holds : Bool
  deriving DecidableEq, Repr

/-- `unlock` and the destructor.
mirrors src/thread/scopedlock.h:56-61,77-82 and 96-101,117-122 -/
def RWScopedLock.unlock (l : RWScopedLock) (m : RWMutex) : RWScopedLock × RWMutex :=
  if l.m_isLocked then ({ l with m_isLocked := false, holds := false }, m.unlock) else (l, m)

namespace Scopes

/-- `scopes` are the scope objects, the innermost first. -/
structure Sys where
  mutex : RWMutex
  scopes : List RWScopedLock
  deriving DecidableEq, Repr

/-- What a thread does; `i` is the place of a scope object, from the inside. -/
inductive Act where
  | make (kind : LockKind) (rt : Int)
  | lock (i : Nat) (rt : Int)
  | tryLock (i : Nat) (rt : Int)
  | unlock (i : Nat)
  | destroy
  deriving DecidableEq, Repr

/-- mirrors src/thread/scopedlock.h:49-127 -/
def step (s : Sys) : Act → Option Sys
  | .make kind rt => (s.mutex.lock kind rt).map fun m => ⟨m, ⟨kind, true, rt = 0⟩ :: s.scopes⟩
  | .lock i rt => do
    let l ← s.scopes[i]?
    if l.m_isLocked then return s
    let m ← s.mutex.lock l.kind rt
    return ⟨m, s.scopes.set i { l with m_isLocked := true, holds := rt = 0 }⟩
  | .tryLock i rt => do
    let l ← s.scopes[i]?
    if l.m_isLocked then return s
    let (m, isLocked) ← s.mutex.tryLock l.kind rt
    return ⟨m, s.scopes.set i { l with m_isLocked := isLocked, holds := rt = 0 }⟩
  | .unlock i => do
    let l ← s.scopes[i]?
    let (l, m) := l.unlock s.mutex
    return ⟨m, s.scopes.set i l⟩
  | .destroy =>
    match s.scopes with
    | [] => none
    | l :: scopes => some ⟨(l.unlock s.mutex).2, scopes⟩

def init : Sys := ⟨⟨0, false, 0⟩, []⟩

/-- The scope that an act releases. -/
def released (s : Sys) : Act → Option RWScopedLock
  | .unlock i => s.scopes[i]?
  | .destroy => s.scopes.head?
  | _ => none

/-- The body of a scope that is the innermost of `d`: whole scopes, and calls on these `d`. -/
def Inner : Nat → List Act → Prop
  | d, [] => d = 1
  | d, .make _ _ :: acts => Inner (d + 1) acts
  | d, .destroy :: acts => 1 < d ∧ Inner (d - 1) acts
  | d, .lock i _ :: acts | d, .tryLock i _ :: acts | d, .unlock i :: acts => i < d ∧ Inner d acts

/-- `unlock` and the destructor call `pthread_rwlock_unlock` if the scope holds the lock, and only
then. -/
def Releases (s : Sys) (acts : List Act) : Prop :=
  ∀ pre a s₁ s₂ l, pre ++ [a] <+: acts → LTS.exec step s pre = some s₁ →
    step s₁ a = some s₂ → released s₁ a = some l →
    (s₂.mutex.unlocks = s₁.mutex.unlocks + 1 ↔ l.holds = true)

structure ReleasesOwn (s : Sys) (acts : List Act) : Prop where
  release : Releases s acts
  restored : ∀ pre kind rt body s₁ s₂, pre ++ (.make kind rt :: (body ++ [.destroy])) <+: acts →
    Inner 1 body → LTS.exec step s pre = some s₁ →
    LTS.exec step s₁ (.make kind rt :: (body ++ [.destroy])) = some s₂ →
    s₂.mutex.readers = s₁.mutex.readers ∧ s₂.mutex.writer = s₁.mutex.writer

/-- A call of `rdlock` or `wrlock` does not fail. -/
def Meets (s : Sys) : Act → Prop
  | .make _ rt => rt = 0
  | .lock i rt => ∀ l ∈ s.scopes[i]?, l.m_isLocked = false → rt = 0
  | _ => True

instance (s : Sys) : (a : Act) → Decidable (Meets s a)
  | .make _ rt => inferInstanceAs (Decidable (rt = 0))
  | .lock i rt => inferInstanceAs (Decidable (∀ l ∈ s.scopes[i]?, l.m_isLocked = false → rt = 0))
  | .tryLock .. | .unlock _ | .destroy => inferInstanceAs (Decidable True)

/-! ## What is held -/

/-- What a scope holds of a kind. -/
def weight (kind : LockKind) (l : RWScopedLock) : Nat := if l.holds ∧ l.kind = kind then 1 else 0

def holding (kind : LockKind) (scopes : List RWScopedLock) : Nat := (scopes.map (weight kind)).sum

/-- `m_isLocked` is right in every scope, and together they hold what the thread holds. -/
structure Good (s : Sys) : Prop where
  flag : ∀ l ∈ s.scopes, l.m_isLocked = l.holds
  readers : s.mutex.readers = holding .read s.scopes
  writer : s.mutex.writer.toNat = holding .write s.scopes
  apart : s.mutex.writer = true → s.mutex.readers = 0

/-- The scope that holds nothing although it is noted as locked. -/
def Stale (s : Sys) : Prop :=
  ∃ (i : Nat) (l : RWScopedLock), s.scopes[i]? = some l ∧ l.m_isLocked = true ∧ l.holds = false

theorem holding_cons (kind : LockKind) (l : RWScopedLock) (scopes : List RWScopedLock) :
    holding kind (l :: scopes) = weight kind l + holding kind scopes := List.sum_cons

theorem holding_set (kind : LockKind) {scopes : List RWScopedLock} {i : Nat} {l : RWScopedLock}
    (hl : scopes[i]? = some l) (l' : RWScopedLock) :
    holding kind (scopes.set i l') + weight kind l = holding kind scopes + weight kind l' := by
  induction scopes generalizing i with
  | nil => cases hl
  | cons x scopes ih =>
    cases i with
    | zero =>
      cases hl
      simp only [List.set_cons_zero, holding_cons]
      omega
    | succ i =>
      have := ih hl
      simp only [List.set_cons_succ, holding_cons]
      omega

theorem weight_le_holding (kind : LockKind) {scopes : List RWScopedLock} {l : RWScopedLock}
    (hl : l ∈ scopes) : weight kind l ≤ holding kind scopes :=
  List.single_le_sum (by simp) _ (List.mem_map_of_mem hl)

theorem request_spec {m m' : RWMutex} {kind : LockKind} {rt : Int}
    (h : m.request kind rt = some m') (hapart : m.writer = true → m.readers = 0) :
    m'.unlocks = m.unlocks ∧ (m'.writer = true → m'.readers = 0) ∧
    m'.readers = m.readers + weight .read ⟨kind, true, rt = 0⟩ ∧
    m'.writer.toNat = m.writer.toNat + weight .write ⟨kind, true, rt = 0⟩ := by
  unfold RWMutex.request at h
  by_cases hrt : rt = 0
  · rw [if_pos hrt] at h
    cases hw : m.writer with
    | true => simp [hw] at h
    | false =>
      cases kind with
      | read =>
        simp only [hw, Bool.false_eq_true, if_false, Option.some.injEq] at h
        subst h
        simp [weight, hrt]
      | write =>
        simp only [hw, Bool.false_eq_true, if_false, Option.ite_none_right_eq_some,
          Option.some.injEq] at h
        obtain ⟨hr, rfl⟩ := h
        simp [weight, hrt, hr]
  · rw [if_neg hrt, Option.some.injEq] at h
    subst h
    simpa [weight, hrt] using hapart

/-- `unlock` of the mutex gives up what a scope holds. -/
theorem unlock_spec {s : Sys} (h : Good s) {l : RWScopedLock} (hl : l ∈ s.scopes)
    (hholds : l.holds = true) :
    s.mutex.unlock.readers + weight .read l = s.mutex.readers ∧
    s.mutex.unlock.writer.toNat + weight .write l = s.mutex.writer.toNat ∧
    (s.mutex.unlock.writer = true → s.mutex.unlock.readers = 0) := by
  have hread := weight_le_holding .read hl
  have hwrite := weight_le_holding .write hl
  rw [← h.readers] at hread
  rw [← h.writer] at hwrite
  have hapart := h.apart
  unfold RWMutex.unlock
  cases hw : s.mutex.writer with
  | true =>
    cases hk : l.kind with
    | read =>
      simp only [weight, hholds, hk, and_self, if_true] at hread
      have := hapart hw
      omega
    | write => simp [weight, hholds, hk, hapart hw]
  | false =>
    cases hk : l.kind with
    | read =>
      simp only [weight, hholds, hk, and_self, if_true] at hread
      simp [weight, hholds, hk]
      omega
    | write => simp [weight, hholds, hk, hw] at hwrite

/-! ## One step -/

/-- A scope at its place takes what the mutex gives. -/
theorem Good.acquire {s : Sys} (h : Good s) {i : Nat} {l : RWScopedLock} {m : RWMutex} {rt : Int}
    (hl : s.scopes[i]? = some l) (hfree : l.holds = false)
    (hreq : s.mutex.request l.kind rt = some m) (isLocked : Bool)
    (hflag : isLocked = decide (rt = 0)) :
    Good ⟨m, s.scopes.set i { l with m_isLocked := isLocked, holds := rt = 0 }⟩ := by
  obtain ⟨-, hapart, hr, hw⟩ := request_spec hreq h.apart
  have hzero (kind : LockKind) : weight kind l = 0 := by simp [weight, hfree]
  have hsame (kind : LockKind) : weight kind { l with m_isLocked := isLocked, holds := rt = 0 } =
      weight kind ⟨l.kind, true, rt = 0⟩ := rfl
  refine ⟨fun l' hl' => ?_, ?_, ?_, hapart⟩
  · rcases List.mem_or_eq_of_mem_set hl' with hin | rfl
    · exact h.flag l' hin
    · exact hflag
  · have := holding_set .read hl { l with m_isLocked := isLocked, holds := rt = 0 }
    rw [hzero, hsame, ← h.readers] at this
    simp only
    omega
  · have := holding_set .write hl { l with m_isLocked := isLocked, holds := rt = 0 }
    rw [hzero, hsame, ← h.writer] at this
    simp only
    omega

/-- The mutex and the scopes after one of them has released what it holds; `rest` are the others. -/
theorem good_unlock {s : Sys} (h : Good s) {l : RWScopedLock} (hl : l ∈ s.scopes)
    {scopes : List RWScopedLock} (hflag : ∀ l' ∈ scopes, l'.m_isLocked = l'.holds)
    (hsum : ∀ kind, holding kind scopes + weight kind l = holding kind s.scopes) :
    Good ⟨(l.unlock s.mutex).2, scopes⟩ := by
  have hr := hsum .read
  have hw := hsum .write
  rw [← h.readers] at hr
  rw [← h.writer] at hw
  unfold RWScopedLock.unlock
  by_cases hlocked : l.m_isLocked = true
  · obtain ⟨hur, huw, hua⟩ := unlock_spec h hl ((h.flag l hl).symm.trans hlocked)
    rw [if_pos hlocked]
    refine ⟨hflag, ?_, ?_, hua⟩
    · simp only
      omega
    · simp only
      omega
  · have hholds : l.holds = false := (h.flag l hl).symm.trans (Bool.eq_false_iff.mpr hlocked)
    have hzero (kind : LockKind) : weight kind l = 0 := by simp [weight, hholds]
    rw [hzero] at hr hw
    rw [if_neg hlocked]
    exact ⟨hflag, hr.symm, hw.symm, h.apart⟩

theorem good_step {s s' : Sys} {a : Act} (h : Good s) (hm : Meets s a)
    (hst : step s a = some s') : Good s' := by
  cases a with
  | make kind rt =>
    obtain ⟨m, hreq, rfl⟩ := Option.map_eq_some_iff.mp hst
    obtain ⟨-, hapart, hr, hw⟩ := request_spec hreq h.apart
    refine ⟨fun l hl => ?_, ?_, ?_, hapart⟩
    · rcases List.mem_cons.mp hl with rfl | hin
      · exact (decide_eq_true (show rt = 0 from hm)).symm
      · exact h.flag l hin
    · rw [holding_cons, ← h.readers, hr]
      exact Nat.add_comm _ _
    · rw [holding_cons, ← h.writer, hw]
      exact Nat.add_comm _ _
  | lock i rt =>
    obtain ⟨l, hl, hst⟩ := Option.bind_eq_some_iff.mp hst
    by_cases hlocked : l.m_isLocked = true
    · rw [if_pos hlocked] at hst
      cases hst
      exact h
    · rw [if_neg hlocked] at hst
      obtain ⟨m, hreq, hst⟩ := Option.bind_eq_some_iff.mp hst
      cases hst
      have hfree := Bool.eq_false_iff.mpr hlocked
      have hrt : rt = 0 := hm l hl hfree
      refine h.acquire hl ?_ hreq true (decide_eq_true hrt).symm
      exact (h.flag l (List.mem_of_getElem? hl)).symm.trans hfree
  | tryLock i rt =>
    obtain ⟨l, hl, hst⟩ := Option.bind_eq_some_iff.mp hst
    by_cases hlocked : l.m_isLocked = true
    · rw [if_pos hlocked] at hst
      cases hst
      exact h
    · rw [if_neg hlocked] at hst
      obtain ⟨⟨m, isLocked⟩, htry, hst⟩ := Option.bind_eq_some_iff.mp hst
      cases hst
      obtain ⟨m', hreq, heq⟩ := Option.map_eq_some_iff.mp htry
      cases heq
      have hfree := Bool.eq_false_iff.mpr hlocked
      refine h.acquire hl ((h.flag l (List.mem_of_getElem? hl)).symm.trans hfree) hreq _ ?_
      split
      · next hbusy =>
        rw [hbusy]
        rfl
      · rfl
  | unlock i =>
    obtain ⟨l, hl, hst⟩ := Option.bind_eq_some_iff.mp hst
    cases hst
    have hin := List.mem_of_getElem? hl
    have hafter : (l.unlock s.mutex).1.m_isLocked = (l.unlock s.mutex).1.holds ∧
        ∀ kind, weight kind (l.unlock s.mutex).1 = 0 := by
      unfold RWScopedLock.unlock
      split
      · simp [weight]
      · next hfree =>
        have hholds := (h.flag l hin).symm.trans (Bool.eq_false_iff.mpr hfree)
        exact ⟨h.flag l hin, by simp [weight, hholds]⟩
    refine good_unlock h hin (fun l' hl' => ?_) fun kind => ?_
    · rcases List.mem_or_eq_of_mem_set hl' with hin' | rfl
      · exact h.flag l' hin'
      · exact hafter.1
    · have := holding_set kind hl (l.unlock s.mutex).1
      rw [hafter.2] at this
      exact this
  | destroy =>
    simp only [step] at hst
    cases hs : s.scopes with
    | nil => simp [hs] at hst
    | cons l scopes =>
      rw [hs] at hst
      cases hst
      have hrest (l' : RWScopedLock) (hl' : l' ∈ scopes) : l' ∈ s.scopes := by simp [hs, hl']
      refine good_unlock h (by simp [hs]) (fun l' hl' => h.flag l' (hrest l' hl')) fun kind => ?_
      rw [hs, holding_cons]
      exact Nat.add_comm _ _

theorem unlock_unlocks (l : RWScopedLock) (m : RWMutex) :
    (l.unlock m).2.unlocks = m.unlocks + 1 ↔ l.m_isLocked = true := by
  unfold RWScopedLock.unlock RWMutex.unlock
  split
  · next hlocked => simp only [hlocked, iff_true]; split <;> rfl
  · next hlocked => simp [hlocked]

/-- What calls `pthread_rwlock_unlock` is the note of the scope. -/
theorem released_unlocks {s s' : Sys} {a : Act} {l : RWScopedLock} (hst : step s a = some s')
    (hl : released s a = some l) :
    s'.mutex.unlocks = s.mutex.unlocks + 1 ↔ l.m_isLocked = true := by
  cases a with
  | make kind rt | lock i rt | tryLock i rt => cases hl
  | unlock i =>
    obtain ⟨l', hl', hst⟩ := Option.bind_eq_some_iff.mp hst
    cases hl.symm.trans hl'
    cases hst
    exact unlock_unlocks l s.mutex
  | destroy =>
    simp only [step] at hst
    cases hs : s.scopes with
    | nil => simp [hs] at hst
    | cons l' scopes =>
      rw [hs] at hst
      cases hst
      simp only [released, hs, List.head?_cons, Option.some.injEq] at hl
      subst hl
      exact unlock_unlocks l' s.mutex

/-- A scope that is released is one of the scopes. -/
theorem released_mem {s : Sys} {a : Act} {l : RWScopedLock} (hl : released s a = some l) :
    l ∈ s.scopes := by
  cases a with
  | make kind rt | lock i rt | tryLock i rt => cases hl
  | unlock i => exact List.mem_of_getElem? hl
  | destroy => exact List.mem_of_head? hl

/-- A write to a scope that is not noted as locked passes a stale one by. -/
theorem stale_set {s : Sys} {i : Nat} {l : RWScopedLock} (h : Stale s)
    (hl : s.scopes[i]? = some l) (hfree : l.m_isLocked = false) (l' : RWScopedLock) (m : RWMutex) :
    Stale ⟨m, s.scopes.set i l'⟩ := by
  obtain ⟨j, lj, hj, hlocked, hholds⟩ := h
  have hne : i ≠ j := by
    intro heq
    subst heq
    rw [hl] at hj
    cases hj
    exact absurd (hfree.symm.trans hlocked) (by decide)
  exact ⟨j, lj, by rw [List.getElem?_set_ne hne]; exact hj, hlocked, hholds⟩

/-- A stale scope stays until it is released. -/
theorem stale_step {s s' : Sys} {a : Act} (h : Stale s) (hst : step s a = some s') :
    Stale s' ∨ ∃ l, released s a = some l ∧ l.m_isLocked = true ∧ l.holds = false := by
  cases a with
  | make kind rt =>
    obtain ⟨i, l, hl, hlocked, hholds⟩ := h
    obtain ⟨m, -, rfl⟩ := Option.map_eq_some_iff.mp hst
    exact .inl ⟨i + 1, l, hl, hlocked, hholds⟩
  | lock i rt =>
    obtain ⟨l, hl, hst⟩ := Option.bind_eq_some_iff.mp hst
    by_cases hlocked : l.m_isLocked = true
    · rw [if_pos hlocked] at hst
      cases hst
      exact .inl h
    · rw [if_neg hlocked] at hst
      obtain ⟨m, -, hst⟩ := Option.bind_eq_some_iff.mp hst
      cases hst
      exact .inl (stale_set h hl (Bool.eq_false_iff.mpr hlocked) _ m)
  | tryLock i rt =>
    obtain ⟨l, hl, hst⟩ := Option.bind_eq_some_iff.mp hst
    by_cases hlocked : l.m_isLocked = true
    · rw [if_pos hlocked] at hst
      cases hst
      exact .inl h
    · rw [if_neg hlocked] at hst
      obtain ⟨⟨m, isLocked⟩, -, hst⟩ := Option.bind_eq_some_iff.mp hst
      cases hst
      exact .inl (stale_set h hl (Bool.eq_false_iff.mpr hlocked) _ m)
  | unlock i =>
    obtain ⟨l, hl, hst⟩ := Option.bind_eq_some_iff.mp hst
    cases hst
    obtain ⟨j, lj, hj, hlocked, hholds⟩ := h
    by_cases hij : i = j
    · subst hij
      exact .inr ⟨lj, hj, hlocked, hholds⟩
    · exact .inl ⟨j, lj, by rw [List.getElem?_set_ne hij]; exact hj, hlocked, hholds⟩
  | destroy =>
    obtain ⟨j, lj, hj, hlocked, hholds⟩ := h
    simp only [step] at hst
    cases hs : s.scopes with
    | nil => simp [hs] at hst
    | cons l scopes =>
      rw [hs] at hst hj
      cases hst
      cases j with
      | zero => exact .inr ⟨lj, by simpa [released, hs] using hj, hlocked, hholds⟩
      | succ j => exact .inl ⟨j, lj, hj, hlocked, hholds⟩

/-- A request that failed leaves a stale scope. -/
theorem stale_of_not_meets {s s' : Sys} {a : Act} (hm : ¬ Meets s a) (hst : step s a = some s') :
    Stale s' := by
  cases a with
  | make kind rt =>
    obtain ⟨m, -, rfl⟩ := Option.map_eq_some_iff.mp hst
    exact ⟨0, _, rfl, rfl, decide_eq_false hm⟩
  | lock i rt =>
    simp only [Meets, not_forall] at hm
    obtain ⟨l, hl, hfree, hrt⟩ := hm
    obtain ⟨l', hl', hst⟩ := Option.bind_eq_some_iff.mp hst
    cases hl.symm.trans hl'
    rw [if_neg (by simp [hfree])] at hst
    obtain ⟨m, -, hst⟩ := Option.bind_eq_some_iff.mp hst
    cases hst
    have hlt := (List.getElem?_eq_some_iff.mp hl).1
    exact ⟨i, _, List.getElem?_set_self hlt, rfl, decide_eq_false hrt⟩
  | tryLock i rt | unlock i | destroy => exact absurd trivial hm

/-! ## Runs -/

theorem good_run {s s' : Sys} {acts : List Act} (h : Good s)
    (hmeet : LTS.StepsMeet step Meets s acts) (hrun : LTS.exec step s acts = some s') :
    Good s' := by
  induction acts generalizing s with
  | nil =>
    cases hrun
    exact h
  | cons a acts ih =>
    simp only [LTS.exec, Option.bind_eq_some_iff] at hrun
    obtain ⟨s₁, hst, hrun⟩ := hrun
    obtain ⟨hm, hrest⟩ := hmeet s₁ hst
    exact ih (good_step h hm hst) hrest hrun

/-- A call on a scope object changes at most that object. -/
theorem step_scopes {s s' : Sys} {a : Act} (hst : step s a = some s') :
    match a with
    | .make .. => ∃ l, s'.scopes = l :: s.scopes
    | .lock i _ | .tryLock i _ | .unlock i => ∃ l, s'.scopes = s.scopes.set i l
    | .destroy => ∃ l, s.scopes = l :: s'.scopes := by
  have hsame {i : Nat} {l : RWScopedLock} (hl : s.scopes[i]? = some l) :
      s.scopes = s.scopes.set i l := by
    obtain ⟨hi, rfl⟩ := List.getElem?_eq_some_iff.mp hl
    exact (List.set_getElem_self hi).symm
  cases a with
  | make kind rt =>
    obtain ⟨m, -, rfl⟩ := Option.map_eq_some_iff.mp hst
    exact ⟨_, rfl⟩
  | lock i rt | tryLock i rt =>
    obtain ⟨l, hl, hst⟩ := Option.bind_eq_some_iff.mp hst
    by_cases hlocked : l.m_isLocked = true
    · rw [if_pos hlocked] at hst
      cases hst
      exact ⟨l, hsame hl⟩
    · rw [if_neg hlocked] at hst
      obtain ⟨m, -, hst⟩ := Option.bind_eq_some_iff.mp hst
      cases hst
      exact ⟨_, rfl⟩
  | unlock i =>
    obtain ⟨l, hl, hst⟩ := Option.bind_eq_some_iff.mp hst
    cases hst
    exact ⟨_, rfl⟩
  | destroy =>
    simp only [step] at hst
    cases hs : s.scopes with
    | nil => simp [hs] at hst
    | cons l scopes =>
      rw [hs] at hst
      cases hst
      exact ⟨l, rfl⟩

/-- The body of a scope leaves the outer scopes alone. -/
theorem inner_run {d : Nat} {body : List Act} {s s' : Sys} {top base : List RWScopedLock}
    (hbody : Inner d body) (hs : s.scopes = top ++ base) (hd : top.length = d)
    (hrun : LTS.exec step s body = some s') :
    ∃ l, s'.scopes = l :: base := by
  induction body generalizing d s top with
  | nil =>
    cases hrun
    obtain ⟨l, rfl⟩ := List.length_eq_one_iff.mp (hd.trans hbody)
    exact ⟨l, hs⟩
  | cons a body ih =>
    simp only [LTS.exec, Option.bind_eq_some_iff] at hrun
    obtain ⟨s₁, hst, hrun⟩ := hrun
    have hscopes := step_scopes hst
    cases a with
    | make kind rt =>
      obtain ⟨l, hl⟩ := hscopes
      have htop : s₁.scopes = (l :: top) ++ base := by rw [hl, hs, List.cons_append]
      exact ih hbody htop (by simp [hd]) hrun
    | lock i rt | tryLock i rt | unlock i =>
      obtain ⟨l, hl⟩ := hscopes
      obtain ⟨hi, hbody⟩ := hbody
      have htop : s₁.scopes = top.set i l ++ base := by
        rw [hl, hs, List.set_append_left _ _ (by omega)]
      exact ih hbody htop (by simp [hd]) hrun
    | destroy =>
      obtain ⟨l, hl⟩ := hscopes
      obtain ⟨hlt, hbody⟩ := hbody
      cases top with
      | nil =>
        simp only [List.length_nil] at hd
        omega
      | cons x top =>
        rw [hs, List.cons_append, List.cons.injEq] at hl
        exact ih hbody hl.2.symm (by simp only [List.length_cons] at hd; omega) hrun

/-- The lock is what the scopes make of it. -/
theorem mutex_of_scopes {s s' : Sys} (h : Good s) (h' : Good s') (hs : s'.scopes = s.scopes) :
    s'.mutex.readers = s.mutex.readers ∧ s'.mutex.writer = s.mutex.writer := by
  refine ⟨by rw [h'.readers, h.readers, hs], ?_⟩
  have hw : s'.mutex.writer.toNat = s.mutex.writer.toNat := by rw [h'.writer, h.writer, hs]
  revert hw
  cases s'.mutex.writer <;> cases s.mutex.writer <;> decide

theorem Releases.tail {s s₁ : Sys} {a : Act} {acts : List Act} (h : Releases s (a :: acts))
    (hst : step s a = some s₁) : Releases s₁ acts := by
  intro pre b s₂ s₃ l hpre hrun
  refine h (a :: pre) b s₂ s₃ l ?_ (by simp [LTS.exec, hst, hrun])
  simpa using hpre

/-- No scope of a program that releases only what it has is stale, if the program ends. -/
theorem not_stale {s s' : Sys} {acts : List Act} (hrel : Releases s acts)
    (hrun : LTS.exec step s acts = some s') (hend : s'.scopes = []) : ¬ Stale s := by
  induction acts generalizing s with
  | nil =>
    cases hrun
    intro hstale
    obtain ⟨i, l, hl, -⟩ := hstale
    rw [hend] at hl
    cases hl
  | cons a acts ih =>
    intro hstale
    simp only [LTS.exec, Option.bind_eq_some_iff] at hrun
    obtain ⟨s₁, hst, hrun⟩ := hrun
    rcases stale_step hstale hst with hstale' | ⟨l, hl, hlocked, hholds⟩
    · exact ih (hrel.tail hst) hrun hstale'
    · have hcalls := (released_unlocks hst hl).mpr hlocked
      have hhas := (hrel [] a s s₁ l (by simp) rfl hst hl).mp hcalls
      exact absurd (hholds.symm.trans hhas) (by decide)

theorem meets_of_releases {s s' : Sys} {acts : List Act} (hrel : Releases s acts)
    (hrun : LTS.exec step s acts = some s') (hend : s'.scopes = []) :
    LTS.StepsMeet step Meets s acts := by
  induction acts generalizing s with
  | nil => trivial
  | cons a acts ih =>
    intro s₁ hst
    simp only [LTS.exec, hst, Option.bind_some] at hrun
    have hrel' := hrel.tail hst
    refine ⟨?_, ih hrel' hrun⟩
    by_contra hm
    exact not_stale hrel' hrun hend (stale_of_not_meets hm hst)

theorem good_init : Good init := ⟨nofun, rfl, rfl, fun _ => rfl⟩

theorem releases_of_meets {acts : List Act} (hmeet : LTS.StepsMeet step Meets init acts) :
    Releases init acts := by
  intro pre a s₁ s₂ l hpre hrun hst hl
  obtain ⟨post, rfl⟩ := hpre
  have hgood := good_run good_init hmeet.front.front hrun
  rw [released_unlocks hst hl, hgood.flag l (released_mem hl)]

/-- An inner scope gives back what it took. -/
theorem restored_of_meets {acts : List Act} (hmeet : LTS.StepsMeet step Meets init acts)
    {pre body : List Act} {kind : LockKind} {rt : Int} {s₁ s₂ : Sys}
    (hpre : pre ++ (.make kind rt :: (body ++ [.destroy])) <+: acts) (hbody : Inner 1 body)
    (hrun : LTS.exec step init pre = some s₁)
    (hrun' : LTS.exec step s₁ (.make kind rt :: (body ++ [.destroy])) = some s₂) :
    s₂.mutex.readers = s₁.mutex.readers ∧ s₂.mutex.writer = s₁.mutex.writer := by
  obtain ⟨post, rfl⟩ := hpre
  have hgood := good_run good_init hmeet.front.front hrun
  have hgood' := good_run hgood (hmeet.front.suffix hrun) hrun'
  refine mutex_of_scopes hgood hgood' ?_
  simp only [LTS.exec, Option.bind_eq_some_iff] at hrun'
  obtain ⟨s₃, hmake, hrun'⟩ := hrun'
  rw [LTS.exec_append, Option.bind_eq_some_iff] at hrun'
  obtain ⟨s₄, hin, hdestroy⟩ := hrun'
  simp only [LTS.exec, Option.bind_eq_some_iff, Option.some.injEq, exists_eq_right] at hdestroy
  obtain ⟨l, hl⟩ := step_scopes hmake
  obtain ⟨l', hl'⟩ := inner_run hbody (show s₃.scopes = [l] ++ s₁.scopes from hl) rfl hin
  obtain ⟨l'', hl''⟩ := step_scopes hdestroy
  rw [hl', List.cons.injEq] at hl''
  exact hl''.2.symm

/-- A program of scopes that has ended has released only what each scope held, and every inner
scope has left the lock as it was, exactly when no `rdlock` and no `wrlock` failed. -/
theorem releasesOwn_iff (acts : List Act) (s : Sys) (hrun : LTS.exec step init acts = some s)
    (hend : s.scopes = []) : ReleasesOwn init acts ↔ LTS.StepsMeet step Meets init acts := by
  refine ⟨fun h => meets_of_releases h.release hrun hend, fun hmeet => ?_⟩
  exact ⟨releases_of_meets hmeet, fun _ _ _ _ _ _ hpre => restored_of_meets hmeet hpre⟩

/-- A reader in a reader's scope, with a `try_rdlock` that is told to come back. -/
def nested : List Act :=
  [.make .read 0, .make .read 0, .unlock 0, .tryLock 0 EBUSY, .tryLock 0 0, .destroy, .destroy]

theorem releasesOwn_nested : ReleasesOwn init nested :=
  (releasesOwn_iff nested ⟨⟨0, false, 3⟩, []⟩ (by decide) rfl).mpr
    (LTS.stepsMeet_of_check (B := fun s a => decide (Meets s a))
      (fun _ _ hb => of_decide_eq_true hb) (by decide))

/-- In the scope of a writer, the `rdlock` of a reader fails with `EDEADLK`; its destructor releases
the writer's lock. -/
theorem outer_released :
    LTS.exec step init [.make .write 0, .make .read 35, .destroy] =
      some ⟨⟨0, false, 1⟩, [⟨.write, true, true⟩]⟩ ∧
    ¬ ReleasesOwn init [.make .write 0, .make .read 35, .destroy, .destroy] := by
  refine ⟨by decide, fun h => ?_⟩
  have hstale := h.release [.make .write 0, .make .read 35] .destroy
    ⟨⟨0, true, 0⟩, [⟨.read, true, false⟩, ⟨.write, true, true⟩]⟩
    ⟨⟨0, false, 1⟩, [⟨.write, true, true⟩]⟩ ⟨.read, true, false⟩ (by simp) (by decide) (by decide)
    (by decide)
  exact absurd (hstale.mp rfl) (by decide)

end Scopes
end Ppcode
