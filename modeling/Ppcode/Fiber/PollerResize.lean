import Ppcode.Core.LTS
import Ppcode.Fiber.FdTable
import Ppcode.Fiber.Poller

/-!
# Growing the poller's table under the read lock

`addEvent` compares the size of `m_fdContexts` with fd and calls `resize(fd * 2)`,
both under the read lock, so several threads may be between the two. Here the table
holds the addresses of the contexts, and the test, `resize`, the access to the table
and `epoll_ctl` are steps.

* `keepsIdentity_iff`: the table never loses a context, and the kernel and the table
  have the same one for each fd, all along a run exactly when no `resize` is to a
  size below the present one.
* `two_contexts`: two threads that grow the table leave fd 135 with a context in the
  kernel and another in the table.
-/
namespace Ppcode.PollerResize

/-- Control point of a thread in `addEvent`. -/
inductive Pc where
  | idle
  /-- :74 -/
  | test (fd : Nat)
  /-- :75 -/
  | resize (fd : Nat)
  /-- :78, and unlock -/
  | index (fd : Nat)
  /-- :89 -/
  | ctl (fd : Nat) (fd_ctx : Nat)
  deriving DecidableEq, Repr

/-- `fresh` is the address of the next `FdContext`; `kernel` is the `data.ptr` of an fd in the
interest list. -/
structure Sys (n : Nat) where
  m_fdContexts : List Nat
  fresh : Nat
  kernel : Nat → Option Nat
  pcs : Fin n → Pc

inductive Act (n : Nat) where
  | addEvent (t : Fin n) (fd : Nat)
  /-- a thread goes on; `rt` is what `epoll_ctl` returns -/
  | go (t : Fin n) (rt : CtlResult)
  deriving DecidableEq, Repr

namespace Sys
variable {n : Nat}

/-- mirrors src/fiber/poller.cc:59-68 -/
def resize (s : Sys n) (size : Nat) : Sys n :=
  { s with
    m_fdContexts := s.m_fdContexts.take size ++
      List.range' s.fresh (size - s.m_fdContexts.length)
    fresh := s.fresh + (size - s.m_fdContexts.length) }

def setPc (s : Sys n) (t : Fin n) (pc : Pc) : Sys n :=
  { s with pcs := Function.update s.pcs t pc }

/-- `none` is a product that overflows, or an index outside the table.
mirrors src/fiber/poller.cc:70-103 -/
def step (s : Sys n) : Act n → Option (Sys n)
  | .addEvent t fd => if s.pcs t = .idle then some (s.setPc t (.test fd)) else none
  | .go t rt =>
    match s.pcs t with
    | .idle => none
    | .test fd =>
      some (s.setPc t (if intOfSize s.m_fdContexts.length < fd then .resize fd else .index fd))
    | .resize fd => if fd * 2 < 2 ^ 31 then some ((s.resize (fd * 2)).setPc t (.index fd)) else none
    | .index fd => s.m_fdContexts[fd]?.map fun fd_ctx => s.setPc t (.ctl fd fd_ctx)
    | .ctl fd fd_ctx =>
      let kernel := if rt = none then Function.update s.kernel fd (some fd_ctx) else s.kernel
      some ({ s with kernel := kernel }.setPc t .idle)

/-- The constructor.
mirrors src/fiber/poller.cc:40-49 -/
def init : Sys n := resize ⟨[], 0, fun _ => none, fun _ => .idle⟩ 64

/-- The context that `delEvent`, `cancelEvent` and `cancelAll` operate on.
mirrors src/fiber/poller.cc:108-112, 146-150 and 180-184 -/
def found (s : Sys n) (fd : Nat) : Option Nat :=
  if intOfSize s.m_fdContexts.length < fd then none else s.m_fdContexts[fd]?

/-- What a later state of a run keeps, and what holds in it. -/
structure Keeps (s s' : Sys n) : Prop where
  size : s.m_fdContexts.length ≤ s'.m_fdContexts.length
  same : ∀ fd c : Nat, s.m_fdContexts[fd]? = some c → s'.m_fdContexts[fd]? = some c
  kernel : ∀ fd c : Nat, s'.kernel fd = some c → s'.found fd = some c

def KeepsIdentity (s : Sys n) (acts : List (Act n)) : Prop :=
  ∀ pre mid s₁ s₂, pre ++ mid <+: acts → LTS.exec step s pre = some s₁ →
    LTS.exec step s₁ mid = some s₂ → s₁.Keeps s₂

/-- A `resize` does not make the table shorter. -/
def Meets (s : Sys n) : Act n → Prop
  | .addEvent .. => True
  | .go t _ =>
    match s.pcs t with
    | .resize fd => s.m_fdContexts.length ≤ fd * 2
    | _ => True

/-- Whoever has a context has that of the table. -/
structure Agrees (s : Sys n) : Prop where
  size : s.m_fdContexts.length < 2 ^ 31
  held : ∀ t (fd c : Nat), s.pcs t = .ctl fd c → s.m_fdContexts[fd]? = some c
  kernel : ∀ fd c : Nat, s.kernel fd = some c → s.m_fdContexts[fd]? = some c

/-! ## One step -/

theorem getElem?_of_prefix {l l' : List Nat} (h : l <+: l') {i c : Nat} (hc : l[i]? = some c) :
    l'[i]? = some c := by
  obtain ⟨hi, rfl⟩ := List.getElem?_eq_some_iff.mp hc
  exact List.prefix_iff_getElem?.mp h i hi

theorem resize_length (s : Sys n) (size : Nat) : (s.resize size).m_fdContexts.length = size := by
  simp only [resize, List.length_append, List.length_take, List.length_range']
  omega

theorem resize_keeps {s : Sys n} {size : Nat} (h : s.m_fdContexts.length ≤ size) :
    s.m_fdContexts <+: (s.resize size).m_fdContexts := by
  simp only [resize, List.take_of_length_le h]
  exact List.prefix_append _ _

/-- A step that leaves the kernel's list alone and makes the table no shorter. -/
theorem Agrees.grow {s s' : Sys n} (h : s.Agrees) (hsize : s'.m_fdContexts.length < 2 ^ 31)
    (htable : s.m_fdContexts <+: s'.m_fdContexts)
    (hheld : ∀ t (fd c : Nat), s'.pcs t = .ctl fd c →
      s.pcs t = .ctl fd c ∨ s'.m_fdContexts[fd]? = some c)
    (hkernel : s'.kernel = s.kernel) : s'.Agrees where
  size := hsize
  held t fd c hpc := (hheld t fd c hpc).elim
    (fun hold => getElem?_of_prefix htable (h.held t fd c hold)) id
  kernel fd c hc := getElem?_of_prefix htable (h.kernel fd c (hkernel ▸ hc))

/-- A thread that goes on holds what it has read from the table, if anything. -/
theorem held_setPc {s : Sys n} {t : Fin n} {pc : Pc}
    (hpc : ∀ fd c : Nat, pc = .ctl fd c → s.m_fdContexts[fd]? = some c) (t' : Fin n) (fd c : Nat)
    (h : (s.setPc t pc).pcs t' = .ctl fd c) :
    s.pcs t' = .ctl fd c ∨ s.m_fdContexts[fd]? = some c := by
  simp only [setPc] at h
  by_cases htt : t' = t
  · subst htt
    rw [Function.update_self] at h
    exact .inr (hpc fd c h)
  · rw [Function.update_of_ne htt] at h
    exact .inl h

/-- A step meets the condition exactly when the table does not get shorter, and then it keeps what
is in it. -/
theorem step_keeps {s s' : Sys n} {a : Act n} (h : s.Agrees) (hst : s.step a = some s') :
    (s.Meets a ↔ s.m_fdContexts.length ≤ s'.m_fdContexts.length) ∧
    (s.Meets a → s.m_fdContexts <+: s'.m_fdContexts ∧ s'.Agrees) := by
  have hsame {s' : Sys n} (htable : s'.m_fdContexts = s.m_fdContexts) (hm : s.Meets a)
      (hag : s'.Agrees) : (s.Meets a ↔ s.m_fdContexts.length ≤ s'.m_fdContexts.length) ∧
      (s.Meets a → s.m_fdContexts <+: s'.m_fdContexts ∧ s'.Agrees) := by
    rw [htable]
    exact ⟨iff_of_true hm (Nat.le_refl _), fun _ => ⟨List.prefix_refl _, hag⟩⟩
  cases a with
  | addEvent t fd =>
    simp only [step, Option.ite_none_right_eq_some, Option.some.injEq] at hst
    obtain ⟨-, rfl⟩ := hst
    exact hsame rfl trivial (h.grow h.size (List.prefix_refl _) (held_setPc (by simp)) rfl)
  | go t rt =>
    simp only [step] at hst
    cases hpc : s.pcs t with
    | idle =>
      rw [hpc] at hst
      cases hst
    | test fd =>
      rw [hpc] at hst
      cases hst
      refine hsame rfl (by simp [Meets, hpc]) (h.grow h.size (List.prefix_refl _) ?_ rfl)
      apply held_setPc
      intro fd' c hc
      split at hc <;> cases hc
    | resize fd =>
      rw [hpc] at hst
      simp only [Option.ite_none_right_eq_some, Option.some.injEq] at hst
      obtain ⟨hfit, rfl⟩ := hst
      have hlen := s.resize_length (fd * 2)
      simp only [Meets, hpc, setPc, hlen, true_and]
      refine fun hle => ⟨resize_keeps hle, ?_⟩
      refine h.grow (by rw [hlen]; exact hfit) (resize_keeps hle) (fun t' fd' c hc => ?_) rfl
      exact held_setPc (s := s.resize (fd * 2)) (by simp) t' fd' c hc
    | index fd =>
      rw [hpc] at hst
      obtain ⟨c, hc, rfl⟩ := Option.map_eq_some_iff.mp hst
      refine hsame rfl (by simp [Meets, hpc]) (h.grow h.size (List.prefix_refl _) ?_ rfl)
      apply held_setPc
      intro fd' c' heq
      cases heq
      exact hc
    | ctl fd c =>
      rw [hpc] at hst
      cases hst
      have hm : s.Meets (.go t rt) := by simp [Meets, hpc]
      by_cases hrt : rt = none
      · simp only [hrt, if_true]
        refine hsame rfl hm ⟨h.size, fun t' fd' c' hc' => ?_, fun fd' c' hc' => ?_⟩
        · exact (held_setPc (by simp) t' fd' c' hc').elim (h.held t' fd' c') id
        · simp only [setPc] at hc'
          by_cases hfd : fd' = fd
          · subst hfd
            rw [Function.update_self] at hc'
            cases hc'
            exact h.held t fd' c hpc
          · rw [Function.update_of_ne hfd] at hc'
            exact h.kernel fd' c' hc'
      · simp only [hrt, if_false]
        exact hsame rfl hm (h.grow h.size (List.prefix_refl _) (held_setPc (by simp)) rfl)

/-! ## Runs -/

theorem run_keeps {s s' : Sys n} {acts : List (Act n)} (h : s.Agrees)
    (hmeet : LTS.StepsMeet step Meets s acts) (hrun : LTS.exec step s acts = some s') :
    s.m_fdContexts <+: s'.m_fdContexts ∧ s'.Agrees := by
  induction acts generalizing s with
  | nil =>
    cases hrun
    exact ⟨List.prefix_refl _, h⟩
  | cons a acts ih =>
    simp only [LTS.exec, Option.bind_eq_some_iff] at hrun
    obtain ⟨s₁, hst, hrun⟩ := hrun
    obtain ⟨hm, hrest⟩ := hmeet s₁ hst
    obtain ⟨htable, hag⟩ := (step_keeps h hst).2 hm
    obtain ⟨htable', hag'⟩ := ih hag hrest hrun
    exact ⟨htable.trans htable', hag'⟩

theorem Agrees.found {s : Sys n} (h : s.Agrees) {fd c : Nat} (hc : s.m_fdContexts[fd]? = some c) :
    s.found fd = some c := by
  have hlt := (List.getElem?_eq_some_iff.mp hc).1
  rw [Sys.found, intOfSize_of_lt h.size, if_neg (by omega), hc]

theorem meets_of_keeps {s : Sys n} {acts : List (Act n)} (h : s.Agrees)
    (hkeep : s.KeepsIdentity acts) : LTS.StepsMeet step Meets s acts := by
  induction acts generalizing s with
  | nil => trivial
  | cons a acts ih =>
    intro s₁ hst
    have hone : s.Keeps s₁ := hkeep [] [a] s s₁ (by simp) rfl (by simp [LTS.exec, hst])
    have hm := (step_keeps h hst).1.mpr hone.size
    refine ⟨hm, ih ((step_keeps h hst).2 hm).2 fun pre mid s₂ s₃ hpre hrun hrun' => ?_⟩
    refine hkeep (a :: pre) mid s₂ s₃ ?_ (by simp [LTS.exec, hst, hrun]) hrun'
    simpa using hpre

theorem agrees_init : (init : Sys n).Agrees :=
  ⟨by simp [init, resize_length], nofun, nofun⟩

/-- No context of the table is lost or replaced, all along a run of any number of threads, exactly
when no `resize` makes the table shorter. -/
theorem keepsIdentity_iff (n : Nat) (acts : List (Act n)) :
    (init : Sys n).KeepsIdentity acts ↔ LTS.StepsMeet step Meets (init : Sys n) acts := by
  refine ⟨meets_of_keeps agrees_init, fun hmeet pre mid s₁ s₂ hpre hrun hrun' => ?_⟩
  obtain ⟨post, rfl⟩ := hpre
  have hag := (run_keeps agrees_init hmeet.front.front hrun).2
  obtain ⟨htable, hag'⟩ := run_keeps hag (hmeet.front.suffix hrun) hrun'
  exact ⟨htable.length_le, fun fd c => getElem?_of_prefix htable,
    fun fd c hc => hag'.found (hag'.kernel fd c hc)⟩

/-- Thread 0 finds the table too short for fd 65 and makes it 130 entries long after thread 1 has
made it 140 for fd 70; fd 135 is added before that, and fd 131 afterwards. -/
theorem two_contexts : ∃ acts : List (Act 2), ∃ s, LTS.exec step init acts = some s ∧
    s.kernel 135 = some 135 ∧ s.found 135 = some 145 ∧ ¬ (init : Sys 2).KeepsIdentity acts := by
  let acts : List (Act 2) :=
    [.addEvent 0 65, .go 0 none, .addEvent 1 70, .go 1 none, .go 1 none, .go 1 none, .go 1 none,
      .addEvent 1 135, .go 1 none, .go 1 none, .go 1 none, .go 0 none,
      .addEvent 1 131, .go 1 none, .go 1 none]
  have hrun : ((LTS.exec step init acts).any fun s =>
      decide (s.kernel 135 = some 135 ∧ s.found 135 = some 145)) = true := by decide +kernel
  obtain ⟨s, hs, hdec⟩ := (Option.any_eq_true _ _).mp hrun
  obtain ⟨hk, hf⟩ := of_decide_eq_true hdec
  refine ⟨acts, s, hs, hk, hf, fun hkeep => ?_⟩
  have hsame := (hkeep acts [] s s (by simp) hs rfl).kernel 135 135 hk
  rw [hf] at hsame
  exact absurd hsame (by decide)

end Sys
end Ppcode.PollerResize
