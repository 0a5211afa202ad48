import Mathlib.Logic.Function.Basic
import Mathlib.Algebra.BigOperators.Fin
import Mathlib.Algebra.Order.BigOperators.Group.Finset

/-!
# Labelled transition systems

The components are modelled as step functions or step relations over an
explicit state. This module has what every one of them uses: runs, reachable
states, the induction rule for invariants (`Inductive.reachable`), the
restriction of a system to the runs whose steps all meet a condition
(`restrict`), projections of one system to another (`reachable_proj`), replay
of a concrete run (`exec`, `execWith`), properties that hold all along a run
exactly when its steps meet a condition (`along_iff`), and the per-thread
bookkeeping shared by the systems whose state has one control point for each
thread (`tsum`).
-/
namespace Ppcode

/-- States `S`, labels `L`, the initial states and the step relation. -/
structure LTS (S L : Type) where
  init : S → Prop
  step : S → L → S → Prop

namespace LTS
variable {S L S' L' : Type}

inductive Run (T : LTS S L) : S → List L → S → Prop
  | nil (s : S) : Run T s [] s
  | cons {s s' s'' : S} {l : L} {ls : List L} :
    T.step s l s' → Run T s' ls s'' → Run T s (l :: ls) s''

/-- `s` ends some run from an initial state. -/
def Reachable (T : LTS S L) (s : S) : Prop := ∃ s₀ ls, T.init s₀ ∧ T.Run s₀ ls s

/-- `I` holds initially and every step keeps it. -/
structure Inductive (T : LTS S L) (I : S → Prop) : Prop where
  init : ∀ s, T.init s → I s
  step : ∀ s l s', I s → T.step s l s' → I s'

theorem Run.invariant {T : LTS S L} {I : S → Prop} (hstep : ∀ s l s', I s → T.step s l s' → I s')
    {s s' : S} {ls : List L} (hr : T.Run s ls s') (h : I s) : I s' := by
  induction hr with
  | nil => exact h
  | cons hs _ ih => exact ih (hstep _ _ _ h hs)

/-- An inductive predicate holds in every reachable state. -/
theorem Inductive.reachable {T : LTS S L} {I : S → Prop} (h : T.Inductive I) (s : S)
    (hr : T.Reachable s) : I s := by
  obtain ⟨s₀, ls, hi, hrun⟩ := hr
  exact hrun.invariant h.step (h.init s₀ hi)

theorem Run.snoc {T : LTS S L} {s s' s'' : S} {ls : List L} {l : L} (hr : T.Run s ls s')
    (h : T.step s' l s'') : T.Run s (ls ++ [l]) s'' := by
  induction hr with
  | nil => exact .cons h (.nil _)
  | cons hs _ ih => exact .cons hs (ih h)

theorem Run.append {T : LTS S L} {s s' s'' : S} {ls ls' : List L} (h : T.Run s ls s')
    (h' : T.Run s' ls' s'') : T.Run s (ls ++ ls') s'' := by
  induction h with
  | nil => exact h'
  | cons hs _ ih => exact .cons hs (ih h')

theorem Reachable.step {T : LTS S L} {s s' : S} {l : L} (hr : T.Reachable s)
    (h : T.step s l s') : T.Reachable s' := by
  obtain ⟨s₀, ls, hi, hrun⟩ := hr
  exact ⟨s₀, ls ++ [l], hi, hrun.snoc h⟩

theorem reachable_init {T : LTS S L} {s : S} (h : T.init s) : T.Reachable s := ⟨s, [], h, .nil s⟩

/-! ## Runs whose steps all meet a condition -/

/-- The runs of `T` in which every step `l` from a state `s` meets `C s l`. -/
def restrict (T : LTS S L) (C : S → L → Prop) : LTS S L where
  init := T.init
  step s l s' := T.step s l s' ∧ C s l

/-! ## Projections -/

/-- If every step of `T` is a step of `T'` on the projected states, or leaves
the projection alone, then reachable states project to reachable states. -/
theorem reachable_proj {T : LTS S L} {T' : LTS S' L'} (p : S → S')
    (hinit : ∀ s, T.init s → T'.init (p s))
    (hstep : ∀ s l s', T.step s l s' → p s' = p s ∨ ∃ l', T'.step (p s) l' (p s'))
    (s : S) (hr : T.Reachable s) : T'.Reachable (p s) := by
  have hind : T.Inductive fun s => T'.Reachable (p s) := by
    refine ⟨fun s h => reachable_init (hinit s h), fun s l s' h hs => ?_⟩
    rcases hstep s l s' hs with e | ⟨l', hl⟩
    · rw [e]; exact h
    · exact h.step hl
  exact hind.reachable s hr

/-! ## Step functions and replay -/

/-- The system of a step function; `none` means that the step is not enabled. -/
def ofFn (init : S → Prop) (f : S → L → Option S) : LTS S L where
  init := init
  step s l s' := f s l = some s'

/-- Replay of a concrete run. -/
def exec (f : S → L → Option S) : S → List L → Option S
  | s, [] => some s
  | s, l :: ls => (f s l).bind fun s' => exec f s' ls

/-- Replay that also checks the condition `C` before every step. -/
def execWith (f : S → L → Option S) (C : S → L → Bool) : S → List L → Option S
  | s, [] => some s
  | s, l :: ls => if C s l then (f s l).bind fun s' => execWith f C s' ls else none

theorem run_of_exec {init : S → Prop} {f : S → L → Option S} :
    ∀ {s : S} {ls : List L} {s' : S}, exec f s ls = some s' → (ofFn init f).Run s ls s'
  | s, [], s', h => by cases h; exact .nil s
  | s, l :: ls, s', h => by
    simp only [exec, Option.bind_eq_some_iff] at h
    obtain ⟨s₁, h₁, h₂⟩ := h
    exact .cons h₁ (run_of_exec h₂)

theorem reachable_of_exec {init : S → Prop} {f : S → L → Option S} {s s' : S} {ls : List L}
    (hi : init s) (h : exec f s ls = some s') : (ofFn init f).Reachable s' :=
  ⟨s, ls, hi, run_of_exec h⟩

theorem exec_append {f : S → L → Option S} (s : S) (ls ls' : List L) :
    exec f s (ls ++ ls') = (exec f s ls).bind fun s' => exec f s' ls' := by
  induction ls generalizing s with
  | nil => rfl
  | cons l ls ih =>
    simp only [List.cons_append, exec, Option.bind_assoc]
    exact Option.bind_congr fun s' _ => ih s'

/-- A replay whose last state passes the test `P` reaches a state with `P`. -/
theorem exists_of_exec {init : S → Prop} {f : S → L → Option S} {P : S → Bool} {s : S}
    (ls : List L) (hi : init s) (h : (exec f s ls).any P = true) :
    ∃ s', (ofFn init f).Reachable s' ∧ P s' = true := by
  obtain ⟨s', hs, hp⟩ := (Option.any_eq_true _ _).mp h
  exact ⟨s', reachable_of_exec hi hs, hp⟩

theorem run_of_execWith {init : S → Prop} {f : S → L → Option S} {C : S → L → Bool}
    {P : S → L → Prop} (hC : ∀ s l, C s l = true → P s l) :
    ∀ {s : S} {ls : List L} {s' : S}, execWith f C s ls = some s' →
      ((ofFn init f).restrict P).Run s ls s'
  | s, [], s', h => by cases h; exact .nil s
  | s, l :: ls, s', h => by
    simp only [execWith] at h
    split at h
    · rename_i hc
      simp only [Option.bind_eq_some_iff] at h
      obtain ⟨s₁, h₁, h₂⟩ := h
      exact .cons ⟨h₁, hC s l hc⟩ (run_of_execWith hC h₂)
    · cases h

/-- As `exists_of_exec`, for a run whose steps all meet the condition `P`. -/
theorem exists_of_execWith {init : S → Prop} {f : S → L → Option S} {C : S → L → Bool}
    {P : S → L → Prop} (hC : ∀ s l, C s l = true → P s l) {B : S → Bool} {s : S} (ls : List L)
    (hi : init s) (h : (execWith f C s ls).any B = true) :
    ∃ s', ((ofFn init f).restrict P).Reachable s' ∧ B s' = true := by
  obtain ⟨s', hs, hb⟩ := (Option.any_eq_true _ _).mp h
  exact ⟨s', ⟨s, ls, hi, run_of_execWith hC hs⟩, hb⟩

/-! ## What holds all along a run -/

/-- Every state that the run visits has `P`. -/
def Along (f : S → L → Option S) (P : S → Prop) : S → List L → Prop
  | s, [] => P s
  | s, l :: ls => P s ∧ ∀ s', f s l = some s' → Along f P s' ls

/-- Every step that the run takes meets `C` in the state before it. -/
def StepsMeet (f : S → L → Option S) (C : S → L → Prop) : S → List L → Prop
  | _, [] => True
  | s, l :: ls => ∀ s', f s l = some s' → C s l ∧ StepsMeet f C s' ls

/-- If a step from a state with `P` leads to one with `P` exactly when it meets `C`, then `P` holds
all along a run exactly when all its steps meet `C`. The invariant `I` and the condition `E` on the
labels may be used. -/
theorem along_iff {f : S → L → Option S} {P I : S → Prop} {C : S → L → Prop} {E : L → Prop}
    (hI : ∀ s l s', I s → f s l = some s' → I s')
    (hstep : ∀ s l s', I s → P s → E l → f s l = some s' → (P s' ↔ C s l)) :
    ∀ {s : S} {ls : List L}, I s → P s → (∀ l ∈ ls, E l) → (Along f P s ls ↔ StepsMeet f C s ls)
  | s, [], _, hp, _ => iff_of_true hp trivial
  | s, l :: ls, hi, hp, he => by
    obtain ⟨hl, hls⟩ := List.forall_mem_cons.mp he
    constructor
    · intro h s' hs
      have hs' := h.2 s' hs
      have hp' : P s' := by
        cases ls with
        | nil => exact hs'
        | cons => exact hs'.1
      exact ⟨(hstep s l s' hi hp hl hs).mp hp',
        (along_iff hI hstep (hI s l s' hi hs) hp' hls).mp hs'⟩
    · intro h
      refine ⟨hp, fun s' hs => ?_⟩
      have hp' := (hstep s l s' hi hp hl hs).mpr (h s' hs).1
      exact (along_iff hI hstep (hI s l s' hi hs) hp' hls).mpr (h s' hs).2

/-- A replay that checks every step goes through only where all steps meet the condition. -/
theorem stepsMeet_of_check {f : S → L → Option S} {B : S → L → Bool} {C : S → L → Prop}
    (hC : ∀ s l, B s l = true → C s l) :
    ∀ {s : S} {ls : List L}, (execWith f B s ls).isSome → StepsMeet f C s ls
  | _, [], _ => trivial
  | s, l :: ls, h => by
    intro s' hs
    simp only [execWith, hs, Option.bind_some] at h
    split at h
    · next hb => exact ⟨hC s l hb, stepsMeet_of_check hC h⟩
    · cases h

/-- Two conditions that agree where the invariant holds, which may look at the rest of the run. -/
theorem stepsMeet_congr {f : S → L → Option S} {C C' : S → L → Prop} {I : S → List L → Prop}
    (h : ∀ s l ls s', I s (l :: ls) → f s l = some s' → (C s l ↔ C' s l) ∧ I s' ls) :
    ∀ {s : S} {ls : List L}, I s ls → (StepsMeet f C s ls ↔ StepsMeet f C' s ls)
  | _, [], _ => Iff.rfl
  | s, l :: ls, hi => by
    refine forall_congr' fun s' => forall_congr' fun hs => ?_
    obtain ⟨hl, hi'⟩ := h s l ls s' hi hs
    exact and_congr hl (stepsMeet_congr h hi')

theorem stepsMeet_of_inv {f : S → L → Option S} {C : S → L → Prop} {I : S → Prop}
    (hI : ∀ s l s', I s → f s l = some s' → C s l ∧ I s') :
    ∀ {s : S} {ls : List L}, I s → StepsMeet f C s ls
  | _, [], _ => trivial
  | s, l :: _, hi => fun s' hs =>
    ⟨(hI s l s' hi hs).1, stepsMeet_of_inv hI (hI s l s' hi hs).2⟩

/-- What is left of a run after its first steps meets the condition, too. -/
theorem StepsMeet.suffix {f : S → L → Option S} {C : S → L → Prop} {post : List L} :
    ∀ {s s' : S} {pre : List L}, StepsMeet f C s (pre ++ post) → exec f s pre = some s' →
      StepsMeet f C s' post
  | s, s', [], h, hr => by
    cases hr
    exact h
  | s, s', l :: ls, h, hr => by
    simp only [exec, Option.bind_eq_some_iff] at hr
    obtain ⟨s₁, hs, hr⟩ := hr
    exact (h s₁ hs).2.suffix hr

theorem StepsMeet.front {f : S → L → Option S} {C : S → L → Prop} {post : List L} :
    ∀ {s : S} {pre : List L}, StepsMeet f C s (pre ++ post) → StepsMeet f C s pre
  | _, [], _ => trivial
  | _, _ :: _, h => fun s' hs => ⟨(h s' hs).1, (h s' hs).2.front⟩

/-- The state that the run ends in has `P`. -/
theorem Along.last {f : S → L → Option S} {P : S → Prop} :
    ∀ {s s' : S} {ls : List L}, Along f P s ls → exec f s ls = some s' → P s'
  | s, s', [], h, hr => by
    cases hr
    exact h
  | s, s', l :: ls, h, hr => by
    simp only [exec, Option.bind_eq_some_iff] at hr
    obtain ⟨s₁, hs, hr⟩ := hr
    exact (h.2 s₁ hs).last hr

end LTS

/-! ## One value for each thread -/

section Threads
variable {P A : Type} [AddCommMonoid A] {n : Nat}

/-- What the control points `pc` of `n` threads contribute together, `f p`
being the contribution of one control point. -/
def tsum (f : P → A) (pc : Fin n → P) : A := ∑ t, f (pc t)

theorem tsum_update (f : P → A) (pc : Fin n → P) (t : Fin n) (p : P) :
    tsum f (Function.update pc t p) + f (pc t) = tsum f pc + f p := by
  unfold tsum
  rw [← Finset.add_sum_erase _ _ (Finset.mem_univ t),
    ← Finset.add_sum_erase Finset.univ (fun j => f (pc j)) (Finset.mem_univ t)]
  have hrest : ∑ j ∈ Finset.univ.erase t, f (Function.update pc t p j) =
      ∑ j ∈ Finset.univ.erase t, f (pc j) := by
    refine Finset.sum_congr rfl fun j hj => ?_
    rw [Function.update_of_ne (Finset.ne_of_mem_erase hj)]
  rw [hrest, Function.update_self]
  ac_rfl

theorem tsum_update_same (f : P → A) (pc : Fin n → P) (t : Fin n) (p : P) (h : f p = f (pc t)) :
    tsum f (Function.update pc t p) = tsum f pc := by
  unfold tsum
  refine Finset.sum_congr rfl fun j _ => ?_
  by_cases hj : j = t
  · subst hj; rw [Function.update_self, h]
  · rw [Function.update_of_ne hj]

theorem tsum_zero (f : P → A) (pc : Fin n → P) (h : ∀ t, f (pc t) = 0) : tsum f pc = 0 :=
  Finset.sum_eq_zero fun t _ => h t

theorem tsum_mono [PartialOrder A] [IsOrderedAddMonoid A] {f g : P → A} (h : ∀ p, f p ≤ g p)
    (pc : Fin n → P) : tsum f pc ≤ tsum g pc :=
  Finset.sum_le_sum fun t _ => h (pc t)

theorem le_tsum (f : P → Nat) (pc : Fin n → P) (t : Fin n) : f (pc t) ≤ tsum f pc :=
  Finset.single_le_sum (f := fun t => f (pc t)) (fun _ _ => Nat.zero_le _) (Finset.mem_univ t)

theorem pair_le_tsum (f : P → Nat) (pc : Fin n → P) {t u : Fin n} (h : t ≠ u) :
    f (pc t) + f (pc u) ≤ tsum f pc := by
  unfold tsum
  rw [← Finset.add_sum_erase _ _ (Finset.mem_univ t)]
  refine Nat.add_le_add_left ?_ _
  exact Finset.single_le_sum (f := fun t => f (pc t)) (fun _ _ => Nat.zero_le _)
    (Finset.mem_erase.mpr ⟨h.symm, Finset.mem_univ u⟩)

end Threads
end Ppcode
