import Mathlib.Order.Filter.AtTopBot.Basic
import Mathlib.Order.Filter.AtTopBot.Finite
import Ppcode.Core.LTS

/-!
# Infinite runs and fairness

A path is an infinite run: the state and the step at each time, where a step may be
to stand still. `∀ᶠ t` is "from some time on", `∃ᶠ t` is "again and again".

* `eventually_quiet`: a step that lowers a measure which nothing raises stops to be taken.
* `Fair.disabled`: a fair step that is not taken any more is not possible any more;
  `FairTo.disabled` for a thread that has several steps to choose from.
* `eventually_const`: what does not change from one time to the next is constant.
* `exists_path`: a finite run and then standing still, which is fair where the last
  state has none of the steps in question.
-/
namespace Ppcode.LTS
open Filter
variable {S L : Type} {T : LTS S L} {σ : ℕ → S} {l : ℕ → Option L}

/-- One step of a path; `none` stands still. -/
def Moves (T : LTS S L) (s : S) : Option L → S → Prop
  | none, s' => s' = s
  | some a, s' => T.step s a s'

structure Path (T : LTS S L) (σ : ℕ → S) (l : ℕ → Option L) : Prop where
  init : T.init (σ 0)
  moves : ∀ t, T.Moves (σ t) (l t) (σ (t + 1))

def Enabled (T : LTS S L) (a : L) (s : S) : Prop := ∃ s', T.step s a s'

/-- A step that is possible again and again is taken again and again. -/
def Fair (T : LTS S L) (σ : ℕ → S) (l : ℕ → Option L) (a : L) : Prop :=
  (∃ᶠ t in atTop, T.Enabled a (σ t)) → ∃ᶠ t in atTop, l t = some a

/-! ## From some time on -/

/-- A value that does not rise any more stays the same. -/
theorem eventually_least {α : Type} [LinearOrder α] [WellFoundedLT α] {f : ℕ → α}
    (h : ∀ᶠ t in atTop, f (t + 1) ≤ f t) : ∃ v, ∀ᶠ t in atTop, f t = v := by
  obtain ⟨t₀, h⟩ := eventually_atTop.mp h
  obtain ⟨v, ⟨t₁, ht₁, rfl⟩, hmin⟩ :=
    WellFounded.has_min (wellFounded_lt (α := α)) (f '' Set.Ici t₀) ⟨f t₀, t₀, le_refl t₀, rfl⟩
  refine ⟨f t₁, eventually_atTop.mpr ⟨t₁, fun t ht => ?_⟩⟩
  refine le_antisymm ?_ (not_lt.mp (hmin (f t) ⟨t, le_trans ht₁ ht, rfl⟩))
  induction t, ht using Nat.le_induction with
  | base => exact le_refl _
  | succ t ht ih => exact le_trans (h t (le_trans ht₁ ht)) ih

theorem eventually_const {α : Type} {f : ℕ → α} (h : ∀ᶠ t in atTop, f (t + 1) = f t) :
    ∃ v, ∀ᶠ t in atTop, f t = v := by
  obtain ⟨t₀, h⟩ := eventually_atTop.mp h
  refine ⟨f t₀, eventually_atTop.mpr ⟨t₀, fun t ht => ?_⟩⟩
  induction t, ht using Nat.le_induction with
  | base => rfl
  | succ t ht ih => rw [h t ht, ih]

/-- What does not hold for ever ends at some moment. -/
theorem exists_leave {P : ℕ → Prop} {t : ℕ} (h : P t) (hn : ¬ ∀ t' ≥ t, P t') :
    ∃ u ≥ t, P u ∧ ¬ P (u + 1) := by
  by_contra hcon
  push Not at hcon
  refine hn fun t' ht' => ?_
  induction t', ht' using Nat.le_induction with
  | base => exact h
  | succ t' ht' ih => exact hcon t' ht' ih

/-! ## Paths -/

theorem Path.reachable (h : T.Path σ l) (t : ℕ) : T.Reachable (σ t) := by
  induction t with
  | zero => exact reachable_init h.init
  | succ t ih =>
    have hm := h.moves t
    cases hl : l t with
    | none =>
      rw [hl] at hm
      rw [show σ (t + 1) = σ t from hm]
      exact ih
    | some a =>
      rw [hl] at hm
      exact ih.step hm

/-- What lowers a measure that nothing raises comes to an end. -/
theorem eventually_never {α : Type} [LinearOrder α] [WellFoundedLT α] {f : ℕ → α} {P : ℕ → Prop}
    (h : ∀ᶠ t in atTop, f (t + 1) < f t ∨ ¬ P t ∧ f (t + 1) ≤ f t) : ∀ᶠ t in atTop, ¬ P t := by
  have hle : ∀ᶠ t in atTop, f (t + 1) ≤ f t := by
    filter_upwards [h] with t ht
    rcases ht with hlt | ⟨-, hle⟩
    · exact le_of_lt hlt
    · exact hle
  obtain ⟨v, hv⟩ := eventually_least hle
  filter_upwards [hv, (tendsto_add_atTop_nat 1).eventually hv, h] with t ht ht' hstep
  rcases hstep with hlt | ⟨hne, -⟩
  · rw [ht, ht'] at hlt
    exact absurd hlt (lt_irrefl v)
  · exact hne

/-- A step lowers a measure that nothing raises: it is not taken any more. -/
theorem eventually_quiet {α : Type} [LinearOrder α] [WellFoundedLT α] {f : ℕ → α} {a : L}
    (h : ∀ᶠ t in atTop, f (t + 1) < f t ∨ l t ≠ some a ∧ f (t + 1) ≤ f t) :
    ∀ᶠ t in atTop, l t ≠ some a := eventually_never h

theorem Fair.disabled {a : L} (h : T.Fair σ l a) (hnot : ∀ᶠ t in atTop, l t ≠ some a) :
    ∀ᶠ t in atTop, ¬ T.Enabled a (σ t) := by
  by_contra hcon
  exact h (not_eventually.mp hcon |>.mono fun _ ht => not_not.mp ht) hnot

/-! ## A thread with a choice of steps -/

/-- If one of the steps is possible again and again, one of them is taken again and again. -/
def FairTo (T : LTS S L) (σ : ℕ → S) (l : ℕ → Option L) (A : Set L) : Prop :=
  (∃ᶠ t in atTop, ∃ a ∈ A, T.Enabled a (σ t)) → ∃ᶠ t in atTop, ∃ a ∈ A, l t = some a

theorem FairTo.disabled {A : Set L} (h : T.FairTo σ l A)
    (hnot : ∀ᶠ t in atTop, ¬ ∃ a ∈ A, l t = some a) :
    ∀ᶠ t in atTop, ¬ ∃ a ∈ A, T.Enabled a (σ t) := by
  by_contra hcon
  exact h (not_eventually.mp hcon |>.mono fun _ ht => not_not.mp ht) hnot

/-! ## Runs that end -/

/-- A finite run, and then standing still. -/
theorem exists_path {s s' : S} {ls : List L} (hi : T.init s) (hrun : T.Run s ls s') :
    ∃ σ, T.Path σ (fun t => ls[t]?) ∧ ∀ᶠ t in atTop, σ t = s' := by
  suffices hex : ∃ σ : ℕ → S, σ 0 = s ∧ (∀ t, T.Moves (σ t) ls[t]? (σ (t + 1))) ∧
      ∀ᶠ t in atTop, σ t = s' by
    obtain ⟨σ, h0, hm, hend⟩ := hex
    exact ⟨σ, ⟨by rw [h0]; exact hi, hm⟩, hend⟩
  clear hi
  induction hrun with
  | nil s => exact ⟨fun _ => s, rfl, fun _ => rfl, .of_forall fun _ => rfl⟩
  | @cons s s₁ s' a ls hst _ ih =>
    obtain ⟨σ, h0, hm, hend⟩ := ih
    refine ⟨fun t => t.casesOn s σ, rfl, fun t => ?_, ?_⟩
    · cases t with
      | zero =>
        change T.step s a (σ 0)
        rw [h0]
        exact hst
      | succ t => exact hm t
    · obtain ⟨t₀, hend⟩ := eventually_atTop.mp hend
      refine eventually_atTop.mpr ⟨t₀ + 1, fun t ht => ?_⟩
      cases t with
      | zero => omega
      | succ t => exact hend t (by omega)

/-- A run that has come to a state without the step is fair to it. -/
theorem fair_of_end {s : S} {a : L} (hend : ∀ᶠ t in atTop, σ t = s) (hnot : ¬ T.Enabled a s) :
    T.Fair σ l a := by
  intro hen
  obtain ⟨t, hen, hs⟩ := (hen.and_eventually hend).exists
  rw [hs] at hen
  exact absurd hen hnot

theorem fairTo_of_end {s : S} {A : Set L} (hend : ∀ᶠ t in atTop, σ t = s)
    (hnot : ¬ ∃ a ∈ A, T.Enabled a s) : T.FairTo σ l A := by
  intro hen
  obtain ⟨t, hen, hs⟩ := (hen.and_eventually hend).exists
  rw [hs] at hen
  exact absurd hen hnot

end Ppcode.LTS
