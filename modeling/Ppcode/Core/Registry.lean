import Mathlib.Data.List.Nodup
import Ppcode.Core.LTS

/-!
# Registries of waiters

A registry has slots `A`; a slot holds at most one waiter `W`. A waiter is
registered in a free slot under a name never used before, and leaves it by
being answered or by being withdrawn. `Settled` is what such a registry
guarantees over whole runs: every waiter registered so far is in exactly one of
three conditions (still waiting in its slot, answered once, withdrawn from its
slot), and nobody else is ever answered.

`settled_reachable` is the invariant; a component that answers waiters is
verified by showing that its steps are runs of its registry.
-/
namespace Ppcode

structure Registry (A W : Type) where
  waiting : A → Option W
  issued : List (A × W)
  answered : List (A × W)
  withdrawn : List (A × W)

namespace Registry
variable {A W : Type}

/-- Where a waiter stands. -/
inductive Status (r : Registry A W) (x : A × W) : Prop
  | waiting (h : r.waiting x.1 = some x.2) (ha : x ∉ r.answered) (hw : x ∉ r.withdrawn)
  | answered (h : r.waiting x.1 ≠ some x.2) (ha : x ∈ r.answered) (hw : x ∉ r.withdrawn)
  | withdrawn (h : r.waiting x.1 ≠ some x.2) (ha : x ∉ r.answered) (hw : x ∈ r.withdrawn)

structure Settled (r : Registry A W) : Prop where
  issued_nodup : (r.issued.map Prod.snd).Nodup
  waiting_issued : ∀ a w, r.waiting a = some w → (a, w) ∈ r.issued
  answered_issued : ∀ x ∈ r.answered, x ∈ r.issued
  withdrawn_issued : ∀ x ∈ r.withdrawn, x ∈ r.issued
  answered_nodup : r.answered.Nodup
  status : ∀ x ∈ r.issued, r.Status x

variable {r : Registry A W}

/-- A waiter's name is answered at most once. -/
theorem Settled.answered_snd_nodup (h : r.Settled) : (r.answered.map Prod.snd).Nodup := by
  refine (List.nodup_map_iff_inj_on h.answered_nodup).mpr fun x hx y hy e => ?_
  exact List.inj_on_of_nodup_map h.issued_nodup (h.answered_issued x hx) (h.answered_issued y hy) e

theorem nodup_snoc {B : Type} {l : List B} {b : B} (h : l.Nodup) (hb : b ∉ l) :
    (l ++ [b]).Nodup := by
  rw [← List.concat_eq_append]
  exact h.concat hb

/-! ## Operations -/

inductive Op (A W : Type) where
  | register (a : A) (w : W)
  | answer (a : A)
  | withdraw (a : A)

def empty : Registry A W := ⟨fun _ => none, [], [], []⟩

section
variable [DecidableEq A]

/-- `w` is registered in the slot `a`. -/
def put (r : Registry A W) (a : A) (w : W) : Registry A W :=
  { r with waiting := Function.update r.waiting a (some w), issued := r.issued ++ [(a, w)] }

/-- The waiter `w` of the slot `a` is answered. -/
def answer (r : Registry A W) (a : A) (w : W) : Registry A W :=
  { r with waiting := Function.update r.waiting a none, answered := r.answered ++ [(a, w)] }

/-- The waiter `w` of the slot `a` is withdrawn. -/
def withdraw (r : Registry A W) (a : A) (w : W) : Registry A W :=
  { r with waiting := Function.update r.waiting a none, withdrawn := r.withdrawn ++ [(a, w)] }

theorem Settled.register (h : r.Settled) {a : A} {w : W} (ha : r.waiting a = none)
    (hw : w ∉ r.issued.map Prod.snd) :
    (r.put a w).Settled := by
  have hnew : (a, w) ∉ r.issued := fun hc => hw (List.mem_map_of_mem hc)
  refine
    { issued_nodup := ?_
      waiting_issued := fun b v hb => ?_
      answered_issued := fun x hx => List.mem_append_left _ (h.answered_issued x hx)
      withdrawn_issued := fun x hx => List.mem_append_left _ (h.withdrawn_issued x hx)
      answered_nodup := h.answered_nodup
      status := fun x hx => ?_ }
  · rw [put, List.map_append, List.map_singleton]
    exact nodup_snoc h.issued_nodup hw
  · simp only [put] at hb
    by_cases hba : b = a
    · subst hba
      rw [Function.update_self] at hb
      cases hb
      exact List.mem_append_right _ (List.mem_singleton_self _)
    · rw [Function.update_of_ne hba] at hb
      exact List.mem_append_left _ (h.waiting_issued b v hb)
  · rcases List.mem_append.mp hx with hold | hlast
    · have hxw : x.2 ≠ w := fun e => hw (e ▸ List.mem_map_of_mem hold)
      have hsame : Function.update r.waiting a (some w) x.1 = some x.2 ↔
          r.waiting x.1 = some x.2 := by
        by_cases hxa : x.1 = a
        · rw [hxa, Function.update_self, ha]
          simp [hxw.symm]
        · rw [Function.update_of_ne hxa]
      cases h.status x hold with
      | waiting hx ha hw => exact .waiting (hsame.mpr hx) ha hw
      | answered hx ha hw => exact .answered (mt hsame.mp hx) ha hw
      | withdrawn hx ha hw => exact .withdrawn (mt hsame.mp hx) ha hw
    · rw [List.mem_singleton] at hlast
      subst hlast
      refine .waiting (Function.update_self ..) ?_ ?_
      · exact fun hc => hnew (h.answered_issued _ hc)
      · exact fun hc => hnew (h.withdrawn_issued _ hc)

/-- A slot is vacated: only its waiter changes its status. -/
theorem waiting_vacate {a : A} {w : W} (ha : r.waiting a = some w) (x : A × W) :
    Function.update r.waiting a none x.1 = some x.2 ↔ r.waiting x.1 = some x.2 ∧ x ≠ (a, w) := by
  obtain ⟨b, v⟩ := x
  by_cases hba : b = a
  · subst hba
    rw [Function.update_self, ha]
    simp only [reduceCtorEq, Option.some.injEq, ne_eq, Prod.mk.injEq, true_and, false_iff, not_and,
      not_not]
    exact fun e => e.symm
  · rw [Function.update_of_ne hba]
    simp [hba]

theorem Settled.answer (h : r.Settled) {a : A} {w : W} (ha : r.waiting a = some w) :
    (r.answer a w).Settled := by
  have hmem := h.waiting_issued a w ha
  have hnot : (a, w) ∉ r.answered ∧ (a, w) ∉ r.withdrawn := by
    cases h.status _ hmem with
    | waiting _ h1 h2 => exact ⟨h1, h2⟩
    | answered hx _ _ => exact absurd ha hx
    | withdrawn hx _ _ => exact absurd ha hx
  refine
    { issued_nodup := h.issued_nodup
      waiting_issued := fun b v hb => h.waiting_issued b v ((waiting_vacate ha (b, v)).mp hb).1
      answered_issued := fun x hx => ?_
      withdrawn_issued := h.withdrawn_issued
      answered_nodup := nodup_snoc h.answered_nodup hnot.1
      status := fun x hx => ?_ }
  · rcases List.mem_append.mp hx with hx | hx
    · exact h.answered_issued x hx
    · rw [List.mem_singleton.mp hx]
      exact hmem
  · have hv := waiting_vacate ha x
    by_cases hxa : x = (a, w)
    · refine .answered (fun hc => (hv.mp hc).2 hxa) ?_ (by rw [hxa]; exact hnot.2)
      exact List.mem_append_right _ (List.mem_singleton.mpr hxa)
    · have hans : x ∈ r.answered ++ [(a, w)] ↔ x ∈ r.answered := by simp [hxa]
      cases h.status x hx with
      | waiting h0 h1 h2 => exact .waiting (hv.mpr ⟨h0, hxa⟩) (mt hans.mp h1) h2
      | answered h0 h1 h2 => exact .answered (fun hc => h0 (hv.mp hc).1) (hans.mpr h1) h2
      | withdrawn h0 h1 h2 => exact .withdrawn (fun hc => h0 (hv.mp hc).1) (mt hans.mp h1) h2

theorem Settled.withdraw (h : r.Settled) {a : A} {w : W} (ha : r.waiting a = some w) :
    (r.withdraw a w).Settled := by
  have hmem := h.waiting_issued a w ha
  have hnot : (a, w) ∉ r.answered := by
    cases h.status _ hmem with
    | waiting _ h1 _ => exact h1
    | answered hx _ _ => exact absurd ha hx
    | withdrawn hx _ _ => exact absurd ha hx
  refine
    { issued_nodup := h.issued_nodup
      waiting_issued := fun b v hb => h.waiting_issued b v ((waiting_vacate ha (b, v)).mp hb).1
      answered_issued := h.answered_issued
      withdrawn_issued := fun x hx => ?_
      answered_nodup := h.answered_nodup
      status := fun x hx => ?_ }
  · rcases List.mem_append.mp hx with hx | hx
    · exact h.withdrawn_issued x hx
    · rw [List.mem_singleton.mp hx]
      exact hmem
  · have hv := waiting_vacate ha x
    by_cases hxa : x = (a, w)
    · refine .withdrawn (fun hc => (hv.mp hc).2 hxa) (by rw [hxa]; exact hnot) ?_
      exact List.mem_append_right _ (List.mem_singleton.mpr hxa)
    · have hwd : x ∈ r.withdrawn ++ [(a, w)] ↔ x ∈ r.withdrawn := by simp [hxa]
      cases h.status x hx with
      | waiting h0 h1 h2 => exact .waiting (hv.mpr ⟨h0, hxa⟩) h1 (mt hwd.mp h2)
      | answered h0 h1 h2 => exact .answered (fun hc => h0 (hv.mp hc).1) h1 (mt hwd.mp h2)
      | withdrawn h0 h1 h2 => exact .withdrawn (fun hc => h0 (hv.mp hc).1) h1 (hwd.mpr h2)

end

variable [DecidableEq A] [DecidableEq W]

def step (r : Registry A W) : Op A W → Option (Registry A W)
  | .register a w =>
    if r.waiting a = none ∧ w ∉ r.issued.map Prod.snd then some (r.put a w) else none
  | .answer a => (r.waiting a).map (r.answer a)
  | .withdraw a => (r.waiting a).map (r.withdraw a)

def lts (A W : Type) [DecidableEq A] [DecidableEq W] : LTS (Registry A W) (Op A W) :=
  LTS.ofFn (· = empty) step

theorem settled_inductive : (lts A W).Inductive Settled where
  init := by
    intro r heq
    subst heq
    exact
      { issued_nodup := List.nodup_nil
        waiting_issued := fun a w h => by cases h
        answered_issued := fun x h => by cases h
        withdrawn_issued := fun x h => by cases h
        answered_nodup := List.nodup_nil
        status := fun x h => by cases h }
  step := by
    rintro r (⟨a, w⟩ | ⟨a⟩ | ⟨a⟩) r' h hst
    · simp only [lts, LTS.ofFn, step] at hst
      split at hst
      · rename_i hc
        cases hst
        exact h.register hc.1 hc.2
      · cases hst
    · obtain ⟨w, hw, rfl⟩ := Option.map_eq_some_iff.mp hst
      exact h.answer hw
    · obtain ⟨w, hw, rfl⟩ := Option.map_eq_some_iff.mp hst
      exact h.withdraw hw

theorem settled_reachable (r : Registry A W) (hr : (lts A W).Reachable r) : r.Settled :=
  settled_inductive.reachable r hr

theorem reachable_put {a : A} {w : W} (hr : (lts A W).Reachable r) (ha : r.waiting a = none)
    (hw : w ∉ r.issued.map Prod.snd) : (lts A W).Reachable (r.put a w) :=
  hr.step (l := .register a w) (if_pos ⟨ha, hw⟩)

theorem reachable_answer {a : A} {w : W} (hr : (lts A W).Reachable r) (ha : r.waiting a = some w) :
    (lts A W).Reachable (r.answer a w) :=
  hr.step (l := .answer a) (Option.map_eq_some_iff.mpr ⟨w, ha, rfl⟩)

theorem reachable_withdraw {a : A} {w : W} (hr : (lts A W).Reachable r)
    (ha : r.waiting a = some w) : (lts A W).Reachable (r.withdraw a w) :=
  hr.step (l := .withdraw a) (Option.map_eq_some_iff.mpr ⟨w, ha, rfl⟩)

end Registry
end Ppcode
