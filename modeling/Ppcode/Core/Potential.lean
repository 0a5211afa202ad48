import Ppcode.Core.LTS

/-!
# Potentials

A potential prices what there is left to do in a state. Every step uses up one unit of it, and
only a step with an income adds to it; so a run is no longer than its income (`Pays.length_le`).
Steps that undo the work of others are covered when they have been paid for beforehand. The
potential is a relation, and may so depend on what an invariant says exists.

`tsum_move` is the account of one step of one thread: the weights of the other threads rise by
at most `c` each.
-/
namespace Ppcode
namespace LTS
variable {S L : Type} {T : LTS S L} {P : S → ℕ → Prop} {income : L → ℕ}

/-- `P s φ`: the potential `φ` is enough in the state `s`. -/
structure Pays (T : LTS S L) (P : S → ℕ → Prop) (income : L → ℕ) : Prop where
  init : ∀ s, T.init s → P s 0
  step : ∀ s l s' φ, P s φ → T.step s l s' → ∃ φ', P s' φ' ∧ φ' + 1 ≤ φ + income l

theorem Pays.run (h : T.Pays P income) {s s' : S} {ls : List L} (hr : T.Run s ls s') {φ : ℕ}
    (hp : P s φ) : ∃ φ', P s' φ' ∧ φ' + ls.length ≤ φ + (ls.map income).sum := by
  induction hr generalizing φ with
  | nil s => exact ⟨φ, hp, le_refl _⟩
  | cons hstep _ ih =>
    obtain ⟨φ₁, hp₁, hle₁⟩ := h.step _ _ _ φ hp hstep
    obtain ⟨φ₂, hp₂, hle₂⟩ := ih hp₁
    refine ⟨φ₂, hp₂, ?_⟩
    rw [List.length_cons, List.map_cons, List.sum_cons]
    omega

/-- A run is no longer than its income. -/
theorem Pays.length_le (h : T.Pays P income) {s s' : S} {ls : List L} (hi : T.init s)
    (hr : T.Run s ls s') : ls.length ≤ (ls.map income).sum := by
  obtain ⟨φ, -, hle⟩ := h.run hr (h.init s hi)
  omega

end LTS

section Threads
variable {Pc : Type} {n : ℕ} {f f' : Pc → ℕ} {pc : Fin n → Pc} {t : Fin n} {p' : Pc} {c d : ℕ}

/-- One thread moves to `p'`, and the weight of every thread rises by at most `c`. -/
theorem tsum_move (h : ∀ p, f' p ≤ f p + c) (ht : f' p' + d ≤ f (pc t) + c) :
    tsum f' (Function.update pc t p') + d ≤ tsum f pc + n * c := by
  calc tsum f' (Function.update pc t p') + d
      = ∑ u, (f' (Function.update pc t p' u) + if u = t then d else 0) := by
        rw [Finset.sum_add_distrib, Finset.sum_ite_eq' _ t, if_pos (Finset.mem_univ t)]
        rfl
    _ ≤ ∑ u, (f (pc u) + c) := by
        refine Finset.sum_le_sum fun u _ => ?_
        by_cases hu : u = t
        · rw [hu, Function.update_self, if_pos rfl]
          exact ht
        · rw [Function.update_of_ne hu, if_neg hu]
          exact h (pc u)
    _ = tsum f pc + n * c := by
        rw [Finset.sum_add_distrib, Finset.sum_const, Finset.card_univ, Fintype.card_fin,
          smul_eq_mul]
        rfl

end Threads
end Ppcode
