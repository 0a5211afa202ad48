import Ppcode.Core.LTS

/-!
# What a run shows, and simulation

A step lets a list of events be seen, which `obs` reads off the state before it and its
label. `T.Trace obs es`: some run of `T` from an initial state shows `es`.

`Simulates.trace`: if each step of `T` is matched by a run of `T'` that shows the same
and keeps a relation on the states, then every trace of `T` is one of `T'`.
-/
namespace Ppcode.LTS
variable {S L S' L' E : Type} {T : LTS S L} {T' : LTS S' L'} {obs : S → L → List E}
  {obs' : S' → L' → List E}

/-- A run with what it shows. -/
inductive Shows (T : LTS S L) (obs : S → L → List E) : S → List E → S → Prop
  | nil (s : S) : Shows T obs s [] s
  | cons {s s' s'' : S} {l : L} {es : List E} :
    T.step s l s' → Shows T obs s' es s'' → Shows T obs s (obs s l ++ es) s''

def Trace (T : LTS S L) (obs : S → L → List E) (es : List E) : Prop :=
  ∃ s s', T.init s ∧ T.Shows obs s es s'

theorem Shows.append {s s' s'' : S} {es es' : List E} (h : T.Shows obs s es s')
    (h' : T.Shows obs s' es' s'') : T.Shows obs s (es ++ es') s'' := by
  induction h with
  | nil => exact h'
  | cons hst _ ih =>
    rw [List.append_assoc]
    exact .cons hst (ih h')

theorem Shows.one {s s' : S} {l : L} (h : T.step s l s') : T.Shows obs s (obs s l) s' := by
  have hone : T.Shows obs s (obs s l ++ []) s' := .cons h (.nil s')
  rwa [List.append_nil] at hone

/-- A replay as a run with what it shows. -/
def shown (f : S → L → Option S) (obs : S → L → List E) : S → List L → List E
  | _, [] => []
  | s, l :: ls => obs s l ++ (f s l).elim [] fun s' => shown f obs s' ls

theorem shows_of_execWith {init : S → Prop} {f : S → L → Option S} {C : S → L → Bool}
    {P : S → L → Prop} (hC : ∀ s l, C s l = true → P s l) :
    ∀ {s : S} {ls : List L} {s' : S}, execWith f C s ls = some s' →
      ((ofFn init f).restrict P).Shows obs s (shown f obs s ls) s'
  | s, [], s', h => by
    cases h
    exact .nil s
  | s, l :: ls, s', h => by
    simp only [execWith] at h
    split at h
    · rename_i hc
      obtain ⟨s₁, hst, h⟩ := Option.bind_eq_some_iff.mp h
      simp only [shown, hst, Option.elim_some]
      exact .cons ⟨hst, hC s l hc⟩ (shows_of_execWith hC h)
    · cases h

/-- Each step of `T` is matched by a run of `T'` that shows the same. -/
structure Simulates (T : LTS S L) (obs : S → L → List E) (T' : LTS S' L')
    (obs' : S' → L' → List E) (R : S → S' → Prop) : Prop where
  init : ∀ s, T.init s → ∃ s', T'.init s' ∧ R s s'
  step : ∀ s l s₁ s', R s s' → T.step s l s₁ → ∃ s₁', T'.Shows obs' s' (obs s l) s₁' ∧ R s₁ s₁'

namespace Simulates
variable {R : S → S' → Prop} (h : T.Simulates obs T' obs' R)
include h

theorem shows {s s₁ : S} {es : List E} (hrun : T.Shows obs s es s₁) {s' : S'} (hR : R s s') :
    ∃ s₁', T'.Shows obs' s' es s₁' ∧ R s₁ s₁' := by
  induction hrun generalizing s' with
  | nil => exact ⟨s', .nil s', hR⟩
  | cons hst _ ih =>
    obtain ⟨s₂', hshow, hR⟩ := h.step _ _ _ _ hR hst
    obtain ⟨s₁', hshow', hR⟩ := ih hR
    exact ⟨s₁', hshow.append hshow', hR⟩

theorem trace {es : List E} (ht : T.Trace obs es) : T'.Trace obs' es := by
  obtain ⟨s, s₁, hi, hrun⟩ := ht
  obtain ⟨s', hi', hR⟩ := h.init s hi
  obtain ⟨s₁', hshow, -⟩ := h.shows hrun hR
  exact ⟨s', s₁', hi', hshow⟩

end Simulates
end Ppcode.LTS
