import Mathlib.Logic.Basic

/-!
# Partial functions over a list

`List.mapM` in `Option`: the conversion of every element, or none. What it gives, for a
function that is total on the list (`mapM_of_forall`), for one element (`mapM_mem`), for
two passes (`mapM_mapM`), how long it is (`mapM_length`), and when it is nothing
(`mapM_eq_none`) or one element repeated (`mapM_eq_replicate`).
-/
namespace Ppcode

theorem mapM_of_forall {A B : Type} {f : A → Option B} {g : A → B} {l : List A}
    (h : ∀ x ∈ l, f x = some (g x)) : l.mapM f = some (l.map g) := by
  induction l with
  | nil => rfl
  | cons x l ih =>
    rw [List.mapM_cons, h x (by simp), ih fun x' hx' => h x' (by simp [hx'])]
    rfl

theorem mapM_mem {A B : Type} {f : A → Option B} {l : List A} {ys : List B}
    (h : l.mapM f = some ys) : ∀ w ∈ ys, ∃ x ∈ l, f x = some w := by
  induction l generalizing ys with
  | nil =>
    cases h
    intro w hw
    cases hw
  | cons x l ih =>
    rw [List.mapM_cons] at h
    obtain ⟨w, hw, h⟩ := Option.bind_eq_some_iff.mp h
    obtain ⟨ws, hws, h⟩ := Option.bind_eq_some_iff.mp h
    cases h
    intro w' hw'
    rcases List.mem_cons.mp hw' with rfl | hw'
    · exact ⟨x, by simp, hw⟩
    · obtain ⟨x', hx', hf⟩ := ih hws w' hw'
      exact ⟨x', by simp [hx'], hf⟩

/-- `g` takes back what `f` does. -/
theorem map_of_mapM {A B : Type} {f : A → Option B} {g : B → A} {l : List A} {ys : List B}
    (h : l.mapM f = some ys) (hg : ∀ x y, f x = some y → g y = x) : ys.map g = l := by
  induction l generalizing ys with
  | nil =>
    cases h
    rfl
  | cons x l ih =>
    rw [List.mapM_cons] at h
    obtain ⟨w, hw, h⟩ := Option.bind_eq_some_iff.mp h
    obtain ⟨ws, hws, h⟩ := Option.bind_eq_some_iff.mp h
    cases h
    rw [List.map_cons, hg x w hw, ih hws]

/-- Two passes over a list are one. -/
theorem mapM_mapM {A B C : Type} (f : A → Option B) (g : B → Option C) (l : List A) :
    (l.mapM f).bind (fun ys => ys.mapM g) = l.mapM fun x => (f x).bind g := by
  induction l with
  | nil => rfl
  | cons x l ih =>
    simp only [List.mapM_cons, ← ih]
    cases f x with
    | none => rfl
    | some w =>
      cases l.mapM f with
      | none => cases hg : g w <;> simp [hg]
      | some ws => simp [List.mapM_cons]

theorem mapM_length {A B : Type} {f : A → Option B} {l : List A} {ys : List B}
    (h : l.mapM f = some ys) : ys.length = l.length := by
  induction l generalizing ys with
  | nil =>
    cases h
    rfl
  | cons x l ih =>
    rw [List.mapM_cons] at h
    obtain ⟨w, -, h⟩ := Option.bind_eq_some_iff.mp h
    obtain ⟨ws, hws, h⟩ := Option.bind_eq_some_iff.mp h
    cases h
    rw [List.length_cons, List.length_cons, ih hws]

theorem mapM_eq_none {A B : Type} {f : A → Option B} {l : List A} :
    l.mapM f = none ↔ ∃ x ∈ l, f x = none := by
  induction l with
  | nil => simp
  | cons x l ih =>
    rw [List.mapM_cons]
    cases hx : f x with
    | none => simp [hx]
    | some w => cases hl : l.mapM f <;> simp [hx, hl, ← ih]

theorem mapM_eq_replicate {A B : Type} {f : A → Option B} {l : List A} {w : B} :
    l.mapM f = some (List.replicate l.length w) ↔ ∀ x ∈ l, f x = some w := by
  constructor
  · intro h
    induction l with
    | nil => exact nofun
    | cons x l ih =>
      rw [List.mapM_cons] at h
      obtain ⟨w', hw', h⟩ := Option.bind_eq_some_iff.mp h
      obtain ⟨ws, hws, h⟩ := Option.bind_eq_some_iff.mp h
      obtain ⟨rfl, rfl⟩ := List.cons.inj (Option.some.inj h)
      exact List.forall_mem_cons.mpr ⟨hw', ih hws⟩
  · intro h
    rw [mapM_of_forall h, List.map_const']

end Ppcode
