import Mathlib.Data.List.Dedup
import Mathlib.Data.List.Induction

/-!
# A list of which the last counts

A reader goes through a list, takes some of the elements and refuses the others, and ends
with the last that it has taken. Two lists are the same to all readers exactly when they have
the same elements in the order of their last places, which is what `dedup` keeps
(`lastWins_iff`).

`changes` is what an observer sees of a value that is written again and again.
-/
namespace Ppcode

section LastWins
variable {A B : Type}

theorem getLast?_filterMap (f : A → Option B) (l : List A) :
    (l.filterMap f).getLast? = (l.filter fun a => (f a).isSome).getLast?.bind f := by
  induction l using List.reverseRecOn with
  | nil => rfl
  | append_singleton l a ih =>
    rw [List.filterMap_append, List.filter_append]
    cases hf : f a with
    | none => simpa [hf] using ih
    | some b => simp [hf]

variable [DecidableEq A]

/-- An element that comes again later is never the last. -/
theorem getLast?_filter_dedup (p : A → Bool) (l : List A) :
    (l.dedup.filter p).getLast? = (l.filter p).getLast? := by
  induction l with
  | nil => rfl
  | cons a l ih =>
    by_cases hmem : a ∈ l
    · rw [List.dedup_cons_of_mem hmem, ih]
      cases hp : p a with
      | false => rw [List.filter_cons_of_neg (by simp [hp])]
      | true =>
        rw [List.filter_cons_of_pos hp, List.getLast?_cons]
        have hne : l.filter p ≠ [] :=
          List.ne_nil_of_mem (List.mem_filter.mpr ⟨hmem, hp⟩)
        rw [List.getLast?_eq_getLast_of_ne_nil hne]
        rfl
    · rw [List.dedup_cons_of_notMem hmem]
      cases hp : p a with
      | false =>
        rw [List.filter_cons_of_neg (by simp [hp]), List.filter_cons_of_neg (by simp [hp]), ih]
      | true =>
        rw [List.filter_cons_of_pos hp, List.filter_cons_of_pos hp, List.getLast?_cons,
          List.getLast?_cons, ih]

/-- Lists without repetition that are the same to all readers. -/
theorem eq_of_getLast?_filter {s t : List A} (hs : s.Nodup) (ht : t.Nodup)
    (h : ∀ p : A → Bool, (s.filter p).getLast? = (t.filter p).getLast?) : s = t := by
  induction s using List.reverseRecOn generalizing t with
  | nil =>
    have hlast := h fun _ => true
    rw [List.filter_true, List.filter_true] at hlast
    exact (List.getLast?_eq_none_iff.mp hlast.symm).symm
  | append_singleton s a ih =>
    have hlast := h fun _ => true
    rw [List.filter_true, List.filter_true, List.getLast?_concat] at hlast
    obtain ⟨t', rfl⟩ := List.getLast?_eq_some_iff.mp hlast.symm
    have hrest : s = t' := by
      refine ih (List.nodup_append.mp hs).1 (List.nodup_append.mp ht).1 fun p => ?_
      -- a reader that refuses `a` as well
      have hother {u : List A} (hu : (u ++ [a]).Nodup) :
          (u ++ [a]).filter (fun b => p b && decide (b ≠ a)) = u.filter p := by
        have hnew : a ∉ u := fun ha => (List.nodup_append.mp hu).2.2 a ha a (by simp) rfl
        rw [List.filter_append, List.filter_cons_of_neg (by simp), List.filter_nil, List.append_nil]
        refine List.filter_congr fun b hb => ?_
        have hne : b ≠ a := fun heq => hnew (heq ▸ hb)
        simp [hne]
      have hp := h fun b => p b && decide (b ≠ a)
      rwa [hother hs, hother ht] at hp
    rw [hrest]

/-- All readers end with the same element of both lists. -/
theorem lastWins_iff {s t : List A} :
    (∀ p : A → Bool, (s.filter p).getLast? = (t.filter p).getLast?) ↔ s.dedup = t.dedup := by
  constructor
  · intro h
    refine eq_of_getLast?_filter (List.nodup_dedup s) (List.nodup_dedup t) fun p => ?_
    rw [getLast?_filter_dedup, getLast?_filter_dedup, h]
  · intro h p
    rw [← getLast?_filter_dedup p s, ← getLast?_filter_dedup p t, h]

/-- The value after the writes `ws`. -/
def lastOf (v : A) (ws : List A) : A := ws.getLast?.getD v

/-- The writes that change the value, each with the value before. -/
def changes (v : A) : List A → List (A × A)
  | [] => []
  | w :: ws => if w = v then changes v ws else (v, w) :: changes w ws

omit [DecidableEq A] in
theorem lastOf_mem (v : A) (ws : List A) : lastOf v ws = v ∨ lastOf v ws ∈ ws := by
  unfold lastOf
  cases hlast : ws.getLast? with
  | none => exact .inl rfl
  | some w => exact .inr (List.mem_of_getLast? hlast)

omit [DecidableEq A] in
theorem lastOf_append (v : A) (ws ws' : List A) :
    lastOf v (ws ++ ws') = lastOf (lastOf v ws) ws' := by
  unfold lastOf
  rw [List.getLast?_append]
  cases ws'.getLast? <;> rfl

omit [DecidableEq A] in
theorem lastOf_cons (v w : A) (ws : List A) : lastOf v (w :: ws) = lastOf w ws :=
  lastOf_append v [w] ws

theorem changes_append (v : A) (ws ws' : List A) :
    changes v (ws ++ ws') = changes v ws ++ changes (lastOf v ws) ws' := by
  induction ws generalizing v with
  | nil => rfl
  | cons w ws ih =>
    rw [List.cons_append, changes, changes, lastOf_cons, ih, ih]
    split
    · rename_i heq
      rw [heq]
    · rfl

end LastWins

end Ppcode
