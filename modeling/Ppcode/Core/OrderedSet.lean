import Mathlib.Data.List.Nodup
import Mathlib.Order.Lattice

/-!
# Ordered sets under a comparator

A `std::set` as the list of its elements in the order of a comparator `lt`.
Elements are found by comparison only: `find` returns the element that is
neither before nor after the one looked for, `insert` leaves the set alone if
there is such an element.

The comparator may look into data outside the element (a field of the object an
address refers to), so it can change while the set does not. Its meaning is a
key: `KeyOrder lt key`. As long as the list is sorted by the current keys
(`Sorted`), `find` succeeds on exactly the members (`find_eq_some`), `erase`
removes exactly the one it looks for, a bound cuts it in two (`Sorted.cut`), and a
change of the key of a non-member keeps all this (`Sorted.congr`).
-/
namespace Ppcode.OrderedSet
variable {α κ : Type}

section Operations
variable (lt : α → α → Bool) (x : α)

/-- `find`; `none` is `end()`. -/
def find : List α → Option α
  | [] => none
  | y :: l => if lt y x then find l else if lt x y then none else some y

/-- `erase(find(x))`. -/
def erase : List α → List α
  | [] => []
  | y :: l => if lt y x then y :: erase l else if lt x y then y :: l else l

def insert : List α → List α
  | [] => [x]
  | y :: l => if lt y x then y :: insert l else if lt x y then x :: y :: l else y :: l

end Operations

/-- `lt` compares by a key that tells elements apart. -/
structure KeyOrder [LinearOrder κ] (lt : α → α → Bool) (key : α → κ) : Prop where
  inj : Function.Injective key
  lt_iff : ∀ a b, lt a b = true ↔ key a < key b

def Sorted [LinearOrder κ] (key : α → κ) (l : List α) : Prop :=
  l.Pairwise fun a b => key a < key b

section Lemmas
variable [LinearOrder κ] {lt : α → α → Bool} {key : α → κ} {l : List α} {x y : α}

theorem Sorted.nodup (h : Sorted key l) : l.Nodup :=
  List.Pairwise.imp (fun hlt e => absurd (congrArg key e) (ne_of_lt hlt)) h

theorem Sorted.sublist {l' : List α} (h : Sorted key l) (hs : l'.Sublist l) : Sorted key l' :=
  List.Pairwise.sublist hs h

theorem Sorted.congr {key' : α → κ} (h : Sorted key l) (he : ∀ a ∈ l, key' a = key a) :
    Sorted key' l := by
  refine List.Pairwise.imp_of_mem ?_ h
  intro a b ha hb hlt
  rw [he a ha, he b hb]
  exact hlt

theorem Sorted.head_le (h : Sorted key l) {a : α} (ha : l.head? = some a) {b : α} (hb : b ∈ l) :
    key a ≤ key b := by
  cases l with
  | nil => cases ha
  | cons c l =>
    cases ha
    rcases List.mem_cons.mp hb with rfl | hb
    · exact le_refl _
    · exact le_of_lt ((List.pairwise_cons.mp h).1 b hb)

theorem erase_sublist : (erase lt x l).Sublist l := by
  induction l with
  | nil => exact .refl _
  | cons y l ih =>
    unfold erase
    split
    · exact ih.cons_cons y
    · split
      · exact .refl _
      · exact List.sublist_cons_self y l

/-- A test that passes what is before an element which it passes cuts the set in two. -/
theorem Sorted.cut (h : Sorted key l) {p : α → Bool}
    (hp : ∀ a ∈ l, ∀ b ∈ l, key a < key b → p b = true → p a = true) :
    l.takeWhile p = l.filter p ∧ l.dropWhile p = l.filter fun a => !p a := by
  induction l with
  | nil => exact ⟨rfl, rfl⟩
  | cons z l ih =>
    obtain ⟨hz, hl⟩ := List.pairwise_cons.mp h
    cases hpz : p z with
    | true =>
      obtain ⟨htake, hdrop⟩ := ih hl fun a ha b hb =>
        hp a (List.mem_cons_of_mem z ha) b (List.mem_cons_of_mem z hb)
      simp [hpz, htake, hdrop]
    | false =>
      have hnone : ∀ b ∈ l, p b = false := by
        intro b hb
        by_contra hpb
        have hpz' := hp z List.mem_cons_self b (List.mem_cons_of_mem z hb) (hz b hb)
          (Bool.eq_true_of_not_eq_false hpb)
        rw [hpz] at hpz'
        cases hpz'
      constructor
      · rw [List.takeWhile_cons_of_neg (by simp [hpz]), List.filter_cons_of_neg (by simp [hpz]),
          List.filter_eq_nil_iff.mpr (by simpa using hnone)]
      · rw [List.dropWhile_cons_of_neg (by simp [hpz]), List.filter_cons_of_pos (by simp [hpz]),
          List.filter_eq_self.mpr (by simpa using hnone)]

variable (K : KeyOrder lt key)
include K

/-- The three ways `x` can compare with an element. -/
theorem KeyOrder.trichotomy (x y : α) : (lt y x = true ∧ key y < key x) ∨
    (lt y x = false ∧ lt x y = true ∧ key x < key y) ∨
    (lt y x = false ∧ lt x y = false ∧ x = y) := by
  rcases lt_trichotomy (key y) (key x) with h | h | h
  · exact .inl ⟨(K.lt_iff y x).mpr h, h⟩
  · have hxy := K.inj h
    subst hxy
    have hirr : lt y y = false := by
      rw [Bool.eq_false_iff]
      exact fun hc => lt_irrefl _ ((K.lt_iff y y).mp hc)
    exact .inr (.inr ⟨hirr, hirr, rfl⟩)
  · refine .inr (.inl ⟨?_, (K.lt_iff x y).mpr h, h⟩)
    rw [Bool.eq_false_iff]
    exact fun hc => lt_asymm h ((K.lt_iff y x).mp hc)

theorem find_eq_some (h : Sorted key l) : find lt x l = some y ↔ y = x ∧ x ∈ l := by
  induction l with
  | nil => simp [find]
  | cons z l ih =>
    obtain ⟨hz, hl⟩ := List.pairwise_cons.mp h
    unfold find
    rcases K.trichotomy x z with ⟨h1, hlt⟩ | ⟨h1, h2, hlt⟩ | ⟨h1, h2, rfl⟩
    · have hne : x ≠ z := by
        intro heq
        subst heq
        exact lt_irrefl _ hlt
      simp [h1, ih hl, hne]
    · have hnot : x ∉ z :: l := by
        intro hm
        rcases List.mem_cons.mp hm with rfl | hm
        · exact lt_irrefl _ hlt
        · exact lt_asymm hlt (hz x hm)
      simp [h1, h2, hnot]
    · simp [h1, eq_comm]

theorem mem_erase (h : Sorted key l) : y ∈ erase lt x l ↔ y ∈ l ∧ y ≠ x := by
  induction l with
  | nil => simp [erase]
  | cons z l ih =>
    obtain ⟨hz, hl⟩ := List.pairwise_cons.mp h
    unfold erase
    rcases K.trichotomy x z with ⟨h1, hlt⟩ | ⟨h1, h2, hlt⟩ | ⟨h1, h2, rfl⟩
    · have hne : z ≠ x := by
        intro heq
        subst heq
        exact lt_irrefl _ hlt
      simp only [h1, if_true, List.mem_cons, ih hl]
      constructor
      · intro hor
        rcases hor with rfl | hy
        · exact ⟨.inl rfl, hne⟩
        · exact ⟨.inr hy.1, hy.2⟩
      · intro hex
        rcases hex with ⟨rfl | hy, hyx⟩
        · exact .inl rfl
        · exact .inr ⟨hy, hyx⟩
    · have hnot : ∀ y ∈ z :: l, y ≠ x := by
        intro y hm heq
        subst heq
        rcases List.mem_cons.mp hm with rfl | hm
        · exact lt_irrefl _ hlt
        · exact lt_asymm hlt (hz y hm)
      simp only [h1, h2, Bool.false_eq_true, if_false, if_true]
      exact ⟨fun hy => ⟨hy, hnot y hy⟩, fun hy => hy.1⟩
    · simp only [h1, Bool.false_eq_true, if_false, List.mem_cons]
      constructor
      · intro hy
        refine ⟨.inr hy, ?_⟩
        intro heq
        subst heq
        exact lt_irrefl _ (hz y hy)
      · intro hex
        rcases hex with ⟨rfl | hy, hyx⟩
        · exact absurd rfl hyx
        · exact hy

theorem mem_insert : y ∈ insert lt x l ↔ y = x ∨ y ∈ l := by
  induction l with
  | nil => simp [insert]
  | cons z l ih =>
    unfold insert
    rcases K.trichotomy x z with ⟨h1, -⟩ | ⟨h1, h2, -⟩ | ⟨h1, h2, rfl⟩
    · simp only [h1, if_true, List.mem_cons, ih]
      exact or_left_comm
    · simp [h1, h2]
    · simp [h1]

theorem Sorted.insert (h : Sorted key l) : Sorted key (insert lt x l) := by
  induction l with
  | nil => exact List.pairwise_singleton _ _
  | cons z l ih =>
    obtain ⟨hz, hl⟩ := List.pairwise_cons.mp h
    unfold OrderedSet.insert
    rcases K.trichotomy x z with ⟨h1, hlt⟩ | ⟨h1, h2, hlt⟩ | ⟨h1, h2, rfl⟩
    · rw [if_pos h1]
      refine List.pairwise_cons.mpr ⟨fun y hy => ?_, ih hl⟩
      rcases (mem_insert K).mp hy with rfl | hy
      · exact hlt
      · exact hz y hy
    · rw [if_neg (by rw [h1]; decide), if_pos h2]
      refine List.pairwise_cons.mpr ⟨fun y hy => ?_, h⟩
      rcases List.mem_cons.mp hy with rfl | hy
      · exact hlt
      · exact lt_trans hlt (hz y hy)
    · rw [if_neg (by rw [h1]; decide), if_neg (by rw [h2]; decide)]
      exact h

/-- Either the inserted element is the first one, or an element before it was. -/
theorem head_insert (x : α) (l : List α) : (insert lt x l).head? = some x ∨
    ∃ y, l.head? = some y ∧ (insert lt x l).head? = some y ∧ key y < key x := by
  cases l with
  | nil => exact .inl rfl
  | cons z l =>
    unfold insert
    rcases K.trichotomy x z with ⟨h1, hlt⟩ | ⟨h1, h2, -⟩ | ⟨h1, h2, rfl⟩
    · rw [if_pos h1]
      exact .inr ⟨z, rfl, rfl, hlt⟩
    · rw [if_neg (by rw [h1]; decide), if_pos h2]
      exact .inl rfl
    · rw [if_neg (by rw [h1]; decide), if_neg (by rw [h2]; decide)]
      exact .inl rfl

end Lemmas
end Ppcode.OrderedSet
