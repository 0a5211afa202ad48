import Mathlib.Data.List.Nodup
import Mathlib.Logic.Function.Basic

/-!
# Chains of versioned links

A linked structure whose nodes `N` each hold one link `D`. A link is either
`null` or the image `emb r` of a reference `r`, and a reference names a node
(`node r`) besides whatever else it carries, a version for instance. `IsChain
next d l` says that following `next` from the link `d` runs through the
references `l` in order and ends at `null`.

The operations a list-based structure performs on its chain are covered by one
lemma each: overwriting the link of a node outside the chain
(`isChain_update`), taking the first node off (`IsChain.tail`), linking a node
behind the last one (`isChain_append`).
-/
namespace Ppcode

/-- Links `D` built from references `R` to nodes `N`. -/
structure LinkType (R N D : Type) where
  null : D
  emb : R → D
  node : R → N
  emb_inj : Function.Injective emb
  emb_ne_null : ∀ r, emb r ≠ null

namespace LinkType
variable {R N D : Type} (K : LinkType R N D)

def IsChain (next : N → D) : D → List R → Prop
  | d, [] => d = K.null
  | d, r :: l => d = K.emb r ∧ IsChain next (next (K.node r)) l

/-- The nodes of the references `l`. -/
def nodes (l : List R) : List N := l.map K.node

variable {K}

@[simp] theorem nodes_cons (r : R) (l : List R) : K.nodes (r :: l) = K.node r :: K.nodes l := rfl
@[simp] theorem nodes_append (l l' : List R) : K.nodes (l ++ l') = K.nodes l ++ K.nodes l' :=
  List.map_append

theorem mem_nodes_of_mem {r : R} {l : List R} (h : r ∈ l) : K.node r ∈ K.nodes l :=
  List.mem_map_of_mem h

theorem IsChain.congr {next next' : N → D} :
    ∀ {d : D} {l : List R}, (∀ k ∈ K.nodes l, next' k = next k) → K.IsChain next d l →
      K.IsChain next' d l
  | _, [], _, h => h
  | _, r :: l, he, h => by
    refine ⟨h.1, ?_⟩
    rw [he _ (by simp)]
    exact IsChain.congr (fun k hk => he k (by simp [hk])) h.2

theorem isChain_emb {next : N → D} {r : R} {l : List R} (h : K.IsChain next (K.emb r) l) :
    ∃ l', l = r :: l' ∧ K.IsChain next (next (K.node r)) l' := by
  cases l with
  | nil => exact absurd h (K.emb_ne_null r)
  | cons r' l => exact ⟨l, by rw [K.emb_inj h.1], by rw [K.emb_inj h.1]; exact h.2⟩

theorem IsChain.tail {next : N → D} {d : D} {r : R} {l : List R} (h : K.IsChain next d (r :: l)) :
    K.IsChain next (next (K.node r)) l := h.2

/-- The link behind the reference at position `j` is the reference at `j + 1`,
or `null` at the end. -/
theorem IsChain.next_eq {next : N → D} :
    ∀ {d : D} {l : List R} {j : Nat} {r : R}, K.IsChain next d l → l[j]? = some r →
      next (K.node r) = (l[j + 1]?).elim K.null K.emb
  | _, [], _, _, _, hj => by simp at hj
  | _, a :: l, 0, r, h, hj => by
    simp only [List.getElem?_cons_zero, Option.some.injEq] at hj
    subst hj
    cases l with
    | nil => exact h.2
    | cons b l => exact h.2.1
  | _, a :: l, j + 1, r, h, hj => by
    simp only [List.getElem?_cons_succ] at hj ⊢
    exact IsChain.next_eq h.2 hj

section Updates
variable [DecidableEq N]

theorem isChain_update {next : N → D} {d e : D} {l : List R} {k : N} (hk : k ∉ K.nodes l)
    (h : K.IsChain next d l) : K.IsChain (Function.update next k e) d l := by
  refine h.congr fun i hi => ?_
  rw [Function.update_of_ne]
  intro heq
  subst heq
  exact hk hi

theorem isChain_append {next : N → D} {r : R} (hr : next (K.node r) = K.null) :
    ∀ {d : D} {l : List R} {a : R}, (K.nodes (l ++ [a])).Nodup → K.node r ∉ K.nodes (l ++ [a]) →
      K.IsChain next d (l ++ [a]) →
      K.IsChain (Function.update next (K.node a) (K.emb r)) d (l ++ [a, r])
  | _, [], a, _, hm, h => by
    refine ⟨h.1, ?_, ?_⟩
    · rw [Function.update_self]
    · rw [Function.update_of_ne, hr]
      · rfl
      · rintro e
        exact hm (by simp [e])
  | _, b :: l, a, hn, hm, h => by
    simp only [List.cons_append, nodes_cons, List.nodup_cons] at hn
    simp only [List.cons_append, nodes_cons, List.mem_cons, not_or] at hm
    have hba : K.node b ≠ K.node a := by
      intro e
      exact hn.1 (by rw [e]; simp)
    refine ⟨h.1, ?_⟩
    rw [Function.update_of_ne hba]
    exact isChain_append hr hn.2 hm.2 h.2

end Updates
end LinkType
end Ppcode
