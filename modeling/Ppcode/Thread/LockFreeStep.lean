import Ppcode.Thread.LockFreeInv

/-!
# What one access of `LockFreeList` does

`threadStep_spec` gives, for every control point, the new shared state in terms
of the history of links: the shared invariant still holds, the other threads
can rely on what they know, the acting thread knows what its next access needs,
nodes are neither lost nor duplicated between the queue, the stack and the
threads, and the values logged are accounted for.

Two accesses of the source can break this. The link compare-and-swap of `push`
(:110) compares the link of the tail it read with 0, without a version, so it
succeeds on a node that has left the queue meanwhile. The compare-and-swap of
`AllocNode` (:182) installs the link of the node that `m_head` shows at a second
read, not of the one it compares with. `StepOk` says that neither happens, and
that `m_id` has not wrapped.
-/
namespace Ppcode.LockFreeList
variable {T : Type} {n : Nat}

/-- The state before an access is not one where the access goes wrong: a link
compare-and-swap that succeeds is on a node of the queue, an allocation that
succeeds has read the same top node twice, and a version is drawn before
`m_id` reaches 2^64. -/
def StepOk (q : LockFreeList T) : Pc T → Prop
  | .allocCas _ old p _ => q.m_head = old → p = old.vals1
  | .pushLink _ _ inp => ∀ k, inp.vals1 = some k → q.next k = .zero →
    ∃ l, q.ChainFrom q.m_out l ∧ k ∈ l
  | .pushId _ _ | .relId _ _ => q.m_id < 2 ^ 64
  | _ => True

/-- The value of a push that has linked its node and not returned. -/
def linked : Pc T → Multiset (Option T)
  | .pushSwing v _ _ => {some v}
  | _ => 0

/-- What a pop that has advanced `m_out` and not returned will return. -/
def taken : Pc T → Multiset (Option T)
  | .relId d _ | .relHead d _ _ | .relNext d _ _ _ | .relCas d _ _ _ => {d}
  | _ => 0

/-- The first `j` values of the history. -/
def Ghost.upTo (g : Ghost T) (j : Nat) : Multiset (Option T) := (g.vals.take j).map some

/-- The node of `r` is linked to the queue, with the value `v`. -/
def Ghost.link (g : Ghost T) (r : Ref) (v : T) : Ghost T :=
  { g with links := g.links ++ [r], vals := g.vals ++ [v] }

/-- The version `i` has been drawn and is not in the queue's history. -/
structure Drawn (g : Ghost T) (q : LockFreeList T) (i : Nat) : Prop where
  lt : i < q.m_id
  ge : q.m_max ≤ i + 1
  unused : i ∉ g.links.map Ref.id

/-- An access at control point `p`, ending at `p'` and logging `rets`. -/
structure StepSpec (p : Pc T) (g : Ghost T) (q : LockFreeList T) (p' : Pc T) (rets : List (Ret T))
    (g' : Ghost T) (q' : LockFreeList T) : Prop where
  inv : SharedInv g' q'
  max : q'.m_max = q.m_max
  rely : Rely p g q g' q'
  know : Local g' q' p'
  own_out : ∀ k, own p' = some k → k ∉ g'.shared
  handover : ∀ k, k ∈ g'.shared ∨ own p' = some k ↔ k ∈ g.shared ∨ own p = some k
  id_le : q.m_id ≤ q'.m_id
  pend : ∀ i, pending p' = some i →
    (pending p = some i ∨ i = q.m_id) ∧ Drawn g' q' i
  links_new : ∀ i ∈ g'.links.map Ref.id, i ∈ g.links.map Ref.id ∨ pending p = some i
  pushed : pushedVals rets + linked p' + g.upTo g.vals.length =
    linked p + g'.upTo g'.vals.length
  popped : poppedVals rets + taken p' + g.upTo g.out = taken p + g'.upTo g'.out

/-! ## Chains of the shared state -/

theorem chainFrom_of_isChain {q : LockFreeList T} :
    ∀ {d : DoublePointer} {l : List Ref}, K.IsChain q.next d l → q.ChainFrom d (K.nodes l)
  | _, [], h => h
  | _, _ :: _, h => ⟨by rw [h.1]; rfl, chainFrom_of_isChain h.2⟩

theorem chainFrom_unique {q : LockFreeList T} :
    ∀ {d : DoublePointer} {l l' : List Nat}, q.ChainFrom d l → q.ChainFrom d l' → l = l'
  | _, [], [], _, _ => rfl
  | _, [], k :: _, h, h' => by
    obtain ⟨h1, -⟩ := h'
    rw [show _ = DoublePointer.zero from h] at h1
    cases h1
  | _, k :: _, [], h, h' => by
    obtain ⟨h1, -⟩ := h
    rw [show _ = DoublePointer.zero from h'] at h1
    cases h1
  | _, k :: l, k' :: l', h, h' => by
    have e : k = k' := Option.some.inj (h.1.symm.trans h'.1)
    subst e
    rw [chainFrom_unique h.2 h'.2]

theorem Ghost.queue_getElem? (g : Ghost T) (j : Nat) : g.queue[j]? = g.links[g.out + j]? := by
  simp [Ghost.queue]

theorem Ghost.mem_queue {g : Ghost T} {j : Nat} {r : Ref} (hj : g.out ≤ j)
    (hr : g.links[j]? = some r) : r ∈ g.queue := by
  have e : g.queue[j - g.out]? = some r := by
    rw [g.queue_getElem?, Nat.add_sub_cancel' hj, hr]
  exact List.mem_of_getElem? e

theorem Ghost.mem_shared_queue {g : Ghost T} {r : Ref} (h : r ∈ g.queue) : r.node ∈ g.shared := by
  have := LinkType.mem_nodes_of_mem (K := K) h
  simp only [Ghost.shared, LinkType.nodes_append, List.mem_append]
  exact .inl this

theorem Ghost.mem_shared_free {g : Ghost T} {r : Ref} (h : r ∈ g.free) : r.node ∈ g.shared := by
  have := LinkType.mem_nodes_of_mem (K := K) h
  simp only [Ghost.shared, LinkType.nodes_append, List.mem_append]
  exact .inr this

section Shared
variable {g : Ghost T} {q q' : LockFreeList T} (I : SharedInv g q)
include I

theorem SharedInv.out_lt : g.out < g.links.length := Nat.lt_of_le_of_lt I.out_le I.inn_lt

theorem SharedInv.at_inj {i j : Nat} {d : DoublePointer} (hi : At g i d) (hj : At g j d) :
    i = j := by
  obtain ⟨r, hr, rfl⟩ := hi
  obtain ⟨r', hr', e⟩ := hj
  have e' : r = r' := Ref.dp_inj e
  subst e'
  obtain ⟨hi, hr⟩ := List.getElem?_eq_some_iff.mp hr
  obtain ⟨hj, hr'⟩ := List.getElem?_eq_some_iff.mp hr'
  have hn : g.links.Nodup := List.Nodup.of_map _ I.ids_nodup
  exact (List.Nodup.getElem_inj_iff hn).mp (hr.trans hr'.symm)

theorem SharedInv.at_in : At g g.inn q.m_in := I.tail

theorem SharedInv.at_out : At g g.out q.m_out := by
  obtain ⟨r, hr⟩ : ∃ r, g.links[g.out]? = some r :=
    ⟨_, List.getElem?_eq_getElem I.out_lt⟩
  have hq : g.queue = r :: g.links.drop (g.out + 1) := by
    obtain ⟨hlt, he⟩ := List.getElem?_eq_some_iff.mp hr
    rw [Ghost.queue, List.drop_eq_getElem_cons hlt, he]
  have := I.queue
  rw [hq] at this
  exact ⟨r, hr, this.1⟩

/-- The link of the node at a position of the queue. -/
theorem SharedInv.next_at {j : Nat} {r : Ref} (hj : g.out ≤ j) (hr : g.links[j]? = some r) :
    q.next r.node = (g.links[j + 1]?).elim .zero Ref.dp := by
  have e : g.queue[j - g.out]? = some r := by
    rw [g.queue_getElem?, Nat.add_sub_cancel' hj, hr]
  have h := I.queue.next_eq e
  rw [g.queue_getElem?] at h
  rw [show g.out + (j - g.out + 1) = j + 1 by omega] at h
  exact h

theorem SharedInv.follows_of_next {j : Nat} {r : Ref} (hj : g.out ≤ j) (hr : g.links[j]? = some r)
    (hn : q.next r.node ≠ .zero) : At g (j + 1) (q.next r.node) := by
  have h := I.next_at hj hr
  cases e : g.links[j + 1]? with
  | none => rw [e] at h; exact absurd h hn
  | some r' => exact ⟨r', e, by rw [h, e]; rfl⟩

theorem SharedInv.queue_ne_nil : g.queue ≠ [] := by
  intro h
  have := congrArg List.length h
  simp only [Ghost.queue, List.length_drop, List.length_nil] at this
  have := I.out_lt
  omega

/-- The link read from a reference that was `m_in`. -/
theorem SharedInv.follows {d : DoublePointer} {j : Nat} {r : Ref} (hd : At g j d) (hj : j ≤ g.inn)
    (hr : g.links[j]? = some r) (hn : q.next r.node ≠ .zero) : Follows g d (q.next r.node) := by
  refine ⟨j, hd, ?_⟩
  rcases Nat.lt_or_eq_of_le hj with hlt | rfl
  · exact .inl hlt
  · exact .inr (I.follows_of_next I.out_le hr hn)

/-- The link read at `out`, when `inp`, which was read after it, differs: `m_in` was past `out`. -/
theorem SharedInv.canTake {r : Ref} {inp : DoublePointer} (h : WasEnds g r.dp inp)
    (hne : inp ≠ r.dp) (hn : q.next r.node ≠ .zero) : CanTake g r.dp (q.next r.node) := by
  obtain ⟨a, b, ha, hb, hab, hao, hbi⟩ := h
  obtain ⟨r₁, hr, he⟩ := id ha
  cases Ref.dp_inj he
  refine ⟨a, ha, ?_⟩
  rcases Nat.lt_or_eq_of_le hao with hlt | rfl
  · exact .inl hlt
  · refine .inr ⟨I.follows_of_next (Nat.le_refl _) hr hn, ?_⟩
    rcases Nat.lt_or_eq_of_le hab with hlt | rfl
    · omega
    · obtain ⟨r', hr', rfl⟩ := hb
      rw [hr] at hr'
      cases hr'
      exact absurd rfl hne

/-- The data read at `next`. -/
theorem SharedInv.canTakeVal {out next : DoublePointer} {k : Nat} (h : CanTake g out next)
    (hk : next.vals1 = some k) : CanTakeVal g out next (q.data k) := by
  obtain ⟨a, ha, hb⟩ := h
  refine ⟨a, ha, ?_⟩
  rcases Nat.lt_or_ge a g.out with hlt | hge
  · exact .inl hlt
  · obtain ⟨⟨r, hr, rfl⟩, hi⟩ := hb.resolve_left (Nat.not_lt_of_ge hge)
    refine .inr ⟨⟨r, hr, rfl⟩, hi, ?_⟩
    have hlt : a < g.vals.length := by
      have := (List.getElem?_eq_some_iff.mp hr).1
      have := I.len
      omega
    obtain ⟨r', hr', hd⟩ := I.data a _ hge (List.getElem?_eq_getElem hlt)
    rw [hr] at hr'
    cases hr'
    cases hk
    rw [hd, List.getElem?_eq_getElem hlt]

/-- A node of the queue whose link is 0 is the last one. -/
theorem SharedInv.last_unique {a b : Ref} {l : List Ref} (ha : a ∈ g.queue)
    (hz : q.next a.node = .zero) (hl : g.queue = l ++ [b]) : a = b := by
  obtain ⟨i, hi⟩ := List.mem_iff_getElem?.mp ha
  have h := I.queue.next_eq hi
  have hlast : g.queue[i + 1]? = none := by
    cases e : g.queue[i + 1]? with
    | none => rfl
    | some r =>
      rw [e, K_node, hz] at h
      exact absurd h.symm r.dp_ne_zero
  have hlen := congrArg List.length hl
  simp only [List.length_append, List.length_singleton] at hlen
  have hlt := (List.getElem?_eq_some_iff.mp hi).1
  have hge := List.getElem?_eq_none_iff.mp hlast
  have hil : i = l.length := by omega
  rw [hl, hil, List.getElem?_append_right (Nat.le_refl _), Nat.sub_self] at hi
  simpa using hi.symm

/-- The invariant speaks only of the nodes in the queue and on the stack. -/
theorem SharedInv.congr (hn : ∀ k ∈ g.shared, q'.next k = q.next k)
    (hd : ∀ k ∈ g.shared, q'.data k = q.data k) (hin : q'.m_in = q.m_in)
    (hout : q'.m_out = q.m_out) (hhead : q'.m_head = q.m_head) (hid : q'.m_id = q.m_id)
    (hmax : q'.m_max = q.m_max) : SharedInv g q' where
  len := I.len
  out_le := I.out_le
  inn_lt := I.inn_lt
  queue := by
    rw [hout]
    exact I.queue.congr fun k hk => hn k (by simp [Ghost.shared, hk])
  tail := by rw [hin]; exact I.tail
  stack := by
    rw [hhead]
    exact I.stack.congr fun k hk => hn k (by simp [Ghost.shared, hk])
  nodup := I.nodup
  data j v hj hv := by
    obtain ⟨r, hr, hd'⟩ := I.data j v hj hv
    have hm := Ghost.mem_shared_queue (g.mem_queue (Nat.le_succ_of_le hj) hr)
    exact ⟨r, hr, by rw [hd _ hm, hd']⟩
  ids_nodup := I.ids_nodup
  ids_lt := by rw [hid]; exact I.ids_lt
  free_seen := I.free_seen
  seen_lt := by rw [hid, hmax]; exact I.seen_lt
  id_ge := by rw [hid, hmax]; exact I.id_ge
  id_ge' := by rw [hid, hmax]; exact I.id_ge'

theorem SharedInv.incr : SharedInv g { q with m_id := q.m_id + 1 } :=
  { I with
    ids_lt := fun r hr => Nat.lt_succ_of_lt (I.ids_lt r hr)
    seen_lt := fun r hr => by
      have := I.seen_lt r hr
      simp only
      omega
    id_ge := by have := I.id_ge; simp only; omega
    id_ge' := fun h => by have := I.id_ge' h; simp only; omega }

/-- `m_in` is only moved to the next link of the history. -/
theorem SharedInv.casIn {inp next : DoublePointer} (h : Follows g inp next) :
    ∃ i, g.inn ≤ i ∧ SharedInv { g with inn := i } (q.casIn inp next) := by
  unfold LockFreeList.casIn
  split
  · rename_i e
    obtain ⟨j, hj, hf⟩ := h
    have hji : j = g.inn := I.at_inj hj (by rw [← e]; exact I.at_in)
    subst hji
    have hnext : At g (g.inn + 1) next := hf.resolve_left (Nat.lt_irrefl _)
    obtain ⟨r, hr, hd⟩ := hnext
    refine ⟨g.inn + 1, Nat.le_succ _, { I with out_le := ?_, inn_lt := ?_, tail := ⟨r, hr, hd⟩ }⟩
    · exact Nat.le_succ_of_le I.out_le
    · exact (List.getElem?_eq_some_iff.mp hr).1
  · exact ⟨g.inn, Nat.le_refl _, I⟩

/-- The node whose link a push compares with 0 is the last one. -/
theorem SharedInv.last {k : Nat} (hz : q.next k = .zero) (hq : k ∈ K.nodes g.queue) :
    ∃ l a, g.queue = l ++ [a] ∧ a.node = k := by
  obtain ⟨a, ha, hak⟩ := List.mem_map.mp hq
  rw [K_node] at hak
  obtain ⟨l, b, hlb⟩ : ∃ l b, g.queue = l ++ [b] :=
    (List.eq_nil_or_concat' g.queue).resolve_left I.queue_ne_nil
  have hab : a = b := I.last_unique ha (by rw [hak, hz]) hlb
  exact ⟨l, a, by rw [hlb, hab], hak⟩

theorem SharedInv.link_queue (r : Ref) (v : T) : (g.link r v).queue = g.queue ++ [r] :=
  List.drop_append_of_le_length (Nat.le_of_lt I.out_lt)

/-- The new node is in the queue, and nothing else has changed place. -/
theorem SharedInv.link_shared (r : Ref) (v : T) :
    (g.link r v).shared.Perm (r.node :: g.shared) := by
  unfold Ghost.shared
  rw [I.link_queue]
  simp only [LinkType.nodes_append, LinkType.nodes_cons, K_node, List.append_assoc,
    List.cons_append, List.nil_append]
  exact List.perm_middle

theorem SharedInv.not_free {k : Nat} (hq : k ∈ K.nodes g.queue) : k ∉ K.nodes g.free := by
  have hnd := I.nodup
  simp only [Ghost.shared, LinkType.nodes_append] at hnd
  exact fun h => (List.nodup_append.mp hnd).2.2 k hq k h rfl

/-- The last node of the queue, `k`, is linked to the node of `r`. -/
theorem SharedInv.link {r : Ref} {v : T} {k : Nat} (hz : q.next k = .zero)
    (hq : k ∈ K.nodes g.queue) (hr : r.node ∉ g.shared) (hd : q.data r.node = some v)
    (hn : q.next r.node = .zero) (hid : Drawn g q r.id) :
    SharedInv (g.link r v) (q.setNext k r.dp) where
  len := by simp [Ghost.link, I.len]
  out_le := I.out_le
  inn_lt := by
    simp only [Ghost.link, List.length_append]
    exact Nat.lt_add_right _ I.inn_lt
  queue := by
    obtain ⟨l, a, hlb, hak⟩ := I.last hz hq
    have hchain := I.queue
    have hqnd : (K.nodes g.queue).Nodup := by
      have hnd := I.nodup
      simp only [Ghost.shared, LinkType.nodes_append] at hnd
      exact (List.nodup_append.mp hnd).1
    have hrq : K.node r ∉ K.nodes g.queue := by
      intro h
      rw [K_node] at h
      exact hr (by simp [Ghost.shared, h])
    rw [hlb] at hchain hqnd hrq
    have hnull : q.next (K.node r) = K.null := hn
    have h := LinkType.isChain_append hnull hqnd hrq hchain
    rw [K_node, hak] at h
    rw [setNext_next, I.link_queue, hlb, List.append_assoc]
    exact h
  tail := by
    obtain ⟨r', hr', he⟩ := I.tail
    exact ⟨r', getElem?_prefix (List.prefix_append _ _) hr', he⟩
  stack := by
    rw [setNext_next]
    exact LinkType.isChain_update (I.not_free hq) I.stack
  nodup := (I.link_shared r v).nodup_iff.mpr (List.nodup_cons.mpr ⟨hr, I.nodup⟩)
  data i w hi hw := by
    rw [setNext_data]
    rcases Nat.lt_or_ge i g.vals.length with hlt | hge
    · rw [Ghost.link, List.getElem?_append_left hlt] at hw
      obtain ⟨r', hr', hd'⟩ := I.data i w hi hw
      exact ⟨r', getElem?_prefix (List.prefix_append _ _) hr', hd'⟩
    · rw [Ghost.link, List.getElem?_append_right hge, List.getElem?_singleton] at hw
      split at hw
      · cases hw
        have hlen := I.len
        refine ⟨r, ?_, hd⟩
        rw [show i + 1 = g.links.length by omega]
        simp [Ghost.link]
      · cases hw
  ids_nodup := by
    rw [Ghost.link, List.map_append, List.map_singleton]
    refine List.Nodup.append I.ids_nodup (List.nodup_singleton _) ?_
    rw [List.disjoint_singleton]
    exact hid.unused
  ids_lt r' hr' := by
    rcases List.mem_append.mp hr' with h | h
    · exact I.ids_lt r' h
    · rw [List.mem_singleton.mp h]
      exact hid.lt
  free_seen := I.free_seen
  seen_lt := I.seen_lt
  id_ge := I.id_ge
  id_ge' _ := Nat.le_trans hid.ge hid.lt

/-- The tail that a push has read is followed by what it links to it. -/
theorem SharedInv.follows_link {r : Ref} {v : T} {inp : DoublePointer} {k : Nat}
    (hin : WasIn g inp) (hk : inp.vals1 = some k) (hz : q.next k = .zero) :
    Follows (g.link r v) inp r.dp := by
  obtain ⟨j, hj, ra, hra, hdp⟩ := hin
  refine ⟨j, At.mono (List.prefix_append _ _) ⟨ra, hra, hdp⟩, ?_⟩
  rcases Nat.lt_or_eq_of_le hj with hlt | hje
  · exact .inl hlt
  · subst hje
    have hran : ra.node = k := by
      rw [hdp, Ref.dp_vals1, Option.some.injEq] at hk
      exact hk
    have hend : g.links[g.inn + 1]? = none := by
      have h := I.next_at I.out_le hra
      cases e : g.links[g.inn + 1]? with
      | none => rfl
      | some r' =>
        rw [e, hran, hz] at h
        exact absurd h.symm r'.dp_ne_zero
    have hlen : g.inn + 1 = g.links.length :=
      Nat.le_antisymm I.inn_lt (List.getElem?_eq_none_iff.mp hend)
    refine .inr ⟨r, ?_, rfl⟩
    rw [hlen]
    simp [Ghost.link]

end Shared

/-! ## One lemma for each kind of access -/

theorem Rely.refl (p : Pc T) (g : Ghost T) (q : LockFreeList T) : Rely p g q g q where
  links := List.prefix_refl _
  vals := List.prefix_refl _
  out_le := Nat.le_refl _
  inn_le := Nat.le_refl _
  seen _ h := h
  seen_new _ h := .inl h
  free _ _ h := ⟨h, rfl⟩
  frame _ _ _ := ⟨rfl, rfl⟩

/-- A node that moves between the shared structures and a thread is in one of them. -/
theorem handed_over {l l' : List Nat} {k : Nat} (h : l.Perm (k :: l')) (i : Nat) :
    i ∈ l ∨ (none : Option Nat) = some i ↔ i ∈ l' ∨ some k = some i := by
  rw [h.mem_iff, List.mem_cons, Option.some.injEq]
  constructor
  · intro hor
    rcases hor with (hk | hl) | hn
    · exact .inr hk.symm
    · exact .inl hl
    · cases hn
  · intro hor
    rcases hor with hl | hk
    · exact .inl (.inr hl)
    · exact .inl (.inl hk.symm)

section Kinds
variable {p p' : Pc T} {g : Ghost T} {q : LockFreeList T} {rets : List (Ret T)} (I : SharedInv g q)
  (hO : ∀ k, own p = some k → k ∉ g.shared)
  (hP : ∀ i, pending p = some i → Drawn g q i)
include I

/-- `AllocNode` takes the top of the stack. -/
theorem StepSpec.alloc {r : Ref} {next : DoublePointer} (hh : q.m_head = r.dp)
    (hn : r ∈ g.free → next = q.next r.node) (hop : own p = none) (hk : ∀ g' q', Local g' q' p')
    (ho : own p' = some r.node) (hp : pending p' = none)
    (hl : pushedVals rets + linked p' = linked p) (ht : poppedVals rets + taken p' = taken p) :
    ∃ g', StepSpec p g q p' rets g' { q with m_head := next } := by
  have hst := I.stack
  rw [hh] at hst
  obtain ⟨free', hfree, hst'⟩ := LinkType.isChain_emb hst
  have hmem : r ∈ g.free := by rw [hfree]; exact List.mem_cons_self
  have hperm : g.shared.Perm (r.node :: K.nodes (g.queue ++ free')) := by
    simp only [Ghost.shared, hfree, LinkType.nodes_append, LinkType.nodes_cons]
    exact List.perm_middle
  have hnd := hperm.nodup_iff.mp I.nodup
  refine ⟨{ g with free := free' }, ?_⟩
  exact
    { inv :=
        { I with
          stack := by rw [hn hmem]; exact hst'
          nodup := (List.nodup_cons.mp hnd).2
          free_seen := fun r' hr' => I.free_seen r' (by rw [hfree]; exact List.mem_cons_of_mem _ hr') }
      max := rfl
      rely :=
        { Rely.refl p g q with
          frame := fun _ _ _ => ⟨rfl, rfl⟩
          free := fun r' _ hr' => ⟨by rw [hfree]; exact List.mem_cons_of_mem _ hr', rfl⟩ }
      know := hk _ _
      own_out := fun k e => by
        rw [ho] at e
        cases e
        exact (List.nodup_cons.mp hnd).1
      handover := fun k => by
        rw [ho, hop]
        exact (handed_over hperm k).symm
      id_le := Nat.le_refl _
      pend := fun i hi => by rw [hp] at hi; cases hi
      links_new := fun i hi => .inl hi
      pushed := by rw [hl]; rfl
      popped := by rw [ht]; rfl }

/-- The compare-and-swap of `pop` on `m_out`. -/
theorem StepSpec.take {out next : DoublePointer} {data : Option T} (hc : CanTakeVal g out next data)
    (hout : q.m_out = out) (hop : own p = none) (hl : linked p = 0) (ht : taken p = 0) :
    ∃ g', StepSpec p g q (.relId data out.vals1) [] g' { q with m_out := next } := by
  obtain ⟨a, ha, hb⟩ := hc
  have hao : a = g.out := I.at_inj ha (by rw [← hout]; exact I.at_out)
  subst hao
  obtain ⟨⟨r', hr', hnext⟩, hin, hdata⟩ := hb.resolve_left (Nat.lt_irrefl _)
  obtain ⟨r, hr, hor⟩ := ha
  have hlt : g.out < g.vals.length := by
    have := (List.getElem?_eq_some_iff.mp hr').1
    have := I.len
    omega
  have hq : g.queue = r :: g.links.drop (g.out + 1) := by
    obtain ⟨hlt, he⟩ := List.getElem?_eq_some_iff.mp hr
    rw [Ghost.queue, List.drop_eq_getElem_cons hlt, he]
  have hnr : q.next r.node = next := by
    rw [I.next_at (Nat.le_refl _) hr, hr', hnext]
    rfl
  have hchain := I.queue
  rw [hq] at hchain
  have hshared : g.shared = r.node :: K.nodes (g.links.drop (g.out + 1) ++ g.free) := by
    simp only [Ghost.shared, hq, List.cons_append, LinkType.nodes_cons, K_node]
  have hnd := I.nodup
  rw [hshared] at hnd
  refine ⟨{ g with out := g.out + 1 }, ?_⟩
  exact
    { inv :=
        { I with
          out_le := hin
          queue := by
            have := hchain.tail
            rw [K_node, hnr] at this
            exact this
          nodup := (List.nodup_cons.mp hnd).2
          data := fun j v hj hv => I.data j v (Nat.le_of_succ_le hj) hv }
      max := rfl
      rely :=
        { Rely.refl p g q with
          out_le := Nat.le_succ _
          frame := fun _ _ _ => ⟨rfl, rfl⟩
          free := fun _ _ h => ⟨h, rfl⟩ }
      know := by
        refine ⟨?_, r.node, by rw [hor, Ref.dp_vals1]⟩
        have := (List.getElem?_eq_some_iff.mp hr').1
        simp only
        omega
      own_out := fun k e => by
        simp only [own, hor, Ref.dp_vals1, Option.some.injEq] at e
        subst e
        exact (List.nodup_cons.mp hnd).1
      handover := fun k => by
        rw [hop, own, hor, Ref.dp_vals1]
        exact (handed_over (.of_eq hshared) k).symm
      id_le := Nat.le_refl _
      pend := fun i hi => by cases hi
      links_new := fun i hi => .inl hi
      pushed := by rw [hl]; rfl
      popped := by
        rw [ht, hdata, List.getElem?_eq_getElem hlt]
        simp only [Ghost.upTo, taken, List.take_succ_eq_append_getElem hlt]
        rw [List.map_append, ← Multiset.coe_add]
        simp [poppedVals, add_comm] }

include hO

/-- An increment of `m_id`. -/
theorem StepSpec.draw (hk : Local g q p') (ho : own p' = own p) (hp : pending p' = some q.m_id)
    (hl : pushedVals rets + linked p' = linked p) (ht : poppedVals rets + taken p' = taken p) :
    StepSpec p g q p' rets g { q with m_id := q.m_id + 1 } where
  inv := I.incr
  max := rfl
  rely := { Rely.refl p g q with frame := fun _ _ _ => ⟨rfl, rfl⟩, free := fun _ _ h => ⟨h, rfl⟩ }
  know := by cases p' <;> exact hk
  own_out := by rw [ho]; exact hO
  handover k := by rw [ho]
  id_le := Nat.le_succ _
  pend i hi := by
    rw [hp] at hi
    cases hi
    refine ⟨.inr rfl, Nat.lt_succ_self _, I.id_ge, fun hm => ?_⟩
    obtain ⟨r, hr, he⟩ := List.mem_map.mp hm
    have := I.ids_lt r hr
    omega
  links_new i hi := .inl hi
  pushed := by rw [hl]
  popped := by rw [ht]

include hP

/-- An access to a field that is not shared yet, or one that changes nothing:
the thread keeps its node and its version. -/
theorem StepSpec.local {q' : LockFreeList T} (hmax : q'.m_max = q.m_max) (hid : q'.m_id = q.m_id)
    (hin : q'.m_in = q.m_in) (hout : q'.m_out = q.m_out) (hhead : q'.m_head = q.m_head)
    (hf : ∀ k, own p ≠ some k → q'.next k = q.next k ∧ q'.data k = q.data k)
    (hk : Local g q' p') (ho : own p' = own p) (hp : pending p' = pending p)
    (hl : pushedVals rets + linked p' = linked p) (ht : poppedVals rets + taken p' = taken p) :
    StepSpec p g q p' rets g q' where
  inv := I.congr (fun k hk => (hf k fun e => hO k e hk).1) (fun k hk => (hf k fun e => hO k e hk).2)
    hin hout hhead hid hmax
  max := hmax
  rely :=
    { Rely.refl p g q with
      free := fun r _ hr => ⟨hr, (hf _ fun e => hO _ e (Ghost.mem_shared_free hr)).1⟩
      frame := fun k hk _ => hf k hk }
  know := hk
  own_out := by rw [ho]; exact hO
  handover k := by rw [ho]
  id_le := Nat.le_of_eq hid.symm
  pend i hi := by
    rw [hp] at hi
    obtain ⟨h1, h2, h3⟩ := hP i hi
    exact ⟨.inl hi, by rw [hid]; exact h1, by rw [hmax]; exact h2, h3⟩
  links_new i hi := .inl hi
  pushed := by rw [hl]
  popped := by rw [ht]

/-- An access that changes nothing. -/
theorem StepSpec.read (hk : Local g q p') (ho : own p' = own p) (hp : pending p' = pending p)
    (hl : pushedVals rets + linked p' = linked p) (ht : poppedVals rets + taken p' = taken p) :
    StepSpec p g q p' rets g q :=
  StepSpec.local I hO hP rfl rfl rfl rfl rfl (fun _ _ => ⟨rfl, rfl⟩) hk ho hp hl ht

/-- The compare-and-swaps that only move `m_in`. -/
theorem StepSpec.casIn {inp next : DoublePointer} (h : Follows g inp next)
    (hk : ∀ g', Rely p g q g' (q.casIn inp next) → Local g' (q.casIn inp next) p')
    (ho : own p' = own p) (hp : pending p' = pending p) (hl : pushedVals rets + linked p' = linked p)
    (ht : poppedVals rets + taken p' = taken p) :
    ∃ g', StepSpec p g q p' rets g' (q.casIn inp next) := by
  obtain ⟨i, hi, hI⟩ := I.casIn h
  have R : Rely p g q { g with inn := i } (q.casIn inp next) :=
    { Rely.refl p g q with
      inn_le := hi
      frame := fun k _ _ => ⟨by rw [casIn_next], by rw [casIn_data]⟩
      free := fun r _ hr => ⟨hr, by rw [casIn_next]⟩ }
  exact ⟨{ g with inn := i },
    { inv := hI
      max := casIn_max q inp next
      rely := R
      know := hk _ R
      own_out := by rw [ho]; exact hO
      handover := fun k => by rw [ho]; exact Iff.rfl
      id_le := by rw [casIn_id]
      pend := fun i hi => by
        rw [hp] at hi
        obtain ⟨h1, h2, h3⟩ := hP i hi
        exact ⟨.inl hi, by rw [casIn_id]; exact h1, by rw [casIn_max]; exact h2, h3⟩
      links_new := fun i hi => .inl hi
      pushed := by rw [hl]; rfl
      popped := by rw [ht]; rfl }⟩

/-- `ReleaseNode` puts its node on the stack. -/
theorem StepSpec.release {r : Ref} (hr : r ∉ g.seen) (hn : q.next r.node = q.m_head)
    (hop : own p = some r.node) (hpp : pending p = some r.id) (hk : ∀ g' q', Local g' q' p')
    (ho : own p' = none) (hp : pending p' = none)
    (hl : pushedVals rets + linked p' = linked p) (ht : poppedVals rets + taken p' = taken p) :
    ∃ g', StepSpec p g q p' rets g' { q with m_head := r.dp } := by
  have hperm : (K.nodes (g.queue ++ r :: g.free)).Perm (r.node :: g.shared) := by
    simp only [Ghost.shared, LinkType.nodes_append, LinkType.nodes_cons]
    exact List.perm_middle
  refine ⟨{ g with free := r :: g.free, seen := r :: g.seen }, ?_⟩
  exact
    { inv :=
        { I with
          stack := ⟨rfl, show K.IsChain q.next (q.next r.node) g.free by rw [hn]; exact I.stack⟩
          nodup := hperm.nodup_iff.mpr (List.nodup_cons.mpr ⟨hO _ hop, I.nodup⟩)
          free_seen := fun r' hr' => by
            rcases List.mem_cons.mp hr' with rfl | h
            · exact List.mem_cons_self
            · exact List.mem_cons_of_mem _ (I.free_seen r' h)
          seen_lt := fun r' hr' => by
            rcases List.mem_cons.mp hr' with rfl | h
            · exact Nat.lt_of_lt_of_le (hP _ hpp).lt (Nat.le_max_left _ _)
            · exact I.seen_lt r' h }
      max := rfl
      rely :=
        { Rely.refl p g q with
          seen := fun r' h => List.mem_cons_of_mem _ h
          seen_new := fun r' h => by
            rcases List.mem_cons.mp h with rfl | h
            · exact .inr hpp
            · exact .inl h
          frame := fun _ _ _ => ⟨rfl, rfl⟩
          free := fun r' hs hr' => by
            rcases List.mem_cons.mp hr' with rfl | h
            · exact absurd hs hr
            · exact ⟨h, rfl⟩ }
      know := hk _ _
      own_out := fun k e => by rw [ho] at e; cases e
      handover := fun k => by
        rw [ho, hop]
        exact handed_over hperm k
      id_le := Nat.le_refl _
      pend := fun i hi => by rw [hp] at hi; cases hi
      links_new := fun i hi => .inl hi
      pushed := by rw [hl]; rfl
      popped := by rw [ht]; rfl }

/-- The link compare-and-swap of `push` on the last node of the queue. -/
theorem StepSpec.link {v : T} {r : Ref} {inp : DoublePointer} {k : Nat} (hin : WasIn g inp)
    (hk : inp.vals1 = some k) (hz : q.next k = .zero) (hq : k ∈ K.nodes g.queue)
    (hop : own p = some r.node) (hpp : pending p = some r.id) (hd : q.data r.node = some v)
    (hn : q.next r.node = .zero) (hl : linked p = 0) (ht : taken p = 0) :
    ∃ g', StepSpec p g q (.pushSwing v r.dp inp) [] g' (q.setNext k r.dp) := by
  refine ⟨g.link r v, ?_⟩
  exact
    { inv := I.link hz hq (hO _ hop) hd hn (hP _ hpp)
      max := rfl
      rely :=
        { Rely.refl p g q with
          links := List.prefix_append _ _
          vals := List.prefix_append _ _
          frame := fun i _ hi => by
            rw [setNext_next, setNext_data, Function.update_of_ne]
            · exact ⟨rfl, rfl⟩
            · intro heq
              subst heq
              exact hi (by simp [Ghost.shared, hq])
          free := fun r' _ hr' => by
            refine ⟨hr', ?_⟩
            rw [setNext_next, Function.update_of_ne]
            intro heq
            subst heq
            exact I.not_free hq (LinkType.mem_nodes_of_mem hr') }
      know := I.follows_link hin hk hz
      own_out := fun i e => by cases e
      handover := fun i => by
        rw [hop]
        exact handed_over (I.link_shared r v) i
      id_le := Nat.le_refl _
      pend := fun i hi => by cases hi
      links_new := fun i hi => by
        simp only [Ghost.link, List.map_append, List.mem_append, List.map_cons, List.map_nil,
          List.mem_singleton] at hi
        rcases hi with h | rfl
        · exact .inl h
        · exact .inr hpp
      pushed := by
        rw [hl]
        simp only [Ghost.link, Ghost.upTo, List.take_length, List.map_append, linked]
        rw [← Multiset.coe_add]
        simp [pushedVals, add_comm]
      popped := by
        rw [ht]
        have hout := I.out_lt
        have hlen := I.len
        simp only [Ghost.link, Ghost.upTo, taken]
        rw [List.take_append_of_le_length (by omega)]
        simp [poppedVals] }

end Kinds

theorem zero_or_ref {g : Ghost T} {q : LockFreeList T} (I : SharedInv g q) :
    q.m_head = .zero ∨ ∃ r, r ∈ g.free ∧ q.m_head = r.dp := by
  have h := I.stack
  cases hf : g.free with
  | nil => rw [hf] at h; exact .inl h
  | cons r l => rw [hf] at h; exact .inr ⟨r, List.mem_cons_self, h.1⟩

/-- **One access.** From a state that satisfies the shared invariant, where the
thread at `p` knows what `Local` says and the access is not one of the two that
go wrong (`StepOk`), the history can be extended so that everything is kept. -/
theorem threadStep_spec {p p' : Pc T} {g : Ghost T} {q q' : LockFreeList T} {rets : List (Ret T)}
    (I : SharedInv g q) (hL : Local g q p) (hO : ∀ k, own p = some k → k ∉ g.shared)
    (hP : ∀ i, pending p = some i → Drawn g q i) (hok : StepOk q p)
    (hst : threadStep q p = some (q', p', rets)) : ∃ g', StepSpec p g q p' rets g' q' := by
  cases p with
  | idle => cases hst
  | allocHead v =>
    simp only [threadStep] at hst
    split at hst
    · cases hst
      exact ⟨g, .read I hO hP trivial rfl rfl rfl rfl⟩
    · rename_i hne
      cases hst
      obtain ⟨r, hr, he⟩ := (zero_or_ref I).resolve_left hne
      exact ⟨g, .read I hO hP ⟨r, I.free_seen r hr, he⟩ rfl rfl rfl rfl⟩
  | allocPtr v old =>
    cases hst
    exact ⟨g, .read I hO hP hL rfl rfl rfl rfl⟩
  | allocNext v old p =>
    obtain ⟨r, hr, ho⟩ := hL
    cases p with
    | none => cases hst
    | some k =>
      cases hst
      refine ⟨g, .read I hO hP ⟨r, hr, ho, fun e _ => ?_⟩ rfl rfl rfl rfl⟩
      cases e
      rfl
  | allocCas v old p next =>
    obtain ⟨r, hr, ho, hn⟩ := hL
    simp only [threadStep] at hst
    split at hst
    · rename_i hh
      cases hst
      have hp : p = some r.node := by
        have := hok hh
        rwa [ho] at this
      refine StepSpec.alloc I (by rw [hh, ho]) (hn hp) rfl (fun _ _ => ⟨r.node, ?_⟩) ?_ rfl rfl rfl
      all_goals rw [ho]; rfl
    · cases hst
      exact ⟨g, .read I hO hP trivial rfl rfl rfl rfl⟩
  | allocClear v ret =>
    obtain ⟨k, rfl⟩ := hL
    cases hst
    refine ⟨g, .local I hO hP rfl rfl rfl rfl rfl (fun i hi => ?_) trivial rfl rfl rfl rfl⟩
    exact setNext_frame q _ hi
  | pushData v k =>
    cases hst
    refine ⟨g, .local I hO hP rfl rfl rfl rfl rfl (fun i hi => ?_) (by simp [Local]) rfl rfl rfl rfl⟩
    exact setData_frame q _ hi
  | pushNext v k =>
    cases hst
    refine ⟨g, .local I hO hP rfl rfl rfl rfl rfl (fun i hi => ?_) ?_ rfl rfl rfl rfl⟩
    · exact setNext_frame q _ hi
    · exact ⟨by simpa [Local] using hL, by simp⟩
  | pushId v k =>
    cases hst
    have hs : size_t q.m_id = q.m_id := Nat.mod_eq_of_lt hok
    rw [hs]
    exact ⟨g, .draw I hO ⟨k, rfl, hL.1, hL.2⟩ rfl rfl rfl rfl⟩
  | pushIn v nn =>
    cases hst
    exact ⟨g, .read I hO hP ⟨hL, g.inn, Nat.le_refl _, I.at_in⟩ rfl rfl rfl rfl⟩
  | pushTail v nn inp =>
    cases hst
    exact ⟨g, .read I hO hP ⟨hL.1, hL.2, rfl⟩ rfl rfl rfl rfl⟩
  | pushTailNext v nn inp tail =>
    obtain ⟨hf, hin, rfl⟩ := hL
    obtain ⟨j, hj, r, hr, rfl⟩ := id hin
    simp only [threadStep, Ref.dp_vals1, Option.map_some, Option.some.injEq] at hst
    split at hst
    · cases hst
      exact ⟨g, .read I hO hP ⟨hf, hin⟩ rfl rfl rfl rfl⟩
    · rename_i hne
      cases hst
      exact ⟨g, .read I hO hP ⟨hf, hin, I.follows ⟨r, hr, rfl⟩ hj hr hne⟩ rfl rfl rfl rfl⟩
  | pushHelp v nn inp next =>
    obtain ⟨hf, hin, hfol⟩ := hL
    cases hst
    refine StepSpec.casIn I hO hP hfol (fun g' R => ⟨?_, hin.stable R⟩) rfl rfl rfl rfl
    simpa [Filled] using hf
  | pushLink v nn inp =>
    obtain ⟨⟨k₀, hk₀, hd, hn⟩, hin⟩ := hL
    obtain ⟨j, hj, r, hr, rfl⟩ := id hin
    simp only [threadStep, Ref.dp_vals1, Option.map_some, Option.some.injEq] at hst
    split at hst
    · rename_i hz
      cases hst
      obtain ⟨l, hl, hkl⟩ := hok _ rfl hz
      have hlq : l = K.nodes g.queue := chainFrom_unique hl (chainFrom_of_isChain I.queue)
      obtain ⟨i, k⟩ := nn
      cases hk₀
      exact StepSpec.link I hO hP (r := ⟨i, k₀⟩) hin rfl hz (by rw [← hlq]; exact hkl) rfl rfl hd hn rfl rfl
    · cases hst
      exact ⟨g, .read I hO hP ⟨k₀, hk₀, hd, hn⟩ rfl rfl rfl rfl⟩
  | pushSwing v nn inp =>
    cases hst
    refine StepSpec.casIn I hO hP hL (fun _ _ => trivial) rfl rfl ?_ rfl
    simp [pushedVals, linked, Ret.accepted]
  | popOut =>
    cases hst
    exact ⟨g, .read I hO hP ⟨g.out, I.at_out, Nat.le_refl _⟩ rfl rfl rfl rfl⟩
  | popIn out =>
    obtain ⟨a, ha, hle⟩ := hL
    cases hst
    exact ⟨g, .read I hO hP
      ⟨a, g.inn, ha, I.at_in, Nat.le_trans hle I.out_le, hle, Nat.le_refl _⟩ rfl rfl rfl rfl⟩
  | popHead out inp =>
    cases hst
    exact ⟨g, .read I hO hP ⟨hL, rfl⟩ rfl rfl rfl rfl⟩
  | popNext out inp head =>
    obtain ⟨hends, rfl⟩ := hL
    obtain ⟨a, b, ha, -, -, hao, -⟩ := id hends
    obtain ⟨r, hr, rfl⟩ := id ha
    simp only [threadStep, Ref.dp_vals1, Option.map_some, Option.some.injEq] at hst
    split at hst
    · cases hst
      exact ⟨g, .read I hO hP trivial rfl rfl rfl rfl⟩
    · rename_i hne
      split at hst
      · rename_i he
        cases hst
        rw [he]
        exact ⟨g, .read I hO hP (I.follows ha (Nat.le_trans hao I.out_le) hr hne) rfl rfl rfl rfl⟩
      · rename_i he
        cases hst
        exact ⟨g, .read I hO hP (I.canTake hends he hne) rfl rfl rfl rfl⟩
  | popHelp inp next =>
    cases hst
    exact StepSpec.casIn I hO hP hL (fun _ _ => trivial) rfl rfl rfl rfl
  | popData out next =>
    cases hk : next.vals1 with
    | none => simp [threadStep, hk] at hst
    | some k =>
      simp only [threadStep, hk, Option.map_some] at hst
      cases hst
      exact ⟨g, .read I hO hP (I.canTakeVal hL hk) rfl rfl rfl rfl⟩
  | popCas out next data =>
    simp only [threadStep] at hst
    split at hst
    · rename_i hh
      cases hst
      exact StepSpec.take I hL hh rfl rfl rfl
    · cases hst
      exact ⟨g, .read I hO hP trivial rfl rfl rfl rfl⟩
  | relId data cur =>
    obtain ⟨hlen, k, rfl⟩ := hL
    simp only [threadStep, Option.bind_some] at hst
    split at hst
    · cases hst
      have hs : size_t q.m_id = q.m_id := Nat.mod_eq_of_lt hok
      rw [hs]
      refine ⟨g, .draw I hO ⟨⟨q.m_id, k⟩, rfl, rfl, fun hc => ?_⟩ rfl rfl rfl rfl⟩
      have := I.seen_lt _ hc
      have := I.id_ge' hlen
      simp only at *
      omega
    · cases hst
  | relHead data k nn =>
    cases hst
    exact ⟨g, .read I hO hP hL rfl rfl rfl rfl⟩
  | relNext data k nn old =>
    cases hst
    refine ⟨g, .local I hO hP rfl rfl rfl rfl rfl (fun i hi => ?_) ⟨hL, by simp⟩ rfl rfl rfl rfl⟩
    exact setNext_frame q _ hi
  | relCas data k nn old =>
    obtain ⟨⟨r, rfl, hk, hr⟩, hn⟩ := hL
    subst hk
    simp only [threadStep] at hst
    split at hst
    · rename_i hh
      cases hst
      exact StepSpec.release I hO hP hr (by rw [hn, hh]) rfl rfl (fun _ _ => trivial) rfl rfl rfl
        (by simp [poppedVals, taken, Ret.returned])
    · cases hst
      exact ⟨g, .read I hO hP ⟨r, rfl, rfl, hr⟩ rfl rfl rfl rfl⟩

end Ppcode.LockFreeList
