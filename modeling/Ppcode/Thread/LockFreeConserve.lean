import Ppcode.Thread.LockFreeStep

/-!
# `LockFreeList` loses and duplicates nothing, except where it goes wrong

`Conserves` is what the list owes its users, for any number of threads: every
value a pop returned was passed to some push, no push is matched by two pops,
and whenever no call is in progress the values in the chain behind `m_out` are
those pushed and not popped, while that chain and the one from `m_head` are
disjoint and hold all `m_max` nodes.

* `conserves_of_safe`: it holds in every run whose accesses all meet `StepOk`.
* `lost_push`: without `StepOk` it fails. With three nodes, a pusher stalls
  before its link compare-and-swap, another thread pushes and pops, so that the
  tail the pusher read becomes the only free node, whose link is 0; the
  compare-and-swap succeeds, the push returns true, and its value is nowhere in
  the queue.
* `double_alloc`: the other access that `StepOk` excludes. `AllocNode` compares
  with one top of the stack and installs the link of another, which returns the
  top that stays on the stack.
-/
namespace Ppcode.LockFreeList
variable {T : Type} {n : Nat}

/-- The value of a push in progress. -/
def inPush : Pc T → Multiset (Option T)
  | .allocHead v | .allocPtr v _ | .allocNext v _ _ | .allocCas v _ _ _ | .allocClear v _
  | .pushData v _ | .pushNext v _ | .pushId v _ | .pushIn v _ | .pushTail v _ _
  | .pushTailNext v _ _ _ | .pushHelp v _ _ _ | .pushLink v _ _ | .pushSwing v _ _ => {some v}
  | _ => 0

/-- What the list owes its users; `m` is the capacity. -/
structure Conserves (m : Nat) (s : Sys T n) : Prop where
  popped_le : poppedVals s.log ≤ pushedVals s.log + tsum inPush s.pc
  quiescent : (∀ t, s.pc t = .idle) → ∃ queue free : List Nat,
    s.q.ChainFrom s.q.m_out queue ∧ s.q.ChainFrom s.q.m_head free ∧
    pushedVals s.log = poppedVals s.log + (queue.tail.map s.q.data : List (Option T)) ∧
    queue.Disjoint free ∧ ∀ k, k < m ↔ k ∈ queue ∨ k ∈ free

/-- The condition on a step: the access is not one of those that go wrong. -/
def Safe (s : Sys T n) : Fin n × Act T → Prop
  | (t, .step) => StepOk s.q (s.pc t)
  | _ => True

/-! ## The invariant of the whole system -/

structure Inv (m : Nat) (g : Ghost T) (s : Sys T n) : Prop where
  shared : SharedInv g s.q
  max : s.q.m_max = m
  know : ∀ t, Local g s.q (s.pc t)
  own_out : ∀ t k, own (s.pc t) = some k → k ∉ g.shared
  own_inj : ∀ t t' k, own (s.pc t) = some k → own (s.pc t') = some k → t = t'
  nodes : ∀ k, k < m ↔ k ∈ g.shared ∨ ∃ t, own (s.pc t) = some k
  drawn : ∀ t i, pending (s.pc t) = some i → Drawn g s.q i
  pend_inj : ∀ t t' i, pending (s.pc t) = some i → pending (s.pc t') = some i → t = t'
  pushed : pushedVals s.log + tsum linked s.pc = g.upTo g.vals.length
  popped : poppedVals s.log + tsum taken s.pc = g.upTo g.out

/-- References `(i, i), …, (m - 1, m - 1)`: what the constructor leaves on the stack. -/
def initFree (m : Nat) : Nat → List Ref
  | 0 => []
  | f + 1 => ⟨m - (f + 1), m - (f + 1)⟩ :: initFree m f

theorem mem_initFree {m : Nat} {r : Ref} :
    ∀ {f : Nat}, f ≤ m → (r ∈ initFree m f ↔ r.id = r.node ∧ m - f ≤ r.node ∧ r.node < m)
  | 0, _ => by simp only [initFree, List.not_mem_nil, false_iff]; omega
  | f + 1, h => by
    rw [initFree, List.mem_cons, mem_initFree (Nat.le_of_succ_le h)]
    obtain ⟨i, k⟩ := r
    simp only [Ref.mk.injEq]
    omega

theorem initFree_nodup {m : Nat} : ∀ {f : Nat}, f ≤ m → (K.nodes (initFree m f)).Nodup
  | 0, _ => List.nodup_nil
  | f + 1, h => by
    rw [initFree, LinkType.nodes_cons, List.nodup_cons]
    refine ⟨fun hc => ?_, initFree_nodup (Nat.le_of_succ_le h)⟩
    obtain ⟨r, hr, hk⟩ := List.mem_map.mp hc
    rw [mem_initFree (Nat.le_of_succ_le h)] at hr
    simp only [K_node] at hk
    omega

def initGhost (m : Nat) : Ghost T := ⟨[⟨0, 0⟩], [], 0, 0, initFree m (m - 1), initFree m (m - 1)⟩

theorem new_next {m : Nat} {k : Nat} (hk : 1 ≤ k) : (new m : LockFreeList T).next k =
    if k + 1 < m then ⟨k + 1, some (k + 1)⟩ else .zero := by
  have hk0 : k ≠ 0 := by omega
  change (setNext _ 0 DoublePointer.zero).next k = _
  rw [setNext_next, Function.update_of_ne hk0]
  rfl

theorem isChain_initFree {m : Nat} {next : Nat → DoublePointer}
    (hnext : ∀ k, 1 ≤ k → next k = if k + 1 < m then ⟨k + 1, some (k + 1)⟩ else .zero) :
    ∀ {f : Nat}, f < m →
      K.IsChain next (if f = 0 then .zero else ⟨m - f, some (m - f)⟩) (initFree m f)
  | 0, _ => rfl
  | f + 1, h => by
    refine ⟨rfl, ?_⟩
    have ih := isChain_initFree hnext (Nat.lt_of_succ_lt h)
    have e : m - (f + 1) + 1 = m - f := by omega
    rw [K_node, hnext (m - (f + 1)) (by omega), e]
    by_cases hf : f = 0
    · subst hf
      rw [if_neg (by omega)]
      exact ih
    · rw [if_neg hf] at ih
      rw [if_pos (by omega)]
      exact ih

/-- The stack of a new list. -/
theorem stack_new {m : Nat} (hm : 1 ≤ m) : K.IsChain (new m : LockFreeList T).next
    (new m : LockFreeList T).m_head (initFree m (m - 1)) := by
  have h : K.IsChain (new m : LockFreeList T).next _ (initFree m (m - 1)) :=
    isChain_initFree (fun k hk => new_next hk) (by omega)
  have hhead : (new m : LockFreeList T).m_head =
      if m - 1 = 0 then .zero else ⟨m - (m - 1), some (m - (m - 1))⟩ := by
    change (if 0 + 1 < m then (⟨0 + 1, some (0 + 1)⟩ : DoublePointer) else .zero) = _
    by_cases h1 : m = 1
    · subst h1
      rfl
    · rw [if_pos (by omega), if_neg (by omega), show m - (m - 1) = 1 by omega]
  rw [hhead]
  exact h

theorem nodup_new (m : Nat) : (0 :: K.nodes (initFree m (m - 1))).Nodup := by
  rw [List.nodup_cons]
  refine ⟨fun hc => ?_, initFree_nodup (Nat.sub_le _ _)⟩
  obtain ⟨r, hr, hk⟩ := List.mem_map.mp hc
  rw [mem_initFree (Nat.sub_le _ _)] at hr
  rw [K_node] at hk
  omega

/-- A new list has all the nodes. -/
theorem nodes_new {m : Nat} (hm : 1 ≤ m) (k : Nat) :
    k ∈ 0 :: K.nodes (initFree m (m - 1)) ↔ k < m := by
  rw [List.mem_cons]
  constructor
  · intro h
    rcases h with rfl | h
    · omega
    · obtain ⟨r, hr, rfl⟩ := List.mem_map.mp h
      rw [mem_initFree (Nat.sub_le _ _)] at hr
      rw [K_node]
      omega
  · intro h
    by_cases hk : k = 0
    · exact .inl hk
    · refine .inr (List.mem_map.mpr ⟨⟨k, k⟩, ?_, rfl⟩)
      rw [mem_initFree (Nat.sub_le _ _)]
      exact ⟨rfl, show m - (m - 1) ≤ k by omega, h⟩

theorem sharedInv_init {m : Nat} (hm : 2 ≤ m) :
    SharedInv (initGhost m) (new m : LockFreeList T) where
  len := rfl
  out_le := Nat.le_refl _
  inn_lt := Nat.one_pos
  queue := ⟨rfl, rfl⟩
  tail := ⟨⟨0, 0⟩, rfl, rfl⟩
  stack := stack_new (by omega)
  nodup := nodup_new m
  data := fun j v _ h => by simp [initGhost] at h
  ids_nodup := List.nodup_singleton _
  ids_lt := fun r hr => by
    rw [initGhost, List.mem_singleton] at hr
    subst hr
    change 0 < m - 1
    omega
  free_seen := fun _ h => h
  seen_lt := fun r hr => by
    rw [initGhost, mem_initFree (Nat.sub_le _ _)] at hr
    have hmax : (new m : LockFreeList T).m_max = m := rfl
    rw [hmax]
    omega
  id_ge := by
    change m ≤ m - 1 + 1
    omega
  id_ge' := fun h => absurd h (by simp [initGhost])

theorem inv_init {m : Nat} (hm : 2 ≤ m) : Inv m (initGhost m) (init m : Sys T n) where
  shared := sharedInv_init hm
  max := rfl
  know _ := trivial
  own_out t k h := by cases h
  own_inj t _ k h := by cases h
  nodes k := by
    change k < m ↔ k ∈ 0 :: K.nodes (initFree m (m - 1)) ∨ ∃ t : Fin n, (none : Option Nat) = some k
    rw [nodes_new (by omega)]
    simp only [reduceCtorEq, exists_false, or_false]
  drawn t i h := by cases h
  pend_inj t _ i h := by cases h
  pushed := by
    rw [tsum_zero linked _ fun _ => rfl]
    rfl
  popped := by
    rw [tsum_zero taken _ fun _ => rfl]
    rfl

/-! ## Steps -/

/-- A call starts: the thread owns nothing and knows nothing yet. -/
theorem Inv.call {m : Nat} {g : Ghost T} {s : Sys T n} (I : Inv m g s) {t : Fin n} {p : Pc T}
    (hpc : s.pc t = .idle) (hown : own p = none) (hpend : pending p = none) (hlink : linked p = 0)
    (htake : taken p = 0) (hknow : Local g s.q p) :
    Inv m g { s with pc := Function.update s.pc t p } := by
  have hown' : ∀ t', own (Function.update s.pc t p t') = own (s.pc t') := fun t' => by
    by_cases h : t' = t
    · subst h; rw [Function.update_self, hown, hpc]; rfl
    · rw [Function.update_of_ne h]
  have hpend' : ∀ t', pending (Function.update s.pc t p t') = pending (s.pc t') := fun t' => by
    by_cases h : t' = t
    · subst h; rw [Function.update_self, hpend, hpc]; rfl
    · rw [Function.update_of_ne h]
  refine
    { shared := I.shared
      max := I.max
      know := fun t' => ?_
      own_out := fun t' k h => I.own_out t' k (by rw [← hown']; exact h)
      own_inj := fun t1 t2 k h1 h2 => I.own_inj t1 t2 k (by rw [← hown']; exact h1)
        (by rw [← hown']; exact h2)
      nodes := fun k => by simp only [hown']; exact I.nodes k
      drawn := fun t' i h => I.drawn t' i (by rw [← hpend']; exact h)
      pend_inj := fun t1 t2 i h1 h2 => I.pend_inj t1 t2 i (by rw [← hpend']; exact h1)
        (by rw [← hpend']; exact h2)
      pushed := ?_
      popped := ?_ }
  · by_cases h : t' = t
    · subst h; simp only [Function.update_self]; exact hknow
    · simp only [Function.update_of_ne h]; exact I.know t'
  · rw [tsum_update_same linked _ _ _ (by rw [hlink, hpc]; rfl)]
    exact I.pushed
  · rw [tsum_update_same taken _ _ _ (by rw [htake, hpc]; rfl)]
    exact I.popped

theorem account_step {A : Type} {a b b' r s s' x x' : Multiset A} (h : a + s = b)
    (hs : s' + x = s + x') (hr : r + x' + b = x + b') : a + r + s' = b' := by
  have e : x + (a + r + s') = x + b' := by
    calc x + (a + r + s') = a + r + (s' + x) := by ac_rfl
      _ = r + x' + (a + s) := by rw [hs]; ac_rfl
      _ = x + b' := by rw [h, hr]
  exact add_left_cancel e

theorem pushedVals_append (l l' : List (Ret T)) :
    pushedVals (l ++ l') = pushedVals l + pushedVals l' := by
  simp [pushedVals]

theorem poppedVals_append (l l' : List (Ret T)) :
    poppedVals (l ++ l') = poppedVals l + poppedVals l' := by
  simp [poppedVals]

/-- What only one thread holds stays so when one of them comes to hold something
that no other does. -/
theorem update_inj {A B : Type} {f : B → Option A} {pc : Fin n → B} {t : Fin n} {p : B}
    (hinj : ∀ t1 t2 k, f (pc t1) = some k → f (pc t2) = some k → t1 = t2)
    (hp : ∀ {t'}, t' ≠ t → ∀ k, f (pc t') = some k → f p ≠ some k) {t1 t2 : Fin n} {k : A}
    (h1 : f (Function.update pc t p t1) = some k) (h2 : f (Function.update pc t p t2) = some k) :
    t1 = t2 := by
  by_cases ht1 : t1 = t <;> by_cases ht2 : t2 = t
  · rw [ht1, ht2]
  · subst ht1
    simp only [Function.update_self, Function.update_of_ne ht2] at h1 h2
    exact absurd h1 (hp ht2 k h2)
  · subst ht2
    simp only [Function.update_self, Function.update_of_ne ht1] at h1 h2
    exact absurd h2 (hp ht1 k h1)
  · simp only [Function.update_of_ne ht1, Function.update_of_ne ht2] at h1 h2
    exact hinj t1 t2 k h1 h2

/-- An access of one thread, from what `threadStep_spec` says of it. -/
theorem Inv.access {m : Nat} {g g' : Ghost T} {s : Sys T n} {t : Fin n} {q' : LockFreeList T}
    {p' : Pc T} {rets : List (Ret T)} (I : Inv m g s)
    (S : StepSpec (s.pc t) g s.q p' rets g' q') :
    Inv m g' ⟨q', Function.update s.pc t p', s.log ++ rets⟩ := by
  have hother : ∀ {t'}, t' ≠ t → ∀ k, own (s.pc t') = some k →
      own (s.pc t) ≠ some k ∧ k ∉ g.shared := fun hne k hk =>
    ⟨fun hc => hne (I.own_inj _ _ k hk hc), I.own_out _ k hk⟩
  have hother' : ∀ {t'}, t' ≠ t → ∀ k, own (s.pc t') = some k →
      ¬ (k ∈ g'.shared ∨ own p' = some k) := fun hne k hk hc => by
    obtain ⟨h1, h2⟩ := hother hne k hk
    rcases (S.handover k).mp hc with h | h
    · exact h2 h
    · exact h1 h
  have hpend : ∀ {t'}, t' ≠ t → ∀ i, pending (s.pc t') = some i → pending (s.pc t) ≠ some i :=
    fun hne i hi hc => hne (I.pend_inj _ _ i hi hc)
  have hpend' : ∀ {t'}, t' ≠ t → ∀ i, pending (s.pc t') = some i → pending p' ≠ some i :=
    fun hne i hi hc => by
      rcases (S.pend i hc).1 with h | h
      · exact hpend hne i hi h
      · have := (I.drawn _ i hi).lt
        omega
  refine
    { shared := S.inv
      max := S.max.trans I.max
      know := fun t' => ?_
      own_out := fun t' k h => ?_
      own_inj := fun t1 t2 k h1 h2 => ?_
      nodes := fun k => ?_
      drawn := fun t' i h => ?_
      pend_inj := fun t1 t2 i h1 h2 => ?_
      pushed := ?_
      popped := ?_ }
  · by_cases ht : t' = t
    · subst ht; simp only [Function.update_self]; exact S.know
    · simp only [Function.update_of_ne ht]
      exact local_stable S.rely I.shared.len (hother ht) (hpend ht) (I.know t')
  · by_cases ht : t' = t
    · subst ht; simp only [Function.update_self] at h; exact S.own_out k h
    · simp only [Function.update_of_ne ht] at h
      exact fun hc => hother' ht k h (.inl hc)
  · exact update_inj I.own_inj (fun hne k hk hp => hother' hne k hk (.inr hp)) h1 h2
  · rw [I.nodes k]
    constructor
    · intro hor
      rcases hor with h | ⟨t', h⟩
      · rcases (S.handover k).mpr (.inl h) with h' | h'
        · exact .inl h'
        · exact .inr ⟨t, by simpa using h'⟩
      · by_cases ht : t' = t
        · subst ht
          rcases (S.handover k).mpr (.inr h) with h' | h'
          · exact .inl h'
          · exact .inr ⟨t', by simpa using h'⟩
        · exact .inr ⟨t', by simpa [Function.update_of_ne ht] using h⟩
    · intro hor
      rcases hor with h | ⟨t', h⟩
      · rcases (S.handover k).mp (.inl h) with h' | h'
        · exact .inl h'
        · exact .inr ⟨t, h'⟩
      · by_cases ht : t' = t
        · subst ht
          simp only [Function.update_self] at h
          rcases (S.handover k).mp (.inr h) with h' | h'
          · exact .inl h'
          · exact .inr ⟨t', h'⟩
        · simp only [Function.update_of_ne ht] at h
          exact .inr ⟨t', h⟩
  · by_cases ht : t' = t
    · subst ht; simp only [Function.update_self] at h; exact (S.pend i h).2
    · simp only [Function.update_of_ne ht] at h
      obtain ⟨hlt, hge, hun⟩ := I.drawn t' i h
      refine ⟨Nat.lt_of_lt_of_le hlt S.id_le, by rw [S.max]; exact hge, fun hc => ?_⟩
      rcases S.links_new i hc with h' | h'
      · exact hun h'
      · exact hpend ht i h h'
  · exact update_inj I.pend_inj hpend' h1 h2
  · rw [pushedVals_append]
    exact account_step I.pushed (tsum_update linked s.pc t p') S.pushed
  · rw [poppedVals_append]
    exact account_step I.popped (tsum_update taken s.pc t p') S.popped

theorem inv_step {m : Nat} {g : Ghost T} {s s' : Sys T n} {a : Fin n × Act T} (I : Inv m g s)
    (hsafe : Safe s a) (hst : step s a = some s') : ∃ g', Inv m g' s' := by
  obtain ⟨t, act⟩ := a
  cases act with
  | push v =>
    simp only [step] at hst
    split at hst
    · rename_i hpc
      cases hst
      exact ⟨g, I.call hpc rfl rfl rfl rfl trivial⟩
    · cases hst
  | pop =>
    simp only [step] at hst
    split at hst
    · rename_i hpc
      cases hst
      exact ⟨g, I.call hpc rfl rfl rfl rfl trivial⟩
    · cases hst
  | step =>
    simp only [step, Option.map_eq_some_iff] at hst
    obtain ⟨⟨q', p', rets⟩, ha, rfl⟩ := hst
    obtain ⟨g', S⟩ := threadStep_spec I.shared (I.know t) (I.own_out t) (I.drawn t) hsafe ha
    exact ⟨g', I.access S⟩

theorem inv_reachable {m : Nat} (hm : 2 ≤ m) (s : Sys T n)
    (hr : ((lts T n m).restrict Safe).Reachable s) : ∃ g, Inv m g s := by
  have hind : ((lts T n m).restrict Safe).Inductive fun s => ∃ g, Inv m g s := by
    refine ⟨?_, ?_⟩
    · intro s heq
      subst heq
      exact ⟨_, inv_init hm⟩
    · rintro s a s' ⟨g, I⟩ ⟨hst, hsafe⟩
      exact inv_step I hsafe hst
  exact hind.reachable s hr

/-! ## What the invariant says of the values and the nodes -/

theorem linked_le_inPush (p : Pc T) : linked p ≤ inPush p := by
  cases p with
  | pushSwing => exact le_refl _
  | _ => exact Multiset.zero_le _

theorem Ghost.upTo_le (g : Ghost T) {i j : Nat} (h : i ≤ j) : g.upTo i ≤ g.upTo j := by
  unfold Ghost.upTo
  have hs : (g.vals.take i).Sublist (g.vals.take j) := by
    rw [show g.vals.take i = (g.vals.take j).take i by rw [List.take_take, Nat.min_eq_left h]]
    exact List.take_sublist _ _
  exact Multiset.coe_le.mpr (hs.map some).subperm

/-- The data of the nodes behind the dummy are the values not yet taken. -/
theorem SharedInv.queue_data {g : Ghost T} {q : LockFreeList T} (I : SharedInv g q) :
    (K.nodes g.queue).tail.map q.data = (g.vals.drop g.out).map some := by
  refine List.ext_getElem? fun i => ?_
  have e : (K.nodes g.queue).tail[i]? = (g.links[g.out + (i + 1)]?).map Ref.node := by
    rw [List.getElem?_tail, LinkType.nodes, List.getElem?_map, g.queue_getElem?]
    rfl
  rw [List.getElem?_map, List.getElem?_map, List.getElem?_drop, e]
  cases hv : g.vals[g.out + i]? with
  | none =>
    have hlen := I.len
    have hge := List.getElem?_eq_none_iff.mp hv
    rw [List.getElem?_eq_none_iff.mpr (by omega)]
    rfl
  | some v =>
    obtain ⟨r, hr, hd⟩ := I.data (g.out + i) v (Nat.le_add_right _ _) hv
    rw [show g.out + (i + 1) = g.out + i + 1 by omega, hr]
    simp [hd]

theorem Inv.conserves {m : Nat} {g : Ghost T} {s : Sys T n} (I : Inv m g s) : Conserves m s where
  popped_le := by
    have hlen := I.shared.len
    have hlt := I.shared.out_lt
    calc poppedVals s.log ≤ poppedVals s.log + tsum taken s.pc := Multiset.le_add_right _ _
      _ = g.upTo g.out := I.popped
      _ ≤ g.upTo g.vals.length := g.upTo_le (by omega)
      _ = pushedVals s.log + tsum linked s.pc := I.pushed.symm
      _ ≤ _ := add_le_add_right (tsum_mono linked_le_inPush s.pc) _
  quiescent hidle := by
    have hpush := I.pushed
    have hpop := I.popped
    rw [tsum_zero linked _ fun t => by rw [hidle t]; rfl, add_zero] at hpush
    rw [tsum_zero taken _ fun t => by rw [hidle t]; rfl, add_zero] at hpop
    have hnd := I.shared.nodup
    rw [Ghost.shared, LinkType.nodes_append, List.nodup_append'] at hnd
    refine ⟨K.nodes g.queue, K.nodes g.free, chainFrom_of_isChain I.shared.queue,
      chainFrom_of_isChain I.shared.stack, ?_, hnd.2.2, fun k => ?_⟩
    · rw [hpush, hpop, I.shared.queue_data, Ghost.upTo, Ghost.upTo, List.take_length,
        Multiset.coe_add, ← List.map_append, List.take_append_drop]
    · have hnone : ¬ ∃ t, own (s.pc t) = some k := by
        intro hex
        obtain ⟨t, ht⟩ := hex
        rw [hidle t] at ht
        cases ht
      rw [I.nodes k, Ghost.shared, LinkType.nodes_append, List.mem_append]
      simp only [hnone, or_false]

/-- In a run without the accesses that go wrong, nothing is lost or duplicated. -/
theorem conserves_of_safe (m : Nat) (hm : 2 ≤ m) (s : Sys T n)
    (hr : ((lts T n m).restrict Safe).Reachable s) : Conserves m s := by
  obtain ⟨g, I⟩ := inv_reachable hm s hr
  exact I.conserves

/-! ## Runs -/

/-- The nodes met from `d` in at most `fuel` steps, if that is all of them. -/
def walk (q : LockFreeList T) : Nat → DoublePointer → Option (List Nat)
  | 0, d => if d = .zero then some [] else none
  | fuel + 1, d =>
    if d = .zero then some []
    else d.vals1.bind fun k => (walk q fuel (q.next k)).map (k :: ·)

theorem chainFrom_of_walk {q : LockFreeList T} {fuel : Nat} {d : DoublePointer} {l : List Nat}
    (h : q.walk fuel d = some l) : q.ChainFrom d l := by
  induction fuel generalizing d l with
  | zero =>
    unfold walk at h
    split at h
    · rename_i hd
      cases h
      exact hd
    · cases h
  | succ fuel ih =>
    unfold walk at h
    split at h
    · rename_i hd
      cases h
      exact hd
    · obtain ⟨k, hk, h⟩ := Option.bind_eq_some_iff.mp h
      obtain ⟨l', hl', rfl⟩ := Option.map_eq_some_iff.mp h
      exact ⟨hk, ih hl'⟩

/-- A check of `Safe`. -/
def safeB (s : Sys T n) (a : Fin n × Act T) : Bool :=
  match a.2, s.pc a.1 with
  | .step, .allocCas _ old p _ => !decide (s.q.m_head = old) || decide (p = old.vals1)
  | .step, .pushLink _ _ inp =>
    inp.vals1.all fun k => !decide (s.q.next k = .zero) ||
      (s.q.walk s.q.m_max s.q.m_out).any fun l => decide (k ∈ l)
  | .step, .pushId _ _ | .step, .relId _ _ => decide (s.q.m_id < 2 ^ 64)
  | _, _ => true

theorem safe_of_safeB (s : Sys T n) (a : Fin n × Act T) (h : safeB s a = true) : Safe s a := by
  obtain ⟨t, act⟩ := a
  cases act with
  | push | pop => trivial
  | step =>
    simp only [Safe]
    simp only [safeB] at h
    generalize s.pc t = p at h ⊢
    cases p with
    | allocCas v old p next =>
      intro hh
      simpa [hh] using h
    | pushLink v nn inp =>
      intro k hk hz
      simp only [hk, Option.all_some, hz, decide_true, Bool.not_true, Bool.false_or,
        Option.any_eq_true, decide_eq_true_eq] at h
      obtain ⟨l, hl, hkl⟩ := h
      exact ⟨l, chainFrom_of_walk hl, hkl⟩
    | pushId | relId => simpa [StepOk] using h
    | _ => trivial

def Pc.isIdle : Pc T → Bool
  | .idle => true
  | _ => false

theorem Pc.eq_idle {p : Pc T} (h : p.isIdle = true) : p = .idle := by
  cases p with
  | idle => rfl
  | _ => cases h

/-- At rest, with the chain of the queue not accounting for the values. -/
def losesB (s : Sys Nat n) : Bool :=
  decide (∀ t, (s.pc t).isIdle = true) && decide (s.q.m_id < 2 ^ 64) &&
  (s.q.walk s.q.m_max s.q.m_out).any fun l =>
    decide (pushedVals s.log ≠ poppedVals s.log + (l.tail.map s.q.data : List (Option Nat)))

/-- A pusher stalled before its link compare-and-swap, a second push, a pop:
the tail the pusher read is now the only free node. -/
def lostPushRun : List (Fin 2 × Act Nat) :=
  (0, .push 7) :: List.replicate 11 (0, .step) ++ (1, .push 8) :: List.replicate 13 (1, .step) ++
    (1, .pop) :: List.replicate 10 (1, .step) ++ [(0, .step), (0, .step)]

/-- With two threads and three nodes a push that returned true can be lost. -/
theorem lost_push : ∃ s : Sys Nat 2, (lts Nat 2 3).Reachable s ∧ s.q.m_id < 2 ^ 64 ∧
    ¬ Conserves 3 s := by
  obtain ⟨s, hs, hb⟩ : ∃ s, (lts Nat 2 3).Reachable s ∧ losesB s = true :=
    LTS.exists_of_exec (s := init 3) lostPushRun rfl (by decide +kernel)
  simp only [losesB, Bool.and_eq_true, decide_eq_true_eq, Option.any_eq_true] at hb
  obtain ⟨⟨hidle, hid⟩, l, hl, hne⟩ := hb
  refine ⟨s, hs, hid, fun hc => ?_⟩
  obtain ⟨queue, free, hq, -, heq, -⟩ := hc.quiescent fun t => Pc.eq_idle (hidle t)
  rw [chainFrom_unique hq (chainFrom_of_walk hl)] at heq
  exact hne heq

/-- At rest, with a node of the free stack in the queue. -/
def sharesB (s : Sys Nat n) : Bool :=
  decide (∀ t, (s.pc t).isIdle = true) &&
  (s.q.walk s.q.m_max s.q.m_out).any fun queue =>
    (s.q.walk s.q.m_max s.q.m_head).any fun free => queue.any fun k => decide (k ∈ free)

/-- An allocation that stalls after its read of `m_head` while another thread
finishes its push, pops, and pushes again. -/
def doubleAllocRun : List (Fin 2 × Act Nat) :=
  (1, .push 8) :: List.replicate 6 (1, .step) ++ (0, .push 9) :: (0, .step) ::
    List.replicate 7 (1, .step) ++ (1, .pop) :: List.replicate 10 (1, .step) ++
    [(0, .step), (0, .step)] ++ (1, .push 10) :: List.replicate 13 (1, .step) ++
    List.replicate 10 (0, .step)

/-- The second access that `Safe` excludes: the allocation compares `m_head`
with the node it read first and installs the link of another. -/
theorem double_alloc : ∃ s : Sys Nat 2, (lts Nat 2 3).Reachable s ∧ (∀ t, s.pc t = .idle) ∧
    ∃ queue free : List Nat, s.q.ChainFrom s.q.m_out queue ∧ s.q.ChainFrom s.q.m_head free ∧
      ∃ k, k ∈ queue ∧ k ∈ free := by
  obtain ⟨s, hs, hb⟩ : ∃ s, (lts Nat 2 3).Reachable s ∧ sharesB s = true :=
    LTS.exists_of_exec (s := init 3) doubleAllocRun rfl (by decide +kernel)
  simp only [sharesB, Bool.and_eq_true, decide_eq_true_eq, Option.any_eq_true,
    List.any_eq_true] at hb
  obtain ⟨hidle, queue, hq, free, hf, k, hk⟩ := hb
  exact ⟨s, hs, fun t => Pc.eq_idle (hidle t), queue, free, chainFrom_of_walk hq,
    chainFrom_of_walk hf, k, hk⟩

/-- One access of thread 0 and one of thread 1 in turn, `k` times. -/
def inTurn (k : Nat) : List (Fin 2 × Act Nat) :=
  (List.replicate k [(0, .step), (1, .step)]).flatten

/-- Two pushes at once, the second of which ends while the first thread pops. -/
def twoPushes : List (Fin 2 × Act Nat) :=
  (0, .push 7) :: (1, .push 8) :: inTurn 13 ++ (0, .pop) :: inTurn 4 ++ List.replicate 6 (0, .step)

/-- They meet `Safe`. -/
theorem conserves_two_pushes : ∃ s : Sys Nat 2, ((lts Nat 2 3).restrict Safe).Reachable s ∧
    (pushedVals s.log = {some 7, some 8} ∧ poppedVals s.log = {some 7}) ∧ Conserves 3 s := by
  obtain ⟨s, hs, hb⟩ : ∃ s : Sys Nat 2, ((lts Nat 2 3).restrict Safe).Reachable s ∧
      decide (pushedVals s.log = {some 7, some 8} ∧ poppedVals s.log = {some 7}) = true :=
    LTS.exists_of_execWith safe_of_safeB (s := init 3) twoPushes rfl (by decide +kernel)
  exact ⟨s, hs, of_decide_eq_true hb, conserves_of_safe 3 (by decide) s hs⟩

end Ppcode.LockFreeList
