import Ppcode.Thread.LockFreeList

/-!
# The invariant of `LockFreeList`

The queue is described by the history of its links: `links` are all references
ever linked behind the dummy, `vals` the values pushed with them, and `m_out`
and `m_in` stand at the positions `out ≤ inn` of that history. `links.drop out`
is the queue as it is now, `free` the stack of free nodes, `seen` every
reference that ever was on the stack.

What a thread relies on is stable in these terms: a position of the history
never changes its reference, `out` and `inn` only grow, and a reference on the
stack that was read before is still the same node with the same link
(`Rely`). So the proof has three parts: each access keeps the shared part and
establishes what its own thread needs next (`threadStep_spec`), what a thread
knows survives the accesses of all other threads (`local_stable`), and nodes
are handed over between the queue, the stack and the threads
(`StepSpec.handover`).

The accesses that the proof has to exclude are the ones named by `StepOk`.
-/
namespace Ppcode.LockFreeList

/-- A non-null `DoublePointer`. -/
structure Ref where
  id : Nat
  node : Nat
  deriving DecidableEq, Repr

def Ref.dp (r : Ref) : DoublePointer := ⟨r.id, some r.node⟩

theorem Ref.dp_inj : Function.Injective Ref.dp := by
  rintro ⟨i, k⟩ ⟨i', k'⟩ h
  simpa [Ref.dp] using h

theorem Ref.dp_ne_zero (r : Ref) : r.dp ≠ .zero := by simp [Ref.dp, DoublePointer.zero]

@[simp] theorem Ref.dp_vals1 (r : Ref) : r.dp.vals1 = some r.node := rfl

/-- The links of a `LockFreeList`. -/
def K : LinkType Ref Nat DoublePointer :=
  ⟨.zero, Ref.dp, Ref.node, Ref.dp_inj, Ref.dp_ne_zero⟩

@[simp] theorem K_node (r : Ref) : K.node r = r.node := rfl

variable {T : Type} {n : Nat}

section Fields
variable (q : LockFreeList T) (k : Nat) (d e : DoublePointer) (v : T)

@[simp] theorem setNext_next : (q.setNext k d).next = Function.update q.next k d := by
  funext i
  by_cases h : i = k
  · subst h; simp [next, setNext]
  · simp [next, setNext, h]

@[simp] theorem setNext_data : (q.setNext k d).data = q.data := by
  funext i
  by_cases h : i = k
  · subst h; simp [data, setNext]
  · simp [data, setNext, h]

@[simp] theorem setData_next : (q.setData k v).next = q.next := by
  funext i
  by_cases h : i = k
  · subst h; simp [next, setData]
  · simp [next, setData, h]

@[simp] theorem setData_data : (q.setData k v).data = Function.update q.data k (some v) := by
  funext i
  by_cases h : i = k
  · subst h; simp [data, setData]
  · simp [data, setData, h]

@[simp] theorem casIn_next : (q.casIn d e).next = q.next := by unfold casIn; split <;> rfl
@[simp] theorem casIn_data : (q.casIn d e).data = q.data := by unfold casIn; split <;> rfl
@[simp] theorem casIn_out : (q.casIn d e).m_out = q.m_out := by unfold casIn; split <;> rfl
@[simp] theorem casIn_head : (q.casIn d e).m_head = q.m_head := by unfold casIn; split <;> rfl
@[simp] theorem casIn_id : (q.casIn d e).m_id = q.m_id := by unfold casIn; split <;> rfl
@[simp] theorem casIn_max : (q.casIn d e).m_max = q.m_max := by unfold casIn; split <;> rfl

variable {k} {i : Nat}

theorem setNext_frame (h : some k ≠ some i) :
    (q.setNext k d).next i = q.next i ∧ (q.setNext k d).data i = q.data i := by
  have hik : i ≠ k := fun e => h (by rw [e])
  simp [hik]

theorem setData_frame (h : some k ≠ some i) :
    (q.setData k v).next i = q.next i ∧ (q.setData k v).data i = q.data i := by
  have hik : i ≠ k := fun e => h (by rw [e])
  simp [hik]

end Fields

/-! ## The shared part -/

structure Ghost (T : Type) where
  links : List Ref
  vals : List T
  out : Nat
  inn : Nat
  free : List Ref
  seen : List Ref

/-- The queue as it is now, dummy first. -/
def Ghost.queue (g : Ghost T) : List Ref := g.links.drop g.out

/-- The nodes that are in the queue or on the stack. -/
def Ghost.shared (g : Ghost T) : List Nat := K.nodes (g.queue ++ g.free)

structure SharedInv (g : Ghost T) (q : LockFreeList T) : Prop where
  len : g.links.length = g.vals.length + 1
  out_le : g.out ≤ g.inn
  inn_lt : g.inn < g.links.length
  queue : K.IsChain q.next q.m_out g.queue
  tail : ∃ r, g.links[g.inn]? = some r ∧ q.m_in = r.dp
  stack : K.IsChain q.next q.m_head g.free
  nodup : g.shared.Nodup
  data : ∀ j v, g.out ≤ j → g.vals[j]? = some v →
    ∃ r, g.links[j + 1]? = some r ∧ q.data r.node = some v
  ids_nodup : (g.links.map Ref.id).Nodup
  ids_lt : ∀ r ∈ g.links, r.id < q.m_id
  free_seen : ∀ r ∈ g.free, r ∈ g.seen
  seen_lt : ∀ r ∈ g.seen, r.id < max q.m_id q.m_max
  id_ge : q.m_max ≤ q.m_id + 1
  -- the first increment of `m_id` is a push's: a release comes after a link
  id_ge' : 2 ≤ g.links.length → q.m_max ≤ q.m_id

/-! ## What a thread owns and knows -/

/-- The node a thread holds outside the queue and the stack. -/
def own : Pc T → Option Nat
  | .allocClear _ ret => ret
  | .pushData _ k | .pushNext _ k | .pushId _ k => some k
  | .pushIn _ nn | .pushTail _ nn _ | .pushTailNext _ nn _ _ | .pushHelp _ nn _ _
  | .pushLink _ nn _ => nn.vals1
  | .relId _ cur => cur
  | .relHead _ k _ | .relNext _ k _ _ | .relCas _ k _ _ => some k
  | _ => none

/-- The version a thread has drawn for a reference that is not shared yet. -/
def pending : Pc T → Option Nat
  | .pushIn _ nn | .pushTail _ nn _ | .pushTailNext _ nn _ _ | .pushHelp _ nn _ _
  | .pushLink _ nn _ => some nn.vals0
  | .relHead _ _ nn | .relNext _ _ nn _ | .relCas _ _ nn _ => some nn.vals0
  | _ => none

/-- `d` is the link at position `j` of the history. -/
def At (g : Ghost T) (j : Nat) (d : DoublePointer) : Prop := ∃ r, g.links[j]? = some r ∧ d = r.dp

/-- `d` was `m_in`. -/
def WasIn (g : Ghost T) (d : DoublePointer) : Prop := ∃ j, j ≤ g.inn ∧ At g j d

/-- `e` follows `d` in the history, or `m_in` has moved past `d`. -/
def Follows (g : Ghost T) (d e : DoublePointer) : Prop := ∃ j, At g j d ∧ (j < g.inn ∨ At g (j + 1) e)

/-- `out` was `m_out` and `inp` was `m_in` no earlier. -/
def WasEnds (g : Ghost T) (out inp : DoublePointer) : Prop :=
  ∃ a b, At g a out ∧ At g b inp ∧ a ≤ b ∧ a ≤ g.out ∧ b ≤ g.inn

/-- `next` follows `out` and `m_in` is past `out`, or `m_out` has moved past `out`. -/
def CanTake (g : Ghost T) (out next : DoublePointer) : Prop :=
  ∃ a, At g a out ∧ (a < g.out ∨ At g (a + 1) next ∧ a + 1 ≤ g.inn)

/-- As `CanTake`, with the value stored at `next`. -/
def CanTakeVal (g : Ghost T) (out next : DoublePointer) (data : Option T) : Prop :=
  ∃ a, At g a out ∧ (a < g.out ∨ At g (a + 1) next ∧ a + 1 ≤ g.inn ∧ data = g.vals[a]?)

/-- The node of `nn` is filled with `v` and its link is cleared. -/
def Filled (q : LockFreeList T) (v : T) (nn : DoublePointer) : Prop :=
  ∃ k, nn.vals1 = some k ∧ q.data k = some v ∧ q.next k = .zero

/-- `nn` refers to `k` and never was on the stack. -/
def Unseen (g : Ghost T) (k : Nat) (nn : DoublePointer) : Prop :=
  ∃ r : Ref, nn = r.dp ∧ r.node = k ∧ r ∉ g.seen

/-- What the thread at a control point knows of the shared state. -/
def Local (g : Ghost T) (q : LockFreeList T) : Pc T → Prop
  | .allocPtr _ old | .allocNext _ old _ => ∃ r, r ∈ g.seen ∧ old = r.dp
  | .allocCas _ old p next =>
    ∃ r, r ∈ g.seen ∧ old = r.dp ∧ (p = some r.node → r ∈ g.free → next = q.next r.node)
  | .allocClear _ ret => ∃ k, ret = some k
  | .pushNext v k => q.data k = some v
  | .pushId v k => q.data k = some v ∧ q.next k = .zero
  | .pushIn v nn => Filled q v nn
  | .pushTail v nn inp => Filled q v nn ∧ WasIn g inp
  | .pushTailNext v nn inp tail => Filled q v nn ∧ WasIn g inp ∧ tail = inp.vals1
  | .pushHelp v nn inp next => Filled q v nn ∧ WasIn g inp ∧ Follows g inp next
  | .pushLink v nn inp => Filled q v nn ∧ WasIn g inp
  | .pushSwing _ nn inp => Follows g inp nn
  | .popIn out => ∃ a, At g a out ∧ a ≤ g.out
  | .popHead out inp => WasEnds g out inp
  | .popNext out inp head => WasEnds g out inp ∧ head = out.vals1
  | .popHelp inp next => Follows g inp next
  | .popData out next => CanTake g out next
  | .popCas out next data => CanTakeVal g out next data
  | .relId _ cur => 2 ≤ g.links.length ∧ ∃ k, cur = some k
  | .relHead _ k nn | .relNext _ k nn _ => Unseen g k nn
  | .relCas _ k nn old => Unseen g k nn ∧ q.next k = old
  | _ => True

/-! ## Stability -/

/-- What an access at control point `p` does, as the other threads see it. -/
structure Rely (p : Pc T) (g : Ghost T) (q : LockFreeList T) (g' : Ghost T) (q' : LockFreeList T) :
    Prop where
  links : g.links <+: g'.links
  vals : g.vals <+: g'.vals
  out_le : g.out ≤ g'.out
  inn_le : g.inn ≤ g'.inn
  seen : ∀ r ∈ g.seen, r ∈ g'.seen
  seen_new : ∀ r ∈ g'.seen, r ∈ g.seen ∨ pending p = some r.id
  free : ∀ r ∈ g.seen, r ∈ g'.free → r ∈ g.free ∧ q'.next r.node = q.next r.node
  frame : ∀ k, own p ≠ some k → k ∉ g.shared → q'.next k = q.next k ∧ q'.data k = q.data k

theorem getElem?_prefix {α : Type} {l l' : List α} (h : l <+: l') {j : Nat} {a : α}
    (hj : l[j]? = some a) : l'[j]? = some a := by
  obtain ⟨t, rfl⟩ := h
  have hlt : j < l.length := (List.getElem?_eq_some_iff.mp hj).1
  rw [List.getElem?_append_left hlt, hj]

theorem At.mono {g g' : Ghost T} (h : g.links <+: g'.links) {j : Nat} {d : DoublePointer}
    (ha : At g j d) : At g' j d := by
  obtain ⟨r, hr, hd⟩ := ha
  exact ⟨r, getElem?_prefix h hr, hd⟩

section Stable
variable {p : Pc T} {g g' : Ghost T} {q q' : LockFreeList T} (R : Rely p g q g' q')
include R

theorem WasIn.stable {d : DoublePointer} (h : WasIn g d) : WasIn g' d := by
  obtain ⟨j, hj, ha⟩ := h
  exact ⟨j, Nat.le_trans hj R.inn_le, ha.mono R.links⟩

theorem Follows.stable {d e : DoublePointer} (h : Follows g d e) : Follows g' d e := by
  obtain ⟨j, ha, hb⟩ := h
  refine ⟨j, ha.mono R.links, ?_⟩
  rcases hb with hlt | hb
  · exact .inl (Nat.lt_of_lt_of_le hlt R.inn_le)
  · exact .inr (hb.mono R.links)

theorem WasEnds.stable {out inp : DoublePointer} (h : WasEnds g out inp) : WasEnds g' out inp := by
  obtain ⟨a, b, ha, hb, hab, hao, hbi⟩ := h
  exact ⟨a, b, ha.mono R.links, hb.mono R.links, hab, Nat.le_trans hao R.out_le,
    Nat.le_trans hbi R.inn_le⟩

theorem CanTake.stable {out next : DoublePointer} (h : CanTake g out next) :
    CanTake g' out next := by
  obtain ⟨a, ha, hb⟩ := h
  refine ⟨a, ha.mono R.links, ?_⟩
  rcases hb with hlt | ⟨hn, hi⟩
  · exact .inl (Nat.lt_of_lt_of_le hlt R.out_le)
  · exact .inr ⟨hn.mono R.links, Nat.le_trans hi R.inn_le⟩

/-- `vals` is as long as the part of the history behind the dummy, so a value
once known at a position is the value at that position for good. -/
theorem CanTakeVal.stable {out next : DoublePointer} {data : Option T}
    (hlen : g.links.length = g.vals.length + 1) (h : CanTakeVal g out next data) :
    CanTakeVal g' out next data := by
  obtain ⟨a, ha, hb⟩ := h
  refine ⟨a, ha.mono R.links, ?_⟩
  rcases hb with hlt | ⟨hn, hi, hv⟩
  · exact .inl (Nat.lt_of_lt_of_le hlt R.out_le)
  · refine .inr ⟨hn.mono R.links, Nat.le_trans hi R.inn_le, ?_⟩
    obtain ⟨r, hr, -⟩ := hn
    have hlt : a < g.vals.length := by
      have := (List.getElem?_eq_some_iff.mp hr).1
      omega
    rw [hv, List.getElem?_eq_getElem hlt,
      getElem?_prefix R.vals (List.getElem?_eq_getElem hlt)]

theorem Filled.stable {v : T} {nn : DoublePointer}
    (hown : ∀ k, nn.vals1 = some k → own p ≠ some k ∧ k ∉ g.shared) (h : Filled q v nn) :
    Filled q' v nn := by
  obtain ⟨k, hk, hd, hn⟩ := h
  obtain ⟨e1, e2⟩ := R.frame k (hown k hk).1 (hown k hk).2
  exact ⟨k, hk, by rw [e2, hd], by rw [e1, hn]⟩

theorem Unseen.stable {k : Nat} {nn : DoublePointer} (hpend : pending p ≠ some nn.vals0)
    (h : Unseen g k nn) : Unseen g' k nn := by
  obtain ⟨r, rfl, hk, hr⟩ := h
  refine ⟨r, rfl, hk, fun hc => ?_⟩
  rcases R.seen_new r hc with hs | hp
  · exact hr hs
  · exact hpend hp

/-- **Stability.** What the thread at `p'` knows survives an access of another
thread, which owns another node and has drawn another version. -/
theorem local_stable (hlen : g.links.length = g.vals.length + 1) {p' : Pc T}
    (hown : ∀ k, own p' = some k → own p ≠ some k ∧ k ∉ g.shared)
    (hpend : ∀ i, pending p' = some i → pending p ≠ some i) (h : Local g q p') :
    Local g' q' p' := by
  cases p' with
  | idle | allocHead | pushData | popOut => exact h
  | allocPtr v old | allocNext v old =>
    obtain ⟨r, hr, ho⟩ := h
    exact ⟨r, R.seen r hr, ho⟩
  | allocCas v old p next =>
    obtain ⟨r, hr, ho, hn⟩ := h
    refine ⟨r, R.seen r hr, ho, fun hp hf => ?_⟩
    obtain ⟨h1, h2⟩ := R.free r hr hf
    rw [h2]
    exact hn hp h1
  | allocClear v ret => exact h
  | pushNext v k =>
    obtain ⟨-, e⟩ := R.frame k (hown k rfl).1 (hown k rfl).2
    simp only [Local] at h ⊢
    rw [e, h]
  | pushId v k =>
    obtain ⟨e1, e2⟩ := R.frame k (hown k rfl).1 (hown k rfl).2
    simp only [Local] at h ⊢
    rw [e1, e2]
    exact h
  | pushIn v nn => exact h.stable R hown
  | pushTail v nn inp => exact ⟨h.1.stable R hown, h.2.stable R⟩
  | pushTailNext v nn inp tail => exact ⟨h.1.stable R hown, h.2.1.stable R, h.2.2⟩
  | pushHelp v nn inp next => exact ⟨h.1.stable R hown, h.2.1.stable R, h.2.2.stable R⟩
  | pushLink v nn inp => exact ⟨h.1.stable R hown, h.2.stable R⟩
  | pushSwing v nn inp => exact Follows.stable R h
  | popIn out =>
    obtain ⟨a, ha, hle⟩ := h
    exact ⟨a, ha.mono R.links, Nat.le_trans hle R.out_le⟩
  | popHead out inp => exact WasEnds.stable R h
  | popNext out inp head => exact ⟨h.1.stable R, h.2⟩
  | popHelp inp next => exact Follows.stable R h
  | popData out next => exact CanTake.stable R h
  | popCas out next data => exact CanTakeVal.stable R hlen h
  | relId data cur => exact ⟨Nat.le_trans h.1 R.links.length_le, h.2⟩
  | relHead data k nn => exact Unseen.stable R (hpend _ rfl) h
  | relNext data k nn old => exact Unseen.stable R (hpend _ rfl) h
  | relCas data k nn old =>
    obtain ⟨e, -⟩ := R.frame k (hown k rfl).1 (hown k rfl).2
    exact ⟨h.1.stable R (hpend _ rfl), by rw [e]; exact h.2⟩

end Stable
end Ppcode.LockFreeList
