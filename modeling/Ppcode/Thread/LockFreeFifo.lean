import Ppcode.Thread.LockFreeConserve

/-!
# `LockFreeList` in one thread

One thread makes calls one after the other, each running to its end (`call`). Then
the list is a bounded FIFO queue: `Call.spec` says what a call does to the stored
values, and `Shape` how the list holds them: the queue chain from `m_out`, a dummy
first and `m_in` at its last node, and the free chain from `m_head` are disjoint and
have all the nodes.

* `call_spec`: every call ends, within 13 accesses, returns what `Call.spec` says
  and keeps the shape.
* `fifo`: so does every sequence of calls on a new list, for every capacity from 1.

No version matters: every compare-and-swap finds what was read before it.
-/
namespace Ppcode.LockFreeList
variable {T : Type}

inductive Call (T : Type) where
  | push (v : T)
  | pop
  deriving DecidableEq, Repr

def Call.start : Call T → Pc T
  | .push v => .allocHead v
  | .pop => .popOut

/-- What is left of a call, with no other thread in between; `none` where it takes more
than `fuel` accesses. -/
def finish : Nat → LockFreeList T → Pc T → Option (LockFreeList T × List (Ret T))
  | 0, _, _ => none
  | fuel + 1, q, p => (threadStep q p).bind fun r =>
    match r.2.1 with
    | .idle => some (r.1, r.2.2)
    | p' => finish fuel r.1 p'

/-- The calls in order, and what they return. -/
def calls (fuel : Nat) : LockFreeList T → List (Call T) → Option (LockFreeList T × List (Ret T))
  | q, [] => some (q, [])
  | q, c :: cs => (finish fuel q c.start).bind fun r =>
    (calls fuel r.1 cs).map fun r' => (r'.1, r.2 ++ r'.2)

/-- A bounded FIFO queue: the values stored, oldest first, after a call with what it returns. -/
def Call.spec (m_max : Nat) (vs : List T) : Call T → List T × Ret T
  | .push v => if vs.length < m_max - 1 then (vs ++ [v], .pushed v true) else (vs, .pushed v false)
  | .pop =>
    match vs with
    | [] => ([], .empty)
    | v :: vs => (vs, .popped (some v))

def specs (m_max : Nat) : List T → List (Call T) → List T × List (Ret T)
  | vs, [] => (vs, [])
  | vs, c :: cs =>
    let r := specs m_max (c.spec m_max vs).1 cs
    (r.1, (c.spec m_max vs).2 :: r.2)

/-- How the list holds the values `vs`: the queue `queue ++ [last]` and the stack `free`;
the nodes `own` are in neither. -/
structure Holds (q : LockFreeList T) (vs : List T) (queue : List Nat) (last : Nat)
    (free own : List Nat) : Prop where
  out : q.ChainFrom q.m_out (queue ++ [last])
  head : q.ChainFrom q.m_head free
  inn : q.m_in.vals1 = some last
  nodup : (own ++ (queue ++ [last] ++ free)).Nodup
  nodes : ∀ k, k ∈ own ++ (queue ++ [last] ++ free) ↔ k < q.m_max
  data : (queue ++ [last]).tail.map q.data = vs.map some

/-- Between two calls every node is in the queue or on the stack. -/
def Shape (q : LockFreeList T) (vs : List T) : Prop :=
  ∃ queue last free, Holds q vs queue last free []

/-! ## Chains of nodes -/

section Chains
variable {q q' : LockFreeList T} {d e : DoublePointer} {k : Nat} {l : List Nat}

theorem chainFrom_congr (he : ∀ k ∈ l, q'.next k = q.next k) (h : q.ChainFrom d l) :
    q'.ChainFrom d l := by
  induction l generalizing d with
  | nil => exact h
  | cons k l ih =>
    refine ⟨h.1, ?_⟩
    rw [he k List.mem_cons_self]
    exact ih (fun i hi => he i (List.mem_cons_of_mem k hi)) h.2

/-- Only the nodes matter. -/
theorem ChainFrom.frame (h : q.ChainFrom d l) (he : q'.m_freeList = q.m_freeList) :
    q'.ChainFrom d l := by
  refine chainFrom_congr (fun k _ => ?_) h
  unfold next
  rw [he]

theorem chainFrom_setNext (hk : k ∉ l) (h : q.ChainFrom d l) : (q.setNext k e).ChainFrom d l := by
  refine chainFrom_congr (fun i hi => ?_) h
  have hik : i ≠ k := by
    intro heq
    subst heq
    exact hk hi
  rw [setNext_next, Function.update_of_ne hik]

/-- The link behind the last node is 0. -/
theorem ChainFrom.last_next {last : Nat} (h : q.ChainFrom d (l ++ [last])) :
    q.next last = .zero := by
  induction l generalizing d with
  | nil => exact h.2
  | cons k l ih => exact ih h.2

/-- A node linked behind the last one. -/
theorem ChainFrom.snoc {last : Nat} (h : q.ChainFrom d (l ++ [last])) (hnd : (l ++ [last]).Nodup)
    (he : e.vals1 = some k) (hk : k ∉ l ++ [last]) (hnext : q.next k = .zero) :
    (q.setNext last e).ChainFrom d (l ++ [last] ++ [k]) := by
  induction l generalizing d with
  | nil =>
    have hne : k ≠ last := by simpa using hk
    refine ⟨h.1, ?_⟩
    simp [ChainFrom, he, Function.update_of_ne hne, hnext]
  | cons i l ih =>
    simp only [List.cons_append, List.nodup_cons, List.mem_cons, not_or] at hnd hk
    have hne : i ≠ last := by
      intro heq
      subst heq
      exact hnd.1 (List.mem_append_right l (List.mem_singleton_self i))
    refine ⟨h.1, ?_⟩
    rw [setNext_next, Function.update_of_ne hne]
    exact ih h.2 hnd.2 hk.2

theorem ChainFrom.eq_nil (h : q.ChainFrom d l) : d = .zero ↔ l = [] := by
  cases l with
  | nil => exact iff_of_true h rfl
  | cons k l =>
    refine iff_of_false (fun hd => ?_) nofun
    have hvals := h.1
    rw [hd] at hvals
    cases hvals

end Chains

/-! ## A new list -/

theorem holds_new {m : Nat} (hm : 1 ≤ m) :
    Holds (new m : LockFreeList T) [] [] 0 (K.nodes (initFree m (m - 1))) [] where
  out := ⟨rfl, rfl⟩
  head := chainFrom_of_isChain (stack_new hm)
  inn := rfl
  nodup := nodup_new m
  nodes := nodes_new hm
  data := rfl

/-! ## Nodes change places -/

section Moves
variable {q : LockFreeList T} {vs : List T} {queue free own : List Nat} {last k : Nat}
  {v : T} {d : DoublePointer}

theorem Holds.not_mem (h : Holds q vs queue last free own) (hk : k ∈ own) :
    k ∉ queue ++ [last] ∧ k ∉ free := by
  have hdisj : k ∉ queue ++ [last] ++ free := List.disjoint_of_nodup_append h.nodup hk
  rw [List.mem_append, not_or] at hdisj
  exact hdisj

/-- The link of a node in neither chain is written. -/
theorem Holds.setNext (h : Holds q vs queue last free own) (hk : k ∈ own) (d : DoublePointer) :
    Holds (q.setNext k d) vs queue last free own where
  out := chainFrom_setNext (h.not_mem hk).1 h.out
  head := chainFrom_setNext (h.not_mem hk).2 h.head
  inn := h.inn
  nodup := h.nodup
  nodes := h.nodes
  data := by
    rw [setNext_data]
    exact h.data

/-- Its data are written. -/
theorem Holds.setData (h : Holds q vs queue last free own) (hk : k ∈ own) (v : T) :
    Holds (q.setData k v) vs queue last free own where
  out := chainFrom_congr (fun i _ => by rw [setData_next]) h.out
  head := chainFrom_congr (fun i _ => by rw [setData_next]) h.head
  inn := h.inn
  nodup := h.nodup
  nodes := h.nodes
  data := by
    rw [← h.data, setData_data]
    refine List.map_congr_left fun i hi => ?_
    have hne : i ≠ k := by
      intro heq
      subst heq
      exact (h.not_mem hk).1 (List.mem_of_mem_tail hi)
    rw [Function.update_of_ne hne]

/-- The counter belongs to no chain. -/
theorem Holds.count (h : Holds q vs queue last free own) (id : Nat) :
    Holds { q with m_id := id } vs queue last free own :=
  ⟨h.out.frame rfl, h.head.frame rfl, h.inn,
    h.nodup, h.nodes, h.data⟩

/-- All nodes, with one of them on the stack or in neither chain. -/
theorem perm_own (queue free : List Nat) (last k : Nat) :
    ([] ++ (queue ++ [last] ++ k :: free)).Perm ([k] ++ (queue ++ [last] ++ free)) :=
  List.perm_middle

/-- The top of the stack is taken off. -/
theorem Holds.alloc (h : Holds q vs queue last (k :: free) []) :
    Holds { q with m_head := q.next k } vs queue last free [k] where
  out := h.out.frame rfl
  head := h.head.2.frame rfl
  inn := h.inn
  nodup := (perm_own queue free last k).nodup_iff.mp h.nodup
  nodes i := by
    rw [← (perm_own queue free last k).mem_iff]
    exact h.nodes i
  data := h.data

/-- A node is put on the stack. -/
theorem Holds.release (h : Holds q vs queue last free [k]) (hd : d.vals1 = some k)
    (hnext : q.next k = q.m_head) :
    Holds { q with m_head := d } vs queue last (k :: free) [] where
  out := h.out.frame rfl
  head := by
    have hrest : q.ChainFrom (q.next k) free := by
      rw [hnext]
      exact h.head
    exact ⟨hd, hrest.frame rfl⟩
  inn := h.inn
  nodup := (perm_own queue free last k).nodup_iff.mpr h.nodup
  nodes i := by
    rw [(perm_own queue free last k).mem_iff]
    exact h.nodes i
  data := h.data

/-- A node with its value is linked behind the last one, and `m_in` goes to it. -/
theorem Holds.link (h : Holds q vs queue last free [k]) (hd : d.vals1 = some k)
    (hnext : q.next k = .zero) (hdata : q.data k = some v) :
    Holds { q.setNext last d with m_in := d } (vs ++ [v]) (queue ++ [last]) k free [] := by
  obtain ⟨hk, hrest⟩ : k ∉ queue ++ [last] ++ free ∧ (queue ++ [last] ++ free).Nodup :=
    List.nodup_cons.mp h.nodup
  obtain ⟨hqueue, -, hdisj⟩ := List.nodup_append'.mp hrest
  rw [List.mem_append, not_or] at hk
  have hperm : ([] ++ (queue ++ [last] ++ [k] ++ free)).Perm
      ([k] ++ (queue ++ [last] ++ free)) := by
    rw [List.nil_append, List.append_assoc (queue ++ [last])]
    exact List.perm_middle
  have hlast : last ∉ free := hdisj (by simp)
  exact
    { out := (h.out.snoc hqueue hd hk.1 hnext).frame rfl
      head := (chainFrom_setNext hlast h.head).frame rfl
      inn := hd
      nodup := hperm.nodup_iff.mpr h.nodup
      nodes := fun i => by
        rw [hperm.mem_iff]
        exact h.nodes i
      data := by
        have htail : (queue ++ [last] ++ [k]).tail = (queue ++ [last]).tail ++ [k] :=
          List.tail_append_of_ne_nil (by simp)
        show (queue ++ [last] ++ [k]).tail.map (q.setNext last d).data = _
        rw [htail, setNext_data, List.map_append, h.data, List.map_append]
        simp [hdata] }

/-- The first node leaves the queue; the next one is the dummy now. -/
theorem Holds.advance (h : Holds q (v :: vs) (k :: queue) last free []) :
    Holds { q with m_out := q.next k } vs queue last free [k] where
  out := h.out.2.frame rfl
  head := h.head.frame rfl
  inn := h.inn
  nodup := h.nodup
  nodes := h.nodes
  data := by
    have hdata := h.data
    show (queue ++ [last]).tail.map q.data = _
    cases queue with
    | nil => exact (List.cons.inj hdata).2
    | cons i queue => exact (List.cons.inj hdata).2

/-- A queue with values has a first node besides the last one, and its oldest value is
behind that. -/
theorem Holds.first (h : Holds q (v :: vs) queue last free []) : ∃ k rest, queue = k :: rest ∧
    k ≠ last ∧ q.m_out.vals1 = some k ∧ q.next k ≠ .zero ∧
    ∃ i, (q.next k).vals1 = some i ∧ q.data i = some v := by
  have hdata := h.data
  cases queue with
  | nil => cases hdata
  | cons k rest =>
    have hk : k ∉ rest ++ [last] ++ free := (List.nodup_cons.mp h.nodup).1
    have hout := h.out
    refine ⟨k, rest, rfl, ?_, hout.1, ?_, ?_⟩
    · intro heq
      subst heq
      exact hk (by simp)
    · intro hzero
      have hnil := (ChainFrom.eq_nil hout.2).mp hzero
      simp at hnil
    · cases rest with
      | nil => exact ⟨last, hout.2.1, (List.cons.inj hdata).1⟩
      | cons i rest => exact ⟨i, hout.2.1, (List.cons.inj hdata).1⟩

end Moves

/-! ## One call -/

section Calls
variable {q q₁ : LockFreeList T} {vs : List T} {queue free : List Nat} {last k : Nat}
  {v : T} {p p₁ : Pc T} {rets : List (Ret T)}

theorem finish_step (n : Nat) (h : threadStep q p = some (q₁, p₁, rets)) (hp : p₁ ≠ .idle) :
    finish (n + 1) q p = finish n q₁ p₁ := by
  rw [finish, h]
  cases p₁ with
  | idle => exact absurd rfl hp
  | _ => rfl

theorem finish_last (n : Nat) (h : threadStep q p = some (q₁, .idle, rets)) :
    finish (n + 1) q p = some (q₁, rets) := by
  rw [finish, h]
  rfl

/-- `push` without a free node. -/
theorem push_full (h : Holds q vs queue last [] []) (n : Nat) :
    finish (n + 1) q (.allocHead v) = some (q, [.pushed v false]) := by
  have hzero : q.m_head = .zero := h.head.eq_nil.mpr rfl
  exact finish_last n (by simp [threadStep, hzero])

/-- `AllocNode` takes the top of the stack. -/
theorem finish_alloc (h : Holds q vs queue last (k :: free) []) (n : Nat) :
    finish (n + 5) q (.allocHead v) =
      finish n ({ q with m_head := q.next k }.setNext k .zero) (.pushData v k) := by
  have hvals : q.m_head.vals1 = some k := h.head.1
  have hne : q.m_head ≠ .zero := mt h.head.eq_nil.mp nofun
  have h1 : threadStep q (.allocHead v) = some (q, .allocPtr v q.m_head, []) := by
    simp [threadStep, hne]
  have h2 : threadStep q (.allocPtr v q.m_head) =
      some (q, .allocNext v q.m_head (some k), []) := by
    simp [threadStep, hvals]
  have h3 : threadStep q (.allocNext v q.m_head (some k)) =
      some (q, .allocCas v q.m_head (some k) (q.next k), []) := rfl
  have h4 : threadStep q (.allocCas v q.m_head (some k) (q.next k)) =
      some ({ q with m_head := q.next k }, .allocClear v (some k), []) := by
    simp [threadStep, hvals]
  rw [finish_step (n + 4) h1 (by simp), finish_step (n + 3) h2 (by simp),
    finish_step (n + 2) h3 (by simp), finish_step (n + 1) h4 (by simp)]
  exact finish_step n rfl (by simp)

/-- The rest of `push`, with the node `k` at hand. -/
theorem finish_push (h : Holds q vs queue last free [k]) (n : Nat) :
    ∃ q', finish (n + 8) q (.pushData v k) = some (q', [.pushed v true]) ∧ q'.m_max = q.m_max ∧
      Holds q' (vs ++ [v]) (queue ++ [last]) k free [] := by
  have hk : k ∈ [k] := List.mem_singleton_self k
  let nn : DoublePointer := ⟨size_t q.m_id, some k⟩
  let q₁ : LockFreeList T :=
    { (q.setData k v).setNext k .zero with m_id := q.m_id + 1 }
  have hq₁ : Holds q₁ vs queue last free [k] :=
    ((h.setData hk v).setNext hk .zero).count (q.m_id + 1)
  have hlast : q₁.next last = .zero := hq₁.out.last_next
  have hnext : q₁.next k = .zero := by
    show ((q.setData k v).setNext k .zero).next k = .zero
    rw [setNext_next, Function.update_self]
  have hdata : q₁.data k = some v := by
    show ((q.setData k v).setNext k .zero).data k = some v
    rw [setNext_data, setData_data, Function.update_self]
  have hvals : q₁.m_in.vals1 = some last := hq₁.inn
  have hwrite : threadStep q (.pushData v k) = some (q.setData k v, .pushNext v k, []) := rfl
  have hclear : threadStep (q.setData k v) (.pushNext v k) =
      some ((q.setData k v).setNext k .zero, .pushId v k, []) := rfl
  have hid : threadStep ((q.setData k v).setNext k .zero) (.pushId v k) =
      some (q₁, .pushIn v nn, []) := rfl
  have hin : threadStep q₁ (.pushIn v nn) = some (q₁, .pushTail v nn q₁.m_in, []) := rfl
  have htail : threadStep q₁ (.pushTail v nn q₁.m_in) =
      some (q₁, .pushTailNext v nn q₁.m_in (some last), []) := by
    simp [threadStep, hvals]
  have hread : threadStep q₁ (.pushTailNext v nn q₁.m_in (some last)) =
      some (q₁, .pushLink v nn q₁.m_in, []) := by
    simp [threadStep, hlast]
  have hlink : threadStep q₁ (.pushLink v nn q₁.m_in) =
      some (q₁.setNext last nn, .pushSwing v nn q₁.m_in, []) := by
    simp [threadStep, hvals, hlast]
  have hswing : threadStep (q₁.setNext last nn) (.pushSwing v nn q₁.m_in) =
      some ({ q₁.setNext last nn with m_in := nn }, .idle, [.pushed v true]) := by
    have hin : (q₁.setNext last nn).m_in = q₁.m_in := rfl
    simp only [threadStep, casIn, hin, if_true]
  refine ⟨{ q₁.setNext last nn with m_in := nn }, ?_, rfl, hq₁.link rfl hnext hdata⟩
  rw [finish_step (n + 7) hwrite (by simp), finish_step (n + 6) hclear (by simp),
    finish_step (n + 5) hid (by simp), finish_step (n + 4) hin (by simp),
    finish_step (n + 3) htail (by simp), finish_step (n + 2) hread (by simp),
    finish_step (n + 1) hlink (by simp)]
  exact finish_last n hswing

/-- `pop` of an empty queue. -/
theorem pop_empty (h : Holds q [] queue last free []) (n : Nat) :
    finish (n + 4) q .popOut = some (q, [.empty]) := by
  have hqueue : queue = [] := by
    have hdata := h.data
    cases queue with
    | nil => rfl
    | cons k rest => simp at hdata
  subst hqueue
  have hvals : q.m_out.vals1 = some last := h.out.1
  have hlast : q.next last = .zero := h.out.2
  have hout : threadStep q .popOut = some (q, .popIn q.m_out, []) := rfl
  have hin : threadStep q (.popIn q.m_out) = some (q, .popHead q.m_out q.m_in, []) := rfl
  have hhead : threadStep q (.popHead q.m_out q.m_in) =
      some (q, .popNext q.m_out q.m_in (some last), []) := by
    simp [threadStep, hvals]
  have hnext : threadStep q (.popNext q.m_out q.m_in (some last)) = some (q, .idle, [.empty]) := by
    simp [threadStep, hlast]
  rw [finish_step (n + 3) hout (by simp), finish_step (n + 2) hin (by simp),
    finish_step (n + 1) hhead (by simp)]
  exact finish_last n hnext

/-- `ReleaseNode` puts the node on the stack. -/
theorem finish_release (h : Holds q vs queue last free [k]) (data : Option T) (n : Nat) :
    ∃ q', finish (n + 4) q (.relId data (some k)) = some (q', [.popped data]) ∧
      q'.m_max = q.m_max ∧ Holds q' vs queue last (k :: free) [] := by
  have hlt : k < q.m_max := (h.nodes k).mp (by simp)
  let nn : DoublePointer := ⟨size_t q.m_id, some k⟩
  let q₁ : LockFreeList T := { q with m_id := q.m_id + 1 }
  have hid : threadStep q (.relId data (some k)) = some (q₁, .relHead data k nn, []) := by
    simp [threadStep, hlt, q₁, nn]
  have hread : threadStep q₁ (.relHead data k nn) = some (q₁, .relNext data k nn q₁.m_head, []) :=
    rfl
  have hwrite : threadStep q₁ (.relNext data k nn q₁.m_head) =
      some (q₁.setNext k q₁.m_head, .relCas data k nn q₁.m_head, []) := rfl
  have hcas : threadStep (q₁.setNext k q₁.m_head) (.relCas data k nn q₁.m_head) =
      some ({ q₁.setNext k q₁.m_head with m_head := nn }, .idle, [.popped data]) := by
    have hhead : (q₁.setNext k q₁.m_head).m_head = q₁.m_head := rfl
    simp only [threadStep, hhead, if_true]
  have hq₁ : Holds (q₁.setNext k q₁.m_head) vs queue last free [k] :=
    (h.count (q.m_id + 1)).setNext (List.mem_singleton_self k) q₁.m_head
  refine ⟨{ q₁.setNext k q₁.m_head with m_head := nn }, ?_, rfl, hq₁.release rfl ?_⟩
  · rw [finish_step (n + 3) hid (by simp), finish_step (n + 2) hread (by simp),
      finish_step (n + 1) hwrite (by simp)]
    exact finish_last n hcas
  · rw [setNext_next, Function.update_self]
    rfl

/-- `pop` of a queue with values. -/
theorem pop_first (h : Holds q (v :: vs) queue last free []) (n : Nat) :
    ∃ q' queue' free', finish (n + 10) q .popOut = some (q', [.popped (some v)]) ∧
      q'.m_max = q.m_max ∧ Holds q' vs queue' last free' [] := by
  obtain ⟨k, rest, rfl, hkl, hvals, hne, i, hi, hdata⟩ := h.first
  have hends : q.m_in ≠ q.m_out := by
    intro heq
    have hin := h.inn
    rw [heq, hvals] at hin
    exact hkl (Option.some.inj hin)
  have hout : threadStep q .popOut = some (q, .popIn q.m_out, []) := rfl
  have hin : threadStep q (.popIn q.m_out) = some (q, .popHead q.m_out q.m_in, []) := rfl
  have hhead : threadStep q (.popHead q.m_out q.m_in) =
      some (q, .popNext q.m_out q.m_in (some k), []) := by
    simp [threadStep, hvals]
  have hnext : threadStep q (.popNext q.m_out q.m_in (some k)) =
      some (q, .popData q.m_out (q.next k), []) := by
    simp [threadStep, hne, hends]
  have hread : threadStep q (.popData q.m_out (q.next k)) =
      some (q, .popCas q.m_out (q.next k) (some v), []) := by
    simp [threadStep, hi, hdata]
  have hcas : threadStep q (.popCas q.m_out (q.next k) (some v)) =
      some ({ q with m_out := q.next k }, .relId (some v) (some k), []) := by
    simp [threadStep, hvals]
  obtain ⟨q', hfin, hmax, hq'⟩ := finish_release h.advance (some v) n
  refine ⟨q', rest, k :: free, ?_, hmax, hq'⟩
  rw [finish_step (n + 9) hout (by simp), finish_step (n + 8) hin (by simp),
    finish_step (n + 7) hhead (by simp), finish_step (n + 6) hnext (by simp),
    finish_step (n + 5) hread (by simp), finish_step (n + 4) hcas (by simp)]
  exact hfin

/-- Every node is the dummy, holds a value or is free. -/
theorem Holds.length (h : Holds q vs queue last free []) :
    queue.length = vs.length ∧ vs.length + 1 + free.length = q.m_max := by
  have hperm : (queue ++ [last] ++ free).Perm (List.range q.m_max) := by
    refine (List.perm_ext_iff_of_nodup h.nodup List.nodup_range).mpr fun k => ?_
    rw [List.mem_range]
    exact h.nodes k
  have hall := hperm.length_eq
  have hdata := congrArg List.length h.data
  simp only [List.length_map, List.length_tail, List.length_append, List.length_singleton,
    List.length_range] at hall hdata
  omega

/-- A call ends, and does what a bounded queue does. -/
theorem call_spec (h : Shape q vs) (c : Call T) {fuel : Nat} (hfuel : 13 ≤ fuel) :
    ∃ q', finish fuel q c.start = some (q', [(c.spec q.m_max vs).2]) ∧ q'.m_max = q.m_max ∧
      Shape q' (c.spec q.m_max vs).1 := by
  obtain ⟨queue, last, free, hq⟩ := h
  obtain ⟨-, hlen⟩ := hq.length
  obtain ⟨n, rfl⟩ := Nat.exists_eq_add_of_le' hfuel
  cases c with
  | push v =>
    simp only [Call.spec, Call.start]
    cases free with
    | nil =>
      have hfull : ¬ vs.length < q.m_max - 1 := by
        simp only [List.length_nil] at hlen
        omega
      rw [if_neg hfull]
      exact ⟨q, push_full hq (n + 12), rfl, queue, last, [], hq⟩
    | cons k free =>
      have hroom : vs.length < q.m_max - 1 := by
        simp only [List.length_cons] at hlen
        omega
      rw [if_pos hroom]
      have halloc := hq.alloc.setNext (List.mem_singleton_self k) .zero
      obtain ⟨q', hfin, hmax, hq'⟩ := finish_push (v := v) halloc n
      refine ⟨q', ?_, hmax, queue ++ [last], k, free, hq'⟩
      rw [finish_alloc hq (n + 8)]
      exact hfin
  | pop =>
    cases vs with
    | nil => exact ⟨q, pop_empty hq (n + 9), rfl, queue, last, free, hq⟩
    | cons v vs =>
      obtain ⟨q', queue', free', hfin, hmax, hq'⟩ := pop_first hq (n + 3)
      exact ⟨q', hfin, hmax, queue', last, free', hq'⟩

theorem calls_spec {fuel : Nat} (hfuel : 13 ≤ fuel) (cs : List (Call T)) :
    ∀ {q : LockFreeList T} {vs : List T}, Shape q vs →
      ∃ q', calls fuel q cs = some (q', (specs q.m_max vs cs).2) ∧
        Shape q' (specs q.m_max vs cs).1 := by
  induction cs with
  | nil => exact fun {q vs} h => ⟨q, rfl, h⟩
  | cons c cs ih =>
    intro q vs h
    obtain ⟨q₁, hfin, hmax, h₁⟩ := call_spec h c hfuel
    obtain ⟨q', hcalls, h'⟩ := ih h₁
    rw [hmax] at hcalls h'
    refine ⟨q', ?_, h'⟩
    rw [calls, hfin, Option.bind_some, hcalls]
    rfl

end Calls

/-- Calls in one thread: each of them ends, the list returns what a bounded queue for
`capacity - 1` values returns, and after each of them it has the shape of that queue. -/
theorem fifo (capacity : Nat) (hcap : 1 ≤ capacity) (cs : List (Call T)) (fuel : Nat)
    (hfuel : 13 ≤ fuel) : ∃ q, calls fuel (new capacity) cs = some (q, (specs capacity [] cs).2) ∧
      Shape q (specs capacity [] cs).1 :=
  calls_spec hfuel cs ⟨[], 0, _, holds_new hcap⟩

/-- Two nodes have room for one value. -/
theorem fifo_two : ∃ q, calls 13 (new 2) [.push 7, .push 8, .pop, .pop, .push 9] =
      some (q, [.pushed 7 true, .pushed 8 false, .popped (some 7), .empty, .pushed 9 true]) ∧
    Shape q [9] :=
  fifo 2 (by decide) [.push 7, .push 8, .pop, .pop, .push 9] 13 (by decide)

end Ppcode.LockFreeList
