import Ppcode.Core.Potential
import Ppcode.Thread.LockFreeLinear

/-!
# How much work the calls of `LockFreeList` make

`push` and `pop` try again when a compare-and-swap fails, which it does only when another thread
has changed `m_head`, `m_out`, the end of the queue or `m_in` since they were read. A call makes
at most three such changes; whoever makes one pays for the tries it spoils, and `m_in` moves
forward once for each node that was linked.

* `threadStep_work`: an access either brings its call nearer to its end and spoils nothing, or
  makes one of the changes.
* `work_le`: the accesses of `n` threads are at most `18 n + 14` times their calls, whatever
  their order. So some call returns whenever enough accesses are made: the list is lock-free.
* `spins`: without `Safe` there is no such bound. A node that is in the queue and on the stack
  can be linked to itself, and a push then follows that link for ever.
-/
namespace Ppcode.LockFreeList
variable {T : Type} {n : Nat}

/-- The accesses up to the end of the call when nothing changes any more; those of the try that
is lost come first. -/
def rest (q : LockFreeList T) : Pc T → Nat
  | .idle => 0
  | .allocHead _ => 13
  | .allocPtr _ old => 12 + if q.m_head = old then 0 else 4
  | .allocNext _ old _ => 11 + if q.m_head = old then 0 else 4
  | .allocCas _ old _ _ => 10 + if q.m_head = old then 0 else 4
  | .allocClear _ _ => 9
  | .pushData _ _ => 8
  | .pushNext _ _ => 7
  | .pushId _ _ => 6
  | .pushIn _ _ => 5
  | .pushTail _ _ inp => 4 + if q.m_in = inp then 0 else 5
  | .pushTailNext _ _ inp _ => 3 + if q.m_in = inp then 0 else 5
  | .pushHelp _ _ inp _ => 2 + if q.m_in = inp then 0 else 5
  | .pushLink _ _ inp => 2 + if q.m_in = inp ∧ inp.vals1.map q.next = some .zero then 0 else 4
  | .pushSwing _ _ _ => 1
  | .popOut => 10
  | .popIn out => 9 + if q.m_out = out then 0 else 6
  | .popHead out inp => 8 + if q.m_out = out ∧ q.m_in = inp then 0 else 6
  | .popNext out inp _ => 7 + if q.m_out = out ∧ q.m_in = inp then 0 else 6
  | .popHelp inp _ => 6 + if q.m_in = inp then 0 else 5
  | .popData out _ => 6 + if q.m_out = out then 0 else 6
  | .popCas out _ _ => 5 + if q.m_out = out then 0 else 6
  | .relId _ _ => 4
  | .relHead _ _ _ => 3
  | .relNext _ _ _ old => 2 + if q.m_head = old then 0 else 3
  | .relCas _ _ _ old => 1 + if q.m_head = old then 0 else 3

/-- The changes that the call is still going to make; a link is two, as `m_in` is to follow. -/
def changes : Pc T → Nat
  | .allocHead _ | .allocPtr _ _ | .allocNext _ _ _ | .allocCas _ _ _ _ => 3
  | .allocClear _ _ | .pushData _ _ | .pushNext _ _ | .pushId _ _ | .pushIn _ _ | .pushTail _ _ _
  | .pushTailNext _ _ _ _ | .pushHelp _ _ _ _ | .pushLink _ _ _ => 2
  | .popOut | .popIn _ | .popHead _ _ | .popNext _ _ _ | .popHelp _ _ | .popData _ _
  | .popCas _ _ _ => 2
  | .relId _ _ | .relHead _ _ _ | .relNext _ _ _ _ | .relCas _ _ _ _ => 1
  | .idle | .pushSwing _ _ _ => 0

@[simp] theorem rest_idle (q : LockFreeList T) : rest q .idle = 0 := rfl

@[simp] theorem changes_idle : changes (.idle : Pc T) = 0 := rfl

/-- The links that `m_in` has still to follow. -/
def Ghost.lag (g : Ghost T) : Nat := g.vals.length - g.inn

/-- The shared words that a lost try depends on are as before. -/
structure Calm (q q' : LockFreeList T) : Prop where
  head : q'.m_head = q.m_head
  inp : q'.m_in = q.m_in
  out : q'.m_out = q.m_out
  next : q.m_in.vals1.map q.next = some .zero → q.m_in.vals1.map q'.next = some .zero

theorem rest_le (q q' : LockFreeList T) (p : Pc T) : rest q' p ≤ rest q p + 6 := by
  cases p <;> simp only [rest] <;> (try split) <;> omega

theorem Calm.rest_le {q q' : LockFreeList T} (h : Calm q q') (p : Pc T) : rest q' p ≤ rest q p := by
  cases p with
  | pushLink v nn inp =>
    simp only [rest, h.inp]
    split
    · omega
    · rename_i hnot
      rw [if_neg]
      rintro ⟨rfl, hz⟩
      exact hnot ⟨rfl, h.next hz⟩
  | _ => simp only [rest, h.head, h.inp, h.out, le_refl]

/-! ## `m_in` and the end of the queue -/

section Lag
variable {g g' : Ghost T} {q q' : LockFreeList T} {p p' : Pc T} {rets : List (Ret T)}
  (I : SharedInv g q) (S : StepSpec p g q p' rets g' q')
include I S

theorem StepSpec.inn_eq (h : q'.m_in = q.m_in) : g'.inn = g.inn := by
  have hat := I.at_in.mono S.rely.links
  rw [← h] at hat
  exact S.inv.at_inj S.inv.at_in hat

theorem StepSpec.lag_eq (h : q'.m_in = q.m_in) (hvals : g'.vals = g.vals) : g'.lag = g.lag := by
  rw [Ghost.lag, Ghost.lag, hvals, S.inn_eq I h]

/-- `m_in` follows a link. -/
theorem StepSpec.lag_swing {next : DoublePointer} (hf : Follows g q.m_in next)
    (h : q'.m_in = next) (hvals : g'.vals = g.vals) : g'.lag + 1 = g.lag := by
  obtain ⟨j, hj, hnext⟩ := hf
  obtain rfl := I.at_inj hj I.at_in
  have hat : At g (g.inn + 1) next := hnext.resolve_left (Nat.lt_irrefl _)
  have hinn : g'.inn = g.inn + 1 := by
    have hat' := hat.mono S.rely.links
    rw [← h] at hat'
    exact S.inv.at_inj S.inv.at_in hat'
  obtain ⟨r, hr, -⟩ := hat
  have hlt := (List.getElem?_eq_some_iff.mp hr).1
  have hlen := I.len
  rw [Ghost.lag, Ghost.lag, hvals, hinn]
  omega

/-- A node is linked. -/
theorem StepSpec.lag_link {v : T} (h : q'.m_in = q.m_in) (hvals : g'.vals = g.vals ++ [v]) :
    g'.lag = g.lag + 1 := by
  have hlt := I.inn_lt
  have hlen := I.len
  rw [Ghost.lag, Ghost.lag, hvals, S.inn_eq I h, List.length_append, List.length_singleton]
  omega

end Lag

/-! ## One access -/

/-- An access from `p` to `p'`: the call comes nearer to its end and no other thread loses a try,
or the access is one of the changes that are paid for. -/
inductive Work (g : Ghost T) (q : LockFreeList T) (p : Pc T) (g' : Ghost T) (q' : LockFreeList T)
    (p' : Pc T) : Prop
  | calm (h : Calm q q') (hrest : rest q' p' + 1 ≤ rest q p)
    (hchanges : changes p' + g'.lag ≤ changes p + g.lag)
  | change (hrest : rest q' p' + 1 ≤ rest q p + 6)
    (hchanges : changes p' + g'.lag + 1 ≤ changes p + g.lag)

theorem Calm.refl (q : LockFreeList T) : Calm q q := ⟨rfl, rfl, rfl, id⟩

section Access
variable {g g' : Ghost T} {q q' : LockFreeList T} {p p' : Pc T} {rets : List (Ret T)}
  (I : SharedInv g q) (S : StepSpec p g q p' rets g' q')
include I S

/-- No value is linked and the words are as before. -/
theorem StepSpec.calm (h : Calm q q') (hpush : pushedVals rets + linked p' = linked p)
    (hrest : rest q' p' + 1 ≤ rest q p) (hchanges : changes p' ≤ changes p) :
    Work g q p g' q' p' := by
  have hlag := S.lag_eq I h.inp (S.vals_eq hpush)
  exact .calm h hrest (by omega)

/-- `m_head` or `m_out` is changed. -/
theorem StepSpec.change (h : q'.m_in = q.m_in) (hpush : pushedVals rets + linked p' = linked p)
    (hrest : rest q' p' + 1 ≤ rest q p + 6) (hchanges : changes p' + 1 ≤ changes p) :
    Work g q p g' q' p' := by
  have hlag := S.lag_eq I h (S.vals_eq hpush)
  exact .change hrest (by omega)

/-- `m_in` is to follow a link; where it has changed, the access does nothing. -/
theorem StepSpec.swing {inp next : DoublePointer} (hq : q' = q.casIn inp next)
    (hf : Follows g inp next) (hpush : pushedVals rets + linked p' = linked p)
    (hstale : q.m_in ≠ inp → rest q p' + 1 ≤ rest q p) (hrest : rest q' p' + 1 ≤ rest q p + 6)
    (hchanges : changes p' ≤ changes p) : Work g q p g' q' p' := by
  by_cases hin : q.m_in = inp
  · rw [← hin] at hf
    have hnext : q'.m_in = next := by rw [hq, LockFreeList.casIn, if_pos hin]
    have hlag := S.lag_swing I hf hnext (S.vals_eq hpush)
    exact .change hrest (by omega)
  · have hsame : q' = q := by rw [hq, LockFreeList.casIn, if_neg hin]
    subst hsame
    exact S.calm I (.refl _) hpush (hstale hin) hchanges

end Access

/-- The node of a thread is not the one that `m_in` shows. -/
theorem SharedInv.own_ne_in {g : Ghost T} {q : LockFreeList T} (I : SharedInv g q) {k i : Nat}
    (hk : k ∉ g.shared) (hi : q.m_in.vals1 = some i) : i ≠ k := by
  obtain ⟨r, hr, hin⟩ := I.tail
  rw [hin, Ref.dp_vals1, Option.some.injEq] at hi
  subst hi
  exact fun e => hk (e ▸ Ghost.mem_shared_queue (Ghost.mem_queue I.out_le hr))

/-- An access to a node that is not shared. -/
theorem SharedInv.calm_setNext {g : Ghost T} {q : LockFreeList T} (I : SharedInv g q) {k : Nat}
    (hk : k ∉ g.shared) (d : DoublePointer) : Calm q (q.setNext k d) where
  head := rfl
  inp := rfl
  out := rfl
  next h := by
    obtain ⟨i, hi, hz⟩ := Option.map_eq_some_iff.mp h
    rw [hi, Option.map_some, setNext_next, Function.update_of_ne (I.own_ne_in hk hi), hz]

theorem calm_setData (q : LockFreeList T) (k : Nat) (v : T) : Calm q (q.setData k v) :=
  ⟨rfl, rfl, rfl, fun h => by rw [setData_next]; exact h⟩

theorem calm_incr (q : LockFreeList T) : Calm q { q with m_id := q.m_id + 1 } :=
  ⟨rfl, rfl, rfl, id⟩

/-- **One access.** -/
theorem threadStep_work {g g' : Ghost T} {q q' : LockFreeList T} {p p' : Pc T} {rets : List (Ret T)}
    (I : SharedInv g q) (hL : Local g q p) (hO : ∀ k, own p = some k → k ∉ g.shared)
    (S : StepSpec p g q p' rets g' q') (hst : threadStep q p = some (q', p', rets)) :
    Work g q p g' q' p' := by
  have hrefl : Calm q q := .refl q
  cases p with
  | idle => cases hst
  | allocHead v =>
    simp only [threadStep] at hst
    split at hst
    · cases hst
      exact S.calm I hrefl rfl (by simp [rest]) (by simp [changes])
    · cases hst
      exact S.calm I hrefl rfl (by simp [rest]) (by simp [changes])
  | allocPtr v old =>
    cases hst
    exact S.calm I hrefl rfl (by simp only [rest]; omega) (le_refl _)
  | allocNext v old p =>
    cases p with
    | none => cases hst
    | some k =>
      cases hst
      exact S.calm I hrefl rfl (by simp only [rest]; omega) (le_refl _)
  | allocCas v old p next =>
    simp only [threadStep] at hst
    split at hst
    · cases hst
      exact S.change I rfl rfl (by simp only [rest]; omega) (by simp [changes])
    · rename_i hne
      cases hst
      exact S.calm I hrefl rfl (by simp only [rest, if_neg hne]; omega) (le_refl _)
  | allocClear v ret =>
    obtain ⟨k, rfl⟩ := hL
    cases hst
    exact S.calm I (I.calm_setNext (hO k rfl) _) rfl (by simp [rest]) (le_refl _)
  | pushData v k =>
    cases hst
    exact S.calm I (calm_setData q k v) rfl (by simp [rest]) (le_refl _)
  | pushNext v k =>
    cases hst
    exact S.calm I (I.calm_setNext (hO k rfl) _) rfl (by simp [rest]) (le_refl _)
  | pushId v k =>
    cases hst
    exact S.calm I (calm_incr q) rfl (by simp [rest]) (le_refl _)
  | pushIn v nn =>
    cases hst
    exact S.calm I hrefl rfl (by simp [rest]) (le_refl _)
  | pushTail v nn inp =>
    cases hst
    exact S.calm I hrefl rfl (by simp only [rest]; omega) (le_refl _)
  | pushTailNext v nn inp tail =>
    obtain ⟨-, -, rfl⟩ := hL
    obtain ⟨k, hk, he⟩ := Option.map_eq_some_iff.mp hst
    split at he
    · rename_i hz
      cases he
      refine S.calm I hrefl rfl ?_ (le_refl _)
      simp only [rest, hk, Option.map_some, hz, and_true]
      split <;> omega
    · cases he
      exact S.calm I hrefl rfl (by simp only [rest]; omega) (le_refl _)
  | pushHelp v nn inp next =>
    obtain ⟨-, -, hf⟩ := hL
    cases hst
    refine S.swing I rfl hf rfl (fun hne => ?_) ?_ (le_refl _)
    · simp only [rest, hne, false_and, if_false]
      omega
    · simp only [rest]
      split <;> split <;> omega
  | pushLink v nn inp =>
    obtain ⟨k, hk, he⟩ := Option.map_eq_some_iff.mp hst
    split at he
    · cases he
      have hvals := S.vals_snoc (v := v) (by simp [pushedVals, linked])
      have hlag := S.lag_link I rfl hvals
      exact .change (by simp only [rest]; omega) (by simp only [changes]; omega)
    · rename_i hz
      cases he
      refine S.calm I hrefl rfl ?_ (le_refl _)
      simp only [rest, hk, Option.map_some, Option.some.injEq, hz, and_false, if_false]
      omega
  | pushSwing v nn inp =>
    cases hst
    exact S.swing I rfl hL (by simp [pushedVals, linked, Ret.accepted]) (fun _ => by simp [rest])
      (by simp [rest]) (by simp [changes])
  | popOut =>
    cases hst
    exact S.calm I hrefl rfl (by simp [rest]) (le_refl _)
  | popIn out =>
    cases hst
    refine S.calm I hrefl rfl ?_ (le_refl _)
    simp only [rest, and_true]
    omega
  | popHead out inp =>
    cases hst
    exact S.calm I hrefl rfl (by simp only [rest]; omega) (le_refl _)
  | popNext out inp head =>
    obtain ⟨k, hk, he⟩ := Option.map_eq_some_iff.mp hst
    split at he
    · cases he
      exact S.calm I hrefl rfl (by simp only [rest]; omega) (by simp [changes])
    · split at he
      · rename_i heq
        cases he
        refine S.calm I hrefl rfl ?_ (le_refl _)
        by_cases hin : q.m_in = inp
        · simp only [rest, hin, if_true]
          omega
        · simp only [rest, hin, and_false, if_false]
          omega
      · cases he
        refine S.calm I hrefl rfl ?_ (le_refl _)
        by_cases hout : q.m_out = out
        · simp only [rest, hout, if_true]
          omega
        · simp only [rest, hout, false_and, if_false]
          omega
  | popHelp inp next =>
    cases hst
    refine S.swing I rfl hL rfl (fun hne => ?_) ?_ (le_refl _)
    · simp only [rest, if_neg hne]
      omega
    · simp only [rest]
      omega
  | popData out next =>
    obtain ⟨k, hk, he⟩ := Option.map_eq_some_iff.mp hst
    cases he
    exact S.calm I hrefl rfl (by simp only [rest]; omega) (le_refl _)
  | popCas out next data =>
    simp only [threadStep] at hst
    split at hst
    · cases hst
      exact S.change I rfl rfl (by simp only [rest]; omega) (by simp [changes])
    · rename_i hne
      cases hst
      exact S.calm I hrefl rfl (by simp only [rest, if_neg hne]; omega) (le_refl _)
  | relId data cur =>
    obtain ⟨-, k, rfl⟩ := hL
    simp only [threadStep, Option.bind_some] at hst
    split at hst
    · cases hst
      exact S.calm I (calm_incr q) rfl (by simp [rest]) (le_refl _)
    · cases hst
  | relHead data k nn =>
    cases hst
    exact S.calm I hrefl rfl (by simp [rest]) (le_refl _)
  | relNext data k nn old =>
    cases hst
    refine S.calm I (I.calm_setNext (hO k rfl) _) rfl ?_ (le_refl _)
    simp only [rest, (I.calm_setNext (hO k rfl) old).head]
    omega
  | relCas data k nn old =>
    simp only [threadStep] at hst
    split at hst
    · cases hst
      exact S.change I rfl (by simp [pushedVals, linked, Ret.accepted])
        (by simp only [rest]; omega) (by simp [changes])
    · rename_i hne
      cases hst
      exact S.calm I hrefl rfl (by simp only [rest, if_neg hne]; omega) (le_refl _)

/-! ## Runs -/

/-- What the calls in progress have left to do, with a price on each change. -/
def price (g : Ghost T) (s : Sys T n) : Nat :=
  tsum (rest s.q) s.pc + 6 * n * (tsum changes s.pc + g.lag)

def Priced (m : Nat) (s : Sys T n) (φ : Nat) : Prop := ∃ g, Inv m g s ∧ φ = price g s

/-- What a call is charged for: a push makes three changes, a pop two. -/
def charge (n : Nat) : Fin n × Act T → Nat
  | (_, .push _) => 18 * n + 14
  | (_, .pop) => 12 * n + 11
  | (_, .step) => 0

theorem price_init (m : Nat) : price (initGhost m) (init m : Sys T n) = 0 := by
  have hrest : tsum (rest (new m : LockFreeList T)) (fun _ : Fin n => .idle) = 0 :=
    tsum_zero _ _ fun _ => rfl
  have hchanges : tsum changes (fun _ : Fin n => (.idle : Pc T)) = 0 := tsum_zero _ _ fun _ => rfl
  simp [price, init, hrest, hchanges, initGhost, Ghost.lag]

/-- A call starts. -/
theorem price_call (g : Ghost T) {s : Sys T n} {t : Fin n} {p : Pc T} (hpc : s.pc t = .idle) :
    price g { s with pc := Function.update s.pc t p } =
      price g s + rest s.q p + 6 * n * changes p := by
  have hrest := tsum_update (rest s.q) s.pc t p
  have hchanges := tsum_update changes s.pc t p
  rw [hpc, rest_idle, Nat.add_zero] at hrest
  rw [hpc, changes_idle, Nat.add_zero] at hchanges
  simp only [price, hrest, hchanges, Nat.mul_add]
  omega

/-- A call makes an access. -/
theorem price_access {g g' : Ghost T} {s : Sys T n} {t : Fin n} {q' : LockFreeList T} {p' : Pc T}
    (log : List (Ret T)) (h : Work g s.q (s.pc t) g' q' p') :
    price g' ⟨q', Function.update s.pc t p', log⟩ + 1 ≤ price g s := by
  have hchanges := tsum_update changes s.pc t p'
  unfold price
  cases h with
  | calm hc hrest hch =>
    have hsum := tsum_move (f := rest s.q) (c := 0) (d := 1) hc.rest_le hrest
    have hle : tsum changes (Function.update s.pc t p') + g'.lag ≤ tsum changes s.pc + g.lag := by
      omega
    have hmul := Nat.mul_le_mul_left (6 * n) hle
    simp only at hsum ⊢
    omega
  | change hrest hch =>
    have hsum := tsum_move (f := rest s.q) (c := 6) (d := 1) (rest_le s.q q') hrest
    have hle : tsum changes (Function.update s.pc t p') + g'.lag + 1 ≤ tsum changes s.pc + g.lag := by
      omega
    have hmul := Nat.mul_le_mul_left (6 * n) hle
    rw [Nat.mul_add_one] at hmul
    simp only at hsum ⊢
    omega

theorem pays (T : Type) (n m : Nat) (hm : 2 ≤ m) :
    ((lts T n m).restrict Safe).Pays (Priced m) (charge n) where
  init s hs := by
    rw [show s = init m from hs]
    exact ⟨initGhost m, inv_init hm, (price_init m).symm⟩
  step s a s' φ hp hstep := by
    obtain ⟨g, I, rfl⟩ := hp
    obtain ⟨hst, hsafe⟩ := hstep
    change step s a = some s' at hst
    obtain ⟨t, act⟩ := a
    cases act with
    | push v =>
      simp only [step] at hst
      split at hst
      · rename_i hpc
        cases hst
        refine ⟨_, ⟨g, I.call hpc rfl rfl rfl rfl trivial, rfl⟩, ?_⟩
        rw [price_call g hpc]
        simp only [rest, changes, charge]
        omega
      · cases hst
    | pop =>
      simp only [step] at hst
      split at hst
      · rename_i hpc
        cases hst
        refine ⟨_, ⟨g, I.call hpc rfl rfl rfl rfl trivial, rfl⟩, ?_⟩
        rw [price_call g hpc]
        simp only [rest, changes, charge]
        omega
      · cases hst
    | step =>
      simp only [step] at hst
      obtain ⟨⟨q', p', rets⟩, ha, rfl⟩ := Option.map_eq_some_iff.mp hst
      obtain ⟨g', S⟩ := threadStep_spec I.shared (I.know t) (I.own_out t) (I.drawn t) hsafe ha
      have hwork := threadStep_work I.shared (I.know t) (I.own_out t) S ha
      exact ⟨_, ⟨g', I.access S, rfl⟩, price_access _ hwork⟩

/-- The calls of a run. -/
def started : List (Fin n × Act T) → Nat
  | [] => 0
  | (_, .step) :: ls => started ls
  | _ :: ls => started ls + 1

theorem started_append (ls ls' : List (Fin n × Act T)) :
    started (ls ++ ls') = started ls + started ls' := by
  induction ls with
  | nil => exact (Nat.zero_add _).symm
  | cons a ls ih =>
    obtain ⟨t, act⟩ := a
    cases act with
    | push v | pop =>
      simp only [List.cons_append, started, ih]
      omega
    | step => exact ih

theorem started_steps (i : Fin n) (k : Nat) :
    started (List.replicate k ((i, .step) : Fin n × Act T)) = 0 := by
  induction k with
  | zero => rfl
  | succ k ih => exact ih

theorem charge_le (ls : List (Fin n × Act T)) :
    (ls.map (charge n)).sum ≤ (18 * n + 14) * started ls := by
  induction ls with
  | nil => exact Nat.zero_le _
  | cons a ls ih =>
    obtain ⟨t, act⟩ := a
    rw [List.map_cons, List.sum_cons]
    cases act with
    | push v | pop =>
      simp only [charge, started, Nat.mul_add_one]
      omega
    | step =>
      simp only [charge, started]
      omega

/-- However the threads are interleaved, the accesses that a run makes are at most `18 n + 14` for
each of its calls. -/
theorem work_le (T : Type) (n m : Nat) (hm : 2 ≤ m) (ls : List (Fin n × Act T)) (s : Sys T n)
    (hr : ((lts T n m).restrict Safe).Run (init m) ls s) :
    ls.length ≤ (18 * n + 14) * started ls :=
  Nat.le_trans ((pays T n m hm).length_le rfl hr) (charge_le ls)

/-- Two pushes side by side; that of `j` loses a try for the top of the stack. -/
def contendedRun (i j : Fin n) : List (Fin n × Act Nat) :=
  (i, .push 7) :: (j, .push 8) :: (List.replicate 13 [(i, .step), (j, .step)]).flatten ++
    List.replicate 4 (j, .step)

theorem work_le_contended : ∃ s : Sys Nat 2,
    ((lts Nat 2 3).restrict Safe).Run (init 3) (contendedRun 0 1) s ∧ s.log.length = 2 ∧
    (contendedRun 0 1 : List (Fin 2 × Act Nat)).length ≤ (18 * 2 + 14) * 2 := by
  have hb : (LTS.execWith step safeB (init 3 : Sys Nat 2) (contendedRun 0 1)).any
      (fun s => decide (s.log.length = 2)) = true := by decide +kernel
  obtain ⟨s, hs, hlog⟩ := (Option.any_eq_true _ _).mp hb
  have hrun : ((lts Nat 2 3).restrict Safe).Run (init 3) (contendedRun 0 1) s :=
    LTS.run_of_execWith safe_of_safeB hs
  exact ⟨s, hrun, of_decide_eq_true hlog, work_le Nat 2 3 (by decide) _ s hrun⟩

/-! ## Without the condition -/

/-- A push that goes on with the link of `m_in`, which leads back to `m_in`. -/
def Spinning (s : Sys T n) (i : Fin n) : Prop :=
  ∃ v nn k, s.pc i = .pushIn v nn ∧ s.q.m_in.vals1 = some k ∧ s.q.next k = s.q.m_in ∧
    s.q.m_in ≠ .zero

theorem exec_step {s : Sys T n} {i : Fin n} {q : LockFreeList T} {p : Pc T}
    (h : threadStep s.q (s.pc i) = some (q, p, [])) (ls : List (Fin n × Act T)) :
    LTS.exec step s ((i, .step) :: ls) =
      LTS.exec step { s with q := q, pc := Function.update s.pc i p } ls := by
  simp only [LTS.exec, step, h, Option.map_some, Option.bind_some, List.append_nil]

/-- Five accesses, and everything is as before. -/
theorem Spinning.round {s : Sys T n} {i : Fin n} (h : Spinning s i) :
    LTS.exec step s (List.replicate 5 (i, .step)) = some s := by
  obtain ⟨v, nn, k, hpc, hk, hnext, hne⟩ := h
  have hcas : s.q.casIn s.q.m_in s.q.m_in = s.q := by rw [casIn, if_pos rfl]
  simp only [List.replicate]
  rw [exec_step (p := .pushTail v nn s.q.m_in) (q := s.q) (by rw [hpc]; rfl),
    exec_step (p := .pushTailNext v nn s.q.m_in (some k)) (q := s.q)
      (by simp only [Function.update_self, threadStep, hk]),
    exec_step (p := .pushHelp v nn s.q.m_in s.q.m_in) (q := s.q)
      (by simp only [Function.update_self, threadStep, Option.map_some, hnext, if_neg hne]),
    exec_step (p := .pushLink v nn s.q.m_in) (q := s.q)
      (by simp only [Function.update_self, threadStep, hcas]),
    exec_step (p := .pushIn v nn) (q := s.q)
      (by simp only [Function.update_self, threadStep, hk, Option.map_some, hnext, if_neg hne])]
  simp only [Function.update_idem, LTS.exec]
  rw [← hpc, Function.update_eq_self]

theorem Spinning.rounds {s : Sys T n} {i : Fin n} (h : Spinning s i) (k : Nat) :
    LTS.exec step s (List.replicate (5 * k) (i, .step)) = some s := by
  induction k with
  | zero => rfl
  | succ k ih =>
    rw [Nat.mul_succ, List.replicate_add, LTS.exec_append, ih, Option.bind_some, h.round]

/-- A check of `Spinning`. -/
def spinningB (s : Sys T n) (i : Fin n) : Bool :=
  match s.pc i with
  | .pushIn _ _ =>
    s.q.m_in.vals1.any (fun k => decide (s.q.next k = s.q.m_in)) && decide (s.q.m_in ≠ .zero)
  | _ => false

theorem spinning_of_spinningB {s : Sys T n} {i : Fin n} (h : spinningB s i = true) :
    Spinning s i := by
  simp only [spinningB] at h
  split at h
  · rename_i v nn hpc
    rw [Bool.and_eq_true, Option.any_eq_true, decide_eq_true_eq] at h
    obtain ⟨⟨k, hk, hnext⟩, hne⟩ := h
    exact ⟨v, nn, k, hpc, hk, of_decide_eq_true hnext, hne⟩
  · cases h

/-- The last node of the queue is also the top of the stack (`double_alloc`): a push links it to
itself, a pop frees another node, and the next push comes to a link that leads back to `m_in`. -/
def selfLinkRun (i : Fin 2) : List (Fin 2 × Act Nat) :=
  doubleAllocRun ++ (i, .push 11) :: List.replicate 13 (i, .step) ++
    (i, .pop) :: List.replicate 10 (i, .step) ++ (i, .push 12) :: List.replicate 8 (i, .step)

/-- Seven calls can make any number of accesses. -/
theorem spins (k : Nat) : ∃ ls, ∃ s : Sys Nat 2, (lts Nat 2 3).Run (init 3) ls s ∧
    started ls = 7 ∧ k ≤ ls.length := by
  have hb : (LTS.exec step (init 3 : Sys Nat 2) (selfLinkRun 0)).any (fun s => spinningB s 0) =
      true := by decide +kernel
  obtain ⟨s, hs, hspin⟩ := (Option.any_eq_true _ _).mp hb
  have hrounds := (spinning_of_spinningB hspin).rounds k
  have hrun : (lts Nat 2 3).Run (init 3)
      (selfLinkRun 0 ++ List.replicate (5 * k) ((0 : Fin 2), .step)) s := by
    refine LTS.run_of_exec ?_
    rw [LTS.exec_append, hs, Option.bind_some, hrounds]
  refine ⟨_, s, hrun, ?_, ?_⟩
  · rw [started_append, started_steps]
    rfl
  · rw [List.length_append, List.length_replicate]
    omega

end Ppcode.LockFreeList
