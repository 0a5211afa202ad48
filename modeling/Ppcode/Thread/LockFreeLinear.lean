import Ppcode.Core.AtomicQueue
import Ppcode.Thread.LockFreeConserve

/-!
# `LockFreeList` is a queue to its users

In the runs that `conserves_of_safe` is about, what the threads see of a `LockFreeList`
(the calls of `push` and `pop`, and what they return) can be seen of an `AtomicQueue` of
the same capacity: every call takes effect at one moment between its start and its
return, and the values come out in the order in which they went in.

A push takes effect with the compare-and-swap of :110, a pop with that of :152. A push
that returns false has found no free node, and each other thread may hold one. A pop that
returns false has read a link that is 0: that of the dummy, and then the queue is empty,
or that of a node that was the dummy when the pop began, and then another pop has taken a
value since.

* `threadStep_effect`: the four kinds of accesses.
* `linear_access`: each access is matched by at most one step of the `AtomicQueue`.
* `linearizes`: every trace is one of an `AtomicQueue`.
-/
namespace Ppcode.LockFreeList
open AtomicQueue (Op Status)
variable {T : Type} {n : Nat}

/-! ## What is seen -/

def Ret.seen : Ret T → AtomicQueue.Ret (Option T)
  | .pushed v ok => .pushed (some v) ok
  | .popped d => .popped d
  | .empty => .empty

/-- The calls and returns of the threads. -/
def events (s : Sys T n) : Fin n × Act T → List (Fin n × AtomicQueue.Event (Option T))
  | (t, .push v) => [(t, .call (.push (some v)))]
  | (t, .pop) => [(t, .call .pop)]
  | (t, .step) =>
    (threadStep s.q (s.pc t)).elim [] fun r => r.2.2.map fun ret => (t, .ret ret.seen)

/-! ## Where a call is -/

/-- The status of a call at a control point; `raced` is whether a pop has lost a race. -/
def status (raced : Bool) : Pc T → Status (Option T)
  | .idle => .idle
  | .allocHead v | .allocPtr v _ | .allocNext v _ _ | .allocCas v _ _ _ | .allocClear v _
  | .pushData v _ | .pushNext v _ | .pushId v _ | .pushIn v _ | .pushTail v _ _
  | .pushTailNext v _ _ _ | .pushHelp v _ _ _ | .pushLink v _ _ => .pushing (some v)
  | .pushSwing v _ _ => .pushed (some v)
  | .popOut | .popIn _ | .popHead _ _ | .popNext _ _ _ | .popHelp _ _ | .popData _ _
  | .popCas _ _ _ => .popping raced
  | .relId d _ | .relHead d _ _ | .relNext d _ _ _ | .relCas d _ _ _ => .popped d

/-- The dummy that a pop has read and whose link it is going to read. -/
def headOf : Pc T → Option DoublePointer
  | .popIn out | .popHead out _ | .popNext out _ _ => some out
  | _ => none

/-- What an access of a thread in a call does to the queue. -/
inductive Effect (q : LockFreeList T) : Pc T → Pc T → List (Ret T) → Prop
  | none (p p' : Pc T) (hstatus : ∀ raced, status raced p' = status raced p)
    (hhead : ∀ out, headOf p' = some out → headOf p = some out ∨ out = q.m_out) :
    Effect q p p' []
  | put (v : T) (nn inp : DoublePointer) :
    Effect q (.pushLink v nn inp) (.pushSwing v nn inp) []
  | take (out next : DoublePointer) (d : Option T) :
    Effect q (.popCas out next d) (.relId d out.vals1) []
  | full (v : T) (hnone : q.m_head = .zero) : Effect q (.allocHead v) .idle [.pushed v false]
  | empty (out inp : DoublePointer) (k : Nat) (hout : out.vals1 = some k)
    (hnext : q.next k = .zero) : Effect q (.popNext out inp out.vals1) .idle [.empty]
  | pushed (v : T) (nn inp : DoublePointer) : Effect q (.pushSwing v nn inp) .idle [.pushed v true]
  | popped (d : Option T) (node : Nat) (nn old : DoublePointer) :
    Effect q (.relCas d node nn old) .idle [.popped d]

theorem Effect.quiet {q : LockFreeList T} {p p' : Pc T}
    (hstatus : ∀ raced, status raced p' = status raced p) (hhead : headOf p' = Option.none) :
    Effect q p p' [] :=
  .none p p' hstatus fun out ho => by
    rw [hhead] at ho
    cases ho

theorem threadStep_effect {q q' : LockFreeList T} {p p' : Pc T} {rets : List (Ret T)} {g : Ghost T}
    (hL : Local g q p) (h : threadStep q p = some (q', p', rets)) : Effect q p p' rets := by
  cases p with
  | idle => cases h
  | allocHead v =>
    simp only [threadStep] at h
    split at h
    · rename_i hz
      cases h
      exact .full v hz
    · cases h
      exact .quiet (fun _ => rfl) rfl
  | allocNext v old p =>
    obtain ⟨k, -, hk⟩ := Option.map_eq_some_iff.mp h
    cases hk
    exact .quiet (fun _ => rfl) rfl
  | allocCas v old p next =>
    simp only [threadStep] at h
    split at h <;> cases h <;> exact .quiet (fun _ => rfl) rfl
  | allocClear v ret =>
    obtain ⟨k, -, hk⟩ := Option.map_eq_some_iff.mp h
    cases hk
    exact .quiet (fun _ => rfl) rfl
  | pushTailNext v nn inp tail =>
    obtain ⟨k, -, hk⟩ := Option.map_eq_some_iff.mp h
    split at hk <;> cases hk <;> exact .quiet (fun _ => rfl) rfl
  | pushLink v nn inp =>
    obtain ⟨k, -, hk⟩ := Option.map_eq_some_iff.mp h
    split at hk <;> cases hk
    · exact .put v nn inp
    · exact .quiet (fun _ => rfl) rfl
  | pushSwing v nn inp =>
    cases h
    exact .pushed v nn inp
  | popOut =>
    cases h
    refine .none _ _ (fun _ => rfl) fun out ho => .inr ?_
    cases ho
    rfl
  | popIn out | popHead out inp =>
    cases h
    exact .none _ _ (fun _ => rfl) fun out ho => .inl ho
  | popNext out inp head =>
    obtain ⟨-, rfl⟩ := hL
    obtain ⟨k, ho, hk⟩ := Option.map_eq_some_iff.mp h
    split at hk
    · rename_i hz
      cases hk
      exact .empty out inp k ho hz
    · split at hk <;> cases hk <;> exact .quiet (fun _ => rfl) rfl
  | popData out next =>
    obtain ⟨k, -, hk⟩ := Option.map_eq_some_iff.mp h
    cases hk
    exact .quiet (fun _ => rfl) rfl
  | popCas out next d =>
    simp only [threadStep] at h
    split at h <;> cases h
    · exact .take out next d
    · exact .quiet (fun _ => rfl) rfl
  | relId d cur =>
    obtain ⟨k, -, hk⟩ := Option.bind_eq_some_iff.mp h
    split at hk <;> cases hk
    exact .quiet (fun _ => rfl) rfl
  | relCas d node nn old =>
    simp only [threadStep] at h
    split at h <;> cases h
    · exact .popped d node nn old
    · exact .quiet (fun _ => rfl) rfl
  | _ =>
    cases h
    exact .quiet (fun _ => rfl) rfl

/-! ## The history grows by what took effect -/

theorem linked_eq (p : Pc T) : linked p =
    match status false p with
    | .pushed v => {v}
    | _ => 0 := by
  cases p <;> rfl

theorem taken_eq (p : Pc T) : taken p =
    match status false p with
    | .popped d => {d}
    | _ => 0 := by
  cases p <;> rfl

section Spec
variable {p p' : Pc T} {g g' : Ghost T} {q q' : LockFreeList T} {rets : List (Ret T)}
  (S : StepSpec p g q p' rets g' q')
include S

theorem StepSpec.vals_eq (h : pushedVals rets + linked p' = linked p) : g'.vals = g.vals := by
  have he := S.pushed
  rw [h] at he
  have hlen := congrArg Multiset.card (add_left_cancel he)
  simp only [Ghost.upTo, Multiset.coe_card, List.length_map, List.take_length] at hlen
  exact (S.rely.vals.eq_of_length hlen).symm

theorem StepSpec.vals_snoc {v : T} (h : pushedVals rets + linked p' = linked p + {some v}) :
    g'.vals = g.vals ++ [v] := by
  have he := S.pushed
  rw [h, add_assoc] at he
  have he := add_left_cancel he
  obtain ⟨ws, hws⟩ := S.rely.vals
  rw [← hws] at he ⊢
  simp only [Ghost.upTo, List.take_length, List.map_append, ← hws, ← Multiset.coe_add] at he
  rw [add_comm] at he
  have hw : ({some v} : Multiset (Option T)) = ↑(ws.map some) := add_left_cancel he
  have hw := Multiset.coe_eq_singleton.mp hw.symm
  rw [← List.map_singleton] at hw
  rw [List.map_injective_iff.mpr (Option.some_injective T) hw]

theorem StepSpec.out_eq (I : SharedInv g q) (h : poppedVals rets + taken p' = taken p) :
    g'.out = g.out := by
  have he := S.popped
  rw [h] at he
  have hlen := congrArg Multiset.card (add_left_cancel he)
  simp only [Ghost.upTo, Multiset.coe_card, List.length_map, List.length_take] at hlen
  have := I.out_lt
  have := I.len
  have := S.inv.out_lt
  have := S.inv.len
  omega

/-- A pop takes the first value of the queue. -/
theorem StepSpec.out_succ (I : SharedInv g q) {d : Option T}
    (h : poppedVals rets + taken p' = taken p + {d}) (hvals : g'.vals = g.vals) :
    g'.out = g.out + 1 ∧ ∃ v, d = some v ∧ g.vals.drop g.out = v :: g.vals.drop (g.out + 1) := by
  have he := S.popped
  rw [h, add_assoc] at he
  have he := add_left_cancel he
  have hlen := congrArg Multiset.card he
  simp only [Ghost.upTo, Multiset.card_add, Multiset.card_singleton, Multiset.coe_card,
    List.length_map, List.length_take] at hlen
  have hout := I.out_lt
  have hlen₁ := I.len
  have hout' := S.inv.out_lt
  have hlen' := S.inv.len
  rw [hvals] at hlen hlen'
  have hlt : g.out < g.vals.length := by omega
  have hsucc : g'.out = g.out + 1 := by omega
  refine ⟨hsucc, g.vals[g.out], ?_, List.drop_eq_getElem_cons hlt⟩
  simp only [Ghost.upTo, hvals, hsucc, List.take_add_one, List.getElem?_eq_getElem hlt,
    Option.toList_some, List.map_append, List.map_singleton, ← Multiset.coe_add] at he
  rw [add_comm] at he
  exact Multiset.singleton_inj.mp (add_left_cancel he)

end Spec

/-! ## Room -/

section Room
variable {m : Nat} {g : Ghost T} {s : Sys T n} (I : Inv m g s)
include I

theorem Inv.queue_length : (K.nodes g.queue).length = (g.vals.drop g.out).length + 1 := by
  have hlt := I.shared.out_lt
  have hlen := I.shared.len
  simp only [LinkType.nodes, Ghost.queue, List.length_map, List.length_drop]
  omega

/-- Without a free node, all nodes but the dummy hold values or are in the hands of other
threads. -/
theorem Inv.full {t : Fin n} (hown : own (s.pc t) = none) (hfree : g.free = []) :
    m ≤ (g.vals.drop g.out).length + n := by
  have hsub : Finset.range m ⊆ (K.nodes g.queue).toFinset ∪
      (Finset.univ.erase t).biUnion fun u => (own (s.pc u)).toFinset := by
    intro k hk
    rw [Finset.mem_union, List.mem_toFinset, Finset.mem_biUnion]
    rcases (I.nodes k).mp (Finset.mem_range.mp hk) with h | ⟨u, hu⟩
    · rw [Ghost.shared, hfree, List.append_nil] at h
      exact .inl h
    · refine .inr ⟨u, Finset.mem_erase.mpr ⟨?_, Finset.mem_univ u⟩, by rw [hu]; simp⟩
      intro he
      rw [he, hown] at hu
      cases hu
  have hothers : ((Finset.univ.erase t).biUnion fun u => (own (s.pc u)).toFinset).card ≤ n - 1 := by
    refine le_trans (Finset.card_biUnion_le_card_mul _ _ 1 fun u _ => ?_) ?_
    · cases own (s.pc u) <;> simp
    · rw [Finset.card_erase_of_mem (Finset.mem_univ t), Finset.card_univ, Fintype.card_fin]
      omega
  calc m = (Finset.range m).card := (Finset.card_range m).symm
    _ ≤ (K.nodes g.queue).toFinset.card +
        ((Finset.univ.erase t).biUnion fun u => (own (s.pc u)).toFinset).card :=
      le_trans (Finset.card_le_card hsub) (Finset.card_union_le _ _)
    _ ≤ (K.nodes g.queue).length + (n - 1) := Nat.add_le_add (List.toFinset_card_le _) hothers
    _ = (g.vals.drop g.out).length + n := by
      have := t.pos
      rw [I.queue_length]
      omega

/-- The node of a push is beside those of the queue. -/
theorem Inv.room {t : Fin n} {k : Nat} (hown : own (s.pc t) = some k) :
    (g.vals.drop g.out).length + 1 < m := by
  have hnd : (k :: K.nodes g.queue).Nodup := by
    have hout := I.own_out t k hown
    have hshared := I.shared.nodup
    rw [Ghost.shared, LinkType.nodes_append] at hout hshared
    exact List.nodup_cons.mpr ⟨fun hk => hout (List.mem_append_left _ hk), hshared.of_append_left⟩
  have hsub : (k :: K.nodes g.queue).toFinset ⊆ Finset.range m := by
    intro i hi
    rw [Finset.mem_range, I.nodes]
    rcases List.mem_cons.mp (List.mem_toFinset.mp hi) with rfl | hi
    · exact .inr ⟨t, hown⟩
    · rw [Ghost.shared, LinkType.nodes_append]
      exact .inl (List.mem_append_left _ hi)
  have hle := Finset.card_le_card hsub
  rw [List.toFinset_card_of_nodup hnd, Finset.card_range, List.length_cons, I.queue_length] at hle
  exact hle

end Room

theorem SharedInv.free_nil {g : Ghost T} {q : LockFreeList T} (I : SharedInv g q)
    (h : q.m_head = .zero) : g.free = [] := by
  have hs := I.stack
  rw [h] at hs
  cases hf : g.free with
  | nil => rfl
  | cons r l =>
    rw [hf] at hs
    exact absurd hs.1.symm r.dp_ne_zero

/-- The link of the dummy is 0: there is no value. -/
theorem SharedInv.empty {g : Ghost T} {q : LockFreeList T} {out : DoublePointer} {k : Nat}
    (I : SharedInv g q) (ha : At g g.out out) (hout : out.vals1 = some k)
    (hnext : q.next k = .zero) : g.vals.drop g.out = [] := by
  obtain ⟨r, hr, rfl⟩ := ha
  cases hout
  have hn := I.next_at (le_refl g.out) hr
  rw [hnext] at hn
  refine List.drop_eq_nil_of_le ?_
  have hlen := I.len
  cases hl : g.links[g.out + 1]? with
  | none =>
    have := List.getElem?_eq_none_iff.mp hl
    omega
  | some r' =>
    rw [hl] at hn
    exact absurd hn.symm r'.dp_ne_zero

/-! ## The simulation -/

/-- The values in the queue are those between `m_out` and the end of the history; a pop that has
read the dummy has read it as it is now, or has lost a race. -/
structure LinearAt (m : Nat) (g : Ghost T) (s : Sys T n) (a : AtomicQueue (Option T) n) :
    Prop where
  inv : Inv m g s
  items : a.items = (g.vals.drop g.out).map some
  calls : ∀ t, ∃ raced, a.status t = status raced (s.pc t) ∧
    ∀ out, headOf (s.pc t) = some out → raced = true ∨ At g g.out out

def Linear (m : Nat) (s : Sys T n) (a : AtomicQueue (Option T) n) : Prop := ∃ g, LinearAt m g s a

theorem status_race (raced : Bool) (p : Pc T) : (status raced p).race = status true p := by
  cases p <;> rfl

section Calls
variable {m : Nat} {g g' : Ghost T} {s : Sys T n} {a : AtomicQueue (Option T) n} {t : Fin n}
  {p : Pc T} (h : LinearAt m g s a)
include h

/-- One thread goes on, and no value is taken. -/
theorem LinearAt.calls_step (raced : Bool) (hlinks : g.links <+: g'.links) (hout : g'.out = g.out)
    (hp : ∀ out, headOf p = some out → raced = true ∨ At g' g'.out out) (u : Fin n) :
    ∃ b, Function.update a.status t (status raced p) u = status b (Function.update s.pc t p u) ∧
      ∀ out, headOf (Function.update s.pc t p u) = some out → b = true ∨ At g' g'.out out := by
  by_cases hu : u = t
  · subst hu
    simp only [Function.update_self]
    exact ⟨raced, rfl, hp⟩
  · simp only [Function.update_of_ne hu]
    obtain ⟨b, hb, hhead⟩ := h.calls u
    refine ⟨b, hb, fun out ho => (hhead out ho).imp_right fun ha => ?_⟩
    rw [hout]
    exact ha.mono hlinks

/-- One thread takes a value; every other pop has lost the race. -/
theorem LinearAt.calls_race (hp : headOf p = none) (u : Fin n) :
    ∃ b, Function.update (fun u => (a.status u).race) t (status false p) u =
        status b (Function.update s.pc t p u) ∧
      ∀ out, headOf (Function.update s.pc t p u) = some out → b = true ∨ At g' g'.out out := by
  by_cases hu : u = t
  · subst hu
    simp only [Function.update_self]
    exact ⟨false, rfl, fun out ho => by rw [hp] at ho; cases ho⟩
  · simp only [Function.update_of_ne hu]
    obtain ⟨b, hb, -⟩ := h.calls u
    exact ⟨true, by rw [hb, status_race], fun _ _ => .inl rfl⟩

theorem LinearAt.start (op : Op (Option T)) (hpc : s.pc t = .idle)
    (hstart : op.start = status false p) (hhead : headOf p = none)
    (hinv : Inv m g { s with pc := Function.update s.pc t p }) :
    ∃ a', (AtomicQueue.lts (Option T) n m).Shows AtomicQueue.events a [(t, .call op)] a' ∧
      LinearAt m g { s with pc := Function.update s.pc t p } a' := by
  obtain ⟨raced, hst, -⟩ := h.calls t
  rw [hpc] at hst
  refine ⟨_, AtomicQueue.shows_call hst op, hinv, h.items, ?_⟩
  rw [hstart]
  exact h.calls_step false List.prefix_rfl rfl fun out ho => by rw [hhead] at ho; cases ho

end Calls

section Step
variable {m : Nat} {g g' : Ghost T} {s : Sys T n} {a : AtomicQueue (Option T) n} {t : Fin n}
  {q' : LockFreeList T} {p' : Pc T} {rets : List (Ret T)} (h : LinearAt m g s a)
  (S : StepSpec (s.pc t) g s.q p' rets g' q')
include h S

/-- An access that does not change the values. -/
theorem LinearAt.keep (raced : Bool) (hpush : pushedVals rets + linked p' = linked (s.pc t))
    (hpop : poppedVals rets + taken p' = taken (s.pc t))
    (hp : ∀ out, headOf p' = some out → raced = true ∨ At g' g'.out out) :
    LinearAt m g' ⟨q', Function.update s.pc t p', s.log ++ rets⟩
      { a with status := Function.update a.status t (status raced p') } where
  inv := h.inv.access S
  items := by
    rw [S.vals_eq hpush, S.out_eq h.inv.shared hpop]
    exact h.items
  calls := h.calls_step raced S.rely.links (S.out_eq h.inv.shared hpop) hp

/-- The call returns. -/
theorem LinearAt.back (hidle : p' = .idle)
    (hpush : pushedVals rets + linked p' = linked (s.pc t))
    (hpop : poppedVals rets + taken p' = taken (s.pc t)) :
    LinearAt m g' ⟨q', Function.update s.pc t p', s.log ++ rets⟩
      { a with status := Function.update a.status t .idle } := by
  subst hidle
  exact h.keep S false hpush hpop nofun

theorem LinearAt.put {v : T} (hpush : pushedVals rets + linked p' = linked (s.pc t) + {some v})
    (hpop : poppedVals rets + taken p' = taken (s.pc t)) (hp : headOf p' = none) :
    LinearAt m g' ⟨q', Function.update s.pc t p', s.log ++ rets⟩
      ⟨a.items ++ [some v], Function.update a.status t (status false p')⟩ where
  inv := h.inv.access S
  items := by
    have hout := h.inv.shared.out_lt
    have hlen := h.inv.shared.len
    rw [S.vals_snoc hpush, S.out_eq h.inv.shared hpop, h.items,
      List.drop_append_of_le_length (by omega), List.map_append, List.map_singleton]
  calls := h.calls_step false S.rely.links (S.out_eq h.inv.shared hpop) fun out ho => by
    rw [hp] at ho
    cases ho

theorem LinearAt.take {d : Option T} (hpush : pushedVals rets + linked p' = linked (s.pc t))
    (hpop : poppedVals rets + taken p' = taken (s.pc t) + {d}) (hp : headOf p' = none) :
    ∃ items, a.items = d :: items ∧
      LinearAt m g' ⟨q', Function.update s.pc t p', s.log ++ rets⟩
        ⟨items, Function.update (fun u => (a.status u).race) t (status false p')⟩ := by
  have hvals := S.vals_eq hpush
  obtain ⟨hout, v, rfl, hdrop⟩ := S.out_succ h.inv.shared hpop hvals
  refine ⟨(g.vals.drop (g.out + 1)).map some, ?_, h.inv.access S, ?_, h.calls_race hp⟩
  · rw [h.items, hdrop, List.map_cons]
  · rw [hvals, hout]

end Step

/-- Each access is matched by at most one step of the queue. -/
theorem linear_access {m : Nat} {s : Sys T n} {t : Fin n} {a : AtomicQueue (Option T) n}
    {q' : LockFreeList T} {p' : Pc T} {rets : List (Ret T)} (h : Linear m s a)
    (hsafe : Safe s (t, .step)) (ha : threadStep s.q (s.pc t) = some (q', p', rets)) :
    ∃ a', (AtomicQueue.lts (Option T) n m).Shows AtomicQueue.events a
        (events s (t, .step)) a' ∧
      Linear m ⟨q', Function.update s.pc t p', s.log ++ rets⟩ a' := by
  obtain ⟨g, h⟩ := h
  have hI := h.inv
  obtain ⟨g', S⟩ := threadStep_spec hI.shared (hI.know t) (hI.own_out t) (hI.drawn t) hsafe ha
  obtain ⟨raced, hstatus, hhead⟩ := h.calls t
  have hevents : events s (t, .step) = rets.map fun ret => (t, .ret ret.seen) := by
    simp only [events, ha, Option.elim_some]
  rw [hevents]
  have hknow := hI.know t
  have heffect := threadStep_effect hknow ha
  generalize hpc : s.pc t = p at heffect hstatus hhead hknow
  cases heffect with
  | none _ _ hsame hkeep =>
    have hlinked : linked p' = linked (s.pc t) := by rw [linked_eq, linked_eq, hpc, hsame]
    have htaken : taken p' = taken (s.pc t) := by rw [taken_eq, taken_eq, hpc, hsame]
    have hout := S.out_eq hI.shared (by simpa [poppedVals] using htaken)
    have hmoved := h.keep S raced (by simpa [pushedVals] using hlinked)
      (by simpa [poppedVals] using htaken) fun out ho => by
        rw [hout]
        rcases hkeep out ho with ho | rfl
        · exact (hhead out ho).imp_right fun hat => hat.mono S.rely.links
        · exact .inr (hI.shared.at_out.mono S.rely.links)
    rw [hsame, ← hstatus, Function.update_eq_self] at hmoved
    exact ⟨a, .nil a, g', hmoved⟩
  | put v nn inp =>
    obtain ⟨⟨k, hk, -⟩, -⟩ := hknow
    have hroom := hI.room (t := t) (k := k) (by rw [hpc]; exact hk)
    rw [← List.length_map (f := some), ← h.items] at hroom
    refine ⟨_, AtomicQueue.shows_effect (t := t) ?_, g', h.put S (v := v) ?_ ?_ rfl⟩
    · simp only [AtomicQueue.step, hstatus, status, if_pos hroom]
    · simp [hpc, linked, pushedVals]
    · simp [hpc, taken, poppedVals]
  | take out next d =>
    obtain ⟨items, hitems, h'⟩ := h.take S (d := d) (by simp [hpc, linked, pushedVals])
      (by simp [hpc, taken, poppedVals]) rfl
    refine ⟨_, AtomicQueue.shows_effect (t := t) ?_, g', h'⟩
    simp only [AtomicQueue.step, hstatus, status, hitems]
  | full v hnone =>
    have hfull := hI.full (t := t) (by rw [hpc]; rfl) (hI.shared.free_nil hnone)
    rw [← List.length_map (f := some), ← h.items] at hfull
    refine ⟨_, AtomicQueue.shows_fail ?_ ?_, g', h.back S rfl ?_ ?_⟩
    · rw [hstatus]
      rfl
    · simp only [AtomicQueue.step, hstatus, status, if_pos hfull]
    · simp [hpc, linked, pushedVals, Ret.accepted]
    · simp [hpc, taken, poppedVals, Ret.returned]
  | empty out inp k hout hnext =>
    have hfail : a.items.isEmpty ∨ raced := by
      rcases hhead out rfl with hr | hat
      · exact .inr hr
      · left
        rw [h.items, hI.shared.empty hat hout hnext]
        rfl
    refine ⟨_, AtomicQueue.shows_fail ?_ ?_, g', h.back S rfl ?_ ?_⟩
    · rw [hstatus]
      rfl
    · simp only [AtomicQueue.step, hstatus, status, if_pos hfail]
    · simp [hpc, linked, pushedVals, Ret.accepted]
    · simp [hpc, taken, poppedVals, Ret.returned]
  | pushed v nn inp =>
    refine ⟨_, AtomicQueue.shows_done ?_ ?_, g', h.back S rfl ?_ ?_⟩
    · rw [hstatus]
      rfl
    · simp only [AtomicQueue.step, hstatus, status]
    · simp [hpc, linked, pushedVals, Ret.accepted]
    · simp [hpc, taken, poppedVals, Ret.returned]
  | popped d node nn old =>
    refine ⟨_, AtomicQueue.shows_done ?_ ?_, g', h.back S rfl ?_ ?_⟩
    · rw [hstatus]
      rfl
    · simp only [AtomicQueue.step, hstatus, status]
    · simp [hpc, linked, pushedVals, Ret.accepted]
    · simp [hpc, taken, poppedVals, Ret.returned]

theorem linear_step {m : Nat} {s s' : Sys T n} {l : Fin n × Act T} {a : AtomicQueue (Option T) n}
    (h : Linear m s a) (hsafe : Safe s l) (hst : step s l = some s') :
    ∃ a', (AtomicQueue.lts (Option T) n m).Shows AtomicQueue.events a (events s l) a' ∧
      Linear m s' a' := by
  obtain ⟨t, act⟩ := l
  cases act with
  | push v =>
    simp only [step] at hst
    split at hst
    · rename_i hpc
      cases hst
      obtain ⟨g, h⟩ := h
      have hcall : Inv m g { s with pc := Function.update s.pc t (.allocHead v) } :=
        h.inv.call hpc rfl rfl rfl rfl trivial
      obtain ⟨a', hshow, h'⟩ := h.start (.push (some v)) hpc rfl rfl hcall
      exact ⟨a', hshow, g, h'⟩
    · cases hst
  | pop =>
    simp only [step] at hst
    split at hst
    · rename_i hpc
      cases hst
      obtain ⟨g, h⟩ := h
      have hcall : Inv m g { s with pc := Function.update s.pc t .popOut } :=
        h.inv.call hpc rfl rfl rfl rfl trivial
      obtain ⟨a', hshow, h'⟩ := h.start .pop hpc rfl rfl hcall
      exact ⟨a', hshow, g, h'⟩
    · cases hst
  | step =>
    simp only [step] at hst
    obtain ⟨⟨q', p', rets⟩, ha, rfl⟩ := Option.map_eq_some_iff.mp hst
    exact linear_access h hsafe ha

/-- Every trace of `LockFreeList` in which no access goes wrong is one of a bounded queue. -/
theorem linearizes (T : Type) (n m : Nat) (hm : 2 ≤ m)
    (es : List (Fin n × AtomicQueue.Event (Option T)))
    (h : ((lts T n m).restrict Safe).Trace events es) :
    (AtomicQueue.lts (Option T) n m).Trace AtomicQueue.events es := by
  have hsim : ((lts T n m).restrict Safe).Simulates events (AtomicQueue.lts (Option T) n m)
      AtomicQueue.events (Linear m) := by
    refine ⟨fun s hs => ?_, fun s l s₁ a hR hst => linear_step hR hst.2 hst.1⟩
    rw [show s = init m from hs]
    exact ⟨.empty, rfl, initGhost m, inv_init hm, rfl, fun t => ⟨false, rfl, nofun⟩⟩
  exact hsim.trace h

/-- With two values in the list, the thread `i` reads the dummy, and the thread `j` pops. -/
def racedRun (i j : Fin n) : List (Fin n × Act Nat) :=
  (j, .push 7) :: List.replicate 13 (j, .step) ++ (j, .push 8) :: List.replicate 13 (j, .step) ++
    (i, .pop) :: List.replicate 3 (i, .step) ++ (j, .pop) :: List.replicate 10 (j, .step) ++
    [(i, .step)]

/-- A pop returns false though there is a value in the list all the time. -/
def racedTrace (i j : Fin n) : List (Fin n × AtomicQueue.Event (Option Nat)) :=
  [(j, .call (.push (some 7))), (j, .ret (.pushed (some 7) true)), (j, .call (.push (some 8))),
    (j, .ret (.pushed (some 8) true)), (i, .call .pop), (j, .call .pop), (j, .ret (.popped (some 7))),
    (i, .ret .empty)]

theorem linearizes_raced :
    (AtomicQueue.lts (Option Nat) 2 3).Trace AtomicQueue.events (racedTrace 0 1) := by
  obtain ⟨s, hs⟩ : ∃ s, LTS.execWith step safeB (init 3 : Sys Nat 2) (racedRun 0 1) = some s :=
    Option.isSome_iff_exists.mp (by decide +kernel)
  have hshow : ((lts Nat 2 3).restrict Safe).Shows events (init 3)
      (LTS.shown step events (init 3) (racedRun 0 1)) s := LTS.shows_of_execWith safe_of_safeB hs
  have htrace : LTS.shown step events (init 3 : Sys Nat 2) (racedRun 0 1) = racedTrace 0 1 := by
    decide +kernel
  rw [htrace] at hshow
  exact linearizes Nat 2 3 (by decide) (racedTrace 0 1) ⟨init 3, s, rfl, hshow⟩

end Ppcode.LockFreeList
