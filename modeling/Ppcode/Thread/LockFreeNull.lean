import Ppcode.Thread.LockFreeInv

/-!
# Where `LockFreeList` follows a null pointer

`AllocNode` tests a snapshot of `m_head` for 0, and then reads `m_head.vals[1]` again
and follows that (:183). In between another thread may have taken the last free node.

* `sane_step`: in every interleaving each word that is not 0 has a node, and so do
  the locals that the other accesses follow.
* `noNull_iff`: in a run no null pointer is followed exactly when no second read of
  `m_head` in `AllocNode` finds the free list empty.
* `null_head`: two threads push to a list with one free node.
-/
namespace Ppcode.LockFreeList
variable {T : Type} {n : Nat}

/-- Only the word 0 has no node. -/
def HasNode (d : DoublePointer) : Prop := d.vals1 = none → d = .zero

/-- The shared words. -/
structure Words (q : LockFreeList T) : Prop where
  head : HasNode q.m_head
  inn : q.m_in.vals1 ≠ none
  out : q.m_out.vals1 ≠ none
  next : ∀ k, HasNode (q.next k)

/-- The locals that a thread follows or stores later on; not what the second read of `m_head`
gave it. -/
def Sane : Pc T → Prop
  | .allocPtr _ old | .allocNext _ old _ => old.vals1 ≠ none
  | .allocCas _ old _ next => old.vals1 ≠ none ∧ HasNode next
  | .allocClear _ ret => ret ≠ none
  | .pushIn _ nn => nn.vals1 ≠ none
  | .pushTail _ nn inp | .pushLink _ nn inp | .pushSwing _ nn inp =>
    nn.vals1 ≠ none ∧ inp.vals1 ≠ none
  | .pushTailNext _ nn inp tail => nn.vals1 ≠ none ∧ inp.vals1 ≠ none ∧ tail ≠ none
  | .pushHelp _ nn inp next => nn.vals1 ≠ none ∧ inp.vals1 ≠ none ∧ next.vals1 ≠ none
  | .popIn out | .popHead out _ => out.vals1 ≠ none
  | .popNext _ _ head => head ≠ none
  | .popHelp _ next | .popData _ next | .popCas _ next _ => next.vals1 ≠ none
  | .relHead _ _ nn => nn.vals1 ≠ none
  | .relNext _ _ nn old => nn.vals1 ≠ none ∧ HasNode old
  | .relCas _ _ nn _ => nn.vals1 ≠ none
  | _ => True

/-- The next access is `->next` of a null pointer. -/
def FollowsNull : Pc T → Prop
  | .allocNext _ _ p => p = none
  | .allocClear _ ret => ret = none
  | .pushTailNext _ _ _ node_tail => node_tail = none
  | .pushLink _ _ inp => inp.vals1 = none
  | .popNext _ _ node_head => node_head = none
  | _ => False

theorem words_new (capacity : Nat) : Words (new capacity : LockFreeList T) := by
  have hinit : ∀ k, HasNode ((initInternalNodeList capacity : LockFreeList T).next k) := by
    intro k hk
    simp only [next, initInternalNodeList] at hk ⊢
    split
    · next hlt =>
      rw [if_pos hlt] at hk
      cases hk
    · rfl
  refine ⟨hinit 0, fun h => (by cases h), fun h => (by cases h), fun k => ?_⟩
  show HasNode ((setNext _ 0 .zero).next k)
  rw [setNext_next]
  by_cases hk : k = 0
  · subst hk
    rw [Function.update_self]
    exact fun _ => rfl
  · rw [Function.update_of_ne hk]
    exact hinit k

section Writes
variable {q : LockFreeList T} {k : Nat} {d old : DoublePointer}

theorem HasNode.of_ne (h : d.vals1 ≠ none) : HasNode d := fun hd => absurd hd h

theorem HasNode.ne (h : HasNode d) (hd : d ≠ .zero) : d.vals1 ≠ none := mt h hd

theorem Words.setNext (h : Words q) (hd : HasNode d) : Words (q.setNext k d) where
  head := h.head
  inn := h.inn
  out := h.out
  next i := by
    rw [setNext_next]
    by_cases hik : i = k
    · subst hik
      rw [Function.update_self]
      exact hd
    · rw [Function.update_of_ne hik]
      exact h.next i

theorem Words.setData (h : Words q) (v : T) : Words (q.setData k v) where
  head := h.head
  inn := h.inn
  out := h.out
  next i := by
    rw [setData_next]
    exact h.next i

theorem Words.casIn (h : Words q) (hd : d.vals1 ≠ none) : Words (q.casIn old d) where
  head := by
    rw [casIn_head]
    exact h.head
  inn := by
    unfold LockFreeList.casIn
    split
    · exact hd
    · exact h.inn
  out := by
    rw [casIn_out]
    exact h.out
  next i := by
    rw [casIn_next]
    exact h.next i

end Writes

/-! ## One access -/

/-- What an access leaves behind, whatever the other threads have done. -/
theorem sane_step {q q' : LockFreeList T} {p p' : Pc T} {rets : List (Ret T)} (hq : Words q)
    (hp : Sane p) (hst : threadStep q p = some (q', p', rets)) : Words q' ∧ Sane p' := by
  cases p with
  | idle => cases hst
  | allocHead v =>
    simp only [threadStep] at hst
    split at hst
    · cases hst
      exact ⟨hq, trivial⟩
    · next hne =>
      cases hst
      exact ⟨hq, hq.head.ne hne⟩
  | allocPtr v old =>
    cases hst
    exact ⟨hq, hp⟩
  | allocNext v old ptr =>
    obtain ⟨k, rfl, heq⟩ := Option.map_eq_some_iff.mp hst
    cases heq
    exact ⟨hq, hp, hq.next k⟩
  | allocCas v old ptr next =>
    simp only [threadStep] at hst
    split at hst
    · cases hst
      exact ⟨⟨hp.2, hq.inn, hq.out, hq.next⟩, hp.1⟩
    · cases hst
      exact ⟨hq, trivial⟩
  | allocClear v ret =>
    obtain ⟨k, rfl, heq⟩ := Option.map_eq_some_iff.mp hst
    cases heq
    exact ⟨hq.setNext fun _ => rfl, trivial⟩
  | pushData v node =>
    cases hst
    exact ⟨hq.setData v, trivial⟩
  | pushNext v node =>
    cases hst
    exact ⟨hq.setNext fun _ => rfl, trivial⟩
  | pushId v node =>
    cases hst
    exact ⟨⟨hq.head, hq.inn, hq.out, hq.next⟩, nofun⟩
  | pushIn v nn =>
    cases hst
    exact ⟨hq, hp, hq.inn⟩
  | pushTail v nn inp =>
    cases hst
    exact ⟨hq, hp.1, hp.2, hp.2⟩
  | pushTailNext v nn inp tail =>
    obtain ⟨k, rfl, heq⟩ := Option.map_eq_some_iff.mp hst
    split at heq
    · cases heq
      exact ⟨hq, hp.1, hp.2.1⟩
    · next hne =>
      cases heq
      exact ⟨hq, hp.1, hp.2.1, (hq.next k).ne hne⟩
  | pushHelp v nn inp next =>
    cases hst
    exact ⟨hq.casIn hp.2.2, hp.1, hp.2.1⟩
  | pushLink v nn inp =>
    obtain ⟨k, -, heq⟩ := Option.map_eq_some_iff.mp hst
    split at heq
    · cases heq
      exact ⟨hq.setNext (.of_ne hp.1), hp⟩
    · cases heq
      exact ⟨hq, hp.1⟩
  | pushSwing v nn inp =>
    cases hst
    exact ⟨hq.casIn hp.1, trivial⟩
  | popOut =>
    cases hst
    exact ⟨hq, hq.out⟩
  | popIn out =>
    cases hst
    exact ⟨hq, hp⟩
  | popHead out inp =>
    cases hst
    exact ⟨hq, hp⟩
  | popNext out inp head =>
    obtain ⟨k, rfl, heq⟩ := Option.map_eq_some_iff.mp hst
    split at heq
    · cases heq
      exact ⟨hq, trivial⟩
    · next hne =>
      split at heq
      · cases heq
        exact ⟨hq, (hq.next k).ne hne⟩
      · cases heq
        exact ⟨hq, (hq.next k).ne hne⟩
  | popHelp inp next =>
    cases hst
    exact ⟨hq.casIn hp, trivial⟩
  | popData out next =>
    obtain ⟨k, -, heq⟩ := Option.map_eq_some_iff.mp hst
    cases heq
    exact ⟨hq, hp⟩
  | popCas out next data =>
    simp only [threadStep] at hst
    split at hst
    · cases hst
      exact ⟨⟨hq.head, hq.inn, hp, hq.next⟩, trivial⟩
    · cases hst
      exact ⟨hq, trivial⟩
  | relId data cur =>
    obtain ⟨k, -, hbody⟩ := Option.bind_eq_some_iff.mp hst
    split at hbody
    · cases hbody
      exact ⟨⟨hq.head, hq.inn, hq.out, hq.next⟩, nofun⟩
    · cases hbody
  | relHead data node nn =>
    cases hst
    exact ⟨hq, hp, hq.head⟩
  | relNext data node nn old =>
    cases hst
    exact ⟨hq.setNext hp.2, hp.1⟩
  | relCas data node nn old =>
    simp only [threadStep] at hst
    split at hst
    · cases hst
      exact ⟨⟨.of_ne hp, hq.inn, hq.out, hq.next⟩, trivial⟩
    · cases hst
      exact ⟨hq, hp⟩

/-- Nothing but the second read of `m_head` gives a null pointer that is followed. -/
theorem followsNull_iff {p : Pc T} (hp : Sane p) :
    FollowsNull p ↔ ∃ v old, p = .allocNext v old none := by
  cases p with
  | allocNext v old ptr => simp [FollowsNull]
  | allocClear v ret => exact iff_of_false hp nofun
  | pushTailNext v nn inp tail => exact iff_of_false hp.2.2 nofun
  | pushLink v nn inp => exact iff_of_false hp.2 nofun
  | popNext out inp head => exact iff_of_false hp nofun
  | _ => exact iff_of_false id nofun

theorem allocNext_origin {q q' : LockFreeList T} {p : Pc T} {rets : List (Ret T)} {v : T}
    {old : DoublePointer} {ptr : Option Nat}
    (hst : threadStep q p = some (q', .allocNext v old ptr, rets)) :
    p = .allocPtr v old ∧ ptr = q.m_head.vals1 := by
  cases p with
  | allocPtr v' old' =>
    cases hst
    exact ⟨rfl, rfl⟩
  | _ => grind [threadStep, Option.map_eq_some_iff, Option.bind_eq_some_iff]

/-! ## Runs -/

structure Sound (s : Sys T n) : Prop where
  words : Words s.q
  sane : ∀ t, Sane (s.pc t)

theorem sound_init (capacity : Nat) : Sound (init capacity : Sys T n) :=
  ⟨words_new capacity, fun _ => trivial⟩

/-- The control point of one thread changes. -/
theorem update_all {P : Pc T → Prop} {pc : Fin n → Pc T} {t : Fin n} {p : Pc T}
    (h : ∀ i, P (pc i)) (hp : P p) (i : Fin n) : P (Function.update pc t p i) := by
  by_cases hi : i = t
  · subst hi
    rw [Function.update_self]
    exact hp
  · rw [Function.update_of_ne hi]
    exact h i

/-- What a step does to the control point of its thread. -/
theorem step_cases {s s' : Sys T n} {t : Fin n} {act : Act T} (hst : step s (t, act) = some s') :
    (act ≠ .step ∧ s'.q = s.q ∧ ∃ p, s'.pc = Function.update s.pc t p ∧ Sane p ∧ ¬ FollowsNull p) ∨
    (act = .step ∧ ∃ q' p' rets, threadStep s.q (s.pc t) = some (q', p', rets) ∧ s'.q = q' ∧
      s'.pc = Function.update s.pc t p') := by
  cases act with
  | push v =>
    simp only [step] at hst
    split at hst
    · cases hst
      exact .inl ⟨nofun, rfl, .allocHead v, rfl, trivial, id⟩
    · cases hst
  | pop =>
    simp only [step] at hst
    split at hst
    · cases hst
      exact .inl ⟨nofun, rfl, .popOut, rfl, trivial, id⟩
    · cases hst
  | step =>
    obtain ⟨⟨q', p', rets⟩, hthread, rfl⟩ := Option.map_eq_some_iff.mp hst
    exact .inr ⟨rfl, q', p', rets, hthread, rfl, rfl⟩

theorem sound_step {s s' : Sys T n} {a : Fin n × Act T} (h : Sound s) (hst : step s a = some s') :
    Sound s' := by
  rcases step_cases hst with ⟨-, hq, p, hpc, hp, -⟩ | ⟨-, q', p', rets, hthread, hq, hpc⟩
  · refine ⟨?_, fun t => ?_⟩
    · rw [hq]
      exact h.words
    · rw [hpc]
      exact update_all h.sane hp t
  · obtain ⟨hwords, hp'⟩ := sane_step h.words (h.sane a.1) hthread
    refine ⟨?_, fun t => ?_⟩
    · rw [hq]
      exact hwords
    · rw [hpc]
      exact update_all h.sane hp' t

/-- No thread is about to follow a null pointer. -/
def NoNull (s : Sys T n) : Prop := ∀ t, ¬ FollowsNull (s.pc t)

/-- Where a thread reads `m_head.vals[1]` for the second time, there still is a free node. -/
def HeadKept (s : Sys T n) : Fin n × Act T → Prop
  | (t, .step) => ∀ v old, s.pc t = .allocPtr v old → s.q.m_head.vals1 ≠ none
  | _ => True

theorem noNull_step {s s' : Sys T n} {a : Fin n × Act T} (h : Sound s) (hno : NoNull s)
    (hst : step s a = some s') : NoNull s' ↔ HeadKept s a := by
  obtain ⟨t, act⟩ := a
  rcases step_cases hst with ⟨hact, -, p, hpc, -, hp⟩ | ⟨rfl, q', p', rets, hthread, -, hpc⟩
  · refine iff_of_true (fun i => ?_) ?_
    · rw [hpc]
      exact update_all (P := fun p => ¬ FollowsNull p) hno hp i
    · cases act with
      | step => exact absurd rfl hact
      | _ => trivial
  · obtain ⟨-, hp'⟩ := sane_step h.words (h.sane t) hthread
    constructor
    · intro hno' v old hp hnull
      -- the second read finds no node
      rw [hp] at hthread
      cases hthread
      refine hno' t ?_
      rw [hpc, Function.update_self, hnull]
      rfl
    · intro hkept i
      rw [hpc]
      refine update_all (P := fun p => ¬ FollowsNull p) hno (fun hnull => ?_) i
      obtain ⟨v, old, rfl⟩ := (followsNull_iff hp').mp hnull
      obtain ⟨hp, hnone⟩ := allocNext_origin hthread
      exact hkept v old hp hnone.symm

/-- In every run of `n` threads: no thread ever follows a null pointer exactly when no second
read of `m_head` finds the free list empty. -/
theorem noNull_iff (n capacity : Nat) (acts : List (Fin n × Act T)) :
    LTS.Along step NoNull (init capacity) acts ↔ LTS.StepsMeet step HeadKept (init capacity) acts :=
  LTS.along_iff (I := Sound) (E := fun _ => True) (fun _ _ _ h hst => sound_step h hst)
    (fun _ _ _ h hno _ hst => noNull_step h hno hst) (sound_init capacity) (fun _ => id)
    fun _ _ => trivial

/-- Thread `i` has read `m_head` once as thread `j` takes the last node. -/
def nullRun (i j : Fin n) : List (Fin n × Act Nat) :=
  (i, .push 7) :: (i, .step) :: (j, .push 8) :: List.replicate 4 (j, .step) ++ [(i, .step)]

instance (p : Pc T) : Decidable (FollowsNull p) := by
  cases p <;> unfold FollowsNull <;> infer_instance

/-- Two threads push to a list with one free node, and one of them follows null. -/
theorem null_head : ¬ LTS.Along step NoNull (init 2 : Sys Nat 2) (nullRun 0 1) := by
  intro h
  have hrun : (LTS.exec step (init 2 : Sys Nat 2) (nullRun 0 1)).any
      (fun s => decide (FollowsNull (s.pc 0))) = true := by decide
  obtain ⟨s, hs, hnull⟩ := (Option.any_eq_true _ _).mp hrun
  exact h.last hs 0 (of_decide_eq_true hnull)

end Ppcode.LockFreeList
