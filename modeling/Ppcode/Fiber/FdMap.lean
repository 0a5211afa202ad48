import Ppcode.Fiber.FdTable

/-!
# `FdManager` as a partial map

For one thread `get` and `del` are meant to be those of a map from fd to `FdCtx`
(`FdMap`). They are, exactly if every call returns and answers (`refines_iff`):

* no `get` is of an fd beyond the end of the table, where `get(fd, true)` returns null
  and `get(fd, false)` makes an entry;
* after a socket's `FdCtx` was made no call writes to the table, as `m_mutex` has lost a
  reader by then (`Latch`). Only if the socket had `O_NONBLOCK` already a `del` that comes
  next still gets the lock.
-/
namespace Ppcode
namespace FdTable

/-- A call of one thread; `kind` is what the fd is in it. -/
inductive Call where
  | get (fd : Nat) (auto_create : Bool) (kind : FdKind)
  | del (fd : Nat)
  deriving DecidableEq, Repr

def call (t : FdTable) : Call → Option (FdTable × Option Nat)
  | .get fd auto_create kind => t.get fd auto_create kind
  | .del fd => (t.del fd).map fun t => (t, none)

/-- What the calls return, and the table after them. -/
def run (t : FdTable) : List Call → Option (FdTable × List (Option Nat))
  | [] => some (t, [])
  | c :: calls => do
    let (t, ctx) ← t.call c
    let (t, ctxs) ← run t calls
    return (t, ctx :: ctxs)

end FdTable

/-- What the table is meant to be: a map from fd to `FdCtx`, which makes an object on demand. -/
structure FdMap where
  entry : Nat → Option Nat
  made : Nat

namespace FdMap

def call (m : FdMap) : FdTable.Call → FdMap × Option Nat
  | .get fd false _ => (m, m.entry fd)
  | .get fd true _ =>
    match m.entry fd with
    | some ctx => (m, some ctx)
    | none => (⟨Function.update m.entry fd (some m.made), m.made + 1⟩, some m.made)
  | .del fd => (⟨Function.update m.entry fd none, m.made⟩, none)

def run (m : FdMap) : List FdTable.Call → FdMap × List (Option Nat)
  | [] => (m, [])
  | c :: calls => ((m.call c).1.run calls).map id ((m.call c).2 :: ·)

/-- A `get` makes an object. -/
def makes (m : FdMap) (fd : Nat) (auto_create : Bool) : Bool := auto_create && (m.entry fd).isNone

end FdMap

/-! ## The lock between the calls -/

/-- `m_mutex` between the calls: as it was made, or without the reader that the `FdCtx` of a
socket has cost it, in its write phase or in its read phase. -/
inductive Latch where
  | free | writePhase | readPhase
  deriving DecidableEq, Repr

namespace Latch

def Is (l : RWLock Unit) (g : Latch) : Prop :=
  l.Idle ∧ match g with
    | free => l.readers = 0
    | writePhase => l.readers = -1 ∧ l.wrphase = true
    | readPhase => l.readers = -1 ∧ l.wrphase = false

/-- After a section that reads. -/
def read : Latch → Latch
  | writePhase => readPhase
  | g => g

/-- After an `FdCtx` was made. -/
def made : FdKind → Latch
  | .other => free
  | .socket true => writePhase
  | .socket false => readPhase

/-- What a call makes of the lock; `none` if it does not return, or is beyond a table of `size`
entries. -/
def next (size : Nat) (m : FdMap) (g : Latch) : FdTable.Call → Option Latch
  | .get fd auto_create kind =>
    if size ≤ fd then none
    else if m.makes fd auto_create then
      if g = free then some (made kind) else none
    else some g.read
  | .del _ => if g = readPhase then none else some g.read

variable {l : RWLock Unit} {g : Latch}

theorem Is.writable (h : g.Is l) : l.writable = true ↔ g ≠ readPhase := by
  obtain ⟨-, h⟩ := h
  cases g <;> simp_all [RWLock.writable]

theorem Is.afterRead (h : g.Is l) : g.read.Is l.afterRead := by
  refine ⟨h.1.afterRead, ?_⟩
  obtain ⟨-, h⟩ := h
  cases g <;> simp_all [RWLock.afterRead, RWLock.full, read]

theorem Is.afterWrite (h : g.Is l) : g.read.Is l.afterWrite := by
  refine ⟨h.1.afterWrite, ?_⟩
  obtain ⟨-, h⟩ := h
  cases g <;> simp_all [RWLock.afterWrite, read]

theorem Is.made {kind : FdKind} (h : free.Is l) : (made kind).Is (kind.leaves l) := by
  refine ⟨FdKind.leaves_idle h.1, ?_⟩
  have hr : l.readers = 0 := h.2
  cases kind with
  | other => exact hr
  | socket nonblock =>
    cases nonblock <;>
      simp [Latch.made, FdKind.leaves, RWLock.surplus, RWLock.afterWrite, RWLock.afterRead,
        RWLock.full, hr]

/-- A `get` that makes an `FdCtx` waits unless the lock is as it was made. -/
theorem Is.exec_get (h : g.Is l) (kind : FdKind) :
    (l.exec () ([.rdlock, .unlock] ++ kind.create) = none ∧ g ≠ free) ∨
    (∃ l', l.exec () ([.rdlock, .unlock] ++ kind.create) = some l' ∧ g = free ∧
      (Latch.made kind).Is l') := by
  have hread := h.afterRead
  rw [FdManager.exec_get h.1]
  by_cases hg : g = free
  · subst hg
    exact .inr ⟨_, if_pos (hread.writable.mpr (by simp [read])), rfl, hread.made⟩
  · refine .inl ⟨if_neg fun hw => hread.writable.mp hw ?_, hg⟩
    cases g with
    | free => exact absurd rfl hg
    | writePhase | readPhase => rfl

end Latch

/-! ## One call -/

namespace FdTable
variable {t : FdTable} {fd : Nat}

def toMap (t : FdTable) : FdMap := ⟨t.entry, t.made⟩

@[simp] theorem withLock_toMap (l : RWLock Unit) : (t.withLock l).toMap = t.toMap := rfl

theorem found_inside (hin : fd < t.m_datas.length) (auto_create : Bool) :
    t.found fd auto_create =
      if t.toMap.makes fd auto_create then .create else .ret (t.entry fd) := by
  unfold found FdMap.makes toMap
  rw [if_neg (Nat.not_le.mpr hin)]
  cases auto_create <;> cases h : t.entry fd <;> simp [h]

/-- Inside the table `get` answers what the map does. -/
theorem answer_inside (hmax : t.m_datas.length < 2 ^ 31) (hin : fd < t.m_datas.length)
    (auto_create : Bool) (kind : FdKind) : ∃ t', t.answer fd auto_create kind =
      some (t', (t.toMap.call (.get fd auto_create kind)).2) ∧
      t'.toMap = (t.toMap.call (.get fd auto_create kind)).1 ∧
      t'.m_datas.length = t.m_datas.length := by
  have hint := intOfSize_of_lt hmax
  unfold answer
  rw [found_inside hin]
  cases auto_create with
  | false => exact ⟨t, rfl, rfl, rfl⟩
  | true =>
    cases ht : t.entry fd with
    | some ctx =>
      refine ⟨t, ?_, ?_, rfl⟩
      · simp [FdMap.makes, FdMap.call, toMap, ht]
      · simp [FdMap.call, toMap, ht]
    | none =>
      have hroom : ({ t with made := t.made + 1 } : FdTable).room fd =
          { t with made := t.made + 1 } := if_neg (by simp only [hint]; omega)
      refine ⟨({ t with made := t.made + 1 } : FdTable).setEntry fd (some t.made), ?_, ?_, by simp⟩
      · simp [FdMap.makes, FdMap.call, toMap, ht, make, hroom, hin]
      · have hset := setEntry_entry (t := { t with made := t.made + 1 }) (some t.made) hin
        simp only [toMap, hset, FdMap.call, ht]
        rfl

theorem clear_toMap (hmax : t.m_datas.length < 2 ^ 31) (fd : Nat) :
    (t.clear fd).toMap = (t.toMap.call (.del fd)).1 ∧
      (t.clear fd).m_datas.length = t.m_datas.length := by
  have hint := intOfSize_of_lt hmax
  unfold clear toMap
  by_cases hin : fd < t.m_datas.length
  · rw [if_neg (by omega), setEntry_entry none hin]
    exact ⟨rfl, setEntry_length none⟩
  · have hnone : t.entry fd = none := entry_of_le (Nat.le_of_not_lt hin)
    rw [if_pos (by omega)]
    simp only [FdMap.call]
    rw [← hnone, Function.update_eq_self]
    exact ⟨rfl, trivial⟩

/-- A `get` beyond the table does not do what the map does. -/
theorem get_beyond {auto_create : Bool} {kind : FdKind} (hfd : t.m_datas.length ≤ fd) {t' : FdTable}
    {ctx : Option Nat} (h : t.get fd auto_create kind = some (t', ctx)) :
    ctx ≠ (t.toMap.call (.get fd auto_create kind)).2 := by
  have hnone : t.entry fd = none := entry_of_le hfd
  rw [get_eq] at h
  obtain ⟨l, -, h⟩ := Option.bind_eq_some_iff.mp h
  cases auto_create with
  | true =>
    simp only [answer, found, hfd, if_true, Option.map_some, Option.some.injEq, Prod.mk.injEq] at h
    obtain ⟨-, rfl⟩ := h
    simp [FdMap.call, toMap, hnone]
  | false =>
    simp only [answer, found, hfd, if_true, Bool.false_eq_true, if_false, Option.map_map,
      Option.map_eq_some_iff, Function.comp, Prod.mk.injEq] at h
    obtain ⟨r, -, -, rfl⟩ := h
    simp [FdMap.call, toMap, hnone]

variable {g g' : Latch} {c : Call}

/-- A call that goes on as `Latch.next` says is the map's, and does not change the size. -/
theorem call_next (hl : g.Is t.m_mutex) (hmax : t.m_datas.length < 2 ^ 31)
    (h : g.next t.m_datas.length t.toMap c = some g') :
    ∃ t', t.call c = some (t', (t.toMap.call c).2) ∧ t'.toMap = (t.toMap.call c).1 ∧
      t'.m_datas.length = t.m_datas.length ∧ g'.Is t'.m_mutex := by
  cases c with
  | del fd =>
    simp only [Latch.next, Option.ite_none_left_eq_some, Option.some.injEq] at h
    obtain ⟨hg, rfl⟩ := h
    have hexec : t.m_mutex.exec () [.wrlock, .unlock] = some t.m_mutex.afterWrite := by
      rw [RWLock.exec_write hl.1, if_pos (hl.writable.mpr hg)]
    obtain ⟨hmap, hlen⟩ := clear_toMap (t := t.withLock t.m_mutex.afterWrite) hmax fd
    refine ⟨(t.withLock t.m_mutex.afterWrite).clear fd, ?_, hmap, hlen, ?_⟩
    · simp only [call, del, locked, hexec, Option.map_some]
      rfl
    · have hlock : ((t.withLock t.m_mutex.afterWrite).clear fd).m_mutex = t.m_mutex.afterWrite := by
        unfold clear
        split <;> rfl
      rw [hlock]
      exact hl.afterWrite
  | get fd auto_create kind =>
    simp only [Latch.next] at h
    split at h
    · cases h
    · next hin =>
      obtain ⟨t', hanswer, hmap, hlen⟩ :=
        answer_inside hmax (Nat.lt_of_not_le hin) auto_create kind
      have hfound := found_inside (Nat.lt_of_not_le hin) auto_create
      have hgo {l : RWLock Unit} (hl' : g'.Is l)
          (hexec : t.m_mutex.exec () (t.requests fd auto_create kind) = some l) :
          ∃ t', t.call (.get fd auto_create kind) =
            some (t', (t.toMap.call (.get fd auto_create kind)).2) ∧
            t'.toMap = (t.toMap.call (.get fd auto_create kind)).1 ∧
            t'.m_datas.length = t.m_datas.length ∧ g'.Is t'.m_mutex := by
        refine ⟨t'.withLock l, ?_, hmap, hlen, hl'⟩
        rw [call, get_eq, hexec, hanswer]
        rfl
      by_cases hm : t.toMap.makes fd auto_create = true
      · rw [if_pos hm] at h hfound
        obtain ⟨hg, h⟩ := Option.ite_none_right_eq_some.mp h
        cases h
        rcases hl.exec_get kind with ⟨-, hne⟩ | ⟨l, hexec, -, hl'⟩
        · exact absurd hg hne
        · exact hgo hl' (by rw [requests, hfound, hexec])
      · rw [if_neg hm] at h hfound
        cases h
        exact hgo hl.afterRead (by rw [requests, hfound]; exact RWLock.exec_read hl.1)

/-- Any other call does not return, or not what the map does. -/
theorem call_stuck (hl : g.Is t.m_mutex) (h : g.next t.m_datas.length t.toMap c = none)
    {t' : FdTable} {ctx : Option Nat} (hcall : t.call c = some (t', ctx)) :
    ctx ≠ (t.toMap.call c).2 := by
  cases c with
  | del fd =>
    have hg : g = .readPhase := by simpa [Latch.next] using h
    simp only [call, del, locked, RWLock.exec_write hl.1,
      if_neg fun hw => hl.writable.mp hw hg] at hcall
    cases hcall
  | get fd auto_create kind =>
    by_cases hin : t.m_datas.length ≤ fd
    · exact get_beyond hin hcall
    · have hfound := found_inside (Nat.lt_of_not_le hin) auto_create
      simp only [Latch.next, if_neg hin] at h
      split at h
      · next hm =>
        rw [if_pos hm] at hfound
        have hg : g ≠ .free := by simpa using h
        rcases hl.exec_get kind with ⟨hnone, -⟩ | ⟨-, -, hfree, -⟩
        · rw [call, get_eq, requests, hfound, hnone] at hcall
          cases hcall
        · exact absurd hfree hg
      · cases h

/-! ## Runs -/

/-- The calls on the table return what they return on the map, and leave the same entries. -/
def Refines (t : FdTable) (calls : List Call) : Prop :=
  ∃ t' ctxs, t.run calls = some (t', ctxs) ∧ t.toMap.run calls = (t'.toMap, ctxs)

/-- Every call of the sequence goes on as `Latch.next` says. -/
def Allowed (size : Nat) : Latch → FdMap → List Call → Prop
  | _, _, [] => True
  | g, m, c :: calls => ∃ g', g.next size m c = some g' ∧ Allowed size g' (m.call c).1 calls

/-- From any table that an `int` can count. -/
theorem refines_iff_allowed (hl : g.Is t.m_mutex) (hmax : t.m_datas.length < 2 ^ 31)
    (calls : List Call) : t.Refines calls ↔ Allowed t.m_datas.length g t.toMap calls := by
  induction calls generalizing t g with
  | nil => simp [Refines, run, FdMap.run, Allowed]
  | cons c calls ih =>
    cases hnext : g.next t.m_datas.length t.toMap c with
    | some g' =>
      obtain ⟨t₁, hcall, hmap, hlen, hl'⟩ := call_next hl hmax hnext
      have ih₁ := ih hl' (by omega)
      rw [hlen, hmap] at ih₁
      simp only [Allowed, hnext, Option.some.injEq, exists_eq_left']
      rw [← ih₁]
      unfold Refines
      simp only [run, hcall, FdMap.run, Option.bind_eq_bind, Option.bind_some, hmap]
      constructor
      · intro hex
        obtain ⟨t', ctxs, hrun, hm⟩ := hex
        obtain ⟨⟨t₂, ctxs₂⟩, hrun₂, he⟩ := Option.bind_eq_some_iff.mp hrun
        cases he
        simp only [Prod.map, id_eq, Prod.mk.injEq, List.cons.injEq] at hm
        exact ⟨t₂, ctxs₂, hrun₂, Prod.ext hm.1 hm.2.2⟩
      · intro hex
        obtain ⟨t', ctxs, hrun, hm⟩ := hex
        refine ⟨t', (t.toMap.call c).2 :: ctxs, by rw [hrun]; rfl, ?_⟩
        rw [hm]
        rfl
    | none =>
      refine iff_of_false ?_ fun h => ?_
      · intro hex
        obtain ⟨t', ctxs, hrun, hm⟩ := hex
        simp only [run, Option.bind_eq_bind] at hrun
        obtain ⟨⟨t₁, ctx⟩, hcall, hrun⟩ := Option.bind_eq_some_iff.mp hrun
        obtain ⟨⟨t₂, ctxs₂⟩, -, he⟩ := Option.bind_eq_some_iff.mp hrun
        cases he
        simp only [FdMap.run, Prod.map, Prod.mk.injEq, List.cons.injEq] at hm
        exact call_stuck hl hnext hcall hm.2.1.symm
      · obtain ⟨g', hg', -⟩ := h
        rw [hnext] at hg'
        cases hg'

theorem new_free : Latch.free.Is new.m_mutex := ⟨RWLock.idle_new, rfl⟩

/-- The calls of one thread are those of a map if and only if every `get` is of an fd inside the
table, which then keeps the size that the constructor gives it, and no call waits for the write lock
that a socket's `FdCtx` has spoilt. -/
theorem refines_iff (calls : List Call) :
    new.Refines calls ↔ Allowed 128 .free ⟨fun _ => none, 0⟩ calls := by
  have hlen := new_length
  have hmap : new.toMap = ⟨fun _ => none, 0⟩ := by
    have hentry : new.entry = fun _ => none := by
      funext fd
      simp only [entry, new, List.getElem?_replicate]
      split <;> rfl
    rw [toMap, hentry]
    rfl
  have h := refines_iff_allowed new_free (by omega) calls
  rwa [hlen, hmap] at h

/-- After the `FdCtx` of socket 3 was made no other is; a socket that had `O_NONBLOCK` is deleted
once. -/
example (nonblock : Bool) :
    ¬ Allowed 128 .free ⟨fun _ => none, 0⟩ [.get 3 true (.socket nonblock), .get 4 true .other] ∧
    Allowed 128 .free ⟨fun _ => none, 0⟩ [.get 3 true (.socket true), .del 3, .get 3 false .other] := by
  cases nonblock <;> simp [Allowed, Latch.next, Latch.made, Latch.read, FdMap.makes, FdMap.call]

/-- The socket 128 is opened and asked for. -/
theorem not_refines : ¬ new.Refines [.get 128 true (.socket false)] := by
  have hlen := new_length
  intro h
  obtain ⟨g', hg', -⟩ := (refines_iff_allowed new_free (by omega) _).mp h
  simp [Latch.next, hlen] at hg'

end FdTable
end Ppcode
