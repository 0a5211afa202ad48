import Ppcode.Fiber.FdLock

/-!
# `FdManager` as a table of pointers

`Ppcode.FdManager` has the `FdCtx`s by value. Here is the same table with the
objects by name, in the order in which they are made, so that two `FdCtx`s of one
fd can be told apart, and with `m_mutex`; and `get` and `del` are cut into the
sections that they run under it. `get` decides in a read-locked section what it makes in
a write-locked one. A call is `none` if it does not return, which is so, too, when it
waits for a lock that nobody gives back.

`get_eq`: the lock decides whether `get` returns, and nothing else. `get_sim`: the
sections one after the other request of the lock what `FdManager.locks` has, and do to
the table what `FdManager.get` does.
-/
namespace Ppcode

/-- `(int)n` of a `size_t`. -/
def intOfSize (n : Nat) : Int := Int.bmod n (2 ^ 32)

theorem intOfSize_of_lt {n : Nat} (h : n < 2 ^ 31) : intOfSize n = n := by
  unfold intOfSize
  rw [Int.bmod_eq_of_le] <;> omega

/-- One name is enough for the thread that has the lock in a section: the sections are steps.
mirrors src/fiber/fdcontext.h:64-68 -/
structure FdTable where
  m_mutex : RWLock Unit
  m_datas : List (Option Nat)
  made : Nat
  deriving DecidableEq, Repr

/-- How `get` goes on after the read-locked section. -/
inductive Found where
  | ret (ctx : Option Nat)
  | create
  deriving DecidableEq, Repr

namespace FdTable

/-- mirrors src/fiber/fdcontext.cc:58 -/
def new : FdTable := ⟨.new, List.replicate 128 none, 0⟩

theorem new_length : new.m_datas.length = 128 := List.length_replicate

def entry (t : FdTable) (fd : Nat) : Option Nat := (t.m_datas[fd]?).join

def setEntry (t : FdTable) (fd : Nat) (ctx : Option Nat) : FdTable :=
  { t with m_datas := t.m_datas.set fd ctx }

/-- `m_datas.resize(size)` -/
def resize (t : FdTable) (size : Nat) : FdTable :=
  { t with m_datas := t.m_datas.take size ++ List.replicate (size - t.m_datas.length) none }

/-- The table after the requests `ops`; `none` waits. -/
def locked (t : FdTable) (ops : List RWLock.Op) : Option FdTable :=
  (t.m_mutex.exec () ops).map fun l => { t with m_mutex := l }

def found (t : FdTable) (fd : Nat) (auto_create : Bool) : Found :=
  if t.m_datas.length ≤ fd then
    if auto_create then .ret none else .create
  else if (t.entry fd).isSome || !auto_create then .ret (t.entry fd) else .create

/-- mirrors src/fiber/fdcontext.cc:65-76 -/
def readSection (t : FdTable) (fd : Nat) (auto_create : Bool) : Option (FdTable × Found) :=
  (t.locked [.rdlock, .unlock]).map fun t => (t, t.found fd auto_create)

/-- The table as the write-locked section makes room in it.
mirrors src/fiber/fdcontext.cc:80-82 -/
def room (t : FdTable) (fd : Nat) : FdTable :=
  if intOfSize t.m_datas.length ≤ fd then t.resize (fd * 3 / 2) else t

/-- The constructor of a socket's `FdCtx` calls `get` on the same fd without `auto_create`: inside
the table that reads, beyond it that makes an `FdCtx` in turn and does not return. An index outside
the table is `none`, too. -/
def make (t : FdTable) (fd : Nat) (kind : FdKind) : Option (FdTable × Nat) :=
  if kind.isSocket && decide (t.m_datas.length ≤ fd) then none
  else
    let ctx := t.made
    let t := { t with made := t.made + 1 }.room fd
    if fd < t.m_datas.length then some (t.setEntry fd (some ctx), ctx) else none

/-- mirrors src/fiber/fdcontext.cc:78-84 -/
def writeSection (t : FdTable) (fd : Nat) (kind : FdKind) : Option (FdTable × Nat) :=
  (t.locked kind.create).bind fun t => t.make fd kind

/-- mirrors src/fiber/fdcontext.cc:60-85 -/
def get (t : FdTable) (fd : Nat) (auto_create : Bool) (kind : FdKind) :
    Option (FdTable × Option Nat) := do
  let (t, found) ← t.readSection fd auto_create
  match found with
  | .ret ctx => return (t, ctx)
  | .create => (t.writeSection fd kind).map fun r => (r.1, some r.2)

def clear (t : FdTable) (fd : Nat) : FdTable :=
  if intOfSize t.m_datas.length ≤ fd then t else t.setEntry fd none

/-- mirrors src/fiber/fdcontext.cc:87-93 -/
def del (t : FdTable) (fd : Nat) : Option FdTable :=
  (t.locked [.wrlock, .unlock]).map fun t => t.clear fd

variable {t : FdTable} {fd : Nat}

theorem entry_of_le (h : t.m_datas.length ≤ fd) : t.entry fd = none := by
  simp [entry, List.getElem?_eq_none h]

theorem setEntry_entry (ctx : Option Nat) (h : fd < t.m_datas.length) :
    (t.setEntry fd ctx).entry = Function.update t.entry fd ctx := by
  funext fd'
  by_cases hfd : fd' = fd
  · subst hfd
    simp [entry, setEntry, h]
  · rw [Function.update_of_ne hfd]
    simp [entry, setEntry, List.getElem?_set_ne (Ne.symm hfd)]

@[simp] theorem setEntry_length (ctx : Option Nat) :
    (t.setEntry fd ctx).m_datas.length = t.m_datas.length := by simp [setEntry]

@[simp] theorem setEntry_made (ctx : Option Nat) : (t.setEntry fd ctx).made = t.made := rfl

@[simp] theorem resize_length (size : Nat) : (t.resize size).m_datas.length = size := by
  simp only [resize, List.length_append, List.length_take, List.length_replicate]
  omega

theorem resize_entry (size fd : Nat) :
    (t.resize size).entry fd = if fd < size then t.entry fd else none := by
  unfold entry resize
  by_cases hs : fd < size
  · rw [if_pos hs]
    by_cases hin : fd < t.m_datas.length
    · rw [List.getElem?_append_left (by simp [hs, hin]), List.getElem?_take_of_lt hs]
    · have hnone : t.m_datas[fd]? = none := List.getElem?_eq_none (Nat.le_of_not_lt hin)
      rw [List.getElem?_append_right (by simp; omega), List.getElem?_replicate, hnone]
      split <;> rfl
  · rw [if_neg hs, List.getElem?_eq_none]
    · rfl
    · simp only [List.length_append, List.length_take, List.length_replicate]
      omega

/-- The write-locked section for `fd` makes the table, of more than `INT_MAX` entries, so small that
it has no place for `fd'`. -/
def Cuts (t : FdTable) (fd fd' : Nat) : Prop :=
  intOfSize t.m_datas.length ≤ fd ∧ fd * 3 / 2 ≤ fd'

instance (t : FdTable) (fd fd' : Nat) : Decidable (t.Cuts fd fd') :=
  inferInstanceAs (Decidable (_ ∧ _))

theorem room_entry (fd fd' : Nat) :
    (t.room fd).entry fd' = if t.Cuts fd fd' then none else t.entry fd' := by
  unfold room
  by_cases hlen : intOfSize t.m_datas.length ≤ fd
  · rw [if_pos hlen, resize_entry]
    by_cases hs : fd' < fd * 3 / 2
    · rw [if_pos hs, if_neg fun h => absurd h.2 (Nat.not_le.mpr hs)]
    · rw [if_neg hs, if_pos ⟨hlen, Nat.le_of_not_lt hs⟩]
  · rw [if_neg hlen, if_neg fun h => hlen h.1]

@[simp] theorem room_made (fd : Nat) : (t.room fd).made = t.made := by
  unfold room
  split <;> rfl

/-! ## The lock and the rest -/

/-- What `get` answers, and the table after it but for the lock. -/
def answer (t : FdTable) (fd : Nat) (auto_create : Bool) (kind : FdKind) :
    Option (FdTable × Option Nat) :=
  match t.found fd auto_create with
  | .ret ctx => some (t, ctx)
  | .create => (t.make fd kind).map fun r => (r.1, some r.2)

/-- What `get` requests of the lock. -/
def requests (t : FdTable) (fd : Nat) (auto_create : Bool) (kind : FdKind) : List RWLock.Op :=
  [.rdlock, .unlock] ++ match t.found fd auto_create with
    | .ret _ => []
    | .create => kind.create

def withLock (t : FdTable) (l : RWLock Unit) : FdTable := { t with m_mutex := l }

theorem locked_eq {t t' : FdTable} {ops : List RWLock.Op} (h : t.locked ops = some t') :
    ∃ l, t' = t.withLock l := by
  obtain ⟨l, -, rfl⟩ := Option.map_eq_some_iff.mp h
  exact ⟨l, rfl⟩

theorem make_withLock (fd : Nat) (kind : FdKind) (l : RWLock Unit) :
    (t.withLock l).make fd kind = (t.make fd kind).map fun r => (r.1.withLock l, r.2) := by
  unfold make withLock room
  split
  · rfl
  · simp only
    by_cases hlen : intOfSize t.m_datas.length ≤ fd
    · simp only [hlen, if_true, resize]
      split <;> rfl
    · simp only [hlen, if_false]
      split <;> rfl

theorem writeSection_eq (fd : Nat) (kind : FdKind) : t.writeSection fd kind =
    (t.m_mutex.exec () kind.create).bind fun l =>
      (t.make fd kind).map fun r => (r.1.withLock l, r.2) := by
  unfold writeSection locked
  cases t.m_mutex.exec () kind.create with
  | none => rfl
  | some l => exact make_withLock fd kind l

/-- The lock decides whether `get` returns, and nothing else. -/
theorem get_eq (fd : Nat) (auto_create : Bool) (kind : FdKind) : t.get fd auto_create kind =
    (t.m_mutex.exec () (t.requests fd auto_create kind)).bind fun l =>
      (t.answer fd auto_create kind).map fun r => (r.1.withLock l, r.2) := by
  unfold get readSection requests answer locked
  rw [RWLock.exec_append]
  cases t.m_mutex.exec () [.rdlock, .unlock] with
  | none => rfl
  | some l =>
    have hfound : (t.withLock l).found fd auto_create = t.found fd auto_create := rfl
    simp only [Option.map_some, Option.bind_eq_bind, Option.bind_some]
    rw [← withLock, hfound]
    cases t.found fd auto_create with
    | ret ctx => rfl
    | create =>
      rw [writeSection_eq, Option.map_bind]
      refine Option.bind_congr fun l' _ => ?_
      simp only [Function.comp, make_withLock]
      cases t.make fd kind <;> rfl

/-! ## The table of `FdCtx`s -/

/-- The table of values and the table of pointers hold entries at the same places. -/
def Shape (w : FdManager) (t : FdTable) : Prop :=
  w.m_datas.map Option.isSome = t.m_datas.map Option.isSome

theorem Shape.length {w : FdManager} (h : Shape w t) : w.m_datas.length = t.m_datas.length := by
  have hlen := congrArg List.length h
  simpa using hlen

theorem Shape.entry {w : FdManager} (h : Shape w t) (fd : Nat) :
    (w.entry fd).isSome = (t.entry fd).isSome := by
  have hget := congrArg (fun l => l[fd]?) h
  simp only [List.getElem?_map] at hget
  unfold FdManager.entry FdTable.entry
  cases hw : w.m_datas[fd]? <;> cases ht : t.m_datas[fd]? <;> simp_all

theorem Shape.setEntry {w : FdManager} (h : Shape w t) (fd : Nat) {ctx : Option FdCtx}
    {obj : Option Nat} (hc : ctx.isSome = obj.isSome) :
    Shape (w.setEntry fd ctx) (t.setEntry fd obj) := by
  unfold Shape at h ⊢
  simp only [FdManager.setEntry, FdTable.setEntry, List.map_set, h, hc]

theorem Shape.resize {w : FdManager} (h : Shape w t) (size : Nat) :
    Shape (w.resize size) (t.resize size) := by
  have hlen := h.length
  unfold Shape at h ⊢
  simp only [FdManager.resize, FdTable.resize, List.map_append, List.map_take, h, hlen,
    List.map_replicate, Option.isSome_none]

/-- What `get` answers and where the entries are then, by value and by name. -/
def Agrees (r : Option (FdManager × Option FdCtx)) (r' : FdTable × Option Nat) : Prop :=
  ∃ w ctx, r = some (w, ctx) ∧ Shape w r'.1 ∧ ctx.isSome = r'.2.isSome

theorem get_sim_within {w : FdManager} (h : Shape w t) (hmax : t.m_datas.length < 2 ^ 31)
    (hin : fd < t.m_datas.length) (auto_create : Bool) :
    ∃ r, t.answer fd auto_create (w.kind fd) = some r ∧
      Agrees (FdManager.get 3 w fd auto_create) r := by
  have hlen := h.length
  have hint := intOfSize_of_lt hmax
  have hw : fd < w.m_datas.length := by omega
  have hent := h.entry fd
  cases auto_create with
  | false =>
    refine ⟨(t, t.entry fd), ?_, w, w.entry fd, FdManager.get_read hw, h, hent⟩
    simp [answer, found, Nat.not_le.mpr hin]
  | true =>
    cases ht : t.entry fd with
    | some obj =>
      obtain ⟨ctx, hctx⟩ := Option.isSome_iff_exists.mp (by rw [hent, ht]; rfl)
      refine ⟨(t, some obj), ?_, w, some ctx, ?_, h, rfl⟩
      · simp [answer, found, Nat.not_le.mpr hin, ht]
      · simp [FdManager.get, Nat.not_le.mpr hw, hctx]
    | none =>
      have hnone : w.entry fd = none := by
        rw [← Option.isSome_eq_false_iff.trans Option.isNone_iff_eq_none, hent, ht]
        rfl
      refine ⟨(({ t with made := t.made + 1 } : FdTable).setEntry fd (some t.made),
        some t.made), ?_, _, _, FdManager.get_create hw hnone, ?_, rfl⟩
      · have hroom : ({ t with made := t.made + 1 } : FdTable).room fd =
            { t with made := t.made + 1 } := if_neg (by simp only [hint]; omega)
        simp [answer, found, Nat.not_le.mpr hin, ht, make, hroom, hin]
      · refine Shape.setEntry ?_ fd rfl
        unfold Shape
        rw [FdManager.markNonblock_datas]
        exact h

/-- Only here `get` may not return: before it makes an entry it asks for one. -/
theorem get_sim_beyond {w : FdManager} (h : Shape w t) (hmin : 2 ≤ t.m_datas.length)
    (hmax : t.m_datas.length < 2 ^ 31) (hin : t.m_datas.length ≤ fd) (auto_create : Bool) :
    (∃ r, t.answer fd auto_create (w.kind fd) = some r ∧
      Agrees (FdManager.get 3 w fd auto_create) r) ∨
    (t.answer fd auto_create (w.kind fd) = none ∧ ∀ d, FdManager.get d w fd auto_create = none) := by
  have hlen := h.length
  have hint := intOfSize_of_lt hmax
  have hw : w.m_datas.length ≤ fd := by omega
  cases auto_create with
  | true =>
    refine .inl ⟨(t, none), ?_, w, none, FdManager.get_beyond hw, h, rfl⟩
    simp [answer, found, hin]
  | false =>
    cases hs : w.isSock fd with
    | true =>
      refine .inr ⟨?_, FdManager.get_diverges hw hs⟩
      simp [answer, found, hin, make, FdManager.kind_isSocket, hs]
    | false =>
      have hgt : fd < fd * 3 / 2 := by omega
      have hnew : FdManager.newCtx (FdManager.get 2) w fd = some (w, .fresh fd false) := by
        simp [FdManager.newCtx, hs]
      refine .inl ⟨((({ t with made := t.made + 1 } : FdTable).resize (fd * 3 / 2)).setEntry fd
        (some t.made), some t.made), ?_, (w.resize (fd * 3 / 2)).setEntry fd
        (some (.fresh fd false)), some (.fresh fd false), ?_, ?_, rfl⟩
      · have hroom : ({ t with made := t.made + 1 } : FdTable).room fd =
            ({ t with made := t.made + 1 } : FdTable).resize (fd * 3 / 2) :=
          if_pos (by simp only [hint]; omega)
        simp [answer, found, hin, make, FdManager.kind_isSocket, hs, hroom, hgt]
      · rw [FdManager.get]
        simp [hw, hnew]
      · exact (Shape.resize (t := { t with made := t.made + 1 }) h _).setEntry fd rfl

/-- What the sections request of the lock is what `get` does. -/
theorem locks_requests {w : FdManager} (h : Shape w t)
    (hin : w.isSock fd = true → t.found fd auto_create = .create → fd < t.m_datas.length) :
    FdManager.locks 3 w fd auto_create = some (t.requests fd auto_create (w.kind fd)) := by
  have hlen := h.length
  have hent := h.entry fd
  by_cases hc : w.Creates fd auto_create
  · have hfound : t.found fd auto_create = .create := by
      unfold FdManager.Creates at hc
      unfold found
      rw [hlen] at hc
      by_cases hle : t.m_datas.length ≤ fd
      · rw [if_pos hle] at hc ⊢
        rw [hc]
        rfl
      · rw [if_neg hle] at hc ⊢
        rw [← hent, hc.1, hc.2]
        rfl
    have hnone (hs : w.isSock fd = true) : fd < w.m_datas.length ∧ w.entry fd = none := by
      have hlt : fd < w.m_datas.length := by
        rw [hlen]
        exact hin hs hfound
      unfold FdManager.Creates at hc
      rw [if_neg (Nat.not_le.mpr hlt)] at hc
      exact ⟨hlt, hc.1⟩
    rw [FdManager.locks_creates hc, FdManager.newCtxLocks_eq hnone, requests, hfound]
    rfl
  · have hfound : ∃ ctx, t.found fd auto_create = .ret ctx := by
      unfold FdManager.Creates at hc
      unfold found
      rw [hlen] at hc
      by_cases hle : t.m_datas.length ≤ fd
      · rw [if_pos hle] at hc ⊢
        exact ⟨_, if_pos (Bool.eq_true_of_not_eq_false hc)⟩
      · rw [if_neg hle] at hc ⊢
        refine ⟨_, if_pos ?_⟩
        rw [← hent]
        cases auto_create with
        | false => exact Bool.or_true _
        | true => simpa [Option.isSome_iff_ne_none] using hc
    obtain ⟨ctx, hfound⟩ := hfound
    rw [FdManager.locks_reads hc, requests, hfound]
    rfl

/-- The two sections, one after the other, are `get`, which waits where its requests do; where the
constructor does not return, no depth of calls is enough for `get`. -/
theorem get_sim {w : FdManager} (h : Shape w t) (hmin : 2 ≤ t.m_datas.length)
    (hmax : t.m_datas.length < 2 ^ 31) (fd : Nat) (auto_create : Bool) :
    (∃ ops r, FdManager.locks 3 w fd auto_create = some ops ∧
      Agrees (FdManager.get 3 w fd auto_create) r ∧
      t.get fd auto_create (w.kind fd) =
        (t.m_mutex.exec () ops).map fun l => (r.1.withLock l, r.2)) ∨
    (t.get fd auto_create (w.kind fd) = none ∧ ∀ d, FdManager.get d w fd auto_create = none) := by
  have hcase : (∃ r, t.answer fd auto_create (w.kind fd) = some r ∧
      Agrees (FdManager.get 3 w fd auto_create) r) ∨
      (t.answer fd auto_create (w.kind fd) = none ∧
        ∀ d, FdManager.get d w fd auto_create = none) := by
    by_cases hin : fd < t.m_datas.length
    · exact .inl (get_sim_within h hmax hin auto_create)
    · exact get_sim_beyond h hmin hmax (Nat.le_of_not_lt hin) auto_create
  rcases hcase with ⟨r, hr, hagree⟩ | ⟨hnone, hd⟩
  · refine .inl ⟨_, r, locks_requests h fun hs hfound => ?_, hagree, ?_⟩
    · by_contra hin
      simp [answer, hfound, make, FdManager.kind_isSocket, hs, Nat.le_of_not_lt hin] at hr
    · rw [get_eq, hr, Option.map_eq_bind]
      rfl
  · refine .inr ⟨?_, hd⟩
    rw [get_eq, hnone]
    cases t.m_mutex.exec () (t.requests fd auto_create (w.kind fd)) <;> rfl

end FdTable
end Ppcode
