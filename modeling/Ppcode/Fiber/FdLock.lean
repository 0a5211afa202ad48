import Ppcode.Core.RWLock
import Ppcode.Fiber.FdManager

/-!
# `FdManager::get` and its own lock

`get` makes an `FdCtx` under the write lock of `m_mutex`; for a socket the
constructor calls `fcntl`, which is the hooked one and calls `get(fd)` in turn,
before the new `FdCtx` is stored. `locks` has what the thread requests of `m_mutex`
along this chain of calls; it is `none` where the depth does not suffice.

The nested `get` fails to lock and unlocks all the same, which gives up the write
lock; at the end there is one `unlock` too many, and the count of readers stays one too
low (`exec_socket`). The next `get` that makes an `FdCtx` waits for ever, and `del` does.

* `locks_isSome`: the chain ends where `FdManager.get` has a result.
* `fine_iff`: it ends, waits for nothing, and asks for nothing under the write lock
  exactly when no `FdCtx` is made, or one that is no socket's and before any that is.
* `not_fine_socket`: the first `get` of a new socket. Beyond the table, without
  `auto_create`, the chain does not end (`locks_beyond`).
-/
namespace Ppcode

/-- What `FdCtx::init` finds an fd to be; a socket may have `O_NONBLOCK` already. -/
inductive FdKind where
  | other
  | socket (nonblock : Bool)
  deriving DecidableEq, Repr

namespace FdKind

def isSocket : FdKind → Bool
  | other => false
  | socket _ => true

/-- What the constructor of its `FdCtx` requests of `m_mutex`, where `get` only reads: a `get` in
each call of `fcntl`. -/
def locks : FdKind → List RWLock.Op
  | other => []
  | socket true => [.rdlock, .unlock]
  | socket false => [.rdlock, .unlock, .rdlock, .unlock]

/-- The write-locked section of `get`, as the lock sees it. -/
def create (kind : FdKind) : List RWLock.Op := .wrlock :: (kind.locks ++ [.unlock])

/-- The lock after that section. -/
def leaves (l : RWLock Unit) : FdKind → RWLock Unit
  | other => l.afterWrite
  | socket true => l.afterWrite.surplus
  | socket false => l.afterWrite.afterRead.surplus

variable {l : RWLock Unit} {kind : FdKind}

theorem exec_create (h : l.Idle) :
    l.exec () kind.create = if l.writable then some (kind.leaves l) else none := by
  cases kind with
  | other => exact RWLock.exec_write h
  | socket nonblock =>
    cases nonblock with
    | true =>
      refine (RWLock.exec_reentered h [.unlock]).trans ?_
      rw [RWLock.exec_unlock h.afterWrite]
      rfl
    | false =>
      refine (RWLock.exec_reentered h ([.rdlock, .unlock] ++ [.unlock])).trans ?_
      rw [RWLock.exec_append, RWLock.exec_read h.afterWrite, Option.bind_some,
        RWLock.exec_unlock h.afterWrite.afterRead]
      rfl

theorem leaves_idle (h : l.Idle) : (kind.leaves l).Idle := by
  cases kind with
  | other => exact h.afterWrite
  | socket nonblock =>
    cases nonblock with
    | true => exact h.afterWrite.surplus
    | false => exact h.afterWrite.afterRead.surplus

end FdKind

namespace FdManager

open RWLock (Op)

/-- No lock is requested while the write lock is held; `held` has the locks that are, the last
first. -/
def Safe : (held : List Op) → List Op → Prop
  | _, [] => True
  | held, .unlock :: ops => Safe held.tail ops
  | held, op :: ops => .wrlock ∉ held ∧ Safe (op :: held) ops

/-- What the constructor of `FdCtx` requests; `locks` is `get(fd)` of the hooked `fcntl`.
mirrors src/fiber/fdcontext.cc:19-41 -/
def newCtxLocks (locks : FdManager → Option (List Op))
    (get : FdManager → Nat → Bool → Option (FdManager × Option FdCtx)) (w : FdManager) (fd : Nat) :
    Option (List Op) :=
  if w.isSock fd then do
    let getfl ← locks w
    let (w, flags) ← fcntlWith get w fd .F_GETFL true
    if flags.nonblock then return getfl
    let setfl ← locks w
    return getfl ++ setfl
  else some []

/-- mirrors src/fiber/fdcontext.cc:65-84 -/
def locks (depth : Nat) (w : FdManager) (fd : Nat) (auto_create : Bool) : Option (List Op) :=
  match depth with
  | 0 => none
  | depth + 1 =>
    let read := [.rdlock, .unlock]
    let create := (newCtxLocks (fun w => locks depth w fd false) (get depth) w fd).map fun ops =>
      read ++ (.wrlock :: (ops ++ [.unlock]))
    if w.m_datas.length ≤ fd then
      if auto_create then some read else create
    else if (w.entry fd).isSome || !auto_create then some read else create

/-- mirrors src/fiber/fdcontext.cc:60-63 -/
def chain (depth : Nat) (w : FdManager) (fd : Int) (auto_create : Bool) : Option (List Op) :=
  if fd < 0 then some [] else locks depth w fd.toNat auto_create

/-- The chain of calls ends, asks for no lock under the write lock, and gets every lock that it
asks for. -/
def Fine (w : FdManager) (l : RWLock Unit) (fd : Int) (auto_create : Bool) : Prop :=
  ∃ depth ops, chain depth w fd auto_create = some ops ∧ Safe [] ops ∧ (l.exec () ops).isSome

/-- `get` goes on to the constructor: beyond the table without `auto_create`, and in the table with
it, where there is no entry. -/
def Creates (w : FdManager) (fd : Nat) (auto_create : Bool) : Prop :=
  if w.m_datas.length ≤ fd then auto_create = false else w.entry fd = none ∧ auto_create = true

instance (w : FdManager) (fd : Nat) (auto_create : Bool) : Decidable (w.Creates fd auto_create) :=
  inferInstanceAs (Decidable (if w.m_datas.length ≤ fd then auto_create = false
    else w.entry fd = none ∧ auto_create = true))

variable {w : FdManager} {fd : Nat} {auto_create : Bool} {d : Nat}

theorem locks_reads (h : ¬ w.Creates fd auto_create) :
    locks (d + 1) w fd auto_create = some [.rdlock, .unlock] := by
  unfold Creates at h
  simp only [locks]
  split at h
  · next hlen =>
    rw [if_pos hlen, if_pos (Bool.eq_true_of_not_eq_false h)]
  · next hlen =>
    have hread : ((w.entry fd).isSome || !auto_create) = true := by
      cases auto_create with
      | false => simp
      | true => simpa [Option.isSome_iff_ne_none] using h
    rw [if_neg hlen, if_pos hread]

theorem locks_creates (h : w.Creates fd auto_create) : locks (d + 1) w fd auto_create =
    (newCtxLocks (fun w => locks d w fd false) (get d) w fd).map fun ops =>
      [.rdlock, .unlock] ++ (.wrlock :: (ops ++ [.unlock])) := by
  unfold Creates at h
  simp only [locks]
  split at h
  · next hlen => rw [if_pos hlen, if_neg (by simp [h])]
  · next hlen => rw [if_neg hlen, if_neg (by simp [h])]

theorem locks_creates_other (hs : w.isSock fd = false) (hc : w.Creates fd auto_create) :
    locks (d + 1) w fd auto_create = some ([.rdlock, .unlock] ++ FdKind.other.create) := by
  rw [locks_creates hc, newCtxLocks, hs, if_neg Bool.false_ne_true]
  rfl

/-- The first thing that `get` does is to lock. -/
theorem locks_head {ops : List Op} (h : locks d w fd auto_create = some ops) :
    ∃ rest, ops = .rdlock :: rest := by
  cases d with
  | zero => cases h
  | succ d =>
    by_cases hc : w.Creates fd auto_create
    · rw [locks_creates hc] at h
      obtain ⟨ops', -, rfl⟩ := Option.map_eq_some_iff.mp h
      exact ⟨_, rfl⟩
    · rw [locks_reads hc] at h
      cases h
      exact ⟨_, rfl⟩

/-- What kind of fd the kernel has. -/
def kind (w : FdManager) (fd : Nat) : FdKind :=
  match w.files fd with
  | some f => if f.isSock then .socket f.flags.nonblock else .other
  | none => .other

theorem kind_isSocket (w : FdManager) (fd : Nat) : (w.kind fd).isSocket = w.isSock fd := by
  unfold kind isSock
  cases w.files fd with
  | none => rfl
  | some f => cases h : f.isSock <;> simp [FdKind.isSocket, h]

/-- Inside the table the nested `get`s only read. -/
theorem newCtxLocks_eq (h : w.isSock fd = true → fd < w.m_datas.length ∧ w.entry fd = none) :
    newCtxLocks (fun w => locks (d + 1) w fd false) (get (d + 1)) w fd =
      some (w.kind fd).locks := by
  have hread (w' : FdManager) (hin : fd < w'.m_datas.length) :
      locks (d + 1) w' fd false = some [.rdlock, .unlock] :=
    locks_reads (by simp [Creates, Nat.not_le.mpr hin])
  unfold newCtxLocks
  cases hf : w.files fd with
  | none => simp [isSock, kind, hf, FdKind.locks]
  | some f =>
    cases hs : f.isSock with
    | false => simp [isSock, kind, hf, hs, FdKind.locks]
    | true =>
      have hsock : w.isSock fd = true := by simp [isSock, hf, hs]
      obtain ⟨hin, hent⟩ := h hsock
      have hfcntl : w.fcntl_f fd .F_GETFL true = (w, f.flags) := by simp [fcntl_f, hf]
      simp only [if_pos hsock, hread w hin, fcntlWith_unmanaged hin hent, hfcntl,
        Option.bind_eq_bind, Option.bind_some, kind, hf, hs, if_true]
      cases f.flags.nonblock <;> rfl

/-! ## Where the chain ends -/

theorem fcntlWith_isSome
    (get : FdManager → Nat → Bool → Option (FdManager × Option FdCtx)) (cmd : FcntlCmd) :
    (fcntlWith get w fd cmd true).isSome = (get w fd false).isSome := by
  cases cmd with
  | F_SETFL arg =>
    simp only [fcntlWith]
    cases get w fd false with
    | none => rfl
    | some r =>
      obtain ⟨w', fd_ctx⟩ := r
      cases fd_ctx with
      | none => rfl
      | some ctx => cases h : ctx.ignored <;> simp [h]
  | F_GETFL =>
    have hw : (w.fcntl_f fd .F_GETFL true).1 = w := by
      unfold fcntl_f
      split <;> rfl
    simp only [fcntlWith, hw]
    cases get w fd false with
    | none => rfl
    | some r =>
      obtain ⟨w', fd_ctx⟩ := r
      cases fd_ctx with
      | none => rfl
      | some ctx => cases h : ctx.ignored <;> cases hu : ctx.m_userNonblock <;> simp [h, hu]

theorem newCtxLocks_isSome {locks : FdManager → Option (List Op)}
    {get : FdManager → Nat → Bool → Option (FdManager × Option FdCtx)}
    (h : ∀ w, (locks w).isSome = (get w fd false).isSome) :
    (newCtxLocks locks get w fd).isSome = (newCtx get w fd).isSome := by
  unfold newCtxLocks newCtx
  split
  · have hgetfl := (fcntlWith_isSome get .F_GETFL).trans (h w).symm
    cases hf : fcntlWith get w fd .F_GETFL true with
    | none =>
      rw [hf] at hgetfl
      cases hl : locks w with
      | none => rfl
      | some ops => simp [hl] at hgetfl
    | some r =>
      obtain ⟨w', flags⟩ := r
      rw [hf] at hgetfl
      obtain ⟨ops, hl⟩ := Option.isSome_iff_exists.mp hgetfl.symm
      simp only [hl, Option.bind_eq_bind, Option.bind_some]
      split
      · rfl
      · have hsetfl := (fcntlWith_isSome get (.F_SETFL (flags ||| O_NONBLOCK))).trans (h w').symm
        cases hs : fcntlWith get w' fd (.F_SETFL (flags ||| O_NONBLOCK)) true <;>
          cases hl' : locks w' <;> simp_all
  · rfl

/-- The chain ends at the depth at which `get` has a result. -/
theorem locks_isSome (d : Nat) (w : FdManager) (fd : Nat) (auto_create : Bool) :
    (locks d w fd auto_create).isSome = (get d w fd auto_create).isSome := by
  induction d generalizing w auto_create with
  | zero => rfl
  | succ d ih =>
    have hnew := newCtxLocks_isSome (w := w) fun w => ih w false
    simp only [locks, get]
    have hcreate : ((newCtxLocks (fun w => locks d w fd false) (get d) w fd).map fun ops =>
        [Op.rdlock, .unlock] ++ (.wrlock :: (ops ++ [.unlock]))).isSome =
        (newCtx (get d) w fd).isSome := by rw [Option.isSome_map, hnew]
    split
    · split
      · rfl
      · rw [hcreate]
        cases newCtx (get d) w fd <;> rfl
    · split
      · rfl
      · rw [hcreate]
        cases newCtx (get d) w fd <;> rfl

/-- A socket beyond the table: no depth is enough. -/
theorem locks_beyond (h : w.m_datas.length ≤ fd) (hs : w.isSock fd = true) (d : Nat) :
    locks d w fd false = none := by
  have hnone := locks_isSome d w fd false
  rw [get_diverges h hs d] at hnone
  exact Option.isNone_iff_eq_none.mp (Option.isSome_eq_false_iff.mp hnone)

/-! ## What is asked for under the write lock -/

/-- The constructor of a socket's `FdCtx` asks for the lock. -/
theorem not_safe_creates (hs : w.isSock fd = true) (hc : w.Creates fd auto_create)
    {ops : List Op} (h : locks d w fd auto_create = some ops) : ¬ Safe [] ops := by
  cases d with
  | zero => cases h
  | succ d =>
    rw [locks_creates hc] at h
    obtain ⟨inner, hinner, rfl⟩ := Option.map_eq_some_iff.mp h
    unfold newCtxLocks at hinner
    rw [if_pos hs] at hinner
    obtain ⟨getfl, hgetfl, hinner⟩ := Option.bind_eq_some_iff.mp hinner
    obtain ⟨⟨w', flags⟩, -, hinner⟩ := Option.bind_eq_some_iff.mp hinner
    obtain ⟨rest, rfl⟩ := locks_head hgetfl
    obtain ⟨rest', rfl⟩ : ∃ rest', inner = .rdlock :: rest' := by
      simp only at hinner
      split at hinner
      · cases hinner
        exact ⟨_, rfl⟩
      · obtain ⟨setfl, -, hinner⟩ := Option.bind_eq_some_iff.mp hinner
        cases hinner
        exact ⟨_, rfl⟩
    simp [Safe]

/-! ## What is left of the lock -/

variable {l : RWLock Unit}

/-- A `get` that makes an `FdCtx`. -/
theorem exec_get (h : l.Idle) (kind : FdKind) : l.exec () ([.rdlock, .unlock] ++ kind.create) =
    if l.afterRead.writable then some (kind.leaves l.afterRead) else none := by
  rw [RWLock.exec_append, RWLock.exec_read h, Option.bind_some]
  exact FdKind.exec_create h.afterRead

/-- `get` ends, gets the locks that it asks for, and asks for none under the write lock, exactly when
fd is negative, or no `FdCtx` of it is made, or one of what is no socket and a writer gets the
lock. -/
theorem fine_iff (w : FdManager) (l : RWLock Unit) (fd : Int) (auto_create : Bool) (hl : l.Idle) :
    Fine w l fd auto_create ↔ fd < 0 ∨ ¬ w.Creates fd.toNat auto_create ∨
      (w.isSock fd.toNat = false ∧ (l.readers = 0 ∨ l.full = true ∧ l.wrphase = true)) := by
  rw [← RWLock.writable_afterRead]
  constructor
  · intro hex
    obtain ⟨depth, ops, hops, hsafe, hlock⟩ := hex
    by_contra hnot
    simp only [not_or, not_not, not_and] at hnot
    obtain ⟨hneg, hc, hwait⟩ := hnot
    rw [chain, if_neg hneg] at hops
    cases hs : w.isSock fd.toNat with
    | true => exact not_safe_creates hs hc hops hsafe
    | false =>
      cases depth with
      | zero => cases hops
      | succ d =>
        rw [locks_creates_other hs hc] at hops
        cases hops
        rw [exec_get hl, if_neg (hwait hs)] at hlock
        cases hlock
  · intro h
    by_cases hneg : fd < 0
    · exact ⟨0, [], if_pos hneg, trivial, rfl⟩
    · by_cases hc : w.Creates fd.toNat auto_create
      · obtain ⟨hs, hw⟩ := (h.resolve_left hneg).resolve_left (not_not_intro hc)
        refine ⟨1, _, by rw [chain, if_neg hneg, locks_creates_other hs hc],
          by simp [Safe, FdKind.create, FdKind.locks], ?_⟩
        rw [exec_get hl, if_pos hw]
        rfl
      · refine ⟨1, _, by rw [chain, if_neg hneg, locks_reads hc], by simp [Safe], ?_⟩
        rw [RWLock.exec_read hl]
        rfl

/-- A socket has been opened as fd 3. -/
def oneSocket : FdManager := new fun fd => if fd = 3 then some ⟨true, 0x2, 0x46c00⟩ else none

/-- `get(4, true)` is fine before the `FdCtx` of the socket was made, and not afterwards. -/
theorem fine_before : Fine oneSocket .new 4 true ∧
    ∃ ops l, chain 2 oneSocket 3 true = some ops ∧ RWLock.new.exec () ops = some l ∧
      ¬ Fine oneSocket l 4 true := by
  refine ⟨(fine_iff _ _ 4 true RWLock.idle_new).mpr (by decide +kernel), [.rdlock, .unlock, .wrlock,
    .rdlock, .unlock, .rdlock, .unlock, .unlock], ⟨-1, false, false, none⟩, by decide +kernel,
    by decide +kernel, ?_⟩
  rw [fine_iff _ _ 4 true ⟨rfl, rfl⟩]
  decide +kernel

/-- `get(3, true)` asks twice under the write lock. -/
theorem not_fine_socket :
    chain 2 oneSocket 3 true = some [.rdlock, .unlock, .wrlock, .rdlock, .unlock, .rdlock,
      .unlock, .unlock] ∧ ¬ Fine oneSocket .new 3 true := by
  refine ⟨by decide +kernel, fun h => ?_⟩
  rcases (fine_iff _ _ 3 true RWLock.idle_new).mp h with hneg | hc | ⟨hs, -⟩
  · exact absurd hneg (by decide)
  · exact hc (by decide +kernel)
  · exact absurd hs (by decide)

end FdManager
end Ppcode
