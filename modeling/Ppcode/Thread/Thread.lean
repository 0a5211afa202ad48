import Ppcode.Core.LTS

/-!
# `Thread`: a thread and the object that stands for it

`src/thread/thread.cc`. The constructor calls `start_thread`, which creates the thread and
waits on `m_sem`; the new thread runs `run`, which writes to the object, takes the callback
out of it, notifies `m_sem` and then calls the callback. Afterwards the owner of the object
calls `joinable`, `join` and `detach` in any order, and destroys it at any moment, also
while the callback runs.

Every access of the new thread to the object is a step. `pthread_create` starts the thread
before it writes `m_threadId` or after; the second step is `store`. An id of a thread is
not 0. The owner is another thread, and the `sem_wait` of `m_sem` may fail (`interrupt`): then
the constructor throws, and the object is gone.

* `dangling`: the new thread goes on into the object that is gone.
* `leaves_object`: where `sem_wait` does not fail, the new thread does not access the object any
  more when the constructor has returned, so never one that is destroyed; what `run` writes is
  there by then.
* `reclaimed_once`: the thread is joined or detached at most once, and exactly once when
  the object is destroyed. A `join` that returns true has waited for the callback.

`run` does not set `t_thread` (:45 assigns a local to itself), so `GetThis` returns null.
-/
namespace Ppcode

/-- mirrors src/thread/thread.h:127-136 -/
structure Thread (F : Type) where
  m_cb : Option F
  m_tid : Int
  m_threadId : Nat
  m_name : String
  /-- the count of `m_sem` -/
  m_sem : Nat
  m_isRun : Bool
  m_isDetach : Bool
  m_isExit : Bool

namespace Thread
variable {F : Type}

/-- The members when the body of the constructor begins: `start_thread` is next.
mirrors src/thread/thread.h:27-34 -/
def new (name : String) (f : F) : Thread F := ⟨some f, -1, 0, name, 0, false, false, false⟩

/-- mirrors src/thread/thread.cc:175-181 -/
def joinable (t : Thread F) : Bool := !(t.m_isExit || t.m_isDetach)

/-- Control point of the owner. -/
inductive OwnerPc where
  /-- `start_thread`: :89 -/
  | name
  /-- :92, about to create the thread -/
  | create
  /-- `pthread_create`: about to write the id -/
  | store (id : Nat)
  /-- :100 -/
  | wait
  /-- the constructor has returned; in no call -/
  | ready
  /-- `join`: :135, in `pthread_join` -/
  | join
  /-- the constructor has thrown -/
  | threw
  /-- the destructor has returned -/
  | gone
  deriving DecidableEq

/-- Control point of the new thread. -/
inductive RunPc where
  /-- not created -/
  | none
  /-- `run`: :43, `m_isRun` -/
  | isRun
  /-- :45 -/
  | self
  /-- :46, read `m_name` -/
  | name
  /-- :47, write `m_tid` -/
  | tid
  /-- :50, read `m_threadId` and `m_name` -/
  | setname
  /-- :54, swap `m_cb` out -/
  | swap
  /-- :55, notify `m_sem` -/
  | notify
  /-- :58, about to call the callback -/
  | call
  /-- in the callback -/
  | inCallback
  | exited
  deriving DecidableEq

/-- The next step is an access to the object. -/
def RunPc.touches : RunPc → Bool
  | .isRun | .self | .name | .tid | .setname | .swap | .notify => true
  | .none | .call | .inCallback | .exited => false

/-- The object, the owner, the new thread with its locals and thread-locals (`cb`, `t_thread`,
`t_Thread_name`, the name the kernel has for it), the calls of callbacks, the calls of
`pthread_join` and `pthread_detach` on it, and what the latest `join` returned. -/
structure Sys (F : Type) where
  obj : Thread F
  owner : OwnerPc
  run : RunPc
  cb : Option F
  t_thread : Option Unit
  t_Thread_name : String
  kernelName : Option (Nat × String)
  called : List F
  reclaims : Nat
  returned : Option Bool

inductive Act where
  /-- the owner goes on; the id of the thread if `pthread_create` succeeds -/
  | owner (id : Option Nat)
  /-- `sem_wait` fails, with `EINTR` -/
  | interrupt
  | join
  | detach
  /-- the destructor -/
  | destroy
  /-- the new thread goes on; what `GetThreadId` returns -/
  | run (tid : Nat)
  deriving DecidableEq

namespace Sys

/-- There is an object. -/
def alive (s : Sys F) : Bool := decide (s.owner ≠ .threw ∧ s.owner ≠ .gone)

/-- mirrors src/thread/thread.cc:88-102 and 134-144 -/
def ownerStep (s : Sys F) (id : Option Nat) : Option (Sys F) :=
  match s.owner with
  | .name =>
    some { s with
      obj := { s.obj with m_name := if s.obj.m_name = "" then "UNKOWN" else s.obj.m_name }
      owner := .create }
  | .create =>
    match id with
    | some id => if id = 0 then none else some { s with owner := .store id, run := .isRun }
    | none => some { s with owner := .threw }
  | .store id => some { s with obj := { s.obj with m_threadId := id }, owner := .wait }
  | .wait =>
    if s.obj.m_sem = 0 then none
    else some { s with obj := { s.obj with m_sem := s.obj.m_sem - 1 }, owner := .ready }
  | .join =>
    if s.run = .exited then
      some { s with
        obj := { s.obj with m_threadId := 0 }
        owner := .ready, reclaims := s.reclaims + 1, returned := some true }
    else none
  | .ready | .threw | .gone => none

/-- `m_sem.wait()` throws, and so does the constructor.
mirrors src/thread/semaphore.cc:25-31, thread.cc:100 -/
def interrupt (s : Sys F) : Sys F := { s with owner := .threw }

/-- mirrors src/thread/thread.cc:128-145 -/
def join (s : Sys F) : Sys F :=
  if s.obj.m_isDetach then { s with returned := some false }
  else if s.obj.m_threadId ≠ 0 then { s with owner := .join }
  else { s with returned := some true }

/-- mirrors src/thread/thread.cc:149-156 -/
def detach (s : Sys F) : Sys F :=
  if s.obj.m_threadId ≠ 0 ∧ s.obj.m_isDetach = false then
    { s with
      obj := { s.obj with m_threadId := 0, m_isDetach := true }, reclaims := s.reclaims + 1 }
  else s

/-- mirrors src/thread/thread.cc:123-126 -/
def destroy (s : Sys F) : Sys F :=
  { s.detach with obj := { s.detach.obj with m_isExit := true }, owner := .gone }

/-- `thread = thread` writes nothing.
mirrors src/thread/thread.cc:40-64 -/
def runStep (s : Sys F) (tid : Nat) : Option (Sys F) :=
  match s.run with
  | .none | .exited => none
  | .isRun => some { s with obj := { s.obj with m_isRun := true }, run := .self }
  | .self => some { s with run := .name }
  | .name => some { s with t_Thread_name := s.obj.m_name, run := .tid }
  | .tid => some { s with obj := { s.obj with m_tid := tid }, run := .setname }
  | .setname =>
    some { s with
      kernelName := some (s.obj.m_threadId, (s.obj.m_name.take 15).toString), run := .swap }
  | .swap => some { s with obj := { s.obj with m_cb := s.cb }, cb := s.obj.m_cb, run := .notify }
  | .notify => some { s with obj := { s.obj with m_sem := s.obj.m_sem + 1 }, run := .call }
  | .call => some { s with called := s.called ++ s.cb.toList, run := .inCallback }
  | .inCallback => some { s with run := .exited }

def step (s : Sys F) : Act → Option (Sys F)
  | .owner id => s.ownerStep id
  | .interrupt => if s.owner = .wait then some s.interrupt else none
  | .join => if s.owner = .ready then some s.join else none
  | .detach => if s.owner = .ready then some s.detach else none
  | .destroy => if s.owner = .ready then some s.destroy else none
  | .run tid => s.runStep tid

def init (name : String) (f : F) : Sys F :=
  ⟨.new name f, .name, .none, none, none, "UNKOWN", none, [], 0, none⟩

def lts (name : String) (f : F) : LTS (Sys F) Act := LTS.ofFn (fun s => s = init name f) step

/-- `sem_wait` does not fail. -/
def Waits (_ : Sys F) (a : Act) : Prop := a ≠ .interrupt

def waitsB (_ : Sys F) (a : Act) : Bool := decide (a ≠ .interrupt)

theorem waits_of_check (s : Sys F) (a : Act) (h : waitsB s a = true) : Waits s a :=
  show a ≠ .interrupt from of_decide_eq_true h

/-! ## The handshake -/

end Sys

/-- `store` is done, or the thread waits for it no more. -/
def OwnerPc.created : OwnerPc → Bool
  | .store _ | .wait | .ready | .join | .gone => true
  | .name | .create | .threw => false

/-- The constructor has returned. -/
def OwnerPc.waited : OwnerPc → Bool
  | .ready | .join | .gone => true
  | _ => false

/-- `pthread_create` has returned. -/
def OwnerPc.stored : OwnerPc → Bool
  | .wait | .ready | .join | .gone => true
  | _ => false

/-- How far the new thread is. -/
def RunPc.rank : RunPc → Nat
  | .none => 0
  | .isRun => 1
  | .self => 2
  | .name => 3
  | .tid => 4
  | .setname => 5
  | .swap => 6
  | .notify => 7
  | .call => 8
  | .inCallback => 9
  | .exited => 10

/-- Past the notification. -/
def RunPc.notified (p : RunPc) : Bool := decide (8 ≤ p.rank)

namespace Sys
variable {name : String} {f : F} {s s' : Sys F}

/-- What the new thread has done so far. -/
structure Handshake (name : String) (f : F) (s : Sys F) : Prop where
  created : s.run = .none ↔ s.owner.created = false
  sem : s.obj.m_sem + s.owner.waited.toNat = s.run.notified.toNat
  isRun : 2 ≤ s.run.rank → s.obj.m_isRun = true
  tid : 5 ≤ s.run.rank → 0 ≤ s.obj.m_tid
  cb : (s.obj.m_cb, s.cb) = if s.run.rank ≤ 6 then (some f, none) else (none, some f)
  called : s.called = if s.run.rank ≤ 8 then [] else [f]
  self : s.t_thread = none
  name : s.obj.m_name = if s.owner = .name ∨ name ≠ "" then name else "UNKOWN"
  shown : 4 ≤ s.run.rank → s.t_Thread_name = s.obj.m_name

theorem handshake_init : (init name f).Handshake name f where
  created := ⟨fun _ => rfl, fun _ => rfl⟩
  sem := rfl
  isRun h := absurd h (by simp [init, RunPc.rank])
  tid h := absurd h (by simp [init, RunPc.rank])
  cb := rfl
  called := rfl
  self := rfl
  name := (if_pos (.inl rfl)).symm
  shown h := absurd h (by simp [init, RunPc.rank])

/-- The owner has gone on, past the name, and the new thread has stayed where it is. -/
theorem Handshake.moved (h : s.Handshake name f) (hobj : s'.obj.m_isRun = s.obj.m_isRun)
    (htid : s'.obj.m_tid = s.obj.m_tid) (hcb : s'.obj.m_cb = s.obj.m_cb)
    (hname : s'.obj.m_name = s.obj.m_name) (hrun : s'.run = s.run) (hcb' : s'.cb = s.cb)
    (hcalled : s'.called = s.called) (hself : s'.t_thread = s.t_thread)
    (hshown : s'.t_Thread_name = s.t_Thread_name) (hcreated : s'.owner.created = s.owner.created)
    (hsem : s'.obj.m_sem + s'.owner.waited.toNat = s.obj.m_sem + s.owner.waited.toNat)
    (howner : s'.owner = .name ↔ s.owner = .name) : s'.Handshake name f where
  created := by rw [hrun, hcreated]; exact h.created
  sem := by rw [hrun, hsem]; exact h.sem
  isRun := by rw [hrun, hobj]; exact h.isRun
  tid := by rw [hrun, htid]; exact h.tid
  cb := by rw [hrun, hcb, hcb']; exact h.cb
  called := by rw [hrun, hcalled]; exact h.called
  self := by rw [hself]; exact h.self
  name := by simp only [howner, hname]; exact h.name
  shown := by rw [hrun, hname, hshown]; exact h.shown

theorem Handshake.owner {id : Option Nat} (h : s.Handshake name f)
    (hst : s.ownerStep id = some s') : s'.Handshake name f := by
  unfold ownerStep at hst
  cases ho : s.owner with
  | ready | threw | gone => simp [ho] at hst
  | name =>
    simp only [ho, Option.some.injEq] at hst
    subst hst
    have hnone : s.run = .none := h.created.mpr (by rw [ho]; rfl)
    have hn : s.obj.m_name = name := by simpa [ho] using h.name
    refine ⟨?_, ?_, h.isRun, h.tid, h.cb, h.called, h.self, ?_, ?_⟩
    · simp [hnone, OwnerPc.created]
    · simpa [ho, OwnerPc.waited] using h.sem
    · simp only [hn, reduceCtorEq, false_or, ne_eq, ite_not]
    · simp [hnone, RunPc.rank]
  | create =>
    have hnone : s.run = .none := h.created.mpr (by rw [ho]; rfl)
    simp only [ho] at hst
    cases id with
    | none =>
      cases hst
      exact h.moved rfl rfl rfl rfl rfl rfl rfl rfl rfl (by rw [ho]; rfl) (by rw [ho]; rfl)
        (by simp [ho])
    | some id =>
      simp only [Option.ite_none_left_eq_some, Option.some.injEq] at hst
      obtain ⟨-, rfl⟩ := hst
      obtain ⟨-, hsem, -, -, hcb, hcalled, hself, hname, -⟩ := h
      simp only [hnone, ho, RunPc.rank, RunPc.notified, OwnerPc.waited] at hsem hcb hcalled hname
      refine ⟨?_, hsem, ?_, ?_, hcb, hcalled, hself, ?_, ?_⟩
      · simp [OwnerPc.created]
      · simp [RunPc.rank]
      · simp [RunPc.rank]
      · simpa using hname
      · simp [RunPc.rank]
  | store id =>
    simp only [ho, Option.some.injEq] at hst
    subst hst
    exact h.moved rfl rfl rfl rfl rfl rfl rfl rfl rfl (by rw [ho]; rfl) (by rw [ho]; rfl)
      (by simp [ho])
  | wait =>
    simp only [ho, Option.ite_none_left_eq_some, Option.some.injEq] at hst
    obtain ⟨hpos, rfl⟩ := hst
    refine h.moved rfl rfl rfl rfl rfl rfl rfl rfl rfl (by rw [ho]; rfl) ?_ (by simp [ho])
    simp only [ho, OwnerPc.waited, Bool.toNat_true, Bool.toNat_false]
    omega
  | join =>
    simp only [ho, Option.ite_none_right_eq_some, Option.some.injEq] at hst
    obtain ⟨-, rfl⟩ := hst
    exact h.moved rfl rfl rfl rfl rfl rfl rfl rfl rfl (by rw [ho]; rfl) (by rw [ho]; rfl)
      (by simp [ho])

theorem Handshake.join (h : s.Handshake name f) (ho : s.owner = .ready) :
    s.join.Handshake name f := by
  unfold Sys.join
  split_ifs
  all_goals
    exact h.moved rfl rfl rfl rfl rfl rfl rfl rfl rfl (by simp [ho, OwnerPc.created])
      (by simp [ho, OwnerPc.waited]) (by simp [ho])

theorem Handshake.detach (h : s.Handshake name f) : s.detach.Handshake name f := by
  unfold Sys.detach
  split_ifs
  · exact h.moved rfl rfl rfl rfl rfl rfl rfl rfl rfl rfl rfl Iff.rfl
  · exact h

theorem detach_owner : s.detach.owner = s.owner := by
  unfold detach
  split_ifs <;> rfl

theorem Handshake.destroy (h : s.Handshake name f) (ho : s.owner = .ready) :
    s.destroy.Handshake name f := by
  have ho' : s.detach.owner = .ready := detach_owner.trans ho
  exact h.detach.moved rfl rfl rfl rfl rfl rfl rfl rfl rfl (by rw [ho']; rfl) (by rw [ho']; rfl)
    (by simp [Sys.destroy, ho'])

theorem Handshake.run {tid : Nat} (h : s.Handshake name f) (hst : s.runStep tid = some s') :
    s'.Handshake name f := by
  unfold runStep at hst
  obtain ⟨hcreated, hsem, hisRun, htid, hcb, hcalled, hself, hname, hshown⟩ := h
  cases hr : s.run with
  | none | exited => simp [hr] at hst
  | isRun | self | name | tid | setname | swap | notify | call | inCallback =>
    simp only [hr, Option.some.injEq] at hst
    subst hst
    simp only [hr, reduceCtorEq, false_iff, Bool.not_eq_false] at hcreated
    simp [hr, RunPc.rank, RunPc.notified] at hsem hisRun htid hcb hcalled hshown
    constructor <;> simp [RunPc.rank, RunPc.notified, *]

theorem handshake (h : ((lts name f).restrict Waits).Reachable s) : s.Handshake name f := by
  have hind : ((lts name f).restrict Waits).Inductive (Handshake name f) := by
    refine ⟨fun s h => h ▸ handshake_init, fun s a s' hi ⟨hst, hwaits⟩ => ?_⟩
    change step s a = some s' at hst
    cases a with
    | owner id => exact hi.owner hst
    | interrupt => exact absurd rfl hwaits
    | join =>
      simp only [step, Option.ite_none_right_eq_some, Option.some.injEq] at hst
      obtain ⟨ho, rfl⟩ := hst
      exact hi.join ho
    | detach =>
      simp only [step, Option.ite_none_right_eq_some, Option.some.injEq] at hst
      obtain ⟨-, rfl⟩ := hst
      exact hi.detach
    | destroy =>
      simp only [step, Option.ite_none_right_eq_some, Option.some.injEq] at hst
      obtain ⟨ho, rfl⟩ := hst
      exact hi.destroy ho
    | run tid => exact hi.run hst
  exact hind.reachable s h

/-! ## Joined or detached -/

/-- What has been done about the thread itself. -/
structure Reclaim (s : Sys F) : Prop where
  early : s.owner.stored = false →
    s.obj.m_threadId = 0 ∧ s.reclaims = 0 ∧ s.obj.m_isDetach = false ∧ s.returned = none
  storing : ∀ id, s.owner = .store id → id ≠ 0
  id : s.owner.stored = true → (s.obj.m_threadId = 0 ↔ s.reclaims = 1)
  once : s.reclaims ≤ 1
  detached : s.obj.m_isDetach = true → s.reclaims = 1
  joined : s.reclaims = 1 → s.obj.m_isDetach = false → s.run = .exited
  joining : s.owner = .join → s.reclaims = 0 ∧ s.obj.m_isDetach = false
  gone : s.owner = .gone → s.reclaims = 1
  exit : s.obj.m_isExit = true ↔ s.owner = .gone
  returned : s.returned = some true → s.run = .exited

theorem reclaim_init : (init name f).Reclaim where
  early _ := ⟨rfl, rfl, rfl, rfl⟩
  storing id h := by simp [init] at h
  id h := by simp [init, OwnerPc.stored] at h
  once := Nat.zero_le 1
  detached h := by simp [init, new] at h
  joined h := by simp [init] at h
  joining h := by simp [init] at h
  gone h := by simp [init] at h
  exit := by simp [init, new]
  returned h := by simp [init] at h

theorem Reclaim.owner {id : Option Nat} (h : s.Reclaim) (hst : s.ownerStep id = some s') :
    s'.Reclaim := by
  unfold ownerStep at hst
  obtain ⟨hearly, hstoring, hid, honce, hdetached, hjoined, hjoining, hgone, hexit, hret⟩ := h
  cases ho : s.owner with
  | ready | threw | gone => simp [ho] at hst
  | name =>
    simp only [ho, Option.some.injEq] at hst
    subst hst
    exact ⟨fun _ => hearly (by rw [ho]; rfl), nofun, nofun, honce, hdetached, hjoined, nofun,
      nofun, by simpa [ho] using hexit, hret⟩
  | create =>
    have hnone := hearly (by rw [ho]; rfl)
    simp only [ho] at hst
    split at hst
    · simp only [Option.ite_none_left_eq_some, Option.some.injEq] at hst
      obtain ⟨hne, rfl⟩ := hst
      exact ⟨fun _ => hnone, fun _ h => OwnerPc.store.inj h ▸ hne, nofun, honce, hdetached,
        fun h1 => absurd h1 (by simp [hnone.2.1]), nofun, nofun, by simpa [ho] using hexit,
        fun h1 => absurd h1 (by simp [hnone.2.2.2])⟩
    · simp only [Option.some.injEq] at hst
      subst hst
      exact ⟨fun _ => hnone, nofun, nofun, honce, hdetached, hjoined, nofun, nofun,
        by simpa [ho] using hexit, hret⟩
  | store id =>
    obtain ⟨hz, hnone, -, -⟩ := hearly (by rw [ho]; rfl)
    simp only [ho, Option.some.injEq] at hst
    subst hst
    exact ⟨nofun, nofun, fun _ => by simp [hstoring id ho, hnone], honce, hdetached, hjoined,
      nofun, nofun, by simpa [ho] using hexit, hret⟩
  | wait =>
    simp only [ho, Option.ite_none_left_eq_some, Option.some.injEq] at hst
    obtain ⟨-, rfl⟩ := hst
    exact ⟨nofun, nofun, fun _ => hid (by rw [ho]; rfl), honce, hdetached, hjoined, nofun, nofun,
      by simpa [ho] using hexit, hret⟩
  | join =>
    obtain ⟨hnone, hd⟩ := hjoining ho
    simp only [ho, Option.ite_none_right_eq_some, Option.some.injEq] at hst
    obtain ⟨hexited, rfl⟩ := hst
    exact ⟨nofun, nofun, fun _ => by simp [hnone], by simp [hnone], fun _ => by simp [hnone],
      fun _ _ => hexited, nofun, nofun, by simpa [ho] using hexit, fun _ => hexited⟩

/-- Nothing has been done about a thread whose id is still there. -/
theorem Reclaim.not_yet (h : s.Reclaim) (ho : s.owner = .ready) (hz : s.obj.m_threadId ≠ 0) :
    s.reclaims = 0 := by
  have hne : s.reclaims ≠ 1 := fun h1 => hz ((h.id (by rw [ho]; rfl)).mpr h1)
  have := h.once
  omega

theorem Reclaim.join (h : s.Reclaim) (ho : s.owner = .ready) : s.join.Reclaim := by
  have hnone := h.not_yet ho
  obtain ⟨hearly, hstoring, hid, honce, hdetached, hjoined, hjoining, hgone, hexit, hret⟩ := h
  unfold Sys.join
  split_ifs with hd hz
  · exact ⟨fun h => absurd h (by rw [ho]; nofun), hstoring, hid, honce, hdetached, hjoined,
      hjoining, hgone, hexit, nofun⟩
  · exact ⟨nofun, nofun, fun _ => hid (by rw [ho]; rfl), honce, hdetached, hjoined,
      fun _ => ⟨hnone hz, by simpa using hd⟩, nofun, by simpa [ho] using hexit, hret⟩
  · have hone : s.reclaims = 1 := (hid (by rw [ho]; rfl)).mp (not_not.mp hz)
    exact ⟨fun h => absurd h (by rw [ho]; nofun), hstoring, hid, honce, hdetached, hjoined,
      hjoining, hgone, hexit, fun _ => hjoined hone (by simpa using hd)⟩

theorem Reclaim.detach (h : s.Reclaim) (ho : s.owner = .ready) : s.detach.Reclaim := by
  have hnone := h.not_yet ho
  unfold Sys.detach
  split_ifs with hc
  · have hone : s.reclaims + 1 = 1 := by rw [hnone hc.1]
    obtain ⟨hearly, hstoring, hid, honce, hdetached, hjoined, hjoining, hgone, hexit, hret⟩ := h
    exact ⟨fun h => absurd h (by rw [ho]; nofun), hstoring, fun _ => by simp [hone], hone.le,
      fun _ => hone, nofun, fun h => absurd h (by rw [ho]; nofun), fun _ => hone, hexit, hret⟩
  · exact h

/-- After `detach`, the thread is joined or detached. -/
theorem Reclaim.detach_reclaims (h : s.Reclaim) (ho : s.owner = .ready) :
    s.detach.reclaims = 1 := by
  have h' := h.detach ho
  refine (h'.id (by rw [detach_owner, ho]; rfl)).mp ?_
  unfold Sys.detach
  split_ifs with hc
  · rfl
  · by_contra hz
    have hd : s.obj.m_isDetach = true := by
      cases hd : s.obj.m_isDetach with
      | true => rfl
      | false => exact absurd ⟨hz, hd⟩ hc
    exact hz ((h.id (by rw [ho]; rfl)).mpr (h.detached hd))

theorem Reclaim.destroy (h : s.Reclaim) (ho : s.owner = .ready) : s.destroy.Reclaim := by
  have hone := h.detach_reclaims ho
  have ho' := detach_owner.trans ho
  obtain ⟨hearly, hstoring, hid, honce, hdetached, hjoined, hjoining, hgone, hexit, hret⟩ :=
    h.detach ho
  exact ⟨nofun, nofun, fun _ => hid (by rw [ho']; rfl), honce, hdetached, hjoined, nofun,
    fun _ => hone, iff_of_true rfl rfl, hret⟩

theorem Reclaim.run {tid : Nat} (h : s.Reclaim) (hst : s.runStep tid = some s') :
    s'.Reclaim := by
  unfold runStep at hst
  obtain ⟨hearly, hstoring, hid, honce, hdetached, hjoined, hjoining, hgone, hexit, hret⟩ := h
  cases hr : s.run with
  | none | exited => simp [hr] at hst
  | isRun | self | name | tid | setname | swap | notify | call | inCallback =>
    simp only [hr, Option.some.injEq] at hst
    subst hst
    exact ⟨hearly, hstoring, hid, honce, hdetached,
      fun h1 hd => absurd (hjoined h1 hd) (by rw [hr]; nofun), hjoining, hgone, hexit,
      fun h1 => absurd (hret h1) (by rw [hr]; nofun)⟩

theorem reclaim (h : ((lts name f).restrict Waits).Reachable s) : s.Reclaim := by
  have hind : ((lts name f).restrict Waits).Inductive Reclaim := by
    refine ⟨fun s h => h ▸ reclaim_init, fun s a s' hi ⟨hst, hwaits⟩ => ?_⟩
    change step s a = some s' at hst
    cases a with
    | owner id => exact hi.owner hst
    | interrupt => exact absurd rfl hwaits
    | join =>
      simp only [step, Option.ite_none_right_eq_some, Option.some.injEq] at hst
      obtain ⟨ho, rfl⟩ := hst
      exact hi.join ho
    | detach =>
      simp only [step, Option.ite_none_right_eq_some, Option.some.injEq] at hst
      obtain ⟨ho, rfl⟩ := hst
      exact hi.detach ho
    | destroy =>
      simp only [step, Option.ite_none_right_eq_some, Option.some.injEq] at hst
      obtain ⟨ho, rfl⟩ := hst
      exact hi.destroy ho
    | run tid => exact hi.run hst
  exact hind.reachable s h

/-! ## What holds in every run -/

/-- Where `sem_wait` fails before the notification, the object is gone and the new thread is about
to access it. -/
theorem dangling (h : ((lts name f).restrict Waits).Reachable s) (hsem : s.obj.m_sem = 0)
    (hst : step s .interrupt = some s') : s'.alive = false ∧ s'.run.touches = true := by
  have hs := handshake h
  simp only [step, Option.ite_none_right_eq_some, Option.some.injEq] at hst
  obtain ⟨ho, rfl⟩ := hst
  refine ⟨by simp [interrupt, alive], ?_⟩
  have hnone : s.run ≠ .none := by
    simp [hs.created, ho, OwnerPc.created]
  have hnotified : s.run.notified = false := by
    have hcount := hs.sem
    cases hn : s.run.notified with
    | false => rfl
    | true => simp [hsem, ho, OwnerPc.waited, hn] at hcount
  change s.run.touches = true
  cases hr : s.run <;> simp_all [RunPc.touches, RunPc.notified, RunPc.rank]

/-- Where `sem_wait` does not fail, the new thread accesses the object only before the constructor
has returned; by then what it writes there is written. -/
theorem leaves_object (h : ((lts name f).restrict Waits).Reachable s) :
    (s.run.touches = true → s.alive = true ∧ s.owner.waited = false) ∧
      (s.owner.waited = true →
        s.obj.m_isRun = true ∧ 0 ≤ s.obj.m_tid ∧ s.obj.m_cb = none ∧ s.cb = some f ∧
          s.t_Thread_name = if name = "" then "UNKOWN" else name) ∧
      s.called.length ≤ 1 ∧ s.t_thread = none := by
  have hs := handshake h
  have hsem := hs.sem
  refine ⟨fun ht => ?_, fun hw => ?_, ?_, hs.self⟩
  · have hw : s.owner.waited = false := by
      cases hr : s.run <;> simp_all [RunPc.touches, RunPc.notified, RunPc.rank]
    refine ⟨?_, hw⟩
    have hne : s.run ≠ .none := by
      intro hr
      simp [hr, RunPc.touches] at ht
    have hc : s.owner.created = true := by simpa [hs.created] using hne
    cases ho : s.owner <;> simp_all [alive, OwnerPc.created, OwnerPc.waited]
  · have hrank : 8 ≤ s.run.rank := by
      have hn : s.run.notified = true := by
        cases hn : s.run.notified with
        | true => rfl
        | false => simp [hw, hn] at hsem
      simpa [RunPc.notified] using hn
    have hcb := hs.cb
    rw [if_neg (by omega)] at hcb
    obtain ⟨hcb, hcb'⟩ := Prod.mk.inj hcb
    have hne : s.owner ≠ .name := by
      intro ho
      simp [ho, OwnerPc.waited] at hw
    have hname := hs.name
    simp only [hne, false_or, ne_eq, ite_not] at hname
    exact ⟨hs.isRun (by omega), hs.tid (by omega), hcb, hcb', (hs.shown (by omega)).trans hname⟩
  · rw [hs.called]
    split_ifs <;> simp

/-- The constructor returns as soon as it is told, and the object is destroyed before the
callback is called. -/
def hurried : List Act :=
  [.owner none, .owner (some 5)] ++ List.replicate 4 (.run 8) ++ [.owner none] ++
    List.replicate 3 (.run 8) ++ [.owner none, .destroy, .run 8]

theorem leaves_object_hurried :
    ∃ s, ((lts "" 7).restrict Waits).Reachable s ∧
      (s.owner = .gone ∧ s.run = .inCallback ∧ s.called = [7]) ∧
      s.obj.m_cb = none ∧ s.t_Thread_name = "UNKOWN" := by
  have hexec : (LTS.execWith step waitsB (init "" 7) hurried).any (fun s =>
      decide (s.owner = .gone ∧ s.run = .inCallback ∧ s.called = [7])) = true := by decide +kernel
  obtain ⟨s, hs, h⟩ : ∃ s, ((lts "" 7).restrict Waits).Reachable s ∧ _ :=
    LTS.exists_of_execWith waits_of_check hurried rfl hexec
  have hend := of_decide_eq_true h
  have hleft := (leaves_object hs).2.1 (by rw [hend.1]; rfl)
  exact ⟨s, hs, hend, hleft.2.2.1, hleft.2.2.2.2⟩

/-- Owner and thread interleave freely; where `sem_wait` does not fail, the thread is joined or
detached at most once, and once when the object is destroyed. -/
theorem reclaimed_once (h : ((lts name f).restrict Waits).Reachable s) :
    s.reclaims ≤ 1 ∧ (s.owner = .gone → s.reclaims = 1) ∧
      (s.returned = some true → s.run = .exited ∧ s.called = [f]) ∧
      (s.owner = .join → s.obj.joinable = true ∧ s.obj.m_threadId ≠ 0) := by
  have hr := reclaim h
  have hs := handshake h
  refine ⟨hr.once, hr.gone, fun hret => ?_, fun ho => ?_⟩
  · have hexit := hr.returned hret
    refine ⟨hexit, ?_⟩
    rw [hs.called, if_neg (by simp [hexit, RunPc.rank])]
  · obtain ⟨hnone, hd⟩ := hr.joining ho
    refine ⟨?_, fun hz => ?_⟩
    · have he : s.obj.m_isExit = false := by
        cases he : s.obj.m_isExit with
        | false => rfl
        | true => exact absurd (hr.exit.mp he) (by rw [ho]; nofun)
      simp [joinable, hd, he]
    · have := (hr.id (by rw [ho]; rfl)).mp hz
      omega

/-- `join` waits for the callback; a second one returns at once, and the destructor has nothing
left to do. -/
def joined : List Act :=
  [.owner none, .owner (some 5), .owner none] ++ List.replicate 7 (.run 8) ++
    [.owner none, .join, .run 8, .run 8, .owner none, .join, .destroy]

theorem reclaimed_once_joined :
    ∃ s, ((lts "" 7).restrict Waits).Reachable s ∧ (s.owner = .gone ∧ s.returned = some true) ∧
      s.reclaims = 1 ∧ s.called = [7] := by
  have hexec : (LTS.execWith step waitsB (init "" 7) joined).any (fun s =>
      decide (s.owner = .gone ∧ s.returned = some true)) = true := by decide +kernel
  obtain ⟨s, hs, h⟩ : ∃ s, ((lts "" 7).restrict Waits).Reachable s ∧ _ :=
    LTS.exists_of_execWith waits_of_check joined rfl hexec
  have hend := of_decide_eq_true h
  have hall := reclaimed_once hs
  exact ⟨s, hs, hend, hall.2.1 hend.1, (hall.2.2.1 hend.2).2⟩

end Sys
end Thread
end Ppcode
