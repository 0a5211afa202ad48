import Mathlib.Algebra.Order.Group.Multiset
import Ppcode.Core.LTS
import Ppcode.Core.Chain

/-!
# `LockFreeList`: a queue over a recycled free list

`src/thread/lockfreelist.h` keeps `m_max` preallocated nodes. `m_head` is the
top of a stack of free nodes; `m_out` and `m_in` are the ends of a linked
queue whose first node is a dummy. `push` takes a node off the stack
(`AllocNode`), links it behind the last queue node and swings `m_in`; `pop`
advances `m_out` and returns the old dummy to the stack (`ReleaseNode`). Every
link is a `DoublePointer`, a version drawn from `m_id` together with a node,
and is read, written and compared as one 128-bit word.

A thread is a control point `Pc` of `push` or `pop`. `threadStep` is one access
to shared memory: an atomic read, a compare-and-swap, an increment of `m_id`,
a plain read or write of a node field; work on locals goes with the access
before it, except that the two `atomic_read`s of a local are steps of their
own. `threadStep` is `none` where the code follows a null pointer or fails its
`assert`. `Sys` interleaves any number of threads and keeps a log of what the
calls returned.
-/
namespace Ppcode

/-- `vals[0]` is a version, `vals[1]` a node; nodes are indices into
`m_freeList` and `none` is the null pointer. `val` is both words at once.
mirrors src/thread/lockfreelist.h:39-42 -/
structure DoublePointer where
  vals0 : Nat
  vals1 : Option Nat
  deriving DecidableEq, Repr

/-- `val == 0` -/
def DoublePointer.zero : DoublePointer := ⟨0, none⟩

/-- `data = none`: the field was never assigned.
mirrors src/thread/lockfreelist.h:45-48 -/
structure LockFreeListNode (T : Type) where
  next : DoublePointer
  data : Option T

/-- `m_id` is the number that the 64-bit counter would show without
wrapping; an increment returns it modulo 2^64 (`LockFreeList.size_t`).
mirrors src/thread/lockfreelist.h:245-252 -/
structure LockFreeList (T : Type) where
  m_id : Nat
  m_max : Nat
  m_in : DoublePointer
  m_out : DoublePointer
  m_head : DoublePointer
  m_freeList : Nat → LockFreeListNode T

namespace LockFreeList
variable {T : Type}

def size_t (n : Nat) : Nat := n % 2 ^ 64

def next (q : LockFreeList T) (k : Nat) : DoublePointer := (q.m_freeList k).next

def data (q : LockFreeList T) (k : Nat) : Option T := (q.m_freeList k).data

def setNext (q : LockFreeList T) (k : Nat) (d : DoublePointer) : LockFreeList T :=
  { q with m_freeList := Function.update q.m_freeList k { q.m_freeList k with next := d } }

def setData (q : LockFreeList T) (k : Nat) (v : T) : LockFreeList T :=
  { q with m_freeList := Function.update q.m_freeList k { q.m_freeList k with data := some v } }

/-- `atomic_cas2(&m_in.val, old, new)` where the result is ignored. -/
def casIn (q : LockFreeList T) (old new : DoublePointer) : LockFreeList T :=
  if q.m_in = old then { q with m_in := new } else q

/-- mirrors src/thread/lockfreelist.h:225-242 -/
def initInternalNodeList (m_max : Nat) : LockFreeList T where
  m_id := m_max - 1
  m_max := m_max
  m_in := .zero
  m_out := .zero
  m_head := ⟨0, some 0⟩
  m_freeList i := ⟨if i + 1 < m_max then ⟨i + 1, some (i + 1)⟩ else .zero, none⟩

/-- `AllocNode` while no other thread runs, as in the constructor.
mirrors src/thread/lockfreelist.h:173-197 -/
def allocNode (q : LockFreeList T) : LockFreeList T × Option Nat :=
  match q.m_head.vals1 with
  | none => (q, none)
  | some ret => ({ q with m_head := q.next ret }.setNext ret .zero, some ret)

/-- The constructor.
mirrors src/thread/lockfreelist.h:54-65 -/
def new (capacity : Nat) : LockFreeList T :=
  let r := allocNode (initInternalNodeList capacity)
  { r.1 with m_in := ⟨0, r.2⟩, m_out := ⟨0, r.2⟩ }

/-- The nodes met when `next` is followed from the link `d` until it is 0. -/
def ChainFrom (q : LockFreeList T) : DoublePointer → List Nat → Prop
  | d, [] => d = .zero
  | d, k :: l => d.vals1 = some k ∧ q.ChainFrom (q.next k) l

/-- Control point of a thread: the next access it makes, with the locals still needed. -/
inductive Pc (T : Type) where
  | idle
  /-- `AllocNode`, called by `push(v)`: read `m_head` (:178) -/
  | allocHead (v : T)
  /-- the second read of `m_head`, of `vals[1]` only (:183) -/
  | allocPtr (v : T) (old : DoublePointer)
  /-- `->next.val` of the node just read (:183) -/
  | allocNext (v : T) (old : DoublePointer) (p : Option Nat)
  /-- :182 -/
  | allocCas (v : T) (old : DoublePointer) (p : Option Nat) (next : DoublePointer)
  /-- :195 -/
  | allocClear (v : T) (ret : Option Nat)
  /-- `push`: :75 -/
  | pushData (v : T) (node : Nat)
  /-- :76 -/
  | pushNext (v : T) (node : Nat)
  /-- :82-86 -/
  | pushId (v : T) (node : Nat)
  /-- :90 -/
  | pushIn (v : T) (new_node : DoublePointer)
  /-- :93-94 -/
  | pushTail (v : T) (new_node inp : DoublePointer)
  /-- :97 -/
  | pushTailNext (v : T) (new_node inp : DoublePointer) (node_tail : Option Nat)
  /-- :105 -/
  | pushHelp (v : T) (new_node inp next : DoublePointer)
  /-- :110 -/
  | pushLink (v : T) (new_node inp : DoublePointer)
  /-- :119 -/
  | pushSwing (v : T) (new_node inp : DoublePointer)
  /-- `pop`: :128 -/
  | popOut
  /-- :130 -/
  | popIn (out : DoublePointer)
  /-- :133-134 -/
  | popHead (out inp : DoublePointer)
  /-- :137 -/
  | popNext (out inp : DoublePointer) (node_head : Option Nat)
  /-- :145 -/
  | popHelp (inp next : DoublePointer)
  /-- :149 -/
  | popData (out next : DoublePointer)
  /-- :152 -/
  | popCas (out next : DoublePointer) (data : Option T)
  /-- `ReleaseNode(cur)`: :201-210 -/
  | relId (data : Option T) (cur : Option Nat)
  /-- :215 -/
  | relHead (data : Option T) (node : Nat) (new_node : DoublePointer)
  /-- :217 -/
  | relNext (data : Option T) (node : Nat) (new_node old : DoublePointer)
  /-- :220 -/
  | relCas (data : Option T) (node : Nat) (new_node old : DoublePointer)

/-- What a finished call returned. -/
inductive Ret (T : Type) where
  | pushed (v : T) (ok : Bool)
  | popped (data : Option T)
  | empty

/-- The next access of a thread at a control point.
mirrors src/thread/lockfreelist.h:68-222 -/
def threadStep (q : LockFreeList T) : Pc T → Option (LockFreeList T × Pc T × List (Ret T))
  | .idle => none
  | .allocHead v =>
    if q.m_head = .zero then some (q, .idle, [.pushed v false])
    else some (q, .allocPtr v q.m_head, [])
  | .allocPtr v old => some (q, .allocNext v old q.m_head.vals1, [])
  | .allocNext v old p => p.map fun k => (q, .allocCas v old p (q.next k), [])
  | .allocCas v old _ next =>
    if q.m_head = old then some ({ q with m_head := next }, .allocClear v old.vals1, [])
    else some (q, .allocHead v, [])
  | .allocClear v ret => ret.map fun k => (q.setNext k .zero, .pushData v k, [])
  | .pushData v node => some (q.setData node v, .pushNext v node, [])
  | .pushNext v node => some (q.setNext node .zero, .pushId v node, [])
  | .pushId v node =>
    some ({ q with m_id := q.m_id + 1 }, .pushIn v ⟨size_t q.m_id, some node⟩, [])
  | .pushIn v nn => some (q, .pushTail v nn q.m_in, [])
  | .pushTail v nn inp => some (q, .pushTailNext v nn inp inp.vals1, [])
  | .pushTailNext v nn inp tail => tail.map fun k =>
    if q.next k = .zero then (q, .pushLink v nn inp, [])
    else (q, .pushHelp v nn inp (q.next k), [])
  | .pushHelp v nn inp next => some (q.casIn inp next, .pushLink v nn inp, [])
  | .pushLink v nn inp => inp.vals1.map fun k =>
    if q.next k = .zero then (q.setNext k nn, .pushSwing v nn inp, [])
    else (q, .pushIn v nn, [])
  | .pushSwing v nn inp => some (q.casIn inp nn, .idle, [.pushed v true])
  | .popOut => some (q, .popIn q.m_out, [])
  | .popIn out => some (q, .popHead out q.m_in, [])
  | .popHead out inp => some (q, .popNext out inp out.vals1, [])
  | .popNext out inp head => head.map fun k =>
    if q.next k = .zero then (q, .idle, [.empty])
    else if inp = out then (q, .popHelp inp (q.next k), [])
    else (q, .popData out (q.next k), [])
  | .popHelp inp next => some (q.casIn inp next, .popOut, [])
  | .popData out next => next.vals1.map fun k => (q, .popCas out next (q.data k), [])
  | .popCas out next data =>
    if q.m_out = out then some ({ q with m_out := next }, .relId data out.vals1, [])
    else some (q, .popOut, [])
  | .relId data cur => cur.bind fun k =>
    if k < q.m_max then
      some ({ q with m_id := q.m_id + 1 }, .relHead data k ⟨size_t q.m_id, some k⟩, [])
    else none
  | .relHead data node nn => some (q, .relNext data node nn q.m_head, [])
  | .relNext data node nn old => some (q.setNext node old, .relCas data node nn old, [])
  | .relCas data node nn old =>
    if q.m_head = old then some ({ q with m_head := nn }, .idle, [.popped data])
    else some (q, .relHead data node nn, [])

/-- The value of a push that returned true. -/
def Ret.accepted : Ret T → Option (Option T)
  | .pushed v true => some (some v)
  | _ => none

/-- What a pop that returned true handed out. -/
def Ret.returned : Ret T → Option (Option T)
  | .popped d => some d
  | _ => none

/-- The values of the pushes that returned true; an `Option T`, as node data are. -/
def pushedVals (log : List (Ret T)) : Multiset (Option T) := log.filterMap Ret.accepted

/-- The values that pops returned. -/
def poppedVals (log : List (Ret T)) : Multiset (Option T) := log.filterMap Ret.returned

/-! ## Any number of threads -/

structure Sys (T : Type) (n : Nat) where
  q : LockFreeList T
  pc : Fin n → Pc T
  log : List (Ret T)

/-- What a thread does next: call `push(v)`, call `pop`, or go on with its call. -/
inductive Act (T : Type) where
  | push (v : T)
  | pop
  | step

variable {n : Nat}

def step (s : Sys T n) : Fin n × Act T → Option (Sys T n)
  | (t, .push v) =>
    match s.pc t with
    | .idle => some { s with pc := Function.update s.pc t (.allocHead v) }
    | _ => none
  | (t, .pop) =>
    match s.pc t with
    | .idle => some { s with pc := Function.update s.pc t .popOut }
    | _ => none
  | (t, .step) => (threadStep s.q (s.pc t)).map fun r =>
    { q := r.1, pc := Function.update s.pc t r.2.1, log := s.log ++ r.2.2 }

def init (capacity : Nat) : Sys T n := ⟨new capacity, fun _ => .idle, []⟩

/-- The interleavings of `n` threads on a list of the given capacity. -/
def lts (T : Type) (n capacity : Nat) : LTS (Sys T n) (Fin n × Act T) :=
  LTS.ofFn (fun s => s = init capacity) step

end LockFreeList
end Ppcode
