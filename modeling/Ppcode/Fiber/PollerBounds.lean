import Ppcode.Fiber.FdTable
import Ppcode.Fiber.PollerFires

/-!
# Where the poller's functions index their table

`addEvent`, `delEvent`, `cancelEvent` and `cancelAll` compare the size of
`m_fdContexts` with fd and then index it by fd. `addEvent` makes the table twice as
long as fd; the others return. The table is here one of pointers (`slots`), null
before the loop of `resize` fills it.

* `inBounds_iff`: with every table that calls of `addEvent` lead to, the index is
  inside, and finds the context of fd, exactly when fd is not the size of the table
  (and `fd * 2` no overflow, where it is needed): the test is `<` for `<=`.
* `addEvent_outside`, `dropEvent_outside`, `cancelAll_outside`: there the functions
  have no result.
* `outside`: fd 64, of the table that the constructor makes.
-/
namespace Ppcode.Poller
variable {Cb σ : Type}

/-- The functions that index the table by their `fd`. -/
inductive Indexing where
  | addEvent | delEvent | cancelEvent | cancelAll
  deriving DecidableEq, Repr

/-- The table of pointers. -/
def slots (p : Poller Cb) : List (Option (FdContext Cb)) := p.m_fdContexts.map some

/-- `m_fdContexts.resize(size)`, and the loop that fills the null pointers.
mirrors src/fiber/poller.cc:59-68 -/
def fill (slots : List (Option (FdContext Cb))) (size : Nat) : List (Option (FdContext Cb)) :=
  (slots.take size ++ List.replicate (size - slots.length) none).mapIdx
    fun i (c : Option (FdContext Cb)) => some (c.getD (FdContext.new i))

/-- The test `(int)m_fdContexts.size() < fd`. -/
def Beyond (p : Poller Cb) (fd : Nat) : Prop := intOfSize p.m_fdContexts.length < fd

instance (p : Poller Cb) (fd : Nat) : Decidable (p.Beyond fd) := Int.decLt ..

/-- The table that the function indexes, unless it has returned.
mirrors src/fiber/poller.cc:74-78, 108-112, 146-150 and 180-184 -/
def indexed (p : Poller Cb) (fd : Nat) : Indexing → Option (List (Option (FdContext Cb)))
  | .addEvent => some (if p.Beyond fd then fill p.slots (fd * 2) else p.slots)
  | .delEvent | .cancelEvent | .cancelAll => if p.Beyond fd then none else some p.slots

/-- The access of a function to the table is safe. -/
structure InBounds (p : Poller Cb) (fd : Nat) (f : Indexing) : Prop where
  /-- the new size is an `int` -/
  size : f = .addEvent → p.Beyond fd → fd * 2 < 2 ^ 31
  index : ∀ t, p.indexed fd f = some t → fd < t.length
  context : f = .addEvent → ∀ t, p.indexed fd f = some t →
    ∃ c, t[fd]? = some (some c) ∧ c.fd_ = fd

/-- A call of `addEvent`, with the result of its `epoll_ctl`. -/
structure AddCall (Cb : Type) where
  fd : Nat
  event : Event
  cb : Cb
  rt : CtlResult

def addStep (p : Poller Cb) (a : AddCall Cb) : Option (Poller Cb) :=
  (p.addEvent (fun _ _ _ _ => (a.rt, ())) () a.fd a.event a.cb).map (·.1)

/-- The tables that calls of `addEvent` lead to. -/
def tables (Cb : Type) (sche : Nat) : LTS (Poller Cb) (AddCall Cb) :=
  LTS.ofFn (· = new sche) addStep

/-- `fd * 2` does not overflow. -/
def Fits (_ : Poller Cb) (a : AddCall Cb) : Prop := a.fd * 2 < 2 ^ 31

instance (p : Poller Cb) (a : AddCall Cb) : Decidable (Fits p a) := Nat.decLt ..

/-! ## The two tables -/

theorem slots_get (p : Poller Cb) (fd : Nat) : p.slots[fd]? = p.m_fdContexts[fd]?.map some :=
  List.getElem?_map ..

theorem slots_length (p : Poller Cb) : p.slots.length = p.m_fdContexts.length := List.length_map ..

/-- The loop makes the contexts that the table of values has. -/
theorem fill_slots (p : Poller Cb) (size : Nat) : fill p.slots size = (p.resize size).slots := by
  apply List.ext_getElem?
  intro i
  simp only [fill, slots, resize, List.getElem?_mapIdx, List.length_map, List.map_append,
    List.map_take]
  by_cases hi : i < min size p.m_fdContexts.length
  · have hin : i < p.m_fdContexts.length := by omega
    rw [List.getElem?_append_left (by simpa using hi),
      List.getElem?_append_left (by simpa using hi), List.getElem?_take_of_lt (by omega),
      List.getElem?_map, List.getElem?_eq_getElem hin]
    rfl
  · rw [List.getElem?_append_right (by simp; omega), List.getElem?_append_right (by simp; omega)]
    simp only [List.length_take, List.length_map, List.getElem?_replicate, List.getElem?_map]
    by_cases hin : i - min size p.m_fdContexts.length < size - p.m_fdContexts.length
    · have hplace : p.m_fdContexts.length + 1 * (i - min size p.m_fdContexts.length) = i := by omega
      rw [if_pos hin, List.getElem?_range' hin, hplace]
      rfl
    · rw [if_neg hin, List.getElem?_eq_none (by simpa using hin)]
      rfl

theorem resize_length (p : Poller Cb) (size : Nat) :
    (p.resize size).m_fdContexts.length = size := by
  simp only [resize, List.length_append, List.length_take, List.length_map, List.length_range']
  omega

theorem beyond_iff {p : Poller Cb} (h : p.m_fdContexts.length < 2 ^ 31) (fd : Nat) :
    p.Beyond fd ↔ p.m_fdContexts.length < fd := by
  unfold Beyond
  rw [intOfSize_of_lt h]
  exact Int.ofNat_lt

/-- The test, as far as an `int` can count the table, is that of `grow`. -/
theorem indexed_addEvent {p : Poller Cb} (h : p.m_fdContexts.length < 2 ^ 31) (fd : Nat) :
    p.indexed fd .addEvent = some (p.grow fd).slots := by
  unfold indexed grow
  simp only [beyond_iff h]
  split
  · rw [fill_slots]
  · rfl

theorem grow_length (p : Poller Cb) (fd : Nat) : (p.grow fd).m_fdContexts.length =
    if p.m_fdContexts.length < fd then fd * 2 else p.m_fdContexts.length := by
  unfold grow
  split
  · exact resize_length p (fd * 2)
  · rfl

/-! ## What `addEvent` leads to -/

/-- The sizes that an `int` can count, and the contexts in their places. -/
structure Sized (p : Poller Cb) : Prop where
  indexed : Indexed p
  lt : p.m_fdContexts.length < 2 ^ 31

theorem sized_new (sche : Nat) : Sized (new sche : Poller Cb) := by
  refine ⟨fun fd c hc => ?_, ?_⟩
  · rw [new_get hc]
    rfl
  · unfold new
    rw [resize_length]
    decide

theorem Sized.grow {p : Poller Cb} (h : p.Sized) {fd : Nat} (hfd : fd * 2 < 2 ^ 31) :
    (p.grow fd).Sized := by
  refine ⟨Indexed.grow h.indexed fd, ?_⟩
  rw [grow_length]
  split
  · exact hfd
  · exact h.lt

theorem sized_step {p p' : Poller Cb} {a : AddCall Cb} (h : p.Sized) (hfit : Fits p a)
    (hst : p.addStep a = some p') : p'.Sized := by
  obtain ⟨⟨p₁, u, rt⟩, hadd, rfl⟩ := Option.map_eq_some_iff.mp hst
  obtain ⟨c, -, -, hcase⟩ := addEvent_spec hadd
  have hgrown := h.grow hfit
  rcases hcase with ⟨-, rfl⟩ | ⟨-, hreg⟩
  · exact hgrown
  · obtain ⟨hchange, -⟩ := register_spec hreg
    exact ⟨hchange.indexed hgrown.indexed, by rw [hchange.length]; exact hgrown.lt⟩

/-- Where the index is outside, `addEvent` has no result. -/
theorem addEvent_outside {ctl : σ → Nat → CtlOp → Mask → CtlResult × σ} (p : Poller Cb) (k : σ)
    (event : Event) (cb : Cb) : p.addEvent ctl k p.m_fdContexts.length event cb = none := by
  have hgrow : p.grow p.m_fdContexts.length = p := if_neg (Nat.lt_irrefl _)
  simp [addEvent, hgrow]

/-- Nor have `delEvent` and `cancelEvent`. -/
theorem dropEvent_outside {ctl : σ → Nat → CtlOp → Mask → CtlResult × σ} {good : CtlResult → Bool}
    {act : Poller Cb → Nat → Event → Option (Poller Cb)} (p : Poller Cb) (k : σ) (event : Event) :
    dropEvent ctl good act p k p.m_fdContexts.length event = none := by
  simp [dropEvent]

theorem cancelAll_outside {ctl : σ → Nat → CtlOp → Mask → CtlResult × σ} (p : Poller Cb) (k : σ) :
    p.cancelAll ctl k p.m_fdContexts.length = none := by
  simp [cancelAll]

/-! ## Where the index is inside -/

/-- With every table that calls of `addEvent` lead to, the access of each function is safe, for
every fd, exactly when fd is not the size of the table and `addEvent` can double it where it must. -/
theorem inBounds_iff (sche : Nat) (p : Poller Cb)
    (hr : ((tables Cb sche).restrict Fits).Reachable p) (fd : Nat) (f : Indexing) :
    p.InBounds fd f ↔ fd ≠ p.m_fdContexts.length ∧
      (f = .addEvent → p.m_fdContexts.length < fd → fd * 2 < 2 ^ 31) := by
  have hind : ((tables Cb sche).restrict Fits).Inductive Sized := by
    refine ⟨fun p hp => ?_, fun p a p' h hst => sized_step h hst.2 hst.1⟩
    rw [show p = new sche from hp]
    exact sized_new sche
  obtain ⟨hindexed, hlt⟩ := hind.reachable p hr
  have hbeyond := beyond_iff hlt fd
  constructor
  · intro h
    refine ⟨fun hfd => ?_, fun hf hlen => h.size hf (hbeyond.mpr hlen)⟩
    have hnot : ¬ p.Beyond fd := fun hb => by have := hbeyond.mp hb; omega
    have ht : p.indexed fd f = some p.slots := by cases f <;> simp [indexed, hnot]
    have hin := h.index _ ht
    rw [slots_length] at hin
    omega
  · intro h
    obtain ⟨hne, hfit⟩ := h
    have hgrown : fd < (p.grow fd).m_fdContexts.length := by
      rw [grow_length]
      split <;> omega
    have hdrop (hf : ¬ p.Beyond fd) : fd < p.slots.length := by
      rw [slots_length]
      rw [hbeyond] at hf
      omega
    refine ⟨fun hf hb => hfit hf (hbeyond.mp hb), fun t ht => ?_, fun hf t ht => ?_⟩
    · cases f with
      | addEvent =>
        rw [indexed_addEvent hlt] at ht
        cases ht
        rwa [slots_length]
      | delEvent | cancelEvent | cancelAll =>
        simp only [indexed, Option.ite_none_left_eq_some, Option.some.injEq] at ht
        obtain ⟨hb, rfl⟩ := ht
        exact hdrop hb
    · subst hf
      rw [indexed_addEvent hlt] at ht
      cases ht
      have hget := List.getElem?_eq_getElem hgrown
      exact ⟨_, by rw [slots_get, hget, Option.map_some], hindexed.grow fd fd _ hget⟩

/-- `addEvent` of fd 100 has made a table of 200; the last of it is inside. -/
theorem inBounds_last : ∃ p : Poller Nat, ((tables Nat 0).restrict Fits).Reachable p ∧
    p.m_fdContexts.length = 200 ∧ p.InBounds 199 .cancelAll := by
  obtain ⟨p, hp, hb⟩ : ∃ p : Poller Nat, ((tables Nat 0).restrict Fits).Reachable p ∧
      decide (p.m_fdContexts.length = 200) = true :=
    LTS.exists_of_execWith (C := fun p a => decide (Fits p a)) (fun _ _ h => of_decide_eq_true h)
      (s := new 0) [⟨100, .READ, 0, none⟩] rfl (by decide +kernel)
  have hlen : p.m_fdContexts.length = 200 := of_decide_eq_true hb
  exact ⟨p, hp, hlen, (inBounds_iff 0 p hp 199 .cancelAll).mpr ⟨by omega, nofun⟩⟩

/-- fd 64 passes the test and is beyond the table of the constructor. -/
theorem outside : (new 0 : Poller Nat).m_fdContexts.length = 64 ∧
    ¬ (new 0 : Poller Nat).InBounds 64 .addEvent ∧
    ¬ (new 0 : Poller Nat).InBounds 64 .delEvent ∧
    ¬ (new 0 : Poller Nat).InBounds 64 .cancelEvent ∧
    ¬ (new 0 : Poller Nat).InBounds 64 .cancelAll := by
  have hlen : (new 0 : Poller Nat).m_fdContexts.length = 64 := resize_length ..
  have hlt : (new 0 : Poller Nat).m_fdContexts.length < 2 ^ 31 := (sized_new 0).lt
  have hnot : ¬ (new 0 : Poller Nat).Beyond 64 := fun hb => by
    have := (beyond_iff hlt 64).mp hb
    omega
  have hout (f : Indexing) : ¬ (new 0 : Poller Nat).InBounds 64 f := by
    intro h
    have ht : (new 0 : Poller Nat).indexed 64 f = some (new 0 : Poller Nat).slots := by
      cases f <;> simp [indexed, hnot]
    have hin := h.index _ ht
    rw [slots_length] at hin
    omega
  exact ⟨hlen, hout _, hout _, hout _, hout _⟩

end Ppcode.Poller
