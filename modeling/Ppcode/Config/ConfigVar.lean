import Mathlib.Data.List.Chain
import Ppcode.Core.LTS

/-!
# `ConfigVar`: a value and its listeners

`src/config/configVar.h`. `setValue` compares the new value with the stored one
and calls the listeners under the read lock of `m_mutex`, drops that lock, and
stores the value under the write lock. `fromString` converts a text and calls
`setValue`; a conversion that throws changes nothing. A listener that throws ends
the call, with the lock released.

`n` threads call the two on one variable with `L` listeners. The read-locked
sections of several threads overlap; the assignment is one step, which no thread
in its read-locked section allows. `told` records the arguments of the calls of
each listener.

* `agree`: the listeners and the stored value agree, and every notification goes
  on from the one before, in every run in which no listener throws and a call
  finds no other between its comparison and its assignment when it starts to
  announce.
* `disagree`: two calls that do overlap.
-/
namespace Ppcode

/-- Control point of a thread in `setValue`. -/
inductive SetPc (T : Type) where
  | idle
  /-- configVar.h:98, about to take the read lock -/
  | enter (v : T)
  /-- :99 -/
  | compare (v : T)
  /-- :103, with the listeners before `j` called -/
  | announce (v : T) (j : Nat)
  /-- :107, about to take the write lock -/
  | store (v : T)
  deriving DecidableEq, Repr

/-- The thread holds the read lock. -/
def SetPc.reading {T : Type} : SetPc T → Bool
  | .compare _ | .announce _ _ => true
  | _ => false

/-- The call is between its comparison and the end of its assignment. -/
def SetPc.changing {T : Type} : SetPc T → Bool
  | .announce _ _ | .store _ => true
  | _ => false

/-- mirrors src/config/configVar.h:141-143 -/
structure ConfigVar (T : Type) (L n : Nat) where
  m_val : T
  told : Fin L → List (T × T)
  pc : Fin n → SetPc T

namespace ConfigVar
variable {T X : Type} {L n : Nat}

inductive Act (T X : Type) (n : Nat) where
  | setValue (t : Fin n) (v : T)
  | fromString (t : Fin n) (value : X)
  /-- a thread goes on with its call; whether the listener that it calls throws -/
  | go (t : Fin n) (throws : Bool)

def setPc (s : ConfigVar T L n) (t : Fin n) (pc : SetPc T) : ConfigVar T L n :=
  { s with pc := Function.update s.pc t pc }

/-- The call of a listener. -/
def tell (s : ConfigVar T L n) (j : Fin L) (v : T) : ConfigVar T L n :=
  { s with told := Function.update s.told j (s.told j ++ [(s.m_val, v)]) }

/-- mirrors src/config/configVar.h:96-109 -/
def goStep [DecidableEq T] (s : ConfigVar T L n) (t : Fin n) (throws : Bool) : Option (ConfigVar T L n) :=
  match s.pc t with
  | .idle => none
  | .enter v => some (s.setPc t (.compare v))
  | .compare v => some (s.setPc t (if v = s.m_val then .idle else .announce v 0))
  | .announce v j =>
    if h : j < L then
      some ((s.tell ⟨j, h⟩ v).setPc t (if throws then .idle else .announce v (j + 1)))
    else some (s.setPc t (.store v))
  | .store v =>
    if ∀ u, (s.pc u).reading = false then some ({ s with m_val := v }.setPc t .idle) else none

/-- `fromStr` is `FromStr()`, `none` where it throws.
mirrors src/config/configVar.h:64-76 -/
def step [DecidableEq T] (fromStr : X → Option T) (s : ConfigVar T L n) :
    Act T X n → Option (ConfigVar T L n)
  | .setValue t v => if s.pc t = .idle then some (s.setPc t (.enter v)) else none
  | .fromString t value =>
    if s.pc t = .idle then
      match fromStr value with
      | some v => some (s.setPc t (.enter v))
      | none => some s
    else none
  | .go t throws => s.goStep t throws

def new (init : T) : ConfigVar T L n := ⟨init, fun _ => [], fun _ => .idle⟩

def lts [DecidableEq T] (fromStr : X → Option T) (L n : Nat) (init : T) :
    LTS (ConfigVar T L n) (Act T X n) :=
  LTS.ofFn (· = new init) (step fromStr)

/-- What a listener believes the value to be. -/
def believed (init : T) (told : List (T × T)) : T :=
  match told.getLast? with
  | some (_, new_value) => new_value
  | none => init

/-- The listeners agree with the stored value and with one another. -/
structure Agree (init : T) (s : ConfigVar T L n) : Prop where
  last : (∀ t, s.pc t = .idle) → ∀ l, believed init (s.told l) = s.m_val
  chain : ∀ l, (s.told l).IsChain fun before after => after.1 = before.2

/-- No listener throws, and a call that finds a difference, where there is a listener,
finds no other call that has found one and not stored yet. -/
def InTurn (s : ConfigVar T L n) : Act T X n → Prop
  | .go t throws =>
    match s.pc t with
    | .announce _ j => j < L → throws = false
    | .compare v => 0 < L → v ≠ s.m_val → ∀ u, (s.pc u).changing = false
    | _ => True
  | _ => True

/-! ## The invariant -/

theorem believed_append (init : T) (told : List (T × T)) (a : T × T) :
    believed init (told ++ [a]) = a.2 := by simp [believed]

/-- A notification whose old value is what the listener believes. -/
theorem chain_append {init : T} {told : List (T × T)} {old_value new_value : T}
    (hc : told.IsChain fun before after => after.1 = before.2) (hb : believed init told = old_value) :
    (told ++ [(old_value, new_value)]).IsChain fun before after => after.1 = before.2 := by
  rw [List.isChain_append]
  refine ⟨hc, by simp, fun x hx y hy => ?_⟩
  simp only [List.head?_cons, Option.mem_def, Option.some.injEq] at hx hy
  rw [believed, hx] at hb
  rw [← hy]
  exact hb.symm

/-- What each listener believes. -/
structure Inv (init : T) (s : ConfigVar T L n) : Prop where
  one : 0 < L → ∀ t u, (s.pc t).changing = true → (s.pc u).changing = true → t = u
  quiet : (∀ t, (s.pc t).changing = false) → ∀ l, believed init (s.told l) = s.m_val
  announcing : ∀ t v j, s.pc t = .announce v j → ∀ l : Fin L,
    believed init (s.told l) = if l.val < j then v else s.m_val
  storing : ∀ t v, s.pc t = .store v → ∀ l, believed init (s.told l) = v
  chain : ∀ l, (s.told l).IsChain fun before after => after.1 = before.2

theorem setPc_self (s : ConfigVar T L n) (t : Fin n) (pc : SetPc T) : (s.setPc t pc).pc t = pc :=
  Function.update_self ..

theorem setPc_of_ne {t u : Fin n} (s : ConfigVar T L n) (pc : SetPc T) (h : u ≠ t) :
    (s.setPc t pc).pc u = s.pc u := Function.update_of_ne h ..

/-- A step of a thread that is not changing the value and does not begin to. -/
theorem Inv.setPc {init : T} {s : ConfigVar T L n} {t : Fin n} {pc : SetPc T} (hi : Inv init s)
    (hold : (s.pc t).changing = false) (hnew : pc.changing = false) : Inv init (s.setPc t pc) := by
  -- such a thread looks like any other that is not changing the value
  have hsame (u : Fin n) : ((s.setPc t pc).pc u).changing = (s.pc u).changing := by
    by_cases h : u = t
    · rw [h, setPc_self, hnew, hold]
    · rw [setPc_of_ne _ _ h]
  have hpc (u : Fin n) (hu : ((s.setPc t pc).pc u).changing = true) : (s.setPc t pc).pc u = s.pc u := by
    by_cases h : u = t
    · rw [h, setPc_self, hnew] at hu
      cases hu
    · exact setPc_of_ne _ _ h
  refine ⟨fun hL u v hu hv => ?_, fun hq => ?_, fun u v j hu => ?_, fun u v hu => ?_, hi.chain⟩
  · rw [hsame] at hu hv
    exact hi.one hL u v hu hv
  · exact hi.quiet fun u => by rw [← hsame, hq]
  · have he := hpc u (by rw [hu]; rfl)
    rw [he] at hu
    exact hi.announcing u v j hu
  · have he := hpc u (by rw [hu]; rfl)
    rw [he] at hu
    exact hi.storing u v hu

/-- The one thread that is changing the value makes a step. -/
theorem inv_of_alone {init : T} {s s' : ConfigVar T L n} {t : Fin n}
    (ht : 0 < L → ∀ u, u ≠ t → (s.pc u).changing = false)
    (hpc : ∀ u, u ≠ t → s'.pc u = s.pc u)
    (hchain : ∀ l, (s'.told l).IsChain fun before after => after.1 = before.2)
    (hb : ∀ l : Fin L, believed init (s'.told l) = match s'.pc t with
      | .announce v j => if l.val < j then v else s'.m_val
      | .store v => v
      | _ => s'.m_val) : Inv init s' := by
  have hother (hL : 0 < L) (u : Fin n) (hu : (s'.pc u).changing = true) : u = t := by
    by_contra h
    rw [hpc u h, ht hL u h] at hu
    cases hu
  refine ⟨fun hL u v hu hv => ?_, fun hq l => ?_, fun u v j hu l => ?_, fun u v hu l => ?_, hchain⟩
  · rw [hother hL u hu, hother hL v hv]
  · rw [hb l]
    have hqt := hq t
    cases hst : s'.pc t with
    | announce v j | store v =>
      rw [hst] at hqt
      cases hqt
    | idle | enter v | compare v => rfl
  · obtain rfl := hother l.pos u (by rw [hu]; rfl)
    rw [hb l, hu]
  · obtain rfl := hother l.pos u (by rw [hu]; rfl)
    rw [hb l, hu]

theorem inv_go [DecidableEq T] {init : T} {s s' : ConfigVar T L n} {t : Fin n} {throws : Bool}
    (hi : Inv init s) (h : s.goStep t throws = some s') (hin : s.InTurn (.go t throws : Act T X n)) :
    Inv init s' := by
  unfold goStep at h
  simp only [InTurn] at hin
  cases hpc : s.pc t with
  | idle => simp [hpc] at h
  | enter v =>
    simp only [hpc] at h
    cases h
    exact hi.setPc (by rw [hpc]; rfl) rfl
  | compare v =>
    simp only [hpc] at h hin
    cases h
    by_cases hv : v = s.m_val
    · rw [if_pos hv]
      exact hi.setPc (by rw [hpc]; rfl) rfl
    · rw [if_neg hv]
      refine inv_of_alone (t := t) (fun hL u _ => hin hL hv u) (fun u hu => setPc_of_ne _ _ hu)
        hi.chain fun l => ?_
      rw [setPc_self]
      exact hi.quiet (hin l.pos hv) l
  | announce v j =>
    simp only [hpc] at h hin
    have halone (hL : 0 < L) (u : Fin n) (hu : u ≠ t) : (s.pc u).changing = false := by
      cases hc : (s.pc u).changing with
      | false => rfl
      | true => exact absurd (hi.one hL u t hc (by rw [hpc]; rfl)) hu
    have hann := hi.announcing t v j hpc
    split at h
    · rename_i hj
      simp only [hin hj, Bool.false_eq_true, if_false, Option.some.injEq] at h
      rw [← h]
      -- the listener `j` has believed the stored value until now
      have hold : believed init (s.told ⟨j, hj⟩) = s.m_val := by
        rw [hann ⟨j, hj⟩]
        simp
      refine inv_of_alone (t := t) halone (fun u hu => setPc_of_ne _ _ hu) (fun l => ?_) fun l => ?_
      · by_cases hl : l = ⟨j, hj⟩
        · subst hl
          simpa [tell, ConfigVar.setPc] using chain_append (hi.chain _) hold
        · simpa [tell, ConfigVar.setPc, Function.update_of_ne hl] using hi.chain l
      · rw [setPc_self]
        by_cases hl : l = ⟨j, hj⟩
        · subst hl
          simp [tell, ConfigVar.setPc, believed_append]
        · have hne : l.val ≠ j := fun he => hl (Fin.ext he)
          have hb := hann l
          simp only [ConfigVar.setPc, tell, Function.update_of_ne hl, hb]
          by_cases hlt : l.val < j
          · rw [if_pos hlt, if_pos (by omega)]
          · rw [if_neg hlt, if_neg (by omega)]
    · rename_i hj
      cases h
      refine inv_of_alone (t := t) halone (fun u hu => setPc_of_ne _ _ hu) hi.chain fun l => ?_
      rw [setPc_self]
      have hb := hann l
      rwa [if_pos (by omega)] at hb
  | store v =>
    simp only [hpc, Option.ite_none_right_eq_some, Option.some.injEq] at h
    obtain ⟨-, rfl⟩ := h
    refine inv_of_alone (t := t) (fun hL u hu => ?_) (fun u hu => setPc_of_ne _ _ hu) hi.chain
      fun l => ?_
    · cases hc : (s.pc u).changing with
      | false => rfl
      | true => exact absurd (hi.one hL u t hc (by rw [hpc]; rfl)) hu
    · rw [setPc_self]
      exact hi.storing t v hpc l

/-- The listeners and the stored value agree. -/
theorem agree [DecidableEq T] (fromStr : X → Option T) (L n : Nat) (init : T)
    (s : ConfigVar T L n) (hr : ((lts fromStr L n init).restrict InTurn).Reachable s) :
    s.Agree init := by
  have hind : ((lts fromStr L n init).restrict InTurn).Inductive (Inv init) := by
    refine ⟨fun s hs => ?_, fun s a s' hi hst => ?_⟩
    · rw [show s = new init from hs]
      exact ⟨nofun, fun _ _ => rfl, nofun, nofun, fun _ => .nil⟩
    · obtain ⟨hst, hin⟩ := hst
      cases a with
      | go t throws => exact inv_go hi hst hin
      | setValue t v =>
        simp only [lts, LTS.ofFn, step, Option.ite_none_right_eq_some, Option.some.injEq] at hst
        obtain ⟨hpc, rfl⟩ := hst
        exact hi.setPc (by rw [hpc]; rfl) rfl
      | fromString t value =>
        simp only [lts, LTS.ofFn, step, Option.ite_none_right_eq_some] at hst
        obtain ⟨hpc, hst⟩ := hst
        split at hst <;> cases hst
        · exact hi.setPc (by rw [hpc]; rfl) rfl
        · exact hi
  have hi := hind.reachable s hr
  exact ⟨fun hidle => hi.quiet fun t => by rw [hidle t]; rfl, hi.chain⟩

/-! ## Two calls -/

/-- `setValue(v)` up to the assignment, with one listener. -/
def announcing (t : Fin 2) (v : Nat) : List (Act Nat Nat 2) :=
  .setValue t v :: List.replicate 4 (.go t false)

/-- Two threads announce 1 and then 2, and store 2 and then 1. -/
theorem disagree : ∃ s : ConfigVar Nat 1 2, (lts (X := Nat) some 1 2 0).Reachable s ∧ ¬ s.Agree 0 := by
  have hrun : (LTS.exec (step (L := 1) some) (new 0)
      (announcing 0 1 ++ announcing 1 2 ++ [.go 1 false, .go 0 false])).any (fun s =>
      decide ((∀ t, s.pc t = .idle) ∧ believed 0 (s.told 0) = 2 ∧ s.m_val = 1)) = true := by decide
  obtain ⟨s, hs, hb⟩ : ∃ s, (lts some 1 2 0).Reachable s ∧
      decide ((∀ t, s.pc t = .idle) ∧ believed 0 (s.told 0) = 2 ∧ s.m_val = 1) = true :=
    LTS.exists_of_exec _ rfl hrun
  obtain ⟨hidle, htold, hval⟩ := of_decide_eq_true hb
  refine ⟨s, hs, fun h => ?_⟩
  have hlast := h.last hidle 0
  rw [htold, hval] at hlast
  cases hlast

/-- The condition, computed. -/
def inTurn (s : ConfigVar Nat 1 2) : Act Nat Nat 2 → Bool
  | .go t throws =>
    match s.pc t with
    | .announce _ j => decide (j < 1 → throws = false)
    | .compare v => decide (0 < 1 → v ≠ s.m_val → ∀ u, (s.pc u).changing = false)
    | _ => true
  | _ => true

theorem inTurn_spec (s : ConfigVar Nat 1 2) (a : Act Nat Nat 2) (h : inTurn s a = true) :
    s.InTurn a := by
  unfold inTurn at h
  unfold InTurn
  cases a with
  | go t throws =>
    simp only at h ⊢
    cases hpc : s.pc t with
    | announce v j | compare v =>
      rw [hpc] at h
      exact of_decide_eq_true h
    | idle | enter v | store v => trivial
  | setValue | fromString => trivial

/-- One call after the other. -/
theorem agree_in_turn : ∃ s : ConfigVar Nat 1 2,
    ((lts (X := Nat) some 1 2 0).restrict InTurn).Reachable s ∧ s.m_val = 2 ∧ s.Agree 0 := by
  have hrun : (LTS.execWith (step (L := 1) some) inTurn (new 0)
      (announcing 0 1 ++ .go 0 false :: announcing 1 2 ++ [.go 1 false])).any (fun s =>
      decide (s.m_val = 2)) = true := by decide
  obtain ⟨s, hs, hb⟩ : ∃ s, ((lts some 1 2 0).restrict InTurn).Reachable s ∧
      decide (s.m_val = 2) = true :=
    LTS.exists_of_execWith inTurn_spec _ rfl hrun
  exact ⟨s, hs, of_decide_eq_true hb, agree some 1 2 0 s hs⟩

end ConfigVar
end Ppcode
