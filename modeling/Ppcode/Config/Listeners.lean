import Ppcode.Core.LTS

/-!
# `addListener` in several threads

`src/config/configVar.h:112-138`. The keys of the listeners come from `s_fun_id`, a static local
of `addListener`: all variables of a type share it, while the lock that `addListener` takes is
that of its variable. The function increments it, reads it again for `m_cbs[s_fun_id]`, and once
more for its result.

`n` threads call the functions on `V` variables of one type. `added` records what the callers have
been told: the callback under each key that has been returned and not been taken off since.

* `keys_law`: where no two calls of `addListener` overlap, on whatever variables, no key is
  returned twice, and a variable whose lock is free has exactly the listeners in `added`.
* `keys_overlap`: with an overlap, a caller is given a key that names nothing.
-/
namespace Ppcode

/-- Control point of a thread in `addListener`. -/
inductive ListenerPc (Cb : Type) (V : Nat) where
  | idle
  /-- configVar.h:114, about to take the write lock -/
  | enter (x : Fin V) (cb : Cb)
  /-- :116, to read -/
  | load (x : Fin V) (cb : Cb)
  /-- :116, to write -/
  | store (x : Fin V) (cb : Cb) (id : Nat)
  /-- :117 -/
  | put (x : Fin V) (cb : Cb)
  /-- :118 -/
  | ret (x : Fin V) (cb : Cb)
  deriving DecidableEq

/-- The variable whose lock the thread holds. -/
def ListenerPc.holds {Cb : Type} {V : Nat} : ListenerPc Cb V → Option (Fin V)
  | .load x _ | .store x _ _ | .put x _ | .ret x _ => some x
  | _ => none

/-- mirrors src/config/configVar.h:113, 141-143 -/
structure Listeners (Cb : Type) (V n : Nat) where
  s_fun_id : Nat
  m_cbs : Fin V → Nat → Option Cb
  m_mutex : Fin V → Option (Fin n)
  pc : Fin n → ListenerPc Cb V
  added : Fin V → Nat → Option Cb
  keys : List Nat

namespace Listeners
variable {Cb : Type} {V n : Nat}

inductive Act (Cb : Type) (V n : Nat) where
  | addListener (t : Fin n) (x : Fin V) (cb : Cb)
  /-- a thread goes on with its call -/
  | go (t : Fin n)
  | delListener (t : Fin n) (x : Fin V) (key : Nat)
  | clearListener (t : Fin n) (x : Fin V)

section Step
variable (s : Listeners Cb V n)

def setPc (t : Fin n) (pc : ListenerPc Cb V) : Listeners Cb V n :=
  { s with pc := Function.update s.pc t pc }

/-- mirrors src/config/configVar.h:112-119 -/
def goStep (t : Fin n) : Option (Listeners Cb V n) :=
  match s.pc t with
  | .idle => none
  | .enter x cb =>
    if s.m_mutex x = none then
      some ({ s with m_mutex := Function.update s.m_mutex x (some t) }.setPc t (.load x cb))
    else none
  | .load x cb => some (s.setPc t (.store x cb s.s_fun_id))
  | .store x cb id => some ({ s with s_fun_id := (id + 1) % 2 ^ 64 }.setPc t (.put x cb))
  | .put x cb =>
    some ({ s with
      m_cbs := Function.update s.m_cbs x (Function.update (s.m_cbs x) s.s_fun_id (some cb)) }.setPc t
        (.ret x cb))
  | .ret x cb =>
    some ({ s with
      m_mutex := Function.update s.m_mutex x none
      added := Function.update s.added x (Function.update (s.added x) s.s_fun_id (some cb))
      keys := s.keys ++ [s.s_fun_id] }.setPc t .idle)

/-- The keys that `p` takes are erased, under the write lock. -/
def remove (t : Fin n) (x : Fin V) (p : Nat → Bool) : Option (Listeners Cb V n) :=
  if (s.pc t).holds = none ∧ s.m_mutex x = none then
    some { s with
      m_cbs := Function.update s.m_cbs x fun key => if p key then none else s.m_cbs x key
      added := Function.update s.added x fun key => if p key then none else s.added x key }
  else none

/-- mirrors src/config/configVar.h:122-125 -/
def delListener (t : Fin n) (x : Fin V) (key : Nat) : Option (Listeners Cb V n) :=
  s.remove t x fun k => decide (k = key)

/-- mirrors src/config/configVar.h:135-138 -/
def clearListener (t : Fin n) (x : Fin V) : Option (Listeners Cb V n) :=
  s.remove t x fun _ => true

/-- mirrors src/config/configVar.h:128-132 -/
def getListener (x : Fin V) (key : Nat) : Option Cb := s.m_cbs x key

end Step

def step [DecidableEq Cb] (s : Listeners Cb V n) : Act Cb V n → Option (Listeners Cb V n)
  | .addListener t x cb => if s.pc t = .idle then some (s.setPc t (.enter x cb)) else none
  | .go t => s.goStep t
  | .delListener t x key => if s.pc t = .idle then s.delListener t x key else none
  | .clearListener t x => if s.pc t = .idle then s.clearListener t x else none

def new : Listeners Cb V n :=
  ⟨0, fun _ _ => none, fun _ => none, fun _ => .idle, fun _ _ => none, []⟩

def lts (Cb : Type) [DecidableEq Cb] (V n : Nat) : LTS (Listeners Cb V n) (Act Cb V n) :=
  LTS.ofFn (· = new) step

/-- No two calls of `addListener` are between their locks and their returns, and `s_fun_id` does
not wrap. -/
def Alone (s : Listeners Cb V n) : Act Cb V n → Prop
  | .go t =>
    match s.pc t with
    | .enter _ _ => ∀ u, (s.pc u).holds = none
    | .store _ _ id => id + 1 < 2 ^ 64
    | _ => True
  | _ => True

/-- What the callers rely on. -/
structure Kept (s : Listeners Cb V n) : Prop where
  nodup : s.keys.Nodup
  found : ∀ x, s.m_mutex x = none → ∀ key, s.getListener x key = s.added x key

/-! ## The invariant -/

/-- What the thread at `pc` relies on. -/
def Owned (s : Listeners Cb V n) : ListenerPc Cb V → Prop
  | .store _ _ id => id = s.s_fun_id ∧ s.m_cbs = s.added
  | .put _ _ => (∀ key ∈ s.keys, key < s.s_fun_id) ∧ s.m_cbs = s.added
  | .ret x cb => (∀ key ∈ s.keys, key < s.s_fun_id) ∧
    s.m_cbs = Function.update s.added x (Function.update (s.added x) s.s_fun_id (some cb))
  | _ => s.m_cbs = s.added

structure Inv (s : Listeners Cb V n) : Prop where
  mutex : ∀ x t, s.m_mutex x = some t ↔ (s.pc t).holds = some x
  one : ∀ t u, (s.pc t).holds ≠ none → (s.pc u).holds ≠ none → t = u
  nodup : s.keys.Nodup
  le : ∀ key ∈ s.keys, key ≤ s.s_fun_id
  owned : ∀ t, (s.pc t).holds ≠ none → s.Owned (s.pc t)
  free : (∀ t, (s.pc t).holds = none) → s.m_cbs = s.added

theorem inv_new : Inv (new : Listeners Cb V n) where
  mutex x t := by simp [new, ListenerPc.holds]
  one t u h := absurd rfl h
  nodup := List.nodup_nil
  le _ h := by cases h
  owned _ h := absurd rfl h
  free _ := rfl

theorem Inv.kept {s : Listeners Cb V n} (h : Inv s) : Kept s where
  nodup := h.nodup
  found x hx key := by
    by_cases hfree : ∀ t, (s.pc t).holds = none
    · rw [getListener, h.free hfree]
    · obtain ⟨t, ht⟩ := not_forall.mp hfree
      have howned := h.owned t ht
      -- the lock that the thread has is not that of `x`
      have hnot : (s.pc t).holds ≠ some x := by
        intro hc
        rw [(h.mutex x t).mpr hc] at hx
        cases hx
      cases hpc : s.pc t with
      | ret y cb =>
        rw [hpc] at howned hnot
        have hne : x ≠ y := fun heq => hnot (congrArg some heq.symm)
        rw [getListener, howned.2, Function.update_of_ne hne]
      | store y cb id | put y cb =>
        rw [hpc] at howned
        rw [getListener, howned.2]
      | idle | enter y cb | load y cb =>
        rw [hpc] at howned
        rw [getListener, show s.m_cbs = s.added from howned]

section Moves
variable {s s' : Listeners Cb V n} {t : Fin n}

theorem setPc_self (s : Listeners Cb V n) (t : Fin n) (pc : ListenerPc Cb V) :
    (s.setPc t pc).pc t = pc := Function.update_self ..

theorem setPc_of_ne {u : Fin n} (s : Listeners Cb V n) (pc : ListenerPc Cb V) (h : u ≠ t) :
    (s.setPc t pc).pc u = s.pc u := Function.update_of_ne h ..

/-- A call starts. -/
theorem Inv.call (h : Inv s) (x : Fin V) (cb : Cb) (hpc : s.pc t = .idle) :
    Inv (s.setPc t (.enter x cb)) := by
  have hsame (u : Fin n) : ((s.setPc t (.enter x cb)).pc u).holds = (s.pc u).holds := by
    by_cases hu : u = t
    · rw [hu, setPc_self, hpc]
      rfl
    · rw [setPc_of_ne _ _ hu]
  refine ⟨fun y u => ?_, fun u v hu hv => ?_, h.nodup, h.le, fun u hu => ?_, fun hfree => h.free ?_⟩
  · rw [hsame]
    exact h.mutex y u
  · rw [hsame] at hu hv
    exact h.one u v hu hv
  · by_cases hut : u = t
    · rw [hut, setPc_self] at hu
      exact absurd rfl hu
    · rw [hsame] at hu
      rw [setPc_of_ne _ _ hut]
      exact h.owned u hu
  · exact fun u => (hsame u).symm.trans (hfree u)

/-- No other thread has a lock. -/
theorem inv_of_owned (hother : ∀ u, u ≠ t → (s.pc u).holds = none)
    (hmutex : ∀ x u, s.m_mutex x = some u ↔ (s.pc u).holds = some x)
    (hnodup : s.keys.Nodup) (hle : ∀ key ∈ s.keys, key ≤ s.s_fun_id) (howned : s.Owned (s.pc t)) :
    Inv s := by
  have honly (u : Fin n) (hu : (s.pc u).holds ≠ none) : u = t := by
    by_contra hne
    exact hu (hother u hne)
  refine ⟨hmutex, fun u v hu hv => (honly u hu).trans (honly v hv).symm, hnodup, hle,
    fun u hu => ?_, fun hfree => ?_⟩
  · rw [honly u hu]
    exact howned
  · have ht := hfree t
    cases hpc : s.pc t with
    | load x cb | store x cb id | put x cb | ret x cb =>
      rw [hpc] at ht
      cases ht
    | idle | enter x cb =>
      rw [hpc] at howned
      exact howned

/-- The thread with the lock goes on with it. -/
theorem Inv.inside {x : Fin V} (h : Inv s) (pc : ListenerPc Cb V) (hold : (s.pc t).holds = some x)
    (hnew : pc.holds = some x) (hpc : s'.pc = Function.update s.pc t pc)
    (hmutex : s'.m_mutex = s.m_mutex) (hkeys : s'.keys = s.keys) (hid : s.s_fun_id ≤ s'.s_fun_id)
    (howned : s'.Owned pc) : Inv s' := by
  have hself : s'.pc t = pc := by rw [hpc, Function.update_self]
  have hsame (u : Fin n) : (s'.pc u).holds = (s.pc u).holds := by
    by_cases hu : u = t
    · rw [hu, hself, hnew, hold]
    · rw [hpc, Function.update_of_ne hu]
  refine inv_of_owned (t := t) (fun u hu => ?_) (fun y u => ?_) ?_ (fun key hkey => ?_) ?_
  · rw [hsame]
    by_contra hne
    exact hu (h.one u t hne (by rw [hold]; exact Option.some_ne_none x))
  · rw [hmutex, hsame]
    exact h.mutex y u
  · rw [hkeys]
    exact h.nodup
  · rw [hkeys] at hkey
    exact Nat.le_trans (h.le key hkey) hid
  · rw [hself]
    exact howned

/-- A thread gets the lock of `x`, and no other thread has one. -/
theorem Inv.lock (h : Inv s) (hfree : ∀ u, (s.pc u).holds = none) (x : Fin V) (cb : Cb) :
    Inv ({ s with m_mutex := Function.update s.m_mutex x (some t) }.setPc t (.load x cb)) := by
  have hother (u : Fin n) (hu : u ≠ t) : (Function.update s.pc t (.load x cb) u).holds = none := by
    rw [Function.update_of_ne hu]
    exact hfree u
  refine inv_of_owned (t := t) hother (fun y u => ?_) h.nodup h.le ?_
  · have hnone : s.m_mutex y ≠ some u := by
      rw [ne_eq, h.mutex, hfree u]
      exact (Option.some_ne_none y).symm
    simp only [setPc]
    by_cases hut : u = t
    · subst hut
      rw [Function.update_self]
      by_cases hy : y = x
      · simp [hy, ListenerPc.holds]
      · simp [Function.update_of_ne hy, hnone, ListenerPc.holds, Ne.symm hy]
    · rw [hother u hut]
      by_cases hy : y = x
      · simp [hy, Ne.symm hut]
      · simp [Function.update_of_ne hy, hnone]
  · rw [setPc_self]
    exact h.free hfree

/-- The thread with the lock of `x` returns its key. -/
theorem Inv.unlock (h : Inv s) {x : Fin V} {cb : Cb} (hpc : s.pc t = .ret x cb) :
    Inv ({ s with
      m_mutex := Function.update s.m_mutex x none
      added := Function.update s.added x (Function.update (s.added x) s.s_fun_id (some cb))
      keys := s.keys ++ [s.s_fun_id] }.setPc t .idle) := by
  have hheld : (s.pc t).holds = some x := by rw [hpc]; rfl
  have howned := h.owned t (by rw [hheld]; exact Option.some_ne_none x)
  rw [hpc] at howned
  obtain ⟨hlt, hsame⟩ := howned
  have hother (u : Fin n) (hu : u ≠ t) : (s.pc u).holds = none := by
    by_contra hne
    exact hu (h.one u t hne (by rw [hheld]; exact Option.some_ne_none x))
  have hnone (u : Fin n) : (Function.update s.pc t .idle u).holds = none := by
    by_cases hu : u = t
    · rw [hu, Function.update_self]
      rfl
    · rw [Function.update_of_ne hu, hother u hu]
  refine inv_of_owned (t := t) (fun u _ => hnone u) (fun y u => ?_) ?_ (fun key hkey => ?_) ?_
  · simp only [setPc, hnone u]
    by_cases hy : y = x
    · simp [hy]
    · rw [Function.update_of_ne hy]
      refine iff_of_false (fun hc => ?_) (Option.some_ne_none y).symm
      have hu := (h.mutex y u).mp hc
      have hut : u = t := by
        by_contra hne
        rw [hother u hne] at hu
        cases hu
      rw [hut, hheld, Option.some.injEq] at hu
      exact hy hu.symm
  · refine List.nodup_append.mpr ⟨h.nodup, List.nodup_singleton _, fun a ha b hb => ?_⟩
    rw [List.mem_singleton.mp hb]
    exact Nat.ne_of_lt (hlt a ha)
  · rcases List.mem_append.mp hkey with hkey | hkey
    · exact h.le key hkey
    · exact Nat.le_of_eq (List.mem_singleton.mp hkey)
  · rw [setPc_self]
    exact hsame

theorem inv_go (h : Inv s) (halone : Alone s (.go t)) (hst : s.goStep t = some s') : Inv s' := by
  unfold goStep at hst
  simp only [Alone] at halone
  cases hpc : s.pc t with
  | idle => simp [hpc] at hst
  | enter x cb =>
    simp only [hpc] at hst halone
    obtain ⟨-, he⟩ := Option.ite_none_right_eq_some.mp hst
    cases he
    exact h.lock halone x cb
  | load x cb =>
    simp only [hpc] at hst
    cases hst
    have howned := h.owned t (by simp [hpc, ListenerPc.holds])
    rw [hpc] at howned
    exact h.inside (.store x cb s.s_fun_id) (by rw [hpc]; rfl) rfl rfl rfl rfl (le_refl _)
      ⟨rfl, howned⟩
  | store x cb id =>
    simp only [hpc] at hst halone
    cases hst
    have howned := h.owned t (by simp [hpc, ListenerPc.holds])
    rw [hpc] at howned
    obtain ⟨rfl, hsame⟩ := howned
    have hmod : (s.s_fun_id + 1) % 2 ^ 64 = s.s_fun_id + 1 := Nat.mod_eq_of_lt halone
    refine h.inside (.put x cb) (by rw [hpc]; rfl) rfl rfl rfl rfl ?_ ⟨fun key hkey => ?_, hsame⟩
    · simp only [setPc, hmod]
      omega
    · have hle := h.le key hkey
      simp only [setPc, hmod]
      omega
  | put x cb =>
    simp only [hpc] at hst
    cases hst
    have howned := h.owned t (by simp [hpc, ListenerPc.holds])
    rw [hpc] at howned
    obtain ⟨hlt, hsame⟩ := howned
    refine h.inside (.ret x cb) (by rw [hpc]; rfl) rfl rfl rfl rfl (le_refl _) ⟨hlt, ?_⟩
    simp only [setPc, hsame]
  | ret x cb =>
    simp only [hpc] at hst
    cases hst
    exact h.unlock hpc

/-- Listeners are taken off a variable that no call of `addListener` has locked. -/
theorem inv_remove {x : Fin V} {p : Nat → Bool} (h : Inv s) (hst : s.remove t x p = some s') :
    Inv s' := by
  obtain ⟨⟨-, hx⟩, he⟩ := Option.ite_none_right_eq_some.mp hst
  cases he
  have hupdate (hsame : s.m_cbs = s.added) :
      (Function.update s.m_cbs x fun key => if p key then none else s.m_cbs x key) =
        Function.update s.added x fun key => if p key then none else s.added x key := by
    rw [hsame]
  refine ⟨h.mutex, h.one, h.nodup, h.le, fun u hu => ?_, fun hfree => hupdate (h.free hfree)⟩
  have howned := h.owned u hu
  cases hpc : s.pc u with
  | idle | enter y cb =>
    rw [hpc] at hu
    exact absurd rfl hu
  | load y cb =>
    rw [hpc] at howned
    exact hupdate howned
  | store y cb id | put y cb =>
    rw [hpc] at howned
    exact ⟨howned.1, hupdate howned.2⟩
  | ret y cb =>
    rw [hpc] at howned
    have hne : x ≠ y := by
      rintro rfl
      rw [(h.mutex x u).mpr (by rw [hpc]; rfl)] at hx
      cases hx
    refine ⟨howned.1, ?_⟩
    simp only [howned.2, Function.update_of_ne hne, Function.update_of_ne (Ne.symm hne)]
    exact Function.update_comm (Ne.symm hne) _ _ _

end Moves

/-- Where no two calls of `addListener` overlap, every key that they return names the callback
they were called with, and no other. -/
theorem keys_law (Cb : Type) [DecidableEq Cb] (V n : Nat) (s : Listeners Cb V n)
    (hr : ((lts Cb V n).restrict Alone).Reachable s) : Kept s := by
  have hind : ((lts Cb V n).restrict Alone).Inductive Inv := by
    refine ⟨fun s hs => ?_, fun s a s' hi hst => ?_⟩
    · rw [show s = new from hs]
      exact inv_new
    · obtain ⟨hst, halone⟩ := hst
      cases a with
      | go t => exact inv_go hi halone hst
      | addListener t x cb =>
        simp only [lts, LTS.ofFn, step, Option.ite_none_right_eq_some, Option.some.injEq] at hst
        obtain ⟨hpc, rfl⟩ := hst
        exact hi.call x cb hpc
      | delListener t x key | clearListener t x =>
        simp only [lts, LTS.ofFn, step, Option.ite_none_right_eq_some] at hst
        exact inv_remove hi hst.2
  exact (hind.reachable s hr).kept

/-! ## Calls that overlap -/

/-- A check of `Alone`. -/
def aloneB (s : Listeners Cb V n) : Act Cb V n → Bool
  | .go t =>
    match s.pc t with
    | .enter _ _ => decide (∀ u, (s.pc u).holds = none)
    | .store _ _ id => decide (id + 1 < 2 ^ 64)
    | _ => true
  | _ => true

theorem alone_of_aloneB (s : Listeners Cb V n) (a : Act Cb V n) (h : aloneB s a = true) :
    Alone s a := by
  unfold aloneB at h
  unfold Alone
  cases a with
  | go t =>
    simp only at h ⊢
    cases hpc : s.pc t with
    | enter x cb | store x cb id =>
      rw [hpc] at h
      exact of_decide_eq_true h
    | idle | load x cb | put x cb | ret x cb => trivial
  | addListener | delListener | clearListener => trivial

/-- `addListener(cb)` of the variable `x`, up to the line :118. -/
def adding (t : Fin n) (x : Fin V) (cb : Nat) : List (Act Nat V n) :=
  .addListener t x cb :: List.replicate 4 (.go t)

theorem keys_law_one_by_one : ∃ s : Listeners Nat 2 2,
    ((lts Nat 2 2).restrict Alone).Reachable s ∧ s.keys = [1, 2] ∧ Kept s := by
  have hrun : (LTS.execWith step aloneB (new : Listeners Nat 2 2)
      (adding 0 0 7 ++ .go 0 :: adding 1 1 8 ++ [.go 1, .delListener 0 0 1])).any
      (fun s => decide (s.keys = [1, 2])) = true := by decide +kernel
  obtain ⟨s, hs, hb⟩ : ∃ s, ((lts Nat 2 2).restrict Alone).Reachable s ∧
      decide (s.keys = [1, 2]) = true := LTS.exists_of_execWith alone_of_aloneB _ rfl hrun
  exact ⟨s, hs, of_decide_eq_true hb, keys_law Nat 2 2 s hs⟩

/-- A thread has stored its callback under 1; another one, which adds a listener to another
variable, increments `s_fun_id`; and the first returns 2. -/
theorem keys_overlap : ∃ s : Listeners Nat 2 2, (lts Nat 2 2).Reachable s ∧ ¬ Kept s := by
  have hrun : (LTS.exec step (new : Listeners Nat 2 2)
      (adding 0 0 7 ++ .addListener 1 1 8 :: List.replicate 3 (.go 1) ++ [.go 0])).any
      (fun s => decide (s.m_mutex 0 = none ∧ s.getListener 0 2 = none ∧ s.added 0 2 = some 7)) =
      true := by decide +kernel
  obtain ⟨s, hs, hb⟩ : ∃ s, (lts Nat 2 2).Reachable s ∧
      decide (s.m_mutex 0 = none ∧ s.getListener 0 2 = none ∧ s.added 0 2 = some 7) = true :=
    LTS.exists_of_exec _ rfl hrun
  obtain ⟨hfree, hget, hadded⟩ := of_decide_eq_true hb
  refine ⟨s, hs, fun h => ?_⟩
  have hfound := h.found 0 hfree 2
  rw [hget, hadded] at hfound
  cases hfound

end Listeners
end Ppcode
