import Ppcode.Fiber.TimerHandle

/-!
# How long the event loop sleeps

Each round of `networkPoller` asks the timer for the distance to the next deadline
and hands it to `epoll_wait`: `~0`, for no task, and all that is longer than
`MAX_TIMEOUT` become `MAX_TIMEOUT`, and so does 0, which is the distance to a task
that is due.

* `epollTimeout_toInt`: the number that `epoll_wait` gets; the narrowing to `int`
  loses nothing.
* `wakesInTime_iff`: the loop sleeps no longer than to the first deadline exactly
  when no task is due yet.
-/
namespace Ppcode

/-- mirrors src/fiber/poller.cc:227 -/
def MAX_TIMEOUT : Int32 := 3000

/-- What `epoll_wait` gets for the value of `getNextExecuteTime`. `MAX_TIMEOUT` is
converted to `uint64_t`, and the outcome to the `int` of the parameter.
mirrors src/fiber/poller.cc:229-234 -/
def epollTimeout (next_timeout : UInt64) : Int32 :=
  let max_timeout := MAX_TIMEOUT.toInt64.toUInt64
  let next_timeout := if next_timeout > max_timeout then max_timeout else next_timeout
  let next_timeout := if next_timeout = 0 then max_timeout else next_timeout
  next_timeout.toUInt32.toInt32

/-- A value up to `MAX_TIMEOUT` is the same as an `int`. -/
theorem toInt32_toInt {x : UInt64} (h : x.toNat ≤ 3000) : x.toUInt32.toInt32.toInt = x.toNat := by
  have hmod : x.toUInt32.toNat = x.toNat := by
    rw [UInt64.toNat_toUInt32]
    exact Nat.mod_eq_of_lt (by omega)
  have hint : x.toUInt32.toInt32.toInt = x.toUInt32.toBitVec.toInt := rfl
  have hnat : x.toUInt32.toBitVec.toNat = x.toNat := hmod
  rw [hint, BitVec.toInt_eq_toNat_of_lt (by omega), hnat]

theorem epollTimeout_toInt (x : UInt64) :
    (epollTimeout x).toInt = if x.toNat = 0 ∨ 3000 < x.toNat then 3000 else x.toNat := by
  have hmax : (MAX_TIMEOUT.toInt64.toUInt64).toNat = 3000 := by decide
  have hzero : x = 0 ↔ x.toNat = 0 := by
    rw [← UInt64.toNat_inj]
    rfl
  unfold epollTimeout
  by_cases hlong : x > MAX_TIMEOUT.toInt64.toUInt64
  · have hlt : 3000 < x.toNat := by
      have := UInt64.lt_iff_toNat_lt.mp hlong
      omega
    simp only [hlong, if_true, hlt, or_true]
    decide
  · have hle : ¬ 3000 < x.toNat := by
      intro hlt
      refine hlong (UInt64.lt_iff_toNat_lt.mpr ?_)
      omega
    simp only [hlong, if_false, hzero, hle, or_false]
    split
    · decide
    · exact toInt32_toInt (by omega)

namespace Timer
variable {C : Type} {t : Timer C} {now_ms : UInt64}

/-- One round of the loop, in which `getNextExecuteTime` reads the clock at `now_ms`: the
sleep is at most 3000, at most what was returned, and over at the first deadline. -/
structure WakesInTime (t : Timer C) (now_ms : UInt64) : Prop where
  -- a negative number would be a sleep without an end
  nonneg : 0 ≤ (epollTimeout (t.getNextExecuteTime now_ms).2).toInt
  max : (epollTimeout (t.getNextExecuteTime now_ms).2).toInt ≤ 3000
  returned : (epollTimeout (t.getNextExecuteTime now_ms).2).toInt ≤
    (t.getNextExecuteTime now_ms).2.toNat
  deadline : ∀ a ∈ t.m_tasks, (epollTimeout (t.getNextExecuteTime now_ms).2).toInt ≤
    Max.max 0 ((t.next a).toNat - now_ms.toNat : Int)
  due : (∃ a ∈ t.m_tasks, t.next a ≤ now_ms) →
    (epollTimeout (t.getNextExecuteTime now_ms).2).toInt = 0

/-- The value of `getNextExecuteTime` against the deadlines in the set. -/
theorem getNextExecuteTime_spec (hsorted : OrderedSet.Sorted t.key t.m_tasks) (now_ms : UInt64) :
    t.m_tasks = [] ∧ (t.getNextExecuteTime now_ms).2.toNat = 2 ^ 64 - 1 ∨
    ∃ first ∈ t.m_tasks, (∀ a ∈ t.m_tasks, t.next first ≤ t.next a) ∧
      (t.getNextExecuteTime now_ms).2.toNat = (t.next first).toNat - now_ms.toNat := by
  cases hhead : t.m_tasks.head? with
  | none =>
    refine .inl ⟨List.head?_eq_none_iff.mp hhead, ?_⟩
    simp only [getNextExecuteTime, hhead]
    decide
  | some first =>
    refine .inr ⟨first, List.mem_of_head? hhead,
      fun a ha => next_le (hsorted.head_le hhead ha), ?_⟩
    simp only [getNextExecuteTime, hhead]
    change (if now_ms ≥ t.next first then 0 else t.next first - now_ms : UInt64).toNat = _
    split
    · next hge =>
      have hle : (t.next first).toNat ≤ now_ms.toNat := UInt64.le_iff_toNat_le.mp hge
      exact (Nat.sub_eq_zero_of_le hle).symm
    · next hlt =>
      have hle : now_ms ≤ t.next first := UInt64.le_of_lt (UInt64.not_le.mp hlt)
      exact UInt64.toNat_sub_of_le _ _ hle

/-- The set of a timer is in the order of its deadlines, also with empty callbacks in it. -/
theorem sorted_reachable (hr : (useLts C).Reachable t) : OrderedSet.Sorted t.key t.m_tasks :=
  (atRest_reachable hr).sorted

/-- The loop wakes up in time exactly when nothing is due as it looks at the clock. -/
theorem wakesInTime_iff (t : Timer C) (hsorted : OrderedSet.Sorted t.key t.m_tasks)
    (now_ms : UInt64) : WakesInTime t now_ms ↔ ∀ a ∈ t.m_tasks, now_ms < t.next a := by
  constructor
  · intro h a ha
    by_contra hnot
    have hzero := h.due ⟨a, ha, UInt64.not_lt.mp hnot⟩
    rw [epollTimeout_toInt] at hzero
    split at hzero
    · omega
    · next hpos => omega
  · intro h
    have hnodue : ¬ ∃ a ∈ t.m_tasks, t.next a ≤ now_ms := by
      intro hex
      obtain ⟨a, ha, hle⟩ := hex
      exact UInt64.not_lt.mpr hle (h a ha)
    have htimeout := epollTimeout_toInt (t.getNextExecuteTime now_ms).2
    rcases getNextExecuteTime_spec hsorted now_ms with ⟨hnil, hval⟩ | ⟨first, hin, hfirst, hval⟩
    · rw [hval, if_pos (.inr (by decide))] at htimeout
      exact
        { nonneg := by omega
          max := by omega
          returned := by omega
          deadline := by
            intro a ha
            rw [hnil] at ha
            cases ha
          due := fun hdue => absurd hdue hnodue }
    · have hlt := UInt64.lt_iff_toNat_lt.mp (h first hin)
      have hle : (epollTimeout (t.getNextExecuteTime now_ms).2).toInt ≤
          (t.getNextExecuteTime now_ms).2.toNat ∧
          0 ≤ (epollTimeout (t.getNextExecuteTime now_ms).2).toInt ∧
          (epollTimeout (t.getNextExecuteTime now_ms).2).toInt ≤ 3000 := by
        rw [htimeout]
        split <;> omega
      exact
        { nonneg := hle.2.1
          max := hle.2.2
          returned := hle.1
          deadline := by
            intro a ha
            have := UInt64.le_iff_toNat_le.mp (hfirst a ha)
            omega
          due := fun hdue => absurd hdue hnodue }

/-- The timer with one task. -/
theorem reachable_one (ms : UInt64) : (useLts Nat).Reachable
    ((new 0 : Timer Nat).createTimer 1 (some 7) ms false 0).1 := by
  have hrun : LTS.exec use (new 0 : Timer Nat) [.createTimer 1 (some 7) ms false 0] =
      some ((new 0 : Timer Nat).createTimer 1 (some 7) ms false 0).1 := rfl
  exact LTS.reachable_of_exec ⟨0, rfl⟩ hrun

/-- A task in 50 ms. -/
theorem wakesInTime_later :
    WakesInTime ((new 0 : Timer Nat).createTimer 1 (some 7) 50 false 0).1 0 :=
  (wakesInTime_iff _ (sorted_reachable (reachable_one 50)) 0).mpr (by decide)

/-- A task without a delay: `epoll_wait` gets 3000. -/
theorem sleeps_on_due : ∃ t : Timer Nat, (useLts Nat).Reachable t ∧
    (t.getNextExecuteTime 0).2 = 0 ∧ (epollTimeout (t.getNextExecuteTime 0).2).toInt = 3000 ∧
    ¬ WakesInTime t 0 := by
  refine ⟨((new 0 : Timer Nat).createTimer 1 (some 7) 0 false 0).1, reachable_one 0,
    by decide, by decide, fun h => ?_⟩
  have hret := h.returned
  revert hret
  decide

end Timer
end Ppcode
