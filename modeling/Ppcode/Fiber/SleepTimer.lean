import Mathlib.Data.Rat.Floor
import Ppcode.Fiber.Timer

/-!
# The timers of the hooked sleeps

`sleep`, `usleep` and `nanosleep` of `src/fiber/hook.cc` make a timer that adds the
fiber again, and yield. Each converts its argument to milliseconds in its own
types: a 32-bit product, a 32-bit division, and a `long` that is stored in an `int`
before it becomes `uint64_t`.

* `inFull_iff`: the timer is due no earlier than asked for, and nothing wraps
  around on the way, exactly when the duration is a whole number of milliseconds,
  less than 2^32 for `sleep` and less than 2^31 for `nanosleep`.
* `cut_short`: three sleeps that end too early.
-/
namespace Ppcode

/-- Both members are `long`. -/
structure Timespec where
  tv_sec : Int64
  tv_nsec : Int64
  deriving DecidableEq, Repr

namespace Timer
variable {C : Type}

/-- What the three have in common. The task is made at `a`, and its callback `fb` adds the
fiber again; without the hook libc sleeps and there is no timer. -/
def hookedSleep (t : Timer C) (hooked : Bool) (a : Nat) (fb : C) (ms now : UInt64) :
    Option (Timer C × Bool) :=
  if hooked then some (t.createTimer a (some fb) ms false now) else none

/-- mirrors src/fiber/hook.cc:152-166 -/
def sleep (t : Timer C) (hooked : Bool) (a : Nat) (fb : C) (seconds : UInt32) (now : UInt64) :
    Option (Timer C × Bool) := t.hookedSleep hooked a fb (seconds * 1000).toUInt64 now

/-- mirrors src/fiber/hook.cc:169-183 -/
def usleep (t : Timer C) (hooked : Bool) (a : Nat) (fb : C) (usec : UInt32) (now : UInt64) :
    Option (Timer C × Bool) := t.hookedSleep hooked a fb (usec / 1000).toUInt64 now

/-- mirrors src/fiber/hook.cc:187-201 -/
def nanosleep (t : Timer C) (hooked : Bool) (a : Nat) (fb : C) (req : Timespec) (now : UInt64) :
    Option (Timer C × Bool) :=
  let timeout : Int32 := (req.tv_sec * 1000 + req.tv_nsec / 1000 / 1000).toInt32
  t.hookedSleep hooked a fb timeout.toInt64.toUInt64 now

end Timer

inductive SleepCall where
  | sleep (seconds : UInt32)
  | usleep (usec : UInt32)
  | nanosleep (req : Timespec)
  deriving DecidableEq, Repr

namespace SleepCall
variable {C : Type}

def run (t : Timer C) (hooked : Bool) (a : Nat) (fb : C) (now : UInt64) :
    SleepCall → Option (Timer C × Bool)
  | .sleep seconds => t.sleep hooked a fb seconds now
  | .usleep usec => t.usleep hooked a fb usec now
  | .nanosleep req => t.nanosleep hooked a fb req now

/-- The arguments that libc takes. -/
def Accepted : SleepCall → Prop
  | .sleep _ | .usleep _ => True
  | .nanosleep req => 0 ≤ req.tv_sec.toInt ∧ req.tv_sec.toInt ≤ 2 ^ 40 ∧
    0 ≤ req.tv_nsec.toInt ∧ req.tv_nsec.toInt < 10 ^ 9

/-- What is asked for, in milliseconds. -/
def duration : SleepCall → ℚ
  | .sleep seconds => seconds.toNat * 1000
  | .usleep usec => usec.toNat / 1000
  | .nanosleep req => req.tv_sec.toInt * 1000 + req.tv_nsec.toInt / 10 ^ 6

/-- The conversion over the integers. -/
def whole : SleepCall → Int
  | .sleep seconds => seconds.toNat * 1000
  | .usleep usec => usec.toNat / 1000
  | .nanosleep req => req.tv_sec.toInt * 1000 + req.tv_nsec.toInt / 1000 / 1000

/-- The sleep makes a timer that is not due before the duration is over; neither the conversion
nor the sum with the clock wraps around. -/
def InFull (t : Timer C) (a : Nat) (fb : C) (now : UInt64) (c : SleepCall) : Prop :=
  ∃ t' front task, c.run t true a fb now = some (t', front) ∧ t'.mem a = some task ∧
    (task.m_ms.toNat : Int) = c.whole ∧ now.toNat + task.m_ms.toNat < 2 ^ 64 ∧
    (now.toNat : ℚ) + c.duration ≤ task.m_next.toNat

/-- The milliseconds are whole, and fit. -/
def Meets : SleepCall → Prop
  | .sleep seconds => seconds.toNat * 1000 < 2 ^ 32
  | .usleep usec => 1000 ∣ usec.toNat
  | .nanosleep req => 10 ^ 6 ∣ req.tv_nsec.toInt ∧
    req.tv_sec.toInt * 1000 + req.tv_nsec.toInt / 10 ^ 6 < 2 ^ 31

/-- What the hook hands to `createTimer`. -/
def ms : SleepCall → UInt64
  | .sleep seconds => (seconds * 1000).toUInt64
  | .usleep usec => (usec / 1000).toUInt64
  | .nanosleep req =>
    (req.tv_sec * 1000 + req.tv_nsec / 1000 / 1000).toInt32.toInt64.toUInt64

theorem run_eq (t : Timer C) (a : Nat) (fb : C) (now : UInt64) (c : SleepCall) :
    c.run t true a fb now = some (t.createTimer a (some fb) c.ms false now) := by
  cases c <;> rfl

/-- The timer's part: the deadline is the sum, as long as that fits. -/
theorem inFull_iff_ms (t : Timer C) (a : Nat) (fb : C) (now : UInt64) (c : SleepCall) :
    c.InFull t a fb now ↔ (c.ms.toNat : Int) = c.whole ∧ now.toNat + c.ms.toNat < 2 ^ 64 ∧
      c.duration ≤ c.ms.toNat := by
  have hnext (hfit : now.toNat + c.ms.toNat < 2 ^ 64) :
      ((now + c.ms).toNat : ℚ) = now.toNat + c.ms.toNat := by
    rw [UInt64.toNat_add, Nat.mod_eq_of_lt hfit]
    push_cast
    rfl
  unfold InFull
  rw [run_eq]
  constructor
  · intro hex
    obtain ⟨t', front, task, ht, htask, hwhole, hfit, hlong⟩ := hex
    have hmem := Timer.createTimer_mem t a (some fb) c.ms now
    rw [Option.some.inj ht, htask] at hmem
    cases hmem
    simp only [TimerTask.new] at hwhole hfit hlong
    rw [hnext hfit] at hlong
    exact ⟨hwhole, hfit, by linarith⟩
  · intro h
    obtain ⟨hwhole, hfit, hlong⟩ := h
    refine ⟨_, _, .new (some fb) c.ms false now, rfl, Timer.createTimer_mem .., hwhole, hfit, ?_⟩
    simp only [TimerTask.new]
    rw [hnext hfit]
    linarith

/-! ## The three conversions -/

theorem ms_sleep (seconds : UInt32) :
    (ms (.sleep seconds)).toNat = seconds.toNat * 1000 % 2 ^ 32 := by
  simp [ms]

theorem ms_usleep (usec : UInt32) : (ms (.usleep usec)).toNat = usec.toNat / 1000 := by
  simp [ms]

/-- The sum, as a `long`, stored in an `int`. -/
theorem timeout_toInt {req : Timespec} (h : (nanosleep req).Accepted) :
    (req.tv_sec * 1000 + req.tv_nsec / 1000 / 1000).toInt32.toInt =
      (whole (.nanosleep req)).bmod (2 ^ 32) := by
  obtain ⟨hs, hs', hn, hn'⟩ := h
  have hk : (1000 : Int64).toInt = 1000 := rfl
  have hdiv (x : Int64) : (x / 1000).toInt = x.toInt.tdiv 1000 :=
    Int64.toInt_div_of_ne_right x 1000 (by decide)
  have hmul : (req.tv_sec * 1000).toInt = req.tv_sec.toInt * 1000 := by
    rw [Int64.toInt_mul, hk, Int.bmod_eq_of_le (by omega) (by omega)]
  have hsum : (req.tv_sec * 1000 + req.tv_nsec / 1000 / 1000).toInt = whole (.nanosleep req) := by
    rw [Int64.toInt_add, hmul, hdiv, hdiv, Int.tdiv_eq_ediv_of_nonneg hn,
      Int.tdiv_eq_ediv_of_nonneg (by omega), Int.bmod_eq_of_le (by omega) (by omega)]
    rfl
  rw [Int64.toInt_toInt32, hsum]

/-- An `int` as `uint64_t`. -/
theorem widened_toNat (x : Int32) :
    (x.toInt64.toUInt64.toNat : Int) = if 0 ≤ x.toInt then x.toInt else x.toInt + 2 ^ 64 := by
  have hval : x.toInt64.toBitVec.toInt = x.toInt := Int32.toInt_toInt64 x
  have hlt := x.toInt64.toUInt64.toNat_lt
  rw [← Int64.toNat_toBitVec, BitVec.toInt_eq_toNat_cond] at *
  split at hval <;> split <;> omega

/-- The `int` holds the sum when it is less than 2^31; as `uint64_t` it is a different number
otherwise. -/
theorem ms_nanosleep {req : Timespec} (h : (nanosleep req).Accepted) :
    ((ms (.nanosleep req)).toNat : Int) = whole (.nanosleep req) ↔
      whole (.nanosleep req) < 2 ^ 31 := by
  have hint := timeout_toInt h
  have hwide := widened_toNat (req.tv_sec * 1000 + req.tv_nsec / 1000 / 1000).toInt32
  obtain ⟨hs, hs', hn, hn'⟩ := h
  have hrange : 0 ≤ whole (.nanosleep req) ∧ whole (.nanosleep req) < 2 ^ 51 := by
    simp only [whole]
    omega
  have hms : (ms (.nanosleep req)).toNat =
    (req.tv_sec * 1000 + req.tv_nsec / 1000 / 1000).toInt32.toInt64.toUInt64.toNat := rfl
  rw [hms, hwide, hint]
  generalize whole (.nanosleep req) = x at hrange
  constructor
  · intro heq
    have hlt := @Int.bmod_lt x (2 ^ 32) (by decide)
    have hle := @Int.le_bmod x (2 ^ 32) (by decide)
    split at heq <;> omega
  · intro hlt
    rw [Int.bmod_eq_of_le (by omega) (by omega), if_pos hrange.1]

/-! ## When the sleep is long enough -/

/-- A quotient that is rounded down falls short unless the division comes out even. -/
theorem div_le_floor_iff (n k : Int) (hk : 0 < k) : (n : ℚ) / k ≤ (n / k : Int) ↔ k ∣ n := by
  have hk' : (0 : ℚ) < k := by exact_mod_cast hk
  rw [div_le_iff₀ hk']
  constructor
  · intro h
    have hle : n ≤ n / k * k := by exact_mod_cast h
    have hge : n / k * k ≤ n := Int.ediv_mul_le n (by omega)
    exact ⟨n / k, by rw [mul_comm]; omega⟩
  · intro h
    rw [← Int.cast_mul, Int.ediv_mul_cancel h]

/-- A sleep is in full exactly when its milliseconds are whole and fit the types on the way. -/
theorem inFull_iff (t : Timer C) (a : Nat) (fb : C) (now : UInt64) (c : SleepCall)
    (h : c.Accepted) (hnow : now.toNat < 2 ^ 63) : c.InFull t a fb now ↔ c.Meets := by
  rw [inFull_iff_ms]
  cases c with
  | sleep seconds =>
    rw [ms_sleep]
    simp only [whole, duration, Meets]
    constructor
    · intro hfull
      have := hfull.1
      omega
    · intro hlt
      rw [Nat.mod_eq_of_lt hlt]
      refine ⟨by push_cast; rfl, by omega, by push_cast; rfl⟩
  | usleep usec =>
    have hlong : (usec.toNat : ℚ) / 1000 ≤ (usec.toNat / 1000 : Nat) ↔ 1000 ∣ usec.toNat := by
      have hdiv := div_le_floor_iff usec.toNat 1000 (by decide)
      rw [← Int.ofNat_dvd, ← Int.cast_natCast usec.toNat, ← Int.cast_natCast (usec.toNat / 1000)]
      exact hdiv
    have husec := usec.toNat_lt
    rw [ms_usleep]
    simp only [whole, duration, Meets, hlong]
    constructor
    · intro hfull
      exact hfull.2.2
    · intro hdvd
      exact ⟨by push_cast; rfl, by omega, hdvd⟩
  | nanosleep req =>
    have hms := ms_nanosleep h
    have hdiv := div_le_floor_iff req.tv_nsec.toInt (10 ^ 6) (by decide)
    obtain ⟨hs, -, hn, -⟩ := h
    have hwhole : whole (.nanosleep req) =
        req.tv_sec.toInt * 1000 + req.tv_nsec.toInt / 10 ^ 6 := by
      simp only [whole]
      omega
    have hlong (heq : ((ms (.nanosleep req)).toNat : Int) = whole (.nanosleep req)) :
        duration (.nanosleep req) ≤ (ms (.nanosleep req)).toNat ↔ 10 ^ 6 ∣ req.tv_nsec.toInt := by
      have hcast : ((ms (.nanosleep req)).toNat : ℚ) = (whole (.nanosleep req) : Int) := by
        exact_mod_cast heq
      rw [← hdiv, hcast, hwhole]
      simp only [duration]
      push_cast
      exact add_le_add_iff_left _
    constructor
    · intro hfull
      obtain ⟨heq, -, hle⟩ := hfull
      exact ⟨(hlong heq).mp hle, by rw [← hwhole]; exact hms.mp heq⟩
    · intro hmeet
      obtain ⟨hdvd, hlt⟩ := hmeet
      have heq := hms.mpr (by rw [hwhole]; exact hlt)
      exact ⟨heq, by omega, (hlong heq).mpr hdvd⟩

/-- One second. -/
theorem inFull_sleep : (sleep 1).InFull (Timer.new 0 : Timer Nat) 1 7 100 :=
  (inFull_iff (Timer.new 0) 1 7 100 (.sleep 1) trivial (by decide)).mpr
    (show (1 : UInt32).toNat * 1000 < 2 ^ 32 by decide)

/-- 4294968 seconds end after 704 ms, half a millisecond at once; 2147484 seconds of `nanosleep`
are a negative `int`. -/
theorem cut_short :
    (ms (.sleep 4294968) = 704 ∧ ¬ (sleep 4294968).InFull (Timer.new 0 : Timer Nat) 1 7 100) ∧
    (ms (.usleep 500) = 0 ∧ ¬ (usleep 500).InFull (Timer.new 0 : Timer Nat) 1 7 100) ∧
    ¬ (nanosleep ⟨2147484, 0⟩).InFull (Timer.new 0 : Timer Nat) 1 7 100 := by
  simp only [inFull_iff_ms]
  refine ⟨⟨by decide, ?_⟩, ⟨by decide, ?_⟩, ?_⟩
  · intro h
    exact absurd h.1 (by decide)
  · intro h
    have hzero : (ms (.usleep 500)).toNat = 0 := by decide
    have hhalf : (500 : UInt32).toNat = 500 := rfl
    have hle := h.2.2
    rw [hzero] at hle
    simp only [duration, hhalf] at hle
    norm_num at hle
  · intro h
    exact absurd h.1 (by decide)

end SleepCall
end Ppcode
