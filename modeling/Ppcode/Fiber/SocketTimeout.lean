import Mathlib.Data.Rat.Floor
import Ppcode.Fiber.DoIo
import Ppcode.Fiber.FailedCalls
import Ppcode.Fiber.Timer

/-!
# From `SO_RCVTIMEO` to the timer of `do_io`

`setsockopt` notes a time-out in the `FdCtx`, in milliseconds, and `do_io` starts a
timer with it when it has to wait, unless it is -1. To the kernel a `timeval` of
{0, 0} means no time-out.

* `keepsMeaning_iff`: after any calls of `setsockopt` on a managed blocking socket
  `do_io` waits as long as the last `timeval` of its direction says, exactly when
  what was noted, rounded down, is what was set, rounded up, where {0, 0} is
  nothing.
* `meets_hooked`: if every call is hooked, that is when no `timeval` that counts is
  {0, 0} or has a fraction of a millisecond.
* `gives_up_at_once`: after {0, 0} a wait has a timer that is due at once.
-/
namespace Ppcode

/-- One successful call at the level `SOL_SOCKET`. -/
structure TimeoutCall where
  hooked : Bool
  optname : TimeoutType
  optval : Timeval
  deriving DecidableEq, Repr

/-- What the kernel accepts, up to 2^40 seconds. -/
def Timeval.Accepted (v : Timeval) : Prop :=
  0 ≤ v.tv_sec.toInt ∧ v.tv_sec.toInt ≤ 2 ^ 40 ∧ 0 ≤ v.tv_usec.toInt ∧ v.tv_usec.toInt < 10 ^ 6

instance (v : Timeval) : Decidable v.Accepted := inferInstanceAs (Decidable (_ ∧ _ ∧ _ ∧ _))

/-- In milliseconds. -/
def Timeval.exact (v : Timeval) : ℚ := v.tv_sec.toInt * 1000 + v.tv_usec.toInt / 1000

def Timeval.floor (v : Timeval) : Int := v.tv_sec.toInt * 1000 + v.tv_usec.toInt / 1000

def Timeval.ceil (v : Timeval) : Int := v.tv_sec.toInt * 1000 + (v.tv_usec.toInt + 999) / 1000

namespace TimeoutCall

/-- The last `timeval` that was set for a direction. -/
def lastSet (type : TimeoutType) (cs : List TimeoutCall) : Option Timeval :=
  ((cs.filter fun c => c.optname = type).getLast?).map (·.optval)

/-- The last one that the hook has seen. -/
def lastNoted (type : TimeoutType) (cs : List TimeoutCall) : Option Timeval :=
  lastSet type (cs.filter (·.hooked))

/-- The time-out that is asked for. -/
def wanted (type : TimeoutType) (cs : List TimeoutCall) : Option Timeval :=
  (lastSet type cs).filter (· ≠ ⟨0, 0⟩)

/-- For both directions, the whole milliseconds noted are those that were asked for. -/
def Meets (cs : List TimeoutCall) : Prop :=
  ∀ type, (lastNoted type cs).map Timeval.floor = (wanted type cs).map Timeval.ceil

end TimeoutCall

namespace FdManager

/-- The calls on one fd, all of which succeed. -/
def setTimeouts (depth : Nat) (fd : Nat) : FdManager → List TimeoutCall → Option FdManager
  | w, [] => some w
  | w, c :: cs => do
    let r ← w.setsockopt depth c.hooked fd c.optname (some c.optval) true
    setTimeouts depth fd r.1 cs

end FdManager

namespace DoIo
variable {F W : Type}

/-- The timer for a wait; `ms` is the `to` that was read from the `FdCtx`.
mirrors src/fiber/hook.cc:75-87 -/
def createTimer (ms : UInt64) (t : Timer (Callback F W)) (a : Nat) (cb : F) (winfo : W)
    (now : UInt64) : Option (Timer (Callback F W) × Bool) :=
  if ms != -1 then some (t.createCondTimer a (some cb) winfo ms false now) else none

/-- One call of `do_io` keeps the time-out `wanted`: without one it never has a timer, with one
every wait has a timer, whose period is the time-out or less than 1 ms more. -/
structure Honours (ctx : FdCtx) (type : TimeoutType) (wanted : Option Timeval) : Prop where
  forever : wanted = none → ∀ errno acts s,
    LTS.exec step (enter true (some ctx) type errno) acts = some s → s.armed = false
  armed : wanted ≠ none → ∀ errno acts s,
    LTS.exec step (enter true (some ctx) type errno) acts = some s →
    ⟨-1, EAGAIN⟩ ∈ s.outcomes → s.armed = true
  period : ∀ v, wanted = some v → ∀ (t : Timer (Callback Nat Nat)) a cb winfo now,
    ∃ t' front task, createTimer (ctx.getTimeout type) t a cb winfo now = some (t', front) ∧
      t'.mem a = some task ∧ v.exact ≤ task.m_ms.toNat ∧ task.m_ms.toNat < v.exact + 1

end DoIo

open TimeoutCall FdManager

/-- After the calls every call of `do_io` keeps the time-out of its direction, and no call has
changed that of the other. -/
structure KeepsMeaning (depth : Nat) (w : FdManager) (fd : Nat) (cs : List TimeoutCall) : Prop where
  honours : ∃ w' ctx, w.setTimeouts depth fd cs = some w' ∧ w'.entry fd = some ctx ∧
    ∀ type, DoIo.Honours ctx type (wanted type cs)
  separate : ∀ pre c w₁ w₂ ctx₁ ctx₂, pre ++ [c] <+: cs →
    w.setTimeouts depth fd pre = some w₁ → w.setTimeouts depth fd (pre ++ [c]) = some w₂ →
    w₁.entry fd = some ctx₁ → w₂.entry fd = some ctx₂ →
    ∀ type, type ≠ c.optname → ctx₂.getTimeout type = ctx₁.getTimeout type

/-! ## Milliseconds -/

theorem Timeval.ms_toNat {v : Timeval} (h : v.Accepted) : (v.ms.toNat : Int) = v.floor := by
  obtain ⟨hs, hs', hu, hu'⟩ := h
  have hk : (1000 : Int64).toInt = 1000 := rfl
  have hmul : (v.tv_sec * 1000).toInt = v.tv_sec.toInt * 1000 := by
    rw [Int64.toInt_mul, hk, Int.bmod_eq_of_le (by omega) (by omega)]
  have hdiv : (v.tv_usec / 1000).toInt = v.tv_usec.toInt / 1000 := by
    rw [Int64.toInt_div_of_ne_right _ _ (by decide), hk, Int.tdiv_eq_ediv_of_nonneg hu]
  have hsum : (v.tv_sec * 1000 + v.tv_usec / 1000).toInt = v.floor := by
    rw [Int64.toInt_add, hmul, hdiv, Int.bmod_eq_of_le (by omega) (by omega)]
    rfl
  have hnonneg : 0 ≤ v.floor := by
    simp only [floor]
    omega
  have hle : 0 ≤ v.tv_sec * 1000 + v.tv_usec / 1000 := by
    rw [Int64.le_iff_toInt_le, hsum]
    exact hnonneg
  unfold ms
  rw [Int64.toNat_toUInt64_of_le hle, Int64.toNatClampNeg, hsum]
  omega

/-- It is far from the number that stands for no time-out. -/
theorem Timeval.ms_ne {v : Timeval} (h : v.Accepted) : v.ms ≠ -1 := by
  intro heq
  have hms := ms_toNat h
  have hneg : (-1 : UInt64).toNat = 2 ^ 64 - 1 := rfl
  obtain ⟨hs, hs', hu, hu'⟩ := h
  rw [heq, hneg] at hms
  simp only [floor] at hms
  omega

/-- The milliseconds that are enough and less than 1 ms more. -/
theorem Timeval.ceil_iff (v : Timeval) (n : Int) :
    v.exact ≤ n ∧ (n : ℚ) < v.exact + 1 ↔ n = v.ceil := by
  have hk : (0 : ℚ) < 1000 := by norm_num
  have hle : v.exact ≤ n ↔ v.tv_sec.toInt * 1000 * 1000 + v.tv_usec.toInt ≤ n * 1000 := by
    rw [← Int.cast_le (R := ℚ), ← mul_le_mul_iff_left₀ hk]
    simp only [exact]
    push_cast
    rw [add_mul, div_mul_cancel₀ _ hk.ne']
  have hlt : (n : ℚ) < v.exact + 1 ↔
      n * 1000 < v.tv_sec.toInt * 1000 * 1000 + v.tv_usec.toInt + 1000 := by
    rw [← Int.cast_lt (R := ℚ), ← mul_lt_mul_iff_left₀ hk]
    simp only [exact]
    push_cast
    rw [add_mul, add_mul, div_mul_cancel₀ _ hk.ne', one_mul]
  rw [hle, hlt]
  simp only [ceil]
  omega

/-! ## One call of `do_io` -/

namespace DoIo

/-- A call at any of its points; `b` is whether it is `timed`. -/
structure Arms (b : Bool) (s : DoIo) : Prop where
  managed : s.pc ≠ .direct
  timed : s.timed = b
  armed : s.armed = true → b = true
  waits : ⟨-1, EAGAIN⟩ ∈ s.outcomes → s.armed = b

theorem arms_step {b : Bool} {s s' : DoIo} {a : Act} (h : s.Arms b)
    (hst : s.step a = some s') : s'.Arms b := by
  cases a with
  | call n errno =>
    simp only [step] at hst
    split at hst
    · next hpc => exact absurd hpc h.managed
    · next hpc =>
      -- an outcome that is no wait
      have hother (pc : Pc) (hn : pc ≠ .direct)
          (hne : ¬ (n = -1 ∧ (s.called n errno).errno = EAGAIN)) :
          Arms b { s.called n errno with pc := pc } := by
        refine ⟨hn, h.timed, h.armed, fun hin => ?_⟩
        rcases List.mem_append.mp hin with hin | hin
        · exact h.waits hin
        · rw [List.mem_singleton, Outcome.mk.injEq] at hin
          exact absurd ⟨hin.1.symm, hin.2.symm⟩ hne
      split at hst
      · next hone =>
        cases hst
        exact hother s.pc h.managed fun hneg => by omega
      · split at hst
        · cases hst
          have harm : (s.armed || s.timed) = b := by
            rw [h.timed, Bool.or_eq_right_iff_imp]
            exact h.armed
          exact ⟨by simp, h.timed, fun ha => harm.symm.trans ha, fun _ => harm⟩
        · next hne =>
          cases hst
          exact hother (.done n false) (by simp) hne
    · cases hst
  | addEvent failed =>
    simp only [step] at hst
    split at hst
    · split at hst <;> cases hst <;> exact ⟨by simp, h.timed, h.armed, h.waits⟩
    · cases hst
  | timer =>
    rw [step_timer hst]
    exact ⟨h.managed, h.timed, h.armed, h.waits⟩
  | resume errno =>
    simp only [step] at hst
    split at hst
    · split at hst <;> cases hst <;> exact ⟨by simp, h.timed, h.armed, h.waits⟩
    · cases hst

theorem arms_run {ctx : FdCtx} (h : ctx.ManagedBlocking) {type : TimeoutType} {errno : Int}
    {acts : List Act} {s : DoIo}
    (hrun : LTS.exec step (enter true (some ctx) type errno) acts = some s) :
    s.Arms (ctx.getTimeout type != -1) := by
  rw [enter_managed h] at hrun
  have hrun := @LTS.run_of_exec _ _ (fun _ => True) _ _ _ _ hrun
  refine hrun.invariant (I := Arms _) (fun _ _ _ hi hst => arms_step hi hst) ⟨?_, rfl, ?_, ?_⟩
  · simp
  · simp
  · simp

/-- The first call of `fun` has to wait. -/
theorem run_wait {ctx : FdCtx} (h : ctx.ManagedBlocking) (type : TimeoutType) (errno : Int) :
    LTS.exec step (enter true (some ctx) type errno) [.call (-1) EAGAIN] =
      some ⟨ctx.getTimeout type != -1, .addEvent, EAGAIN, ctx.getTimeout type != -1, false,
        [⟨-1, EAGAIN⟩]⟩ := by
  rw [enter_managed h]
  simp [LTS.exec, step, called]

/-- What was noted, against what is wanted. -/
theorem honours_iff {ctx : FdCtx} (h : ctx.ManagedBlocking) (type : TimeoutType)
    (noted wanted : Option Timeval) (hacc : ∀ v, noted = some v → v.Accepted)
    (hto : ctx.getTimeout type = noted.elim (-1) Timeval.ms) :
    Honours ctx type wanted ↔ noted.map Timeval.floor = wanted.map Timeval.ceil := by
  cases noted with
  | none =>
    have htimed : (ctx.getTimeout type != -1) = false := by simp [hto]
    cases wanted with
    | none =>
      refine iff_of_true ⟨fun _ errno acts s hrun => ?_, fun hne => absurd rfl hne, nofun⟩ rfl
      have harms := (arms_run h hrun).armed
      rw [htimed] at harms
      exact Bool.eq_false_iff.mpr fun ha => absurd (harms ha) (by decide)
    | some v =>
      refine iff_of_false (fun hhon => ?_) nofun
      obtain ⟨t', front, task, hmade, -⟩ := hhon.period v rfl (Timer.new 0) 0 0 0 0
      simp [createTimer, htimed] at hmade
  | some n =>
    have hn := hacc n rfl
    have hms : ctx.getTimeout type = n.ms := hto
    have htimed : (ctx.getTimeout type != -1) = true := by simp [hms, Timeval.ms_ne hn]
    cases wanted with
    | none =>
      refine iff_of_false (fun hhon => ?_) nofun
      have harmed := hhon.forever rfl 0 _ _ (run_wait h type 0)
      simp only [htimed] at harmed
      cases harmed
    | some v =>
      have hceil := v.ceil_iff n.floor
      have hcast : ((n.ms.toNat : Nat) : ℚ) = (n.floor : Int) := by
        exact_mod_cast congrArg (Int.cast (R := ℚ)) (Timeval.ms_toNat hn)
      simp only [Option.map_some, Option.some.injEq]
      rw [← hceil, ← hcast]
      constructor
      · intro hhon
        obtain ⟨t', front, task, hmade, hmem, hlong⟩ := hhon.period v rfl (Timer.new 0) 0 0 0 0
        rw [createTimer, if_pos htimed, Option.some.injEq, hms] at hmade
        have hnew := Timer.createTimer_mem (Timer.new 0) 0
          (some (Callback.taskCond (F := Nat) (W := Nat) 0 (some 0))) n.ms 0
        rw [show t' = _ from (congrArg Prod.fst hmade).symm] at hmem
        cases hnew.symm.trans hmem
        exact hlong
      · intro hlong
        refine ⟨nofun, fun _ errno acts s hrun hin => ?_, fun v' hv t a cb winfo now => ?_⟩
        · exact ((arms_run h hrun).waits hin).trans htimed
        · cases hv
          refine ⟨_, _, _, if_pos htimed, Timer.createTimer_mem .., ?_⟩
          rw [hms]
          exact hlong

end DoIo

/-! ## The calls of `setsockopt` -/

namespace TimeoutCall

/-- What a call does to the `FdCtx`. -/
def note (ctx : FdCtx) (c : TimeoutCall) : FdCtx :=
  if c.hooked then ctx.setTimeout c.optname c.optval.ms else ctx

theorem lastSet_concat (type : TimeoutType) (cs : List TimeoutCall) (c : TimeoutCall) :
    lastSet type (cs ++ [c]) = if c.optname = type then some c.optval else lastSet type cs := by
  unfold lastSet
  rw [List.filter_append]
  by_cases h : c.optname = type
  · simp [h]
  · simp [h]

theorem lastNoted_concat (type : TimeoutType) (cs : List TimeoutCall) (c : TimeoutCall) :
    lastNoted type (cs ++ [c]) =
      if c.hooked ∧ c.optname = type then some c.optval else lastNoted type cs := by
  unfold lastNoted
  rw [List.filter_append]
  cases h : c.hooked with
  | true => simp [h, lastSet_concat]
  | false => simp [h]

theorem note_other (ctx : FdCtx) (c : TimeoutCall) {type : TimeoutType} (h : type ≠ c.optname) :
    (note ctx c).getTimeout type = ctx.getTimeout type := by
  obtain ⟨hooked, optname, v⟩ := c
  cases hooked with
  | false => rfl
  | true => cases type <;> cases optname <;> first | rfl | exact absurd rfl h

theorem note_getTimeout (ctx : FdCtx) (cs : List TimeoutCall) (type : TimeoutType) :
    (cs.foldl note ctx).getTimeout type =
      (lastNoted type cs).elim (ctx.getTimeout type) Timeval.ms := by
  induction cs using List.reverseRecOn with
  | nil => rfl
  | append_singleton cs c ih =>
    rw [List.foldl_append, lastNoted_concat]
    by_cases h : c.optname = type
    · subst h
      cases hh : c.hooked with
      | false => simp [note, hh, ih]
      | true => cases ho : c.optname <;> simp [note, hh, ho, FdCtx.setTimeout, FdCtx.getTimeout]
    · rw [if_neg fun hand => h hand.2, ← ih]
      exact note_other _ c fun heq => h heq.symm

theorem note_managed {ctx : FdCtx} (h : ctx.ManagedBlocking) (cs : List TimeoutCall) :
    (cs.foldl note ctx).ManagedBlocking := by
  induction cs generalizing ctx with
  | nil => exact h
  | cons c cs ih =>
    apply ih
    obtain ⟨hooked, optname, v⟩ := c
    cases hooked <;> cases optname <;> exact h

end TimeoutCall

namespace FdManager

theorem setsockopt_ok {w : FdManager} {fd : Nat} {ctx : FdCtx} (d : Nat) (c : TimeoutCall)
    (hent : w.entry fd = some ctx) (hopen : (w.files fd).isSome) :
    ∃ w', w.setsockopt (d + 1) c.hooked fd c.optname (some c.optval) true = some (w', 0) ∧
      w'.entry fd = some (note ctx c) ∧ w'.files = w.files := by
  have hok (w' : FdManager) (hf : w'.files = w.files) : w'.setsockopt_f fd true = (w', 0) := by
    simp [setsockopt_f, hf, hopen]
  cases hh : c.hooked with
  | false =>
    refine ⟨w, ?_, by simp [note, hh, hent], rfl⟩
    simp [setsockopt, hok w rfl]
  | true =>
    refine ⟨w.setEntry fd (some (ctx.setTimeout c.optname c.optval.ms)), ?_, ?_, rfl⟩
    · simp only [setsockopt, get_read (lt_of_entry hent), hent, Bool.not_true,
        Bool.false_eq_true, if_false, Option.bind_eq_bind, Option.bind_some]
      exact congrArg some (hok _ rfl)
    · rw [setEntry_entry_self _ (lt_of_entry hent)]
      simp [note, hh]

theorem setTimeouts_run (d fd : Nat) (cs : List TimeoutCall) {w : FdManager} {ctx : FdCtx}
    (hent : w.entry fd = some ctx) (hopen : (w.files fd).isSome) :
    ∃ w', w.setTimeouts (d + 1) fd cs = some w' ∧ w'.entry fd = some (cs.foldl note ctx) := by
  induction cs generalizing w ctx with
  | nil => exact ⟨w, rfl, hent⟩
  | cons c cs ih =>
    obtain ⟨w₁, hset, hent₁, hfiles⟩ := setsockopt_ok d c hent hopen
    obtain ⟨w', hrun, hent'⟩ := ih hent₁ (by rw [hfiles]; exact hopen)
    refine ⟨w', ?_, hent'⟩
    simp only [setTimeouts, hset, Option.bind_eq_bind, Option.bind_some]
    exact hrun

end FdManager

section Socket
variable {d fd : Nat} {w : FdManager} {ctx : FdCtx} {cs : List TimeoutCall}

theorem accepted_of_noted (hvals : ∀ c ∈ cs, c.optval.Accepted) (type : TimeoutType) (v : Timeval)
    (h : lastNoted type cs = some v) : v.Accepted := by
  obtain ⟨c, hc, rfl⟩ := Option.map_eq_some_iff.mp h
  have hin := List.mem_of_getLast? hc
  exact hvals c (List.mem_of_mem_filter (List.mem_of_mem_filter hin))

/-- Both directions, in the `FdCtx` that the calls leave. -/
theorem honours_noted (hctx : ctx.ManagedBlocking) (hnone : ∀ type, ctx.getTimeout type = -1)
    (hvals : ∀ c ∈ cs, c.optval.Accepted) (type : TimeoutType) :
    DoIo.Honours (cs.foldl note ctx) type (wanted type cs) ↔
      (lastNoted type cs).map Timeval.floor = (wanted type cs).map Timeval.ceil := by
  refine DoIo.honours_iff (note_managed hctx cs) type (lastNoted type cs) (wanted type cs)
    (accepted_of_noted hvals type) ?_
  rw [note_getTimeout, hnone]

theorem honours_of_keepsMeaning (hent : w.entry fd = some ctx) (hopen : (w.files fd).isSome)
    (h : KeepsMeaning (d + 1) w fd cs) (type : TimeoutType) :
    DoIo.Honours (cs.foldl note ctx) type (wanted type cs) := by
  obtain ⟨w', hrun, hent'⟩ := setTimeouts_run d fd cs hent hopen
  obtain ⟨w'', ctx', hrun', hctx', hall⟩ := h.honours
  cases hrun.symm.trans hrun'
  cases hent'.symm.trans hctx'
  exact hall type

/-- Where all calls are hooked. -/
theorem meets_hooked (hhook : ∀ c ∈ cs, c.hooked) (hvals : ∀ c ∈ cs, c.optval.Accepted) :
    TimeoutCall.Meets cs ↔
      ∀ type v, lastSet type cs = some v → v ≠ ⟨0, 0⟩ ∧ 1000 ∣ v.tv_usec.toInt := by
  have hall (type : TimeoutType) : lastNoted type cs = lastSet type cs := by
    rw [lastNoted, List.filter_eq_self.mpr hhook]
  refine forall_congr' fun type => ?_
  have hacc := accepted_of_noted hvals type
  rw [wanted, hall] at *
  cases hlast : lastSet type cs with
  | none => simp
  | some v =>
    obtain ⟨hs, hs', hu, hu'⟩ := hacc v hlast
    by_cases hzero : v = ⟨0, 0⟩
    · simp [hzero]
    · have hround : v.ceil = v.floor ↔ 1000 ∣ v.tv_usec.toInt := by
        simp only [Timeval.floor, Timeval.ceil]
        omega
      simp [hzero, hround]

end Socket

/-- The time-outs of a managed blocking socket, none of which is set yet, keep their meaning over
any calls exactly when these meet the condition. -/
theorem keepsMeaning_iff (d : Nat) (w : FdManager) (fd : Nat) (ctx : FdCtx)
    (cs : List TimeoutCall) (hent : w.entry fd = some ctx) (hopen : (w.files fd).isSome)
    (hctx : ctx.ManagedBlocking) (hnone : ∀ type, ctx.getTimeout type = -1)
    (hvals : ∀ c ∈ cs, c.optval.Accepted) :
    KeepsMeaning (d + 1) w fd cs ↔ TimeoutCall.Meets cs := by
  constructor
  · intro h type
    exact (honours_noted hctx hnone hvals type).mp (honours_of_keepsMeaning hent hopen h type)
  · intro h
    obtain ⟨w', hrun, hent'⟩ := setTimeouts_run d fd cs hent hopen
    have hall (type : TimeoutType) := (honours_noted hctx hnone hvals type).mpr (h type)
    refine ⟨⟨w', _, hrun, hent', hall⟩, ?_⟩
    intro pre c w₁ w₂ ctx₁ ctx₂ _ hrun₁ hrun₂ hent₁ hent₂ type hother
    obtain ⟨w₁', hpre, hctx₁⟩ := setTimeouts_run d fd pre hent hopen
    obtain ⟨w₂', hpost, hctx₂⟩ := setTimeouts_run d fd (pre ++ [c]) hent hopen
    cases hpre.symm.trans hrun₁
    cases hpost.symm.trans hrun₂
    cases hctx₁.symm.trans hent₁
    cases hctx₂.symm.trans hent₂
    rw [List.foldl_append]
    exact note_other _ c hother

/-- A new socket at fd 3. -/
def newSocket : FdManager :=
  (FdManager.new fun _ => some ⟨true, 0, O_NONBLOCK⟩).setEntry 3 (some (.fresh 3 true))

theorem newSocket_entry : newSocket.entry 3 = some (.fresh 3 true) :=
  setEntry_entry_self _ (by simp [new])

/-- Five seconds to receive and one and a half to send. -/
theorem keepsMeaning_whole :
    KeepsMeaning 1 newSocket 3 [⟨true, .recv, ⟨5, 0⟩⟩, ⟨true, .send, ⟨1, 500000⟩⟩] :=
  (keepsMeaning_iff 0 newSocket 3 (.fresh 3 true) _ newSocket_entry rfl ⟨rfl, rfl, rfl⟩
    (fun type => by cases type <;> rfl)
    (fun c hc => by
      simp only [List.mem_cons, List.not_mem_nil, or_false] at hc
      rcases hc with rfl | rfl <;> decide)).mpr fun type => by cases type <;> decide

/-- A time-out of 5 s is taken back with {0, 0}, and a wait gets a timer without a delay. One of
500 us is no time at all. -/
theorem gives_up_at_once :
    (([⟨true, .recv, ⟨5, 0⟩⟩, ⟨true, .recv, ⟨0, 0⟩⟩] : List TimeoutCall).foldl note
      (.fresh 3 true)).getTimeout .recv = 0 ∧
    ¬ KeepsMeaning 1 newSocket 3 [⟨true, .recv, ⟨5, 0⟩⟩, ⟨true, .recv, ⟨0, 0⟩⟩] ∧
    ¬ KeepsMeaning 1 newSocket 3 [⟨true, .send, ⟨0, 500⟩⟩] := by
  have hvals (cs : List TimeoutCall) (hcs : cs.all fun c => decide c.optval.Accepted) :
      ∀ c ∈ cs, c.optval.Accepted := by simpa using hcs
  have hfresh : ∀ type, (FdCtx.fresh 3 true).getTimeout type = -1 := by
    intro type
    cases type <;> rfl
  refine ⟨by decide, fun h => ?_, fun h => ?_⟩
  · have hrecv := honours_of_keepsMeaning newSocket_entry rfl h .recv
    rw [honours_noted ⟨rfl, rfl, rfl⟩ hfresh (hvals _ (by decide))] at hrecv
    exact absurd hrecv (by decide)
  · have hsend := honours_of_keepsMeaning newSocket_entry rfl h .send
    rw [honours_noted ⟨rfl, rfl, rfl⟩ hfresh (hvals _ (by decide))] at hsend
    exact absurd hsend (by decide)

end Ppcode
