import Ppcode.Core.LTS
import Ppcode.Fiber.FdManager

/-!
# No successful transfer is lost in `do_io`

One call of `do_io`: what the calls of `fun` return and what `errno` is after them
(a call that succeeds leaves it alone), whether `addEvent` fails, when the timer
runs and when the fiber is resumed are labels. While the fiber sleeps others run on
its thread, so `errno` may be anything when it wakes.

`Law`: `fun` is called again after -1 with `EINTR` or `EAGAIN` and at no other
time; what the last call returns is what `do_io` returns, unless it ends with -1
for the wait.

* `doIo_law_iff`: that holds all along a call on a managed blocking socket exactly when
  no call of `fun` is interrupted and none transfers one byte while `errno` is
  `EINTR` from before (`Meets`): the inner loop tests `n == 1` instead of `n == -1`.
* `byte_lost`: a byte is read and thrown away.
-/
namespace Ppcode

/-- A socket that is not closed and that the user wants to block. -/
def FdCtx.ManagedBlocking (ctx : FdCtx) : Prop :=
  ctx.m_isClosed = false ∧ ctx.m_isSocket = true ∧ ctx.m_userNonblock = false

def EINTR : Int := 4
def EBADF : Int := 9
def EAGAIN : Int := 11
def ETIMEDOUT : Int := 110

/-- What a call returned, and `errno` after it. -/
structure Outcome where
  n : Int
  errno : Int
  deriving DecidableEq, Repr

/-- The call was interrupted, or has to wait. -/
def Outcome.Again (o : Outcome) : Prop := o.n = -1 ∧ (o.errno = EINTR ∨ o.errno = EAGAIN)

namespace DoIo

/-- `direct`: the hook only passes the call on. `waited`: `do_io` ended for the wait, which timed
out or could not be registered. -/
inductive Pc where
  | direct
  | call
  | addEvent
  | suspended
  | done (n : Int) (waited : Bool)
  deriving DecidableEq, Repr

end DoIo

/-- `timed`: `to` is not -1. `armed`: a timer was created. `outcomes` are those of `fun`. -/
structure DoIo where
  timed : Bool
  pc : DoIo.Pc
  errno : Int
  armed : Bool
  canclelled : Bool
  outcomes : List Outcome
  deriving DecidableEq, Repr

namespace DoIo

/-- `errno` of a call counts when `n` is -1; `failed` is the `errno` of an `addEvent` that fails;
`resume` has the `errno` that the fiber finds. -/
inductive Act where
  | call (n errno : Int)
  | addEvent (failed : Option Int)
  | timer
  | resume (errno : Int)
  deriving DecidableEq, Repr

/-- mirrors src/fiber/hook.cc:34-58 -/
def enter (hooked : Bool) (fd_ctx : Option FdCtx) (timeout : TimeoutType) (errno : Int) : DoIo :=
  let s : DoIo := ⟨false, .direct, errno, false, false, []⟩
  if !hooked then s
  else match fd_ctx with
    | none => s
    | some ctx =>
      if ctx.m_isClosed then { s with errno := EBADF, pc := .done (-1) false }
      else if !ctx.m_isSocket || ctx.m_userNonblock then s
      else { s with timed := ctx.getTimeout timeout != -1, pc := .call }

/-- `fun` returns. -/
def called (s : DoIo) (n errno : Int) : DoIo :=
  let errno := if n = -1 then errno else s.errno
  { s with errno := errno, outcomes := s.outcomes ++ [⟨n, errno⟩] }

/-- mirrors src/fiber/hook.cc:60-113 -/
def step (s : DoIo) : Act → Option DoIo
  | .call n errno =>
    let s' := s.called n errno
    match s.pc with
    | .direct => some { s' with pc := .done n false }
    | .call =>
      if n = 1 ∧ s'.errno = EINTR then some s'
      else if n = -1 ∧ s'.errno = EAGAIN then
        some { s' with pc := .addEvent, armed := s.armed || s.timed }
      else some { s' with pc := .done n false }
    | _ => none
  | .addEvent failed =>
    if s.pc = .addEvent then
      match failed with
      | some errno => some { s with errno := errno, pc := .done (-1) true }
      | none => some { s with pc := .suspended }
    else none
  | .timer =>
    match s.pc with
    | .direct | .done .. => none
    -- the callback finds `tinfo`, which it looks at once
    | _ => if s.armed && !s.canclelled then some { s with canclelled := true } else none
  | .resume errno =>
    if s.pc = .suspended then
      if s.canclelled then some { s with errno := ETIMEDOUT, pc := .done (-1) true }
      else some { s with errno := errno, pc := .call }
    else none

/-- What `do_io` promises, at any point of a call. -/
structure Law (s : DoIo) : Prop where
  /-- `fun` was called again for a reason -/
  again : ∀ o ∈ s.outcomes.dropLast, o.Again
  /-- and will be -/
  next : s.pc = .call → ∀ o, s.outcomes.getLast? = some o → o.Again
  retries : ∀ o, s.outcomes.getLast? = some o → o.n = -1 → o.errno = EINTR → s.pc = .call
  returns : ∀ n, s.pc = .done n false → s.outcomes.getLast? = some ⟨n, s.errno⟩
  waited : ∀ n, s.pc = .done n true → n = -1
  /-- The caller gets what was transferred, -/
  transferred : ∀ o ∈ s.outcomes, 0 ≤ o.n → s.pc = .done o.n false
  /-- by one call. -/
  once : (s.outcomes.filter fun o => 0 ≤ o.n).length ≤ 1

/-- No call is interrupted, and none returns 1 while `errno` is `EINTR` from before. -/
def Meets (s : DoIo) : Act → Prop
  | .call n errno => ¬ (n = -1 ∧ errno = EINTR) ∧ ¬ (n = 1 ∧ s.errno = EINTR)
  | _ => True

instance (s : DoIo) : (a : Act) → Decidable (s.Meets a)
  | .call .. => inferInstanceAs (Decidable (¬ _ ∧ ¬ _))
  | .addEvent _ | .timer | .resume _ => inferInstanceAs (Decidable True)

/-- Whoever waits has been told to. -/
structure Inv (s : DoIo) : Prop where
  managed : s.pc ≠ .direct
  waits : s.pc = .addEvent ∨ s.pc = .suspended → s.outcomes.getLast? = some ⟨-1, EAGAIN⟩

/-! ## One call of `fun` -/

theorem mem_of_last {l : List Outcome} {o : Outcome} (h : o ∈ l) :
    o ∈ l.dropLast ∨ l.getLast? = some o := by
  induction l using List.reverseRecOn with
  | nil => cases h
  | append_singleton l o' =>
    rw [List.dropLast_concat, List.getLast?_concat, Option.some.injEq, eq_comm]
    exact (List.mem_append.mp h).imp_right List.mem_singleton.mp

/-- Before a call of `fun`, all calls so far have asked for another. -/
theorem Law.all_again {s : DoIo} (h : s.Law) (hpc : s.pc = .call) : ∀ o ∈ s.outcomes, o.Again :=
  fun o ho => (mem_of_last ho).elim (h.again o) (h.next hpc o)

theorem filter_of_again {l : List Outcome} (h : ∀ o ∈ l, o.Again) :
    l.filter (fun o => 0 ≤ o.n) = [] := by
  rw [List.filter_eq_nil_iff]
  intro o ho hn
  have hneg := (h o ho).1
  have hpos : 0 ≤ o.n := of_decide_eq_true hn
  omega

/-- The law after a call of `fun`, which all the earlier ones have asked for. -/
theorem law_called {s s' : DoIo} {o : Outcome} (hall : ∀ o ∈ s.outcomes, o.Again)
    (hout : s'.outcomes = s.outcomes ++ [o]) (hnext : s'.pc = .call → o.Again)
    (hretry : o.n = -1 → o.errno = EINTR → s'.pc = .call)
    (hret : ∀ n, s'.pc = .done n false → o = ⟨n, s'.errno⟩)
    (hwaited : ∀ n, s'.pc = .done n true → n = -1) (hn : 0 ≤ o.n → s'.pc = .done o.n false) :
    s'.Law := by
  have hlast (o' : Outcome) : s'.outcomes.getLast? = some o' ↔ o' = o := by
    rw [hout, List.getLast?_concat, Option.some.injEq, eq_comm]
  refine ⟨?_, ?_, ?_, ?_, hwaited, ?_, ?_⟩
  · rw [hout, List.dropLast_concat]
    exact hall
  · intro hpc o' ho'
    rw [(hlast o').mp ho']
    exact hnext hpc
  · intro o' ho'
    rw [(hlast o').mp ho']
    exact hretry
  · intro n hpc
    exact (hlast _).mpr (hret n hpc).symm
  · intro o' ho' hpos
    rw [hout, List.mem_append, List.mem_singleton] at ho'
    rcases ho' with ho' | rfl
    · have hneg := (hall o' ho').1
      omega
    · exact hn hpos
  · rw [hout, List.filter_append, filter_of_again hall, List.nil_append]
    exact (List.length_filter_le _ _).trans (Nat.le_refl _)

/-- A step that is no call of `fun` keeps the law. -/
theorem law_waiting {s s' : DoIo} (h : s.Law) (hlast : s.outcomes.getLast? = some ⟨-1, EAGAIN⟩)
    (hpc : ∀ n, s.pc ≠ .done n false) (hout : s'.outcomes = s.outcomes)
    (hdone : ∀ n w, s'.pc = .done n w → w = true ∧ n = -1) : s'.Law := by
  have hagain (o : Outcome) (ho : s.outcomes.getLast? = some o) : o.Again := by
    rw [hlast] at ho
    cases ho
    exact ⟨rfl, .inr rfl⟩
  refine ⟨by rw [hout]; exact h.again, ?_, ?_, ?_, ?_, ?_, by rw [hout]; exact h.once⟩
  · intro _ o ho
    rw [hout] at ho
    exact hagain o ho
  · intro o ho _ hintr
    rw [hout, hlast] at ho
    cases ho
    exact absurd hintr (by decide)
  · intro n hn
    exact absurd (hdone n false hn).1 (by decide)
  · intro n hn
    exact (hdone n true hn).2
  · intro o ho hn
    rw [hout] at ho
    exact absurd (h.transferred o ho hn) (hpc o.n)

/-- The timer's callback changes nothing that the law is about. -/
theorem law_canclelled {s : DoIo} (h : s.Law) : { s with canclelled := true }.Law :=
  ⟨h.again, h.next, h.retries, h.returns, h.waited, h.transferred, h.once⟩

/-! ## Runs -/

/-- What the timer may do. -/
theorem step_timer {s s' : DoIo} (hst : s.step .timer = some s') :
    s' = { s with canclelled := true } := by
  simp only [step] at hst
  split at hst
  · cases hst
  · cases hst
  · split at hst
    · cases hst
      rfl
    · cases hst

theorem inv_step {s s' : DoIo} {a : Act} (h : s.Inv) (hst : s.step a = some s') : s'.Inv := by
  cases a with
  | call n errno =>
    simp only [step] at hst
    split at hst
    · next hpc => exact absurd hpc h.managed
    · next hpc =>
      split at hst
      · cases hst
        exact ⟨by simp [called, hpc], by simp [called, hpc]⟩
      · split at hst
        · next hagain =>
          cases hst
          refine ⟨nofun, fun _ => ?_⟩
          obtain ⟨rfl, herrno⟩ := hagain
          simp only [called, if_true] at herrno ⊢
          rw [herrno, List.getLast?_concat]
        · cases hst
          exact ⟨nofun, by simp⟩
    · cases hst
  | addEvent failed =>
    simp only [step] at hst
    split at hst
    · next hpc =>
      have hlast := h.waits (.inl hpc)
      split at hst
      · cases hst
        exact ⟨nofun, by simp⟩
      · cases hst
        exact ⟨nofun, fun _ => hlast⟩
    · cases hst
  | timer =>
    rw [step_timer hst]
    exact ⟨h.managed, h.waits⟩
  | resume errno =>
    simp only [step] at hst
    split at hst
    · split at hst <;> cases hst <;> exact ⟨nofun, by simp⟩
    · cases hst

/-- A call of `fun` keeps the law exactly when it meets the condition. -/
theorem law_call {s s' : DoIo} {n errno : Int} (hi : s.Inv) (h : s.Law)
    (hst : s.step (.call n errno) = some s') : s'.Law ↔ s.Meets (.call n errno) := by
  simp only [step] at hst
  split at hst
  · next hpc => exact absurd hpc hi.managed
  · next hpc =>
    have hall := h.all_again hpc
    split at hst
    · next hone =>
      obtain ⟨rfl, hintr⟩ := hone
      cases hst
      refine iff_of_false (fun hlaw => ?_) (fun hmeet => hmeet.2 ⟨rfl, hintr⟩)
      have hneg : (1 : Int) = -1 := (hlaw.next hpc _ List.getLast?_concat).1
      exact absurd hneg (by decide)
    · next hone =>
      split at hst
      · next hagain =>
        obtain ⟨rfl, herrno⟩ := hagain
        cases hst
        have he : errno = EAGAIN := herrno
        refine iff_of_true (law_called hall rfl nofun ?_ nofun nofun ?_) ?_
        · intro _ hintr
          exact absurd (herrno.symm.trans hintr) (by decide)
        · intro hpos
          have hpos' : (0 : Int) ≤ -1 := hpos
          exact absurd hpos' (by decide)
        · rw [he]
          exact ⟨by decide, fun hone => absurd hone.1 (by decide)⟩
      · next hagain =>
        cases hst
        constructor
        · intro hlaw
          refine ⟨fun hintr => ?_, fun hstale => ?_⟩
          · obtain ⟨rfl, rfl⟩ := hintr
            have hpc' := hlaw.retries _ List.getLast?_concat rfl rfl
            cases hpc'
          · obtain ⟨rfl, hstale⟩ := hstale
            exact hone ⟨rfl, hstale⟩
        · intro hmeet
          refine law_called hall rfl nofun ?_ ?_ nofun fun _ => rfl
          · intro hn hintr
            simp only at hn hintr
            rw [if_pos hn] at hintr
            exact absurd ⟨hn, hintr⟩ hmeet.1
          · intro n' hn'
            cases hn'
            rfl
  · cases hst

theorem law_step {s s' : DoIo} {a : Act} (hi : s.Inv) (h : s.Law) (hst : s.step a = some s') :
    s'.Law ↔ s.Meets a := by
  cases a with
  | call n errno => exact law_call hi h hst
  | addEvent failed =>
    refine iff_of_true ?_ trivial
    simp only [step] at hst
    split at hst
    · next hpc =>
      have hlast := hi.waits (.inl hpc)
      have hnot (n : Int) : s.pc ≠ .done n false := by simp [hpc]
      split at hst
      · cases hst
        exact law_waiting h hlast hnot rfl fun n w hn => by cases hn; exact ⟨rfl, rfl⟩
      · cases hst
        exact law_waiting h hlast hnot rfl nofun
    · cases hst
  | timer =>
    rw [step_timer hst]
    exact iff_of_true (law_canclelled h) trivial
  | resume errno =>
    refine iff_of_true ?_ trivial
    simp only [step] at hst
    split at hst
    · next hpc =>
      have hlast := hi.waits (.inr hpc)
      have hnot (n : Int) : s.pc ≠ .done n false := by simp [hpc]
      split at hst
      · cases hst
        exact law_waiting h hlast hnot rfl fun n w hn => by cases hn; exact ⟨rfl, rfl⟩
      · cases hst
        exact law_waiting h hlast hnot rfl nofun
    · cases hst

/-- The law holds all along a call exactly when every step meets the condition. -/
theorem along_law {s : DoIo} {acts : List Act} (hi : s.Inv) (h : s.Law) :
    LTS.Along step Law s acts ↔ LTS.StepsMeet step Meets s acts :=
  LTS.along_iff (E := fun _ => True) (fun _ _ _ hi hst => inv_step hi hst)
    (fun _ _ _ hi hl _ hst => law_step hi hl hst) hi h fun _ _ => trivial

theorem enter_managed {ctx : FdCtx} (h : ctx.ManagedBlocking) (timeout : TimeoutType)
    (errno : Int) : enter true (some ctx) timeout errno =
      ⟨ctx.getTimeout timeout != -1, .call, errno, false, false, []⟩ := by
  obtain ⟨hopen, hsock, hblock⟩ := h
  simp [enter, hopen, hsock, hblock]

/-- `do_io` on a managed blocking socket discards no transfer, all along the call, exactly when no
call of `fun` is interrupted and none returns 1 while `errno` is `EINTR` from before. -/
theorem doIo_law_iff (ctx : FdCtx) (timeout : TimeoutType) (errno : Int) (acts : List Act)
    (h : ctx.ManagedBlocking) :
    LTS.Along step Law (enter true (some ctx) timeout errno) acts ↔
      LTS.StepsMeet step Meets (enter true (some ctx) timeout errno) acts := by
  rw [enter_managed h]
  refine along_law ⟨nofun, by simp⟩ ?_
  exact ⟨by simp, by simp, by simp, by simp, by simp, by simp, by simp⟩

/-- The first call has to wait, and a signal comes in its sleep; the second reads five bytes. -/
def inOnePiece : List Act := [.call (-1) EAGAIN, .addEvent none, .resume EINTR, .call 5 0]

theorem law_inOnePiece :
    (LTS.exec step (enter true (some (.fresh 3 true)) .recv 0) inOnePiece).map (·.pc) =
      some (.done 5 false) ∧
    LTS.Along step Law (enter true (some (.fresh 3 true)) .recv 0) inOnePiece := by
  have hmanaged : (FdCtx.fresh 3 true).ManagedBlocking := ⟨rfl, rfl, rfl⟩
  have hmeet : LTS.StepsMeet step Meets (enter true (some (.fresh 3 true)) .recv 0) inOnePiece :=
    LTS.stepsMeet_of_check (B := fun s a => decide (s.Meets a))
      (fun s a hb => of_decide_eq_true hb) (by decide)
  exact ⟨by decide, (doIo_law_iff _ .recv 0 inOnePiece hmanaged).mpr hmeet⟩

/-- An earlier call was interrupted. The first call reads one byte, the second five: the caller
never hears of the first. A call that is interrupted is not made again. -/
theorem byte_lost :
    (LTS.exec step (enter true (some (.fresh 3 true)) .recv EINTR) [.call 1 0, .call 5 0]).map
      (fun s => (s.pc, s.outcomes)) = some (.done 5 false, [⟨1, EINTR⟩, ⟨5, EINTR⟩]) ∧
    ¬ LTS.Along step Law (enter true (some (.fresh 3 true)) .recv EINTR) [.call 1 0, .call 5 0] ∧
    ¬ LTS.Along step Law (enter true (some (.fresh 3 true)) .recv 0) [.call (-1) EINTR] := by
  refine ⟨by decide, fun hall => ?_, fun hall => ?_⟩
  · have hrun : LTS.exec step (enter true (some (.fresh 3 true)) .recv EINTR)
        [.call 1 0, .call 5 0] =
        some ⟨false, .done 5 false, EINTR, false, false, [⟨1, EINTR⟩, ⟨5, EINTR⟩]⟩ := by decide
    exact absurd (hall.last hrun).once (by decide)
  · have hrun : LTS.exec step (enter true (some (.fresh 3 true)) .recv 0) [.call (-1) EINTR] =
        some ⟨false, .done (-1) false, EINTR, false, false, [⟨-1, EINTR⟩]⟩ := by decide
    have hpc := (hall.last hrun).retries ⟨-1, EINTR⟩ rfl rfl rfl
    cases hpc

end DoIo
end Ppcode
