import Ppcode.Fiber.DoIo

/-!
# When `connect` reports success

One call of `connect_with_timeout`: what `connect_f`, `addEvent` and the query of
`SO_ERROR` answer, and when the write event and the timer come, are labels. All
ways but the immediate ones end in the query, which answers 0 while the attempt is
still in progress.

`Law`: 0 is returned when `connect_f` returned it, or when the write event, and not
the timer, has resumed the fiber and `SO_ERROR` was 0; after a time-out it is -1
with `ETIMEDOUT`, and -1 after an `addEvent` that failed.

* `connect_law_iff`: that holds all along a call on a managed blocking socket exactly when
  the query by chance says what the call should (`Meets`); the `return -1` for the
  time-out is commented out, and there is none for `addEvent`.
* `connecting_reported`: a time-out that is reported as success.
-/
namespace Ppcode

def EINPROGRESS : Int := 115

namespace Connect

inductive Pc where
  | direct
  | call
  | addEvent
  | suspended
  | query
  | done (n : Int)
  deriving DecidableEq, Repr

/-- Who fired the callback that wakes the fiber. -/
inductive Waker where
  | event
  | timer
  deriving DecidableEq, Repr

end Connect

/-- `timed`: `timeout` is not -1. `armed`: the timer was created. `connected`: `connect_f` returned
0. `failed`: `addEvent` failed. `timedOut`: `canclelled` was set when the fiber went on. -/
structure Connect where
  timed : Bool
  pc : Connect.Pc
  errno : Int
  armed : Bool
  canclelled : Bool
  woken : Option Connect.Waker
  connected : Bool
  failed : Bool
  timedOut : Bool
  so_error : Option Int
  deriving DecidableEq, Repr

namespace Connect

/-- `errno` of `connect_f` counts when `n` is -1; the `failed` of `addEvent` and of `getsockopt` is
their `errno` when they fail; `cancelled` is whether the timer's `cancelEvent` succeeds; `resume` has
the `errno` that the fiber finds. -/
inductive Act where
  | connect_f (n errno : Int)
  | addEvent (failed : Option Int)
  | event
  | timer (cancelled : Bool)
  | resume (errno : Int)
  | getsockopt (failed : Option Int) (error : Int)
  deriving DecidableEq, Repr

/-- mirrors src/fiber/hook.cc:329-342 -/
def enter (sockfd : Int) (fd_ctx : Option FdCtx) (timeout : UInt64) (errno : Int) : Connect :=
  let s : Connect :=
    ⟨timeout != -1, .call, errno, false, false, none, false, false, false, none⟩
  if sockfd < 0 then { s with pc := .done (-1) }
  else match fd_ctx with
    | none => { s with errno := EBADF, pc := .done (-1) }
    | some ctx =>
      if ctx.m_isClosed then { s with errno := EBADF, pc := .done (-1) }
      else if !ctx.m_isSocket || ctx.m_userNonblock then { s with pc := .direct }
      else s

/-- `connect_f` returns. -/
def answered (s : Connect) (n errno : Int) : Connect :=
  { s with errno := if n = -1 then errno else s.errno, connected := n == 0 }

/-- mirrors src/fiber/hook.cc:343-407 -/
def step (s : Connect) : Act → Option Connect
  | .connect_f n errno =>
    let s' := s.answered n errno
    match s.pc with
    | .direct => some { s' with pc := .done n }
    | .call =>
      if n = 0 then some { s' with pc := .done 0 }
      else if n ≠ -1 ∨ s'.errno ≠ EINPROGRESS then some { s' with pc := .done n }
      else some { s' with pc := .addEvent, armed := s.timed }
    | _ => none
  | .addEvent failed =>
    if s.pc = .addEvent then
      match failed with
      | some errno => some { s with errno := errno, failed := true, pc := .query }
      | none => some { s with pc := .suspended }
    else none
  | .event =>
    if s.pc = .suspended ∧ s.woken = none then some { s with woken := some .event } else none
  | .timer cancelled =>
    match s.pc with
    | .direct | .done _ => none
    | _ =>
      if s.armed && !s.canclelled then
        -- `cancelEvent` fires the callback unless the event has
        let woken :=
          if s.pc = .suspended ∧ s.woken = none ∧ cancelled then some Waker.timer else s.woken
        some { s with canclelled := true, woken := woken }
      else none
  | .resume errno =>
    if s.pc = .suspended ∧ s.woken ≠ none then
      let errno := if s.canclelled then ETIMEDOUT else errno
      some { s with errno := errno, timedOut := s.canclelled, pc := .query }
    else none
  | .getsockopt failed error =>
    if s.pc = .query then
      match failed with
      | some errno => some { s with errno := errno, pc := .done (-1) }
      | none =>
        if error = 0 then some { s with so_error := some 0, pc := .done 0 }
        else some { s with so_error := some error, errno := error, pc := .done (-1) }
    else none

/-- What `connect` promises, at any point of a call. -/
structure Law (s : Connect) : Prop where
  success : s.pc = .done 0 → s.connected = true ∨
    s.woken = some .event ∧ s.timedOut = false ∧ s.so_error = some 0
  timedOut : s.timedOut = true → ∀ n, s.pc = .done n → n = -1 ∧ s.errno = ETIMEDOUT
  failed : s.failed = true → ∀ n, s.pc = .done n → n = -1

/-- The query does not answer 0 after an `addEvent` that failed, and it answers `ETIMEDOUT` after a
time-out. -/
def Meets (s : Connect) : Act → Prop
  | .getsockopt failed error =>
    (s.failed = true → failed.isSome ∨ error ≠ 0) ∧
      (s.timedOut = true → failed.getD error = ETIMEDOUT)
  | _ => True

instance (s : Connect) : (a : Act) → Decidable (s.Meets a)
  | .getsockopt .. => inferInstanceAs (Decidable ((_ → _) ∧ (_ → _)))
  | .connect_f .. | .addEvent _ | .event | .timer _ | .resume _ =>
    inferInstanceAs (Decidable True)

/-- How the query is reached. -/
structure Inv (s : Connect) : Prop where
  managed : s.pc ≠ .direct
  before : s.pc ≠ .query → (∀ n, s.pc ≠ .done n) → s.failed = false ∧ s.timedOut = false
  timer : s.woken = some .timer → s.canclelled = true
  query : s.pc = .query → s.failed = true ∨ s.timedOut = true ∨ s.woken = some .event

/-- A call on its way promises nothing yet. -/
theorem law_of_running {s : Connect} (h : ∀ n, s.pc ≠ .done n) : s.Law :=
  ⟨fun hpc => absurd hpc (h 0), fun _ n hpc => absurd hpc (h n), fun _ n hpc => absurd hpc (h n)⟩

/-- Where the immediate answer leads. -/
theorem step_connect_f {s s' : Connect} {n errno : Int} (hi : s.Inv)
    (hst : s.step (.connect_f n errno) = some s') : s.pc = .call ∧
      s'.failed = s.failed ∧ s'.timedOut = s.timedOut ∧ s'.woken = s.woken ∧
      s'.canclelled = s.canclelled ∧ s'.connected = (n == 0) ∧
      (s'.pc = .addEvent ∨ s'.pc = .done n) := by
  simp only [step] at hst
  split at hst
  · next hpc => exact absurd hpc hi.managed
  · next hpc =>
    refine ⟨hpc, ?_⟩
    split at hst
    · next h0 =>
      subst h0
      cases hst
      exact ⟨rfl, rfl, rfl, rfl, rfl, .inr rfl⟩
    · split at hst
      · cases hst
        exact ⟨rfl, rfl, rfl, rfl, rfl, .inr rfl⟩
      · cases hst
        exact ⟨rfl, rfl, rfl, rfl, rfl, .inl rfl⟩
  · cases hst

theorem step_timer {s s' : Connect} {cancelled : Bool}
    (hst : s.step (.timer cancelled) = some s') : (∀ n, s.pc ≠ .done n) ∧
      ∃ woken, s' = { s with canclelled := true, woken := woken } ∧
        (s.woken = some .event → woken = some .event) := by
  simp only [step] at hst
  split at hst
  · cases hst
  · cases hst
  · next _ hdone =>
    refine ⟨hdone, ?_⟩
    split at hst
    · cases hst
      refine ⟨_, rfl, fun hev => ?_⟩
      rw [if_neg (by simp [hev]), hev]
    · cases hst

theorem inv_step {s s' : Connect} {a : Act} (h : s.Inv) (hst : s.step a = some s') : s'.Inv := by
  cases a with
  | connect_f n errno =>
    obtain ⟨hpc, hf, ht, hw, hc, -, hpc'⟩ := step_connect_f h hst
    have hquiet := h.before (by simp [hpc]) (by simp [hpc])
    refine ⟨?_, fun _ _ => by rw [hf, ht]; exact hquiet, by rw [hw, hc]; exact h.timer, ?_⟩
    · rcases hpc' with hpc' | hpc' <;> simp [hpc']
    · rcases hpc' with hpc' | hpc' <;> simp [hpc']
  | addEvent failed =>
    simp only [step] at hst
    split at hst
    · next hpc =>
      have hquiet := h.before (by simp [hpc]) (by simp [hpc])
      split at hst
      · cases hst
        exact ⟨nofun, fun hq => absurd rfl hq, h.timer, fun _ => .inl rfl⟩
      · cases hst
        exact ⟨nofun, fun _ _ => hquiet, h.timer, nofun⟩
    · cases hst
  | event =>
    simp only [step] at hst
    split at hst
    · next hpc =>
      cases hst
      exact ⟨h.managed, h.before, nofun, fun hq => absurd (hpc.1.symm.trans hq) nofun⟩
    · cases hst
  | timer cancelled =>
    obtain ⟨-, woken, rfl, hev⟩ := step_timer hst
    exact ⟨h.managed, h.before, fun _ => rfl, fun hq =>
      (h.query hq).imp_right fun hq => hq.imp_right hev⟩
  | resume errno =>
    simp only [step] at hst
    split at hst
    · next hpc =>
      cases hst
      refine ⟨nofun, fun hq => absurd rfl hq, h.timer, fun _ => .inr ?_⟩
      cases hw : s.woken with
      | none => exact absurd hw hpc.2
      | some w =>
        cases w with
        | event => exact .inr rfl
        | timer => exact .inl (h.timer hw)
    · cases hst
  | getsockopt failed error =>
    simp only [step] at hst
    split at hst
    · split at hst
      · cases hst
        exact ⟨nofun, fun _ hd => absurd rfl (hd _), h.timer, nofun⟩
      · split at hst
        · cases hst
          exact ⟨nofun, fun _ hd => absurd rfl (hd _), h.timer, nofun⟩
        · cases hst
          exact ⟨nofun, fun _ hd => absurd rfl (hd _), h.timer, nofun⟩
    · cases hst

/-- The tail that all the ways share: it keeps the law exactly when it meets the condition. -/
theorem law_getsockopt {s s' : Connect} {failed : Option Int} {error : Int} (hi : s.Inv)
    (hst : s.step (.getsockopt failed error) = some s') :
    s'.Law ↔ s.Meets (.getsockopt failed error) := by
  simp only [step] at hst
  split at hst
  · next hpc =>
    split at hst
    · next errno =>
      cases hst
      constructor
      · intro hlaw
        exact ⟨fun _ => .inl rfl, fun ht => (hlaw.timedOut ht (-1) rfl).2⟩
      · intro hmeet
        refine ⟨nofun, fun ht n hn => ?_, fun _ n hn => ?_⟩
        · cases hn
          exact ⟨rfl, hmeet.2 ht⟩
        · cases hn
          rfl
    · split at hst
      · next h0 =>
        cases hst
        constructor
        · intro hlaw
          refine ⟨fun hf => ?_, fun ht => ?_⟩
          · exact absurd (hlaw.failed hf 0 rfl) (by decide)
          · exact absurd (hlaw.timedOut ht 0 rfl).1 (by decide)
        · intro hmeet
          have hfailed : s.failed ≠ true := fun hf =>
            (hmeet.1 hf).elim nofun fun hne => hne h0
          have htimed : s.timedOut ≠ true := fun ht =>
            absurd (h0.symm.trans (hmeet.2 ht)) (by decide)
          have hev := ((hi.query hpc).resolve_left hfailed).resolve_left htimed
          exact ⟨fun _ => .inr ⟨hev, Bool.eq_false_iff.mpr htimed, rfl⟩,
            fun ht => absurd ht htimed, fun hf => absurd hf hfailed⟩
      · next h0 =>
        cases hst
        constructor
        · intro hlaw
          exact ⟨fun _ => .inr h0, fun ht => (hlaw.timedOut ht (-1) rfl).2⟩
        · intro hmeet
          refine ⟨nofun, fun ht n hn => ?_, fun _ n hn => ?_⟩
          · cases hn
            exact ⟨rfl, hmeet.2 ht⟩
          · cases hn
            rfl
  · cases hst

theorem law_step {s s' : Connect} {a : Act} (hi : s.Inv) (hst : s.step a = some s') :
    s'.Law ↔ s.Meets a := by
  cases a with
  | connect_f n errno =>
    refine iff_of_true ?_ trivial
    obtain ⟨hpc, hf, ht, -, -, hconn, hpc'⟩ := step_connect_f hi hst
    have hquiet := hi.before (by simp [hpc]) (by simp [hpc])
    rcases hpc' with hpc' | hpc'
    · exact law_of_running (by simp [hpc'])
    · refine ⟨fun h0 => .inl ?_, fun h => ?_, fun h => ?_⟩
      · rw [hpc', Pc.done.injEq] at h0
        rw [hconn, h0]
        rfl
      · rw [ht, hquiet.2] at h
        cases h
      · rw [hf, hquiet.1] at h
        cases h
  | addEvent failed =>
    refine iff_of_true (law_of_running fun n => ?_) trivial
    simp only [step] at hst
    split at hst
    · split at hst <;> cases hst <;> simp
    · cases hst
  | event =>
    refine iff_of_true (law_of_running fun n => ?_) trivial
    simp only [step] at hst
    split at hst
    · next hpc =>
      cases hst
      simp [hpc.1]
    · cases hst
  | timer cancelled =>
    obtain ⟨hdone, woken, rfl, -⟩ := step_timer hst
    exact iff_of_true (law_of_running hdone) trivial
  | resume errno =>
    refine iff_of_true (law_of_running fun n => ?_) trivial
    simp only [step] at hst
    split at hst
    · cases hst
      simp
    · cases hst
  | getsockopt failed error => exact law_getsockopt hi hst

theorem enter_managed {ctx : FdCtx} (h : ctx.ManagedBlocking) {sockfd : Int} (hfd : 0 ≤ sockfd)
    (timeout : UInt64) (errno : Int) : enter sockfd (some ctx) timeout errno =
      ⟨timeout != -1, .call, errno, false, false, none, false, false, false, none⟩ := by
  obtain ⟨hopen, hsock, hblock⟩ := h
  simp [enter, hopen, hsock, hblock, Int.not_lt.mpr hfd]

/-- `connect` on a managed blocking socket keeps its promise, all along the call, exactly when the
query never answers 0 after an `addEvent` that failed, and answers `ETIMEDOUT` after a time-out. -/
theorem connect_law_iff (sockfd : Int) (ctx : FdCtx) (timeout : UInt64) (errno : Int) (acts : List Act)
    (hfd : 0 ≤ sockfd) (h : ctx.ManagedBlocking) :
    LTS.Along step Law (enter sockfd (some ctx) timeout errno) acts ↔
      LTS.StepsMeet step Meets (enter sockfd (some ctx) timeout errno) acts := by
  rw [enter_managed h hfd]
  refine LTS.along_iff (I := Inv) (E := fun _ => True) (fun s a s' hi hst => inv_step hi hst)
    (fun s a s' hi _ _ hst => law_step hi hst) ?_ (law_of_running nofun) fun _ _ => trivial
  exact ⟨nofun, fun _ _ => ⟨rfl, rfl⟩, nofun, nofun⟩

/-- The write event comes before the time-out of three seconds. -/
def inTime : List Act :=
  [.connect_f (-1) EINPROGRESS, .addEvent none, .event, .resume 0, .getsockopt none 0]

theorem law_inTime :
    (LTS.exec step (enter 3 (some (.fresh 3 true)) 3000 0) inTime).map (·.pc) = some (.done 0) ∧
    LTS.Along step Law (enter 3 (some (.fresh 3 true)) 3000 0) inTime := by
  have hmanaged : (FdCtx.fresh 3 true).ManagedBlocking := ⟨rfl, rfl, rfl⟩
  have hmeet : LTS.StepsMeet step Meets (enter 3 (some (.fresh 3 true)) 3000 0) inTime :=
    LTS.stepsMeet_of_check (B := fun s a => decide (s.Meets a))
      (fun s a hb => of_decide_eq_true hb) (by decide)
  exact ⟨by decide, (connect_law_iff 3 _ 3000 0 inTime (by decide) hmanaged).mpr hmeet⟩

/-- The time-out comes while the attempt is in progress. -/
def tooLate : List Act :=
  [.connect_f (-1) EINPROGRESS, .addEvent none, .timer true, .resume 0, .getsockopt none 0]

/-- `SO_ERROR` is still 0: the time-out is reported as success. -/
theorem connecting_reported :
    (LTS.exec step (enter 3 (some (.fresh 3 true)) 3000 0) tooLate).map
      (fun s => (s.pc, s.woken, s.timedOut)) = some (.done 0, some .timer, true) ∧
    ¬ LTS.Along step Law (enter 3 (some (.fresh 3 true)) 3000 0) tooLate := by
  refine ⟨by decide, fun hall => ?_⟩
  have hrun : LTS.exec step (enter 3 (some (.fresh 3 true)) 3000 0) tooLate =
      some ⟨true, .done 0, ETIMEDOUT, true, true, some .timer, false, false, true, some 0⟩ := by
    decide
  exact absurd ((hall.last hrun).timedOut rfl 0 rfl).1 (by decide)

end Connect
end Ppcode
