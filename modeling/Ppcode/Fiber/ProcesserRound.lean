import Mathlib.Data.Prod.Lex
import Ppcode.Fiber.ProcesserQueue

/-!
# Between two fibers

How long a processer's thread can go on without taking from `runableQueue`. It tries again in
`getNewFibers` when a fiber has been counted in between; it pops nothing while it does, so that
is as often as there is room in `newQueue`.

`round` is a measure for this: every step of the thread but `take` lowers it (`next_round`), and
of what the other threads do only the notification of a thread that sleeps raises it
(`addStep_round`).
-/
namespace Ppcode.Processer
variable {F : Type} {p p' : Processer F} {stopping : Bool} {state : TaskState} {c c' : Nat}

/-- Falls with every push and every count, by more than a count makes the fetch longer. `c` threads
have pushed and not counted. -/
def fetchWork (c : Nat) (p : Processer F) : Nat := 3 * (2 * (capacity - p.newQueue.length) + c)

/-- Before the fetch, in it, and after it. -/
def round (c : Nat) (p : Processer F) : ℕ ×ₗ ℕ :=
  match p.pc with
  | .check _ => toLex (2, 7)
  | .resume _ => toLex (2, 6)
  | .bind _ => toLex (2, 5)
  | .swapIn _ => toLex (2, 4)
  | .inFiber _ => toLex (2, 3)
  | .switch _ => toLex (2, 2)
  | .many => toLex (2, 1)
  | .fetch _ => toLex (1, fetchWork c p + 2)
  | .exchange size _ => toLex (1, fetchWork c p + if size = p.m_newfiberCount then 1 else 3)
  | .pop left _ => toLex (0, left + 10)
  | .gcLock => toLex (0, 9)
  | .test => toLex (0, 8)
  | .publish => toLex (0, 7)
  | .waiting notified => toLex (0, if notified then 7 else 4)
  | .again => toLex (0, 6)
  | .wait => toLex (0, 5)
  | .start | .clear | .wake => toLex (0, 3)
  | .loop => toLex (0, 2)
  | .take => toLex (0, 1)
  | .exited => toLex (0, 0)

theorem next_round (hn : p.next stopping state = some p') (htake : p.pc ≠ .take) :
    round c p' < round c p := by
  have hphase {a b x y : Nat} (h : a < b) : toLex (a, x) < toLex (b, y) :=
    Prod.Lex.toLex_lt_toLex.mpr (.inl h)
  have hlt {a x y : Nat} (h : x < y) : toLex (a, x) < toLex (a, y) :=
    Prod.Lex.toLex_lt_toLex.mpr (.inr ⟨rfl, h⟩)
  cases next_spec hn with
  | empty | take => exact absurd rfl htake
  | retry p size r =>
    have hstale : size ≠ p.m_newfiberCount := by
      intro he
      simp [next, he] at hn
    exact hlt (by simp [fetchWork, hstale])
  | fetch p r => exact hlt (by simp [fetchWork])
  | exchange => exact hphase (by simp)
  | fetched p r =>
    cases r with
    | switch => exact hlt (by simp)
    | idle =>
      simp only [back]
      split <;> exact hlt (by simp)
  | loop => cases stopping <;> exact hlt (by simp)
  | check =>
    cases stopping with
    | true => exact hphase (by simp)
    | false => exact hlt (by simp)
  | test p | again p => cases hset : p.m_notidied <;> exact hlt (by simp)
  | switch p fb =>
    cases state with
    | running => exact hlt (by simp)
    | _ => exact hphase (by simp)
  | many p =>
    by_cases hmany : p.m_newfiberCount > 32
    · simp only [hmany, if_true]
      exact hphase (by simp)
    · simp only [hmany, if_false]
      exact hphase (by simp)
  | _ => exact hlt (by simp)

/-- The same control point, and what a count costs is paid for. -/
theorem round_le (hpc : p'.pc = p.pc) (hle : fetchWork c' p' ≤ fetchWork c p)
    (hcount : fetchWork c' p' + 2 ≤ fetchWork c p ∨ p'.m_newfiberCount = p.m_newfiberCount) :
    round c' p' ≤ round c p := by
  unfold round
  rw [hpc]
  have hlex (a b : Nat) (hab : a ≤ b) : toLex (1, a) ≤ toLex (1, b) :=
    Prod.Lex.toLex_le_toLex.mpr (.inr ⟨rfl, hab⟩)
  cases p.pc with
  | fetch r => exact hlex _ _ (Nat.add_le_add_right hle 2)
  | exchange size r =>
    refine hlex _ _ ?_
    rcases hcount with hpaid | he
    · split <;> split <;> omega
    · rw [he]
      exact Nat.add_le_add_right hle _
  | _ => exact le_refl _

theorem addStep_round {a a' : AddPc F} (h : p.addStep a = some (p', a'))
    (hc : c' + a.uncounted = c + a'.uncounted) (hsleep : p.pc ≠ .waiting false) :
    round c' p' ≤ round c p := by
  cases a with
  | idle => cases h
  | enter fb =>
    simp only [addStep] at h
    split at h <;> cases h <;> rw [show c' = c from hc]
  | push fb =>
    simp only [addStep, Option.ite_none_right_eq_some, Option.some.injEq] at h
    obtain ⟨hlt, h⟩ := h
    cases h
    have hc' : c' = c + 1 := hc
    refine round_le rfl ?_ (.inr rfl)
    simp only [fetchWork, List.length_append, List.length_singleton]
    omega
  | count =>
    cases h
    have hc' : c' + 1 = c := hc
    refine round_le rfl ?_ (.inl ?_) <;> simp only [fetchWork] <;> omega
  | test =>
    have hle : a'.uncounted = 0 := by
      cases h
      split <;> rfl
    cases h
    rw [hle] at hc
    rw [show c' = c from hc]
  | flag | flagNotify =>
    cases h
    rw [show c' = c from hc]
    exact round_le rfl (le_refl _) (.inr rfl)
  | notify =>
    obtain ⟨q, hq, he⟩ := Option.map_eq_some_iff.mp h
    cases he
    rw [show c' = c from hc]
    obtain ⟨-, he, ⟨-, hpc⟩ | ⟨b, hb, hpc⟩⟩ := notify_spec hq
    · exact round_le hpc (by rw [he]; exact le_refl _) (.inr (by rw [he]))
    · cases b with
      | false => exact absurd hb hsleep
      | true => exact round_le (hpc.trans hb.symm) (by rw [he]; exact le_refl _) (.inr (by rw [he]))

end Ppcode.Processer
