import Mathlib.Data.List.Dedup
import Ppcode.Core.MapM
import Ppcode.Log.Inherit
import Ppcode.Log.LogEvent

/-!
# What a call of `Logger::log` writes

`src/log/logger.cc` and the two classes of `src/log/log_appender.cc`. A logger
without appenders hands the event on to its root; one with appenders calls each of
them, and these write to the console or to their file. What is written is a list of
appenders, sinks and texts, in order. Nothing keeps an appender from being in the list
twice (logger.cc:33); it then writes twice.

An appender without a formatter is to write with that of its logger. The code has
that formatter make the text, and drops it (log_appender.cc:52, 86).

* `log_own`: what the appenders of one logger write.
* `writesOnce_iff`: each appender that the event is meant for writes it once exactly
  when all of them have formatters of their own and none is in the list twice.
-/
namespace Ppcode

/-- The order of the levels, as numbers.
mirrors src/log/log_level.h:22-30 -/
def LogLevel.val : LogLevel → Nat
  | .ALL => 0
  | .DEBUG => 1
  | .INFO => 2
  | .WARN => 3
  | .ERROR => 4
  | .FATAL => 5
  | .OFF => 6

/-- The appender that writes, its sink, named by its class and its file, and the text. -/
abbrev Write := Nat × AppenderKind × String

/-- The shared objects and the `m_root` of the loggers. -/
structure LogTree where
  logs : Logs LogFormatter
  m_root : Nat → Option Nat
  /-- the loggers have formatters -/
  formatters : ∀ l, (logs.loggers l).m_formatter.isSome
  /-- `setFormatter` alone writes the flag (`Logs.Fresh.flagged`) -/
  flagged : Logs.Flagged logs

/-- mirrors src/log/log_appender.h:40-44 -/
def LogEvent.forLogger (event : LogEvent) (logger : Nat) : LogEvent :=
  if event.m_logger.isNone then { event with m_logger := some logger } else event

namespace LogTree
variable (t : LogTree) (env : Env)

def logger (l : Nat) : Logger LogFormatter := t.logs.loggers l

def appender (a : Nat) : Appender LogFormatter := t.logs.appenders a

/-- `log` of a console and of a file appender, called by the logger `self`: the event
afterwards and what is written; `none` is a call on a null pointer.
mirrors src/log/log_appender.cc:45-55 and 79-89 -/
def appenderLog (self a : Nat) (event : LogEvent) : Option (LogEvent × List Write) :=
  let event := event.forLogger self
  if event.m_level.val ≥ (t.appender a).m_level.val then
    if (t.appender a).m_hasFormatter then do
      let text ← (← (t.appender a).m_formatter).format env event
      return (event, [(a, (t.appender a).kind, text)])
    else do
      -- the text is made, and not written
      let _ ← (← (t.logger self).m_formatter).format env event
      return (event, [])
  else some (event, [])

/-- The loop over the appenders.
mirrors src/log/logger.cc:22-24 -/
def appendersLog (self : Nat) : List Nat → LogEvent → Option (List Write)
  | [], _ => some []
  | a :: as, event => do
    let r ← t.appenderLog env self a event
    let writes ← appendersLog self as r.1
    return r.2 ++ writes

/-- `depth` bounds the calls on roots; `none` is a call on a null pointer or a deeper chain.
mirrors src/log/logger.cc:12-25 -/
def log : Nat → Nat → LogLevel → LogEvent → Option (List Write)
  | 0, _, _, _ => none
  | depth + 1, l, level, event =>
    if level.val < (t.logger l).m_level.val then some []
    else
      match (t.logger l).m_appenders, t.m_root l with
      | [], some root => log depth root level event
      | as, _ => t.appendersLog env l as event

/-! ## What is meant -/

/-- The event goes to the logger's own appenders. -/
def Own (l : Nat) : Prop := (t.logger l).m_appenders ≠ [] ∨ t.m_root l = none

instance (l : Nat) : Decidable (t.Own l) := by unfold Own; infer_instance

/-- The appenders of a logger that take events of a level. -/
def taking (L : Nat) (level : LogLevel) : List Nat :=
  (t.logger L).m_appenders.filter fun a => decide ((t.appender a).m_level.val ≤ level.val)

/-- What an appender of `L` is to write. -/
def write (L : Nat) (event : LogEvent) (a : Nat) : Option Write :=
  (((t.appender a).m_formatter.or (t.logger L).m_formatter).bind
    fun f => f.format env (event.forLogger L)).map fun text => (a, (t.appender a).kind, text)

/-- One write for each of the appenders that `pick` takes from those of `L` that take the event. -/
def writes (pick : List Nat → List Nat) (L : Nat) (event : LogEvent) : Option (List Write) :=
  (pick (t.taking L event.m_level)).mapM (t.write env L event)

/-- What a call on `l` is to write, by the appenders that `pick` takes. -/
def meantBy (pick : List Nat → List Nat) (l : Nat) (event : LogEvent) : Option (List Write) :=
  if event.m_level.val < (t.logger l).m_level.val then some []
  else if t.Own l then t.writes env pick l event
  else
    match t.m_root l with
    | none => some []
    | some root =>
      if event.m_level.val < (t.logger root).m_level.val then some []
      else t.writes env pick root event

/-- One write for each appender, however often it is in its list. -/
def meant (l : Nat) (event : LogEvent) : Option (List Write) := t.meantBy env List.dedup l event

/-- The call returns, and has written what is meant, in some order. -/
def WritesOnce (l : Nat) (event : LogEvent) : Prop :=
  ∃ depth ws ws', t.log env depth l event.m_level event = some ws ∧
    t.meant env l event = some ws' ∧ ws.Perm ws'

/-- The appenders of `L` that take events of the level have formatters, and are in its list
once. -/
def Ready (L : Nat) (level : LogLevel) : Prop :=
  (∀ a ∈ t.taking L level, (t.appender a).m_formatter.isSome) ∧ (t.taking L level).Nodup

/-- A call on `l` comes to an end, and no appender that it gets to has a formatter. -/
inductive Quiet (level : LogLevel) : Nat → Prop
  | filtered {l : Nat} : level.val < (t.logger l).m_level.val → Quiet level l
  | own {l : Nat} : t.Own l → (∀ a ∈ t.taking l level, (t.appender a).m_formatter = none) →
    Quiet level l
  | root {l root : Nat} : ¬ t.Own l → t.m_root l = some root → Quiet level root → Quiet level l

/-- The appenders that the event is meant for are ready for it; and where the root has no
appenders but a root of its own, nothing is written by the call on that. -/
def Meets (l : Nat) (level : LogLevel) : Prop :=
  level.val < (t.logger l).m_level.val ∨ t.Own l ∧ t.Ready l level ∨
  ¬ t.Own l ∧ ∃ root, t.m_root l = some root ∧
    (level.val < (t.logger root).m_level.val ∨ t.Own root ∧ t.Ready root level ∨
      ¬ t.Own root ∧ ∃ top, t.m_root root = some top ∧ t.Quiet level top)

/-! ## The texts -/

section Texts
variable {t env} {event : LogEvent} {L a : Nat}

theorem forLogger_logger (event : LogEvent) (L : Nat) : (event.forLogger L).m_logger.isSome := by
  unfold LogEvent.forLogger
  cases h : event.m_logger with
  | none => rfl
  | some l => simp [h]

@[simp] theorem forLogger_level (event : LogEvent) (L : Nat) :
    (event.forLogger L).m_level = event.m_level := by
  unfold LogEvent.forLogger
  split <;> rfl

/-- The logger is set once. -/
@[simp] theorem forLogger_twice (event : LogEvent) (L : Nat) :
    (event.forLogger L).forLogger L = event.forLogger L := by
  have hsome := forLogger_logger event L
  rw [Option.isSome_iff_ne_none, ne_eq, ← Option.isNone_iff_eq_none] at hsome
  rw [LogEvent.forLogger, if_neg hsome]

/-- An event with a logger has a text in every format. -/
theorem format_isSome (env : Env) (f : LogFormatter) (h : event.m_logger.isSome) :
    ∃ text, f.format env event = some text := by
  have hitem (it : LogFormatterItem) :
      it.stream env event = some ((it.stream env event).getD "") := by
    cases it with
    | logName =>
      obtain ⟨l, hl⟩ := Option.isSome_iff_exists.mp h
      simp [LogFormatterItem.stream, hl]
    | _ => rfl
  rw [format_eq, mapM_of_forall fun it _ => hitem it]
  exact ⟨_, rfl⟩

theorem write_isSome (t : LogTree) (env : Env) (L : Nat) (event : LogEvent) (a : Nat) :
    ∃ w, t.write env L event a = some w := by
  obtain ⟨f, hf⟩ : ∃ f, (t.appender a).m_formatter.or (t.logger L).m_formatter = some f := by
    rw [← Option.isSome_iff_exists, Option.isSome_or, Bool.or_eq_true]
    exact .inr (t.formatters L)
  obtain ⟨text, htext⟩ := format_isSome env f (forLogger_logger event L)
  exact ⟨(a, (t.appender a).kind, text), by rw [write, hf, Option.bind_some, htext]; rfl⟩

/-- Writes can be made for any list of appenders. -/
theorem mapM_write (t : LogTree) (env : Env) (L : Nat) (event : LogEvent) (as : List Nat) :
    ∃ ws, as.mapM (t.write env L event) = some ws := by
  have hget (a : Nat) :
      t.write env L event a = some ((t.write env L event a).getD (0, .console, "")) := by
    obtain ⟨w, hw⟩ := write_isSome t env L event a
    rw [hw]
    rfl
  exact ⟨_, mapM_of_forall fun a _ => hget a⟩

end Texts

/-! ## The appenders of one logger -/

section Appenders
variable {t env} {event : LogEvent} {L : Nat} {level : LogLevel}

/-- The appender takes the event, and has a formatter. -/
def puts (t : LogTree) (level : LogLevel) (a : Nat) : Bool :=
  decide ((t.appender a).m_level.val ≤ level.val) && (t.appender a).m_formatter.isSome

theorem appenderLog_eq (L a : Nat) (event : LogEvent) : t.appenderLog env L a event =
    if t.puts event.m_level a then
      (t.write env L event a).map fun w => (event.forLogger L, [w])
    else some (event.forLogger L, []) := by
  unfold appenderLog puts
  simp only [forLogger_level, ge_iff_le, appender, t.flagged a]
  by_cases hle : (t.logs.appenders a).m_level.val ≤ event.m_level.val
  · simp only [hle, if_true, decide_true, Bool.true_and]
    cases hf : (t.logs.appenders a).m_formatter with
    | none =>
      obtain ⟨f, hL⟩ := Option.isSome_iff_exists.mp (t.formatters L)
      obtain ⟨text, htext⟩ := format_isSome env f (forLogger_logger event L)
      simp [logger, hL, htext]
    | some f =>
      obtain ⟨text, htext⟩ := format_isSome env f (forLogger_logger event L)
      simp [write, appender, hf, htext]
  · simp [hle]

/-- The appenders with formatters write, and only they do. -/
theorem appendersLog_eq (L : Nat) (as : List Nat) (event : LogEvent) :
    t.appendersLog env L as event =
      (as.filter (t.puts event.m_level)).mapM (t.write env L event) := by
  induction as generalizing event with
  | nil => rfl
  | cons a as ih =>
    have hwrite : t.write env L (event.forLogger L) = t.write env L event := by
      funext b
      rw [write, write, forLogger_twice]
    rw [appendersLog, appenderLog_eq]
    cases hputs : t.puts event.m_level a with
    | false => simp [hputs, ih, hwrite]
    | true =>
      obtain ⟨w, hw⟩ := write_isSome t env L event a
      simp [hputs, ih, hwrite, hw, List.mapM_cons]

theorem write_appender {a : Nat} {w : Write} (h : t.write env L event a = some w) : w.1 = a := by
  obtain ⟨text, -, rfl⟩ := Option.map_eq_some_iff.mp h
  rfl

/-- What is written is what is meant exactly when the appenders that take the event are ready. -/
theorem appendersLog_perm (env : Env) (L : Nat) (event : LogEvent) :
    (∃ ws ws', t.appendersLog env L (t.logger L).m_appenders event = some ws ∧
      t.writes env List.dedup L event = some ws' ∧ ws.Perm ws') ↔ t.Ready L event.m_level := by
  have hsplit : (t.logger L).m_appenders.filter (t.puts event.m_level) =
      (t.taking L event.m_level).filter fun a => (t.appender a).m_formatter.isSome := by
    rw [taking, List.filter_filter]
    refine List.filter_congr fun a _ => ?_
    rw [puts, Bool.and_comm]
  rw [appendersLog_eq, hsplit]
  unfold writes Ready
  constructor
  · intro hex
    obtain ⟨ws, ws', hws, hws', hperm⟩ := hex
    -- the same appenders have written
    have hsame := hperm.map Prod.fst
    rw [map_of_mapM hws fun _ _ => write_appender, map_of_mapM hws' fun _ _ => write_appender]
      at hsame
    have hall : ∀ a ∈ t.taking L event.m_level, (t.appender a).m_formatter.isSome := by
      intro a ha
      exact (List.mem_filter.mp (hsame.mem_iff.mpr (List.mem_dedup.mpr ha))).2
    rw [List.filter_eq_self.mpr hall] at hsame
    exact ⟨hall, hsame.nodup_iff.mpr (List.nodup_dedup _)⟩
  · intro hready
    obtain ⟨hall, hnodup⟩ := hready
    obtain ⟨ws, hws⟩ := mapM_write t env L event (t.taking L event.m_level)
    rw [List.filter_eq_self.mpr hall, List.dedup_eq_self.mpr hnodup]
    exact ⟨ws, ws, hws, hws, .refl ws⟩

end Appenders

/-! ## One call -/

section Call
variable {t env} {event : LogEvent} {l root : Nat} {level : LogLevel}

theorem log_below (depth : Nat) (h : level.val < (t.logger l).m_level.val) :
    t.log env (depth + 1) l level event = some [] := by
  rw [log, if_pos h]

/-- What the appenders of one logger write. -/
theorem log_own (depth : Nat) (h : ¬ level.val < (t.logger l).m_level.val) (hown : t.Own l) :
    t.log env (depth + 1) l level event =
      t.appendersLog env l (t.logger l).m_appenders event := by
  rw [log, if_neg h]
  rcases hown with hne | hroot
  · obtain ⟨a, as, has⟩ := List.exists_cons_of_ne_nil hne
    rw [has]
  · rw [hroot]
    cases (t.logger l).m_appenders <;> rfl

/-- Without appenders the call goes on to the root. -/
theorem log_root (depth : Nat) (h : ¬ level.val < (t.logger l).m_level.val) (hown : ¬ t.Own l)
    (hroot : t.m_root l = some root) :
    t.log env (depth + 1) l level event = t.log env depth root level event := by
  have hnil : (t.logger l).m_appenders = [] := not_not.mp fun hne => hown (.inl hne)
  rw [log, if_neg h, hnil, hroot]

theorem root_of_not_own (hown : ¬ t.Own l) : ∃ root, t.m_root l = some root :=
  Option.ne_none_iff_exists'.mp fun hnone => hown (.inr hnone)

/-- No appender writes exactly when none that takes the event has a formatter. -/
theorem appendersLog_nil (L : Nat) (event : LogEvent) :
    t.appendersLog env L (t.logger L).m_appenders event = some [] ↔
      ∀ a ∈ t.taking L event.m_level, (t.appender a).m_formatter = none := by
  have hfilter : (t.logger L).m_appenders.filter (t.puts event.m_level) = [] ↔
      ∀ a ∈ t.taking L event.m_level, (t.appender a).m_formatter = none := by
    rw [List.filter_eq_nil_iff]
    simp only [taking, List.mem_filter, and_imp, puts, Bool.and_eq_true, not_and,
      Bool.not_eq_true, Option.isSome_eq_false_iff, Option.isNone_iff_eq_none]
  rw [appendersLog_eq, ← hfilter]
  constructor
  · intro h
    have hlen := mapM_length h
    exact List.eq_nil_of_length_eq_zero hlen.symm
  · intro h
    rw [h]
    rfl

theorem quiet_iff (env : Env) (l : Nat) (event : LogEvent) :
    (∃ depth, t.log env depth l event.m_level event = some []) ↔ t.Quiet event.m_level l := by
  constructor
  · intro hex
    obtain ⟨depth, h⟩ := hex
    induction depth generalizing l with
    | zero => cases h
    | succ depth ih =>
      by_cases hlt : event.m_level.val < (t.logger l).m_level.val
      · exact .filtered hlt
      · by_cases hown : t.Own l
        · rw [log_own depth hlt hown] at h
          exact .own hown ((appendersLog_nil l event).mp h)
        · obtain ⟨root, hroot⟩ := root_of_not_own hown
          rw [log_root depth hlt hown hroot] at h
          exact .root hown hroot (ih root h)
  · intro h
    induction h with
    | filtered hlt => exact ⟨1, log_below 0 hlt⟩
    | @own l hown hnone =>
      by_cases hlt : event.m_level.val < (t.logger l).m_level.val
      · exact ⟨1, log_below 0 hlt⟩
      · exact ⟨1, by rw [log_own 0 hlt hown]; exact (appendersLog_nil l event).mpr hnone⟩
    | @root l root hown hroot _ ih =>
      obtain ⟨depth, h⟩ := ih
      by_cases hlt : event.m_level.val < (t.logger l).m_level.val
      · exact ⟨1, log_below 0 hlt⟩
      · exact ⟨depth + 1, by rw [log_root depth hlt hown hroot]; exact h⟩

/-- A call that goes to the logger's own appenders. -/
theorem writes_own (h : ¬ event.m_level.val < (t.logger l).m_level.val) (hown : t.Own l) :
    (∃ depth ws ws', t.log env depth l event.m_level event = some ws ∧
      t.writes env List.dedup l event = some ws' ∧ ws.Perm ws') ↔ t.Ready l event.m_level := by
  rw [← appendersLog_perm env]
  constructor
  · intro hex
    obtain ⟨depth, ws, ws', hws, hrest⟩ := hex
    cases depth with
    | zero => cases hws
    | succ depth =>
      rw [log_own depth h hown] at hws
      exact ⟨ws, ws', hws, hrest⟩
  · intro hex
    obtain ⟨ws, ws', hws, hrest⟩ := hex
    exact ⟨1, ws, ws', by rw [log_own 0 h hown]; exact hws, hrest⟩

/-- A call that is to write nothing. -/
theorem writes_none (l : Nat) (event : LogEvent) :
    (∃ depth ws ws', t.log env depth l event.m_level event = some ws ∧
      (some [] : Option (List Write)) = some ws' ∧ ws.Perm ws') ↔ t.Quiet event.m_level l := by
  rw [← quiet_iff env]
  constructor
  · intro hex
    obtain ⟨depth, ws, ws', hws, heq, hperm⟩ := hex
    cases heq
    rw [List.perm_nil.mp hperm] at hws
    exact ⟨depth, hws⟩
  · intro hex
    obtain ⟨depth, hws⟩ := hex
    exact ⟨depth, [], [], hws, rfl, .refl []⟩

/-- The call on the root is all there is. -/
theorem writes_root (h : ¬ event.m_level.val < (t.logger l).m_level.val) (hown : ¬ t.Own l)
    (hroot : t.m_root l = some root) (P : List Write → List Write → Prop) :
    (∃ depth ws ws', t.log env depth l event.m_level event = some ws ∧ P ws ws') ↔
      ∃ depth ws ws', t.log env depth root event.m_level event = some ws ∧ P ws ws' := by
  constructor
  · intro hex
    obtain ⟨depth, ws, ws', hws, hP⟩ := hex
    cases depth with
    | zero => cases hws
    | succ depth =>
      rw [log_root depth h hown hroot] at hws
      exact ⟨depth, ws, ws', hws, hP⟩
  · intro hex
    obtain ⟨depth, ws, ws', hws, hP⟩ := hex
    exact ⟨depth + 1, ws, ws', by rw [log_root depth h hown hroot]; exact hws, hP⟩

/-- A logger that has no appenders takes nothing. -/
theorem writes_nil (hown : ¬ t.Own l) : t.writes env List.dedup l event = some [] := by
  have hnil : (t.logger l).m_appenders = [] := not_not.mp fun hne => hown (.inl hne)
  rw [writes, taking, hnil]
  rfl

theorem quiet_root (h : ¬ level.val < (t.logger l).m_level.val) (hown : ¬ t.Own l) :
    t.Quiet level l ↔ ∃ top, t.m_root l = some top ∧ t.Quiet level top := by
  constructor
  · intro hq
    cases hq with
    | filtered hlt => exact absurd hlt h
    | own ho _ => exact absurd ho hown
    | root _ hroot hq => exact ⟨_, hroot, hq⟩
  · intro hex
    obtain ⟨top, hroot, hq⟩ := hex
    exact .root hown hroot hq

end Call

/-- Each appender that the event is meant for writes it once, and no other writes, exactly when
all of them have formatters and none is in the list twice. -/
theorem writesOnce_iff (l : Nat) (event : LogEvent) :
    t.WritesOnce env l event ↔ t.Meets l event.m_level := by
  unfold WritesOnce meant meantBy Meets
  by_cases hlt : event.m_level.val < (t.logger l).m_level.val
  · simp only [hlt, if_true, true_or, iff_true]
    exact (writes_none l event).mpr (.filtered hlt)
  · by_cases hown : t.Own l
    · simp only [hlt, hown, if_false, if_true, false_or, true_and, not_true_eq_false, false_and,
        or_false]
      exact writes_own hlt hown
    · obtain ⟨root, hroot⟩ := root_of_not_own hown
      simp only [hlt, hown, hroot, if_false, false_or, false_and, not_false_eq_true, true_and,
        Option.some.injEq, exists_eq_left']
      rw [writes_root hlt hown hroot]
      -- the same three cases, one logger up
      by_cases hlt' : event.m_level.val < (t.logger root).m_level.val
      · simp only [hlt', if_true, true_or, iff_true]
        exact (writes_none root event).mpr (.filtered hlt')
      · by_cases hown' : t.Own root
        · simp only [hlt', hown', if_false, false_or, true_and, not_true_eq_false, false_and,
            or_false]
          exact writes_own hlt' hown'
        · simp only [hlt', hown', if_false, false_or, false_and, not_false_eq_true, true_and]
          rw [writes_nil hown', writes_none root event, quiet_root hlt' hown']

/-- A logger with a formatter and one console appender, whose formatter has been taken away. -/
def taken : Logs LogFormatter :=
  Logs.run ⟨fun _ => ⟨[], "root", .DEBUG, some ⟨"", [], rfl⟩⟩, fun _ => .new .console⟩
    [.addAppender 0 0, .setAppenderFormatter 0 none]

def takenTree : LogTree where
  logs := taken
  m_root _ := none
  formatters l := by
    rw [taken, Logs.run]
    simp only [List.foldl_cons, List.foldl_nil, Logs.Op.run, Logs.setAppenderFormatter,
      Logs.setAppender_loggers, Logs.addAppender_loggers]
    by_cases hl : l = 0
    · subst hl
      rfl
    · rw [Function.update_of_ne hl]
      rfl
  flagged := Logs.Fresh.flagged ⟨fun _ => rfl, fun _ => ⟨rfl, rfl⟩⟩ _

/-- Its appender writes nothing. -/
theorem writes_taken : ∃ (t : LogTree) (env : Env) (event : LogEvent),
    ¬ t.WritesOnce env 0 event ∧
      t.log env 1 0 event.m_level event = some [] ∧
      t.meant env 0 event = some [(0, .console, "")] := by
  refine ⟨takenTree, ⟨fun _ _ => "", 0, fun _ => "", fun _ => ""⟩,
    ⟨none, 0, "", 0, 0, 0, "", .INFO, "text"⟩, fun hex => ?_, by rfl, by rfl⟩
  obtain ⟨depth, ws, ws', hws, hws', hperm⟩ := hex
  cases depth with
  | zero => cases hws
  | succ depth =>
    rw [log_own depth (by decide) (.inr rfl)] at hws
    obtain rfl : [] = ws := Option.some.inj hws
    obtain rfl : [(0, .console, "")] = ws' := Option.some.inj hws'
    cases List.nil_perm.mp hperm

end LogTree
end Ppcode
