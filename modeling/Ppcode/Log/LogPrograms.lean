import Mathlib
import Ppcode.Core.LTS
import Ppcode.Log.LogWrite
import Ppcode.Log.LoggerYaml

/-!
# Programs that log

A program gets its loggers from the manager, makes appenders, and sets levels and patterns;
it reads YAML texts, which may throw, and goes on. A pattern that does not parse, and an
appender of an unknown type, end the process.

* `Kept`: what holds of the manager from one state of the program to any later one. Each
  operation keeps it, and so does a reader, wherever it stops.
* `same_logger`: a name has one logger, from the first call of `getLogger` on.
* `log_once`: a call of `Logger::log` reaches its appenders through the root at most, and for
  each entry of the list whose appender takes the event that writes it.
-/
set_option mvcgen.warning false

namespace Ppcode.LogManager
open Std.Do

/-! ## Programs -/

/-- What a program does with the loggers that it has got and the appenders that it has made. -/
inductive Op where
  | getLogger (name : String)
  /-- `LexicalCast<std::string, Logger>`, by itself or in `loadLogger` -/
  | read (value : String)
  | newAppender (kind : AppenderKind)
  | setLevel (l : Nat) (level : LogLevel)
  | setAppenderLevel (a : Nat) (level : LogLevel)
  | setFormatter (l : Nat) (value : String)
  | setAppenderFormatter (a : Nat) (value : String)
  | addAppender (l a : Nat)
  | delAppender (l a : Nat)
  | clearAllAppenders (l : Nat)

/-- mirrors src/log/logger.h:61, src/log/logger.cc:27-70, src/log/log_appender.h:63 and
src/log/log_appender.cc:23-26 -/
def Op.run (y : Yaml) : Op → LogM Unit
  | .getLogger name => do
    let _ ← LogM.getLogger name
  | .read value => do
    let _ ← LogM.logger y value
  | .newAppender kind => do
    let _ ← LogM.newAppender (.new kind)
  | .setLevel l level => LogM.onLogs fun s => s.setLogger l { s.loggers l with m_level := level }
  | .setAppenderLevel a level =>
    LogM.onLogs fun s => s.setAppender a { s.appenders a with m_level := level }
  | .setFormatter l value => do
    let f ← LogM.newFormatter value
    LogM.onLogs fun s => s.setFormatter l (some f)
  | .setAppenderFormatter a value => do
    let f ← LogM.newFormatter value
    LogM.onLogs fun s => s.setAppenderFormatter a (some f)
  | .addAppender l a => LogM.onLogs fun s => s.addAppender l a
  | .delAppender l a => LogM.onLogs fun s => s.delAppender l a
  | .clearAllAppenders l => LogM.onLogs fun s => s.clearAllAppenders l

/-- The program has the loggers and the appenders. -/
def Op.Has (m : LogManager) : Op → Prop
  | .setLevel l _ | .setFormatter l _ | .clearAllAppenders l => l < m.loggersEnd
  | .setAppenderLevel a _ | .setAppenderFormatter a _ => a < m.appendersEnd
  | .addAppender l a | .delAppender l a => l < m.loggersEnd ∧ a < m.appendersEnd
  | .getLogger _ | .read _ | .newAppender _ => True

/-- The program catches what is thrown; `none` is the end of the process. -/
def step (y : Yaml) (m : LogManager) (op : Op) : Option LogManager :=
  match op.run y m with
  | .ok _ m' => some m'
  | .error (.exit _) _ | .error .nullPointer _ => none
  | .error _ m' => some m'

def programs (y : Yaml) : LTS LogManager Op :=
  (LTS.ofFn (· = new) (step y)).restrict fun m op => op.Has m

/-! ## What holds in every state -/

/-- The loggers have names of their own, one root and formatters; the appenders in their lists
have formatters. -/
structure Sound (m : LogManager) : Prop where
  named : ∀ name l, m.m_map name = some l → l < m.loggersEnd ∧ (m.logs.loggers l).m_name = name
  mapped : ∀ l < m.loggersEnd, m.m_map (m.logs.loggers l).m_name = some l
  root : m.m_rootLogger = 0 ∧ 0 < m.loggersEnd ∧ m.m_root 0 = none
  roots : ∀ l < m.loggersEnd, l ≠ 0 → m.m_root l = some 0
  formatters : ∀ l, (m.logs.loggers l).m_formatter.isSome
  flagged : m.logs.Flagged
  held : ∀ l, ∀ a ∈ (m.logs.loggers l).m_appenders,
    a < m.appendersEnd ∧ (m.logs.appenders a).m_formatter.isSome

/-- Nothing is forgotten. -/
structure Extends (m₀ m : LogManager) : Prop where
  loggers : m₀.loggersEnd ≤ m.loggersEnd
  appenders : m₀.appendersEnd ≤ m.appendersEnd
  map : ∀ name l, m₀.m_map name = some l → m.m_map name = some l

def Kept (m₀ m : LogManager) : Prop := m.Sound ∧ m₀.Extends m

section Kept
variable {m₀ m : LogManager} {l a : Nat}

theorem Extends.refl (m : LogManager) : m.Extends m := ⟨le_refl _, le_refl _, fun _ _ h => h⟩

/-- New contents of the loggers, with the names they have. -/
theorem Kept.write (h : Kept m₀ m) {logs : Logs LogFormatter}
    (hname : ∀ l, (logs.loggers l).m_name = (m.logs.loggers l).m_name)
    (hformatter : ∀ l, (logs.loggers l).m_formatter.isSome) (hflagged : logs.Flagged)
    (hheld : ∀ l, ∀ a ∈ (logs.loggers l).m_appenders,
      a < m.appendersEnd ∧ (logs.appenders a).m_formatter.isSome) :
    Kept m₀ { m with logs := logs } where
  left :=
    { named := fun name l hl => by
        simp only [hname]
        exact h.1.named name l hl
      mapped := fun l hl => by
        simp only [hname]
        exact h.1.mapped l hl
      root := h.1.root
      roots := h.1.roots
      formatters := hformatter
      flagged := hflagged
      held := hheld }
  right := ⟨h.2.loggers, h.2.appenders, h.2.map⟩

/-- A logger keeps its name, and has no more appenders than it had. -/
theorem Kept.setLogger (h : Kept m₀ m) {v : Logger LogFormatter}
    (hname : v.m_name = (m.logs.loggers l).m_name) (hformatter : v.m_formatter.isSome)
    (hsub : v.m_appenders ⊆ (m.logs.loggers l).m_appenders) :
    Kept m₀ { m with logs := m.logs.setLogger l v } := by
  have hcase (l' : Nat) : (l' = l ∧ (m.logs.setLogger l v).loggers l' = v) ∨
      (m.logs.setLogger l v).loggers l' = m.logs.loggers l' := by
    by_cases hl : l' = l
    · subst hl
      exact .inl ⟨rfl, Logs.setLogger_self ..⟩
    · exact .inr (Logs.setLogger_of_ne _ _ hl)
  refine h.write (fun l' => ?_) (fun l' => ?_) h.1.flagged fun l' a ha => ?_
  · rcases hcase l' with ⟨rfl, he⟩ | he
    · rw [he, hname]
    · rw [he]
  · rcases hcase l' with ⟨rfl, he⟩ | he
    · rw [he]
      exact hformatter
    · rw [he]
      exact h.1.formatters l'
  · rcases hcase l' with ⟨rfl, he⟩ | he
    · rw [he] at ha
      exact h.1.held l' a (hsub ha)
    · rw [he] at ha
      exact h.1.held l' a ha

/-- The appenders that had a formatter have one. -/
theorem Kept.appenders (h : Kept m₀ m) {logs : Logs LogFormatter}
    (hloggers : logs.loggers = m.logs.loggers) (hflagged : logs.Flagged)
    (hsome : ∀ a, (m.logs.appenders a).m_formatter.isSome →
      (logs.appenders a).m_formatter.isSome) : Kept m₀ { m with logs := logs } := by
  refine h.write (fun l => by rw [hloggers]) (fun l => ?_) hflagged fun l a ha => ?_
  · rw [hloggers]
    exact h.1.formatters l
  · rw [hloggers] at ha
    obtain ⟨hlt, hf⟩ := h.1.held l a ha
    exact ⟨hlt, hsome a hf⟩

theorem Kept.setAppender (h : Kept m₀ m) {v : Appender LogFormatter}
    (hflag : v.m_hasFormatter = v.m_formatter.isSome)
    (hsome : (m.logs.appenders a).m_formatter.isSome → v.m_formatter.isSome) :
    Kept m₀ { m with logs := m.logs.setAppender a v } := by
  refine h.appenders rfl (fun b => ?_) fun b hb => ?_
  · by_cases hab : b = a
    · subst hab
      rw [Logs.setAppender_self]
      exact hflag
    · rw [Logs.setAppender_of_ne _ _ hab]
      exact h.1.flagged b
  · by_cases hab : b = a
    · subst hab
      rw [Logs.setAppender_self]
      exact hsome hb
    · rw [Logs.setAppender_of_ne _ _ hab]
      exact hb

theorem Kept.setLevel (h : Kept m₀ m) (level : LogLevel) :
    Kept m₀ { m with logs := m.logs.setLogger l { m.logs.loggers l with m_level := level } } :=
  h.setLogger rfl (h.1.formatters l) (List.Subset.refl _)

theorem Kept.delAppender (h : Kept m₀ m) :
    Kept m₀ { m with logs := m.logs.delAppender l a } :=
  h.setLogger rfl (h.1.formatters l) List.erase_subset

theorem Kept.clearAllAppenders (h : Kept m₀ m) :
    Kept m₀ { m with logs := m.logs.clearAllAppenders l } :=
  h.setLogger rfl (h.1.formatters l) (List.nil_subset _)

theorem Kept.setAppenderLevel (h : Kept m₀ m) (level : LogLevel) :
    Kept m₀ { m with
      logs := m.logs.setAppender a { m.logs.appenders a with m_level := level } } :=
  h.setAppender (h.1.flagged a) id

theorem Kept.setAppenderFormatter (h : Kept m₀ m) (f : LogFormatter) :
    Kept m₀ { m with logs := m.logs.setAppenderFormatter a (some f) } :=
  h.setAppender rfl fun _ => rfl

/-- The logger has the formatter, and so have those of its appenders that had one. -/
theorem Kept.setFormatter (h : Kept m₀ m) (f : LogFormatter) :
    Kept m₀ { m with logs := m.logs.setFormatter l (some f) } := by
  have hl := h.setLogger (l := l) (v := { m.logs.loggers l with m_formatter := some f }) rfl rfl
    (List.Subset.refl _)
  refine hl.appenders (Logs.setFormatters_loggers ..) (fun a => ?_) fun a ha => ?_
  · rw [Logs.setFormatter, Logs.setFormatters_appenders]
    split
    · rfl
    · exact h.1.flagged a
  · rw [Logs.setFormatter, Logs.setFormatters_appenders]
    split
    · rfl
    · exact ha

/-- An appender that has no formatter gets that of the logger. -/
theorem Kept.addAppender (h : Kept m₀ m) (ha : a < m.appendersEnd) :
    Kept m₀ { m with logs := m.logs.addAppender l a } := by
  have hinherit : (Logs.inherit (m.logs.appenders a) (m.logs.loggers l).m_formatter).m_hasFormatter =
      (Logs.inherit (m.logs.appenders a) (m.logs.loggers l).m_formatter).m_formatter.isSome ∧
      (Logs.inherit (m.logs.appenders a) (m.logs.loggers l).m_formatter).m_formatter.isSome := by
    obtain ⟨f, hf⟩ := Option.isSome_iff_exists.mp (h.1.formatters l)
    rw [hf, Logs.inherit]
    cases ha : (m.logs.appenders a).m_formatter with
    | none => exact ⟨rfl, rfl⟩
    | some g =>
      refine ⟨?_, by simp [ha]⟩
      have hflag := h.1.flagged a
      rw [ha] at hflag
      simp [ha, hflag]
  have hadded := h.setAppender (a := a) hinherit.1 fun _ => hinherit.2
  refine hadded.write (fun l' => ?_) (fun l' => ?_) ?_ fun l' b hb => ?_
  · rw [Logs.addAppender_loggers]
    by_cases hl : l' = l
    · subst hl
      rw [Function.update_self]
      rfl
    · rw [Function.update_of_ne hl]
      rfl
  · rw [Logs.addAppender_loggers]
    by_cases hl : l' = l
    · subst hl
      rw [Function.update_self]
      exact h.1.formatters l'
    · rw [Function.update_of_ne hl]
      exact h.1.formatters l'
  · have hflagged := hadded.1.flagged
    intro b
    rw [Logs.addAppender_appenders]
    exact hflagged b
  · rw [Logs.addAppender_appenders]
    have hheld := hadded.1.held
    rw [Logs.addAppender_loggers] at hb
    by_cases hl : l' = l
    · subst hl
      rw [Function.update_self, List.mem_append, List.mem_singleton] at hb
      rcases hb with hold | rfl
      · exact hheld l' b hold
      · refine ⟨ha, ?_⟩
        rw [Function.update_self]
        exact hinherit.2
    · rw [Function.update_of_ne hl] at hb
      exact hheld l' b hb

/-- A new appender is in no list. -/
theorem Kept.newAppender (h : Kept m₀ m) (kind : AppenderKind) :
    Kept m₀ { m with
      logs := m.logs.setAppender m.appendersEnd (.new kind)
      appendersEnd := m.appendersEnd + 1 } := by
  refine ⟨{ h.1 with flagged := fun b => ?_, held := fun l b hb => ?_ },
    ⟨h.2.loggers, h.2.appenders.trans (Nat.le_succ _), h.2.map⟩⟩
  · by_cases hb : b = m.appendersEnd
    · subst hb
      rw [Logs.setAppender_self]
      rfl
    · rw [Logs.setAppender_of_ne _ _ hb]
      exact h.1.flagged b
  · obtain ⟨hlt, hsome⟩ := h.1.held l b hb
    refine ⟨Nat.lt_succ_of_lt hlt, ?_⟩
    rw [Logs.setAppender_of_ne _ _ hlt.ne]
    exact hsome

/-- A new logger has a number and a name of its own. -/
theorem Kept.newLogger (h : Kept m₀ m) {name : String} (hnone : m.m_map name = none) :
    Kept m₀ { m with
      logs := m.logs.setLogger m.loggersEnd (.new name)
      loggersEnd := m.loggersEnd + 1
      m_root := Function.update m.m_root m.loggersEnd (some m.m_rootLogger)
      m_map := Function.update m.m_map name (some m.loggersEnd) } := by
  have hne (l : Nat) (hl : l < m.loggersEnd) : (m.logs.loggers l).m_name ≠ name := by
    intro he
    have hmap := h.1.mapped l hl
    rw [he, hnone] at hmap
    cases hmap
  obtain ⟨hroot, hpos, hnoroot⟩ := h.1.root
  constructor
  · refine ⟨fun x l hl => ?_, fun l hl => ?_, ⟨hroot, Nat.succ_pos _, ?_⟩, fun l hl hl0 => ?_,
      fun l => ?_, h.1.flagged, fun l a ha => ?_⟩
    · by_cases hx : x = name
      · subst hx
        simp only [Function.update_self, Option.some.injEq] at hl
        subst hl
        exact ⟨Nat.lt_succ_self _, by rw [Logs.setLogger_self]; rfl⟩
      · simp only [Function.update_of_ne hx] at hl
        obtain ⟨hlt, hname⟩ := h.1.named x l hl
        refine ⟨Nat.lt_succ_of_lt hlt, ?_⟩
        rw [Logs.setLogger_of_ne _ _ hlt.ne]
        exact hname
    · by_cases hend : l = m.loggersEnd
      · subst hend
        simp only [Logs.setLogger_self]
        exact Function.update_self ..
      · have hlt : l < m.loggersEnd := by
          simp only at hl
          omega
        simp only [Logs.setLogger_of_ne _ _ hend]
        rw [Function.update_of_ne (hne l hlt)]
        exact h.1.mapped l hlt
    · simp only [Function.update_of_ne hpos.ne]
      exact hnoroot
    · by_cases hend : l = m.loggersEnd
      · subst hend
        simp only [Function.update_self]
        rw [hroot]
      · simp only [Function.update_of_ne hend]
        simp only at hl
        exact h.1.roots l (by omega) hl0
    · by_cases hend : l = m.loggersEnd
      · subst hend
        rw [Logs.setLogger_self]
        rfl
      · rw [Logs.setLogger_of_ne _ _ hend]
        exact h.1.formatters l
    · by_cases hend : l = m.loggersEnd
      · subst hend
        rw [Logs.setLogger_self] at ha
        cases ha
      · rw [Logs.setLogger_of_ne _ _ hend] at ha
        exact h.1.held l a ha
  · refine ⟨h.2.loggers.trans (Nat.le_succ _), h.2.appenders, fun x l hl => ?_⟩
    have hx : x ≠ name := by
      rintro rfl
      rw [h.2.map x l hl] at hnone
      cases hnone
    simp only [Function.update_of_ne hx]
    exact h.2.map x l hl

end Kept

/-! ## The readers -/

section Readers
variable (P : LogManager → Prop) (m₀ : LogManager) (y : Yaml)

/-- What only reads keeps everything, whether it returns or throws. -/
theorem load_spec (value : String) :
    ⦃fun m => ⌜P m⌝⦄ LogM.load y value ⦃post⟨fun _ m => ⌜P m⌝, fun _ m => ⌜P m⌝⟩⦄ := by
  unfold LogM.load
  mvcgen

theorem field_spec (node : Node) (key : String) :
    ⦃fun m => ⌜P m⌝⦄ LogM.field node key ⦃post⟨fun _ m => ⌜P m⌝, fun _ m => ⌜P m⌝⟩⦄ := by
  unfold LogM.field
  mvcgen

theorem stringField_spec (node : Node) (key : String) :
    ⦃fun m => ⌜P m⌝⦄ LogM.stringField y node key
    ⦃post⟨fun _ m => ⌜P m⌝, fun _ m => ⌜P m⌝⟩⦄ := by
  unfold LogM.stringField
  have hfield := field_spec P
  mvcgen [hfield]

theorem levelField_spec (node : Node) :
    ⦃fun m => ⌜P m⌝⦄ LogM.levelField node ⦃post⟨fun _ m => ⌜P m⌝, fun _ m => ⌜P m⌝⟩⦄ := by
  unfold LogM.levelField
  have hfield := field_spec P
  mvcgen [hfield]

theorem newFormatter_spec (pattern : String) :
    ⦃fun m => ⌜P m⌝⦄ LogM.newFormatter pattern ⦃post⟨fun _ m => ⌜P m⌝, fun _ m => ⌜P m⌝⟩⦄ := by
  unfold LogM.newFormatter
  mvcgen

theorem getLogger_spec (name : String) :
    ⦃fun m => ⌜Kept m₀ m⌝⦄ LogM.getLogger name
    ⦃post⟨fun _ m => ⌜Kept m₀ m⌝, fun _ m => ⌜Kept m₀ m⌝⟩⦄ := by
  unfold LogM.getLogger
  mvcgen
  exact Kept.newLogger ‹_› ‹_›

/-- There is an appender `a`. -/
def Made (a : Nat) (m : LogManager) : Prop := Kept m₀ m ∧ a < m.appendersEnd

variable {m₀} in
theorem Made.kept {a : Nat} {m : LogManager} (h : Made m₀ a m) : Kept m₀ m := h.1

variable {m₀} in
theorem Made.setLevel {a : Nat} {m : LogManager} (h : Made m₀ a m) (level : LogLevel) :
    Made m₀ a { m with
      logs := m.logs.setAppender a { m.logs.appenders a with m_level := level } } :=
  ⟨h.1.setAppenderLevel level, h.2⟩

variable {m₀} in
theorem Made.setFormatter {a : Nat} {m : LogManager} (h : Made m₀ a m) (f : LogFormatter) :
    Made m₀ a { m with logs := m.logs.setAppenderFormatter a (some f) } :=
  ⟨h.1.setAppenderFormatter f, h.2⟩

variable {m₀} in
theorem Made.addAppender {a l : Nat} {m : LogManager} (h : Made m₀ a m) :
    Kept m₀ { m with logs := m.logs.addAppender l a } :=
  h.1.addAppender h.2

theorem newAppender_spec (kind : AppenderKind) :
    ⦃fun m => ⌜Kept m₀ m⌝⦄ LogM.newAppender (.new kind)
    ⦃post⟨fun a m => ⌜Made m₀ a m⌝, fun _ m => ⌜Kept m₀ m⌝⟩⦄ := by
  unfold LogM.newAppender
  mvcgen
  exact ⟨Kept.newAppender ‹_› kind, Nat.lt_succ_self _⟩

theorem setFields_spec (a : Nat) (node : Node) :
    ⦃fun m => ⌜Made m₀ a m⌝⦄ LogM.setFields a node
    ⦃post⟨fun _ m => ⌜Made m₀ a m⌝, fun _ m => ⌜Made m₀ a m⌝⟩⦄ := by
  unfold LogM.setFields LogM.onLogs
  have hlevel := levelField_spec (Made m₀ a)
  have hfield := field_spec (Made m₀ a)
  have hformatter := newFormatter_spec (Made m₀ a)
  mvcgen [hlevel, hfield, hformatter]
  · exact Made.setLevel ‹_› _
  · exact Made.setFormatter ‹_› _

/-- An appender is made and has its fields set. -/
theorem fileAppender_spec (value : String) :
    ⦃fun m => ⌜Kept m₀ m⌝⦄ LogM.fileAppender y value
    ⦃post⟨fun a m => ⌜Made m₀ a m⌝, fun _ m => ⌜Kept m₀ m⌝⟩⦄ := by
  unfold LogM.fileAppender
  have hload := load_spec (Kept m₀) y
  have hfield := field_spec (Kept m₀)
  have hnew := newAppender_spec m₀
  have hset := setFields_spec m₀
  mvcgen [hload, hfield, hnew, hset]
  all_goals exact Made.kept

theorem consoleAppender_spec (value : String) :
    ⦃fun m => ⌜Kept m₀ m⌝⦄ LogM.consoleAppender y value
    ⦃post⟨fun a m => ⌜Made m₀ a m⌝, fun _ m => ⌜Kept m₀ m⌝⟩⦄ := by
  unfold LogM.consoleAppender
  have hload := load_spec (Kept m₀) y
  have hnew := newAppender_spec m₀
  have hset := setFields_spec m₀
  mvcgen [hload, hnew, hset]
  all_goals exact Made.kept

theorem addAppender_spec (l : Nat) (item : Node) :
    ⦃fun m => ⌜Kept m₀ m⌝⦄ LogM.addAppender y l item
    ⦃post⟨fun _ m => ⌜Kept m₀ m⌝, fun _ m => ⌜Kept m₀ m⌝⟩⦄ := by
  unfold LogM.addAppender LogM.onLogs
  have htype := stringField_spec (Kept m₀) y
  have hfile := fileAppender_spec m₀ y
  have hconsole := consoleAppender_spec m₀ y
  mvcgen [htype, hfile, hconsole]
  all_goals exact Made.addAppender ‹_›

/-- The loop over the entries. -/
theorem entries_spec (l : Nat) (items : List Node) :
    ⦃fun m => ⌜Kept m₀ m⌝⦄ items.forM (LogM.addAppender y l)
    ⦃post⟨fun _ m => ⌜Kept m₀ m⌝, fun _ m => ⌜Kept m₀ m⌝⟩⦄ := by
  induction items with
  | nil =>
    unfold List.forM
    mvcgen
  | cons item items ih =>
    unfold List.forM
    have hitem := addAppender_spec m₀ y l
    mvcgen [hitem, ih]

theorem logger_spec (value : String) :
    ⦃fun m => ⌜Kept m₀ m⌝⦄ LogM.logger y value
    ⦃post⟨fun _ m => ⌜Kept m₀ m⌝, fun _ m => ⌜Kept m₀ m⌝⟩⦄ := by
  unfold LogM.logger LogM.onLogs
  have hload := load_spec (Kept m₀) y
  have hfield := field_spec (Kept m₀)
  have hlevel := levelField_spec (Kept m₀)
  have hget := getLogger_spec m₀
  have hformatter := newFormatter_spec (Kept m₀)
  have hentries := entries_spec m₀ y
  mvcgen [hload, hfield, hlevel, hget, hformatter, hentries]
  · exact Kept.setLevel ‹_› _
  all_goals first
    | exact Kept.setFormatter ‹_› _
    | exact Kept.clearAllAppenders ‹_›

theorem op_spec (op : Op) :
    ⦃fun m => ⌜Kept m₀ m ∧ op.Has m⌝⦄ op.run y
    ⦃post⟨fun _ m => ⌜Kept m₀ m⌝, fun _ m => ⌜Kept m₀ m⌝⟩⦄ := by
  cases op with
  | getLogger name =>
    have hget := getLogger_spec m₀
    unfold Op.run
    mvcgen [hget]
    exact And.left ‹_›
  | read value =>
    have hlogger := logger_spec m₀ y
    unfold Op.run
    mvcgen [hlogger]
    exact And.left ‹_›
  | newAppender kind =>
    have hnew := newAppender_spec m₀
    unfold Op.run
    mvcgen [hnew]
    · exact And.left ‹_›
    · exact Made.kept ‹_›
  | setLevel l level =>
    unfold Op.run LogM.onLogs
    mvcgen
    exact Kept.setLevel (And.left ‹_›) _
  | setAppenderLevel a level =>
    unfold Op.run LogM.onLogs
    mvcgen
    exact Kept.setAppenderLevel (And.left ‹_›) _
  | setFormatter l value =>
    have hformatter := newFormatter_spec (Kept m₀)
    unfold Op.run LogM.onLogs
    mvcgen [hformatter]
    · exact And.left ‹_›
    · exact Kept.setFormatter ‹_› _
  | setAppenderFormatter a value =>
    have hformatter := newFormatter_spec (Kept m₀)
    unfold Op.run LogM.onLogs
    mvcgen [hformatter]
    · exact And.left ‹_›
    · exact Kept.setAppenderFormatter ‹_› _
  | addAppender l a =>
    unfold Op.run LogM.onLogs
    mvcgen
    rename_i m h _
    exact h.1.addAppender h.2.2
  | delAppender l a =>
    unfold Op.run LogM.onLogs
    mvcgen
    exact Kept.delAppender (And.left ‹_›)
  | clearAllAppenders l =>
    unfold Op.run LogM.onLogs
    mvcgen
    exact Kept.clearAllAppenders (And.left ‹_›)

end Readers

/-! ## Runs -/

section Runs
variable {A : Type} {P Q : LogManager → Prop} {m m' : LogManager}

/-- Whichever way it ends. -/
theorem of_triple {x : LogM A}
    (h : ⦃fun m => ⌜P m⌝⦄ x ⦃post⟨fun _ m => ⌜Q m⌝, fun _ m => ⌜Q m⌝⟩⦄) (hm : P m) :
    match x m with
    | .ok _ m' | .error _ m' => Q m' := by
  have hx := h m hm
  simp only [wp, PredTrans.apply, EStateM.run] at hx
  split at hx
  · next hok =>
    rw [hok]
    exact hx
  · next herror =>
    rw [herror]
    exact hx

theorem step_kept {y : Yaml} {m₀ : LogManager} {op : Op} (h : Kept m₀ m) (hop : op.Has m)
    (hst : step y m op = some m') : Kept m₀ m' := by
  have hrun := of_triple (op_spec m₀ y op) ⟨h, hop⟩
  unfold step at hst
  split at hst
  · next hok =>
    cases hst
    rw [hok] at hrun
    exact hrun
  · cases hst
  · cases hst
  · next herror =>
    cases hst
    rw [herror] at hrun
    exact hrun

theorem sound_new : new.Sound where
  named name l hl := by
    simp only [new] at hl
    split at hl <;> cases hl
    next hname => exact ⟨Nat.zero_lt_one, hname.symm⟩
  mapped l hl := by
    obtain rfl : l = 0 := Nat.lt_one_iff.mp hl
    rfl
  root := ⟨rfl, Nat.zero_lt_one, rfl⟩
  roots l hl hl0 := absurd (Nat.lt_one_iff.mp hl) hl0
  formatters l := by
    rw [new, Logs.addAppender_loggers]
    by_cases hl : l = 0
    · subst hl
      rfl
    · rw [Function.update_of_ne hl]
      rfl
  flagged a := by
    rw [new, Logs.addAppender_appenders]
    by_cases ha : a = 0
    · subst ha
      rfl
    · rw [Function.update_of_ne ha]
      rfl
  held l a ha := by
    rw [new, Logs.addAppender_loggers] at ha
    by_cases hl : l = 0
    · subst hl
      simp only [Function.update_self, Logger.new, List.nil_append, List.mem_singleton] at ha
      subst ha
      exact ⟨Nat.zero_lt_one, rfl⟩
    · rw [Function.update_of_ne hl] at ha
      cases ha

theorem run_kept {y : Yaml} {ops : List Op} (hs : m.Sound) (hrun : (programs y).Run m ops m') :
    Kept m m' := by
  have hstep : ∀ m₁ op m₂, Kept m m₁ → (programs y).step m₁ op m₂ → Kept m m₂ :=
    fun _ _ _ h hst => step_kept h hst.2 hst.1
  exact hrun.invariant hstep ⟨hs, .refl m⟩

theorem sound_reachable {y : Yaml} (hr : (programs y).Reachable m) : m.Sound := by
  have hind : (programs y).Inductive Sound := by
    refine ⟨fun m hm => ?_, fun m op m' h hst => ?_⟩
    · rw [show m = new from hm]
      exact sound_new
    · exact (run_kept h (.cons hst (.nil m'))).1
  exact hind.reachable m hr

end Runs

/-! ## Names -/

/-- What `getLogger` returns is in the map afterwards. -/
theorem getLogger_map {m m₁ : LogManager} {name : String} {l : Nat}
    (hget : LogM.getLogger name m = .ok l m₁) : m₁.m_map name = some l := by
  rw [getLogger_eq] at hget
  cases hget
  unfold got afterGet
  cases hname : m.m_map name with
  | some l => exact hname
  | none => exact Function.update_self ..

theorem getLogger_of_map {m : LogManager} {name : String} {l : Nat} (h : m.m_map name = some l) :
    LogM.getLogger name m = .ok l m := by
  rw [getLogger_eq]
  unfold got afterGet
  rw [h]
  rfl

/-- From the first call on, `getLogger` returns the same logger for a name, and another one for
any other name. -/
theorem same_logger (y : Yaml) (m m₁ m' : LogManager) (ops : List Op) (name : String) (l : Nat)
    (hr : (programs y).Reachable m) (hget : LogM.getLogger name m = .ok l m₁)
    (hrun : (programs y).Run m₁ ops m') :
    LogM.getLogger name m' = .ok l m' ∧ ∀ name' l' m'', name' ≠ name →
      LogM.getLogger name' m' = .ok l' m'' → l' ≠ l := by
  have hstep : (programs y).step m (.getLogger name) m₁ := by
    refine ⟨?_, trivial⟩
    simp only [LTS.ofFn, step, Op.run]
    rw [LogM.bind_ok m hget]
    rfl
  have hkept := run_kept (sound_reachable (hr.step hstep)) hrun
  have hmap := hkept.2.map name l (getLogger_map hget)
  have hlt := (hkept.1.named name l hmap).1
  refine ⟨getLogger_of_map hmap, fun name' l' m'' hne hget' heq => ?_⟩
  subst heq
  cases hname' : m'.m_map name' with
  | some k =>
    rw [getLogger_of_map hname'] at hget'
    cases hget'
    exact hne ((hkept.1.named name' l' hname').2.symm.trans (hkept.1.named name l' hmap).2)
  | none =>
    rw [getLogger_eq] at hget'
    have hgot : got m' name' = m'.loggersEnd := by rw [got, hname', Option.getD_none]
    cases hget'
    exact hlt.ne hgot

/-- A second logger is got, and the level of the first one is set. -/
theorem same_logger_app : ∃ m₁ m', LogM.getLogger "app" new = .ok 1 m₁ ∧
    (programs flowYaml).Run m₁ [.getLogger "db", .setLevel 1 .ERROR] m' ∧
    LogM.getLogger "app" m' = .ok 1 m' := by
  have hget : LogM.getLogger "app" new = .ok 1 (afterGet new "app") := getLogger_eq new "app"
  have hdb : (programs flowYaml).step (afterGet new "app") (.getLogger "db")
      (afterGet (afterGet new "app") "db") := ⟨rfl, trivial⟩
  have hlevel : (programs flowYaml).step (afterGet (afterGet new "app") "db") (.setLevel 1 .ERROR)
      _ := ⟨rfl, show 1 < 3 by decide⟩
  have hrun := LTS.Run.cons hdb (.cons hlevel (.nil _))
  exact ⟨_, _, hget, hrun,
    (same_logger flowYaml new _ _ _ "app" 1 (LTS.reachable_init rfl) hget hrun).1⟩

end Ppcode.LogManager

namespace Ppcode.LogTree
variable {t : LogTree} {env : Env} {event : LogEvent} {l root : Nat}

/-! ## What is written -/

/-- Each appender that takes the event writes it. -/
theorem appendersLog_formatted
    (h : ∀ a ∈ (t.logger l).m_appenders, (t.appender a).m_formatter.isSome) :
    ∃ ws, t.appendersLog env l (t.logger l).m_appenders event = some ws ∧
      t.writes env id l event = some ws := by
  have hfilter : (t.logger l).m_appenders.filter (t.puts event.m_level) =
      t.taking l event.m_level := by
    refine List.filter_congr fun a ha => ?_
    rw [puts, h a ha, Bool.and_true]
  rw [appendersLog_eq, hfilter]
  obtain ⟨ws, hws⟩ := mapM_write t env l event (t.taking l event.m_level)
  exact ⟨ws, hws, hws⟩

/-- A call on a logger that has appenders, or no root. -/
theorem log_formatted (depth : Nat) (hown : t.Own l)
    (h : ∀ a ∈ (t.logger l).m_appenders, (t.appender a).m_formatter.isSome) :
    ∃ ws, t.log env (depth + 1) l event.m_level event = some ws ∧
      (if event.m_level.val < (t.logger l).m_level.val then some [] else t.writes env id l event) =
        some ws := by
  by_cases hlt : event.m_level.val < (t.logger l).m_level.val
  · exact ⟨[], log_below depth hlt, if_pos hlt⟩
  · rw [log_own depth hlt hown, if_neg hlt]
    exact appendersLog_formatted h

/-- A call goes to a logger's own appenders, or to those of a root that has no root itself. -/
theorem log_two (h : ∀ l, ∀ a ∈ (t.logger l).m_appenders, (t.appender a).m_formatter.isSome)
    (hroot : t.m_root l = none ∨ ∃ root, t.m_root l = some root ∧ t.m_root root = none) :
    ∃ ws, t.log env 2 l event.m_level event = some ws ∧ t.meantBy env id l event = some ws := by
  unfold meantBy
  by_cases hown : t.Own l
  · simp only [hown, if_true]
    exact log_formatted 1 hown (h l)
  · obtain ⟨root, hl, hnone⟩ := hroot.resolve_left fun hnone => hown (.inr hnone)
    by_cases hlt : event.m_level.val < (t.logger l).m_level.val
    · exact ⟨[], log_below 1 hlt, if_pos hlt⟩
    · simp only [hlt, hown, hl, if_false]
      rw [log_root 1 hlt hown hl]
      exact log_formatted 0 (.inr hnone) (h root)

end Ppcode.LogTree

namespace Ppcode.LogManager

/-- Whatever a program has done, a call of `log` on one of its loggers comes to an end on that
logger or on the root, and writes the event once for each entry of the list that it is meant for,
in the order of the list, and nothing else. -/
theorem log_once (y : Yaml) (m : LogManager) (hr : (programs y).Reachable m) :
    ∃ t : LogTree, t.logs = m.logs ∧ t.m_root = m.m_root ∧
      ∀ env event, ∀ l < m.loggersEnd, ∃ ws,
        t.log env 2 l event.m_level event = some ws ∧ t.meantBy env id l event = some ws := by
  have hs := sound_reachable hr
  refine ⟨⟨m.logs, m.m_root, hs.formatters, hs.flagged⟩, rfl, rfl, fun env event l hl => ?_⟩
  refine LogTree.log_two (fun l a ha => (hs.held l a ha).2) ?_
  obtain ⟨-, -, hnone⟩ := hs.root
  by_cases h0 : l = 0
  · subst h0
    exact .inl hnone
  · exact .inr ⟨0, hs.roots l hl h0, hnone⟩

/-- A logger that has just been got has no appenders: its events go to the root's. -/
theorem log_once_app : ∃ t : LogTree, t.m_root 1 = some 0 ∧ ∀ env event, ∃ ws,
    t.log env 2 1 event.m_level event = some ws ∧ t.meantBy env id 1 event = some ws := by
  have happ : (programs flowYaml).step new (.getLogger "app") (afterGet new "app") :=
    ⟨rfl, trivial⟩
  obtain ⟨t, -, hroot, hlog⟩ :=
    log_once flowYaml (afterGet new "app") ((LTS.reachable_init rfl).step happ)
  exact ⟨t, by rw [hroot]; rfl, fun env event => hlog env event 1 (show 1 < 2 by decide)⟩

end Ppcode.LogManager
