import Ppcode.Log.LogManager

/-!
# A logger through its YAML

The writer gives each appender a map of `path`, `formatter` and `level`; the reader asks
each for a `type`, which the writer never gives.

* `logger_roundTrips_iff`: a logger is read back as it was if and only if it has no appender and
  the logger that the manager has under its name, if any, still has that name.
* `console_unreadable`: a logger with one console appender.
-/
namespace Ppcode.LogManager

/-- The appender `a` of `s` and the appender `a'` of `s'` are alike. -/
def SameAppender (s s' : Logs LogFormatter) (a a' : Nat) : Prop :=
  (s.appenders a).kind = (s'.appenders a').kind ∧
  (s.appenders a).m_level = (s'.appenders a').m_level ∧
  (s.appenders a).m_formatter.map (·.m_pattern) = (s'.appenders a').m_formatter.map (·.m_pattern)

/-- The logger `l` of `s` and the logger `l'` of `s'` are alike. -/
structure SameLogger (s s' : Logs LogFormatter) (l l' : Nat) : Prop where
  name : (s.loggers l).m_name = (s'.loggers l').m_name
  level : (s.loggers l).m_level = (s'.loggers l').m_level
  pattern : (s.loggers l).m_formatter.map (·.m_pattern) =
    (s'.loggers l').m_formatter.map (·.m_pattern)
  appenders : List.Forall₂ (SameAppender s s') (s.loggers l).m_appenders
    (s'.loggers l').m_appenders

/-- The text of the logger `l` is read back, in the state `m`, as a logger that is like it. -/
def RoundTrips (y : Yaml) (m : LogManager) (l : Nat) : Prop :=
  ∃ value l' m', m.logs.getYamlString y l = some value ∧
    LogM.logger y value m = .ok l' m' ∧ SameLogger m.logs m'.logs l l'

/-! ## What is written -/

/-- The node of a logger; those of its appenders are `items`. -/
def loggerNode (name : String) (level : LogLevel) (pattern : String) (items : List Node) : Node :=
  .map [(.scalar "name", .scalar name), (.scalar "level", .scalar level.ToString),
    (.scalar "formatter", .scalar pattern), (.scalar "appenders", .seq items)]

theorem getYamlNode_eq {s : Logs LogFormatter} {l : Nat} {f : LogFormatter}
    (hf : (s.loggers l).m_formatter = some f) :
    s.getYamlNode l =
      ((s.loggers l).m_appenders.mapM fun a => Logs.appenderYamlNode (s.appenders a)).map
        (loggerNode (s.loggers l).m_name (s.loggers l).m_level f.m_pattern) := by
  unfold Logs.getYamlNode
  simp only [hf, Option.bind_eq_bind, Option.bind_some]
  cases (s.loggers l).m_appenders.mapM fun a => Logs.appenderYamlNode (s.appenders a) <;> rfl

/-- No appender is written with a type. -/
theorem appenderYamlNode_type {a : Appender LogFormatter} {n : Node}
    (h : Logs.appenderYamlNode a = some n) :
    ∃ pairs, n = .map pairs ∧ Node.find pairs "type" = none := by
  obtain ⟨kind, level, formatter, has⟩ := a
  cases kind <;> cases has <;> cases formatter <;> cases h <;> exact ⟨_, rfl, rfl⟩

/-! ## What is read -/

/-- What `getLogger` returns. -/
def got (m : LogManager) (name : String) : Nat := (m.m_map name).getD m.loggersEnd

/-- The state that it leaves. -/
def afterGet (m : LogManager) (name : String) : LogManager :=
  match m.m_map name with
  | some _ => m
  | none => { m with
      logs := m.logs.setLogger m.loggersEnd (.new name)
      loggersEnd := m.loggersEnd + 1
      m_root := Function.update m.m_root m.loggersEnd (some m.m_rootLogger)
      m_map := Function.update m.m_map name (some m.loggersEnd) }

theorem getLogger_eq (m : LogManager) (name : String) :
    LogM.getLogger name m = .ok (got m name) (afterGet m name) := by
  unfold got afterGet
  cases h : m.m_map name with
  | some l =>
    rw [LogM.getLogger, LogM.bind_ok m (x := get) rfl]
    simp only [h]
    rfl
  | none =>
    rw [LogM.getLogger, LogM.bind_ok m (x := get) rfl]
    simp only [h]
    rfl

/-- The logger `l` once its level and its formatter are read and its appenders cleared. -/
def prepared (m : LogManager) (l : Nat) (level : LogLevel) (f : LogFormatter) : LogManager :=
  { m with logs := ((m.logs.setLogger l { m.logs.loggers l with m_level := level }).setFormatter l
      (some f)).clearAllAppenders l }

theorem levelField_logger (m : LogManager) (name : String) (level : LogLevel) (pattern : String)
    (items : List Node) :
    LogM.levelField (loggerNode name level pattern items) m = .ok level m := by
  rw [LogM.levelField, loggerNode, LogM.bind_ok m (LogM.field_map m _ "level")]
  show EStateM.Result.ok (LogLevel.FromString level.ToString) m = _
  rw [LogLevel.fromString_toString]

/-- Reading the node of a logger comes down to the loop over its appenders. -/
theorem logger_read (y : Yaml) (m : LogManager) {name : String}
    (hname : y.emit (.scalar name) = name)
    (level : LogLevel) (f : LogFormatter) (items : List Node) :
    LogM.logger y (y.emit (loggerNode name level f.m_pattern items)) m =
      (do
        items.forM (LogM.addAppender y (got m name))
        return got m name : LogM Nat)
        (prepared (afterGet m name) (got m name) level f) := by
  have hfield (m' : LogManager) (key : String) (n : Node)
      (h : Node.find [(.scalar "name", .scalar name), (.scalar "level", .scalar level.ToString),
        (.scalar "formatter", .scalar f.m_pattern), (.scalar "appenders", .seq items)] key = some n) :
      LogM.field (loggerNode name level f.m_pattern items) key m' = .ok (some n) m' := by
    rw [loggerNode, LogM.field_map, h]
  have hget : LogM.getLogger (y.emit (.scalar name)) m = .ok (got m name) (afterGet m name) := by
    rw [hname, getLogger_eq]
  unfold LogM.logger
  rw [LogM.bind_ok m (LogM.load_emit y m _), LogM.bind_ok m (hfield m "name" _ rfl)]
  dsimp only
  rw [LogM.bind_ok m hget, LogM.bind_ok _ (levelField_logger _ name level f.m_pattern items),
    LogM.bind_ok _ (LogM.onLogs_apply _ _), LogM.bind_ok _ (hfield _ "formatter" _ rfl)]
  dsimp only
  rw [LogM.bind_ok _ (LogM.newFormatter_pattern _ f), LogM.bind_ok _ (LogM.onLogs_apply _ _),
    LogM.bind_ok _ (hfield _ "appenders" _ rfl)]
  dsimp only
  rw [LogM.bind_ok _ (LogM.onLogs_apply _ _)]
  rfl

/-! ## The law -/

/-- The first appender that was written stops the reader. -/
theorem appenders_stop (y : Yaml) (m : LogManager) (l l' : Nat) {a : Appender LogFormatter}
    {n : Node}
    (h : Logs.appenderYamlNode a = some n) (ns : List Node) :
    (do
      (n :: ns).forM (LogM.addAppender y l)
      return l' : LogM Nat) m = .error .yaml m := by
  obtain ⟨pairs, rfl, hpairs⟩ := appenderYamlNode_type h
  have hround : LogM.addAppender y l (.map pairs) m = .error .yaml m :=
    LogM.bind_error m (LogM.stringField_missing y m hpairs) _
  exact LogM.bind_error m (LogM.bind_error m hround _) _

/-- The logger that is read, of no appenders. -/
theorem prepared_logger (m : LogManager) (l : Nat) (level : LogLevel) (f : LogFormatter) :
    (prepared m l level f).logs.loggers l =
      { m.logs.loggers l with m_level := level, m_formatter := some f, m_appenders := [] } := by
  simp [prepared, Logs.clearAllAppenders, Logs.setFormatter, Logs.setFormatters_loggers]

/-- The logger that the manager has under a name, or makes, is called so unless it was
renamed. -/
theorem afterGet_name (m : LogManager) (name : String) :
    ((afterGet m name).logs.loggers (got m name)).m_name = name ↔
      ∀ l, m.m_map name = some l → (m.logs.loggers l).m_name = name := by
  unfold afterGet got
  cases h : m.m_map name with
  | some l => simp
  | none => simp [Logger.new]

/-- A logger with a formatter and with a name that YAML writes as it is, is read back as it
was in exactly one case: it has no appender, and the logger that the manager has under
its name, if any, has not been renamed. -/
theorem logger_roundTrips_iff (y : Yaml) (m : LogManager) (l : Nat)
    (hname : y.emit (.scalar (m.logs.loggers l).m_name) = (m.logs.loggers l).m_name)
    (hformatter : (m.logs.loggers l).m_formatter.isSome = true) :
    RoundTrips y m l ↔
      (m.logs.loggers l).m_appenders = [] ∧
      ∀ l', m.m_map (m.logs.loggers l).m_name = some l' →
        (m.logs.loggers l').m_name = (m.logs.loggers l).m_name := by
  obtain ⟨f, hf⟩ := Option.isSome_iff_exists.mp hformatter
  cases happ : (m.logs.loggers l).m_appenders with
  | cons a as =>
    constructor
    · intro h
      obtain ⟨value, l', m', hwrite, hread, -⟩ := h
      obtain ⟨node, hnode, rfl⟩ := Option.map_eq_some_iff.mp hwrite
      rw [getYamlNode_eq hf, happ] at hnode
      obtain ⟨items, hitems, rfl⟩ := Option.map_eq_some_iff.mp hnode
      rw [List.mapM_cons] at hitems
      obtain ⟨n, hn, hitems⟩ := Option.bind_eq_some_iff.mp hitems
      obtain ⟨ns, -, hitems⟩ := Option.bind_eq_some_iff.mp hitems
      cases hitems
      rw [logger_read y m hname, appenders_stop y _ _ _ hn] at hread
      cases hread
    · intro h
      cases h.1
  | nil =>
    have hwrite : m.logs.getYamlString y l = some (y.emit (loggerNode (m.logs.loggers l).m_name
        (m.logs.loggers l).m_level f.m_pattern [])) := by
      rw [Logs.getYamlString, getYamlNode_eq hf, happ]
      rfl
    have hread := logger_read y m hname (m.logs.loggers l).m_level f []
    have hlogger := prepared_logger (afterGet m (m.logs.loggers l).m_name)
      (got m (m.logs.loggers l).m_name) (m.logs.loggers l).m_level f
    rw [← afterGet_name m]
    constructor
    · intro h
      obtain ⟨value, l', m', hvalue, hread', hsame⟩ := h
      rw [hwrite] at hvalue
      cases hvalue
      cases hread.symm.trans hread'
      have hkept := hsame.name
      rw [hlogger] at hkept
      exact ⟨rfl, hkept.symm⟩
    · intro h
      refine ⟨_, _, _, hwrite, hread, ?_⟩
      constructor
      · rw [hlogger]
        exact h.2.symm
      · rw [hlogger]
      · rw [hlogger, hf]
      · rw [hlogger, happ]
        exact .nil

/-! ## Two loggers -/

/-- The root logger, and a logger `app` without appenders. -/
def aManager : LogManager :=
  { LogManager.new with
    logs := LogManager.new.logs.setLogger 1 (.new "app")
    loggersEnd := 2
    m_root := Function.update LogManager.new.m_root 1 (some 0)
    m_map := Function.update LogManager.new.m_map "app" (some 1) }

theorem roundTrips_app : RoundTrips flowYaml aManager 1 :=
  (logger_roundTrips_iff flowYaml aManager 1 (by decide) rfl).mpr
    ⟨rfl, fun l' h => by
      cases h
      rfl⟩

/-- The root logger has a console appender: its YAML is not read back. -/
theorem console_unreadable : ¬ RoundTrips flowYaml LogManager.new 0 := by
  intro h
  obtain ⟨value, l', m', hwrite, hread, -⟩ := h
  have hnode : Logs.appenderYamlNode (LogManager.new.logs.appenders 0) =
      some (.map [(.scalar "formatter", .scalar LogFormatter.default.m_pattern),
        (.scalar "level", .scalar "DEBUG")]) := rfl
  have hvalue : LogManager.new.logs.getYamlString flowYaml 0 =
      some (flowYaml.emit (loggerNode "root" .DEBUG LogFormatter.default.m_pattern
        [.map [(.scalar "formatter", .scalar LogFormatter.default.m_pattern),
          (.scalar "level", .scalar "DEBUG")]])) := rfl
  rw [hvalue] at hwrite
  rw [← Option.some.inj hwrite, logger_read flowYaml LogManager.new (by decide),
    appenders_stop flowYaml _ _ _ hnode] at hread
  cases hread

end Ppcode.LogManager
