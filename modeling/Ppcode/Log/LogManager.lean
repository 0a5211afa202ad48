import Ppcode.Config.FlowYaml
import Ppcode.Log.LogFormat
import Ppcode.Log.Logger

/-!
# Loggers as YAML

`src/log/log_manager.cc`, the writers in `src/log/logger.cc` and
`src/log/log_appender.cc`, and the readers in `src/config/log_config.h`. The readers
run on the state of the log manager and may stop before they return: by an exception, by
the `exit(0)` of a pattern that does not parse, or by a call on a null pointer. What they
have done until then stays done (`LogM`).
-/
namespace Ppcode

/-! ## Levels -/

namespace LogLevel

/-- mirrors src/log/log_level.cc:6-26 -/
def ToString : LogLevel → String
  | ALL => "ALL"
  | DEBUG => "DEBUG"
  | INFO => "INFO"
  | WARN => "WARN"
  | ERROR => "ERROR"
  | FATAL => "FATAL"
  | OFF => "OFF"

/-- The texts are compared up to the first null character, without regard to case. -/
def strcasecmp (s t : String) : Bool :=
  (s.toList.takeWhile (· != '\x00')).map Char.toLower ==
    (t.toList.takeWhile (· != '\x00')).map Char.toLower

/-- mirrors src/log/log_level.cc:28-48 -/
def FromString (str : String) : LogLevel :=
  if str.isEmpty then .DEBUG
  else ([ALL, DEBUG, INFO, WARN, ERROR, FATAL, OFF].find?
    fun level => strcasecmp level.ToString str).getD .DEBUG

theorem fromString_toString (level : LogLevel) : FromString level.ToString = level := by
  cases level <;> decide

end LogLevel

/-! ## The manager -/

/-- mirrors src/log/logger.cc:7-10 -/
def Logger.new (name : String) : Logger LogFormatter := ⟨[], name, .DEBUG, some .default⟩

/-- The objects, those from `loggersEnd` and `appendersEnd` on being free, the `m_root` of
the loggers, and the members of the manager. -/
structure LogManager where
  logs : Logs LogFormatter
  loggersEnd : Nat
  appendersEnd : Nat
  m_root : Nat → Option Nat
  m_map : String → Option Nat
  m_rootLogger : Nat

namespace LogManager

/-- The root logger is number 0.
mirrors src/log/log_manager.cc:6-13 -/
def new : LogManager where
  logs := (⟨fun _ => .new "root", fun _ => .new .console⟩ : Logs LogFormatter).addAppender 0 0
  loggersEnd := 1
  appendersEnd := 1
  m_root _ := none
  m_map name := if name = "root" then some 0 else none
  m_rootLogger := 0

end LogManager

/-- What stops a reader. -/
inductive Stop where
  /-- an exception of the YAML library -/
  | yaml
  | logic_error (what : String)
  | exit (status : Nat)
  | nullPointer
  deriving DecidableEq, Repr

abbrev LogM := EStateM Stop LogManager

namespace LogM

def onLogs (f : Logs LogFormatter → Logs LogFormatter) : LogM Unit :=
  modify fun m => { m with logs := f m.logs }

/-- mirrors src/log/log_manager.cc:15-27 -/
def getLogger (name : String) : LogM Nat := do
  let m ← get
  match m.m_map name with
  | some l => return l
  | none =>
    let l := m.loggersEnd
    set { m with
      logs := m.logs.setLogger l (.new name)
      loggersEnd := l + 1
      m_root := Function.update m.m_root l (some m.m_rootLogger)
      m_map := Function.update m.m_map name (some l) }
    return l

/-- `std::make_shared` of an appender -/
def newAppender (a : Appender LogFormatter) : LogM Nat := do
  let m ← get
  set { m with
    logs := m.logs.setAppender m.appendersEnd a
    appendersEnd := m.appendersEnd + 1 }
  return m.appendersEnd

def newFormatter (pattern : String) : LogM LogFormatter :=
  match LogFormatter.new pattern with
  | some f => pure f
  | none => throw (.exit 0)

end LogM

/-! ## The writers -/

namespace Logs

/-- `none` is a call on a null formatter.
mirrors src/log/log_appender.cc:57-65 and 91-99 -/
def appenderYamlNode (a : Appender LogFormatter) : Option Node := do
  let pairs := match a.kind with
    | .console => []
    | .file m_fileName => Node.setKey [] "path" (.scalar m_fileName)
  let pairs ← if a.m_hasFormatter then
      a.m_formatter.map fun f => Node.setKey pairs "formatter" (.scalar f.m_pattern)
    else some pairs
  return .map (Node.setKey pairs "level" (.scalar a.m_level.ToString))

/-- mirrors src/log/logger.cc:72-88 -/
def getYamlNode (s : Logs LogFormatter) (l : Nat) : Option Node := do
  let logger := s.loggers l
  let f ← logger.m_formatter
  let node := Node.setKey [] "name" (.scalar logger.m_name)
  let node := Node.setKey node "level" (.scalar logger.m_level.ToString)
  let node := Node.setKey node "formatter" (.scalar f.m_pattern)
  let appenders ← logger.m_appenders.mapM fun a => appenderYamlNode (s.appenders a)
  return .map (Node.setKey node "appenders" (.seq appenders))

/-- mirrors src/log/logger.cc:90-94 -/
def getYamlString (y : Yaml) (s : Logs LogFormatter) (l : Nat) : Option String :=
  (s.getYamlNode l).map y.emit

end Logs

/-! ## The readers -/

namespace LogM

variable (y : Yaml)

/-- `YAML::Load` -/
def load (value : String) : LogM Node :=
  match y.load value with
  | some node => pure node
  | none => throw .yaml

/-- `node[key]`, `none` being an undefined node; a scalar has no keys. -/
def field (node : Node) (key : String) : LogM (Option Node) :=
  match node with
  | .scalar _ => throw .yaml
  | .map pairs => pure (Node.find pairs key)
  | _ => pure none

/-- `node[key].as<std::string>()` -/
def stringField (node : Node) (key : String) : LogM String := do
  match ← field node key, y.nullAs with
  | some (.scalar s), _ => return s
  | some .null, some s => return s
  | _, _ => throw .yaml

/-- The level that the readers set. -/
def levelField (node : Node) : LogM LogLevel := do
  match ← field node "level" with
  | some (.scalar s) => return .FromString s
  | _ => return .FromString ""

/-- What the readers of appenders do with `node["level"]` and `node["formatter"]`. -/
def setFields (a : Nat) (node : Node) : LogM Unit := do
  let level ← levelField node
  onLogs fun s => s.setAppender a { s.appenders a with m_level := level }
  match ← field node "formatter" with
  | some (.scalar pattern) => do
    let f ← newFormatter pattern
    onLogs fun s => s.setAppenderFormatter a (some f)
  | _ => pure ()

/-- mirrors src/config/log_config.h:61-82 -/
def fileAppender (value : String) : LogM Nat := do
  let node ← load y value
  match ← field node "path" with
  | some (.scalar path) => do
    let a ← newAppender (.new (.file path))
    setFields a node
    return a
  | _ => throw (.logic_error "name is null")

/-- mirrors src/config/log_config.h:108-119 -/
def consoleAppender (value : String) : LogM Nat := do
  let node ← load y value
  let a ← newAppender (.new .console)
  setFields a node
  return a

/-- One round of the loop over the appenders; no class of appender leaves the pointer
null, and `addAppender` calls on it.
mirrors src/config/log_config.h:169-182 -/
def addAppender (l : Nat) (item : Node) : LogM Unit := do
  let str ← stringField y item "type"
  let a ← if str = "fileappender" then fileAppender y (y.emit item)
    else if str = "consoleappender" then consoleAppender y (y.emit item)
    else throw .nullPointer
  onLogs fun s => s.addAppender l a

/-- mirrors src/config/log_config.h:145-186 -/
def logger (value : String) : LogM Nat := do
  let node ← load y value
  match ← field node "name" with
  | some (.scalar name) => do
    let l ← getLogger (y.emit (.scalar name))
    let level ← levelField node
    onLogs fun s => s.setLogger l { s.loggers l with m_level := level }
    match ← field node "formatter" with
    | some (.scalar pattern) => do
      let f ← newFormatter pattern
      onLogs fun s => s.setFormatter l (some f)
    | _ => pure ()
    match ← field node "appenders" with
    | some (.seq appenders) => do
      onLogs fun s => s.clearAllAppenders l
      appenders.forM (addAppender y l)
    | _ => pure ()
    return l
  | _ => throw (.logic_error "log config name is null")

/-! ## Runs of the readers -/

section Runs

variable {A B : Type} (m : LogManager)

theorem bind_ok {x : LogM A} {a : A} {m' : LogManager} (h : x m = .ok a m') (f : A → LogM B) :
    (x >>= f) m = f a m' := by
  show EStateM.bind x f m = f a m'
  rw [EStateM.bind, h]

theorem bind_error {x : LogM A} {e : Stop} {m' : LogManager} (h : x m = .error e m')
    (f : A → LogM B) : (x >>= f) m = .error e m' := by
  show EStateM.bind x f m = .error e m'
  rw [EStateM.bind, h]

@[simp] theorem onLogs_apply (f : Logs LogFormatter → Logs LogFormatter) :
    onLogs f m = .ok () { m with logs := f m.logs } := rfl

theorem load_emit (node : Node) : load y (y.emit node) m = .ok node m := by
  rw [load, y.load_emit]
  rfl

theorem field_map (pairs : List (Node × Node)) (key : String) :
    field (.map pairs) key m = .ok (Node.find pairs key) m := rfl

theorem newFormatter_pattern (f : LogFormatter) : newFormatter f.m_pattern m = .ok f m := by
  rw [newFormatter, LogFormatter.new_pattern]
  rfl

/-- A map without the key is no string. -/
theorem stringField_missing {pairs : List (Node × Node)} {key : String}
    (h : Node.find pairs key = none) : stringField y (.map pairs) key m = .error .yaml m := by
  rw [stringField, bind_ok m (field_map m pairs key), h]
  rfl

end Runs

end LogM
end Ppcode
