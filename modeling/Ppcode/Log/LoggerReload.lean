import Ppcode.Log.LoggerYaml

/-!
# A logger configuration that is refused

The reader of `src/config/log_config.h` works on the logger that the manager has under the
name: it sets the level and the formatter and clears the appenders before it reads the
first entry for an appender. An entry without a type, or a file without a path, throws;
an entry of no known type leaves the pointer null.

* `entries_read`, `entries_stop`: the loop over the entries, up to the first that is not read.
* `Live.logger`: whichever way the reader ends, the manager stays well formed.
* `changesNothing_iff`: when a text that throws leaves the logger as it was.
-/
namespace Ppcode

def Stop.thrown : Stop → Bool
  | .yaml | .logic_error _ => true
  | .exit _ | .nullPointer => false

namespace LogManager

/-! ## What is written in a text -/

/-- `node[key]`, `none` being an undefined node. -/
def key (node : Node) (k : String) : Option Node :=
  match node with
  | .map pairs => Node.find pairs k
  | _ => none

/-- The level that is read, `DEBUG` unless there is one. -/
def levelIn (node : Node) : LogLevel :=
  match key node "level" with
  | some (.scalar s) => .FromString s
  | _ => .FromString ""

/-- The formatter that is read, if any; `none` is a pattern that does not parse. -/
def formatterIn (node : Node) : Option (Option LogFormatter) :=
  match key node "formatter" with
  | some (.scalar pattern) => (LogFormatter.new pattern).map some
  | _ => some none

def typeIn (y : Yaml) (entry : Node) : Option String :=
  match key entry "type", y.nullAs with
  | some (.scalar s), _ => some s
  | some .null, some s => some s
  | _, _ => none

def hasPath (entry : Node) : Bool :=
  match key entry "path" with
  | some (.scalar _) => true
  | _ => false

/-- The entry has no type, or is a file without a path. -/
def Refused (y : Yaml) (entry : Node) : Prop :=
  typeIn y entry = none ∨ typeIn y entry = some "fileappender" ∧ hasPath entry = false

/-- The entry has a type that is neither of the two. -/
def UnknownType (y : Yaml) (entry : Node) : Prop :=
  ∃ type, typeIn y entry = some type ∧ type ≠ "fileappender" ∧ type ≠ "consoleappender"

/-- The entry is for an appender. -/
def Known (y : Yaml) (entry : Node) : Prop :=
  typeIn y entry = some "consoleappender" ∨
    typeIn y entry = some "fileappender" ∧ hasPath entry = true

/-- The entry is for an appender, and its pattern, if any, parses. -/
def Read (y : Yaml) (entry : Node) : Prop :=
  Known y entry ∧ (formatterIn entry).isSome = true

/-- A text that is read up to the entries. -/
structure Config where
  name : String
  level : LogLevel
  formatter : Option LogFormatter
  entries : List Node

/-- `none` where the reader throws, ends the process or returns before the entries. -/
def config (y : Yaml) (value : String) : Option Config :=
  match y.load value with
  | some (.map pairs) =>
    match Node.find pairs "name", formatterIn (.map pairs), Node.find pairs "appenders" with
    | some (.scalar name), some formatter, some (.seq entries) =>
      some ⟨y.emit (.scalar name), levelIn (.map pairs), formatter, entries⟩
    | _, _, _ => none
  | _ => none

/-- The name under which the manager is asked for the logger. -/
def nameIn (y : Yaml) (value : String) : Option String :=
  match y.load value with
  | some (.map pairs) =>
    match Node.find pairs "name" with
    | some (.scalar name) => some (y.emit (.scalar name))
    | _ => none
  | _ => none

/-! ## What a text that throws is to leave -/

/-- The logger has the same level, formatter and appenders. -/
structure SameSettings (m m' : LogManager) (l : Nat) : Prop where
  level : (m'.logs.loggers l).m_level = (m.logs.loggers l).m_level
  formatter : (m'.logs.loggers l).m_formatter = (m.logs.loggers l).m_formatter
  appenders : (m'.logs.loggers l).m_appenders = (m.logs.loggers l).m_appenders

/-- Where the reader of the text does not return: it has not called on a null pointer, and
if it has thrown, the logger registered under the name is as it was. -/
def ChangesNothing (y : Yaml) (m : LogManager) (value : String) : Prop :=
  ∀ e m', LogM.logger y value m = .error e m' → e ≠ .nullPointer ∧
    (e.thrown = true → ∀ name l, nameIn y value = some name → m.m_map name = some l →
      SameSettings m m' l)

/-- The logger has the level and the formatter of the text already, and no appenders. -/
structure Settled (m : LogManager) (l : Nat) (c : Config) : Prop where
  level : (m.logs.loggers l).m_level = c.level
  formatter : ∀ f, c.formatter = some f → (m.logs.loggers l).m_formatter = some f
  appenders : (m.logs.loggers l).m_appenders = []

/-- The first entry that is not read is of a known type; and if it is refused, it is the very
first one, and the logger registered under the name, if any, has nothing to lose. -/
def Meets (y : Yaml) (m : LogManager) (value : String) : Prop :=
  ∀ c, config y value = some c → ∀ before entry after, c.entries = before ++ entry :: after →
    (∀ e ∈ before, Read y e) → ¬ UnknownType y entry ∧
      (Refused y entry → ∀ l, m.m_map c.name = some l → before = [] ∧ Settled m l c)

/-- The numbers from `appendersEnd` on are those of no appender. -/
def Live (m : LogManager) : Prop :=
  ∀ l, ∀ a ∈ (m.logs.loggers l).m_appenders, a < m.appendersEnd

/-! ## One entry -/

section Entry
variable {y : Yaml} {entry : Node} (m : LogManager)

/-- Only maps have a type. -/
theorem map_of_type {type : String} (h : typeIn y entry = some type) :
    ∃ pairs, entry = .map pairs := by
  cases entry with
  | map pairs => exact ⟨pairs, rfl⟩
  | null | scalar _ | seq _ => cases h

theorem levelField_map (pairs : List (Node × Node)) :
    LogM.levelField (.map pairs) m = .ok (levelIn (.map pairs)) m := by
  rw [LogM.levelField, LogM.bind_ok m (LogM.field_map m pairs "level"), levelIn, key]
  cases Node.find pairs "level" with
  | none => rfl
  | some n => cases n <;> rfl

theorem stringField_type :
    LogM.stringField y entry "type" m = match typeIn y entry with
      | some type => .ok type m
      | none => .error .yaml m := by
  cases entry with
  | scalar _ => rfl
  | null | seq _ => rfl
  | map pairs =>
    rw [LogM.stringField, LogM.bind_ok m (LogM.field_map m pairs "type"), typeIn, key]
    cases Node.find pairs "type" with
    | none => rfl
    | some n => cases n <;> cases y.nullAs <;> rfl

theorem stringField_ok {type : String} (h : typeIn y entry = some type) :
    LogM.stringField y entry "type" m = .ok type m := by
  rw [stringField_type, h]

/-- The fields of an entry change no list of appenders. -/
theorem setFields_map (a : Nat) (pairs : List (Node × Node)) :
    ∃ m', (LogM.setFields a (.map pairs) m = match formatterIn (.map pairs) with
        | some _ => .ok () m'
        | none => .error (.exit 0) m') ∧
      m'.logs.loggers = m.logs.loggers ∧ m'.appendersEnd = m.appendersEnd := by
  unfold LogM.setFields
  rw [LogM.bind_ok m (levelField_map m pairs), LogM.bind_ok m (LogM.onLogs_apply m _),
    LogM.bind_ok _ (LogM.field_map _ pairs "formatter"), formatterIn, key]
  cases hfind : Node.find pairs "formatter" with
  | none => exact ⟨_, rfl, rfl, rfl⟩
  | some n =>
    cases n with
    | null | seq _ | map _ => exact ⟨_, rfl, rfl, rfl⟩
    | scalar pattern =>
      dsimp only [LogM.newFormatter]
      cases LogFormatter.new pattern with
      | none => exact ⟨_, rfl, rfl, rfl⟩
      | some f => exact ⟨_, rfl, rfl, rfl⟩

/-- An appender of the class `kind` with the fields of the entry is made by `x`, and added to the
logger or, where the pattern does not parse, left. -/
theorem added_map (l : Nat) (kind : AppenderKind) (pairs : List (Node × Node)) {x : LogM Nat}
    (hx : x m = (do
      let a ← LogM.newAppender (.new kind)
      LogM.setFields a (.map pairs)
      return a : LogM Nat) m) :
    ∃ m' : LogManager, ((do
        let a ← x
        LogM.onLogs fun s => s.addAppender l a : LogM Unit) m = match formatterIn (.map pairs) with
        | some _ => .ok () { m' with logs := m'.logs.addAppender l m.appendersEnd }
        | none => .error (.exit 0) m') ∧
      m'.logs.loggers = m.logs.loggers ∧ m'.appendersEnd = m.appendersEnd + 1 := by
  obtain ⟨m', hfields, hloggers, hend⟩ := setFields_map
    { m with
      logs := m.logs.setAppender m.appendersEnd (.new kind)
      appendersEnd := m.appendersEnd + 1 } m.appendersEnd pairs
  refine ⟨m', ?_, hloggers, hend⟩
  rw [LogM.bind_ok m (x := LogM.newAppender (.new kind)) rfl] at hx
  cases hparse : formatterIn (.map pairs) with
  | none =>
    rw [hparse] at hfields
    rw [LogM.bind_error _ hfields] at hx
    exact LogM.bind_error m hx _
  | some f =>
    rw [hparse] at hfields
    rw [LogM.bind_ok _ hfields] at hx
    rw [LogM.bind_ok m hx]
    rfl

/-- An entry that the reader throws at changes nothing. -/
theorem addAppender_refused (l : Nat) (h : Refused y entry) :
    ∃ e, LogM.addAppender y l entry m = .error e m ∧ e.thrown = true := by
  unfold LogM.addAppender
  rcases h with hnone | htype
  · refine ⟨.yaml, LogM.bind_error m ?_ _, rfl⟩
    rw [stringField_type, hnone]
  · obtain ⟨htype, hpath⟩ := htype
    obtain ⟨pairs, rfl⟩ := map_of_type htype
    rw [LogM.bind_ok m (stringField_ok m htype), if_pos rfl]
    refine ⟨.logic_error "name is null", LogM.bind_error m ?_ _, rfl⟩
    unfold LogM.fileAppender
    rw [LogM.bind_ok m (LogM.load_emit y m _), LogM.bind_ok m (LogM.field_map m pairs "path")]
    rw [hasPath, key] at hpath
    cases hfind : Node.find pairs "path" with
    | none => rfl
    | some n =>
      cases n with
      | null | seq _ | map _ => rfl
      | scalar path =>
        rw [hfind] at hpath
        cases hpath

/-- An entry of another type leaves the pointer null. -/
theorem addAppender_unknown (l : Nat) (h : UnknownType y entry) :
    LogM.addAppender y l entry m = .error .nullPointer m := by
  obtain ⟨type, htype, hfile, hconsole⟩ := h
  unfold LogM.addAppender
  rw [LogM.bind_ok m (stringField_ok m htype), if_neg hfile, if_neg hconsole]
  rfl

/-- An entry for an appender is added, or ends the process. -/
theorem addAppender_known (l : Nat) (h : Known y entry) :
    ∃ m' : LogManager, (LogM.addAppender y l entry m = match formatterIn entry with
        | some _ => .ok () { m' with logs := m'.logs.addAppender l m.appendersEnd }
        | none => .error (.exit 0) m') ∧
      m'.logs.loggers = m.logs.loggers ∧ m'.appendersEnd = m.appendersEnd + 1 := by
  unfold LogM.addAppender
  rcases h with htype | hfile
  · obtain ⟨pairs, rfl⟩ := map_of_type htype
    rw [LogM.bind_ok m (stringField_ok m htype), if_neg (by decide), if_pos rfl]
    refine added_map m l .console pairs ?_
    rw [LogM.consoleAppender, LogM.bind_ok m (LogM.load_emit y m _)]
  · obtain ⟨htype, hpath⟩ := hfile
    obtain ⟨pairs, rfl⟩ := map_of_type htype
    rw [LogM.bind_ok m (stringField_ok m htype), if_pos rfl]
    rw [hasPath, key] at hpath
    cases hfind : Node.find pairs "path" with
    | none =>
      rw [hfind] at hpath
      cases hpath
    | some n =>
      cases n with
      | null | seq _ | map _ =>
        rw [hfind] at hpath
        cases hpath
      | scalar path =>
        refine added_map m l (.file path) pairs ?_
        rw [LogM.fileAppender, LogM.bind_ok m (LogM.load_emit y m _),
          LogM.bind_ok m (LogM.field_map m pairs "path"), hfind]

end Entry

/-! ## The entries -/

section Entries
variable {y : Yaml} {m : LogManager} {l : Nat}

/-- As many new appenders as there are entries, and no other change to the loggers. -/
theorem entries_read (l : Nat) {before : List Node} (h : ∀ e ∈ before, Read y e)
    (m : LogManager) :
    ∃ m', before.forM (LogM.addAppender y l) m = .ok () m' ∧
      m'.logs.loggers = Function.update m.logs.loggers l { m.logs.loggers l with
        m_appenders := (m.logs.loggers l).m_appenders ++
          List.range' m.appendersEnd before.length } ∧
      m'.appendersEnd = m.appendersEnd + before.length := by
  induction before generalizing m with
  | nil => exact ⟨m, rfl, by simp, rfl⟩
  | cons entry before ih =>
    obtain ⟨hknown, hparse⟩ := h entry List.mem_cons_self
    obtain ⟨f, hf⟩ := Option.isSome_iff_exists.mp hparse
    obtain ⟨m₁, hadd, hloggers₁, hend₁⟩ := addAppender_known m l hknown
    rw [hf] at hadd
    obtain ⟨m₂, hrest, hloggers₂, hend₂⟩ := ih (fun e he => h e (List.mem_cons_of_mem _ he))
      { m₁ with logs := m₁.logs.addAppender l m.appendersEnd }
    refine ⟨m₂, ?_, ?_, ?_⟩
    · exact (LogM.bind_ok m hadd _).trans hrest
    · rw [hloggers₂]
      simp only [Logs.addAppender_loggers, hloggers₁, hend₁, Function.update_self,
        Function.update_idem, List.append_assoc, List.length_cons, List.range'_succ,
        List.singleton_append]
    · rw [hend₂, hend₁, List.length_cons]
      omega

/-- The first entry that is not read ends the loop. -/
theorem entries_stop {before : List Node} {entry : Node} (after : List Node) {m₁ m₂ : LogManager}
    {e : Stop} (hread : before.forM (LogM.addAppender y l) m = .ok () m₁)
    (hstop : LogM.addAppender y l entry m₁ = .error e m₂) :
    (before ++ entry :: after).forM (LogM.addAppender y l) m = .error e m₂ := by
  have happend : (before ++ entry :: after).forM (LogM.addAppender y l) = (do
      before.forM (LogM.addAppender y l)
      (entry :: after).forM (LogM.addAppender y l)) := List.forM_append
  rw [happend, LogM.bind_ok m hread]
  exact LogM.bind_error m₁ hstop _

/-- Either all entries are read, or there is a first that is not. -/
theorem entries_split (y : Yaml) (entries : List Node) :
    (∀ e ∈ entries, Read y e) ∨ ∃ before entry after, entries = before ++ entry :: after ∧
      (∀ e ∈ before, Read y e) ∧ ¬ Read y entry := by
  induction entries with
  | nil => exact .inl nofun
  | cons entry entries ih =>
    by_cases hread : Read y entry
    · rcases ih with hall | hex
      · exact .inl (List.forall_mem_cons.mpr ⟨hread, hall⟩)
      · obtain ⟨before, e, after, rfl, hbefore, he⟩ := hex
        exact .inr ⟨entry :: before, e, after, rfl, List.forall_mem_cons.mpr ⟨hread, hbefore⟩, he⟩
    · exact .inr ⟨[], entry, entries, rfl, nofun, hread⟩

/-- An entry that is not read is refused, of an unknown type, or ends the process. -/
theorem not_read {entry : Node} (h : ¬ Read y entry) :
    Refused y entry ∨ UnknownType y entry ∨ Known y entry ∧ formatterIn entry = none := by
  cases htype : typeIn y entry with
  | none => exact .inl (.inl htype)
  | some type =>
    by_cases hfile : type = "fileappender"
    · subst hfile
      cases hpath : hasPath entry with
      | false => exact .inl (.inr ⟨htype, hpath⟩)
      | true =>
        have hknown : Known y entry := .inr ⟨htype, hpath⟩
        exact .inr (.inr ⟨hknown, by simpa [Read, hknown] using h⟩)
    · by_cases hconsole : type = "consoleappender"
      · subst hconsole
        have hknown : Known y entry := .inl htype
        exact .inr (.inr ⟨hknown, by simpa [Read, hknown] using h⟩)
      · exact .inr (.inl ⟨type, htype, hfile, hconsole⟩)

end Entries

/-! ## The text -/

section Text
variable {y : Yaml} {value : String} {c : Config}

/-- The logger `l` when the first entry is read. -/
def begun (m : LogManager) (l : Nat) (c : Config) : LogManager :=
  let logs := m.logs.setLogger l { m.logs.loggers l with m_level := c.level }
  let logs := match c.formatter with
    | some f => logs.setFormatter l (some f)
    | none => logs
  { m with logs := logs.clearAllAppenders l }

@[simp] theorem begun_end (m : LogManager) (l : Nat) (c : Config) :
    (begun m l c).appendersEnd = m.appendersEnd := rfl

theorem begun_loggers (m : LogManager) (l : Nat) (c : Config) :
    (begun m l c).logs.loggers = Function.update m.logs.loggers l { m.logs.loggers l with
      m_level := c.level
      m_formatter := c.formatter.or (m.logs.loggers l).m_formatter
      m_appenders := [] } := by
  unfold begun
  cases c.formatter with
  | none => simp [Logs.clearAllAppenders, Logs.setLogger]
  | some f => simp [Logs.clearAllAppenders, Logs.setFormatter, Logs.setLogger]

/-- The logger `l` with its level and its formatter, and its appenders as before. -/
def named (m : LogManager) (l : Nat) (level : LogLevel) (formatter : Option LogFormatter) :
    LogManager :=
  let logs := m.logs.setLogger l { m.logs.loggers l with m_level := level }
  { m with logs := match formatter with
    | some f => logs.setFormatter l (some f)
    | none => logs }

/-- What the reader does with `node["appenders"]`. -/
theorem appenders_field (pairs : List (Node × Node)) (l : Nat) (m : LogManager) :
    (do
      match ← LogM.field (.map pairs) "appenders" with
      | some (.seq appenders) => do
        LogM.onLogs fun s => s.clearAllAppenders l
        appenders.forM (LogM.addAppender y l)
      | _ => pure ()
      return l : LogM Nat) m =
    match Node.find pairs "appenders" with
    | some (.seq entries) =>
      (do
        entries.forM (LogM.addAppender y l)
        return l : LogM Nat) { m with logs := m.logs.clearAllAppenders l }
    | _ => .ok l m := by
  rw [LogM.bind_ok m (LogM.field_map m pairs "appenders")]
  cases Node.find pairs "appenders" with
  | none => rfl
  | some n =>
    cases n with
    | null | scalar _ | map _ => rfl
    | seq entries => exact LogM.bind_ok m (LogM.onLogs_apply m _) _

theorem load_ok {node : Node} (h : y.load value = some node) (m : LogManager) :
    LogM.load y value m = .ok node m := by
  rw [LogM.load, h]
  rfl

/-- What is read of a map with a name. -/
theorem logger_named {pairs : List (Node × Node)} {name : String}
    (hload : y.load value = some (.map pairs))
    (hname : Node.find pairs "name" = some (.scalar name)) (m : LogManager) :
    (formatterIn (.map pairs) = none ∧ ∃ m', LogM.logger y value m = .error (.exit 0) m') ∨
    ∃ formatter, formatterIn (.map pairs) = some formatter ∧ LogM.logger y value m =
      match Node.find pairs "appenders" with
      | some (.seq entries) =>
        (do
          entries.forM (LogM.addAppender y (got m (y.emit (.scalar name))))
          return got m (y.emit (.scalar name)) : LogM Nat)
          (begun (afterGet m (y.emit (.scalar name))) (got m (y.emit (.scalar name)))
            ⟨y.emit (.scalar name), levelIn (.map pairs), formatter, entries⟩)
      | _ => .ok (got m (y.emit (.scalar name)))
          (named (afterGet m (y.emit (.scalar name))) (got m (y.emit (.scalar name)))
            (levelIn (.map pairs)) formatter) := by
  unfold LogM.logger
  rw [LogM.bind_ok m (load_ok hload m), LogM.bind_ok m (LogM.field_map m pairs "name"), hname]
  dsimp only
  rw [LogM.bind_ok m (getLogger_eq m _), LogM.bind_ok _ (levelField_map _ pairs),
    LogM.bind_ok _ (LogM.onLogs_apply _ _), LogM.bind_ok _ (LogM.field_map _ pairs "formatter"),
    formatterIn, key]
  cases Node.find pairs "formatter" with
  | none => exact .inr ⟨none, rfl, appenders_field pairs _ _⟩
  | some n =>
    cases n with
    | null | seq _ | map _ => exact .inr ⟨none, rfl, appenders_field pairs _ _⟩
    | scalar pattern =>
      dsimp only [LogM.newFormatter]
      cases LogFormatter.new pattern with
      | none => exact .inl ⟨rfl, _, rfl⟩
      | some f => exact .inr ⟨some f, rfl, appenders_field pairs _ _⟩

/-- A text that gets to the entries comes down to the loop over them. -/
theorem logger_config (h : config y value = some c) (m : LogManager) :
    LogM.logger y value m =
      (do
        c.entries.forM (LogM.addAppender y (got m c.name))
        return got m c.name : LogM Nat)
        (begun (afterGet m c.name) (got m c.name) c) := by
  unfold config at h
  split at h
  · rename_i pairs hload
    split at h
    · rename_i name formatter entries hname hparse hentries
      cases h
      rcases logger_named hload hname m with hnone | hsome
      · rw [hparse] at hnone
        cases hnone.1
      · obtain ⟨formatter', hparse', hrun⟩ := hsome
        cases hparse.symm.trans hparse'
        rw [hrun, hentries]
    · cases h
  · cases h

/-- A text without a name throws before it has done anything. -/
theorem logger_nameless (h : nameIn y value = none) (m : LogManager) :
    ∃ e, LogM.logger y value m = .error e m ∧ e.thrown = true := by
  unfold LogM.logger
  cases hload : y.load value with
  | none =>
    have herror : LogM.load y value m = .error .yaml m := by
      rw [LogM.load, hload]
      rfl
    exact ⟨.yaml, LogM.bind_error m herror _, rfl⟩
  | some node =>
    rw [LogM.bind_ok m (load_ok hload m)]
    cases node with
    | scalar _ => exact ⟨.yaml, rfl, rfl⟩
    | null | seq _ => exact ⟨.logic_error "log config name is null", rfl, rfl⟩
    | map pairs =>
      simp only [nameIn, hload] at h
      rw [LogM.bind_ok m (LogM.field_map m pairs "name")]
      cases hfind : Node.find pairs "name" with
      | none => exact ⟨.logic_error "log config name is null", rfl, rfl⟩
      | some n =>
        cases n with
        | null | seq _ | map _ => exact ⟨.logic_error "log config name is null", rfl, rfl⟩
        | scalar name =>
          rw [hfind] at h
          cases h

theorem map_of_name {name : String} (h : nameIn y value = some name) :
    ∃ pairs s, y.load value = some (.map pairs) ∧ Node.find pairs "name" = some (.scalar s) := by
  unfold nameIn at h
  split at h
  · rename_i pairs hload
    split at h
    · rename_i s hname
      exact ⟨pairs, s, hload, hname⟩
    · cases h
  · cases h

/-- A text that does not get to the entries, and throws, does so before it has done anything. -/
theorem logger_other {m m' : LogManager} {e : Stop} (h : config y value = none)
    (hrun : LogM.logger y value m = .error e m') : e = .exit 0 ∨ e.thrown = true ∧ m' = m := by
  cases hname : nameIn y value with
  | none =>
    obtain ⟨e', herror, hthrown⟩ := logger_nameless hname m
    cases herror.symm.trans hrun
    exact .inr ⟨hthrown, rfl⟩
  | some name =>
    obtain ⟨pairs, s, hload, hfound⟩ := map_of_name hname
    rcases logger_named hload hfound m with hnone | hsome
    · obtain ⟨-, m'', hexit⟩ := hnone
      cases hexit.symm.trans hrun
      exact .inl rfl
    · obtain ⟨formatter, hparse, hrun'⟩ := hsome
      rw [hrun'] at hrun
      simp only [config, hload, hfound, hparse] at h
      cases hfind : Node.find pairs "appenders" with
      | none =>
        rw [hfind] at hrun
        cases hrun
      | some n =>
        cases n with
        | null | scalar _ | map _ =>
          rw [hfind] at hrun
          cases hrun
        | seq entries =>
          rw [hfind] at h
          cases h

theorem nameIn_config (h : config y value = some c) : nameIn y value = some c.name := by
  unfold config at h
  split at h
  · rename_i pairs hload
    split at h
    · rename_i name formatter entries hname hparse hentries
      cases h
      simp only [nameIn, hload, hname]
    · cases h
  · cases h

end Text

/-! ## The law -/

section Law
variable {y : Yaml} {m : LogManager} {value : String} {c : Config}

/-- Where the first entry that is not read comes after `before`: the reader stops as that entry
stops it, in a state where the registered logger has the level and the formatter of the text and
as many new appenders as were read. -/
theorem logger_stop (hc : config y value = some c) {before after : List Node} {entry : Node}
    (hentries : c.entries = before ++ entry :: after) (hread : ∀ e ∈ before, Read y e) :
    ∃ m₁, (∀ e m₂, LogM.addAppender y (got m c.name) entry m₁ = .error e m₂ →
        LogM.logger y value m = .error e m₂) ∧
      ∀ l, m.m_map c.name = some l → m₁.logs.loggers l = { m.logs.loggers l with
        m_level := c.level
        m_formatter := c.formatter.or (m.logs.loggers l).m_formatter
        m_appenders := List.range' m.appendersEnd before.length } := by
  obtain ⟨m₁, hrun, hloggers, -⟩ :=
    entries_read (got m c.name) hread (begun (afterGet m c.name) (got m c.name) c)
  refine ⟨m₁, fun e m₂ hstop => ?_, fun l hl => ?_⟩
  · rw [logger_config hc, hentries]
    exact LogM.bind_error _ (entries_stop after hrun hstop) _
  · have hgot : got m c.name = l := by rw [got, hl, Option.getD_some]
    have hafter : afterGet m c.name = m := by rw [afterGet, hl]
    rw [hloggers, hgot, hafter, Function.update_self, begun_loggers, Function.update_self,
      List.nil_append, begun_end]

/-- Such a logger is as it was exactly when it had nothing to lose. -/
theorem same_iff (hlive : Live m) {m' : LogManager} {l k : Nat}
    (h : m'.logs.loggers l = { m.logs.loggers l with
      m_level := c.level
      m_formatter := c.formatter.or (m.logs.loggers l).m_formatter
      m_appenders := List.range' m.appendersEnd k }) :
    SameSettings m m' l ↔ k = 0 ∧ Settled m l c := by
  constructor
  · intro hsame
    obtain ⟨hlevel, hformatter, happenders⟩ := hsame
    rw [h] at hlevel hformatter happenders
    have hk : k = 0 := by
      cases k with
      | zero => rfl
      | succ k =>
        have hnew : m.appendersEnd ∈ (m.logs.loggers l).m_appenders := by
          rw [← happenders, List.range'_succ]
          exact List.mem_cons_self
        exact absurd (hlive l _ hnew) (Nat.lt_irrefl _)
    subst hk
    refine ⟨rfl, hlevel.symm, fun f hf => ?_, happenders.symm⟩
    rw [← hformatter, hf]
    rfl
  · intro hsettled
    obtain ⟨rfl, hlevel, hformatter, happenders⟩ := hsettled
    constructor
    · rw [h, hlevel]
    · rw [h]
      cases hf : c.formatter with
      | none => rfl
      | some f => exact (hformatter f hf).symm
    · rw [h, happenders]
      rfl

/-- A text on which the reader throws leaves the registered logger as it was, and no text has it
call on a null pointer, exactly when the first entry that is not read is of a known type
and, where that is refused, comes first and finds the logger with the settings of the text
and without appenders. -/
theorem changesNothing_iff (y : Yaml) (m : LogManager) (value : String) (hlive : Live m) :
    ChangesNothing y m value ↔ Meets y m value := by
  constructor
  · intro h c hc before entry after hentries hread
    obtain ⟨m₁, hstop, hlogger⟩ := logger_stop (m := m) hc hentries hread
    constructor
    · intro hunknown
      exact (h _ _ (hstop _ _ (addAppender_unknown m₁ _ hunknown))).1 rfl
    · intro hrefused l hl
      obtain ⟨e, he, hthrown⟩ := addAppender_refused m₁ (got m c.name) hrefused
      have hsame := (h _ _ (hstop _ _ he)).2 hthrown c.name l (nameIn_config hc) hl
      obtain ⟨hlen, hsettled⟩ := (same_iff hlive (hlogger l hl)).mp hsame
      exact ⟨List.eq_nil_of_length_eq_zero hlen, hsettled⟩
  · intro h e m' hrun
    cases hc : config y value with
    | none =>
      rcases logger_other hc hrun with rfl | hkept
      · exact ⟨nofun, nofun⟩
      · obtain ⟨hthrown, rfl⟩ := hkept
        refine ⟨fun hnull => ?_, fun _ _ _ _ _ => ⟨rfl, rfl, rfl⟩⟩
        rw [hnull] at hthrown
        cases hthrown
    | some c =>
      rcases entries_split y c.entries with hall | hex
      · obtain ⟨m₁, hread, -⟩ :=
          entries_read (got m c.name) hall (begun (afterGet m c.name) (got m c.name) c)
        rw [logger_config hc, LogM.bind_ok _ hread] at hrun
        cases hrun
      · obtain ⟨before, entry, after, hentries, hread, hnot⟩ := hex
        obtain ⟨hknown, hsettled⟩ := h c hc before entry after hentries hread
        obtain ⟨m₁, hstop, hlogger⟩ := logger_stop (m := m) hc hentries hread
        rcases not_read hnot with hrefused | hunknown | hexits
        · obtain ⟨e', he', hthrown⟩ := addAppender_refused m₁ (got m c.name) hrefused
          cases (hstop _ _ he').symm.trans hrun
          refine ⟨fun hnull => ?_, fun _ name l hname hl => ?_⟩
          · rw [hnull] at hthrown
            cases hthrown
          · rw [nameIn_config hc] at hname
            cases hname
            obtain ⟨rfl, hs⟩ := hsettled hrefused l hl
            exact (same_iff hlive (hlogger l hl)).mpr ⟨rfl, hs⟩
        · exact absurd hunknown hknown
        · obtain ⟨hknown, hparse⟩ := hexits
          obtain ⟨m₂, hadd, -⟩ := addAppender_known m₁ (got m c.name) hknown
          rw [hparse] at hadd
          cases (hstop _ _ hadd).symm.trans hrun
          exact ⟨nofun, nofun⟩

end Law

/-! ## Well-formed managers -/

section WellFormed
variable {A B : Type} {P : LogManager → Prop} {m : LogManager} {l : Nat}

/-- From `P`, a run ends well formed, and as `Q` says where it returns. -/
def Keeps (x : LogM A) (P : LogManager → Prop) (Q : A → LogManager → Prop) : Prop :=
  ∀ m, P m → match x m with
    | .ok a m' => Q a m'
    | .error _ m' => Live m'

theorem Keeps.bind {x : LogM A} {f : A → LogM B} {Q : A → LogManager → Prop}
    {R : B → LogManager → Prop} (hx : Keeps x P Q) (hf : ∀ a, Keeps (f a) (Q a) R) :
    Keeps (x >>= f) P R := by
  intro m hm
  have hxm := hx m hm
  cases hrun : x m with
  | ok a m' =>
    rw [hrun] at hxm
    rw [LogM.bind_ok m hrun]
    exact hf a m' hxm
  | error e m' =>
    rw [hrun] at hxm
    rw [LogM.bind_error m hrun]
    exact hxm

theorem Keeps.pure {a : A} {Q : A → LogManager → Prop} (h : ∀ m, P m → Q a m) :
    Keeps (Pure.pure a : LogM A) P Q := h

theorem Keeps.onLogs {f : Logs LogFormatter → Logs LogFormatter} {Q : Unit → LogManager → Prop}
    (h : ∀ m, P m → Q () { m with logs := f m.logs }) : Keeps (LogM.onLogs f) P Q := h

/-- A run that changes nothing. -/
theorem Keeps.reads {x : LogM A} (hP : ∀ m, P m → Live m)
    (h : ∀ m, (∃ a, x m = .ok a m) ∨ ∃ e, x m = .error e m) : Keeps x P fun _ => P := by
  intro m hm
  rcases h m with hok | herror
  · obtain ⟨a, ha⟩ := hok
    rw [ha]
    exact hm
  · obtain ⟨e, he⟩ := herror
    rw [he]
    exact hP m hm

theorem load_reads (y : Yaml) (value : String) (m : LogManager) :
    (∃ a, LogM.load y value m = .ok a m) ∨ ∃ e, LogM.load y value m = .error e m := by
  unfold LogM.load
  cases y.load value with
  | none => exact .inr ⟨_, rfl⟩
  | some node => exact .inl ⟨_, rfl⟩

theorem field_reads (node : Node) (k : String) (m : LogManager) :
    (∃ a, LogM.field node k m = .ok a m) ∨ ∃ e, LogM.field node k m = .error e m := by
  cases node with
  | scalar s => exact .inr ⟨_, rfl⟩
  | null | seq _ | map _ => exact .inl ⟨_, rfl⟩

theorem newFormatter_reads (pattern : String) (m : LogManager) :
    (∃ a, LogM.newFormatter pattern m = .ok a m) ∨
      ∃ e, LogM.newFormatter pattern m = .error e m := by
  unfold LogM.newFormatter
  cases LogFormatter.new pattern with
  | none => exact .inr ⟨_, rfl⟩
  | some f => exact .inl ⟨_, rfl⟩

theorem levelField_keeps (hP : ∀ m, P m → Live m) (node : Node) :
    Keeps (LogM.levelField node) P fun _ => P := by
  refine .bind (.reads hP (field_reads node "level")) fun n => ?_
  split <;> exact .pure fun _ hm => hm

theorem stringField_keeps (hP : ∀ m, P m → Live m) (y : Yaml) (node : Node) (k : String) :
    Keeps (LogM.stringField y node k) P fun _ => P := by
  refine .bind (.reads hP (field_reads node k)) fun n => ?_
  split
  · exact .pure fun _ hm => hm
  · exact .pure fun _ hm => hm
  · exact .reads hP fun m => .inr ⟨_, rfl⟩

/-- Fewer appenders are in the lists, and none has gone. -/
theorem Live.mono {m' : LogManager} (h : Live m) (hend : m.appendersEnd ≤ m'.appendersEnd)
    (hsub : ∀ l, (m'.logs.loggers l).m_appenders ⊆ (m.logs.loggers l).m_appenders) : Live m' :=
  fun l a ha => (h l a (hsub l ha)).trans_le hend

theorem Live.setLogger (h : Live m) {v : Logger LogFormatter}
    (hv : v.m_appenders ⊆ (m.logs.loggers l).m_appenders) :
    Live { m with logs := m.logs.setLogger l v } := by
  refine h.mono le_rfl fun l' => ?_
  by_cases hl : l' = l
  · subst hl
    simpa using hv
  · rw [Logs.setLogger_of_ne _ _ hl]
    exact List.Subset.refl _

/-- There is an appender `a`. -/
def Held (a : Nat) (m : LogManager) : Prop := Live m ∧ a < m.appendersEnd

theorem setFields_keeps (a : Nat) (node : Node) :
    Keeps (LogM.setFields a node) (Held a) fun _ => Held a := by
  have hlive : ∀ m, Held a m → Live m := fun _ hm => hm.1
  refine .bind (levelField_keeps hlive node) fun level => ?_
  refine .bind (Q := fun _ => Held a) (.onLogs fun _ hm => hm) fun _ => ?_
  refine .bind (.reads hlive (field_reads node "formatter")) fun n => ?_
  split
  · exact .bind (.reads hlive (newFormatter_reads _)) fun f => .onLogs fun _ hm => hm
  · exact .pure fun _ hm => hm

/-- An appender is made and has its fields set. -/
theorem made_keeps (kind : AppenderKind) (node : Node) :
    Keeps (do
      let a ← LogM.newAppender (.new kind)
      LogM.setFields a node
      return a : LogM Nat) Live Held := by
  have hnew : Keeps (LogM.newAppender (.new kind)) Live Held := fun m hm =>
    ⟨hm.mono (Nat.le_succ _) fun _ => List.Subset.refl _, Nat.lt_succ_self _⟩
  exact .bind hnew fun a => .bind (setFields_keeps a node) fun _ => .pure fun _ hm => hm

theorem addAppender_keeps (y : Yaml) (l : Nat) (entry : Node) :
    Keeps (LogM.addAppender y l entry) Live fun _ => Live := by
  have hadd (a : Nat) :
      Keeps (LogM.onLogs fun s => s.addAppender l a) (Held a) fun _ => Live := by
    refine .onLogs fun m hm => ?_
    obtain ⟨hlive, ha⟩ := hm
    intro l' b hb
    rw [Logs.addAppender_loggers] at hb
    by_cases hl : l' = l
    · subst hl
      rw [Function.update_self, List.mem_append, List.mem_singleton] at hb
      rcases hb with hold | rfl
      · exact hlive _ b hold
      · exact ha
    · rw [Function.update_of_ne hl] at hb
      exact hlive l' b hb
  have hid : ∀ m, Live m → Live m := fun _ hm => hm
  refine .bind (stringField_keeps hid y entry "type") fun type => ?_
  split
  · refine .bind (.bind (.reads hid (load_reads y _)) fun node => ?_) hadd
    refine .bind (.reads hid (field_reads node "path")) fun path => ?_
    split
    · exact made_keeps _ node
    · exact fun m hm => hm
  · split
    · exact .bind (.bind (.reads hid (load_reads y _)) fun node => made_keeps .console node) hadd
    · exact .bind (fun m hm => hm) hadd

theorem Live.afterGet (h : Live m) (name : String) : Live (afterGet m name) := by
  unfold LogManager.afterGet
  split
  · exact h
  · exact (h.setLogger (List.nil_subset _)).mono le_rfl fun _ => List.Subset.refl _

theorem Live.setFormatter (h : Live m) (value : Option LogFormatter) :
    Live { m with logs := m.logs.setFormatter l value } := by
  refine (h.setLogger (v := { m.logs.loggers l with m_formatter := value })
    (List.Subset.refl _)).mono le_rfl fun l' => ?_
  rw [Logs.setFormatter, Logs.setFormatters_loggers]
  exact List.Subset.refl _

theorem entries_keeps (y : Yaml) (l : Nat) (entries : List Node) :
    Keeps (entries.forM (LogM.addAppender y l)) Live fun _ => Live := by
  induction entries with
  | nil => exact .pure fun _ hm => hm
  | cons entry entries ih => exact .bind (addAppender_keeps y l entry) fun _ => ih

/-- However the reader ends, the manager is well formed. -/
theorem logger_keeps (y : Yaml) (value : String) :
    Keeps (LogM.logger y value) Live fun _ => Live := by
  have hid : ∀ m, Live m → Live m := fun _ hm => hm
  refine .bind (.reads hid (load_reads y value)) fun node => ?_
  refine .bind (.reads hid (field_reads node "name")) fun name => ?_
  split
  · have hget (name : String) : Keeps (LogM.getLogger name) Live fun _ => Live := fun m hm => by
      rw [getLogger_eq]
      exact hm.afterGet name
    refine .bind (hget _) fun l => .bind (levelField_keeps hid node) fun level => ?_
    refine .bind (Q := fun _ => Live) (.onLogs fun m hm => hm.setLogger (List.Subset.refl _))
      fun _ => ?_
    have happenders : Keeps (do
        match ← LogM.field node "appenders" with
        | some (.seq appenders) => do
          LogM.onLogs fun s => s.clearAllAppenders l
          appenders.forM (LogM.addAppender y l)
        | _ => Pure.pure ()
        return l : LogM Nat) Live fun _ => Live := by
      refine .bind (.reads hid (field_reads node "appenders")) fun n => ?_
      split
      · refine .bind (Q := fun _ => Live)
          (.onLogs fun m hm => hm.setLogger (List.nil_subset _)) fun _ => ?_
        exact .bind (entries_keeps y l _) fun _ => .pure fun _ hm => hm
      · exact .pure fun _ hm => hm
    refine .bind (.reads hid (field_reads node "formatter")) fun n => ?_
    split
    · refine .bind (.reads hid (newFormatter_reads _)) fun f => ?_
      exact .bind (Q := fun _ => Live) (.onLogs fun m hm => hm.setFormatter _) fun _ => happenders
    · exact happenders
  · exact fun m hm => hm

/-- The manager after reading texts, some of which may not have been read. -/
def readAll (y : Yaml) (m : LogManager) (values : List String) : LogManager :=
  values.foldl (fun m value => match LogM.logger y value m with
    | .ok _ m' | .error _ m' => m') m

theorem live_new : Live new := by
  intro l a ha
  rw [new, Logs.addAppender_loggers] at ha
  by_cases hl : l = 0
  · subst hl
    simp [Logger.new] at ha
    simp [new, ha]
  · rw [Function.update_of_ne hl] at ha
    cases ha

/-- Every state that the manager gets into is well formed. -/
theorem live_readAll (y : Yaml) (values : List String) {m : LogManager} (h : Live m) :
    Live (readAll y m values) := by
  induction values generalizing m with
  | nil => exact h
  | cons value values ih =>
    have hone := logger_keeps y value m h
    have hnext : Live (match LogM.logger y value m with
        | .ok _ m' | .error _ m' => m') := by
      cases hrun : LogM.logger y value m with
      | ok l m' => simpa only [hrun] using hone
      | error e m' => simpa only [hrun] using hone
    exact ih hnext

end WellFormed

/-! ## Two texts -/

/-- A text for the logger `name` with one entry for an appender. -/
def textWith (name : String) (entry : List (Node × Node)) : String :=
  flowYaml.emit (.map [(.scalar "name", .scalar name), (.scalar "appenders", .seq [.map entry])])

theorem config_textWith (name : String) (entry : List (Node × Node)) :
    config flowYaml (textWith name entry) =
      some ⟨flowYaml.emit (.scalar name), .DEBUG, none, [.map entry]⟩ := by
  unfold config textWith
  rw [flowYaml.load_emit]
  rfl

theorem emit_root : flowYaml.emit (.scalar "root") = "root" := by decide

/-- An entry without a type empties the root logger, and one of another type has the reader call
on a null pointer. -/
theorem root_emptied :
    ¬ ChangesNothing flowYaml new (textWith "root" [(.scalar "level", .scalar "INFO")]) ∧
    ¬ ChangesNothing flowYaml new (textWith "root" [(.scalar "type", .scalar "syslog")]) := by
  constructor
  · intro h
    have hc := config_textWith "root" [(.scalar "level", .scalar "INFO")]
    obtain ⟨m₁, hstop, hlogger⟩ := logger_stop (m := new) hc (List.nil_append _).symm nofun
    have hrefused : Refused flowYaml (.map [(.scalar "level", .scalar "INFO")]) := .inl rfl
    obtain ⟨e, he, hthrown⟩ :=
      addAppender_refused m₁ (got new (flowYaml.emit (.scalar "root"))) hrefused
    have hroot : new.m_map (flowYaml.emit (.scalar "root")) = some 0 := by
      rw [emit_root]
      rfl
    have hsame := (h _ _ (hstop _ _ he)).2 hthrown _ 0 (nameIn_config hc) hroot
    have hempty := hsame.appenders
    rw [hlogger 0 hroot] at hempty
    cases hempty
  · intro h
    obtain ⟨m₁, hstop, -⟩ := logger_stop (m := new)
      (config_textWith "root" [(.scalar "type", .scalar "syslog")]) (List.nil_append _).symm nofun
    exact (h _ _ (hstop _ _ (addAppender_unknown m₁ _
      ⟨"syslog", rfl, by decide, by decide⟩))).1 rfl

theorem emit_app : flowYaml.emit (.scalar "app") = "app" := by decide

/-- An entry without a type, for a logger that has been made and nothing else. -/
theorem changesNothing_app : (afterGet new "app").m_map "app" = some 1 ∧
    ChangesNothing flowYaml (afterGet new "app") (textWith "app" [(.scalar "level", .scalar "INFO")])
      := by
  have happ : (afterGet new "app").m_map "app" = some 1 := by decide
  refine ⟨happ, (changesNothing_iff flowYaml _ _ (live_new.afterGet "app")).mpr
    fun c hc before entry after hentries _ => ?_⟩
  rw [config_textWith] at hc
  cases hc
  have hone : before = [] ∧ entry = .map [(.scalar "level", .scalar "INFO")] := by
    cases before with
    | nil =>
      rw [List.nil_append] at hentries
      exact ⟨rfl, (List.cons.inj hentries).1.symm⟩
    | cons e before => simp at hentries
  obtain ⟨rfl, rfl⟩ := hone
  refine ⟨fun hunknown => ?_, fun _ l hl => ⟨rfl, ?_⟩⟩
  · obtain ⟨type, htype, -⟩ := hunknown
    cases htype
  · simp only [emit_app] at hl
    rw [happ] at hl
    cases hl
    exact ⟨rfl, nofun, rfl⟩

end LogManager
end Ppcode
