import Mathlib.Data.List.Infix
import Mathlib.Logic.Function.Basic

/-!
# `Logger` and `Appender`

`src/log/logger.cc` and `src/log/log_appender.cc`. A logger has a list of
appenders; both may have a formatter. Loggers, appenders and formatters are
shared objects: here loggers and appenders are named by their addresses in
`Logs`, and a formatter (`F`) is a value, `none` being the null pointer.

An appender writes with its own formatter when `m_hasFormatter` is set, and with
that of the logger it is called by otherwise (`formatterFor`). The flag is
written by `Appender::setFormatter` alone, which `Logger` also calls: when an
appender without a formatter is added, and, in `Logger::setFormatter`, for the
appenders whose flag is set.
-/
namespace Ppcode

/-- mirrors src/log/log_level.h:22-30 -/
inductive LogLevel where
  | ALL | DEBUG | INFO | WARN | ERROR | FATAL | OFF
  deriving DecidableEq, Repr

/-- The class of an appender, with the members of its own. -/
inductive AppenderKind where
  | console
  | file (m_fileName : String)
  deriving DecidableEq, Repr

/-- mirrors src/log/log_appender.h:73-80 -/
structure Appender (F : Type) where
  kind : AppenderKind
  m_level : LogLevel
  m_formatter : Option F
  m_hasFormatter : Bool
  deriving DecidableEq, Repr

/-- mirrors src/log/logger.h:72-78 -/
structure Logger (F : Type) where
  m_appenders : List Nat
  m_name : String
  m_level : LogLevel
  m_formatter : Option F
  deriving DecidableEq, Repr

namespace Appender
variable {F : Type}

/-- mirrors src/log/log_appender.cc:10 -/
def new (kind : AppenderKind) : Appender F := ⟨kind, .DEBUG, none, false⟩

/-- mirrors src/log/log_appender.cc:12-21 -/
def setFormatter (a : Appender F) (value : Option F) : Appender F :=
  { a with m_formatter := value, m_hasFormatter := value.isSome }

/-- The formatter with which `log` writes, for a call by `logger`.
mirrors src/log/log_appender.cc:49-53 and 83-87 -/
def formatterFor (a : Appender F) (logger : Logger F) : Option F :=
  if a.m_hasFormatter then a.m_formatter else logger.m_formatter

@[simp] theorem setFormatter_formatter (a : Appender F) (v : Option F) :
    (a.setFormatter v).m_formatter = v := rfl

@[simp] theorem setFormatter_has (a : Appender F) (v : Option F) :
    (a.setFormatter v).m_hasFormatter = v.isSome := rfl

end Appender

/-- The shared objects. -/
structure Logs (F : Type) where
  loggers : Nat → Logger F
  appenders : Nat → Appender F

namespace Logs
variable {F : Type}

def setLogger (s : Logs F) (l : Nat) (v : Logger F) : Logs F :=
  { s with loggers := Function.update s.loggers l v }

def setAppender (s : Logs F) (a : Nat) (v : Appender F) : Logs F :=
  { s with appenders := Function.update s.appenders a v }

/-- mirrors src/log/logger.cc:27-34 -/
def addAppender (s : Logs F) (l a : Nat) : Logs F :=
  let s := if ((s.appenders a).m_formatter.isNone && (s.loggers l).m_formatter.isSome) then
    s.setAppender a ((s.appenders a).setFormatter (s.loggers l).m_formatter) else s
  s.setLogger l { s.loggers l with m_appenders := (s.loggers l).m_appenders ++ [a] }

/-- mirrors src/log/logger.cc:36-45 -/
def delAppender (s : Logs F) (l a : Nat) : Logs F :=
  s.setLogger l { s.loggers l with m_appenders := (s.loggers l).m_appenders.erase a }

/-- mirrors src/log/logger.cc:47-51 -/
def clearAllAppenders (s : Logs F) (l : Nat) : Logs F :=
  s.setLogger l { s.loggers l with m_appenders := [] }

/-- The loop of `Logger::setFormatter`.
mirrors src/log/logger.cc:57-61 -/
def setFormatters (s : Logs F) (value : Option F) (as : List Nat) : Logs F :=
  as.foldl (fun s a => if (s.appenders a).m_hasFormatter then
    s.setAppender a ((s.appenders a).setFormatter value) else s) s

/-- mirrors src/log/logger.cc:53-62 -/
def setFormatter (s : Logs F) (l : Nat) (value : Option F) : Logs F :=
  (s.setLogger l { s.loggers l with m_formatter := value }).setFormatters value
    (s.loggers l).m_appenders

/-- `Appender::setFormatter`, called by the user. -/
def setAppenderFormatter (s : Logs F) (a : Nat) (value : Option F) : Logs F :=
  s.setAppender a ((s.appenders a).setFormatter value)

/-! ## What the operations do -/

@[simp] theorem setLogger_appenders (s : Logs F) (l : Nat) (v : Logger F) :
    (s.setLogger l v).appenders = s.appenders := rfl

@[simp] theorem setAppender_loggers (s : Logs F) (a : Nat) (v : Appender F) :
    (s.setAppender a v).loggers = s.loggers := rfl

@[simp] theorem setLogger_self (s : Logs F) (l : Nat) (v : Logger F) :
    (s.setLogger l v).loggers l = v := Function.update_self ..

theorem setLogger_of_ne {l l' : Nat} (s : Logs F) (v : Logger F) (h : l' ≠ l) :
    (s.setLogger l v).loggers l' = s.loggers l' := Function.update_of_ne h ..

@[simp] theorem setAppender_self (s : Logs F) (a : Nat) (v : Appender F) :
    (s.setAppender a v).appenders a = v := Function.update_self ..

theorem setAppender_of_ne {a a' : Nat} (s : Logs F) (v : Appender F) (h : a' ≠ a) :
    (s.setAppender a v).appenders a' = s.appenders a' := Function.update_of_ne h ..

/-- The appender that `addAppender` leaves. -/
def inherit (a : Appender F) (value : Option F) : Appender F :=
  if a.m_formatter.isNone && value.isSome then a.setFormatter value else a

theorem addAppender_appenders (s : Logs F) (l a : Nat) : (s.addAppender l a).appenders =
    Function.update s.appenders a (inherit (s.appenders a) (s.loggers l).m_formatter) := by
  unfold addAppender inherit
  split
  · rfl
  · simp

theorem addAppender_loggers (s : Logs F) (l a : Nat) : (s.addAppender l a).loggers =
    Function.update s.loggers l
      { s.loggers l with m_appenders := (s.loggers l).m_appenders ++ [a] } := by
  unfold addAppender
  split <;> rfl

@[simp] theorem setFormatters_loggers (s : Logs F) (v : Option F) (as : List Nat) :
    (s.setFormatters v as).loggers = s.loggers := by
  induction as generalizing s with
  | nil => rfl
  | cons a as ih =>
    rw [setFormatters, List.foldl_cons, ← setFormatters, ih]
    split <;> rfl

/-- The loop overwrites the formatters that are set. -/
theorem setFormatters_appenders (s : Logs F) (v : Option F) (as : List Nat) (a : Nat) :
    (s.setFormatters v as).appenders a =
      if a ∈ as ∧ (s.appenders a).m_hasFormatter = true then (s.appenders a).setFormatter v
      else s.appenders a := by
  induction as generalizing s with
  | nil => simp [setFormatters]
  | cons b as ih =>
    rw [setFormatters, List.foldl_cons, ← setFormatters, ih]
    by_cases hb : (s.appenders b).m_hasFormatter = true
    · rw [if_pos hb]
      by_cases hab : a = b
      · subst hab
        simp [hb, Appender.setFormatter]
      · simp [setAppender_of_ne _ _ hab, hab]
    · rw [if_neg hb]
      by_cases hab : a = b
      · subst hab
        simp [hb]
      · simp [hab]

end Logs
end Ppcode
