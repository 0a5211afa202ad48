import Ppcode.Log.LogManager

/-!
# What a formatter writes

`src/log/log_event.h` and the items of `src/log/log_format.cc`. An item puts its text
on a stream; what it asks the C library (`strftime` on the local time, `errno`,
`strerror`) and the names of the loggers are parameters (`Env`).

`format_eq`: `format` writes the outputs of the items one after the other.
-/
namespace Ppcode

/-- mirrors src/log/log_event.h:62-78 -/
structure LogEvent where
  m_logger : Option Nat
  m_time : Int
  m_fileName : String
  m_line : UInt32
  m_threadId : UInt32
  m_fiberId : UInt32
  m_threadName : String
  m_level : LogLevel
  m_ss : String
  deriving DecidableEq, Repr

/-- `strftime` is what the buffer holds after `localtime_r` and `strftime`. -/
structure Env where
  strftime : String → Int → String
  errno : Int
  strerror : Int → String
  getName : Nat → String

/-- `none` is a call on a null logger.
mirrors src/log/log_format.cc:19-186 -/
def LogFormatterItem.stream (env : Env) (event : LogEvent) : LogFormatterItem → Option String
  | .time m_pattern => some (env.strftime m_pattern event.m_time)
  | .fileName => some event.m_fileName
  | .line => some (toString event.m_line.toNat)
  | .threadId => some (toString event.m_threadId.toNat)
  | .fiberId => some (toString event.m_fiberId.toNat)
  | .threadName => some event.m_threadName
  | .level => some event.m_level.ToString
  | .logName => event.m_logger.map env.getName
  | .error => some (if env.errno ≠ 0 then "errno=" ++ toString env.errno else "")
  | .errorStr => some (if env.errno ≠ 0 then "strerr=" ++ env.strerror env.errno else "")
  | .tab => some "\t"
  | .newLine => some "\n"
  | .string m_str => some m_str
  | .message => some event.m_ss

/-- The loop over `m_items`, on the stream `ss`.
mirrors src/log/log_format.cc:314-323 -/
def formatItems (env : Env) (event : LogEvent) (m_items : List LogFormatterItem) (ss : String) :
    Option String :=
  m_items.foldlM (fun ss it => (it.stream env event).map (ss ++ ·)) ss

def LogFormatter.format (f : LogFormatter) (env : Env) (event : LogEvent) : Option String :=
  formatItems env event f.m_items ""

theorem formatItems_eq (env : Env) (event : LogEvent) (items : List LogFormatterItem)
    (ss : String) : formatItems env event items ss =
      (items.mapM (LogFormatterItem.stream env event)).map fun outs => ss ++ String.join outs := by
  induction items generalizing ss with
  | nil => simp [formatItems]
  | cons it items ih =>
    cases hout : it.stream env event with
    | none => simp [formatItems, hout]
    | some out =>
      have hrest : formatItems env event (it :: items) ss =
          formatItems env event items (ss ++ out) := by
        simp [formatItems, hout]
      rw [hrest, ih, List.mapM_cons, hout]
      cases items.mapM (LogFormatterItem.stream env event) with
      | none => rfl
      | some outs => simp [String.append_assoc]

/-- The outputs of the items one after the other. -/
theorem format_eq (f : LogFormatter) (env : Env) (event : LogEvent) : f.format env event =
    (f.m_items.mapM (LogFormatterItem.stream env event)).map String.join := by
  rw [LogFormatter.format, formatItems_eq]
  simp

end Ppcode
