import Mathlib.Logic.Basic

/-!
# `LogFormatter`

`src/log/log_format.cc`. A pattern is parsed into the items that write an event. A
pattern that is refused ends the process in the constructor, so that a formatter which
exists was given the empty pattern or one that parses (`LogFormatter`).
-/
namespace Ppcode

/-- The classes of items, with the members of their own. -/
inductive LogFormatterItem where
  | time (m_pattern : String)
  | fileName
  | line
  | error
  | errorStr
  | threadId
  | threadName
  | fiberId
  | logName
  | level
  | tab
  | newLine
  | string (m_str : String)
  | message
  deriving DecidableEq, Repr

namespace LogFormatter

/-- The `switch` of `parserFormatter`, `D` apart; `none` is its default case.
mirrors src/log/log_format.cc:226-285 -/
def letter : Char → Option LogFormatterItem
  | 'c' => some .logName
  | 'e' => some .error
  | 'E' => some .errorStr
  | 'F' => some .fiberId
  | 'f' => some .fileName
  | 'L' => some .line
  | 'm' => some .message
  | 'N' => some .threadName
  | 'n' => some .newLine
  | 'P' => some .level
  | 'T' => some .tab
  | 't' => some .threadId
  | _ => none

/-- mirrors src/log/log_format.cc:20 -/
def defaultTime : String := "%y:%m:%d %H-%M-%S"

/-- The rounds of the loop, the rest of the pattern being left; `none` where it sets
`m_error`. Each round takes a character or more.
mirrors src/log/log_format.cc:220-297 -/
def parserLoop : Nat → List Char → Option (List LogFormatterItem)
  | _, [] => some []
  | 0, _ :: _ => none
  | _ + 1, ['%'] => none
  | k + 1, '%' :: 'D' :: '{' :: rest =>
    match rest.dropWhile (· != '}') with
    | [] => none
    | _ :: rest' =>
      (parserLoop k rest').map (.time (String.ofList (rest.takeWhile (· != '}'))) :: ·)
  | k + 1, '%' :: 'D' :: rest => (parserLoop k rest).map (.time defaultTime :: ·)
  | k + 1, '%' :: c :: rest =>
    (letter c).bind fun it => (parserLoop k rest).map (it :: ·)
  | k + 1, c :: rest =>
    (parserLoop k (rest.dropWhile (· != '%'))).map
      (.string (String.ofList (c :: rest.takeWhile (· != '%'))) :: ·)

/-- mirrors src/log/log_format.cc:214-300 -/
def parserFormatter (pattern : String) : Option (List LogFormatterItem) :=
  if pattern.isEmpty then none else parserLoop pattern.length pattern.toList

end LogFormatter

/-- mirrors src/log/log_format.h:73-75, without `m_error`, which no formatter has set -/
structure LogFormatter where
  m_pattern : String
  m_items : List LogFormatterItem
  parsed : if m_pattern.isEmpty then m_items = [] else
    LogFormatter.parserFormatter m_pattern = some m_items

namespace LogFormatter

/-- The constructor; `none` where it ends the process.
mirrors src/log/log_format.cc:195-212 -/
def new (pattern : String) : Option LogFormatter :=
  if hemp : pattern.isEmpty then some ⟨pattern, [], by rw [if_pos hemp]⟩
  else
    match h : parserFormatter pattern with
    | none => none
    | some items => some ⟨pattern, items, by rw [if_neg hemp]; exact h⟩

/-- A formatter is the one that its pattern gives. -/
theorem new_pattern (f : LogFormatter) : new f.m_pattern = some f := by
  obtain ⟨pattern, items, h⟩ := f
  unfold new
  by_cases hemp : pattern.isEmpty = true
  · rw [if_pos hemp] at h
    simp [hemp, h]
  · rw [if_neg hemp] at h
    rw [dif_neg hemp]
    split
    · next hnone => simp [h] at hnone
    · next items' hsome =>
      simp only at hsome h
      rw [h] at hsome
      cases hsome
      rfl

/-- mirrors src/log/log_format.h:11 -/
def default_log_formatter : String :=
  "%D\x7b%y-%m-%d %H:%M:%S\x7d%T%t %N fiber=%F%T[%c] [%P]%T%f:%L%T%e %E %m%n"

/-- The formatter that a logger starts with. -/
def default : LogFormatter where
  m_pattern := default_log_formatter
  m_items := [.time "%y-%m-%d %H:%M:%S", .tab, .threadId, .string " ", .threadName,
    .string " fiber=", .fiberId, .tab, .string "[", .logName, .string "] [", .level, .string "]",
    .tab, .fileName, .string ":", .line, .tab, .error, .string " ", .errorStr, .string " ",
    .message, .newLine]
  parsed := by decide

end LogFormatter
end Ppcode
