import Mathlib.Data.List.TakeWhile
import Ppcode.Log.LogEvent

/-!
# The pattern language of `parserFormatter`

A pattern is a sequence of tokens (`Tokens`): literal text up to the next `%`, a
letter behind `%`, or `%D` with or without a format in braces. `parserFormatter`
reads it with two indices (`scan`), looking one character ahead at the end of a
literal and past the end of the string behind a last `%`.

* `scan_eq`: the rounds of the scanner are those of `parserLoop`, on what is left of
  the pattern.
* `parserLoop_of_tokens`, `tokens_of_parserLoop`: the rounds succeed exactly on sequences
  of tokens, and make their items.
* `parses`: `parserFormatter` accepts exactly the patterns that are sequences of tokens;
  then the members are those of the tokens and `format` writes what they stand for
  (`Token.output`), and otherwise `m_items` stays as it was.
-/
namespace Ppcode.LogFormatter

/-! ## The grammar -/

/-- The letters behind `%` and what they stand for, `D` apart.
mirrors src/log/README.md:9-27 -/
def letters : List (Char × LogFormatterItem) :=
  [('c', .logName), ('e', .error), ('E', .errorStr), ('f', .fileName), ('F', .fiberId),
    ('L', .line), ('m', .message), ('N', .threadName), ('P', .level), ('t', .threadId),
    ('n', .newLine), ('T', .tab)]

/-- The `switch` has the letters of the documentation. -/
theorem letter_eq {c : Char} {it : LogFormatterItem} : letter c = some it ↔ (c, it) ∈ letters := by
  constructor
  · intro h
    unfold letter at h
    split at h
    case h_13 => cases h
    all_goals
      cases h
      simp [letters]
  · intro h
    simp only [letters, List.mem_cons, Prod.mk.injEq, List.not_mem_nil, or_false] at h
    rcases h with h | h | h | h | h | h | h | h | h | h | h | h
    all_goals
      obtain ⟨rfl, rfl⟩ := h
      rfl

inductive Token where
  | literal (text : List Char)
  | letter (c : Char) (it : LogFormatterItem) (h : (c, it) ∈ letters)
  | time
  | timeFormat (text : List Char)

def Token.text : Token → List Char
  | .literal text => text
  | .letter c _ _ => ['%', c]
  | .time => ['%', 'D']
  | .timeFormat text => '%' :: 'D' :: '{' :: (text ++ ['}'])

/-- The item of a token, with its text. -/
def Token.item : Token → LogFormatterItem
  | .literal text => .string (String.ofList text)
  | .letter _ it _ => it
  | .time => .time defaultTime
  | .timeFormat text => .time (String.ofList text)

/-- What a letter stands for, `D` apart. -/
def letterOutput (env : Env) (event : LogEvent) : Char → Option String
  | 'c' => event.m_logger.map env.getName
  | 'e' => some (if env.errno = 0 then "" else "errno=" ++ toString env.errno)
  | 'E' => some (if env.errno = 0 then "" else "strerr=" ++ env.strerror env.errno)
  | 'f' => some event.m_fileName
  | 'F' => some (toString event.m_fiberId.toNat)
  | 'L' => some (toString event.m_line.toNat)
  | 'm' => some event.m_ss
  | 'N' => some event.m_threadName
  | 'P' => some event.m_level.ToString
  | 't' => some (toString event.m_threadId.toNat)
  | 'n' => some "\n"
  | 'T' => some "\t"
  | _ => none

/-- What a token stands for: a literal for itself. -/
def Token.output (env : Env) (event : LogEvent) : Token → Option String
  | .literal text => some (String.ofList text)
  | .letter c _ _ => letterOutput env event c
  | .time => some (env.strftime defaultTime event.m_time)
  | .timeFormat text => some (env.strftime (String.ofList text) event.m_time)

/-- The item of a token writes what the token stands for. -/
theorem item_stream (env : Env) (event : LogEvent) (t : Token) :
    t.item.stream env event = t.output env event := by
  cases t with
  | literal | time | timeFormat => rfl
  | letter c it h =>
    simp only [letters, List.mem_cons, Prod.mk.injEq, List.not_mem_nil, or_false] at h
    rcases h with h | h | h | h | h | h | h | h | h | h | h | h
    all_goals
      obtain ⟨rfl, rfl⟩ := h
      simp [Token.item, Token.output, letterOutput, LogFormatterItem.stream]

/-- The tokens of a pattern. A literal has all the characters up to the next `%`, a format
all those up to the first brace that closes. -/
inductive Tokens : List Char → List Token → Prop
  | nil : Tokens [] []
  | literal {text rest : List Char} {ts : List Token} : text ≠ [] → '%' ∉ text →
    (rest = [] ∨ rest.head? = some '%') → Tokens rest ts →
    Tokens (text ++ rest) (.literal text :: ts)
  | letter {c : Char} {it : LogFormatterItem} (h : (c, it) ∈ letters) {rest : List Char}
    {ts : List Token} : Tokens rest ts → Tokens ('%' :: c :: rest) (.letter c it h :: ts)
  | time {rest : List Char} {ts : List Token} : rest.head? ≠ some '{' → Tokens rest ts →
    Tokens ('%' :: 'D' :: rest) (.time :: ts)
  | timeFormat {text rest : List Char} {ts : List Token} : '}' ∉ text → Tokens rest ts →
    Tokens ('%' :: 'D' :: '{' :: (text ++ '}' :: rest)) (.timeFormat text :: ts)

/-- No character is lost. -/
theorem Tokens.text {p : List Char} {ts : List Token} (h : Tokens p ts) :
    ts.flatMap Token.text = p := by
  induction h with
  | nil => rfl
  | literal _ _ _ _ ih => rw [List.flatMap_cons, ih]; rfl
  | letter _ _ ih => rw [List.flatMap_cons, ih]; rfl
  | time _ _ ih => rw [List.flatMap_cons, ih]; rfl
  | timeFormat _ _ ih => rw [List.flatMap_cons, ih]; simp [Token.text]

/-! ## The rounds -/

section Rounds
variable {k : Nat} {c : Char} {rest text : List Char}

theorem parserLoop_letter (hc : c ≠ 'D') : parserLoop (k + 1) ('%' :: c :: rest) =
    (letter c).bind fun it => (parserLoop k rest).map (it :: ·) :=
  parserLoop.eq_6 k c rest (fun _ h _ => hc h) hc

theorem parserLoop_time (h : rest.head? ≠ some '{') : parserLoop (k + 1) ('%' :: 'D' :: rest) =
    (parserLoop k rest).map (.time defaultTime :: ·) := by
  refine parserLoop.eq_5 k rest fun rest' heq => ?_
  subst heq
  exact h rfl

theorem parserLoop_literal (hc : c ≠ '%') : parserLoop (k + 1) (c :: rest) =
    (parserLoop k (rest.dropWhile (· != '%'))).map
      (.string (String.ofList (c :: rest.takeWhile (· != '%'))) :: ·) :=
  parserLoop.eq_7 k c rest (fun h _ => hc h) (fun _ h _ => hc h) (fun _ h _ => hc h)
    fun _ _ h _ => hc h

/-- A text without the character `e`, and then the end or an `e`. -/
theorem span_text {e : Char} (ht : e ∉ text) (hrest : rest = [] ∨ rest.head? = some e) :
    (text ++ rest).takeWhile (· != e) = text ∧ (text ++ rest).dropWhile (· != e) = rest := by
  have hall : ∀ x ∈ text, (x != e) = true := by
    intro x hx
    have hne : x ≠ e := fun heq => ht (heq ▸ hx)
    simpa using hne
  have hstop : rest.takeWhile (· != e) = [] ∧ rest.dropWhile (· != e) = rest := by
    cases rest with
    | nil => exact ⟨rfl, rfl⟩
    | cons x rest =>
      have hx : x = e := by simpa using hrest
      subst hx
      simp
  rw [List.takeWhile_append_of_pos hall, List.dropWhile_append_of_pos hall, hstop.1, hstop.2]
  exact ⟨List.append_nil text, rfl⟩

/-- What `takeWhile` leaves is empty, or begins with the character that ended it. -/
theorem head_dropWhile (e : Char) (l : List Char) :
    l.dropWhile (· != e) = [] ∨ (l.dropWhile (· != e)).head? = some e := by
  cases hd : l.dropWhile (· != e) with
  | nil => exact .inl rfl
  | cons x rest =>
    have hnot := List.head?_dropWhile_not (· != e) l
    rw [hd] at hnot
    right
    simpa using hnot

theorem not_mem_takeWhile (e : Char) (l : List Char) : e ∉ l.takeWhile (· != e) := by
  intro h
  have := List.mem_takeWhile_imp h
  simp at this

end Rounds

/-- Tokens are read as their items. -/
theorem parserLoop_of_tokens {p : List Char} {ts : List Token} (h : Tokens p ts) :
    ∀ k, p.length ≤ k → parserLoop k p = some (ts.map Token.item) := by
  induction h with
  | nil => exact fun k _ => parserLoop.eq_1 k
  | @literal text rest ts hne htext hrest _ ih =>
    intro k hk
    obtain ⟨c, text, rfl⟩ := List.exists_cons_of_ne_nil hne
    rw [List.mem_cons, not_or] at htext
    obtain ⟨hc, htext⟩ := htext
    obtain ⟨htake, hdrop⟩ := span_text htext hrest
    cases k with
    | zero => simp at hk
    | succ k =>
      rw [List.cons_append, parserLoop_literal (Ne.symm hc), htake, hdrop, ih k]
      · rfl
      · simp at hk
        omega
  | @letter c it hc rest ts _ ih =>
    intro k hk
    have hit : letter c = some it := letter_eq.mpr hc
    have hD : c ≠ 'D' := by
      intro heq
      subst heq
      cases hit
    cases k with
    | zero => simp at hk
    | succ k =>
      rw [parserLoop_letter hD, hit, Option.bind_some, ih k]
      · rfl
      · simp at hk
        omega
  | @time rest ts hhead _ ih =>
    intro k hk
    cases k with
    | zero => simp at hk
    | succ k =>
      rw [parserLoop_time hhead, ih k]
      · rfl
      · simp at hk
        omega
  | @timeFormat text rest ts htext _ ih =>
    intro k hk
    have hbrace : '}' :: rest = [] ∨ ('}' :: rest).head? = some '}' := .inr rfl
    obtain ⟨htake, hdrop⟩ := span_text htext hbrace
    cases k with
    | zero => simp at hk
    | succ k =>
      rw [parserLoop.eq_4, htake, hdrop]
      simp only
      rw [ih k]
      · rfl
      · simp at hk
        omega

/-- What is read is a sequence of tokens. -/
theorem tokens_of_parserLoop : ∀ {k : Nat} {p : List Char} {items : List LogFormatterItem},
    parserLoop k p = some items → ∃ ts, Tokens p ts ∧ items = ts.map Token.item := by
  intro k
  induction k with
  | zero =>
    intro p items h
    cases p with
    | nil =>
      cases h
      exact ⟨[], .nil, rfl⟩
    | cons c p => cases h
  | succ k ih =>
    intro p items h
    cases p with
    | nil =>
      cases h
      exact ⟨[], .nil, rfl⟩
    | cons c p =>
      by_cases hc : c = '%'
      · subst hc
        cases p with
        | nil => cases h
        | cons c rest =>
          by_cases hD : c = 'D'
          · subst hD
            by_cases hopen : rest.head? = some '{'
            · obtain ⟨rest, rfl⟩ := List.head?_eq_some_iff.mp hopen
              rw [parserLoop.eq_4] at h
              have hsplit := List.takeWhile_append_dropWhile (p := (· != '}')) (l := rest)
              rcases head_dropWhile '}' rest with hnil | hhead
              · rw [hnil] at h
                cases h
              · obtain ⟨rest', hrest'⟩ := List.head?_eq_some_iff.mp hhead
                rw [hrest'] at h hsplit
                obtain ⟨items', hitems, rfl⟩ := Option.map_eq_some_iff.mp h
                obtain ⟨ts, hts, rfl⟩ := ih hitems
                refine ⟨.timeFormat (rest.takeWhile (· != '}')) :: ts, ?_, rfl⟩
                have htok := Tokens.timeFormat (not_mem_takeWhile '}' rest) hts
                rw [hsplit] at htok
                exact htok
            · rw [parserLoop_time hopen] at h
              obtain ⟨items', hitems, rfl⟩ := Option.map_eq_some_iff.mp h
              obtain ⟨ts, hts, rfl⟩ := ih hitems
              exact ⟨.time :: ts, .time hopen hts, rfl⟩
          · rw [parserLoop_letter hD] at h
            obtain ⟨it, hit, h⟩ := Option.bind_eq_some_iff.mp h
            obtain ⟨items', hitems, rfl⟩ := Option.map_eq_some_iff.mp h
            obtain ⟨ts, hts, rfl⟩ := ih hitems
            have hc := letter_eq.mp hit
            exact ⟨.letter c it hc :: ts, .letter hc hts, rfl⟩
      · rw [parserLoop_literal hc] at h
        obtain ⟨items', hitems, rfl⟩ := Option.map_eq_some_iff.mp h
        obtain ⟨ts, hts, rfl⟩ := ih hitems
        refine ⟨.literal (c :: p.takeWhile (· != '%')) :: ts, ?_, rfl⟩
        have hnot : '%' ∉ c :: p.takeWhile (· != '%') := by
          rw [List.mem_cons, not_or]
          exact ⟨Ne.symm hc, not_mem_takeWhile '%' p⟩
        have htok := Tokens.literal (List.cons_ne_nil _ _) hnot (head_dropWhile '%' p) hts
        rw [List.cons_append, List.takeWhile_append_dropWhile] at htok
        exact htok

/-! ## The scanner -/

/-- `pattern[i]`; behind the last character of a `std::string` is a null character. -/
def charAt (pattern : List Char) (i : Nat) : Char := pattern.getD i '\x00'

def substr (pattern : List Char) (pos count : Nat) : String :=
  String.ofList ((pattern.drop pos).take count)

/-- `while (cond) ++j`, for at most `fuel` rounds. -/
def advance (cond : Nat → Bool) : Nat → Nat → Nat
  | 0, j => j
  | fuel + 1, j => if cond j then advance cond fuel (j + 1) else j

/-- mirrors src/log/log_format.cc:232 -/
def braceEnd (pattern : List Char) (j : Nat) : Nat :=
  advance (fun j => decide (j < pattern.length) && charAt pattern j != '}') pattern.length j

/-- mirrors src/log/log_format.cc:290 -/
def runEnd (pattern : List Char) (i : Nat) : Nat :=
  advance (fun j => decide (j + 1 < pattern.length) && charAt pattern (j + 1) != '%')
    pattern.length i

/-- The loop from the index `i` on; `none` where it sets `m_error` and returns.
mirrors src/log/log_format.cc:221-297 -/
def scan (pattern : List Char) : Nat → Nat → List LogFormatterItem → Option (List LogFormatterItem)
  | 0, _, _ => none
  | fuel + 1, i, items =>
    if i < pattern.length then
      if charAt pattern i = '%' then
        let i := i + 1
        let j := i + 1
        if charAt pattern i = 'D' then
          if j < pattern.length ∧ charAt pattern j = '{' then
            let j := braceEnd pattern j
            if j ≥ pattern.length ∨ charAt pattern j ≠ '}' then none
            else scan pattern fuel (j + 1) (items ++ [.time (substr pattern (i + 2) (j - i - 2))])
          else scan pattern fuel (i + 1) (items ++ [.time defaultTime])
        else
          match letter (charAt pattern i) with
          | none => none
          | some it => scan pattern fuel (i + 1) (items ++ [it])
      else
        let j := runEnd pattern i
        scan pattern fuel (j + 1) (items ++ [.string (substr pattern i (j - i + 1))])
    else some items

/-- The members that `parserFormatter` writes.
mirrors src/log/log_format.h:74-75 -/
structure Parsed where
  m_error : Bool
  m_items : List LogFormatterItem

/-- mirrors src/log/log_format.cc:214-300 -/
def Parsed.parserFormatter (f : Parsed) (pattern : String) : Parsed :=
  if pattern.isEmpty then { f with m_error := true }
  else
    match scan pattern.toList (pattern.toList.length + 1) 0 [] with
    | none => { f with m_error := true }
    | some items => ⟨false, items⟩

section Scan
variable {pattern : List Char} {i : Nat} {c : Char} {rest : List Char}

/-- A character of the pattern, and what follows it. -/
theorem charAt_drop (h : pattern.drop i = c :: rest) :
    i < pattern.length ∧ charAt pattern i = c ∧ pattern.drop (i + 1) = rest := by
  refine ⟨?_, ?_, ?_⟩
  · by_contra hge
    rw [List.drop_eq_nil_of_le (not_lt.mp hge)] at h
    cases h
  · have hget : (pattern.drop i)[0]? = pattern[i]? := by simp
    rw [h] at hget
    rw [charAt, List.getD_eq_getElem?_getD, ← hget]
    rfl
  · rw [← List.tail_drop, h]
    rfl

theorem head_drop (h : i < pattern.length) :
    (pattern.drop i).head? = some (charAt pattern i) := by
  rw [List.head?_drop, charAt, List.getD_eq_getElem?_getD, List.getElem?_eq_getElem h]
  rfl

/-- Behind the end. -/
theorem charAt_end (h : pattern.drop i = []) : pattern.length ≤ i ∧ charAt pattern i = '\x00' := by
  have hle := List.drop_eq_nil_iff.mp h
  refine ⟨hle, ?_⟩
  rw [charAt, List.getD_eq_getElem?_getD, List.getElem?_eq_none hle]
  rfl

/-- The loops over `j` stop where `takeWhile` does. -/
theorem advance_eq (pattern : List Char) (p : Char → Bool) (d : Nat) : ∀ (fuel j : Nat),
    pattern.length ≤ fuel + (j + d) →
    advance (fun j => decide (j + d < pattern.length) && p (charAt pattern (j + d))) fuel j =
      j + ((pattern.drop (j + d)).takeWhile p).length := by
  intro fuel
  induction fuel with
  | zero =>
    intro j hj
    rw [List.drop_eq_nil_of_le (by omega)]
    rfl
  | succ fuel ih =>
    intro j hj
    cases hd : pattern.drop (j + d) with
    | nil =>
      have hle := (charAt_end hd).1
      simp [advance, Nat.not_lt.mpr hle]
    | cons c rest =>
      obtain ⟨hlt, hc, hrest⟩ := charAt_drop hd
      have hnext : j + 1 + d = j + d + 1 := by omega
      cases hp : p c with
      | false => simp [advance, hlt, hc, hp]
      | true =>
        simp only [advance, hlt, hc, hp, decide_true, Bool.and_self, if_true,
          List.takeWhile_cons_of_pos, List.length_cons]
        rw [ih (j + 1) (by omega), hnext, hrest]
        omega

theorem drop_takeWhile (p : Char → Bool) (l : List Char) :
    l.drop (l.takeWhile p).length = l.dropWhile p ∧
    l.take (l.takeWhile p).length = l.takeWhile p := by
  have hdrop : (l.takeWhile p ++ l.dropWhile p).drop (l.takeWhile p).length = l.dropWhile p :=
    List.drop_left
  have htake : (l.takeWhile p ++ l.dropWhile p).take (l.takeWhile p).length = l.takeWhile p :=
    List.take_left
  rw [List.takeWhile_append_dropWhile] at hdrop htake
  exact ⟨hdrop, htake⟩

/-- The end of a literal that begins at `i`: its text, and what follows. -/
theorem runEnd_spec (h : pattern.drop i = c :: rest) :
    substr pattern i (runEnd pattern i - i + 1) = String.ofList (c :: rest.takeWhile (· != '%')) ∧
    pattern.drop (runEnd pattern i + 1) = rest.dropWhile (· != '%') ∧ i ≤ runEnd pattern i := by
  obtain ⟨hlt, -, hrest⟩ := charAt_drop h
  have hend : runEnd pattern i = i + (rest.takeWhile (· != '%')).length := by
    have := advance_eq pattern (· != '%') 1 pattern.length i (by omega)
    rw [hrest] at this
    exact this
  obtain ⟨hdrop, htake⟩ := drop_takeWhile (· != '%') rest
  refine ⟨?_, ?_, by omega⟩
  · rw [substr, h, hend, Nat.add_sub_cancel_left, List.take_succ_cons, htake]
  · have hsplit : runEnd pattern i + 1 = i + 1 + (rest.takeWhile (· != '%')).length := by omega
    rw [hsplit, ← List.drop_drop, hrest, hdrop]

/-- The brace that closes a format whose text begins at `i + 2`. -/
theorem braceEnd_spec (h : pattern.drop (i + 1) = '{' :: rest) :
    braceEnd pattern (i + 1) = i + 2 + (rest.takeWhile (· != '}')).length ∧
    substr pattern (i + 2) (braceEnd pattern (i + 1) - i - 2) =
      String.ofList (rest.takeWhile (· != '}')) ∧
    pattern.drop (braceEnd pattern (i + 1)) = rest.dropWhile (· != '}') := by
  obtain ⟨hlt, -, hrest⟩ := charAt_drop h
  have hend : braceEnd pattern (i + 1) = i + 2 + (rest.takeWhile (· != '}')).length := by
    have := advance_eq pattern (· != '}') 0 pattern.length (i + 1) (by omega)
    rw [Nat.add_zero, h, List.takeWhile_cons_of_pos (by decide), List.length_cons] at this
    rw [braceEnd]
    refine this.trans ?_
    omega
  obtain ⟨hdrop, htake⟩ := drop_takeWhile (· != '}') rest
  refine ⟨hend, ?_, ?_⟩
  · rw [substr, hrest, hend]
    have hlen : i + 2 + (rest.takeWhile (· != '}')).length - i - 2 =
        (rest.takeWhile (· != '}')).length := by omega
    rw [hlen, htake]
  · rw [hend, ← List.drop_drop, hrest, hdrop]

/-- One more item, and the rest of the rounds. -/
theorem map_append (items : List LogFormatterItem) (it : LogFormatterItem)
    (r : Option (List LogFormatterItem)) :
    r.map (items ++ [it] ++ ·) = (r.map (it :: ·)).map (items ++ ·) := by
  cases r <;> simp

/-- The scanner at `i` is `parserLoop` on what is left from there. -/
theorem scan_eq (pattern : List Char) :
    ∀ (fuel i k : Nat) (items : List LogFormatterItem), 0 < fuel →
      pattern.length < fuel + i → pattern.length ≤ k + i →
      scan pattern fuel i items = (parserLoop k (pattern.drop i)).map (items ++ ·) := by
  intro fuel
  induction fuel with
  | zero => exact fun i k items hpos => absurd hpos (lt_irrefl 0)
  | succ fuel ih =>
    intro i k items _ hfuel hk
    cases hd : pattern.drop i with
    | nil =>
      have hge := (charAt_end hd).1
      simp [scan, Nat.not_lt.mpr hge, parserLoop]
    | cons c rest =>
      obtain ⟨hlt, hc, hrest⟩ := charAt_drop hd
      obtain ⟨k, rfl⟩ : ∃ k', k = k' + 1 := ⟨k - 1, by omega⟩
      have hpos : 0 < fuel := by omega
      by_cases hpercent : c = '%'
      · subst hpercent
        cases rest with
        | nil =>
          -- a last `%`: the null character behind it is no letter
          have hend := (charAt_end hrest).2
          have hnull : letter '\x00' = none := by decide
          simp [scan, hlt, hc, hend, hnull, parserLoop]
        | cons c rest =>
          obtain ⟨hlt1, hc1, hrest1⟩ := charAt_drop hrest
          by_cases hD : c = 'D'
          · subst hD
            by_cases hopen : rest.head? = some '{'
            · obtain ⟨rest, rfl⟩ := List.head?_eq_some_iff.mp hopen
              obtain ⟨hlt2, hc2, -⟩ := charAt_drop hrest1
              obtain ⟨hend, htext, hdrop⟩ := braceEnd_spec hrest1
              have hlook : i + 1 + 1 < pattern.length ∧ charAt pattern (i + 1 + 1) = '{' :=
                ⟨hlt2, hc2⟩
              rw [parserLoop.eq_4]
              rcases head_dropWhile '}' rest with hnil | hhead
              · -- no brace closes the format
                have hge := (charAt_end (hdrop.trans hnil)).1
                simp [scan, hlt, hc, hc1, hlook, hge, hnil]
              · obtain ⟨rest', hrest'⟩ := List.head?_eq_some_iff.mp hhead
                obtain ⟨hlt3, hc3, hrest3⟩ := charAt_drop (hdrop.trans hrest')
                have hclosed : ¬ (braceEnd pattern (i + 1 + 1) ≥ pattern.length ∨
                    charAt pattern (braceEnd pattern (i + 1 + 1)) ≠ '}') := by
                  rw [not_or, not_not]
                  exact ⟨Nat.not_le.mpr hlt3, hc3⟩
                rw [hrest']
                simp only
                rw [← map_append, ← hrest3, ← ih (braceEnd pattern (i + 1 + 1) + 1) k _ hpos
                  (by omega) (by omega)]
                simp only [scan, hlt, hc, hc1, hlook, hclosed, htext, if_true, if_false, and_self]
            · have hnot : ¬ (i + 1 + 1 < pattern.length ∧ charAt pattern (i + 1 + 1) = '{') := by
                intro hex
                have hhead := head_drop hex.1
                rw [hrest1, hex.2] at hhead
                exact hopen hhead
              rw [parserLoop_time hopen, ← map_append, ← hrest1, ← ih (i + 1 + 1) k _ hpos
                (by omega) (by omega)]
              simp only [scan, hlt, hc, hc1, hnot, if_true, if_false]
          · rw [parserLoop_letter hD]
            cases hl : letter c with
            | none => simp [scan, hlt, hc, hc1, hD, hl]
            | some it =>
              rw [Option.bind_some, ← map_append, ← hrest1, ← ih (i + 1 + 1) k _ hpos
                (by omega) (by omega)]
              simp only [scan, hlt, hc, hc1, hD, hl, if_true, if_false]
      · obtain ⟨htext, hdrop, hle⟩ := runEnd_spec hd
        rw [parserLoop_literal hpercent, ← map_append, ← hdrop, ← ih (runEnd pattern i + 1) k _ hpos
          (by omega) (by omega)]
        simp only [scan, hlt, hc, hpercent, htext, if_true, if_false]

end Scan

/-! ## What is accepted -/

/-- One call of `parserFormatter` against the grammar. -/
structure Parses (f : Parsed) (pattern : String) : Prop where
  accepted : (f.parserFormatter pattern).m_error = false ↔ ∃ ts, Tokens pattern.toList ts
  items : ∀ ts, Tokens pattern.toList ts →
    (f.parserFormatter pattern).m_items = ts.map Token.item
  text : ∀ ts, Tokens pattern.toList ts → ts.flatMap Token.text = pattern.toList
  output : ∀ ts, Tokens pattern.toList ts → ∀ env event,
    formatItems env event (f.parserFormatter pattern).m_items "" =
      (ts.mapM (Token.output env event)).map String.join
  refused : (f.parserFormatter pattern).m_error = true →
    (f.parserFormatter pattern).m_items = f.m_items

/-- The call in terms of `parserLoop`. -/
theorem parserFormatter_eq (f : Parsed) {pattern : String} (hp : pattern ≠ "") :
    f.parserFormatter pattern =
      ((parserLoop pattern.toList.length pattern.toList).map fun items => ⟨false, items⟩).getD
        { f with m_error := true } := by
  have hscan := scan_eq pattern.toList (pattern.toList.length + 1) 0
    pattern.toList.length [] (by omega) (by omega) (by omega)
  unfold Parsed.parserFormatter
  rw [if_neg (by simpa using hp), hscan, List.drop_zero]
  cases parserLoop pattern.toList.length pattern.toList <;> rfl

/-- `parserFormatter` accepts the pattern language. -/
theorem parses (f : Parsed) (pattern : String) (hp : pattern ≠ "") : Parses f pattern := by
  have hcall := parserFormatter_eq f hp
  have hitems (ts : List Token) (hts : Tokens pattern.toList ts) :
      f.parserFormatter pattern = ⟨false, ts.map Token.item⟩ := by
    rw [hcall, parserLoop_of_tokens hts _ (Nat.le_refl _)]
    rfl
  refine ⟨⟨fun h => ?_, fun hex => ?_⟩, fun ts hts => ?_, fun ts hts => hts.text,
    fun ts hts env event => ?_, fun h => ?_⟩
  · cases hloop : parserLoop pattern.toList.length pattern.toList with
    | none =>
      rw [hcall, hloop] at h
      cases h
    | some items =>
      obtain ⟨ts, hts, -⟩ := tokens_of_parserLoop hloop
      exact ⟨ts, hts⟩
  · obtain ⟨ts, hts⟩ := hex
    rw [hitems ts hts]
  · rw [hitems ts hts]
  · have houtput : LogFormatterItem.stream env event ∘ Token.item = Token.output env event :=
      funext (item_stream env event)
    rw [hitems ts hts, formatItems_eq, List.mapM_map, houtput]
    simp only [String.empty_append]
  · cases hloop : parserLoop pattern.toList.length pattern.toList with
    | none =>
      rw [hcall, hloop]
      rfl
    | some items =>
      rw [hcall, hloop] at h
      cases h

/-- Empty braces, a literal and a letter at the end. -/
theorem parses_braces : Parses ⟨false, []⟩ "%D\x7b\x7d at %f" ∧
    (Parsed.parserFormatter ⟨false, []⟩ "%D\x7b\x7d at %f").m_items =
      [.time "", .string " at ", .fileName] ∧
    ∀ env event,
      formatItems env event (Parsed.parserFormatter ⟨false, []⟩ "%D\x7b\x7d at %f").m_items "" =
        some (env.strftime "" event.m_time ++ " at " ++ event.m_fileName) := by
  have hitems : (Parsed.parserFormatter ⟨false, []⟩ "%D\x7b\x7d at %f").m_items =
      [.time "", .string " at ", .fileName] := by decide
  refine ⟨parses ⟨false, []⟩ _ (by decide), hitems, fun env event => ?_⟩
  rw [hitems]
  simp [formatItems, LogFormatterItem.stream]

end Ppcode.LogFormatter
