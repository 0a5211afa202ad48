import Ppcode.Config.Yaml

/-!
# A writer and a reader of YAML

A computable `Yaml`: the assumptions of that structure can be met. A sequence at the top
is written in block style, one item on a line; everything below it in flow style, with a
comma after each item, plain scalars as they are and all others in double quotes.

Results:
* `parse_flow`: the reader takes what the writer wrote off the front of a text.
* `flowYaml`: the two functions as a `Yaml`.
-/
namespace Ppcode.FlowYaml

/-! ## The writer -/

/-- The characters of plain scalars. -/
def plainChar (c : Char) : Bool := c.isAlphanum || "-_./".toList.contains c

def plain (s : String) : Bool := !s.toList.isEmpty && s.toList.all plainChar

def escape : List Char → List Char
  | [] => []
  | c :: cs =>
    if c = '\n' then '\\' :: 'n' :: escape cs
    else if c = '"' ∨ c = '\\' then '\\' :: c :: escape cs
    else c :: escape cs

mutual

def flow : Node → List Char
  | .null => ['~']
  | .scalar s => if plain s then s.toList else '"' :: (escape s.toList ++ ['"'])
  | .seq items => '[' :: (flowItems items ++ [']'])
  | .map pairs => '{' :: (flowPairs pairs ++ ['}'])

def flowItems : List Node → List Char
  | [] => []
  | n :: ns => flow n ++ ',' :: ' ' :: flowItems ns

def flowPairs : List (Node × Node) → List Char
  | [] => []
  | (k, v) :: es => flow k ++ ':' :: ' ' :: (flow v ++ ',' :: ' ' :: flowPairs es)

end

/-- The lines of a sequence, or the one line of anything else. -/
def emit : Node → List Char
  | .seq (n :: ns) => ['\n'].intercalate ((n :: ns).map fun n => '-' :: ' ' :: flow n)
  | n => flow n

/-! ## The reader -/

/-- The characters up to the closing quote, and what follows it. -/
def unquote : List Char → Option (List Char × List Char)
  | [] => none
  | [c] => if c = '"' then some ([], []) else none
  | c :: d :: cs =>
    if c = '"' then some ([], d :: cs)
    else if c = '\\' then
      (unquote cs).map fun r => ((if d = 'n' then '\n' else d) :: r.1, r.2)
    else (unquote (d :: cs)).map fun r => (c :: r.1, r.2)

mutual

/-- A node at the front of a text, and what follows it. -/
def parse : Nat → List Char → Option (Node × List Char)
  | 0, _ => none
  | _ + 1, [] => none
  | k + 1, c :: cs =>
    if c = '~' then some (.null, cs)
    else if c = '"' then (unquote cs).map fun r => (.scalar (String.ofList r.1), r.2)
    else if c = '[' then (parseItems k cs).map fun r => (.seq r.1, r.2)
    else if c = '{' then (parsePairs k cs).map fun r => (.map r.1, r.2)
    else if plainChar c then
      some (.scalar (String.ofList ((c :: cs).takeWhile plainChar)), (c :: cs).dropWhile plainChar)
    else none

def parseItems : Nat → List Char → Option (List Node × List Char)
  | 0, _ => none
  | k + 1, cs =>
    if cs.head? = some ']' then some ([], cs.tail)
    else (parse k cs).bind fun r => (parseItems k (r.2.drop 2)).map fun rs => (r.1 :: rs.1, rs.2)

def parsePairs : Nat → List Char → Option (List (Node × Node) × List Char)
  | 0, _ => none
  | k + 1, cs =>
    if cs.head? = some '}' then some ([], cs.tail)
    else (parse k cs).bind fun r => (parse k (r.2.drop 2)).bind fun r' =>
      (parsePairs k (r'.2.drop 2)).map fun rs => ((r.1, r'.1) :: rs.1, rs.2)

end

/-- A line that is one node. -/
def loadLine (cs : List Char) : Option Node :=
  (parse (cs.length + 1) cs).bind fun r => if r.2.isEmpty then some r.1 else none

def load (cs : List Char) : Option Node :=
  if cs.isEmpty then some .null
  else if cs.take 2 = ['-', ' '] then
    ((cs.splitOn '\n').mapM fun line => loadLine (line.drop 2)).map .seq
  else loadLine cs

/-! ## Scalars -/

theorem unquote_escape (cs r : List Char) : unquote (escape cs ++ '"' :: r) = some (cs, r) := by
  induction cs with
  | nil => cases r <;> simp [escape, unquote]
  | cons c cs ih =>
    have hne : ∃ d ds, escape cs ++ '"' :: r = d :: ds := by
      cases escape cs <;> simp
    obtain ⟨d, ds, hd⟩ := hne
    by_cases hn : c = '\n'
    · subst hn
      simp [escape, unquote, ih]
    · by_cases hq : c = '"' ∨ c = '\\'
      · have hcn : c ≠ 'n' := by rcases hq with rfl | rfl <;> decide
        simp [escape, hn, hq, unquote, ih, hcn]
      · have hesc : escape (c :: cs) = c :: escape cs := by simp [escape, hn, hq]
        obtain ⟨hc1, hc2⟩ := not_or.mp hq
        rw [hesc, List.cons_append, hd, unquote, if_neg hc1, if_neg hc2, ← hd, ih]
        rfl

/-- What may follow a node: nothing that would go on a plain scalar. -/
def Stops (r : List Char) : Prop := ∀ c ∈ r.head?, plainChar c = false

theorem takeWhile_plain {cs r : List Char} (h : cs.all plainChar = true) (hr : Stops r) :
    (cs ++ r).takeWhile plainChar = cs ∧ (cs ++ r).dropWhile plainChar = r := by
  induction cs with
  | nil =>
    cases r with
    | nil => exact ⟨rfl, rfl⟩
    | cons c r =>
      have hc : plainChar c = false := hr c (by simp)
      simp [hc]
  | cons c cs ih =>
    rw [List.all_cons, Bool.and_eq_true] at h
    obtain ⟨ht, hd⟩ := ih h.2
    simp [h.1, ht, hd]

/-- A node begins with a character that closes nothing. -/
theorem flow_head (n : Node) : ∃ c cs, flow n = c :: cs ∧ c ≠ ']' ∧ c ≠ '}' := by
  cases n with
  | null => exact ⟨_, _, by rw [flow], by decide, by decide⟩
  | seq items => exact ⟨_, _, by rw [flow], by decide, by decide⟩
  | map pairs => exact ⟨_, _, by rw [flow], by decide, by decide⟩
  | scalar s =>
    by_cases hp : plain s = true
    · rw [flow, if_pos hp]
      unfold plain at hp
      cases hs : s.toList with
      | nil => simp [hs] at hp
      | cons c cs =>
        have hc : plainChar c = true := by simp_all
        refine ⟨c, cs, rfl, ?_, ?_⟩
        · intro he
          subst he
          exact absurd hc (by decide)
        · intro he
          subst he
          exact absurd hc (by decide)
    · exact ⟨_, _, by rw [flow, if_neg hp], by decide, by decide⟩

theorem flow_length_pos (n : Node) : 0 < (flow n).length := by
  obtain ⟨c, cs, h, -⟩ := flow_head n
  simp [h]

theorem parse_scalar (s : String) (k : Nat) (r : List Char) (hk : 0 < k) (hr : Stops r) :
    parse k (flow (.scalar s) ++ r) = some (.scalar s, r) := by
  obtain ⟨k, rfl⟩ : ∃ k', k = k' + 1 := ⟨k - 1, by omega⟩
  by_cases hp : plain s = true
  · rw [flow, if_pos hp]
    unfold plain at hp
    have hall : s.toList.all plainChar = true := by simp_all
    obtain ⟨htake, hdrop⟩ := takeWhile_plain hall hr
    cases hs : s.toList with
    | nil => simp [hs] at hp
    | cons c cs =>
      have hc : plainChar c = true := by simp_all
      have hne : ∀ d, plainChar d = false → c ≠ d := by
        intro d hd he
        rw [he, hd] at hc
        exact Bool.noConfusion hc
      rw [hs, List.cons_append] at htake hdrop
      rw [List.cons_append, parse, if_neg (hne '~' (by decide)), if_neg (hne '"' (by decide)),
        if_neg (hne '[' (by decide)), if_neg (hne '{' (by decide)), if_pos hc, htake, hdrop, ← hs,
        String.ofList_toList]
  · have htext : flow (.scalar s) ++ r = '"' :: (escape s.toList ++ '"' :: r) := by
      rw [flow, if_neg hp]
      simp
    rw [htext, parse, if_neg (by decide), if_pos rfl, unquote_escape]
    simp

mutual

/-- The reader takes a node off the front of a text. -/
theorem parse_flow : ∀ (n : Node) (k : Nat) (r : List Char), (flow n).length ≤ k → Stops r →
    parse k (flow n ++ r) = some (n, r)
  | .scalar s, k, r, hk, hr => by
    have hpos := flow_length_pos (.scalar s)
    exact parse_scalar s k r (by omega) hr
  | .null, k, r, hk, _ => by
    obtain ⟨k, rfl⟩ : ∃ k', k = k' + 1 := ⟨k - 1, by simp [flow] at hk; omega⟩
    simp [flow, parse]
  | .seq items, k, r, hk, _ => by
    simp only [flow, List.length_cons, List.length_append, List.length_nil] at hk
    obtain ⟨k, rfl⟩ : ∃ k', k = k' + 1 := ⟨k - 1, by omega⟩
    have hitems := parseItems_flow items k r (by omega)
    simp [flow, parse, hitems]
  | .map pairs, k, r, hk, _ => by
    simp only [flow, List.length_cons, List.length_append, List.length_nil] at hk
    obtain ⟨k, rfl⟩ : ∃ k', k = k' + 1 := ⟨k - 1, by omega⟩
    have hpairs := parsePairs_flow pairs k r (by omega)
    simp [flow, parse, hpairs]

theorem parseItems_flow : ∀ (ns : List Node) (k : Nat) (r : List Char),
    (flowItems ns).length + 1 ≤ k → parseItems k (flowItems ns ++ ']' :: r) = some (ns, r)
  | [], k, r, hk => by
    obtain ⟨k, rfl⟩ : ∃ k', k = k' + 1 := ⟨k - 1, by omega⟩
    simp [flowItems, parseItems]
  | n :: ns, k, r, hk => by
    simp only [flowItems, List.length_cons, List.length_append] at hk
    obtain ⟨k, rfl⟩ : ∃ k', k = k' + 1 := ⟨k - 1, by omega⟩
    have hstop : Stops (',' :: ' ' :: (flowItems ns ++ ']' :: r)) := by
      intro c hc
      cases hc
      decide
    have hn := parse_flow n k _ (by omega) hstop
    have hns := parseItems_flow ns k r (by omega)
    obtain ⟨c, cs, hflow, hc, -⟩ := flow_head n
    have hhead : (flow n ++ ',' :: ' ' :: (flowItems ns ++ ']' :: r)).head? ≠ some ']' := by
      rw [hflow]
      simpa using hc
    rw [flowItems, List.append_assoc, List.cons_append, List.cons_append, parseItems,
      if_neg hhead, hn]
    simp [hns]

theorem parsePairs_flow : ∀ (es : List (Node × Node)) (k : Nat) (r : List Char),
    (flowPairs es).length + 1 ≤ k → parsePairs k (flowPairs es ++ '}' :: r) = some (es, r)
  | [], k, r, hk => by
    obtain ⟨k, rfl⟩ : ∃ k', k = k' + 1 := ⟨k - 1, by omega⟩
    simp [flowPairs, parsePairs]
  | (key, v) :: es, k, r, hk => by
    simp only [flowPairs, List.length_cons, List.length_append] at hk
    obtain ⟨k, rfl⟩ : ∃ k', k = k' + 1 := ⟨k - 1, by omega⟩
    have hstop : Stops (',' :: ' ' :: (flowPairs es ++ '}' :: r)) := by
      intro c hc
      cases hc
      decide
    have hstop' : Stops (':' :: ' ' :: (flow v ++ ',' :: ' ' :: (flowPairs es ++ '}' :: r))) := by
      intro c hc
      cases hc
      decide
    have hkey := parse_flow key k _ (by omega) hstop'
    have hv := parse_flow v k _ (by omega) hstop
    have hes := parsePairs_flow es k r (by omega)
    obtain ⟨c, cs, hflow, -, hc⟩ := flow_head key
    have hhead : (flow key ++ ':' :: ' ' ::
        (flow v ++ ',' :: ' ' :: (flowPairs es ++ '}' :: r))).head? ≠ some '}' := by
      rw [hflow]
      simpa using hc
    have htext : flowPairs ((key, v) :: es) ++ '}' :: r = flow key ++ ':' :: ' ' ::
        (flow v ++ ',' :: ' ' :: (flowPairs es ++ '}' :: r)) := by
      simp [flowPairs]
    rw [htext, parsePairs, if_neg hhead, hkey]
    simp [hv, hes]

end

theorem loadLine_flow (n : Node) : loadLine (flow n) = some n := by
  have h := parse_flow n ((flow n).length + 1) [] (by omega) (by simp [Stops])
  rw [List.append_nil] at h
  simp [loadLine, h]

/-! ## Lines -/

theorem escape_line (cs : List Char) : '\n' ∉ escape cs := by
  induction cs with
  | nil => simp [escape]
  | cons c cs ih =>
    unfold escape
    split
    · simp [ih]
    · split
      · simp_all [eq_comm]
      · simp_all [eq_comm]

mutual

/-- A node is written on one line. -/
theorem flow_line : ∀ n : Node, '\n' ∉ flow n
  | .null => by simp [flow]
  | .scalar s => by
    by_cases hp : plain s = true
    · rw [flow, if_pos hp]
      intro hmem
      unfold plain at hp
      have hall : s.toList.all plainChar = true := by simp_all
      exact absurd (List.all_eq_true.mp hall _ hmem) (by decide)
    · rw [flow, if_neg hp]
      simp [escape_line]
  | .seq items => by simp [flow, flowItems_line items]
  | .map pairs => by simp [flow, flowPairs_line pairs]

theorem flowItems_line : ∀ ns : List Node, '\n' ∉ flowItems ns
  | [] => by simp [flowItems]
  | n :: ns => by simp [flowItems, flow_line n, flowItems_line ns]

theorem flowPairs_line : ∀ es : List (Node × Node), '\n' ∉ flowPairs es
  | [] => by simp [flowPairs]
  | (k, v) :: es => by simp [flowPairs, flow_line k, flow_line v, flowPairs_line es]

end

/-- A node alone does not look like the first line of a sequence. -/
theorem flow_take (n : Node) : (flow n).take 2 ≠ ['-', ' '] := by
  cases n with
  | null | seq _ | map _ => simp [flow]
  | scalar s =>
    by_cases hp : plain s = true
    · rw [flow, if_pos hp]
      intro htake
      unfold plain at hp
      have hall : s.toList.all plainChar = true := by simp_all
      have hmem : ' ' ∈ s.toList.take 2 := by simp [htake]
      exact absurd (List.all_eq_true.mp hall _ (List.mem_of_mem_take hmem)) (by decide)
    · rw [flow, if_neg hp]
      simp

theorem load_flow (n : Node) : load (flow n) = some n := by
  obtain ⟨c, cs, hflow, -⟩ := flow_head n
  have hne : ¬ (flow n).isEmpty = true := by simp [hflow]
  rw [load, if_neg hne, if_neg (flow_take n), loadLine_flow]

theorem load_emit (n : Node) : load (emit n) = some n := by
  cases n with
  | null | scalar _ | map _ => exact load_flow _
  | seq items =>
    cases items with
    | nil => exact load_flow _
    | cons n ns =>
      have hlines : ∀ l ∈ (n :: ns).map (fun n => '-' :: ' ' :: flow n), '\n' ∉ l := by
        intro l hl
        obtain ⟨m, -, rfl⟩ := List.mem_map.mp hl
        simp [flow_line]
      have hload : ∀ ms : List Node,
          (ms.map fun n => '-' :: ' ' :: flow n).mapM (fun line => loadLine (line.drop 2)) =
            some ms := by
        intro ms
        induction ms with
        | nil => rfl
        | cons m ms ih =>
          rw [List.map_cons, List.mapM_cons, ih]
          simp [loadLine_flow]
      have hfront : ∃ cs, emit (.seq (n :: ns)) = '-' :: ' ' :: cs := by
        cases ns with
        | nil => exact ⟨flow n, by simp [emit]⟩
        | cons m ms => exact ⟨_, by simp [emit]; rfl⟩
      obtain ⟨cs, hcs⟩ := hfront
      have hblock : load (emit (.seq (n :: ns))) =
          (((emit (.seq (n :: ns))).splitOn '\n').mapM fun line =>
            loadLine (line.drop 2)).map .seq := by
        rw [hcs]
        simp [load]
      rw [hblock, emit, List.splitOn_intercalate _ hlines (by simp), hload]
      rfl

theorem plain_of_decimal {s : String} (h : IsDecimal s = true) : plain s = true := by
  have hdigit : ∀ c : Char, c.isDigit = true → plainChar c = true := by
    intro c hc
    simp [plainChar, Char.isAlphanum, hc]
  unfold IsDecimal at h
  unfold plain
  split at h
  · next ds hs =>
    rw [hs]
    simp only [Bool.and_eq_true, List.all_eq_true] at h
    have hminus : plainChar '-' = true := by decide
    simp only [List.isEmpty_cons, Bool.not_false, List.all_cons, hminus, Bool.true_and]
    exact List.all_eq_true.mpr fun c hc => hdigit c (h.2 c hc)
  · simp only [Bool.and_eq_true, List.all_eq_true] at h ⊢
    exact ⟨h.1, fun c hc => hdigit c (h.2 c hc)⟩

/-- A plain scalar is written as it is, -/
theorem emit_plain {s : String} (h : plain s = true) : emit (.scalar s) = s.toList := by
  rw [emit, flow, if_pos h]
  intro n ns hn
  cases hn

/-- and read as it is. -/
theorem load_plain {s : String} (h : plain s = true) : load s.toList = some (.scalar s) := by
  rw [← emit_plain h, load_emit]

end Ppcode.FlowYaml

namespace Ppcode

/-- `node[i]` finds nothing in a map, and `Null` is no string. -/
def flowYaml : Yaml where
  emit n := String.ofList (FlowYaml.emit n)
  load s := FlowYaml.load s.toList
  mapItem _ _ := none
  nullAs := none
  load_emit n := by rw [String.toList_ofList, FlowYaml.load_emit]
  load_empty := rfl
  emit_null := by simp [FlowYaml.emit, FlowYaml.flow]
  load_decimal s h := FlowYaml.load_plain (FlowYaml.plain_of_decimal h)
  emit_decimal s h := by
    rw [FlowYaml.emit_plain (FlowYaml.plain_of_decimal h), String.ofList_toList]

end Ppcode
