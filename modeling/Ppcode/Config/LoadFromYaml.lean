import Mathlib.Data.List.Infix
import Ppcode.Config.Yaml

/-!
# `Config::LoadFromYaml`

`src/config/config.cc`. `S_listYamlNode` flattens a tree into the list of its
nodes that are reached through maps, each with its dotted path; a path with a
character that it does not accept drops the node and everything below it.
`LoadFromYaml` passes the text of each node to the variable of that name.
-/
namespace Ppcode

/-- mirrors src/config/config.cc:21 -/
def accepted (c : Char) : Bool :=
  "qwertyuiopasdfghjklzxcvbnm_:.0123456789".toList.contains c

mutual

/-- mirrors src/config/config.cc:18-40 -/
def S_listYamlNode (pre : String) (node : Node) : List (String × Node) :=
  if !pre.toList.all accepted then []
  else (pre, node) :: match node with
    | .map pairs => S_listYamlPairs pre pairs
    | _ => []

/-- The loop over a map.
mirrors src/config/config.cc:31-38 -/
def S_listYamlPairs (pre : String) : List (Node × Node) → List (String × Node)
  | [] => []
  | (key, value) :: rest =>
    S_listYamlNode (if pre.isEmpty then key.Scalar else pre ++ "." ++ key.Scalar) value ++
      S_listYamlPairs pre rest

end

namespace Config

/-- The registered variables, named as they are; each has a type and a conversion of
its own, `none` where it throws. `emit` writes a node that is no scalar. -/
structure Registry where
  T : String → Type
  registered : String → Bool
  fromStr : ∀ x, String → Option (T x)
  emit : Node → String

/-- The value of each variable. -/
abbrev Values (c : Registry) := ∀ x, c.T x

/-- `fromString` of the variable `x`; no listener throws.
mirrors src/config/configVar.h:64-76 -/
def fromString (c : Registry) (vals : Values c) (x value : String) : Values c :=
  match c.fromStr x value with
  | some v => Function.update vals x v
  | none => vals

/-- The text of a node.
mirrors src/config/config.cc:58-64 -/
def text (c : Registry) (node : Node) : String :=
  if node.IsScalar then node.Scalar else c.emit node

/-- mirrors src/config/config.cc:42-66 -/
def LoadFromYaml (c : Registry) (rootNode : Node) (vals : Values c) : Values c :=
  (S_listYamlNode "" rootNode).foldl (fun vals it =>
    let key := it.1
    if key.isEmpty then vals
    else
      let key := key.map Char.toLower
      if c.registered key then fromString c vals key (text c it.2) else vals) vals

/-! ## The nodes below the root -/

/-- Keys joined by dots. -/
def dotted : List String → String
  | [] => ""
  | [k] => k
  | k :: ks => k ++ "." ++ dotted ks

mutual

/-- The nodes below a node that are reached through maps only, in document
pre-order, each with the keys on its path. -/
def below : Node → List (List String × Node)
  | .map pairs => belowPairs pairs
  | _ => []

def belowPairs : List (Node × Node) → List (List String × Node)
  | [] => []
  | (key, value) :: rest =>
    ([key.Scalar], value) :: (below value).map (fun e => (key.Scalar :: e.1, e.2)) ++
      belowPairs rest

end

mutual

/-- The keys of the maps that are reached through maps are non-empty scalars. -/
def KeysOk : Node → Prop
  | .map pairs => KeysOkPairs pairs
  | _ => True

def KeysOkPairs : List (Node × Node) → Prop
  | [] => True
  | (key, value) :: rest =>
    (key.IsScalar = true ∧ key.Scalar ≠ "") ∧ KeysOk value ∧ KeysOkPairs rest

end

/-- The path and those of its ancestors have accepted characters only. -/
def pathOk (path : List String) : Bool :=
  path.inits.all fun ks => (dotted ks).toList.all accepted

/-- The calls of `fromString` that the tree asks for, where variables of those names are
registered: name and text. -/
def assignments (c : Registry) (rootNode : Node) : List (String × String) :=
  ((below rootNode).filter fun e => pathOk e.1).map fun e => (dotted e.1, text c e.2)

/-- The values that the calls give the variable `x`, of the texts that convert. -/
def conversions (c : Registry) (rootNode : Node) (x : String) : List (c.T x) :=
  (assignments c rootNode).filterMap fun a =>
    if a.1 = x ∧ c.registered x = true then c.fromStr x a.2 else none

/-! ## Paths -/

/-- A key of accepted characters. -/
def keyOk (k : String) : Bool := k.toList.all accepted

theorem dotted_cons (k : String) {ks : List String} (h : ks ≠ []) :
    dotted (k :: ks) = k ++ "." ++ dotted ks := by
  cases ks with
  | nil => exact absurd rfl h
  | cons k' ks => rfl

theorem dotted_accepted (ks : List String) : (dotted ks).toList.all accepted = ks.all keyOk := by
  induction ks with
  | nil => rfl
  | cons k ks ih =>
    by_cases h : ks = []
    · subst h
      simp [dotted, keyOk]
    · have hdot : ".".toList.all accepted = true := by decide
      rw [dotted_cons k h, String.toList_append, String.toList_append, List.all_append,
        List.all_append, ih, hdot, List.all_cons, Bool.and_true]
      rfl

theorem pathOk_eq (path : List String) : pathOk path = path.all keyOk := by
  rw [Bool.eq_iff_iff]
  simp only [pathOk, dotted_accepted, List.all_eq_true, List.mem_inits]
  constructor
  · intro h k hk
    exact h path (List.prefix_refl _) k hk
  · intro h ks hks k hk
    exact h k (hks.subset hk)

theorem dotted_concat (ks : List String) (k : String) (h : ks ≠ []) :
    dotted (ks ++ [k]) = dotted ks ++ "." ++ k := by
  induction ks with
  | nil => exact absurd rfl h
  | cons k' ks ih =>
    by_cases hks : ks = []
    · subst hks
      rfl
    · rw [List.cons_append, dotted_cons _ (by simp), ih hks, dotted_cons _ hks]
      simp only [String.append_assoc]

/-- Only the path of the root is empty. -/
theorem dotted_isEmpty {ks : List String} (h : ∀ k ∈ ks, k ≠ "") :
    (dotted ks).isEmpty = true ↔ ks = [] := by
  rw [String.isEmpty_iff]
  cases ks with
  | nil => simp [dotted]
  | cons k ks =>
    have hk := h k (by simp)
    by_cases hks : ks = []
    · subst hks
      simpa [dotted] using hk
    · rw [dotted_cons k hks]
      simp [hk]

/-- The prefix that `S_listYamlNode` passes on. -/
theorem dotted_next {ks : List String} (h : ∀ k ∈ ks, k ≠ "") (k : String) :
    (if (dotted ks).isEmpty then k else dotted ks ++ "." ++ k) = dotted (ks ++ [k]) := by
  by_cases hks : ks = []
  · subst hks
    rfl
  · have hne : ¬ (dotted ks).isEmpty = true := fun he => hks ((dotted_isEmpty h).mp he)
    rw [if_neg hne, dotted_concat ks k hks]

/-! ## The flattened list -/

/-- The nodes below a node at the path `ks` that are listed, with their names. -/
def listed (ks : List String) (es : List (List String × Node)) : List (String × Node) :=
  (es.filter fun e => e.1.all keyOk).map fun e => (dotted (ks ++ e.1), e.2)

theorem listed_append (ks : List String) (es es' : List (List String × Node)) :
    listed ks (es ++ es') = listed ks es ++ listed ks es' := by
  simp [listed]

/-- One entry of a map: its node and, unless the key is refused, what is below it. -/
theorem listed_entry (ks : List String) (k : String) (value : Node)
    (es : List (List String × Node)) :
    listed ks (([k], value) :: es.map (fun e => (k :: e.1, e.2))) =
      if keyOk k then (dotted (ks ++ [k]), value) :: listed (ks ++ [k]) es else [] := by
  cases hk : keyOk k with
  | true => simp [listed, hk, List.filter_map, Function.comp_def]
  | false => simp [listed, hk, List.filter_map, Function.comp_def]

mutual

theorem listYamlNode_eq : ∀ (node : Node) (ks : List String), KeysOk node → (∀ k ∈ ks, k ≠ "") →
    S_listYamlNode (dotted ks) node =
      if ks.all keyOk then (dotted ks, node) :: listed ks (below node) else []
  | .map pairs, ks, h, hks => by
    rw [S_listYamlNode, dotted_accepted]
    cases hok : ks.all keyOk with
    | false => rfl
    | true =>
      have hpairs := listYamlPairs_eq pairs ks (by simpa [KeysOk] using h) hks hok
      simp [hpairs, below]
  | .null, ks, _, _ | .scalar _, ks, _, _ | .seq _, ks, _, _ => by
    rw [S_listYamlNode, dotted_accepted]
    · cases ks.all keyOk <;> simp [below, listed]
    · intro pairs h
      cases h

theorem listYamlPairs_eq : ∀ (pairs : List (Node × Node)) (ks : List String), KeysOkPairs pairs →
    (∀ k ∈ ks, k ≠ "") → ks.all keyOk = true →
    S_listYamlPairs (dotted ks) pairs = listed ks (belowPairs pairs)
  | [], ks, _, _, _ => by simp [S_listYamlPairs, belowPairs, listed]
  | (key, value) :: rest, ks, h, hks, hok => by
    obtain ⟨⟨-, hkey⟩, hvalue, hrest⟩ := h
    have hks' : ∀ k ∈ ks ++ [key.Scalar], k ≠ "" := by
      intro k hk
      rcases List.mem_append.mp hk with hk | hk
      · exact hks k hk
      · rw [List.mem_singleton.mp hk]
        exact hkey
    rw [S_listYamlPairs, dotted_next hks, listYamlNode_eq value _ hvalue hks',
      listYamlPairs_eq rest ks hrest hks hok, belowPairs, listed_append, listed_entry]
    simp [hok]

end

mutual

/-- The keys on the paths are not empty. -/
theorem below_keys : ∀ (node : Node), KeysOk node → ∀ e ∈ below node, e.1 ≠ [] ∧ ∀ k ∈ e.1, k ≠ ""
  | .map pairs, h, e, he => by
    rw [below] at he
    exact belowPairs_keys pairs (by simpa [KeysOk] using h) e he
  | .null, _, e, he | .scalar _, _, e, he | .seq _, _, e, he => by simp [below] at he

theorem belowPairs_keys : ∀ (pairs : List (Node × Node)), KeysOkPairs pairs →
    ∀ e ∈ belowPairs pairs, e.1 ≠ [] ∧ ∀ k ∈ e.1, k ≠ ""
  | [], _, e, he => by simp [belowPairs] at he
  | (key, value) :: rest, h, e, he => by
    obtain ⟨⟨-, hkey⟩, hvalue, hrest⟩ := h
    rw [belowPairs] at he
    rcases List.mem_append.mp he with he | he
    · rcases List.mem_cons.mp he with rfl | he
      · simpa using hkey
      · obtain ⟨e', he', rfl⟩ := List.mem_map.mp he
        have hrec := below_keys value hvalue e' he'
        refine ⟨by simp, fun k hk => ?_⟩
        rcases List.mem_cons.mp hk with rfl | hk
        · exact hkey
        · exact hrec.2 k hk
    · exact belowPairs_keys rest hrest e he

end

/-! ## The effect -/

theorem toLower_accepted (c : Char) (h : accepted c = true) : c.toLower = c := by
  have hall : ("qwertyuiopasdfghjklzxcvbnm_:.0123456789".toList.all fun c => c.toLower == c) =
      true := by decide
  have hc := List.all_eq_true.mp hall c (List.contains_iff_mem.mp h)
  exact eq_of_beq hc

/-- `::tolower` changes no name that is listed. -/
theorem map_toLower (s : String) (h : s.toList.all accepted = true) : s.map Char.toLower = s := by
  apply String.toList_inj.mp
  have hid : s.toList.map Char.toLower = s.toList.map id :=
    List.map_congr_left fun c hc => toLower_accepted c (List.all_eq_true.mp h c hc)
  rw [String.toList_map, hid, List.map_id]

/-- One call. -/
def assign (c : Registry) (vals : Values c) (a : String × String) : Values c :=
  if c.registered a.1 then fromString c vals a.1 a.2 else vals

theorem loadFromYaml_fold (c : Registry) (rootNode : Node) (vals : Values c)
    (h : KeysOk rootNode) :
    LoadFromYaml c rootNode vals = (assignments c rootNode).foldl (assign c) vals := by
  have hlist : S_listYamlNode "" rootNode = ("", rootNode) :: listed [] (below rootNode) := by
    have heq := listYamlNode_eq rootNode [] h (by simp)
    simpa [dotted] using heq
  have hroot (vals : Values c) : (if "".isEmpty then vals
      else if c.registered ("".map Char.toLower) then
        fromString c vals ("".map Char.toLower) (text c rootNode) else vals) = vals := if_pos rfl
  rw [LoadFromYaml, hlist, List.foldl_cons, hroot, assignments, listed, List.foldl_map,
    List.foldl_map]
  have hfilter : (below rootNode).filter (fun e => pathOk e.1) =
      (below rootNode).filter (fun e => e.1.all keyOk) := by
    simp only [pathOk_eq]
  rw [hfilter]
  refine List.foldl_ext _ _ _ fun vals e he => ?_
  obtain ⟨hmem, hok⟩ := List.mem_filter.mp he
  have hkeys := below_keys rootNode h e hmem
  have hne : ¬ (dotted e.1).isEmpty = true := fun hemp => hkeys.1 ((dotted_isEmpty hkeys.2).mp hemp)
  have hlow : (dotted e.1).map Char.toLower = dotted e.1 :=
    map_toLower _ (by rw [dotted_accepted]; exact hok)
  simp only [List.nil_append, hlow, assign]
  rw [if_neg hne]

/-- What a list of calls leaves in one variable. -/
theorem foldl_assign (c : Registry) (as : List (String × String)) (vals : Values c) (x : String) :
    as.foldl (assign c) vals x = ((as.filterMap fun a =>
      if a.1 = x ∧ c.registered x = true then c.fromStr x a.2 else none).getLast?).getD (vals x) := by
  induction as using List.reverseRecOn with
  | nil => rfl
  | append_singleton as a ih =>
    rw [List.foldl_append, List.filterMap_append, List.foldl_cons, List.foldl_nil, assign]
    by_cases hx : a.1 = x
    · subst hx
      cases hreg : c.registered a.1 with
      | false => simpa [hreg] using ih
      | true =>
        cases hconv : c.fromStr a.1 a.2 with
        | none => simpa [hreg, fromString, hconv] using ih
        | some v => simp [fromString, hconv]
    · have hother : (if c.registered a.1 then fromString c (as.foldl (assign c) vals) a.1 a.2
          else as.foldl (assign c) vals) x = as.foldl (assign c) vals x := by
        split
        · unfold fromString
          cases c.fromStr a.1 a.2 with
          | some v => exact Function.update_of_ne (Ne.symm hx) _ _
          | none => rfl
        · rfl
      rw [hother, ih]
      simp [hx]

/-- `LoadFromYaml` calls `fromString` of exactly the registered variables that a listed
node names, in document pre-order: each variable ends with the last text that
converts, or keeps its value. -/
theorem loadFromYaml_spec (c : Registry) (rootNode : Node) (vals : Values c)
    (h : KeysOk rootNode) :
    LoadFromYaml c rootNode vals = (assignments c rootNode).foldl (assign c) vals ∧
    ∀ x, LoadFromYaml c rootNode vals x = ((conversions c rootNode x).getLast?).getD (vals x) := by
  have hfold := loadFromYaml_fold c rootNode vals h
  refine ⟨hfold, fun x => ?_⟩
  rw [hfold, foldl_assign]
  rfl

/-- The variables `a.b` and `a`, of one digit each. -/
def aRegistry : Registry where
  T _ := Nat
  registered x := x == "a.b" || x == "a"
  fromStr _ s :=
    match s.toList with
    | [ch] => if ch.isDigit then some (ch.toNat - '0'.toNat) else none
    | _ => none
  emit _ := ""

/-- `a: {b: 1, B: 2}` and `a.b: 3`. -/
def aTree : Node :=
  .map [(.scalar "a", .map [(.scalar "b", .scalar "1"), (.scalar "B", .scalar "2")]),
    (.scalar "a.b", .scalar "3")]

def sevens : Values aRegistry := fun _ => (7 : Nat)

/-- The last digit at `a.b` stays, and the map at `a` is none. -/
theorem loadFromYaml_aTree : LoadFromYaml aRegistry aTree sevens "a.b" = (3 : Nat) ∧
    LoadFromYaml aRegistry aTree sevens "a" = (7 : Nat) := by
  have hspec := loadFromYaml_spec aRegistry aTree sevens
    (by simp [aTree, KeysOk, KeysOkPairs, Node.IsScalar, Node.Scalar])
  have hdigits : conversions aRegistry aTree "a.b" = ([1, 3] : List Nat) := by rfl
  have hnone : conversions aRegistry aTree "a" = ([] : List Nat) := by rfl
  refine ⟨(hspec.2 "a.b").trans ?_, (hspec.2 "a").trans ?_⟩
  · rw [hdigits]
    rfl
  · rw [hnone]
    rfl

end Config
end Ppcode
