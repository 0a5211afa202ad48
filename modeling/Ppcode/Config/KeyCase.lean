import Ppcode.Core.LastWins
import Ppcode.Config.LoadFromYaml

/-!
# Keys in upper case

`LoadFromYaml` folds each path to lower case before it looks the variable up, but
`S_listYamlNode` has dropped every path with an upper-case letter, and all that is
below it, by then (`src/config/config.cc:21` and `:52`).

Here a tree is loaded and then loaded again with all its keys in lower case.

* `listYamlNode_filter`: the nodes that are listed, for keys of any kind.
* `loadFromYaml_value`: what a variable is left with.
* `caseInsensitive_iff`: the trees for which no registry of `Lookup` can tell the two apart.
-/
namespace Ppcode.Config

/-! ## Keys in lower case -/

/-- A key that is no scalar has no text. -/
def lowerKey : Node → Node
  | .scalar value => .scalar (value.map Char.toLower)
  | key => key

mutual

/-- The node with each key of each map in lower case. -/
def lower : Node → Node
  | .null => .null
  | .scalar value => .scalar value
  | .seq items => .seq (lowerItems items)
  | .map pairs => .map (lowerPairs pairs)

def lowerItems : List Node → List Node
  | [] => []
  | item :: items => lower item :: lowerItems items

def lowerPairs : List (Node × Node) → List (Node × Node)
  | [] => []
  | (key, value) :: rest => (lowerKey key, lower value) :: lowerPairs rest

end

/-! ## Every node with its path -/

/-- The path of the value of a key. -/
def next (pre key : String) : String := if pre.isEmpty then key else pre ++ "." ++ key

mutual

/-- What `S_listYamlNode` lists if it accepts every path. -/
def nodes (pre : String) (node : Node) : List (String × Node) :=
  (pre, node) :: match node with
    | .map pairs => nodesPairs pre pairs
    | _ => []

def nodesPairs (pre : String) : List (Node × Node) → List (String × Node)
  | [] => []
  | (key, value) :: rest => nodes (next pre key.Scalar) value ++ nodesPairs pre rest

end

/-- The text of a node, where `emit` writes those that are no scalars. -/
def nodeText (emit : Node → String) (node : Node) : String :=
  if node.IsScalar then node.Scalar else emit node

/-- The texts of the nodes at the path `x`. -/
def texts (emit : Node → String) (y : Node) (x : String) : List String :=
  ((nodes "" y).filter fun e => decide (e.1 = x)).map fun e => nodeText emit e.2

/-- The texts, with keys in lower case, of the nodes whose path is `x` in lower case. -/
def lowerTexts (emit : Node → String) (y : Node) (x : String) : List String :=
  ((nodes "" y).filter fun e => decide (e.1.map Char.toLower = x)).map
    fun e => nodeText emit (lower e.2)

/-- The names that `Lookup` registers.
mirrors src/config/config.h:47-48 -/
def validName (name : String) : Bool :=
  name.toList.all fun ch => "abcdefghijklmnopqrstuvwxyz._0123456789".toList.contains ch

/-- Whatever variables `Lookup` has registered, and whatever their values: they are left with the
same values whether the keys of the tree are in lower case or not. -/
def CaseInsensitive (emit : Node → String) (y : Node) : Prop :=
  ∀ (c : Registry) (vals : Values c), c.emit = emit →
    (∀ x, c.registered x = true → validName x = true) →
    LoadFromYaml c y vals = LoadFromYaml c (lower y) vals

/-- The nodes at each path that is a name for `Lookup` have the texts that the nodes at that path
in any case have with their keys in lower case, each text at its last place. -/
def Meets (emit : Node → String) (y : Node) : Prop :=
  ∀ x, x ≠ "" → validName x = true → (texts emit y x).dedup = (lowerTexts emit y x).dedup

/-! ## What is listed -/

/-- A name that `Lookup` takes is a path that `S_listYamlNode` takes. -/
theorem keyOk_of_validName {x : String} (h : validName x = true) : keyOk x = true := by
  have hsub : "abcdefghijklmnopqrstuvwxyz._0123456789".toList.all accepted = true := by decide
  refine List.all_eq_true.mpr fun ch hch => List.all_eq_true.mp hsub ch ?_
  exact List.contains_iff_mem.mp (List.all_eq_true.mp h ch hch)

theorem keyOk_next {pre key : String} (h : keyOk (next pre key) = true) : keyOk pre = true := by
  unfold next at h
  split at h
  · rename_i hemp
    rw [String.isEmpty_iff.mp hemp]
    rfl
  · rw [keyOk, String.toList_append, List.all_append, Bool.and_eq_true, String.toList_append,
      List.all_append, Bool.and_eq_true] at h
    exact h.1.1

mutual

/-- A path that is not accepted has none below it that is. -/
theorem keyOk_nodes : ∀ (node : Node) (pre : String), ∀ e ∈ nodes pre node,
    keyOk e.1 = true → keyOk pre = true
  | .map pairs, pre, e, he, hok => by
    rw [nodes] at he
    rcases List.mem_cons.mp he with rfl | he
    · exact hok
    · exact keyOk_nodesPairs pairs pre e he hok
  | .null, pre, e, he, hok | .scalar _, pre, e, he, hok | .seq _, pre, e, he, hok => by
    simp only [nodes, List.mem_singleton] at he
    rw [he] at hok
    exact hok

theorem keyOk_nodesPairs : ∀ (pairs : List (Node × Node)) (pre : String),
    ∀ e ∈ nodesPairs pre pairs, keyOk e.1 = true → keyOk pre = true
  | [], pre, e, he, _ => by
    rw [nodesPairs] at he
    cases he
  | (key, value) :: rest, pre, e, he, hok => by
    rw [nodesPairs] at he
    rcases List.mem_append.mp he with he | he
    · exact keyOk_next (keyOk_nodes value _ e he hok)
    · exact keyOk_nodesPairs rest pre e he hok

end

mutual

/-- The nodes at the accepted paths are listed. -/
theorem listYamlNode_filter : ∀ (node : Node) (pre : String),
    S_listYamlNode pre node = (nodes pre node).filter fun e => keyOk e.1
  | .map pairs, pre => by
    have hpairs := listYamlPairs_filter pairs pre
    cases hpre : keyOk pre with
    | false =>
      have hnone : (nodes pre (.map pairs)).filter (fun e => keyOk e.1) = [] := by
        refine List.filter_eq_nil_iff.mpr fun e he hok => ?_
        rw [keyOk_nodes _ pre e he hok] at hpre
        cases hpre
      rw [hnone, S_listYamlNode, if_pos (by rw [keyOk] at hpre; simp [hpre])]
    | true =>
      have hcons := List.filter_cons_of_pos (p := fun e : String × Node => keyOk e.1)
        (a := (pre, Node.map pairs)) (l := nodesPairs pre pairs) hpre
      rw [S_listYamlNode, if_neg (by rw [keyOk] at hpre; simp [hpre]), nodes, hcons, hpairs]
  | .null, pre | .scalar _, pre | .seq _, pre => by
    cases hpre : keyOk pre with
    | false =>
      have hacc : pre.toList.all accepted = false := hpre
      simp [S_listYamlNode, nodes, hacc, hpre]
    | true =>
      have hacc : pre.toList.all accepted = true := hpre
      simp [S_listYamlNode, nodes, hacc, hpre]

theorem listYamlPairs_filter : ∀ (pairs : List (Node × Node)) (pre : String),
    S_listYamlPairs pre pairs = (nodesPairs pre pairs).filter fun e => keyOk e.1
  | [], pre => by rw [S_listYamlPairs, nodesPairs]; rfl
  | (key, value) :: rest, pre => by
    rw [S_listYamlPairs, nodesPairs, List.filter_append, ← listYamlNode_filter value,
      ← listYamlPairs_filter rest]
    rfl

end

/-! ## The tree in lower case -/

theorem lower_next (pre key : String) :
    (next pre key).map Char.toLower = next (pre.map Char.toLower) (key.map Char.toLower) := by
  have hempty : (pre.map Char.toLower).isEmpty = pre.isEmpty := by
    rw [Bool.eq_iff_iff, String.isEmpty_iff, String.isEmpty_iff, ← String.toList_inj,
      ← String.toList_inj, String.toList_map]
    simp
  unfold next
  rw [hempty]
  split
  · rfl
  · rw [← String.toList_inj]
    simp [String.toList_map]

theorem lower_empty : ("" : String).map Char.toLower = "" := map_toLower "" rfl

theorem lowerKey_scalar (key : Node) : (lowerKey key).Scalar = key.Scalar.map Char.toLower := by
  cases key with
  | scalar value => rfl
  | null | seq _ | map _ => exact lower_empty.symm

/-- An entry in lower case. -/
def lowerEntry (e : String × Node) : String × Node := (e.1.map Char.toLower, lower e.2)

mutual

theorem nodes_lower : ∀ (node : Node) (pre : String),
    nodes (pre.map Char.toLower) (lower node) = (nodes pre node).map lowerEntry
  | .map pairs, pre => by
    have hpairs := nodesPairs_lower pairs pre
    simp only [lower, nodes, List.map_cons, hpairs, lowerEntry]
  | .null, pre | .scalar _, pre | .seq _, pre => by
    simp only [lower, nodes, List.map_cons, List.map_nil, lowerEntry]

theorem nodesPairs_lower : ∀ (pairs : List (Node × Node)) (pre : String),
    nodesPairs (pre.map Char.toLower) (lowerPairs pairs) = (nodesPairs pre pairs).map lowerEntry
  | [], pre => rfl
  | (key, value) :: rest, pre => by
    rw [lowerPairs, nodesPairs, lowerKey_scalar, ← lower_next, nodes_lower value,
      nodesPairs_lower rest, nodesPairs, List.map_append]

end

theorem texts_lower (emit : Node → String) (y : Node) (x : String) :
    texts emit (lower y) x = lowerTexts emit y x := by
  have hnodes : nodes "" (lower y) = (nodes "" y).map lowerEntry := by
    rw [← nodes_lower, lower_empty]
  rw [texts, lowerTexts, hnodes, List.filter_map, List.map_map]
  rfl

/-! ## What a variable is left with -/

/-- The calls of `fromString`, of nodes with keys of any kind. -/
theorem loadFromYaml_assign (c : Registry) (y : Node) (vals : Values c) :
    LoadFromYaml c y vals = (((nodes "" y).filter fun e => keyOk e.1 && !e.1.isEmpty).map
      fun e => (e.1, nodeText c.emit e.2)).foldl (assign c) vals := by
  have hsplit : ((nodes "" y).filter fun e => keyOk e.1 && !e.1.isEmpty) =
      (S_listYamlNode "" y).filter fun e => !e.1.isEmpty := by
    rw [listYamlNode_filter, List.filter_filter]
    simp only [Bool.and_comm]
  rw [hsplit, List.foldl_map, List.foldl_filter, LoadFromYaml]
  refine List.foldl_ext _ _ _ fun vals e he => ?_
  rw [listYamlNode_filter] at he
  have hlow : e.1.map Char.toLower = e.1 := map_toLower _ (List.mem_filter.mp he).2
  cases hemp : e.1.isEmpty with
  | true => simp [hemp]
  | false =>
    simp only [hemp, hlow, Bool.not_false, if_true, assign]
    rfl

/-- A variable with a name that can be listed has the last text at its path that converts; the
others keep their values. -/
theorem loadFromYaml_value (c : Registry) (y : Node) (vals : Values c) (x : String) :
    LoadFromYaml c y vals x = if x ≠ "" ∧ keyOk x = true ∧ c.registered x = true then
      ((texts c.emit y x).filterMap (c.fromStr x)).getLast?.getD (vals x) else vals x := by
  rw [loadFromYaml_assign, foldl_assign, List.filterMap_map, List.filterMap_filter]
  split
  · rename_i hx
    obtain ⟨hne, hok, hreg⟩ := hx
    rw [texts, List.filterMap_map, List.filterMap_filter]
    congr 2
    refine List.filterMap_congr fun e _ => ?_
    by_cases he : e.1 = x
    · have hemp : x.isEmpty = false := by simpa using hne
      simp [he, hok, hreg, hemp]
    · simp [he]
  · rename_i hx
    have hnone : (nodes "" y).filterMap (fun e =>
        if (keyOk e.1 && !e.1.isEmpty) = true then
          ((fun a : String × String =>
            if a.1 = x ∧ c.registered x = true then c.fromStr x a.2 else none) ∘
              fun e => (e.1, nodeText c.emit e.2)) e
        else none) = [] := by
      refine List.filterMap_eq_nil_iff.mpr fun e _ => ?_
      by_cases he : e.1 = x
      · subst he
        by_cases hlisted : (keyOk e.1 && !e.1.isEmpty) = true
        · rw [Bool.and_eq_true, Bool.not_eq_true', ← Bool.not_eq_true, String.isEmpty_iff]
            at hlisted
          have hreg : ¬ c.registered e.1 = true := fun hreg => hx ⟨hlisted.2, hlisted.1, hreg⟩
          simp [hreg]
        · rw [if_neg hlisted]
      · simp [he]
    rw [hnone]
    rfl

/-! ## The trees whose keys may be in any case -/

/-- A registry of the one variable `x`, whose conversion accepts the texts that `p` does. -/
def oneVar (emit : Node → String) (x : String) (p : String → Bool) : Registry where
  T _ := Option String
  registered name := decide (name = x)
  fromStr _ s := if p s then some (some s) else none
  emit := emit

theorem oneVar_validName (emit : Node → String) {x : String} (p : String → Bool)
    (hx : validName x = true) (name : String) (h : (oneVar emit x p).registered name = true) :
    validName name = true := by
  rw [of_decide_eq_true h]
  exact hx

/-- It is left with the last text that `p` accepts. -/
theorem loadFromYaml_oneVar (emit : Node → String) {x : String} (p : String → Bool) (y : Node)
    (hne : x ≠ "") (hvalid : validName x = true) :
    LoadFromYaml (oneVar emit x p) y (fun _ => none) x = ((texts emit y x).filter p).getLast? := by
  have hx : x ≠ "" ∧ keyOk x = true ∧ (oneVar emit x p).registered x = true :=
    ⟨hne, keyOk_of_validName hvalid, by simp [oneVar]⟩
  refine (loadFromYaml_value (oneVar emit x p) y (fun _ => none) x).trans ((if_pos hx).trans ?_)
  rw [getLast?_filterMap]
  have htaken : (fun s => ((oneVar emit x p).fromStr x s).isSome) = p := by
    funext s
    cases hp : p s <;> simp [oneVar, hp]
  have hemit : (oneVar emit x p).emit = emit := rfl
  rw [htaken, hemit]
  cases hlast : ((texts emit y x).filter p).getLast? with
  | none => rfl
  | some s =>
    have hp : p s = true := (List.mem_filter.mp (List.mem_of_getLast? hlast)).2
    show ((some s).bind fun s => if p s then some (some s) else none).getD none = some s
    rw [Option.bind_some, if_pos hp, Option.getD_some]

/-- Loading a tree and loading it with all its keys in lower case leave every variable of every
registry with the same value exactly when, at each path that is a name for `Lookup`, the two have
the same texts in the order of their last places. -/
theorem caseInsensitive_iff (emit : Node → String) (y : Node) :
    CaseInsensitive emit y ↔ Meets emit y := by
  constructor
  · intro h x hne hvalid
    rw [← lastWins_iff]
    intro p
    have hval := congrFun (h (oneVar emit x p) (fun _ => none) rfl (oneVar_validName emit p hvalid)) x
    rw [← texts_lower, ← loadFromYaml_oneVar emit p y hne hvalid,
      ← loadFromYaml_oneVar emit p (lower y) hne hvalid]
    exact hval
  · intro h c vals hemit hreg
    subst hemit
    funext x
    rw [loadFromYaml_value, loadFromYaml_value, texts_lower]
    split
    · rename_i hx
      have hsame := lastWins_iff.mpr (h x hx.1 (hreg x hx.2.2)) fun s => (c.fromStr x s).isSome
      rw [getLast?_filterMap, getLast?_filterMap, hsame]
    · rfl

/-- A tree in which lower case changes neither a path that is a name for `Lookup` nor a text at
one. -/
theorem meets_of_nodes (emit : Node → String) (y : Node)
    (h : ∀ e ∈ nodes "" y, validName (e.1.map Char.toLower) = true →
      e.1.map Char.toLower = e.1 ∧ nodeText emit (lower e.2) = nodeText emit e.2) :
    Meets emit y := by
  intro x _ hvalid
  have hsame : texts emit y x = lowerTexts emit y x := by
    unfold texts lowerTexts
    have hfilter : (nodes "" y).filter (fun e => decide (e.1 = x)) =
        (nodes "" y).filter fun e => decide (e.1.map Char.toLower = x) := by
      refine List.filter_congr fun e he => ?_
      rw [decide_eq_decide]
      constructor
      · intro hx
        rw [← hx] at hvalid ⊢
        exact map_toLower _ (keyOk_of_validName hvalid)
      · intro hx
        rw [← hx] at hvalid ⊢
        exact (h e he hvalid).1.symm
    rw [hfilter]
    refine List.map_congr_left fun e he => ?_
    obtain ⟨hmem, hx⟩ := List.mem_filter.mp he
    rw [← of_decide_eq_true hx] at hvalid
    exact (h e hmem hvalid).2.symm
  rw [hsame]

/-- `Port: 1` -/
def aPort : Node := .map [(.scalar "Port", .scalar "1")]

theorem port_dropped : ¬ CaseInsensitive (fun _ => "") aPort := by
  intro h
  have hvalid : validName "port" = true := by decide
  have hval := congrFun (h (oneVar (fun _ => "") "port" fun _ => true) (fun _ => none) rfl
    (oneVar_validName _ _ hvalid)) "port"
  have hleft := loadFromYaml_oneVar (fun _ => "") (fun _ => true) aPort
    (show "port" ≠ "" by decide) hvalid
  have hright := loadFromYaml_oneVar (fun _ => "") (fun _ => true) (lower aPort)
    (show "port" ≠ "" by decide) hvalid
  have hport : "Port".map Char.toLower = "port" := by
    rw [← String.toList_inj, String.toList_map]
    decide
  have hnodes : nodes "" aPort = [("", aPort), ("Port", .scalar "1")] := rfl
  have hupper : texts (fun _ => "") aPort "port" = [] := by
    rw [texts, hnodes]
    decide
  have hlower : texts (fun _ => "") (lower aPort) "port" = ["1"] := by
    rw [texts_lower, lowerTexts, hnodes]
    simp [lower_empty, hport, lower, nodeText, Node.IsScalar, Node.Scalar]
  rw [hupper] at hleft
  rw [hlower] at hright
  cases hleft.symm.trans (hval.trans hright)

end Ppcode.Config
