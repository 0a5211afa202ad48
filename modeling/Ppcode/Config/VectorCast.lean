import Ppcode.Config.LexicalCast

/-!
# The reader of vectors

`src/config/lexical_cast.h` has a reader for `std::vector` and one for `std::list`. Both
load the text and loop over the indices of the document; where that of lists gives the
text of the item to the conversion of the elements, that of vectors gives it the text of the
whole document, once for each item.

* `vectors_iff`: the two readers agree when the document has no items, or each of its
  items is read as the document itself is.
* `vector_int_unread`: a vector of two numbers that is not read back.
-/
namespace Ppcode.LexicalCast

section Vectors
variable {A T : Type} (y : Yaml) (b : Boost)

/-- mirrors src/config/lexical_cast.h:45-56 -/
def vectorToString (toStr : A → Option String) (value : List A) : Option String :=
  seqToString y toStr value

/-- mirrors src/config/lexical_cast.h:28-39 -/
def vectorFromString (fromStr : String → Option T) (value : String) : Option (List T) := do
  let node ← y.load value
  (List.range node.size).mapM fun _ => fromStr (y.emit node)

/-- The document has no items; or it has one that is not read, and is not read itself; or
all its items are read as it is. -/
def Alike (fromStr : String → Option T) (node : Node) : Prop :=
  node.size = 0 ∨
  (fromStr (y.emit node) = none ∧ ∃ i < node.size, fromStr (y.itemText node i) = none) ∨
  ∃ x, fromStr (y.emit node) = some x ∧ ∀ i < node.size, fromStr (y.itemText node i) = some x

/-- The text of a vector of numbers. -/
def intsText (v : List Int32) : String := y.emit (.seq (v.map fun i => .scalar (b.toStr i)))

variable {y b}

theorem vectorFromString_load {fromStr : String → Option T} {s : String} {node : Node}
    (h : y.load s = some node) :
    vectorFromString y fromStr s =
      (List.range node.size).mapM fun _ => fromStr (y.emit node) := by
  rw [vectorFromString, h]
  rfl

theorem listFromString_load {fromStr : String → Option T} {s : String} {node : Node}
    (h : y.load s = some node) :
    listFromString y fromStr s =
      (List.range node.size).mapM fun i => fromStr (y.itemText node i) := by
  rw [listFromString, seqFromString, h]
  rfl

/-- One conversion for all items. -/
theorem mapM_range_const (n : Nat) (o : Option T) (hn : n ≠ 0) :
    ((List.range n).mapM fun _ => o) = o.map (List.replicate n) := by
  cases o with
  | none => exact mapM_eq_none.mpr ⟨0, List.mem_range.mpr (Nat.pos_of_ne_zero hn), rfl⟩
  | some x =>
    have hall := mapM_eq_replicate (f := fun _ : Nat => some x) (l := List.range n).mpr
      fun _ _ => rfl
    rwa [List.length_range] at hall

theorem readers_agree (fromStr : String → Option T) {s : String} {node : Node}
    (h : y.load s = some node) :
    vectorFromString y fromStr s = listFromString y fromStr s ↔ Alike y fromStr node := by
  rw [vectorFromString_load h, listFromString_load h, Alike]
  by_cases hsize : node.size = 0
  · simp [hsize]
  · rw [mapM_range_const _ _ hsize]
    have hlist : ∀ x, (List.range node.size).mapM (fun i => fromStr (y.itemText node i)) =
        some (List.replicate node.size x) ↔
          ∀ i < node.size, fromStr (y.itemText node i) = some x := by
      intro x
      have hall := mapM_eq_replicate (f := fun i => fromStr (y.itemText node i))
        (l := List.range node.size) (w := x)
      rw [List.length_range] at hall
      simpa only [List.mem_range] using hall
    cases hdoc : fromStr (y.emit node) with
    | none =>
      have hnone := mapM_eq_none (f := fun i => fromStr (y.itemText node i))
        (l := List.range node.size)
      simp only [List.mem_range] at hnone
      rw [Option.map_none, eq_comm (a := none), hnone]
      simp [hsize]
    | some x =>
      rw [Option.map_some, eq_comm (a := some _), hlist]
      simp [hsize]

/-- The numbers are written as decimals, which YAML reads and writes as they are. -/
theorem vectorToString_ints (v : List Int32) :
    vectorToString y (leafToString b .int) v = some (intsText y b v) := by
  have hitems : (v.mapM fun i => (leafToString b .int i).bind y.load) =
      some (v.map fun i => .scalar (b.toStr i)) :=
    mapM_of_forall fun i _ => y.load_decimal _ (b.decimal_toStr i)
  rw [vectorToString, seqToString_eq, hitems]
  rfl

theorem vectorFromString_ints (v : List Int32) :
    vectorFromString y (leafFromString b .int) (intsText y b v) = some v ↔
      v = [] ∨ ∀ i ∈ v, b.toInt (intsText y b v) = some i := by
  have hload : y.load (intsText y b v) = some (.seq (v.map fun i => .scalar (b.toStr i))) :=
    y.load_emit _
  rw [vectorFromString_load hload, Node.size, List.length_map]
  show ((List.range v.length).mapM fun _ => b.toInt (intsText y b v)) = some v ↔ _
  by_cases hv : v = []
  · simp [hv]
  · have hlen : v.length ≠ 0 := fun h => hv (List.eq_nil_of_length_eq_zero h)
    have hsame (x : Int32) : List.replicate v.length x = v ↔ ∀ i ∈ v, x = i := by
      rw [eq_comm, List.eq_replicate_iff]
      simp [eq_comm]
    rw [mapM_range_const _ _ hlen, or_iff_right hv]
    obtain ⟨j, hj⟩ := List.exists_mem_of_ne_nil v hv
    cases b.toInt (intsText y b v) with
    | none => exact iff_of_false nofun fun hall => nomatch hall j hj
    | some x => simp only [Option.map_some, Option.some.injEq, hsame]

/-- For elements of every type and for every text, a vector and a list are read alike
exactly when the text is not loaded or its document is as `Alike` says; and a vector of numbers
is read back exactly when it is empty or each number in it is what the conversion of
numbers makes of the text of all of them. -/
theorem vectors_iff (y : Yaml) (b : Boost) :
    (∀ (T : Type) (fromStr : String → Option T) (s : String),
      vectorFromString y fromStr s = listFromString y fromStr s ↔
        ∀ node, y.load s = some node → Alike y fromStr node) ∧
    ∀ v : List Int32,
      (vectorToString y (leafToString b .int) v).bind (vectorFromString y (leafFromString b .int)) =
        some v ↔ v = [] ∨ ∀ i ∈ v, b.toInt (intsText y b v) = some i := by
  constructor
  · intro T fromStr s
    cases hload : y.load s with
    | none => simp [vectorFromString, listFromString, seqFromString, hload]
    | some node =>
      rw [readers_agree fromStr hload]
      simp
  · intro v
    rw [vectorToString_ints]
    exact vectorFromString_ints v

end Vectors

/-- The numbers 1 and 2: the list is read back, the vector is not. -/
theorem vector_int_unread :
    (vectorToString flowYaml (leafToString .decimal .int) [1, 2]).bind
      (vectorFromString flowYaml (leafFromString .decimal .int)) = none ∧
    (vectorToString flowYaml (leafToString .decimal .int) [1, 2]).bind
      (listFromString flowYaml (leafFromString .decimal .int)) = some [1, 2] := by
  have hload : flowYaml.load (intsText flowYaml .decimal [1, 2]) =
      some (.seq [.scalar "1", .scalar "2"]) := flowYaml.load_emit _
  rw [vectorToString_ints, Option.bind_some, Option.bind_some, vectorFromString_load hload,
    listFromString_load hload]
  exact ⟨by decide, by decide⟩

end Ppcode.LexicalCast
