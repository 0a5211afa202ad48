import Mathlib.Data.Finmap
import Ppcode.Core.MapM
import Ppcode.Config.FlowYaml

/-!
# `LexicalCast` of containers

`src/config/lexical_cast.h`. A container is written by turning each element into a
text, loading that text as a document of its own and emitting the sequence or map of
the documents; it is read by loading the text and converting the text of each node.

Results:
* `roundTrips_iff`: reading what was written gives the value back exactly when each
  string in it, keys of maps apart, is the text of the document that it is loaded as.
* `empty_string_lost`: the list of one empty string is read back as `["~"]`.
-/
namespace Ppcode

/-! ## The library -/

namespace Yaml

/-- `node[i]` for an `i` below `size()` -/
def item (y : Yaml) : Node → Nat → Option Node
  | .seq items, i => items[i]?
  | .map pairs, i => y.mapItem pairs i
  | _, _ => none

/-- `ss << node[i]`: nothing is written for an undefined node. -/
def itemText (y : Yaml) (node : Node) (i : Nat) : String :=
  match y.item node i with
  | some n => y.emit n
  | none => ""

end Yaml

/-- `boost::lexical_cast` between `int` and text, which may throw. -/
structure Boost where
  toStr : Int32 → String
  toInt : String → Option Int32
  toInt_toStr : ∀ i, toInt (toStr i) = some i
  decimal_toStr : ∀ i, IsDecimal (toStr i) = true

namespace Boost

def digits (ds : List Char) : Option Int :=
  if !ds.isEmpty && ds.all Char.isDigit then some (Nat.ofDigitChars 10 ds 0 : Nat) else none

def readInt (s : String) : Option Int :=
  match s.toList with
  | '-' :: ds => (digits ds).map Neg.neg
  | ds => digits ds

theorem toDigits_digits (n : Nat) :
    (!(Nat.toDigits 10 n).isEmpty && (Nat.toDigits 10 n).all Char.isDigit) = true := by
  have hne : Nat.toDigits 10 n ≠ [] := Nat.toDigits_ne_nil
  have hall : (Nat.toDigits 10 n).all Char.isDigit = true :=
    List.all_eq_true.mpr fun c hc => Nat.isDigit_of_mem_toDigits (by decide) (by decide) hc
  simp [hne, hall]

theorem digits_toDigits (n : Nat) : digits (Nat.toDigits 10 n) = some (n : Int) := by
  rw [digits, if_pos (toDigits_digits n), Nat.ofDigitChars_ten_toDigits]

/-- The digits of a number, after a minus sign or not. -/
theorem repr_cases (i : Int) :
    (∃ n : Nat, i = n ∧ i.repr.toList = Nat.toDigits 10 n) ∨
    ∃ n : Nat, i = -(n : Int) ∧ i.repr.toList = '-' :: Nat.toDigits 10 n := by
  cases i with
  | ofNat n => exact .inl ⟨n, rfl, Nat.toList_repr⟩
  | negSucc n => exact .inr ⟨n + 1, rfl, by simp [Int.repr, Nat.toList_repr]⟩

theorem toDigits_head (n : Nat) (ds : List Char) : Nat.toDigits 10 n ≠ '-' :: ds := by
  intro h
  have hdigit : ('-').isDigit = true :=
    Nat.isDigit_of_mem_toDigits (b := 10) (n := n) (by decide) (by decide) (by simp [h])
  exact absurd hdigit (by decide)

theorem isDecimal_repr (i : Int) : IsDecimal i.repr = true := by
  rcases repr_cases i with ⟨n, -, h⟩ | ⟨n, -, h⟩
  · unfold IsDecimal
    split
    · next ds hds => exact absurd (h.symm.trans hds) (toDigits_head n ds)
    · rw [h]
      exact toDigits_digits n
  · unfold IsDecimal
    rw [h]
    exact toDigits_digits n

theorem readInt_repr (i : Int) : readInt i.repr = some i := by
  rcases repr_cases i with ⟨n, hi, h⟩ | ⟨n, hi, h⟩
  · unfold readInt
    split
    · next ds hds => exact absurd (h.symm.trans hds) (toDigits_head n ds)
    · rw [h, digits_toDigits, ← hi]
  · unfold readInt
    rw [h]
    simp only [digits_toDigits, Option.map_some]
    exact congrArg some hi.symm

/-- Decimal digits, for numbers of 32 bits. -/
def decimal : Boost where
  toStr i := i.toInt.repr
  toInt s := (readInt s).bind fun n =>
    if (Int32.ofInt n).toInt = n then some (Int32.ofInt n) else none
  toInt_toStr i := by simp [readInt_repr]
  decimal_toStr i := isDecimal_repr i.toInt

end Boost

namespace LexicalCast

/-! ## The templates

Each is given the conversion of the element type; `none` where it throws. -/

section Templates

variable {A T : Type} (y : Yaml)

/-- `std::map` and `std::unordered_map` from strings, in the order of iteration. -/
abbrev Dict (A : Type) := { l : List (String × A) // (l.map Prod.fst).Nodup }

/-- The body of the three writers of a sequence. -/
def seqToString (toStr : A → Option String) (value : List A) : Option String := do
  let items ← value.mapM fun it => do y.load (← toStr it)
  return y.emit (.seq items)

/-- The loop of the three readers of a sequence. -/
def seqFromString (fromStr : String → Option T) (value : String) : Option (List T) := do
  let node ← y.load value
  (List.range node.size).mapM fun i => fromStr (y.itemText node i)

/-- mirrors src/config/lexical_cast.h:81-90 -/
def listToString (toStr : A → Option String) (value : List A) : Option String :=
  seqToString y toStr value

/-- mirrors src/config/lexical_cast.h:63-74 -/
def listFromString (fromStr : String → Option T) (value : String) : Option (List T) :=
  seqFromString y fromStr value

/-- mirrors src/config/lexical_cast.h:113-122 -/
def setToString (toStr : A → Option String) (value : List A) : Option String :=
  seqToString y toStr value

/-- mirrors src/config/lexical_cast.h:97-107 -/
def setFromString [DecidableEq T] (fromStr : String → Option T) (value : String) :
    Option (Finset T) :=
  (seqFromString y fromStr value).map List.toFinset

/-- mirrors src/config/lexical_cast.h:129-138 -/
def unorderedSetToString (toStr : A → Option String) (value : List A) : Option String :=
  seqToString y toStr value

/-- mirrors src/config/lexical_cast.h:145-155 -/
def unorderedSetFromString [DecidableEq T] (fromStr : String → Option T) (value : String) :
    Option (Finset T) :=
  (seqFromString y fromStr value).map List.toFinset

/-- The body of the two writers of a map. -/
def dictToString (toStr : A → Option String) (value : Dict A) : Option String := do
  let pairs ← value.1.foldlM (fun pairs it => do
    return Node.setKey pairs it.1 (← y.load (← toStr it.2))) []
  return y.emit (.map pairs)

/-- The body of the two readers of a map; `insert` keeps an earlier pair of the same key, as
`toFinmap` does. -/
def dictFromString (fromStr : String → Option T) (value : String) :
    Option (Finmap fun _ : String => T) := do
  let node ← y.load value
  let pairs ← (← node.entries).mapM fun it => do
    return (⟨it.1.Scalar, ← fromStr (y.emit it.2)⟩ : (_ : String) × T)
  return pairs.toFinmap

/-- mirrors src/config/lexical_cast.h:162-172 -/
def mapToString (toStr : A → Option String) (value : Dict A) : Option String :=
  dictToString y toStr value

/-- mirrors src/config/lexical_cast.h:179-190 -/
def mapFromString (fromStr : String → Option T) (value : String) :
    Option (Finmap fun _ : String => T) :=
  dictFromString y fromStr value

/-- mirrors src/config/lexical_cast.h:197-207 -/
def unorderedMapToString (toStr : A → Option String) (value : Dict A) : Option String :=
  dictToString y toStr value

/-- mirrors src/config/lexical_cast.h:213-224 -/
def unorderedMapFromString (fromStr : String → Option T) (value : String) :
    Option (Finmap fun _ : String => T) :=
  dictFromString y fromStr value

end Templates

/-! ## The types -/

/-- The leaf types, which are the hashable ones. -/
inductive Leaf where
  | int
  | string

inductive Ty where
  | leaf (l : Leaf)
  | list (t : Ty)
  | set (t : Ty)
  | unordered_set (l : Leaf)
  | map (t : Ty)
  | unordered_map (t : Ty)

@[reducible] def Leaf.T : Leaf → Type
  | int => Int32
  | string => String

namespace Ty

/-- The values, up to `==`. -/
@[reducible] def T : Ty → Type
  | leaf l => l.T
  | list t => List t.T
  | set t => Finset t.T
  | unordered_set l => Finset l.T
  | map t | unordered_map t => Finmap fun _ : String => t.T

/-- The values as they lie in memory, each container in its order of iteration. -/
@[reducible] def Mem : Ty → Type
  | leaf l => l.T
  | list t | set t => List t.Mem
  | unordered_set l => List l.T
  | map t | unordered_map t => Dict t.Mem

end Ty

instance (l : Leaf) : DecidableEq l.T :=
  match l with
  | .int => inferInstanceAs (DecidableEq Int32)
  | .string => inferInstanceAs (DecidableEq String)

instance Ty.decEq : (t : Ty) → DecidableEq t.T
  | .leaf l => inferInstanceAs (DecidableEq l.T)
  | .list t => haveI := decEq t; inferInstanceAs (DecidableEq (List t.T))
  | .set t => haveI := decEq t; inferInstanceAs (DecidableEq (Finset t.T))
  | .unordered_set l => inferInstanceAs (DecidableEq (Finset l.T))
  | .map t | .unordered_map t =>
    haveI := decEq t; inferInstanceAs (DecidableEq (Finmap fun _ : String => t.T))

/-- The value that lies in memory. -/
def val : (t : Ty) → t.Mem → t.T
  | .leaf _, v => v
  | .list t, v => v.map (val t)
  | .set t, v => (v.map (val t)).toFinset
  | .unordered_set _, v => v.toFinset
  | .map t, v | .unordered_map t, v =>
    (v.1.map fun e => (⟨e.1, val t e.2⟩ : (_ : String) × t.T)).toFinmap

/-- `boost::lexical_cast<std::string>`, of a string the identity.
mirrors src/config/lexical_cast.h:19-22 -/
def leafToString (b : Boost) : (l : Leaf) → l.T → Option String
  | .int, i => some (b.toStr i)
  | .string, s => some s

def leafFromString (b : Boost) : (l : Leaf) → String → Option l.T
  | .int, s => b.toInt s
  | .string, s => some s

/-- `LexicalCast<T, std::string>` -/
def toStr (y : Yaml) (b : Boost) : (t : Ty) → t.Mem → Option String
  | .leaf l => leafToString b l
  | .list t => listToString y (toStr y b t)
  | .set t => setToString y (toStr y b t)
  | .unordered_set l => unorderedSetToString y (leafToString b l)
  | .map t => mapToString y (toStr y b t)
  | .unordered_map t => unorderedMapToString y (toStr y b t)

/-- `LexicalCast<std::string, T>` -/
def fromStr (y : Yaml) (b : Boost) : (t : Ty) → String → Option t.T
  | .leaf l => leafFromString b l
  | .list t => listFromString y (fromStr y b t)
  | .set t => setFromString y (fromStr y b t)
  | .unordered_set l => unorderedSetFromString y (leafFromString b l)
  | .map t => mapFromString y (fromStr y b t)
  | .unordered_map t => unorderedMapFromString y (fromStr y b t)

/-- Neither conversion throws, and the value that is read is equal to the one written. -/
def RoundTrips (y : Yaml) (b : Boost) (t : Ty) (v : t.Mem) : Prop :=
  ∃ s, toStr y b t v = some s ∧ fromStr y b t s = some (val t v)

/-- A text that is written as it was, once it has been loaded as a document. -/
def StableText (y : Yaml) (s : String) : Prop := ∃ n, y.load s = some n ∧ y.emit n = s

def StableLeaf (y : Yaml) : (l : Leaf) → l.T → Prop
  | .int, _ => True
  | .string, s => StableText y s

/-- Each string in the value is stable; the keys of maps are not asked about. -/
def Stable (y : Yaml) : (t : Ty) → t.T → Prop
  | .leaf l, v => StableLeaf y l v
  | .list t, v => ∀ x ∈ v, Stable y t x
  | .set t, v => ∀ x ∈ v, Stable y t x
  | .unordered_set l, v => ∀ x ∈ v, StableLeaf y l x
  | .map t, v | .unordered_map t, v => ∀ k x, v.lookup k = some x → Stable y t x

/-! ## One element -/

/-- What becomes of an element: its text is loaded, and the text of that document read. -/
def through {A T : Type} (y : Yaml) (toS : A → Option String) (fromS : String → Option T)
    (x : A) : Option T :=
  (toS x).bind fun s => (y.load s).bind fun n => fromS (y.emit n)

/-- A text that a container is written as is stable. -/
theorem stable_emit (y : Yaml) (n : Node) : StableText y (y.emit n) := ⟨n, y.load_emit n, rfl⟩

theorem through_of_stable {A T : Type} {y : Yaml} {toS : A → Option String}
    {fromS : String → Option T} {x : A} (h : ∀ s, toS x = some s → StableText y s) :
    through y toS fromS x = (toS x).bind fromS := by
  unfold through
  cases hx : toS x with
  | none => rfl
  | some s =>
    obtain ⟨n, hload, hemit⟩ := h s hx
    simp [hload, hemit]

section Sequences

variable {A T : Type} (y : Yaml) (toS : A → Option String) (fromS : String → Option T)

theorem seqToString_eq (value : List A) :
    seqToString y toS value =
      (value.mapM fun it => (toS it).bind y.load).map fun items => y.emit (.seq items) := by
  unfold seqToString
  cases value.mapM fun it => (toS it).bind y.load with
  | none => rfl
  | some items => rfl

theorem seqToString_stable (value : List A) (s : String) (h : seqToString y toS value = some s) :
    StableText y s := by
  rw [seqToString_eq] at h
  obtain ⟨items, -, rfl⟩ := Option.map_eq_some_iff.mp h
  exact stable_emit y _

theorem seqFromString_emit (items : List Node) :
    seqFromString y fromS (y.emit (.seq items)) = items.mapM fun n => fromS (y.emit n) := by
  have htexts : (List.range items.length).map (y.itemText (.seq items)) = items.map y.emit := by
    apply List.ext_getElem
    · simp
    · intro i h1 h2
      have hi : i < items.length := by simpa using h2
      simp [Yaml.itemText, Yaml.item, hi]
  have hread : seqFromString y fromS (y.emit (.seq items)) =
      (List.range items.length).mapM (fromS ∘ y.itemText (.seq items)) := by
    unfold seqFromString
    rw [y.load_emit]
    rfl
  rw [hread, ← List.mapM_map, htexts, List.mapM_map]
  rfl

/-- A sequence that is written and read again is what becomes of its elements. -/
theorem seq_through (value : List A) :
    (seqToString y toS value).bind (seqFromString y fromS) = value.mapM (through y toS fromS) := by
  have hread : ∀ items : Option (List Node),
      (items.map fun items => y.emit (.seq items)).bind (seqFromString y fromS) =
        items.bind fun items => items.mapM fun n => fromS (y.emit n) := by
    intro items
    cases items with
    | none => rfl
    | some items => exact seqFromString_emit y fromS items
  rw [seqToString_eq, hread, mapM_mapM]
  congr 1
  funext x
  unfold through
  cases toS x <;> rfl

end Sequences

/-! ## One map -/

theorem setKey_new (pairs : List (Node × Node)) (key : String) (n : Node)
    (h : ∀ e ∈ pairs, e.1.Scalar ≠ key) : Node.setKey pairs key n = pairs ++ [(.scalar key, n)] := by
  unfold Node.setKey
  rw [if_neg]
  intro hany
  obtain ⟨e, he, heq⟩ := List.any_eq_true.mp hany
  have hkey := h e he
  simp_all

section Maps

variable {A T : Type} (y : Yaml) (toS : A → Option String) (fromS : String → Option T)

/-- The keys of a `std::map` are distinct: each pair is a new one. -/
theorem foldlM_setKey (l : List (String × A)) (pairs : List (Node × Node))
    (h : (l.map Prod.fst).Nodup) (hnew : ∀ e ∈ pairs, e.1.Scalar ∉ l.map Prod.fst) :
    (l.foldlM (fun pairs it => do
      return Node.setKey pairs it.1 (← y.load (← toS it.2))) pairs) =
    (l.mapM fun it => (toS it.2).bind fun s => (y.load s).map fun n => (Node.scalar it.1, n)).map
      fun es => pairs ++ es := by
  induction l generalizing pairs with
  | nil => simp
  | cons it l ih =>
    rw [List.map_cons, List.nodup_cons] at h
    rw [List.foldlM_cons, List.mapM_cons]
    cases hs : toS it.2 with
    | none => rfl
    | some s =>
      cases hn : y.load s with
      | none => simp [hn]
      | some n =>
        have hset : Node.setKey pairs it.1 n = pairs ++ [(.scalar it.1, n)] := by
          apply setKey_new
          intro e he heq
          exact hnew e he (by simp [heq])
        have hrest : ∀ e ∈ pairs ++ [(Node.scalar it.1, n)], e.1.Scalar ∉ l.map Prod.fst := by
          intro e he
          rcases List.mem_append.mp he with he | he
          · exact fun hmem => hnew e he (by simp [hmem])
          · rw [List.mem_singleton.mp he]
            exact h.1
        have hih := ih (pairs ++ [(.scalar it.1, n)]) h.2 hrest
        simp only [Option.bind_eq_bind, Option.bind_some, hn, Option.pure_def, hset] at hih ⊢
        rw [hih]
        cases l.mapM fun it => (toS it.2).bind fun s => (y.load s).map fun n => (Node.scalar it.1, n) <;>
          simp

theorem dictToString_eq (value : Dict A) :
    dictToString y toS value =
      (value.1.mapM fun it => (toS it.2).bind fun s =>
        (y.load s).map fun n => (Node.scalar it.1, n)).map fun pairs => y.emit (.map pairs) := by
  unfold dictToString
  rw [foldlM_setKey y toS value.1 [] value.2 (by simp)]
  simp only [List.nil_append, Option.map_id']
  cases value.1.mapM fun it => (toS it.2).bind fun s => (y.load s).map fun n => (Node.scalar it.1, n) <;>
    rfl

theorem dictToString_stable (value : Dict A) (s : String) (h : dictToString y toS value = some s) :
    StableText y s := by
  rw [dictToString_eq] at h
  obtain ⟨pairs, -, rfl⟩ := Option.map_eq_some_iff.mp h
  exact stable_emit y _

theorem dictFromString_emit (pairs : List (Node × Node)) :
    dictFromString y fromS (y.emit (.map pairs)) =
      (pairs.mapM fun e => (fromS (y.emit e.2)).map fun x =>
        (⟨e.1.Scalar, x⟩ : (_ : String) × T)).map List.toFinmap := by
  unfold dictFromString
  rw [y.load_emit]
  simp only [Node.entries, Option.bind_eq_bind, Option.bind_some, Option.pure_def,
    Option.map_eq_bind]
  rfl

/-- A map that is written and read again has its keys and what becomes of its elements. -/
theorem dict_through (value : Dict A) :
    (dictToString y toS value).bind (dictFromString y fromS) =
      (value.1.mapM fun it => (through y toS fromS it.2).map fun x =>
        (⟨it.1, x⟩ : (_ : String) × T)).map List.toFinmap := by
  have hread : ∀ pairs : Option (List (Node × Node)),
      (pairs.map fun pairs => y.emit (.map pairs)).bind (dictFromString y fromS) =
        (pairs.bind fun pairs => pairs.mapM fun e => (fromS (y.emit e.2)).map fun x =>
          (⟨e.1.Scalar, x⟩ : (_ : String) × T)).map List.toFinmap := by
    intro pairs
    cases pairs with
    | none => rfl
    | some pairs => exact dictFromString_emit y fromS pairs
  rw [dictToString_eq, hread, mapM_mapM]
  congr 2
  funext it
  unfold through
  cases toS it.2 with
  | none => rfl
  | some s => cases hn : y.load s <;> simp [hn, Node.Scalar]

end Maps

/-! ## Elements of each type -/

section Types

variable (y : Yaml) (b : Boost)

/-- What becomes of an element of type `t`. -/
abbrev throughTy (t : Ty) : t.Mem → Option t.T := through y (toStr y b t) (fromStr y b t)

theorem through_seq {A T : Type} (toS : A → Option String) (fromS : String → Option T)
    (v : List A) :
    through y (seqToString y toS) (seqFromString y fromS) v = v.mapM (through y toS fromS) := by
  rw [through_of_stable (seqToString_stable y toS v), seq_through]

theorem through_set {A T : Type} [DecidableEq T] (toS : A → Option String)
    (fromS : String → Option T) (v : List A) :
    through y (seqToString y toS) (fun s => (seqFromString y fromS s).map List.toFinset) v =
      (v.mapM (through y toS fromS)).map List.toFinset := by
  rw [through_of_stable (seqToString_stable y toS v), ← seq_through]
  cases seqToString y toS v <;> rfl

theorem through_dict {A T : Type} (toS : A → Option String) (fromS : String → Option T)
    (v : Dict A) :
    through y (dictToString y toS) (dictFromString y fromS) v =
      (v.1.mapM fun it => (through y toS fromS it.2).map fun x =>
        (⟨it.1, x⟩ : (_ : String) × T)).map List.toFinmap := by
  rw [through_of_stable (dictToString_stable y toS v), dict_through]

theorem throughLeaf_stable (l : Leaf) (v w : l.T)
    (h : through y (leafToString b l) (leafFromString b l) v = some w) : StableLeaf y l w := by
  cases l with
  | int => trivial
  | string =>
    simp only [through, leafToString, leafFromString, Option.bind_some] at h
    obtain ⟨n, -, hn⟩ := Option.bind_eq_some_iff.mp h
    rw [← Option.some.inj hn]
    exact stable_emit y n

theorem throughLeaf_val (l : Leaf) (v : l.T) (h : StableLeaf y l v) :
    through y (leafToString b l) (leafFromString b l) v = some v := by
  cases l with
  | int =>
    have hdec := b.decimal_toStr v
    simp [through, leafToString, leafFromString, y.load_decimal _ hdec, y.emit_decimal _ hdec,
      b.toInt_toStr]
  | string =>
    obtain ⟨n, hload, hemit⟩ := h
    simp [through, leafToString, leafFromString, hload, hemit]

/-- The elements that come out of a sequence are those that come out of its elements. -/
theorem seq_stable {A T : Type} {toS : A → Option String} {fromS : String → Option T}
    {P : T → Prop} (h : ∀ v w, through y toS fromS v = some w → P w) {v : List A} {ws : List T}
    (hv : v.mapM (through y toS fromS) = some ws) : ∀ w ∈ ws, P w := by
  intro w hw
  obtain ⟨x, -, hx⟩ := mapM_mem hv w hw
  exact h x w hx

theorem dict_stable {A T : Type} {toS : A → Option String} {fromS : String → Option T}
    {P : T → Prop} (h : ∀ v w, through y toS fromS v = some w → P w) {v : Dict A}
    {m : Finmap fun _ : String => T}
    (hv : through y (dictToString y toS) (dictFromString y fromS) v = some m) :
    ∀ k x, m.lookup k = some x → P x := by
  rw [through_dict] at hv
  obtain ⟨es, hes, rfl⟩ := Option.map_eq_some_iff.mp hv
  intro k x hx
  rw [Finmap.dlookup_list_toFinmap] at hx
  obtain ⟨it, -, hit⟩ := mapM_mem hes _ (List.of_mem_dlookup hx)
  obtain ⟨w, hw, heq⟩ := Option.map_eq_some_iff.mp hit
  cases heq
  exact h it.2 _ hw

/-- The keys of a `std::map` are distinct: each of its pairs is found. -/
theorem lookup_val {t : Ty} (v : Dict t.Mem) {it : String × t.Mem} (h : it ∈ v.1) :
    (val (.map t) v).lookup it.1 = some (val t it.2) := by
  have hkeys : (v.1.map fun e => (⟨e.1, val t e.2⟩ : (_ : String) × t.T)).NodupKeys := by
    rw [List.NodupKeys, List.keys, List.map_map]
    exact v.2
  rw [val, Finmap.dlookup_list_toFinmap]
  exact List.mem_dlookup hkeys (List.mem_map.mpr ⟨it, h, rfl⟩)

/-- What comes out is stable. -/
theorem through_stable (t : Ty) (v : t.Mem) (w : t.T) (h : throughTy y b t v = some w) :
    Stable y t w := by
  induction t with
  | leaf l => exact throughLeaf_stable y b l v w h
  | list t ih => exact seq_stable y ih ((through_seq y _ _ v).symm.trans h)
  | set t ih =>
    obtain ⟨ws, hws, rfl⟩ := Option.map_eq_some_iff.mp ((through_set y _ _ v).symm.trans h)
    intro x hx
    exact seq_stable y ih hws x (List.mem_toFinset.mp hx)
  | unordered_set l =>
    obtain ⟨ws, hws, rfl⟩ := Option.map_eq_some_iff.mp ((through_set y _ _ v).symm.trans h)
    intro x hx
    exact seq_stable y (throughLeaf_stable y b l) hws x (List.mem_toFinset.mp hx)
  | map t ih => exact dict_stable y ih h
  | unordered_map t ih => exact dict_stable y ih h

/-- A string that is stable comes out as it was, and so does what is built of such. -/
theorem through_val (t : Ty) (v : t.Mem) (h : Stable y t (val t v)) :
    throughTy y b t v = some (val t v) := by
  induction t with
  | leaf l => exact throughLeaf_val y b l v h
  | list t ih =>
    refine (through_seq y _ _ v).trans (mapM_of_forall ?_)
    intro x hx
    exact ih x (h _ (List.mem_map_of_mem hx))
  | set t ih =>
    have hall : v.mapM (throughTy y b t) = some (v.map (val t)) := by
      apply mapM_of_forall
      intro x hx
      exact ih x (h _ (List.mem_toFinset.mpr (List.mem_map_of_mem hx)))
    exact (through_set y _ _ v).trans (by rw [hall]; rfl)
  | unordered_set l =>
    have hall : v.mapM (through y (leafToString b l) (leafFromString b l)) = some (v.map id) := by
      apply mapM_of_forall
      intro x hx
      exact throughLeaf_val y b l x (h x (List.mem_toFinset.mpr hx))
    exact (through_set y _ _ v).trans (by rw [hall, List.map_id]; rfl)
  | map t ih | unordered_map t ih =>
    have hall : (v.1.mapM fun it => (throughTy y b t it.2).map fun x =>
        (⟨it.1, x⟩ : (_ : String) × t.T)) =
          some (v.1.map fun it => (⟨it.1, val t it.2⟩ : (_ : String) × t.T)) := by
      apply mapM_of_forall
      intro it hit
      rw [ih it.2 (h it.1 _ (lookup_val v hit))]
      rfl
    exact (through_dict y _ _ v).trans (by rw [hall]; rfl)

theorem toStr_stable (t : Ty) (ht : ∀ l, t ≠ .leaf l) (v : t.Mem) (s : String)
    (h : toStr y b t v = some s) : StableText y s := by
  cases t with
  | leaf l => exact absurd rfl (ht l)
  | list t | set t | unordered_set l => exact seqToString_stable y _ v s h
  | map t | unordered_map t => exact dictToString_stable y _ v s h

/-- The conversions give the value back in exactly two cases: they are not those of a
container, or each string in the container is one that YAML reads as itself. -/
theorem roundTrips_iff (t : Ty) (v : t.Mem) :
    RoundTrips y b t v ↔ (∃ l, t = .leaf l) ∨ Stable y t (val t v) := by
  by_cases ht : ∃ l, t = .leaf l
  · refine ⟨fun _ => .inl ht, fun _ => ?_⟩
    obtain ⟨l, rfl⟩ := ht
    cases l with
    | int => exact ⟨b.toStr v, rfl, b.toInt_toStr v⟩
    | string => exact ⟨v, rfl, rfl⟩
  · have hthrough : throughTy y b t v = (toStr y b t v).bind (fromStr y b t) := by
      apply through_of_stable
      intro s hs
      exact toStr_stable y b t (fun l hl => ht ⟨l, hl⟩) v s hs
    have hround : RoundTrips y b t v ↔ throughTy y b t v = some (val t v) := by
      rw [hthrough, Option.bind_eq_some_iff]
      rfl
    rw [hround]
    constructor
    · intro h
      exact .inr (through_stable y b t v _ h)
    · intro h
      rcases h with h | h
      · exact absurd h ht
      · exact through_val y b t v h

end Types

/-- The empty string is loaded as `Null`, which is written `~`. -/
theorem empty_string_lost : ¬ RoundTrips flowYaml Boost.decimal (.list (.leaf .string)) [""] := by
  intro h
  obtain ⟨s, hs, hr⟩ := h
  have hwrite : toStr flowYaml Boost.decimal (.list (.leaf .string)) [""] =
      some (flowYaml.emit (.seq [.null])) := by
    simp [toStr, listToString, seqToString, leafToString, flowYaml.load_empty]
  have hread : fromStr flowYaml Boost.decimal (.list (.leaf .string))
      (flowYaml.emit (.seq [.null])) = some ["~"] := by
    refine (seqFromString_emit flowYaml (leafFromString Boost.decimal .string) _).trans ?_
    simp [leafFromString, flowYaml.emit_null]
  rw [hwrite] at hs
  rw [← Option.some.inj hs, hread] at hr
  exact absurd (Option.some.inj hr) (by decide)

end LexicalCast
end Ppcode
