import Mathlib.Logic.Basic

/-!
# YAML nodes

What `src/config` and `src/log` use of the YAML library: the tree of nodes, and
the functions that write a node to a text (`emit`) and read one (`load`, which may
throw). The library is not part of the repository: the two functions are a
parameter, with what the code relies on as fields (`Yaml`).
-/
namespace Ppcode

/-- A node; the pairs of a map are in document order. -/
inductive Node where
  | null
  | scalar (value : String)
  | seq (items : List Node)
  | map (pairs : List (Node × Node))
  deriving Repr

namespace Node

/-- `Scalar()`, which is empty for the other kinds. -/
def Scalar : Node → String
  | scalar value => value
  | _ => ""

def IsScalar : Node → Bool
  | scalar _ => true
  | _ => false

/-- `size()` -/
def size : Node → Nat
  | seq items => items.length
  | map pairs => pairs.length
  | _ => 0

/-- The pairs that a loop from `begin()` to `end()` sees; the items of a sequence have no
key, so that `it->first.Scalar()` throws. -/
def entries : Node → Option (List (Node × Node))
  | map pairs => some pairs
  | seq (_ :: _) => none
  | _ => some []

/-- `node[key] = n` of a map -/
def setKey (pairs : List (Node × Node)) (key : String) (n : Node) : List (Node × Node) :=
  if pairs.any fun e => e.1.IsScalar && e.1.Scalar == key then
    pairs.map fun e => if e.1.IsScalar && e.1.Scalar == key then (e.1, n) else e
  else pairs ++ [(.scalar key, n)]

/-- `node[key]` of a map: the first pair of that key, `none` where there is none. -/
def find (pairs : List (Node × Node)) (key : String) : Option Node :=
  (pairs.find? fun e => e.1.IsScalar && e.1.Scalar == key).map Prod.snd

end Node

/-- An optional minus sign and digits. -/
def IsDecimal (s : String) : Bool :=
  match s.toList with
  | '-' :: ds => !ds.isEmpty && ds.all Char.isDigit
  | ds => !ds.isEmpty && ds.all Char.isDigit

/-- The library. Reading what was written gives the node again; the empty text is
`Null`, which is written `~`; a decimal number is a plain scalar, which is written as
it is. Nothing is assumed of what `node[i]` finds in a map (`none`: an undefined node),
nor of what `as<std::string>` makes of `Null` (`none`: it throws). -/
structure Yaml where
  emit : Node → String
  load : String → Option Node
  mapItem : List (Node × Node) → Nat → Option Node
  nullAs : Option String
  load_emit : ∀ n, load (emit n) = some n
  load_empty : load "" = some .null
  emit_null : emit .null = "~"
  load_decimal : ∀ s, IsDecimal s = true → load s = some (.scalar s)
  emit_decimal : ∀ s, IsDecimal s = true → emit (.scalar s) = s

end Ppcode
