import Mathlib.Algebra.Group.Nat.Defs
import Mathlib.Data.Sigma.Basic
import Ppcode.Core.OrderedSet
import Ppcode.Config.KeyCase
import Ppcode.Config.LexicalCast

/-!
# What a program does to its configuration

`src/config/config.h` and `src/config/configVar.h`. A program looks variables up, which registers
those that are new, writes them itself or from a YAML tree, and attaches listeners to them and
takes them off. Every operation is one step here (`ConfigVar` and `Listeners` have the threads).
A listener may throw, and then `setValue` tells no other and stores nothing; listeners do not call
back.

A history is the list of the operations of a program from its start.

* `setValue_thrown`: a write at which a listener throws leaves all variables as they are.
* `Wrote`: where no listener throws, what an operation does to one variable and its listeners is a
  list of writes.
* `registry_law`: which variables there are after a history in which no listener has thrown, and
  what they hold. The type, the default and the description are those of the first `Lookup`, and the
  value is the last one written since; what a tree says of a name before its first `Lookup` is lost.
-/
namespace Ppcode.Config

/-- The types of configuration values and their conversions `FromStr`, `none` where they throw;
`emit` writes a node that is no scalar. -/
structure Types where
  Ty : Type
  El : Ty → Type
  fromStr : ∀ τ, String → Option (El τ)
  emit : Node → String

/-- A value with its type. -/
abbrev Value (c : Types) := (τ : c.Ty) × c.El τ

/-- The keys of a `std::map<uint64_t, on_change_cb>`. -/
structure Keys where
  keys : List Nat
  sorted : OrderedSet.Sorted id keys

namespace Keys

def lt (a b : Nat) : Bool := decide (a < b)

theorem keyOrder : OrderedSet.KeyOrder lt id := ⟨fun _ _ h => h, fun _ _ => decide_eq_true_iff⟩

def empty : Keys := ⟨[], .nil⟩

/-- `m_cbs[key] = cb` -/
def insert (m_cbs : Keys) (key : Nat) : Keys :=
  ⟨OrderedSet.insert lt key m_cbs.keys, m_cbs.sorted.insert keyOrder⟩

def erase (m_cbs : Keys) (key : Nat) : Keys :=
  ⟨OrderedSet.erase lt key m_cbs.keys, m_cbs.sorted.sublist OrderedSet.erase_sublist⟩

theorem mem_insert {m_cbs : Keys} {key k : Nat} :
    k ∈ (m_cbs.insert key).keys ↔ k = key ∨ k ∈ m_cbs.keys :=
  OrderedSet.mem_insert keyOrder

theorem mem_erase {m_cbs : Keys} {key k : Nat} :
    k ∈ (m_cbs.erase key).keys ↔ k ∈ m_cbs.keys ∧ k ≠ key :=
  OrderedSet.mem_erase keyOrder m_cbs.sorted

/-- A loop over the map comes to each key once. -/
theorem filter_eq (m_cbs : Keys) (key : Nat) :
    m_cbs.keys.filter (fun k => decide (k = key)) = if key ∈ m_cbs.keys then [key] else [] := by
  rw [List.filter_eq]
  split
  · rename_i hmem
    rw [List.count_eq_one_of_mem m_cbs.sorted.nodup hmem]
    rfl
  · rename_i hmem
    rw [List.count_eq_zero_of_not_mem hmem]
    rfl

end Keys

/-- What is thrown: something that `catch (std::exception&)` takes, or something else. -/
inductive Thrown where
  | exception
  | other
deriving DecidableEq

/-- What a listener throws when it is told of a change, if it does.
mirrors src/config/configVar.h:33-34 -/
abbrev on_change_cb (c : Types) := Value c → Value c → Option Thrown

/-- `m_cbs` has the keys of the listeners, and `cb` is the listener of each.
mirrors src/config/configVar.h:140-143, configVarBase.h:51-55 -/
structure Var (c : Types) where
  m_val : Value c
  m_description : String
  m_cbs : Keys
  cb : Nat → on_change_cb c

/-- A call of a listener. -/
structure Told (c : Types) where
  name : String
  key : Nat
  old_value : Value c
  new_value : Value c
  thrown : Option Thrown

/-- `s_fun_id`: one for all variables of a type. `told`: the calls of the listeners so far.
mirrors src/config/config.h:101-104, configVar.h:113 -/
structure Program (c : Types) where
  s_data : String → Option (Var c)
  s_fun_id : c.Ty → Nat
  told : List (Told c)

namespace Program
variable {c : Types}

def empty : Program c := ⟨fun _ => none, fun _ => 0, []⟩

/-- The result: `true` for the variable of that name, `false` for `nullptr`.
mirrors src/config/config.h:25-57 -/
def Lookup [DecidableEq c.Ty] (s : Program c) (name : String) (default_value : Value c)
    (description : String) : Except String Bool × Program c :=
  match s.s_data name with
  | some var => (.ok (decide (var.m_val.1 = default_value.1)), s)
  | none =>
    if validName name then
      (.ok true, { s with
        s_data := Function.update s.s_data name
          (some ⟨default_value, description, .empty, fun _ _ _ => none⟩) })
    else (.error name, s)

/-- The result is the key.
mirrors src/config/configVar.h:112-119 -/
def addListener [DecidableEq c.Ty] (s : Program c) (name : String) (cb : on_change_cb c) :
    Option (Nat × Program c) :=
  (s.s_data name).map fun var =>
    let s_fun_id := (s.s_fun_id var.m_val.1 + 1) % 2 ^ 64
    (s_fun_id, { s with
      s_data := Function.update s.s_data name (some { var with
        m_cbs := var.m_cbs.insert s_fun_id
        cb := Function.update var.cb s_fun_id cb })
      s_fun_id := Function.update s.s_fun_id var.m_val.1 s_fun_id })

/-- mirrors src/config/configVar.h:122-125 -/
def delListener (s : Program c) (name : String) (key : Nat) : Program c :=
  match s.s_data name with
  | none => s
  | some var => { s with
    s_data := Function.update s.s_data name (some { var with m_cbs := var.m_cbs.erase key }) }

/-- mirrors src/config/configVar.h:135-138 -/
def clearListener (s : Program c) (name : String) : Program c :=
  match s.s_data name with
  | none => s
  | some var => { s with
    s_data := Function.update s.s_data name (some { var with m_cbs := .empty }) }

/-- What the listener `key` of the variable `x` has been told. -/
def toldTo (s : Program c) (x : String) (key : Nat) : List (Value c × Value c) :=
  (s.told.filter fun e => decide (e.name = x) && decide (e.key = key)).map
    fun e => (e.old_value, e.new_value)

/-- The listeners of one variable are all told. -/
theorem toldTo_append (s : Program c) (x name : String) (key : Nat) (m_cbs : Keys)
    (old_value new_value : Value c) (s_data : String → Option (Var c)) :
    toldTo { s with
      s_data := s_data
      told := s.told ++ m_cbs.keys.map fun key => ⟨name, key, old_value, new_value, none⟩ } x key =
    s.toldTo x key ++ if name = x ∧ key ∈ m_cbs.keys then [(old_value, new_value)] else [] := by
  have hkeys := m_cbs.filter_eq key
  simp only [toldTo, List.filter_append, List.map_append, List.filter_map, List.map_map]
  congr 1
  by_cases hname : name = x
  · simp only [hname, true_and, Function.comp_def, decide_true, Bool.true_and, hkeys]
    split <;> rfl
  · simp [hname, Function.comp_def]

/-- `τ` is the type of the variable `x`, if there is one. -/
def HasType (s : Program c) (x : String) (τ : c.Ty) : Prop :=
  ∀ var, s.s_data x = some var → var.m_val.1 = τ

/-- The value and the description of a variable. -/
def held (s : Program c) (x : String) : Option (Value c × String) :=
  (s.s_data x).map fun var => (var.m_val, var.m_description)

theorem hasType_of_held {s : Program c} {x : String} {v : Value c} {d : String}
    (h : s.held x = some (v, d)) : s.HasType x v.1 := by
  intro var hvar
  rw [held, hvar] at h
  cases h
  rfl

/-- Other listeners. -/
theorem held_update {s s' : Program c} {name : String} {var : Var c} {m_cbs : Keys}
    {cb : Nat → on_change_cb c} (hvar : s.s_data name = some var)
    (h : s'.s_data = Function.update s.s_data name (some { var with m_cbs := m_cbs, cb := cb }))
    (x : String) : s'.held x = s.held x := by
  rw [held, held, h]
  by_cases hname : x = name
  · subst hname
    rw [Function.update_self, hvar]
    rfl
  · rw [Function.update_of_ne hname]

theorem delListener_held (s : Program c) (name : String) (key : Nat) (x : String) :
    (s.delListener name key).held x = s.held x := by
  unfold delListener
  split
  · rfl
  · rename_i var hvar
    exact held_update hvar rfl x

theorem clearListener_held (s : Program c) (name x : String) :
    (s.clearListener name).held x = s.held x := by
  unfold clearListener
  split
  · rfl
  · rename_i var hvar
    exact held_update hvar rfl x

theorem addListener_held [DecidableEq c.Ty] {s s' : Program c} {name : String} {key : Nat}
    {cb : on_change_cb c} (h : s.addListener name cb = some (key, s')) (x : String) :
    s'.held x = s.held x := by
  obtain ⟨var, hvar, he⟩ := Option.map_eq_some_iff.mp h
  cases he
  exact held_update hvar rfl x

theorem lookup_held [DecidableEq c.Ty] (s : Program c) (name : String) (v : Value c) (d x : String) :
    (s.Lookup name v d).2.held x =
      if s.held x = none ∧ name = x ∧ validName x = true then some (v, d) else s.held x := by
  unfold Lookup
  split
  · rename_i var hvar
    rw [if_neg]
    rintro ⟨hnone, rfl, -⟩
    rw [held, hvar] at hnone
    cases hnone
  · rename_i hnone
    by_cases hname : name = x
    · subst hname
      by_cases hvalid : validName name = true
      · simp [hvalid, held, hnone]
      · simp [hvalid]
    · have hne := Function.update_of_ne (Ne.symm hname) 
        (some (⟨v, d, .empty, fun _ _ _ => none⟩ : Var c)) s.s_data
      split
      · simp [held, hname, hne]
      · simp [hname]

variable [DecidableEq c.Ty] [∀ τ, DecidableEq (c.El τ)]

/-- The loop over the listeners: what it throws, and the calls that it makes. A listener that throws
is the last.
mirrors src/config/configVar.h:103-105 -/
def tell (name : String) (old_value new_value : Value c) (cb : Nat → on_change_cb c) :
    List Nat → Option Thrown × List (Told c)
  | [] => (none, [])
  | key :: keys =>
    match cb key old_value new_value with
    | some thrown => (some thrown, [⟨name, key, old_value, new_value, some thrown⟩])
    | none =>
      let (thrown, calls) := tell name old_value new_value cb keys
      (thrown, ⟨name, key, old_value, new_value, none⟩ :: calls)

/-- A pointer to a `ConfigVar<T>` exists only where the variable has the type `T`. What a listener
throws is thrown on, before the value is stored.
mirrors src/config/configVar.h:96-109 -/
def setValue (s : Program c) (name : String) (v : Value c) : Option Thrown × Program c :=
  match s.s_data name with
  | none => (none, s)
  | some var =>
    if var.m_val.1 ≠ v.1 then (none, s)
    else if v = var.m_val then (none, s)
    else
      match tell name var.m_val v var.cb var.m_cbs.keys with
      | (some thrown, calls) => (some thrown, { s with told := s.told ++ calls })
      | (none, calls) => (none, { s with
          s_data := Function.update s.s_data name (some { var with m_val := v })
          told := s.told ++ calls })

/-- What a listener throws is caught where it is a `std::exception`.
mirrors src/config/configVar.h:64-76 -/
def fromString (s : Program c) (name value : String) : Except Thrown Bool × Program c :=
  match s.s_data name with
  | none => (.ok false, s)
  | some var =>
    match c.fromStr var.m_val.1 value with
    | none => (.ok false, s)
    | some v =>
      match s.setValue name ⟨var.m_val.1, v⟩ with
      | (none, s) => (.ok true, s)
      | (some .exception, s) => (.ok false, s)
      | (some .other, s) => (.error .other, s)

/-- The loop over the listed nodes.
mirrors src/config/config.cc:46-65 -/
def loadNodes (s : Program c) : List (String × Node) → Option Thrown × Program c
  | [] => (none, s)
  | it :: all_node =>
    let key := it.1
    if key.isEmpty then loadNodes s all_node
    else
      match s.fromString (key.map Char.toLower) (nodeText c.emit it.2) with
      | (.error thrown, s) => (some thrown, s)
      | (.ok _, s) => loadNodes s all_node

/-- mirrors src/config/config.cc:42-66 -/
def LoadFromYaml (s : Program c) (rootNode : Node) : Option Thrown × Program c :=
  s.loadNodes (S_listYamlNode "" rootNode)

/-- The calls of a program; those of a variable are made through a pointer to it, so that they do
nothing where there is none. What a call throws its caller catches. -/
inductive Op (c : Types) where
  | Lookup (name : String) (default_value : Value c) (description : String)
  | setValue (name : String) (v : Value c)
  | fromString (name value : String)
  | LoadFromYaml (rootNode : Node)
  | addListener (name : String) (cb : on_change_cb c)
  | delListener (name : String) (key : Nat)
  | clearListener (name : String)

def step (s : Program c) : Op c → Program c
  | .Lookup name default_value description => (s.Lookup name default_value description).2
  | .setValue name v => (s.setValue name v).2
  | .fromString name value => (s.fromString name value).2
  | .LoadFromYaml rootNode => (s.LoadFromYaml rootNode).2
  | .addListener name cb => ((s.addListener name cb).map Prod.snd).getD s
  | .delListener name key => s.delListener name key
  | .clearListener name => s.clearListener name

def run (s : Program c) (ops : List (Op c)) : Program c := ops.foldl step s

/-! ## Listeners that throw -/

/-- No listener has thrown. -/
def Quiet (s : Program c) : Prop := ∀ e ∈ s.told, e.thrown = none

instance (s : Program c) : Decidable s.Quiet :=
  inferInstanceAs (Decidable (∀ e ∈ s.told, e.thrown = none))

section Throws
variable {s : Program c} {name : String}

omit [DecidableEq c.Ty] [∀ τ, DecidableEq (c.El τ)] in
/-- The loop ends early exactly at a listener that throws. -/
theorem tell_spec (name : String) (old_value new_value : Value c) (cb : Nat → on_change_cb c)
    (keys : List Nat) :
    (tell name old_value new_value cb keys = (none, keys.map fun key =>
      ⟨name, key, old_value, new_value, none⟩)) ∨
    ∃ told key thrown rest, keys = told ++ key :: rest ∧
      tell name old_value new_value cb keys = (some thrown,
        told.map (fun key => ⟨name, key, old_value, new_value, none⟩) ++
          [⟨name, key, old_value, new_value, some thrown⟩]) := by
  induction keys with
  | nil => exact .inl rfl
  | cons key keys ih =>
    rw [tell]
    cases hcb : cb key old_value new_value with
    | some thrown => exact .inr ⟨[], key, thrown, keys, rfl, rfl⟩
    | none =>
      rcases ih with ih | ⟨told, key', thrown, rest, hkeys, ih⟩
      · rw [ih]
        exact .inl rfl
      · rw [ih, hkeys]
        exact .inr ⟨key :: told, key', thrown, rest, rfl, rfl⟩

/-- A write is none, or all listeners are told and the value is stored, or one listener throws and
the variables stay as they are. -/
theorem setValue_cases (s : Program c) (name : String) (v : Value c) :
    s.setValue name v = (none, s) ∧
      (∀ var, s.s_data name = some var → var.m_val.1 = v.1 → v = var.m_val) ∨
    (∃ var, s.s_data name = some var ∧ var.m_val.1 = v.1 ∧ v ≠ var.m_val ∧
      s.setValue name v = (none, { s with
        s_data := Function.update s.s_data name (some { var with m_val := v })
        told := s.told ++ var.m_cbs.keys.map fun key => ⟨name, key, var.m_val, v, none⟩ })) ∨
    ∃ var told key thrown rest, s.s_data name = some var ∧ var.m_cbs.keys = told ++ key :: rest ∧
      s.setValue name v = (some thrown, { s with told := s.told ++
        (told.map (fun key => ⟨name, key, var.m_val, v, none⟩) ++
          [⟨name, key, var.m_val, v, some thrown⟩]) }) := by
  unfold setValue
  cases hdata : s.s_data name with
  | none => exact .inl ⟨rfl, nofun⟩
  | some var =>
    by_cases hv : var.m_val.1 = v.1
    · by_cases hsame : v = var.m_val
      · refine .inl ⟨?_, ?_⟩
        · simp [hsame]
        · rintro var' hvar' -
          rw [hsame, ← Option.some.inj hvar']
      · simp only [hv, ne_eq, not_true_eq_false, if_false, hsame]
        rcases tell_spec name var.m_val v var.cb var.m_cbs.keys with htell | htell
        · rw [htell]
          exact .inr (.inl ⟨var, rfl, hv, hsame, rfl⟩)
        · obtain ⟨told, key, thrown, rest, hkeys, htell⟩ := htell
          rw [htell]
          exact .inr (.inr ⟨var, told, key, thrown, rest, rfl, hkeys, rfl⟩)
    · refine .inl ⟨?_, ?_⟩
      · simp [hv]
      · rintro var' hvar' hv'
        rw [← Option.some.inj hvar'] at hv'
        exact absurd hv' hv

/-- What a call throws a listener has thrown, and the value is not stored: no variable changes. -/
theorem setValue_thrown {v : Value c} {thrown : Thrown} (h : (s.setValue name v).1 = some thrown) :
    (s.setValue name v).2.s_data = s.s_data ∧
      ∃ e ∈ (s.setValue name v).2.told, e.thrown = some thrown := by
  rcases s.setValue_cases name v with ⟨hset, -⟩ | ⟨var, -, -, -, hset⟩ |
    ⟨var, told, key, thrown', rest, -, -, hset⟩
  · rw [hset] at h
    cases h
  · rw [hset] at h
    cases h
  · rw [hset] at h ⊢
    cases h
    exact ⟨rfl, ⟨name, key, var.m_val, v, some thrown⟩, by simp, rfl⟩

/-- The program after `fromString`, whatever is thrown. -/
theorem fromString_snd (s : Program c) (name value : String) : (s.fromString name value).2 =
    match s.s_data name with
    | none => s
    | some var =>
      match c.fromStr var.m_val.1 value with
      | none => s
      | some v => (s.setValue name ⟨var.m_val.1, v⟩).2 := by
  unfold fromString
  cases s.s_data name with
  | none => rfl
  | some var =>
    simp only
    cases c.fromStr var.m_val.1 value with
    | none => rfl
    | some v =>
      simp only
      rcases s.setValue name ⟨var.m_val.1, v⟩ with ⟨_ | _ | _, s'⟩ <;> rfl

/-- What is thrown out of `fromString` a listener has thrown. -/
theorem fromString_ok (name value : String) (hq : (s.fromString name value).2.Quiet) :
    ∃ b, (s.fromString name value).1 = .ok b := by
  unfold fromString at hq ⊢
  cases hdata : s.s_data name with
  | none => exact ⟨false, rfl⟩
  | some var =>
    cases hconv : c.fromStr var.m_val.1 value with
    | none => exact ⟨false, by simp [hconv]⟩
    | some v =>
      simp only [hdata, hconv] at hq ⊢
      rcases hset : s.setValue name ⟨var.m_val.1, v⟩ with ⟨thrown, s'⟩
      cases thrown with
      | none => exact ⟨true, rfl⟩
      | some thrown =>
        have hthrown : (s.setValue name ⟨var.m_val.1, v⟩).1 = some thrown := by rw [hset]
        obtain ⟨-, e, he, hsome⟩ := setValue_thrown hthrown
        rw [hset] at he hq
        cases thrown with
        | exception => exact ⟨false, rfl⟩
        | other =>
          rw [hq e he] at hsome
          cases hsome

/-- The listeners that have been told stay told. -/
theorem setValue_told (s : Program c) (name : String) (v : Value c) :
    s.told <+: (s.setValue name v).2.told := by
  rcases s.setValue_cases name v with ⟨hset, -⟩ | ⟨_, -, -, -, hset⟩ | ⟨_, _, _, _, _, -, -, hset⟩
  · rw [hset]
  · rw [hset]
    exact List.prefix_append ..
  · rw [hset]
    exact List.prefix_append ..

theorem fromString_told (s : Program c) (name value : String) :
    s.told <+: (s.fromString name value).2.told := by
  rw [fromString_snd]
  split
  · exact List.prefix_refl _
  · split
    · exact List.prefix_refl _
    · exact setValue_told ..

/-- A load is a number of calls of `fromString`. -/
theorem loadNodes_induction {P : Program c → Prop} (all_node : List (String × Node)) (h : P s)
    (hstep : ∀ s name value, P s → P (s.fromString name value).2) : P (s.loadNodes all_node).2 := by
  induction all_node generalizing s with
  | nil => exact h
  | cons it all_node ih =>
    rw [loadNodes]
    split
    · exact ih h
    · have hnext := hstep s (it.1.map Char.toLower) (nodeText c.emit it.2) h
      rcases hfrom : s.fromString (it.1.map Char.toLower) (nodeText c.emit it.2) with ⟨_ | _, s'⟩
      · rw [hfrom] at hnext
        exact hnext
      · rw [hfrom] at hnext
        exact ih hnext

theorem load_told (s : Program c) (all_node : List (String × Node)) :
    s.told <+: (s.loadNodes all_node).2.told :=
  loadNodes_induction (P := fun s' => s.told <+: s'.told) all_node (List.prefix_refl _)
    fun s' name value h => h.trans (fromString_told s' name value)

theorem step_told (s : Program c) (op : Op c) : s.told <+: (s.step op).told := by
  cases op with
  | setValue name v => exact setValue_told ..
  | fromString name value => exact fromString_told ..
  | LoadFromYaml rootNode => exact load_told ..
  | Lookup name v d =>
    simp only [step, Lookup]
    split
    · exact List.prefix_refl _
    · split <;> exact List.prefix_refl _
  | addListener name cb =>
    simp only [step, addListener]
    cases s.s_data name <;> exact List.prefix_refl _
  | delListener name key =>
    simp only [step, delListener]
    split <;> exact List.prefix_refl _
  | clearListener name =>
    simp only [step, clearListener]
    split <;> exact List.prefix_refl _

theorem run_tells (s : Program c) (ops : List (Op c)) : s.told <+: (s.run ops).told := by
  induction ops generalizing s with
  | nil => exact List.prefix_refl _
  | cons op ops ih => exact (step_told s op).trans (ih (s.step op))

omit [DecidableEq c.Ty] [∀ τ, DecidableEq (c.El τ)] in
theorem Quiet.mono {s s' : Program c} (h : s'.Quiet) (hle : s.told <+: s'.told) : s.Quiet :=
  fun e he => h e (hle.subset he)

/-- Where no listener has thrown after a run, none has at its first step. -/
theorem Quiet.step_of_run {op : Op c} {ops : List (Op c)} (h : (s.run (op :: ops)).Quiet) :
    (s.step op).Quiet := h.mono (run_tells (s.step op) ops)

end Throws

/-! ## Writes -/

/-- There is no variable `x`, and nothing has been told of it. -/
structure Absent (x : String) (s s' : Program c) : Prop where
  data : s'.s_data x = none
  told : ∀ key, s'.toldTo x key = s.toldTo x key

/-- The variable `x` has been written with the values `ws`, and nothing else about it and its
listeners has changed. -/
structure Wrote (x : String) (ws : List (Value c)) (s s' : Program c) : Prop where
  s_fun_id : s'.s_fun_id = s.s_fun_id
  absent : s.s_data x = none → Absent x s s'
  present : ∀ var, s.s_data x = some var →
    s'.s_data x = some { var with m_val := lastOf var.m_val ws } ∧
    ∀ key, s'.toldTo x key =
      s.toldTo x key ++ if key ∈ var.m_cbs.keys then changes var.m_val ws else []

theorem Wrote.refl (x : String) (s : Program c) : Wrote x [] s s where
  s_fun_id := rfl
  absent h := ⟨h, fun _ => rfl⟩
  present var h := ⟨h, fun key => by simp [changes]⟩

theorem Wrote.trans {x : String} {ws ws' : List (Value c)} {s s' s'' : Program c}
    (h : Wrote x ws s s') (h' : Wrote x ws' s' s'') : Wrote x (ws ++ ws') s s'' where
  s_fun_id := h'.s_fun_id.trans h.s_fun_id
  absent hnone := by
    have hfirst := h.absent hnone
    have hsecond := h'.absent hfirst.data
    exact ⟨hsecond.data, fun key => (hsecond.told key).trans (hfirst.told key)⟩
  present var hvar := by
    obtain ⟨hvar', htold⟩ := h.present var hvar
    obtain ⟨hvar'', htold'⟩ := h'.present _ hvar'
    refine ⟨by rw [hvar'', lastOf_append], fun key => ?_⟩
    rw [htold', htold, changes_append, List.append_assoc]
    split <;> simp

/-- The values that an operation writes to the variable `x` of the type `τ`. -/
def writes (x : String) (τ : c.Ty) : Op c → List (Value c)
  | .setValue name v => if name = x ∧ τ = v.1 then [v] else []
  | .fromString name value => if name = x then ((c.fromStr τ value).map (Sigma.mk τ)).toList else []
  | .LoadFromYaml rootNode =>
    if x = "" then [] else ((texts c.emit rootNode x).filterMap (c.fromStr τ)).map (Sigma.mk τ)
  | _ => []

section Step
variable {s : Program c} {x name : String}

/-- A variable of another name. -/
theorem Wrote.other {s' : Program c} (hid : s'.s_fun_id = s.s_fun_id)
    (hdata : s'.s_data x = s.s_data x) (htold : ∀ key, s'.toldTo x key = s.toldTo x key) :
    Wrote x [] s s' where
  s_fun_id := hid
  absent h := ⟨by rw [hdata, h], htold⟩
  present var h := ⟨by rw [hdata, h]; rfl, fun key => by rw [htold]; simp [changes]⟩

theorem Wrote.absent_refl (ws : List (Value c)) (h : s.s_data x = none) : Wrote x ws s s where
  s_fun_id := rfl
  absent _ := ⟨h, fun _ => rfl⟩
  present var hvar := by
    rw [h] at hvar
    cases hvar

theorem Wrote.present_of {s' : Program c} {ws : List (Value c)} {var : Var c}
    (hvar : s.s_data x = some var) (hid : s'.s_fun_id = s.s_fun_id)
    (hdata : s'.s_data x = some { var with m_val := lastOf var.m_val ws })
    (htold : ∀ key, s'.toldTo x key =
      s.toldTo x key ++ if key ∈ var.m_cbs.keys then changes var.m_val ws else []) :
    Wrote x ws s s' where
  s_fun_id := hid
  absent h := by
    rw [hvar] at h
    cases h
  present var' h := by
    rw [hvar, Option.some.injEq] at h
    subst h
    exact ⟨hdata, htold⟩

/-- Only the listeners of the variable that is written are told. -/
theorem setValue_absent (name : String) (v : Value c) (h : s.s_data x = none) :
    Absent x s (s.setValue name v).2 := by
  have hne {var : Var c} (hvar : s.s_data name = some var) : name ≠ x := by
    rintro rfl
    rw [h] at hvar
    cases hvar
  rcases s.setValue_cases name v with ⟨hset, -⟩ | ⟨var, hvar, -, -, hset⟩ |
    ⟨var, told, key', thrown, rest, hvar, -, hset⟩
  · rw [hset]
    exact ⟨h, fun _ => rfl⟩
  · rw [hset]
    refine ⟨(Function.update_of_ne (hne hvar).symm _ _).trans h, fun key => ?_⟩
    rw [toldTo_append]
    simp [hne hvar]
  · rw [hset]
    refine ⟨h, fun key => ?_⟩
    simp [toldTo, hne hvar, List.filter_append]

theorem setValue_wrote {τ : c.Ty} (name : String) (v : Value c) (ht : s.HasType x τ)
    (hq : (s.setValue name v).2.Quiet) :
    Wrote x (writes x τ (.setValue name v)) s (s.setValue name v).2 := by
  rcases s.setValue_cases name v with ⟨hset, hsame⟩ | ⟨var, hvar, hv, hne, hset⟩ |
    ⟨var, told, key, thrown, rest, -, -, hset⟩
  · -- nothing is written
    rw [hset]
    by_cases hws : name = x ∧ τ = v.1
    · obtain ⟨rfl, rfl⟩ := hws
      cases hdata : s.s_data name with
      | none => exact .absent_refl _ hdata
      | some var =>
        have heq := hsame var hdata (ht var hdata)
        have hwrites : writes name v.1 (.setValue name v) = [v] := by simp [writes]
        rw [hwrites]
        exact .present_of hdata rfl (by rw [hdata, heq]; rfl) fun key => by simp [changes, heq]
    · have hwrites : writes x τ (.setValue name v) = [] := if_neg hws
      rw [hwrites]
      exact .refl x s
  · rw [hset]
    by_cases hname : name = x
    · subst hname
      have hwrites : writes name τ (.setValue name v) = [v] := by simp [writes, ← ht var hvar, hv]
      rw [hwrites]
      refine .present_of hvar rfl (Function.update_self ..) fun key => ?_
      rw [toldTo_append]
      simp [changes, hne]
    · have hwrites : writes x τ (.setValue name v) = [] := by simp [writes, hname]
      rw [hwrites]
      refine .other rfl (Function.update_of_ne (Ne.symm hname) _ _) fun key => ?_
      rw [toldTo_append]
      simp [hname]
  · -- a listener has thrown
    rw [hset] at hq
    cases hq ⟨name, key, var.m_val, v, some thrown⟩ (by simp)

theorem fromString_wrote {τ : c.Ty} (name value : String) (ht : s.HasType x τ)
    (hq : (s.fromString name value).2.Quiet) :
    Wrote x (writes x τ (.fromString name value)) s (s.fromString name value).2 := by
  rw [fromString_snd] at hq ⊢
  by_cases hname : name = x
  · subst hname
    simp only [writes, if_true]
    cases hdata : s.s_data name with
    | none => exact .absent_refl _ hdata
    | some var =>
      have htype := ht var hdata
      subst htype
      simp only [hdata] at hq ⊢
      cases hconv : c.fromStr var.m_val.1 value with
      | none => exact .refl name s
      | some v =>
        simp only [hconv] at hq
        have hset := setValue_wrote name ⟨var.m_val.1, v⟩ ht hq
        simpa [writes] using hset
  · have hws : writes x τ (.fromString name value) = [] := by simp [writes, hname]
    rw [hws]
    cases hdata : s.s_data name with
    | none => exact .refl x s
    | some var =>
      simp only [hdata] at hq ⊢
      cases hconv : c.fromStr var.m_val.1 value with
      | none => exact .refl x s
      | some v =>
        simp only [hconv] at hq
        have hset := setValue_wrote name ⟨var.m_val.1, v⟩ ht hq
        simpa [writes, hname] using hset

/-- Writes do not change the type. -/
theorem Wrote.hasType {s' : Program c} {ws : List (Value c)} {τ : c.Ty} (h : Wrote x ws s s')
    (hws : ∀ v ∈ ws, v.1 = τ) (ht : s.HasType x τ) : s'.HasType x τ := by
  intro var' hvar'
  cases hdata : s.s_data x with
  | none =>
    rw [(h.absent hdata).data] at hvar'
    cases hvar'
  | some var =>
    rw [(h.present var hdata).1, Option.some.injEq] at hvar'
    subst hvar'
    rcases lastOf_mem var.m_val ws with heq | hmem
    · rw [heq]
      exact ht var hdata
    · exact hws _ hmem

end Step

omit [∀ τ, DecidableEq (c.El τ)] in
/-- All that is written has the type of the variable. -/
theorem writes_type {x : String} {τ : c.Ty} (op : Op c) : ∀ v ∈ writes x τ op, v.1 = τ := by
  intro v hv
  cases op with
  | setValue name w =>
    simp only [writes] at hv
    split at hv
    · rename_i h
      rw [List.mem_singleton.mp hv]
      exact h.2.symm
    · cases hv
  | fromString name value =>
    simp only [writes] at hv
    split at hv
    · obtain ⟨w, -, rfl⟩ := Option.map_eq_some_iff.mp (Option.mem_toList.mp hv)
      rfl
    · cases hv
  | LoadFromYaml rootNode =>
    simp only [writes] at hv
    split at hv
    · cases hv
    · obtain ⟨w, -, rfl⟩ := List.mem_map.mp hv
      rfl
  | Lookup | addListener | delListener | clearListener => cases hv

/-! ## Loads -/

section Load
variable {s : Program c} {x : String} {τ : c.Ty}

/-- What one listed node writes. -/
def entryWrites (x : String) (τ : c.Ty) (e : String × Node) : List (Value c) :=
  if e.1.isEmpty then [] else writes x τ (.fromString e.1 (nodeText c.emit e.2))

theorem loadNodes_wrote (es : List (String × Node)) (hes : ∀ e ∈ es, keyOk e.1 = true)
    (ht : s.HasType x τ) (hq : (s.loadNodes es).2.Quiet) :
    Wrote x (es.flatMap (entryWrites x τ)) s (s.loadNodes es).2 := by
  induction es generalizing s with
  | nil => exact .refl x s
  | cons e es ih =>
    have hlow : e.1.map Char.toLower = e.1 := map_toLower _ (hes e (by simp))
    have hrest : ∀ e ∈ es, keyOk e.1 = true := fun e he => hes e (List.mem_cons_of_mem _ he)
    rw [List.flatMap_cons]
    rw [loadNodes] at hq ⊢
    simp only [hlow] at hq ⊢
    by_cases hemp : e.1.isEmpty = true
    · have hnone : entryWrites x τ e = [] := if_pos hemp
      rw [if_pos hemp] at hq ⊢
      rw [hnone]
      exact ih hrest ht hq
    · have hsome : entryWrites x τ e = writes x τ (.fromString e.1 (nodeText c.emit e.2)) :=
        if_neg hemp
      rw [if_neg hemp] at hq ⊢
      rw [hsome]
      have hfirst := fromString_wrote e.1 (nodeText c.emit e.2) ht
      have hok := fromString_ok (s := s) e.1 (nodeText c.emit e.2)
      rcases hfrom : s.fromString e.1 (nodeText c.emit e.2) with ⟨thrown | b, s'⟩
      · rw [hfrom] at hq hok
        obtain ⟨b, hb⟩ := hok hq
        cases hb
      · rw [hfrom] at hq hfirst
        have hwrote := hfirst (hq.mono (load_told s' es))
        exact hwrote.trans (ih hrest (hwrote.hasType (writes_type _) ht) hq)

omit [∀ τ, DecidableEq (c.El τ)] in
/-- The nodes at other paths write nothing. -/
theorem flatMap_entryWrites (hx : keyOk x = true) (es : List (String × Node)) :
    (es.filter fun e => keyOk e.1).flatMap (entryWrites x τ) = if x = "" then [] else
      ((((es.filter fun e => decide (e.1 = x)).map fun e => nodeText c.emit e.2).filterMap
        (c.fromStr τ)).map (Sigma.mk τ)) := by
  induction es with
  | nil => split <;> rfl
  | cons e es ih =>
    by_cases he : e.1 = x
    · subst he
      have hcons := List.filter_cons_of_pos (p := fun e : String × Node => keyOk e.1)
        (a := e) (l := es) hx
      rw [hcons, List.flatMap_cons, ih]
      by_cases hemp : e.1 = ""
      · simp [entryWrites, hemp]
      · cases hconv : c.fromStr τ (nodeText c.emit e.2) with
        | none => simp [entryWrites, hemp, writes, hconv]
        | some v => simp [entryWrites, hemp, writes, hconv]
    · have hnone : entryWrites x τ e = [] := by simp [entryWrites, writes, he]
      have hskip : (e :: es).filter (fun e => decide (e.1 = x)) =
          es.filter fun e => decide (e.1 = x) := List.filter_cons_of_neg (by simpa using he)
      rw [hskip, ← ih, List.filter_cons]
      split
      · rw [List.flatMap_cons, hnone, List.nil_append]
      · rfl

theorem load_wrote (rootNode : Node) (hx : validName x = true) (ht : s.HasType x τ)
    (hq : (s.LoadFromYaml rootNode).2.Quiet) :
    Wrote x (writes x τ (.LoadFromYaml rootNode)) s (s.LoadFromYaml rootNode).2 := by
  have hall : ∀ e ∈ S_listYamlNode "" rootNode, keyOk e.1 = true := by
    rw [listYamlNode_filter]
    exact fun e he => (List.mem_filter.mp he).2
  have hwrote := loadNodes_wrote (x := x) (τ := τ) _ hall ht hq
  rw [listYamlNode_filter, flatMap_entryWrites (keyOk_of_validName hx)] at hwrote
  rw [LoadFromYaml, listYamlNode_filter]
  exact hwrote

end Load

/-! ## The registry -/

/-- The first `Lookup` of the name `x`, which registers it, and the operations after it. -/
def registration (x : String) : List (Op c) → Option (Value c × String × List (Op c))
  | .Lookup name default_value description :: ops =>
    if name = x ∧ validName x = true then some (default_value, description, ops)
    else registration x ops
  | _ :: ops => registration x ops
  | [] => none

section Registry
variable {s : Program c} {x : String}

theorem Wrote.held {s' : Program c} {ws : List (Value c)} {v : Value c} {d : String}
    (h : Wrote x ws s s') (hv : s.held x = some (v, d)) : s'.held x = some (lastOf v ws, d) := by
  obtain ⟨var, hvar, he⟩ := Option.map_eq_some_iff.mp hv
  rw [Program.held, (h.present var hvar).1]
  cases he
  rfl

theorem fromString_absent (name value : String) (h : s.s_data x = none) :
    Absent x s (s.fromString name value).2 := by
  rw [fromString_snd]
  split
  · exact ⟨h, fun _ => rfl⟩
  · split
    · exact ⟨h, fun _ => rfl⟩
    · exact setValue_absent name _ h

theorem load_absent (rootNode : Node) (h : s.s_data x = none) :
    Absent x s (s.LoadFromYaml rootNode).2 :=
  loadNodes_induction (P := Absent x s) _ ⟨h, fun _ => rfl⟩ fun _ name value hs =>
    have hnext := fromString_absent name value hs.data
    ⟨hnext.data, fun key => (hnext.told key).trans (hs.told key)⟩

theorem step_addListener_held (s : Program c) (name x : String) (cb : on_change_cb c) :
    (s.step (.addListener name cb)).held x = s.held x := by
  rw [step]
  cases hadd : s.addListener name cb with
  | none => rfl
  | some r => exact addListener_held hadd x

/-- A registered variable keeps its description and has the last value written. -/
theorem step_held {v : Value c} {d : String} (op : Op c) (hx : validName x = true)
    (hq : (s.step op).Quiet) (h : s.held x = some (v, d)) :
    (s.step op).held x = some (lastOf v (writes x v.1 op), d) := by
  have ht := hasType_of_held h
  cases op with
  | setValue name w => exact (setValue_wrote name w ht hq).held h
  | fromString name value => exact (fromString_wrote name value ht hq).held h
  | LoadFromYaml rootNode => exact (load_wrote rootNode hx ht hq).held h
  | addListener name cb => exact (step_addListener_held s name x cb).trans h
  | delListener name key => exact (delListener_held s name key x).trans h
  | clearListener name => exact (clearListener_held s name x).trans h
  | Lookup name w e =>
    refine (lookup_held s name w e x).trans ?_
    rw [h, if_neg fun hc => Option.some_ne_none _ hc.1]
    rfl

theorem run_held {v : Value c} {d : String} (ops : List (Op c)) (hx : validName x = true)
    (hq : (s.run ops).Quiet) (h : s.held x = some (v, d)) :
    (s.run ops).held x = some (lastOf v (ops.flatMap (writes x v.1)), d) := by
  induction ops generalizing s v with
  | nil => exact h
  | cons op ops ih =>
    have htype : (lastOf v (writes x v.1 op)).1 = v.1 := by
      rcases lastOf_mem v (writes x v.1 op) with heq | hmem
      · rw [heq]
      · exact writes_type op _ hmem
    have hrest := ih hq (step_held op hx hq.step_of_run h)
    rw [htype] at hrest
    rw [List.flatMap_cons, lastOf_append]
    exact hrest

/-- Nothing but `Lookup` registers a variable. -/
theorem step_held_none (op : Op c) (h : s.held x = none)
    (hop : ∀ v d, op = .Lookup x v d → ¬ validName x = true) : (s.step op).held x = none := by
  have hdata := Option.map_eq_none_iff.mp h
  cases op with
  | setValue name w => exact Option.map_eq_none_iff.mpr (setValue_absent name w hdata).data
  | fromString name value => exact Option.map_eq_none_iff.mpr (fromString_absent name value hdata).data
  | LoadFromYaml rootNode => exact Option.map_eq_none_iff.mpr (load_absent rootNode hdata).data
  | addListener name cb => exact (step_addListener_held s name x cb).trans h
  | delListener name key => exact (delListener_held s name key x).trans h
  | clearListener name => exact (clearListener_held s name x).trans h
  | Lookup name w e =>
    refine (lookup_held s name w e x).trans ?_
    rw [if_neg, h]
    rintro ⟨-, rfl, hvalid⟩
    exact hop w e rfl hvalid

/-- From a state without the variable. -/
theorem run_registered (ops : List (Op c)) (hq : (s.run ops).Quiet) (h : s.held x = none) :
    (s.run ops).held x = (registration x ops).map fun r =>
      (lastOf r.1 (r.2.2.flatMap (writes x r.1.1)), r.2.1) := by
  induction ops generalizing s with
  | nil => exact h
  | cons op ops ih =>
    cases op with
    | Lookup name v d =>
      have hlookup := lookup_held s name v d x
      rw [registration]
      split
      · rename_i hreg
        rw [if_pos ⟨h, hreg⟩] at hlookup
        exact run_held ops hreg.2 hq hlookup
      · rename_i hreg
        rw [if_neg fun hc => hreg hc.2, h] at hlookup
        exact ih hq hlookup
    | setValue | fromString | LoadFromYaml | addListener | delListener | clearListener =>
      exact ih hq (step_held_none _ h (by simp))

/-- Which variables there are after a history in which no listener has thrown, and what they
hold. -/
theorem registry_law (ops : List (Op c)) (x : String) (hq : ((empty : Program c).run ops).Quiet) :
    ((empty : Program c).run ops).held x = (registration x ops).map fun r =>
      (lastOf r.1 (r.2.2.flatMap (writes x r.1.1)), r.2.1) :=
  run_registered ops hq rfl

end Registry

/-- Numbers. -/
def numbers : Types where
  Ty := Unit
  El _ := Int
  fromStr _ := Boost.readInt
  emit _ := ""

instance : DecidableEq numbers.Ty := inferInstanceAs (DecidableEq Unit)
instance (τ : numbers.Ty) : DecidableEq (numbers.El τ) := inferInstanceAs (DecidableEq Int)

def number (i : Int) : Value numbers := ⟨(), i⟩

/-- It refuses the number 13. -/
def no13 : on_change_cb numbers := fun _ new_value =>
  if new_value = number 13 then some .exception else none

/-- `port: 1` and `port: 2`. -/
def twoPorts : Node := .map [(.scalar "port", .scalar "1"), (.scalar "port", .scalar "2")]

def history : List (Op numbers) :=
  [.LoadFromYaml twoPorts, .Lookup "port" (number 80) "the port", .addListener "port" no13,
    .LoadFromYaml twoPorts, .Lookup "port" (number 5) "", .fromString "port" "x"]

theorem registry_law_history : ((empty : Program numbers).run history).held "port" =
    some (number 2, "the port") :=
  (registry_law history "port" (by decide +kernel)).trans (by decide +kernel)

/-- The text that the listener refuses changes nothing. -/
example : (((empty : Program numbers).run history).fromString "port" "13").1 = .ok false ∧
    (((empty : Program numbers).run history).fromString "port" "13").2.held "port" =
      some (number 2, "the port") := by
  decide +kernel

end Program
end Ppcode.Config
