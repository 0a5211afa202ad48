import Ppcode.Config.ConfigRuns

/-!
# What a listener is told

`addListener`, `delListener` and `clearListener` of `src/config/configVar.h`, in the histories of
`ConfigRuns`. The keys of all variables of a type come from one counter.

* `Stepped`: what an operation does to a variable, its listeners and what they have been told.
* `listener_law`: in a history in which no listener has thrown, a listener has been told of the
  changes of the value between the call of `addListener` and its removal: all of them, once each and
  in order.
-/
namespace Ppcode.Config.Program
variable {c : Types} [DecidableEq c.Ty] [∀ τ, DecidableEq (c.El τ)]

/-- The operation leaves the listener `key` of the variable `x` where it is. -/
def keeps (x : String) (key : Nat) : Op c → Bool
  | .delListener name k => !(decide (name = x) && decide (k = key))
  | .clearListener name => !decide (name = x)
  | _ => true

/-- The calls of `addListener`. -/
def adds : List (Op c) → Nat
  | .addListener _ _ :: ops => adds ops + 1
  | _ :: ops => adds ops
  | [] => 0

section Listeners
variable {s : Program c} {x : String}

theorem setValue_fun_id (s : Program c) (name : String) (v : Value c) :
    (s.setValue name v).2.s_fun_id = s.s_fun_id := by
  rcases s.setValue_cases name v with ⟨hset, -⟩ | ⟨_, -, -, -, hset⟩ | ⟨_, _, _, _, _, -, -, hset⟩
  · rw [hset]
  · rw [hset]
  · rw [hset]

theorem fromString_fun_id (s : Program c) (name value : String) :
    (s.fromString name value).2.s_fun_id = s.s_fun_id := by
  rw [fromString_snd]
  split
  · rfl
  · split
    · rfl
    · exact setValue_fun_id ..

theorem load_fun_id (s : Program c) (rootNode : Node) :
    (s.LoadFromYaml rootNode).2.s_fun_id = s.s_fun_id :=
  loadNodes_induction (P := fun s' => s'.s_fun_id = s.s_fun_id) _ rfl
    fun s' name value h => (fromString_fun_id s' name value).trans h

/-- `s_fun_id` counts. -/
theorem step_fun_id (s : Program c) (op : Op c) (τ : c.Ty) (h : s.s_fun_id τ + adds [op] < 2 ^ 64) :
    s.s_fun_id τ ≤ (s.step op).s_fun_id τ ∧ (s.step op).s_fun_id τ ≤ s.s_fun_id τ + adds [op] := by
  have hsame (heq : (s.step op).s_fun_id = s.s_fun_id) : s.s_fun_id τ ≤ (s.step op).s_fun_id τ ∧
      (s.step op).s_fun_id τ ≤ s.s_fun_id τ + adds [op] := by
    rw [heq]
    omega
  cases op with
  | addListener name cb =>
    simp only [adds] at h
    simp only [step, addListener]
    cases s.s_data name with
    | none => simp
    | some var =>
      by_cases hτ : τ = var.m_val.1
      · subst hτ
        simp only [Option.map_some, Option.getD_some, Function.update_self, adds]
        omega
      · simp [Function.update_of_ne hτ]
  | setValue name v => exact hsame (setValue_fun_id ..)
  | fromString name value => exact hsame (fromString_fun_id ..)
  | LoadFromYaml rootNode => exact hsame (load_fun_id ..)
  | Lookup name v d =>
    refine hsame ?_
    simp only [step, Lookup]
    split
    · rfl
    · split <;> rfl
  | delListener name key =>
    refine hsame ?_
    simp only [step, delListener]
    split <;> rfl
  | clearListener name =>
    refine hsame ?_
    simp only [step, clearListener]
    split <;> rfl

/-- What a step does to a registered variable: its value, its listeners and what they are told. -/
structure Stepped (x : String) (op : Op c) (s : Program c) (var : Var c) (s' : Program c)
    (var' : Var c) : Prop where
  data : s'.s_data x = some var'
  val : var'.m_val = lastOf var.m_val (writes x var.m_val.1 op)
  told : ∀ key, s'.toldTo x key = s.toldTo x key ++
    if key ∈ var.m_cbs.keys then changes var.m_val (writes x var.m_val.1 op) else []
  cbs : ∀ key, key ∈ var'.m_cbs.keys ↔ key ∈ var.m_cbs.keys ∧ keeps x key op = true ∨
    (∃ cb, op = .addListener x cb) ∧ key = (s.s_fun_id var.m_val.1 + 1) % 2 ^ 64

theorem Wrote.stepped {s' : Program c} {var : Var c} {op : Op c}
    (h : Wrote x (writes x var.m_val.1 op) s s') (hvar : s.s_data x = some var)
    (hkeeps : ∀ key, keeps x key op = true) (hop : ¬ ∃ cb, op = .addListener x cb) :
    Stepped x op s var s' { var with m_val := lastOf var.m_val (writes x var.m_val.1 op) } where
  data := (h.present var hvar).1
  val := rfl
  told := (h.present var hvar).2
  cbs key := by simp [hkeeps, hop]

/-- The step is about another variable, or finds none. -/
theorem stepped_other {s' : Program c} {var : Var c} {op : Op c} (hvar : s.s_data x = some var)
    (hdata : s'.s_data x = s.s_data x) (htold : s'.told = s.told)
    (hwrites : writes x var.m_val.1 op = []) (hkeeps : ∀ key, keeps x key op = true)
    (hop : ¬ ∃ cb, op = .addListener x cb) : Stepped x op s var s' var where
  data := hdata.trans hvar
  val := by
    rw [hwrites]
    rfl
  told key := by
    rw [hwrites, toldTo, htold]
    simp [toldTo, changes]
  cbs key := by simp [hkeeps, hop]

/-- The listeners of the variable change. -/
theorem stepped_cbs {s' : Program c} {var : Var c} {m_cbs : Keys} {cb : Nat → on_change_cb c}
    {op : Op c} (hdata : s'.s_data x = some { var with m_cbs := m_cbs, cb := cb })
    (htold : s'.told = s.told)
    (hwrites : writes x var.m_val.1 op = [])
    (hcbs : ∀ key, key ∈ m_cbs.keys ↔ key ∈ var.m_cbs.keys ∧ keeps x key op = true ∨
      (∃ cb, op = .addListener x cb) ∧ key = (s.s_fun_id var.m_val.1 + 1) % 2 ^ 64) :
    Stepped x op s var s' { var with m_cbs := m_cbs, cb := cb } where
  data := hdata
  val := by
    rw [hwrites]
    rfl
  told key := by
    rw [hwrites, toldTo, htold]
    simp [toldTo, changes]
  cbs := hcbs

theorem step_stepped {var : Var c} (op : Op c) (hx : validName x = true) (hq : (s.step op).Quiet)
    (hvar : s.s_data x = some var) : ∃ var', Stepped x op s var (s.step op) var' := by
  have ht : s.HasType x var.m_val.1 := by
    intro var' hvar'
    rw [hvar, Option.some.injEq] at hvar'
    rw [hvar']
  cases op with
  | setValue name v => exact ⟨_, (setValue_wrote name v ht hq).stepped hvar (fun _ => rfl) (by simp)⟩
  | fromString name value =>
    exact ⟨_, (fromString_wrote name value ht hq).stepped hvar (fun _ => rfl) (by simp)⟩
  | LoadFromYaml rootNode =>
    exact ⟨_, (load_wrote rootNode hx ht hq).stepped hvar (fun _ => rfl) (by simp)⟩
  | Lookup name v d =>
    simp only [step, Lookup]
    split
    · exact ⟨var, stepped_other hvar rfl rfl rfl (fun _ => rfl) (by simp)⟩
    · rename_i hnone
      have hne : x ≠ name := by
        rintro rfl
        rw [hnone] at hvar
        cases hvar
      split
      · exact ⟨var, stepped_other hvar (Function.update_of_ne hne _ _) rfl rfl (fun _ => rfl) (by simp)⟩
      · exact ⟨var, stepped_other hvar rfl rfl rfl (fun _ => rfl) (by simp)⟩
  | addListener name cb =>
    simp only [step, addListener]
    by_cases hname : name = x
    · subst hname
      rw [hvar]
      refine ⟨_, stepped_cbs (Function.update_self ..) rfl rfl fun key => ?_⟩
      rw [Keys.mem_insert]
      simp [keeps, or_comm]
    · have hop : ¬ ∃ cb', (Op.addListener name cb : Op c) = .addListener x cb' := by simp [hname]
      refine ⟨var, stepped_other hvar ?_ ?_ rfl (fun _ => rfl) hop⟩
      · cases s.s_data name with
        | none => rfl
        | some var' => exact Function.update_of_ne (Ne.symm hname) _ _
      · cases s.s_data name <;> rfl
  | delListener name k =>
    simp only [step, delListener]
    by_cases hname : name = x
    · subst hname
      rw [hvar]
      refine ⟨_, stepped_cbs (Function.update_self ..) rfl rfl fun key => ?_⟩
      rw [Keys.mem_erase, ne_comm]
      simp [keeps]
    · have hkeeps (key : Nat) : keeps x key (.delListener name k : Op c) = true := by
        simp [keeps, hname]
      cases s.s_data name with
      | none => exact ⟨var, stepped_other hvar rfl rfl rfl hkeeps (by simp)⟩
      | some var' =>
        exact ⟨var, stepped_other hvar (Function.update_of_ne (Ne.symm hname) _ _) rfl rfl hkeeps
          (by simp)⟩
  | clearListener name =>
    simp only [step, clearListener]
    by_cases hname : name = x
    · subst hname
      rw [hvar]
      refine ⟨_, stepped_cbs (Function.update_self ..) rfl rfl fun key => ?_⟩
      simp [keeps, Keys.empty]
    · have hkeeps (key : Nat) : keeps x key (.clearListener name : Op c) = true := by
        simp [keeps, hname]
      cases s.s_data name with
      | none => exact ⟨var, stepped_other hvar rfl rfl rfl hkeeps (by simp)⟩
      | some var' =>
        exact ⟨var, stepped_other hvar (Function.update_of_ne (Ne.symm hname) _ _) rfl rfl hkeeps
          (by simp)⟩

/-- Nobody is told of a variable that there is not. -/
theorem step_told_absent (op : Op c) (h : s.s_data x = none) (key : Nat) :
    (s.step op).toldTo x key = s.toldTo x key := by
  cases op with
  | setValue name v => exact (setValue_absent name v h).told key
  | fromString name value => exact (fromString_absent name value h).told key
  | LoadFromYaml rootNode => exact (load_absent rootNode h).told key
  | Lookup name v d =>
    simp only [step, Lookup]
    split
    · rfl
    · split <;> rfl
  | addListener name cb =>
    simp only [step, addListener]
    cases s.s_data name <;> rfl
  | delListener name k =>
    simp only [step, delListener]
    split <;> rfl
  | clearListener name =>
    simp only [step, clearListener]
    split <;> rfl

/-- The keys above `s_fun_id` have not been given out. -/
structure Issued (x : String) (s : Program c) : Prop where
  valid : ∀ var, s.s_data x = some var → validName x = true
  absent : s.s_data x = none → ∀ key, s.toldTo x key = []
  fresh : ∀ var, s.s_data x = some var → ∀ key, s.s_fun_id var.m_val.1 < key →
    key ∉ var.m_cbs.keys ∧ s.toldTo x key = []

theorem issued_step (op : Op c) (h : Issued x s) (hq : (s.step op).Quiet)
    (hid : ∀ τ, s.s_fun_id τ + adds [op] < 2 ^ 64) : Issued x (s.step op) := by
  cases hdata : s.s_data x with
  | none =>
    have htold (key : Nat) : (s.step op).toldTo x key = [] := by
      rw [step_told_absent op hdata, h.absent hdata]
    by_cases hreg : ∃ v d, op = .Lookup x v d ∧ validName x = true
    · obtain ⟨v, d, rfl, hvalid⟩ := hreg
      refine ⟨fun _ _ => hvalid, fun _ => htold, fun var hvar key _ => ⟨?_, htold key⟩⟩
      simp only [step, Lookup, hdata, hvalid, if_true, Function.update_self, Option.some.injEq]
        at hvar
      subst hvar
      exact List.not_mem_nil
    · have hnone : (s.step op).s_data x = none := by
        refine Option.map_eq_none_iff.mp (step_held_none op (Option.map_eq_none_iff.mpr hdata) ?_)
        exact fun v d hop hvalid => hreg ⟨v, d, hop, hvalid⟩
      refine ⟨fun var hvar => ?_, fun _ => htold, fun var hvar => ?_⟩
      · rw [hnone] at hvar
        cases hvar
      · rw [hnone] at hvar
        cases hvar
  | some var =>
    have hvalid := h.valid var hdata
    obtain ⟨var', hs⟩ := step_stepped op hvalid hq hdata
    refine ⟨fun _ _ => hvalid, fun hnone => ?_, fun var'' hvar key hlt => ?_⟩
    · rw [hs.data] at hnone
      cases hnone
    · rw [hs.data, Option.some.injEq] at hvar
      subst hvar
      have htype : var'.m_val.1 = var.m_val.1 := by
        rw [hs.val]
        rcases lastOf_mem var.m_val (writes x var.m_val.1 op) with heq | hmem
        · rw [heq]
        · exact writes_type op _ hmem
      have hmono := (step_fun_id s op var.m_val.1 (hid _)).1
      rw [htype] at hlt
      obtain ⟨hnot, htold⟩ := h.fresh var hdata key (by omega)
      refine ⟨fun hmem => ?_, ?_⟩
      · rcases (hs.cbs key).mp hmem with ⟨hmem, -⟩ | ⟨⟨cb, rfl⟩, hkey⟩
        · exact hnot hmem
        · have hnext : (s.step (.addListener x cb)).s_fun_id var.m_val.1 =
              (s.s_fun_id var.m_val.1 + 1) % 2 ^ 64 := by
            simp [step, addListener, hdata]
          omega
      · rw [hs.told, htold, if_neg hnot, List.append_nil]

omit [DecidableEq c.Ty] [∀ τ, DecidableEq (c.El τ)] in
theorem adds_cons (op : Op c) (ops : List (Op c)) : adds (op :: ops) = adds [op] + adds ops := by
  cases op <;> simp [adds, Nat.add_comm]

theorem issued_run (ops : List (Op c)) (h : Issued x s) (hq : (s.run ops).Quiet)
    (hid : ∀ τ, s.s_fun_id τ + adds ops < 2 ^ 64) :
    Issued x (s.run ops) ∧ ∀ τ, (s.run ops).s_fun_id τ ≤ s.s_fun_id τ + adds ops := by
  induction ops generalizing s with
  | nil => exact ⟨h, fun τ => Nat.le_add_right _ _⟩
  | cons op ops ih =>
    simp only [adds_cons op ops] at hid ⊢
    have hstep (τ : c.Ty) := step_fun_id s op τ (by have := hid τ; omega)
    have hfirst := issued_step op h hq.step_of_run fun τ => by have := hid τ; omega
    obtain ⟨hissued, hle⟩ := ih hfirst hq fun τ => by have := hid τ; have := hstep τ; omega
    refine ⟨hissued, fun τ => ?_⟩
    have hle := hle τ
    have hstep := hstep τ
    change ((s.step op).run ops).s_fun_id τ ≤ _
    omega

/-- The key has been given out, and whether its listener is still there. -/
structure Listens (x : String) (key : Nat) (live : Bool) (s : Program c) (var : Var c) : Prop where
  data : s.s_data x = some var
  le : key ≤ s.s_fun_id var.m_val.1
  mem : key ∈ var.m_cbs.keys ↔ live = true

omit [∀ τ, DecidableEq (c.El τ)] in
/-- What removes a listener writes nothing. -/
theorem writes_of_not_keeps {op : Op c} {key : Nat} (h : keeps x key op = false) (τ : c.Ty) :
    writes x τ op = [] := by
  cases op with
  | delListener | clearListener => rfl
  | Lookup | setValue | fromString | LoadFromYaml | addListener => cases h

theorem run_told {key : Nat} {live : Bool} {var : Var c} (ops : List (Op c)) (hx : validName x = true)
    (h : Listens x key live s var) (hq : (s.run ops).Quiet)
    (hid : s.s_fun_id var.m_val.1 + adds ops < 2 ^ 64) :
    (s.run ops).toldTo x key = s.toldTo x key ++ if live then changes var.m_val
      ((ops.takeWhile (keeps x key)).flatMap (writes x var.m_val.1)) else [] := by
  induction ops generalizing s var live with
  | nil => simp [run, changes]
  | cons op ops ih =>
    obtain ⟨var', hs⟩ := step_stepped op hx hq.step_of_run h.data
    rw [adds_cons] at hid
    have hstep := step_fun_id s op var.m_val.1 (by omega)
    have htype : var'.m_val.1 = var.m_val.1 := by
      rw [hs.val]
      rcases lastOf_mem var.m_val (writes x var.m_val.1 op) with heq | hmem
      · rw [heq]
      · exact writes_type op _ hmem
    have hle := h.le
    have hnext : Listens x key (live && keeps x key op) (s.step op) var' := by
      refine ⟨hs.data, by rw [htype]; omega, ?_⟩
      rw [hs.cbs, h.mem, Bool.and_eq_true, or_iff_left]
      -- the next key is another one
      rintro ⟨⟨cb, rfl⟩, hkey⟩
      simp only [adds] at hid
      omega
    have hrest := ih hnext hq (by rw [htype]; omega)
    rw [htype, hs.told, List.append_assoc] at hrest
    refine hrest.trans (congrArg (s.toldTo x key ++ ·) ?_)
    simp only [h.mem]
    cases hlive : live with
    | false => simp
    | true =>
      cases hkeep : keeps x key op with
      | false => simp [hkeep, writes_of_not_keeps hkeep, changes]
      | true => simp [hkeep, changes_append, hs.val]

omit [∀ τ, DecidableEq (c.El τ)] in
theorem addListener_spec {s' : Program c} {key : Nat} {cb : on_change_cb c} {var : Var c}
    (hvar : s.s_data x = some var) (h : s.addListener x cb = some (key, s')) :
    key = (s.s_fun_id var.m_val.1 + 1) % 2 ^ 64 ∧
      s'.s_data x = some { var with
        m_cbs := var.m_cbs.insert key
        cb := Function.update var.cb key cb } ∧
      s'.s_fun_id var.m_val.1 = key ∧ s'.told = s.told := by
  rw [addListener, hvar, Option.map_some, Option.some.injEq, Prod.mk.injEq] at h
  obtain ⟨rfl, rfl⟩ := h
  exact ⟨rfl, Function.update_self .., Function.update_self .., rfl⟩

/-- Where no listener has thrown, a listener has been told of the changes of the value from
`addListener` to its removal: all of them, once each and in order. -/
theorem listener_law (pre post : List (Op c)) (x : String) (key : Nat) (cb : on_change_cb c)
    (s : Program c) (var : Var c) (hvar : ((empty : Program c).run pre).s_data x = some var)
    (hadd : ((empty : Program c).run pre).addListener x cb = some (key, s))
    (hq : (s.run post).Quiet) (hadds : adds pre + adds post + 1 < 2 ^ 64) :
    (s.run post).toldTo x key = changes var.m_val
      ((post.takeWhile (keeps x key)).flatMap (writes x var.m_val.1)) := by
  have hempty : Issued x (empty : Program c) := ⟨nofun, fun _ _ => rfl, nofun⟩
  obtain ⟨hkey, hdata, hnext, htold⟩ := addListener_spec hvar hadd
  have hpre : ((empty : Program c).run pre).Quiet :=
    (hq.mono (run_tells s post)).mono (by rw [htold])
  obtain ⟨hissued, hid⟩ := issued_run pre hempty hpre fun τ => by
    have : (empty : Program c).s_fun_id τ = 0 := rfl
    omega
  have hcount : ((empty : Program c).run pre).s_fun_id var.m_val.1 ≤ adds pre := by
    have hle := hid var.m_val.1
    have hzero : (empty : Program c).s_fun_id var.m_val.1 = 0 := rfl
    omega
  rw [Nat.mod_eq_of_lt (by omega)] at hkey
  have hlistens : Listens x key true s { var with
      m_cbs := var.m_cbs.insert key
      cb := Function.update var.cb key cb } :=
    ⟨hdata, Nat.le_of_eq hnext.symm, iff_of_true (Keys.mem_insert.mpr (.inl rfl)) rfl⟩
  have hnone : s.toldTo x key = [] := by
    rw [toldTo, htold]
    exact (hissued.fresh var hvar key (by omega)).2
  have hrun := run_told post (hissued.valid var hvar) hlistens hq (by simp only [hnext]; omega)
  rw [hnone] at hrun
  exact hrun

end Listeners

/-- The first load comes before the variable. -/
def before : List (Op numbers) := [.LoadFromYaml twoPorts, .Lookup "port" (number 80) ""]

def after : List (Op numbers) :=
  [.LoadFromYaml twoPorts, .setValue "port" (number 2), .delListener "port" 9,
    .setValue "port" (number 7), .delListener "port" 1, .setValue "port" (number 13)]

theorem listener_law_ports : ∃ s, ((empty : Program numbers).run before).addListener "port" no13 =
      some (1, s) ∧
    (s.run after).toldTo "port" 1 =
      [(number 80, number 1), (number 1, number 2), (number 2, number 7)] := by
  have hnext : ((((empty : Program numbers).run before).addListener "port" no13).map fun r =>
      (r.1, decide (r.2.run after).Quiet)) = some (1, true) := by
    decide +kernel
  have hheld : ((empty : Program numbers).run before).held "port" = some (number 80, "") := by
    decide +kernel
  obtain ⟨⟨key, s⟩, hadd, hnext⟩ := Option.map_eq_some_iff.mp hnext
  obtain ⟨var, hvar, hval⟩ := Option.map_eq_some_iff.mp hheld
  obtain ⟨rfl, hq⟩ := Prod.mk.inj hnext
  have hlaw := listener_law before after "port" 1 no13 s var hvar hadd (of_decide_eq_true hq)
    (by decide)
  refine ⟨s, hadd, hlaw.trans ?_⟩
  rw [show var.m_val = number 80 from congrArg Prod.fst hval]
  decide +kernel

end Ppcode.Config.Program
