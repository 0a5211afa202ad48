import Ppcode.Log.Logger

/-!
# Which formatter an appender writes with

By its comments an appender has a formatter of its own, if the user has given it
one, and uses its logger's otherwise. The code keeps one flag, `m_hasFormatter`,
for both: `addAppender` sets it when it hands the logger's formatter on, and
`Logger::setFormatter` overwrites the formatter of each appender that has one.

* `inherits_iff`: along a sequence of operations every appender writes with the
  formatter it should, if and only if no `Logger::setFormatter` meets an appender
  with another formatter of its own, and no appender is added that an earlier
  logger has left a formatter other than the new one's.
* `own_overwritten`: a formatter of the appender's own is lost.
-/
namespace Ppcode.Logs
variable {F : Type}

inductive Op (F : Type) where
  | addAppender (l a : Nat)
  | delAppender (l a : Nat)
  | clearAllAppenders (l : Nat)
  | setFormatter (l : Nat) (value : Option F)
  | setAppenderFormatter (a : Nat) (value : Option F)
  deriving DecidableEq, Repr

def Op.run (s : Logs F) : Op F → Logs F
  | .addAppender l a => s.addAppender l a
  | .delAppender l a => s.delAppender l a
  | .clearAllAppenders l => s.clearAllAppenders l
  | .setFormatter l value => s.setFormatter l value
  | .setAppenderFormatter a value => s.setAppenderFormatter a value

def run (s : Logs F) (ops : List (Op F)) : Logs F := ops.foldl Op.run s

/-- What the user has last passed to `setFormatter` of the appender. -/
def lastSet (ops : List (Op F)) (a : Nat) : Option (Option F) :=
  ops.foldl (fun last op => match op with
    | .setAppenderFormatter b value => if b = a then some value else last
    | _ => last) none

/-- No appender is in the lists of two loggers. -/
def AtMostOne (s : Logs F) : Prop :=
  ∀ a l l', a ∈ (s.loggers l).m_appenders → a ∈ (s.loggers l').m_appenders → l = l'

/-- Every appender writes with the formatter it should, after `ops`. -/
structure Inherits (ops : List (Op F)) (s : Logs F) : Prop where
  own : ∀ a f, lastSet ops a = some (some f) → ∀ logger,
    (s.appenders a).formatterFor logger = some f
  inherited : ∀ a l, lastSet ops a = none → a ∈ (s.loggers l).m_appenders →
    (s.appenders a).formatterFor (s.loggers l) = (s.loggers l).m_formatter

/-- The operations that keep it so. -/
def Allowed (ops : List (Op F)) (s : Logs F) : Op F → Prop
  | .setFormatter l value =>
    ∀ a ∈ (s.loggers l).m_appenders, ∀ f, lastSet ops a = some (some f) → value = some f
  | .addAppender l a =>
    lastSet ops a = none → ∀ f, (s.appenders a).m_formatter = some f →
      (s.loggers l).m_formatter = some f
  | _ => True

/-- No operation has been done yet. -/
structure Fresh (s : Logs F) : Prop where
  empty : ∀ l, (s.loggers l).m_appenders = []
  unset : ∀ a, (s.appenders a).m_formatter = none ∧ (s.appenders a).m_hasFormatter = false

/-! ## The flag -/

/-- The flag says whether there is a formatter. -/
def Flagged (s : Logs F) : Prop :=
  ∀ a, (s.appenders a).m_hasFormatter = (s.appenders a).m_formatter.isSome

theorem flagged_setAppender {s : Logs F} (h : Flagged s) (a : Nat) (v : Option F) :
    Flagged (s.setAppender a ((s.appenders a).setFormatter v)) := by
  intro b
  by_cases hb : b = a
  · subst hb
    simp
  · rw [setAppender_of_ne _ _ hb]
    exact h b

theorem Flagged.run {s : Logs F} (h : Flagged s) (op : Op F) : Flagged (op.run s) := by
  cases op with
  | addAppender l a =>
    intro b
    rw [Op.run, addAppender_appenders]
    by_cases hb : b = a
    · subst hb
      rw [Function.update_self, inherit]
      split
      · rfl
      · exact h b
    · rw [Function.update_of_ne hb]
      exact h b
  | delAppender l a => exact h
  | clearAllAppenders l => exact h
  | setFormatter l v =>
    intro b
    rw [Op.run, Logs.setFormatter, setFormatters_appenders]
    split
    · rfl
    · exact h b
  | setAppenderFormatter a v => exact flagged_setAppender h a v

/-- With the flag right, an appender writes with its formatter or, without one, with
its logger's. -/
theorem formatterFor_eq {s : Logs F} (h : Flagged s) (a : Nat) (logger : Logger F) :
    (s.appenders a).formatterFor logger = (s.appenders a).m_formatter.or logger.m_formatter := by
  rw [Appender.formatterFor, h a]
  cases (s.appenders a).m_formatter <;> rfl

/-- `Inherits` in terms of the members `m_formatter`. -/
structure Right (ops : List (Op F)) (s : Logs F) : Prop where
  own : ∀ a f, lastSet ops a = some (some f) → (s.appenders a).m_formatter = some f
  inherited : ∀ a l f, lastSet ops a = none → a ∈ (s.loggers l).m_appenders →
    (s.appenders a).m_formatter = some f → (s.loggers l).m_formatter = some f

theorem inherits_iff_right {s : Logs F} (h : Flagged s) (ops : List (Op F)) :
    Inherits ops s ↔ Right ops s := by
  constructor
  · intro hi
    refine ⟨fun a f ha => ?_, fun a l f ha hl hf => ?_⟩
    · have hw := hi.own a f ha ⟨[], "", .DEBUG, none⟩
      rw [formatterFor_eq h] at hw
      simpa using hw
    · have hw := hi.inherited a l ha hl
      rw [formatterFor_eq h, hf] at hw
      exact hw.symm
  · intro hr
    refine ⟨fun a f ha logger => ?_, fun a l ha hal => ?_⟩
    · rw [formatterFor_eq h, hr.own a f ha]
      rfl
    · rw [formatterFor_eq h]
      cases hf : (s.appenders a).m_formatter with
      | none => rfl
      | some f => exact (hr.inherited a l f ha hal hf).symm

/-! ## One operation -/

theorem lastSet_concat (ops : List (Op F)) (op : Op F) (a : Nat) : lastSet (ops ++ [op]) a =
    match op with
    | .setAppenderFormatter b value => if b = a then some value else lastSet ops a
    | _ => lastSet ops a := by
  rw [lastSet, List.foldl_append]
  cases op <;> rfl

theorem right_addAppender {ops : List (Op F)} {s : Logs F} {l a : Nat} (hr : Right ops s)
    (hone : AtMostOne (s.addAppender l a)) :
    Right (ops ++ [.addAppender l a]) (s.addAppender l a) ↔ Allowed ops s (.addAppender l a) := by
  have hlog : ((s.addAppender l a).loggers l).m_appenders = (s.loggers l).m_appenders ++ [a] := by
    rw [addAppender_loggers, Function.update_self]
  have hfmt (l' : Nat) : ((s.addAppender l a).loggers l').m_formatter =
      (s.loggers l').m_formatter := by
    rw [addAppender_loggers]
    by_cases h : l' = l
    · rw [h, Function.update_self]
    · rw [Function.update_of_ne h]
  have hmem {a' l' : Nat} (h : a' ∈ ((s.addAppender l a).loggers l').m_appenders) :
      a' ∈ (s.loggers l').m_appenders ∨ a' = a ∧ l' = l := by
    by_cases hl : l' = l
    · subst hl
      rw [hlog, List.mem_append, List.mem_singleton] at h
      exact h.imp id fun h => ⟨h, rfl⟩
    · rw [addAppender_loggers, Function.update_of_ne hl] at h
      exact .inl h
  have hin : a ∈ ((s.addAppender l a).loggers l).m_appenders := by simp [hlog]
  constructor
  · intro h hnever f hf
    have happ : ((s.addAppender l a).appenders a).m_formatter = some f := by
      rw [addAppender_appenders, Function.update_self, inherit, hf]
      simpa using hf
    have hset := h.inherited a l f (by rw [lastSet_concat]; exact hnever) hin happ
    rwa [hfmt] at hset
  · intro hallowed
    refine ⟨fun a' f ha => ?_, fun a' l' f ha hal hf => ?_⟩
    · rw [lastSet_concat] at ha
      have hown := hr.own a' f ha
      rw [addAppender_appenders]
      by_cases h : a' = a
      · subst h
        simp [inherit, hown]
      · rw [Function.update_of_ne h, hown]
    · rw [lastSet_concat] at ha
      rw [hfmt]
      rw [addAppender_appenders] at hf
      by_cases h : a' = a
      · subst h
        obtain rfl := hone a' l' l hal hin
        rw [Function.update_self, inherit] at hf
        split at hf
        · exact hf
        · exact hallowed ha f hf
      · rw [Function.update_of_ne h] at hf
        rcases hmem hal with hold | ⟨h', -⟩
        · exact hr.inherited a' l' f ha hold hf
        · exact absurd h' h

theorem right_setFormatter {ops : List (Op F)} {s : Logs F} {l : Nat} {v : Option F}
    (hflag : Flagged s) (hr : Right ops s) (hone : AtMostOne s) :
    Right (ops ++ [.setFormatter l v]) (s.setFormatter l v) ↔ Allowed ops s (.setFormatter l v) := by
  have happ (l' : Nat) : ((s.setFormatter l v).loggers l').m_appenders =
      (s.loggers l').m_appenders := by
    rw [Logs.setFormatter, setFormatters_loggers]
    by_cases h : l' = l
    · rw [h, setLogger_self]
    · rw [setLogger_of_ne _ _ h]
  have hfmt (a : Nat) : ((s.setFormatter l v).appenders a).m_formatter =
      if a ∈ (s.loggers l).m_appenders ∧ (s.appenders a).m_formatter.isSome = true then v
      else (s.appenders a).m_formatter := by
    rw [Logs.setFormatter, setFormatters_appenders, setLogger_appenders, hflag a]
    split <;> rfl
  constructor
  · intro h a hal f ha
    have hown := h.own a f (by rw [lastSet_concat]; exact ha)
    rwa [hfmt, if_pos ⟨hal, by rw [hr.own a f ha]; rfl⟩] at hown
  · intro hallowed
    refine ⟨fun a f ha => ?_, fun a l' f ha hal hf => ?_⟩
    · rw [lastSet_concat] at ha
      rw [hfmt]
      split
      · rename_i h
        exact hallowed a h.1 f ha
      · exact hr.own a f ha
    · rw [lastSet_concat] at ha
      rw [happ] at hal
      rw [hfmt] at hf
      rw [Logs.setFormatter, setFormatters_loggers]
      by_cases h : l' = l
      · subst h
        rw [setLogger_self]
        split at hf
        · exact hf
        · rename_i hn
          exact absurd ⟨hal, by rw [hf]; rfl⟩ hn
      · rw [setLogger_of_ne _ _ h]
        rw [if_neg fun hm => h (hone a l' l hal hm.1)] at hf
        exact hr.inherited a l' f ha hal hf

/-- Taking appenders out of a list. -/
theorem right_setLogger {ops : List (Op F)} {s : Logs F} {l : Nat} (as : List Nat)
    (hr : Right ops s) (hsub : ∀ a ∈ as, a ∈ (s.loggers l).m_appenders) :
    Right ops (s.setLogger l { s.loggers l with m_appenders := as }) := by
  refine ⟨hr.own, fun a l' f ha hal hf => ?_⟩
  by_cases h : l' = l
  · subst h
    rw [setLogger_self] at hal ⊢
    exact hr.inherited a l' f ha (hsub a hal) hf
  · rw [setLogger_of_ne _ _ h] at hal ⊢
    exact hr.inherited a l' f ha hal hf

theorem right_setAppenderFormatter {ops : List (Op F)} {s : Logs F} {a : Nat} {v : Option F}
    (hr : Right ops s) :
    Right (ops ++ [.setAppenderFormatter a v]) (s.setAppenderFormatter a v) := by
  refine ⟨fun a' f ha => ?_, fun a' l f ha hal hf => ?_⟩
  · rw [lastSet_concat] at ha
    by_cases h : a' = a
    · subst h
      simp only [if_pos, Option.some.injEq] at ha
      rw [setAppenderFormatter, setAppender_self, ha]
      rfl
    · simp only [if_neg (Ne.symm h)] at ha
      rw [setAppenderFormatter, setAppender_of_ne _ _ h]
      exact hr.own a' f ha
  · rw [lastSet_concat] at ha
    by_cases h : a' = a
    · subst h
      simp at ha
    · simp only [if_neg (Ne.symm h)] at ha
      rw [setAppenderFormatter, setAppender_of_ne _ _ h] at hf
      exact hr.inherited a' l f ha hal hf

theorem right_concat {ops : List (Op F)} {s : Logs F} {op : Op F} (hflag : Flagged s)
    (hr : Right ops s) (hone : AtMostOne s) (hone' : AtMostOne (op.run s)) :
    Right (ops ++ [op]) (op.run s) ↔ Allowed ops s op := by
  have hsame (h : ∀ b v, op ≠ .setAppenderFormatter b v) (a : Nat) :
      lastSet (ops ++ [op]) a = lastSet ops a := by
    rw [lastSet_concat]
    cases op <;> first | rfl | exact absurd rfl (h _ _)
  cases op with
  | addAppender l a => exact right_addAppender hr hone'
  | setFormatter l v => exact right_setFormatter hflag hr hone
  | setAppenderFormatter a v => exact iff_of_true (right_setAppenderFormatter hr) trivial
  | delAppender l a =>
    have hd := right_setLogger ((s.loggers l).m_appenders.erase a) hr fun b hb =>
      List.mem_of_mem_erase hb
    exact iff_of_true ⟨fun b f hb => hd.own b f (by rwa [hsame nofun] at hb),
      fun b l' f hb => hd.inherited b l' f (by rwa [hsame nofun] at hb)⟩ trivial
  | clearAllAppenders l =>
    have hd := right_setLogger (l := l) [] hr nofun
    exact iff_of_true ⟨fun b f hb => hd.own b f (by rwa [hsame nofun] at hb),
      fun b l' f hb => hd.inherited b l' f (by rwa [hsame nofun] at hb)⟩ trivial

/-! ## Sequences of operations -/

theorem run_concat (s : Logs F) (ops : List (Op F)) (op : Op F) :
    run s (ops ++ [op]) = op.run (run s ops) := by simp [run]

theorem Fresh.flagged {s : Logs F} (h : Fresh s) (ops : List (Op F)) : Flagged (run s ops) := by
  induction ops using List.reverseRecOn with
  | nil =>
    intro a
    have hu := h.unset a
    simp [run, hu.1, hu.2]
  | append_singleton ops op ih =>
    rw [run_concat]
    exact ih.run op

theorem Fresh.right {s : Logs F} (h : Fresh s) : Right [] (run s ([] : List (Op F))) := by
  refine ⟨fun a f ha => ?_, fun a l f _ hal => ?_⟩
  · cases ha
  · rw [run, List.foldl_nil, h.empty] at hal
    cases hal

/-- The operations meet the condition, each in the state it finds. -/
def AllAllowed (s : Logs F) (ops : List (Op F)) : Prop :=
  ∀ before op, before ++ [op] <+: ops → Allowed before (run s before) op

/-- Along a sequence of operations that never puts an appender into two lists: an
appender with a formatter of its own writes with the latest one, and an appender
without writes with the one of the logger it is attached to, if and only if every
operation is allowed. -/
theorem inherits_iff (s : Logs F) (ops : List (Op F)) (hs : Fresh s)
    (hone : ∀ before, before <+: ops → AtMostOne (run s before)) :
    (∀ before, before <+: ops → Inherits before (run s before)) ↔ AllAllowed s ops := by
  have hstep (before : List (Op F)) (op : Op F) (hpre : before ++ [op] <+: ops)
      (hr : Right before (run s before)) :
      Right (before ++ [op]) (run s (before ++ [op])) ↔ Allowed before (run s before) op := by
    have hone' := hone _ hpre
    rw [run_concat] at hone' ⊢
    exact right_concat (hs.flagged before) hr (hone before ((List.prefix_append _ _).trans hpre))
      hone'
  constructor
  · intro h before op hpre
    have hr := (inherits_iff_right (hs.flagged _) _).mp
      (h before ((List.prefix_append _ _).trans hpre))
    exact (hstep before op hpre hr).mp ((inherits_iff_right (hs.flagged _) _).mp (h _ hpre))
  · intro h before hpre
    rw [inherits_iff_right (hs.flagged _)]
    induction before using List.reverseRecOn with
    | nil => exact hs.right
    | append_singleton before op ih =>
      have hr := ih ((List.prefix_append _ _).trans hpre)
      exact (hstep before op hpre hr).mpr (h before op hpre)

/-- Loggers whose formatter is `l`, and appenders without one. -/
def fresh : Logs Nat := ⟨fun l => ⟨[], "", .DEBUG, some l⟩, fun _ => .new .console⟩

theorem fresh_fresh : Fresh fresh := ⟨fun _ => rfl, fun _ => ⟨rfl, rfl⟩⟩

/-- The operation adds to the list of the logger `l` only. -/
def Op.addsTo (l : Nat) : Op F → Bool
  | .addAppender l' _ => l' = l
  | _ => true

theorem run_empty {s : Logs F} (hs : Fresh s) (l : Nat) (ops : List (Op F))
    (h : ∀ op ∈ ops, op.addsTo l = true) {l' : Nat} (hl : l' ≠ l) :
    ((run s ops).loggers l').m_appenders = [] := by
  induction ops using List.reverseRecOn with
  | nil => exact hs.empty l'
  | append_singleton ops op ih =>
    have hold := ih fun op hop => h op (by simp [hop])
    have hop := h op (by simp)
    rw [run_concat]
    cases op with
    | addAppender l'' a =>
      have hl'' : l'' = l := by simpa [Op.addsTo] using hop
      rw [Op.run, addAppender_loggers, hl'', Function.update_of_ne hl]
      exact hold
    | delAppender l'' a =>
      by_cases hd : l' = l''
      · subst hd
        simp [Op.run, delAppender, hold]
      · rw [Op.run, delAppender, setLogger_of_ne _ _ hd, hold]
    | clearAllAppenders l'' =>
      by_cases hd : l' = l''
      · subst hd
        simp [Op.run, clearAllAppenders]
      · rw [Op.run, clearAllAppenders, setLogger_of_ne _ _ hd, hold]
    | setFormatter l'' v =>
      rw [Op.run, Logs.setFormatter, setFormatters_loggers]
      by_cases hd : l' = l''
      · subst hd
        simp [hold]
      · rw [setLogger_of_ne _ _ hd, hold]
    | setAppenderFormatter a v => exact hold

theorem atMostOne_run {s : Logs F} (hs : Fresh s) (l : Nat) (ops : List (Op F))
    (h : ∀ op ∈ ops, op.addsTo l = true) (before : List (Op F)) (hpre : before <+: ops) :
    AtMostOne (run s before) := by
  have hempty {l' : Nat} (hl : l' ≠ l) : ((run s before).loggers l').m_appenders = [] :=
    run_empty hs l before (fun op hop => h op (hpre.subset hop)) hl
  intro a l₁ l₂ h₁ h₂
  have hl {l' : Nat} (ha : a ∈ ((run s before).loggers l').m_appenders) : l' = l := by
    by_contra hne
    rw [hempty hne] at ha
    cases ha
  rw [hl h₁, hl h₂]

/-- An appender that is added, follows its logger, and is then given its own formatter. -/
def followed : List (Op Nat) :=
  [.addAppender 0 0, .setFormatter 0 (some 7), .setAppenderFormatter 0 (some 9)]

theorem inherits_followed :
    Fresh fresh ∧ ∀ before, before <+: followed → Inherits before (run fresh before) := by
  refine ⟨fresh_fresh, (inherits_iff fresh followed fresh_fresh
    (atMostOne_run fresh_fresh 0 followed (by decide))).mpr fun before op hpre => ?_⟩
  match before with
  | [] =>
    obtain rfl : op = .addAppender 0 0 := by simpa [followed] using hpre
    intro _ f hf
    cases hf
  | [_] =>
    obtain ⟨rfl, rfl⟩ : _ ∧ op = .setFormatter 0 (some 7) := by simpa [followed] using hpre
    intro a _ f ha
    cases ha
  | [_, _] =>
    obtain ⟨-, -, rfl⟩ : _ ∧ _ ∧ op = .setAppenderFormatter 0 (some 9) := by
      simpa [followed] using hpre
    trivial
  | _ :: _ :: _ :: _ => simp [followed] at hpre

/-- An appender is given the formatter 1 and added to a logger; then the logger is
given the formatter 2. -/
def overwriting : List (Op Nat) :=
  [.setAppenderFormatter 0 (some 1), .addAppender 0 0, .setFormatter 0 (some 2)]

theorem own_overwritten :
    (∀ before, before <+: overwriting → AtMostOne (run fresh before)) ∧
    ¬ ∀ before, before <+: overwriting → Inherits before (run fresh before) := by
  refine ⟨atMostOne_run fresh_fresh 0 overwriting (by decide), fun h => ?_⟩
  have hown := (h overwriting (List.prefix_refl _)).own 0 1 rfl ⟨[], "", .DEBUG, none⟩
  exact absurd hown (by decide)

end Ppcode.Logs
