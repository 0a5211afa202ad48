import Mathlib.Data.List.Infix
import Ppcode.Fiber.FdManager

/-!
# `O_NONBLOCK` of a managed socket

The scheduler needs the kernel's `O_NONBLOCK` on every socket it manages, and the
user must not notice. `FdCtx::init` sets the flag; `fcntl(F_SETFL)` keeps it and
remembers what the user asked for; `fcntl(F_GETFL)` answers with that. But
`ioctl(FIONBIO)` remembers it and then passes the user's value on to the kernel.

* `virtualised_iff`: the calls keep the kernel's flag, and `F_GETFL` answers as
  the user expects, in every state of a sequence of calls, if and only if none of
  them is a `FIONBIO` with the value 0.
* `blocking_again`: such a call clears the flag.
-/
namespace Ppcode.FdManager

/-- A call on the socket. -/
inductive Op where
  | F_SETFL (arg : Flags)
  | F_GETFL
  | fionbio (v : BitVec 32)
  deriving DecidableEq, Repr

/-- The state after a successful call. -/
def Op.run (depth : Nat) (fd : Nat) (w : FdManager) : Op → Option FdManager
  | .F_SETFL arg => (w.fcntl depth fd (.F_SETFL arg) true).map (·.1)
  | .F_GETFL => (w.fcntl depth fd .F_GETFL true).map (·.1)
  | .fionbio v => (w.ioctl depth fd v true).map (·.1)

/-- The state after a sequence of successful calls. -/
def after (depth : Nat) (fd : Nat) (w : FdManager) (ops : List Op) : Option FdManager :=
  ops.foldlM (Op.run depth fd) w

/-- The argument of the last `F_SETFL`. -/
def lastSetfl (ops : List Op) : Option Flags :=
  ops.foldl (fun last op => match op with | .F_SETFL arg => some arg | _ => last) none

/-- The value of `O_NONBLOCK` that the user has requested last. -/
def requested (ops : List Op) : Bool :=
  ops.foldl (fun last op => match op with
    | .F_SETFL arg => arg.nonblock
    | .fionbio v => v != 0
    | .F_GETFL => last) false

/-- The flags of `f`, those of the last `F_SETFL` where there was one. -/
def flagsSet (f : File) (ops : List Op) : Flags :=
  match lastSetfl ops with
  | some arg => (f.setfl arg).flags
  | none => f.flags

/-- The two properties of one state, reached by `ops` from a file `f`. -/
structure Virtual (depth : Nat) (fd : Nat) (f : File) (ops : List Op) (w : FdManager) : Prop where
  /-- the kernel's flag is set where the scheduler has set it -/
  kept : ∀ ctx, w.entry fd = some ctx → ctx.m_sysNonblock = true →
    ∃ g, w.files fd = some g ∧ g.flags.nonblock = true
  /-- what `F_GETFL` returns -/
  shown : (w.fcntl depth fd .F_GETFL true).map (·.2) =
    some (Flags.withNonblock (flagsSet f ops) (requested ops))

/-! ## The state after a sequence of calls -/

/-- The kernel's `O_NONBLOCK`. -/
def kernelBit (ops : List Op) : Bool :=
  ops.foldl (fun last op => match op with
    | .F_SETFL _ => true
    | .fionbio v => v != 0
    | .F_GETFL => last) true

theorem requested_concat (ops : List Op) (op : Op) : requested (ops ++ [op]) =
    match op with
    | .F_SETFL arg => arg.nonblock
    | .fionbio v => v != 0
    | .F_GETFL => requested ops := by
  rw [requested, List.foldl_append]
  rfl

theorem kernelBit_concat (ops : List Op) (op : Op) : kernelBit (ops ++ [op]) =
    match op with
    | .F_SETFL _ => true
    | .fionbio v => v != 0
    | .F_GETFL => kernelBit ops := by
  rw [kernelBit, List.foldl_append]
  rfl

theorem flagsSet_concat (f : File) (ops : List Op) (op : Op) : flagsSet f (ops ++ [op]) =
    match op with
    | .F_SETFL arg => (f.setfl arg).flags
    | .fionbio _ | .F_GETFL => flagsSet f ops := by
  unfold flagsSet lastSetfl
  rw [List.foldl_append]
  cases op <;> rfl

/-- The file and the entry after `ops`. -/
structure Tracks (fd : Nat) (f : File) (ops : List Op) (w : FdManager) : Prop where
  lt : fd < w.m_datas.length
  entry : w.entry fd = some { FdCtx.fresh fd true with m_userNonblock := requested ops }
  file : w.files fd = some { f with
    flags := Flags.withNonblock (flagsSet f ops) (kernelBit ops) }

theorem File.setfl_flagsSet (f : File) (arg : Flags) (ops : List Op) (b : Bool)
    (hset : f.settable.nonblock = true) :
    (File.setfl { f with flags := Flags.withNonblock (flagsSet f ops) b }
      (arg ||| O_NONBLOCK)).flags =
    Flags.withNonblock (f.setfl arg).flags true := by
  rw [Flags.nonblock_eq] at hset
  apply BitVec.eq_of_getLsbD_eq
  intro i hi
  rw [Flags.getLsbD_withNonblock]
  simp only [File.setfl, BitVec.getLsbD_or, BitVec.getLsbD_and, BitVec.getLsbD_not,
    Flags.getLsbD_withNonblock, Flags.getLsbD_O_NONBLOCK, hi]
  by_cases h : i = 11
  · subst h
    simp [hset]
  · cases hs : f.settable.getLsbD i with
    | true => simp [h]
    | false =>
      cases hl : lastSetfl ops with
      | none => simp [h, flagsSet, hl]
      | some a =>
        have hs' : f.settable[i] = false := hs
        simp [h, flagsSet, hl, File.setfl, hs', hi]

theorem Tracks.fcntl_getfl {fd d : Nat} {f : File} {ops : List Op} {w : FdManager}
    (h : Tracks fd f ops w) : w.fcntl (d + 1) fd .F_GETFL true =
      some (w, Flags.withNonblock (flagsSet f ops) (requested ops)) := by
  have hget : w.fcntl_f fd .F_GETFL true =
      (w, Flags.withNonblock (flagsSet f ops) (kernelBit ops)) := by simp [fcntl_f, h.file]
  simp only [fcntl, fcntlWith, hget, get_read h.lt, h.entry, Option.bind_eq_bind, Option.bind_some]
  rw [if_neg (by simp [FdCtx.ignored, FdCtx.fresh])]
  have hview (b b' : Bool) : Flags.withNonblock (Flags.withNonblock (flagsSet f ops) b) b' =
      Flags.withNonblock (flagsSet f ops) b' := Flags.withNonblock_withNonblock _ _ _
  cases hr : requested ops with
  | true =>
    rw [if_pos rfl, ← hview (kernelBit ops) true]
    rfl
  | false =>
    rw [if_neg (by simp), ← hview (kernelBit ops) false]
    rfl

theorem Tracks.run {fd d : Nat} {f : File} {ops : List Op} {w : FdManager}
    (hset : f.settable.nonblock = true) (h : Tracks fd f ops w) (op : Op) :
    ∃ w', op.run (d + 1) fd w = some w' ∧ Tracks fd f (ops ++ [op]) w' := by
  cases op with
  | F_GETFL =>
    refine ⟨w, by simp [Op.run, h.fcntl_getfl], h.lt, ?_, ?_⟩
    · rw [h.entry, requested_concat]
    · rw [h.file, flagsSet_concat, kernelBit_concat]
  | F_SETFL arg =>
    have hrun : (Op.F_SETFL arg).run (d + 1) fd w = some ((w.setEntry fd
        (some { FdCtx.fresh fd true with m_userNonblock := arg.nonblock })).setFile fd
        (some (File.setfl { f with flags := Flags.withNonblock (flagsSet f ops) (kernelBit ops) }
          (arg ||| O_NONBLOCK)))) := by
      simp [Op.run, fcntl, fcntlWith, get_read h.lt, h.entry, FdCtx.ignored, FdCtx.fresh, fcntl_f,
        h.file]
    refine ⟨_, hrun, by simpa using h.lt, ?_, ?_⟩
    · rw [setFile_entry, setEntry_entry_self _ h.lt, requested_concat]
    · rw [setFile_files_self, flagsSet_concat, kernelBit_concat]
      simp only
      rw [← File.setfl_flagsSet f arg ops (kernelBit ops) hset]
      rfl
  | fionbio v =>
    have hrun : (Op.fionbio v).run (d + 1) fd w = some ((w.setEntry fd
        (some { FdCtx.fresh fd true with m_userNonblock := v != 0 })).setFile fd
        (some (File.fionbio { f with flags := Flags.withNonblock (flagsSet f ops) (kernelBit ops) }
          (v != 0)))) := by
      simp [Op.run, ioctl, ioctlWith, get_read h.lt, h.entry, FdCtx.ignored, FdCtx.fresh, ioctl_f,
        h.file]
    refine ⟨_, hrun, by simpa using h.lt, ?_, ?_⟩
    · rw [setFile_entry, setEntry_entry_self _ h.lt, requested_concat]
    · rw [setFile_files_self, flagsSet_concat, kernelBit_concat]
      simp only [File.fionbio]
      rw [show Flags.withNonblock (Flags.withNonblock (flagsSet f ops) (kernelBit ops)) (v != 0) =
        Flags.withNonblock (flagsSet f ops) (v != 0) from Flags.withNonblock_withNonblock _ _ _]

theorem Tracks.after {fd d : Nat} {f : File} {w : FdManager} (hset : f.settable.nonblock = true)
    (h : Tracks fd f [] w) (ops : List Op) :
    ∃ w', FdManager.after (d + 1) fd w ops = some w' ∧ Tracks fd f ops w' := by
  induction ops using List.reverseRecOn with
  | nil => exact ⟨w, rfl, h⟩
  | append_singleton ops op ih =>
    obtain ⟨w₁, hw₁, h₁⟩ := ih
    obtain ⟨w₂, hw₂, h₂⟩ := h₁.run (d := d) hset op
    refine ⟨w₂, ?_, h₂⟩
    rw [FdManager.after] at hw₁ ⊢
    rw [List.foldlM_append, hw₁]
    simpa using hw₂

theorem File.setfl_self (f : File) : (f.setfl f.flags).flags = f.flags := by
  apply BitVec.eq_of_getLsbD_eq
  intro i hi
  cases hs : f.settable.getLsbD i <;> simp_all [File.setfl]

/-- What `FdCtx::init` leaves in the kernel. -/
theorem markNonblock_file {fd : Nat} {f : File} {w : FdManager} (hfile : w.files fd = some f)
    (hsock : f.isSock = true) (hset : f.settable.nonblock = true) :
    (w.markNonblock fd).files fd = some { f with flags := Flags.withNonblock f.flags true } := by
  have hself := Flags.withNonblock_nonblock f.flags
  simp only [markNonblock, hfile]
  cases hn : f.flags.nonblock with
  | true =>
    rw [hn] at hself
    simp [hself, hfile]
  | false =>
    rw [hn] at hself
    have hflags := File.setfl_flagsSet f f.flags [] false hset
    rw [File.setfl_self, show flagsSet f [] = f.flags from rfl, hself] at hflags
    rw [if_pos (by simp [hsock]), setFile_files_self, ← hflags]
    rfl

theorem Tracks.created {fd : Nat} {f : File} {w : FdManager} (hlt : fd < w.m_datas.length)
    (hfile : w.files fd = some f) (hsock : f.isSock = true) (hset : f.settable.nonblock = true) :
    Tracks fd f [] (w.created fd) := by
  have hs : w.isSock fd = true := by simpa [isSock, hfile] using hsock
  refine ⟨by simpa [FdManager.created] using hlt, ?_, ?_⟩
  · rw [FdManager.created, setEntry_entry_self _ (by simpa using hlt), hs]
    rfl
  · rw [FdManager.created, setEntry_files, markNonblock_file hfile hsock hset]
    rfl

/-- The two properties hold of `ops` calls if and only if the kernel's flag is set. -/
theorem Tracks.virtual_iff {fd d : Nat} {f : File} {ops : List Op} {w : FdManager}
    (h : Tracks fd f ops w) : Virtual (d + 1) fd f ops w ↔ kernelBit ops = true := by
  constructor
  · intro hv
    obtain ⟨g, hg, hb⟩ := hv.kept _ h.entry rfl
    rw [h.file] at hg
    cases hg
    rwa [Flags.nonblock_withNonblock] at hb
  · intro hb
    refine ⟨fun ctx _ _ => ⟨_, h.file, ?_⟩, ?_⟩
    · rw [Flags.nonblock_withNonblock, hb]
    · rw [h.fcntl_getfl]
      rfl

/-! ## The exact condition -/

theorem kernelBit_eq_true (ops : List Op) (h : ∀ op ∈ ops, op ≠ .fionbio 0) :
    kernelBit ops = true := by
  induction ops using List.reverseRecOn with
  | nil => rfl
  | append_singleton ops op ih =>
    rw [kernelBit_concat]
    cases op with
    | F_SETFL arg => rfl
    | F_GETFL => exact ih fun op hop => h op (by simp [hop])
    | fionbio v =>
      have hv : v ≠ 0 := by
        intro hv
        exact h (.fionbio v) (by simp) (by rw [hv])
      simpa using hv

/-- `get(fd, true)` makes the entry of an open socket `f`, and the successful calls
`ops` follow; the two properties hold in every state. -/
def Virtualised (d fd : Nat) (f : File) (w : FdManager) (ops : List Op) : Prop :=
  ∃ w₀ ctx, get (d + 2) w fd true = some (w₀, some ctx) ∧ ctx.m_isSocket = true ∧
    ∀ calls, calls <+: ops → ∃ w', after (d + 1) fd w₀ calls = some w' ∧
      Virtual (d + 1) fd f calls w'

/-- The last of the calls is a `FIONBIO` of 0. -/
theorem not_virtualised {d fd : Nat} {f : File} {w : FdManager} {ops before : List Op}
    (hT : Tracks fd f [] (w.created fd)) (hlt : fd < w.m_datas.length) (hnew : w.entry fd = none)
    (hset : f.settable.nonblock = true) (hpre : before ++ [.fionbio 0] <+: ops) :
    ¬ Virtualised d fd f w ops := by
  intro hex
  obtain ⟨w₀, ctx, hw₀, -, h⟩ := hex
  rw [get_create hlt hnew] at hw₀
  cases hw₀
  obtain ⟨w', hw', hv⟩ := h _ hpre
  obtain ⟨w₁, hw₁, h₁⟩ := hT.after (d := d) hset (before ++ [.fionbio 0])
  rw [hw'] at hw₁
  cases hw₁
  have hbit := h₁.virtual_iff.mp hv
  rw [kernelBit_concat] at hbit
  simp at hbit

/-- The kernel's flag stays set, and every `F_GETFL` returns the flags of the last
`F_SETFL` with the `O_NONBLOCK` that the user has requested, if and only if no call
is a `FIONBIO` of 0. -/
theorem virtualised_iff (d fd : Nat) (f : File) (w : FdManager) (ops : List Op)
    (hlt : fd < w.m_datas.length) (hnew : w.entry fd = none) (hfile : w.files fd = some f)
    (hsock : f.isSock = true) (hset : f.settable.nonblock = true) :
    Virtualised d fd f w ops ↔ ∀ op ∈ ops, op ≠ .fionbio 0 := by
  have hT := Tracks.created hlt hfile hsock hset
  constructor
  · intro h op hop heq
    subst heq
    obtain ⟨before, rest, rfl⟩ := List.append_of_mem hop
    have hpre : before ++ [.fionbio 0] <+: before ++ .fionbio 0 :: rest := ⟨rest, by simp⟩
    exact not_virtualised hT hlt hnew hset hpre h
  · intro h
    have hs : w.isSock fd = true := by simpa [isSock, hfile] using hsock
    refine ⟨w.created fd, FdCtx.fresh fd (w.isSock fd), get_create hlt hnew, hs, fun calls hc => ?_⟩
    obtain ⟨w', hw', h'⟩ := hT.after (d := d) hset calls
    refine ⟨w', hw', h'.virtual_iff.mpr (kernelBit_eq_true calls ?_)⟩
    intro op hop
    exact h op (hc.subset hop)

/-- An open socket, `O_RDWR`, with the flags that Linux lets `F_SETFL` change. -/
def aSocket : File := ⟨true, 0x2, 0x46c00⟩

theorem virtualised_aSocket :
    Virtualised 0 3 aSocket (new fun _ => some aSocket) [.F_SETFL 0x400, .F_GETFL, .fionbio 1] :=
  (virtualised_iff 0 3 aSocket (new fun _ => some aSocket) _ (by simp [new]) (by simp [new, entry])
    rfl rfl (by decide)).mpr (by decide)

/-- After `ioctl(3, FIONBIO, 0)` the socket blocks. -/
theorem blocking_again :
    ¬ Virtualised 0 3 aSocket (new fun _ => some aSocket) [.fionbio 0] := by
  have hlt : 3 < (new fun _ => some aSocket).m_datas.length := by simp [new]
  have hnew : (new fun _ => some aSocket).entry 3 = none := by simp [new, entry]
  have hT := Tracks.created hlt (rfl : (new fun _ => some aSocket).files 3 = some aSocket) rfl
    (by decide)
  have hpre : [] ++ [Op.fionbio 0] <+: [Op.fionbio 0] := List.prefix_refl _
  exact not_virtualised hT hlt hnew (by decide) hpre

end Ppcode.FdManager
