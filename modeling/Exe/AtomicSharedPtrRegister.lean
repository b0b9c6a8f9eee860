/-
`AtomicSharedPtr` is an atomic register of pointers.

A pointer is an address together with the number of the state constructed there
(`State.named`): two pointers to the same address are the same only if the state
there is. A call of `Load`, `Store` or `CompareExchangeWeak` takes effect at one of
its steps: `Store` at its exchange, `CompareExchangeWeak` that succeeds at its
`compare_exchange_weak`, and the two that return what they have read at the second
load of the last `Protect`. That this load was the last is only known later, when
`TryAddRef` has succeeded, so until then the call keeps what it has seen as a
candidate (`Stage.open_`).

The variables a call uses keep their states alive, and so does the hazard pointer,
so a name does not change from the moment a call sees it to its return.
-/
import Exe.HazardPointers
import Exe.Linearization

set_option autoImplicit false
set_option linter.unusedSectionVars false

namespace Exe.Gc

open Function (update)
open Machine (Silent TakesEffect since)

/-! ## The register -/

section Register

variable {P Q : Type*}

/-- What a call asks of a register. -/
inductive Access (P : Type*)
  | load
  | store (new : P)
  | compareExchange (expected desired : P)

/-- What it answers. -/
inductive Answer (P : Type*)
  | loaded (value : P)
  | stored
  | exchanged
  | refused (current : P)
  deriving DecidableEq

/-- The register: the value afterwards, and the answer. -/
def Access.apply [DecidableEq P] (a : Access P) (value : P) : P × Answer P :=
  match a with
  | .load => (value, .loaded value)
  | .store new => (new, .stored)
  | .compareExchange expected desired =>
    if value = expected then (desired, .exchanged) else (value, .refused value)

/-- The pointers the call brings along. -/
def Access.values : Access P → List P
  | .load => []
  | .store new => [new]
  | .compareExchange expected desired => [expected, desired]

def Access.map (f : P → Q) : Access P → Access Q
  | .load => .load
  | .store new => .store (f new)
  | .compareExchange expected desired => .compareExchange (f expected) (f desired)

/-- The pointers the call returns. -/
def Answer.values : Answer P → List P
  | .loaded value => [value]
  | .stored => []
  | .exchanged => []
  | .refused current => [current]

def Answer.map (f : P → Q) : Answer P → Answer Q
  | .loaded value => .loaded (f value)
  | .stored => .stored
  | .exchanged => .exchanged
  | .refused current => .refused (f current)

theorem Access.map_congr {f g : P → Q} {a : Access P} (h : ∀ p ∈ a.values, f p = g p) :
    a.map f = a.map g := by
  cases a with
  | load => rfl
  | store new => rw [Access.map, Access.map, h new (by simp [Access.values])]
  | compareExchange expected desired =>
    rw [Access.map, Access.map, h expected (by simp [Access.values]),
      h desired (by simp [Access.values])]

theorem Answer.map_congr {f g : P → Q} {r : Answer P} (h : ∀ p ∈ r.values, f p = g p) :
    r.map f = r.map g := by
  cases r with
  | loaded value => rw [Answer.map, Answer.map, h value (by simp [Answer.values])]
  | refused current => rw [Answer.map, Answer.map, h current (by simp [Answer.values])]
  | stored => rfl
  | exchanged => rfl

variable [DecidableEq P] [DecidableEq Q]

/-- The register does not look into the values. -/
theorem Access.apply_map {f : P → Q} (hf : Function.Injective f) {a : Access P} {value new : P}
    {r : Answer P} (h : a.apply value = (new, r)) :
    (a.map f).apply (f value) = (f new, r.map f) := by
  cases a with
  | load =>
    cases h
    rfl
  | store p =>
    cases h
    rfl
  | compareExchange expected desired =>
    simp only [Access.apply] at h
    simp only [Access.map, Access.apply, hf.eq_iff]
    by_cases he : value = expected
    · rw [if_pos he] at h ⊢
      cases h
      rfl
    · rw [if_neg he] at h ⊢
      cases h
      rfl

/-- What is written is one of the call's pointers, if it is not what was there, and
what is returned was there. -/
theorem Access.apply_spec {a : Access P} {value new : P} {r : Answer P}
    (h : a.apply value = (new, r)) :
    (new = value ∨ new ∈ a.values) ∧ ∀ p ∈ r.values, p = value := by
  cases a with
  | load =>
    cases h
    exact ⟨.inl rfl, fun p hp => List.mem_singleton.mp hp⟩
  | store p =>
    cases h
    exact ⟨.inr (by simp [Access.values]), fun p hp => by cases hp⟩
  | compareExchange expected desired =>
    simp only [Access.apply] at h
    split at h
    · cases h
      exact ⟨.inr (by simp [Access.values]), fun p hp => by cases hp⟩
    · cases h
      exact ⟨.inl rfl, fun p hp => List.mem_singleton.mp hp⟩

/-- The operation on a memory of registers, one for each cell. -/
def Access.at {κ : Type*} [DecidableEq κ] (a : Access P) (c : κ) (m : κ → P) :
    (κ → P) × Answer P :=
  (update m c (a.apply (m c)).1, (a.apply (m c)).2)

end Register

variable {θ ν κ A : Type*}

/-! ## The calls -/

/-- A call in progress, with the pointers its arguments had when it began. -/
inductive Invocation (ν κ A : Type*)
  | load (dst : ν) (cell : κ)
  | store (target : ν) (cell : κ) (new_ss : Option A)
  | compareExchange (x : Exchange ν κ A)
  deriving DecidableEq

def Invocation.cell : Invocation ν κ A → κ
  | .load _ cell => cell
  | .store _ cell _ => cell
  | .compareExchange x => x.cell

def Invocation.access : Invocation ν κ A → Access (Option A)
  | .load _ _ => .load
  | .store _ _ new_ss => .store new_ss
  | .compareExchange x => .compareExchange x.ss_expected x.ss_desired

/-- The call that `op` is, if it is one on a cell. -/
def Op.invokes (var : ν → Option A) : Op ν κ A → Option (Invocation ν κ A)
  | .load dst cell => some (.load dst cell)
  | .store target cell => some (.store target cell (var target))
  | .compareExchange cell expected desired =>
    some (.compareExchange ⟨cell, expected, desired, var expected, var desired⟩)
  | _ => none

/-- The answer is where the caller finds it. -/
def Invocation.Delivers (var : ν → Option A) : Invocation ν κ A → Answer (Option A) → Prop
  | .load dst _, .loaded p => var dst = p
  | .store _ _ _, .stored => True
  | .compareExchange _, .exchanged => True
  | .compareExchange x, .refused p => var x.expected = p
  | _, _ => False

def Call.invocation : Call ν κ A → Invocation ν κ A
  | .load dst cell => .load dst cell
  | .compareExchange x => .compareExchange x

def AfterAddRef.invocation (ss : A) : AfterAddRef ν κ A → Option (Invocation ν κ A)
  | .store target cell => some (.store target cell (some ss))
  | .compareExchange x => some (.compareExchange x)
  | _ => none

def AfterUnlink.invocation : AfterUnlink ν κ A → Option (Invocation ν κ A)
  | .store target cell new_ss => some (.store target cell new_ss)
  | .exchanged x => some (.compareExchange x)
  | .released x _ => some (.compareExchange x)
  | .assigned x _ => some (.compareExchange x)
  | _ => none

def AfterRegister.invocation : AfterRegister ν κ A → Option (Invocation ν κ A)
  | .call k => some k.invocation
  | .retire _ k => k.invocation
  | .gc => none

/-- The call the thread is in. The destruction of a parameter is the caller's. -/
def Pc.invocation : Pc θ ν κ A → Option (Invocation ν κ A)
  | .idle => none
  | .addRef ss k => k.invocation ss
  | .exchange target cell new_ss => some (.store target cell new_ss)
  | .register _ k => k.invocation
  | .protect _ k => some k.invocation
  | .tryLoad _ k => some k.invocation
  | .tryCas _ _ k => some k.invocation
  | .acquired _ k => some k.invocation
  | .swing x => some (.compareExchange x)
  | .unlink _ k => k.invocation
  | .retire _ k => k.invocation
  | .collect _ k => k.invocation
  | .scan _ _ _ k => k.invocation
  | .destroy _ _ k => k.invocation
  | .resume k => k.invocation
  | .scopedReset _ k _ => some k.invocation
  | .ownerReset k _ => some k.invocation

/-- How far a call is: it may still turn out not to have done anything, and has
`seen` a pointer that it can return if `TryAddRef` succeeds; or it has taken effect
with an answer. -/
inductive Stage (A : Type*)
  | open_ (seen : Option (Option A))
  | done (r : Answer (Option A))
  deriving DecidableEq

/-- What a call answers that returns the pointer it has read. -/
def Call.read (p : Option A) : Call ν κ A → Answer (Option A)
  | .load _ _ => .loaded p
  | .compareExchange _ => .refused p

def AfterUnlink.stage : AfterUnlink ν κ A → Stage A
  | .store _ _ _ => .done .stored
  | .exchanged _ => .done .exchanged
  | .released _ ss => .done (.refused ss)
  | .assigned _ ss => .done (.refused ss)
  | _ => .open_ none

def AfterRegister.stage : AfterRegister ν κ A → Stage A
  | .retire _ k => k.stage
  | _ => .open_ none

def Exit.stage : Exit A → Stage A
  | .retry => .open_ none
  | .loaded ss => .done (.loaded ss)
  | .succeeded => .done .exchanged
  | .failed ss => .done (.refused ss)

def Pc.stage : Pc θ ν κ A → Stage A
  | .register _ k => k.stage
  | .tryLoad ss _ => .open_ (some (some ss))
  | .tryCas ss _ _ => .open_ (some (some ss))
  | .acquired ss _ => .open_ (some ss)
  | .unlink _ k => k.stage
  | .retire _ k => k.stage
  | .collect _ k => k.stage
  | .scan _ _ _ k => k.stage
  | .destroy _ _ k => k.stage
  | .resume k => k.stage
  | .scopedReset _ _ exit => exit.stage
  | .ownerReset _ exit => exit.stage
  | _ => .open_ none

section Callees

variable (s : State θ ν κ A) (t : θ)

@[simp] theorem unlinking_invocation (old : Option A) (k : AfterUnlink ν κ A) :
    (unlinking old k : Pc θ ν κ A).invocation = k.invocation := by
  cases old <;> rfl

@[simp] theorem unlinking_stage (old : Option A) (k : AfterUnlink ν κ A) :
    (unlinking old k : Pc θ ν κ A).stage = k.stage := by
  cases old <;> rfl

@[simp] theorem resume_invocation (k : AfterRegister ν κ A) :
    (k.resume : Pc θ ν κ A).invocation = k.invocation := by
  cases k <;> rfl

@[simp] theorem resume_stage (k : AfterRegister ν κ A) :
    (k.resume : Pc θ ν κ A).stage = k.stage := by
  cases k <;> rfl

@[simp] theorem getMutator_invocation (k : AfterRegister ν κ A) :
    (s.getMutator t k).invocation = k.invocation :=
  getMutator_cases s t k (P := fun pc => pc.invocation = _) (fun _ => resume_invocation k)
    fun _ => rfl

@[simp] theorem getMutator_stage (k : AfterRegister ν κ A) :
    (s.getMutator t k).stage = k.stage :=
  getMutator_cases s t k (P := fun pc => pc.stage = _) (fun _ => resume_stage k) fun _ => rfl

end Callees

/-! ## What a step of a call can do -/

section Steps

variable [Fintype ν] [Fintype κ] [DecidableEq θ] [DecidableEq ν] [DecidableEq κ] [DecidableEq A]
variable {s s' : State θ ν κ A} {t : θ}

/-- A step of thread `t` inside the call `q`. -/
inductive Progress (s : State θ ν κ A) (t : θ) (q : Invocation ν κ A) (s' : State θ ν κ A) : Prop
  | stay (hcell : s'.cell = s.cell) (hstage : (s'.pc t).stage = (s.pc t).stage)
  /-- The iteration is repeated. -/
  | retry {seen : Option (Option A)} (hcell : s'.cell = s.cell)
    (hstage : (s.pc t).stage = .open_ seen) (hstage' : (s'.pc t).stage = .open_ none)
  /-- The second load of `Protect`. -/
  | see (seen : Option (Option A)) (hcell : s'.cell = s.cell)
    (hstage : (s.pc t).stage = .open_ seen)
    (hstage' : (s'.pc t).stage = .open_ (some (s.cell q.cell)))
  /-- The pointer that has been seen is returned. -/
  | take {p : Option A} {r : Answer (Option A)} (hcell : s'.cell = s.cell)
    (hstage : (s.pc t).stage = .open_ (some p)) (hstage' : (s'.pc t).stage = .done r)
    (hop : q.access.apply p = (p, r))
  /-- The cell is written. -/
  | write (seen : Option (Option A)) {p : Option A} {r : Answer (Option A)}
    (hcell : s'.cell = update s.cell q.cell p) (hstage : (s.pc t).stage = .open_ seen)
    (hstage' : (s'.pc t).stage = .done r) (hop : q.access.apply (s.cell q.cell) = (p, r))

/-- A step of a call: it stays in the call, or it is the last one. -/
structure Moves (s : State θ ν κ A) (t : θ) (q : Invocation ν κ A) (s' : State θ ν κ A) :
    Prop where
  within : (s'.pc t).invocation = some q → Progress s t q s'
  last : (s'.pc t).invocation = none →
    ∃ r, (s.pc t).stage = .done r ∧ q.Delivers s.var r ∧ s'.cell = s.cell
  or : (s'.pc t).invocation = some q ∨ (s'.pc t).invocation = none

theorem Moves.of_within {q : Invocation ν κ A} (hin : (s'.pc t).invocation = some q)
    (h : Progress s t q s') : Moves s t q s' :=
  ⟨fun _ => h, fun hnone => (by rw [hin] at hnone; cases hnone), .inl hin⟩

theorem Moves.of_last {q : Invocation ν κ A} {r : Answer (Option A)}
    (hout : (s'.pc t).invocation = none) (hstage : (s.pc t).stage = .done r)
    (hr : q.Delivers s.var r) (hcell : s'.cell = s.cell) : Moves s t q s' :=
  ⟨fun hin => (by rw [hout] at hin; cases hin), fun _ => ⟨r, hstage, hr, hcell⟩, .inr hout⟩

/-- The thread goes on inside a function that others call, too. -/
structure Same (s : State θ ν κ A) (t : θ) (s' : State θ ν κ A) : Prop where
  invocation : (s'.pc t).invocation = (s.pc t).invocation
  stage : (s'.pc t).stage = (s.pc t).stage
  cell : s'.cell = s.cell

theorem Same.of_pc {pc' : Pc θ ν κ A} (hpc : s'.pc = update s.pc t pc')
    (hcell : s'.cell = s.cell) (hinv : pc'.invocation = (s.pc t).invocation)
    (hstage : pc'.stage = (s.pc t).stage) : Same s t s' := by
  have hself : s'.pc t = pc' := by rw [hpc, Function.update_self]
  exact ⟨by rw [hself, hinv], by rw [hself, hstage], hcell⟩

theorem Same.moves {q : Invocation ν κ A} (h : Same s t s') (hq : (s.pc t).invocation = some q) :
    Moves s t q s' :=
  .of_within (h.invocation.trans hq) (.stay h.cell h.stage)

/-- The thread goes on to `pc'`, and nothing of the call changes. -/
theorem Moves.of_stay {q : Invocation ν κ A} {pc' : Pc θ ν κ A}
    (hpc : s'.pc = update s.pc t pc') (hcell : s'.cell = s.cell)
    (hinv : pc'.invocation = some q) (hstage : pc'.stage = (s.pc t).stage) : Moves s t q s' := by
  have hself : s'.pc t = pc' := by rw [hpc, Function.update_self]
  exact .of_within (by rw [hself, hinv]) (.stay hcell (by rw [hself, hstage]))

theorem addRefStep_moves {ss : A} {k : AfterAddRef ν κ A} {q : Invocation ν κ A}
    (hpc : s.pc t = .addRef ss k) (hq : k.invocation ss = some q) :
    Moves s t q (addRefStep t ss k s) := by
  cases k with
  | construct src dst => cases hq
  | assign src dst => cases hq
  | store target cell => exact .of_stay rfl rfl hq (by rw [hpc]; rfl)
  | compareExchange x =>
    refine .of_stay rfl rfl ?_ ?_
    · rw [getMutator_invocation]
      exact hq
    · rw [getMutator_stage, hpc]
      rfl

theorem exchange_moves {target : ν} {cell : κ} {new_ss : Option A}
    (hpc : s.pc t = .exchange target cell new_ss) :
    Moves s t (.store target cell new_ss) ((s.setCell cell new_ss).setPc t
      (unlinking (s.cell cell) (.store target cell new_ss))) := by
  have hself : ((s.setCell cell new_ss).setPc t
      (unlinking (s.cell cell) (.store target cell new_ss))).pc t =
      unlinking (s.cell cell) (.store target cell new_ss) := Function.update_self _ _ _
  refine .of_within ?_ (.write none (p := new_ss) (r := .stored) rfl ?_ ?_ rfl)
  · rw [hself, unlinking_invocation]
    rfl
  · rw [hpc]
    rfl
  · rw [hself, unlinking_stage]
    rfl

theorem registerStep_same {pc : RegisterPc θ} {k : AfterRegister ν κ A} (weak : Bool)
    (hpc : s.pc t = .register pc k) : Same s t (registerStep t weak k s pc) := by
  cases pc with
  | loadHead => exact .of_pc rfl rfl (by rw [hpc]; rfl) (by rw [hpc]; rfl)
  | storeNext head => exact .of_pc rfl rfl (by rw [hpc]; rfl) (by rw [hpc]; rfl)
  | cas head =>
    dsimp only [registerStep]
    split
    · refine .of_pc rfl rfl ?_ ?_
      · rw [resume_invocation, hpc]
        rfl
      · rw [resume_stage, hpc]
        rfl
    · exact .of_pc rfl rfl (by rw [hpc]; rfl) (by rw [hpc]; rfl)

theorem protectStep_moves {pc : ProtectPc A} {k : Call ν κ A} (hpc : s.pc t = .protect pc k) :
    Moves s t k.invocation (protectStep t k s pc) := by
  have hcell : k.invocation.cell = k.cell := by cases k <;> rfl
  cases pc with
  | load => exact .of_stay rfl rfl rfl (by rw [hpc]; rfl)
  | set ptr => exact .of_stay rfl rfl rfl (by rw [hpc]; rfl)
  | check ptr =>
    dsimp only [protectStep]
    split
    · rename_i hsame
      subst hsame
      -- the second load has seen what the first one saw
      refine afterProtect_cases (P := fun pc' => Moves s t k.invocation (s.setPc t pc'))
        (fun hnone _ => ?_) (fun p hsome _ => ?_) fun x hk hx => ?_
      · refine .of_within (by simp [State.setPc, Pc.invocation])
          (.see none rfl (by rw [hpc]; rfl) ?_)
        rw [hcell, hnone]
        simp [State.setPc, Pc.stage]
      · refine .of_within (by simp [State.setPc, Pc.invocation])
          (.see none rfl (by rw [hpc]; rfl) ?_)
        rw [hcell, hsome]
        simp [State.setPc, Pc.stage]
      · subst hk
        exact .of_stay rfl rfl rfl (by rw [hpc]; rfl)
    · exact .of_stay rfl rfl rfl (by rw [hpc]; rfl)

/-- `TryAddRef` goes on, or finds that there are no references left. -/
theorem tryAddRef_moves {ss : A} {old : ℕ} {k : Call ν κ A}
    (hstage : (s.pc t).stage = .open_ (some (some ss))) :
    Moves s t k.invocation ((s.touch ss).setPc t (tryAddRef ss old k)) := by
  unfold tryAddRef
  split
  · exact .of_within (by simp [State.setPc, Pc.invocation])
      (.retry rfl hstage (by simp [State.setPc, Pc.stage, Exit.stage]))
  · exact .of_stay rfl rfl rfl (by rw [hstage]; rfl)

theorem tryCasStep_moves {ss : A} {old : ℕ} {k : Call ν κ A} (weak : Bool)
    (hpc : s.pc t = .tryCas ss old k) : Moves s t k.invocation (tryCasStep t weak ss old k s) := by
  have hstage : (s.pc t).stage = .open_ (some (some ss)) := by rw [hpc]; rfl
  unfold tryCasStep
  split
  · exact .of_stay rfl rfl rfl hstage.symm
  · exact tryAddRef_moves hstage

theorem acquiredStep_moves {ss : Option A} {k : Call ν κ A} (h : Vars s)
    (hpc : s.pc t = .acquired ss k) : Moves s t k.invocation (acquiredStep t ss k s) := by
  have hstage : (s.pc t).stage = .open_ (some ss) := by rw [hpc]; rfl
  have hholds := h.holds t
  rw [hpc] at hholds
  cases k with
  | load dst cell =>
    refine .of_within ?_ (.take (r := .loaded ss) rfl hstage ?_ rfl)
    · simp [acquiredStep, State.setPc, Pc.invocation]
    · simp [acquiredStep, State.setPc, Pc.stage, Exit.stage]
  | compareExchange x =>
    have hne : ss ≠ x.ss_expected := fun he => hholds.2 he.symm
    refine .of_within ?_ (.take (r := .refused ss) rfl hstage ?_ ?_)
    · simp [acquiredStep, State.setPc, AfterUnlink.invocation, Call.invocation]
    · simp [acquiredStep, State.setPc, AfterUnlink.stage]
    · exact if_neg hne

theorem swingStep_moves {x : Exchange ν κ A} (weak : Bool) (hpc : s.pc t = .swing x) :
    Moves s t (.compareExchange x) (swingStep t weak x s) := by
  have hstage : (s.pc t).stage = .open_ none := by rw [hpc]; rfl
  unfold swingStep
  split
  · rename_i hcas
    refine .of_within ?_ (.write _ (p := x.ss_desired) (r := .exchanged) rfl hstage ?_ ?_)
    · simp [State.setPc, AfterUnlink.invocation]
    · simp [State.setPc, AfterUnlink.stage]
    · exact if_pos hcas.2
  · exact .of_stay rfl rfl rfl hstage.symm

theorem unlinkStep_same {ss : A} {k : AfterUnlink ν κ A} (hpc : s.pc t = .unlink ss k) :
    Same s t (unlinkStep t ss k s) := by
  unfold unlinkStep
  by_cases hone : s.counter_ ss = 1
  · rw [if_pos hone]
    refine .of_pc rfl rfl ?_ ?_
    · rw [getMutator_invocation, hpc]
      rfl
    · rw [getMutator_stage, hpc]
      rfl
  · rw [if_neg hone]
    exact .of_pc rfl rfl (by rw [hpc]; rfl) (by rw [hpc]; rfl)

theorem collectStep_same {kept : List A} {k : AfterUnlink ν κ A}
    (hpc : s.pc t = .collect kept k) : Same s t (collectStep t kept k s) := by
  unfold collectStep
  split
  · exact .of_pc rfl rfl (by rw [hpc]; rfl) (by rw [hpc]; rfl)
  · exact .of_pc rfl rfl (by rw [hpc]; rfl) (by rw [hpc]; rfl)

theorem scanStep_same {pc : ScanPc θ} {obj : A} {kept : List A} {k : AfterUnlink ν κ A}
    (hpc : s.pc t = .scan pc obj kept k) : Same s t (scanStep t obj kept k s pc) := by
  have hinv : (s.pc t).invocation = k.invocation := by rw [hpc]; rfl
  have hstage : (s.pc t).stage = k.stage := by rw [hpc]; rfl
  cases pc with
  | loadHead =>
    dsimp only [scanStep]
    split
    · exact .of_pc rfl rfl hinv.symm hstage.symm
    · exact .of_pc rfl rfl hinv.symm hstage.symm
  | slot head cur i =>
    dsimp only [scanStep]
    split
    · exact .of_pc rfl rfl hinv.symm hstage.symm
    · split
      · exact .of_pc rfl rfl hinv.symm hstage.symm
      · exact .of_pc rfl rfl hinv.symm hstage.symm
  | next head cur =>
    dsimp only [scanStep]
    split
    · exact .of_pc rfl rfl hinv.symm hstage.symm
    · exact .of_pc rfl rfl hinv.symm hstage.symm
  | checkHead head =>
    dsimp only [scanStep]
    split
    · exact .of_pc rfl rfl hinv.symm hstage.symm
    · exact .of_pc rfl rfl hinv.symm hstage.symm

theorem retire_same {ss : A} {k : AfterUnlink ν κ A} (hpc : s.pc t = .retire ss k) :
    Same s t ({ (s.touch ss).setRetired t (s.retired_ t ++ [ss]) with
      retires := update s.retires ss (s.retires ss + 1) }.setPc t (.collect [] k)) :=
  .of_pc rfl rfl (by rw [hpc]; rfl) (by rw [hpc]; rfl)

theorem destroy_same {obj : A} {kept : List A} {k : AfterUnlink ν κ A}
    (hpc : s.pc t = .destroy obj kept k) :
    Same s t ({ s.touch obj with live := update s.live obj false }.setPc t (.collect kept k)) :=
  .of_pc rfl rfl (by rw [hpc]; rfl) (by rw [hpc]; rfl)

theorem resumeStep_moves {k : AfterUnlink ν κ A} {q : Invocation ν κ A}
    (hpc : s.pc t = .resume k) (hq : k.invocation = some q) : Moves s t q (resumeStep t s k) := by
  have hstage : (s.pc t).stage = k.stage := by rw [hpc]; rfl
  cases k with
  | done => cases hq
  | param v => cases hq
  | store target cell new_ss =>
    cases hq
    refine .of_last (r := .stored) ?_ hstage trivial rfl
    simp [resumeStep, State.setPc, AfterUnlink.invocation]
  | exchanged x => exact .of_stay rfl rfl hq hstage.symm
  | released x p =>
    refine .of_stay rfl rfl ?_ ?_
    · rw [unlinking_invocation]
      exact hq
    · rw [unlinking_stage, hstage]
      rfl
  | assigned x p => exact .of_stay rfl rfl hq hstage.symm

theorem scopedResetStep_moves {ss : Option A} {k : Call ν κ A} {exit : Exit A}
    (hpc : s.pc t = .scopedReset ss k exit) :
    Moves s t k.invocation (scopedResetStep t k exit s) := by
  have hstage : (s.pc t).stage = exit.stage := by rw [hpc]; rfl
  cases exit with
  | retry => exact .of_stay rfl rfl rfl hstage.symm
  | loaded p => exact .of_stay rfl rfl rfl hstage.symm
  | succeeded => exact .of_stay rfl rfl rfl hstage.symm
  | failed p => exact .of_stay rfl rfl rfl hstage.symm

theorem ownerResetStep_moves {k : Call ν κ A} {exit : Exit A} (h : Vars s)
    (hpc : s.pc t = .ownerReset k exit) : Moves s t k.invocation (ownerResetStep t k s) := by
  have hstage : (s.pc t).stage = exit.stage := by rw [hpc]; rfl
  have hholds := h.holds t
  rw [hpc] at hholds
  obtain ⟨hexit, hne⟩ := hholds
  have hout : ((ownerResetStep t k s).pc t).invocation = none := by
    cases k <;> simp [ownerResetStep, State.setPc, Pc.invocation, AfterUnlink.invocation]
  have hcell : (ownerResetStep t k s).cell = s.cell := by cases k <;> rfl
  cases exit with
  | retry => exact absurd rfl hne
  | loaded p =>
    obtain ⟨dst, cell, rfl, hdst⟩ := hexit
    exact .of_last hout hstage hdst hcell
  | succeeded =>
    obtain ⟨x, rfl⟩ := hexit
    exact .of_last hout hstage trivial hcell
  | failed p =>
    obtain ⟨x, rfl, hx, -⟩ := hexit
    exact .of_last hout hstage hx hcell

/-- **Inversion of a step inside a call.** -/
theorem call_cases {weak : Bool} {q : Invocation ν κ A} (h : Vars s)
    (hs : threadStep t weak s = some s') (hq : (s.pc t).invocation = some q) :
    Moves s t q s' := by
  have hq' := hq
  unfold threadStep at hs
  cases hpc : s.pc t with
  | idle =>
    rw [hpc] at hs
    cases hs
  | addRef ss k =>
    rw [hpc] at hs hq
    cases hs
    exact addRefStep_moves hpc hq
  | exchange target cell new_ss =>
    rw [hpc] at hs hq
    cases hs
    cases hq
    exact exchange_moves hpc
  | register pc k =>
    rw [hpc] at hs
    cases hs
    exact (registerStep_same weak hpc).moves hq'
  | protect pc k =>
    rw [hpc] at hs hq
    cases hs
    cases hq
    exact protectStep_moves hpc
  | tryLoad ss k =>
    rw [hpc] at hs hq
    cases hs
    cases hq
    exact tryAddRef_moves (by rw [hpc]; rfl)
  | tryCas ss old k =>
    rw [hpc] at hs hq
    cases hs
    cases hq
    exact tryCasStep_moves weak hpc
  | acquired ss k =>
    rw [hpc] at hs hq
    cases hs
    cases hq
    exact acquiredStep_moves h hpc
  | swing x =>
    rw [hpc] at hs hq
    cases hs
    cases hq
    exact swingStep_moves weak hpc
  | unlink ss k =>
    rw [hpc] at hs
    cases hs
    exact (unlinkStep_same hpc).moves hq'
  | retire ss k =>
    rw [hpc] at hs
    cases hs
    exact (retire_same hpc).moves hq'
  | collect kept k =>
    rw [hpc] at hs
    cases hs
    exact (collectStep_same hpc).moves hq'
  | scan pc obj kept k =>
    rw [hpc] at hs
    cases hs
    exact (scanStep_same hpc).moves hq'
  | destroy obj kept k =>
    rw [hpc] at hs
    cases hs
    exact (destroy_same hpc).moves hq'
  | resume k =>
    rw [hpc] at hs hq
    cases hs
    exact resumeStep_moves hpc hq
  | scopedReset ss k exit =>
    rw [hpc] at hs hq
    cases hs
    cases hq
    exact scopedResetStep_moves hpc
  | ownerReset k exit =>
    rw [hpc] at hs hq
    cases hs
    cases hq
    exact ownerResetStep_moves h hpc

/-- Outside a call a thread does not come into one without beginning it, and leaves
the cells alone. -/
theorem outside_cases {weak : Bool} (hs : threadStep t weak s = some s')
    (hq : (s.pc t).invocation = none) : (s'.pc t).invocation = none ∧ s'.cell = s.cell := by
  have hsame : ∀ {s' : State θ ν κ A}, Same s t s' →
      (s'.pc t).invocation = none ∧ s'.cell = s.cell :=
    fun h => ⟨h.invocation.trans hq, h.cell⟩
  -- a function has returned, and at most a variable is still to be released
  have hgo : ∀ {s₁ : State θ ν κ A} {pc' : Pc θ ν κ A}, s₁.cell = s.cell →
      pc'.invocation = none → ((s₁.setPc t pc').pc t).invocation = none ∧
        (s₁.setPc t pc').cell = s.cell := by
    intro s₁ pc' hcell hinv
    have hself : (s₁.setPc t pc').pc t = pc' := Function.update_self _ _ _
    rw [hself]
    exact ⟨hinv, hcell⟩
  have hnone := hq
  unfold threadStep at hs
  cases hpc : s.pc t with
  | idle =>
    rw [hpc] at hs
    cases hs
  | addRef ss k =>
    rw [hpc] at hs hnone
    cases hs
    cases k with
    | construct src dst => exact hgo rfl rfl
    | assign src dst => exact hgo rfl (unlinking_invocation _ _)
    | store target cell => cases hnone
    | compareExchange x => cases hnone
  | register pc k =>
    rw [hpc] at hs
    cases hs
    exact hsame (registerStep_same weak hpc)
  | unlink ss k =>
    rw [hpc] at hs
    cases hs
    exact hsame (unlinkStep_same hpc)
  | retire ss k =>
    rw [hpc] at hs
    cases hs
    exact hsame (retire_same hpc)
  | collect kept k =>
    rw [hpc] at hs
    cases hs
    exact hsame (collectStep_same hpc)
  | scan pc obj kept k =>
    rw [hpc] at hs
    cases hs
    exact hsame (scanStep_same hpc)
  | destroy obj kept k =>
    rw [hpc] at hs
    cases hs
    exact hsame (destroy_same hpc)
  | resume k =>
    rw [hpc] at hs hnone
    cases hs
    cases k with
    | done => exact hgo rfl rfl
    | param v => exact hgo rfl (unlinking_invocation _ _)
    | _ => cases hnone
  | _ =>
    rw [hpc] at hnone
    cases hnone

/-- A call begins with the pointers its arguments have. -/
theorem begin_invocation {op : Op ν κ A} (hpc : s.pc t = .idle) (hs : begin_ t op s = some s') :
    (s'.pc t).invocation = op.invokes s.var ∧ (s'.pc t).stage = .open_ none ∧
      s'.cell = s.cell := by
  -- the thread goes on to `pc'`
  have hgo : ∀ {s₁ : State θ ν κ A} {pc' : Pc θ ν κ A}, s₁.cell = s.cell →
      pc'.stage = .open_ none → ((s₁.setPc t pc').pc t).invocation = pc'.invocation ∧
        ((s₁.setPc t pc').pc t).stage = .open_ none ∧ (s₁.setPc t pc').cell = s.cell := by
    intro s₁ pc' hcell hstage
    have hself : (s₁.setPc t pc').pc t = pc' := Function.update_self _ _ _
    rw [hself]
    exact ⟨rfl, hstage, hcell⟩
  cases op with
  | makeShared dst ss =>
    simp only [begin_] at hs
    split at hs
    · cases hs
      exact ⟨congrArg Pc.invocation hpc, congrArg Pc.stage hpc, rfl⟩
    · cases hs
  | copy src dst =>
    simp only [begin_] at hs
    split at hs
    · split at hs
      · cases hs
        exact ⟨congrArg Pc.invocation hpc, congrArg Pc.stage hpc, rfl⟩
      · cases hs
        exact hgo rfl rfl
    · cases hs
  | copyAssign src dst =>
    simp only [begin_] at hs
    split at hs
    · cases hs
      have h := @hgo (s.setVar dst none) _ rfl (unlinking_stage (s.var dst) .done)
      rwa [unlinking_invocation] at h
    · cases hs
      exact hgo rfl rfl
  | move src dst =>
    simp only [begin_] at hs
    split at hs
    · cases hs
      exact ⟨congrArg Pc.invocation hpc, congrArg Pc.stage hpc, rfl⟩
    · cases hs
  | moveAssign src dst =>
    simp only [begin_] at hs
    cases hs
    have h := @hgo ((s.setVar src none).setVar dst (s.var src)) _ rfl
      (unlinking_stage ((s.setVar src none).var dst) .done)
    rwa [unlinking_invocation] at h
  | reset v =>
    simp only [begin_] at hs
    cases hs
    have h := @hgo (s.setVar v none) _ rfl (unlinking_stage (s.var v) .done)
    rwa [unlinking_invocation] at h
  | deref v =>
    simp only [begin_] at hs
    split at hs
    · cases hs
    · cases hs
      exact ⟨congrArg Pc.invocation hpc, congrArg Pc.stage hpc, rfl⟩
  | load dst cell =>
    simp only [begin_] at hs
    split at hs
    · cases hs
      have h := @hgo s _ rfl (getMutator_stage s t (.call (.load dst cell)))
      rwa [getMutator_invocation] at h
    · cases hs
  | store target cell =>
    simp only [begin_] at hs
    split at hs
    · rename_i hnone
      cases hs
      rw [Op.invokes, hnone]
      exact hgo rfl rfl
    · rename_i ss hsome
      cases hs
      rw [Op.invokes, hsome]
      exact hgo rfl rfl
  | compareExchange cell expected desired =>
    simp only [begin_] at hs
    split at hs
    · split at hs
      · cases hs
        have h := @hgo s _ rfl (getMutator_stage s t (.call (.compareExchange
          ⟨cell, expected, desired, s.var expected, s.var desired⟩)))
        rwa [getMutator_invocation] at h
      · cases hs
        exact hgo rfl rfl
    · cases hs
  | gc =>
    simp only [begin_] at hs
    cases hs
    have h := @hgo s _ rfl (getMutator_stage s t .gc)
    rwa [getMutator_invocation] at h

end Steps

/-! ## Names -/

/-- The state a pointer names: its address, and how many have been constructed
there. -/
def State.named (s : State θ ν κ A) (p : Option A) : Option (A × ℕ) :=
  p.map fun ss => (ss, s.made ss)

/-- What the cells hold. -/
def State.registers (s : State θ ν κ A) (c : κ) : Option (A × ℕ) := s.named (s.cell c)

/-- The state that is named, if there is one, is live. -/
def State.Alive (s : State θ ν κ A) (p : Option A) : Prop := ∀ ss, p = some ss → s.live ss = true

theorem State.named_injective (s : State θ ν κ A) : Function.Injective s.named := by
  intro p q h
  cases p with
  | none =>
    cases q with
    | none => rfl
    | some q => cases h
  | some p =>
    cases q with
    | none => cases h
    | some q => exact congrArg some (congrArg Prod.fst (Option.some.inj h))

/-- The variables the call has read still have the pointers it has read. -/
def Invocation.Holds (var : ν → Option A) : Invocation ν κ A → Prop
  | .load _ _ => True
  | .store target _ new_ss => var target = new_ss
  | .compareExchange x => x.Holds var

theorem AfterUnlink.stage_done {k : AfterUnlink ν κ A} {q : Invocation ν κ A}
    (hq : k.invocation = some q) (seen : Option (Option A)) : k.stage ≠ .open_ seen := by
  intro hstage
  cases k with
  | done => cases hq
  | param v => cases hq
  | _ => cases hstage

/-- An open call has not written its variables. -/
theorem Pc.holds_of_open {pc : Pc θ ν κ A} {var : ν → Option A} {q : Invocation ν κ A}
    {seen : Option (Option A)} (h : pc.Holds var) (hq : pc.invocation = some q)
    (hstage : pc.stage = .open_ seen) : q.Holds var := by
  have hcall : ∀ {k : Call ν κ A}, k.Holds var → k.invocation.Holds var := by
    intro k hk
    cases k with
    | load dst cell => exact trivial
    | compareExchange x => exact hk
  cases pc with
  | idle => cases hq
  | addRef ss k =>
    cases k with
    | construct src dst => cases hq
    | assign src dst => cases hq
    | store target cell =>
      cases hq
      exact h
    | compareExchange x =>
      cases hq
      exact h.1
  | exchange target cell new_ss =>
    cases hq
    exact h
  | register pc k =>
    cases k with
    | call k =>
      cases hq
      exact hcall h
    | retire ss k => exact absurd hstage (AfterUnlink.stage_done hq seen)
    | gc => cases hq
  | protect pc k =>
    cases hq
    exact hcall h
  | tryLoad ss k =>
    cases hq
    exact hcall h.1
  | tryCas ss old k =>
    cases hq
    exact hcall h.1
  | acquired ss k =>
    cases hq
    exact hcall h.1
  | swing x =>
    cases hq
    exact h
  | unlink ss k => exact absurd hstage (AfterUnlink.stage_done hq seen)
  | retire ss k => exact absurd hstage (AfterUnlink.stage_done hq seen)
  | collect kept k => exact absurd hstage (AfterUnlink.stage_done hq seen)
  | scan pc obj kept k => exact absurd hstage (AfterUnlink.stage_done hq seen)
  | destroy obj kept k => exact absurd hstage (AfterUnlink.stage_done hq seen)
  | resume k => exact absurd hstage (AfterUnlink.stage_done hq seen)
  | scopedReset ss k exit =>
    cases hq
    cases exit with
    | retry => exact hcall h
    | _ => cases hstage
  | ownerReset k exit =>
    cases exit with
    | retry => exact absurd rfl h.2
    | _ => cases hstage

/-- What an open call has seen is protected. -/
theorem Pc.protected_of_seen {pc : Pc θ ν κ A} {p : Option A}
    (h : pc.stage = .open_ (some p)) : pc.protected_ = p := by
  have hunlink : ∀ {k : AfterUnlink ν κ A}, k.stage ≠ .open_ (some p) := by
    intro k
    cases k <;> intro hk <;> cases hk
  cases pc with
  | register pc k =>
    cases k with
    | retire ss k => exact absurd h hunlink
    | _ => cases h
  | tryLoad ss k =>
    cases h
    rfl
  | tryCas ss old k =>
    cases h
    rfl
  | acquired ss k =>
    cases h
    rfl
  | unlink ss k => exact absurd h hunlink
  | retire ss k => exact absurd h hunlink
  | collect kept k => exact absurd h hunlink
  | scan pc obj kept k => exact absurd h hunlink
  | destroy obj kept k => exact absurd h hunlink
  | resume k => exact absurd h hunlink
  | scopedReset ss k exit => cases exit <;> cases h
  | ownerReset k exit => cases exit <;> cases h
  | _ => cases h

/-- What a call returns is protected, or in a variable. -/
theorem Pc.answer_kept {pc : Pc θ ν κ A} {var : ν → Option A} {r : Answer (Option A)}
    (h : pc.Holds var) (hstage : pc.stage = .done r) :
    ∀ p ∈ r.values, pc.protected_ = p ∨ ∃ v, var v = p := by
  have hunlink : ∀ {k : AfterUnlink ν κ A}, k.stage = .done r →
      ∀ p ∈ r.values, k.protected_ = p := by
    intro k hk p hp
    cases k <;> cases hk <;> simp [Answer.values] at hp <;> exact hp.symm
  have hexit : ∀ {k : Call ν κ A} {exit : Exit A}, exit.Holds var k → exit.stage = .done r →
      ∀ p ∈ r.values, ∃ v, var v = p := by
    intro k exit hk hex p hp
    cases exit with
    | retry => cases hex
    | loaded ss =>
      cases hex
      obtain ⟨dst, cell, -, hdst⟩ := hk
      exact ⟨dst, hdst.trans (List.mem_singleton.mp hp).symm⟩
    | succeeded =>
      cases hex
      cases hp
    | failed ss =>
      cases hex
      obtain ⟨x, -, hx, -⟩ := hk
      exact ⟨x.expected, hx.trans (List.mem_singleton.mp hp).symm⟩
  intro p hp
  cases pc with
  | register pc k =>
    cases k with
    | retire ss k => exact .inl (hunlink hstage p hp)
    | _ => cases hstage
  | unlink ss k => exact .inl (hunlink hstage p hp)
  | retire ss k => exact .inl (hunlink hstage p hp)
  | collect kept k => exact .inl (hunlink hstage p hp)
  | scan pc obj kept k => exact .inl (hunlink hstage p hp)
  | destroy obj kept k => exact .inl (hunlink hstage p hp)
  | resume k => exact .inl (hunlink hstage p hp)
  | scopedReset ss k exit => exact .inr (hexit h hstage p hp)
  | ownerReset k exit => exact .inr (hexit h.1 hstage p hp)
  | _ => cases hstage

/-! ## The call in the run -/

section Runs

variable [Fintype θ] [Fintype ν] [Fintype κ] [DecidableEq θ] [DecidableEq ν] [DecidableEq κ]
  [DecidableEq A]

/-- The variables, the books and the hazards, in any reachable state. -/
structure Sound (s : State θ ν κ A) : Prop where
  vars : Vars s
  books : Books s
  hazards : Hazards s

theorem sound_of_reachable {s : State θ ν κ A} (hs : (machine θ ν κ A).Reachable s) : Sound s :=
  ⟨vars_of_reachable hs, books_of_reachable hs, hazards_of_reachable hs⟩

variable {s s' : State θ ν κ A} {t : θ}

theorem Sound.alive_var (h : Sound s) (v : ν) : s.Alive (s.var v) := fun _ hv =>
  h.books.live_of_counter (h.books.counter_ne_zero hv)

theorem Sound.alive_cell (h : Sound s) (c : κ) : s.Alive (s.cell c) := fun _ hc =>
  h.books.live_of_counter (h.books.counter_ne_zero_of_cell hc)

/-- The pointers an open call brings along. -/
theorem Sound.alive_access (h : Sound s) {q : Invocation ν κ A} {seen : Option (Option A)}
    (hq : (s.pc t).invocation = some q) (hstage : (s.pc t).stage = .open_ seen) :
    ∀ p ∈ q.access.values, s.Alive p := by
  have hholds := Pc.holds_of_open (h.vars.holds t) hq hstage
  intro p hp
  cases q with
  | load dst cell => cases hp
  | store target cell new_ss =>
    rw [List.mem_singleton.mp hp, ← show s.var target = new_ss from hholds]
    exact h.alive_var target
  | compareExchange x =>
    obtain ⟨hexpected, hdesired, -⟩ := hholds
    rcases List.mem_cons.mp hp with rfl | hp
    · rw [← hexpected]
      exact h.alive_var _
    · cases List.mem_singleton.mp hp
      rw [← hdesired]
      exact h.alive_var _

theorem Sound.alive_seen (h : Sound s) {p : Option A}
    (hstage : (s.pc t).stage = .open_ (some p)) : s.Alive p := by
  rintro ss rfl
  exact h.hazards.live t ss (Pc.protected_of_seen hstage)

theorem Sound.alive_answer (h : Sound s) {r : Answer (Option A)}
    (hstage : (s.pc t).stage = .done r) : ∀ p ∈ r.values, s.Alive p := by
  intro p hp
  rcases Pc.answer_kept (h.vars.holds t) hstage p hp with hprot | ⟨v, rfl⟩
  · rintro ss rfl
    exact h.hazards.live t ss hprot
  · exact h.alive_var v

/-- No state is constructed where one lives. -/
theorem named_eq {u : θ} (hs : Effect s u s') {p : Option A} (hp : s.Alive p) :
    s'.named p = s.named p := by
  cases p with
  | none => rfl
  | some ss =>
    have hmade : s'.made ss = s.made ss := by
      cases hs with
      | @make dst q hlive hdst hfree hpc =>
        have hne : ss ≠ q := by
          rintro rfl
          rw [hp ss rfl] at hlive
          cases hlive
        exact Function.update_of_ne hne _ _
      | _ => rfl
    simp only [State.named, Option.map_some, hmade]

theorem Sound.registers_eq {u : θ} (h : Sound s) (hs : Effect s u s') (hcell : s'.cell = s.cell) :
    s'.registers = s.registers := by
  funext c
  rw [State.registers, State.registers, hcell]
  exact named_eq hs (h.alive_cell c)

/-- Only the thread that moves has a new program counter. -/
theorem Effect.pc_of_ne {u : θ} (hs : Effect s t s') (hu : u ≠ t) : s'.pc u = s.pc u := by
  cases hs with
  | make => rfl
  | _ => exact Function.update_of_ne hu _ _

abbrev Step (θ ν κ A : Type*) := Transition (State θ ν κ A) (Action θ ν κ A)

/-- The steps of the run since thread `t` began its call. -/
def callSteps (t : θ) (h : List (Step θ ν κ A)) : List (Step θ ν κ A) :=
  since (fun s => (s.pc t).invocation.isSome) h

/-- `b` is the step with which thread `t` begins the call `q`. -/
def Begins (t : θ) (q : Invocation ν κ A) (b : Step θ ν κ A) : Prop :=
  ∃ op, b.act = .call t op ∧ op.invokes b.pre.var = some q

/-- The call `q` of thread `t`, begun with `b`, takes effect at one of the steps `l`
with the answer `r`. -/
def Effective (t : θ) (q : Invocation ν κ A) (b : Step θ ν κ A) (r : Answer (Option (A × ℕ)))
    (l : List (Step θ ν κ A)) : Prop :=
  TakesEffect State.registers (fun a : Action θ ν κ A => a.thread = t)
    ((q.access.map b.pre.named).at q.cell) r l

/-- An open call has not done anything to the cells, and its arguments name what
they named when it began. What it has seen was in the cell at one of its steps. -/
structure Open (h : List (Step θ ν κ A)) (s : State θ ν κ A) (t : θ) (q : Invocation ν κ A)
    (b : Step θ ν κ A) (seen : Option (Option A)) : Prop where
  silent : Silent State.registers (fun a : Action θ ν κ A => a.thread = t) (callSteps t h)
  named : ∀ p ∈ q.access.values, s.named p = b.pre.named p
  seen : ∀ p, seen = some p → ∃ v ∈ callSteps t h, v.act.thread = t ∧
    v.pre.registers q.cell = s.named p

/-- A call in progress. -/
structure Traced (h : List (Step θ ν κ A)) (s : State θ ν κ A) (t : θ) (q : Invocation ν κ A)
    (b : Step θ ν κ A) : Prop where
  last : (callSteps t h).getLast? = some b
  begins : Begins t q b
  opened : ∀ seen, (s.pc t).stage = .open_ seen → Open h s t q b seen
  done : ∀ r, (s.pc t).stage = .done r → Effective t q b (r.map s.named) (callSteps t h)

theorem callSteps_cons {h : List (Step θ ν κ A)} {u : Step θ ν κ A} {q : Invocation ν κ A}
    (hq : (u.post.pc t).invocation = some q) : callSteps t (u :: h) = u :: callSteps t h :=
  Machine.since_cons_of_pos (by rw [hq]; rfl) h

theorem callSteps_getLast {h : List (Step θ ν κ A)} {u b : Step θ ν κ A} {q : Invocation ν κ A}
    (hq : (u.post.pc t).invocation = some q) (hb : (callSteps t h).getLast? = some b) :
    (callSteps t (u :: h)).getLast? = some b := by
  rw [callSteps_cons hq, List.getLast?_cons, hb]
  rfl

/-- A silent step leaves an open call open. -/
theorem Open.silent_step {h : List (Step θ ν κ A)} {a : Action θ ν κ A} {q : Invocation ν κ A}
    {b : Step θ ν κ A} {seen : Option (Option A)} (ho : Open h s t q b seen) (hsound : Sound s)
    (heff : Effect s a.thread s') (hsilent : a.thread = t → s'.cell = s.cell)
    (hq : (s.pc t).invocation = some q) (hq' : (s'.pc t).invocation = some q)
    (hstage : (s.pc t).stage = .open_ seen) :
    Open (⟨s, a, s'⟩ :: h) s' t q b seen := by
  refine ⟨?_, fun p hp => ?_, fun p hp => ?_⟩
  · rw [callSteps_cons hq']
    exact ho.silent.cons fun hmine => hsound.registers_eq heff (hsilent hmine)
  · rw [named_eq heff (hsound.alive_access hq hstage p hp)]
    exact ho.named p hp
  · subst hp
    obtain ⟨v, hv, hmine, hcell⟩ := ho.seen p rfl
    refine ⟨v, ?_, hmine, ?_⟩
    · rw [callSteps_cons hq']
      exact List.mem_cons_of_mem _ hv
    · rw [named_eq heff (hsound.alive_seen hstage)]
      exact hcell

/-- A silent step leaves a call that has taken effect as it is. -/
theorem Effective.silent_step {h : List (Step θ ν κ A)} {a : Action θ ν κ A}
    {q : Invocation ν κ A} {b : Step θ ν κ A} {r : Answer (Option A)}
    (hd : Effective t q b (r.map s.named) (callSteps t h)) (hsound : Sound s)
    (heff : Effect s a.thread s') (hsilent : a.thread = t → s'.cell = s.cell)
    (hq' : (s'.pc t).invocation = some q) (hstage : (s.pc t).stage = .done r) :
    Effective t q b (r.map s'.named) (callSteps t (⟨s, a, s'⟩ :: h)) := by
  rw [callSteps_cons hq', Answer.map_congr fun p hp => named_eq heff
    (hsound.alive_answer hstage p hp)]
  exact TakesEffect.cons (fun hmine => hsound.registers_eq heff (hsilent hmine)) hd

/-- A step that does not change what the call has done: of another thread, or one of
its own inside a function it calls. -/
theorem Traced.stay {h : List (Step θ ν κ A)} {a : Action θ ν κ A} {q : Invocation ν κ A}
    {b : Step θ ν κ A} (ht : Traced h s t q b) (hsound : Sound s) (heff : Effect s a.thread s')
    (hsilent : a.thread = t → s'.cell = s.cell) (hq : (s.pc t).invocation = some q)
    (hq' : (s'.pc t).invocation = some q) (hstage : (s'.pc t).stage = (s.pc t).stage) :
    Traced (⟨s, a, s'⟩ :: h) s' t q b := by
  refine ⟨callSteps_getLast hq' ht.last, ht.begins, fun seen hseen => ?_, fun r hr => ?_⟩
  · rw [hstage] at hseen
    exact (ht.opened seen hseen).silent_step hsound heff hsilent hq hq' hseen
  · rw [hstage] at hr
    exact Effective.silent_step (ht.done r hr) hsound heff hsilent hq' hr

/-- The pointers a call names are the same for its own pointers and for those it
began with. -/
theorem Open.access_eq {h : List (Step θ ν κ A)} {q : Invocation ν κ A} {b : Step θ ν κ A}
    {seen : Option (Option A)} (ho : Open h s t q b seen) :
    q.access.map b.pre.named = q.access.map s.named :=
  Access.map_congr fun p hp => (ho.named p hp).symm

/-- **One step of the call.** -/
theorem Traced.progress {h : List (Step θ ν κ A)} {a : Action θ ν κ A} {q : Invocation ν κ A}
    {b : Step θ ν κ A} (ht : Traced h s t q b) (hsound : Sound s) (heff : Effect s t s')
    (hmine : a.thread = t) (hq : (s.pc t).invocation = some q)
    (hq' : (s'.pc t).invocation = some q) (hstep : Progress s t q s') :
    Traced (⟨s, a, s'⟩ :: h) s' t q b := by
  have heff' : Effect s a.thread s' := by rwa [hmine]
  have hlast := callSteps_getLast (u := ⟨s, a, s'⟩) hq' ht.last
  cases hstep with
  | stay hcell hstage => exact ht.stay hsound heff' (fun _ => hcell) hq hq' hstage
  | @retry seen hcell hstage hstage' =>
    have ho := (ht.opened seen hstage).silent_step hsound heff' (fun _ => hcell) hq hq' hstage
    refine ⟨hlast, ht.begins, fun seen' hseen => ?_, fun r hr => ?_⟩
    · rw [hstage'] at hseen
      cases hseen
      exact ⟨ho.silent, ho.named, fun p hp => by cases hp⟩
    · rw [hstage'] at hr
      cases hr
  | see seen hcell hstage hstage' =>
    have ho := (ht.opened seen hstage).silent_step hsound heff' (fun _ => hcell) hq hq' hstage
    refine ⟨hlast, ht.begins, fun seen' hseen => ?_, fun r hr => ?_⟩
    · rw [hstage'] at hseen
      cases hseen
      refine ⟨ho.silent, ho.named, fun p hp => ?_⟩
      cases hp
      -- the step itself has found it in the cell
      refine ⟨⟨s, a, s'⟩, ?_, hmine, (named_eq heff (hsound.alive_cell q.cell)).symm⟩
      rw [callSteps_cons hq']
      exact List.mem_cons_self
    · rw [hstage'] at hr
      cases hr
  | @take p r hcell hstage hstage' hop =>
    have ho := ht.opened _ hstage
    refine ⟨hlast, ht.begins, fun seen' hseen => ?_, fun r' hr => ?_⟩
    · rw [hstage'] at hseen
      cases hseen
    · rw [hstage'] at hr
      cases hr
      obtain ⟨v, hv, hvt, hcell'⟩ := ho.seen p rfl
      have hvalues : r.map s'.named = r.map s.named := by
        refine Answer.map_congr fun x hx => ?_
        rw [(Access.apply_spec hop).2 x hx]
        exact named_eq heff (hsound.alive_seen hstage)
      have hreads := Access.apply_map s.named_injective hop
      rw [hvalues]
      rw [callSteps_cons hq']
      refine TakesEffect.cons (fun _ => hsound.registers_eq heff hcell) ?_
      refine TakesEffect.of_mem hv hvt ?_ ho.silent
      -- the read changes nothing
      rw [Access.at, ho.access_eq, hcell', hreads, ← hcell', Function.update_eq_self]
  | @write seen p r hcell hstage hstage' hop =>
    have ho := ht.opened seen hstage
    obtain ⟨hnew, hvalues⟩ := Access.apply_spec hop
    refine ⟨hlast, ht.begins, fun seen' hseen => ?_, fun r' hr => ?_⟩
    · rw [hstage'] at hseen
      cases hseen
    · rw [hstage'] at hr
      cases hr
      have hr : r.map s'.named = r.map s.named := by
        refine Answer.map_congr fun x hx => ?_
        rw [hvalues x hx]
        exact named_eq heff (hsound.alive_cell q.cell)
      have halive : s.Alive p := by
        rcases hnew with rfl | hmem
        · exact hsound.alive_cell q.cell
        · exact hsound.alive_access hq hstage p hmem
      have hregisters : s'.registers = update s.registers q.cell (s.named p) := by
        funext c
        rw [State.registers, hcell]
        by_cases hc : c = q.cell
        · subst hc
          rw [Function.update_self, Function.update_self]
          exact named_eq heff halive
        · rw [Function.update_of_ne hc, Function.update_of_ne hc]
          exact named_eq heff (hsound.alive_cell c)
      have hwrites := Access.apply_map s.named_injective hop
      rw [hr, callSteps_cons hq']
      refine TakesEffect.head hmine ?_ ho.silent
      rw [Access.at, ho.access_eq, hregisters, State.registers, hwrites]

/-- A call begins: its own step is the only one so far. -/
theorem Traced.begin_ {h : List (Step θ ν κ A)} {op : Op ν κ A} {q : Invocation ν κ A}
    (hnil : callSteps t h = []) (hsound : Sound s) (heff : Effect s t s')
    (hcell : s'.cell = s.cell) (hq' : (s'.pc t).invocation = some q)
    (hstage : (s'.pc t).stage = .open_ none) (hop : op.invokes s.var = some q) :
    Traced (⟨s, .call t op, s'⟩ :: h) s' t q ⟨s, .call t op, s'⟩ := by
  have halive : ∀ p ∈ q.access.values, s.Alive p := by
    intro p hp
    cases op with
    | load dst cell =>
      cases hop
      cases hp
    | store target cell =>
      cases hop
      cases List.mem_singleton.mp hp
      exact hsound.alive_var target
    | compareExchange cell expected desired =>
      cases hop
      rcases List.mem_cons.mp hp with rfl | hp
      · exact hsound.alive_var expected
      · cases List.mem_singleton.mp hp
        exact hsound.alive_var desired
    | _ => cases hop
  have hsteps : callSteps t (⟨s, .call t op, s'⟩ :: h) = [⟨s, .call t op, s'⟩] := by
    rw [callSteps_cons hq', hnil]
  refine ⟨by rw [hsteps]; rfl, ⟨op, rfl, hop⟩, fun seen hseen => ?_, fun r hr => ?_⟩
  · rw [hstage] at hseen
    cases hseen
    refine ⟨?_, fun p hp => named_eq heff (halive p hp), fun p hp => by cases hp⟩
    rw [hsteps]
    exact Silent.nil.cons fun _ => hsound.registers_eq heff hcell
  · rw [hstage] at hr
    cases hr

theorem call_idle {op : Op ν κ A} (hst : (machine θ ν κ A).step (.call t op) s = some s') :
    s.pc t = .idle := by
  change step (.call t op) s = some s' at hst
  simp only [step] at hst
  split at hst
  · assumption
  · cases hst

theorem call_begin {op : Op ν κ A} (hst : (machine θ ν κ A).step (.call t op) s = some s') :
    begin_ t op s = some s' := by
  have hidle := call_idle hst
  change step (.call t op) s = some s' at hst
  simp only [step, hidle] at hst
  split at hst
  · exact hst
  · cases hst

/-- **Every call of a run is traced.** -/
theorem traced_of_run {h : List (Step θ ν κ A)} (hr : (machine θ ν κ A).Run h s)
    {q : Invocation ν κ A} (hq : (s.pc t).invocation = some q) : ∃ b, Traced h s t q b := by
  induction hr with
  | init hinit =>
    subst hinit
    cases hq
  | @step h s s' a hr hst ih =>
    have hsound := sound_of_reachable hr.reachable
    have heff := step_cases hsound.vars hst
    by_cases ht : a.thread = t
    · cases a with
      | call u op =>
        obtain rfl : u = t := ht
        have hidle := call_idle hst
        have hnil : callSteps u h = [] := hr.since_eq_nil (by rw [hidle]; rfl)
        obtain ⟨hinv, hstage, hcell⟩ := begin_invocation hidle (call_begin hst)
        exact ⟨_, .begin_ hnil hsound heff hcell hq hstage (hinv.symm.trans hq)⟩
      | step u weak =>
        obtain rfl : u = t := ht
        cases hpre : (s.pc u).invocation with
        | none =>
          have hnone := (outside_cases hst hpre).1
          rw [hq] at hnone
          cases hnone
        | some q₀ =>
          have hmoves := call_cases hsound.vars hst hpre
          have hsame : q₀ = q := by
            rcases hmoves.or with hin | hout
            · exact Option.some.inj (hin.symm.trans hq)
            · rw [hout] at hq
              cases hq
          subst hsame
          obtain ⟨b, hb⟩ := ih hpre
          exact ⟨b, hb.progress hsound heff rfl hpre hq (hmoves.within hq)⟩
    · have hpc := heff.pc_of_ne (Ne.symm ht)
      rw [hpc] at hq
      obtain ⟨b, hb⟩ := ih hq
      exact ⟨b, hb.stay hsound heff (fun hmine => absurd hmine ht) hq (by rw [hpc]; exact hq)
        (by rw [hpc])⟩

/-- A call returns: it has taken effect, and its answer is where the caller finds it. -/
theorem Traced.returns {h : List (Step θ ν κ A)} {weak : Bool} {q : Invocation ν κ A}
    {b : Step θ ν κ A} (ht : Traced h s t q b) (hvars : Vars s)
    (hst : threadStep t weak s = some s') (hq : (s.pc t).invocation = some q)
    (hout : (s'.pc t).invocation = none) :
    ∃ r, (s.pc t).stage = .done r ∧ q.Delivers s.var r ∧
      Effective t q b (r.map s.named) (callSteps t h) := by
  obtain ⟨r, hstage, hr, -⟩ := (call_cases hvars hst hq).last hout
  exact ⟨r, hstage, hr, ht.done r hstage⟩

/-- **`AtomicSharedPtr` is linearizable.** In every run, when a call of `Load`,
`Store` or `CompareExchangeWeak` returns, its answer is where the caller finds it,
and one of the thread's steps since the call began has been the operation of an
atomic register on what the cells held at that moment, with that answer; the other
steps of the call have left the cells alone. The same holds of a call that has not
returned yet, unless all its steps have left the cells alone, and a thread that is
not in a call does so, too. Pointers are compared with their states, and those of
the arguments as they were when the call began. -/
theorem linearizable {h : List (Step θ ν κ A)} (hr : (machine θ ν κ A).Run h s)
    {a : Action θ ν κ A} (hst : (machine θ ν κ A).step a s = some s') :
    (∀ q, (s.pc a.thread).invocation = some q → (s'.pc a.thread).invocation = none →
      ∃ b r, (callSteps a.thread h).getLast? = some b ∧ Begins a.thread q b ∧
        (s.pc a.thread).stage = .done r ∧ q.Delivers s.var r ∧
        Effective a.thread q b (r.map s.named) (callSteps a.thread h)) ∧
    (∀ t q, (s.pc t).invocation = some q → ∃ b, (callSteps t h).getLast? = some b ∧
      Begins t q b ∧ (Silent State.registers (fun a : Action θ ν κ A => a.thread = t)
        (callSteps t h) ∨ ∃ r, Effective t q b r (callSteps t h))) ∧
    ((s.pc a.thread).invocation = none → s'.cell = s.cell) := by
  have hvars := vars_of_reachable hr.reachable
  refine ⟨fun q hq hout => ?_, fun t q hq => ?_, fun hq => ?_⟩
  · obtain ⟨b, hb⟩ := traced_of_run hr hq
    cases a with
    | call t op =>
      have hidle : s.pc t = .idle := call_idle hst
      rw [show s.pc (Action.call t op).thread = .idle from hidle] at hq
      cases hq
    | step t weak =>
      obtain ⟨r, hstage, hdelivers, heffective⟩ := hb.returns hvars hst hq hout
      exact ⟨b, r, hb.last, hb.begins, hstage, hdelivers, heffective⟩
  · obtain ⟨b, hb⟩ := traced_of_run hr hq
    refine ⟨b, hb.last, hb.begins, ?_⟩
    cases hstage : (s.pc t).stage with
    | open_ seen => exact .inl (hb.opened seen hstage).silent
    | done r => exact .inr ⟨_, hb.done r hstage⟩
  · cases a with
    | call t op => exact (begin_invocation (call_idle hst) (call_begin hst)).2.2
    | step t weak => exact (outside_cases hst hq).2

end Runs

/-- A `Load` beside a `Store` of the same state returns it. -/
theorem linearizable_load : ∃ h s s', (machine (Fin 2) (Fin 2) (Fin 1) ℕ).Run h s ∧
    (machine (Fin 2) (Fin 2) (Fin 1) ℕ).step (.step 0 false) s = some s' ∧
    ∃ b, Begins 0 (.load 0 0) b ∧
      Effective 0 (.load 0 0) b (.loaded (some (7, 1))) (callSteps 0 h) := by
  obtain ⟨h, s, hr, hp⟩ := Machine.Run.exec_any (M := machine (Fin 2) (Fin 2) (Fin 1) ℕ)
    (.init rfl) (storeDuringLoad.take 14 ++ List.replicate 4 (.step 0 false))
    (fun s => (step (.step 0 false) s).any fun s' : State (Fin 2) (Fin 2) (Fin 1) ℕ =>
      decide ((s.pc 0).invocation = some (.load 0 0) ∧ (s'.pc 0).invocation = none ∧
        (s.pc 0).stage = .done (.loaded (some 7)) ∧ s.made 7 = 1)) (by decide)
  obtain ⟨s', hst, hs⟩ := (Option.any_eq_true _ _).mp hp
  obtain ⟨hq, hout, hstage, hmade⟩ := of_decide_eq_true hs
  obtain ⟨b, r, -, hb, hr', -, heffective⟩ := (linearizable hr (a := .step 0 false) hst).1 _ hq hout
  cases hstage.symm.trans hr'
  simp only [Answer.map, State.named, Option.map_some, hmade] at heffective
  exact ⟨h, s, s', hr, hst, b, hb, heffective⟩

end Exe.Gc
