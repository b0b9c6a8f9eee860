/-
What a step of the shared pointers can do, said once.

The references, the garbage and the hazards are each a function of the program
counter: which references a thread holds (`Pc.refs`), which objects it is about
to retire (`Pc.pending`) or goes through in `Gc` (`Pc.held`), and which state
`Protect` has returned to it (`Pc.protected_`). `Effect` lists the changes a step
makes to the memory and says of each what becomes of these four. Every invariant
is proved from it, and never from the step function.
-/
import Exe.AtomicSharedPtr
import Exe.FiniteSums

set_option autoImplicit false

namespace Exe.Gc

open Function (update)

variable {θ ν κ A : Type*}

/-! ## What a thread holds -/

section Holdings

variable [DecidableEq A]

/-- `p` is a reference to the state at `ss`. -/
def pointsTo (p : Option A) (ss : A) : ℕ := if p = some ss then 1 else 0

/-- The reference `CompareExchangeWeak` has added for `desired`. -/
def Call.refs (ss : A) : Call ν κ A → ℕ
  | .load _ _ => 0
  | .compareExchange x => pointsTo x.ss_desired ss

/-- The reference that is not yet assigned to `expected`. -/
def AfterUnlink.refs (ss : A) : AfterUnlink ν κ A → ℕ
  | .released _ p => pointsTo p ss
  | _ => 0

def AfterRegister.refs (ss : A) : AfterRegister ν κ A → ℕ
  | .call k => k.refs ss
  | .retire _ k => k.refs ss
  | .gc => 0

/-- An iteration that is to be repeated keeps what the call has. -/
def Exit.refs (ss : A) (k : Call ν κ A) : Exit A → ℕ
  | .retry => k.refs ss
  | _ => 0

/-- The references the thread's operation in progress holds: one added and not
yet installed in the cell or released, one detached and not yet released, one
acquired and not yet wrapped. -/
def Pc.refs (ss : A) : Pc θ ν κ A → ℕ
  | .idle => 0
  | .addRef _ _ => 0
  | .exchange _ _ new_ss => pointsTo new_ss ss
  | .register _ k => k.refs ss
  | .protect _ k => k.refs ss
  | .tryLoad _ k => k.refs ss
  | .tryCas _ _ k => k.refs ss
  | .acquired p k => pointsTo p ss + k.refs ss
  | .swing x => pointsTo x.ss_desired ss
  | .unlink p k => pointsTo (some p) ss + k.refs ss
  | .retire _ k => k.refs ss
  | .collect _ k => k.refs ss
  | .scan _ _ _ k => k.refs ss
  | .destroy _ _ k => k.refs ss
  | .resume k => k.refs ss
  | .scopedReset _ k exit => exit.refs ss k
  | .ownerReset _ _ => 0

def AfterRegister.pending (ss : A) : AfterRegister ν κ A → ℕ
  | .retire p _ => pointsTo (some p) ss
  | _ => 0

/-- The thread is about to call `Retire(ss)`. -/
def Pc.pending (ss : A) : Pc θ ν κ A → ℕ
  | .register _ k => k.pending ss
  | .retire p _ => pointsTo (some p) ss
  | _ => 0

/-- What `Gc` has taken out of `retired_`. -/
def Pc.held (ss : A) : Pc θ ν κ A → ℕ
  | .collect kept _ => kept.count ss
  | .scan _ obj kept _ => pointsTo (some obj) ss + kept.count ss
  | .destroy obj kept _ => pointsTo (some obj) ss + kept.count ss
  | _ => 0

end Holdings

def AfterUnlink.protected_ : AfterUnlink ν κ A → Option A
  | .exchanged x => x.ss_expected
  | .released _ ss => ss
  | .assigned _ ss => ss
  | _ => none

def AfterRegister.protected_ : AfterRegister ν κ A → Option A
  | .retire _ k => k.protected_
  | _ => none

/-- The state `Protect` has returned to the thread, until the slot is reset. -/
def Pc.protected_ : Pc θ ν κ A → Option A
  | .register _ k => k.protected_
  | .tryLoad ss _ => some ss
  | .tryCas ss _ _ => some ss
  | .acquired ss _ => ss
  | .swing x => x.ss_expected
  | .unlink _ k => k.protected_
  | .retire _ k => k.protected_
  | .collect _ k => k.protected_
  | .scan _ _ _ k => k.protected_
  | .destroy _ _ k => k.protected_
  | .resume k => k.protected_
  | .scopedReset ss _ _ => ss
  | _ => none

def AfterUnlink.enrolled : AfterUnlink ν κ A → Bool
  | .exchanged _ => true
  | .released _ _ => true
  | .assigned _ _ => true
  | _ => false

def AfterRegister.enrolled : AfterRegister ν κ A → Bool
  | .retire _ k => k.enrolled
  | _ => false

/-- The thread has a `PtrOwner`, so it has been through `GetMutator`. -/
def Pc.enrolled : Pc θ ν κ A → Bool
  | .register _ k => k.enrolled
  | .protect _ _ => true
  | .tryLoad _ _ => true
  | .tryCas _ _ _ => true
  | .acquired _ _ => true
  | .swing _ => true
  | .unlink _ k => k.enrolled
  | .retire _ k => k.enrolled
  | .collect _ k => k.enrolled
  | .scan _ _ _ k => k.enrolled
  | .destroy _ _ k => k.enrolled
  | .resume k => k.enrolled
  | .scopedReset _ _ _ => true
  | .ownerReset _ _ => true
  | _ => false

def Pc.isRegistering : Pc θ ν κ A → Bool
  | .register _ _ => true
  | _ => false

/-- The thread is neither registering nor collecting garbage. -/
def Pc.plain : Pc θ ν κ A → Bool
  | .register _ _ => false
  | .retire _ _ => false
  | .collect _ _ => false
  | .scan _ _ _ _ => false
  | .destroy _ _ _ => false
  | _ => true

/-- What `Protect` has published and is about to check. -/
def Pc.checks : Pc θ ν κ A → Option (Option A)
  | .protect (.check ptr) _ => some ptr
  | _ => none

/-- The object `Gc` is deciding about. -/
def Pc.examined : Pc θ ν κ A → Option A
  | .scan _ obj _ _ => some obj
  | .destroy obj _ _ => some obj
  | _ => none

/-! ## What a thread knows about its variables -/

def Exchange.Holds (var : ν → Option A) (x : Exchange ν κ A) : Prop :=
  var x.expected = x.ss_expected ∧ var x.desired = x.ss_desired ∧ x.expected ≠ x.desired

def Call.Holds (var : ν → Option A) : Call ν κ A → Prop
  | .load dst _ => var dst = none
  | .compareExchange x => x.Holds var

/-- The iteration has seen `ss`, which is not the expected one. -/
def Call.Differs (ss : Option A) : Call ν κ A → Prop
  | .load _ _ => True
  | .compareExchange x => x.ss_expected ≠ ss

def AfterAddRef.Holds (var : ν → Option A) (ss : A) : AfterAddRef ν κ A → Prop
  | .construct src dst => var src = some ss ∧ var dst = none
  | .assign src _ => var src = some ss
  | .store target _ => var target = some ss
  | .compareExchange x => x.Holds var ∧ x.ss_desired = some ss

def AfterUnlink.Holds (var : ν → Option A) : AfterUnlink ν κ A → Prop
  | .done => True
  | .param _ => True
  | .store target _ new_ss => var target = new_ss
  | .exchanged x => x.Holds var
  | .released x ss => x.Holds var ∧ x.ss_expected ≠ ss
  | .assigned x ss => var x.expected = ss ∧ x.ss_expected ≠ ss

def AfterRegister.Holds (var : ν → Option A) : AfterRegister ν κ A → Prop
  | .call k => k.Holds var
  | .retire _ k => k.Holds var
  | .gc => True

def Exit.Holds (var : ν → Option A) (k : Call ν κ A) : Exit A → Prop
  | .retry => k.Holds var
  | .loaded ss => ∃ dst cell, k = .load dst cell ∧ var dst = ss
  | .succeeded => ∃ x, k = .compareExchange x
  | .failed ss => ∃ x, k = .compareExchange x ∧ var x.expected = ss ∧ x.ss_expected ≠ ss

/-- The thread's locals are the values of the variables they were read from. -/
def Pc.Holds (var : ν → Option A) : Pc θ ν κ A → Prop
  | .idle => True
  | .addRef ss k => k.Holds var ss
  | .exchange target _ new_ss => var target = new_ss
  | .register _ k => k.Holds var
  | .protect _ k => k.Holds var
  | .tryLoad ss k => k.Holds var ∧ k.Differs (some ss)
  | .tryCas ss old k => k.Holds var ∧ k.Differs (some ss) ∧ old ≠ 0
  | .acquired ss k => k.Holds var ∧ k.Differs ss
  | .swing x => x.Holds var
  | .unlink _ k => k.Holds var
  | .retire _ k => k.Holds var
  | .collect _ k => k.Holds var
  | .scan _ _ _ k => k.Holds var
  | .destroy _ _ k => k.Holds var
  | .resume k => k.Holds var
  | .scopedReset _ k exit => exit.Holds var k
  | .ownerReset k exit => exit.Holds var k ∧ exit ≠ .retry

/-! Only the variables in use matter. -/

section Congr

variable {var var' : ν → Option A}

theorem Exchange.Holds.congr {x : Exchange ν κ A} (hx : x.Holds var)
    (h : ∀ v ∈ x.uses, var' v = var v) : x.Holds var' := by
  have he := h x.expected (by simp [Exchange.uses])
  have hd := h x.desired (by simp [Exchange.uses])
  obtain ⟨h₁, h₂, hne⟩ := hx
  exact ⟨he.trans h₁, hd.trans h₂, hne⟩

theorem Call.Holds.congr {k : Call ν κ A} (hk : k.Holds var)
    (h : ∀ v ∈ k.uses, var' v = var v) : k.Holds var' := by
  cases k with
  | load dst cell => exact (h dst (by simp [Call.uses])).trans hk
  | compareExchange x => exact Exchange.Holds.congr hk h

theorem AfterAddRef.Holds.congr {ss : A} {k : AfterAddRef ν κ A} (hk : k.Holds var ss)
    (h : ∀ v ∈ k.uses, var' v = var v) : k.Holds var' ss := by
  cases k with
  | construct src dst =>
    exact ⟨(h src (by simp [AfterAddRef.uses])).trans hk.1,
      (h dst (by simp [AfterAddRef.uses])).trans hk.2⟩
  | assign src dst => exact (h src (by simp [AfterAddRef.uses])).trans hk
  | store target cell => exact (h target (by simp [AfterAddRef.uses])).trans hk
  | compareExchange x => exact ⟨Exchange.Holds.congr hk.1 h, hk.2⟩

theorem AfterUnlink.Holds.congr {k : AfterUnlink ν κ A} (hk : k.Holds var)
    (h : ∀ v ∈ k.uses, var' v = var v) : k.Holds var' := by
  cases k with
  | done => exact trivial
  | param v => exact trivial
  | store target cell new_ss => exact (h target (by simp [AfterUnlink.uses])).trans hk
  | exchanged x => exact Exchange.Holds.congr hk h
  | released x ss => exact ⟨Exchange.Holds.congr hk.1 h, hk.2⟩
  | assigned x ss =>
    exact ⟨(h x.expected (by simp [AfterUnlink.uses, Exchange.uses])).trans hk.1, hk.2⟩

theorem AfterRegister.Holds.congr {k : AfterRegister ν κ A} (hk : k.Holds var)
    (h : ∀ v ∈ k.uses, var' v = var v) : k.Holds var' := by
  cases k with
  | call k => exact Call.Holds.congr hk h
  | retire ss k => exact AfterUnlink.Holds.congr hk h
  | gc => exact trivial

theorem Exit.Holds.congr {k : Call ν κ A} {exit : Exit A} (hk : exit.Holds var k)
    (h : ∀ v ∈ k.uses, var' v = var v) : exit.Holds var' k := by
  cases exit with
  | retry => exact Call.Holds.congr hk h
  | loaded ss =>
    obtain ⟨dst, cell, rfl, hdst⟩ := hk
    exact ⟨dst, cell, rfl, (h dst (by simp [Call.uses])).trans hdst⟩
  | succeeded => exact hk
  | failed ss =>
    obtain ⟨x, rfl, hx, hne⟩ := hk
    exact ⟨x, rfl, (h x.expected (by simp [Call.uses, Exchange.uses])).trans hx, hne⟩

theorem Pc.Holds.congr {pc : Pc θ ν κ A} (hpc : pc.Holds var)
    (h : ∀ v ∈ pc.uses, var' v = var v) : pc.Holds var' := by
  cases pc with
  | idle => exact trivial
  | addRef ss k => exact AfterAddRef.Holds.congr hpc h
  | exchange target cell new_ss => exact (h target (by simp [Pc.uses])).trans hpc
  | register pc k => exact AfterRegister.Holds.congr hpc h
  | protect pc k => exact Call.Holds.congr hpc h
  | tryLoad ss k => exact ⟨Call.Holds.congr hpc.1 h, hpc.2⟩
  | tryCas ss old k => exact ⟨Call.Holds.congr hpc.1 h, hpc.2⟩
  | acquired ss k => exact ⟨Call.Holds.congr hpc.1 h, hpc.2⟩
  | swing x => exact Exchange.Holds.congr hpc h
  | unlink ss k => exact AfterUnlink.Holds.congr hpc h
  | retire ss k => exact AfterUnlink.Holds.congr hpc h
  | collect kept k => exact AfterUnlink.Holds.congr hpc h
  | scan pc obj kept k => exact AfterUnlink.Holds.congr hpc h
  | destroy obj kept k => exact AfterUnlink.Holds.congr hpc h
  | resume k => exact AfterUnlink.Holds.congr hpc h
  | scopedReset ss k exit => exact Exit.Holds.congr hpc h
  | ownerReset k exit => exact ⟨Exit.Holds.congr hpc.1 h, hpc.2⟩

end Congr

/-! ## What the callees leave behind -/

theorem Pc.plain_spec {pc : Pc θ ν κ A} (h : pc.plain = true) :
    pc.isRegistering = false ∧ pc.examined = none := by
  cases pc <;> first | exact ⟨rfl, rfl⟩ | cases h

theorem Pc.plain_garbage [DecidableEq A] {pc : Pc θ ν κ A} (h : pc.plain = true) (ss : A) :
    pc.pending ss = 0 ∧ pc.held ss = 0 := by
  cases pc <;> first | exact ⟨rfl, rfl⟩ | cases h

section Callees

section Unlinking

variable (old : Option A) (k : AfterUnlink ν κ A)

@[simp] theorem unlinking_uses : (unlinking old k : Pc θ ν κ A).uses = k.uses := by
  cases old <;> rfl

@[simp] theorem unlinking_holds (var : ν → Option A) :
    (unlinking old k : Pc θ ν κ A).Holds var ↔ k.Holds var := by
  cases old <;> rfl

@[simp] theorem unlinking_protected :
    (unlinking old k : Pc θ ν κ A).protected_ = k.protected_ := by
  cases old <;> rfl

@[simp] theorem unlinking_plain : (unlinking old k : Pc θ ν κ A).plain = true := by
  cases old <;> rfl

@[simp] theorem unlinking_checks : (unlinking old k : Pc θ ν κ A).checks = none := by
  cases old <;> rfl

@[simp] theorem unlinking_enrolled : (unlinking old k : Pc θ ν κ A).enrolled = k.enrolled := by
  cases old <;> rfl

variable [DecidableEq A]

@[simp] theorem pointsTo_none (ss : A) : pointsTo none ss = 0 := by
  simp [pointsTo]

@[simp] theorem unlinking_refs (ss : A) :
    (unlinking old k : Pc θ ν κ A).refs ss = pointsTo old ss + k.refs ss := by
  cases old with
  | none => simp [unlinking, Pc.refs]
  | some p => rfl

end Unlinking

section Mutator

variable (s : State θ ν κ A) (t : θ) (k : AfterRegister ν κ A)

/-- `GetMutator` returns at once, or the thread registers. -/
theorem getMutator_cases {P : Pc θ ν κ A → Prop} (hin : s.current_mutator t = true → P k.resume)
    (hout : s.current_mutator t = false → P (.register .loadHead k)) : P (s.getMutator t k) := by
  unfold State.getMutator
  split
  · rename_i h
    exact hin h
  · rename_i h
    exact hout (Bool.eq_false_iff.mpr h)

@[simp] theorem resume_uses : (k.resume : Pc θ ν κ A).uses = k.uses := by
  cases k <;> rfl

@[simp] theorem resume_holds (var : ν → Option A) :
    (k.resume : Pc θ ν κ A).Holds var ↔ k.Holds var := by
  cases k <;> rfl

@[simp] theorem resume_isRegistering : (k.resume : Pc θ ν κ A).isRegistering = false := by
  cases k <;> rfl

@[simp] theorem getMutator_uses : (s.getMutator t k).uses = k.uses :=
  getMutator_cases s t k (P := fun pc => pc.uses = _) (fun _ => resume_uses k) fun _ => rfl

@[simp] theorem getMutator_holds (var : ν → Option A) :
    (s.getMutator t k).Holds var ↔ k.Holds var :=
  getMutator_cases s t k (P := fun pc => pc.Holds var ↔ _) (fun _ => resume_holds k var)
    fun _ => Iff.rfl

@[simp] theorem getMutator_examined : (s.getMutator t k).examined = none := by
  refine getMutator_cases s t k (P := fun pc => pc.examined = none) (fun _ => ?_) fun _ => rfl
  cases k <;> rfl

@[simp] theorem getMutator_checks : (s.getMutator t k).checks = none := by
  refine getMutator_cases s t k (P := fun pc => pc.checks = none) (fun _ => ?_) fun _ => rfl
  cases k <;> rfl

theorem getMutator_registering {pc : RegisterPc θ} {k' : AfterRegister ν κ A}
    (h : s.getMutator t k = .register pc k') : pc = .loadHead ∧ s.current_mutator t = false := by
  revert h
  refine getMutator_cases s t k (P := fun pc' => pc' = .register pc k' → _) (fun _ h => ?_)
    fun hcur h => ?_
  · have hreg := resume_isRegistering (θ := θ) k
    rw [h] at hreg
    cases hreg
  · cases h
    exact ⟨rfl, hcur⟩

@[simp] theorem getMutator_enrolled_retire (ss : A) (k : AfterUnlink ν κ A) :
    (s.getMutator t (.retire ss k)).enrolled = k.enrolled :=
  getMutator_cases s t _ (P := fun pc => pc.enrolled = _) (fun _ => rfl) fun _ => rfl

@[simp] theorem getMutator_protected_retire (ss : A) (k : AfterUnlink ν κ A) :
    (s.getMutator t (.retire ss k)).protected_ = k.protected_ :=
  getMutator_cases s t _ (P := fun pc => pc.protected_ = _) (fun _ => rfl) fun _ => rfl

variable [DecidableEq A]

@[simp] theorem resume_refs (ss : A) : (k.resume : Pc θ ν κ A).refs ss = k.refs ss := by
  cases k <;> rfl

@[simp] theorem getMutator_refs (ss : A) : (s.getMutator t k).refs ss = k.refs ss :=
  getMutator_cases s t k (P := fun pc => pc.refs ss = _) (fun _ => resume_refs k ss) fun _ => rfl

@[simp] theorem getMutator_held (ss : A) : (s.getMutator t k).held ss = 0 := by
  refine getMutator_cases s t k (P := fun pc => pc.held ss = 0) (fun _ => ?_) fun _ => rfl
  cases k <;> rfl

@[simp] theorem getMutator_pending_retire (ss p : A) (k : AfterUnlink ν κ A) :
    (s.getMutator t (.retire ss k)).pending p = pointsTo (some ss) p :=
  getMutator_cases s t _ (P := fun pc => pc.pending p = _) (fun _ => rfl) fun _ => rfl

/-- A call that is about to enter its loop. -/
theorem getMutator_call (k : Call ν κ A) :
    (∀ ss, (s.getMutator t (.call k)).pending ss = 0) ∧
      (s.getMutator t (.call k)).protected_ = none ∧
      ((s.getMutator t (.call k)).enrolled = true → s.current_mutator t = true) :=
  getMutator_cases s t _
    (P := fun pc => (∀ ss, pc.pending ss = 0) ∧ pc.protected_ = none ∧
      (pc.enrolled = true → s.current_mutator t = true))
    (fun h => ⟨fun _ => rfl, rfl, fun _ => h⟩) fun _ => ⟨fun _ => rfl, rfl, fun h => by cases h⟩

end Mutator

/-- Where `Protect` returns to, case by case. -/
theorem afterProtect_cases [DecidableEq A] {ss : Option A} {k : Call ν κ A}
    {P : Pc θ ν κ A → Prop} (hnone : ss = none → k.Differs none → P (.acquired none k))
    (hsome : ∀ p, ss = some p → k.Differs (some p) → P (.tryLoad p k))
    (hswing : ∀ x, k = .compareExchange x → x.ss_expected = ss → P (.swing x)) :
    P (k.afterProtect ss) := by
  cases k with
  | load dst cell =>
    cases ss with
    | none => exact hnone rfl trivial
    | some p => exact hsome p rfl trivial
  | compareExchange x =>
    dsimp only [Call.afterProtect]
    by_cases hx : x.ss_expected = ss
    · rw [if_pos hx]
      exact hswing x rfl hx
    · rw [if_neg hx]
      cases ss with
      | none => exact hnone rfl hx
      | some p => exact hsome p rfl hx

end Callees

/-! ## What a step can do -/

section Effects

variable [Fintype ν] [Fintype κ] [DecidableEq θ] [DecidableEq ν] [DecidableEq κ] [DecidableEq A]

/-- The references of all variables. -/
def varRefs (var : ν → Option A) (ss : A) : ℕ := ∑ v, pointsTo (var v) ss

/-- The references of all cells. -/
def cellRefs (cell : κ → Option A) (ss : A) : ℕ := ∑ c, pointsTo (cell c) ss

theorem varRefs_update (var : ν → Option A) (v : ν) (p : Option A) (ss : A) :
    varRefs (update var v p) ss + pointsTo (var v) ss = varRefs var ss + pointsTo p ss := by
  have h := sum_add_of_eq_off (f := fun w => pointsTo (var w) ss)
    (g := fun w => pointsTo (update var v p w) ss) v fun w hw => by rw [Function.update_of_ne hw]
  rw [Function.update_self] at h
  exact h

theorem cellRefs_update (cell : κ → Option A) (c : κ) (p : Option A) (ss : A) :
    cellRefs (update cell c p) ss + pointsTo (cell c) ss = cellRefs cell ss + pointsTo p ss :=
  varRefs_update cell c p ss

/-- Thread `t` goes on to `pc'` with the variables as in `var'`: it writes and uses
what nobody else uses. -/
structure Turn (s : State θ ν κ A) (t : θ) (var' : ν → Option A) (pc' : Pc θ ν κ A) : Prop where
  uses : ∀ v ∈ pc'.uses, s.Free t v
  var : ∀ v, ¬ s.Free t v → var' v = s.var v
  holds : pc'.Holds var'

/-- Nothing happens to the garbage and the hazards, and the thread does not enter
a function that needs a mutator without one. -/
structure Keeps (s : State θ ν κ A) (t : θ) (pc' : Pc θ ν κ A) : Prop where
  pending : ∀ ss, pc'.pending ss = (s.pc t).pending ss
  held : ∀ ss, pc'.held ss = (s.pc t).held ss
  protected_ : pc'.protected_ = (s.pc t).protected_ ∨ pc'.protected_ = none
  examined : pc'.examined = none
  checks : pc'.checks = none
  notRegistering : (s.pc t).isRegistering = false
  registering : ∀ pc k, pc' = .register pc k → pc = .loadHead ∧ s.current_mutator t = false
  enrolled : pc'.enrolled = true → (s.pc t).enrolled = true ∨ s.current_mutator t = true

/-- `IsProtected` goes on. -/
inductive ScanMove (s : State θ ν κ A) (obj : A) : ScanPc θ → ScanPc θ → Prop
  | start {head : θ} (h : s.head_ = some head) :
    ScanMove s obj .loadHead (.slot (some head) head 0)
  | startEmpty (h : s.head_ = none) : ScanMove s obj .loadHead (.checkHead none)
  | miss {head : Option θ} {cur : θ} (h : s.hazard_ptrs_ cur 0 ≠ some obj) :
    ScanMove s obj (.slot head cur 0) (.slot head cur 1)
  | missLast {head : Option θ} {cur : θ} (h : s.hazard_ptrs_ cur 1 ≠ some obj) :
    ScanMove s obj (.slot head cur 1) (.next head cur)
  | next {head : Option θ} {cur next : θ} (h : s.next_ cur = some next) :
    ScanMove s obj (.next head cur) (.slot head next 0)
  | last {head : Option θ} {cur : θ} (h : s.next_ cur = none) :
    ScanMove s obj (.next head cur) (.checkHead head)
  | restart {head : Option θ} (h : s.head_ ≠ head) : ScanMove s obj (.checkHead head) .loadHead

/-- What a step of thread `t` does. -/
inductive Effect (s : State θ ν κ A) (t : θ) : State θ ν κ A → Prop
  /-- References move between variables, cells and the thread. -/
  | shift (var' : ν → Option A) (cell' : κ → Option A) {pc' : Pc θ ν κ A}
    (turn : Turn s t var' pc') (keeps : Keeps s t pc')
    (refs : ∀ ss, varRefs var' ss + cellRefs cell' ss + pc'.refs ss =
      varRefs s.var ss + cellRefs s.cell ss + (s.pc t).refs ss) :
    Effect s t ({ s with var := var', cell := cell' }.setPc t pc')
  /-- A reference is added to a state the thread can refer to. -/
  | addRef {ss : A} (var' : ν → Option A) (pc' : Pc θ ν κ A)
    (hss : (∃ v, s.var v = some ss) ∨ (s.pc t).protected_ = some ss ∧ s.counter_ ss ≠ 0)
    (turn : Turn s t var' pc') (keeps : Keeps s t pc')
    (refs : ∀ p, varRefs var' p + pc'.refs p =
      varRefs s.var p + (s.pc t).refs p + pointsTo (some ss) p) :
    Effect s t ({ (s.touch ss).setCounter ss (s.counter_ ss + 1) with var := var' }.setPc t pc')
  /-- A reference of the thread is taken back. -/
  | unlink {ss : A} {pc' : Pc θ ν κ A} (turn : Turn s t s.var pc')
    (refs : ∀ p, (s.pc t).refs p = pc'.refs p + pointsTo (some ss) p)
    (pending : ∀ p, pc'.pending p =
      (s.pc t).pending p + if s.counter_ ss = 1 then pointsTo (some ss) p else 0)
    (held : ∀ p, pc'.held p = (s.pc t).held p) (hprot : pc'.protected_ = (s.pc t).protected_)
    (examined : pc'.examined = none) (checks : pc'.checks = none)
    (notRegistering : (s.pc t).isRegistering = false)
    (registering : ∀ pc k, pc' = .register pc k → pc = .loadHead ∧ s.current_mutator t = false)
    (enrolled : pc'.enrolled = (s.pc t).enrolled) :
    Effect s t (((s.touch ss).setCounter ss (s.counter_ ss - 1)).setPc t pc')
  /-- A state is constructed. -/
  | make {dst : ν} {ss : A} (hlive : s.live ss = false) (hdst : s.var dst = none)
    (hfree : s.Free t dst) (hpc : s.pc t = .idle) :
    Effect s t ({ s with
      live := update s.live ss true
      counter_ := update s.counter_ ss 1
      made := update s.made ss (s.made ss + 1)
      retires := update s.retires ss 0 }.setVar dst (some ss))
  /-- A state the thread can refer to is looked at. -/
  | touch {ss : A} {pc' : Pc θ ν κ A}
    (hss : (∃ v, s.var v = some ss) ∨ (s.pc t).protected_ = some ss)
    (turn : Turn s t s.var pc') (keeps : Keeps s t pc')
    (refs : ∀ p, pc'.refs p = (s.pc t).refs p) : Effect s t ((s.touch ss).setPc t pc')
  /-- `Protect` returns what the cell still holds. -/
  | protect {c : κ} {pc' : Pc θ ν κ A} {k : Call ν κ A}
    (hpc : s.pc t = .protect (.check (s.cell c)) k)
    (turn : Turn s t s.var pc') (hprot : pc'.protected_ = s.cell c)
    (refs : ∀ p, pc'.refs p = (s.pc t).refs p) (pending : ∀ p, pc'.pending p = 0)
    (held : ∀ p, pc'.held p = 0) (examined : pc'.examined = none) (checks : pc'.checks = none)
    (registering : pc'.isRegistering = false) : Effect s t (s.setPc t pc')
  | set {ptr : Option A} {k : Call ν κ A} (hpc : s.pc t = .protect (.set ptr) k)
    (holds : k.Holds s.var) :
    Effect s t ((s.setHazard t ptr).setPc t (.protect (.check ptr) k))
  | reset {pc' : Pc θ ν κ A} (turn : Turn s t s.var pc') (keeps : Keeps s t pc')
    (refs : ∀ q, pc'.refs q = (s.pc t).refs q) (hprot : pc'.protected_ = none) :
    Effect s t ((s.setHazard t none).setPc t pc')
  | registerHead {pc : RegisterPc θ} {k : AfterRegister ν κ A} (hpc : s.pc t = .register pc k)
    (holds : k.Holds s.var) :
    Effect s t ({ s with current_mutator := update s.current_mutator t true }.setPc t
      (.register (.storeNext s.head_) k))
  | registerNext {head : Option θ} {k : AfterRegister ν κ A}
    (hpc : s.pc t = .register (.storeNext head) k) (holds : k.Holds s.var) :
    Effect s t ({ s with next_ := update s.next_ t head }.setPc t (.register (.cas head) k))
  | registerRetry {head : Option θ} {k : AfterRegister ν κ A}
    (hpc : s.pc t = .register (.cas head) k) (holds : k.Holds s.var) :
    Effect s t (s.setPc t (.register .loadHead k))
  | registerLink {k : AfterRegister ν κ A} (hpc : s.pc t = .register (.cas s.head_) k)
    (holds : k.Holds s.var) : Effect s t
      ({ s with head_ := some t, mutators := t :: s.mutators }.setPc t k.resume)
  | retire {ss : A} {k : AfterUnlink ν κ A} (hpc : s.pc t = .retire ss k) (holds : k.Holds s.var) :
    Effect s t ({ (s.touch ss).setRetired t (s.retired_ t ++ [ss]) with
      retires := update s.retires ss (s.retires ss + 1) }.setPc t (.collect [] k))
  | collectNone {kept : List A} {k : AfterUnlink ν κ A} (hpc : s.pc t = .collect kept k)
    (hret : s.retired_ t = []) (holds : k.Holds s.var) :
    Effect s t ((s.setRetired t kept).setPc t (.resume k))
  | collectSome {kept rest : List A} {obj : A} {k : AfterUnlink ν κ A}
    (hpc : s.pc t = .collect kept k) (hret : s.retired_ t = obj :: rest) (holds : k.Holds s.var) :
    Effect s t (((s.touch obj).setRetired t rest).setPc t (.scan .loadHead obj kept k))
  | scan {pc pc' : ScanPc θ} {obj : A} {kept : List A} {k : AfterUnlink ν κ A}
    (hpc : s.pc t = .scan pc obj kept k) (move : ScanMove s obj pc pc') (holds : k.Holds s.var) :
    Effect s t (s.setPc t (.scan pc' obj kept k))
  | keep {pc : ScanPc θ} {obj : A} {kept : List A} {k : AfterUnlink ν κ A}
    (hpc : s.pc t = .scan pc obj kept k) (holds : k.Holds s.var) :
    Effect s t ((s.touch obj).setPc t (.collect (kept ++ [obj]) k))
  | clear {obj : A} {kept : List A} {k : AfterUnlink ν κ A}
    (hpc : s.pc t = .scan (.checkHead s.head_) obj kept k) (holds : k.Holds s.var) :
    Effect s t (s.setPc t (.destroy obj kept k))
  | destroy {obj : A} {kept : List A} {k : AfterUnlink ν κ A}
    (hpc : s.pc t = .destroy obj kept k) (holds : k.Holds s.var) :
    Effect s t ({ s.touch obj with live := update s.live obj false }.setPc t (.collect kept k))

end Effects

/-! ## Inversion -/

/-- A variable in use is used by one thread, and the locals are up to date. -/
structure Vars (s : State θ ν κ A) : Prop where
  uses : ∀ t, ∀ v ∈ (s.pc t).uses, s.Free t v
  holds : ∀ t, (s.pc t).Holds s.var

section Inversion

set_option linter.unusedSectionVars false

variable [Fintype ν] [Fintype κ] [DecidableEq θ] [DecidableEq ν] [DecidableEq κ] [DecidableEq A]
variable {s : State θ ν κ A} {t : θ}

/-- The thread goes on within its call. -/
theorem Vars.turn {pc' : Pc θ ν κ A} (h : Vars s) (huses : pc'.uses ⊆ (s.pc t).uses)
    (hholds : pc'.Holds s.var) : Turn s t s.var pc' :=
  ⟨fun v hv => h.uses t v (huses hv), fun _ _ => rfl, hholds⟩

/-- The thread writes a variable nobody else uses. -/
theorem Turn.update {pc' : Pc θ ν κ A} {v : ν} {p : Option A} (hv : s.Free t v)
    (huses : ∀ w ∈ pc'.uses, s.Free t w) (hholds : pc'.Holds (update s.var v p)) :
    Turn s t (update s.var v p) pc' := by
  refine ⟨huses, fun w hw => Function.update_of_ne ?_ _ _, hholds⟩
  rintro rfl
  exact hw hv

theorem Keeps.plain {pc' : Pc θ ν κ A} (h : (s.pc t).plain = true) (h' : pc'.plain = true)
    (hchk : pc'.checks = none)
    (hprot : pc'.protected_ = (s.pc t).protected_ ∨ pc'.protected_ = none)
    (henr : pc'.enrolled = true → (s.pc t).enrolled = true ∨ s.current_mutator t = true) :
    Keeps s t pc' := by
  refine ⟨fun ss => ?_, fun ss => ?_, hprot, (Pc.plain_spec h').2, hchk, (Pc.plain_spec h).1,
    fun pc k hreg => ?_, henr⟩
  · rw [(Pc.plain_garbage h ss).1, (Pc.plain_garbage h' ss).1]
  · rw [(Pc.plain_garbage h ss).2, (Pc.plain_garbage h' ss).2]
  · rw [hreg] at h'
    cases h'

/-- A call enters its loop. -/
theorem Keeps.call (h : (s.pc t).plain = true) (k : Call ν κ A) :
    Keeps s t (s.getMutator t (.call k)) := by
  obtain ⟨hpend, hprot, henr⟩ := getMutator_call s t k
  refine ⟨fun ss => ?_, fun ss => ?_, .inr hprot, getMutator_examined _ _ _,
    getMutator_checks _ _ _, (Pc.plain_spec h).1, fun _ _ => getMutator_registering _ _ _,
    fun he => .inr (henr he)⟩
  · rw [hpend, (Pc.plain_garbage h ss).1]
  · rw [getMutator_held, (Pc.plain_garbage h ss).2]

theorem setPc_self (s : State θ ν κ A) (t : θ) : s.setPc t (s.pc t) = s := by
  simp [State.setPc]

theorem addRefStep_effect {ss : A} {k : AfterAddRef ν κ A} (h : Vars s)
    (hpc : s.pc t = .addRef ss k) : Effect s t (addRefStep t ss k s) := by
  have huses := h.uses t
  have hholds := h.holds t
  have hplain : (s.pc t).plain = true := by rw [hpc]; rfl
  rw [hpc] at huses hholds
  cases k with
  | construct src dst =>
    obtain ⟨hsrc, hdst⟩ := hholds
    have hd : s.Free t dst := huses dst (by simp [Pc.uses, AfterAddRef.uses])
    refine .addRef (update s.var dst (some ss)) .idle (.inl ⟨src, hsrc⟩)
      (.update hd (fun v hv => by cases hv) trivial)
      (.plain hplain rfl rfl (.inr rfl) fun he => by cases he) fun p => ?_
    have hvar := varRefs_update s.var dst (some ss) p
    rw [hdst, pointsTo_none] at hvar
    rw [hpc]
    simp only [Pc.refs]
    omega
  | assign src dst =>
    have hd : s.Free t dst := huses dst (by simp [Pc.uses, AfterAddRef.uses])
    refine .addRef (update s.var dst (some ss)) (unlinking (s.var dst) .done)
      (.inl ⟨src, hholds⟩) (.update hd (fun v hv => ?_) ?_)
      (.plain hplain (unlinking_plain _ _) (unlinking_checks _ _)
      (.inr (unlinking_protected _ _)) fun he => ?_)
      fun p => ?_
    · rw [unlinking_uses] at hv
      cases hv
    · rw [unlinking_holds]
      exact trivial
    · rw [unlinking_enrolled] at he
      cases he
    · have hvar := varRefs_update s.var dst (some ss) p
      rw [hpc, unlinking_refs]
      simp only [Pc.refs, AfterUnlink.refs]
      omega
  | store target cell =>
    refine .addRef s.var (.exchange target cell (some ss)) (.inl ⟨target, hholds⟩)
      (h.turn ?_ hholds) (.plain hplain rfl rfl (.inr rfl) fun he => by cases he) fun p => ?_
    · rw [hpc]
      exact fun v hv => hv
    · rw [hpc]
      simp only [Pc.refs]
      omega
  | compareExchange x =>
    obtain ⟨hx, hss⟩ := hholds
    refine .addRef s.var (s.getMutator t (.call (.compareExchange x)))
      (.inl ⟨x.desired, hx.2.1.trans hss⟩) (h.turn ?_ ?_) (.call hplain _) fun p => ?_
    · rw [hpc, getMutator_uses]
      exact fun v hv => hv
    · rw [getMutator_holds]
      exact hx
    · rw [hpc, getMutator_refs]
      simp only [Pc.refs, AfterRegister.refs, Call.refs, hss]
      omega

theorem unlinkStep_effect {ss : A} {k : AfterUnlink ν κ A} (h : Vars s)
    (hpc : s.pc t = .unlink ss k) : Effect s t (unlinkStep t ss k s) := by
  have hholds := h.holds t
  rw [hpc] at hholds
  unfold unlinkStep
  by_cases hone : s.counter_ ss = 1
  · rw [if_pos hone]
    refine .unlink (h.turn ?_ ?_) (fun p => ?_) (fun p => ?_) (fun p => ?_) ?_ ?_ ?_ ?_ ?_ ?_
    · rw [hpc, getMutator_uses]
      exact fun v hv => hv
    · rw [getMutator_holds]
      exact hholds
    · rw [hpc, getMutator_refs]
      simp only [Pc.refs, AfterRegister.refs]
      omega
    · rw [hpc, getMutator_pending_retire, if_pos hone]
      simp [Pc.pending]
    · rw [hpc, getMutator_held]
      rfl
    · rw [hpc, getMutator_protected_retire]
      rfl
    · exact getMutator_examined _ _ _
    · exact getMutator_checks _ _ _
    · rw [hpc]
      rfl
    · exact fun _ _ => getMutator_registering _ _ _
    · rw [hpc, getMutator_enrolled_retire]
      rfl
  · rw [if_neg hone]
    refine .unlink (h.turn ?_ hholds) (fun p => ?_) (fun p => ?_) (fun p => ?_) ?_ rfl rfl ?_ ?_
      ?_
    · rw [hpc]
      exact fun v hv => hv
    · rw [hpc]
      simp only [Pc.refs]
      omega
    · rw [hpc, if_neg hone]
      rfl
    · rw [hpc]
      rfl
    · rw [hpc]
      rfl
    · rw [hpc]
      rfl
    · exact fun _ _ he => by cases he
    · rw [hpc]
      rfl

theorem registerStep_effect {pc : RegisterPc θ} {k : AfterRegister ν κ A} (weak : Bool)
    (h : Vars s) (hpc : s.pc t = .register pc k) : Effect s t (registerStep t weak k s pc) := by
  have hholds : k.Holds s.var := by
    have hh := h.holds t
    rwa [hpc] at hh
  cases pc with
  | loadHead => exact .registerHead hpc hholds
  | storeNext head => exact .registerNext hpc hholds
  | cas head =>
    dsimp only [registerStep]
    split
    · rename_i hcas
      rw [← hcas.2] at hpc
      exact .registerLink hpc hholds
    · exact .registerRetry hpc hholds

theorem protectStep_effect {pc : ProtectPc A} {k : Call ν κ A} (h : Vars s)
    (hpc : s.pc t = .protect pc k) : Effect s t (protectStep t k s pc) := by
  have hholds : k.Holds s.var := by
    have hh := h.holds t
    rwa [hpc] at hh
  have huses : k.uses ⊆ (s.pc t).uses := by
    rw [hpc]
    exact fun v hv => hv
  have hplain : (s.pc t).plain = true := by rw [hpc]; rfl
  have henr : (s.pc t).enrolled = true := by rw [hpc]; rfl
  cases pc with
  | load =>
    refine .shift s.var s.cell (h.turn huses hholds)
      (.plain hplain rfl rfl (.inr rfl) fun _ => .inl henr) fun ss => ?_
    rw [hpc]
    rfl
  | set ptr => exact .set hpc hholds
  | check ptr =>
    dsimp only [protectStep]
    split
    · rename_i hcell
      subst hcell
      -- the second load has seen what the first one saw
      refine afterProtect_cases (P := fun pc' => Effect s t (s.setPc t pc')) (fun hnone hdiff => ?_)
        (fun p hsome hdiff => ?_) fun x hk hx => ?_
      · refine .protect hpc (h.turn huses ⟨hholds, hdiff⟩) hnone.symm (fun p => ?_) (fun _ => rfl)
          (fun _ => rfl) rfl rfl rfl
        rw [hpc]
        simp [Pc.refs]
      · refine .protect hpc (h.turn huses ⟨hholds, hdiff⟩) hsome.symm (fun q => ?_) (fun _ => rfl)
          (fun _ => rfl) rfl rfl rfl
        rw [hpc]
        rfl
      · subst hk
        refine .protect hpc (h.turn huses hholds) hx (fun q => ?_) (fun _ => rfl)
          (fun _ => rfl) rfl rfl rfl
        rw [hpc]
        rfl
    · refine .shift s.var s.cell (h.turn huses hholds)
        (.plain hplain rfl rfl (.inr rfl) fun _ => .inl henr) fun ss => ?_
      rw [hpc]
      rfl

/-- `TryAddRef` looks at the count. -/
theorem tryAddRef_effect {ss : A} {old : ℕ} {k : Call ν κ A} (h : Vars s)
    (hholds : k.Holds s.var) (hdiff : k.Differs (some ss)) (huses : (s.pc t).uses = k.uses)
    (hplain : (s.pc t).plain = true) (hprot : (s.pc t).protected_ = some ss)
    (henr : (s.pc t).enrolled = true) (hrefs : ∀ p, (s.pc t).refs p = k.refs p) :
    Effect s t ((s.touch ss).setPc t (tryAddRef ss old k)) := by
  unfold tryAddRef
  split
  · exact .touch (.inr hprot) (h.turn (by rw [huses]; exact fun v hv => hv) hholds)
      (.plain hplain rfl rfl (.inl hprot.symm) fun _ => .inl henr) fun p => (hrefs p).symm
  · rename_i hold
    exact .touch (.inr hprot) (h.turn (by rw [huses]; exact fun v hv => hv) ⟨hholds, hdiff, hold⟩)
      (.plain hplain rfl rfl (.inl hprot.symm) fun _ => .inl henr) fun p => (hrefs p).symm

theorem tryLoad_effect {ss : A} {k : Call ν κ A} (h : Vars s) (hpc : s.pc t = .tryLoad ss k) :
    Effect s t ((s.touch ss).setPc t (tryAddRef ss (s.counter_ ss) k)) := by
  have hholds := h.holds t
  rw [hpc] at hholds
  exact tryAddRef_effect h hholds.1 hholds.2 (by rw [hpc]; rfl) (by rw [hpc]; rfl)
    (by rw [hpc]; rfl) (by rw [hpc]; rfl) fun p => by rw [hpc]; rfl

theorem tryCasStep_effect {ss : A} {old : ℕ} {k : Call ν κ A} (weak : Bool) (h : Vars s)
    (hpc : s.pc t = .tryCas ss old k) :
    Effect s t (tryCasStep t weak ss old k s) := by
  have hholds := h.holds t
  rw [hpc] at hholds
  obtain ⟨hk, hdiff, hold⟩ := hholds
  unfold tryCasStep
  split
  · rename_i hcas
    rw [← hcas.2] at hold ⊢
    refine .addRef s.var _ (.inr ⟨by rw [hpc]; rfl, hold⟩)
      (h.turn (by rw [hpc]; exact fun v hv => hv) ⟨hk, hdiff⟩)
      (.plain (by rw [hpc]; rfl) rfl rfl (.inl (by rw [hpc]; rfl)) fun _ => .inl (by rw [hpc]; rfl))
      fun p => ?_
    rw [hpc]
    simp only [Pc.refs]
    omega
  · exact tryAddRef_effect h hk hdiff (by rw [hpc]; rfl) (by rw [hpc]; rfl)
      (by rw [hpc]; rfl) (by rw [hpc]; rfl) fun p => by rw [hpc]; rfl

theorem acquiredStep_effect {ss : Option A} {k : Call ν κ A} (h : Vars s)
    (hpc : s.pc t = .acquired ss k) : Effect s t (acquiredStep t ss k s) := by
  have hholds := h.holds t
  have huses := h.uses t
  have hplain : (s.pc t).plain = true := by rw [hpc]; rfl
  have hprot : (s.pc t).protected_ = ss := by rw [hpc]; rfl
  have henr : (s.pc t).enrolled = true := by rw [hpc]; rfl
  rw [hpc] at hholds huses
  obtain ⟨hk, hdiff⟩ := hholds
  cases k with
  | load dst cell =>
    refine .shift (update s.var dst ss) s.cell
      (.update (huses dst (by simp [Pc.uses, Call.uses])) huses
        ⟨dst, cell, rfl, Function.update_self _ _ _⟩)
      (.plain hplain rfl rfl (.inl hprot.symm) fun _ => .inl henr) fun p => ?_
    have hvar := varRefs_update s.var dst ss p
    rw [show s.var dst = none from hk, pointsTo_none] at hvar
    rw [hpc]
    simp only [Pc.refs, Exit.refs, Call.refs]
    omega
  | compareExchange x =>
    refine .shift s.var s.cell (h.turn ?_ ?_)
      (.plain hplain (unlinking_plain _ _) (unlinking_checks _ _)
      (.inl ?_) fun _ => .inl henr) fun p => ?_
    · rw [hpc, unlinking_uses]
      exact fun v hv => hv
    · rw [unlinking_holds]
      exact ⟨hk, hdiff⟩
    · rw [unlinking_protected, hprot]
      rfl
    · rw [hpc, unlinking_refs]
      simp only [Pc.refs, AfterUnlink.refs, Call.refs]
      omega

theorem swingStep_effect {x : Exchange ν κ A} (weak : Bool) (h : Vars s)
    (hpc : s.pc t = .swing x) : Effect s t (swingStep t weak x s) := by
  have hholds : x.Holds s.var := by
    have hh := h.holds t
    rwa [hpc] at hh
  have hplain : (s.pc t).plain = true := by rw [hpc]; rfl
  have hprot : (s.pc t).protected_ = x.ss_expected := by rw [hpc]; rfl
  have henr : (s.pc t).enrolled = true := by rw [hpc]; rfl
  unfold swingStep
  split
  · rename_i hcas
    refine .shift s.var (update s.cell x.cell x.ss_desired) (h.turn ?_ ?_)
      (.plain hplain (unlinking_plain _ _) (unlinking_checks _ _)
      (.inl ?_) fun _ => .inl henr) fun p => ?_
    · rw [hpc, unlinking_uses]
      exact fun v hv => hv
    · rw [unlinking_holds]
      exact hholds
    · rw [unlinking_protected, hprot]
      rfl
    · have hcell := cellRefs_update s.cell x.cell x.ss_desired p
      rw [hcas.2] at hcell
      rw [hpc, unlinking_refs]
      simp only [Pc.refs, AfterUnlink.refs]
      omega
  · refine .shift s.var s.cell (h.turn ?_ hholds)
      (.plain hplain rfl rfl (.inl hprot.symm) fun _ => .inl henr) fun p => ?_
    · rw [hpc]
      exact fun v hv => hv
    · rw [hpc]
      rfl

theorem exchange_effect {target : ν} {cell : κ} {new_ss : Option A} (h : Vars s)
    (hpc : s.pc t = .exchange target cell new_ss) :
    Effect s t ((s.setCell cell new_ss).setPc t
      (unlinking (s.cell cell) (.store target cell new_ss))) := by
  have hholds : s.var target = new_ss := by
    have hh := h.holds t
    rwa [hpc] at hh
  refine .shift s.var (update s.cell cell new_ss) (h.turn ?_ ?_)
    (.plain (by rw [hpc]; rfl) (unlinking_plain _ _) (unlinking_checks _ _)
      (.inr (unlinking_protected _ _))
      fun he => ?_) fun p => ?_
  · rw [hpc, unlinking_uses]
    exact fun v hv => hv
  · rw [unlinking_holds]
    exact hholds
  · rw [unlinking_enrolled] at he
    cases he
  · have hcell := cellRefs_update s.cell cell new_ss p
    rw [hpc, unlinking_refs]
    simp only [Pc.refs, AfterUnlink.refs]
    omega

theorem collectStep_effect {kept : List A} {k : AfterUnlink ν κ A} (h : Vars s)
    (hpc : s.pc t = .collect kept k) : Effect s t (collectStep t kept k s) := by
  have hholds : k.Holds s.var := by
    have hh := h.holds t
    rwa [hpc] at hh
  unfold collectStep
  split
  · rename_i hret
    exact .collectNone hpc hret hholds
  · rename_i obj rest hret
    exact .collectSome hpc hret hholds

theorem scanStep_effect {pc : ScanPc θ} {obj : A} {kept : List A} {k : AfterUnlink ν κ A}
    (h : Vars s) (hpc : s.pc t = .scan pc obj kept k) :
    Effect s t (scanStep t obj kept k s pc) := by
  have hholds : k.Holds s.var := by
    have hh := h.holds t
    rwa [hpc] at hh
  cases pc with
  | loadHead =>
    dsimp only [scanStep]
    split
    · rename_i hhead
      exact .scan hpc (.startEmpty hhead) hholds
    · rename_i head hhead
      exact .scan hpc (.start hhead) hholds
  | slot head cur i =>
    dsimp only [scanStep]
    split
    · exact .keep hpc hholds
    · rename_i hslot
      split
      · rename_i hi
        subst hi
        exact .scan hpc (.miss hslot) hholds
      · rename_i hi
        have hi1 : i = 1 := Fin.eq_one_of_ne_zero i hi
        subst hi1
        exact .scan hpc (.missLast hslot) hholds
  | next head cur =>
    dsimp only [scanStep]
    split
    · rename_i hnext
      exact .scan hpc (.last hnext) hholds
    · rename_i next hnext
      exact .scan hpc (.next hnext) hholds
  | checkHead head =>
    dsimp only [scanStep]
    split
    · rename_i hhead
      subst hhead
      exact .clear hpc hholds
    · rename_i hhead
      exact .scan hpc (.restart hhead) hholds

/-- A variable's old value is unlinked, and `p` takes its place. -/
theorem release_effect {v : ν} {p : Option A} {k : AfterUnlink ν κ A} (hv : s.Free t v)
    (huses : ∀ w ∈ k.uses, s.Free t w) (hholds : k.Holds (update s.var v p))
    (hplain : (s.pc t).plain = true)
    (hprot : k.protected_ = (s.pc t).protected_ ∨ k.protected_ = none)
    (henr : k.enrolled = true → (s.pc t).enrolled = true ∨ s.current_mutator t = true)
    (hrefs : ∀ ss, pointsTo p ss + k.refs ss = (s.pc t).refs ss) :
    Effect s t ((s.setVar v p).setPc t (unlinking (s.var v) k)) := by
  refine .shift (update s.var v p) s.cell (.update hv ?_ ?_)
    (.plain hplain (unlinking_plain _ _) (unlinking_checks _ _) ?_ ?_) fun ss => ?_
  · rw [unlinking_uses]
    exact huses
  · rw [unlinking_holds]
    exact hholds
  · rw [unlinking_protected]
    exact hprot
  · rw [unlinking_enrolled]
    exact henr
  · have hvar := varRefs_update s.var v p ss
    have hk := hrefs ss
    rw [unlinking_refs]
    omega

theorem resumeStep_effect {k : AfterUnlink ν κ A} (h : Vars s) (hpc : s.pc t = .resume k) :
    Effect s t (resumeStep t s k) := by
  have hholds := h.holds t
  have huses := h.uses t
  have hplain : (s.pc t).plain = true := by rw [hpc]; rfl
  have hrefs : ∀ ss, (s.pc t).refs ss = k.refs ss := fun ss => by rw [hpc]; rfl
  have hprot : (s.pc t).protected_ = k.protected_ := by rw [hpc]; rfl
  have henr : (s.pc t).enrolled = k.enrolled := by rw [hpc]; rfl
  have hsub : k.uses ⊆ (s.pc t).uses := by
    rw [hpc]
    exact fun v hv => hv
  rw [hpc] at hholds huses
  cases k with
  | done =>
    refine .shift s.var s.cell (h.turn (fun v hv => by cases hv) trivial)
      (.plain hplain rfl rfl (.inr rfl) fun he => by cases he) fun ss => ?_
    rw [hrefs]
    rfl
  | param v =>
    refine release_effect (huses v (by simp [Pc.uses, AfterUnlink.uses]))
      (fun w hw => by cases hw) trivial hplain (.inr rfl) (fun he => by cases he) fun ss => ?_
    rw [hrefs, pointsTo_none]
    rfl
  | store target cell new_ss =>
    refine release_effect (huses target (by simp [Pc.uses, AfterUnlink.uses]))
      (fun w hw => by cases hw) trivial hplain (.inr rfl) (fun he => by cases he) fun ss => ?_
    rw [hrefs, pointsTo_none]
    rfl
  | exchanged x =>
    refine .shift s.var s.cell (h.turn hsub ⟨x, rfl⟩)
      (.plain hplain rfl rfl (.inl hprot.symm) fun _ => .inl henr) fun ss => ?_
    rw [hrefs]
    rfl
  | released x p =>
    obtain ⟨-, hdiff⟩ := hholds
    refine release_effect (huses x.expected (by simp [Pc.uses, AfterUnlink.uses, Exchange.uses]))
      huses ⟨Function.update_self _ _ _, hdiff⟩ hplain (.inl hprot.symm) (fun _ => .inl henr)
      fun ss => ?_
    rw [hrefs]
    rfl
  | assigned x p =>
    refine .shift s.var s.cell
      (h.turn hsub ⟨x, rfl, hholds.1, hholds.2⟩)
      (.plain hplain rfl rfl (.inl hprot.symm) fun _ => .inl henr) fun ss => ?_
    rw [hrefs]
    rfl

theorem scopedResetStep_effect {ss : Option A} {k : Call ν κ A} {exit : Exit A} (h : Vars s)
    (hpc : s.pc t = .scopedReset ss k exit) : Effect s t (scopedResetStep t k exit s) := by
  have hholds : exit.Holds s.var k := by
    have hh := h.holds t
    rwa [hpc] at hh
  have hplain : (s.pc t).plain = true := by rw [hpc]; rfl
  have henr : (s.pc t).enrolled = true := by rw [hpc]; rfl
  have hsub : k.uses ⊆ (s.pc t).uses := by
    rw [hpc]
    exact fun v hv => hv
  cases exit with
  | retry =>
    refine .reset (h.turn hsub hholds) (.plain hplain rfl rfl (.inr rfl) fun _ => .inl henr)
      (fun p => ?_) rfl
    rw [hpc]
    rfl
  | _ =>
    refine .reset (h.turn hsub ⟨hholds, fun he => by cases he⟩)
      (.plain hplain rfl rfl (.inr rfl) fun _ => .inl henr) (fun p => ?_) rfl
    rw [hpc]
    rfl

theorem ownerResetStep_effect {k : Call ν κ A} {exit : Exit A} (h : Vars s)
    (hpc : s.pc t = .ownerReset k exit) : Effect s t (ownerResetStep t k s) := by
  have hplain : (s.pc t).plain = true := by rw [hpc]; rfl
  cases k with
  | load dst cell =>
    refine .reset (h.turn (fun v hv => by cases hv) trivial)
      (.plain hplain rfl rfl (.inr rfl) fun he => by cases he) (fun p => ?_) rfl
    rw [hpc]
    rfl
  | compareExchange x =>
    refine .reset (h.turn ?_ trivial) (.plain hplain rfl rfl (.inr rfl) fun he => by cases he)
      (fun p => ?_) rfl
    · rw [hpc]
      intro v hv
      simp only [Pc.uses, AfterUnlink.uses, List.mem_singleton] at hv
      simp [Pc.uses, Call.uses, Exchange.uses, hv]
    · rw [hpc]
      rfl

/-- A call begins. -/
theorem begin_effect {op : Op ν κ A} {s' : State θ ν κ A} (h : Vars s) (hpc : s.pc t = .idle)
    (hfree : ∀ v ∈ op.uses, s.Free t v) (hs : begin_ t op s = some s') : Effect s t s' := by
  have hplain : (s.pc t).plain = true := by rw [hpc]; rfl
  have hchk : (s.pc t).checks = none := by rw [hpc]; rfl
  have hprot : (s.pc t).protected_ = none := by rw [hpc]; rfl
  have hrefs : ∀ ss, (s.pc t).refs ss = 0 := fun ss => by rw [hpc]; rfl
  -- the thread begins a call that has to wait for an access, and touches nothing yet
  have hgo : ∀ {pc' : Pc θ ν κ A}, pc'.plain = true → pc'.checks = none → pc'.protected_ = none →
      pc'.enrolled = false → (∀ ss, pc'.refs ss = 0) → (∀ v ∈ pc'.uses, s.Free t v) →
      pc'.Holds s.var → Effect s t (s.setPc t pc') := by
    intro pc' hp hc hn he hr hu hh
    refine .shift s.var s.cell ⟨hu, fun _ _ => rfl, hh⟩
      (.plain hplain hp hc (.inr hn) fun h => ?_) fun ss => ?_
    · rw [he] at h
      cases h
    · rw [hr, hrefs]
  have hcall : ∀ {k : Call ν κ A}, (∀ ss, k.refs ss = 0) → (∀ v ∈ k.uses, s.Free t v) →
      k.Holds s.var → Effect s t (s.setPc t (s.getMutator t (.call k))) := by
    intro k hr hu hh
    refine .shift s.var s.cell ⟨?_, fun _ _ => rfl, ?_⟩ (.call hplain k)
      fun ss => ?_
    · rw [getMutator_uses]
      exact hu
    · rw [getMutator_holds]
      exact hh
    · rw [getMutator_refs, hrefs]
      simp only [AfterRegister.refs, hr]
  -- a variable is given `p`, and its old value is unlinked
  have hrelease : ∀ {v : ν}, s.Free t v →
      Effect s t ((s.setVar v none).setPc t (unlinking (s.var v) .done)) := by
    intro v hv
    refine release_effect hv (fun w hw => by cases hw) trivial hplain (.inr rfl)
      (fun he => by cases he) fun ss => ?_
    rw [hrefs, pointsTo_none]
    rfl
  cases op with
  | makeShared dst ss =>
    simp only [begin_] at hs
    split at hs
    · rename_i hc
      cases hs
      exact .make hc.1 hc.2 (hfree dst (by simp [Op.uses])) hpc
    · cases hs
  | copy src dst =>
    simp only [begin_] at hs
    split at hs
    · rename_i hdst
      split at hs
      · cases hs
        have hself := @hgo (s.pc t) hplain hchk hprot (by rw [hpc]; rfl) hrefs (h.uses t)
          (h.holds t)
        rwa [setPc_self] at hself
      · rename_i ss hsrc
        cases hs
        exact hgo rfl rfl rfl rfl (fun _ => rfl) hfree ⟨hsrc, hdst⟩
    · cases hs
  | copyAssign src dst =>
    simp only [begin_] at hs
    split at hs
    · cases hs
      exact hrelease (hfree dst (by simp [Op.uses]))
    · rename_i ss hsrc
      cases hs
      exact hgo rfl rfl rfl rfl (fun _ => rfl) hfree hsrc
  | move src dst =>
    simp only [begin_] at hs
    split at hs
    · rename_i hc
      obtain ⟨hdst, hne⟩ := hc
      cases hs
      have hturn : Turn s t (update (update s.var dst (s.var src)) src none) (s.pc t) := by
        refine ⟨h.uses t, fun v hv => ?_, by rw [hpc]; exact trivial⟩
        have hvs : v ≠ src := by
          rintro rfl
          exact hv (hfree v (by simp [Op.uses]))
        have hvd : v ≠ dst := by
          rintro rfl
          exact hv (hfree v (by simp [Op.uses]))
        rw [Function.update_of_ne hvs, Function.update_of_ne hvd]
      have heff := Effect.shift _ s.cell hturn
        (.plain hplain hplain hchk (.inl rfl) fun he => .inl he) fun ss => by
          have h₁ := varRefs_update s.var dst (s.var src) ss
          have h₂ := varRefs_update (update s.var dst (s.var src)) src none ss
          rw [Function.update_of_ne hne, pointsTo_none] at h₂
          rw [hdst, pointsTo_none] at h₁
          omega
      have hself : ((s.setVar dst (s.var src)).setVar src none).setPc t (s.pc t) =
          (s.setVar dst (s.var src)).setVar src none := setPc_self _ t
      rw [← hself]
      exact heff
    · cases hs
  | moveAssign src dst =>
    simp only [begin_] at hs
    cases hs
    have hfs := hfree src (by simp [Op.uses])
    have hfd := hfree dst (by simp [Op.uses])
    refine .shift (update (update s.var src none) dst (s.var src)) s.cell
      ⟨fun v hv => ?_, fun v hv => ?_, ?_⟩
      (.plain hplain (unlinking_plain _ _) (unlinking_checks _ _)
      (.inr (unlinking_protected _ _)) fun he => ?_)
      fun ss => ?_
    · rw [unlinking_uses] at hv
      cases hv
    · have hvs : v ≠ src := by
        rintro rfl
        exact hv hfs
      have hvd : v ≠ dst := by
        rintro rfl
        exact hv hfd
      rw [Function.update_of_ne hvd, Function.update_of_ne hvs]
    · rw [unlinking_holds]
      exact trivial
    · rw [unlinking_enrolled] at he
      cases he
    · have h₁ := varRefs_update s.var src none ss
      have h₂ := varRefs_update (update s.var src none) dst (s.var src) ss
      rw [pointsTo_none] at h₁
      rw [unlinking_refs, hrefs]
      simp only [AfterUnlink.refs, State.setVar]
      omega
  | reset v =>
    simp only [begin_] at hs
    cases hs
    exact hrelease (hfree v (by simp [Op.uses]))
  | deref v =>
    simp only [begin_] at hs
    split at hs
    · cases hs
    · rename_i ss hv
      cases hs
      have heff := Effect.touch (t := t) (.inl ⟨v, hv⟩) (h.turn (fun _ hv => hv) (h.holds t))
        (.plain hplain hplain hchk (.inl rfl) fun he => .inl he) fun _ => rfl
      have hself : (s.touch ss).setPc t (s.pc t) = s.touch ss := setPc_self (s.touch ss) t
      rwa [hself] at heff
  | load dst cell =>
    simp only [begin_] at hs
    split at hs
    · rename_i hdst
      cases hs
      exact hcall (fun _ => rfl) hfree hdst
    · cases hs
  | store target cell =>
    simp only [begin_] at hs
    split at hs
    · rename_i hv
      cases hs
      exact hgo rfl rfl rfl rfl (fun ss => pointsTo_none ss) hfree hv
    · rename_i ss hv
      cases hs
      exact hgo rfl rfl rfl rfl (fun _ => rfl) hfree hv
  | compareExchange cell expected desired =>
    simp only [begin_] at hs
    split at hs
    · rename_i hne
      split at hs
      · rename_i hd
        cases hs
        refine hcall (fun ss => ?_) hfree ⟨rfl, rfl, hne⟩
        simp only [Call.refs, hd, pointsTo_none]
      · rename_i ss hd
        cases hs
        exact hgo rfl rfl rfl rfl (fun _ => rfl) hfree ⟨⟨rfl, rfl, hne⟩, hd⟩
    · cases hs
  | gc =>
    simp only [begin_] at hs
    cases hs
    refine getMutator_cases s t .gc (P := fun pc' => Effect s t (s.setPc t pc')) (fun _ => ?_)
      fun hcur => ?_
    · refine .shift s.var s.cell
        ⟨fun v hv => (by cases hv), fun _ _ => rfl, trivial⟩ ?_ fun ss => ?_
      · exact ⟨fun ss => by rw [hpc]; rfl, fun ss => by rw [hpc]; rfl, .inr rfl, rfl,
          rfl, (Pc.plain_spec hplain).1, (fun _ _ he => by cases he), fun he => by cases he⟩
      · rw [hrefs]
        rfl
    · refine .shift s.var s.cell
        ⟨fun v hv => (by cases hv), fun _ _ => rfl, trivial⟩ ?_ fun ss => ?_
      · exact ⟨fun ss => by rw [hpc]; rfl, fun ss => by rw [hpc]; rfl, .inr rfl, rfl,
          rfl, (Pc.plain_spec hplain).1, (fun _ _ he => by cases he; exact ⟨rfl, hcur⟩),
          fun he => by cases he⟩
      · rw [hrefs]
        rfl

/-- The thread that makes the step. -/
def Action.thread : Action θ ν κ A → θ
  | .call t _ => t
  | .step t _ => t

/-- **Inversion of a step.** -/
theorem step_cases [Fintype θ] {a : Action θ ν κ A} {s' : State θ ν κ A} (h : Vars s)
    (hs : step a s = some s') : Effect s a.thread s' := by
  cases a with
  | call t op =>
    simp only [step] at hs
    split at hs
    · rename_i hpc
      split at hs
      · rename_i hfree
        exact begin_effect h hpc hfree hs
      · cases hs
    · cases hs
  | step t weak =>
    have hholds := h.holds t
    simp only [step, threadStep] at hs
    change Effect s t s'
    cases hpc : s.pc t with
    | idle =>
      rw [hpc] at hs
      cases hs
    | addRef ss k =>
      rw [hpc] at hs
      cases hs
      exact addRefStep_effect h hpc
    | exchange target cell new_ss =>
      rw [hpc] at hs
      cases hs
      exact exchange_effect h hpc
    | register pc k =>
      rw [hpc] at hs
      cases hs
      exact registerStep_effect weak h hpc
    | protect pc k =>
      rw [hpc] at hs
      cases hs
      exact protectStep_effect h hpc
    | tryLoad ss k =>
      rw [hpc] at hs
      cases hs
      exact tryLoad_effect h hpc
    | tryCas ss old k =>
      rw [hpc] at hs
      cases hs
      exact tryCasStep_effect weak h hpc
    | acquired ss k =>
      rw [hpc] at hs
      cases hs
      exact acquiredStep_effect h hpc
    | swing x =>
      rw [hpc] at hs
      cases hs
      exact swingStep_effect weak h hpc
    | unlink ss k =>
      rw [hpc] at hs
      cases hs
      exact unlinkStep_effect h hpc
    | retire ss k =>
      rw [hpc] at hs hholds
      cases hs
      exact .retire hpc hholds
    | collect kept k =>
      rw [hpc] at hs
      cases hs
      exact collectStep_effect h hpc
    | scan pc obj kept k =>
      rw [hpc] at hs
      cases hs
      exact scanStep_effect h hpc
    | destroy obj kept k =>
      rw [hpc] at hs hholds
      cases hs
      exact .destroy hpc hholds
    | resume k =>
      rw [hpc] at hs
      cases hs
      exact resumeStep_effect h hpc
    | scopedReset ss k exit =>
      rw [hpc] at hs
      cases hs
      exact scopedResetStep_effect h hpc
    | ownerReset k exit =>
      rw [hpc] at hs
      cases hs
      exact ownerResetStep_effect h hpc

/-! ## Variables in use -/

/-- One thread moves: the variables of the others are as they were. -/
theorem Vars.of_turn {s' : State θ ν κ A} {var' : ν → Option A} {pc' : Pc θ ν κ A} (h : Vars s)
    (turn : Turn s t var' pc') (hpc : s'.pc = update s.pc t pc') (hvar : s'.var = var') :
    Vars s' := by
  have hself : s'.pc t = pc' := by rw [hpc, Function.update_self]
  have hother : ∀ u, u ≠ t → s'.pc u = s.pc u := fun u hu => by
    rw [hpc, Function.update_of_ne hu]
  refine ⟨fun u v hv w hw hvw => ?_, fun u => ?_⟩
  · by_cases hut : u = t
    · subst hut
      rw [hself] at hv
      rw [hother w hw] at hvw
      exact turn.uses v hv w hw hvw
    · rw [hother u hut] at hv
      by_cases hwt : w = t
      · subst hwt
        rw [hself] at hvw
        exact turn.uses v hvw u hut hv
      · rw [hother w hwt] at hvw
        exact h.uses u v hv w hw hvw
  · by_cases hut : u = t
    · subst hut
      rw [hself, hvar]
      exact turn.holds
    · rw [hother u hut, hvar]
      -- what another thread uses is not free, so it has not been written
      exact (h.holds u).congr fun v hv => turn.var v fun hfree => hfree u hut hv

/-- The thread goes on inside a function that leaves the variables alone. -/
theorem Vars.of_move {s' : State θ ν κ A} {pc' : Pc θ ν κ A} (h : Vars s)
    (hpc : s'.pc = update s.pc t pc') (hvar : s'.var = s.var)
    (huses : pc'.uses = (s.pc t).uses) (hholds : pc'.Holds s.var) : Vars s' :=
  h.of_turn (h.turn (by rw [huses]; exact fun v hv => hv) hholds) hpc hvar

theorem Vars.effect {s' : State θ ν κ A} (h : Vars s) (hs : Effect s t s') : Vars s' := by
  cases hs with
  | shift var' cell' turn keeps refs => exact h.of_turn turn rfl rfl
  | addRef var' pc' hss turn keeps refs => exact h.of_turn turn rfl rfl
  | unlink turn => exact h.of_turn turn rfl rfl
  | @make dst ss hlive hdst hfree hpc =>
    refine h.of_turn (t := t) (.update hfree (h.uses t) ?_) ?_ rfl
    · rw [hpc]
      exact trivial
    · exact (Function.update_eq_self t s.pc).symm
  | touch hss turn keeps refs => exact h.of_turn turn rfl rfl
  | protect hpc turn => exact h.of_turn turn rfl rfl
  | set hpc holds => exact h.of_move rfl rfl (by rw [hpc]; rfl) holds
  | reset turn keeps refs => exact h.of_turn turn rfl rfl
  | registerHead hpc holds => exact h.of_move rfl rfl (by rw [hpc]; rfl) holds
  | registerNext hpc holds => exact h.of_move rfl rfl (by rw [hpc]; rfl) holds
  | registerRetry hpc holds => exact h.of_move rfl rfl (by rw [hpc]; rfl) holds
  | @registerLink k hpc holds =>
    refine h.of_move rfl rfl ?_ ?_
    · rw [hpc, resume_uses]
      rfl
    · rw [resume_holds]
      exact holds
  | retire hpc holds => exact h.of_move rfl rfl (by rw [hpc]; rfl) holds
  | collectNone hpc hret holds => exact h.of_move rfl rfl (by rw [hpc]; rfl) holds
  | collectSome hpc hret holds => exact h.of_move rfl rfl (by rw [hpc]; rfl) holds
  | scan hpc move holds => exact h.of_move rfl rfl (by rw [hpc]; rfl) holds
  | keep hpc holds => exact h.of_move rfl rfl (by rw [hpc]; rfl) holds
  | clear hpc holds => exact h.of_move rfl rfl (by rw [hpc]; rfl) holds
  | destroy hpc holds => exact h.of_move rfl rfl (by rw [hpc]; rfl) holds

theorem vars_of_reachable [Fintype θ] {C : Action θ ν κ A → State θ ν κ A → Prop}
    (hs : (machine θ ν κ A).ReachableVia C s) : Vars s := by
  refine hs.invariant (fun s hinit => ?_) fun a s s' h _ hst => h.effect (step_cases h hst)
  subst hinit
  exact ⟨fun t v hv => (by cases hv), fun t => trivial⟩

end Inversion

end Exe.Gc
