/-
`gc::SharedPtr` and `gc::AtomicSharedPtr` over hazard pointers, one atomic access
at a time.

The model covers `SharedState`, `SharedPtr`, `AtomicSharedPtr`,
`hazard::PtrOwner`, `hazard::Mutator` and `hazard::Collector`, the registration
of a thread's mutator included. The destructor of the collector is left out.

# Conventions

* There are threads `θ`, variables of type `SharedPtr` named by `ν`, cells of
  type `AtomicSharedPtr` named by `κ`, and addresses `A` a `SharedState` may be
  constructed at. An address is used again once the state there is destroyed.
* A thread has at most one mutator, and mutators are never freed, so a mutator is
  named by its thread.
* A variable that has not been constructed, or has been destroyed, is null. A
  parameter passed by value is a variable of its own, constructed by the caller
  and destroyed when the call returns. A variable is used by one thread at a
  time, which is a condition on the actions.
* What a thread does on its own between two atomic accesses may be a step, too.
* The destructor of `T` does not call back into this code.
* `live` says that a state has been constructed at the address and not been
  destroyed; `fault` that a step has acted on a state that is not live. `made` and
  `retires` count the states constructed at an address, and the calls of `Retire`
  on the last one; `mutators` is the list behind `head_`. They are history.
* As many references as `counter_` can count do not exist: each of them takes up
  memory of its own. So `counter_` does not wrap from above. It is not assumed
  that it does not from below: taking one from zero is a step like the others,
  and the state after it has to be ruled out.
-/
import Exe.Machine
import Mathlib.Logic.Function.Basic
import Mathlib.Data.Fintype.Basic

set_option autoImplicit false

namespace Exe.Gc

open Function (update)

/-! ## Program counters -/

/-- `Collector::GetMutator`, linking the new mutator into the list. -/
inductive RegisterPc (θ : Type*)
  | loadHead
  | storeNext (head : Option θ)
  | cas (head : Option θ)

/-- `PtrOwner::Protect`. -/
inductive ProtectPc (A : Type*)
  | load
  | set (ptr : Option A)
  | check (ptr : Option A)

/-- `Collector::IsProtected`. -/
inductive ScanPc (θ : Type*)
  | loadHead
  | slot (head : Option θ) (cur : θ) (i : Fin 2)
  | next (head : Option θ) (cur : θ)
  | checkHead (head : Option θ)

/-- The arguments of a call of `CompareExchangeWeak`, and its two locals. -/
structure Exchange (ν κ A : Type*) where
  cell : κ
  expected : ν
  desired : ν
  ss_expected : Option A
  ss_desired : Option A
  deriving DecidableEq

/-- The calls with the loop around `Protect`. -/
inductive Call (ν κ A : Type*)
  | load (dst : ν) (cell : κ)
  | compareExchange (x : Exchange ν κ A)

/-- Who called `AddRef`. -/
inductive AfterAddRef (ν κ A : Type*)
  | construct (src dst : ν)
  | assign (src dst : ν)
  | store (target : ν) (cell : κ)
  | compareExchange (x : Exchange ν κ A)

/-- Who called `Unlink`: somebody who has nothing more to do, `Store`, or
`CompareExchangeWeak` after its exchange, after it has released `ss_desired`, and
after it has assigned `ss` to `expected`. `param` is left to be destroyed. -/
inductive AfterUnlink (ν κ A : Type*)
  | done
  | param (v : ν)
  | store (target : ν) (cell : κ) (new_ss : Option A)
  | exchanged (x : Exchange ν κ A)
  | released (x : Exchange ν κ A) (ss : Option A)
  | assigned (x : Exchange ν κ A) (ss : Option A)

/-- Who called `GetMutator`. -/
inductive AfterRegister (ν κ A : Type*)
  | call (k : Call ν κ A)
  | retire (ss : A) (k : AfterUnlink ν κ A)
  | gc

/-- How an iteration of the loop ends. -/
inductive Exit (A : Type*)
  | retry
  | loaded (ss : Option A)
  | succeeded
  | failed (ss : Option A)

/-- Where a thread is: the next access it makes. -/
inductive Pc (θ ν κ A : Type*)
  | idle
  | addRef (ss : A) (k : AfterAddRef ν κ A)
  | exchange (target : ν) (cell : κ) (new_ss : Option A)
  | register (pc : RegisterPc θ) (k : AfterRegister ν κ A)
  | protect (pc : ProtectPc A) (k : Call ν κ A)
  | tryLoad (ss : A) (k : Call ν κ A)
  | tryCas (ss : A) (old : ℕ) (k : Call ν κ A)
  | acquired (ss : Option A) (k : Call ν κ A)
  | swing (x : Exchange ν κ A)
  | unlink (ss : A) (k : AfterUnlink ν κ A)
  | retire (ss : A) (k : AfterUnlink ν κ A)
  | collect (kept : List A) (k : AfterUnlink ν κ A)
  | scan (pc : ScanPc θ) (obj : A) (kept : List A) (k : AfterUnlink ν κ A)
  | destroy (obj : A) (kept : List A) (k : AfterUnlink ν κ A)
  | resume (k : AfterUnlink ν κ A)
  | scopedReset (ss : Option A) (k : Call ν κ A) (exit : Exit A)
  | ownerReset (k : Call ν κ A) (exit : Exit A)

/-! ## The variables of a call -/

variable {θ ν κ A : Type*}

def Exchange.uses (x : Exchange ν κ A) : List ν := [x.expected, x.desired]

def Call.cell : Call ν κ A → κ
  | .load _ cell => cell
  | .compareExchange x => x.cell

def Call.uses : Call ν κ A → List ν
  | .load dst _ => [dst]
  | .compareExchange x => x.uses

def AfterAddRef.uses : AfterAddRef ν κ A → List ν
  | .construct src dst => [src, dst]
  | .assign src dst => [src, dst]
  | .store target _ => [target]
  | .compareExchange x => x.uses

def AfterUnlink.uses : AfterUnlink ν κ A → List ν
  | .done => []
  | .param v => [v]
  | .store target _ _ => [target]
  | .exchanged x => x.uses
  | .released x _ => x.uses
  | .assigned x _ => x.uses

def AfterRegister.uses : AfterRegister ν κ A → List ν
  | .call k => k.uses
  | .retire _ k => k.uses
  | .gc => []

/-- The variables the thread is using. -/
def Pc.uses : Pc θ ν κ A → List ν
  | .idle => []
  | .addRef _ k => k.uses
  | .exchange target _ _ => [target]
  | .register _ k => k.uses
  | .protect _ k => k.uses
  | .tryLoad _ k => k.uses
  | .tryCas _ _ k => k.uses
  | .acquired _ k => k.uses
  | .swing x => x.uses
  | .unlink _ k => k.uses
  | .retire _ k => k.uses
  | .collect _ k => k.uses
  | .scan _ _ _ k => k.uses
  | .destroy _ _ k => k.uses
  | .resume k => k.uses
  | .scopedReset _ k _ => k.uses
  | .ownerReset k _ => k.uses

/-! ## The state -/

structure State (θ ν κ A : Type*) where
  live : A → Bool
  counter_ : A → ℕ
  var : ν → Option A
  cell : κ → Option A
  head_ : Option θ
  next_ : θ → Option θ
  current_mutator : θ → Bool
  hazard_ptrs_ : θ → Fin 2 → Option A
  retired_ : θ → List A
  pc : θ → Pc θ ν κ A
  fault : Bool
  made : A → ℕ
  retires : A → ℕ
  mutators : List θ

/-- Nothing has been constructed yet. -/
def State.init : State θ ν κ A where
  live _ := false
  counter_ _ := 0
  var _ := none
  cell _ := none
  head_ := none
  next_ _ := none
  current_mutator _ := false
  hazard_ptrs_ _ _ := none
  retired_ _ := []
  pc _ := .idle
  fault := false
  made _ := 0
  retires _ := 0
  mutators := []

/-- No other thread is using the variable. -/
def State.Free (s : State θ ν κ A) (t : θ) (v : ν) : Prop := ∀ u, u ≠ t → v ∉ (s.pc u).uses

/-- A step acts on the state at `ss`. -/
def State.touch (s : State θ ν κ A) (ss : A) : State θ ν κ A :=
  { s with fault := s.fault || !s.live ss }

/-! ## Where a function returns to -/

/-- `if (old != nullptr) old->Unlink()`, and then `k`. -/
def unlinking (old : Option A) (k : AfterUnlink ν κ A) : Pc θ ν κ A :=
  match old with
  | none => .resume k
  | some ss => .unlink ss k

/-- `GetMutator()` returns. -/
def AfterRegister.resume : AfterRegister ν κ A → Pc θ ν κ A
  | .call k => .protect .load k
  | .retire ss k => .retire ss k
  | .gc => .collect [] .done

/-- `hazard::GetMutator()`. -/
def State.getMutator (s : State θ ν κ A) (t : θ) (k : AfterRegister ν κ A) : Pc θ ν κ A :=
  if s.current_mutator t then k.resume else .register .loadHead k

/-- The loop of `TryAddRef`, with `old` in its local. -/
def tryAddRef (ss : A) (old : ℕ) (k : Call ν κ A) : Pc θ ν κ A :=
  -- nobody refers to the state any more: the iteration is repeated
  if old = 0 then .scopedReset (some ss) k .retry else .tryCas ss old k

section Updates

variable [DecidableEq θ] [DecidableEq ν] [DecidableEq κ] [DecidableEq A]

def State.setPc (s : State θ ν κ A) (t : θ) (pc : Pc θ ν κ A) : State θ ν κ A :=
  { s with pc := update s.pc t pc }

def State.setVar (s : State θ ν κ A) (v : ν) (p : Option A) : State θ ν κ A :=
  { s with var := update s.var v p }

def State.setCell (s : State θ ν κ A) (c : κ) (p : Option A) : State θ ν κ A :=
  { s with cell := update s.cell c p }

def State.setCounter (s : State θ ν κ A) (ss : A) (n : ℕ) : State θ ν κ A :=
  { s with counter_ := update s.counter_ ss n }

/-- `hazard_ptrs_[0]`, the only one that is written. -/
def State.setHazard (s : State θ ν κ A) (t : θ) (p : Option A) : State θ ν κ A :=
  { s with hazard_ptrs_ := update s.hazard_ptrs_ t (update (s.hazard_ptrs_ t) 0 p) }

def State.setRetired (s : State θ ν κ A) (t : θ) (l : List A) : State θ ν κ A :=
  { s with retired_ := update s.retired_ t l }

/-- `Protect` returns `ss`. -/
def Call.afterProtect (ss : Option A) (k : Call ν κ A) : Pc θ ν κ A :=
  match k, ss with
  | .load _ _, none => .acquired none k
  | .load _ _, some ss => .tryLoad ss k
  | .compareExchange x, ss =>
    -- an equal pointer is swung, another one is loaded into `expected`
    if x.ss_expected = ss then .swing x
    else
      match ss with
      | none => .acquired none k
      | some ss => .tryLoad ss k

/-! ## The steps -/

/-- `Unlink`. -/
def unlinkStep (t : θ) (ss : A) (k : AfterUnlink ν κ A) (s : State θ ν κ A) : State θ ν κ A :=
  let s' := (s.touch ss).setCounter ss (s.counter_ ss - 1)
  -- the last reference retires the state
  s'.setPc t (if s.counter_ ss = 1 then s.getMutator t (.retire ss k) else .resume k)

/-- `AddRef`, and what its caller does next. -/
def addRefStep (t : θ) (ss : A) (k : AfterAddRef ν κ A) (s : State θ ν κ A) : State θ ν κ A :=
  let s' := (s.touch ss).setCounter ss (s.counter_ ss + 1)
  match k with
  | .construct _ dst => (s'.setVar dst (some ss)).setPc t .idle
  -- copy and swap: the old referent is unlinked by the temporary
  | .assign _ dst => (s'.setVar dst (some ss)).setPc t (unlinking (s.var dst) .done)
  | .store target cell => s'.setPc t (.exchange target cell (some ss))
  | .compareExchange x => s'.setPc t (s.getMutator t (.call (.compareExchange x)))

/-- `Collector::GetMutator`: `current_mutator` is set, and stays so, before the
loop. `weak` makes the `compare_exchange_weak` fail spuriously. -/
def registerStep (t : θ) (weak : Bool) (k : AfterRegister ν κ A) (s : State θ ν κ A) :
    RegisterPc θ → State θ ν κ A
  | .loadHead =>
    { s with current_mutator := update s.current_mutator t true }.setPc t
      (.register (.storeNext s.head_) k)
  | .storeNext head =>
    { s with next_ := update s.next_ t head }.setPc t (.register (.cas head) k)
  -- the new mutator is at the head, and stays in the list
  | .cas head =>
    if weak = false ∧ s.head_ = head then
      { s with head_ := some t, mutators := t :: s.mutators }.setPc t k.resume
    else s.setPc t (.register .loadHead k)

/-- `Protect` on the cell of the call. -/
def protectStep (t : θ) (k : Call ν κ A) (s : State θ ν κ A) : ProtectPc A → State θ ν κ A
  | .load => s.setPc t (.protect (.set (s.cell k.cell)) k)
  | .set ptr => (s.setHazard t ptr).setPc t (.protect (.check ptr) k)
  | .check ptr =>
    -- the pointer was still there after the slot had been written
    if s.cell k.cell = ptr then s.setPc t (k.afterProtect ptr) else s.setPc t (.protect .load k)

/-- `compare_exchange_weak(old, old + 1)` in `TryAddRef`. -/
def tryCasStep (t : θ) (weak : Bool) (ss : A) (old : ℕ) (k : Call ν κ A) (s : State θ ν κ A) :
    State θ ν κ A :=
  if weak = false ∧ s.counter_ ss = old then
    ((s.touch ss).setCounter ss (old + 1)).setPc t (.acquired (some ss) k)
  -- the failed exchange has loaded the counter into `old`
  else (s.touch ss).setPc t (tryAddRef ss (s.counter_ ss) k)

/-- `TryAddRef` has succeeded, or there is nothing to refer to. -/
def acquiredStep (t : θ) (ss : Option A) (k : Call ν κ A) (s : State θ ν κ A) : State θ ν κ A :=
  match k with
  | .load dst _ => (s.setVar dst ss).setPc t (.scopedReset ss k (.loaded ss))
  | .compareExchange x => s.setPc t (unlinking x.ss_desired (.released x ss))

/-- `ss_.compare_exchange_weak(ss, ss_desired)`. -/
def swingStep (t : θ) (weak : Bool) (x : Exchange ν κ A) (s : State θ ν κ A) : State θ ν κ A :=
  if weak = false ∧ s.cell x.cell = x.ss_expected then
    (s.setCell x.cell x.ss_desired).setPc t (unlinking x.ss_expected (.exchanged x))
  else s.setPc t (.scopedReset x.ss_expected (.compareExchange x) .retry)

/-- `IsProtected(obj)`, and what `Gc` does with the answer. -/
def scanStep (t : θ) (obj : A) (kept : List A) (k : AfterUnlink ν κ A) (s : State θ ν κ A) :
    ScanPc θ → State θ ν κ A
  | .loadHead =>
    match s.head_ with
    | none => s.setPc t (.scan (.checkHead none) obj kept k)
    | some head => s.setPc t (.scan (.slot (some head) head 0) obj kept k)
  | .slot head cur i =>
    if s.hazard_ptrs_ cur i = some obj then (s.touch obj).setPc t (.collect (kept ++ [obj]) k)
    else if i = 0 then s.setPc t (.scan (.slot head cur 1) obj kept k)
    else s.setPc t (.scan (.next head cur) obj kept k)
  | .next head cur =>
    match s.next_ cur with
    | none => s.setPc t (.scan (.checkHead head) obj kept k)
    | some cur => s.setPc t (.scan (.slot head cur 0) obj kept k)
  | .checkHead head =>
    if s.head_ = head then s.setPc t (.destroy obj kept k)
    else s.setPc t (.scan .loadHead obj kept k)

/-- The loop of `Gc`: the next object, or `retired_.Append(kept)`. -/
def collectStep (t : θ) (kept : List A) (k : AfterUnlink ν κ A) (s : State θ ν κ A) :
    State θ ν κ A :=
  match s.retired_ t with
  | [] => (s.setRetired t kept).setPc t (.resume k)
  | obj :: rest => ((s.touch obj).setRetired t rest).setPc t (.scan .loadHead obj kept k)

/-- `Unlink` has returned. -/
def resumeStep (t : θ) (s : State θ ν κ A) : AfterUnlink ν κ A → State θ ν κ A
  | .done => s.setPc t .idle
  | .param v => (s.setVar v none).setPc t (unlinking (s.var v) .done)
  | .store target _ _ => (s.setVar target none).setPc t (unlinking (s.var target) .done)
  | .exchanged x => s.setPc t (.scopedReset x.ss_expected (.compareExchange x) .succeeded)
  | .released x ss =>
    (s.setVar x.expected ss).setPc t (unlinking (s.var x.expected) (.assigned x ss))
  | .assigned x ss => s.setPc t (.scopedReset ss (.compareExchange x) (.failed ss))

/-- The destructor of `sr`. -/
def scopedResetStep (t : θ) (k : Call ν κ A) (exit : Exit A) (s : State θ ν κ A) :
    State θ ν κ A :=
  match exit with
  | .retry => (s.setHazard t none).setPc t (.protect .load k)
  | _ => (s.setHazard t none).setPc t (.ownerReset k exit)

/-- The destructor of `protected_ss`, and the end of the call. -/
def ownerResetStep (t : θ) (k : Call ν κ A) (s : State θ ν κ A) : State θ ν κ A :=
  match k with
  | .load _ _ => (s.setHazard t none).setPc t .idle
  | .compareExchange x => (s.setHazard t none).setPc t (.resume (.param x.desired))

/-- The next step of thread `t` inside a call. -/
def threadStep (t : θ) (weak : Bool) (s : State θ ν κ A) : Option (State θ ν κ A) :=
  match s.pc t with
  | .idle => none
  | .addRef ss k => some (addRefStep t ss k s)
  | .exchange target cell new_ss =>
    some ((s.setCell cell new_ss).setPc t (unlinking (s.cell cell) (.store target cell new_ss)))
  | .register pc k => some (registerStep t weak k s pc)
  | .protect pc k => some (protectStep t k s pc)
  | .tryLoad ss k => some ((s.touch ss).setPc t (tryAddRef ss (s.counter_ ss) k))
  | .tryCas ss old k => some (tryCasStep t weak ss old k s)
  | .acquired ss k => some (acquiredStep t ss k s)
  | .swing x => some (swingStep t weak x s)
  | .unlink ss k => some (unlinkStep t ss k s)
  | .retire ss k =>
    some ({ (s.touch ss).setRetired t (s.retired_ t ++ [ss]) with
      retires := update s.retires ss (s.retires ss + 1) }.setPc t (.collect [] k))
  | .collect kept k => some (collectStep t kept k s)
  | .scan pc obj kept k => some (scanStep t obj kept k s pc)
  | .destroy obj kept k =>
    some ({ s.touch obj with live := update s.live obj false }.setPc t (.collect kept k))
  | .resume k => some (resumeStep t s k)
  | .scopedReset _ k exit => some (scopedResetStep t k exit s)
  | .ownerReset k _ => some (ownerResetStep t k s)

/-! ## The calls -/

/-- What a thread may begin. A variable that is constructed is null before. -/
inductive Op (ν κ A : Type*)
  | makeShared (dst : ν) (ss : A)
  | copy (src dst : ν)
  | copyAssign (src dst : ν)
  | move (src dst : ν)
  | moveAssign (src dst : ν)
  | reset (v : ν)
  | deref (v : ν)
  | load (dst : ν) (cell : κ)
  | store (target : ν) (cell : κ)
  | compareExchange (cell : κ) (expected desired : ν)
  | gc

def Op.uses : Op ν κ A → List ν
  | .makeShared dst _ => [dst]
  | .copy src dst => [src, dst]
  | .copyAssign src dst => [src, dst]
  | .move src dst => [src, dst]
  | .moveAssign src dst => [src, dst]
  | .reset v => [v]
  | .deref v => [v]
  | .load dst _ => [dst]
  | .store target _ => [target]
  | .compareExchange _ expected desired => [expected, desired]
  | .gc => []

/-- The first step of a call, up to its first access. -/
def begin_ (t : θ) (op : Op ν κ A) (s : State θ ν κ A) : Option (State θ ν κ A) :=
  match op with
  | .makeShared dst ss =>
    if s.live ss = false ∧ s.var dst = none then
      some ({ s with
        live := update s.live ss true
        counter_ := update s.counter_ ss 1
        made := update s.made ss (s.made ss + 1)
        retires := update s.retires ss 0 }.setVar dst (some ss))
    else none
  | .copy src dst =>
    if s.var dst = none then
      match s.var src with
      | none => some s
      | some ss => some (s.setPc t (.addRef ss (.construct src dst)))
    else none
  | .copyAssign src dst =>
    match s.var src with
    | none => some ((s.setVar dst none).setPc t (unlinking (s.var dst) .done))
    | some ss => some (s.setPc t (.addRef ss (.assign src dst)))
  | .move src dst =>
    if s.var dst = none ∧ src ≠ dst then some ((s.setVar dst (s.var src)).setVar src none)
    else none
  | .moveAssign src dst =>
    let s' := s.setVar src none
    some ((s'.setVar dst (s.var src)).setPc t (unlinking (s'.var dst) .done))
  | .reset v => some ((s.setVar v none).setPc t (unlinking (s.var v) .done))
  | .deref v =>
    match s.var v with
    | none => none
    | some ss => some (s.touch ss)
  | .load dst cell =>
    if s.var dst = none then some (s.setPc t (s.getMutator t (.call (.load dst cell))))
    else none
  | .store target cell =>
    match s.var target with
    | none => some (s.setPc t (.exchange target cell none))
    | some ss => some (s.setPc t (.addRef ss (.store target cell)))
  | .compareExchange cell expected desired =>
    if expected ≠ desired then
      let x : Exchange ν κ A := ⟨cell, expected, desired, s.var expected, s.var desired⟩
      match s.var desired with
      | none => some (s.setPc t (s.getMutator t (.call (.compareExchange x))))
      | some ss => some (s.setPc t (.addRef ss (.compareExchange x)))
    else none
  | .gc => some (s.setPc t (s.getMutator t .gc))

/-- Who moves, and how. -/
inductive Action (θ ν κ A : Type*)
  | call (t : θ) (op : Op ν κ A)
  | step (t : θ) (weak : Bool)

variable [Fintype θ]

instance (s : State θ ν κ A) (t : θ) (v : ν) : Decidable (s.Free t v) :=
  inferInstanceAs (Decidable (∀ u, u ≠ t → v ∉ (s.pc u).uses))

def step (a : Action θ ν κ A) (s : State θ ν κ A) : Option (State θ ν κ A) :=
  match a with
  | .call t op =>
    match s.pc t with
    | .idle => if ∀ v ∈ op.uses, s.Free t v then begin_ t op s else none
    | _ => none
  | .step t weak => threadStep t weak s

variable (θ ν κ A) in
def machine : Machine (State θ ν κ A) (Action θ ν κ A) where
  init s := s = .init
  step := step

end Updates

end Exe.Gc
