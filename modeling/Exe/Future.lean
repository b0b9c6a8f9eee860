/-
Futures, promises and their combinators, one access at a time.

The model covers `ContractState` with its rendezvous, `Contract`, `Promise` and
`Future`, the makers `Ready` and `Spawn`, and the combinators `Via`, `Map`,
`Flatten`, `FlatMap`, `After`, `MapOk`, `AndThen`, `OrElse`, `Both`, `First`,
`FirstOk` and `BothOk`.

# Conventions

* User code is an expression. Evaluated by a thread, it makes futures and returns a
  value, which may be a future. A function given to a combinator is a function from
  the value it is called with to the code it runs. Nothing is assumed of these
  functions: a future they have been given can be used or dropped. If they use one
  twice, the second use finds a future that has been moved from, and the thread is
  stuck there.
* Values are not typed. Where the types of the code exclude a value, the model takes
  it for a success, or is stuck.
* `later` lists what a thread leaves to others: a submitted task or a timer is a
  thread of its own, that has not begun yet. So a runtime runs each of them once, in
  any order and at any time. A task submitted to the inline runtime is run at once.
* A leaf is a contract whose promise somebody else will set, some time, with the value
  of some code.
* The callbacks are data. Each of them carries one thing: a promise, a side of a
  concurrent combinator, or the number of the expression it is the consumer of.
* Contract states are numbered in the order they are allocated in, and numbers are not
  used again. `deleted` says that a state has been deleted, `held` that its `Future`
  has not been moved from. `fault` says that a step has acted on a deleted state, has
  called `Set` on a promise that was satisfied, or has read what was not constructed.
* `armed` are the calls of `SetTimer`. A delay is not measured: the handler runs whenever
  the runtime lets it.
* `calls`, `sets`, `origin`, `owner`, `arrivals`, `leaf`, `roots`, `ran`, `invoked` and
  `armed` are history.
-/
import Exe.Machine
import Exe.Deadline
import Mathlib.Logic.Function.Basic

set_option autoImplicit false

namespace Exe.Future

open Function (update)

universe u v

/-! ## User code -/

/-- `runtime::View`. -/
inductive Runtime (ρ : Type v)
  | inline
  | executor (r : ρ)

/-- `ok` and `err` are the two sides of a `Result`, `pair` is a tuple, and `future`
a `Future`, by its contract state. -/
inductive Val (V : Type u)
  | plain (a : V)
  | pair (v w : Val V)
  | ok (v : Val V)
  | err (e : Val V)
  | future (cs : ℕ)
  deriving DecidableEq

/-- `operator bool` of a `Result`. -/
def Val.hasValue {V : Type u} : Val V → Bool
  | .err _ => false
  | _ => true

def Val.value {V : Type u} : Val V → Val V
  | .ok v => v
  | v => v

def Val.error {V : Type u} : Val V → Val V
  | .err e => e
  | v => v

/-- The sequential combinators; `F` is the type of the functions they take. -/
inductive Pipe (ρ : Type v) (F : Type u)
  | via (rt : Runtime ρ)
  | map (user : F)
  | flatten
  | after (delay : Timer.Duration)
  | mapOk (user : F)
  | andThen (user : F)
  | orElse (user : F)

/-- The concurrent combinators. -/
inductive Concur
  | both
  | first
  | firstOk
  | bothOk
  deriving DecidableEq

inductive Expr (V : Type u) (ρ : Type v) : Type (max u v)
  | value (v : Val V)
  | contract
  | ready (e : Expr V ρ)
  | spawn (rt : Runtime ρ) (user : Expr V ρ)
  | pipe (op : Pipe ρ (Val V → Expr V ρ)) (e : Expr V ρ)
  | concur (op : Concur) (e₁ e₂ : Expr V ρ)

/-- `FlatMap(user)`. -/
def Expr.flatMap {V : Type u} {ρ : Type v} (user : Val V → Expr V ρ) (e : Expr V ρ) : Expr V ρ :=
  .pipe .flatten (.pipe (.map user) e)

variable {V : Type u} {ρ : Type v}

/-! ## Callbacks and instructions -/

inductive Side
  | first
  | second
  deriving DecidableEq

def Side.other : Side → Side
  | .first => .second
  | .second => .first

/-- What a future is consumed with: by the program, in `Pipe` of a combinator, by
the inner `Consume` of `Flatten`, `AndThen` and `OrElse`, or by a concurrent
combinator. -/
inductive Callback (V : Type u) (ρ : Type v) : Type (max u v)
  | root (r : ℕ)
  | pipe (op : Pipe ρ (Val V → Expr V ρ)) (rt : Runtime ρ) (promise : ℕ)
  | forward (promise : ℕ)
  | concur (node : ℕ) (side : Side)

/-- What becomes of the value of an expression. -/
inductive Cont (V : Type u) (ρ : Type v) : Type (max u v)
  | set (promise : ℕ)
  | setOk (promise : ℕ)
  | consume (cb : Callback V ρ)
  | ready (k : Cont V ρ)
  | pipe (op : Pipe ρ (Val V → Expr V ρ)) (k : Cont V ρ)
  | concurFst (op : Concur) (e₂ : Expr V ρ) (k : Cont V ρ)
  | concurSnd (op : Concur) (v₁ : Val V) (k : Cont V ρ)

/-- The call of a user function: the promise it is for, the runtime it has been
submitted to, and its argument. -/
structure Invocation (V : Type u) (ρ : Type v) : Type (max u v) where
  promise : ℕ
  runtime : Runtime ρ
  arg : Option (Val V)

/-- A timer that has been set: the promise its handler is for, the runtime and the delay. -/
structure Arming (ρ : Type v) where
  promise : ℕ
  runtime : Runtime ρ
  delay : Timer.Duration

/-- What a thread still has to do. `task` is a task that has been submitted, `leaf` is the
promise of a leaf; `produce` and `produced` are the two halves of `Produce`, `consume` and
`consumed` those of `Consume`; `call`, `store`, `arrive`, `setTuple`, `setNode` and `fail`
are the parts of the callback of a concurrent combinator. -/
inductive Instr (V : Type u) (ρ : Type v) : Type (max u v)
  | eval (e : Expr V ρ) (k : Cont V ρ)
  | ret (v : Val V) (k : Cont V ρ)
  | task (i : Invocation V ρ) (code : Expr V ρ) (k : Cont V ρ)
  | leaf (promise : ℕ)
  | produce (cs : ℕ) (res : Val V)
  | produced (cs : ℕ)
  | consume (cs : ℕ) (cb : Callback V ρ)
  | consumed (cs : ℕ)
  | rendezvous (cs : ℕ)
  | delete (cs : ℕ)
  | call (node : ℕ) (side : Side) (v : Val V)
  | store (node : ℕ) (side : Side) (v : Val V)
  | arrive (node : ℕ) (side : Side) (v : Val V)
  | setTuple (node : ℕ)
  | setNode (node : ℕ) (v : Val V)
  | fail (node : ℕ)

/-! ## The heap -/

/-- What a contract has been made for. -/
inductive Origin (V : Type u) (ρ : Type v) : Type (max u v)
  | contract
  | ready (v : Val V)
  | spawn (rt : Runtime ρ) (user : Expr V ρ)
  | pipe (op : Pipe ρ (Val V → Expr V ρ)) (cs : ℕ)
  | concur (op : Concur) (cs₁ cs₂ : ℕ)

structure ContractState (V : Type u) (ρ : Type v) : Type (max u v) where
  state_ : ℕ
  callback_ : Option (Callback V ρ)
  result_ : Option (Val V)
  runtime_ : Runtime ρ
  deleted : Bool
  calls : List (Val V)
  sets : ℕ
  origin : Option (Origin V ρ)

/-- `RendezvousStateMachine::States`. -/
def States.Procuder : ℕ := 1
def States.Consumer : ℕ := 2

/-- The state two callbacks share. `arrivals` are the callbacks that have made their
atomic access, in this order; the error branch of `BothOk` counts when it begins. -/
structure ProtectedPromise (V : Type u) where
  op : Concur
  promise : Option ℕ
  slot : Side → Option (Val V)
  state : ℕ
  owner : ℕ
  arrivals : List (Side × Val V)

structure Heap (V : Type u) (ρ : Type v) : Type (max u v) where
  size : ℕ
  states : ℕ → ContractState V ρ
  held : ℕ → Bool
  nodeCount : ℕ
  nodes : ℕ → ProtectedPromise V
  fault : Bool
  leaf : ℕ → Option (Expr V ρ)
  roots : List (Expr V ρ)
  ran : List (ℕ × Val V)
  invoked : List (Invocation V ρ)
  armed : List (Arming ρ)

def ContractState.none_ : ContractState V ρ := ⟨0, none, none, .inline, false, [], 0, none⟩

def ProtectedPromise.none_ : ProtectedPromise V := ⟨.first, none, fun _ => none, 0, 0, []⟩

def Heap.empty : Heap V ρ :=
  ⟨0, fun _ => .none_, fun _ => false, 0, fun _ => .none_, false, fun _ => none, [], [], [], []⟩

/-- A step acts on the state. -/
def Heap.touch (h : Heap V ρ) (cs : ℕ) : Heap V ρ :=
  { h with fault := h.fault || (h.states cs).deleted }

def Heap.crash (h : Heap V ρ) : Heap V ρ := { h with fault := true }

def Heap.setState (h : Heap V ρ) (cs : ℕ) (st : ContractState V ρ) : Heap V ρ :=
  { h with states := update h.states cs st }

def Heap.setNode (h : Heap V ρ) (n : ℕ) (node : ProtectedPromise V) : Heap V ρ :=
  { h with nodes := update h.nodes n node }

/-- `Contract()`, and `SetRuntime` on the new future. Its number is `h.size`. -/
def Heap.contract (h : Heap V ρ) (rt : Runtime ρ) (origin : Origin V ρ) : Heap V ρ :=
  { h.setState h.size ⟨0, none, none, rt, false, [], 0, some origin⟩ with
    size := h.size + 1
    held := update h.held h.size true }

/-- A `Future` is moved from. -/
def Heap.release (h : Heap V ρ) (cs : ℕ) : Heap V ρ :=
  { h with held := update h.held cs false }

/-- `make_shared<ProtectedPromise>(std::move(promise))`. Its number is `h.nodeCount`. -/
def Heap.share (h : Heap V ρ) (op : Concur) (promise : ℕ) : Heap V ρ :=
  { h.setNode h.nodeCount ⟨op, some promise, fun _ => none, 0, promise, []⟩ with
    nodeCount := h.nodeCount + 1 }

/-! ## Running an instruction -/

/-- The heap afterwards, what the thread does next, and what it leaves to others. -/
structure Out (V : Type u) (ρ : Type v) : Type (max u v) where
  heap : Heap V ρ
  now : List (Instr V ρ)
  later : List (Instr V ρ)

/-- `SubmitTask`. -/
def submit (h : Heap V ρ) (rt : Runtime ρ) (task : Instr V ρ) : Out V ρ :=
  match rt with
  | .inline => ⟨h, [task], []⟩
  | .executor _ => ⟨h, [], [task]⟩

/-- `SetTimer`. The handler runs on its own, whenever the delay is over. -/
def setTimer (h : Heap V ρ) (rt : Runtime ρ) (delay : Timer.Duration) (promise : ℕ)
    (handler : Instr V ρ) : Out V ρ :=
  ⟨{ h with armed := h.armed ++ [⟨promise, rt, delay⟩] }, [], [handler]⟩

def evalStep (h : Heap V ρ) (k : Cont V ρ) : Expr V ρ → Out V ρ
  | .value v => ⟨h, [.ret v k], []⟩
  -- the promise of a contract is set by somebody else, at any time
  | .contract => ⟨h.contract .inline .contract, [.ret (.future h.size) k], [.leaf h.size]⟩
  | .ready e => ⟨h, [.eval e (.ready k)], []⟩
  | .spawn rt user =>
    let out := submit (h.contract rt (.spawn rt user)) rt
      (.task ⟨h.size, rt, none⟩ user (.set h.size))
    -- on the inline runtime the task has run before `Spawn` returns
    { out with now := out.now ++ [.ret (.future h.size) k] }
  | .pipe op e => ⟨h, [.eval e (.pipe op k)], []⟩
  | .concur op e₁ e₂ => ⟨h, [.eval e₁ (.concurFst op e₂ k)], []⟩

/-- `Pipe` of a sequential combinator. -/
def pipeStep (h : Heap V ρ) (op : Pipe ρ (Val V → Expr V ρ)) (k : Cont V ρ) (cs : ℕ) : Out V ρ :=
  match op with
  | .via rt =>
    ⟨(h.touch cs).setState cs { h.states cs with runtime_ := rt }, [.ret (.future cs) k], []⟩
  | op =>
    -- `Pipe` captures the runtime of its input and passes it on
    let rt := (h.states cs).runtime_
    ⟨((h.touch cs).contract rt (.pipe op cs)).release cs,
      [.consume cs (.pipe op rt h.size), .ret (.future h.size) k], []⟩

/-- The call of a concurrent combinator. -/
def concurStep (h : Heap V ρ) (op : Concur) (k : Cont V ρ) (cs₁ cs₂ : ℕ) : Out V ρ :=
  ⟨(((h.contract .inline (.concur op cs₁ cs₂)).share op h.size).release cs₁).release cs₂,
    [.consume cs₁ (.concur h.nodeCount .first), .consume cs₂ (.concur h.nodeCount .second),
      .ret (.future h.size) k], []⟩

def retStep (h : Heap V ρ) (v : Val V) : Cont V ρ → Option (Out V ρ)
  | .set promise => some ⟨h, [.produce promise v], []⟩
  | .setOk promise => some ⟨h, [.produce promise (.ok v)], []⟩
  | .consume cb =>
    match v with
    | .future cs => if h.held cs then some ⟨h.release cs, [.consume cs cb], []⟩ else none
    | _ => none
  | .ready k =>
    some ⟨h.contract .inline (.ready v), [.produce h.size v, .ret (.future h.size) k], []⟩
  | .pipe op k =>
    match v with
    | .future cs => if h.held cs then some (pipeStep h op k cs) else none
    | _ => none
  | .concurFst op e₂ k => some ⟨h, [.eval e₂ (.concurSnd op v k)], []⟩
  -- a future is moved into the call, so the two are not the same one
  | .concurSnd op v₁ k =>
    match v₁, v with
    | .future cs₁, .future cs₂ =>
      if h.held cs₁ ∧ h.held cs₂ ∧ cs₁ ≠ cs₂ then some (concurStep h op k cs₁ cs₂) else none
    | _, _ => none

/-- The callback of a sequential combinator. -/
def pipeCallback (h : Heap V ρ) (rt : Runtime ρ) (promise : ℕ) (v : Val V) :
    Pipe ρ (Val V → Expr V ρ) → Option (Out V ρ)
  | .via _ => none
  | .map user => some (submit h rt (.task ⟨promise, rt, some v⟩ (user v) (.set promise)))
  | .flatten =>
    match v with
    | .future cs =>
      if h.held cs then some ⟨h.release cs, [.consume cs (.forward promise)], []⟩ else none
    | _ => none
  | .after delay => some (setTimer h rt delay promise (.produce promise v))
  | .mapOk user =>
    if v.hasValue then
      some (submit h rt (.task ⟨promise, rt, some v.value⟩ (user v.value) (.setOk promise)))
    else some ⟨h, [.produce promise v], []⟩
  | .andThen user =>
    if v.hasValue then
      some (submit h rt (.task ⟨promise, rt, some v.value⟩ (user v.value)
        (.consume (.forward promise))))
    else some ⟨h, [.produce promise v], []⟩
  | .orElse user =>
    if v.hasValue then some ⟨h, [.produce promise v], []⟩
    else
      some (submit h rt (.task ⟨promise, rt, some v.error⟩ (user v.error)
        (.consume (.forward promise))))

def callback (h : Heap V ρ) (cb : Callback V ρ) (v : Val V) : Option (Out V ρ) :=
  match cb with
  | .root r => some ⟨{ h with ran := h.ran ++ [(r, v)] }, [], []⟩
  | .pipe op rt promise => pipeCallback h rt promise v op
  | .forward promise => some ⟨h, [.produce promise v], []⟩
  | .concur n side => some ⟨h, [.call n side v], []⟩

/-- `(*callback_)(std::move(*result_)); delete this`. -/
def rendezvousStep (h : Heap V ρ) (cs : ℕ) : Option (Out V ρ) :=
  let st := h.states cs
  match st.callback_, st.result_ with
  | some cb, some v =>
    -- `delete this` comes after the callback has returned
    (callback ((h.touch cs).setState cs { st with calls := st.calls ++ [v] }) cb v).map fun out =>
      { out with now := out.now ++ [.delete cs] }
  | _, _ => some ⟨h.crash, [], []⟩

/-- The bit of a side in `state`. -/
def Side.bit : Side → ℕ
  | .first => 1
  | .second => 2

def satisfied : ℕ := 1
def reportError : ℕ := 2
def failBit : ℕ := 4

/-- The callbacks of a concurrent combinator, up to their first write. -/
def callStep (h : Heap V ρ) (n : ℕ) (side : Side) (v : Val V) : Out V ρ :=
  match (h.nodes n).op with
  | .both => ⟨h, [.store n side v], []⟩
  | .first => ⟨h, [.arrive n side v], []⟩
  | .firstOk => ⟨h, [.arrive n side v], []⟩
  | .bothOk =>
    if v.hasValue then ⟨h, [.store n side v.value], []⟩
    -- an error is set without asking the state, which is told afterwards
    else ⟨h.setNode n { h.nodes n with arrivals := (h.nodes n).arrivals ++ [(side, v)] },
      [.setNode n v, .fail n], []⟩

/-- Their atomic access. -/
def arriveStep (h : Heap V ρ) (n : ℕ) (side : Side) (v : Val V) : Out V ρ :=
  let node := h.nodes n
  match node.op with
  | .both =>
    ⟨h.setNode n { node with
        state := node.state ||| side.bit, arrivals := node.arrivals ++ [(side, v)] },
      -- whoever finds the bit of the other is the second
      if node.state = side.other.bit then [.setTuple n] else [], []⟩
  | .first =>
    ⟨h.setNode n { node with state := satisfied, arrivals := node.arrivals ++ [(side, v)] },
      if node.state = 0 then [.setNode n v] else [], []⟩
  | .firstOk =>
    -- the first success is set, and of two errors the last
    if v.hasValue then
      ⟨h.setNode n { node with state := satisfied, arrivals := node.arrivals ++ [(side, v)] },
        if node.state ≠ satisfied then [.setNode n v] else [], []⟩
    else
      ⟨h.setNode n { node with state := reportError, arrivals := node.arrivals ++ [(side, v)] },
        if node.state = reportError then [.setNode n v] else [], []⟩
  | .bothOk =>
    ⟨h.setNode n { node with
        state := node.state ||| side.bit, arrivals := node.arrivals ++ [(side, .ok v)] },
      if node.state = side.other.bit then [.setTuple n] else [], []⟩

/-- `std::move(state->promise).Set(std::make_tuple(*v1, *v2))`. -/
def setTupleStep (h : Heap V ρ) (n : ℕ) : Out V ρ :=
  let node := h.nodes n
  match node.promise, node.slot .first, node.slot .second with
  | some promise, some v₁, some v₂ =>
    ⟨h.setNode n { node with promise := none },
      [.produce promise (if node.op = .bothOk then .ok (.pair v₁ v₂) else .pair v₁ v₂)], []⟩
  | _, _, _ => ⟨h.crash, [], []⟩

/-- `std::move(state->promise).Set(v)`. -/
def setNodeStep (h : Heap V ρ) (n : ℕ) (v : Val V) : Out V ρ :=
  match (h.nodes n).promise with
  | some promise => ⟨h.setNode n { h.nodes n with promise := none }, [.produce promise v], []⟩
  | none => ⟨h.crash, [], []⟩

/-- One instruction. `code` is what the promise of a leaf is set with. -/
def exec (code : Expr V ρ) (h : Heap V ρ) : Instr V ρ → Option (Out V ρ)
  | .eval e k => some (evalStep h k e)
  | .ret v k => retStep h v k
  | .task i code k => some ⟨{ h with invoked := h.invoked ++ [i] }, [.eval code k], []⟩
  | .leaf promise =>
    some ⟨{ h with leaf := update h.leaf promise (some code) }, [.eval code (.set promise)], []⟩
  | .produce cs res =>
    let st := h.states cs
    some ⟨(h.touch cs).setState cs { st with result_ := some res, sets := st.sets + 1 },
      [.produced cs], []⟩
  | .produced cs =>
    let st := h.states cs
    some ⟨(h.touch cs).setState cs { st with state_ := st.state_ ||| States.Procuder },
      -- the `fetch_or` has found that the callback is there
      if st.state_ = States.Consumer then [.rendezvous cs] else [], []⟩
  | .consume cs cb =>
    some ⟨(h.touch cs).setState cs { h.states cs with callback_ := some cb }, [.consumed cs], []⟩
  | .consumed cs =>
    let st := h.states cs
    some ⟨(h.touch cs).setState cs { st with state_ := st.state_ ||| States.Consumer },
      -- the `fetch_or` has found that the result is there
      if st.state_ = States.Procuder then [.rendezvous cs] else [], []⟩
  | .rendezvous cs => rendezvousStep h cs
  | .delete cs => some ⟨(h.touch cs).setState cs { h.states cs with deleted := true }, [], []⟩
  | .call n side v => some (callStep h n side v)
  | .store n side v =>
    some ⟨h.setNode n { h.nodes n with slot := update (h.nodes n).slot side (some v) },
      [.arrive n side v], []⟩
  | .arrive n side v => some (arriveStep h n side v)
  | .setTuple n => some (setTupleStep h n)
  | .setNode n v => some (setNodeStep h n v)
  | .fail n =>
    some ⟨h.setNode n { h.nodes n with state := (h.nodes n).state ||| failBit }, [], []⟩

/-! ## The machine -/

structure State (V : Type u) (ρ : Type v) : Type (max u v) where
  heap : Heap V ρ
  threads : List (List (Instr V ρ))

/-- The program begins to evaluate an expression, the future of which it consumes;
or a thread runs its next instruction. -/
inductive Action (V : Type u) (ρ : Type v) : Type (max u v)
  | start (e : Expr V ρ)
  | step (t : ℕ) (code : Expr V ρ)

def step (a : Action V ρ) (s : State V ρ) : Option (State V ρ) :=
  match a with
  | .start e =>
    some ⟨{ s.heap with roots := s.heap.roots ++ [e] },
      s.threads ++ [[.eval e (.consume (.root s.heap.roots.length))]]⟩
  | .step t code =>
    match s.threads[t]? with
    | some (i :: rest) =>
      (exec code s.heap i).map fun out =>
        -- what it leaves to others gets threads of its own
        ⟨out.heap, s.threads.set t (out.now ++ rest) ++ out.later.map fun i => [i]⟩
    | _ => none

variable (V ρ) in
def machine : Machine (State V ρ) (Action V ρ) where
  init s := s = ⟨.empty, []⟩
  step := step

end Exe.Future
