/-
`future::Get`: a thread waits for the value of a future.

`Get` consumes the future with a callback that writes into its own frame, fires an event
there, and is done with it; then it waits for the event and returns. Whichever of the two
parties comes second to the contract runs the callback, and deletes the contract. So the
frame may be gone as soon as the event has been stored, while `Fire` has yet to wake the
waiter, and the contract as soon as both have been at its state machine.

That no access is ever made to either after its end, that the value arrives, and that the
waiter is not left asleep, is shown of every interleaving of the two threads' accesses.

# Conventions

* A contract that has been deleted and a frame that is not in scope are `none`. To access
  one, to construct into a cell that is not raw, to read one that holds no value, and to
  destroy one that is raw, is a fault.
* `futex::PrepareWake` takes the address of the word, and `WakeAll` needs no more than
  that. `futex::Wait` compares and goes to sleep in one step, and may return without a
  reason.
* `produced` is history: the value the promise was set with.
-/
import Exe.Machine

set_option autoImplicit false

namespace Exe.Get

variable {τ : Type}

/-! ## The memory -/

/-- A `ManualStorage`: raw bytes, a value, or what is left of one that was moved from. -/
inductive Cell (τ : Type)
  | raw
  | value (x : τ)
  | moved
  deriving DecidableEq

/-- `ContractState<T>`. `state_` is that of its `RendezvousStateMachine`. -/
structure Contract (τ : Type) where
  state_ : ℕ
  callback_ : Cell Unit
  result_ : Cell τ

/-- The locals of `Get`: `event`, by its `state_`, and `result`. -/
structure Frame (τ : Type) where
  event : ℕ
  result : Cell τ

structure Memory (τ : Type) where
  contract : Option (Contract τ)
  frame : Option (Frame τ)

/-- `States::Procuder` and `States::Consumer`. -/
def kProcuder : ℕ := 1

def kConsumer : ℕ := 2

/-- `Event::State::Fired` and `Event::State::Waiting`. -/
def kFired : ℕ := 1

def kWaiting : ℕ := 0

/-- `Emplace`. -/
def Cell.Emplace (x : τ) : Cell τ → Option (Cell τ)
  | .raw => some (.value x)
  | _ => none

/-- `std::move(*cell)`, with the value that is moved out. -/
def Cell.take : Cell τ → Option (τ × Cell τ)
  | .value x => some (x, .moved)
  | _ => none

/-- There is an object, to be called or to be destroyed. -/
def Cell.object : Cell τ → Option Unit
  | .raw => none
  | _ => some ()

/-! ## `Rendezvous` -/

/-- What the party that comes second has left to do in `Rendezvous`: to call the callback with
the value, in there to emplace it, to fire the event, and at last to `delete this`. -/
inductive Rv (τ : Type)
  | callback
  | emplace (x : τ)
  | prepareWake
  | store
  | wakeAll
  | delete

/-- One access of `Rendezvous`, and what is left then. `none` is a fault. -/
def Memory.rendezvous (m : Memory τ) : Rv τ → Option (Memory τ × Option (Rv τ))
  | .callback => do
    let c ← m.contract
    c.callback_.object
    let (x, result_) ← c.result_.take
    return ({ m with contract := some { c with result_ := result_ } }, some (.emplace x))
  | .emplace x => do
    let f ← m.frame
    let result ← f.result.Emplace x
    return ({ m with frame := some { f with result := result } }, some .prepareWake)
  | .prepareWake => do
    let _ ← m.frame
    return (m, some .store)
  | .store => do
    let f ← m.frame
    return ({ m with frame := some { f with event := kFired } }, some .wakeAll)
  | .wakeAll => return (m, some .delete)
  | .delete => do
    let c ← m.contract
    c.callback_.object
    c.result_.object
    return ({ m with contract := none }, none)

/-- `fetch_or(bit)`, with the state before. -/
def Memory.fetchOr (m : Memory τ) (bit : ℕ) : Option (ℕ × Memory τ) := do
  let c ← m.contract
  return (c.state_, { m with contract := some { c with state_ := c.state_ ||| bit } })

/-! ## The two threads -/

/-- Who sets the promise: before `Set`, in `Produce` before `Emplace` and before the state
machine, in `Rendezvous`, or back from it. -/
inductive Producer (τ : Type)
  | idle
  | emplace (x : τ)
  | fetchOr
  | rendezvous (r : Rv τ)
  | finished

/-- Who calls `Get`: before the call, in `Consume`, in `Event::Wait` before the load, before
`futex::Wait` and asleep in it, before the value is moved out and before the frame is left. -/
inductive Consumer (τ : Type)
  | idle
  | emplace
  | fetchOr
  | rendezvous (r : Rv τ)
  | load
  | wait
  | asleep
  | take
  | leave (x : τ)
  | returned (x : τ)

structure State (τ : Type) where
  memory : Memory τ
  producer : Producer τ
  consumer : Consumer τ
  produced : Option τ
  fault : Bool

/-- The contract of a `Future` and a `Promise` that nobody has used. -/
def State.start : State τ where
  memory := ⟨some ⟨0, .raw, .raw⟩, none⟩
  producer := .idle
  consumer := .idle
  produced := none
  fault := false

inductive Action (τ : Type)
  | produce (x : τ)
  | producer
  | get
  | consumer
  | spurious

/-- `WakeAll` on the event. -/
def Consumer.woken : Consumer τ → Consumer τ
  | .asleep => .load
  | c => c

/-- Going on with the outcome of an access, if it was not a fault. -/
def State.after {β : Type} (s : State τ) (r : Option β) (go : β → State τ) : State τ :=
  match r with
  | some x => go x
  | none => { s with fault := true }

def Rv.wakes : Rv τ → Bool
  | .wakeAll => true
  | _ => false

def producerStep (s : State τ) : Option (State τ) :=
  match s.producer with
  | .emplace x =>
    some (s.after (do
      let c ← s.memory.contract
      let result_ ← c.result_.Emplace x
      return { s.memory with contract := some { c with result_ := result_ } })
      fun m => { s with memory := m, producer := .fetchOr })
  | .fetchOr =>
    some (s.after (s.memory.fetchOr kProcuder) fun x =>
      { s with
        memory := x.2
        producer := if x.1 = kConsumer then .rendezvous .callback else .finished })
  | .rendezvous r =>
    some (s.after (s.memory.rendezvous r) fun x =>
      { s with
        memory := x.1
        producer := x.2.elim .finished .rendezvous
        consumer := if r.wakes then s.consumer.woken else s.consumer })
  | _ => none

def consumerStep (s : State τ) : Option (State τ) :=
  match s.consumer with
  | .emplace =>
    some (s.after (do
      let c ← s.memory.contract
      let callback_ ← c.callback_.Emplace ()
      return { s.memory with contract := some { c with callback_ := callback_ } })
      fun m => { s with memory := m, consumer := .fetchOr })
  | .fetchOr =>
    some (s.after (s.memory.fetchOr kConsumer) fun x =>
      { s with
        memory := x.2
        consumer := if x.1 = kProcuder then .rendezvous .callback else .load })
  | .rendezvous r =>
    some (s.after (s.memory.rendezvous r) fun x =>
      { s with memory := x.1, consumer := x.2.elim .load .rendezvous })
  | .load =>
    some (s.after s.memory.frame fun f =>
      { s with consumer := if f.event = kWaiting then .wait else .take })
  | .wait =>
    some (s.after s.memory.frame fun f =>
      { s with consumer := if f.event = kWaiting then .asleep else .load })
  | .take =>
    some (s.after (do
      let f ← s.memory.frame
      let (x, result) ← f.result.take
      return (x, { s.memory with frame := some { f with result := result } }))
      fun x => { s with memory := x.2, consumer := .leave x.1 })
  | .leave x =>
    some (s.after (do
      let f ← s.memory.frame
      f.result.object)
      fun _ => { s with memory := { s.memory with frame := none }, consumer := .returned x })
  | _ => none

def step (a : Action τ) (s : State τ) : Option (State τ) :=
  if s.fault then none else
  match a with
  | .produce x =>
    match s.producer with
    | .idle => some { s with producer := .emplace x, produced := some x }
    | _ => none
  | .producer => producerStep s
  | .get =>
    match s.consumer with
    | .idle =>
      some { s with
        memory := { s.memory with frame := some ⟨kWaiting, .raw⟩ }
        consumer := .emplace }
    | _ => none
  | .consumer => consumerStep s
  | .spurious =>
    match s.consumer with
    | .asleep => some { s with consumer := .load }
    | _ => none

def machine (τ : Type) : Machine (State τ) (Action τ) where
  init s := s = .start
  step := step

/-! ## How much is left -/

def Rv.left : Rv τ → ℕ
  | .callback => 6
  | .emplace _ => 5
  | .prepareWake => 4
  | .store => 3
  | .wakeAll => 2
  | .delete => 1

def Producer.left : Producer τ → ℕ
  | .idle => 12
  | .emplace _ => 11
  | .fetchOr => 10
  | .rendezvous r => r.left
  | .finished => 0

/-- What the consumer has to do before it waits. -/
def Consumer.left : Consumer τ → ℕ
  | .idle => 12
  | .emplace => 11
  | .fetchOr => 10
  | .rendezvous r => r.left
  | _ => 0

/-- What it has to do from there on. Before the event is fired it goes to sleep, and
afterwards it leaves. -/
def Consumer.waits (fired : Bool) : Consumer τ → ℕ
  | .load => if fired then 3 else 2
  | .wait => if fired then 4 else 1
  | .asleep => if fired then 5 else 0
  | .take => 2
  | .leave _ => 1
  | _ => 0

def State.fired (s : State τ) : Bool := s.memory.frame.any fun f => f.event = kFired

def State.calls (s : State τ) : ℕ := s.producer.left + s.consumer.left

def State.left (s : State τ) : ℕ := 6 * s.calls + s.consumer.waits s.fired

theorem Consumer.waits_le (fired : Bool) (c : Consumer τ) : c.waits fired ≤ 5 := by
  cases c <;> cases fired <;> simp [Consumer.waits]

/-! ## How far the two have got -/

/-- The producer before the state machine, with the value and the cell it is for. -/
inductive Sets : Option τ → Producer τ → Cell τ → Prop
  | idle : Sets none .idle .raw
  | emplace (x : τ) : Sets (some x) (.emplace x) .raw
  | fetchOr (x : τ) : Sets (some x) .fetchOr (.value x)

/-- The consumer before the state machine, with the cell of the callback and the frame. -/
inductive Consumes : Consumer τ → Cell Unit → Option (Frame τ) → Prop
  | idle : Consumes .idle .raw none
  | emplace : Consumes .emplace .raw (some ⟨kWaiting, .raw⟩)
  | fetchOr : Consumes .fetchOr (.value ()) (some ⟨kWaiting, .raw⟩)

/-- The consumer in `Event::Wait`. It may sleep as long as somebody is going to wake it. -/
inductive Waits (waker : Prop) : Consumer τ → Prop
  | load : Waits waker .load
  | wait : Waits waker .wait
  | asleep (h : waker) : Waits waker .asleep

/-- The consumer after `Event::Wait`, with its frame. -/
inductive Leaves (x : τ) : Consumer τ → Option (Frame τ) → Prop
  | take : Leaves x .take (some ⟨kFired, .value x⟩)
  | leave : Leaves x (.leave x) (some ⟨kFired, .moved⟩)
  | returned : Leaves x (.returned x) none

/-- `Rendezvous`, with the cell of the contract and the frame. -/
inductive Runs (x : τ) : Rv τ → Cell τ → Frame τ → Prop
  | callback : Runs x .callback (.value x) ⟨kWaiting, .raw⟩
  | emplace : Runs x (.emplace x) .moved ⟨kWaiting, .raw⟩
  | prepareWake : Runs x .prepareWake .moved ⟨kWaiting, .value x⟩
  | store : Runs x .store .moved ⟨kWaiting, .value x⟩
  | wakeAll : Runs x .wakeAll .moved ⟨kFired, .value x⟩
  | delete : Runs x .delete .moved ⟨kFired, .value x⟩

/-- Where the two threads can be at a time, and what the memory holds then. -/
inductive Together : Option τ → Memory τ → Producer τ → Consumer τ → Prop
  | apart {v : Option τ} {p : Producer τ} {c : Consumer τ} {cell : Cell τ} {cb : Cell Unit}
    {frame : Option (Frame τ)} (hp : Sets v p cell) (hc : Consumes c cb frame) :
    Together v ⟨some ⟨0, cb, cell⟩, frame⟩ p c
  | producerFirst {x : τ} {c : Consumer τ} {cb : Cell Unit} {frame : Option (Frame τ)}
    (hc : Consumes c cb frame) :
    Together (some x) ⟨some ⟨kProcuder, cb, .value x⟩, frame⟩ .finished c
  | consumerFirst {v : Option τ} {p : Producer τ} {c : Consumer τ} {cell : Cell τ}
    (hp : Sets v p cell) (hc : Waits True c) :
    Together v ⟨some ⟨kConsumer, .value (), cell⟩, some ⟨kWaiting, .raw⟩⟩ p c
  | byConsumer {x : τ} {r : Rv τ} {cell : Cell τ} {frame : Frame τ} (hr : Runs x r cell frame) :
    Together (some x) ⟨some ⟨3, .value (), cell⟩, some frame⟩ .finished (.rendezvous r)
  | byProducer {x : τ} {r : Rv τ} {c : Consumer τ} {cell : Cell τ} {frame : Frame τ}
    (hr : Runs x r cell frame) (hc : Waits (r ≠ .delete) c) :
    Together (some x) ⟨some ⟨3, .value (), cell⟩, some frame⟩ (.rendezvous r) c
  | leaving {x : τ} {r : Rv τ} {c : Consumer τ} {frame : Option (Frame τ)}
    (hr : r = .wakeAll ∨ r = .delete) (hc : Leaves x c frame) :
    Together (some x) ⟨some ⟨3, .value (), .moved⟩, frame⟩ (.rendezvous r) c
  | waitsOver {x : τ} {c : Consumer τ} (hc : Waits False c) :
    Together (some x) ⟨none, some ⟨kFired, .value x⟩⟩ .finished c
  | leavesOver {x : τ} {c : Consumer τ} {frame : Option (Frame τ)} (hc : Leaves x c frame) :
    Together (some x) ⟨none, frame⟩ .finished c

structure Sound (s : State τ) : Prop where
  fault : s.fault = false
  together : Together s.produced s.memory s.producer s.consumer

theorem Waits.mono {P Q : Prop} {c : Consumer τ} (h : Waits P c) (hPQ : P → Q) : Waits Q c := by
  cases h with
  | load => exact .load
  | wait => exact .wait
  | asleep hp => exact .asleep (hPQ hp)

theorem Waits.woken {P Q : Prop} {c : Consumer τ} (h : Waits P c) : Waits Q c.woken := by
  cases h with
  | load => exact .load
  | wait => exact .wait
  | asleep => exact .load

theorem Waits.woken_left {P : Prop} {c : Consumer τ} (h : Waits P c) : c.woken.left = c.left := by
  cases h <;> rfl

theorem Leaves.woken {x : τ} {c : Consumer τ} {frame : Option (Frame τ)} (h : Leaves x c frame) :
    c.woken = c := by
  cases h <;> rfl

/-- An access of `Rendezvous` is no fault. It is the last one, or the next one is ready. -/
theorem Runs.step {x : τ} {r : Rv τ} {cell : Cell τ} {frame : Frame τ} (h : Runs x r cell frame) :
    (r = .delete ∧ cell = .moved ∧ frame = ⟨kFired, .value x⟩) ∨
    ∃ r' cell' frame', Runs x r' cell' frame' ∧
      (⟨some ⟨3, .value (), cell⟩, some frame⟩ : Memory τ).rendezvous r =
        some (⟨some ⟨3, .value (), cell'⟩, some frame'⟩, some r') ∧
      (r ≠ .wakeAll → r' ≠ .delete) ∧ r'.left < r.left := by
  cases h with
  | callback => exact .inr ⟨_, _, _, .emplace, rfl, by simp, Nat.lt_succ_self _⟩
  | emplace => exact .inr ⟨_, _, _, .prepareWake, rfl, by simp, Nat.lt_succ_self _⟩
  | prepareWake => exact .inr ⟨_, _, _, .store, rfl, by simp, Nat.lt_succ_self _⟩
  | store => exact .inr ⟨_, _, _, .wakeAll, rfl, by simp, Nat.lt_succ_self _⟩
  | wakeAll => exact .inr ⟨_, _, _, .delete, rfl, by simp, Nat.lt_succ_self _⟩
  | delete => exact .inl ⟨rfl, rfl, rfl⟩

/-- Who comes first at the state machine, and who comes second. -/
theorem Memory.fetchOr_first (cb : Cell Unit) (cell : Cell τ) (frame : Option (Frame τ)) (bit : ℕ) :
    (⟨some ⟨0, cb, cell⟩, frame⟩ : Memory τ).fetchOr bit =
      some (0, ⟨some ⟨bit, cb, cell⟩, frame⟩) := by
  change some (0, (⟨some ⟨0 ||| bit, cb, cell⟩, frame⟩ : Memory τ)) = _
  rw [Nat.zero_or]

theorem Memory.fetchOr_second (cb : Cell Unit) (cell : Cell τ) (frame : Option (Frame τ)) :
    (⟨some ⟨kConsumer, cb, cell⟩, frame⟩ : Memory τ).fetchOr kProcuder =
        some (kConsumer, ⟨some ⟨3, cb, cell⟩, frame⟩) ∧
      (⟨some ⟨kProcuder, cb, cell⟩, frame⟩ : Memory τ).fetchOr kConsumer =
        some (kProcuder, ⟨some ⟨3, cb, cell⟩, frame⟩) := by
  constructor <;> simp [Memory.fetchOr, kProcuder, kConsumer]

section Steps

variable {s s' : State τ}

/-- A step keeps the two together, and brings them nearer to their end. -/
structure Advances (s s' : State τ) : Prop where
  sound : Sound s'
  left : s'.left < s.left

theorem Advances.calls (h : Sound s') (hcalls : s'.calls < s.calls) : Advances s s' := by
  have hle := s'.consumer.waits_le s'.fired
  refine ⟨h, ?_⟩
  unfold State.left
  omega

/-- A step of the producer. -/
theorem Advances.producer (h : Sound s') (hconsumer : s'.consumer.left = s.consumer.left)
    (hproducer : s'.producer.left < s.producer.left) : Advances s s' := by
  refine .calls h ?_
  unfold State.calls
  omega

/-- A step of the consumer, before it waits. -/
theorem Advances.consumer (h : Sound s') (hproducer : s'.producer.left = s.producer.left)
    (hconsumer : s'.consumer.left < s.consumer.left) : Advances s s' := by
  refine .calls h ?_
  unfold State.calls
  omega

/-- A step of the waiting thread. -/
theorem Advances.wait (h : Sound s') (hcalls : s'.calls = s.calls)
    (hwaits : s'.consumer.waits s'.fired < s.consumer.waits s.fired) : Advances s s' := by
  refine ⟨h, ?_⟩
  unfold State.left
  omega

theorem advances_producerStep (h : Sound s) (hst : producerStep s = some s') : Advances s s' := by
  obtain ⟨hf, ht⟩ := h
  obtain ⟨memory, producer, consumer, produced, fault⟩ := s
  dsimp only at hf ht
  subst hf
  cases ht with
  | apart hp hc =>
    cases hp with
    | idle => cases hst
    | emplace x =>
      obtain rfl := Option.some.inj hst
      exact .producer ⟨rfl, .apart (.fetchOr x) hc⟩ rfl (show 10 < 11 by decide)
    | fetchOr x =>
      simp only [producerStep, Memory.fetchOr_first] at hst
      obtain rfl := Option.some.inj hst
      exact .producer ⟨rfl, .producerFirst hc⟩ rfl (show 0 < 10 by decide)
  | producerFirst hc => cases hst
  | consumerFirst hp hc =>
    cases hp with
    | idle => cases hst
    | emplace x =>
      obtain rfl := Option.some.inj hst
      exact .producer ⟨rfl, .consumerFirst (.fetchOr x) hc⟩ rfl (show 10 < 11 by decide)
    | fetchOr x =>
      simp only [producerStep, (Memory.fetchOr_second _ _ _).1] at hst
      obtain rfl := Option.some.inj hst
      exact .producer ⟨rfl, .byProducer .callback (hc.mono fun _ => by simp)⟩ rfl
        (show 6 < 10 by decide)
  | byConsumer hr => cases hst
  | @byProducer x r c cell frame hr hc =>
    obtain rfl := Option.some.inj hst
    obtain ⟨rfl, rfl, rfl⟩ | ⟨r', cell', frame', hr', he, hne, hlt⟩ := hr.step
    · exact .producer ⟨rfl, .waitsOver (hc.mono fun hn => hn rfl)⟩ rfl (show 0 < 1 by decide)
    · simp only [he, State.after, Option.elim_some]
      -- a sleeper is woken by `WakeAll`, and until then `delete` is not next
      cases r with
      | wakeAll => exact .producer ⟨rfl, .byProducer hr' hc.woken⟩ hc.woken_left hlt
      | _ =>
        exact .producer ⟨rfl, .byProducer hr' (hc.mono fun _ => hne (by simp))⟩ rfl hlt
  | @leaving x r c frame hr hc =>
    obtain rfl := Option.some.inj hst
    obtain rfl | rfl := hr
    · have htogether : Together (some x) ⟨some ⟨3, .value (), .moved⟩, frame⟩ (.rendezvous .delete)
          consumer.woken := by
        rw [hc.woken]
        exact .leaving (.inr rfl) hc
      exact .producer ⟨rfl, htogether⟩ (congrArg Consumer.left hc.woken) (show 1 < 2 by decide)
    · exact .producer ⟨rfl, .leavesOver hc⟩ rfl (show 0 < 1 by decide)
  | waitsOver hc => cases hst
  | leavesOver hc => cases hst

theorem advances_consumerStep (h : Sound s) (hst : consumerStep s = some s') : Advances s s' := by
  obtain ⟨hf, ht⟩ := h
  obtain ⟨memory, producer, consumer, produced, fault⟩ := s
  dsimp only at hf ht
  subst hf
  cases ht with
  | apart hp hc =>
    cases hc with
    | idle => cases hst
    | emplace =>
      obtain rfl := Option.some.inj hst
      exact .consumer ⟨rfl, .apart hp .fetchOr⟩ rfl (show 10 < 11 by decide)
    | fetchOr =>
      simp only [consumerStep, Memory.fetchOr_first] at hst
      obtain rfl := Option.some.inj hst
      exact .consumer ⟨rfl, .consumerFirst hp .load⟩ rfl (show 0 < 10 by decide)
  | producerFirst hc =>
    cases hc with
    | idle => cases hst
    | emplace =>
      obtain rfl := Option.some.inj hst
      exact .consumer ⟨rfl, .producerFirst .fetchOr⟩ rfl (show 10 < 11 by decide)
    | fetchOr =>
      simp only [consumerStep, (Memory.fetchOr_second _ _ _).2] at hst
      obtain rfl := Option.some.inj hst
      exact .consumer ⟨rfl, .byConsumer .callback⟩ rfl (show 6 < 10 by decide)
  | consumerFirst hp hc =>
    cases hc with
    | load =>
      obtain rfl := Option.some.inj hst
      exact .wait ⟨rfl, .consumerFirst hp .wait⟩ rfl (show 1 < 2 by decide)
    | wait =>
      obtain rfl := Option.some.inj hst
      exact .wait ⟨rfl, .consumerFirst hp (.asleep trivial)⟩ rfl (show 0 < 1 by decide)
    | asleep => cases hst
  | byConsumer hr =>
    obtain rfl := Option.some.inj hst
    obtain ⟨rfl, rfl, rfl⟩ | ⟨r', cell', frame', hr', he, -, hlt⟩ := hr.step
    · exact .consumer ⟨rfl, .waitsOver .load⟩ rfl (show 0 < 1 by decide)
    · simp only [he, State.after, Option.elim_some]
      exact .consumer ⟨rfl, .byConsumer hr'⟩ rfl hlt
  | byProducer hr hc =>
    cases hc with
    | load =>
      obtain rfl := Option.some.inj hst
      cases hr with
      | wakeAll => exact .wait ⟨rfl, .leaving (.inl rfl) .take⟩ rfl (show 2 < 3 by decide)
      | delete => exact .wait ⟨rfl, .leaving (.inr rfl) .take⟩ rfl (show 2 < 3 by decide)
      | callback => exact .wait ⟨rfl, .byProducer .callback .wait⟩ rfl (show 1 < 2 by decide)
      | emplace => exact .wait ⟨rfl, .byProducer .emplace .wait⟩ rfl (show 1 < 2 by decide)
      | prepareWake => exact .wait ⟨rfl, .byProducer .prepareWake .wait⟩ rfl (show 1 < 2 by decide)
      | store => exact .wait ⟨rfl, .byProducer .store .wait⟩ rfl (show 1 < 2 by decide)
    | wait =>
      obtain rfl := Option.some.inj hst
      cases hr with
      | wakeAll => exact .wait ⟨rfl, .byProducer .wakeAll .load⟩ rfl (show 3 < 4 by decide)
      | delete => exact .wait ⟨rfl, .byProducer .delete .load⟩ rfl (show 3 < 4 by decide)
      | callback =>
        exact .wait ⟨rfl, .byProducer .callback (.asleep (by simp))⟩ rfl (show 0 < 1 by decide)
      | emplace =>
        exact .wait ⟨rfl, .byProducer .emplace (.asleep (by simp))⟩ rfl (show 0 < 1 by decide)
      | prepareWake =>
        exact .wait ⟨rfl, .byProducer .prepareWake (.asleep (by simp))⟩ rfl
          (show 0 < 1 by decide)
      | store =>
        exact .wait ⟨rfl, .byProducer .store (.asleep (by simp))⟩ rfl (show 0 < 1 by decide)
    | asleep => cases hst
  | leaving hr hc =>
    cases hc with
    | take =>
      obtain rfl := Option.some.inj hst
      exact .wait ⟨rfl, .leaving hr .leave⟩ rfl (show 1 < 2 by decide)
    | leave =>
      obtain rfl := Option.some.inj hst
      exact .wait ⟨rfl, .leaving hr .returned⟩ rfl (show 0 < 1 by decide)
    | returned => cases hst
  | waitsOver hc =>
    cases hc with
    | load =>
      obtain rfl := Option.some.inj hst
      exact .wait ⟨rfl, .leavesOver .take⟩ rfl (show 2 < 3 by decide)
    | wait =>
      obtain rfl := Option.some.inj hst
      exact .wait ⟨rfl, .waitsOver .load⟩ rfl (show 3 < 4 by decide)
    | asleep h => exact h.elim
  | leavesOver hc =>
    cases hc with
    | take =>
      obtain rfl := Option.some.inj hst
      exact .wait ⟨rfl, .leavesOver .leave⟩ rfl (show 1 < 2 by decide)
    | leave =>
      obtain rfl := Option.some.inj hst
      exact .wait ⟨rfl, .leavesOver .returned⟩ rfl (show 0 < 1 by decide)
    | returned => cases hst

/-- The steps by which the two go on by themselves. -/
def Action.isOwn : Action τ → Bool
  | .producer => true
  | .consumer => true
  | _ => false

theorem advances_own (h : Sound s) {a : Action τ} (ha : a.isOwn = true)
    (hst : step a s = some s') : Advances s s' := by
  rw [step.eq_def, if_neg (by rw [h.fault]; exact Bool.false_ne_true)] at hst
  cases a with
  | producer => exact advances_producerStep h hst
  | consumer => exact advances_consumerStep h hst
  | _ => cases ha

/-- The promise is set. -/
theorem sound_produce (h : Sound s) {x : τ} (hp : s.producer = .idle) :
    Sound { s with producer := .emplace x, produced := some x } := by
  obtain ⟨hf, ht⟩ := h
  obtain ⟨memory, producer, consumer, produced, fault⟩ := s
  dsimp only at hf ht hp ⊢
  subst hp
  refine ⟨hf, ?_⟩
  cases ht with
  | apart hs hc =>
    cases hs with
    | idle => exact .apart (.emplace x) hc
  | consumerFirst hs hc =>
    cases hs with
    | idle => exact .consumerFirst (.emplace x) hc

/-- `Get` is called. -/
theorem sound_get (h : Sound s) (hc : s.consumer = .idle) :
    Sound { s with
      memory := { s.memory with frame := some ⟨kWaiting, .raw⟩ }, consumer := .emplace } := by
  obtain ⟨hf, ht⟩ := h
  obtain ⟨memory, producer, consumer, produced, fault⟩ := s
  dsimp only at hf ht hc ⊢
  subst hc
  refine ⟨hf, ?_⟩
  cases ht with
  | apart hp hc =>
    cases hc with
    | idle => exact .apart hp .emplace
  | producerFirst hc =>
    cases hc with
    | idle => exact .producerFirst .emplace
  | consumerFirst hp hc => cases hc
  | byProducer hr hc => cases hc
  | leaving hr hc => cases hc
  | waitsOver hc => cases hc
  | leavesOver hc => cases hc

/-- `futex::Wait` returns without a reason. -/
theorem sound_spurious (h : Sound s) (hc : s.consumer = .asleep) :
    Sound { s with consumer := .load } := by
  obtain ⟨hf, ht⟩ := h
  obtain ⟨memory, producer, consumer, produced, fault⟩ := s
  dsimp only at hf ht hc ⊢
  subst hc
  refine ⟨hf, ?_⟩
  cases ht with
  | apart hp hc => cases hc
  | producerFirst hc => cases hc
  | consumerFirst hp hc => exact .consumerFirst hp .load
  | byProducer hr hc => exact .byProducer hr .load
  | leaving hr hc => cases hc
  | waitsOver hc => exact .waitsOver .load
  | leavesOver hc => cases hc

theorem sound_step (h : Sound s) {a : Action τ} (hst : step a s = some s') : Sound s' := by
  by_cases ha : a.isOwn = true
  · exact (advances_own h ha hst).sound
  rw [step.eq_def, if_neg (by rw [h.fault]; exact Bool.false_ne_true)] at hst
  cases a with
  | producer => exact absurd rfl ha
  | consumer => exact absurd rfl ha
  | produce x =>
    dsimp only at hst
    split at hst <;> cases hst
    exact sound_produce h ‹_›
  | get =>
    dsimp only at hst
    split at hst <;> cases hst
    exact sound_get h ‹_›
  | spurious =>
    dsimp only at hst
    split at hst <;> cases hst
    exact sound_spurious h ‹_›

theorem sound_of_reachable (hs : (machine τ).Reachable s) : Sound s := by
  refine hs.invariant (I := Sound) ?_ fun a s s' h _ hst => sound_step h (a := a) hst
  rintro s rfl
  exact ⟨rfl, .apart .idle .idle⟩

/-- With the promise set and `Get` called one of the two can go on, until both are through. -/
theorem Sound.goes_on (h : Sound s) (hp : s.producer ≠ .idle) (hc : s.consumer ≠ .idle) :
    (s.producer = .finished ∧ ∃ x, s.consumer = .returned x) ∨
      ∃ a s', a.isOwn = true ∧ step a s = some s' := by
  have hown : (producerStep s).isSome = true ∨ (consumerStep s).isSome = true →
      ∃ a s', a.isOwn = true ∧ step a s = some s' := by
    intro hsome
    obtain hsome | hsome := hsome
    · obtain ⟨s', hs'⟩ := Option.isSome_iff_exists.mp hsome
      exact ⟨.producer, s', rfl, by rw [step, h.fault]; exact hs'⟩
    · obtain ⟨s', hs'⟩ := Option.isSome_iff_exists.mp hsome
      exact ⟨.consumer, s', rfl, by rw [step, h.fault]; exact hs'⟩
  obtain ⟨-, ht⟩ := h
  obtain ⟨memory, producer, consumer, produced, fault⟩ := s
  dsimp only at ht hp hc hown ⊢
  cases ht with
  | apart hs hcons =>
    cases hs with
    | idle => exact absurd rfl hp
    | emplace x => exact .inr (hown (.inl rfl))
    | fetchOr x => exact .inr (hown (.inl rfl))
  | producerFirst hcons =>
    cases hcons with
    | idle => exact absurd rfl hc
    | emplace => exact .inr (hown (.inr rfl))
    | fetchOr => exact .inr (hown (.inr rfl))
  | consumerFirst hs hcons =>
    cases hs with
    | idle => exact absurd rfl hp
    | emplace x => exact .inr (hown (.inl rfl))
    | fetchOr x => exact .inr (hown (.inl rfl))
  | byConsumer hr => exact .inr (hown (.inr rfl))
  | byProducer hr hcons => exact .inr (hown (.inl rfl))
  | leaving hr hcons => exact .inr (hown (.inl rfl))
  | waitsOver hcons =>
    cases hcons with
    | load => exact .inr (hown (.inr rfl))
    | wait => exact .inr (hown (.inr rfl))
    | asleep hfalse => exact hfalse.elim
  | leavesOver hcons =>
    cases hcons with
    | take => exact .inr (hown (.inr rfl))
    | leave => exact .inr (hown (.inr rfl))
    | returned => exact .inl ⟨rfl, _, rfl⟩

end Steps

/-- What `Get` returns is what the promise was set with. -/
theorem Sound.returned {s : State τ} (h : Sound s) {x : τ} (hc : s.consumer = .returned x) :
    s.produced = some x := by
  obtain ⟨-, ht⟩ := h
  obtain ⟨memory, producer, consumer, produced, fault⟩ := s
  dsimp only at ht hc ⊢
  subst hc
  cases ht with
  | apart hp hc => cases hc
  | producerFirst hc => cases hc
  | consumerFirst hp hc => cases hc
  | byProducer hr hc => cases hc
  | leaving hr hc =>
    cases hc with
    | returned => rfl
  | waitsOver hc => cases hc
  | leavesOver hc =>
    cases hc with
    | returned => rfl

/-- Nothing is left behind. -/
theorem Sound.released {s : State τ} (h : Sound s) (hp : s.producer = .finished) {x : τ}
    (hc : s.consumer = .returned x) : s.memory.contract = none ∧ s.memory.frame = none := by
  obtain ⟨-, ht⟩ := h
  obtain ⟨memory, producer, consumer, produced, fault⟩ := s
  dsimp only at ht hp hc ⊢
  subst hp hc
  cases ht with
  | apart hs hc => cases hc
  | producerFirst hc => cases hc
  | consumerFirst hs hc => cases hc
  | waitsOver hc => cases hc
  | leavesOver hc =>
    cases hc with
    | returned => exact ⟨rfl, rfl⟩

/-- **`Get` returns the value, and touches nothing that is gone.** In every run no access is made
to the contract after it has been deleted or to the frame of `Get` after it has been left,
nothing is constructed twice and nothing destroyed that was not constructed. What `Get`
returns is what the promise was set with, and then contract and frame are released. Once the
promise is set and `Get` called, one of the two threads can go on until both are through,
and every step of theirs takes them nearer to that: no waiter sleeps for ever. -/
theorem get_returns_the_value {s : State τ} (hs : (machine τ).Reachable s) :
    s.fault = false ∧ (∀ x, s.consumer = .returned x → s.produced = some x) ∧
    (∀ x, s.producer = .finished → s.consumer = .returned x →
      s.memory.contract = none ∧ s.memory.frame = none) ∧
    (s.producer ≠ .idle → s.consumer ≠ .idle →
      (s.producer = .finished ∧ ∃ x, s.consumer = .returned x) ∨
        ∃ a s', a.isOwn = true ∧ step a s = some s') ∧
    ∀ a s', a.isOwn = true → step a s = some s' → s'.left < s.left := by
  have h := sound_of_reachable hs
  exact ⟨h.fault, fun x => h.returned, fun x hp => h.released hp, h.goes_on,
    fun a s' ha hst => (advances_own h ha hst).left⟩

/-- The waiter is gone before it has been woken: `Fire` has stored, `Wait` returns by itself, and
`WakeAll` comes after the frame. -/
theorem get_returns_the_value_early : ∃ s : State ℕ, (machine ℕ).Reachable s ∧
    s.memory.frame = none ∧ s.memory.contract.isSome = true ∧ s.produced = some 5 ∧
    s.fault = false := by
  obtain ⟨s, hs, hp⟩ := Machine.Reachable.exec_any (M := machine ℕ) (.init rfl)
    ([.get] ++ List.replicate 4 .consumer ++ [.produce 5] ++ List.replicate 6 .producer ++
      [.spurious] ++ List.replicate 3 .consumer)
    (fun s => decide (s.memory.frame.isNone = true ∧ s.memory.contract.isSome = true) &&
      match s.consumer with
      | .returned x => decide (x = 5)
      | _ => false)
    (by decide +kernel)
  obtain ⟨hmemory, hreturned⟩ := (Bool.and_eq_true _ _).mp hp
  obtain ⟨hframe, hcontract⟩ := of_decide_eq_true hmemory
  split at hreturned
  · rename_i x hx
    obtain rfl := of_decide_eq_true hreturned
    obtain ⟨hfault, hvalue, -⟩ := get_returns_the_value hs
    exact ⟨s, hs, Option.isNone_iff_eq_none.mp hframe, hcontract, hvalue 5 hx, hfault⟩
  · cases hreturned

end Exe.Get
