/-
`WorkStealingTaskQueue` under concurrency: one producer, any number of consumers,
every interleaving of their atomic accesses.

The machine runs the methods of `WorkStealingQueue` one access at a time. A
thread that has returned stays at its result until it leaves, so that the steps
of one call are the maximal stretch of a run during which the thread is not idle
(`Machine.since`), and "at some moment of the call" can be said of a run.

What the consumers took and what the producer stored are read off the run's
transitions (`took`, `stored`), not off the queue's own history variables: the
order of `took` is the order of the successful claims on `head_`.
-/
import Exe.WorkStealingQueue

set_option autoImplicit false

namespace Exe.WorkStealingQueue

open Machine

variable {τ κ : Type*} [DecidableEq κ]

/-- The producer: outside `TryPush`, inside, or just returned from it. -/
inductive Producer (τ : Type*)
  | idle
  | pushing (task : τ) (pc : PushPc)
  | pushed (task : τ) (ok : Bool)

/-- A consumer: outside the queue, inside `TryPop` or `Grab`, or just returned. -/
inductive Consumer (τ : Type*)
  | idle
  | popping (pc : PopPc τ)
  | popped (res : Option τ)
  | grabbing (size : ℕ) (pc : GrabPc τ)
  | grabbed (size : ℕ) (buf : List τ)

/-- The queue and the threads around it. -/
structure State (τ κ : Type*) where
  queue : Queue τ
  producer : Producer τ
  consumer : κ → Consumer τ

/-- Who moves, and how. -/
inductive Action (τ κ : Type*)
  | callPush (task : τ)
  | push
  | callPop (c : κ)
  | callGrab (c : κ) (size : ℕ)
  | take (c : κ) (weak : Bool)

def State.setConsumer (s : State τ κ) (c : κ) (x : Consumer τ) : State τ κ :=
  { s with consumer := Function.update s.consumer c x }

/-- The producer's step. -/
def pushStep (capacity : ℕ) (s : State τ κ) : Option (State τ κ) :=
  match s.producer with
  | .idle => none
  | .pushing task pc =>
    match TryPush capacity task s.queue pc with
    | (q, .goto pc') => some { s with queue := q, producer := .pushing task pc' }
    | (q, .ret ok) => some { s with queue := q, producer := .pushed task ok }
  | .pushed _ _ => some { s with producer := .idle }

/-- The step of consumer `c`. -/
def takeStep (capacity : ℕ) (c : κ) (weak : Bool) (s : State τ κ) : Option (State τ κ) :=
  match s.consumer c with
  | .idle => none
  | .popping pc =>
    match TryPop capacity weak s.queue pc with
    | (q, .goto pc') => some ({ s with queue := q }.setConsumer c (.popping pc'))
    | (q, .ret res) => some ({ s with queue := q }.setConsumer c (.popped res))
  | .grabbing size pc =>
    match Grab capacity size weak s.queue pc with
    | (q, .goto pc') => some ({ s with queue := q }.setConsumer c (.grabbing size pc'))
    | (q, .ret buf) => some ({ s with queue := q }.setConsumer c (.grabbed size buf))
  | .popped _ => some (s.setConsumer c .idle)
  | .grabbed _ _ => some (s.setConsumer c .idle)

def step (capacity : ℕ) : Action τ κ → State τ κ → Option (State τ κ)
  | .callPush task, s =>
    match s.producer with
    | .idle => some { s with producer := .pushing task .loadTail }
    | _ => none
  | .push, s => pushStep capacity s
  | .callPop c, s =>
    match s.consumer c with
    | .idle => some (s.setConsumer c (.popping .loadHead))
    | _ => none
  | .callGrab c size, s =>
    match s.consumer c with
    | .idle => some (s.setConsumer c (.grabbing size .loadHead))
    | _ => none
  | .take c weak, s => takeStep capacity c weak s

/-- One producer and the consumers `κ` around a new queue. -/
def machine (τ κ : Type*) [DecidableEq κ] (capacity : ℕ) : Machine (State τ κ) (Action τ κ) where
  init s := ∃ null, s = { queue := .new null, producer := .idle, consumer := fun _ => .idle }
  step := step capacity

/-! ## Reading a run -/

/-- The task a transition stores: that of a `TryPush` returning `true`. -/
def stored (t : Transition (State τ κ) (Action τ κ)) : List τ :=
  match t.pre.producer, t.post.producer with
  | .pushing _ _, .pushed task true => [task]
  | _, _ => []

/-- The tasks a transition hands to a consumer: those of a returning `TryPop` or
`Grab`. -/
def took (t : Transition (State τ κ) (Action τ κ)) : List τ :=
  match t.act with
  | .take c _ =>
    match t.pre.consumer c, t.post.consumer c with
    | .popping _, .popped (some task) => [task]
    | .grabbing _ _, .grabbed _ buf => buf
    | _, _ => []
  | _ => []

/-- The tasks stored in a run, oldest first. -/
def storedIn (h : List (Transition (State τ κ) (Action τ κ))) : List τ :=
  h.reverse.flatMap stored

/-- The tasks taken in a run, oldest first. -/
def takenIn (h : List (Transition (State τ κ) (Action τ κ))) : List τ :=
  h.reverse.flatMap took

/-- `TryPush` is in progress. -/
def inPush (s : State τ κ) : Bool :=
  match s.producer with
  | .idle => false
  | _ => true

/-- Consumer `c` is inside a call. -/
def inTake (c : κ) (s : State τ κ) : Bool :=
  match s.consumer c with
  | .idle => false
  | _ => true

/-! ## The invariant of the machine -/

def Producer.Valid (capacity : ℕ) (q : Queue τ) : Producer τ → Prop
  | .pushing task pc => pc.Valid capacity q task
  | _ => True

def Consumer.Valid (q : Queue τ) : Consumer τ → Prop
  | .popping pc => pc.Valid q
  | .grabbing size pc => pc.Valid size q
  | _ => True

theorem Producer.Valid.mono {capacity : ℕ} {q q' : Queue τ} {p : Producer τ}
    (hq : q.Advanced q') (h : p.Valid capacity q) : p.Valid capacity q' := by
  cases p with
  | pushing task pc => exact PushPc.Valid.mono hq h
  | _ => trivial

theorem Consumer.Valid.mono {q q' : Queue τ} {x : Consumer τ} (hq : q.Grown q')
    (h : x.Valid q) : x.Valid q' := by
  cases x with
  | popping pc => exact PopPc.Valid.mono hq h
  | grabbing size pc => exact GrabPc.Valid.mono hq h
  | _ => trivial

/-- The queue is well formed and every thread's program point is valid. -/
structure State.Inv (capacity : ℕ) (s : State τ κ) : Prop where
  queue : s.queue.Inv capacity
  producer : s.producer.Valid capacity s.queue
  consumer : ∀ c, (s.consumer c).Valid s.queue

omit [DecidableEq κ] in
/-- Everything a step of the producer can do. -/
theorem pushStep_cases {capacity : ℕ} {s s' : State τ κ} (h : s.Inv capacity)
    (hs : pushStep capacity s = some s') :
    (∃ task pc pc' q, s.producer = .pushing task pc ∧
        s' = { s with queue := q, producer := .pushing task pc' } ∧
        s.queue.Quiet capacity q ∧ pc'.Valid capacity q task) ∨
    (∃ task pc q, s.producer = .pushing task pc ∧
        s' = { s with queue := q, producer := .pushed task true } ∧
        s.queue.Stores capacity task q) ∨
    (∃ task pc, s.producer = .pushing task pc ∧
        s' = { s with producer := .pushed task false } ∧
        (s.queue.tail_ = s.queue.head_ + capacity ∨ sizeMod ≤ s.queue.head_ + capacity)) ∨
    (∃ task ok, s.producer = .pushed task ok ∧ s' = { s with producer := .idle }) := by
  unfold pushStep at hs
  cases hp : s.producer with
  | idle => simp [hp] at hs
  | pushed task ok =>
    simp only [hp, Option.some.injEq] at hs
    exact .inr (.inr (.inr ⟨task, ok, rfl, hs.symm⟩))
  | pushing task pc =>
    have hv : pc.Valid capacity s.queue task := by
      have := h.producer
      rwa [hp] at this
    rcases TryPush_cases h.queue hv with
      ⟨q, pc', he, hq, hv'⟩ | ⟨q, he, hq⟩ | ⟨he, hfull⟩
    · simp only [hp, he, Option.some.injEq] at hs
      exact .inl ⟨task, pc, pc', q, rfl, hs.symm, hq, hv'⟩
    · simp only [hp, he, Option.some.injEq] at hs
      exact .inr (.inl ⟨task, pc, q, rfl, hs.symm, hq⟩)
    · simp only [hp, he, Option.some.injEq] at hs
      exact .inr (.inr (.inl ⟨task, pc, rfl, hs.symm, hfull⟩))

/-- Everything a step of consumer `c` can do. -/
theorem takeStep_cases {capacity : ℕ} {s s' : State τ κ} {c : κ} {weak : Bool}
    (h : s.Inv capacity) (hs : takeStep capacity c weak s = some s') :
    (∃ pc pc', s.consumer c = .popping pc ∧ s' = s.setConsumer c (.popping pc') ∧
        pc'.Valid s.queue) ∨
    (∃ pc q task, s.consumer c = .popping pc ∧
        s' = { s with queue := q }.setConsumer c (.popped (some task)) ∧
        s.queue.Claims capacity [task] q) ∨
    (∃ pc, s.consumer c = .popping pc ∧ s' = s.setConsumer c (.popped none) ∧
        s.queue.head_ = s.queue.tail_) ∨
    (∃ size pc pc', s.consumer c = .grabbing size pc ∧
        s' = s.setConsumer c (.grabbing size pc') ∧ pc'.Valid size s.queue ∧
        ∀ head i, pc' = .cas head i [] → size = 0 ∨ s.queue.head_ = s.queue.tail_) ∨
    (∃ size head i buf q, s.consumer c = .grabbing size (.cas head i buf) ∧
        s' = { s with queue := q }.setConsumer c (.grabbed size buf) ∧
        s.queue.Claims capacity buf q) ∨
    (((∃ res, s.consumer c = .popped res) ∨ ∃ size buf, s.consumer c = .grabbed size buf) ∧
        s' = s.setConsumer c .idle) := by
  have hv := h.consumer c
  unfold takeStep at hs
  cases hc : s.consumer c with
  | idle => simp [hc] at hs
  | popped res =>
    simp only [hc, Option.some.injEq] at hs
    exact .inr (.inr (.inr (.inr (.inr ⟨.inl ⟨res, rfl⟩, hs.symm⟩))))
  | grabbed size buf =>
    simp only [hc, Option.some.injEq] at hs
    exact .inr (.inr (.inr (.inr (.inr ⟨.inr ⟨size, buf, rfl⟩, hs.symm⟩))))
  | popping pc =>
    rw [hc] at hv
    rcases TryPop_cases weak h.queue hv with
      ⟨pc', he, hv'⟩ | ⟨q, task, he, hq⟩ | ⟨he, hempty⟩
    · simp only [hc, he, Option.some.injEq] at hs
      exact .inl ⟨pc, pc', rfl, hs.symm, hv'⟩
    · simp only [hc, he, Option.some.injEq] at hs
      exact .inr (.inl ⟨pc, q, task, rfl, hs.symm, hq⟩)
    · simp only [hc, he, Option.some.injEq] at hs
      exact .inr (.inr (.inl ⟨pc, rfl, hs.symm, hempty⟩))
  | grabbing size pc =>
    rw [hc] at hv
    rcases Grab_cases weak h.queue hv with
      ⟨pc', he, hv', hempty⟩ | ⟨q, buf, he, -, hq, head, i, rfl⟩
    · simp only [hc, he, Option.some.injEq] at hs
      exact .inr (.inr (.inr (.inl ⟨size, pc, pc', rfl, hs.symm, hv', hempty⟩)))
    · simp only [hc, he, Option.some.injEq] at hs
      exact .inr (.inr (.inr (.inr (.inl ⟨size, head, i, buf, q, rfl, hs.symm, hq⟩))))

/-- Replacing the queue by a later one and consumer `c`'s point by a valid one. -/
theorem State.Inv.setConsumer {capacity : ℕ} {s : State τ κ} (h : s.Inv capacity)
    {q : Queue τ} {c : κ} {x : Consumer τ} (hq : q.Inv capacity)
    (ha : s.queue.Advanced q) (hg : s.queue.Grown q) (hx : x.Valid q) :
    State.Inv capacity ({ s with queue := q }.setConsumer c x) := by
  refine ⟨hq, h.producer.mono ha, fun d => ?_⟩
  by_cases hd : d = c
  · subst hd
    simpa [State.setConsumer] using hx
  · simpa [State.setConsumer, hd] using (h.consumer d).mono hg

omit [DecidableEq κ] in
/-- A step of the producer keeps the invariant. -/
theorem State.Inv.pushStep {capacity : ℕ} {s s' : State τ κ} (h : s.Inv capacity)
    (hs : pushStep capacity s = some s') : s'.Inv capacity := by
  rcases pushStep_cases h hs with
    ⟨task, pc, pc', q, -, rfl, hq, hv⟩ | ⟨task, pc, q, -, rfl, hq⟩ | ⟨task, pc, -, rfl, -⟩ |
    ⟨task, ok, -, rfl⟩
  · exact ⟨hq.inv, hv, fun c => (h.consumer c).mono hq.grown⟩
  · exact ⟨hq.inv, trivial, fun c => (h.consumer c).mono hq.grown⟩
  · exact ⟨h.queue, trivial, h.consumer⟩
  · exact ⟨h.queue, trivial, h.consumer⟩

/-- A step of a consumer keeps the invariant. -/
theorem State.Inv.takeStep {capacity : ℕ} {s s' : State τ κ} {c : κ} {weak : Bool}
    (h : s.Inv capacity) (hs : takeStep capacity c weak s = some s') : s'.Inv capacity := by
  have hquiet : ∀ x, Consumer.Valid s.queue x → State.Inv capacity (s.setConsumer c x) :=
    fun x hx => h.setConsumer h.queue (.refl _) (.refl _) hx
  rcases takeStep_cases h hs with
    ⟨pc, pc', -, rfl, hv⟩ | ⟨pc, q, task, -, rfl, hq⟩ | ⟨pc, -, rfl, -⟩ |
    ⟨size, pc, pc', -, rfl, hv, -⟩ | ⟨size, head, i, buf, q, -, rfl, hq⟩ | ⟨-, rfl⟩
  · exact hquiet _ hv
  · exact h.setConsumer hq.inv hq.advanced hq.grown trivial
  · exact hquiet _ trivial
  · exact hquiet _ hv
  · exact h.setConsumer hq.inv hq.advanced hq.grown trivial
  · exact hquiet _ trivial

/-- Every step of every thread keeps the invariant. -/
theorem State.Inv.step {capacity : ℕ} {s s' : State τ κ} (a : Action τ κ)
    (h : s.Inv capacity) (hs : step capacity a s = some s') : s'.Inv capacity := by
  have hcall : ∀ c x, Consumer.Valid s.queue x → State.Inv capacity (s.setConsumer c x) :=
    fun c x hx => h.setConsumer h.queue (.refl _) (.refl _) hx
  cases a with
  | push => exact h.pushStep hs
  | take c weak => exact h.takeStep hs
  | callPush task =>
    simp only [WorkStealingQueue.step] at hs
    split at hs
    · cases hs
      exact ⟨h.queue, trivial, h.consumer⟩
    · cases hs
  | callPop c =>
    simp only [WorkStealingQueue.step] at hs
    split at hs
    · cases hs
      exact hcall c _ trivial
    · cases hs
  | callGrab c size =>
    simp only [WorkStealingQueue.step] at hs
    split at hs
    · cases hs
      exact hcall c _ trivial
    · cases hs

theorem inv_of_reachable {capacity : ℕ} {s : State τ κ}
    (hs : (machine τ κ capacity).Reachable s) : s.Inv capacity :=
  hs.invariant
    (fun s ⟨null, h⟩ => by subst h; exact ⟨.new capacity null, trivial, fun _ => trivial⟩)
    fun a _ _ h _ hst => h.step a hst

/-! ## First in, first out

The queue's history variables record exactly what the transitions show, so the
representation invariant turns into a statement about the run. -/

/-- The history variables of the queue are what the transitions show. -/
structure Recorded (h : List (Transition (State τ κ) (Action τ κ))) (s : State τ κ) :
    Prop where
  pushed : s.queue.pushed = storedIn h
  taken : s.queue.taken = takenIn h

omit [DecidableEq κ] in
theorem Recorded.cons {h : List (Transition (State τ κ) (Action τ κ))} {s s' : State τ κ}
    {a : Action τ κ} (hr : Recorded h s)
    (hp : s'.queue.pushed = s.queue.pushed ++ stored ⟨s, a, s'⟩)
    (ht : s'.queue.taken = s.queue.taken ++ took ⟨s, a, s'⟩) :
    Recorded (⟨s, a, s'⟩ :: h) s' := by
  constructor
  · rw [hp, hr.pushed]; simp [storedIn]
  · rw [ht, hr.taken]; simp [takenIn]

omit [DecidableEq κ] in
/-- A step that changes neither what is stored nor what is taken. -/
theorem Recorded.quiet {h : List (Transition (State τ κ) (Action τ κ))} {s s' : State τ κ}
    {a : Action τ κ} (hr : Recorded h s) (hq : s'.queue.pushed = s.queue.pushed)
    (hq' : s'.queue.taken = s.queue.taken) (hp : stored ⟨s, a, s'⟩ = [])
    (ht : took ⟨s, a, s'⟩ = []) : Recorded (⟨s, a, s'⟩ :: h) s' :=
  hr.cons (by rw [hq, hp, List.append_nil]) (by rw [hq', ht, List.append_nil])

omit [DecidableEq κ] in
/-- A step that leaves the producer alone stores nothing. -/
theorem stored_eq_nil {s s' : State τ κ} {a : Action τ κ} (h : s'.producer = s.producer) :
    stored ⟨s, a, s'⟩ = [] := by
  cases hp : s.producer <;> simp [stored, h, hp]

/-- A consumer that is handed nothing takes nothing. -/
theorem took_setConsumer {s t : State τ κ} {c : κ} {weak : Bool} {x : Consumer τ}
    (hx : (∀ task, x ≠ .popped (some task)) ∧ ∀ size buf, x ≠ .grabbed size buf) :
    took ⟨s, .take c weak, t.setConsumer c x⟩ = [] := by
  simp only [took, State.setConsumer, Function.update_self]
  cases x with
  | popped res => cases res <;> simp_all
  | grabbed size buf => exact absurd rfl (hx.2 size buf)
  | _ => cases s.consumer c <;> rfl

/-- The history variables stay in step with the run. -/
theorem Recorded.step {capacity : ℕ} {h : List (Transition (State τ κ) (Action τ κ))}
    {s s' : State τ κ} (a : Action τ κ) (hi : s.Inv capacity) (hr : Recorded h s)
    (hs : WorkStealingQueue.step capacity a s = some s') : Recorded (⟨s, a, s'⟩ :: h) s' := by
  cases a with
  | callPush task =>
    simp only [WorkStealingQueue.step] at hs
    split at hs
    · rename_i hp
      cases hs
      exact hr.quiet rfl rfl (by simp [stored, hp]) rfl
    · cases hs
  | callPop c =>
    simp only [WorkStealingQueue.step] at hs
    split at hs
    · cases hs
      exact hr.quiet rfl rfl (stored_eq_nil rfl) rfl
    · cases hs
  | callGrab c size =>
    simp only [WorkStealingQueue.step] at hs
    split at hs
    · cases hs
      exact hr.quiet rfl rfl (stored_eq_nil rfl) rfl
    · cases hs
  | push =>
    have hi' : s'.Inv capacity := hi.pushStep hs
    have htaken : ∀ q : Queue τ, q.Inv capacity → s.queue.Grown q → q.head_ = s.queue.head_ →
        q.taken = s.queue.taken := by
      intro q hq hg hh
      obtain ⟨l, hl⟩ := hg.prefix_pushed
      rw [hq.taken_eq, hi.queue.taken_eq, hh, ← hl, List.take_append_of_le_length]
      rw [hi.queue.length_pushed]
      exact hi.queue.head_le
    rcases pushStep_cases hi hs with
      ⟨task, pc, pc', q, hp, rfl, hq, -⟩ | ⟨task, pc, q, hp, rfl, hq⟩ |
      ⟨task, pc, hp, rfl, -⟩ | ⟨task, ok, hp, rfl⟩
    · exact hr.quiet hq.pushed_eq (htaken q hq.inv hq.grown hq.head_eq) (by simp [stored, hp]) rfl
    · exact hr.cons (by simp [stored, hp, hq.pushed_eq])
        (by simp [took, htaken q hq.inv hq.grown hq.head_eq])
    · exact hr.quiet rfl rfl (by simp [stored, hp]) rfl
    · exact hr.quiet rfl rfl (by simp [stored, hp]) rfl
  | take c weak =>
    rcases takeStep_cases hi hs with
      ⟨pc, pc', hc, rfl, -⟩ | ⟨pc, q, task, hc, rfl, hq⟩ | ⟨pc, hc, rfl, -⟩ |
      ⟨size, pc, pc', hc, rfl, -, -⟩ | ⟨size, head, i, buf, q, hc, rfl, hq⟩ | ⟨-, rfl⟩
    · exact hr.quiet rfl rfl (stored_eq_nil rfl) (took_setConsumer (by simp))
    · exact hr.cons (by simp [stored_eq_nil, State.setConsumer, hq.eq])
        (by simp [took, hc, State.setConsumer, hq.eq])
    · exact hr.quiet rfl rfl (stored_eq_nil rfl) (took_setConsumer (by simp))
    · exact hr.quiet rfl rfl (stored_eq_nil rfl) (took_setConsumer (by simp))
    · exact hr.cons (by simp [stored_eq_nil, State.setConsumer, hq.eq])
        (by simp [took, hc, State.setConsumer, hq.eq])
    · exact hr.quiet rfl rfl (stored_eq_nil rfl) (took_setConsumer (by simp))

theorem recorded_of_run {capacity : ℕ} {h : List (Transition (State τ κ) (Action τ κ))}
    {s : State τ κ} (hr : (machine τ κ capacity).Run h s) : Recorded h s :=
  hr.invariant (fun s ⟨null, h⟩ => by subst h; exact ⟨rfl, rfl⟩)
    fun _ a _ _ hs hrec hst => hrec.step a (inv_of_reachable hs) hst

/-! ## The moments a negative answer speaks about -/

/-- Why a call that came back empty-handed was right: the moment it goes back to
is among the steps of the call. `Grab` meets it at its last load of `tail_` and
carries it through the claim of the empty batch. -/
structure Justified (capacity : ℕ) (h : List (Transition (State τ κ) (Action τ κ)))
    (s : State τ κ) : Prop where
  refused : ∀ task, s.producer = .pushed task false → ∃ t ∈ since inPush h,
    t.post.queue.tail_ = t.post.queue.head_ + capacity ∨
      sizeMod ≤ t.post.queue.head_ + capacity
  popped : ∀ c, s.consumer c = .popped none → ∃ t ∈ since (inTake c) h,
    t.post.queue.head_ = t.post.queue.tail_
  grabbing : ∀ c size head i, s.consumer c = .grabbing size (.cas head i []) → 0 < size →
    ∃ t ∈ since (inTake c) h, t.post.queue.head_ = t.post.queue.tail_
  grabbed : ∀ c size, s.consumer c = .grabbed size [] → 0 < size →
    ∃ t ∈ since (inTake c) h, t.post.queue.head_ = t.post.queue.tail_

omit [DecidableEq κ] in
/-- What a step has to show: a new negative answer, or a newly prepared empty
claim, comes with its moment. Old ones keep theirs. -/
theorem Justified.cons {capacity : ℕ} {h : List (Transition (State τ κ) (Action τ κ))}
    {s s' : State τ κ} {a : Action τ κ} (hj : Justified capacity h s)
    (hp : s'.producer = s.producer ∨ ∀ task, s'.producer = .pushed task false →
      s'.queue.tail_ = s'.queue.head_ + capacity ∨ sizeMod ≤ s'.queue.head_ + capacity)
    (hc : ∀ c, s'.consumer c = s.consumer c ∨
      s'.queue.head_ = s'.queue.tail_ ∨
      ((s'.consumer c ≠ .popped none) ∧
        (∀ size head i, s'.consumer c = .grabbing size (.cas head i []) → size = 0) ∧
        ∀ size, s'.consumer c = .grabbed size [] →
          ∃ head i, s.consumer c = .grabbing size (.cas head i []))) :
    Justified capacity (⟨s, a, s'⟩ :: h) s' := by
  have hin : ∀ c, s'.consumer c ≠ .idle → inTake c s' = true := by
    intro c hne
    cases hx : s'.consumer c <;> simp_all [inTake]
  constructor
  · intro task he
    have hin' : inPush s' = true := by simp [inPush, he]
    rcases hp with heq | hnew
    · exact exists_since_cons hin' (hj.refused task (heq ▸ he))
    · exact exists_since_head hin' (hnew task he)
  · intro c he
    have hin' := hin c (by simp [he])
    rcases hc c with heq | hnow | ⟨hno, -, -⟩
    · exact exists_since_cons hin' (hj.popped c (heq ▸ he))
    · exact exists_since_head hin' hnow
    · exact absurd he hno
  · intro c size head i he hsize
    have hin' := hin c (by simp [he])
    rcases hc c with heq | hnow | ⟨-, hno, -⟩
    · exact exists_since_cons hin' (hj.grabbing c size head i (heq ▸ he) hsize)
    · exact exists_since_head hin' hnow
    · exact absurd (hno size head i he) (by omega)
  · intro c size he hsize
    have hin' := hin c (by simp [he])
    rcases hc c with heq | hnow | ⟨-, -, hfrom⟩
    · exact exists_since_cons hin' (hj.grabbed c size (heq ▸ he) hsize)
    · exact exists_since_head hin' hnow
    · obtain ⟨head, i, hfrom⟩ := hfrom size he
      exact exists_since_cons hin' (hj.grabbing c size head i hfrom hsize)

/-- Every negative answer of every step is justified. -/
theorem Justified.step {capacity : ℕ} {h : List (Transition (State τ κ) (Action τ κ))}
    {s s' : State τ κ} (a : Action τ κ) (hi : s.Inv capacity) (hj : Justified capacity h s)
    (hs : WorkStealingQueue.step capacity a s = some s') :
    Justified capacity (⟨s, a, s'⟩ :: h) s' := by
  have hset : ∀ (t : State τ κ) c x, t.consumer = s.consumer →
      (t.queue.head_ = t.queue.tail_ ∨
        ((x ≠ .popped none) ∧
          (∀ size head i, x = .grabbing size (.cas head i []) → size = 0) ∧
          ∀ size, x = .grabbed size [] →
            ∃ head i, s.consumer c = .grabbing size (.cas head i []))) →
      t.producer = s.producer → Justified capacity (⟨s, a, t.setConsumer c x⟩ :: h)
        (t.setConsumer c x) := by
    intro t c x ht hx hp
    refine hj.cons (.inl hp) fun d => ?_
    by_cases hd : d = c
    · subst hd
      simpa [State.setConsumer] using .inr hx
    · exact .inl (by simp [State.setConsumer, hd, ht])
  cases a with
  | callPush task =>
    simp only [WorkStealingQueue.step] at hs
    split at hs
    · cases hs
      exact hj.cons (.inr (by simp)) fun c => .inl rfl
    · cases hs
  | callPop c =>
    simp only [WorkStealingQueue.step] at hs
    split at hs
    · cases hs
      exact hset s c _ rfl (.inr (by simp)) rfl
    · cases hs
  | callGrab c size =>
    simp only [WorkStealingQueue.step] at hs
    split at hs
    · cases hs
      exact hset s c _ rfl (.inr (by simp)) rfl
    · cases hs
  | push =>
    rcases pushStep_cases hi hs with
      ⟨task, pc, pc', q, -, rfl, -⟩ | ⟨task, pc, q, -, rfl, -⟩ | ⟨task, pc, -, rfl, hfull⟩ |
      ⟨task, ok, -, rfl⟩
    · exact hj.cons (.inr (by simp)) fun c => .inl rfl
    · exact hj.cons (.inr (by simp)) fun c => .inl rfl
    · exact hj.cons (.inr fun _ _ => hfull) fun c => .inl rfl
    · exact hj.cons (.inr (by simp)) fun c => .inl rfl
  | take c weak =>
    rcases takeStep_cases hi hs with
      ⟨pc, pc', -, rfl, -⟩ | ⟨pc, q, task, -, rfl, -⟩ | ⟨pc, -, rfl, hempty⟩ |
      ⟨size, pc, pc', -, rfl, -, hempty⟩ | ⟨size, head, i, buf, q, hc, rfl, -⟩ | ⟨-, rfl⟩
    · exact hset s c _ rfl (.inr (by simp)) rfl
    · exact hset _ c _ rfl (.inr (by simp)) rfl
    · exact hset s c _ rfl (.inl hempty) rfl
    · by_cases hcas : ∃ head i, pc' = .cas head i [] ∧ 0 < size
      · obtain ⟨head, i, he, hsize⟩ := hcas
        exact hset s c _ rfl (.inl ((hempty head i he).resolve_left (by omega))) rfl
      · refine hset s c _ rfl (.inr ⟨by simp, fun n head i he => ?_, by simp⟩) rfl
        cases he
        by_contra hn
        exact hcas ⟨head, i, rfl, by omega⟩
    · refine hset _ c _ rfl (.inr ⟨by simp, by simp, fun n he => ?_⟩) rfl
      cases he
      exact ⟨head, i, hc⟩
    · exact hset s c _ rfl (.inr (by simp)) rfl

theorem justified_of_run {capacity : ℕ} {h : List (Transition (State τ κ) (Action τ κ))}
    {s : State τ κ} (hr : (machine τ κ capacity).Run h s) : Justified capacity h s :=
  hr.invariant
    (fun s ⟨null, h⟩ => by subst h; constructor <;> simp)
    fun _ a _ _ hs hj hst => hj.step a (inv_of_reachable hs) hst

/-! ## The queue as a bounded FIFO queue -/

/-- What a client may rely on at the end of a run `h` that has led to `s`.
`Refuse` says which queues may answer `false` to a `TryPush`. -/
structure BoundedFifo (Refuse : Queue τ → Prop) (capacity : ℕ)
    (h : List (Transition (State τ κ) (Action τ κ))) (s : State τ κ) : Prop where
  window : s.queue.head_ ≤ s.queue.tail_ ∧ s.queue.tail_ ≤ s.queue.head_ + capacity
  fifo : storedIn h = takenIn h ++ s.queue.contents capacity
  refused : ∀ task, s.producer = .pushed task false →
    ∃ t ∈ since inPush h, Refuse t.post.queue
  popped : ∀ c, s.consumer c = .popped none →
    ∃ t ∈ since (inTake c) h, t.post.queue.contents capacity = []
  grabbed : ∀ c size, s.consumer c = .grabbed size [] → 0 < size →
    ∃ t ∈ since (inTake c) h, t.post.queue.contents capacity = []

/-- The queue holds exactly `Capacity` tasks. -/
def Full (capacity : ℕ) (q : Queue τ) : Prop := (q.contents capacity).length = capacity

theorem full_of_tail_eq {capacity : ℕ} {q : Queue τ} (h : q.tail_ = q.head_ + capacity) :
    Full capacity q := by
  simp [Full, Queue.contents, h]

/-- **The ring refines a bounded FIFO queue** in every run: what the consumers
took, followed by what the window holds, is what was stored, in order; a refused
push saw the queue full, or saw `head_ + Capacity` leave the range of `size_t`;
a pop or grab that came back empty-handed saw the queue empty. -/
theorem bounded_fifo {capacity : ℕ} {h : List (Transition (State τ κ) (Action τ κ))}
    {s : State τ κ} (hr : (machine τ κ capacity).Run h s) :
    BoundedFifo (fun q => Full capacity q ∨ sizeMod ≤ q.head_ + capacity) capacity h s := by
  have hi := inv_of_reachable hr.reachable
  have hj := justified_of_run hr
  have hrec := recorded_of_run hr
  refine ⟨⟨hi.queue.head_le, hi.queue.tail_le⟩, ?_, fun task he => ?_, fun c he => ?_,
    fun c size he hsize => ?_⟩
  · rw [← hrec.pushed, ← hrec.taken]
    exact hi.queue.pushed_eq
  · obtain ⟨t, ht, hq⟩ := hj.refused task he
    exact ⟨t, ht, hq.imp_left full_of_tail_eq⟩
  · obtain ⟨t, ht, hq⟩ := hj.popped c he
    exact ⟨t, ht, contents_eq_nil hq⟩
  · obtain ⟨t, ht, hq⟩ := hj.grabbed c size he hsize
    exact ⟨t, ht, contents_eq_nil hq⟩

/-- A run of a queue of one cell: a push, then a second one that is refused. -/
theorem bounded_fifo_one_cell :
    ∃ h s, BoundedFifo (κ := Unit) (fun q => Full 1 q ∨ sizeMod ≤ q.head_ + 1) 1 h s ∧
      s.producer = .pushed 8 false ∧ storedIn h = [7] := by
  have hrun := Run.step (M := machine ℕ Unit 1) (.callPush 7) (.init ⟨0, rfl⟩) rfl
    |>.step .push rfl |>.step .push rfl |>.step .push rfl |>.step .push rfl |>.step .push rfl
    |>.step (.callPush 8) rfl |>.step .push rfl |>.step .push rfl
  exact ⟨_, _, bounded_fifo hrun, rfl, rfl⟩

/-! ## `head + Capacity` wraps

The guard of `TryPush` is `head + Capacity <= tail`, not `tail - head >= Capacity`.
Once `head_` is within `Capacity` of `SIZE_MAX`, the sum wraps to a small number
and every push is refused, although the queue is empty. -/

/-- A machine at rest: nobody is inside a call. -/
def atRest (q : Queue τ) : State τ κ :=
  { queue := q, producer := .idle, consumer := fun _ => .idle }

/-- A push, alone, into a queue whose guard lets it through. -/
theorem run_push {capacity : ℕ} {h : List (Transition (State τ κ) (Action τ κ))}
    {q : Queue τ} (hr : (machine τ κ capacity).Run h (atRest q)) (task : τ)
    (hroom : ¬ (q.head_ + capacity) % sizeMod ≤ q.tail_) :
    ∃ h' q', (machine τ κ capacity).Run h' (atRest q') ∧ q'.head_ = q.head_ ∧
      q'.tail_ = (q.tail_ + 1) % sizeMod := by
  have hguard : (machine τ κ capacity).step .push
      { atRest q with producer := .pushing task (.loadHead q.tail_) } =
      some { atRest q with producer := .pushing task (.storeSlot q.tail_) } := by
    simp [machine, step, pushStep, TryPush, hroom, atRest]
  have hrun := hr.step (.callPush task) rfl |>.step .push rfl |>.step .push hguard
    |>.step .push rfl |>.step .push rfl |>.step .push rfl
  exact ⟨_, _, hrun, rfl, rfl⟩

/-- A pop, alone, from a queue that is not empty. -/
theorem run_pop {capacity : ℕ} {h : List (Transition (State τ κ) (Action τ κ))}
    {q : Queue τ} (hr : (machine τ κ capacity).Run h (atRest q)) (c : κ)
    (hne : q.head_ ≠ q.tail_) :
    ∃ h' q', (machine τ κ capacity).Run h' (atRest q') ∧
      q'.head_ = (q.head_ + 1) % sizeMod ∧ q'.tail_ = q.tail_ := by
  set t := q.buffer_ (Mod capacity q.head_)
  set q' : Queue τ := { q with head_ := (q.head_ + 1) % sizeMod, taken := q.taken ++ [t] }
  have hcall : ∀ x y : Consumer τ, (atRest (κ := κ) q |>.setConsumer c x).setConsumer c y =
      (atRest q).setConsumer c y := by
    intro x y
    simp [State.setConsumer]
  have hrest : ((atRest q').setConsumer c (.popped (some t))).setConsumer c .idle =
      atRest (κ := κ) q' := by
    simp [State.setConsumer, atRest]
  have h₁ := hr.step (.callPop c) rfl
  have h₂ : (machine τ κ capacity).Run _
      ((atRest q).setConsumer c (.popping (.loadTail q.head_))) :=
    h₁.step (.take c false)
      (by simp [machine, step, takeStep, TryPop, State.setConsumer, atRest])
  have h₃ : (machine τ κ capacity).Run _
      ((atRest q).setConsumer c (.popping (.loadSlot q.head_))) :=
    h₂.step (.take c false)
      (by simp [machine, step, takeStep, TryPop, State.setConsumer, atRest, hne])
  have h₄ : (machine τ κ capacity).Run _ ((atRest q).setConsumer c (.popping (.cas q.head_ t))) :=
    h₃.step (.take c false)
      (by simp [machine, step, takeStep, TryPop, State.setConsumer, atRest, t])
  have h₅ : (machine τ κ capacity).Run _ ((atRest q').setConsumer c (.popped (some t))) :=
    h₄.step (.take c false)
      (by simp [machine, step, takeStep, TryPop, State.setConsumer, atRest, q'])
  have h₆ : (machine τ κ capacity).Run _ (atRest q') :=
    h₅.step (.take c false) (by simp [machine, step, takeStep, State.setConsumer, atRest])
  exact ⟨_, q', h₆, rfl, rfl⟩

/-- After `n` pushes and as many pops, the queue is empty at index `n`. -/
theorem run_to_index {capacity : ℕ} (task : τ) (c : κ) (hc : 0 < capacity) (n : ℕ)
    (hn : n + capacity ≤ sizeMod) :
    ∃ h q, (machine τ κ capacity).Run h (atRest q) ∧ q.head_ = n ∧ q.tail_ = n := by
  induction n with
  | zero => exact ⟨[], _, .init ⟨task, rfl⟩, rfl, rfl⟩
  | succ n ih =>
    obtain ⟨h, q, hr, rfl, ht⟩ := ih (by omega)
    obtain ⟨h₁, q₁, hr₁, hh₁, ht₁⟩ := run_push hr task
      (by rw [Nat.mod_eq_of_lt (by omega)]; omega)
    rw [Nat.mod_eq_of_lt (by omega)] at ht₁
    obtain ⟨h₂, q₂, hr₂, hh₂, ht₂⟩ := run_pop hr₁ c (by omega)
    rw [Nat.mod_eq_of_lt (by omega)] at hh₂
    exact ⟨h₂, q₂, hr₂, by omega, by omega⟩

/-- With 256 cells, as the pool has, and fewer than `2^64` pushes, a push into an
empty queue is refused. -/
theorem not_refused_only_when_full :
    ¬ ∀ h s, (machine ℕ Unit 256).Run h s → (storedIn h).length < sizeMod →
      BoundedFifo (Full 256) 256 h s := by
  intro hclaim
  obtain ⟨h, q, hr, hh, ht⟩ := run_to_index (τ := ℕ) (κ := Unit) 1 ()
    (show 0 < 256 by decide) (sizeMod - 256) (by decide)
  have hwrap : (q.head_ + 256) % sizeMod ≤ q.tail_ := by
    rw [hh, show (sizeMod - 256 + 256) % sizeMod = 0 by decide]
    exact Nat.zero_le _
  have hguard : (machine ℕ Unit 256).step .push
      { atRest q with producer := .pushing 1 (.loadHead q.tail_) } =
      some { atRest q with producer := .pushed 1 false } := by
    simp only [machine, step, pushStep, TryPush, atRest, if_pos hwrap]
  have hrun := hr.step (.callPush 1) rfl |>.step .push rfl |>.step .push hguard
  have hlen : (storedIn h).length = q.tail_ := by
    rw [← (recorded_of_run hr).pushed]
    exact (inv_of_reachable hr.reachable).queue.length_pushed
  have hfew : (storedIn h).length < sizeMod := by
    rw [hlen, ht]; decide
  have hempty : q.contents 256 = [] := contents_eq_nil (by omega)
  obtain ⟨t, hmem, hfull⟩ :=
    (hclaim _ _ hrun (by simpa [storedIn, stored, atRest] using hfew)).refused 1 rfl
  -- the call made three steps, and the queue was `q` in all of them
  have hq : t.post.queue = q := by
    rw [since_cons_of_pos rfl, since_cons_of_pos rfl, since_cons_of_pos rfl,
      hr.since_eq_nil rfl] at hmem
    simp only [List.mem_cons, List.not_mem_nil, or_false] at hmem
    rcases hmem with rfl | rfl | rfl <;> rfl
  rw [Full, hq, hempty] at hfull
  cases hfull

end Exe.WorkStealingQueue
