/-
`fiber::BufferedChannel<T>`: a bounded channel between fibers.

`Send` and `Receive` work under the spin lock. A fiber that cannot go on switches
away **with the lock held**: the suspend callback, run after the switch, links
its node into `waiters_`, sets `state_` and unlocks. A fiber that is scheduled
takes the lock once more before it returns. So the steps of a fiber are the
entry section, the callback, and the resumption; whoever hands a value over does
so inside its own entry section.

# Conventions

* Fibers are of type `φ`, values of type `T`. A waiting fiber's node lives on its
  stack, so a node is its fiber; `message` is what `node.message` points to (the
  value of a sender, the storage of a receiver: `none` while it is raw).
* `handed`, `returned`, `accepted` and `asked` are history: the values handed to
  receivers, with the receiver, in the order of the hand-overs; the values
  `Receive` has returned; the values whose `Send` has taken the lock; the fibers
  whose `Receive` has, once for each call. The last two are recorded by the step,
  whatever the section does.
* A step that is undefined (see `CircularBuffer`) or fails an assertion sets
  `crashed`, and nothing happens afterwards.
-/
import Exe.Machine
import Exe.Places
import Exe.CircularBuffer

set_option autoImplicit false

namespace Exe.Fiber.BufferedChannel

open Function (update)

/-! ## The model -/

/-- `States`. -/
inductive States
  | Nobody
  | Senders
  | Receivers
  deriving DecidableEq

/-- Which of the two calls a fiber is in. -/
inductive Role
  | sender
  | receiver
  deriving DecidableEq

/-- Where a fiber is: outside the channel, past the switch with the callback not
run yet, in `waiters_`, or scheduled and not resumed yet. -/
inductive Pc
  | idle
  | suspending (role : Role)
  | waiting (role : Role)
  | scheduled (role : Role)
  deriving DecidableEq

/-- The fiber is in a `Receive` that has taken the lock and not returned. -/
def Pc.receiving : Pc → Bool
  | suspending .receiver | waiting .receiver | scheduled .receiver => true
  | _ => false

/-- What the callback stores in `state_`. -/
def Role.states : Role → States
  | .sender => .Senders
  | .receiver => .Receivers

variable {φ T : Type*} [DecidableEq φ]

/-- The channel and its fibers. `spin_` names the fiber whose section is open. -/
structure State (φ T : Type*) where
  buffer_ : CircularBuffer T
  waiters_ : List φ
  spin_ : Option φ
  state_ : States
  pc : φ → Pc
  message : φ → Option T
  crashed : Bool
  handed : List (φ × T)
  returned : List (φ × T)
  accepted : List T
  asked : List φ

def State.new (sizeofT capacity : ℕ) : State φ T where
  buffer_ := .new sizeofT capacity
  waiters_ := []
  spin_ := none
  state_ := .Nobody
  pc _ := .idle
  message _ := none
  crashed := false
  handed := []
  returned := []
  accepted := []
  asked := []

def State.crash (s : State φ T) : State φ T := { s with crashed := true }

/-- `node->handle.Schedule(..)`. -/
def State.schedule (s : State φ T) (f : φ) : State φ T :=
  match s.pc f with
  | .waiting role => { s with pc := update s.pc f (.scheduled role) }
  | _ => s

/-- `if (waiters_.IsEmpty()) { state_ = Nobody; }`. -/
def State.resetState (s : State φ T) : State φ T :=
  { s with state_ := if s.waiters_.isEmpty then .Nobody else s.state_ }

/-- The fiber switches away with the lock held. -/
def State.suspend (s : State φ T) (f : φ) (role : Role) (message : Option T) : State φ T :=
  { s with
    spin_ := some f
    message := update s.message f message
    pc := update s.pc f (.suspending role) }

/-- The entry section of `Send(val)`. -/
def Send (sizeofT : ℕ) (f : φ) (val : T) (s : State φ T) : State φ T :=
  match s.state_ with
  | .Receivers =>
    match s.waiters_ with
    | [] => s.crash
    | receiver :: rest =>
      { s with
        waiters_ := rest
        message := update s.message receiver (some val)
        handed := s.handed ++ [(receiver, val)] }.schedule receiver |>.resetState
  | _ =>
    if s.buffer_.IsFull then s.suspend f .sender (some val)
    else
      match s.buffer_.Emplace sizeofT val with
      | none => s.crash
      | some buffer => { s with buffer_ := buffer }

/-- The entry section of `Receive()`. -/
def Receive (sizeofT : ℕ) (f : φ) (s : State φ T) : State φ T :=
  if s.buffer_.IsEmpty then s.suspend f .receiver none
  else
    match s.buffer_.Pop sizeofT with
    | none => s.crash
    | some (res, buffer) =>
      let s := { s with
        buffer_ := buffer
        handed := s.handed ++ [(f, res)]
        returned := s.returned ++ [(f, res)] }
      match s.state_ with
      | .Senders =>
        match s.waiters_ with
        | [] => s.crash
        | sender :: rest =>
          match (s.message sender).bind (s.buffer_.Emplace sizeofT) with
          | none => s.crash
          | some buffer =>
            { s with
              buffer_ := buffer
              waiters_ := rest
              message := update s.message sender none }.schedule sender |>.resetState
      | _ => s

/-- The suspend callback. -/
def callback (f : φ) (role : Role) (s : State φ T) : State φ T :=
  { s with
    waiters_ := s.waiters_ ++ [f]
    state_ := role.states
    spin_ := none
    pc := update s.pc f (.waiting role) }

/-- `lock.lock()` after `Suspend`, and the return of the call. -/
def resume (f : φ) (role : Role) (s : State φ T) : State φ T :=
  match role, s.message f with
  | .sender, _ => { s with pc := update s.pc f .idle }
  | .receiver, some res =>
    { s with
      pc := update s.pc f .idle
      message := update s.message f none
      returned := s.returned ++ [(f, res)] }
  | .receiver, none => s.crash

/-- What a fiber does next. -/
inductive Action (φ T : Type*)
  | send (f : φ) (val : T)
  | receive (f : φ)
  | callback (f : φ)
  | resume (f : φ)

def step (sizeofT : ℕ) (a : Action φ T) (s : State φ T) : Option (State φ T) :=
  if s.crashed then none
  else
    match a with
    | .send f val =>
      if s.pc f = .idle ∧ s.spin_ = none then
        some { Send sizeofT f val s with accepted := s.accepted ++ [val] }
      else none
    | .receive f =>
      if s.pc f = .idle ∧ s.spin_ = none then
        some { Receive sizeofT f s with asked := s.asked ++ [f] }
      else none
    | .callback f =>
      match s.pc f with
      | .suspending role => some (BufferedChannel.callback f role s)
      | _ => none
    | .resume f =>
      match s.pc f, s.spin_ with
      | .scheduled role, none => some (BufferedChannel.resume f role s)
      | _, _ => none

def machine (φ T : Type*) [DecidableEq φ] (sizeofT capacity : ℕ) :
    Machine (State φ T) (Action φ T) where
  init s := s = .new sizeofT capacity
  step := step sizeofT

/-! ## The invariant -/

/-- The waiting senders, front to back. -/
def State.senders (s : State φ T) : List φ :=
  if s.state_ = .Senders then s.waiters_ else []

/-- The sender that has switched away and is not in `waiters_` yet. -/
def State.suspendingSender (s : State φ T) : List φ :=
  match s.spin_ with
  | some f => if s.pc f = .suspending .sender then [f] else []
  | none => []

/-- The values a fiber received, in order. -/
def valuesOf (f : φ) (h : List (φ × T)) : List T :=
  (h.filter fun p => p.1 = f).map Prod.snd

/-- The value that has been constructed for a receiver that has not resumed
yet. -/
def State.pending (s : State φ T) (f : φ) : List T :=
  if s.pc f = .scheduled .receiver then (s.message f).toList else []

/-- Every `Receive` that has taken the lock has returned one value or is under way. -/
def Answered (asked : List φ) (returned : List (φ × T)) (pc : φ → Pc) : Prop :=
  ∀ f, asked.count f = (valuesOf f returned).length + if (pc f).receiving then 1 else 0

/-- The invariant, with `l` for the elements in the buffer. -/
structure Inv (sizeofT capacity : ℕ) (s : State φ T) (l : List T) : Prop where
  crashed : s.crashed = false
  buffer : s.buffer_.Holds sizeofT capacity l
  /-- Handed over, in the buffer, waiting, switching: the order of the sends. -/
  fifo : s.handed.map (fun p => some p.2) ++ l.map some ++
    (s.senders ++ s.suspendingSender).map s.message = s.accepted.map some
  nodup : s.waiters_.Nodup
  parked : ∀ f, f ∈ s.waiters_ ↔ ∃ role, s.pc f = .waiting role
  locked : ∀ f, s.spin_ = some f ↔ ∃ role, s.pc f = .suspending role
  nobody : s.state_ = .Nobody ↔ s.waiters_ = []
  receivers : s.state_ = .Receivers → l = [] ∧ ∀ f ∈ s.waiters_, s.pc f = .waiting .receiver
  senders : s.state_ = .Senders → l.length = capacity ∧
    ∀ f ∈ s.waiters_, s.pc f = .waiting .sender ∧ ∃ val, s.message f = some val
  suspendingSender : ∀ f, s.pc f = .suspending .sender →
    l.length = capacity ∧ s.state_ ≠ .Receivers ∧ ∃ val, s.message f = some val
  suspendingReceiver : ∀ f, s.pc f = .suspending .receiver → l = [] ∧ s.state_ ≠ .Senders
  scheduled : ∀ f, s.pc f = .scheduled .receiver → ∃ val, s.message f = some val
  returns : ∀ f, valuesOf f s.handed = valuesOf f s.returned ++ s.pending f
  answered : Answered s.asked s.returned s.pc

section Steps

variable {sizeofT capacity : ℕ} {s : State φ T} {l : List T} {f : φ}

theorem valuesOf_append (f g : φ) (h : List (φ × T)) (val : T) :
    valuesOf f (h ++ [(g, val)]) = valuesOf f h ++ if g = f then [val] else [] := by
  unfold valuesOf
  rw [List.filter_append, List.map_append]
  by_cases hg : g = f
  · simp [hg]
  · simp [hg]

/-! ### Calls of `Receive` -/

section Answered

variable {asked : List φ} {returned : List (φ × T)} {pc : φ → Pc}

/-- A fiber goes on within its call, or without being in a `Receive`. -/
theorem Answered.move (h : Answered asked returned pc) {next : Pc}
    (hf : next.receiving = (pc f).receiving) : Answered asked returned (update pc f next) := by
  intro g
  by_cases hg : g = f
  · rw [hg, Function.update_self, hf]
    exact h f
  · rw [Function.update_of_ne hg]
    exact h g

/-- `Receive` takes the lock and cannot return yet. -/
theorem Answered.ask (h : Answered asked returned pc) (hf : pc f = .idle) :
    Answered (asked ++ [f]) returned (update pc f (.suspending .receiver)) := by
  intro g
  have hg := h g
  rw [List.count_append, List.count_singleton]
  by_cases hgf : g = f
  · subst hgf
    rw [hf] at hg
    rw [Function.update_self, hg]
    simp [Pc.receiving]
  · rw [Function.update_of_ne hgf, hg]
    simp [Ne.symm hgf]

/-- `Receive` returns a value. -/
theorem Answered.answer (h : Answered asked returned pc) (hf : pc f = .scheduled .receiver)
    (val : T) : Answered asked (returned ++ [(f, val)]) (update pc f .idle) := by
  intro g
  have hg := h g
  rw [valuesOf_append]
  by_cases hgf : g = f
  · subst hgf
    rw [hf] at hg
    rw [Function.update_self, hg]
    simp [Pc.receiving]
  · rw [Function.update_of_ne hgf, hg]
    simp [Ne.symm hgf]

/-- `Receive` takes the lock and returns a value in one section. -/
theorem Answered.ask_answer (h : Answered asked returned pc) (hf : pc f = .idle) (val : T) :
    Answered (asked ++ [f]) (returned ++ [(f, val)]) pc := by
  intro g
  have hg := h g
  rw [List.count_append, List.count_singleton, valuesOf_append, hg]
  by_cases hgf : g = f
  · subst hgf
    simp [hf, Pc.receiving]
  · simp [Ne.symm hgf]

end Answered

/-! ### Sections -/

/-- While the lock is free nobody is between the switch and the callback. -/
theorem Inv.not_suspending (h : Inv sizeofT capacity s l) (hspin : s.spin_ = none) (g : φ)
    (role : Role) : s.pc g ≠ .suspending role := by
  intro hg
  have hlock := (h.locked g).mpr ⟨role, hg⟩
  rw [hspin] at hlock
  cases hlock

theorem Inv.not_mem_of_idle (h : Inv sizeofT capacity s l) (hf : s.pc f = .idle) :
    f ∉ s.waiters_ := by
  intro hmem
  obtain ⟨role, hrole⟩ := (h.parked f).mp hmem
  rw [hf] at hrole
  cases hrole

/-- A step that moves one fiber, and not into a suspension. -/
theorem update_not_suspending {pc : φ → Pc} {next : Pc} (w : φ)
    (hnext : ∀ role, next ≠ .suspending role) (hpc : ∀ g role, pc g ≠ .suspending role) (g : φ)
    (role : Role) : update pc w next g ≠ .suspending role :=
  Places.not_of_update (P := (· = Pc.suspending role)) (fun g hg => absurd hg (hpc g role))
    (hnext role) g

omit [DecidableEq φ] in
/-- With the lock free and nobody suspending, `locked` holds. -/
theorem locked_of_free {pc : φ → Pc} {spin_ : Option φ} (hspin : spin_ = none)
    (hpc : ∀ g role, pc g ≠ .suspending role) (g : φ) :
    spin_ = some g ↔ ∃ role, pc g = .suspending role := by
  rw [hspin]
  constructor
  · intro hg
    cases hg
  · rintro ⟨role, hg⟩
    exact absurd hg (hpc g role)

/-- A free lock and no waiting sender: the buffer ends the sequence. -/
theorem Inv.fifo_of_free (h : Inv sizeofT capacity s l) (hspin : s.spin_ = none)
    (hstate : s.state_ ≠ .Senders) :
    s.handed.map (fun p => some p.2) ++ l.map some = s.accepted.map some := by
  have hfifo := h.fifo
  simpa [State.senders, State.suspendingSender, hspin, hstate] using hfifo

/-- The front waiter is taken out of `waiters_` and scheduled. -/
theorem Inv.parked_pop (h : Inv sizeofT capacity s l) {w : φ} {rest : List φ} {role : Role}
    (hw : s.waiters_ = w :: rest) (g : φ) :
    g ∈ rest ↔ ∃ r, update s.pc w (.scheduled role) g = .waiting r := by
  have hnd := h.nodup
  have hparked := h.parked
  rw [hw, List.nodup_cons] at hnd
  rw [hw] at hparked
  exact Places.mem_iff_pop (P := fun pc => ∃ r, pc = Pc.waiting r) hparked hnd.1 (by simp) g

omit [DecidableEq φ] in
/-- `state_` after a waiter has been taken out of `waiters_`. -/
theorem resetState_eq (st : States) (rest : List φ) (hst : st ≠ .Nobody) :
    ((if rest.isEmpty then States.Nobody else st) = .Nobody ↔ rest = []) := by
  cases rest with
  | nil => simp
  | cons a rest => simp [hst]

/-- `Send` to a waiting receiver: the value goes past the (empty) buffer. -/
theorem Inv.send_handoff (h : Inv sizeofT capacity s l) (hspin : s.spin_ = none)
    (hstate : s.state_ = .Receivers) (val : T) :
    Inv sizeofT capacity { Send sizeofT f val s with accepted := s.accepted ++ [val] } [] := by
  obtain ⟨rfl, hrecv⟩ := h.receivers hstate
  have hne : s.waiters_ ≠ [] := by
    rw [Ne, ← h.nobody, hstate]
    simp
  obtain ⟨r, rest, hw⟩ := List.exists_cons_of_ne_nil hne
  have hr : s.pc r = .waiting .receiver := hrecv r (by simp [hw])
  have hnd := h.nodup
  rw [hw, List.nodup_cons] at hnd
  have hnot := h.not_suspending hspin
  have hsend : { Send sizeofT f val s with accepted := s.accepted ++ [val] } = { s with
      accepted := s.accepted ++ [val]
      waiters_ := rest
      message := update s.message r (some val)
      handed := s.handed ++ [(r, val)]
      pc := update s.pc r (.scheduled .receiver)
      state_ := if rest.isEmpty then .Nobody else .Receivers } := by
    simp only [Send, hstate, hw, State.schedule, hr, State.resetState]
  have hfifo := h.fifo_of_free hspin (by rw [hstate]; simp)
  have hne' : ∀ g ∈ rest, g ≠ r := fun g hg he => hnd.1 (he ▸ hg)
  have hstate' : (if rest.isEmpty then States.Nobody else .Receivers) ≠ .Senders := by
    split <;> simp
  have hnext : ∀ role, Pc.scheduled .receiver ≠ .suspending role := by simp
  have hnot' := update_not_suspending r hnext hnot
  rw [hsend]
  refine
    { crashed := h.crashed
      buffer := h.buffer
      fifo := ?_
      nodup := hnd.2
      parked := h.parked_pop hw
      locked := locked_of_free hspin hnot'
      nobody := resetState_eq _ rest (by simp)
      receivers := fun _ => ⟨rfl, fun g hg => ?_⟩
      senders := fun hs => absurd hs hstate'
      suspendingSender := fun g hg => absurd hg (hnot' g _)
      suspendingReceiver := fun g hg => absurd hg (hnot' g _)
      scheduled := fun g hg => ?_
      returns := fun g => ?_
      answered := h.answered.move (by rw [hr]; rfl) }
  · simp only [State.senders, State.suspendingSender, hspin, if_neg hstate', List.map_append,
      ← hfifo]
    simp
  · dsimp only
    rw [Function.update_of_ne (hne' g hg)]
    exact hrecv g (by simp [hw, hg])
  · dsimp only at hg ⊢
    by_cases hgr : g = r
    · exact ⟨val, by rw [hgr, Function.update_self]⟩
    · rw [Function.update_of_ne hgr] at hg ⊢
      exact h.scheduled g hg
  · -- only the receiver's storage has been filled
    have hret := h.returns g
    rw [valuesOf_append]
    by_cases hgr : g = r
    · subst hgr
      simp_all [State.pending]
    · simpa [State.pending, hgr, Ne.symm hgr] using hret

/-- A fiber that cannot go on switches away with the lock held. -/
theorem Inv.suspend (h : Inv sizeofT capacity s l) (hf : s.pc f = .idle) (hspin : s.spin_ = none)
    {role : Role} {message : Option T} {accepted : List T} {asked : List φ}
    (hS : role = .sender → l.length = capacity ∧ s.state_ ≠ .Receivers ∧
      asked = s.asked ∧ ∃ val, message = some val ∧ accepted = s.accepted ++ [val])
    (hR : role = .receiver → l = [] ∧ s.state_ ≠ .Senders ∧
      asked = s.asked ++ [f] ∧ accepted = s.accepted) :
    Inv sizeofT capacity { s.suspend f role message with accepted, asked } l := by
  have hnot := h.not_suspending hspin
  have hidle := h.not_mem_of_idle hf
  have hmem : ∀ g ∈ s.waiters_, g ≠ f := fun g hg he => hidle (he ▸ hg)
  have hsusp : ∀ g r, update s.pc f (.suspending role) g = .suspending r → g = f ∧ r = role := by
    intro g r hg
    rcases Places.eq_of_update hg with ⟨hgf, hr⟩ | ⟨-, hg⟩
    · cases hr
      exact ⟨hgf, rfl⟩
    · exact absurd hg (hnot g r)
  have hfifo := h.fifo
  rw [State.suspendingSender, hspin, List.append_nil] at hfifo
  have hwait : (s.senders.map fun g => update s.message f message g) =
      s.senders.map s.message := by
    refine List.map_congr_left fun g hg => Function.update_of_ne (hmem g ?_) _ _
    unfold State.senders at hg
    split at hg
    · exact hg
    · cases hg
  refine
    { crashed := h.crashed
      buffer := h.buffer
      fifo := ?_
      nodup := h.nodup
      parked := fun g => ?_
      locked := fun g => ?_
      nobody := h.nobody
      receivers := fun hs => ⟨(h.receivers hs).1, fun g hg => ?_⟩
      senders := fun hs => ⟨(h.senders hs).1, fun g hg => ?_⟩
      suspendingSender := fun g hg => ?_
      suspendingReceiver := fun g hg => ?_
      scheduled := fun g hg => ?_
      returns := fun g => ?_
      answered := ?_ }
  · change s.handed.map _ ++ l.map some ++ ((s.senders ++ _).map (update s.message f message)) =
      accepted.map some
    rw [List.map_append, ← List.append_assoc, hwait, hfifo]
    cases role with
    | sender =>
      obtain ⟨-, -, -, val, rfl, rfl⟩ := hS rfl
      simp [State.suspendingSender, State.suspend]
    | receiver =>
      obtain ⟨-, -, -, rfl⟩ := hR rfl
      simp [State.suspendingSender, State.suspend]
  · exact Places.mem_iff_stay (P := fun pc => ∃ r, pc = Pc.waiting r) h.parked (by simp [hf])
      (by simp) g
  · constructor
    · intro hg
      cases hg
      exact ⟨role, Function.update_self ..⟩
    · rintro ⟨r, hg⟩
      rw [(hsusp g r hg).1]
      rfl
  · simpa [State.suspend, hmem g hg] using (h.receivers hs).2 g hg
  · simpa [State.suspend, hmem g hg] using (h.senders hs).2 g hg
  · obtain ⟨rfl, rfl⟩ := hsusp g _ hg
    obtain ⟨hlen, hst, -, val, rfl, -⟩ := hS rfl
    exact ⟨hlen, hst, val, Function.update_self ..⟩
  · obtain ⟨rfl, rfl⟩ := hsusp g _ hg
    obtain ⟨hnil, hst, -⟩ := hR rfl
    exact ⟨hnil, hst⟩
  · have hgf : g ≠ f := by
      rintro rfl
      simp [State.suspend] at hg
    simpa [State.suspend, hgf] using h.scheduled g (by simpa [State.suspend, hgf] using hg)
  · have hret := h.returns g
    by_cases hgf : g = f
    · subst hgf
      simpa [State.pending, State.suspend, hf] using hret
    · simpa [State.pending, State.suspend, hgf] using hret
  · cases role with
    | sender =>
      obtain ⟨-, -, rfl, -⟩ := hS rfl
      exact h.answered.move (by rw [hf]; rfl)
    | receiver =>
      obtain ⟨-, -, rfl, -⟩ := hR rfl
      exact h.answered.ask hf

/-- `Send` into a buffer with a free cell: nobody waits. -/
theorem Inv.send_emplace (h : Inv sizeofT capacity s l) (hspin : s.spin_ = none)
    (hstate : s.state_ ≠ .Receivers) (hfull : s.buffer_.IsFull ≠ true) (val : T) :
    Inv sizeofT capacity { Send sizeofT f val s with accepted := s.accepted ++ [val] }
      (l ++ [val]) := by
  have hlen : l.length < capacity := by
    rw [Ne, h.buffer.isFull_iff] at hfull
    have := h.buffer.length_le
    omega
  have hnobody : s.state_ = .Nobody := by
    cases hst : s.state_ with
    | Nobody => rfl
    | Senders => exact absurd (h.senders hst).1 (by omega)
    | Receivers => exact absurd hst hstate
  obtain ⟨-, buffer, hem, hbuf⟩ := h.buffer.emplace hlen val
  have hsend : { Send sizeofT f val s with accepted := s.accepted ++ [val] } = { s with
      accepted := s.accepted ++ [val]
      buffer_ := buffer } := by
    simp only [Send, hnobody, if_neg hfull, hem]
  have hfifo := h.fifo_of_free hspin (by rw [hnobody]; simp)
  have hnot := h.not_suspending hspin
  rw [hsend]
  refine
    { crashed := h.crashed
      buffer := hbuf
      fifo := ?_
      nodup := h.nodup
      parked := h.parked
      locked := h.locked
      nobody := h.nobody
      receivers := fun hs => absurd hs hstate
      senders := fun hs => by rw [hnobody] at hs; cases hs
      suspendingSender := fun g hg => absurd hg (hnot g _)
      suspendingReceiver := fun g hg => absurd hg (hnot g _)
      scheduled := h.scheduled
      returns := h.returns
      answered := h.answered }
  simp only [State.senders, State.suspendingSender, hspin, hnobody, List.map_append, ← hfifo]
  simp

/-- The entry section of `Send`. -/
theorem Inv.send (h : Inv sizeofT capacity s l) (hf : s.pc f = .idle) (hspin : s.spin_ = none)
    (val : T) : ∃ l',
      Inv sizeofT capacity { Send sizeofT f val s with accepted := s.accepted ++ [val] } l' := by
  by_cases hstate : s.state_ = .Receivers
  · exact ⟨[], h.send_handoff hspin hstate val⟩
  by_cases hfull : s.buffer_.IsFull = true
  · refine ⟨l, ?_⟩
    have hsend : Send sizeofT f val s = s.suspend f .sender (some val) := by
      cases hst : s.state_ with
      | Receivers => exact absurd hst hstate
      | _ => simp only [Send, hst, if_pos hfull]
    rw [hsend]
    exact h.suspend hf hspin
      (fun _ => ⟨h.buffer.isFull_iff.mp hfull, hstate, rfl, val, rfl, rfl⟩) fun hr => by cases hr
  · exact ⟨l ++ [val], h.send_emplace hspin hstate hfull val⟩

/-- The receiver that takes the front itself has nothing pending. -/
theorem returns_append (hf : s.pc f = .idle) (hret : ∀ g, valuesOf g s.handed =
    valuesOf g s.returned ++ s.pending g) (val : T) (g : φ) :
    valuesOf g (s.handed ++ [(f, val)]) =
      valuesOf g (s.returned ++ [(f, val)]) ++ s.pending g := by
  rw [valuesOf_append, valuesOf_append, hret g]
  by_cases hgf : f = g
  · subst hgf
    simp [State.pending, hf]
  · simp [hgf]

/-- `Receive` from a buffer behind which nobody waits. -/
theorem Inv.receive_pop {val : T} (h : Inv sizeofT capacity s (val :: l)) (hf : s.pc f = .idle)
    (hspin : s.spin_ = none) (hstate : s.state_ ≠ .Senders) :
    Inv sizeofT capacity { Receive sizeofT f s with asked := s.asked ++ [f] } l := by
  obtain ⟨-, buffer, hpop, hbuf⟩ := h.buffer.pop
  have hempty : s.buffer_.IsEmpty ≠ true := by
    rw [Ne, h.buffer.isEmpty_iff]
    exact List.cons_ne_nil _ _
  have hrecv : s.state_ ≠ .Receivers := by
    intro hst
    exact absurd (h.receivers hst).1 (List.cons_ne_nil _ _)
  have hreceive : Receive sizeofT f s = { s with
      buffer_ := buffer
      handed := s.handed ++ [(f, val)]
      returned := s.returned ++ [(f, val)] } := by
    cases hst : s.state_ with
    | Senders => exact absurd hst hstate
    | _ => simp only [Receive, if_neg hempty, hpop, hst]
  have hfifo := h.fifo_of_free hspin hstate
  have hnot := h.not_suspending hspin
  rw [hreceive]
  refine
    { crashed := h.crashed
      buffer := hbuf
      fifo := ?_
      nodup := h.nodup
      parked := h.parked
      locked := h.locked
      nobody := h.nobody
      receivers := fun hs => absurd hs hrecv
      senders := fun hs => absurd hs hstate
      suspendingSender := fun g hg => absurd hg (hnot g _)
      suspendingReceiver := fun g hg => absurd hg (hnot g _)
      scheduled := h.scheduled
      returns := returns_append hf h.returns val
      answered := h.answered.ask_answer hf val }
  simp only [State.senders, State.suspendingSender, hspin, if_neg hstate, ← hfifo]
  simp

/-- `Receive` from a full buffer behind which senders wait: the front sender's
value takes the free cell. -/
theorem Inv.receive_refill {val : T} (h : Inv sizeofT capacity s (val :: l))
    (hf : s.pc f = .idle) (hspin : s.spin_ = none) (hstate : s.state_ = .Senders) :
    ∃ l', Inv sizeofT capacity { Receive sizeofT f s with asked := s.asked ++ [f] } l' := by
  obtain ⟨hlen, hsend⟩ := h.senders hstate
  rw [List.length_cons] at hlen
  have hne : s.waiters_ ≠ [] := by
    rw [Ne, ← h.nobody, hstate]
    simp
  obtain ⟨w, rest, hw⟩ := List.exists_cons_of_ne_nil hne
  obtain ⟨hpc, m, hm⟩ := hsend w (by simp [hw])
  obtain ⟨-, buffer, hpop, hbuf⟩ := h.buffer.pop
  obtain ⟨-, buffer', hem, hbuf'⟩ := hbuf.emplace (by omega) m
  have hempty : s.buffer_.IsEmpty ≠ true := by
    rw [Ne, h.buffer.isEmpty_iff]
    exact List.cons_ne_nil _ _
  have hreceive : Receive sizeofT f s = { s with
      handed := s.handed ++ [(f, val)]
      returned := s.returned ++ [(f, val)]
      buffer_ := buffer'
      waiters_ := rest
      message := update s.message w none
      pc := update s.pc w (.scheduled .sender)
      state_ := if rest.isEmpty then .Nobody else .Senders } := by
    simp only [Receive, if_neg hempty, hpop, hstate, hw, hm, Option.bind_some, hem,
      State.schedule, hpc, State.resetState]
  have hnd := h.nodup
  rw [hw, List.nodup_cons] at hnd
  have hne' : ∀ g ∈ rest, g ≠ w := fun g hg he => hnd.1 (he ▸ hg)
  have hstate' : (if rest.isEmpty then States.Nobody else .Senders) ≠ .Receivers := by
    split <;> simp
  have hnot := h.not_suspending hspin
  have hnext : ∀ role, Pc.scheduled .sender ≠ .suspending role := by simp
  have hnot' := update_not_suspending w hnext hnot
  have hfifo := h.fifo
  rw [State.senders, if_pos hstate, State.suspendingSender, hspin, List.append_nil, hw] at hfifo
  refine ⟨l ++ [m], ?_⟩
  rw [hreceive]
  refine
    { crashed := h.crashed
      buffer := hbuf'
      fifo := ?_
      nodup := hnd.2
      parked := h.parked_pop hw
      locked := locked_of_free hspin hnot'
      nobody := resetState_eq _ rest (by simp)
      receivers := fun hs => absurd hs hstate'
      senders := fun _ => ⟨by simp [hlen], fun g hg => ?_⟩
      suspendingSender := fun g hg => absurd hg (hnot' g _)
      suspendingReceiver := fun g hg => absurd hg (hnot' g _)
      scheduled := fun g hg => ?_
      returns := fun g => ?_
      answered := (h.answered.ask_answer hf val).move (by rw [hpc]; rfl) }
  · -- the waiting senders that are left are `rest`, whatever `state_` says
    have hsenders : (if (if rest.isEmpty then States.Nobody else .Senders) = .Senders then rest
        else []) = rest := by
      cases rest with
      | nil => simp
      | cons a rest => simp
    have hmsg : rest.map (update s.message w none) = rest.map s.message :=
      List.map_congr_left fun g hg => Function.update_of_ne (hne' g hg) _ _
    simp only [State.senders, State.suspendingSender, hspin, hsenders, List.append_nil, hmsg]
    rw [← hfifo]
    simp [hm]
  · have hg' := hne' g hg
    have := hsend g (by simp [hw, hg])
    simpa [hg'] using this
  · have hgw : g ≠ w := by
      rintro rfl
      simp at hg
    simpa [hgw] using h.scheduled g (by simpa [hgw] using hg)
  · have hret := returns_append hf h.returns val g
    by_cases hgw : g = w
    · subst hgw
      simpa [State.pending, hpc] using hret
    · simpa [State.pending, hgw] using hret

/-- The entry section of `Receive`. -/
theorem Inv.receive (h : Inv sizeofT capacity s l) (hcap : 0 < capacity) (hf : s.pc f = .idle)
    (hspin : s.spin_ = none) :
    ∃ l', Inv sizeofT capacity { Receive sizeofT f s with asked := s.asked ++ [f] } l' := by
  cases l with
  | nil =>
    refine ⟨[], ?_⟩
    have hreceive : Receive sizeofT f s = s.suspend f .receiver none := by
      simp only [Receive, if_pos (h.buffer.isEmpty_iff.mpr rfl)]
    rw [hreceive]
    refine h.suspend hf hspin (fun hr => by cases hr) fun _ => ⟨rfl, fun hst => ?_, rfl, rfl⟩
    -- senders wait behind a full buffer, and a full buffer is not empty
    have hlen := (h.senders hst).1
    rw [List.length_nil] at hlen
    omega
  | cons val l =>
    by_cases hstate : s.state_ = .Senders
    · exact h.receive_refill hf hspin hstate
    · exact ⟨l, h.receive_pop hf hspin hstate⟩

/-- The suspend callback. -/
theorem Inv.callback (h : Inv sizeofT capacity s l) {role : Role}
    (hf : s.pc f = .suspending role) : Inv sizeofT capacity (callback f role s) l := by
  have hlock : s.spin_ = some f := (h.locked f).mpr ⟨role, hf⟩
  have hnotmem : f ∉ s.waiters_ := by
    intro hmem
    obtain ⟨r, hr⟩ := (h.parked f).mp hmem
    rw [hf] at hr
    cases hr
  have hnot : ∀ g r, update s.pc f (.waiting role) g ≠ .suspending r := by
    intro g r
    -- only one fiber holds the lock
    have honly : ∀ g, s.pc g = .suspending r → g = f := by
      intro g hg
      have hlock' := (h.locked g).mpr ⟨r, hg⟩
      rw [hlock] at hlock'
      exact (Option.some.inj hlock').symm
    exact Places.not_of_update (P := (· = Pc.suspending r)) honly (by simp) g
  have hmem : ∀ g, g ∈ s.waiters_ ++ [f] → g ≠ f → g ∈ s.waiters_ := by
    intro g hg hgf
    simpa [hgf] using hg
  refine
    { crashed := h.crashed
      buffer := h.buffer
      fifo := ?_
      nodup := ?_
      parked := fun g => ?_
      locked := locked_of_free rfl hnot
      nobody := ?_
      receivers := fun hs => ?_
      senders := fun hs => ?_
      suspendingSender := fun g hg => absurd hg (hnot g _)
      suspendingReceiver := fun g hg => absurd hg (hnot g _)
      scheduled := fun g hg => ?_
      returns := fun g => ?_
      answered := h.answered.move (by rw [hf]; cases role <;> rfl) }
  · have hfifo := h.fifo
    rw [State.suspendingSender, hlock] at hfifo
    cases role with
    | sender =>
      -- the waiters so far are senders, or there are none
      have hwait : s.senders = s.waiters_ := by
        unfold State.senders
        split
        · rfl
        · rename_i hst
          have hrecv := (h.suspendingSender f hf).2.1
          cases hst' : s.state_ with
          | Nobody => exact (h.nobody.mp hst').symm
          | Senders => exact absurd hst' hst
          | Receivers => exact absurd hst' hrecv
      simp only [hf, if_true, hwait] at hfifo
      simpa [State.senders, State.suspendingSender, BufferedChannel.callback, Role.states]
        using hfifo
    | receiver =>
      have hwait : s.senders = [] := if_neg (h.suspendingReceiver f hf).2
      rw [hwait] at hfifo
      simpa [State.senders, State.suspendingSender, BufferedChannel.callback, Role.states, hf]
        using hfifo
  · exact Places.nodup_push h.nodup hnotmem
  · exact Places.mem_iff_push (P := fun pc => ∃ r, pc = Pc.waiting r) h.parked ⟨role, rfl⟩ g
  · cases role <;> simp [BufferedChannel.callback, Role.states]
  · cases role with
    | sender => cases hs
    | receiver =>
      obtain ⟨hnil, hst⟩ := h.suspendingReceiver f hf
      refine ⟨hnil, fun g hg => ?_⟩
      by_cases hgf : g = f
      · simp [BufferedChannel.callback, hgf]
      · have hg' := hmem g hg hgf
        have hrecv : s.state_ = .Receivers := by
          cases hst' : s.state_ with
          | Nobody => rw [h.nobody.mp hst'] at hg'; cases hg'
          | Senders => exact absurd hst' hst
          | Receivers => rfl
        simpa [BufferedChannel.callback, hgf] using (h.receivers hrecv).2 g hg'
  · cases role with
    | receiver => cases hs
    | sender =>
      obtain ⟨hlen, hst, hmsg⟩ := h.suspendingSender f hf
      refine ⟨hlen, fun g hg => ?_⟩
      by_cases hgf : g = f
      · subst hgf
        exact ⟨Function.update_self .., hmsg⟩
      · have hg' := hmem g hg hgf
        have hsend : s.state_ = .Senders := by
          cases hst' : s.state_ with
          | Nobody => rw [h.nobody.mp hst'] at hg'; cases hg'
          | Senders => rfl
          | Receivers => exact absurd hst' hst
        simpa [BufferedChannel.callback, hgf] using (h.senders hsend).2 g hg'
  · have hgf : g ≠ f := by
      rintro rfl
      simp [BufferedChannel.callback] at hg
    exact h.scheduled g (by simpa [BufferedChannel.callback, hgf] using hg)
  · have hret := h.returns g
    by_cases hgf : g = f
    · subst hgf
      simpa [State.pending, BufferedChannel.callback, hf] using hret
    · simpa [State.pending, BufferedChannel.callback, hgf] using hret

/-- The resumption. -/
theorem Inv.resume (h : Inv sizeofT capacity s l) {role : Role} (hf : s.pc f = .scheduled role)
    (hspin : s.spin_ = none) : Inv sizeofT capacity (resume f role s) l := by
  have hnotmem : f ∉ s.waiters_ := by
    intro hmem
    obtain ⟨r, hr⟩ := (h.parked f).mp hmem
    rw [hf] at hr
    cases hr
  have hmem : ∀ g ∈ s.waiters_, g ≠ f := fun g hg he => hnotmem (he ▸ hg)
  have hnot := h.not_suspending hspin
  have hnot' := update_not_suspending f (fun role => (by simp : Pc.idle ≠ .suspending role)) hnot
  have hparked : ∀ g, g ∈ s.waiters_ ↔ ∃ r, update s.pc f .idle g = .waiting r :=
    Places.mem_iff_stay (P := fun pc => ∃ r, pc = Pc.waiting r) h.parked (by simp [hf]) (by simp)
  have hpc : ∀ g ∈ s.waiters_, update s.pc f .idle g = s.pc g := fun g hg =>
    Function.update_of_ne (hmem g hg) _ _
  have hne : ∀ g r, update s.pc f .idle g = .scheduled r → g ≠ f := by
    rintro g r hg rfl
    simp at hg
  have hfifo := h.fifo
  rw [State.suspendingSender, hspin, List.append_nil] at hfifo
  cases role with
  | sender =>
    refine
      { crashed := h.crashed
        buffer := h.buffer
        fifo := ?_
        nodup := h.nodup
        parked := hparked
        locked := locked_of_free hspin hnot'
        nobody := h.nobody
        receivers := fun hs => ⟨(h.receivers hs).1, fun g hg =>
          (hpc g hg).trans ((h.receivers hs).2 g hg)⟩
        senders := fun hs => ⟨(h.senders hs).1, fun g hg =>
          ⟨(hpc g hg).trans ((h.senders hs).2 g hg).1, ((h.senders hs).2 g hg).2⟩⟩
        suspendingSender := fun g hg => absurd hg (hnot' g _)
        suspendingReceiver := fun g hg => absurd hg (hnot' g _)
        scheduled := fun g hg => h.scheduled g (by
          have hgf := hne g _ hg
          simpa [BufferedChannel.resume, hgf] using hg)
        returns := fun g => ?_
        answered := h.answered.move (by rw [hf]; rfl) }
    · simpa [State.senders, State.suspendingSender, BufferedChannel.resume, hspin] using hfifo
    · have hret := h.returns g
      by_cases hgf : g = f
      · subst hgf
        simpa [State.pending, BufferedChannel.resume, hf] using hret
      · simpa [State.pending, BufferedChannel.resume, hgf] using hret
  | receiver =>
    obtain ⟨val, hval⟩ := h.scheduled f hf
    have hresume : BufferedChannel.resume f .receiver s = { s with
        pc := update s.pc f .idle
        message := update s.message f none
        returned := s.returned ++ [(f, val)] } := by
      simp only [BufferedChannel.resume, hval]
    have hmsg : ∀ g ∈ s.waiters_, update s.message f none g = s.message g := fun g hg =>
      Function.update_of_ne (hmem g hg) _ _
    rw [hresume]
    refine
      { crashed := h.crashed
        buffer := h.buffer
        fifo := ?_
        nodup := h.nodup
        parked := hparked
        locked := locked_of_free hspin hnot'
        nobody := h.nobody
        receivers := fun hs => ⟨(h.receivers hs).1, fun g hg =>
          (hpc g hg).trans ((h.receivers hs).2 g hg)⟩
        senders := fun hs => ⟨(h.senders hs).1, fun g hg =>
          ⟨(hpc g hg).trans ((h.senders hs).2 g hg).1, ?_⟩⟩
        suspendingSender := fun g hg => absurd hg (hnot' g _)
        suspendingReceiver := fun g hg => absurd hg (hnot' g _)
        scheduled := fun g hg => ?_
        returns := fun g => ?_
        answered := h.answered.answer hf val }
    · have hwait : s.senders.map (update s.message f none) = s.senders.map s.message := by
        refine List.map_congr_left fun g hg => hmsg g ?_
        unfold State.senders at hg
        split at hg
        · exact hg
        · cases hg
      rw [← hwait] at hfifo
      simpa [State.senders, State.suspendingSender, hspin] using hfifo
    · have hg' := ((h.senders hs).2 g hg).2
      simpa [hmsg g hg] using hg'
    · have hgf := hne g _ hg
      simpa [hgf] using h.scheduled g (by simpa [hgf] using hg)
    · -- the value that was pending is the one returned
      have hret := h.returns g
      dsimp only
      rw [hret, valuesOf_append]
      by_cases hgf : g = f
      · subst hgf
        simp [State.pending, hf, hval]
      · simp [State.pending, hgf, Ne.symm hgf]

/-- Every step keeps the invariant. -/
theorem Inv.step {s' : State φ T} (h : Inv sizeofT capacity s l) (hcap : 0 < capacity)
    {a : Action φ T} (hs : step sizeofT a s = some s') : ∃ l', Inv sizeofT capacity s' l' := by
  have hcrash : ¬ s.crashed = true := by
    rw [h.crashed]
    exact Bool.false_ne_true
  unfold BufferedChannel.step at hs
  rw [if_neg hcrash] at hs
  cases a with
  | send f val =>
    dsimp only at hs
    split at hs
    · rename_i hfree
      cases hs
      exact h.send hfree.1 hfree.2 val
    · cases hs
  | receive f =>
    dsimp only at hs
    split at hs
    · rename_i hfree
      cases hs
      exact h.receive hcap hfree.1 hfree.2
    · cases hs
  | callback f =>
    dsimp only at hs
    split at hs
    · rename_i role hf
      cases hs
      exact ⟨l, h.callback hf⟩
    · cases hs
  | resume f =>
    dsimp only at hs
    split at hs
    · rename_i role hf hspin
      cases hs
      exact ⟨l, h.resume hf hspin⟩
    · cases hs

theorem Inv.new (hT : 0 < sizeofT) (hfit : (capacity + 1) * sizeofT < sizeMod) :
    Inv sizeofT capacity (State.new sizeofT capacity : State φ T) [] := by
  refine
    { crashed := rfl
      buffer := .new hT hfit
      fifo := rfl
      nodup := List.nodup_nil
      parked := fun g => ?_
      locked := locked_of_free rfl fun g role => by simp [State.new]
      nobody := by simp [State.new]
      receivers := fun hs => by cases hs
      senders := fun hs => by cases hs
      suspendingSender := fun g hg => by cases hg
      suspendingReceiver := fun g hg => by cases hg
      scheduled := fun g hg => by cases hg
      returns := fun g => rfl
      answered := fun g => rfl }
  simp [State.new]

end Steps

/-! ## The channel is a lossless FIFO -/

theorem inv_of_reachable {sizeofT capacity : ℕ} {s : State φ T} (hcap : 0 < capacity)
    (hT : 0 < sizeofT) (hfit : (capacity + 1) * sizeofT < sizeMod)
    (hs : (machine φ T sizeofT capacity).Reachable s) : ∃ l, Inv sizeofT capacity s l :=
  hs.invariant (I := fun t => ∃ l, Inv sizeofT capacity t l)
    (fun _ hinit => ⟨[], hinit ▸ .new hT hfit⟩)
    fun _ _ _ ⟨_, h⟩ _ hst => h.step hcap hst

/-- **A lossless FIFO without stranded waiters.** The channel never crashes;
whenever the lock is free, the values handed over, those in the buffer and those
of the waiting senders are the values sent, in the order of the sends, and
`state_` says who waits; every receiver returns the values handed to it, each once;
and every `Receive` returns one value or is still under way. -/
theorem lossless_fifo {sizeofT capacity : ℕ} (hcap : 0 < capacity) (hT : 0 < sizeofT)
    (hfit : (capacity + 1) * sizeofT < sizeMod) {s : State φ T}
    (hs : (machine φ T sizeofT capacity).Reachable s) :
    s.crashed = false ∧
      (s.spin_ = none →
        s.handed.map (fun p => some p.2) ++ s.buffer_.contents ++ s.senders.map s.message =
            s.accepted.map some ∧
          (s.state_ = .Nobody ↔ s.waiters_ = []) ∧
          (s.state_ = .Receivers → s.buffer_.contents = [] ∧
            ∀ f ∈ s.waiters_, s.pc f = .waiting .receiver) ∧
          (s.state_ = .Senders → s.buffer_.contents.length = capacity ∧
            ∀ f ∈ s.waiters_, s.pc f = .waiting .sender)) ∧
      (∀ f, valuesOf f s.handed = valuesOf f s.returned ++ s.pending f) ∧
      ∀ f, s.asked.count f = (valuesOf f s.returned).length +
        if (s.pc f).receiving then 1 else 0 := by
  obtain ⟨l, h⟩ := inv_of_reachable hcap hT hfit hs
  refine ⟨h.crashed, fun hspin => ⟨?_, h.nobody, fun hst => ?_, fun hst => ?_⟩, h.returns,
    h.answered⟩
  · have hfifo := h.fifo
    rw [State.suspendingSender, hspin, List.append_nil] at hfifo
    rw [h.buffer.contents_eq, hfifo]
  · rw [h.buffer.contents_eq]
    exact ⟨by rw [(h.receivers hst).1, List.map_nil], (h.receivers hst).2⟩
  · rw [h.buffer.contents_eq, List.length_map]
    exact ⟨(h.senders hst).1, fun f hf => ((h.senders hst).2 f hf).1⟩

/-- A channel of one cell: a value goes through the buffer while a second sender
waits. -/
def sendTwo : List (Action (Fin 2) ℕ) := [.send 0 7, .send 1 8, .callback 1]

theorem lossless_fifo_sendTwo : ∃ s : State (Fin 2) ℕ, (machine (Fin 2) ℕ 8 1).Reachable s ∧
    s.state_ = .Senders ∧ s.buffer_.contents ++ s.senders.map s.message = [some 7, some 8] := by
  obtain ⟨s, hs, hp⟩ := Machine.Reachable.exec_any (M := machine (Fin 2) ℕ 8 1)
    (s := State.new 8 1) (.init rfl) sendTwo
    (fun s => decide (s.spin_ = none ∧ s.state_ = .Senders ∧ s.handed = [] ∧
      s.accepted = [7, 8])) (by decide)
  obtain ⟨hspin, hst, hhanded, hacc⟩ := of_decide_eq_true hp
  have hfifo := ((lossless_fifo (by decide) (by decide) (by decide) hs).2.1 hspin).1
  rw [hhanded, hacc] at hfifo
  exact ⟨s, hs, hst, hfifo⟩

/-- For the largest capacity `capacity + 1` is zero, and the first `Send` divides
by it. -/
theorem crash_of_capacity_wrap :
    ¬ ∀ capacity : ℕ, 0 < capacity → capacity < sizeMod → ∀ s : State (Fin 1) ℕ,
      (machine (Fin 1) ℕ 8 capacity).Reachable s →
      s.crashed = false ∧
        (s.spin_ = none →
          s.handed.map (fun p => some p.2) ++ s.buffer_.contents ++ s.senders.map s.message =
              s.accepted.map some ∧
            (s.state_ = .Nobody ↔ s.waiters_ = []) ∧
            (s.state_ = .Receivers → s.buffer_.contents = [] ∧
              ∀ f ∈ s.waiters_, s.pc f = .waiting .receiver) ∧
            (s.state_ = .Senders → s.buffer_.contents.length = capacity ∧
              ∀ f ∈ s.waiters_, s.pc f = .waiting .sender)) ∧
        (∀ f, valuesOf f s.handed = valuesOf f s.returned ++ s.pending f) ∧
        ∀ f, s.asked.count f = (valuesOf f s.returned).length +
          if (s.pc f).receiving then 1 else 0 := by
  intro hclaim
  obtain ⟨s, hs, hp⟩ := Machine.Reachable.exec_any (M := machine (Fin 1) ℕ 8 (sizeMod - 1))
    (s := State.new 8 (sizeMod - 1)) (.init rfl) [.send 0 7] (fun s => s.crashed) (by decide)
  have hcrash := (hclaim (sizeMod - 1) (by decide) (by decide) s hs).1
  rw [hp] at hcrash
  cases hcrash

end Exe.Fiber.BufferedChannel
