/-
`fiber::RendezvousChannel<T>`: a sender and a receiver meet.

The calls are those of the buffered channel without the buffer: whoever finds the other
side waiting serves the front waiter in its own entry section, and everybody else
parks behind the waiters of its own side. The conventions are those of
`BufferedChannel`, from which the program counters are taken.

* `accepted` are the values whose `Send` has taken the lock, with the sender, and `asked`
  the fibers whose `Receive` has, both recorded by the step; `handed` are the hand-overs
  (sender, receiver, value); `received` is what `Receive` has returned.
* `parked` and `served` are the fibers in the order in which they started to wait, and in
  the order in which they were taken out of `waiters_`.
-/
import Exe.BufferedChannel

set_option autoImplicit false

namespace Exe.Fiber.RendezvousChannel

open Function (update)
open BufferedChannel (States Role Pc valuesOf valuesOf_append Answered update_not_suspending
  locked_of_free resetState_eq)

/-! ## The model -/

variable {φ T : Type*} [DecidableEq φ]

structure State (φ T : Type*) where
  waiters_ : List φ
  spin_ : Option φ
  state_ : States
  pc : φ → Pc
  message : φ → Option T
  crashed : Bool
  accepted : List (φ × T)
  asked : List φ
  handed : List (φ × φ × T)
  received : List (φ × T)
  parked : List φ
  served : List φ

def State.new : State φ T where
  waiters_ := []
  spin_ := none
  state_ := .Nobody
  pc _ := .idle
  message _ := none
  crashed := false
  accepted := []
  asked := []
  handed := []
  received := []
  parked := []
  served := []

def State.crash (s : State φ T) : State φ T := { s with crashed := true }

/-- `node->handle.Schedule(..)` of the waiter that has been popped, with what is left of its
message, and `if (waiters_.IsEmpty()) { state_ = Nobody; }`. -/
def State.serve (s : State φ T) (waiter : φ) (rest : List φ) (message : Option T) : State φ T :=
  { s with
    waiters_ := rest
    message := update s.message waiter message
    pc := match s.pc waiter with
      | .waiting role => update s.pc waiter (.scheduled role)
      | _ => s.pc
    state_ := if rest.isEmpty then .Nobody else s.state_
    served := s.served ++ [waiter] }

/-- The fiber switches away with the lock held. -/
def State.suspend (s : State φ T) (f : φ) (role : Role) (message : Option T) : State φ T :=
  { s with
    spin_ := some f
    message := update s.message f message
    pc := update s.pc f (.suspending role) }

/-- The entry section of `Send(val)`. -/
def Send (f : φ) (val : T) (s : State φ T) : State φ T :=
  match s.state_ with
  | .Receivers =>
    match s.waiters_ with
    | [] => s.crash
    | receiver :: rest =>
      { s with handed := s.handed ++ [(f, receiver, val)] }.serve receiver rest (some val)
  | _ => s.suspend f .sender (some val)

/-- The entry section of `Receive()`. -/
def Receive (f : φ) (s : State φ T) : State φ T :=
  match s.state_ with
  | .Senders =>
    match s.waiters_ with
    | [] => s.crash
    | sender :: rest =>
      match s.message sender with
      | none => s.crash
      | some res =>
        { s with
          handed := s.handed ++ [(sender, f, res)]
          received := s.received ++ [(f, res)] }.serve sender rest none
  | _ => s.suspend f .receiver none

/-- The suspend callback. -/
def callback (f : φ) (role : Role) (s : State φ T) : State φ T :=
  { s with
    waiters_ := s.waiters_ ++ [f]
    state_ := role.states
    spin_ := none
    pc := update s.pc f (.waiting role)
    parked := s.parked ++ [f] }

/-- `lock.lock()` after `Suspend`, and the return of the call. -/
def resume (f : φ) (role : Role) (s : State φ T) : State φ T :=
  match role, s.message f with
  | .sender, _ => { s with pc := update s.pc f .idle }
  | .receiver, some res =>
    { s with
      pc := update s.pc f .idle
      message := update s.message f none
      received := s.received ++ [(f, res)] }
  | .receiver, none => s.crash

inductive Action (φ T : Type*)
  | send (f : φ) (val : T)
  | receive (f : φ)
  | callback (f : φ)
  | resume (f : φ)

def step (a : Action φ T) (s : State φ T) : Option (State φ T) :=
  if s.crashed then none
  else
    match a with
    | .send f val =>
      if s.pc f = .idle ∧ s.spin_ = none then
        some { Send f val s with accepted := s.accepted ++ [(f, val)] }
      else none
    | .receive f =>
      if s.pc f = .idle ∧ s.spin_ = none then
        some { Receive f s with asked := s.asked ++ [f] }
      else none
    | .callback f =>
      match s.pc f with
      | .suspending role => some (RendezvousChannel.callback f role s)
      | _ => none
    | .resume f =>
      match s.pc f, s.spin_ with
      | .scheduled role, none => some (RendezvousChannel.resume f role s)
      | _, _ => none

def machine (φ T : Type*) [DecidableEq φ] : Machine (State φ T) (Action φ T) where
  init s := s = .new
  step := step

/-! ## Who waits -/

/-- What the lock, the list and `state_` say of the fibers. -/
structure Waiting (s : State φ T) : Prop where
  crashed : s.crashed = false
  nodup : s.waiters_.Nodup
  parked : ∀ f, f ∈ s.waiters_ ↔ ∃ role, s.pc f = .waiting role
  locked : ∀ f, s.spin_ = some f ↔ ∃ role, s.pc f = .suspending role
  nobody : s.state_ = .Nobody ↔ s.waiters_ = []
  waiting : ∀ f role, s.pc f = .waiting role → s.state_ = role.states
  suspending : ∀ f role, s.pc f = .suspending role → s.state_ = .Nobody ∨ s.state_ = role.states
  /-- Where a message has to be there for the other side, or for the fiber itself. -/
  message : ∀ f, s.pc f = .suspending .sender ∨ s.pc f = .waiting .sender ∨
    s.pc f = .scheduled .receiver → ∃ val, s.message f = some val
  service : s.parked = s.served ++ s.waiters_

section Steps

variable {s : State φ T} {f : φ}

omit [DecidableEq φ] in
/-- The histories of the values are of no consequence to who waits. -/
theorem Waiting.record (h : Waiting s) (accepted received : List (φ × T)) (asked : List φ)
    (handed : List (φ × φ × T)) : Waiting { s with accepted, asked, handed, received } :=
  ⟨h.crashed, h.nodup, h.parked, h.locked, h.nobody, h.waiting, h.suspending, h.message, h.service⟩

omit [DecidableEq φ] in
theorem Waiting.not_suspending (h : Waiting s) (hspin : s.spin_ = none) (g : φ) (role : Role) :
    s.pc g ≠ .suspending role := by
  intro hg
  have hlock := (h.locked g).mpr ⟨role, hg⟩
  rw [hspin] at hlock
  cases hlock

omit [DecidableEq φ] in
/-- A fiber that is not waiting is not in the list. -/
theorem Waiting.not_mem (h : Waiting s) (hf : ∀ role, s.pc f ≠ .waiting role) :
    f ∉ s.waiters_ := by
  intro hmem
  obtain ⟨role, hrole⟩ := (h.parked f).mp hmem
  exact hf role hrole

/-- The front waiter is served in an entry section of the other side. -/
theorem Waiting.serve (h : Waiting s) (hspin : s.spin_ = none) {w : φ} {rest : List φ}
    (hw : s.waiters_ = w :: rest) {role : Role} (hrole : s.pc w = .waiting role)
    {message : Option T} (hmsg : role = .receiver → ∃ val, message = some val) :
    Waiting (s.serve w rest message) := by
  have hnd := h.nodup
  rw [hw, List.nodup_cons] at hnd
  have hpc : (s.serve w rest message).pc = update s.pc w (.scheduled role) := by
    simp only [State.serve, hrole]
  -- nobody is past its switch, as the lock is free
  have hnot := update_not_suspending w
    (fun r => (by simp : Pc.scheduled role ≠ .suspending r)) (h.not_suspending hspin)
  -- `state_` changes only when nobody is left
  have hstate : ∀ g ∈ rest, (s.serve w rest message).state_ = s.state_ := by
    intro g hg
    refine if_neg ?_
    rw [List.isEmpty_iff]
    rintro rfl
    cases hg
  have hne : s.state_ ≠ .Nobody := by
    rw [Ne, h.nobody, hw]
    exact List.cons_ne_nil _ _
  have hmem : ∀ g, g ∈ rest ↔ ∃ r, update s.pc w (.scheduled role) g = .waiting r := by
    have hparked := h.parked
    rw [hw] at hparked
    exact Places.mem_iff_pop (P := fun pc => ∃ r, pc = Pc.waiting r) hparked hnd.1 (by simp)
  refine
    { crashed := h.crashed
      nodup := hnd.2
      parked := fun g => by rw [hpc]; exact hmem g
      locked := by rw [hpc]; exact locked_of_free hspin hnot
      nobody := resetState_eq _ rest hne
      waiting := fun g r hg => ?_
      suspending := fun g r hg => ?_
      message := fun g hg => ?_
      service := ?_ }
  · rw [hpc] at hg
    rw [hstate g ((hmem g).mpr ⟨r, hg⟩)]
    rcases Places.eq_of_update hg with ⟨-, hne⟩ | ⟨-, hg⟩
    · cases hne
    · exact h.waiting g r hg
  · rw [hpc] at hg
    exact absurd hg (hnot g r)
  · rw [hpc] at hg
    change ∃ val, update s.message w message g = some val
    by_cases hgw : g = w
    · subst hgw
      simp only [Function.update_self] at hg ⊢
      -- only a receiver needs the message after it has been scheduled
      refine hmsg ?_
      rcases hg with hg | hg | hg <;> cases hg
      rfl
    · rw [Function.update_of_ne hgw] at hg ⊢
      exact h.message g hg
  · change s.parked = s.served ++ [w] ++ rest
    rw [h.service, hw, List.append_assoc]
    rfl

/-- A fiber that meets nobody switches away with the lock held. -/
theorem Waiting.suspend (h : Waiting s) (hf : s.pc f = .idle) (hspin : s.spin_ = none)
    {role : Role} {message : Option T} (hmsg : role = .sender → ∃ val, message = some val)
    (hstate : s.state_ = .Nobody ∨ s.state_ = role.states) :
    Waiting (s.suspend f role message) := by
  have hnot := h.not_suspending hspin
  -- with the lock taken, this is the only fiber past its switch
  have hsusp : ∀ g r, update s.pc f (.suspending role) g = .suspending r → g = f ∧ r = role := by
    intro g r hg
    rcases Places.eq_of_update hg with ⟨hgf, hr⟩ | ⟨-, hg⟩
    · cases hr
      exact ⟨hgf, rfl⟩
    · exact absurd hg (hnot g r)
  refine
    { crashed := h.crashed
      nodup := h.nodup
      parked := fun g => ?_
      locked := fun g => ?_
      nobody := h.nobody
      waiting := fun g r hg => ?_
      suspending := fun g r hg => ?_
      message := fun g hg => ?_
      service := h.service }
  · exact Places.mem_iff_stay (P := fun pc => ∃ r, pc = Pc.waiting r) h.parked (by simp [hf])
      (by simp) g
  · constructor
    · intro hg
      cases hg
      exact ⟨role, Function.update_self ..⟩
    · rintro ⟨r, hg⟩
      rw [(hsusp g r hg).1]
      rfl
  · rcases Places.eq_of_update hg with ⟨-, hne⟩ | ⟨-, hg⟩
    · cases hne
    · exact h.waiting g r hg
  · obtain ⟨-, rfl⟩ := hsusp g r hg
    exact hstate
  · simp only [State.suspend] at hg ⊢
    by_cases hgf : g = f
    · subst hgf
      simp only [Function.update_self] at hg ⊢
      refine hmsg ?_
      rcases hg with hg | hg | hg <;> cases hg
      rfl
    · rw [Function.update_of_ne hgf] at hg ⊢
      exact h.message g hg

/-- The suspend callback links the node behind waiters of its own side. -/
theorem Waiting.callback (h : Waiting s) {role : Role} (hf : s.pc f = .suspending role) :
    Waiting (callback f role s) := by
  have hlock : s.spin_ = some f := (h.locked f).mpr ⟨role, hf⟩
  have hnotmem : f ∉ s.waiters_ := h.not_mem fun r hr => by rw [hf] at hr; cases hr
  have hnot : ∀ g r, update s.pc f (.waiting role) g ≠ .suspending r := by
    intro g r
    -- only one fiber holds the lock
    have honly : ∀ g, s.pc g = .suspending r → g = f := by
      intro g hg
      have hlock' := (h.locked g).mpr ⟨r, hg⟩
      rw [hlock] at hlock'
      exact (Option.some.inj hlock').symm
    exact Places.not_of_update (P := (· = Pc.suspending r)) honly (by simp) g
  refine
    { crashed := h.crashed
      nodup := ?_
      parked := fun g => ?_
      locked := locked_of_free rfl hnot
      nobody := ?_
      waiting := fun g r hg => ?_
      suspending := fun g r hg => absurd hg (hnot g r)
      message := fun g hg => ?_
      service := ?_ }
  · exact Places.nodup_push h.nodup hnotmem
  · exact Places.mem_iff_push (P := fun pc => ∃ r, pc = Pc.waiting r) h.parked ⟨role, rfl⟩ g
  · cases role <;> simp [RendezvousChannel.callback, Role.states]
  · simp only [RendezvousChannel.callback] at hg ⊢
    by_cases hgf : g = f
    · rw [hgf, Function.update_self] at hg
      cases hg
      rfl
    · -- the list was not empty, so `state_` was that of this side already
      rw [Function.update_of_ne hgf] at hg
      have hmem := (h.parked g).mpr ⟨r, hg⟩
      have hne : s.state_ ≠ .Nobody := fun hst => by
        rw [h.nobody.mp hst] at hmem
        cases hmem
      rw [← (h.suspending f role hf).resolve_left hne]
      exact h.waiting g r hg
  · simp only [RendezvousChannel.callback] at hg ⊢
    by_cases hgf : g = f
    · subst hgf
      refine h.message g (.inl ?_)
      rw [Function.update_self] at hg
      rcases hg with hg | hg | hg <;> cases hg
      exact hf
    · rw [Function.update_of_ne hgf] at hg
      exact h.message g hg
  · simp only [RendezvousChannel.callback]
    rw [h.service, List.append_assoc]

/-- The resumption: a receiver takes its message along. -/
theorem Waiting.resume (h : Waiting s) {role : Role} (hf : s.pc f = .scheduled role)
    (hspin : s.spin_ = none) : Waiting (resume f role s) := by
  have hnot := update_not_suspending f (fun r => (by simp : Pc.idle ≠ .suspending r))
    (h.not_suspending hspin)
  -- the fiber gets out, with whatever becomes of its message
  have hback : ∀ {message received}, (∀ g, g ≠ f → message g = s.message g) →
      Waiting { s with pc := update s.pc f .idle, message, received } := by
    intro message received hmsg
    have hpc : ∀ g {next : Pc}, next ≠ .idle → update s.pc f .idle g = next →
        g ≠ f ∧ s.pc g = next := by
      intro g next hne hg
      exact (Places.eq_of_update hg).resolve_left fun hg => hne hg.2.symm
    refine
      { crashed := h.crashed
        nodup := h.nodup
        parked := fun g => ?_
        locked := locked_of_free hspin hnot
        nobody := h.nobody
        waiting := fun g r hg => h.waiting g r (hpc g (by simp) hg).2
        suspending := fun g r hg => absurd hg (hnot g r)
        message := fun g hg => ?_
        service := h.service }
    · exact Places.mem_iff_stay (P := fun pc => ∃ r, pc = Pc.waiting r) h.parked (by simp [hf])
        (by simp) g
    · dsimp only at hg ⊢
      rcases hg with hg | hg | hg
      · obtain ⟨hgf, hg⟩ := hpc g (by simp) hg
        rw [hmsg g hgf]
        exact h.message g (.inl hg)
      · obtain ⟨hgf, hg⟩ := hpc g (by simp) hg
        rw [hmsg g hgf]
        exact h.message g (.inr (.inl hg))
      · obtain ⟨hgf, hg⟩ := hpc g (by simp) hg
        rw [hmsg g hgf]
        exact h.message g (.inr (.inr hg))
  cases role with
  | sender => exact hback fun g _ => rfl
  -- the receiver moves the value out of its storage
  | receiver =>
    obtain ⟨val, hval⟩ := h.message f (.inr (.inr hf))
    simp only [RendezvousChannel.resume, hval]
    exact hback fun g hg => Function.update_of_ne hg _ _

end Steps

/-! ## What is handed over -/

/-- The waiting senders, front to back. -/
def State.senders (s : State φ T) : List φ :=
  if s.state_ = .Senders then s.waiters_ else []

/-- The sender that has switched away and is not in `waiters_` yet. -/
def State.suspendingSender (s : State φ T) : List φ :=
  match s.spin_ with
  | some f => if s.pc f = .suspending .sender then [f] else []
  | none => []

/-- The value of a `Send` that has taken the lock and has not been handed over. -/
def State.offering (s : State φ T) (f : φ) : List T :=
  if s.pc f = .suspending .sender ∨ s.pc f = .waiting .sender then (s.message f).toList else []

/-- The value that has been constructed for a receiver that has not resumed yet. -/
def State.pending (s : State φ T) (f : φ) : List T :=
  if s.pc f = .scheduled .receiver then (s.message f).toList else []

/-- The hand-overs by sender, and by receiver. -/
def State.handedBy (s : State φ T) : List (φ × T) := s.handed.map fun h => (h.1, h.2.2)
def State.handedTo (s : State φ T) : List (φ × T) := s.handed.map Prod.snd

/-- Every value is handed over once, in the order of the sends. -/
structure Paired (s : State φ T) : Prop where
  fifo : s.handed.map (fun h => some h.2.2) ++ (s.senders ++ s.suspendingSender).map s.message =
    s.accepted.map fun a => some a.2
  sends : ∀ f, valuesOf f s.accepted = valuesOf f s.handedBy ++ s.offering f
  receives : ∀ f, valuesOf f s.handedTo = valuesOf f s.received ++ s.pending f
  answered : Answered s.asked s.received s.pc

section Steps

variable {s : State φ T} {f : φ}

omit [DecidableEq φ] in
theorem offering_of_pc {t : State φ T} {g : φ} (hpc : t.pc g = s.pc g)
    (hmsg : t.message g = s.message g) : t.offering g = s.offering g := by
  rw [State.offering, State.offering, hpc, hmsg]

omit [DecidableEq φ] in
theorem pending_of_pc {t : State φ T} {g : φ} (hpc : t.pc g = s.pc g)
    (hmsg : t.message g = s.message g) : t.pending g = s.pending g := by
  rw [State.pending, State.pending, hpc, hmsg]

omit [DecidableEq φ] in
theorem Waiting.state_of_mem (h : Waiting s) {role : Role} (hstate : s.state_ = role.states)
    (hf : f ∈ s.waiters_) : s.pc f = .waiting role := by
  obtain ⟨r, hr⟩ := (h.parked f).mp hf
  have hst := h.waiting f r hr
  rw [hstate] at hst
  rw [hr]
  cases r <;> cases role <;> first | rfl | cases hst

/-- `Send` to the receiver in front. -/
theorem Paired.send_handoff (h : Paired s) (hw : Waiting s) (hf : s.pc f = .idle)
    (hspin : s.spin_ = none) {w : φ} {rest : List φ} (hwait : s.waiters_ = w :: rest)
    (hstate : s.state_ = .Receivers) (val : T) :
    Paired ({ s with
      accepted := s.accepted ++ [(f, val)]
      handed := s.handed ++ [(f, w, val)] }.serve w rest (some val)) := by
  have hrole : s.pc w = .waiting .receiver := hw.state_of_mem hstate (by simp [hwait])
  have hfw : f ≠ w := by
    rintro rfl
    rw [hf] at hrole
    cases hrole
  -- with receivers in the list no sender waits
  have hne : (if rest.isEmpty then States.Nobody else s.state_) ≠ .Senders := by
    rw [hstate]
    split <;> simp
  have hfifo := h.fifo
  rw [State.senders, if_neg (by rw [hstate]; simp), State.suspendingSender, hspin] at hfifo
  refine ⟨?_, fun g => ?_, fun g => ?_, ?_⟩
  · simp only [State.senders, State.suspendingSender, State.serve, hspin, if_neg hne,
      List.map_append, ← hfifo]
    simp
  · have hsend := h.sends g
    simp only [State.serve, State.handedBy, List.map_append, List.map_cons, List.map_nil]
    rw [valuesOf_append, valuesOf_append, hsend, State.handedBy, List.append_assoc,
      List.append_assoc]
    congr 1
    -- the value belongs to `f`, and `w` is a receiver
    by_cases hgw : g = w
    · subst hgw
      simp [State.offering, hrole, hfw]
    · by_cases hgf : f = g
      · subst hgf
        simp [State.offering, hrole, hgw, hf]
      · simp [State.offering, hrole, hgw, hgf]
  · have hrecv := h.receives g
    simp only [State.serve, State.handedTo, List.map_append, List.map_cons, List.map_nil]
    rw [valuesOf_append]
    change valuesOf g s.handedTo ++ _ = _
    rw [hrecv, List.append_assoc]
    congr 1
    by_cases hgw : g = w
    · subst hgw
      simp [State.pending, hrole]
    · simp [State.pending, hrole, hgw, Ne.symm hgw]
  · simp only [State.serve, hrole]
    exact h.answered.move (by rw [hrole]; rfl)

/-- `Receive` from the sender in front. -/
theorem Paired.receive_handoff (h : Paired s) (hw : Waiting s) (hf : s.pc f = .idle)
    (hspin : s.spin_ = none) {w : φ} {rest : List φ} (hwait : s.waiters_ = w :: rest)
    (hstate : s.state_ = .Senders) {val : T} (hval : s.message w = some val) :
    Paired ({ s with
      asked := s.asked ++ [f]
      handed := s.handed ++ [(w, f, val)]
      received := s.received ++ [(f, val)] }.serve w rest none) := by
  have hrole : s.pc w = .waiting .sender := hw.state_of_mem hstate (by simp [hwait])
  have hfw : f ≠ w := by
    rintro rfl
    rw [hf] at hrole
    cases hrole
  have hnd := hw.nodup
  rw [hwait, List.nodup_cons] at hnd
  -- the waiting senders that are left are `rest`, whatever `state_` says
  have hsenders : (if (if rest.isEmpty then States.Nobody else s.state_) = .Senders then rest
      else []) = rest := by
    rw [hstate]
    cases rest with
    | nil => simp
    | cons a rest => simp
  have hmsg : rest.map (update s.message w none) = rest.map s.message :=
    List.map_congr_left fun g hg => Function.update_of_ne (by rintro rfl; exact hnd.1 hg) _ _
  have hfifo := h.fifo
  simp only [State.senders, State.suspendingSender, hstate, hspin, if_true, hwait,
    List.append_nil, List.map_cons, hval] at hfifo
  refine ⟨?_, fun g => ?_, fun g => ?_, ?_⟩
  · simp only [State.senders, State.suspendingSender, State.serve, hspin, hsenders,
      List.append_nil, hmsg]
    rw [← hfifo]
    simp
  · have hsend := h.sends g
    simp only [State.serve, State.handedBy, List.map_append, List.map_cons, List.map_nil]
    rw [valuesOf_append]
    change _ = valuesOf g s.handedBy ++ _ ++ _
    rw [hsend, List.append_assoc]
    congr 1
    by_cases hgw : g = w
    · subst hgw
      simp [State.offering, hrole, hval]
    · simp [State.offering, hrole, hgw, Ne.symm hgw]
  · have hrecv := h.receives g
    simp only [State.serve, State.handedTo, List.map_append, List.map_cons, List.map_nil]
    rw [valuesOf_append, valuesOf_append]
    change valuesOf g s.handedTo ++ _ = _
    rw [hrecv, List.append_assoc, List.append_assoc]
    congr 1
    by_cases hgw : g = w
    · subst hgw
      simp [State.pending, hrole, hfw]
    · by_cases hgf : f = g
      · subst hgf
        simp [State.pending, hrole, hgw, hf]
      · simp [State.pending, hrole, hgw, hgf]
  · simp only [State.serve, hrole]
    exact (h.answered.ask_answer hf val).move (by rw [hrole]; rfl)

/-- A sender switches away with its value, a receiver with raw storage. -/
theorem Paired.suspend (h : Paired s) (hw : Waiting s) (hf : s.pc f = .idle)
    (hspin : s.spin_ = none) {role : Role} {message : Option T} {accepted : List (φ × T)}
    {asked : List φ} (hS : role = .sender →
      asked = s.asked ∧ ∃ val, message = some val ∧ accepted = s.accepted ++ [(f, val)])
    (hR : role = .receiver → asked = s.asked ++ [f] ∧ accepted = s.accepted) :
    Paired ({ s with accepted, asked }.suspend f role message) := by
  have hidle : f ∉ s.waiters_ := hw.not_mem fun r hr => by rw [hf] at hr; cases hr
  have hfifo := h.fifo
  rw [State.suspendingSender, hspin, List.append_nil] at hfifo
  -- the fiber is not in the list yet, so the messages of the others are untouched
  have hwait : s.senders.map (update s.message f message) = s.senders.map s.message := by
    refine List.map_congr_left fun g hg => Function.update_of_ne ?_ _ _
    rintro rfl
    unfold State.senders at hg
    split at hg
    · exact hidle hg
    · cases hg
  refine ⟨?_, fun g => ?_, fun g => ?_, ?_⟩
  · change s.handed.map _ ++ ((s.senders ++ _).map (update s.message f message)) =
      accepted.map fun a => some a.2
    rw [List.map_append, ← List.append_assoc, hwait, hfifo]
    cases role with
    | sender =>
      obtain ⟨-, val, rfl, rfl⟩ := hS rfl
      simp [State.suspendingSender, State.suspend]
    | receiver =>
      rw [(hR rfl).2]
      simp [State.suspendingSender, State.suspend]
  · have hsend := h.sends g
    change valuesOf g accepted = valuesOf g s.handedBy ++ _
    by_cases hgf : g = f
    · subst hgf
      simp only [State.offering, hf] at hsend
      cases role with
      | sender =>
        obtain ⟨-, val, rfl, rfl⟩ := hS rfl
        rw [valuesOf_append, hsend]
        simp [State.offering, State.suspend]
      | receiver =>
        rw [(hR rfl).2, hsend]
        simp [State.offering, State.suspend]
    · have hoff : ({ s with accepted, asked }.suspend f role message).offering g =
          s.offering g :=
        offering_of_pc (Function.update_of_ne hgf _ _) (Function.update_of_ne hgf _ _)
      rw [hoff, ← hsend]
      cases role with
      | sender =>
        obtain ⟨-, val, -, rfl⟩ := hS rfl
        rw [valuesOf_append, if_neg (Ne.symm hgf), List.append_nil]
      | receiver => rw [(hR rfl).2]
  · have hrecv := h.receives g
    change valuesOf g s.handedTo = valuesOf g s.received ++ _
    rw [hrecv]
    by_cases hgf : g = f
    · subst hgf
      simp [State.pending, State.suspend, hf]
    · exact congrArg _ (pending_of_pc (Function.update_of_ne hgf _ _)
        (Function.update_of_ne hgf _ _)).symm
  · cases role with
    | sender =>
      rw [(hS rfl).1]
      exact h.answered.move (by rw [hf]; rfl)
    | receiver =>
      rw [(hR rfl).1]
      exact h.answered.ask hf

theorem Paired.callback (h : Paired s) (hw : Waiting s) {role : Role}
    (hf : s.pc f = .suspending role) : Paired (callback f role s) := by
  have hlock : s.spin_ = some f := (hw.locked f).mpr ⟨role, hf⟩
  have hfifo := h.fifo
  rw [State.suspendingSender, hlock] at hfifo
  have hoff : ∀ g, g ≠ f → (RendezvousChannel.callback f role s).pc g = s.pc g :=
    fun g hg => Function.update_of_ne hg _ _
  refine ⟨?_, fun g => ?_, fun g => ?_,
    h.answered.move (by rw [hf]; cases role <;> rfl)⟩
  · rcases hw.suspending f role hf with hst | hst
    · -- nobody waits: the list is this fiber
      rw [State.senders, if_neg (by rw [hst]; simp), List.nil_append] at hfifo
      have hnil := hw.nobody.mp hst
      cases role with
      | sender =>
        simpa [State.senders, State.suspendingSender, RendezvousChannel.callback, Role.states,
          hnil, hf] using hfifo
      | receiver =>
        simpa [State.senders, State.suspendingSender, RendezvousChannel.callback, Role.states,
          hf] using hfifo
    -- the fiber comes last in the list, where it has been counted already
    · cases role with
      | sender =>
        simpa [State.senders, State.suspendingSender, RendezvousChannel.callback, Role.states,
          hst, hf] using hfifo
      | receiver =>
        simpa [State.senders, State.suspendingSender, RendezvousChannel.callback, Role.states,
          hst, hf] using hfifo
  · change valuesOf g s.accepted = valuesOf g s.handedBy ++ _
    rw [h.sends g]
    congr 1
    by_cases hgf : g = f
    · subst hgf
      cases role <;> simp [State.offering, RendezvousChannel.callback, hf]
    · exact (offering_of_pc (hoff g hgf) rfl).symm
  · change valuesOf g s.handedTo = valuesOf g s.received ++ _
    rw [h.receives g]
    congr 1
    by_cases hgf : g = f
    · subst hgf
      simp [State.pending, RendezvousChannel.callback, hf]
    · exact (pending_of_pc (hoff g hgf) rfl).symm

theorem Paired.resume (h : Paired s) (hw : Waiting s) {role : Role}
    (hf : s.pc f = .scheduled role) (hspin : s.spin_ = none) : Paired (resume f role s) := by
  have hnotmem : f ∉ s.waiters_ := hw.not_mem fun r hr => by rw [hf] at hr; cases hr
  have hfifo := h.fifo
  rw [State.suspendingSender, hspin, List.append_nil] at hfifo
  -- what has been pending for `f` is received by it
  have hback : ∀ {message received}, (∀ g, g ≠ f → message g = s.message g) →
      (∀ g, valuesOf g received = valuesOf g s.received ++ if g = f then s.pending g else []) →
      Answered s.asked received (update s.pc f .idle) →
      Paired { s with pc := update s.pc f .idle, message, received } := by
    intro message received hmsg hrecv hanswered
    refine ⟨?_, fun g => ?_, fun g => ?_, hanswered⟩
    · have hwait : s.senders.map message = s.senders.map s.message := by
        refine List.map_congr_left fun g hg => hmsg g ?_
        rintro rfl
        unfold State.senders at hg
        split at hg
        · exact hnotmem hg
        · cases hg
      rw [← hwait] at hfifo
      simpa [State.senders, State.suspendingSender, hspin] using hfifo
    · change valuesOf g s.accepted = valuesOf g s.handedBy ++ _
      rw [h.sends g]
      congr 1
      by_cases hgf : g = f
      · subst hgf
        simp [State.offering, hf]
      · exact (offering_of_pc (Function.update_of_ne hgf _ _) (hmsg g hgf)).symm
    · change valuesOf g s.handedTo = valuesOf g received ++ _
      rw [h.receives g, hrecv g, List.append_assoc]
      congr 1
      by_cases hgf : g = f
      · subst hgf
        simp [State.pending]
      · rw [if_neg hgf, List.nil_append]
        exact (pending_of_pc (Function.update_of_ne hgf _ _) (hmsg g hgf)).symm
  cases role with
  | sender =>
    refine hback (fun g _ => rfl) (fun g => ?_) (h.answered.move (by rw [hf]; rfl))
    split
    · rename_i hgf
      subst hgf
      simp [State.pending, hf]
    · exact (List.append_nil _).symm
  | receiver =>
    obtain ⟨val, hval⟩ := hw.message f (.inr (.inr hf))
    simp only [RendezvousChannel.resume, hval]
    refine hback (fun g hg => Function.update_of_ne hg _ _) (fun g => ?_)
      (h.answered.answer hf val)
    rw [valuesOf_append]
    by_cases hgf : g = f
    · subst hgf
      simp [State.pending, hf, hval]
    · rw [if_neg hgf, if_neg (Ne.symm hgf)]

/-! ## The channel -/

theorem inv_step {s' : State φ T} {a : Action φ T} (hw : Waiting s) (h : Paired s)
    (hs : step a s = some s') : Waiting s' ∧ Paired s' := by
  have hcrash : ¬ s.crashed = true := by
    rw [hw.crashed]
    exact Bool.false_ne_true
  -- when `state_` says that somebody waits, somebody does
  have hfront : s.state_ ≠ .Nobody → ∃ w rest, s.waiters_ = w :: rest := by
    intro hst
    rw [Ne, hw.nobody] at hst
    exact List.exists_cons_of_ne_nil hst
  unfold step at hs
  rw [if_neg hcrash] at hs
  cases a with
  | send f val =>
    dsimp only at hs
    split at hs
    · rename_i hfree
      obtain ⟨hf, hspin⟩ := hfree
      cases hs
      by_cases hstate : s.state_ = .Receivers
      -- a receiver waits and gets the value
      · obtain ⟨w, rest, hwait⟩ := hfront (by rw [hstate]; simp)
        have hrole : s.pc w = .waiting .receiver := hw.state_of_mem hstate (by simp [hwait])
        have hsend : { Send f val s with accepted := s.accepted ++ [(f, val)] } = { s with
            accepted := s.accepted ++ [(f, val)]
            handed := s.handed ++ [(f, w, val)] }.serve w rest (some val) := by
          simp only [Send, hstate, hwait]
          rfl
        rw [hsend]
        exact ⟨(hw.record (s.accepted ++ [(f, val)]) s.received s.asked
            (s.handed ++ [(f, w, val)])).serve hspin hwait hrole fun _ => ⟨val, rfl⟩,
          h.send_handoff hw hf hspin hwait hstate val⟩
      -- nobody to take the value: the sender switches away with it
      · have hst : s.state_ = .Nobody ∨ s.state_ = Role.sender.states := by
          cases hst : s.state_ with
          | Nobody => exact .inl rfl
          | Senders => exact .inr rfl
          | Receivers => exact absurd hst hstate
        have hsend : Send f val s = s.suspend f .sender (some val) := by
          rcases hst with hst | hst <;> simp only [Send, hst, Role.states]
        rw [hsend]
        exact ⟨(hw.record (s.accepted ++ [(f, val)]) s.received s.asked s.handed).suspend hf hspin
            (fun _ => ⟨val, rfl⟩) hst,
          h.suspend hw hf hspin (fun _ => ⟨rfl, val, rfl, rfl⟩) fun hr => by cases hr⟩
    · cases hs
  | receive f =>
    dsimp only at hs
    split at hs
    · rename_i hfree
      obtain ⟨hf, hspin⟩ := hfree
      cases hs
      by_cases hstate : s.state_ = .Senders
      · obtain ⟨w, rest, hwait⟩ := hfront (by rw [hstate]; simp)
        have hrole : s.pc w = .waiting .sender := hw.state_of_mem hstate (by simp [hwait])
        obtain ⟨val, hval⟩ := hw.message w (.inr (.inl hrole))
        have hreceive : { Receive f s with asked := s.asked ++ [f] } = { s with
            asked := s.asked ++ [f]
            handed := s.handed ++ [(w, f, val)]
            received := s.received ++ [(f, val)] }.serve w rest none := by
          simp only [Receive, hstate, hwait, hval]
          rfl
        rw [hreceive]
        exact ⟨(hw.record s.accepted (s.received ++ [(f, val)]) (s.asked ++ [f])
            (s.handed ++ [(w, f, val)])).serve hspin hwait hrole fun hr => (by cases hr),
          h.receive_handoff hw hf hspin hwait hstate hval⟩
      · have hst : s.state_ = .Nobody ∨ s.state_ = Role.receiver.states := by
          cases hst : s.state_ with
          | Nobody => exact .inl rfl
          | Senders => exact absurd hst hstate
          | Receivers => exact .inr rfl
        have hreceive : Receive f s = s.suspend f .receiver none := by
          rcases hst with hst | hst <;> simp only [Receive, hst, Role.states]
        rw [hreceive]
        exact ⟨(hw.record s.accepted s.received (s.asked ++ [f]) s.handed).suspend hf hspin
            (fun hr => by cases hr) hst,
          h.suspend hw hf hspin (fun hr => by cases hr) fun _ => ⟨rfl, rfl⟩⟩
    · cases hs
  | callback f =>
    dsimp only at hs
    split at hs
    · rename_i role hf
      cases hs
      exact ⟨hw.callback hf, h.callback hw hf⟩
    · cases hs
  | resume f =>
    dsimp only at hs
    split at hs
    · rename_i role hf hspin
      cases hs
      exact ⟨hw.resume hf hspin, h.resume hw hf hspin⟩
    · cases hs

theorem inv_of_reachable (hs : (machine φ T).Reachable s) : Waiting s ∧ Paired s := by
  refine hs.invariant (I := fun s => Waiting s ∧ Paired s) (fun s hinit => ?_)
    fun _ _ _ h _ hst => inv_step h.1 h.2 hst
  subst hinit
  refine ⟨?_, rfl, (fun f => rfl), (fun f => rfl), fun f => rfl⟩
  refine
    { crashed := rfl
      nodup := List.nodup_nil
      parked := fun f => by simp [State.new]
      locked := locked_of_free rfl fun f role => by simp [State.new]
      nobody := by simp [State.new]
      waiting := fun f role hf => by cases hf
      suspending := fun f role hf => by cases hf
      message := fun f hf => by rcases hf with hf | hf | hf <;> cases hf
      service := rfl }

end Steps

/-- **Sends and receives are paired one to one.** Whenever the lock is free, the values handed
over and those of the waiting senders are the values sent, in the order of the sends, and
`state_` says who waits. Every fiber's sends are handed over, each once, all of them when it
is outside `Send`; every receiver returns what was handed to it, each once; every `Receive`
returns one value or is still under way; and the waiters are served in the order in which
they started to wait. -/
theorem paired {s : State φ T} (hs : (machine φ T).Reachable s) :
    s.crashed = false ∧
    (s.spin_ = none →
      s.handed.map (fun h => some h.2.2) ++ s.senders.map s.message =
          s.accepted.map (fun a => some a.2) ∧
        (s.state_ = .Nobody ↔ s.waiters_ = []) ∧
        (s.state_ = .Receivers → ∀ f ∈ s.waiters_, s.pc f = .waiting .receiver) ∧
        (s.state_ = .Senders → ∀ f ∈ s.waiters_, s.pc f = .waiting .sender)) ∧
    (∀ f, valuesOf f s.accepted = valuesOf f s.handedBy ++ s.offering f) ∧
    (∀ f, valuesOf f s.handedTo = valuesOf f s.received ++ s.pending f) ∧
    (∀ f, s.asked.count f = (valuesOf f s.received).length +
      if (s.pc f).receiving then 1 else 0) ∧
    s.parked = s.served ++ s.waiters_ := by
  obtain ⟨hw, h⟩ := inv_of_reachable hs
  refine ⟨hw.crashed, fun hspin => ⟨?_, hw.nobody, fun hst f hf => hw.state_of_mem hst hf,
    fun hst f hf => hw.state_of_mem hst hf⟩, h.sends, h.receives, h.answered, hw.service⟩
  have hfifo := h.fifo
  rwa [State.suspendingSender, hspin, List.append_nil] at hfifo

/-- Two receivers wait, and one sender serves the first of them. -/
theorem paired_twoReceivers : ∃ s : State ℕ ℕ, (machine ℕ ℕ).Reachable s ∧
    s.state_ = .Receivers ∧ s.pc 2 = .waiting .receiver ∧ valuesOf 1 s.handedTo = [7] := by
  obtain ⟨s, hs, hp⟩ := Machine.Reachable.exec_any (M := machine ℕ ℕ) (s := State.new) (.init rfl)
    [.receive 1, .callback 1, .receive 2, .callback 2, .send 0 7, .resume 1]
    (fun s => decide (s.spin_ = none ∧ s.state_ = .Receivers ∧ s.waiters_ = [2] ∧
      s.received = [(1, 7)] ∧ s.pc 1 = .idle)) (by decide)
  obtain ⟨hspin, hst, hwait, hrecv, hpc⟩ := of_decide_eq_true hp
  obtain ⟨-, hfree, -, hreceives, -⟩ := paired hs
  have hreceiver := (hfree hspin).2.2.1 hst 2 (by rw [hwait]; decide)
  have hvalues := hreceives 1
  rw [hrecv, State.pending, hpc] at hvalues
  exact ⟨s, hs, hst, hreceiver, hvalues⟩

end Exe.Fiber.RendezvousChannel
