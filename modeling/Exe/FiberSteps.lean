/-
What one step of the fiber core does.

`Fibers` gives the steps as functions. Here they are inverted, once: `Moves` has a case for
each thing a step can do, with what the step has read, and with what `Owned` knows of it (a
linked node holds its fiber, a running timer too, a channel whose state names a side has
somebody waiting), so that no case of it fails. The fields that the invariants of
`FiberSections` and `FiberWaiting` do not look at are left open.
-/
import Exe.FiberOwners

set_option autoImplicit false

namespace Exe.Fiber.Core

open Function (update)
open BufferedChannel (States Role)

variable {n m : ℕ}

/-! ## What a step does -/

/-- Everything a step can do to what the invariants below look at. -/
inductive Moves (a : Action n m) (s : State n m) : State n m → Prop
  | spawn : Moves a s { s.newFiber with spawned := {s.size} + s.spawned }
  | bags {tasks : Multiset Task} {timers spawned : Multiset ℕ}
    (htimers : timers ≤ s.timers) (hspawned : spawned ≤ s.spawned) :
    Moves a s { s with tasks, timers, spawned }
  | run {w : Fin n} {f : ℕ} {tasks : Multiset Task} {timer : ℕ → Option ℕ}
    (hidle : s.worker w = .idle) (hrest : ∀ v, s.worker v ≠ .running f) :
    Moves a s ({ s with tasks, timer }.setWorker w (.running f))
  | go {w : Fin n} {f : ℕ} (hw : s.worker w = .running f) (hpc : s.pc f = .user) :
    Moves a s (s.newFiber.setPc f (.submit s.size .user))
  | rest {w : Fin n} {f : ℕ} {cb : Callback m} {timer : ℕ → Option ℕ}
    (hw : s.worker w = .running f) (hpc : s.pc f = .user) (hcb : cb = .yield ∨ cb = .sleepFor) :
    Moves a s ({ s with timer }.suspend w f cb .user)
  | call {w : Fin n} {f : ℕ} {p : Fin m} {c : Call} (hw : s.worker w = .running f)
    (hpc : s.pc f = .user) : Moves a s (s.setPc f (.lock p c))
  | finish {w : Fin n} {f : ℕ} (hw : s.worker w = .running f) (hpc : s.pc f = .user) :
    Moves a s (s.setWorker w (.returned f))
  | delete {w : Fin n} {f : ℕ} (hw : s.worker w = .returned f) :
    Moves a s ({ s with live := update s.live f false }.setWorker w .idle)
  | enter {w : Fin n} {f : ℕ} {cb : Callback m} (hw : s.worker w = .suspended f)
    (hcb : s.cb_ f = some cb) : Moves a s (s.setWorker w (.callback f cb))
  | yielded {w : Fin n} {f : ℕ} (hw : s.worker w = .callback f .yield) :
    Moves a s (s.setWorker w (.submit f))
  | slept {w : Fin n} {f : ℕ} {timer : ℕ → Option ℕ} (hw : s.worker w = .callback f .sleepFor) :
    Moves a s ({ s with timer }.setWorker w (.set f))
  | parked {w : Fin n} {f : ℕ} {p : Fin m} {role : Option Role} {node : ℕ → Option ℕ}
    (hw : s.worker w = .callback f (.park p role)) :
    Moves a s (({ s with node }.setPrimitive p ((s.primitive p).push f role)).setWorker w
      (.unlock p))
  | submitted {w : Fin n} {f : ℕ} {tasks : Multiset Task} (hw : s.worker w = .submit f) :
    Moves a s ({ s with tasks }.setWorker w .idle)
  | set {w : Fin n} {f : ℕ} (hw : s.worker w = .set f) :
    Moves a s ({ s with timers := {f} + s.timers }.setWorker w .idle)
  | release {w : Fin n} {p : Fin m} (hw : s.worker w = .unlock p) :
    Moves a s ((s.setPrimitive p { s.primitive p with spin_ := false }).setWorker w .idle)
  | passOn {w : Fin n} {f g : ℕ} {next : Pc m} {tasks : Multiset Task}
    (hw : s.worker w = .running f) (hpc : s.pc f = .submit g next) :
    Moves a s ({ s with tasks }.setPc f next)
  | lock {w : Fin n} {f : ℕ} {p : Fin m} {c : Call} (hw : s.worker w = .running f)
    (hpc : s.pc f = .lock p c) (hspin : (s.primitive p).spin_ = false) :
    Moves a s ((s.setPrimitive p { s.primitive p with spin_ := true }).setPc f (.body p c))
  | relock {w : Fin n} {f : ℕ} {p : Fin m} {c : Call} (hw : s.worker w = .running f)
    (hpc : s.pc f = .relock p c) (hspin : (s.primitive p).spin_ = false) :
    Moves a s ((s.setPrimitive p { s.primitive p with spin_ := true }).setPc f
      (if c = .Lock then .body p c else .unlock p))
  | leave {w : Fin n} {f : ℕ} {p : Fin m} {c : Call} {data : Data} (ha : a = .work w)
    (hw : s.worker w = .running f) (hpc : s.pc f = .body p c)
    (henter : (s.primitive p).data.enter c = some (data, .leave)) :
    Moves a s ((s.setPrimitive p { s.primitive p with data }).setPc f (.unlock p))
  | park {w : Fin n} {f : ℕ} {p : Fin m} {c : Call} {data : Data} {role : Option Role}
    (hw : s.worker w = .running f) (hpc : s.pc f = .body p c)
    (henter : (s.primitive p).data.enter c = some (data, .park role)) :
    Moves a s ((s.setPrimitive p { s.primitive p with data }).suspend w f (.park p role)
      (.relock p c))
  | wakeNobody {w : Fin n} {f : ℕ} {p : Fin m} {c : Call} {data : Data}
    (hw : s.worker w = .running f) (hpc : s.pc f = .body p c)
    (henter : (s.primitive p).data.enter c = some (data, .wakeOne))
    (hnil : (s.primitive p).waiters = []) :
    Moves a s ((s.setPrimitive p { s.primitive p with data }).setPc f (.unlock p))
  | wakeAll {w : Fin n} {f : ℕ} {p : Fin m} {c : Call} {data : Data}
    (hw : s.worker w = .running f) (hpc : s.pc f = .body p c)
    (henter : (s.primitive p).data.enter c = some (data, .wakeAll)) :
    Moves a s ((s.setPrimitive p { s.primitive p with data }).setPc f (.wakeAll p))
  | pop {w : Fin n} {f x : ℕ} {p : Fin m} {c : Call} {data : Data} {verdict : Verdict}
    {rest : List ℕ} {node : ℕ → Option ℕ}
    (hw : s.worker w = .running f) (hpc : s.pc f = .body p c)
    (henter : (s.primitive p).data.enter c = some (data, verdict))
    (hverdict : verdict = .wakeOne ∨ verdict = .serve)
    (hwait : (s.primitive p).waiters = x :: rest) :
    Moves a s (({ s with node }.setPrimitive p
      ({ s.primitive p with data }.popped rest)).setPc f (.submit x (.unlock p)))
  | wokenAll {w : Fin n} {f : ℕ} {p : Fin m} (hw : s.worker w = .running f)
    (hpc : s.pc f = .wakeAll p) (hnil : (s.primitive p).waiters = []) :
    Moves a s (s.setPc f (.unlock p))
  | popAll {w : Fin n} {f x : ℕ} {p : Fin m} {rest : List ℕ} {node : ℕ → Option ℕ}
    (hw : s.worker w = .running f) (hpc : s.pc f = .wakeAll p)
    (hwait : (s.primitive p).waiters = x :: rest) :
    Moves a s (({ s with node }.setPrimitive p ((s.primitive p).popped rest)).setPc f
      (.submit x (.wakeAll p)))
  | unlock {w : Fin n} {f : ℕ} {p : Fin m} (hw : s.worker w = .running f)
    (hpc : s.pc f = .unlock p) :
    Moves a s ((s.setPrimitive p { s.primitive p with spin_ := false }).setPc f .user)

section Inversion

variable {s s' : State n m} {w : Fin n} {f : ℕ}

/-- The front node holds the fiber it is of. -/
theorem Owned.popFront_eq {p : Fin m} {x : ℕ} {rest : List ℕ} (h : Owned s 0) (f : ℕ)
    (next : Pc m) (q : Primitive) (hq : q.waiters = (s.primitive p).waiters)
    (hwait : (s.primitive p).waiters = x :: rest) :
    (s.setPrimitive p q).popFront f p next =
      ({ s with node := update s.node x none }.setPrimitive p (q.popped rest)).setPc f
        (.submit x next) := by
  have hnode : s.node x = some x := h.node p x (by rw [hwait]; exact List.mem_cons_self)
  have hself : ((s.setPrimitive p q).primitive p) = q := Function.update_self _ _ _
  simp only [State.popFront, hself, hq, hwait]
  simp only [State.setPrimitive, State.setPc, hnode, Function.update_idem]

theorem moves_bodyStep {p : Fin m} {c : Call} (h : Owned s 0) (hw : s.worker w = .running f)
    (hpc : s.pc f = .body p c) (hstep : bodyStep w f p c s = some s') : Moves (.work w) s s' := by
  rw [bodyStep] at hstep
  split at hstep
  · cases hstep
  · rename_i data verdict henter
    have hself : ((s.setPrimitive p { s.primitive p with data }).primitive p).waiters =
        (s.primitive p).waiters := by
      simp only [State.setPrimitive, Function.update_self]
    cases verdict with
    | leave =>
      obtain rfl := Option.some.inj hstep
      exact .leave rfl hw hpc henter
    | park role =>
      obtain rfl := Option.some.inj hstep
      exact .park hw hpc henter
    | wakeOne =>
      dsimp only at hstep
      rw [hself] at hstep
      by_cases hnil : (s.primitive p).waiters = []
      · rw [if_pos (by rw [hnil]; rfl)] at hstep
        obtain rfl := Option.some.inj hstep
        exact .wakeNobody hw hpc henter hnil
      · obtain ⟨x, rest, hwait⟩ := List.exists_cons_of_ne_nil hnil
        rw [if_neg (by simpa using hnil)] at hstep
        obtain rfl := Option.some.inj hstep
        rw [h.popFront_eq f (.unlock p) { s.primitive p with data } rfl hwait]
        exact .pop hw hpc henter (.inl rfl) hwait
    | wakeAll =>
      obtain rfl := Option.some.inj hstep
      exact .wakeAll hw hpc henter
    | serve =>
      obtain rfl := Option.some.inj hstep
      -- a channel whose state names a side has somebody waiting
      obtain ⟨x, rest, hwait⟩ : ∃ x rest, (s.primitive p).waiters = x :: rest := by
        obtain ⟨st, hst, hno⟩ := enter_serve henter
        exact List.exists_cons_of_ne_nil (h.channel p st hst hno)
      rw [h.popFront_eq f (.unlock p) { s.primitive p with data } rfl hwait]
      exact .pop hw hpc henter (.inr rfl) hwait

theorem moves_fiberStep (h : Owned s 0) (hw : s.worker w = .running f)
    (hstep : fiberStep w f s = some s') : Moves (.work w) s s' := by
  rw [fiberStep] at hstep
  cases hpc : s.pc f with
  | user =>
    rw [hpc] at hstep
    cases hstep
  | submit g next =>
    rw [hpc] at hstep
    obtain rfl := Option.some.inj hstep
    exact .passOn hw hpc
  | lock p c =>
    rw [hpc] at hstep
    dsimp only at hstep
    split at hstep <;> cases hstep
    exact .lock hw hpc (Bool.eq_false_of_not_eq_true ‹_›)
  | body p c =>
    rw [hpc] at hstep
    exact moves_bodyStep h hw hpc hstep
  | wakeAll p =>
    rw [hpc] at hstep
    dsimp only at hstep
    by_cases hnil : (s.primitive p).waiters = []
    · rw [hnil] at hstep
      obtain rfl := Option.some.inj hstep
      exact .wokenAll hw hpc hnil
    · obtain ⟨x, rest, hwait⟩ := List.exists_cons_of_ne_nil hnil
      rw [if_neg (by simpa using hnil)] at hstep
      obtain rfl := Option.some.inj hstep
      have hpop := h.popFront_eq f (.wakeAll p) (s.primitive p) rfl hwait
      rw [show s.setPrimitive p (s.primitive p) = s by
        simp only [State.setPrimitive, Function.update_eq_self]] at hpop
      rw [hpop]
      exact .popAll hw hpc hwait
  | relock p c =>
    rw [hpc] at hstep
    dsimp only at hstep
    split at hstep <;> cases hstep
    exact .relock hw hpc (Bool.eq_false_of_not_eq_true ‹_›)
  | unlock p =>
    rw [hpc] at hstep
    obtain rfl := Option.some.inj hstep
    exact .unlock hw hpc

theorem moves_workerStep (h : Owned s 0) (hstep : workerStep w s = some s') :
    Moves (.work w) s s' := by
  rw [workerStep] at hstep
  cases hw : s.worker w with
  | idle =>
    rw [hw] at hstep
    cases hstep
  | running f =>
    rw [hw] at hstep
    exact moves_fiberStep h hw hstep
  | returned f =>
    rw [hw] at hstep
    obtain rfl := Option.some.inj hstep
    exact .delete hw
  | suspended f =>
    rw [hw] at hstep
    dsimp only at hstep
    cases hcb : s.cb_ f with
    | none => exact absurd hcb (h.cb w f hw)
    | some cb =>
      rw [hcb] at hstep
      obtain rfl := Option.some.inj hstep
      exact .enter hw hcb
  | callback f cb =>
    rw [hw] at hstep
    obtain rfl := Option.some.inj hstep
    cases cb with
    | yield => exact .yielded hw
    | sleepFor => exact .slept hw
    | park p role => exact .parked hw
  | submit f =>
    rw [hw] at hstep
    obtain rfl := Option.some.inj hstep
    exact .submitted hw
  | set f =>
    rw [hw] at hstep
    obtain rfl := Option.some.inj hstep
    exact .set hw
  | unlock p =>
    rw [hw] at hstep
    obtain rfl := Option.some.inj hstep
    exact .release hw

/-- What is queued is not running. -/
theorem Owned.queued_rests (h : Owned s 0) {task : Task} (ht : task ∈ s.tasks)
    (hf : task = .fiber f ∨ task = .timer f) (v : Fin n) : s.worker v ≠ .running f := by
  intro hv
  have hle := holds_le_byWorkers s v f
  have hone := h.places_le f
  have hpos : 0 < ((s.worker v).holds s.pc).count f :=
    Multiset.count_pos.mpr (by rw [hv]; exact mem_holds_running f)
  have hpos' := Multiset.count_pos.mpr ht
  obtain rfl | rfl := hf <;> omega

/-- **Inversion of a step.** -/
theorem moves_of_step {a : Action n m} (h : Owned s 0) (hstep : step a s = some s') :
    Moves a s s' := by
  simp only [step] at hstep
  split at hstep
  · cases hstep
  cases a with
  | spawn =>
    obtain rfl := Option.some.inj hstep
    exact .spawn
  | submit f =>
    dsimp only at hstep
    split at hstep <;> cases hstep
    exact .bags le_rfl (Multiset.erase_le _ _)
  | run w task =>
    dsimp only at hstep
    split at hstep
    · rename_i hrun
      obtain ⟨hidle, ht⟩ := hrun
      obtain rfl := Option.some.inj hstep
      cases task with
      | fiber f => exact .run hidle (h.queued_rests ht (.inl rfl))
      | timer f =>
        have htimer : s.timer f = some f := h.timer f (.inr (.inl ht))
        simp only [runTask, htimer]
        exact .run hidle (h.queued_rests ht (.inr rfl))
    · cases hstep
  | fire timer =>
    dsimp only at hstep
    split at hstep <;> cases hstep
    exact .bags (Multiset.erase_le _ _) le_rfl
  | user w call =>
    dsimp only at hstep
    split at hstep
    · rename_i f hw
      split at hstep
      · rename_i hcall
        obtain rfl := Option.some.inj hstep
        cases call with
        | go => exact .go hw hcall.1
        | yield => exact .rest hw hcall.1 (.inl rfl)
        | sleepFor => exact .rest hw hcall.1 (.inr rfl)
        | call p c => exact .call hw hcall.1
        | finish => exact .finish hw hcall.1
      · cases hstep
    · cases hstep
  | work w => exact moves_workerStep h hstep

end Inversion

end Exe.Fiber.Core
