/-
`primitives::CondVar`: a condition variable on a futex and an epoch counter.

`Wait` reads the counter before it releases the mutex and stays until the counter has
passed that epoch, so a waiter that came after a notification is not released by it. But
all waiters sleep on one word, and the `WakeOne` of a notification may wake a waiter that
came after its `fetch_add`: that one finds its epoch not passed and goes back to sleep,
and the wakeup is spent.

# Conventions

* The mutex is any BasicLockable: it is held by one thread or free. A notifier may hold it
  or not.
* An atomic access to the counter is one step, and so is a futex operation. `futex::Wait`
  compares and goes to sleep in one step, and may return without a reason. `WakeOne` wakes
  whichever sleeper the action names.
* `issued`, `seen`, `left` and `notified` are history: the number of `fetch_add`s, that
  number when a thread read its epoch, the number of wait loops a thread has left, and
  who was waiting when the `NotifyOne`s that have completed began.
-/
import Exe.Machine
import Exe.Places
import Mathlib.Data.Fintype.Basic

set_option autoImplicit false

namespace Exe.Primitives.CondVar

open Function (update)

/-! ## The model -/

/-- Some of the threads that wait, each with the number of wait loops it had left. -/
abbrev Waiters (n : ℕ) := Fin n → Option ℕ

/-- Where a thread is: outside the calls, in `Wait` before `mutex.unlock()`, before the
loop test, before `futex::Wait`, asleep in it, before `mutex.lock()`, or in a notification
before `fetch_add` and before the futex operation. -/
inductive Pc (n : ℕ)
  | outside
  | unlock (my_order : UInt64)
  | test (my_order : UInt64)
  | wait (my_order : UInt64)
  | asleep (my_order : UInt64)
  | relock
  | bump (all : Bool) (waiting : Waiters n)
  | wake (all : Bool) (waiting : Waiters n)

namespace Pc

variable {n : ℕ}

/-- The epoch of a thread that has read it and is still in its loop. -/
def my_order? : Pc n → Option UInt64
  | unlock o | test o | wait o | asleep o => some o
  | _ => none

/-- In the wait loop: the epoch is read and the mutex released. -/
def isWaiting : Pc n → Bool
  | test _ | wait _ | asleep _ => true
  | _ => false

def isAsleep : Pc n → Bool
  | asleep _ => true
  | _ => false

/-- Inside `NotifyOne` or `NotifyAll`. -/
def isNotifying : Pc n → Bool
  | bump .. | wake .. => true
  | _ => false

end Pc

structure State (n : ℕ) where
  atom_ : UInt32
  mutex : Option (Fin n)
  pc : Fin n → Pc n
  issued : ℕ
  seen : Fin n → ℕ
  left : Fin n → ℕ
  notified : List (Waiters n)

def State.new (n : ℕ) : State n where
  atom_ := 0
  mutex := none
  pc _ := .outside
  issued := 0
  seen _ := 0
  left _ := 0
  notified := []

inductive Action (n : ℕ)
  | lock (t : Fin n)
  | unlock (t : Fin n)
  | read (t : Fin n)
  | release (t : Fin n)
  | test (t : Fin n)
  | wait (t : Fin n)
  | spurious (t : Fin n)
  | relock (t : Fin n)
  | notify (t : Fin n) (all : Bool)
  | bump (t : Fin n)
  | wakeOne (t : Fin n) (u : Option (Fin n))
  | wakeAll (t : Fin n)

variable {n : ℕ}

/-- The loop condition of `Wait`, `atom_.load() <= my_order`: the counter is extended to
the width of `my_order`. -/
def mustWait (atom_ : UInt32) (my_order : UInt64) : Bool := decide (atom_.toUInt64 ≤ my_order)

/-- The threads in their wait loops. -/
def State.waiters (s : State n) : Waiters n := fun t =>
  if (s.pc t).isWaiting then some (s.left t) else none

/-- `size_t my_order = atom_.load()`. -/
def read (t : Fin n) (s : State n) : State n :=
  { s with
    pc := update s.pc t (.unlock s.atom_.toUInt64)
    seen := update s.seen t s.issued }

/-- The loop test. -/
def test (t : Fin n) (my_order : UInt64) (s : State n) : State n :=
  if mustWait s.atom_ my_order then { s with pc := update s.pc t (.wait my_order) }
  -- the epoch has passed: the waiter goes for the mutex
  else { s with pc := update s.pc t .relock, left := update s.left t (s.left t + 1) }

/-- `futex::Wait(atom_, my_order)`, which takes the epoch at the width of the counter. -/
def futexWait (t : Fin n) (my_order : UInt64) (s : State n) : State n :=
  { s with
    -- `futex::Wait` returns at once when the counter has moved on
    pc := update s.pc t
      (if s.atom_ = my_order.toUInt32 then .asleep my_order else .test my_order) }

/-- A sleeper that was woken. -/
def Pc.woken : Pc n → Pc n
  | asleep o => test o
  | pc => pc

/-- The end of `NotifyOne`: with a sleeper around, `WakeOne` wakes one. -/
def wakeOne (t : Fin n) (waiting : Waiters n) (u : Option (Fin n)) (s : State n) :
    Option (State n) :=
  match u with
  | some u =>
    if (s.pc u).isAsleep then
      some { s with
        pc := update (update s.pc t .outside) u (s.pc u).woken
        notified := waiting :: s.notified }
    else none
  | none =>
    if ∀ v, (s.pc v).isAsleep = false then
      some { s with pc := update s.pc t .outside, notified := waiting :: s.notified }
    else none

def step (a : Action n) (s : State n) : Option (State n) :=
  match a with
  | .lock t =>
    match s.pc t, s.mutex with
    | .outside, none => some { s with mutex := some t }
    | _, _ => none
  | .unlock t =>
    match s.pc t with
    | .outside => if s.mutex = some t then some { s with mutex := none } else none
    | _ => none
  | .read t =>
    match s.pc t with
    | .outside => if s.mutex = some t then some (read t s) else none
    | _ => none
  | .release t =>
    match s.pc t with
    | .unlock o => some { s with mutex := none, pc := update s.pc t (.test o) }
    | _ => none
  | .test t =>
    match s.pc t with
    | .test o => some (test t o s)
    | _ => none
  | .wait t =>
    match s.pc t with
    | .wait o => some (futexWait t o s)
    | _ => none
  | .spurious t =>
    match s.pc t with
    | .asleep o => some { s with pc := update s.pc t (.test o) }
    | _ => none
  | .relock t =>
    match s.pc t, s.mutex with
    | .relock, none => some { s with mutex := some t, pc := update s.pc t .outside }
    | _, _ => none
  | .notify t all =>
    match s.pc t with
    | .outside => some { s with pc := update s.pc t (.bump all s.waiters) }
    | _ => none
  | .bump t =>
    match s.pc t with
    | .bump all waiting =>
      some { s with
        atom_ := s.atom_ + 1
        issued := s.issued + 1
        pc := update s.pc t (.wake all waiting) }
    | _ => none
  | .wakeOne t u =>
    match s.pc t with
    | .wake false waiting => wakeOne t waiting u s
    | _ => none
  | .wakeAll t =>
    match s.pc t with
    | .wake true _ => some { s with pc := fun v => if v = t then .outside else (s.pc v).woken }
    | _ => none

def machine (n : ℕ) : Machine (State n) (Action n) where
  init s := s = .new n
  step := step

/-! ## What a step does -/

inductive Moves (s : State n) : Action n → State n → Prop
  | lock {t : Fin n} : Moves s (.lock t) { s with mutex := some t }
  | unlock {t : Fin n} : Moves s (.unlock t) { s with mutex := none }
  | read {t : Fin n} (hpc : s.pc t = .outside) : Moves s (.read t) (read t s)
  | release {t : Fin n} {o : UInt64} (hpc : s.pc t = .unlock o) :
    Moves s (.release t) { s with mutex := none, pc := update s.pc t (.test o) }
  | stay {t : Fin n} {o : UInt64} (hpc : s.pc t = .test o) (hle : mustWait s.atom_ o = true) :
    Moves s (.test t) { s with pc := update s.pc t (.wait o) }
  | leave {t : Fin n} {o : UInt64} (hpc : s.pc t = .test o) (hgt : mustWait s.atom_ o = false) :
    Moves s (.test t)
      { s with pc := update s.pc t .relock, left := update s.left t (s.left t + 1) }
  | sleep {t : Fin n} {o : UInt64} (hpc : s.pc t = .wait o) (heq : s.atom_ = o.toUInt32) :
    Moves s (.wait t) { s with pc := update s.pc t (.asleep o) }
  | retry {t : Fin n} {o : UInt64} (hpc : s.pc t = .wait o) (hne : s.atom_ ≠ o.toUInt32) :
    Moves s (.wait t) { s with pc := update s.pc t (.test o) }
  | spurious {t : Fin n} {o : UInt64} (hpc : s.pc t = .asleep o) :
    Moves s (.spurious t) { s with pc := update s.pc t (.test o) }
  | relock {t : Fin n} (hpc : s.pc t = .relock) :
    Moves s (.relock t) { s with mutex := some t, pc := update s.pc t .outside }
  | notify {t : Fin n} {all : Bool} (hpc : s.pc t = .outside) :
    Moves s (.notify t all) { s with pc := update s.pc t (.bump all s.waiters) }
  | bump {t : Fin n} {all : Bool} {w : Waiters n} (hpc : s.pc t = .bump all w) :
    Moves s (.bump t)
      { s with
        atom_ := s.atom_ + 1
        issued := s.issued + 1
        pc := update s.pc t (.wake all w) }
  | wakeOne {t u : Fin n} {w : Waiters n} {o : UInt64} (hpc : s.pc t = .wake false w)
      (hu : s.pc u = .asleep o) :
    Moves s (.wakeOne t (some u))
      { s with
        pc := update (update s.pc t .outside) u (.test o)
        notified := w :: s.notified }
  | wakeNone {t : Fin n} {w : Waiters n} (hpc : s.pc t = .wake false w)
      (hno : ∀ v, (s.pc v).isAsleep = false) :
    Moves s (.wakeOne t none)
      { s with pc := update s.pc t .outside, notified := w :: s.notified }
  | wakeAll {t : Fin n} {w : Waiters n} (hpc : s.pc t = .wake true w) :
    Moves s (.wakeAll t) { s with pc := fun v => if v = t then .outside else (s.pc v).woken }

theorem moves_of_step {a : Action n} {s s' : State n} (h : step a s = some s') :
    Moves s a s' := by
  cases a with
  | lock t =>
    simp only [step] at h
    split at h
    · cases h
      exact .lock
    · cases h
  | unlock t =>
    simp only [step] at h
    split at h
    · simp only [Option.ite_none_right_eq_some, Option.some.injEq] at h
      obtain ⟨-, rfl⟩ := h
      exact .unlock
    · cases h
  | read t =>
    simp only [step] at h
    split at h
    · rename_i hpc
      simp only [Option.ite_none_right_eq_some, Option.some.injEq] at h
      obtain ⟨-, rfl⟩ := h
      exact .read hpc
    · cases h
  | release t =>
    simp only [step] at h
    split at h
    · rename_i o hpc
      cases h
      exact .release hpc
    · cases h
  | test t =>
    simp only [step] at h
    split at h
    · rename_i o hpc
      cases h
      unfold test
      split
      · exact .stay hpc ‹_›
      · exact .leave hpc (Bool.eq_false_iff.mpr ‹_›)
    · cases h
  | wait t =>
    simp only [step] at h
    split at h
    · rename_i o hpc
      cases h
      unfold futexWait
      split
      · exact .sleep hpc ‹_›
      · exact .retry hpc ‹_›
    · cases h
  | spurious t =>
    simp only [step] at h
    split at h
    · rename_i o hpc
      cases h
      exact .spurious hpc
    · cases h
  | relock t =>
    simp only [step] at h
    split at h
    · rename_i hpc _
      cases h
      exact .relock hpc
    · cases h
  | notify t all =>
    simp only [step] at h
    split at h
    · rename_i hpc
      cases h
      exact .notify hpc
    · cases h
  | bump t =>
    simp only [step] at h
    split at h
    · rename_i all w hpc
      cases h
      exact .bump hpc
    · cases h
  | wakeOne t u =>
    simp only [step] at h
    split at h
    · rename_i w hpc
      unfold CondVar.wakeOne at h
      split at h
      · rename_i u
        simp only [Option.ite_none_right_eq_some, Option.some.injEq] at h
        obtain ⟨hu, rfl⟩ := h
        obtain ⟨o, ho⟩ : ∃ o, s.pc u = .asleep o := by
          cases hpu : s.pc u with
          | asleep o => exact ⟨o, rfl⟩
          | _ => rw [hpu] at hu; cases hu
        rw [ho]
        exact .wakeOne hpc ho
      · simp only [Option.ite_none_right_eq_some, Option.some.injEq] at h
        obtain ⟨hno, rfl⟩ := h
        exact .wakeNone hpc hno
    · cases h
  | wakeAll t =>
    simp only [step] at h
    split at h
    · rename_i w hpc
      cases h
      exact .wakeAll hpc
    · cases h

/-- What a step does to the thread `t`: nothing, or something outside a wait, or one step of
a `Wait`. -/
inductive ThreadMoves (s s' : State n) (t : Fin n) : Prop
  | same (hpc : s'.pc t = s.pc t) (hseen : s'.seen t = s.seen t) (hleft : s'.left t = s.left t)
  | other (next : Pc n) (hpc : (s.pc t).my_order? = none) (hpc' : s'.pc t = next)
      (hnext : next.my_order? = none) (hleft : s'.left t = s.left t)
  | read (hpc : s.pc t = .outside) (hpc' : s'.pc t = .unlock s.atom_.toUInt64)
      (hseen : s'.seen t = s.issued) (hleft : s'.left t = s.left t)
      (hatom : s'.atom_ = s.atom_) (hissued : s'.issued = s.issued)
  | release (o : UInt64) (hpc : s.pc t = .unlock o) (hpc' : s'.pc t = .test o)
      (hseen : s'.seen t = s.seen t) (hleft : s'.left t = s.left t)
  | leave (o : UInt64) (hpc : s.pc t = .test o) (hpc' : s'.pc t = .relock)
      (hleft : s'.left t = s.left t + 1)
  | stay (o : UInt64) (hpc : s.pc t = .test o) (hpc' : s'.pc t = .wait o)
      (hle : mustWait s.atom_ o = true)
      (hseen : s'.seen t = s.seen t) (hleft : s'.left t = s.left t)
  | sleep (o : UInt64) (hpc : s.pc t = .wait o) (hpc' : s'.pc t = .asleep o)
      (heq : s.atom_ = o.toUInt32)
      (hseen : s'.seen t = s.seen t) (hleft : s'.left t = s.left t)
  | test (o : UInt64) (hpc : s.pc t = .wait o ∨ s.pc t = .asleep o) (hpc' : s'.pc t = .test o)
      (hseen : s'.seen t = s.seen t) (hleft : s'.left t = s.left t)

theorem threadMoves_of_ne {s s' : State n} {t u : Fin n} {next : Pc n} (h : u ≠ t)
    (hpc : s'.pc = update s.pc t next) (hseen : s'.seen u = s.seen u)
    (hleft : s'.left u = s.left u) : ThreadMoves s s' u := by
  refine .same ?_ hseen hleft
  rw [hpc, Function.update_of_ne h]

theorem threadMoves_of_moves {a : Action n} {s s' : State n} (hm : Moves s a s') (u : Fin n) :
    ThreadMoves s s' u := by
  cases hm with
  | lock => exact .same rfl rfl rfl
  | unlock => exact .same rfl rfl rfl
  | @read t hpc =>
    by_cases h : u = t
    · subst h
      exact .read hpc (Function.update_self _ _ _) (Function.update_self _ _ _) rfl rfl rfl
    · exact threadMoves_of_ne h rfl (Function.update_of_ne h _ _) rfl
  | @release t o hpc =>
    by_cases h : u = t
    · subst h
      exact .release o hpc (Function.update_self _ _ _) rfl rfl
    · exact threadMoves_of_ne h rfl rfl rfl
  | @stay t o hpc hle =>
    by_cases h : u = t
    · subst h
      exact .stay o hpc (Function.update_self _ _ _) hle rfl rfl
    · exact threadMoves_of_ne h rfl rfl rfl
  | @leave t o hpc hgt =>
    by_cases h : u = t
    · subst h
      exact .leave o hpc (Function.update_self _ _ _) (Function.update_self _ _ _)
    · exact threadMoves_of_ne h rfl rfl (Function.update_of_ne h _ _)
  | @sleep t o hpc heq =>
    by_cases h : u = t
    · subst h
      exact .sleep o hpc (Function.update_self _ _ _) heq rfl rfl
    · exact threadMoves_of_ne h rfl rfl rfl
  | @retry t o hpc hne =>
    by_cases h : u = t
    · subst h
      exact .test o (.inl hpc) (Function.update_self _ _ _) rfl rfl
    · exact threadMoves_of_ne h rfl rfl rfl
  | @spurious t o hpc =>
    by_cases h : u = t
    · subst h
      exact .test o (.inr hpc) (Function.update_self _ _ _) rfl rfl
    · exact threadMoves_of_ne h rfl rfl rfl
  | @relock t hpc =>
    by_cases h : u = t
    · subst h
      exact .other _ (by rw [hpc]; rfl) (Function.update_self _ _ _) rfl rfl
    · exact threadMoves_of_ne h rfl rfl rfl
  | @notify t all hpc =>
    by_cases h : u = t
    · subst h
      exact .other _ (by rw [hpc]; rfl) (Function.update_self _ _ _) rfl rfl
    · exact threadMoves_of_ne h rfl rfl rfl
  | @bump t all w hpc =>
    by_cases h : u = t
    · subst h
      exact .other _ (by rw [hpc]; rfl) (Function.update_self _ _ _) rfl rfl
    · exact threadMoves_of_ne h rfl rfl rfl
  -- two threads move: the notifier leaves and a sleeper gets back to its test
  | @wakeOne t v w o hpc hv =>
    by_cases hu : u = v
    · subst hu
      exact .test o (.inr hv) (Function.update_self _ _ _) rfl rfl
    · by_cases h : u = t
      · subst h
        refine .other .outside (by rw [hpc]; rfl) ?_ rfl rfl
        dsimp only
        rw [Function.update_of_ne hu, Function.update_self]
      · refine .same ?_ rfl rfl
        dsimp only
        rw [Function.update_of_ne hu, Function.update_of_ne h]
  | @wakeNone t w hpc hno =>
    by_cases h : u = t
    · subst h
      exact .other _ (by rw [hpc]; rfl) (Function.update_self _ _ _) rfl rfl
    · exact threadMoves_of_ne h rfl rfl rfl
  | @wakeAll t w hpc =>
    by_cases h : u = t
    · subst h
      exact .other .outside (by rw [hpc]; rfl) (if_pos rfl) rfl rfl
    · cases hu : s.pc u with
      | asleep o => exact .test o (.inr hu) ((if_neg h).trans (by rw [hu]; rfl)) rfl rfl
      | _ => exact .same ((if_neg h).trans (by rw [hu]; rfl)) rfl rfl

/-- Only the `fetch_add` of a notification changes the counter. -/
theorem counter_of_moves {a : Action n} {s s' : State n} (hm : Moves s a s') :
    s'.atom_ = s.atom_ ∧ s'.issued = s.issued ∨
      (∃ t, a = .bump t) ∧ s'.atom_ = s.atom_ + 1 ∧ s'.issued = s.issued + 1 := by
  cases hm with
  | bump _ => exact .inr ⟨⟨_, rfl⟩, rfl, rfl⟩
  | _ => exact .inl ⟨rfl, rfl⟩

/-- The epoch a thread holds is the one it has held, or it has just read it. -/
theorem epoch_of_moves {a : Action n} {s s' : State n} (hm : Moves s a s') {t : Fin n}
    {o : UInt64} (ho : (s'.pc t).my_order? = some o) :
    (s.pc t).my_order? = some o ∧ s'.seen t = s.seen t ∧ s'.left t = s.left t ∨
      s.pc t = .outside ∧ o = s.atom_.toUInt64 ∧ s'.seen t = s.issued ∧ s'.left t = s.left t ∧
        s'.atom_ = s.atom_ ∧ s'.issued = s.issued := by
  cases threadMoves_of_moves hm t with
  | same hpc hseen hleft => exact .inl ⟨by rw [← hpc]; exact ho, hseen, hleft⟩
  -- outside the loop there is no epoch
  | other next _ hpc' hnext _ =>
    rw [hpc', hnext] at ho
    cases ho
  | read hpc hpc' hseen hleft hatom hissued =>
    rw [hpc'] at ho
    exact .inr ⟨hpc, (Option.some.inj ho).symm, hseen, hleft, hatom, hissued⟩
  | release _ hpc hpc' hseen hleft =>
    rw [hpc'] at ho
    exact .inl ⟨by rw [hpc]; exact ho, hseen, hleft⟩
  -- the epoch is given up with the loop
  | leave _ _ hpc' _ =>
    rw [hpc'] at ho
    cases ho
  | stay _ hpc hpc' _ hseen hleft =>
    rw [hpc'] at ho
    exact .inl ⟨by rw [hpc]; exact ho, hseen, hleft⟩
  | sleep _ hpc hpc' _ hseen hleft =>
    rw [hpc'] at ho
    exact .inl ⟨by rw [hpc]; exact ho, hseen, hleft⟩
  | test _ hpc hpc' hseen hleft =>
    rw [hpc'] at ho
    refine .inl ⟨?_, hseen, hleft⟩
    rcases hpc with hpc | hpc
    all_goals
      rw [hpc]
      exact ho

/-! ## The counter and the epochs -/

/-- The counter is `k` notifications past the epoch `o`, modulo its width. -/
def Past (atom_ : UInt32) (o : UInt64) (k : ℕ) : Prop :=
  o.toNat < 2 ^ 32 ∧ atom_.toNat = (o.toNat + k) % 2 ^ 32

theorem past_zero (atom_ : UInt32) : Past atom_ atom_.toUInt64 0 := by
  have hlt := atom_.toNat_lt
  refine ⟨by rwa [UInt32.toNat_toUInt64], ?_⟩
  rw [UInt32.toNat_toUInt64, Nat.add_zero, Nat.mod_eq_of_lt hlt]

theorem Past.succ {atom_ : UInt32} {o : UInt64} {k : ℕ} (h : Past atom_ o k) :
    Past (atom_ + 1) o (k + 1) := by
  refine ⟨h.1, ?_⟩
  rw [UInt32.toNat_add, h.2]
  -- counting modulo `2 ^ 32` commutes with one more
  show ((o.toNat + k) % 2 ^ 32 + 1) % 2 ^ 32 = (o.toNat + (k + 1)) % 2 ^ 32
  omega

theorem mustWait_eq_false {atom_ : UInt32} {o : UInt64} :
    mustWait atom_ o = false ↔ o.toNat < atom_.toNat := by
  rw [mustWait, decide_eq_false_iff_not, UInt64.le_iff_toNat_le, UInt32.toNat_toUInt64, not_le]

/-- Fewer notifications than the counter can tell apart release a waiter exactly when they
have not taken the counter through zero. -/
theorem Past.released_iff {atom_ : UInt32} {o : UInt64} {k : ℕ} (h : Past atom_ o k)
    (hk : 1 ≤ k) (hk' : k < 2 ^ 32) : mustWait atom_ o = false ↔ o.toNat + k < 2 ^ 32 := by
  obtain ⟨ho, ha⟩ := h
  rw [mustWait_eq_false, ha]
  constructor
  · intro hlt
    by_contra hge
    -- through zero the counter stands below the epoch again
    have hwrap : (o.toNat + k) % 2 ^ 32 = o.toNat + k - 2 ^ 32 := by omega
    omega
  · intro hlt
    rw [Nat.mod_eq_of_lt hlt]
    omega

/-- Every epoch that is held is as many notifications behind as the history says. -/
def Epochs (s : State n) : Prop :=
  ∀ t o, (s.pc t).my_order? = some o → s.seen t ≤ s.issued ∧ Past s.atom_ o (s.issued - s.seen t)

theorem Epochs.step {a : Action n} {s s' : State n} (h : Epochs s) (hm : Moves s a s') :
    Epochs s' := by
  intro t o ho
  rcases epoch_of_moves hm ho with ⟨hpc, hseen, -⟩ | ⟨-, rfl, hseen, -, hatom, hissued⟩
  · -- the thread keeps its epoch, and the counter may move on
    obtain ⟨hle, hpast⟩ := h t o hpc
    rw [hseen]
    rcases counter_of_moves hm with ⟨hatom, hissued⟩ | ⟨-, hatom, hissued⟩
    · rw [hatom, hissued]
      exact ⟨hle, hpast⟩
    · rw [hatom, hissued, Nat.sub_add_comm hle]
      exact ⟨Nat.le_succ_of_le hle, hpast.succ⟩
  · rw [hseen, hatom, hissued, Nat.sub_self]
    exact ⟨Nat.le_refl _, past_zero _⟩

theorem epochs_of_reachable {s : State n} (hs : (machine n).Reachable s) : Epochs s := by
  refine hs.invariant (fun s hinit => ?_) fun _ _ _ h _ hst => h.step (moves_of_step hst)
  subst hinit
  intro t o ho
  cases ho

/-- **When an epoch survives the counter.** A waiter that evaluates its loop condition after
at least one and fewer than `2 ^ 32` notifications is released if and only if they have not
wrapped the counter. -/
theorem released_iff_not_wrapped {s : State n} (hs : (machine n).Reachable s) {t : Fin n}
    {my_order : UInt64} (hpc : s.pc t = .test my_order) (hk : 1 ≤ s.issued - s.seen t)
    (hk' : s.issued - s.seen t < 2 ^ 32) :
    mustWait s.atom_ my_order = false ↔ my_order.toNat + (s.issued - s.seen t) < 2 ^ 32 :=
  (epochs_of_reachable hs t my_order (by rw [hpc]; rfl)).2.released_iff hk hk'

/-- A new condition variable after `k` notifications that found nobody. -/
def State.afterNotifications (n k : ℕ) : State n :=
  { State.new n with atom_ := UInt32.ofNat k, issued := k }

theorem reachable_afterNotifications (n k : ℕ) :
    (machine (n + 1)).Reachable (.afterNotifications (n + 1) k) := by
  induction k with
  | zero => exact .init rfl
  | succ k ih =>
    -- one `NotifyAll` on nobody is one more notification
    refine ((ih.next (.notify 0 true) rfl).next (.bump 0) rfl).next (.wakeAll 0) ?_
    simp only [machine, step, State.afterNotifications, Function.update_self, Option.some.injEq,
      State.mk.injEq, UInt32.ofNat_add, and_true, true_and]
    refine ⟨rfl, ?_⟩
    funext v
    by_cases hv : v = 0
    · rw [if_pos hv]
      rfl
    · rw [if_neg hv, Function.update_of_ne hv, Function.update_of_ne hv]
      rfl

/-- A waiter reads the epoch `2 ^ 32 - 1`, one notification follows, and the waiter may not
leave its loop. -/
theorem not_released_after_wrap : ∃ s : State 2, (machine 2).Reachable s ∧
    ∃ my_order, s.pc 0 = .test my_order ∧ my_order.toNat = 2 ^ 32 - 1 ∧
      s.issued - s.seen 0 = 1 ∧ mustWait s.atom_ my_order = true := by
  have hstart := reachable_afterNotifications 1 (2 ^ 32 - 1)
  have h := ((((hstart.next (.lock 0) rfl).next (.read 0) rfl).next (.release 0) rfl).next
    (.notify 1 true) rfl).next (.bump 1) rfl
  refine ⟨_, h, (UInt32.ofNat (2 ^ 32 - 1)).toUInt64, rfl, by decide, ?_, by decide⟩
  show 2 ^ 32 - 1 + 1 - (2 ^ 32 - 1) = 1
  rfl

/-- Two notifications release a waiter that has read the epoch `0`. -/
theorem released_iff_not_wrapped_two : ∃ s : State 2, (machine 2).Reachable s ∧
    s.pc 0 = .test 0 ∧ s.issued - s.seen 0 = 2 ∧
    (mustWait s.atom_ 0 = false ↔ (0 : UInt64).toNat + (s.issued - s.seen 0) < 2 ^ 32) := by
  have h := (((((Machine.Reachable.next (M := machine 2) (.init rfl) (.lock 0) rfl).next
    (.read 0) rfl).next (.release 0) rfl).next (.notify 1 true) rfl).next (.bump 1) rfl)
  have h' := ((h.next (.wakeAll 1) rfl).next (.notify 1 true) rfl).next (.bump 1) rfl
  exact ⟨_, h', rfl, rfl, released_iff_not_wrapped h' (t := 0) rfl (by decide) (by decide)⟩

/-! ## Lost notifications -/

def Action.isBump : Action n → Bool
  | bump _ => true
  | _ => false

/-- The counter does not wrap. -/
def NoWrap (a : Action n) (s : State n) : Prop := a.isBump = true → s.atom_.toNat + 1 < 2 ^ 32

/-- Somebody was waiting, and everybody who was is asleep in the same wait still. -/
def AllAsleep (s : State n) (w : Waiters n) : Prop :=
  (∃ t, w t ≠ none) ∧ ∀ t, w t = none ∨ w t = some (s.left t) ∧ (s.pc t).isAsleep = true

/-- A notification is lost on the waiters `w`: they all sleep, and no wakeup is on its way. -/
def Lost (s : State n) (w : Waiters n) : Prop :=
  AllAsleep s w ∧ ∀ t, (s.pc t).isNotifying = false

instance (s : State n) (w : Waiters n) : Decidable (AllAsleep s w) :=
  inferInstanceAs (Decidable (_ ∧ _))

instance (s : State n) (w : Waiters n) : Decidable (Lost s w) :=
  inferInstanceAs (Decidable (_ ∧ _))

instance (a : Action n) (s : State n) : Decidable (NoWrap a s) :=
  inferInstanceAs (Decidable (_ → _))

/-- A newcomer absorbs a wakeup: everybody who was waiting when the `NotifyOne` began is
asleep, and its `WakeOne` wakes somebody else. -/
def absorbs (a : Action n) (s : State n) : Bool :=
  match a with
  | .wakeOne t (some u) =>
    match s.pc t with
    | .wake _ w => decide (AllAsleep s w) && (w u).isNone
    | _ => false
  | _ => false

/-- The `k`-th wait of `t` is over, or `t` is awake in it and its epoch has passed. -/
def Free (s : State n) (t : Fin n) (k : ℕ) : Prop :=
  k < s.left t ∨
    k = s.left t ∧ ∃ o, (s.pc t = .test o ∨ s.pc t = .wait o) ∧ o.toNat < s.atom_.toNat

/-- Who was waiting is still in that wait, or has left it. -/
def Recorded (s : State n) (w : Waiters n) : Prop :=
  ∀ t k, w t = some k → k < s.left t ∨ k = s.left t ∧ (s.pc t).isWaiting = true

/-- The epochs of those who were waiting have passed. -/
def Passed (s : State n) (w : Waiters n) : Prop :=
  ∀ t o, w t = some (s.left t) → (s.pc t).my_order? = some o → o.toNat < s.atom_.toNat

/-- Every epoch that is held is behind the counter, and the notifications reach who was
waiting when they began. -/
structure Inv (s : State n) : Prop where
  behind : ∀ t o, (s.pc t).my_order? = some o → o.toNat ≤ s.atom_.toNat
  bump : ∀ t all w, s.pc t = .bump all w → Recorded s w
  wake : ∀ t all w, s.pc t = .wake all w → Recorded s w ∧ Passed s w
  notified : ∀ w ∈ s.notified, (∃ t, w t ≠ none) → ∃ t k, w t = some k ∧ Free s t k

section Inv

variable {s s' : State n} {a : Action n} {w : Waiters n} {t : Fin n} {k : ℕ}

theorem my_order?_of_isWaiting {pc : Pc n} (h : pc.isWaiting = true) : pc.my_order? ≠ none := by
  cases pc with
  | test o => simp [Pc.my_order?]
  | wait o => simp [Pc.my_order?]
  | asleep o => simp [Pc.my_order?]
  | _ => cases h

/-- Without a wrap the counter only grows. -/
theorem atom_mono (hm : Moves s a s') (hw : NoWrap a s) :
    s.atom_.toNat ≤ s'.atom_.toNat := by
  rcases counter_of_moves hm with ⟨hatom, -⟩ | ⟨⟨t, rfl⟩, hatom, -⟩
  · rw [hatom]
  · have hlt : s.atom_.toNat + 1 < 2 ^ 32 := hw rfl
    rw [hatom, UInt32.toNat_add]
    show _ ≤ (s.atom_.toNat + 1) % 2 ^ 32
    omega

/-- Once a waiter is awake with its epoch passed, it does not sleep in that wait again. -/
theorem Free.step (h : Free s t k) (hm : Moves s a s') (hw : NoWrap a s) : Free s' t k := by
  have hmono := atom_mono hm hw
  have hleft : k < s.left t → s'.left t = s.left t → Free s' t k := by
    intro hlt heq
    exact .inl (by rw [heq]; exact hlt)
  -- an awake waiter is in front of the loop test or of `futex::Wait`
  have hpc : ∀ {pc : Pc n}, s.pc t = pc → (∀ o, pc ≠ .test o) → (∀ o, pc ≠ .wait o) →
      k < s.left t := by
    intro pc heq htest hwait
    rcases h with hlt | ⟨-, o, ho | ho, -⟩
    · exact hlt
    · exact absurd (heq.symm.trans ho) (htest o)
    · exact absurd (heq.symm.trans ho) (hwait o)
  cases threadMoves_of_moves hm t with
  | same hsame _ heq =>
    rcases h with hlt | ⟨hk, o, ho, hlt⟩
    · exact hleft hlt heq
    · exact .inr ⟨hk.trans heq.symm, o, by rw [hsame]; exact ho, by omega⟩
  | other next hnone _ _ heq =>
    refine hleft (hpc rfl (fun o ho => ?_) fun o ho => ?_) heq
    all_goals
      rw [ho] at hnone
      cases hnone
  | read hout _ _ heq _ _ => exact hleft (hpc hout (by simp) (by simp)) heq
  | release o hunlock _ _ heq => exact hleft (hpc hunlock (by simp) (by simp)) heq
  -- the wait is over
  | leave o _ _ heq =>
    rcases h with hlt | ⟨hk, -⟩
    · exact .inl (by omega)
    · exact .inl (by omega)
  | stay o htest _ hle _ heq =>
    rcases h with hlt | ⟨-, o', ho | ho, hlt⟩
    · exact hleft hlt heq
    · -- its epoch has passed, so it would have left
      rw [htest] at ho
      cases ho
      rw [mustWait_eq_false.mpr hlt] at hle
      cases hle
    · rw [htest] at ho
      cases ho
  | sleep o hwait _ hatom _ heq =>
    rcases h with hlt | ⟨-, o', ho | ho, hlt⟩
    · exact hleft hlt heq
    · rw [hwait] at ho
      cases ho
    · -- the counter is no longer the epoch
      rw [hwait] at ho
      cases ho
      have hlt' := s.atom_.toNat_lt
      rw [hatom, UInt64.toNat_toUInt32] at hlt
      rw [hatom, UInt64.toNat_toUInt32] at hlt'
      have := Nat.mod_eq_of_lt (a := o.toNat) (b := 2 ^ 32) (by omega)
      omega
  | test o hsome htest _ heq =>
    rcases h with hlt | ⟨hk, o', ho, hlt⟩
    · exact hleft hlt heq
    · have hoo : o' = o := by
        rcases hsome with hsome | hsome
        all_goals
          rcases ho with ho | ho
          all_goals
            rw [hsome] at ho
            cases ho
        rfl
      exact .inr ⟨hk.trans heq.symm, o', .inl (by rw [htest, hoo]), by omega⟩

theorem Recorded.step (h : Recorded s w) (hm : Moves s a s') : Recorded s' w := by
  intro t k hk
  have hleft : s'.left t = s.left t → k < s.left t →
      k < s'.left t ∨ k = s'.left t ∧ (s'.pc t).isWaiting = true := by
    intro heq hlt
    exact .inl (by rw [heq]; exact hlt)
  have hwaiting : s'.left t = s.left t → k = s.left t → (s'.pc t).isWaiting = true →
      k < s'.left t ∨ k = s'.left t ∧ (s'.pc t).isWaiting = true :=
    fun heq hk hpc => .inr ⟨hk.trans heq.symm, hpc⟩
  -- a wait that was left stays left; one that goes on is left or goes on
  rcases h t k hk with hlt | ⟨heq, hpc⟩
  · cases threadMoves_of_moves hm t with
    | leave o _ _ hl => exact .inl (by omega)
    | same _ _ hl => exact hleft hl hlt
    | other _ _ _ _ hl => exact hleft hl hlt
    | read _ _ _ hl _ _ => exact hleft hl hlt
    | release _ _ _ _ hl => exact hleft hl hlt
    | stay _ _ _ _ _ hl => exact hleft hl hlt
    | sleep _ _ _ _ _ hl => exact hleft hl hlt
    | test _ _ _ _ hl => exact hleft hl hlt
  · cases threadMoves_of_moves hm t with
    | same hs _ hl => exact hwaiting hl heq (by rw [hs]; exact hpc)
    | other _ hnone _ _ _ => exact absurd hnone (my_order?_of_isWaiting hpc)
    | read hout _ _ _ _ _ =>
      rw [hout] at hpc
      cases hpc
    | release _ hunlock _ _ _ =>
      rw [hunlock] at hpc
      cases hpc
    | leave o _ _ hl => exact .inl (by omega)
    | stay _ _ hs _ _ hl => exact hwaiting hl heq (by rw [hs]; rfl)
    | sleep _ _ hs _ _ hl => exact hwaiting hl heq (by rw [hs]; rfl)
    | test _ _ hs _ hl => exact hwaiting hl heq (by rw [hs]; rfl)

theorem Passed.step (h : Passed s w) (hrec : Recorded s w) (hm : Moves s a s')
    (hw : NoWrap a s) : Passed s' w := by
  intro t o hk ho
  have hmono := atom_mono hm hw
  rcases epoch_of_moves hm ho with ⟨hpc, -, hl⟩ | ⟨hout, -, -, hl, -⟩
  · rw [hl] at hk
    exact Nat.lt_of_lt_of_le (h t o hk hpc) hmono
  · -- a thread that begins to wait has left the wait that was recorded
    rw [hl] at hk
    rcases hrec t _ hk with hlt | ⟨-, hwait⟩
    · omega
    · rw [hout] at hwait
      cases hwait

/-- Of those who were waiting, somebody who is not asleep in that wait is free. -/
theorem exists_free (hrec : Recorded s w) (hpassed : Passed s w) (hne : ∃ t, w t ≠ none)
    (hall : ¬AllAsleep s w) : ∃ t k, w t = some k ∧ Free s t k := by
  obtain ⟨v, hv⟩ := not_forall.mp fun h => hall ⟨hne, h⟩
  rw [not_or] at hv
  obtain ⟨k, hk⟩ := Option.ne_none_iff_exists'.mp hv.1
  refine ⟨v, k, hk, ?_⟩
  rcases hrec v k hk with hlt | ⟨heq, hwait⟩
  · exact .inl hlt
  · have hnot : (s.pc v).isAsleep = false :=
      Bool.eq_false_iff.mpr fun h => hv.2 ⟨hk.trans (by rw [heq]), h⟩
    rw [heq] at hk
    -- awake in the loop, and its epoch has passed
    cases hpc : s.pc v with
    | test o => exact .inr ⟨heq, o, .inl hpc, hpassed v o hk (by rw [hpc]; rfl)⟩
    | wait o => exact .inr ⟨heq, o, .inr hpc, hpassed v o hk (by rw [hpc]; rfl)⟩
    | asleep o =>
      rw [hpc] at hnot
      cases hnot
    | _ =>
      rw [hpc] at hwait
      cases hwait

/-- A thread inside a notification was there before the step, or has just begun, or has
just done its `fetch_add`. -/
theorem notifier_of_moves {pc : Pc n} (hm : Moves s a s') (hpc : s'.pc t = pc)
    (hin : pc.isNotifying = true) :
    s.pc t = pc ∨ (∃ all, pc = .bump all s.waiters) ∨
      ∃ all w, a = .bump t ∧ s.pc t = .bump all w ∧ pc = .wake all w := by
  -- the thread that moved is not where a notification is
  have hother : ∀ {p : Fin n} {f : Fin n → Pc n} {next : Pc n}, update f p next t = pc →
      next.isNotifying = false → f t = pc := by
    intro p f next h hnext
    rcases Places.eq_of_update h with ⟨-, rfl⟩ | ⟨-, h⟩
    · rw [hin] at hnext
      cases hnext
    · exact h
  cases hm with
  | lock => exact .inl hpc
  | unlock => exact .inl hpc
  | notify _ =>
    rcases Places.eq_of_update hpc with ⟨-, rfl⟩ | ⟨-, h⟩
    · exact .inr (.inl ⟨_, rfl⟩)
    · exact .inl h
  | bump hbump =>
    rcases Places.eq_of_update hpc with ⟨rfl, rfl⟩ | ⟨-, h⟩
    · exact .inr (.inr ⟨_, _, rfl, hbump, rfl⟩)
    · exact .inl h
  | wakeOne _ _ => exact .inl (hother (hother hpc rfl) rfl)
  -- the sleepers that are woken are not in a notification either
  | @wakeAll p w _ =>
    dsimp only at hpc
    split at hpc
    · rw [← hpc] at hin
      cases hin
    · cases ht : s.pc t with
      | asleep o =>
        rw [ht] at hpc
        rw [← hpc] at hin
        cases hin
      | _ =>
        rw [ht] at hpc
        exact .inl hpc
  | _ => exact .inl (hother hpc rfl)

theorem Inv.behind_step (h : Inv s) (hm : Moves s a s') (hw : NoWrap a s) (t : Fin n)
    (o : UInt64) (ho : (s'.pc t).my_order? = some o) : o.toNat ≤ s'.atom_.toNat := by
  have hmono := atom_mono hm hw
  rcases epoch_of_moves hm ho with ⟨hpc, -⟩ | ⟨-, rfl, -, -, hatom, -⟩
  · exact Nat.le_trans (h.behind t o hpc) hmono
  · rw [hatom, UInt32.toNat_toUInt64]

theorem recorded_waiters (s : State n) : Recorded s s.waiters := by
  intro t k hk
  simp only [State.waiters, Option.ite_none_right_eq_some, Option.some.injEq] at hk
  exact .inr ⟨hk.2.symm, hk.1⟩

/-- The `fetch_add` passes every epoch that is held. -/
theorem Inv.passed_bump (h : Inv s) (hm : Moves s (.bump t) s') (hw : NoWrap (.bump t) s) :
    Passed s' w := by
  intro v o _ ho
  cases hm with
  | bump _ =>
    have hatom : (s.atom_ + 1).toNat = s.atom_.toNat + 1 := by
      rw [UInt32.toNat_add]
      exact Nat.mod_eq_of_lt (hw rfl)
    show o.toNat < (s.atom_ + 1).toNat
    -- `behind` becomes strict
    rw [hatom, Nat.lt_succ_iff]
    by_cases hv : v = t
    · rw [hv] at ho
      simp only [Function.update_self] at ho
      cases ho
    · simp only [Function.update_of_ne hv] at ho
      exact h.behind v o ho

/-- A `NotifyOne` that completes has freed one of those who were waiting, unless a newcomer
has absorbed its wakeup. -/
theorem Inv.notified_step (h : Inv s) (hm : Moves s a s') (hw : NoWrap a s)
    (hold : absorbs a s = false) (w : Waiters n) (hmem : w ∈ s'.notified)
    (hne : ∃ t, w t ≠ none) : ∃ t k, w t = some k ∧ Free s' t k := by
  have hkeep : (∃ t k, w t = some k ∧ Free s t k) → ∃ t k, w t = some k ∧ Free s' t k := by
    rintro ⟨t, k, hk, hfree⟩
    exact ⟨t, k, hk, hfree.step hm hw⟩
  cases hm with
  | @wakeOne t u w' o hpc hu =>
    rcases List.mem_cons.mp hmem with rfl | hmem
    · obtain ⟨hrec, hpassed⟩ := h.wake t _ _ hpc
      by_cases hall : AllAsleep s w
      · -- the one that is woken was waiting
        have hwu : w u ≠ none := by
          intro hnone
          simp only [absorbs, hpc, hnone, Option.isNone_none, Bool.and_true,
            decide_eq_false_iff_not] at hold
          exact hold hall
        have hk := ((hall.2 u).resolve_left hwu).1
        have hlt := hpassed u o hk (by rw [hu]; rfl)
        exact ⟨u, s.left u, hk, .inr ⟨rfl, o, .inl (Function.update_self _ _ _), hlt⟩⟩
      -- somebody who was waiting is awake without this wakeup
      · exact hkeep (exists_free hrec hpassed hne hall)
    · exact hkeep (h.notified w hmem hne)
  -- nobody is asleep, so neither is anybody who was waiting
  | @wakeNone t w' hpc hno =>
    rcases List.mem_cons.mp hmem with rfl | hmem
    · obtain ⟨hrec, hpassed⟩ := h.wake t _ _ hpc
      refine hkeep (exists_free hrec hpassed hne fun hall => ?_)
      obtain ⟨v, hv⟩ := hne
      have hasleep := ((hall.2 v).resolve_left hv).2
      rw [hno v] at hasleep
      cases hasleep
    · exact hkeep (h.notified w hmem hne)
  | _ => exact hkeep (h.notified w hmem hne)

theorem Inv.step (h : Inv s) (hm : Moves s a s') (hw : NoWrap a s)
    (hold : absorbs a s = false) : Inv s' := by
  refine ⟨h.behind_step hm hw, fun t all w hpc => ?_, fun t all w hpc => ?_,
    h.notified_step hm hw hold⟩
  · rcases notifier_of_moves hm hpc rfl with hpc | ⟨all', heq⟩ | ⟨_, _, _, _, heq⟩
    · exact (h.bump t all w hpc).step hm
    · simp only [Pc.bump.injEq] at heq
      rw [heq.2]
      exact (recorded_waiters s).step hm
    · cases heq
  -- past its `fetch_add` a notification has passed the epochs of its waiters
  · rcases notifier_of_moves hm hpc rfl with hpc | ⟨_, heq⟩ | ⟨all', w', rfl, hbump, heq⟩
    · obtain ⟨hrec, hpassed⟩ := h.wake t all w hpc
      exact ⟨hrec.step hm, hpassed.step hrec hm hw⟩
    · cases heq
    · simp only [Pc.wake.injEq] at heq
      rw [heq.2]
      exact ⟨(h.bump t all' w' hbump).step hm, h.passed_bump hm hw⟩

end Inv

theorem inv_of_reachableVia {s : State n}
    (hs : (machine n).ReachableVia (fun a s => NoWrap a s ∧ absorbs a s = false) s) : Inv s := by
  refine hs.invariant (fun s hinit => ?_)
    fun _ _ _ h hc hst => h.step (moves_of_step hst) hc.1 hc.2
  subst hinit
  exact ⟨(fun _ _ h => by cases h), (fun _ _ _ h => by cases h), (fun _ _ _ h => by cases h),
    fun _ h => by cases h⟩

/-- **When a notification is not lost.** As long as no newcomer absorbs the wakeup of a
`NotifyOne`, there is no state in which a `NotifyOne` has completed, somebody was waiting
when it began, everybody who was is asleep in that wait, and no wakeup is on its way. -/
theorem not_lost_of_not_absorbed {s : State n}
    (hs : (machine n).ReachableVia (fun a s => NoWrap a s ∧ absorbs a s = false) s) :
    ∀ w ∈ s.notified, ¬Lost s w := by
  rintro w hmem ⟨⟨hne, hall⟩, -⟩
  obtain ⟨t, k, hk, hfree⟩ := (inv_of_reachableVia hs).notified w hmem hne
  obtain ⟨heq, hasleep⟩ := (hall t).resolve_left (by rw [hk]; simp)
  rw [hk] at heq
  cases heq
  rcases hfree with hlt | ⟨-, o, ho | ho, -⟩
  · exact Nat.lt_irrefl _ hlt
  · rw [ho] at hasleep
    cases hasleep
  · rw [ho] at hasleep
    cases hasleep

/-- Conversely, with no other notification under way an absorbed wakeup is a lost one. -/
theorem lost_of_absorbed {s s' : State n} {t u : Fin n}
    (hst : step (.wakeOne t (some u)) s = some s') (habs : absorbs (.wakeOne t (some u)) s = true)
    (honly : ∀ v, v ≠ t → (s.pc v).isNotifying = false) : ∃ w ∈ s'.notified, Lost s' w := by
  have hm := moves_of_step hst
  cases hm with
  | @wakeOne _ _ w o hpc hu =>
    simp only [absorbs, hpc, Bool.and_eq_true, decide_eq_true_eq, Option.isNone_iff_eq_none] at habs
    obtain ⟨⟨hne, hall⟩, hnone⟩ := habs
    refine ⟨w, List.mem_cons_self, ⟨hne, fun v => ?_⟩, fun v => ?_⟩
    -- the sleeper that was woken was not waiting, and the others still sleep
    · by_cases hv : v = u
      · rw [hv]
        exact .inl hnone
      · refine (hall v).imp id fun hasleep => ⟨hasleep.1, ?_⟩
        have hvt : v ≠ t := by
          rintro rfl
          rw [hpc] at hasleep
          cases hasleep.2
        dsimp only
        rw [Function.update_of_ne hv, Function.update_of_ne hvt]
        exact hasleep.2
    · dsimp only
      by_cases hv : v = u
      · rw [hv, Function.update_self]
        rfl
      · rw [Function.update_of_ne hv]
        by_cases hvt : v = t
        · rw [hvt, Function.update_self]
          rfl
        · rw [Function.update_of_ne hvt]
          exact honly v hvt

/-- Thread 0 waits, thread 1 notifies one, thread 2 starts to wait between the `fetch_add`
and the `WakeOne`, is woken and goes back to sleep. -/
theorem lost_notification : ∃ s : State 3, (machine 3).ReachableVia NoWrap s ∧
    ∃ w ∈ s.notified, Lost s w := by
  obtain ⟨s, hs, hp⟩ := Machine.ReachableVia.exec_any (M := machine 3) (C := NoWrap)
    (s := State.new 3) (.init rfl)
    [.lock 0, .read 0, .release 0, .test 0, .wait 0, .notify 1 false, .bump 1,
      .lock 2, .read 2, .release 2, .test 2, .wait 2, .wakeOne 1 (some 2), .test 2, .wait 2]
    (fun s => decide (∃ w ∈ s.notified, Lost s w)) (by decide)
  exact ⟨s, hs, of_decide_eq_true hp⟩

/-- With thread 0 woken in its place the notification is not lost. -/
theorem not_lost_of_not_absorbed_two : ∃ s : State 3,
    (machine 3).ReachableVia (fun a s => NoWrap a s ∧ absorbs a s = false) s ∧
    (∃ w ∈ s.notified, w 0 = some 0) ∧ ∀ w ∈ s.notified, ¬Lost s w := by
  obtain ⟨s, hs, hp⟩ := Machine.ReachableVia.exec_any (M := machine 3)
    (C := fun a s => NoWrap a s ∧ absorbs a s = false) (s := State.new 3) (.init rfl)
    [.lock 0, .read 0, .release 0, .test 0, .wait 0, .notify 1 false, .bump 1,
      .lock 2, .read 2, .release 2, .test 2, .wait 2, .wakeOne 1 (some 0)]
    (fun s => decide (∃ w ∈ s.notified, w 0 = some 0)) (by decide)
  exact ⟨s, hs, of_decide_eq_true hp, not_lost_of_not_absorbed hs⟩

end Exe.Primitives.CondVar
