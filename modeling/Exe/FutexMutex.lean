/-
`primitives::Mutex`: the mutex on a futex.

The word is `Unlocked`, `Locked`, or `Waiting` when somebody may be asleep on it. The
fast path of `Lock` takes a free word as `Locked` and thereby forgets who sleeps; what
saves the sleepers is that an `Unlock` which has exchanged `Waiting` away is still going
to wake one of them, and that a woken thread exchanges `Waiting` again, whether or not it
gets the mutex.

# Conventions

* An atomic access to the word is one step, and so is a futex operation. `PrepareWake`
  takes the address of the word and is no step.
* `futex::Wait` compares and goes to sleep in one step, and may return without a reason.
  `WakeOne` wakes whichever sleeper the action names.
-/
import Exe.Machine
import Mathlib.Data.Fintype.Basic

set_option autoImplicit false

namespace Exe.Primitives.Mutex

open Function (update)

/-! ## The model -/

inductive MutexStates
  | Unlocked
  | Locked
  | Waiting
  deriving DecidableEq

/-- Where a thread is: outside `Lock` and `Unlock` without the mutex, before the `exchange`
of the slow path, before `futex::Wait`, asleep in it, between the return of `Lock` and the
`exchange` of `Unlock`, or before `WakeOne`. -/
inductive Pc
  | outside
  | exchange
  | wait
  | asleep
  | critical
  | wake
  deriving DecidableEq

structure State (n : ℕ) where
  is_vacant_ : MutexStates
  pc : Fin n → Pc

def State.new (n : ℕ) : State n where
  is_vacant_ := .Unlocked
  pc _ := .outside

/-- Who moves. `wake t u` is the `WakeOne` of `t` that finds the sleeper `u`, or nobody. -/
inductive Action (n : ℕ)
  | lock (t : Fin n)
  | exchange (t : Fin n)
  | wait (t : Fin n)
  | spurious (t : Fin n)
  | unlock (t : Fin n)
  | wake (t : Fin n) (u : Option (Fin n))

variable {n : ℕ}

/-- The `compare_exchange_strong` of `Lock`. -/
def Lock (t : Fin n) (s : State n) : State n :=
  if s.is_vacant_ = .Unlocked then
    { s with is_vacant_ := .Locked, pc := update s.pc t .critical }
  else { s with pc := update s.pc t .exchange }

/-- The loop test `is_vacant_.exchange(Waiting) != Unlocked`. -/
def exchange (t : Fin n) (s : State n) : State n :=
  { s with
    -- whoever gets the mutex here leaves it marked, also when nobody else waits
    is_vacant_ := .Waiting
    pc := update s.pc t (if s.is_vacant_ ≠ .Unlocked then .wait else .critical) }

/-- `futex::Wait(is_vacant_, Waiting)`. -/
def Wait (t : Fin n) (s : State n) : State n :=
  { s with pc := update s.pc t (if s.is_vacant_ = .Waiting then .asleep else .exchange) }

/-- `Unlock` up to its test. -/
def Unlock (t : Fin n) (s : State n) : State n :=
  { s with
    is_vacant_ := .Unlocked
    -- what the `exchange` has read decides whether to wake
    pc := update s.pc t (if s.is_vacant_ = .Waiting then .wake else .outside) }

/-- `futex::WakeOne`: with a sleeper around it wakes one. -/
def WakeOne (t : Fin n) (u : Option (Fin n)) (s : State n) : Option (State n) :=
  match u with
  | some u =>
    if s.pc u = .asleep then
      some { s with pc := update (update s.pc t .outside) u .exchange }
    else none
  | none =>
    if ∀ v, s.pc v ≠ .asleep then some { s with pc := update s.pc t .outside } else none

def step (a : Action n) (s : State n) : Option (State n) :=
  match a with
  | .lock t => if s.pc t = .outside then some (Lock t s) else none
  | .exchange t => if s.pc t = .exchange then some (Mutex.exchange t s) else none
  | .wait t => if s.pc t = .wait then some (Wait t s) else none
  | .spurious t =>
    if s.pc t = .asleep then some { s with pc := update s.pc t .exchange } else none
  | .unlock t => if s.pc t = .critical then some (Unlock t s) else none
  | .wake t u => if s.pc t = .wake then WakeOne t u s else none

def machine (n : ℕ) : Machine (State n) (Action n) where
  init s := s = .new n
  step := step

/-! ## What a step does -/

/-- A step moves one thread from `old` to `new`, and `WakeOne` moves a sleeper besides. -/
inductive Moves (s : State n) : Action n → State n → Prop
  | acquire {t : Fin n} (hpc : s.pc t = .outside) (hfree : s.is_vacant_ = .Unlocked) :
    Moves s (.lock t) ⟨.Locked, update s.pc t .critical⟩
  | slow {t : Fin n} (hpc : s.pc t = .outside) (htaken : s.is_vacant_ ≠ .Unlocked) :
    Moves s (.lock t) ⟨s.is_vacant_, update s.pc t .exchange⟩
  | contend {t : Fin n} (hpc : s.pc t = .exchange) (htaken : s.is_vacant_ ≠ .Unlocked) :
    Moves s (.exchange t) ⟨.Waiting, update s.pc t .wait⟩
  | take {t : Fin n} (hpc : s.pc t = .exchange) (hfree : s.is_vacant_ = .Unlocked) :
    Moves s (.exchange t) ⟨.Waiting, update s.pc t .critical⟩
  | sleep {t : Fin n} (hpc : s.pc t = .wait) (hword : s.is_vacant_ = .Waiting) :
    Moves s (.wait t) ⟨s.is_vacant_, update s.pc t .asleep⟩
  | retry {t : Fin n} (hpc : s.pc t = .wait) (hword : s.is_vacant_ ≠ .Waiting) :
    Moves s (.wait t) ⟨s.is_vacant_, update s.pc t .exchange⟩
  | spurious {t : Fin n} (hpc : s.pc t = .asleep) :
    Moves s (.spurious t) ⟨s.is_vacant_, update s.pc t .exchange⟩
  | release {t : Fin n} (hpc : s.pc t = .critical) (hword : s.is_vacant_ ≠ .Waiting) :
    Moves s (.unlock t) ⟨.Unlocked, update s.pc t .outside⟩
  | handOver {t : Fin n} (hpc : s.pc t = .critical) (hword : s.is_vacant_ = .Waiting) :
    Moves s (.unlock t) ⟨.Unlocked, update s.pc t .wake⟩
  | wakeOne {t u : Fin n} (hpc : s.pc t = .wake) (hu : s.pc u = .asleep) :
    Moves s (.wake t (some u)) ⟨s.is_vacant_, update (update s.pc t .outside) u .exchange⟩
  | wakeNone {t : Fin n} (hpc : s.pc t = .wake) (hno : ∀ v, s.pc v ≠ .asleep) :
    Moves s (.wake t none) ⟨s.is_vacant_, update s.pc t .outside⟩

theorem moves_of_step {a : Action n} {s s' : State n} (h : step a s = some s') :
    Moves s a s' := by
  cases a with
  | lock t =>
    simp only [step, Option.ite_none_right_eq_some, Option.some.injEq] at h
    obtain ⟨hpc, rfl⟩ := h
    unfold Lock
    split
    · exact .acquire hpc ‹_›
    · exact .slow hpc ‹_›
  | exchange t =>
    simp only [step, Option.ite_none_right_eq_some, Option.some.injEq] at h
    obtain ⟨hpc, rfl⟩ := h
    unfold Mutex.exchange
    split
    · exact .contend hpc ‹_›
    · exact .take hpc (not_not.mp ‹_›)
  | wait t =>
    simp only [step, Option.ite_none_right_eq_some, Option.some.injEq] at h
    obtain ⟨hpc, rfl⟩ := h
    unfold Wait
    split
    · exact .sleep hpc ‹_›
    · exact .retry hpc ‹_›
  | spurious t =>
    simp only [step, Option.ite_none_right_eq_some, Option.some.injEq] at h
    obtain ⟨hpc, rfl⟩ := h
    exact .spurious hpc
  | unlock t =>
    simp only [step, Option.ite_none_right_eq_some, Option.some.injEq] at h
    obtain ⟨hpc, rfl⟩ := h
    unfold Unlock
    split
    · exact .handOver hpc ‹_›
    · exact .release hpc ‹_›
  | wake t u =>
    simp only [step, Option.ite_none_right_eq_some] at h
    obtain ⟨hpc, h⟩ := h
    cases u with
    | some u =>
      simp only [WakeOne, Option.ite_none_right_eq_some, Option.some.injEq] at h
      obtain ⟨hu, rfl⟩ := h
      exact .wakeOne hpc hu
    | none =>
      simp only [WakeOne, Option.ite_none_right_eq_some, Option.some.injEq] at h
      obtain ⟨hno, rfl⟩ := h
      exact .wakeNone hpc hno

/-! ## Exclusion -/

/-- At most one thread is in its critical section, and the word says so. -/
structure Exclusive (s : State n) : Prop where
  one : ∀ t u, s.pc t = .critical → s.pc u = .critical → t = u
  taken : ∀ t, s.pc t = .critical → s.is_vacant_ ≠ .Unlocked

section Exclusive

variable {s : State n} {word : MutexStates} {t : Fin n} {next : Pc}

/-- A thread enters while the word is free: nobody else is inside. -/
theorem Exclusive.enter (h : Exclusive s) (hfree : s.is_vacant_ = .Unlocked)
    (hword : word ≠ .Unlocked) : Exclusive ⟨word, update s.pc t .critical⟩ := by
  have hnobody : ∀ u, s.pc u ≠ .critical := fun u hu => h.taken u hu hfree
  have honly : ∀ u, update s.pc t .critical u = .critical → u = t := by
    intro u hu
    by_contra hne
    rw [Function.update_of_ne hne] at hu
    exact hnobody u hu
  refine ⟨fun u v hu hv => ?_, fun _ _ => hword⟩
  rw [honly u hu, honly v hv]

/-- A thread moves outside the critical section; the word may be marked meanwhile. -/
theorem Exclusive.move (h : Exclusive s) (hnext : next ≠ .critical)
    (hword : word ≠ .Unlocked ∨ word = s.is_vacant_) :
    Exclusive ⟨word, update s.pc t next⟩ := by
  -- whoever is inside afterwards was inside before
  have hold : ∀ u, update s.pc t next u = .critical → s.pc u = .critical := by
    intro u hu
    by_cases hut : u = t
    · rw [hut, Function.update_self] at hu
      exact absurd hu hnext
    · rwa [Function.update_of_ne hut] at hu
  refine ⟨fun u v hu hv => h.one u v (hold u hu) (hold v hv), fun u hu => ?_⟩
  rcases hword with hword | hword
  · exact hword
  · show word ≠ .Unlocked
    rw [hword]
    exact h.taken u (hold u hu)

/-- The one thread inside leaves. -/
theorem Exclusive.leave (h : Exclusive s) (ht : s.pc t = .critical) (hnext : next ≠ .critical) :
    Exclusive ⟨word, update s.pc t next⟩ := by
  have hnobody : ∀ u, update s.pc t next u ≠ .critical := by
    intro u hu
    by_cases hut : u = t
    · rw [hut, Function.update_self] at hu
      exact hnext hu
    · rw [Function.update_of_ne hut] at hu
      exact hut (h.one u t hu ht)
  exact ⟨fun u _ hu => absurd hu (hnobody u), fun u hu => absurd hu (hnobody u)⟩

theorem Exclusive.step {s' : State n} {a : Action n} (h : Exclusive s) (hm : Moves s a s') :
    Exclusive s' := by
  cases hm with
  | acquire _ hfree => exact h.enter hfree (by decide)
  | slow _ _ => exact h.move (by decide) (.inr rfl)
  | contend _ _ => exact h.move (by decide) (.inl (by decide))
  | take _ hfree => exact h.enter hfree (by decide)
  | sleep _ _ => exact h.move (by decide) (.inr rfl)
  | retry _ _ => exact h.move (by decide) (.inr rfl)
  | spurious _ => exact h.move (by decide) (.inr rfl)
  | release hpc _ => exact h.leave hpc (by decide)
  | handOver hpc _ => exact h.leave hpc (by decide)
  -- two threads move, neither from nor into the critical section
  | @wakeOne t u _ _ =>
    have hmid : Exclusive ⟨s.is_vacant_, update s.pc t .outside⟩ := h.move (by decide) (.inr rfl)
    exact hmid.move (by decide) (.inr rfl)
  | wakeNone _ _ => exact h.move (by decide) (.inr rfl)

end Exclusive

theorem exclusive_of_reachable {s : State n} (hs : (machine n).Reachable s) : Exclusive s := by
  refine hs.invariant (fun s hinit => ?_) fun _ _ _ h _ hst => h.step (moves_of_step hst)
  subst hinit
  exact ⟨(fun _ _ h => by cases h), fun _ h => by cases h⟩

/-! ## Sleepers -/

/-- Somebody sleeps only on a marked word, or while a wakeup or a new mark is on its way. -/
def Guarded (s : State n) : Prop :=
  ∀ t, s.pc t = .asleep → s.is_vacant_ = .Waiting ∨ ∃ u, s.pc u = .wake ∨ s.pc u = .exchange

section Guarded

variable {s : State n} {word : MutexStates} {t : Fin n} {next : Pc}

/-- A thread that gets to `WakeOne` or to the `exchange` guards everybody. -/
theorem guarded_of_pc {s : State n} {u : Fin n} (hu : s.pc u = .wake ∨ s.pc u = .exchange) :
    Guarded s :=
  fun _ _ => .inr ⟨u, hu⟩

theorem guarded_of_word {s : State n} (hword : s.is_vacant_ = .Waiting) : Guarded s :=
  fun _ _ => .inl hword

/-- A thread that guarded nobody moves, and does not fall asleep. -/
theorem Guarded.move (h : Guarded s) (hold : s.pc t ≠ .wake ∧ s.pc t ≠ .exchange)
    (hnext : next ≠ .asleep) (hword : s.is_vacant_ = .Waiting → word = .Waiting) :
    Guarded ⟨word, update s.pc t next⟩ := by
  intro v hv
  dsimp only at hv
  have hvt : v ≠ t := by
    rintro rfl
    rw [Function.update_self] at hv
    exact hnext hv
  rw [Function.update_of_ne hvt] at hv
  rcases h v hv with hw | ⟨u, hu⟩
  · exact .inl (hword hw)
  -- the guard of `v` is not the thread that moves
  · have hut : u ≠ t := by
      rintro rfl
      exact hu.elim hold.1 hold.2
    refine .inr ⟨u, ?_⟩
    dsimp only
    rwa [Function.update_of_ne hut]

theorem Guarded.step {s' : State n} {a : Action n} (h : Guarded s) (hm : Moves s a s') :
    Guarded s' := by
  cases hm with
  | acquire hpc hfree =>
    -- the fast path never runs on a marked word
    refine h.move (by rw [hpc]; decide) (by decide) fun hw => ?_
    rw [hfree] at hw
    cases hw
  | slow _ _ => exact guarded_of_pc (.inr (Function.update_self _ _ _))
  | contend _ _ => exact guarded_of_word rfl
  -- the slow path marks the word, whether it gets the mutex or not
  | take _ _ => exact guarded_of_word rfl
  | sleep _ hword => exact guarded_of_word hword
  | retry _ _ => exact guarded_of_pc (.inr (Function.update_self _ _ _))
  | spurious _ => exact guarded_of_pc (.inr (Function.update_self _ _ _))
  -- an unmarked word guards nobody: the guard is a thread, and it stays
  | release hpc hword =>
    exact h.move (by rw [hpc]; decide) (by decide) fun hw => absurd hw hword
  -- the mark is taken away, and its `WakeOne` is to come
  | handOver _ _ => exact guarded_of_pc (.inl (Function.update_self _ _ _))
  | wakeOne _ _ => exact guarded_of_pc (.inr (Function.update_self _ _ _))
  | @wakeNone t _ hno =>
    -- nobody is left to guard
    intro v hv
    dsimp only at hv
    by_cases hvt : v = t
    · rw [hvt, Function.update_self] at hv
      cases hv
    · rw [Function.update_of_ne hvt] at hv
      exact absurd hv (hno v)

end Guarded

theorem guarded_of_reachable {s : State n} (hs : (machine n).Reachable s) : Guarded s := by
  refine hs.invariant (fun s hinit => ?_) fun _ _ _ h _ hst => h.step (moves_of_step hst)
  subst hinit
  exact fun _ h => by cases h

/-- `u` is awake in the slow path and its next step exchanges `Waiting`: until then,
whatever the others do, it neither sleeps nor acquires. -/
def WillExchange (s : State n) (u : Fin n) : Prop :=
  s.pc u = .exchange ∧ ∀ a s', step a s = some s' →
    s'.pc u = .exchange ∨ a = .exchange u ∧ s'.is_vacant_ = .Waiting

/-- Nobody else moves a thread that is awake. -/
theorem willExchange {s : State n} {u : Fin n} (hu : s.pc u = .exchange) : WillExchange s u := by
  have hstay : ∀ t next, s.pc t ≠ .exchange → update s.pc t next u = .exchange := by
    intro t next ht
    have hut : u ≠ t := by
      rintro rfl
      exact ht hu
    rwa [Function.update_of_ne hut]
  have hother : ∀ t next, update s.pc t next u = .exchange ∨ u = t := by
    intro t next
    by_cases hut : u = t
    · exact .inr hut
    · exact .inl (by rwa [Function.update_of_ne hut])
  refine ⟨hu, fun a s' h => ?_⟩
  have hm := moves_of_step h
  cases hm with
  | acquire hpc _ => exact .inl (hstay _ _ (by rw [hpc]; decide))
  | slow hpc _ => exact .inl (hstay _ _ (by rw [hpc]; decide))
  -- its own step: both outcomes of `exchange` leave `Waiting`
  | contend _ _ => exact (hother _ .wait).imp id fun hut => ⟨by rw [hut], rfl⟩
  | take _ _ => exact (hother _ .critical).imp id fun hut => ⟨by rw [hut], rfl⟩
  | sleep hpc _ => exact .inl (hstay _ _ (by rw [hpc]; decide))
  | retry hpc _ => exact .inl (hstay _ _ (by rw [hpc]; decide))
  | spurious hpc => exact .inl (hstay _ _ (by rw [hpc]; decide))
  | release hpc _ => exact .inl (hstay _ _ (by rw [hpc]; decide))
  | handOver hpc _ => exact .inl (hstay _ _ (by rw [hpc]; decide))
  | @wakeOne t v hpc hv =>
    -- `WakeOne` moves somebody who is asleep
    have huv : u ≠ v := by
      rintro rfl
      rw [hu] at hv
      cases hv
    refine .inl ?_
    show update (update s.pc t .outside) v .exchange u = .exchange
    rw [Function.update_of_ne huv]
    exact hstay _ _ (by rw [hpc]; decide)
  | wakeNone hpc _ => exact .inl (hstay _ _ (by rw [hpc]; decide))

/-- **`primitives::Mutex` excludes and strands no sleeper.** At most one thread is between
the return of its `Lock` and the `exchange` of its `Unlock`. While a thread sleeps, the word
is marked, or an `Unlock` has taken the mark away and has yet to wake, or a thread that is
awake will mark the word before it sleeps or acquires. So a free mutex with a sleeper has a
thread in the middle of an operation. -/
theorem excludes_and_strands_nobody {s : State n} (hs : (machine n).Reachable s) :
    (∀ t u, s.pc t = .critical → s.pc u = .critical → t = u) ∧
    (∀ t, s.pc t = .asleep →
      s.is_vacant_ = .Waiting ∨ (∃ u, s.pc u = .wake) ∨ ∃ u, WillExchange s u) ∧
    ¬(s.is_vacant_ = .Unlocked ∧ (∃ t, s.pc t = .asleep) ∧
      ∀ u, s.pc u = .outside ∨ s.pc u = .critical ∨ s.pc u = .asleep) := by
  have hguard := guarded_of_reachable hs
  refine ⟨(exclusive_of_reachable hs).one, fun t ht => ?_, ?_⟩
  · rcases hguard t ht with hword | ⟨u, hu | hu⟩
    · exact .inl hword
    · exact .inr (.inl ⟨u, hu⟩)
    · exact .inr (.inr ⟨u, willExchange hu⟩)
  · rintro ⟨hfree, ⟨t, ht⟩, hquiet⟩
    -- the sleeper has a guard, and as the word is free it is a thread in an operation
    rcases hguard t ht with hword | ⟨u, hu⟩
    · rw [hfree] at hword
      cases hword
    · have hq := hquiet u
      rcases hu with hu | hu
      all_goals
        rw [hu] at hq
        simp at hq

/-- Thread 1 sleeps, thread 0 unlocks and thread 2 takes the free word by the fast path
before thread 0 wakes thread 1: the word is `Locked`, and the wakeup is on its way. -/
theorem excludes_and_strands_nobody_barging : ∃ s : State 3, (machine 3).Reachable s ∧
    s.pc 1 = .asleep ∧ s.is_vacant_ = .Locked ∧
    (s.is_vacant_ = .Waiting ∨ (∃ u, s.pc u = .wake) ∨ ∃ u, WillExchange s u) := by
  obtain ⟨s, hs, hp⟩ := Machine.Reachable.exec_any (M := machine 3) (s := State.new 3) (.init rfl)
    [.lock 0, .lock 1, .exchange 1, .wait 1, .unlock 0, .lock 2]
    (fun s => decide (s.pc 1 = .asleep ∧ s.is_vacant_ = .Locked)) (by decide)
  obtain ⟨hpc, hword⟩ := of_decide_eq_true hp
  exact ⟨s, hs, hpc, hword, (excludes_and_strands_nobody hs).2.1 1 hpc⟩

end Exe.Primitives.Mutex
