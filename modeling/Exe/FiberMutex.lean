/-
`fiber::Mutex`.

`Lock` exchanges the flag under the spin lock, and a fiber that finds it set parks in
the wait queue: it switches away with the spin lock held, and the suspend callback links
its node and unlocks. `Unlock` clears the flag and wakes one fiber, which has to win the
flag again: whoever comes first takes it, and the woken fiber may park once more, at
the end of the queue.

# Conventions

* Fibers are of type `φ`. A waiting fiber's node lives on its stack, so a node is its
  fiber.
* A section under the spin lock is one step. `spin_` names the fiber that has switched
  away with the lock held, until its callback has run.
* `holding` is history: the fibers that are between the return of a `Lock` or `TryLock`
  that acquired the mutex and their `Unlock`.
-/
import Exe.Machine
import Exe.Places

set_option autoImplicit false

namespace Exe.Fiber.Mutex

open Function (update)

/-! ## The model -/

/-- Where a fiber is: outside `Lock`, past the switch with the callback not run yet, in the
wait queue, or woken and not back at the flag. -/
inductive Pc
  | running
  | suspending
  | waiting
  | woken
  deriving DecidableEq

variable {φ : Type*} [DecidableEq φ]

structure State (φ : Type*) where
  is_locked_ : Bool
  fibers_ : List φ
  spin_ : Option φ
  pc : φ → Pc
  holding : φ → Bool

def State.new : State φ where
  is_locked_ := false
  fibers_ := []
  spin_ := none
  pc _ := .running
  holding _ := false

/-- `WaitQueue::WakeOne`. -/
def WakeOne (s : State φ) : State φ :=
  match s.fibers_ with
  | [] => s
  | f :: rest => { s with fibers_ := rest, pc := update s.pc f .woken }

/-- The loop test of `Lock`, `std::exchange(is_locked_, true)`, and what follows: `Park`
switches away, or `Lock` returns. -/
def Lock (f : φ) (s : State φ) : State φ :=
  if s.is_locked_ then
    { s with is_locked_ := true, spin_ := some f, pc := update s.pc f .suspending }
  else
    { s with
      is_locked_ := true
      pc := update s.pc f .running
      holding := update s.holding f true }

def TryLock (f : φ) (s : State φ) : State φ :=
  if s.is_locked_ then { s with is_locked_ := true }
  else { s with is_locked_ := true, holding := update s.holding f true }

def Unlock (f : φ) (s : State φ) : State φ :=
  WakeOne { s with is_locked_ := false, holding := update s.holding f false }

/-- The suspend callback of `WaitQueue::Park`. -/
def callback (f : φ) (s : State φ) : State φ :=
  { s with fibers_ := s.fibers_ ++ [f], spin_ := none, pc := update s.pc f .waiting }

/-- What a fiber does next. -/
inductive Action (φ : Type*)
  | lock (f : φ)
  | tryLock (f : φ)
  | unlock (f : φ)
  | callback (f : φ)
  | resume (f : φ)

/-- Only the holder unlocks. -/
def step (a : Action φ) (s : State φ) : Option (State φ) :=
  match a with
  | .lock f => if s.pc f = .running ∧ s.spin_ = none then some (Lock f s) else none
  | .tryLock f => if s.pc f = .running ∧ s.spin_ = none then some (TryLock f s) else none
  | .unlock f =>
    if s.pc f = .running ∧ s.spin_ = none ∧ s.holding f = true then some (Unlock f s) else none
  | .callback f => if s.pc f = .suspending then some (Mutex.callback f s) else none
  | .resume f => if s.pc f = .woken ∧ s.spin_ = none then some (Lock f s) else none

def machine (φ : Type*) [DecidableEq φ] : Machine (State φ) (Action φ) where
  init s := s = .new
  step := step

/-! ## The invariant -/

structure Inv (s : State φ) : Prop where
  nodup : s.fibers_.Nodup
  parked : ∀ f, f ∈ s.fibers_ ↔ s.pc f = .waiting
  suspending : ∀ f, s.pc f = .suspending → s.spin_ = some f
  /-- Whoever switches away has found the flag set. -/
  spin : s.spin_ ≠ none → s.is_locked_ = true
  locked : s.is_locked_ = true → ∃ f, s.holding f = true
  holder : ∀ f, s.holding f = true → s.is_locked_ = true ∧ ∀ g, s.holding g = true → g = f
  wakeup : s.is_locked_ = false → s.fibers_ ≠ [] → ∃ f, s.pc f = .woken

variable {s : State φ} {f : φ}

omit [DecidableEq φ] in
theorem Inv.not_suspending (h : Inv s) (hspin : s.spin_ = none) (g : φ) :
    s.pc g ≠ .suspending := by
  intro hg
  rw [h.suspending g hg] at hspin
  cases hspin

omit [DecidableEq φ] in
/-- A mutex that is free has no holder. -/
theorem Inv.no_holder (h : Inv s) (hfree : s.is_locked_ = false) (g : φ) :
    s.holding g = false := by
  by_contra hg
  rw [Bool.not_eq_false] at hg
  have hlock := (h.holder g hg).1
  rw [hfree] at hlock
  cases hlock

/-- A fiber takes the free mutex. -/
theorem holder_of_free (hno : ∀ g, s.holding g = false) (g : φ)
    (hg : update s.holding f true g = true) :
    g = f ∧ ∀ g', update s.holding f true g' = true → g' = f := by
  have hnot : ∀ g', ¬s.holding g' = true := fun g' => Bool.eq_false_iff.mp (hno g')
  have honly : ∀ g', update s.holding f true g' = true → g' = f :=
    fun _ hg' => Places.only_of_update (P := (· = true)) hnot hg'
  exact ⟨honly g hg, honly⟩

/-- A fiber that is not in the queue gets to another place outside it. -/
theorem Inv.parked_move (h : Inv s) (hf : s.pc f ≠ .waiting) {next : Pc} (hnext : next ≠ .waiting)
    (g : φ) : g ∈ s.fibers_ ↔ update s.pc f next g = .waiting :=
  Places.mem_iff_stay (P := (· = Pc.waiting)) h.parked hf hnext g

/-- Once the fiber between its switch and the callback has moved on, if there is one, there is
none. -/
theorem no_suspending (honly : ∀ g, s.pc g = .suspending → g = f) {next : Pc}
    (hnext : next ≠ .suspending) (g : φ) : update s.pc f next g ≠ .suspending :=
  Places.not_of_update (P := (· = Pc.suspending)) honly hnext g

theorem Inv.lock (h : Inv s) (hspin : s.spin_ = none) (hf : s.pc f ≠ .waiting) :
    Inv (Lock f s) := by
  have hnot := h.not_suspending hspin
  unfold Mutex.Lock
  split
  · rename_i hlocked
    refine ⟨h.nodup, h.parked_move hf (by decide), fun g hg => ?_, fun _ => rfl,
      fun _ => h.locked hlocked, fun g hg => ⟨rfl, (h.holder g hg).2⟩, fun hfree => by cases hfree⟩
    rw [Places.only_of_update (P := (· = Pc.suspending)) hnot hg]
  · rename_i hfree
    have hno := h.no_holder (Bool.eq_false_iff.mpr hfree)
    refine ⟨h.nodup, h.parked_move hf (by decide), fun g hg => ?_, fun _ => rfl,
      fun _ => ⟨f, Function.update_self _ _ _⟩, fun g hg => ⟨rfl, fun g' hg' => ?_⟩,
      fun hfree => by cases hfree⟩
    · exact absurd hg (no_suspending (fun g hg => absurd hg (hnot g)) (by decide) g)
    · obtain ⟨hgf, honly⟩ := holder_of_free hno g hg
      rw [hgf]
      exact honly g' hg'

theorem Inv.tryLock (h : Inv s) : Inv (TryLock f s) := by
  unfold Mutex.TryLock
  split
  · rename_i hlocked
    -- the flag is written, and was set
    exact ⟨h.nodup, h.parked, h.suspending, (fun _ => rfl), (fun _ => h.locked hlocked),
      (fun g hg => ⟨rfl, (h.holder g hg).2⟩), fun hfree => by cases hfree⟩
  · rename_i hfree
    have hno := h.no_holder (Bool.eq_false_iff.mpr hfree)
    refine ⟨h.nodup, h.parked, h.suspending, fun _ => rfl,
      fun _ => ⟨f, Function.update_self _ _ _⟩, fun g hg => ⟨rfl, fun g' hg' => ?_⟩,
      fun hfree => by cases hfree⟩
    obtain ⟨hgf, honly⟩ := holder_of_free hno g hg
    rw [hgf]
    exact honly g' hg'

theorem Inv.unlock (h : Inv s) (hspin : s.spin_ = none) (hf : s.holding f = true) :
    Inv (Unlock f s) := by
  have hnot := h.not_suspending hspin
  have hno : ∀ g, update s.holding f false g = false := by
    intro g
    by_cases hg : g = f
    · rw [hg, Function.update_self]
    · rw [Function.update_of_ne hg]
      by_contra hgh
      rw [Bool.not_eq_false] at hgh
      exact hg ((h.holder f hf).2 g hgh)
  have hnobody : ∀ (g : φ) {P : Prop}, update s.holding f false g = true → P := by
    intro g P hg
    rw [hno g] at hg
    cases hg
  unfold Mutex.Unlock WakeOne
  split
  · rename_i hnil
    dsimp only at hnil
    exact ⟨h.nodup, h.parked, h.suspending, (fun hs => absurd hspin hs), (fun hl => by cases hl),
      (fun g hg => hnobody g hg), fun _ hne => absurd hnil hne⟩
  · rename_i w rest hw
    dsimp only at hw
    have hnd := h.nodup
    rw [hw, List.nodup_cons] at hnd
    have hparked := h.parked
    rw [hw] at hparked
    refine ⟨hnd.2, fun g => ?_, fun g hg => ?_, fun hs => absurd hspin hs, (fun hl => by cases hl),
      fun g hg => hnobody g hg, fun _ _ => ⟨w, Function.update_self _ _ _⟩⟩
    · exact Places.mem_iff_pop (P := (· = Pc.waiting)) hparked hnd.1 (by decide) g
    · exact absurd hg (no_suspending (fun g hg => absurd hg (hnot g)) (by decide) g)

theorem Inv.callback (h : Inv s) (hf : s.pc f = .suspending) : Inv (callback f s) := by
  have hspin := h.suspending f hf
  have hlocked : s.is_locked_ = true := h.spin (by rw [hspin]; simp)
  have hnot : f ∉ s.fibers_ := by
    rw [h.parked f, hf]
    decide
  refine ⟨?_, fun g => ?_, fun g hg => ?_, fun hs => absurd rfl hs, h.locked, h.holder,
    fun hfree => ?_⟩
  · exact Places.nodup_push h.nodup hnot
  · exact Places.mem_iff_push (P := (· = Pc.waiting)) h.parked rfl g
  · -- only the holder of the spin lock is past the switch
    have honly : ∀ g, s.pc g = .suspending → g = f := by
      intro g hg
      have heq := h.suspending g hg
      rw [hspin] at heq
      exact (Option.some.inj heq).symm
    exact absurd hg (no_suspending honly (by decide) g)
  · simp only [Mutex.callback] at hfree
    rw [hlocked] at hfree
    cases hfree

theorem Inv.step {s s' : State φ} {a : Action φ} (h : Inv s) (hs : step a s = some s') :
    Inv s' := by
  cases a with
  | lock f =>
    simp only [Mutex.step] at hs
    split at hs
    · rename_i hg
      cases hs
      exact h.lock hg.2 (by rw [hg.1]; decide)
    · cases hs
  | tryLock f =>
    simp only [Mutex.step] at hs
    split at hs
    · cases hs
      exact h.tryLock
    · cases hs
  | unlock f =>
    simp only [Mutex.step] at hs
    split at hs
    · rename_i hg
      cases hs
      exact h.unlock hg.2.1 hg.2.2
    · cases hs
  | callback f =>
    simp only [Mutex.step] at hs
    split at hs
    · rename_i hf
      cases hs
      exact h.callback hf
    · cases hs
  | resume f =>
    simp only [Mutex.step] at hs
    split at hs
    · rename_i hg
      cases hs
      exact h.lock hg.2 (by rw [hg.1]; decide)
    · cases hs

theorem inv_of_reachable (hs : (machine φ).Reachable s) : Inv s := by
  refine hs.invariant (fun s hinit => ?_) fun _ _ _ h _ hst => h.step hst
  subst hinit
  exact ⟨List.nodup_nil, (fun f => ⟨(fun hf => by cases hf), fun hf => by cases hf⟩),
    (fun f hf => by cases hf), (fun hs => absurd rfl hs), (fun hl => by cases hl),
    (fun f hf => by cases hf), fun _ hne => absurd rfl hne⟩

end Exe.Fiber.Mutex
