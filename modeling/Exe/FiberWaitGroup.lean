/-
`fiber::WaitGroup`, and `fiber::Event` on top of it.

`Wait` looks at the count once and does not look again after it was woken. That is enough,
also when the group is used again before the woken fibers run: a fiber that found the
count non-zero switches away with the spin lock held, so it is in the wait queue before
anybody else gets to the count, and the `Done` that brings the count to zero empties the
queue before it lets go of the lock.

# Conventions

* Fibers are of type `φ`. A waiting fiber's node lives on its stack, so a node is its
  fiber.
* A section under the spin lock is one step. `spin_` names the fiber that has switched
  away with the lock held, until its callback has run.
* The count is a `size_t` and wraps.
* `added`, `done` and `scheduled` are history: what was added, how many `Done`s there were,
  and the fibers that were scheduled, the last one first.
-/
import Exe.Machine
import Exe.Places

set_option autoImplicit false

namespace Exe.Fiber.WaitGroup

open Function (update)

/-! ## The model -/

/-- Where a fiber is: outside `Wait`, past the switch with the callback not run yet, in the
wait queue, or scheduled and not back from `Park`. -/
inductive Pc
  | running
  | suspending
  | waiting
  | woken
  deriving DecidableEq

variable {φ : Type*}

structure State (φ : Type*) where
  count_ : UInt64
  fibers_ : List φ
  spin_ : Option φ
  pc : φ → Pc
  added : ℕ
  done : ℕ
  scheduled : List φ

def State.new : State φ where
  count_ := 0
  fibers_ := []
  spin_ := none
  pc _ := .running
  added := 0
  done := 0
  scheduled := []

def Add (count : UInt64) (s : State φ) : State φ :=
  { s with count_ := s.count_ + count, added := s.added + count.toNat }

variable [DecidableEq φ]

/-- `WaitQueue::WakeOne`. -/
def WakeOne (s : State φ) : State φ :=
  match s.fibers_ with
  | [] => s
  | f :: rest =>
    { s with fibers_ := rest, pc := update s.pc f .woken, scheduled := f :: s.scheduled }

/-- The loop of `WaitQueue::WakeAll`, at most `bound` times around. -/
def WakeWithin : ℕ → State φ → State φ
  | 0, s => s
  | bound + 1, s => if s.fibers_.isEmpty then s else WakeWithin bound (WakeOne s)

/-- `WaitQueue::WakeAll`. -/
def WakeAll (s : State φ) : State φ := WakeWithin s.fibers_.length s

def Done (s : State φ) : State φ :=
  let s := { s with count_ := s.count_ - 1, done := s.done + 1 }
  -- the count that this `Done` has left decides, under the spin lock
  if s.count_ = 0 then WakeAll s else s

/-- `Wait` up to the switch of `Park`, or to its end. -/
def Wait (f : φ) (s : State φ) : State φ :=
  -- the spin lock stays held until the suspend callback
  if s.count_ ≠ 0 then { s with spin_ := some f, pc := update s.pc f .suspending } else s

/-- The suspend callback of `WaitQueue::Park`. -/
def callback (f : φ) (s : State φ) : State φ :=
  { s with fibers_ := s.fibers_ ++ [f], spin_ := none, pc := update s.pc f .waiting }

/-- The rest of `Park` and `Wait`: the lock is taken and let go. -/
def resume (f : φ) (s : State φ) : State φ := { s with pc := update s.pc f .running }

inductive Action (φ : Type*)
  | add (f : φ) (count : UInt64)
  | done (f : φ)
  | wait (f : φ)
  | callback (f : φ)
  | resume (f : φ)

def step (a : Action φ) (s : State φ) : Option (State φ) :=
  match a with
  | .add f count => if s.pc f = .running ∧ s.spin_ = none then some (Add count s) else none
  | .done f => if s.pc f = .running ∧ s.spin_ = none then some (Done s) else none
  | .wait f => if s.pc f = .running ∧ s.spin_ = none then some (Wait f s) else none
  | .callback f => if s.pc f = .suspending then some (WaitGroup.callback f s) else none
  | .resume f => if s.pc f = .woken ∧ s.spin_ = none then some (WaitGroup.resume f s) else none

/-- `Event()`: its `Wait` is that of the group, and its `Fire` is `Done`. -/
def Event.new : State φ := Add 1 .new

/-- A group on its own, or the one inside an `Event`. -/
def machine (φ : Type*) [DecidableEq φ] : Machine (State φ) (Action φ) where
  init s := s = .new ∨ s = Event.new
  step := step

/-- The `Done`s never exceed what was added, and the total stays below `2 ^ 64`. -/
def Balanced (a : Action φ) (s : State φ) : Prop :=
  match a with
  | .add _ count => s.added + count.toNat < 2 ^ 64
  | .done _ => s.done + 1 ≤ s.added
  | _ => True

instance (a : Action φ) (s : State φ) : Decidable (Balanced a s) :=
  match a with
  | .add _ _ => inferInstanceAs (Decidable (_ < _))
  | .done _ => inferInstanceAs (Decidable (_ ≤ _))
  | .wait _ | .callback _ | .resume _ => .isTrue trivial

/-! ## Waking everybody -/

/-- What the loop of `WakeAll` does to the fibers in the queue: each is woken and scheduled
once, in the order of the queue. -/
theorem wakeWithin_eq : ∀ (bound : ℕ) (s : State φ), s.fibers_.length ≤ bound →
    WakeWithin bound s =
      { s with
        fibers_ := []
        pc := fun f => if f ∈ s.fibers_ then .woken else s.pc f
        scheduled := s.fibers_.reverse ++ s.scheduled } := by
  intro bound
  induction bound with
  | zero =>
    intro s hle
    have hnil : s.fibers_ = [] := List.length_eq_zero_iff.mp (Nat.le_zero.mp hle)
    simp only [WakeWithin, hnil, List.not_mem_nil, if_false, List.reverse_nil, List.nil_append]
    rw [← hnil]
  | succ bound ih =>
    intro s hle
    cases hq : s.fibers_ with
    | nil =>
      simp only [WakeWithin, hq, List.isEmpty_nil, if_true, List.not_mem_nil, if_false,
        List.reverse_nil, List.nil_append]
      rw [← hq]
    | cons f rest =>
      rw [hq, List.length_cons] at hle
      -- one time around takes the head of the queue
      have hone : WakeOne s =
          { s with
            fibers_ := rest
            pc := update s.pc f .woken
            scheduled := f :: s.scheduled } := by
        simp only [WakeOne, hq]
      rw [WakeWithin, hq, List.isEmpty_cons, if_neg (by decide), hone,
        ih _ (by dsimp only; omega)]
      congr 1
      · -- `f` is woken first, whether or not it occurs again
        funext g
        by_cases hg : g = f
        · simp [hg]
        · simp [hg]
      · simp

theorem wakeAll_eq (s : State φ) :
    WakeAll s =
      { s with
        fibers_ := []
        pc := fun f => if f ∈ s.fibers_ then .woken else s.pc f
        scheduled := s.fibers_.reverse ++ s.scheduled } :=
  wakeWithin_eq _ _ (Nat.le_refl _)

/-- The loop of the source. -/
theorem wakeAll_loop (s : State φ) :
    WakeAll s = if s.fibers_.isEmpty then s else WakeAll (WakeOne s) := by
  cases hq : s.fibers_ with
  | nil => simp only [WakeAll, hq, List.length_nil, WakeWithin, List.isEmpty_nil, if_true]
  | cons f rest =>
    simp only [WakeAll, WakeOne, hq, List.length_cons, WakeWithin, List.isEmpty_cons,
      Bool.false_eq_true, if_false]

/-! ## The invariant -/

structure Inv (s : State φ) : Prop where
  balance : s.count_.toNat + s.done = s.added
  total : s.added < 2 ^ 64
  nodup : s.fibers_.Nodup
  parked : ∀ f, f ∈ s.fibers_ ↔ s.pc f = .waiting
  suspending : ∀ f, s.pc f = .suspending → s.spin_ = some f
  /-- Whoever switches away has found a count, and nobody changes it meanwhile. -/
  spin : s.spin_ ≠ none → s.count_ ≠ 0
  queue : s.fibers_ ≠ [] → s.count_ ≠ 0

section Inv

variable {s s' : State φ} {f : φ}

omit [DecidableEq φ] in
theorem Inv.add (h : Inv s) {count : UInt64} (hlt : s.added + count.toNat < 2 ^ 64) :
    Inv (Add count s) := by
  have hbal := h.balance
  -- below `2 ^ 64` the addition is exact
  have hadd : (s.count_ + count).toNat = s.count_.toNat + count.toNat := by
    rw [UInt64.toNat_add]
    exact Nat.mod_eq_of_lt (by omega)
  have hmono : s.count_ ≠ 0 → s.count_ + count ≠ 0 := by
    rw [← UInt64.pos_iff_ne_zero, ← UInt64.pos_iff_ne_zero, UInt64.lt_iff_toNat_lt,
      UInt64.lt_iff_toNat_lt, hadd]
    omega
  refine ⟨?_, hlt, h.nodup, h.parked, h.suspending, fun hs => hmono (h.spin hs),
    fun hq => hmono (h.queue hq)⟩
  show (s.count_ + count).toNat + s.done = s.added + count.toNat
  omega

omit [DecidableEq φ] in
theorem Inv.done_balance (h : Inv s) (hle : s.done + 1 ≤ s.added) :
    (s.count_ - 1).toNat + (s.done + 1) = s.added := by
  have hbal := h.balance
  -- there is one left to take: the `Done`s so far are fewer than what was added
  have hone : (1 : UInt64) ≤ s.count_ := by
    rw [UInt64.le_iff_toNat_le]
    show 1 ≤ s.count_.toNat
    omega
  rw [UInt64.toNat_sub_of_le _ _ hone]
  show s.count_.toNat - 1 + (s.done + 1) = s.added
  omega

theorem Inv.done (h : Inv s) (hspin : s.spin_ = none) (hle : s.done + 1 ≤ s.added) :
    Inv (Done s) := by
  have hbal := h.done_balance hle
  unfold WaitGroup.Done
  dsimp only
  split
  · rw [wakeAll_eq]
    refine ⟨hbal, h.total, List.nodup_nil, fun g => ?_, fun g hg => ?_,
      fun hs => absurd hspin hs, fun hq => absurd rfl hq⟩
    · dsimp only
      -- whoever was in the queue is woken, and nobody else was waiting
      by_cases hmem : g ∈ s.fibers_
      · rw [if_pos hmem]
        exact ⟨(fun hg => by cases hg), fun hg => by cases hg⟩
      · rw [if_neg hmem, ← h.parked g]
        exact ⟨(fun hg => by cases hg), fun hg => absurd hg hmem⟩
    · dsimp only at hg
      split at hg
      · cases hg
      · exact h.suspending g hg
  · rename_i hne
    exact ⟨hbal, h.total, h.nodup, h.parked, h.suspending, (fun _ => hne), fun _ => hne⟩

/-- A fiber that is not in the queue gets to another place outside it. -/
theorem Inv.parked_move (h : Inv s) (hf : s.pc f ≠ .waiting) {next : Pc} (hnext : next ≠ .waiting)
    (g : φ) : g ∈ s.fibers_ ↔ update s.pc f next g = .waiting :=
  Places.mem_iff_stay (P := (· = Pc.waiting)) h.parked hf hnext g

omit [DecidableEq φ] in
theorem Inv.not_suspending (h : Inv s) (hspin : s.spin_ = none) (g : φ) :
    s.pc g ≠ .suspending := by
  intro hg
  rw [h.suspending g hg] at hspin
  cases hspin

theorem Inv.wait (h : Inv s) (hspin : s.spin_ = none) (hf : s.pc f = .running) :
    Inv (Wait f s) := by
  unfold WaitGroup.Wait
  split
  · rename_i hne
    -- the lock was free, so this is the only fiber past its switch
    refine ⟨h.balance, h.total, h.nodup, h.parked_move (by rw [hf]; decide) (by decide),
      fun g hg => ?_, fun _ => hne, h.queue⟩
    rw [Places.only_of_update (P := (· = Pc.suspending)) (h.not_suspending hspin) hg]
  · exact h

theorem Inv.callback (h : Inv s) (hf : s.pc f = .suspending) : Inv (callback f s) := by
  have hspin := h.suspending f hf
  -- the lock has been held since the count was read
  have hcount : s.count_ ≠ 0 := h.spin (by rw [hspin]; simp)
  have hnot : f ∉ s.fibers_ := by
    rw [h.parked f, hf]
    decide
  refine ⟨h.balance, h.total, ?_, fun g => ?_, fun g hg => ?_, fun hs => absurd rfl hs,
    fun _ => hcount⟩
  · exact Places.nodup_push h.nodup hnot
  · exact Places.mem_iff_push (P := (· = Pc.waiting)) h.parked rfl g
  · -- only the holder of the spin lock is past the switch
    have honly : ∀ g, s.pc g = .suspending → g = f := by
      intro g hg
      have heq := h.suspending g hg
      rw [hspin] at heq
      exact (Option.some.inj heq).symm
    exact absurd hg (Places.not_of_update (P := (· = Pc.suspending)) honly (by decide) g)

theorem Inv.resume (h : Inv s) (hf : s.pc f = .woken) : Inv (resume f s) := by
  refine ⟨h.balance, h.total, h.nodup, h.parked_move (by rw [hf]; decide) (by decide),
    fun g hg => ?_, h.spin, h.queue⟩
  rcases Places.eq_of_update hg with ⟨-, hne⟩ | ⟨-, hg⟩
  · cases hne
  · exact h.suspending g hg

theorem Inv.step {a : Action φ} (h : Inv s) (hc : Balanced a s) (hs : step a s = some s') :
    Inv s' := by
  cases a with
  | add f count =>
    simp only [WaitGroup.step, Option.ite_none_right_eq_some, Option.some.injEq] at hs
    obtain ⟨-, rfl⟩ := hs
    exact h.add hc
  | done f =>
    simp only [WaitGroup.step, Option.ite_none_right_eq_some, Option.some.injEq] at hs
    obtain ⟨⟨-, hspin⟩, rfl⟩ := hs
    exact h.done hspin hc
  | wait f =>
    simp only [WaitGroup.step, Option.ite_none_right_eq_some, Option.some.injEq] at hs
    obtain ⟨⟨hf, hspin⟩, rfl⟩ := hs
    exact h.wait hspin hf
  | callback f =>
    simp only [WaitGroup.step, Option.ite_none_right_eq_some, Option.some.injEq] at hs
    obtain ⟨hf, rfl⟩ := hs
    exact h.callback hf
  | resume f =>
    simp only [WaitGroup.step, Option.ite_none_right_eq_some, Option.some.injEq] at hs
    obtain ⟨⟨hf, -⟩, rfl⟩ := hs
    exact h.resume hf

theorem inv_of_reachableVia (hs : (machine φ).ReachableVia Balanced s) : Inv s := by
  refine hs.invariant (fun s hinit => ?_) fun _ _ _ h hc hst => h.step hc hst
  have htotal : s.added < 2 ^ 64 := by
    rcases hinit with rfl | rfl
    · show 0 < 2 ^ 64
      omega
    · show 0 + 1 < 2 ^ 64
      omega
  rcases hinit with rfl | rfl
  all_goals exact ⟨rfl, htotal, List.nodup_nil,
    (fun f => ⟨(fun hf => by cases hf), fun hf => by cases hf⟩), (fun f hf => by cases hf),
    (fun hs => absurd rfl hs), fun hq => absurd rfl hq⟩

/-! ## Whoever is woken has seen the count at zero -/

/-- In `Wait`, since before the switch. -/
def inWait (f : φ) (s : State φ) : Bool := decide (s.pc f ≠ .running)

/-- A step that wakes a fiber is the `Done` that brought the count to zero. -/
theorem woken_step {a : Action φ} (hs : step a s = some s') (hf : s'.pc f = .woken)
    (hnot : s.pc f ≠ .woken) : s'.count_ = 0 := by
  cases a with
  | add g count =>
    simp only [WaitGroup.step, Option.ite_none_right_eq_some, Option.some.injEq] at hs
    obtain ⟨-, rfl⟩ := hs
    exact absurd hf hnot
  | done g =>
    simp only [WaitGroup.step, Option.ite_none_right_eq_some, Option.some.injEq] at hs
    obtain ⟨-, rfl⟩ := hs
    unfold WaitGroup.Done at hf ⊢
    dsimp only at hf ⊢
    -- without the last `Done` the queue is left alone
    split at hf
    · rename_i hzero
      rw [if_pos hzero, wakeAll_eq]
      exact hzero
    · exact absurd hf hnot
  | wait g =>
    simp only [WaitGroup.step, Option.ite_none_right_eq_some, Option.some.injEq] at hs
    obtain ⟨-, rfl⟩ := hs
    unfold WaitGroup.Wait at hf
    split at hf
    · dsimp only at hf
      by_cases hg : f = g
      · rw [hg, Function.update_self] at hf
        cases hf
      · rw [Function.update_of_ne hg] at hf
        exact absurd hf hnot
    · exact absurd hf hnot
  | callback g =>
    simp only [WaitGroup.step, Option.ite_none_right_eq_some, Option.some.injEq] at hs
    obtain ⟨-, rfl⟩ := hs
    simp only [WaitGroup.callback] at hf
    by_cases hg : f = g
    · rw [hg, Function.update_self] at hf
      cases hf
    · rw [Function.update_of_ne hg] at hf
      exact absurd hf hnot
  | resume g =>
    simp only [WaitGroup.step, Option.ite_none_right_eq_some, Option.some.injEq] at hs
    obtain ⟨-, rfl⟩ := hs
    simp only [WaitGroup.resume] at hf
    by_cases hg : f = g
    · rw [hg, Function.update_self] at hf
      cases hf
    · rw [Function.update_of_ne hg] at hf
      exact absurd hf hnot

/-- Since a woken fiber went into `Wait`, the count has been zero. -/
theorem zero_since_wait {h : List (Transition (State φ) (Action φ))} (hr : (machine φ).Run h s)
    (hf : s.pc f = .woken) : ∃ t ∈ Machine.since (inWait f) h, t.post.count_ = 0 := by
  induction hr with
  | init hinit =>
    rcases hinit with rfl | rfl
    all_goals cases hf
  | @step h s s' a hr hs ih =>
    have hin : inWait f s' = true := by
      rw [inWait, hf]
      decide
    -- woken already, or by this step
    by_cases hold : s.pc f = .woken
    · exact Machine.exists_since_cons hin (ih hold)
    · exact Machine.exists_since_head hin (woken_step hs hf hold)

end Inv

/-- **`fiber::WaitGroup` releases its waiters exactly when the count reaches zero.** With the
spin lock free and somebody in the queue the count is not zero. The `Done` that brings the
count to zero schedules every parked fiber once and nobody else. A `Wait` that returns
without parking found the count at zero, and one that parked returns after the count was
zero at some moment since it went in. -/
theorem released_at_zero {h : List (Transition (State φ) (Action φ))} {s : State φ}
    (hr : (machine φ).Run h s) (hC : ∀ t ∈ h, Balanced t.act t.pre) :
    (s.spin_ = none → s.fibers_ ≠ [] → s.count_ ≠ 0) ∧
    (∀ f s', step (.done f) s = some s' → s'.count_ = 0 →
      s'.fibers_ = [] ∧ ∃ woken, s'.scheduled = woken ++ s.scheduled ∧
        ∀ g, woken.count g = if s.pc g = .waiting then 1 else 0) ∧
    (∀ f s', step (.wait f) s = some s' → s'.pc f = .running → s.count_ = 0) ∧
    (∀ f s', step (.resume f) s = some s' →
      ∃ t ∈ Machine.since (inWait f) h, t.post.count_ = 0) := by
  have hinv := inv_of_reachableVia (hr.reachableVia hC)
  refine ⟨fun _ => hinv.queue, fun f s' hs hzero => ?_, fun f s' hs hrun => ?_,
    fun f s' hs => ?_⟩
  · simp only [step, Option.ite_none_right_eq_some, Option.some.injEq] at hs
    obtain ⟨-, rfl⟩ := hs
    have hcount : (Done s).count_ = s.count_ - 1 := by
      unfold Done
      dsimp only
      split
      · rw [wakeAll_eq]
      · rfl
    rw [hcount] at hzero
    -- the count is zero, so it is the branch that wakes
    have hdone : Done s = WakeAll { s with count_ := s.count_ - 1, done := s.done + 1 } :=
      if_pos hzero
    rw [hdone, wakeAll_eq]
    refine ⟨rfl, s.fibers_.reverse, rfl, fun g => ?_⟩
    -- the queue holds each parked fiber once
    rw [List.count_reverse]
    split
    · rename_i hg
      exact List.count_eq_one_of_mem hinv.nodup ((hinv.parked g).mpr hg)
    · rename_i hg
      exact List.count_eq_zero.mpr fun hmem => hg ((hinv.parked g).mp hmem)
  · simp only [step, Option.ite_none_right_eq_some, Option.some.injEq] at hs
    obtain ⟨-, rfl⟩ := hs
    unfold Wait at hrun
    split at hrun
    · simp only [Function.update_self] at hrun
      cases hrun
    · exact not_not.mp ‹_›
  · simp only [step, Option.ite_none_right_eq_some, Option.some.injEq] at hs
    exact zero_since_wait hr hs.1.1

/-- Two fibers wait on a group of one, are released by its `Done`, and the group is used
again before they run: the `Wait` of the first returns all the same. -/
theorem released_at_zero_reused : ∃ h, ∃ s : State ℕ, (machine ℕ).Run h s ∧
    s.scheduled = [2, 1] ∧ s.count_ = 1 ∧ (∃ s', step (.resume 1) s = some s') ∧
    ∃ t ∈ Machine.since (inWait 1) h, t.post.count_ = 0 := by
  obtain ⟨h, s, hr, hC, hp⟩ := Machine.Run.execVia_any (M := machine ℕ) (C := Balanced)
    (.init (.inl rfl)) (fun t ht => by cases ht)
    [.add 0 1, .wait 1, .callback 1, .wait 2, .callback 2, .done 0, .add 0 1]
    (fun s => decide (s.scheduled = [2, 1] ∧ s.count_ = 1 ∧ s.pc 1 = .woken ∧ s.spin_ = none))
    (by decide)
  obtain ⟨hsched, hcount, hpc, hspin⟩ := of_decide_eq_true hp
  have hs : step (.resume 1) s = some (resume 1 s) := if_pos ⟨hpc, hspin⟩
  exact ⟨h, s, hr, hsched, hcount, ⟨_, hs⟩, (released_at_zero hr hC).2.2.2 1 _ hs⟩

end Exe.Fiber.WaitGroup
