/-
`future::Spawn` on the work-stealing pool, and `future::Get` of what it returns.

A thread outside the pool makes a contract and submits a task that computes a value and sets
the promise. Any thread outside may then wait for the future, in `Get`. `Pool` knows nothing
of contracts and `Get` nothing of tasks. Put together: the task of a contract is run once, by
one worker, so that the promise is set once; and once every worker of the pool sleeps, all of
them have been run to their end, so that nobody is left waiting.

# Conventions

* Contracts are numbered in the order they are made in, and the number of a contract is its
  task's. There are `n` workers and `k` threads outside the pool.
* The function that is run may return any value. It submits nothing itself.
-/
import Exe.Composition
import Exe.Get
import Exe.PoolBodies

set_option autoImplicit false

namespace Exe.GetOnPool

open Function (update)

variable {n k : ℕ} {capacity : ℕ} {τ : Type}

/-! ## The model -/

/-- A thread outside the pool: in neither call, in `Spawn` before `Submit` has returned, or in
`Get`. -/
inductive Client
  | free
  | spawning (c : ℕ)
  | getting (c : ℕ)
  deriving DecidableEq

structure State (n k : ℕ) (τ : Type) where
  pool : Pool.State n k ℕ
  calls : ℕ → Get.State τ
  next : ℕ
  client : Fin k → Client

/-- The steps of the workers, of the bodies of their tasks, and of the threads outside. -/
inductive Action (n k : ℕ) (τ : Type)
  | work (w : Fin n) (weak : Bool)
  | spurious (w : Fin n)
  | produce (w : Fin n) (x : τ)
  | set (w : Fin n)
  | done (w : Fin n)
  | spawn (i : Fin k)
  | outside (i : Fin k)
  | spawned (i : Fin k)
  | get (i : Fin k) (c : ℕ)
  | step (i : Fin k)
  | wake (i : Fin k)
  | leave (i : Fin k)
  | stop

/-- What the pool does in a step. -/
def Action.onPool (s : State n k τ) : Action n k τ → Option (Pool.Action n k ℕ)
  | .work w weak => some (.work w weak)
  | .spurious w => some (.spurious w)
  | .done w => some (.bodyDone w)
  | .spawn i => some (.submit i s.next)
  | .outside i => some (.outside i)
  | .stop => some .stop
  | _ => none

def poolStep (capacity : ℕ) (a : Action n k τ) (s : State n k τ) : Option (Pool.State n k ℕ) :=
  match a.onPool s with
  | some b => Pool.step capacity b s.pool
  | none => some s.pool

def isFinished : Get.Producer τ → Bool
  | .finished => true
  | _ => false

def isReturned : Get.Consumer τ → Bool
  | .returned _ => true
  | _ => false

def isIdle : Pool.Outside ℕ → Bool
  | .idle => true
  | _ => false

/-- A step of call `c`. -/
def State.onCall (s : State n k τ) (c : ℕ) (a : Get.Action τ) : Option (State n k τ) :=
  (Get.step a (s.calls c)).map fun g => { s with calls := update s.calls c g }

def State.setClient (s : State n k τ) (i : Fin k) (client : Client) : State n k τ :=
  { s with client := update s.client i client }

/-- What the rest does. A body goes on with the contract of its task. -/
def callStep (a : Action n k τ) (s : State n k τ) : Option (State n k τ) :=
  match a with
  | .produce w x =>
    match s.pool.pc w with
    | .running c => s.onCall c (.produce x)
    | _ => none
  | .set w =>
    match s.pool.pc w with
    | .running c => s.onCall c .producer
    | _ => none
  | .done w =>
    match s.pool.pc w with
    | .running c => if isFinished (s.calls c).producer then some s else none
    | _ => none
  | .spawn i =>
    if s.client i = .free then
      some ({ s with next := s.next + 1 }.setClient i (.spawning s.next))
    else none
  | .spawned i =>
    match s.client i with
    | .spawning _ => if isIdle (s.pool.outside i) then some (s.setClient i .free) else none
    | _ => none
  | .get i c =>
    if s.client i = .free ∧ c < s.next ∧ ∀ j, s.client j ≠ .spawning c then
      (s.onCall c .get).map fun s => s.setClient i (.getting c)
    else none
  | .step i =>
    match s.client i with
    | .getting c => s.onCall c .consumer
    | _ => none
  | .wake i =>
    match s.client i with
    | .getting c => s.onCall c .spurious
    | _ => none
  | .leave i =>
    match s.client i with
    | .getting c => if isReturned (s.calls c).consumer then some (s.setClient i .free) else none
    | _ => none
  | _ => some s

def step (capacity : ℕ) (a : Action n k τ) (s : State n k τ) : Option (State n k τ) :=
  match poolStep capacity a s with
  | none => none
  | some pool => (callStep a s).map fun s => { s with pool := pool }

def machine (n k : ℕ) (τ : Type) (capacity : ℕ) : Machine (State n k τ) (Action n k τ) where
  init s := (Pool.machine n k ℕ capacity).init s.pool ∧ (∀ c, s.calls c = .start) ∧ s.next = 0 ∧
    ∀ i, s.client i = .free
  step := step capacity

theorem step_eq_some {a : Action n k τ} {s s' : State n k τ} :
    step capacity a s = some s' ↔
      poolStep capacity a s = some s'.pool ∧
        ∃ t, callStep a s = some t ∧ s' = { t with pool := s'.pool } := by
  unfold step
  constructor
  · intro h
    split at h
    · cases h
    · rename_i pool hpool
      obtain ⟨t, ht, rfl⟩ := Option.map_eq_some_iff.mp h
      exact ⟨hpool, t, ht, rfl⟩
  · rintro ⟨hpool, t, ht, hs'⟩
    simp only [hpool, ht, Option.map_some]
    rw [← hs']

/-! ## What ties the two together -/

/-- A contract whose task is queued has not been set, and one whose task is over has been. -/
structure Coupled (capacity : ℕ) (s : State n k τ) : Prop where
  submitted : s.pool.submitted = Multiset.range s.next
  nodup : (s.pool.placed capacity + s.pool.bodies).Nodup
  lt : ∀ c ∈ s.pool.placed capacity + s.pool.bodies, c < s.next
  placed : ∀ c ∈ s.pool.placed capacity, (s.calls c).producer = .idle
  ended : ∀ c < s.next, c ∉ s.pool.placed capacity + s.pool.bodies →
    (s.calls c).producer = .finished
  fresh : ∀ c, s.next ≤ c → s.calls c = .start
  calls : ∀ c, (Get.machine τ).Reachable (s.calls c)
  getting : ∀ i c, s.client i = .getting c → c < s.next ∧ (s.calls c).consumer ≠ .idle

section Calls

variable {g g' : Get.State τ} {a : Get.Action τ}

theorem after_producer {β : Type} {r : Option β} {go : β → Get.State τ}
    (h : ∀ x, (go x).producer = g.producer) : (g.after r go).producer = g.producer := by
  unfold Get.State.after
  split
  · exact h _
  · rfl

theorem after_consumer {β : Type} {r : Option β} {go : β → Get.State τ}
    (h : ∀ x, (go x).consumer ≠ .idle) (hg : g.consumer ≠ .idle) :
    (g.after r go).consumer ≠ .idle := by
  unfold Get.State.after
  split
  · exact h _
  · exact hg

/-- Only the producer's own steps are steps of the producer. -/
theorem producer_of_step (ha : a = .get ∨ a = .consumer ∨ a = .spurious)
    (hst : Get.step a g = some g') : g'.producer = g.producer := by
  rw [Get.step.eq_def] at hst
  split at hst
  · cases hst
  obtain rfl | rfl | rfl := ha
  · dsimp only at hst
    split at hst <;> cases hst
    rfl
  · simp only [Get.consumerStep] at hst
    split at hst <;> cases hst <;> exact after_producer fun _ => rfl
  · dsimp only at hst
    split at hst <;> cases hst
    rfl

/-- Who has called `Get` stays in it. -/
theorem consumer_of_step (hst : Get.step a g = some g') (hg : g.consumer ≠ .idle) :
    g'.consumer ≠ .idle := by
  have hwoken : g.consumer.woken ≠ .idle := by
    cases hc : g.consumer with
    | idle => exact absurd hc hg
    | asleep => exact fun h => by cases h
    | _ => exact fun h => by cases h
  rw [Get.step.eq_def] at hst
  split at hst
  · cases hst
  cases a with
  | produce x =>
    dsimp only at hst
    split at hst <;> cases hst
    exact hg
  | producer =>
    simp only [Get.producerStep] at hst
    split at hst <;> cases hst
    · exact after_consumer (fun _ => hg) hg
    · exact after_consumer (fun _ => hg) hg
    · refine after_consumer (fun _ => ?_) hg
      dsimp only
      split
      · exact hwoken
      · exact hg
  | get =>
    dsimp only at hst
    split at hst <;> cases hst
    exact fun h => by cases h
  | consumer =>
    simp only [Get.consumerStep] at hst
    split at hst <;> cases hst <;> refine after_consumer (fun x => ?_) hg <;> dsimp only
    · exact fun h => by cases h
    · split <;> exact fun h => by cases h
    · cases x.2 <;> exact fun h => by cases h
    · split <;> exact fun h => by cases h
    · split <;> exact fun h => by cases h
    · exact fun h => by cases h
    · exact fun h => by cases h
  | spurious =>
    dsimp only at hst
    split at hst <;> cases hst
    exact fun h => by cases h

end Calls

section Steps

variable {s : State n k τ} {pool : Pool.State n k ℕ} {c : ℕ} {i : Fin k}

/-- A step of the pool that accepts nothing. Who leaves a body has set the promise. -/
theorem Coupled.setPool {b : Pool.Action n k ℕ} (h : Coupled capacity s)
    (hq : Pool.Queues capacity s.pool) (hst : Pool.step capacity b s.pool = some pool)
    (hb : b.accepted = 0)
    (hdone : ∀ w cur, b = .bodyDone w → s.pool.pc w = .running cur →
      (s.calls cur).producer = .finished) : Coupled capacity { s with pool := pool } := by
  have he := Pool.step_cases hq hst
  obtain ⟨started, -, hsubmitted, hplaced⟩ := Pool.accounting hq he
  obtain ⟨ended, hwhole, hended⟩ := Pool.whole_account hq he
  rw [hb, zero_add] at hplaced hwhole hsubmitted
  have hle : pool.placed capacity + pool.bodies ≤ s.pool.placed capacity + s.pool.bodies := by
    rw [← hwhole]
    exact Multiset.le_add_right _ _
  refine ⟨hsubmitted.trans h.submitted, Multiset.nodup_of_le hle h.nodup,
    fun c hc => h.lt c (Multiset.mem_of_le hle hc), fun c hc => h.placed c ?_,
    fun c hc hover => ?_, h.fresh, h.calls, h.getting⟩
  · rw [← hplaced]
    exact Multiset.mem_add.mpr (.inl hc)
  · by_cases hin : c ∈ s.pool.placed capacity + s.pool.bodies
    · rw [← hwhole] at hin
      obtain hin | hin := Multiset.mem_add.mp hin
      · exact absurd hin hover
      · obtain rfl | ⟨w, cur, hw, hpc, rfl⟩ := hended
        · exact absurd hin (Multiset.notMem_zero c)
        · rw [Multiset.mem_singleton.mp hin]
          exact hdone w cur hw hpc
    · exact h.ended c hc hin

/-- `Spawn`: a new contract, and its task in the pool. -/
theorem Coupled.spawn (h : Coupled capacity s) (hq : Pool.Queues capacity s.pool)
    (hst : Pool.step capacity (.submit i s.next) s.pool = some pool) :
    Coupled capacity
      { ({ s with next := s.next + 1 }.setClient i (.spawning s.next)) with pool := pool } := by
  have he := Pool.step_cases hq hst
  obtain ⟨started, -, hsubmitted, hplaced⟩ := Pool.accounting hq he
  obtain ⟨ended, hwhole, hended⟩ := Pool.whole_account hq he
  have hnone : ended = 0 := by
    obtain h0 | ⟨w, cur, hw, -⟩ := hended
    · exact h0
    · cases hw
  rw [hnone, add_zero] at hwhole
  have hnew : pool.placed capacity + pool.bodies =
      s.next ::ₘ (s.pool.placed capacity + s.pool.bodies) := by
    rw [hwhole, ← Multiset.singleton_add, add_assoc]
    rfl
  have hfresh : s.next ∉ s.pool.placed capacity + s.pool.bodies :=
    fun hin => lt_irrefl _ (h.lt _ hin)
  refine ⟨?_, ?_, fun c hc => ?_, fun c hc => ?_, fun c hc hover => ?_,
    fun c hc => h.fresh c (Nat.le_of_succ_le hc), h.calls, fun j c hj => ?_⟩
  · change pool.submitted = Multiset.range (s.next + 1)
    rw [hsubmitted, h.submitted, Multiset.range_succ, ← Multiset.singleton_add]
    rfl
  · rw [hnew]
    exact Multiset.nodup_cons.mpr ⟨hfresh, h.nodup⟩
  · change c ∈ pool.placed capacity + pool.bodies at hc
    rw [hnew] at hc
    obtain rfl | hc := Multiset.mem_cons.mp hc
    · exact Nat.lt_succ_self _
    · exact Nat.lt_succ_of_lt (h.lt c hc)
  · have hmem : c ∈ ({s.next} : Multiset ℕ) + s.pool.placed capacity := by
      change _ = Pool.Action.accepted (.submit i s.next) + _ at hplaced
      rw [show ({s.next} : Multiset ℕ) = Pool.Action.accepted (.submit i s.next : Pool.Action n k ℕ)
        from rfl, ← hplaced]
      exact Multiset.mem_add.mpr (.inl hc)
    obtain hc | hc := Multiset.mem_add.mp hmem
    · change (s.calls c).producer = .idle
      rw [Multiset.mem_singleton.mp hc, h.fresh _ le_rfl]
      rfl
    · exact h.placed c hc
  · change c ∉ pool.placed capacity + pool.bodies at hover
    rw [hnew] at hover
    have hne : c ≠ s.next := fun he => hover (he ▸ Multiset.mem_cons_self _ _)
    exact h.ended c (by change c < s.next + 1 at hc; omega)
      fun hin => hover (Multiset.mem_cons_of_mem hin)
  · change update s.client i (.spawning s.next) j = .getting c at hj
    by_cases hji : j = i
    · subst hji
      rw [Function.update_self] at hj
      cases hj
    · rw [Function.update_of_ne hji] at hj
      exact ⟨Nat.lt_succ_of_lt (h.getting j c hj).1, (h.getting j c hj).2⟩

/-- A step of a call. Steps of the producer are made inside the body of the task. -/
theorem Coupled.onCall {a : Get.Action τ} {t : State n k τ} (h : Coupled capacity s)
    (hc : c < s.next) (hst : s.onCall c a = some t)
    (ha : c ∈ s.pool.bodies ∨ a = .get ∨ a = .consumer ∨ a = .spurious) :
    Coupled capacity t := by
  obtain ⟨g, hg, rfl⟩ := Option.map_eq_some_iff.mp hst
  have hof : ∀ d, d ≠ c → update s.calls c g d = s.calls d :=
    fun d hd => Function.update_of_ne hd _ _
  have hself : update s.calls c g c = g := Function.update_self _ _ _
  have hprod : c ∈ s.pool.bodies ∨ g.producer = (s.calls c).producer :=
    ha.imp_right fun ha => producer_of_step ha hg
  refine ⟨h.submitted, h.nodup, h.lt, fun d hd => ?_, fun d hd hover => ?_, fun d hd => ?_,
    fun d => ?_, fun j d hj => ⟨(h.getting j d hj).1, ?_⟩⟩
  · change (update s.calls c g d).producer = _
    by_cases hdc : d = c
    · subst hdc
      obtain hbody | hsame := hprod
      · exact absurd hbody (Multiset.disjoint_left.mp (Multiset.nodup_add.mp h.nodup).2.2 hd)
      · rw [hself, hsame]
        exact h.placed d hd
    · rw [hof d hdc]
      exact h.placed d hd
  · change (update s.calls c g d).producer = _
    by_cases hdc : d = c
    · subst hdc
      obtain hbody | hsame := hprod
      · exact absurd (Multiset.mem_add.mpr (.inr hbody)) hover
      · rw [hself, hsame]
        exact h.ended d hd hover
    · rw [hof d hdc]
      exact h.ended d hd hover
  · change s.next ≤ d at hd
    exact (hof d (by omega)).trans (h.fresh d hd)
  · change (Get.machine τ).Reachable (update s.calls c g d)
    by_cases hdc : d = c
    · subst hdc
      rw [hself]
      exact (h.calls d).next a hg
    · rw [hof d hdc]
      exact h.calls d
  · change (update s.calls c g d).consumer ≠ _
    by_cases hdc : d = c
    · subst hdc
      rw [hself]
      exact consumer_of_step hg (h.getting j d hj).2
    · rw [hof d hdc]
      exact (h.getting j d hj).2

theorem Coupled.setClient {client : Client} (h : Coupled capacity s)
    (hclient : ∀ c, client = .getting c → c < s.next ∧ (s.calls c).consumer ≠ .idle) :
    Coupled capacity (s.setClient i client) := by
  refine ⟨h.submitted, h.nodup, h.lt, h.placed, h.ended, h.fresh, h.calls, fun j c hj => ?_⟩
  change update s.client i client j = _ at hj
  by_cases hji : j = i
  · subst hji
    rw [Function.update_self] at hj
    exact hclient c hj
  · rw [Function.update_of_ne hji] at hj
    exact h.getting j c hj

end Steps

/-- What a step of the whole does. -/
structure Advances (capacity : ℕ) (s s' : State n k τ) : Prop where
  pool : (Pool.machine n k ℕ capacity).Follows (Pool.NoResubmit capacity) s.pool s'.pool
  coupled : Coupled capacity s'

section Whole

variable {s s' t : State n k τ} {a : Action n k τ}

theorem Coupled.mem_bodies (w : Fin n) {c : ℕ} (hw : s.pool.pc w = .running c) :
    c ∈ s.pool.bodies :=
  Pool.mem_bodies.mpr ⟨w, by rw [hw]; rfl⟩

/-- A step in which the pool does something and the rest nothing. -/
theorem Coupled.onPool {b : Pool.Action n k ℕ} {pool : Pool.State n k ℕ} (h : Coupled capacity s)
    (hq : Pool.Queues capacity s.pool) (hst : Pool.step capacity b s.pool = some pool)
    (hb : b.accepted = 0)
    (hdone : ∀ w cur, b = .bodyDone w → s.pool.pc w = .running cur →
      (s.calls cur).producer = .finished) : Advances capacity s { s with pool := pool } := by
  refine ⟨.inr ⟨b, fun task ht => ?_, hst⟩, h.setPool hq hst hb hdone⟩
  rw [hb] at ht
  exact absurd ht (Multiset.notMem_zero _)

theorem isFinished_iff {p : Get.Producer τ} : isFinished p = true ↔ p = .finished := by
  cases p <;> simp [isFinished]

/-- What the rest does by itself, the pool standing still. -/
theorem coupled_callStep (h : Coupled capacity s) (hpool : a.onPool s = none)
    (hst : callStep a s = some t) : Coupled capacity t ∧ t.pool = s.pool := by
  have hcall : ∀ {c : ℕ} {b : Get.Action τ}, c < s.next → s.onCall c b = some t →
      (c ∈ s.pool.bodies ∨ b = .get ∨ b = .consumer ∨ b = .spurious) →
      Coupled capacity t ∧ t.pool = s.pool := by
    intro c b hc hon hb
    refine ⟨h.onCall hc hon hb, ?_⟩
    obtain ⟨g, -, rfl⟩ := Option.map_eq_some_iff.mp hon
    rfl
  have hbody : ∀ {w : Fin n} {c : ℕ} {b : Get.Action τ}, s.pool.pc w = .running c →
      s.onCall c b = some t → Coupled capacity t ∧ t.pool = s.pool := by
    intro w c b hw hon
    have hmem := Coupled.mem_bodies w hw
    exact hcall (h.lt c (Multiset.mem_add.mpr (.inr hmem))) hon (.inl hmem)
  cases a with
  | produce w x =>
    simp only [callStep] at hst
    split at hst
    · exact hbody ‹_› hst
    · cases hst
  | set w =>
    simp only [callStep] at hst
    split at hst
    · exact hbody ‹_› hst
    · cases hst
  | spawned i =>
    simp only [callStep] at hst
    split at hst
    · split at hst <;> cases hst
      exact ⟨h.setClient (fun c hc => by cases hc), rfl⟩
    · cases hst
  | get i c =>
    simp only [callStep] at hst
    split at hst
    · rename_i hfree
      obtain ⟨u, hu, rfl⟩ := Option.map_eq_some_iff.mp hst
      have hcoupled := h.onCall hfree.2.1 hu (.inr (.inl rfl))
      obtain ⟨g, hg, rfl⟩ := Option.map_eq_some_iff.mp hu
      refine ⟨hcoupled.setClient fun d hd => ?_, rfl⟩
      cases hd
      refine ⟨hfree.2.1, ?_⟩
      change (update s.calls c g c).consumer ≠ _
      rw [Function.update_self]
      rw [Get.step.eq_def] at hg
      split at hg
      · cases hg
      dsimp only at hg
      split at hg <;> cases hg
      exact fun h => by cases h
    · cases hst
  | step i =>
    simp only [callStep] at hst
    split at hst
    · rename_i c hi
      exact hcall (h.getting i c hi).1 hst (.inr (.inr (.inl rfl)))
    · cases hst
  | wake i =>
    simp only [callStep] at hst
    split at hst
    · rename_i c hi
      exact hcall (h.getting i c hi).1 hst (.inr (.inr (.inr rfl)))
    · cases hst
  | leave i =>
    simp only [callStep] at hst
    split at hst
    · split at hst <;> cases hst
      exact ⟨h.setClient (fun c hc => by cases hc), rfl⟩
    · cases hst
  | _ => cases hpool

/-- **The steps of the whole advance both halves.** -/
theorem advances (h : Coupled capacity s) (hq : Pool.Queues capacity s.pool)
    (hst : step capacity a s = some s') : Advances capacity s s' := by
  obtain ⟨hpool, t, ht, hs'⟩ := step_eq_some.mp hst
  cases hon : a.onPool s with
  | none =>
    obtain ⟨hcoupled, hsame⟩ := coupled_callStep h hon ht
    simp only [poolStep, hon, Option.some.injEq] at hpool
    rw [hs', ← hpool, ← hsame]
    exact ⟨.inl hsame, hcoupled⟩
  | some b =>
    simp only [poolStep, hon] at hpool
    cases a with
    | spawn i =>
      cases hon
      simp only [callStep] at ht
      split at ht <;> cases ht
      rw [hs']
      refine ⟨.inr ⟨.submit i s.next, fun task htask hplaced => ?_, hpool⟩, h.spawn hq hpool⟩
      rw [Multiset.mem_singleton.mp htask] at hplaced
      exact lt_irrefl _ (h.lt _ (Multiset.mem_add.mpr (.inl hplaced)))
    | done w =>
      cases hon
      simp only [callStep] at ht
      split at ht
      · rename_i c hw
        split at ht <;> cases ht
        rename_i hfinished
        rw [hs']
        refine h.onPool hq hpool rfl fun v cur hv hcur => ?_
        cases hv
        rw [hw] at hcur
        cases hcur
        exact isFinished_iff.mp hfinished
      · cases ht
    | work w weak =>
      cases hon
      cases ht
      rw [hs']
      exact h.onPool hq hpool rfl fun v cur hv => by cases hv
    | spurious w =>
      cases hon
      cases ht
      rw [hs']
      exact h.onPool hq hpool rfl fun v cur hv => by cases hv
    | outside i =>
      cases hon
      cases ht
      rw [hs']
      exact h.onPool hq hpool rfl fun v cur hv => by cases hv
    | stop =>
      cases hon
      cases ht
      rw [hs']
      exact h.onPool hq hpool rfl fun v cur hv => by cases hv
    | _ => cases hon

end Whole

theorem coupled_of_reachable {C : Action n k τ → State n k τ → Prop} {s : State n k τ}
    (hs : (machine n k τ capacity).ReachableVia C s) :
    (Pool.machine n k ℕ capacity).ReachableVia (Pool.NoResubmit capacity) s.pool ∧
      Coupled capacity s := by
  induction hs with
  | @init s h =>
    obtain ⟨hpool, hcalls, hnext, hclient⟩ := h
    refine ⟨.init hpool, ?_⟩
    obtain ⟨null, he⟩ := hpool
    have hnone : s.pool.placed capacity + s.pool.bodies = 0 := by
      rw [he, Pool.placed_start, zero_add]
      exact Finset.sum_eq_zero fun w _ => rfl
    refine ⟨by rw [he, hnext]; rfl, by rw [hnone]; exact Multiset.nodup_zero, fun c hc => ?_,
      fun c hc => ?_, fun c hc => ?_, fun c _ => hcalls c, fun c => .init (hcalls c),
      fun i c hi => ?_⟩
    · rw [hnone] at hc
      exact absurd hc (Multiset.notMem_zero c)
    · rw [hcalls c]
      rfl
    · rw [hnext] at hc
      exact absurd hc (Nat.not_lt_zero c)
    · rw [hclient i] at hi
      cases hi
  | step a _ _ hst ih =>
    obtain ⟨hpool, hcoupled⟩ := ih
    have h := advances hcoupled (Pool.queues_of_reachable hpool) hst
    exact ⟨h.pool.reachableVia hpool, h.coupled⟩

/-! ## Every run -/

/-- Where the pool rests, every promise has been set. -/
theorem Coupled.all_set {s : State n k τ} (h : Coupled capacity s)
    (hs : (Pool.machine n k ℕ capacity).ReachableVia (Pool.NoResubmit capacity) s.pool)
    (hn : 0 < n) (hrest : Pool.AtRest capacity s.pool) {c : ℕ} (hc : c < s.next) :
    (s.calls c).producer = .finished := by
  refine h.ended c hc ?_
  rw [hrest.placed hs hn, hrest.bodies]
  exact Multiset.notMem_zero c

/-- A promise that has been set leaves nobody asleep. -/
theorem goes_on {s : State n k τ} (h : Coupled capacity s) {i : Fin k} {c : ℕ}
    (hi : s.client i = .getting c) (hp : (s.calls c).producer = .finished) :
    (∃ x, (s.calls c).consumer = .returned x) ∨ ∃ s', step capacity (.step i) s = some s' := by
  have hsound := Get.sound_of_reachable (h.calls c)
  obtain ⟨-, hreturned⟩ | ⟨a, g, ha, hg⟩ :=
    hsound.goes_on (by rw [hp]; exact fun he => by cases he) (h.getting i c hi).2
  · exact .inl hreturned
  · right
    rw [Get.step.eq_def, if_neg (by rw [hsound.fault]; exact Bool.false_ne_true)] at hg
    cases a with
    | consumer =>
      have hst : Get.step .consumer (s.calls c) = some g := by
        rw [Get.step.eq_def, if_neg (by rw [hsound.fault]; exact Bool.false_ne_true)]
        exact hg
      simp only [step, poolStep, Action.onPool, callStep, hi, State.onCall, hst, Option.map_some]
      exact ⟨_, rfl⟩
    | producer =>
      -- the producer has nothing left to do
      simp only [Get.producerStep, hp] at hg
      cases hg
    | _ => cases ha

/-- **What is spawned on the pool is run once and can be waited for.** In every run of the pool
and the threads outside: no task is submitted while it is queued; the task of each contract is
queued or has been begun, and only once; no access is made to a contract or to a frame of `Get`
after its end; and what `Get` returns is what the function of its task has returned. Where the
pool rests, no thread is blocked in `Get`: it has its value, or can go on by itself. -/
theorem spawned_gets_return {s : State n k τ} (hs : (machine n k τ capacity).Reachable s) :
    (Pool.machine n k ℕ capacity).ReachableVia (Pool.NoResubmit capacity) s.pool ∧
    (∀ c, s.pool.ran.count c + (s.pool.placed capacity).count c = (decide (c < s.next)).toNat ∧
      (s.calls c).fault = false ∧
      ∀ x, (s.calls c).consumer = .returned x → (s.calls c).produced = some x) ∧
    (0 < n → Pool.AtRest capacity s.pool → ∀ i c, s.client i = .getting c →
      (∃ x, (s.calls c).consumer = .returned x) ∨
        ∃ s', step capacity (.step i) s = some s') := by
  obtain ⟨hpool, h⟩ := coupled_of_reachable hs
  refine ⟨hpool, fun c => ⟨?_, ?_, fun x => ?_⟩, fun hn hrest i c hi => ?_⟩
  · rw [add_comm, ← Multiset.count_add, ← Pool.submitted_eq hpool, h.submitted]
    by_cases hc : c < s.next
    · rw [Multiset.count_eq_one_of_mem (Multiset.nodup_range _) (Multiset.mem_range.mpr hc),
        decide_eq_true hc]
      rfl
    · rw [Multiset.count_eq_zero.mpr fun hin => hc (Multiset.mem_range.mp hin),
        decide_eq_false hc]
      rfl
  · exact (Get.sound_of_reachable (h.calls c)).fault
  · exact (Get.sound_of_reachable (h.calls c)).returned
  · exact goes_on h hi (h.all_set hpool hn hrest (h.getting i c hi).1)

/-- The thread outside goes to sleep in `Get`, the task sets its promise, and the worker sleeps
again. -/
def spawnAndGet : List (Action 1 1 ℕ) :=
  [.spawn 0, .outside 0, .outside 0, .spawned 0, .get 0 0] ++ List.replicate 4 (.step 0) ++
  List.replicate 6 (.work 0 false) ++ [.produce 0 7] ++ List.replicate 8 (.set 0) ++ [.done 0] ++
  List.replicate 3 (.step 0) ++ List.replicate 13 (.work 0 false)

/-- Its `Get` has returned, and the worker is asleep. -/
def hasReturned (s : State 1 1 ℕ) : Bool :=
  match (s.calls 0).consumer, s.pool.pc 0 with
  | .returned x, .asleep _ => decide (x = 7)
  | _, _ => false

theorem spawned_gets_return_seven : ∃ s : State 1 1 ℕ, (machine 1 1 ℕ 4).Reachable s ∧
    (s.calls 0).produced = some 7 ∧ (s.calls 0).fault = false := by
  obtain ⟨s, hs, hp⟩ := Machine.Reachable.exec_any (M := machine 1 1 ℕ 4)
    (s := ⟨.start 0, fun _ => .start, 0, fun _ => .free⟩)
    (.init ⟨⟨0, rfl⟩, fun _ => rfl, rfl, fun _ => rfl⟩) spawnAndGet hasReturned
    (by decide +kernel)
  unfold hasReturned at hp
  split at hp
  · rename_i x e hx hpc
    obtain rfl := of_decide_eq_true hp
    obtain ⟨-, hcalls, -⟩ := spawned_gets_return hs
    obtain ⟨-, hfault, hvalue⟩ := hcalls 0
    exact ⟨s, hs, hvalue 7 hx, hfault⟩
  · cases hp

end Exe.GetOnPool
