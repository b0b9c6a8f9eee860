/-
How long a worker's LIFO slot can keep the other tasks waiting.

A run is read as the list of the calls of `PickTask` that one worker has made
(`calls`). What bounds the slot is `filo_chain_`: as long as the newest calls
have all been served from the slot, and none of them has found all the queues
empty, there are at most `filo_chain_` of them (`StreakBound`). A call that is
not served from the slot, or is at the limit, resets the chain and searches the
queues, and the second search of a call comes only after the first one has found
all of them empty (`Knows`).

A worker can find its slot full after a `TryGetWork` that returned `nullptr`,
but only at the limit of the chain. The chain has been reset then, so the second
search takes the task.
-/
import Exe.PoolSteps

set_option autoImplicit false

namespace Exe.Pool

open WorkStealingQueue
open Function (update)

variable {n m : ℕ} {τ : Type*} {capacity : ℕ}

/-! ## The calls of `PickTask` -/

/-- The steps of a worker from its first step in `PickTask` up to the next call, oldest
first. What the task does that the call has returned comes after the call's own steps. -/
abbrev Call (n m : ℕ) (τ : Type*) := List (Transition (State n m τ) (Action n m τ))

def Action.isWork (w : Fin n) : Action n m τ → Bool
  | .work v _ => decide (v = w)
  | _ => false

def Pc.isPickTask : Pc n τ → Bool
  | .pickTask => true
  | _ => false

def Pc.isLifo : Pc n τ → Bool
  | .lifo _ => true
  | _ => false

/-- One more step of the worker. -/
def addStep (w : Fin n) (t : Transition (State n m τ) (Action n m τ)) :
    List (Call n m τ) → List (Call n m τ)
  | [] => if (t.pre.pc w).isPickTask then [[t]] else []
  | c :: older => if (t.pre.pc w).isPickTask then [t] :: c :: older else (c ++ [t]) :: older

/-- The calls of `PickTask` by worker `w`, newest first. -/
def calls (w : Fin n) : List (Transition (State n m τ) (Action n m τ)) → List (Call n m τ)
  | [] => []
  | t :: h => if t.act.isWork w then addStep w t (calls w h) else calls w h

/-! ## What a call has done -/

/-- The call has taken a task out of `lifo_slot_`. It returns this task. -/
def TakesLifo (w : Fin n) (c : Call n m τ) : Prop :=
  ∃ t ∈ c, (t.pre.pc w).isLifo = true ∧ (t.pre.lifo_slot_ w).isSome = true ∧
    (t.post.lifo_slot_ w).isNone = true

/-- `local_queue_.TryPop()` has returned `nullptr`, and the queue was empty then. -/
def SeesOwnEmpty (w : Fin n) (c : Call n m τ) : Prop :=
  ∃ t ∈ c, (∃ pc, t.pre.pc w = .pop .first pc) ∧ t.post.pc w = .grab .first ∧
    (t.pre.local_queue_ w).head_ = (t.pre.local_queue_ w).tail_

/-- The global queue was empty when the call grabbed from it. -/
def SeesGlobalEmpty (w : Fin n) (c : Call n m τ) : Prop :=
  ∃ t ∈ c, t.pre.pc w = .grab .first ∧ t.pre.global_queue_ = []

/-- `StealTasks` on worker `v` has found nothing to take, and its queue was empty then. -/
def SeesVictimEmpty (w v : Fin n) (c : Call n m τ) : Prop :=
  ∃ t ∈ c, ∃ rest pc head i, t.pre.pc w = .steal .first v rest pc ∧
    t.post.pc w = .steal .first v rest (.cas head i []) ∧
    (t.pre.local_queue_ v).head_ = (t.pre.local_queue_ v).tail_

/-- The call has observed every queue empty. -/
structure SeesAllEmpty (w : Fin n) (c : Call n m τ) : Prop where
  own : SeesOwnEmpty w c
  global : SeesGlobalEmpty w c
  others : ∀ v, v ≠ w → SeesVictimEmpty w v c

/-- The call has returned. -/
def Returns (w : Fin n) (c : Call n m τ) : Prop :=
  ∃ t ∈ c, (∃ task, t.post.pc w = .shouldWake (.work task)) ∨ t.post.pc w = .returned

/-- The first thing the call has done is to poll the global queue. -/
def PollsFirst (w : Fin n) (c : Call n m τ) : Prop :=
  ∃ first poll rest, c = first :: poll :: rest ∧
    first.pre.pc w = .pickTask ∧ poll.pre.pc w = .grab .starvation

/-- The worker parks, or `PickTask` returns `nullptr`. -/
def Pc.GivesUp : Pc n τ → Prop
  | .wait _ => True
  | .asleep _ => True
  | .unlinkStopped => True
  | .returned => True
  | _ => False

/-! ## Steps and calls -/

variable {w : Fin n} {t : Transition (State n m τ) (Action n m τ)}

theorem addStep_of_pickTask (ht : (t.pre.pc w).isPickTask = true) (l : List (Call n m τ)) :
    addStep w t l = [t] :: l := by
  cases l <;> simp [addStep, ht]

theorem addStep_nil (ht : (t.pre.pc w).isPickTask = false) : addStep w t [] = [] := by
  simp [addStep, ht]

theorem addStep_cons (ht : (t.pre.pc w).isPickTask = false) (c : Call n m τ)
    (older : List (Call n m τ)) : addStep w t (c :: older) = (c ++ [t]) :: older := by
  simp [addStep, ht]

theorem calls_cons_of_work (ht : t.act.isWork w = true)
    (h : List (Transition (State n m τ) (Action n m τ))) :
    calls w (t :: h) = addStep w t (calls w h) := by
  rw [calls, if_pos ht]

theorem calls_cons_of_not_work (ht : t.act.isWork w = false)
    (h : List (Transition (State n m τ) (Action n m τ))) : calls w (t :: h) = calls w h := by
  rw [calls, if_neg (by rw [ht]; decide)]

/-- The oldest calls of a run are all the calls of a shorter one. -/
theorem exists_run_calls {h : List (Transition (State n m τ) (Action n m τ))} {s : State n m τ}
    (hr : (machine n m τ capacity).Run h s) {newer l : List (Call n m τ)}
    (hl : calls w h = newer ++ l) :
    ∃ h' s', (machine n m τ capacity).Run h' s' ∧ calls w h' = l := by
  cases newer with
  | nil => exact ⟨h, s, hr, hl⟩
  | cons d newer =>
    induction hr generalizing d newer with
    | init _ => cases hl
    | @step h s s' a hr hs ih =>
      by_cases hw : a.isWork w = true
      · rw [calls_cons_of_work hw] at hl
        cases hpick : (s.pc w).isPickTask with
        | true =>
          -- the newest call has only just begun: the others are those of `h`
          rw [addStep_of_pickTask hpick, List.cons_append, List.cons.injEq] at hl
          cases newer with
          | nil => exact ⟨h, s, hr, hl.2⟩
          | cons e newer => exact ih e newer hl.2
        | false =>
          cases hc : calls w h with
          | nil =>
            rw [hc, addStep_nil hpick] at hl
            cases hl
          | cons c older =>
            rw [hc, addStep_cons hpick, List.cons_append, List.cons.injEq] at hl
            -- a step inside the newest call leaves the older ones as they are
            exact ih c newer (by rw [hc, hl.2, List.cons_append])
      · rw [calls_cons_of_not_work (by simpa using hw)] at hl
        exact ih d newer hl

/-! ## What a step adds to a call -/

section Grow

variable {w : Fin n} {t : Transition (State n m τ) (Action n m τ)} {c : Call n m τ}

theorem exists_mem_append {P : Transition (State n m τ) (Action n m τ) → Prop}
    (h : ∃ u ∈ c, P u) (t : Transition (State n m τ) (Action n m τ)) : ∃ u ∈ c ++ [t], P u := by
  obtain ⟨u, hu, hp⟩ := h
  exact ⟨u, List.mem_append_left _ hu, hp⟩

theorem exists_mem_append_last {P : Transition (State n m τ) (Action n m τ) → Prop}
    (h : P t) (c : Call n m τ) : ∃ u ∈ c ++ [t], P u :=
  ⟨t, List.mem_append_right _ (List.mem_singleton.mpr rfl), h⟩

theorem SeesAllEmpty.append (h : SeesAllEmpty w c)
    (t : Transition (State n m τ) (Action n m τ)) : SeesAllEmpty w (c ++ [t]) :=
  ⟨exists_mem_append h.own t, exists_mem_append h.global t,
    fun v hv => exists_mem_append (h.others v hv) t⟩

/-- A step that takes nothing out of the slot does not make a call one that has. -/
theorem takesLifo_append (ht : (t.pre.pc w).isLifo = true → (t.pre.lifo_slot_ w).isSome = true →
    (t.post.lifo_slot_ w).isNone = false) : TakesLifo w (c ++ [t]) ↔ TakesLifo w c := by
  constructor
  · rintro ⟨u, hu, hpc, hpre, hpost⟩
    rcases List.mem_append.mp hu with hu | hu
    · exact ⟨u, hu, hpc, hpre, hpost⟩
    · rw [List.mem_singleton] at hu
      subst hu
      rw [ht hpc hpre] at hpost
      cases hpost
  · intro h
    exact exists_mem_append h t

end Grow

/-! ## The bound on a streak -/

/-- The newest calls, as long as they have taken their task from the slot and none of them
has found all queues empty, are at most `b`. -/
def StreakBound (w : Fin n) (l : List (Call n m τ)) (b : ℕ) : Prop :=
  ∀ run, run <+: l → (∀ c ∈ run, TakesLifo w c ∧ ¬SeesAllEmpty w c) → run.length ≤ b

/-- The newest call is not served from the slot, or has found all queues empty. -/
theorem StreakBound.of_newest {l : List (Call n m τ)} {w : Fin n} {c : Call n m τ}
    (hc : TakesLifo w c → SeesAllEmpty w c) (b : ℕ) : StreakBound w (c :: l) b := by
  intro run hrun hall
  cases run with
  | nil => exact Nat.zero_le b
  | cons d run =>
    obtain ⟨rfl, -⟩ := List.cons_prefix_cons.mp hrun
    obtain ⟨htakes, hempty⟩ := hall d List.mem_cons_self
    exact absurd (hc htakes) hempty

/-- One more call makes a streak longer by one. -/
theorem StreakBound.cons {l : List (Call n m τ)} {w : Fin n} {b : ℕ} (h : StreakBound w l b)
    (c : Call n m τ) : StreakBound w (c :: l) (b + 1) := by
  intro run hrun hall
  cases run with
  | nil => exact Nat.zero_le _
  | cons d run =>
    have hle := h run (List.cons_prefix_cons.mp hrun).2 fun e he =>
      hall e (List.mem_cons_of_mem _ he)
    rw [List.length_cons]
    omega

/-- A step in the newest call that takes nothing out of the slot. -/
theorem StreakBound.grow {l : List (Call n m τ)} {w : Fin n} {c d : Call n m τ} {b : ℕ}
    (h : StreakBound w (c :: l) b) (htakes : TakesLifo w d → TakesLifo w c)
    (hempty : SeesAllEmpty w c → SeesAllEmpty w d) : StreakBound w (d :: l) b := by
  intro run hrun hall
  cases run with
  | nil => exact Nat.zero_le b
  | cons e run =>
    obtain ⟨rfl, hrest⟩ := List.cons_prefix_cons.mp hrun
    -- the newest call counts if it counted before the step
    refine h (c :: run) (List.cons_prefix_cons.mpr ⟨rfl, hrest⟩) fun f hf => ?_
    rcases List.mem_cons.mp hf with rfl | hf
    · obtain ⟨h₁, h₂⟩ := hall e List.mem_cons_self
      exact ⟨htakes h₁, fun hs => h₂ (hempty hs)⟩
    · exact hall f (List.mem_cons_of_mem _ hf)

/-! ## What a worker knows in the middle of a call -/

/-- What holds of the newest call and of the calls before it. -/
def Newest (P : Call n m τ → List (Call n m τ) → Prop) (l : List (Call n m τ)) : Prop :=
  ∃ c older, l = c :: older ∧ P c older

/-- The call has taken nothing from the slot yet, and the streak before it is within the
chain. -/
def Unserved (w : Fin n) (chain : ℕ) (c : Call n m τ) (older : List (Call n m τ)) : Prop :=
  ¬TakesLifo w c ∧ StreakBound w older chain

/-- What is known of the calls of worker `w`, of its chain and of its slot when the worker is
at a place in `PickTask`. Once a task has been found, nothing. -/
def Pc.Knows (w : Fin n) (chain : ℕ) (slot : Option τ) (l : List (Call n m τ)) :
    Pc n τ → Prop
  | .grab .starvation => Newest (Unserved w chain) l
  | .lifo .first => Newest (fun c older => SeesAllEmpty w c ∨ Unserved w chain c older) l
  | .pop .first _ => chain = 0 ∧ Newest (fun _ _ => True) l
  | .grab .first => chain = 0 ∧ Newest (fun c _ => SeesOwnEmpty w c) l
  | .steal .first v rest pc => chain = 0 ∧
    Newest (fun c _ => SeesOwnEmpty w c ∧ SeesGlobalEmpty w c ∧
      (∀ u, u ≠ w → u ∉ v :: rest → SeesVictimEmpty w u c) ∧
      ∀ head i, pc = .cas head i [] → SeesVictimEmpty w v c) l
  | .loadWakeups | .addStopped _ | .lifo (.second _) =>
    chain = 0 ∧ Newest (fun c _ => SeesAllEmpty w c) l
  | .pop (.second _) _ | .grab (.second _) | .steal (.second _) _ _ _
  | .checkStop _ | .wait _ | .asleep _ | .unlinkWoken =>
    slot = none ∧ Newest (fun c _ => SeesAllEmpty w c) l
  | .unlinkStopped | .returned => slot = none
  | .lifo .starvation | .pop .starvation _ | .steal .starvation _ _ _ => False
  | _ => True

/-- The invariant about the calls `l` of worker `w`. -/
structure Progress (w : Fin n) (l : List (Call n m τ)) (s : State n m τ) : Prop where
  chain_le : s.filo_chain_ w ≤ kFILOMaxChain
  streak : StreakBound w l (s.filo_chain_ w)
  knows : (s.pc w).Knows w (s.filo_chain_ w) (s.lifo_slot_ w) l

/-- A place of which nothing is said. -/
def Pc.Free (m : ℕ) (pc : Pc n τ) : Prop :=
  ∀ (w : Fin n) (chain : ℕ) (slot : Option τ) (l : List (Call n m τ)), pc.Knows w chain slot l

theorem found_free (scan : Scan) (task : τ) : (found scan task : Pc n τ).Free m := by
  intro _ _ _ _
  cases scan <;> trivial

theorem getFromBuffer_free (scan : Scan) (task : τ) (rest : List τ) :
    (getFromBuffer scan task rest : Pc n τ).Free m := by
  cases rest with
  | nil => exact found_free scan task
  | cons next rest => exact fun _ _ _ _ => trivial

theorem resume_free (k : Caller τ) : (k.resume : Pc n τ).Free m := by
  cases k with
  | getFromBuffer scan task rest => exact getFromBuffer_free scan task rest
  | push cur => exact fun _ _ _ _ => trivial

theorem afterNotify_resume_free (k : AfterNotify τ) : (k.resume : Pc n τ).Free m := by
  cases k with
  | offload k => exact resume_free k
  | _ => exact fun _ _ _ _ => trivial

section Knows

variable {w : Fin n} {chain : ℕ} {slot : Option τ} {l : List (Call n m τ)}

theorem Newest.imp {P Q : Call n m τ → List (Call n m τ) → Prop} (h : Newest P l)
    (hPQ : ∀ c older, P c older → Q c older) : Newest Q l := by
  obtain ⟨c, older, hl, hp⟩ := h
  exact ⟨c, older, hl, hPQ c older hp⟩

/-- A step inside the newest call. -/
theorem Newest.step {P Q : Call n m τ → List (Call n m τ) → Prop}
    {t : Transition (State n m τ) (Action n m τ)} (h : Newest P l)
    (hpc : (t.pre.pc w).isPickTask = false) (hPQ : ∀ c older, P c older → Q (c ++ [t]) older) :
    Newest Q (addStep w t l) := by
  obtain ⟨c, older, rfl, hp⟩ := h
  exact ⟨c ++ [t], older, addStep_cons hpc c older, hPQ c older hp⟩

/-- At the slot the call is not served yet, or it has already searched in vain. -/
theorem lifo_knows {scan : Scan} (h : (.lifo scan : Pc n τ).Knows w chain slot l) :
    Newest (fun c older => SeesAllEmpty w c ∨ Unserved w chain c older) l := by
  cases scan with
  | starvation => exact absurd h id
  | first => exact h
  | second e => exact h.2.imp fun _ _ => .inl

/-- The first search goes on to the next victim, or has come to its end. -/
theorem stealFrom_first_knows {rest : List (Fin n)} (hchain : chain = 0)
    (h : Newest (fun c _ => SeesOwnEmpty w c ∧ SeesGlobalEmpty w c ∧
      ∀ u, u ≠ w → u ∉ rest → SeesVictimEmpty w u c) l) :
    (stealFrom .first rest : Pc n τ).Knows w chain slot l := by
  cases rest with
  | nil =>
    refine ⟨hchain, h.imp ?_⟩
    rintro c - ⟨hown, hglobal, hothers⟩
    exact ⟨hown, hglobal, fun u hu => hothers u hu List.not_mem_nil⟩
  | cons v rest =>
    refine ⟨hchain, h.imp ?_⟩
    rintro c - ⟨hown, hglobal, hothers⟩
    exact ⟨hown, hglobal, hothers, fun _ _ hcas => by cases hcas⟩

theorem stealFrom_second_knows {e : ℕ} (rest : List (Fin n)) (hslot : slot = none)
    (h : Newest (fun c _ => SeesAllEmpty w c) l) :
    (stealFrom (.second e) rest : Pc n τ).Knows w chain slot l := by
  cases rest with
  | nil => exact ⟨hslot, h⟩
  | cons v rest => exact ⟨hslot, h⟩

end Knows

/-! ## One step of the worker -/

section Step

variable {w : Fin n} {l : List (Call n m τ)} {s s' : State n m τ} {a : Action n m τ}

/-- A step that takes nothing out of the slot leaves the bound of the streak as it is. -/
theorem StreakBound.step {b : ℕ} (h : StreakBound w l b) (hpc : (s.pc w).isPickTask = false)
    (htake : (s.pc w).isLifo = true → (s.lifo_slot_ w).isSome = true →
      (s'.lifo_slot_ w).isNone = false) : StreakBound w (addStep w ⟨s, a, s'⟩ l) b := by
  cases l with
  | nil =>
    rw [addStep_nil hpc]
    exact h
  | cons c older =>
    rw [addStep_cons hpc]
    exact h.grow (takesLifo_append htake).mp fun hs => hs.append _

/-- A step outside `PickTask`'s first step and the LIFO slot, to a place where what is known
is known. -/
theorem Progress.move {pc pc' : Pc n τ} (h : Progress w l s) (hpc : s.pc w = pc)
    (hplace : pc.isPickTask = false ∧ pc.isLifo = false)
    (hchain : s'.filo_chain_ w = s.filo_chain_ w) (hslot : s'.lifo_slot_ w = s.lifo_slot_ w)
    (hpc' : s'.pc w = pc')
    (hknows : pc'.Knows w (s.filo_chain_ w) (s.lifo_slot_ w) (addStep w ⟨s, a, s'⟩ l)) :
    Progress w (addStep w ⟨s, a, s'⟩ l) s' := by
  refine ⟨by rw [hchain]; exact h.chain_le, ?_, ?_⟩
  · rw [hchain]
    refine h.streak.step (by rw [hpc]; exact hplace.1) fun hlifo => ?_
    rw [hpc, hplace.2] at hlifo
    cases hlifo
  · rw [hchain, hslot, hpc']
    exact hknows

/-- The call is served from the slot. -/
theorem Progress.take {scan : Scan} {task : τ} (h : Progress w l s) (hpc : s.pc w = .lifo scan)
    (hfilo : s.filo_chain_ w < kFILOMaxChain)
    (hchain : s'.filo_chain_ w = s.filo_chain_ w + 1) (hpc' : s'.pc w = found scan task) :
    Progress w (addStep w ⟨s, a, s'⟩ l) s' := by
  have hne : (s.pc w).isPickTask = false := by
    rw [hpc]
    rfl
  refine ⟨by omega, ?_, by rw [hpc']; exact found_free _ _ _ _ _ _⟩
  have hk := h.knows
  rw [hpc] at hk
  rw [hchain]
  -- either the call is one of the calls that have found all queues empty, or it makes the
  -- streak longer by one, as it does the chain
  obtain ⟨c, older, rfl, hc⟩ := lifo_knows hk
  rw [addStep_cons hne]
  rcases hc with hempty | ⟨-, hstreak⟩
  · exact .of_newest (fun _ => hempty.append _) _
  · exact hstreak.cons _

/-- The call passes the slot by, and the chain is reset. -/
theorem Progress.skip {scan : Scan} (h : Progress w l s) (hpc : s.pc w = .lifo scan)
    (hslot : s.filo_chain_ w < kFILOMaxChain → s.lifo_slot_ w = none)
    (hchain : s'.filo_chain_ w = 0) (hkeep : s'.lifo_slot_ w = s.lifo_slot_ w)
    (hpc' : s'.pc w = .pop scan .loadHead) : Progress w (addStep w ⟨s, a, s'⟩ l) s' := by
  have hne : (s.pc w).isPickTask = false := by
    rw [hpc]
    rfl
  have htake : (s.lifo_slot_ w).isSome = true → (s'.lifo_slot_ w).isNone = false := by
    intro hsome
    rw [hkeep, Option.isNone_eq_false_iff, hsome]
  have hk := h.knows
  rw [hpc] at hk
  refine ⟨by omega, ?_, ?_⟩
  -- with the chain at zero, the newest call must not be one of a streak
  · obtain ⟨c, older, rfl, hc⟩ := lifo_knows hk
    rw [hchain, addStep_cons hne]
    refine .of_newest (fun htakes => ?_) 0
    rcases hc with hempty | ⟨hno, -⟩
    · exact hempty.append _
    · exact absurd ((takesLifo_append fun _ => htake).mp htakes) hno
  · rw [hpc']
    cases scan with
    | starvation => exact absurd hk id
    | first => exact ⟨hchain, hk.step hne fun _ _ _ => trivial⟩
    | second e =>
      -- the first search has reset the chain, so it was the slot that was empty
      obtain ⟨h0, hempty⟩ := hk
      refine ⟨?_, hempty.step hne fun c _ hc => hc.append _⟩
      rw [hkeep]
      exact hslot (by rw [h0]; decide)

/-- **A worker's step keeps the invariant about its calls.** -/
theorem Progress.workerStep (h : Progress w l s) (hs : WorkerStep capacity w s s') :
    Progress w (addStep w ⟨s, a, s'⟩ l) s' := by
  have hk := h.knows
  cases hs with
  | pickTask hpc =>
    -- a call that begins has taken nothing yet
    have hno : ∀ t : Transition (State n m τ) (Action n m τ), t.pre = s → ¬TakesLifo w [t] := by
      rintro t rfl ⟨u, hu, hlifo, -⟩
      rw [List.mem_singleton.mp hu, hpc] at hlifo
      cases hlifo
    rw [addStep_of_pickTask (by rw [hpc]; rfl)]
    refine ⟨h.chain_le, .of_newest (fun htakes => absurd htakes (hno _ rfl)) _, ?_⟩
    rw [setPc_pc_self]
    split
    · exact ⟨_, l, rfl, hno _ rfl, h.streak⟩
    · exact ⟨_, l, rfl, .inr ⟨hno _ rfl, h.streak⟩⟩
  | lifoTake hpc hfilo hslot => exact h.take hpc hfilo (by simp [State.setPc]) (setPc_pc_self _ _ _)
  | lifoSkip hpc hslot =>
    exact h.skip hpc hslot (by simp [State.setPc]) rfl (setPc_pc_self _ _ _)
  | @popMove scan pc pc' hpc hv =>
    refine h.move hpc ⟨rfl, rfl⟩ rfl rfl (setPc_pc_self _ _ _) ?_
    rw [hpc] at hk
    have hne : (s.pc w).isPickTask = false := by rw [hpc]; rfl
    cases scan with
    | starvation => exact hk
    | first => exact ⟨hk.1, hk.2.step hne fun _ _ _ => trivial⟩
    | second e => exact ⟨hk.1, hk.2.step hne fun _ _ hc => hc.append _⟩
  | popTake hpc hq =>
    exact h.move hpc ⟨rfl, rfl⟩ rfl rfl (setPc_pc_self _ _ _) (found_free _ _ _ _ _ _)
  | @popEmpty scan pc hpc hempty =>
    refine h.move hpc ⟨rfl, rfl⟩ rfl rfl (setPc_pc_self _ _ _) ?_
    rw [hpc] at hk
    have hne : (s.pc w).isPickTask = false := by rw [hpc]; rfl
    cases scan with
    | starvation => exact absurd hk id
    | first =>
      refine ⟨hk.1, hk.2.step hne fun c _ _ => ?_⟩
      exact exists_mem_append_last ⟨⟨pc, hpc⟩, setPc_pc_self _ _ _, hempty⟩ c
    | second e => exact ⟨hk.1, hk.2.step hne fun _ _ hc => hc.append _⟩
  | @grabNone scan hpc hempty =>
    refine h.move hpc ⟨rfl, rfl⟩ rfl rfl (setPc_pc_self _ _ _) ?_
    rw [hpc] at hk
    have hne : (s.pc w).isPickTask = false := by rw [hpc]; rfl
    cases scan with
    | starvation =>
      refine hk.step hne fun c older hc => .inr ⟨?_, hc.2⟩
      rw [takesLifo_append (fun hlifo => by rw [hpc] at hlifo; cases hlifo)]
      exact hc.1
    | first =>
      refine stealFrom_first_knows hk.1 (hk.2.step hne fun c _ hown => ?_)
      refine ⟨exists_mem_append hown _, exists_mem_append_last ⟨hpc, hempty⟩ c, ?_⟩
      -- all the victims are still to come
      intro u hu hno
      exact absurd (by simp [victims, hu]) hno
    | second e => exact stealFrom_second_knows _ hk.1 (hk.2.step hne fun _ _ hc => hc.append _)
  | grabSome hpc hg =>
    exact h.move hpc ⟨rfl, rfl⟩ rfl rfl (setPc_pc_self _ _ _) (getFromBuffer_free _ _ _ _ _ _ _)
  | @stealMove scan victim rest pc pc' hpc hv hempty =>
    refine h.move hpc ⟨rfl, rfl⟩ rfl rfl (setPc_pc_self _ _ _) ?_
    rw [hpc] at hk
    have hne : (s.pc w).isPickTask = false := by rw [hpc]; rfl
    cases scan with
    | starvation => exact hk
    | first =>
      refine ⟨hk.1, hk.2.step hne ?_⟩
      rintro c - ⟨hown, hglobal, hothers, -⟩
      refine ⟨exists_mem_append hown _, exists_mem_append hglobal _,
        fun u hu hno => exists_mem_append (hothers u hu hno) _, ?_⟩
      -- an empty batch means that the victim had nothing
      rintro head i rfl
      exact exists_mem_append_last
        ⟨rest, pc, head, i, hpc, setPc_pc_self _ _ _, hempty head i rfl⟩ c
    | second e => exact ⟨hk.1, hk.2.step hne fun _ _ hc => hc.append _⟩
  | @stealNone scan victim rest head i hpc =>
    refine h.move hpc ⟨rfl, rfl⟩ rfl rfl (setPc_pc_self _ _ _) ?_
    rw [hpc] at hk
    have hne : (s.pc w).isPickTask = false := by rw [hpc]; rfl
    cases scan with
    | starvation => exact absurd hk id
    | first =>
      refine stealFrom_first_knows hk.1 (hk.2.step hne ?_)
      rintro c - ⟨hown, hglobal, hothers, hvictim⟩
      refine ⟨exists_mem_append hown _, exists_mem_append hglobal _, fun u hu hno => ?_⟩
      apply exists_mem_append
      -- the victim that was left, or one of those before it
      by_cases huv : u = victim
      · rw [huv]
        exact hvictim head i rfl
      · exact hothers u hu (by simp [huv, hno])
    | second e => exact stealFrom_second_knows _ hk.1 (hk.2.step hne fun _ _ hc => hc.append _)
  | stealSome hpc hq =>
    exact h.move hpc ⟨rfl, rfl⟩ rfl rfl (setPc_pc_self _ _ _) (getFromBuffer_free _ _ _ _ _ _ _)
  | pushMove hpc hq hv => exact h.move hpc ⟨rfl, rfl⟩ rfl rfl (setPc_pc_self _ _ _) trivial
  | pushDone hpc hq =>
    exact h.move hpc ⟨rfl, rfl⟩ rfl rfl (setPc_pc_self _ _ _) (resume_free _ _ _ _ _)
  | pushRefused hpc => exact h.move hpc ⟨rfl, rfl⟩ rfl rfl (setPc_pc_self _ _ _) trivial
  | offloadMove hpc hv => exact h.move hpc ⟨rfl, rfl⟩ rfl rfl (setPc_pc_self _ _ _) trivial
  | offloadTake hpc hq => exact h.move hpc ⟨rfl, rfl⟩ rfl rfl (setPc_pc_self _ _ _) trivial
  | pushMany hpc => exact h.move hpc ⟨rfl, rfl⟩ rfl rfl (setPc_pc_self _ _ _) trivial
  | shouldWakeYes hpc hsize => exact h.move hpc ⟨rfl, rfl⟩ rfl rfl (setPc_pc_self _ _ _) trivial
  | shouldWakeNo hpc hsize =>
    rw [notified_eq]
    exact h.move hpc ⟨rfl, rfl⟩ rfl rfl (setPc_pc_self _ _ _) (afterNotify_resume_free _ _ _ _ _)
  | wakeWorker hpc =>
    rw [notified_eq, wakeWorker_frame]
    exact h.move hpc ⟨rfl, rfl⟩ rfl rfl (setPc_pc_self _ _ _) (afterNotify_resume_free _ _ _ _ _)
  | loadWakeups hpc =>
    refine h.move hpc ⟨rfl, rfl⟩ rfl rfl (setPc_pc_self _ _ _) ?_
    rw [hpc] at hk
    exact ⟨hk.1, hk.2.step (by rw [hpc]; rfl) fun _ _ hc => hc.append _⟩
  | addStopped hpc =>
    refine h.move hpc ⟨rfl, rfl⟩ ?_ ?_ (setPc_pc_self _ _ _) ?_
    · unfold State.addStoppedWorker; split <;> rfl
    · unfold State.addStoppedWorker; split <;> rfl
    · rw [hpc] at hk
      exact ⟨hk.1, hk.2.step (by rw [hpc]; rfl) fun _ _ hc => hc.append _⟩
  | unlinkFound hpc => exact h.move hpc ⟨rfl, rfl⟩ rfl rfl (setPc_pc_self _ _ _) trivial
  -- what it leaves with is what the second search has found out about the slot
  | checkStopYes hpc hstop =>
    rw [hpc] at hk
    exact h.move hpc ⟨rfl, rfl⟩ rfl rfl (setPc_pc_self _ _ _) hk.1
  | checkStopNo hpc hstop =>
    refine h.move hpc ⟨rfl, rfl⟩ rfl rfl (setPc_pc_self _ _ _) ?_
    rw [hpc] at hk
    exact ⟨hk.1, hk.2.step (by rw [hpc]; rfl) fun _ _ hc => hc.append _⟩
  | unlinkStopped hpc =>
    rw [hpc] at hk
    exact h.move hpc ⟨rfl, rfl⟩ rfl rfl (setPc_pc_self _ _ _) hk
  | waitSleep hpc he =>
    refine h.move hpc ⟨rfl, rfl⟩ rfl rfl (setPc_pc_self _ _ _) ?_
    rw [hpc] at hk
    exact ⟨hk.1, hk.2.step (by rw [hpc]; rfl) fun _ _ hc => hc.append _⟩
  | waitPass hpc he =>
    refine h.move hpc ⟨rfl, rfl⟩ rfl rfl (setPc_pc_self _ _ _) ?_
    rw [hpc] at hk
    exact ⟨hk.1, hk.2.step (by rw [hpc]; rfl) fun _ _ hc => hc.append _⟩
  -- after a sleep the search begins again, in the same call
  | unlinkWoken hpc =>
    refine h.move hpc ⟨rfl, rfl⟩ rfl rfl (setPc_pc_self _ _ _) ?_
    rw [hpc] at hk
    exact hk.2.step (by rw [hpc]; rfl) fun _ _ hc => .inl (hc.append _)
  | pushGlobal hpc => exact h.move hpc ⟨rfl, rfl⟩ rfl rfl (setPc_pc_self _ _ _) trivial

end Step

/-! ## The steps of the others -/

/-- What worker `v` leaves of another worker. -/
theorem WorkerStep.other {s s' : State n m τ} {v w : Fin n} (hs : WorkerStep capacity v s s')
    (hne : w ≠ v) : s'.filo_chain_ w = s.filo_chain_ w ∧ s'.iter_ w = s.iter_ w ∧
      s'.lifo_slot_ w = s.lifo_slot_ w ∧
      (s'.pc w = s.pc w ∨ (∃ e, s.pc w = .asleep e) ∧ s'.pc w = .unlinkWoken) := by
  cases hs with
  | wakeWorker hpc =>
    rw [notified_eq, wakeWorker_frame]
    refine ⟨rfl, rfl, rfl, ?_⟩
    rw [setPc_pc_of_ne _ _ hne]
    exact wakeWorker_pc s w
  | shouldWakeNo hpc hsize =>
    rw [notified_eq]
    exact ⟨rfl, rfl, rfl, .inl (setPc_pc_of_ne _ _ hne)⟩
  | addStopped hpc =>
    unfold State.addStoppedWorker
    split
    all_goals exact ⟨rfl, rfl, rfl, .inl (setPc_pc_of_ne _ _ hne)⟩
  | pickTask hpc =>
    exact ⟨rfl, by simp [State.setPc, hne], rfl, .inl (setPc_pc_of_ne _ _ hne)⟩
  | lifoTake hpc hfilo hslot =>
    exact ⟨by simp [State.setPc, hne], rfl, by simp [State.setPc, hne],
      .inl (setPc_pc_of_ne _ _ hne)⟩
  | lifoSkip hpc hslot =>
    exact ⟨by simp [State.setPc, hne], rfl, rfl, .inl (setPc_pc_of_ne _ _ hne)⟩
  | _ => exact ⟨rfl, rfl, rfl, .inl (setPc_pc_of_ne _ _ hne)⟩

/-- What a step that is not one of worker `w` in `PickTask`, `Push` or `Work` does to it: it
may be woken, and the body of its task may fill the slot. -/
theorem Effect.elsewhere {s s' : State n m τ} {a : Action n m τ} {w : Fin n}
    (hs : Effect capacity s a s') (ha : a.isWork w = false) :
    s'.filo_chain_ w = s.filo_chain_ w ∧ s'.iter_ w = s.iter_ w ∧
    (s'.lifo_slot_ w = s.lifo_slot_ w ∧
        (s'.pc w = s.pc w ∨ (∃ e, s.pc w = .asleep e) ∧ s'.pc w = .unlinkWoken) ∨
      (∃ cur, s.pc w = .running cur) ∧ (s'.pc w).Free m) := by
  -- the body of a task runs on its worker, and nobody looks at the slot then
  have hbody : ∀ {t : State n m τ} {v : Fin n} {cur : τ} {pc : Pc n τ}, s.pc v = .running cur →
      pc.Free m → t.filo_chain_ = s.filo_chain_ → t.iter_ = s.iter_ → t.pc = s.pc →
      (w ≠ v → t.lifo_slot_ w = s.lifo_slot_ w) →
      (t.setPc v pc).filo_chain_ w = s.filo_chain_ w ∧ (t.setPc v pc).iter_ w = s.iter_ w ∧
      ((t.setPc v pc).lifo_slot_ w = s.lifo_slot_ w ∧ ((t.setPc v pc).pc w = s.pc w ∨
          (∃ e, s.pc w = .asleep e) ∧ (t.setPc v pc).pc w = .unlinkWoken) ∨
        (∃ cur, s.pc w = .running cur) ∧ ((t.setPc v pc).pc w).Free m) := by
    intro t v cur pc hpc hfree hchain hiter hpcs hslot
    refine ⟨congrFun hchain w, congrFun hiter w, ?_⟩
    by_cases hw : w = v
    · subst hw
      exact .inr ⟨⟨cur, hpc⟩, by rw [setPc_pc_self]; exact hfree⟩
    · exact .inl ⟨hslot hw, .inl (by rw [setPc_pc_of_ne _ _ hw, hpcs])⟩
  cases hs with
  | @work v weak s' hw =>
    have hne : w ≠ v := by
      rintro rfl
      simp [Action.isWork] at ha
    obtain ⟨hchain, hiter, hslot, hpc⟩ := hw.other hne
    exact ⟨hchain, hiter, .inl ⟨hslot, hpc⟩⟩
  | @spurious v e hpc =>
    refine ⟨rfl, rfl, .inl ⟨rfl, ?_⟩⟩
    by_cases hw : w = v
    · subst hw
      exact .inr ⟨⟨e, hpc⟩, setPc_pc_self _ _ _⟩
    · exact .inl (setPc_pc_of_ne _ _ hw)
  | bodyLocal hpc => exact hbody hpc (fun _ _ _ _ => trivial) rfl rfl rfl fun _ => rfl
  | bodySlot hpc hslot =>
    exact hbody hpc (fun _ _ _ _ => trivial) rfl rfl rfl fun hne => by simp [hne]
  | bodyEvict hpc hslot =>
    exact hbody hpc (fun _ _ _ _ => trivial) rfl rfl rfl fun hne => by simp [hne]
  | bodyGlobal hpc => exact hbody hpc (fun _ _ _ _ => trivial) rfl rfl rfl fun _ => rfl
  | bodyDone hpc => exact hbody hpc (fun _ _ _ _ => trivial) rfl rfl rfl fun _ => rfl
  | outsideWake hi =>
    rw [wakeWorker_frame]
    exact ⟨rfl, rfl, .inl ⟨rfl, wakeWorker_pc s w⟩⟩
  | stopWake hs =>
    refine ⟨?_, ?_, .inl ⟨?_, wakeOne_pc s _ w⟩⟩
    all_goals dsimp only; rw [wakeOne_eq]; rfl
  | _ => exact ⟨rfl, rfl, .inl ⟨rfl, .inl rfl⟩⟩

theorem Progress.elsewhere {w : Fin n} {l : List (Call n m τ)} {s s' : State n m τ}
    {a : Action n m τ} (h : Progress w l s) (hs : Effect capacity s a s')
    (ha : a.isWork w = false) : Progress w l s' := by
  obtain ⟨hchain, -, hpc⟩ := hs.elsewhere ha
  refine ⟨by rw [hchain]; exact h.chain_le, by rw [hchain]; exact h.streak, ?_⟩
  have hk := h.knows
  rcases hpc with ⟨hslot, hpc | ⟨⟨e, hasleep⟩, hwoken⟩⟩ | ⟨-, hfree⟩
  · rw [hchain, hslot, hpc]
    exact hk
  -- a sleeper that is woken knows what it knew
  · rw [hasleep] at hk
    rw [hwoken, hslot]
    exact hk
  · exact hfree _ _ _ _

/-- **Every run keeps the invariant about a worker's calls.** -/
theorem progress_of_run {h : List (Transition (State n m τ) (Action n m τ))} {s : State n m τ}
    (hr : (machine n m τ capacity).Run h s) (w : Fin n) : Progress w (calls w h) s := by
  refine hr.invariant (I := fun h s => Progress w (calls w h) s) ?_ ?_
  · rintro s ⟨null, rfl⟩
    refine ⟨Nat.zero_le _, fun run hrun _ => ?_, trivial⟩
    rw [List.prefix_nil.mp hrun]
    exact Nat.zero_le _
  · intro h a s s' hreach ih hst
    have hs := step_cases (queues_of_reachable hreach) hst
    cases ha : a.isWork w with
    | true =>
      rw [calls_cons_of_work ha]
      cases hs with
      | @work v weak s' hw =>
        have hvw : v = w := by simpa [Action.isWork] using ha
        subst hvw
        exact ih.workerStep hw
      | _ => cases ha
    | false =>
      rw [calls_cons_of_not_work ha]
      exact ih.elsewhere hs ha

/-! ## The tick of 61 -/

/-- `iter_` counts the calls of `PickTask`, and of those whose number is divisible by 61 the
newest has polled the global queue first, or is just about to. -/
structure Ticks (w : Fin n) (l : List (Call n m τ)) (s : State n m τ) : Prop where
  iter_eq : s.iter_ w = l.length % sizeMod
  polls : ∀ c older, l = c :: older → (older.length + 1) % sizeMod % 61 = 0 →
    PollsFirst w c ∨ s.pc w = .grab .starvation ∧ ∃ first, c = [first] ∧
      first.pre.pc w = .pickTask ∧ first.post.pc w = .grab .starvation

theorem PollsFirst.append {w : Fin n} {c : Call n m τ} (h : PollsFirst w c)
    (t : Transition (State n m τ) (Action n m τ)) : PollsFirst w (c ++ [t]) := by
  obtain ⟨first, poll, rest, rfl, hfirst, hpoll⟩ := h
  exact ⟨first, poll, rest ++ [t], by simp, hfirst, hpoll⟩

/-- Only the first step of `PickTask` touches `iter_`. -/
theorem WorkerStep.iter_cases {s s' : State n m τ} {w : Fin n} (hs : WorkerStep capacity w s s') :
    s.pc w = .pickTask ∧ s'.iter_ w = (s.iter_ w + 1) % sizeMod ∧
      (s'.iter_ w % 61 = 0 → s'.pc w = .grab .starvation) ∨
    (s.pc w).isPickTask = false ∧ s'.iter_ w = s.iter_ w := by
  cases hs with
  | pickTask hpc =>
    have hiter : update s.iter_ w ((s.iter_ w + 1) % sizeMod) w = (s.iter_ w + 1) % sizeMod := by
      simp
    refine .inl ⟨hpc, hiter, fun h0 => ?_⟩
    have h61 : (s.iter_ w + 1) % sizeMod % 61 = 0 := by rwa [← hiter]
    rw [setPc_pc_self, if_pos h61]
  | shouldWakeNo hpc hsize =>
    rw [notified_eq]
    exact .inr ⟨by rw [hpc]; rfl, rfl⟩
  | wakeWorker hpc =>
    rw [notified_eq, wakeWorker_frame]
    exact .inr ⟨by rw [hpc]; rfl, rfl⟩
  | addStopped hpc =>
    unfold State.addStoppedWorker
    split
    all_goals exact .inr ⟨by rw [hpc]; rfl, rfl⟩
  | lifoTake hpc _ _ => exact .inr ⟨by rw [hpc]; rfl, rfl⟩
  | _ hpc => exact .inr ⟨by rw [hpc]; rfl, rfl⟩

theorem ticks_of_run {h : List (Transition (State n m τ) (Action n m τ))} {s : State n m τ}
    (hr : (machine n m τ capacity).Run h s) (w : Fin n) : Ticks w (calls w h) s := by
  refine hr.invariant (I := fun h s => Ticks w (calls w h) s) ?_ ?_
  · rintro s ⟨null, rfl⟩
    exact ⟨rfl, fun c older hl => by cases hl⟩
  intro h a s s' hreach ih hst
  have hs := step_cases (queues_of_reachable hreach) hst
  cases ha : a.isWork w with
  | true =>
    have hw : WorkerStep capacity w s s' := by
      cases hs with
      | @work v weak s' hw =>
        have hvw : v = w := by simpa [Action.isWork] using ha
        exact hvw ▸ hw
      | _ => cases ha
    rw [calls_cons_of_work ha]
    rcases hw.iter_cases with ⟨hpc, hiter, hpoll⟩ | ⟨hpick, hiter⟩
    · -- a new call, whose number `iter_` is
      rw [addStep_of_pickTask (by rw [hpc]; rfl)]
      have heq : s'.iter_ w = ((calls w h).length + 1) % sizeMod := by
        rw [hiter, ih.iter_eq, Nat.mod_add_mod]
      refine ⟨by rw [heq, List.length_cons], ?_⟩
      rintro c older hl h61
      obtain ⟨rfl, rfl⟩ := List.cons.inj hl
      have hnow := hpoll (by rw [heq]; exact h61)
      exact .inr ⟨hnow, _, rfl, hpc, hnow⟩
    · cases hc : calls w h with
      | nil =>
        rw [addStep_nil hpick]
        exact ⟨by rw [hiter, ih.iter_eq, hc], fun c older hl => by cases hl⟩
      | cons c older =>
        rw [addStep_cons hpick]
        refine ⟨by rw [hiter, ih.iter_eq, hc]; rfl, ?_⟩
        rintro d older' hl h61
        obtain ⟨rfl, rfl⟩ := List.cons.inj hl
        -- the call has polled, or this step is its poll
        rcases ih.polls c older hc h61 with hpolls | ⟨hgrab, first, rfl, hfirst, -⟩
        · exact .inl (hpolls.append _)
        · exact .inl ⟨first, _, [], rfl, hfirst, hgrab⟩
  | false =>
    obtain ⟨-, hiter, hpc⟩ := hs.elsewhere ha
    rw [calls_cons_of_not_work ha]
    refine ⟨by rw [hiter, ih.iter_eq], fun c older hl h61 => ?_⟩
    rcases ih.polls c older hl h61 with hpolls | ⟨hgrab, hfirst⟩
    · exact .inl hpolls
    refine .inr ⟨?_, hfirst⟩
    -- a worker in front of its poll is neither asleep nor in a body
    rcases hpc with ⟨-, hpc | ⟨⟨e, hasleep⟩, -⟩⟩ | ⟨⟨cur, hrun⟩, -⟩
    · rw [hpc, hgrab]
    · rw [hgrab] at hasleep
      cases hasleep
    · rw [hgrab] at hrun
      cases hrun

/-! ## The bounds -/

section Bounds

variable {h : List (Transition (State n m τ) (Action n m τ))} {s : State n m τ} {w : Fin n}
  {newer run older : List (Call n m τ)}

/-- One of 17 calls in a row that are all served from the slot has found every queue
empty. -/
theorem exists_seesAllEmpty (hr : (machine n m τ capacity).Run h s)
    (hcalls : calls w h = newer ++ run ++ older) (hlen : run.length = kFILOMaxChain + 1)
    (hall : ∀ c ∈ run, TakesLifo w c) : ∃ c ∈ run, SeesAllEmpty w c := by
  by_contra hno
  push Not at hno
  -- back to the moment at which the last of these calls was the newest one
  obtain ⟨h', s', hr', hcalls'⟩ := exists_run_calls hr (hcalls.trans (List.append_assoc _ _ _))
  have hprog := progress_of_run hr' w
  have hle : run.length ≤ s'.filo_chain_ w :=
    hprog.streak run (hcalls' ▸ List.prefix_append run older) fun c hc => ⟨hall c hc, hno c hc⟩
  have hchain := hprog.chain_le
  omega

/-- A call whose number is divisible by 61 polls the global queue first. -/
theorem pollsFirst_of_dvd (hr : (machine n m τ capacity).Run h s) {c : Call n m τ}
    (hcalls : calls w h = newer ++ c :: older) (hret : Returns w c)
    (hwrap : older.length + 1 < sizeMod) (h61 : 61 ∣ older.length + 1) : PollsFirst w c := by
  obtain ⟨h', s', hr', hcalls'⟩ := exists_run_calls hr hcalls
  have hmod : (older.length + 1) % sizeMod % 61 = 0 := by
    rw [Nat.mod_eq_of_lt hwrap]
    exact Nat.mod_eq_zero_of_dvd h61
  rcases (ticks_of_run hr' w).polls c older hcalls' hmod with hpolls | ⟨-, first, rfl, -, hpost⟩
  · exact hpolls
  · -- a call that has only made its first step has not returned
    obtain ⟨t, ht, hdone⟩ := hret
    rw [List.mem_singleton.mp ht, hpost] at hdone
    rcases hdone with ⟨task, hdone⟩ | hdone
    · cases hdone
    · cases hdone

/-- One of 61 calls in a row polls the global queue first. -/
theorem exists_pollsFirst (hr : (machine n m τ capacity).Run h s)
    (hwrap : (calls w h).length < sizeMod) (hcalls : calls w h = newer ++ run ++ older)
    (hlen : run.length = 61) (hret : ∀ c ∈ run, Returns w c) : ∃ c ∈ run, PollsFirst w c := by
  -- the call with the largest number divisible by 61
  have hi : older.length % 61 < run.length := by omega
  have hsplit : run = run.take (older.length % 61) ++
      run[older.length % 61] :: run.drop (older.length % 61 + 1) := by
    rw [← List.drop_eq_getElem_cons hi, List.take_append_drop]
  have hmem : run[older.length % 61] ∈ run := List.getElem_mem hi
  have htotal : (calls w h).length = newer.length + 61 + older.length := by
    rw [hcalls, List.length_append, List.length_append, hlen]
  refine ⟨run[older.length % 61], hmem, ?_⟩
  have hcalls' : calls w h = (newer ++ run.take (older.length % 61)) ++
      run[older.length % 61] :: (run.drop (older.length % 61 + 1) ++ older) := by
    calc calls w h = newer ++ run ++ older := hcalls
      _ = newer ++ (run.take (older.length % 61) ++
            run[older.length % 61] :: run.drop (older.length % 61 + 1)) ++ older := by
          rw [← hsplit]
      _ = _ := by simp only [List.append_assoc, List.cons_append]
  refine pollsFirst_of_dvd hr hcalls' (hret _ hmem) ?_ ?_
  -- its number is below `sizeMod`, and divisible by 61
  · rw [List.length_append, List.length_drop, hlen]
    omega
  · rw [List.length_append, List.length_drop, hlen]
    omega

/-- A worker that parks or leaves has nothing in its slot. -/
theorem slot_eq_none_of_givesUp (hr : (machine n m τ capacity).Run h s)
    (hpc : (s.pc w).GivesUp) : s.lifo_slot_ w = none := by
  have hk := (progress_of_run hr w).knows
  cases hp : s.pc w with
  | wait e => rw [hp] at hk; exact hk.1
  | asleep e => rw [hp] at hk; exact hk.1
  | unlinkStopped => rw [hp] at hk; exact hk
  | returned => rw [hp] at hk; exact hk
  | _ => rw [hp] at hpc; exact absurd hpc id

end Bounds

/-! ## A streak of seventeen calls -/

/-- The task running on the only worker submits `next` with the hint `Next` and ends, and the
worker takes `next` out of its slot. -/
def chainTo (next : ℕ) : List (Action 1 1 ℕ) :=
  [.bodySubmit 0 next .Next, .work 0 false, .bodyDone 0] ++ List.replicate 3 (.work 0 false)

/-- The worker runs the submitted task, which submits its successor, and so on sixteen times;
the sixteenth successor submits one more and ends. -/
def streak : List (Action 1 1 ℕ) :=
  [.submit 0 0, .outside 0, .outside 0] ++ List.replicate 6 (.work 0 false) ++
    (List.range 16).flatMap (fun i => chainTo (i + 1)) ++
    [.bodySubmit 0 17 .Next, .work 0 false, .bodyDone 0]

def Pc.isLoadWakeups : Pc n τ → Bool
  | .loadWakeups => true
  | _ => false

/-- `TryGetWork` has returned `nullptr` with a task in the slot. -/
theorem slot_left_reachable : ∃ s : State 1 1 ℕ, (machine 1 1 ℕ 1).Reachable s ∧
    ((s.pc 0).isLoadWakeups = true ∧ s.lifo_slot_ 0 = some 17) := by
  obtain ⟨s, hs, hp⟩ := Machine.Reachable.exec_any (M := machine 1 1 ℕ 1)
    (s := State.start 0) (.init ⟨0, rfl⟩) (streak ++ List.replicate 5 (.work 0 false))
    (fun s => decide ((s.pc 0).isLoadWakeups = true ∧ s.lifo_slot_ 0 = some 17))
    (by decide +kernel)
  exact ⟨s, hs, of_decide_eq_true hp⟩

/-- **A worker's LIFO slot starves nobody for long.** Of 17 calls of `PickTask` in a row that
are all served from the slot, one has found every queue empty; of 61 calls in a row, one has
polled the global queue before anything else, as long as `iter_` has not wrapped; and a
worker that parks, or whose `PickTask` returns `nullptr`, has nothing in its slot, although
its `TryGetWork` may have returned `nullptr` with a task there. -/
theorem lifo_starvation_bounded {h : List (Transition (State n m τ) (Action n m τ))}
    {s : State n m τ} (hr : (machine n m τ capacity).Run h s) (w : Fin n) :
    (∀ newer run older, calls w h = newer ++ run ++ older → run.length = kFILOMaxChain + 1 →
      (∀ c ∈ run, TakesLifo w c) → ∃ c ∈ run, SeesAllEmpty w c) ∧
    ((calls w h).length < sizeMod → ∀ newer run older, calls w h = newer ++ run ++ older →
      run.length = 61 → (∀ c ∈ run, Returns w c) → ∃ c ∈ run, PollsFirst w c) ∧
    ((s.pc w).GivesUp → s.lifo_slot_ w = none) ∧
    ∃ s' : State 1 1 ℕ, (machine 1 1 ℕ 1).Reachable s' ∧
      (s'.pc 0).isLoadWakeups = true ∧ s'.lifo_slot_ 0 = some 17 := by
  refine ⟨?_, ?_, slot_eq_none_of_givesUp hr, slot_left_reachable⟩
  · intro newer run older hcalls hlen hall
    exact exists_seesAllEmpty hr hcalls hlen hall
  · intro hwrap newer run older hcalls hlen hret
    exact exists_pollsFirst hr hwrap hcalls hlen hret

instance decidableTakesLifo (w : Fin n) (c : Call n m τ) : Decidable (TakesLifo w c) :=
  inferInstanceAs (Decidable (∃ t ∈ c, (t.pre.pc w).isLifo = true ∧
    (t.pre.lifo_slot_ w).isSome = true ∧ (t.post.lifo_slot_ w).isNone = true))

/-- The seventeen calls after the first one in the run of `streak`: the last of them finds the
chain at its limit and takes the task in its second search. -/
theorem lifo_starvation_bounded_streak :
    ∃ (h : List (Transition (State 1 1 ℕ) (Action 1 1 ℕ))) (s : State 1 1 ℕ),
      (machine 1 1 ℕ 1).Run h s ∧ ((calls 0 h).take 17).length = 17 ∧
      (∀ c ∈ (calls 0 h).take 17, TakesLifo 0 c) ∧
      ∃ c ∈ (calls 0 h).take 17, SeesAllEmpty 0 c := by
  obtain ⟨h, s, hr, hp⟩ := Machine.Run.record_any (M := machine 1 1 ℕ 1) (s := State.start 0)
    (.init ⟨0, rfl⟩) (streak ++ List.replicate 9 (.work 0 false))
    (fun h _ => decide (((calls (0 : Fin 1) h).take 17).length = 17 ∧
      ∀ c ∈ (calls (0 : Fin 1) h).take 17, TakesLifo (0 : Fin 1) c)) (by decide +kernel)
  obtain ⟨hlen, hall⟩ := of_decide_eq_true hp
  have hbound := (lifo_starvation_bounded hr 0).1 [] ((calls 0 h).take 17) ((calls 0 h).drop 17)
    (List.take_append_drop 17 _).symm hlen hall
  exact ⟨h, s, hr, hlen, hall, hbound⟩

end Exe.Pool
