/-
The calls of user functions: which tasks there are, how often each is run, and in which order.

A sequential combinator captures the runtime of its input when it is piped, and a state that
has been consumed keeps its runtime (`Keeps`). So the runtime a task is submitted to is the
one its input was consumed with (`Under`). Each promise is in one place: the task that is to
set it runs once at most (`Calls`). And a task is made when the input of its combinator has
been delivered, so that by then all the tasks upstream have run (`Ordered`).
-/
import Exe.FutureDelivery

set_option autoImplicit false

namespace Exe.Future

open Function (update)

universe u v

variable {V : Type u} {ρ : Type v}

/-! ## What a step leaves as it is -/

/-- A future that has been moved from stays so, and only `Via` changes a runtime; callbacks come
from `Consume` only, and are called by the rendezvous only; and states are piped by `Pipe`. -/
structure Keeps (i : Instr V ρ) (h h' : Heap V ρ) : Prop where
  size : h.size ≤ h'.size
  released : ∀ c < h.size, h.held c = false → h'.held c = false
  runtime : ∀ c < h.size, (h'.states c).runtime_ = (h.states c).runtime_ ∨
    h.held c = true ∧ ∃ rt k, i = .ret (.future c) (.pipe (.via rt) k)
  callback : ∀ cs cb, (h'.states cs).callback_ = some cb → i = .consume cs cb ∨
    (h.states cs).callback_ = some cb ∧
      ((h'.states cs).calls = [] → (h.states cs).calls = [])
  calls : ∀ c < h.size, (h'.states c).calls = (h.states c).calls ∨ i = .rendezvous c
  piped : ∀ p op c, h'.origin p = some (.pipe op c) → h.origin p = some (.pipe op c) ∨
    ∃ k, i = .ret (.future c) (.pipe op k)

section Keeping

variable {i : Instr V ρ} {h h' h'' : Heap V ρ}

theorem Keeps.of_eq (hsize : h'.size = h.size) (hheld : h'.held = h.held)
    (hstates : h'.states = h.states) : Keeps i h h' := by
  refine ⟨hsize.ge, fun c _ hc => ?_, fun c _ => .inl ?_, fun cs cb hcb => .inr ?_,
    fun c _ => .inl ?_, fun p op c ho => .inl ?_⟩
  · rw [hheld]
    exact hc
  · rw [hstates]
  · rw [hstates] at hcb ⊢
    exact ⟨hcb, id⟩
  · rw [hstates]
  · rwa [Heap.origin, hstates] at ho

theorem Keeps.trans (hk : Keeps i h h') (hk' : Keeps i h' h'') : Keeps i h h'' := by
  refine ⟨hk.size.trans hk'.size, fun c hc hheld => ?_, fun c hc => ?_, fun cs cb hcb => ?_,
    fun c hc => ?_, fun p op c ho => ?_⟩
  · exact hk'.released c (hc.trans_le hk.size) (hk.released c hc hheld)
  · obtain hrt | hvia := hk.runtime c hc
    · obtain hrt' | ⟨hheld', hvia⟩ := hk'.runtime c (hc.trans_le hk.size)
      · exact .inl (hrt'.trans hrt)
      · refine .inr ⟨?_, hvia⟩
        -- `Via` has the future in hand, so the first step has not consumed it
        by_contra hno
        rw [hk.released c hc (Bool.not_eq_true _ ▸ hno)] at hheld'
        cases hheld'
    · exact .inr hvia
  · obtain hi | ⟨hcb', hcalls'⟩ := hk'.callback cs cb hcb
    · exact .inl hi
    obtain hi | ⟨hcb, hcalls⟩ := hk.callback cs cb hcb'
    · exact .inl hi
    · exact .inr ⟨hcb, fun he => hcalls (hcalls' he)⟩
  · obtain hcalls' | hi := hk'.calls c (hc.trans_le hk.size)
    · exact (hk.calls c hc).imp_left hcalls'.trans
    · exact .inr hi
  · obtain ho | hi := hk'.piped p op c ho
    · exact hk.piped p op c ho
    · exact .inr hi

theorem Keeps.setState {cs : ℕ} {st : ContractState V ρ}
    (hrt : st.runtime_ = (h.states cs).runtime_ ∨
      h.held cs = true ∧ ∃ rt k, i = .ret (.future cs) (.pipe (.via rt) k))
    (hcb : ∀ cb, st.callback_ = some cb → i = .consume cs cb ∨
      (h.states cs).callback_ = some cb ∧ (st.calls = [] → (h.states cs).calls = []))
    (hcalls : st.calls = (h.states cs).calls ∨ i = .rendezvous cs)
    (horigin : st.origin = (h.states cs).origin) : Keeps i h (h.setState cs st) := by
  refine ⟨Nat.le_refl _, fun c _ hc => hc, fun c _ => ?_, fun cs' cb h' => ?_, fun c _ => ?_,
    fun p op c ho => .inl ?_⟩
  · by_cases he : c = cs
    · subst he
      rw [states_setState]
      exact hrt
    · rw [states_setState_of_ne he]
      exact .inl rfl
  · by_cases he : cs' = cs
    · subst he
      rw [states_setState] at h' ⊢
      exact hcb cb h'
    · rw [states_setState_of_ne he] at h' ⊢
      exact .inr ⟨h', id⟩
  · by_cases he : c = cs
    · subst he
      rw [states_setState]
      exact hcalls
    · rw [states_setState_of_ne he]
      exact .inl rfl
  · by_cases he : p = cs
    · subst he
      rw [Heap.origin, states_setState, horigin] at ho
      exact ho
    · rwa [Heap.origin, states_setState_of_ne he] at ho

/-- A new state is piped by `Pipe`. -/
theorem Keeps.contract (h : Heap V ρ) (rt : Runtime ρ) {o : Origin V ρ}
    (ho : ∀ op c, o = .pipe op c → ∃ k, i = .ret (.future c) (.pipe op k)) :
    Keeps i h (h.contract rt o) := by
  have hnew : (h.contract rt o).states h.size = ⟨0, none, none, rt, false, [], 0, some o⟩ :=
    states_setState _ _ _
  have hold : ∀ {c}, c ≠ h.size → (h.contract rt o).states c = h.states c := fun he =>
    states_setState_of_ne he _ _
  refine ⟨Nat.le_succ _, fun c hc hheld => ?_, fun c hc => .inl ?_, fun cs cb hcb => ?_,
    fun c hc => .inl ?_, fun p op c hp => ?_⟩
  · have hne : c ≠ h.size := Nat.ne_of_lt hc
    simpa [Heap.contract, hne] using hheld
  · rw [hold (Nat.ne_of_lt hc)]
  -- the new state has no callback yet
  · by_cases he : cs = h.size
    · subst he
      rw [hnew] at hcb
      cases hcb
    · rw [hold he] at hcb ⊢
      exact .inr ⟨hcb, id⟩
  · rw [hold (Nat.ne_of_lt hc)]
  · by_cases he : p = h.size
    · subst he
      rw [Heap.origin, hnew] at hp
      exact .inr (ho op c (Option.some.inj hp))
    · rw [Heap.origin, hold he] at hp
      exact .inl hp

theorem Keeps.release (h : Heap V ρ) (cs : ℕ) : Keeps i h (h.release cs) := by
  refine ⟨Nat.le_refl _, fun c _ hc => ?_, fun c _ => .inl rfl, fun _ _ hcb => .inr ⟨hcb, id⟩,
    fun _ _ => .inl rfl, fun _ _ _ => .inl⟩
  by_cases he : c = cs
  · subst he
    exact Function.update_self _ _ _
  · exact (Function.update_of_ne he _ _).trans hc

theorem Keeps.touch (h : Heap V ρ) (cs : ℕ) : Keeps i h (h.touch cs) := .of_eq rfl rfl rfl

theorem Keeps.share (h : Heap V ρ) (op : Concur) (p : ℕ) : Keeps i h (h.share op p) :=
  .of_eq rfl rfl rfl

theorem Keeps.refl (h : Heap V ρ) : Keeps i h h := .of_eq rfl rfl rfl

/-- An access of a contract state that is none of `Via`, `Consume` and the rendezvous. -/
theorem Keeps.access {cs : ℕ} {st : ContractState V ρ}
    (hrt : st.runtime_ = (h.states cs).runtime_)
    (hcb : st.callback_ = (h.states cs).callback_) (hcalls : st.calls = (h.states cs).calls)
    (ho : st.origin = (h.states cs).origin) : Keeps i h ((h.touch cs).setState cs st) := by
  refine (Keeps.touch h cs).trans (.setState (.inl hrt) (fun cb hs => .inr ?_) (.inl hcalls) ho)
  rw [hcb] at hs
  rw [hcalls]
  exact ⟨hs, id⟩

end Keeping

section Exec

variable {h : Heap V ρ} {i : Instr V ρ} {code : Expr V ρ} {out : Out V ρ}

theorem Keeps.retStep {v : Val V} {k : Cont V ρ} (hstep : retStep h v k = some out) :
    Keeps (.ret v k) h out.heap := by
  cases retMoves_of_step hstep with
  | consume _ cb => exact .release h _
  | ready v k => exact .contract h _ fun op c he => by cases he
  | @pipe cs hheld op k =>
    cases op with
    | via rt =>
      refine (Keeps.touch h cs).trans (.setState (.inr ⟨hheld, rt, k, rfl⟩) (fun cb hcb => ?_)
        (.inl rfl) rfl)
      exact .inr ⟨hcb, id⟩
    | _ =>
      refine ((Keeps.touch h cs).trans (.contract _ _ fun op' c he => ?_)).trans (.release _ cs)
      cases he
      exact ⟨k, rfl⟩
  | @concurSnd c₁ c₂ _ _ _ op k =>
    refine (((Keeps.contract h .inline fun _ _ he => ?_).trans (.share _ op h.size)).trans
      (.release _ c₁)).trans (.release _ c₂)
    cases he
  | _ => exact .refl h

theorem Keeps.call {cb : Callback V ρ} {v : Val V}
    (hstep : Future.callback h cb v = some out) :
    Keeps i h out.heap := by
  cases cb with
  | pipe op rt p =>
    obtain ⟨-, hheap, -⟩ | ⟨arg, code, lift, -, rfl⟩ | ⟨c, -, -, rfl⟩ := pipeCallback_cases hstep
    · rw [hheap]
      exact .of_eq rfl rfl rfl
    · rw [submit_heap]
      exact .refl h
    · exact .release h c
  | _ =>
    obtain rfl := Option.some.inj hstep
    exact .of_eq rfl rfl rfl

theorem Keeps.exec (hstep : exec code h i = some out) : Keeps i h out.heap := by
  cases i with
  | eval e k =>
    obtain rfl := Option.some.inj hstep
    cases e with
    | contract => exact .contract h _ fun op c he => by cases he
    | spawn rt user =>
      have hheap : (evalStep h k (.spawn rt user)).heap = h.contract rt (.spawn rt user) :=
        submit_heap _ _ _
      rw [hheap]
      exact .contract h _ fun op c he => by cases he
    | _ => exact .refl h
  | ret v k => exact .retStep hstep
  | produce cs v =>
    obtain rfl := Option.some.inj hstep
    exact .access rfl rfl rfl rfl
  | produced cs =>
    obtain rfl := Option.some.inj hstep
    exact .access rfl rfl rfl rfl
  | consume cs cb =>
    obtain rfl := Option.some.inj hstep
    refine (Keeps.touch h cs).trans (.setState (.inl rfl) (fun cb' hcb => .inl ?_) (.inl rfl) rfl)
    rw [Option.some.inj hcb]
  | consumed cs =>
    obtain rfl := Option.some.inj hstep
    exact .access rfl rfl rfl rfl
  | delete cs =>
    obtain rfl := Option.some.inj hstep
    exact .access rfl rfl rfl rfl
  | rendezvous cs =>
    cases rendezvousMoves_of_step hstep with
    | call _ _ ho =>
      have hcall := Keeps.call (i := .rendezvous cs) ho
      refine Keeps.trans ?_ hcall
      refine (Keeps.touch h cs).trans (.setState (.inl rfl) (fun cb hcb => .inr ⟨hcb, ?_⟩)
        (.inr rfl) rfl)
      -- the call is on record from now on
      intro hnil
      simp at hnil
    | crash => exact .of_eq rfl rfl rfl
  | call n s v =>
    obtain rfl := Option.some.inj hstep
    unfold callStep
    split <;> (try split) <;> exact .of_eq rfl rfl rfl
  | arrive n s v =>
    obtain rfl := Option.some.inj hstep
    unfold arriveStep
    dsimp only
    split <;> (try split) <;> exact .of_eq rfl rfl rfl
  | setTuple n =>
    obtain rfl := Option.some.inj hstep
    unfold setTupleStep
    dsimp only
    split <;> exact .of_eq rfl rfl rfl
  | setNode n v =>
    obtain rfl := Option.some.inj hstep
    unfold setNodeStep
    split <;> exact .of_eq rfl rfl rfl
  | _ =>
    obtain rfl := Option.some.inj hstep
    exact .of_eq rfl rfl rfl

end Exec

/-! ## What a task is submitted to -/

/-- The state has been consumed, and had the runtime when it was. -/
def ConsumedUnder (h : Heap V ρ) (c : ℕ) (rt : Runtime ρ) : Prop :=
  c < h.size ∧ h.held c = false ∧ (h.states c).runtime_ = rt

/-- The runtime for the user function that is to set the promise: the one the input was
consumed with, or the one of `Spawn`. -/
def Under (h : Heap V ρ) (p : ℕ) (rt : Runtime ρ) : Prop :=
  (∃ op c, h.origin p = some (.pipe op c) ∧ ConsumedUnder h c rt) ∨
    ∃ user, h.origin p = some (.spawn rt user)

theorem ConsumedUnder.mono {i : Instr V ρ} {h h' : Heap V ρ} (hk : Keeps i h h') {c : ℕ}
    {rt : Runtime ρ} (hc : ConsumedUnder h c rt) : ConsumedUnder h' c rt := by
  obtain ⟨hlt, hheld, hrt⟩ := hc
  refine ⟨hlt.trans_le hk.size, hk.released c hlt hheld, ?_⟩
  obtain hrt' | ⟨hheld', -⟩ := hk.runtime c hlt
  · exact hrt'.trans hrt
  · rw [hheld] at hheld'
    cases hheld'

theorem Under.mono {i : Instr V ρ} {h h' : Heap V ρ} (hk : Keeps i h h') (hg : Grows h h') {p : ℕ}
    {rt : Runtime ρ} (hu : Under h p rt) : Under h' p rt := by
  obtain ⟨op, c, ho, hc⟩ | ⟨user, ho⟩ := hu
  · exact .inl ⟨op, c, hg.origin ho, hc.mono hk⟩
  · exact .inr ⟨user, hg.origin ho⟩

/-- A promise under two runtimes is under one. -/
theorem Under.unique {h : Heap V ρ} {p : ℕ} {rt rt' : Runtime ρ} (hu : Under h p rt)
    (hu' : Under h p rt') : rt = rt' := by
  obtain ⟨op, c, ho, -, -, hrt⟩ | ⟨user, ho⟩ := hu
  · obtain ⟨op', c', ho', -, -, hrt'⟩ | ⟨user', ho'⟩ := hu'
    · rw [ho] at ho'
      obtain ⟨-, rfl⟩ : op = op' ∧ c = c' := by simpa using ho'
      exact hrt.symm.trans hrt'
    · rw [ho] at ho'
      cases ho'
  · obtain ⟨op', c', ho', -, -, hrt'⟩ | ⟨user', ho'⟩ := hu'
    · rw [ho] at ho'
      cases ho'
    · rw [ho] at ho'
      cases ho'
      rfl

/-- The callback is to submit the task that sets the promise, on the runtime. -/
def Callback.Begins (p : ℕ) (rt : Runtime ρ) : Callback V ρ → Prop
  | .pipe _ rt' p' => p' = p ∧ rt' = rt
  | _ => False

/-- The task has not begun. -/
def Instr.Begins (p : ℕ) (rt : Runtime ρ) : Instr V ρ → Prop
  | .task i _ _ => i.promise = p ∧ i.runtime = rt
  | .consume _ cb => cb.Begins p rt
  | _ => False

/-- The instruction neither begins a task nor hands a future on, and it is no leaf. -/
def Instr.IsFollowUp : Instr V ρ → Bool
  | .ret _ _ => false
  | .task _ _ _ => false
  | .leaf _ => false
  | .consume _ (.forward _) => true
  | .consume _ _ => false
  | _ => true

theorem not_begins_of_followUp {j : Instr V ρ} (hj : j.IsFollowUp = true) (p : ℕ)
    (rt : Runtime ρ) : ¬j.Begins p rt := by
  cases j with
  | task i code k => cases hj
  | consume cs cb =>
    cases cb with
    | pipe op rt p => cases hj
    | _ => exact id
  | _ => exact id

section Begins

variable {h : Heap V ρ} {i : Instr V ρ} {code : Expr V ρ} {out : Out V ρ}

theorem followUp_of_lists {h' : Heap V ρ} {now later : List (Instr V ρ)}
    (hnow : ∀ j ∈ now, j.IsFollowUp = true) (hlater : ∀ j ∈ later, j.IsFollowUp = true) :
    ∀ j ∈ (⟨h', now, later⟩ : Out V ρ).instrs, j.IsFollowUp = true :=
  fun j hj => (mem_instrs.mp hj).elim (hnow j) (hlater j)

theorem followUp_ite {q : Prop} [Decidable q] {j : Instr V ρ} (hj : j.IsFollowUp = true) :
    ∀ j' ∈ (if q then [j] else []), j'.IsFollowUp = true := by
  intro j' hj'
  split at hj'
  · rw [List.mem_singleton.mp hj']
    exact hj
  · cases hj'

/-- A callback goes on, or it is the one of a combinator and submits the task. -/
theorem callback_followUp {cb : Callback V ρ} {v : Val V} (hstep : callback h cb v = some out) :
    ∀ j ∈ out.instrs, j.IsFollowUp = true ∨ ∃ op rt p arg code lift,
      cb = .pipe op rt p ∧ j = .task ⟨p, rt, some arg⟩ code (Lift.cont lift p) := by
  intro j hj
  cases cb with
  | pipe op rt p =>
    obtain ⟨-, -, hinstrs⟩ | ⟨arg, code, lift, -, rfl⟩ | ⟨c, -, -, rfl⟩ := pipeCallback_cases hstep
    · rw [hinstrs, Multiset.mem_singleton] at hj
      rw [hj]
      exact .inl rfl
    · rw [submit_instrs, Multiset.mem_singleton] at hj
      exact .inr ⟨op, rt, p, arg, code, lift, rfl, hj⟩
    · exact .inl (followUp_of_lists (by simp [Instr.IsFollowUp]) (by simp) j hj)
  | _ =>
    obtain rfl := Option.some.inj hstep
    exact .inl (followUp_of_lists (by simp [Instr.IsFollowUp]) (by simp) j hj)

/-- What comes after an instruction goes on with it, unless it evaluates something, or calls the
callback of a combinator. -/
theorem exec_followUp (hstep : exec code h i = some out) : ∀ j ∈ out.instrs,
    j.IsFollowUp = true ∨ (∃ e k, i = .eval e k) ∨ (∃ v k, i = .ret v k) ∨
      ∃ cs op rt p arg code lift, i = .rendezvous cs ∧
        (h.states cs).callback_ = some (.pipe op rt p) ∧
        j = .task ⟨p, rt, some arg⟩ code (Lift.cont lift p) := by
  intro j hj
  cases i with
  | eval e k => exact .inr (.inl ⟨e, k, rfl⟩)
  | ret v k => exact .inr (.inr (.inl ⟨v, k, rfl⟩))
  | rendezvous cs =>
    cases rendezvousMoves_of_step hstep with
    | call hcb _ ho =>
      -- the deletion is the last thing it does
      obtain hj | rfl := mem_instrs_append hj
      · obtain hj | ⟨op, rt, p, arg, code, lift, rfl, rfl⟩ := callback_followUp ho j hj
        · exact .inl hj
        · exact .inr (.inr (.inr ⟨cs, op, rt, p, arg, code, lift, rfl, hcb, rfl⟩))
      · exact .inl rfl
    | crash => simp [Out.instrs] at hj
  | produced cs =>
    obtain rfl := Option.some.inj hstep
    exact .inl (followUp_of_lists (followUp_ite rfl) (by simp) j hj)
  | consumed cs =>
    obtain rfl := Option.some.inj hstep
    exact .inl (followUp_of_lists (followUp_ite rfl) (by simp) j hj)
  | call n s v =>
    obtain rfl := Option.some.inj hstep
    refine .inl ?_
    revert j
    unfold callStep
    split <;> (try split) <;> exact followUp_of_lists (by simp [Instr.IsFollowUp]) (by simp)
  | arrive n s v =>
    obtain rfl := Option.some.inj hstep
    refine .inl ?_
    revert j
    unfold arriveStep
    dsimp only
    split
    · exact followUp_of_lists (followUp_ite rfl) (by simp)
    · exact followUp_of_lists (followUp_ite rfl) (by simp)
    · split <;> exact followUp_of_lists (followUp_ite rfl) (by simp)
    · exact followUp_of_lists (followUp_ite rfl) (by simp)
  | setTuple n =>
    obtain rfl := Option.some.inj hstep
    refine .inl ?_
    revert j
    unfold setTupleStep
    dsimp only
    split <;> exact followUp_of_lists (by simp [Instr.IsFollowUp]) (by simp)
  | setNode n v =>
    obtain rfl := Option.some.inj hstep
    refine .inl ?_
    revert j
    unfold setNodeStep
    split <;> exact followUp_of_lists (by simp [Instr.IsFollowUp]) (by simp)
  | _ =>
    obtain rfl := Option.some.inj hstep
    exact .inl (followUp_of_lists (by simp [Instr.IsFollowUp]) (by simp) j hj)

/-- No task is made. -/
theorem not_begins_of_lists {h' : Heap V ρ} {now later : List (Instr V ρ)}
    (hnow : ∀ j ∈ now, ∀ p rt, ¬j.Begins p rt) (hlater : ∀ j ∈ later, ∀ p rt, ¬j.Begins p rt) :
    ∀ j ∈ (⟨h', now, later⟩ : Out V ρ).instrs, ∀ p rt, ¬j.Begins p rt :=
  fun j hj => (mem_instrs.mp hj).elim (hnow j) (hlater j)

/-- The evaluation of an expression makes a task for `Spawn` only. -/
theorem evalStep_begins {e : Expr V ρ} {k : Cont V ρ} :
    ∀ j ∈ (evalStep h k e).instrs, ∀ p rt, j.Begins p rt →
      p = h.size ∧ Under (evalStep h k e).heap p rt := by
  cases e with
  | spawn rt user =>
    intro j hj p r hb
    have hheap : (evalStep h k (.spawn rt user)).heap = h.contract rt (.spawn rt user) :=
      submit_heap _ _ _
    have hj : j = .task ⟨h.size, rt, none⟩ user (.set h.size) ∨ j = .ret (.future h.size) k := by
      cases rt <;> simpa [evalStep, submit, Out.instrs, or_comm] using hj
    obtain rfl | rfl := hj
    · obtain ⟨rfl, rfl⟩ := hb
      refine ⟨rfl, .inr ⟨user, ?_⟩⟩
      rw [hheap]
      exact origin_contract h rt _
    · exact hb.elim
  | _ =>
    intro j hj p rt hb
    exact absurd hb
      (not_begins_of_lists (by simp [Instr.Begins]) (by simp [Instr.Begins]) j hj p rt)

/-- `Pipe` of a combinator other than `Via`. -/
theorem pipeStep_of_not_via {op : Pipe ρ (Val V → Expr V ρ)} (hop : ∀ rt, op ≠ .via rt)
    (h : Heap V ρ) (k : Cont V ρ) (cs : ℕ) : pipeStep h op k cs =
      ⟨((h.touch cs).contract (h.states cs).runtime_ (.pipe op cs)).release cs,
        [.consume cs (.pipe op (h.states cs).runtime_ h.size), .ret (.future h.size) k], []⟩ := by
  cases op with
  | via rt => exact absurd rfl (hop rt)
  | _ => rfl

/-- The input of a combinator is consumed under the runtime it has. -/
theorem consumedUnder_pipeStep {cs : ℕ} (hcs : cs < h.size) (o : Origin V ρ) :
    ConsumedUnder (((h.touch cs).contract (h.states cs).runtime_ o).release cs) cs
      (h.states cs).runtime_ := by
  refine ⟨hcs.trans (Nat.lt_succ_self _), Function.update_self _ _ _, ?_⟩
  exact congrArg ContractState.runtime_
    (states_setState_of_ne (Nat.ne_of_lt hcs) (h.touch cs) _)

/-- A value goes into the task of a combinator, for which a new state is made. -/
theorem retStep_begins {m : Multiset Res} {v : Val V} {k : Cont V ρ} {e : Expr V ρ}
    (hl : Ledger h m) (hk : k.Fits h e) (hstep : retStep h v k = some out) :
    ∀ j ∈ out.instrs, ∀ p rt, j.Begins p rt → p = h.size ∧ Under out.heap p rt := by
  intro j hj p rt hb
  cases retMoves_of_step hstep with
  | @consume cs _ cb =>
    obtain rfl : j = .consume cs cb := by simpa [Out.instrs] using hj
    cases cb with
    -- what a value is consumed by is never the callback of a combinator
    | pipe op rt' p' => exact hk.elim
    | _ => exact hb.elim
  | @pipe cs hheld op k =>
    by_cases hvia : ∃ rt, op = .via rt
    · obtain ⟨rt, rfl⟩ := hvia
      -- `Via` changes the runtime in place, without a task
      obtain rfl : j = .ret (.future cs) k := by simpa [pipeStep, Out.instrs] using hj
      exact hb.elim
    · have hcs := (hl.not_deleted_of_held hheld).1
      rw [pipeStep_of_not_via (not_exists.mp hvia)] at hj ⊢
      have hj : j = .consume cs (.pipe op (h.states cs).runtime_ h.size) ∨
          j = .ret (.future h.size) k := by
        simpa [Out.instrs] using hj
      obtain rfl | rfl := hj
      · obtain ⟨rfl, rfl⟩ := hb
        exact ⟨rfl, .inl ⟨op, cs, origin_contract (h.touch cs) _ _, consumedUnder_pipeStep hcs _⟩⟩
      · exact hb.elim
  | @concurSnd c₁ c₂ _ _ _ op k =>
    have hj : j = .consume c₁ (.concur h.nodeCount .first) ∨
        j = .consume c₂ (.concur h.nodeCount .second) ∨ j = .ret (.future h.size) k := by
      simpa [concurStep, Out.instrs] using hj
    obtain rfl | rfl | rfl := hj <;> exact hb.elim
  | _ => exact absurd hb (not_begins_of_lists (by simp [Instr.Begins]) (by simp) j hj p rt)

/-- A new task is for a new state, or it comes from the callback that is called. -/
theorem exec_begins {m : Multiset Res} (hl : Ledger h m) (hok : i.Ok h)
    (hstep : exec code h i = some out) :
    ∀ j ∈ out.instrs, ∀ p rt, j.Begins p rt → p = h.size ∧ Under out.heap p rt ∨
      ∃ cs cb, i = .rendezvous cs ∧ (h.states cs).callback_ = some cb ∧ cb.Begins p rt := by
  intro j hj p rt hb
  obtain hj' | ⟨e, k, rfl⟩ | ⟨v, k, rfl⟩ | ⟨cs, op, rt', p', arg, c, lift, rfl, hcb, rfl⟩ :=
    exec_followUp hstep j hj
  · exact absurd hb (not_begins_of_followUp hj' p rt)
  · obtain rfl := Option.some.inj hstep
    exact .inl (evalStep_begins j hj p rt hb)
  · obtain ⟨e, -, hk⟩ := hok
    exact .inl (retStep_begins hl hk hstep j hj p rt hb)
  · exact .inr ⟨cs, _, rfl, hcb, hb⟩

end Begins

/-! ## Once, and under one runtime -/

/-- The user function of the promise has been called. -/
def Heap.Called (h : Heap V ρ) (p : ℕ) : Prop := p ∈ h.invoked.map Invocation.promise

/-- A task runs once at most, and all of a task's life is under one runtime. -/
structure Calls (h : Heap V ρ) (is : Multiset (Instr V ρ)) : Prop where
  once : (h.invoked.map Invocation.promise).Nodup
  invoked : ∀ i ∈ h.invoked, Under h i.promise i.runtime
  instr : ∀ j ∈ is, ∀ p rt, j.Begins p rt → ¬h.Called p ∧ Under h p rt
  stored : ∀ cs cb p rt, (h.states cs).callback_ = some cb → cb.Begins p rt →
    ((h.states cs).calls = [] → ¬h.Called p) ∧ Under h p rt

/-- Only the beginning of a task calls a user function. -/
theorem exec_invoked {h : Heap V ρ} {i : Instr V ρ} {code : Expr V ρ} {out : Out V ρ}
    (hstep : exec code h i = some out) : out.heap.invoked = h.invoked ∨
      ∃ j c k, i = .task j c k ∧ out.heap.invoked = h.invoked ++ [j] := by
  cases i with
  | task j c k =>
    obtain rfl := Option.some.inj hstep
    exact .inr ⟨j, c, k, rfl, rfl⟩
  | eval e k =>
    obtain rfl := Option.some.inj hstep
    cases e with
    | spawn rt user => cases rt <;> exact .inl rfl
    | _ => exact .inl rfl
  | ret v k =>
    refine .inl ?_
    cases retMoves_of_step hstep with
    | pipe _ op k => cases op <;> rfl
    | _ => rfl
  | rendezvous cs =>
    refine .inl ?_
    cases rendezvousMoves_of_step hstep with
    | @call cb v o _ _ ho =>
      cases cb with
      | pipe op rt p =>
        obtain ⟨-, hheap, -⟩ | ⟨arg, code, lift, -, rfl⟩ | ⟨c, -, -, rfl⟩ := pipeCallback_cases ho
        · dsimp only
          rw [hheap]
          rfl
        · dsimp only
          rw [submit_heap]
          rfl
        · rfl
      | _ =>
        obtain rfl := Option.some.inj ho
        rfl
    | crash => rfl
  | call n s v =>
    obtain rfl := Option.some.inj hstep
    unfold callStep
    split <;> (try split) <;> exact .inl rfl
  | arrive n s v =>
    obtain rfl := Option.some.inj hstep
    unfold arriveStep
    dsimp only
    split <;> (try split) <;> exact .inl rfl
  | setTuple n =>
    obtain rfl := Option.some.inj hstep
    unfold setTupleStep
    dsimp only
    split <;> exact .inl rfl
  | setNode n v =>
    obtain rfl := Option.some.inj hstep
    unfold setNodeStep
    split <;> exact .inl rfl
  | _ =>
    obtain rfl := Option.some.inj hstep
    exact .inl rfl

section CallsStep

variable {h : Heap V ρ} {m : Multiset Res} {p : ℕ} {rt : Runtime ρ}

theorem Right.lt_size_of_origin (hr : Right h) {cs : ℕ} {o : Origin V ρ}
    (ho : h.origin cs = some o) : cs < h.size := by
  by_contra hge
  rw [Heap.origin, (hr.fresh cs (Nat.le_of_not_lt hge)).1] at ho
  cases ho

theorem Right.lt_size_of_callback (hr : Right h) {cs : ℕ} {cb : Callback V ρ}
    (hcb : (h.states cs).callback_ = some cb) : cs < h.size := by
  by_contra hge
  rw [(hr.fresh cs (Nat.le_of_not_lt hge)).1] at hcb
  cases hcb

theorem Under.lt_size (hr : Right h) (hu : Under h p rt) : p < h.size := by
  obtain ⟨op, c, ho, -⟩ | ⟨user, ho⟩ := hu
  · exact hr.lt_size_of_origin ho
  · exact hr.lt_size_of_origin ho

/-- A new promise has not been called for. -/
theorem Calls.not_called_size {is : Multiset (Instr V ρ)} (hc : Calls h is) (hr : Right h) :
    ¬h.Called h.size := by
  intro hcalled
  obtain ⟨i, hi, he⟩ := List.mem_map.mp hcalled
  have hlt := (hc.invoked i hi).lt_size hr
  omega

/-- A task that has not begun holds its promise. -/
theorem Instr.Begins.promise_mem {j : Instr V ρ} (hb : j.Begins p rt) (hok : j.Ok h) :
    .promise p ∈ j.res := by
  cases j with
  | task i c k =>
    obtain ⟨lift, rfl, -⟩ := hok
    obtain ⟨rfl, -⟩ := hb
    cases lift <;> exact Multiset.mem_singleton_self _
  | consume cs cb =>
    cases cb with
    | pipe op r q =>
      obtain ⟨rfl, -⟩ := hb
      exact Multiset.mem_add.mpr (.inr (Multiset.mem_singleton_self _))
    | _ => exact hb.elim
  | _ => exact hb.elim

/-- A promise that somebody carries is not in a callback that waits to be called. -/
theorem Ledger.not_stored (hl : Ledger h ({.promise p} + m)) {cs : ℕ} {cb : Callback V ρ}
    (hcs : cs < h.size) (hcb : (h.states cs).callback_ = some cb) (hb : cb.Begins p rt) :
    (h.states cs).calls ≠ [] := by
  intro hcalls
  have hres : cb.res = .promise p := by
    cases cb with
    | pipe op r q =>
      obtain ⟨rfl, -⟩ := hb
      rfl
    | _ => exact hb.elim
  have hone : (h.states cs).stored (.promise p) = 1 := by
    rw [stored_of_uncalled hcalls hcb, if_pos hres.symm]
  -- two places would hold the promise, and it has been issued once
  have hsum := Finset.add_sum_erase _ (fun c => (h.states c).stored (.promise p))
    (Finset.mem_range.mpr hcs)
  have hbalance := hl.balance (.promise p)
  have hissued := Ledger.issued_le h (.promise p)
  rw [count_carried_promise, count_add_self, Heap.stored] at hbalance
  omega

end CallsStep

/-- **The step lemma.** -/
theorem Calls.exec {h : Heap V ρ} {i : Instr V ρ} {O : Multiset (Instr V ρ)} {code : Expr V ρ}
    {out : Out V ρ} (hc : Calls h ({i} + O)) (hl : Ledger h (i.res + holdings O)) (hr : Right h)
    (hok : ∀ j ∈ {i} + O, j.Ok h) (hg : Grows h out.heap) (hstep : exec code h i = some out) :
    Calls out.heap (out.instrs + O) := by
  have hk := Keeps.exec hstep
  have hi := hok i (by simp)
  have hO : ∀ j ∈ O, j ∈ {i} + O := fun j hj => Multiset.mem_add.mpr (.inr hj)
  obtain hsame | ⟨j, c, k, rfl, happend⟩ := exec_invoked hstep
  -- no user function is called by this step
  · have hcalled : ∀ p, out.heap.Called p ↔ h.Called p := fun p => by
      rw [Heap.Called, Heap.Called, hsame]
    refine ⟨hsame ▸ hc.once, fun j hj => ?_, fun j hj p rt hb => ?_, fun cs cb p rt hcb hb => ?_⟩
    · rw [hsame] at hj
      exact (hc.invoked j hj).mono hk hg
    · rw [hcalled]
      obtain hj | hj := Multiset.mem_add.mp hj
      · obtain ⟨rfl, hu⟩ | ⟨cs, cb, rfl, hcb, hb⟩ := exec_begins hl hi hstep j hj p rt hb
        · exact ⟨hc.not_called_size hr, hu⟩
        · -- the callback that is called now has not been called before
          obtain ⟨hno, hu⟩ := hc.stored cs cb p rt hcb hb
          exact ⟨hno hl.rendezvous_ready.2.2.1, hu.mono hk hg⟩
      · obtain ⟨hno, hu⟩ := hc.instr j (hO j hj) p rt hb
        exact ⟨hno, hu.mono hk hg⟩
    · rw [hcalled]
      obtain rfl | ⟨hcb, hcalls⟩ := hk.callback cs cb hcb
      · obtain ⟨hno, hu⟩ := hc.instr (.consume cs cb) (by simp) p rt hb
        exact ⟨fun _ => hno, hu.mono hk hg⟩
      · obtain ⟨hno, hu⟩ := hc.stored cs cb p rt hcb hb
        exact ⟨fun he => hno (hcalls he), hu.mono hk hg⟩
  -- the function of a task is called, and its promise is nowhere else
  · have hmine := hc.instr (.task j c k) (by simp) j.promise j.runtime ⟨rfl, rfl⟩
    have hres : (.task j c k : Instr V ρ).res = {.promise j.promise} := by
      obtain ⟨lift, rfl, -⟩ := hi
      cases lift <;> rfl
    rw [hres] at hl
    have hcalled : ∀ p, out.heap.Called p → h.Called p ∨ p = j.promise := by
      intro p hp
      rw [Heap.Called, happend, List.map_append] at hp
      obtain hp | hp := List.mem_append.mp hp
      · exact .inl hp
      · exact .inr (List.mem_singleton.mp hp)
    refine ⟨?_, fun j' hj => ?_, fun j' hj p rt hb => ?_, fun cs cb p rt hcb hb => ?_⟩
    · rw [happend, List.map_append, List.map_singleton, ← List.concat_eq_append]
      exact List.Nodup.concat hmine.1 hc.once
    · rw [happend] at hj
      obtain hj | hj := List.mem_append.mp hj
      · exact (hc.invoked j' hj).mono hk hg
      · rw [List.mem_singleton.mp hj]
        exact hmine.2.mono hk hg
    · obtain hj | hj := Multiset.mem_add.mp hj
      · obtain hj | ⟨_, _, he⟩ | ⟨_, _, he⟩ | ⟨_, _, _, _, _, _, _, he, -⟩ :=
          exec_followUp hstep j' hj
        · exact absurd hb (not_begins_of_followUp hj p rt)
        · cases he
        · cases he
        · cases he
      · obtain ⟨hno, hu⟩ := hc.instr j' (hO j' hj) p rt hb
        refine ⟨fun hp => ?_, hu.mono hk hg⟩
        obtain hp | rfl := hcalled p hp
        · exact hno hp
        -- another task for this promise would hold it too
        · exact hl.promise_unique
            (Multiset.mem_of_le (res_le_holdings hj) (hb.promise_mem (hok j' (hO j' hj))))
    · obtain hi | ⟨hcb, hcalls⟩ := hk.callback cs cb hcb
      · cases hi
      · obtain ⟨hno, hu⟩ := hc.stored cs cb p rt hcb hb
        refine ⟨fun he hp => ?_, hu.mono hk hg⟩
        obtain hp | rfl := hcalled p hp
        · exact hno (hcalls he) hp
        · exact hl.not_stored (hr.lt_size_of_callback hcb) hcb hb (hcalls he)

/-! ## Upstream first -/

/-- The state `q` is one of those that the state `p` has been piped from. -/
inductive Upstream (h : Heap V ρ) (q : ℕ) : ℕ → Prop
  | input {op : Pipe ρ (Val V → Expr V ρ)} {p : ℕ} (ho : h.origin p = some (.pipe op q)) :
    Upstream h q p
  | far {op : Pipe ρ (Val V → Expr V ρ)} {c p : ℕ} (ho : h.origin p = some (.pipe op c))
    (hu : Upstream h q c) : Upstream h q p

/-- No user function is called before one upstream of it. -/
def Ordered (h : Heap V ρ) : Prop :=
  h.invoked.Pairwise fun i j => ¬Upstream h j.promise i.promise

/-- The state has been made, and if it has been piped, its input has been delivered. -/
def Fed (h : Heap V ρ) (p : ℕ) : Prop :=
  ∃ o, h.origin p = some o ∧ ∀ op c, o = .pipe op c → ∃ w, h.Delivers c w

section Order

variable {h h' : Heap V ρ} {p q : ℕ}

/-- What is justified has been fed. -/
theorem Justified.fed {v : Val V} (hj : Justified h p v) : Fed h p := by
  cases hj with
  | pass ho hw => exact ⟨_, ho, fun op c he => by cases he; exact ⟨_, hw⟩⟩
  | set ho hw => exact ⟨_, ho, fun op c he => by cases he; exact ⟨_, hw⟩⟩
  | setOk ho hw => exact ⟨_, ho, fun op c he => by cases he; exact ⟨_, hw⟩⟩
  | forward ho hw => exact ⟨_, ho, fun op c he => by cases he; exact ⟨_, hw⟩⟩
  | inner ho hw => exact ⟨_, ho, fun op c he => by cases he; exact ⟨_, hw⟩⟩
  | contract ho => exact ⟨_, ho, fun op c he => by cases he⟩
  | ready ho => exact ⟨_, ho, fun op c he => by cases he⟩
  | spawn ho => exact ⟨_, ho, fun op c he => by cases he⟩
  | concur ho => exact ⟨_, ho, fun op c he => by cases he⟩

/-- So has what a task has been made for. -/
theorem TaskFor.fed {i : Invocation V ρ} {lift : Lift} {code : Expr V ρ}
    (ht : TaskFor h i lift code) : Fed h i.promise := by
  cases ht with
  | spawn ho => exact ⟨_, ho, fun op c he => by cases he⟩
  | pipe ho hw => exact ⟨_, ho, fun op c he => by cases he; exact ⟨_, hw⟩⟩

/-- All that is upstream of a state that has been fed has been delivered, and will always have
been upstream of it. -/
theorem Upstream.of_fed (hu : Upstream h' q p) (hg : Grows h h') (hr : Right h) (hf : Fed h p) :
    Upstream h q p ∧ ∃ w, h.Delivers q w := by
  induction hu with
  | @input op p ho' =>
    obtain ⟨o, ho, hfed⟩ := hf
    obtain rfl : o = .pipe op q := Option.some.inj ((hg.origin ho).symm.trans ho')
    exact ⟨.input ho, hfed op q rfl⟩
  | @far op c p ho' _ ih =>
    obtain ⟨o, ho, hfed⟩ := hf
    obtain rfl : o = .pipe op c := Option.some.inj ((hg.origin ho).symm.trans ho')
    obtain ⟨w, hw⟩ := hfed op c rfl
    -- what has been delivered was set, so its own input has been delivered
    obtain ⟨hu, hq⟩ := ih (hr.delivered hw).fed
    exact ⟨.far ho hu, hq⟩

/-- Upstream of upstream. -/
theorem Upstream.trans {r : ℕ} (hqp : Upstream h q p) (hpr : Upstream h p r) :
    Upstream h q r := by
  induction hpr with
  | input ho => exact .far ho hqp
  | far ho _ ih => exact .far ho ih

/-- The input of a state is upstream of all that the state is upstream of. -/
theorem Upstream.step {op : Pipe ρ (Val V → Expr V ρ)} {c : ℕ} (ho : h.origin p = some (.pipe op c))
    (hu : Upstream h p q) : Upstream h c q :=
  Upstream.trans (.input ho) hu

/-- Nothing that has been set is upstream of itself. -/
theorem Justified.not_upstream {v : Val V} (hj : Justified h p v) : ¬Upstream h p p := by
  -- around a loop through `p` the input of `p` would be upstream of itself
  have hpipe : ∀ {p c : ℕ} {op : Pipe ρ (Val V → Expr V ρ)}, h.origin p = some (.pipe op c) →
      ¬Upstream h c c → ¬Upstream h p p := by
    intro p c op ho hno hu
    refine hno ?_
    cases hu with
    | input ho' =>
      obtain ⟨-, rfl⟩ : op = _ ∧ c = p := by simpa using Option.some.inj (ho.symm.trans ho')
      exact .input ho
    | far ho' hu =>
      obtain ⟨-, rfl⟩ : op = _ ∧ c = _ := by simpa using Option.some.inj (ho.symm.trans ho')
      exact .step ho hu
  have hother : ∀ {p : ℕ} {o : Origin V ρ}, h.origin p = some o → (∀ op c, o ≠ .pipe op c) →
      ¬Upstream h p p := by
    intro p o ho hne hu
    cases hu with
    | input ho' => exact hne _ _ (Option.some.inj (ho.symm.trans ho'))
    | far ho' hu => exact hne _ _ (Option.some.inj (ho.symm.trans ho'))
  -- the induction is on how the value came about
  induction hj with
  | pass ho _ _ _ ih => exact hpipe ho ih
  | set ho _ _ _ _ _ ih => exact hpipe ho ih
  | setOk ho _ _ _ _ _ ih => exact hpipe ho ih
  | forward ho _ _ _ _ _ _ _ _ ih _ => exact hpipe ho ih
  | inner ho _ _ _ _ _ _ ih _ => exact hpipe ho ih
  | contract ho _ _ => exact hother ho fun op c he => by cases he
  | ready ho => exact hother ho fun op c he => by cases he
  | spawn ho _ _ => exact hother ho fun op c he => by cases he
  | concur ho _ _ _ _ _ _ _ _ _ => exact hother ho fun op c he => by cases he

/-- When a heap grows, what has been called keeps its order. -/
theorem Ordered.mono (ho : Ordered h) (hr : Right h) (hg : Grows h h') :
    h.invoked.Pairwise fun i j => ¬Upstream h' j.promise i.promise := by
  refine List.Pairwise.imp_of_mem (fun ha _ hno hu => ?_) ho
  obtain ⟨lift, code, ht⟩ := hr.invoked _ ha
  exact hno (hu.of_fed hg hr ht.fed).1

/-- A step keeps the order: when a task begins, all tasks upstream of those that have run have
been delivered, and its own promise has not been set. -/
theorem Ordered.exec {i : Instr V ρ} {m : Multiset Res} {code : Expr V ρ} {out : Out V ρ}
    (ho : Ordered h) (hl : Ledger h (i.res + m)) (hr : Right h) (hi : i.Ok h)
    (hg : Grows h out.heap) (hstep : exec code h i = some out) : Ordered out.heap := by
  have hold := ho.mono hr hg
  obtain hsame | ⟨j, c, k, rfl, happend⟩ := exec_invoked hstep
  · rw [Ordered, hsame]
    exact hold
  · rw [Ordered, happend]
    refine List.pairwise_append.mpr ⟨hold, List.pairwise_singleton _ _, fun a ha b hb hu => ?_⟩
    rw [List.mem_singleton.mp hb] at hu
    obtain ⟨lift, code', ht⟩ := hr.invoked a ha
    obtain ⟨-, w, hw⟩ := hu.of_fed hg hr ht.fed
    have hres : (.task j c k : Instr V ρ).res = {.promise j.promise} := by
      obtain ⟨lift, rfl, -⟩ := hi
      cases lift <;> rfl
    rw [hres] at hl
    -- upstream of a task that has run it would be set, but its promise is still held
    have hset := hr.called _ _ hw
    rw [hl.not_produced] at hset
    cases hset

end Order

/-- **Every run calls each user function once at most, under the runtime of its input, and
after those upstream of it.** -/
theorem calls_of_safe {s : State V ρ} (hs : (machine V ρ).ReachableVia Safe s) :
    Calls s.heap s.instrs ∧ Ordered s.heap := by
  induction hs with
  | init hinit =>
    obtain rfl := hinit
    refine ⟨⟨List.nodup_nil, ?_, ?_, ?_⟩, .nil⟩
    · intro i hi
      cases hi
    · intro i hi
      cases hi
    · intro cs cb p rt hcb
      cases hcb
  | @step s s' a hs hc hstep ih =>
    obtain ⟨hcalls, hordered⟩ := ih
    obtain ⟨hr, hok, -⟩ := sound_of_safe hs
    have hl := ledger_of_reachable hs.reachable
    obtain ⟨e, rfl, hheap, hnew⟩ | ⟨t, code, i, rest, out, rfl, ht, hout, hheap, O, hold, hnew⟩ :=
      step_cases hstep
    -- a program is started: nothing has been called
    · have hu : ∀ p rt, Under s'.heap p rt ↔ Under s.heap p rt := by
        rw [hheap]
        exact fun _ _ => Iff.rfl
      refine ⟨⟨?_, ?_, ?_, ?_⟩, ?_⟩
      · rw [hheap]
        exact hcalls.once
      · rw [hheap]
        exact hcalls.invoked
      · rw [hheap, hnew]
        intro j hj p rt hb
        obtain hj | hj := Multiset.mem_add.mp hj
        · rw [Multiset.mem_singleton.mp hj] at hb
          exact hb.elim
        · exact hcalls.instr j hj p rt hb
      · rw [hheap]
        exact hcalls.stored
      · rw [hheap]
        exact hordered.mono hr (grows_start s.heap e)
    · have hgood := good_of_safe hs hold hout
      rw [hold] at hcalls hok hl
      rw [holdings_add, holdings_singleton] at hl
      rw [hheap, hnew]
      exact ⟨hcalls.exec hl hr hok hgood.grows hout,
        hordered.exec hl hr (hok i (by simp)) hgood.grows hout⟩

end Exe.Future
