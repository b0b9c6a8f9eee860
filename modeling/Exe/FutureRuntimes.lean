/-
The runtime a stage of a pipeline does its work on.

`Expr.runtime` reads off an expression which runtime its future has: the one of the last `Via`,
or of the source. `Inherits` says that an expression has been evaluated so, and each of its
stages has consumed its input under that runtime. While a future is handed from a combinator to
the next one, nobody else has it in hand (`MoveOnly`), so its runtime stays what the expression
says (`Expr.Has`). From then on the state is consumed, and its runtime does not change.
-/
import Exe.FuturePipelines
import Exe.FutureTimers

set_option autoImplicit false

namespace Exe.Future

open Function (update)

universe u v

variable {V : Type u} {ρ : Type v}

/-! ## Runtimes -/

/-- What makes a source, and the runtime it has then. -/
def Expr.sourceRuntime : Expr V ρ → Option (Runtime ρ)
  | .contract => some .inline
  | .ready _ => some .inline
  | .spawn rt _ => some rt
  | .concur _ _ _ => some .inline
  | .value _ => none
  | .pipe _ _ => none

/-- The runtime of the latest `Via`, or the one of the source. -/
def Expr.runtime : Expr V ρ → Option (Runtime ρ)
  | .pipe (.via rt) _ => some rt
  | .pipe _ e => e.runtime
  | e => e.sourceRuntime

theorem runtime_pipe_of_not_via {op : Pipe ρ (Val V → Expr V ρ)} (hop : ∀ rt, op ≠ .via rt)
    (e : Expr V ρ) : (Expr.pipe op e).runtime = e.runtime := by
  cases op with
  | via rt => exact absurd rfl (hop rt)
  | _ => rfl

/-- What a source is made by has the runtime of the source. -/
theorem runtime_of_source {e : Expr V ρ} {rt : Runtime ρ} (he : e.sourceRuntime = some rt) :
    e.runtime = some rt := by
  cases e with
  | pipe op e => cases he
  | _ => exact he

/-- The expression has been evaluated to the value, and each combinator but `Via` has consumed
its input under the runtime of the expression. -/
inductive Inherits (h : Heap V ρ) : Expr V ρ → Val V → Prop
  | source {e : Expr V ρ} {v : Val V} (hsrc : ∀ op e', e ≠ .pipe op e') (he : Evaluates h e v) :
      Inherits h e v
  | via {rt : Runtime ρ} {e : Expr V ρ} {cs : ℕ} (he : Inherits h e (.future cs)) :
      Inherits h (.pipe (.via rt) e) (.future cs)
  | pipe {op : Pipe ρ (Val V → Expr V ρ)} {e : Expr V ρ} {c cs : ℕ} (hop : ∀ rt, op ≠ .via rt)
      (he : Inherits h e (.future c)) (ho : h.origin cs = some (.pipe op c))
      (hrt : ∀ rt, e.runtime = some rt → ConsumedUnder h c rt) :
      Inherits h (.pipe op e) (.future cs)

/-- The value is a future, and it has the runtime now. -/
def Expr.Has (h : Heap V ρ) (e : Expr V ρ) (v : Val V) : Prop :=
  ∀ rt, e.runtime = some rt → ∃ cs, v = .future cs ∧ cs < h.size ∧ (h.states cs).runtime_ = rt

theorem Inherits.evaluates {h : Heap V ρ} {e : Expr V ρ} {v : Val V} (he : Inherits h e v) :
    Evaluates h e v := by
  induction he with
  | source _ he => exact he
  | via _ ih => exact .via ih
  | pipe _ _ ho _ ih => exact .pipe ih ho

theorem Inherits.mono {i : Instr V ρ} {h h' : Heap V ρ} (hk : Keeps i h h') (hg : Grows h h')
    {e : Expr V ρ} {v : Val V} (he : Inherits h e v) : Inherits h' e v := by
  induction he with
  | source hsrc he => exact .source hsrc (he.mono hg)
  | via _ ih => exact .via ih
  | pipe hop _ ho hrt ih => exact .pipe hop ih (hg.origin ho) fun rt he => (hrt rt he).mono hk

/-! ## Futures in hand -/

/-- The future that the instruction has in hand. -/
def Instr.handle : Instr V ρ → Option ℕ
  | .ret (.future cs) _ => some cs
  | _ => none

/-- `Future(const Future&) = delete`: a future is in one place. -/
def MoveOnly (_ : Action V ρ) (s : State V ρ) : Prop := (s.instrs.filterMap Instr.handle).Nodup

instance instDecidableMoveOnly (a : Action V ρ) (s : State V ρ) : Decidable (MoveOnly a s) :=
  inferInstanceAs (Decidable (Multiset.Nodup _))

/-- Nobody else has the future in hand. -/
theorem MoveOnly.not_mem {a : Action V ρ} {s : State V ρ} (hm : MoveOnly a s) {cs : ℕ}
    {k k' : Cont V ρ} {O : Multiset (Instr V ρ)} (hold : s.instrs = {.ret (.future cs) k} + O) :
    .ret (.future cs) k' ∉ O := by
  intro hmem
  have hmine : (.ret (.future cs) k : Instr V ρ).handle = some cs := rfl
  rw [MoveOnly, hold, Multiset.singleton_add, Multiset.filterMap_cons_some _ _ _ hmine,
    Multiset.nodup_cons] at hm
  exact hm.1 ((Multiset.mem_filterMap _ _).mpr ⟨_, hmem, rfl⟩)

/-- What a thread has in hand is what an expression has been evaluated to, and has its
runtime. -/
def Instr.Inherits (h : Heap V ρ) : Instr V ρ → Prop
  | .ret v k => ∃ e : Expr V ρ, Future.Inherits h e v ∧ k.Fits h e ∧ e.Has h v
  | _ => True

section Steps

variable {h : Heap V ρ} {i : Instr V ρ} {code : Expr V ρ} {out : Out V ρ}

/-- A thread that has nothing in hand inherits nothing. -/
theorem inherits_of_lists {h' : Heap V ρ} {now later : List (Instr V ρ)}
    (hnow : ∀ j ∈ now, j.Inherits h') (hlater : ∀ j ∈ later, j.Inherits h') :
    ∀ j ∈ (⟨h', now, later⟩ : Out V ρ).instrs, j.Inherits h' :=
  fun j hj => (mem_instrs.mp hj).elim (hnow j) (hlater j)

/-- A new contract has the runtime it has been made with. -/
theorem runtime_contract (h : Heap V ρ) (rt : Runtime ρ) (o : Origin V ρ) :
    ((h.contract rt o).states h.size).runtime_ = rt :=
  congrArg ContractState.runtime_ (states_setState h h.size _)

theorem has_contract {e : Expr V ρ} (h : Heap V ρ) (rt : Runtime ρ) (o : Origin V ρ)
    (he : e.runtime = some rt) : e.Has (h.contract rt o) (.future h.size) := by
  intro rt' hrt
  obtain rfl : rt = rt' := Option.some.inj (he.symm.trans hrt)
  exact ⟨h.size, rfl, Nat.lt_succ_self _, runtime_contract h rt o⟩

theorem inherits_evalStep {k : Cont V ρ} {e : Expr V ρ} (hk : k.Fits h e)
    (hg : Grows h (evalStep h k e).heap) :
    ∀ j ∈ (evalStep h k e).instrs, j.Inherits (evalStep h k e).heap := by
  have hk := hk.mono hg
  cases e with
  | value v =>
    refine inherits_of_lists (List.forall_mem_singleton.mpr ?_) (by simp)
    exact ⟨.value v, .source (fun op e' he => by cases he) (.value v), hk,
      fun rt hrt => by cases hrt⟩
  | contract =>
    refine inherits_of_lists (List.forall_mem_singleton.mpr ?_) (by simp [Instr.Inherits])
    exact ⟨.contract, .source (fun op e' he => by cases he) (.contract (origin_contract h _ _)),
      hk, has_contract h _ _ rfl⟩
  | spawn rt user =>
    have hheap : (evalStep h k (.spawn rt user)).heap = h.contract rt (.spawn rt user) :=
      submit_heap _ _ _
    rw [hheap] at hk ⊢
    intro j hj
    have hj : j = .task ⟨h.size, rt, none⟩ user (.set h.size) ∨ j = .ret (.future h.size) k := by
      cases rt <;> simpa [evalStep, submit, Out.instrs, or_comm] using hj
    obtain rfl | rfl := hj
    · trivial
    · exact ⟨.spawn rt user, .source (fun op e' he => by cases he)
        (.spawn (origin_contract h _ _)), hk, has_contract h _ _ rfl⟩
  | _ => exact inherits_of_lists (by simp [Instr.Inherits]) (by simp)

theorem inherits_retStep {m : Multiset Res} {v : Val V} {k : Cont V ρ} (hl : Ledger h m)
    (hi : (Instr.ret v k).Inherits h) (hg : Grows h out.heap)
    (hstep : retStep h v k = some out) : ∀ j ∈ out.instrs, j.Inherits out.heap := by
  obtain ⟨e, he, hk, hhas⟩ := hi
  have hkeeps := Keeps.retStep hstep
  cases retMoves_of_step hstep with
  | ready v k =>
    refine inherits_of_lists (List.forall_mem_cons.mpr ⟨trivial,
      List.forall_mem_singleton.mpr ?_⟩) (by simp)
    exact ⟨.ready e, .source (fun op e' he => by cases he)
      (.ready (he.evaluates.mono hg) (origin_contract h _ _)), Cont.Fits.mono hg hk,
      has_contract h _ _ rfl⟩
  | @pipe cs hheld op k =>
    have hcs := (hl.not_deleted_of_held hheld).1
    have hk' : k.Fits (pipeStep h op k cs).heap (.pipe op e) := Cont.Fits.mono hg hk
    have he' := he.mono hkeeps hg
    by_cases hvia : ∃ rt, op = .via rt
    · obtain ⟨rt, rfl⟩ := hvia
      refine inherits_of_lists (List.forall_mem_singleton.mpr ?_) (by simp)
      refine ⟨.pipe (.via rt) e, .via he', hk', fun rt' hrt => ⟨cs, rfl, hcs, ?_⟩⟩
      -- from now on the state has the runtime of `Via`
      obtain rfl : rt = rt' := Option.some.inj hrt
      exact congrArg ContractState.runtime_ (states_setState (h.touch cs) cs _)
    · have hop := not_exists.mp hvia
      rw [pipeStep_of_not_via hop] at hk' he' ⊢
      refine inherits_of_lists (List.forall_mem_cons.mpr ⟨trivial,
        List.forall_mem_singleton.mpr ?_⟩) (by simp)
      -- the input has the runtime of its expression, is consumed, and hands it on
      have hrt : ∀ rt, e.runtime = some rt → (h.states cs).runtime_ = rt := by
        intro rt hrt
        obtain ⟨cs', heq, -, hrt⟩ := hhas rt hrt
        obtain rfl : cs = cs' := by simpa using heq
        exact hrt
      refine ⟨.pipe op e, .pipe hop he' (origin_contract (h.touch cs) _ _) ?_, hk', ?_⟩
      · intro rt he
        rw [← hrt rt he]
        exact consumedUnder_pipeStep hcs _
      · intro rt he
        rw [runtime_pipe_of_not_via hop] at he
        refine ⟨h.size, rfl, Nat.lt_succ_self _, ?_⟩
        exact (runtime_contract (h.touch cs) _ _).trans (hrt rt he)
  | @concurSnd c₁ c₂ _ _ _ op k =>
    obtain ⟨e₁, he₁, hk⟩ := hk
    refine inherits_of_lists (List.forall_mem_cons.mpr ⟨trivial,
      List.forall_mem_cons.mpr ⟨trivial, List.forall_mem_singleton.mpr ?_⟩⟩) (by simp)
    refine ⟨.concur op e₁ e, .source (fun op e' he => by cases he) (.concur (he₁.mono hg)
      (he.evaluates.mono hg) (origin_contract h _ _)), Cont.Fits.mono hg hk, fun rt hrt => ?_⟩
    -- the result of a parallel combinator is on the inline runtime
    obtain rfl : Runtime.inline = rt := Option.some.inj hrt
    exact ⟨h.size, rfl, Nat.lt_succ_self _, runtime_contract h _ (.concur op c₁ c₂)⟩
  | _ => exact inherits_of_lists (by simp [Instr.Inherits]) (by simp)

/-- What only goes on with a step has nothing in hand. -/
theorem inherits_of_followUp {j : Instr V ρ} (hj : j.IsFollowUp = true) (h : Heap V ρ) :
    j.Inherits h := by
  cases j with
  | ret v k => cases hj
  | _ => trivial

/-- What comes into a thread's hand is right. -/
theorem inherits_exec {m : Multiset Res} (hl : Ledger h m) (hok : i.Ok h) (hi : i.Inherits h)
    (hg : Grows h out.heap) (hstep : exec code h i = some out) :
    ∀ j ∈ out.instrs, j.Inherits out.heap := by
  intro j hj
  obtain hj' | ⟨e, k, rfl⟩ | ⟨v, k, rfl⟩ | ⟨cs, op, rt, p, arg, c, lift, rfl, -, rfl⟩ :=
    exec_followUp hstep j hj
  · exact inherits_of_followUp hj' _
  · obtain rfl := Option.some.inj hstep
    exact inherits_evalStep hok hg j hj
  · exact inherits_retStep hl hi hg hstep j hj
  · trivial

end Steps

/-- What another thread has in hand stays as it is: `Via` is given a future that is in one
place. -/
theorem Instr.Inherits.others {h h' : Heap V ρ} {i j : Instr V ρ} (hk : Keeps i h h')
    (hg : Grows h h') (hj : j.Inherits h)
    (hmine : ∀ cs k k', i = .ret (.future cs) k → j ≠ .ret (.future cs) k') : j.Inherits h' := by
  cases j with
  | ret v k =>
    obtain ⟨e, he, hfits, hhas⟩ := hj
    refine ⟨e, he.mono hk hg, Cont.Fits.mono hg hfits, fun rt hrt => ?_⟩
    obtain ⟨cs, rfl, hcs, hrt⟩ := hhas rt hrt
    refine ⟨cs, rfl, hcs.trans_le hk.size, ?_⟩
    -- only `Via` could change the runtime, and it has another future in hand
    obtain hsame | ⟨-, rt', k', rfl⟩ := hk.runtime cs hcs
    · exact hsame.trans hrt
    · exact absurd rfl (hmine cs _ k rfl)
  | _ => trivial

/-! ## Every run -/

/-- No promise of a `BothOk` is about to be set twice, and no future is in two places. -/
def SafeMoves (a : Action V ρ) (s : State V ρ) : Prop := Safe a s ∧ MoveOnly a s

instance instDecidableSafeMoves (a : Action V ρ) (s : State V ρ) : Decidable (SafeMoves a s) :=
  inferInstanceAs (Decidable (_ ∧ _))

/-- A step that runs an instruction lets the runtimes be, but for the one of the future in
hand. -/
theorem keeps_of_step {a : Action V ρ} {s s' : State V ρ} (hs : (machine V ρ).ReachableVia Safe s)
    (hstep : step a s = some s') : ∃ i, Keeps i s.heap s'.heap ∧ Grows s.heap s'.heap := by
  obtain ⟨e, rfl, hheap, -⟩ | ⟨t, code, i, rest, out, rfl, -, hout, hheap, O, hold, -⟩ :=
    step_cases hstep
  · refine ⟨.eval e (.consume (.root 0)), ?_⟩
    rw [hheap]
    exact ⟨.of_eq rfl rfl rfl, grows_start s.heap e⟩
  · refine ⟨i, ?_⟩
    rw [hheap]
    exact ⟨Keeps.exec hout, (good_of_safe hs hold hout).grows⟩

theorem inherits_of_safeMoves {s : State V ρ} (hs : (machine V ρ).ReachableVia SafeMoves s) :
    ∀ j ∈ s.instrs, j.Inherits s.heap := by
  induction hs with
  | init hinit =>
    obtain rfl := hinit
    intro j hj
    cases hj
  | @step s s' a hs hc hstep ih =>
    have hsafe := hs.mono fun _ _ hc => hc.1
    obtain ⟨e, rfl, hheap, hnew⟩ | ⟨t, code, i, rest, out, rfl, ht, hout, hheap, O, hold, hnew⟩ :=
      step_cases hstep
    · rw [hheap, hnew]
      intro j hj
      obtain hj | hj := Multiset.mem_add.mp hj
      · rw [Multiset.mem_singleton.mp hj]
        trivial
      · have hk : Keeps (.eval e (.consume (.root 0))) s.heap
            { s.heap with roots := s.heap.roots ++ [e] } := .of_eq rfl rfl rfl
        exact (ih j hj).others hk (grows_start s.heap e) fun _ _ _ he => by cases he
    · have hgood := good_of_safe hsafe hold hout
      have hi : i ∈ s.instrs := by simp [hold]
      rw [hheap, hnew]
      intro j hj
      obtain hj | hj := Multiset.mem_add.mp hj
      · exact inherits_exec (ledger_of_reachable hs.reachable) ((sound_of_safe hsafe).instr i hi)
          (ih i hi) hgood.grows hout j hj
      · refine (ih j (by simp [hold, hj])).others (Keeps.exec hout) hgood.grows ?_
        -- the future that is moved is in the hand of this thread only
        rintro cs k k' rfl rfl
        exact hc.2.not_mem hold hj

/-! ## Pipelines -/

section Unique

variable {h : Heap V ρ}

/-- The code of a promise is settled. -/
theorem CodeFor.unique {p : ℕ} {lift lift' : Lift} {code code' : Expr V ρ}
    (hc : CodeFor h p lift code) (hc' : CodeFor h p lift' code') : code = code' := by
  -- a leaf has no task
  have hnot : ∀ {i : Invocation V ρ} {lift : Lift} {code : Expr V ρ}, TaskFor h i lift code →
      h.origin i.promise ≠ some .contract := by
    intro i lift code ht ho
    cases ht with
    | spawn ho' | pipe ho' =>
      rw [ho] at ho'
      cases ho'
  obtain ⟨-, ho, hleaf⟩ | ⟨i, -, rfl, ht⟩ := hc
  · obtain ⟨-, -, hleaf'⟩ | ⟨i, -, rfl, ht⟩ := hc'
    · exact Option.some.inj (hleaf.symm.trans hleaf')
    · exact absurd ho (hnot ht)
  · obtain ⟨-, ho, -⟩ | ⟨i', -, he, ht'⟩ := hc'
    · exact absurd ho (hnot ht)
    · cases ht with
      | spawn ho =>
        cases ht' with
        | spawn ho' =>
          rw [he, ho] at ho'
          exact (Origin.spawn.inj (Option.some.inj ho')).2
        | pipe ho' =>
          rw [he, ho] at ho'
          cases ho'
      | pipe ho hw hr =>
        cases ht' with
        | spawn ho' =>
          rw [he, ho] at ho'
          cases ho'
        | pipe ho' hw' hr' =>
          rw [he, ho] at ho'
          obtain ⟨rfl, rfl⟩ := Origin.pipe.inj (Option.some.inj ho')
          rw [hw'.unique hw, hr] at hr'
          exact (Reaction.apply.inj hr').2.1

/-- What becomes of a value tells which expression it is the value of. -/
theorem Cont.Fits.unique {k : Cont V ρ} {e e' : Expr V ρ} (hk : k.Fits h e)
    (hk' : k.Fits h e') : e = e' := by
  induction k generalizing e e' with
  | set p => exact CodeFor.unique hk hk'
  | setOk p => exact CodeFor.unique hk hk'
  | consume cb =>
    cases cb with
    | root r => exact Option.some.inj (Eq.trans (Eq.symm hk) hk')
    | forward p => exact CodeFor.unique hk hk'
    | pipe => exact hk.elim
    | concur => exact hk.elim
  | ready k ih => exact Expr.ready.inj (ih hk hk')
  | pipe op k ih => exact (Expr.pipe.inj (ih hk hk')).2
  | concurFst op e₂ k ih => exact (Expr.concur.inj (ih hk hk')).2.1
  | concurSnd op v₁ k ih =>
    obtain ⟨e₁, -, hk⟩ := hk
    obtain ⟨e₁', -, hk'⟩ := hk'
    exact (Expr.concur.inj (ih hk hk')).2.2

end Unique

/-- The task has been submitted. -/
def State.Submitted (s : State V ρ) (i : Invocation V ρ) : Prop :=
  i ∈ s.heap.invoked ∨ ∃ code k, .task i code k ∈ s.instrs

/-- The function of the combinator is not called with the value: an error for `MapOk` and
`AndThen`, a success for `OrElse`. -/
def Pipe.bypasses : Pipe ρ (Val V → Expr V ρ) → Val V → Bool
  | .mapOk _, w => !w.hasValue
  | .andThen _, w => !w.hasValue
  | .orElse _, w => w.hasValue
  | _, _ => false

theorem reaction_of_bypasses {op : Pipe ρ (Val V → Expr V ρ)} {w : Val V}
    (hop : op.bypasses w = true) : op.reaction w = .pass := by
  cases op with
  | mapOk user => exact if_neg (by simpa [Pipe.bypasses] using hop)
  | andThen user => exact if_neg (by simpa [Pipe.bypasses] using hop)
  | orElse user => exact if_pos hop
  | _ => cases hop

/-- A stage with the state `p`, piped from the state `c`, works on the runtime. -/
structure StageOn (s : State V ρ) (rt : Runtime ρ) (op : Pipe ρ (Val V → Expr V ρ)) (c p : ℕ) :
    Prop where
  /-- Its user function is called in a task that is submitted to the runtime. -/
  task : ∀ i, s.Submitted i → i.promise = p → i.runtime = rt
  /-- `After` sets its timer in each call of its callback, on the runtime and with its delay. No
  other stage sets one. -/
  timers : s.heap.armed.filter (fun t => t.promise = p) =
    (s.heap.states c).calls.flatMap fun _ => op.timers rt p
  /-- Its callback has captured the runtime. -/
  captured : ∀ rt', (s.heap.states c).callback_ = some (.pipe op rt' p) → rt' = rt
  /-- If the stage is bypassed, there is no task. -/
  bypassed : ∀ w, s.heap.Delivers c w → op.bypasses w = true →
    ∀ i, s.Submitted i → i.promise ≠ p

/-- The stages of a pipeline from the state `c` to the state `cs` work on the runtime of the
latest `Via` before them, or on `rt`. -/
inductive RunsOn (s : State V ρ) : Runtime ρ → List (Pipe ρ (Val V → Expr V ρ)) → ℕ → ℕ → Prop
  | nil (rt : Runtime ρ) (c : ℕ) : RunsOn s rt [] c c
  | via {rt rt' : Runtime ρ} {ops : List (Pipe ρ (Val V → Expr V ρ))} {c cs : ℕ}
      (hrest : RunsOn s rt' ops c cs) : RunsOn s rt (.via rt' :: ops) c cs
  | stage {rt : Runtime ρ} {op : Pipe ρ (Val V → Expr V ρ)}
      {ops : List (Pipe ρ (Val V → Expr V ρ))} {c p cs : ℕ} (hop : ∀ rt', op ≠ .via rt')
      (ho : s.heap.origin p = some (.pipe op c)) (hstage : StageOn s rt op c p)
      (hrest : RunsOn s rt ops p cs) : RunsOn s rt (op :: ops) c cs

section Pipelines

variable {s : State V ρ} {rt : Runtime ρ} {p : ℕ}

/-- A task is under the runtime it has been submitted to. -/
theorem State.Submitted.under (hc : Calls s.heap s.instrs) {i : Invocation V ρ}
    (hi : s.Submitted i) : Under s.heap i.promise i.runtime := by
  obtain hi | ⟨code, k, hi⟩ := hi
  · exact hc.invoked i hi
  · exact (hc.instr _ hi _ _ ⟨rfl, rfl⟩).2

theorem State.Submitted.taskFor (hs : Sound s) {i : Invocation V ρ} (hi : s.Submitted i) :
    ∃ lift code, TaskFor s.heap i lift code := by
  obtain hi | ⟨code, k, hi⟩ := hi
  · exact hs.right.invoked i hi
  · obtain ⟨lift, -, ht⟩ := hs.instr _ hi
    exact ⟨lift, code, ht⟩

/-- What the input was consumed under is what the stage works on. -/
theorem stageOn_of_consumed (hs : Sound s) (hc : Calls s.heap s.instrs) (ha : Armings s.heap)
    {op : Pipe ρ (Val V → Expr V ρ)} {c : ℕ} (ho : s.heap.origin p = some (.pipe op c))
    (hrt : ConsumedUnder s.heap c rt) : StageOn s rt op c p := by
  have hu : Under s.heap p rt := .inl ⟨op, c, ho, hrt⟩
  refine ⟨fun i hi hip => ?_, ?_, fun rt' hcb => ?_, fun w hw hop i hi => ?_⟩
  · have hmine := hi.under hc
    rw [hip] at hmine
    exact hmine.unique hu
  · rw [ha.calls p op c ho, hrt.2.2]
  · have hstored := (hc.stored c _ p rt' hcb ⟨rfl, rfl⟩).2
    exact hstored.unique hu
  · obtain ⟨lift, code, ht⟩ := hi.taskFor hs
    exact ht.promise_ne ho hw (reaction_of_bypasses hop)

/-- So it is for all stages of a pipeline. -/
theorem Inherits.runsOn (hs : Sound s) (hc : Calls s.heap s.instrs) (ha : Armings s.heap)
    {ops : List (Pipe ρ (Val V → Expr V ρ))} {e : Expr V ρ} {cs : ℕ}
    (he : Inherits s.heap (pipes ops e) (.future cs)) (hrt : e.runtime = some rt) :
    ∃ c, Inherits s.heap e (.future c) ∧ RunsOn s rt ops c cs := by
  induction ops generalizing e rt with
  | nil => exact ⟨cs, he, .nil rt cs⟩
  | cons op ops ih =>
    -- the induction goes down to the source, and `Via` changes the runtime on the way up
    by_cases hvia : ∃ rt', op = .via rt'
    · obtain ⟨rt', rfl⟩ := hvia
      obtain ⟨p, hp, hrest⟩ := ih he rfl
      cases hp with
      | source hsrc _ => exact absurd rfl (hsrc _ _)
      | via he => exact ⟨p, he, .via hrest⟩
      | pipe hop _ _ _ => exact absurd rfl (hop rt')
    · have hop := not_exists.mp hvia
      obtain ⟨p, hp, hrest⟩ := ih he ((runtime_pipe_of_not_via hop e).trans hrt)
      cases hp with
      | source hsrc _ => exact absurd rfl (hsrc _ _)
      | via _ => exact absurd rfl (hop _)
      | pipe _ he ho hconsumed =>
        exact ⟨_, he, .stage hop ho (stageOn_of_consumed hs hc ha ho (hconsumed rt hrt)) hrest⟩

/-- The function of `Spawn` is called in a task on its runtime. -/
theorem source_task (hc : Calls s.heap s.instrs) {src : Expr V ρ} {c : ℕ}
    (hsrc : src.sourceRuntime = some rt) (he : Evaluates s.heap src (.future c))
    {i : Invocation V ρ} (hi : s.Submitted i) (hic : i.promise = c) : i.runtime = rt := by
  subst hic
  -- a source is not piped, and only `Spawn` has a task of its own
  obtain ⟨op, c', ho, -⟩ | ⟨user, ho⟩ := hi.under hc
  · cases he with
    | contract ho' | ready _ ho' | spawn ho' | concur _ _ ho' =>
      rw [ho] at ho'
      cases ho'
    | value | via | pipe => cases hsrc
  · cases he with
    | spawn ho' =>
      rw [ho] at ho'
      cases ho'
      exact Option.some.inj hsrc
    | contract ho' | ready _ ho' | concur _ _ ho' =>
      rw [ho] at ho'
      cases ho'
    | value | via | pipe => cases hsrc

end Pipelines

/-- **Runtimes are inherited**: from the moment a thread has a pipeline in hand, or a part of one,
its user functions are submitted to, and its timers are set on, the runtime of the latest `Via`
before them, or of the source. -/
theorem runtime_inherited {tr : List (Transition (State V ρ) (Action V ρ))} {s : State V ρ}
    (hrun : (machine V ρ).Run tr s) (hC : ∀ t ∈ tr, SafeMoves t.act t.pre)
    {src : Expr V ρ} {rt : Runtime ρ} (hsrc : src.sourceRuntime = some rt)
    (ops : List (Pipe ρ (Val V → Expr V ρ))) {t : Transition (State V ρ) (Action V ρ)}
    (ht : t ∈ tr) {cs : ℕ} {k : Cont V ρ} (hmem : .ret (.future cs) k ∈ t.post.instrs)
    (hk : k.Fits t.post.heap (pipes ops src)) :
    ∃ c, Evaluates s.heap src (.future c) ∧
      (∀ i, s.Submitted i → i.promise = c → i.runtime = rt) ∧ RunsOn s rt ops c cs := by
  have hsafe : (machine V ρ).ReachableVia Safe s :=
    hrun.reachableVia fun t ht => (hC t ht).1
  have hsound := sound_of_safe hsafe
  have hcalls := (calls_of_safe hsafe).1
  -- in hand the pipeline has inherited its runtimes, and it keeps them
  have hkept : Inherits s.heap (pipes ops src) (.future cs) := by
    refine hrun.stable (C := SafeMoves) (P := fun s => Inherits s.heap (pipes ops src) _)
      (fun a s s' hs _ hstep he => ?_) hC ht ?_
    · obtain ⟨i, hkeeps, hg⟩ := keeps_of_step (hs.mono fun _ _ hc => hc.1) hstep
      exact he.mono hkeeps hg
    · obtain ⟨e, he, hfits, -⟩ := inherits_of_safeMoves (hrun.reachableVia_post hC ht) _ hmem
      rw [← hfits.unique hk]
      exact he
  have harmings := (armings_of_safe hsafe).2
  obtain ⟨c, he, hrunsOn⟩ := hkept.runsOn hsound hcalls harmings (runtime_of_source hsrc)
  exact ⟨c, he.evaluates, fun i => source_task hcalls hsrc he.evaluates, hrunsOn⟩

/-- `FlatMap` is two stages. -/
example (user : Val V → Expr V ρ) (e : Expr V ρ) : pipes [.map user, .flatten] e = e.flatMap user :=
  rfl

/-- `Spawn(f, 0) | FlatMap(g) | Via(1) | After(delay) | MapOk(h) | OrElse(k)`; `g` returns a future
of the inline runtime. -/
def exampleSpawn : Expr ℕ ℕ := .spawn (.executor 0) (.value (.ok (.plain 1)))

def exampleOps : List (Pipe ℕ (Val ℕ → Expr ℕ ℕ)) :=
  [.map fun v => .ready (.value v), .flatten, .via (.executor 1), .after 5,
    .mapOk fun v => .value (.pair v v), .orElse fun _ => .contract]

/-- All stages are done before the program consumes the pipeline. -/
def exampleInherited : List (Action ℕ ℕ) :=
  .start (pipes exampleOps exampleSpawn) ::
    [(0, 23), (1, 7), (2, 19), (3, 4), (4, 9)].flatMap fun x =>
      List.replicate x.2 (.step x.1 .contract)

theorem runtime_inherited_flatMap : ∃ s, (machine ℕ ℕ).ReachableVia SafeMoves s ∧
    s.heap.invoked.map (fun i => (i.promise, i.runtime)) =
      [(0, .executor 0), (1, .executor 0), (4, .executor 1)] ∧
    s.heap.armed.map (fun t => (t.promise, t.runtime, t.delay)) = [(3, .executor 1, 5)] ∧
    ∃ c, Evaluates s.heap exampleSpawn (.future c) ∧
      (∀ i, s.Submitted i → i.promise = c → i.runtime = .executor 0) ∧
      RunsOn s (.executor 0) exampleOps c 5 := by
  have hinit : (machine ℕ ℕ).ReachableVia SafeMoves ⟨.empty, []⟩ := .init rfl
  have hends : ((machine ℕ ℕ).execVia SafeMoves exampleInherited ⟨.empty, []⟩).isSome = true := by
    decide +kernel
  obtain ⟨s, hexec⟩ := Option.isSome_iff_exists.mp hends
  have hstate : ((machine ℕ ℕ).execVia SafeMoves exampleInherited ⟨.empty, []⟩).map
      (fun s => (s.heap.roots, s.threads, s.heap.invoked.map (fun i => (i.promise, i.runtime)),
        s.heap.armed.map fun t => (t.promise, t.runtime, t.delay))) =
    some ([pipes exampleOps exampleSpawn],
      [[.ret (.future 5) (.consume (.root 0))], [], [], [], []],
      [(0, .executor 0), (1, .executor 0), (4, .executor 1)], [(3, .executor 1, 5)]) := rfl
  rw [hexec, Option.map_some] at hstate
  obtain ⟨hroots, hrest⟩ := Prod.mk.inj (Option.some.inj hstate)
  obtain ⟨hthreads, hrest⟩ := Prod.mk.inj hrest
  obtain ⟨hinvoked, harmed⟩ := Prod.mk.inj hrest
  have hs := hinit.exec exampleInherited hexec
  refine ⟨s, hs, hinvoked, harmed, ?_⟩
  obtain ⟨tr, hrun, hC⟩ := hs.exists_run
  have hlast : ∃ t ∈ tr, t.post = s := by
    cases hrun with
    | init h =>
      rw [h] at hroots
      cases hroots
    | step a _ _ => exact ⟨_, List.mem_cons_self, rfl⟩
  obtain ⟨t, ht, hpost⟩ := hlast
  refine runtime_inherited hrun hC rfl exampleOps ht (k := .consume (.root 0)) ?_ ?_
  · rw [hpost, State.instrs, hthreads]
    simp
  · rw [hpost]
    show s.heap.roots[0]? = some (pipes exampleOps exampleSpawn)
    rw [hroots]
    rfl

end Exe.Future
