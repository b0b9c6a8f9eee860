/-
The timers of `After`: the runtime they are set on, their delay, and how often they are set.

`Pipe` consumes its input with a callback for the promise of the new state, and nothing else
ever consumes it (`Piped`). So only a call of that callback sets timers for the promise, and it
sets them on the runtime that the input was consumed under: the timers on record are those of
the calls that have been made (`Armings`).
-/
import Exe.FutureCalls

set_option autoImplicit false

namespace Exe.Future

universe u v

variable {V : Type u} {ρ : Type v}

/-! ## The callback of an input -/

/-- The input of a piped state is about to be consumed, or has been, with the callback that is
for the state. -/
def Piped (h : Heap V ρ) (is : Multiset (Instr V ρ)) : Prop :=
  ∀ p op c, h.origin p = some (.pipe op c) → (∃ rt, .consume c (.pipe op rt p) ∈ is) ∨
    ∃ rt, (h.states c).callback_ = some (.pipe op rt p)

section Piping

variable {h : Heap V ρ} {i : Instr V ρ} {O : Multiset (Instr V ρ)} {code : Expr V ρ}
  {out : Out V ρ} {p c : ℕ} {op : Pipe ρ (Val V → Expr V ρ)}

/-- A new state is piped in `Pipe`, which is about to consume the input. -/
theorem consume_mem_of_pipe {k : Cont V ρ} (hstep : retStep h (.future c) (.pipe op k) = some out)
    (ho : out.heap.origin p = some (.pipe op c)) (hnew : h.origin p ≠ some (.pipe op c)) :
    ∃ rt, .consume c (.pipe op rt p) ∈ out.instrs := by
  cases retMoves_of_step hstep with
  | pipe hheld op k =>
    by_cases hvia : ∃ rt, op = .via rt
    -- `Via` makes no state
    · obtain ⟨rt, rfl⟩ := hvia
      refine absurd ?_ hnew
      by_cases hp : p = c
      · subst hp
        rwa [Heap.origin, pipeStep, states_setState] at ho
      · rwa [Heap.origin, pipeStep, states_setState_of_ne hp] at ho
    · rw [pipeStep_of_not_via (not_exists.mp hvia)] at ho ⊢
      by_cases hp : p = h.size
      · subst hp
        exact ⟨_, mem_instrs.mpr (.inl List.mem_cons_self)⟩
      · refine absurd ?_ hnew
        exact (congrArg ContractState.origin (states_setState_of_ne hp (h.touch c) _)).symm.trans ho

/-- **The step lemma** for the callbacks of inputs. -/
theorem Piped.exec (hp : Piped h ({i} + O)) (hk : Keeps i h out.heap) (hg : Grows h out.heap)
    (hstep : exec code h i = some out) : Piped out.heap (out.instrs + O) := by
  intro p op c ho
  by_cases hold : h.origin p = some (.pipe op c)
  · obtain ⟨rt, hmem⟩ | ⟨rt, hcb⟩ := hp p op c hold
    · obtain hmem | hmem := Multiset.mem_add.mp hmem
      -- the input is consumed by this step
      · obtain rfl := Multiset.mem_singleton.mp hmem
        obtain rfl := Option.some.inj hstep
        exact .inr ⟨rt, congrArg ContractState.callback_ (states_setState (h.touch c) c _)⟩
      · exact .inl ⟨rt, Multiset.mem_add.mpr (.inr hmem)⟩
    · exact .inr ⟨rt, (hg.state c).callback _ hcb⟩
  · obtain hsame | ⟨k, rfl⟩ := hk.piped p op c ho
    · exact absurd hsame hold
    · obtain ⟨rt, hmem⟩ := consume_mem_of_pipe hstep ho hold
      exact .inl ⟨rt, Multiset.mem_add.mpr (.inl hmem)⟩

/-- The resources of a thread are among all. -/
theorem consume_mem_res {rt : Runtime ρ} (hmem : .consume c (.pipe op rt p) ∈ {i} + O) :
    .consume c ∈ i.res + holdings O := by
  have hmine : .consume c ∈ (.consume c (.pipe op rt p) : Instr V ρ).res :=
    Multiset.mem_add.mpr (.inl (Multiset.mem_singleton_self _))
  have hall := Multiset.mem_of_le (res_le_holdings hmem) hmine
  rwa [holdings_add, holdings_singleton] at hall

theorem Piped.lt_size (hp : Piped h ({i} + O)) (hl : Ledger h (i.res + holdings O)) (hr : Right h)
    (ho : h.origin p = some (.pipe op c)) : c < h.size := by
  obtain ⟨rt, hmem⟩ | ⟨rt, hcb⟩ := hp p op c ho
  · exact hl.lt_size (consume_mem_res hmem) rfl
  · exact hr.lt_size_of_callback hcb

end Piping

/-! ## The timers on record -/

def Callback.timers : Callback V ρ → List (Arming ρ)
  | .pipe op rt p => op.timers rt p
  | _ => []

/-- For each piped state there are the timers that the calls of its callback have set, and
there are no others. -/
structure Armings (h : Heap V ρ) : Prop where
  piped : ∀ t ∈ h.armed, ∃ op c, h.origin t.promise = some (.pipe op c)
  calls : ∀ p op c, h.origin p = some (.pipe op c) →
    h.armed.filter (fun t => t.promise = p) =
      (h.states c).calls.flatMap fun _ => op.timers (h.states c).runtime_ p

section Arming

variable {h : Heap V ρ} {i : Instr V ρ} {O : Multiset (Instr V ρ)} {code : Expr V ρ}
  {out : Out V ρ}

/-- The callback of a combinator sets its timers and changes no contract state. -/
theorem pipeCallback_armed {op : Pipe ρ (Val V → Expr V ρ)} {rt : Runtime ρ} {p : ℕ} {w : Val V}
    (hstep : pipeCallback h rt p w op = some out) :
    out.heap.states = h.states ∧ out.heap.armed = h.armed ++ op.timers rt p := by
  have hnone : ∀ {arg code lift}, op.reaction w = .apply arg code lift → op.timers rt p = [] := by
    intro arg code lift hre
    cases op with
    | after delay => cases hre
    | _ => rfl
  obtain ⟨-, hheap, -⟩ | ⟨arg, code, lift, hre, rfl⟩ | ⟨c, hre, -, rfl⟩ :=
    pipeCallback_cases hstep
  · rw [hheap]
    exact ⟨rfl, rfl⟩
  · rw [submit_heap, hnone hre, List.append_nil]
    exact ⟨rfl, rfl⟩
  · cases op with
    | flatten => exact ⟨rfl, (List.append_nil _).symm⟩
    | after delay => cases hre
    | map user => cases hre
    | via rt => cases hre
    | _ =>
      simp only [Pipe.reaction] at hre
      split at hre <;> cases hre

theorem callback_armed {cb : Callback V ρ} {v : Val V} (hstep : callback h cb v = some out) :
    out.heap.states = h.states ∧ out.heap.armed = h.armed ++ cb.timers := by
  cases cb with
  | pipe op rt p => exact pipeCallback_armed hstep
  | _ =>
    obtain rfl := Option.some.inj hstep
    exact ⟨rfl, (List.append_nil _).symm⟩

/-- A rendezvous calls the callback, which sets its timers. -/
theorem rendezvous_armed {m : Multiset Res} {cs : ℕ} (hl : Ledger h ({.rendezvous cs} + m))
    (hstep : exec code h (.rendezvous cs) = some out) : ∃ cb v,
      (h.states cs).callback_ = some cb ∧ (out.heap.states cs).calls = [v] ∧
        out.heap.armed = h.armed ++ cb.timers := by
  obtain ⟨⟨cb, hcb⟩, ⟨v, hv⟩, hcalls, -⟩ := hl.rendezvous_ready
  cases rendezvousMoves_of_step hstep with
  | @call cb v o hcb _ ho =>
    obtain ⟨hstates, harmed⟩ := callback_armed ho
    refine ⟨cb, v, hcb, ?_, harmed⟩
    rw [hstates, states_setState, hcalls]
    rfl
  | crash hnone =>
    rw [hcb, hv] at hnone
    obtain hnone | hnone := hnone <;> cases hnone

/-- Nothing else sets a timer. -/
theorem exec_armed (hi : ∀ cs, i ≠ .rendezvous cs) (hstep : exec code h i = some out) :
    out.heap.armed = h.armed := by
  cases i with
  | rendezvous cs => exact absurd rfl (hi cs)
  | eval e k =>
    obtain rfl := Option.some.inj hstep
    cases e with
    | spawn rt user => cases rt <;> rfl
    | _ => rfl
  | ret v k =>
    cases retMoves_of_step hstep with
    | pipe _ op k => cases op <;> rfl
    | _ => rfl
  | call n s v =>
    obtain rfl := Option.some.inj hstep
    unfold callStep
    split <;> (try split) <;> rfl
  | arrive n s v =>
    obtain rfl := Option.some.inj hstep
    unfold arriveStep
    dsimp only
    split <;> (try split) <;> rfl
  | setTuple n =>
    obtain rfl := Option.some.inj hstep
    unfold setTupleStep
    dsimp only
    split <;> rfl
  | setNode n v =>
    obtain rfl := Option.some.inj hstep
    unfold setNodeStep
    split <;> rfl
  | _ =>
    obtain rfl := Option.some.inj hstep
    rfl

/-- A future in somebody's hand has not been called. -/
theorem Ledger.calls_nil_of_held {m : Multiset Res} {c : ℕ} (hl : Ledger h m)
    (hheld : h.held c = true) : (h.states c).calls = [] := by
  have hst := hl.state c
  have hconsumed := hst.consumed
  have hrendezvous := hst.rendezvous
  have hissued := Ledger.issued_le h (.promise c)
  rw [hheld, Bool.toNat_true] at hconsumed
  rw [if_neg (state_ne_three (by omega))] at hrendezvous
  exact List.eq_nil_of_length_eq_zero (by omega)

/-- Once it is called, an input is not about to be consumed. -/
theorem Ledger.not_consume_of_rendezvous {m : Multiset Res} {cs : ℕ}
    (hl : Ledger h ({.rendezvous cs} + m)) :
    .consume cs ∉ ({.rendezvous cs} + m : Multiset Res) := by
  intro hmem
  have hpos := Multiset.count_pos.mpr hmem
  have hthree := hl.rendezvous_ready.2.2.2
  have hconsumer := (hl.not_consumed (hpos.trans_le (Nat.le_add_right _ _))).1
  exact state_ne_three hconsumer hthree

theorem filter_timers_self (op : Pipe ρ (Val V → Expr V ρ)) (rt : Runtime ρ) (p : ℕ) :
    (op.timers rt p).filter (fun t => t.promise = p) = op.timers rt p := by
  cases op <;> simp [Pipe.timers]

theorem promise_of_mem_timers {op : Pipe ρ (Val V → Expr V ρ)} {rt : Runtime ρ} {p : ℕ}
    {t : Arming ρ} (ht : t ∈ op.timers rt p) : t.promise = p := by
  have hfilter := filter_timers_self op rt p
  exact of_decide_eq_true (List.filter_eq_self.mp hfilter t ht)

/-- The rendezvous of an input adds the timers of its callback. -/
theorem Armings.rendezvous {cs : ℕ} (ha : Armings h) (hp : Piped h ({.rendezvous cs} + O))
    (hc : Calls h ({.rendezvous cs} + O)) (hl : Ledger h ({.rendezvous cs} + holdings O))
    (hr : Right h) (hk : Keeps (.rendezvous cs) h out.heap) (hg : Grows h out.heap)
    (hstep : exec code h (.rendezvous cs) = some out) : Armings out.heap := by
  obtain ⟨cb, v, hcb, hcalled, harmed⟩ := rendezvous_armed hl hstep
  have hcalls := hl.rendezvous_ready.2.2.1
  -- a timer that is set now is for a state that has been piped from `cs`
  have hmine : ∀ t ∈ cb.timers, ∃ op, h.origin t.promise = some (.pipe op cs) := by
    intro t ht
    have hok := hr.callback cs cb hcb
    cases cb with
    | pipe op rt p =>
      rw [promise_of_mem_timers ht]
      exact ⟨op, hok⟩
    | _ => cases ht
  refine ⟨fun t ht => ?_, fun p op c ho => ?_⟩
  · rw [harmed] at ht
    obtain ht | ht := List.mem_append.mp ht
    · obtain ⟨op, c, ho⟩ := ha.piped t ht
      exact ⟨op, c, hg.origin ho⟩
    · obtain ⟨op, ho⟩ := hmine t ht
      exact ⟨op, cs, hg.origin ho⟩
  · have ho : h.origin p = some (.pipe op c) := (hk.piped p op c ho).resolve_right (by simp)
    have hc' := hp.lt_size hl hr ho
    have hrt : (out.heap.states c).runtime_ = (h.states c).runtime_ :=
      (hk.runtime c hc').resolve_right (by simp)
    rw [harmed, List.filter_append, ha.calls p op c ho, hrt]
    by_cases hcs : c = cs
    · subst hcs
      -- the callback that is called is the one for this state
      obtain ⟨rt, hmem⟩ | ⟨rt, hmine⟩ := hp p op c ho
      · exact absurd (consume_mem_res hmem) hl.not_consume_of_rendezvous
      · obtain rfl : cb = .pipe op rt p := Option.some.inj (hcb.symm.trans hmine)
        obtain ⟨op', c', ho', hunder⟩ | ⟨user, ho'⟩ := (hc.stored c _ p rt hcb ⟨rfl, rfl⟩).2
        · obtain ⟨rfl, rfl⟩ : op' = op ∧ c' = c := by simpa using ho'.symm.trans ho
          have hself : (Callback.pipe op' rt p : Callback V ρ).timers.filter
              (fun t => t.promise = p) = op'.timers rt p := filter_timers_self op' rt p
          rw [hcalls, hcalled, hunder.2.2, hself, List.flatMap_nil, List.nil_append,
            List.flatMap_singleton]
        · rw [ho] at ho'
          cases ho'
    · have hsame : (out.heap.states c).calls = (h.states c).calls :=
        (hk.calls c hc').resolve_right fun he => hcs (by simpa using he.symm)
      have hnone : cb.timers.filter (fun t => t.promise = p) = [] := by
        refine List.filter_eq_nil_iff.mpr fun t ht he => hcs ?_
        obtain ⟨op', ho'⟩ := hmine t ht
        rw [of_decide_eq_true he, ho] at ho'
        exact (Origin.pipe.inj (Option.some.inj ho')).2
      rw [hnone, hsame, List.append_nil]

/-- **The step lemma** for the timers. -/
theorem Armings.exec (ha : Armings h) (hp : Piped h ({i} + O)) (hc : Calls h ({i} + O))
    (hl : Ledger h (i.res + holdings O)) (hr : Right h) (hg : Grows h out.heap)
    (hstep : exec code h i = some out) : Armings out.heap := by
  have hk := Keeps.exec hstep
  by_cases hi : ∃ cs, i = .rendezvous cs
  · obtain ⟨cs, rfl⟩ := hi
    exact ha.rendezvous hp hc hl hr hk hg hstep
  have hi := not_exists.mp hi
  have harmed := exec_armed hi hstep
  refine ⟨fun t ht => ?_, fun p op c ho => ?_⟩
  · rw [harmed] at ht
    obtain ⟨op, c, ho⟩ := ha.piped t ht
    exact ⟨op, c, hg.origin ho⟩
  rw [harmed]
  by_cases hold : h.origin p = some (.pipe op c)
  · have hc' := hp.lt_size hl hr hold
    have hcalls := (hk.calls c hc').resolve_right (hi c)
    rw [ha.calls p op c hold, hcalls]
    obtain hrt | ⟨hheld, -⟩ := hk.runtime c hc'
    · rw [hrt]
    -- `Via` has the future in hand, which has not been called
    · rw [hl.calls_nil_of_held hheld]
      rfl
  -- a state is made from a future in hand, and has no timer
  · obtain hsame | ⟨k, rfl⟩ := hk.piped p op c ho
    · exact absurd hsame hold
    have hret : retStep h (.future c) (.pipe op k) = some out := hstep
    have hheld : h.held c = true := by
      cases retMoves_of_step hret with
      | pipe hheld => exact hheld
    have hcalls := (hk.calls c (hl.not_deleted_of_held hheld).1).resolve_right (hi c)
    rw [hcalls, hl.calls_nil_of_held hheld]
    refine List.filter_eq_nil_iff.mpr fun t ht he => hold ?_
    obtain ⟨op', c', ho'⟩ := ha.piped t ht
    rw [of_decide_eq_true he] at ho'
    rw [ho', ← hg.origin ho', ho]

end Arming

/-- **Every run sets the timers of `After` in the calls of their callbacks.** -/
theorem armings_of_safe {s : State V ρ} (hs : (machine V ρ).ReachableVia Safe s) :
    Piped s.heap s.instrs ∧ Armings s.heap := by
  induction hs with
  | init hinit =>
    obtain rfl := hinit
    refine ⟨fun p op c ho => ?_, ⟨fun t ht => ?_, fun p op c ho => ?_⟩⟩
    · cases ho
    · cases ht
    · cases ho
  | @step s s' a hs hc hstep ih =>
    obtain ⟨hpiped, harmings⟩ := ih
    have hl := ledger_of_reachable hs.reachable
    have hcalls := (calls_of_safe hs).1
    obtain ⟨e, rfl, hheap, hnew⟩ | ⟨t, code, i, rest, out, rfl, ht, hout, hheap, O, hold, hnew⟩ :=
      step_cases hstep
    · rw [hheap, hnew]
      refine ⟨fun p op c ho => ?_, harmings.piped, harmings.calls⟩
      exact (hpiped p op c ho).imp_left fun ⟨rt, hmem⟩ => ⟨rt, Multiset.mem_add.mpr (.inr hmem)⟩
    · have hgood := good_of_safe hs hold hout
      rw [hold] at hpiped hcalls hl
      rw [holdings_add, holdings_singleton] at hl
      rw [hheap, hnew]
      exact ⟨hpiped.exec (Keeps.exec hout) hgood.grows hout,
        harmings.exec hpiped hcalls hl (sound_of_safe hs).right hgood.grows hout⟩

end Exe.Future
