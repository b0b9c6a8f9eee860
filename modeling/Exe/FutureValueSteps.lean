/-
Every step does what it should do.

One lemma for each part of `exec`: from a heap in which everything is as it should be, and
an instruction that should be run, it makes a heap in which everything still is, and
instructions that should be run (`Good`). The promise of a concurrent combinator is where the
two halves meet: what it is set with is the outcome of its node (`Settled`), and the outcome
is justified by those who have arrived there.
-/
import Exe.FutureValues

set_option autoImplicit false

namespace Exe.Future

open Function (update)

universe u v

variable {V : Type u} {ρ : Type v}

/-- What a step should leave behind. -/
structure Good (h : Heap V ρ) (out : Out V ρ) : Prop where
  grows : Grows h out.heap
  right : Right out.heap
  instr : ∀ j ∈ out.instrs, j.Ok out.heap

section Lists

variable {h h' : Heap V ρ} {now later : List (Instr V ρ)} {P : Instr V ρ → Prop}

theorem mem_instrs {j : Instr V ρ} {out : Out V ρ} :
    j ∈ out.instrs ↔ j ∈ out.now ∨ j ∈ out.later := by
  rw [Multiset.mem_add, Multiset.mem_coe, Multiset.mem_coe]

/-- One more instruction at the end of what is done now. -/
theorem mem_instrs_append {i j : Instr V ρ} {out : Out V ρ}
    (hj : j ∈ ({ out with now := out.now ++ [i] } : Out V ρ).instrs) : j ∈ out.instrs ∨ j = i := by
  obtain hj | hj := mem_instrs.mp hj
  · obtain hj | hj := List.mem_append.mp hj
    · exact .inl (mem_instrs.mpr (.inl hj))
    · exact .inr (List.mem_singleton.mp hj)
  · exact .inl (mem_instrs.mpr (.inr hj))

theorem Good.of_lists (hg : Grows h h') (hr : Right h') (hnow : ∀ j ∈ now, j.Ok h')
    (hlater : ∀ j ∈ later, j.Ok h') : Good h ⟨h', now, later⟩ :=
  ⟨hg, hr, fun j hj => (mem_instrs.mp hj).elim (hnow j) (hlater j)⟩

theorem submit_instrs (h : Heap V ρ) (rt : Runtime ρ) (i : Instr V ρ) :
    (submit h rt i).instrs = {i} := by
  cases rt <;> simp [submit, Out.instrs]

end Lists

/-! ## Expressions -/

section Expressions

variable {h : Heap V ρ} {out : Out V ρ}

theorem Good.evalStep {k : Cont V ρ} {e : Expr V ρ} (hr : Right h) (hk : k.Fits h e) :
    Good h (evalStep h k e) := by
  cases e with
  | value v =>
    refine .of_lists (.refl h) hr (List.forall_mem_singleton.mpr ?_) (List.forall_mem_nil _)
    exact ⟨.value v, .value v, hk⟩
  | contract =>
    have hg := grows_contract hr .inline .contract
    have ho := origin_contract h .inline .contract
    refine .of_lists hg (hr.contract _ _) (List.forall_mem_singleton.mpr ?_)
      (List.forall_mem_singleton.mpr ho)
    exact ⟨.contract, .contract ho, hk.mono hg⟩
  | ready e =>
    exact .of_lists (.refl h) hr (List.forall_mem_singleton.mpr hk) (List.forall_mem_nil _)
  | pipe op e =>
    exact .of_lists (.refl h) hr (List.forall_mem_singleton.mpr hk) (List.forall_mem_nil _)
  | concur op e₁ e₂ =>
    exact .of_lists (.refl h) hr (List.forall_mem_singleton.mpr hk) (List.forall_mem_nil _)
  | spawn rt user =>
    have hg := grows_contract hr rt (.spawn rt user)
    have ho := origin_contract h rt (.spawn rt user)
    have hheap : (Future.evalStep h k (.spawn rt user)).heap = h.contract rt (.spawn rt user) :=
      submit_heap _ _ _
    refine ⟨?_, ?_, fun j hj => ?_⟩
    · rw [hheap]
      exact hg
    · rw [hheap]
      exact hr.contract _ _
    · rw [hheap]
      have hj : j = .task ⟨h.size, rt, none⟩ user (.set h.size) ∨ j = .ret (.future h.size) k := by
        cases rt <;> simpa [Future.evalStep, submit, Out.instrs, or_comm] using hj
      obtain rfl | rfl := hj
      · exact ⟨.set, rfl, .spawn ho rfl⟩
      · exact ⟨.spawn rt user, .spawn ho, hk.mono hg⟩

/-- The promise of code is set with its value. -/
theorem Right.justified_of_set {p : ℕ} {e : Expr V ρ} {v : Val V} (hr : Right h)
    (hc : CodeFor h p .set e) (he : Evaluates h e v) : Justified h p v := by
  obtain ⟨-, ho, hleaf⟩ | ⟨⟨p', rt, arg⟩, hi, rfl, ht⟩ := hc
  · exact .contract ho hleaf he
  · cases ht with
    | spawn ho harg =>
      obtain rfl := harg
      exact .spawn ho hi he
    | pipe ho hw hre harg =>
      obtain rfl := harg
      exact .set ho hw (hr.delivered hw) hre hi he

theorem Right.justified_of_setOk {p : ℕ} {e : Expr V ρ} {v : Val V} (hr : Right h)
    (hc : CodeFor h p .setOk e) (he : Evaluates h e v) : Justified h p (.ok v) := by
  obtain ⟨hlift, -⟩ | ⟨⟨p', rt, arg⟩, hi, rfl, ht⟩ := hc
  · cases hlift
  · cases ht with
    | pipe ho hw hre harg =>
      obtain rfl := harg
      exact .setOk ho hw (hr.delivered hw) hre hi he

/-- The state a promise is forwarded from. -/
theorem Right.justified_of_forwards {p cs : ℕ} {v : Val V} (hr : Right h) (hf : Forwards h p cs)
    (hcb : (h.states cs).callback_ = some (.forward p)) (hv : h.Delivers cs v) :
    Justified h p v := by
  obtain ⟨code, ⟨hlift, -⟩ | ⟨⟨p', rt, arg⟩, hi, rfl, ht⟩, he⟩ | ⟨op, c, w, ho, hw, hre⟩ := hf
  · cases hlift
  · cases ht with
    | pipe ho hw hre harg =>
      obtain rfl := harg
      exact .forward ho hw (hr.delivered hw) hre hi he hcb hv (hr.delivered hv)
  · exact .inner ho hw (hr.delivered hw) hre hcb hv (hr.delivered hv)

theorem Good.pipeStep {op : Pipe ρ (Val V → Expr V ρ)} {k : Cont V ρ} {e : Expr V ρ} {cs : ℕ}
    (hr : Right h) (hcs : cs < h.size) (he : Evaluates h e (.future cs))
    (hk : k.Fits h (.pipe op e)) : Good h (pipeStep h op k cs) := by
  by_cases hvia : ∃ rt, op = .via rt
  · obtain ⟨rt, rfl⟩ := hvia
    have hst : (h.states cs).Grows { h.states cs with runtime_ := rt } :=
      ⟨fun _ => id, fun _ => id, fun _ => id, fun _ => id⟩
    have hg : Grows h ((h.touch cs).setState cs { h.states cs with runtime_ := rt }) :=
      (grows_touch h cs).trans (.setState hst)
    refine .of_lists hg ?_ (List.forall_mem_singleton.mpr ?_) (List.forall_mem_nil _)
    · exact (hr.touch cs).setState hcs hst (fun _ => .inl) (fun _ => .inl) fun _ => .inl
    · exact ⟨_, .via (he.mono hg), hk.mono hg⟩
  · have hout : Future.pipeStep h op k cs =
        ⟨((h.touch cs).contract (h.states cs).runtime_ (.pipe op cs)).release cs,
          [.consume cs (.pipe op (h.states cs).runtime_ h.size), .ret (.future h.size) k], []⟩ := by
      cases op with
      | via rt => exact absurd ⟨rt, rfl⟩ hvia
      | _ => rfl
    rw [hout]
    have hr' := hr.touch cs
    have hg := ((grows_touch h cs).trans (grows_contract hr' (h.states cs).runtime_
      (.pipe op cs))).trans (grows_release _ cs)
    have ho := origin_contract (h.touch cs) (h.states cs).runtime_ (.pipe op cs)
    refine .of_lists hg ((hr'.contract _ _).release cs) (fun j hj => ?_) (List.forall_mem_nil _)
    obtain rfl | rfl : j = _ ∨ j = _ := by simpa using hj
    · exact ho
    · exact ⟨_, .pipe (he.mono hg) ho, hk.mono hg⟩

theorem Good.concurStep {op : Concur} {k : Cont V ρ} {e₁ e₂ : Expr V ρ} {c₁ c₂ : ℕ}
    (hr : Right h) (he₁ : Evaluates h e₁ (.future c₁)) (he₂ : Evaluates h e₂ (.future c₂))
    (hk : k.Fits h (.concur op e₁ e₂)) : Good h (concurStep h op k c₁ c₂) := by
  have hr' := hr.contract .inline (.concur op c₁ c₂)
  have hg := (((grows_contract hr .inline (.concur op c₁ c₂)).trans
    (grows_share _ op h.size)).trans (grows_release _ c₁)).trans (grows_release _ c₂)
  have ho := origin_contract h .inline (.concur op c₁ c₂)
  have hnode : ∀ s : Side, Consumes (Future.concurStep h op k c₁ c₂).heap h.nodeCount s
      (s.pick c₁ c₂) := by
    intro s
    have hnew : (Future.concurStep h op k c₁ c₂).heap.nodes h.nodeCount =
        ⟨op, some h.size, fun _ => none, 0, h.size, []⟩ := nodes_setNode _ _ _
    refine ⟨Nat.lt_succ_self _, c₁, c₂, ?_, rfl⟩
    rw [hnew]
    exact ho
  refine .of_lists hg (((hr'.share op h.size).release c₁).release c₂) (fun j hj => ?_)
    (List.forall_mem_nil _)
  obtain rfl | rfl | rfl : j = _ ∨ j = _ ∨ j = _ := by simpa using hj
  · exact hnode .first
  · exact hnode .second
  · exact ⟨_, .concur (he₁.mono hg) (he₂.mono hg) ho, hk.mono hg⟩

/-- A value is where the expression stood. -/
theorem Good.retStep {m : Multiset Res} {k : Cont V ρ} {e : Expr V ρ} {v : Val V}
    (hl : Ledger h m) (hr : Right h) (he : Evaluates h e v) (hk : k.Fits h e)
    (hstep : retStep h v k = some out) : Good h out := by
  cases retMoves_of_step hstep with
  | set v p =>
    exact .of_lists (.refl h) hr (List.forall_mem_singleton.mpr (hr.justified_of_set hk he))
      (List.forall_mem_nil _)
  | setOk v p =>
    exact .of_lists (.refl h) hr (List.forall_mem_singleton.mpr (hr.justified_of_setOk hk he))
      (List.forall_mem_nil _)
  | @consume cs hheld cb =>
    have hg := grows_release h cs
    refine .of_lists hg (hr.release cs) (List.forall_mem_singleton.mpr ?_) (List.forall_mem_nil _)
    have hok : cb.Ok h cs := by
      cases cb with
      | root r => exact ⟨e, hk, he⟩
      | forward p => exact .inl ⟨e, hk, he⟩
      | pipe => exact hk.elim
      | concur => exact hk.elim
    exact hok.mono hg
  | ready v k =>
    have hg := grows_contract hr .inline (.ready v)
    have ho := origin_contract h .inline (.ready v)
    refine .of_lists hg (hr.contract _ _) (fun j hj => ?_) (List.forall_mem_nil _)
    obtain rfl | rfl : j = _ ∨ j = _ := by simpa using hj
    · exact .ready ho
    · exact ⟨_, .ready (he.mono hg) ho, Cont.Fits.mono hg hk⟩
  | pipe hheld op k => exact Good.pipeStep hr (hl.not_deleted_of_held hheld).1 he hk
  | concurFst v op e₂ k =>
    exact .of_lists (.refl h) hr (List.forall_mem_singleton.mpr ⟨e, he, hk⟩)
      (List.forall_mem_nil _)
  | concurSnd _ _ _ op k =>
    obtain ⟨e₁, he₁, hk⟩ := hk
    exact Good.concurStep hr he₁ he hk

end Expressions

/-! ## Callbacks -/

section Callbacks

variable {h : Heap V ρ} {out : Out V ρ}

theorem fits_cont {p : ℕ} {lift : Lift} {code : Expr V ρ} (hc : CodeFor h p lift code) :
    (lift.cont p : Cont V ρ).Fits h code := by
  cases lift <;> exact hc

theorem Good.pipeCallback {op : Pipe ρ (Val V → Expr V ρ)} {rt : Runtime ρ} {p cs : ℕ} {w : Val V}
    (hr : Right h) (ho : h.origin p = some (.pipe op cs)) (hw : h.Delivers cs w)
    (hstep : pipeCallback h rt p w op = some out) : Good h out := by
  obtain ⟨hre, hheap, hinstrs⟩ | ⟨arg, code, lift, hre, rfl⟩ | ⟨c, hre, -, rfl⟩ :=
    pipeCallback_cases hstep
  · have hg : Grows h out.heap := hheap ▸ grows_arm h _
    refine ⟨hg, hheap ▸ hr.arm _, fun j hj => ?_⟩
    rw [hinstrs] at hj
    rw [Multiset.mem_singleton.mp hj]
    exact .pass (hg.origin ho) (hg.delivers hw) ((hr.delivered hw).mono hg) hre
  · refine ⟨?_, ?_, fun j hj => ?_⟩
    · rw [submit_heap]
      exact .refl h
    · rw [submit_heap]
      exact hr
    · rw [submit_instrs] at hj
      rw [Multiset.mem_singleton.mp hj, submit_heap]
      exact ⟨lift, rfl, .pipe ho hw hre rfl⟩
  · have hg := grows_release h c
    refine .of_lists hg (hr.release c) (List.forall_mem_singleton.mpr ?_) (List.forall_mem_nil _)
    exact Forwards.mono hg (.inr ⟨op, cs, w, ho, hw, hre⟩)

theorem Good.callback {cb : Callback V ρ} {cs : ℕ} {w : Val V} (hr : Right h)
    (hcb : (h.states cs).callback_ = some cb) (hw : h.Delivers cs w)
    (hstep : callback h cb w = some out) : Good h out := by
  have hok := hr.callback cs cb hcb
  cases cb with
  | root r =>
    obtain rfl := Option.some.inj hstep
    exact .of_lists (.of_eq rfl rfl rfl rfl rfl rfl) (hr.run hcb hw) (List.forall_mem_nil _)
      (List.forall_mem_nil _)
  | pipe op rt p => exact Good.pipeCallback hr hok hw hstep
  | forward p =>
    obtain rfl := Option.some.inj hstep
    exact .of_lists (.refl h) hr
      (List.forall_mem_singleton.mpr (hr.justified_of_forwards hok hcb hw)) (List.forall_mem_nil _)
  | concur n s =>
    obtain rfl := Option.some.inj hstep
    exact .of_lists (.refl h) hr (List.forall_mem_singleton.mpr ⟨cs, hok, hw⟩)
      (List.forall_mem_nil _)

/-- The callback is called with the result. -/
theorem Good.rendezvousStep {m : Multiset Res} {cs : ℕ} (hl : Ledger h ({.rendezvous cs} + m))
    (hr : Right h) (hstep : rendezvousStep h cs = some out) : Good h out := by
  have hcs : cs < h.size := hl.lt_size (r := .rendezvous cs) (by simp) rfl
  obtain ⟨⟨cb, hcb⟩, ⟨v, hv⟩, hcalls, -⟩ := hl.rendezvous_ready
  simp only [Future.rendezvousStep, hcb, hv, hcalls, List.nil_append] at hstep
  obtain ⟨o, ho, rfl⟩ := Option.map_eq_some_iff.mp hstep
  set st : ContractState V ρ :=
    { h.states cs with callback_ := some cb, result_ := some v, calls := [v] }
  have hgrows : (h.states cs).Grows st := by
    refine ⟨fun _ => id, fun cb' h => hcb.symm.trans h, fun v' h => hv.symm.trans h,
      fun w hw => ?_⟩
    rw [hcalls] at hw
    cases hw
  have hg : Grows h ((h.touch cs).setState cs st) := (grows_touch h cs).trans (.setState hgrows)
  have hr' : Right ((h.touch cs).setState cs st) := by
    refine (hr.touch cs).setState hcs hgrows (fun v' h => .inl (hv.trans h)) (fun w hw => .inr ?_)
      fun cb' h => .inl (hcb.trans h)
    exact congrArg some (List.singleton_inj.mp hw)
  have hnew : ((h.touch cs).setState cs st).states cs = st := states_setState _ _ _
  have hcb' : (((h.touch cs).setState cs st).states cs).callback_ = some cb := by rw [hnew]
  have hw' : ((h.touch cs).setState cs st).Delivers cs v := by rw [Heap.Delivers, hnew]
  have hgood : Good ((h.touch cs).setState cs st) o := Good.callback hr' hcb' hw' ho
  refine ⟨hg.trans hgood.grows, hgood.right, fun j hj => ?_⟩
  obtain hj | rfl := mem_instrs_append hj
  · exact hgood.instr j hj
  · trivial

end Callbacks

/-! ## Contract states -/

section States

variable {h : Heap V ρ} {m : Multiset Res} {cs : ℕ}

/-- A state has no result as long as somebody has its promise. -/
theorem Ledger.not_produced (hl : Ledger h ({.promise cs} + m)) : (h.states cs).result_ = none := by
  have hbalance := hl.balance (.promise cs)
  have hissued := Ledger.issued_le h (.promise cs)
  rw [count_carried_promise, count_add_self] at hbalance
  simp only [Heap.spent] at hbalance
  exact (hl.state cs).result.mpr (by omega)

theorem Good.produce {v : Val V} (hl : Ledger h ({.promise cs} + m)) (hr : Right h)
    (hj : Justified h cs v) : Good h ⟨(h.touch cs).setState cs { h.states cs with
      result_ := some v, sets := (h.states cs).sets + 1 }, [.produced cs], []⟩ := by
  have hcs : cs < h.size := hl.promise_lt_size (by simp)
  have hnone := hl.not_produced
  have hst : (h.states cs).Grows { h.states cs with
      result_ := some v, sets := (h.states cs).sets + 1 } := by
    refine ⟨fun _ => id, fun _ => id, fun v' hv => ?_, fun _ => id⟩
    rw [hnone] at hv
    cases hv
  have hg := (grows_touch h cs).trans (.setState hst)
  refine .of_lists hg ?_ (List.forall_mem_singleton.mpr trivial) (List.forall_mem_nil _)
  refine (hr.touch cs).setState hcs hst (fun v' hv => .inr ?_) (fun _ => .inl) fun _ => .inl
  rw [← Option.some.inj hv]
  exact hj.mono (grows_touch h cs)

/-- The other accesses of `Produce` and `Consume`, and the deletion. -/
theorem Good.access {st : ContractState V ρ} {now : List (Instr V ρ)} (hr : Right h)
    (hcs : cs < h.size) (horigin : st.origin = (h.states cs).origin)
    (hcallback : st.callback_ = (h.states cs).callback_)
    (hresult : st.result_ = (h.states cs).result_) (hcalls : st.calls = (h.states cs).calls)
    (hnow : ∀ j ∈ now, j = .rendezvous cs) : Good h ⟨(h.touch cs).setState cs st, now, []⟩ := by
  have hst : (h.states cs).Grows st :=
    ⟨fun _ h => horigin.trans h, fun _ h => hcallback.trans h, fun _ h => hresult.trans h,
      fun _ h => hcalls.trans h⟩
  refine .of_lists ((grows_touch h cs).trans (.setState hst)) ?_ (fun j hj => ?_)
    (List.forall_mem_nil _)
  · exact (hr.touch cs).setState hcs hst (fun _ h => .inl (hresult.symm.trans h))
      (fun _ h => .inl (hcalls.symm.trans h)) fun _ h => .inl (hcallback.symm.trans h)
  · rw [hnow j hj]
    trivial

theorem Good.consume {cb : Callback V ρ} (hl : Ledger h ({.consume cs} + ({cb.res} + m)))
    (hr : Right h) (hok : cb.Ok h cs) : Good h ⟨(h.touch cs).setState cs { h.states cs with
      callback_ := some cb }, [.consumed cs], []⟩ := by
  have hcs : cs < h.size := hl.lt_size (r := .consume cs) (by simp) rfl
  have hnone : (h.states cs).callback_ = none := by
    have hcount : ({.consume cs} + ({cb.res} + m)).count (.consume cs) =
        1 + ({cb.res} + m).count (.consume cs) := count_add_self _ _
    have hpos : 1 ≤ ({.consume cs} + ({cb.res} + m)).count (.consume cs) +
        ({.consume cs} + ({cb.res} + m)).count (.consumed cs) := by omega
    obtain ⟨hconsumer, hone⟩ := hl.not_consumed hpos
    exact (hl.state cs).callback.mpr (by omega)
  have hst : (h.states cs).Grows { h.states cs with callback_ := some cb } := by
    refine ⟨fun _ => id, fun cb' hcb => ?_, fun _ => id, fun _ => id⟩
    rw [hnone] at hcb
    cases hcb
  refine .of_lists ((grows_touch h cs).trans (.setState hst)) ?_
    (List.forall_mem_singleton.mpr trivial) (List.forall_mem_nil _)
  refine (hr.touch cs).setState hcs hst (fun _ => .inl) (fun _ => .inl) fun cb' hcb => .inr ?_
  rw [← Option.some.inj hcb]
  exact hok.mono (grows_touch h cs)

end States

/-! ## Concurrent combinators -/

section Nodes

variable {h : Heap V ρ} {O : Multiset (Instr V ρ)} {n : ℕ} {s : Side} {v : Val V}

theorem consumes_unique {cs cs' : ℕ} (hc : Consumes h n s cs) (hc' : Consumes h n s cs') :
    cs = cs' := by
  obtain ⟨-, c₁, c₂, ho, rfl⟩ := hc
  obtain ⟨-, c₁', c₂', ho', rfl⟩ := hc'
  obtain ⟨rfl, rfl⟩ : c₁ = c₁' ∧ c₂ = c₂' := by
    simpa using Option.some.inj (ho.symm.trans ho')
  rfl

/-- What a node's promise is set with is what should be. -/
theorem Right.justified_of_outcome (hr : Right h) (hv : (h.nodes n).outcome = some v) :
    Justified h (h.nodes n).owner v := by
  obtain ⟨⟨s, u⟩, l, hlist⟩ := List.exists_cons_of_ne_nil (arrivals_ne_nil hv)
  obtain ⟨w, ⟨cs, ⟨hn, c₁, c₂, ho, -⟩, -⟩, -⟩ :=
    hr.arrivals n s u (by rw [hlist]; exact List.mem_cons_self)
  have hone : ∀ a ∈ (h.nodes n).arrivals, ∃ w, h.Delivers (a.1.pick c₁ c₂) w ∧
      a.2 = (h.nodes n).op.seen w := by
    rintro ⟨t, u⟩ ha
    obtain ⟨w, ⟨cs, hc, hw⟩, hu⟩ := hr.arrivals n t u ha
    rw [consumes_unique hc ⟨hn, c₁, c₂, ho, rfl⟩] at hw
    exact ⟨w, hw, hu⟩
  -- the value the callback of a side was called with
  have hhead : ∀ a ∈ (h.nodes n).arrivals,
      h.Delivers (a.1.pick c₁ c₂) ((h.states (a.1.pick c₁ c₂)).calls.headD v) ∧
        a.2 = (h.nodes n).op.seen ((h.states (a.1.pick c₁ c₂)).calls.headD v) := by
    intro a ha
    obtain ⟨w, hw, hu⟩ := hone a ha
    have he : (h.states (a.1.pick c₁ c₂)).calls.headD v = w := by
      rw [hw]
      rfl
    rw [he]
    exact ⟨hw, hu⟩
  exact .concur (w := fun t => (h.states (t.pick c₁ c₂)).calls.headD v) ho hn rfl rfl
    (List.prefix_refl _) (fun a ha => (hhead a ha).2) (fun a ha => (hhead a ha).1)
    (fun a ha => hr.delivered (hhead a ha).1) hv

/-- Both values are there, and the outcome is their tuple. -/
theorem outcome_of_paired {node : ProtectedPromise V} (hp : node.Paired) {v₁ v₂ : Val V}
    (h₁ : node.slot .first = some v₁) (h₂ : node.slot .second = some v₂) :
    node.outcome = some (if node.op = .bothOk then .ok (.pair v₁ v₂) else .pair v₁ v₂) := by
  obtain ⟨s, v, w, hv, hw, ⟨hop, ha⟩ | ⟨hop, ha⟩⟩ := hp
  all_goals
    rw [ProtectedPromise.outcome, hop, ha]
    cases s
    all_goals
      simp only [Side.other] at hv hw
      rw [h₁] at *
      rw [h₂] at *
      obtain rfl := Option.some.inj hv
      obtain rfl := Option.some.inj hw
      rfl

/-- A value that a callback other than one of `BothOk` has been called with. -/
theorem carries_of_arrives (ha : Arrives h n s v) (hop : (h.nodes n).op ≠ .bothOk) :
    Carries h n s v := by
  refine ⟨v, ha, ?_, fun he => absurd he hop⟩
  cases he : (h.nodes n).op with
  | bothOk => exact absurd he hop
  | _ => rfl

theorem Good.arrive {state : ℕ} {u : Val V} {now : List (Instr V ρ)} (hr : Right h)
    (ha : ∃ w, Arrives h n s w ∧ u = (h.nodes n).op.seen w)
    (hnow : ∀ j ∈ now, j = .setTuple n ∨ (∃ w, j = .setNode n w) ∨ j = .fail n) :
    Good h ⟨h.setNode n { h.nodes n with state, arrivals := (h.nodes n).arrivals ++ [(s, u)] },
      now, []⟩ := by
  have hnode : (h.nodes n).Grows { h.nodes n with
      state, arrivals := (h.nodes n).arrivals ++ [(s, u)] } := ⟨rfl, rfl, List.prefix_append _ _⟩
  refine .of_lists (.setNode hnode) (hr.setNode hnode fun t x hx => ?_) (fun j hj => ?_)
    (List.forall_mem_nil _)
  · obtain hx | hx := List.mem_append.mp hx
    · exact .inl hx
    · obtain ⟨rfl, rfl⟩ := Prod.mk.inj (List.mem_singleton.mp hx)
      exact .inr ha
  · obtain rfl | ⟨w, rfl⟩ | rfl := hnow j hj <;> trivial

theorem Good.callStep (hr : Right h) (ha : Arrives h n s v) :
    Good h (callStep (ρ := ρ) h n s v) := by
  have hgo : ∀ j : Instr V ρ, j.Ok h → Good h ⟨h, [j], []⟩ := fun j hj =>
    .of_lists (.refl h) hr (List.forall_mem_singleton.mpr hj) (List.forall_mem_nil _)
  unfold Future.callStep
  cases hop : (h.nodes n).op with
  | both => exact hgo _ (carries_of_arrives ha (by rw [hop]; decide))
  | first => exact hgo _ (carries_of_arrives ha (by rw [hop]; decide))
  | firstOk => exact hgo _ (carries_of_arrives ha (by rw [hop]; decide))
  | bothOk =>
    dsimp only
    split
    · rename_i hv
      exact hgo _ ⟨v, ha, by rw [hop]; rfl, fun _ => hv⟩
    · rename_i hv
      refine Good.arrive hr ⟨v, ha, ?_⟩ fun j hj => ?_
      · rw [hop]
        exact (if_neg hv).symm
      · obtain rfl | rfl : j = .setNode n v ∨ j = .fail n := by simpa using hj
        · exact .inr (.inl ⟨v, rfl⟩)
        · exact .inr (.inr rfl)

theorem Good.storeStep (hr : Right h) (hc : Carries h n s v) : Good h
    ⟨h.setNode n { h.nodes n with slot := update (h.nodes n).slot s (some v) },
      [.arrive n s v], []⟩ := by
  have hnode : (h.nodes n).Grows { h.nodes n with
      slot := update (h.nodes n).slot s (some v) } := ⟨rfl, rfl, List.prefix_refl _⟩
  exact .of_lists (.setNode hnode) (hr.setNode hnode fun _ _ => .inl)
    (List.forall_mem_singleton.mpr (Carries.mono (.setNode hnode) hc)) (List.forall_mem_nil _)

theorem Good.arriveStep (hr : Right h) (hc : Carries h n s v) :
    Good h (arriveStep (ρ := ρ) h n s v) := by
  obtain ⟨w, ha, hv, hok⟩ := hc
  have hnow : ∀ (p : Prop) [Decidable p] (i : Instr V ρ),
      (i = .setTuple n ∨ (∃ w, i = .setNode n w) ∨ i = .fail n) →
      ∀ j ∈ (if p then [i] else []), j = .setTuple n ∨ (∃ w, j = .setNode n w) ∨ j = .fail n := by
    intro p _ i hi j hj
    split at hj
    · rw [List.mem_singleton.mp hj]
      exact hi
    · cases hj
  unfold Future.arriveStep
  dsimp only
  split
  · rename_i hop
    rw [hop] at hv
    exact Good.arrive hr ⟨w, ha, by rw [hop]; exact hv⟩ (hnow _ _ (.inl rfl))
  · rename_i hop
    rw [hop] at hv
    exact Good.arrive hr ⟨w, ha, by rw [hop]; exact hv⟩ (hnow _ _ (.inr (.inl ⟨v, rfl⟩)))
  · rename_i hop
    rw [hop] at hv
    split <;>
      exact Good.arrive hr ⟨w, ha, by rw [hop]; exact hv⟩ (hnow _ _ (.inr (.inl ⟨v, rfl⟩)))
  · rename_i hop
    rw [hop] at hv
    refine Good.arrive hr ⟨w, ha, ?_⟩ (hnow _ _ (.inl rfl))
    rw [hop, hv]
    exact (if_pos (hok hop)).symm

/-- The promise is set with the outcome. -/
theorem Good.take {p : ℕ} (hr : Right h) (hp : p = (h.nodes n).owner)
    (hv : (h.nodes n).outcome = some v) : Good h
    ⟨h.setNode n { h.nodes n with promise := none }, [.produce p v], []⟩ := by
  have hnode : (h.nodes n).Grows { h.nodes n with promise := none } :=
    ⟨rfl, rfl, List.prefix_refl _⟩
  refine .of_lists (.setNode hnode) (hr.setNode hnode fun _ _ => .inl)
    (List.forall_mem_singleton.mpr ?_) (List.forall_mem_nil _)
  rw [hp]
  exact Justified.mono (.setNode hnode) (hr.justified_of_outcome hv)

end Nodes

/-! ## Every instruction -/

/-- **The step lemma.** An instruction that should be run does what it should. -/
theorem Good.exec {h : Heap V ρ} {i : Instr V ρ} {O : Multiset (Instr V ρ)} {code : Expr V ρ}
    {out : Out V ρ} (hl : Ledger h (i.res + holdings O)) (hslots : Slots h ({i} + O))
    (hs : Settled h ({i} + O)) (hr : Right h) (hi : i.Ok h)
    (hleaf : ∀ p, i = .leaf p → h.leaf p = none) (hstep : exec code h i = some out) :
    Good h out := by
  have hmem : ∀ r ∈ i.res, r ∈ i.res + holdings O := fun r hm => Multiset.mem_add.mpr (.inl hm)
  cases i with
  | eval e k =>
    obtain rfl := Option.some.inj hstep
    exact Good.evalStep hr hi
  | ret v k =>
    obtain ⟨e, he, hk⟩ := hi
    exact Good.retStep hl hr he hk hstep
  | task i code k =>
    obtain rfl := Option.some.inj hstep
    obtain ⟨lift, rfl, ht⟩ := hi
    have hg := grows_invoked h i
    refine .of_lists hg (hr.invoke ht) (List.forall_mem_singleton.mpr (fits_cont ?_))
      (List.forall_mem_nil _)
    exact .inr ⟨i, List.mem_append_right _ (List.mem_singleton_self i), rfl, ht.mono hg⟩
  | leaf p =>
    obtain rfl := Option.some.inj hstep
    have hp : p < h.size := hl.promise_lt_size (hmem _ (by simp [Instr.res]))
    have hnone := hleaf p rfl
    have hg := grows_leaf hnone code
    refine .of_lists hg (hr.leaf hp hnone code) (List.forall_mem_singleton.mpr (.inl ?_))
      (List.forall_mem_nil _)
    exact ⟨rfl, hg.origin hi, Function.update_self _ _ _⟩
  | produce cs v =>
    obtain rfl := Option.some.inj hstep
    exact Good.produce hl hr hi
  | produced cs =>
    obtain rfl := Option.some.inj hstep
    have hcs : cs < h.size := hl.lt_size (hmem (.produced cs) (by simp [Instr.res])) rfl
    refine Good.access hr hcs rfl rfl rfl rfl fun j hj => ?_
    split at hj
    · exact List.mem_singleton.mp hj
    · cases hj
  | consume cs cb =>
    obtain rfl := Option.some.inj hstep
    have hl' : Ledger h ({.consume cs} + ({cb.res} + holdings O)) := by
      rwa [Instr.res, add_assoc] at hl
    exact Good.consume hl' hr hi
  | consumed cs =>
    obtain rfl := Option.some.inj hstep
    have hcs : cs < h.size := hl.lt_size (hmem (.consumed cs) (by simp [Instr.res])) rfl
    refine Good.access hr hcs rfl rfl rfl rfl fun j hj => ?_
    split at hj
    · exact List.mem_singleton.mp hj
    · cases hj
  | rendezvous cs => exact Good.rendezvousStep hl hr hstep
  | delete cs =>
    obtain rfl := Option.some.inj hstep
    have hcs : cs < h.size := hl.lt_size (hmem (.delete cs) (by simp [Instr.res])) rfl
    exact Good.access hr hcs rfl rfl rfl rfl (fun j hj => by cases hj)
  | call n s v =>
    obtain rfl := Option.some.inj hstep
    exact Good.callStep hr hi
  | store n s v =>
    obtain rfl := Option.some.inj hstep
    exact Good.storeStep hr hi
  | arrive n s v =>
    obtain rfl := Option.some.inj hstep
    exact Good.arriveStep hr hi
  | setTuple n =>
    obtain rfl := Option.some.inj hstep
    have hpaired : (h.nodes n).Paired := hslots.instr (.setTuple n) (by simp) n rfl
    unfold setTupleStep
    dsimp only
    split
    · rename_i p v₁ v₂ hp h₁ h₂
      exact Good.take hr (hslots.owner n p hp) (outcome_of_paired hpaired h₁ h₂)
    · exact .of_lists (.of_eq rfl rfl rfl rfl rfl rfl) hr.crash (List.forall_mem_nil _)
        (List.forall_mem_nil _)
  | setNode n v =>
    obtain rfl := Option.some.inj hstep
    unfold setNodeStep
    split
    · rename_i p hp
      exact Good.take hr (hslots.owner n p hp) (hs.value n v (by simp))
    · exact .of_lists (.of_eq rfl rfl rfl rfl rfl rfl) hr.crash (List.forall_mem_nil _)
        (List.forall_mem_nil _)
  | fail n =>
    obtain rfl := Option.some.inj hstep
    have hnode : (h.nodes n).Grows { h.nodes n with state := (h.nodes n).state ||| failBit } :=
      ⟨rfl, rfl, List.prefix_refl _⟩
    exact .of_lists (.setNode hnode) (hr.setNode hnode fun _ _ => .inl) (List.forall_mem_nil _)
      (List.forall_mem_nil _)

/-! ## Leaves -/

section Leaves

variable {h : Heap V ρ} {out : Out V ρ}

/-- The step settles the code of no leaf, and makes none. -/
def NoLeaf (h : Heap V ρ) (out : Out V ρ) : Prop :=
  out.heap.leaf = h.leaf ∧ ∀ p, .leaf p ∉ out.instrs

theorem NoLeaf.of_lists {h' : Heap V ρ} {now later : List (Instr V ρ)} (hleaf : h'.leaf = h.leaf)
    (hnow : ∀ p, .leaf p ∉ now) (hlater : ∀ p, .leaf p ∉ later) : NoLeaf h ⟨h', now, later⟩ :=
  ⟨hleaf, fun p hp => (mem_instrs.mp hp).elim (hnow p) (hlater p)⟩

theorem NoLeaf.submit {rt : Runtime ρ} {i : Instr V ρ} (hi : ∀ p, i ≠ .leaf p) :
    NoLeaf h (submit h rt i) := by
  refine ⟨by rw [submit_heap], fun p hp => ?_⟩
  rw [submit_instrs] at hp
  exact hi p (Multiset.mem_singleton.mp hp).symm

theorem noLeaf_retStep {v : Val V} {k : Cont V ρ} (hstep : retStep h v k = some out) :
    NoLeaf h out := by
  cases retMoves_of_step hstep with
  | pipe _ op k => cases op <;> exact .of_lists rfl (by simp) (by simp)
  | _ => exact .of_lists rfl (by simp) (by simp)

theorem noLeaf_callback {cb : Callback V ρ} {v : Val V} (hstep : callback h cb v = some out) :
    NoLeaf h out := by
  cases cb with
  | pipe op rt p =>
    obtain ⟨-, hheap, hinstrs⟩ | ⟨arg, code, lift, -, rfl⟩ | ⟨c, -, -, rfl⟩ :=
      pipeCallback_cases hstep
    · refine ⟨by rw [hheap], fun p' hp => ?_⟩
      rw [hinstrs] at hp
      cases Multiset.mem_singleton.mp hp
    · exact .submit (by simp)
    · exact .of_lists rfl (by simp) (by simp)
  | _ =>
    obtain rfl := Option.some.inj hstep
    exact .of_lists rfl (by simp) (by simp)

/-- What a step does to the leaves: it settles the code of its own one, or it may make one, the
number of which is new. -/
theorem exec_leaf {i : Instr V ρ} {code : Expr V ρ} (hstep : exec code h i = some out) :
    NoLeaf h out ∨ (out.heap.leaf = h.leaf ∧ ∀ p, .leaf p ∈ out.instrs → p = h.size) ∨
      ∃ p, i = .leaf p ∧ out.heap.leaf = update h.leaf p (some code) ∧
        ∀ p', .leaf p' ∉ out.instrs := by
  cases i with
  | eval e k =>
    obtain rfl := Option.some.inj hstep
    cases e with
    | contract => exact .inr (.inl ⟨rfl, by simp [evalStep, Out.instrs]⟩)
    | spawn rt user =>
      refine .inl ⟨?_, fun p hp => ?_⟩
      · cases rt <;> rfl
      · cases rt <;> simp [evalStep, submit, Out.instrs] at hp
    | _ => exact .inl (.of_lists rfl (by simp) (by simp))
  | ret v k => exact .inl (noLeaf_retStep hstep)
  | leaf p =>
    obtain rfl := Option.some.inj hstep
    exact .inr (.inr ⟨p, rfl, rfl, by simp⟩)
  | rendezvous cs =>
    refine .inl ?_
    cases rendezvousMoves_of_step hstep with
    | call _ _ ho =>
      obtain ⟨hleaf, hno⟩ := noLeaf_callback ho
      refine ⟨hleaf, fun p hp => ?_⟩
      obtain hp | hp := mem_instrs_append hp
      · exact hno p hp
      · cases hp
    | crash => exact .of_lists rfl (by simp) (by simp)
  | produced cs =>
    obtain rfl := Option.some.inj hstep
    refine .inl (.of_lists rfl (fun p hp => ?_) (by simp))
    split at hp <;> simp at hp
  | consumed cs =>
    obtain rfl := Option.some.inj hstep
    refine .inl (.of_lists rfl (fun p hp => ?_) (by simp))
    split at hp <;> simp at hp
  | call n s v =>
    obtain rfl := Option.some.inj hstep
    unfold callStep
    split <;> (try split) <;> exact .inl (.of_lists rfl (by simp) (by simp))
  | arrive n s v =>
    obtain rfl := Option.some.inj hstep
    have hif : ∀ (q : Prop) [Decidable q] (j : Instr V ρ), (∀ p, j ≠ .leaf p) →
        ∀ p, .leaf p ∉ (if q then [j] else []) := by
      intro q _ j hj p hp
      split at hp
      · exact hj p (List.mem_singleton.mp hp).symm
      · cases hp
    unfold arriveStep
    dsimp only
    split
    · exact .inl (.of_lists rfl (hif _ _ (by simp)) (by simp))
    · exact .inl (.of_lists rfl (hif _ _ (by simp)) (by simp))
    · split <;> exact .inl (.of_lists rfl (hif _ _ (by simp)) (by simp))
    · exact .inl (.of_lists rfl (hif _ _ (by simp)) (by simp))
  | setTuple n =>
    obtain rfl := Option.some.inj hstep
    unfold setTupleStep
    dsimp only
    split <;> exact .inl (.of_lists rfl (by simp) (by simp))
  | setNode n v =>
    obtain rfl := Option.some.inj hstep
    unfold setNodeStep
    split <;> exact .inl (.of_lists rfl (by simp) (by simp))
  | _ =>
    obtain rfl := Option.some.inj hstep
    exact .inl (.of_lists rfl (by simp) (by simp))

end Leaves

/-! ## Every run -/

/-- Everything is as it should be, and so is what is to be done. -/
structure Sound (s : State V ρ) : Prop where
  right : Right s.heap
  instr : ∀ i ∈ s.instrs, i.Ok s.heap
  leaf : ∀ p, .leaf p ∈ s.instrs → s.heap.leaf p = none

/-- A promise is in one place. -/
theorem Ledger.promise_unique {h : Heap V ρ} {m : Multiset Res} {p : ℕ}
    (hl : Ledger h ({.promise p} + m)) : .promise p ∉ m := by
  intro hmem
  have hpos := Multiset.count_pos.mpr hmem
  have hbalance := hl.balance (.promise p)
  have hissued := Ledger.issued_le h (.promise p)
  rw [count_carried_promise, count_add_self] at hbalance
  omega

theorem sound_of_safe {s : State V ρ} (hs : (machine V ρ).ReachableVia Safe s) : Sound s := by
  refine hs.invariant_of (B := fun s => Ledger s.heap (holdings s.instrs) ∧
    Slots s.heap s.instrs ∧ Settled s.heap s.instrs) (I := Sound)
    (fun hs => ⟨ledger_of_reachable hs.reachable, slots_of_reachable hs.reachable,
      (settled_of_safe hs).1⟩) (fun s hinit => ?_) fun a s s' hbase _ h _ hstep => ?_
  · obtain rfl := hinit
    refine ⟨⟨fun cs v hv => ?_, fun cs w hw => ?_, fun cs cb hcb => ?_, fun n s v ha => ?_,
      fun r v hm => ?_, fun i hi => ?_, fun cs _ => ⟨rfl, rfl⟩⟩, fun i hi => ?_, fun p hp => rfl⟩
    · cases hv
    · cases hw
    · cases hcb
    · cases ha
    · cases hm
    · cases hi
    · cases hi
  · obtain ⟨hl, hslots, hsettled⟩ := hbase
    obtain ⟨hr, hok, hleaf⟩ := h
    obtain ⟨e, rfl, hheap, hnew⟩ | ⟨t, code, i, rest, out, -, -, hout, hheap, O, hold, hnew⟩ :=
      step_cases hstep
    · have hg := grows_start s.heap e
      refine ⟨?_, fun j hj => ?_, fun p hp => ?_⟩
      · rw [hheap]
        exact hr.same hg rfl rfl rfl rfl rfl rfl
      · rw [hheap]
        rw [hnew] at hj
        obtain hj | hj := Multiset.mem_add.mp hj
        · rw [Multiset.mem_singleton.mp hj]
          exact List.getElem?_concat_length
        · exact (hok j hj).mono hg
      · rw [hnew] at hp
        rw [hheap]
        obtain hp | hp := Multiset.mem_add.mp hp
        · cases Multiset.mem_singleton.mp hp
        · exact hleaf p hp
    · rw [hold] at hl hslots hsettled hok hleaf
      rw [holdings_add, holdings_singleton] at hl
      have hgood := Good.exec hl hslots hsettled hr (hok i (by simp))
        (fun p hp => hleaf p (by simp [hp])) hout
      refine ⟨?_, fun j hj => ?_, fun p hp => ?_⟩
      · rw [hheap]
        exact hgood.right
      · rw [hheap]
        rw [hnew] at hj
        obtain hj | hj := Multiset.mem_add.mp hj
        · exact hgood.instr j hj
        · exact (hok j (Multiset.mem_add.mpr (.inr hj))).mono hgood.grows
      · rw [hnew] at hp
        rw [hheap]
        obtain hp | hp := Multiset.mem_add.mp hp
        · obtain ⟨-, hno⟩ | ⟨hsame, hsize⟩ | ⟨p', -, -, hno⟩ := exec_leaf hout
          · exact absurd hp (hno p)
          · rw [hsame, hsize p hp]
            exact (hr.fresh _ (Nat.le_refl _)).2
          · exact absurd hp (hno p)
        · have hnone := hleaf p (Multiset.mem_add.mpr (.inr hp))
          obtain ⟨hsame, -⟩ | ⟨hsame, -⟩ | ⟨p', rfl, hset, -⟩ := exec_leaf hout
          · rw [hsame]
            exact hnone
          · rw [hsame]
            exact hnone
          · have hne : p ≠ p' := by
              rintro rfl
              refine hl.promise_unique (Multiset.mem_of_le (res_le_holdings hp) ?_)
              simp [Instr.res]
            rw [hset, Function.update_of_ne hne]
            exact hnone

end Exe.Future
