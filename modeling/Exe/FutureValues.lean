/-
The values: what an expression evaluates to, and what a contract state may be set with.

`Evaluates` follows the syntax of an expression down to the contract states that were made
for it. `Justified` says that a value is the one a contract state is to be set with: the
value of the code of a leaf or of a user function, the value of a state it is piped from,
or what a concurrent combinator makes of those of its two states. It is built up from the
leaves, one constructor for each way a value takes.

A heap only ever grows (`Grows`): what has been said of it stays true. So `Right`, that
every result, every callback and every arrival is the one it should be, and `Instr.Ok`, that
a thread is about to do what it should do, are kept by every step.
-/
import Exe.FutureNodes

set_option autoImplicit false

namespace Exe.Future

open Function (update)

universe u v

variable {V : Type u} {ρ : Type v}

/-! ## What a sequential combinator does with a value -/

/-- How a promise is set with what a user function returns: as it is, as a success, or with
what becomes of the future that was returned. -/
inductive Lift
  | set
  | setOk
  | forward
  deriving DecidableEq

def Lift.cont : Lift → ℕ → Cont V ρ
  | .set, p => .set p
  | .setOk, p => .setOk p
  | .forward, p => .consume (.forward p)

/-- The value is passed on, a user function is called, or it is the future to be consumed
next. -/
inductive Reaction (V : Type u) (ρ : Type v) : Type (max u v)
  | pass
  | apply (arg : Val V) (code : Expr V ρ) (lift : Lift)
  | inner (cs : ℕ)
  | stuck

def Pipe.reaction : Pipe ρ (Val V → Expr V ρ) → Val V → Reaction V ρ
  | .via _, _ => .stuck
  | .map user, w => .apply w (user w) .set
  | .flatten, .future cs => .inner cs
  | .flatten, _ => .stuck
  | .after _, _ => .pass
  | .mapOk user, w => if w.hasValue then .apply w.value (user w.value) .setOk else .pass
  | .andThen user, w => if w.hasValue then .apply w.value (user w.value) .forward else .pass
  | .orElse user, w => if w.hasValue then .pass else .apply w.error (user w.error) .forward

/-- The timers that the callback of a combinator sets: `After` one, on the runtime that it has
captured. -/
def Pipe.timers (op : Pipe ρ (Val V → Expr V ρ)) (rt : Runtime ρ) (p : ℕ) : List (Arming ρ) :=
  match op with
  | .after delay => [⟨p, rt, delay⟩]
  | _ => []

/-- Without a timer to set, the heap stays as it is. -/
theorem heap_timers_nil {h : Heap V ρ} {op : Pipe ρ (Val V → Expr V ρ)} {rt : Runtime ρ} {p : ℕ}
    (hop : op.timers rt p = []) : { h with armed := h.armed ++ op.timers rt p } = h := by
  rw [hop, List.append_nil]

/-- The callback of a combinator does what the combinator is to do. -/
theorem pipeCallback_cases {h : Heap V ρ} {rt : Runtime ρ} {p : ℕ} {w : Val V}
    {op : Pipe ρ (Val V → Expr V ρ)} {out : Out V ρ} (hstep : pipeCallback h rt p w op = some out) :
    op.reaction w = .pass ∧ out.heap = { h with armed := h.armed ++ op.timers rt p } ∧
      out.instrs = {.produce p w} ∨
    (∃ arg code lift, op.reaction w = .apply arg code lift ∧
      out = submit h rt (.task ⟨p, rt, some arg⟩ code (lift.cont p))) ∨
    ∃ cs, op.reaction w = .inner cs ∧ h.held cs = true ∧
      out = ⟨h.release cs, [.consume cs (.forward p)], []⟩ := by
  cases op with
  | via rt => cases hstep
  | map user =>
    obtain rfl := Option.some.inj hstep
    exact .inr (.inl ⟨w, user w, .set, rfl, rfl⟩)
  | after delay =>
    obtain rfl := Option.some.inj hstep
    exact .inl ⟨rfl, rfl, by simp [setTimer, Out.instrs]⟩
  | flatten =>
    simp only [pipeCallback] at hstep
    split at hstep
    · rename_i cs
      split at hstep
      · rename_i hheld
        obtain rfl := Option.some.inj hstep
        exact .inr (.inr ⟨cs, rfl, hheld, rfl⟩)
      · cases hstep
    · cases hstep
  | mapOk user =>
    simp only [pipeCallback] at hstep
    split at hstep <;> rename_i hw <;> obtain rfl := Option.some.inj hstep
    · exact .inr (.inl ⟨_, _, .setOk, if_pos hw, rfl⟩)
    · exact .inl ⟨if_neg hw, by rw [heap_timers_nil rfl], by simp [Out.instrs]⟩
  | andThen user =>
    simp only [pipeCallback] at hstep
    split at hstep <;> rename_i hw <;> obtain rfl := Option.some.inj hstep
    · exact .inr (.inl ⟨_, _, .forward, if_pos hw, rfl⟩)
    · exact .inl ⟨if_neg hw, by rw [heap_timers_nil rfl], by simp [Out.instrs]⟩
  | orElse user =>
    simp only [pipeCallback] at hstep
    split at hstep <;> rename_i hw <;> obtain rfl := Option.some.inj hstep
    · exact .inl ⟨if_pos hw, by rw [heap_timers_nil rfl], by simp [Out.instrs]⟩
    · exact .inr (.inl ⟨_, _, .forward, if_neg hw, rfl⟩)

/-! ## What is evaluated, and what is justified -/

def Heap.origin (h : Heap V ρ) (cs : ℕ) : Option (Origin V ρ) := (h.states cs).origin

/-- The callback of the state has been called with the value. -/
def Heap.Delivers (h : Heap V ρ) (cs : ℕ) (w : Val V) : Prop := (h.states cs).calls = [w]

/-- The value an expression has been evaluated to. -/
inductive Evaluates (h : Heap V ρ) : Expr V ρ → Val V → Prop
  | value (v : Val V) : Evaluates h (.value v) v
  | contract {cs : ℕ} (ho : h.origin cs = some .contract) : Evaluates h .contract (.future cs)
  | ready {e : Expr V ρ} {v : Val V} {cs : ℕ} (he : Evaluates h e v)
      (ho : h.origin cs = some (.ready v)) : Evaluates h (.ready e) (.future cs)
  | spawn {rt : Runtime ρ} {user : Expr V ρ} {cs : ℕ} (ho : h.origin cs = some (.spawn rt user)) :
      Evaluates h (.spawn rt user) (.future cs)
  | via {rt : Runtime ρ} {e : Expr V ρ} {cs : ℕ} (he : Evaluates h e (.future cs)) :
      Evaluates h (.pipe (.via rt) e) (.future cs)
  | pipe {op : Pipe ρ (Val V → Expr V ρ)} {e : Expr V ρ} {c cs : ℕ}
      (he : Evaluates h e (.future c)) (ho : h.origin cs = some (.pipe op c)) :
      Evaluates h (.pipe op e) (.future cs)
  | concur {op : Concur} {e₁ e₂ : Expr V ρ} {c₁ c₂ cs : ℕ} (he₁ : Evaluates h e₁ (.future c₁))
      (he₂ : Evaluates h e₂ (.future c₂)) (ho : h.origin cs = some (.concur op c₁ c₂)) :
      Evaluates h (.concur op e₁ e₂) (.future cs)

/-- The state of a side. -/
def Side.pick (c₁ c₂ : ℕ) : Side → ℕ
  | .first => c₁
  | .second => c₂

/-- The result a callback arrives with. -/
def Concur.seen : Concur → Val V → Val V
  | .bothOk, w => if w.hasValue then .ok w.value else w
  | _, w => w

/-- The value a contract state is to be set with. -/
inductive Justified (h : Heap V ρ) : ℕ → Val V → Prop
  | contract {cs : ℕ} {e : Expr V ρ} {v : Val V} (ho : h.origin cs = some .contract)
      (hleaf : h.leaf cs = some e) (he : Evaluates h e v) : Justified h cs v
  | ready {cs : ℕ} {v : Val V} (ho : h.origin cs = some (.ready v)) : Justified h cs v
  | spawn {cs : ℕ} {rt : Runtime ρ} {user : Expr V ρ} {v : Val V}
      (ho : h.origin cs = some (.spawn rt user)) (hi : ⟨cs, rt, none⟩ ∈ h.invoked)
      (he : Evaluates h user v) : Justified h cs v
  | pass {cs c : ℕ} {op : Pipe ρ (Val V → Expr V ρ)} {w : Val V}
      (ho : h.origin cs = some (.pipe op c)) (hw : h.Delivers c w) (hc : Justified h c w)
      (hr : op.reaction w = .pass) : Justified h cs w
  | set {cs c : ℕ} {op : Pipe ρ (Val V → Expr V ρ)} {w arg v : Val V} {code : Expr V ρ}
      {rt : Runtime ρ} (ho : h.origin cs = some (.pipe op c)) (hw : h.Delivers c w)
      (hc : Justified h c w) (hr : op.reaction w = .apply arg code .set)
      (hi : ⟨cs, rt, some arg⟩ ∈ h.invoked) (he : Evaluates h code v) : Justified h cs v
  | setOk {cs c : ℕ} {op : Pipe ρ (Val V → Expr V ρ)} {w arg v : Val V} {code : Expr V ρ}
      {rt : Runtime ρ} (ho : h.origin cs = some (.pipe op c)) (hw : h.Delivers c w)
      (hc : Justified h c w) (hr : op.reaction w = .apply arg code .setOk)
      (hi : ⟨cs, rt, some arg⟩ ∈ h.invoked) (he : Evaluates h code v) : Justified h cs (.ok v)
  | forward {cs c c' : ℕ} {op : Pipe ρ (Val V → Expr V ρ)} {w arg v : Val V} {code : Expr V ρ}
      {rt : Runtime ρ} (ho : h.origin cs = some (.pipe op c)) (hw : h.Delivers c w)
      (hc : Justified h c w) (hr : op.reaction w = .apply arg code .forward)
      (hi : ⟨cs, rt, some arg⟩ ∈ h.invoked) (he : Evaluates h code (.future c'))
      (hcb : (h.states c').callback_ = some (.forward cs)) (hv : h.Delivers c' v)
      (hc' : Justified h c' v) : Justified h cs v
  | inner {cs c c' : ℕ} {op : Pipe ρ (Val V → Expr V ρ)} {w v : Val V}
      (ho : h.origin cs = some (.pipe op c)) (hw : h.Delivers c w) (hc : Justified h c w)
      (hr : op.reaction w = .inner c') (hcb : (h.states c').callback_ = some (.forward cs))
      (hv : h.Delivers c' v) (hc' : Justified h c' v) : Justified h cs v
  | concur {cs c₁ c₂ n : ℕ} {op : Concur} {w : Side → Val V} {l : List (Side × Val V)} {v : Val V}
      (ho : h.origin cs = some (.concur op c₁ c₂)) (hn : n < h.nodeCount)
      (howner : (h.nodes n).owner = cs) (hop : (h.nodes n).op = op)
      (hl : l <+: (h.nodes n).arrivals) (hseen : ∀ a ∈ l, a.2 = op.seen (w a.1))
      (hw : ∀ a ∈ l, h.Delivers (a.1.pick c₁ c₂) (w a.1))
      (hc : ∀ a ∈ l, Justified h (a.1.pick c₁ c₂) (w a.1)) (hv : op.outcome l = some v) :
      Justified h cs v

/-! ## A heap grows -/

structure ContractState.Grows (st st' : ContractState V ρ) : Prop where
  origin : ∀ o, st.origin = some o → st'.origin = some o
  callback : ∀ cb, st.callback_ = some cb → st'.callback_ = some cb
  result : ∀ v, st.result_ = some v → st'.result_ = some v
  calls : ∀ w, st.calls = [w] → st'.calls = [w]

structure ProtectedPromise.Grows (node node' : ProtectedPromise V) : Prop where
  op : node'.op = node.op
  owner : node'.owner = node.owner
  arrivals : node.arrivals <+: node'.arrivals

structure Grows (h h' : Heap V ρ) : Prop where
  state : ∀ cs, (h.states cs).Grows (h'.states cs)
  nodeCount : h.nodeCount ≤ h'.nodeCount
  node : ∀ n < h.nodeCount, (h.nodes n).Grows (h'.nodes n)
  leaf : ∀ p e, h.leaf p = some e → h'.leaf p = some e
  roots : h.roots <+: h'.roots
  invoked : ∀ i ∈ h.invoked, i ∈ h'.invoked

section Growth

variable {h h' h'' : Heap V ρ}

theorem ContractState.Grows.refl (st : ContractState V ρ) : st.Grows st :=
  ⟨fun _ => id, fun _ => id, fun _ => id, fun _ => id⟩

theorem ProtectedPromise.Grows.refl (node : ProtectedPromise V) : node.Grows node :=
  ⟨rfl, rfl, List.prefix_refl _⟩

theorem Grows.refl (h : Heap V ρ) : Grows h h :=
  ⟨fun _ => .refl _, Nat.le_refl _, fun _ _ => .refl _, fun _ _ => id, List.prefix_refl _,
    fun _ => id⟩

theorem Grows.trans (hg : Grows h h') (hg' : Grows h' h'') : Grows h h'' := by
  refine ⟨fun cs => ?_, hg.nodeCount.trans hg'.nodeCount, fun n hn => ?_, fun p e he => ?_,
    hg.roots.trans hg'.roots, fun i hi => hg'.invoked i (hg.invoked i hi)⟩
  · obtain ⟨ho, hcb, hv, hw⟩ := hg.state cs
    obtain ⟨ho', hcb', hv', hw'⟩ := hg'.state cs
    exact ⟨fun o h => ho' o (ho o h), fun cb h => hcb' cb (hcb cb h), fun v h => hv' v (hv v h),
      fun w h => hw' w (hw w h)⟩
  · obtain ⟨hop, howner, harrivals⟩ := hg.node n hn
    obtain ⟨hop', howner', harrivals'⟩ := hg'.node n (Nat.lt_of_lt_of_le hn hg.nodeCount)
    exact ⟨hop'.trans hop, howner'.trans howner, harrivals.trans harrivals'⟩
  · exact hg'.leaf p e (hg.leaf p e he)

/-- Nothing that is spoken of has changed. -/
theorem Grows.of_eq (hstates : h'.states = h.states) (hcount : h'.nodeCount = h.nodeCount)
    (hnodes : h'.nodes = h.nodes) (hleaf : h'.leaf = h.leaf) (hroots : h'.roots = h.roots)
    (hinvoked : h'.invoked = h.invoked) : Grows h h' := by
  refine ⟨fun cs => ?_, hcount.ge, fun n _ => ?_, fun p e => ?_, ?_, fun i => ?_⟩
  · rw [hstates]
    exact .refl _
  · rw [hnodes]
    exact .refl _
  · rw [hleaf]
    exact id
  · rw [hroots]
  · rw [hinvoked]
    exact id

theorem Grows.setState {cs : ℕ} {st : ContractState V ρ} (hst : (h.states cs).Grows st) :
    Grows h (h.setState cs st) := by
  refine ⟨fun cs' => ?_, Nat.le_refl _, fun _ _ => .refl _, fun _ _ => id, List.prefix_refl _,
    fun _ => id⟩
  by_cases hcs : cs' = cs
  · rw [hcs, states_setState]
    exact hst
  · rw [states_setState_of_ne hcs]
    exact .refl _

theorem Grows.setNode {n : ℕ} {node : ProtectedPromise V} (hnode : (h.nodes n).Grows node) :
    Grows h (h.setNode n node) := by
  refine ⟨fun _ => .refl _, Nat.le_refl _, fun n' _ => ?_, fun _ _ => id, List.prefix_refl _,
    fun _ => id⟩
  by_cases hn : n' = n
  · rw [hn, nodes_setNode]
    exact hnode
  · rw [nodes_setNode_of_ne hn]
    exact .refl _

/-! ### What has been said stays true -/

theorem Grows.origin (hg : Grows h h') {cs : ℕ} {o : Origin V ρ} (ho : h.origin cs = some o) :
    h'.origin cs = some o :=
  (hg.state cs).origin o ho

theorem Grows.delivers (hg : Grows h h') {cs : ℕ} {w : Val V} (hw : h.Delivers cs w) :
    h'.Delivers cs w :=
  (hg.state cs).calls w hw

theorem Evaluates.mono (hg : Grows h h') {e : Expr V ρ} {v : Val V} (he : Evaluates h e v) :
    Evaluates h' e v := by
  induction he with
  | value v => exact .value v
  | contract ho => exact .contract (hg.origin ho)
  | ready _ ho ih => exact .ready ih (hg.origin ho)
  | spawn ho => exact .spawn (hg.origin ho)
  | via _ ih => exact .via ih
  | pipe _ ho ih => exact .pipe ih (hg.origin ho)
  | concur _ _ ho ih₁ ih₂ => exact .concur ih₁ ih₂ (hg.origin ho)

theorem Justified.mono (hg : Grows h h') {cs : ℕ} {v : Val V} (hj : Justified h cs v) :
    Justified h' cs v := by
  induction hj with
  | contract ho hleaf he => exact .contract (hg.origin ho) (hg.leaf _ _ hleaf) (he.mono hg)
  | ready ho => exact .ready (hg.origin ho)
  | spawn ho hi he => exact .spawn (hg.origin ho) (hg.invoked _ hi) (he.mono hg)
  | pass ho hw _ hr ih => exact .pass (hg.origin ho) (hg.delivers hw) ih hr
  | set ho hw _ hr hi he ih =>
    exact .set (hg.origin ho) (hg.delivers hw) ih hr (hg.invoked _ hi) (he.mono hg)
  | setOk ho hw _ hr hi he ih =>
    exact .setOk (hg.origin ho) (hg.delivers hw) ih hr (hg.invoked _ hi) (he.mono hg)
  | forward ho hw _ hr hi he hcb hv _ ih ih' =>
    exact .forward (hg.origin ho) (hg.delivers hw) ih hr (hg.invoked _ hi) (he.mono hg)
      ((hg.state _).callback _ hcb) (hg.delivers hv) ih'
  | inner ho hw _ hr hcb hv _ ih ih' =>
    exact .inner (hg.origin ho) (hg.delivers hw) ih hr ((hg.state _).callback _ hcb)
      (hg.delivers hv) ih'
  | concur ho hn howner hop hl hseen hw _ hv ih =>
    obtain ⟨hop', howner', harrivals⟩ := hg.node _ hn
    exact .concur (hg.origin ho) (Nat.lt_of_lt_of_le hn hg.nodeCount) (howner'.trans howner)
      (hop'.trans hop) (hl.trans harrivals) hseen (fun a ha => hg.delivers (hw a ha)) ih hv

end Growth

/-! ## What a thread is about to do -/

/-- The user function that is to be called. -/
inductive TaskFor (h : Heap V ρ) : Invocation V ρ → Lift → Expr V ρ → Prop
  | spawn {i : Invocation V ρ} {code : Expr V ρ}
      (ho : h.origin i.promise = some (.spawn i.runtime code)) (harg : i.arg = none) :
      TaskFor h i .set code
  | pipe {i : Invocation V ρ} {op : Pipe ρ (Val V → Expr V ρ)} {c : ℕ} {w arg : Val V}
      {code : Expr V ρ} {lift : Lift} (ho : h.origin i.promise = some (.pipe op c))
      (hw : h.Delivers c w) (hr : op.reaction w = .apply arg code lift) (harg : i.arg = some arg) :
      TaskFor h i lift code

/-- The code a promise is to be set with the value of. -/
def CodeFor (h : Heap V ρ) (p : ℕ) (lift : Lift) (code : Expr V ρ) : Prop :=
  (lift = .set ∧ h.origin p = some .contract ∧ h.leaf p = some code) ∨
    ∃ i ∈ h.invoked, i.promise = p ∧ TaskFor h i lift code

/-- The promise is to be set with what the state is set with. -/
def Forwards (h : Heap V ρ) (p cs : ℕ) : Prop :=
  (∃ code, CodeFor h p .forward code ∧ Evaluates h code (.future cs)) ∨
    ∃ op c w, h.origin p = some (.pipe op c) ∧ h.Delivers c w ∧ op.reaction w = .inner cs

/-- The state is the one of that side. -/
def Consumes (h : Heap V ρ) (n : ℕ) (s : Side) (cs : ℕ) : Prop :=
  n < h.nodeCount ∧ ∃ c₁ c₂, h.origin (h.nodes n).owner = some (.concur (h.nodes n).op c₁ c₂) ∧
    cs = s.pick c₁ c₂

/-- The callback of a side has been called with the value. -/
def Arrives (h : Heap V ρ) (n : ℕ) (s : Side) (w : Val V) : Prop :=
  ∃ cs, Consumes h n s cs ∧ h.Delivers cs w

/-- What a state may be consumed with. -/
def Callback.Ok (h : Heap V ρ) (cs : ℕ) : Callback V ρ → Prop
  | .root r => ∃ e, h.roots[r]? = some e ∧ Evaluates h e (.future cs)
  | .pipe op _ p => h.origin p = some (.pipe op cs)
  | .forward p => Forwards h p cs
  | .concur n s => Consumes h n s cs

/-- What becomes of the value of the expression is what should become of it. -/
def Cont.Fits (h : Heap V ρ) : Cont V ρ → Expr V ρ → Prop
  | .set p, e => CodeFor h p .set e
  | .setOk p, e => CodeFor h p .setOk e
  | .consume (.forward p), e => CodeFor h p .forward e
  | .consume (.root r), e => h.roots[r]? = some e
  | .consume _, _ => False
  | .ready k, e => k.Fits h (.ready e)
  | .pipe op k, e => k.Fits h (.pipe op e)
  | .concurFst op e₂ k, e => k.Fits h (.concur op e e₂)
  | .concurSnd op v₁ k, e => ∃ e₁, Evaluates h e₁ v₁ ∧ k.Fits h (.concur op e₁ e)

/-- The value the slot of a side is for. -/
def Concur.payload : Concur → Val V → Val V
  | .bothOk, w => w.value
  | _, w => w

/-- The callback of a side goes on with a value it has been called with. -/
def Carries (h : Heap V ρ) (n : ℕ) (s : Side) (v : Val V) : Prop :=
  ∃ w, Arrives h n s w ∧ v = (h.nodes n).op.payload w ∧
    ((h.nodes n).op = .bothOk → w.hasValue = true)

/-- The thread is about to do what it should do. -/
def Instr.Ok (h : Heap V ρ) : Instr V ρ → Prop
  | .eval e k => k.Fits h e
  | .ret v k => ∃ e, Evaluates h e v ∧ k.Fits h e
  | .task i code k => ∃ lift, k = lift.cont i.promise ∧ TaskFor h i lift code
  | .leaf p => h.origin p = some .contract
  | .produce cs v => Justified h cs v
  | .consume cs cb => cb.Ok h cs
  | .call n s v => Arrives h n s v
  | .store n s v => Carries h n s v
  | .arrive n s v => Carries h n s v
  | _ => True

section Mono

variable {h h' : Heap V ρ}

theorem TaskFor.mono (hg : Grows h h') {i : Invocation V ρ} {lift : Lift} {code : Expr V ρ}
    (ht : TaskFor h i lift code) : TaskFor h' i lift code := by
  cases ht with
  | spawn ho harg => exact .spawn (hg.origin ho) harg
  | pipe ho hw hr harg => exact .pipe (hg.origin ho) (hg.delivers hw) hr harg

theorem CodeFor.mono (hg : Grows h h') {p : ℕ} {lift : Lift} {code : Expr V ρ}
    (hc : CodeFor h p lift code) : CodeFor h' p lift code := by
  obtain ⟨hlift, ho, hleaf⟩ | ⟨i, hi, hp, ht⟩ := hc
  · exact .inl ⟨hlift, hg.origin ho, hg.leaf p code hleaf⟩
  · exact .inr ⟨i, hg.invoked i hi, hp, ht.mono hg⟩

theorem Forwards.mono (hg : Grows h h') {p cs : ℕ} (hf : Forwards h p cs) : Forwards h' p cs := by
  obtain ⟨code, hc, he⟩ | ⟨op, c, w, ho, hw, hr⟩ := hf
  · exact .inl ⟨code, hc.mono hg, he.mono hg⟩
  · exact .inr ⟨op, c, w, hg.origin ho, hg.delivers hw, hr⟩

theorem Consumes.mono (hg : Grows h h') {n cs : ℕ} {s : Side} (hc : Consumes h n s cs) :
    Consumes h' n s cs := by
  obtain ⟨hn, c₁, c₂, ho, hcs⟩ := hc
  obtain ⟨hop, howner, -⟩ := hg.node n hn
  refine ⟨Nat.lt_of_lt_of_le hn hg.nodeCount, c₁, c₂, ?_, hcs⟩
  rw [hop, howner]
  exact hg.origin ho

theorem Arrives.mono (hg : Grows h h') {n : ℕ} {s : Side} {w : Val V} (ha : Arrives h n s w) :
    Arrives h' n s w := by
  obtain ⟨cs, hc, hw⟩ := ha
  exact ⟨cs, hc.mono hg, hg.delivers hw⟩

theorem getElem?_of_prefix {α : Type*} {l l' : List α} (hl : l <+: l') {i : ℕ} {a : α}
    (ha : l[i]? = some a) : l'[i]? = some a := by
  obtain ⟨l'', rfl⟩ := hl
  rw [List.getElem?_append_left (List.getElem?_eq_some_iff.mp ha).1]
  exact ha

theorem Callback.Ok.mono (hg : Grows h h') {cs : ℕ} {cb : Callback V ρ} (hcb : cb.Ok h cs) :
    cb.Ok h' cs := by
  cases cb with
  | root r =>
    obtain ⟨e, hr, he⟩ := hcb
    exact ⟨e, getElem?_of_prefix hg.roots hr, he.mono hg⟩
  | pipe op rt p => exact hg.origin hcb
  | forward p => exact Forwards.mono hg hcb
  | concur n s => exact Consumes.mono hg hcb

theorem Cont.Fits.mono (hg : Grows h h') {k : Cont V ρ} {e : Expr V ρ} (hk : k.Fits h e) :
    k.Fits h' e := by
  induction k generalizing e with
  | set p => exact CodeFor.mono hg hk
  | setOk p => exact CodeFor.mono hg hk
  | consume cb =>
    cases cb with
    | root r => exact getElem?_of_prefix hg.roots hk
    | forward p => exact CodeFor.mono hg hk
    | pipe => exact hk
    | concur => exact hk
  | ready k ih => exact ih hk
  | pipe op k ih => exact ih hk
  | concurFst op e₂ k ih => exact ih hk
  | concurSnd op v₁ k ih =>
    obtain ⟨e₁, he₁, hk⟩ := hk
    exact ⟨e₁, he₁.mono hg, ih hk⟩

theorem Carries.mono (hg : Grows h h') {n : ℕ} {s : Side} {v : Val V} (hc : Carries h n s v) :
    Carries h' n s v := by
  obtain ⟨w, ha, hv, hok⟩ := hc
  obtain ⟨cs, ⟨hn, -⟩, -⟩ := id ha
  obtain ⟨hop, -, -⟩ := hg.node n hn
  refine ⟨w, ha.mono hg, ?_, ?_⟩ <;> rw [hop] <;> assumption

theorem Instr.Ok.mono (hg : Grows h h') {i : Instr V ρ} (hi : i.Ok h) : i.Ok h' := by
  cases i with
  | eval e k => exact Cont.Fits.mono hg hi
  | ret v k =>
    obtain ⟨e, he, hk⟩ := hi
    exact ⟨e, he.mono hg, hk.mono hg⟩
  | task i code k =>
    obtain ⟨lift, hk, ht⟩ := hi
    exact ⟨lift, hk, ht.mono hg⟩
  | leaf p => exact hg.origin hi
  | produce cs v => exact Justified.mono hg hi
  | consume cs cb => exact Callback.Ok.mono hg hi
  | call n s v => exact Arrives.mono hg hi
  | store n s v => exact Carries.mono hg hi
  | arrive n s v => exact Carries.mono hg hi
  | _ => trivial

end Mono

/-! ## Everything is as it should be -/

structure Right (h : Heap V ρ) : Prop where
  result : ∀ cs v, (h.states cs).result_ = some v → Justified h cs v
  called : ∀ cs w, h.Delivers cs w → (h.states cs).result_ = some w
  callback : ∀ cs cb, (h.states cs).callback_ = some cb → cb.Ok h cs
  arrivals : ∀ n s v, (s, v) ∈ (h.nodes n).arrivals →
    ∃ w, Arrives h n s w ∧ v = (h.nodes n).op.seen w
  ran : ∀ r v, (r, v) ∈ h.ran →
    ∃ cs, (h.states cs).callback_ = some (.root r) ∧ h.Delivers cs v
  invoked : ∀ i ∈ h.invoked, ∃ lift code, TaskFor h i lift code
  fresh : ∀ cs, h.size ≤ cs → h.states cs = .none_ ∧ h.leaf cs = none

section RightMoves

variable {h h' : Heap V ρ}

/-- What is delivered is justified. -/
theorem Right.delivered (hr : Right h) {cs : ℕ} {w : Val V} (hw : h.Delivers cs w) :
    Justified h cs w :=
  hr.result cs w (hr.called cs w hw)

/-- A step adds to a heap what should be added. -/
theorem Right.next (hr : Right h) (hg : Grows h h')
    (hresult : ∀ cs v, (h'.states cs).result_ = some v →
      (h.states cs).result_ = some v ∨ Justified h' cs v)
    (hcalled : ∀ cs w, h'.Delivers cs w → h.Delivers cs w ∨ (h'.states cs).result_ = some w)
    (hcallback : ∀ cs cb, (h'.states cs).callback_ = some cb →
      (h.states cs).callback_ = some cb ∨ cb.Ok h' cs)
    (harrivals : ∀ n s v, (s, v) ∈ (h'.nodes n).arrivals →
      (s, v) ∈ (h.nodes n).arrivals ∨ ∃ w, Arrives h' n s w ∧ v = (h'.nodes n).op.seen w)
    (hran : ∀ r v, (r, v) ∈ h'.ran → (r, v) ∈ h.ran ∨
      ∃ cs, (h'.states cs).callback_ = some (.root r) ∧ h'.Delivers cs v)
    (hinvoked : ∀ i ∈ h'.invoked, i ∈ h.invoked ∨ ∃ lift code, TaskFor h' i lift code)
    (hfresh : ∀ cs, h'.size ≤ cs → h'.states cs = .none_ ∧ h'.leaf cs = none) : Right h' := by
  refine ⟨fun cs v hv => ?_, fun cs w hw => ?_, fun cs cb hcb => ?_, fun n s v ha => ?_,
    fun r v hm => ?_, fun i hi => ?_, hfresh⟩
  · obtain hv | hj := hresult cs v hv
    · exact (hr.result cs v hv).mono hg
    · exact hj
  · obtain hw | hv := hcalled cs w hw
    · exact (hg.state cs).result w (hr.called cs w hw)
    · exact hv
  · obtain hcb | hok := hcallback cs cb hcb
    · exact (hr.callback cs cb hcb).mono hg
    · exact hok
  · obtain ha | hok := harrivals n s v ha
    · obtain ⟨w, hw, hv⟩ := hr.arrivals n s v ha
      obtain ⟨cs, ⟨hn, -⟩, -⟩ := id hw
      refine ⟨w, hw.mono hg, ?_⟩
      rw [(hg.node n hn).op]
      exact hv
    · exact hok
  · obtain hm | hok := hran r v hm
    · obtain ⟨cs, hcb, hw⟩ := hr.ran r v hm
      exact ⟨cs, (hg.state cs).callback _ hcb, hg.delivers hw⟩
    · exact hok
  · obtain hi | hok := hinvoked i hi
    · obtain ⟨lift, code, ht⟩ := hr.invoked i hi
      exact ⟨lift, code, ht.mono hg⟩
    · exact hok

theorem Right.same (hr : Right h) (hg : Grows h h') (hsize : h'.size = h.size)
    (hstates : h'.states = h.states) (hnodes : h'.nodes = h.nodes) (hleaf : h'.leaf = h.leaf)
    (hran : h'.ran = h.ran) (hinvoked : h'.invoked = h.invoked) : Right h' := by
  refine hr.next hg (fun cs v hv => .inl ?_) (fun cs w hw => .inl ?_) (fun cs cb hcb => .inl ?_)
    (fun n s v ha => .inl ?_) (fun r v hm => .inl ?_) (fun i hi => .inl ?_) fun cs hcs => ?_
  · rwa [hstates] at hv
  · rwa [Heap.Delivers, hstates] at hw
  · rwa [hstates] at hcb
  · rwa [hnodes] at ha
  · rwa [hran] at hm
  · rwa [hinvoked] at hi
  · rw [hsize] at hcs
    rw [hstates, hleaf]
    exact hr.fresh cs hcs

theorem Right.setState {cs : ℕ} {st : ContractState V ρ} (hr : Right h) (hcs : cs < h.size)
    (hst : (h.states cs).Grows st)
    (hresult : ∀ v, st.result_ = some v → (h.states cs).result_ = some v ∨ Justified h cs v)
    (hcalls : ∀ w, st.calls = [w] → (h.states cs).calls = [w] ∨ st.result_ = some w)
    (hcallback : ∀ cb, st.callback_ = some cb →
      (h.states cs).callback_ = some cb ∨ cb.Ok h cs) : Right (h.setState cs st) := by
  have hg : Grows h (h.setState cs st) := .setState hst
  have hcases : ∀ cs', (cs' = cs ∧ (h.setState cs st).states cs' = st) ∨
      cs' ≠ cs ∧ (h.setState cs st).states cs' = h.states cs' := by
    intro cs'
    by_cases he : cs' = cs
    · exact .inl ⟨he, by rw [he, states_setState]⟩
    · exact .inr ⟨he, states_setState_of_ne he _ _⟩
  refine hr.next hg (fun cs' v hv => ?_) (fun cs' w hw => ?_) (fun cs' cb hcb => ?_)
    (fun _ _ _ => .inl) (fun _ _ => .inl) (fun _ => .inl) fun cs' hcs' => ?_
  · obtain ⟨rfl, he⟩ | ⟨-, he⟩ := hcases cs' <;> rw [he] at hv
    · exact (hresult v hv).imp id fun hj => hj.mono hg
    · exact .inl hv
  · rw [Heap.Delivers] at hw
    obtain ⟨rfl, he⟩ | ⟨-, he⟩ := hcases cs' <;> rw [he] at hw ⊢
    · exact hcalls w hw
    · exact .inl hw
  · obtain ⟨rfl, he⟩ | ⟨-, he⟩ := hcases cs' <;> rw [he] at hcb
    · exact (hcallback cb hcb).imp id fun hok => hok.mono hg
    · exact .inl hcb
  · have hne : cs' ≠ cs := by
      have hle : h.size ≤ cs' := hcs'
      omega
    rw [states_setState_of_ne hne]
    exact hr.fresh cs' hcs'

theorem Right.setNode {n : ℕ} {node : ProtectedPromise V} (hr : Right h)
    (hnode : (h.nodes n).Grows node) (harrivals : ∀ s v, (s, v) ∈ node.arrivals →
      (s, v) ∈ (h.nodes n).arrivals ∨ ∃ w, Arrives h n s w ∧ v = node.op.seen w) :
    Right (h.setNode n node) := by
  have hg : Grows h (h.setNode n node) := .setNode hnode
  refine hr.next hg (fun _ _ => .inl) (fun _ _ => .inl) (fun _ _ => .inl) (fun n' s v ha => ?_)
    (fun _ _ => .inl) (fun _ => .inl) hr.fresh
  by_cases hn : n' = n
  · subst hn
    rw [nodes_setNode] at ha ⊢
    obtain hold | ⟨w, hw, hv⟩ := harrivals s v ha
    · exact .inl hold
    · exact .inr ⟨w, hw.mono hg, hv⟩
  · rw [nodes_setNode_of_ne hn] at ha
    exact .inl ha

theorem grows_contract (hr : Right h) (rt : Runtime ρ) (o : Origin V ρ) :
    Grows h (h.contract rt o) := by
  have hnew : (h.states h.size).Grows ⟨0, none, none, rt, false, [], 0, some o⟩ := by
    rw [(hr.fresh h.size (Nat.le_refl _)).1]
    refine ⟨fun o' ho => ?_, fun cb hcb => ?_, fun v hv => ?_, fun w hw => ?_⟩
    · cases ho
    · cases hcb
    · cases hv
    · cases hw
  exact (Grows.setState hnew).trans (.of_eq rfl rfl rfl rfl rfl rfl)

theorem Right.contract (hr : Right h) (rt : Runtime ρ) (o : Origin V ρ) :
    Right (h.contract rt o) := by
  have hcases : ∀ cs, (cs = h.size ∧ (h.contract rt o).states cs =
      ⟨0, none, none, rt, false, [], 0, some o⟩) ∨
      cs ≠ h.size ∧ (h.contract rt o).states cs = h.states cs := by
    intro cs
    by_cases he : cs = h.size
    · exact .inl ⟨he, by rw [he]; exact states_setState _ _ _⟩
    · exact .inr ⟨he, states_setState_of_ne he _ _⟩
  refine hr.next (grows_contract hr rt o) (fun cs v hv => ?_) (fun cs w hw => ?_)
    (fun cs cb hcb => ?_) (fun _ _ _ => .inl) (fun _ _ => .inl) (fun _ => .inl) fun cs hcs => ?_
  · obtain ⟨-, he⟩ | ⟨-, he⟩ := hcases cs <;> rw [he] at hv
    · cases hv
    · exact .inl hv
  · rw [Heap.Delivers] at hw
    obtain ⟨-, he⟩ | ⟨-, he⟩ := hcases cs <;> rw [he] at hw
    · cases hw
    · exact .inl hw
  · obtain ⟨-, he⟩ | ⟨-, he⟩ := hcases cs <;> rw [he] at hcb
    · cases hcb
    · exact .inl hcb
  · have hle : h.size + 1 ≤ cs := hcs
    obtain ⟨he, -⟩ | ⟨-, he⟩ := hcases cs
    · omega
    · rw [he]
      exact hr.fresh cs (by omega)

theorem origin_contract (h : Heap V ρ) (rt : Runtime ρ) (o : Origin V ρ) :
    (h.contract rt o).origin h.size = some o := by
  rw [Heap.origin, Heap.contract]
  dsimp only
  rw [states_setState]

theorem Right.release (hr : Right h) (cs : ℕ) : Right (h.release cs) :=
  hr.same (.of_eq rfl rfl rfl rfl rfl rfl) rfl rfl rfl rfl rfl rfl

/-- A timer is set. -/
theorem Right.arm (hr : Right h) (armed : List (Arming ρ)) : Right { h with armed } :=
  hr.same (.of_eq rfl rfl rfl rfl rfl rfl) rfl rfl rfl rfl rfl rfl

theorem grows_arm (h : Heap V ρ) (armed : List (Arming ρ)) : Grows h { h with armed } :=
  .of_eq rfl rfl rfl rfl rfl rfl

theorem Right.touch (hr : Right h) (cs : ℕ) : Right (h.touch cs) :=
  hr.same (.of_eq rfl rfl rfl rfl rfl rfl) rfl rfl rfl rfl rfl rfl

theorem Right.crash (hr : Right h) : Right h.crash :=
  hr.same (.of_eq rfl rfl rfl rfl rfl rfl) rfl rfl rfl rfl rfl rfl

theorem grows_touch (h : Heap V ρ) (cs : ℕ) : Grows h (h.touch cs) := .of_eq rfl rfl rfl rfl rfl rfl

theorem grows_release (h : Heap V ρ) (cs : ℕ) : Grows h (h.release cs) :=
  .of_eq rfl rfl rfl rfl rfl rfl

theorem grows_share (h : Heap V ρ) (op : Concur) (cs : ℕ) : Grows h (h.share op cs) := by
  refine ⟨fun _ => .refl _, Nat.le_succ _, fun n hn => ?_, fun _ _ => id, List.prefix_refl _,
    fun _ => id⟩
  have hsame : (h.share op cs).nodes n = h.nodes n := nodes_setNode_of_ne (Nat.ne_of_lt hn) _ _
  rw [hsame]
  exact .refl _

theorem Right.share (hr : Right h) (op : Concur) (cs : ℕ) : Right (h.share op cs) := by
  refine hr.next (grows_share h op cs) (fun _ _ => .inl) (fun _ _ => .inl) (fun _ _ => .inl)
    (fun n s v ha => .inl ?_) (fun _ _ => .inl) (fun _ => .inl) hr.fresh
  by_cases hn : n = h.nodeCount
  · subst hn
    have hnew : (h.share op cs).nodes h.nodeCount = ⟨op, some cs, fun _ => none, 0, cs, []⟩ :=
      nodes_setNode _ _ _
    rw [hnew] at ha
    cases ha
  · have hsame : (h.share op cs).nodes n = h.nodes n := nodes_setNode_of_ne hn _ _
    rwa [hsame] at ha

/-- The program begins one more expression. -/
theorem grows_start (h : Heap V ρ) (e : Expr V ρ) : Grows h { h with roots := h.roots ++ [e] } :=
  ⟨fun _ => .refl _, Nat.le_refl _, fun _ _ => .refl _, fun _ _ => id, List.prefix_append _ _,
    fun _ => id⟩

/-- The code of a leaf is settled. -/
theorem grows_leaf {p : ℕ} (hnone : h.leaf p = none) (code : Expr V ρ) :
    Grows h { h with leaf := update h.leaf p (some code) } := by
  refine ⟨fun _ => .refl _, Nat.le_refl _, fun _ _ => .refl _, fun p' e he => ?_,
    List.prefix_refl _, fun _ => id⟩
  by_cases hp : p' = p
  · rw [hp, hnone] at he
    cases he
  · dsimp only
    rw [Function.update_of_ne hp]
    exact he

theorem Right.leaf {p : ℕ} (hr : Right h) (hp : p < h.size) (hnone : h.leaf p = none)
    (code : Expr V ρ) : Right { h with leaf := update h.leaf p (some code) } := by
  refine hr.next (grows_leaf hnone code) (fun _ _ => .inl) (fun _ _ => .inl) (fun _ _ => .inl)
    (fun _ _ _ => .inl) (fun _ _ => .inl) (fun _ => .inl) fun cs hcs => ?_
  have hle : h.size ≤ cs := hcs
  dsimp only
  rw [Function.update_of_ne (by omega)]
  exact hr.fresh cs hle

theorem grows_invoked (h : Heap V ρ) (i : Invocation V ρ) :
    Grows h { h with invoked := h.invoked ++ [i] } :=
  ⟨fun _ => .refl _, Nat.le_refl _, fun _ _ => .refl _, fun _ _ => id, List.prefix_refl _,
    fun _ hi => List.mem_append_left _ hi⟩

theorem Right.invoke {i : Invocation V ρ} {lift : Lift} {code : Expr V ρ} (hr : Right h)
    (ht : TaskFor h i lift code) : Right { h with invoked := h.invoked ++ [i] } := by
  refine hr.next (grows_invoked h i) (fun _ _ => .inl) (fun _ _ => .inl) (fun _ _ => .inl)
    (fun _ _ _ => .inl) (fun _ _ => .inl) (fun j hj => ?_) hr.fresh
  obtain hj | hj := List.mem_append.mp hj
  · exact .inl hj
  · rw [List.mem_singleton.mp hj]
    exact .inr ⟨lift, code, ht.mono (grows_invoked h i)⟩

theorem Right.run {r cs : ℕ} {v : Val V} (hr : Right h)
    (hcb : (h.states cs).callback_ = some (.root r)) (hv : h.Delivers cs v) :
    Right { h with ran := h.ran ++ [(r, v)] } := by
  refine hr.next (.of_eq rfl rfl rfl rfl rfl rfl) (fun _ _ => .inl) (fun _ _ => .inl)
    (fun _ _ => .inl) (fun _ _ _ => .inl) (fun r' v' hm => ?_) (fun _ => .inl) hr.fresh
  obtain hm | hm := List.mem_append.mp hm
  · exact .inl hm
  · obtain ⟨rfl, rfl⟩ := Prod.mk.inj (List.mem_singleton.mp hm)
    exact .inr ⟨cs, hcb, hv⟩

end RightMoves

end Exe.Future
