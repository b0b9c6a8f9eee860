/-
Pipelines of `MapOk`, `AndThen` and `OrElse`, and the same pipelines of `Result`-s.

A `Stage` has the user function of a synchronous combinator, and for `AndThen` and `OrElse` the
one of the asynchronous combinator, which returns a future. `syncPipeline` runs the synchronous
combinators, and keeps the arguments their functions have been called with. The states of an
asynchronous pipeline are a `Chain`, piped one from the other; the theorem goes along it.
-/
import Exe.FutureCalls

set_option autoImplicit false

namespace Exe.Future

universe u v

variable {V : Type u} {ρ : Type v}

/-! ## Results -/

/-- `std::expected`. -/
inductive Result (V : Type u)
  | ok (v : Val V)
  | err (e : Val V)
  deriving DecidableEq

/-- As the value of a future. -/
def Result.toVal : Result V → Val V
  | .ok v => .ok v
  | .err e => .err e

/-- `transform`, `and_then` and `or_else` of `std::expected`: the result, and what the function
has been called with. -/
def Result.transform (r : Result V) (f : Val V → Val V) : Result V × List (Val V) :=
  match r with
  | .ok v => (.ok (f v), [v])
  | .err e => (.err e, [])

def Result.andThen (r : Result V) (f : Val V → Result V) : Result V × List (Val V) :=
  match r with
  | .ok v => (f v, [v])
  | .err e => (.err e, [])

def Result.orElse (r : Result V) (f : Val V → Result V) : Result V × List (Val V) :=
  match r with
  | .ok v => (.ok v, [])
  | .err e => (f e, [e])

/-! ## Stages -/

/-- A combinator with its user function, and with the one that returns a future. -/
inductive Stage (V : Type u) (ρ : Type v) : Type (max u v)
  | mapOk (user : Val V → Val V)
  | andThen (user : Val V → Result V) (lifted : Val V → Expr V ρ)
  | orElse (user : Val V → Result V) (lifted : Val V → Expr V ρ)

/-- `result::pipe::Map`, `AndThen` and `OrElse`. -/
def Stage.pipe : Stage V ρ → Result V → Result V × List (Val V)
  | .mapOk user, r => r.transform user
  | .andThen user _, r => r.andThen user
  | .orElse user _, r => r.orElse user

/-- `future::pipe::MapOk`, `AndThen` and `OrElse`. -/
def Stage.op : Stage V ρ → Pipe ρ (Val V → Expr V ρ)
  -- the function of `MapOk` returns a value, and its task sets it as a success
  | .mapOk user => .mapOk fun v => .value (user v)
  | .andThen _ lifted => .andThen lifted
  | .orElse _ lifted => .orElse lifted

/-- `r | stage | stage ...`: the result, and the calls of the user functions, each with the
number of its stage, from `k` on. -/
def syncPipeline : List (Stage V ρ) → Result V → ℕ → Result V × List (ℕ × Val V)
  | [], r, _ => (r, [])
  | st :: stages, r, k =>
    let here := st.pipe r
    let rest := syncPipeline stages here.1 (k + 1)
    (rest.1, here.2.map (Prod.mk k) ++ rest.2)

/-- `f | op | op ...`. -/
def pipes : List (Pipe ρ (Val V → Expr V ρ)) → Expr V ρ → Expr V ρ
  | [], e => e
  | op :: ops, e => pipes ops (.pipe op e)

def pipeline (stages : List (Stage V ρ)) (e : Expr V ρ) : Expr V ρ := pipes (stages.map Stage.op) e

/-- The states of the stages, from the one of the source to the one of the pipeline. -/
inductive Chain (h : Heap V ρ) : List (Stage V ρ) → ℕ → List ℕ → ℕ → Prop
  | nil (c : ℕ) : Chain h [] c [] c
  | cons {st : Stage V ρ} {stages : List (Stage V ρ)} {c p cs : ℕ} {ps : List ℕ}
      (ho : h.origin p = some (.pipe st.op c)) (hc : Chain h stages p ps cs) :
      Chain h (st :: stages) c (p :: ps) cs

/-- What the function of the stage returns when it is called delivers the result of the other
function. The state of the future that it returns is the one forwarded to its promise. -/
def Stage.Lifted (h : Heap V ρ) (p : ℕ) (user : Val V → Result V) (lifted : Val V → Expr V ρ) :
    Prop :=
  -- only a call that has been made is asked about
  ∀ i ∈ h.invoked, i.promise = p → ∀ arg, i.arg = some arg → ∀ c w,
    Evaluates h (lifted arg) (.future c) → (h.states c).callback_ = some (.forward p) →
      h.Delivers c w → w = (user arg).toVal

def Stage.Lifts (h : Heap V ρ) : Stage V ρ → ℕ → Prop
  | .mapOk _, _ => True
  | .andThen user lifted, p => Stage.Lifted h p user lifted
  | .orElse user lifted, p => Stage.Lifted h p user lifted

/-- The user functions of these promises that have been called, in this order, by the places of
the promises in the list. -/
def Heap.callsFor (h : Heap V ρ) (ps : List ℕ) : List (ℕ × Option (Val V)) :=
  (h.invoked.filter fun i => i.promise ∈ ps).map fun i => (ps.idxOf i.promise, i.arg)

/-! ## What a state is justified by, the other way round -/

section Inversion

variable {h : Heap V ρ} {c p : ℕ} {op : Pipe ρ (Val V → Expr V ρ)} {w v : Val V}

/-- What a promise is set with when the code has been run for it. -/
def Lift.Returns (h : Heap V ρ) (p : ℕ) (code : Expr V ρ) : Lift → Val V → Prop
  | .set, v => Evaluates h code v
  | .setOk, v => ∃ v', v = .ok v' ∧ Evaluates h code v'
  | .forward, v => ∃ c', Evaluates h code (.future c') ∧
      (h.states c').callback_ = some (.forward p) ∧ h.Delivers c' v

theorem Heap.Delivers.unique {w' : Val V} (hw : h.Delivers c w) (hw' : h.Delivers c w') :
    w = w' := by
  rw [Heap.Delivers] at hw hw'
  rw [hw] at hw'
  exact List.singleton_inj.mp hw'

/-- What a piped state is set with comes from what its input has delivered. -/
theorem Justified.of_pipe (hj : Justified h p v) (ho : h.origin p = some (.pipe op c))
    (hw : h.Delivers c w) : op.reaction w = .pass ∧ v = w ∨
      (∃ arg code lift rt, op.reaction w = .apply arg code lift ∧
        ⟨p, rt, some arg⟩ ∈ h.invoked ∧ lift.Returns h p code v) ∨
      ∃ c', op.reaction w = .inner c' := by
  have hsame : ∀ {op' : Pipe ρ (Val V → Expr V ρ)} {c' : ℕ} {w' : Val V},
      h.origin p = some (.pipe op' c') → h.Delivers c' w' → op' = op ∧ w' = w := by
    intro op' c' w' ho' hw'
    rw [ho] at ho'
    obtain ⟨rfl, rfl⟩ : op = op' ∧ c = c' := by simpa using ho'
    exact ⟨rfl, hw'.unique hw⟩
  cases hj with
  | pass ho' hw' _ hr =>
    obtain ⟨rfl, rfl⟩ := hsame ho' hw'
    exact .inl ⟨hr, rfl⟩
  | set ho' hw' _ hr hi he =>
    obtain ⟨rfl, rfl⟩ := hsame ho' hw'
    exact .inr (.inl ⟨_, _, .set, _, hr, hi, he⟩)
  | setOk ho' hw' _ hr hi he =>
    obtain ⟨rfl, rfl⟩ := hsame ho' hw'
    exact .inr (.inl ⟨_, _, .setOk, _, hr, hi, _, rfl, he⟩)
  | forward ho' hw' _ hr hi he hcb hv _ =>
    obtain ⟨rfl, rfl⟩ := hsame ho' hw'
    exact .inr (.inl ⟨_, _, .forward, _, hr, hi, _, he, hcb, hv⟩)
  | inner ho' hw' _ hr _ _ _ =>
    obtain ⟨rfl, rfl⟩ := hsame ho' hw'
    exact .inr (.inr ⟨_, hr⟩)
  -- a state has one origin
  | contract ho' | ready ho' | spawn ho' | concur ho' =>
    rw [ho] at ho'
    cases ho'

/-- A stage that passes the value on has no task. -/
theorem TaskFor.promise_ne {i : Invocation V ρ} {lift : Lift} {code : Expr V ρ}
    (ht : TaskFor h i lift code) (ho : h.origin p = some (.pipe op c)) (hw : h.Delivers c w)
    (hpass : op.reaction w = .pass) : i.promise ≠ p := by
  rintro rfl
  cases ht with
  | spawn ho' =>
    rw [ho] at ho'
    cases ho'
  | pipe ho' hw' hreaction =>
    rw [ho] at ho'
    obtain ⟨rfl, rfl⟩ : op = _ ∧ c = _ := by simpa using ho'
    rw [hw'.unique hw, hpass] at hreaction
    cases hreaction

/-- A function that is called is called once. -/
theorem filter_promise {l : List (Invocation V ρ)} (hl : (l.map Invocation.promise).Nodup)
    {i : Invocation V ρ} (hi : i ∈ l) : l.filter (fun j => j.promise = i.promise) = [i] := by
  induction l with
  | nil => cases hi
  | cons a l ih =>
    rw [List.map_cons, List.nodup_cons] at hl
    obtain ⟨hnew, hl⟩ := hl
    obtain rfl | hi := List.mem_cons.mp hi
    -- the promise does not come again in the rest
    · have hnone : l.filter (fun j => j.promise = i.promise) = [] := by
        refine List.filter_eq_nil_iff.mpr fun j hj he => hnew ?_
        rw [← of_decide_eq_true he]
        exact List.mem_map_of_mem hj
      rw [List.filter_cons_of_pos (by simp), hnone]
    · have hne : a.promise ≠ i.promise := fun he => hnew (he ▸ List.mem_map_of_mem hi)
      rw [List.filter_cons_of_neg (by simpa using hne), ih hl hi]

end Inversion

/-! ## One stage -/

section OneStage

variable {h : Heap V ρ} {c p : ℕ} {v : Val V} {st : Stage V ρ} {r : Result V}

/-- The user function is not called. -/
theorem Stage.agrees_pass (hr : Right h) (ho : h.origin p = some (.pipe st.op c))
    (hw : h.Delivers c r.toVal) (hv : h.Delivers p v) (hpass : st.op.reaction r.toVal = .pass)
    (hsync : st.pipe r = (r, [])) : v = (st.pipe r).1.toVal ∧
      (h.invoked.filter fun i => i.promise = p).map Invocation.arg = (st.pipe r).2.map some := by
  rw [hsync]
  refine ⟨?_, ?_⟩
  · obtain ⟨-, hv⟩ | ⟨arg, code, lift, rt, hreaction, -⟩ | ⟨c', hreaction⟩ :=
      (hr.delivered hv).of_pipe ho hw
    · exact hv
    · rw [hpass] at hreaction
      cases hreaction
    · rw [hpass] at hreaction
      cases hreaction
  · have hno : ∀ i ∈ h.invoked, i.promise ≠ p := by
      intro i hi
      obtain ⟨lift, code, ht⟩ := hr.invoked i hi
      exact ht.promise_ne ho hw hpass
    rw [List.filter_eq_nil_iff.mpr fun i hi => by simpa using hno i hi]
    rfl

/-- The user function is called. -/
theorem Stage.agrees_apply {arg : Val V} {code : Expr V ρ} {lift : Lift} {out : Result V}
    (hr : Right h) (honce : (h.invoked.map Invocation.promise).Nodup)
    (ho : h.origin p = some (.pipe st.op c)) (hw : h.Delivers c r.toVal) (hv : h.Delivers p v)
    (happly : st.op.reaction r.toVal = .apply arg code lift) (hsync : st.pipe r = (out, [arg]))
    (hout : ∀ rt, ⟨p, rt, some arg⟩ ∈ h.invoked → lift.Returns h p code v → v = out.toVal) :
    v = (st.pipe r).1.toVal ∧
      (h.invoked.filter fun i => i.promise = p).map Invocation.arg = (st.pipe r).2.map some := by
  rw [hsync]
  obtain ⟨hreaction, -⟩ | ⟨arg', code', lift', rt, hreaction, hi, hret⟩ | ⟨c', hreaction⟩ :=
    (hr.delivered hv).of_pipe ho hw
  · rw [happly] at hreaction
    cases hreaction
  · rw [happly] at hreaction
    cases hreaction
    refine ⟨hout rt hi hret, ?_⟩
    have hone := filter_promise honce hi
    rw [hone]
    rfl
  · rw [happly] at hreaction
    cases hreaction

/-- **The step lemma**: a stage does with a result what the synchronous one does. -/
theorem Stage.agrees (hr : Right h) (honce : (h.invoked.map Invocation.promise).Nodup)
    (ho : h.origin p = some (.pipe st.op c)) (hw : h.Delivers c r.toVal) (hv : h.Delivers p v)
    (hl : st.Lifts h p) : v = (st.pipe r).1.toVal ∧
      (h.invoked.filter fun i => i.promise = p).map Invocation.arg = (st.pipe r).2.map some := by
  have hlifted : ∀ {user : Val V → Result V} {lifted : Val V → Expr V ρ} {arg : Val V},
      Stage.Lifted h p user lifted → ∀ rt, ⟨p, rt, some arg⟩ ∈ h.invoked →
        Lift.forward.Returns h p (lifted arg) v → v = (user arg).toVal := by
    intro user lifted arg hl rt hi hret
    obtain ⟨c', he, hcb, hv⟩ := hret
    exact hl _ hi rfl _ rfl c' v he hcb hv
  cases st with
  | mapOk user =>
    cases r with
    -- `MapOk` sets what its function has returned, as a success
    | ok a =>
      refine Stage.agrees_apply hr honce ho hw hv rfl rfl fun rt hi hret => ?_
      obtain ⟨v', rfl, he⟩ := hret
      cases he
      rfl
    | err e => exact Stage.agrees_pass hr ho hw hv rfl rfl
  | andThen user lifted =>
    cases r with
    | ok a => exact Stage.agrees_apply hr honce ho hw hv rfl rfl (hlifted hl)
    | err e => exact Stage.agrees_pass hr ho hw hv rfl rfl
  | orElse user lifted =>
    cases r with
    | ok a => exact Stage.agrees_pass hr ho hw hv rfl rfl
    | err e => exact Stage.agrees_apply hr honce ho hw hv rfl rfl (hlifted hl)

end OneStage

/-! ## The chain -/

section TheChain

variable {h : Heap V ρ} {c cs : ℕ} {ps : List ℕ} {stages : List (Stage V ρ)}

/-- What is evaluated as a pipeline is one. -/
theorem exists_chain {src : Expr V ρ} (he : Evaluates h (pipeline stages src) (.future cs)) :
    ∃ c ps, Evaluates h src (.future c) ∧ Chain h stages c ps cs := by
  induction stages generalizing src with
  | nil => exact ⟨cs, [], he, .nil cs⟩
  | cons st stages ih =>
    obtain ⟨p, ps, hp, hchain⟩ := ih he
    -- no stage is a `Via`, so each has made a state of its own
    cases st <;> cases hp with
    | pipe he ho => exact ⟨_, p :: ps, he, .cons ho hchain⟩

/-- When a pipeline has delivered, so has its source. -/
theorem Chain.delivers (hr : Right h) (hchain : Chain h stages c ps cs) {v : Val V}
    (hv : h.Delivers cs v) : ∃ w, h.Delivers c w := by
  induction hchain with
  | nil c => exact ⟨v, hv⟩
  | cons ho _ ih =>
    obtain ⟨w, hw⟩ := ih hv
    obtain ⟨o, ho', hfed⟩ := (hr.delivered hw).fed
    exact hfed _ _ (Option.some.inj (ho'.symm.trans ho))

/-- The source is upstream of all the stages. -/
theorem Chain.upstream (hchain : Chain h stages c ps cs) : ∀ p ∈ ps, Upstream h c p := by
  induction hchain with
  | nil c =>
    intro q hq
    cases hq
  | cons ho _ ih =>
    intro q hq
    obtain rfl | hq := List.mem_cons.mp hq
    · exact .input ho
    · exact .step ho (ih q hq)

/-- If none of the `P` comes after one of the `Q`, the `P` come first. -/
theorem filter_or_of_pairwise {α : Type*} {P Q : α → Bool} {l : List α}
    (hl : l.Pairwise fun a b => Q a = true → P b = false) (hpq : ∀ a, P a = true → Q a = false) :
    l.filter (fun a => P a || Q a) = l.filter P ++ l.filter Q := by
  induction l with
  | nil => rfl
  | cons a l ih =>
    rw [List.pairwise_cons] at hl
    obtain ⟨ha, hl⟩ := hl
    have ih := ih hl
    cases hp : P a with
    | true =>
      rw [List.filter_cons_of_pos (by simp [hp]), List.filter_cons_of_pos hp,
        List.filter_cons_of_neg (by simp [hpq a hp]), ih, List.cons_append]
    | false =>
      cases hq : Q a with
      | true =>
        -- from here on there are no `P`
        have hnone : l.filter P = [] := List.filter_eq_nil_iff.mpr fun b hb => by simp [ha b hb hq]
        rw [List.filter_cons_of_pos (by simp [hq]), List.filter_cons_of_neg (by simp [hp]),
          List.filter_cons_of_pos hq, ih, hnone, List.nil_append, List.nil_append]
      | false =>
        rw [List.filter_cons_of_neg (by simp [hp, hq]), List.filter_cons_of_neg (by simp [hp]),
          List.filter_cons_of_neg (by simp [hq]), ih]

/-- The calls of the first stage come before those of the others. -/
theorem callsFor_cons {p : ℕ} (hordered : Ordered h) (hup : ∀ q ∈ ps, Upstream h p q)
    (hself : ¬Upstream h p p) : h.callsFor (p :: ps) =
      ((h.invoked.filter fun i => i.promise = p).map fun i => (0, i.arg)) ++
        (h.callsFor ps).map fun x => (x.1 + 1, x.2) := by
  have hnew : p ∉ ps := fun hmem => hself (hup p hmem)
  have hsplit : h.invoked.filter (fun i => i.promise ∈ p :: ps) =
      h.invoked.filter (fun i => i.promise = p) ++ h.invoked.filter (fun i => i.promise ∈ ps) := by
    rw [← filter_or_of_pairwise]
    · refine List.filter_congr fun i _ => ?_
      simp
    -- a call downstream of `p` does not come before the one of `p`
    · refine hordered.imp fun {i j} hno hi => ?_
      refine decide_eq_false fun hj => hno ?_
      rw [hj]
      exact hup _ (of_decide_eq_true hi)
    · intro i hi
      rw [of_decide_eq_true hi]
      exact decide_eq_false hnew
  rw [Heap.callsFor, Heap.callsFor, hsplit, List.map_append, List.map_map]
  -- `p` is at the place 0, and the others move up by one
  congr 1
  · refine List.map_congr_left fun i hi => ?_
    rw [of_decide_eq_true (List.mem_filter.mp hi).2, List.idxOf_cons_self]
  · refine List.map_congr_left fun i hi => ?_
    have hne : p ≠ i.promise := fun he => hnew (he ▸ of_decide_eq_true (List.mem_filter.mp hi).2)
    rw [List.idxOf_cons_ne _ hne]
    rfl

/-- **The run lemma**: along the chain the results are those of the synchronous pipeline, and so
are the calls. -/
theorem Chain.agrees (hr : Right h) (honce : (h.invoked.map Invocation.promise).Nodup)
    (hordered : Ordered h) (hchain : Chain h stages c ps cs)
    (hl : List.Forall₂ (Stage.Lifts h) stages ps) {v : Val V} (hv : h.Delivers cs v) :
    ∀ (r : Result V) (k : ℕ), h.Delivers c r.toVal →
      v = (syncPipeline stages r k).1.toVal ∧
      (h.callsFor ps).map (fun x => (x.1 + k, x.2)) =
        (syncPipeline stages r k).2.map fun x => (x.1, some x.2) := by
  induction hchain with
  | nil c =>
    intro r k hw
    have hnone : h.callsFor [] = [] := by simp [Heap.callsFor]
    rw [hnone]
    exact ⟨hv.unique hw, rfl⟩
  | @cons st stages c p cs ps ho hchain ih =>
    intro r k hw
    obtain ⟨hst, hl⟩ := List.forall₂_cons.mp hl
    obtain ⟨w, hp⟩ := hchain.delivers hr hv
    obtain ⟨rfl, hhere⟩ := Stage.agrees hr honce ho hw hp hst
    obtain ⟨hval, hrest⟩ := ih hl hv (st.pipe r).1 (k + 1) hp
    refine ⟨hval, ?_⟩
    -- the stage is not upstream of itself, so its call is not counted with the rest
    have hself : ¬Upstream h p p := (hr.delivered hp).not_upstream
    have hfirst : (h.invoked.filter fun i => i.promise = p).map (fun i => (k, i.arg)) =
        (st.pipe r).2.map fun a => (k, some a) := by
      calc (h.invoked.filter fun i => i.promise = p).map (fun i => (k, i.arg))
          = ((h.invoked.filter fun i => i.promise = p).map Invocation.arg).map (Prod.mk k) := by
            rw [List.map_map]
            rfl
        _ = (st.pipe r).2.map fun a => (k, some a) := by
            rw [hhere, List.map_map]
            rfl
    calc (h.callsFor (p :: ps)).map (fun x => (x.1 + k, x.2))
        = (h.invoked.filter fun i => i.promise = p).map (fun i => (k, i.arg)) ++
            (h.callsFor ps).map fun x => (x.1 + (k + 1), x.2) := by
          rw [callsFor_cons hordered hchain.upstream hself, List.map_append, List.map_map,
            List.map_map]
          congr 1
          · refine List.map_congr_left fun i _ => ?_
            simp
          · refine List.map_congr_left fun x _ => ?_
            have hshift : x.1 + 1 + k = x.1 + (k + 1) := by omega
            exact congrArg (fun n => (n, x.2)) hshift
      _ = (syncPipeline (st :: stages) r k).2.map fun x => (x.1, some x.2) := by
          rw [hfirst, hrest, syncPipeline, List.map_append, List.map_map]
          rfl

end TheChain

/-! ## Every run -/

/-- The value is the one the synchronous pipeline makes of what the source has delivered, and the
user functions have been called as in the synchronous pipeline. -/
def AgreesWithSync (h : Heap V ρ) (stages : List (Stage V ρ)) (src : Expr V ρ) (cs : ℕ)
    (v : Val V) : Prop :=
  ∃ c ps w, Evaluates h src (.future c) ∧ Chain h stages c ps cs ∧ h.Delivers c w ∧
    ∀ r : Result V, w = r.toVal → List.Forall₂ (Stage.Lifts h) stages ps →
      v = (syncPipeline stages r 0).1.toVal ∧
      h.callsFor ps = (syncPipeline stages r 0).2.map fun x => (x.1, some x.2)

theorem agrees_of_safe {s : State V ρ} (hs : (machine V ρ).ReachableVia Safe s)
    {stages : List (Stage V ρ)} {src : Expr V ρ} {cs : ℕ} {v : Val V}
    (he : Evaluates s.heap (pipeline stages src) (.future cs)) (hv : s.heap.Delivers cs v) :
    AgreesWithSync s.heap stages src cs v := by
  obtain ⟨hr, -, -⟩ := sound_of_safe hs
  obtain ⟨hcalls, hordered⟩ := calls_of_safe hs
  obtain ⟨c, ps, hsrc, hchain⟩ := exists_chain he
  obtain ⟨w, hw⟩ := hchain.delivers hr hv
  refine ⟨c, ps, w, hsrc, hchain, hw, fun r hwr hl => ?_⟩
  subst hwr
  obtain ⟨hval, htrace⟩ := hchain.agrees hr hcalls.once hordered hl hv r 0 hw
  refine ⟨hval, ?_⟩
  rw [← htrace]
  exact (List.map_id _).symm

/-- **The two pipelines agree**: whenever the state of a pipeline has delivered a value; and what a
program that consumes a pipeline gets is such a value, once. -/
theorem try_pipeline_agrees {s : State V ρ} (hs : (machine V ρ).ReachableVia Safe s)
    (stages : List (Stage V ρ)) (src : Expr V ρ) :
    (∀ cs v, Evaluates s.heap (pipeline stages src) (.future cs) → s.heap.Delivers cs v →
      AgreesWithSync s.heap stages src cs v) ∧
    ∀ r, s.heap.roots[r]? = some (pipeline stages src) →
      (s.Idle → ∃ v, s.heap.deliveries r = [v]) ∧
      ∀ v ∈ s.heap.deliveries r, ∃ cs, Evaluates s.heap (pipeline stages src) (.future cs) ∧
        s.heap.Delivers cs v := by
  refine ⟨fun cs v => agrees_of_safe hs, fun r hroot => ⟨fun hidle => ?_, fun v hv => ?_⟩⟩
  · obtain ⟨cs, v, -, -, -, hone⟩ := (delivered_of_safe hs).complete hidle r _ hroot
    exact ⟨v, hone⟩
  · obtain ⟨e, cs, he, hev, hw, -⟩ := (sound_of_safe hs).right.delivered_root hv
    obtain rfl : e = pipeline stages src := Option.some.inj (he.symm.trans hroot)
    exact ⟨cs, hev, hw⟩

/-- A success, an error from the second function, which the third one is not called with, and a
success again. The second function returns the future of a contract. -/
def exampleStages : List (Stage ℕ Unit) :=
  [.mapOk fun v => .pair v v, .andThen .err fun _ => .contract, .mapOk fun v => .pair v v,
    .orElse .ok fun e => .ready (.value (.ok e))]

def exampleSource : Expr ℕ Unit := .pipe (.via (.executor ())) .contract

/-- The source is set when the pipeline has been built. -/
def exampleRun : List (Action ℕ Unit) :=
  schedule (pipeline exampleStages exampleSource) [(0, 22, .contract),
    (1, 7, .value (.ok (.plain 1))), (2, 7, .contract), (3, 5, .contract),
    (4, 15, .value (.err (.pair (.plain 1) (.plain 1)))), (5, 15, .contract)]

theorem try_pipeline_agrees_errors : ∃ s, (machine ℕ Unit).ReachableVia Safe s ∧ s.Idle ∧
    s.heap.deliveries 0 = [(syncPipeline exampleStages (.ok (.plain 1)) 0).1.toVal] ∧
    (∃ v, s.heap.deliveries 0 = [v]) ∧ ∀ v ∈ s.heap.deliveries 0, ∃ cs,
      s.heap.Delivers cs v ∧ AgreesWithSync s.heap exampleStages exampleSource cs v := by
  have hinit : (machine ℕ Unit).ReachableVia WithoutBothOk ⟨.empty, []⟩ := .init rfl
  have hends : ((machine ℕ Unit).execVia WithoutBothOk exampleRun ⟨.empty, []⟩).any
      (fun s => decide (s.Idle ∧ s.heap.deliveries 0 =
        [(syncPipeline exampleStages (.ok (.plain 1)) 0).1.toVal])) = true := by decide +kernel
  obtain ⟨s, hexec, hp⟩ := (Option.any_eq_true _ _).mp hends
  obtain ⟨hidle, hout⟩ := of_decide_eq_true hp
  have hroots : ((machine ℕ Unit).execVia WithoutBothOk exampleRun ⟨.empty, []⟩).map
      (fun s => s.heap.roots) = some [pipeline exampleStages exampleSource] := rfl
  rw [hexec, Option.map_some] at hroots
  have hroot : s.heap.roots[0]? = some (pipeline exampleStages exampleSource) := by
    rw [Option.some.inj hroots]
    rfl
  have hsafe := (safe_of_withoutBothOk (hinit.exec exampleRun hexec)).1
  obtain ⟨hagrees, hdelivered⟩ := try_pipeline_agrees hsafe exampleStages exampleSource
  obtain ⟨hone, hvalues⟩ := hdelivered 0 hroot
  refine ⟨s, hsafe, hidle, hout, hone hidle, fun v hv => ?_⟩
  obtain ⟨cs, he, hw⟩ := hvalues v hv
  exact ⟨cs, hw, hagrees cs v he hw⟩

end Exe.Future
