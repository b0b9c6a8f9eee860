/-
Delivery: when nothing is pending any more, everything has been delivered.

Suppose that all threads have finished, and that a state has not been set. Its promise is then
in the callback of another state, which has not been called, or it is the one of a node, for
which a callback is missing; that is in another state, which has not been called either. So
one unset state waits for another (`exists_awaited`), and no two of them wait for the same
one. Since there are finitely many of them, every unset state is awaited by one, and none of
them has the program itself waiting for it. So the program's callbacks have all run.
-/
import Mathlib.Data.Finset.Card
import Exe.FutureValueSteps

set_option autoImplicit false

namespace Exe.Future

open Function (update)
open Finset (range)

universe u v

variable {V : Type u} {ρ : Type v}

/-- All threads have finished: nothing is pending. -/
def State.Idle (s : State V ρ) : Prop := s.threads.all List.isEmpty = true

instance instDecidableIdle (s : State V ρ) : Decidable s.Idle := inferInstanceAs (Decidable (_ = _))

/-! ## Who waits for whom -/

/-- The promise a callback is to set, if it is called and nobody else is in between. -/
def Callback.target (h : Heap V ρ) : Callback V ρ → Option ℕ
  | .root _ => none
  | .pipe _ _ p => some p
  | .forward p => some p
  | .concur n _ => (h.nodes n).promise

/-- The state whose promise depends on the state `cs`. -/
def Heap.target (h : Heap V ρ) (cs : ℕ) : Option ℕ :=
  (h.states cs).callback_.bind (Callback.target h)

section Waiting

variable {h : Heap V ρ} {cs : ℕ}

/-- What the heap holds is in the callback of a state, or in a node. -/
theorem stored_cases {r : Res} (hr : h.stored r ≠ 0) :
    (∃ cs < h.size, (h.states cs).calls = [] ∧
      ∃ cb, (h.states cs).callback_ = some cb ∧ cb.res = r) ∨
    ∃ n < h.nodeCount, ∃ p, (h.nodes n).promise = some p ∧ r = .promise p := by
  by_cases hstates : ∑ cs ∈ range h.size, (h.states cs).stored r = 0
  · have hnodes : ∑ n ∈ range h.nodeCount, (h.nodes n).stored r ≠ 0 := by
      rw [Heap.stored, hstates, Nat.zero_add] at hr
      exact hr
    obtain ⟨n, hn, hne⟩ := Finset.exists_ne_zero_of_sum_ne_zero hnodes
    refine .inr ⟨n, Finset.mem_range.mp hn, ?_⟩
    rw [ProtectedPromise.stored] at hne
    have hmap : (h.nodes n).promise.map Res.promise = some r := by
      by_contra hno
      exact hne (if_neg hno)
    obtain ⟨p, hp, he⟩ := Option.map_eq_some_iff.mp hmap
    exact ⟨p, hp, he.symm⟩
  · obtain ⟨cs, hcs, hne⟩ := Finset.exists_ne_zero_of_sum_ne_zero hstates
    refine .inl ⟨cs, Finset.mem_range.mp hcs, ?_⟩
    rw [ContractState.stored] at hne
    have hand : (h.states cs).calls.length = 0 ∧
        (h.states cs).callback_.map Callback.res = some r := by
      by_contra hno
      exact hne (if_neg hno)
    exact ⟨List.eq_nil_of_length_eq_zero hand.1, Option.map_eq_some_iff.mp hand.2⟩

/-- A state that has been consumed and not called has not been set. -/
theorem Ledger.unset_of_uncalled (hl : Ledger h 0) (hcalls : (h.states cs).calls = [])
    (hcb : (h.states cs).callback_ ≠ none) : (h.states cs).sets = 0 := by
  have hst := hl.state cs
  have hproduced := hst.produced
  have hrendezvous := hst.rendezvous
  have hlt := hst.state_lt
  have hconsumer : (h.states cs).consumer ≠ 0 := by
    intro hzero
    refine hcb (hst.callback.mpr ?_)
    rw [hzero, Multiset.count_zero]
  rw [hcalls, Multiset.count_zero, List.length_nil] at hrendezvous
  have hnot : (h.states cs).state_ ≠ 3 := by
    intro h3
    rw [if_pos h3] at hrendezvous
    omega
  rw [Multiset.count_zero] at hproduced
  rw [ContractState.consumer] at hconsumer
  rw [ContractState.producer] at hproduced
  omega

/-- A side that has not arrived is in a state that has not been called. -/
theorem Ledger.exists_side {n : ℕ} {s : Side} (hl : Ledger h 0) (hn : n < h.nodeCount)
    (hs : (h.nodes n).arrived s = 0) : ∃ cs < h.size, (h.states cs).calls = [] ∧
      (h.states cs).callback_ = some (.concur n s) := by
  have hbalance := hl.balance (.side n s)
  simp only [carried_zero, Multiset.count_zero, Heap.spent, Heap.issued, if_pos hn, hs] at hbalance
  obtain ⟨cs, hcs, hcalls, cb, hcb, hres⟩ | ⟨n', -, p, -, he⟩ :=
    stored_cases (h := h) (r := .side n s) (by omega)
  · refine ⟨cs, hcs, hcalls, ?_⟩
    rw [hcb]
    cases cb with
    | concur n' s' =>
      obtain ⟨rfl, rfl⟩ := Res.side.inj hres
      rfl
    | _ => cases hres
  · cases he

/-- A promise that is not set is awaited from a state that is not set either. -/
theorem exists_awaited (hl : Ledger h 0) (hs : Settled h 0) (hcs : cs < h.size)
    (hsets : (h.states cs).sets = 0) :
    ∃ c < h.size, (h.states c).sets = 0 ∧ h.target c = some cs := by
  have hbalance := hl.balance (.promise cs)
  simp only [carried_zero, Multiset.count_zero, Heap.spent, Heap.issued, if_pos hcs, hsets]
    at hbalance
  obtain ⟨c, hc, hcalls, cb, hcb, hres⟩ | ⟨n, hn, p, hp, he⟩ :=
    stored_cases (h := h) (r := .promise cs) (by omega)
  · have hunset : (h.states c).sets = 0 := by
      refine hl.unset_of_uncalled hcalls ?_
      rw [hcb]
      exact Option.some_ne_none cb
    refine ⟨c, hc, hunset, ?_⟩
    rw [Heap.target, hcb]
    cases cb with
    | pipe op rt p =>
      obtain rfl := Res.promise.inj hres
      rfl
    | forward p =>
      obtain rfl := Res.promise.inj hres
      rfl
    | _ => cases hres
  · obtain rfl := Res.promise.inj he
    -- the outcome of the node is not determined yet, so that a side of it is missing
    have hsetting := hs.setting n
    have htaken : h.taken n = 0 := by
      refine if_neg fun hand => ?_
      rw [hp] at hand
      exact Option.some_ne_none _ hand.2
    rw [htaken, holdings_zero, Multiset.count_zero] at hsetting
    have hside : ∃ s, (h.nodes n).arrived s = 0 := by
      rcases harrivals : (h.nodes n).arrivals with _ | ⟨a, _ | ⟨b, l⟩⟩
      · exact ⟨.first, by rw [ProtectedPromise.arrived, harrivals]; rfl⟩
      · refine ⟨a.1.other, ?_⟩
        rw [ProtectedPromise.arrived, harrivals, List.map_singleton, List.count_singleton]
        exact if_neg (by simpa using (Side.other_ne a.1).symm)
      · have hsome := outcome_isSome (h.nodes n).op a b l
        rw [ProtectedPromise.outcome, harrivals, hsome] at hsetting
        cases hsetting
    obtain ⟨s, hside⟩ := hside
    obtain ⟨c, hc, hcalls, hcb⟩ := hl.exists_side hn hside
    have hunset : (h.states c).sets = 0 := by
      refine hl.unset_of_uncalled hcalls ?_
      rw [hcb]
      exact Option.some_ne_none _
    refine ⟨c, hc, hunset, ?_⟩
    rw [Heap.target, hcb]
    exact hp

/-- **Every state that is not set is awaited by one.** -/
theorem target_ne_none (hl : Ledger h 0) (hs : Settled h 0) (hcs : cs < h.size)
    (hsets : (h.states cs).sets = 0) : h.target cs ≠ none := by
  set S : Finset ℕ := (range h.size).filter fun c => (h.states c).sets = 0 with hS
  have hmem : ∀ c, c ∈ S ↔ c < h.size ∧ (h.states c).sets = 0 := by
    intro c
    rw [hS, Finset.mem_filter, Finset.mem_range]
  have hawaited : ∀ c, ∃ c', c ∈ S → c' ∈ S ∧ h.target c' = some c := by
    intro c
    by_cases hc : c ∈ S
    · obtain ⟨hlt, hunset⟩ := (hmem c).mp hc
      obtain ⟨c', hc', hunset', htarget⟩ := exists_awaited hl hs hlt hunset
      exact ⟨c', fun _ => ⟨(hmem c').mpr ⟨hc', hunset'⟩, htarget⟩⟩
    · exact ⟨c, fun h => absurd h hc⟩
  choose f hf using hawaited
  have hmaps : Set.MapsTo f S S := fun c hc => (hf c hc).1
  have hinj : Set.InjOn f S := by
    intro a ha b hb hab
    have hta := (hf a ha).2
    have htb := (hf b hb).2
    rw [hab, htb] at hta
    exact (Option.some.inj hta).symm
  have hsurj := Finset.surjOn_of_injOn_of_card_le f hmaps hinj (Nat.le_refl _)
  obtain ⟨c, hc, rfl⟩ := hsurj (Finset.mem_coe.mpr ((hmem cs).mpr ⟨hcs, hsets⟩))
  rw [(hf c hc).2]
  exact Option.some_ne_none c

/-- When nothing is pending, the callbacks of the program have all run, once. -/
theorem Ledger.ran_once {r : ℕ} (hl : Ledger h 0) (hs : Settled h 0) (hr : r < h.roots.length) :
    (h.ran.map Prod.fst).count r = 1 := by
  have hbalance := hl.balance (.root r)
  simp only [carried_zero, Multiset.count_zero, Heap.spent, Heap.issued, if_pos hr] at hbalance
  by_cases hstored : h.stored (.root r) = 0
  · omega
  · exfalso
    obtain ⟨cs, hcs, hcalls, cb, hcb, hres⟩ | ⟨n, -, p, -, he⟩ := stored_cases hstored
    · have hunset : (h.states cs).sets = 0 := by
        refine hl.unset_of_uncalled hcalls ?_
        rw [hcb]
        exact Option.some_ne_none cb
      refine target_ne_none hl hs hcs hunset ?_
      rw [Heap.target, hcb]
      cases cb with
      | root r => rfl
      | _ => cases hres
    · cases he

end Waiting

/-! ## Programs without `BothOk` -/

def Instr.callsBothOk : Instr V ρ → Bool
  | .ret _ (.concurSnd .bothOk _ _) => true
  | _ => false

/-- The step does not call `BothOk`. -/
def WithoutBothOk (a : Action V ρ) (s : State V ρ) : Prop :=
  match a with
  | .start _ => True
  | .step t _ => (s.threads[t]?.bind List.head?).any Instr.callsBothOk = false

instance instDecidableWithoutBothOk (a : Action V ρ) (s : State V ρ) :
    Decidable (WithoutBothOk a s) :=
  match a with
  | .start _ => inferInstanceAs (Decidable True)
  | .step _ _ => inferInstanceAs (Decidable (_ = false))

theorem not_calls_of_withoutBothOk {s : State V ρ} {t : ℕ} {code : Expr V ρ} {i : Instr V ρ}
    {rest : List (Instr V ρ)} (hw : WithoutBothOk (.step t code) s)
    (ht : s.threads[t]? = some (i :: rest)) : ¬i.Calls .bothOk := by
  intro hcalls
  have hi : i.callsBothOk = false := by
    rw [WithoutBothOk, ht] at hw
    exact hw
  cases i with
  | ret v k =>
    cases k with
    | concurSnd op v₁ k =>
      obtain rfl : op = .bothOk := hcalls
      cases hi
    | _ => exact hcalls
  | _ => exact hcalls

/-- A part of a callback makes no node. -/
theorem exec_nodeCount {h : Heap V ρ} {i : Instr V ρ} {code : Expr V ρ} {out : Out V ρ} {n : ℕ}
    (hi : i.node = some n) (hstep : exec code h i = some out) :
    out.heap.nodeCount = h.nodeCount := by
  cases i with
  | call n s v =>
    obtain rfl := Option.some.inj hstep
    simp only [callStep]
    split <;> (try split) <;> rfl
  | arrive n s v =>
    obtain rfl := Option.some.inj hstep
    simp only [arriveStep]
    split <;> (try split) <;> rfl
  | setTuple n =>
    obtain rfl := Option.some.inj hstep
    simp only [setTupleStep]
    split <;> rfl
  | setNode n v =>
    obtain rfl := Option.some.inj hstep
    simp only [setNodeStep]
    split <;> rfl
  | store n s v =>
    obtain rfl := Option.some.inj hstep
    rfl
  | fail n =>
    obtain rfl := Option.some.inj hstep
    rfl
  | _ => cases hi

/-- What holds at every step of a safe run. -/
theorem good_of_safe {s : State V ρ} (hs : (machine V ρ).ReachableVia Safe s)
    {i : Instr V ρ} {O : Multiset (Instr V ρ)} {code : Expr V ρ} {out : Out V ρ}
    (hold : s.instrs = {i} + O) (hout : exec code s.heap i = some out) : Good s.heap out := by
  have hl := ledger_of_reachable hs.reachable
  have hslots := slots_of_reachable hs.reachable
  have hsettled := (settled_of_safe hs).1
  obtain ⟨hr, hok, hleaf⟩ := sound_of_safe hs
  rw [hold] at hl hslots hsettled hok hleaf
  rw [holdings_add, holdings_singleton] at hl
  exact Good.exec hl hslots hsettled hr (hok i (by simp)) (fun p hp => hleaf p (by simp [hp])) hout

/-- A program without `BothOk` is safe: there are no nodes of `BothOk`. -/
theorem safe_of_withoutBothOk {s : State V ρ}
    (hs : (machine V ρ).ReachableVia WithoutBothOk s) : (machine V ρ).ReachableVia Safe s ∧
      ∀ n < s.heap.nodeCount, (s.heap.nodes n).op ≠ .bothOk := by
  induction hs with
  | init hinit =>
    refine ⟨.init hinit, fun n hn => ?_⟩
    obtain rfl := hinit
    cases hn
  | @step s s' a hs hc hstep ih =>
    obtain ⟨hsafe, hops⟩ := ih
    have hl := ledger_of_reachable hsafe.reachable
    obtain ⟨e, rfl, hheap, hnew⟩ | ⟨t, code, i, rest, out, rfl, ht, hout, hheap, O, hold, hnew⟩ :=
      step_cases hstep
    · have hsafe' : Safe (.start e) s := trivial
      refine ⟨.step _ hsafe hsafe' hstep, ?_⟩
      rw [hheap]
      exact hops
    · have hi : i.Safe s.heap := by
        cases i with
        | call n x v =>
          intro hop
          have hmem : Res.side n x ∈ holdings s.instrs := by
            rw [hold, holdings_add, holdings_singleton]
            simp [Instr.res]
          exact absurd hop (hops n (hl.lt_nodeCount (.inl hmem)))
        | _ => trivial
      have hsafe' : Safe (.step t code) s := by
        rw [Safe, ht]
        exact hi
      have hgood := good_of_safe hsafe hold hout
      refine ⟨.step _ hsafe hsafe' hstep, fun n hn => ?_⟩
      rw [hheap] at hn ⊢
      by_cases hlt : n < s.heap.nodeCount
      · rw [(hgood.grows.node n hlt).op]
        exact hops n hlt
      · -- only the call of a combinator makes a node
        cases hnode : i.node with
        | some n' =>
          rw [exec_nodeCount hnode hout] at hn
          exact absurd hn hlt
        | none =>
          obtain ⟨-, hcount⟩ | ⟨op, cs, hnodes, hcount, hcalls⟩ := (exec_plain hnode hout).1
          · rw [hcount] at hn
            exact absurd hn hlt
          · have hn : n = s.heap.nodeCount := by omega
            rw [hnodes, hn, Function.update_self]
            rintro rfl
            exact not_calls_of_withoutBothOk hc ht hcalls

/-! ## Delivery -/

/-- What a run has delivered to the callback of the program with number `r`. -/
def Heap.deliveries (h : Heap V ρ) (r : ℕ) : List (Val V) :=
  (h.ran.filter fun x => x.1 = r).map Prod.snd

theorem length_deliveries (h : Heap V ρ) (r : ℕ) :
    (h.deliveries r).length = (h.ran.map Prod.fst).count r := by
  rw [Heap.deliveries, List.length_map, List.count, List.countP_map, List.countP_eq_length_filter]
  rfl

/-- What is delivered to the program is what the state of its expression is set with. -/
theorem Right.delivered_root {h : Heap V ρ} (hr : Right h) {r : ℕ} {v : Val V}
    (hv : v ∈ h.deliveries r) : ∃ e cs, h.roots[r]? = some e ∧ Evaluates h e (.future cs) ∧
      h.Delivers cs v ∧ (h.states cs).callback_ = some (.root r) := by
  obtain ⟨⟨r', v'⟩, hm, rfl⟩ := List.mem_map.mp hv
  obtain ⟨hran, hr'⟩ := List.mem_filter.mp hm
  obtain rfl := of_decide_eq_true hr'
  obtain ⟨cs, hcb, hw⟩ := hr.ran r' v' hran
  obtain ⟨e, he, hev⟩ := hr.callback cs _ hcb
  exact ⟨e, cs, he, hev, hw, hcb⟩

/-- What has been delivered is right and has been delivered once; and when nothing is pending,
everything has been delivered. -/
structure DeliveredOnce (s : State V ρ) : Prop where
  /-- No state is touched after its deletion, and no promise is set that has been taken. -/
  noFault : s.heap.fault = false
  /-- A promise is set once at most, and a callback is called once at most. -/
  once : ∀ cs, (s.heap.states cs).sets ≤ 1 ∧ (s.heap.states cs).calls.length ≤ 1
  /-- It is called with what the state has been set with. -/
  called : ∀ cs w, w ∈ (s.heap.states cs).calls → (s.heap.states cs).result_ = some w
  /-- And that is what it should be set with. -/
  value : ∀ cs v, (s.heap.states cs).result_ = some v → Justified s.heap cs v
  /-- The callback of the program has run once. -/
  complete : s.Idle → ∀ r e, s.heap.roots[r]? = some e → ∃ cs v, Evaluates s.heap e (.future cs) ∧
    (s.heap.states cs).callback_ = some (.root r) ∧ s.heap.Delivers cs v ∧
    s.heap.deliveries r = [v]

theorem delivered_of_safe {s : State V ρ} (hs : (machine V ρ).ReachableVia Safe s) :
    DeliveredOnce s := by
  have hl := ledger_of_reachable hs.reachable
  obtain ⟨hsettled, hfault⟩ := settled_of_safe hs
  obtain ⟨hr, -, -⟩ := sound_of_safe hs
  have hcalls : ∀ cs, (s.heap.states cs).calls.length ≤ 1 := by
    intro cs
    have hrendezvous := (hl.state cs).rendezvous
    split at hrendezvous <;> omega
  refine ⟨hfault, fun cs => ⟨hl.sets_le cs, hcalls cs⟩, fun cs w hw => ?_, hr.result,
    fun hidle r e he => ?_⟩
  · have hone := hcalls cs
    refine hr.called cs w ?_
    rcases hlist : (s.heap.states cs).calls with _ | ⟨x, _ | ⟨y, l⟩⟩ <;> rw [hlist] at hw hone
    · cases hw
    · rw [Heap.Delivers, hlist, List.mem_singleton.mp hw]
    · simp at hone
  · have hzero := instrs_of_idle hidle
    rw [hzero] at hl hsettled
    have hone := hl.ran_once hsettled (List.getElem?_eq_some_iff.mp he).1
    rw [← length_deliveries] at hone
    obtain ⟨v, hv⟩ := List.length_eq_one_iff.mp hone
    obtain ⟨e', cs, he', hev, hw, hcb⟩ := hr.delivered_root (r := r) (v := v) (by rw [hv]; simp)
    obtain rfl : e = e' := Option.some.inj (he.symm.trans he')
    exact ⟨cs, v, hev, hcb, hw, hv⟩

/-- **Exactly once, and the right value**: for every program of futures without `BothOk`, in
every state of every run. -/
theorem delivered_exactly_once {s : State V ρ}
    (hs : (machine V ρ).ReachableVia WithoutBothOk s) : DeliveredOnce s :=
  delivered_of_safe (safe_of_withoutBothOk hs).1

/-- `Both(AndThen(Via(f)), FirstOk(After(g), Ready(error)))`, with two leaves `f` and `g`. -/
def exampleTree : Expr ℕ Unit :=
  .concur .both
    (.pipe (.andThen fun v => .ready (.value (.ok (.pair v v))))
      (.pipe (.via (.executor ())) .contract))
    (.concur .firstOk (.pipe (.after 10) .contract) (.ready (.value (.err (.plain 0)))))

/-- The program begins `e`; then each of these threads makes so many steps. -/
def schedule (e : Expr ℕ Unit) (l : List (ℕ × ℕ × Expr ℕ Unit)) : List (Action ℕ Unit) :=
  .start e :: l.flatMap fun x => List.replicate x.2.1 (.step x.1 x.2.2)

theorem delivered_exactly_once_tree : ∃ s, (machine ℕ Unit).ReachableVia WithoutBothOk s ∧
    s.Idle ∧ s.heap.deliveries 0 =
      [.pair (.ok (.pair (.plain 1) (.plain 1))) (.ok (.plain 2))] ∧ DeliveredOnce s := by
  have hinit : (machine ℕ Unit).ReachableVia WithoutBothOk ⟨.empty, []⟩ := .init rfl
  obtain ⟨s, hs, hp⟩ := hinit.exec_any
    (schedule exampleTree [(0, 38, .contract), (2, 7, .value (.ok (.plain 2))),
      (1, 7, .value (.ok (.plain 1))), (3, 14, .contract), (4, 23, .contract)])
    (fun s => decide (s.Idle ∧ s.heap.deliveries 0 =
      [.pair (.ok (.pair (.plain 1) (.plain 1))) (.ok (.plain 2))])) (by decide +kernel)
  obtain ⟨hidle, hout⟩ := of_decide_eq_true hp
  exact ⟨s, hs, hidle, hout, delivered_exactly_once hs⟩

end Exe.Future
