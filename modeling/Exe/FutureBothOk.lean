/-
Trees of `BothOk` over leaves.

As long as no callback of a node gets an error after the other one got one, a tree of
`BothOk` resolves once: with the nested tuple of the values of its leaves, or with the error
of the leaf that has failed. There is only one such leaf then (`Resolves`), as two of them
would meet at some node.

Two failing leaves break it. The error branch sets the promise without a look at `state`, and
the second time there is no promise left to be set.
-/
import Exe.FutureSlots
import Exe.FutureDelivery

set_option autoImplicit false

namespace Exe.Future

open Function (update)

universe u v

variable {V : Type u} {ρ : Type v}

/-! ## At most one error arrives -/

def ProtectedPromise.errors (node : ProtectedPromise V) : ℕ :=
  node.arrivals.countP fun a => !a.2.hasValue

section Errors

variable {h : Heap V ρ} {i : Instr V ρ} {out : Out V ρ} {n : ℕ}

theorem errors_append (node : ProtectedPromise V) (state : ℕ) (a : Side × Val V) :
    ProtectedPromise.errors { node with state, arrivals := node.arrivals ++ [a] } =
      node.errors + (!a.2.hasValue).toNat := by
  rw [ProtectedPromise.errors, List.countP_append, ProtectedPromise.errors]
  cases ha : a.2.hasValue <;> simp [ha]

/-- What a step does at its own node, when it is one of `BothOk`. -/
theorem errors_exec {code : Expr V ρ} (hsafe : i.Safe h) (hi : i.node = some n)
    (hstep : exec code h i = some out) (hop : (out.heap.nodes n).op = .bothOk)
    (hone : (h.nodes n).op = .bothOk → (h.nodes n).errors ≤ 1) :
    (out.heap.nodes n).errors ≤ 1 := by
  cases i with
  | call n' s v =>
    obtain rfl := Option.some.inj hi
    obtain rfl := Option.some.inj hstep
    unfold callStep at hop ⊢
    cases hold : (h.nodes n').op with
    | bothOk =>
      rw [hold] at hop
      dsimp only at hop ⊢
      split
      · exact hone hold
      · -- nobody has arrived with an error
        rename_i hv
        have hzero : (h.nodes n').errors = 0 := by
          refine List.countP_eq_zero.mpr fun a ha => ?_
          rw [hsafe hold (by simpa using hv) a ha]
          exact Bool.false_ne_true
        have hnew := errors_append (h.nodes n') (h.nodes n').state (s, v)
        rw [nodes_setNode, hnew, hzero, Nat.zero_add]
        exact Bool.toNat_le _
    | _ =>
      rw [hold] at hop
      exact hone hop
  | store n' s v =>
    obtain rfl := Option.some.inj hi
    obtain rfl := Option.some.inj hstep
    dsimp only at hop ⊢
    rw [nodes_setNode] at hop ⊢
    exact hone hop
  | arrive n' s v =>
    obtain rfl := Option.some.inj hi
    obtain rfl := Option.some.inj hstep
    have hold : (h.nodes n').op = .bothOk := by
      unfold arriveStep at hop
      dsimp only at hop
      split at hop <;> (try split at hop) <;> (dsimp only at hop; rwa [nodes_setNode] at hop)
    unfold arriveStep
    simp only [hold]
    have hnew := errors_append (h.nodes n') ((h.nodes n').state ||| s.bit) (s, .ok v)
    rw [hold] at hnew
    rw [nodes_setNode, hnew]
    exact hone hold
  | setTuple n' =>
    obtain rfl := Option.some.inj hi
    obtain rfl := Option.some.inj hstep
    have hsame : ((setTupleStep (ρ := ρ) h n').heap.nodes n').op = (h.nodes n').op ∧
        ((setTupleStep (ρ := ρ) h n').heap.nodes n').arrivals = (h.nodes n').arrivals := by
      unfold setTupleStep
      dsimp only
      split
      · rw [nodes_setNode]
        exact ⟨rfl, rfl⟩
      · exact ⟨rfl, rfl⟩
    rw [hsame.1] at hop
    rw [ProtectedPromise.errors, hsame.2]
    exact hone hop
  | setNode n' v =>
    obtain rfl := Option.some.inj hi
    obtain rfl := Option.some.inj hstep
    have hsame : ((setNodeStep (ρ := ρ) h n' v).heap.nodes n').op = (h.nodes n').op ∧
        ((setNodeStep (ρ := ρ) h n' v).heap.nodes n').arrivals = (h.nodes n').arrivals := by
      unfold setNodeStep
      split
      · rw [nodes_setNode]
        exact ⟨rfl, rfl⟩
      · exact ⟨rfl, rfl⟩
    rw [hsame.1] at hop
    rw [ProtectedPromise.errors, hsame.2]
    exact hone hop
  | fail n' =>
    obtain rfl := Option.some.inj hi
    obtain rfl := Option.some.inj hstep
    dsimp only at hop ⊢
    rw [nodes_setNode] at hop ⊢
    exact hone hop
  | _ => cases hi

end Errors

theorem errors_of_safe {s : State V ρ} (hs : (machine V ρ).ReachableVia Safe s) :
    ∀ n, (s.heap.nodes n).op = .bothOk → (s.heap.nodes n).errors ≤ 1 := by
  refine hs.invariant (I := fun s => ∀ n, (s.heap.nodes n).op = .bothOk →
    (s.heap.nodes n).errors ≤ 1) (fun s hinit n hop => ?_) fun a s s' hold hsafe hstep n hop => ?_
  · obtain rfl := hinit
    cases hop
  · obtain ⟨e, -, hheap, -⟩ | ⟨t, code, i, rest, out, rfl, ht, hout, hheap, -⟩ :=
      step_cases hstep
    · rw [hheap] at hop ⊢
      exact hold n hop
    · rw [Safe, ht] at hsafe
      rw [hheap] at hop ⊢
      cases hi : i.node with
      | none =>
        obtain ⟨hnodes, -⟩ | ⟨op, cs, hnodes, -⟩ := (exec_plain hi hout).1
        · rw [hnodes] at hop ⊢
          exact hold n hop
        · rw [hnodes] at hop ⊢
          by_cases hn : n = s.heap.nodeCount
          · rw [hn, Function.update_self]
            exact Nat.zero_le _
          · rw [Function.update_of_ne hn] at hop ⊢
            exact hold n hop
      | some n' =>
        by_cases hn : n = n'
        · subst hn
          exact errors_exec hsafe hi hout hop (hold n)
        · rw [(exec_node hi hout).1 n hn] at hop ⊢
          exact hold n hop

/-! ## When nothing is pending, both callbacks have arrived -/

section Idle

variable {h : Heap V ρ} {n : ℕ} {v : Val V}

theorem arrivals_of_idle (hl : Ledger h 0) (hs : Settled h 0) (hn : n < h.nodeCount)
    (hv : (h.nodes n).outcome = some v) :
    ∃ s a b, (h.nodes n).arrivals = [(s, a), (s.other, b)] := by
  have hone : ∀ s, (h.nodes n).arrived s = 1 := by
    intro s
    have hle := hl.side_le n s
    by_contra hne
    obtain ⟨c, hc, hcalls, hcb⟩ := hl.exists_side hn (s := s) (by omega)
    have hunset : (h.states c).sets = 0 := by
      refine hl.unset_of_uncalled hcalls ?_
      rw [hcb]
      exact Option.some_ne_none _
    -- somebody waits for the promise of the node, but it has been taken
    have htarget := target_ne_none hl hs hc hunset
    rw [Heap.target, hcb] at htarget
    have hsetting := hs.setting n
    rw [hv, holdings_zero, Multiset.count_zero, Heap.taken] at hsetting
    refine htarget ?_
    by_contra hpromise
    rw [if_neg fun hand => hpromise hand.2] at hsetting
    cases hsetting
  have hfirst := hone .first
  have hsecond := hone .second
  simp only [ProtectedPromise.arrived] at hfirst hsecond
  rcases hlist : (h.nodes n).arrivals with _ | ⟨⟨s, a⟩, _ | ⟨⟨t, b⟩, _ | ⟨⟨x, c⟩, l⟩⟩⟩ <;>
    rw [hlist] at hfirst hsecond
  · cases hfirst
  · cases s <;> simp at hfirst hsecond
  · refine ⟨s, a, b, ?_⟩
    cases s <;> cases t <;> simp at hfirst hsecond <;> rfl
  · cases s <;> cases t <;> cases x <;> simp at hfirst hsecond

end Idle

/-! ## Trees -/

/-- A binary tree of `BothOk` over leaves. -/
inductive Expr.BothOkTree : Expr V ρ → Prop
  | contract : BothOkTree .contract
  | bothOk {e₁ e₂ : Expr V ρ} (h₁ : BothOkTree e₁) (h₂ : BothOkTree e₂) :
      BothOkTree (.concur .bothOk e₁ e₂)

/-- State `l` is a leaf of the tree of state `cs`. -/
inductive LeafOf (h : Heap V ρ) : ℕ → ℕ → Prop
  | leaf {cs : ℕ} (ho : h.origin cs = some .contract) : LeafOf h cs cs
  | side {cs c₁ c₂ l : ℕ} (s : Side) (ho : h.origin cs = some (.concur .bothOk c₁ c₂))
      (hl : LeafOf h (s.pick c₁ c₂) l) : LeafOf h cs l

/-- The nested tuple of all the values of the leaves. -/
inductive TupleOf (h : Heap V ρ) : ℕ → Val V → Prop
  | leaf {cs : ℕ} {w : Val V} (ho : h.origin cs = some .contract)
      (hw : (h.states cs).result_ = some w) (hok : w.hasValue = true) : TupleOf h cs w.value
  | bothOk {cs c₁ c₂ : ℕ} {v₁ v₂ : Val V} (ho : h.origin cs = some (.concur .bothOk c₁ c₂))
      (h₁ : TupleOf h c₁ v₁) (h₂ : TupleOf h c₂ v₂) : TupleOf h cs (.pair v₁ v₂)

/-- The tree of `cs` resolves with `v`: all leaves have succeeded, and it is the tuple of their
values, or one leaf has failed, no other one has, and it is its error. -/
inductive Resolves (h : Heap V ρ) (cs : ℕ) (v : Val V) : Prop
  | tuple (hok : v.hasValue = true) (ht : TupleOf h cs v.value)
      (hall : ∀ l, LeafOf h cs l → ∃ w, (h.states l).result_ = some w ∧ w.hasValue = true)
  | error (l : ℕ) (herr : v.hasValue = false) (hl : LeafOf h cs l)
      (hv : (h.states l).result_ = some v)
      (hother : ∀ l', LeafOf h cs l' → l' ≠ l →
        ∃ w, (h.states l').result_ = some w ∧ w.hasValue = true)

section Trees

variable {h : Heap V ρ} {cs : ℕ} {v : Val V}

theorem leafOf_contract (ho : h.origin cs = some .contract) {l : ℕ} (hl : LeafOf h cs l) :
    l = cs := by
  cases hl with
  | leaf => rfl
  | side s ho' => simp [ho] at ho'

theorem leafOf_bothOk {c₁ c₂ l : ℕ} (ho : h.origin cs = some (.concur .bothOk c₁ c₂))
    (hl : LeafOf h cs l) : ∃ s : Side, LeafOf h (s.pick c₁ c₂) l := by
  cases hl with
  | leaf ho' => simp [ho] at ho'
  | side s ho' hl =>
    obtain ⟨rfl, rfl⟩ : c₁ = _ ∧ c₂ = _ := by simpa using Option.some.inj (ho.symm.trans ho')
    exact ⟨s, hl⟩

theorem Justified.of_concur {op : Concur} {c₁ c₂ : ℕ} (hj : Justified h cs v)
    (ho : h.origin cs = some (.concur op c₁ c₂)) : ∃ n < h.nodeCount, (h.nodes n).owner = cs ∧
      (h.nodes n).op = op ∧ ∃ l, l <+: (h.nodes n).arrivals ∧ op.outcome l = some v := by
  cases hj with
  | concur ho' hn howner hop hl _ _ _ hv =>
    obtain ⟨rfl, -⟩ := Origin.concur.inj (Option.some.inj (ho.symm.trans ho'))
    exact ⟨_, hn, howner, hop, _, hl, hv⟩
  | contract ho' | ready ho' | spawn ho' | pass ho' | set ho' | setOk ho' | forward ho'
  | inner ho' =>
    simp [ho] at ho'

theorem Resolves.of_value (hr : Resolves h cs v) (hok : v.hasValue = true) :
    TupleOf h cs v.value ∧
      ∀ l, LeafOf h cs l → ∃ w, (h.states l).result_ = some w ∧ w.hasValue = true := by
  cases hr with
  | tuple _ ht hall => exact ⟨ht, hall⟩
  | error l herr =>
    rw [herr] at hok
    cases hok

theorem Resolves.of_error (hr : Resolves h cs v) (herr : v.hasValue = false) :
    ∃ l, LeafOf h cs l ∧ (h.states l).result_ = some v ∧ ∀ l', LeafOf h cs l' → l' ≠ l →
      ∃ w, (h.states l').result_ = some w ∧ w.hasValue = true := by
  cases hr with
  | tuple hok =>
    rw [herr] at hok
    cases hok
  | error l _ hl hv hother => exact ⟨l, hl, hv, hother⟩

/-- The side `x` has failed, and the other one has not. -/
theorem resolves_of_failed {c₁ c₂ : ℕ} {x : Side} {b : Val V}
    (ho : h.origin cs = some (.concur .bothOk c₁ c₂)) (herr : v.hasValue = false)
    (hb : b.hasValue = true) (hx : Resolves h (x.pick c₁ c₂) v)
    (hy : Resolves h (x.other.pick c₁ c₂) b) : Resolves h cs v := by
  obtain ⟨l, hl, hv, hother⟩ := hx.of_error herr
  refine .error l herr (.side x ho hl) hv fun l' hl' hne => ?_
  obtain ⟨t, ht⟩ := leafOf_bothOk ho hl'
  obtain rfl | rfl := Side.eq_or_eq_other x t
  · exact hother l' ht hne
  · exact (hy.of_value hb).2 l' ht

/-- Both children have resolved, and the node has found their results in some order. -/
theorem exists_arrivals {s : State V ρ} (hs : (machine V ρ).ReachableVia Safe s)
    (hidle : s.Idle) {c₁ c₂ : ℕ} (ho : s.heap.origin cs = some (.concur .bothOk c₁ c₂))
    (hv : (s.heap.states cs).result_ = some v) : ∃ (x : Side) (a b : Val V),
      (s.heap.states (x.pick c₁ c₂)).result_ = some a ∧
      (s.heap.states (x.other.pick c₁ c₂)).result_ = some b ∧
      (a.hasValue = true ∨ b.hasValue = true) ∧ Concur.bothOk.outcome
        [(x, Concur.bothOk.seen a), (x.other, Concur.bothOk.seen b)] = some v := by
  have hl := ledger_of_reachable hs.reachable
  have hsettled := (settled_of_safe hs).1
  rw [instrs_of_idle hidle] at hl hsettled
  obtain ⟨hr, -, -⟩ := sound_of_safe hs
  obtain ⟨n, hn, howner, hop, l, hpre, hout⟩ := (hr.result cs v hv).of_concur ho
  · have houtcome : (s.heap.nodes n).outcome = some v := by
      obtain ⟨l', hl'⟩ := hpre
      rw [ProtectedPromise.outcome, hop, ← hl']
      exact outcome_append hout l'
    obtain ⟨x, a', b', harrivals⟩ := arrivals_of_idle hl hsettled hn houtcome
    have hfind : ∀ t u, (t, u) ∈ (s.heap.nodes n).arrivals → ∃ w,
        (s.heap.states (t.pick c₁ c₂)).result_ = some w ∧ u = Concur.bothOk.seen w := by
      intro t u ha
      obtain ⟨w, ⟨c, hc, hw⟩, hu⟩ := hr.arrivals n t u ha
      have hcs : Consumes s.heap n t (t.pick c₁ c₂) :=
        ⟨hn, c₁, c₂, by rw [howner, hop]; exact ho, rfl⟩
      rw [consumes_unique hc hcs] at hw
      rw [hop] at hu
      exact ⟨w, hr.called _ w hw, hu⟩
    obtain ⟨a, ha, rfl⟩ := hfind x a' (by rw [harrivals]; simp)
    obtain ⟨b, hb, rfl⟩ := hfind x.other b' (by rw [harrivals]; simp)
    refine ⟨x, a, b, ha, hb, ?_, ?_⟩
    · have herrors := errors_of_safe hs n hop
      rw [ProtectedPromise.errors, harrivals] at herrors
      by_contra hnone
      rw [not_or, Bool.not_eq_true, Bool.not_eq_true] at hnone
      simp [Concur.seen, hnone.1, hnone.2] at herrors
    · rw [← houtcome, ProtectedPromise.outcome, hop, harrivals]

/-- **A tree resolves** with the tuple of its leaves, or with the error of the one that has
failed. -/
theorem resolves_of_tree {s : State V ρ} (hs : (machine V ρ).ReachableVia Safe s)
    (hidle : s.Idle) {e : Expr V ρ} (ht : e.BothOkTree) (he : Evaluates s.heap e (.future cs))
    (hv : (s.heap.states cs).result_ = some v) : Resolves s.heap cs v := by
  induction ht generalizing cs v with
  | contract =>
    cases he with
    | contract ho =>
      cases hval : v.hasValue with
      | true =>
        refine .tuple hval (.leaf ho hv hval) fun l hl => ?_
        rw [leafOf_contract ho hl]
        exact ⟨v, hv, hval⟩
      | false =>
        exact .error cs hval (.leaf ho) hv fun l hl hne => absurd (leafOf_contract ho hl) hne
  | bothOk _ _ ih₁ ih₂ =>
    cases he with
    | @concur _ _ _ c₁ c₂ _ he₁ he₂ ho =>
      obtain ⟨x, a, b, ha, hb, hone, hout⟩ := exists_arrivals hs hidle ho hv
      have ih : ∀ (t : Side) u, (s.heap.states (t.pick c₁ c₂)).result_ = some u →
          Resolves s.heap (t.pick c₁ c₂) u := by
        intro t u hu
        cases t
        · exact ih₁ he₁ hu
        · exact ih₂ he₂ hu
      have hx := ih x a ha
      have hy := ih x.other b hb
      cases hva : a.hasValue with
      | false =>
        -- the side `x` has failed, so the other one has not
        have hvb : b.hasValue = true := by simpa [hva] using hone
        obtain rfl : a = v := by simpa [Concur.outcome, Concur.seen, hva, hvb] using hout
        exact resolves_of_failed ho hva hvb hx hy
      | true =>
        cases hvb : b.hasValue with
        | false =>
          have hok : (Val.ok a.value).hasValue = true := rfl
          obtain rfl : b = v := by simpa [Concur.outcome, Concur.seen, hva, hvb, hok] using hout
          rw [← x.other_other] at hx
          exact resolves_of_failed ho hvb hva hy hx
        | true =>
          obtain ⟨hta, halla⟩ := hx.of_value hva
          obtain ⟨htb, hallb⟩ := hy.of_value hvb
          have hok : ∀ w : Val V, (Val.ok w).hasValue = true := fun _ => rfl
          obtain rfl : .ok (x.tuple a.value b.value) = v := by
            simpa [Concur.outcome, Concur.seen, hva, hvb, hok, Val.value] using hout
          refine .tuple rfl ?_ fun l hl => ?_
          · cases x
            · exact .bothOk ho hta htb
            · exact .bothOk ho htb hta
          · obtain ⟨t, ht⟩ := leafOf_bothOk ho hl
            obtain rfl | rfl := Side.eq_or_eq_other x t
            · exact halla l ht
            · exact hallb l ht

end Trees

/-! ## Exactly once -/

/-- No promise is set twice, and when nothing is pending, the trees have resolved, once. -/
structure ResolvedOnce (s : State V ρ) : Prop where
  noFault : s.heap.fault = false
  once : ∀ cs, (s.heap.states cs).sets ≤ 1
  complete : s.Idle → ∀ r e, s.heap.roots[r]? = some e → e.BothOkTree →
    ∃ cs v, Evaluates s.heap e (.future cs) ∧ s.heap.deliveries r = [v] ∧ Resolves s.heap cs v

/-- **A tree of `BothOk` resolves exactly once**, in every run in which no callback of a node
gets an error after the other one got one. -/
theorem bothOk_resolves_once {s : State V ρ} (hs : (machine V ρ).ReachableVia Safe s) :
    ResolvedOnce s := by
  obtain ⟨hfault, honce, hcalled, -, hcomplete⟩ := delivered_of_safe hs
  refine ⟨hfault, fun cs => (honce cs).1, fun hidle r e he ht => ?_⟩
  obtain ⟨cs, v, hev, -, hw, hv⟩ := hcomplete hidle r e he
  have hresult : (s.heap.states cs).result_ = some v := by
    refine hcalled cs v ?_
    rw [hw]
    exact List.mem_singleton_self v
  exact ⟨cs, v, hev, hv, resolves_of_tree hs hidle ht hev hresult⟩

/-- One of two leaves fails. -/
theorem bothOk_resolves_once_failed : ∃ s, (machine ℕ Unit).ReachableVia Safe s ∧ s.Idle ∧
    s.heap.deliveries 0 = [.err (.plain 1)] ∧ ResolvedOnce s := by
  have hinit : (machine ℕ Unit).ReachableVia Safe ⟨.empty, []⟩ := .init rfl
  obtain ⟨s, hs, hp⟩ := hinit.exec_any
    (twoLeaves (.value (.err (.plain 1))) (.value (.ok (.plain 2))) 14 10)
    (fun s => decide (s.Idle ∧ s.heap.deliveries 0 = [.err (.plain 1)])) (by decide +kernel)
  obtain ⟨hidle, hout⟩ := of_decide_eq_true hp
  exact ⟨s, hs, hidle, hout, bothOk_resolves_once hs⟩

/-- Both leaves fail: the promise is set again after it was taken. -/
theorem bothOk_set_twice : ∃ s, (machine ℕ Unit).Reachable s ∧ (machine ℕ Unit).exec
    (twoLeaves (.value (.err (.plain 1))) (.value (.err (.plain 2))) 14 8) ⟨.empty, []⟩ = some s ∧
      s.heap.fault = true := by
  have hrun : ((machine ℕ Unit).exec
      (twoLeaves (.value (.err (.plain 1))) (.value (.err (.plain 2))) 14 8) ⟨.empty, []⟩).any
      (fun s => s.heap.fault) = true := by decide +kernel
  have hinit : (machine ℕ Unit).Reachable ⟨.empty, []⟩ := .init rfl
  obtain ⟨s, hexec, hfault⟩ := (Option.any_eq_true _ _).mp hrun
  exact ⟨s, hinit.exec _ hexec, hexec, hfault⟩

end Exe.Future
