import Backprop.Proofs.Differentiable

/-!
# Closure under differentiation

Every call on entries of a heap that can be differentiated succeeds, whatever
is seeded and recomputed, and leaves such a heap. So its results can be
differentiated in turn, as often as one likes.
-/

namespace Backprop

/-! ## Calls -/

/-- The value is the entry, or a node and the entry its first output. -/
inductive Value.Stands : Value → Entry → Prop
  | entry (e : Entry) : Stands (.entry e) e
  | node (n : NodeId) : Stands (.node n) ⟨n, 0⟩

inductive Value.StandsFor : Value → List Entry → Prop
  | one {v : Value} {e : Entry} (hv : v.Stands e) : StandsFor v [e]
  | list {items : List Value} {es : List Entry} (hi : List.Forall₂ Stands items es) : StandsFor (.list items) es

def Value.width : Value → Nat
  | .list items => items.length
  | _ => 1

def Selector.Decides (test : Selector) (h : Heap) : Prop := ∀ n, h.Has n → ∃ b, test.holds n (h.node n) = .ok b

/-- The options say what to recompute: by a test, by the setting or by a built-in strategy. -/
inductive Options.Selects (o : Options) (h : Heap) : Prop
  | test {test : Selector} (hm : o.mirror = .selector test) (ht : test.Decides h)
  | setting (hm : o.mirror.isNull = true) (hs : o.strategy = .value .null)
  | strategy {name : String} (hm : o.mirror.isNull = true) (hname : name ∈ StrategyTable.builtin.members)
    (hs : o.strategy = .value (.text name) ∨ o.strategy = .member name)
    (hnames : name = "UserDefined" → ∃ names, nameSet o.recompute = .ok names)

structure Call where
  ys : Value
  xs : Value
  options : Options := {}

namespace Call

def run (c : Call) : Build (List Entry) := Build.gradients RuleBook.builtins StrategyTable.builtin c.ys c.xs c.options

/-- The call is about entries of the heap, with as many seeds as outputs, if any, and adds gradients up. -/
structure Fits (c : Call) (h : Heap) : Prop where
  xs : ∃ xs, c.xs.StandsFor xs ∧ ∀ x ∈ xs, h.HasEntry x
  ys : ∃ ys, c.ys.StandsFor ys ∧ (∀ y ∈ ys, h.HasEntry y) ∧ (c.options.seeds.isNull = true ∨
    ∃ seeds, c.options.seeds.StandsFor seeds ∧ seeds.length = ys.length ∧ ∀ s ∈ seeds, h.HasEntry s)
  aggregate : Request.aggregatorOf c.options.aggregate = Aggregator.standard
  mirror : c.options.Selects h

end Call

section Calls
variable {a : Ambient} {w : Workspace}

/-- What old nodes depend on is old. -/
theorem Heap.GrowsTo.has_of_reachable {h h' : Heap} (hg : h.GrowsTo h')
    (hclosed : ∀ c, h.Has c → ∀ p ∈ h.predecessors c, h.Has p) {heads : List NodeId} (hh : ∀ r ∈ heads, h.Has r)
    {n : NodeId} (hn : h'.Reachable heads n) : h.Has n := by
  refine hn.induct hh fun c _ hc p hp => hclosed c hc p ?_
  unfold Heap.predecessors at hp ⊢
  rwa [hg.node_eq c hc] at hp

theorem Heap.WellFormed.has_of_reachable {h h' : Heap} (hw : h.WellFormed) (hg : h.GrowsTo h') {heads : List NodeId}
    (hh : ∀ r ∈ heads, h.Has r) {n : NodeId} (hn : h'.Reachable heads n) : h.Has n :=
  hg.has_of_reachable (fun _ _ _ hp => hw.has_predecessor hp) hh hn

theorem Value.Stands.toEntry {h : Heap} {v : Value} {e : Entry} (hv : v.Stands e) (he : h.HasEntry e) :
    v.toEntry h = .ok e := by
  cases hv with
  | entry e => rfl
  | node n =>
    have hpos : (0 : Int) < (h.node n).outputs := he.2
    have hrange : ¬ ((0 : Int) < 0 ∨ (h.node n).outputs ≤ 0) := by omega
    show h.entry n 0 = _
    unfold Heap.entry
    simp only [if_neg hrange]
    rfl

theorem Value.itemsToEntries_of_stands {h : Heap} {items : List Value} {es : List Entry}
    (hi : List.Forall₂ Value.Stands items es) (hes : ∀ e ∈ es, h.HasEntry e) : Value.itemsToEntries h items = .ok es := by
  induction hi with
  | nil => rfl
  | cons hv _ ih =>
    rw [List.forall_mem_cons] at hes
    rw [Value.itemsToEntries, hv.toEntry hes.1, ih hes.2]
    rfl

theorem Value.StandsFor.toEntries {h : Heap} {v : Value} {es : List Entry} (hv : v.StandsFor es)
    (hes : ∀ e ∈ es, h.HasEntry e) : v.toEntries h = .ok es := by
  cases hv with
  | @one v e hv =>
    have hone := hv.toEntry (hes e (by simp))
    cases hv with
    | entry e => rfl
    | node n => rw [Value.toEntries, hone]; rfl
  | list hi => exact Value.itemsToEntries_of_stands hi hes

theorem Value.StandsFor.not_null {v : Value} {es : List Entry} (hv : v.StandsFor es) : v.isNull = false := by
  cases hv with
  | one hv => cases hv <;> rfl
  | list hi => rfl

theorem Value.StandsFor.length_eq {v : Value} {es : List Entry} (hv : v.StandsFor es) : es.length = v.width := by
  cases hv with
  | one hv => cases hv <;> rfl
  | list hi => exact hi.length_eq.symm

theorem Build.toEntries_run {v : Value} {es : List Entry} (hv : v.StandsFor es) (hes : ∀ e ∈ es, w.heap.HasEntry e)
    (a : Ambient) : Build.toEntries v a w = .ok es w := by
  show Build.ofExcept (v.toEntries w.heap) a w = _
  rw [hv.toEntries hes]
  rfl

theorem Build.defaultSeeds_run (ha : a.Standard) : ∀ (ys : List Entry) (w : Workspace),
    ∃ es w', Build.defaultSeeds (.text "ones_like") ys a w = .ok es w' ∧ es.length = ys.length
  | [], w => ⟨[], w, rfl, rfl⟩
  | y :: rest, w => by
    have hop : a.ops.find "ones_like" = .ok builtinOps[2] := ha.ops builtinOps[2] (List.getElem_mem _)
    have hc : builtinOps[2].accepts [y].length = true := rfl
    obtain ⟨n, w₁, happly, -, happlies⟩ := Build.apply_run hop hc (some ((w.heap.node y.node).name ++ "_seed")) [] w
    rw [List.map_cons, List.map_nil] at happly
    obtain ⟨es, w₂, hrest, hlen⟩ := defaultSeeds_run ha rest w₁
    refine ⟨⟨n, 0⟩ :: es, w₂, ?_, by rw [List.length_cons, List.length_cons, hlen]⟩
    rw [Build.defaultSeeds, run_bind_ok (r := w.heap) (u := w) rfl]
    rw [run_bind_ok happly, run_bind_ok (Build.entry_run happlies (by decide) a), run_bind_ok hrest]
    rfl

theorem Build.yields_seedsFor (ha : a.Default) {ys : List Entry} (hys : ∀ y ∈ ys, w.heap.HasEntry y) {seeds : Value}
    (hseeds : seeds.isNull = true ∨ ∃ es, seeds.StandsFor es ∧ es.length = ys.length ∧ ∀ e ∈ es, w.heap.HasEntry e) :
    Policy.builtin.Yields (Build.seedsFor ys seeds) a w fun es h => es.length = ys.length ∧ ∀ e ∈ es, h.HasEntry e := by
  unfold Build.seedsFor
  rcases hseeds with hnull | ⟨es, hes, hlen, hhas⟩
  · rw [if_pos hnull]
    have hsetting : Build.setting ["autodiff", "seed_op"] a w = .ok (.text "ones_like") w := by
      show Build.ofExcept (a.profile.get ["autodiff", "seed_op"]) a w = _
      rw [ha.seed]
      rfl
    refine .step hsetting rfl ?_
    obtain ⟨es, w', hrun, hlen⟩ := Build.defaultSeeds_run ha.toStandard ys w
    have hpermits : ∀ text, Datum.text "ones_like" = .text text → Policy.builtin.Permits a text := fun text htext =>
      Policy.builtin_permitsSeeds ha text (htext ▸ ha.seed)
    have hmakes := Build.makes_defaultSeeds hpermits hys
    exact (Policy.Yields.of_makes hmakes hrun (R := fun es _ => es.length = ys.length) hlen).mono fun _ _ _ h => h.symm
  · rw [if_neg (by rw [hes.not_null]; decide)]
    exact .of_ok (Build.toEntries_run hes hhas a) rfl ⟨hlen, hhas⟩

theorem Selector.ofNode_decides (test : Node → Datum) (h : Heap) : (Selector.ofNode test).Decides h :=
  fun _ _ => ⟨_, rfl⟩

theorem StrategyTable.selector_builtin {name : String} (hname : name ∈ builtin.members) {ref : StrategyRef}
    (href : ref = .value (.text name) ∨ ref = .member name) {recompute : Datum}
    (hnames : name = "UserDefined" → ∃ names, nameSet recompute = .ok names) :
    ∃ found, builtin.selector ref recompute = .ok found ∧ ∀ test ∈ found, ∀ h, test.Decides h := by
  have hmake : builtin.selector ref recompute = builtin.makeFor name recompute := by
    rcases href with rfl | rfl
    · exact if_pos (List.contains_iff_mem.mpr hname)
    · rfl
  rw [hmake]
  simp only [builtin, List.mem_cons, List.not_mem_nil, or_false] at hname
  rcases hname with rfl | rfl | rfl
  · exact ⟨none, rfl, by simp⟩
  · refine ⟨some Selector.operators, rfl, fun test htest h => ?_⟩
    cases htest
    exact Selector.ofNode_decides _ h
  · obtain ⟨names, hset⟩ := hnames rfl
    refine ⟨some (Selector.operatorsNamed names), ?_, fun test htest h => ?_⟩
    · show userDefined recompute = _
      unfold userDefined
      split
      · cases hset
      · rw [hset]; rfl
    · cases htest
      exact Selector.ofNode_decides _ h

theorem Build.mirrorTest_run (ha : a.Default) {o : Options} {h : Heap} (ho : o.Selects h) (w : Workspace) :
    ∃ mirror, Build.mirrorTest StrategyTable.builtin o a w = .ok mirror w ∧
      ∀ test ∈ Request.testOf mirror, test.Decides h := by
  unfold Build.mirrorTest
  cases ho with
  | @test test hm ht =>
    rw [hm]
    refine ⟨.selector test, rfl, fun test' htest => ?_⟩
    cases htest
    exact ht
  | setting hm hs =>
    have hsetting : Build.setting ["autodiff", "mirror_strategy"] a w = .ok (.text "StoreAll") w := by
      show Build.ofExcept (a.profile.get ["autodiff", "mirror_strategy"]) a w = _
      rw [ha.strategy]
      rfl
    rw [if_pos hm, hs]
    dsimp only
    rw [run_bind_ok hsetting]
    exact ⟨.null, rfl, fun test htest => by cases htest⟩
  | strategy hm hname hs hnames =>
    obtain ⟨found, hfound, hdecides⟩ := StrategyTable.selector_builtin hname hs hnames
    have hrun : Build.ofExcept (StrategyTable.builtin.selector o.strategy o.recompute) a w = .ok found w := by
      rw [hfound]
      rfl
    rw [if_pos hm]
    refine ⟨found.elim .null .selector, ?_, ?_⟩
    · rcases hs with hs | hs
      all_goals
        rw [hs] at hrun ⊢
        dsimp only
        rw [pure_bind, run_bind_ok hrun]
        cases found <;> rfl
    · cases found with
      | none => exact fun test htest => by cases htest
      | some test => exact fun test' htest => hdecides test' htest h

theorem Call.yields_run (ha : a.Default) (hd : w.heap.Differentiable) {c : Call} (hc : c.Fits w.heap) :
    Policy.builtin.Yields c.run a w fun es h => es.length = c.xs.width ∧ ∀ e ∈ es, h.HasEntry e := by
  obtain ⟨xs, hxs, hxs'⟩ := hc.xs
  obtain ⟨ys, hys, hys', hseeds⟩ := hc.ys
  unfold Call.run Build.gradients
  refine .step (Build.toEntries_run hys hys' a) rfl (.step (Build.toEntries_run hxs hxs' a) rfl ?_)
  refine (Build.yields_seedsFor ha hys' hseeds).bind fun seeds w₁ hx ⟨hlen, hseeds'⟩ => ?_
  obtain ⟨mirror, hmirror, htest⟩ := Build.mirrorTest_run ha hc.mirror w₁
  have hd₁ := hd.extends hx
  have hgrows : ∀ {es : List Entry}, (∀ e ∈ es, w.heap.HasEntry e) → ∀ e ∈ es, w₁.heap.HasEntry e :=
    fun hes e he => (hes e he).grows hx.grows
  let p : Problem :=
    { ys, seeds, xs, aggregate := Request.aggregatorOf c.options.aggregate, mirror := Request.testOf mirror }
  have hp : p.Fits w₁.heap := ⟨hd₁.wellFormed, hgrows hys', hgrows hxs', fun n _ => hd₁.acyclic n⟩
  have hrelay := (Build.generate_ofEntries hlen.symm xs c.options.aggregate mirror RuleBook.builtins a w₁).trans
    (Build.sweep_eq_relay hp RuleBook.builtins_follows.grows (hc.aggregate ▸ Aggregator.standard_proper))
  -- the test is asked only about nodes that were there before the seeds
  have hdecides : ∀ test ∈ p.mirror, ∀ n ∈ p.order w₁.heap, ∃ b, test.holds n (w₁.heap.node n) = .ok b := by
    intro test hmem n hn
    have hold : w.heap.Has n := hd.wellFormed.has_of_reachable hx.grows (fun r hr => by
      obtain ⟨y, hy, rfl⟩ := List.mem_map.mp hr
      exact (hys' y hy).1) (hp.arranged.reachable n (List.mem_reverse.mpr hn))
    rw [hx.grows.node_eq n hold]
    exact htest test hmem n hold
  refine .step hmirror rfl (.bind (.congr hrelay (Build.yields_relay ha hd₁ hp hc.aggregate hseeds' hdecides))
    fun g w₂ _ hg => .pure ?_)
  rw [← hxs.length_eq]
  exact hg

end Calls

/-! ## Calls on what earlier calls returned -/

/-- A sequence of calls, each of which may depend on what the calls before returned. -/
inductive Plan where
  | done
  | call (c : Call) (next : List Entry → Plan)

namespace Plan

def run : Plan → Build (List (List Entry))
  | done => return []
  | call c next => do
    let es ← c.run
    return es :: (← (next es).run)

/-- Every call is about entries that are there by then: those of the heap and one result for each requested entry of
the calls before. -/
def Fits : Plan → Heap → Prop
  | done, _ => True
  | call c next, h => c.Fits h ∧ ∀ (es : List Entry) (h' : Heap), h.GrowsTo h' → h'.Differentiable →
      es.length = c.xs.width → (∀ e ∈ es, h'.HasEntry e) → (next es).Fits h'

theorem yields_run {a : Ambient} (ha : a.Default) (plan : Plan) : ∀ {w : Workspace}, w.heap.Differentiable →
    plan.Fits w.heap → Policy.builtin.Yields plan.run a w fun results h => ∀ es ∈ results, ∀ e ∈ es, h.HasEntry e := by
  induction plan with
  | done => exact fun _ _ => .pure (by simp)
  | call c next ih =>
    intro w hd ⟨hc, hnext⟩
    refine (Call.yields_run ha hd hc).bind fun es w₁ hx₁ ⟨hlen, hes⟩ => ?_
    have hd₁ := hd.extends hx₁
    refine (ih es hd₁ (hnext es w₁.heap hx₁.grows hd₁ hlen hes)).bind fun results w₂ hx₂ hresults => .pure ?_
    refine List.forall_mem_cons.mpr ⟨fun e he => ?_, hresults⟩
    exact (hes e he).grows hx₂.grows

end Plan

/-- Every call on entries of a heap that can be differentiated succeeds, with one entry for each that is requested, and
leaves such a heap, as does every sequence of calls on what is there by then. -/
theorem Call.closed_under_differentiation {a : Ambient} {w : Workspace} (ha : a.Default) (hd : w.heap.Differentiable) :
    (∀ c : Call, c.Fits w.heap → ∃ es w', c.run a w = .ok es w' ∧ w'.heap.Differentiable ∧ w.heap.GrowsTo w'.heap ∧
      es.length = c.xs.width ∧ ∀ e ∈ es, w'.heap.HasEntry e) ∧
    ∀ plan : Plan, plan.Fits w.heap → ∃ results w', plan.run a w = .ok results w' ∧ w'.heap.Differentiable ∧
      w.heap.GrowsTo w'.heap ∧ ∀ es ∈ results, ∀ e ∈ es, w'.heap.HasEntry e := by
  constructor
  · intro c hc
    obtain ⟨es, w', hrun, hx, hlen, hes⟩ := (Call.yields_run ha hd hc).succeeds
    exact ⟨es, w', hrun, hd.extends hx, hx.grows, hlen, hes⟩
  · intro plan hp
    obtain ⟨results, w', hrun, hx, hresults⟩ := (plan.yields_run ha hd hp).succeeds
    exact ⟨results, w', hrun, hd.extends hx, hx.grows, hresults⟩

theorem Heap.sample_differentiable : Heap.sample.Differentiable where
  wellFormed := sample_ascending.wellFormed
  acyclic n := sample_ascending.acyclicFrom [n] n ⟨n, by simp, .refl⟩
  strays n hn := by
    have hall : ∀ i < Heap.sample.size, (Heap.sample.node ⟨i⟩).strays.isNone = true := by decide
    exact Option.isNone_iff_eq_none.mp (hall n.index hn)
  operators n hn := by
    have hall : ∀ i < Heap.sample.size, ∀ op ∈ (Heap.sample.node ⟨i⟩).op, op ∈ builtinOps ∧
        op.accepts (Heap.sample.node ⟨i⟩).inputs.length = true := by decide
    exact hall n.index hn

/-- The sum by both variables, then the sum of both results by the first, everything recomputed, and once more, with
its own result as seed. -/
def Plan.sample : Plan :=
  .call { ys := .node ⟨4⟩, xs := .list [.node ⟨0⟩, .entry ⟨⟨1⟩, 0⟩] } fun first =>
  .call { ys := .ofEntries first, xs := .node ⟨0⟩, options := { strategy := .value (.text "RecomputeAll") } } fun second =>
  .call { ys := .ofEntries second, xs := .ofEntries first, options := { seeds := .ofEntries second } } fun _ => .done

theorem Value.standsFor_ofEntries (es : List Entry) : (Value.ofEntries es).StandsFor es := by
  refine .list ?_
  rw [List.forall₂_map_left_iff]
  exact List.forall₂_same.mpr fun e _ => .entry e

theorem Plan.sample_fits : Plan.sample.Fits Heap.sample := by
  have hx : Heap.sample.HasEntry ⟨⟨0⟩, 0⟩ := by decide
  have hy : Heap.sample.HasEntry ⟨⟨1⟩, 0⟩ := by decide
  have hr : Heap.sample.HasEntry ⟨⟨4⟩, 0⟩ := by decide
  refine ⟨⟨⟨[⟨⟨0⟩, 0⟩, ⟨⟨1⟩, 0⟩], .list (.cons (.node _) (.cons (.entry _) .nil)), by simp [hx, hy]⟩,
    ⟨[⟨⟨4⟩, 0⟩], .one (.node _), by simp [hr], .inl rfl⟩, rfl, .setting rfl rfl⟩, ?_⟩
  intro first h₁ hg₁ _ _ hfirst
  refine ⟨⟨⟨[⟨⟨0⟩, 0⟩], .one (.node _), by simpa using hx.grows hg₁⟩,
    ⟨first, Value.standsFor_ofEntries first, hfirst, .inl rfl⟩, rfl, ?_⟩, ?_⟩
  · exact .strategy rfl (by decide) (.inl rfl) fun hname => absurd hname (by decide)
  intro second h₂ hg₂ _ _ hsecond
  refine ⟨⟨⟨first, Value.standsFor_ofEntries first, fun e he => (hfirst e he).grows hg₂⟩,
    ⟨second, Value.standsFor_ofEntries second, hsecond, .inr ?_⟩, rfl, .setting rfl rfl⟩, fun _ _ _ _ _ _ => trivial⟩
  exact ⟨second, Value.standsFor_ofEntries second, rfl, hsecond⟩

theorem Call.closed_under_differentiation_sample :
    ∃ results w, Plan.sample.run .initial { heap := .sample } = .ok results w ∧ w.heap.Differentiable ∧
      Heap.sample.GrowsTo w.heap ∧ ∀ es ∈ results, ∀ e ∈ es, w.heap.HasEntry e :=
  (Call.closed_under_differentiation (w := { heap := .sample }) Ambient.initial_default
    Heap.sample_differentiable).2 Plan.sample Plan.sample_fits

end Backprop
