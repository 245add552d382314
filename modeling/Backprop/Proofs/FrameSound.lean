import Backprop.Proofs.SweepCreation
import Backprop.Session

/-!
# The source is never changed

Differentiating and mirroring add nodes to a session and do nothing else to it,
whether the call succeeds or fails. What is asked of custom rules and
aggregators is that they do no more than that either; all rules made of
expressions and all ready-made aggregators do not.
-/

namespace Backprop

def Policy.any : Policy where
  reads h e := h.Has e.node
  makes _ := True
  has he := he
  grows hg he := hg.has he
  output hn he := by
    unfold Heap.entry at he
    simp only at he
    split at he
    · cases he
    · cases he; exact hn
  image _ hn _ := hn
  copy _ _ := trivial

theorem Policy.any_permits (a : Ambient) (op : String) : Policy.any.Permits a op := fun _ _ _ _ _ => trivial

theorem Policy.any_permitsSums (a : Ambient) : Policy.any.PermitsSums a :=
  ⟨fun _ _ _ _ => trivial, fun _ _ _ _ _ _ => trivial⟩

theorem Policy.any_governs {h : Heap} (hw : h.WellFormed) (hs : ∀ n, h.Has n → (h.node n).strays = none) :
    Policy.any.Governs h := by
  intro n hn
  refine ⟨trivial, fun e he => (hw.inputs n hn e he).1, hw.deps n hn, fun l hl => ?_⟩
  rw [hs n hn] at hl
  cases hl

/-! ## Ready-made aggregators -/

namespace Reduction
variable {a : Ambient} {w : Workspace}

theorem makes_aggregate (hg : Policy.any.Governs w.heap) {es : List Entry} (hes : ∀ e ∈ es, w.heap.Has e.node) :
    Policy.any.Makes (Build.aggregate (es.map .entry)) a w fun v h => v.Within .any h :=
  Aggregator.standard_keeps (Policy.any_permitsSums a) es w hg hes

theorem makes_addUp : ∀ {es : List Entry} {acc : Value} {w : Workspace}, acc.Within .any w.heap →
    (∀ e ∈ es, w.heap.Has e.node) → Policy.any.Makes (addUp acc (es.map .entry)) a w fun v h => v.Within .any h
  | [], acc, w, hacc, _ => .pure hacc
  | e :: es, acc, w, hacc, hes => by
    rw [List.map_cons, addUp]
    have hargs : ∀ v ∈ [acc, .entry e], v.Within .any w.heap := by
      intro v hv
      rcases List.mem_pair.mp hv with rfl | rfl
      · exact hacc
      · exact .entry (hes e (by simp))
    refine (Policy.makes_apply (fun _ _ => Policy.any_permits a _) hargs _ [] (by simp) _).bind fun n w₁ hx₁ hn => ?_
    refine (Policy.makes_entry hn 0).bind fun sum w₂ hx₂ hsum => makes_addUp (.entry hsum) fun e' he' => ?_
    exact (hx₁.trans hx₂).grows.has (hes e' (List.mem_cons_of_mem _ he'))

theorem makes_sumNode {es : List Entry} (hes : ∀ e ∈ es, w.heap.Has e.node) :
    Policy.any.Makes (sumNode (es.map .entry)) a w fun v h => v.Within .any h := by
  unfold sumNode Build.createOn
  refine (Policy.makes_operator _).bind fun op w₁ _ ⟨_, hw₁⟩ => ?_
  rw [Node.withLinks_map_entry]
  refine (Policy.makes_create trivial (Policy.within_applied (hw₁ ▸ hes) (by simp)) _).bind fun n w₂ _ hn => ?_
  exact (Policy.makes_entry hn.1 0).bind fun e w₃ _ he => .pure (.entry he)

theorem makes_reduce (r : Reduction) (hg : Policy.any.Governs w.heap) {es : List Entry}
    (hes : ∀ e ∈ es, w.heap.Has e.node) : Policy.any.Makes (r.reduce (es.map .entry)) a w fun v h => v.Within .any h := by
  cases r with
  | standard => exact makes_aggregate hg hes
  | alwaysSum => exact makes_sumNode hes
  | reverseSum =>
    rw [reduce, ← List.map_reverse]
    exact makes_aggregate hg fun e he => hes e (List.mem_reverse.mp he)
  | nothing => exact .pure (.data .null)
  | first =>
    cases es with
    | nil => exact makes_aggregate hg hes
    | cons e es => exact .pure (.entry (hes e (by simp)))
  | last =>
    cases es with
    | nil => exact makes_aggregate hg hes
    | cons e es =>
      obtain ⟨e', he', hlast⟩ := List.mem_map.mp (List.getLast_mem (l := (e :: es).map Value.entry) (by simp))
      exact .pure (hlast ▸ .entry (hes e' he'))
  | fold =>
    cases es with
    | nil => exact makes_aggregate hg hes
    | cons e es => exact makes_addUp (.entry (hes e (by simp))) fun e' he' => hes e' (List.mem_cons_of_mem _ he')

theorem aggregator_keeps (r : Reduction) : r.aggregator.Keeps .any a := by
  intro es w hg hes
  let w₁ : Workspace := { w with trace := w.trace.push (.reduced (es.map Value.entry).length) }
  exact .step (u := w₁) rfl rfl (r.makes_reduce (w := w₁) hg hes)

end Reduction

/-! ## Sessions -/

def Act.after {α : Type} (act : Act α) (s : Session) : Session :=
  match act s with
  | .ok _ s' => s'
  | .error _ s' => s'

structure Session.ExtendsTo (s s' : Session) : Prop where
  nodes : ∀ n, s.work.heap.Has n → s'.work.heap.Has n ∧ s'.work.heap.node n = s.work.heap.node n
  ops : s'.ops = s.ops
  book : s'.book = s.book
  profile : s'.profile = s.profile
  counts : ∀ stem, s.work.heap.count stem ≤ s'.work.heap.count stem
  earlier : ∀ n, s'.work.heap.Has n → ¬ s.work.heap.Has n → ∀ m, (s'.work.heap.node n).Refers m → m.index < n.index

theorem Act.extendsTo_of_makes {α : Type} {act : Build α} {s : Session} {Q : α → Heap → Prop}
    (h : Policy.any.Makes act (Act.ambient s) s.work Q) : s.ExtendsTo ((Act.build act).after s) := by
  have hextends : ∀ w, Policy.any.Extends s.work.heap w.heap → s.ExtendsTo { s with work := w } := fun w hx =>
    ⟨fun n hn => ⟨hx.grows.has hn, hx.grows.node_eq n hn⟩, rfl, rfl, rfl, hx.counts,
      fun n hn hno => (hx.made n hn hno).2.2⟩
  unfold Policy.Makes Policy.Leads at h
  unfold Act.after Act.build
  cases hrun : act (Act.ambient s) s.work with
  | ok r w => rw [hrun] at h; exact hextends w h.1
  | error e w => rw [hrun] at h; exact hextends w h

theorem Act.after_congr {α : Type} {act act' : Act α} {s : Session} (h : act s = act' s) :
    act.after s = act'.after s := by
  unfold Act.after
  rw [h]

/-- Computing gradients, differentiating a graph and building a mirror map only add nodes, however they end. -/
theorem Act.calls_only_extend {s : Session} (hs : Policy.any.Governs s.work.heap)
    (hb : s.book.Keeps .any (Act.ambient s)) :
    (∀ (ys xs : Value) (o : Options), ys.Within .any s.work.heap → o.seeds.Within .any s.work.heap →
      o.aggregate.Keeps .any (Act.ambient s) → s.ExtendsTo ((Act.gradients ys xs o).after s)) ∧
    (∀ g : Graph, (∀ q ∈ g.attrs, q.2.toValue.Within .any s.work.heap ∧ q.2.Keeps .any (Act.ambient s)) →
      s.ExtendsTo ((Act.differentiate g).after s)) ∧
    (∀ (order : List Value) (test : Selector) (suffix : Option Datum), (∀ v ∈ order, v.Within .any s.work.heap) →
      s.ExtendsTo ((Act.build (Build.looseMirrorMap order test suffix)).after s)) ∧
    ∀ (order : List NodeId) (test : Option Selector) (suffix : Option Datum), (∀ n ∈ order, s.work.heap.Has n) →
      s.ExtendsTo ((Act.build (Build.mirrorMap order test suffix)).after s) := by
  have hsums := Policy.any_permitsSums (Act.ambient s)
  refine ⟨fun ys xs o hys hseeds hf => ?_, fun g hg => ?_, fun order test suffix ho => ?_, fun order test suffix ho => ?_⟩
  · have hcall : Act.gradients ys xs o s = Act.build (Build.gradients s.book s.strategies ys xs o) s := rfl
    rw [after_congr hcall]
    have hpermits : Policy.any.PermitsSeeds (Act.ambient s) := fun _ _ => Policy.any_permits _ _
    exact extendsTo_of_makes (Build.makes_gradients hb hpermits hsums hs hys hseeds hf s.strategies xs)
  · have hcall : Act.differentiate g s = Act.build (Build.differentiate s.book g) s := rfl
    rw [after_congr hcall]
    exact extendsTo_of_makes (Build.makes_differentiate hb hsums hs hg)
  · exact extendsTo_of_makes (Build.makes_looseMirrorMap hs ho test suffix)
  · exact extendsTo_of_makes (Build.makes_mirrorMap hs ho test suffix)

def Session.sample : Session where
  work := { heap := .sample }
  profile := Ambient.initial.profile
  book := ("custom.ExpGradient",
    { implementation := { name := "ExpGradient", path := "custom.ExpGradient", rule := some (RuleExpr.rule
        [.apply "elemwise_mul" [.gradient 0, .apply "exp" [.input 0] none] (some "@_again")]) }
      args := [("op", .text "exp"), ("name", .text "default")] }) :: RuleBook.builtins

theorem Session.sample_formed : Session.sample.book.Formed := by
  intro q hq rule hr
  rcases List.mem_cons.mp hq with rfl | hq
  · exact .inr ⟨_, (Option.some.inj hr).symm⟩
  · exact RuleBook.builtins_follows.formed q hq rule hr

theorem Act.calls_only_extend_sample :
    Session.sample.ExtendsTo ((Act.gradients (.list [.entry ⟨⟨4⟩, 0⟩, .node ⟨3⟩]) (.list [.node ⟨0⟩, .data .null])
      { aggregate := .aggregator Reduction.fold.aggregator, strategy := .member "RecomputeAll" }).after .sample) ∧
    Session.sample.ExtendsTo ((Act.differentiate { attrs := [("grad_ys", .value (.list [.entry ⟨⟨4⟩, 0⟩])),
      ("grad_ys_out_grad", .value (.list [.entry ⟨⟨7⟩, 0⟩])), ("grad_xs", .value (.list [.entry ⟨⟨2⟩, 0⟩])),
      ("grad_aggregate_fun", .aggregator Reduction.alwaysSum.aggregator)] }).after .sample) ∧
    Session.sample.ExtendsTo ((Act.build (Build.looseMirrorMap [.node ⟨0⟩, .node ⟨1⟩, .data (.int 7), .node ⟨2⟩]
      .operators none)).after .sample) := by
  have hstrays : ∀ i < 8, (Heap.sample.node ⟨i⟩).strays.isNone = true := by decide
  have hs : Policy.any.Governs Session.sample.work.heap := Policy.any_governs Heap.sample_ascending.wellFormed
    fun n hn => Option.isNone_iff_eq_none.mp (hstrays n.index hn)
  have hb : Session.sample.book.Keeps .any (Act.ambient .sample) := Session.sample_formed.keeps (Policy.any_permits _)
  have hhas : ∀ i < 8, Session.sample.work.heap.Has ⟨i⟩ := fun i hi => hi
  obtain ⟨hgradients, hdifferentiate, hmirror, -⟩ := calls_only_extend hs hb
  have hkeeps : ∀ r : Reduction, (Arg.aggregator r.aggregator).Keeps .any (Act.ambient .sample) := by
    intro r f hf
    cases hf
    exact r.aggregator_keeps
  have hlist : ∀ i < 8, (Arg.value (.list [.entry ⟨⟨i⟩, 0⟩])).toValue.Within .any Session.sample.work.heap ∧
      (Arg.value (.list [.entry ⟨⟨i⟩, 0⟩])).Keeps .any (Act.ambient .sample) := by
    intro i hi
    exact ⟨.list (List.forall_mem_singleton.mpr (.entry (hhas i hi))), fun f hf => by cases hf⟩
  refine ⟨hgradients _ _ _ ?_ (.data _) (hkeeps _), hdifferentiate _ ?_, hmirror _ _ _ ?_⟩
  · refine .list fun v hv => ?_
    rcases List.mem_pair.mp hv with rfl | rfl
    · exact .entry (hhas 4 (by decide))
    · exact .node (hhas 3 (by decide))
  · simp only [List.forall_mem_cons, List.not_mem_nil, false_implies, implies_true, and_true]
    exact ⟨hlist 4 (by decide), hlist 7 (by decide), hlist 2 (by decide), .object _, hkeeps _⟩
  · simp only [List.forall_mem_cons, List.not_mem_nil, false_implies, implies_true, and_true]
    exact ⟨.node (hhas 0 (by decide)), .node (hhas 1 (by decide)), .data _, .node (hhas 2 (by decide))⟩

end Backprop
