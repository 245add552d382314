import Backprop.Proofs.AggregateSound
import Backprop.Proofs.FrameSound
import Backprop.Proofs.SeveranceSound
import Mathlib.Tactic.IntervalCases

/-!
# Numbers of inputs

Seeds and rules apply operators through a check of the number of inputs.
Aggregation does not check: a zero node has no inputs and a sum node has as many
as there are gradients, whatever operators the settings name for them. So below
the gradients of a graph in which all numbers are right they are right but for
the nodes that aggregation has made, and right throughout if the operators for
zero and sum take what they are given.
-/

namespace Backprop

def Ambient.Names (a : Ambient) (key : String) (op : Op) : Prop :=
  ∃ text, a.profile.get ["autodiff", key] = .ok (.text text) ∧ a.ops.find text = .ok op

namespace Node

def Saturated (node : Node) : Prop := ∀ op ∈ node.op, op.accepts node.inputs.length = true

/-- What aggregation makes of no gradients or of several. -/
def Aggregates (a : Ambient) (node : Node) : Prop := ∃ op ∈ node.op,
  (node.inputs.length = 0 ∧ a.Names "zero_op" op) ∨ (2 ≤ node.inputs.length ∧ a.Names "sum_op" op)

end Node

/-! ## What is made -/

def Policy.arity (a : Ambient) : Policy :=
  { Policy.any with
    makes := fun node => node.Saturated ∨ node.Aggregates a
    copy := fun hm hlen => by
      unfold Node.Saturated Node.Aggregates at hm ⊢
      rw [hlen]
      exact hm }

section Arity
variable {a : Ambient}

theorem Policy.arity_permits (op : String) : (Policy.arity a).Permits a op := by
  intro op inputs attrs _ hc
  left
  intro op' hop'
  cases hop'
  exact hc

theorem Policy.arity_permitsSums : (Policy.arity a).PermitsSums a :=
  ⟨fun text op htext hop => .inr ⟨op, rfl, .inl ⟨rfl, text, htext, hop⟩⟩,
    fun text op _ htext hop hlen => .inr ⟨op, rfl, .inr ⟨hlen, text, htext, hop⟩⟩⟩

/-- Where only what the heads depend on is left, no other nodes count. -/
theorem Heap.Whole.governs_restrict {h : Heap} {heads : List NodeId} (hw : h.Whole heads)
    (hmakes : ∀ n, h.Reachable heads n → (Policy.arity a).makes (h.node n)) :
    (Policy.arity a).Governs (h.restrict heads) := by
  intro n _
  by_cases hn : n ∈ h.postorder heads
  · replace hn := hw.mem_postorder_iff.mp hn
    have hpred : ∀ p ∈ (h.node n).predecessors, (h.restrict heads).Has p := fun p hp =>
      has_restrict.mpr (hw p (hn.step hp)).1
    rw [hw.node_restrict hn]
    refine ⟨hmakes n hn, fun e he => ?_, fun d hd => ?_, fun l hl => ?_⟩
    · exact hpred e.node (List.mem_append_left _ (List.mem_map_of_mem he))
    · exact hpred d (List.mem_append_right _ hd)
    · rw [(hw n hn).2] at hl
      cases hl
  · rw [Heap.node_restrict, if_neg hn]
    refine ⟨.inl fun op hop => ?_, fun e he => ?_, fun d hd => ?_, fun l hl => ?_⟩
    · cases hop
    · cases he
    · cases hd
    · cases hl

theorem Relabelling.TwinNode.makes {r : Relabelling} {h : Heap} {node₁ node₂ : Node} (ht : r.TwinNode h node₁ node₂)
    {P : Policy} (hm : P.makes node₂) : P.makes node₁ := by
  have hnode : node₁ = { node₂ with name := node₁.name, inputs := node₁.inputs, deps := node₁.deps } := by
    obtain ⟨hop, hattrs, -, -, hs₁, hs₂⟩ := ht
    cases node₁
    cases node₂
    simp only at hop hattrs hs₁ hs₂
    rw [hop, hattrs, hs₁, hs₂]
  rw [hnode]
  exact P.copy hm ht.inputs.length_eq

/-- What is known was given, as one that may be made, or has been made. -/
theorem Relabelling.Joins.makes_of_reachable {r : Relabelling} {P : Policy} {h h₂ : Heap} {heads : List NodeId}
    (hj : r.Joins h h₂) (hx : P.Extends r.left h) (hdomain : ∀ n, r.domain n → P.makes (r.left.node n))
    (hheads : ∀ k ∈ heads, r.Known h k) : ∀ n, h.Reachable heads n → P.makes (h.node n) := by
  intro n hn
  rcases hj.known_of_reachable hheads hn with hd | ⟨hhas, hno⟩
  · rw [hx.grows.node_eq n (r.has hd)]
    exact hdomain n hd
  · exact (hx.made n hhas hno).1

variable {w w' : Workspace}

/-- The nodes that the targets do not depend on may be anything. -/
theorem Build.generate_arity {t : Targets} {mirror : Arg} {g : Graph} (hw : w.heap.Whole t.heads)
    (hmakes : ∀ n, w.heap.Reachable t.heads n → (Policy.arity a).makes (w.heap.node n))
    (hrun : Build.generate RuleBook.builtins (t.request mirror) a w = .ok g w') :
    ∀ n, w'.heap.Reachable (g.outputs.map Entry.node) n → (Policy.arity a).makes (w'.heap.node n) := by
  -- side by side with the run on what the targets depend on, where the policy governs the whole heap
  let w₀ : Workspace := { w with heap := w.heap.restrict t.heads }
  obtain ⟨g₀, w₀', hrun₀, -, hj, houtputs⟩ := Coupled.ok_left (hw.generate_restrict mirror) hrun
  have hgoverns : (Policy.arity a).Governs w₀.heap := hw.governs_restrict hmakes
  have hseeds : (Value.ofEntries t.seeds).Within (Policy.arity a) w₀.heap := by
    refine .list fun v hv => ?_
    obtain ⟨e, he, rfl⟩ := List.mem_map.mp hv
    exact .entry (Heap.has_restrict.mpr (hw e.node (Targets.reachable_of_mem (by simp [he]))).1)
  have hbook := RuleBook.builtins_follows.formed.keeps fun op => Policy.arity_permits (a := a) op
  have hmade := Build.makes_generate hbook Policy.arity_permitsSums hgoverns (r := t.request mirror) hseeds
    fun f hf => by cases hf
  have hgoverns' := hgoverns.extends (hmade.ok hrun₀).1
  intro n hn
  have hknown := hj.known_of_reachable (Relabelling.known_of_outputs houtputs) hn
  exact (hj.nodes n _ ⟨hknown, rfl⟩).makes (hgoverns' _ (hj.has₂ ⟨hknown, rfl⟩)).1

end Arity

/-! ## Seeds -/

namespace Relabelling
variable {r : Relabelling} {a : Ambient} (hr : r.Still)
include hr

theorem Still.defaultSeeds (op : Datum) : ∀ {ys : List Entry} {w : Workspace}, r.Joins w.heap w.heap →
    (∀ y ∈ ys, r.Known w.heap y.node) →
    r.Confines (Build.defaultSeeds op ys) a w fun es h => ∀ e ∈ es, r.Known h e.node
  | [], w, hj, _ => .pure hj (by simp)
  | y :: rest, w, hj, hys => by
    rw [Build.defaultSeeds]
    refine .step (p := w.heap) rfl rfl ?_
    have hy : List.Forall₂ (r.TwinValue w.heap) [.entry y] [.entry y] :=
      .cons (.entry ⟨rfl, hr.twin (hys y (by simp))⟩) .nil
    have hdeps : List.Forall₂ (r.Twin w.heap) [] [] := .nil
    refine (Confines.of_builds (Builds.apply hj hy hdeps op [] _ _)).bind fun n u hu hju hn => ?_
    refine (Confines.of_builds (Builds.entry hju hn 0)).bind fun seed v hv hjv hseed => ?_
    have hrest : ∀ y' ∈ rest, r.Known v.heap y'.node := fun y' hy' =>
      (hys y' (List.mem_cons_of_mem _ hy')).grows (hu.trans hv)
    refine (Still.defaultSeeds op hjv hrest).bind fun es u' hu' hju' hes => .pure hju' ?_
    exact List.forall_mem_cons.mpr ⟨hseed.2.1.grows hu', hes⟩

theorem Still.seedsFor {ys es : List Entry} {seeds : Value} {w w' : Workspace} (hj : r.Joins w.heap w.heap)
    (hys : ∀ y ∈ ys, r.Known w.heap y.node)
    (hseeds : ∀ es, seeds.toEntries w.heap = .ok es → ∀ e ∈ es, r.Known w.heap e.node)
    (hrun : Build.seedsFor ys seeds a w = .ok es w') :
    (Policy.arity a).Extends w.heap w'.heap ∧ r.Joins w'.heap w'.heap ∧ ∀ e ∈ es, r.Known w'.heap e.node := by
  unfold Build.seedsFor at hrun
  split at hrun
  · obtain ⟨op, u, hop, hrun⟩ := ok_of_bind hrun
    obtain ⟨-, -, hu⟩ := (Policy.makes_setting (P := .any) _).ok hop
    rw [← hu] at hj hys ⊢
    have hhas : ∀ y ∈ ys, u.heap.Has y.node := fun y hy => hj.has₁ ⟨hys y hy, rfl⟩
    have hmakes : (Policy.arity a).Makes (Build.defaultSeeds op ys) a u fun es h => ∀ e ∈ es, h.Has e.node :=
      Build.makes_defaultSeeds (fun _ _ => Policy.arity_permits _) hhas
    exact ⟨(hmakes.ok hrun).1, (Ends.ok (hr.defaultSeeds op hj hys) hrun).2⟩
  · obtain ⟨hx, hes, hu⟩ := (Build.makes_toEntries (P := .arity a) seeds).ok hrun
    rw [hu] at hx ⊢
    exact ⟨hx, hj, hseeds es hes⟩

end Relabelling

/-! ## Gradients -/

def Heap.Beneath (h : Heap) (vs : List Value) (n : NodeId) : Prop :=
  ∃ v ∈ vs, ∃ es, v.toEntries h = .ok es ∧ h.Reachable (es.map Entry.node) n

/-- The entries are what a call with default aggregation returns, and this is the heap that it leaves. All that the
arguments of the call depend on is there, with as many inputs as the operators take. -/
inductive Differentiated (a : Ambient) : List Entry → Heap → Prop
  | intro {strategies : StrategyTable} {ys xs : Value} {o : Options} {w w' : Workspace} {es : List Entry}
      (haggregate : o.aggregate = .null)
      (hforward : ∀ n, w.heap.Beneath [ys, xs, o.seeds] n →
        w.heap.Has n ∧ (w.heap.node n).strays = none ∧ (w.heap.node n).Saturated)
      (hrun : Build.gradients RuleBook.builtins strategies ys xs o a w = .ok es w') : Differentiated a es w'.heap

theorem Differentiated.arity {a : Ambient} {es : List Entry} {h : Heap} (hd : Differentiated a es h) {n : NodeId}
    (hn : h.Reachable (es.map Entry.node) n) : (h.node n).Saturated ∨ (h.node n).Aggregates a := by
  obtain @⟨strategies, ys, xs, o, w, w', _, haggregate, hforward, hrun⟩ := hd
  unfold Build.gradients at hrun
  obtain ⟨ys', w₁, hys, hrun⟩ := ok_of_bind hrun
  obtain ⟨xs', w₂, hxs, hrun⟩ := ok_of_bind hrun
  obtain ⟨seeds, w₃, hseeds, hrun⟩ := ok_of_bind hrun
  obtain ⟨mirror, w₄, hmirror, hrun⟩ := ok_of_bind hrun
  obtain ⟨g, w₅, hrun, hg⟩ := ok_of_bind hrun
  cases hg
  obtain ⟨-, hys, hw₁⟩ := (Build.makes_toEntries (P := .any) ys).ok hys
  obtain ⟨-, hxs, hw₂⟩ := (Build.makes_toEntries (P := .any) xs).ok hxs
  obtain ⟨-, hw₄⟩ := (Build.makes_mirrorTest (P := .any) strategies o).ok hmirror
  rw [hw₁] at hxs hw₂
  -- all that is made depends on the forward graph only, and on what is made
  let r : Relabelling := .within w.heap (w.heap.Beneath [ys, xs, o.seeds]) fun hn => (hforward _ hn).1
  have hr : r.Still := Relabelling.within_still
  have hj : r.Joins w.heap w.heap := by
    refine Relabelling.joins_within (fun n hn => (hforward n hn).2.1) fun n hn p hp => ?_
    obtain ⟨v, hv, es, hes, hn⟩ := hn
    exact ⟨v, hv, es, hes, hn.step hp⟩
  have hknown : ∀ v ∈ [ys, xs, o.seeds], ∀ es, v.toEntries w.heap = .ok es → ∀ e ∈ es, r.Known w.heap e.node :=
    fun v hv es hes e he => .inl ⟨v, hv, es, hes, .head (List.mem_map_of_mem he)⟩
  rw [← hw₂] at hj hknown hys hxs
  obtain ⟨hx, hj', hseeds⟩ := hr.seedsFor hj (hknown ys (by simp) ys' hys) (hknown o.seeds (by simp)) hseeds
  let t : Targets := ⟨ys', seeds, xs'⟩
  have hheads : ∀ k ∈ t.heads, r.Known w₃.heap k := by
    intro k hk
    obtain ⟨e, he, rfl⟩ := List.mem_map.mp hk
    simp only [List.mem_append, or_assoc] at he
    rcases he with he | he | he
    · exact (hknown ys (by simp) ys' hys e he).grows hx.grows
    · exact hseeds e he
    · exact (hknown xs (by simp) xs' hxs e he).grows hx.grows
  rw [hw₂] at hx
  have hmakes := hj'.makes_of_reachable hx (fun n hn => .inl (hforward n hn).2.2) hheads
  rw [haggregate] at hrun
  rw [← hw₄] at hmakes hj' hheads
  exact Build.generate_arity (t := t) (hj'.whole hheads) hmakes hrun n hn

/-! ## Operators that do not take what they are given -/

def Heap.fan (count : Nat) : Heap where
  nodes := #[{ name := "x" }, { name := "y", op := some builtinOps[1], inputs := List.replicate count ⟨⟨0⟩, 0⟩ }]

def Targets.fan : Targets := ⟨[⟨⟨1⟩, 0⟩], [⟨⟨0⟩, 0⟩], [⟨⟨0⟩, 0⟩]⟩

def Call.fan : Call where
  ys := .node ⟨1⟩
  xs := .node ⟨0⟩
  options := { seeds := .node ⟨0⟩, strategy := .member "StoreAll" }

theorem Build.reduce_names {a : Ambient} {es : List Entry} {op : Op} (hout : 0 < op.outputs)
    (hop : (es.length = 0 ∧ a.Names "zero_op" op) ∨ (2 ≤ es.length ∧ a.Names "sum_op" op)) (w : Workspace) :
    Build.reduce .standard es a w =
      .ok ⟨⟨w.heap.size⟩, 0⟩ { w with heap := (w.heap.create none { op := some op, inputs := es }).2 } := by
  rcases hop with ⟨hlen, text, hpath, hop⟩ | ⟨hlen, text, hpath, hop⟩
  · obtain rfl := List.length_eq_zero_iff.mp hlen
    exact reduce_of_aggregate (run_bind_ok (configured_run hpath hop hout [] w))
  · cases es with
    | nil => cases hlen
    | cons e rest =>
      cases rest with
      | nil => simp at hlen
      | cons e' rest => exact reduce_of_aggregate (run_bind_ok (configured_run hpath hop hout (e :: e' :: rest) w))

section Fan
variable {count : Nat} (hcount : count ∈ [0, 2, 3])
include hcount

theorem Heap.fan_ascending : (Heap.fan count).Ascending := by
  fin_cases hcount <;> decide

theorem Heap.fan_order :
    (Targets.fan.problem .null).order (.fan count) = if count = 0 then [⟨1⟩] else [⟨0⟩, ⟨1⟩] := by
  have h0 : (Heap.fan count).predecessors ⟨0⟩ = [] := rfl
  have h1 : (Heap.fan count).predecessors ⟨1⟩ = List.replicate count ⟨0⟩ := by
    fin_cases hcount <;> rfl
  have hsize : Array.replicate (Heap.fan count).size false = #[false, false] := rfl
  fin_cases hcount <;> simp [Problem.order, Heap.postorder, Heap.explore, Heap.walk, Targets.fan, Targets.problem, h0,
    h1, hsize, List.replicate_succ]

theorem Heap.fan_turns (level : Level) (a : Ambient) (trace : Array Event) : ∃ turns u,
    Build.takeTurns .builtins (Targets.fan.problem .null) none level
      ((Targets.fan.problem .null).order (.fan count)).reverse [] a { heap := .fan count, trace } = .ok turns u ∧
    u.heap = .fan count ∧ Turn.arrived (Targets.fan.problem .null) turns ⟨⟨0⟩, 0⟩ = List.replicate count ⟨⟨0⟩, 0⟩ ∧
    Ledger.get? (Turn.known turns) ⟨⟨0⟩, 0⟩ = none := by
  rw [Heap.fan_order hcount]
  fin_cases hcount <;> exact ⟨_, _, rfl, rfl, rfl, rfl⟩

theorem Targets.fan_fits : (Targets.fan.problem .null).Fits (.fan count) := by
  have ha := Heap.fan_ascending hcount
  have hx : (Heap.fan count).HasEntry ⟨⟨0⟩, 0⟩ := by fin_cases hcount <;> decide
  have hy : (Heap.fan count).HasEntry ⟨⟨1⟩, 0⟩ := by fin_cases hcount <;> decide
  exact ⟨ha.wellFormed, List.forall_mem_singleton.mpr hy, List.forall_mem_singleton.mpr hx, ha.acyclicFrom _⟩

theorem Heap.fan_whole (heads : List NodeId) (hheads : ∀ r ∈ heads, r.index < 2) : (Heap.fan count).Whole heads :=
  (Heap.fan_ascending hcount).whole (by fin_cases hcount <;> decide) hheads

/-- All that arrives at the variable goes to one node, whatever operator is set for it. -/
theorem Targets.fan_run {a : Ambient} {verbose : Bool} (hv : a.profile.getFlag ["debugprint"] = .ok verbose) {op : Op}
    (hout : 0 < op.outputs) (hop : (count = 0 ∧ a.Names "zero_op" op) ∨ (2 ≤ count ∧ a.Names "sum_op" op)) :
    ∃ w', Build.generate RuleBook.builtins (Targets.fan.request .null) a { heap := .fan count } =
        .ok { outputs := [⟨⟨2⟩, 0⟩] } w' ∧
      w'.heap = ((Heap.fan count).create none { op := some op, inputs := List.replicate count ⟨⟨0⟩, 0⟩ }).2 := by
  have hwhole := Heap.fan_whole hcount [⟨1⟩] (by simp)
  have hstrays : ∀ n ∈ (Targets.fan.problem .null).order (.fan count), ((Heap.fan count).node n).strays = none :=
    fun n hn => (hwhole n (hwhole.mem_postorder_iff.mp hn)).2
  rw [Targets.fan.generate_eq_relay (Targets.fan_fits hcount) rfl, Build.relay_run hstrays rfl hv]
  obtain ⟨turns, u, hturns, hu, harrived, hknown⟩ := Heap.fan_turns hcount (if verbose then .info else .debug) a
    (#[].push (Build.visitEvent (Targets.fan.problem .null) (.fan count)))
  have hlen : (List.replicate count (⟨⟨0⟩, 0⟩ : Entry)).length = count := List.length_replicate
  have hreduce := Build.reduce_names hout (hlen.symm ▸ hop) u
  rw [hu] at hreduce
  let node : Node := { op := some op, inputs := List.replicate count ⟨⟨0⟩, 0⟩ }
  have hcollect : Build.collect (Targets.fan.problem .null) turns [⟨⟨0⟩, 0⟩] (Turn.known turns) a u =
      .ok [⟨⟨2⟩, 0⟩] { u with heap := ((Heap.fan count).create none node).2 } := by
    rw [Build.collect, hknown, harrived]
    exact run_bind_ok hreduce
  rw [run_bind_ok hturns]
  exact ⟨_, run_bind_ok hcollect, rfl⟩

theorem Heap.fan_saturated {n : NodeId} (hn : (Heap.fan count).Has n) : ((Heap.fan count).node n).Saturated := by
  obtain ⟨i⟩ := n
  have hi : i < 2 := hn
  intro op hop
  interval_cases i
  · cases hop
  · cases hop
    fin_cases hcount <;> rfl

theorem Call.fan_forward {n : NodeId}
    (hn : (Heap.fan count).Beneath [Call.fan.ys, Call.fan.xs, Call.fan.options.seeds] n) :
    (Heap.fan count).Has n ∧ ((Heap.fan count).node n).strays = none ∧ ((Heap.fan count).node n).Saturated := by
  obtain ⟨v, hv, es, hes, hn⟩ := hn
  have hheads : ∀ r ∈ es.map Entry.node, r.index < 2 := by
    simp only [Call.fan, List.mem_cons, List.not_mem_nil, or_false, or_self] at hv
    rcases hv with rfl | rfl <;> cases hes <;> simp
  obtain ⟨hhas, hs⟩ := Heap.fan_whole hcount _ hheads n hn
  exact ⟨hhas, hs, Heap.fan_saturated hcount hhas⟩

theorem Differentiated.fan {a : Ambient} {verbose : Bool} (hv : a.profile.getFlag ["debugprint"] = .ok verbose) {op : Op}
    (hout : 0 < op.outputs) (hop : (count = 0 ∧ a.Names "zero_op" op) ∨ (2 ≤ count ∧ a.Names "sum_op" op)) :
    ∃ h, Differentiated a [⟨⟨2⟩, 0⟩] h ∧
      ∃ name, h.node ⟨2⟩ = { name, op := some op, inputs := List.replicate count ⟨⟨0⟩, 0⟩ } := by
  obtain ⟨w', hrun, hheap⟩ := Targets.fan_run hcount hv hout hop
  let w : Workspace := { heap := .fan count }
  have hseeds : Build.seedsFor Targets.fan.ys Call.fan.options.seeds a w = .ok Targets.fan.seeds w := rfl
  have hmirror : Build.mirrorTest .builtin Call.fan.options a w = .ok .null w := rfl
  have hcall : Build.gradients .builtins .builtin Call.fan.ys Call.fan.xs Call.fan.options a w =
      .ok [⟨⟨2⟩, 0⟩] w' := by
    unfold Build.gradients
    rw [run_bind_ok (r := Targets.fan.ys) (u := w) rfl, run_bind_ok (r := Targets.fan.xs) (u := w) rfl,
      run_bind_ok hseeds, run_bind_ok hmirror]
    exact run_bind_ok hrun
  have hforward : ∀ n, w.heap.Beneath [Call.fan.ys, Call.fan.xs, Call.fan.options.seeds] n →
      w.heap.Has n ∧ (w.heap.node n).strays = none ∧ (w.heap.node n).Saturated := fun n hn => Call.fan_forward hcount hn
  refine ⟨w'.heap, .intro rfl hforward hcall, ?_⟩
  rw [hheap]
  exact ((Heap.fan count).create_eq none _).2.2

end Fan

theorem Op.inputs_neg_of_accepts {op : Op} (h2 : op.accepts 2 = true) (h3 : op.accepts 3 = true) : op.inputs < 0 := by
  simp only [Op.accepts, Bool.or_eq_true, decide_eq_true_eq, beq_iff_eq] at h2 h3
  omega

theorem Op.accepts_of_inputs_neg {op : Op} (h : op.inputs < 0) (count : Nat) : op.accepts count = true := by
  simp [Op.accepts, h]

theorem Node.Aggregates.saturated {a : Ambient} {node : Node} (hn : node.Aggregates a)
    (hzero : ∀ op, a.Names "zero_op" op → op.accepts 0 = true) (hsum : ∀ op, a.Names "sum_op" op → op.inputs < 0) :
    node.Saturated := by
  obtain ⟨op, hop, hnames⟩ := hn
  intro op' hop'
  obtain rfl := Option.mem_unique hop hop'
  rcases hnames with ⟨hlen, hnames⟩ | ⟨-, hnames⟩
  · rw [hlen]
    exact hzero op hnames
  · exact Op.accepts_of_inputs_neg (hsum op hnames) _

/-- Below gradients of a graph with the right numbers of inputs only nodes that aggregation has made can have a wrong
number. None has if the operator for zero takes no inputs and that for sum any number, and only then, as long as there
are gradients to speak of. -/
theorem Differentiated.saturated_iff {a : Ambient} :
    (∀ es h, Differentiated a es h → ∀ n, h.Reachable (es.map Entry.node) n →
      (h.node n).Saturated ∨ (h.node n).Aggregates a) ∧
    ((∀ op, a.Names "zero_op" op → op.accepts 0 = true) → (∀ op, a.Names "sum_op" op → op.inputs < 0) →
      ∀ es h, Differentiated a es h → ∀ n, h.Reachable (es.map Entry.node) n → (h.node n).Saturated) ∧
    ((∃ verbose, a.profile.getFlag ["debugprint"] = .ok verbose) →
      (∀ text op, a.ops.find text = .ok op → 0 < op.outputs) →
      ((∀ es h, Differentiated a es h → ∀ n, h.Reachable (es.map Entry.node) n → (h.node n).Saturated) ↔
        (∀ op, a.Names "zero_op" op → op.accepts 0 = true) ∧ ∀ op, a.Names "sum_op" op → op.inputs < 0)) := by
  have henough : (∀ op, a.Names "zero_op" op → op.accepts 0 = true) → (∀ op, a.Names "sum_op" op → op.inputs < 0) →
      ∀ es h, Differentiated a es h → ∀ n, h.Reachable (es.map Entry.node) n → (h.node n).Saturated := by
    intro hzero hsum es h hd n hn
    rcases hd.arity hn with hs | hs
    · exact hs
    · exact hs.saturated hzero hsum
  refine ⟨fun es h hd n hn => hd.arity hn, henough, fun ⟨verbose, hv⟩ hout => ⟨fun hall => ?_, fun h => henough h.1 h.2⟩⟩
  have hout' : ∀ {key op}, a.Names key op → 0 < op.outputs := fun ⟨text, _, hop⟩ => hout text _ hop
  have haccepts : ∀ {count op}, count ∈ [0, 2, 3] → 0 < op.outputs →
      (count = 0 ∧ a.Names "zero_op" op) ∨ (2 ≤ count ∧ a.Names "sum_op" op) → op.accepts count = true := by
    intro count op hcount hout hop
    obtain ⟨h, hd, name, hnode⟩ := Differentiated.fan hcount hv hout hop
    have hs := hall _ h hd ⟨2⟩ (.head (by simp))
    rw [hnode] at hs
    simpa using hs op rfl
  constructor
  · intro op hop
    exact haccepts (by simp) (hout' hop) (.inl ⟨rfl, hop⟩)
  · intro op hop
    have h2 : op.accepts 2 = true := haccepts (by simp) (hout' hop) (.inr ⟨by decide, hop⟩)
    have h3 : op.accepts 3 = true := haccepts (by simp) (hout' hop) (.inr ⟨by decide, hop⟩)
    exact Op.inputs_neg_of_accepts h2 h3

theorem OpTable.outputs_pos_of_builtin (text : String) (op : Op) (h : OpTable.builtin.find text = .ok op) :
    0 < op.outputs := by
  unfold OpTable.find at h
  cases hget : Ledger.get? OpTable.builtin text with
  | none => rw [hget] at h; cases h
  | some found =>
    rw [hget] at h
    cases h
    obtain ⟨op, hop, heq⟩ := List.mem_map.mp (Ledger.mem_of_get? hget)
    cases heq
    exact outputs_pos hop

theorem Ambient.Names.eq {a : Ambient} {key text : String} {op op' : Op} (hn : a.Names key op')
    (hpath : a.profile.get ["autodiff", key] = .ok (.text text)) (hop : a.ops.find text = .ok op) : op' = op := by
  obtain ⟨text', hpath', hop'⟩ := hn
  rw [hpath] at hpath'
  cases hpath'
  rw [hop] at hop'
  cases hop'
  rfl

theorem Differentiated.saturated_iff_initial : (∃ es h, Differentiated .initial es h) ∧
    ∀ es h, Differentiated .initial es h → ∀ n, h.Reachable (es.map Entry.node) n → (h.node n).Saturated := by
  have ha := Ambient.initial_standard
  have hzero : Ambient.initial.ops.find "__zero__" = .ok builtinOps[0] := rfl
  have hsum : Ambient.initial.ops.find "__ewise_sum__" = .ok builtinOps[1] := rfl
  refine ⟨?_, (saturated_iff.2.2 ha.verbose OpTable.outputs_pos_of_builtin).mpr ⟨fun op hop => ?_, fun op hop => ?_⟩⟩
  · have hnames : Ambient.initial.Names "sum_op" builtinOps[1] := ⟨_, ha.sum, hsum⟩
    obtain ⟨h, hd, -⟩ := Differentiated.fan (show 3 ∈ [0, 2, 3] by decide) Ambient.initial_quiet (by decide)
      (.inr ⟨by decide, hnames⟩)
    exact ⟨_, h, hd⟩
  · rw [hop.eq ha.zero hzero]
    rfl
  · rw [hop.eq ha.sum hsum]
    decide

/-- Sums are made by an operator on two inputs, as an environment variable has it. -/
def Ambient.pairwise : Ambient :=
  { Ambient.initial with
    profile := { Ambient.initial.profile with env := [("GRADPASS_autodiff_sum_op", "elemwise_add")] } }

/-- A variable that is used three times then has a gradient node of two inputs with three. -/
theorem Differentiated.three_added_pairwise : ∃ es h n, Differentiated .pairwise es h ∧
    h.Reachable (es.map Entry.node) n ∧ (h.node n).op = some builtinOps[10] ∧ (h.node n).inputs.length = 3 ∧
    ¬ (h.node n).Saturated := by
  have hquiet : Ambient.pairwise.profile.getFlag ["debugprint"] = .ok false := by
    simp only [Profile.getFlag, Settings.getFlag, Settings.get, Settings.keysOf_debugprint]
    rfl
  have hnames : Ambient.pairwise.Names "sum_op" builtinOps[10] := ⟨"elemwise_add", rfl, rfl⟩
  obtain ⟨h, hd, name, hnode⟩ := Differentiated.fan (show 3 ∈ [0, 2, 3] by decide) hquiet (by decide)
    (.inr ⟨by decide, hnames⟩)
  refine ⟨_, h, ⟨2⟩, hd, .head (by simp), by rw [hnode], by rw [hnode]; rfl, fun hs => ?_⟩
  rw [hnode] at hs
  have haccepts : builtinOps[10].accepts 3 = true := hs _ rfl
  exact absurd haccepts (by decide)

end Backprop
