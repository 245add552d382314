import Backprop.Proofs.GradientSound
import Backprop.Proofs.SweepCreation

/-!
# Heaps that can be differentiated

On a heap without cycles, in which only built-in operators are applied and to
as many inputs as they take, every step of the construction succeeds and leaves
a heap of the same kind (`Policy.Yields`): the rule of a built-in operator
returns one gradient for each input, whether it is applied to the node or to a
copy of it, and all gradients can be added up.
-/

namespace Backprop

/-! ## The heaps -/

structure Heap.Differentiable (h : Heap) : Prop where
  wellFormed : h.WellFormed
  acyclic : ∀ n, ¬ Relation.TransGen h.Feeds n n
  strays : ∀ n, h.Has n → (h.node n).strays = none
  operators : ∀ n, h.Has n → ∀ op ∈ (h.node n).op, op ∈ builtinOps ∧ op.accepts (h.node n).inputs.length = true

def Policy.builtin : Policy where
  reads h e := h.HasEntry e
  makes node := node.strays = none ∧
    ∀ op ∈ node.op, op ∈ builtinOps ∧ op.accepts node.inputs.length = true
  has he := he.1
  grows hg he := Heap.HasEntry.grows he hg
  output {h n i e} hn he := by
    unfold Heap.entry at he
    simp only at he
    split at he
    · cases he
    · next hrange =>
      cases he
      refine ⟨hn, ?_⟩
      unfold Heap.outputs
      simp only
      omega
  image {h e n} he hn hop := by
    refine ⟨hn, ?_⟩
    have hlt := he.2
    unfold Heap.outputs Node.outputs at hlt ⊢
    simp only
    rw [hop]
    exact hlt
  copy hm hlen := ⟨hm.1, fun op hop => by rw [hlen]; exact hm.2 op hop⟩

section Heaps
variable {h h' : Heap}

theorem Heap.Differentiable.governs (hd : h.Differentiable) : Policy.builtin.Governs h := by
  intro n hn
  have hs := hd.strays n hn
  refine ⟨⟨hs, hd.operators n hn⟩, hd.wellFormed.inputs n hn, hd.wellFormed.deps n hn, fun l hl => ?_⟩
  rw [hs] at hl
  cases hl

/-- New nodes refer to earlier ones, and old nodes to old ones, so there is no way round. -/
theorem Policy.Extends.acyclic {P : Policy} (hg : P.Governs h) (hx : P.Extends h h')
    (hac : ∀ n, ¬ Relation.TransGen h.Feeds n n) : ∀ n, ¬ Relation.TransGen h'.Feeds n n := by
  have hold : ∀ a b, h'.Feeds a b → h.Has b → h.Has a ∧ h.Feeds a b := by
    intro a b hab hb
    unfold Heap.Feeds Heap.predecessors at hab ⊢
    rw [hx.grows.node_eq b hb] at hab
    exact ⟨(hg b hb).2.has (.inl hab), hab⟩
  have hnew : ∀ a b, h'.Feeds a b → ¬ h.Has b → a.index < b.index := by
    intro a b hab hb
    exact (hx.made b (Heap.has_of_feeds hab) hb).2.2 a (.inl hab)
  have hpath : ∀ a b, Relation.TransGen h'.Feeds a b →
      (h.Has b → h.Has a ∧ Relation.TransGen h.Feeds a b) ∧ (¬ h.Has b → a.index < b.index) := by
    intro a b hab
    induction hab with
    | single hab => exact ⟨fun hb => (hold _ _ hab hb).imp_right .single, hnew _ _ hab⟩
    | @tail c b hac hcb ih =>
      refine ⟨fun hb => ?_, fun hb => ?_⟩
      · obtain ⟨hc, hfeeds⟩ := hold _ _ hcb hb
        exact (ih.1 hc).imp_right fun h => h.tail hfeeds
      · have hlt := hnew _ _ hcb hb
        by_cases hc : h.Has c
        · have ha : a.index < h.size := (ih.1 hc).1
          unfold Heap.Has at hb
          omega
        · exact Nat.lt_trans (ih.2 hc) hlt
  intro n hn
  by_cases hhas : h.Has n
  · exact hac n ((hpath n n hn).1 hhas).2
  · exact Nat.lt_irrefl _ ((hpath n n hn).2 hhas)

theorem Heap.Differentiable.extends (hd : h.Differentiable) (hx : Policy.builtin.Extends h h') : h'.Differentiable := by
  have hg := hd.governs.extends hx
  exact ⟨⟨fun n hn => (hg n hn).2.inputs, fun n hn => (hg n hn).2.deps⟩, hx.acyclic hd.governs hd.acyclic,
    fun n hn => (hg n hn).1.1, fun n hn => (hg n hn).1.2⟩

theorem Heap.Differentiable.hasEntry (hd : h.Differentiable) {n : NodeId} (hn : h.Has n) : h.HasEntry ⟨n, 0⟩ := by
  refine ⟨hn, ?_⟩
  unfold Heap.outputs Node.outputs
  cases hop : (h.node n).op with
  | none => simp
  | some op =>
    have := outputs_pos (hd.operators n hn op hop).1
    simpa using this

theorem Heap.Differentiable.grounded (hd : h.Differentiable) {n : NodeId} (hn : h.Has n) : h.Grounded n := by
  have hes : ∀ e ∈ [(⟨n, 0⟩ : Entry)], h.HasEntry e := List.forall_mem_singleton.mpr (hd.hasEntry hn)
  exact Heap.grounded_of_acyclic hd.wellFormed hes (fun n _ => hd.acyclic n) ⟨n, 0⟩ (by simp)

end Heaps

/-! ## Settings -/

structure Ambient.Default (a : Ambient) : Prop extends a.Standard where
  seed : a.profile.get ["autodiff", "seed_op"] = .ok (.text "ones_like")
  strategy : a.profile.get ["autodiff", "mirror_strategy"] = .ok (.text "StoreAll")
  suffix : ∃ text, a.profile.get ["autodiff", "mirror_suffix"] = .ok (.text text)

theorem Ambient.initial_default : Ambient.initial.Default where
  toStandard := Ambient.initial_standard
  seed := rfl
  strategy := rfl
  suffix := ⟨_, rfl⟩

section Permits
variable {a : Ambient}

theorem Policy.builtin_makes {op : Op} (hop : op ∈ builtinOps) {inputs : List Entry}
    (hc : op.accepts inputs.length = true) (attrs : Ledger String Datum) :
    Policy.builtin.makes { op := some op, inputs, attrs } := by
  refine ⟨rfl, fun op' hop' => ?_⟩
  cases hop'
  exact ⟨hop, hc⟩

theorem Policy.builtin_permits (ha : a.Standard) {op : Op} (hop : op ∈ builtinOps) :
    Policy.builtin.Permits a op.name := by
  intro op' inputs attrs hfind hc
  rw [ha.ops op hop] at hfind
  cases hfind
  exact builtin_makes hop hc attrs

theorem Policy.builtin_permitsSums (ha : a.Standard) : Policy.builtin.PermitsSums a := by
  have hzero : a.ops.find "__zero__" = .ok builtinOps[0] := ha.ops builtinOps[0] (List.getElem_mem _)
  have hsum : a.ops.find "__ewise_sum__" = .ok builtinOps[1] := ha.ops builtinOps[1] (List.getElem_mem _)
  refine ⟨fun text op htext hfind => ?_, fun text op inputs htext hfind _ => ?_⟩
  · rw [ha.zero] at htext
    cases htext
    rw [hzero] at hfind
    cases hfind
    exact builtin_makes (List.getElem_mem _) rfl []
  · rw [ha.sum] at htext
    cases htext
    rw [hsum] at hfind
    cases hfind
    exact builtin_makes (List.getElem_mem _) rfl []

theorem Policy.builtin_permitsSeeds (ha : a.Default) : Policy.builtin.PermitsSeeds a := by
  intro text htext
  rw [ha.seed] at htext
  cases htext
  have hop : builtinOps[2] ∈ builtinOps := List.getElem_mem _
  exact builtin_permits ha.toStandard hop

end Permits

/-! ## Built-in rules return one gradient for each input -/

namespace Recipe

theorem ops_fetchAll (operands : List Operand) (rest : Recipe) : (fetchAll operands rest).ops = rest.ops := by
  induction operands with
  | nil => rfl
  | cons operand operands ih => exact ih

theorem builtins_ops {s : String × (Outline → Recipe)} (hs : s ∈ builtins) (o : Outline) :
    ∀ name ∈ (s.2 o).ops, ∃ op ∈ builtinOps, op.name = name := by
  have hknown : ∀ name ∈ ["zeros_like", "negative", "relu_backward", "elemwise_mul", "elemwise_div", "split",
      "concatenate"], ∃ op ∈ builtinOps, op.name = name := by decide
  suffices hops : ∀ name ∈ (s.2 o).ops, name ∈ ["zeros_like", "negative", "relu_backward", "elemwise_mul",
      "elemwise_div", "split", "concatenate"] from fun name hname => hknown name (hops name hname)
  fin_cases hs <;> simp [zero, sum, constant, copy, negative, exp, log, relu, reluBackward, add, sub, mul, div, split,
    concatenate, derive, ops, ops_fetchAll]
  -- the product and the quotient count their inputs first
  · split <;> simp [ops]
  · split <;> simp [ops]

theorem builtins_keep {a : Ambient} (ha : a.Standard) {s : String × (Outline → Recipe)} (hs : s ∈ builtins) :
    (rule s.2).Keeps Policy.builtin a := by
  refine keeps_rule fun o name hname => ?_
  obtain ⟨op, hop, rfl⟩ := builtins_ops hs o name hname
  exact Policy.builtin_permits ha hop

section Denote
variable {F : Type} [Field F] {c : Calculus F} {find : String → Except Fault Op} {op : Op}

/-- Given a gradient for each output, the rule of a built-in operator has a value for each input. -/
theorem builtins_denote (hfind : ∀ op ∈ builtinOps, find op.name = .ok op) (hop : op ∈ builtinOps) {gs vs : List F}
    (hacc : op.accepts vs.length = true) (hgs : gs.length = op.outputs.toNat) (attrs : Ledger String Datum) :
    ∃ s, builtins.find? (fun s => s.1 == op.name) = some s ∧ ∃ rs, rs.length = vs.length ∧
      denote find c.interpret ⟨gs, vs, (List.range op.outputs.toNat).map (c.interpret op attrs vs)⟩
        (s.2 ⟨some op, attrs, vs.length, gs.length⟩) [] = some rs := by
  by_cases hsplit : op.name = "split"
  · have hall : ∀ op ∈ builtinOps, op.name = "split" → op = builtinOps[14] := by decide
    obtain rfl := hall op hop hsplit
    have hconcat : find "concatenate" = .ok builtinOps[15] := hfind builtinOps[15] (List.getElem_mem _)
    have hvs : vs.length = 1 := by
      simp [Op.accepts, builtinOps] at hacc
      omega
    obtain ⟨v, rfl⟩ := List.length_eq_one_iff.mp hvs
    obtain ⟨g, g', rfl⟩ := List.length_eq_two.mp hgs
    refine ⟨_, rfl, [c.interpret builtinOps[15] [] [g, g'] 0], rfl, ?_⟩
    show denote find c.interpret _ (fetch (.gradient 0) (fetch (.gradient 1)
      (derive "in" "concatenate" [0, 1] (give [2])))) [] = _
    rw [denote_fetch rfl, denote_fetch rfl, denote_derive hconcat rfl rfl (by decide)]
    rfl
  by_cases hconcat : op.name = "concatenate"
  · have hall : ∀ op ∈ builtinOps, op.name = "concatenate" → op = builtinOps[15] := by decide
    obtain rfl := hall op hop hconcat
    have hsplit : find "split" = .ok builtinOps[14] := hfind builtinOps[14] (List.getElem_mem _)
    have hvs : vs.length = 2 := by
      simp [Op.accepts, builtinOps] at hacc
      omega
    obtain ⟨v, v', rfl⟩ := List.length_eq_two.mp hvs
    obtain ⟨g, rfl⟩ := List.length_eq_one_iff.mp hgs
    refine ⟨_, rfl, (List.range 2).map (c.interpret builtinOps[14] [] [g]), rfl, ?_⟩
    show denote find c.interpret _ (fetch (.gradient 0) (spread _ "split" [] [0])) [] = _
    rw [denote_fetch rfl, denote, applied, hsplit]
    rfl
  -- all others are elementary
  · have helem : op.Elementary vs.length := ⟨hop, hsplit, hconcat, hacc⟩
    obtain ⟨s, hs, htrans⟩ := transposes (c := c) hfind helem
    rw [helem.outputs] at hgs ⊢
    obtain ⟨g, rfl⟩ := List.length_eq_one_iff.mp hgs
    obtain ⟨rs, hrs, hlen, -⟩ := htrans vs (List.replicate _ 0) g attrs hacc List.length_replicate
    exact ⟨s, hs, rs, hlen, hrs⟩

end Denote

end Recipe

/-! ## Runs that succeed -/

def Policy.Yields {α : Type} (P : Policy) (x : Build α) (a : Ambient) (w : Workspace) (Q : α → Heap → Prop) : Prop :=
  Ends x a w (fun r w' => P.Extends w.heap w'.heap ∧ Q r w'.heap) fun _ => False

namespace Policy.Yields
variable {P : Policy} {α β : Type} {x : Build α} {f : α → Build β} {a : Ambient} {w u : Workspace} {r : α}
  {Q R : α → Heap → Prop} {S : β → Heap → Prop}

theorem of_ok (hx : x a w = .ok r u) (hu : u.heap = w.heap) (hq : Q r w.heap) : P.Yields x a w Q := by
  unfold Yields Ends
  rw [hx]
  exact ⟨hu ▸ .refl _, hu ▸ hq⟩

theorem pure (hq : Q r w.heap) : P.Yields (pure r) a w Q := .of_ok rfl rfl hq

theorem of_makes (hm : P.Makes x a w Q) (hx : x a w = .ok r u) (hr : R r u.heap) :
    P.Yields x a w fun r h => Q r h ∧ R r h := by
  unfold Makes Leads at hm
  unfold Yields Ends
  rw [hx] at hm ⊢
  exact ⟨hm.1, hm.2, hr⟩

theorem congr {y : Build α} (hxy : x a w = y a w) (hy : P.Yields y a w Q) : P.Yields x a w Q := by
  unfold Yields Ends at hy ⊢
  rw [hxy]
  exact hy

theorem bind (hx : P.Yields x a w Q)
    (hf : ∀ r u, P.Extends w.heap u.heap → Q r u.heap → P.Yields (f r) a u S) : P.Yields (x >>= f) a w S :=
  Ends.bind hx fun r u ⟨hxu, hq⟩ => (hf r u hxu hq).mono (fun _ _ h => ⟨hxu.trans h.1, h.2⟩) fun _ h => h

theorem step (hx : x a w = .ok r u) (hu : u.heap = w.heap) (hf : P.Yields (f r) a u S) : P.Yields (x >>= f) a w S :=
  Ends.step hx (hf.mono (fun _ _ h => hu ▸ h) fun _ h => h)

theorem mono (hx : P.Yields x a w Q) (hq : ∀ r h, P.Extends w.heap h → Q r h → R r h) : P.Yields x a w R :=
  Ends.mono hx (fun r u h => ⟨h.1, hq r u.heap h.1 h.2⟩) fun _ h => h

end Policy.Yields

section Turns
variable {a : Ambient} {w : Workspace} {h h' : Heap} {mirrors : Option MirrorMap} {n : NodeId} {op : Op} {p : Problem}
  {turns : List Turn}

theorem Heap.Differentiable.shows (hd : h.Differentiable) {F : Type} [Field F] (c : Calculus F) (ρ : NodeId → F)
    {es : List Entry} (hes : ∀ e ∈ es, h.HasEntry e) :
    List.Forall₂ (h.Shows c.interpret ρ) es (es.map (h.value c.interpret ρ)) := by
  rw [List.forall₂_map_right_iff]
  exact List.forall₂_same.mpr fun e he => ⟨hd.grounded (hes e he).1, rfl⟩

theorem Build.yields_reduce (ha : a.Standard) (hd : w.heap.Differentiable) {es : List Entry}
    (hes : ∀ e ∈ es, w.heap.HasEntry e) :
    Policy.builtin.Yields (Build.reduce Aggregator.standard es) a w fun e h => h.HasEntry e := by
  have hmakes : Policy.builtin.Makes (Build.reduce Aggregator.standard es) a w fun e h => h.HasEntry e := by
    refine (Aggregator.standard_keeps (Policy.builtin_permitsSums ha) es w hd.governs hes).bind fun v w₁ _ hv => ?_
    cases hv with
    | entry he => exact .pure he
    | data d => exact .throw _
    | node hn => exact .throw _
    | list hi => exact .throw _
    | object o => exact .throw _
  obtain ⟨e, w', hrun, -⟩ := Build.reduce_run ha es w
  exact (Policy.Yields.of_makes hmakes hrun (R := fun _ _ => True) trivial).mono fun _ _ _ h => h.1

theorem Build.yields_reduceAll (ha : a.Standard) : ∀ {groups : List (List Entry)} {w : Workspace},
    w.heap.Differentiable → (∀ es ∈ groups, ∀ e ∈ es, w.heap.HasEntry e) →
    Policy.builtin.Yields (Build.reduceAll Aggregator.standard groups) a w fun totals h =>
      totals.length = groups.length ∧ ∀ e ∈ totals, h.HasEntry e
  | [], w, _, _ => .pure ⟨rfl, by simp⟩
  | es :: rest, w, hd, hes => by
    refine (yields_reduce ha hd (hes es (by simp))).bind fun total w₁ hx₁ htotal => ?_
    have hrest : ∀ es ∈ rest, ∀ e ∈ es, w₁.heap.HasEntry e := fun es' he' e he =>
      (hes es' (List.mem_cons_of_mem _ he') e he).grows hx₁.grows
    refine (yields_reduceAll ha (hd.extends hx₁) hrest).bind fun totals w₂ hx₂ ⟨hlen, htotals⟩ => .pure ?_
    exact ⟨by rw [List.length_cons, List.length_cons, hlen],
      List.forall_mem_cons.mpr ⟨htotal.grows hx₂.grows, htotals⟩⟩

structure Turn.StandsIn (mirrors : Option MirrorMap) (h : Heap) (n : NodeId) : Prop where
  has : h.Has (Turn.forward mirrors n)
  op_eq : (h.node (Turn.forward mirrors n)).op = (h.node n).op
  length_eq : (h.node (Turn.forward mirrors n)).inputs.length = (h.node n).inputs.length

theorem Turn.StandsIn.grows (hs : Turn.StandsIn mirrors h n) (hn : h.Has n) (hg : h.GrowsTo h') :
    Turn.StandsIn mirrors h' n where
  has := hg.has hs.has
  op_eq := by rw [hg.node_eq _ hs.has, hg.node_eq n hn]; exact hs.op_eq
  length_eq := by rw [hg.node_eq _ hs.has, hg.node_eq n hn]; exact hs.length_eq

theorem MirrorMap.Mirrored.standsIn {test : Option Selector} {ns : List NodeId}
    (hm : MirrorMap.Mirrored test mirrors h h' ns) (hg : h.GrowsTo h') (hn : n ∈ ns) (hhas : h.Has n) :
    Turn.StandsIn mirrors h' n := by
  have hself : Turn.forward mirrors n = n → Turn.StandsIn mirrors h' n := by
    intro heq
    exact ⟨by rw [heq]; exact hg.has hhas, by rw [heq], by rw [heq]⟩
  rcases hm with ⟨-, rfl⟩ | ⟨t, m, -, rfl, hr⟩
  · exact hself rfl
  · rcases hr.image n hn with ⟨-, heq⟩ | ⟨-, hhas', name, hcopy⟩
    · exact hself heq
    · refine ⟨hhas', ?_, ?_⟩
      · rw [hcopy, hg.node_eq n hhas]
        rfl
      · rw [hcopy, hg.node_eq n hhas]
        exact List.length_map _

theorem Heap.Differentiable.ready (hd : h.Differentiable) (hn : h.Has n) (hop : (h.node n).op = some op) {F : Type}
    [Field F] (c : Calculus F) (ρ : NodeId → F) {totals : List Entry} (htotals : ∀ e ∈ totals, h.HasEntry e) :
    Ready c.interpret ρ h n totals ⟨totals.map (h.value c.interpret ρ), (h.node n).inputs.map (h.value c.interpret ρ),
      (List.range op.outputs.toNat).map (c.interpret op (h.node n).attrs
        ((h.node n).inputs.map (h.value c.interpret ρ)))⟩ where
  has := hn
  strays := hd.strays n hn
  gradients := hd.shows c ρ htotals
  inputs := hd.shows c ρ (hd.wellFormed.inputs n hn)
  outputs i v hi := by
    obtain ⟨j, hj, rfl⟩ := List.getElem?_map .. ▸ hi |> Option.map_eq_some_iff.mp
    obtain ⟨hlt, rfl⟩ := List.getElem?_eq_some_iff.mp hj
    rw [List.length_range] at hlt
    rw [List.getElem_range]
    refine ⟨?_, hd.grounded hn, Heap.value_apply (e := ⟨n, i⟩) (hd.grounded hn) hop⟩
    have hout : h.outputs n = op.outputs := by simp [Heap.outputs, Node.outputs, hop]
    omega

/-- Given a gradient for each output of a node, its rule succeeds with one for each input. -/
theorem Heap.Differentiable.rule_run (hd : w.heap.Differentiable) (ha : a.Standard) (hn : w.heap.Has n)
    (hop : (w.heap.node n).op = some op) {totals : List Entry} (htotals : ∀ e ∈ totals, w.heap.HasEntry e)
    (hlen : totals.length = op.outputs.toNat) :
    ∃ s, Recipe.builtins.find? (fun s => s.1 == op.name) = some s ∧ ∃ (es : List Entry) (w' : Workspace),
      Recipe.rule s.2 n (totals.map .entry) a w = .ok (es.map .entry) w' ∧
      es.length = (w.heap.node n).inputs.length := by
  -- the values play no part in whether the rule succeeds
  let c : Calculus ℚ := ⟨id, id, id, id⟩
  let ρ : NodeId → ℚ := fun _ => 0
  obtain ⟨hmem, hacc⟩ := hd.operators n hn op hop
  have hvs : op.accepts ((w.heap.node n).inputs.map (w.heap.value c.interpret ρ)).length = true := by
    rw [List.length_map]
    exact hacc
  have hgs : (totals.map (w.heap.value c.interpret ρ)).length = op.outputs.toNat := by rw [List.length_map, hlen]
  obtain ⟨s, hfind, rs, hrs, hdenote⟩ := Recipe.builtins_denote (c := c) ha.ops hmem hvs hgs (w.heap.node n).attrs
  have hout : Outline.of (w.heap.node n) totals.length =
      ⟨some op, (w.heap.node n).attrs, (w.heap.node n).inputs.length, totals.length⟩ := by
    simp only [Outline.of, hop, Node.links_inputs (hd.strays n hn), List.length_map]
  rw [List.length_map, List.length_map, ← hout] at hdenote
  obtain ⟨es, w', hes, -, hshows⟩ := Recipe.denote_rule (hd.ready hn hop c ρ htotals) hdenote
  exact ⟨s, hfind, es, w', hes, by rw [hshows.length_eq, hrs, List.length_map]⟩

theorem Build.yields_pull (ha : a.Standard) (hd : w.heap.Differentiable) (hs : Turn.StandsIn mirrors w.heap n)
    (hop : (w.heap.node n).op = some op) {totals : List Entry} (htotals : ∀ e ∈ totals, w.heap.HasEntry e)
    (hlen : totals.length = op.outputs.toNat) (node : Node) :
    Policy.builtin.Yields (Build.pull RuleBook.builtins mirrors n op node (totals.map .entry)) a w fun vs h =>
      ∃ es : List Entry, vs = es.map .entry ∧ es.length = (w.heap.node n).inputs.length ∧ ∀ e ∈ es, h.HasEntry e := by
  obtain ⟨trace, hrun⟩ := RuleBook.builtins.find_run n a w
  obtain ⟨s, hfind, es, w', hes, hcount⟩ := Heap.Differentiable.rule_run (w := { w with trace }) hd ha hs.has
    (hs.op_eq.trans hop) htotals hlen
  obtain ⟨i, hlookup, hrule⟩ := RuleBook.builtins_follows.lookup n hop hfind
  rw [hlookup] at hrun
  refine .step hrun rfl ?_
  simp only [hrule]
  have hwithin : ∀ v ∈ totals.map Value.entry, v.Within Policy.builtin w.heap := by
    simpa using fun e he => Value.Within.entry (htotals e he)
  have hkeeps := Recipe.builtins_keep ha (List.mem_of_find?_eq_some hfind) (Turn.forward mirrors n)
    (totals.map .entry) { w with trace } hd.governs hs.has hwithin
  refine (Policy.Yields.of_makes hkeeps hes (R := fun vs _ => vs = es.map .entry) rfl).mono ?_
  rintro _ h - ⟨hreads, rfl⟩
  refine ⟨es, rfl, hcount.trans hs.length_eq, fun e he => ?_⟩
  cases hreads _ (List.mem_map_of_mem he) with
  | entry hr => exact hr

structure Turn.Within (t : Turn) (h : Heap) : Prop where
  totals : ∀ q ∈ t.totals, h.HasEntry q.2
  grads : ∀ q ∈ t.grads, h.HasEntry q.2

theorem Turn.Within.grows {t : Turn} (ht : t.Within h) (hg : h.GrowsTo h') : t.Within h' where
  totals q hq := (ht.totals q hq).grows hg
  grads q hq := (ht.grads q hq).grows hg

theorem Turn.hasEntry_arrived (hseeds : ∀ e ∈ p.seeds, h.HasEntry e) (hturns : ∀ t ∈ turns, t.Within h) (e : Entry) :
    ∀ g ∈ Turn.arrived p turns e, h.HasEntry g := Turn.forall_arrived hseeds (fun t ht => (hturns t ht).grads) e

theorem Build.yields_takeTurn (ha : a.Standard) (hf : p.aggregate = Aggregator.standard) (hd : w.heap.Differentiable)
    (hseeds : ∀ e ∈ p.seeds, w.heap.HasEntry e) (hturns : ∀ t ∈ turns, t.Within w.heap) (hn : w.heap.Has n)
    (hs : Turn.StandsIn mirrors w.heap n) (hop : (w.heap.node n).op = some op) (level : Level) :
    Policy.builtin.Yields (Build.takeTurn RuleBook.builtins p mirrors level turns n op (w.heap.node n)) a w
      fun t h => t.Within h := by
  refine .step (r := w.heap) rfl rfl ?_
  dsimp only
  rw [hf]
  have harrived : ∀ es ∈ (w.heap.entries n).map (Turn.arrived p turns), ∀ e ∈ es, w.heap.HasEntry e := by
    intro es hes
    obtain ⟨e, -, rfl⟩ := List.mem_map.mp hes
    exact Turn.hasEntry_arrived hseeds hturns e
  refine (Build.yields_reduceAll ha hd harrived).bind fun totals w₁ hx₁ ⟨hlen, htotals⟩ => ?_
  have hsame := hx₁.grows.node_eq n hn
  have hcount : totals.length = op.outputs.toNat := by
    rw [hlen]
    simp [Heap.entries, Heap.outputs, Node.outputs, hop]
  refine (Build.yields_pull ha (hd.extends hx₁) (hs.grows hn hx₁.grows) (by rw [hsame, hop]) htotals hcount
    (w.heap.node n)).bind ?_
  rintro _ w₂ hx₂ ⟨es, rfl, hes, hgrads⟩
  rw [hsame] at hes
  rw [if_pos (by rw [List.length_map, hes]), Build.gradientsOf_map_entry]
  obtain ⟨trace, hlog⟩ := Build.logTurn_run level (w.heap.node n) (es.map .entry) a w₂
  refine .step (r := es) rfl rfl (.step hlog rfl (.pure ⟨fun q hq => ?_, fun q hq => ?_⟩))
  · exact (htotals _ (List.of_mem_zip hq).2).grows hx₂.grows
  · exact hgrads _ (List.of_mem_zip hq).2

theorem Build.yields_turnOf (ha : a.Standard) (hf : p.aggregate = Aggregator.standard) (hd : w.heap.Differentiable)
    (hseeds : ∀ e ∈ p.seeds, w.heap.HasEntry e) (hturns : ∀ t ∈ turns, t.Within w.heap) (hn : w.heap.Has n)
    (hs : Turn.StandsIn mirrors w.heap n) (level : Level) :
    Policy.builtin.Yields (Build.turnOf RuleBook.builtins p mirrors level turns n) a w
      fun new h => ∀ t ∈ new, t.Within h := by
  refine .step (r := w.heap) rfl rfl ?_
  dsimp only
  cases hop : (w.heap.node n).op with
  | none => exact .pure (by simp)
  | some op =>
    refine (Build.yields_takeTurn ha hf hd hseeds hturns hn hs hop level).bind fun t w₁ _ ht => .pure ?_
    exact List.forall_mem_singleton.mpr ht

theorem Build.yields_takeTurns (ha : a.Standard) (hf : p.aggregate = Aggregator.standard) (level : Level) :
    ∀ {ns : List NodeId} {turns : List Turn} {w : Workspace}, w.heap.Differentiable →
      (∀ e ∈ p.seeds, w.heap.HasEntry e) → (∀ t ∈ turns, t.Within w.heap) →
      (∀ n ∈ ns, w.heap.Has n ∧ Turn.StandsIn mirrors w.heap n) →
      Policy.builtin.Yields (Build.takeTurns RuleBook.builtins p mirrors level ns turns) a w
        fun turns h => ∀ t ∈ turns, t.Within h
  | [], turns, w, _, _, hturns, _ => .pure hturns
  | n :: rest, turns, w, hd, hseeds, hturns, hns => by
    obtain ⟨hn, hs⟩ := hns n (by simp)
    refine (yields_turnOf ha hf hd hseeds hturns hn hs level).bind fun new w₁ hx hnew => ?_
    refine yields_takeTurns ha hf level (hd.extends hx) (fun e he => (hseeds e he).grows hx.grows) ?_ ?_
    · intro t ht
      rcases List.mem_append.mp ht with ht | ht
      · exact (hturns t ht).grows hx.grows
      · exact hnew t ht
    · intro k hk
      obtain ⟨hn, hs⟩ := hns k (List.mem_cons_of_mem _ hk)
      exact ⟨hx.grows.has hn, hs.grows hn hx.grows⟩

theorem Build.yields_collect (ha : a.Standard) (hf : p.aggregate = Aggregator.standard) {xs : List Entry}
    {known : Ledger Entry Entry} (hd : w.heap.Differentiable) (hseeds : ∀ e ∈ p.seeds, w.heap.HasEntry e)
    (hturns : ∀ t ∈ turns, t.Within w.heap) (hknown : ∀ q ∈ known, w.heap.HasEntry q.2) :
    Policy.builtin.Yields (Build.collect p turns xs known) a w
      fun es h => es.length = xs.length ∧ ∀ e ∈ es, h.HasEntry e := by
  induction xs generalizing known w with
  | nil => exact .pure ⟨rfl, by simp⟩
  | cons x xs ih =>
    rw [Build.collect]
    cases hx : Ledger.get? known x with
    | some total =>
      refine (ih hd hseeds hturns hknown).bind fun es w₁ hx₁ hrest => .pure ?_
      obtain ⟨hlen, hes⟩ := hrest
      have htotal := hknown _ (Ledger.mem_of_get? hx)
      exact ⟨by rw [List.length_cons, List.length_cons, hlen],
        List.forall_mem_cons.mpr ⟨htotal.grows hx₁.grows, hes⟩⟩
    | none =>
      dsimp only
      rw [hf]
      refine (yields_reduce ha hd (Turn.hasEntry_arrived hseeds hturns x)).bind fun total w₁ hx₁ htotal => ?_
      have hknown' : ∀ q ∈ known ++ [(x, total)], w₁.heap.HasEntry q.2 := by
        intro q hq
        rcases List.mem_append.mp hq with hq | hq
        · exact (hknown q hq).grows hx₁.grows
        · rw [List.mem_singleton.mp hq]
          exact htotal
      refine (ih (hd.extends hx₁) (fun e he => (hseeds e he).grows hx₁.grows)
        (fun t ht => (hturns t ht).grows hx₁.grows) hknown').bind fun es w₂ hx₂ hrest => .pure ?_
      obtain ⟨hlen, hes⟩ := hrest
      exact ⟨by rw [List.length_cons, List.length_cons, hlen],
        List.forall_mem_cons.mpr ⟨htotal.grows hx₂.grows, hes⟩⟩

end Turns

/-! ## The whole construction -/

section Whole
variable {a : Ambient} {w : Workspace} {p : Problem}

theorem Build.yields_prepared (ha : a.Default) (hd : w.heap.Differentiable) (hp : p.Fits w.heap)
    (ht : ∀ test ∈ p.mirror, ∀ n ∈ p.order w.heap, ∃ b, test.holds n (w.heap.node n) = .ok b) :
    Policy.builtin.Yields (Build.prepared p) a w fun mirrors h => ∀ n ∈ p.order w.heap, Turn.StandsIn mirrors h n := by
  have harr := hp.arranged
  have hhas : ∀ n ∈ p.order w.heap, w.heap.Has n := fun n hn => harr.has n (List.mem_reverse.mpr hn)
  have hs : ∀ n ∈ p.order w.heap, (w.heap.node n).strays = none := fun n hn => hd.strays n (hhas n hn)
  obtain ⟨text, hsuffix⟩ := ha.suffix
  refine .step (r := w.heap) rfl rfl (.step (Build.visited_run hs) rfl ?_)
  generalize hw₀ : { w with trace := w.trace.push (Build.visitEvent p w.heap) } = w₀
  have hheap : w₀.heap = w.heap := by rw [← hw₀]
  rw [← hheap] at harr hhas hs ht hd ⊢
  obtain ⟨mirrors, w', hrun, hg, hm⟩ := Build.mirrorMap_run harr.settled (List.nodup_reverse.mp harr.nodup) hhas
    (Heap.flaw_none_of_checkOrder (Heap.checkOrder_ok hs)) hsuffix ht
  have hmakes := Build.makes_mirrorMap (a := a) hd.governs hhas p.mirror none
  exact (Policy.Yields.of_makes hmakes hrun (R := fun mirrors h => ∀ n ∈ p.order w₀.heap, Turn.StandsIn mirrors h n)
    fun n hn => hm.standsIn hg hn (hhas n hn)).mono fun _ _ _ h => h.2

theorem Build.yields_relay (ha : a.Default) (hd : w.heap.Differentiable) (hp : p.Fits w.heap)
    (hf : p.aggregate = Aggregator.standard) (hseeds : ∀ e ∈ p.seeds, w.heap.HasEntry e)
    (ht : ∀ test ∈ p.mirror, ∀ n ∈ p.order w.heap, ∃ b, test.holds n (w.heap.node n) = .ok b) :
    Policy.builtin.Yields (Build.relay RuleBook.builtins p) a w fun g h =>
      g.outputs.length = p.xs.length ∧ ∀ e ∈ g.outputs, h.HasEntry e := by
  have harr := hp.arranged
  obtain ⟨verbose, hverbose⟩ := ha.verbose
  refine .step (r := w.heap) rfl rfl ?_
  refine .bind (Q := fun turns h => (∀ e ∈ p.seeds, h.HasEntry e) ∧ ∀ t ∈ turns, t.Within h) ?_ ?_
  · refine (yields_prepared ha hd hp ht).bind fun mirrors w₁ hx₁ hm => .step (turnLevel_run hverbose w₁) rfl ?_
    have hseeds₁ : ∀ e ∈ p.seeds, w₁.heap.HasEntry e := fun e he => (hseeds e he).grows hx₁.grows
    refine (yields_takeTurns ha.toStandard hf _ (hd.extends hx₁) hseeds₁ (by simp) fun n hn => ?_).mono
      fun turns h hx hturns => ⟨fun e he => (hseeds₁ e he).grows hx.grows, hturns⟩
    exact ⟨hx₁.grows.has (harr.has n hn), hm n (List.mem_reverse.mp hn)⟩
  · rintro turns w₁ hx₁ ⟨hseeds₁, hturns⟩
    have hknown : ∀ q ∈ Turn.known turns, w₁.heap.HasEntry q.2 := by
      intro q hq
      obtain ⟨t, ht, hq⟩ := List.mem_flatMap.mp hq
      exact (hturns t ht).totals q hq
    exact (yields_collect ha.toStandard hf (hd.extends hx₁) hseeds₁ hturns hknown).bind fun es w₂ _ hes => .pure hes

end Whole

end Backprop
