import Backprop.Proofs.Moments
import Backprop.Proofs.RecipeSound

/-!
# What the default aggregation makes

With the default settings the default aggregation never fails. A single
gradient is taken as it is, and of none or of several one node is made. When
requested entries are assembled, what each of them gets depends on what has
arrived for it and on the totals that are known (`Provided`), and not on what
else is requested.
-/

namespace Backprop

theorem Heap.applies_of_node {h : Heap} {n : NodeId} {op : Op} {es : List Entry} (hn : h.Has n)
    (hnode : ∃ name, h.node n = { op := some op, name, inputs := es }) : h.Applies n op [] es := by
  obtain ⟨name, hnode⟩ := hnode
  exact ⟨hn, congrArg Node.op hnode, congrArg Node.attrs hnode, congrArg Node.inputs hnode, congrArg Node.strays hnode⟩

def Aggregator.combining : List Entry → Option Op
  | [] => builtinOps[0]?
  | [_] => none
  | _ => builtinOps[1]?

/-- The total of gradients: the only one, or the first output of one new node. -/
inductive Totalled (w w' : Workspace) : List Entry → Entry → Prop
  | single {e : Entry} (hw : w' = w) : Totalled w w' [e] e
  | combined {es : List Entry} {op : Op} (hop : Aggregator.combining es = some op) (hg : w.heap.GrowsTo w'.heap)
      (hhas : w'.heap.Has ⟨w.heap.size⟩)
      (hnode : ∃ name, w'.heap.node ⟨w.heap.size⟩ = { op := some op, name, inputs := es }) :
      Totalled w w' es ⟨⟨w.heap.size⟩, 0⟩

theorem Totalled.grows {w w' : Workspace} {es : List Entry} {e : Entry} (h : Totalled w w' es e) :
    w.heap.GrowsTo w'.heap := by
  cases h with
  | single hw => rw [hw]; exact .refl _
  | combined _ hg => exact hg

/-- What a requested entry gets: its total if there is one, or else that of what has arrived for it. -/
inductive Provided (h h' : Heap) (known : Ledger Entry Entry) (arrived : Entry → List Entry) (x : Entry) :
    Entry → Prop
  | known {e : Entry} (hx : Ledger.get? known x = some e) : Provided h h' known arrived x e
  | single {e : Entry} (hx : Ledger.get? known x = none) (he : arrived x = [e]) : Provided h h' known arrived x e
  | combined {n : NodeId} {op : Op} (hx : Ledger.get? known x = none) (hop : Aggregator.combining (arrived x) = some op)
      (hnew : ¬ h.Has n) (hhas : h'.Has n)
      (hnode : ∃ name, h'.node n = { op := some op, name, inputs := arrived x }) :
      Provided h h' known arrived x ⟨n, 0⟩

namespace Provided
variable {h h₁ h₂ : Heap} {known : Ledger Entry Entry} {arrived : Entry → List Entry} {x e : Entry}

theorem grows (hx : Provided h h₁ known arrived x e) (hg : h₁.GrowsTo h₂) : Provided h h₂ known arrived x e := by
  cases hx with
  | known hx => exact .known hx
  | single hx he => exact .single hx he
  | combined hx hop hnew hhas hnode =>
    refine .combined hx hop hnew (hg.has hhas) ?_
    rw [hg.node_eq _ hhas]
    exact hnode

theorem of_totalled {w w' : Workspace} (hx : Ledger.get? known x = none) (hg : h.GrowsTo w.heap)
    (ht : Totalled w w' (arrived x) e) : Provided h w'.heap known arrived x e := by
  generalize hes : arrived x = es at ht
  cases ht with
  | single => exact .single hx hes
  | combined hop _ hhas hnode =>
    subst hes
    exact .combined hx hop (fun hn => Nat.lt_irrefl _ (hg.has hn)) hhas hnode

end Provided

theorem outputs_pos {op : Op} (hop : op ∈ builtinOps) : 0 < op.outputs := by
  have hall : ∀ op ∈ builtinOps, 0 < op.outputs := by decide
  exact hall op hop

namespace Build
variable {a : Ambient} {p : Problem}

/-- Whatever operator the setting names, it is applied without a check. -/
theorem configured_run {path : List String} {text : String} {op : Op} (hpath : a.profile.get path = .ok (.text text))
    (hop : a.ops.find text = .ok op) (hout : 0 < op.outputs) (es : List Entry) (w : Workspace) :
    (do unnamed (← operator (← setting path)) (es.map .entry)) a w =
      .ok ⟨⟨w.heap.size⟩, 0⟩ { w with heap := (w.heap.create none { op := some op, inputs := es }).2 } := by
  have hsetting : setting path a w = .ok (.text text) w := by
    show ofExcept (a.profile.get path) a w = _
    rw [hpath]
    rfl
  have hoperator : operator (.text text) a w = .ok op w := by
    show ofExcept (a.ops.find text) a w = _
    rw [hop]
    rfl
  obtain ⟨hid, hhas, hnode⟩ := w.heap.create_eq none { op := some op, inputs := es }
  let w' : Workspace := { w with heap := (w.heap.create none { op := some op, inputs := es }).2 }
  have hcreate : createOn op none (es.map .entry) a w = .ok ⟨w.heap.size⟩ w' := by
    unfold createOn
    rw [Node.withLinks_map_entry, ← hid]
    rfl
  rw [run_bind_ok hsetting, run_bind_ok hoperator, unnamed, run_bind_ok hcreate]
  exact entry_run (Heap.applies_of_node hhas hnode) hout a

theorem unnamed_run (ha : a.Standard) {path : List String} {op : Op} (hop : op ∈ builtinOps)
    (hpath : a.profile.get path = .ok (.text op.name)) {es : List Entry} (hes : Aggregator.combining es = some op)
    (w : Workspace) :
    ∃ e w', (do unnamed (← operator (← setting path)) (es.map .entry)) a w = .ok e w' ∧ Totalled w w' es e := by
  obtain ⟨-, hhas, hnode⟩ := w.heap.create_eq none { op := some op, inputs := es }
  refine ⟨_, _, configured_run hpath (ha.ops op hop) (outputs_pos hop) es w, ?_⟩
  exact .combined hes (w.heap.growsTo_create none _) hhas hnode

theorem reduce_of_aggregate {es : List Entry} {e : Entry} {w w' : Workspace}
    (hrun : aggregate (es.map .entry) a w = .ok (.entry e) w') : reduce Aggregator.standard es a w = .ok e w' := by
  unfold reduce
  rw [run_bind_ok (show Aggregator.standard (es.map .entry) a w = .ok (.entry e) w' from hrun)]
  rfl

theorem reduce_run (ha : a.Standard) (es : List Entry) (w : Workspace) :
    ∃ e w', reduce Aggregator.standard es a w = .ok e w' ∧ Totalled w w' es e := by
  cases es with
  | nil =>
    have hop : Aggregator.combining [] = some builtinOps[0] := rfl
    obtain ⟨e, w', hrun, htotal⟩ := unnamed_run ha (List.getElem_mem _) ha.zero hop w
    exact ⟨e, w', reduce_of_aggregate (run_bind_ok hrun), htotal⟩
  | cons e rest =>
    cases rest with
    | nil => exact ⟨e, w, rfl, .single rfl⟩
    | cons e₂ rest =>
      have hop : Aggregator.combining (e :: e₂ :: rest) = some builtinOps[1] := rfl
      obtain ⟨total, w', hrun, htotal⟩ := unnamed_run ha (List.getElem_mem _) ha.sum hop w
      exact ⟨total, w', reduce_of_aggregate (run_bind_ok hrun), htotal⟩

theorem reduceAll_run (ha : a.Standard) :
    ∀ (lists : List (List Entry)) (w : Workspace), ∃ totals w', reduceAll Aggregator.standard lists a w = .ok totals w'
  | [], w => ⟨[], w, rfl⟩
  | es :: rest, w => by
    obtain ⟨total, w₁, hrun, -⟩ := reduce_run ha es w
    obtain ⟨totals, w', hrest⟩ := reduceAll_run ha rest w₁
    refine ⟨total :: totals, w', ?_⟩
    rw [reduceAll, run_bind_ok hrun, run_bind_ok hrest]
    rfl

theorem collect_append_run (ha : a.Standard) (hf : p.aggregate = Aggregator.standard) (turns : List Turn)
    (known : Ledger Entry Entry) {h : Heap} :
    ∀ (xs : List Entry) (made : Ledger Entry Entry) {w : Workspace}, h.GrowsTo w.heap →
      (∀ q ∈ made, Provided h w.heap known (Turn.arrived p turns) q.1 q.2) →
      ∃ outs w', collect p turns xs (known ++ made) a w = .ok outs w' ∧ w.heap.GrowsTo w'.heap ∧
        List.Forall₂ (Provided h w'.heap known (Turn.arrived p turns)) xs outs
  | [], _, w, _, _ => ⟨[], w, rfl, .refl _, .nil⟩
  | x :: xs, made, w, hg, hmade => by
    rw [collect]
    cases hx : Ledger.get? (known ++ made) x with
    | some total =>
      have htotal : Provided h w.heap known (Turn.arrived p turns) x total := by
        rw [Ledger.get?_append] at hx
        cases hknown : Ledger.get? known x with
        | some e =>
          rw [hknown] at hx
          cases hx
          exact .known hknown
        | none =>
          rw [hknown] at hx
          exact hmade _ (Ledger.mem_of_get? hx)
      obtain ⟨outs, w', hrun, hg', houts⟩ := collect_append_run ha hf turns known xs made hg hmade
      exact ⟨total :: outs, w', run_bind_ok hrun, hg', .cons (htotal.grows hg') houts⟩
    | none =>
      obtain ⟨total, w₁, hrun, htotal⟩ := reduce_run ha (Turn.arrived p turns x) w
      have hnone : Ledger.get? known x = none := by
        rw [Ledger.get?_append] at hx
        exact (Option.or_eq_none_iff.mp hx).1
      have hprovided : Provided h w₁.heap known (Turn.arrived p turns) x total := .of_totalled hnone hg htotal
      obtain ⟨outs, w', hrest, hg', houts⟩ := collect_append_run ha hf turns known xs (made ++ [(x, total)]) (hg.trans htotal.grows) (by
        intro q hq
        rcases List.mem_append.mp hq with hq | hq
        · exact (hmade q hq).grows htotal.grows
        · obtain rfl := List.mem_singleton.mp hq
          exact hprovided)
      refine ⟨total :: outs, w', ?_, htotal.grows.trans hg', .cons (hprovided.grows hg') houts⟩
      rw [← hf] at hrun
      rw [← List.append_assoc] at hrest
      dsimp only
      rw [run_bind_ok hrun, run_bind_ok hrest]
      rfl

/-- Assembling never fails, and totals that are made on the way are totals of what has arrived. -/
theorem collect_run (ha : a.Standard) (hf : p.aggregate = Aggregator.standard) (turns : List Turn) (xs : List Entry)
    (w : Workspace) : ∃ outs w', collect p turns xs (Turn.known turns) a w = .ok outs w' ∧ w.heap.GrowsTo w'.heap ∧
      List.Forall₂ (Provided w.heap w'.heap (Turn.known turns) (Turn.arrived p turns)) xs outs := by
  have hrun := collect_append_run ha hf turns (Turn.known turns) xs [] (.refl w.heap) (by simp)
  rwa [List.append_nil] at hrun

end Build

/-- A run that gets through its last turn succeeds if it can grant what was requested. -/
theorem Sweep.run_of_upTo {book : RuleBook} {p : Problem} {a : Ambient} {work : Workspace}
    (hf : p.aggregate = Aggregator.standard) (ha : a.Standard) {s : Stage}
    (h : upTo book (p.order work.heap).reverse a (start p work) = .ok () s) (hx : ∀ x ∈ p.xs, s.Grants x) :
    ∃ g stage, Sweep.run { problem := p } book a work = .ok g stage := by
  have hproper : p.aggregate.Proper := hf ▸ Aggregator.standard_proper
  obtain ⟨turns, halong⟩ := along_upTo hproper.returns _ (List.append_nil _).symm h
  obtain ⟨outs, w, hcollect, -⟩ := Build.collect_run ha hf turns p.xs s.work
  obtain ⟨g, stage, hassemble, -⟩ :=
    Coupled.ok_right (halong.recorded.assemble_tracks halong.seeded hproper hx) (run_bind_ok hcollect)
  exact ⟨g, stage, by rw [run_eq, run_bind_ok h, hassemble]⟩

end Backprop
