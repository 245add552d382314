import Backprop.Proofs.AggregateSound
import Backprop.Proofs.Balance

/-!
# Gradients are derivatives

On graphs of elementary operators the construction succeeds, and what it builds
for an entry is the derivative of the outputs, weighted with the seeds: the
turn of every elementary node succeeds and keeps the balance, so at the end
what has arrived is the derivative.
-/

namespace Backprop

universe u

section Aggregate
variable {F : Type u} [Field F] {c : Calculus F} {ρ : NodeId → F} {a : Ambient}

/-- A zero shows nothing and a sum shows the sum, so the total of gradients shows their sum. -/
theorem Build.reduce_shows (ha : a.Standard) {w : Workspace} {es : List Entry} {vs : List F}
    (hs : List.Forall₂ (w.heap.Shows c.interpret ρ) es vs) :
    ∃ e w', Build.reduce Aggregator.standard es a w = .ok e w' ∧ w.heap.GrowsTo w'.heap ∧
      w'.heap.Shows c.interpret ρ e vs.sum := by
  obtain ⟨e, w', hrun, htotal⟩ := Build.reduce_run ha es w
  refine ⟨e, w', hrun, htotal.grows, ?_⟩
  cases htotal with
  | single hw =>
    subst hw
    cases hs with
    | cons he hnil =>
      cases hnil
      simpa using he
  | combined hop hg hhas hnode =>
    have hshows := (Heap.applies_of_node hhas hnode).shows (Heap.shows_all_grows hs hg) 0
    cases hs with
    | nil =>
      cases hop
      exact hshows
    | cons _ hes =>
      cases hes with
      | nil => cases hop
      | cons =>
        cases hop
        exact hshows

end Aggregate

/-! ## Turns of elementary nodes -/

structure Node.Elementary (node : Node) : Prop where
  strays : node.strays = none
  operator : ∀ op ∈ node.op, op.Elementary node.inputs.length

instance (node : Node) : Decidable node.Elementary :=
  decidable_of_iff (node.strays.isNone = true ∧ ∀ op ∈ node.op, op.Elementary node.inputs.length)
    ⟨fun h => ⟨Option.isNone_iff_eq_none.mp h.1, h.2⟩, fun h => ⟨Option.isNone_iff_eq_none.mpr h.strays, h.operator⟩⟩

theorem Op.Elementary.outputs {op : Op} {inputs : Nat} (hop : op.Elementary inputs) : op.outputs = 1 := by
  have hall : ∀ op ∈ builtinOps, op.name ≠ "split" → op.outputs = 1 := by decide
  exact hall op hop.builtin hop.not_split

theorem Node.Elementary.outputs {node : Node} (hnode : node.Elementary) : node.outputs = 1 := by
  unfold Node.outputs
  cases hop : node.op with
  | none => rfl
  | some op => exact (hnode.operator op hop).outputs

theorem Heap.HasEntry.index_eq_zero {h : Heap} {e : Entry} (he : h.HasEntry e) (hnode : (h.node e.node).Elementary) :
    e.index = 0 := by
  have hlt := he.2
  unfold Heap.outputs at hlt
  rw [hnode.outputs] at hlt
  omega

section Turns
variable {F : Type u} [Field F] {c : Calculus F} {ρ : NodeId → F} {h₀ : Heap} {p : Problem} {a : Ambient}
  {turns : List Turn} {done rest : List NodeId} {n : NodeId}

theorem Heap.entries_of_elementary {h : Heap} (hnode : (h.node n).Elementary) : h.entries n = [⟨n, 0⟩] := by
  unfold Heap.entries Heap.outputs
  rw [hnode.outputs]
  rfl

theorem Heap.ready_of_elementary {h : Heap} {op : Op} (hn : h.Grounded n) (hnode : (h.node n).Elementary)
    (hop : (h.node n).op = some op) {total : Entry} {g : F} (htotal : h.Shows c.interpret ρ total g) :
    Ready c.interpret ρ h n [total] ⟨[g], (h.node n).inputs.map (h.value c.interpret ρ),
      [c.interpret op (h.node n).attrs ((h.node n).inputs.map (h.value c.interpret ρ)) 0]⟩ where
  has := hn.has
  strays := hnode.strays
  gradients := .cons htotal .nil
  inputs := by
    rw [List.forall₂_map_right_iff]
    exact List.forall₂_same.mpr fun e he => ⟨hn.inputs e he, rfl⟩
  outputs i v hi := by
    obtain ⟨rfl, rfl⟩ : i = 0 ∧ v = _ := by
      cases i with
      | zero => exact ⟨rfl, (Option.some.inj hi).symm⟩
      | succ i => cases hi
    refine ⟨?_, hn, Heap.value_apply (e := ⟨n, 0⟩) hn hop⟩
    unfold Heap.outputs
    rw [hnode.outputs]
    decide

/-- The rule of an elementary node succeeds and passes on the transpose of its tangent. -/
theorem Build.pull_shows (ha : a.Standard) {w : Workspace} {op : Op} (hn : w.heap.Grounded n)
    (hnode : (w.heap.node n).Elementary) (hop : (w.heap.node n).op = some op) {total : Entry} {g : F}
    (htotal : w.heap.Shows c.interpret ρ total g) :
    ∃ (es : List Entry) (w' : Workspace),
      Build.pull RuleBook.builtins none n op (w.heap.node n) [.entry total] a w = .ok (es.map .entry) w' ∧
      w.heap.GrowsTo w'.heap ∧ es.length = (w.heap.node n).inputs.length ∧ (∀ e ∈ es, w'.heap.Grounded e.node) ∧
      ∀ ds : List F, ds.length = (w.heap.node n).inputs.length →
        (List.zipWith (· * ·) (es.map (w'.heap.value c.interpret ρ)) ds).sum =
          g * c.differential op ((w.heap.node n).inputs.map (w.heap.value c.interpret ρ)) ds := by
  have helem := hnode.operator op hop
  obtain ⟨s, hs, htrans⟩ := Recipe.transposes (c := c) ha.ops helem
  obtain ⟨i, hlookup, hrule⟩ := RuleBook.builtins_follows.lookup n hop hs
  obtain ⟨trace, hfind⟩ := RuleBook.builtins.find_run n a w
  rw [hlookup] at hfind
  have hpull : Build.pull RuleBook.builtins none n op (w.heap.node n) [.entry total] a w =
      Recipe.rule s.2 n [.entry total] a { w with trace } := by
    rw [Build.pull, run_bind_ok hfind]
    simp only [hrule]
    rfl
  have hout : Outline.of (w.heap.node n) 1 = ⟨some op, (w.heap.node n).attrs,
      ((w.heap.node n).inputs.map (w.heap.value c.interpret ρ)).length, 1⟩ := by
    simp only [Outline.of, hop, Node.links_inputs hnode.strays, List.length_map]
  have hacc : op.accepts ((w.heap.node n).inputs.map (w.heap.value c.interpret ρ)).length = true := by
    rw [List.length_map]
    exact helem.accepts
  -- the results do not depend on the tangents, so any of them will do to run the recipe
  obtain ⟨rs, hdenote, hlen, -⟩ := htrans _ (List.replicate _ 0) g (w.heap.node n).attrs hacc List.length_replicate
  rw [← hout] at hdenote
  obtain ⟨es, w', hrun, hg, hshows⟩ := Recipe.denote_rule (w := { w with trace })
    (Heap.ready_of_elementary hn hnode hop htotal) hdenote
  refine ⟨es, w', hpull.trans hrun, hg, ?_, Heap.grounded_of_shows hshows, ?_⟩
  · rw [hshows.length_eq, hlen, List.length_map]
  · intro ds hds
    obtain ⟨rs', hdenote', -, hlaw⟩ := htrans _ ds g (w.heap.node n).attrs hacc (by rw [hds, List.length_map])
    rw [← hout, hdenote] at hdenote'
    cases hdenote'
    rw [Heap.map_value_of_shows hshows]
    exact hlaw

theorem sum_zip_eq_zipWith (v D : Entry → F) : ∀ (inputs grads : List Entry),
    ((inputs.zip grads).map fun q => v q.2 * D q.1).sum =
      (List.zipWith (· * ·) (grads.map v) (inputs.map D)).sum
  | [], grads => by simp
  | _ :: _, [] => by simp
  | i :: inputs, g :: grads => by simp [sum_zip_eq_zipWith v D inputs grads]

theorem Build.takeTurn_balanced (ha : a.Standard) (hf : p.aggregate = Aggregator.standard) {w : Workspace}
    (hg : h₀.GrowsTo w.heap) (hb : Balanced c ρ h₀ p w.heap turns done (n :: rest)) (hnd : (done ++ n :: rest).Nodup)
    (hn : h₀.Grounded n) (hnode : (h₀.node n).Elementary)
    (hinputs : ∀ e ∈ (h₀.node n).inputs, e.index = 0 ∧ e.node ∈ rest) {op : Op} (hop : (h₀.node n).op = some op)
    (level : Level) :
    ∃ t w', Build.takeTurn RuleBook.builtins p none level turns n op (h₀.node n) a w = .ok t w' ∧
      w.heap.GrowsTo w'.heap ∧ Balanced c ρ h₀ p w'.heap (turns ++ [t]) (done ++ [n]) rest := by
  have hsame : w.heap.node n = h₀.node n := hg.node_eq n hn.has
  have hentries : w.heap.entries n = [⟨n, 0⟩] := Heap.entries_of_elementary (hsame ▸ hnode)
  obtain ⟨total, w₁, hreduce, hg₁, htotal⟩ := Build.reduce_shows ha (hb.arrived ⟨n, 0⟩)
  have hg₀₁ := hg.trans hg₁
  have hsame₁ : w₁.heap.node n = h₀.node n := hg₀₁.node_eq n hn.has
  obtain ⟨es, w₂, hpull, hg₂, hlen, hgrads, hlaw⟩ := Build.pull_shows ha (hn.grows hg₀₁) (hsame₁ ▸ hnode)
    (hsame₁ ▸ hop) htotal
  rw [hsame₁] at hpull hlen hlaw
  have hvalues : (h₀.node n).inputs.map (w₁.heap.value c.interpret ρ) =
      (h₀.node n).inputs.map (h₀.value c.interpret ρ) :=
    List.map_congr_left fun e he => Heap.value_grows hg₀₁ (hn.inputs e he)
  have hadjoint : adjoint c ρ p w₂.heap turns ⟨n, 0⟩ = adjoint c ρ p w.heap turns ⟨n, 0⟩ :=
    adjoint_grows (hg₁.trans hg₂) (hb.grounded _)
  obtain ⟨trace, hlog⟩ := Build.logTurn_run level (h₀.node n) (es.map .entry) a w₂
  refine ⟨⟨n, [(⟨n, 0⟩, total)], (h₀.node n).inputs.zip es⟩, { w₂ with trace }, ?_, hg₁.trans hg₂, ?_⟩
  · have htotals : Build.reduceAll p.aggregate [Turn.arrived p turns ⟨n, 0⟩] a w = .ok [total] w₁ := by
      rw [Build.reduceAll, hf, run_bind_ok hreduce]
      rfl
    have hcount : (es.map Value.entry).length = (h₀.node n).inputs.length := by rw [List.length_map, hlen]
    rw [Build.takeTurn, run_bind_ok (r := w.heap) (u := w) rfl, hentries]
    rw [List.map_cons, List.map_nil, run_bind_ok htotals, List.map_cons, List.map_nil, run_bind_ok hpull,
      if_pos hcount, Build.gradientsOf_map_entry, run_bind_ok (r := es) (u := w₂) rfl, run_bind_ok hlog]
    rfl
  · refine (hb.grows (hg₁.trans hg₂)).turn hnd hinputs (hadjoint ▸ htotal.grows hg₂) hgrads fun x => ?_
    rw [sum_zip_eq_zipWith, hlaw _ (by rw [List.length_map]), hvalues, hadjoint,
      Heap.tangent_apply (e := ⟨n, 0⟩) hn hop, add_sub_cancel_left]
    rfl

theorem Build.turnOf_balanced (ha : a.Standard) (hf : p.aggregate = Aggregator.standard) {w : Workspace}
    (hg : h₀.GrowsTo w.heap) (hb : Balanced c ρ h₀ p w.heap turns done (n :: rest)) (hnd : (done ++ n :: rest).Nodup)
    (hn : h₀.Grounded n) (hnode : (h₀.node n).Elementary)
    (hinputs : ∀ e ∈ (h₀.node n).inputs, e.index = 0 ∧ e.node ∈ rest) (level : Level) :
    ∃ new w', Build.turnOf RuleBook.builtins p none level turns n a w = .ok new w' ∧
      w.heap.GrowsTo w'.heap ∧ Balanced c ρ h₀ p w'.heap (turns ++ new) (done ++ [n]) rest := by
  have hsame : w.heap.node n = h₀.node n := hg.node_eq n hn.has
  rw [Build.turnOf, run_bind_ok (r := w.heap) (u := w) rfl]
  simp only [hsame]
  cases hop : (h₀.node n).op with
  | none =>
    refine ⟨[], w, rfl, .refl _, ?_⟩
    rw [List.append_nil]
    exact hb.idle fun x => Heap.tangent_variable (e := ⟨n, 0⟩) hn hop
  | some op =>
    obtain ⟨t, w', hrun, hg', hb'⟩ := Build.takeTurn_balanced ha hf hg hb hnd hn hnode hinputs hop level
    exact ⟨[t], w', run_bind_ok hrun, hg', hb'⟩

structure Heap.Sweepable (h : Heap) (ns : List NodeId) : Prop where
  settled : h.Settled ns
  grounded : ∀ n ∈ ns, h.Grounded n
  elementary : ∀ n ∈ ns, (h.node n).Elementary
  inputs : ∀ n ∈ ns, ∀ e ∈ (h.node n).inputs, e.index = 0

theorem Heap.Sweepable.tail {h : Heap} {ns : List NodeId} (hs : h.Sweepable (n :: ns)) : h.Sweepable ns where
  settled := hs.settled.2
  grounded m hm := hs.grounded m (List.mem_cons_of_mem _ hm)
  elementary m hm := hs.elementary m (List.mem_cons_of_mem _ hm)
  inputs m hm := hs.inputs m (List.mem_cons_of_mem _ hm)

theorem Build.takeTurns_balanced (ha : a.Standard) (hf : p.aggregate = Aggregator.standard) (level : Level) :
    ∀ {rest done : List NodeId} {turns : List Turn} {w : Workspace}, h₀.Sweepable rest → h₀.GrowsTo w.heap →
      (done ++ rest).Nodup → Balanced c ρ h₀ p w.heap turns done rest →
      ∃ turns' w', Build.takeTurns RuleBook.builtins p none level rest turns a w = .ok turns' w' ∧
        w.heap.GrowsTo w'.heap ∧ Balanced c ρ h₀ p w'.heap turns' (done ++ rest) []
  | [], done, turns, w, _, _, _, hb => ⟨turns, w, rfl, .refl _, by rw [List.append_nil]; exact hb⟩
  | n :: rest, done, turns, w, hs, hg, hnd, hb => by
    have hinputs : ∀ e ∈ (h₀.node n).inputs, e.index = 0 ∧ e.node ∈ rest := fun e he =>
      ⟨hs.inputs n (by simp) e he, hs.settled.1 _ (List.mem_append_left _ (List.mem_map_of_mem he))⟩
    obtain ⟨new, w₁, hrun, hg₁, hb₁⟩ := Build.turnOf_balanced ha hf hg hb hnd (hs.grounded n (by simp))
      (hs.elementary n (by simp)) hinputs level
    obtain ⟨turns', w', hrest, hg', hb'⟩ := takeTurns_balanced ha hf level hs.tail (hg.trans hg₁)
      (by rw [List.append_assoc]; exact hnd) hb₁
    refine ⟨turns', w', ?_, hg₁.trans hg', by rw [List.append_assoc] at hb'; exact hb'⟩
    rw [Build.takeTurns, run_bind_ok hrun]
    exact hrest

theorem Build.collect_shows (ha : a.Standard) (hf : p.aggregate = Aggregator.standard) {h : Heap}
    (hb : Balanced c ρ h₀ p h turns done rest) :
    ∀ (xs : List Entry) (known : Ledger Entry Entry) {w : Workspace}, h.GrowsTo w.heap →
      (∀ q ∈ known, w.heap.Shows c.interpret ρ q.2 (adjoint c ρ p h turns q.1)) →
      ∃ es w', Build.collect p turns xs known a w = .ok es w' ∧ w.heap.GrowsTo w'.heap ∧
        List.Forall₂ (w'.heap.Shows c.interpret ρ) es (xs.map (adjoint c ρ p h turns))
  | [], _, w, _, _ => ⟨[], w, rfl, .refl _, .nil⟩
  | x :: xs, known, w, hg, hknown => by
    rw [Build.collect]
    cases hx : Ledger.get? known x with
    | some total =>
      obtain ⟨es, w', hrun, hg', hes⟩ := collect_shows ha hf hb xs known hg hknown
      exact ⟨total :: es, w', run_bind_ok hrun, hg', .cons ((hknown _ (Ledger.mem_of_get? hx)).grows hg') hes⟩
    | none =>
      obtain ⟨total, w₁, hreduce, hg₁, htotal⟩ := Build.reduce_shows ha (Heap.shows_all_grows (hb.arrived x) hg)
      rw [← hf] at hreduce
      obtain ⟨es, w', hrun, hg', hes⟩ := collect_shows ha hf hb xs (known ++ [(x, total)]) (hg.trans hg₁) (by
        intro q hq
        rcases List.mem_append.mp hq with hq | hq
        · exact (hknown q hq).grows hg₁
        · obtain rfl := List.mem_singleton.mp hq
          exact htotal)
      refine ⟨total :: es, w', ?_, hg₁.trans hg', .cons (htotal.grows hg') hes⟩
      dsimp only
      rw [run_bind_ok hreduce, run_bind_ok hrun]
      rfl

end Turns

/-! ## The whole construction -/

section Whole
variable {F : Type u} [Field F] {c : Calculus F} {ρ : NodeId → F} {p : Problem} {a : Ambient} {w : Workspace}

theorem Problem.Fits.sweepable (hp : p.Fits w.heap)
    (helem : ∀ n, w.heap.Reachable (p.ys.map Entry.node) n → (w.heap.node n).Elementary) :
    w.heap.Sweepable (p.order w.heap).reverse := by
  have harr := hp.arranged
  refine ⟨harr.settled, Heap.grounded_of_settled harr.settled harr.has, fun n hn => helem n (harr.reachable n hn), ?_⟩
  intro n hn e he
  have hr : w.heap.Reachable (p.ys.map Entry.node) e.node :=
    (harr.reachable n hn).step (List.mem_append_left _ (List.mem_map_of_mem he))
  exact (hp.wellFormed.inputs n (harr.has n hn) e he).index_eq_zero (helem _ hr)

theorem Build.relay_shows (ha : a.Standard) (hf : p.aggregate = Aggregator.standard) (hm : p.mirror = none)
    (hp : p.Fits w.heap) (helem : ∀ n, w.heap.Reachable (p.ys.map Entry.node) n → (w.heap.node n).Elementary)
    (hseeds : ∀ e ∈ p.seeds, w.heap.Grounded e.node) (hlen : p.ys.length = p.seeds.length) (hnd : p.ys.Nodup) :
    ∃ g w', Build.relay RuleBook.builtins p a w = .ok g w' ∧
      List.Forall₂ (w'.heap.Shows c.interpret ρ) g.outputs (p.xs.map fun x => ((p.ys.zip p.seeds).map fun q =>
        w.heap.value c.interpret ρ q.2 * w.heap.tangent c ρ x q.1).sum) := by
  have harr := hp.arranged
  have hs := hp.sweepable helem
  have hstart : Balanced c ρ w.heap p w.heap [] [] (p.order w.heap).reverse := by
    refine balanced_seeds hseeds hlen hnd (fun y hy => ?_) harr.nodup
    have hmem := List.mem_reverse.mpr (hp.mem_order hy)
    exact ⟨(hp.ys y hy).index_eq_zero (hs.elementary _ hmem), hmem⟩
  obtain ⟨verbose, hverbose⟩ := ha.verbose
  rw [Build.relay_run (fun n hn => (hs.elementary n (List.mem_reverse.mpr hn)).strays) hm hverbose]
  obtain ⟨turns, w₁, hturns, hg₁, hb⟩ := Build.takeTurns_balanced
    (w := { w with trace := w.trace.push (Build.visitEvent p w.heap) }) ha hf
    (if verbose then .info else .debug) hs (.refl _) harr.nodup hstart
  obtain ⟨es, w₂, hcollect, hg₂, hes⟩ := Build.collect_shows ha hf hb p.xs (Turn.known turns) (.refl _)
    fun q hq => (hb.totals q hq).2
  refine ⟨{ outputs := es }, w₂, ?_, ?_⟩
  · rw [run_bind_ok hturns, run_bind_ok hcollect]
    rfl
  · rw [← List.map_congr_left fun x hx => hb.derivative harr.nodup fun hm =>
      (hp.xs x hx).index_eq_zero (hs.elementary _ hm)]
    exact hes

end Whole

/-- Every output is the derivative of the ys, weighted with the seeds, by the entry requested in its place. -/
theorem Build.gradients_are_derivatives {a : Ambient} {work : Workspace} {ys seeds xs : List Entry} (ha : a.Standard)
    (hw : work.heap.WellFormed) (hys : ∀ y ∈ ys, work.heap.HasEntry y) (hseeds : ∀ s ∈ seeds, work.heap.HasEntry s)
    (hxs : ∀ x ∈ xs, work.heap.HasEntry x) (hac : work.heap.AcyclicFrom ((ys ++ seeds).map Entry.node))
    (helem : ∀ n, work.heap.Reachable (ys.map Entry.node) n → (work.heap.node n).Elementary)
    (hnd : ys.Nodup) (hlen : ys.length = seeds.length) :
    ∃ g work', Build.generate RuleBook.builtins
        { ys := .ofEntries ys, seeds := .ofEntries seeds, xs := .ofEntries xs } a work = .ok g work' ∧
      (∀ out ∈ g.outputs, work'.heap.Grounded out.node) ∧
      ∀ {F : Type u} [Field F] (c : Calculus F) (ρ : NodeId → F),
        g.outputs.map (work'.heap.value c.interpret ρ) = xs.map fun x => ((ys.zip seeds).map fun q =>
          work.heap.value c.interpret ρ q.2 * work.heap.tangent c ρ x q.1).sum := by
  let p : Problem := { ys, seeds, xs, aggregate := Aggregator.standard, mirror := none }
  have hp : p.Fits work.heap :=
    ⟨hw, hys, hxs, hac.mono fun r hr => by rw [List.map_append]; exact List.mem_append_left _ hr⟩
  have hgrounded : ∀ s ∈ seeds, work.heap.Grounded s.node := Heap.grounded_of_acyclic hw hseeds
    (hac.mono fun r hr => by rw [List.map_append]; exact List.mem_append_right _ hr)
  have hrelay : Build.generate RuleBook.builtins
      { ys := .ofEntries ys, seeds := .ofEntries seeds, xs := .ofEntries xs } a work =
        Build.relay RuleBook.builtins p a work :=
    (Build.generate_ofEntries hlen xs _ _ _ a work).trans
      (Build.sweep_eq_relay (p := p) hp RuleBook.builtins_follows.grows Aggregator.standard_proper)
  -- the run is the same for every field, so any of them shows that it succeeds
  obtain ⟨g, work', hrun, hshows⟩ := Build.relay_shows (c := ⟨id, id, id, id⟩) (ρ := fun _ => (0 : ℚ)) ha
    (p := p) rfl rfl hp helem hgrounded hlen hnd
  refine ⟨g, work', hrelay.trans hrun, Heap.grounded_of_shows hshows, fun {F} _ c ρ => ?_⟩
  obtain ⟨g', work₂, hrun', hshows'⟩ := Build.relay_shows (c := c) (ρ := ρ) ha (p := p) rfl rfl hp helem hgrounded
    hlen hnd
  rw [hrun] at hrun'
  cases hrun'
  exact Heap.map_value_of_shows hshows'

theorem Build.gradients_are_derivatives_sample :
    ∃ g work', Build.generate RuleBook.builtins
        { ys := .ofEntries [⟨⟨4⟩, 0⟩, ⟨⟨3⟩, 0⟩], seeds := .ofEntries [⟨⟨7⟩, 0⟩, ⟨⟨5⟩, 1⟩],
          xs := .ofEntries [⟨⟨0⟩, 0⟩, ⟨⟨3⟩, 0⟩, ⟨⟨2⟩, 0⟩, ⟨⟨5⟩, 1⟩] } .initial { heap := .sample } = .ok g work' ∧
      (∀ out ∈ g.outputs, work'.heap.Grounded out.node) ∧
      ∀ {F : Type} [Field F] (c : Calculus F) (ρ : NodeId → F),
        g.outputs.map (work'.heap.value c.interpret ρ) =
          [⟨⟨0⟩, 0⟩, ⟨⟨3⟩, 0⟩, ⟨⟨2⟩, 0⟩, ⟨⟨5⟩, 1⟩].map fun x =>
            ([(⟨⟨4⟩, 0⟩, ⟨⟨7⟩, 0⟩), (⟨⟨3⟩, 0⟩, ⟨⟨5⟩, 1⟩)].map fun q : Entry × Entry =>
              Heap.sample.value c.interpret ρ q.2 * Heap.sample.tangent c ρ x q.1).sum := by
  refine gradients_are_derivatives Ambient.initial_standard
    Heap.sample_ascending.wellFormed (by decide) (by decide) (by decide) (Heap.sample_ascending.acyclicFrom _) ?_
    (by decide) rfl
  intro n hn
  have hle : n.index ≤ 4 := by
    obtain ⟨r, hr, hle⟩ := Heap.sample_ascending.le_of_reachable hn
    fin_cases hr
    · exact hle
    · exact Nat.le_trans hle (by decide)
  have hall : ∀ i ≤ 4, (Heap.sample.node ⟨i⟩).Elementary := by decide
  exact hall n.index hle

end Backprop
