import Backprop.Proofs.ScheduleSound
import Backprop.Proofs.StructureSound
import Mathlib.Data.Set.Card

/-!
# The size of gradient graphs

How many nodes a sweep makes. `Spends` bounds the nodes that an action makes,
however it ends, and what is called one after the other adds up. A turn reduces
each output once and follows one rule, a copy is made once, and a request that
is made twice is reduced once, so the whole sweep is linear in the size of the
graph, whatever the number of paths through it.
-/

namespace Backprop

namespace Build
variable {α β : Type} {x : Build α} {f : α → Build β} {a : Ambient} {w u : Workspace} {j k : Nat}

def after (x : Build α) (a : Ambient) (w : Workspace) : Workspace :=
  match x a w with
  | .ok _ w' => w'
  | .error _ w' => w'

theorem after_ok {r : α} (hx : x a w = .ok r u) : after x a w = u := by
  unfold after
  rw [hx]

theorem after_error {e : Fault} (hx : x a w = .error e u) : after x a w = u := by
  unfold after
  rw [hx]

/-- However the action ends, at most `k` nodes are new and the others are as they were. -/
structure Spends (x : Build α) (a : Ambient) (w : Workspace) (k : Nat) : Prop where
  grows : w.heap.GrowsTo (after x a w).heap
  size_le : (after x a w).heap.size ≤ w.heap.size + k

namespace Spends

theorem of_heap_eq (hx : (after x a w).heap = w.heap) : Spends x a w 0 := by
  constructor
  · rw [hx]
    exact .refl _
  · rw [hx]
    exact Nat.le_refl _

theorem of_ok {r : α} (hx : x a w = .ok r u) (hu : u.heap = w.heap) : Spends x a w 0 :=
  .of_heap_eq (by rw [after_ok hx, hu])

theorem congr {y : Build α} (hy : Spends y a w k) (hxy : x a w = y a w) : Spends x a w k := by
  have hafter : after x a w = after y a w := by
    unfold after
    rw [hxy]
  exact ⟨hafter ▸ hy.grows, hafter ▸ hy.size_le⟩

theorem mono (hx : Spends x a w j) (hjk : j ≤ k) : Spends x a w k :=
  ⟨hx.grows, hx.size_le.trans (Nat.add_le_add_left hjk _)⟩

theorem pure (r : α) : Spends (pure r : Build α) a w 0 := .of_ok rfl rfl

theorem throw (e : Fault) : Spends (throw e : Build α) a w 0 := .of_heap_eq rfl

/-- The second action is charged in the workspaces in which the first can end. -/
theorem bind (hx : Spends x a w j)
    (hf : ∀ r w', x a w = .ok r w' → w.heap.GrowsTo w'.heap → Spends (f r) a w' k) : Spends (x >>= f) a w (j + k) := by
  cases hrun : x a w with
  | error e w' =>
    have hafter : after (x >>= f) a w = after x a w := by
      rw [after_error (run_bind_error hrun), after_error hrun]
    exact ⟨hafter ▸ hx.grows, (hafter ▸ hx.size_le).trans (Nat.add_le_add_left (Nat.le_add_right j k) _)⟩
  | ok r w' =>
    have hafter : after (x >>= f) a w = after (f r) a w' := by
      unfold after
      rw [run_bind_ok hrun]
    have hsize := hx.size_le
    have hgrows := hx.grows
    rw [after_ok hrun] at hsize hgrows
    have hrest := hf r w' hrun hgrows
    exact ⟨hafter ▸ hgrows.trans hrest.grows, hafter ▸ by have := hrest.size_le; omega⟩

/-- An action that leaves the heap alone is free. -/
theorem step {r : α} (hx : x a w = .ok r u) (hu : u.heap = w.heap) (hf : Spends (f r) a u k) :
    Spends (x >>= f) a w k := by
  have hbind := (Spends.of_ok hx hu).bind (f := f) (k := k) fun r' u' hx' _ => by
    rw [hx] at hx'
    cases hx'
    exact hf
  exact hbind.mono (by omega)

/-- What comes after the charged action is free. -/
theorem then_free (hx : Spends x a w k) (hf : ∀ r w', x a w = .ok r w' → Spends (f r) a w' 0) :
    Spends (x >>= f) a w k := hx.bind fun r w' hrun _ => hf r w' hrun

theorem free_then (hx : Spends x a w 0) (hf : ∀ r w', x a w = .ok r w' → w.heap.GrowsTo w'.heap → Spends (f r) a w' k) :
    Spends (x >>= f) a w k := (hx.bind hf).mono (by omega)

end Spends

/-! ## The price of the steps -/

theorem spends_ofExcept (r : Except Fault α) : Spends (ofExcept r) a w 0 := by
  cases r with
  | ok r => exact .pure r
  | error e => exact .throw e

theorem spends_setting (path : List String) : Spends (setting path) a w 0 :=
  (spends_ofExcept (a.profile.get path)).congr rfl

theorem spends_flag (path : List String) : Spends (flag path) a w 0 :=
  (spends_ofExcept (a.profile.getFlag path)).congr rfl

theorem spends_operator (name : Datum) : Spends (operator name) a w 0 := by
  cases name with
  | text s => exact (spends_ofExcept (a.ops.find s)).congr rfl
  | _ =>
    unfold operator
    dsimp only
    split
    · exact .throw _
    · exact .throw _

theorem spends_create (name : Option String) (node : Node) : Spends (create name node) a w 1 where
  grows := w.heap.growsTo_create name node
  size_le := Nat.le_of_eq (w.heap.size_create name node)

theorem spends_entry (n : NodeId) (index : Int) : Spends (entry n index) a w 0 :=
  .step (r := w.heap) rfl rfl (spends_ofExcept _)

theorem spends_apply (op : Datum) (inputs : List Value) (name : Option String) (deps : List Value)
    (attrs : Ledger String Datum) : Spends (apply op inputs name deps attrs) a w 1 := by
  refine (spends_operator op).free_then fun op w₁ _ _ => .step (r := w₁.heap) rfl rfl ?_
  refine (spends_ofExcept _).free_then fun es w₂ _ _ => ?_
  unfold applyOp
  split
  · exact spends_create _ _
  · exact (Spends.throw _).mono (Nat.zero_le _)

theorem spends_unnamed (op : Op) (inputs : List Value) : Spends (unnamed op inputs) a w 1 :=
  (spends_create _ _).then_free fun _ _ _ => spends_entry _ _

theorem spends_aggregate (grads : List Value) : Spends (aggregate grads) a w 1 := by
  have hconfigured : ∀ path, Spends (do unnamed (← operator (← setting path)) grads) a w 1 := fun path =>
    (spends_setting path).free_then fun _ _ _ _ => (spends_operator _).free_then fun _ _ _ _ => spends_unnamed _ _
  unfold aggregate
  split
  · exact (hconfigured _).then_free fun _ _ _ => .pure _
  · exact (Spends.pure _).mono (Nat.zero_le _)
  · exact (hconfigured _).then_free fun _ _ _ => .pure _

theorem spends_reduce (es : List Entry) : Spends (reduce Aggregator.standard es) a w 1 := by
  refine (spends_aggregate (es.map .entry)).then_free fun v w₁ _ => ?_
  split
  · exact .pure _
  · exact .throw _

theorem spends_reduceAll : ∀ (ess : List (List Entry)) (w : Workspace),
    Spends (reduceAll Aggregator.standard ess) a w ess.length
  | [], w => .pure _
  | es :: ess, w => by
    rw [reduceAll, List.length_cons, Nat.add_comm]
    exact (spends_reduce es).bind fun total w₁ _ _ => (spends_reduceAll ess w₁).then_free fun _ _ _ => .pure _

end Build

/-! ## The price of rules -/

namespace Recipe
open Build
variable {a : Ambient}

theorem spends_pick (items : List Value) (position : Int) (w : Workspace) : Spends (Rule.pick items position) a w 0 :=
  (spends_ofExcept _).then_free fun _ _ _ => .pure _

theorem spends_output (n : NodeId) (index : Int) (w : Workspace) : Spends (Rule.output n index) a w 0 :=
  (spends_entry n index).then_free fun _ _ _ => .pure _

theorem spends_operand (n : NodeId) (grads : List Value) (operand : Operand) (w : Workspace) :
    Spends (operand.eval n grads) a w 0 := by
  cases operand with
  | gradient position => exact spends_pick _ _ w
  | input position => exact .step (r := (w.heap.node n).links.inputs) rfl rfl (spends_pick _ _ w)
  | output index => exact spends_output n index w

theorem spends_create (n : NodeId) (name : Option (String → String)) (op : String) (attrs : Ledger String Datum)
    (args : List Value) (deps : List NodeId) (w : Workspace) : Spends (create n name op attrs args deps) a w 1 :=
  .step (r := w.heap) rfl rfl (spends_apply _ _ _ _ _)

theorem spends_outputOf (v : Value) (index : Int) (w : Workspace) : Spends (outputOf v index) a w 0 := by
  unfold outputOf
  split
  · exact spends_output _ index w
  · exact .throw _

/-- A recipe makes one node for each operator that it applies. -/
theorem spends_run (n : NodeId) (grads : List Value) (recipe : Recipe) :
    ∀ (vs : List Value) (w : Workspace), Spends (run n grads recipe vs) a w recipe.ops.length := by
  induction recipe with
  | fail e => exact fun _ _ => .throw e
  | give results => exact fun _ _ => .pure _
  | spread name op attrs args =>
    intro vs w
    refine (spends_create n name op attrs _ _ w).then_free fun made w₁ _ => ?_
    exact .step (r := w₁.heap) rfl rfl (.pure _)
  | fetch operand rest ih =>
    intro vs w
    exact (spends_operand n grads operand w).free_then fun v w₁ _ _ => ih _ w₁
  | make name op attrs args rest ih =>
    intro vs w
    rw [ops, List.length_cons, Nat.add_comm]
    refine (spends_create n name op attrs _ _ w).bind fun made w₁ _ _ => ?_
    exact (spends_output made 0 w₁).free_then fun v w₂ _ _ => ih _ w₂
  | node name op attrs args deps rest ih =>
    intro vs w
    rw [ops, List.length_cons, Nat.add_comm]
    exact (spends_create n name op attrs _ _ w).bind fun made w₁ _ _ => ih _ w₁
  | entry position index rest ih =>
    intro vs w
    exact (spends_outputOf _ index w).free_then fun v w₁ _ _ => ih _ w₁

theorem builtins_ops_length {s : String × (Outline → Recipe)} (hs : s ∈ builtins) (o : Outline) :
    (s.2 o).ops.length ≤ 3 := by
  fin_cases hs <;> simp [zero, sum, constant, copy, negative, exp, log, relu, reluBackward, add, sub, mul, div, split,
    concatenate, derive, ops, ops_fetchAll]
  -- the product and the quotient count their inputs first
  · split <;> simp [ops]
  · split <;> simp [ops]

end Recipe

def Selector.selects (test : Selector) (node : Node) (n : NodeId) : Bool :=
  match test.holds n node with
  | .ok holds => holds
  | .error _ => false

theorem Selector.selects_iff {test : Selector} {node : Node} {n : NodeId} :
    test.selects node n = true ↔ test.holds n node = .ok true := by
  unfold selects
  cases test.holds n node <;> simp

theorem RuleBook.Follows.exists_recipe {book : RuleBook} {recipes : List (String × (Outline → Recipe))}
    (hb : book.Follows recipes) {q : String × Registration} (hq : q ∈ book) :
    ∃ s ∈ recipes, q.2.implementation.rule = some (Recipe.rule s.2) := by
  induction hb with
  | nil => cases hq
  | @cons _ s _ _ hrule _ ih =>
    rcases List.mem_cons.mp hq with rfl | hq
    · exact ⟨s, by simp, hrule.1⟩
    · obtain ⟨s, hs, hrule⟩ := ih hq
      exact ⟨s, List.mem_cons_of_mem _ hs, hrule⟩

namespace Build
variable {a : Ambient} {w : Workspace} {p : Problem} {h₀ : Heap}

theorem spends_find (book : RuleBook) (n : NodeId) : Spends (book.find n) a w 0 := by
  obtain ⟨trace, hfind⟩ := book.find_run n a w
  apply Spends.of_heap_eq
  unfold after
  rw [hfind]
  cases book.lookup n (w.heap.node n) <;> rfl

theorem spends_pull (mirrors : Option MirrorMap) (n : NodeId) (op : Op) (node : Node) (totals : List Value) :
    Spends (pull RuleBook.builtins mirrors n op node totals) a w 3 := by
  refine (spends_find _ n).free_then fun found w₁ hfind _ => ?_
  cases found with
  | none => exact (Spends.throw _).mono (Nat.zero_le _)
  | some implementation =>
    obtain ⟨q, hq, rfl⟩ : ∃ q ∈ RuleBook.builtins, q.2.implementation = implementation := by
      obtain ⟨trace, hrun⟩ := RuleBook.builtins.find_run n a w
      rw [hfind] at hrun
      cases hl : RuleBook.builtins.lookup n (w.heap.node n) with
      | error e => rw [hl] at hrun; cases hrun
      | ok found =>
        rw [hl] at hrun
        cases hrun
        exact RuleBook.mem_lookup hl
    obtain ⟨s, hs, hrule⟩ := RuleBook.builtins_follows.exists_recipe hq
    simp only [hrule]
    refine .step (r := w₁.heap) rfl rfl ?_
    exact (Recipe.spends_run _ _ _ _ w₁).mono (Recipe.builtins_ops_length hs _)

/-! ## The price of a sweep -/

theorem spends_takeTurn (hf : p.aggregate = Aggregator.standard) (mirrors : Option MirrorMap) (level : Level)
    (turns : List Turn) (n : NodeId) (op : Op) (node : Node) :
    Spends (takeTurn RuleBook.builtins p mirrors level turns n op node) a w ((w.heap.entries n).length + 3) := by
  refine .step (r := w.heap) rfl rfl ?_
  dsimp only
  rw [hf]
  have htotals := spends_reduceAll (a := a) ((w.heap.entries n).map (Turn.arrived p turns)) w
  rw [List.length_map] at htotals
  refine htotals.bind fun totals w₁ _ _ => (spends_pull _ n op node _).then_free fun grads w₂ _ => ?_
  split
  · refine (spends_ofExcept _).free_then fun es w₃ _ _ => ?_
    obtain ⟨trace, hlog⟩ := logTurn_run level node grads a w₃
    exact .step hlog rfl (.pure _)
  · exact .throw _

theorem spends_takeTurns (hf : p.aggregate = Aggregator.standard) (mirrors : Option MirrorMap) (level : Level) :
    ∀ (ns : List NodeId) (turns : List Turn) (w : Workspace), h₀.GrowsTo w.heap → (∀ n ∈ ns, h₀.Has n) →
      Spends (takeTurns RuleBook.builtins p mirrors level ns turns) a w
        (3 * (ns.filter fun n => (h₀.node n).op.isSome).length + (h₀.results ns).length)
  | [], turns, w, _, _ => .pure _
  | n :: rest, turns, w, hg, hns => by
    have hn := hns n (by simp)
    have hnode := hg.node_eq n hn
    have hrest : ∀ turns w', w.heap.GrowsTo w'.heap → Spends (takeTurns RuleBook.builtins p mirrors level rest turns) a w'
        (3 * (rest.filter fun n => (h₀.node n).op.isSome).length + (h₀.results rest).length) := fun turns w' hg' =>
      spends_takeTurns hf mirrors level rest turns w' (hg.trans hg') fun m hm => hns m (List.mem_cons_of_mem _ hm)
    rw [takeTurns]
    cases hop : (h₀.node n).op with
    | none =>
      have hturn : turnOf RuleBook.builtins p mirrors level turns n a w = .ok [] w := by
        unfold turnOf
        rw [run_bind_ok (r := w.heap) (u := w) rfl, hnode, hop]
        rfl
      refine .step hturn rfl ((hrest _ w (.refl _)).mono (Nat.le_of_eq ?_))
      simp [Heap.results, hop]
    | some op =>
      have hturn : Spends (turnOf RuleBook.builtins p mirrors level turns n) a w ((h₀.entries n).length + 3) := by
        unfold turnOf
        refine .step (r := w.heap) rfl rfl ?_
        simp only [hnode, hop]
        rw [← hg.entries_eq hn]
        exact (spends_takeTurn hf mirrors level turns n op _).then_free fun _ _ _ => .pure _
      refine (hturn.bind fun new w' _ hg' => hrest _ w' hg').mono (Nat.le_of_eq ?_)
      simp [Heap.results, hop]
      omega

theorem spends_copyNode (m : MirrorMap) (suffix : Datum) (n : NodeId) : Spends (m.copyNode suffix n) a w 1 := by
  refine .step (r := w.heap) rfl rfl ((spends_ofExcept _).free_then fun _ _ _ _ => ?_)
  refine (spends_ofExcept _).free_then fun _ _ _ _ => (spends_ofExcept _).free_then fun _ _ _ _ => ?_
  exact (spends_ofExcept _).free_then fun _ _ _ _ => spends_create _ _

theorem spends_extend (test : Selector) (suffix : Datum) (m : MirrorMap) (n : NodeId) :
    Spends (MirrorMap.extend test suffix m n) a w (if test.selects (w.heap.node n) n then 1 else 0) := by
  refine .step (r := w.heap) rfl rfl ?_
  cases ht : test.holds n (w.heap.node n) with
  | error e => exact (((spends_ofExcept _).free_then fun b _ hb _ => by rw [ht] at hb; cases hb).mono (Nat.zero_le _))
  | ok holds =>
    refine .step (r := holds) (u := w) (by rw [ht]; rfl) rfl ?_
    unfold Selector.selects
    rw [ht]
    cases holds with
    | false => exact .pure _
    | true => exact (spends_copyNode m suffix n).then_free fun _ _ _ => .pure _

theorem spends_mirrorBuild (test : Selector) (suffix : Datum) : ∀ (ns : List NodeId) (m : MirrorMap) (w : Workspace),
    h₀.GrowsTo w.heap → (∀ n ∈ ns, h₀.Has n) →
    Spends (MirrorMap.build test suffix ns m) a w (ns.filter fun n => test.selects (h₀.node n) n).length
  | [], m, w, _, _ => .pure _
  | n :: rest, m, w, hg, hns => by
    have hextend := spends_extend (a := a) (w := w) test suffix m n
    rw [hg.node_eq n (hns n (by simp))] at hextend
    have hbind := hextend.bind fun m' w' _ hg' => spends_mirrorBuild test suffix rest m' w' (hg.trans hg') fun k hk =>
      hns k (List.mem_cons_of_mem _ hk)
    refine hbind.mono (Nat.le_of_eq ?_)
    rw [List.filter_cons]
    split
    · rw [List.length_cons, Nat.add_comm]
    · rw [Nat.zero_add]

theorem spends_mirrorMap {order : List NodeId} (test : Option Selector) (hg : h₀.GrowsTo w.heap)
    (horder : ∀ n ∈ order, h₀.Has n) : Spends (mirrorMap order test none) a w
      (order.filter fun n => test.any fun t => t.selects (h₀.node n) n).length := by
  cases test with
  | none => exact (Spends.pure _).mono (Nat.zero_le _)
  | some test =>
    refine (spends_setting _).free_then fun suffix w₁ _ hg₁ => ?_
    refine (spends_mirrorBuild test suffix order [] w₁ (hg.trans hg₁) horder).then_free fun m w₂ _ => ?_
    exact .step (r := ()) rfl rfl (.pure _)

/-- Every entry that is requested is reduced once at most. -/
theorem spends_collect (hf : p.aggregate = Aggregator.standard) (turns : List Turn) : ∀ (xs : List Entry)
    (known : Ledger Entry Entry) (w : Workspace), Spends (collect p turns xs known) a w
      {x | x ∈ xs ∧ Ledger.get? known x = none}.ncard
  | [], known, w => (Spends.pure _).mono (Nat.zero_le _)
  | x :: xs, known, w => by
    have hfinite : {y | y ∈ x :: xs ∧ Ledger.get? known y = none}.Finite :=
      (List.finite_toSet (x :: xs)).subset fun y hy => hy.1
    rw [collect]
    cases hk : Ledger.get? known x with
    | some total =>
      refine ((spends_collect hf turns xs known w).then_free fun _ _ _ => .pure _).mono (Set.ncard_le_ncard ?_ hfinite)
      exact fun y hy => ⟨List.mem_cons_of_mem _ hy.1, hy.2⟩
    | none =>
      have hx : x ∈ {y | y ∈ x :: xs ∧ Ledger.get? known y = none} := ⟨List.mem_cons_self, hk⟩
      rw [← Set.ncard_sdiff_singleton_add_one hx hfinite, Nat.add_comm, hf]
      refine (spends_reduce _).bind fun total w₁ _ _ => ?_
      refine ((spends_collect hf turns xs (known ++ [(x, total)]) w₁).then_free fun _ _ _ => .pure _).mono ?_
      -- what is left to make is what was, without the entry that was just made
      refine Set.ncard_le_ncard (fun y hy => ?_) hfinite.sdiff
      obtain ⟨hmem, hnone⟩ := hy
      rw [Ledger.get?_append, Option.or_eq_none_iff] at hnone
      refine ⟨⟨List.mem_cons_of_mem _ hmem, hnone.1⟩, fun hyx => ?_⟩
      have hself := hnone.2
      rw [hyx, Ledger.get?_cons] at hself
      simp at hself

theorem spends_relay (hp : p.Fits w.heap) (hf : p.aggregate = Aggregator.standard) :
    Spends (relay RuleBook.builtins p) a w
      (((p.order w.heap).filter fun n => p.mirror.any fun t => t.selects (w.heap.node n) n).length +
        (3 * ((p.order w.heap).reverse.filter fun n => (w.heap.node n).op.isSome).length +
          (w.heap.results (p.order w.heap).reverse).length) + {x | x ∈ p.xs}.ncard) := by
  have horder : ∀ n ∈ (p.order w.heap).reverse, w.heap.Has n := hp.arranged.has
  have hvisited : Spends (visited p) a w 0 := by
    refine .step (r := w.heap) rfl rfl ((spends_ofExcept _).free_then fun _ _ _ _ => ?_)
    exact .of_ok rfl rfl
  have hprepared : Spends (prepared p) a w
      ((p.order w.heap).filter fun n => p.mirror.any fun t => t.selects (w.heap.node n) n).length :=
    .step (r := w.heap) rfl rfl (hvisited.free_then fun _ w₁ _ hg₁ =>
      spends_mirrorMap p.mirror hg₁ fun n hn => horder n (List.mem_reverse.mpr hn))
  refine .step (r := w.heap) rfl rfl (Spends.bind ?_ fun turns w₁ _ _ => ?_)
  · refine hprepared.bind fun mirrors w₁ _ hg₁ => ?_
    have hlevel : Spends turnLevel a w₁ 0 := (spends_flag _).then_free fun _ _ _ => .pure _
    exact hlevel.free_then fun level w₂ _ hg₂ => spends_takeTurns hf mirrors level _ [] w₂ (hg₁.trans hg₂) horder
  · refine ((spends_collect hf turns p.xs _ w₁).then_free fun _ _ _ => .pure _).mono ?_
    exact Set.ncard_le_ncard (fun x hx => hx.1) (List.finite_toSet p.xs)

end Build

/-! ## Linear size -/

theorem ncard_eq_length {α : Type} {s : Set α} {l : List α} (hnd : l.Nodup) (hs : ∀ x, x ∈ s ↔ x ∈ l) :
    s.ncard = l.length := by
  classical
  have heq : s = (l.toFinset : Set α) := Set.ext fun x => by rw [hs x, List.coe_toFinset]; rfl
  rw [heq, Set.ncard_coe_finset, List.toFinset_card_of_nodup hnd]

theorem Problem.Fits.mem_order_iff {p : Problem} {h : Heap} (hp : p.Fits h) {n : NodeId} :
    n ∈ (p.order h).reverse ↔ h.Reachable (p.ys.map Entry.node) n := by
  refine ⟨hp.arranged.reachable n, fun hn => List.mem_reverse.mpr (Heap.mem_postorder ?_ hn)⟩
  refine hp.wellFormed.has_of_reachable (.refl _) (fun r hr => ?_) hn
  obtain ⟨y, hy, rfl⟩ := List.mem_map.mp hr
  exact (hp.ys y hy).1

theorem Heap.nodup_results {h : Heap} {ns : List NodeId} (hns : ns.Nodup) : (h.results ns).Nodup := by
  refine List.nodup_flatMap.mpr ⟨fun n _ => h.nodup_entries n, (hns.filter _).imp fun hne e he he' => hne ?_⟩
  rw [← (Heap.mem_entries.mp he).1, (Heap.mem_entries.mp he').1]

namespace Targets
variable {t : Targets} {h : Heap} {mirror : Arg}

def operators (t : Targets) (h : Heap) : Set NodeId :=
  {n | h.Reachable (t.ys.map Entry.node) n ∧ (h.node n).op.isSome}

def results (t : Targets) (h : Heap) : Set Entry := {e | e.node ∈ t.operators h ∧ h.HasEntry e}

def mirrored (t : Targets) (h : Heap) (mirror : Arg) : Set NodeId :=
  {n | h.Reachable (t.ys.map Entry.node) n ∧ ∃ test ∈ Request.testOf mirror, test.holds n (h.node n) = .ok true}

theorem ncard_operators (hp : (t.problem mirror).Fits h) : (t.operators h).ncard =
    (((t.problem mirror).order h).reverse.filter fun n => (h.node n).op.isSome).length := by
  refine ncard_eq_length (hp.arranged.nodup.filter _) fun n => ?_
  rw [List.mem_filter, hp.mem_order_iff]
  rfl

theorem ncard_results (hp : (t.problem mirror).Fits h) :
    (t.results h).ncard = (h.results ((t.problem mirror).order h).reverse).length := by
  refine ncard_eq_length (Heap.nodup_results hp.arranged.nodup) fun e => ?_
  rw [Heap.mem_results, hp.mem_order_iff]
  exact ⟨fun he => ⟨he.1.1, he.1.2, he.2.2⟩, fun he => ⟨⟨he.1, he.2.1⟩, Heap.has_of_op he.2.1, he.2.2⟩⟩

theorem ncard_mirrored (hp : (t.problem mirror).Fits h) : (t.mirrored h mirror).ncard =
    (((t.problem mirror).order h).filter fun n =>
      (t.problem mirror).mirror.any fun test => test.selects (h.node n) n).length := by
  refine ncard_eq_length ((List.nodup_reverse.mp hp.arranged.nodup).filter _) fun n => ?_
  rw [List.mem_filter, ← List.mem_reverse, hp.mem_order_iff, Option.any_eq_true]
  simp only [Selector.selects_iff]
  rfl

end Targets

/-- However a sweep with the built-in rules ends, it has made at most three nodes for each operator node that the outputs
depend on, and one for each output of such a node, for each entry that is requested and for each node that is mirrored.
Over built-in operators it succeeds. -/
theorem Build.gradients_have_linear_size {t : Targets} {mirror : Arg} {a : Ambient} {w : Workspace}
    (hp : (t.problem mirror).Fits w.heap) :
    (after (Build.generate RuleBook.builtins (t.request mirror)) a w).heap.size ≤
      w.heap.size + (3 * (t.operators w.heap).ncard + (t.results w.heap).ncard + {x | x ∈ t.xs}.ncard +
        (t.mirrored w.heap mirror).ncard) ∧
    (a.Default → w.heap.Differentiable → (∀ e ∈ t.seeds, w.heap.HasEntry e) → t.ys.length = t.seeds.length →
      (∀ test ∈ Request.testOf mirror, ∀ n, w.heap.Has n → ∃ b, test.holds n (w.heap.node n) = .ok b) →
      ∃ g w', Build.generate RuleBook.builtins (t.request mirror) a w = .ok g w') := by
  constructor
  · by_cases hlen : t.ys.length = t.seeds.length
    · have hspends := (spends_relay (a := a) hp rfl).congr (t.generate_eq_relay hp hlen a)
      have hxs : {x | x ∈ (t.problem mirror).xs}.ncard = {x | x ∈ t.xs}.ncard := rfl
      have hsize := hspends.size_le
      rw [hxs] at hsize
      rw [Targets.ncard_operators hp, Targets.ncard_results hp, Targets.ncard_mirrored hp]
      omega
    · have hfails : Build.generate RuleBook.builtins (t.request mirror) a w =
          .error (.gradient (.seedCount t.ys.length t.seeds.length)) w := by
        unfold Build.generate
        rw [t.validate_request, if_neg hlen]
        rfl
      rw [after_error hfails]
      exact Nat.le_add_right _ _
  · intro ha hd hseeds hlen htests
    exact hd.generate_run ha hp hseeds hlen fun test ht n hn => htests test ht n (Heap.has_of_mem_postorder hn)

/-- In how many ways a node depends on another over so many edges. -/
def Heap.routes (h : Heap) (x : NodeId) : Nat → NodeId → Nat
  | 0, n => if n = x then 1 else 0
  | k + 1, n => ((h.predecessors n).map (h.routes x k)).sum

/-- A variable that is squared six times over, beside a seed. -/
def Heap.ladder : Heap where
  nodes := #[{ name := "x" }, { name := "seed" },
    { op := builtinOps[12]?, name := "a", inputs := [⟨⟨0⟩, 0⟩, ⟨⟨0⟩, 0⟩] },
    { op := builtinOps[12]?, name := "b", inputs := [⟨⟨2⟩, 0⟩, ⟨⟨2⟩, 0⟩] },
    { op := builtinOps[12]?, name := "c", inputs := [⟨⟨3⟩, 0⟩, ⟨⟨3⟩, 0⟩] },
    { op := builtinOps[12]?, name := "d", inputs := [⟨⟨4⟩, 0⟩, ⟨⟨4⟩, 0⟩] },
    { op := builtinOps[12]?, name := "e", inputs := [⟨⟨5⟩, 0⟩, ⟨⟨5⟩, 0⟩] },
    { op := builtinOps[12]?, name := "f", inputs := [⟨⟨6⟩, 0⟩, ⟨⟨6⟩, 0⟩] }]

def Targets.ladder : Targets := ⟨[⟨⟨7⟩, 0⟩], [⟨⟨1⟩, 0⟩], [⟨⟨0⟩, 0⟩, ⟨⟨0⟩, 0⟩]⟩

theorem Heap.ladder_ascending : Heap.ladder.Ascending := by decide

theorem Heap.ladder_differentiable : Heap.ladder.Differentiable where
  wellFormed := ladder_ascending.wellFormed
  acyclic n := ladder_ascending.acyclicFrom [n] n ⟨n, by simp, .refl⟩
  strays n hn := by
    have hall : ∀ i < Heap.ladder.size, (Heap.ladder.node ⟨i⟩).strays.isNone = true := by decide
    exact Option.isNone_iff_eq_none.mp (hall n.index hn)
  operators n hn := by
    have hall : ∀ i < Heap.ladder.size, ∀ op ∈ (Heap.ladder.node ⟨i⟩).op, op ∈ builtinOps ∧
        op.accepts (Heap.ladder.node ⟨i⟩).inputs.length = true := by decide
    exact hall n.index hn

theorem ncard_le_length {α : Type} {s : Set α} {l : List α} (hs : ∀ x ∈ s, x ∈ l) : s.ncard ≤ l.length := by
  classical
  have hsub : s ⊆ (l.toFinset : Set α) := fun x hx => List.mem_toFinset.mpr (hs x hx)
  have hle := Set.ncard_le_ncard hsub l.toFinset.finite_toSet
  rw [Set.ncard_coe_finset] at hle
  exact hle.trans l.toFinset_card_le

theorem Build.gradients_have_linear_size_ladder : ∃ g w,
    Build.generate RuleBook.builtins (Targets.ladder.request (.selector .operators)) .initial { heap := .ladder } =
      .ok g w ∧ w.heap.size ≤ 39 ∧ Heap.ladder.routes ⟨0⟩ 6 ⟨7⟩ = 64 := by
  have hp : (Targets.ladder.problem (.selector .operators)).Fits Heap.ladder :=
    { wellFormed := Heap.ladder_ascending.wellFormed
      ys := show ∀ y ∈ [(⟨⟨7⟩, 0⟩ : Entry)], Heap.ladder.HasEntry y by decide
      xs := show ∀ x ∈ [(⟨⟨0⟩, 0⟩ : Entry), ⟨⟨0⟩, 0⟩], Heap.ladder.HasEntry x by decide
      acyclic := Heap.ladder_ascending.acyclicFrom _ }
  obtain ⟨hsize, hruns⟩ := gradients_have_linear_size (a := .initial) (w := { heap := .ladder }) hp
  obtain ⟨g, w, hrun⟩ := hruns Ambient.initial_default Heap.ladder_differentiable
    (show ∀ e ∈ [(⟨⟨1⟩, 0⟩ : Entry)], Heap.ladder.HasEntry e by decide) rfl fun test ht n _ => by
      cases ht
      exact ⟨_, rfl⟩
  have hreach : ∀ n, Heap.ladder.Reachable (Targets.ladder.ys.map Entry.node) n →
      n ∈ (List.range 8).map NodeId.mk := by
    intro n hn
    have hhas : Heap.ladder.Has n := hp.arranged.has n (hp.mem_order_iff.mpr hn)
    exact List.mem_map.mpr ⟨n.index, List.mem_range.mpr hhas, rfl⟩
  have hoperators : (Targets.ladder.operators Heap.ladder).ncard ≤ 6 :=
    ncard_le_length (l := ((List.range 8).map NodeId.mk).filter fun n => (Heap.ladder.node n).op.isSome) fun n hn =>
      List.mem_filter.mpr ⟨hreach n hn.1, hn.2⟩
  have hresults : (Targets.ladder.results Heap.ladder).ncard ≤ 6 :=
    ncard_le_length (l := Heap.ladder.results ((List.range 8).map NodeId.mk)) fun e he =>
      Heap.mem_results.mpr ⟨hreach _ he.1.1, he.1.2, he.2.2⟩
  have hxs : {x | x ∈ Targets.ladder.xs}.ncard ≤ 1 := by
    have hall : ∀ x ∈ Targets.ladder.xs, x ∈ [(⟨⟨0⟩, 0⟩ : Entry)] := by decide
    exact ncard_le_length fun x hx => hall x hx
  have hmirrored : (Targets.ladder.mirrored Heap.ladder (.selector .operators)).ncard ≤ 6 := by
    refine ncard_le_length (l := ((List.range 8).map NodeId.mk).filter fun n => !(Heap.ladder.node n).isVariable)
      fun n hn => List.mem_filter.mpr ⟨hreach n hn.1, ?_⟩
    obtain ⟨test, ht, hholds⟩ := hn.2
    cases ht
    exact Except.ok.inj hholds
  rw [after_ok hrun] at hsize
  have hstart : Heap.ladder.size = 8 := rfl
  dsimp only at hsize
  exact ⟨g, w, hrun, by omega, rfl⟩

end Backprop
