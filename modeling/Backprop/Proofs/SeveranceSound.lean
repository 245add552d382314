import Backprop.Gradient.Strategy
import Backprop.Proofs.StructureSound
import Backprop.Proofs.VisitSound

/-!
# Recomputing severs the forward graph

A run is confined to a part of a heap if all that it makes refers to that part
or to what it has made before. Seen as a run in lockstep with itself, it is
confined to any part that refers to nothing outside itself, as long as all it is
given is in the part. Once the mirror map is there, the sweep is given the seeds
and the images of forward nodes only. If every operator is mirrored, then an
image that was there before is a variable.
-/

namespace Backprop

/-! ## Confined runs -/

namespace Relabelling

def within (h : Heap) (part : NodeId → Prop) (hpart : ∀ {n}, part n → h.Has n) : Relabelling where
  left := h
  right := h
  domain := part
  map := id
  has := hpart
  has_map := hpart
  injective _ _ he := he

def Still (r : Relabelling) : Prop := ∀ n, r.apply n = n

section Within
variable {h : Heap} {part : NodeId → Prop} {hpart : ∀ {n}, part n → h.Has n}

theorem within_still : (within h part hpart).Still := by
  intro n
  by_cases hn : n.index < h.size
  · exact if_pos hn
  · refine (if_neg hn).trans ?_
    cases n
    simp only [NodeId.mk.injEq]
    show _ - h.size + h.size = _
    simp only at hn
    omega

theorem Still.twin {r : Relabelling} (hr : r.Still) {n : NodeId} (hn : r.Known h n) : r.Twin h n n := ⟨hn, (hr n).symm⟩

theorem Still.twinEntries {r : Relabelling} (hr : r.Still) {es : List Entry} (hes : ∀ e ∈ es, r.Known h e.node) :
    List.Forall₂ (r.TwinEntry h) es es := List.forall₂_same.mpr fun e he => ⟨rfl, hr.twin (hes e he)⟩

theorem joins_within (hs : ∀ n, part n → (h.node n).strays = none)
    (hclosed : ∀ n, part n → ∀ p ∈ h.predecessors n, part p) : (within h part hpart).Joins h h := by
  refine ⟨.refl _, .refl _, rfl, fun n k hn => ?_⟩
  obtain ⟨hd, hk⟩ := twin_of_start hn
  have hpred := hclosed n hd
  rw [show k = n from hk]
  refine ⟨rfl, rfl, within_still.twinEntries fun e he => ?_, ?_, hs n hd, hs n hd⟩
  · exact .inl (hpred e.node (List.mem_append_left _ (List.mem_map_of_mem he)))
  · exact List.forall₂_same.mpr fun d hd => within_still.twin (.inl (hpred d (List.mem_append_right _ hd)))

end Within

/-- If the run succeeds, then all it has made refers to nodes that are known. -/
def Confines {α : Type} (r : Relabelling) (x : Build α) (a : Ambient) (w : Workspace) (Q : α → Heap → Prop) : Prop :=
  Ends x a w (fun p u => w.heap.GrowsTo u.heap ∧ r.Joins u.heap u.heap ∧ Q p u.heap) fun _ => True

namespace Confines
variable {r : Relabelling} {α β : Type} {x : Build α} {f : α → Build β} {a : Ambient} {w u : Workspace} {p : α}
  {Q R : α → Heap → Prop} {S : β → Heap → Prop}

theorem of_builds {T : Heap → α → α → Prop} (hx : r.Builds x x a w w T) : r.Confines x a w fun p h => T h p p := by
  unfold Confines Ends
  unfold Builds Lockstep Coupled at hx
  cases hrun : x a w with
  | ok p u => rw [hrun] at hx; exact hx
  | error e u => trivial

theorem pure (hj : r.Joins w.heap w.heap) (hq : Q p w.heap) : r.Confines (pure p) a w Q := ⟨.refl _, hj, hq⟩

theorem congr {y : Build α} (hxy : x a w = y a w) (hy : r.Confines y a w Q) : r.Confines x a w Q := by
  unfold Confines Ends at hy ⊢
  rw [hxy]
  exact hy

theorem throw (e : Fault) : r.Confines (throw e : Build α) a w Q := trivial

theorem bind (hx : r.Confines x a w Q)
    (hf : ∀ p u, w.heap.GrowsTo u.heap → r.Joins u.heap u.heap → Q p u.heap → r.Confines (f p) a u S) :
    r.Confines (x >>= f) a w S := by
  refine Ends.bind hx fun p u ⟨hg, hj, hq⟩ => ?_
  exact (hf p u hg hj hq).mono (fun _ _ h => ⟨hg.trans h.1, h.2⟩) fun _ h => h

theorem step (hx : x a w = .ok p u) (hu : u.heap = w.heap) (hf : r.Confines (f p) a u S) : r.Confines (x >>= f) a w S :=
  Ends.step hx (hf.mono (fun _ _ h => hu ▸ h) fun _ h => h)

theorem ofExcept {y : Except Fault α} (hf : ∀ p, y = .ok p → r.Confines (f p) a w S) :
    r.Confines (Build.ofExcept y >>= f) a w S := by
  cases y with
  | ok p => exact step (p := p) (u := w) rfl rfl (hf p rfl)
  | error e => exact Ends.fail (e := e) (u := w) rfl trivial

theorem mono (hx : r.Confines x a w Q) (hq : ∀ p h, w.heap.GrowsTo h → Q p h → R p h) : r.Confines x a w R :=
  Ends.mono hx (fun p u h => ⟨h.1, h.2.1, hq p u.heap h.1 h.2.2⟩) fun _ h => h

end Confines

/-! ## Turns -/

structure KnownTurn (r : Relabelling) (h : Heap) (t : Turn) : Prop where
  totals : ∀ q ∈ t.totals, r.Known h q.2.node
  grads : ∀ q ∈ t.grads, r.Known h q.2.node

theorem KnownTurn.grows {r : Relabelling} {h h' : Heap} {t : Turn} (ht : r.KnownTurn h t) (hg : h.GrowsTo h') :
    r.KnownTurn h' t where
  totals q hq := (ht.totals q hq).grows hg
  grads q hq := (ht.grads q hq).grows hg

section Turns
variable {r : Relabelling} {a : Ambient} {w : Workspace} {p : Problem} {mirrors : Option MirrorMap} {turns : List Turn}
  {n : NodeId} (hr : r.Still)

include hr

theorem Still.reduce (hj : r.Joins w.heap w.heap) {es : List Entry} (hes : ∀ e ∈ es, r.Known w.heap e.node) :
    r.Confines (Build.reduce Aggregator.standard es) a w fun e h => r.Known h e.node := by
  have hgrads : List.Forall₂ (r.TwinGradient w.heap) (es.map .entry) (es.map .entry) := by
    rw [List.forall₂_map_left_iff, List.forall₂_map_right_iff]
    exact (hr.twinEntries hes).imp fun e₁ e₂ he => ⟨e₁, e₂, rfl, rfl, he⟩
  refine (Confines.of_builds (Builds.aggregate hj hgrads)).bind fun v u _ hju hv => ?_
  obtain ⟨e, e', rfl, -, he⟩ := hv
  exact .pure hju he.2.1

theorem Still.reduceAll {groups : List (List Entry)} (hj : r.Joins w.heap w.heap)
    (hes : ∀ es ∈ groups, ∀ e ∈ es, r.Known w.heap e.node) :
    r.Confines (Build.reduceAll Aggregator.standard groups) a w fun totals h => ∀ e ∈ totals, r.Known h e.node := by
  induction groups generalizing w with
  | nil => exact .pure hj (by simp)
  | cons es rest ih =>
    refine (hr.reduce hj (hes es (by simp))).bind fun total w₁ hg₁ hj₁ htotal => ?_
    have hrest : ∀ es ∈ rest, ∀ e ∈ es, r.Known w₁.heap e.node := by
      intro es' he' e he
      exact (hes es' (List.mem_cons_of_mem _ he') e he).grows hg₁
    refine (ih hj₁ hrest).bind fun totals w₂ hg₂ hj₂ htotals => .pure hj₂ ?_
    exact List.forall_mem_cons.mpr ⟨htotal.grows hg₂, htotals⟩

/-- A built-in rule refers to what stands in for the node and to the gradients it is given, and to nothing else. -/
theorem Still.pull (hj : r.Joins w.heap w.heap) (hn : r.Known w.heap (Turn.forward mirrors n)) {totals : List Entry}
    (htotals : ∀ e ∈ totals, r.Known w.heap e.node) (op : Op) (node : Node) :
    r.Confines (Build.pull RuleBook.builtins mirrors n op node (totals.map .entry)) a w
      fun vs h => ∀ e, .entry e ∈ vs → r.Known h e.node := by
  obtain ⟨trace, hrun⟩ := RuleBook.builtins.find_run n a w
  cases hl : RuleBook.builtins.lookup n (w.heap.node n) with
  | error e =>
    rw [hl] at hrun
    exact Ends.fail hrun trivial
  | ok found =>
    rw [hl] at hrun
    refine .step hrun rfl ?_
    cases found with
    | none => exact .throw _
    | some implementation =>
      obtain ⟨q, hq, rfl⟩ := RuleBook.mem_lookup hl
      obtain ⟨scheme, hrule⟩ := RuleBook.builtins_follows.rule_of_mem hq
      simp only [hrule]
      have hbuilds : r.Builds (Recipe.rule scheme (Turn.forward mirrors n) (totals.map .entry))
          (Recipe.rule scheme (Turn.forward mirrors n) (totals.map .entry)) a { w with trace } { w with trace }
          fun h => List.Forall₂ (r.TwinValue h) :=
        Builds.rule scheme hj (hr.twin hn) (twinValues_map_entry (hr.twinEntries htotals))
      refine (Confines.of_builds hbuilds).mono fun vs h _ hvs e he => ?_
      cases List.forall₂_same.mp hvs _ he with
      | entry he => exact he.2.1

theorem Still.takeTurn (hf : p.aggregate = Aggregator.standard) (hj : r.Joins w.heap w.heap)
    (hseeds : ∀ e ∈ p.seeds, r.Known w.heap e.node) (hturns : ∀ t ∈ turns, r.KnownTurn w.heap t)
    (hn : r.Known w.heap (Turn.forward mirrors n)) (level : Level) (op : Op) (node : Node) :
    r.Confines (Build.takeTurn RuleBook.builtins p mirrors level turns n op node) a w fun t h => r.KnownTurn h t := by
  refine .step (p := w.heap) rfl rfl ?_
  dsimp only
  rw [hf]
  have harrived : ∀ es ∈ (w.heap.entries n).map (Turn.arrived p turns), ∀ e ∈ es, r.Known w.heap e.node := by
    intro es hes
    obtain ⟨e, -, rfl⟩ := List.mem_map.mp hes
    exact Turn.forall_arrived hseeds (fun t ht => (hturns t ht).grads) e
  refine (hr.reduceAll hj harrived).bind fun totals w₁ hg₁ hj₁ htotals => ?_
  refine (hr.pull hj₁ (hn.grows hg₁) htotals op node).bind fun vs w₂ hg₂ hj₂ hvs => ?_
  by_cases hlen : vs.length = node.inputs.length
  · rw [if_pos hlen]
    refine .ofExcept fun es hes => ?_
    obtain ⟨trace, hlog⟩ := Build.logTurn_run level node vs a w₂
    refine .step hlog rfl (.pure hj₂ ⟨fun q hq => ?_, fun q hq => ?_⟩)
    · exact (htotals _ (List.of_mem_zip hq).2).grows hg₂
    · exact hvs _ (Build.mem_gradientsOf hes (List.of_mem_zip hq).2)
  · rw [if_neg hlen]
    exact .throw _

theorem Still.turnOf (hf : p.aggregate = Aggregator.standard) (hj : r.Joins w.heap w.heap)
    (hseeds : ∀ e ∈ p.seeds, r.Known w.heap e.node) (hturns : ∀ t ∈ turns, r.KnownTurn w.heap t)
    (hn : r.Known w.heap (Turn.forward mirrors n)) (level : Level) :
    r.Confines (Build.turnOf RuleBook.builtins p mirrors level turns n) a w
      fun new h => ∀ t ∈ new, r.KnownTurn h t := by
  refine .step (p := w.heap) rfl rfl ?_
  dsimp only
  cases (w.heap.node n).op with
  | none => exact .pure hj (by simp)
  | some op =>
    refine (hr.takeTurn hf hj hseeds hturns hn level op _).bind fun t u _ hju ht => .pure hju ?_
    exact List.forall_mem_singleton.mpr ht

theorem Still.takeTurns (hf : p.aggregate = Aggregator.standard) (level : Level) {ns : List NodeId}
    (hj : r.Joins w.heap w.heap) (hseeds : ∀ e ∈ p.seeds, r.Known w.heap e.node)
    (hturns : ∀ t ∈ turns, r.KnownTurn w.heap t) (hns : ∀ n ∈ ns, r.Known w.heap (Turn.forward mirrors n)) :
    r.Confines (Build.takeTurns RuleBook.builtins p mirrors level ns turns) a w
      fun turns h => ∀ t ∈ turns, r.KnownTurn h t := by
  induction ns generalizing turns w with
  | nil => exact .pure hj hturns
  | cons n rest ih =>
    refine (hr.turnOf hf hj hseeds hturns (hns n (by simp)) level).bind fun new u hg hju hnew => ?_
    apply ih hju (fun e he => (hseeds e he).grows hg)
    · intro t ht
      rcases List.mem_append.mp ht with ht | ht
      · exact (hturns t ht).grows hg
      · exact hnew t ht
    · intro k hk
      exact (hns k (List.mem_cons_of_mem _ hk)).grows hg

theorem Still.collect (hf : p.aggregate = Aggregator.standard) {xs : List Entry} {known : Ledger Entry Entry}
    (hj : r.Joins w.heap w.heap) (hseeds : ∀ e ∈ p.seeds, r.Known w.heap e.node)
    (hturns : ∀ t ∈ turns, r.KnownTurn w.heap t) (hknown : ∀ q ∈ known, r.Known w.heap q.2.node) :
    r.Confines (Build.collect p turns xs known) a w fun es h => ∀ e ∈ es, r.Known h e.node := by
  induction xs generalizing known w with
  | nil => exact .pure hj (by simp)
  | cons x xs ih =>
    rw [Build.collect]
    cases hx : Ledger.get? known x with
    | some total =>
      refine (ih hj hseeds hturns hknown).bind fun es u hg hju hes => .pure hju ?_
      exact List.forall_mem_cons.mpr ⟨(hknown _ (Ledger.mem_of_get? hx)).grows hg, hes⟩
    | none =>
      dsimp only
      rw [hf]
      have harrived := Turn.forall_arrived hseeds (fun t ht => (hturns t ht).grads) x
      refine (hr.reduce hj harrived).bind fun total w₁ hg₁ hj₁ htotal => ?_
      have hknown' : ∀ q ∈ known ++ [(x, total)], r.Known w₁.heap q.2.node := by
        intro q hq
        rcases List.mem_append.mp hq with hq | hq
        · exact (hknown q hq).grows hg₁
        · rw [List.mem_singleton.mp hq]
          exact htotal
      refine (ih hj₁ (fun e he => (hseeds e he).grows hg₁) (fun t ht => (hturns t ht).grows hg₁) hknown').bind
        fun es w₂ hg₂ hj₂ hes => .pure hj₂ ?_
      exact List.forall_mem_cons.mpr ⟨htotal.grows hg₂, hes⟩

/-- All that follows once the mirror map is there. -/
theorem Still.passes (hf : p.aggregate = Aggregator.standard) {ns : List NodeId} (hj : r.Joins w.heap w.heap)
    (hseeds : ∀ e ∈ p.seeds, r.Known w.heap e.node) (hns : ∀ n ∈ ns, r.Known w.heap (Turn.forward mirrors n)) :
    r.Confines (Build.turnLevel >>= fun level => Build.takeTurns RuleBook.builtins p mirrors level ns [] >>= fun turns =>
      Build.collect p turns p.xs (Turn.known turns) >>= fun outputs => pure ({ outputs } : Graph)) a w
      fun g h => ∀ e ∈ g.outputs, r.Known h e.node := by
  have hlevel : r.Confines Build.turnLevel a w fun _ _ => True :=
    .congr (y := Build.ofExcept (a.profile.getFlag ["debugprint"]) >>= fun verbose =>
      pure (if verbose then .info else .debug)) rfl (.ofExcept fun _ _ => .pure hj trivial)
  refine hlevel.bind fun level w₁ hg₁ hj₁ _ => ?_
  have hseeds₁ : ∀ e ∈ p.seeds, r.Known w₁.heap e.node := fun e he => (hseeds e he).grows hg₁
  refine (hr.takeTurns hf level hj₁ hseeds₁ (by simp) fun n hn => (hns n hn).grows hg₁).bind
    fun turns w₂ hg₂ hj₂ hturns => ?_
  have hknown : ∀ q ∈ Turn.known turns, r.Known w₂.heap q.2.node := by
    intro q hq
    obtain ⟨t, ht, hq⟩ := List.mem_flatMap.mp hq
    exact (hturns t ht).totals q hq
  exact (hr.collect hf hj₂ (fun e he => (hseeds₁ e he).grows hg₂) hturns hknown).bind fun es u _ hju hes =>
    .pure hju hes

end Turns

end Relabelling

/-! ## What the sweep is given -/

theorem Selector.operators_holds (n : NodeId) (node : Node) : Selector.operators.holds n node = .ok node.op.isSome := by
  show Except.ok (!node.op.isNone) = _
  cases node.op <;> rfl

theorem MirrorMap.predecessors_copyOf (m : MirrorMap) (node : Node) (name : String) :
    (m.copyOf node name).predecessors = node.predecessors.map (Turn.forward (some m)) := by
  simp only [Node.predecessors, copyOf, List.map_append, List.map_map]
  rfl

/-- What the seeds depend on, and the images of what the outputs depend on. -/
def Problem.Given (p : Problem) (h : Heap) (m : MirrorMap) (n : NodeId) : Prop :=
  h.Reachable (p.seeds.map Entry.node) n ∨ ∃ k ∈ p.order h, Turn.forward (some m) k = n

/-- The node is a variable that the outputs depend on, or the seeds depend on it. -/
def Problem.Spared (p : Problem) (h : Heap) (n : NodeId) : Prop :=
  h.Reachable (p.seeds.map Entry.node) n ∨ ((h.node n).op = none ∧ h.Reachable (p.ys.map Entry.node) n)

section Given
variable {p : Problem} {h₀ h : Heap} {m : MirrorMap} {n : NodeId}
  (hm : m.Reflects h₀ h .operators (p.order h₀)) (hg : h₀.GrowsTo h)
  (hys : h₀.Whole (p.ys.map Entry.node)) (hseeds : h₀.Whole (p.seeds.map Entry.node))

include hm in
theorem Problem.image_cases (hn : n ∈ p.order h₀) :
    ((h₀.node n).op = none ∧ Turn.forward (some m) n = n) ∨
      (¬ h₀.Has (Turn.forward (some m) n) ∧ h.Has (Turn.forward (some m) n) ∧
        ∃ name, h.node (Turn.forward (some m) n) = m.copyOf (h₀.node n) name) := by
  rcases hm.image n hn with ⟨hholds, hself⟩ | ⟨hholds, hhas, hcopy⟩
  · rw [Selector.operators_holds, Except.ok.injEq] at hholds
    exact .inl ⟨by simpa using hholds, hself⟩
  · exact .inr ⟨hm.fresh n hn hholds, hhas, hcopy⟩

include hm hg hys hseeds

theorem Problem.Given.has (hn : p.Given h₀ m n) : h.Has n := by
  rcases hn with hn | ⟨k, hk, rfl⟩
  · exact hg.has (hseeds n hn).1
  · rcases Problem.image_cases hm hk with ⟨-, hself⟩ | ⟨-, hhas, -⟩
    · rw [hself]
      exact hg.has (hys k (hys.mem_postorder_iff.mp hk)).1
    · exact hhas

theorem Problem.Given.strays (hn : p.Given h₀ m n) : (h.node n).strays = none := by
  rcases hn with hn | ⟨k, hk, rfl⟩
  · rw [hg.node_eq n (hseeds n hn).1]
    exact (hseeds n hn).2
  · obtain ⟨hhas, hs⟩ := hys k (hys.mem_postorder_iff.mp hk)
    rcases Problem.image_cases hm hk with ⟨-, hself⟩ | ⟨-, -, name, hcopy⟩
    · rw [hself, hg.node_eq k hhas]
      exact hs
    · rw [hcopy]
      exact hs

/-- A copy refers to images, and a variable to nothing. -/
theorem Problem.Given.predecessor
    (hvars : ∀ n, h₀.Reachable (p.ys.map Entry.node) n → (h₀.node n).op = none → h₀.predecessors n = [])
    (hn : p.Given h₀ m n) : ∀ q ∈ h.predecessors n, p.Given h₀ m q := by
  intro q hq
  unfold Heap.predecessors at hq
  rcases hn with hn | ⟨k, hk, rfl⟩
  · rw [hg.node_eq n (hseeds n hn).1] at hq
    exact .inl (hn.step hq)
  · have hreach := hys.mem_postorder_iff.mp hk
    rcases Problem.image_cases hm hk with ⟨hop, hself⟩ | ⟨-, -, name, hcopy⟩
    · rw [hself, hg.node_eq k (hys k hreach).1] at hq
      have hnone := hvars k hreach hop
      unfold Heap.predecessors at hnone
      rw [hnone] at hq
      cases hq
    · rw [hcopy, MirrorMap.predecessors_copyOf] at hq
      obtain ⟨k', hk', rfl⟩ := List.mem_map.mp hq
      exact .inr ⟨k', hys.mem_postorder_iff.mpr (hreach.step hk'), rfl⟩

omit hg hseeds in
theorem Problem.Given.spared (hn : p.Given h₀ m n) (hhas : h₀.Has n) : p.Spared h₀ n := by
  rcases hn with hn | ⟨k, hk, rfl⟩
  · exact .inl hn
  · rcases Problem.image_cases hm hk with ⟨hop, hself⟩ | ⟨hno, -, -⟩
    · rw [hself]
      exact .inr ⟨hop, hys.mem_postorder_iff.mp hk⟩
    · exact absurd hhas hno

end Given

/-! ## The whole construction -/

section Whole
variable {p : Problem} {a : Ambient} {w : Workspace}

theorem Build.prepared_reflects (hp : p.Fits w.heap) (hys : w.heap.Whole (p.ys.map Entry.node))
    (ht : p.mirror = some .operators) :
    Ends (Build.prepared p) a w (fun mirrors u => w.heap.GrowsTo u.heap ∧
      ∃ m, mirrors = some m ∧ m.Reflects w.heap u.heap .operators (p.order w.heap)) fun _ => True := by
  have harr := hp.arranged
  have hwhole : ∀ n ∈ p.order w.heap, w.heap.Has n ∧ (w.heap.node n).strays = none := fun n hn =>
    hys n (hys.mem_postorder_iff.mp hn)
  have hs : ∀ n ∈ p.order w.heap, (w.heap.node n).strays = none := fun n hn => (hwhole n hn).2
  refine .step (r := w.heap) (u := w) rfl (.step (Build.visited_run hs) ?_)
  have hmap : Ends (Build.mirrorMap (p.order w.heap) p.mirror none) a
      { w with trace := w.trace.push (Build.visitEvent p w.heap) } _ _ :=
    Build.mirrorMap_ends harr.settled (List.nodup_reverse.mp harr.nodup) (fun n hn => (hwhole n hn).1)
      (Heap.flaw_none_of_checkOrder (Heap.checkOrder_ok hs))
  refine hmap.mono (fun mirrors u ⟨hg, hm⟩ => ⟨hg, ?_⟩) fun _ _ => trivial
  rcases hm with ⟨hnone, -⟩ | ⟨test, m, htest, rfl, hm⟩
  · rw [ht] at hnone
    cases hnone
  · rw [ht] at htest
    cases htest
    exact ⟨m, rfl, hm⟩

theorem Build.relay_severs (hp : p.Fits w.heap) (hys : w.heap.Whole (p.ys.map Entry.node))
    (hseeds : w.heap.Whole (p.seeds.map Entry.node)) (hf : p.aggregate = Aggregator.standard)
    (ht : p.mirror = some .operators)
    (hvars : ∀ n, w.heap.Reachable (p.ys.map Entry.node) n → (w.heap.node n).op = none → w.heap.predecessors n = []) :
    Ends (Build.relay RuleBook.builtins p) a w (fun g u =>
      (∃ m : MirrorMap, m.Reflects w.heap u.heap .operators (p.order w.heap)) ∧
      ∀ n, u.heap.Reachable (g.outputs.map Entry.node) n → w.heap.Has n → p.Spared w.heap n) fun _ => True := by
  unfold Build.relay Build.turnsOf
  simp only [bind_assoc]
  refine .step (r := w.heap) (u := w) rfl (.bind (Build.prepared_reflects hp hys ht) ?_)
  rintro _ w₁ ⟨hg₁, m, rfl, hm⟩
  let r := Relabelling.within w₁.heap (p.Given w.heap m) (Problem.Given.has hm hg₁ hys hseeds)
  have hr : r.Still := Relabelling.within_still
  have hj₁ : r.Joins w₁.heap w₁.heap := Relabelling.joins_within (fun _ => Problem.Given.strays hm hg₁ hys hseeds)
    fun _ => Problem.Given.predecessor hm hg₁ hys hseeds hvars
  have hseeds₁ : ∀ e ∈ p.seeds, r.Known w₁.heap e.node := fun e he => .inl (.inl (.head (List.mem_map_of_mem he)))
  have himages : ∀ n ∈ (p.order w.heap).reverse, r.Known w₁.heap (Turn.forward (some m) n) := fun n hn =>
    .inl (.inr ⟨n, List.mem_reverse.mp hn, rfl⟩)
  have hrest := hr.passes (a := a) hf hj₁ hseeds₁ himages
  refine Ends.mono hrest (fun g u ⟨hg, hj, hout⟩ => ⟨⟨m, hm.grows hg⟩, fun n hn hhas => ?_⟩) fun _ h => h
  have hheads : ∀ k ∈ g.outputs.map Entry.node, r.Known u.heap k := by
    intro k hk
    obtain ⟨e, he, rfl⟩ := List.mem_map.mp hk
    exact hout e he
  -- what was there before was there when the map was finished, so it is no later node
  rcases hj.known_of_reachable hheads hn with hgiven | ⟨-, hno⟩
  · exact Problem.Given.spared hm hys hgiven hhas
  · exact absurd (hg₁.has hhas) hno

end Whole

/-! ## Runs that succeed -/

/-- Everything that the heads do not depend on is replaced by a variable. -/
def Heap.restrict (h : Heap) (heads : List NodeId) : Heap :=
  { h with nodes := h.nodes.mapIdx fun i node => if ⟨i⟩ ∈ h.postorder heads then node else default }

section Restrict
variable {h : Heap} {heads : List NodeId} {n : NodeId}

theorem Heap.has_restrict : (h.restrict heads).Has n ↔ h.Has n := by
  unfold Has size restrict
  rw [Array.size_mapIdx]

theorem Heap.node_restrict (h : Heap) (heads : List NodeId) (n : NodeId) :
    (h.restrict heads).node n = if n ∈ h.postorder heads then h.node n else default := by
  unfold Heap.node restrict
  rw [Array.getElem?_mapIdx]
  cases h.nodes[n.index]? with
  | none => simp
  | some node => rfl

variable (hw : h.Whole heads)
include hw

theorem Heap.Whole.node_restrict (hn : h.Reachable heads n) : (h.restrict heads).node n = h.node n := by
  rw [Heap.node_restrict, if_pos (hw.mem_postorder_iff.mpr hn)]

theorem Heap.Whole.feeds_restrict {p : NodeId} (hp : (h.restrict heads).Feeds p n) :
    h.Reachable heads n ∧ h.Feeds p n := by
  unfold Feeds predecessors at hp ⊢
  rw [Heap.node_restrict] at hp
  by_cases hn : n ∈ h.postorder heads
  · rw [if_pos hn] at hp
    exact ⟨hw.mem_postorder_iff.mp hn, hp⟩
  · rw [if_neg hn] at hp
    cases hp

theorem Heap.Whole.hasEntry_restrict {e : Entry} (hn : h.Reachable heads e.node) (he : h.HasEntry e) :
    (h.restrict heads).HasEntry e := by
  refine ⟨has_restrict.mpr he.1, ?_⟩
  unfold outputs
  rw [hw.node_restrict hn]
  exact he.2

theorem Heap.Whole.restrict : (h.restrict heads).Whole (heads.map id) := by
  refine (carries_of_node_eq fun n hn => hw.node_restrict hn).whole fun n hn => ?_
  rw [id, hw.node_restrict hn, has_restrict]
  exact hw n hn

theorem Heap.Whole.differentiable_restrict (hwf : h.WellFormed) (hac : h.AcyclicFrom heads)
    (hops : ∀ n, h.Reachable heads n → ∀ op ∈ (h.node n).op, op ∈ builtinOps ∧
      op.accepts (h.node n).inputs.length = true) : (h.restrict heads).Differentiable := by
  have hcases : ∀ n, h.Reachable heads n ∨ (h.restrict heads).node n = default := by
    intro n
    by_cases hn : n ∈ h.postorder heads
    · exact .inl (hw.mem_postorder_iff.mp hn)
    · exact .inr ((Heap.node_restrict h heads n).trans (if_neg hn))
  refine ⟨⟨fun n _ e he => ?_, fun n _ d hd => ?_⟩, fun n hn => ?_, fun n _ => ?_, fun n _ op hop => ?_⟩
  · obtain ⟨hn, hfeeds⟩ := hw.feeds_restrict (List.mem_append_left _ (List.mem_map_of_mem he))
    rw [hw.node_restrict hn] at he
    exact hw.hasEntry_restrict (hn.step hfeeds) (hwf.inputs n (hw n hn).1 e he)
  · obtain ⟨-, hfeeds⟩ := hw.feeds_restrict (List.mem_append_right _ hd)
    exact has_restrict.mpr (hwf.has_predecessor hfeeds)
  · obtain ⟨p, -, hp⟩ := Relation.TransGen.tail'_iff.mp hn
    exact hac n (hw.feeds_restrict hp).1 (hn.lift id fun _ _ hab => (hw.feeds_restrict hab).2)
  · rcases hcases n with hn | hnone
    · rw [hw.node_restrict hn]
      exact (hw n hn).2
    · rw [hnone]
      rfl
  · rcases hcases n with hn | hnone
    · rw [hw.node_restrict hn] at hop ⊢
      exact hops n hn op hop
    · rw [hnone] at hop
      cases hop

theorem Heap.Whole.carries_restrict : Carries id h (h.restrict heads) heads :=
  carries_of_node_eq fun _ hn => hw.node_restrict hn

end Restrict

/-- A sweep does the same if everything that its targets do not depend on is replaced by variables. -/
theorem Heap.Whole.generate_restrict {t : Targets} {a : Ambient} {w : Workspace} (hw : w.heap.Whole t.heads)
    (mirror : Arg) : (hw.carries_restrict.relabelling hw hw.restrict).Builds
      (Build.generate RuleBook.builtins (t.request mirror)) (Build.generate RuleBook.builtins (t.request mirror)) a w
      { w with heap := w.heap.restrict t.heads } fun h g g' =>
        List.Forall₂ ((hw.carries_restrict.relabelling hw hw.restrict).TwinEntry h) g.outputs g'.outputs := by
  let w₀ : Workspace := { w with heap := w.heap.restrict t.heads }
  have hc : Heap.Carries id w.heap w₀.heap t.heads := hw.carries_restrict
  have hpair := hc.generate (a := a) hw hw.restrict
    (Heap.testsAgree_of_node_eq (fun n hn => hw.node_restrict hn) (Request.testOf mirror))
  rwa [t.rename_id] at hpair

/-- Whether gradients can be made depends on nothing but what the targets depend on. -/
theorem Targets.generate_run {t : Targets} {mirror : Arg} {a : Ambient} {w : Workspace} (ha : a.Default)
    (hp : (t.problem mirror).Fits w.heap) (hseeds : ∀ e ∈ t.seeds, w.heap.HasEntry e) (hw : w.heap.Whole t.heads)
    (hac : w.heap.AcyclicFrom t.heads) (hlen : t.ys.length = t.seeds.length)
    (hops : ∀ n, w.heap.Reachable t.heads n → ∀ op ∈ (w.heap.node n).op, op ∈ builtinOps ∧
      op.accepts (w.heap.node n).inputs.length = true)
    (ht : ∀ test ∈ Request.testOf mirror, ∀ n node, ∃ b, test.holds n node = .ok b) :
    ∃ g w', Build.generate RuleBook.builtins (t.request mirror) a w = .ok g w' := by
  have hd := hw.differentiable_restrict hp.wellFormed hac hops
  have hentries : ∀ e ∈ t.ys ++ t.seeds ++ t.xs, w.heap.HasEntry e → (w.heap.restrict t.heads).HasEntry e :=
    fun e he => hw.hasEntry_restrict (Targets.reachable_of_mem he)
  have hp' : (t.problem mirror).Fits (w.heap.restrict t.heads) := by
    refine ⟨hd.wellFormed, fun y hy => ?_, fun x hx => ?_, fun n _ => hd.acyclic n⟩
    · exact hentries y (by simp [show y ∈ t.ys from hy]) (hp.ys y hy)
    · exact hentries x (by simp [show x ∈ t.xs from hx]) (hp.xs x hx)
  have hseeds' : ∀ e ∈ t.seeds, (w.heap.restrict t.heads).HasEntry e := fun e he =>
    hentries e (by simp [he]) (hseeds e he)
  let w₀ : Workspace := { w with heap := w.heap.restrict t.heads }
  obtain ⟨g, u, hrun⟩ := Heap.Differentiable.generate_run (w := w₀) ha hd hp' hseeds' hlen fun test htest n _ =>
    ht test htest n _
  obtain ⟨g', w', hrun', -⟩ := Coupled.ok_right (hw.generate_restrict mirror) hrun
  exact ⟨g', w', hrun'⟩

/-- If all operators are recomputed, then of the nodes that were there before the gradients depend only on those that
the seeds depend on and on variables: the outputs are referred to through copies. On built-in operators there are
such gradients. -/
theorem Build.recomputing_severs_forward {a : Ambient} {w : Workspace} {t : Targets} {names : Datum} {test : Selector}
    (htest : StrategyTable.builtin.selector (.member "RecomputeAll") names = .ok (some test))
    (hp : (t.problem (.selector test)).Fits w.heap) (hw : w.heap.Whole t.heads)
    (hvars : ∀ n, w.heap.Reachable t.heads n → (w.heap.node n).op = none → w.heap.predecessors n = []) :
    (∀ g w', Build.generate RuleBook.builtins (t.request (.selector test)) a w = .ok g w' →
      (∀ n, w'.heap.Reachable (g.outputs.map Entry.node) n → w.heap.Has n →
        w.heap.Reachable (t.seeds.map Entry.node) n ∨
          ((w.heap.node n).op = none ∧ w.heap.Reachable (t.ys.map Entry.node) n)) ∧
      ∃ m : MirrorMap, m.Reflects w.heap w'.heap test (w.heap.postorder (t.ys.map Entry.node))) ∧
    (a.Default → w.heap.AcyclicFrom t.heads → t.ys.length = t.seeds.length →
      (∀ e ∈ t.seeds, w.heap.HasEntry e) →
      (∀ n, w.heap.Reachable t.heads n → ∀ op ∈ (w.heap.node n).op, op ∈ builtinOps ∧
        op.accepts (w.heap.node n).inputs.length = true) →
      ∃ g w', Build.generate RuleBook.builtins (t.request (.selector test)) a w = .ok g w') := by
  cases htest
  have hsub : ∀ es : List Entry, (∀ e ∈ es, e ∈ t.ys ++ t.seeds ++ t.xs) → ∀ k ∈ es.map Entry.node, k ∈ t.heads := by
    intro es hes k hk
    obtain ⟨e, he, rfl⟩ := List.mem_map.mp hk
    exact List.mem_map_of_mem (hes e he)
  have hys := hsub t.ys fun e he => by simp [he]
  have hseeds := hsub t.seeds fun e he => by simp [he]
  constructor
  · intro g w' hrun
    by_cases hlen : t.ys.length = t.seeds.length
    · rw [t.generate_eq_relay hp hlen] at hrun
      have hsevers := Build.relay_severs (a := a) hp (fun n hn => hw n (hn.mono hys))
        (fun n hn => hw n (hn.mono hseeds)) rfl rfl fun n hn => hvars n (hn.mono hys)
      obtain ⟨hm, hspared⟩ := hsevers.ok hrun
      exact ⟨hspared, hm⟩
    · unfold Build.generate at hrun
      rw [t.validate_request, if_neg hlen] at hrun
      cases hrun
  · intro ha hac hlen hentries hops
    refine t.generate_run ha hp hentries hw hac hlen hops fun test htest n node => ?_
    cases htest
    exact ⟨_, Selector.operators_holds n node⟩

theorem Build.recomputing_severs_forward_sample :
    ∃ g w, Build.generate RuleBook.builtins (Targets.sample.request (.selector .operators)) .initial
        { heap := .sample } = .ok g w ∧
      (∀ n, w.heap.Reachable (g.outputs.map Entry.node) n → Heap.sample.Has n →
        Heap.sample.Reachable (Targets.sample.seeds.map Entry.node) n ∨
          ((Heap.sample.node n).op = none ∧ Heap.sample.Reachable (Targets.sample.ys.map Entry.node) n)) ∧
      ∃ m : MirrorMap, m.Reflects .sample w.heap .operators
        (Heap.sample.postorder (Targets.sample.ys.map Entry.node)) := by
  have hw := Heap.sample_whole
  have hbare : ∀ i < Heap.sample.size, (Heap.sample.node ⟨i⟩).op = none → Heap.sample.predecessors ⟨i⟩ = [] := by decide
  have hseeds : ∀ e ∈ [(⟨⟨7⟩, 0⟩ : Entry), ⟨⟨7⟩, 0⟩, ⟨⟨1⟩, 0⟩], Heap.sample.HasEntry e := by decide
  have htest : StrategyTable.builtin.selector (.member "RecomputeAll") .null = .ok (some .operators) := rfl
  obtain ⟨hsevers, hsucceeds⟩ := recomputing_severs_forward (a := .initial) (w := { heap := .sample })
    (t := Targets.sample) htest (Problem.sample_fits (some .operators)) hw fun n hn => hbare n.index (hw n hn).1
  obtain ⟨g, w, hrun⟩ := hsucceeds Ambient.initial_default (Heap.sample_ascending.acyclicFrom _) rfl hseeds
    fun n hn => Heap.sample_differentiable.operators n (hw n hn).1
  exact ⟨g, w, hrun, hsevers g w hrun⟩

end Backprop
