import Backprop.Proofs.SearchSound
import Backprop.Proofs.StructureSound
import Backprop.Proofs.VisitSound

/-!
# Isomorphic graphs have one structure

The view of a graph forgets the order of the edges between two vertices: only
their number and the set of their marks are compared. Nothing is lost by that,
because the marks of inputs have different slots and those of control
dependencies are all the same and can be counted. So graphs are isomorphic if
and only if their nodes correspond, with operators, inputs by position, control
dependencies up to order, and outputs by position.
-/

namespace Backprop

namespace Graph
variable {h : Heap} {g a b : Graph} {φ : NodeId → NodeId} {x y k : Nat} {n p : NodeId} {m : Int × Int}

/-! ## Vertices -/

theorem length_vertices (g : Graph) (h : Heap) :
    (g.view h).vertices.length = (g.order h).length + g.outputs.length := by
  simp [View.vertices, view]

theorem nodup_order (g : Graph) (h : Heap) : (g.order h).Nodup := h.nodup_postorder _

theorem label_node (hx : (g.order h)[x]? = some n) :
    ((g.view h).vertices[x]?).map Vertex.label = some (h.node n).opName := by
  have hlt := (List.getElem?_eq_some_iff.mp hx).1
  rw [View.vertices, List.getElem?_append_left (by simpa [view] using hlt)]
  simp [view, hx]

theorem label_sink (hk : k < g.outputs.length) :
    ((g.view h).vertices[(g.order h).length + k]?).map Vertex.label = some s!"__output_{k}__" := by
  simp [View.vertices, view, hk]

theorem output_label_inj {j k : Nat} (heq : s!"__output_{j}__" = s!"__output_{k}__") : j = k := by
  have hrepr : j.repr = k.repr := (String.append_right_inj _).mp ((String.append_left_inj _).mp heq)
  rw [Nat.repr_eq_ofList_toDigits, Nat.repr_eq_ofList_toDigits, String.ofList_inj] at hrepr
  rw [← Nat.ofDigitChars_ten_toDigits (n := j), hrepr, Nat.ofDigitChars_ten_toDigits]

theorem ne_output_label {label : String} (hl : label.toList.head? ≠ some '_') (k : Nat) : label ≠ s!"__output_{k}__" := by
  intro heq
  have hhead := congrArg (fun s : String => s.toList.head?) heq
  simp [ToString.toString] at hhead
  exact hl (by simpa using hhead)

/-! ## Marks -/

theorem idxOf_eq_iff {order : List NodeId} (hnd : order.Nodup) (hx : order[x]? = some p) {d : NodeId} :
    order.idxOf d = x ↔ d = p := by
  obtain ⟨hlt, rfl⟩ := List.getElem?_eq_some_iff.mp hx
  constructor
  · intro he
    subst he
    exact (List.getElem_idxOf hlt).symm
  · intro he
    rw [he, hnd.idxOf_getElem]

theorem mem_edges {e : Edge} : e ∈ (g.view h).edges ↔
    (∃ y n, (g.order h)[y]? = some n ∧ e ∈ edgesInto (g.order h) y (h.node n)) ∨
    ∃ k out, g.outputs[k]? = some out ∧ e = sinkEdge (g.order h) k out := by
  simp only [view, List.mem_append, List.mem_flatMap, List.mem_map, Prod.exists, List.mem_zipIdx_iff_getElem?]
  constructor
  · intro he
    rcases he with ⟨n, y, hy, he⟩ | ⟨out, k, hk, he⟩
    · exact .inl ⟨y, n, hy, he⟩
    · exact .inr ⟨k, out, hk, he.symm⟩
  · intro he
    rcases he with ⟨y, n, hy, he⟩ | ⟨k, out, hk, he⟩
    · exact .inl ⟨n, y, hy, he⟩
    · exact .inr ⟨out, k, hk, he.symm⟩

theorem mem_edgesInto {order : List NodeId} {node : Node} {e : Edge} : e ∈ edgesInto order y node ↔
    (∃ (slot : Nat) (input : Entry), node.inputs[slot]? = some input ∧ e = ⟨order.idxOf input.node, y, input.index, slot⟩) ∨
    ∃ dep ∈ node.deps, e = ⟨order.idxOf dep, y, -1, -1⟩ := by
  simp only [edgesInto, List.mem_append, List.mem_map, Prod.exists, List.mem_zipIdx_iff_getElem?]
  constructor
  · intro he
    rcases he with ⟨input, slot, hi, he⟩ | ⟨dep, hd, he⟩
    · exact .inl ⟨slot, input, hi, he.symm⟩
    · exact .inr ⟨dep, hd, he.symm⟩
  · intro he
    rcases he with ⟨slot, input, hi, he⟩ | ⟨dep, hd, he⟩
    · exact .inl ⟨input, slot, hi, he.symm⟩
    · exact .inr ⟨dep, hd, he.symm⟩

theorem mem_marks : m ∈ (g.view h).marks x y ↔
    ∃ e ∈ (g.view h).edges, e.source = x ∧ e.target = y ∧ m = (e.index, e.slot) := by
  simp only [View.marks, List.mem_map, List.mem_filter, decide_eq_true_eq]
  constructor
  · intro hmark
    obtain ⟨e, ⟨he, hs, ht⟩, hm⟩ := hmark
    exact ⟨e, he, hs, ht, hm.symm⟩
  · intro hedge
    obtain ⟨e, he, hs, ht, hm⟩ := hedge
    exact ⟨e, ⟨he, hs, ht⟩, hm.symm⟩

/-- The marks into a node: one for every input that the other node produces, and one for the dependencies on it. -/
theorem mem_marks_node (hx : (g.order h)[x]? = some p) (hy : (g.order h)[y]? = some n) :
    m ∈ (g.view h).marks x y ↔
      (∃ (slot : Nat) (input : Entry), (h.node n).inputs[slot]? = some input ∧ input.node = p ∧
        m = ((input.index : Int), (slot : Int))) ∨
      (p ∈ (h.node n).deps ∧ m = (-1, -1)) := by
  have hidx := @idxOf_eq_iff x p _ (nodup_order g h) hx
  rw [mem_marks]
  constructor
  · intro hedge
    obtain ⟨e, he, hs, ht, hm⟩ := hedge
    rcases mem_edges.mp he with ⟨y', n', hy', he⟩ | ⟨k, out, hk, rfl⟩
    · rcases mem_edgesInto.mp he with ⟨slot, input, hi, rfl⟩ | ⟨dep, hd, rfl⟩
      · obtain rfl : y' = y := ht
        obtain rfl : n' = n := by simpa [hy'] using hy
        exact .inl ⟨slot, input, hi, hidx.mp hs, hm⟩
      · obtain rfl : y' = y := ht
        obtain rfl : n' = n := by simpa [hy'] using hy
        obtain rfl : dep = p := hidx.mp hs
        exact .inr ⟨hd, hm⟩
    -- the edges into outputs end beyond the nodes
    · have hlt := (List.getElem?_eq_some_iff.mp hy).1
      simp only [sinkEdge] at ht
      omega
  · intro hm
    rcases hm with ⟨slot, input, hi, hp, hm⟩ | ⟨hd, hm⟩
    · exact ⟨_, mem_edges.mpr (.inl ⟨y, n, hy, mem_edgesInto.mpr (.inl ⟨slot, input, hi, rfl⟩)⟩), hidx.mpr hp, rfl, hm⟩
    · exact ⟨_, mem_edges.mpr (.inl ⟨y, n, hy, mem_edgesInto.mpr (.inr ⟨p, hd, rfl⟩)⟩), hidx.mpr rfl, rfl, hm⟩

theorem sum_zipIdx_single {α : Type} (l : List α) (c : α → Nat) (start : Nat) {y : Nat} {z : α} (hy : l[y]? = some z) :
    ((l.zipIdx start).map fun q => if q.2 = start + y then c q.1 else 0).sum = c z := by
  induction l generalizing start y with
  | nil => simp at hy
  | cons first rest ih =>
    cases y with
    | zero =>
      have hrest : ((rest.zipIdx (start + 1)).map fun q => if q.2 = start then c q.1 else 0).sum = 0 := by
        refine List.sum_eq_zero fun q hq => ?_
        obtain ⟨⟨w, j⟩, hw, rfl⟩ := List.mem_map.mp hq
        have hle := (List.mem_zipIdx hw).1
        simp only [ite_eq_right_iff]
        omega
      obtain rfl : first = z := by simpa using hy
      simp [hrest]
    | succ y =>
      have hih := ih (start + 1) (y := y) (by simpa using hy)
      simp only [Nat.add_right_comm start 1 y, Nat.add_assoc start y 1] at hih
      simp [hih]

theorem length_marks (g : Graph) (h : Heap) (x y : Nat) : ((g.view h).marks x y).length =
    ((g.order h).zipIdx.map fun q => (edgesInto (g.order h) q.2 (h.node q.1)).countP
      fun e => e.source = x ∧ e.target = y).sum +
    (g.outputs.zipIdx.map fun q => [sinkEdge (g.order h) q.2 q.1].countP fun e => e.source = x ∧ e.target = y).sum := by
  rw [View.marks, List.length_map, ← List.countP_eq_length_filter]
  simp only [view, List.countP_append, List.map_eq_flatMap (f := fun q : Entry × Nat => sinkEdge (g.order h) q.2 q.1),
    List.countP_flatMap]
  rfl

theorem countP_edgesInto {order : List NodeId} (hnd : order.Nodup) (hx : order[x]? = some p) (node : Node) (target : Nat) :
    (edgesInto order target node).countP (fun e => e.source = x ∧ e.target = y) =
      if target = y then node.predecessors.count p else 0 := by
  have hidx := @idxOf_eq_iff x p order hnd hx
  have hinputs : (node.inputs.map Entry.node).count p = node.inputs.zipIdx.countP fun q => q.1.node = p := by
    rw [← List.zipIdx_map_fst 0 node.inputs, List.map_map, List.count, List.countP_map]
    simp [Function.comp_def, beq_eq_decide]
  by_cases ht : target = y
  · rw [Node.predecessors, List.count_append, hinputs]
    simp [edgesInto, List.countP_append, List.countP_map, Function.comp_def, hidx, ht, List.count, beq_eq_decide]
  · simp [edgesInto, List.countP_append, List.countP_map, Function.comp_def, ht]

theorem countP_sinkEdge {order : List NodeId} (hnd : order.Nodup) (hx : order[x]? = some p) (out : Entry) (position : Nat) :
    [sinkEdge order position out].countP (fun e => e.source = x ∧ e.target = y) =
      if order.length + position = y then (if out.node = p then 1 else 0) else 0 := by
  have hidx := @idxOf_eq_iff x p order hnd hx
  by_cases ht : order.length + position = y <;> by_cases hp : out.node = p <;> simp [sinkEdge, hidx, ht, hp]

theorem length_marks_node (hx : (g.order h)[x]? = some p) (hy : (g.order h)[y]? = some n) :
    ((g.view h).marks x y).length = (h.predecessors n).count p := by
  have hlt := (List.getElem?_eq_some_iff.mp hy).1
  rw [length_marks]
  simp only [countP_edgesInto (nodup_order g h) hx, countP_sinkEdge (nodup_order g h) hx]
  have hsum := sum_zipIdx_single (g.order h) (fun n => (h.node n).predecessors.count p) 0 hy
  have hsinks : ∀ position, ¬ (g.order h).length + position = y := fun _ => by omega
  simpa [hsinks, Heap.predecessors] using hsum

theorem length_marks_sink (hx : (g.order h)[x]? = some p) {out : Entry} (hk : g.outputs[k]? = some out) :
    ((g.view h).marks x ((g.order h).length + k)).length = if out.node = p then 1 else 0 := by
  rw [length_marks]
  simp only [countP_edgesInto (nodup_order g h) hx, countP_sinkEdge (nodup_order g h) hx]
  have hnodes : ((g.order h).zipIdx.map fun q =>
      if q.2 = (g.order h).length + k then (h.node q.1).predecessors.count p else 0).sum = 0 := by
    refine List.sum_eq_zero fun c hc => ?_
    obtain ⟨⟨n, j⟩, hq, rfl⟩ := List.mem_map.mp hc
    have hlt := (List.mem_zipIdx hq).2.1
    simp only [ite_eq_right_iff]
    omega
  have hsum := sum_zipIdx_single g.outputs (fun out => if out.node = p then 1 else 0) 0 hk
  rw [hnodes, Nat.zero_add]
  simpa using hsum

theorem mem_marks_sink (hx : (g.order h)[x]? = some p) {out : Entry} (hk : g.outputs[k]? = some out) :
    m ∈ (g.view h).marks x ((g.order h).length + k) ↔ out.node = p ∧ m = ((out.index : Int), 0) := by
  have hidx := @idxOf_eq_iff x p _ (nodup_order g h) hx
  rw [mem_marks]
  constructor
  · intro hedge
    obtain ⟨e, he, hs, ht, hm⟩ := hedge
    rcases mem_edges.mp he with ⟨y', n', hy', he⟩ | ⟨k', out', hk', rfl⟩
    · have hlt := (List.getElem?_eq_some_iff.mp hy').1
      have htarget : e.target = y' := by
        rcases mem_edgesInto.mp he with ⟨slot, input, hi, rfl⟩ | ⟨dep, hd, rfl⟩ <;> rfl
      omega
    · obtain rfl : k' = k := by simpa [sinkEdge] using ht
      obtain rfl : out' = out := by simpa [hk'] using hk
      exact ⟨hidx.mp hs, hm⟩
  · intro hsink
    obtain ⟨hp, hm⟩ := hsink
    exact ⟨_, mem_edges.mpr (.inr ⟨k, out, hk, rfl⟩), hidx.mpr hp, rfl, hm⟩

/-! ## Sources -/

def heads (g : Graph) : List NodeId := g.outputs.map Entry.node

theorem mem_order (hw : h.Whole g.heads) : n ∈ g.order h ↔ h.Reachable g.heads n := hw.mem_postorder_iff

theorem exists_position (hw : h.Whole g.heads) (hn : h.Reachable g.heads n) : ∃ x : Nat, (g.order h)[x]? = some n :=
  List.mem_iff_getElem?.mp ((mem_order hw).mpr hn)

theorem reachable_of_position (hw : h.Whole g.heads) (hx : (g.order h)[x]? = some n) : h.Reachable g.heads n :=
  (mem_order hw).mp (List.mem_iff_getElem?.mpr ⟨x, hx⟩)

theorem reachable_output {out : Entry} (ho : out ∈ g.outputs) : h.Reachable g.heads out.node :=
  .head (List.mem_map_of_mem ho)

theorem reachable_input (hn : h.Reachable g.heads n) {e : Entry} (he : e ∈ (h.node n).inputs) :
    h.Reachable g.heads e.node := hn.step (List.mem_append_left _ (List.mem_map_of_mem he))

theorem reachable_dep (hn : h.Reachable g.heads n) (hp : p ∈ (h.node n).deps) : h.Reachable g.heads p :=
  hn.step (List.mem_append_right _ hp)

theorem source_lt (hw : h.Whole g.heads) {e : Edge} (he : e ∈ (g.view h).edges) : e.source < (g.order h).length := by
  have hidx : ∀ {d : NodeId}, h.Reachable g.heads d → (g.order h).idxOf d < (g.order h).length := fun hd =>
    List.idxOf_lt_length_iff.mpr ((mem_order hw).mpr hd)
  rcases mem_edges.mp he with ⟨y, n, hy, he⟩ | ⟨k, out, hk, rfl⟩
  · have hn := reachable_of_position hw hy
    rcases mem_edgesInto.mp he with ⟨slot, input, hi, rfl⟩ | ⟨dep, hd, rfl⟩
    · exact hidx (reachable_input hn (List.mem_of_getElem? hi))
    · exact hidx (reachable_dep hn hd)
  · exact hidx (reachable_output (List.mem_of_getElem? hk))

theorem closed_view (hw : h.Whole g.heads) : (g.view h).Closed := by
  intro e he
  have hs := source_lt hw he
  rw [length_vertices]
  refine ⟨by omega, ?_⟩
  rcases mem_edges.mp he with ⟨y, n, hy, he⟩ | ⟨k, out, hk, rfl⟩
  · have hlt := (List.getElem?_eq_some_iff.mp hy).1
    rcases mem_edgesInto.mp he with ⟨slot, input, hi, rfl⟩ | ⟨dep, hd, rfl⟩
    · exact Nat.lt_add_right _ hlt
    · exact Nat.lt_add_right _ hlt
  · exact Nat.add_lt_add_left (List.getElem?_eq_some_iff.mp hk).1 _

theorem marks_of_le (hw : h.Whole g.heads) (hx : (g.order h).length ≤ x) : (g.view h).marks x y = [] := by
  rw [List.eq_nil_iff_forall_not_mem]
  intro m hm
  obtain ⟨e, he, hs, -⟩ := mem_marks.mp hm
  have hlt := source_lt hw he
  omega

/-! ## Correspondences of nodes -/

/-- The renaming is one to one between the nodes of the graphs and keeps operator names, inputs by position, control
dependencies up to order, and outputs by position. -/
structure Corresponds (h : Heap) (φ : NodeId → NodeId) (a b : Graph) : Prop where
  bijOn : Set.BijOn φ {n | h.Reachable a.heads n} {n | h.Reachable b.heads n}
  ops : ∀ n, h.Reachable a.heads n → (h.node (φ n)).op.map Op.name = (h.node n).op.map Op.name
  inputs : ∀ n, h.Reachable a.heads n → (h.node (φ n)).inputs = (h.node n).inputs.map (Entry.rename φ)
  deps : ∀ n, h.Reachable a.heads n → (h.node (φ n)).deps.Perm ((h.node n).deps.map φ)
  outputs : b.outputs = a.outputs.map (Entry.rename φ)

theorem count_map_of_injOn {S : Set NodeId} (hφ : Set.InjOn φ S) {l : List NodeId} (hl : ∀ d ∈ l, d ∈ S) (hp : p ∈ S) :
    (l.map φ).count (φ p) = l.count p := by
  induction l with
  | nil => rfl
  | cons d l ih =>
    have hd : φ d = φ p ↔ d = p := ⟨fun he => hφ (hl d (by simp)) hp he, fun he => he ▸ rfl⟩
    rw [List.map_cons, List.count_cons, List.count_cons, ih fun d hd => hl d (List.mem_cons_of_mem _ hd)]
    simp [hd]

namespace Corresponds

theorem opName_eq (hc : Corresponds h φ a b) (hn : h.Reachable a.heads n) : (h.node (φ n)).opName = (h.node n).opName := by
  have hop := hc.ops n hn
  unfold Node.opName
  cases h₁ : (h.node (φ n)).op <;> cases h₂ : (h.node n).op <;> simp_all

theorem predecessors_perm (hc : Corresponds h φ a b) (hn : h.Reachable a.heads n) :
    (h.predecessors (φ n)).Perm ((h.predecessors n).map φ) := by
  unfold Heap.predecessors Node.predecessors
  rw [hc.inputs n hn, List.map_append, List.map_map, List.map_map]
  exact (hc.deps n hn).append_left _

theorem count_predecessors (hc : Corresponds h φ a b) (hn : h.Reachable a.heads n) (hp : h.Reachable a.heads p) :
    (h.predecessors (φ n)).count (φ p) = (h.predecessors n).count p := by
  rw [(hc.predecessors_perm hn).count_eq]
  exact count_map_of_injOn hc.bijOn.injOn (fun d hd => hn.step hd) hp

theorem mem_deps (hc : Corresponds h φ a b) (hn : h.Reachable a.heads n) (hp : h.Reachable a.heads p) :
    φ p ∈ (h.node (φ n)).deps ↔ p ∈ (h.node n).deps := by
  rw [(hc.deps n hn).mem_iff, List.mem_map]
  constructor
  · intro hdep
    obtain ⟨d, hd, he⟩ := hdep
    exact hc.bijOn.injOn (reachable_dep hn hd) hp he ▸ hd
  · intro hd
    exact ⟨p, hd, rfl⟩

theorem order_perm (hc : Corresponds h φ a b) (ha : h.Whole a.heads) (hb : h.Whole b.heads) :
    ((a.order h).map φ).Perm (b.order h) := by
  refine (List.perm_ext_iff_of_nodup ?_ (nodup_order b h)).mpr fun m => ?_
  · refine List.Nodup.map_on (fun n hn p hp => ?_) (nodup_order a h)
    exact hc.bijOn.injOn ((mem_order ha).mp hn) ((mem_order ha).mp hp)
  · rw [List.mem_map, mem_order hb]
    constructor
    · intro hnode
      obtain ⟨n, hn, he⟩ := hnode
      exact he ▸ hc.bijOn.mapsTo ((mem_order ha).mp hn)
    · intro hm
      obtain ⟨n, hn, he⟩ := hc.bijOn.surjOn hm
      exact ⟨n, (mem_order ha).mpr hn, he⟩

theorem order_length (hc : Corresponds h φ a b) (ha : h.Whole a.heads) (hb : h.Whole b.heads) :
    (a.order h).length = (b.order h).length := by
  simpa using (hc.order_perm ha hb).length_eq

theorem outputs_length (hc : Corresponds h φ a b) : a.outputs.length = b.outputs.length := by
  rw [hc.outputs, List.length_map]

end Corresponds

/-! ## From nodes to vertices -/

theorem vertex_cases (hx : x < (g.view h).vertices.length) :
    (∃ n, (g.order h)[x]? = some n) ∨ ∃ (k : Nat) (out : Entry), g.outputs[k]? = some out ∧ x = (g.order h).length + k := by
  rw [length_vertices] at hx
  by_cases hlt : x < (g.order h).length
  · exact .inl ⟨_, List.getElem?_eq_getElem hlt⟩
  · have hk : x - (g.order h).length < g.outputs.length := by omega
    exact .inr ⟨x - (g.order h).length, _, List.getElem?_eq_getElem hk, by omega⟩

theorem lt_of_position (hx : (g.order h)[x]? = some n) : x < (g.view h).vertices.length := by
  rw [length_vertices]
  exact Nat.lt_add_right _ (List.getElem?_eq_some_iff.mp hx).1

theorem lt_of_output {out : Entry} (hk : g.outputs[k]? = some out) :
    (g.order h).length + k < (g.view h).vertices.length := by
  rw [length_vertices]
  exact Nat.add_lt_add_left (List.getElem?_eq_some_iff.mp hk).1 _

theorem position_unique (hx : (g.order h)[x]? = some n) (hy : (g.order h)[y]? = some n) : x = y :=
  ((idxOf_eq_iff (nodup_order g h) hx).mpr rfl).symm.trans ((idxOf_eq_iff (nodup_order g h) hy).mpr rfl)

def moved (h : Heap) (φ : NodeId → NodeId) (a b : Graph) (x : Nat) : Nat :=
  (((a.order h)[x]?).map fun n => (b.order h).idxOf (φ n)).getD x

theorem moved_sink (h : Heap) (φ : NodeId → NodeId) (a b : Graph) (k : Nat) :
    moved h φ a b ((a.order h).length + k) = (a.order h).length + k := by
  simp [moved]

namespace Corresponds

theorem moved_node (hc : Corresponds h φ a b) (ha : h.Whole a.heads) (hb : h.Whole b.heads)
    (hx : (a.order h)[x]? = some n) : (b.order h)[moved h φ a b x]? = some (φ n) := by
  have hmem : φ n ∈ b.order h := (mem_order hb).mpr (hc.bijOn.mapsTo (reachable_of_position ha hx))
  simp [moved, hx, List.getElem?_idxOf hmem]

theorem sameMarks (hc : Corresponds h φ a b) (ha : h.Whole a.heads) (hb : h.Whole b.heads)
    (hx : x < (a.view h).vertices.length) (hy : y < (a.view h).vertices.length) :
    View.SameMarks ((a.view h).marks x y) ((b.view h).marks (moved h φ a b x) (moved h φ a b y)) := by
  have hlength := hc.order_length ha hb
  rcases vertex_cases hx with ⟨p, hx⟩ | ⟨k, out, -, rfl⟩
  · have hp := reachable_of_position ha hx
    have hx' := hc.moved_node ha hb hx
    rcases vertex_cases hy with ⟨n, hy⟩ | ⟨k, out, hk, rfl⟩
    · have hn := reachable_of_position ha hy
      have hy' := hc.moved_node ha hb hy
      refine ⟨?_, fun m => ?_⟩
      · rw [length_marks_node hx hy, length_marks_node hx' hy', hc.count_predecessors hn hp]
      · rw [mem_marks_node hx hy, mem_marks_node hx' hy', hc.mem_deps hn hp, hc.inputs n hn]
        refine or_congr ?_ Iff.rfl
        constructor
        · intro hinput
          obtain ⟨slot, input, hi, he, hm⟩ := hinput
          exact ⟨slot, input.rename φ, by simp [hi], by simp [Entry.rename, he], hm⟩
        · intro hinput
          obtain ⟨slot, input, hi, he, hm⟩ := hinput
          rw [List.getElem?_map] at hi
          obtain ⟨input, hi', rfl⟩ := Option.map_eq_some_iff.mp hi
          exact ⟨slot, input, hi', hc.bijOn.injOn (reachable_input hn (List.mem_of_getElem? hi')) hp he, hm⟩
    · have hout : h.Reachable a.heads out.node := reachable_output (List.mem_of_getElem? hk)
      have hk' : b.outputs[k]? = some (out.rename φ) := by simp [hc.outputs, hk]
      have hnode : (out.rename φ).node = φ p ↔ out.node = p :=
        ⟨fun he => hc.bijOn.injOn hout hp he, fun he => congrArg φ he⟩
      rw [moved_sink, hlength]
      refine ⟨?_, fun m => ?_⟩
      · rw [← hlength, length_marks_sink hx hk, hlength, length_marks_sink hx' hk']
        simp [hnode]
      · rw [← hlength, mem_marks_sink hx hk, hlength, mem_marks_sink hx' hk', hnode]
        rfl
  -- nothing starts at an output
  · rw [marks_of_le ha (by omega), marks_of_le hb (by rw [moved_sink]; omega)]
    exact ⟨rfl, fun _ => Iff.rfl⟩

theorem moved_bijOn (hc : Corresponds h φ a b) (ha : h.Whole a.heads) (hb : h.Whole b.heads) :
    Set.BijOn (moved h φ a b) {x | x < (a.view h).vertices.length} {y | y < (b.view h).vertices.length} := by
  have hlength := hc.order_length ha hb
  refine ⟨fun x hx => ?_, fun x hx y hy he => ?_, fun y hy => ?_⟩
  · rcases vertex_cases hx with ⟨n, hn⟩ | ⟨k, out, hk, rfl⟩
    · exact lt_of_position (hc.moved_node ha hb hn)
    · have hk' : b.outputs[k]? = some (out.rename φ) := by simp [hc.outputs, hk]
      rw [moved_sink, hlength]
      exact lt_of_output hk'
  · rcases vertex_cases hx with ⟨n, hn⟩ | ⟨k, out, hk, rfl⟩ <;> rcases vertex_cases hy with ⟨m, hm⟩ | ⟨j, out', hj, rfl⟩
    · have hn' := hc.moved_node ha hb hn
      rw [he, hc.moved_node ha hb hm, Option.some.injEq] at hn'
      obtain rfl := hc.bijOn.injOn (reachable_of_position ha hm) (reachable_of_position ha hn) hn'
      exact position_unique hn hm
    · have hlt := (List.getElem?_eq_some_iff.mp (hc.moved_node ha hb hn)).1
      rw [moved_sink] at he
      omega
    · have hlt := (List.getElem?_eq_some_iff.mp (hc.moved_node ha hb hm)).1
      rw [moved_sink] at he
      omega
    · rwa [moved_sink, moved_sink] at he
  · rcases vertex_cases hy with ⟨m, hm⟩ | ⟨k, out, hk, rfl⟩
    · obtain ⟨n, hn, rfl⟩ := hc.bijOn.surjOn (reachable_of_position hb hm)
      obtain ⟨x, hx⟩ := exists_position ha hn
      exact ⟨x, lt_of_position hx, position_unique (hc.moved_node ha hb hx) hm⟩
    · rw [hc.outputs, List.getElem?_map] at hk
      obtain ⟨out, hk', rfl⟩ := Option.map_eq_some_iff.mp hk
      exact ⟨(a.order h).length + k, lt_of_output hk', by rw [moved_sink, hlength]⟩

theorem matches_views (hc : Corresponds h φ a b) (ha : h.Whole a.heads) (hb : h.Whole b.heads) :
    (a.view h).Matches (b.view h) (moved h φ a b) := by
  refine ⟨hc.moved_bijOn ha hb, fun x hx => ?_, fun x hx y hy => hc.sameMarks ha hb hx hy⟩
  rcases vertex_cases hx with ⟨n, hn⟩ | ⟨k, out, hk, rfl⟩
  · rw [label_node hn, label_node (hc.moved_node ha hb hn), hc.opName_eq (reachable_of_position ha hn)]
  · have hlt := (List.getElem?_eq_some_iff.mp hk).1
    rw [label_sink hlt, moved_sink, hc.order_length ha hb, label_sink (hc.outputs_length ▸ hlt)]

end Corresponds

/-! ## From vertices to nodes -/

/-- The nodes of the graph can be told from its outputs by their labels: no operator has the label of a variable or of
an output. -/
structure Proper (g : Graph) (h : Heap) : Prop where
  whole : h.Whole g.heads
  names : ∀ n, h.Reachable g.heads n → ∀ op ∈ (h.node n).op, op.name ≠ "null" ∧ ∀ k : Nat, op.name ≠ s!"__output_{k}__"

theorem Proper.opName_ne (hg : g.Proper h) (hn : h.Reachable g.heads n) (k : Nat) :
    (h.node n).opName ≠ s!"__output_{k}__" := by
  unfold Node.opName
  cases hop : (h.node n).op with
  | none => exact ne_output_label (by decide) k
  | some op => exact (hg.names n hn op hop).2 k

theorem Proper.op_eq (ha : a.Proper h) (hb : b.Proper h) (hn : h.Reachable a.heads n) (hp : h.Reachable b.heads p)
    (he : (h.node p).opName = (h.node n).opName) : (h.node p).op.map Op.name = (h.node n).op.map Op.name := by
  unfold Node.opName at he
  cases hop : (h.node n).op with
  | none =>
    cases hop' : (h.node p).op with
    | none => rfl
    | some op => exact absurd (by simpa [hop, hop'] using he) (hb.names p hp op hop').1
  | some op =>
    cases hop' : (h.node p).op with
    | none => exact absurd (by simpa [hop, hop'] using he.symm) (ha.names n hn op hop).1
    | some op' => simpa [hop, hop'] using he

def renamed (h : Heap) (f : Nat → Nat) (a b : Graph) (n : NodeId) : NodeId :=
  ((b.order h)[f ((a.order h).idxOf n)]?).getD n

section Vertices
variable {f : Nat → Nat}

theorem renamed_node (hm : (a.view h).Matches (b.view h) f) (ha : a.Proper h) (hx : (a.order h)[x]? = some n) :
    (b.order h)[f x]? = some (renamed h f a b n) := by
  have hidx : (a.order h).idxOf n = x := (idxOf_eq_iff (nodup_order a h) hx).mpr rfl
  rcases vertex_cases (hm.lt (lt_of_position hx)) with ⟨n', hn'⟩ | ⟨k, out, hk, he⟩
  · simp [renamed, hidx, hn']
  · have hlabel := hm.labels x (lt_of_position hx)
    rw [he, label_sink (List.getElem?_eq_some_iff.mp hk).1, label_node hx, Option.some.injEq] at hlabel
    exact absurd hlabel.symm (ha.opName_ne (reachable_of_position ha.whole hx) k)

theorem matches_sink (hm : (a.view h).Matches (b.view h) f) (hb : b.Proper h) {out : Entry} (hk : a.outputs[k]? = some out) :
    f ((a.order h).length + k) = (b.order h).length + k ∧ ∃ out', b.outputs[k]? = some out' := by
  have hlabel := hm.labels _ (lt_of_output hk)
  rw [label_sink (List.getElem?_eq_some_iff.mp hk).1] at hlabel
  rcases vertex_cases (hm.lt (lt_of_output hk)) with ⟨n', hn'⟩ | ⟨k', out', hk', he⟩
  · rw [label_node hn', Option.some.injEq] at hlabel
    exact absurd hlabel (hb.opName_ne (reachable_of_position hb.whole hn') k)
  · rw [he, label_sink (List.getElem?_eq_some_iff.mp hk').1, Option.some.injEq] at hlabel
    obtain rfl := output_label_inj hlabel
    exact ⟨he, out', hk'⟩

/-- Every node of the second graph is the partner of a node, and not of an output. -/
theorem exists_renamed (hm : (a.view h).Matches (b.view h) f) (ha : a.Proper h) (hb : b.Proper h)
    (hy : (b.order h)[y]? = some p) :
    ∃ (x : Nat) (n : NodeId), (a.order h)[x]? = some n ∧ f x = y ∧ renamed h f a b n = p := by
  obtain ⟨x, hx, rfl⟩ := hm.bijOn.surjOn (lt_of_position hy)
  rcases vertex_cases hx with ⟨n, hn⟩ | ⟨k, out, hk, rfl⟩
  · have hn' := renamed_node hm ha hn
    exact ⟨x, n, hn, rfl, by simpa [hy] using hn'.symm⟩
  · have hlt := (List.getElem?_eq_some_iff.mp hy).1
    have hsink := (matches_sink hm hb hk).1
    omega

theorem renamed_bijOn (hm : (a.view h).Matches (b.view h) f) (ha : a.Proper h) (hb : b.Proper h) :
    Set.BijOn (renamed h f a b) {n | h.Reachable a.heads n} {n | h.Reachable b.heads n} := by
  refine ⟨fun n hn => ?_, fun n hn p hp he => ?_, fun p hp => ?_⟩
  · obtain ⟨x, hx⟩ := exists_position ha.whole hn
    exact reachable_of_position hb.whole (renamed_node hm ha hx)
  · obtain ⟨x, hx⟩ := exists_position ha.whole hn
    obtain ⟨y, hy⟩ := exists_position ha.whole hp
    have hxy : f x = f y := position_unique (renamed_node hm ha hx) (he ▸ renamed_node hm ha hy)
    obtain rfl := hm.bijOn.injOn (lt_of_position hx) (lt_of_position hy) hxy
    simpa [hx] using hy
  · obtain ⟨y, hy⟩ := exists_position hb.whole hp
    obtain ⟨x, n, hx, -, he⟩ := exists_renamed hm ha hb hy
    exact ⟨n, reachable_of_position ha.whole hx, he⟩

/-- Slots number the inputs, so the set of marks determines the list of inputs. -/
theorem renamed_inputs (hm : (a.view h).Matches (b.view h) f) (ha : a.Proper h) (hb : b.Proper h)
    (hn : h.Reachable a.heads n) :
    (h.node (renamed h f a b n)).inputs = (h.node n).inputs.map (Entry.rename (renamed h f a b)) := by
  obtain ⟨y, hy⟩ := exists_position ha.whole hn
  have hy' := renamed_node hm ha hy
  have hn' := reachable_of_position hb.whole hy'
  refine List.ext_getElem? fun slot => ?_
  rw [List.getElem?_map]
  cases hi : (h.node n).inputs[slot]? with
  | some input =>
    obtain ⟨x, hx⟩ := exists_position ha.whole (reachable_input hn (List.mem_of_getElem? hi))
    have hmark := (mem_marks_node hx hy).mpr (.inl ⟨slot, input, hi, rfl, rfl⟩)
    rw [(hm.marks x (lt_of_position hx) y (lt_of_position hy)).2, mem_marks_node (renamed_node hm ha hx) hy'] at hmark
    rcases hmark with ⟨slot', input', hi', hnode, hmark⟩ | ⟨-, hmark⟩
    · simp only [Prod.mk.injEq, Nat.cast_inj] at hmark
      rw [hmark.2, hi', Option.map_some, Entry.rename, hmark.1, ← hnode]
    · simp only [Prod.mk.injEq] at hmark
      omega
  | none =>
    rw [Option.map_none, List.getElem?_eq_none_iff]
    by_contra hlt
    have hi' := List.getElem?_eq_getElem (Nat.lt_of_not_le hlt)
    obtain ⟨z, hz⟩ := exists_position hb.whole (reachable_input hn' (List.mem_of_getElem? hi'))
    obtain ⟨x, p, hx, rfl, hp⟩ := exists_renamed hm ha hb hz
    have hmark := (mem_marks_node hz hy').mpr (.inl ⟨slot, _, hi', rfl, rfl⟩)
    rw [← (hm.marks x (lt_of_position hx) y (lt_of_position hy)).2, mem_marks_node hx hy] at hmark
    rcases hmark with ⟨slot', input', hi', hnode, hmark⟩ | ⟨-, hmark⟩
    · simp only [Prod.mk.injEq, Nat.cast_inj] at hmark
      rw [← hmark.2, hi] at hi'
      cases hi'
    · simp only [Prod.mk.injEq] at hmark
      omega

/-- Edges of inputs and dependencies are counted together, and the inputs are known. -/
theorem renamed_deps (hm : (a.view h).Matches (b.view h) f) (ha : a.Proper h) (hb : b.Proper h)
    (hn : h.Reachable a.heads n) :
    (h.node (renamed h f a b n)).deps.Perm ((h.node n).deps.map (renamed h f a b)) := by
  obtain ⟨y, hy⟩ := exists_position ha.whole hn
  have hy' := renamed_node hm ha hy
  have hn' := reachable_of_position hb.whole hy'
  have hbij := renamed_bijOn hm ha hb
  rw [List.perm_iff_count]
  intro d'
  by_cases hd' : h.Reachable b.heads d'
  · obtain ⟨z, hz⟩ := exists_position hb.whole hd'
    obtain ⟨x, d, hx, rfl, rfl⟩ := exists_renamed hm ha hb hz
    have hd := reachable_of_position ha.whole hx
    have hcount := (hm.marks x (lt_of_position hx) y (lt_of_position hy)).1
    rw [length_marks_node hx hy, length_marks_node hz hy'] at hcount
    have hinputs : ((h.node (renamed h f a b n)).inputs.map Entry.node).count (renamed h f a b d) =
        ((h.node n).inputs.map Entry.node).count d := by
      have hmap : (h.node (renamed h f a b n)).inputs.map Entry.node =
          ((h.node n).inputs.map Entry.node).map (renamed h f a b) := by
        rw [renamed_inputs hm ha hb hn, List.map_map, List.map_map]
        rfl
      rw [hmap]
      exact count_map_of_injOn hbij.injOn (fun p hp => hn.step (List.mem_append_left _ hp)) hd
    rw [count_map_of_injOn hbij.injOn (fun p hp => reachable_dep hn hp) hd]
    simp only [Heap.predecessors, Node.predecessors, List.count_append, hinputs] at hcount
    omega
  · rw [List.count_eq_zero_of_not_mem, List.count_eq_zero_of_not_mem]
    · intro hmem
      obtain ⟨d, hd, rfl⟩ := List.mem_map.mp hmem
      exact hd' (hbij.mapsTo (reachable_dep hn hd))
    · intro hmem
      exact hd' (reachable_dep hn' hmem)

theorem renamed_outputs (hm : (a.view h).Matches (b.view h) f) (ha : a.Proper h) (hb : b.Proper h) :
    b.outputs = a.outputs.map (Entry.rename (renamed h f a b)) := by
  refine List.ext_getElem? fun k => ?_
  rw [List.getElem?_map]
  cases hk : a.outputs[k]? with
  | some out =>
    obtain ⟨hsink, out', hk'⟩ := matches_sink hm hb hk
    obtain ⟨x, hx⟩ := exists_position ha.whole (reachable_output (List.mem_of_getElem? hk))
    have hmark := (mem_marks_sink hx hk).mpr ⟨rfl, rfl⟩
    rw [(hm.marks x (lt_of_position hx) _ (lt_of_output hk)).2, hsink, mem_marks_sink (renamed_node hm ha hx) hk'] at hmark
    simp only [Prod.mk.injEq, Nat.cast_inj, and_true] at hmark
    rw [hk', Option.map_some, Entry.rename, hmark.2, ← hmark.1]
  | none =>
    rw [Option.map_none, List.getElem?_eq_none_iff]
    by_contra hlt
    have hk' := List.getElem?_eq_getElem (Nat.lt_of_not_le hlt)
    obtain ⟨x, hx, he⟩ := hm.bijOn.surjOn (lt_of_output hk')
    rcases vertex_cases hx with ⟨n, hn⟩ | ⟨j, out, hj, rfl⟩
    · have hlt' := (List.getElem?_eq_some_iff.mp (renamed_node hm ha hn)).1
      omega
    · obtain rfl : j = k := by
        have hsink := (matches_sink hm hb hj).1
        omega
      rw [hk] at hj
      cases hj

theorem corresponds_of_matches (hm : (a.view h).Matches (b.view h) f) (ha : a.Proper h) (hb : b.Proper h) :
    Corresponds h (renamed h f a b) a b := by
  refine ⟨renamed_bijOn hm ha hb, fun n hn => ?_, fun n hn => renamed_inputs hm ha hb hn,
    fun n hn => renamed_deps hm ha hb hn, renamed_outputs hm ha hb⟩
  obtain ⟨x, hx⟩ := exists_position ha.whole hn
  have hx' := renamed_node hm ha hx
  have hlabel := hm.labels x (lt_of_position hx)
  rw [label_node hx, label_node hx', Option.some.injEq] at hlabel
  exact ha.op_eq hb hn (reachable_of_position hb.whole hx') hlabel

end Vertices

/-! ## Isomorphic graphs -/

theorem isIsomorphic_iff (ha : a.Proper h) (hb : b.Proper h) : a.isIsomorphic b h = true ↔ ∃ φ, Corresponds h φ a b := by
  unfold isIsomorphic
  rw [View.isomorphic_iff (closed_view ha.whole) (closed_view hb.whole)]
  constructor
  · intro hmatch
    obtain ⟨f, hm⟩ := hmatch
    exact ⟨_, corresponds_of_matches hm ha hb⟩
  · intro hcorresponds
    obtain ⟨φ, hc⟩ := hcorresponds
    exact ⟨_, hc.matches_views ha.whole hb.whole⟩

namespace Corresponds

theorem refl (h : Heap) (g : Graph) : Corresponds h id g g where
  bijOn := Set.bijOn_id _
  ops _ _ := rfl
  inputs _ _ := (Entry.map_rename_id _).symm
  deps _ _ := by simp
  outputs := (Entry.map_rename_id _).symm

theorem symm (hc : Corresponds h φ a b) : ∃ ψ, Corresponds h ψ b a := by
  have hinv := hc.bijOn.invOn_invFunOn
  refine ⟨Function.invFunOn φ {n | h.Reachable a.heads n}, ?_⟩
  generalize Function.invFunOn φ {n | h.Reachable a.heads n} = ψ at hinv
  have hback : ∀ es : List Entry, (∀ e ∈ es, h.Reachable a.heads e.node) →
      (es.map (Entry.rename φ)).map (Entry.rename ψ) = es := by
    intro es hes
    rw [List.map_map]
    conv_rhs => rw [← List.map_id es]
    exact List.map_congr_left fun e he => by simp [Entry.rename, hinv.1 (hes e he)]
  refine ⟨hc.bijOn.symm hinv.symm, fun m hm => ?_, fun m hm => ?_, fun m hm => ?_, ?_⟩
  · obtain ⟨n, hn, rfl⟩ := hc.bijOn.surjOn hm
    rw [hinv.1 hn, hc.ops n hn]
  · obtain ⟨n, hn, rfl⟩ := hc.bijOn.surjOn hm
    rw [hinv.1 hn, hc.inputs n hn, hback _ fun e he => reachable_input hn he]
  · obtain ⟨n, hn, rfl⟩ := hc.bijOn.surjOn hm
    have hdeps := (hc.deps n hn).map ψ
    have hmap : ((h.node n).deps.map φ).map ψ = (h.node n).deps := by
      rw [List.map_map]
      conv_rhs => rw [← List.map_id (h.node n).deps]
      exact List.map_congr_left fun d hd => hinv.1 (reachable_dep hn hd)
    rw [hinv.1 hn]
    exact (hmap ▸ hdeps).symm
  · rw [hc.outputs, hback _ fun e he => reachable_output he]

theorem trans {c : Graph} {ψ : NodeId → NodeId} (hc : Corresponds h φ a b) (hd : Corresponds h ψ b c) :
    Corresponds h (ψ ∘ φ) a c where
  bijOn := hd.bijOn.comp hc.bijOn
  ops n hn := (hd.ops (φ n) (hc.bijOn.mapsTo hn)).trans (hc.ops n hn)
  inputs n hn := by
    rw [Function.comp_apply, hd.inputs (φ n) (hc.bijOn.mapsTo hn), hc.inputs n hn, List.map_map]
    rfl
  deps n hn := by
    have hdeps := (hd.deps (φ n) (hc.bijOn.mapsTo hn)).trans ((hc.deps n hn).map ψ)
    rwa [List.map_map] at hdeps
  outputs := by
    rw [hd.outputs, hc.outputs, List.map_map]
    rfl

end Corresponds

/-- Graphs are isomorphic if and only if their nodes correspond, so being isomorphic is an equivalence. -/
theorem isIsomorphic_decides_structure (h : Heap) :
    (∀ a b : Graph, a.Proper h → b.Proper h → (a.isIsomorphic b h = true ↔ ∃ φ, Corresponds h φ a b)) ∧
    Equivalence fun a b : { g : Graph // g.Proper h } => a.1.isIsomorphic b.1 h = true := by
  refine ⟨fun a b ha hb => isIsomorphic_iff ha hb, fun a => ?_, fun {a b} hab => ?_, fun {a b c} hab hbc => ?_⟩
  · exact (isIsomorphic_iff a.2 a.2).mpr ⟨id, .refl h a.1⟩
  · obtain ⟨φ, hc⟩ := (isIsomorphic_iff a.2 b.2).mp hab
    exact (isIsomorphic_iff b.2 a.2).mpr hc.symm
  · obtain ⟨φ, hc⟩ := (isIsomorphic_iff a.2 b.2).mp hab
    obtain ⟨ψ, hd⟩ := (isIsomorphic_iff b.2 c.2).mp hbc
    exact (isIsomorphic_iff a.2 c.2).mpr ⟨_, hc.trans hd⟩

end Graph

/-- Two variables and two products of them, with the variables in either order and repeated dependencies. -/
def Heap.twisted : Heap where
  nodes := #[{ name := "x" }, { name := "y" },
    { op := builtinOps[12]?, name := "p", inputs := [⟨⟨0⟩, 0⟩, ⟨⟨1⟩, 0⟩], deps := [⟨1⟩, ⟨0⟩, ⟨1⟩] },
    { op := builtinOps[12]?, name := "q", inputs := [⟨⟨1⟩, 0⟩, ⟨⟨0⟩, 0⟩], deps := [⟨1⟩, ⟨0⟩, ⟨0⟩] }]

namespace Graph

theorem proper_twisted {g : Graph} (hheads : ∀ r ∈ g.heads, r.index < Heap.twisted.size) : g.Proper Heap.twisted := by
  have hascending : Heap.twisted.Ascending := by decide
  have hnames : ∀ i < Heap.twisted.size, ∀ op ∈ (Heap.twisted.node ⟨i⟩).op,
      op.name ≠ "null" ∧ op.name.toList.head? ≠ some '_' := by decide
  have hw := hascending.whole (by decide) hheads
  refine ⟨hw, fun n hn op hop => ?_⟩
  obtain ⟨hnull, hfirst⟩ := hnames n.index (hw n hn).1 op hop
  exact ⟨hnull, ne_output_label hfirst⟩

/-- Exchanging the variables and the products keeps the structure. -/
theorem corresponds_twisted : Corresponds Heap.twisted ((Equiv.swap ⟨0⟩ ⟨1⟩).trans (Equiv.swap ⟨2⟩ ⟨3⟩))
    { outputs := [⟨⟨2⟩, 0⟩, ⟨⟨0⟩, 0⟩] } { outputs := [⟨⟨3⟩, 0⟩, ⟨⟨1⟩, 0⟩] } := by
  let φ : NodeId ≃ NodeId := (Equiv.swap ⟨0⟩ ⟨1⟩).trans (Equiv.swap ⟨2⟩ ⟨3⟩)
  have hw : Heap.twisted.Whole [⟨2⟩, ⟨0⟩] := (proper_twisted (g := { outputs := [⟨⟨2⟩, 0⟩, ⟨⟨0⟩, 0⟩] }) (by decide)).whole
  have hnodes : ∀ i < Heap.twisted.size,
      (Heap.twisted.node (φ ⟨i⟩)).op.map Op.name = (Heap.twisted.node ⟨i⟩).op.map Op.name ∧
      (Heap.twisted.node (φ ⟨i⟩)).inputs = (Heap.twisted.node ⟨i⟩).inputs.map (Entry.rename φ) ∧
      (Heap.twisted.node (φ ⟨i⟩)).deps.Perm ((Heap.twisted.node ⟨i⟩).deps.map φ) := by decide
  have hpred : ∀ i < Heap.twisted.size, (Heap.twisted.predecessors (φ ⟨i⟩)).Perm
      ((Heap.twisted.predecessors ⟨i⟩).map φ) := by decide
  have hbij : Set.BijOn φ {n | Heap.twisted.Reachable [⟨2⟩, ⟨0⟩] n}
      {n | Heap.twisted.Reachable ([(⟨2⟩ : NodeId), ⟨0⟩].map φ) n} :=
    Heap.bijOn_of_predecessors φ.injective.injOn fun n hn p => (hpred n.index (hw n hn).1).mem_iff
  exact ⟨hbij, fun n hn => (hnodes n.index (hw n hn).1).1, fun n hn => (hnodes n.index (hw n hn).1).2.1,
    fun n hn => (hnodes n.index (hw n hn).1).2.2, by decide⟩

theorem isIsomorphic_decides_structure_twisted :
    isIsomorphic { outputs := [⟨⟨2⟩, 0⟩, ⟨⟨0⟩, 0⟩] } { outputs := [⟨⟨3⟩, 0⟩, ⟨⟨1⟩, 0⟩] } Heap.twisted = true ∧
    ¬ isIsomorphic { outputs := [⟨⟨2⟩, 0⟩, ⟨⟨0⟩, 0⟩] } { outputs := [⟨⟨3⟩, 0⟩, ⟨⟨0⟩, 0⟩] } Heap.twisted = true := by
  have hiff := (isIsomorphic_decides_structure Heap.twisted).1
  constructor
  · rw [hiff _ _ (proper_twisted (by decide)) (proper_twisted (by decide))]
    exact ⟨_, corresponds_twisted⟩
  · rw [hiff _ _ (proper_twisted (by decide)) (proper_twisted (by decide))]
    intro hcorresponds
    obtain ⟨φ, hc⟩ := hcorresponds
    -- the outputs keep the first variable, the inputs of the products exchange it for the second
    have houtputs := hc.outputs
    have hinputs := hc.inputs ⟨2⟩ (.head (by decide))
    simp [Entry.rename] at houtputs
    simp [Heap.twisted, Heap.node, Entry.rename, ← houtputs.1] at hinputs
    simp [← houtputs.2] at hinputs

end Graph

end Backprop
