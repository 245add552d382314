import Backprop.Graph.Isomorphism
import Backprop.Proofs.ClosureSound
import Backprop.Proofs.SweepRelabelled

/-!
# Gradients follow structure

A renaming carries a part of one heap over to another if it is one to one there
and keeps operators, attributes, inputs and control dependencies. Gradients of
corresponding parts correspond, by a renaming that agrees with the given one on
the nodes that were there before, and their views are isomorphic. In particular
a sweep that is made once more makes an isomorphic graph.
-/

namespace Backprop

/-! ## Corresponding parts of heaps -/

def Entry.rename (φ : NodeId → NodeId) (e : Entry) : Entry := { e with node := φ e.node }

theorem Entry.map_rename_id (es : List Entry) : es.map (Entry.rename id) = es := List.map_id es

/-- The nodes differ in their names at most, and what the second refers to is what the first does, renamed. -/
structure Node.Renames (φ : NodeId → NodeId) (node₁ node₂ : Node) : Prop where
  op : node₂.op = node₁.op
  attrs : node₂.attrs = node₁.attrs
  inputs : node₂.inputs = node₁.inputs.map (Entry.rename φ)
  deps : node₂.deps = node₁.deps.map φ

namespace Heap
variable {φ : NodeId → NodeId} {h h' h₁ h₂ : Heap} {heads : List NodeId} {n : NodeId}

/-- The renaming is one to one from what the heads depend on to what the renamed heads depend on in the second heap,
and it keeps the structure. -/
structure Carries (φ : NodeId → NodeId) (h₁ h₂ : Heap) (heads : List NodeId) : Prop where
  bijOn : Set.BijOn φ {n | h₁.Reachable heads n} {n | h₂.Reachable (heads.map φ) n}
  nodes : ∀ n, h₁.Reachable heads n → (h₁.node n).Renames φ (h₂.node (φ n))

theorem predecessors_renamed (hn : (h₁.node n).Renames φ (h₂.node (φ n))) :
    h₂.predecessors (φ n) = (h₁.predecessors n).map φ := by
  unfold predecessors Node.predecessors
  rw [hn.inputs, hn.deps, List.map_append, List.map_map, List.map_map]
  rfl

/-- That all is reached, and nothing else, follows from the structure, head by head and step by step. -/
theorem bijOn_of_predecessors (hinj : Set.InjOn φ {n | h₁.Reachable heads n})
    (hpred : ∀ n, h₁.Reachable heads n → ∀ p, p ∈ h₂.predecessors (φ n) ↔ p ∈ (h₁.predecessors n).map φ) :
    Set.BijOn φ {n | h₁.Reachable heads n} {n | h₂.Reachable (heads.map φ) n} := by
  refine ⟨fun n hn => ?_, hinj, fun n hn => ?_⟩
  · refine Reachable.induct (P := fun n => h₂.Reachable (heads.map φ) (φ n)) hn (fun r hr => ?_) fun m hm ih p hp => ?_
    · exact .head (List.mem_map_of_mem hr)
    · exact ih.step ((hpred m hm (φ p)).mpr (List.mem_map_of_mem hp))
  · refine Reachable.induct (P := fun n => ∃ m, h₁.Reachable heads m ∧ φ m = n) hn (fun r hr => ?_) ?_
    · obtain ⟨k, hk, rfl⟩ := List.mem_map.mp hr
      exact ⟨k, .head hk, rfl⟩
    · intro _ _ hm p hp
      obtain ⟨m, hm, rfl⟩ := hm
      obtain ⟨k, hk, rfl⟩ := List.mem_map.mp ((hpred m hm p).mp hp)
      exact ⟨k, hm.step hk, rfl⟩

theorem carries_of_injOn (hinj : Set.InjOn φ {n | h₁.Reachable heads n})
    (hnodes : ∀ n, h₁.Reachable heads n → (h₁.node n).Renames φ (h₂.node (φ n))) : Carries φ h₁ h₂ heads :=
  ⟨bijOn_of_predecessors hinj fun n hn p => by rw [predecessors_renamed (hnodes n hn)], hnodes⟩

theorem carries_of_node_eq (heq : ∀ n, h.Reachable heads n → h'.node n = h.node n) : Carries id h h' heads := by
  refine carries_of_injOn Function.injective_id.injOn fun n hn => ?_
  rw [id, heq n hn]
  exact ⟨rfl, rfl, (Entry.map_rename_id _).symm, (List.map_id _).symm⟩

/-- What is there is carried over to every later heap as it is. -/
theorem Whole.carries (hw : h.Whole heads) (hg : h.GrowsTo h') : Carries id h h' heads :=
  carries_of_node_eq fun n hn => hg.node_eq n (hw n hn).1

theorem Carries.whole (hc : Carries φ h₁ h₂ heads)
    (hw : ∀ n, h₁.Reachable heads n → h₂.Has (φ n) ∧ (h₂.node (φ n)).strays = none) : h₂.Whole (heads.map φ) := by
  intro n hn
  obtain ⟨m, hm, rfl⟩ := hc.bijOn.surjOn hn
  exact hw m hm

theorem Whole.grows (hw : h.Whole heads) (hg : h.GrowsTo h') : h'.Whole (heads.map id) := by
  refine (hw.carries hg).whole fun n hn => ?_
  rw [id, hg.node_eq n (hw n hn).1]
  exact ⟨hg.has (hw n hn).1, (hw n hn).2⟩

def Carries.relabelling (hc : Carries φ h₁ h₂ heads) (hw₁ : h₁.Whole heads) (hw₂ : h₂.Whole (heads.map φ)) :
    Relabelling where
  left := h₁
  right := h₂
  domain := h₁.Reachable heads
  map := φ
  has hn := (hw₁ _ hn).1
  has_map hn := (hw₂ _ (hc.bijOn.mapsTo hn)).1
  injective hm hn he := hc.bijOn.injOn hm hn he

section Relabelling
variable (hc : Carries φ h₁ h₂ heads) (hw₁ : h₁.Whole heads) (hw₂ : h₂.Whole (heads.map φ))

theorem Carries.twin (hn : h₁.Reachable heads n) : (hc.relabelling hw₁ hw₂).Twin h₁ n (φ n) :=
  ⟨.inl hn, (Relabelling.apply_of_domain (r := hc.relabelling hw₁ hw₂) hn).symm⟩

theorem Carries.twinEntries {es : List Entry} (hes : ∀ e ∈ es, h₁.Reachable heads e.node) :
    List.Forall₂ ((hc.relabelling hw₁ hw₂).TwinEntry h₁) es (es.map (Entry.rename φ)) := by
  rw [List.forall₂_map_right_iff]
  exact List.forall₂_same.mpr fun e he => ⟨rfl, hc.twin hw₁ hw₂ (hes e he)⟩

theorem Carries.joins : (hc.relabelling hw₁ hw₂).Joins h₁ h₂ := by
  refine ⟨.refl _, .refl _, Nat.add_comm _ _, fun n₁ n₂ hn => ?_⟩
  obtain ⟨hd, rfl⟩ := Relabelling.twin_of_start hn
  change h₁.Reachable heads n₁ at hd
  have hnode := hc.nodes n₁ hd
  refine ⟨hnode.op.symm, hnode.attrs.symm, ?_, ?_, (hw₁ n₁ hd).2, (hw₂ _ (hc.bijOn.mapsTo hd)).2⟩
  · change List.Forall₂ _ (h₁.node n₁).inputs (h₂.node (φ n₁)).inputs
    rw [hnode.inputs]
    exact hc.twinEntries hw₁ hw₂ fun e he => hd.step (List.mem_append_left _ (List.mem_map_of_mem he))
  · change List.Forall₂ _ (h₁.node n₁).deps (h₂.node (φ n₁)).deps
    rw [hnode.deps, List.forall₂_map_right_iff]
    exact List.forall₂_same.mpr fun d hd' => hc.twin hw₁ hw₂ (hd.step (List.mem_append_right _ hd'))

end Relabelling

end Heap

namespace Relabelling
variable {r : Relabelling} {h h₁ h₂ : Heap} {heads : List NodeId} {n : NodeId}

theorem eq_map_rename {es₁ es₂ : List Entry} (he : List.Forall₂ (r.TwinEntry h) es₁ es₂) :
    es₂ = es₁.map (Entry.rename r.apply) := by
  induction he with
  | nil => rfl
  | @cons e₁ e₂ _ _ he _ ih =>
    obtain ⟨hindex, -, hnode⟩ := he
    obtain ⟨node, index⟩ := e₂
    cases hindex
    cases hnode
    rw [ih]
    rfl

theorem eq_map_apply {ns₁ ns₂ : List NodeId} (hn : List.Forall₂ (r.Twin h) ns₁ ns₂) : ns₂ = ns₁.map r.apply := by
  induction hn with
  | nil => rfl
  | cons hn _ ih => rw [ih, hn.2, List.map_cons]

theorem Joins.known_of_reachable (hj : r.Joins h₁ h₂) (hheads : ∀ k ∈ heads, r.Known h₁ k) (hn : h₁.Reachable heads n) :
    r.Known h₁ n := by
  refine hn.induct hheads fun m _ hm p hp => ?_
  have hpredecessors := hj.predecessors ⟨hm, rfl⟩
  exact ((List.forall₂_and_left _ _).mp hpredecessors).1 p hp

theorem TwinNode.renames {node₁ node₂ : Node} (ht : r.TwinNode h node₁ node₂) : node₁.Renames r.apply node₂ :=
  ⟨ht.op.symm, ht.attrs.symm, eq_map_rename ht.inputs, eq_map_apply ht.deps⟩

theorem Joins.carries (hj : r.Joins h₁ h₂) (hheads : ∀ k ∈ heads, r.Known h₁ k) :
    Heap.Carries r.apply h₁ h₂ heads := by
  have hknown : ∀ n, h₁.Reachable heads n → r.Known h₁ n := fun n hn => hj.known_of_reachable hheads hn
  refine Heap.carries_of_injOn (fun m hm n hn he => ?_) fun n hn => (hj.nodes n _ ⟨hknown n hn, rfl⟩).renames
  have htwin : r.Twin h₁ m (r.apply n) := ⟨hknown m hm, he.symm⟩
  exact (htwin.eq_iff ⟨hknown n hn, rfl⟩).mpr rfl

theorem Known.has_iff (hn : r.Known h n) : r.left.Has n ↔ r.right.Has (r.apply n) := by
  rcases hn with hn | ⟨-, hn⟩
  · rw [apply_of_domain hn]
    exact ⟨fun _ => r.has_map hn, fun _ => r.has hn⟩
  · refine ⟨fun hhas => absurd hhas hn, fun hhas => ?_⟩
    rw [apply_of_not_has hn] at hhas
    unfold Heap.Has at hhas
    simp only at hhas
    omega

theorem known_of_outputs {es₁ es₂ : List Entry} (he : List.Forall₂ (r.TwinEntry h) es₁ es₂) :
    ∀ k ∈ es₁.map Entry.node, r.Known h k := by
  have hknown : List.Forall₂ (fun e _ => r.Known h e.node ∧ True) es₁ es₂ := he.imp fun _ _ he => ⟨he.2.1, trivial⟩
  exact List.forall_mem_map.mpr ((List.forall₂_and_left _ _).mp hknown).1

theorem Joins.whole (hj : r.Joins h₁ h₂) (hheads : ∀ k ∈ heads, r.Known h₁ k) : h₁.Whole heads := by
  intro n hn
  have htwin : r.Twin h₁ n (r.apply n) := ⟨hj.known_of_reachable hheads hn, rfl⟩
  exact ⟨hj.has₁ htwin, (hj.nodes _ _ htwin).strays₁⟩

end Relabelling

/-! ## Views -/

namespace View
variable {u v w : View}

structure Alike (v w : View) : Prop where
  labels : v.vertices.map Vertex.label = w.vertices.map Vertex.label
  edges : v.edges = w.edges

theorem Alike.symm (hv : v.Alike w) : w.Alike v := ⟨hv.labels.symm, hv.edges.symm⟩

theorem Alike.trans (hu : u.Alike v) (hv : v.Alike w) : u.Alike w :=
  ⟨hu.labels.trans hv.labels, hu.edges.trans hv.edges⟩

theorem Alike.length_eq (hv : v.Alike w) : v.vertices.length = w.vertices.length := by
  rw [← List.length_map Vertex.label, hv.labels, List.length_map]

theorem Alike.side_eq (hv : v.Alike w) : v.side = w.side := by
  have hcolours : (v.vertices.map fun x => labelColour x.label) = w.vertices.map fun x => labelColour x.label := by
    have hmap := congrArg (List.map labelColour) hv.labels
    rwa [List.map_map, List.map_map] at hmap
  unfold side colours outgoing incoming adjacency
  rw [hv.labels, hv.edges, hv.length_eq, hcolours]

theorem agree_self (xs : List (Int × Int)) : agree xs xs = true := by
  simp [agree]

theorem complete_self (a : Side) (xs : List Nat) : ∀ chosen : List (Nat × Nat), (∀ p ∈ chosen, p.1 = p.2) →
    complete a a xs xs chosen = true := by
  induction xs with
  | nil => exact fun _ _ => rfl
  | cons x rest ih =>
    -- the first vertex that is free is the vertex itself
    intro chosen hchosen
    have hfits : fits a a chosen x x = true := by
      unfold fits
      simp only [agree_self, beq_self_eq_true, Bool.true_and, List.all_eq_true]
      intro p hp
      rw [hchosen p hp, agree_self, agree_self]
      rfl
    have hrest := ih ((x, x) :: chosen) (List.forall_mem_cons.mpr ⟨rfl, hchosen⟩)
    rw [complete, List.any_cons, hfits, List.erase_cons_head, hrest]
    rfl

theorem Alike.isomorphic (hv : v.Alike w) : v.isomorphic w = true := by
  unfold View.isomorphic
  rw [hv.side_eq, hv.length_eq, hv.edges]
  simp [complete_self]

end View

namespace Relabelling
variable {r : Relabelling} {h h₁ h₂ : Heap} {n₁ n₂ : NodeId}

theorem idxOf_twin {order₁ order₂ : List NodeId} (horder : List.Forall₂ (r.Twin h) order₁ order₂)
    (hn : r.Twin h n₁ n₂) : order₁.idxOf n₁ = order₂.idxOf n₂ := by
  induction horder with
  | nil => rfl
  | @cons k₁ k₂ _ _ hk _ ih =>
    rw [List.idxOf_cons, List.idxOf_cons]
    by_cases he : k₁ = n₁
    · simp [he, (hk.eq_iff hn).mp he]
    · have he₂ : ¬ k₂ = n₂ := fun he₂ => he ((hk.eq_iff hn).mpr he₂)
      rw [beq_eq_false_iff_ne.mpr he, beq_eq_false_iff_ne.mpr he₂, ih]

theorem edgesInto_twin {order₁ order₂ : List NodeId} (horder : List.Forall₂ (r.Twin h) order₁ order₂)
    {node₁ node₂ : Node} (ht : r.TwinNode h node₁ node₂) (target : Nat) :
    Graph.edgesInto order₁ target node₁ = Graph.edgesInto order₂ target node₂ := by
  unfold Graph.edgesInto
  congr 1
  · refine forall₂_map_zipIdx ht.inputs fun e₁ e₂ i he => ?_
    simp only [idxOf_twin horder he.2, he.1]
  · exact forall₂_map_eq ht.deps fun d₁ d₂ hd => by rw [idxOf_twin horder hd]

theorem Joins.views_alike (hj : r.Joins h₁ h₂) {g₁ g₂ : Graph}
    (houtputs : List.Forall₂ (r.TwinEntry h₁) g₁.outputs g₂.outputs) : (g₁.view h₁).Alike (g₂.view h₂) := by
  have horder : List.Forall₂ (r.Twin h₁) (g₁.order h₁) (g₂.order h₂) := by
    refine twin_postorder hj ?_
    rw [List.forall₂_map_left_iff, List.forall₂_map_right_iff]
    exact houtputs.imp fun _ _ he => he.2
  constructor
  · unfold View.vertices Graph.view
    simp only [List.map_append, List.map_map]
    congr 1
    · refine forall₂_map_eq horder fun n₁ n₂ hn => ?_
      simp only [Function.comp, Node.opName, (hj.nodes n₁ n₂ hn).op]
    · exact forall₂_map_zipIdx houtputs fun _ _ _ _ => rfl
  · unfold Graph.view
    dsimp only
    congr 1
    · rw [List.flatMap_def, List.flatMap_def]
      refine congrArg List.flatten (forall₂_map_zipIdx horder fun n₁ n₂ i hn => ?_)
      exact edgesInto_twin horder (hj.nodes n₁ n₂ hn) i
    · refine forall₂_map_zipIdx houtputs fun e₁ e₂ i he => ?_
      simp only [Graph.sinkEdge, idxOf_twin horder he.2, horder.length_eq, he.1]

end Relabelling

/-! ## Runs -/

structure Targets where
  ys : List Entry
  seeds : List Entry
  xs : List Entry

namespace Targets

def heads (t : Targets) : List NodeId := (t.ys ++ t.seeds ++ t.xs).map Entry.node

def rename (φ : NodeId → NodeId) (t : Targets) : Targets :=
  ⟨t.ys.map (.rename φ), t.seeds.map (.rename φ), t.xs.map (.rename φ)⟩

theorem rename_id (t : Targets) : t.rename id = t := by
  unfold rename
  rw [Entry.map_rename_id, Entry.map_rename_id, Entry.map_rename_id]

def request (t : Targets) (mirror : Arg) : Request :=
  { ys := .ofEntries t.ys, seeds := .ofEntries t.seeds, xs := .ofEntries t.xs, mirror }

def problem (t : Targets) (mirror : Arg) : Problem := ⟨t.ys, t.seeds, t.xs, .standard, Request.testOf mirror⟩

theorem validate_request (t : Targets) (mirror : Arg) : (t.request mirror).validate =
    if t.ys.length = t.seeds.length then .ok (t.problem mirror)
    else .error (.gradient (.seedCount t.ys.length t.seeds.length)) := by
  unfold Request.validate request
  simp only [Request.field_ofEntries]
  rfl

theorem generate_eq_relay (t : Targets) {mirror : Arg} {w : Workspace} (hp : (t.problem mirror).Fits w.heap)
    (hlen : t.ys.length = t.seeds.length) (a : Ambient) : Build.generate RuleBook.builtins (t.request mirror) a w =
      Build.relay RuleBook.builtins (t.problem mirror) a w :=
  (Build.generate_ofEntries hlen t.xs .null mirror RuleBook.builtins a w).trans
    (Build.sweep_eq_relay hp RuleBook.builtins_follows.grows Aggregator.standard_proper)

theorem reachable_of_mem {t : Targets} {h : Heap} {e : Entry} (he : e ∈ t.ys ++ t.seeds ++ t.xs) :
    h.Reachable t.heads e.node := .head (List.mem_map_of_mem he)

end Targets

namespace Relabelling
variable {r : Relabelling} {t₁ t₂ : Targets} {mirror₁ mirror₂ : Arg} {a : Ambient} {w₁ w₂ : Workspace}

structure TwinTargets (r : Relabelling) (t₁ t₂ : Targets) : Prop where
  ys : List.Forall₂ (r.TwinEntry r.left) t₁.ys t₂.ys
  seeds : List.Forall₂ (r.TwinEntry r.left) t₁.seeds t₂.seeds
  xs : List.Forall₂ (r.TwinEntry r.left) t₁.xs t₂.xs

theorem Builds.sweep {book : RuleBook} {recipes : List (String × (Outline → Recipe))} (hb : book.Follows recipes)
    (hj : r.Joins w₁.heap w₂.heap) (hstart : w₁.heap = r.left) (ht : r.TwinTargets t₁ t₂)
    (htests : Option.Rel r.TwinTests (Request.testOf mirror₁) (Request.testOf mirror₂)) :
    r.Builds (Build.sweep { problem := t₁.problem mirror₁ } book) (Build.sweep { problem := t₂.problem mirror₂ } book)
      a w₁ w₂ fun h g₁ g₂ => List.Forall₂ (r.TwinEntry h) g₁.outputs g₂.outputs := by
  let s₁ : Stage := { work := w₁, sweep := { problem := t₁.problem mirror₁ } }
  let s₂ : Stage := { work := w₂, sweep := { problem := t₂.problem mirror₂ } }
  have hs : r.TwinSweep s₁.heap s₁.sweep s₂.sweep :=
    ⟨ht.ys, ht.seeds, ht.xs, rfl, rfl, htests, .nil, .nil, .none⟩
  have hrun : r.Sweeps (Sweep.generate book) (Sweep.generate book) a s₁ s₂
      fun h g₁ g₂ => List.Forall₂ (r.TwinEntry h) g₁.outputs g₂.outputs := Sweeps.generate hb hj hs hstart rfl rfl
  unfold Builds Lockstep Coupled Build.sweep Sweep.run
  unfold Sweeps Lockstep Coupled at hrun
  cases hx : Sweep.generate book a s₁ <;> cases hy : Sweep.generate book a s₂ <;> rw [hx, hy] at hrun
  · exact ⟨hrun.1, hrun.2.1, hrun.2.2.2⟩
  · exact hrun.elim
  · exact hrun.elim
  · trivial

theorem Builds.generate {book : RuleBook} {recipes : List (String × (Outline → Recipe))} (hb : book.Follows recipes)
    (hj : r.Joins w₁.heap w₂.heap) (hstart : w₁.heap = r.left) (ht : r.TwinTargets t₁ t₂)
    (htests : Option.Rel r.TwinTests (Request.testOf mirror₁) (Request.testOf mirror₂)) :
    r.Builds (Build.generate book (t₁.request mirror₁)) (Build.generate book (t₂.request mirror₂)) a w₁ w₂
      fun h g₁ g₂ => List.Forall₂ (r.TwinEntry h) g₁.outputs g₂.outputs := by
  unfold Build.generate
  rw [t₁.validate_request, t₂.validate_request, ht.ys.length_eq, ht.seeds.length_eq]
  split
  · exact .step (p := t₁.problem mirror₁) (q := t₂.problem mirror₂) rfl rfl rfl (Builds.sweep hb hj hstart ht htests)
  · exact .of_error rfl rfl

end Relabelling

section Structure
variable {a : Ambient} {w₁ w₂ : Workspace} {φ : NodeId → NodeId} {t : Targets} {mirror₁ mirror₂ : Arg}

def Heap.TestsAgree (φ : NodeId → NodeId) (h₁ h₂ : Heap) (heads : List NodeId) (test₁ test₂ : Selector) : Prop :=
  ∀ n, h₁.Reachable heads n → Agree (fun b₁ b₂ => b₁ = b₂) (test₁.holds n (h₁.node n)) (test₂.holds (φ n) (h₂.node (φ n)))

theorem Heap.Carries.twinTargets (hc : Heap.Carries φ w₁.heap w₂.heap t.heads) (hw₁ : w₁.heap.Whole t.heads)
    (hw₂ : w₂.heap.Whole (t.heads.map φ)) : (hc.relabelling hw₁ hw₂).TwinTargets t (t.rename φ) where
  ys := hc.twinEntries hw₁ hw₂ fun e he => Targets.reachable_of_mem (by simp [he])
  seeds := hc.twinEntries hw₁ hw₂ fun e he => Targets.reachable_of_mem (by simp [he])
  xs := hc.twinEntries hw₁ hw₂ fun e he => Targets.reachable_of_mem (by simp [he])

theorem Heap.Carries.generate (hc : Heap.Carries φ w₁.heap w₂.heap t.heads) (hw₁ : w₁.heap.Whole t.heads)
    (hw₂ : w₂.heap.Whole (t.heads.map φ))
    (htests : Option.Rel (Heap.TestsAgree φ w₁.heap w₂.heap t.heads) (Request.testOf mirror₁) (Request.testOf mirror₂)) :
    (hc.relabelling hw₁ hw₂).Builds (Build.generate RuleBook.builtins (t.request mirror₁))
      (Build.generate RuleBook.builtins ((t.rename φ).request mirror₂)) a w₁ w₂
      fun h g₁ g₂ => List.Forall₂ ((hc.relabelling hw₁ hw₂).TwinEntry h) g₁.outputs g₂.outputs :=
  .generate RuleBook.builtins_follows (hc.joins hw₁ hw₂) rfl (hc.twinTargets hw₁ hw₂) htests

/-- A graph that is there looks the same in every later heap. -/
theorem Heap.Whole.view_alike {h h' : Heap} {g : Graph} (hw : h.Whole (g.outputs.map Entry.node)) (hg : h.GrowsTo h') :
    (g.view h).Alike (g.view h') := by
  have hc := hw.carries hg
  have houtputs := hc.twinEntries hw (hw.grows hg) fun e he => .head (List.mem_map_of_mem he)
  rw [Entry.map_rename_id] at houtputs
  exact (hc.joins hw (hw.grows hg)).views_alike houtputs

theorem Heap.testsAgree_of_node_eq {h h' : Heap} {heads : List NodeId}
    (heq : ∀ n, h.Reachable heads n → h'.node n = h.node n) (test : Option Selector) :
    Option.Rel (Heap.TestsAgree id h h' heads) test test := by
  cases test with
  | none => exact .none
  | some test =>
    refine .some fun n hn => ?_
    rw [id, heq n hn]
    cases test.holds n (h.node n) with
    | ok b => exact rfl
    | error e => trivial

theorem Heap.Whole.generate {w later : Workspace} (hw : w.heap.Whole t.heads) (hg : w.heap.GrowsTo later.heap)
    (mirror : Arg) : ((hw.carries hg).relabelling hw (hw.grows hg)).Builds
      (Build.generate RuleBook.builtins (t.request mirror)) (Build.generate RuleBook.builtins (t.request mirror)) a w later
      fun h g g' => List.Forall₂ (((hw.carries hg).relabelling hw (hw.grows hg)).TwinEntry h) g.outputs g'.outputs := by
  have hpair := (hw.carries hg).generate (a := a) hw (hw.grows hg)
    (Heap.testsAgree_of_node_eq (fun n hn => hg.node_eq n (hw n hn).1) (Request.testOf mirror))
  rwa [t.rename_id] at hpair

/-- A sweep that is made again, however much later, makes an isomorphic graph. -/
theorem Heap.Whole.generate_again {w w' later : Workspace} {mirror : Arg} {g : Graph} (hw : w.heap.Whole t.heads)
    (hrun : Build.generate RuleBook.builtins (t.request mirror) a w = .ok g w')
    (hlater : w'.heap.GrowsTo later.heap) :
    ∃ g' last, Build.generate RuleBook.builtins (t.request mirror) a later = .ok g' last ∧
      g.isIsomorphic g' last.heap = true := by
  -- a run is in lockstep with itself, and so the heap has grown
  obtain ⟨-, -, -, hg, -⟩ := Coupled.ok_left (hw.generate (.refl _) mirror) hrun
  obtain ⟨g', last, hrun', -, hj, houtputs⟩ := Coupled.ok_left (hw.generate (hg.trans hlater) mirror) hrun
  have hhere : w'.heap.Whole (g.outputs.map Entry.node) := hj.whole (Relabelling.known_of_outputs houtputs)
  have hview := hhere.view_alike (hlater.trans hj.right)
  exact ⟨g', last, hrun', (hview.symm.trans (hj.views_alike houtputs)).isomorphic⟩

theorem Heap.Differentiable.generate_run {w : Workspace} {mirror : Arg} (ha : a.Default) (hd : w.heap.Differentiable)
    (hp : (t.problem mirror).Fits w.heap) (hseeds : ∀ e ∈ t.seeds, w.heap.HasEntry e)
    (hlen : t.ys.length = t.seeds.length) (ht : ∀ test ∈ Request.testOf mirror, ∀ n ∈ (t.problem mirror).order w.heap,
      ∃ b, test.holds n (w.heap.node n) = .ok b) :
    ∃ g w', Build.generate RuleBook.builtins (t.request mirror) a w = .ok g w' := by
  obtain ⟨g, w', hrun, -⟩ := (Build.yields_relay ha hd hp rfl hseeds ht).succeeds
  exact ⟨g, w', (t.generate_eq_relay hp hlen a).trans hrun⟩

end Structure

/-! ## A heap in the opposite order -/

def Node.renamed (φ : NodeId → NodeId) (node : Node) : Node :=
  { node with name := node.name ++ "_", inputs := node.inputs.map (.rename φ), deps := node.deps.map φ }

namespace Heap
variable {h : Heap} {heads : List NodeId} {n : NodeId}

def flip (h : Heap) (n : NodeId) : NodeId := ⟨h.size - 1 - n.index⟩

def flipped (h : Heap) : Heap where
  nodes := (h.nodes.map (Node.renamed h.flip)).reverse
  counters := [("exp", 7)]

theorem flipped_has (hn : h.Has n) : h.flipped.Has (h.flip n) := by
  have hsize : h.flipped.size = h.size := by
    unfold flipped size
    rw [Array.size_reverse, Array.size_map]
  show h.size - 1 - n.index < h.flipped.size
  unfold Has at hn
  rw [hsize]
  omega

theorem flipped_node (hn : h.Has n) : h.flipped.node (h.flip n) = (h.node n).renamed h.flip := by
  have hflip : h.size - 1 - n.index < (h.nodes.map (Node.renamed h.flip)).size := by
    unfold Has size at *
    rw [Array.size_map]
    omega
  have hback : (h.nodes.map (Node.renamed h.flip)).size - 1 - (h.size - 1 - n.index) = n.index := by
    unfold Has size at *
    rw [Array.size_map]
    omega
  show ((h.nodes.map (Node.renamed h.flip)).reverse[h.size - 1 - n.index]?).getD default = _
  rw [Array.getElem?_reverse hflip, hback, Array.getElem?_map, node, Array.getElem?_eq_getElem hn]
  rfl

theorem Whole.carries_flip (hw : h.Whole heads) : Carries h.flip h h.flipped heads := by
  refine carries_of_injOn (fun m hm n hn he => ?_) fun n hn => ?_
  · have hm := (hw m hm).1
    have hn := (hw n hn).1
    cases m
    cases n
    unfold Has at hm hn
    unfold flip at he
    simp only [NodeId.mk.injEq] at hm hn he ⊢
    omega
  · rw [flipped_node (hw n hn).1]
    exact ⟨rfl, rfl, rfl, rfl⟩

theorem Whole.flipped (hw : h.Whole heads) : h.flipped.Whole (heads.map h.flip) := by
  refine hw.carries_flip.whole fun n hn => ⟨flipped_has (hw n hn).1, ?_⟩
  rw [flipped_node (hw n hn).1]
  exact (hw n hn).2

end Heap

def Targets.sample : Targets := ⟨(Problem.sample none).ys, (Problem.sample none).seeds, (Problem.sample none).xs⟩

def Graph.sample : Graph where
  outputs := Targets.sample.ys
  attrs := [("grad_ys", .value (.ofEntries Targets.sample.ys)), ("grad_xs", .value (.ofEntries Targets.sample.xs)),
    ("grad_ys_out_grad", .value (.ofEntries Targets.sample.seeds)), ("grad_mirror_fun", .selector .operators)]

theorem Heap.sample_whole : Heap.sample.Whole Targets.sample.heads :=
  Heap.sample_ascending.whole (by decide) (by decide)

theorem Targets.sample_run : ∃ g w, Build.generate RuleBook.builtins (Targets.sample.request (.selector .operators))
    .initial { heap := .sample } = .ok g w := by
  have hp := Problem.sample_fits (some .operators)
  have hseeds : ∀ e ∈ [(⟨⟨7⟩, 0⟩ : Entry), ⟨⟨7⟩, 0⟩, ⟨⟨1⟩, 0⟩], Heap.sample.HasEntry e := by decide
  have htests : ∀ test ∈ some Selector.operators, ∀ n ∈ (Problem.sample (some .operators)).order Heap.sample,
      ∃ b, test.holds n (Heap.sample.node n) = .ok b := by
    intro test htest n _
    cases htest
    exact ⟨_, rfl⟩
  exact Heap.Differentiable.generate_run (w := { heap := .sample }) Ambient.initial_default Heap.sample_differentiable hp
    hseeds rfl htests

/-! ## Gradients of corresponding parts -/

/-- Corresponding parts of two heaps have corresponding gradients: both runs succeed or none, and what they return is
carried over by a renaming that agrees with the given one on the nodes that were there before. A graph that is
differentiated once more has isomorphic gradients. -/
theorem Build.gradients_follow_structure {a : Ambient} {φ : NodeId → NodeId} {t : Targets} (w₁ w₂ : Workspace)
    (mirror₁ mirror₂ : Arg) (hc : Heap.Carries φ w₁.heap w₂.heap t.heads)
    (hw₁ : w₁.heap.Whole t.heads) (hw₂ : w₂.heap.Whole (t.heads.map φ))
    (htests : Option.Rel (Heap.TestsAgree φ w₁.heap w₂.heap t.heads) (Request.testOf mirror₁) (Request.testOf mirror₂)) :
    ((∃ g w, Build.generate RuleBook.builtins (t.request mirror₁) a w₁ = .ok g w) ↔
      ∃ g w, Build.generate RuleBook.builtins ((t.rename φ).request mirror₂) a w₂ = .ok g w) ∧
    (∀ g₁ w₁' g₂ w₂', Build.generate RuleBook.builtins (t.request mirror₁) a w₁ = .ok g₁ w₁' →
      Build.generate RuleBook.builtins ((t.rename φ).request mirror₂) a w₂ = .ok g₂ w₂' →
      (g₁.view w₁'.heap).isomorphic (g₂.view w₂'.heap) = true ∧
      ∃ ψ, Heap.Carries ψ w₁'.heap w₂'.heap (g₁.outputs.map Entry.node) ∧ g₂.outputs = g₁.outputs.map (Entry.rename ψ) ∧
        (∀ n, w₁.heap.Has n → ψ n = φ n) ∧
        ∀ n, w₁'.heap.Reachable (g₁.outputs.map Entry.node) n → (w₁.heap.Has n ↔ w₂.heap.Has (ψ n))) ∧
    ∀ source, Request.ofGraph source = .ok (t.request mirror₁) →
      ∀ g w, Build.differentiate RuleBook.builtins source a w₁ = .ok g w → ∀ later : Workspace,
      w.heap.GrowsTo later.heap → ∃ g' last, Build.differentiate RuleBook.builtins source a later = .ok g' last ∧
        g.isIsomorphic g' last.heap = true := by
  have hpair := hc.generate (a := a) hw₁ hw₂ htests
  refine ⟨⟨fun ⟨g, w, h⟩ => ?_, fun ⟨g, w, h⟩ => ?_⟩, fun g₁ w₁' g₂ w₂' h₁ h₂ => ?_, fun source hsource => ?_⟩
  · obtain ⟨g', w', h', -⟩ := Coupled.ok_left hpair h
    exact ⟨g', w', h'⟩
  · obtain ⟨g', w', h', -⟩ := Coupled.ok_right hpair h
    exact ⟨g', w', h'⟩
  · obtain ⟨g', w', h', -, hj, houtputs⟩ := Coupled.ok_left hpair h₁
    rw [h₂] at h'
    cases h'
    have hknown := Relabelling.known_of_outputs houtputs
    refine ⟨(hj.views_alike houtputs).isomorphic, _, hj.carries hknown, Relabelling.eq_map_rename houtputs, ?_, ?_⟩
    · exact fun n hn => if_pos hn
    · exact fun n hn => (hj.known_of_reachable hknown hn).has_iff
  · intro g w hrun later hlater
    have hpass : ∀ v, Build.differentiate RuleBook.builtins source a v =
        Build.generate RuleBook.builtins (t.request mirror₁) a v := by
      intro v
      unfold Build.differentiate
      rw [hsource]
      rfl
    rw [hpass] at hrun ⊢
    exact hw₁.generate_again hrun hlater

theorem Build.gradients_follow_structure_flipped :
    ∃ g₁ w₁ g₂ w₂, Build.differentiate RuleBook.builtins .sample .initial { heap := .sample } = .ok g₁ w₁ ∧
      Build.generate RuleBook.builtins ((Targets.sample.rename Heap.sample.flip).request (.selector .operators)) .initial
        { heap := Heap.sample.flipped } = .ok g₂ w₂ ∧
      (g₁.view w₁.heap).isomorphic (g₂.view w₂.heap) = true ∧
      ∃ g₃ w₃, Build.differentiate RuleBook.builtins .sample .initial w₁ = .ok g₃ w₃ ∧
        g₁.isIsomorphic g₃ w₃.heap = true := by
  have hw := Heap.sample_whole
  have htests : Heap.TestsAgree Heap.sample.flip Heap.sample Heap.sample.flipped Targets.sample.heads .operators
      .operators := by
    intro n hn
    rw [Heap.flipped_node (hw n hn).1]
    exact rfl
  obtain ⟨hsucceeds, hfollows, hagain⟩ := gradients_follow_structure (a := .initial) { heap := .sample }
    { heap := Heap.sample.flipped } (.selector .operators) (.selector .operators) hw.carries_flip hw hw.flipped
    (.some htests)
  obtain ⟨g₁, w₁, h₁⟩ := Targets.sample_run
  obtain ⟨g₂, w₂, h₂⟩ := hsucceeds.mp ⟨g₁, w₁, h₁⟩
  exact ⟨g₁, w₁, g₂, w₂, h₁, h₂, (hfollows g₁ w₁ g₂ w₂ h₁ h₂).1, hagain .sample rfl g₁ w₁ h₁ w₁ (.refl _)⟩

end Backprop
