import Backprop.Proofs.TraversalSound

/-!
# What a visitor sees

A traversal calls its visitor on every node that the heads depend on, once, in
the order in which the nodes are finished. That is all it does: with a visitor
that keeps a state, or fails, it is the same as going through the finished
nodes one after the other. Where there are no cycles every node comes after the
producers of its inputs and after its control dependencies.
-/

namespace Backprop

theorem Value.heads_of_forall₂ {values : List Value} {heads : List NodeId}
    (hheads : List.Forall₂ (fun v n => v.head = .ok n) values heads) : Value.heads values = (heads, .ok ()) := by
  induction hheads with
  | nil => rfl
  | cons hv _ ih => simp [Value.heads, hv, ih]

namespace Heap
variable {h : Heap} {heads : List NodeId} {τ : Type} {visitor : NodeId → EStateM Fault τ Unit}

/-! ## The visitor along a list of nodes -/

theorem foldl_present_error (order : List NodeId) (fault : Fault) (s : τ) :
    order.foldl (fun done n => h.present visitor n done) (.error fault s) = .error fault s := by
  induction order with
  | nil => rfl
  | cons n order ih => exact ih

theorem foldl_present {order : List NodeId} (hproper : ∀ n ∈ order, h.flaw? n = none) (done : List NodeId) (s : τ) :
    order.foldl (fun done n => h.present visitor n done) (.ok done s) =
      (do order.forM visitor; return order.reverse ++ done : EStateM Fault τ (List NodeId)) s := by
  induction order generalizing done s with
  | nil => rfl
  | cons n order ih =>
    have hn : h.flaw? n = none := hproper n (by simp)
    have hrest := ih fun m hm => hproper m (List.mem_cons_of_mem n hm)
    rw [List.foldl_cons, present, hn]
    cases hv : visitor n s with
    | error fault s' =>
      simp only [foldl_present_error]
      simp [bind, EStateM.bind, hv]
    | ok u s' =>
      simp only [hrest (n :: done) s']
      simp [bind, EStateM.bind, hv]

/-- The finished nodes are collected with the last one in front, so the visitor has met them from the back. -/
theorem visit_eq {values : List Value} (hheads : List.Forall₂ (fun v n => v.head = .ok n) values heads)
    (hw : h.Whole heads) :
    h.visit visitor values = do (h.postorder heads).forM visitor; return h.postorder heads := by
  have hproper : ∀ n ∈ h.postorder heads, h.flaw? n = none := by
    intro n hn
    simp [Heap.flaw?, Node.flaw?, (hw n (reachable_of_mem_postorder hn)).2]
  obtain ⟨seen, hx⟩ := h.explored_postorder heads
  funext s
  have hfold := foldl_explore (h.present visitor) (.ok [] s) hx
  rw [List.foldr_reverse, foldl_present hproper] at hfold
  simp only [visit, Value.heads_of_forall₂ hheads]
  rw [List.foldr_nil] at hfold
  rw [hfold]
  simp only [bind, EStateM.bind]
  cases (h.postorder heads).forM visitor s with
  | error fault s' => rfl
  | ok u s' => simp [pure, EStateM.pure]

/-! ## Places in the order -/

theorem Settled.idxOf_lt {backwards : List NodeId} (hs : h.Settled backwards) (hnd : backwards.Nodup) {n p : NodeId}
    (hn : n ∈ backwards) (hp : p ∈ h.predecessors n) : backwards.reverse.idxOf p < backwards.reverse.idxOf n := by
  induction backwards with
  | nil => cases hn
  | cons m rest ih =>
    obtain ⟨hfirst, hrest⟩ := hs
    obtain ⟨hm, hnd⟩ := List.nodup_cons.mp hnd
    rw [List.reverse_cons]
    by_cases he : n = m
    · subst he
      have hp' : p ∈ rest.reverse := List.mem_reverse.mpr (hfirst p hp)
      have hn' : n ∉ rest.reverse := fun hn => hm (List.mem_reverse.mp hn)
      have hlt := List.idxOf_lt_length_iff.mpr hp'
      rw [List.idxOf_append_of_mem hp', List.idxOf_append_of_notMem hn']
      omega
    · have hn' : n ∈ rest := by simpa [he] using hn
      have hlt := ih hrest hnd hn'
      have hp' : p ∈ rest.reverse := by
        by_contra hp'
        have hle := List.idxOf_le_length (l := rest.reverse) (a := n)
        rw [List.idxOf_of_notMem hp'] at hlt
        omega
      rw [List.idxOf_append_of_mem hp', List.idxOf_append_of_mem (List.mem_reverse.mpr hn')]
      exact hlt

theorem Whole.mem_postorder_iff (hw : h.Whole heads) {n : NodeId} : n ∈ h.postorder heads ↔ h.Reachable heads n :=
  ⟨reachable_of_mem_postorder, fun hn => mem_postorder (hw n hn).1 hn⟩

theorem Whole.idxOf_lt (hw : h.Whole heads) (hac : h.AcyclicFrom heads) {n p : NodeId} (hn : h.Reachable heads n)
    (hp : p ∈ h.predecessors n) : (h.postorder heads).idxOf p < (h.postorder heads).idxOf n := by
  have hs := settled_postorder hac fun n hn p hp => (hw p (hn.step hp)).1
  have hlt := hs.idxOf_lt (List.nodup_reverse.mpr (h.nodup_postorder heads))
    (List.mem_reverse.mpr (hw.mem_postorder_iff.mpr hn)) hp
  rwa [List.reverse_reverse] at hlt

/-- Visiting from nodes and entries is going through an order of all that they depend on, in which no node stands
twice, and after all its predecessors unless there is a cycle. -/
theorem visit_sorts_reachable (h : Heap) {values : List Value} {heads : List NodeId}
    (hheads : List.Forall₂ (fun v n => v.head = .ok n) values heads) (hw : h.Whole heads) :
    ∃ order : List NodeId,
      (∀ (τ : Type) (visitor : NodeId → EStateM Fault τ Unit),
        h.visit visitor values = do order.forM visitor; return order) ∧
      order.Nodup ∧ (∀ n, n ∈ order ↔ h.Reachable heads n) ∧
      (h.AcyclicFrom heads → ∀ n ∈ order,
        (∀ e ∈ (h.node n).inputs, order.idxOf e.node < order.idxOf n) ∧
        ∀ d ∈ (h.node n).deps, order.idxOf d < order.idxOf n) := by
  refine ⟨h.postorder heads, fun _ _ => visit_eq hheads hw, h.nodup_postorder heads, fun n => hw.mem_postorder_iff, ?_⟩
  intro hac n hn
  have hreach := reachable_of_mem_postorder hn
  constructor
  · intro e he
    exact hw.idxOf_lt hac hreach (List.mem_append_left _ (List.mem_map_of_mem he))
  · intro d hd
    exact hw.idxOf_lt hac hreach (List.mem_append_right _ hd)

theorem visit_sorts_reachable_sample :
    ∃ values : List Value, values = [.entry ⟨⟨4⟩, 0⟩, .node ⟨6⟩, .node ⟨4⟩] ∧ sample.Whole [⟨4⟩, ⟨6⟩, ⟨4⟩] ∧
    ∃ order : List NodeId, (∀ (τ : Type) (visitor : NodeId → EStateM Fault τ Unit),
        sample.visit visitor values = do order.forM visitor; return order) ∧
      order.Nodup ∧ (∀ n, n ∈ order ↔ sample.Reachable [⟨4⟩, ⟨6⟩, ⟨4⟩] n) ∧
      ∀ n ∈ order, (∀ e ∈ (sample.node n).inputs, order.idxOf e.node < order.idxOf n) ∧
        ∀ d ∈ (sample.node n).deps, order.idxOf d < order.idxOf n := by
  have hw : sample.Whole [⟨4⟩, ⟨6⟩, ⟨4⟩] := sample_ascending.whole (by decide) (by decide)
  have hheads : List.Forall₂ (fun v n => v.head = .ok n) [Value.entry ⟨⟨4⟩, 0⟩, .node ⟨6⟩, .node ⟨4⟩] [⟨4⟩, ⟨6⟩, ⟨4⟩] :=
    .cons rfl (.cons rfl (.cons rfl .nil))
  obtain ⟨order, hvisit, hnodup, hmem, hsorted⟩ := visit_sorts_reachable sample hheads hw
  exact ⟨_, rfl, hw, order, hvisit, hnodup, hmem, hsorted (sample_ascending.acyclicFrom _)⟩

end Heap

end Backprop
