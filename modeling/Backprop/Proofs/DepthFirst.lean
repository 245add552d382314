import Backprop.Graph.Basic
import Backprop.Proofs.VisitSound
import Mathlib.Data.Finset.Card
import Mathlib.Data.List.Forall2

/-!
# Depth-first order by recursion

The stack of a traversal is the call stack of a recursion: `descend` passes over
a node that is marked, and else marks it, descends to the producers of its
inputs and to its control dependencies, and emits it. On every graph, with
cycles or without, a traversal finishes the nodes that the recursion emits, in
the same order. What has been finished from some heads is closed under
predecessors, so further heads only add to the order what is not in it yet.
-/

namespace Backprop.Heap

structure Trail where
  marked : Finset NodeId := ∅
  emitted : List NodeId := []

def unmarked (h : Heap) (marked : Finset NodeId) : Finset Nat := (Finset.range h.size).filter fun i => ⟨i⟩ ∉ marked

theorem card_unmarked_le {h : Heap} {marked marked' : Finset NodeId} (hm : marked ⊆ marked') :
    (h.unmarked marked').card ≤ (h.unmarked marked).card := by
  apply Finset.card_le_card
  intro i hi
  simp only [unmarked, Finset.mem_filter] at hi ⊢
  exact ⟨hi.1, fun h => hi.2 (hm h)⟩

theorem card_unmarked_lt {h : Heap} {marked marked' : Finset NodeId} {n : NodeId} (hn : h.Has n) (ho : n ∉ marked)
    (hm : insert n marked ⊆ marked') : (h.unmarked marked').card < (h.unmarked marked).card := by
  apply Finset.card_lt_card
  rw [Finset.ssubset_iff_of_subset]
  · refine ⟨n.index, ?_, ?_⟩
    · simp only [unmarked, Finset.mem_filter, Finset.mem_range]
      exact ⟨hn, ho⟩
    · simp only [unmarked, Finset.mem_filter, not_and, not_not]
      exact fun _ => hm (Finset.mem_insert_self n marked)
  · intro i hi
    simp only [unmarked, Finset.mem_filter] at hi ⊢
    exact ⟨hi.1, fun h => hi.2 (hm (Finset.mem_insert_of_mem h))⟩

/-- Descending leaves fewer nodes unmarked, unless the node is not there and has nothing below it. -/
theorem descending {h : Heap} {marked marked' : Finset NodeId} {n : NodeId} {below : List NodeId} (ho : n ∉ marked)
    (hm : insert n marked ⊆ marked') (hb : ¬ h.Has n → below = []) :
    Prod.Lex (· < ·) (· < ·) ((h.unmarked marked').card, 2 * below.length) ((h.unmarked marked).card, 1) := by
  by_cases hn : h.Has n
  · exact .left _ _ (card_unmarked_lt hn ho hm)
  · rw [hb hn]
    exact Prod.Lex.right' _ (card_unmarked_le fun m hm' => hm (Finset.mem_insert_of_mem hm')) (by simp)

mutual

def descend (h : Heap) (n : NodeId) (t : Trail) : { t' : Trail // t.marked ⊆ t'.marked } :=
  if n ∈ t.marked then ⟨t, subset_rfl⟩
  else
    let inputs := h.descendAll ((h.node n).inputs.map Entry.node) { t with marked := insert n t.marked }
    let deps := h.descendAll (h.node n).deps inputs.1
    ⟨{ deps.1 with emitted := deps.1.emitted ++ [n] },
      (Finset.subset_insert n t.marked).trans (inputs.2.trans deps.2)⟩
termination_by ((h.unmarked t.marked).card, 1)
decreasing_by
  · exact descending ‹_› subset_rfl fun h' => by rw [node_of_not_has h']; rfl
  · exact descending ‹_› inputs.2 fun h' => by rw [node_of_not_has h']; rfl

def descendAll (h : Heap) (ns : List NodeId) (t : Trail) : { t' : Trail // t.marked ⊆ t'.marked } :=
  match ns with
  | [] => ⟨t, subset_rfl⟩
  | n :: ns =>
    let first := h.descend n t
    let rest := h.descendAll ns first.1
    ⟨rest.1, first.2.trans rest.2⟩
termination_by ((h.unmarked t.marked).card, 2 * ns.length)
decreasing_by
  · exact Prod.Lex.right _ (by rw [List.length_cons]; omega)
  · exact Prod.Lex.right' _ (card_unmarked_le first.2) (by simp)

end

def emitted (h : Heap) (heads : List NodeId) : List NodeId := (h.descendAll heads {}).1.emitted

/-! ## The recursion step by step -/

section Descend
variable {h : Heap} {n : NodeId} {t : Trail}

theorem descend_marked (hn : n ∈ t.marked) : (h.descend n t).1 = t := by
  rw [descend, if_pos hn]

theorem descendAll_nil (h : Heap) (t : Trail) : (h.descendAll [] t).1 = t := by
  rw [descendAll]

theorem descendAll_cons (h : Heap) (n : NodeId) (ns : List NodeId) (t : Trail) :
    (h.descendAll (n :: ns) t).1 = (h.descendAll ns (h.descend n t).1).1 := by
  rw [descendAll]

theorem descendAll_append (h : Heap) (ns ms : List NodeId) (t : Trail) :
    (h.descendAll (ns ++ ms) t).1 = (h.descendAll ms (h.descendAll ns t).1).1 := by
  induction ns generalizing t with
  | nil => rw [List.nil_append, descendAll_nil]
  | cons n ns ih => rw [List.cons_append, descendAll_cons, ih, descendAll_cons]

theorem descend_unmarked (hn : n ∉ t.marked) {below : Trail}
    (hb : (h.descendAll (h.predecessors n) { t with marked := insert n t.marked }).1 = below) :
    (h.descend n t).1 = { below with emitted := below.emitted ++ [n] } := by
  unfold predecessors Node.predecessors at hb
  rw [descendAll_append] at hb
  rw [descend, if_neg hn, ← hb]

end Descend

/-! ## The traversal keeps up with the recursion -/

structure Follows (h : Heap) (t : Trail) (seen : Array Bool) (done : List NodeId) : Prop where
  marks : ∀ n, h.Has n → (n ∈ t.marked ↔ seen[n.index]? = some true)
  emits : t.emitted = done.reverse

section Follows
variable {h : Heap} {t : Trail} {seen seen' : Array Bool} {done done' : List NodeId}

theorem Follows.mark (ht : h.Follows t seen done) {c : NodeId} (hc : seen[c.index]? = some false) :
    h.Follows { t with marked := insert c t.marked } (seen.setIfInBounds c.index true) done where
  marks n hn := by
    rw [mark_get? hc, Finset.mem_insert, ht.marks n hn]
    by_cases he : n = c <;> simp [he]
  emits := ht.emits

theorem Follows.emit (ht : h.Follows t seen done) (c : NodeId) :
    h.Follows { t with emitted := t.emitted ++ [c] } seen (c :: done) where
  marks := ht.marks
  emits := by simp [ht.emits]

theorem Explored.follows {cs : List NodeId} (hx : h.Explored cs seen done seen' done') (hsize : seen.size = h.size)
    {R : NodeId → Prop} (hR : ∀ n, R n → h.Has n ∧ ∀ p ∈ h.predecessors n, R p) (hcs : ∀ c ∈ cs, R c)
    (ht : h.Follows t seen done) : h.Follows (h.descendAll cs t).1 seen' done' := by
  induction hx generalizing t with
  | nil => rwa [descendAll_nil]
  | @skip c cs seen seen' done done' hc rest ih =>
    have hhas := (hR c (hcs c (by simp))).1
    have hmarked : c ∈ t.marked := by
      have hi : c.index < seen.size := hsize ▸ hhas
      rw [ht.marks c hhas]
      cases hv : seen[c.index] with
      | true => simp [hi, hv]
      | false => exact absurd (by simp [hi, hv]) hc
    rw [descendAll_cons, descend_marked hmarked]
    exact ih hsize (fun c hc => hcs c (List.mem_cons_of_mem _ hc)) ht
  | @visit c cs seen s₁ s₂ done d₁ d₂ hc below rest ihb ihr =>
    obtain ⟨hhas, hpre⟩ := hR c (hcs c (by simp))
    have hmarked : c ∉ t.marked := by
      rw [ht.marks c hhas, hc]
      simp
    have hz : (seen.setIfInBounds c.index true).size = h.size := by rw [Array.size_setIfInBounds, hsize]
    have hbelow := ihb hz hpre (ht.mark hc)
    rw [descendAll_cons, descend_unmarked hmarked rfl]
    exact ihr (below.size_eq.trans hz) (fun c hc => hcs c (List.mem_cons_of_mem _ hc)) (hbelow.emit c)

theorem Whole.postorder_eq_emitted {heads : List NodeId} (hw : h.Whole heads) :
    h.postorder heads = h.emitted heads := by
  obtain ⟨seen, hx⟩ := h.explored_postorder heads
  have hstart : h.Follows {} (Array.replicate h.size false) [] := by
    refine ⟨fun n hn => ?_, rfl⟩
    rw [Array.getElem?_replicate]
    split <;> simp
  have hend := hx.follows Array.size_replicate (R := h.Reachable heads)
    (fun n hn => ⟨(hw n hn).1, fun p hp => hn.step hp⟩) (fun c hc => .head hc) hstart
  rw [emitted, hend.emits, List.reverse_reverse]

end Follows

/-- Whatever the visitor, visiting from the values is going through the order and returning it. -/
def Visits (h : Heap) (values : List Value) (order : List NodeId) : Prop :=
  ∀ (τ : Type) (visitor : NodeId → EStateM Fault τ Unit),
    h.visit visitor values = do order.forM visitor; return order

theorem visit_follows_recursion (h : Heap) {values : List Value} {heads : List NodeId}
    (hheads : List.Forall₂ (fun v n => v.head = .ok n) values heads) (hw : h.Whole heads) :
    h.Visits values (h.emitted heads) := by
  intro τ visitor
  rw [visit_eq hheads hw, hw.postorder_eq_emitted]

theorem whole_of_closed {h : Heap} {heads : List NodeId} (hheads : ∀ r ∈ heads, r.index < h.size)
    (hc : ∀ i < h.size, (h.node ⟨i⟩).strays.isNone ∧ ∀ p ∈ h.predecessors ⟨i⟩, p.index < h.size) :
    h.Whole heads := by
  have hhas : ∀ n, h.Reachable heads n → h.Has n := fun n hn =>
    hn.induct hheads fun n _ hn p hp => (hc n.index hn).2 p hp
  exact fun n hn => ⟨hhas n hn, Option.isNone_iff_eq_none.mp (hc n.index (hhas n hn)).1⟩

/-- A variable that feeds a cycle of three operators, of which one also waits for itself. -/
def ring : Heap where
  nodes := #[{ name := "x" },
    { op := builtinOps[10]?, name := "a", inputs := [⟨⟨3⟩, 0⟩, ⟨⟨0⟩, 0⟩] },
    { op := builtinOps[5]?, name := "b", inputs := [⟨⟨1⟩, 0⟩], deps := [⟨2⟩] },
    { op := builtinOps[10]?, name := "c", inputs := [⟨⟨2⟩, 0⟩, ⟨⟨1⟩, 0⟩] }]

theorem ring_whole {heads : List NodeId} (hheads : ∀ r ∈ heads, r.index < 4) : ring.Whole heads :=
  whole_of_closed hheads (by decide)

theorem visit_follows_recursion_ring :
    ring.Whole [⟨2⟩, ⟨0⟩, ⟨2⟩, ⟨3⟩] ∧
    ring.Visits [.entry ⟨⟨2⟩, 0⟩, .node ⟨0⟩, .node ⟨2⟩, .node ⟨3⟩] [⟨3⟩, ⟨0⟩, ⟨1⟩, ⟨2⟩] := by
  have hw : ring.Whole [⟨2⟩, ⟨0⟩, ⟨2⟩, ⟨3⟩] := ring_whole (by decide)
  have hemitted : ring.emitted [⟨2⟩, ⟨0⟩, ⟨2⟩, ⟨3⟩] = [⟨3⟩, ⟨0⟩, ⟨1⟩, ⟨2⟩] := by
    simp [emitted, descendAll, descend, ring, node]
  refine ⟨hw, hemitted ▸ visit_follows_recursion ring ?_ hw⟩
  exact .cons rfl (.cons rfl (.cons rfl (.cons rfl .nil)))

/-! ## More heads -/

section Increment
variable {h : Heap} {cs cs' : List NodeId} {seen seen' seen'' : Array Bool} {done done' done'' : List NodeId}

theorem Explored.append (hx : h.Explored cs seen done seen' done') (hy : h.Explored cs' seen' done' seen'' done'') :
    h.Explored (cs ++ cs') seen done seen'' done'' := by
  induction hx with
  | nil => exact hy
  | skip hc _ ih => exact .skip hc (ih hy)
  | visit hc below _ _ ih => exact .visit hc below (ih hy)

theorem Explored.rebase (hx : h.Explored cs seen done seen' done') (base : List NodeId) :
    ∃ new, done' = new ++ done ∧ h.Explored cs seen base seen' (new ++ base) := by
  induction hx generalizing base with
  | nil seen => exact ⟨[], rfl, .nil seen base⟩
  | skip hc _ ih =>
    obtain ⟨new, rfl, hy⟩ := ih base
    exact ⟨new, rfl, .skip hc hy⟩
  | @visit c _ _ _ _ _ _ _ hc _ _ ihb ihr =>
    obtain ⟨new₁, rfl, hb⟩ := ihb base
    obtain ⟨new₂, rfl, hr⟩ := ihr (c :: (new₁ ++ base))
    refine ⟨new₂ ++ c :: new₁, by simp, ?_⟩
    rw [List.append_assoc, List.cons_append]
    exact .visit hc hb hr

/-- If nodes that are closed under predecessors are marked besides, exploring finishes the other nodes as before. -/
theorem Explored.beyond {B : NodeId → Prop} [DecidablePred B] (hB : ∀ n, B n → ∀ p ∈ h.predecessors n, B p)
    (hx : h.Explored cs seen done seen' done') {more : Array Bool} (base : List NodeId)
    (hopen : ∀ m : NodeId, more[m.index]? = some false ↔ seen[m.index]? = some false ∧ ¬ B m) :
    ∃ new more', done' = new ++ done ∧ h.Explored cs more base more' (new.filter (¬ B ·) ++ base) ∧
      ∀ m : NodeId, more'[m.index]? = some false ↔ seen'[m.index]? = some false ∧ ¬ B m := by
  induction hx generalizing more base with
  | nil => exact ⟨[], more, rfl, .nil more base, hopen⟩
  | @skip c cs seen seen' done done' hc _ ih =>
    obtain ⟨new, more', rfl, hy, hopen'⟩ := ih base hopen
    exact ⟨new, more', rfl, .skip (fun hc' => hc ((hopen c).mp hc').1) hy, hopen'⟩
  | @visit c cs seen s₁ s₂ done d₁ d₂ hc below rest ihb ihr =>
    by_cases hb : B c
    -- all that is finished below `c` is marked besides, so nothing of it is left
    · obtain ⟨new₁, rfl, hbelow⟩ := below.rebase []
      rw [List.append_nil] at hbelow
      have hnew₁ : ∀ m ∈ new₁, B m := hbelow.finishes_reachable hB (hB c hb) (by simp)
      obtain ⟨found, hfound, -, -, hmarks⟩ := hbelow.finishes
      rw [List.append_nil] at hfound
      subst hfound
      have hopen₁ : ∀ m : NodeId, more[m.index]? = some false ↔ s₁[m.index]? = some false ∧ ¬ B m := by
        intro m
        rw [hopen m, hmarks m, mark_get? hc]
        by_cases hm : B m
        · simp [hm]
        · have hmc : m ≠ c := fun he => hm (he ▸ hb)
          have hmn : m ∉ new₁ := fun hm' => hm (hnew₁ m hm')
          simp [hm, hmc, hmn]
      obtain ⟨new₂, more', rfl, hy, hopen'⟩ := ihr base hopen₁
      refine ⟨new₂ ++ c :: new₁, more', by simp, .skip (fun hc' => ((hopen c).mp hc').2 hb) ?_, hopen'⟩
      have hgone : (c :: new₁).filter (¬ B ·) = [] := by
        rw [List.filter_eq_nil_iff]
        intro m hm
        rcases List.mem_cons.mp hm with rfl | hm
        · simp [hb]
        · simp [hnew₁ m hm]
      rw [List.filter_append, hgone, List.append_nil]
      exact hy
    · have hc' : more[c.index]? = some false := (hopen c).mpr ⟨hc, hb⟩
      have hopen₀ : ∀ m : NodeId, (more.setIfInBounds c.index true)[m.index]? = some false ↔
          (seen.setIfInBounds c.index true)[m.index]? = some false ∧ ¬ B m := by
        intro m
        rw [mark_get? hc', mark_get? hc]
        by_cases hm : m = c
        · simp [hm]
        · simp [hm, hopen m]
      obtain ⟨new₁, more₁, rfl, hy₁, hopen₁⟩ := ihb base hopen₀
      obtain ⟨new₂, more₂, rfl, hy₂, hopen₂⟩ := ihr (c :: (new₁.filter (¬ B ·) ++ base)) hopen₁
      refine ⟨new₂ ++ c :: new₁, more₂, by simp, ?_, hopen₂⟩
      rw [List.filter_append, List.filter_cons_of_pos (by simp [hb]), List.append_assoc, List.cons_append]
      exact .visit hc' hy₁ hy₂

theorem postorder_of_explored {heads : List NodeId} (hx : h.Explored heads (Array.replicate h.size false) [] seen done) :
    h.postorder heads = done.reverse := by
  have hfold := foldl_explore List.cons [] hx
  simp only [List.foldr_cons_nil] at hfold
  rw [postorder, hfold]

theorem postorder_append (h : Heap) (heads more : List NodeId) :
    h.postorder (heads ++ more) = h.postorder heads ++ (h.postorder more).filter (· ∉ h.postorder heads) := by
  classical
  obtain ⟨seen, hx⟩ := h.explored_postorder heads
  obtain ⟨seen', hy⟩ := h.explored_postorder more
  obtain ⟨new, hnew, -, -, hmarks⟩ := hx.finishes
  rw [List.append_nil] at hnew
  subst hnew
  have hopen : ∀ m : NodeId, seen[m.index]? = some false ↔
      (Array.replicate h.size false)[m.index]? = some false ∧ ¬ h.Reachable heads m := by
    intro m
    rw [hmarks m]
    by_cases hm : h.Has m
    · have hmem : m ∈ (h.postorder heads).reverse ↔ h.Reachable heads m := by
        rw [List.mem_reverse]
        exact ⟨reachable_of_mem_postorder, mem_postorder hm⟩
      by_cases hr : h.Reachable heads m <;> simp [hmem, hr]
    · have hout : (Array.replicate h.size false)[m.index]? = none :=
        Array.getElem?_eq_none (by rw [Array.size_replicate]; exact Nat.le_of_not_lt hm)
      simp [hout]
  obtain ⟨new, seen'', hnew, hz, -⟩ := hy.beyond (B := h.Reachable heads) (fun n hn p hp => hn.step hp) _ hopen
  rw [List.append_nil] at hnew
  subst hnew
  rw [postorder_of_explored (hx.append hz), List.reverse_append, List.reverse_reverse, ← List.filter_reverse,
    List.reverse_reverse]
  congr 1
  apply List.filter_congr
  intro m hm
  have hhas := has_of_mem_postorder hm
  rw [decide_eq_decide, not_iff_not]
  exact ⟨mem_postorder hhas, reachable_of_mem_postorder⟩

theorem Reachable.trans {heads others : List NodeId} (hs : ∀ r ∈ others, h.Reachable heads r) {n : NodeId}
    (hn : h.Reachable others n) : h.Reachable heads n := hn.induct hs fun _ _ hn _ hp => hn.step hp

theorem postorder_append_of_reachable {heads others : List NodeId} (hs : ∀ r ∈ others, h.Reachable heads r) :
    h.postorder (heads ++ others) = h.postorder heads := by
  rw [postorder_append]
  have hnil : (h.postorder others).filter (· ∉ h.postorder heads) = [] := by
    rw [List.filter_eq_nil_iff]
    intro n hn
    have hmem := mem_postorder (has_of_mem_postorder hn) ((reachable_of_mem_postorder hn).trans hs)
    simp [hmem]
  rw [hnil, List.append_nil]

theorem Whole.append {heads others : List NodeId} (hw : h.Whole heads) (hw' : h.Whole others) :
    h.Whole (heads ++ others) := by
  rintro n ⟨r, hr, hnr⟩
  rcases List.mem_append.mp hr with hr | hr
  · exact hw n ⟨r, hr, hnr⟩
  · exact hw' n ⟨r, hr, hnr⟩

end Increment

/-- Heads that are added extend the order by what is not in it yet, which is nothing if they were reachable before. -/
theorem visit_increments (h : Heap) {values more : List Value} {heads others : List NodeId}
    (hheads : List.Forall₂ (fun v n => v.head = .ok n) values heads)
    (hothers : List.Forall₂ (fun v n => v.head = .ok n) more others) (hw : h.Whole heads) (hw' : h.Whole others) :
    (∃ order added, h.Visits values order ∧ h.Visits more added ∧
      h.Visits (values ++ more) (order ++ added.filter (· ∉ order))) ∧
    ((∀ r ∈ others, h.Reachable heads r) → ∀ (rest : List Value) (lasts : List NodeId),
      List.Forall₂ (fun v n => v.head = .ok n) rest lasts → h.Whole lasts →
        ∃ order, h.Visits (values ++ rest) order ∧ h.Visits (values ++ more ++ rest) order) ∧
    ∀ g g' : Graph, g.outputs <+: g'.outputs → g.order h <+: g'.order h := by
  have hvisits : ∀ {values : List Value} {heads : List NodeId},
      List.Forall₂ (fun v n => v.head = .ok n) values heads → h.Whole heads → h.Visits values (h.postorder heads) :=
    fun hheads hw _ _ => visit_eq hheads hw
  refine ⟨⟨h.postorder heads, h.postorder others, hvisits hheads hw, hvisits hothers hw', ?_⟩, ?_, ?_⟩
  · rw [← postorder_append]
    exact hvisits (List.rel_append hheads hothers) (hw.append hw')
  · intro hreach rest lasts hlasts hw''
    refine ⟨h.postorder (heads ++ lasts), hvisits (List.rel_append hheads hlasts) (hw.append hw''), ?_⟩
    have hsame : h.postorder (heads ++ others ++ lasts) = h.postorder (heads ++ lasts) := by
      rw [postorder_append, postorder_append_of_reachable hreach, postorder_append]
    rw [← hsame]
    exact hvisits (List.rel_append (List.rel_append hheads hothers) hlasts) ((hw.append hw').append hw'')
  · rintro g g' ⟨more, hmore⟩
    unfold Graph.order
    rw [← hmore, List.map_append, postorder_append]
    exact List.prefix_append _ _

theorem visit_increments_ring :
    ring.Whole [⟨1⟩] ∧ ring.Whole [⟨3⟩, ⟨1⟩] ∧ (∀ r ∈ [⟨3⟩, ⟨1⟩], ring.Reachable [⟨1⟩] r) ∧ ring.Whole [⟨2⟩] ∧
    (∃ order added, ring.Visits [.node ⟨1⟩] order ∧ ring.Visits [.entry ⟨⟨3⟩, 0⟩, .node ⟨1⟩] added ∧
      ring.Visits [.node ⟨1⟩, .entry ⟨⟨3⟩, 0⟩, .node ⟨1⟩] (order ++ added.filter (· ∉ order))) ∧
    ∃ order, ring.Visits [.node ⟨1⟩, .node ⟨2⟩] order ∧
      ring.Visits [.node ⟨1⟩, .entry ⟨⟨3⟩, 0⟩, .node ⟨1⟩, .node ⟨2⟩] order := by
  have hw : ring.Whole [⟨1⟩] := ring_whole (by decide)
  have hw' : ring.Whole [⟨3⟩, ⟨1⟩] := ring_whole (by decide)
  have hw'' : ring.Whole [⟨2⟩] := ring_whole (by decide)
  have hself : ring.Reachable [⟨1⟩] ⟨1⟩ := .head (by simp)
  have hreach : ∀ r ∈ [⟨3⟩, ⟨1⟩], ring.Reachable [⟨1⟩] r := by
    intro r hr
    rcases List.mem_pair.mp hr with rfl | rfl
    · exact hself.step (by decide)
    · exact hself
  have hheads : List.Forall₂ (fun v n => v.head = .ok n) [Value.node ⟨1⟩] [⟨1⟩] := .cons rfl .nil
  have hothers : List.Forall₂ (fun v n => v.head = .ok n) [Value.entry ⟨⟨3⟩, 0⟩, .node ⟨1⟩] [⟨3⟩, ⟨1⟩] :=
    .cons rfl (.cons rfl .nil)
  obtain ⟨hadded, hrepeated, -⟩ := visit_increments ring hheads hothers hw hw'
  exact ⟨hw, hw', hreach, hw'', hadded, hrepeated hreach [.node ⟨2⟩] [⟨2⟩] (.cons rfl .nil) hw''⟩

end Backprop.Heap
