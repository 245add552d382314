import Backprop.Proofs.Moments
import Backprop.Proofs.RecipeSound

/-!
# Cycles of operators are refused

The sweep has no test for cycles. A node that has had its turn has totals in
all its slots and keeps them, so that a gradient for one of them comes late and
ends the run. In a run that succeeds every operator comes up before the
operators it then reads from, and along a cycle no order can do that. Only a
rule that takes the cycle apart in time could let the sweep through.
-/

namespace Backprop

def Heap.Drives (h : Heap) (a b : NodeId) : Prop :=
  (h.node a).op.isSome ∧ (h.node b).op.isSome ∧ ∃ e ∈ (h.node b).inputs, e.node = a

theorem Heap.Drives.feeds {h : Heap} {a b : NodeId} (hab : h.Drives a b) : h.Feeds a b := by
  obtain ⟨-, -, e, he, rfl⟩ := hab
  exact List.mem_append_left _ (List.mem_map_of_mem he)

/-- What is related comes later in the list than what it is related to, so nothing is related to itself in the end. -/
theorem not_transGen_of_pairwise {α : Type} [DecidableEq α] {r : α → α → Prop} {l : List α}
    (hp : l.Pairwise fun a b => ¬ r a b) (hi : ∀ a ∈ l, ¬ r a a) (hc : ∀ a b, r a b → b ∈ l → a ∈ l) :
    ∀ a ∈ l, ¬ Relation.TransGen r a a := by
  have hlt : ∀ a b, r a b → b ∈ l → l.idxOf b < l.idxOf a := by
    intro a b hab hb
    have ha := hc a b hab hb
    by_contra hge
    rcases Nat.lt_or_eq_of_le (Nat.le_of_not_lt hge) with hlt | heq
    · have := List.pairwise_iff_getElem.mp hp _ _ (List.idxOf_lt_length_of_mem ha) (List.idxOf_lt_length_of_mem hb) hlt
      simp only [List.getElem_idxOf] at this
      exact this hab
    · rw [(List.idxOf_inj ha).mp heq] at hab
      exact hi b hb hab
  intro a ha haa
  have hdown : ∀ b, Relation.TransGen r a b → b ∈ l → l.idxOf b < l.idxOf a := by
    intro b hab
    induction hab with
    | single hab => exact hlt a _ hab
    | tail _ hbc ih => exact fun hcl => Nat.lt_trans (hlt _ _ hbc hcl) (ih (hc _ _ hbc hcl))
  exact Nat.lt_irrefl _ (hdown a haa ha)

/-- A cycle goes through the nodes that lie on it. -/
theorem transGen_on_cycle {α : Type} {r : α → α → Prop} {n : α} (hc : Relation.TransGen r n n) :
    Relation.TransGen (fun a b => r a b ∧ (Relation.TransGen r n a ∧ Relation.TransGen r a n) ∧
      Relation.TransGen r n b ∧ Relation.TransGen r b n) n n := by
  have hall : ∀ b, Relation.TransGen r n b → Relation.TransGen r b n →
      Relation.TransGen (fun a b => r a b ∧ (Relation.TransGen r n a ∧ Relation.TransGen r a n) ∧
        Relation.TransGen r n b ∧ Relation.TransGen r b n) n b := by
    intro b hb
    induction hb with
    | single hnb => exact fun hbn => .single ⟨hnb, ⟨hc, hc⟩, .single hnb, hbn⟩
    | @tail a b hna hab ih =>
      intro hbn
      have han : Relation.TransGen r a n := .head hab hbn
      exact .tail (ih han) ⟨hab, ⟨hna, han⟩, hna.tail hab, hbn⟩
  exact hall n hc hc

namespace Sweep
variable {book : RuleBook} {p : Problem} {a : Ambient} {work : Workspace} {n : NodeId}

/-- What drives a node that the outputs depend on is visited. -/
theorem mem_order_of_drives (hn : work.heap.Reachable (p.ys.map Entry.node) n) {m : NodeId}
    (hm : Relation.TransGen work.heap.Drives m n) : m ∈ p.order work.heap := by
  have hreach : work.heap.Reachable (p.ys.map Entry.node) m := by
    induction hm using Relation.TransGen.head_induction_on with
    | single hmn => exact hn.step hmn.feeds
    | head hmk _ ih => exact ih.step hmk.feeds
  obtain ⟨k, hmk, -⟩ := Relation.TransGen.head'_iff.mp hm
  exact Heap.mem_postorder (Heap.has_of_op hmk.1) hreach

/-- In a run that succeeds an operator does not come up before one that reads from it, unless one of them was changed. -/
theorem exists_disturbed (hf : p.aggregate.Returns) {g : Graph} {stage : Stage}
    (hrun : Sweep.run { problem := p } book a work = .ok g stage) (hn : work.heap.Reachable (p.ys.map Entry.node) n)
    (hc : Relation.TransGen work.heap.Drives n n) : ∃ m, Relation.TransGen work.heap.Drives n m ∧
      Relation.TransGen work.heap.Drives m n ∧ ¬ Undisturbed book p a work m := by
  by_contra hnone
  have hu : ∀ m, Relation.TransGen work.heap.Drives n m → Relation.TransGen work.heap.Drives m n →
      Undisturbed book p a work m := fun m hnm hmn => by
    by_contra hm
    exact hnone ⟨m, hnm, hmn, hm⟩
  obtain ⟨s, turns, -, -, -, hturns, halong, -, -⟩ := run_ok hf hrun
  -- every node on the cycle has had its turn, and has passed gradients on to those that it read from at the start
  have hturn : ∀ m, Relation.TransGen work.heap.Drives n m → Relation.TransGen work.heap.Drives m n →
      m ∈ turns.map Turn.node := by
    intro m hnm hmn
    have hmem := List.mem_reverse.mpr (mem_order_of_drives hn hmn)
    obtain ⟨l, r, horder⟩ := List.append_of_mem hmem
    obtain ⟨s', hl⟩ := upTo_left (horder ▸ hturns)
    have hcomes : ComesTo book p a work m s' := ⟨l, r, horder, hl⟩
    obtain ⟨k, hmk, -⟩ := Relation.TransGen.head'_iff.mp hmn
    rw [halong.operators m hmem, hcomes.operates_iff, (hu m hnm hmn).op s' hcomes]
    exact hmk.1
  have hpasses : ∀ t ∈ turns, ∀ m, work.heap.Drives m t.node → Relation.TransGen work.heap.Drives n t.node →
      Relation.TransGen work.heap.Drives t.node n → ∃ q ∈ t.grads, q.1.node = m := by
    intro t ht m hdrives hnt htn
    have hinputs := halong.inputs ht (hu _ hnt htn)
    obtain ⟨-, -, e, he, rfl⟩ := hdrives
    rw [← hinputs] at he
    obtain ⟨q, hq, rfl⟩ := List.mem_map.mp he
    exact ⟨q, hq, rfl⟩
  refine not_transGen_of_pairwise (l := turns.map Turn.node) ?_ ?_ ?_ n (hturn n hc hc) (transGen_on_cycle hc)
  · rw [List.pairwise_map]
    refine halong.inOrder.imp_of_mem ?_
    rintro t t' - ht' hlate ⟨hdrives, -, hnt, htn⟩
    obtain ⟨q, hq, hqe⟩ := hpasses t' ht' _ hdrives hnt htn
    exact hlate q hq hqe
  · rintro m hm ⟨hdrives, -, hnm, hmn⟩
    obtain ⟨t, ht, rfl⟩ := List.mem_map.mp hm
    obtain ⟨q, hq, hqe⟩ := hpasses t ht _ hdrives hnm hmn
    exact halong.noLoop t ht q hq hqe
  · rintro m c ⟨-, ⟨hnm, hmn⟩, -⟩ -
    exact hturn m hnm hmn

end Sweep

/-- Two operators that read from each other, known to the last node by a control dependency only. -/
def Heap.looped : Heap where
  nodes := #[{ name := "x" },
    { op := builtinOps[10]?, name := "p", inputs := [⟨⟨0⟩, 0⟩, ⟨⟨2⟩, 0⟩] },
    { op := builtinOps[5]?, name := "q", inputs := [⟨⟨1⟩, 0⟩] },
    { op := builtinOps[6]?, name := "y", inputs := [⟨⟨0⟩, 0⟩], deps := [⟨2⟩] }]

def Problem.looped : Problem where
  ys := [⟨⟨3⟩, 0⟩]
  seeds := [⟨⟨0⟩, 0⟩]
  xs := [⟨⟨0⟩, 0⟩]
  aggregate := .standard
  mirror := some .operators

end Backprop
