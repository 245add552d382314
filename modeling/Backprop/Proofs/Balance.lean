import Backprop.Proofs.Calculus
import Backprop.Proofs.TurnSound

/-!
# The balance of the turns

The argument is that of the transposed sum. Over all nodes whose turn is still
to come, what has arrived is weighted with the tangent; over all others, with
the perturbation. No turn changes the total of the two (`Balanced`), which at
first is the derivative of the outputs and at last what has arrived for the
entry that was perturbed.
-/

namespace Backprop

universe u

/-! ## Weighted sums -/

section Sums
variable {F : Type u} [Field F]

theorem sum_map_single {ns : List NodeId} (hnd : ns.Nodup) {m : NodeId} (hm : m ∈ ns) (f : NodeId → F) :
    (ns.map fun n => if n = m then f n else 0).sum = f m := by
  rw [List.sum_map_eq_nsmul_single m _ fun n hn _ => if_neg hn, List.count_eq_one_of_mem hnd hm, one_nsmul, if_pos rfl]

/-- What is passed on to some nodes, summed by node or one by one. -/
theorem sum_passedTo (v D : Entry → F) {ns : List NodeId} (hnd : ns.Nodup) : ∀ {pairs : List (Entry × Entry)},
    (∀ q ∈ pairs, q.1.index = 0 ∧ q.1.node ∈ ns) →
    (ns.map fun n => ((Turn.passedTo pairs ⟨n, 0⟩).map v).sum * D ⟨n, 0⟩).sum = (pairs.map fun q => v q.2 * D q.1).sum
  | [], _ => by simp [Turn.passedTo]
  | q :: pairs, hq => by
    obtain ⟨hi, hn⟩ := hq q (by simp)
    have ih := sum_passedTo v D hnd fun q' hq' => hq q' (List.mem_cons_of_mem _ hq')
    obtain ⟨⟨m, i⟩, grad⟩ := q
    obtain rfl : i = 0 := hi
    have hsplit : ∀ n : NodeId, ((Turn.passedTo ((⟨m, 0⟩, grad) :: pairs) ⟨n, 0⟩).map v).sum * D ⟨n, 0⟩ =
        (if n = m then v grad * D ⟨n, 0⟩ else 0) + ((Turn.passedTo pairs ⟨n, 0⟩).map v).sum * D ⟨n, 0⟩ := by
      intro n
      rw [Turn.passedTo_cons]
      by_cases he : n = m
      · subst he; simp [add_mul]
      · have hne : ¬ ((⟨m, 0⟩ : Entry) = ⟨n, 0⟩) := fun hh => he (by injection hh with hh; exact hh.symm)
        simp [he, hne]
    simp only [hsplit]
    rw [List.sum_map_add, ih, sum_map_single hnd hn fun n => v grad * D ⟨n, 0⟩]
    rfl

theorem Turn.seeded_eq_passedTo {pairs : List (Entry × Entry)} (hnd : (pairs.map Prod.fst).Nodup) (e : Entry) :
    Turn.seeded pairs e = Turn.passedTo pairs e := by
  induction pairs with
  | nil => rfl
  | cons q pairs ih =>
    obtain ⟨hq, hnd⟩ := List.nodup_cons.mp hnd
    unfold seeded passedTo at ih ⊢
    by_cases he : q.1 = e
    · have hrest : pairs.filter (fun q => q.1 = e) = [] := by
        rw [List.filter_eq_nil_iff]
        intro q' hq'
        have : q'.1 ≠ e := fun hh => hq (he ▸ hh ▸ List.mem_map_of_mem hq')
        simpa using this
      rw [List.filter_cons_of_pos (by simpa using he), hrest]
      rfl
    · rw [List.filter_cons_of_neg (by simpa using he)]
      exact ih hnd

end Sums

/-! ## The balance of a turn -/

section Balance
variable {F : Type u} [Field F] (c : Calculus F) (ρ : NodeId → F) (h₀ : Heap) (p : Problem)

noncomputable def adjoint (h : Heap) (turns : List Turn) (e : Entry) : F :=
  ((Turn.arrived p turns e).map (h.value c.interpret ρ)).sum

/-- The nodes still to come with their tangents and the others with their perturbations make up the derivative. -/
structure Balanced (h : Heap) (turns : List Turn) (done rest : List NodeId) : Prop where
  grounded : ∀ e, ∀ g ∈ Turn.arrived p turns e, h.Grounded g.node
  visited : ∀ e, e.node ∉ done ++ rest → Turn.arrived p turns e = []
  totals : ∀ q ∈ Turn.known turns, q.1.node ∉ rest ∧ h.Shows c.interpret ρ q.2 (adjoint c ρ p h turns q.1)
  balance : ∀ x, (rest.map fun n => adjoint c ρ p h turns ⟨n, 0⟩ * h₀.tangent c ρ x ⟨n, 0⟩).sum +
    (done.map fun n => adjoint c ρ p h turns ⟨n, 0⟩ * Heap.perturbation x ⟨n, 0⟩).sum =
      ((p.ys.zip p.seeds).map fun q => h₀.value c.interpret ρ q.2 * h₀.tangent c ρ x q.1).sum

variable {c ρ h₀ p}
variable {h h' : Heap} {turns : List Turn} {done rest : List NodeId} {n : NodeId}

theorem adjoint_grows (hg : h.GrowsTo h') {e : Entry} (hgrounded : ∀ g ∈ Turn.arrived p turns e, h.Grounded g.node) :
    adjoint c ρ p h' turns e = adjoint c ρ p h turns e := by
  unfold adjoint
  rw [List.map_congr_left fun g hgm => Heap.value_grows hg (hgrounded g hgm)]

theorem Balanced.grows (hb : Balanced c ρ h₀ p h turns done rest) (hg : h.GrowsTo h') :
    Balanced c ρ h₀ p h' turns done rest where
  grounded e g hgm := (hb.grounded e g hgm).grows hg
  visited := hb.visited
  totals q hq := by
    rw [adjoint_grows hg (hb.grounded q.1)]
    exact ⟨(hb.totals q hq).1, (hb.totals q hq).2.grows hg⟩
  balance x := by
    have hadj : ∀ e, adjoint c ρ p h' turns e = adjoint c ρ p h turns e := fun e => adjoint_grows hg (hb.grounded e)
    simp only [hadj]
    exact hb.balance x

theorem Balanced.arrived (hb : Balanced c ρ h₀ p h turns done rest) (e : Entry) :
    List.Forall₂ (h.Shows c.interpret ρ) (Turn.arrived p turns e)
      ((Turn.arrived p turns e).map (h.value c.interpret ρ)) := by
  rw [List.forall₂_map_right_iff]
  exact List.forall₂_same.mpr fun g hg => ⟨hb.grounded e g hg, rfl⟩

theorem Balanced.idle (hb : Balanced c ρ h₀ p h turns done (n :: rest))
    (ht : ∀ x, h₀.tangent c ρ x ⟨n, 0⟩ = Heap.perturbation x ⟨n, 0⟩) :
    Balanced c ρ h₀ p h turns (done ++ [n]) rest where
  grounded := hb.grounded
  visited := by rw [List.append_assoc]; exact hb.visited
  totals q hq := ⟨fun hr => (hb.totals q hq).1 (List.mem_cons_of_mem _ hr), (hb.totals q hq).2⟩
  balance x := by
    have := hb.balance x
    rw [List.map_cons, List.sum_cons, ht] at this
    rw [List.map_append, List.sum_append, ← this]
    simp only [List.map_cons, List.map_nil, List.sum_cons, List.sum_nil]
    ring

theorem adjoint_append (t : Turn) (e : Entry) : adjoint c ρ p h (turns ++ [t]) e =
    adjoint c ρ p h turns e + ((Turn.passedTo t.grads e).map (h.value c.interpret ρ)).sum := by
  unfold adjoint
  rw [Turn.arrived_append, List.map_append, List.sum_append]

theorem adjoint_append_of_ne {t : Turn} {e : Entry} (ht : ∀ q ∈ t.grads, q.1 ≠ e) :
    adjoint c ρ p h (turns ++ [t]) e = adjoint c ρ p h turns e := by
  rw [adjoint_append, Turn.passedTo_eq_nil ht, List.map_nil, List.sum_nil, add_zero]

theorem sum_adjoint_append {t : Turn} (hnd : rest.Nodup) (ht : ∀ q ∈ t.grads, q.1.index = 0 ∧ q.1.node ∈ rest)
    (D : Entry → F) : (rest.map fun m => adjoint c ρ p h (turns ++ [t]) ⟨m, 0⟩ * D ⟨m, 0⟩).sum =
      (rest.map fun m => adjoint c ρ p h turns ⟨m, 0⟩ * D ⟨m, 0⟩).sum +
        (t.grads.map fun q => h.value c.interpret ρ q.2 * D q.1).sum := by
  rw [← sum_passedTo (h.value c.interpret ρ) D hnd ht, ← List.sum_map_add]
  simp only [adjoint_append, add_mul]

/-- A turn passes on what it takes from the balance. -/
theorem Balanced.turn (hb : Balanced c ρ h₀ p h turns done (n :: rest)) (hnd : (done ++ n :: rest).Nodup)
    {total : Entry} {inputs grads : List Entry} (hinputs : ∀ e ∈ inputs, e.index = 0 ∧ e.node ∈ rest)
    (htotal : h.Shows c.interpret ρ total (adjoint c ρ p h turns ⟨n, 0⟩)) (hgrads : ∀ g ∈ grads, h.Grounded g.node)
    (hlaw : ∀ x, ((inputs.zip grads).map fun q => h.value c.interpret ρ q.2 * h₀.tangent c ρ x q.1).sum =
      adjoint c ρ p h turns ⟨n, 0⟩ * (h₀.tangent c ρ x ⟨n, 0⟩ - Heap.perturbation x ⟨n, 0⟩)) :
    Balanced c ρ h₀ p h (turns ++ [⟨n, [(⟨n, 0⟩, total)], inputs.zip grads⟩]) (done ++ [n]) rest := by
  let t : Turn := ⟨n, [(⟨n, 0⟩, total)], inputs.zip grads⟩
  have hpairs : ∀ q ∈ t.grads, q.1.index = 0 ∧ q.1.node ∈ rest := fun q hq => hinputs _ (List.of_mem_zip hq).1
  have hsame : ∀ e : Entry, e.node ∉ rest → adjoint c ρ p h (turns ++ [t]) e = adjoint c ρ p h turns e :=
    fun e he => adjoint_append_of_ne fun q hq hqe => he (hqe ▸ (hpairs q hq).2)
  obtain ⟨-, hnd', hdisj⟩ := List.nodup_append.mp hnd
  obtain ⟨hn, hrest⟩ := List.nodup_cons.mp hnd'
  refine ⟨?_, ?_, ?_, ?_⟩
  · intro e g hg
    rw [Turn.arrived_append] at hg
    rcases List.mem_append.mp hg with hg | hg
    · exact hb.grounded e g hg
    · obtain ⟨q, hq, rfl⟩ := Turn.mem_passedTo hg
      exact hgrads _ (List.of_mem_zip hq).2
  · intro e he
    have hr : e.node ∉ rest := fun hr => he (List.mem_append_right _ hr)
    rw [List.append_assoc] at he
    simp only [Turn.arrived_append, hb.visited e he]
    exact Turn.passedTo_eq_nil fun q hq hqe => hr (hqe ▸ (hpairs q hq).2)
  · intro q hq
    rw [Turn.known_append] at hq
    rcases List.mem_append.mp hq with hq | hq
    · obtain ⟨hq₁, hq₂⟩ := hb.totals q hq
      have hq₃ : q.1.node ∉ rest := fun hr => hq₁ (List.mem_cons_of_mem _ hr)
      exact ⟨hq₃, by rw [hsame _ hq₃]; exact hq₂⟩
    · obtain rfl := List.mem_singleton.mp hq
      exact ⟨hn, by rw [hsame _ hn]; exact htotal⟩
  · intro x
    -- nothing is passed on to a node that had its turn, so those terms stay as they are
    have hdone : (done ++ [n]).map (fun m => adjoint c ρ p h (turns ++ [t]) ⟨m, 0⟩ * Heap.perturbation x ⟨m, 0⟩) =
        (done ++ [n]).map fun m => adjoint c ρ p h turns ⟨m, 0⟩ * Heap.perturbation x ⟨m, 0⟩ := by
      refine List.map_congr_left fun m hm => ?_
      rw [hsame ⟨m, 0⟩ fun hr => ?_]
      rcases List.mem_append.mp hm with hm | hm
      · exact hdisj m hm m (List.mem_cons_of_mem _ hr) rfl
      · exact hn (List.mem_singleton.mp hm ▸ hr)
    have hold := hb.balance x
    rw [List.map_cons, List.sum_cons] at hold
    rw [hdone, sum_adjoint_append hrest hpairs, hlaw x, ← hold, List.map_append, List.sum_append]
    simp only [List.map_cons, List.map_nil, List.sum_cons, List.sum_nil]
    ring

theorem Balanced.derivative (hb : Balanced c ρ h₀ p h turns done []) (hnd : done.Nodup) {x : Entry}
    (hx : x.node ∈ done → x.index = 0) : adjoint c ρ p h turns x =
      ((p.ys.zip p.seeds).map fun q => h₀.value c.interpret ρ q.2 * h₀.tangent c ρ x q.1).sum := by
  rw [← hb.balance x, List.map_nil, List.sum_nil, zero_add]
  by_cases hm : x.node ∈ done
  · obtain ⟨m, i⟩ := x
    obtain rfl : i = 0 := hx hm
    rw [← sum_map_single hnd hm fun n => adjoint c ρ p h turns ⟨n, 0⟩]
    refine congrArg List.sum (List.map_congr_left fun n _ => ?_)
    simp [Heap.perturbation]
  -- an entry that the outputs do not depend on has received nothing
  · have hzero : adjoint c ρ p h turns x = 0 := by
      unfold adjoint
      rw [hb.visited x (by rw [List.append_nil]; exact hm)]
      rfl
    rw [hzero]
    refine (List.sum_eq_zero fun v hv => ?_).symm
    obtain ⟨n, hn, rfl⟩ := List.mem_map.mp hv
    have hne : ¬ (⟨n, 0⟩ : Entry) = x := fun he => hm (he ▸ hn)
    rw [Heap.perturbation, if_neg hne, mul_zero]

theorem balanced_seeds (hseeds : ∀ e ∈ p.seeds, h₀.Grounded e.node) (hlen : p.ys.length = p.seeds.length)
    (hys : p.ys.Nodup) (hrest : ∀ y ∈ p.ys, y.index = 0 ∧ y.node ∈ rest) (hnd : rest.Nodup) :
    Balanced c ρ h₀ p h₀ [] [] rest := by
  have hfst : ((p.ys.zip p.seeds).map Prod.fst).Nodup := by
    rw [List.map_fst_zip (Nat.le_of_eq hlen)]
    exact hys
  have hpairs : ∀ q ∈ p.ys.zip p.seeds, q.1.index = 0 ∧ q.1.node ∈ rest := fun q hq => hrest _ (List.of_mem_zip hq).1
  have harrived : ∀ e, Turn.arrived p [] e = Turn.passedTo (p.ys.zip p.seeds) e := fun e => by
    rw [Turn.arrived, List.flatMap_nil, List.append_nil, Turn.seeded_eq_passedTo hfst]
  refine ⟨fun e g hg => ?_, fun e he => ?_, fun q hq => absurd hq (by simp [Turn.known]), fun x => ?_⟩
  · rw [harrived] at hg
    obtain ⟨q, hq, rfl⟩ := Turn.mem_passedTo hg
    exact hseeds _ (List.of_mem_zip hq).2
  · rw [harrived]
    exact Turn.passedTo_eq_nil fun q hq hqe => he (hqe ▸ (hpairs q hq).2)
  · simp only [adjoint, harrived]
    rw [sum_passedTo (h₀.value c.interpret ρ) (h₀.tangent c ρ x) hnd hpairs, List.map_nil, List.sum_nil, add_zero]

end Balance

end Backprop
