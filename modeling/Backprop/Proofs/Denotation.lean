import Backprop.Proofs.ActionLemmas

/-!
# What entries stand for

The value of an entry under an interpretation of the operators and a valuation
of the variables. Values are computed along inputs; control dependencies play
no part in them. They are defined wherever every chain of inputs ends, and do
not change when nodes are added.
-/

namespace Backprop

universe u

/-- What operators stand for: the values of their outputs, from their attributes and the values of their inputs. -/
def Interpretation (V : Type u) : Type u := Op → Ledger String Datum → List V → Nat → V

namespace Heap

/-- Every chain of inputs that starts at the node ends, without leaving the heap. -/
inductive Grounded (h : Heap) : NodeId → Prop
  | intro {n : NodeId} (has : h.Has n) (inputs : ∀ e ∈ (h.node n).inputs, h.Grounded e.node) : h.Grounded n

namespace Grounded
variable {h h' : Heap} {n : NodeId}

theorem has (hn : h.Grounded n) : h.Has n := by
  cases hn with
  | intro has _ => exact has

theorem inputs (hn : h.Grounded n) : ∀ e ∈ (h.node n).inputs, h.Grounded e.node := by
  cases hn with
  | intro _ inputs => exact inputs

theorem grows (hg : h.GrowsTo h') (hn : h.Grounded n) : h'.Grounded n := by
  induction hn with
  | intro has _ ih => exact .intro (hg.has has) (by rw [hg.node_eq _ has]; exact ih)

end Grounded

theorem grounded_of_settled {h : Heap} : ∀ {ns : List NodeId}, h.Settled ns → (∀ n ∈ ns, h.Has n) →
    ∀ n ∈ ns, h.Grounded n
  | [], _, _ => by simp
  | m :: ms, hs, hhas => by
    have ih := grounded_of_settled hs.2 fun n hn => hhas n (List.mem_cons_of_mem _ hn)
    intro n hn
    rcases List.mem_cons.mp hn with rfl | hn
    · refine .intro (hhas n (by simp)) fun e he => ih _ (hs.1 _ ?_)
      exact List.mem_append_left _ (List.mem_map_of_mem he)
    · exact ih n hn

theorem grounded_of_acyclic {h : Heap} {es : List Entry} (hw : h.WellFormed) (hes : ∀ e ∈ es, h.HasEntry e)
    (hac : h.AcyclicFrom (es.map Entry.node)) : ∀ e ∈ es, h.Grounded e.node := by
  have harr := h.arranged_postorder hw (fun r hr => by
    obtain ⟨e, he, rfl⟩ := List.mem_map.mp hr
    exact (hes e he).1) hac
  exact fun e he => grounded_of_settled harr.settled harr.has _ (harr.covers _ (List.mem_map_of_mem he))

/-! ## Folding along inputs -/

section Fold
variable {β : Type u} (step : NodeId → Node → List β → Nat → β)

noncomputable def foldGrounded (h : Heap) {n : NodeId} (hn : h.Grounded n) : Nat → β :=
  Grounded.rec (motive := fun _ _ => Nat → β) (fun {n} _ _ ih => step n (h.node n)
    ((h.node n).inputs.attach.map fun e => ih e.1 e.2 e.1.index)) hn

theorem foldGrounded_eq {h : Heap} {n : NodeId} (hn : h.Grounded n) (i : Nat) :
    h.foldGrounded step hn i = step n (h.node n)
      ((h.node n).inputs.attach.map fun e => h.foldGrounded step (hn.inputs e.1 e.2) e.1.index) i := by
  cases hn
  rfl

variable [Nonempty β]

open Classical in
noncomputable def fold (h : Heap) (e : Entry) : β :=
  if hn : h.Grounded e.node then h.foldGrounded step hn e.index else Classical.arbitrary β

variable {step}

theorem fold_eq {h : Heap} {e : Entry} (hn : h.Grounded e.node) :
    h.fold step e = step e.node (h.node e.node) ((h.node e.node).inputs.map (h.fold step)) e.index := by
  have hfold : ∀ {e : Entry} (hn : h.Grounded e.node), h.fold step e = h.foldGrounded step hn e.index :=
    fun hn => dif_pos hn
  rw [hfold hn, foldGrounded_eq, ← List.attach_map_val (l := (h.node e.node).inputs) (f := h.fold step)]
  congr 1
  exact List.map_congr_left fun i _ => (hfold (hn.inputs i.1 i.2)).symm

theorem fold_grows {h h' : Heap} (hg : h.GrowsTo h') {n : NodeId} (hn : h.Grounded n) :
    ∀ i, h'.fold step ⟨n, i⟩ = h.fold step ⟨n, i⟩ := by
  induction hn with
  | @intro n has inputs ih =>
    intro i
    have hn : h.Grounded n := .intro has inputs
    have hmap : (h.node n).inputs.map (h'.fold step) = (h.node n).inputs.map (h.fold step) :=
      List.map_congr_left fun e he => ih e he e.index
    rw [fold_eq (h := h) (e := ⟨n, i⟩) hn, fold_eq (h := h') (e := ⟨n, i⟩) (hn.grows hg)]
    simp only [hg.node_eq n has, hmap]

end Fold

/-! ## Values -/

section Value
variable {V : Type u} [Nonempty V] (I : Interpretation V) (ρ : NodeId → V)

noncomputable def value (h : Heap) : Entry → V :=
  h.fold fun n node vs i => match node.op with
    | none => ρ n
    | some op => I op node.attrs vs i

variable {I ρ} {h h' : Heap} {e : Entry}

theorem value_variable (hn : h.Grounded e.node) (hop : (h.node e.node).op = none) : h.value I ρ e = ρ e.node := by
  unfold value
  rw [fold_eq hn]
  simp only [hop]

theorem value_apply {op : Op} (hn : h.Grounded e.node) (hop : (h.node e.node).op = some op) :
    h.value I ρ e = I op (h.node e.node).attrs ((h.node e.node).inputs.map (h.value I ρ)) e.index := by
  unfold value
  rw [fold_eq hn]
  simp only [hop]

theorem value_grows (hg : h.GrowsTo h') (hn : h.Grounded e.node) : h'.value I ρ e = h.value I ρ e :=
  fold_grows hg hn e.index

end Value

end Heap

end Backprop
