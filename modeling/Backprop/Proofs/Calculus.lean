import Backprop.Proofs.RecipeSound
import Mathlib.Tactic.FieldSimp
import Mathlib.Tactic.Ring

/-!
# Scalar calculus

The elementwise operators as functions on a field, and the rules of
differentiation for them. The tangent of an entry is computed forwards, along
inputs, from a unit perturbation at one entry. The rule of every elementary
operator is the transpose of its tangent (`Recipe.transposes`): what it passes
on, weighted with the tangents of the inputs, is what it was given, weighted
with the tangent of the output.
-/

namespace Backprop

universe u

-- values are taken from a nonempty type; for a field this instance is found first, whatever else is imported
instance (priority := high) nonempty_of_field {F : Type u} [Field F] : Nonempty F := ⟨0⟩

/-- Functions for the operators that are not given by the field. -/
structure Calculus (F : Type u) where
  exp : F → F
  log : F → F
  relu : F → F
  /-- The derivative of `relu`. -/
  step : F → F

namespace Calculus
variable {F : Type u} [Field F] (c : Calculus F)

def arg (vs : List F) (k : Nat) : F := vs.getD k 0

def interpret : Interpretation F := fun op _ vs _ =>
  match op.name with
  | "__ewise_sum__" => vs.sum
  | "ones_like" => 1
  | "copy" => arg vs 0
  | "negative" => -arg vs 0
  | "exp" => c.exp (arg vs 0)
  | "log" => c.log (arg vs 0)
  | "relu" => c.relu (arg vs 0)
  | "relu_backward" => arg vs 0 * c.step (arg vs 1)
  | "elemwise_add" => arg vs 0 + arg vs 1
  | "elemwise_sub" => arg vs 0 - arg vs 1
  | "elemwise_mul" => arg vs 0 * arg vs 1
  | "elemwise_div" => arg vs 0 / arg vs 1
  | _ => 0

def differential (op : Op) (vs ds : List F) : F :=
  match op.name with
  | "__ewise_sum__" => ds.sum
  | "copy" => arg ds 0
  | "negative" => -arg ds 0
  | "exp" => c.exp (arg vs 0) * arg ds 0
  | "log" => 1 / arg vs 0 * arg ds 0
  | "relu" => c.step (arg vs 0) * arg ds 0
  | "relu_backward" => arg ds 0 * c.step (arg vs 1)
  | "elemwise_add" => arg ds 0 + arg ds 1
  | "elemwise_sub" => arg ds 0 - arg ds 1
  | "elemwise_mul" => arg ds 0 * arg vs 1 + arg vs 0 * arg ds 1
  | "elemwise_div" => (arg ds 0 * arg vs 1 - arg vs 0 * arg ds 1) / (arg vs 1 * arg vs 1)
  | _ => 0

end Calculus

/-! ## Tangents -/

namespace Heap
variable {F : Type u} [Field F] (c : Calculus F) (ρ : NodeId → F) (x : Entry)

def perturbation (e : Entry) : F := if e = x then 1 else 0

noncomputable def dual (h : Heap) : Entry → F × F :=
  h.fold fun n node ds i => match node.op with
    | none => (ρ n, perturbation x ⟨n, i⟩)
    | some op => (c.interpret op node.attrs (ds.map Prod.fst) i,
        perturbation x ⟨n, i⟩ + c.differential op (ds.map Prod.fst) (ds.map Prod.snd))

noncomputable def tangent (h : Heap) (e : Entry) : F := (h.dual c ρ x e).2

variable {c ρ x} {h : Heap}

theorem dual_fst {n : NodeId} (hn : h.Grounded n) : ∀ i, (h.dual c ρ x ⟨n, i⟩).1 = h.value c.interpret ρ ⟨n, i⟩ := by
  induction hn with
  | @intro n has inputs ih =>
    intro i
    have hn : h.Grounded n := .intro has inputs
    have hmap : ((h.node n).inputs.map (h.dual c ρ x)).map Prod.fst =
        (h.node n).inputs.map (h.value c.interpret ρ) := by
      rw [List.map_map]
      exact List.map_congr_left fun e he => ih e he e.index
    cases hop : (h.node n).op with
    | none =>
      rw [value_variable (e := ⟨n, i⟩) hn hop, dual, fold_eq (e := ⟨n, i⟩) hn]
      simp only [hop]
    | some op =>
      rw [value_apply (e := ⟨n, i⟩) hn hop, ← hmap, dual, fold_eq (e := ⟨n, i⟩) hn]
      simp only [hop]

theorem tangent_variable {e : Entry} (hn : h.Grounded e.node) (hop : (h.node e.node).op = none) :
    h.tangent c ρ x e = perturbation x e := by
  rw [tangent, dual, fold_eq hn]
  simp only [hop]

theorem tangent_apply {e : Entry} {op : Op} (hn : h.Grounded e.node) (hop : (h.node e.node).op = some op) :
    h.tangent c ρ x e = perturbation x e + c.differential op ((h.node e.node).inputs.map (h.value c.interpret ρ))
      ((h.node e.node).inputs.map (h.tangent c ρ x)) := by
  have hfst : ((h.node e.node).inputs.map (h.dual c ρ x)).map Prod.fst =
      (h.node e.node).inputs.map (h.value c.interpret ρ) := by
    rw [List.map_map]
    exact List.map_congr_left fun i hi => dual_fst (hn.inputs i hi) i.index
  have hsnd : ((h.node e.node).inputs.map (h.dual c ρ x)).map Prod.snd = (h.node e.node).inputs.map (h.tangent c ρ x) :=
    List.map_map
  rw [tangent, dual, fold_eq hn]
  simp only [hop]
  rw [← hfst, ← hsnd, dual]

end Heap

/-! ## Rules are transposes -/

structure Op.Elementary (op : Op) (inputs : Nat) : Prop where
  builtin : op ∈ builtinOps
  not_split : op.name ≠ "split"
  not_concatenate : op.name ≠ "concatenate"
  accepts : op.accepts inputs = true

instance (op : Op) (inputs : Nat) : Decidable (op.Elementary inputs) :=
  decidable_of_iff (op ∈ builtinOps ∧ op.name ≠ "split" ∧ op.name ≠ "concatenate" ∧ op.accepts inputs = true)
    ⟨fun ⟨hb, hs, hc, ha⟩ => ⟨hb, hs, hc, ha⟩, fun ⟨hb, hs, hc, ha⟩ => ⟨hb, hs, hc, ha⟩⟩

namespace Recipe

section Denote
variable {V : Type u} {find : String → Except Fault Op} {I : Interpretation V} {s : Start V} {vs : List V}

theorem denote_fetch {operand : Operand} {v : V} (hv : operand.denote s = some v) (rest : Recipe) :
    denote find I s (fetch operand rest) vs = denote find I s rest (vs ++ [v]) := by
  rw [denote, hv]
  rfl

theorem denote_derive {op : String} {o : Op} {args : List Nat} {xs : List V} (hop : find op = .ok o)
    (hargs : (args.mapM fun k => vs[k]?) = some xs) (hc : o.accepts xs.length = true) (hout : 0 < o.outputs)
    (suffix : String) (rest : Recipe) :
    denote find I s (derive suffix op args rest) vs = denote find I s rest (vs ++ [I o [] xs 0]) := by
  have happ : applied find op args vs = some (o, xs) := by
    unfold applied
    rw [hop, hargs]
    exact if_pos hc
  rw [derive, denote, happ]
  exact if_pos hout

end Denote

section Transposes
variable {F : Type u} [Field F] (c : Calculus F) (find : String → Except Fault Op)

/-- What the recipe passes on, weighted with the tangents of the inputs, is the gradient it is given, weighted with
the tangent of the output. -/
def Transposes (op : Op) (scheme : Outline → Recipe) : Prop :=
  ∀ (vs ds : List F) (g : F) (attrs : Ledger String Datum), op.accepts vs.length = true → ds.length = vs.length →
    ∃ rs, denote find c.interpret ⟨[g], vs, [c.interpret op attrs vs 0]⟩ (scheme ⟨some op, attrs, vs.length, 1⟩) [] =
      some rs ∧ rs.length = vs.length ∧ (List.zipWith (· * ·) rs ds).sum = g * c.differential op vs ds

variable {c find}

theorem transposes_unary {op : Op} {scheme : Outline → Recipe} (hop : op.inputs = 1)
    (h : ∀ v d g attrs, ∃ r, denote find c.interpret ⟨[g], [v], [c.interpret op attrs [v] 0]⟩
      (scheme ⟨some op, attrs, 1, 1⟩) [] = some [r] ∧ r * d = g * c.differential op [v] [d]) :
    Transposes c find op scheme := by
  intro vs ds g attrs hacc hlen
  have hl : vs.length = 1 := by
    unfold Op.accepts at hacc
    rw [hop] at hacc
    simp at hacc
    omega
  obtain ⟨v, rfl⟩ := List.length_eq_one_iff.mp hl
  obtain ⟨d, rfl⟩ := List.length_eq_one_iff.mp (hlen.trans hl)
  obtain ⟨r, hr, heq⟩ := h v d g attrs
  exact ⟨[r], hr, rfl, by simpa using heq⟩

theorem transposes_binary {op : Op} {scheme : Outline → Recipe} (hop : op.inputs = 2)
    (h : ∀ v v' d d' g attrs, ∃ r r', denote find c.interpret ⟨[g], [v, v'], [c.interpret op attrs [v, v'] 0]⟩
      (scheme ⟨some op, attrs, 2, 1⟩) [] = some [r, r'] ∧ r * d + r' * d' = g * c.differential op [v, v'] [d, d']) :
    Transposes c find op scheme := by
  intro vs ds g attrs hacc hlen
  have hl : vs.length = 2 := by
    unfold Op.accepts at hacc
    rw [hop] at hacc
    simp at hacc
    omega
  obtain ⟨v, v', rfl⟩ := List.length_eq_two.mp hl
  obtain ⟨d, d', rfl⟩ := List.length_eq_two.mp (hlen.trans hl)
  obtain ⟨r, r', hr, heq⟩ := h v v' d d' g attrs
  exact ⟨[r, r'], hr, rfl, by simpa using heq⟩

theorem zero_transposes : Transposes c find builtinOps[0] zero := by
  intro vs ds g attrs hacc hlen
  have hl : vs.length = 0 := by
    simp [Op.accepts, builtinOps] at hacc
    omega
  obtain rfl := List.eq_nil_of_length_eq_zero hl
  refine ⟨[], rfl, rfl, ?_⟩
  show 0 = g * 0
  ring

theorem sum_transposes : Transposes c find builtinOps[1] sum := by
  intro vs ds g attrs _ hlen
  refine ⟨List.replicate vs.length g, ?_, List.length_replicate, ?_⟩
  · rw [sum, denote_fetch rfl, denote]
    generalize vs.length = k
    induction k with
    | zero => rfl
    | succ k ih => rw [List.replicate_succ, List.mapM_cons, ih]; rfl
  · show _ = g * ds.sum
    rw [← hlen]
    clear hlen
    induction ds with
    | nil => simp
    | cons d ds ih => rw [List.length_cons, List.replicate_succ, List.zipWith_cons_cons, List.sum_cons, ih]; simp; ring

theorem copy_transposes : Transposes c find builtinOps[4] copy :=
  transposes_unary rfl fun _ _ g _ => ⟨g, rfl, rfl⟩

theorem add_transposes : Transposes c find builtinOps[10] add := by
  refine transposes_binary rfl fun v v' d d' g attrs => ⟨g, g, rfl, ?_⟩
  show g * d + g * d' = g * (d + d')
  ring

variable (hfind : ∀ op ∈ builtinOps, find op.name = .ok op)
include hfind

theorem constant_transposes {op : Op} (hop : op.inputs = 1) (hd : ∀ v d : F, c.differential op [v] [d] = 0) :
    Transposes c find op constant := by
  have hzeros : find "zeros_like" = .ok builtinOps[3] := hfind builtinOps[3] (List.getElem_mem _)
  refine transposes_unary hop fun v d g attrs => ⟨0, ?_, ?_⟩
  · rw [constant, denote_fetch rfl, denote_derive hzeros rfl rfl (by decide)]
    rfl
  · rw [hd]
    ring

theorem negative_transposes : Transposes c find builtinOps[5] negative := by
  have hneg : find "negative" = .ok builtinOps[5] := hfind builtinOps[5] (List.getElem_mem _)
  refine transposes_unary rfl fun v d g attrs => ⟨-g, ?_, ?_⟩
  · rw [negative, denote_fetch rfl, denote_derive hneg rfl rfl (by decide)]
    rfl
  · show -g * d = g * -d
    ring

theorem exp_transposes : Transposes c find builtinOps[6] exp := by
  have hmul : find "elemwise_mul" = .ok builtinOps[12] := hfind builtinOps[12] (List.getElem_mem _)
  refine transposes_unary rfl fun v d g attrs => ⟨g * c.exp v, ?_, ?_⟩
  · rw [exp, denote_fetch rfl, denote_fetch rfl, denote_derive hmul rfl rfl (by decide)]
    rfl
  · show g * c.exp v * d = g * (c.exp v * d)
    ring

theorem log_transposes : Transposes c find builtinOps[7] log := by
  have hdiv : find "elemwise_div" = .ok builtinOps[13] := hfind builtinOps[13] (List.getElem_mem _)
  refine transposes_unary rfl fun v d g attrs => ⟨g / v, ?_, ?_⟩
  · rw [log, denote_fetch rfl, denote_fetch rfl, denote_derive hdiv rfl rfl (by decide)]
    rfl
  · show g / v * d = g * (1 / v * d)
    ring

theorem relu_transposes : Transposes c find builtinOps[8] relu := by
  have hback : find "relu_backward" = .ok builtinOps[9] := hfind builtinOps[9] (List.getElem_mem _)
  refine transposes_unary rfl fun v d g attrs => ⟨g * c.step v, ?_, ?_⟩
  · rw [relu, denote_fetch rfl, denote_fetch rfl, denote_derive hback rfl rfl (by decide)]
    rfl
  · show g * c.step v * d = g * (c.step v * d)
    ring

theorem reluBackward_transposes : Transposes c find builtinOps[9] reluBackward := by
  have hback : find "relu_backward" = .ok builtinOps[9] := hfind builtinOps[9] (List.getElem_mem _)
  have hzeros : find "zeros_like" = .ok builtinOps[3] := hfind builtinOps[3] (List.getElem_mem _)
  refine transposes_binary rfl fun v v' d d' g attrs => ⟨g * c.step v', 0, ?_, ?_⟩
  · rw [reluBackward, denote_fetch rfl, denote_fetch rfl, denote_derive hback rfl rfl (by decide),
      denote_derive hzeros rfl rfl (by decide)]
    rfl
  · show g * c.step v' * d + 0 * d' = g * (d * c.step v')
    ring

theorem sub_transposes : Transposes c find builtinOps[11] sub := by
  have hneg : find "negative" = .ok builtinOps[5] := hfind builtinOps[5] (List.getElem_mem _)
  refine transposes_binary rfl fun v v' d d' g attrs => ⟨g, -g, ?_, ?_⟩
  · rw [sub, denote_fetch rfl, denote_derive hneg rfl rfl (by decide)]
    rfl
  · show g * d + -g * d' = g * (d - d')
    ring

theorem mul_transposes : Transposes c find builtinOps[12] mul := by
  have hmul : find "elemwise_mul" = .ok builtinOps[12] := hfind builtinOps[12] (List.getElem_mem _)
  refine transposes_binary rfl fun v v' d d' g attrs => ⟨g * v', g * v, ?_, ?_⟩
  · rw [mul, if_pos rfl, denote_fetch rfl, denote_fetch rfl, denote_fetch rfl, denote_derive hmul rfl rfl (by decide),
      denote_derive hmul rfl rfl (by decide)]
    rfl
  · show g * v' * d + g * v * d' = g * (d * v' + v * d')
    ring

theorem div_transposes : Transposes c find builtinOps[13] div := by
  have hdiv : find "elemwise_div" = .ok builtinOps[13] := hfind builtinOps[13] (List.getElem_mem _)
  have hmul : find "elemwise_mul" = .ok builtinOps[12] := hfind builtinOps[12] (List.getElem_mem _)
  have hneg : find "negative" = .ok builtinOps[5] := hfind builtinOps[5] (List.getElem_mem _)
  refine transposes_binary rfl fun v v' d d' g attrs => ⟨g / v', -(g / v' * (v / v')), ?_, ?_⟩
  · rw [div, if_pos rfl, denote_fetch rfl, denote_fetch rfl, denote_derive hdiv rfl rfl (by decide), denote_fetch rfl,
      denote_derive hmul rfl rfl (by decide), denote_derive hneg rfl rfl (by decide)]
    rfl
  · show g / v' * d + -(g / v' * (v / v')) * d' = g * ((d * v' - v * d') / (v' * v'))
    by_cases hv : v' = 0
    -- division by zero gives zero on both sides
    · simp [hv]
    · field_simp
      ring

theorem transposes {op : Op} {inputs : Nat} (hop : op.Elementary inputs) :
    ∃ s, Recipe.builtins.find? (fun s => s.1 == op.name) = some s ∧ Transposes c find op s.2 := by
  obtain ⟨hmem, hsplit, hconcat, -⟩ := hop
  -- one case for each operator, in the order in which they are registered
  fin_cases hmem
  · exact ⟨_, rfl, zero_transposes⟩
  · exact ⟨_, rfl, sum_transposes⟩
  · exact ⟨_, rfl, constant_transposes hfind rfl fun _ _ => rfl⟩
  · exact ⟨_, rfl, constant_transposes hfind rfl fun _ _ => rfl⟩
  · exact ⟨_, rfl, copy_transposes⟩
  · exact ⟨_, rfl, negative_transposes hfind⟩
  · exact ⟨_, rfl, exp_transposes hfind⟩
  · exact ⟨_, rfl, log_transposes hfind⟩
  · exact ⟨_, rfl, relu_transposes hfind⟩
  · exact ⟨_, rfl, reluBackward_transposes hfind⟩
  · exact ⟨_, rfl, add_transposes⟩
  · exact ⟨_, rfl, sub_transposes hfind⟩
  · exact ⟨_, rfl, mul_transposes hfind⟩
  · exact ⟨_, rfl, div_transposes hfind⟩
  · exact absurd rfl hsplit
  · exact absurd rfl hconcat

end Transposes

end Recipe

end Backprop
