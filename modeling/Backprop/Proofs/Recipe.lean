import Backprop.Proofs.ActionLemmas
import Mathlib.Data.List.Forall2

/-!
# Rules as recipes

A recipe is a straight-line program that fetches gradients, inputs and outputs
and applies operators to what it has so far. It may use any outputs of the nodes
that it makes, and let new nodes depend on earlier ones. Which recipe is
followed may depend on the outline of the node, but on nothing else. All rules
that every session starts with are recipes (`RuleBook.builtins_follows`), so
what holds of every recipe holds of them.
-/

namespace Backprop

inductive Operand where
  | gradient (position : Int)
  | input (position : Int)
  | output (index : Int)

def Operand.eval (n : NodeId) (grads : List Value) : Operand → Build Value
  | gradient position => Rule.pick grads position
  | input position => Rule.input n position
  | output index => Rule.output n index

/-- Operands are numbered in the order in which they are fetched and made. Of a new node the first output is an operand
(`make`), or the node itself (`node`), of which any output can then be taken (`entry`). -/
inductive Recipe where
  | fail (e : Fault)
  | give (results : List Nat)
  | spread (name : Option (String → String)) (op : String) (attrs : Ledger String Datum) (args : List Nat)
  | fetch (operand : Operand) (rest : Recipe)
  | make (name : Option (String → String)) (op : String) (attrs : Ledger String Datum) (args : List Nat) (rest : Recipe)
  | node (name : Option (String → String)) (op : String) (attrs : Ledger String Datum) (args deps : List Nat)
      (rest : Recipe)
  | entry (position : Nat) (index : Int) (rest : Recipe)

/-- What a rule may look at besides its operands. -/
structure Outline where
  op : Option Op
  attrs : Ledger String Datum
  inputs : Nat
  grads : Nat

def Outline.of (node : Node) (grads : Nat) : Outline := ⟨node.op, node.attrs, node.links.inputs.length, grads⟩

namespace Recipe

def select (vs : List Value) (ks : List Nat) : List Value := ks.map fun k => (vs[k]?).getD .null

/-- A new node, whose name may be made from that of the node that is differentiated. -/
def create (n : NodeId) (name : Option (String → String)) (op : String) (attrs : Ledger String Datum)
    (args : List Value) (deps : List NodeId) : Build NodeId := do
  let own := ((← Build.heap).node n).name
  Build.apply (.text op) args (name.map fun f => f own) (deps.map .node) attrs

def outputOf (v : Value) (index : Int) : Build Value :=
  match v with
  | .node n => Rule.output n index
  | _ => throw (.misuse .noMethod)

def run (n : NodeId) (grads : List Value) : Recipe → List Value → Build (List Value)
  | fail e, _ => throw e
  | give results, vs => return select vs results
  | spread name op attrs args, vs => do
    let made ← create n name op attrs (select vs args) []
    return ((← Build.heap).entries made).map Value.entry
  | fetch operand rest, vs => do
    let v ← operand.eval n grads
    run n grads rest (vs ++ [v])
  | make name op attrs args rest, vs => do
    let made ← create n name op attrs (select vs args) []
    let v ← Rule.output made 0
    run n grads rest (vs ++ [v])
  | node name op attrs args deps rest, vs => do
    let made ← create n name op attrs (select vs args) ((select vs deps).filterMap Value.producer?)
    run n grads rest (vs ++ [.node made])
  | entry position index rest, vs => do
    let v ← outputOf ((vs[position]?).getD .null) index
    run n grads rest (vs ++ [v])

def rule (scheme : Outline → Recipe) : Rule := fun n grads => do
  let node := (← Build.heap).node n
  run n grads (scheme (.of node grads.length)) []

/-! ## Recipes for the rules that every session starts with -/

def derive (suffix op : String) (args : List Nat) (rest : Recipe) : Recipe :=
  make (some fun own => own ++ "_grad_" ++ suffix) op [] args rest

def fetchAll (operands : List Operand) (rest : Recipe) : Recipe := operands.foldr fetch rest

def zero : Outline → Recipe := fun _ => give []

def sum : Outline → Recipe := fun o => fetch (.gradient 0) (give (List.replicate o.inputs 0))

def constant : Outline → Recipe := fun _ => fetch (.input 0) (derive "in" "zeros_like" [0] (give [1]))

def copy : Outline → Recipe := fun _ => fetch (.gradient 0) (give [0])

def negative : Outline → Recipe := fun _ => fetch (.gradient 0) (derive "in" "negative" [0] (give [1]))

def exp : Outline → Recipe := fun _ =>
  fetch (.gradient 0) (fetch (.output 0) (derive "in" "elemwise_mul" [0, 1] (give [2])))

def log : Outline → Recipe := fun _ =>
  fetch (.gradient 0) (fetch (.input 0) (derive "in" "elemwise_div" [0, 1] (give [2])))

def relu : Outline → Recipe := fun _ =>
  fetch (.gradient 0) (fetch (.input 0) (derive "in" "relu_backward" [0, 1] (give [2])))

def reluBackward : Outline → Recipe := fun _ =>
  fetch (.input 1) (fetch (.gradient 0) (derive "ograd" "relu_backward" [1, 0]
    (derive "mask" "zeros_like" [0] (give [2, 3]))))

def add : Outline → Recipe := fun _ => fetch (.gradient 0) (give [0, 0])

def sub : Outline → Recipe := fun _ => fetch (.gradient 0) (derive "rhs" "negative" [0] (give [0, 1]))

def mul : Outline → Recipe := fun o =>
  if o.inputs = 2 then
    fetch (.input 0) (fetch (.input 1) (fetch (.gradient 0) (derive "lhs" "elemwise_mul" [2, 1]
      (derive "rhs" "elemwise_mul" [2, 0] (give [3, 4])))))
  else fail (.misuse .wrongCount)

def div : Outline → Recipe := fun o =>
  if o.inputs = 2 then
    fetch (.input 1) (fetch (.gradient 0) (derive "lhs" "elemwise_div" [1, 0] (fetch (.output 0)
      (derive "rhs_scaled" "elemwise_mul" [2, 3] (derive "rhs" "negative" [4] (give [2, 5]))))))
  else fail (.misuse .wrongCount)

def split : Outline → Recipe := fun o =>
  fetchAll ((List.range o.grads).map fun i : Nat => .gradient i)
    (derive "in" "concatenate" (List.range o.grads) (give [o.grads]))

def concatenate : Outline → Recipe := fun _ =>
  fetch (.gradient 0) (spread (some fun own => own ++ "_grad_" ++ "in") "split" [] [0])

/-! ## They are the rules -/

theorem rule_apply (scheme : Outline → Recipe) (n : NodeId) (grads : List Value) (a : Ambient) (w : Workspace) :
    rule scheme n grads a w = run n grads (scheme (.of (w.heap.node n) grads.length)) [] a w := rfl

theorem rule_const (recipe : Recipe) : rule (fun _ => recipe) = fun n grads => run n grads recipe [] := rfl

theorem run_derive (n : NodeId) (grads vs : List Value) (suffix op : String) (args : List Nat) (rest : Recipe) :
    run n grads (derive suffix op args rest) vs =
      Rule.derived n suffix op (select vs args) >>= fun v => run n grads rest (vs ++ [v]) := by
  unfold Rule.derived
  rw [bind_assoc]
  rfl

theorem pick_run (items : List Value) (position : Int) (a : Ambient) (w : Workspace) :
    Rule.pick items position a w = match Datum.place items.length position with
      | .ok i => .ok ((items[i]?).getD .null) w
      | .error e => .error e w := by
  unfold Rule.pick
  cases Datum.place items.length position <;> rfl

theorem place_nat {count i : Nat} (h : i < count) : Datum.place count i = .ok i := by
  unfold Datum.place
  have h₁ : ¬ ((i : Int) < 0) := by omega
  have h₂ : ¬ ((i : Int) < 0 ∨ (count : Int) ≤ i) := by omega
  simp [h₁, h]

theorem zero_eq_rule : Rule.zero = rule zero := rfl

theorem copy_eq_rule : Rule.copy = rule copy := rfl

theorem add_eq_rule : Rule.add = rule add := rfl

theorem constant_eq_rule : Rule.constant = rule constant := by
  unfold constant
  simp only [rule_const, run, run_derive]
  rfl

theorem negative_eq_rule : Rule.negative = rule negative := by
  unfold negative
  simp only [rule_const, run, run_derive]
  rfl

theorem exp_eq_rule : Rule.exp = rule exp := by
  unfold exp
  simp only [rule_const, run, run_derive]
  rfl

theorem log_eq_rule : Rule.log = rule log := by
  unfold log
  simp only [rule_const, run, run_derive]
  rfl

theorem relu_eq_rule : Rule.relu = rule relu := by
  unfold relu
  simp only [rule_const, run, run_derive]
  rfl

theorem reluBackward_eq_rule : Rule.reluBackward = rule reluBackward := by
  unfold reluBackward
  simp only [rule_const, run, run_derive]
  rfl

theorem sub_eq_rule : Rule.sub = rule sub := by
  unfold sub
  simp only [rule_const, run, run_derive]
  rfl

theorem concatenate_eq_rule : Rule.concatenate = rule concatenate := rfl

theorem sum_eq_rule : Rule.sum = rule sum := by
  funext n grads a w
  rw [rule_apply]
  unfold Rule.sum sum
  rw [run]
  refine run_bind_congr fun g w' hw => ?_
  have hw' : w' = w := by
    rw [pick_run] at hw
    split at hw <;> cases hw
    rfl
  subst hw'
  show EStateM.Result.ok (List.replicate (w'.heap.node n).links.inputs.length g) w' = _
  rw [run]
  simp [select, Outline.of]

theorem twoInputs_pair {n : NodeId} {w : Workspace} {x y : Value} (hl : (w.heap.node n).links.inputs = [x, y])
    (a : Ambient) : Rule.twoInputs n a w = .ok (x, y) w := by
  unfold Rule.twoInputs
  rw [run_bind_ok (r := [x, y]) (u := w) (hl ▸ rfl)]
  rfl

theorem twoInputs_fail {n : NodeId} {w : Workspace} (hl : (w.heap.node n).links.inputs.length ≠ 2) (a : Ambient) :
    Rule.twoInputs n a w = .error (.misuse .wrongCount) w := by
  unfold Rule.twoInputs
  rw [run_bind_ok (r := (w.heap.node n).links.inputs) (u := w) rfl]
  generalize (w.heap.node n).links.inputs = inputs at hl
  match inputs, hl with
  | [], _ => rfl
  | [_], _ => rfl
  | [_, _], hl => exact absurd rfl hl
  | _ :: _ :: _ :: _, _ => rfl

theorem input_run {n : NodeId} {position : Int} {i : Nat} {w : Workspace} {inputs : List Value} {v : Value}
    (hl : (w.heap.node n).links.inputs = inputs) (hp : Datum.place inputs.length position = .ok i)
    (hv : inputs[i]? = some v) (a : Ambient) : Rule.input n position a w = .ok v w := by
  unfold Rule.input
  rw [run_bind_ok (r := inputs) (u := w) (hl ▸ rfl), pick_run, hp]
  simp only [hv, Option.getD_some]

theorem mul_eq_rule : Rule.mul = rule mul := by
  funext n grads a w
  rw [rule_apply]
  unfold Rule.mul mul Outline.of
  -- the rule takes its two inputs at once, the recipe fetches them one after the other
  by_cases hc : (w.heap.node n).links.inputs.length = 2
  · obtain ⟨x, y, hl⟩ := List.length_eq_two.mp hc
    rw [run_bind_ok (twoInputs_pair hl a), if_pos hc]
    simp only [run, run_derive, Operand.eval]
    rw [run_bind_ok (input_run hl (i := 0) rfl rfl a), run_bind_ok (input_run hl (i := 1) rfl rfl a)]
    rfl
  · rw [run_bind_error (twoInputs_fail hc a), if_neg hc]
    rfl

theorem div_eq_rule : Rule.div = rule div := by
  funext n grads a w
  rw [rule_apply]
  unfold Rule.div div Outline.of
  by_cases hc : (w.heap.node n).links.inputs.length = 2
  · obtain ⟨x, y, hl⟩ := List.length_eq_two.mp hc
    rw [run_bind_ok (twoInputs_pair hl a), if_pos hc]
    simp only [run, run_derive, Operand.eval]
    rw [run_bind_ok (input_run hl (i := 1) rfl rfl a)]
    rfl
  · rw [run_bind_error (twoInputs_fail hc a), if_neg hc]
    rfl

theorem run_fetchAll_gradients (n : NodeId) (rest : Recipe) (a : Ambient) (w : Workspace) {grads : List Value} :
    ∀ {ks : List Nat} (vs : List Value), (∀ k ∈ ks, k < grads.length) →
      run n grads (fetchAll (ks.map fun k : Nat => .gradient k) rest) vs a w =
        run n grads rest (vs ++ ks.map fun k => (grads[k]?).getD .null) a w
  | [], vs, _ => by simp [fetchAll]
  | k :: ks, vs, hks => by
    rw [List.map_cons, fetchAll, List.foldr_cons, run]
    rw [run_bind_ok (r := (grads[k]?).getD .null) (u := w)]
    · have ih := run_fetchAll_gradients n rest a w (vs ++ [(grads[k]?).getD .null])
        fun k' hk' => hks k' (List.mem_cons_of_mem _ hk')
      rw [List.append_assoc] at ih
      exact ih
    · rw [Operand.eval, pick_run, place_nat (hks k (by simp))]

theorem select_range (grads : List Value) :
    ((List.range grads.length).map fun k => (grads[k]?).getD .null) = grads := by
  refine List.ext_getElem? fun k => ?_
  by_cases hk : k < grads.length <;> simp [hk]

theorem split_eq_rule : Rule.split = rule split := by
  funext n grads a w
  rw [rule_apply]
  unfold Rule.split split Outline.of
  dsimp only
  rw [run_fetchAll_gradients n _ a w [] fun k hk => List.mem_range.mp hk, select_range, List.nil_append, run_derive]
  unfold select
  rw [select_range]
  refine run_bind_congr fun v w' _ => ?_
  rw [run]
  simp [select]

def builtins : List (String × (Outline → Recipe)) :=
  [("__zero__", zero), ("__ewise_sum__", sum), ("ones_like", constant), ("zeros_like", constant), ("copy", copy),
   ("negative", negative), ("exp", exp), ("log", log), ("relu", relu), ("relu_backward", reluBackward),
   ("elemwise_add", add), ("elemwise_sub", sub), ("elemwise_mul", mul), ("elemwise_div", div), ("split", split),
   ("concatenate", concatenate)]

end Recipe

namespace RuleBook

/-- A book in which every rule is a recipe for one operator and applies wherever that operator does. -/
def Follows (book : RuleBook) (recipes : List (String × (Outline → Recipe))) : Prop :=
  List.Forall₂ (fun q s => q.2.implementation.rule = some (Recipe.rule s.2) ∧
    q.2.args = [("op", .text s.1), ("name", .text "default")] ∧
    q.2.implementation.applies = .always (.ok (.bool true))) book recipes

theorem builtins_follows : builtins.Follows Recipe.builtins := by
  unfold Follows builtins aggregation elementwise builtin Recipe.builtins
  simp only [List.cons_append, List.nil_append, List.forall₂_cons, and_true, List.forall₂_nil_left_iff,
    Option.some.injEq]
  exact ⟨Recipe.zero_eq_rule, Recipe.sum_eq_rule, Recipe.constant_eq_rule, Recipe.constant_eq_rule, Recipe.copy_eq_rule,
    Recipe.negative_eq_rule, Recipe.exp_eq_rule, Recipe.log_eq_rule, Recipe.relu_eq_rule, Recipe.reluBackward_eq_rule,
    Recipe.add_eq_rule, Recipe.sub_eq_rule, Recipe.mul_eq_rule, Recipe.div_eq_rule, Recipe.split_eq_rule,
    Recipe.concatenate_eq_rule⟩

end RuleBook

end Backprop
