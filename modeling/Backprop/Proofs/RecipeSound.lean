import Backprop.Proofs.Denotation
import Backprop.Proofs.Recipe
import Backprop.Proofs.SlotSound
import Mathlib.Tactic.FinCases

/-!
# What recipes build

Recipes and rules made of expressions only add nodes, and so does the standard
aggregator. What a recipe builds has the value that the recipe says
(`Recipe.denote`): if a recipe has values for its operands, following it
succeeds, and the entries it gives have the values it gives.
-/

namespace Backprop

/-! ## Rules only add nodes -/

section Respects
variable {R : Workspace → Workspace → Prop} [Build.Permissive R]

theorem Rule.respects_pick (items : List Value) (position : Int) : Build.Respects R (Rule.pick items position) :=
  (Build.respects_ofExcept _).bind fun _ => Build.respects_pure _

theorem Rule.respects_input (n : NodeId) (position : Int) : Build.Respects R (Rule.input n position) :=
  (Build.respects_heap.bind fun _ => Build.respects_pure _).bind fun _ => Rule.respects_pick _ _

theorem Rule.respects_output (n : NodeId) (index : Int) : Build.Respects R (Rule.output n index) :=
  (Build.respects_entry n index).bind fun _ => Build.respects_pure _

theorem Operand.respects_eval (n : NodeId) (grads : List Value) (operand : Operand) :
    Build.Respects R (operand.eval n grads) := by
  cases operand with
  | gradient position => exact Rule.respects_pick grads position
  | input position => exact Rule.respects_input n position
  | output index => exact Rule.respects_output n index

namespace Recipe

theorem respects_create (n : NodeId) (name : Option (String → String)) (op : String) (attrs : Ledger String Datum)
    (args : List Value) (deps : List NodeId) : Build.Respects R (create n name op attrs args deps) :=
  Build.respects_heap.bind fun _ => Build.respects_apply _ _ _ _ _

theorem respects_outputOf (v : Value) (index : Int) : Build.Respects R (outputOf v index) := by
  cases v with
  | node n => exact Rule.respects_output n index
  | data d => exact Build.respects_throw _
  | entry e => exact Build.respects_throw _
  | list l => exact Build.respects_throw _
  | object o => exact Build.respects_throw _

theorem respects_run (n : NodeId) (grads : List Value) (recipe : Recipe) :
    ∀ vs, Build.Respects R (run n grads recipe vs) := by
  induction recipe with
  | fail e => exact fun _ => Build.respects_throw e
  | give results => exact fun _ => Build.respects_pure _
  | spread name op attrs args =>
    exact fun _ => (respects_create _ _ _ _ _ _).bind fun _ => Build.respects_heap.bind fun _ => Build.respects_pure _
  | fetch operand rest ih => exact fun _ => (operand.respects_eval n grads).bind fun _ => ih _
  | make name op attrs args rest ih =>
    exact fun _ => (respects_create _ _ _ _ _ _).bind fun _ => (Rule.respects_output _ _).bind fun _ => ih _
  | node name op attrs args deps rest ih => exact fun _ => (respects_create _ _ _ _ _ _).bind fun _ => ih _
  | entry position index rest ih => exact fun _ => (respects_outputOf _ _).bind fun _ => ih _

theorem respects_rule (scheme : Outline → Recipe) (n : NodeId) (grads : List Value) :
    Build.Respects R (rule scheme n grads) := Build.respects_heap.bind fun _ => respects_run _ _ _ _

end Recipe

namespace RuleExpr

mutual

theorem respects_eval (n : NodeId) (grads : List Value) : ∀ expr : RuleExpr, Build.Respects R (expr.eval n grads)
  | gradient position => by rw [eval]; exact Rule.respects_pick grads position
  | input position => by rw [eval]; exact Rule.respects_input n position
  | output index => by rw [eval]; exact Rule.respects_output n index
  | made op args deps name index => by
    rw [eval]
    exact (respects_evalAll n grads args).bind fun _ => (respects_evalAll n grads deps).bind fun _ =>
      Build.respects_heap.bind fun _ => (Build.respects_apply _ _ _ _ _).bind fun _ => Rule.respects_output _ _
  | nodeOf expr => by
    rw [eval]
    refine (respects_eval n grads expr).bind fun v => ?_
    cases v with
    | entry e => exact Build.respects_pure _
    | data d => exact Build.respects_throw _
    | node n => exact Build.respects_throw _
    | list l => exact Build.respects_throw _
    | object o => exact Build.respects_throw _
  | value d => by rw [eval]; exact Build.respects_pure _

theorem respects_evalAll (n : NodeId) (grads : List Value) :
    ∀ exprs : List RuleExpr, Build.Respects R (evalAll n grads exprs)
  | [] => by rw [evalAll]; exact Build.respects_pure _
  | expr :: rest => by
    rw [evalAll]
    exact (respects_eval n grads expr).bind fun _ => (respects_evalAll n grads rest).bind fun _ => Build.respects_pure _

end

theorem respects_rule (exprs : List RuleExpr) (n : NodeId) (grads : List Value) :
    Build.Respects R (rule exprs n grads) := respects_evalAll n grads exprs

end RuleExpr

end Respects

/-- Rules that build their results from gradients, inputs and outputs by applying operators. -/
def Rule.Formed (rule : Rule) : Prop :=
  (∃ scheme, rule = Recipe.rule scheme) ∨ ∃ exprs, rule = RuleExpr.rule exprs

/-- Two outputs of one new node, the other way round. -/
example : Rule.Formed (fun _ grads => do
    let parts ← Build.apply (.text "split") [← Rule.pick grads 0] none [] []
    return [← Rule.output parts 1, ← Rule.output parts 0]) :=
  .inl ⟨fun _ => .fetch (.gradient 0) (.node none "split" [] [0] [] (.entry 1 1 (.entry 1 0 (.give [2, 3])))), rfl⟩

def RuleBook.Formed (book : RuleBook) : Prop :=
  ∀ q ∈ book, ∀ rule, q.2.implementation.rule = some rule → rule.Formed

theorem RuleBook.Formed.grows {book : RuleBook} (hb : book.Formed) : book.Grows := by
  intro q hq rule hr n grads
  obtain ⟨scheme, rfl⟩ | ⟨exprs, rfl⟩ := hb q hq rule hr
  · exact Recipe.respects_rule scheme n grads
  · exact RuleExpr.respects_rule exprs n grads

theorem Build.respects_aggregate {R : Workspace → Workspace → Prop} [Build.Permissive R] (grads : List Value) :
    Build.Respects R (Build.aggregate grads) := by
  have hunnamed : ∀ path inputs, Build.Respects R (do
      Build.unnamed (← Build.operator (← Build.setting path)) inputs) := fun path inputs =>
    (Build.respects_setting path).bind fun _ => (Build.respects_operator _).bind fun _ =>
      (Build.respects_create _ _).bind fun _ => Build.respects_entry _ _
  cases grads with
  | nil => exact (hunnamed _ _).bind fun _ => Build.respects_pure _
  | cons grad rest =>
    cases rest with
    | nil => exact Build.respects_pure grad
    | cons => exact (hunnamed _ _).bind fun _ => Build.respects_pure _

theorem Aggregator.standard_proper : Aggregator.standard.Proper where
  grows grads := Build.respects_aggregate grads
  returns grads a w w' v h := by
    replace h : Build.aggregate (grads.map .entry) a w = .ok v w' := h
    match grads with
    | [] =>
      obtain ⟨e, w₁, -, h⟩ := ok_of_bind h
      cases h
      exact ⟨e, rfl⟩
    | [grad] => cases h; exact ⟨grad, rfl⟩
    | _ :: _ :: _ =>
      obtain ⟨e, w₁, -, h⟩ := ok_of_bind h
      cases h
      exact ⟨e, rfl⟩

/-! ## What sessions start with -/

structure Ambient.Standard (a : Ambient) : Prop where
  ops : ∀ op ∈ builtinOps, a.ops.find op.name = .ok op
  zero : a.profile.get ["autodiff", "zero_op"] = .ok (.text "__zero__")
  sum : a.profile.get ["autodiff", "sum_op"] = .ok (.text "__ewise_sum__")
  verbose : ∃ b, a.profile.getFlag ["debugprint"] = .ok b

/-- What a session starts with where there are no files and no variables to read settings from. -/
def Ambient.initial : Ambient :=
  { ops := .builtin, profile := { settings := ({ schema := Settings.builtinSchema } : Settings).fillDefaults.1 } }

theorem Settings.keysOf_debugprint : Settings.keysOf ["debugprint"] = ["debugprint"] := by
  simp +decide [Settings.keysOf, String.splitOn, String.splitOnAux]

theorem Ambient.initial_quiet : Ambient.initial.profile.getFlag ["debugprint"] = .ok false := by
  simp only [Profile.getFlag, Settings.getFlag, Settings.get, Settings.keysOf_debugprint]
  rfl

theorem Ambient.initial_standard : Ambient.initial.Standard where
  ops op hop := by fin_cases hop <;> rfl
  zero := rfl
  sum := rfl
  verbose := ⟨false, Ambient.initial_quiet⟩

/-! ## Books of recipes -/

namespace RuleBook.Follows
variable {book : RuleBook} {recipes : List (String × (Outline → Recipe))}

theorem formed (h : book.Follows recipes) : book.Formed := by
  induction h with
  | nil => intro q hq; cases hq
  | cons hq _ ih =>
    intro q' hq' rule hr
    rcases List.mem_cons.mp hq' with rfl | hq'
    · rw [hq.1] at hr
      exact .inl ⟨_, (Option.some.inj hr).symm⟩
    · exact ih q' hq' rule hr

theorem grows (h : book.Follows recipes) : book.Grows := h.formed.grows

theorem candidates (h : book.Follows recipes) (op : String) (n : NodeId) (node : Node) :
    ∃ found, RuleBook.candidates op n node book = .ok found ∧ (∀ c ∈ found, c.1 = .text "default") ∧
      found.map (fun c => c.2.rule) = (recipes.filter fun s => s.1 == op).map fun s => some (Recipe.rule s.2) := by
  induction h with
  | nil => exact ⟨[], rfl, by simp, rfl⟩
  | @cons q s book recipes hq _ ih =>
    obtain ⟨found, hfound, hnames, hrules⟩ := ih
    obtain ⟨path, r⟩ := q
    obtain ⟨hrule, hargs, happlies⟩ := hq
    have hname : Ledger.get? r.args "name" = some (.text "default") := by rw [hargs]; rfl
    have hfor : isFor r op = (s.1 == op) := by
      unfold isFor
      rw [hargs]
      exact Datum.same.eq_def _ _
    have hholds : r.implementation.applies.holds n node = .ok true := by rw [happlies]; rfl
    rw [RuleBook.candidates, hname]
    simp only [hfor, hholds, hfound]
    by_cases ho : (s.1 == op) = true
    · refine ⟨(.text "default", r.implementation) :: found, by rw [if_pos ho]; rfl, ?_, ?_⟩
      · simpa using hnames
      · rw [List.filter_cons_of_pos (by simpa using ho), List.map_cons, List.map_cons, hrules, hrule]
    · refine ⟨found, by rw [if_neg ho], hnames, ?_⟩
      rw [List.filter_cons_of_neg (by simpa using ho), hrules]

/-- Whatever a node asks for, it gets the first recipe for its operator. -/
theorem lookup (h : book.Follows recipes) {node : Node} {op : Op} {s : String × (Outline → Recipe)} (n : NodeId)
    (hop : node.op = some op) (hs : recipes.find? (fun s => s.1 == op.name) = some s) :
    ∃ i, book.lookup n node = .ok (some i) ∧ i.rule = some (Recipe.rule s.2) := by
  obtain ⟨found, hfound, hnames, hrules⟩ := h.candidates op.name n node
  have hhead : found.head?.map (fun c => c.2.rule) = some (some (Recipe.rule s.2)) := by
    rw [← List.head?_map, hrules, List.head?_map, List.head?_filter, hs]
    rfl
  obtain ⟨c, hc, hrule⟩ := Option.map_eq_some_iff.mp hhead
  obtain ⟨rest, rfl⟩ := List.head?_eq_some_iff.mp hc
  refine ⟨c.2, ?_, hrule⟩
  unfold RuleBook.lookup
  rw [hop]
  simp only [hfound, Except.map, List.head?_cons, Option.map_some]
  -- all recipes have the same name, so a preference is for the first of them or for none
  have hpreferred : preferred (wanted node) (c :: rest) = none ∨ preferred (wanted node) (c :: rest) = some c.2 := by
    unfold preferred
    split
    · cases hf : (c :: rest).find? fun c => c.1.same (wanted node) with
      | none => exact .inl rfl
      | some c' =>
        have hsame : c.1.same (wanted node) = true := by
          have := List.find?_some hf
          rw [hnames c' (List.mem_of_find?_eq_some hf)] at this
          rw [hnames c (by simp)]
          exact this
        simp only [List.find?_cons, hsame] at hf
        cases hf
        exact .inr rfl
    · exact .inl rfl
  rcases hpreferred with hp | hp <;> rw [hp] <;> rfl

end RuleBook.Follows

/-! ## The values that a recipe gives -/

universe u

section Shows
variable {V : Type u} [Nonempty V] (I : Interpretation V) (ρ : NodeId → V)

structure Heap.Shows (h : Heap) (e : Entry) (v : V) : Prop where
  grounded : h.Grounded e.node
  value_eq : h.value I ρ e = v

variable {I ρ} {h h' : Heap}

theorem Heap.Shows.grows {e : Entry} {v : V} (hs : h.Shows I ρ e v) (hg : h.GrowsTo h') : h'.Shows I ρ e v :=
  ⟨hs.grounded.grows hg, (Heap.value_grows hg hs.grounded).trans hs.value_eq⟩

theorem Heap.shows_all_grows {es : List Entry} {vs : List V} (hs : List.Forall₂ (h.Shows I ρ) es vs)
    (hg : h.GrowsTo h') : List.Forall₂ (h'.Shows I ρ) es vs := hs.imp fun _ _ he => he.grows hg

theorem Heap.map_value_of_shows {es : List Entry} {vs : List V} (hs : List.Forall₂ (h.Shows I ρ) es vs) :
    es.map (h.value I ρ) = vs := by
  induction hs with
  | nil => rfl
  | cons he _ ih => rw [List.map_cons, he.value_eq, ih]

theorem Heap.grounded_of_shows {es : List Entry} {vs : List V} (hs : List.Forall₂ (h.Shows I ρ) es vs) :
    ∀ e ∈ es, h.Grounded e.node := by
  induction hs with
  | nil => simp
  | cons he _ ih => exact List.forall_mem_cons.mpr ⟨he.grounded, ih⟩

theorem Heap.Applies.shows {n : NodeId} {op : Op} {attrs : Ledger String Datum} {es : List Entry} {vs : List V}
    (ha : h.Applies n op attrs es) (hs : List.Forall₂ (h.Shows I ρ) es vs) (i : Nat) :
    h.Shows I ρ ⟨n, i⟩ (I op attrs vs i) := by
  have hn : h.Grounded n := .intro ha.has (by rw [ha.inputs_eq]; exact Heap.grounded_of_shows hs)
  refine ⟨hn, ?_⟩
  rw [Heap.value_apply (e := ⟨n, i⟩) hn ha.op_eq]
  simp only [ha.attrs_eq, ha.inputs_eq, Heap.map_value_of_shows hs]

end Shows

structure Start (V : Type u) where
  gradients : List V
  inputs : List V
  outputs : List V

section Denote
variable {V : Type u} (find : String → Except Fault Op) (I : Interpretation V) (s : Start V)

def Operand.denote : Operand → Option V
  | gradient position => (Datum.place s.gradients.length position).toOption.bind fun i => s.gradients[i]?
  | input position => (Datum.place s.inputs.length position).toOption.bind fun i => s.inputs[i]?
  | output index => if 0 ≤ index then s.outputs[index.toNat]? else none

def Recipe.applied (op : String) (args : List Nat) (vs : List V) : Option (Op × List V) :=
  match find op, args.mapM fun k => vs[k]? with
  | .ok op, some args => if op.accepts args.length then some (op, args) else none
  | _, _ => none

/-- The values of the results, if all that the recipe needs is there. A node has no value, so a recipe with one among
its operands has none. -/
def Recipe.denote : Recipe → List V → Option (List V)
  | fail _, _ => none
  | give results, vs => results.mapM fun k => vs[k]?
  | spread _ op attrs args, vs =>
    (applied find op args vs).map fun q => (List.range q.1.outputs.toNat).map (I q.1 attrs q.2)
  | fetch operand rest, vs => (operand.denote s).bind fun v => denote rest (vs ++ [v])
  | make _ op attrs args rest, vs =>
    (applied find op args vs).bind fun q =>
      if 0 < q.1.outputs then denote rest (vs ++ [I q.1 attrs q.2 0]) else none
  | node .., _ | entry .., _ => none

end Denote

section Ready
variable {V : Type u} [Nonempty V] (I : Interpretation V) (ρ : NodeId → V)

/-- A node to which a recipe can be applied: what it fetches shows the values that the recipe starts from. -/
structure Ready (h : Heap) (n : NodeId) (gs : List Entry) (s : Start V) : Prop where
  has : h.Has n
  strays : (h.node n).strays = none
  gradients : List.Forall₂ (h.Shows I ρ) gs s.gradients
  inputs : List.Forall₂ (h.Shows I ρ) (h.node n).inputs s.inputs
  outputs : ∀ (i : Nat) (v : V), s.outputs[i]? = some v → (i : Int) < h.outputs n ∧ h.Shows I ρ ⟨n, i⟩ v

variable {I ρ} {h h' : Heap} {n : NodeId} {gs : List Entry} {s : Start V}

theorem Ready.grows (hr : Ready I ρ h n gs s) (hg : h.GrowsTo h') : Ready I ρ h' n gs s where
  has := hg.has hr.has
  strays := by rw [hg.node_eq n hr.has]; exact hr.strays
  gradients := Heap.shows_all_grows hr.gradients hg
  inputs := by rw [hg.node_eq n hr.has]; exact Heap.shows_all_grows hr.inputs hg
  outputs i v hi := by
    obtain ⟨hlt, hv⟩ := hr.outputs i v hi
    exact ⟨by rw [hg.outputs_eq hr.has]; exact hlt, hv.grows hg⟩

theorem Node.links_inputs {node : Node} (hs : node.strays = none) : node.links.inputs = node.inputs.map .entry := by
  simp [Node.links, hs]

theorem pick_shows {es : List Entry} {vs : List V} {position : Int} {v : V} {w : Workspace}
    (hs : List.Forall₂ (w.heap.Shows I ρ) es vs)
    (hv : ((Datum.place vs.length position).toOption.bind fun i => vs[i]?) = some v) (a : Ambient) :
    ∃ e, Rule.pick (es.map .entry) position a w = .ok (.entry e) w ∧ w.heap.Shows I ρ e v := by
  obtain ⟨i, hp, hi⟩ := Option.bind_eq_some_iff.mp hv
  have hplace : Datum.place vs.length position = .ok i := by
    cases hd : Datum.place vs.length position with
    | ok j => rw [hd] at hp; cases hp; rfl
    | error e => rw [hd] at hp; cases hp
  obtain ⟨hlt, rfl⟩ := List.getElem?_eq_some_iff.mp hi
  have hlt' : i < es.length := hs.length_eq ▸ hlt
  refine ⟨es[i], ?_, hs.get hlt' hlt⟩
  rw [Recipe.pick_run, List.length_map, hs.length_eq, hplace]
  simp [hlt']

theorem Operand.denote_eval {operand : Operand} {v : V} {w : Workspace} (hr : Ready I ρ w.heap n gs s)
    (hv : operand.denote s = some v) (a : Ambient) :
    ∃ e, operand.eval n (gs.map .entry) a w = .ok (.entry e) w ∧ w.heap.Shows I ρ e v := by
  cases operand with
  | gradient position => exact pick_shows hr.gradients hv a
  | input position =>
    rw [eval, Rule.input, run_bind_ok (r := (w.heap.node n).links.inputs) (u := w) rfl, Node.links_inputs hr.strays]
    exact pick_shows hr.inputs hv a
  | output index =>
    rw [denote] at hv
    split at hv
    · next hpos =>
      obtain ⟨hlt, hshows⟩ := hr.outputs _ _ hv
      refine ⟨⟨n, index.toNat⟩, ?_, hshows⟩
      have hrange : ¬ (index < 0 ∨ (w.heap.node n).outputs ≤ index) := by
        unfold Heap.outputs at hlt
        omega
      rw [eval, Rule.output, run_bind_ok (r := ⟨n, index.toNat⟩) (u := w)]
      · rfl
      · show Build.ofExcept (w.heap.entry n index) a w = _
        unfold Heap.entry
        simp only [if_neg hrange]
        rfl
    · cases hv

namespace Recipe

theorem select_shows {es : List Entry} {vs : List V} (hs : List.Forall₂ (h.Shows I ρ) es vs) :
    ∀ {ks : List Nat} {xs : List V}, (ks.mapM fun k => vs[k]?) = some xs →
      ∃ es', select (es.map .entry) ks = es'.map .entry ∧ List.Forall₂ (h.Shows I ρ) es' xs
  | [], xs, hx => by
    cases hx
    exact ⟨[], rfl, .nil⟩
  | k :: ks, xs, hx => by
    rw [List.mapM_cons] at hx
    obtain ⟨x, hk, hx⟩ := Option.bind_eq_some_iff.mp hx
    obtain ⟨xs, hks, hx⟩ := Option.bind_eq_some_iff.mp hx
    cases hx
    obtain ⟨es', hsel, hshows⟩ := select_shows hs hks
    obtain ⟨hlt, rfl⟩ := List.getElem?_eq_some_iff.mp hk
    have hlt' : k < es.length := hs.length_eq ▸ hlt
    refine ⟨es[k] :: es', ?_, .cons (hs.get hlt' hlt) hshows⟩
    unfold select at hsel ⊢
    rw [List.map_cons, hsel, List.map_cons]
    simp [hlt']

theorem create_shows {a : Ambient} {w : Workspace} {op : String} {args : List Nat} {es : List Entry} {vs xs : List V}
    {o : Op} (hs : List.Forall₂ (w.heap.Shows I ρ) es vs) (happ : applied a.ops.find op args vs = some (o, xs))
    (n : NodeId) (name : Option (String → String)) (attrs : Ledger String Datum) :
    ∃ made w', create n name op attrs (select (es.map .entry) args) [] a w = .ok made w' ∧ w.heap.GrowsTo w'.heap ∧
      ∃ es', w'.heap.Applies made o attrs es' ∧ List.Forall₂ (w'.heap.Shows I ρ) es' xs := by
  unfold applied at happ
  split at happ
  · next o' xs' hop hargs =>
    split at happ
    · next hc =>
      cases happ
      obtain ⟨es', hsel, hshows⟩ := select_shows hs hargs
      rw [← hshows.length_eq] at hc
      unfold create
      rw [run_bind_ok (r := w.heap) (u := w) rfl, hsel]
      obtain ⟨made, w', hrun, hg, happlies⟩ :=
        Build.apply_run hop hc (name.map fun f => f (w.heap.node n).name) attrs w
      exact ⟨made, w', hrun, hg, es', happlies, Heap.shows_all_grows hshows hg⟩
    · cases happ
  · cases happ

/-- Following a recipe succeeds wherever it has values, and gives entries with these values. -/
theorem denote_run {a : Ambient} (recipe : Recipe) : ∀ {w : Workspace} (es : List Entry) {vs rs : List V},
    Ready I ρ w.heap n gs s → List.Forall₂ (w.heap.Shows I ρ) es vs → denote a.ops.find I s recipe vs = some rs →
    ∃ es' w', run n (gs.map .entry) recipe (es.map .entry) a w = .ok (es'.map .entry) w' ∧
      w.heap.GrowsTo w'.heap ∧ List.Forall₂ (w'.heap.Shows I ρ) es' rs := by
  induction recipe with
  | fail e => intro w es vs rs _ _ hd; cases hd
  | give results =>
    intro w es vs rs _ hs hd
    obtain ⟨es', hsel, hshows⟩ := select_shows hs hd
    exact ⟨es', w, by rw [run, hsel]; rfl, .refl _, hshows⟩
  | spread name op attrs args =>
    intro w es vs rs _ hs hd
    obtain ⟨⟨o, xs⟩, happ, rfl⟩ := Option.map_eq_some_iff.mp hd
    obtain ⟨made, w', hrun, hg, es', happlies, hshows⟩ := create_shows hs happ n name attrs
    refine ⟨w'.heap.entries made, w', ?_, hg, ?_⟩
    · rw [run, run_bind_ok hrun]
      rfl
    · unfold Heap.entries Heap.outputs Node.outputs
      rw [happlies.op_eq, List.forall₂_map_left_iff, List.forall₂_map_right_iff]
      exact List.forall₂_same.mpr fun i _ => happlies.shows hshows i
  | fetch operand rest ih =>
    intro w es vs rs hr hs hd
    obtain ⟨v, hv, hd⟩ := Option.bind_eq_some_iff.mp hd
    obtain ⟨e, hrun, hshows⟩ := operand.denote_eval hr hv a
    obtain ⟨es', w', hrest, hg, hrs⟩ := ih (es ++ [e]) hr (List.rel_append hs (.cons hshows .nil)) hd
    refine ⟨es', w', ?_, hg, hrs⟩
    rw [run, run_bind_ok hrun]
    rw [List.map_append] at hrest
    exact hrest
  | make name op attrs args rest ih =>
    intro w es vs rs hr hs hd
    obtain ⟨⟨o, xs⟩, happ, hd⟩ := Option.bind_eq_some_iff.mp hd
    split at hd
    · next hout =>
      obtain ⟨made, w₁, hrun, hg, es₁, happlies, hshows⟩ := create_shows hs happ n name attrs
      have hmade : Rule.output made 0 a w₁ = .ok (.entry ⟨made, 0⟩) w₁ := by
        rw [Rule.output, run_bind_ok (Build.entry_run happlies hout a)]
        rfl
      obtain ⟨es', w', hrest, hg', hrs⟩ := ih (es ++ [⟨made, 0⟩]) (hr.grows hg)
        (List.rel_append (Heap.shows_all_grows hs hg) (.cons (happlies.shows hshows 0) .nil)) hd
      refine ⟨es', w', ?_, hg.trans hg', hrs⟩
      rw [run, run_bind_ok hrun, run_bind_ok hmade]
      rw [List.map_append] at hrest
      exact hrest
    · cases hd
  | node name op attrs args deps rest ih => intro w es vs rs _ _ hd; cases hd
  | entry position index rest ih => intro w es vs rs _ _ hd; cases hd

theorem denote_rule {a : Ambient} {w : Workspace} {scheme : Outline → Recipe} {rs : List V}
    (hr : Ready I ρ w.heap n gs s)
    (hd : denote a.ops.find I s (scheme (.of (w.heap.node n) gs.length)) [] = some rs) :
    ∃ es w', rule scheme n (gs.map .entry) a w = .ok (es.map .entry) w' ∧ w.heap.GrowsTo w'.heap ∧
      List.Forall₂ (w'.heap.Shows I ρ) es rs := by
  rw [rule_apply, List.length_map]
  exact denote_run _ [] hr .nil hd

end Recipe

end Ready

end Backprop
