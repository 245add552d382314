import Backprop.Proofs.RecipeSound

/-!
# What actions make

A policy says which entries may be read from and which nodes may be made. An
action keeps to it (`Policy.Leads`) if it has only added such nodes, each of
which refers to earlier ones, however the action ends: a failed action keeps
what it has made, so what it made before it failed counts too.
-/

namespace Backprop

/-! ## References -/

inductive Value.Refers (m : NodeId) : Value → Prop
  | node : Refers m (.node m)
  | entry {e : Entry} (he : e.node = m) : Refers m (.entry e)
  | list {v : Value} {items : List Value} (hv : v ∈ items) (hm : Refers m v) : Refers m (.list items)

/-- The node reads from the other or waits for it; strays count. -/
def Node.Refers (node : Node) (m : NodeId) : Prop :=
  m ∈ node.predecessors ∨ ∃ l, node.strays = some l ∧ ∃ v ∈ l.inputs ++ l.deps, v.Refers m

def Heap.count (h : Heap) (stem : String) : Nat := (Ledger.get? h.counters stem).getD 0

theorem Heap.count_create (h : Heap) (name : Option String) (node : Node) (stem : String) :
    h.count stem ≤ (h.create name node).2.count stem := by
  cases name with
  | some name => exact Nat.le_refl _
  | none =>
    show h.count stem ≤ (Ledger.get? (Ledger.put h.counters (Node.stem node.op)
      (h.count (Node.stem node.op) + 1)) stem).getD 0
    by_cases hs : stem = Node.stem node.op
    · subst hs
      rw [Ledger.get?_put_self]
      exact Nat.le_succ _
    · rw [Ledger.get?_put_ne _ _ hs]
      exact Nat.le_refl _

theorem Heap.size_create (h : Heap) (name : Option String) (node : Node) : (h.create name node).2.size = h.size + 1 := by
  cases name <;> simp [create, push, size, freshName]

theorem Heap.has_create {h : Heap} {name : Option String} {node : Node} {n : NodeId}
    (hn : (h.create name node).2.Has n) : h.Has n ∨ n = ⟨h.size⟩ := by
  unfold Has at hn ⊢
  rw [size_create] at hn
  rcases Nat.lt_succ_iff_lt_or_eq.mp hn with hlt | heq
  · exact .inl hlt
  · exact .inr (by cases n; cases heq; rfl)

/-! ## Policies -/

/-- Which entries of a heap may be read from, and which nodes may be made. -/
structure Policy where
  reads : Heap → Entry → Prop
  makes : Node → Prop
  has : ∀ {h e}, reads h e → h.Has e.node
  grows : ∀ {h h' e}, h.GrowsTo h' → reads h e → reads h' e
  /-- An output that is there may be read. -/
  output : ∀ {h n i e}, h.Has n → h.entry n i = .ok e → reads h e
  /-- What may be read of a node may be read of another with the same operator. -/
  image : ∀ {h e n}, reads h e → h.Has n → (h.node n).op = (h.node e.node).op → reads h ⟨n, e.index⟩
  /-- Neither the name of a node nor the places it refers to matter. -/
  copy : ∀ {node : Node} {name : String} {inputs : List Entry} {deps : List NodeId}, makes node →
    inputs.length = node.inputs.length → makes { node with name, inputs, deps }

inductive Value.Within (P : Policy) (h : Heap) : Value → Prop
  | data (d : Datum) : Within P h (.data d)
  | node {n : NodeId} (hn : h.Has n) : Within P h (.node n)
  | entry {e : Entry} (he : P.reads h e) : Within P h (.entry e)
  | list {items : List Value} (hi : ∀ v ∈ items, Within P h v) : Within P h (.list items)
  | object (o : Object) : Within P h (.object o)

structure Node.Within (P : Policy) (h : Heap) (node : Node) : Prop where
  inputs : ∀ e ∈ node.inputs, P.reads h e
  deps : ∀ d ∈ node.deps, h.Has d
  strays : ∀ l, node.strays = some l → ∀ v ∈ l.inputs ++ l.deps, v.Within P h

section Within
variable {P : Policy} {h h' : Heap}

theorem Value.Within.grows {v : Value} (hv : v.Within P h) (hg : h.GrowsTo h') : v.Within P h' := by
  induction hv with
  | data d => exact .data d
  | node hn => exact .node (hg.has hn)
  | entry he => exact .entry (P.grows hg he)
  | list _ ih => exact .list ih
  | object o => exact .object o

theorem Value.Within.has {v : Value} (hv : v.Within P h) {m : NodeId} (hm : v.Refers m) : h.Has m := by
  induction hm with
  | node => cases hv with | node hn => exact hn
  | entry he => cases hv with | entry hr => exact he ▸ P.has hr
  | list hmem _ ih => cases hv with | list hi => exact ih (hi _ hmem)

theorem Node.Within.grows {node : Node} (hn : node.Within P h) (hg : h.GrowsTo h') : node.Within P h' where
  inputs e he := P.grows hg (hn.inputs e he)
  deps d hd := hg.has (hn.deps d hd)
  strays l hl v hv := (hn.strays l hl v hv).grows hg

theorem Node.Within.has {node : Node} (hn : node.Within P h) {m : NodeId} (hm : node.Refers m) : h.Has m := by
  rcases hm with hm | ⟨l, hl, v, hv, hm⟩
  · rcases List.mem_append.mp hm with hi | hd
    · obtain ⟨e, he, rfl⟩ := List.mem_map.mp hi
      exact P.has (hn.inputs e he)
    · exact hn.deps m hd
  · exact (hn.strays l hl v hv).has hm

theorem Node.Within.links {node : Node} (hn : node.Within P h) : ∀ v ∈ node.links.inputs, v.Within P h := by
  intro v hv
  unfold Node.links at hv
  cases hs : node.strays with
  | some l =>
    rw [hs] at hv
    exact hn.strays l hs v (List.mem_append_left _ hv)
  | none =>
    rw [hs] at hv
    obtain ⟨e, he, rfl⟩ := List.mem_map.mp hv
    exact .entry (hn.inputs e he)

theorem Value.Within.items {v : Value} (hv : v.Within P h) {items : List Value} (hi : v.items = .ok items) :
    ∀ u ∈ items, u.Within P h := by
  intro u hu
  cases hv with
  | node hn => cases hi
  | object o => cases hi
  | list hall => cases hi; exact hall u hu
  | entry he =>
    cases hi
    rcases List.mem_pair.mp hu with rfl | rfl
    · exact .node (P.has he)
    · exact .data _
  | data d =>
    cases d with
    | list ds =>
      cases hi
      obtain ⟨d, -, rfl⟩ := List.mem_map.mp hu
      exact .data d
    | text s =>
      cases hi
      obtain ⟨c, -, rfl⟩ := List.mem_map.mp hu
      exact .data _
    | dict entries =>
      cases hi
      obtain ⟨q, -, rfl⟩ := List.mem_map.mp hu
      exact .data _
    | _ => cases hi

theorem Value.has_of_producers {vs : List Value} (hvs : ∀ v ∈ vs, v.Within P h) :
    ∀ d ∈ vs.filterMap Value.producer?, h.Has d := by
  intro d hd
  obtain ⟨v, hv, hp⟩ := List.mem_filterMap.mp hd
  cases hvs v hv with
  | node hn => cases hp; exact hn
  | entry he => cases hp; exact P.has he
  | data d => cases hp
  | list hi => cases hp
  | object o => cases hp

theorem Value.Within.toEntry {v : Value} (hv : v.Within P h) {e : Entry} (he : v.toEntry h = .ok e) : P.reads h e := by
  cases hv with
  | data d => cases he
  | node hn => exact P.output hn he
  | entry hr => cases he; exact hr
  | list hi => cases he
  | object o => cases he

theorem Value.reads_of_itemsToEntries : ∀ {vs : List Value} {es : List Entry}, (∀ v ∈ vs, v.Within P h) →
    Value.itemsToEntries h vs = .ok es → ∀ e ∈ es, P.reads h e
  | [], es, _, he, e, hmem => by cases he; cases hmem
  | v :: vs, es, hv, he, e, hmem => by
    rw [Value.itemsToEntries] at he
    cases hone : v.toEntry h with
    | error fault => rw [hone] at he; cases he
    | ok e₁ =>
      rw [hone] at he
      cases hrest : Value.itemsToEntries h vs with
      | error fault => rw [hrest] at he; cases he
      | ok es₁ =>
        rw [hrest] at he
        cases he
        rcases List.mem_cons.mp hmem with rfl | hmem
        · exact (hv v (by simp)).toEntry hone
        · exact reads_of_itemsToEntries (fun u hu => hv u (List.mem_cons_of_mem _ hu)) hrest e hmem

theorem Value.Within.toEntries {v : Value} (hv : v.Within P h) {es : List Entry} (he : v.toEntries h = .ok es) :
    ∀ e ∈ es, P.reads h e := by
  cases hv with
  | node hn =>
    cases hone : Value.toEntry h (.node _) with
    | error fault => rw [Value.toEntries, hone] at he; cases he
    | ok e =>
      rw [Value.toEntries, hone] at he
      cases he
      exact List.forall_mem_singleton.mpr (P.output hn hone)
  | entry hr =>
    cases he
    exact List.forall_mem_singleton.mpr hr
  | list hi => exact Value.reads_of_itemsToEntries hi he
  | object o => cases he
  | data d =>
    cases hitems : Value.items (.data d) with
    | error fault => simp only [Value.toEntries, hitems] at he; cases he
    | ok items =>
      simp only [Value.toEntries, hitems] at he
      exact Value.reads_of_itemsToEntries (Value.Within.items (.data d) hitems) he

end Within

namespace Policy
variable (P : Policy)

def Governs (h : Heap) : Prop := ∀ n, h.Has n → P.makes (h.node n) ∧ (h.node n).Within P h

/-- The second heap has the nodes of the first, unchanged, and further ones that refer to earlier nodes. -/
structure Extends (h h' : Heap) : Prop where
  grows : h.GrowsTo h'
  counts : ∀ stem, h.count stem ≤ h'.count stem
  made : ∀ n, h'.Has n → ¬ h.Has n → P.makes (h'.node n) ∧ (h'.node n).Within P h' ∧
    ∀ m, (h'.node n).Refers m → m.index < n.index

variable {P} {h h' h'' : Heap}

theorem Extends.refl (h : Heap) : P.Extends h h :=
  ⟨.refl h, fun _ => Nat.le_refl _, fun _ hn hno => absurd hn hno⟩

theorem Extends.trans (hx : P.Extends h h') (hx' : P.Extends h' h'') : P.Extends h h'' where
  grows := hx.grows.trans hx'.grows
  counts stem := Nat.le_trans (hx.counts stem) (hx'.counts stem)
  made n hn hno := by
    by_cases hn' : h'.Has n
    · rw [hx'.grows.node_eq n hn']
      obtain ⟨hm, hw, he⟩ := hx.made n hn' hno
      exact ⟨hm, hw.grows hx'.grows, he⟩
    · exact hx'.made n hn hn'

theorem Governs.extends (hg : P.Governs h) (hx : P.Extends h h') : P.Governs h' := by
  intro n hn
  by_cases hno : h.Has n
  · rw [hx.grows.node_eq n hno]
    exact ⟨(hg n hno).1, (hg n hno).2.grows hx.grows⟩
  · obtain ⟨hm, hw, -⟩ := hx.made n hn hno
    exact ⟨hm, hw⟩

theorem extends_create {node : Node} (hm : P.makes node) (hw : node.Within P h) (name : Option String) :
    P.Extends h (h.create name node).2 := by
  have hgrows := h.growsTo_create name node
  refine ⟨hgrows, h.count_create name node, fun n hn hno => ?_⟩
  obtain rfl := (Heap.has_create hn).resolve_left hno
  obtain ⟨-, -, text, hnode⟩ := h.create_eq name node
  rw [hnode]
  exact ⟨P.copy hm rfl, ⟨(hw.grows hgrows).1, (hw.grows hgrows).2, (hw.grows hgrows).3⟩, fun m hr => hw.has hr⟩

/-! ## Actions that keep to a policy -/

/-- However the run ends, the heap has been extended; if it succeeds, the outcome is as in `Q`. -/
def Leads {σ α : Type} (P : Policy) (top : σ → Heap) (x : Action σ α) (a : Ambient) (s : σ) (Q : α → σ → Prop) : Prop :=
  match x a s with
  | .ok r s' => P.Extends (top s) (top s') ∧ Q r s'
  | .error _ s' => P.Extends (top s) (top s')

abbrev Makes {α : Type} (P : Policy) (x : Build α) (a : Ambient) (w : Workspace) (Q : α → Heap → Prop) : Prop :=
  P.Leads Workspace.heap x a w fun r w' => Q r w'.heap

namespace Leads
variable {σ α β : Type} {top : σ → Heap} {x : Action σ α} {f : α → Action σ β} {a : Ambient} {s u : σ} {r : α}
  {Q Q' : α → σ → Prop} {R : β → σ → Prop}

theorem of_ok (hx : x a s = .ok r u) (ht : top u = top s) (hq : Q r u) : P.Leads top x a s Q := by
  unfold Leads
  rw [hx]
  exact ⟨ht ▸ .refl _, hq⟩

theorem of_error {e : Fault} (hx : x a s = .error e u) (ht : top u = top s) : P.Leads top x a s Q := by
  unfold Leads
  rw [hx]
  exact ht ▸ .refl _

theorem pure (hq : Q r s) : P.Leads top (pure r) a s Q := .of_ok rfl rfl hq

theorem throw (e : Fault) : P.Leads top (throw e : Action σ α) a s Q := .of_error rfl rfl

theorem bind (hx : P.Leads top x a s Q)
    (hf : ∀ r u, P.Extends (top s) (top u) → Q r u → P.Leads top (f r) a u R) : P.Leads top (x >>= f) a s R := by
  unfold Leads at hx ⊢
  rw [run_bind]
  cases h : x a s with
  | error e u => rw [h] at hx; exact hx
  | ok r u =>
    rw [h] at hx
    have hrest := hf r u hx.1 hx.2
    unfold Leads at hrest
    simp only
    cases h' : f r a u with
    | ok q v => rw [h'] at hrest; exact ⟨hx.1.trans hrest.1, hrest.2⟩
    | error e v => rw [h'] at hrest; exact hx.1.trans hrest

theorem step (hx : x a s = .ok r u) (ht : top u = top s) (hf : P.Leads top (f r) a u R) : P.Leads top (x >>= f) a s R :=
  .bind (Q := fun r' u' => r' = r ∧ u' = u) (.of_ok hx ht ⟨rfl, rfl⟩) (by rintro _ _ - ⟨rfl, rfl⟩; exact hf)

theorem mono (hx : P.Leads top x a s Q) (hq : ∀ r u, P.Extends (top s) (top u) → Q r u → Q' r u) :
    P.Leads top x a s Q' := by
  unfold Leads at hx ⊢
  cases h : x a s with
  | error e u => rw [h] at hx; exact hx
  | ok r u => rw [h] at hx; exact ⟨hx.1, hq r u hx.1 hx.2⟩

theorem ok (hx : P.Leads top x a s Q) (hrun : x a s = .ok r u) : P.Extends (top s) (top u) ∧ Q r u := by
  unfold Leads at hx
  rw [hrun] at hx
  exact hx

end Leads

section Build
variable {α : Type} {a : Ambient} {w : Workspace}

theorem makes_ofExcept (x : Except Fault α) : P.Makes (Build.ofExcept x) a w fun r h => x = .ok r ∧ h = w.heap := by
  cases x with
  | ok r => exact .pure ⟨rfl, rfl⟩
  | error e => exact .throw e

theorem makes_setting (path : List String) :
    P.Makes (Build.setting path) a w fun d h => a.profile.get path = .ok d ∧ h = w.heap := makes_ofExcept _

theorem makes_log (level : Level) (source text : String) :
    P.Makes (Build.log level source text) a w fun _ h => h = w.heap := .of_ok rfl rfl rfl

theorem makes_operator (name : Datum) : P.Makes (Build.operator name) a w fun op h =>
    (∃ text, name = .text text ∧ a.ops.find text = .ok op) ∧ h = w.heap := by
  unfold Build.operator
  split
  · next t => exact (makes_ofExcept (a.ops.find t)).mono fun op w' _ h => ⟨⟨t, rfl, h.1⟩, h.2⟩
  · split
    · exact .throw _
    · exact .throw _

theorem makes_create {node : Node} (hm : P.makes node) (hw : node.Within P w.heap) (name : Option String) :
    P.Makes (Build.create name node) a w fun n h => h.Has n ∧ (h.node n).op = node.op := by
  obtain ⟨hid, hhas, text, hnode⟩ := w.heap.create_eq name node
  refine ⟨extends_create hm hw name, ?_⟩
  show (w.heap.create name node).2.Has (w.heap.create name node).1 ∧
    ((w.heap.create name node).2.node (w.heap.create name node).1).op = node.op
  rw [hid, hnode]
  exact ⟨hhas, rfl⟩

theorem makes_entry {n : NodeId} (hn : w.heap.Has n) (index : Int) :
    P.Makes (Build.entry n index) a w fun e h => P.reads h e :=
  .step (r := w.heap) rfl rfl ((makes_ofExcept _).mono fun _ _ _ h => h.2 ▸ P.output hn h.1)

def Permits (P : Policy) (a : Ambient) (name : String) : Prop :=
  ∀ op inputs attrs, a.ops.find name = .ok op → op.accepts inputs.length = true →
    P.makes { op := some op, inputs, attrs }

theorem within_applied {op : Op} {inputs : List Entry} {deps : List NodeId} {attrs : Ledger String Datum}
    (hi : ∀ e ∈ inputs, P.reads h e) (hd : ∀ d ∈ deps, h.Has d) :
    ({ op := some op, inputs, deps, attrs } : Node).Within P h :=
  ⟨hi, hd, fun _ hl => (by cases hl)⟩

theorem makes_apply {op : Datum} (hp : ∀ text, op = .text text → P.Permits a text) {args : List Value}
    (hargs : ∀ v ∈ args, v.Within P w.heap) (name : Option String) (deps : List NodeId)
    (hdeps : ∀ d ∈ deps, w.heap.Has d) (attrs : Ledger String Datum) :
    P.Makes (Build.apply op args name (deps.map .node) attrs) a w fun n h => h.Has n := by
  refine (makes_operator op).bind fun op w₁ _ ⟨⟨text, htext, hop⟩, hw₁⟩ => .step (r := w₁.heap) rfl rfl ?_
  refine (makes_ofExcept _).bind fun inputs w₂ _ ⟨hinputs, hw₂⟩ => ?_
  rw [hw₁] at hinputs
  have hreads := Value.reads_of_itemsToEntries hargs hinputs
  unfold Build.applyOp
  split
  · next hc =>
    rw [Node.withLinks_map_node]
    have hmakes : P.makes { op := some op, inputs, deps, attrs } := P.copy (hp text htext op inputs attrs hop hc) rfl
    have hheap : w₂.heap = w.heap := hw₂.trans hw₁
    exact (makes_create hmakes (within_applied (hheap ▸ hreads) (hheap ▸ hdeps)) name).mono fun _ _ _ h => h.1
  · exact .throw _

end Build

end Policy

/-! ## Rules -/

def Rule.Keeps (P : Policy) (a : Ambient) (rule : Rule) : Prop :=
  ∀ n grads w, P.Governs w.heap → w.heap.Has n → (∀ v ∈ grads, v.Within P w.heap) →
    P.Makes (rule n grads) a w fun vs h => ∀ v ∈ vs, v.Within P h

def RuleBook.Keeps (P : Policy) (a : Ambient) (book : RuleBook) : Prop :=
  ∀ q ∈ book, ∀ rule, q.2.implementation.rule = some rule → rule.Keeps P a

section Rules
variable {P : Policy} {a : Ambient} {w : Workspace} {n : NodeId} {grads vs : List Value}

theorem Policy.reads_of_mem_entries {h : Heap} (hn : h.Has n) {e : Entry} (he : e ∈ h.entries n) : P.reads h e := by
  obtain ⟨rfl, hi⟩ := Heap.mem_entries.mp he
  have hrange : ¬ ((e.index : Int) < 0 ∨ (h.node e.node).outputs ≤ e.index) := by
    unfold Heap.outputs at hi
    omega
  refine P.output (i := e.index) hn ?_
  unfold Heap.entry
  simp only [if_neg hrange, Int.toNat_natCast]

theorem within_getElem?_getD {h : Heap} (hvs : ∀ v ∈ vs, v.Within P h) (i : Nat) :
    ((vs[i]?).getD .null).Within P h := by
  cases hi : vs[i]? with
  | none => exact .data .null
  | some v => exact hvs v (List.mem_of_getElem? hi)

theorem Rule.makes_pick (hvs : ∀ v ∈ vs, v.Within P w.heap) (position : Int) :
    P.Makes (Rule.pick vs position) a w fun v h => v.Within P h ∧ h = w.heap := by
  refine (Policy.makes_ofExcept _).bind fun i w₁ _ ⟨_, hw₁⟩ => .pure ⟨?_, hw₁⟩
  rw [hw₁]
  exact within_getElem?_getD hvs i

theorem Rule.makes_output (hn : w.heap.Has n) (index : Int) :
    P.Makes (Rule.output n index) a w fun v h => v.Within P h :=
  (Policy.makes_entry hn index).bind fun _ _ _ he => .pure (.entry he)

theorem Rule.makes_input (hg : P.Governs w.heap) (hn : w.heap.Has n) (position : Int) :
    P.Makes (Rule.input n position) a w fun v h => v.Within P h :=
  .step (r := (w.heap.node n).links.inputs) rfl rfl
    ((Rule.makes_pick (hg n hn).2.links position).mono fun _ _ _ h => h.1)

theorem Operand.makes_eval (hg : P.Governs w.heap) (hn : w.heap.Has n) (hgrads : ∀ v ∈ grads, v.Within P w.heap)
    (operand : Operand) : P.Makes (operand.eval n grads) a w fun v h => v.Within P h := by
  cases operand with
  | gradient position => exact (Rule.makes_pick hgrads position).mono fun _ _ _ h => h.1
  | input position => exact Rule.makes_input hg hn position
  | output index => exact Rule.makes_output hn index

namespace Recipe

def ops : Recipe → List String
  | fail _ => []
  | give _ => []
  | spread _ op _ _ => [op]
  | fetch _ rest => rest.ops
  | make _ op _ _ rest => op :: rest.ops
  | node _ op _ _ _ rest => op :: rest.ops
  | entry _ _ rest => rest.ops

theorem within_select {h : Heap} (hvs : ∀ v ∈ vs, v.Within P h) (ks : List Nat) :
    ∀ v ∈ select vs ks, v.Within P h := by
  intro v hv
  obtain ⟨k, -, rfl⟩ := List.mem_map.mp hv
  exact within_getElem?_getD hvs k

theorem makes_create {op : String} (hp : P.Permits a op) (hvs : ∀ v ∈ vs, v.Within P w.heap) (n : NodeId)
    (name : Option (String → String)) (attrs : Ledger String Datum) (args : List Nat) (deps : List NodeId)
    (hdeps : ∀ d ∈ deps, w.heap.Has d) :
    P.Makes (create n name op attrs (select vs args) deps) a w fun made h => h.Has made := by
  have hop : ∀ text, Datum.text op = .text text → P.Permits a text := by
    intro text htext
    cases htext
    exact hp
  exact .step (r := w.heap) rfl rfl (Policy.makes_apply hop (within_select hvs args) _ deps hdeps _)

theorem makes_outputOf {v : Value} (hv : v.Within P w.heap) (index : Int) :
    P.Makes (outputOf v index) a w fun r h => r.Within P h := by
  cases hv with
  | node hn => exact Rule.makes_output hn index
  | data d => exact .throw _
  | entry he => exact .throw _
  | list hi => exact .throw _
  | object o => exact .throw _

theorem within_concat {h h' : Heap} (hvs : ∀ v ∈ vs, v.Within P h) (hx : P.Extends h h') {v : Value}
    (hv : v.Within P h') : ∀ u ∈ vs ++ [v], u.Within P h' := by
  intro u hu
  rcases List.mem_append.mp hu with hu | hu
  · exact (hvs u hu).grows hx.grows
  · exact List.mem_singleton.mp hu ▸ hv

theorem makes_run (recipe : Recipe) : ∀ {w : Workspace} {vs : List Value}, (∀ op ∈ recipe.ops, P.Permits a op) →
    P.Governs w.heap → w.heap.Has n → (∀ v ∈ grads, v.Within P w.heap) → (∀ v ∈ vs, v.Within P w.heap) →
    P.Makes (run n grads recipe vs) a w fun rs h => ∀ v ∈ rs, v.Within P h := by
  induction recipe with
  | fail e => exact fun _ _ _ _ _ => .throw e
  | give results =>
    intro w vs _ _ _ _ hvs
    exact .pure (within_select hvs results)
  | spread name op attrs args =>
    intro w vs hp _ _ _ hvs
    refine (makes_create (hp op (by simp [ops])) hvs n name attrs args [] (by simp)).bind fun made w₁ _ hmade => ?_
    refine .step (r := w₁.heap) rfl rfl (.pure fun v hv => ?_)
    obtain ⟨e, he, rfl⟩ := List.mem_map.mp hv
    exact .entry (Policy.reads_of_mem_entries hmade he)
  | fetch operand rest ih =>
    intro w vs hp hg hn hgrads hvs
    refine (operand.makes_eval hg hn hgrads).bind fun v w₁ hx hv => ?_
    exact ih hp (hg.extends hx) (hx.grows.has hn) (fun u hu => (hgrads u hu).grows hx.grows) (within_concat hvs hx hv)
  | make name op attrs args rest ih =>
    intro w vs hp hg hn hgrads hvs
    refine (makes_create (hp op (by simp [ops])) hvs n name attrs args [] (by simp)).bind fun made w₁ hx₁ hmade => ?_
    refine (Rule.makes_output hmade 0).bind fun v w₂ hx₂ hv => ?_
    have hx := hx₁.trans hx₂
    have hp' : ∀ op ∈ rest.ops, P.Permits a op := fun op hop => hp op (by simp [ops, hop])
    exact ih hp' (hg.extends hx) (hx.grows.has hn) (fun u hu => (hgrads u hu).grows hx.grows) (within_concat hvs hx hv)
  | node name op attrs args deps rest ih =>
    intro w vs hp hg hn hgrads hvs
    have hdeps := Value.has_of_producers (within_select hvs deps)
    refine (makes_create (hp op (by simp [ops])) hvs n name attrs args _ hdeps).bind fun made w₁ hx hmade => ?_
    have hp' : ∀ op ∈ rest.ops, P.Permits a op := fun op hop => hp op (by simp [ops, hop])
    exact ih hp' (hg.extends hx) (hx.grows.has hn) (fun u hu => (hgrads u hu).grows hx.grows)
      (within_concat hvs hx (.node hmade))
  | entry position index rest ih =>
    intro w vs hp hg hn hgrads hvs
    refine (makes_outputOf (within_getElem?_getD hvs position) index).bind fun v w₁ hx hv => ?_
    exact ih hp (hg.extends hx) (hx.grows.has hn) (fun u hu => (hgrads u hu).grows hx.grows) (within_concat hvs hx hv)

theorem keeps_rule {scheme : Outline → Recipe} (hp : ∀ o, ∀ op ∈ (scheme o).ops, P.Permits a op) :
    (rule scheme).Keeps P a := by
  intro n grads w hg hn hgrads
  exact .step (r := w.heap) rfl rfl (makes_run _ (hp _) hg hn hgrads (by simp))

end Recipe

namespace RuleExpr

mutual

theorem makes_eval (ha : ∀ op, P.Permits a op) : ∀ (expr : RuleExpr) {w : Workspace}, P.Governs w.heap → w.heap.Has n →
    (∀ v ∈ grads, v.Within P w.heap) → P.Makes (expr.eval n grads) a w fun v h => v.Within P h
  | gradient position, w, _, _, hgrads => by
    rw [eval]
    exact (Rule.makes_pick hgrads position).mono fun _ _ _ h => h.1
  | input position, w, hg, hn, _ => by rw [eval]; exact Rule.makes_input hg hn position
  | output index, w, _, hn, _ => by rw [eval]; exact Rule.makes_output hn index
  | made op args deps name index, w, hg, hn, hgrads => by
    rw [eval]
    refine (makes_evalAll ha args hg hn hgrads).bind fun vs w₁ hx₁ hvs => ?_
    refine (makes_evalAll ha deps (hg.extends hx₁) (hx₁.grows.has hn)
      fun u hu => (hgrads u hu).grows hx₁.grows).bind fun ds w₂ hx₂ hds => .step (r := w₂.heap) rfl rfl ?_
    have hargs : ∀ v ∈ vs, v.Within P w₂.heap := fun v hv => (hvs v hv).grows hx₂.grows
    exact (Policy.makes_apply (fun _ _ => ha _) hargs _ _ (Value.has_of_producers hds) _).bind
      fun made w₃ _ hmade => Rule.makes_output hmade index
  | nodeOf expr, w, hg, hn, hgrads => by
    rw [eval]
    refine (makes_eval ha expr hg hn hgrads).bind fun v w₁ _ hv => ?_
    cases hv with
    | entry he => exact .pure (.node (P.has he))
    | data d => exact .throw _
    | node hn => exact .throw _
    | list hi => exact .throw _
    | object o => exact .throw _
  | value d, w, _, _, _ => by rw [eval]; exact .pure (.data d)

theorem makes_evalAll (ha : ∀ op, P.Permits a op) : ∀ (exprs : List RuleExpr) {w : Workspace}, P.Governs w.heap →
    w.heap.Has n → (∀ v ∈ grads, v.Within P w.heap) →
    P.Makes (evalAll n grads exprs) a w fun vs h => ∀ v ∈ vs, v.Within P h
  | [], w, _, _, _ => by rw [evalAll]; exact .pure (by simp)
  | expr :: rest, w, hg, hn, hgrads => by
    rw [evalAll]
    refine (makes_eval ha expr hg hn hgrads).bind fun v w₁ hx hv => ?_
    refine (makes_evalAll ha rest (hg.extends hx) (hx.grows.has hn)
      fun u hu => (hgrads u hu).grows hx.grows).bind fun vs w₂ hx₂ hvs => .pure ?_
    exact List.forall_mem_cons.mpr ⟨hv.grows hx₂.grows, hvs⟩

end

end RuleExpr

theorem RuleBook.Formed.keeps {book : RuleBook} (hb : book.Formed) (ha : ∀ op, P.Permits a op) : book.Keeps P a := by
  intro q hq rule hr
  obtain ⟨scheme, rfl⟩ | ⟨exprs, rfl⟩ := hb q hq rule hr
  · exact Recipe.keeps_rule fun _ op _ => ha op
  · exact fun n grads w hg hn hgrads => RuleExpr.makes_evalAll ha exprs hg hn hgrads

end Rules

/-! ## Aggregators -/

def Aggregator.Keeps (P : Policy) (a : Ambient) (f : Aggregator) : Prop :=
  ∀ (es : List Entry) (w : Workspace), P.Governs w.heap → (∀ e ∈ es, P.reads w.heap e) →
    P.Makes (f (es.map .entry)) a w fun v h => v.Within P h

section Aggregators
variable {P : Policy} {a : Ambient} {w : Workspace}

theorem Build.makes_unnamed {op : Op} (es : List Entry) (hm : P.makes { op := some op, inputs := es })
    (hes : ∀ e ∈ es, P.reads w.heap e) :
    P.Makes (Build.unnamed op (es.map .entry)) a w fun e h => P.reads h e := by
  unfold Build.unnamed Build.createOn
  rw [Node.withLinks_map_entry]
  exact (Policy.makes_create hm (Policy.within_applied hes (by simp)) none).bind fun n w₁ _ hn =>
    Policy.makes_entry hn.1 0

def Policy.PermitsSums (P : Policy) (a : Ambient) : Prop :=
  (∀ text op, a.profile.get ["autodiff", "zero_op"] = .ok (.text text) → a.ops.find text = .ok op →
    P.makes { op := some op }) ∧
  ∀ text op inputs, a.profile.get ["autodiff", "sum_op"] = .ok (.text text) → a.ops.find text = .ok op →
    2 ≤ inputs.length → P.makes { op := some op, inputs }

theorem Aggregator.standard_keeps (hs : P.PermitsSums a) : Aggregator.standard.Keeps P a := by
  intro es w _ hes
  show P.Makes (Build.aggregate (es.map .entry)) a w fun v h => v.Within P h
  match es with
  | [] =>
    refine .bind ((Policy.makes_setting _).bind fun d w₁ _ ⟨hd, hw₁⟩ => (Policy.makes_operator d).bind
      fun op w₂ _ ⟨⟨text, htext, hop⟩, hw₂⟩ => ?_) fun e w₃ _ he => .pure (.entry he)
    subst htext
    exact Build.makes_unnamed [] (hs.1 text op hd hop) (by simp)
  | [e] => exact .pure (.entry (hes e (by simp)))
  | e :: e' :: rest =>
    refine .bind ((Policy.makes_setting _).bind fun d w₁ _ ⟨hd, hw₁⟩ => (Policy.makes_operator d).bind
      fun op w₂ _ ⟨⟨text, htext, hop⟩, hw₂⟩ => ?_) fun e w₃ _ he => .pure (.entry he)
    subst htext
    exact Build.makes_unnamed (e :: e' :: rest) (hs.2 text op _ hd hop (by simp)) (by rw [hw₂, hw₁]; exact hes)

end Aggregators

end Backprop
