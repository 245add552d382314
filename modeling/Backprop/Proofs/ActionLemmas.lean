import Backprop.Gradient.Differentiate
import Backprop.Proofs.TraversalSound
import Mathlib.Data.List.Nodup
import Mathlib.Data.List.TakeWhile

/-!
# Running actions

Building and sweeping are the same kind of action over different states. Three
judgements follow a run without unfolding the monad: `Ends` says how one run
can end, `Coupled` compares two runs, and `Grows` says that an action only adds
nodes. Each has a rule for composition, so what a function does is derived from
what the functions it calls do.
-/

namespace Backprop

/-- An action over a state, of which `Build` and `Sweeping` are instances. -/
abbrev Action (σ α : Type) := ReaderT Ambient (EStateM Fault σ) α

section Run
variable {σ τ α β γ δ : Type}

theorem run_bind (x : Action σ α) (f : α → Action σ β) (a : Ambient) (s : σ) :
    (x >>= f) a s = match x a s with
      | .ok r s' => f r a s'
      | .error e s' => .error e s' := by
  show EStateM.bind (x a) (fun r => f r a) s = _
  unfold EStateM.bind
  cases x a s <;> rfl

@[simp] theorem run_pure (r : α) (a : Ambient) (s : σ) : (pure r : Action σ α) a s = .ok r s := rfl

@[simp] theorem run_throw (e : Fault) (a : Ambient) (s : σ) : (throw e : Action σ α) a s = .error e s := rfl

theorem run_bind_ok {x : Action σ α} {f : α → Action σ β} {a : Ambient} {s u : σ} {r : α} (hx : x a s = .ok r u) :
    (x >>= f) a s = f r a u := by
  rw [run_bind, hx]

theorem run_bind_error {x : Action σ α} {f : α → Action σ β} {a : Ambient} {s s' : σ} {e : Fault}
    (hx : x a s = .error e s') : (x >>= f) a s = .error e s' := by
  rw [run_bind, hx]

theorem run_bind_congr {x : Action σ α} {f g : α → Action σ β} {a : Ambient} {s : σ}
    (h : ∀ r s', x a s = .ok r s' → f r a s' = g r a s') : (x >>= f) a s = (x >>= g) a s := by
  rw [run_bind, run_bind]
  cases hx : x a s with
  | ok r s' => exact h r s' hx
  | error e s' => rfl

theorem ok_of_bind {x : Action σ α} {f : α → Action σ β} {a : Ambient} {s s' : σ} {q : β}
    (h : (x >>= f) a s = .ok q s') : ∃ r s₁, x a s = .ok r s₁ ∧ f r a s₁ = .ok q s' := by
  rw [run_bind] at h
  cases hx : x a s with
  | ok r s₁ => rw [hx] at h; exact ⟨r, s₁, rfl, h⟩
  | error e s₁ => rw [hx] at h; cases h

theorem error_of_bind {x : Action σ α} {f : α → Action σ β} {a : Ambient} {s s' : σ} {e : Fault}
    (h : (x >>= f) a s = .error e s') : x a s = .error e s' ∨ ∃ r s₁, x a s = .ok r s₁ ∧ f r a s₁ = .error e s' := by
  rw [run_bind] at h
  cases hx : x a s with
  | ok r s₁ => rw [hx] at h; exact .inr ⟨r, s₁, rfl, h⟩
  | error f s₁ => rw [hx] at h; cases h; exact .inl rfl

instance (result : EStateM.Result Fault σ α) : Decidable (∃ r s, result = .ok r s) :=
  match result with
  | .ok r s => .isTrue ⟨r, s, rfl⟩
  | .error _ _ => .isFalse fun ⟨_, _, h⟩ => nomatch h

/-! ## How a run ends -/

def Ends (x : Action σ α) (a : Ambient) (s : σ) (Q : α → σ → Prop) (E : Fault → Prop) : Prop :=
  match x a s with
  | .ok r s' => Q r s'
  | .error e _ => E e

namespace Ends
variable {x : Action σ α} {f : α → Action σ β} {a : Ambient} {s s' u : σ} {r : α} {e : Fault} {P P' : α → σ → Prop}
  {Q : β → σ → Prop} {E E' : Fault → Prop}

theorem bind (hx : Ends x a s P E) (hf : ∀ r s', P r s' → Ends (f r) a s' Q E) : Ends (x >>= f) a s Q E := by
  unfold Ends at hx ⊢
  rw [run_bind]
  cases h : x a s with
  | ok r s' => rw [h] at hx; exact hf r s' hx
  | error e s' => rw [h] at hx; exact hx

theorem step (hx : x a s = .ok r u) (hf : Ends (f r) a u Q E) : Ends (x >>= f) a s Q E := by
  unfold Ends at hf ⊢
  rw [run_bind_ok hx]
  exact hf

theorem of_error (hx : x a s = .error e u) (he : E e) : Ends x a s P E := by
  unfold Ends
  rw [hx]
  exact he

theorem fail (hx : x a s = .error e u) (he : E e) : Ends (x >>= f) a s Q E := of_error (run_bind_error hx) he

theorem mono (hx : Ends x a s P E) (hp : ∀ r s', P r s' → P' r s') (he : ∀ e, E e → E' e) : Ends x a s P' E' := by
  unfold Ends at hx ⊢
  cases h : x a s with
  | ok r s' => rw [h] at hx; exact hp r s' hx
  | error e s' => rw [h] at hx; exact he e hx

theorem ok (h : Ends x a s P E) (hx : x a s = .ok r s') : P r s' := by
  unfold Ends at h; rw [hx] at h; exact h

theorem error (h : Ends x a s P E) (hx : x a s = .error e s') : E e := by
  unfold Ends at h; rw [hx] at h; exact h

theorem succeeds (h : Ends x a s P fun _ => False) : ∃ r s', x a s = .ok r s' ∧ P r s' := by
  unfold Ends at h
  cases hx : x a s with
  | ok r s' => rw [hx] at h; exact ⟨r, s', rfl, h⟩
  | error e s' => rw [hx] at h; exact h.elim

end Ends

/-! ## Two runs side by side -/

def Coupled (x : Action σ α) (y : Action τ β) (a : Ambient) (s : σ) (t : τ) (Q : α → σ → β → τ → Prop)
    (E : Fault → σ → Fault → τ → Prop) : Prop :=
  match x a s, y a t with
  | .ok r s', .ok q t' => Q r s' q t'
  | .error e s', .error f t' => E e s' f t'
  | _, _ => False

namespace Coupled
variable {x : Action σ α} {y : Action τ β} {a : Ambient} {s s' : σ} {t t' : τ} {r : α} {q : β} {c d : Fault}
  {P P' : α → σ → β → τ → Prop} {E E' : Fault → σ → Fault → τ → Prop}

theorem of_ok (hx : x a s = .ok r s') (hy : y a t = .ok q t') (hp : P r s' q t') : Coupled x y a s t P E := by
  unfold Coupled; rw [hx, hy]; exact hp

theorem of_error (hx : x a s = .error c s') (hy : y a t = .error d t') (he : E c s' d t') :
    Coupled x y a s t P E := by
  unfold Coupled; rw [hx, hy]; exact he

theorem mono (h : Coupled x y a s t P E) (hp : ∀ r s' q t', P r s' q t' → P' r s' q t')
    (he : ∀ c s' d t', E c s' d t' → E' c s' d t') : Coupled x y a s t P' E' := by
  unfold Coupled at h ⊢
  cases hx : x a s <;> cases hy : y a t <;> rw [hx, hy] at h
  · exact hp _ _ _ _ h
  · exact h.elim
  · exact h.elim
  · exact he _ _ _ _ h

section Bind
variable {f : α → Action σ γ} {g : β → Action τ δ}

theorem bind {Q : γ → σ → δ → τ → Prop} (hxy : Coupled x y a s t P E)
    (hfg : ∀ r s' q t', P r s' q t' → Coupled (f r) (g q) a s' t' Q E) : Coupled (x >>= f) (y >>= g) a s t Q E := by
  unfold Coupled at hxy ⊢
  rw [run_bind, run_bind]
  cases hx : x a s <;> cases hy : y a t <;> rw [hx, hy] at hxy
  · exact hfg _ _ _ _ hxy
  · exact hxy.elim
  · exact hxy.elim
  · exact hxy

theorem left {Q : γ → σ → β → τ → Prop} (hx : x a s = .ok r s') (h : Coupled (f r) y a s' t Q E) :
    Coupled (x >>= f) y a s t Q E := by
  unfold Coupled at h ⊢
  rw [run_bind_ok hx]
  exact h

theorem right {Q : α → σ → δ → τ → Prop} (hy : y a t = .ok q t') (h : Coupled x (g q) a s t' Q E) :
    Coupled x (y >>= g) a s t Q E := by
  unfold Coupled at h ⊢
  rw [run_bind_ok hy]
  exact h

end Bind

theorem ok_left (h : Coupled x y a s t P E) (hx : x a s = .ok r s') : ∃ q t', y a t = .ok q t' ∧ P r s' q t' := by
  unfold Coupled at h
  rw [hx] at h
  cases hy : y a t with
  | ok q t' => rw [hy] at h; exact ⟨q, t', rfl, h⟩
  | error e t' => rw [hy] at h; exact h.elim

theorem ok_right (h : Coupled x y a s t P E) (hy : y a t = .ok q t') : ∃ r s', x a s = .ok r s' ∧ P r s' q t' := by
  unfold Coupled at h
  rw [hy] at h
  cases hx : x a s with
  | ok r s' => rw [hx] at h; exact ⟨r, s', rfl, h⟩
  | error e s' => rw [hx] at h; exact h.elim

theorem error_left (h : Coupled x y a s t P E) (hx : x a s = .error c s') :
    ∃ d t', y a t = .error d t' ∧ E c s' d t' := by
  unfold Coupled at h
  rw [hx] at h
  cases hy : y a t with
  | ok q t' => rw [hy] at h; exact h.elim
  | error d t' => rw [hy] at h; exact ⟨d, t', rfl, h⟩

theorem error_right (h : Coupled x y a s t P E) (hy : y a t = .error d t') : ∃ c s', x a s = .error c s' ∧ E c s' d t' := by
  unfold Coupled at h
  rw [hy] at h
  cases hx : x a s with
  | ok r s' => rw [hx] at h; exact h.elim
  | error c s' => rw [hx] at h; exact ⟨c, s', rfl, h⟩

end Coupled

end Run

/-! ## Heaps that grow -/

structure Heap.GrowsTo (h h' : Heap) : Prop where
  size_le : h.size ≤ h'.size
  node_eq : ∀ n, h.Has n → h'.node n = h.node n

namespace Heap

theorem GrowsTo.refl (h : Heap) : h.GrowsTo h := ⟨Nat.le_refl _, fun _ _ => rfl⟩

theorem GrowsTo.has {h h' : Heap} (g : h.GrowsTo h') {n : NodeId} (hn : h.Has n) : h'.Has n :=
  Nat.lt_of_lt_of_le hn g.size_le

theorem GrowsTo.trans {h h' h'' : Heap} (g : h.GrowsTo h') (g' : h'.GrowsTo h'') : h.GrowsTo h'' :=
  ⟨Nat.le_trans g.size_le g'.size_le, fun n hn => (g'.node_eq n (g.has hn)).trans (g.node_eq n hn)⟩

theorem GrowsTo.outputs_eq {h h' : Heap} (g : h.GrowsTo h') {n : NodeId} (hn : h.Has n) :
    h'.outputs n = h.outputs n := by
  unfold outputs; rw [g.node_eq n hn]

theorem HasEntry.grows {h h' : Heap} {e : Entry} (he : h.HasEntry e) (g : h.GrowsTo h') : h'.HasEntry e :=
  ⟨g.has he.1, by rw [g.outputs_eq he.1]; exact he.2⟩

theorem GrowsTo.entries_eq {h h' : Heap} (g : h.GrowsTo h') {n : NodeId} (hn : h.Has n) :
    h'.entries n = h.entries n := by
  unfold entries; rw [g.outputs_eq hn]

theorem mem_entries {h : Heap} {n : NodeId} {e : Entry} :
    e ∈ h.entries n ↔ e.node = n ∧ (e.index : Int) < h.outputs n := by
  unfold entries
  rw [List.mem_map]
  constructor
  · rintro ⟨i, hi, rfl⟩
    exact ⟨rfl, by have := List.mem_range.mp hi; simp only; omega⟩
  · rintro ⟨rfl, hi⟩
    exact ⟨e.index, List.mem_range.mpr (by omega), rfl⟩

theorem nodup_entries (h : Heap) (n : NodeId) : (h.entries n).Nodup :=
  List.Nodup.map (fun i j hij => by injection hij) List.nodup_range

theorem growsTo_push (h : Heap) (node : Node) : h.GrowsTo (h.push node).2 :=
  ⟨by simp, fun _ hn => node_push_of_lt hn⟩

theorem growsTo_create (h : Heap) (name : Option String) (node : Node) : h.GrowsTo (h.create name node).2 := by
  cases name with
  | some name => exact growsTo_push h _
  | none =>
    have g := growsTo_push (h.freshName (Node.stem node.op)).2
      { node with name := (h.freshName (Node.stem node.op)).1 }
    exact ⟨g.size_le, g.node_eq⟩

end Heap

namespace Build

variable {α β : Type}

def Respects (R : Workspace → Workspace → Prop) (act : Build α) : Prop :=
  ∀ a w, Ends act a w (fun _ w' => R w w') fun _ => True

/-- The relation allows what building does by itself: to make nodes and to write to the log. -/
class Permissive (R : Workspace → Workspace → Prop) : Prop where
  refl : ∀ w, R w w
  trans : ∀ {w w' w''}, R w w' → R w' w'' → R w w''
  log : ∀ w level source text, R w { w with trace := w.trace.push (.log level source text) }
  create : ∀ w name node, R w { w with heap := (w.heap.create name node).2 }

section Respects
variable {R : Workspace → Workspace → Prop}

theorem Respects.ok {act : Build α} (hr : Respects R act) {a : Ambient} {w w' : Workspace} {r : α}
    (h : act a w = .ok r w') : R w w' := (hr a w).ok h

theorem respects_throw (e : Fault) : Respects R (throw e : Build α) := fun _ _ => trivial

variable [Permissive R]

theorem respects_pure (r : α) : Respects R (pure r) := fun _ w => Permissive.refl w

theorem Respects.bind {act : Build α} {f : α → Build β} (hr : Respects R act) (hf : ∀ r, Respects R (f r)) :
    Respects R (act >>= f) := fun a w =>
  (hr a w).bind fun r w' hw => (hf r a w').mono (fun _ _ hw' => Permissive.trans hw hw') fun _ _ => trivial

theorem respects_ofExcept (x : Except Fault α) : Respects R (ofExcept x) := by
  cases x with
  | ok r => exact respects_pure r
  | error e => exact respects_throw e

theorem respects_heap : Respects R heap := fun _ w => Permissive.refl w

theorem respects_read : Respects R (read : Build Ambient) := fun _ w => Permissive.refl w

theorem respects_log (level : Level) (source text : String) : Respects R (log level source text) :=
  fun _ w => Permissive.log w level source text

theorem respects_setting (path : List String) : Respects R (setting path) :=
  respects_read.bind fun _ => respects_ofExcept _

theorem respects_flag (path : List String) : Respects R (flag path) := respects_read.bind fun _ => respects_ofExcept _

theorem respects_operator (name : Datum) : Respects R (operator name) := by
  unfold operator
  split
  · exact respects_read.bind fun _ => respects_ofExcept _
  · split
    · exact respects_throw _
    · exact respects_throw _

theorem respects_create (name : Option String) (node : Node) : Respects R (create name node) :=
  fun _ w => Permissive.create w name node

theorem respects_entry (n : NodeId) (index : Int) : Respects R (entry n index) :=
  respects_heap.bind fun _ => respects_ofExcept _

theorem respects_applyOp (op : Op) (inputs : List Entry) (name : Option String) (deps : List Value)
    (attrs : Ledger String Datum) : Respects R (applyOp op inputs name deps attrs) := by
  unfold applyOp
  split
  · exact respects_create _ _
  · exact respects_throw _

theorem respects_apply (op : Datum) (inputs : List Value) (name : Option String) (deps : List Value)
    (attrs : Ledger String Datum) : Respects R (apply op inputs name deps attrs) :=
  (respects_operator op).bind fun _ => respects_heap.bind fun _ => (respects_ofExcept _).bind fun _ =>
    respects_applyOp _ _ _ _ _

end Respects

def Grows (act : Build α) : Prop :=
  ∀ a w, Ends act a w (fun _ w' => w.heap.GrowsTo w'.heap) fun _ => True

instance : Permissive fun w w' => w.heap.GrowsTo w'.heap where
  refl w := .refl w.heap
  trans := .trans
  log w _ _ _ := .refl w.heap
  create w name node := w.heap.growsTo_create name node

theorem Grows.ok {act : Build α} (hg : Grows act) {a : Ambient} {w w' : Workspace} {r : α} (h : act a w = .ok r w') :
    w.heap.GrowsTo w'.heap := Respects.ok hg h

theorem Grows.bind {act : Build α} {f : α → Build β} (hg : Grows act) (hf : ∀ r, Grows (f r)) : Grows (act >>= f) :=
  Respects.bind hg hf

theorem grows_emit (event : Event) : Grows (emit event) := fun _ w => .refl w.heap

theorem grows_log (level : Level) (source text : String) : Grows (log level source text) := grows_emit _

theorem grows_flag (path : List String) : Grows (flag path) := respects_flag path

end Build

/-! ## Nodes that are made -/

theorem Value.itemsToEntries_map_entry (h : Heap) : ∀ es : List Entry, itemsToEntries h (es.map .entry) = .ok es
  | [] => rfl
  | e :: es => by
    rw [List.map_cons, itemsToEntries, itemsToEntries_map_entry h es]
    rfl

structure Heap.Applies (h : Heap) (n : NodeId) (op : Op) (attrs : Ledger String Datum) (es : List Entry) : Prop where
  has : h.Has n
  op_eq : (h.node n).op = some op
  attrs_eq : (h.node n).attrs = attrs
  inputs_eq : (h.node n).inputs = es
  strays_eq : (h.node n).strays = none

theorem Heap.Applies.grows {h h' : Heap} {n : NodeId} {op : Op} {attrs : Ledger String Datum} {es : List Entry}
    (ha : h.Applies n op attrs es) (hg : h.GrowsTo h') : h'.Applies n op attrs es := by
  have heq := hg.node_eq n ha.has
  exact ⟨hg.has ha.has, heq ▸ ha.op_eq, heq ▸ ha.attrs_eq, heq ▸ ha.inputs_eq, heq ▸ ha.strays_eq⟩

theorem Links.entries_map_entry (es : List Entry) (deps : List Value) :
    Links.entries ⟨es.map .entry, deps⟩ = es := by
  unfold Links.entries
  rw [List.takeWhile_eq_self_iff.mpr, List.filterMap_map]
  · exact List.filterMap_some
  · intro v hv
    obtain ⟨e, -, rfl⟩ := List.mem_map.mp hv
    rfl

theorem Links.strayInput?_map_entry (es : List Entry) (deps : List Value) :
    Links.strayInput? ⟨es.map .entry, deps⟩ = none := by
  rw [strayInput?, List.find?_eq_none]
  intro v hv
  obtain ⟨e, -, rfl⟩ := List.mem_map.mp hv
  simp [Value.entry?]

theorem Links.strayDep?_map_node (inputs : List Value) (ds : List NodeId) :
    Links.strayDep? ⟨inputs, ds.map .node⟩ = none := by
  rw [strayDep?, List.find?_eq_none]
  intro v hv
  obtain ⟨d, -, rfl⟩ := List.mem_map.mp hv
  simp [Value.node?]

theorem Links.nodes_map_node (es : List Entry) (ds : List NodeId) :
    Links.nodes ⟨es.map .entry, ds.map .node⟩ = ds := by
  simp only [nodes, strayInput?_map_entry, Option.isNone_none, if_true]
  induction ds with
  | nil => rfl
  | cons d ds ih => simpa [Value.node?] using ih

theorem Links.isProper_map_entry (es : List Entry) (ds : List NodeId) :
    Links.isProper ⟨es.map .entry, ds.map .node⟩ = true := by
  simp [isProper, strayInput?_map_entry, strayDep?_map_node]

theorem Node.withLinks_map_node (node : Node) (es : List Entry) (ds : List NodeId) :
    node.withLinks ⟨es.map .entry, ds.map .node⟩ = { node with inputs := es, deps := ds, strays := none } := by
  unfold withLinks
  rw [Links.entries_map_entry, Links.isProper_map_entry, Links.nodes_map_node]
  rfl

theorem Node.withLinks_map_entry (node : Node) (es : List Entry) :
    node.withLinks ⟨es.map .entry, []⟩ = { node with inputs := es, deps := [], strays := none } :=
  node.withLinks_map_node es []

theorem Heap.create_eq (h : Heap) (name : Option String) (node : Node) :
    (h.create name node).1 = ⟨h.size⟩ ∧ (h.create name node).2.Has ⟨h.size⟩ ∧
      ∃ text, (h.create name node).2.node ⟨h.size⟩ = { node with name := text } := by
  cases name with
  | some name => exact ⟨rfl, by simp [create, Has, size, push], name, h.node_push_self _⟩
  | none =>
    have hself := (h.freshName (Node.stem node.op)).2.node_push_self
      { node with name := (h.freshName (Node.stem node.op)).1 }
    exact ⟨rfl, by simp [create, Has, size, push, freshName], _, hself⟩

namespace Build

theorem create_run (op : Op) (attrs : Ledger String Datum) (name : Option String) (es : List Entry) (ds : List NodeId)
    (a : Ambient) (w : Workspace) :
    ∃ n w', create name (Node.withLinks { op := some op, attrs } ⟨es.map .entry, ds.map .node⟩) a w = .ok n w' ∧
      w.heap.GrowsTo w'.heap ∧ w'.heap.Applies n op attrs es := by
  rw [Node.withLinks_map_node]
  let node : Node := { op := some op, attrs, inputs := es, deps := ds }
  obtain ⟨hid, hhas, text, hnode⟩ := w.heap.create_eq name node
  refine ⟨⟨w.heap.size⟩, { w with heap := (w.heap.create name node).2 }, ?_, w.heap.growsTo_create name node, ?_⟩
  · rw [← hid]
    rfl
  exact ⟨hhas, by rw [hnode], by rw [hnode], by rw [hnode], by rw [hnode]⟩

theorem entry_run {n : NodeId} {op : Op} {attrs : Ledger String Datum} {es : List Entry} {w : Workspace}
    (hn : w.heap.Applies n op attrs es) (hout : 0 < op.outputs) (a : Ambient) : entry n 0 a w = .ok ⟨n, 0⟩ w := by
  have houtputs : (w.heap.node n).outputs = op.outputs := by simp [Node.outputs, hn.op_eq]
  have hrange : ¬ ((0 : Int) < 0 ∨ (w.heap.node n).outputs ≤ 0) := by omega
  show ofExcept (w.heap.entry n 0) a w = _
  unfold Heap.entry
  simp only [if_neg hrange]
  rfl

theorem apply_run {op : Op} {name : String} {es : List Entry} {a : Ambient} (hop : a.ops.find name = .ok op)
    (hc : op.accepts es.length = true) (label : Option String) (attrs : Ledger String Datum) (w : Workspace) :
    ∃ n w', apply (.text name) (es.map .entry) label [] attrs a w = .ok n w' ∧ w.heap.GrowsTo w'.heap ∧
      w'.heap.Applies n op attrs es := by
  unfold apply
  rw [run_bind_ok (r := op) (u := w) (by show ofExcept (a.ops.find name) a w = _; rw [hop]; rfl),
    run_bind_ok (r := w.heap) (u := w) rfl, Value.itemsToEntries_map_entry, run_bind_ok (r := es) (u := w) rfl]
  unfold applyOp
  rw [if_pos hc]
  exact create_run op attrs label es [] a w

end Build

end Backprop
