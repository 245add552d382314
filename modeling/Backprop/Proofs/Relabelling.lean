import Backprop.Proofs.Creation
import Backprop.Proofs.Likeness

/-!
# Runs on relabelled heaps

A relabelling takes nodes of one heap to nodes of another. Nodes that two runs
make later correspond in the order in which they are made. Two runs are in
lockstep if they fail together, or make corresponding nodes and have
corresponding results: names, counters and the other nodes of the two heaps
play no part.
-/

namespace Backprop

/-! ## Ledgers with corresponding keys -/

namespace Ledger
variable {κ β β' : Type} [BEq κ] [LawfulBEq κ] {K : κ → κ → Prop} {V : β → β' → Prop} {l₁ : Ledger κ β}
  {l₂ : Ledger κ β'} {k₁ k₂ : κ}

def Matches (K : κ → κ → Prop) (V : β → β' → Prop) (l₁ : Ledger κ β) (l₂ : Ledger κ β') : Prop :=
  List.Forall₂ (fun p q => K p.1 q.1 ∧ V p.2 q.2) l₁ l₂

theorem Matches.get? (hl : Matches K V l₁ l₂) (hk : ∀ a b, K a b → (a = k₁ ↔ b = k₂)) :
    Option.Rel V (get? l₁ k₁) (get? l₂ k₂) := by
  induction hl with
  | nil => exact .none
  | @cons p q _ _ hpq _ ih =>
    have hsame := hk _ _ hpq.1
    rw [get?_cons, get?_cons]
    by_cases h : p.1 = k₁
    · simp only [h, hsame.mp h, beq_self_eq_true, if_true]
      exact .some hpq.2
    · have h₂ : ¬ q.1 = k₂ := fun he => h (hsame.mpr he)
      simp only [beq_eq_false_iff_ne.mpr h, beq_eq_false_iff_ne.mpr h₂]
      exact ih

theorem Matches.put (hl : Matches K V l₁ l₂) (hk : ∀ a b, K a b → (a = k₁ ↔ b = k₂)) (hkey : K k₁ k₂) {v₁ : β}
    {v₂ : β'} (hv : V v₁ v₂) : Matches K V (put l₁ k₁ v₁) (put l₂ k₂ v₂) := by
  induction hl with
  | nil => exact .cons ⟨hkey, hv⟩ .nil
  | @cons p q _ _ hpq hrest ih =>
    obtain ⟨a, x⟩ := p
    obtain ⟨b, y⟩ := q
    have hsame := hk a b hpq.1
    rw [Ledger.put, Ledger.put]
    by_cases h : a = k₁
    · simp only [h, hsame.mp h, beq_self_eq_true, if_true]
      exact .cons ⟨hkey, hv⟩ hrest
    · have h₂ : ¬ b = k₂ := fun he => h (hsame.mpr he)
      simp only [beq_eq_false_iff_ne.mpr h, beq_eq_false_iff_ne.mpr h₂]
      exact .cons hpq ih

end Ledger

/-! ## Relabellings -/

/-- Which nodes of a heap correspond to which of another. -/
structure Relabelling where
  left : Heap
  right : Heap
  domain : NodeId → Prop
  map : NodeId → NodeId
  has : ∀ {n}, domain n → left.Has n
  has_map : ∀ {n}, domain n → right.Has (map n)
  injective : ∀ {m n}, domain m → domain n → map m = map n → m = n

namespace Relabelling
variable (r : Relabelling)

/-- The counterpart of a node; later nodes correspond in the order in which they are made. -/
def apply (n : NodeId) : NodeId :=
  if n.index < r.left.size then r.map n else ⟨n.index - r.left.size + r.right.size⟩

def Known (h : Heap) (n : NodeId) : Prop := r.domain n ∨ (h.Has n ∧ ¬ r.left.Has n)

def Twin (h : Heap) (n₁ n₂ : NodeId) : Prop := r.Known h n₁ ∧ n₂ = r.apply n₁

def TwinEntry (h : Heap) (e₁ e₂ : Entry) : Prop := e₁.index = e₂.index ∧ r.Twin h e₁.node e₂.node

structure TwinNode (h : Heap) (node₁ node₂ : Node) : Prop where
  op : node₁.op = node₂.op
  attrs : node₁.attrs = node₂.attrs
  inputs : List.Forall₂ (r.TwinEntry h) node₁.inputs node₂.inputs
  deps : List.Forall₂ (r.Twin h) node₁.deps node₂.deps
  strays₁ : node₁.strays = none
  strays₂ : node₂.strays = none

/-- The heaps have grown by the same number of nodes, and corresponding nodes are twins. -/
structure Joins (h₁ h₂ : Heap) : Prop where
  left : r.left.GrowsTo h₁
  right : r.right.GrowsTo h₂
  size : h₁.size + r.right.size = h₂.size + r.left.size
  nodes : ∀ n₁ n₂, r.Twin h₁ n₁ n₂ → r.TwinNode h₁ (h₁.node n₁) (h₂.node n₂)

variable {r} {h h' h₁ h₂ : Heap} {m₁ m₂ n₁ n₂ : NodeId}

theorem Known.grows {n : NodeId} (hn : r.Known h n) (hg : h.GrowsTo h') : r.Known h' n :=
  hn.imp_right fun ⟨hhas, hno⟩ => ⟨hg.has hhas, hno⟩

theorem Twin.grows (ht : r.Twin h n₁ n₂) (hg : h.GrowsTo h') : r.Twin h' n₁ n₂ := ⟨ht.1.grows hg, ht.2⟩

theorem TwinEntry.grows {e₁ e₂ : Entry} (ht : r.TwinEntry h e₁ e₂) (hg : h.GrowsTo h') : r.TwinEntry h' e₁ e₂ :=
  ⟨ht.1, ht.2.grows hg⟩

theorem twinEntries_grow {es₁ es₂ : List Entry} (ht : List.Forall₂ (r.TwinEntry h) es₁ es₂) (hg : h.GrowsTo h') :
    List.Forall₂ (r.TwinEntry h') es₁ es₂ := ht.imp fun _ _ he => he.grows hg

theorem TwinNode.grows {node₁ node₂ : Node} (ht : r.TwinNode h node₁ node₂) (hg : h.GrowsTo h') :
    r.TwinNode h' node₁ node₂ :=
  { ht with inputs := twinEntries_grow ht.inputs hg, deps := ht.deps.imp fun _ _ hd => hd.grows hg }

theorem apply_of_domain {n : NodeId} (hn : r.domain n) : r.apply n = r.map n := if_pos (r.has hn)

theorem apply_of_not_has {n : NodeId} (hn : ¬ r.left.Has n) :
    r.apply n = ⟨n.index - r.left.size + r.right.size⟩ := if_neg hn

theorem Twin.eq_iff (hm : r.Twin h m₁ m₂) (hn : r.Twin h n₁ n₂) : m₁ = n₁ ↔ m₂ = n₂ := by
  obtain ⟨hm, rfl⟩ := hm
  obtain ⟨hn, rfl⟩ := hn
  refine ⟨fun he => by rw [he], fun he => ?_⟩
  -- counterparts of the given nodes are in the second heap, those of later nodes are beyond its end
  rcases hm with hm | ⟨-, hm⟩
  · rw [apply_of_domain hm] at he
    have hhas := r.has_map hm
    rcases hn with hn | ⟨-, hn⟩
    · rw [apply_of_domain hn] at he
      exact r.injective hm hn he
    · rw [he, apply_of_not_has hn] at hhas
      unfold Heap.Has at hhas
      simp only at hhas
      omega
  · rw [apply_of_not_has hm] at he
    rcases hn with hn | ⟨-, hn⟩
    · have hhas := r.has_map hn
      rw [apply_of_domain hn] at he
      rw [← he] at hhas
      unfold Heap.Has at hhas
      simp only at hhas
      omega
    · rw [apply_of_not_has hn] at he
      cases m₁
      cases n₁
      unfold Heap.Has at hm hn
      simp only [NodeId.mk.injEq] at he hm hn ⊢
      omega

theorem Joins.has₁ (hj : r.Joins h₁ h₂) (ht : r.Twin h₁ n₁ n₂) : h₁.Has n₁ := by
  rcases ht.1 with hn | ⟨hn, -⟩
  · exact hj.left.has (r.has hn)
  · exact hn

theorem Joins.has₂ (hj : r.Joins h₁ h₂) (ht : r.Twin h₁ n₁ n₂) : h₂.Has n₂ := by
  obtain ⟨hn, rfl⟩ := ht
  rcases hn with hn | ⟨hhas, hn⟩
  · rw [apply_of_domain hn]
    exact hj.right.has (r.has_map hn)
  · rw [apply_of_not_has hn]
    have hsize := hj.size
    unfold Heap.Has at hhas hn ⊢
    simp only
    omega

theorem Joins.outputs_eq (hj : r.Joins h₁ h₂) (ht : r.Twin h₁ n₁ n₂) : h₁.outputs n₁ = h₂.outputs n₂ := by
  unfold Heap.outputs Node.outputs
  rw [(hj.nodes n₁ n₂ ht).op]

/-- Making corresponding nodes keeps the correspondence, whatever they are called. -/
theorem Joins.create (hj : r.Joins h₁ h₂) {node₁ node₂ : Node} (ht : r.TwinNode h₁ node₁ node₂)
    (name₁ name₂ : Option String) :
    r.Joins (h₁.create name₁ node₁).2 (h₂.create name₂ node₂).2 ∧
      r.Twin (h₁.create name₁ node₁).2 (h₁.create name₁ node₁).1 (h₂.create name₂ node₂).1 := by
  have hg₁ := h₁.growsTo_create name₁ node₁
  have hg₂ := h₂.growsTo_create name₂ node₂
  obtain ⟨hid₁, hhas₁, text₁, hnode₁⟩ := h₁.create_eq name₁ node₁
  obtain ⟨hid₂, hhas₂, text₂, hnode₂⟩ := h₂.create_eq name₂ node₂
  have hsize := hj.size
  have hleft : ¬ r.left.Has ⟨h₁.size⟩ := Nat.not_lt.mpr hj.left.size_le
  -- both heaps have grown by the same number of nodes, so the new ones are each other's counterpart
  have hnew : r.apply ⟨h₁.size⟩ = ⟨h₂.size⟩ := by
    rw [apply_of_not_has hleft]
    have := hj.left.size_le
    simp only [NodeId.mk.injEq]
    omega
  refine ⟨⟨hj.left.trans hg₁, hj.right.trans hg₂, ?_, ?_⟩, ?_⟩
  · rw [Heap.size_create, Heap.size_create]
    omega
  · intro n₁ n₂ hn
    by_cases hlast : n₁ = ⟨h₁.size⟩
    · obtain ⟨-, rfl⟩ := hn
      rw [hlast, hnew, hnode₁, hnode₂]
      have ht := ht.grows hg₁
      exact ⟨ht.op, ht.attrs, ht.inputs, ht.deps, ht.strays₁, ht.strays₂⟩
    · have hold : r.Twin h₁ n₁ n₂ := by
        refine ⟨hn.1.imp_right fun ⟨hhas, hno⟩ => ⟨?_, hno⟩, hn.2⟩
        exact (Heap.has_create hhas).resolve_right hlast
      rw [hg₁.node_eq n₁ (hj.has₁ hold), hg₂.node_eq n₂ (hj.has₂ hold)]
      exact (hj.nodes n₁ n₂ hold).grows hg₁
  · rw [hid₁, hid₂]
    exact ⟨.inr ⟨hhas₁, hleft⟩, hnew.symm⟩

/-! ## Lockstep -/

/-- Both runs fail, or the heaps still correspond and the results are as in `Q`. -/
def Lockstep {σ α β : Type} (r : Relabelling) (top : σ → Heap) (x : Action σ α) (y : Action σ β) (a : Ambient)
    (s t : σ) (Q : α → σ → β → σ → Prop) : Prop :=
  Coupled x y a s t (fun p s' q t' => (top s).GrowsTo (top s') ∧ r.Joins (top s') (top t') ∧ Q p s' q t')
    fun _ _ _ _ => True

abbrev Builds {α β : Type} (r : Relabelling) (x : Build α) (y : Build β) (a : Ambient) (w₁ w₂ : Workspace)
    (Q : Heap → α → β → Prop) : Prop :=
  r.Lockstep Workspace.heap x y a w₁ w₂ fun p w₁' q _ => Q w₁'.heap p q

namespace Lockstep
variable {σ α β γ δ : Type} {top : σ → Heap} {x : Action σ α} {y : Action σ β} {f : α → Action σ γ} {g : β → Action σ δ}
  {a : Ambient} {s t u v : σ} {p : α} {q : β} {P Q : α → σ → β → σ → Prop} {R : γ → σ → δ → σ → Prop}

theorem of_ok (hx : x a s = .ok p u) (hy : y a t = .ok q v) (hg : (top s).GrowsTo (top u))
    (hj : r.Joins (top u) (top v)) (hq : Q p u q v) : r.Lockstep top x y a s t Q := Coupled.of_ok hx hy ⟨hg, hj, hq⟩

theorem pure (hj : r.Joins (top s) (top t)) (hq : Q p s q t) : r.Lockstep top (pure p) (pure q) a s t Q :=
  .of_ok rfl rfl (.refl _) hj hq

theorem of_error {d e : Fault} (hx : x a s = .error d u) (hy : y a t = .error e v) : r.Lockstep top x y a s t Q :=
  Coupled.of_error hx hy trivial

theorem throw {d e : Fault} : r.Lockstep top (throw d : Action σ α) (throw e : Action σ β) a s t Q := .of_error rfl rfl

theorem bind (hxy : r.Lockstep top x y a s t Q)
    (hfg : ∀ p s' q t', (top s).GrowsTo (top s') → r.Joins (top s') (top t') → Q p s' q t' →
      r.Lockstep top (f p) (g q) a s' t' R) : r.Lockstep top (x >>= f) (y >>= g) a s t R := by
  refine Coupled.bind hxy fun p s' q t' ⟨hg, hj, hq⟩ => ?_
  exact (hfg p s' q t' hg hj hq).mono (fun _ _ _ _ h => ⟨hg.trans h.1, h.2⟩) fun _ _ _ _ h => h

theorem step (hx : x a s = .ok p u) (hy : y a t = .ok q v) (hu : top u = top s)
    (hfg : r.Lockstep top (f p) (g q) a u v R) : r.Lockstep top (x >>= f) (y >>= g) a s t R := by
  refine Coupled.left hx (Coupled.right hy (hfg.mono (fun _ _ _ _ h => ?_) fun _ _ _ _ h => h))
  rw [hu] at h
  exact h

theorem mono (hxy : r.Lockstep top x y a s t P)
    (hpq : ∀ p s' q t', (top s).GrowsTo (top s') → P p s' q t' → Q p s' q t') : r.Lockstep top x y a s t Q :=
  Coupled.mono hxy (fun p s' q t' h => ⟨h.1, h.2.1, hpq p s' q t' h.1 h.2.2⟩) fun _ _ _ _ h => h

end Lockstep

section Build
variable {α β : Type} {a : Ambient} {w₁ w₂ : Workspace} {vs₁ vs₂ : List Value} {es₁ es₂ : List Entry}

theorem Builds.ofExcept (hj : r.Joins w₁.heap w₂.heap) {x : Except Fault α} {y : Except Fault β} {Q : α → β → Prop}
    (hxy : Agree Q x y) :
    r.Builds (Build.ofExcept x) (Build.ofExcept y) a w₁ w₂ fun h p q => h = w₁.heap ∧ Q p q :=
  hxy.elim (fun _ _ hpq => .pure hj ⟨rfl, hpq⟩) fun _ _ => .throw

theorem Builds.static (hj : r.Joins w₁.heap w₂.heap) {x : Build α} (p : Except Fault α)
    (hx : ∀ w, x a w = Build.ofExcept p a w) : r.Builds x x a w₁ w₂ fun h p q => h = w₁.heap ∧ p = q := by
  unfold Builds Lockstep Coupled
  rw [hx, hx]
  cases p with
  | ok p => exact ⟨.refl _, hj, rfl, rfl⟩
  | error e => trivial

theorem Builds.setting (hj : r.Joins w₁.heap w₂.heap) (path : List String) :
    r.Builds (Build.setting path) (Build.setting path) a w₁ w₂ fun h p q => h = w₁.heap ∧ p = q :=
  .static hj (a.profile.get path) fun _ => rfl

theorem Builds.operator (hj : r.Joins w₁.heap w₂.heap) (name : Datum) :
    r.Builds (Build.operator name) (Build.operator name) a w₁ w₂ fun h p q => h = w₁.heap ∧ p = q := by
  cases name with
  | text s => exact .static hj (a.ops.find s) fun _ => rfl
  | _ =>
    unfold Build.operator
    dsimp only
    split
    · exact .throw
    · exact .throw

theorem Builds.create (hj : r.Joins w₁.heap w₂.heap) {node₁ node₂ : Node} (ht : r.TwinNode w₁.heap node₁ node₂)
    (name₁ name₂ : Option String) :
    r.Builds (Build.create name₁ node₁) (Build.create name₂ node₂) a w₁ w₂ fun h => r.Twin h := by
  obtain ⟨hj', hn⟩ := hj.create ht name₁ name₂
  exact .of_ok rfl rfl (w₁.heap.growsTo_create name₁ node₁) hj' hn

theorem agree_entry (hj : r.Joins h₁ h₂) (hn : r.Twin h₁ n₁ n₂) (index : Int) :
    Agree (r.TwinEntry h₁) (h₁.entry n₁ index) (h₂.entry n₂ index) := by
  have hout := hj.outputs_eq hn
  unfold Heap.outputs at hout
  unfold Heap.entry
  simp only [hout]
  split
  · trivial
  · exact ⟨rfl, hn⟩

theorem Builds.entry (hj : r.Joins w₁.heap w₂.heap) (hn : r.Twin w₁.heap n₁ n₂) (index : Int) :
    r.Builds (Build.entry n₁ index) (Build.entry n₂ index) a w₁ w₂ fun h => r.TwinEntry h := by
  refine .step (p := w₁.heap) (q := w₂.heap) rfl rfl rfl ?_
  exact (Builds.ofExcept hj (agree_entry hj hn index)).mono fun _ _ _ _ _ h => h.1 ▸ h.2

theorem twinNode_applied (he : List.Forall₂ (r.TwinEntry h) es₁ es₂) {ds₁ ds₂ : List NodeId}
    (hd : List.Forall₂ (r.Twin h) ds₁ ds₂) (op : Op) (attrs : Ledger String Datum) :
    r.TwinNode h (Node.withLinks { op := some op, attrs } ⟨es₁.map .entry, ds₁.map .node⟩)
      (Node.withLinks { op := some op, attrs } ⟨es₂.map .entry, ds₂.map .node⟩) := by
  rw [Node.withLinks_map_node, Node.withLinks_map_node]
  exact ⟨rfl, rfl, he, hd, rfl, rfl⟩

/-! ## Rules -/

inductive TwinValue (r : Relabelling) (h : Heap) : Value → Value → Prop
  | data (d : Datum) : TwinValue r h (.data d) (.data d)
  | node {n₁ n₂ : NodeId} (hn : r.Twin h n₁ n₂) : TwinValue r h (.node n₁) (.node n₂)
  | entry {e₁ e₂ : Entry} (he : r.TwinEntry h e₁ e₂) : TwinValue r h (.entry e₁) (.entry e₂)

theorem twinValues_grow (hv : List.Forall₂ (r.TwinValue h) vs₁ vs₂) (hg : h.GrowsTo h') :
    List.Forall₂ (r.TwinValue h') vs₁ vs₂ := by
  refine hv.imp fun v₁ v₂ ht => ?_
  cases ht with
  | data d => exact .data d
  | node hn => exact .node (hn.grows hg)
  | entry he => exact .entry (he.grows hg)

theorem twinValues_map_entry (he : List.Forall₂ (r.TwinEntry h) es₁ es₂) :
    List.Forall₂ (r.TwinValue h) (es₁.map .entry) (es₂.map .entry) := by
  rw [List.forall₂_map_left_iff, List.forall₂_map_right_iff]
  exact he.imp fun _ _ he => .entry he

theorem twins_producers (hv : List.Forall₂ (r.TwinValue h) vs₁ vs₂) :
    List.Forall₂ (r.Twin h) (vs₁.filterMap Value.producer?) (vs₂.filterMap Value.producer?) := by
  induction hv with
  | nil => exact .nil
  | cons hv _ ih =>
    cases hv with
    | data d => exact ih
    | node hn => exact .cons hn ih
    | entry he => exact .cons he.2 ih

theorem agree_toEntry (hj : r.Joins h₁ h₂) {v₁ v₂ : Value} (hv : r.TwinValue h₁ v₁ v₂) :
    Agree (r.TwinEntry h₁) (v₁.toEntry h₁) (v₂.toEntry h₂) := by
  cases hv with
  | data d => trivial
  | node hn => exact agree_entry hj hn 0
  | entry he => exact he

theorem agree_itemsToEntries (hj : r.Joins h₁ h₂) (hv : List.Forall₂ (r.TwinValue h₁) vs₁ vs₂) :
    Agree (List.Forall₂ (r.TwinEntry h₁)) (Value.itemsToEntries h₁ vs₁) (Value.itemsToEntries h₂ vs₂) := by
  induction hv with
  | nil => exact .nil
  | cons hv _ ih =>
    rw [Value.itemsToEntries, Value.itemsToEntries]
    refine (agree_toEntry hj hv).elim (fun _ _ he => ?_) fun _ _ => trivial
    exact ih.map fun _ _ hes => .cons he hes

theorem Builds.pick (hj : r.Joins w₁.heap w₂.heap) (hv : List.Forall₂ (r.TwinValue w₁.heap) vs₁ vs₂) (position : Int) :
    r.Builds (Rule.pick vs₁ position) (Rule.pick vs₂ position) a w₁ w₂ fun h p q => h = w₁.heap ∧ r.TwinValue h p q := by
  unfold Rule.pick
  rw [hv.length_eq]
  refine (Builds.static hj _ fun _ => rfl).bind ?_
  rintro i w₁' _ w₂' - hj' ⟨hw, rfl⟩
  refine .pure hj' ⟨hw, ?_⟩
  rw [hw]
  exact forall₂_getD hv (.data .null) i

theorem Builds.output (hj : r.Joins w₁.heap w₂.heap) (hn : r.Twin w₁.heap n₁ n₂) (index : Int) :
    r.Builds (Rule.output n₁ index) (Rule.output n₂ index) a w₁ w₂ fun h => r.TwinValue h :=
  (Builds.entry hj hn index).bind fun _ _ _ _ _ hj' he => .pure hj' (.entry he)

theorem Builds.apply (hj : r.Joins w₁.heap w₂.heap) (hv : List.Forall₂ (r.TwinValue w₁.heap) vs₁ vs₂)
    {ds₁ ds₂ : List NodeId} (hd : List.Forall₂ (r.Twin w₁.heap) ds₁ ds₂) (op : Datum) (attrs : Ledger String Datum)
    (name₁ name₂ : Option String) :
    r.Builds (Build.apply op vs₁ name₁ (ds₁.map .node) attrs) (Build.apply op vs₂ name₂ (ds₂.map .node) attrs) a w₁ w₂
      fun h => r.Twin h := by
  unfold Build.apply
  refine (Builds.operator hj _).bind ?_
  rintro op u₁ _ u₂ - hju ⟨hu, rfl⟩
  refine .step (p := u₁.heap) (q := u₂.heap) rfl rfl rfl ?_
  rw [← hu] at hv hd
  refine (Builds.ofExcept hju (agree_itemsToEntries hju hv)).bind ?_
  rintro es₁ v₁ es₂ v₂ - hjv ⟨hw, hes⟩
  rw [← hw] at hes hd
  unfold Build.applyOp
  rw [hes.length_eq]
  split
  · exact Builds.create hjv (twinNode_applied hes hd op attrs) name₁ name₂
  · exact .throw

theorem TwinNode.links {node₁ node₂ : Node} (ht : r.TwinNode h node₁ node₂) :
    List.Forall₂ (r.TwinValue h) node₁.links.inputs node₂.links.inputs := by
  rw [Node.links_inputs ht.strays₁, Node.links_inputs ht.strays₂]
  exact twinValues_map_entry ht.inputs

theorem TwinNode.outline {node₁ node₂ : Node} (ht : r.TwinNode h node₁ node₂) (grads : Nat) :
    Outline.of node₁ grads = Outline.of node₂ grads := by
  unfold Outline.of
  rw [ht.op, ht.attrs, ht.links.length_eq]

variable {grads₁ grads₂ : List Value}

theorem Builds.operand (hj : r.Joins w₁.heap w₂.heap) (hn : r.Twin w₁.heap n₁ n₂)
    (hgrads : List.Forall₂ (r.TwinValue w₁.heap) grads₁ grads₂) (operand : Operand) :
    r.Builds (operand.eval n₁ grads₁) (operand.eval n₂ grads₂) a w₁ w₂ fun h => r.TwinValue h := by
  cases operand with
  | gradient position => exact (Builds.pick hj hgrads position).mono fun _ _ _ _ _ h => h.2
  | input position =>
    refine .step (p := (w₁.heap.node n₁).links.inputs) (q := (w₂.heap.node n₂).links.inputs) rfl rfl rfl ?_
    exact (Builds.pick hj (hj.nodes n₁ n₂ hn).links position).mono fun _ _ _ _ _ h => h.2
  | output index => exact Builds.output hj hn index

theorem Builds.recipeCreate (hj : r.Joins w₁.heap w₂.heap) (hv : List.Forall₂ (r.TwinValue w₁.heap) vs₁ vs₂)
    {ds₁ ds₂ : List NodeId} (hd : List.Forall₂ (r.Twin w₁.heap) ds₁ ds₂) (name : Option (String → String))
    (op : String) (attrs : Ledger String Datum) :
    r.Builds (Recipe.create n₁ name op attrs vs₁ ds₁) (Recipe.create n₂ name op attrs vs₂ ds₂) a w₁ w₂
      fun h => r.Twin h :=
  .step (p := w₁.heap) (q := w₂.heap) rfl rfl rfl (Builds.apply hj hv hd _ attrs _ _)

theorem Builds.outputOf (hj : r.Joins w₁.heap w₂.heap) {v₁ v₂ : Value} (hv : r.TwinValue w₁.heap v₁ v₂) (index : Int) :
    r.Builds (Recipe.outputOf v₁ index) (Recipe.outputOf v₂ index) a w₁ w₂ fun h => r.TwinValue h := by
  cases hv with
  | data d => exact .throw
  | node hn => exact Builds.output hj hn index
  | entry he => exact .throw

theorem twinEntries_entries (hj : r.Joins h₁ h₂) (hn : r.Twin h₁ n₁ n₂) :
    List.Forall₂ (r.TwinEntry h₁) (h₁.entries n₁) (h₂.entries n₂) := by
  unfold Heap.entries
  rw [hj.outputs_eq hn, List.forall₂_map_left_iff, List.forall₂_map_right_iff]
  exact List.forall₂_same.mpr fun i _ => ⟨rfl, hn⟩

theorem Builds.recipe (recipe : Recipe) : ∀ {w₁ w₂ : Workspace} {vs₁ vs₂ : List Value}, r.Joins w₁.heap w₂.heap →
    r.Twin w₁.heap n₁ n₂ → List.Forall₂ (r.TwinValue w₁.heap) grads₁ grads₂ →
    List.Forall₂ (r.TwinValue w₁.heap) vs₁ vs₂ →
    r.Builds (Recipe.run n₁ grads₁ recipe vs₁) (Recipe.run n₂ grads₂ recipe vs₂) a w₁ w₂
      fun h => List.Forall₂ (r.TwinValue h) := by
  induction recipe with
  | fail e => exact fun _ _ _ _ => .throw
  | give results => exact fun hj _ _ hv => .pure hj (forall₂_select hv (.data .null) results)
  | spread name op attrs args =>
    intro w₁ w₂ vs₁ vs₂ hj _ _ hv
    refine (Builds.recipeCreate hj (forall₂_select hv (.data .null) args) .nil name op attrs).bind ?_
    intro m₁ u₁ m₂ u₂ _ hju hm
    refine .step (p := u₁.heap) (q := u₂.heap) rfl rfl rfl (.pure hju ?_)
    exact twinValues_map_entry (twinEntries_entries hju hm)
  | fetch operand rest ih =>
    intro w₁ w₂ vs₁ vs₂ hj hn hgrads hv
    refine (Builds.operand hj hn hgrads operand).bind ?_
    intro v₁ u₁ v₂ u₂ hg hju hnew
    exact ih hju (hn.grows hg) (twinValues_grow hgrads hg) (List.rel_append (twinValues_grow hv hg) (.cons hnew .nil))
  | make name op attrs args rest ih =>
    intro w₁ w₂ vs₁ vs₂ hj hn hgrads hv
    refine (Builds.recipeCreate hj (forall₂_select hv (.data .null) args) .nil name op attrs).bind ?_
    intro m₁ u₁ m₂ u₂ hg hju hm
    refine (Builds.output hju hm 0).bind ?_
    intro v₁ u₁' v₂ u₂' hg' hju' hnew
    have hg := hg.trans hg'
    exact ih hju' (hn.grows hg) (twinValues_grow hgrads hg) (List.rel_append (twinValues_grow hv hg) (.cons hnew .nil))
  | node name op attrs args deps rest ih =>
    intro w₁ w₂ vs₁ vs₂ hj hn hgrads hv
    have hdeps := twins_producers (forall₂_select hv (.data .null) deps)
    refine (Builds.recipeCreate hj (forall₂_select hv (.data .null) args) hdeps name op attrs).bind ?_
    intro m₁ u₁ m₂ u₂ hg hju hm
    exact ih hju (hn.grows hg) (twinValues_grow hgrads hg)
      (List.rel_append (twinValues_grow hv hg) (.cons (.node hm) .nil))
  | entry position index rest ih =>
    intro w₁ w₂ vs₁ vs₂ hj hn hgrads hv
    refine (Builds.outputOf hj (forall₂_getD hv (.data .null) position) index).bind ?_
    intro v₁ u₁ v₂ u₂ hg hju hnew
    exact ih hju (hn.grows hg) (twinValues_grow hgrads hg) (List.rel_append (twinValues_grow hv hg) (.cons hnew .nil))

theorem Builds.rule (scheme : Outline → Recipe) (hj : r.Joins w₁.heap w₂.heap) (hn : r.Twin w₁.heap n₁ n₂)
    (hgrads : List.Forall₂ (r.TwinValue w₁.heap) grads₁ grads₂) :
    r.Builds (Recipe.rule scheme n₁ grads₁) (Recipe.rule scheme n₂ grads₂) a w₁ w₂
      fun h => List.Forall₂ (r.TwinValue h) := by
  refine .step (p := w₁.heap) (q := w₂.heap) rfl rfl rfl ?_
  dsimp only
  rw [hgrads.length_eq, (hj.nodes n₁ n₂ hn).outline]
  exact Builds.recipe _ hj hn hgrads .nil

/-! ## Aggregation -/

def TwinGradient (r : Relabelling) (h : Heap) (v₁ v₂ : Value) : Prop :=
  ∃ e₁ e₂, v₁ = .entry e₁ ∧ v₂ = .entry e₂ ∧ r.TwinEntry h e₁ e₂

theorem TwinGradient.grows {v₁ v₂ : Value} (hv : r.TwinGradient h v₁ v₂) (hg : h.GrowsTo h') : r.TwinGradient h' v₁ v₂ := by
  obtain ⟨e₁, e₂, rfl, rfl, he⟩ := hv
  exact ⟨e₁, e₂, rfl, rfl, he.grows hg⟩

theorem entries_of_twinGradients (hv : List.Forall₂ (r.TwinGradient h) vs₁ vs₂) :
    ∃ es₁ es₂ : List Entry, vs₁ = es₁.map .entry ∧ vs₂ = es₂.map .entry ∧ List.Forall₂ (r.TwinEntry h) es₁ es₂ := by
  induction hv with
  | nil => exact ⟨[], [], rfl, rfl, .nil⟩
  | cons hv _ ih =>
    obtain ⟨e₁, e₂, rfl, rfl, he⟩ := hv
    obtain ⟨es₁, es₂, rfl, rfl, hes⟩ := ih
    exact ⟨e₁ :: es₁, e₂ :: es₂, rfl, rfl, .cons he hes⟩

theorem Builds.unnamed (hj : r.Joins w₁.heap w₂.heap) (he : List.Forall₂ (r.TwinEntry w₁.heap) es₁ es₂) (op : Op) :
    r.Builds (Build.unnamed op (es₁.map .entry)) (Build.unnamed op (es₂.map .entry)) a w₁ w₂
      fun h => r.TwinEntry h := by
  have hdeps : List.Forall₂ (r.Twin w₁.heap) [] [] := .nil
  refine (Builds.create hj (twinNode_applied he hdeps op []) none none).bind ?_
  exact fun _ _ _ _ _ hju hn => Builds.entry hju hn 0

theorem Builds.configured (hj : r.Joins w₁.heap w₂.heap) (he : List.Forall₂ (r.TwinEntry w₁.heap) es₁ es₂)
    (path : List String) :
    r.Builds (do Build.unnamed (← Build.operator (← Build.setting path)) (es₁.map .entry))
      (do Build.unnamed (← Build.operator (← Build.setting path)) (es₂.map .entry)) a w₁ w₂ fun h => r.TwinEntry h := by
  refine (Builds.setting hj path).bind ?_
  rintro d u₁ _ u₂ - hju ⟨hu, rfl⟩
  refine (Builds.operator hju d).bind ?_
  rintro op v₁ _ v₂ - hjv ⟨hv, rfl⟩
  rw [← hu, ← hv] at he
  exact Builds.unnamed hjv he op

theorem Builds.aggregate (hj : r.Joins w₁.heap w₂.heap) (hv : List.Forall₂ (r.TwinGradient w₁.heap) vs₁ vs₂) :
    r.Builds (Aggregator.standard vs₁) (Aggregator.standard vs₂) a w₁ w₂ fun h => r.TwinGradient h := by
  obtain ⟨es₁, es₂, rfl, rfl, he⟩ := entries_of_twinGradients hv
  cases he with
  | nil => exact (Builds.configured hj .nil _).bind fun e₁ _ e₂ _ _ hju he => .pure hju ⟨e₁, e₂, rfl, rfl, he⟩
  | @cons e₁ e₂ rest₁ rest₂ he hrest =>
    cases hrest with
    | nil => exact .pure hj ⟨e₁, e₂, rfl, rfl, he⟩
    | cons he' hrest =>
      refine (Builds.configured hj (.cons he (.cons he' hrest)) _).bind ?_
      exact fun e₁ _ e₂ _ _ hju he => .pure hju ⟨e₁, e₂, rfl, rfl, he⟩

end Build

end Relabelling

end Backprop
