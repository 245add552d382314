import Backprop.Proofs.RecipeSound

/-!
# Runs that build alike

Nodes of two heaps are alike if both are one node of a common heap, or if they
apply the same operator with the same attributes to entries that are alike.
Alike nodes have the same values under every interpretation. Two runs of a rule
that are given alike nodes and gradients fail together or build alike results
(`Paired`), whatever names the nodes have and wherever they are.
-/

namespace Backprop

universe u

namespace Heap

/-- The nodes are one node of the first heap, or the same application in the other two. -/
inductive Alike (h₀ h₁ h₂ : Heap) : NodeId → NodeId → Prop
  | kept {n : NodeId} (hn : h₀.Grounded n) : Alike h₀ h₁ h₂ n n
  | made {n₁ n₂ : NodeId} {op : Op} {attrs : Ledger String Datum} {es₁ es₂ : List Entry}
      (happ₁ : h₁.Applies n₁ op attrs es₁) (happ₂ : h₂.Applies n₂ op attrs es₂) (hlen : es₁.length = es₂.length)
      (hindex : ∀ (k : Nat) (e₁ e₂ : Entry), es₁[k]? = some e₁ → es₂[k]? = some e₂ → e₁.index = e₂.index)
      (hnode : ∀ (k : Nat) (e₁ e₂ : Entry), es₁[k]? = some e₁ → es₂[k]? = some e₂ →
        Alike h₀ h₁ h₂ e₁.node e₂.node) :
      Alike h₀ h₁ h₂ n₁ n₂

def AlikeEntry (h₀ h₁ h₂ : Heap) (e₁ e₂ : Entry) : Prop := e₁.index = e₂.index ∧ Alike h₀ h₁ h₂ e₁.node e₂.node

section Alike
variable {h₀ h₁ h₂ h₁' h₂' : Heap} {n₁ n₂ : NodeId}

theorem Alike.grows (h : Alike h₀ h₁ h₂ n₁ n₂) (hg₁ : h₁.GrowsTo h₁') (hg₂ : h₂.GrowsTo h₂') :
    Alike h₀ h₁' h₂' n₁ n₂ := by
  induction h with
  | kept hn => exact .kept hn
  | made happ₁ happ₂ hlen hindex _ ih => exact .made (happ₁.grows hg₁) (happ₂.grows hg₂) hlen hindex ih

theorem AlikeEntry.grows {e₁ e₂ : Entry} (h : AlikeEntry h₀ h₁ h₂ e₁ e₂) (hg₁ : h₁.GrowsTo h₁')
    (hg₂ : h₂.GrowsTo h₂') : AlikeEntry h₀ h₁' h₂' e₁ e₂ := ⟨h.1, h.2.grows hg₁ hg₂⟩

theorem alikeEntry_kept {e : Entry} (he : h₀.Grounded e.node) : AlikeEntry h₀ h₁ h₂ e e := ⟨rfl, .kept he⟩

theorem Alike.of_applies {op : Op} {attrs : Ledger String Datum} {es₁ es₂ : List Entry}
    (happ₁ : h₁.Applies n₁ op attrs es₁) (happ₂ : h₂.Applies n₂ op attrs es₂)
    (hes : List.Forall₂ (AlikeEntry h₀ h₁ h₂) es₁ es₂) : Alike h₀ h₁ h₂ n₁ n₂ := by
  have hall : ∀ (k : Nat) (e₁ e₂ : Entry), es₁[k]? = some e₁ → es₂[k]? = some e₂ → AlikeEntry h₀ h₁ h₂ e₁ e₂ := by
    intro k e₁ e₂ he₁ he₂
    obtain ⟨hk₁, rfl⟩ := List.getElem?_eq_some_iff.mp he₁
    obtain ⟨hk₂, rfl⟩ := List.getElem?_eq_some_iff.mp he₂
    exact hes.get hk₁ hk₂
  exact .made happ₁ happ₂ hes.length_eq (fun k e₁ e₂ he₁ he₂ => (hall k e₁ e₂ he₁ he₂).1)
    fun k e₁ e₂ he₁ he₂ => (hall k e₁ e₂ he₁ he₂).2

variable (hg₁ : h₀.GrowsTo h₁) (hg₂ : h₀.GrowsTo h₂)
include hg₁ hg₂

theorem Alike.op_eq (h : Alike h₀ h₁ h₂ n₁ n₂) : (h₁.node n₁).op = (h₂.node n₂).op := by
  cases h with
  | kept hn => rw [hg₁.node_eq _ hn.has, hg₂.node_eq _ hn.has]
  | made happ₁ happ₂ => rw [happ₁.op_eq, happ₂.op_eq]

theorem Alike.attrs_eq (h : Alike h₀ h₁ h₂ n₁ n₂) : (h₁.node n₁).attrs = (h₂.node n₂).attrs := by
  cases h with
  | kept hn => rw [hg₁.node_eq _ hn.has, hg₂.node_eq _ hn.has]
  | made happ₁ happ₂ => rw [happ₁.attrs_eq, happ₂.attrs_eq]

theorem Alike.outputs_eq (h : Alike h₀ h₁ h₂ n₁ n₂) : (h₁.node n₁).outputs = (h₂.node n₂).outputs := by
  unfold Node.outputs
  rw [h.op_eq hg₁ hg₂]

theorem Alike.inputs (h : Alike h₀ h₁ h₂ n₁ n₂) :
    List.Forall₂ (AlikeEntry h₀ h₁ h₂) (h₁.node n₁).inputs (h₂.node n₂).inputs := by
  cases h with
  | kept hn =>
    rw [hg₁.node_eq _ hn.has, hg₂.node_eq _ hn.has]
    exact List.forall₂_same.mpr fun e he => alikeEntry_kept (hn.inputs e he)
  | made happ₁ happ₂ hlen hindex hnode =>
    rw [happ₁.inputs_eq, happ₂.inputs_eq]
    refine List.forall₂_iff_get.mpr ⟨hlen, fun k hk₁ hk₂ => ?_⟩
    have he₁ := List.getElem?_eq_getElem hk₁
    have he₂ := List.getElem?_eq_getElem hk₂
    exact ⟨hindex k _ _ he₁ he₂, hnode k _ _ he₁ he₂⟩

theorem Alike.grounded (h : Alike h₀ h₁ h₂ n₁ n₂) : h₁.Grounded n₁ ∧ h₂.Grounded n₂ := by
  induction h with
  | kept hn => exact ⟨hn.grows hg₁, hn.grows hg₂⟩
  | @made n₁ n₂ op attrs es₁ es₂ happ₁ happ₂ hlen _ _ ih =>
    refine ⟨.intro happ₁.has fun e he => ?_, .intro happ₂.has fun e he => ?_⟩
    · rw [happ₁.inputs_eq] at he
      obtain ⟨k, hk, rfl⟩ := List.getElem_of_mem he
      exact (ih k _ _ (List.getElem?_eq_getElem hk) (List.getElem?_eq_getElem (hlen ▸ hk))).1
    · rw [happ₂.inputs_eq] at he
      obtain ⟨k, hk, rfl⟩ := List.getElem_of_mem he
      exact (ih k _ _ (List.getElem?_eq_getElem (hlen ▸ hk)) (List.getElem?_eq_getElem hk)).2

theorem Alike.value_eq {V : Type u} [Nonempty V] (I : Interpretation V) (ρ : NodeId → V)
    (h : Alike h₀ h₁ h₂ n₁ n₂) : ∀ i, h₁.value I ρ ⟨n₁, i⟩ = h₂.value I ρ ⟨n₂, i⟩ := by
  induction h with
  | kept hn =>
    intro i
    rw [value_grows (e := ⟨_, i⟩) hg₁ hn, value_grows (e := ⟨_, i⟩) hg₂ hn]
  | @made n₁ n₂ op attrs es₁ es₂ happ₁ happ₂ hlen hindex hnode ih =>
    intro i
    have halike : Alike h₀ h₁ h₂ n₁ n₂ := .made happ₁ happ₂ hlen hindex hnode
    obtain ⟨hn₁, hn₂⟩ := halike.grounded hg₁ hg₂
    have hvalues : es₁.map (h₁.value I ρ) = es₂.map (h₂.value I ρ) := by
      refine List.ext_getElem (by simp [hlen]) fun k hk₁ hk₂ => ?_
      rw [List.length_map] at hk₁ hk₂
      rw [List.getElem_map, List.getElem_map]
      have he₁ := List.getElem?_eq_getElem hk₁
      have he₂ := List.getElem?_eq_getElem hk₂
      -- the hypothesis is about the nodes only; that it is the same output is a matter of the index
      have hv := ih k _ _ he₁ he₂ es₁[k].index
      rwa [show h₂.value I ρ ⟨es₂[k].node, es₁[k].index⟩ = h₂.value I ρ es₂[k] by rw [hindex k _ _ he₁ he₂]] at hv
    rw [value_apply (e := ⟨n₁, i⟩) hn₁ happ₁.op_eq, value_apply (e := ⟨n₂, i⟩) hn₂ happ₂.op_eq]
    simp only [happ₁.attrs_eq, happ₂.attrs_eq, happ₁.inputs_eq, happ₂.inputs_eq, hvalues]

theorem AlikeEntry.value_eq {V : Type u} [Nonempty V] (I : Interpretation V) (ρ : NodeId → V) {e₁ e₂ : Entry}
    (h : AlikeEntry h₀ h₁ h₂ e₁ e₂) : h₁.value I ρ e₁ = h₂.value I ρ e₂ := by
  obtain ⟨n₁, i⟩ := e₁
  obtain ⟨n₂, j⟩ := e₂
  obtain ⟨rfl, h⟩ : i = j ∧ Alike h₀ h₁ h₂ n₁ n₂ := h
  exact h.value_eq hg₁ hg₂ I ρ i

theorem grounded_of_alike {es₁ es₂ : List Entry} (h : List.Forall₂ (AlikeEntry h₀ h₁ h₂) es₁ es₂) :
    (∀ e ∈ es₁, h₁.Grounded e.node) ∧ ∀ e ∈ es₂, h₂.Grounded e.node := by
  induction h with
  | nil => simp
  | cons he _ ih =>
    obtain ⟨he₁, he₂⟩ := he.2.grounded hg₁ hg₂
    exact ⟨List.forall_mem_cons.mpr ⟨he₁, ih.1⟩, List.forall_mem_cons.mpr ⟨he₂, ih.2⟩⟩

theorem map_value_of_alike {V : Type u} [Nonempty V] (I : Interpretation V) (ρ : NodeId → V) {es₁ es₂ : List Entry}
    (h : List.Forall₂ (AlikeEntry h₀ h₁ h₂) es₁ es₂) : es₁.map (h₁.value I ρ) = es₂.map (h₂.value I ρ) := by
  induction h with
  | nil => rfl
  | cons he _ ih => rw [List.map_cons, List.map_cons, he.value_eq hg₁ hg₂, ih]

end Alike

end Heap

/-! ## Two runs of one construction -/

section Paired
variable {α β γ δ : Type} {a : Ambient} {w₁ w₂ : Workspace}

/-- Both runs fail, or both only add nodes and have results as in `Q`. -/
def Paired (x : Build α) (y : Build β) (a : Ambient) (w₁ w₂ : Workspace) (Q : Heap → Heap → α → β → Prop) : Prop :=
  Coupled x y a w₁ w₂ (fun r w₁' q w₂' => w₁.heap.GrowsTo w₁'.heap ∧ w₂.heap.GrowsTo w₂'.heap ∧
    Q w₁'.heap w₂'.heap r q) fun _ _ _ _ => True

theorem Paired.pure {r : α} {q : β} {Q : Heap → Heap → α → β → Prop} (hq : Q w₁.heap w₂.heap r q) :
    Paired (pure r) (pure q) a w₁ w₂ Q := ⟨.refl _, .refl _, hq⟩

theorem Paired.throw {e f : Fault} {Q : Heap → Heap → α → β → Prop} :
    Paired (throw e) (throw f) a w₁ w₂ Q := trivial

theorem Paired.of_ok {x : Build α} {y : Build β} {w₁' w₂' : Workspace} {r : α} {q : β} {Q : Heap → Heap → α → β → Prop}
    (hx : x a w₁ = .ok r w₁') (hy : y a w₂ = .ok q w₂') (hg₁ : w₁.heap.GrowsTo w₁'.heap)
    (hg₂ : w₂.heap.GrowsTo w₂'.heap) (hq : Q w₁'.heap w₂'.heap r q) : Paired x y a w₁ w₂ Q :=
  Coupled.of_ok hx hy ⟨hg₁, hg₂, hq⟩

theorem Paired.bind {x : Build α} {y : Build β} {f : α → Build γ} {g : β → Build δ} {P : Heap → Heap → α → β → Prop}
    {Q : Heap → Heap → γ → δ → Prop} (hxy : Paired x y a w₁ w₂ P)
    (hfg : ∀ r q w₁' w₂', w₁.heap.GrowsTo w₁'.heap → w₂.heap.GrowsTo w₂'.heap → P w₁'.heap w₂'.heap r q →
      Paired (f r) (g q) a w₁' w₂' Q) : Paired (x >>= f) (y >>= g) a w₁ w₂ Q := by
  refine Coupled.bind hxy fun r w₁' q w₂' ⟨hg₁, hg₂, hp⟩ => ?_
  exact (hfg r q w₁' w₂' hg₁ hg₂ hp).mono (fun _ _ _ _ h => ⟨hg₁.trans h.1, hg₂.trans h.2.1, h.2.2⟩)
    fun _ _ _ _ h => h

theorem Paired.heap {f : Heap → Build γ} {g : Heap → Build δ} {Q : Heap → Heap → γ → δ → Prop}
    (h : Paired (f w₁.heap) (g w₂.heap) a w₁ w₂ Q) :
    Paired (Build.heap >>= f) (Build.heap >>= g) a w₁ w₂ Q := h

def Agree (Q : α → β → Prop) : Except Fault α → Except Fault β → Prop
  | .ok r, .ok q => Q r q
  | .error _, .error _ => True
  | _, _ => False

@[elab_as_elim]
theorem Agree.elim {Q : α → β → Prop} {P : Except Fault α → Except Fault β → Prop} {x : Except Fault α}
    {y : Except Fault β} (h : Agree Q x y) (hok : ∀ r q, Q r q → P (.ok r) (.ok q))
    (herror : ∀ d e, P (.error d) (.error e)) : P x y := by
  cases x with
  | ok r =>
    cases y with
    | ok q => exact hok r q h
    | error e => exact False.elim h
  | error d =>
    cases y with
    | ok q => exact False.elim h
    | error e => exact herror d e

theorem Paired.ofExcept {x : Except Fault α} {y : Except Fault β} {Q : Heap → Heap → α → β → Prop}
    (h : Agree (Q w₁.heap w₂.heap) x y) : Paired (Build.ofExcept x) (Build.ofExcept y) a w₁ w₂ Q :=
  h.elim (fun _ _ hq => .pure hq) fun _ _ => .throw

theorem Agree.map {P : α → β → Prop} {Q : γ → δ → Prop} {f : α → γ} {g : β → δ} {x : Except Fault α}
    {y : Except Fault β} (h : Agree P x y) (hq : ∀ r q, P r q → Q (f r) (g q)) : Agree Q (x.map f) (y.map g) := by
  refine h.elim (fun r q hrq => ?_) fun _ _ => trivial
  exact hq r q hrq

theorem Paired.static {x : Build α} (r : Except Fault α) (hx : ∀ w, x a w = Build.ofExcept r a w) :
    Paired x x a w₁ w₂ fun _ _ p q => p = q := by
  unfold Paired Coupled
  rw [hx, hx]
  cases r with
  | ok r => exact ⟨.refl _, .refl _, rfl⟩
  | error e => trivial

theorem Paired.setting (path : List String) :
    Paired (Build.setting path) (Build.setting path) a w₁ w₂ fun _ _ r q => r = q :=
  .static (a.profile.get path) fun _ => rfl

theorem Paired.flag (path : List String) :
    Paired (Build.flag path) (Build.flag path) a w₁ w₂ fun _ _ r q => r = q :=
  .static (a.profile.getFlag path) fun _ => rfl

theorem Paired.operator (name : Datum) :
    Paired (Build.operator name) (Build.operator name) a w₁ w₂ fun _ _ r q => r = q := by
  cases name with
  | text s => exact .static (a.ops.find s) fun _ => rfl
  | _ =>
    unfold Build.operator
    dsimp only
    split
    · exact .throw
    · exact .throw

end Paired

/-! ## Lists with corresponding items -/

section Lists
variable {α β γ δ : Type} {R : α → β → Prop} {S : γ → δ → Prop} {xs : List α} {ys : List β}

theorem forall₂_getElem? (h : List.Forall₂ R xs ys) (k : Nat) : Option.Rel R xs[k]? ys[k]? := by
  by_cases hk : k < xs.length
  · have hk₂ : k < ys.length := h.length_eq ▸ hk
    rw [List.getElem?_eq_getElem hk, List.getElem?_eq_getElem hk₂]
    exact .some (h.get hk hk₂)
  · have hk₂ : ¬ k < ys.length := h.length_eq ▸ hk
    rw [List.getElem?_eq_none (Nat.le_of_not_lt hk), List.getElem?_eq_none (Nat.le_of_not_lt hk₂)]
    exact .none

theorem forall₂_exists_getElem? (h : List.Forall₂ R xs ys) {k : Nat} {x : α} (hx : xs[k]? = some x) :
    ∃ y, ys[k]? = some y ∧ R x y := by
  have hk := forall₂_getElem? h k
  rw [hx] at hk
  generalize ys[k]? = found at hk ⊢
  cases hk with
  | some hxy => exact ⟨_, rfl, hxy⟩

theorem forall₂_getD (h : List.Forall₂ R xs ys) {x : α} {y : β} (hd : R x y) (k : Nat) :
    R ((xs[k]?).getD x) ((ys[k]?).getD y) := by
  have hk := forall₂_getElem? h k
  generalize xs[k]? = found₁ at hk ⊢
  generalize ys[k]? = found₂ at hk ⊢
  cases hk with
  | none => exact hd
  | some hr => exact hr

theorem forall₂_set (h : List.Forall₂ R xs ys) {x : α} {y : β} (hxy : R x y) :
    ∀ k, List.Forall₂ R (xs.set k x) (ys.set k y) := by
  induction h with
  | nil => exact fun _ => .nil
  | cons hh ht ih =>
    intro k
    cases k with
    | zero => exact .cons hxy ht
    | succ k => exact .cons hh (ih k)

theorem forall₂_zip (h : List.Forall₂ R xs ys) : ∀ {us : List γ} {vs : List δ}, List.Forall₂ S us vs →
    List.Forall₂ (fun p q => R p.1 q.1 ∧ S p.2 q.2) (xs.zip us) (ys.zip vs) := by
  induction h with
  | nil => exact fun _ => .nil
  | cons hh _ ih =>
    intro us vs huv
    cases huv with
    | nil => exact .nil
    | cons hu huv => exact .cons ⟨hh, hu⟩ (ih huv)

theorem forall₂_map_eq (h : List.Forall₂ R xs ys) {f : α → γ} {g : β → γ} (hfg : ∀ x y, R x y → f x = g y) :
    xs.map f = ys.map g := by
  rw [← List.forall₂_eq_eq_eq, List.forall₂_map_left_iff, List.forall₂_map_right_iff]
  exact h.imp hfg

theorem forall₂_map_zipIdx (h : List.Forall₂ R xs ys) {f : α × Nat → γ} {g : β × Nat → γ}
    (hfg : ∀ x y k, R x y → f (x, k) = g (y, k)) : xs.zipIdx.map f = ys.zipIdx.map g := by
  rw [List.zipIdx_eq_zip_range', List.zipIdx_eq_zip_range', h.length_eq]
  refine forall₂_map_eq (forall₂_zip (S := Eq) h (List.forall₂_refl _)) ?_
  rintro ⟨x, k⟩ ⟨y, _⟩ ⟨hxy, rfl⟩
  exact hfg x y k hxy

theorem forall₂_select {R : Value → Value → Prop} {vs₁ vs₂ : List Value} (h : List.Forall₂ R vs₁ vs₂)
    (hnull : R .null .null) (ks : List Nat) : List.Forall₂ R (Recipe.select vs₁ ks) (Recipe.select vs₂ ks) := by
  unfold Recipe.select
  rw [List.forall₂_map_left_iff, List.forall₂_map_right_iff]
  exact List.forall₂_same.mpr fun k _ => forall₂_getD h hnull k

theorem optionRel_imp {R T : α → β → Prop} (hrt : ∀ x y, R x y → T x y) {x : Option α} {y : Option β}
    (h : Option.Rel R x y) : Option.Rel T x y := by
  cases h with
  | none => exact .none
  | some hr => exact .some (hrt _ _ hr)

end Lists

/-! ## Values that are alike -/

inductive Value.Alike (h₀ h₁ h₂ : Heap) : Value → Value → Prop
  | data (d : Datum) : Value.Alike h₀ h₁ h₂ (.data d) (.data d)
  | node {n₁ n₂ : NodeId} (hn : h₀.Alike h₁ h₂ n₁ n₂) : Value.Alike h₀ h₁ h₂ (.node n₁) (.node n₂)
  | entry {e₁ e₂ : Entry} (he : h₀.AlikeEntry h₁ h₂ e₁ e₂) : Value.Alike h₀ h₁ h₂ (.entry e₁) (.entry e₂)

section Values
variable {h₀ h₁ h₂ h₁' h₂' : Heap} {vs₁ vs₂ : List Value}

theorem Value.Alike.grows {v₁ v₂ : Value} (h : Value.Alike h₀ h₁ h₂ v₁ v₂) (hg₁ : h₁.GrowsTo h₁')
    (hg₂ : h₂.GrowsTo h₂') : Value.Alike h₀ h₁' h₂' v₁ v₂ := by
  cases h with
  | data d => exact .data d
  | node hn => exact .node (hn.grows hg₁ hg₂)
  | entry he => exact .entry (he.grows hg₁ hg₂)

theorem alike_all_grows (h : List.Forall₂ (Value.Alike h₀ h₁ h₂) vs₁ vs₂) (hg₁ : h₁.GrowsTo h₁')
    (hg₂ : h₂.GrowsTo h₂') : List.Forall₂ (Value.Alike h₀ h₁' h₂') vs₁ vs₂ := h.imp fun _ _ hv => hv.grows hg₁ hg₂

theorem alike_map_entry {es₁ es₂ : List Entry} (h : List.Forall₂ (h₀.AlikeEntry h₁ h₂) es₁ es₂) :
    List.Forall₂ (Value.Alike h₀ h₁ h₂) (es₁.map .entry) (es₂.map .entry) := by
  rw [List.forall₂_map_left_iff, List.forall₂_map_right_iff]
  exact h.imp fun _ _ he => .entry he

variable (hg₁ : h₀.GrowsTo h₁) (hg₂ : h₀.GrowsTo h₂)
include hg₁ hg₂

theorem Heap.Alike.entry {n₁ n₂ : NodeId} (h : h₀.Alike h₁ h₂ n₁ n₂) (index : Int) :
    Agree (h₀.AlikeEntry h₁ h₂) (h₁.entry n₁ index) (h₂.entry n₂ index) := by
  unfold Heap.entry
  simp only [h.outputs_eq hg₁ hg₂]
  split
  · trivial
  · exact ⟨rfl, h⟩

theorem Value.Alike.toEntry {v₁ v₂ : Value} (h : Value.Alike h₀ h₁ h₂ v₁ v₂) :
    Agree (h₀.AlikeEntry h₁ h₂) (v₁.toEntry h₁) (v₂.toEntry h₂) := by
  cases h with
  | data d => trivial
  | node hn => exact hn.entry hg₁ hg₂ 0
  | entry he => exact he

theorem alike_itemsToEntries (h : List.Forall₂ (Value.Alike h₀ h₁ h₂) vs₁ vs₂) :
    Agree (List.Forall₂ (h₀.AlikeEntry h₁ h₂)) (Value.itemsToEntries h₁ vs₁) (Value.itemsToEntries h₂ vs₂) := by
  induction h with
  | nil => exact .nil
  | @cons v₁ v₂ _ _ hv _ ih =>
    rw [Value.itemsToEntries, Value.itemsToEntries]
    refine (hv.toEntry hg₁ hg₂).elim (fun e₁ e₂ he => ?_) fun _ _ => trivial
    exact ih.map fun _ _ hes => .cons he hes

end Values

/-! ## Rules build alike -/

section Rules
variable {h₀ : Heap} {a : Ambient} {w₁ w₂ : Workspace} {vs₁ vs₂ : List Value} {n₁ n₂ : NodeId}

theorem Paired.pick (h : List.Forall₂ (Value.Alike h₀ w₁.heap w₂.heap) vs₁ vs₂) (position : Int) :
    Paired (Rule.pick vs₁ position) (Rule.pick vs₂ position) a w₁ w₂ fun h₁ h₂ => Value.Alike h₀ h₁ h₂ := by
  unfold Rule.pick
  rw [h.length_eq]
  refine .bind (.static _ fun _ => rfl) ?_
  rintro i _ w₁' w₂' hg₁ hg₂ rfl
  exact .pure ((forall₂_getD h (.data .null) i).grows hg₁ hg₂)

theorem Paired.create {es₁ es₂ : List Entry} (h : List.Forall₂ (h₀.AlikeEntry w₁.heap w₂.heap) es₁ es₂) (op : Op)
    (attrs : Ledger String Datum) (name₁ name₂ : Option String) (ds₁ ds₂ : List NodeId) :
    Paired (Build.create name₁ (Node.withLinks { op := some op, attrs } ⟨es₁.map .entry, ds₁.map .node⟩))
      (Build.create name₂ (Node.withLinks { op := some op, attrs } ⟨es₂.map .entry, ds₂.map .node⟩)) a w₁ w₂
      fun h₁ h₂ => h₀.Alike h₁ h₂ := by
  obtain ⟨m₁, w₁', hrun₁, hg₁', happ₁⟩ := Build.create_run op attrs name₁ es₁ ds₁ a w₁
  obtain ⟨m₂, w₂', hrun₂, hg₂', happ₂⟩ := Build.create_run op attrs name₂ es₂ ds₂ a w₂
  exact .of_ok hrun₁ hrun₂ hg₁' hg₂' (.of_applies happ₁ happ₂ (h.imp fun _ _ he => he.grows hg₁' hg₂'))

variable (hg₁ : h₀.GrowsTo w₁.heap) (hg₂ : h₀.GrowsTo w₂.heap)
include hg₁ hg₂

theorem Paired.output (hn : h₀.Alike w₁.heap w₂.heap n₁ n₂) (index : Int) :
    Paired (Rule.output n₁ index) (Rule.output n₂ index) a w₁ w₂ fun h₁ h₂ => Value.Alike h₀ h₁ h₂ := by
  unfold Rule.output Build.entry
  refine .bind (P := fun h₁ h₂ => h₀.AlikeEntry h₁ h₂) (.heap (.ofExcept (hn.entry hg₁ hg₂ index))) ?_
  exact fun _ _ _ _ _ _ he => .pure (.entry he)

theorem Paired.apply (h : List.Forall₂ (Value.Alike h₀ w₁.heap w₂.heap) vs₁ vs₂) (op : String)
    (attrs : Ledger String Datum) (name₁ name₂ : Option String) (ds₁ ds₂ : List NodeId) :
    Paired (Build.apply (.text op) vs₁ name₁ (ds₁.map .node) attrs)
      (Build.apply (.text op) vs₂ name₂ (ds₂.map .node) attrs) a w₁ w₂ fun h₁ h₂ => h₀.Alike h₁ h₂ := by
  unfold Build.apply
  refine .bind (Paired.operator _) ?_
  rintro op _ w₁' w₂' hg₁' hg₂' rfl
  have hg₁ := hg₁.trans hg₁'
  have hg₂ := hg₂.trans hg₂'
  refine .heap (.bind (P := fun h₁ h₂ => List.Forall₂ (h₀.AlikeEntry h₁ h₂))
    (.ofExcept (alike_itemsToEntries hg₁ hg₂ (alike_all_grows h hg₁' hg₂'))) ?_)
  intro es₁ es₂ w₁'' w₂'' hg₁' hg₂' hes
  unfold Build.applyOp
  rw [hes.length_eq]
  split
  · exact Paired.create hes op attrs name₁ name₂ ds₁ ds₂
  · exact .throw

end Rules

structure Heap.Twins (h₀ h₁ h₂ : Heap) (n₁ n₂ : NodeId) : Prop where
  left : h₀.GrowsTo h₁
  right : h₀.GrowsTo h₂
  alike : h₀.Alike h₁ h₂ n₁ n₂
  strays₁ : (h₁.node n₁).strays = none
  strays₂ : (h₂.node n₂).strays = none

structure Posed (h₀ h₁ h₂ : Heap) (n₁ n₂ : NodeId) (grads₁ grads₂ : List Value) : Prop extends
    h₀.Twins h₁ h₂ n₁ n₂ where
  grads : List.Forall₂ (Value.Alike h₀ h₁ h₂) grads₁ grads₂

section Posed
variable {h₀ h₁ h₂ h₁' h₂' : Heap} {a : Ambient} {w₁ w₂ : Workspace} {n₁ n₂ : NodeId} {grads₁ grads₂ : List Value}

theorem Heap.Twins.grows (h : h₀.Twins h₁ h₂ n₁ n₂) (hg₁ : h₁.GrowsTo h₁') (hg₂ : h₂.GrowsTo h₂') :
    h₀.Twins h₁' h₂' n₁ n₂ := by
  obtain ⟨hn₁, hn₂⟩ := h.alike.grounded h.left h.right
  exact ⟨h.left.trans hg₁, h.right.trans hg₂, h.alike.grows hg₁ hg₂, hg₁.node_eq _ hn₁.has ▸ h.strays₁,
    hg₂.node_eq _ hn₂.has ▸ h.strays₂⟩

theorem Posed.grows (h : Posed h₀ h₁ h₂ n₁ n₂ grads₁ grads₂) (hg₁ : h₁.GrowsTo h₁') (hg₂ : h₂.GrowsTo h₂') :
    Posed h₀ h₁' h₂' n₁ n₂ grads₁ grads₂ :=
  ⟨h.toTwins.grows hg₁ hg₂, alike_all_grows h.grads hg₁ hg₂⟩

theorem Posed.inputs (h : Posed h₀ h₁ h₂ n₁ n₂ grads₁ grads₂) :
    List.Forall₂ (Value.Alike h₀ h₁ h₂) (h₁.node n₁).links.inputs (h₂.node n₂).links.inputs := by
  rw [Node.links_inputs h.strays₁, Node.links_inputs h.strays₂]
  exact alike_map_entry (h.alike.inputs h.left h.right)

theorem Posed.outline (h : Posed h₀ h₁ h₂ n₁ n₂ grads₁ grads₂) :
    Outline.of (h₁.node n₁) grads₁.length = Outline.of (h₂.node n₂) grads₂.length := by
  unfold Outline.of
  rw [h.alike.op_eq h.left h.right, h.alike.attrs_eq h.left h.right, h.inputs.length_eq, h.grads.length_eq]

theorem Heap.Alike.entries (hg₁ : h₀.GrowsTo h₁) (hg₂ : h₀.GrowsTo h₂) (h : h₀.Alike h₁ h₂ n₁ n₂) :
    List.Forall₂ (h₀.AlikeEntry h₁ h₂) (h₁.entries n₁) (h₂.entries n₂) := by
  unfold Heap.entries Heap.outputs
  rw [h.outputs_eq hg₁ hg₂, List.forall₂_map_left_iff, List.forall₂_map_right_iff]
  exact List.forall₂_same.mpr fun i _ => ⟨rfl, h⟩

theorem Posed.input (h : Posed h₀ w₁.heap w₂.heap n₁ n₂ grads₁ grads₂) (position : Int) :
    Paired (Rule.input n₁ position) (Rule.input n₂ position) a w₁ w₂ fun h₁ h₂ => Value.Alike h₀ h₁ h₂ := by
  show Paired (Rule.pick (w₁.heap.node n₁).links.inputs position) (Rule.pick (w₂.heap.node n₂).links.inputs position)
    a w₁ w₂ _
  exact .pick h.inputs position

theorem Posed.operand (h : Posed h₀ w₁.heap w₂.heap n₁ n₂ grads₁ grads₂) (operand : Operand) :
    Paired (operand.eval n₁ grads₁) (operand.eval n₂ grads₂) a w₁ w₂ fun h₁ h₂ => Value.Alike h₀ h₁ h₂ := by
  cases operand with
  | gradient position => exact .pick h.grads position
  | input position => exact h.input position
  | output index => exact .output h.left h.right h.alike index

namespace Recipe

theorem create_paired {vs₁ vs₂ : List Value} (h : Posed h₀ w₁.heap w₂.heap n₁ n₂ grads₁ grads₂)
    (hvs : List.Forall₂ (Value.Alike h₀ w₁.heap w₂.heap) vs₁ vs₂) (name : Option (String → String)) (op : String)
    (attrs : Ledger String Datum) (ds₁ ds₂ : List NodeId) :
    Paired (create n₁ name op attrs vs₁ ds₁) (create n₂ name op attrs vs₂ ds₂) a w₁ w₂ fun h₁ h₂ => h₀.Alike h₁ h₂ :=
  .heap (.apply h.left h.right hvs op attrs _ _ ds₁ ds₂)

theorem outputOf_paired {v₁ v₂ : Value} (hg₁ : h₀.GrowsTo w₁.heap) (hg₂ : h₀.GrowsTo w₂.heap)
    (hv : Value.Alike h₀ w₁.heap w₂.heap v₁ v₂) (index : Int) :
    Paired (outputOf v₁ index) (outputOf v₂ index) a w₁ w₂ fun h₁ h₂ => Value.Alike h₀ h₁ h₂ := by
  cases hv with
  | data d => exact .throw
  | node hn => exact .output hg₁ hg₂ hn index
  | entry he => exact .throw

theorem run_paired (recipe : Recipe) : ∀ {w₁ w₂ : Workspace} {vs₁ vs₂ : List Value},
    Posed h₀ w₁.heap w₂.heap n₁ n₂ grads₁ grads₂ → List.Forall₂ (Value.Alike h₀ w₁.heap w₂.heap) vs₁ vs₂ →
    Paired (run n₁ grads₁ recipe vs₁) (run n₂ grads₂ recipe vs₂) a w₁ w₂
      fun h₁ h₂ => List.Forall₂ (Value.Alike h₀ h₁ h₂) := by
  induction recipe with
  | fail e => exact fun _ _ => .throw
  | give results => exact fun _ hvs => .pure (forall₂_select hvs (.data .null) results)
  | spread name op attrs args =>
    intro w₁ w₂ vs₁ vs₂ h hvs
    refine .bind (create_paired h (forall₂_select hvs (.data .null) args) name op attrs [] []) ?_
    intro m₁ m₂ w₁' w₂' hg₁ hg₂ hm
    exact .heap (.pure (alike_map_entry (hm.entries (h.left.trans hg₁) (h.right.trans hg₂))))
  | fetch operand rest ih =>
    intro w₁ w₂ vs₁ vs₂ h hvs
    refine .bind (h.operand operand) ?_
    intro v₁ v₂ w₁' w₂' hg₁ hg₂ hv
    exact ih (h.grows hg₁ hg₂) (List.rel_append (alike_all_grows hvs hg₁ hg₂) (.cons hv .nil))
  | make name op attrs args rest ih =>
    intro w₁ w₂ vs₁ vs₂ h hvs
    refine .bind (create_paired h (forall₂_select hvs (.data .null) args) name op attrs [] []) ?_
    intro m₁ m₂ w₁' w₂' hg₁ hg₂ hm
    refine .bind (.output (h.left.trans hg₁) (h.right.trans hg₂) hm 0) ?_
    intro v₁ v₂ w₁'' w₂'' hg₁' hg₂' hv
    have hg₁ := hg₁.trans hg₁'
    have hg₂ := hg₂.trans hg₂'
    exact ih (h.grows hg₁ hg₂) (List.rel_append (alike_all_grows hvs hg₁ hg₂) (.cons hv .nil))
  | node name op attrs args deps rest ih =>
    intro w₁ w₂ vs₁ vs₂ h hvs
    refine .bind (create_paired h (forall₂_select hvs (.data .null) args) name op attrs _ _) ?_
    intro m₁ m₂ w₁' w₂' hg₁ hg₂ hm
    exact ih (h.grows hg₁ hg₂) (List.rel_append (alike_all_grows hvs hg₁ hg₂) (.cons (.node hm) .nil))
  | entry position index rest ih =>
    intro w₁ w₂ vs₁ vs₂ h hvs
    refine .bind (outputOf_paired h.left h.right (forall₂_getD hvs (.data .null) position) index) ?_
    intro v₁ v₂ w₁' w₂' hg₁ hg₂ hv
    exact ih (h.grows hg₁ hg₂) (List.rel_append (alike_all_grows hvs hg₁ hg₂) (.cons hv .nil))

theorem rule_paired (scheme : Outline → Recipe) (h : Posed h₀ w₁.heap w₂.heap n₁ n₂ grads₁ grads₂) :
    Paired (rule scheme n₁ grads₁) (rule scheme n₂ grads₂) a w₁ w₂
      fun h₁ h₂ => List.Forall₂ (Value.Alike h₀ h₁ h₂) := by
  unfold rule
  refine .heap ?_
  dsimp only
  rw [h.outline]
  exact run_paired _ h .nil

end Recipe

namespace RuleExpr

mutual

theorem eval_paired : ∀ (expr : RuleExpr) {w₁ w₂ : Workspace}, Posed h₀ w₁.heap w₂.heap n₁ n₂ grads₁ grads₂ →
    Paired (expr.eval n₁ grads₁) (expr.eval n₂ grads₂) a w₁ w₂ fun h₁ h₂ => Value.Alike h₀ h₁ h₂
  | gradient position, w₁, w₂, h => by rw [eval, eval]; exact .pick h.grads position
  | input position, w₁, w₂, h => by rw [eval, eval]; exact h.input position
  | output index, w₁, w₂, h => by rw [eval, eval]; exact .output h.left h.right h.alike index
  | made op args deps name index, w₁, w₂, h => by
    rw [eval, eval]
    refine .bind (evalAll_paired args h) ?_
    intro vs₁ vs₂ w₁' w₂' hg₁ hg₂ hvs
    have h := h.grows hg₁ hg₂
    refine .bind (evalAll_paired deps h) ?_
    intro ds₁ ds₂ w₁'' w₂'' hg₁ hg₂ _
    have h := h.grows hg₁ hg₂
    refine .heap (.bind (.apply h.left h.right (alike_all_grows hvs hg₁ hg₂) op [] _ _ _ _) ?_)
    intro m₁ m₂ u₁ u₂ hg₁ hg₂ hm
    exact .output (h.left.trans hg₁) (h.right.trans hg₂) hm index
  | nodeOf expr, w₁, w₂, h => by
    rw [eval, eval]
    refine .bind (eval_paired expr h) ?_
    intro v₁ v₂ w₁' w₂' _ _ hv
    cases hv with
    | data d => exact .throw
    | node hn => exact .throw
    | entry he => exact .pure (.node he.2)
  | value d, w₁, w₂, h => by rw [eval, eval]; exact .pure (.data d)

theorem evalAll_paired : ∀ (exprs : List RuleExpr) {w₁ w₂ : Workspace},
    Posed h₀ w₁.heap w₂.heap n₁ n₂ grads₁ grads₂ →
    Paired (evalAll n₁ grads₁ exprs) (evalAll n₂ grads₂ exprs) a w₁ w₂
      fun h₁ h₂ => List.Forall₂ (Value.Alike h₀ h₁ h₂)
  | [], w₁, w₂, h => by rw [evalAll, evalAll]; exact .pure .nil
  | expr :: rest, w₁, w₂, h => by
    rw [evalAll, evalAll]
    refine .bind (eval_paired expr h) ?_
    intro v₁ v₂ w₁' w₂' hg₁ hg₂ hv
    refine .bind (evalAll_paired rest (h.grows hg₁ hg₂)) ?_
    exact fun vs₁ vs₂ w₁'' w₂'' hg₁' hg₂' hvs => .pure (.cons (hv.grows hg₁' hg₂') hvs)

end

theorem rule_paired (exprs : List RuleExpr) (h : Posed h₀ w₁.heap w₂.heap n₁ n₂ grads₁ grads₂) :
    Paired (rule exprs n₁ grads₁) (rule exprs n₂ grads₂) a w₁ w₂
      fun h₁ h₂ => List.Forall₂ (Value.Alike h₀ h₁ h₂) := evalAll_paired exprs h

end RuleExpr

end Posed

end Backprop
