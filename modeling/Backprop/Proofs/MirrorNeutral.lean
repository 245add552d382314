import Backprop.Proofs.Likeness
import Backprop.Proofs.TurnSound

/-!
# Mirroring changes no value

A construction that reads forward values through mirrored copies runs beside
one that reads them from the nodes themselves. A node and its image are alike,
so the rules build alike gradients, and what is requested has the same values
in the end.
-/

namespace Backprop

universe u

/-! ## What arrives is alike -/

section Arrived
variable {h₀ h₁ h₂ h₁' h₂' : Heap} {p : Problem}

def AlikePairs (h₀ h₁ h₂ : Heap) : List (Entry × Entry) → List (Entry × Entry) → Prop :=
  List.Forall₂ fun q₁ q₂ => q₁.1 = q₂.1 ∧ h₀.AlikeEntry h₁ h₂ q₁.2 q₂.2

structure Turn.Alike (h₀ h₁ h₂ : Heap) (t₁ t₂ : Turn) : Prop where
  totals : AlikePairs h₀ h₁ h₂ t₁.totals t₂.totals
  grads : AlikePairs h₀ h₁ h₂ t₁.grads t₂.grads

theorem AlikePairs.grows {pairs₁ pairs₂ : List (Entry × Entry)} (h : AlikePairs h₀ h₁ h₂ pairs₁ pairs₂)
    (hg₁ : h₁.GrowsTo h₁') (hg₂ : h₂.GrowsTo h₂') : AlikePairs h₀ h₁' h₂' pairs₁ pairs₂ :=
  List.Forall₂.imp (fun _ _ hq => ⟨hq.1, hq.2.grows hg₁ hg₂⟩) h

theorem Turn.Alike.grows {t₁ t₂ : Turn} (h : Turn.Alike h₀ h₁ h₂ t₁ t₂) (hg₁ : h₁.GrowsTo h₁')
    (hg₂ : h₂.GrowsTo h₂') : Turn.Alike h₀ h₁' h₂' t₁ t₂ := ⟨h.totals.grows hg₁ hg₂, h.grads.grows hg₁ hg₂⟩

theorem alikePairs_zip (keys : List Entry) {es₁ es₂ : List Entry}
    (h : List.Forall₂ (h₀.AlikeEntry h₁ h₂) es₁ es₂) : AlikePairs h₀ h₁ h₂ (keys.zip es₁) (keys.zip es₂) :=
  forall₂_zip (List.forall₂_refl keys) h

theorem AlikePairs.passedTo {pairs₁ pairs₂ : List (Entry × Entry)} (h : AlikePairs h₀ h₁ h₂ pairs₁ pairs₂)
    (e : Entry) : List.Forall₂ (h₀.AlikeEntry h₁ h₂) (Turn.passedTo pairs₁ e) (Turn.passedTo pairs₂ e) := by
  induction h with
  | nil => exact .nil
  | @cons q₁ q₂ _ _ hq _ ih =>
    rw [Turn.passedTo_cons, Turn.passedTo_cons, hq.1]
    split
    · exact .cons hq.2 ih
    · exact ih

theorem arrived_alike (hseeds : ∀ s ∈ p.seeds, h₀.Grounded s.node) {turns₁ turns₂ : List Turn}
    (h : List.Forall₂ (Turn.Alike h₀ h₁ h₂) turns₁ turns₂) (e : Entry) :
    List.Forall₂ (h₀.AlikeEntry h₁ h₂) (Turn.arrived p turns₁ e) (Turn.arrived p turns₂ e) := by
  unfold Turn.arrived
  refine List.rel_append (List.forall₂_same.mpr fun g hg => Heap.alikeEntry_kept ?_) ?_
  · obtain ⟨q, hq, rfl⟩ := Turn.mem_seeded hg
    exact hseeds _ (List.of_mem_zip hq).2
  · induction h with
    | nil => exact .nil
    | cons ht _ ih =>
      rw [List.flatMap_cons, List.flatMap_cons]
      exact List.rel_append (ht.grads.passedTo e) ih

theorem AlikePairs.get? {known₁ known₂ : Ledger Entry Entry} (h : AlikePairs h₀ h₁ h₂ known₁ known₂) (x : Entry) :
    (Ledger.get? known₁ x = none ∧ Ledger.get? known₂ x = none) ∨
      ∃ e₁ e₂, Ledger.get? known₁ x = some e₁ ∧ Ledger.get? known₂ x = some e₂ ∧ h₀.AlikeEntry h₁ h₂ e₁ e₂ := by
  induction h with
  | nil => exact .inl ⟨rfl, rfl⟩
  | @cons q₁ q₂ _ _ hq _ ih =>
    obtain ⟨k, e₁⟩ := q₁
    obtain ⟨k', e₂⟩ := q₂
    obtain ⟨rfl, he⟩ := hq
    rw [Ledger.get?_cons, Ledger.get?_cons]
    split
    · exact .inr ⟨e₁, e₂, rfl, rfl, he⟩
    · exact ih

theorem known_alike {turns₁ turns₂ : List Turn} (h : List.Forall₂ (Turn.Alike h₀ h₁ h₂) turns₁ turns₂) :
    AlikePairs h₀ h₁ h₂ (Turn.known turns₁) (Turn.known turns₂) := by
  unfold Turn.known
  induction h with
  | nil => exact .nil
  | cons ht _ ih =>
    rw [List.flatMap_cons, List.flatMap_cons]
    exact List.rel_append ht.totals ih

end Arrived

/-! ## Turns are alike -/

section Turns
variable {h₀ : Heap} {a : Ambient} {w₁ w₂ : Workspace} {book : RuleBook} {p : Problem} {m₁ m₂ : Option Selector}
  {mirrors₁ mirrors₂ : Option MirrorMap} {n : NodeId} {turns₁ turns₂ : List Turn}

theorem unnamed_paired (path : List String) (es₁ es₂ : List Entry) (hg₁ : h₀.GrowsTo w₁.heap)
    (hg₂ : h₀.GrowsTo w₂.heap) (h : List.Forall₂ (h₀.AlikeEntry w₁.heap w₂.heap) es₁ es₂) :
    Paired (do Build.unnamed (← Build.operator (← Build.setting path)) (es₁.map .entry))
      (do Build.unnamed (← Build.operator (← Build.setting path)) (es₂.map .entry)) a w₁ w₂
      fun h₁ h₂ => h₀.AlikeEntry h₁ h₂ := by
  refine .bind (.setting path) ?_
  rintro name _ w₁ w₂ hg₁' hg₂' rfl
  refine .bind (.operator name) ?_
  rintro op _ w₁' w₂' hg₁'' hg₂'' rfl
  have hg₁' := hg₁'.trans hg₁''
  have hg₂' := hg₂'.trans hg₂''
  unfold Build.unnamed Build.createOn
  refine .bind (Paired.create (h.imp fun _ _ he => he.grows hg₁' hg₂') op [] none none [] []) ?_
  intro n₁ n₂ w₁'' w₂'' hg₁'' hg₂'' hn
  exact .heap (.ofExcept (hn.entry ((hg₁.trans hg₁').trans hg₁'') ((hg₂.trans hg₂').trans hg₂'') 0))

theorem reduce_paired (hf : p.aggregate = Aggregator.standard) (hg₁ : h₀.GrowsTo w₁.heap) (hg₂ : h₀.GrowsTo w₂.heap)
    {es₁ es₂ : List Entry} (h : List.Forall₂ (h₀.AlikeEntry w₁.heap w₂.heap) es₁ es₂) :
    Paired (Build.reduce p.aggregate es₁) (Build.reduce p.aggregate es₂) a w₁ w₂
      fun h₁ h₂ => h₀.AlikeEntry h₁ h₂ := by
  have hentry : ∀ {x y : Build Entry}, Paired x y a w₁ w₂ (fun h₁ h₂ => h₀.AlikeEntry h₁ h₂) →
      Paired (do return Value.entry (← x)) (do return Value.entry (← y)) a w₁ w₂
        fun h₁ h₂ v₁ v₂ => ∃ e₁ e₂, v₁ = .entry e₁ ∧ v₂ = .entry e₂ ∧ h₀.AlikeEntry h₁ h₂ e₁ e₂ := fun hxy =>
    hxy.bind fun e₁ e₂ _ _ _ _ he => .pure ⟨e₁, e₂, rfl, rfl, he⟩
  unfold Build.reduce
  rw [hf]
  refine .bind (P := fun h₁ h₂ v₁ v₂ => ∃ e₁ e₂, v₁ = .entry e₁ ∧ v₂ = .entry e₂ ∧ h₀.AlikeEntry h₁ h₂ e₁ e₂) ?_ ?_
  · cases h with
    | nil =>
      have hzero : Paired Build.zero Build.zero a w₁ w₂ fun h₁ h₂ => h₀.AlikeEntry h₁ h₂ :=
        unnamed_paired ["autodiff", "zero_op"] [] [] hg₁ hg₂ .nil
      exact hentry hzero
    | @cons e₁ e₂ es₁ es₂ he hes =>
      cases hes with
      | nil => exact .pure ⟨e₁, e₂, rfl, rfl, he⟩
      | @cons e₁' e₂' es₁ es₂ he' hes =>
        have hsum : Paired (Build.sum ((e₁ :: e₁' :: es₁).map .entry)) (Build.sum ((e₂ :: e₂' :: es₂).map .entry)) a
            w₁ w₂ fun h₁ h₂ => h₀.AlikeEntry h₁ h₂ :=
          unnamed_paired ["autodiff", "sum_op"] _ _ hg₁ hg₂ (.cons he (.cons he' hes))
        exact hentry hsum
  · rintro _ _ w₁' w₂' _ _ ⟨e₁, e₂, rfl, rfl, he⟩
    exact .pure he

theorem reduceAll_paired (hf : p.aggregate = Aggregator.standard) :
    ∀ {w₁ w₂ : Workspace} {ess₁ ess₂ : List (List Entry)},
    h₀.GrowsTo w₁.heap → h₀.GrowsTo w₂.heap →
    List.Forall₂ (List.Forall₂ (h₀.AlikeEntry w₁.heap w₂.heap)) ess₁ ess₂ →
    Paired (Build.reduceAll p.aggregate ess₁) (Build.reduceAll p.aggregate ess₂) a w₁ w₂
      fun h₁ h₂ => List.Forall₂ (h₀.AlikeEntry h₁ h₂)
  | w₁, w₂, [], [], _, _, .nil => .pure .nil
  | w₁, w₂, es₁ :: ess₁, es₂ :: ess₂, hg₁, hg₂, .cons hes hess => by
    rw [Build.reduceAll, Build.reduceAll]
    refine .bind (reduce_paired hf hg₁ hg₂ hes) ?_
    intro e₁ e₂ w₁' w₂' hg₁' hg₂' he
    refine .bind (reduceAll_paired hf (hg₁.trans hg₁') (hg₂.trans hg₂')
      (hess.imp fun _ _ hes => hes.imp fun _ _ he => he.grows hg₁' hg₂')) ?_
    exact fun _ _ _ _ hg₁ hg₂ htotals => .pure (.cons (he.grows hg₁ hg₂) htotals)

theorem gradientsOf_agree {h₁ h₂ : Heap} {grads₁ grads₂ : List Value} (op : Op) (node : Node)
    (h : List.Forall₂ (Value.Alike h₀ h₁ h₂) grads₁ grads₂) :
    Agree (List.Forall₂ (h₀.AlikeEntry h₁ h₂)) (Build.gradientsOf op node grads₁)
      (Build.gradientsOf op node grads₂) := by
  induction h with
  | nil => exact .nil
  | cons hv _ ih =>
    cases hv with
    | data d => trivial
    | node hn => trivial
    | entry he => exact ih.map fun _ _ hes => .cons he hes

/-- The rule of a node is found by the node itself, and reads from what stands in for it. -/
theorem pull_paired (hb : book.Formed) (hn : h₀.Has n) {grads₁ grads₂ : List Value}
    (h : Posed h₀ w₁.heap w₂.heap (Turn.forward mirrors₁ n) (Turn.forward mirrors₂ n) grads₁ grads₂) (op : Op)
    (node : Node) :
    Paired (Build.pull book mirrors₁ n op node grads₁) (Build.pull book mirrors₂ n op node grads₂) a w₁ w₂
      fun h₁ h₂ => List.Forall₂ (Value.Alike h₀ h₁ h₂) := by
  have hfind : Paired (book.find n) (book.find n) a w₁ w₂ fun h₁ h₂ r q => h₁ = w₁.heap ∧ h₂ = w₂.heap ∧ r = q ∧
      book.lookup n (h₀.node n) = .ok r := by
    obtain ⟨trace₁, hrun₁⟩ := book.find_run n a w₁
    obtain ⟨trace₂, hrun₂⟩ := book.find_run n a w₂
    rw [h.left.node_eq n hn] at hrun₁
    rw [h.right.node_eq n hn] at hrun₂
    cases hl : book.lookup n (h₀.node n) with
    | ok found =>
      rw [hl] at hrun₁ hrun₂
      exact .of_ok hrun₁ hrun₂ (.refl _) (.refl _) ⟨rfl, rfl, rfl, rfl⟩
    | error e =>
      rw [hl] at hrun₁ hrun₂
      exact Coupled.of_error hrun₁ hrun₂ trivial
  unfold Build.pull
  refine hfind.bind ?_
  rintro found _ w₁' w₂' hg₁ hg₂ ⟨-, -, rfl, hl⟩
  cases found with
  | none => exact .throw
  | some implementation =>
    dsimp only
    cases hr : implementation.rule with
    | none => exact .throw
    | some rule =>
      obtain ⟨q, hq, rfl⟩ := RuleBook.mem_lookup hl
      obtain ⟨scheme, rfl⟩ | ⟨exprs, rfl⟩ := hb q hq rule hr
      · exact Recipe.rule_paired scheme (h.grows hg₁ hg₂)
      · exact RuleExpr.rule_paired exprs (h.grows hg₁ hg₂)

variable (hf : p.aggregate = Aggregator.standard) (hb : book.Formed) (hseeds : ∀ s ∈ p.seeds, h₀.Grounded s.node)
include hf hb hseeds

theorem takeTurn_paired (hn : h₀.Has n)
    (ht : h₀.Twins w₁.heap w₂.heap (Turn.forward mirrors₁ n) (Turn.forward mirrors₂ n))
    (hturns : List.Forall₂ (Turn.Alike h₀ w₁.heap w₂.heap) turns₁ turns₂) (level : Level) (op : Op) (node : Node) :
    Paired (Build.takeTurn book { p with mirror := m₁ } mirrors₁ level turns₁ n op node)
      (Build.takeTurn book { p with mirror := m₂ } mirrors₂ level turns₂ n op node) a w₁ w₂
      fun h₁ h₂ => Turn.Alike h₀ h₁ h₂ := by
  unfold Build.takeTurn
  refine .heap ?_
  rw [ht.left.entries_eq hn, ht.right.entries_eq hn]
  have harrived : List.Forall₂ (List.Forall₂ (h₀.AlikeEntry w₁.heap w₂.heap))
      ((h₀.entries n).map (Turn.arrived p turns₁)) ((h₀.entries n).map (Turn.arrived p turns₂)) := by
    rw [List.forall₂_map_left_iff, List.forall₂_map_right_iff]
    exact List.forall₂_same.mpr fun e _ => arrived_alike hseeds hturns e
  refine .bind (reduceAll_paired hf ht.left ht.right harrived) ?_
  intro totals₁ totals₂ w₁' w₂' hg₁ hg₂ htotals
  refine .bind (pull_paired hb hn ⟨ht.grows hg₁ hg₂, alike_map_entry htotals⟩ op node) ?_
  intro grads₁ grads₂ w₁'' w₂'' hg₁' hg₂' hgrads
  rw [hgrads.length_eq]
  split
  · refine .bind (P := fun h₁ h₂ => List.Forall₂ (h₀.AlikeEntry h₁ h₂))
      (.ofExcept (gradientsOf_agree op node hgrads)) ?_
    intro es₁ es₂ w₁₃ w₂₃ hg₁₃ hg₂₃ hes
    refine .bind (P := fun _ _ _ _ => True) (.of_ok rfl rfl (.refl _) (.refl _) trivial) ?_
    intro _ _ w₁₄ w₂₄ hg₁₄ hg₂₄ _
    refine .pure ⟨(alikePairs_zip _ htotals).grows ((hg₁'.trans hg₁₃).trans hg₁₄) ((hg₂'.trans hg₂₃).trans hg₂₄),
      (alikePairs_zip _ hes).grows hg₁₄ hg₂₄⟩
  · exact .throw

theorem turnOf_paired (hn : h₀.Has n)
    (ht : h₀.Twins w₁.heap w₂.heap (Turn.forward mirrors₁ n) (Turn.forward mirrors₂ n))
    (hturns : List.Forall₂ (Turn.Alike h₀ w₁.heap w₂.heap) turns₁ turns₂) (level : Level) :
    Paired (Build.turnOf book { p with mirror := m₁ } mirrors₁ level turns₁ n)
      (Build.turnOf book { p with mirror := m₂ } mirrors₂ level turns₂ n) a w₁ w₂
      fun h₁ h₂ => List.Forall₂ (Turn.Alike h₀ h₁ h₂) := by
  unfold Build.turnOf
  refine .heap ?_
  dsimp only
  rw [ht.left.node_eq n hn, ht.right.node_eq n hn]
  cases (h₀.node n).op with
  | none => exact .pure .nil
  | some op =>
    refine .bind (takeTurn_paired hf hb hseeds hn ht hturns level op _) ?_
    exact fun _ _ _ _ _ _ ht => .pure (.cons ht .nil)

theorem takeTurns_paired (level : Level) : ∀ {ns : List NodeId} {w₁ w₂ : Workspace} {turns₁ turns₂ : List Turn},
    (∀ n ∈ ns, h₀.Has n ∧ h₀.Twins w₁.heap w₂.heap (Turn.forward mirrors₁ n) (Turn.forward mirrors₂ n)) →
    List.Forall₂ (Turn.Alike h₀ w₁.heap w₂.heap) turns₁ turns₂ →
    Paired (Build.takeTurns book { p with mirror := m₁ } mirrors₁ level ns turns₁)
      (Build.takeTurns book { p with mirror := m₂ } mirrors₂ level ns turns₂) a w₁ w₂
      fun h₁ h₂ => List.Forall₂ (Turn.Alike h₀ h₁ h₂)
  | [], w₁, w₂, turns₁, turns₂, _, hturns => .pure hturns
  | n :: ns, w₁, w₂, turns₁, turns₂, ht, hturns => by
    obtain ⟨hn, htn⟩ := ht n (by simp)
    rw [Build.takeTurns, Build.takeTurns]
    refine .bind (turnOf_paired hf hb hseeds hn htn hturns level) ?_
    intro new₁ new₂ w₁' w₂' hg₁ hg₂ hnew
    refine takeTurns_paired level (fun k hk => ?_) (List.rel_append (hturns.imp fun _ _ h => h.grows hg₁ hg₂) hnew)
    obtain ⟨hk₀, htk⟩ := ht k (List.mem_cons_of_mem _ hk)
    exact ⟨hk₀, htk.grows hg₁ hg₂⟩

omit hb in
theorem collect_paired : ∀ (xs : List Entry) {known₁ known₂ : Ledger Entry Entry} {w₁ w₂ : Workspace},
    h₀.GrowsTo w₁.heap → h₀.GrowsTo w₂.heap → List.Forall₂ (Turn.Alike h₀ w₁.heap w₂.heap) turns₁ turns₂ →
    AlikePairs h₀ w₁.heap w₂.heap known₁ known₂ →
    Paired (Build.collect { p with mirror := m₁ } turns₁ xs known₁)
      (Build.collect { p with mirror := m₂ } turns₂ xs known₂) a w₁ w₂ fun h₁ h₂ => List.Forall₂ (h₀.AlikeEntry h₁ h₂)
  | [], _, _, w₁, w₂, _, _, _, _ => .pure .nil
  | x :: xs, known₁, known₂, w₁, w₂, hg₁, hg₂, hturns, hknown => by
    rw [Build.collect, Build.collect]
    obtain ⟨hx₁, hx₂⟩ | ⟨e₁, e₂, hx₁, hx₂, he⟩ := hknown.get? x
    · rw [hx₁, hx₂]
      refine .bind (reduce_paired hf hg₁ hg₂ (arrived_alike hseeds hturns x)) ?_
      intro e₁ e₂ w₁' w₂' hg₁' hg₂' he
      refine .bind (collect_paired xs (hg₁.trans hg₁') (hg₂.trans hg₂') (hturns.imp fun _ _ h => h.grows hg₁' hg₂')
        (List.rel_append (hknown.grows hg₁' hg₂') (.cons ⟨rfl, he⟩ .nil))) ?_
      exact fun _ _ _ _ hg₁ hg₂ hes => .pure (.cons (he.grows hg₁ hg₂) hes)
    · rw [hx₁, hx₂]
      refine .bind (collect_paired xs hg₁ hg₂ hturns hknown) ?_
      exact fun _ _ _ _ hg₁ hg₂ hes => .pure (.cons (he.grows hg₁ hg₂) hes)

end Turns

/-! ## Nodes and their images -/

section Images
variable {h₀ h₁ h₂ : Heap} {test : Selector} {m : MirrorMap} {order : List NodeId}

structure Selector.Selects (test : Selector) (h : Heap) (ns : List NodeId) : Prop where
  total : ∀ n ∈ ns, ∃ b, test.holds n (h.node n) = .ok b
  spares : ∀ n ∈ ns, (h.node n).op = none → test.holds n (h.node n) = .ok false

variable (hm : m.Reflects h₀ h₂ test order) (ht : test.Selects h₀ order) (hg₁ : h₀.GrowsTo h₁)
  (hs : ∀ n ∈ order, (h₀.node n).strays = none)
include hm ht hg₁ hs

/-- A copy applies the operator of its original to the images of the inputs, which come before it. -/
theorem forward_alike : ∀ {ns : List NodeId}, h₀.Settled ns → (∀ n ∈ ns, n ∈ order ∧ h₀.Has n) →
    ∀ n ∈ ns, h₀.Alike h₁ h₂ n (Turn.forward (some m) n)
  | [], _, _ => by simp
  | k :: ns, hsettled, hns => by
    have ih := forward_alike hsettled.2 fun n hn => hns n (List.mem_cons_of_mem _ hn)
    intro n hn
    rcases List.mem_cons.mp hn with rfl | hn
    · obtain ⟨ho, hhas⟩ := hns n hn
      rcases hm.image n ho with ⟨-, himage⟩ | ⟨hholds, hhas₂, name, hcopy⟩
      · rw [himage]
        exact .kept (Heap.grounded_of_settled hsettled (fun k hk => (hns k hk).2) n hn)
      -- what was copied is no variable, so the copy is an application like the original
      · obtain ⟨op, hop⟩ : ∃ op, (h₀.node n).op = some op := by
          refine Option.ne_none_iff_exists'.mp fun hop => ?_
          rw [ht.spares n ho hop] at hholds
          cases hholds
        have happ₁ : h₁.Applies n op (h₀.node n).attrs (h₀.node n).inputs := by
          have heq := hg₁.node_eq n hhas
          exact ⟨hg₁.has hhas, heq ▸ hop, heq ▸ rfl, heq ▸ rfl, heq ▸ hs n ho⟩
        have happ₂ : h₂.Applies (Turn.forward (some m) n) op (h₀.node n).attrs
            ((h₀.node n).inputs.map m.imageEntry) := by
          refine ⟨hhas₂, ?_, ?_, ?_, ?_⟩
          · rw [hcopy]; exact hop
          · rw [hcopy]; rfl
          · rw [hcopy]; rfl
          · rw [hcopy]; exact hs n ho
        refine .of_applies happ₁ happ₂ ?_
        rw [List.forall₂_map_right_iff]
        refine List.forall₂_same.mpr fun e he => ⟨rfl, ih e.node ?_⟩
        exact hsettled.1 _ (List.mem_append_left _ (List.mem_map_of_mem he))
    · exact ih n hn

theorem forward_twins (hg₂ : h₀.GrowsTo h₂) (hsettled : h₀.Settled order.reverse) (hhas : ∀ n ∈ order, h₀.Has n)
    {n : NodeId} (hn : n ∈ order) : h₀.Twins h₁ h₂ n (Turn.forward (some m) n) where
  left := hg₁
  right := hg₂
  alike := forward_alike hm ht hg₁ hs hsettled (fun k hk => by
    have hk := List.mem_reverse.mp hk
    exact ⟨hk, hhas k hk⟩) n (List.mem_reverse.mpr hn)
  strays₁ := by rw [hg₁.node_eq n (hhas n hn)]; exact hs n hn
  strays₂ := by
    rcases hm.image n hn with ⟨-, himage⟩ | ⟨-, -, name, hcopy⟩
    · rw [himage, hg₂.node_eq n (hhas n hn)]; exact hs n hn
    · rw [hcopy]; exact hs n hn

end Images

/-! ## The whole construction -/

section Whole
variable {p : Problem} {a : Ambient} {w : Workspace} {book : RuleBook} {test : Selector}

theorem mirrorMap_succeeds (hp : p.Fits w.heap) (hs : ∀ n ∈ p.order w.heap, (w.heap.node n).strays = none)
    (ht : test.Selects w.heap (p.order w.heap)) {text : String}
    (hsuffix : a.profile.get ["autodiff", "mirror_suffix"] = .ok (.text text)) :
    ∃ m w', Build.mirrorMap (p.order w.heap) (some test) none a w = .ok (some m) w' ∧ w.heap.GrowsTo w'.heap ∧
      m.Reflects w.heap w'.heap test (p.order w.heap) := by
  have harr := hp.arranged
  have htotal : ∀ t ∈ some test, ∀ n ∈ p.order w.heap, ∃ b, t.holds n (w.heap.node n) = .ok b := by
    intro t ht'
    cases ht'
    exact ht.total
  obtain ⟨mirrors, w', hrun, hg, ⟨⟨⟩, -⟩ | ⟨t, m, ht', rfl, hm⟩⟩ := Build.mirrorMap_run harr.settled
    (List.nodup_reverse.mp harr.nodup) (fun n hn => harr.has n (List.mem_reverse.mpr hn))
    (Heap.flaw_none_of_checkOrder (Heap.checkOrder_ok hs)) hsuffix htotal
  cases ht'
  exact ⟨m, w', hrun, hg, hm⟩

theorem prepared_paired (hp : p.Fits w.heap) (hs : ∀ n ∈ p.order w.heap, (w.heap.node n).strays = none)
    (ht : test.Selects w.heap (p.order w.heap)) {text : String}
    (hsuffix : a.profile.get ["autodiff", "mirror_suffix"] = .ok (.text text)) :
    Paired (Build.prepared { p with mirror := none }) (Build.prepared { p with mirror := some test }) a w w
      fun h₁ h₂ mirrors₁ mirrors₂ => ∀ n ∈ p.order w.heap,
        w.heap.Twins h₁ h₂ (Turn.forward mirrors₁ n) (Turn.forward mirrors₂ n) := by
  have harr := hp.arranged
  have hhas : ∀ n ∈ p.order w.heap, w.heap.Has n := fun n hn => harr.has n (List.mem_reverse.mpr hn)
  let w₀ : Workspace := { w with trace := w.trace.push (Build.visitEvent p w.heap) }
  have hvisited : ∀ mirror, Build.visited { p with mirror } a w = .ok () w₀ := fun mirror => Build.visited_run hs
  obtain ⟨m, w', hrun, hg, hm⟩ := mirrorMap_succeeds (w := w₀) hp hs ht hsuffix
  have hplain : Build.prepared { p with mirror := none } a w = .ok none w₀ := by
    unfold Build.prepared
    rw [run_bind_ok (r := w.heap) (u := w) rfl, run_bind_ok (hvisited none)]
    rfl
  have hmirrored : Build.prepared { p with mirror := some test } a w = .ok (some m) w' := by
    unfold Build.prepared
    rw [run_bind_ok (r := w.heap) (u := w) rfl, run_bind_ok (hvisited (some test))]
    exact hrun
  exact .of_ok hplain hmirrored (.refl _) hg fun n hn => forward_twins hm ht (.refl _) hs hg harr.settled hhas hn

theorem relay_paired (hp : p.Fits w.heap) (hf : p.aggregate = Aggregator.standard) (hb : book.Formed)
    (hs : ∀ n ∈ p.order w.heap, (w.heap.node n).strays = none) (hseeds : ∀ s ∈ p.seeds, w.heap.Grounded s.node)
    (ht : test.Selects w.heap (p.order w.heap)) {text : String}
    (hsuffix : a.profile.get ["autodiff", "mirror_suffix"] = .ok (.text text)) :
    Paired (Build.relay book { p with mirror := none }) (Build.relay book { p with mirror := some test }) a w w
      fun h₁ h₂ g₁ g₂ => w.heap.GrowsTo h₁ ∧ w.heap.GrowsTo h₂ ∧
        List.Forall₂ (w.heap.AlikeEntry h₁ h₂) g₁.outputs g₂.outputs := by
  have hhas : ∀ n ∈ p.order w.heap, w.heap.Has n := fun n hn => hp.arranged.has n (List.mem_reverse.mpr hn)
  unfold Build.relay Build.turnsOf Build.turnLevel
  refine .heap ?_
  simp only [bind_assoc, pure_bind]
  refine .bind (prepared_paired hp hs ht hsuffix) ?_
  intro mirrors₁ mirrors₂ w₁ w₂ hg₁ hg₂ htwins
  refine .bind (.flag _) ?_
  rintro verbose _ w₁' w₂' hg₁' hg₂' rfl
  have hg₁ := hg₁.trans hg₁'
  have hg₂ := hg₂.trans hg₂'
  -- both runs go through the same nodes, one reading each from itself, the other from its image
  refine .bind (takeTurns_paired hf hb hseeds _ (fun n hn => ?_) .nil) ?_
  · have hn := List.mem_reverse.mp hn
    exact ⟨hhas n hn, (htwins n hn).grows hg₁' hg₂'⟩
  intro turns₁ turns₂ w₁₃ w₂₃ hg₁₃ hg₂₃ hturns
  have hg₁ := hg₁.trans hg₁₃
  have hg₂ := hg₂.trans hg₂₃
  refine .bind (collect_paired hf hseeds p.xs hg₁ hg₂ hturns (known_alike hturns)) ?_
  exact fun es₁ es₂ w₁₄ w₂₄ hg₁₄ hg₂₄ hes => .pure ⟨hg₁.trans hg₁₄, hg₂.trans hg₂₄, hes⟩

end Whole

/-- With a test that spares variables the construction succeeds whenever it does without, and has the same values. -/
theorem Build.mirroring_is_neutral {p : Problem} {a : Ambient} {work : Workspace} {book : RuleBook} {test : Selector}
    (hp : p.Fits work.heap) (hs : ∀ n, work.heap.Reachable (p.ys.map Entry.node) n → (work.heap.node n).strays = none)
    (hseeds : ∀ s ∈ p.seeds, work.heap.HasEntry s) (hac : work.heap.AcyclicFrom (p.seeds.map Entry.node))
    (hf : p.aggregate = Aggregator.standard) (hb : book.Formed)
    (ht : ∀ n, work.heap.Reachable (p.ys.map Entry.node) n → ∃ b, test.holds n (work.heap.node n) = .ok b ∧
      ((work.heap.node n).op = none → b = false))
    (hsuffix : ∃ text, a.profile.get ["autodiff", "mirror_suffix"] = .ok (.text text)) :
    ((∃ g w, Build.sweep { problem := { p with mirror := some test } } book a work = .ok g w) ↔
      ∃ g w, Build.sweep { problem := { p with mirror := none } } book a work = .ok g w) ∧
    ∀ g₁ w₁ g₂ w₂, Build.sweep { problem := { p with mirror := some test } } book a work = .ok g₁ w₁ →
      Build.sweep { problem := { p with mirror := none } } book a work = .ok g₂ w₂ →
      (∀ out ∈ g₁.outputs, w₁.heap.Grounded out.node) ∧ (∀ out ∈ g₂.outputs, w₂.heap.Grounded out.node) ∧
      ∀ {V : Type u} [Nonempty V] (I : Interpretation V) (ρ : NodeId → V),
        g₁.outputs.map (w₁.heap.value I ρ) = g₂.outputs.map (w₂.heap.value I ρ) := by
  have harr := hp.arranged
  have hreach : ∀ n ∈ p.order work.heap, work.heap.Reachable (p.ys.map Entry.node) n := fun n hn =>
    harr.reachable n (List.mem_reverse.mpr hn)
  have hselects : test.Selects work.heap (p.order work.heap) := by
    refine ⟨fun n hn => ?_, fun n hn hop => ?_⟩
    · obtain ⟨b, hb, -⟩ := ht n (hreach n hn)
      exact ⟨b, hb⟩
    · obtain ⟨b, hb, hfalse⟩ := ht n (hreach n hn)
      rw [hb, hfalse hop]
  have hgrounded := Heap.grounded_of_acyclic hp.wellFormed hseeds hac
  obtain ⟨text, hsuffix⟩ := hsuffix
  have hpaired := relay_paired (a := a) hp hf hb (fun n hn => hs n (hreach n hn)) hgrounded hselects hsuffix
  have hrelay : ∀ mirror, Build.sweep { problem := { p with mirror } } book a work =
      Build.relay book { p with mirror } a work := fun mirror =>
    Build.sweep_eq_relay ⟨hp.wellFormed, hp.ys, hp.xs, hp.acyclic⟩ hb.grows (hf ▸ Aggregator.standard_proper)
  rw [hrelay, hrelay]
  refine ⟨⟨fun ⟨g, w, h⟩ => ?_, fun ⟨g, w, h⟩ => ?_⟩, fun g₁ w₁ g₂ w₂ h₁ h₂ => ?_⟩
  · obtain ⟨g', w', h', -⟩ := Coupled.ok_right hpaired h
    exact ⟨g', w', h'⟩
  · obtain ⟨g', w', h', -⟩ := Coupled.ok_left hpaired h
    exact ⟨g', w', h'⟩
  · obtain ⟨g', w', h', -, -, hg₂, hg₁, halike⟩ := Coupled.ok_left hpaired h₂
    rw [h₁] at h'
    cases h'
    obtain ⟨hout₂, hout₁⟩ := Heap.grounded_of_alike hg₂ hg₁ halike
    exact ⟨hout₁, hout₂, fun I ρ => (Heap.map_value_of_alike hg₂ hg₁ I ρ halike).symm⟩

theorem Build.mirroring_is_neutral_sample :
    ((∃ g w, Build.sweep { problem := .sample (some .operators) } .builtins .initial { heap := .sample } = .ok g w) ↔
      ∃ g w, Build.sweep { problem := .sample none } .builtins .initial { heap := .sample } = .ok g w) ∧
    ∀ g₁ w₁ g₂ w₂,
      Build.sweep { problem := .sample (some .operators) } .builtins .initial { heap := .sample } = .ok g₁ w₁ →
      Build.sweep { problem := .sample none } .builtins .initial { heap := .sample } = .ok g₂ w₂ →
      (∀ out ∈ g₁.outputs, w₁.heap.Grounded out.node) ∧ (∀ out ∈ g₂.outputs, w₂.heap.Grounded out.node) ∧
      ∀ {V : Type} [Nonempty V] (I : Interpretation V) (ρ : NodeId → V),
        g₁.outputs.map (w₁.heap.value I ρ) = g₂.outputs.map (w₂.heap.value I ρ) := by
  have hstrays : ∀ i ≤ 6, (Heap.sample.node ⟨i⟩).strays.isNone = true := by decide
  have hle : ∀ n, Heap.sample.Reachable ((Problem.sample none).ys.map Entry.node) n → n.index ≤ 6 := by
    intro n hn
    obtain ⟨r, hr, hle⟩ := Heap.sample_ascending.le_of_reachable hn
    fin_cases hr
    · exact hle
    · exact Nat.le_trans hle (by decide)
    · exact hle
  refine mirroring_is_neutral (p := .sample none) (Problem.sample_fits none)
    (fun n hn => Option.isNone_iff_eq_none.mp (hstrays n.index (hle n hn))) ?_
    (Heap.sample_ascending.acyclicFrom _) rfl RuleBook.builtins_follows.formed (fun n _ => ?_) ⟨_, rfl⟩
  · exact show ∀ s ∈ [(⟨⟨7⟩, 0⟩ : Entry), ⟨⟨7⟩, 0⟩, ⟨⟨1⟩, 0⟩], Heap.sample.HasEntry s by decide
  · refine ⟨!(Heap.sample.node n).isVariable, rfl, fun hop => ?_⟩
    unfold Node.isVariable
    rw [hop]
    rfl

end Backprop
