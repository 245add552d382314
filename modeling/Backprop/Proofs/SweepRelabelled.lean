import Backprop.Proofs.Relabelling
import Backprop.Proofs.SweepCreation

/-!
# Sweeps on relabelled heaps

Two sweeps over corresponding nodes run in lockstep: they visit corresponding
nodes in the same order, mirror the same of them, and find, aggregate and pass
on corresponding gradients. Cycles make no difference, nor do entries that are
not there: then both fail.
-/

namespace Backprop

/-! ## Traversal -/

namespace Relabelling

section Traversal
variable {r : Relabelling} {h h₁ h₂ : Heap} {n₁ n₂ : NodeId} {seen₁ seen₂ : Array Bool} {done₁ done₂ : List NodeId}

theorem Joins.predecessors (hj : r.Joins h₁ h₂) (hn : r.Twin h₁ n₁ n₂) :
    List.Forall₂ (r.Twin h₁) (h₁.predecessors n₁) (h₂.predecessors n₂) := by
  have ht := hj.nodes n₁ n₂ hn
  refine List.rel_append ?_ ht.deps
  rw [List.forall₂_map_left_iff, List.forall₂_map_right_iff]
  exact ht.inputs.imp fun _ _ he => he.2

def TwinMarks (r : Relabelling) (h : Heap) (seen₁ seen₂ : Array Bool) : Prop :=
  ∀ n₁ n₂, r.Twin h n₁ n₂ → seen₁[n₁.index]? = seen₂[n₂.index]?

theorem TwinMarks.mark (hs : r.TwinMarks h seen₁ seen₂) (hn : r.Twin h n₁ n₂) (hopen : seen₁[n₁.index]? = some false) :
    r.TwinMarks h (seen₁.setIfInBounds n₁.index true) (seen₂.setIfInBounds n₂.index true) := by
  intro m₁ m₂ hm
  have hopen₂ : seen₂[n₂.index]? = some false := (hs n₁ n₂ hn).symm.trans hopen
  rw [Heap.mark_get? hopen, Heap.mark_get? hopen₂]
  by_cases he : m₁ = n₁
  · rw [if_pos he, if_pos ((hm.eq_iff hn).mp he)]
  · rw [if_neg he, if_neg fun he₂ => he ((hm.eq_iff hn).mpr he₂)]
    exact hs m₁ m₂ hm

def TwinFrame (r : Relabelling) (h : Heap) (f₁ f₂ : Heap.Frame) : Prop :=
  r.Twin h f₁.1 f₂.1 ∧ List.Forall₂ (r.Twin h) f₁.2 f₂.2

theorem Joins.frame (hj : r.Joins h₁ h₂) (hn : r.Twin h₁ n₁ n₂) :
    r.TwinFrame h₁ (n₁, h₁.predecessors n₁) (n₂, h₂.predecessors n₂) := ⟨hn, hj.predecessors hn⟩

theorem twin_walk (hj : r.Joins h₁ h₂) {stack₁ stack₂ : List Heap.Frame}
    (hstack : List.Forall₂ (r.TwinFrame h₁) stack₁ stack₂)
    (hseen : r.TwinMarks h₁ seen₁ seen₂) (hdone : List.Forall₂ (r.Twin h₁) done₁ done₂) :
    r.TwinMarks h₁ (h₁.walk .cons stack₁ seen₁ done₁).1 (h₂.walk .cons stack₂ seen₂ done₂).1 ∧
      List.Forall₂ (r.Twin h₁) (h₁.walk .cons stack₁ seen₁ done₁).2 (h₂.walk .cons stack₂ seen₂ done₂).2 := by
  -- the induction follows the first walk; the marks send the second one the same way
  fun_induction h₁.walk .cons stack₁ seen₁ done₁ generalizing stack₂ seen₂ done₂ with
  | case1 seen done =>
    cases hstack
    rw [Heap.walk]
    exact ⟨hseen, hdone⟩
  | case2 seen done n rest ih =>
    cases hstack with
    | @cons _ frame _ _ hframe hrest =>
      obtain ⟨m, cs⟩ := frame
      obtain ⟨hn, hcs⟩ := hframe
      cases hcs
      rw [Heap.walk]
      exact ih hrest hseen (.cons hn hdone)
  | case3 seen done n c cs rest hopen ih =>
    cases hstack with
    | @cons _ frame _ _ hframe hrest =>
      obtain ⟨m, cs'⟩ := frame
      obtain ⟨hn, hcs⟩ := hframe
      cases hcs with
      | @cons _ d _ _ hc hcs =>
        rw [Heap.walk, if_pos ((hseen c d hc).symm.trans hopen)]
        exact ih (.cons (hj.frame hc) (.cons ⟨hn, hcs⟩ hrest)) (hseen.mark hc hopen) hdone
  | case4 seen done n c cs rest hopen ih =>
    cases hstack with
    | @cons _ frame _ _ hframe hrest =>
      obtain ⟨m, cs'⟩ := frame
      obtain ⟨hn, hcs⟩ := hframe
      cases hcs with
      | @cons _ d _ _ hc hcs =>
        rw [Heap.walk, if_neg fun hopen₂ => hopen ((hseen c d hc).trans hopen₂)]
        exact ih (.cons ⟨hn, hcs⟩ hrest) hseen hdone

theorem twin_explore (hj : r.Joins h₁ h₂) {heads₁ heads₂ : List NodeId}
    (hheads : List.Forall₂ (r.Twin h₁) heads₁ heads₂) (hseen : r.TwinMarks h₁ seen₁ seen₂)
    (hdone : List.Forall₂ (r.Twin h₁) done₁ done₂) :
    List.Forall₂ (r.Twin h₁) (heads₁.foldl (h₁.explore .cons) (seen₁, done₁)).2
      (heads₂.foldl (h₂.explore .cons) (seen₂, done₂)).2 := by
  induction hheads generalizing seen₁ seen₂ done₁ done₂ with
  | nil => exact hdone
  | @cons n₁ n₂ _ _ hn _ ih =>
    rw [List.foldl_cons, List.foldl_cons, Heap.explore, Heap.explore]
    by_cases hopen : seen₁[n₁.index]? = some false
    · rw [if_pos hopen, if_pos ((hseen n₁ n₂ hn).symm.trans hopen)]
      obtain ⟨hseen', hdone'⟩ := twin_walk hj (.cons (hj.frame hn) .nil) (hseen.mark hn hopen) hdone
      exact ih hseen' hdone'
    · rw [if_neg hopen, if_neg fun hopen₂ => hopen ((hseen n₁ n₂ hn).trans hopen₂)]
      exact ih hseen hdone

theorem twin_postorder (hj : r.Joins h₁ h₂) {heads₁ heads₂ : List NodeId}
    (hheads : List.Forall₂ (r.Twin h₁) heads₁ heads₂) :
    List.Forall₂ (r.Twin h₁) (h₁.postorder heads₁) (h₂.postorder heads₂) := by
  unfold Heap.postorder
  rw [List.forall₂_reverse_iff]
  refine twin_explore hj hheads (fun n₁ n₂ hn => ?_) .nil
  have hhas₁ : n₁.index < h₁.size := hj.has₁ hn
  have hhas₂ : n₂.index < h₂.size := hj.has₂ hn
  simp [hhas₁, hhas₂]

end Traversal

end Relabelling

/-! ## The rules that are found -/

namespace RuleBook.Follows
variable {book : RuleBook} {recipes : List (String × (Outline → Recipe))} {n₁ n₂ : NodeId} {node₁ node₂ : Node}

theorem candidates_congr (hb : book.Follows recipes) (op : String) :
    RuleBook.candidates op n₁ node₁ book = RuleBook.candidates op n₂ node₂ book := by
  induction hb with
  | nil => rfl
  | @cons q s book recipes hq _ ih =>
    obtain ⟨path, registration⟩ := q
    obtain ⟨-, -, happlies⟩ := hq
    have hholds : ∀ n node, registration.implementation.applies.holds n node = .ok true := by
      intro n node
      rw [happlies]
      rfl
    simp only [RuleBook.candidates, hholds, ih]

/-- Which recipe a node gets depends on its operator and its attributes. -/
theorem lookup_congr (hb : book.Follows recipes) (hop : node₁.op = node₂.op) (hattrs : node₁.attrs = node₂.attrs) :
    book.lookup n₁ node₁ = book.lookup n₂ node₂ := by
  unfold RuleBook.lookup RuleBook.wanted
  rw [hop, hattrs]
  cases node₂.op with
  | none => rfl
  | some op => exact congrArg (Except.map _) (hb.candidates_congr op.name)

theorem rule_of_mem (hb : book.Follows recipes) {q : String × Registration} (hq : q ∈ book) :
    ∃ scheme, q.2.implementation.rule = some (Recipe.rule scheme) := by
  induction hb with
  | nil => cases hq
  | cons hrule _ ih =>
    rcases List.mem_cons.mp hq with rfl | hq
    · exact ⟨_, hrule.1⟩
    · exact ih hq

end RuleBook.Follows

namespace Sweep

theorem visit_run {a : Ambient} {s : Stage}
    (hs : ∀ n ∈ s.sweep.problem.order s.work.heap, (s.work.heap.node n).strays = none) :
    visit a s = .ok ()
      { work := { s.work with trace := s.work.trace.push (Build.visitEvent s.sweep.problem s.work.heap) }
        sweep := { s.sweep with
          order := s.sweep.problem.order s.work.heap
          slots := (s.sweep.problem.order s.work.heap).map fun n => (n, freshSlots s.work.heap n) } } := by
  have hcheck := Heap.checkOrder_ok hs
  have hord : s.work.heap.postorder (s.sweep.problem.ys.map Entry.node) = s.sweep.problem.order s.work.heap := rfl
  unfold visit
  rw [run_bind_ok (r := s.work.heap) (u := s) rfl, run_bind_ok (r := s.sweep) (u := s) rfl, hord, hcheck,
    Heap.finished_of_checkOrder hcheck]
  rfl

end Sweep

namespace Relabelling
variable {r : Relabelling} {h h' h₁ h₂ : Heap} {n₁ n₂ : NodeId} {a : Ambient}

section Build
variable {w₁ w₂ : Workspace}

theorem Builds.find {book : RuleBook} {recipes : List (String × (Outline → Recipe))} (hb : book.Follows recipes)
    (hj : r.Joins w₁.heap w₂.heap) (hn : r.Twin w₁.heap n₁ n₂) :
    r.Builds (book.find n₁) (book.find n₂) a w₁ w₂ fun h p q => h = w₁.heap ∧ p = q ∧
      ∀ i, p = some i → ∃ scheme, i.rule = some (Recipe.rule scheme) := by
  have ht := hj.nodes n₁ n₂ hn
  obtain ⟨trace₁, hrun₁⟩ := book.find_run n₁ a w₁
  obtain ⟨trace₂, hrun₂⟩ := book.find_run n₂ a w₂
  have hsame : book.lookup n₁ (w₁.heap.node n₁) = book.lookup n₂ (w₂.heap.node n₂) := hb.lookup_congr ht.op ht.attrs
  rw [← hsame] at hrun₂
  cases hl : book.lookup n₁ (w₁.heap.node n₁) with
  | error e =>
    rw [hl] at hrun₁ hrun₂
    exact .of_error hrun₁ hrun₂
  | ok found =>
    rw [hl] at hrun₁ hrun₂
    refine .of_ok hrun₁ hrun₂ (.refl _) hj ⟨rfl, rfl, fun i hi => ?_⟩
    obtain ⟨q, hq, rfl⟩ := RuleBook.mem_lookup (hi ▸ hl)
    exact hb.rule_of_mem hq

/-! ## Mirrored copies -/

def TwinTests (r : Relabelling) (test₁ test₂ : Selector) : Prop :=
  ∀ n, r.domain n → Agree (fun b₁ b₂ => b₁ = b₂) (test₁.holds n (r.left.node n))
    (test₂.holds (r.map n) (r.right.node (r.map n)))

abbrev TwinMirrors (r : Relabelling) (h : Heap) (m₁ m₂ : MirrorMap) : Prop := Ledger.Matches (r.Twin h) (r.Twin h) m₁ m₂

variable {m₁ m₂ : MirrorMap}

theorem TwinMirrors.grows (hm : r.TwinMirrors h m₁ m₂) (hg : h.GrowsTo h') : r.TwinMirrors h' m₁ m₂ :=
  hm.imp fun _ _ hpq => ⟨hpq.1.grows hg, hpq.2.grows hg⟩

theorem TwinMirrors.get? (hm : r.TwinMirrors h m₁ m₂) (hn : r.Twin h n₁ n₂) :
    Option.Rel (r.Twin h) (Ledger.get? m₁ n₁) (Ledger.get? m₂ n₂) := Ledger.Matches.get? hm fun _ _ hk => hk.eq_iff hn

theorem TwinMirrors.put (hm : r.TwinMirrors h m₁ m₂) (hn : r.Twin h n₁ n₂) {k₁ k₂ : NodeId} (hk : r.Twin h k₁ k₂) :
    r.TwinMirrors h (Ledger.put m₁ n₁ k₁) (Ledger.put m₂ n₂ k₂) := Ledger.Matches.put hm (fun _ _ hk => hk.eq_iff hn) hn hk

theorem agree_image (hm : r.TwinMirrors h m₁ m₂) (hn : r.Twin h n₁ n₂) (h₁ h₂ : Heap) :
    Agree (r.Twin h) (m₁.image h₁ n₁) (m₂.image h₂ n₂) := by
  have hget := hm.get? hn
  unfold MirrorMap.image
  generalize Ledger.get? m₁ n₁ = image₁ at hget ⊢
  generalize Ledger.get? m₂ n₂ = image₂ at hget ⊢
  cases hget with
  | none => trivial
  | some hk => exact hk

theorem agree_imageInputs (hm : r.TwinMirrors h m₁ m₂) (h₁ h₂ : Heap) {es₁ es₂ : List Entry}
    (he : List.Forall₂ (r.TwinEntry h) es₁ es₂) :
    Agree (List.Forall₂ (r.TwinEntry h)) (m₁.imageInputs h₁ es₁) (m₂.imageInputs h₂ es₂) := by
  induction he with
  | nil => exact .nil
  | @cons e₁ e₂ _ _ he _ ih =>
    rw [MirrorMap.imageInputs, MirrorMap.imageInputs]
    refine (agree_image hm he.2 h₁ h₂).elim (fun k₁ k₂ hk => ?_) fun _ _ => trivial
    exact ih.map fun _ _ hes => .cons ⟨he.1, hk⟩ hes

theorem agree_imageDeps (hm : r.TwinMirrors h m₁ m₂) (h₁ h₂ : Heap) {ds₁ ds₂ : List NodeId}
    (hd : List.Forall₂ (r.Twin h) ds₁ ds₂) :
    Agree (List.Forall₂ (r.Twin h)) (m₁.imageDeps h₁ ds₁) (m₂.imageDeps h₂ ds₂) := by
  induction hd with
  | nil => exact .nil
  | @cons d₁ d₂ _ _ hd _ ih =>
    rw [MirrorMap.imageDeps, MirrorMap.imageDeps]
    refine (agree_image hm hd h₁ h₂).elim (fun k₁ k₂ hk => ?_) fun _ _ => trivial
    exact ih.map fun _ _ hds => .cons hk hds

theorem Builds.copyNode (hj : r.Joins w₁.heap w₂.heap) (hm : r.TwinMirrors w₁.heap m₁ m₂)
    (hn : r.Twin w₁.heap n₁ n₂) (suffix : Datum) :
    r.Builds (m₁.copyNode suffix n₁) (m₂.copyNode suffix n₂) a w₁ w₂ fun h => r.Twin h := by
  have ht := hj.nodes n₁ n₂ hn
  have hflaw : ∀ {node : Node}, node.strays = none → node.flaw? = none := by
    intro node hs
    unfold Node.flaw?
    rw [hs]
    rfl
  refine .step (p := w₁.heap) (q := w₂.heap) rfl rfl rfl ?_
  dsimp only
  rw [MirrorMap.checkStrays_ok (hflaw ht.strays₁), MirrorMap.checkStrays_ok (hflaw ht.strays₂)]
  refine (Builds.static hj _ fun _ => rfl).bind ?_
  rintro text u₁ _ u₂ - hju ⟨hu, rfl⟩
  refine (Builds.ofExcept hju (agree_imageInputs hm _ _ ht.inputs)).bind ?_
  rintro inputs₁ v₁ inputs₂ v₂ - hjv ⟨hv, hinputs⟩
  refine (Builds.ofExcept hjv (agree_imageDeps hm _ _ ht.deps)).bind ?_
  rintro deps₁ x₁ deps₂ x₂ - hjx ⟨hx, hdeps⟩
  refine .step (p := ()) (q := ()) rfl rfl rfl (Builds.create hjx ?_ _ _)
  rw [hx, hv, hu]
  exact ⟨ht.op, ht.attrs, hinputs, hdeps, ht.strays₁, ht.strays₂⟩

theorem twin_of_start (hn : r.Twin r.left n₁ n₂) : r.domain n₁ ∧ n₂ = r.map n₁ := by
  obtain ⟨hn, rfl⟩ := hn
  have hd : r.domain n₁ := hn.resolve_right fun ⟨hhas, hno⟩ => hno hhas
  exact ⟨hd, apply_of_domain hd⟩

theorem Builds.extend (hj : r.Joins w₁.heap w₂.heap) (hm : r.TwinMirrors w₁.heap m₁ m₂) {test₁ test₂ : Selector}
    (htest : r.TwinTests test₁ test₂) (hn : r.Twin r.left n₁ n₂) (suffix : Datum) :
    r.Builds (m₁.extend test₁ suffix n₁) (m₂.extend test₂ suffix n₂) a w₁ w₂ fun h => r.TwinMirrors h := by
  have hn' := hn.grows hj.left
  obtain ⟨hd, rfl⟩ := twin_of_start hn
  refine .step (p := w₁.heap) (q := w₂.heap) rfl rfl rfl ?_
  dsimp only
  rw [hj.left.node_eq _ (r.has hd), hj.right.node_eq _ (r.has_map hd)]
  refine (Builds.ofExcept hj (htest n₁ hd)).bind ?_
  rintro holds u₁ _ u₂ - hju ⟨hu, rfl⟩
  rw [← hu] at hm hn'
  cases holds with
  | false => exact .pure hju (hm.put hn' hn')
  | true =>
    refine (Builds.copyNode hju hm hn' suffix).bind fun k₁ v₁ k₂ v₂ hg hjv hk => .pure hjv ?_
    exact (hm.grows hg).put (hn'.grows hg) hk

theorem Builds.mirrors {test₁ test₂ : Selector} (htest : r.TwinTests test₁ test₂) (suffix : Datum)
    {order₁ order₂ : List NodeId} (horder : List.Forall₂ (r.Twin r.left) order₁ order₂)
    (hj : r.Joins w₁.heap w₂.heap) (hm : r.TwinMirrors w₁.heap m₁ m₂) :
    r.Builds (MirrorMap.build test₁ suffix order₁ m₁) (MirrorMap.build test₂ suffix order₂ m₂) a w₁ w₂
      fun h => r.TwinMirrors h := by
  induction horder generalizing m₁ m₂ w₁ w₂ with
  | nil => exact .pure hj hm
  | cons hn _ ih => exact (Builds.extend hj hm htest hn suffix).bind fun _ _ _ _ _ hju hmu => ih hju hmu

theorem Builds.mirrorMap (hj : r.Joins w₁.heap w₂.heap) {test₁ test₂ : Option Selector}
    (htest : Option.Rel r.TwinTests test₁ test₂) {order₁ order₂ : List NodeId}
    (horder : List.Forall₂ (r.Twin r.left) order₁ order₂) :
    r.Builds (Build.mirrorMap order₁ test₁ none) (Build.mirrorMap order₂ test₂ none) a w₁ w₂
      fun h => Option.Rel (r.TwinMirrors h) := by
  cases htest with
  | none => exact .pure hj .none
  | some htest =>
    refine (Builds.setting hj _).bind ?_
    rintro suffix u₁ _ u₂ - hju ⟨-, rfl⟩
    refine (Builds.mirrors htest suffix horder hju .nil).bind fun m₁ v₁ m₂ v₂ _ hjv hm => ?_
    exact .step rfl rfl rfl (.pure hjv (.some hm))

end Build

/-! ## Slots -/

structure TwinSlot (r : Relabelling) (h : Heap) (slot₁ slot₂ : Slot) : Prop where
  partials : List.Forall₂ (r.TwinGradient h) slot₁.partials slot₂.partials
  total : Option.Rel (r.TwinGradient h) slot₁.total slot₂.total

structure TwinSweep (r : Relabelling) (h : Heap) (s₁ s₂ : Sweep) : Prop where
  ys : List.Forall₂ (r.TwinEntry r.left) s₁.problem.ys s₂.problem.ys
  seeds : List.Forall₂ (r.TwinEntry r.left) s₁.problem.seeds s₂.problem.seeds
  xs : List.Forall₂ (r.TwinEntry r.left) s₁.problem.xs s₂.problem.xs
  aggregate₁ : s₁.problem.aggregate = Aggregator.standard
  aggregate₂ : s₂.problem.aggregate = Aggregator.standard
  tests : Option.Rel r.TwinTests s₁.problem.mirror s₂.problem.mirror
  order : List.Forall₂ (r.Twin r.left) s₁.order s₂.order
  slots : Ledger.Matches (r.Twin h) (List.Forall₂ (r.TwinSlot h)) s₁.slots s₂.slots
  mirrors : Option.Rel (r.TwinMirrors h) s₁.mirrors s₂.mirrors

abbrev Sweeps {α β : Type} (r : Relabelling) (x : Sweeping α) (y : Sweeping β) (a : Ambient) (s₁ s₂ : Stage)
    (Q : Heap → α → β → Prop) : Prop :=
  r.Lockstep Stage.heap x y a s₁ s₂ fun p s₁' q s₂' => r.TwinSweep s₁'.heap s₁'.sweep s₂'.sweep ∧ Q s₁'.heap p q

section Slots
variable {s₁ s₂ : Sweep} {e₁ e₂ : Entry} {slot₁ slot₂ : Slot}

theorem TwinSlot.grows (hs : r.TwinSlot h slot₁ slot₂) (hg : h.GrowsTo h') : r.TwinSlot h' slot₁ slot₂ :=
  ⟨hs.partials.imp fun _ _ hv => hv.grows hg, optionRel_imp (fun _ _ hv => hv.grows hg) hs.total⟩

theorem TwinSweep.grows (hs : r.TwinSweep h s₁ s₂) (hg : h.GrowsTo h') : r.TwinSweep h' s₁ s₂ := by
  refine { hs with slots := ?_, mirrors := optionRel_imp (fun _ _ hm => hm.grows hg) hs.mirrors }
  exact hs.slots.imp fun _ _ hpq => ⟨hpq.1.grows hg, hpq.2.imp fun _ _ hslot => hslot.grows hg⟩

theorem TwinSweep.slotsOf (hs : r.TwinSweep h s₁ s₂) (hn : r.Twin h n₁ n₂) (h₁ h₂ : Heap) :
    Agree (List.Forall₂ (r.TwinSlot h)) (s₁.slotsOf h₁ n₁) (s₂.slotsOf h₂ n₂) := by
  have hget := hs.slots.get? fun _ _ hk => hk.eq_iff hn
  unfold Sweep.slotsOf
  generalize Ledger.get? s₁.slots n₁ = slots₁ at hget ⊢
  generalize Ledger.get? s₂.slots n₂ = slots₂ at hget ⊢
  cases hget with
  | none => trivial
  | some hslots => exact hslots

theorem TwinSweep.slotAt (hs : r.TwinSweep h s₁ s₂) (he : r.TwinEntry h e₁ e₂) (h₁ h₂ : Heap) :
    Agree (r.TwinSlot h) (s₁.slotAt h₁ e₁) (s₂.slotAt h₂ e₂) := by
  unfold Sweep.slotAt
  refine (hs.slotsOf he.2 h₁ h₂).elim (fun slots₁ slots₂ hslots => ?_) fun _ _ => trivial
  have hfound := forall₂_getElem? hslots e₂.index
  simp only [bind, Except.bind, he.1]
  generalize slots₁[e₂.index]? = found₁ at hfound ⊢
  generalize slots₂[e₂.index]? = found₂ at hfound ⊢
  cases hfound with
  | none => trivial
  | some hslot => exact hslot

theorem TwinSweep.putSlot (hs : r.TwinSweep h s₁ s₂) (he : r.TwinEntry h e₁ e₂) (hslot : r.TwinSlot h slot₁ slot₂) :
    r.TwinSweep h (s₁.putSlot e₁ slot₁) (s₂.putSlot e₂ slot₂) := by
  have hkeys : ∀ n₁ n₂, r.Twin h n₁ n₂ → (n₁ = e₁.node ↔ n₂ = e₂.node) := fun _ _ hk => hk.eq_iff he.2
  have hget := hs.slots.get? hkeys
  unfold Sweep.putSlot
  generalize Ledger.get? s₁.slots e₁.node = found₁ at hget ⊢
  generalize Ledger.get? s₂.slots e₂.node = found₂ at hget ⊢
  cases hget with
  | none => exact hs
  | some hslots =>
    refine { hs with slots := hs.slots.put hkeys he.2 ?_ }
    rw [he.1]
    exact forall₂_set hslots hslot e₂.index

theorem twinSlots_fresh (hj : r.Joins h₁ h₂) (hn : r.Twin h₁ n₁ n₂) :
    List.Forall₂ (r.TwinSlot h) (Sweep.freshSlots h₁ n₁) (Sweep.freshSlots h₂ n₂) := by
  unfold Sweep.freshSlots
  rw [hj.outputs_eq hn]
  exact List.forall₂_same.mpr fun slot hslot => by
    rw [List.eq_of_mem_replicate hslot]
    exact ⟨.nil, .none⟩

end Slots

/-! ## Sweeping -/

section Sweeping
variable {α β : Type} {s₁ s₂ : Stage} {e₁ e₂ : Entry} {book : RuleBook} {recipes : List (String × (Outline → Recipe))}

theorem Sweeps.lift (hs : r.TwinSweep s₁.heap s₁.sweep s₂.sweep) {x : Build α} {y : Build β} {Q : Heap → α → β → Prop}
    (hxy : r.Builds x y a s₁.work s₂.work Q) : r.Sweeps (Sweeping.lift x) (Sweeping.lift y) a s₁ s₂ Q := by
  unfold Sweeps Lockstep Coupled Sweeping.lift
  unfold Builds Lockstep Coupled at hxy
  cases hx : x a s₁.work <;> cases hy : y a s₂.work <;> rw [hx, hy] at hxy
  · exact ⟨hxy.1, hxy.2.1, hs.grows hxy.1, hxy.2.2⟩
  · exact hxy.elim
  · exact hxy.elim
  · trivial

theorem Sweeps.ofExcept (hj : r.Joins s₁.heap s₂.heap) (hs : r.TwinSweep s₁.heap s₁.sweep s₂.sweep)
    {x : Except Fault α} {y : Except Fault β} {Q : α → β → Prop} (hxy : Agree Q x y) :
    r.Sweeps (Sweeping.ofExcept x) (Sweeping.ofExcept y) a s₁ s₂ fun h p q => h = s₁.heap ∧ Q p q :=
  hxy.elim (fun _ _ hpq => .pure hj ⟨hs, rfl, hpq⟩) fun _ _ => .throw

theorem Sweeps.modify (hj : r.Joins s₁.heap s₂.heap) {f g : Sweep → Sweep}
    (hs : r.TwinSweep s₁.heap (f s₁.sweep) (g s₂.sweep)) :
    r.Sweeps (Sweeping.modifySweep f) (Sweeping.modifySweep g) a s₁ s₂ fun h _ _ => h = s₁.heap :=
  .of_ok (u := { s₁ with sweep := f s₁.sweep }) (v := { s₂ with sweep := g s₂.sweep }) rfl rfl (.refl _) hj ⟨hs, rfl⟩

theorem Sweeps.seedOne (hj : r.Joins s₁.heap s₂.heap) (hs : r.TwinSweep s₁.heap s₁.sweep s₂.sweep)
    (hy : r.TwinEntry s₁.heap e₁ e₂) {seed₁ seed₂ : Entry} (hseed : r.TwinEntry s₁.heap seed₁ seed₂) :
    r.Sweeps (Sweep.seedOne (e₁, seed₁)) (Sweep.seedOne (e₂, seed₂)) a s₁ s₂ fun h _ _ => h = s₁.heap := by
  refine .step (p := s₁.sweep) (q := s₂.sweep) rfl rfl rfl ?_
  refine .step (p := s₁.work.heap) (q := s₂.work.heap) rfl rfl rfl ?_
  refine (Sweeps.ofExcept hj hs (hs.slotAt hy _ _)).bind ?_
  rintro slot₁ u₁ slot₂ u₂ - hju ⟨hsu, hheap, hslot⟩
  rw [← hheap] at hy hseed hslot ⊢
  exact Sweeps.modify hju (hsu.putSlot hy ⟨.cons ⟨seed₁, seed₂, rfl, rfl, hseed⟩ .nil, hslot.total⟩)

theorem Sweeps.seeds {pairs₁ pairs₂ : List (Entry × Entry)} (hj : r.Joins s₁.heap s₂.heap)
    (hs : r.TwinSweep s₁.heap s₁.sweep s₂.sweep)
    (hp : List.Forall₂ (fun p q => r.TwinEntry s₁.heap p.1 q.1 ∧ r.TwinEntry s₁.heap p.2 q.2) pairs₁ pairs₂) :
    r.Sweeps (pairs₁.forM Sweep.seedOne) (pairs₂.forM Sweep.seedOne) a s₁ s₂ fun h _ _ => h = s₁.heap := by
  induction pairs₁ generalizing pairs₂ s₁ s₂ with
  | nil =>
    cases hp
    exact .pure hj ⟨hs, rfl⟩
  | cons p rest ih =>
    cases hp with
    | cons hpq hrest =>
      refine (Sweeps.seedOne hj hs hpq.1 hpq.2).bind ?_
      rintro _ u₁ _ u₂ - hju ⟨hsu, hheap⟩
      rw [← hheap] at hrest ⊢
      exact ih hju hsu hrest

theorem Builds.slotAggregate {w₁ w₂ : Workspace} {slot₁ slot₂ : Slot} (hj : r.Joins w₁.heap w₂.heap)
    (hslot : r.TwinSlot w₁.heap slot₁ slot₂) :
    r.Builds (slot₁.aggregate Aggregator.standard) (slot₂.aggregate Aggregator.standard) a w₁ w₂
      fun h => r.TwinGradient h := by
  have htotal := hslot.total
  unfold Slot.aggregate
  generalize slot₁.total = total₁ at htotal ⊢
  generalize slot₂.total = total₂ at htotal ⊢
  cases htotal with
  | none => exact Builds.aggregate hj hslot.partials
  | some hv => exact .pure hj hv

theorem Sweeps.aggregateAt (hj : r.Joins s₁.heap s₂.heap) (hs : r.TwinSweep s₁.heap s₁.sweep s₂.sweep)
    (he : r.TwinEntry s₁.heap e₁ e₂) :
    r.Sweeps (Sweep.aggregateAt e₁) (Sweep.aggregateAt e₂) a s₁ s₂ fun h => r.TwinGradient h := by
  refine .step (p := s₁.sweep) (q := s₂.sweep) rfl rfl rfl ?_
  refine .step (p := s₁.work.heap) (q := s₂.work.heap) rfl rfl rfl ?_
  rw [hs.aggregate₁, hs.aggregate₂]
  refine (Sweeps.ofExcept hj hs (hs.slotAt he _ _)).bind ?_
  rintro slot₁ u₁ slot₂ u₂ - hju ⟨hsu, hheap, hslot⟩
  rw [← hheap] at he hslot
  refine (Sweeps.lift hsu (Builds.slotAggregate hju hslot)).bind ?_
  rintro total₁ v₁ total₂ v₂ hg hjv ⟨hsv, htotal⟩
  have hslot' := hslot.grows hg
  have hnew : Option.Rel (r.TwinGradient v₁.heap) total₁.some? total₂.some? := by
    obtain ⟨t₁, t₂, rfl, rfl, ht⟩ := htotal
    exact .some ⟨t₁, t₂, rfl, rfl, ht⟩
  have hfilled : r.TwinSlot v₁.heap { slot₁ with total := total₁.some? } { slot₂ with total := total₂.some? } :=
    ⟨hslot'.partials, hnew⟩
  refine (Sweeps.modify hjv (hsv.putSlot (he.grows hg) hfilled)).bind ?_
  rintro _ x₁ _ x₂ hgx hjx ⟨hsx, -⟩
  exact .pure hjx ⟨hsx, htotal.grows hgx⟩

theorem Sweeps.aggregateAll {es₁ es₂ : List Entry} (hj : r.Joins s₁.heap s₂.heap)
    (hs : r.TwinSweep s₁.heap s₁.sweep s₂.sweep) (hes : List.Forall₂ (r.TwinEntry s₁.heap) es₁ es₂) :
    r.Sweeps (Sweep.aggregateAll es₁) (Sweep.aggregateAll es₂) a s₁ s₂ fun h => List.Forall₂ (r.TwinGradient h) := by
  induction es₁ generalizing es₂ s₁ s₂ with
  | nil =>
    cases hes
    exact .pure hj ⟨hs, .nil⟩
  | cons e rest ih =>
    cases hes with
    | cons he hes =>
      refine (Sweeps.aggregateAt hj hs he).bind ?_
      rintro v₁ u₁ v₂ u₂ hg hju ⟨hsu, hv⟩
      refine (ih hju hsu (twinEntries_grow hes hg)).bind ?_
      rintro vs₁ x₁ vs₂ x₂ hgx hjx ⟨hsx, hvs⟩
      exact .pure hjx ⟨hsx, .cons (hv.grows hgx) hvs⟩

theorem twinValues_of_gradients {vs₁ vs₂ : List Value} (hv : List.Forall₂ (r.TwinGradient h) vs₁ vs₂) :
    List.Forall₂ (r.TwinValue h) vs₁ vs₂ := by
  obtain ⟨es₁, es₂, rfl, rfl, he⟩ := entries_of_twinGradients hv
  exact twinValues_map_entry he

theorem agree_add {slot₁ slot₂ : Slot} (hslot : r.TwinSlot h slot₁ slot₂) {v₁ v₂ : Value} (hv : r.TwinGradient h v₁ v₂)
    (h₁ h₂ : Heap) : Agree (r.TwinSlot h) (slot₁.add h₁ v₁) (slot₂.add h₂ v₂) := by
  obtain ⟨partials₁, total₁⟩ := slot₁
  obtain ⟨partials₂, total₂⟩ := slot₂
  obtain ⟨hpartials, htotal⟩ := hslot
  cases htotal with
  | none => exact ⟨List.rel_append hpartials (.cons hv .nil), .none⟩
  | some _ => trivial

theorem Lockstep.blame {Q : α → Stage → β → Stage → Prop} (fault₁ fault₂ : String → String → GradientFault) :
    r.Lockstep Stage.heap (Sweep.blame n₁ fault₁) (Sweep.blame n₂ fault₂) a s₁ s₂ Q := by
  refine .step (p := s₁.work.heap) (q := s₂.work.heap) rfl rfl rfl ?_
  dsimp only
  cases (s₁.work.heap.node n₁).op <;> cases (s₂.work.heap.node n₂).op <;> exact .throw

theorem Sweeps.scatterOne (hj : r.Joins s₁.heap s₂.heap) (hs : r.TwinSweep s₁.heap s₁.sweep s₂.sweep)
    (he : r.TwinEntry s₁.heap e₁ e₂) {grad₁ grad₂ : Value} (hgrad : r.TwinValue s₁.heap grad₁ grad₂) :
    r.Sweeps (Sweep.scatterOne n₁ e₁ grad₁) (Sweep.scatterOne n₂ e₂ grad₂) a s₁ s₂ fun h _ _ => h = s₁.heap := by
  unfold Sweep.scatterOne
  cases hgrad with
  | data d => exact .blame _ _
  | node hn => exact .blame _ _
  | @entry g₁ g₂ hg =>
    refine .step (p := s₁.sweep) (q := s₂.sweep) rfl rfl rfl ?_
    refine .step (p := s₁.work.heap) (q := s₂.work.heap) rfl rfl rfl ?_
    refine (Sweeps.ofExcept hj hs (hs.slotAt he _ _)).bind ?_
    rintro slot₁ u₁ slot₂ u₂ - hju ⟨hsu, hu, hslot⟩
    refine (Sweeps.ofExcept hju hsu (agree_add hslot ⟨g₁, g₂, rfl, rfl, hg⟩ _ _)).bind ?_
    rintro slot₁' v₁ slot₂' v₂ - hjv ⟨hsv, hv, hslot'⟩
    have hheap : v₁.heap = s₁.heap := hv.trans hu
    rw [← hheap] at he hslot' ⊢
    exact Sweeps.modify hjv (hsv.putSlot he hslot')

theorem Sweeps.scatter {pairs₁ pairs₂ : List (Entry × Value)} (hj : r.Joins s₁.heap s₂.heap)
    (hs : r.TwinSweep s₁.heap s₁.sweep s₂.sweep)
    (hp : List.Forall₂ (fun p q => r.TwinEntry s₁.heap p.1 q.1 ∧ r.TwinValue s₁.heap p.2 q.2) pairs₁ pairs₂) :
    r.Sweeps (Sweep.scatter n₁ pairs₁) (Sweep.scatter n₂ pairs₂) a s₁ s₂ fun h _ _ => h = s₁.heap := by
  induction pairs₁ generalizing pairs₂ s₁ s₂ with
  | nil =>
    cases hp
    exact .pure hj ⟨hs, rfl⟩
  | cons p rest ih =>
    cases hp with
    | cons hpq hrest =>
      refine (Sweeps.scatterOne hj hs hpq.1 hpq.2).bind ?_
      rintro _ u₁ _ u₂ - hju ⟨hsu, hheap⟩
      rw [← hheap] at hrest ⊢
      exact ih hju hsu hrest

theorem TwinSweep.mirrored {t₁ t₂ : Sweep} (hs : r.TwinSweep h t₁ t₂) (hn : r.Twin h n₁ n₂) (h₁ h₂ : Heap) :
    Agree (r.Twin h) (t₁.mirrored h₁ n₁) (t₂.mirrored h₂ n₂) := by
  have hmirrors := hs.mirrors
  unfold Sweep.mirrored
  generalize t₁.mirrors = mirrors₁ at hmirrors ⊢
  generalize t₂.mirrors = mirrors₂ at hmirrors ⊢
  cases hmirrors with
  | none => exact hn
  | @some m₁ m₂ hm =>
    have hget := hm.get? hn
    dsimp only
    generalize Ledger.get? m₁ n₁ = image₁ at hget ⊢
    generalize Ledger.get? m₂ n₂ = image₂ at hget ⊢
    cases hget with
    | none => trivial
    | some hk => exact hk

theorem Sweeps.applyRule (hb : book.Follows recipes) (hj : r.Joins s₁.heap s₂.heap)
    (hs : r.TwinSweep s₁.heap s₁.sweep s₂.sweep) (hn : r.Twin s₁.heap n₁ n₂) {totals₁ totals₂ : List Value}
    (htotals : List.Forall₂ (r.TwinValue s₁.heap) totals₁ totals₂) :
    r.Sweeps (Sweep.applyRule book n₁ totals₁) (Sweep.applyRule book n₂ totals₂) a s₁ s₂
      fun h => List.Forall₂ (r.TwinValue h) := by
  refine (Sweeps.lift hs (Builds.find hb hj hn)).bind ?_
  rintro found u₁ _ u₂ - hju ⟨hsu, hu, rfl, hrule⟩
  change u₁.heap = s₁.heap at hu
  rw [← hu] at hn htotals
  cases found with
  | none => exact .blame _ _
  | some i =>
    obtain ⟨scheme, hscheme⟩ := hrule i rfl
    refine .step (p := u₁.sweep) (q := u₂.sweep) rfl rfl rfl ?_
    refine .step (p := u₁.work.heap) (q := u₂.work.heap) rfl rfl rfl ?_
    refine (Sweeps.ofExcept hju hsu (hsu.mirrored hn _ _)).bind ?_
    rintro forward₁ v₁ forward₂ v₂ - hjv ⟨hsv, hv, hforward⟩
    rw [← hv] at htotals hforward
    simp only [hscheme]
    exact Sweeps.lift hsv (Builds.rule scheme hjv hforward htotals)

theorem Sweeps.node (hb : book.Follows recipes) (hj : r.Joins s₁.heap s₂.heap)
    (hs : r.TwinSweep s₁.heap s₁.sweep s₂.sweep) (hn : r.Twin s₁.heap n₁ n₂) (level : Level) :
    r.Sweeps (Sweep.step book level n₁) (Sweep.step book level n₂) a s₁ s₂ fun _ _ _ => True := by
  have ht := hj.nodes n₁ n₂ hn
  refine .step (p := s₁.work.heap) (q := s₂.work.heap) rfl rfl rfl ?_
  change r.TwinNode s₁.heap (s₁.work.heap.node n₁) (s₂.work.heap.node n₂) at ht
  rw [ht.op]
  cases (s₂.work.heap.node n₂).op with
  | none => exact .pure hj ⟨hs, trivial⟩
  | some op =>
    refine .step (p := s₁.sweep) (q := s₂.sweep) rfl rfl rfl ?_
    refine .step (p := s₁.work.heap) (q := s₂.work.heap) rfl rfl rfl ?_
    refine (Sweeps.ofExcept hj hs (hs.slotsOf hn _ _)).bind ?_
    rintro slots₁ u₁ slots₂ u₂ hgu hju ⟨hsu, -, hslots⟩
    rw [hslots.length_eq]
    have houtputs : List.Forall₂ (r.TwinEntry u₁.heap) ((List.range slots₂.length).map fun i => ⟨n₁, i⟩)
        ((List.range slots₂.length).map fun i => ⟨n₂, i⟩) := by
      rw [List.forall₂_map_left_iff, List.forall₂_map_right_iff]
      exact List.forall₂_same.mpr fun i _ => ⟨rfl, hn.grows hgu⟩
    refine (Sweeps.aggregateAll hju hsu houtputs).bind ?_
    rintro totals₁ v₁ totals₂ v₂ hgv hjv ⟨hsv, htotals⟩
    have hn := (hn.grows hgu).grows hgv
    refine (Sweeps.applyRule hb hjv hsv hn (twinValues_of_gradients htotals)).bind ?_
    rintro grads₁ x₁ grads₂ x₂ hgx hjx ⟨hsx, hgrads⟩
    refine .step (p := x₁.work.heap) (q := x₂.work.heap) rfl rfl rfl ?_
    have ht := hjx.nodes n₁ n₂ (hn.grows hgx)
    change r.TwinNode x₁.heap (x₁.work.heap.node n₁) (x₂.work.heap.node n₂) at ht
    dsimp only
    rw [hgrads.length_eq, ht.inputs.length_eq]
    split
    · refine (Sweeps.scatter hjx hsx (forall₂_zip ht.inputs hgrads)).bind ?_
      rintro _ z₁ _ z₂ - hjz ⟨hsz, -⟩
      refine .step (p := z₁.work.heap) (q := z₂.work.heap) rfl rfl rfl ?_
      exact .of_ok rfl rfl (.refl _) hjz ⟨hsz, trivial⟩
    · exact .blame _ _

theorem Sweeps.nodes {ns₁ ns₂ : List NodeId} (hb : book.Follows recipes) (hj : r.Joins s₁.heap s₂.heap)
    (hs : r.TwinSweep s₁.heap s₁.sweep s₂.sweep) (hns : List.Forall₂ (r.Twin r.left) ns₁ ns₂) (level : Level) :
    r.Sweeps (Sweep.steps book level ns₁) (Sweep.steps book level ns₂) a s₁ s₂ fun _ _ _ => True := by
  induction ns₁ generalizing ns₂ s₁ s₂ with
  | nil =>
    cases hns
    exact .pure hj ⟨hs, trivial⟩
  | cons n rest ih =>
    cases hns with
    | cons hn hns =>
      refine (Sweeps.node hb hj hs (hn.grows hj.left) level).bind ?_
      rintro _ u₁ _ u₂ - hju ⟨hsu, -⟩
      exact ih hju hsu hns

theorem Sweeps.reverse (hb : book.Follows recipes) (hj : r.Joins s₁.heap s₂.heap)
    (hs : r.TwinSweep s₁.heap s₁.sweep s₂.sweep) :
    r.Sweeps (Sweep.reverse book) (Sweep.reverse book) a s₁ s₂ fun _ _ _ => True := by
  refine (Sweeps.lift hs (Builds.static hj (a.profile.getFlag ["debugprint"]) fun _ => rfl)).bind ?_
  rintro verbose u₁ _ u₂ - hju ⟨hsu, -, rfl⟩
  refine .step (p := u₁.sweep) (q := u₂.sweep) rfl rfl rfl ?_
  exact Sweeps.nodes hb hju hsu (List.forall₂_reverse_iff.mpr hsu.order) _

theorem Joins.order (hj : r.Joins h₁ h₂) (p₁ p₂ : Problem) (hys : List.Forall₂ (r.TwinEntry h₁) p₁.ys p₂.ys) :
    List.Forall₂ (r.Twin h₁) (p₁.order h₁) (p₂.order h₂) := by
  refine twin_postorder hj ?_
  rw [List.forall₂_map_left_iff, List.forall₂_map_right_iff]
  exact hys.imp fun _ _ he => he.2

theorem strays_of_twin (hj : r.Joins h₁ h₂) {order₁ order₂ : List NodeId}
    (horder : List.Forall₂ (r.Twin h₁) order₁ order₂) :
    (∀ n ∈ order₁, (h₁.node n).strays = none) ∧ ∀ n ∈ order₂, (h₂.node n).strays = none := by
  induction horder with
  | nil => simp
  | cons hn _ ih =>
    have ht := hj.nodes _ _ hn
    exact ⟨List.forall_mem_cons.mpr ⟨ht.strays₁, ih.1⟩, List.forall_mem_cons.mpr ⟨ht.strays₂, ih.2⟩⟩

theorem Sweeps.visit (hj : r.Joins s₁.heap s₂.heap) (hs : r.TwinSweep s₁.heap s₁.sweep s₂.sweep)
    (hstart : s₁.heap = r.left) :
    r.Sweeps Sweep.visit Sweep.visit a s₁ s₂ fun h _ _ => h = r.left := by
  -- nodes are visited before any are made, so all of them were given counterparts
  have horder := hj.order s₁.sweep.problem s₂.sweep.problem (hstart ▸ hs.ys)
  obtain ⟨hstrays₁, hstrays₂⟩ := strays_of_twin hj horder
  refine .of_ok (Sweep.visit_run hstrays₁) (Sweep.visit_run hstrays₂) (.refl _) hj ⟨?_, hstart⟩
  refine { hs with order := hstart ▸ horder, slots := ?_ }
  refine List.forall₂_map_left_iff.mpr (List.forall₂_map_right_iff.mpr ?_)
  exact horder.imp fun _ _ hn => ⟨hn, twinSlots_fresh hj hn⟩

theorem Sweeps.seed (hj : r.Joins s₁.heap s₂.heap) (hs : r.TwinSweep s₁.heap s₁.sweep s₂.sweep) :
    r.Sweeps Sweep.seed Sweep.seed a s₁ s₂ fun h _ _ => h = s₁.heap := by
  refine .step (p := s₁.sweep) (q := s₂.sweep) rfl rfl rfl ?_
  exact Sweeps.seeds hj hs (forall₂_zip (twinEntries_grow hs.ys hj.left) (twinEntries_grow hs.seeds hj.left))

theorem Sweeps.mirror (hj : r.Joins s₁.heap s₂.heap) (hs : r.TwinSweep s₁.heap s₁.sweep s₂.sweep) :
    r.Sweeps Sweep.mirror Sweep.mirror a s₁ s₂ fun _ _ _ => True := by
  refine .step (p := s₁.sweep) (q := s₂.sweep) rfl rfl rfl ?_
  refine (Sweeps.lift hs (Builds.mirrorMap hj hs.tests hs.order)).bind ?_
  rintro m₁ u₁ m₂ u₂ - hju ⟨hsu, hm⟩
  have hset : r.TwinSweep u₁.heap { u₁.sweep with mirrors := m₁ } { u₂.sweep with mirrors := m₂ } :=
    { hsu with mirrors := hm }
  exact (Sweeps.modify hju hset).mono fun _ _ _ _ _ h => ⟨h.1, trivial⟩

theorem Sweeps.prepare (hj : r.Joins s₁.heap s₂.heap) (hs : r.TwinSweep s₁.heap s₁.sweep s₂.sweep)
    (hstart : s₁.heap = r.left) : r.Sweeps Sweep.prepare Sweep.prepare a s₁ s₂ fun _ _ _ => True := by
  refine (Sweeps.visit hj hs hstart).bind ?_
  rintro _ u₁ _ u₂ - hju ⟨hsu, -⟩
  refine (Sweeps.seed hju hsu).bind ?_
  rintro _ v₁ _ v₂ - hjv ⟨hsv, -⟩
  exact Sweeps.mirror hjv hsv

theorem Sweeps.ensureSlots (hj : r.Joins s₁.heap s₂.heap) (hs : r.TwinSweep s₁.heap s₁.sweep s₂.sweep)
    (hn : r.Twin s₁.heap n₁ n₂) :
    r.Sweeps (Sweep.ensureSlots n₁) (Sweep.ensureSlots n₂) a s₁ s₂ fun h _ _ => h = s₁.heap := by
  have hkeys : ∀ k₁ k₂, r.Twin s₁.heap k₁ k₂ → (k₁ = n₁ ↔ k₂ = n₂) := fun _ _ hk => hk.eq_iff hn
  have hget := hs.slots.get? hkeys
  refine .step (p := s₁.work.heap) (q := s₂.work.heap) rfl rfl rfl (Sweeps.modify hj ?_)
  unfold Ledger.has
  generalize Ledger.get? s₁.sweep.slots n₁ = found₁ at hget ⊢
  generalize Ledger.get? s₂.sweep.slots n₂ = found₂ at hget ⊢
  cases hget with
  | none => exact { hs with slots := hs.slots.put hkeys hn (twinSlots_fresh hj hn) }
  | some _ => exact hs

theorem Sweeps.assembleAll {xs₁ xs₂ : List Entry} (hj : r.Joins s₁.heap s₂.heap)
    (hs : r.TwinSweep s₁.heap s₁.sweep s₂.sweep) (hxs : List.Forall₂ (r.TwinEntry s₁.heap) xs₁ xs₂) :
    r.Sweeps (Sweep.assembleAll xs₁) (Sweep.assembleAll xs₂) a s₁ s₂ fun h => List.Forall₂ (r.TwinGradient h) := by
  induction xs₁ generalizing xs₂ s₁ s₂ with
  | nil =>
    cases hxs
    exact .pure hj ⟨hs, .nil⟩
  | cons x rest ih =>
    cases hxs with
    | cons hx hxs =>
      refine (Sweeps.ensureSlots hj hs hx.2).bind ?_
      rintro _ u₁ _ u₂ hgu hju ⟨hsu, -⟩
      refine (Sweeps.aggregateAt hju hsu (hx.grows hgu)).bind ?_
      rintro v₁ x₁ v₂ x₂ hgx hjx ⟨hsx, hv⟩
      refine (ih hjx hsx (twinEntries_grow hxs (hgu.trans hgx))).bind ?_
      rintro vs₁ z₁ vs₂ z₂ hgz hjz ⟨hsz, hvs⟩
      exact .pure hjz ⟨hsz, .cons (hv.grows hgz) hvs⟩

theorem Sweeps.assemble {xs₁ xs₂ : List Entry} (hj : r.Joins s₁.heap s₂.heap)
    (hs : r.TwinSweep s₁.heap s₁.sweep s₂.sweep) (hxs : List.Forall₂ (r.TwinEntry s₁.heap) xs₁ xs₂) :
    r.Sweeps (Sweep.assemble xs₁) (Sweep.assemble xs₂) a s₁ s₂
      fun h g₁ g₂ => List.Forall₂ (r.TwinEntry h) g₁.outputs g₂.outputs := by
  refine (Sweeps.assembleAll hj hs hxs).bind ?_
  rintro vs₁ u₁ vs₂ u₂ - hju ⟨hsu, hvs⟩
  refine .step (p := u₁.work.heap) (q := u₂.work.heap) rfl rfl rfl ?_
  refine (Sweeps.ofExcept hju hsu (agree_itemsToEntries hju (twinValues_of_gradients hvs))).bind ?_
  rintro es₁ v₁ es₂ v₂ - hjv ⟨hsv, hheap, hes⟩
  exact .pure hjv ⟨hsv, hheap ▸ hes⟩

theorem Sweeps.generate (hb : book.Follows recipes) (hj : r.Joins s₁.heap s₂.heap)
    (hs : r.TwinSweep s₁.heap s₁.sweep s₂.sweep) (hstart : s₁.heap = r.left) (hused₁ : s₁.sweep.used = false)
    (hused₂ : s₂.sweep.used = false) :
    r.Sweeps (Sweep.generate book) (Sweep.generate book) a s₁ s₂
      fun h g₁ g₂ => List.Forall₂ (r.TwinEntry h) g₁.outputs g₂.outputs := by
  unfold Sweeps Lockstep Coupled
  rw [Sweep.generate_of_unused hused₁, Sweep.generate_of_unused hused₂]
  let t₁ : Stage := { s₁ with sweep := { s₁.sweep with used := true } }
  let t₂ : Stage := { s₂ with sweep := { s₂.sweep with used := true } }
  have ht : r.TwinSweep t₁.heap t₁.sweep t₂.sweep := { hs with }
  have hprepare : r.Sweeps Sweep.prepare Sweep.prepare a t₁ t₂ fun _ _ _ => True := Sweeps.prepare hj ht hstart
  refine hprepare.bind ?_
  rintro _ u₁ _ u₂ - hju ⟨hsu, -⟩
  refine (Sweeps.reverse hb hju hsu).bind ?_
  rintro _ v₁ _ v₂ - hjv ⟨hsv, -⟩
  refine .step (p := v₁.sweep) (q := v₂.sweep) rfl rfl rfl ?_
  exact Sweeps.assemble hjv hsv (twinEntries_grow hsv.xs hjv.left)

end Sweeping

end Relabelling

end Backprop
