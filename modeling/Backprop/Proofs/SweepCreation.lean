import Backprop.Proofs.Creation
import Backprop.Proofs.TurnSound

/-!
# What a sweep makes

Differentiating makes nodes in four places: seeds, mirrored copies, rules and
aggregation. If the rules and the aggregator keep to a policy, so does the
whole, at whatever point it fails: what the sweep holds on the way is there and
may be read (`Sweep.Sound`).
-/

namespace Backprop

/-! ## Mirrored copies -/

namespace MirrorMap

def Sound (m : MirrorMap) (h : Heap) : Prop :=
  ∀ n n', Ledger.get? m n = some n' → h.Has n ∧ h.Has n' ∧ (h.node n').op = (h.node n).op

section
variable {P : Policy} {a : Ambient} {w : Workspace} {m : MirrorMap} {h h' : Heap} {n n' : NodeId}

theorem Sound.grows (hm : m.Sound h) (hg : h.GrowsTo h') : m.Sound h' := by
  intro k k' hk
  obtain ⟨hhas, hhas', hop⟩ := hm k k' hk
  rw [hg.node_eq k hhas, hg.node_eq k' hhas']
  exact ⟨hg.has hhas, hg.has hhas', hop⟩

theorem Sound.put (hm : m.Sound h) (hn : h.Has n) (hn' : h.Has n') (hop : (h.node n').op = (h.node n).op) :
    Sound (Ledger.put m n n') h := by
  intro k k' hk
  by_cases hkn : k = n
  · subst hkn
    rw [Ledger.get?_put_self] at hk
    cases hk
    exact ⟨hn, hn', hop⟩
  · rw [Ledger.get?_put_ne _ _ hkn] at hk
    exact hm k k' hk

theorem image_eq_ok (h : m.image h' n = .ok n') : Ledger.get? m n = some n' := by
  unfold image at h
  cases hget : Ledger.get? m n with
  | none => rw [hget] at h; cases h
  | some k => rw [hget] at h; cases h; rfl

theorem Sound.imageInputs (hm : m.Sound h) : ∀ {inputs es : List Entry}, (∀ e ∈ inputs, P.reads h e) →
    m.imageInputs h inputs = .ok es → es.length = inputs.length ∧ ∀ e ∈ es, P.reads h e
  | [], es, _, he => by cases he; simp
  | e :: rest, es, hr, he => by
    rw [MirrorMap.imageInputs] at he
    cases hone : m.image h e.node with
    | error fault => rw [hone] at he; cases he
    | ok k =>
      rw [hone] at he
      cases hrest : m.imageInputs h rest with
      | error fault => rw [hrest] at he; cases he
      | ok es₁ =>
        rw [hrest] at he
        cases he
        obtain ⟨hlen, hes₁⟩ := Sound.imageInputs hm (fun e' he' => hr e' (List.mem_cons_of_mem _ he')) hrest
        obtain ⟨-, hk, hop⟩ := hm _ _ (image_eq_ok hone)
        refine ⟨by simp [hlen], List.forall_mem_cons.mpr ⟨?_, hes₁⟩⟩
        exact P.image (hr e (by simp)) hk hop

theorem Sound.imageDeps (hm : m.Sound h) : ∀ {deps ds : List NodeId}, m.imageDeps h deps = .ok ds →
    ∀ d ∈ ds, h.Has d
  | [], ds, he, d, hd => by cases he; cases hd
  | dep :: rest, ds, he, d, hd => by
    rw [MirrorMap.imageDeps] at he
    cases hone : m.image h dep with
    | error fault => rw [hone] at he; cases he
    | ok k =>
      rw [hone] at he
      cases hrest : m.imageDeps h rest with
      | error fault => rw [hrest] at he; cases he
      | ok ds₁ =>
        rw [hrest] at he
        cases he
        rcases List.mem_cons.mp hd with rfl | hd
        · exact (hm _ _ (image_eq_ok hone)).2.1
        · exact Sound.imageDeps hm hrest d hd

theorem makes_copyNode (hg : P.Governs w.heap) (hm : m.Sound w.heap) (hn : w.heap.Has n) (suffix : Datum) :
    P.Makes (m.copyNode suffix n) a w fun n' h => h.Has n' ∧ (h.node n').op = (w.heap.node n).op := by
  obtain ⟨hmakes, hwithin⟩ := hg n hn
  refine .step (r := w.heap) rfl rfl ?_
  refine (Policy.makes_ofExcept _).bind fun text w₁ _ ⟨_, hw₁⟩ => ?_
  refine (Policy.makes_ofExcept _).bind fun inputs w₂ _ ⟨hinputs, hw₂⟩ => ?_
  refine (Policy.makes_ofExcept _).bind fun deps w₃ _ ⟨hdeps, hw₃⟩ => ?_
  refine (Policy.makes_ofExcept _).bind fun _ w₄ _ ⟨_, hw₄⟩ => ?_
  have hw : w₄.heap = w.heap := by rw [hw₄, hw₃, hw₂, hw₁]
  obtain ⟨hlen, hreads⟩ := hm.imageInputs hwithin.inputs hinputs
  refine Policy.makes_create (P.copy hmakes hlen) ?_ _
  rw [hw]
  exact ⟨hreads, hm.imageDeps hdeps, hwithin.strays⟩

theorem makes_extend (hg : P.Governs w.heap) (hm : m.Sound w.heap) (hn : w.heap.Has n) (test : Selector)
    (suffix : Datum) : P.Makes (m.extend test suffix n) a w fun m' h => m'.Sound h := by
  refine .step (r := w.heap) rfl rfl ((Policy.makes_ofExcept _).bind fun holds w₁ _ ⟨_, hw₁⟩ => ?_)
  rw [← hw₁] at hg hm hn
  split
  · refine (makes_copyNode hg hm hn suffix).bind fun n' w₂ hx ⟨hn', hop⟩ => .pure ?_
    refine (hm.grows hx.grows).put (hx.grows.has hn) hn' ?_
    rw [hop, hx.grows.node_eq n hn]
  · exact .pure (hm.put hn hn rfl)

theorem makes_build (test : Selector) (suffix : Datum) : ∀ {order : List NodeId} {m : MirrorMap} {w : Workspace},
    P.Governs w.heap → m.Sound w.heap → (∀ n ∈ order, w.heap.Has n) →
    P.Makes (MirrorMap.build test suffix order m) a w fun m' h => m'.Sound h
  | [], m, w, _, hm, _ => .pure hm
  | n :: rest, m, w, hg, hm, ho => by
    refine (makes_extend hg hm (ho n (by simp)) test suffix).bind fun m' w₁ hx hm' => ?_
    exact makes_build test suffix (hg.extends hx) hm' fun k hk => hx.grows.has (ho k (List.mem_cons_of_mem _ hk))

end

end MirrorMap

section Mirrors
variable {P : Policy} {a : Ambient} {w : Workspace}

theorem Build.makes_mirrorSuffix (suffix : Option Datum) :
    P.Makes (Build.mirrorSuffix suffix) a w fun _ h => h = w.heap := by
  cases suffix with
  | some d => exact .pure rfl
  | none => exact (Policy.makes_setting _).mono fun _ _ _ h => h.2

theorem Build.makes_mirrorMap (hg : P.Governs w.heap) {order : List NodeId} (ho : ∀ n ∈ order, w.heap.Has n)
    (test : Option Selector) (suffix : Option Datum) :
    P.Makes (Build.mirrorMap order test suffix) a w fun found h => ∀ m, found = some m → m.Sound h := by
  cases test with
  | none => exact .pure fun m hm => by cases hm
  | some test =>
    refine (Build.makes_mirrorSuffix suffix).bind fun d w₁ _ hw₁ => ?_
    rw [← hw₁] at hg ho
    refine (MirrorMap.makes_build test d hg (m := []) (fun n n' hn => by cases hn) ho).bind fun m w₂ _ hm => ?_
    refine (Policy.makes_log _ _ _).bind fun _ w₃ _ hw₃ => .pure ?_
    intro m' hm'
    cases hm'
    exact hw₃ ▸ hm

theorem LooseMirrorMap.makes_build (test : Selector) (suffix : Datum) : ∀ {order : List Value} {m : LooseMirrorMap}
    {w : Workspace}, P.Governs w.heap → m.nodes.Sound w.heap → (∀ v ∈ order, v.Within P w.heap) →
    P.Makes (LooseMirrorMap.build test suffix order m) a w fun m' h => m'.nodes.Sound h
  | [], m, w, _, hm, _ => by rw [LooseMirrorMap.build]; exact .pure hm
  | v :: rest, m, w, hg, hm, ho => by
    have hrest : ∀ u ∈ rest, u.Within P w.heap := fun u hu => ho u (List.mem_cons_of_mem _ hu)
    have hstray : P.Makes (Build.ofExcept (checkStray test v) >>= fun _ => LooseMirrorMap.build test suffix rest
        ⟨m.nodes, addKey m.keys v⟩) a w fun m' h => m'.nodes.Sound h := by
      refine (Policy.makes_ofExcept _).bind fun _ w₁ _ ⟨_, hw₁⟩ => ?_
      rw [← hw₁] at hg hm hrest
      exact LooseMirrorMap.makes_build test suffix hg hm hrest
    cases ho v (by simp) with
    | node hn =>
      rw [LooseMirrorMap.build]
      refine (MirrorMap.makes_extend hg hm hn test suffix).bind fun m' w₁ hx hm' => ?_
      exact LooseMirrorMap.makes_build test suffix (hg.extends hx) hm' fun u hu => (hrest u hu).grows hx.grows
    | data d => exact hstray
    | entry he => exact hstray
    | list hi => exact hstray
    | object o => exact hstray

theorem Build.makes_looseMirrorMap (hg : P.Governs w.heap) {order : List Value} (ho : ∀ v ∈ order, v.Within P w.heap)
    (test : Selector) (suffix : Option Datum) :
    P.Makes (Build.looseMirrorMap order test suffix) a w fun m h => m.nodes.Sound h := by
  refine (Build.makes_mirrorSuffix suffix).bind fun d w₁ _ hw₁ => ?_
  rw [← hw₁] at hg ho
  refine (LooseMirrorMap.makes_build test d hg (m := {}) (fun n n' hn => by cases hn) ho).bind fun m w₂ _ hm => ?_
  exact (Policy.makes_log _ _ _).bind fun _ w₃ _ hw₃ => .pure (hw₃ ▸ hm)

end Mirrors

/-! ## The sweep -/

def Stage.heap (s : Stage) : Heap := s.work.heap

structure Slot.Sound (P : Policy) (h : Heap) (slot : Slot) : Prop where
  partials : ∃ es : List Entry, slot.partials = es.map .entry ∧ ∀ e ∈ es, P.reads h e
  total : ∀ v, slot.total = some v → v.Within P h

/-- The heap is governed by the policy, and all that the sweep holds is there. -/
structure Sweep.Sound (P : Policy) (a : Ambient) (h : Heap) (s : Sweep) : Prop where
  governs : P.Governs h
  seeds : ∀ e ∈ s.problem.seeds, P.reads h e
  aggregate : s.problem.aggregate.Keeps P a
  slots : s.EachSlot (Slot.Sound P h)
  order : ∀ n ∈ s.order, h.Has n
  mirrors : ∀ m, s.mirrors = some m → m.Sound h

abbrev Policy.Sweeps {α : Type} (P : Policy) (x : Sweeping α) (a : Ambient) (s : Stage) (Q : α → Heap → Prop) : Prop :=
  P.Leads Stage.heap x a s fun r s' => s'.sweep.Sound P a s'.heap ∧ Q r s'.heap

theorem Slot.Sound.grows {P : Policy} {h h' : Heap} {slot : Slot} (hs : slot.Sound P h) (hg : h.GrowsTo h') :
    slot.Sound P h' := by
  obtain ⟨es, hes, hreads⟩ := hs.partials
  exact ⟨⟨es, hes, fun e he => P.grows hg (hreads e he)⟩, fun v hv => (hs.total v hv).grows hg⟩

namespace Sweep

section Sweeping
variable {P : Policy} {book : RuleBook} {a : Ambient} {s : Stage} {h h' : Heap} {α : Type}

theorem Sound.extends {s : Sweep} (hs : s.Sound P a h) (hx : P.Extends h h') : s.Sound P a h' where
  governs := hs.governs.extends hx
  seeds e he := P.grows hx.grows (hs.seeds e he)
  aggregate := hs.aggregate
  slots n slots hget slot hslot := (hs.slots n slots hget slot hslot).grows hx.grows
  order n hn := hx.grows.has (hs.order n hn)
  mirrors m hm := (hs.mirrors m hm).grows hx.grows

theorem Sound.putSlot {s : Sweep} (hs : s.Sound P a h) (e : Entry) {slot : Slot} (hslot : slot.Sound P h) :
    (s.putSlot e slot).Sound P a h := by
  obtain ⟨hproblem, horder, hmirrors⟩ := s.putSlot_fields e slot
  exact ⟨hs.governs, hproblem ▸ hs.seeds, hproblem ▸ hs.aggregate, hs.slots.putSlot e hslot, horder ▸ hs.order,
    hmirrors ▸ hs.mirrors⟩

theorem sweeps_lift (hs : s.sweep.Sound P a s.heap) {act : Build α} {Q : α → Heap → Prop}
    (hact : P.Makes act a s.work Q) : P.Sweeps (Sweeping.lift act) a s Q := by
  unfold Policy.Sweeps Policy.Leads Sweeping.lift
  unfold Policy.Makes Policy.Leads at hact
  cases hrun : act a s.work with
  | ok r w => rw [hrun] at hact; exact ⟨hact.1, hs.extends hact.1, hact.2⟩
  | error e w => rw [hrun] at hact; exact hact

theorem sweeps_ofExcept (hs : s.sweep.Sound P a s.heap) (x : Except Fault α) :
    P.Sweeps (Sweeping.ofExcept x) a s fun r h => x = .ok r ∧ h = s.heap := by
  cases x with
  | ok r => exact .pure ⟨hs, rfl, rfl⟩
  | error e => exact .throw e

theorem makes_aggregate {slot : Slot} {f : Aggregator} {w : Workspace} (hg : P.Governs w.heap) (hf : f.Keeps P a)
    (hslot : slot.Sound P w.heap) : P.Makes (slot.aggregate f) a w fun v h => v.Within P h := by
  unfold Slot.aggregate
  cases htotal : slot.total with
  | some v => exact .pure (hslot.total v htotal)
  | none =>
    obtain ⟨es, hes, hreads⟩ := hslot.partials
    simp only [hes]
    exact hf es w hg hreads

theorem sweeps_aggregateAt (hs : s.sweep.Sound P a s.heap) (e : Entry) :
    P.Sweeps (aggregateAt e) a s fun v h => v.Within P h := by
  unfold aggregateAt
  refine .step (r := s.sweep) rfl rfl (.step (r := s.work.heap) rfl rfl ?_)
  cases hslot : s.sweep.slotAt s.work.heap e with
  | error fault => exact .of_error rfl rfl
  | ok slot =>
    have hsound := hs.slots.slotAt hslot
    refine .step (r := slot) (u := s) rfl rfl ?_
    refine (sweeps_lift hs (makes_aggregate hs.governs hs.aggregate hsound)).bind fun v s₁ hx ⟨hs₁, hv⟩ => ?_
    refine .of_ok (r := v) rfl rfl ⟨hs₁.putSlot e ⟨(hsound.grows hx.grows).partials, fun u hu => ?_⟩, hv⟩
    unfold Value.some? at hu
    split at hu
    · cases hu
    · cases hu; exact hv

theorem sweeps_aggregateAll {es : List Entry} (hs : s.sweep.Sound P a s.heap) :
    P.Sweeps (aggregateAll es) a s fun vs h => ∀ v ∈ vs, v.Within P h := by
  induction es generalizing s with
  | nil => exact .pure ⟨hs, by simp⟩
  | cons e es ih =>
    refine (sweeps_aggregateAt hs e).bind fun v s₁ _ ⟨hs₁, hv⟩ => ?_
    refine (ih hs₁).bind fun vs s₂ hx ⟨hs₂, hvs⟩ => .pure ⟨hs₂, ?_⟩
    exact List.forall_mem_cons.mpr ⟨hv.grows hx.grows, hvs⟩

theorem leads_blame (n : NodeId) (fault : String → String → GradientFault) {Q : α → Stage → Prop} :
    P.Leads Stage.heap (blame n fault) a s Q := by
  refine .step (r := s.work.heap) rfl rfl ?_
  dsimp only
  cases (s.work.heap.node n).op with
  | none => exact .throw _
  | some op => exact .throw _

theorem sweeps_scatterOne (hs : s.sweep.Sound P a s.heap) (n : NodeId) (input : Entry) {grad : Value}
    (hv : grad.Within P s.heap) : P.Sweeps (scatterOne n input grad) a s fun _ _ => True := by
  unfold scatterOne
  cases hv with
  | @entry g hg =>
    refine .step (r := s.sweep) rfl rfl (.step (r := s.work.heap) rfl rfl ?_)
    cases hslot : s.sweep.slotAt s.work.heap input with
    | error fault => exact .of_error rfl rfl
    | ok slot =>
      refine .step (r := slot) (u := s) rfl rfl ?_
      unfold Slot.add
      cases htotal : slot.total with
      | some v => exact .of_error rfl rfl
      | none =>
        obtain ⟨es, hes, hreads⟩ := (hs.slots.slotAt hslot).partials
        refine .of_ok rfl rfl ⟨hs.putSlot input ⟨⟨es ++ [g], by simp [hes], fun e' he' => ?_⟩, ?_⟩, trivial⟩
        · rcases List.mem_append.mp he' with he' | he'
          · exact hreads e' he'
          · exact List.mem_singleton.mp he' ▸ hg
        · intro v hv
          cases hv
  | data d => exact leads_blame _ _
  | node hn => exact leads_blame _ _
  | list hi => exact leads_blame _ _
  | object o => exact leads_blame _ _

theorem sweeps_scatter (n : NodeId) {pairs : List (Entry × Value)} (hs : s.sweep.Sound P a s.heap)
    (hv : ∀ q ∈ pairs, q.2.Within P s.heap) : P.Sweeps (scatter n pairs) a s fun _ _ => True := by
  induction pairs generalizing s with
  | nil => exact .pure ⟨hs, trivial⟩
  | cons pair rest ih =>
    refine (sweeps_scatterOne hs n pair.1 (hv pair (by simp))).bind fun _ s₁ hx ⟨hs₁, _⟩ => ?_
    exact ih hs₁ fun q hq => (hv q (List.mem_cons_of_mem _ hq)).grows hx.grows

theorem makes_find (book : RuleBook) (n : NodeId) (w : Workspace) : P.Makes (book.find n) a w fun found h =>
    h = w.heap ∧ ∀ i, found = some i → ∃ q ∈ book, q.2.implementation = i := by
  obtain ⟨trace, hrun⟩ := book.find_run n a w
  cases hl : book.lookup n (w.heap.node n) with
  | error e => rw [hl] at hrun; exact .of_error hrun rfl
  | ok found => rw [hl] at hrun; exact .of_ok hrun rfl ⟨rfl, fun i hi => RuleBook.mem_lookup (hi ▸ hl)⟩

theorem has_of_mirrored {s : Sweep} (hs : s.Sound P a h) {n n' : NodeId} (hn : h.Has n)
    (hm : s.mirrored h' n = .ok n') : h.Has n' := by
  unfold mirrored at hm
  cases hmirrors : s.mirrors with
  | none => rw [hmirrors] at hm; cases hm; exact hn
  | some m =>
    simp only [hmirrors] at hm
    cases hget : Ledger.get? m n with
    | none => rw [hget] at hm; cases hm
    | some k => rw [hget] at hm; cases hm; exact (hs.mirrors m hmirrors n _ hget).2.1

theorem sweeps_applyRule (hb : book.Keeps P a) (hs : s.sweep.Sound P a s.heap) {n : NodeId} (hn : s.heap.Has n)
    {totals : List Value} (htotals : ∀ v ∈ totals, v.Within P s.heap) :
    P.Sweeps (applyRule book n totals) a s fun vs h => ∀ v ∈ vs, v.Within P h := by
  unfold applyRule
  refine (sweeps_lift hs (makes_find book n s.work)).bind fun found s₁ hx ⟨hs₁, _, hfound⟩ => ?_
  cases found with
  | none => exact leads_blame _ _
  | some i =>
    refine .step (r := s₁.sweep) rfl rfl (.step (r := s₁.work.heap) rfl rfl ?_)
    cases hforward : s₁.sweep.mirrored s₁.work.heap n with
    | error e => exact .of_error rfl rfl
    | ok forward =>
      refine .step (r := forward) (u := s₁) rfl rfl ?_
      have hhas := has_of_mirrored hs₁ (hx.grows.has hn) hforward
      cases hr : i.rule with
      | none => exact .throw _
      | some rule =>
        obtain ⟨q, hq, rfl⟩ := hfound i rfl
        exact sweeps_lift hs₁ (hb q hq rule hr forward totals s₁.work hs₁.governs hhas fun v hv =>
          (htotals v hv).grows hx.grows)

theorem sweeps_step (hb : book.Keeps P a) (hs : s.sweep.Sound P a s.heap) (level : Level) (n : NodeId) :
    P.Sweeps (step book level n) a s fun _ _ => True := by
  unfold step
  refine .step (r := s.work.heap) rfl rfl ?_
  cases hop : (s.work.heap.node n).op with
  | none => exact .pure ⟨hs, trivial⟩
  | some op =>
    have hn : s.heap.Has n := Heap.has_of_op (by rw [Stage.heap, hop]; rfl)
    refine .step (r := s.sweep) rfl rfl (.step (r := s.work.heap) rfl rfl ?_)
    refine (sweeps_ofExcept hs _).bind fun slots s₀ hx₀ ⟨hs₀, _, _⟩ => ?_
    refine (sweeps_aggregateAll hs₀).bind fun totals s₁ hx₁ ⟨hs₁, htotals⟩ => ?_
    have hn₁ : s₁.heap.Has n := (hx₀.trans hx₁).grows.has hn
    refine (sweeps_applyRule hb hs₁ hn₁ htotals).bind fun grads s₂ _ ⟨hs₂, hgrads⟩ => ?_
    refine .step (r := s₂.work.heap) rfl rfl ?_
    dsimp only
    split
    · refine (sweeps_scatter n hs₂ fun q hq => hgrads q.2 (List.of_mem_zip hq).2).bind fun _ s₃ _ ⟨hs₃, _⟩ => ?_
      refine .step (r := s₃.work.heap) rfl rfl ?_
      exact (sweeps_lift hs₃ (Policy.makes_log _ _ _)).mono fun _ _ _ h => ⟨h.1, trivial⟩
    · exact leads_blame _ _

theorem sweeps_steps (hb : book.Keeps P a) (level : Level) {ns : List NodeId} (hs : s.sweep.Sound P a s.heap) :
    P.Sweeps (steps book level ns) a s fun _ _ => True := by
  induction ns generalizing s with
  | nil => exact .pure ⟨hs, trivial⟩
  | cons n ns ih => exact (sweeps_step hb hs level n).bind fun _ s₁ _ ⟨hs₁, _⟩ => ih hs₁

theorem sweeps_reverse (hb : book.Keeps P a) (hs : s.sweep.Sound P a s.heap) :
    P.Sweeps (reverse book) a s fun _ _ => True := by
  unfold reverse
  refine (sweeps_lift hs (Policy.makes_ofExcept _)).bind fun verbose s₁ _ ⟨hs₁, _⟩ => ?_
  exact .step (r := s₁.sweep) rfl rfl (sweeps_steps hb _ hs₁)

theorem sound_freshSlots (h : Heap) (n : NodeId) : ∀ slot ∈ freshSlots h n, slot.Sound P h' := by
  intro slot hslot
  rw [List.eq_of_mem_replicate hslot]
  exact ⟨⟨[], rfl, by simp⟩, fun v hv => by cases hv⟩

theorem sweeps_visit (hs : s.sweep.Sound P a s.heap) : P.Sweeps visit a s fun _ _ => True := by
  unfold visit
  refine .step (r := s.work.heap) rfl rfl (.step (r := s.sweep) rfl rfl ?_)
  let order := s.work.heap.postorder (s.sweep.problem.ys.map Entry.node)
  let opened : Sweep :=
    { s.sweep with slots := (s.work.heap.finished order).map fun n => (n, freshSlots s.work.heap n) }
  have hopened : opened.Sound P a s.heap := by
    refine ⟨hs.governs, hs.seeds, hs.aggregate, fun n slots hget => ?_, hs.order, hs.mirrors⟩
    obtain ⟨k, -, hk⟩ := List.mem_map.mp (Ledger.mem_of_get? hget)
    cases hk
    exact sound_freshSlots _ _
  refine .step (r := ()) (u := { s with sweep := opened }) rfl rfl ?_
  refine (sweeps_ofExcept hopened _).bind fun _ s₁ _ ⟨hs₁, _, hheap⟩ => ?_
  refine .step (r := ()) (u := { s₁ with sweep := { s₁.sweep with order } }) rfl rfl ?_
  have hordered : ({ s₁.sweep with order } : Sweep).Sound P a s₁.heap :=
    ⟨hs₁.governs, hs₁.seeds, hs₁.aggregate, hs₁.slots, fun n hn => hheap ▸ Heap.has_of_mem_postorder hn, hs₁.mirrors⟩
  exact (sweeps_lift hordered (Policy.makes_log _ _ _)).mono fun _ _ _ h => ⟨h.1, trivial⟩

theorem sweeps_seedOne (hs : s.sweep.Sound P a s.heap) (y : Entry) {seed : Entry} (hseed : P.reads s.heap seed) :
    P.Sweeps (seedOne (y, seed)) a s fun _ h => h = s.heap := by
  unfold seedOne
  refine .step (r := s.sweep) rfl rfl (.step (r := s.work.heap) rfl rfl ?_)
  cases hslot : s.sweep.slotAt s.work.heap y with
  | error fault => exact .of_error rfl rfl
  | ok slot =>
    have hsound := hs.slots.slotAt hslot
    exact .of_ok rfl rfl ⟨hs.putSlot y ⟨⟨[seed], rfl, List.forall_mem_singleton.mpr hseed⟩, hsound.total⟩, rfl⟩

theorem sweeps_seeds {pairs : List (Entry × Entry)} (hs : s.sweep.Sound P a s.heap)
    (hr : ∀ q ∈ pairs, P.reads s.heap q.2) : P.Sweeps (pairs.forM seedOne) a s fun _ _ => True := by
  induction pairs generalizing s with
  | nil => exact .pure ⟨hs, trivial⟩
  | cons pair rest ih =>
    refine (sweeps_seedOne hs pair.1 (hr pair (by simp))).bind fun _ s₁ _ ⟨hs₁, hheap⟩ => ?_
    exact ih hs₁ fun q hq => hheap ▸ hr q (List.mem_cons_of_mem _ hq)

theorem sweeps_mirror (hs : s.sweep.Sound P a s.heap) : P.Sweeps mirror a s fun _ _ => True := by
  unfold mirror
  refine .step (r := s.sweep) rfl rfl ?_
  refine (sweeps_lift hs (Build.makes_mirrorMap hs.governs hs.order _ _)).bind fun mirrors s₁ _ ⟨hs₁, hm⟩ => ?_
  exact .of_ok rfl rfl ⟨⟨hs₁.governs, hs₁.seeds, hs₁.aggregate, hs₁.slots, hs₁.order, hm⟩, trivial⟩

theorem sweeps_prepare (hs : s.sweep.Sound P a s.heap) : P.Sweeps prepare a s fun _ _ => True := by
  unfold prepare
  refine (sweeps_visit hs).bind fun _ s₁ _ ⟨hs₁, _⟩ => ?_
  refine .bind (Q := fun _ s' => s'.sweep.Sound P a s'.heap ∧ True) ?_ fun _ s₂ _ ⟨hs₂, _⟩ => sweeps_mirror hs₂
  exact .step (r := s₁.sweep) rfl rfl (sweeps_seeds hs₁ fun q hq => hs₁.seeds q.2 (List.of_mem_zip hq).2)

theorem sweeps_ensureSlots (hs : s.sweep.Sound P a s.heap) (n : NodeId) :
    P.Sweeps (ensureSlots n) a s fun _ _ => True := by
  unfold ensureSlots
  refine .step (r := s.work.heap) rfl rfl (.of_ok rfl rfl ⟨?_, trivial⟩)
  show Sweep.Sound P a s.heap (if Ledger.has s.sweep.slots n then s.sweep else _)
  split
  · exact hs
  · refine ⟨hs.governs, hs.seeds, hs.aggregate, fun k slots hget => ?_, hs.order, hs.mirrors⟩
    by_cases hk : k = n
    · subst hk
      rw [Ledger.get?_put_self] at hget
      cases hget
      exact sound_freshSlots _ _
    · rw [Ledger.get?_put_ne _ _ hk] at hget
      exact hs.slots k slots hget

theorem sweeps_assembleAll {xs : List Entry} (hs : s.sweep.Sound P a s.heap) :
    P.Sweeps (assembleAll xs) a s fun vs h => ∀ v ∈ vs, v.Within P h := by
  induction xs generalizing s with
  | nil => exact .pure ⟨hs, by simp⟩
  | cons x xs ih =>
    refine (sweeps_ensureSlots hs x.node).bind fun _ s₁ _ ⟨hs₁, _⟩ => ?_
    refine (sweeps_aggregateAt hs₁ x).bind fun v s₂ _ ⟨hs₂, hv⟩ => ?_
    refine (ih hs₂).bind fun vs s₃ hx ⟨hs₃, hvs⟩ => .pure ⟨hs₃, ?_⟩
    exact List.forall_mem_cons.mpr ⟨hv.grows hx.grows, hvs⟩

theorem sweeps_assemble (hs : s.sweep.Sound P a s.heap) (xs : List Entry) :
    P.Sweeps (assemble xs) a s fun g h => ∀ e ∈ g.outputs, P.reads h e := by
  unfold assemble
  refine (sweeps_assembleAll hs).bind fun totals s₁ _ ⟨hs₁, htotals⟩ => .step (r := s₁.work.heap) rfl rfl ?_
  refine (sweeps_ofExcept hs₁ _).bind fun outputs s₂ _ ⟨hs₂, houtputs, hheap⟩ => .pure ⟨hs₂, ?_⟩
  rw [hheap]
  exact Value.reads_of_itemsToEntries htotals houtputs

theorem sweeps_generate (hb : book.Keeps P a) (hs : s.sweep.Sound P a s.heap) :
    P.Sweeps (generate book) a s fun g h => ∀ e ∈ g.outputs, P.reads h e := by
  cases hu : s.sweep.used with
  | true => exact .of_error (generate_of_used hu) rfl
  | false =>
    unfold Policy.Sweeps Policy.Leads
    rw [generate_of_unused hu]
    let s₀ : Stage := { s with sweep := { s.sweep with used := true } }
    have hs₀ : s₀.sweep.Sound P a s₀.heap :=
      ⟨hs.governs, hs.seeds, hs.aggregate, hs.slots, hs.order, hs.mirrors⟩
    refine (sweeps_prepare hs₀).bind fun _ s₁ _ ⟨hs₁, _⟩ => ?_
    refine (sweeps_reverse hb hs₁).bind fun _ s₂ _ ⟨hs₂, _⟩ => ?_
    exact .step (r := s₂.sweep) rfl rfl (sweeps_assemble hs₂ _)

end Sweeping

end Sweep

/-! ## Calls -/

def Arg.Keeps (P : Policy) (a : Ambient) (arg : Arg) : Prop := ∀ f, arg = .aggregator f → f.Keeps P a

section Calls
variable {P : Policy} {book : RuleBook} {a : Ambient} {w : Workspace}

theorem Arg.Keeps.aggregatorOf {arg : Arg} (ha : arg.Keeps P a) (hs : P.PermitsSums a) :
    (Request.aggregatorOf arg).Keeps P a := by
  unfold Request.aggregatorOf
  split
  · cases arg with
    | aggregator f => exact ha f rfl
    | selector t => exact fun es w _ _ => (Policy.makes_ofExcept _).bind fun d _ _ _ => .pure (.data d)
    | value v => exact fun es w _ _ => .throw _
  · exact Aggregator.standard_keeps hs

theorem Request.eq_map_of_entriesOnly : ∀ {items : List Value} {es : List Entry}, entriesOnly items = some es →
    items = es.map .entry
  | [], es, h => by cases h; rfl
  | .entry e :: rest, es, h => by
    rw [entriesOnly] at h
    obtain ⟨es', hes', rfl⟩ := Option.map_eq_some_iff.mp h
    rw [List.map_cons, ← eq_map_of_entriesOnly hes']
  | .data _ :: _, es, h => by cases h
  | .node _ :: _, es, h => by cases h
  | .list _ :: _, es, h => by cases h
  | .object _ :: _, es, h => by cases h

theorem Request.field_ok {name : String} {v : Value} {es : List Entry} (h : field name v = .ok es) :
    v.items = .ok (es.map .entry) := by
  unfold field at h
  cases hitems : v.items with
  | error e => rw [hitems] at h; cases h
  | ok items =>
    simp only [hitems] at h
    cases honly : entriesOnly items with
    | none => rw [honly] at h; cases h
    | some es' => rw [honly] at h; cases h; rw [eq_map_of_entriesOnly honly]

theorem Request.validate_ok {r : Request} {p : Problem} (h : r.validate = .ok p) :
    field "ys_out_grad" r.seeds = .ok p.seeds ∧ p.aggregate = aggregatorOf r.aggregate := by
  unfold validate at h
  cases hys : field "ys" r.ys with
  | error e => rw [hys] at h; cases h
  | ok ys =>
    cases hseeds : field "ys_out_grad" r.seeds with
    | error e => rw [hys, hseeds] at h; cases h
    | ok seeds =>
      cases hxs : field "xs" r.xs with
      | error e => rw [hys, hseeds, hxs] at h; cases h
      | ok xs =>
        rw [hys, hseeds, hxs] at h
        simp only [bind, Except.bind] at h
        split at h
        · cases h; exact ⟨rfl, rfl⟩
        · cases h

theorem Request.listed_ok {g : Graph} {name : String} {v : Value} (h : listed g name = .ok v) :
    ∃ arg items, Ledger.get? g.attrs name = some arg ∧ arg.toValue.items = .ok items ∧ v = .list items := by
  unfold listed Graph.attr at h
  cases hget : Ledger.get? g.attrs name with
  | none => rw [hget] at h; cases h
  | some arg =>
    simp only [hget, bind, Except.bind] at h
    cases hitems : arg.toValue.items with
    | error e => rw [hitems] at h; cases h
    | ok items => rw [hitems] at h; cases h; exact ⟨arg, items, rfl, hitems, rfl⟩

theorem Request.ofGraph_ok {g : Graph} {r : Request} (h : ofGraph g = .ok r) :
    ∃ arg items, Ledger.get? g.attrs "grad_ys_out_grad" = some arg ∧ arg.toValue.items = .ok items ∧
      r.seeds = .list items ∧ r.aggregate = optional g "grad_aggregate_fun" := by
  unfold ofGraph at h
  split at h
  · cases h
  · cases hys : listed g "grad_ys" with
    | error e => rw [hys] at h; cases h
    | ok ys =>
      cases hseeds : listed g "grad_ys_out_grad" with
      | error e => rw [hys, hseeds] at h; cases h
      | ok seeds =>
        cases hxs : listed g "grad_xs" with
        | error e => rw [hys, hseeds, hxs] at h; cases h
        | ok xs =>
          rw [hys, hseeds, hxs] at h
          cases h
          obtain ⟨arg, items, hget, hitems, rfl⟩ := listed_ok hseeds
          exact ⟨arg, items, hget, hitems, rfl, rfl⟩

def Policy.PermitsSeeds (P : Policy) (a : Ambient) : Prop :=
  ∀ text, a.profile.get ["autodiff", "seed_op"] = .ok (.text text) → P.Permits a text

namespace Build

theorem makes_sweep (hb : book.Keeps P a) (hg : P.Governs w.heap) {p : Problem} (hseeds : ∀ e ∈ p.seeds, P.reads w.heap e)
    (hf : p.aggregate.Keeps P a) :
    P.Makes (Build.sweep { problem := p } book) a w fun g h => ∀ e ∈ g.outputs, P.reads h e := by
  let s : Stage := { work := w, sweep := { problem := p } }
  have hs : s.sweep.Sound P a s.heap :=
    ⟨hg, hseeds, hf, fun _ _ hget => (by cases hget), fun _ hn => (by cases hn), fun _ hm => (by cases hm)⟩
  have hrun := Sweep.sweeps_generate hb hs
  unfold Policy.Makes Policy.Leads Build.sweep Sweep.run
  unfold Policy.Sweeps Policy.Leads at hrun
  cases hgen : Sweep.generate book a s with
  | ok g s' => rw [hgen] at hrun; exact ⟨hrun.1, hrun.2.2⟩
  | error e s' => rw [hgen] at hrun; exact hrun

theorem makes_generate (hb : book.Keeps P a) (hs : P.PermitsSums a) (hg : P.Governs w.heap) {r : Request}
    (hseeds : r.seeds.Within P w.heap) (hf : r.aggregate.Keeps P a) :
    P.Makes (Build.generate book r) a w fun g h => ∀ e ∈ g.outputs, P.reads h e := by
  refine (Policy.makes_ofExcept _).bind fun p w₁ _ ⟨hp, hw₁⟩ => ?_
  obtain ⟨hfield, haggregate⟩ := Request.validate_ok hp
  rw [← hw₁] at hg hseeds
  refine makes_sweep hb hg (fun e he => ?_) (haggregate ▸ hf.aggregatorOf hs)
  have hwithin := hseeds.items (Request.field_ok hfield) (.entry e) (List.mem_map_of_mem he)
  cases hwithin with
  | entry hr => exact hr

theorem makes_toEntries (v : Value) :
    P.Makes (Build.toEntries v) a w fun es h => v.toEntries w.heap = .ok es ∧ h = w.heap :=
  .step (r := w.heap) rfl rfl (Policy.makes_ofExcept _)

theorem makes_defaultSeeds {op : Datum} (hp : ∀ text, op = .text text → P.Permits a text) : ∀ {ys : List Entry}
    {w : Workspace}, (∀ y ∈ ys, P.reads w.heap y) →
    P.Makes (defaultSeeds op ys) a w fun es h => ∀ e ∈ es, P.reads h e
  | [], w, _ => .pure (by simp)
  | y :: rest, w, hys => by
    rw [defaultSeeds]
    have hy : ∀ v ∈ [Value.entry y], v.Within P w.heap := List.forall_mem_singleton.mpr (.entry (hys y (by simp)))
    refine .step (r := w.heap) rfl rfl ((Policy.makes_apply hp hy _ [] (by simp) _).bind fun n w₁ hx₁ hn => ?_)
    refine (Policy.makes_entry hn 0).bind fun seed w₂ hx₂ hseed => ?_
    have hrest : ∀ y' ∈ rest, P.reads w₂.heap y' := fun y' hy' =>
      P.grows (hx₁.trans hx₂).grows (hys y' (List.mem_cons_of_mem _ hy'))
    refine (makes_defaultSeeds hp hrest).bind fun es w₃ hx₃ hes => .pure ?_
    exact List.forall_mem_cons.mpr ⟨P.grows hx₃.grows hseed, hes⟩

theorem makes_seedsFor (hp : P.PermitsSeeds a) {ys : List Entry} (hys : ∀ y ∈ ys, P.reads w.heap y) {seeds : Value}
    (hseeds : seeds.Within P w.heap) : P.Makes (seedsFor ys seeds) a w fun es h => ∀ e ∈ es, P.reads h e := by
  unfold seedsFor
  split
  · refine (Policy.makes_setting _).bind fun op w₁ _ ⟨hop, hw₁⟩ => ?_
    exact makes_defaultSeeds (fun text htext => hp text (htext ▸ hop)) (hw₁ ▸ hys)
  · exact (makes_toEntries seeds).mono fun _ _ _ h => h.2 ▸ hseeds.toEntries h.1

theorem makes_mirrorTest (strategies : StrategyTable) (o : Options) :
    P.Makes (mirrorTest strategies o) a w fun _ h => h = w.heap := by
  unfold mirrorTest
  split
  · dsimp only
    split
    · refine (Policy.makes_setting _).bind fun d w₁ _ ⟨_, hw₁⟩ => ?_
      rw [pure_bind]
      refine (Policy.makes_ofExcept _).bind fun found w₂ _ ⟨_, hw₂⟩ => ?_
      cases found <;> exact .pure (hw₂.trans hw₁)
    · rw [pure_bind]
      refine (Policy.makes_ofExcept _).bind fun found w₁ _ ⟨_, hw₁⟩ => ?_
      cases found <;> exact .pure hw₁
  · exact .pure rfl

theorem makes_gradients (hb : book.Keeps P a) (hp : P.PermitsSeeds a) (hs : P.PermitsSums a) (hg : P.Governs w.heap)
    {ys : Value} (hys : ys.Within P w.heap) {o : Options} (hseeds : o.seeds.Within P w.heap)
    (hf : o.aggregate.Keeps P a) (strategies : StrategyTable) (xs : Value) :
    P.Makes (gradients book strategies ys xs o) a w fun es h => ∀ e ∈ es, P.reads h e := by
  unfold gradients
  refine (makes_toEntries ys).bind fun ys' w₁ _ ⟨hys', hw₁⟩ => ?_
  refine (makes_toEntries xs).bind fun xs' w₂ _ ⟨_, hw₂⟩ => ?_
  have hw : w₂.heap = w.heap := hw₂.trans hw₁
  rw [← hw] at hg hys hys' hseeds
  refine (makes_seedsFor hp (hys.toEntries hys') hseeds).bind fun seeds w₃ hx₃ hreads => ?_
  refine (makes_mirrorTest strategies o).bind fun mirror w₄ hx₄ _ => ?_
  have hwithin : (Value.ofEntries seeds).Within P w₄.heap := by
    refine .list fun v hv => ?_
    obtain ⟨e, he, rfl⟩ := List.mem_map.mp hv
    exact .entry (P.grows hx₄.grows (hreads e he))
  have hg₄ : P.Governs w₄.heap := hg.extends (hx₃.trans hx₄)
  exact (makes_generate hb hs hg₄ hwithin hf).bind fun g w₅ _ houtputs => .pure houtputs

theorem makes_differentiate (hb : book.Keeps P a) (hs : P.PermitsSums a) (hg : P.Governs w.heap) {g : Graph}
    (hattrs : ∀ q ∈ g.attrs, q.2.toValue.Within P w.heap ∧ q.2.Keeps P a) :
    P.Makes (differentiate book g) a w fun g' h => ∀ e ∈ g'.outputs, P.reads h e := by
  refine (Policy.makes_ofExcept _).bind fun r w₁ _ ⟨hr, hw₁⟩ => ?_
  rw [← hw₁] at hg hattrs
  obtain ⟨arg, items, hget, hitems, hseeds, haggregate⟩ := Request.ofGraph_ok hr
  have hwithin := (hattrs _ (Ledger.mem_of_get? hget)).1.items hitems
  refine makes_generate hb hs hg (hseeds ▸ .list hwithin) ?_
  rw [haggregate]
  intro f hf
  unfold Request.optional at hf
  cases hopt : Ledger.get? g.attrs "grad_aggregate_fun" with
  | none => rw [hopt] at hf; cases hf
  | some arg => rw [hopt] at hf; exact (hattrs _ (Ledger.mem_of_get? hopt)).2 f hf

end Build

end Calls

end Backprop
