import Backprop.Proofs.SlotSound

/-!
# A run in stages

A sweep prepares, goes through the visited nodes one by one, and assembles. What
a part of it has done is read off its success: a slot that was looked up was
there, and one that was added to had no total. So the slots hold what the turns
so far say (`Recorded`), whatever the rules and the aggregator do to the nodes.
-/

namespace Backprop

/-! ## Calls that succeed -/

theorem Sweeping.ok_of_ofExcept {α β : Type} {x : Except Fault α} {f : α → Sweeping β} {a : Ambient} {s s' : Stage}
    {r : β} (h : (Sweeping.ofExcept x >>= f) a s = .ok r s') : ∃ v, x = .ok v ∧ f v a s = .ok r s' := by
  cases x with
  | ok v => exact ⟨v, rfl, h⟩
  | error e => cases h

theorem Sweeping.lift_ok {α : Type} {act : Build α} {a : Ambient} {s s' : Stage} {r : α}
    (h : Sweeping.lift act a s = .ok r s') : ∃ w, act a s.work = .ok r w ∧ s' = { s with work := w } := by
  unfold Sweeping.lift at h
  cases hact : act a s.work with
  | ok q w => rw [hact] at h; cases h; exact ⟨w, rfl, rfl⟩
  | error e w => rw [hact] at h; cases h

theorem Sweeping.ok_of_lift {α β : Type} {act : Build α} {f : α → Sweeping β} {a : Ambient} {s s' : Stage} {r : β}
    (h : (Sweeping.lift act >>= f) a s = .ok r s') :
    ∃ v w, act a s.work = .ok v w ∧ f v a { s with work := w } = .ok r s' := by
  obtain ⟨v, s₁, hact, h⟩ := ok_of_bind h
  obtain ⟨w, hw, rfl⟩ := Sweeping.lift_ok hact
  exact ⟨v, w, hw, h⟩

namespace Sweep

section Calls
variable {book : RuleBook} {a : Ambient} {n : NodeId} {s s' : Stage}

theorem not_ok_of_blame {α : Type} {fault : String → String → GradientFault} {r : α}
    (h : blame n fault a s = .ok r s') : False := by
  unfold blame at h
  rw [run_bind_ok (r := s.work.heap) (u := s) rfl] at h
  cases hop : (s.work.heap.node n).op <;> simp only [hop] at h <;> cases h

theorem aggregateAt_ok {e : Entry} {v : Value} (h : aggregateAt e a s = .ok v s') :
    ∃ slot w, s.sweep.slotAt s.work.heap e = .ok slot ∧
      slot.aggregate s.sweep.problem.aggregate a s.work = .ok v w ∧
      s' = ⟨w, s.sweep.putSlot e { slot with total := v.some? }⟩ := by
  unfold aggregateAt at h
  rw [run_bind_ok (r := s.sweep) (u := s) rfl, run_bind_ok (r := s.work.heap) (u := s) rfl] at h
  obtain ⟨slot, hslot, h⟩ := Sweeping.ok_of_ofExcept h
  obtain ⟨total, w, hw, h⟩ := Sweeping.ok_of_lift h
  cases h
  exact ⟨slot, w, hslot, hw, rfl⟩

theorem seedOne_ok {y seed : Entry} (h : seedOne (y, seed) a s = .ok () s') :
    ∃ slot, s.sweep.slotAt s.work.heap y = .ok slot := by
  unfold seedOne at h
  rw [run_bind_ok (r := s.sweep) (u := s) rfl, run_bind_ok (r := s.work.heap) (u := s) rfl] at h
  obtain ⟨slot, hslot, -⟩ := Sweeping.ok_of_ofExcept h
  exact ⟨slot, hslot⟩

theorem scatterOne_ok {input : Entry} {grad : Value} (h : scatterOne n input grad a s = .ok () s') :
    ∃ g slot, grad = .entry g ∧ s.sweep.slotAt s.work.heap input = .ok slot ∧ slot.total = none ∧ s'.work = s.work := by
  unfold scatterOne at h
  cases grad with
  | entry g =>
    simp only at h
    rw [run_bind_ok (r := s.sweep) (u := s) rfl, run_bind_ok (r := s.work.heap) (u := s) rfl] at h
    obtain ⟨slot, hslot, h⟩ := Sweeping.ok_of_ofExcept h
    obtain ⟨added, hadd, h⟩ := Sweeping.ok_of_ofExcept h
    cases h
    unfold Slot.add at hadd
    cases htotal : slot.total with
    | some v => rw [htotal] at hadd; cases hadd
    | none => exact ⟨g, slot, rfl, hslot, htotal, rfl⟩
  | data d => exact (not_ok_of_blame h).elim
  | node n => exact (not_ok_of_blame h).elim
  | list l => exact (not_ok_of_blame h).elim
  | object o => exact (not_ok_of_blame h).elim

theorem scatter_work : ∀ {pairs : List (Entry × Value)} {s : Stage}, scatter n pairs a s = .ok () s' → s'.work = s.work
  | [], _, h => by
    cases h
    rfl
  | (input, grad) :: pairs, s, h => by
    rw [scatter] at h
    obtain ⟨_, s₁, hone, hrest⟩ := ok_of_bind h
    obtain ⟨-, -, -, -, -, hwork⟩ := scatterOne_ok hone
    exact (scatter_work hrest).trans hwork

theorem applyRule_ok {totals grads : List Value} (h : applyRule book n totals a s = .ok grads s') :
    s'.sweep = s.sweep ∧ ∃ i rule forward w, book.find n a s.work = .ok (some i) w ∧ i.rule = some rule ∧
      rule forward totals a w = .ok grads s'.work := by
  unfold applyRule at h
  obtain ⟨found, w, hfind, h⟩ := Sweeping.ok_of_lift h
  cases found with
  | none => exact (not_ok_of_blame h).elim
  | some i =>
    simp only at h
    rw [run_bind_ok (r := s.sweep) rfl, run_bind_ok (r := w.heap) rfl] at h
    obtain ⟨forward, -, h⟩ := Sweeping.ok_of_ofExcept h
    cases hr : i.rule with
    | none => rw [hr] at h; cases h
    | some rule =>
      rw [hr] at h
      obtain ⟨w', hrule, rfl⟩ := Sweeping.lift_ok h
      exact ⟨rfl, i, rule, forward, w, hfind, hr, hrule⟩

/-- The parts of a step, each with the stage that it ends in. -/
theorem step_ok {level : Level} (h : step book level n a s = .ok () s') :
    ((s.work.heap.node n).op = none ∧ s' = s) ∨
    ∃ slots totals grads s₁ s₂ s₃ w, (s.work.heap.node n).op.isSome ∧ s.sweep.slotsOf s.work.heap n = .ok slots ∧
      aggregateAll (n.entries slots.length) a s = .ok totals s₁ ∧ applyRule book n totals a s₁ = .ok grads s₂ ∧
      grads.length = (s₂.work.heap.node n).inputs.length ∧
      scatter n ((s₂.work.heap.node n).inputs.zip grads) a s₂ = .ok () s₃ ∧
      s₃.work.heap.GrowsTo w.heap ∧ s' = { s₃ with work := w } := by
  unfold step at h
  rw [run_bind_ok (r := s.work.heap) (u := s) rfl] at h
  cases hop : (s.work.heap.node n).op with
  | none =>
    simp only [hop] at h
    cases h
    exact .inl ⟨rfl, rfl⟩
  | some op =>
    simp only [hop] at h
    rw [run_bind_ok (r := s.sweep) (u := s) rfl, run_bind_ok (r := s.work.heap) (u := s) rfl] at h
    obtain ⟨slots, hslots, h⟩ := Sweeping.ok_of_ofExcept h
    obtain ⟨totals, s₁, hagg, h⟩ := ok_of_bind h
    obtain ⟨grads, s₂, hrule, h⟩ := ok_of_bind h
    rw [run_bind_ok (r := s₂.work.heap) (u := s₂) rfl] at h
    split at h
    · next hcount =>
      obtain ⟨_, s₃, hscatter, h⟩ := ok_of_bind h
      rw [run_bind_ok (r := s₃.work.heap) (u := s₃) rfl] at h
      obtain ⟨w, hlog, rfl⟩ := Sweeping.lift_ok h
      exact .inr ⟨slots, totals, grads, s₁, s₂, s₃, w, rfl, hslots, hagg, hrule, hcount, hscatter,
        (Build.grows_log _ _ _).ok hlog, rfl⟩
    · exact (not_ok_of_blame h).elim

end Calls

end Sweep

/-! ## All but the slots -/

def Sweeping.Settled {α : Type} (act : Sweeping α) : Prop :=
  ∀ a s, Ends act a s (fun _ s' => s.sweep.Alike s'.sweep) fun _ => True

namespace Sweeping
variable {α β : Type}

theorem Settled.ok {act : Sweeping α} (h : Settled act) {a : Ambient} {s s' : Stage} {r : α} (hrun : act a s = .ok r s') :
    s.sweep.Alike s'.sweep := (h a s).ok hrun

theorem Settled.bind {act : Sweeping α} {f : α → Sweeping β} (h : Settled act) (hf : ∀ r, Settled (f r)) :
    Settled (act >>= f) := fun a s =>
  (h a s).bind fun r s' hs => (hf r a s').mono (fun _ _ hs' => hs.trans hs') fun _ h => h

theorem settled_pure (r : α) : Settled (pure r) := fun _ _ => .refl _

theorem settled_throw (e : Fault) : Settled (throw e : Sweeping α) := fun _ _ => trivial

theorem settled_sweep : Settled sweep := fun _ _ => .refl _

theorem settled_heap : Settled heap := fun _ _ => .refl _

theorem settled_ofExcept (x : Except Fault α) : Settled (ofExcept x) := by
  cases x with
  | ok r => exact settled_pure r
  | error e => exact settled_throw e

theorem settled_lift (act : Build α) : Settled (lift act) := by
  intro a s
  unfold Ends lift
  cases act a s.work with
  | ok r w => exact .refl _
  | error e w => trivial

theorem settled_putSlot (e : Entry) (slot : Slot) : Settled (modifySweep fun s => s.putSlot e slot) :=
  fun _ s => s.sweep.alike_putSlot e slot

end Sweeping

namespace Sweep
open Sweeping

theorem settled_seedOne (pair : Entry × Entry) : Settled (seedOne pair) :=
  settled_sweep.bind fun _ => settled_heap.bind fun _ => (settled_ofExcept _).bind fun _ => settled_putSlot _ _

theorem settled_seeds : ∀ pairs : List (Entry × Entry), Settled (pairs.forM seedOne)
  | [] => settled_pure _
  | pair :: pairs => (settled_seedOne pair).bind fun _ => settled_seeds pairs

theorem settled_seed : Settled seed := settled_sweep.bind fun _ => settled_seeds _

theorem settled_aggregateAt (e : Entry) : Settled (aggregateAt e) :=
  settled_sweep.bind fun _ => settled_heap.bind fun _ => (settled_ofExcept _).bind fun _ =>
    (settled_lift _).bind fun _ => (settled_putSlot _ _).bind fun _ => settled_pure _

theorem settled_aggregateAll : ∀ es : List Entry, Settled (aggregateAll es)
  | [] => settled_pure _
  | e :: es => (settled_aggregateAt e).bind fun _ => (settled_aggregateAll es).bind fun _ => settled_pure _

theorem settled_blame {α : Type} (n : NodeId) (fault : String → String → GradientFault) :
    Settled (blame (α := α) n fault) := by
  refine settled_heap.bind fun h => ?_
  dsimp only
  cases (h.node n).op with
  | none => exact settled_throw _
  | some op => exact settled_throw _

theorem settled_scatterOne (n : NodeId) (input : Entry) (grad : Value) : Settled (scatterOne n input grad) := by
  unfold scatterOne
  cases grad with
  | entry e =>
    exact settled_sweep.bind fun _ => settled_heap.bind fun _ => (settled_ofExcept _).bind fun _ =>
      (settled_ofExcept _).bind fun _ => settled_putSlot _ _
  | data d => exact settled_blame _ _
  | node n => exact settled_blame _ _
  | list l => exact settled_blame _ _
  | object o => exact settled_blame _ _

theorem settled_scatter (n : NodeId) : ∀ pairs : List (Entry × Value), Settled (scatter n pairs)
  | [] => settled_pure _
  | (input, grad) :: rest => (settled_scatterOne n input grad).bind fun _ => settled_scatter n rest

theorem settled_applyRule (book : RuleBook) (n : NodeId) (totals : List Value) : Settled (applyRule book n totals) := by
  intro a s
  unfold Ends
  cases h : applyRule book n totals a s with
  | ok grads s' => exact (applyRule_ok h).1 ▸ .refl _
  | error e s' => trivial

theorem settled_step (book : RuleBook) (level : Level) (n : NodeId) : Settled (step book level n) := by
  refine settled_heap.bind fun h => ?_
  cases (h.node n).op with
  | none => exact settled_pure _
  | some op =>
    refine settled_sweep.bind fun _ => settled_heap.bind fun _ => (settled_ofExcept _).bind fun _ =>
      (settled_aggregateAll _).bind fun _ => (settled_applyRule book n _).bind fun _ => settled_heap.bind fun _ => ?_
    dsimp only
    split
    · exact (settled_scatter n _).bind fun _ => settled_heap.bind fun _ => settled_lift _
    · exact settled_blame _ _

theorem settled_ensureSlots (n : NodeId) : Settled (ensureSlots n) := by
  intro a s
  show s.sweep.Alike (if Ledger.has s.sweep.slots n then s.sweep else _)
  split
  · exact .refl _
  · exact ⟨rfl, rfl, rfl⟩

theorem settled_steps (book : RuleBook) (level : Level) : ∀ ns : List NodeId, Settled (steps book level ns)
  | [] => settled_pure _
  | n :: ns => (settled_step book level n).bind fun _ => settled_steps book level ns

end Sweep

/-! ## Visiting and seeding -/

theorem Heap.finished_of_checkOrder {h : Heap} {order : List NodeId} (hc : h.checkOrder order = .ok ()) :
    h.finished order = order := by
  unfold finished
  rw [List.takeWhile_eq_self_iff]
  intro n hn
  simp [flaw_none_of_checkOrder hc n hn]

theorem freshSlots_eq {h : Heap} {n : NodeId} (content : Entry → Slot)
    (hc : ∀ e ∈ n.entries (h.width n), content e = {}) : Sweep.freshSlots h n = (n.entries (h.width n)).map content := by
  unfold Sweep.freshSlots
  rw [List.map_congr_left hc, List.map_const', NodeId.length_entries]
  rfl

/-- Visiting opens a slot for each output of the visited nodes, or refuses the graph. -/
theorem visit_tracks {p : Problem} {a : Ambient} {s : Stage} (hp : s.sweep.problem = p) :
    Tracks Sweep.visit (Build.visited p) a s fun _ _ s' => s'.work.heap = s.work.heap ∧
      (∀ n ∈ p.order s.work.heap, s.work.heap.flaw? n = none) ∧ s'.sweep.problem = p ∧
      s'.sweep.order = p.order s.work.heap ∧
      s'.sweep.Holds s.work.heap.width (p.order s.work.heap) (Slot.of (fun _ => []) []) := by
  subst hp
  unfold Sweep.visit Build.visited Build.visitEvent Build.log
  refine .left (r := s.work.heap) (u := s) rfl rfl ?_
  refine .left (r := s.sweep) (u := s) rfl rfl ?_
  refine .right (q := s.work.heap) rfl ?_
  simp only
  have hord : s.work.heap.postorder (s.sweep.problem.ys.map Entry.node) = s.sweep.problem.order s.work.heap := rfl
  rw [hord]
  generalize s.sweep.problem.order s.work.heap = order
  refine .left (r := ()) (u := { s with sweep := { s.sweep with
    slots := (s.work.heap.finished order).map fun n => (n, Sweep.freshSlots s.work.heap n) } }) rfl rfl ?_
  cases hc : s.work.heap.checkOrder order with
  | error e => exact ⟨rfl, rfl⟩
  | ok u =>
    refine .left (r := ()) rfl rfl ?_
    refine .right (q := ()) rfl ?_
    rw [Heap.finished_of_checkOrder hc]
    refine .left (r := ()) (u := { s with sweep := { s.sweep with
      slots := order.map fun n => (n, Sweep.freshSlots s.work.heap n), order := order } }) rfl rfl ?_
    refine Tracks.mono (Tracks.lift _ a _).with_runs ?_
    rintro _ _ s' ⟨-, hemit, -, hsw⟩
    have hheap : s'.work.heap = s.work.heap := by rw [← (EStateM.Result.ok.inj hemit).2]
    refine ⟨hheap, Heap.flaw_none_of_checkOrder hc, by rw [hsw], by rw [hsw], ?_⟩
    intro n
    rw [hsw, Ledger.get?_map_pair]
    split
    · rw [freshSlots_eq _ fun e _ => rfl]; rfl
    · rfl

theorem Turn.seeded_concat (pairs : List (Entry × Entry)) (y seed : Entry) :
    seeded (pairs ++ [(y, seed)]) = Function.update (seeded pairs) y [seed] := by
  funext e
  unfold seeded
  rw [List.filter_append]
  by_cases he : e = y
  · subst he; simp
  · have : ¬ y = e := fun hh => he hh.symm
    simp [Function.update_of_ne he, this]

section Seeds
variable {width : NodeId → Nat} {opened : List NodeId} {a : Ambient}

theorem seedOne_run {partials : Entry → List Entry} {s : Stage} {y : Entry} (seed : Entry)
    (hs : s.sweep.Holds width opened (Slot.of partials [])) (hn : y.node ∈ opened) (hi : y.index < width y.node) :
    ∃ s', Sweep.seedOne (y, seed) a s = .ok () s' ∧ s'.work = s.work ∧ s.sweep.Alike s'.sweep ∧
      s'.sweep.Holds width opened (Slot.of (Function.update partials y [seed]) []) := by
  refine ⟨{ s with sweep := s.sweep.putSlot y { Slot.of partials [] y with partials := [.entry seed] } }, ?_, rfl,
    Sweep.alike_putSlot _ _ _, ?_⟩
  · unfold Sweep.seedOne
    rw [run_bind_ok (r := s.sweep) (u := s) rfl, run_bind_ok (r := s.work.heap) (u := s) rfl,
      run_bind_ok (r := Slot.of partials [] y) (u := s) (by rw [hs.slotAt hn hi]; rfl)]
    rfl
  · refine (hs.putSlot hn _).congr fun e _ => ?_
    by_cases he : e = y
    · subst he; simp [Slot.of]
    · simp [Function.update_of_ne he, Slot.of]

theorem seeds_run : ∀ {pairs : List (Entry × Entry)} (before : List (Entry × Entry)) {s : Stage},
    s.sweep.Holds width opened (Slot.of (Turn.seeded before) []) →
    (∀ q ∈ pairs, q.1.node ∈ opened ∧ q.1.index < width q.1.node) →
    ∃ s', pairs.forM Sweep.seedOne a s = .ok () s' ∧ s'.work = s.work ∧ s.sweep.Alike s'.sweep ∧
      s'.sweep.Holds width opened (Slot.of (Turn.seeded (before ++ pairs)) [])
  | [], before, s, hs, _ => ⟨s, rfl, rfl, .refl _, by rw [List.append_nil]; exact hs⟩
  | (y, seed) :: pairs, before, s, hs, hq => by
    obtain ⟨hn, hi⟩ := hq (y, seed) (by simp)
    obtain ⟨s₁, hrun, hwork, halike, hs₁⟩ := seedOne_run (a := a) seed hs hn hi
    rw [← Turn.seeded_concat] at hs₁
    obtain ⟨s₂, hrun₂, hwork₂, halike₂, hs₂⟩ := seeds_run _ hs₁ fun q hq' => hq q (List.mem_cons_of_mem _ hq')
    refine ⟨s₂, ?_, hwork₂.trans hwork, halike.trans halike₂, ?_⟩
    · show (Sweep.seedOne (y, seed) >>= fun _ => pairs.forM Sweep.seedOne) a s = _
      rw [run_bind_ok hrun, hrun₂]
    · simpa using hs₂

/-- Seeds that were placed had a slot to be placed in. -/
theorem seeds_ok : ∀ {pairs : List (Entry × Entry)} (before : List (Entry × Entry)) {s s' : Stage},
    s.sweep.Holds width opened (Slot.of (Turn.seeded before) []) → pairs.forM Sweep.seedOne a s = .ok () s' →
    ∀ q ∈ pairs, q.1.node ∈ opened ∧ q.1.index < width q.1.node
  | [], _, _, _, _, _ => by simp
  | (y, seed) :: pairs, before, s, s', hs, h => by
    replace h : (Sweep.seedOne (y, seed) >>= fun _ => pairs.forM Sweep.seedOne) a s = .ok () s' := h
    obtain ⟨_, s₁, hone, h⟩ := ok_of_bind h
    obtain ⟨slot, hslot⟩ := Sweep.seedOne_ok hone
    obtain ⟨hn, hi, -⟩ := hs.slotAt_ok hslot
    obtain ⟨_, hrun, -, -, hs₁⟩ := seedOne_run (a := a) seed hs hn hi
    rw [hrun] at hone
    cases hone
    rw [← Turn.seeded_concat] at hs₁
    exact List.forall_mem_cons.mpr ⟨⟨hn, hi⟩, seeds_ok _ hs₁ h⟩

end Seeds

/-! ## What the slots hold -/

structure Recorded (width : NodeId → Nat) (p : Problem) (mirrors : Option MirrorMap) (opened : List NodeId)
    (turns : List Turn) (s : Sweep) : Prop where
  problem : s.problem = p
  mirrors : s.mirrors = mirrors
  holds : s.Holds width opened (Slot.of (Turn.arrived p turns) (Turn.known turns))
  totals : ∀ t ∈ turns, ∀ q ∈ t.totals, q.1.node ∈ opened
  grads : ∀ t ∈ turns, ∀ q ∈ t.grads, q.1.node ∈ opened

theorem Turn.known_append (turns : List Turn) (t : Turn) : known (turns ++ [t]) = known turns ++ t.totals := by
  unfold known; rw [List.flatMap_append]; simp

theorem Turn.arrived_append (p : Problem) (turns : List Turn) (t : Turn) :
    arrived p (turns ++ [t]) = fun e => arrived p turns e ++ passedTo t.grads e := by
  funext e
  unfold arrived
  rw [List.flatMap_append]
  simp

theorem Turn.passedTo_eq_nil {pairs : List (Entry × Entry)} {e : Entry} (h : ∀ q ∈ pairs, q.1 ≠ e) :
    passedTo pairs e = [] := by
  unfold passedTo
  rw [List.map_eq_nil_iff, List.filter_eq_nil_iff]
  exact fun q hq => by simp [h q hq]

theorem Turn.seeded_eq_nil {pairs : List (Entry × Entry)} {e : Entry} (h : ∀ q ∈ pairs, q.1 ≠ e) :
    seeded pairs e = [] := by
  have : pairs.filter (fun q => q.1 = e) = [] := List.filter_eq_nil_iff.mpr fun q hq => by simp [h q hq]
  unfold seeded
  rw [this]
  rfl

theorem Turn.get?_known_eq_none {turns : List Turn} {e : Entry}
    (h : ∀ t ∈ turns, ∀ q ∈ t.totals, q.1.node ≠ e.node) : Ledger.get? (known turns) e = none := by
  rw [Ledger.get?_eq_none_iff]
  intro q hq he
  obtain ⟨t, ht, hq⟩ := List.mem_flatMap.mp hq
  exact h t ht q hq (he ▸ rfl)

section Recorded
variable {width : NodeId → Nat} {p : Problem} {mirrors : Option MirrorMap} {opened : List NodeId} {turns : List Turn}
  {s s' : Sweep}

theorem Recorded.unvisited (hr : Recorded width p mirrors opened turns s)
    (hseeds : ∀ q ∈ p.ys.zip p.seeds, q.1.node ∈ opened) {e : Entry} (he : e.node ∉ opened) :
    Turn.arrived p turns e = [] ∧ Ledger.get? (Turn.known turns) e = none := by
  constructor
  · unfold Turn.arrived
    rw [List.append_eq_nil_iff, List.flatMap_eq_nil_iff]
    refine ⟨Turn.seeded_eq_nil fun q hq hqe => he (hqe ▸ hseeds q hq), fun t ht => ?_⟩
    exact Turn.passedTo_eq_nil fun q hq hqe => he (hqe ▸ hr.grads t ht q hq)
  · exact Turn.get?_known_eq_none fun t ht q hq hqe => he (hqe ▸ hr.totals t ht q hq)

theorem Recorded.append {new : List Turn} (hr : Recorded width p mirrors opened turns s) (halike : s.Alike s')
    (hs : s'.Holds width opened (Slot.of (Turn.arrived p (turns ++ new)) (Turn.known (turns ++ new))))
    (htotals : ∀ t ∈ new, ∀ q ∈ t.totals, q.1.node ∈ opened) (hgrads : ∀ t ∈ new, ∀ q ∈ t.grads, q.1.node ∈ opened) :
    Recorded width p mirrors opened (turns ++ new) s' :=
  ⟨halike.problem.trans hr.problem, halike.mirrors.trans hr.mirrors, hs,
    fun t ht => (List.mem_append.mp ht).elim (hr.totals t) (htotals t),
    fun t ht => (List.mem_append.mp ht).elim (hr.grads t) (hgrads t)⟩

end Recorded

/-- Gradients that were passed on are entries, and the slots that they were added to had no total. -/
theorem scatter_ok {width : NodeId → Nat} {opened : List NodeId} {known : Ledger Entry Entry} {a : Ambient} {n : NodeId} :
    ∀ {inputs : List Entry} {grads : List Value} {s s' : Stage} {partials : Entry → List Entry},
    inputs.length = grads.length → s.sweep.Holds width opened (Slot.of partials known) →
    Sweep.scatter n (inputs.zip grads) a s = .ok () s' →
    ∃ es : List Entry, grads = es.map .entry ∧ s'.work = s.work ∧
      s'.sweep.Holds width opened (Slot.of (fun e => partials e ++ Turn.passedTo (inputs.zip es) e) known) ∧
      ∀ e ∈ inputs, e.node ∈ opened ∧ e.index < width e.node ∧ Ledger.get? known e = none
  | [], [], s, _, partials, _, hs, h => by
    cases h
    exact ⟨[], rfl, rfl, by simpa [Turn.passedTo] using hs, by simp⟩
  | input :: inputs, grad :: grads, s, s', partials, hlen, hs, h => by
    rw [List.zip_cons_cons, Sweep.scatter] at h
    obtain ⟨_, s₁, hone, hrest⟩ := ok_of_bind h
    obtain ⟨g, slot, rfl, hslot, htotal, -⟩ := Sweep.scatterOne_ok hone
    obtain ⟨hn, hi, rfl⟩ := hs.slotAt_ok hslot
    have hk : Ledger.get? known input = none := Option.map_eq_none_iff.mp htotal
    obtain ⟨_, hrun, hwork, -, hs₁⟩ := scatterOne_run (a := a) n g hs hn hi hk
    rw [hrun] at hone
    cases hone
    obtain ⟨es, rfl, hwork', hs', hinputs⟩ := scatter_ok (by simpa using hlen) hs₁ hrest
    refine ⟨g :: es, rfl, hwork'.trans hwork, ?_, List.forall_mem_cons.mpr ⟨⟨hn, hi, hk⟩, hinputs⟩⟩
    simpa only [List.zip_cons_cons, Turn.passedTo_cons, List.append_assoc] using hs'
  | [], _ :: _, _, _, _, hlen, _, _ => by simp at hlen
  | _ :: _, [], _, _, _, hlen, _, _ => by simp at hlen

/-! ## Assembling -/

section Assemble
variable {width : NodeId → Nat} {opened : List NodeId} {partials : Entry → List Entry} {known : Ledger Entry Entry}
  {a : Ambient} {s : Stage}

theorem Sweep.Holds.has_iff {s : Sweep} {content : Entry → Slot} (hs : s.Holds width opened content) (n : NodeId) :
    Ledger.has s.slots n = true ↔ n ∈ opened := by
  unfold Ledger.has
  rw [hs n]
  by_cases hn : n ∈ opened <;> simp [hn]

/-- A node without slots gets empty ones, which is what has arrived for it. -/
theorem ensureSlots_run {n : NodeId} (hs : s.sweep.Holds width opened (Slot.of partials known))
    (hwidth : n ∉ opened → width n = s.work.heap.width n)
    (hempty : ∀ e : Entry, e.node ∉ opened → partials e = [] ∧ Ledger.get? known e = none) :
    ∃ s', Sweep.ensureSlots n a s = .ok () s' ∧ s'.work = s.work ∧ s.sweep.Alike s'.sweep ∧
      s'.sweep.Holds width (n :: opened) (Slot.of partials known) := by
  by_cases ho : n ∈ opened
  · refine ⟨s, ?_, rfl, .refl _, fun k => ?_⟩
    · show EStateM.Result.ok () { s with sweep := if Ledger.has s.sweep.slots n = true then s.sweep else _ } = _
      rw [if_pos ((hs.has_iff n).mpr ho)]
    · rw [hs k]
      by_cases hk : k = n
      · subst hk; simp [ho]
      · simp [hk]
  · have hno : ¬ Ledger.has s.sweep.slots n = true := fun hh => ho ((hs.has_iff n).mp hh)
    refine ⟨{ s with sweep := { s.sweep with
      slots := Ledger.put s.sweep.slots n (Sweep.freshSlots s.work.heap n) } }, ?_, rfl, ⟨rfl, rfl, rfl⟩, fun k => ?_⟩
    · show EStateM.Result.ok () { s with sweep := if Ledger.has s.sweep.slots n = true then s.sweep else _ } = _
      rw [if_neg hno]
    · show Ledger.get? (Ledger.put s.sweep.slots n (Sweep.freshSlots s.work.heap n)) k = _
      by_cases hk : k = n
      · subst hk
        rw [Ledger.get?_put_self, if_pos (by simp), freshSlots_eq (Slot.of partials known), hwidth ho]
        intro e he
        obtain ⟨hp, hk⟩ := hempty e ((NodeId.mem_entries.mp he).1 ▸ ho)
        simp [Slot.of, hp, hk]
      · rw [Ledger.get?_put_ne _ _ hk, hs k]
        simp [hk]

theorem Build.grows_reduce {f : Aggregator} (hf : f.Proper) (grads : List Entry) : Build.Grows (Build.reduce f grads) := by
  refine (hf.grows _).bind fun v => ?_
  cases v with
  | entry e => exact Build.respects_pure e
  | _ => exact Build.respects_throw _

/-- Requested entries get the total that is known for them, or else one is made of what has arrived. -/
theorem assembleAll_tracks {p : Problem} {turns : List Turn} (hf : p.aggregate.Proper) : ∀ {xs : List Entry} {s : Stage}
    {opened : List NodeId} {known : Ledger Entry Entry}, s.sweep.problem = p →
    s.sweep.Holds width opened (Slot.of (Turn.arrived p turns) known) →
    (∀ x ∈ xs, x.index < width x.node ∧
      (x.node ∉ opened → s.work.heap.Has x.node ∧ width x.node = s.work.heap.width x.node)) →
    (∀ e : Entry, e.node ∉ opened → Turn.arrived p turns e = [] ∧ Ledger.get? known e = none) →
    Tracks (Sweep.assembleAll xs) (Build.collect p turns xs known) a s fun r q _ => r = q.map .entry
  | [], _, _, _, _, _, _, _ => .pure rfl
  | x :: xs, s, opened, known, hp, hs, hx, hempty => by
    obtain ⟨hi, hwidth⟩ := hx x (by simp)
    obtain ⟨s₁, hrun, hwork, halike, hs₁⟩ := ensureSlots_run (a := a) hs (fun ho => (hwidth ho).2) hempty
    rw [Sweep.assembleAll, Build.collect]
    refine .left hrun hwork ?_
    have hempty₁ : ∀ e : Entry, e.node ∉ x.node :: opened →
        Turn.arrived p turns e = [] ∧ Ledger.get? known e = none :=
      fun e he => hempty e fun ho => he (List.mem_cons_of_mem _ ho)
    have hx' : ∀ h : Heap, s.work.heap.GrowsTo h → ∀ x' ∈ xs, x'.index < width x'.node ∧
        (x'.node ∉ x.node :: opened → h.Has x'.node ∧ width x'.node = h.width x'.node) := by
      intro h hg x' hx'
      obtain ⟨hi, hwidth⟩ := hx x' (List.mem_cons_of_mem _ hx')
      refine ⟨hi, fun ho => ?_⟩
      obtain ⟨hhas, hwidth⟩ := hwidth fun hk => ho (List.mem_cons_of_mem _ hk)
      refine ⟨hg.has hhas, ?_⟩
      rw [hwidth, Heap.width, Heap.width, hg.outputs_eq hhas]
    -- an entry that was requested before, or that had its turn, is not reduced again
    cases hk : Ledger.get? known x with
    | some total =>
      obtain ⟨s₂, hrun₂, hwork₂, halike₂, hs₂⟩ := aggregateAt_known (a := a) hs₁ (by simp) hi hk
      refine .left hrun₂ hwork₂ ?_
      have hwork' : s₂.work = s.work := hwork₂.trans hwork
      refine .bind (assembleAll_tracks hf ((halike.trans halike₂).problem.trans hp) hs₂
        (by rw [hwork']; exact hx' _ (.refl _)) hempty₁) ?_
      rintro _ q s₃ rfl
      exact .pure rfl
    | none =>
      have hagg := aggregateAt_tracks (a := a) (by rw [halike.problem, hp]; exact hf.returns) hs₁ (by simp) hi hk
      rw [halike.problem, hp] at hagg
      refine .bind hagg.with_runs ?_
      rintro _ q s₂ ⟨-, hreduce, rfl, halike₂, hs₂⟩
      have hg : s.work.heap.GrowsTo s₂.work.heap := hwork ▸ (Build.grows_reduce hf _).ok hreduce
      have hempty₂ : ∀ e : Entry, e.node ∉ x.node :: opened →
          Turn.arrived p turns e = [] ∧ Ledger.get? (known ++ [(x, q)]) e = none := by
        intro e he
        have hne : x ≠ e := fun hh => he (hh ▸ List.mem_cons_self ..)
        exact ⟨(hempty₁ e he).1, Ledger.get?_concat_of_ne (hempty₁ e he).2 hne⟩
      refine .bind (assembleAll_tracks hf ((halike.trans halike₂).problem.trans hp) hs₂ (hx' _ hg) hempty₂) ?_
      rintro _ qs s₃ rfl
      exact .pure rfl

end Assemble

/-! ## The parts of a run -/

namespace Sweep

def prepare : Sweeping Unit := do
  visit
  seed
  mirror

def start (p : Problem) (work : Workspace) : Stage := ⟨work, { problem := p, used := true }⟩

/-- The sweep until the given nodes have been gone through. -/
def upTo (book : RuleBook) (ns : List NodeId) : Sweeping Unit := do
  prepare
  let level := if ← Sweeping.lift (Build.flag ["debugprint"]) then Level.info else Level.debug
  steps book level ns

def assemble (xs : List Entry) : Sweeping Graph := do
  let totals ← assembleAll xs
  let outputs ← Sweeping.ofExcept (Value.itemsToEntries (← Sweeping.heap) totals)
  return { outputs }

theorem generate_of_used {book : RuleBook} {a : Ambient} {s : Stage} (hu : s.sweep.used = true) :
    generate book a s = .error (.gradient .generatedTwice) s := by
  obtain ⟨work, problem, used, order, slots, mirrors⟩ := s
  cases hu
  rfl

theorem generate_of_unused {book : RuleBook} {a : Ambient} {s : Stage} (hu : s.sweep.used = false) :
    generate book a s = (prepare >>= fun _ => reverse book >>= fun _ => Sweeping.sweep >>= fun s =>
      assemble s.problem.xs) a { s with sweep := { s.sweep with used := true } } := by
  obtain ⟨work, problem, used, order, slots, mirrors⟩ := s
  cases hu
  unfold prepare
  simp only [bind_assoc]
  rfl

section Parts
variable {book : RuleBook} {p : Problem} {a : Ambient} {work : Workspace} {s s' : Stage}

/-- Before the first turn the slots hold the seeds, and the nodes have been mirrored. -/
theorem prepare_ok (hp : s.sweep.problem = p) (h : prepare a s = .ok () s') :
    s'.sweep.order = p.order s.work.heap ∧
      Recorded s.work.heap.width p s'.sweep.mirrors (p.order s.work.heap) [] s'.sweep ∧
      (∀ q ∈ p.ys.zip p.seeds, q.1.node ∈ p.order s.work.heap) ∧
      (∀ n ∈ p.order s.work.heap, s.work.heap.flaw? n = none) ∧ ∃ w, w.heap = s.work.heap ∧
        Build.mirrorMap (p.order s.work.heap) p.mirror none a w = .ok s'.sweep.mirrors s'.work := by
  unfold prepare at h
  obtain ⟨_, s₁, hvisit, h⟩ := ok_of_bind h
  obtain ⟨_, s₂, hseed, h⟩ := ok_of_bind h
  obtain ⟨_, -, hheap, hflaw, hp₁, ho₁, hs₁⟩ := (visit_tracks hp).ok hvisit
  unfold seed at hseed
  rw [run_bind_ok (r := s₁.sweep) (u := s₁) rfl, hp₁] at hseed
  have hseeds := seeds_ok (a := a) [] hs₁ hseed
  obtain ⟨_, hrun, hwork, halike, hs₂⟩ := seeds_run (a := a) [] hs₁ hseeds
  rw [hrun] at hseed
  cases hseed
  unfold mirror at h
  rw [run_bind_ok (r := s₂.sweep) (u := s₂) rfl, halike.order, ho₁, halike.problem, hp₁] at h
  obtain ⟨mirrors, w, hmap, h⟩ := Sweeping.ok_of_lift h
  cases h
  have harrived : Turn.arrived p [] = Turn.seeded ([] ++ p.ys.zip p.seeds) := by
    funext e; simp [Turn.arrived]
  refine ⟨halike.order.trans ho₁, ⟨halike.problem.trans hp₁, rfl, ?_, by simp, by simp⟩, fun q hq => (hseeds q hq).1,
    hflaw, s₂.work, by rw [hwork, hheap], hmap⟩
  rw [harrived]
  exact hs₂

theorem prepare_grows (h : prepare a s = .ok () s') : s.work.heap.GrowsTo s'.work.heap := by
  obtain ⟨-, -, -, -, w, hheap, hmap⟩ := prepare_ok rfl h
  exact hheap ▸ (Build.grows_mirrorMap _ _ _).ok hmap

theorem upTo_problem {ns : List NodeId} (h : upTo book ns a (start p work) = .ok () s) : s.sweep.problem = p := by
  unfold upTo at h
  obtain ⟨_, s₁, hprepare, h⟩ := ok_of_bind h
  obtain ⟨verbose, s₂, hflag, hsteps⟩ := ok_of_bind h
  obtain ⟨-, hr, -⟩ := prepare_ok (p := p) rfl hprepare
  exact ((settled_steps book _ _).ok hsteps).problem.trans
    (((Sweeping.settled_lift _).ok hflag).problem.trans hr.problem)

/-- A run goes through the visited nodes backwards and then assembles what was requested. -/
theorem run_eq (book : RuleBook) (p : Problem) (a : Ambient) (work : Workspace) :
    Sweep.run { problem := p } book a work =
      (upTo book (p.order work.heap).reverse >>= fun _ => assemble p.xs) a (start p work) := by
  have hgen : Sweep.run { problem := p } book a work = (prepare >>= fun _ => reverse book >>= fun _ =>
      Sweeping.sweep >>= fun s => assemble s.problem.xs) a (start p work) := generate_of_unused rfl
  unfold reverse at hgen
  rw [hgen]
  simp only [upTo, bind_assoc]
  -- `reverse` reads the order from the sweep, which has it from the visit
  refine run_bind_congr fun _ s hs => run_bind_congr fun verbose s₁ hs₁ => ?_
  obtain ⟨horder, hr, -⟩ := prepare_ok (p := p) rfl hs
  have halike := (Sweeping.settled_lift _).ok hs₁
  have horder₁ : s₁.sweep.order = p.order work.heap := halike.order.trans horder
  rw [run_bind_ok (r := s₁.sweep) (u := s₁) rfl, horder₁]
  refine run_bind_congr fun _ s₂ hs₂ => ?_
  have hproblem := ((settled_steps book _ _).ok hs₂).problem.trans (halike.problem.trans hr.problem)
  rw [run_bind_ok (r := s₂.sweep) (u := s₂) rfl, hproblem]

theorem steps_concat (level : Level) (n : NodeId) : ∀ ns : List NodeId,
    steps book level (ns ++ [n]) = (steps book level ns >>= fun _ => Sweep.step book level n)
  | [] => by
    rw [List.nil_append, steps, steps, steps, pure_bind]
    exact bind_pure_unit
  | k :: ns => by
    rw [List.cons_append, steps, steps, bind_assoc]
    exact bind_congr fun _ => steps_concat level n ns

theorem upTo_concat_run {ns : List NodeId} (h : upTo book ns a s = .ok () s') (n : NodeId) :
    ∃ level, upTo book (ns ++ [n]) a s = Sweep.step book level n a s' := by
  unfold upTo at h ⊢
  obtain ⟨_, s₁, hprepare, h⟩ := ok_of_bind h
  obtain ⟨verbose, s₂, hflag, h⟩ := ok_of_bind h
  refine ⟨if verbose then .info else .debug, ?_⟩
  rw [run_bind_ok hprepare, run_bind_ok hflag, steps_concat, run_bind_ok h]

theorem upTo_concat_error {ns : List NodeId} {e : Fault} (h : upTo book ns a s = .error e s') (n : NodeId) :
    upTo book (ns ++ [n]) a s = .error e s' := by
  unfold upTo at h ⊢
  cases hprepare : prepare a s with
  | error f s₁ => rwa [run_bind_error hprepare] at h ⊢
  | ok _ s₁ =>
    rw [run_bind_ok hprepare] at h ⊢
    cases hflag : Sweeping.lift (Build.flag ["debugprint"]) a s₁ with
    | error f s₂ => rwa [run_bind_error hflag] at h ⊢
    | ok verbose s₂ =>
      rw [run_bind_ok hflag] at h ⊢
      rw [steps_concat, run_bind_error h]

theorem upTo_append_error {ns : List NodeId} {e : Fault} (h : upTo book ns a s = .error e s') (ms : List NodeId) :
    upTo book (ns ++ ms) a s = .error e s' := by
  induction ms generalizing ns with
  | nil => rwa [List.append_nil]
  | cons m ms ih =>
    rw [List.append_cons]
    exact ih (upTo_concat_error h m)

theorem upTo_left {ns ms : List NodeId} (h : upTo book (ns ++ ms) a s = .ok () s') :
    ∃ s₁, upTo book ns a s = .ok () s₁ := by
  cases hns : upTo book ns a s with
  | error e s₁ =>
    rw [upTo_append_error hns] at h
    cases h
  | ok _ s₁ => exact ⟨s₁, rfl⟩

theorem upTo_concat {ns : List NodeId} {n : NodeId} (h : upTo book (ns ++ [n]) a s = .ok () s') :
    ∃ s₁ level, upTo book ns a s = .ok () s₁ ∧ step book level n a s₁ = .ok () s' := by
  cases hns : upTo book ns a s with
  | error e s₁ =>
    rw [upTo_concat_error hns] at h
    cases h
  | ok _ s₁ =>
    obtain ⟨level, hrun⟩ := upTo_concat_run hns n
    exact ⟨s₁, level, rfl, hrun.symm.trans h⟩

theorem aggregateAll_split : ∀ {es : List Entry} {totals : List Value} {s s' : Stage},
    aggregateAll es a s = .ok totals s' → ∀ {e : Entry} {v : Value}, (e, v) ∈ es.zip totals →
    ∃ before after totals₁ s₁ s₂, es = before ++ e :: after ∧ aggregateAll before a s = .ok totals₁ s₁ ∧
      aggregateAt e a s₁ = .ok v s₂
  | [], _, _, _, _, _, _, hm => by simp at hm
  | e₀ :: es, totals, s, s', h, e, v, hm => by
    rw [aggregateAll] at h
    obtain ⟨v₀, s₁, h₀, h⟩ := ok_of_bind h
    obtain ⟨totals, s₂, h, hnil⟩ := ok_of_bind h
    cases hnil
    rcases List.mem_cons.mp hm with hm | hm
    · cases hm
      exact ⟨[], es, [], s, s₁, rfl, rfl, h₀⟩
    · obtain ⟨before, after, totals₁, s₃, s₄, rfl, hbefore, he⟩ := aggregateAll_split h hm
      refine ⟨e₀ :: before, after, v₀ :: totals₁, s₃, s₄, rfl, ?_, he⟩
      rw [aggregateAll, run_bind_ok h₀, run_bind_ok hbefore]
      rfl

theorem aggregateAll_length : ∀ {es : List Entry} {totals : List Value} {s : Stage},
    aggregateAll es a s = .ok totals s' → totals.length = es.length
  | [], _, _, h => by
    cases h
    rfl
  | e :: es, _, s, h => by
    rw [aggregateAll] at h
    obtain ⟨v, s₁, -, hrest⟩ := ok_of_bind h
    obtain ⟨totals, s₂, hrest, hnil⟩ := ok_of_bind hrest
    cases hnil
    rw [List.length_cons, List.length_cons, aggregateAll_length hrest]

theorem aggregateAt_calls {e : Entry} {partials : List Value} {v : Value}
    (hslot : s.sweep.slotAt s.work.heap e = .ok { partials }) (h : aggregateAt e a s = .ok v s') :
    ∃ w, s.sweep.problem.aggregate partials a s.work = .ok v w := by
  obtain ⟨slot, w, hslot', hcall, -⟩ := aggregateAt_ok h
  rw [hslot] at hslot'
  cases hslot'
  exact ⟨w, hcall⟩

theorem ensureSlots_work {n : NodeId} (h : ensureSlots n a s = .ok () s') : s'.work = s.work := by
  cases h
  rfl

theorem assemble_ok {xs : List Entry} {g : Graph} (h : assemble xs a s = .ok g s') :
    ∃ totals, assembleAll xs a s = .ok totals s' ∧ Value.itemsToEntries s'.work.heap totals = .ok g.outputs := by
  unfold assemble at h
  obtain ⟨totals, s₁, hall, h⟩ := ok_of_bind h
  rw [run_bind_ok (r := s₁.work.heap) (u := s₁) rfl] at h
  obtain ⟨outputs, houtputs, h⟩ := Sweeping.ok_of_ofExcept h
  cases h
  exact ⟨totals, hall, houtputs⟩

theorem assembleAll_concat {xs : List Entry} {x : Entry} {totals : List Value}
    (h : assembleAll (xs ++ [x]) a s = .ok totals s') :
    ∃ totals₁ v s₁ s₂, totals = totals₁ ++ [v] ∧ assembleAll xs a s = .ok totals₁ s₁ ∧
      ensureSlots x.node a s₁ = .ok () s₂ ∧ aggregateAt x a s₂ = .ok v s' := by
  induction xs generalizing s totals with
  | nil =>
    rw [List.nil_append, assembleAll] at h
    obtain ⟨_, s₂, hopen, h⟩ := ok_of_bind h
    obtain ⟨v, s₃, hx, h⟩ := ok_of_bind h
    cases h
    exact ⟨[], v, s, s₂, rfl, rfl, hopen, hx⟩
  | cons x₀ xs ih =>
    rw [List.cons_append, assembleAll] at h
    obtain ⟨_, s₁, h₀, h⟩ := ok_of_bind h
    obtain ⟨v₀, s₂, h₁, h⟩ := ok_of_bind h
    obtain ⟨totals, s₃, h, hnil⟩ := ok_of_bind h
    cases hnil
    obtain ⟨totals₁, v, s₄, s₅, rfl, hxs, hopen, hx⟩ := ih h
    refine ⟨v₀ :: totals₁, v, s₄, s₅, rfl, ?_, hopen, hx⟩
    rw [assembleAll, run_bind_ok h₀, run_bind_ok h₁, run_bind_ok hxs]
    rfl

end Parts

end Sweep

/-- The entry has a slot, or gets one if the slots of its node are opened now. -/
structure Stage.Grants (s : Stage) (x : Entry) : Prop where
  slot : ∀ slots, Ledger.get? s.sweep.slots x.node = some slots → x.index < slots.length
  late : Ledger.get? s.sweep.slots x.node = none → s.work.heap.HasEntry x

namespace Recorded
variable {width : NodeId → Nat} {p : Problem} {mirrors : Option MirrorMap} {opened : List NodeId} {turns : List Turn}
  {s : Stage}

theorem grants {h : Heap} (hr : Recorded h.width p mirrors opened turns s.sweep) {x : Entry} (hx : h.HasEntry x)
    (hlate : x.node ∉ opened → s.work.heap.HasEntry x) : s.Grants x where
  slot slots hslots := by
    rw [hr.holds x.node] at hslots
    split at hslots
    · cases hslots
      rw [List.length_map, NodeId.length_entries]
      exact hx.lt_width
    · cases hslots
  late hnone := hlate fun ho => by
    rw [hr.holds x.node, if_pos ho] at hnone
    cases hnone

/-- What is assembled is what the requests come to by the turns. -/
theorem assemble_tracks {a : Ambient} (hr : Recorded width p mirrors opened turns s.sweep)
    (hseeds : ∀ q ∈ p.ys.zip p.seeds, q.1.node ∈ opened) (hf : p.aggregate.Proper) (hx : ∀ x ∈ p.xs, s.Grants x) :
    Tracks (Sweep.assemble p.xs) (do return ({ outputs := ← Build.collect p turns p.xs (Turn.known turns) } : Graph)) a s
      fun g g' _ => g = g' := by
  -- a node without slots gets as many as it has outputs by now
  let width' := fun n => if n ∈ opened then width n else s.work.heap.width n
  have hs : s.sweep.Holds width' opened (Slot.of (Turn.arrived p turns) (Turn.known turns)) :=
    hr.holds.of_width fun n hn => if_pos hn
  unfold Sweep.assemble
  refine .bind (assembleAll_tracks hf hr.problem hs (fun x hmem => ?_) fun e he => hr.unvisited hseeds he) ?_
  · by_cases ho : x.node ∈ opened
    · have hi := (hx x hmem).slot _ (by rw [hr.holds x.node, if_pos ho])
      rw [List.length_map, NodeId.length_entries] at hi
      have hw : width' x.node = width x.node := if_pos ho
      exact ⟨hw.symm ▸ hi, fun hno => absurd ho hno⟩
    · have hhas := (hx x hmem).late (by rw [hr.holds x.node, if_neg ho])
      have hw : width' x.node = s.work.heap.width x.node := if_neg ho
      exact ⟨hw.symm ▸ hhas.lt_width, fun _ => ⟨hhas.1, hw⟩⟩
  · rintro _ q s' rfl
    refine .left (r := s'.work.heap) (u := s') rfl rfl ?_
    rw [Value.itemsToEntries_map_entry]
    exact .left (r := q) (u := s') rfl rfl (.pure rfl)

end Recorded

end Backprop
