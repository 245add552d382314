import Backprop.Proofs.Stages

/-!
# The sweep goes by its turns

On a graph without cycles, and with rules that change no nodes, a node comes up
only after all its consumers. So nothing arrives at a slot that has been
aggregated, and every slot that is looked up is there. The sweep therefore
builds the same nodes as `relay`, and fails when it fails, with the same fault
(`sweep_eq_relay`).
-/

namespace Backprop

/-! ## Turns only add nodes -/

namespace Build
variable {book : RuleBook} {p : Problem}

theorem grows_reduceAll {f : Aggregator} (hf : f.Proper) : ∀ lists : List (List Entry), Grows (reduceAll f lists)
  | [] => respects_pure _
  | grads :: rest => (grows_reduce hf grads).bind fun _ => (grows_reduceAll hf rest).bind fun _ => respects_pure _

theorem grows_pull (hb : book.Grows) (mirrors : Option MirrorMap) (n : NodeId) (op : Op) (node : Node)
    (totals : List Value) : Grows (pull book mirrors n op node totals) := by
  intro a w
  unfold pull
  cases hfind : book.find n a w with
  | error e w₁ => exact .fail hfind trivial
  | ok found w₁ =>
    obtain ⟨hg, hmem⟩ := (book.find_ends n a w).ok hfind
    refine .step hfind ?_
    cases found with
    | none => exact trivial
    | some i =>
      obtain ⟨q, hq, hi⟩ := hmem i rfl
      simp only
      cases hrule : i.rule with
      | none => exact trivial
      | some rule =>
        have hg' := hb q hq rule (hi ▸ hrule) (Turn.forward mirrors n) totals a w₁
        exact hg'.mono (fun _ _ hg' => hg.trans hg') fun _ h => h

theorem grows_turnOf (hb : book.Grows) (hf : p.aggregate.Proper) (mirrors : Option MirrorMap) (level : Level)
    (turns : List Turn) (n : NodeId) : Grows (turnOf book p mirrors level turns n) := by
  refine respects_heap.bind fun h => ?_
  dsimp only
  cases (h.node n).op with
  | none => exact respects_pure _
  | some op =>
    refine Grows.bind ?_ fun _ => respects_pure _
    refine respects_heap.bind fun h => (grows_reduceAll hf _).bind fun totals => (grows_pull hb _ _ _ _ _).bind fun _ => ?_
    split
    · exact (respects_ofExcept _).bind fun _ => (respects_heap.bind fun _ => respects_log _ _ _).bind fun _ =>
        respects_pure _
    · exact respects_throw _

end Build

/-! ## Steps -/

theorem applyRule_tracks (book : RuleBook) {n : NodeId} {op : Op} {node : Node} (hop : node.op = some op)
    (totals : List Value) {a : Ambient} {s : Stage} (hnode : s.work.heap.node n = node)
    (hm : ∀ h', s.sweep.mirrored h' n = .ok (Turn.forward s.sweep.mirrors n)) :
    Tracks (Sweep.applyRule book n totals) (Build.pull book s.sweep.mirrors n op node totals) a s
      fun r q s' => r = q ∧ s'.sweep = s.sweep := by
  unfold Sweep.applyRule Build.pull
  refine .bind (Tracks.lift _ a s).with_runs ?_
  rintro found _ s' ⟨-, hfind, rfl, hsw⟩
  cases found with
  | none =>
    -- looking for a rule changes no node
    obtain ⟨trace, hrun⟩ := book.find_run n a s.work
    have hheap : s'.work.heap = s.work.heap := by
      rw [hfind] at hrun
      cases hlookup : book.lookup n (s.work.heap.node n) <;> rw [hlookup] at hrun
      · cases hrun
      · rw [(EStateM.Result.ok.inj hrun).2]
    exact Coupled.of_error (blame_run (hheap ▸ hnode) hop _) rfl ⟨rfl, rfl⟩
  | some i =>
    refine .left (r := s'.sweep) (u := s') rfl rfl ?_
    refine .left (r := s'.work.heap) (u := s') rfl rfl ?_
    refine .left (r := Turn.forward s.sweep.mirrors n) (u := s') (by rw [hsw, hm]; rfl) rfl ?_
    simp only
    cases hr : i.rule with
    | none => exact .throw
    | some rule => exact hsw ▸ .lift _ a s'

/-- The nodes whose turn is still to come: each before the nodes that it depends on. -/
structure Ahead (h₀ : Heap) (opened : List NodeId) (turns : List Turn) (rest : List NodeId) : Prop where
  settled : h₀.Settled rest
  nodup : rest.Nodup
  opened : ∀ n ∈ rest, n ∈ opened ∧ h₀.Has n
  totals : ∀ t ∈ turns, ∀ q ∈ t.totals, q.1.node ∉ rest

section Ahead
variable {h₀ : Heap} {opened : List NodeId} {turns : List Turn} {n : NodeId} {rest : List NodeId}

theorem Ahead.outputs (h : Ahead h₀ opened turns (n :: rest)) :
    ∀ e ∈ h₀.entries n, e.node ∈ opened ∧ e.index < h₀.width e.node ∧
      Ledger.get? (Turn.known turns) e = none := by
  intro e he
  obtain ⟨rfl, hi⟩ := NodeId.mem_entries.mp he
  exact ⟨(h.opened _ (by simp)).1, hi, Turn.get?_known_eq_none fun t ht q hq hqe => h.totals t ht q hq (by simp [hqe])⟩

/-- Nothing that is passed on comes late: the inputs of the node have their turn later. -/
theorem Ahead.inputs (h : Ahead h₀ opened turns (n :: rest)) (hw : h₀.WellFormed) (totals : List Entry) :
    ∀ e ∈ (h₀.node n).inputs, e.node ∈ rest ∧ e.node ∈ opened ∧ e.index < h₀.width e.node ∧
      Ledger.get? (Turn.known turns ++ (h₀.entries n).zip totals) e = none := by
  intro e he
  have hrest := h.settled.1 e.node (List.mem_append_left _ (List.mem_map_of_mem he))
  refine ⟨hrest, (h.opened _ (by simp [hrest])).1, (hw.inputs n (h.opened n (by simp)).2 e he).lt_width, ?_⟩
  have hk : Ledger.get? (Turn.known turns) e = none :=
    Turn.get?_known_eq_none fun t ht q hq hqe => h.totals t ht q hq (by simp [hqe, hrest])
  rw [Ledger.get?_append, hk, Option.none_or, Ledger.get?_eq_none_iff]
  rintro ⟨e', total⟩ hq rfl
  exact (List.nodup_cons.mp h.nodup).1 ((Heap.mem_entries.mp (List.of_mem_zip hq).1).1 ▸ hrest)

theorem Ahead.tail (h : Ahead h₀ opened turns (n :: rest)) {new : List Turn}
    (hnew : ∀ t ∈ new, ∀ q ∈ t.totals, q.1.node = n) : Ahead h₀ opened (turns ++ new) rest := by
  refine ⟨h.settled.2, (List.nodup_cons.mp h.nodup).2, fun k hk => h.opened k (List.mem_cons_of_mem _ hk), ?_⟩
  intro t ht q hq
  rcases List.mem_append.mp ht with ht | ht
  · exact fun hk => h.totals t ht q hq (List.mem_cons_of_mem _ hk)
  · exact hnew t ht q hq ▸ (List.nodup_cons.mp h.nodup).1

end Ahead

section Steps
variable {book : RuleBook} {p : Problem} {h₀ : Heap} {mirrors : Option MirrorMap} {opened : List NodeId}
  {a : Ambient} {level : Level}

theorem step_tracks (hb : book.Grows) (hf : p.aggregate.Proper) (hw : h₀.WellFormed) {n : NodeId} {rest : List NodeId}
    {turns : List Turn} {s : Stage} (hr : Recorded h₀.width p mirrors opened turns s.sweep) (hg : h₀.GrowsTo s.work.heap)
    (hm : MirrorMap.Mirrored p.mirror mirrors h₀ s.work.heap opened) (ha : Ahead h₀ opened turns (n :: rest)) :
    Tracks (Sweep.step book level n) (Build.turnOf book p mirrors level turns n) a s fun _ new s' =>
      (∀ t ∈ new, ∀ q ∈ t.totals, q.1.node = n) ∧ Recorded h₀.width p mirrors opened (turns ++ new) s'.sweep := by
  obtain ⟨hn, hhas⟩ := ha.opened n (by simp)
  unfold Sweep.step Build.turnOf
  refine .left (r := s.work.heap) (u := s) rfl rfl ?_
  refine .right (q := s.work.heap) rfl ?_
  simp only [hg.node_eq n hhas]
  cases hop : (h₀.node n).op with
  | none => exact .pure ⟨by simp, by rw [List.append_nil]; exact hr⟩
  | some op =>
    -- the slots of the node are there, one for each of its outputs
    refine .left (r := s.sweep) (u := s) rfl rfl ?_
    refine .left (r := s.work.heap) (u := s) rfl rfl ?_
    refine .left (u := s) (by rw [hr.holds.slotsOf hn]; rfl) rfl ?_
    unfold Build.takeTurn
    simp only [bind_assoc]
    refine .right (q := s.work.heap) rfl ?_
    rw [hg.entries_eq hhas, List.length_map, NodeId.length_entries]
    have hagg := aggregateAll_tracks (a := a) (hr.problem ▸ hf.returns) hr.holds (h₀.nodup_entries n) ha.outputs
    rw [hr.problem] at hagg
    refine .bind hagg.with_runs ?_
    rintro _ totals s₁ ⟨-, hreduce, rfl, hlen, halike₁, hs₁⟩
    have hg₁ := (Build.grows_reduceAll hf _).ok hreduce
    have hm₁ := hm.grows hg₁
    rw [← hr.mirrors, ← halike₁.mirrors] at hm₁
    have hrule := applyRule_tracks book (a := a) hop (totals.map .entry) ((hg.trans hg₁).node_eq n hhas)
      fun h' => hm₁.mirrored hn h'
    rw [halike₁.mirrors, hr.mirrors] at hrule
    refine .bind hrule.with_runs ?_
    rintro grads _ s₂ ⟨-, hpull, rfl, hsw₂⟩
    have hnode₂ := ((hg.trans hg₁).trans ((Build.grows_pull hb _ _ _ _ _).ok hpull)).node_eq n hhas
    refine .left (r := s₂.work.heap) (u := s₂) rfl rfl ?_
    simp only [hnode₂]
    by_cases hc : grads.length = (h₀.node n).inputs.length
    · rw [if_pos hc, if_pos hc]
      simp only [bind_assoc]
      -- what is passed on goes to slots that have no total yet
      refine .bind (scatter_tracks hop hnode₂ hc.symm (hsw₂ ▸ hs₁) fun e he => (ha.inputs hw totals e he).2).with_runs ?_
      rintro _ entries s₃ ⟨-, hgrads, rfl, halike₃, hs₃⟩
      have hwork₃ : s₃.work = s₂.work := by
        rw [Build.gradientsOf_map_entry] at hgrads
        exact (EStateM.Result.ok.inj hgrads).2.symm
      refine .left (r := s₃.work.heap) (u := s₃) rfl rfl ?_
      unfold Build.logTurn
      simp only [bind_assoc, pure_bind]
      refine .right (q := s₃.work.heap) rfl ?_
      rw [Heap.describe, hwork₃, hnode₂, ← hwork₃]
      refine .map_right (f := fun _ => [_]) (.lift _ a s₃) ?_
      rintro _ _ s₄ ⟨-, hsw₄⟩
      have htotals : ∀ q ∈ (h₀.entries n).zip totals, q.1.node = n := fun q hq =>
        (Heap.mem_entries.mp (List.of_mem_zip hq).1).1
      refine ⟨by simpa using fun e total hq => htotals (e, total) hq, hr.append ?_ ?_ ?_ ?_⟩
      · rw [hsw₂] at halike₃
        exact hsw₄ ▸ halike₁.trans halike₃
      · rw [hsw₄, Turn.known_append, Turn.arrived_append]
        exact hs₃
      · intro t ht q hq
        obtain rfl := List.mem_singleton.mp ht
        exact htotals q hq ▸ hn
      · intro t ht q hq
        obtain rfl := List.mem_singleton.mp ht
        exact (ha.inputs hw totals q.1 (List.of_mem_zip hq).1).2.1
    · rw [if_neg hc, if_neg hc]
      exact Coupled.of_error (blame_run hnode₂ hop _) rfl ⟨rfl, rfl⟩

theorem steps_tracks (hb : book.Grows) (hf : p.aggregate.Proper) (hw : h₀.WellFormed) : ∀ {rest : List NodeId}
    {turns : List Turn} {s : Stage}, Recorded h₀.width p mirrors opened turns s.sweep → h₀.GrowsTo s.work.heap →
    MirrorMap.Mirrored p.mirror mirrors h₀ s.work.heap opened → Ahead h₀ opened turns rest →
    Tracks (Sweep.steps book level rest) (Build.takeTurns book p mirrors level rest turns) a s fun _ turns' s' =>
      h₀.GrowsTo s'.work.heap ∧ Recorded h₀.width p mirrors opened turns' s'.sweep
  | [], turns, s, hr, hg, _, _ => .pure ⟨hg, hr⟩
  | n :: rest, turns, s, hr, hg, hm, ha => by
    rw [Sweep.steps, Build.takeTurns]
    refine .bind (step_tracks hb hf hw hr hg hm ha).with_runs ?_
    rintro _ new s' ⟨-, hturn, hnew, hr'⟩
    have hg' := (Build.grows_turnOf hb hf _ _ _ _).ok hturn
    exact steps_tracks hb hf hw hr' (hg.trans hg') (hm.grows hg') (ha.tail hnew)

end Steps

/-! ## The whole sweep -/

/-- The problem is about entries of a well-formed heap, and its outputs depend on no cycle. -/
structure Problem.Fits (p : Problem) (h : Heap) : Prop where
  wellFormed : h.WellFormed
  ys : ∀ y ∈ p.ys, h.HasEntry y
  xs : ∀ x ∈ p.xs, h.HasEntry x
  acyclic : h.AcyclicFrom (p.ys.map Entry.node)

theorem Problem.Fits.arranged {p : Problem} {h : Heap} (hp : p.Fits h) :
    h.Arranged (p.ys.map Entry.node) (p.order h).reverse := by
  refine h.arranged_postorder hp.wellFormed (fun r hr => ?_) hp.acyclic
  obtain ⟨y, hy, rfl⟩ := List.mem_map.mp hr
  exact (hp.ys y hy).1

theorem Problem.Fits.mem_order {p : Problem} {h : Heap} (hp : p.Fits h) {y : Entry} (hy : y ∈ p.ys) :
    y.node ∈ p.order h := List.mem_reverse.mp (hp.arranged.covers _ (List.mem_map_of_mem hy))

theorem Problem.Fits.seeded {p : Problem} {h : Heap} (hp : p.Fits h) :
    ∀ q ∈ p.ys.zip p.seeds, q.1.node ∈ p.order h ∧ q.1.index < h.width q.1.node := fun _ hq =>
  ⟨hp.mem_order (List.of_mem_zip hq).1, (hp.ys _ (List.of_mem_zip hq).1).lt_width⟩

/-- Two of the three outputs are the same, and one of the entries asked for is an output of a split. -/
def Problem.sample (mirror : Option Selector) : Problem where
  ys := [⟨⟨6⟩, 0⟩, ⟨⟨4⟩, 0⟩, ⟨⟨6⟩, 0⟩]
  seeds := [⟨⟨7⟩, 0⟩, ⟨⟨7⟩, 0⟩, ⟨⟨1⟩, 0⟩]
  xs := [⟨⟨0⟩, 0⟩, ⟨⟨5⟩, 1⟩, ⟨⟨7⟩, 0⟩]
  aggregate := Aggregator.standard
  mirror := mirror

theorem Problem.sample_fits (mirror : Option Selector) : (Problem.sample mirror).Fits .sample where
  wellFormed := Heap.sample_ascending.wellFormed
  ys := show ∀ y ∈ [(⟨⟨6⟩, 0⟩ : Entry), ⟨⟨4⟩, 0⟩, ⟨⟨6⟩, 0⟩], Heap.sample.HasEntry y by decide
  xs := show ∀ x ∈ [(⟨⟨0⟩, 0⟩ : Entry), ⟨⟨5⟩, 1⟩, ⟨⟨7⟩, 0⟩], Heap.sample.HasEntry x by decide
  acyclic := Heap.sample_ascending.acyclicFrom _

namespace Sweep

/-- Before the first turn the slots hold the seeds. -/
theorem prepare_tracks {p : Problem} {a : Ambient} {s : Stage} (hp : p.Fits s.work.heap)
    (hs : s.sweep.problem = p) :
    Tracks prepare (Build.prepared p) a s fun _ mirrors s' =>
      Recorded s.work.heap.width p mirrors (p.order s.work.heap) [] s'.sweep ∧
      MirrorMap.Mirrored p.mirror mirrors s.work.heap s'.work.heap (p.order s.work.heap) := by
  have harr := hp.arranged
  unfold prepare Build.prepared
  refine .right (q := s.work.heap) rfl ?_
  refine .bind (visit_tracks hs) ?_
  rintro _ _ s₁ ⟨hheap, hflaw, hp₁, ho₁, hs₁⟩
  obtain ⟨s₂, hrun, hwork, halike, hs₂⟩ := seeds_run (a := a) [] hs₁ hp.seeded
  refine .left (r := ()) (u := s₂) ?_ hwork ?_
  · unfold seed
    rw [run_bind_ok (r := s₁.sweep) (u := s₁) rfl, hp₁]
    exact hrun
  unfold mirror
  refine .left (r := s₂.sweep) (u := s₂) rfl rfl ?_
  rw [halike.order, ho₁, halike.problem, hp₁]
  have hheap₂ : s₂.work.heap = s.work.heap := by rw [hwork, hheap]
  refine .then_left (Tracks.lift _ a s₂).with_runs ?_
  rintro mirrors _ s₃ ⟨-, hmap, rfl, hsw⟩
  refine ⟨(), _, rfl, rfl, ⟨?_, rfl, ?_, by simp, by simp⟩, ?_⟩
  · show s₃.sweep.problem = p
    rw [hsw, halike.problem, hp₁]
  · show Holds { s₃.sweep with mirrors } _ _ _
    have : Turn.arrived p [] = Turn.seeded ([] ++ p.ys.zip p.seeds) := by
      funext e; simp [Turn.arrived]
    rw [this, hsw]
    exact hs₂
  · rw [← hheap₂] at harr hflaw hmap ⊢
    exact ((Build.mirrorMap_ends harr.settled (List.nodup_reverse.mp harr.nodup)
      (fun n hn => harr.has n (List.mem_reverse.mpr hn)) hflaw).ok hmap).2

section Whole
variable {book : RuleBook} {p : Problem} {a : Ambient} {work : Workspace}

theorem upTo_tracks (hp : p.Fits work.heap) (hb : book.Grows) (hf : p.aggregate.Proper) :
    Tracks (upTo book (p.order work.heap).reverse) (Build.turnsOf book p (p.order work.heap).reverse) a (start p work)
      fun _ turns s => work.heap.GrowsTo s.work.heap ∧
        ∃ mirrors, Recorded work.heap.width p mirrors (p.order work.heap) turns s.sweep := by
  have harr := hp.arranged
  unfold upTo Build.turnsOf Build.turnLevel
  have hprep := (prepare_tracks (a := a) (s := start p work) hp rfl).with_runs
  refine .bind hprep ?_
  rintro _ mirrors s ⟨hprepare, -, hr, hm⟩
  have hg : work.heap.GrowsTo s.work.heap := prepare_grows hprepare
  simp only [bind_assoc, pure_bind]
  refine .bind (Tracks.lift _ a s).with_runs ?_
  rintro verbose _ s₁ ⟨-, hflag, rfl, hsw⟩
  have hg₁ := (Build.grows_flag _).ok hflag
  refine (steps_tracks hb hf hp.wellFormed (hsw ▸ hr) (hg.trans hg₁) (hm.grows hg₁) ?_).mono
    fun _ _ _ h => ⟨h.1, mirrors, h.2⟩
  exact ⟨harr.settled, harr.nodup, fun n hn => ⟨List.mem_reverse.mp hn, harr.has n hn⟩, by simp⟩

theorem run_tracks (hp : p.Fits work.heap) (hb : book.Grows) (hf : p.aggregate.Proper) :
    Tracks (upTo book (p.order work.heap).reverse >>= fun _ => assemble p.xs) (Build.relay book p) a (start p work)
      fun g g' _ => g = g' := by
  unfold Build.relay
  refine .right (q := work.heap) rfl ?_
  refine .bind (upTo_tracks hp hb hf) ?_
  rintro _ turns s ⟨hg, mirrors, hr⟩
  exact hr.assemble_tracks (fun q hq => (hp.seeded q hq).1) hf fun x hx => hr.grants (hp.xs x hx) fun _ =>
    (hp.xs x hx).grows hg

theorem run_of_relay (hp : p.Fits work.heap) (hb : book.Grows) (hf : p.aggregate.Proper) {g : Graph} {w : Workspace}
    (h : Build.relay book p a work = .ok g w) :
    ∃ stage, Sweep.run { problem := p } book a work = .ok g stage ∧ stage.work = w := by
  obtain ⟨_, stage, hrun, hwork, rfl⟩ := Coupled.ok_right (run_tracks hp hb hf) h
  exact ⟨stage, (run_eq book p a work).trans hrun, hwork⟩

theorem run_of_relay_error (hp : p.Fits work.heap) (hb : book.Grows) (hf : p.aggregate.Proper) {e : Fault} {w : Workspace}
    (h : Build.relay book p a work = .error e w) :
    ∃ stage, Sweep.run { problem := p } book a work = .error e stage := by
  obtain ⟨_, stage, hrun, rfl, -⟩ := Coupled.error_right (run_tracks hp hb hf) h
  exact ⟨stage, (run_eq book p a work).trans hrun⟩

end Whole

end Sweep

theorem Build.sweep_eq_relay {book : RuleBook} {p : Problem} {a : Ambient} {work : Workspace} (hp : p.Fits work.heap)
    (hb : book.Grows) (hf : p.aggregate.Proper) :
    Build.sweep { problem := p } book a work = Build.relay book p a work := by
  have htracks := Sweep.run_tracks (a := a) hp hb hf
  unfold Build.sweep
  rw [Sweep.run_eq]
  cases hrun : (Sweep.upTo book (p.order work.heap).reverse >>= fun _ => Sweep.assemble p.xs) a
      (Sweep.start p work) with
  | ok g s =>
    obtain ⟨q, hq, rfl⟩ := htracks.ok hrun
    exact hq.symm
  | error e s => exact (htracks.error hrun).symm

/-! ## Graphs without strays -/

theorem Heap.checkOrder_ok {h : Heap} {order : List NodeId} (hs : ∀ n ∈ order, (h.node n).strays = none) :
    h.checkOrder order = .ok () := by
  have hnone : order.findSome? h.flaw? = none := by
    refine List.findSome?_eq_none_iff.mpr fun n hn => ?_
    unfold Heap.flaw? Node.flaw?
    rw [hs n hn]
    rfl
  unfold Heap.checkOrder
  rw [hnone]

namespace Build
variable {book : RuleBook} {p : Problem} {a : Ambient} {w : Workspace}

theorem visited_run (hs : ∀ n ∈ p.order w.heap, (w.heap.node n).strays = none) :
    visited p a w = .ok () { w with trace := w.trace.push (visitEvent p w.heap) } := by
  unfold visited
  rw [run_bind_ok (r := w.heap) (u := w) rfl, Heap.checkOrder_ok hs]
  rfl

theorem turnLevel_run {verbose : Bool} (hv : a.profile.getFlag ["debugprint"] = .ok verbose) (w : Workspace) :
    turnLevel a w = .ok (if verbose then .info else .debug) w := by
  refine run_bind_ok (r := verbose) (u := w) ?_
  show ofExcept (a.profile.getFlag ["debugprint"]) a w = _
  rw [hv]
  rfl

theorem relay_run (hs : ∀ n ∈ p.order w.heap, (w.heap.node n).strays = none) (hm : p.mirror = none) {verbose : Bool}
    (hv : a.profile.getFlag ["debugprint"] = .ok verbose) : relay book p a w = (do
      let turns ← takeTurns book p none (if verbose then .info else .debug) (p.order w.heap).reverse []
      return ({ outputs := ← collect p turns p.xs (Turn.known turns) } : Graph)) a
        { w with trace := w.trace.push (visitEvent p w.heap) } := by
  unfold relay turnsOf prepared
  simp only [bind_assoc]
  rw [run_bind_ok (r := w.heap) (u := w) rfl, run_bind_ok (r := w.heap) (u := w) rfl,
    run_bind_ok (visited_run hs), hm, run_bind_ok (r := none) rfl, run_bind_ok (turnLevel_run hv _)]

end Build

/-! ## Requests for entries -/

theorem Request.field_ofEntries (name : String) (es : List Entry) : Request.field name (.ofEntries es) = .ok es := by
  have hall : ∀ es : List Entry, Request.entriesOnly (es.map .entry) = some es := by
    intro es
    induction es with
    | nil => rfl
    | cons e es ih => rw [List.map_cons, Request.entriesOnly, ih]; rfl
  unfold Request.field Value.ofEntries
  simp only [Value.items, hall]

theorem Build.generate_ofEntries {ys seeds : List Entry} (hlen : ys.length = seeds.length) (xs : List Entry)
    (aggregate mirror : Arg) (book : RuleBook) (a : Ambient) (w : Workspace) :
    Build.generate book { ys := .ofEntries ys, seeds := .ofEntries seeds, xs := .ofEntries xs, aggregate, mirror } a w =
      Build.sweep
        { problem := { ys, seeds, xs, aggregate := Request.aggregatorOf aggregate, mirror := Request.testOf mirror } }
        book a w := by
  unfold Build.generate Request.validate
  simp only [Request.field_ofEntries]
  exact run_bind_ok (u := w) (by
    show Build.ofExcept (if ys.length = seeds.length then _ else _) a w = _
    rw [if_pos hlen]
    rfl)

end Backprop
