import Backprop.Proofs.Moments
import Backprop.Proofs.RecipeSound
import Backprop.Proofs.TurnSound

/-!
# What a slot accumulates

In a successful run the slot of a visited entry ends up with its last seed
followed by what the rules of its consumers returned for it, consumer by
consumer in the order of the turns. If the slot was aggregated, that list is
what the aggregator was handed. This is so for all rules, also for those that
change nodes: the consumers are then those of the graph as the sweep finds it.
-/

namespace Backprop

theorem Sweep.slots_accumulate {book : RuleBook} {p : Problem} {a : Ambient} {work : Workspace} {g : Graph}
    {stage : Stage} (hf : p.aggregate.Returns) (hrun : Sweep.run { problem := p } book a work = .ok g stage) :
    ∃ turns : List Turn,
      (turns.map Turn.node).Sublist (p.order work.heap).reverse ∧
      (∀ n ∈ p.order work.heap, n ∈ turns.map Turn.node ↔ Operates book p a work n) ∧
      (∀ t ∈ turns, Taken book p a work t) ∧
      (∀ e, e.node ∈ p.order work.heap → work.heap.HasEntry e →
        ∃ slot, stage.sweep.slotAt stage.work.heap e = .ok slot ∧
          slot.partials = (Turn.seeded (p.ys.zip p.seeds) e ++
            turns.flatMap fun t => Turn.passedTo t.grads e).map .entry ∧
          ∀ total, slot.total = some total → Handed book p a work e slot.partials total) ∧
      ((∀ n ∈ p.order work.heap, Undisturbed book p a work n) →
        turns.map Turn.node = (p.order work.heap).reverse.filter (fun n => (work.heap.node n).op.isSome) ∧
        ∀ t ∈ turns, t.grads.map Prod.fst = (work.heap.node t.node).inputs) ∧
      (book.Grows → (∀ grads, Build.Grows (p.aggregate grads)) →
        ∀ n ∈ p.order work.heap, Undisturbed book p a work n) := by
  obtain ⟨s, turns, width, opened, known, hturns, halong, -, h⟩ := run_ok hf hrun
  refine ⟨turns, halong.nodes, fun n hn => halong.operators n (List.mem_reverse.mpr hn), halong.taken, ?_, fun hu => ?_,
    fun hb hg n hn => undisturbed_of_grows hb hg (Heap.has_of_mem_postorder hn)⟩
  · intro e he hhas
    obtain ⟨ho, hw⟩ := h.visited _ he
    refine ⟨_, h.holds.slotAt ho (hw.symm ▸ hhas.lt_width) _, rfl, fun total htotal => ?_⟩
    obtain ⟨t, hk, rfl⟩ := Option.map_eq_some_iff.mp htotal
    exact h.handed (e, t) (Ledger.mem_of_get? hk)
  · exact halong.undisturbed hturns (List.append_nil _).symm fun n hn => hu n (List.mem_reverse.mp hn)

theorem Problem.sample_order (mirror : Option Selector) :
    (Problem.sample mirror).order .sample = [⟨0⟩, ⟨5⟩, ⟨6⟩, ⟨1⟩, ⟨2⟩, ⟨3⟩, ⟨4⟩] := by
  have h0 : Heap.sample.predecessors ⟨0⟩ = [] := rfl
  have h1 : Heap.sample.predecessors ⟨1⟩ = [] := rfl
  have h2 : Heap.sample.predecessors ⟨2⟩ = [⟨0⟩, ⟨1⟩] := rfl
  have h3 : Heap.sample.predecessors ⟨3⟩ = [⟨2⟩, ⟨1⟩] := rfl
  have h4 : Heap.sample.predecessors ⟨4⟩ = [⟨2⟩, ⟨3⟩] := rfl
  have h5 : Heap.sample.predecessors ⟨5⟩ = [⟨0⟩] := rfl
  have h6 : Heap.sample.predecessors ⟨6⟩ = [⟨5⟩, ⟨5⟩] := rfl
  have hsize : Array.replicate Heap.sample.size false = #[false, false, false, false, false, false, false, false] := rfl
  simp [Problem.order, Heap.postorder, Heap.explore, Heap.walk, Problem.sample, h0, h1, h2, h3, h4, h5, h6, hsize]

theorem Build.relay_sample : ∃ g w, Build.relay .builtins (.sample none) .initial { heap := .sample } = .ok g w := by
  have hstrays : ∀ n ∈ (Problem.sample none).order .sample, (Heap.sample.node n).strays = none := by
    rw [Problem.sample_order]
    simp [Heap.sample, Heap.node]
  rw [Build.relay_run hstrays rfl Ambient.initial_quiet, Problem.sample_order]
  decide +kernel

theorem Sweep.run_sample : ∃ g stage,
    Sweep.run { problem := .sample none } .builtins .initial { heap := .sample } = .ok g stage := by
  obtain ⟨g, w, hrelay⟩ := Build.relay_sample
  have hp : (Problem.sample none).Fits (Workspace.heap { heap := .sample }) := Problem.sample_fits none
  obtain ⟨stage, hrun, -⟩ := run_of_relay hp RuleBook.builtins_follows.grows Aggregator.standard_proper hrelay
  exact ⟨g, stage, hrun⟩

theorem Sweep.slots_accumulate_sample : ∃ g stage,
    Sweep.run { problem := .sample none } .builtins .initial { heap := .sample } = .ok g stage ∧
    ∃ turns : List Turn, turns.map Turn.node = [⟨4⟩, ⟨3⟩, ⟨2⟩, ⟨6⟩, ⟨5⟩] ∧
      (∀ t ∈ turns, Taken .builtins (.sample none) .initial { heap := .sample } t ∧
        t.grads.map Prod.fst = (Heap.sample.node t.node).inputs) ∧
      ∀ e, e.node ∈ (Problem.sample none).order .sample → Heap.sample.HasEntry e →
        ∃ slot, stage.sweep.slotAt stage.work.heap e = .ok slot ∧
          slot.partials = (Turn.seeded [(⟨⟨6⟩, 0⟩, ⟨⟨7⟩, 0⟩), (⟨⟨4⟩, 0⟩, ⟨⟨7⟩, 0⟩), (⟨⟨6⟩, 0⟩, ⟨⟨1⟩, 0⟩)] e ++
            turns.flatMap fun t => Turn.passedTo t.grads e).map .entry ∧
          ∀ total, slot.total = some total →
            Handed .builtins (.sample none) .initial { heap := .sample } e slot.partials total := by
  obtain ⟨g, stage, hrun⟩ := Sweep.run_sample
  obtain ⟨turns, -, -, htaken, hslots, hsame, hgrows⟩ := slots_accumulate Aggregator.standard_proper.returns hrun
  obtain ⟨hnodes, hinputs⟩ := hsame (hgrows RuleBook.builtins_follows.grows Aggregator.standard_proper.grows)
  rw [show ({ heap := .sample } : Workspace).heap = .sample from rfl, Problem.sample_order] at hnodes
  exact ⟨g, stage, hrun, turns, hnodes, fun t ht => ⟨htaken t ht, hinputs t ht⟩, hslots⟩

end Backprop
