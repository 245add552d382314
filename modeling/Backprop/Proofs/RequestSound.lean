import Backprop.Proofs.AggregateSound
import Backprop.Proofs.FrameSound
import Backprop.Proofs.Likeness
import Backprop.Proofs.ScheduleSound
import Backprop.Proofs.StructureSound

/-!
# Requests do not interfere

Until the last turn a sweep does not look at what is requested, so two sweeps
that differ only in their requests come to the same stage, whatever the rules
have done on the way. What they assemble from it for an entry that both request
is the same node, or one node that each of them makes for it. A renaming of that
node carries the graph below one output over to the graph below the other
(`SameBelow`).
-/

namespace Backprop

/-- A renaming that fixes what a node refers to keeps the node, but for its name. -/
theorem Node.renames_of_fixed {φ : NodeId → NodeId} {node : Node} (hφ : ∀ k ∈ node.predecessors, φ k = k)
    (name : String) : node.Renames φ { node with name } where
  op := rfl
  attrs := rfl
  inputs := by
    have hinput : ∀ e ∈ node.inputs, e.rename φ = e := fun e he =>
      congrArg (fun n => ({ e with node := n } : Entry)) (hφ _ (List.mem_append_left _ (List.mem_map_of_mem he)))
    exact ((List.map_congr_left hinput).trans (List.map_id _)).symm
  deps := by
    have hdep : ∀ d ∈ node.deps, φ d = d := fun d hd => hφ d (List.mem_append_right _ hd)
    exact ((List.map_congr_left hdep).trans (List.map_id _)).symm

namespace Heap
variable {h h₁ h₂ : Heap}

/-- The graph below one output is the graph below the other, up to a renaming that fixes the nodes of `h`. All other nodes
below the first are zeros and sums. -/
structure SameBelow (h h₁ h₂ : Heap) (φ : NodeId → NodeId) (out₁ out₂ : Entry) : Prop where
  output : out₂ = out₁.rename φ
  carries : Carries φ h₁ h₂ [out₁.node]
  fixes : ∀ n, h.Has n → φ n = n
  made : ∀ n, h₁.Reachable [out₁.node] n → ¬ h.Has n →
    ¬ h.Has (φ n) ∧ ∃ op, (h₁.node n).op = some op ∧ op.name ∈ ["__zero__", "__ewise_sum__"]

section
variable (hclosed : ∀ n, h.Has n → ∀ k ∈ h.predecessors n, h.Has k) (hg₁ : h.GrowsTo h₁) (hg₂ : h.GrowsTo h₂)
include hclosed hg₁ hg₂

/-- What is there in `h` is below the same output in both. -/
theorem sameBelow_self {out : Entry} (hout : h.Has out.node) : SameBelow h h₁ h₂ id out out where
  output := rfl
  carries := carries_of_node_eq fun n hn => by
    have hhas := hg₁.has_of_reachable hclosed (List.forall_mem_singleton.mpr hout) hn
    rw [hg₁.node_eq n hhas, hg₂.node_eq n hhas]
  fixes _ _ := rfl
  made n hn hno := absurd (hg₁.has_of_reachable hclosed (List.forall_mem_singleton.mpr hout) hn) hno

/-- A node that is made in each of the two, on the same inputs. -/
theorem sameBelow_made {n₁ n₂ : NodeId} {op : Op} {es : List Entry} (hn₁ : ¬ h.Has n₁) (hn₂ : ¬ h.Has n₂)
    (hes : ∀ e ∈ es, h.Has e.node) (hop : op.name ∈ ["__zero__", "__ewise_sum__"])
    (hnode₁ : ∃ name, h₁.node n₁ = { op := some op, name, inputs := es })
    (hnode₂ : ∃ name, h₂.node n₂ = { op := some op, name, inputs := es }) :
    SameBelow h h₁ h₂ (Function.update id n₁ n₂) ⟨n₁, 0⟩ ⟨n₂, 0⟩ := by
  obtain ⟨name₁, hnode₁⟩ := hnode₁
  obtain ⟨name₂, hnode₂⟩ := hnode₂
  have hself : Function.update id n₁ n₂ n₁ = n₂ := Function.update_self ..
  have hfix : ∀ k, h.Has k → Function.update id n₁ n₂ k = k := fun k hk =>
    Function.update_of_ne (ne_of_mem_of_not_mem (show k ∈ {k | h.Has k} from hk) hn₁) ..
  have hinputs : ∀ k ∈ (h₁.node n₁).predecessors, h.Has k := by
    rw [hnode₁]
    simpa [Node.predecessors] using hes
  -- below the new node there are only nodes that are in `h`
  have hbelow : ∀ k, h₁.Reachable [n₁] k → k = n₁ ∨ h.Has k := by
    intro k hk
    refine hk.induct (P := fun k => k = n₁ ∨ h.Has k) (fun r hr => .inl (List.mem_singleton.mp hr))
      fun c _ hc p hp => .inr ?_
    rcases hc with rfl | hc
    · exact hinputs p hp
    · exact hclosed c hc p (by rwa [Heap.predecessors, hg₁.node_eq c hc] at hp)
  refine ⟨by rw [Entry.rename, hself], carries_of_injOn ?_ ?_, hfix, fun k hk hno => ?_⟩
  · intro k hk l hl he
    rcases hbelow k hk with rfl | hk' <;> rcases hbelow l hl with rfl | hl'
    · rfl
    · rw [hself, hfix l hl'] at he
      exact absurd (he ▸ hl') hn₂
    · rw [hself, hfix k hk'] at he
      exact absurd (he ▸ hk') hn₂
    · rwa [hfix k hk', hfix l hl'] at he
  · intro k hk
    rcases hbelow k hk with rfl | hk'
    · have hrenames := Node.renames_of_fixed (fun p hp => hfix p (hinputs p hp)) name₂
      rw [hself, hnode₂]
      rwa [hnode₁] at hrenames ⊢
    · rw [hfix k hk', hg₁.node_eq k hk', hg₂.node_eq k hk']
      exact Node.renames_of_fixed (fun p hp => hfix p (hclosed k hk' p hp)) _
  · rcases hbelow k hk with rfl | hk'
    · exact ⟨by rwa [hself], op, by rw [hnode₁], hop⟩
    · exact absurd hk' hno

end

end Heap

theorem Aggregator.combining_name : ∀ {es : List Entry} {op : Op}, Aggregator.combining es = some op →
    op.name ∈ ["__zero__", "__ewise_sum__"]
  | [], op, h => by cases h; decide
  | [_], op, h => by cases h
  | _ :: _ :: _, op, h => by cases h; decide

/-- An entry that is requested twice gets the same, but for the node that is made for it. -/
theorem Provided.sameBelow {h h₁ h₂ : Heap} (hclosed : ∀ n, h.Has n → ∀ k ∈ h.predecessors n, h.Has k)
    (hg₁ : h.GrowsTo h₁) (hg₂ : h.GrowsTo h₂)
    {known : Ledger Entry Entry} {arrived : Entry → List Entry} {x out₁ out₂ : Entry}
    (hknown : ∀ e, Ledger.get? known x = some e → h.Has e.node) (harrived : ∀ e ∈ arrived x, h.Has e.node)
    (hx₁ : Provided h h₁ known arrived x out₁) (hx₂ : Provided h h₂ known arrived x out₂) :
    ∃ φ, Heap.SameBelow h h₁ h₂ φ out₁ out₂ := by
  cases hx₁ with
  | known he =>
    obtain rfl : out₁ = out₂ := by
      cases hx₂ with
      | known he₂ => exact Option.some_inj.mp (he.symm.trans he₂)
      | single hx => rw [hx] at he; cases he
      | combined hx => rw [hx] at he; cases he
    exact ⟨id, Heap.sameBelow_self hclosed hg₁ hg₂ (hknown _ he)⟩
  | single hx he =>
    obtain rfl : out₁ = out₂ := by
      cases hx₂ with
      | known he₂ => rw [hx] at he₂; cases he₂
      | single _ he₂ => exact List.singleton_inj.mp (he.symm.trans he₂)
      | combined _ hop => rw [he] at hop; cases hop
    exact ⟨id, Heap.sameBelow_self hclosed hg₁ hg₂ (harrived _ (by rw [he]; exact List.mem_singleton_self _))⟩
  | combined hx hop hnew _ hnode =>
    cases hx₂ with
    | known he₂ => rw [hx] at he₂; cases he₂
    | single _ he => rw [he] at hop; cases hop
    | combined _ hop₂ hnew₂ _ hnode₂ =>
      obtain rfl := Option.some_inj.mp (hop.symm.trans hop₂)
      exact ⟨_, Heap.sameBelow_made hclosed hg₁ hg₂ hnew hnew₂ harrived (Aggregator.combining_name hop) hnode hnode₂⟩

/-! ## Sweeps that differ in their requests -/

section Requests
variable {book : RuleBook} {p : Problem} {a : Ambient} {work : Workspace}

/-- All that the nodes and the slots refer to is there. -/
structure Stage.Closed (s : Stage) : Prop where
  nodes : ∀ n, s.heap.Has n → ∀ k ∈ s.heap.predecessors n, s.heap.Has k
  partials : s.sweep.EachSlot fun slot => ∀ e, .entry e ∈ slot.partials → s.heap.Has e.node
  totals : s.sweep.EachSlot fun slot => ∀ e, slot.total = some (.entry e) → s.heap.Has e.node

theorem Sweep.Sound.closed {s : Stage} (hs : s.sweep.Sound .any a s.heap) : s.Closed where
  nodes n hn k hk := (hs.governs n hn).2.has (.inl hk)
  partials n slots hslots slot hslot e he := by
    obtain ⟨es, hes, hhas⟩ := (hs.slots n slots hslots slot hslot).partials
    rw [hes] at he
    obtain ⟨e', he', heq⟩ := List.mem_map.mp he
    cases heq
    exact hhas e he'
  totals n slots hslots slot hslot e he := by
    cases (hs.slots n slots hslots slot hslot).total _ he with
    | entry hhas => exact hhas

/-- What has come for a requested entry is there. -/
theorem Recorded.has {width : NodeId → Nat} {mirrors : Option MirrorMap} {opened : List NodeId} {turns : List Turn}
    {s : Stage} (hr : Recorded width p mirrors opened turns s.sweep) (hs : s.Closed)
    (hseeds : ∀ q ∈ p.ys.zip p.seeds, q.1.node ∈ opened) {x : Entry} (hx : s.Grants x) :
    (∀ e, Ledger.get? (Turn.known turns) x = some e → s.heap.Has e.node) ∧
      ∀ e ∈ Turn.arrived p turns x, s.heap.Has e.node := by
  by_cases ho : x.node ∈ opened
  · have hi := hx.slot _ (by rw [hr.holds x.node, if_pos ho])
    rw [List.length_map, NodeId.length_entries] at hi
    have hslot := hr.holds.slotAt ho hi s.heap
    exact ⟨fun e he => hs.totals.slotAt hslot e (by simp [Slot.of, he]),
      fun e he => hs.partials.slotAt hslot e (List.mem_map_of_mem he)⟩
  · obtain ⟨hnil, hnone⟩ := hr.unvisited hseeds ho
    rw [hnil, hnone]
    exact ⟨fun e he => (by cases he), fun e he => (by cases he)⟩

theorem Stage.Grants.onto {s : Stage} {x : Entry} (h : s.Grants x) (q : Problem) : (s.onto q).Grants x := ⟨h.slot, h.late⟩

/-- What the slots hold does not depend on what is requested. -/
theorem Recorded.onto_request {width : NodeId → Nat} {mirrors : Option MirrorMap} {opened : List NodeId}
    {turns : List Turn} {s : Stage} (hr : Recorded width p mirrors opened turns s.sweep) (xs : List Entry) :
    Recorded width { p with xs } mirrors opened turns (s.onto { p with xs }).sweep :=
  ⟨rfl, hr.mirrors, hr.holds, hr.totals, hr.grads⟩

namespace Sweep

theorem upTo_sound (hg : Policy.any.Governs work.heap) (hseeds : ∀ e ∈ p.seeds, work.heap.Has e.node)
    (hf : p.aggregate = Aggregator.standard) (hk : book.Keeps .any a) {ns : List NodeId} {s : Stage}
    (h : upTo book ns a (start p work) = .ok () s) : s.sweep.Sound .any a s.heap := by
  have hstart : (start p work).sweep.Sound .any a (start p work).heap := by
    refine ⟨hg, hseeds, ?_, fun _ _ hget => (by cases hget), fun _ hn => (by cases hn), fun _ hm => (by cases hm)⟩
    show p.aggregate.Keeps _ _
    rw [hf]
    exact Aggregator.standard_keeps (Policy.any_permitsSums a)
  have hsweeps : Policy.any.Sweeps (upTo book ns) a (start p work) fun _ _ => True := by
    unfold upTo
    refine (sweeps_prepare hstart).bind fun _ s₁ _ ⟨hs₁, _⟩ => ?_
    refine (sweeps_lift hs₁ (Policy.makes_ofExcept _)).bind fun verbose s₂ _ ⟨hs₂, _⟩ => ?_
    exact sweeps_steps hk _ hs₂
  unfold Policy.Sweeps Policy.Leads at hsweeps
  rw [h] at hsweeps
  exact hsweeps.2.1

variable (book p a work) in
/-- When the turns are over, the requested entries that were not visited are still there. -/
def Answerable (xs : List Entry) : Prop :=
  ∀ s, upTo book (p.order work.heap).reverse a (start p work) = .ok () s →
    ∀ x ∈ xs, x.node ∉ p.order work.heap → s.heap.HasEntry x

theorem Answerable.grants {xs : List Entry} {s : Stage} {before : List NodeId} {turns : List Turn}
    (h : Answerable book p a work xs) (hx : ∀ x ∈ xs, work.heap.HasEntry x)
    (hupTo : upTo book (p.order work.heap).reverse a (start p work) = .ok () s)
    (halong : Along book p a work before turns s) : ∀ x ∈ xs, s.Grants x :=
  fun x hmem => halong.recorded.grants (hx x hmem) (h s hupTo x hmem)

theorem answerable_of_grows (hb : book.Grows) (hf : p.aggregate = Aggregator.standard) {xs : List Entry}
    (hx : ∀ x ∈ xs, work.heap.HasEntry x) : Answerable book p a work xs := fun _ hupTo x hmem _ =>
  (hx x hmem).grows (upTo_grows hb (hf ▸ Aggregator.standard_proper.grows) _ hupTo)

theorem exists_provided (hf : p.aggregate = Aggregator.standard) (ha : a.Standard) {width : NodeId → Nat}
    {mirrors : Option MirrorMap} {opened : List NodeId} {turns : List Turn} {s stage : Stage} {g : Graph}
    (hupTo : upTo book (p.order work.heap).reverse a (start p work) = .ok () s)
    (hr : Recorded width p mirrors opened turns s.sweep) (hseeds : ∀ q ∈ p.ys.zip p.seeds, q.1.node ∈ opened)
    (hx : ∀ x ∈ p.xs, s.Grants x) (h : Sweep.run { problem := p } book a work = .ok g stage) :
    s.heap.GrowsTo stage.heap ∧
      List.Forall₂ (Provided s.heap stage.heap (Turn.known turns) (Turn.arrived p turns)) p.xs g.outputs := by
  rw [run_eq, run_bind_ok hupTo] at h
  obtain ⟨_, hassemble, rfl⟩ := (hr.assemble_tracks hseeds (hf ▸ Aggregator.standard_proper) hx).ok h
  obtain ⟨outs, w, hcollect, hgrows, houts⟩ := Build.collect_run ha hf turns p.xs s.work
  rw [run_bind_ok hcollect] at hassemble
  cases hassemble
  exact ⟨hgrows, houts⟩

/-- The turns do not depend on what is requested. -/
theorem upTo_request (xs : List Entry) {ns : List NodeId} {s : Stage} (h : upTo book ns a (start p work) = .ok () s) :
    upTo book ns a (start { p with xs } work) = .ok () (s.onto { p with xs }) := by
  rw [upTo_onto (p := p) (q := { p with xs }) rfl rfl rfl ns fun _ _ => rfl, h]
  rfl

theorem upTo_of_request {xs : List Entry} {ns : List NodeId} {s : Stage}
    (h : upTo book ns a (start { p with xs } work) = .ok () s) : ∃ s, upTo book ns a (start p work) = .ok () s := by
  rw [upTo_onto (p := p) (q := { p with xs }) rfl rfl rfl ns fun _ _ => rfl] at h
  cases hrun : upTo book ns a (start p work) with
  | ok _ s => exact ⟨s, rfl⟩
  | error e s => rw [hrun] at h; cases h

theorem upTo_of_run {g : Graph} {stage : Stage} (h : Sweep.run { problem := p } book a work = .ok g stage) :
    ∃ s, upTo book (p.order work.heap).reverse a (start p work) = .ok () s := by
  rw [run_eq] at h
  obtain ⟨_, s, hupTo, -⟩ := ok_of_bind h
  exact ⟨s, hupTo⟩

end Sweep

end Requests

end Backprop
