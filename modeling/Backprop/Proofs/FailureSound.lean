import Backprop.Proofs.AccumulationSound
import Backprop.Proofs.AggregateSound
import Backprop.Proofs.Differentiable
import Backprop.Proofs.SafetySound

/-!
# When a sweep fails

On a graph without cycles, with the default aggregation and rules that return,
an operator node can fail in two ways only: no implementation applies to it, or
what its rule returns is not one entry for each of its inputs (`Fails`). A sweep
succeeds if no operator node that the outputs depend on fails. Otherwise the
first that does, on the way back, decides the fault, and the rules of the nodes
that would have come after it are not called.
-/

namespace Backprop

/-! ## Which implementations apply -/

def Implementation.call (i : Implementation) (forward : NodeId) (totals : List Value) : Build (List Value) :=
  match i.rule with
  | none => throw (.misuse .notIterable)
  | some rule => rule forward totals

namespace RuleBook
variable {book : RuleBook} {n : NodeId} {node : Node}

def Offers (book : RuleBook) (n : NodeId) (node : Node) (i : Implementation) : Prop :=
  ∃ q ∈ book, q.2.implementation = i ∧ (∃ op ∈ node.op, isFor q.2 op.name = true) ∧ i.applies.holds n node = .ok true

def Named (book : RuleBook) : Prop := ∀ q ∈ book, (Ledger.get? q.2.args "name").isSome

def Tells (book : RuleBook) (n : NodeId) (node : Node) : Prop :=
  ∀ q ∈ book, ∃ b, q.2.implementation.applies.holds n node = .ok b

theorem candidates_run (op : String) : ∀ {book : RuleBook}, book.Named → book.Tells n node →
    ∃ found, candidates op n node book = .ok found ∧ ∀ i, (∃ c ∈ found, c.2 = i) ↔
      ∃ q ∈ book, q.2.implementation = i ∧ isFor q.2 op = true ∧ i.applies.holds n node = .ok true
  | [], _, _ => ⟨[], rfl, by simp⟩
  | (path, r) :: rest, hnamed, htells => by
    obtain ⟨found, hrun, hfound⟩ := candidates_run op (fun q hq => hnamed q (List.mem_cons_of_mem _ hq))
      fun q hq => htells q (List.mem_cons_of_mem _ hq)
    obtain ⟨name, hname⟩ := Option.isSome_iff_exists.mp (hnamed (path, r) (by simp))
    obtain ⟨b, hb⟩ := htells (path, r) (by simp)
    dsimp only at hname hb
    rw [candidates]
    simp only [hname]
    cases hfor : isFor r op with
    | false => exact ⟨found, hrun, fun i => by simp [hfound, hfor]⟩
    | true =>
      cases b with
      | false =>
        refine ⟨found, by simp [hb, hrun], fun i => ?_⟩
        rw [hfound, List.exists_mem_cons_iff]
        refine (or_iff_right ?_).symm
        rintro ⟨rfl, -, hholds⟩
        rw [hb] at hholds
        cases hholds
      | true =>
        refine ⟨(name, r.implementation) :: found, by simp [hb, hrun, Except.map], fun i => ?_⟩
        rw [List.exists_mem_cons_iff, List.exists_mem_cons_iff, hfound]
        refine or_congr_left ⟨?_, And.left⟩
        rintro rfl
        exact ⟨rfl, hfor, hb⟩

theorem lookup_run (hnamed : book.Named) (htells : book.Tells n node) {op : Op} (hop : node.op = some op) :
    ∃ found, book.lookup n node = .ok found ∧ (∀ i, found = some i → book.Offers n node i) ∧
      (found = none → ∀ i, ¬ book.Offers n node i) := by
  obtain ⟨found, hrun, hfound⟩ := candidates_run op.name hnamed htells
  have hoffers : ∀ i, book.Offers n node i ↔ ∃ c ∈ found, c.2 = i := by
    intro i
    rw [hfound]
    simp [Offers, hop]
  refine ⟨(preferred (wanted node) found).or (found.head?.map Prod.snd), ?_, fun i hi => ?_, fun hnone i hi => ?_⟩
  · unfold lookup
    simp only [hop, hrun]
    rfl
  · rw [hoffers]
    rcases Option.or_eq_some_iff.mp hi with hi | ⟨-, hi⟩
    · unfold preferred at hi
      split at hi
      · obtain ⟨c, hc, rfl⟩ := Option.map_eq_some_iff.mp hi
        exact ⟨c, List.mem_of_find?_eq_some hc, rfl⟩
      · cases hi
    · obtain ⟨c, hc, rfl⟩ := Option.map_eq_some_iff.mp hi
      exact ⟨c, List.mem_of_mem_head? hc, rfl⟩
  · obtain ⟨c, hc, -⟩ := (hoffers i).mp hi
    have hempty : found = [] := by simpa using (Option.or_eq_none_iff.mp hnone).2
    rw [hempty] at hc
    cases hc

end RuleBook

/-! ## What a rule has to return -/

namespace Node
variable {node : Node} {op : Op} {vs : List Value} {e : Fault}

/-- One entry for each input. -/
def Honours (node : Node) (vs : List Value) : Prop := vs.length = node.inputs.length ∧ ∀ v ∈ vs, ∃ e, v = .entry e

inductive Breach (node : Node) (op : Op) (vs : List Value) : Fault → Prop
  | count (hcount : vs.length ≠ node.inputs.length) :
      Breach node op vs (.gradient (.gradientCount op.name node.name vs.length node.inputs.length))
  | kind {before : List Entry} {v : Value} {after : List Value} (hcount : vs.length = node.inputs.length)
      (hvs : vs = before.map .entry ++ v :: after) (hv : ∀ e, v ≠ .entry e) :
      Breach node op vs (.gradient (.gradientKind op.name node.name v.kind))

theorem Breach.not_honours (h : node.Breach op vs e) : ¬ node.Honours vs := by
  intro hvs
  cases h with
  | count hcount => exact hcount hvs.1
  | @kind before v after _ heq hv =>
    obtain ⟨e, he⟩ := hvs.2 v (by simp [heq])
    exact hv e he

end Node

/-- The first value that is not an entry is the one that is named. -/
theorem Build.gradientsOf_error {op : Op} {node : Node} {vs : List Value} {e : Fault}
    (h : Build.gradientsOf op node vs = .error e) : ∃ (before : List Entry) (v : Value) (after : List Value),
      vs = before.map .entry ++ v :: after ∧ (∀ e, v ≠ .entry e) ∧ e = .gradient (.gradientKind op.name node.name v.kind) := by
  induction vs generalizing e with
  | nil => cases h
  | cons v rest ih =>
    cases v with
    | entry e₁ =>
      rw [gradientsOf] at h
      cases hrest : gradientsOf op node rest with
      | ok es => rw [hrest] at h; cases h
      | error fault =>
        rw [hrest] at h
        cases h
        obtain ⟨before, v, after, rfl, hv, he⟩ := ih hrest
        exact ⟨e₁ :: before, v, after, rfl, hv, he⟩
    | data d => cases h; exact ⟨[], _, rest, rfl, by simp, rfl⟩
    | node n => cases h; exact ⟨[], _, rest, rfl, by simp, rfl⟩
    | list l => cases h; exact ⟨[], _, rest, rfl, by simp, rfl⟩
    | object o => cases h; exact ⟨[], _, rest, rfl, by simp, rfl⟩

namespace Sweep

/-! ## Calls of rules -/

section Calls
variable (book : RuleBook) (p : Problem) (a : Ambient) (work : Workspace)

/-- The rule of an implementation is about to be called for a node, with what stands in for the node and the totals of
its outputs. -/
inductive Invokes : NodeId → Implementation → NodeId → List Value → Workspace → Prop
  | rule {n forward : NodeId} {slots : List Slot} {i : Implementation} {totals : List Value} {s s₁ : Stage} {w : Workspace}
      (hn : ComesTo book p a work n s) (hop : (s.work.heap.node n).op.isSome)
      (hslots : s.sweep.slotsOf s.work.heap n = .ok slots)
      (haggregate : aggregateAll (n.entries slots.length) a s = .ok totals s₁)
      (hfind : book.find n a s₁.work = .ok (some i) w) (hforward : s₁.sweep.mirrored w.heap n = .ok forward) :
      Invokes n i forward totals w

def Returned (n : NodeId) (vs : List Value) : Prop :=
  ∃ i forward totals w w', Invokes book p a work n i forward totals w ∧ i.call forward totals a w = .ok vs w'

def Served (n : NodeId) : Prop := ∃ vs, Returned book p a work n vs ∧ (work.heap.node n).Honours vs

inductive Fails (n : NodeId) : Fault → Prop
  | missing {op : Op} (hop : (work.heap.node n).op = some op) (hnone : ∀ i, ¬ book.Offers n (work.heap.node n) i) :
      Fails n (.gradient (.noRule op.name (work.heap.node n).name))
  | breach {op : Op} {vs : List Value} {e : Fault} (hop : (work.heap.node n).op = some op)
      (hvs : Returned book p a work n vs) (he : (work.heap.node n).Breach op vs e) : Fails n e

end Calls

section Fails
variable {book : RuleBook} {p : Problem} {a : Ambient} {work : Workspace} {n : NodeId}

theorem applyRule_ends (hb : book.Grows) (hnamed : book.Named) {node : Node} (htells : book.Tells n node) {op : Op}
    (hop : node.op = some op) {totals : List Value} {forward : NodeId} {s : Stage} (hnode : s.work.heap.node n = node)
    (hforward : ∀ h, s.sweep.mirrored h n = .ok forward)
    (hcalls : ∀ i w, book.find n a s.work = .ok (some i) w → ∃ vs w', i.call forward totals a w = .ok vs w') :
    Ends (applyRule book n totals) a s
      (fun vs s' => s'.sweep = s.sweep ∧ s.work.heap.GrowsTo s'.work.heap ∧
        ∃ i w, book.find n a s.work = .ok (some i) w ∧ i.call forward totals a w = .ok vs s'.work)
      fun e => (∀ i, ¬ book.Offers n node i) ∧ e = .gradient (.noRule op.name node.name) := by
  obtain ⟨found, hlookup, -, hnone⟩ := RuleBook.lookup_run hnamed htells hop
  obtain ⟨trace, hfind⟩ := book.find_run n a s.work
  rw [hnode, hlookup] at hfind
  dsimp only at hfind
  unfold applyRule
  let s₁ : Stage := { s with work := { s.work with trace } }
  have hnode₁ : s₁.work.heap.node n = node := hnode
  refine .step (r := found) (u := s₁) (by unfold Sweeping.lift; rw [hfind]) ?_
  cases found with
  | none => exact .of_error (blame_run hnode₁ hop _) ⟨hnone rfl, rfl⟩
  | some i =>
    obtain ⟨vs, w', hcall⟩ := hcalls i _ hfind
    refine .step rfl (.step rfl (.step (r := forward) (by rw [hforward]; rfl) ?_))
    have hrun := hcall
    unfold Implementation.call at hrun
    cases hrule : i.rule with
    | none => rw [hrule] at hrun; cases hrun
    | some rule =>
      rw [hrule] at hrun
      obtain ⟨hg, hmem⟩ := (book.find_ends n a s.work).ok hfind
      obtain ⟨q, hq, rfl⟩ := hmem i rfl
      unfold Ends Sweeping.lift
      dsimp only at hrun ⊢
      rw [hrun]
      exact ⟨rfl, hg.trans ((hb q hq rule hrule forward totals).ok hrun), _, _, hfind, hcall⟩

/-- Where the slots of the inputs are open and without a total, only a value that is no entry stops the passing on. -/
theorem scatter_ends {node : Node} {op : Op} {vs : List Value} {width : NodeId → Nat} {opened : List NodeId}
    {partials : Entry → List Entry} {known : Ledger Entry Entry} {s : Stage} (hop : node.op = some op)
    (hnode : s.work.heap.node n = node) (hcount : vs.length = node.inputs.length)
    (hs : s.sweep.Holds width opened (Slot.of partials known))
    (hopen : ∀ e ∈ node.inputs, e.node ∈ opened ∧ e.index < width e.node ∧ Ledger.get? known e = none) :
    Ends (Sweep.scatter n (node.inputs.zip vs)) a s (fun _ _ => node.Honours vs) (node.Breach op vs) := by
  refine (scatter_tracks hop hnode hcount.symm hs hopen).ends.mono ?_ ?_
  · rintro _ s₁ ⟨es, -, rfl, -, -⟩
    refine ⟨hcount, fun v hv => ?_⟩
    obtain ⟨e, -, rfl⟩ := List.mem_map.mp hv
    exact ⟨e, rfl⟩
  · rintro e ⟨w, he⟩
    cases hgrads : Build.gradientsOf op node vs with
    | ok es => rw [hgrads] at he; cases he
    | error fault =>
      rw [hgrads] at he
      cases he
      obtain ⟨first, v, rest, hsplit, hv, rfl⟩ := Build.gradientsOf_error hgrads
      exact .kind hcount hsplit hv

variable {before after : List NodeId} {turns : List Turn} {s : Stage}

/-- What has arrived for the outputs of a node that comes up can be aggregated. -/
theorem Along.aggregateAll_run (ha : a.Standard) (hf : p.aggregate = Aggregator.standard)
    (h : Along book p a work before turns s) (horder : (p.order work.heap).reverse = before ++ n :: after) :
    ∃ totals s₁, aggregateAll (work.heap.entries n) a s = .ok (totals.map .entry) s₁ ∧ s.sweep.Alike s₁.sweep ∧
      s₁.sweep.Holds work.heap.width (p.order work.heap)
        (Slot.of (Turn.arrived p turns) (Turn.known turns ++ (work.heap.entries n).zip totals)) := by
  have hstandard : s.sweep.problem.aggregate = Aggregator.standard := by rw [h.recorded.problem, hf]
  obtain ⟨totals, w, hreduce⟩ := Build.reduceAll_run ha ((work.heap.entries n).map (Turn.arrived p turns)) s.work
  rw [← hstandard] at hreduce
  have hn : n ∈ p.order work.heap := List.mem_reverse.mp (by rw [horder]; simp)
  obtain ⟨_, s₁, hrun, -, rfl, -, halike, hs⟩ := Coupled.ok_right (aggregateAll_tracks
    (hstandard ▸ Aggregator.standard_proper.returns) h.recorded.holds (work.heap.nodup_entries n) fun e he => by
      obtain ⟨rfl, hi⟩ := NodeId.mem_entries.mp he
      exact ⟨hn, hi, (h.get?_known_eq_none_iff hi).mpr (h.coming horder)⟩) hreduce
  exact ⟨totals, s₁, hrun, halike, hs⟩

/-- The turn of an operator node succeeds with what its rule returns, or the node fails; a variable cannot fail. -/
theorem Along.step_ends (hb : book.Grows) (ha : a.Standard) (hp : p.Fits work.heap)
    (hf : p.aggregate = Aggregator.standard) (hnamed : book.Named) (htells : book.Tells n (work.heap.node n))
    (h : Along book p a work before turns s) (horder : (p.order work.heap).reverse = before ++ n :: after)
    (hn : ComesTo book p a work n s)
    (hcalls : ∀ i forward totals w, Invokes book p a work n i forward totals w →
      ∃ vs w', i.call forward totals a w = .ok vs w') (level : Level) :
    Ends (Sweep.step book level n) a s (fun _ _ => (work.heap.node n).op.isSome → Served book p a work n)
      (Fails book p a work n) := by
  have hproper : p.aggregate.Proper := hf ▸ Aggregator.standard_proper
  have hhas : work.heap.Has n := Heap.has_of_mem_postorder hn.mem_order
  have hg := hn.grows hb hproper.grows
  have hslots := h.slotsOf horder
  have hentries := h.entries_slots horder hslots
  obtain ⟨totals, s₁, hrun, halike, hs⟩ := h.aggregateAll_run ha hf horder
  have hg₁ := hg.trans (aggregateAll_grows (h.recorded.problem.symm ▸ hproper.grows) hrun)
  rw [← hentries] at hrun
  have hforward : ∀ h', s₁.sweep.mirrored h' n = .ok (Turn.forward s.sweep.mirrors n) := fun h' => by
    rw [mirrored_eq halike.mirrors]
    exact hn.mirrored hp h'
  unfold Sweep.step
  refine .step (r := s.work.heap) (u := s) rfl ?_
  cases hop : (work.heap.node n).op with
  | none =>
    simp only [hg.node_eq n hhas, hop]
    exact fun hsome => by cases hsome
  | some op =>
    have hsome : (s.work.heap.node n).op.isSome := by rw [hg.node_eq n hhas, hop]; rfl
    simp only [hg.node_eq n hhas, hop]
    refine .step (r := s.sweep) (u := s) rfl (.step (r := s.work.heap) (u := s) rfl ?_)
    refine .step (u := s) (by rw [hslots]; rfl) ?_
    refine .step hrun (.bind ((applyRule_ends hb hnamed htells hop (hg₁.node_eq n hhas) hforward ?_).mono
      (fun _ _ h => h) ?_) ?_)
    · exact fun i w hfind => hcalls i _ _ w (.rule hn hsome hslots hrun hfind (hforward _))
    · rintro e ⟨hnone, rfl⟩
      exact .missing hop hnone
    rintro vs s₂ ⟨hsw, hg₂, i, w, hfind, hcall⟩
    have hvs : Returned book p a work n vs := ⟨i, _, _, w, s₂.work, .rule hn hsome hslots hrun hfind (hforward _), hcall⟩
    have hnode : s₂.work.heap.node n = work.heap.node n := (hg₁.trans hg₂).node_eq n hhas
    refine .step (r := s₂.work.heap) (u := s₂) rfl ?_
    rw [hnode]
    by_cases hcount : vs.length = (work.heap.node n).inputs.length
    · rw [if_pos hcount]
      have hpassed := scatter_ends (a := a) hop hnode hcount (hsw ▸ hs) fun e he => h.ahead hp horder he totals
      refine .bind (hpassed.mono (fun _ _ h => h) fun e he => .breach hop hvs he) fun _ s₃ hhonours => ?_
      exact .step (r := s₃.work.heap) (u := s₃) rfl fun _ => ⟨vs, hvs, hhonours⟩
    · rw [if_neg hcount]
      exact .of_error (blame_run hnode hop _) (.breach hop hvs (.count hcount))

end Fails

/-! ## The whole run -/

section Whole
variable {book : RuleBook} {p : Problem} {a : Ambient} {work : Workspace} {n : NodeId}

theorem Returned.unique {vs vs' : List Value} (h : Returned book p a work n vs) (h' : Returned book p a work n vs') :
    vs = vs' := by
  obtain ⟨i, forward, totals, w, w₁, ⟨hn, hop, hslots, hagg, hfind, hforward⟩, hcall⟩ := h
  obtain ⟨i', forward', totals', w', w₁', ⟨hn', hop', hslots', hagg', hfind', hforward'⟩, hcall'⟩ := h'
  obtain rfl := hn.unique hn'
  rw [hslots] at hslots'
  cases hslots'
  rw [hagg] at hagg'
  cases hagg'
  rw [hfind] at hfind'
  cases hfind'
  rw [hforward] at hforward'
  cases hforward'
  rw [hcall] at hcall'
  cases hcall'
  rfl

/-- The run comes to no node behind one that fails. -/
theorem not_comesTo_of_error {before after : List NodeId} {k : NodeId} {e : Fault} {s s' : Stage}
    (horder : (p.order work.heap).reverse = before ++ n :: after)
    (herror : upTo book (before ++ [n]) a (start p work) = .error e s) (hk : k ∈ after) :
    ¬ ComesTo book p a work k s' := by
  rintro ⟨before', after', horder', hrun⟩
  obtain ⟨l, r, rfl⟩ := List.mem_iff_append.mp hk
  have hsplit : (p.order work.heap).reverse = (before ++ n :: l) ++ k :: r := by rw [horder, List.append_assoc]; rfl
  rw [← before_unique hsplit horder'] at hrun
  rw [List.append_cons, upTo_append_error herror] at hrun
  cases hrun

variable (hb : book.Grows) (hf : p.aggregate = Aggregator.standard) (hnamed : book.Named)
  (htells : ∀ n, work.heap.Reachable (p.ys.map Entry.node) n → book.Tells n (work.heap.node n))

include hb hf hnamed htells in
/-- A rule that is called belongs to an implementation that applies to the node. -/
theorem Invokes.offers {i : Implementation} {forward : NodeId} {totals : List Value} {w : Workspace}
    (h : Invokes book p a work n i forward totals w) : book.Offers n (work.heap.node n) i := by
  have hproper : p.aggregate.Proper := hf ▸ Aggregator.standard_proper
  obtain ⟨hn, hop, -, hagg, hfind, -⟩ := h
  have hhas := Heap.has_of_mem_postorder hn.mem_order
  have hg := hn.grows hb hproper.grows
  rw [hg.node_eq n hhas] at hop
  obtain ⟨op, hop⟩ := Option.isSome_iff_exists.mp hop
  obtain ⟨before, after, turns, -, h⟩ := along_comesTo hproper.returns hn
  have hg₁ := hg.trans (aggregateAll_grows (h.recorded.problem.symm ▸ hproper.grows) hagg)
  have hreach := Heap.reachable_of_mem_postorder hn.mem_order
  obtain ⟨found, hlookup, hsome, -⟩ := RuleBook.lookup_run hnamed (htells n hreach) hop
  obtain ⟨trace, hrun⟩ := book.find_run n a _
  rw [hfind, hg₁.node_eq n hhas, hlookup] at hrun
  cases hrun
  exact hsome i rfl

variable (hp : p.Fits work.heap) (ha : a.Default)
variable (hw : work.heap.Whole (p.ys.map Entry.node))
  (htests : ∀ t ∈ p.mirror, ∀ n, work.heap.Reachable (p.ys.map Entry.node) n →
    ∃ b, t.holds n (work.heap.node n) = .ok b)

include hp ha hw htests in
/-- Nothing fails before the first turn. -/
theorem upTo_nil_run : ∃ s, upTo book [] a (start p work) = .ok () s := by
  have harr := hp.arranged
  have hreach : ∀ n ∈ p.order work.heap, work.heap.Reachable (p.ys.map Entry.node) n := fun n hn =>
    harr.reachable n (List.mem_reverse.mpr hn)
  have hstrays : ∀ n ∈ p.order work.heap, (work.heap.node n).strays = none := fun n hn => (hw n (hreach n hn)).2
  obtain ⟨text, hsuffix⟩ := ha.suffix
  obtain ⟨verbose, hverbose⟩ := ha.verbose
  have hvisited := Build.visited_run (a := a) hstrays
  obtain ⟨mirrors, w, hmirrors, -⟩ := Build.mirrorMap_run (a := a)
    (w := { work with trace := work.trace.push (Build.visitEvent p work.heap) }) harr.settled
    (List.nodup_reverse.mp harr.nodup) (fun n hn => harr.has n (List.mem_reverse.mpr hn))
    (fun n hn => by simp [Heap.flaw?, Node.flaw?, hstrays n hn]) hsuffix
    fun t ht n hn => htests t ht n (hreach n hn)
  have hprepared : Build.prepared p a work = .ok mirrors w := by
    unfold Build.prepared
    rw [run_bind_ok (r := work.heap) (u := work) rfl, run_bind_ok hvisited]
    exact hmirrors
  obtain ⟨_, s, hprepare, -⟩ := Coupled.ok_right (prepare_tracks (s := start p work) hp rfl) hprepared
  have hflag : Build.flag ["debugprint"] a s.work = .ok verbose s.work := by
    show Build.ofExcept (a.profile.getFlag ["debugprint"]) a s.work = _
    rw [hverbose]
    rfl
  refine ⟨s, ?_⟩
  unfold upTo
  rw [run_bind_ok hprepare, run_bind_ok (r := verbose) (u := s)]
  · rfl
  · unfold Sweeping.lift
    rw [hflag]

variable (hcalls : ∀ n i forward totals w, Invokes book p a work n i forward totals w →
  ∃ vs w', i.call forward totals a w = .ok vs w')

include hp hb hf ha hnamed htells hw htests hcalls in
/-- The run goes through the nodes one by one, up to the first that fails. -/
theorem upTo_cases (ns : List NodeId) : ∀ {after : List NodeId}, (p.order work.heap).reverse = ns ++ after →
    (∃ s, upTo book ns a (start p work) = .ok () s ∧
      ∀ k ∈ ns, (work.heap.node k).op.isSome → Served book p a work k) ∨
    ∃ before n rest e s, ns = before ++ n :: rest ∧ Fails book p a work n e ∧
      (∀ k ∈ before, (work.heap.node k).op.isSome → Served book p a work k) ∧
      upTo book (before ++ [n]) a (start p work) = .error e s := by
  have hproper : p.aggregate.Proper := hf ▸ Aggregator.standard_proper
  induction ns using List.reverseRecOn with
  | nil =>
    intro after _
    have hnil : ∃ s, upTo book [] a (start p work) = .ok () s := upTo_nil_run hp ha hw htests
    exact .inl (hnil.imp fun s hrun => ⟨hrun, by simp⟩)
  | append_singleton ns n ih =>
    intro after horder
    rw [List.append_assoc] at horder
    -- either the run gets to the last node and its turn decides, or it has failed before and fails no differently
    rcases ih horder with ⟨s, hrun, hserved⟩ | ⟨before, k, rest, e, s, rfl, hk, hserved, hrun⟩
    · obtain ⟨turns, h⟩ := along_upTo hproper.returns ns horder hrun
      obtain ⟨level, hconcat⟩ := upTo_concat_run hrun n
      have hn : ComesTo book p a work n s := ⟨ns, after, horder, hrun⟩
      have hreach := hp.arranged.reachable n (by rw [horder]; simp)
      have hends := h.step_ends hb ha.toStandard hp hf hnamed (htells n hreach) horder hn (hcalls n) level
      cases hstep : Sweep.step book level n a s with
      | ok _ s' =>
        refine .inl ⟨s', hconcat.trans hstep, fun k hk hop => ?_⟩
        rcases List.mem_append.mp hk with hk | hk
        · exact hserved k hk hop
        · rw [List.mem_singleton.mp hk] at hop ⊢
          exact hends.ok hstep hop
      | error e s' => exact .inr ⟨ns, n, [], e, s', rfl, hends.error hstep, hserved, hconcat.trans hstep⟩
    · exact .inr ⟨before, k, rest ++ [n], e, s, by simp, hk, hserved, hrun⟩

end Whole

end Sweep

/-- The rule of sums passes the same two entries on whatever it is given, and that of exponentials passes nothing on. -/
def RuleBook.sample : RuleBook :=
  [("sums", { implementation := { name := "sums", path := "sums", rule := some fun _ _ => return (seeds.map .entry) }
              args := [("op", .text "elemwise_add"), ("name", .text "default")] }),
   ("exps", { implementation := { name := "exps", path := "exps", rule := some fun _ _ => return [] }
              args := [("op", .text "exp"), ("name", .text "default")] })]
where
  seeds : List Entry := [⟨⟨7⟩, 0⟩, ⟨⟨7⟩, 0⟩]

namespace RuleBook

theorem sample_grows : RuleBook.sample.Grows := by
  intro q hq rule hrule n grads
  simp only [RuleBook.sample, List.mem_cons, List.not_mem_nil, or_false] at hq
  rcases hq with rfl | rfl <;> cases hrule <;> exact Build.respects_pure _

theorem sample_tells (n : NodeId) (node : Node) : RuleBook.sample.Tells n node := by
  intro q hq
  simp only [RuleBook.sample, List.mem_cons, List.not_mem_nil, or_false] at hq
  rcases hq with rfl | rfl <;> exact ⟨true, rfl⟩

theorem sample_call {n : NodeId} {node : Node} {i : Implementation} (h : RuleBook.sample.Offers n node i) :
    (node.opName = "elemwise_add" ∧ ∀ forward totals a w,
      i.call forward totals a w = .ok (sample.seeds.map .entry) w) ∨
    (node.opName = "exp" ∧ ∀ forward totals a w, i.call forward totals a w = .ok [] w) := by
  obtain ⟨q, hq, rfl, ⟨op, hop, hfor⟩, -⟩ := h
  have hname : node.opName = op.name := by
    unfold Node.opName
    rw [Option.mem_def.mp hop]
  rw [hname]
  simp only [RuleBook.sample, List.mem_cons, List.not_mem_nil, or_false] at hq
  rcases hq with rfl | rfl
  · exact .inl ⟨(eq_of_beq hfor).symm, fun _ _ _ _ => rfl⟩
  · exact .inr ⟨(eq_of_beq hfor).symm, fun _ _ _ _ => rfl⟩

theorem sample_named : RuleBook.sample.Named := by
  unfold Named
  decide

theorem sample_none (i : Implementation) : ¬ RuleBook.sample.Offers ⟨2⟩ (Heap.sample.node ⟨2⟩) i := by
  intro hi
  rcases sample_call hi with ⟨hop, -⟩ | ⟨hop, -⟩
  · exact absurd hop (by decide)
  · exact absurd hop (by decide)

end RuleBook

namespace Sweep

theorem sample_invokes {n forward : NodeId} {i : Implementation} {totals : List Value} {w : Workspace}
    (h : Invokes .sample (.sample (some .operators)) .initial { heap := .sample } n i forward totals w) :
    RuleBook.sample.Offers n (Heap.sample.node n) i :=
  h.offers RuleBook.sample_grows rfl RuleBook.sample_named fun n _ => RuleBook.sample_tells n _

theorem sample_returned {n : NodeId} {vs : List Value}
    (h : Returned .sample (.sample (some .operators)) .initial { heap := .sample } n vs) :
    ((Heap.sample.node n).opName = "elemwise_add" ∧ vs = RuleBook.sample.seeds.map .entry) ∨
    ((Heap.sample.node n).opName = "exp" ∧ vs = []) := by
  obtain ⟨i, forward, totals, w, w', hi, hvs⟩ := h
  rcases RuleBook.sample_call (sample_invokes hi) with ⟨hop, hcall⟩ | ⟨hop, hcall⟩
  · rw [hcall] at hvs
    cases hvs
    exact .inl ⟨hop, rfl⟩
  · rw [hcall] at hvs
    cases hvs
    exact .inr ⟨hop, rfl⟩

end Sweep

def RuleBook.exponential : Workspace where
  heap := { nodes := #[{ name := "x" }, { op := some { name := "exp" }, name := "y", inputs := [⟨⟨0⟩, 0⟩] }] }

/-- Two rules for exponentials, of which the second cannot tell whether it applies. -/
def RuleBook.undecided : RuleBook :=
  [("A", { implementation := { name := "A", path := "A", rule := some passing }
           args := [("op", .text "exp"), ("name", .text "default")] }),
   ("B", { implementation := { name := "B", path := "B", rule := some passing, applies := .call none }
           args := [("op", .text "exp"), ("name", .text "other")] })]
where
  passing : Rule := fun n _ => return [.entry ⟨n, 0⟩]

def Problem.exponential : Problem where
  ys := [⟨⟨1⟩, 0⟩]
  seeds := [⟨⟨0⟩, 0⟩]
  xs := [⟨⟨0⟩, 0⟩]
  aggregate := Aggregator.standard
  mirror := none

end Backprop
