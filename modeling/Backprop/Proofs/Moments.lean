import Backprop.Proofs.Stages
import Mathlib.Data.List.Induction

/-!
# Moments of a run

What a run has done when it comes to a place where a slot is looked up: the
parts of the sweep before that place, run from the start. Between two turns the
slots hold what the turns so far say (`Along`), and in the end what was
assembled from them (`Assembled`). The rules and the aggregator may do anything
to the nodes meanwhile: a turn goes by the operator that its node has when the
run comes to it, and by the inputs that it has when its rule has returned.
-/

namespace Backprop

def Turn.leftOver (turns : List Turn) (xs : List Entry) : List Entry :=
  (xs.filter fun x => x.node ∉ turns.map Turn.node).eraseDups

theorem Turn.mem_leftOver {turns : List Turn} {xs : List Entry} {x : Entry} :
    x ∈ leftOver turns xs ↔ x ∈ xs ∧ x.node ∉ turns.map Turn.node := by
  rw [leftOver, List.mem_eraseDups, List.mem_filter, decide_eq_true_iff]

theorem Turn.leftOver_concat (turns : List Turn) (xs : List Entry) (x : Entry) :
    leftOver turns (xs ++ [x]) = leftOver turns xs ++ if x ∈ xs ∨ x.node ∈ turns.map Turn.node then [] else [x] := by
  unfold leftOver
  rw [List.filter_append, List.eraseDups_append]
  congr 1
  by_cases hn : x.node ∈ turns.map Turn.node
  · rw [List.filter_cons_of_neg (by simpa using hn), if_pos (.inr hn)]
    rfl
  · rw [List.filter_cons_of_pos (by simpa using hn), List.filter_nil, List.cons_removeAll, List.nil_removeAll]
    by_cases hx : x ∈ xs
    · have hc : (xs.filter fun x => x.node ∉ turns.map Turn.node).contains x = true :=
        List.contains_iff_mem.mpr (List.mem_filter.mpr ⟨hx, decide_eq_true hn⟩)
      rw [hc, if_neg (by simp), if_pos (.inl hx)]
      rfl
    · have hc : (xs.filter fun x => x.node ∉ turns.map Turn.node).contains x = false := by
        rw [← Bool.not_eq_true, List.contains_iff_mem]
        exact fun hmem => hx (List.mem_of_mem_filter hmem)
      rw [hc, if_pos rfl, if_neg (not_or.mpr ⟨hx, hn⟩)]
      rfl

/-- A sublist of a list without repetitions is given by its members. -/
theorem eq_filter_of_sublist {α : Type} {l l' : List α} {q : α → Bool} (h : l'.Sublist l) (hnd : l.Nodup)
    (hq : ∀ x ∈ l, x ∈ l' ↔ q x = true) : l' = l.filter q := by
  induction h with
  | slnil => rfl
  | @cons l' l x h ih =>
    obtain ⟨hx, hnd⟩ := List.nodup_cons.mp hnd
    have hx' : x ∉ l' := fun hmem => hx (h.mem hmem)
    rw [List.filter_cons_of_neg fun hqx => hx' ((hq x (by simp)).mpr hqx)]
    exact ih hnd fun y hy => hq y (List.mem_cons_of_mem _ hy)
  | @cons_cons l' l x h ih =>
    obtain ⟨hx, hnd⟩ := List.nodup_cons.mp hnd
    rw [List.filter_cons_of_pos ((hq x (by simp)).mp (by simp))]
    refine congrArg (x :: ·) (ih hnd fun y hy => ?_)
    have hne : y ≠ x := fun hyx => hx (hyx ▸ hy)
    rw [← hq y (List.mem_cons_of_mem _ hy), List.mem_cons, or_iff_right hne]

namespace Sweep

section Moments
variable (book : RuleBook) (p : Problem) (a : Ambient) (work : Workspace)

/-- The run comes to a node, having gone through all nodes before it. -/
def ComesTo (n : NodeId) (s : Stage) : Prop :=
  ∃ before after, (p.order work.heap).reverse = before ++ n :: after ∧ upTo book before a (start p work) = .ok () s

/-- The node is an operator when the run comes to it. -/
def Operates (n : NodeId) : Prop := ∃ s, ComesTo book p a work n s ∧ (s.work.heap.node n).op.isSome

inductive Seeds : Entry → Stage → Prop
  | place {before after : List (Entry × Entry)} {y seed : Entry} {s s' : Stage}
      (hpairs : p.ys.zip p.seeds = before ++ (y, seed) :: after) (hvisit : visit a (start p work) = .ok () s)
      (hbefore : before.forM seedOne a s = .ok () s') : Seeds y s'

/-- A slot is about to be aggregated, for the turn of its node or because it was requested. -/
inductive Aggregates : Entry → Stage → Prop
  | output {n : NodeId} {slots : List Slot} {before after : List Entry} {e : Entry} {totals : List Value} {s s' : Stage}
      (hn : ComesTo book p a work n s) (hop : (s.work.heap.node n).op.isSome)
      (hslots : s.sweep.slotsOf s.work.heap n = .ok slots) (hentries : n.entries slots.length = before ++ e :: after)
      (hbefore : aggregateAll before a s = .ok totals s') : Aggregates e s'
  | request {before after : List Entry} {x : Entry} {totals : List Value} {s s₁ s₂ : Stage}
      (hturns : upTo book (p.order work.heap).reverse a (start p work) = .ok () s)
      (hxs : p.xs = before ++ x :: after) (hbefore : assembleAll before a s = .ok totals s₁)
      (hopen : ensureSlots x.node a s₁ = .ok () s₂) : Aggregates x s₂

inductive Opens : NodeId → Stage → Prop
  | request {before after : List Entry} {x : Entry} {totals : List Value} {s s' : Stage}
      (hturns : upTo book (p.order work.heap).reverse a (start p work) = .ok () s)
      (hxs : p.xs = before ++ x :: after) (hbefore : assembleAll before a s = .ok totals s')
      (hnone : Ledger.get? s'.sweep.slots x.node = none) : Opens x.node s'

inductive Answers (n : NodeId) (s : Stage) (totals grads : List Value) (s' : Stage) : Prop
  | rule {slots : List Slot} {s₁ : Stage} (hop : (s.work.heap.node n).op.isSome)
      (hslots : s.sweep.slotsOf s.work.heap n = .ok slots)
      (haggregate : aggregateAll (n.entries slots.length) a s = .ok totals s₁)
      (hrule : applyRule book n totals a s₁ = .ok grads s')

/-- A gradient that the rule of a node returned is about to be passed on. -/
inductive PassesOn (n : NodeId) : Entry → Value → Stage → Prop
  | input {totals grads : List Value} {before after : List (Entry × Value)} {e : Entry} {grad : Value} {s s' s'' : Stage}
      (hn : ComesTo book p a work n s) (hrule : Answers book a n s totals grads s')
      (hcount : grads.length = (s'.work.heap.node n).inputs.length)
      (hpairs : (s'.work.heap.node n).inputs.zip grads = before ++ (e, grad) :: after)
      (hbefore : scatter n before a s' = .ok () s'') : PassesOn n e grad s''

/-- The aggregator was handed the gradients in a slot, and gave a total. -/
def Handed (e : Entry) (partials : List Value) (total : Value) : Prop :=
  ∃ s w, Aggregates book p a work e s ∧ s.sweep.slotAt s.work.heap e = .ok { partials } ∧
    p.aggregate partials a s.work = .ok total w

inductive Took (n : NodeId) (s : Stage) : Turn → Prop
  | turn {totals grads : List Entry} {s' : Stage} (hrule : Answers book a n s (totals.map .entry) (grads.map .entry) s')
      (hcount : grads.length = (s'.work.heap.node n).inputs.length) :
      Took n s ⟨n, (n.entries totals.length).zip totals, (s'.work.heap.node n).inputs.zip grads⟩

/-- A turn of the run. -/
def Taken (t : Turn) : Prop := ∃ s, ComesTo book p a work t.node s ∧ Took book a t.node s t

/-- What the sweep reads of the node is as it was at the start. -/
structure Undisturbed (n : NodeId) : Prop where
  op : ∀ s, ComesTo book p a work n s → ((s.work.heap.node n).op.isSome ↔ (work.heap.node n).op.isSome)
  inputs : ∀ s totals grads s', ComesTo book p a work n s → Answers book a n s totals grads s' →
    (s'.work.heap.node n).inputs = (work.heap.node n).inputs
  outputs : ∀ s, Opens book p a work n s → s.work.heap.outputs n = work.heap.outputs n

end Moments

/-! ## The place of a node -/

section Place
variable {book : RuleBook} {p : Problem} {a : Ambient} {work : Workspace} {n : NodeId} {s s' : Stage}

theorem nodup_backwards (p : Problem) (h : Heap) : (p.order h).reverse.Nodup :=
  List.nodup_reverse.mpr (h.nodup_postorder _)

theorem before_unique {before after before' after' : List NodeId}
    (h : (p.order work.heap).reverse = before ++ n :: after)
    (h' : (p.order work.heap).reverse = before' ++ n :: after') : before = before' := by
  have hnd := nodup_backwards p work.heap
  rw [h] at hnd h'
  have hbefore : n ∉ before := fun hn => (List.nodup_append.mp hnd).2.2 n hn n (by simp) rfl
  have hafter : n ∉ after := (List.nodup_cons.mp (List.nodup_append.mp hnd).2.1).1
  exact ((List.append_cons_inj_of_notMem hbefore hafter).mp h').1

theorem ComesTo.unique (h : ComesTo book p a work n s) (h' : ComesTo book p a work n s') : s = s' := by
  obtain ⟨before, after, horder, hrun⟩ := h
  obtain ⟨before', after', horder', hrun'⟩ := h'
  rw [← before_unique horder horder', hrun] at hrun'
  cases hrun'
  rfl

theorem ComesTo.operates_iff (h : ComesTo book p a work n s) :
    Operates book p a work n ↔ (s.work.heap.node n).op.isSome := by
  constructor
  · rintro ⟨s', h', hop⟩
    rwa [h.unique h']
  · exact fun hop => ⟨s, h, hop⟩

theorem ComesTo.mem_order (h : ComesTo book p a work n s) : n ∈ p.order work.heap := by
  obtain ⟨before, after, horder, -⟩ := h
  exact List.mem_reverse.mp (by rw [horder]; simp)

end Place

/-! ## Rules that only add nodes -/

section Growth
variable {book : RuleBook} {p : Problem} {a : Ambient} {work : Workspace} {n : NodeId} {s s' : Stage}

theorem aggregateAt_grows (hf : ∀ grads, Build.Grows (s.sweep.problem.aggregate grads)) {e : Entry} {v : Value}
    (h : aggregateAt e a s = .ok v s') : s.work.heap.GrowsTo s'.work.heap := by
  obtain ⟨slot, w, -, hcall, rfl⟩ := aggregateAt_ok h
  unfold Slot.aggregate at hcall
  cases htotal : slot.total with
  | some known => rw [htotal] at hcall; cases hcall; exact .refl _
  | none => rw [htotal] at hcall; exact (hf _).ok hcall

theorem aggregateAll_grows : ∀ {es : List Entry} {totals : List Value} {s : Stage},
    (∀ grads, Build.Grows (s.sweep.problem.aggregate grads)) → aggregateAll es a s = .ok totals s' →
    s.work.heap.GrowsTo s'.work.heap
  | [], _, s, _, h => by
    cases h
    exact .refl _
  | e :: es, _, s, hf, h => by
    rw [aggregateAll] at h
    obtain ⟨v, s₁, hone, hrest⟩ := ok_of_bind h
    obtain ⟨vs, s₂, hrest, hnil⟩ := ok_of_bind hrest
    cases hnil
    exact (aggregateAt_grows hf hone).trans (aggregateAll_grows (((settled_aggregateAt e).ok hone).problem ▸ hf) hrest)

theorem applyRule_grows (hb : book.Grows) {totals grads : List Value} (h : applyRule book n totals a s = .ok grads s') :
    s.work.heap.GrowsTo s'.work.heap := by
  obtain ⟨-, i, rule, forward, w, hfind, hi, hrule⟩ := applyRule_ok h
  obtain ⟨hg, hmem⟩ := (book.find_ends n a s.work).ok hfind
  obtain ⟨q, hq, rfl⟩ := hmem i rfl
  exact hg.trans ((hb q hq rule hi forward totals).ok hrule)

theorem Answers.grows (hb : book.Grows) (hf : ∀ grads, Build.Grows (s.sweep.problem.aggregate grads))
    {totals grads : List Value} (h : Answers book a n s totals grads s') : s.work.heap.GrowsTo s'.work.heap := by
  obtain ⟨-, -, hagg, hrule⟩ := h
  exact (aggregateAll_grows hf hagg).trans (applyRule_grows hb hrule)

theorem step_grows (hb : book.Grows) (hf : ∀ grads, Build.Grows (s.sweep.problem.aggregate grads)) {level : Level}
    (h : step book level n a s = .ok () s') : s.work.heap.GrowsTo s'.work.heap := by
  obtain ⟨-, rfl⟩ | ⟨slots, totals, grads, s₁, s₂, s₃, w, -, -, hagg, hrule, -, hscatter, hg, rfl⟩ := step_ok h
  · exact .refl _
  · have hgrows := (aggregateAll_grows hf hagg).trans (applyRule_grows hb hrule)
    rw [scatter_work hscatter] at hg
    exact hgrows.trans hg

theorem upTo_grows (hb : book.Grows) (hf : ∀ grads, Build.Grows (p.aggregate grads)) (ns : List NodeId) :
    ∀ {s : Stage}, upTo book ns a (start p work) = .ok () s → work.heap.GrowsTo s.work.heap := by
  induction ns using List.reverseRecOn with
  | nil =>
    intro s h
    unfold upTo at h
    obtain ⟨_, s₁, hprepare, h⟩ := ok_of_bind h
    obtain ⟨verbose, w, hflag, h⟩ := Sweeping.ok_of_lift h
    cases h
    exact (prepare_grows hprepare).trans ((Build.grows_flag _).ok hflag)
  | append_singleton ns n ih =>
    intro s h
    obtain ⟨s₁, level, hbefore, hstep⟩ := upTo_concat h
    exact (ih hbefore).trans (step_grows hb (upTo_problem hbefore ▸ hf) hstep)

theorem assembleAll_grows : ∀ {xs : List Entry} {totals : List Value} {s : Stage},
    (∀ grads, Build.Grows (s.sweep.problem.aggregate grads)) → assembleAll xs a s = .ok totals s' →
    s.work.heap.GrowsTo s'.work.heap
  | [], _, s, _, h => by
    cases h
    exact .refl _
  | x :: xs, _, s, hf, h => by
    rw [assembleAll] at h
    obtain ⟨_, s₁, hopen, hrest⟩ := ok_of_bind h
    obtain ⟨v, s₂, hone, hrest⟩ := ok_of_bind hrest
    obtain ⟨vs, s₃, hrest, hnil⟩ := ok_of_bind hrest
    cases hnil
    have hopened := (settled_ensureSlots x.node).ok hopen
    have hf₁ : ∀ grads, Build.Grows (s₁.sweep.problem.aggregate grads) := hopened.problem ▸ hf
    have hg := aggregateAt_grows hf₁ hone
    rw [ensureSlots_work hopen] at hg
    exact hg.trans (assembleAll_grows (((settled_aggregateAt x).ok hone).problem ▸ hf₁) hrest)

theorem ComesTo.grows (hb : book.Grows) (hf : ∀ grads, Build.Grows (p.aggregate grads)) (h : ComesTo book p a work n s) :
    work.heap.GrowsTo s.work.heap := by
  obtain ⟨before, after, -, hrun⟩ := h
  exact upTo_grows hb hf before hrun

/-- Rules and aggregators that only add nodes disturb none of those that are there. -/
theorem undisturbed_of_grows (hb : book.Grows) (hf : ∀ grads, Build.Grows (p.aggregate grads)) {n : NodeId}
    (hn : work.heap.Has n) : Undisturbed book p a work n where
  op s hs := by rw [(hs.grows hb hf).node_eq n hn]
  inputs s totals grads s' hs hrule := by
    have hgrows := hs.grows hb hf
    obtain ⟨before, after, -, hrun⟩ := hs
    rw [(hgrows.trans (hrule.grows hb (upTo_problem hrun ▸ hf))).node_eq n hn]
  outputs s hs := by
    obtain ⟨hturns, -, hbefore, -⟩ := hs
    have hgrows := assembleAll_grows (upTo_problem hturns ▸ hf) hbefore
    exact ((upTo_grows hb hf _ hturns).trans hgrows).outputs_eq hn

end Growth

/-! ## What holds along a run -/

section Turns
variable {book : RuleBook} {p : Problem} {a : Ambient} {width : NodeId → Nat} {mirrors : Option MirrorMap}
  {opened : List NodeId} {turns : List Turn} {n : NodeId} {s s' : Stage}

/-- The slots of a node without totals are aggregated in the order of the outputs. -/
theorem aggregateAll_recorded (hf : p.aggregate.Returns) (hr : Recorded width p mirrors opened turns s.sweep)
    (hn : n ∈ opened) (hnew : ∀ t ∈ turns, ∀ q ∈ t.totals, q.1.node ≠ n) {done todo : List Entry} {totals : List Value}
    (he : n.entries (width n) = done ++ todo) (h : aggregateAll done a s = .ok totals s') :
    ∃ es : List Entry, totals = es.map .entry ∧ es.length = done.length ∧ s.sweep.Alike s'.sweep ∧
      s'.sweep.Holds width opened (Slot.of (Turn.arrived p turns) (Turn.known turns ++ done.zip es)) := by
  have hnd := n.nodup_entries (width n)
  rw [he] at hnd
  obtain ⟨es, -, hes⟩ := (aggregateAll_tracks (hr.problem ▸ hf) hr.holds (List.nodup_append.mp hnd).1 fun e hmem => by
    obtain ⟨rfl, hi⟩ := NodeId.mem_entries.mp (he ▸ List.mem_append_left _ hmem)
    exact ⟨hn, hi, Turn.get?_known_eq_none hnew⟩).ok h
  exact ⟨es, hes⟩

/-- A step takes a turn, and passes nothing on to a slot that has a total. -/
theorem step_took (hf : p.aggregate.Returns) (hr : Recorded width p mirrors opened turns s.sweep)
    (hnew : ∀ t ∈ turns, ∀ q ∈ t.totals, q.1.node ≠ n) {level : Level} (h : step book level n a s = .ok () s') :
    ((s.work.heap.node n).op = none ∧ s' = s) ∨ (s.work.heap.node n).op.isSome ∧
      ∃ t, Took book a n s t ∧ t.totals.map Prod.fst = n.entries (width n) ∧
        Recorded width p mirrors opened (turns ++ [t]) s'.sweep ∧
        ∀ q ∈ t.grads, q.1.index < width q.1.node ∧ Ledger.get? (Turn.known (turns ++ [t])) q.1 = none := by
  obtain hidle | ⟨slots, totals, grads, s₁, s₂, s₃, w, hop, hslots, hagg, hrule, hcount, hscatter, -, rfl⟩ := step_ok h
  · exact .inl hidle
  obtain ⟨hn, hslots'⟩ := hr.holds.slotsOf_ok hslots
  have hlen : slots.length = width n := by rw [hslots', List.length_map, NodeId.length_entries]
  have hanswers : Answers book a n s totals grads s₂ := .rule hop hslots hagg hrule
  rw [hlen] at hagg
  obtain ⟨es, rfl, hes, halike₁, hs₁⟩ := aggregateAll_recorded hf hr hn hnew (List.append_nil _).symm hagg
  rw [NodeId.length_entries] at hes
  have hs₂ := (applyRule_ok hrule).1 ▸ hs₁
  obtain ⟨gs, rfl, -, hs₃, hinputs⟩ := scatter_ok hcount.symm hs₂ hscatter
  rw [List.length_map] at hcount
  have halike₃ := (settled_scatter n _).ok hscatter
  rw [(applyRule_ok hrule).1] at halike₃
  refine .inr ⟨hop, ⟨n, (n.entries es.length).zip es, (s₂.work.heap.node n).inputs.zip gs⟩, .turn hanswers hcount, ?_, ?_, ?_⟩
  · rw [hes]
    exact List.map_fst_zip (by rw [NodeId.length_entries, hes])
  · refine hr.append (halike₁.trans halike₃) ?_ ?_ ?_
    · rw [Turn.known_append, Turn.arrived_append, hes]
      exact hs₃
    · intro t ht q hq
      obtain rfl := List.mem_singleton.mp ht
      exact (NodeId.mem_entries.mp (List.of_mem_zip hq).1).1 ▸ hn
    · intro t ht q hq
      obtain rfl := List.mem_singleton.mp ht
      exact (hinputs q.1 (List.of_mem_zip hq).1).1
  · intro q hq
    obtain ⟨-, hi, hk⟩ := hinputs q.1 (List.of_mem_zip hq).1
    rw [Turn.known_append, hes]
    exact ⟨hi, hk⟩

theorem Took.node {t : Turn} (h : Took book a n s t) : t.node = n := by
  cases h
  rfl

end Turns

section Along
variable (book : RuleBook) (p : Problem) (a : Ambient) (work : Workspace)

/-- Between two turns: the slots hold what the turns so far say, a node has its turn if it is an operator by then, nothing
is passed on to a node that has had its turn, and all that was aggregated was handed on in full. -/
structure Along (before : List NodeId) (turns : List Turn) (s : Stage) : Prop where
  recorded : Recorded work.heap.width p s.sweep.mirrors (p.order work.heap) turns s.sweep
  seeded : ∀ q ∈ p.ys.zip p.seeds, q.1.node ∈ p.order work.heap
  nodes : (turns.map Turn.node).Sublist before
  operators : ∀ n ∈ before, n ∈ turns.map Turn.node ↔ Operates book p a work n
  taken : ∀ t ∈ turns, Taken book p a work t
  keys : ∀ t ∈ turns, t.totals.map Prod.fst = work.heap.entries t.node
  inOrder : turns.Pairwise fun t t' => ∀ q ∈ t'.grads, q.1.node ≠ t.node
  noLoop : ∀ t ∈ turns, ∀ q ∈ t.grads, q.1.node ≠ t.node
  handed : ∀ q ∈ Turn.known turns, Handed book p a work q.1 ((Turn.arrived p turns q.1).map .entry) (.entry q.2)

variable {book p a work}
variable {before after : List NodeId} {turns : List Turn} {n : NodeId} {s s' : Stage}

theorem Along.first (h : upTo book [] a (start p work) = .ok () s) : Along book p a work [] [] s := by
  unfold upTo at h
  obtain ⟨_, s₁, hprepare, h⟩ := ok_of_bind h
  obtain ⟨verbose, w, hflag, h⟩ := Sweeping.ok_of_lift h
  cases h
  obtain ⟨-, hr, hseeds, -⟩ := prepare_ok (p := p) rfl hprepare
  exact ⟨hr, hseeds, .slnil, by simp, by simp, by simp, .nil, by simp, by simp [Turn.known]⟩

theorem Along.totals (h : Along book p a work before turns s) {t : Turn} (ht : t ∈ turns) {q : Entry × Entry}
    (hq : q ∈ t.totals) : q.1.node = t.node := by
  have hkey : q.1 ∈ t.totals.map Prod.fst := List.mem_map_of_mem hq
  rw [h.keys t ht] at hkey
  exact (Heap.mem_entries.mp hkey).1

theorem Turn.not_mem_of_untotalled {h : Heap} {turns : List Turn}
    (hkeys : ∀ t ∈ turns, t.totals.map Prod.fst = h.entries t.node) {e : Entry} (hi : e.index < h.width e.node)
    (hnone : Ledger.get? (Turn.known turns) e = none) : e.node ∉ turns.map Turn.node := by
  rw [Ledger.get?_eq_none_iff] at hnone
  intro hmem
  obtain ⟨t, ht, hnode⟩ := List.mem_map.mp hmem
  have hkey : e ∈ t.totals.map Prod.fst := by
    rw [hkeys t ht, Heap.entries_eq_width, hnode]
    exact NodeId.mem_entries.mpr ⟨rfl, hi⟩
  obtain ⟨q, hq, hqe⟩ := List.mem_map.mp hkey
  exact hnone q (List.mem_flatMap.mpr ⟨t, ht, hq⟩) hqe

/-- A slot has a total if its node has had its turn. -/
theorem Along.get?_known_eq_none_iff (h : Along book p a work before turns s) {e : Entry}
    (hi : e.index < work.heap.width e.node) :
    Ledger.get? (Turn.known turns) e = none ↔ e.node ∉ turns.map Turn.node := by
  constructor
  · exact Turn.not_mem_of_untotalled h.keys hi
  · intro hmem
    refine Turn.get?_known_eq_none fun t ht q hq hqe => hmem ?_
    rw [← hqe, h.totals ht hq]
    exact List.mem_map_of_mem ht

section Coming
variable (h : Along book p a work before turns s) (horder : (p.order work.heap).reverse = before ++ n :: after)
include h horder

theorem Along.coming : n ∉ turns.map Turn.node := by
  have hnd := nodup_backwards p work.heap
  rw [horder] at hnd
  exact fun hn => (List.nodup_append.mp hnd).2.2 n (h.nodes.mem hn) n (by simp) rfl

theorem Along.untotalled : ∀ t ∈ turns, ∀ q ∈ t.totals, q.1.node ≠ n := fun t ht q hq hqn =>
  h.coming horder (by rw [← hqn, h.totals ht hq]; exact List.mem_map_of_mem ht)

/-- The outputs of a node that comes up have no total yet, up to the one that is aggregated next. -/
theorem Along.slotAt (hf : p.aggregate.Returns) {done todo : List Entry} {e : Entry} {totals : List Value}
    (he : work.heap.entries n = done ++ e :: todo) (hdone : Sweep.aggregateAll done a s = .ok totals s') :
    s'.sweep.slotAt s'.work.heap e = .ok { partials := (Turn.arrived p turns e).map .entry } ∧
      s'.sweep.problem = p := by
  have hn : n ∈ p.order work.heap := List.mem_reverse.mp (by rw [horder]; simp)
  obtain ⟨es, -, hlen, halike, hs⟩ := aggregateAll_recorded hf h.recorded hn (h.untotalled horder) he hdone
  obtain ⟨rfl, hi⟩ := NodeId.mem_entries.mp (show e ∈ work.heap.entries n by rw [he]; simp)
  refine ⟨?_, halike.problem.trans h.recorded.problem⟩
  rw [hs.slotAt hn hi]
  have hnd := work.heap.nodup_entries e.node
  rw [he] at hnd
  have hk : Ledger.get? (Turn.known turns ++ done.zip es) e = none := by
    rw [Ledger.get?_append, (h.get?_known_eq_none_iff hi).mpr (h.coming horder), Option.none_or, Ledger.get?_eq_none_iff]
    rintro ⟨e', v⟩ hq rfl
    exact (List.nodup_append.mp hnd).2.2 e' (List.of_mem_zip hq).1 e' (by simp) rfl
  simp [Slot.of, hk]

theorem Along.slotsOf : s.sweep.slotsOf s.work.heap n =
    .ok ((work.heap.entries n).map (Slot.of (Turn.arrived p turns) (Turn.known turns))) :=
  h.recorded.holds.slotsOf (List.mem_reverse.mp (by rw [horder]; simp)) _

theorem Along.entries_slots {slots : List Slot} (hslots : s.sweep.slotsOf s.work.heap n = .ok slots) :
    n.entries slots.length = work.heap.entries n := by
  rw [h.slotsOf horder] at hslots
  rw [← Except.ok.inj hslots, List.length_map, Heap.entries_eq_width, NodeId.length_entries]

theorem Along.handed_totals (hf : p.aggregate.Returns) (hn : ComesTo book p a work n s) {t : Turn}
    (ht : Took book a n s t) :
    ∀ q ∈ t.totals, Handed book p a work q.1 ((Turn.arrived p turns q.1).map .entry) (.entry q.2) := by
  intro q hq
  cases ht with
  | @turn totals grads s₂ hrule hcount =>
    obtain @⟨slots, s₁, hop, hslots, hagg, hrule⟩ := hrule
    have hmem : (q.1, Value.entry q.2) ∈ (n.entries slots.length).zip (totals.map .entry) := by
      have hsame : totals.length = slots.length := by
        have hlength := aggregateAll_length hagg
        rwa [List.length_map, NodeId.length_entries] at hlength
      rw [List.zip_map_right, ← hsame]
      exact List.mem_map.mpr ⟨q, hq, rfl⟩
    obtain ⟨done, todo, vs, s₂, s₃, he, hdone, hat⟩ := aggregateAll_split hagg hmem
    obtain ⟨hslot, hproblem⟩ := h.slotAt horder hf ((h.entries_slots horder hslots).symm.trans he) hdone
    obtain ⟨w, hcall⟩ := aggregateAt_calls hslot hat
    exact ⟨s₂, w, .output hn hop hslots he hdone, hslot, hproblem ▸ hcall⟩

theorem Along.skip (hn : ComesTo book p a work n s) (hop : (s.work.heap.node n).op = none) :
    Along book p a work (before ++ [n]) turns s := by
  refine { h with nodes := h.nodes.trans (List.sublist_append_left ..), operators := fun k hk => ?_ }
  rcases List.mem_append.mp hk with hk | hk
  · exact h.operators k hk
  · obtain rfl := List.mem_singleton.mp hk
    simp [hn.operates_iff, hop, h.coming horder]

theorem Along.operators_concat (hn : Operates book p a work n) {t : Turn} (hnode : t.node = n) :
    ∀ k ∈ before ++ [n], k ∈ (turns ++ [t]).map Turn.node ↔ Operates book p a work k := by
  intro k hk
  rw [List.map_append, List.mem_append]
  rcases List.mem_append.mp hk with hk | hk
  · rw [h.operators k hk, or_iff_left_iff_imp]
    intro hkn
    have hkn : k = n := by simpa [hnode] using hkn
    have hnd := nodup_backwards p work.heap
    rw [horder] at hnd
    exact absurd hkn ((List.nodup_append.mp hnd).2.2 k hk n (by simp))
  · obtain rfl := List.mem_singleton.mp hk
    simp [hnode, hn]

theorem Along.step (hf : p.aggregate.Returns) (hn : ComesTo book p a work n s) {level : Level}
    (hrun : Sweep.step book level n a s = .ok () s') :
    ∃ new, Along book p a work (before ++ [n]) (turns ++ new) s' ∧
      ((s.work.heap.node n).op = none ∧ new = [] ∨ ∃ t, Took book a n s t ∧ new = [t]) := by
  obtain ⟨hop, rfl⟩ | ⟨hop, t, ht, hkeys, hr, hgrads⟩ := step_took hf h.recorded (h.untotalled horder) hrun
  · exact ⟨[], by rw [List.append_nil]; exact h.skip horder hn hop, .inl ⟨hop, rfl⟩⟩
  have hnode := ht.node
  have htaken : Taken book p a work t := ⟨s, hnode ▸ hn, hnode.symm ▸ ht⟩
  have hmirrors := ((settled_step book level n).ok hrun).mirrors
  have hkeys : ∀ t' ∈ turns ++ [t], t'.totals.map Prod.fst = work.heap.entries t'.node :=
    List.forall_mem_append.mpr ⟨h.keys, by simp [hkeys, hnode, Heap.entries_eq_width]⟩
  -- a slot with a total takes no gradient, and all slots of the nodes so far have one by now
  have hspent : ∀ t' ∈ turns ++ [t], ∀ q ∈ t.grads, q.1.node ≠ t'.node := by
    intro t' ht' q hq hqe
    obtain ⟨hi, hnone⟩ := hgrads q hq
    exact Turn.not_mem_of_untotalled hkeys hi hnone (hqe ▸ List.mem_map_of_mem ht')
  refine ⟨[t], ?_, .inr ⟨t, ht, rfl⟩⟩
  refine ⟨hmirrors ▸ hr, h.seeded, ?_, h.operators_concat horder (hn.operates_iff.mpr hop) hnode, ?_, hkeys, ?_, ?_, ?_⟩
  · rw [List.map_append]
    exact h.nodes.append (by simp [hnode])
  · exact List.forall_mem_append.mpr ⟨h.taken, List.forall_mem_singleton.mpr htaken⟩
  · refine List.pairwise_append.mpr ⟨h.inOrder, List.pairwise_singleton .., fun t' ht' t'' ht'' => ?_⟩
    obtain rfl := List.mem_singleton.mp ht''
    exact hspent t' (List.mem_append_left _ ht')
  · exact List.forall_mem_append.mpr ⟨h.noLoop, List.forall_mem_singleton.mpr (hspent t (by simp))⟩
  · intro q hq
    -- what was handed on for an entry stays complete, as nothing arrives for it any more
    have hnil : Turn.passedTo t.grads q.1 = [] := Turn.passedTo_eq_nil fun q' hq' hqe =>
      Ledger.get?_eq_none_iff.mp (hgrads q' hq').2 q hq hqe.symm
    have harrived : Turn.arrived p (turns ++ [t]) q.1 = Turn.arrived p turns q.1 := by
      rw [Turn.arrived_append]
      simp only [hnil, List.append_nil]
    rw [harrived]
    rw [Turn.known_append] at hq
    rcases List.mem_append.mp hq with hq | hq
    · exact h.handed q hq
    · exact h.handed_totals horder hf hn ht q hq

end Coming

/-- The last turn brings nothing for nodes that have had their turn. -/
theorem Along.arrived_concat {t : Turn} (h : Along book p a work before (turns ++ [t]) s) {e : Entry}
    (he : e.node ∈ (turns ++ [t]).map Turn.node) : Turn.arrived p (turns ++ [t]) e = Turn.arrived p turns e := by
  have hnil : Turn.passedTo t.grads e = [] := by
    refine Turn.passedTo_eq_nil fun q hq hqe => ?_
    obtain ⟨t', ht', hnode⟩ := List.mem_map.mp he
    rw [← hqe] at hnode
    rcases List.mem_append.mp ht' with ht' | ht'
    · exact (List.pairwise_append.mp h.inOrder).2.2 t' ht' t (by simp) q hq hnode.symm
    · obtain rfl := List.mem_singleton.mp ht'
      exact h.noLoop t' (by simp) q hq hnode.symm
  rw [Turn.arrived_append]
  simp only [hnil, List.append_nil]

theorem along_upTo (hf : p.aggregate.Returns) (before : List NodeId) :
    ∀ {after : List NodeId} {s : Stage}, (p.order work.heap).reverse = before ++ after →
      upTo book before a (start p work) = .ok () s → ∃ turns, Along book p a work before turns s := by
  -- a run is longer by its last node, so the induction is from the end
  induction before using List.reverseRecOn with
  | nil => exact fun _ hrun => ⟨[], .first hrun⟩
  | append_singleton before n ih =>
    intro after s horder hrun
    obtain ⟨s₁, level, hbefore, hstep⟩ := upTo_concat hrun
    rw [List.append_assoc, List.singleton_append] at horder
    obtain ⟨turns, h⟩ := ih horder hbefore
    obtain ⟨new, h', -⟩ := h.step horder hf ⟨before, after, horder, hbefore⟩ hstep
    exact ⟨turns ++ new, h'⟩

theorem along_comesTo (hf : p.aggregate.Returns) (h : ComesTo book p a work n s) :
    ∃ before after turns, (p.order work.heap).reverse = before ++ n :: after ∧ Along book p a work before turns s := by
  obtain ⟨before, after, horder, hrun⟩ := h
  obtain ⟨turns, h⟩ := along_upTo hf before horder hrun
  exact ⟨before, after, turns, horder, h⟩

theorem Along.inputs (h : Along book p a work before turns s) {t : Turn} (ht : t ∈ turns)
    (hu : Undisturbed book p a work t.node) : t.grads.map Prod.fst = (work.heap.node t.node).inputs := by
  obtain ⟨s', hcomes, htook⟩ := h.taken t ht
  have hinputs := hu.inputs
  generalize t.node = n at hcomes htook hinputs ⊢
  cases htook with
  | turn hrule hcount =>
    show List.map Prod.fst (List.zip _ _) = _
    rw [List.map_fst_zip (Nat.le_of_eq hcount.symm), hinputs _ _ _ _ hcomes hrule]

/-- Where nothing is disturbed, the turns are those of the operators at the start, and pass on to the inputs at the
start. -/
theorem Along.undisturbed (h : Along book p a work before turns s) (hrun : upTo book before a (start p work) = .ok () s)
    (horder : (p.order work.heap).reverse = before ++ after) (hu : ∀ n ∈ before, Undisturbed book p a work n) :
    turns.map Turn.node = before.filter (fun n => (work.heap.node n).op.isSome) ∧
      ∀ t ∈ turns, t.grads.map Prod.fst = (work.heap.node t.node).inputs := by
  constructor
  · have hnd := nodup_backwards p work.heap
    rw [horder] at hnd
    refine eq_filter_of_sublist h.nodes (List.nodup_append.mp hnd).1 fun n hn => ?_
    obtain ⟨l, r, hsplit⟩ := List.append_of_mem hn
    obtain ⟨s', hrun'⟩ : ∃ s, upTo book l a (start p work) = .ok () s := upTo_left (hsplit ▸ hrun)
    have hcomes : ComesTo book p a work n s' := ⟨l, r ++ after, by rw [horder, hsplit]; simp, hrun'⟩
    rw [h.operators n hn, hcomes.operates_iff, (hu n hn).op s' hcomes]
  · exact fun t ht => h.inputs ht (hu _ (h.nodes.mem (List.mem_map_of_mem ht)))

end Along

section Assembled
variable (book : RuleBook) (p : Problem) (a : Ambient) (work : Workspace)

/-- When some requests have been answered: nothing more arrives, an entry that had no total has been given one, and all
that was aggregated was handed on in full. -/
structure Assembled (turns : List Turn) (xs outs : List Entry) (width : NodeId → Nat) (opened : List NodeId)
    (known : Ledger Entry Entry) (s : Stage) : Prop where
  problem : s.sweep.problem = p
  holds : s.sweep.Holds width opened (Slot.of (Turn.arrived p turns) known)
  visited : ∀ n ∈ p.order work.heap, n ∈ opened ∧ width n = work.heap.width n
  late : ∀ n ∈ opened, n ∈ p.order work.heap ∨ ∃ s, Opens book p a work n s ∧ width n = s.work.heap.width n
  unvisited : ∀ e : Entry, e.node ∉ opened → Turn.arrived p turns e = [] ∧ Ledger.get? known e = none
  outputs : xs.map (Ledger.get? known) = outs.map some
  made : ∃ made, known = Turn.known turns ++ made ∧ made.map Prod.fst = Turn.leftOver turns xs
  handed : ∀ q ∈ known, Handed book p a work q.1 ((Turn.arrived p turns q.1).map .entry) (.entry q.2)

variable {book p a work}
variable {turns : List Turn} {xs outs : List Entry} {width : NodeId → Nat} {opened : List NodeId}
  {known : Ledger Entry Entry} {x : Entry} {s s' : Stage}

theorem Along.assembled {before : List NodeId} (h : Along book p a work before turns s) :
    Assembled book p a work turns [] [] work.heap.width (p.order work.heap) (Turn.known turns) s where
  problem := h.recorded.problem
  holds := h.recorded.holds
  visited _ hn := ⟨hn, rfl⟩
  late _ hn := .inl hn
  unvisited _ he := h.recorded.unvisited h.seeded he
  outputs := rfl
  made := ⟨[], (List.append_nil _).symm, rfl⟩
  handed := h.handed

theorem Assembled.open (h : Assembled book p a work turns xs outs width opened known s)
    (hopens : Ledger.get? s.sweep.slots x.node = none → Opens book p a work x.node s)
    (hopen : ensureSlots x.node a s = .ok () s') :
    ∃ width', Assembled book p a work turns xs outs width' (x.node :: opened) known s' := by
  let width' := if x.node ∈ opened then width else Function.update width x.node (s.work.heap.width x.node)
  have hwidth : ∀ n ∈ opened, width' n = width n := by
    intro n hn
    by_cases ho : x.node ∈ opened
    · simp only [width', if_pos ho]
    · have hne : n ≠ x.node := fun hnx => ho (hnx ▸ hn)
      simp only [width', if_neg ho, Function.update_of_ne hne]
  have hnew : x.node ∉ opened → width' x.node = s.work.heap.width x.node := fun ho => by
    simp only [width', if_neg ho, Function.update_self]
  obtain ⟨s₁, hrun, -, halike, hs⟩ := ensureSlots_run (a := a) (h.holds.of_width hwidth) hnew h.unvisited
  rw [hrun] at hopen
  cases hopen
  refine ⟨width', halike.problem.trans h.problem, hs, fun n hn => ?_, fun n hn => ?_, fun e he => ?_, h.outputs, h.made,
    h.handed⟩
  · obtain ⟨ho, hw⟩ := h.visited n hn
    exact ⟨List.mem_cons_of_mem _ ho, (hwidth n ho).trans hw⟩
  · by_cases ho : n ∈ opened
    · rw [hwidth n ho]
      exact h.late n ho
    · obtain rfl : n = x.node := (List.mem_cons.mp hn).resolve_right ho
      have hnone : Ledger.get? s.sweep.slots x.node = none := by rw [h.holds x.node, if_neg ho]
      exact .inr ⟨s, hopens hnone, hnew ho⟩
  · exact h.unvisited e fun ho => he (List.mem_cons_of_mem _ ho)

theorem Assembled.get?_eq_none_iff (h : Assembled book p a work turns xs outs width opened known s)
    (hturned : Ledger.get? (Turn.known turns) x = none ↔ x.node ∉ turns.map Turn.node) :
    Ledger.get? known x = none ↔ ¬ (x ∈ xs ∨ x.node ∈ turns.map Turn.node) := by
  obtain ⟨made, hknown, hmade⟩ := h.made
  have hnot : Ledger.get? made x = none ↔ x ∉ Turn.leftOver turns xs := by
    rw [Ledger.get?_eq_none_iff, ← hmade, List.mem_map, not_exists]
    exact forall_congr' fun q => not_and.symm
  rw [hknown, Ledger.get?_append, Option.or_eq_none_iff, hturned, hnot, Turn.mem_leftOver]
  tauto

theorem Assembled.again (h : Assembled book p a work turns xs outs width opened known s)
    (hturned : Ledger.get? (Turn.known turns) x = none ↔ x.node ∉ turns.map Turn.node) (ho : x.node ∈ opened)
    (hi : x.index < width x.node) {total : Entry} (hk : Ledger.get? known x = some total) :
    ∃ s', aggregateAt x a s = .ok (.entry total) s' ∧
      Assembled book p a work turns (xs ++ [x]) (outs ++ [total]) width opened known s' := by
  obtain ⟨made, hknown, hmade⟩ := h.made
  obtain ⟨s', hrun, -, halike, hs⟩ := aggregateAt_known (a := a) h.holds ho hi hk
  have hold : x ∈ xs ∨ x.node ∈ turns.map Turn.node := by
    by_contra hx
    rw [(h.get?_eq_none_iff hturned).mpr hx] at hk
    cases hk
  refine ⟨s', hrun, halike.problem.trans h.problem, hs, h.visited, h.late, h.unvisited, ?_, ⟨made, hknown, ?_⟩, h.handed⟩
  · rw [List.map_append, List.map_append, h.outputs, List.map_singleton, List.map_singleton, hk]
  · rw [Turn.leftOver_concat, if_pos hold, List.append_nil, hmade]

theorem Assembled.outputs_concat (h : Assembled book p a work turns xs outs width opened known s)
    (hk : Ledger.get? known x = none) (total : Entry) :
    (xs ++ [x]).map (Ledger.get? (known ++ [(x, total)])) = (outs ++ [total]).map some := by
  have hxs : xs.map (Ledger.get? (known ++ [(x, total)])) = xs.map (Ledger.get? known) := by
    refine List.map_congr_left fun y hy => ?_
    obtain ⟨out, -, hout⟩ := List.mem_map.mp (h.outputs ▸ List.mem_map_of_mem hy)
    rw [Ledger.get?_append, ← hout, Option.some_or]
  have hx : Ledger.get? (known ++ [(x, total)]) x = some total := by
    simp [Ledger.get?_append, hk, Ledger.get?]
  rw [List.map_append, List.map_append, hxs, h.outputs, List.map_singleton, List.map_singleton, hx]

theorem Assembled.answer (hf : p.aggregate.Returns) (h : Assembled book p a work turns xs outs width opened known s)
    (hturned : x.index < width x.node → (Ledger.get? (Turn.known turns) x = none ↔ x.node ∉ turns.map Turn.node))
    (hmoment : Aggregates book p a work x s) {v : Value} (hrun : aggregateAt x a s = .ok v s') :
    ∃ out known', v = .entry out ∧ Assembled book p a work turns (xs ++ [x]) (outs ++ [out]) width opened known' s' := by
  obtain ⟨slot, w, hslot, hcall, -⟩ := aggregateAt_ok hrun
  obtain ⟨ho, hi, rfl⟩ := h.holds.slotAt_ok hslot
  cases hk : Ledger.get? known x with
  | some total =>
    obtain ⟨s₁, hrun₁, hs⟩ := h.again (hturned hi) ho hi hk
    rw [hrun₁] at hrun
    cases hrun
    exact ⟨total, known, rfl, hs⟩
  | none =>
    have hslot : s.sweep.slotAt s.work.heap x = .ok { partials := (Turn.arrived p turns x).map .entry } := by
      rw [hslot]
      simp [Slot.of, hk]
    obtain ⟨w, hcall⟩ := aggregateAt_calls hslot hrun
    rw [h.problem] at hcall
    obtain ⟨made, hknown, hmade⟩ := h.made
    obtain ⟨total, -, rfl, halike, hs⟩ := (aggregateAt_tracks (h.problem ▸ hf) h.holds ho hi hk).ok hrun
    refine ⟨total, known ++ [(x, total)], rfl, halike.problem.trans h.problem, hs, h.visited, h.late, ?_,
      h.outputs_concat hk total, ?_, ?_⟩
    · intro e he
      have hne : x ≠ e := fun hxe => he (hxe ▸ ho)
      exact ⟨(h.unvisited e he).1, Ledger.get?_concat_of_ne (h.unvisited e he).2 hne⟩
    · refine ⟨made ++ [(x, total)], by rw [hknown, List.append_assoc], ?_⟩
      rw [Turn.leftOver_concat, if_neg ((h.get?_eq_none_iff (hturned hi)).mp hk), List.map_append, hmade]
      rfl
    · intro q hq
      rcases List.mem_append.mp hq with hq | hq
      · exact h.handed q hq
      · obtain rfl := List.mem_singleton.mp hq
        exact ⟨s, w, hmoment, hslot, hcall⟩

/-- A node that has had its turn was visited, and has the slots that it was given then. -/
theorem Assembled.turned {visited : List NodeId} {s₀ : Stage}
    (h : Assembled book p a work turns xs outs width opened known s) (halong : Along book p a work visited turns s₀)
    (hi : x.index < width x.node) :
    Ledger.get? (Turn.known turns) x = none ↔ x.node ∉ turns.map Turn.node := by
  by_cases hn : x.node ∈ p.order work.heap
  · exact halong.get?_known_eq_none_iff ((h.visited _ hn).2 ▸ hi)
  · have hnode : x.node ∉ turns.map Turn.node := fun hmem => by
      obtain ⟨t, ht, hnode⟩ := List.mem_map.mp hmem
      obtain ⟨_, hcomes, -⟩ := halong.taken t ht
      exact hn (hnode ▸ hcomes.mem_order)
    exact iff_of_true (halong.recorded.unvisited halong.seeded hn).2 hnode

theorem assembled_assembleAll (hf : p.aggregate.Returns)
    (hturns : upTo book (p.order work.heap).reverse a (start p work) = .ok () s) {visited : List NodeId}
    (halong : Along book p a work visited turns s) (before : List Entry) :
    ∀ {after : List Entry} {totals : List Value} {s' : Stage}, p.xs = before ++ after →
      assembleAll before a s = .ok totals s' → ∃ outs width opened known, totals = outs.map .entry ∧
        Assembled book p a work turns before outs width opened known s' := by
  induction before using List.reverseRecOn with
  | nil =>
    intro after totals s' _ hrun
    cases hrun
    exact ⟨[], _, _, _, rfl, halong.assembled⟩
  | append_singleton before x ih =>
    intro after totals s' hxs hrun
    obtain ⟨totals, v, s₁, s₂, rfl, hbefore, hopen, hat⟩ := assembleAll_concat hrun
    rw [List.append_assoc, List.singleton_append] at hxs
    obtain ⟨outs, width, opened, known, rfl, h⟩ := ih hxs hbefore
    obtain ⟨width', h'⟩ := h.open (fun hnone => .request hturns hxs hbefore hnone) hopen
    obtain ⟨out, known', rfl, h''⟩ := h'.answer hf (h'.turned halong) (.request hturns hxs hbefore hopen) hat
    exact ⟨outs ++ [out], width', _, known', by simp, h''⟩

/-- A run that succeeds has gone through its turns, and then answered the requests. -/
theorem run_ok (hf : p.aggregate.Returns) {g : Graph} {stage : Stage}
    (h : Sweep.run { problem := p } book a work = .ok g stage) :
    ∃ s turns width opened known, upTo book (p.order work.heap).reverse a (start p work) = .ok () s ∧
      Along book p a work (p.order work.heap).reverse turns s ∧
      assembleAll p.xs a s = .ok (g.outputs.map .entry) stage ∧
      Assembled book p a work turns p.xs g.outputs width opened known stage := by
  rw [run_eq] at h
  obtain ⟨_, s, hturns, hassemble⟩ := ok_of_bind h
  obtain ⟨turns, halong⟩ := along_upTo hf _ (List.append_nil _).symm hturns
  obtain ⟨totals, hall, houtputs⟩ := assemble_ok hassemble
  obtain ⟨outs, width, opened, known, rfl, hs⟩ := assembled_assembleAll hf hturns halong _ (List.append_nil _).symm hall
  rw [Value.itemsToEntries_map_entry] at houtputs
  cases Except.ok.inj houtputs
  exact ⟨s, turns, width, opened, known, hturns, halong, hall, hs⟩

end Assembled

end Sweep

end Backprop
