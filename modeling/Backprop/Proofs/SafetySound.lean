import Backprop.Proofs.Moments
import Backprop.Proofs.RecipeSound
import Backprop.Proofs.TurnSound

/-!
# What cannot go wrong inside

On a graph without cycles the failures that the sweep guards against are out of
reach: no gradient comes late, no node is missing from the mirror map, and
every slot that is looked up is there. A run that ends with such a fault was
given it by the aggregator, a rule or a selector that was handed in, or had a
node taken apart under its hands by one of them (`Undisturbed`).
-/

namespace Backprop

/-- The faults by which the sweep reports that its own bookkeeping is broken. -/
def Fault.isInternal : Fault → Bool
  | .gradient (.lateContribution _) => true
  | .gradient (.notMirrored _) => true
  | .gradient (.mirroredOutOfOrder _) => true
  | .unvisited _ => true
  | .misuse .indexOutOfRange => true
  | _ => false

/-- The fault was raised by what the caller handed in. -/
inductive Raised (book : RuleBook) (p : Problem) (a : Ambient) (e : Fault) : Prop
  | aggregator {grads : List Value} {w w' : Workspace} (h : p.aggregate grads a w = .error e w')
  | rule {path : String} {r : Registration} {f : Rule} {n : NodeId} {grads : List Value} {w w' : Workspace}
      (hr : (path, r) ∈ book) (hf : r.implementation.rule = some f) (h : f n grads a w = .error e w')
  | applies {path : String} {r : Registration} {n : NodeId} {node : Node} (hr : (path, r) ∈ book)
      (h : r.implementation.applies.holds n node = .error e)
  | mirror {test : Selector} {n : NodeId} {node : Node} (ht : p.mirror = some test) (h : test.holds n node = .error e)

/-! ## Where faults come from -/

theorem Datum.index_fault {d : Datum} {key : String} {e : Fault} (h : d.index key = .error e) :
    e.isInternal = false := by
  unfold index at h
  split at h
  · split at h <;> cases h
    rfl
  · next hkey => cases hkey
  · next hkey => cases hkey
  · cases h
    rfl

theorem Datum.getPath_fault : ∀ {path : List String} {d : Datum} {e : Fault}, d.getPath path = .error e →
    e.isInternal = false
  | [], _, _, h => by cases h
  | key :: rest, d, e, h => by
    rw [getPath] at h
    cases hi : d.index key with
    | ok sub => rw [hi] at h; exact getPath_fault h
    | error f => rw [hi] at h; cases h; exact index_fault hi

theorem Profile.get_fault {profile : Profile} {path : List String} {e : Fault} (h : profile.get path = .error e) :
    e.isInternal = false := by
  unfold Profile.get Settings.get at h
  dsimp only at h
  split at h
  · cases h
  · exact Datum.getPath_fault h

theorem Profile.getFlag_fault {profile : Profile} {path : List String} {e : Fault}
    (h : profile.getFlag path = .error e) : e.isInternal = false := by
  unfold Profile.getFlag Settings.getFlag at h
  cases hg : profile.settings.get profile.env path with
  | ok d => rw [hg] at h; cases h
  | error f =>
    rw [hg] at h
    cases h
    have hget : profile.get path = .error e := hg
    exact Profile.get_fault hget

theorem Heap.checkOrder_fault {h : Heap} {order : List NodeId} {e : Fault} (hc : h.checkOrder order = .error e) :
    e.isInternal = false := by
  unfold checkOrder at hc
  split at hc
  · next fault hf =>
    cases hc
    obtain ⟨n, -, hn⟩ := List.exists_of_findSome?_eq_some hf
    unfold flaw? Node.flaw? at hn
    obtain ⟨l, -, hl⟩ := Option.bind_eq_some_iff.mp hn
    unfold Links.flaw? at hl
    split at hl <;> cases hl
    · rfl
    · split <;> rfl
  · cases hc

section Faults
variable {book : RuleBook} {p : Problem} {a : Ambient}

theorem RuleBook.candidates_fault {op : String} {n : NodeId} {node : Node} {e : Fault} : ∀ {rest : RuleBook},
    (∀ q ∈ rest, q ∈ book) → RuleBook.candidates op n node rest = .error e → e.isInternal = true → Raised book p a e
  | [], _, h, _ => by cases h
  | (path, r) :: rest, hsub, h, hi => by
    have ih : RuleBook.candidates op n node rest = .error e → Raised book p a e :=
      fun h => candidates_fault (fun q hq => hsub q (List.mem_cons_of_mem _ hq)) h hi
    rw [candidates] at h
    split at h
    · cases h
      cases hi
    · split at h
      · split at h
        · next f hf =>
          cases h
          exact .applies (hsub (path, r) (by simp)) hf
        · cases hr : candidates op n node rest with
          | error f => rw [hr] at h; cases h; exact ih hr
          | ok found => rw [hr] at h; cases h
        · exact ih h
      · exact ih h

theorem RuleBook.lookup_fault {n : NodeId} {node : Node} {e : Fault} (h : book.lookup n node = .error e)
    (hi : e.isInternal = true) : Raised book p a e := by
  unfold lookup at h
  split at h
  · cases h
  · next op _ =>
    cases hc : candidates op.name n node book with
    | ok found => rw [hc] at h; cases h
    | error f => rw [hc] at h; cases h; exact candidates_fault (fun _ hq => hq) hc hi

theorem Build.visited_ends (w : Workspace) :
    Ends (Build.visited p) a w (fun _ w' => w'.heap = w.heap ∧ ∀ n ∈ p.order w.heap, w.heap.flaw? n = none)
      fun e => e.isInternal = false := by
  unfold Build.visited
  refine .step (r := w.heap) (u := w) rfl ?_
  cases hc : w.heap.checkOrder (p.order w.heap) with
  | error e => exact Heap.checkOrder_fault hc
  | ok u => exact ⟨rfl, Heap.flaw_none_of_checkOrder hc⟩

theorem Build.prepared_ends {w : Workspace} (hp : p.Fits w.heap) :
    Ends (Build.prepared p) a w (fun _ _ => True) fun e => e.isInternal = true → Raised book p a e := by
  have harr := hp.arranged
  unfold Build.prepared
  refine .step (r := w.heap) (u := w) rfl ?_
  refine .bind ((Build.visited_ends w).mono (fun _ _ h => h) fun e he hi => absurd hi (by simp [he])) ?_
  rintro _ w' ⟨hheap, hflaw⟩
  rw [← hheap] at hflaw harr ⊢
  refine (Build.mirrorMap_ends harr.settled (List.nodup_reverse.mp harr.nodup)
    (fun n hn => harr.has n (List.mem_reverse.mpr hn)) hflaw).mono (fun _ _ _ => trivial) ?_
  rintro e (⟨suffix, -, hsuffix⟩ | hget | ⟨test, ht, n, -, hn⟩) hi
  · unfold MirrorMap.suffixText at hsuffix
    split at hsuffix <;> cases hsuffix
    cases hi
  · exact absurd hi (by simp [Profile.get_fault hget])
  · exact .mirror ht hn

end Faults

/-! ## Consumers come first -/

theorem Problem.Fits.producers_after {p : Problem} {h : Heap} (hp : p.Fits h) {before after : List NodeId}
    {n k : NodeId} (horder : (p.order h).reverse = before ++ n :: after) (hk : k ∈ h.predecessors n) : k ∈ after := by
  have hs := hp.arranged.settled
  rw [horder] at hs
  exact hs.of_append k hk

theorem Problem.Fits.consumers_before {p : Problem} {h : Heap} (hp : p.Fits h) {before after : List NodeId}
    {n c : NodeId} (horder : (p.order h).reverse = before ++ n :: after) (hc : c ∈ p.order h)
    (hn : n ∈ h.predecessors c) : c ∈ before := by
  have harr := hp.arranged
  have hc' : c ∈ before ++ n :: after := horder ▸ List.mem_reverse.mpr hc
  rcases List.mem_append.mp hc' with hc' | hc'
  · exact hc'
  · exfalso
    obtain ⟨l, rest, hl⟩ := List.append_of_mem hc'
    have hsplit : (p.order h).reverse = (before ++ l) ++ c :: rest := by rw [horder, hl, List.append_assoc]
    have hrest : n ∈ rest := hp.producers_after hsplit hn
    have hsub : n ∈ after := by
      cases l with
      | nil => cases hl; exact hrest
      | cons k l => cases hl; simp [hrest]
    have hnd := harr.nodup
    rw [horder] at hnd
    exact (List.nodup_cons.mp (List.nodup_append.mp hnd).2.1).1 hsub

namespace Sweep

/-! ## Where a run fails -/

section Stops
variable {book : RuleBook} {p : Problem} {a : Ambient} {work : Workspace} {n : NodeId} {e : Fault}

theorem upTo_error (ns : List NodeId) : ∀ {s s' : Stage}, upTo book ns a s = .error e s' →
    upTo book [] a s = .error e s' ∨ ∃ before n after s₁ level, ns = before ++ n :: after ∧
      upTo book before a s = .ok () s₁ ∧ step book level n a s₁ = .error e s' := by
  induction ns using List.reverseRecOn with
  | nil => exact fun h => .inl h
  | append_singleton ns n ih =>
    intro s s' h
    cases hns : upTo book ns a s with
    | ok _ s₁ =>
      obtain ⟨level, hrun⟩ := upTo_concat_run hns n
      exact .inr ⟨ns, n, [], s₁, level, rfl, hns, hrun.symm.trans h⟩
    | error f s₁ =>
      rw [upTo_concat_error hns] at h
      cases h
      refine (ih hns).imp_right ?_
      rintro ⟨before, k, after, s₂, level, rfl, hbefore, hstep⟩
      exact ⟨before, k, after ++ [n], s₂, level, by simp, hbefore, hstep⟩

theorem aggregateAll_error : ∀ {es : List Entry} {s s' : Stage}, aggregateAll es a s = .error e s' →
    ∃ before x after totals s₁, es = before ++ x :: after ∧ aggregateAll before a s = .ok totals s₁ ∧
      aggregateAt x a s₁ = .error e s'
  | [], _, _, h => by cases h
  | x :: es, s, s', h => by
    rw [aggregateAll] at h
    obtain hone | ⟨v, s₁, hone, hrest⟩ := error_of_bind h
    · exact ⟨[], x, es, [], s, rfl, rfl, hone⟩
    · obtain hrest | ⟨_, _, -, hnil⟩ := error_of_bind hrest
      · obtain ⟨before, y, after, totals, s₂, rfl, hbefore, hy⟩ := aggregateAll_error hrest
        refine ⟨x :: before, y, after, v :: totals, s₂, rfl, ?_, hy⟩
        rw [aggregateAll, run_bind_ok hone, run_bind_ok hbefore]
        rfl
      · cases hnil

theorem assembleAll_error : ∀ {xs : List Entry} {s s' : Stage}, assembleAll xs a s = .error e s' →
    ∃ before x after totals s₁ s₂, xs = before ++ x :: after ∧ assembleAll before a s = .ok totals s₁ ∧
      ensureSlots x.node a s₁ = .ok () s₂ ∧ aggregateAt x a s₂ = .error e s'
  | [], _, _, h => by cases h
  | x :: xs, s, s', h => by
    rw [assembleAll] at h
    obtain hopen | ⟨_, s₁, hopen, hrest⟩ := error_of_bind h
    · cases hopen
    obtain hone | ⟨v, s₂, hone, hrest⟩ := error_of_bind hrest
    · exact ⟨[], x, xs, [], s, s₁, rfl, rfl, hopen, hone⟩
    · obtain hrest | ⟨_, _, -, hnil⟩ := error_of_bind hrest
      · obtain ⟨before, y, after, totals, s₃, s₄, rfl, hbefore, hy⟩ := assembleAll_error hrest
        refine ⟨x :: before, y, after, v :: totals, s₃, s₄, rfl, ?_, hy⟩
        rw [assembleAll, run_bind_ok hopen, run_bind_ok hone, run_bind_ok hbefore]
        rfl
      · cases hnil

theorem scatter_error : ∀ {pairs : List (Entry × Value)} {s s' : Stage}, scatter n pairs a s = .error e s' →
    ∃ before input grad after s₁, pairs = before ++ (input, grad) :: after ∧ scatter n before a s = .ok () s₁ ∧
      scatterOne n input grad a s₁ = .error e s'
  | [], _, _, h => by cases h
  | (input, grad) :: pairs, s, s', h => by
    rw [scatter] at h
    obtain hone | ⟨_, s₁, hone, hrest⟩ := error_of_bind h
    · exact ⟨[], input, grad, pairs, s, rfl, rfl, hone⟩
    · obtain ⟨before, input', grad', after, s₂, rfl, hbefore, hlast⟩ := scatter_error hrest
      refine ⟨(input, grad) :: before, input', grad', after, s₂, rfl, ?_, hlast⟩
      rw [scatter, run_bind_ok hone, hbefore]

variable (book p a work e) in
inductive Stops : Prop
  | slots {n : NodeId} {s : Stage} (hn : ComesTo book p a work n s) (h : s.sweep.slotsOf s.work.heap n = .error e)
  | aggregating {x : Entry} {s s' : Stage} (hx : Aggregates book p a work x s) (h : aggregateAt x a s = .error e s')
  | applying {n : NodeId} {slots : List Slot} {totals : List Value} {s s₁ s' : Stage} (hn : ComesTo book p a work n s)
      (haggregate : aggregateAll (n.entries slots.length) a s = .ok totals s₁)
      (h : applyRule book n totals a s₁ = .error e s')
  | counting {n : NodeId} {count expected : Nat} {s s' : Stage}
      (h : blame (α := Unit) n (fun op name => .gradientCount op name count expected) a s = .error e s')
  | passing {n : NodeId} {input : Entry} {grad : Value} {s s' : Stage} (hn : PassesOn book p a work n input grad s)
      (h : scatterOne n input grad a s = .error e s')

theorem stops_of_step {level : Level} {s s' : Stage} (hn : ComesTo book p a work n s)
    (h : step book level n a s = .error e s') : Stops book p a work e := by
  unfold step at h
  rw [run_bind_ok (r := s.work.heap) (u := s) rfl] at h
  cases hop : (s.work.heap.node n).op with
  | none => simp only [hop] at h; cases h
  | some op =>
    have hsome : (s.work.heap.node n).op.isSome := by rw [hop]; rfl
    simp only [hop] at h
    rw [run_bind_ok (r := s.sweep) (u := s) rfl, run_bind_ok (r := s.work.heap) (u := s) rfl] at h
    cases hslots : s.sweep.slotsOf s.work.heap n with
    | error f =>
      rw [hslots] at h
      cases h
      exact .slots hn hslots
    | ok slots =>
      rw [hslots, run_bind_ok (r := slots) (u := s) rfl] at h
      obtain hagg | ⟨totals, s₁, hagg, h⟩ := error_of_bind h
      · obtain ⟨before, x, after, totals, s₁, hentries, hbefore, hx⟩ := aggregateAll_error hagg
        exact .aggregating (.output hn hsome hslots hentries hbefore) hx
      obtain hrule | ⟨grads, s₂, hrule, h⟩ := error_of_bind h
      · exact .applying hn hagg hrule
      rw [run_bind_ok (r := s₂.work.heap) (u := s₂) rfl] at h
      split at h
      · next hcount =>
        obtain hscatter | ⟨_, s₃, hscatter, h⟩ := error_of_bind h
        · obtain ⟨before, input, grad, after, s₃, hpairs, hbefore, hlast⟩ := scatter_error hscatter
          exact .passing (.input hn (.rule hsome hslots hagg hrule) hcount hpairs hbefore) hlast
        · rw [run_bind_ok (r := s₃.work.heap) (u := s₃) rfl] at h
          cases h
      · exact .counting h

theorem run_error (hf : p.aggregate.Returns) {stage : Stage}
    (h : Sweep.run { problem := p } book a work = .error e stage) :
    upTo book [] a (start p work) = .error e stage ∨ Stops book p a work e := by
  rw [run_eq] at h
  obtain hturns | ⟨_, s, hturns, hassemble⟩ := error_of_bind h
  · refine (upTo_error _ hturns).imp_right ?_
    rintro ⟨before, n, after, s, level, horder, hbefore, hstep⟩
    exact stops_of_step ⟨before, after, horder, hbefore⟩ hstep
  · right
    unfold assemble at hassemble
    obtain hall | ⟨totals, s₁, hall, houtputs⟩ := error_of_bind hassemble
    · obtain ⟨before, x, after, totals, s₁, s₂, hxs, hbefore, hopen, hx⟩ := assembleAll_error hall
      exact .aggregating (.request hturns hxs hbefore hopen) hx
    · obtain ⟨turns, halong⟩ := along_upTo hf _ (List.append_nil _).symm hturns
      obtain ⟨outs, _, _, _, rfl, -⟩ := assembled_assembleAll hf hturns halong _ (List.append_nil _).symm hall
      rw [run_bind_ok (r := s₁.work.heap) (u := s₁) rfl, Value.itemsToEntries_map_entry] at houtputs
      cases houtputs

end Stops

/-! ## Slots that are looked up -/

section Lookups
variable {book : RuleBook} {p : Problem} {a : Ambient} {work : Workspace} {e : Entry} {n : NodeId} {s : Stage}

theorem Seeds.slotAt (hp : p.Fits work.heap) (h : Seeds p a work e s) :
    ∃ slot, s.sweep.slotAt s.work.heap e = .ok slot := by
  cases h with
  | @place before after y seed s₁ _ hpairs hvisit hbefore =>
    obtain ⟨-, -, -, -, -, -, hs⟩ := (visit_tracks (p := p) rfl).ok hvisit
    obtain ⟨s₂, hrun, -, -, hs₂⟩ := seeds_run (a := a) [] hs fun q hq =>
      hp.seeded q (by rw [hpairs]; exact List.mem_append_left _ hq)
    rw [hrun] at hbefore
    cases hbefore
    obtain ⟨ho, hi⟩ := hp.seeded (e, seed) (by rw [hpairs]; simp)
    exact ⟨_, hs₂.slotAt ho hi _⟩

theorem ComesTo.slotsOf (hf : p.aggregate.Returns) (h : ComesTo book p a work n s) :
    ∃ slots, s.sweep.slotsOf s.work.heap n = .ok slots := by
  obtain ⟨before, after, turns, horder, h⟩ := along_comesTo hf h
  exact ⟨_, h.slotsOf horder⟩

theorem Aggregates.has (hp : p.Fits work.heap) (h : Aggregates book p a work e s) : work.heap.Has e.node := by
  cases h with
  | output hn _ _ hentries _ =>
    have he := hentries.symm ▸ List.mem_append_right _ List.mem_cons_self
    exact (NodeId.mem_entries.mp he).1 ▸ Heap.has_of_mem_postorder hn.mem_order
  | request _ hxs => exact (hp.xs e (by rw [hxs]; simp)).1

theorem PassesOn.has {grad : Value} (h : PassesOn book p a work n e grad s) : work.heap.Has n := by
  cases h with
  | input hn => exact Heap.has_of_mem_postorder hn.mem_order

theorem Aggregates.slotAt (hp : p.Fits work.heap) (hf : p.aggregate.Returns) (h : Aggregates book p a work e s)
    (hu : Undisturbed book p a work e.node) :
    s.sweep.problem = p ∧ ∃ slot, s.sweep.slotAt s.work.heap e = .ok slot := by
  cases h with
  | output hn hop hslots hentries hbefore =>
    obtain ⟨before, after, turns, horder, h⟩ := along_comesTo hf hn
    rw [h.entries_slots horder hslots] at hentries
    obtain ⟨hslot, hproblem⟩ := h.slotAt horder hf hentries hbefore
    exact ⟨hproblem, _, hslot⟩
  | request hturns hxs hbefore hopen =>
    obtain ⟨turns, halong⟩ := along_upTo hf _ (List.append_nil _).symm hturns
    obtain ⟨outs, width, opened, known, -, h⟩ := assembled_assembleAll hf hturns halong _ hxs hbefore
    obtain ⟨width', h'⟩ := h.open (fun hnone => .request hturns hxs hbefore hnone) hopen
    have hx := hp.xs e (by rw [hxs]; simp)
    have hwidth : width' e.node = work.heap.width e.node := by
      rcases h'.late e.node (by simp) with hn | ⟨s', hs', hw⟩
      · exact (h'.visited _ hn).2
      · rw [hw, Heap.width, hu.outputs s' hs', Heap.width]
    exact ⟨h'.problem, _, h'.holds.slotAt (by simp) (hwidth ▸ hx.lt_width) _⟩

/-- The inputs that a node had at the start have their turn after it. -/
theorem Along.ahead (hp : p.Fits work.heap) {before after : List NodeId} {turns : List Turn}
    (h : Along book p a work before turns s) (horder : (p.order work.heap).reverse = before ++ n :: after)
    (he : e ∈ (work.heap.node n).inputs) (es : List Entry) :
    e.node ∈ p.order work.heap ∧ e.index < work.heap.width e.node ∧
      Ledger.get? (Turn.known turns ++ (work.heap.entries n).zip es) e = none := by
  have hafter := hp.producers_after horder (List.mem_append_left _ (List.mem_map_of_mem he))
  have hnd := nodup_backwards p work.heap
  rw [horder] at hnd
  have hn : n ∈ p.order work.heap := List.mem_reverse.mp (by rw [horder]; simp)
  have hi := (hp.wellFormed.inputs n (Heap.has_of_mem_postorder hn) e he).lt_width
  refine ⟨List.mem_reverse.mp (by rw [horder]; simp [hafter]), hi, ?_⟩
  have hturns : e.node ∉ turns.map Turn.node := fun hmem =>
    (List.nodup_append.mp hnd).2.2 _ (h.nodes.mem hmem) _ (List.mem_cons_of_mem _ hafter) rfl
  rw [Ledger.get?_append, (h.get?_known_eq_none_iff hi).mpr hturns, Option.none_or, Ledger.get?_eq_none_iff]
  rintro ⟨e', total⟩ hq rfl
  obtain ⟨hnode, -⟩ := Heap.mem_entries.mp (List.of_mem_zip hq).1
  exact (List.nodup_cons.mp (List.nodup_append.mp hnd).2.1).1 (hnode ▸ hafter)

/-- A slot that a gradient is passed on to has not been aggregated. -/
theorem PassesOn.slotAt {grad : Value} (hp : p.Fits work.heap) (hf : p.aggregate.Returns)
    (h : PassesOn book p a work n e grad s) (hu : Undisturbed book p a work n) :
    ∃ slot, s.sweep.slotAt s.work.heap e = .ok slot ∧ slot.total = none := by
  cases h with
  | @input totals grads before after _ _ s₀ s₁ _ hn hrule hcount hpairs hbefore =>
    obtain ⟨done, todo, turns, horder, h⟩ := along_comesTo hf hn
    rw [hu.inputs _ _ _ _ hn hrule] at hpairs
    obtain @⟨slots, s₂, -, hslots, hagg, happly⟩ := hrule
    rw [h.entries_slots horder hslots] at hagg
    obtain ⟨es, -, -, -, hs₂⟩ := aggregateAll_recorded hf h.recorded (List.mem_reverse.mp (by rw [horder]; simp))
      (h.untotalled horder) (List.append_nil _).symm hagg
    -- what has been passed on before changes partial gradients but no total
    have hunzip : before = (before.map Prod.fst).zip (before.map Prod.snd) := List.zip_of_prod rfl rfl
    rw [hunzip] at hbefore
    obtain ⟨_, -, -, hs, -⟩ := scatter_ok (by simp) ((applyRule_ok happly).1 ▸ hs₂) hbefore
    have he : e ∈ (work.heap.node n).inputs := (List.of_mem_zip (hpairs ▸ List.mem_append_right _ List.mem_cons_self)).1
    obtain ⟨ho, hi, hk⟩ := h.ahead hp horder he es
    rw [Heap.entries_eq_width] at hk
    exact ⟨_, hs.slotAt ho hi _, by simp [Slot.of, hk]⟩

theorem mirrored_eq {sweep sweep' : Sweep} (h : sweep'.mirrors = sweep.mirrors) (h' : Heap) :
    sweep'.mirrored h' n = sweep.mirrored h' n := by
  unfold Sweep.mirrored
  rw [h]

theorem ComesTo.mirrored (hp : p.Fits work.heap) (h : ComesTo book p a work n s) (h' : Heap) :
    s.sweep.mirrored h' n = .ok (Turn.forward s.sweep.mirrors n) := by
  have hn := h.mem_order
  obtain ⟨before, after, -, hrun⟩ := h
  unfold upTo at hrun
  obtain ⟨_, s₁, hprepare, hrun⟩ := ok_of_bind hrun
  obtain ⟨verbose, s₂, hflag, hsteps⟩ := ok_of_bind hrun
  obtain ⟨-, -, -, hflaw, w, hheap, hmap⟩ := prepare_ok (p := p) rfl hprepare
  have harr := hp.arranged
  have hmirrors : s.sweep.mirrors = s₁.sweep.mirrors :=
    ((settled_steps book _ _).ok hsteps).mirrors.trans ((Sweeping.settled_lift _).ok hflag).mirrors
  have hm : MirrorMap.Mirrored p.mirror s.sweep.mirrors work.heap s₁.work.heap (p.order work.heap) := by
    replace hheap : w.heap = work.heap := hheap
    replace hflaw : ∀ n ∈ p.order work.heap, work.heap.flaw? n = none := hflaw
    replace hmap : Build.mirrorMap (p.order work.heap) p.mirror none a w = .ok s₁.sweep.mirrors s₁.work := hmap
    rw [← hheap] at harr hflaw hmap
    rw [hmirrors, ← hheap]
    exact ((Build.mirrorMap_ends harr.settled (List.nodup_reverse.mp harr.nodup)
      (fun n hn => harr.has n (List.mem_reverse.mpr hn)) hflaw).ok hmap).2
  exact hm.mirrored hn h'

end Lookups

/-! ## Faults of a run -/

section Faults
variable {book : RuleBook} {p : Problem} {a : Ambient} {work : Workspace} {e : Fault} {s s' : Stage}

theorem blame_fault {α : Type} {n : NodeId} {fault : String → String → GradientFault}
    (h : blame (α := α) n fault a s = .error e s') (hfault : ∀ op name, (Fault.gradient (fault op name)).isInternal = false) :
    e.isInternal = false := by
  unfold blame at h
  rw [run_bind_ok (r := s.work.heap) (u := s) rfl] at h
  cases hop : (s.work.heap.node n).op with
  | none =>
    simp only [hop] at h
    cases h
    rfl
  | some op =>
    simp only [hop] at h
    cases h
    exact hfault _ _

theorem aggregateAt_fault {x : Entry} {slot : Slot} (hp : s.sweep.problem = p)
    (hslot : s.sweep.slotAt s.work.heap x = .ok slot) (h : aggregateAt x a s = .error e s') : Raised book p a e := by
  unfold aggregateAt at h
  rw [run_bind_ok (r := s.sweep) (u := s) rfl, run_bind_ok (r := s.work.heap) (u := s) rfl,
    run_bind_ok (r := slot) (u := s) (by rw [hslot]; rfl)] at h
  obtain hcall | ⟨_, s₁, -, h⟩ := error_of_bind h
  · unfold Sweeping.lift Slot.aggregate at hcall
    cases htotal : slot.total with
    | some v => rw [htotal] at hcall; cases hcall
    | none =>
      rw [htotal, hp] at hcall
      cases hrun : p.aggregate slot.partials a s.work with
      | ok r w => simp only [hrun] at hcall; cases hcall
      | error f w => simp only [hrun] at hcall; cases hcall; exact .aggregator hrun
  · cases h

theorem applyRule_fault {n forward : NodeId} {totals : List Value}
    (hm : ∀ h, s.sweep.mirrored h n = .ok forward) (h : applyRule book n totals a s = .error e s')
    (hi : e.isInternal = true) : Raised book p a e := by
  unfold applyRule at h
  obtain hfind | ⟨found, s₁, hfind, h⟩ := error_of_bind h
  · have hends := book.find_ends n a s.work
    unfold Sweeping.lift at hfind
    cases hrun : book.find n a s.work with
    | ok r w => rw [hrun] at hfind; cases hfind
    | error f w => rw [hrun] at hfind; cases hfind; exact RuleBook.lookup_fault (hends.error hrun) hi
  obtain ⟨w, hfound, rfl⟩ := Sweeping.lift_ok hfind
  cases found with
  | none => exact absurd hi (by simp [blame_fault h fun _ _ => rfl])
  | some i =>
    simp only at h
    rw [run_bind_ok (r := s.sweep) rfl, run_bind_ok (r := w.heap) rfl, run_bind_ok (r := forward) (by rw [hm]; rfl)] at h
    obtain ⟨-, hmem⟩ := (book.find_ends n a s.work).ok hfound
    obtain ⟨q, hq, rfl⟩ := hmem i rfl
    cases hrule : q.2.implementation.rule with
    | none =>
      rw [hrule] at h
      cases h
      cases hi
    | some rule =>
      rw [hrule] at h
      unfold Sweeping.lift at h
      cases hrun : rule forward totals a w with
      | ok r w' => simp only [hrun] at h; cases h
      | error f w' => simp only [hrun] at h; cases h; exact .rule hq hrule hrun

theorem scatterOne_fault {n : NodeId} {input : Entry} {grad : Value} {slot : Slot}
    (hslot : s.sweep.slotAt s.work.heap input = .ok slot) (htotal : slot.total = none)
    (h : scatterOne n input grad a s = .error e s') : e.isInternal = false := by
  unfold scatterOne at h
  cases grad with
  | entry g =>
    simp only at h
    rw [run_bind_ok (r := s.sweep) (u := s) rfl, run_bind_ok (r := s.work.heap) (u := s) rfl,
      run_bind_ok (r := slot) (u := s) (by rw [hslot]; rfl)] at h
    unfold Slot.add at h
    rw [htotal] at h
    cases h
  | data d => exact blame_fault h fun _ _ => rfl
  | node n => exact blame_fault h fun _ _ => rfl
  | list l => exact blame_fault h fun _ _ => rfl
  | object o => exact blame_fault h fun _ _ => rfl

/-- Nothing goes wrong inside before the first turn. -/
theorem upTo_nil_fault (hp : p.Fits work.heap) (h : upTo book [] a (start p work) = .error e s')
    (hi : e.isInternal = true) : Raised book p a e := by
  unfold upTo at h
  obtain hprepare | ⟨_, s, -, h⟩ := error_of_bind h
  · exact (Build.prepared_ends hp).error ((prepare_tracks (s := start p work) hp rfl).error hprepare) hi
  obtain hflag | ⟨_, _, -, hnil⟩ := error_of_bind h
  · have hget : a.profile.getFlag ["debugprint"] = .error e := by
      replace hflag : Sweeping.lift (Build.ofExcept (a.profile.getFlag ["debugprint"])) a s = .error e s' := hflag
      cases hget : a.profile.getFlag ["debugprint"] with
      | ok b => rw [hget] at hflag; cases hflag
      | error f => rw [hget] at hflag; cases hflag; rfl
    exact absurd hi (by simp [Profile.getFlag_fault hget])
  · cases hnil

theorem Stops.raised (hp : p.Fits work.heap) (hf : p.aggregate.Returns)
    (hu : ∀ n, work.heap.Has n → Undisturbed book p a work n) (h : Stops book p a work e) (hi : e.isInternal = true) :
    Raised book p a e := by
  cases h with
  | slots hn h =>
    obtain ⟨slots, hslots⟩ := hn.slotsOf hf
    rw [hslots] at h
    cases h
  | @aggregating x s s' hx h =>
    obtain ⟨hproblem, slot, hslot⟩ := hx.slotAt hp hf (hu _ (hx.has hp))
    exact aggregateAt_fault hproblem hslot h
  | @applying n slots totals s s₁ s' hn hagg h =>
    have hm : ∀ h', s₁.sweep.mirrored h' n = .ok (Turn.forward s.sweep.mirrors n) := fun h' => by
      rw [mirrored_eq ((settled_aggregateAll _).ok hagg).mirrors]
      exact hn.mirrored hp h'
    exact applyRule_fault hm h hi
  | counting h => exact absurd hi (by simp [blame_fault h fun _ _ => rfl])
  | passing hn h =>
    obtain ⟨slot, hslot, htotal⟩ := hn.slotAt hp hf (hu _ hn.has)
    exact absurd hi (by simp [scatterOne_fault hslot htotal h])

end Faults

end Sweep

end Backprop
