import Backprop.Proofs.AccumulationSound

/-!
# When the aggregator is called

A sweep calls the aggregator when it aggregates a slot that has no total yet, so
the calls can be read off the sweep as it goes (`Sweep.calls`). No other call has
a part in the run: an aggregator that answers these calls alike gives the same
run (`run_of_calls`). In a run that succeeds they are the calls for the outputs
of the operator nodes as their turns come, and then for what is left of the
requested entries. A total that is there is not made again, so all requests for
an entry get the same one, and a request for an output of a node that had its
turn gets the one that the rule of the node was given.
-/

namespace Backprop

/-! ## Calls -/

/-- A call of the aggregator: for which entry, with which gradients, and in which workspace. -/
structure Aggregation where
  entry : Entry
  partials : List Value
  work : Workspace

namespace Sweep

def followed {α : Type} (result : EStateM.Result Fault Stage α) (rest : α → Stage → List Aggregation) :
    List Aggregation :=
  match result with
  | .ok r s => rest r s
  | .error _ _ => []

theorem followed_nil {α : Type} (result : EStateM.Result Fault Stage α) : followed result (fun _ _ => []) = [] := by
  cases result <;> rfl

section Calls
variable (book : RuleBook) (a : Ambient)

def callsAt (e : Entry) (s : Stage) : List Aggregation :=
  match s.sweep.slotAt s.work.heap e with
  | .ok slot => if slot.total.isNone then [⟨e, slot.partials, s.work⟩] else []
  | .error _ => []

def callsForAll : List Entry → Stage → List Aggregation
  | [], _ => []
  | e :: es, s => callsAt e s ++ followed (aggregateAt e a s) fun _ => callsForAll es

def callsInStep (n : NodeId) (s : Stage) : List Aggregation :=
  if (s.work.heap.node n).op.isSome then
    match s.sweep.slotsOf s.work.heap n with
    | .ok slots => callsForAll a (n.entries slots.length) s
    | .error _ => []
  else []

def callsInSteps (level : Level) : List NodeId → Stage → List Aggregation
  | [], _ => []
  | n :: ns, s => callsInStep a n s ++ followed (step book level n a s) fun _ => callsInSteps level ns

def callsUpTo (ns : List NodeId) (s : Stage) : List Aggregation :=
  followed (prepare a s) fun _ s => followed (Sweeping.lift (Build.flag ["debugprint"]) a s) fun verbose =>
    callsInSteps book a (if verbose then .info else .debug) ns

def callsInAssembly : List Entry → Stage → List Aggregation
  | [], _ => []
  | x :: xs, s => followed (ensureSlots x.node a s) fun _ s =>
    callsAt x s ++ followed (aggregateAt x a s) fun _ => callsInAssembly xs

/-- The calls of the aggregator in a run, one after the other. -/
def calls (p : Problem) (work : Workspace) : List Aggregation :=
  callsUpTo book a (p.order work.heap).reverse (start p work) ++
    followed (upTo book (p.order work.heap).reverse a (start p work)) fun _ => callsInAssembly a p.xs

end Calls

end Sweep

/-! ## Another problem -/

def Stage.onto (q : Problem) (s : Stage) : Stage := { s with sweep := { s.sweep with problem := q } }

def Stage.ontoResult {α : Type} (q : Problem) : EStateM.Result Fault Stage α → EStateM.Result Fault Stage α
  | .ok r s => .ok r (s.onto q)
  | .error e s => .error e (s.onto q)

namespace Aggregation

/-- Both aggregators answer the call alike. -/
def Alike (f f' : Aggregator) (a : Ambient) (c : Aggregation) : Prop := f' c.partials a c.work = f c.partials a c.work

def Refused (f : Aggregator) (a : Ambient) (c : Aggregation) : Prop := ∃ e w, f c.partials a c.work = .error e w

/-- The second aggregator refuses the first call that it does not answer alike. -/
def Stops (f f' : Aggregator) (a : Ambient) : List Aggregation → Prop
  | [] => False
  | c :: cs => c.Refused f' a ∨ c.Alike f f' a ∧ Stops f f' a cs

theorem Stops.of_append {f f' : Aggregator} {a : Ambient} {cs' : List Aggregation} : ∀ {cs : List Aggregation},
    Stops f f' a (cs ++ cs') → Stops f f' a cs ∨ (∀ c ∈ cs, c.Alike f f' a) ∧ Stops f f' a cs'
  | [], h => .inr ⟨by simp, h⟩
  | c :: cs, .inl h => .inl (.inl h)
  | c :: cs, .inr ⟨hc, h⟩ => by
    rcases of_append h with h | ⟨hcs, h⟩
    · exact .inl (.inr ⟨hc, h⟩)
    · exact .inr ⟨List.forall_mem_cons.mpr ⟨hc, hcs⟩, h⟩

theorem Stops.followed {f f' : Aggregator} {a : Ambient} {α : Type} {result : EStateM.Result Fault Stage α}
    {rest : α → Stage → List Aggregation} (h : Stops f f' a (Sweep.followed result rest)) :
    ∃ r s, result = .ok r s ∧ Stops f f' a (rest r s) := by
  cases result with
  | ok r s => exact ⟨r, s, rfl, h⟩
  | error e s => exact h.elim

end Aggregation

namespace Sweeping
variable {α β : Type} {q : Problem} {a : Ambient} {s : Stage}

/-- The second action does with the other problem what the first does. -/
def Echoes (q : Problem) (act act' : Sweeping α) (a : Ambient) (s : Stage) : Prop :=
  act' a (s.onto q) = Stage.ontoResult q (act a s)

def Halts (q : Problem) (act : Sweeping α) (a : Ambient) (s : Stage) : Prop := ∃ e s', act a (s.onto q) = .error e s'

abbrev Ignores (q : Problem) (act : Sweeping α) (a : Ambient) (s : Stage) : Prop := Echoes q act act a s

theorem Echoes.bind {act act' : Sweeping α} {f f' : α → Sweeping β} (hact : Echoes q act act' a s)
    (hf : ∀ r s', act a s = .ok r s' → Echoes q (f r) (f' r) a s') : Echoes q (act >>= f) (act' >>= f') a s := by
  unfold Echoes at hact ⊢
  cases hrun : act a s with
  | ok r s' =>
    rw [hrun] at hact
    rw [run_bind_ok hact, run_bind_ok hrun]
    exact hf r s' hrun
  | error e s' =>
    rw [hrun] at hact
    rw [run_bind_error hact, run_bind_error hrun]
    rfl

theorem Halts.bind {act : Sweeping α} {f : α → Sweeping β} (h : Halts q act a s) : Halts q (act >>= f) a s := by
  obtain ⟨e, s', h⟩ := h
  exact ⟨e, s', run_bind_error h⟩

theorem Echoes.halts {act act' : Sweeping α} {f : α → Sweeping β} {r : α} {s' : Stage} (hact : Echoes q act act' a s)
    (hrun : act a s = .ok r s') (h : Halts q (f r) a s') : Halts q (act' >>= f) a s := by
  unfold Echoes at hact
  rw [hrun] at hact
  obtain ⟨e, s'', h⟩ := h
  exact ⟨e, s'', (run_bind_ok hact).trans h⟩

/-- Of the sweep that is read, only the problem differs. -/
theorem Echoes.sweep {f f' : Sweep → Sweeping α} (h : Echoes q (f s.sweep) (f' { s.sweep with problem := q }) a s) :
    Echoes q (Sweeping.sweep >>= f) (Sweeping.sweep >>= f') a s := by
  unfold Echoes at h ⊢
  rw [run_bind_ok (r := (s.onto q).sweep) (u := s.onto q) rfl, run_bind_ok (r := s.sweep) (u := s) rfl]
  exact h

theorem Halts.sweep {f : Sweep → Sweeping α} (h : Halts q (f { s.sweep with problem := q }) a s) :
    Halts q (Sweeping.sweep >>= f) a s := by
  obtain ⟨e, s', h⟩ := h
  exact ⟨e, s', (run_bind_ok (r := (s.onto q).sweep) (u := s.onto q) rfl).trans h⟩

theorem Halts.lift {act : Build α} {e : Fault} {w : Workspace} (h : act a s.work = .error e w) :
    Halts q (Sweeping.lift act) a s := by
  refine ⟨e, { s.onto q with work := w }, ?_⟩
  unfold Sweeping.lift
  rw [show (s.onto q).work = s.work from rfl, h]

theorem Echoes.lift {act act' : Build α} (h : act' a s.work = act a s.work) :
    Echoes q (Sweeping.lift act) (Sweeping.lift act') a s := by
  have hwork : (s.onto q).work = s.work := rfl
  unfold Echoes Sweeping.lift
  rw [hwork, h]
  cases act a s.work <;> rfl

theorem ignores_pure (r : α) : Ignores q (pure r) a s := rfl

theorem ignores_heap : Ignores q heap a s := rfl

theorem ignores_ofExcept (x : Except Fault α) : Ignores q (ofExcept x) a s := by cases x <;> rfl

theorem ignores_lift (act : Build α) : Ignores q (lift act) a s := .lift rfl

theorem ignores_modify {f : Sweep → Sweep} (hf : f { s.sweep with problem := q } = { f s.sweep with problem := q }) :
    Ignores q (modifySweep f) a s := by
  show EStateM.Result.ok () (Stage.mk s.work (f { s.sweep with problem := q })) = _
  rw [hf]
  rfl

/-- Slots are changed alike whatever the problem is. -/
theorem ignores_putSlot (e : Entry) (slot : Slot) : Ignores q (modifySweep fun s => s.putSlot e slot) a s := by
  apply ignores_modify
  unfold Sweep.putSlot
  dsimp only
  cases Ledger.get? s.sweep.slots e.node <;> rfl

end Sweeping

namespace Sweep
open Sweeping

section Ignores
variable {book : RuleBook} {p q : Problem} {a : Ambient} {s : Stage}

theorem ignores_visit (hys : q.ys = s.sweep.problem.ys) : Ignores q visit a s := by
  refine ignores_heap.bind fun h s₁ hs₁ => ?_
  cases hs₁
  refine .sweep ?_
  dsimp only
  rw [hys]
  refine (ignores_modify rfl).bind fun _ _ _ => (ignores_ofExcept _).bind fun _ _ _ => ?_
  exact (ignores_modify rfl).bind fun _ _ _ => ignores_lift _

theorem ignores_seedOne (pair : Entry × Entry) : Ignores q (seedOne pair) a s :=
  .sweep (ignores_heap.bind fun _ _ _ => (ignores_ofExcept _).bind fun _ _ _ => ignores_putSlot _ _)

theorem ignores_seeds : ∀ (pairs : List (Entry × Entry)) {s : Stage}, Ignores q (pairs.forM seedOne) a s
  | [], _ => rfl
  | pair :: pairs, _ => (ignores_seedOne pair).bind fun _ _ _ => ignores_seeds pairs

theorem ignores_seed (hys : q.ys = s.sweep.problem.ys) (hseeds : q.seeds = s.sweep.problem.seeds) :
    Ignores q seed a s := by
  refine .sweep ?_
  dsimp only
  rw [hys, hseeds]
  exact ignores_seeds _

theorem ignores_mirror (hmirror : q.mirror = s.sweep.problem.mirror) : Ignores q mirror a s := by
  refine .sweep ?_
  dsimp only
  rw [hmirror]
  exact (ignores_lift _).bind fun _ _ _ => ignores_modify rfl

theorem ignores_prepare (hs : s.sweep.problem = p) (hys : q.ys = p.ys) (hseeds : q.seeds = p.seeds)
    (hmirror : q.mirror = p.mirror) : Ignores q prepare a s := by
  refine (ignores_visit (hs.symm ▸ hys)).bind fun _ s₁ hvisit => ?_
  obtain ⟨_, -, -, -, hs₁, -⟩ := (visit_tracks hs).ok hvisit
  refine (ignores_seed (hs₁.symm ▸ hys) (hs₁.symm ▸ hseeds)).bind fun _ s₂ hseed => ?_
  have hs₂ : s₂.sweep.problem = p := ((settled_seed).ok hseed).problem.trans hs₁
  exact ignores_mirror (hs₂.symm ▸ hmirror)

theorem ignores_aggregateAt (hs : s.sweep.problem = p) (e : Entry)
    (hcalls : ∀ c ∈ callsAt e s, c.Alike p.aggregate q.aggregate a) : Ignores q (aggregateAt e) a s := by
  refine .sweep (ignores_heap.bind fun h s₁ hs₁ => ?_)
  cases hs₁
  refine Echoes.bind (ignores_ofExcept _) fun slot s₁ hslot => ?_
  have hslot : s.sweep.slotAt s.work.heap e = .ok slot ∧ s₁ = s := by
    cases hget : s.sweep.slotAt s.work.heap e with
    | ok found => rw [hget] at hslot; cases hslot; exact ⟨rfl, rfl⟩
    | error f => rw [hget] at hslot; cases hslot
  obtain ⟨hslot, rfl⟩ := hslot
  refine Echoes.bind (.lift ?_) fun _ _ _ => (ignores_putSlot _ _).bind fun _ _ _ => ignores_pure _
  unfold Slot.aggregate
  cases htotal : slot.total with
  | some v => rfl
  | none =>
    refine (hcalls ⟨e, slot.partials, s₁.work⟩ ?_).trans (by rw [hs])
    simp [callsAt, hslot, htotal]

theorem ignores_aggregateAll : ∀ (es : List Entry) {s : Stage}, s.sweep.problem = p →
    (∀ c ∈ callsForAll a es s, c.Alike p.aggregate q.aggregate a) → Ignores q (aggregateAll es) a s
  | [], _, _, _ => rfl
  | e :: es, s, hs, hcalls => by
    refine (ignores_aggregateAt hs e fun c hc => hcalls c (List.mem_append_left _ hc)).bind fun v s₁ hrun => ?_
    refine Echoes.bind (ignores_aggregateAll es ?_ fun c hc => hcalls c (List.mem_append_right _ ?_)) fun _ _ _ => rfl
    · exact ((settled_aggregateAt e).ok hrun).problem.trans hs
    · rw [hrun]
      exact hc

theorem ignores_blame {α : Type} (n : NodeId) (fault : String → String → GradientFault) :
    Ignores q (blame (α := α) n fault) a s := by
  refine ignores_heap.bind fun h _ _ => ?_
  dsimp only
  cases (h.node n).op with
  | none => rfl
  | some op => rfl

theorem ignores_scatterOne (n : NodeId) (input : Entry) (grad : Value) : Ignores q (scatterOne n input grad) a s := by
  unfold scatterOne
  cases grad with
  | entry e =>
    exact .sweep (ignores_heap.bind fun _ _ _ => (ignores_ofExcept _).bind fun _ _ _ =>
      (ignores_ofExcept _).bind fun _ _ _ => ignores_putSlot _ _)
  | data d => exact ignores_blame _ _
  | node n => exact ignores_blame _ _
  | list l => exact ignores_blame _ _
  | object o => exact ignores_blame _ _

theorem ignores_scatter (n : NodeId) : ∀ (pairs : List (Entry × Value)) {s : Stage}, Ignores q (scatter n pairs) a s
  | [], _ => rfl
  | (input, grad) :: rest, _ => (ignores_scatterOne n input grad).bind fun _ _ _ => ignores_scatter n rest

theorem ignores_applyRule (n : NodeId) (totals : List Value) : Ignores q (applyRule book n totals) a s := by
  refine (ignores_lift _).bind fun found s₁ _ => ?_
  cases found with
  | none => exact ignores_blame _ _
  | some i =>
    refine .sweep (ignores_heap.bind fun _ _ _ => (ignores_ofExcept _).bind fun forward _ _ => ?_)
    cases i.rule with
    | none => rfl
    | some rule => exact ignores_lift _

theorem ignores_step (level : Level) (n : NodeId) (hs : s.sweep.problem = p)
    (hcalls : ∀ c ∈ callsInStep a n s, c.Alike p.aggregate q.aggregate a) : Ignores q (step book level n) a s := by
  refine ignores_heap.bind fun h s₁ hs₁ => ?_
  cases hs₁
  dsimp only
  cases hop : (s.work.heap.node n).op with
  | none => rfl
  | some op =>
    refine .sweep (ignores_heap.bind fun h s₁ hs₁ => ?_)
    cases hs₁
    refine Echoes.bind (ignores_ofExcept _) fun slots s₁ hslots => ?_
    have hslots : s.sweep.slotsOf s.work.heap n = .ok slots ∧ s₁ = s := by
      cases hget : s.sweep.slotsOf s.work.heap n with
      | ok found => rw [hget] at hslots; cases hslots; exact ⟨rfl, rfl⟩
      | error f => rw [hget] at hslots; cases hslots
    obtain ⟨hslots, rfl⟩ := hslots
    refine Echoes.bind (ignores_aggregateAll _ hs fun c hc => hcalls c ?_) fun totals _ _ => ?_
    · have hsome : (s₁.work.heap.node n).op.isSome := by rw [hop]; rfl
      rw [callsInStep, if_pos hsome, hslots]
      exact hc
    refine (ignores_applyRule n totals).bind fun grads _ _ => ignores_heap.bind fun h _ _ => ?_
    split
    · exact (ignores_scatter n _).bind fun _ _ _ => ignores_heap.bind fun _ _ _ => ignores_lift _
    · exact ignores_blame _ _

theorem ignores_steps (level : Level) : ∀ (ns : List NodeId) {s : Stage}, s.sweep.problem = p →
    (∀ c ∈ callsInSteps book a level ns s, c.Alike p.aggregate q.aggregate a) → Ignores q (steps book level ns) a s
  | [], _, _, _ => rfl
  | n :: ns, s, hs, hcalls => by
    refine (ignores_step level n hs fun c hc => hcalls c (List.mem_append_left _ hc)).bind fun _ s₁ hrun => ?_
    refine ignores_steps level ns (((settled_step book level n).ok hrun).problem.trans hs) fun c hc => hcalls c ?_
    refine List.mem_append_right _ ?_
    rw [hrun]
    exact hc

/-- Until the last turn a problem does the same as one that has the same outputs and seeds, mirrors alike, and answers the
calls of the aggregator alike. -/
theorem upTo_onto {work : Workspace} (hys : q.ys = p.ys) (hseeds : q.seeds = p.seeds) (hmirror : q.mirror = p.mirror)
    (ns : List NodeId)
    (hcalls : ∀ c ∈ callsUpTo book a ns (start p work), c.Alike p.aggregate q.aggregate a) :
    upTo book ns a (start q work) = Stage.ontoResult q (upTo book ns a (start p work)) := by
  suffices h : Ignores q (upTo book ns) a (start p work) from h
  have hprepare : Ignores q prepare a (start p work) := ignores_prepare rfl hys hseeds hmirror
  refine hprepare.bind fun _ s₁ hprepared => (ignores_lift _).bind fun verbose s₂ hflag => ?_
  obtain ⟨-, hr, -⟩ := prepare_ok (p := p) rfl hprepared
  refine ignores_steps _ ns (((Sweeping.settled_lift _).ok hflag).problem.trans hr.problem) fun c hc => hcalls c ?_
  unfold callsUpTo
  rw [hprepared, followed, hflag]
  exact hc

theorem ignores_ensureSlots (n : NodeId) : Ignores q (ensureSlots n) a s := by
  refine ignores_heap.bind fun h _ _ => ignores_modify ?_
  dsimp only
  split <;> rfl

theorem ignores_assembleAll : ∀ (xs : List Entry) {s : Stage}, s.sweep.problem = p →
    (∀ c ∈ callsInAssembly a xs s, c.Alike p.aggregate q.aggregate a) → Ignores q (assembleAll xs) a s
  | [], _, _, _ => rfl
  | x :: xs, s, hs, hcalls => by
    refine (ignores_ensureSlots x.node).bind fun _ s₁ hopen => ?_
    have hs₁ := ((settled_ensureSlots x.node).ok hopen).problem.trans hs
    rw [callsInAssembly, hopen] at hcalls
    refine (ignores_aggregateAt hs₁ x fun c hc => hcalls c (List.mem_append_left _ hc)).bind fun v s₂ hrun => ?_
    refine Echoes.bind (ignores_assembleAll xs ?_ fun c hc => hcalls c (List.mem_append_right _ ?_)) fun _ _ _ => rfl
    · exact ((settled_aggregateAt x).ok hrun).problem.trans hs₁
    · rw [hrun]
      exact hc

/-- An aggregator that answers the calls of a run alike gives the same run. -/
theorem run_of_calls {f : Aggregator} {work : Workspace} (hcalls : ∀ c ∈ calls book a p work, c.Alike p.aggregate f a) :
    Sweep.run { problem := { p with aggregate := f } } book a work =
      Stage.ontoResult { p with aggregate := f } (Sweep.run { problem := p } book a work) := by
  let q : Problem := { p with aggregate := f }
  have hupTo : Ignores q (upTo book (p.order work.heap).reverse) a (start p work) :=
    upTo_onto (p := p) (q := q) rfl rfl rfl _ fun c hc => hcalls c (List.mem_append_left _ hc)
  rw [run_eq, run_eq]
  refine hupTo.bind fun _ s hrun => ?_
  refine Echoes.bind (ignores_assembleAll p.xs (upTo_problem hrun) fun c hc => hcalls c (List.mem_append_right _ ?_)) ?_
  · rw [hrun]
    exact hc
  · exact fun totals _ _ => ignores_heap.bind fun _ _ _ => (ignores_ofExcept _).bind fun _ _ _ => rfl

end Ignores

section Halts
variable {book : RuleBook} {p q : Problem} {a : Ambient} {s : Stage}

theorem halts_aggregateAt (e : Entry) (h : Aggregation.Stops p.aggregate q.aggregate a (callsAt e s)) :
    Halts q (aggregateAt e) a s := by
  unfold callsAt at h
  cases hslot : s.sweep.slotAt s.work.heap e with
  | error f => rw [hslot] at h; exact h.elim
  | ok slot =>
    rw [hslot] at h
    dsimp only at h
    cases htotal : slot.total with
    | some v => rw [htotal] at h; exact h.elim
    | none =>
      rw [htotal] at h
      obtain ⟨fault, w, h⟩ : Aggregation.Refused q.aggregate a ⟨e, slot.partials, s.work⟩ := h.resolve_right fun h => h.2
      have hread : Sweeping.ofExcept (s.sweep.slotAt s.work.heap e) a s = .ok slot s := by rw [hslot]; rfl
      refine .sweep (ignores_heap.halts rfl ((ignores_ofExcept _).halts hread (.bind (.lift (e := fault) (w := w) ?_))))
      unfold Slot.aggregate
      rw [htotal]
      exact h

theorem halts_aggregateAll : ∀ (es : List Entry) {s : Stage}, s.sweep.problem = p →
    Aggregation.Stops p.aggregate q.aggregate a (callsForAll a es s) → Halts q (aggregateAll es) a s
  | [], _, _, h => h.elim
  | e :: es, s, hs, h => by
    rcases h.of_append with h | ⟨halike, h⟩
    · exact (halts_aggregateAt e h).bind
    · obtain ⟨v, s₁, hrun, h⟩ := h.followed
      have hs₁ := ((settled_aggregateAt e).ok hrun).problem.trans hs
      exact (ignores_aggregateAt hs e halike).halts hrun (halts_aggregateAll es hs₁ h).bind

theorem halts_step (level : Level) (n : NodeId) (hs : s.sweep.problem = p)
    (h : Aggregation.Stops p.aggregate q.aggregate a (callsInStep a n s)) : Halts q (step book level n) a s := by
  unfold callsInStep at h
  split at h
  case isFalse => exact h.elim
  case isTrue hop =>
    cases hslots : s.sweep.slotsOf s.work.heap n with
    | error f => rw [hslots] at h; exact h.elim
    | ok slots =>
      rw [hslots] at h
      have hread : Sweeping.ofExcept (s.sweep.slotsOf s.work.heap n) a s = .ok slots s := by rw [hslots]; rfl
      obtain ⟨op, hop⟩ := Option.isSome_iff_exists.mp hop
      refine ignores_heap.halts rfl ?_
      dsimp only
      rw [hop]
      exact .sweep (ignores_heap.halts rfl ((ignores_ofExcept _).halts hread (halts_aggregateAll _ hs h).bind))

theorem halts_steps (level : Level) : ∀ (ns : List NodeId) {s : Stage}, s.sweep.problem = p →
    Aggregation.Stops p.aggregate q.aggregate a (callsInSteps book a level ns s) → Halts q (steps book level ns) a s
  | [], _, _, h => h.elim
  | n :: ns, s, hs, h => by
    rcases h.of_append with h | ⟨halike, h⟩
    · exact (halts_step level n hs h).bind
    · obtain ⟨_, s₁, hrun, h⟩ := h.followed
      have hs₁ := ((settled_step book level n).ok hrun).problem.trans hs
      exact (ignores_step level n hs halike).halts hrun (halts_steps level ns hs₁ h)

theorem halts_assembleAll : ∀ (xs : List Entry) {s : Stage}, s.sweep.problem = p →
    Aggregation.Stops p.aggregate q.aggregate a (callsInAssembly a xs s) → Halts q (assembleAll xs) a s
  | [], _, _, h => h.elim
  | x :: xs, s, hs, h => by
    obtain ⟨_, s₁, hopen, h⟩ := Aggregation.Stops.followed h
    have hs₁ := ((settled_ensureSlots x.node).ok hopen).problem.trans hs
    refine (ignores_ensureSlots x.node).halts hopen ?_
    rcases h.of_append with h | ⟨halike, h⟩
    · exact (halts_aggregateAt x h).bind
    · obtain ⟨v, s₂, hrun, h⟩ := h.followed
      have hs₂ := ((settled_aggregateAt x).ok hrun).problem.trans hs₁
      exact (ignores_aggregateAt hs₁ x halike).halts hrun (halts_assembleAll xs hs₂ h).bind

/-- Each of the calls is made: an aggregator that refuses one, and answers those before it alike, fails the run. -/
theorem run_of_stops {f : Aggregator} {work : Workspace} (h : Aggregation.Stops p.aggregate f a (calls book a p work)) :
    ∃ e s, Sweep.run { problem := { p with aggregate := f } } book a work = .error e s := by
  let q : Problem := { p with aggregate := f }
  rw [run_eq]
  suffices hrun : Halts q (upTo book (p.order work.heap).reverse >>= fun _ => assemble p.xs) a (start p work) from hrun
  rcases h.of_append with h | ⟨halike, h⟩
  · refine Halts.bind ?_
    obtain ⟨_, s₁, hprepared, h⟩ := Aggregation.Stops.followed h
    obtain ⟨verbose, s₂, hflag, h⟩ := h.followed
    obtain ⟨-, hr, -⟩ := prepare_ok (p := p) rfl hprepared
    have hprepare : Ignores q prepare a (start p work) := ignores_prepare rfl rfl rfl rfl
    refine hprepare.halts hprepared ((ignores_lift _).halts hflag (halts_steps _ _ ?_ h))
    exact ((Sweeping.settled_lift _).ok hflag).problem.trans hr.problem
  · obtain ⟨_, s, hturns, h⟩ := h.followed
    have hupTo : Ignores q (upTo book (p.order work.heap).reverse) a (start p work) :=
      upTo_onto (p := p) (q := q) rfl rfl rfl _ halike
    exact hupTo.halts hturns (halts_assembleAll _ (upTo_problem hturns) h).bind

end Halts

end Sweep

/-! ## The calls of a run -/

def Turn.query (p : Problem) (turns : List Turn) (e : Entry) : Entry × List Value :=
  (e, (Turn.arrived p turns e).map .entry)

def Aggregation.query (c : Aggregation) : Entry × List Value := (c.entry, c.partials)

namespace Sweep

section Log
variable {book : RuleBook} {p : Problem} {a : Ambient} {work : Workspace} {turns : List Turn} {s s' : Stage}

theorem callsAt_holds {width : NodeId → Nat} {opened : List NodeId} {partials : Entry → List Entry}
    {known : Ledger Entry Entry} {e : Entry} (hs : s.sweep.Holds width opened (Slot.of partials known))
    (hn : e.node ∈ opened) (hi : e.index < width e.node) :
    callsAt e s = if Ledger.get? known e = none then [⟨e, (partials e).map .entry, s.work⟩] else [] := by
  unfold callsAt
  rw [hs.slotAt hn hi]
  cases hk : Ledger.get? known e <;> simp [Slot.of, hk]

/-- Slots without totals are aggregated by one call each. -/
theorem callsForAll_holds {width : NodeId → Nat} {opened : List NodeId} {partials : Entry → List Entry} :
    ∀ {es : List Entry} {totals : List Value} {known : Ledger Entry Entry} {s s' : Stage},
    s.sweep.problem.aggregate.Returns → s.sweep.Holds width opened (Slot.of partials known) → es.Nodup →
    (∀ e ∈ es, e.node ∈ opened ∧ e.index < width e.node ∧ Ledger.get? known e = none) →
    aggregateAll es a s = .ok totals s' →
    (callsForAll a es s).map Aggregation.query = es.map fun e => (e, (partials e).map .entry)
  | [], _, _, _, _, _, _, _, _, _ => rfl
  | e :: es, totals, known, s, s', hf, hs, hnd, he, hrun => by
    obtain ⟨hn, hi, hk⟩ := he e (by simp)
    rw [aggregateAll] at hrun
    obtain ⟨v, s₁, hone, hrest⟩ := ok_of_bind hrun
    obtain ⟨totals, s₂, hrest, hnil⟩ := ok_of_bind hrest
    obtain ⟨total, -, -, halike, hs₁⟩ := (aggregateAt_tracks hf hs hn hi hk).ok hone
    rw [callsForAll, callsAt_holds hs hn hi, if_pos hk, hone, followed, List.singleton_append, List.map_cons,
      List.map_cons]
    refine congrArg _ ?_
    refine callsForAll_holds (halike.problem ▸ hf) hs₁ (List.nodup_cons.mp hnd).2 (fun e' he' => ?_) hrest
    obtain ⟨hn', hi', hk'⟩ := he e' (List.mem_cons_of_mem _ he')
    have hne : e ≠ e' := fun hh => (List.nodup_cons.mp hnd).1 (hh ▸ he')
    exact ⟨hn', hi', Ledger.get?_concat_of_ne hk' hne⟩

theorem callsInSteps_concat (level : Level) (n : NodeId) : ∀ (ns : List NodeId) (s : Stage),
    callsInSteps book a level (ns ++ [n]) s =
      callsInSteps book a level ns s ++ followed (steps book level ns a s) fun _ => callsInStep a n
  | [], s => by
    show Sweep.callsInStep a n s ++ followed (step book level n a s) (fun _ _ => []) = Sweep.callsInStep a n s
    rw [followed_nil, List.append_nil]
  | k :: ns, s => by
    rw [List.cons_append, callsInSteps, callsInSteps, steps, List.append_assoc]
    congr 1
    cases hstep : step book level k a s with
    | error e s₁ => rw [run_bind_error hstep]; rfl
    | ok _ s₁ =>
      rw [run_bind_ok hstep, followed, followed]
      exact callsInSteps_concat level n ns s₁

theorem callsUpTo_concat {ns : List NodeId} (h : upTo book ns a s = .ok () s') (n : NodeId) :
    callsUpTo book a (ns ++ [n]) s = callsUpTo book a ns s ++ callsInStep a n s' := by
  unfold upTo at h
  obtain ⟨_, s₁, hprepare, h⟩ := ok_of_bind h
  obtain ⟨verbose, s₂, hflag, hsteps⟩ := ok_of_bind h
  unfold callsUpTo
  simp only [hprepare, hflag, followed]
  rw [callsInSteps_concat, hsteps]
  rfl

/-- In its turn an operator node has each of its outputs aggregated by one call. -/
theorem Along.callsInStep {before after : List NodeId} {n : NodeId} (h : Along book p a work before turns s)
    (horder : (p.order work.heap).reverse = before ++ n :: after) (hf : p.aggregate.Returns) {totals grads : List Value}
    (hrule : Answers book a n s totals grads s') :
    (Sweep.callsInStep a n s).map Aggregation.query = (work.heap.entries n).map (Turn.query p turns) := by
  obtain @⟨slots, s₁, hop, hslots, hagg, -⟩ := hrule
  rw [Sweep.callsInStep, if_pos hop, hslots]
  show (callsForAll a (n.entries slots.length) s).map Aggregation.query = _
  rw [h.entries_slots horder hslots] at hagg ⊢
  have hn : n ∈ p.order work.heap := List.mem_reverse.mp (by rw [horder]; simp)
  refine callsForAll_holds (h.recorded.problem.symm ▸ hf) h.recorded.holds (work.heap.nodup_entries n) (fun e he => ?_) hagg
  obtain ⟨rfl, hi⟩ := NodeId.mem_entries.mp he
  exact ⟨hn, hi, (h.get?_known_eq_none_iff hi).mpr (h.coming horder)⟩

/-- The turns call the aggregator for the outputs of their nodes. -/
theorem calls_upTo (hf : p.aggregate.Returns) (before : List NodeId) :
    ∀ {after : List NodeId} {s : Stage}, (p.order work.heap).reverse = before ++ after →
      upTo book before a (start p work) = .ok () s → ∃ turns, Along book p a work before turns s ∧
        (callsUpTo book a before (start p work)).map Aggregation.query =
          ((turns.map Turn.node).flatMap work.heap.entries).map (Turn.query p turns) := by
  induction before using List.reverseRecOn with
  | nil =>
    intro after s _ hrun
    refine ⟨[], .first hrun, ?_⟩
    unfold callsUpTo followed
    cases prepare a (start p work) with
    | error e s₁ => rfl
    | ok _ s₁ => cases hflag : Sweeping.lift (Build.flag ["debugprint"]) a s₁ <;> simp only [hflag] <;> rfl
  | append_singleton before n ih =>
    intro after s horder hrun
    obtain ⟨s₁, level, hbefore, hstep⟩ := upTo_concat hrun
    rw [List.append_assoc, List.singleton_append] at horder
    obtain ⟨turns, h, hcalls⟩ := ih horder hbefore
    obtain ⟨new, h', hnew⟩ := h.step horder hf ⟨before, after, horder, hbefore⟩ hstep
    refine ⟨turns ++ new, h', ?_⟩
    rw [callsUpTo_concat hbefore, List.map_append, hcalls]
    rcases hnew with ⟨hop, rfl⟩ | ⟨t, htook, rfl⟩
    · rw [Sweep.callsInStep, if_neg (by simp [hop]), List.append_nil]
      exact List.append_nil _
    · have hnode := htook.node
      have hstep : (Sweep.callsInStep a n s₁).map Aggregation.query = (work.heap.entries n).map (Turn.query p turns) := by
        cases htook with
        | turn hrule hcount => exact h.callsInStep horder hf hrule
      rw [hstep, ← List.map_append, List.map_append (f := Turn.node), List.flatMap_append, List.map_singleton,
        List.flatMap_singleton, hnode]
      -- nothing that is passed on now is for an entry that was aggregated already
      refine List.map_congr_left fun e he => ?_
      have hmem : e.node ∈ (turns ++ [t]).map Turn.node := by
        rw [List.map_append, List.map_singleton, hnode]
        rcases List.mem_append.mp he with he | he
        · obtain ⟨k, hk, he⟩ := List.mem_flatMap.mp he
          exact List.mem_append_left _ ((Heap.mem_entries.mp he).1 ▸ hk)
        · exact List.mem_append_right _ ((Heap.mem_entries.mp he).1 ▸ List.mem_singleton_self _)
      rw [Turn.query, Turn.query, h'.arrived_concat hmem]

theorem callsInAssembly_concat (x : Entry) : ∀ {xs : List Entry} {totals : List Value} {s s' s'' : Stage},
    assembleAll xs a s = .ok totals s' → ensureSlots x.node a s' = .ok () s'' →
    callsInAssembly a (xs ++ [x]) s = callsInAssembly a xs s ++ callsAt x s''
  | [], _, _, _, _, hall, hopen => by
    cases hall
    show followed (ensureSlots x.node a _) (fun _ s => callsAt x s ++ followed (aggregateAt x a s) fun _ _ => []) = _
    rw [hopen, followed, followed_nil, List.append_nil]
    rfl
  | y :: xs, _, s, _, _, hall, hopen => by
    rw [assembleAll] at hall
    obtain ⟨_, s₁, hopen', hrest⟩ := ok_of_bind hall
    obtain ⟨v, s₂, hone, hrest⟩ := ok_of_bind hrest
    obtain ⟨vs, s₃, hrest, hnil⟩ := ok_of_bind hrest
    cases hnil
    simp only [List.cons_append, callsInAssembly, hopen', hone, followed]
    rw [callsInAssembly_concat x hrest hopen, List.append_assoc]

/-- The assembly calls the aggregator for the requested entries that no turn has made a total for. -/
theorem calls_assembleAll (hf : p.aggregate.Returns)
    (hturns : upTo book (p.order work.heap).reverse a (start p work) = .ok () s) {visited : List NodeId}
    (halong : Along book p a work visited turns s) (before : List Entry) :
    ∀ {after : List Entry} {totals : List Value} {s' : Stage}, p.xs = before ++ after →
      assembleAll before a s = .ok totals s' →
      (callsInAssembly a before s).map Aggregation.query = (Turn.leftOver turns before).map (Turn.query p turns) := by
  induction before using List.reverseRecOn with
  | nil => intros; rfl
  | append_singleton before x ih =>
    intro after totals s' hxs hrun
    obtain ⟨totals, v, s₁, s₂, rfl, hbefore, hopen, hat⟩ := assembleAll_concat hrun
    rw [List.append_assoc, List.singleton_append] at hxs
    obtain ⟨outs, width, opened, known, rfl, h⟩ := assembled_assembleAll hf hturns halong before hxs hbefore
    obtain ⟨width', h'⟩ := h.open (fun hnone => .request hturns hxs hbefore hnone) hopen
    obtain ⟨slot, w, hslot, -, -⟩ := aggregateAt_ok hat
    obtain ⟨ho, hi, -⟩ := h'.holds.slotAt_ok hslot
    rw [callsInAssembly_concat x hbefore hopen, List.map_append, ih hxs hbefore, callsAt_holds h'.holds ho hi,
      Turn.leftOver_concat, List.map_append]
    congr 1
    have hnew := h'.get?_eq_none_iff (h'.turned halong hi)
    by_cases hk : Ledger.get? known x = none
    · rw [if_pos hk, if_neg (hnew.mp hk)]
      rfl
    · rw [if_neg hk, if_pos (not_not.mp fun hx => hk (hnew.mpr hx))]
      rfl

end Log

end Sweep

/-! ## The schedule -/

def Heap.results (h : Heap) (ns : List NodeId) : List Entry :=
  (ns.filter fun n => (h.node n).op.isSome).flatMap h.entries

namespace Problem

/-- The requested entries that no turn makes a total for: of variables, and of nodes that no output depends on. -/
def leftOver (p : Problem) (h : Heap) : List Entry :=
  (p.xs.filter fun x => (h.node x.node).op.isNone ∨ x.node ∉ p.order h).eraseDups

def schedule (p : Problem) (h : Heap) : List Entry := h.results (p.order h).reverse ++ p.leftOver h

end Problem

theorem Heap.mem_results {h : Heap} {ns : List NodeId} {e : Entry} :
    e ∈ h.results ns ↔ e.node ∈ ns ∧ (h.node e.node).op.isSome ∧ (e.index : Int) < h.outputs e.node := by
  simp only [results, List.mem_flatMap, List.mem_filter, Heap.mem_entries]
  constructor
  · rintro ⟨n, ⟨hn, hop⟩, rfl, hi⟩
    exact ⟨hn, hop, hi⟩
  · rintro ⟨hn, hop, hi⟩
    exact ⟨e.node, ⟨hn, hop⟩, rfl, hi⟩

theorem Problem.mem_leftOver {p : Problem} {h : Heap} {x : Entry} :
    x ∈ p.leftOver h ↔ x ∈ p.xs ∧ ((h.node x.node).op = none ∨ ¬ h.Reachable (p.ys.map Entry.node) x.node) := by
  unfold leftOver
  rw [List.mem_eraseDups, List.mem_filter, decide_eq_true_iff, Option.isNone_iff_eq_none]
  refine and_congr_right fun _ => ?_
  by_cases hx : h.Has x.node
  · exact or_congr_right (not_congr ⟨Heap.reachable_of_mem_postorder, Heap.mem_postorder hx⟩)
  · have hnone : (h.node x.node).op = none := by rw [Heap.node_of_not_has hx]; rfl
    exact iff_of_true (.inl hnone) (.inl hnone)

theorem Turn.leftOver_eq {turns : List Turn} {p : Problem} {h : Heap}
    (hnodes : turns.map Turn.node = (p.order h).reverse.filter fun n => (h.node n).op.isSome) :
    Turn.leftOver turns p.xs = p.leftOver h := by
  unfold Turn.leftOver Problem.leftOver
  rw [hnodes]
  refine congrArg List.eraseDups (List.filter_congr fun x _ => decide_eq_decide.mpr ?_)
  rw [List.mem_filter, List.mem_reverse]
  cases (h.node x.node).op <;> simp

namespace Sweep
variable {book : RuleBook} {p : Problem} {a : Ambient} {work : Workspace}

/-- A requested output of a node that had its turn is the total that the turn made. -/
theorem Assembled.mem_totals {turns : List Turn} {outs : List Entry} {width : NodeId → Nat} {opened : List NodeId}
    {known : Ledger Entry Entry} {s s' : Stage} {visited : List NodeId}
    (h : Assembled book p a work turns p.xs outs width opened known s) (halong : Along book p a work visited turns s')
    (hnodup : (turns.map Turn.node).Nodup) {t : Turn} (ht : t ∈ turns) {q : Entry × Entry} (hq : q ∈ p.xs.zip outs)
    (hnode : q.1.node = t.node) : q ∈ t.totals := by
  obtain ⟨i, hi⟩ := List.mem_iff_getElem?.mp hq
  obtain ⟨hx, hout⟩ := List.getElem?_zip_eq_some.mp hi
  have hget : Ledger.get? known q.1 = some q.2 := by
    have hi := congrArg (fun l => l[i]?) h.outputs
    simpa [hx, hout] using hi
  obtain ⟨made, hknown, hmade⟩ := h.made
  rw [hknown] at hget
  rcases List.mem_append.mp (Ledger.mem_of_get? hget) with hmem | hmem
  · obtain ⟨t', ht', hmem⟩ := List.mem_flatMap.mp hmem
    have hnode' : t'.node = t.node := (halong.totals ht' hmem).symm.trans hnode
    exact List.inj_on_of_nodup_map hnodup ht' ht hnode' ▸ hmem
  · have hleft : q.1 ∈ Turn.leftOver turns p.xs := hmade ▸ List.mem_map_of_mem hmem
    exact absurd (hnode ▸ List.mem_map_of_mem ht) (Turn.mem_leftOver.mp hleft).2

theorem calls_run (hf : p.aggregate.Returns) {g : Graph} {stage : Stage}
    (hrun : Sweep.run { problem := p } book a work = .ok g stage) :
    ∃ s turns width opened known, upTo book (p.order work.heap).reverse a (start p work) = .ok () s ∧
      Along book p a work (p.order work.heap).reverse turns s ∧
      Assembled book p a work turns p.xs g.outputs width opened known stage ∧
      (calls book a p work).map Aggregation.query =
        ((turns.map Turn.node).flatMap work.heap.entries ++ Turn.leftOver turns p.xs).map (Turn.query p turns) := by
  rw [run_eq] at hrun
  obtain ⟨_, s, hturns, hassemble⟩ := ok_of_bind hrun
  obtain ⟨turns, halong, hcalls⟩ := calls_upTo hf _ (List.append_nil _).symm hturns
  obtain ⟨totals, hall, houtputs⟩ := assemble_ok hassemble
  obtain ⟨outs, width, opened, known, rfl, hs⟩ := assembled_assembleAll hf hturns halong _ (List.append_nil _).symm hall
  rw [Value.itemsToEntries_map_entry] at houtputs
  cases Except.ok.inj houtputs
  refine ⟨s, turns, width, opened, known, hturns, halong, hs, ?_⟩
  rw [calls, hturns, followed, List.map_append, List.map_append, hcalls,
    calls_assembleAll hf hturns halong _ (List.append_nil _).symm hall]

theorem aggregation_follows_schedule {g : Graph} {stage : Stage} (hf : p.aggregate.Returns)
    (hrun : Sweep.run { problem := p } book a work = .ok g stage) :
    (∀ f, (∀ c ∈ calls book a p work, c.Alike p.aggregate f a) →
      Sweep.run { problem := { p with aggregate := f } } book a work = .ok g (stage.onto { p with aggregate := f })) ∧
    (∀ f, Aggregation.Stops p.aggregate f a (calls book a p work) →
      ∃ e s, Sweep.run { problem := { p with aggregate := f } } book a work = .error e s) ∧
    (∀ x, x ∈ p.leftOver work.heap ↔
      x ∈ p.xs ∧ ((work.heap.node x.node).op = none ∨ ¬ work.heap.Reachable (p.ys.map Entry.node) x.node)) ∧
    ∃ turns : List Turn,
      (turns.map Turn.node).Sublist (p.order work.heap).reverse ∧
      (∀ n ∈ p.order work.heap, n ∈ turns.map Turn.node ↔ Operates book p a work n) ∧
      (∀ t ∈ turns, Taken book p a work t) ∧
      (calls book a p work).map Aggregation.query =
        ((turns.map Turn.node).flatMap work.heap.entries ++ Turn.leftOver turns p.xs).map (Turn.query p turns) ∧
      g.outputs.length = p.xs.length ∧
      (∀ i j : Nat, p.xs[i]? = p.xs[j]? → g.outputs[i]? = g.outputs[j]?) ∧
      (∀ t ∈ turns, ∀ q ∈ p.xs.zip g.outputs, q.1.node = t.node → q ∈ t.totals) ∧
      ((∀ n ∈ p.order work.heap, Undisturbed book p a work n) →
        turns.map Turn.node = (p.order work.heap).reverse.filter (fun n => (work.heap.node n).op.isSome) ∧
        (calls book a p work).map Aggregation.entry = p.schedule work.heap) ∧
      (book.Grows → (∀ grads, Build.Grows (p.aggregate grads)) →
        ∀ n ∈ p.order work.heap, Undisturbed book p a work n) := by
  refine ⟨fun f hcalls => ?_, fun f => run_of_stops, fun x => Problem.mem_leftOver, ?_⟩
  · rw [run_of_calls hcalls, hrun]
    rfl
  obtain ⟨s, turns, width, opened, known, hturns, halong, h, hcalls⟩ := calls_run hf hrun
  have hget : ∀ i : Nat, p.xs[i]?.map (Ledger.get? known) = g.outputs[i]?.map some := by
    intro i
    rw [← List.getElem?_map, ← List.getElem?_map, h.outputs]
  refine ⟨turns, halong.nodes, fun n hn => halong.operators n (List.mem_reverse.mpr hn), halong.taken, hcalls, ?_, ?_, ?_, ?_,
    fun hb hg n hn => undisturbed_of_grows hb hg (Heap.has_of_mem_postorder hn)⟩
  · rw [← List.length_map some, ← h.outputs, List.length_map]
  · intro i j hij
    apply Option.map_injective (Option.some_injective _)
    rw [← hget i, ← hget j, hij]
  · exact fun t ht q hq => h.mem_totals halong (halong.nodes.nodup (nodup_backwards p work.heap)) ht hq
  · intro hu
    obtain ⟨hnodes, -⟩ := halong.undisturbed hturns (List.append_nil _).symm fun n hn => hu n (List.mem_reverse.mp hn)
    refine ⟨hnodes, ?_⟩
    have hentries := congrArg (List.map Prod.fst) hcalls
    rw [List.map_map, List.map_map, hnodes, Turn.leftOver_eq hnodes] at hentries
    exact hentries.trans (List.map_id _)

end Sweep

/-- Two entries are requested twice: an output of a split, and a variable that nothing depends on. -/
def Problem.repeating : Problem :=
  { Problem.sample none with xs := [⟨⟨7⟩, 0⟩, ⟨⟨5⟩, 1⟩, ⟨⟨0⟩, 0⟩, ⟨⟨7⟩, 0⟩, ⟨⟨5⟩, 1⟩] }

theorem Problem.repeating_order : Problem.repeating.order .sample = [⟨0⟩, ⟨5⟩, ⟨6⟩, ⟨1⟩, ⟨2⟩, ⟨3⟩, ⟨4⟩] :=
  Problem.sample_order none

theorem Sweep.aggregation_follows_schedule_repeating : ∃ g stage,
    Sweep.run { problem := .repeating } .builtins .initial { heap := .sample } = .ok g stage ∧
    (calls .builtins .initial .repeating { heap := .sample }).map Aggregation.entry =
      [⟨⟨4⟩, 0⟩, ⟨⟨3⟩, 0⟩, ⟨⟨2⟩, 0⟩, ⟨⟨6⟩, 0⟩, ⟨⟨5⟩, 0⟩, ⟨⟨5⟩, 1⟩, ⟨⟨7⟩, 0⟩, ⟨⟨0⟩, 0⟩] ∧
    g.outputs.length = 5 ∧ g.outputs[0]? = g.outputs[3]? ∧ g.outputs[1]? = g.outputs[4]? ∧
    ∃ turns : List Turn, turns.map Turn.node = [⟨4⟩, ⟨3⟩, ⟨2⟩, ⟨6⟩, ⟨5⟩] ∧
      ∀ t ∈ turns, Taken .builtins .repeating .initial { heap := .sample } t ∧
        ∀ q ∈ Problem.repeating.xs.zip g.outputs, q.1.node = t.node → q ∈ t.totals := by
  have hp : Problem.repeating.Fits .sample := { Problem.sample_fits none with xs := by decide }
  have hb := RuleBook.builtins_follows.grows
  have hf : Problem.repeating.aggregate.Proper := Aggregator.standard_proper
  have hrelay : ∃ g w, Build.relay .builtins .repeating .initial { heap := .sample } = .ok g w := by
    have hstrays : ∀ n ∈ Problem.repeating.order .sample, (Heap.sample.node n).strays = none := by
      rw [Problem.repeating_order]
      simp [Heap.sample, Heap.node]
    rw [Build.relay_run hstrays rfl Ambient.initial_quiet, Problem.repeating_order]
    decide +kernel
  obtain ⟨g, w, hrelay⟩ := hrelay
  obtain ⟨stage, hrun, -⟩ := run_of_relay hp hb hf hrelay
  obtain ⟨-, -, -, turns, -, -, htaken, -, hlen, hsame, htotals, hstatic, hgrows⟩ :=
    aggregation_follows_schedule hf.returns hrun
  obtain ⟨hnodes, hcalls⟩ := hstatic (hgrows hb hf.grows)
  have hheap : ({ heap := .sample } : Workspace).heap = .sample := rfl
  have hschedule : Problem.repeating.schedule .sample =
      [⟨⟨4⟩, 0⟩, ⟨⟨3⟩, 0⟩, ⟨⟨2⟩, 0⟩, ⟨⟨6⟩, 0⟩, ⟨⟨5⟩, 0⟩, ⟨⟨5⟩, 1⟩, ⟨⟨7⟩, 0⟩, ⟨⟨0⟩, 0⟩] := by
    rw [Problem.schedule, Problem.leftOver, Problem.repeating_order]
    decide +kernel
  rw [hheap, Problem.repeating_order] at hnodes
  rw [hheap, hschedule] at hcalls
  exact ⟨g, stage, hrun, hcalls, hlen, hsame 0 3 rfl, hsame 1 4 rfl, turns, hnodes,
    fun t ht => ⟨htaken t ht, htotals t ht⟩⟩

end Backprop
