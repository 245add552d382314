import Backprop.Proofs.MirrorSound

/-!
# What is done with the slots

The sweep beside a construction without slots (`Tracks`): both have the same
effect on the workspace and fail alike. As long as the slots that are looked up
are open, and those that are added to have no total yet, aggregating slots is
reducing lists of entries, and passing gradients on only extends such lists.
-/

namespace Backprop

/-! ## Sweeping beside building -/

section Tracks
variable {α β γ δ : Type}

/-- The sweep and the building have the same effect on the workspace and the same faults. -/
def Tracks (x : Sweeping α) (y : Build β) (a : Ambient) (s : Stage) (Q : α → β → Stage → Prop) : Prop :=
  Coupled x y a s s.work (fun r s' q w => s'.work = w ∧ Q r q s') fun e s' f w => e = f ∧ s'.work = w

namespace Tracks
variable {x : Sweeping α} {y : Build β} {a : Ambient} {s s' u : Stage} {r : α} {q : β} {P P' : α → β → Stage → Prop}

theorem pure (hp : P r q s) : Tracks (pure r) (pure q) a s P := ⟨rfl, hp⟩

theorem throw {e : Fault} : Tracks (throw e) (throw e) a s P := ⟨rfl, rfl⟩

theorem ok (h : Tracks x y a s P) (hx : x a s = .ok r s') : ∃ q, y a s.work = .ok q s'.work ∧ P r q s' := by
  obtain ⟨q, w, hy, rfl, hq⟩ := Coupled.ok_left h hx
  exact ⟨q, hy, hq⟩

theorem error {e : Fault} (h : Tracks x y a s P) (hx : x a s = .error e s') : y a s.work = .error e s'.work := by
  obtain ⟨f, w, hy, rfl, rfl⟩ := Coupled.error_left h hx
  exact hy

theorem with_runs (h : Tracks x y a s P) :
    Tracks x y a s fun r q s' => x a s = .ok r s' ∧ y a s.work = .ok q s'.work ∧ P r q s' := by
  unfold Tracks Coupled at h ⊢
  cases hx : x a s with
  | ok r s' =>
    cases hy : y a s.work with
    | ok q w => rw [hx, hy] at h; exact ⟨h.1, rfl, by rw [h.1], h.2⟩
    | error f w => rw [hx, hy] at h; exact h
  | error e s' =>
    cases hy : y a s.work with
    | ok q w => rw [hx, hy] at h; exact h
    | error f w => rw [hx, hy] at h; exact h

theorem mono (h : Tracks x y a s P) (hp : ∀ r q s', P r q s' → P' r q s') : Tracks x y a s P' :=
  Coupled.mono h (fun r s' q _ hr => ⟨hr.1, hp r q s' hr.2⟩) fun _ _ _ _ h => h

theorem bind {f : α → Sweeping γ} {g : β → Build δ} {Q : γ → δ → Stage → Prop} (hxy : Tracks x y a s P)
    (hfg : ∀ r q s', P r q s' → Tracks (f r) (g q) a s' Q) : Tracks (x >>= f) (y >>= g) a s Q := by
  refine Coupled.bind hxy fun r s' q w hp => ?_
  obtain ⟨rfl, hp⟩ := hp
  exact hfg r q s' hp

/-- What the sweep does by itself leaves the workspace alone. -/
theorem left {f : α → Sweeping γ} {Q : γ → β → Stage → Prop} (hx : x a s = .ok r u) (hw : u.work = s.work)
    (h : Tracks (f r) y a u Q) : Tracks (x >>= f) y a s Q := by
  unfold Tracks at h ⊢
  rw [hw] at h
  exact Coupled.left hx h

theorem right {g : β → Build δ} {Q : α → δ → Stage → Prop} (hy : y a s.work = .ok q s.work)
    (h : Tracks x (g q) a s Q) : Tracks x (y >>= g) a s Q := Coupled.right hy h

theorem map_right {Q : α → δ → Stage → Prop} {f : β → δ} (h : Tracks x y a s P)
    (hq : ∀ r q s', P r q s' → Q r (f q) s') : Tracks x (y >>= fun q => Pure.pure (f q)) a s Q := by
  have := h.bind (f := fun r => Pure.pure r) (g := fun q => Pure.pure (f q)) (Q := Q) fun r q s' hp =>
    .pure (hq r q s' hp)
  rwa [bind_pure] at this

theorem then_left {f : α → Sweeping γ} {Q : γ → β → Stage → Prop} (h : Tracks x y a s P)
    (hf : ∀ r q s', P r q s' → ∃ r' s'', f r a s' = .ok r' s'' ∧ s''.work = s'.work ∧ Q r' q s'') :
    Tracks (x >>= f) y a s Q := by
  rw [← bind_pure y]
  refine h.bind fun r q s' hp => ?_
  obtain ⟨r', s'', hrun, hwork, hq⟩ := hf r q s' hp
  rw [← bind_pure (f r)]
  exact .left hrun hwork (.pure hq)

theorem lift (act : Build α) (a : Ambient) (s : Stage) :
    Tracks (Sweeping.lift act) act a s fun r q s' => r = q ∧ s'.sweep = s.sweep := by
  unfold Tracks Coupled Sweeping.lift
  cases hx : act a s.work with
  | ok r w => exact ⟨rfl, rfl, rfl⟩
  | error e w => exact ⟨rfl, rfl⟩

/-- The sweep ends as the building does. -/
theorem ends (h : Tracks x y a s P) : Ends x a s (fun r s' => ∃ q, y a s.work = .ok q s'.work ∧ P r q s')
    fun e => ∃ w, y a s.work = .error e w := by
  unfold Ends
  cases hx : x a s with
  | ok r s' => exact h.ok hx
  | error e s' => exact ⟨s'.work, h.error hx⟩

end Tracks

end Tracks

/-! ## What callers hand in -/

/-- The aggregator makes entries of entries. -/
def Aggregator.Returns (f : Aggregator) : Prop :=
  ∀ (grads : List Entry) (a : Ambient) (w w' : Workspace) (v : Value),
    f (grads.map .entry) a w = .ok v w' → ∃ e, v = .entry e

/-- It adds nodes besides, and changes none. -/
structure Aggregator.Proper (f : Aggregator) : Prop where
  grows : ∀ grads, Build.Grows (f grads)
  returns : f.Returns

/-- The rules in the book add nodes and change none. -/
def RuleBook.Grows (book : RuleBook) : Prop :=
  ∀ q ∈ book, ∀ rule, q.2.implementation.rule = some rule → ∀ n grads, Build.Grows (rule n grads)

theorem RuleBook.mem_candidates {op : String} {n : NodeId} {node : Node} : ∀ {book : RuleBook}
    {found : List (Datum × Implementation)}, RuleBook.candidates op n node book = .ok found →
    ∀ c ∈ found, ∃ q ∈ book, q.2.implementation = c.2
  | [], found, h, c, hc => by
    rw [candidates] at h
    cases h
    cases hc
  | (path, r) :: rest, found, h, c, hc => by
    have ih : ∀ found, candidates op n node rest = .ok found → ∀ c ∈ found,
        ∃ q ∈ (path, r) :: rest, q.2.implementation = c.2 := fun found hf c hc => by
      obtain ⟨q, hq, he⟩ := mem_candidates hf c hc
      exact ⟨q, List.mem_cons_of_mem _ hq, he⟩
    rw [candidates] at h
    split at h
    · cases h
    · split at h
      · split at h
        · cases h
        · cases hr : candidates op n node rest with
          | error e => rw [hr] at h; cases h
          | ok found' =>
            rw [hr] at h
            cases h
            rcases List.mem_cons.mp hc with rfl | hc
            · exact ⟨(path, r), by simp, rfl⟩
            · exact ih found' hr c hc
        · exact ih found h c hc
      · exact ih found h c hc

namespace RuleBook

def lookup (book : RuleBook) (n : NodeId) (node : Node) : Except Fault (Option Implementation) :=
  match node.op with
  | none => .ok none
  | some op =>
    (candidates op.name n node book).map fun found =>
      (preferred (wanted node) found).or (found.head?.map Prod.snd)

theorem find_run (book : RuleBook) (n : NodeId) (a : Ambient) (w : Workspace) :
    ∃ trace, book.find n a w = match book.lookup n (w.heap.node n) with
      | .ok found => .ok found { w with trace }
      | .error e => .error e w := by
  unfold find lookup
  rw [run_bind_ok (r := w.heap) (u := w) rfl]
  cases (w.heap.node n).op with
  | none => exact ⟨w.trace, rfl⟩
  | some op =>
    cases hc : candidates op.name n (w.heap.node n) book with
    | error e => exact ⟨w.trace, by simp only [hc, Build.ofExcept]; rfl⟩
    | ok found =>
      simp only [hc, Build.ofExcept, Except.map]
      rw [run_bind_ok (r := found) (u := w) rfl]
      cases preferred (wanted (w.heap.node n)) found with
      | some implementation => exact ⟨w.trace, rfl⟩
      | none =>
        by_cases ht : (wanted (w.heap.node n)).truth = true
        · simp only [ht, if_true]; exact ⟨_, rfl⟩
        · simp only [ht]; exact ⟨w.trace, rfl⟩

theorem mem_lookup {book : RuleBook} {n : NodeId} {node : Node} {implementation : Implementation}
    (h : book.lookup n node = .ok (some implementation)) : ∃ q ∈ book, q.2.implementation = implementation := by
  unfold lookup at h
  split at h
  · cases h
  · next op _ =>
    cases hc : candidates op.name n node book with
    | error e => rw [hc] at h; cases h
    | ok found =>
      rw [hc] at h
      simp only [Except.map, Except.ok.injEq, Option.or_eq_some_iff] at h
      have hmem : ∃ c ∈ found, c.2 = implementation := by
        rcases h with h | ⟨-, h⟩
        · unfold preferred at h
          split at h
          · obtain ⟨c, hf, rfl⟩ := Option.map_eq_some_iff.mp h
            exact ⟨c, List.mem_of_find?_eq_some hf, rfl⟩
          · cases h
        · obtain ⟨c, hf, rfl⟩ := Option.map_eq_some_iff.mp h
          exact ⟨c, List.mem_of_mem_head? hf, rfl⟩
      obtain ⟨c, hc', rfl⟩ := hmem
      exact mem_candidates hc c hc'

theorem find_ends (book : RuleBook) (n : NodeId) (a : Ambient) (w : Workspace) :
    Ends (book.find n) a w
      (fun found w' => w.heap.GrowsTo w'.heap ∧ ∀ i, found = some i → ∃ q ∈ book, q.2.implementation = i)
      fun e => book.lookup n (w.heap.node n) = .error e := by
  obtain ⟨trace, hrun⟩ := book.find_run n a w
  unfold Ends
  rw [hrun]
  cases hl : book.lookup n (w.heap.node n) with
  | ok found => exact ⟨.refl _, fun i hi => mem_lookup (hi ▸ hl)⟩
  | error e => rfl

end RuleBook

/-! ## Single slots -/

def Slot.of (partials : Entry → List Entry) (known : Ledger Entry Entry) (e : Entry) : Slot where
  partials := (partials e).map .entry
  total := (Ledger.get? known e).map .entry

structure Sweep.Alike (s s' : Sweep) : Prop where
  problem : s'.problem = s.problem
  order : s'.order = s.order
  mirrors : s'.mirrors = s.mirrors

theorem Sweep.Alike.refl (s : Sweep) : s.Alike s := ⟨rfl, rfl, rfl⟩

theorem Sweep.Alike.trans {s s' s'' : Sweep} (h : s.Alike s') (h' : s'.Alike s'') : s.Alike s'' :=
  ⟨h'.problem.trans h.problem, h'.order.trans h.order, h'.mirrors.trans h.mirrors⟩

theorem Sweep.alike_putSlot (s : Sweep) (e : Entry) (slot : Slot) : s.Alike (s.putSlot e slot) :=
  ⟨(s.putSlot_fields e slot).1, (s.putSlot_fields e slot).2.1, (s.putSlot_fields e slot).2.2⟩

section Slots
variable {width : NodeId → Nat} {opened : List NodeId} {partials : Entry → List Entry} {known : Ledger Entry Entry} {a : Ambient}

theorem Slot.update_total {e total : Entry} (hk : Ledger.get? known e = none) :
    Function.update (Slot.of partials known) e { Slot.of partials known e with total := some (.entry total) } =
      Slot.of partials (known ++ [(e, total)]) := by
  funext e'
  by_cases he : e' = e
  · subst he
    simp [Slot.of, Ledger.get?_append, hk, Ledger.get?]
  · have : ¬ e = e' := fun hh => he hh.symm
    simp [Function.update_of_ne he, Slot.of, Ledger.get?_append, Ledger.get?, this]

theorem Slot.update_partials {e grad : Entry} (hk : Ledger.get? known e = none) :
    Function.update (Slot.of partials known) e
        { partials := (Slot.of partials known e).partials ++ [.entry grad], total := none } =
      Slot.of (fun e' => partials e' ++ if e = e' then [grad] else []) known := by
  funext e'
  by_cases he : e' = e
  · subst he
    simp [Slot.of, hk]
  · have : ¬ e = e' := fun hh => he hh.symm
    simp [Function.update_of_ne he, Slot.of, this]

/-- A slot that has not been aggregated is reduced, and its total is kept. -/
theorem aggregateAt_tracks {s : Stage} {e : Entry} (hf : s.sweep.problem.aggregate.Returns)
    (hs : s.sweep.Holds width opened (Slot.of partials known)) (hn : e.node ∈ opened)
    (hi : e.index < width e.node) (hk : Ledger.get? known e = none) :
    Tracks (Sweep.aggregateAt e) (Build.reduce s.sweep.problem.aggregate (partials e)) a s fun r q s' =>
      r = .entry q ∧ s.sweep.Alike s'.sweep ∧ s'.sweep.Holds width opened (Slot.of partials (known ++ [(e, q)])) := by
  unfold Sweep.aggregateAt Build.reduce
  refine .left (r := s.sweep) (u := s) rfl rfl ?_
  refine .left (r := s.work.heap) (u := s) rfl rfl ?_
  refine .left (r := Slot.of partials known e) (u := s) (by rw [hs.slotAt hn hi]; rfl) rfl ?_
  have hagg : (Slot.of partials known e).aggregate s.sweep.problem.aggregate =
      s.sweep.problem.aggregate ((partials e).map .entry) := by
    simp [Slot.aggregate, Slot.of, hk]
  rw [hagg]
  refine .bind (Tracks.lift _ a s).with_runs ?_
  rintro v _ s' ⟨-, hcall, rfl, hsw⟩
  obtain ⟨q, rfl⟩ := hf _ _ _ _ _ hcall
  refine .left (r := ()) (u := { s' with sweep := s'.sweep.putSlot e _ }) rfl rfl ?_
  refine .pure ⟨rfl, hsw ▸ Sweep.alike_putSlot _ _ _, ?_⟩
  rw [← Slot.update_total hk, hsw]
  exact hs.putSlot hn _

theorem aggregateAt_known {s : Stage} {e total : Entry} (hs : s.sweep.Holds width opened (Slot.of partials known))
    (hn : e.node ∈ opened) (hi : e.index < width e.node) (hk : Ledger.get? known e = some total) :
    ∃ s', Sweep.aggregateAt e a s = .ok (.entry total) s' ∧ s'.work = s.work ∧ s.sweep.Alike s'.sweep ∧
      s'.sweep.Holds width opened (Slot.of partials known) := by
  refine ⟨{ s with sweep := s.sweep.putSlot e (Slot.of partials known e) }, ?_, rfl, Sweep.alike_putSlot _ _ _, ?_⟩
  · unfold Sweep.aggregateAt
    rw [run_bind_ok (r := s.sweep) (u := s) rfl, run_bind_ok (r := s.work.heap) (u := s) rfl,
      run_bind_ok (r := Slot.of partials known e) (u := s) (by rw [hs.slotAt hn hi]; rfl),
      run_bind_ok (r := .entry total) (u := s) (by simp [Slot.aggregate, Slot.of, hk, Sweeping.lift])]
    have : { Slot.of partials known e with total := (Value.entry total).some? } = Slot.of partials known e := by
      simp [Slot.of, hk, Value.some?, Value.isNull]
    rw [this]
    rfl
  · have := hs.putSlot hn (Slot.of partials known e)
    rwa [Function.update_eq_self] at this

theorem aggregateAll_tracks : ∀ {es : List Entry} {s : Stage} {known : Ledger Entry Entry},
    s.sweep.problem.aggregate.Returns → s.sweep.Holds width opened (Slot.of partials known) → es.Nodup →
    (∀ e ∈ es, e.node ∈ opened ∧ e.index < width e.node ∧ Ledger.get? known e = none) →
    Tracks (Sweep.aggregateAll es) (Build.reduceAll s.sweep.problem.aggregate (es.map partials)) a s fun r q s' =>
      r = q.map .entry ∧ q.length = es.length ∧ s.sweep.Alike s'.sweep ∧
        s'.sweep.Holds width opened (Slot.of partials (known ++ es.zip q))
  | [], s, known, _, hs, _, _ => .pure ⟨rfl, rfl, .refl _, by simpa using hs⟩
  | e :: es, s, known, hf, hs, hnd, he => by
    obtain ⟨hn, hi, hk⟩ := he e (by simp)
    rw [Sweep.aggregateAll, List.map_cons, Build.reduceAll]
    refine .bind (aggregateAt_tracks hf hs hn hi hk) ?_
    rintro _ q s₁ ⟨rfl, halike, hs₁⟩
    have he₁ : ∀ e' ∈ es, e'.node ∈ opened ∧ e'.index < width e'.node ∧
        Ledger.get? (known ++ [(e, q)]) e' = none := by
      intro e' he'
      obtain ⟨hn', hi', hk'⟩ := he e' (List.mem_cons_of_mem _ he')
      have hne : e ≠ e' := fun hh => (List.nodup_cons.mp hnd).1 (hh ▸ he')
      exact ⟨hn', hi', Ledger.get?_concat_of_ne hk' hne⟩
    have ih := aggregateAll_tracks (halike.problem ▸ hf) hs₁ (List.nodup_cons.mp hnd).2 he₁
    rw [halike.problem] at ih
    refine .bind ih ?_
    rintro _ qs s₂ ⟨rfl, hlen, halike', hs₂⟩
    refine .pure ⟨rfl, by simp [hlen], halike.trans halike', ?_⟩
    simpa using hs₂

theorem Turn.passedTo_cons (input grad : Entry) (pairs : List (Entry × Entry)) (e : Entry) :
    passedTo ((input, grad) :: pairs) e = (if input = e then [grad] else []) ++ passedTo pairs e := by
  unfold passedTo
  by_cases he : input = e <;> simp [he]

theorem scatterOne_run {s : Stage} {input : Entry} (n : NodeId) (grad : Entry)
    (hs : s.sweep.Holds width opened (Slot.of partials known)) (hn : input.node ∈ opened)
    (hi : input.index < width input.node) (hk : Ledger.get? known input = none) :
    ∃ s', Sweep.scatterOne n input (.entry grad) a s = .ok () s' ∧ s'.work = s.work ∧ s.sweep.Alike s'.sweep ∧
      s'.sweep.Holds width opened (Slot.of (fun e => partials e ++ if input = e then [grad] else []) known) := by
  let slot : Slot := { partials := (Slot.of partials known input).partials ++ [.entry grad], total := none }
  refine ⟨{ s with sweep := s.sweep.putSlot input slot }, ?_, rfl, Sweep.alike_putSlot _ _ _, ?_⟩
  · have hadd : (Slot.of partials known input).add s.work.heap (.entry grad) = .ok slot := by
      simp [slot, Slot.add, Slot.of, hk]
    unfold Sweep.scatterOne
    simp only
    rw [run_bind_ok (r := s.sweep) (u := s) rfl, run_bind_ok (r := s.work.heap) (u := s) rfl,
      run_bind_ok (r := Slot.of partials known input) (u := s) (by rw [hs.slotAt hn hi]; rfl),
      run_bind_ok (u := s) (by rw [hadd]; rfl)]
    rfl
  · rw [← Slot.update_partials hk]
    exact hs.putSlot hn _

theorem blame_run {α : Type} {s : Stage} {n : NodeId} {node : Node} {op : Op} (hnode : s.work.heap.node n = node)
    (hop : node.op = some op) (fault : String → String → GradientFault) :
    Sweep.blame (α := α) n fault a s = .error (.gradient (fault op.name node.name)) s := by
  unfold Sweep.blame
  rw [run_bind_ok (r := s.work.heap) (u := s) rfl]
  simp only [hnode, hop]
  rfl

theorem ofExcept_map {α β : Type} (x : Except Fault α) (f : α → β) :
    Build.ofExcept (x.map f) = (Build.ofExcept x >>= fun r => pure (f r) : Build β) := by
  cases x <;> rfl

/-- Passing on succeeds as far as the gradients are entries, and a failure names the node and its operator. -/
theorem scatter_tracks {n : NodeId} {node : Node} {op : Op} (hop : node.op = some op) :
    ∀ {inputs : List Entry} {grads : List Value} {s : Stage} {partials : Entry → List Entry},
    s.work.heap.node n = node → inputs.length = grads.length → s.sweep.Holds width opened (Slot.of partials known) →
    (∀ e ∈ inputs, e.node ∈ opened ∧ e.index < width e.node ∧ Ledger.get? known e = none) →
    Tracks (Sweep.scatter n (inputs.zip grads)) (Build.ofExcept (Build.gradientsOf op node grads)) a s
      fun _ q s' => grads = q.map .entry ∧ s.sweep.Alike s'.sweep ∧
        s'.sweep.Holds width opened (Slot.of (fun e => partials e ++ Turn.passedTo (inputs.zip q) e) known)
  | [], [], s, partials, _, _, hs, _ => .pure ⟨rfl, .refl _, by simpa [Turn.passedTo] using hs⟩
  | input :: inputs, grad :: grads, s, partials, hnode, hlen, hs, he => by
    obtain ⟨hn, hi, hk⟩ := he input (by simp)
    rw [List.zip_cons_cons, Sweep.scatter]
    have hblame : ∀ kind, Sweep.blame (α := Unit) n (fun op name => .gradientKind op name kind) a s =
        .error (.gradient (.gradientKind op.name node.name kind)) s := fun kind => blame_run hnode hop _
    cases grad with
    | entry grad =>
      obtain ⟨s₁, hrun, hwork, halike, hs₁⟩ := scatterOne_run (a := a) n grad hs hn hi hk
      refine .left hrun hwork ?_
      rw [Build.gradientsOf, ofExcept_map]
      refine .map_right (scatter_tracks hop (hwork ▸ hnode) (by simpa using hlen) hs₁
        fun e he' => he e (List.mem_cons_of_mem _ he')) ?_
      rintro _ q s' ⟨rfl, halike', hs'⟩
      refine ⟨rfl, halike.trans halike', ?_⟩
      simpa only [List.zip_cons_cons, Turn.passedTo_cons, List.append_assoc] using hs'
    | data d => exact Coupled.of_error (run_bind_error (hblame _)) rfl ⟨rfl, rfl⟩
    | node n => exact Coupled.of_error (run_bind_error (hblame _)) rfl ⟨rfl, rfl⟩
    | list l => exact Coupled.of_error (run_bind_error (hblame _)) rfl ⟨rfl, rfl⟩
    | object o => exact Coupled.of_error (run_bind_error (hblame _)) rfl ⟨rfl, rfl⟩
  | [], _ :: _, _, _, _, hlen, _, _ => by simp at hlen
  | _ :: _, [], _, _, _, hlen, _, _ => by simp at hlen

end Slots

end Backprop
