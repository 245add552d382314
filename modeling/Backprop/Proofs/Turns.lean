import Backprop.Proofs.ActionLemmas

/-!
# The sweep without slots

The same construction, told by its turns: one turn for each operator node that
has been gone through, with the totals of its outputs and the gradients passed
on to its inputs. What has arrived for an entry is read off the turns and the
seeds, so there is nothing that could be looked up in vain or come too late.
`TurnSound` shows that on graphs without cycles the sweep is this construction.
-/

namespace Backprop

def Problem.order (p : Problem) (h : Heap) : List NodeId := h.postorder (p.ys.map Entry.node)

/-- A node that has been gone through: its outputs with their totals, and its inputs with what was passed on. -/
structure Turn where
  node : NodeId
  totals : List (Entry × Entry)
  grads : List (Entry × Entry)
  deriving Repr

namespace Turn

def passedTo (pairs : List (Entry × Entry)) (e : Entry) : List Entry := (pairs.filter fun q => q.1 = e).map Prod.snd

def seeded (pairs : List (Entry × Entry)) (e : Entry) : List Entry :=
  ((pairs.filter fun q => q.1 = e).getLast?.map Prod.snd).toList

/-- What has arrived for an entry: its seed, then what was passed on to it turn by turn. -/
def arrived (p : Problem) (turns : List Turn) (e : Entry) : List Entry :=
  seeded (p.ys.zip p.seeds) e ++ turns.flatMap fun t => passedTo t.grads e

def known (turns : List Turn) : Ledger Entry Entry := turns.flatMap Turn.totals

def forward (mirrors : Option MirrorMap) (n : NodeId) : NodeId :=
  match mirrors with
  | none => n
  | some m => (Ledger.get? m n).getD n

end Turn

namespace Build

def reduce (f : Aggregator) (grads : List Entry) : Build Entry := do
  match ← f (grads.map .entry) with
  | .entry e => return e
  | v => throw (.graph (.notANode v.kind))

def reduceAll (f : Aggregator) : List (List Entry) → Build (List Entry)
  | [] => return []
  | grads :: rest => do
    let total ← reduce f grads
    return total :: (← reduceAll f rest)

def gradientsOf (op : Op) (node : Node) : List Value → Except Fault (List Entry)
  | [] => .ok []
  | .entry e :: rest => (gradientsOf op node rest).map (e :: ·)
  | v :: _ => .error (.gradient (.gradientKind op.name node.name v.kind))

def pull (book : RuleBook) (mirrors : Option MirrorMap) (n : NodeId) (op : Op) (node : Node) (totals : List Value) :
    Build (List Value) := do
  match ← book.find n with
  | none => throw (.gradient (.noRule op.name node.name))
  | some implementation =>
    match implementation.rule with
    | none => throw (.misuse .notIterable)
    | some rule => rule (Turn.forward mirrors n) totals

def logTurn (level : Level) (node : Node) (grads : List Value) : Build Unit := do
  let h ← heap
  log level Sweep.source s!"Propagated gradients through {node.describe}: {h.describeEntries (Sweep.entriesOf grads)}"

def takeTurn (book : RuleBook) (p : Problem) (mirrors : Option MirrorMap) (level : Level) (turns : List Turn)
    (n : NodeId) (op : Op) (node : Node) : Build Turn := do
  let outputs := (← heap).entries n
  let totals ← reduceAll p.aggregate (outputs.map (Turn.arrived p turns))
  let grads ← pull book mirrors n op node (totals.map .entry)
  if grads.length = node.inputs.length then
    let entries ← ofExcept (gradientsOf op node grads)
    logTurn level node grads
    return { node := n, totals := outputs.zip totals, grads := node.inputs.zip entries }
  else throw (.gradient (.gradientCount op.name node.name grads.length node.inputs.length))

def turnOf (book : RuleBook) (p : Problem) (mirrors : Option MirrorMap) (level : Level) (turns : List Turn)
    (n : NodeId) : Build (List Turn) := do
  let node := (← heap).node n
  match node.op with
  | none => return []
  | some op => return [← takeTurn book p mirrors level turns n op node]

def takeTurns (book : RuleBook) (p : Problem) (mirrors : Option MirrorMap) (level : Level) :
    List NodeId → List Turn → Build (List Turn)
  | [], turns => return turns
  | n :: rest, turns => do
    let new ← turnOf book p mirrors level turns n
    takeTurns book p mirrors level rest (turns ++ new)

def collect (p : Problem) (turns : List Turn) : List Entry → Ledger Entry Entry → Build (List Entry)
  | [], _ => return []
  | x :: rest, known =>
    match Ledger.get? known x with
    | some total => do return total :: (← collect p turns rest known)
    | none => do
      let total ← reduce p.aggregate (Turn.arrived p turns x)
      return total :: (← collect p turns rest (known ++ [(x, total)]))

def visitEvent (p : Problem) (h : Heap) : Event :=
  .log .debug Sweep.source s!"Gradient pass visited {(p.order h).length} nodes from {p.ys.length} outputs"

def visited (p : Problem) : Build Unit := do
  let h ← heap
  ofExcept (h.checkOrder (p.order h))
  emit (visitEvent p h)

def prepared (p : Problem) : Build (Option MirrorMap) := do
  let h ← heap
  visited p
  mirrorMap (p.order h) p.mirror none

def turnLevel : Build Level := do return if ← flag ["debugprint"] then .info else .debug

def turnsOf (book : RuleBook) (p : Problem) (ns : List NodeId) : Build (List Turn) := do
  let mirrors ← prepared p
  let level ← turnLevel
  takeTurns book p mirrors level ns []

/-- The gradients of the requested entries, turn by turn. -/
def relay (book : RuleBook) (p : Problem) : Build Graph := do
  let h ← heap
  let turns ← turnsOf book p (p.order h).reverse
  return { outputs := ← collect p turns p.xs (Turn.known turns) }

end Build

theorem Turn.mem_passedTo {pairs : List (Entry × Entry)} {e g : Entry} (h : g ∈ Turn.passedTo pairs e) :
    ∃ q ∈ pairs, q.2 = g := by
  obtain ⟨q, hq, rfl⟩ := List.mem_map.mp h
  exact ⟨q, List.mem_of_mem_filter hq, rfl⟩

theorem Turn.mem_seeded {pairs : List (Entry × Entry)} {e g : Entry} (h : g ∈ Turn.seeded pairs e) :
    ∃ q ∈ pairs, q.2 = g := by
  obtain ⟨q, hq, rfl⟩ := Option.map_eq_some_iff.mp (Option.mem_toList.mp h)
  exact ⟨q, List.mem_of_mem_filter (List.mem_of_getLast? hq), rfl⟩

/-- What holds of the seeds and of all that was passed on holds of what has arrived. -/
theorem Turn.forall_arrived {p : Problem} {turns : List Turn} {P : Entry → Prop} (hseeds : ∀ g ∈ p.seeds, P g)
    (hturns : ∀ t ∈ turns, ∀ q ∈ t.grads, P q.2) (e : Entry) : ∀ g ∈ Turn.arrived p turns e, P g := by
  intro g hg
  rcases List.mem_append.mp hg with hg | hg
  · obtain ⟨q, hq, rfl⟩ := Turn.mem_seeded hg
    exact hseeds _ (List.of_mem_zip hq).2
  · obtain ⟨t, ht, hg⟩ := List.mem_flatMap.mp hg
    obtain ⟨q, hq, rfl⟩ := Turn.mem_passedTo hg
    exact hturns t ht q hq

theorem Build.mem_gradientsOf {op : Op} {node : Node} {vs : List Value} {es : List Entry}
    (h : Build.gradientsOf op node vs = .ok es) {e : Entry} (he : e ∈ es) : Value.entry e ∈ vs := by
  induction vs generalizing es with
  | nil => cases h; cases he
  | cons v rest ih =>
    cases v with
    | entry e₁ =>
      rw [Build.gradientsOf] at h
      cases hrest : Build.gradientsOf op node rest with
      | error fault => rw [hrest] at h; cases h
      | ok es₁ =>
        rw [hrest] at h
        cases h
        rcases List.mem_cons.mp he with rfl | he
        · exact List.mem_cons_self
        · exact List.mem_cons_of_mem _ (ih hrest he)
    | _ => cases h

theorem Build.gradientsOf_map_entry (op : Op) (node : Node) :
    ∀ es : List Entry, Build.gradientsOf op node (es.map .entry) = .ok es
  | [] => rfl
  | e :: es => by
    rw [List.map_cons, gradientsOf, gradientsOf_map_entry op node es]
    rfl

theorem Build.logTurn_run (level : Level) (node : Node) (grads : List Value) (a : Ambient) (w : Workspace) :
    ∃ trace, Build.logTurn level node grads a w = .ok () { w with trace } := ⟨_, rfl⟩

end Backprop
