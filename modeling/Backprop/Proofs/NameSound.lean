import Backprop.Proofs.FrameSound
import Backprop.Proofs.SizeSound

/-!
# Generated names are distinct

A generated name is a stem, an underscore and the number of names that were
made from the stem before. The number has no underscore in it, so the last
underscore tells where the stem ends, even if the stem itself looks like a
generated name. Names of different stems therefore differ, and names of one
stem differ by their numbers, since a count only goes up.

`Heap.Issued` says which names have come up between two heaps: those numbered
from the earlier counts up to the later ones. What a call makes is of this
form, and lists of names that follow one another can be put together.
-/

namespace Backprop

/-! ## Stems and numbers -/

def Heap.numbered (stem : String) (k : Nat) : String := s!"{stem}_{k}"

theorem append_cons_inj {α : Type} {l l' r r' : List α} {x : α} (hr : x ∉ r) (hr' : x ∉ r')
    (h : l ++ x :: r = l' ++ x :: r') : l = l' ∧ r = r' := by
  rcases List.append_eq_append_iff.mp h with ⟨m, hl, hm⟩ | ⟨m, hl, hm⟩
  · cases m with
    | nil => simp_all
    | cons y m =>
      rw [List.cons_append, List.cons.injEq] at hm
      exact absurd (hm.2 ▸ by simp) hr
  · cases m with
    | nil => simp_all
    | cons y m =>
      rw [List.cons_append, List.cons.injEq] at hm
      exact absurd (hm.2 ▸ by simp) hr'

namespace Heap

theorem toList_numbered (stem : String) (k : Nat) :
    (numbered stem k).toList = stem.toList ++ '_' :: Nat.toDigits 10 k := by
  show (stem ++ "_" ++ toString k).toList = _
  rw [Nat.toString_eq_ofList_toDigits]
  simp

/-- The last underscore divides a generated name. -/
theorem numbered_inj {stem stem' : String} {k k' : Nat} :
    numbered stem k = numbered stem' k' ↔ stem = stem' ∧ k = k' := by
  constructor
  · intro h
    have hchars := congrArg String.toList h
    rw [toList_numbered, toList_numbered] at hchars
    obtain ⟨hstem, hdigits⟩ := append_cons_inj Nat.underscore_not_in_toDigits
      Nat.underscore_not_in_toDigits hchars
    refine ⟨String.toList_injective hstem, ?_⟩
    rw [← Nat.ofDigitChars_ten_toDigits (n := k), hdigits, Nat.ofDigitChars_ten_toDigits]
  · rintro ⟨rfl, rfl⟩
    rfl

/-! ## Names that come up between two heaps -/

variable {h h' h'' : Heap}

/-- The names are those made while the one heap became the other, each once. -/
structure Issued (h h' : Heap) (names : List String) : Prop where
  nodup : names.Nodup
  mem_iff : ∀ name, name ∈ names ↔ ∃ stem k, name = numbered stem k ∧ h.count stem ≤ k ∧ k < h'.count stem
  counts : ∀ stem, h.count stem ≤ h'.count stem

theorem Issued.of_counters_eq (heq : h'.counters = h.counters) : h.Issued h' [] := by
  have hcount : ∀ stem, h'.count stem = h.count stem := fun stem => by rw [count, count, heq]
  refine ⟨List.nodup_nil, fun name => ?_, fun stem => Nat.le_of_eq (hcount stem).symm⟩
  constructor
  · intro hname
    cases hname
  · rintro ⟨stem, k, -, hle, hlt⟩
    have := hcount stem
    omega

theorem Issued.append {names names' : List String} (hi : h.Issued h' names) (hi' : h'.Issued h'' names') :
    h.Issued h'' (names ++ names') := by
  refine ⟨List.nodup_append.mpr ⟨hi.nodup, hi'.nodup, ?_⟩, fun name => ?_,
    fun stem => (hi.counts stem).trans (hi'.counts stem)⟩
  · -- the numbers of the earlier names lie below the count between, those of the later ones do not
    intro name hname name' hname' heq
    obtain ⟨stem, k, rfl, -, hlt⟩ := (hi.mem_iff name).mp hname
    obtain ⟨stem', k', rfl, hle, -⟩ := (hi'.mem_iff name').mp hname'
    obtain ⟨rfl, rfl⟩ := numbered_inj.mp heq
    omega
  · rw [List.mem_append, hi.mem_iff, hi'.mem_iff]
    constructor
    · rintro (⟨stem, k, rfl, hle, hlt⟩ | ⟨stem, k, rfl, hle, hlt⟩)
      · exact ⟨stem, k, rfl, hle, Nat.lt_of_lt_of_le hlt (hi'.counts stem)⟩
      · exact ⟨stem, k, rfl, (hi.counts stem).trans hle, hlt⟩
    · rintro ⟨stem, k, rfl, hle, hlt⟩
      by_cases hk : k < h'.count stem
      · exact .inl ⟨stem, k, rfl, hle, hk⟩
      · exact .inr ⟨stem, k, rfl, Nat.le_of_not_lt hk, hlt⟩

theorem count_create_none (h : Heap) (node : Node) (stem : String) :
    (h.create none node).2.count stem = h.count stem + if stem = Node.stem node.op then 1 else 0 := by
  show (Ledger.get? (Ledger.put h.counters (Node.stem node.op) (h.count (Node.stem node.op) + 1)) stem).getD 0 = _
  by_cases hs : stem = Node.stem node.op
  · subst hs
    rw [Ledger.get?_put_self, if_pos rfl]
    rfl
  · rw [Ledger.get?_put_ne _ _ hs, if_neg hs]
    rfl

theorem issued_create (h : Heap) (node : Node) :
    h.Issued (h.create none node).2 [numbered (Node.stem node.op) (h.count (Node.stem node.op))] := by
  refine ⟨List.nodup_singleton _, fun name => ?_, h.count_create none node⟩
  rw [List.mem_singleton]
  constructor
  · rintro rfl
    exact ⟨_, _, rfl, Nat.le_refl _, by rw [count_create_none, if_pos rfl]; exact Nat.lt_succ_self _⟩
  · rintro ⟨stem, k, rfl, hle, hlt⟩
    rw [count_create_none] at hlt
    by_cases hs : stem = Node.stem node.op
    · subst hs
      rw [if_pos rfl] at hlt
      rw [show k = h.count (Node.stem node.op) by omega]
    · rw [if_neg hs] at hlt
      omega

def added (h h' : Heap) : List String := (h'.nodes.toList.drop h.size).map Node.name

theorem added_self (h : Heap) : h.added h = [] := by simp [added, size]

theorem added_create (h : Heap) (node : Node) :
    h.added (h.create none node).2 = [numbered (Node.stem node.op) (h.count (Node.stem node.op))] := by
  simp [added, create, push, freshName, size, numbered, count]

inductive Adds (name : Option String) (h : Heap) : Heap → Prop
  | nothing : Adds name h h
  | node (node : Node) : Adds name h (h.create name node).2

theorem Adds.issued_none (hadds : h.Adds none h') : h.Issued h' (h.added h') := by
  cases hadds with
  | nothing =>
    rw [added_self]
    exact .of_counters_eq rfl
  | node node =>
    rw [added_create]
    exact h.issued_create node

theorem Adds.issued_some {name : String} (hadds : h.Adds (some name) h') : h.Issued h' [] := by
  cases hadds with
  | nothing => exact .of_counters_eq rfl
  | node node => exact .of_counters_eq rfl

/-- A name that is given is not generated. -/
theorem Adds.issued {name : Option String} (hadds : h.Adds name h') :
    h.Issued h' (if name.isNone = true then h.added h' else []) := by
  cases name with
  | none => exact hadds.issued_none
  | some name => exact hadds.issued_some

end Heap

/-! ## Actions that make one node -/

namespace Build
variable {α β : Type} {x : Build α} {f : α → Build β} {name : Option String}

theorem after_bind_cases (x : Build α) (f : α → Build β) (a : Ambient) (w : Workspace) :
    after (x >>= f) a w = after x a w ∨ ∃ r, after (x >>= f) a w = after (f r) a (after x a w) := by
  cases hx : x a w with
  | error e w' => exact .inl (by rw [after_error (run_bind_error hx), after_error hx])
  | ok r w' =>
    refine .inr ⟨r, ?_⟩
    rw [after_ok hx]
    unfold after
    rw [run_bind_ok hx]

def Idle (x : Build α) : Prop := ∀ a w, (after x a w).heap = w.heap

def AddsOne (name : Option String) (x : Build α) : Prop :=
  ∀ (a : Ambient) (w : Workspace), w.heap.Adds name (after x a w).heap

theorem Idle.bind (hx : Idle x) (hf : ∀ r, Idle (f r)) : Idle (x >>= f) := by
  intro a w
  rcases after_bind_cases x f a w with heq | ⟨r, heq⟩
  · rw [heq, hx]
  · rw [heq, hf, hx]

theorem Idle.bind_adds (hx : Idle x) (hf : ∀ r, AddsOne name (f r)) : AddsOne name (x >>= f) := by
  intro a w
  rcases after_bind_cases x f a w with heq | ⟨r, heq⟩
  · rw [heq, hx]
    exact .nothing
  · rw [heq, ← hx a w]
    exact hf r a _

theorem AddsOne.bind_idle (hx : AddsOne name x) (hf : ∀ r, Idle (f r)) : AddsOne name (x >>= f) := by
  intro a w
  rcases after_bind_cases x f a w with heq | ⟨r, heq⟩
  · rw [heq]
    exact hx a w
  · rw [heq, hf]
    exact hx a w

theorem Idle.adds (hx : Idle x) : AddsOne name x := fun a w => by
  rw [hx]
  exact .nothing

theorem idle_pure (r : α) : Idle (pure r : Build α) := fun _ _ => rfl

theorem idle_throw (e : Fault) : Idle (throw e : Build α) := fun _ _ => rfl

theorem idle_ofExcept (r : Except Fault α) : Idle (ofExcept r) := by
  cases r with
  | ok r => exact idle_pure r
  | error e => exact idle_throw e

theorem idle_heap : Idle heap := fun _ _ => rfl

theorem idle_read : Idle (read : Build Ambient) := fun _ _ => rfl

theorem idle_setting (path : List String) : Idle (setting path) := idle_read.bind fun _ => idle_ofExcept _

theorem idle_operator (name : Datum) : Idle (operator name) := by
  unfold operator
  split
  · exact idle_read.bind fun _ => idle_ofExcept _
  · split
    · exact idle_throw _
    · exact idle_throw _

theorem idle_entry (n : NodeId) (index : Int) : Idle (entry n index) := idle_heap.bind fun _ => idle_ofExcept _

theorem addsOne_create (name : Option String) (node : Node) : AddsOne name (create name node) := fun _ _ => .node node

theorem addsOne_apply (op : Datum) (inputs : List Value) (name : Option String) (deps : List Value)
    (attrs : Ledger String Datum) : AddsOne name (apply op inputs name deps attrs) := by
  refine (idle_operator op).bind_adds fun op => idle_heap.bind_adds fun h => (idle_ofExcept _).bind_adds fun es => ?_
  unfold applyOp
  split
  · exact addsOne_create name _
  · exact (idle_throw _).adds

theorem addsOne_unnamed (op : Op) (inputs : List Value) : AddsOne none (unnamed op inputs) :=
  (addsOne_create none _).bind_idle fun n => idle_entry n 0

theorem addsOne_aggregate (grads : List Value) : AddsOne none (aggregate grads) := by
  have hconfigured : ∀ path inputs, AddsOne none (do unnamed (← operator (← setting path)) inputs) := fun path inputs =>
    (idle_setting path).bind_adds fun name => (idle_operator name).bind_adds fun op => addsOne_unnamed op inputs
  unfold aggregate
  split
  · exact (hconfigured _ _).bind_idle fun _ => idle_pure _
  · exact (idle_pure _).adds
  · exact (hconfigured _ _).bind_idle fun _ => idle_pure _

end Build

/-! ## Calls on a session -/

namespace Act
variable {α : Type} {s : Session}

theorem heap_after_build (x : Build α) (s : Session) :
    ((build x).after s).work.heap = (Build.after x (ambient s) s.work).heap := by
  unfold after build Build.after
  cases x (ambient s) s.work <;> rfl

theorem after_checkKeywords {β : Type} (taken : List String) (attrs : Ledger String β) (x : Act α) (s : Session) :
    (do checkKeywords taken attrs; x).after s = s ∨ (do checkKeywords taken attrs; x).after s = x.after s := by
  unfold checkKeywords
  split
  · exact .inl rfl
  · exact .inr rfl

/-- A call that checks its keywords before it makes a node. -/
theorem adds_checked {β : Type} {name : Option String} {x : Build α} (hx : Build.AddsOne name x) (taken : List String)
    (attrs : Ledger String β) (s : Session) :
    s.work.heap.Adds name ((do checkKeywords taken attrs; build x).after s).work.heap := by
  rcases after_checkKeywords taken attrs (build x) s with heq | heq
  · rw [heq]
    exact .nothing
  · rw [heq, heap_after_build]
    exact hx (ambient s) s.work

theorem heap_after_registerOp (op : Op) (s : Session) : ((registerOp op).after s).work.heap = s.work.heap := by
  have hrun : registerOp op s = (do
      let r ← ofExcept (s.ops.register op)
      modify fun s => { s with ops := r.2 }
      return r.1 : Act Op) s := rfl
  rw [after_congr hrun]
  cases s.ops.register op <;> rfl

theorem heap_after_setSetting (path : List String) (value : Datum) (autosave : Bool) (s : Session) :
    ((setSetting path value autosave).after s).work.heap = s.work.heap := by
  cases hx : Configure.set path value autosave s.profile with
  | error e p =>
    have hrun : setSetting path value autosave s = .error e { s with profile := p } := by
      simp [setSetting, bind, EStateM.bind, configure, hx]
    unfold after
    rw [hrun]
  | ok saved p =>
    have hrun : setSetting path value autosave s =
        (unless saved do warn notSaved : Act Unit) { s with profile := p } := by
      simp [setSetting, bind, EStateM.bind, configure, hx]
    unfold after
    rw [hrun]
    cases saved <;> rfl

end Act

namespace Session

/-- What may happen in a session as it makes nodes, with names of their own or without. -/
inductive Call where
  | newVariable (name : Option String) (attrs : Ledger String Datum)
  | apply (op : Datum) (inputs : List Value) (name : Option String) (deps : List Value) (attrs : Ledger String Datum)
  | node (op : Option Op) (name : Option String) (links : Links) (attrs : Ledger String Datum)
  | aggregate (grads : List Value)
  | copy (n : NodeId) (name : Option String)
  | setInputs (n : NodeId) (inputs : List Value)
  | setDeps (n : NodeId) (deps : List Value)
  | registerOp (op : Op)
  | setSetting (path : List String) (value : Datum) (autosave : Bool)

namespace Call

/-- The session after the call, whether the call has succeeded or failed. -/
def after (c : Call) (s : Session) : Session :=
  match c with
  | newVariable name attrs => (Act.newVariable name attrs).after s
  | apply op inputs name deps attrs => (Act.apply op inputs name deps attrs).after s
  | node op name links attrs => (Act.build (Build.create name (Node.withLinks { op, attrs } links))).after s
  | aggregate grads => (Act.build (Build.aggregate grads)).after s
  | copy n name => (Act.copy n name).after s
  | setInputs n inputs => (Act.setInputs n inputs).after s
  | setDeps n deps => (Act.setDeps n deps).after s
  | registerOp op => (Act.registerOp op).after s
  | setSetting path value autosave => (Act.setSetting path value autosave).after s

def generates : Call → Bool
  | newVariable name _ => name.isNone
  | apply _ _ name _ _ => name.isNone
  | node _ name _ _ => name.isNone
  | aggregate _ => true
  | _ => false

end Call

def perform (s : Session) : List Call → Session
  | [] => s
  | c :: rest => (c.after s).perform rest

def generated (s : Session) : List Call → List String
  | [] => []
  | c :: rest =>
    (if c.generates = true then s.work.heap.added (c.after s).work.heap else []) ++ (c.after s).generated rest

theorem Call.issued (c : Call) (s : Session) : s.work.heap.Issued (c.after s).work.heap
    (if c.generates = true then s.work.heap.added (c.after s).work.heap else []) := by
  cases c with
  | newVariable name attrs => exact (Act.adds_checked (Build.addsOne_create name { attrs }) ["name"] attrs s).issued
  | apply op inputs name deps attrs =>
    have happly := Build.addsOne_apply op inputs name deps attrs
    exact (Act.adds_checked happly ["op_name", "name", "control_deps"] attrs s).issued
  | node op name links attrs => exact (Heap.Adds.node _).issued
  | aggregate grads =>
    refine Heap.Adds.issued_none ?_
    rw [Call.after, Act.heap_after_build]
    exact Build.addsOne_aggregate grads _ _
  | copy n name => exact .of_counters_eq rfl
  | setInputs n inputs => exact .of_counters_eq rfl
  | setDeps n deps => exact .of_counters_eq rfl
  | registerOp op => exact .of_counters_eq (by rw [Call.after, Act.heap_after_registerOp])
  | setSetting path value autosave => exact .of_counters_eq (by rw [Call.after, Act.heap_after_setSetting])

theorem issued_perform (calls : List Call) (s : Session) :
    s.work.heap.Issued (s.perform calls).work.heap (s.generated calls) := by
  induction calls generalizing s with
  | nil => exact .of_counters_eq rfl
  | cons c rest ih => exact (c.issued s).append (ih (c.after s))

/-- The names generated in any course of calls are pairwise distinct; each stem has used its numbers one by one. -/
theorem generated_names_distinct (calls : List Call) (s : Session) :
    (s.generated calls).Nodup ∧ ∀ name, name ∈ s.generated calls ↔
      ∃ stem k, name = Heap.numbered stem k ∧ s.work.heap.count stem ≤ k ∧ k < (s.perform calls).work.heap.count stem :=
  ⟨(issued_perform calls s).nodup, (issued_perform calls s).mem_iff⟩

-- an operator may be called like a generated name, and a node may be given one
example : Session.generated {} [.newVariable none [], .node (some { name := "x" }) none ⟨[], []⟩ [],
    .node (some { name := "x" }) (some "x_1_0") ⟨[], []⟩ [], .node (some { name := "x" }) none ⟨[], []⟩ [],
    .node (some { name := "x_1" }) none ⟨[], []⟩ [], .node (some { name := "x_" }) none ⟨[], []⟩ []] =
    ["var_0", "x_0", "x_1", "x_1_0", "x__0"] := by decide +kernel

end Session

end Backprop
