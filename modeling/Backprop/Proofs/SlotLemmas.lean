import Backprop.Proofs.ActionLemmas
import Mathlib.Logic.Function.Basic

/-!
# The slots as a function

The slots of a sweep are kept in lists by node. `Holds` reads them as a
function from entries to slots on the nodes that have slots at all, and every
change of a slot is a change of that function at one point.
-/

namespace Backprop

namespace Ledger
variable {κ β : Type} [BEq κ]

theorem get?_append (l l' : Ledger κ β) (key : κ) : get? (l ++ l') key = (get? l key).or (get? l' key) := by
  induction l with
  | nil => rfl
  | cons p rest ih =>
    obtain ⟨k, v⟩ := p
    rw [List.cons_append, get?_cons, get?_cons]
    split
    · rfl
    · exact ih

variable [LawfulBEq κ]

theorem get?_eq_none_iff {l : Ledger κ β} {key : κ} : get? l key = none ↔ ∀ p ∈ l, p.1 ≠ key := by
  rw [get?_eq_none_iff_beq]
  simp

theorem get?_concat_of_ne {l : Ledger κ β} {key k : κ} {v : β} (hl : get? l key = none) (hk : k ≠ key) :
    get? (l ++ [(k, v)]) key = none := by
  simp [get?_append, get?, hl, hk]

theorem get?_map_pair [DecidableEq κ] (l : List κ) (f : κ → β) (key : κ) :
    get? (l.map fun n => (n, f n)) key = if key ∈ l then some (f key) else none := by
  induction l with
  | nil => rfl
  | cons n rest ih =>
    rw [List.map_cons, get?_cons, ih]
    by_cases h : n = key
    · subst h; simp
    · have : ¬ key = n := fun e => h e.symm
      simp [h, this]

end Ledger

namespace NodeId

def entries (n : NodeId) (width : Nat) : List Entry := (List.range width).map fun i => ⟨n, i⟩

theorem entries_get? (n : NodeId) (width i : Nat) :
    (n.entries width)[i]? = if i < width then some ⟨n, i⟩ else none := by
  unfold entries
  rw [List.getElem?_map]
  by_cases hi : i < width
  · rw [if_pos hi, List.getElem?_range hi]; rfl
  · rw [if_neg hi, List.getElem?_eq_none (by simpa using hi)]; rfl

@[simp]
theorem length_entries (n : NodeId) (width : Nat) : (n.entries width).length = width := by
  unfold entries; rw [List.length_map, List.length_range]

theorem mem_entries {n : NodeId} {width : Nat} {e : Entry} : e ∈ n.entries width ↔ e.node = n ∧ e.index < width := by
  obtain ⟨m, i⟩ := e
  simp only [entries, List.mem_map, List.mem_range, Entry.mk.injEq]
  constructor
  · rintro ⟨_, hi, rfl, rfl⟩
    exact ⟨rfl, hi⟩
  · rintro ⟨rfl, hi⟩
    exact ⟨i, hi, rfl, rfl⟩

theorem nodup_entries (n : NodeId) (width : Nat) : (n.entries width).Nodup :=
  List.nodup_range.map fun _ _ h => congrArg Entry.index h

theorem map_update_entries {β : Type} (width : Nat) (f : Entry → β) (e : Entry) (v : β) :
    (e.node.entries width).map (Function.update f e v) = ((e.node.entries width).map f).set e.index v := by
  apply List.ext_getElem?
  intro i
  rw [List.getElem?_set, List.getElem?_map, List.getElem?_map, entries_get?, List.length_map, length_entries]
  by_cases hi : i < width
  · rw [if_pos hi]
    by_cases he : e.index = i
    · subst he
      rw [if_pos rfl, if_pos hi]
      simp
    · have : (⟨e.node, i⟩ : Entry) ≠ e := fun hh => he (hh ▸ rfl)
      rw [if_neg he]
      simp [Function.update_of_ne this]
  · rw [if_neg hi]
    by_cases he : e.index = i
    · rw [if_pos he, if_neg (by omega)]; rfl
    · rw [if_neg he]; rfl

theorem map_update_entries_of_ne {β : Type} (width : Nat) (f : Entry → β) (e : Entry) (v : β) {n : NodeId}
    (hn : n ≠ e.node) : (n.entries width).map (Function.update f e v) = (n.entries width).map f := by
  apply List.map_congr_left
  intro e' he'
  have : e' ≠ e := fun hh => hn ((mem_entries.mp he').1 ▸ hh ▸ rfl)
  rw [Function.update_of_ne this]

end NodeId

namespace Heap

def width (h : Heap) (n : NodeId) : Nat := (h.outputs n).toNat

theorem entries_eq_width (h : Heap) (n : NodeId) : h.entries n = n.entries (h.width n) := rfl

theorem HasEntry.lt_width {h : Heap} {e : Entry} (he : h.HasEntry e) : e.index < h.width e.node := Int.lt_toNat.mpr he.2

end Heap

namespace Sweep

theorem slotAt_ok {s : Sweep} {h : Heap} {e : Entry} {slot : Slot} (hs : s.slotAt h e = .ok slot) :
    ∃ slots, Ledger.get? s.slots e.node = some slots ∧ slots[e.index]? = some slot := by
  unfold slotAt slotsOf at hs
  cases hget : Ledger.get? s.slots e.node with
  | none => rw [hget] at hs; cases hs
  | some slots =>
    rw [hget] at hs
    simp only [bind, Except.bind] at hs
    cases hi : slots[e.index]? with
    | none => rw [hi] at hs; cases hs
    | some found => rw [hi] at hs; cases hs; exact ⟨slots, rfl, hi⟩

/-- The slots of the nodes in `opened`, and no others, with their contents. -/
def Holds (s : Sweep) (width : NodeId → Nat) (opened : List NodeId) (content : Entry → Slot) : Prop :=
  ∀ n, Ledger.get? s.slots n = if n ∈ opened then some ((n.entries (width n)).map content) else none

section
variable {s : Sweep} {width : NodeId → Nat} {opened : List NodeId} {content : Entry → Slot}

theorem Holds.slotsOf (hs : s.Holds width opened content) {n : NodeId} (hn : n ∈ opened) (h : Heap) :
    s.slotsOf h n = .ok ((n.entries (width n)).map content) := by
  unfold Sweep.slotsOf
  rw [hs n, if_pos hn]

theorem Holds.slotsOf_ok (hs : s.Holds width opened content) {h : Heap} {n : NodeId} {slots : List Slot}
    (hslots : s.slotsOf h n = .ok slots) : n ∈ opened ∧ slots = (n.entries (width n)).map content := by
  by_cases hn : n ∈ opened
  · rw [hs.slotsOf hn] at hslots
    exact ⟨hn, (Except.ok.inj hslots).symm⟩
  · unfold Sweep.slotsOf at hslots
    rw [hs n, if_neg hn] at hslots
    cases hslots

theorem Holds.slotAt (hs : s.Holds width opened content) {e : Entry} (hn : e.node ∈ opened)
    (hi : e.index < width e.node) (h : Heap) : s.slotAt h e = .ok (content e) := by
  have hget : ((e.node.entries (width e.node)).map content)[e.index]? = some (content e) := by
    rw [List.getElem?_map, NodeId.entries_get?, if_pos hi]
    rfl
  unfold Sweep.slotAt
  rw [hs.slotsOf hn h]
  simp only [bind, Except.bind, hget]
  rfl

theorem Holds.slotAt_ok (hs : s.Holds width opened content) {h : Heap} {e : Entry} {slot : Slot}
    (hslot : s.slotAt h e = .ok slot) : e.node ∈ opened ∧ e.index < width e.node ∧ slot = content e := by
  obtain ⟨slots, hget, hi⟩ := Sweep.slotAt_ok hslot
  rw [hs e.node] at hget
  split at hget
  · next hn =>
    cases hget
    rw [List.getElem?_map, NodeId.entries_get?] at hi
    split at hi
    · next hlt =>
      cases hi
      exact ⟨hn, hlt, rfl⟩
    · cases hi
  · cases hget

theorem Holds.putSlot (hs : s.Holds width opened content) {e : Entry} (hn : e.node ∈ opened) (slot : Slot) :
    (s.putSlot e slot).Holds width opened (Function.update content e slot) := by
  intro n
  unfold Sweep.putSlot
  rw [hs e.node, if_pos hn]
  show Ledger.get? (Ledger.put s.slots e.node (((e.node.entries (width e.node)).map content).set e.index slot)) n = _
  by_cases he : n = e.node
  · subst he
    rw [Ledger.get?_put_self, if_pos hn, NodeId.map_update_entries]
  · rw [Ledger.get?_put_ne _ _ he, hs n, NodeId.map_update_entries_of_ne _ content e slot he]

theorem Holds.congr (hs : s.Holds width opened content) {content' : Entry → Slot}
    (hc : ∀ e : Entry, e.node ∈ opened → content e = content' e) : s.Holds width opened content' := by
  intro n
  rw [hs n]
  by_cases hn : n ∈ opened
  · rw [if_pos hn, if_pos hn]
    exact congrArg some (List.map_congr_left fun e he => hc e ((NodeId.mem_entries.mp he).1 ▸ hn))
  · rw [if_neg hn, if_neg hn]

theorem Holds.of_width (hs : s.Holds width opened content) {width' : NodeId → Nat}
    (hw : ∀ n ∈ opened, width' n = width n) : s.Holds width' opened content := by
  intro n
  rw [hs n]
  by_cases hn : n ∈ opened
  · rw [if_pos hn, if_pos hn, hw n hn]
  · rw [if_neg hn, if_neg hn]

end

theorem get?_putSlot (s : Sweep) (e : Entry) (slot : Slot) (n : NodeId) :
    Ledger.get? (s.putSlot e slot).slots n =
      (Ledger.get? s.slots n).map fun slots => if n = e.node then slots.set e.index slot else slots := by
  unfold putSlot
  cases he : Ledger.get? s.slots e.node with
  | none =>
    by_cases hn : n = e.node
    · simp [hn, he]
    · simp [hn]
  | some slots =>
    by_cases hn : n = e.node
    · simp [hn, he]
    · simp [hn, Ledger.get?_put_ne _ _ hn]

def EachSlot (s : Sweep) (p : Slot → Prop) : Prop :=
  ∀ n slots, Ledger.get? s.slots n = some slots → ∀ slot ∈ slots, p slot

theorem EachSlot.slotAt {s : Sweep} {p : Slot → Prop} (hs : s.EachSlot p) {h : Heap} {e : Entry} {slot : Slot}
    (hslot : s.slotAt h e = .ok slot) : p slot := by
  obtain ⟨slots, hget, hi⟩ := slotAt_ok hslot
  exact hs _ _ hget _ (List.mem_of_getElem? hi)

theorem EachSlot.putSlot {s : Sweep} {p : Slot → Prop} (hs : s.EachSlot p) (e : Entry) {slot : Slot} (hslot : p slot) :
    (s.putSlot e slot).EachSlot p := by
  intro n slots hget
  rw [get?_putSlot] at hget
  obtain ⟨old, hold, rfl⟩ := Option.map_eq_some_iff.mp hget
  intro found hfound
  by_cases hn : n = e.node
  · rw [if_pos hn] at hfound
    rcases List.mem_or_eq_of_mem_set hfound with hfound | rfl
    · exact hs n old hold found hfound
    · exact hslot
  · rw [if_neg hn] at hfound
    exact hs n old hold found hfound

theorem putSlot_fields (s : Sweep) (e : Entry) (slot : Slot) :
    (s.putSlot e slot).problem = s.problem ∧ (s.putSlot e slot).order = s.order ∧
      (s.putSlot e slot).mirrors = s.mirrors := by
  unfold putSlot
  cases Ledger.get? s.slots e.node <;> exact ⟨rfl, rfl, rfl⟩

end Sweep

end Backprop
