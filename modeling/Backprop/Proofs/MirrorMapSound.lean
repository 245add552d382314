import Backprop.Proofs.RecipeSound
import Mathlib.Data.Set.Function

/-!
# The mirror map of an order

A map can be built along an order of any kind: nodes that are not copied may
stand anywhere in it, and only the copies look images up. A map is built if and
only if every node that is copied stands after all that it depends on. It then
takes the nodes of the order to themselves or to copies of their own, which read
from images (`Doubles`).
-/

namespace Backprop

namespace Heap
variable {h : Heap} {selected : NodeId → Bool}

/-- The selected nodes of the list stand after all that they depend on, and after `before` stands the list. -/
def Ordered (h : Heap) (selected : NodeId → Bool) : List NodeId → List NodeId → Prop
  | _, [] => True
  | before, n :: rest =>
    (selected n = true → ∀ k ∈ h.predecessors n, k ∈ before) ∧ h.Ordered selected (before ++ [n]) rest

instance Ordered.decidable (h : Heap) (selected : NodeId → Bool) : ∀ before order : List NodeId,
    Decidable (h.Ordered selected before order)
  | _, [] => .isTrue trivial
  | before, n :: rest =>
    have := Ordered.decidable h selected (before ++ [n]) rest
    inferInstanceAs (Decidable ((_ → _) ∧ _))

theorem not_ordered_iff {order : List NodeId} : ∀ {before : List NodeId}, ¬ h.Ordered selected before order ↔
    ∃ l n l', order = l ++ n :: l' ∧ selected n = true ∧ ∃ k ∈ h.predecessors n, k ∉ before ++ l := by
  induction order with
  | nil => simp [Ordered]
  | cons n rest ih =>
    intro before
    rw [Ordered, not_and_or, ih]
    constructor
    · rintro (hn | ⟨l, m, l', rfl, hm, k, hk, hkl⟩)
      · push Not at hn
        obtain ⟨hn, k, hk, hkb⟩ := hn
        exact ⟨[], n, rest, rfl, hn, k, hk, by simpa using hkb⟩
      · exact ⟨n :: l, m, l', rfl, hm, k, hk, by simpa using hkl⟩
    · rintro ⟨l, m, l', heq, hm, k, hk, hkl⟩
      cases l with
      | nil =>
        cases heq
        exact .inl fun hall => hkl (by simpa using hall hm k hk)
      | cons x l =>
        cases heq
        exact .inr ⟨l, m, l', rfl, hm, k, hk, by simpa using hkl⟩

theorem misplaced_iff {order : List NodeId} : (∃ before n after, order = before ++ n :: after ∧ selected n = true ∧
    ∃ k ∈ h.predecessors n, k ∉ before) ↔ ¬ h.Ordered selected [] order :=
  (not_ordered_iff : ¬ h.Ordered selected [] order ↔ _).symm

end Heap

namespace MirrorMap
variable {m : MirrorMap} {h h' h₀ : Heap} {selected : NodeId → Bool} {text : String} {a : Ambient} {test : Selector}

/-! ## Looking images up -/

theorem image_missing {n : NodeId} (hn : ¬ (Ledger.get? m n).isSome) (h : Heap) :
    m.image h n = .error (.gradient (.mirroredOutOfOrder (h.describe n))) := by
  rw [image, Option.not_isSome_iff_eq_none.mp hn]

/-- The first input without an image is the one that is named. -/
theorem imageInputs_missing (h : Heap) {inputs : List Entry} (hi : ¬ ∀ e ∈ inputs, (Ledger.get? m e.node).isSome) :
    ∃ k, m.imageInputs h inputs = .error (.gradient (.mirroredOutOfOrder (h.describe k))) := by
  induction inputs with
  | nil => exact absurd (by simp) hi
  | cons e rest ih =>
    rw [imageInputs]
    by_cases he : (Ledger.get? m e.node).isSome
    · have hrest : ¬ ∀ e ∈ rest, (Ledger.get? m e.node).isSome := fun hrest =>
        hi (List.forall_mem_cons.mpr ⟨he, hrest⟩)
      obtain ⟨k, hk⟩ := ih hrest
      exact ⟨k, by rw [image_ok he, hk]; rfl⟩
    · exact ⟨e.node, by rw [image_missing he]⟩

theorem imageDeps_missing (h : Heap) {deps : List NodeId} (hd : ¬ ∀ d ∈ deps, (Ledger.get? m d).isSome) :
    ∃ k, m.imageDeps h deps = .error (.gradient (.mirroredOutOfOrder (h.describe k))) := by
  induction deps with
  | nil => exact absurd (by simp) hd
  | cons d rest ih =>
    rw [imageDeps]
    by_cases he : (Ledger.get? m d).isSome
    · have hrest : ¬ ∀ d ∈ rest, (Ledger.get? m d).isSome := fun hrest =>
        hd (List.forall_mem_cons.mpr ⟨he, hrest⟩)
      obtain ⟨k, hk⟩ := ih hrest
      exact ⟨k, by rw [image_ok he, hk]; rfl⟩
    · exact ⟨d, by rw [image_missing he]⟩

/-- A node is copied if and only if all that it depends on has an image. -/
theorem copyNode_decided {n : NodeId} {w : Workspace} (hs : (w.heap.node n).strays = none) :
    Ends (m.copyNode (.text text) n) a w
      (fun n' w' => (∀ k ∈ w.heap.predecessors n, k ∈ Ledger.keys m) ∧ w.heap.GrowsTo w'.heap ∧ n' = ⟨w.heap.size⟩ ∧
        w'.heap.size = w.heap.size + 1 ∧ w'.heap.node n' = m.copyOf (w.heap.node n) ((w.heap.node n).name ++ text))
      fun e => (¬ ∀ k ∈ w.heap.predecessors n, k ∈ Ledger.keys m) ∧ ∃ node, e = .gradient (.mirroredOutOfOrder node) := by
  have hinput : ∀ e ∈ (w.heap.node n).inputs, e.node ∈ w.heap.predecessors n := fun e he =>
    List.mem_append_left _ (List.mem_map_of_mem he)
  have hdep : ∀ d ∈ (w.heap.node n).deps, d ∈ w.heap.predecessors n := fun d hd => List.mem_append_right _ hd
  unfold copyNode
  refine .step (r := w.heap) (u := w) rfl (.step (r := text) (u := w) rfl ?_)
  by_cases hi : ∀ e ∈ (w.heap.node n).inputs, (Ledger.get? m e.node).isSome
  · refine .step (r := (w.heap.node n).inputs.map m.imageEntry) (u := w) (by rw [m.imageInputs_ok w.heap hi]; rfl) ?_
    by_cases hd : ∀ d ∈ (w.heap.node n).deps, (Ledger.get? m d).isSome
    · have hall : ∀ k ∈ w.heap.predecessors n, k ∈ Ledger.keys m := by
        intro k hk
        rcases List.mem_append.mp hk with hk | hk
        · obtain ⟨e, he, rfl⟩ := List.mem_map.mp hk
          exact Ledger.isSome_get?_iff.mp (hi e he)
        · exact Ledger.isSome_get?_iff.mp (hd k hk)
      have hflaw : (w.heap.node n).flaw? = none := by simp [Node.flaw?, hs]
      refine .step (r := (w.heap.node n).deps.map (Turn.forward (some m))) (u := w)
        (by rw [m.imageDeps_ok w.heap hd]; rfl) ?_
      refine .step (r := ()) (u := w) (by rw [checkStrays_ok hflaw]; rfl) ?_
      exact ⟨hall, w.heap.growsTo_push _, rfl, Array.size_push .., w.heap.node_push_self _⟩
    · obtain ⟨k, hk⟩ := imageDeps_missing w.heap hd
      refine .fail (u := w) (by rw [hk]; rfl) ⟨fun hall => hd fun d hd => ?_, _, rfl⟩
      exact Ledger.isSome_get?_iff.mpr (hall d (hdep d hd))
  · obtain ⟨k, hk⟩ := imageInputs_missing w.heap hi
    refine .fail (u := w) (by rw [hk]; rfl) ⟨fun hall => hi fun e he => ?_, _, rfl⟩
    exact Ledger.isSome_get?_iff.mpr (hall e.node (hinput e he))

/-! ## What the map holds -/

/-- The keys of the map are the nodes, in their order. The selected ones have new nodes for images, each its own, and no
other nodes are new; the rest stand for themselves. -/
structure Doubles (m : MirrorMap) (h₀ h : Heap) (selected : NodeId → Bool) (text : String) (ns : List NodeId) :
    Prop where
  keys : Ledger.keys m = ns
  kept : ∀ n ∈ ns, selected n = false → Ledger.get? m n = some n
  doubled : ∀ n ∈ ns, selected n = true → ∃ n', Ledger.get? m n = some n' ∧ ¬ h₀.Has n' ∧ h.Has n' ∧
    h.node n' = m.copyOf (h₀.node n) ((h₀.node n).name ++ text)
  distinct : Set.InjOn (Ledger.get? m) {n | n ∈ ns ∧ selected n = true}
  size : h.size = h₀.size + ns.countP selected

theorem doubles_nil : Doubles [] h₀ h₀ selected text [] where
  keys := rfl
  kept := by simp
  doubled := by simp
  distinct := by simp [Set.InjOn]
  size := by simp

/-- Copies read images of what stands before them, so an image that is added later changes nothing. -/
theorem Doubles.put {before : List NodeId} {n n' : NodeId} (hm : m.Doubles h₀ h selected text before)
    (hg : h.GrowsTo h') (hnew : n ∉ before)
    (hclosed : ∀ k ∈ before ++ [n], selected k = true → ∀ p ∈ h₀.predecessors k, p ∈ before)
    (hkept : selected n = false → n' = n)
    (hdoubled : selected n = true → n' = ⟨h.size⟩ ∧ h'.Has n' ∧
      h'.node n' = m.copyOf (h₀.node n) ((h₀.node n).name ++ text))
    (hsize : h'.size = h.size + if selected n then 1 else 0) :
    Doubles (Ledger.put m n n') h₀ h' selected text (before ++ [n]) := by
  have hne : ∀ k ∈ before, k ≠ n := fun k hk => ne_of_mem_of_not_mem hk hnew
  have hcopy : ∀ k ∈ before ++ [n], selected k = true → ∀ name,
      copyOf (Ledger.put m n n') (h₀.node k) name = m.copyOf (h₀.node k) name := fun k hk hsel name =>
    copyOf_put n' name fun p hp => hne p (hclosed k hk hsel p hp)
  have hlast : ∀ k ∈ before ++ [n], k ∈ before ∨ k = n := fun k hk => by simpa using hk
  have hgap : ∀ k ∈ before, selected k = true → Ledger.get? m k ≠ some ⟨h.size⟩ := by
    intro k hk hsel he
    obtain ⟨k', hget, -, hhas, -⟩ := hm.doubled k hk hsel
    rw [hget, Option.some_inj] at he
    exact Nat.lt_irrefl _ (he ▸ hhas)
  have hgrown : ¬ h₀.Has ⟨h.size⟩ := by
    rw [hm.size]
    exact Nat.not_lt.mpr (Nat.le_add_right _ _)
  refine ⟨?_, fun k hk hsel => ?_, fun k hk hsel => ?_, fun k hk l hl he => ?_, ?_⟩
  · rw [Ledger.keys_put_of_not_mem _ (by rw [hm.keys]; exact hnew), hm.keys]
  · rcases hlast k hk with hk | rfl
    · rw [Ledger.get?_put_ne _ _ (hne k hk)]
      exact hm.kept k hk hsel
    · rw [Ledger.get?_put_self, hkept hsel]
  · rw [hcopy k hk hsel]
    rcases hlast k hk with hk | rfl
    · rw [Ledger.get?_put_ne _ _ (hne k hk)]
      obtain ⟨k', hget, hfresh, hhas, hnode⟩ := hm.doubled k hk hsel
      exact ⟨k', hget, hfresh, hg.has hhas, by rw [hg.node_eq _ hhas, hnode]⟩
    · obtain ⟨rfl, hhas, hnode⟩ := hdoubled hsel
      exact ⟨_, Ledger.get?_put_self .., hgrown, hhas, hnode⟩
  · rcases hlast k hk.1 with hk' | rfl <;> rcases hlast l hl.1 with hl' | rfl
    · rw [Ledger.get?_put_ne _ _ (hne k hk'), Ledger.get?_put_ne _ _ (hne l hl')] at he
      exact hm.distinct ⟨hk', hk.2⟩ ⟨hl', hl.2⟩ he
    · rw [Ledger.get?_put_ne _ _ (hne k hk'), Ledger.get?_put_self, (hdoubled hl.2).1] at he
      exact absurd he (hgap k hk' hk.2)
    · rw [Ledger.get?_put_ne _ _ (hne l hl'), Ledger.get?_put_self, (hdoubled hk.2).1] at he
      exact absurd he.symm (hgap l hl' hl.2)
    · rfl
  · rw [hsize, hm.size, List.countP_append, List.countP_singleton, Nat.add_assoc]

theorem extend_decided {before : List NodeId} {n : NodeId} {w : Workspace} (hg : h₀.GrowsTo w.heap)
    (hm : m.Doubles h₀ w.heap selected text before) (hnew : n ∉ before) (hn : h₀.Has n)
    (hs : (h₀.node n).strays = none) (ht : test.holds n (h₀.node n) = .ok (selected n))
    (hclosed : ∀ k ∈ before, selected k = true → ∀ p ∈ h₀.predecessors k, p ∈ before) :
    Ends (extend test (.text text) m n) a w
      (fun m' w' => (selected n = true → ∀ k ∈ h₀.predecessors n, k ∈ before) ∧ w.heap.GrowsTo w'.heap ∧
        m'.Doubles h₀ w'.heap selected text (before ++ [n]))
      fun e => (¬ (selected n = true → ∀ k ∈ h₀.predecessors n, k ∈ before)) ∧
        ∃ node, e = .gradient (.mirroredOutOfOrder node) := by
  have hnode := hg.node_eq n hn
  have hpred : w.heap.predecessors n = h₀.predecessors n := congrArg Node.predecessors hnode
  have hall : (selected n = true → ∀ k ∈ h₀.predecessors n, k ∈ before) →
      ∀ k ∈ before ++ [n], selected k = true → ∀ p ∈ h₀.predecessors k, p ∈ before := by
    intro hlast k hk
    rcases List.mem_append.mp hk with hk | hk
    · exact hclosed k hk
    · rwa [List.mem_singleton.mp hk]
  unfold extend
  refine .step (r := w.heap) (u := w) rfl (.step (r := selected n) (u := w) (by rw [hnode, ht]; rfl) ?_)
  cases hsel : selected n with
  | false =>
    have hnone : selected n = true → ∀ k ∈ h₀.predecessors n, k ∈ before := fun h => by rw [hsel] at h; cases h
    refine ⟨fun h => (Bool.false_ne_true h).elim, .refl _, ?_⟩
    exact hm.put (.refl _) hnew (hall hnone) (fun _ => rfl) (fun h => by rw [hsel] at h; cases h) (by simp [hsel])
  | true =>
    refine .bind ((copyNode_decided (by rw [hnode]; exact hs)).mono (fun _ _ h => h) fun e h => ?_) ?_
    · rw [hpred, hm.keys] at h
      exact ⟨fun hlast => h.1 (hlast rfl), h.2⟩
    rintro n' w' ⟨hin, hg', rfl, hsize, hcopy⟩
    rw [hpred, hm.keys] at hin
    rw [hnode] at hcopy
    refine ⟨fun _ => hin, hg', hm.put hg' hnew (hall fun _ => hin) ?_ (fun _ => ⟨rfl, ?_, hcopy⟩) (by simp [hsel, hsize])⟩
    · exact fun h => by rw [hsel] at h; cases h
    · unfold Heap.Has
      rw [hsize]
      exact Nat.lt_succ_self _

/-- Along the rest of the order the map goes on to double what is selected, for as long as the order permits. -/
theorem build_decided : ∀ {rest before : List NodeId} {m : MirrorMap} {w : Workspace}, h₀.GrowsTo w.heap →
    m.Doubles h₀ w.heap selected text before → (before ++ rest).Nodup →
    (∀ n ∈ rest, h₀.Has n ∧ (h₀.node n).strays = none ∧ test.holds n (h₀.node n) = .ok (selected n)) →
    (∀ k ∈ before, selected k = true → ∀ p ∈ h₀.predecessors k, p ∈ before) →
    Ends (build test (.text text) rest m) a w
      (fun m' w' => h₀.Ordered selected before rest ∧ w.heap.GrowsTo w'.heap ∧
        m'.Doubles h₀ w'.heap selected text (before ++ rest))
      fun e => ¬ h₀.Ordered selected before rest ∧ ∃ node, e = .gradient (.mirroredOutOfOrder node)
  | [], before, m, w, _, hm, _, _, _ => ⟨trivial, .refl _, by rwa [List.append_nil]⟩
  | n :: rest, before, m, w, hg, hm, hnd, hrest, hclosed => by
    obtain ⟨hn, hs, ht⟩ := hrest n (by simp)
    have hnew : n ∉ before := fun hn => (List.nodup_append.mp hnd).2.2 n hn n (by simp) rfl
    rw [build]
    refine .bind ((extend_decided hg hm hnew hn hs ht hclosed).mono (fun _ _ h => h) fun e h => ?_) ?_
    · exact ⟨fun hord => h.1 hord.1, h.2⟩
    rintro m' w' ⟨hfirst, hg', hm'⟩
    have hclosed' : ∀ k ∈ before ++ [n], selected k = true → ∀ p ∈ h₀.predecessors k, p ∈ before ++ [n] := by
      intro k hk hsel p hp
      rcases List.mem_append.mp hk with hk | hk
      · exact List.mem_append_left _ (hclosed k hk hsel p hp)
      · rw [List.mem_singleton.mp hk] at hsel hp
        exact List.mem_append_left _ (hfirst hsel p hp)
    rw [List.append_cons] at hnd ⊢
    refine (build_decided (hg.trans hg') hm' hnd (fun k hk => hrest k (List.mem_cons_of_mem _ hk)) hclosed').mono
      (fun m'' w'' h => ⟨⟨hfirst, h.1⟩, hg'.trans h.2.1, h.2.2⟩) fun e h => ⟨fun hord => h.1 hord.2, h.2⟩

end MirrorMap

theorem Build.mirrorMap_decided {order : List NodeId} {test : Selector} {suffix : Option Datum} {text : String}
    {selected : NodeId → Bool} {a : Ambient} {w : Workspace} (hnd : order.Nodup)
    (horder : ∀ n ∈ order, w.heap.Has n ∧ (w.heap.node n).strays = none ∧
      test.holds n (w.heap.node n) = .ok (selected n))
    (hsuffix : Build.mirrorSuffix suffix a w = .ok (.text text) w) :
    Ends (Build.mirrorMap order (some test) suffix) a w
      (fun result w' => w.heap.Ordered selected [] order ∧ ∃ m, result = some m ∧ w.heap.GrowsTo w'.heap ∧
        m.Doubles w.heap w'.heap selected text order)
      fun e => ¬ w.heap.Ordered selected [] order ∧ ∃ node, e = .gradient (.mirroredOutOfOrder node) := by
  unfold Build.mirrorMap
  refine .step hsuffix (.bind (MirrorMap.build_decided (.refl _) MirrorMap.doubles_nil hnd horder (by simp)) ?_)
  rintro m w' ⟨hord, hg, hm⟩
  exact ⟨hord, m, rfl, hg, hm⟩

/-! ## Orders given as values -/

namespace LooseMirrorMap

theorem addKey_node {ns : List NodeId} {n : NodeId} (hn : n ∉ ns) :
    addKey (ns.map .node) (.node n) = (ns ++ [n]).map .node := by
  have hnone : (ns.map Value.node).any (Value.same (.node n)) = false := by
    rw [List.any_eq_false]
    intro v hv
    obtain ⟨k, hk, rfl⟩ := List.mem_map.mp hv
    exact fun he => hn (eq_of_beq he ▸ hk)
  rw [addKey, hnone, List.map_append]
  rfl

theorem build_nodes (test : Selector) (suffix : Datum) (a : Ambient) : ∀ (rest before : List NodeId) (m : MirrorMap)
    (w : Workspace), (before ++ rest).Nodup → build test suffix (rest.map .node) ⟨m, before.map .node⟩ a w =
      (do return ⟨← MirrorMap.build test suffix rest m, (before ++ rest).map .node⟩ : Build LooseMirrorMap) a w
  | [], before, m, w, _ => by rw [List.append_nil]; rfl
  | n :: rest, before, m, w, hnd => by
    have hnew : n ∉ before := fun hn => (List.nodup_append.mp hnd).2.2 n hn n (by simp) rfl
    rw [List.append_cons] at hnd ⊢
    rw [List.map_cons, build, MirrorMap.build, bind_assoc, addKey_node hnew]
    exact run_bind_congr fun m' w' _ => build_nodes test suffix a rest (before ++ [n]) m' w' hnd

end LooseMirrorMap

/-- An order that is given as values has the map of its nodes. -/
theorem Build.looseMirrorMap_nodes {order : List NodeId} {test : Selector} {suffix : Option Datum} {text : String}
    {a : Ambient} {w : Workspace} (hnd : order.Nodup) (hsuffix : Build.mirrorSuffix suffix a w = .ok (.text text) w)
    (hkeys : ∀ m w', Build.mirrorMap order (some test) suffix a w = .ok (some m) w' → Ledger.keys m = order) :
    Build.looseMirrorMap (order.map .node) test suffix a w =
      (do return ⟨(← Build.mirrorMap order (some test) suffix).getD [], order.map .node⟩ : Build LooseMirrorMap) a w := by
  have hnodes := LooseMirrorMap.build_nodes test (.text text) a order [] [] w hnd
  unfold Build.looseMirrorMap
  rw [run_bind_ok hsuffix]
  cases hbuild : MirrorMap.build test (.text text) order [] a w with
  | error e w' =>
    have hmap : Build.mirrorMap order (some test) suffix a w = .error e w' := by
      unfold Build.mirrorMap
      exact (run_bind_ok hsuffix).trans (run_bind_error hbuild)
    exact (run_bind_error (hnodes.trans (run_bind_error hbuild))).trans (run_bind_error hmap).symm
  | ok m w' =>
    have hmap : Build.mirrorMap order (some test) suffix a w =
        (do logMirrored m.copies m.length; return some m : Build (Option MirrorMap)) a w' := by
      unfold Build.mirrorMap
      exact (run_bind_ok hsuffix).trans (run_bind_ok hbuild)
    have hlength : m.length = order.length := by
      rw [← hkeys m _ (hmap.trans rfl), Ledger.keys, List.length_map]
    refine (run_bind_ok (hnodes.trans (run_bind_ok hbuild))).trans ?_
    rw [run_bind_ok (hmap.trans rfl), hlength, List.nil_append, List.length_map]
    rfl

/-! ## Mirror maps -/

/-- A map is built if and only if every selected node stands after all that it depends on. It doubles the selected nodes
and takes the others to themselves. -/
theorem Build.mirror_map_doubles_selected {order : List NodeId} {test : Selector} {suffix : Option Datum} {text : String}
    {selected : NodeId → Bool} {a : Ambient} {w : Workspace} (hnd : order.Nodup)
    (horder : ∀ n ∈ order, w.heap.Has n ∧ (w.heap.node n).strays = none ∧
      test.holds n (w.heap.node n) = .ok (selected n))
    (hsuffix : Build.mirrorSuffix suffix a w = .ok (.text text) w) :
    ((∃ node w', Build.mirrorMap order (some test) suffix a w = .error (.gradient (.mirroredOutOfOrder node)) w') ↔
      ∃ before n after, order = before ++ n :: after ∧ selected n = true ∧ ∃ k ∈ w.heap.predecessors n, k ∉ before) ∧
    ((¬ ∃ before n after, order = before ++ n :: after ∧ selected n = true ∧
        ∃ k ∈ w.heap.predecessors n, k ∉ before) →
      ∃ m w', Build.mirrorMap order (some test) suffix a w = .ok (some m) w' ∧ w.heap.GrowsTo w'.heap ∧
        m.Doubles w.heap w'.heap selected text order) ∧
    Build.looseMirrorMap (order.map .node) test suffix a w =
      (do return ⟨(← Build.mirrorMap order (some test) suffix).getD [], order.map .node⟩ : Build LooseMirrorMap) a w := by
  have hdecided := Build.mirrorMap_decided hnd horder hsuffix
  rw [Heap.misplaced_iff, not_not]
  refine ⟨⟨fun ⟨node, w', hrun⟩ => (hdecided.error hrun).1, fun hord => ?_⟩, fun hord => ?_, ?_⟩
  · cases hrun : Build.mirrorMap order (some test) suffix a w with
    | ok r w' => exact absurd (hdecided.ok hrun).1 hord
    | error e w' =>
      obtain ⟨node, rfl⟩ := (hdecided.error hrun).2
      exact ⟨node, w', rfl⟩
  · cases hrun : Build.mirrorMap order (some test) suffix a w with
    | ok r w' =>
      obtain ⟨-, m, rfl, hg, hm⟩ := hdecided.ok hrun
      exact ⟨m, w', rfl, hg, hm⟩
    | error e w' => exact absurd hord (hdecided.error hrun).1
  · refine Build.looseMirrorMap_nodes hnd hsuffix fun m w' hrun => ?_
    obtain ⟨-, m', hm', -, hdoubles⟩ := hdecided.ok hrun
    cases hm'
    exact hdoubles.keys

/-- A sum may stand before the product and the exponential that are copied; an exponential that is copied may not stand
before the variable that it waits for. -/
theorem Build.mirror_map_doubles_selected_sample :
    (∃ m w, Build.mirrorMap [⟨4⟩, ⟨0⟩, ⟨1⟩, ⟨2⟩, ⟨3⟩] (some (.names ["p", "q"])) (some (.text "_again")) .initial
        { heap := .sample } = .ok (some m) w ∧
      m.Doubles .sample w.heap (fun n => decide (n ∈ [⟨2⟩, ⟨3⟩])) "_again" [⟨4⟩, ⟨0⟩, ⟨1⟩, ⟨2⟩, ⟨3⟩]) ∧
    ∃ node w, Build.mirrorMap [⟨2⟩, ⟨3⟩, ⟨1⟩] (some (.names ["q"])) (some (.text "_again")) .initial
      { heap := .sample } = .error (.gradient (.mirroredOutOfOrder node)) w := by
  have hhas : ∀ i < 8, Heap.sample.Has ⟨i⟩ := fun i hi => hi
  have hfirst : ∀ n ∈ [(⟨4⟩ : NodeId), ⟨0⟩, ⟨1⟩, ⟨2⟩, ⟨3⟩], Heap.sample.Has n ∧ (Heap.sample.node n).strays = none ∧
      (Selector.names ["p", "q"]).holds n (Heap.sample.node n) = .ok (decide (n ∈ [⟨2⟩, ⟨3⟩])) := by
    simp only [List.forall_mem_cons, List.not_mem_nil, false_implies, implies_true, and_true]
    exact ⟨⟨hhas 4 (by decide), rfl, rfl⟩, ⟨hhas 0 (by decide), rfl, rfl⟩, ⟨hhas 1 (by decide), rfl, rfl⟩,
      ⟨hhas 2 (by decide), rfl, rfl⟩, hhas 3 (by decide), rfl, rfl⟩
  have hsecond : ∀ n ∈ [(⟨2⟩ : NodeId), ⟨3⟩, ⟨1⟩], Heap.sample.Has n ∧ (Heap.sample.node n).strays = none ∧
      (Selector.names ["q"]).holds n (Heap.sample.node n) = .ok (decide (n ∈ [⟨3⟩])) := by
    simp only [List.forall_mem_cons, List.not_mem_nil, false_implies, implies_true, and_true]
    exact ⟨⟨hhas 2 (by decide), rfl, rfl⟩, ⟨hhas 3 (by decide), rfl, rfl⟩, hhas 1 (by decide), rfl, rfl⟩
  have hsuffix : Build.mirrorSuffix (some (.text "_again")) .initial { heap := .sample } =
      .ok (.text "_again") { heap := .sample } := rfl
  obtain ⟨-, hbuilt, -⟩ := mirror_map_doubles_selected (by decide) hfirst hsuffix
  obtain ⟨hfails, -⟩ := mirror_map_doubles_selected (by decide) hsecond hsuffix
  constructor
  · obtain ⟨m, w, hrun, -, hm⟩ := hbuilt fun hbad => Heap.misplaced_iff.mp hbad (by decide)
    exact ⟨m, w, hrun, hm⟩
  · exact hfails.mpr ⟨[⟨2⟩], ⟨3⟩, [⟨1⟩], rfl, rfl, ⟨1⟩, by decide, by decide⟩

end Backprop
