import Backprop.Proofs.SlotLemmas
import Backprop.Proofs.Turns

/-!
# What a mirror map holds

The map is built along an order in which every node comes after those it
depends on, so the images that a copy needs are there when it is made. In the
end every node of the order has an image: itself, or a copy that reads from
images (`Reflects`).
-/

namespace Backprop

namespace Heap

theorem Settled.of_append {h : Heap} {n : NodeId} : ∀ {l rest : List NodeId}, h.Settled (l ++ n :: rest) →
    ∀ p ∈ h.predecessors n, p ∈ rest
  | [], _, hs => hs.1
  | _ :: _, _, hs => Settled.of_append hs.2

theorem links_of_flaw_none {node : Node} (hf : node.flaw? = none) : node.links.flaw? = none := by
  unfold Node.flaw? at hf
  unfold Node.links
  cases hs : node.strays with
  | some l => rw [hs] at hf; exact hf
  | none =>
    have hi : (node.inputs.map Value.entry).find? (fun v => v.entry?.isNone) = none := by
      rw [List.find?_eq_none]
      intro v hv
      obtain ⟨e, _, rfl⟩ := List.mem_map.mp hv
      simp [Value.entry?]
    have hd : (node.deps.map Value.node).find? (fun v => v.node?.isNone) = none := by
      rw [List.find?_eq_none]
      intro v hv
      obtain ⟨n, _, rfl⟩ := List.mem_map.mp hv
      simp [Value.node?]
    simp [Links.flaw?, Links.strayInput?, Links.strayDep?, hi, hd]

theorem flaw_none_of_checkOrder {h : Heap} {order : List NodeId} (hc : h.checkOrder order = .ok ()) :
    ∀ n ∈ order, h.flaw? n = none := by
  unfold checkOrder at hc
  cases hf : order.findSome? h.flaw? with
  | some e => rw [hf] at hc; cases hc
  | none => exact fun n hn => List.findSome?_eq_none_iff.mp hf n hn

end Heap

namespace MirrorMap

theorem checkStrays_ok {h : Heap} {node : Node} (hf : node.flaw? = none) : checkStrays h node = .ok () := by
  have hl := Heap.links_of_flaw_none hf
  unfold Links.flaw? at hl
  unfold checkStrays
  cases hi : node.links.strayInput? with
  | some v => rw [hi] at hl; cases hl
  | none =>
    cases hd : node.links.strayDep? with
    | some v => rw [hi, hd] at hl; cases hl
    | none => rfl

def imageEntry (m : MirrorMap) (e : Entry) : Entry := ⟨Turn.forward (some m) e.node, e.index⟩

theorem image_ok {m : MirrorMap} {n : NodeId} (hn : (Ledger.get? m n).isSome) (h : Heap) :
    m.image h n = .ok (Turn.forward (some m) n) := by
  obtain ⟨n', hn'⟩ := Option.isSome_iff_exists.mp hn
  simp [image, Turn.forward, hn']

theorem imageInputs_ok {m : MirrorMap} (h : Heap) : ∀ {inputs : List Entry},
    (∀ e ∈ inputs, (Ledger.get? m e.node).isSome) → m.imageInputs h inputs = .ok (inputs.map m.imageEntry)
  | [], _ => rfl
  | e :: rest, hi => by
    rw [imageInputs, image_ok (hi e (by simp)),
      imageInputs_ok h fun e' he' => hi e' (List.mem_cons_of_mem _ he')]
    rfl

theorem imageDeps_ok {m : MirrorMap} (h : Heap) : ∀ {deps : List NodeId},
    (∀ d ∈ deps, (Ledger.get? m d).isSome) → m.imageDeps h deps = .ok (deps.map (Turn.forward (some m)))
  | [], _ => rfl
  | d :: rest, hd => by
    rw [imageDeps, image_ok (hd d (by simp)),
      imageDeps_ok h fun d' hd' => hd d' (List.mem_cons_of_mem _ hd')]
    rfl

def copyOf (m : MirrorMap) (node : Node) (name : String) : Node :=
  { node with name, inputs := node.inputs.map m.imageEntry, deps := node.deps.map (Turn.forward (some m)) }

/-- The map takes every node of `ns`, and no other, to itself or, where the test holds, to a copy, which is new. -/
structure Reflects (m : MirrorMap) (h₀ h : Heap) (test : Selector) (ns : List NodeId) : Prop where
  domain : ∀ n, (Ledger.get? m n).isSome ↔ n ∈ ns
  image : ∀ n ∈ ns, (test.holds n (h₀.node n) = .ok false ∧ Turn.forward (some m) n = n) ∨
    (test.holds n (h₀.node n) = .ok true ∧ h.Has (Turn.forward (some m) n) ∧
      ∃ name, h.node (Turn.forward (some m) n) = m.copyOf (h₀.node n) name)
  fresh : ∀ n ∈ ns, test.holds n (h₀.node n) = .ok true → ¬ h₀.Has (Turn.forward (some m) n)

theorem forward_put_self (m : MirrorMap) (n n' : NodeId) : Turn.forward (some (Ledger.put m n n')) n = n' := by
  simp [Turn.forward]

theorem forward_put_ne (m : MirrorMap) {n k : NodeId} (n' : NodeId) (hk : k ≠ n) :
    Turn.forward (some (Ledger.put m n n')) k = Turn.forward (some m) k := by
  simp [Turn.forward, Ledger.get?_put_ne _ _ hk]

/-- A copy only reads images that are there, so it does not change when a further image is added. -/
theorem copyOf_put {m : MirrorMap} {n : NodeId} (n' : NodeId) {node : Node} (name : String)
    (hp : ∀ k ∈ node.predecessors, k ≠ n) : copyOf (Ledger.put m n n') node name = m.copyOf node name := by
  unfold copyOf
  have hi : node.inputs.map (imageEntry (Ledger.put m n n')) = node.inputs.map m.imageEntry := by
    apply List.map_congr_left
    intro e he
    unfold imageEntry
    rw [forward_put_ne m n' (hp _ (List.mem_append_left _ (List.mem_map_of_mem he)))]
  have hd : node.deps.map (Turn.forward (some (Ledger.put m n n'))) = node.deps.map (Turn.forward (some m)) := by
    apply List.map_congr_left
    intro d hd
    exact forward_put_ne m n' (hp _ (List.mem_append_right _ hd))
  rw [hi, hd]

theorem copyNode_ends {m : MirrorMap} {suffix : Datum} {n : NodeId} {a : Ambient} {w : Workspace}
    (hp : ∀ k ∈ w.heap.predecessors n, (Ledger.get? m k).isSome) (hf : w.heap.flaw? n = none) :
    Ends (m.copyNode suffix n) a w
      (fun n' w' => w.heap.GrowsTo w'.heap ∧ ¬ w.heap.Has n' ∧ w'.heap.Has n' ∧
        ∃ name, w'.heap.node n' = m.copyOf (w.heap.node n) name)
      fun e => suffixText suffix = .error e := by
  unfold copyNode
  refine .step (r := w.heap) (u := w) rfl ?_
  refine .bind (P := fun _ w' => w' = w) (by cases suffix <;> exact rfl) ?_
  rintro suffix w rfl
  have hi := m.imageInputs_ok w.heap fun e he => hp e.node (List.mem_append_left _ (List.mem_map_of_mem he))
  have hd := m.imageDeps_ok w.heap fun d hd => hp d (List.mem_append_right _ hd)
  simp only [hi, hd, checkStrays_ok hf]
  exact ⟨w.heap.growsTo_push _, Nat.lt_irrefl _, by simp [Heap.Has, Heap.size], _, w.heap.node_push_self _⟩

section
variable {h₀ : Heap} {test : Selector} {suffix : Datum} {a : Ambient}

theorem Reflects.put {m : MirrorMap} {h h' : Heap} {before : List NodeId} {n n' : NodeId}
    (hm : m.Reflects h₀ h test before) (hg : h.GrowsTo h') (hnew : n ∉ before)
    (hclosed : ∀ k ∈ before, ∀ p ∈ h₀.predecessors k, p ∈ before)
    (hn : (test.holds n (h₀.node n) = .ok false ∧ n' = n) ∨
      (test.holds n (h₀.node n) = .ok true ∧ h'.Has n' ∧
        ∃ name, h'.node n' = copyOf (Ledger.put m n n') (h₀.node n) name))
    (hfresh : test.holds n (h₀.node n) = .ok true → ¬ h₀.Has n') :
    Reflects (Ledger.put m n n') h₀ h' test (before ++ [n]) := by
  constructor
  · intro k
    by_cases hk : k = n
    · subst hk; simp
    · rw [Ledger.get?_put_ne _ _ hk, hm.domain k]; simp [hk]
  · intro k hk
    rcases List.mem_append.mp hk with hk | hk
    · have hne : k ≠ n := fun he => hnew (he ▸ hk)
      rw [forward_put_ne m n' hne]
      refine (hm.image k hk).imp_right fun ⟨ht, hh, name, hc⟩ => ⟨ht, hg.has hh, name, ?_⟩
      rw [hg.node_eq _ hh, hc]
      exact (copyOf_put n' name fun p hp => ne_of_mem_of_not_mem (hclosed k hk p hp) hnew).symm
    · obtain rfl := List.mem_singleton.mp hk
      rw [forward_put_self]
      exact hn
  · intro k hk
    rcases List.mem_append.mp hk with hk | hk
    · have hne : k ≠ n := fun he => hnew (he ▸ hk)
      rw [forward_put_ne m n' hne]
      exact hm.fresh k hk
    · obtain rfl := List.mem_singleton.mp hk
      rw [forward_put_self]
      exact hfresh

theorem extend_ends {m : MirrorMap} {before : List NodeId} {n : NodeId} {w : Workspace} (hg : h₀.GrowsTo w.heap)
    (hn : h₀.Has n) (hm : m.Reflects h₀ w.heap test before) (hnew : n ∉ before) (hf : h₀.flaw? n = none)
    (hclosed : ∀ k ∈ before ++ [n], ∀ p ∈ h₀.predecessors k, p ∈ before) :
    Ends (extend test suffix m n) a w
      (fun m' w' => w.heap.GrowsTo w'.heap ∧ m'.Reflects h₀ w'.heap test (before ++ [n]))
      fun e => suffixText suffix = .error e ∨ test.holds n (h₀.node n) = .error e := by
  have hnode := hg.node_eq n hn
  have hpre : ∀ p ∈ h₀.predecessors n, p ∈ before := hclosed n (by simp)
  have hclosed' : ∀ k ∈ before, ∀ p ∈ h₀.predecessors k, p ∈ before := fun k hk => hclosed k (by simp [hk])
  unfold extend
  refine .step (r := w.heap) (u := w) rfl ?_
  rw [hnode]
  cases ht : test.holds n (h₀.node n) with
  | error e => exact .fail (u := w) (by rw [ht]; rfl) (.inr rfl)
  | ok holds =>
    refine .step (r := holds) (u := w) (by rw [ht]; rfl) ?_
    cases holds with
    | false =>
      refine ⟨.refl _, hm.put (.refl _) hnew hclosed' (.inl ⟨ht, rfl⟩) fun htrue => ?_⟩
      rw [ht] at htrue
      cases htrue
    | true =>
      refine .bind ((copyNode_ends (fun k hk => ?_) ?_).mono (fun _ _ h => h) fun _ => .inl) ?_
      · unfold Heap.predecessors at hk
        rw [hnode] at hk
        exact (hm.domain k).mpr (hpre k hk)
      · unfold Heap.flaw?; rw [hnode]; exact hf
      rintro n' w' ⟨hg', hno, hh, name, hc⟩
      refine ⟨hg', hm.put hg' hnew hclosed' (.inr ⟨ht, hh, name, ?_⟩) fun _ hn' => hno (hg.has hn')⟩
      rw [hc, hnode]
      exact (copyOf_put n' name fun p hp => ne_of_mem_of_not_mem (hpre p hp) hnew).symm

theorem build_ends : ∀ {rest : List NodeId} (before : List NodeId) {m : MirrorMap} {w : Workspace}, h₀.GrowsTo w.heap →
    m.Reflects h₀ w.heap test before → h₀.Settled (before ++ rest).reverse → (before ++ rest).Nodup →
    (∀ n ∈ before ++ rest, h₀.Has n) → (∀ n ∈ before ++ rest, h₀.flaw? n = none) →
    Ends (build test suffix rest m) a w
      (fun m' w' => w.heap.GrowsTo w'.heap ∧ m'.Reflects h₀ w'.heap test (before ++ rest))
      fun e => suffixText suffix = .error e ∨ ∃ n ∈ before ++ rest, test.holds n (h₀.node n) = .error e
  | [], before, m, w, _, hm, _, _, _, _ => ⟨.refl _, by rw [List.append_nil]; exact hm⟩
  | n :: rest, before, m, w, hg, hm, hs, hnd, hhas, hf => by
    have hsplit : before ++ n :: rest = (before ++ [n]) ++ rest := by simp
    have hnew : n ∉ before := fun hn => by
      have := (List.nodup_append.mp hnd).2.2 n hn n (by simp)
      exact this rfl
    -- Whatever is in the order up to `n` has its predecessors before `n`.
    have hclosed : ∀ k ∈ before ++ [n], ∀ p ∈ h₀.predecessors k, p ∈ before := by
      intro k hk p hp
      obtain ⟨l, l', hl⟩ := List.append_of_mem hk
      have hs' : h₀.Settled ((l' ++ rest).reverse ++ k :: l.reverse) := by
        have : before ++ n :: rest = l ++ k :: (l' ++ rest) := by rw [hsplit, hl]; simp
        rw [this] at hs
        simpa using hs
      have hpl : p ∈ l := List.mem_reverse.mp (hs'.of_append p hp)
      have hlb : l <+: before := by
        have h₁ : l <+: before ++ [n] := ⟨k :: l', hl.symm⟩
        rcases List.prefix_concat_iff.mp h₁ with h₂ | h₂
        · rw [h₂] at hl
          exact absurd (congrArg List.length hl) (by simp)
        · exact h₂
      exact hlb.subset hpl
    rw [build]
    refine .bind ((extend_ends hg (hhas n (by simp)) hm hnew (hf n (by simp)) hclosed).mono (fun _ _ h => h)
      fun e he => he.imp_right fun he => ⟨n, by simp, he⟩) ?_
    rintro m' w' ⟨hg', hm'⟩
    rw [hsplit] at hs hnd hhas hf ⊢
    exact (build_ends _ (hg.trans hg') hm' hs hnd hhas hf).mono (fun _ _ h => ⟨hg'.trans h.1, h.2⟩) fun _ h => h

theorem Reflects.grows {m : MirrorMap} {h h' : Heap} {ns : List NodeId} (hm : m.Reflects h₀ h test ns)
    (hg : h.GrowsTo h') : m.Reflects h₀ h' test ns := by
  refine ⟨hm.domain, fun n hn => ?_, hm.fresh⟩
  refine (hm.image n hn).imp_right fun ⟨hh, hh', name, hc⟩ => ⟨hh, hg.has hh', name, ?_⟩
  rw [hg.node_eq _ hh', hc]

theorem reflects_nil (h : Heap) : Reflects [] h₀ h test [] := ⟨by simp, by simp, by simp⟩

end

def Mirrored (test : Option Selector) (mirrors : Option MirrorMap) (h₀ h : Heap) (ns : List NodeId) : Prop :=
  (test = none ∧ mirrors = none) ∨ ∃ t m, test = some t ∧ mirrors = some m ∧ Reflects m h₀ h t ns

theorem Mirrored.mirrored {test : Option Selector} {s : Sweep} {h₀ h : Heap} {ns : List NodeId}
    (hm : Mirrored test s.mirrors h₀ h ns) {n : NodeId} (hn : n ∈ ns) (h' : Heap) :
    s.mirrored h' n = .ok (Turn.forward s.mirrors n) := by
  unfold Sweep.mirrored
  rcases hm with ⟨-, hs⟩ | ⟨t, m, -, hs, hr⟩
  · rw [hs]; rfl
  · obtain ⟨n', hn'⟩ := Option.isSome_iff_exists.mp ((hr.domain n).mpr hn)
    rw [hs]
    simp [Turn.forward, hn']

theorem Mirrored.grows {test : Option Selector} {mirrors : Option MirrorMap} {h₀ h h' : Heap} {ns : List NodeId}
    (hm : Mirrored test mirrors h₀ h ns) (hg : h.GrowsTo h') : Mirrored test mirrors h₀ h' ns :=
  hm.imp_right fun ⟨t, m, ht, hs, hr⟩ => ⟨t, m, ht, hs, hr.grows hg⟩

end MirrorMap

section Respects
variable {R : Workspace → Workspace → Prop} [Build.Permissive R]

theorem MirrorMap.respects_copyNode (m : MirrorMap) (suffix : Datum) (n : NodeId) :
    Build.Respects R (m.copyNode suffix n) :=
  Build.respects_heap.bind fun _ => (Build.respects_ofExcept _).bind fun _ => (Build.respects_ofExcept _).bind fun _ =>
    (Build.respects_ofExcept _).bind fun _ => (Build.respects_ofExcept _).bind fun _ => Build.respects_create _ _

theorem MirrorMap.respects_extend (test : Selector) (suffix : Datum) (m : MirrorMap) (n : NodeId) :
    Build.Respects R (MirrorMap.extend test suffix m n) := by
  refine Build.respects_heap.bind fun h => (Build.respects_ofExcept _).bind fun holds => ?_
  split
  · exact (m.respects_copyNode suffix n).bind fun _ => Build.respects_pure _
  · exact Build.respects_pure _

theorem MirrorMap.respects_build (test : Selector) (suffix : Datum) : ∀ (order : List NodeId) (m : MirrorMap),
    Build.Respects R (MirrorMap.build test suffix order m)
  | [], m => Build.respects_pure m
  | n :: rest, m =>
    (MirrorMap.respects_extend test suffix m n).bind fun m' => MirrorMap.respects_build test suffix rest m'

theorem Build.respects_mirrorMap (order : List NodeId) (test : Option Selector) (suffix : Option Datum) :
    Build.Respects R (Build.mirrorMap order test suffix) := by
  cases test with
  | none => exact Build.respects_pure _
  | some test =>
    have hsuffix : Build.Respects R (Build.mirrorSuffix suffix) := by
      cases suffix with
      | none => exact Build.respects_setting _
      | some d => exact Build.respects_pure d
    exact hsuffix.bind fun d => (MirrorMap.respects_build test d order []).bind fun m =>
      (Build.respects_log _ _ _).bind fun _ => Build.respects_pure _

end Respects

theorem Build.grows_mirrorMap (order : List NodeId) (test : Option Selector) (suffix : Option Datum) :
    Build.Grows (Build.mirrorMap order test suffix) := Build.respects_mirrorMap order test suffix

theorem Build.mirrorMap_ends {order : List NodeId} {test : Option Selector} {a : Ambient} {w : Workspace}
    (hs : w.heap.Settled order.reverse) (hnd : order.Nodup) (hhas : ∀ n ∈ order, w.heap.Has n)
    (hf : ∀ n ∈ order, w.heap.flaw? n = none) :
    Ends (Build.mirrorMap order test none) a w
      (fun mirrors w' => w.heap.GrowsTo w'.heap ∧ MirrorMap.Mirrored test mirrors w.heap w'.heap order)
      fun e => (∃ d, a.profile.get ["autodiff", "mirror_suffix"] = .ok d ∧ MirrorMap.suffixText d = .error e) ∨
        a.profile.get ["autodiff", "mirror_suffix"] = .error e ∨
        ∃ t, test = some t ∧ ∃ n ∈ order, t.holds n (w.heap.node n) = .error e := by
  unfold Build.mirrorMap
  cases test with
  | none => exact ⟨.refl _, .inl ⟨rfl, rfl⟩⟩
  | some t =>
    cases hp : a.profile.get ["autodiff", "mirror_suffix"] with
    | error e =>
      refine .fail (e := e) (u := w) ?_ (.inr (.inl rfl))
      show Build.ofExcept (a.profile.get ["autodiff", "mirror_suffix"]) a w = _
      rw [hp]; rfl
    | ok suffix =>
      refine .step (r := suffix) (u := w) ?_ ?_
      · show Build.ofExcept (a.profile.get ["autodiff", "mirror_suffix"]) a w = _
        rw [hp]; rfl
      refine .bind ((MirrorMap.build_ends [] (.refl _) (MirrorMap.reflects_nil _) hs hnd hhas hf).mono
        (fun _ _ h => h) fun e he => he.imp (fun he => ⟨suffix, rfl, he⟩) fun hn => .inr ⟨t, rfl, hn⟩) ?_
      rintro m w' ⟨hg, hm⟩
      exact ⟨hg, .inr ⟨t, m, rfl, rfl, hm⟩⟩

theorem Build.mirrorMap_run {order : List NodeId} {test : Option Selector} {a : Ambient} {w : Workspace}
    (hs : w.heap.Settled order.reverse) (hnd : order.Nodup) (hhas : ∀ n ∈ order, w.heap.Has n)
    (hf : ∀ n ∈ order, w.heap.flaw? n = none) {text : String}
    (hsuffix : a.profile.get ["autodiff", "mirror_suffix"] = .ok (.text text))
    (ht : ∀ t ∈ test, ∀ n ∈ order, ∃ b, t.holds n (w.heap.node n) = .ok b) :
    ∃ mirrors w', Build.mirrorMap order test none a w = .ok mirrors w' ∧ w.heap.GrowsTo w'.heap ∧
      MirrorMap.Mirrored test mirrors w.heap w'.heap order := by
  refine Ends.succeeds ((Build.mirrorMap_ends hs hnd hhas hf).mono (fun _ _ h => h) ?_)
  rintro e (⟨d, hd, he⟩ | he | ⟨t, ht', n, hn, he⟩)
  · rw [hsuffix] at hd
    cases hd
    cases he
  · rw [hsuffix] at he
    cases he
  · obtain ⟨b, hb⟩ := ht t ht' n hn
    rw [hb] at he
    cases he

end Backprop
