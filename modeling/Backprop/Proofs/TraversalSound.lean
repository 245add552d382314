import Backprop.Traversal
import Mathlib.Data.List.Nodup
import Mathlib.Logic.Relation

/-!
# The order of a traversal

The stack of a traversal only postpones work: `Explored` says what exploring a
list of nodes does to the marks and to the finished nodes, without a stack, and
`walk` does the same. On a part of the heap without cycles every node is
finished after all its predecessors (`Settled`), which is the order in which
the sweep goes through the nodes backwards.
-/

namespace Backprop.Heap

/-! ## Edges, reachability and well-formed heaps -/

def Feeds (h : Heap) (a b : NodeId) : Prop := a ∈ h.predecessors b

def Reachable (h : Heap) (heads : List NodeId) (n : NodeId) : Prop :=
  ∃ r ∈ heads, Relation.ReflTransGen h.Feeds n r

def AcyclicFrom (h : Heap) (heads : List NodeId) : Prop :=
  ∀ n, h.Reachable heads n → ¬ Relation.TransGen h.Feeds n n

def Has (h : Heap) (n : NodeId) : Prop := n.index < h.size

def HasEntry (h : Heap) (e : Entry) : Prop := h.Has e.node ∧ (e.index : Int) < h.outputs e.node

/-- Nodes refer only to nodes and outputs that are there. -/
structure WellFormed (h : Heap) : Prop where
  inputs : ∀ n, h.Has n → ∀ e ∈ (h.node n).inputs, h.HasEntry e
  deps : ∀ n, h.Has n → ∀ d ∈ (h.node n).deps, h.Has d

/-- All that the heads depend on is there, and it refers to entries and nodes only. -/
def Whole (h : Heap) (heads : List NodeId) : Prop := ∀ n, h.Reachable heads n → h.Has n ∧ (h.node n).strays = none

theorem node_of_not_has {h : Heap} {n : NodeId} (hn : ¬ h.Has n) : h.node n = default := by
  unfold Has size at hn
  simp [Heap.node, Nat.le_of_not_lt hn]

theorem has_of_feeds {h : Heap} {a b : NodeId} (hab : h.Feeds a b) : h.Has b := by
  by_cases hb : h.Has b
  · exact hb
  · unfold Feeds predecessors at hab
    rw [node_of_not_has hb] at hab
    cases hab

theorem has_of_op {h : Heap} {n : NodeId} (hn : (h.node n).op.isSome) : h.Has n := by
  by_cases hhas : h.Has n
  · exact hhas
  · rw [node_of_not_has hhas] at hn
    cases hn

theorem WellFormed.has_predecessor {h : Heap} (hw : h.WellFormed) {n p : NodeId} (hp : p ∈ h.predecessors n) :
    h.Has p := by
  have hn := has_of_feeds hp
  rcases List.mem_append.mp hp with hi | hd
  · obtain ⟨e, he, rfl⟩ := List.mem_map.mp hi
    exact (hw.inputs n hn e he).1
  · exact hw.deps n hn p hd

theorem Reachable.head {h : Heap} {heads : List NodeId} {r : NodeId} (hr : r ∈ heads) : h.Reachable heads r :=
  ⟨r, hr, .refl⟩

theorem Reachable.step {h : Heap} {heads : List NodeId} {n p : NodeId} (hn : h.Reachable heads n)
    (hp : p ∈ h.predecessors n) : h.Reachable heads p := by
  obtain ⟨r, hr, hnr⟩ := hn
  exact ⟨r, hr, .head hp hnr⟩

theorem Reachable.induct {h : Heap} {heads : List NodeId} {n : NodeId} {P : NodeId → Prop} (hn : h.Reachable heads n)
    (hhead : ∀ r ∈ heads, P r) (hstep : ∀ n, h.Reachable heads n → P n → ∀ p ∈ h.predecessors n, P p) : P n := by
  obtain ⟨r, hr, hpath⟩ := hn
  induction hpath using Relation.ReflTransGen.head_induction_on with
  | refl => exact hhead r hr
  | head hfeeds hrest ih => exact hstep _ ⟨r, hr, hrest⟩ ih _ hfeeds

theorem Reachable.mono {h : Heap} {heads heads' : List NodeId} (hs : ∀ r ∈ heads, r ∈ heads') {n : NodeId}
    (hn : h.Reachable heads n) : h.Reachable heads' n := by
  obtain ⟨r, hr, hnr⟩ := hn
  exact ⟨r, hs r hr, hnr⟩

/-! ## Exploring without a stack -/

/-- Exploring nodes one after the other: one that is marked is passed over, any other is marked, its predecessors
are explored, and it is finished. -/
inductive Explored (h : Heap) : List NodeId → Array Bool → List NodeId → Array Bool → List NodeId → Prop
  | nil (seen : Array Bool) (done : List NodeId) : Explored h [] seen done seen done
  | skip {c : NodeId} {cs : List NodeId} {seen seen' : Array Bool} {done done' : List NodeId}
      (hc : ¬ seen[c.index]? = some false) (rest : Explored h cs seen done seen' done') :
      Explored h (c :: cs) seen done seen' done'
  | visit {c : NodeId} {cs : List NodeId} {seen seen₁ seen₂ : Array Bool} {done done₁ done₂ : List NodeId}
      (hc : seen[c.index]? = some false)
      (below : Explored h (h.predecessors c) (seen.setIfInBounds c.index true) done seen₁ done₁)
      (rest : Explored h cs seen₁ (c :: done₁) seen₂ done₂) : Explored h (c :: cs) seen done seen₂ done₂

theorem walk_of_explored {σ : Type} {h : Heap} (finish : NodeId → σ → σ) (init : σ) {cs : List NodeId}
    {seen seen' : Array Bool} {done done' : List NodeId} (hx : h.Explored cs seen done seen' done') (n : NodeId)
    (rest : List Frame) :
    h.walk finish ((n, cs) :: rest) seen (done.foldr finish init) =
      h.walk finish rest seen' ((n :: done').foldr finish init) := by
  induction hx generalizing n rest with
  | nil seen done => rw [walk, List.foldr_cons]
  | skip hc _ ih => rw [walk, if_neg hc, ih]
  | visit hc _ _ ihb ihr => rw [walk, if_pos hc, ihb, ihr]

theorem Explored.count_le {h : Heap} {cs : List NodeId} {seen seen' : Array Bool} {done done' : List NodeId}
    (hx : h.Explored cs seen done seen' done') : seen'.count false ≤ seen.count false := by
  induction hx with
  | nil => exact Nat.le_refl _
  | skip _ _ ih => exact ih
  | visit hc _ _ ihb ihr => exact Nat.le_trans ihr (Nat.le_trans ihb (Nat.le_of_lt (count_mark hc)))

theorem exists_explored (h : Heap) : ∀ (k : Nat) (cs : List NodeId) (seen : Array Bool) (done : List NodeId),
    seen.count false = k → ∃ seen' done', h.Explored cs seen done seen' done' := by
  intro k
  induction k using Nat.strongRecOn with
  | ind k ih =>
    intro cs
    induction cs with
    | nil => exact fun seen done _ => ⟨seen, done, .nil seen done⟩
    | cons c cs ihc =>
      intro seen done hk
      by_cases hc : seen[c.index]? = some false
      -- a visit marks a node, so fewer are left for what is below it and for the rest
      · have hlt := count_mark hc
        obtain ⟨s₁, d₁, hb⟩ := ih _ (hk ▸ hlt) (h.predecessors c) (seen.setIfInBounds c.index true) done rfl
        have hle := hb.count_le
        obtain ⟨s₂, d₂, hr⟩ := ih _ (by omega) cs s₁ (c :: d₁) rfl
        exact ⟨s₂, d₂, .visit hc hb hr⟩
      · obtain ⟨s', d', hr⟩ := ihc seen done hk
        exact ⟨s', d', .skip hc hr⟩

theorem foldl_explore {σ : Type} {h : Heap} (finish : NodeId → σ → σ) (init : σ) {heads : List NodeId} :
    ∀ {seen seen' : Array Bool} {done done' : List NodeId}, h.Explored heads seen done seen' done' →
      heads.foldl (h.explore finish) (seen, done.foldr finish init) = (seen', done'.foldr finish init) := by
  induction heads with
  | nil => intro _ _ _ _ hx; cases hx; rfl
  | cons r heads ih =>
    intro seen seen' done done' hx
    rw [List.foldl_cons]
    cases hx with
    | skip hc rest =>
      rw [explore, if_neg hc]
      exact ih rest
    | visit hc below rest =>
      rw [explore, if_pos hc, walk_of_explored finish init below, walk]
      exact ih rest

theorem explored_postorder (h : Heap) (heads : List NodeId) :
    ∃ seen, h.Explored heads (Array.replicate h.size false) [] seen (h.postorder heads).reverse := by
  obtain ⟨seen, done, hx⟩ := h.exists_explored _ heads (Array.replicate h.size false) [] rfl
  have hfold := foldl_explore List.cons [] hx
  simp only [List.foldr_cons_nil] at hfold
  refine ⟨seen, ?_⟩
  rw [postorder, hfold, List.reverse_reverse]
  exact hx

/-! ## What is finished -/

theorem Explored.size_eq {h : Heap} {cs : List NodeId} {seen seen' : Array Bool} {done done' : List NodeId}
    (hx : h.Explored cs seen done seen' done') : seen'.size = seen.size := by
  induction hx with
  | nil => rfl
  | skip _ _ ih => exact ih
  | visit _ _ _ ihb ihr => rw [ihr, ihb, Array.size_setIfInBounds]

theorem mark_get? {seen : Array Bool} {c : NodeId} (hc : seen[c.index]? = some false) (m : NodeId) :
    (seen.setIfInBounds c.index true)[m.index]? = if m = c then some true else seen[m.index]? := by
  obtain ⟨hi, _⟩ := Array.getElem?_eq_some_iff.mp hc
  rw [Array.getElem?_setIfInBounds]
  by_cases hm : m = c
  · subst hm; simp [hi]
  · have : c.index ≠ m.index := fun e => hm (by cases m; cases c; cases e; rfl)
    simp [hm, this]

/-- The nodes that exploring finishes were not marked, each is finished once, and no other node gets marked. -/
theorem Explored.finishes {h : Heap} {cs : List NodeId} {seen seen' : Array Bool} {done done' : List NodeId}
    (hx : h.Explored cs seen done seen' done') :
    ∃ new, done' = new ++ done ∧ new.Nodup ∧ (∀ m ∈ new, seen[m.index]? = some false) ∧
      ∀ m : NodeId, seen'[m.index]? = if m ∈ new then some true else seen[m.index]? := by
  induction hx with
  | nil => exact ⟨[], by simp⟩
  | skip _ _ ih => exact ih
  | @visit c cs seen s₁ s₂ done d₁ d₂ hc _ _ ihb ihr =>
    obtain ⟨new₁, rfl, hn₁, ho₁, hs₁⟩ := ihb
    obtain ⟨new₂, rfl, hn₂, ho₂, hs₂⟩ := ihr
    simp only [mark_get? hc] at ho₁ hs₁
    have hc₁ : c ∉ new₁ := fun hm => by simpa using ho₁ c hm
    -- What is finished after `c` was still open when `c` was finished.
    have ho₂' : ∀ m ∈ new₂, m ∉ new₁ ∧ m ≠ c ∧ seen[m.index]? = some false := by
      intro m hm
      have := ho₂ m hm
      rw [hs₁ m] at this
      by_cases h₁ : m ∈ new₁
      · simp [h₁] at this
      · by_cases h₂ : m = c
        · simp [h₂, hc₁] at this
        · exact ⟨h₁, h₂, by simpa [h₁, h₂] using this⟩
    refine ⟨new₂ ++ c :: new₁, by simp, ?_, ?_, ?_⟩
    · refine List.nodup_append.mpr ⟨hn₂, List.nodup_cons.mpr ⟨hc₁, hn₁⟩, ?_⟩
      rintro a ha b hb rfl
      rcases List.mem_cons.mp hb with rfl | hb
      · exact (ho₂' _ ha).2.1 rfl
      · exact (ho₂' _ ha).1 hb
    · intro m hm
      rcases List.mem_append.mp hm with hm | hm
      · exact (ho₂' m hm).2.2
      · rcases List.mem_cons.mp hm with rfl | hm
        · exact hc
        · have := ho₁ m hm
          by_cases h₂ : m = c
          · exact absurd (h₂ ▸ hm) hc₁
          · simpa [h₂] using this
    · intro m
      rw [hs₂, hs₁]
      by_cases h₂ : m ∈ new₂
      · simp [h₂]
      · by_cases h₁ : m ∈ new₁ <;> by_cases h₃ : m = c <;> simp [h₁, h₂, h₃]

theorem Explored.marked {h : Heap} {cs : List NodeId} {seen seen' : Array Bool} {done done' : List NodeId}
    (hx : h.Explored cs seen done seen' done') : ∀ c ∈ cs, c.index < seen.size → seen'[c.index]? = some true := by
  induction hx with
  | nil => intro c hc; cases hc
  | @skip c cs seen seen' done done' hc rest ih =>
    intro m hm hi
    rcases List.mem_cons.mp hm with rfl | hm
    · obtain ⟨new, _, _, _, hs⟩ := rest.finishes
      rw [hs m]
      cases hv : seen[m.index] with
      | true => simp [hi, hv]
      | false => exact absurd (by simp [hi, hv]) hc
    · exact ih m hm hi
  | @visit c cs seen s₁ s₂ done d₁ d₂ hc below rest ihb ihr =>
    intro m hm hi
    have hz : s₁.size = seen.size := by rw [below.size_eq, Array.size_setIfInBounds]
    rcases List.mem_cons.mp hm with rfl | hm
    · obtain ⟨new₁, _, _, ho₁, hs₁⟩ := below.finishes
      obtain ⟨new₂, _, _, _, hs₂⟩ := rest.finishes
      rw [hs₂, hs₁, mark_get? hc]
      simp
    · exact ihr m hm (hz ▸ hi)

theorem Explored.finishes_reachable {h : Heap} {cs : List NodeId} {seen seen' : Array Bool} {done done' : List NodeId}
    (hx : h.Explored cs seen done seen' done') {R : NodeId → Prop} (hR : ∀ n, R n → ∀ p ∈ h.predecessors n, R p)
    (hcs : ∀ c ∈ cs, R c) (hd : ∀ m ∈ done, R m) : ∀ m ∈ done', R m := by
  induction hx with
  | nil => exact hd
  | skip _ _ ih => exact ih (fun c hc => hcs c (List.mem_cons_of_mem _ hc)) hd
  | @visit c _ _ _ _ _ _ _ _ _ _ ihb ihr =>
    have hc : R c := hcs c (by simp)
    refine ihr (fun c hc => hcs c (List.mem_cons_of_mem _ hc)) fun m hm => ?_
    rcases List.mem_cons.mp hm with rfl | hm
    · exact hc
    · exact ihb (hR _ hc) hd m hm

/-! ## Any graph, cycles or not -/

theorem Explored.closed {h : Heap} {cs : List NodeId} {seen seen' : Array Bool} {done done' : List NodeId}
    (hx : h.Explored cs seen done seen' done')
    (hd : ∀ m ∈ done, ∀ p ∈ h.predecessors m, p.index < seen.size → seen[p.index]? = some true) :
    ∀ m ∈ done', ∀ p ∈ h.predecessors m, p.index < seen.size → seen'[p.index]? = some true := by
  induction hx with
  | nil => exact hd
  | skip _ _ ih => exact ih hd
  | @visit c cs seen s₁ s₂ done d₁ d₂ hc below _ ihb ihr =>
    have hz : (seen.setIfInBounds c.index true).size = seen.size := Array.size_setIfInBounds
    have hz₁ : s₁.size = seen.size := by rw [below.size_eq, hz]
    have hbelow := ihb fun m hm p hp hi => by
      rw [mark_get? hc, hd m hm p hp (hz ▸ hi)]
      split <;> rfl
    rw [hz] at hbelow
    rw [hz₁] at ihr
    refine ihr fun m hm p hp hi => ?_
    rcases List.mem_cons.mp hm with rfl | hm
    · exact below.marked p hp (hz ▸ hi)
    · exact hbelow m hm p hp hi

theorem nodup_postorder (h : Heap) (heads : List NodeId) : (h.postorder heads).Nodup := by
  obtain ⟨seen, hx⟩ := h.explored_postorder heads
  obtain ⟨new, hnew, hnd, -⟩ := hx.finishes
  rw [List.append_nil] at hnew
  exact List.nodup_reverse.mp (hnew ▸ hnd)

theorem has_of_mem_postorder {h : Heap} {heads : List NodeId} {n : NodeId} (hn : n ∈ h.postorder heads) : h.Has n := by
  obtain ⟨seen, hx⟩ := h.explored_postorder heads
  obtain ⟨new, hnew, -, ho, -⟩ := hx.finishes
  rw [List.append_nil] at hnew
  have hopen := ho n (hnew ▸ List.mem_reverse.mpr hn)
  rw [Array.getElem?_replicate] at hopen
  split at hopen
  · assumption
  · cases hopen

theorem reachable_of_mem_postorder {h : Heap} {heads : List NodeId} {n : NodeId} (hn : n ∈ h.postorder heads) :
    h.Reachable heads n := by
  obtain ⟨seen, hx⟩ := h.explored_postorder heads
  exact hx.finishes_reachable (fun n hn p hp => hn.step hp) (fun c hc => .head hc) (by simp) n (List.mem_reverse.mpr hn)

/-- Marks spread from the heads along predecessors, and in the end every marked node is finished. -/
theorem mem_postorder {h : Heap} {heads : List NodeId} {n : NodeId} (hn : h.Has n) (hr : h.Reachable heads n) :
    n ∈ h.postorder heads := by
  obtain ⟨seen, hx⟩ := h.explored_postorder heads
  obtain ⟨new, hnew, -, -, hs⟩ := hx.finishes
  rw [List.append_nil] at hnew
  have hfinished : ∀ m : NodeId, seen[m.index]? = some true → m ∈ h.postorder heads := by
    intro m hm
    by_cases hmn : m ∈ new
    · exact List.mem_reverse.mp (hnew ▸ hmn)
    · rw [hs m, if_neg hmn, Array.getElem?_replicate] at hm
      split at hm <;> cases hm
  obtain ⟨r, hr, hnr⟩ := hr
  induction hnr using Relation.ReflTransGen.head_induction_on with
  | refl => exact hfinished r (hx.marked r hr (by rw [Array.size_replicate]; exact hn))
  | @head a c hac _ ih =>
    have hc := List.mem_reverse.mpr (ih (has_of_feeds hac))
    exact hfinished a (hx.closed (by simp) c hc a hac (by rw [Array.size_replicate]; exact hn))

/-! ## Predecessors first -/

def Settled (h : Heap) : List NodeId → Prop
  | [] => True
  | n :: rest => (∀ p ∈ h.predecessors n, p ∈ rest) ∧ h.Settled rest

/-- Marked nodes that are not finished are on the stack, so they depend on what is explored next; a predecessor among
them would close a cycle. -/
theorem Explored.settled {h : Heap} {cs : List NodeId} {seen seen' : Array Bool} {done done' : List NodeId}
    (hx : h.Explored cs seen done seen' done') {R : NodeId → Prop} (hR : ∀ n, R n → ∀ p ∈ h.predecessors n, R p)
    (hac : ∀ n, R n → ¬ Relation.TransGen h.Feeds n n)
    (hin : ∀ n, R n → ∀ p ∈ h.predecessors n, p.index < seen.size) (hcs : ∀ c ∈ cs, R c)
    (hstack : ∀ g, seen[g.index]? = some true → g ∉ done → ∀ c ∈ cs, Relation.TransGen h.Feeds c g)
    (hd : h.Settled done) : h.Settled done' := by
  induction hx with
  | nil => exact hd
  | skip _ _ ih =>
    exact ih hin (fun c hc => hcs c (List.mem_cons_of_mem _ hc))
      (fun g hg hgd c hc => hstack g hg hgd c (List.mem_cons_of_mem _ hc)) hd
  | @visit c cs seen s₁ s₂ done d₁ d₂ hc below rest ihb ihr =>
    have hRc : R c := hcs c (by simp)
    have hz : (seen.setIfInBounds c.index true).size = seen.size := Array.size_setIfInBounds
    obtain ⟨new, rfl, _, _, hs⟩ := below.finishes
    simp only [mark_get? hc] at hs
    have hbelow : h.Settled (new ++ done) := by
      refine ihb (hz ▸ hin) (hR c hRc) (fun g hg hgd p hp => ?_) hd
      rw [mark_get? hc] at hg
      by_cases he : g = c
      · exact he ▸ .single hp
      · exact .head hp (hstack g (by simpa [he] using hg) hgd c (by simp))
    have hfirst : ∀ p ∈ h.predecessors c, p ∈ new ++ done := by
      intro p hp
      have hm := below.marked p hp (hz ▸ hin c hRc p hp)
      rw [hs p] at hm
      by_cases hn : p ∈ new
      · exact List.mem_append_left _ hn
      · by_cases he : p = c
        · exact absurd (.single (he ▸ hp)) (hac c hRc)
        -- a marked predecessor that is not finished waits for `c` itself
        · refine List.mem_append_right _ (Classical.byContradiction fun hpd => ?_)
          have hcp := hstack p (by simpa [hn, he] using hm) hpd c (by simp)
          exact hac c hRc (hcp.tail hp)
    have hz₁ : s₁.size = seen.size := by rw [below.size_eq, hz]
    refine ihr (hz₁ ▸ hin) (fun c hc => hcs c (List.mem_cons_of_mem _ hc)) (fun g hg hgd c' hc' => ?_) ⟨hfirst, hbelow⟩
    simp only [List.mem_cons, List.mem_append, not_or] at hgd
    rw [hs g] at hg
    exact hstack g (by simpa [hgd.1, hgd.2.1] using hg) hgd.2.2 c' (List.mem_cons_of_mem _ hc')

theorem settled_postorder {h : Heap} {heads : List NodeId} (hac : h.AcyclicFrom heads)
    (hhas : ∀ n, h.Reachable heads n → ∀ p ∈ h.predecessors n, h.Has p) : h.Settled (h.postorder heads).reverse := by
  obtain ⟨seen, hx⟩ := h.explored_postorder heads
  refine hx.settled (fun n hn p hp => hn.step hp) hac (fun n hn p hp => ?_) (fun c hc => .head hc) (fun g hg => ?_) trivial
  · rw [Array.size_replicate]; exact hhas n hn p hp
  · rw [Array.getElem?_replicate] at hg
    split at hg <;> simp at hg

/-- What a traversal of well-formed nodes without cycles gives, read from its end. -/
structure Arranged (h : Heap) (heads backwards : List NodeId) : Prop where
  nodup : backwards.Nodup
  settled : h.Settled backwards
  covers : ∀ r ∈ heads, r ∈ backwards
  has : ∀ n ∈ backwards, h.Has n
  reachable : ∀ n ∈ backwards, h.Reachable heads n

theorem arranged_postorder {h : Heap} {heads : List NodeId} (hw : h.WellFormed) (hh : ∀ r ∈ heads, h.Has r)
    (hac : h.AcyclicFrom heads) : h.Arranged heads (h.postorder heads).reverse where
  nodup := List.nodup_reverse.mpr (h.nodup_postorder heads)
  settled := settled_postorder hac fun _ _ _ hp => hw.has_predecessor hp
  covers r hr := List.mem_reverse.mpr (mem_postorder (hh r hr) (.head hr))
  has _ hn := has_of_mem_postorder (List.mem_reverse.mp hn)
  reachable _ hn := reachable_of_mem_postorder (List.mem_reverse.mp hn)

theorem AcyclicFrom.mono {h : Heap} {heads heads' : List NodeId} (hac : h.AcyclicFrom heads')
    (hs : ∀ r ∈ heads, r ∈ heads') : h.AcyclicFrom heads := fun n hn => hac n (hn.mono hs)

/-! ## Heaps in order of creation -/

instance (h : Heap) (e : Entry) : Decidable (h.HasEntry e) :=
  inferInstanceAs (Decidable (e.node.index < h.size ∧ (e.index : Int) < h.outputs e.node))

def Ascending (h : Heap) : Prop :=
  ∀ i < h.size, (∀ e ∈ (h.node ⟨i⟩).inputs, e.node.index < i ∧ (e.index : Int) < h.outputs e.node) ∧
    ∀ d ∈ (h.node ⟨i⟩).deps, d.index < i

instance (h : Heap) : Decidable h.Ascending :=
  inferInstanceAs (Decidable (∀ i < h.size, (∀ e ∈ (h.node ⟨i⟩).inputs, e.node.index < i ∧
    (e.index : Int) < h.outputs e.node) ∧ ∀ d ∈ (h.node ⟨i⟩).deps, d.index < i))

theorem Ascending.wellFormed {h : Heap} (ha : h.Ascending) : h.WellFormed where
  inputs n hn e he := by
    obtain ⟨hlt, hi⟩ := (ha n.index hn).1 e he
    exact ⟨Nat.lt_trans hlt hn, hi⟩
  deps n hn d hd := Nat.lt_trans ((ha n.index hn).2 d hd) hn

theorem Ascending.feeds {h : Heap} (ha : h.Ascending) {a b : NodeId} (hab : h.Feeds a b) : a.index < b.index := by
  have hb := has_of_feeds hab
  rcases List.mem_append.mp hab with hi | hd
  · obtain ⟨e, he, rfl⟩ := List.mem_map.mp hi
    exact ((ha b.index hb).1 e he).1
  · exact (ha b.index hb).2 a hd

theorem Ascending.acyclicFrom {h : Heap} (ha : h.Ascending) (heads : List NodeId) : h.AcyclicFrom heads := by
  -- every edge leads from an earlier node to a later one
  have hlt : ∀ {a b : NodeId}, Relation.TransGen h.Feeds a b → a.index < b.index := by
    intro a b hab
    induction hab with
    | single hab => exact ha.feeds hab
    | tail _ hbc ih => exact Nat.lt_trans ih (ha.feeds hbc)
  exact fun n _ hn => Nat.lt_irrefl _ (hlt hn)

theorem Ascending.le_of_reachable {h : Heap} (ha : h.Ascending) {heads : List NodeId} {n : NodeId}
    (hn : h.Reachable heads n) : ∃ r ∈ heads, n.index ≤ r.index := by
  obtain ⟨r, hr, hnr⟩ := hn
  refine ⟨r, hr, ?_⟩
  clear hr
  induction hnr with
  | refl => exact Nat.le_refl _
  | tail _ hbc ih => exact Nat.le_trans ih (Nat.le_of_lt (ha.feeds hbc))

theorem Ascending.whole {h : Heap} (ha : h.Ascending) (hs : ∀ i < h.size, (h.node ⟨i⟩).strays.isNone) {heads : List NodeId}
    (hheads : ∀ r ∈ heads, r.index < h.size) : h.Whole heads := by
  intro n hn
  obtain ⟨r, hr, hle⟩ := ha.le_of_reachable hn
  have hlt := Nat.lt_of_le_of_lt hle (hheads r hr)
  exact ⟨hlt, Option.isNone_iff_eq_none.mp (hs n.index hlt)⟩

/-- Two variables, their product, its exponential, which waits for the second variable, and the sum of the two; then
the halves of the first variable multiplied, and a variable that nothing depends on. -/
def sample : Heap where
  nodes := #[{ name := "x" }, { name := "y" },
    { op := some builtinOps[12], name := "p", inputs := [⟨⟨0⟩, 0⟩, ⟨⟨1⟩, 0⟩] },
    { op := some builtinOps[6], name := "q", inputs := [⟨⟨2⟩, 0⟩], deps := [⟨1⟩] },
    { op := some builtinOps[10], name := "r", inputs := [⟨⟨2⟩, 0⟩, ⟨⟨3⟩, 0⟩] },
    { op := some builtinOps[14], name := "s", inputs := [⟨⟨0⟩, 0⟩] },
    { op := some builtinOps[12], name := "t", inputs := [⟨⟨5⟩, 0⟩, ⟨⟨5⟩, 1⟩] },
    { name := "seed" }]

theorem sample_ascending : sample.Ascending := by decide

end Backprop.Heap
