import Backprop.Graph.Isomorphism
import Mathlib.Algebra.BigOperators.Group.Finset.Sigma
import Mathlib.Algebra.BigOperators.Ring.Finset
import Mathlib.Algebra.Order.BigOperators.Group.Finset
import Mathlib.Data.List.Sort

/-!
# The search decides isomorphism

`Matches` says what it means that the vertices of two views correspond. The
search goes through the vertices and picks partners for them; it succeeds if
and only if some correspondence exists. A correspondence keeps colours, because
a colour is computed from sums over the vertices, so nothing is lost by looking
at the colours first.
-/

namespace Backprop.View
open Finset

/-! ## Edges between two vertices -/

def marks (v : View) (x y : Nat) : List (Int × Int) :=
  (v.edges.filter fun e => e.source = x ∧ e.target = y).map fun e => (e.index, e.slot)

def Closed (v : View) : Prop := ∀ e ∈ v.edges, e.source < v.vertices.length ∧ e.target < v.vertices.length

def SameMarks (xs ys : List (Int × Int)) : Prop := xs.length = ys.length ∧ ∀ m, m ∈ xs ↔ m ∈ ys

theorem agree_iff {xs ys : List (Int × Int)} : agree xs ys = true ↔ SameMarks xs ys := by
  simp only [agree, SameMarks, Bool.and_eq_true, beq_iff_eq, List.all_eq_true, List.contains_iff_mem]
  constructor
  · intro hagree
    obtain ⟨⟨hlen, hxy⟩, hyx⟩ := hagree
    exact ⟨hlen, fun m => ⟨hxy m, hyx m⟩⟩
  · intro hsame
    obtain ⟨hlen, hmem⟩ := hsame
    exact ⟨⟨hlen, fun m => (hmem m).mp⟩, fun m => (hmem m).mpr⟩

variable {v w : View} {f : Nat → Nat}

theorem foldl_modify (near : Edge → Nat) (es : List Edge) (table : Adjacency) {x : Nat} (hx : x < table.size) :
    ((es.foldl (fun table e => table.modify (near e) (e :: ·)) table)[x]?).getD [] =
      (es.filter fun e => near e = x).reverse ++ (table[x]?).getD [] := by
  induction es generalizing table with
  | nil => simp
  | cons e es ih =>
    rw [List.foldl_cons, ih _ (by simpa using hx), Array.getElem?_modify]
    by_cases he : near e = x
    · simp [he, hx]
    · simp [he]

theorem adjacency_getD (v : View) (near : Edge → Nat) {x : Nat} (hx : x < v.vertices.length) :
    ((v.adjacency near)[x]?).getD [] = (v.edges.filter fun e => near e = x).reverse := by
  rw [adjacency, foldl_modify _ _ _ (by simpa using hx)]
  simp [hx]

theorem sameMarks_reverse {xs ys : List (Int × Int)} : SameMarks xs.reverse ys.reverse ↔ SameMarks xs ys := by
  simp [SameMarks]

theorem bundle_outgoing (v : View) {x : Nat} (hx : x < v.vertices.length) (y : Nat) :
    bundle v.outgoing x y = (v.marks x y).reverse := by
  have hfilter : ∀ es : List Edge, (es.filterMap fun e => if e.target = y then some (e.index, e.slot) else none) =
      (es.filter fun e => e.target = y).map fun e => (e.index, e.slot) := by
    intro es
    induction es with
    | nil => rfl
    | cons e es ih => by_cases he : e.target = y <;> simp [he, ih]
  rw [bundle, outgoing, adjacency_getD v _ hx, hfilter, marks, ← List.map_reverse, List.filter_reverse,
    List.filter_filter]
  simp [Bool.and_comm]

theorem agree_bundle {x : Nat} (hx : x < v.vertices.length) (hfx : f x < w.vertices.length) (y : Nat) :
    agree (bundle v.outgoing x y) (bundle w.outgoing (f x) (f y)) = true ↔
      SameMarks (v.marks x y) (w.marks (f x) (f y)) := by
  rw [bundle_outgoing v hx, bundle_outgoing w hfx, agree_iff, sameMarks_reverse]

/-! ## Sums over edges -/

theorem sum_map_edges (G : Nat → Nat → Nat) {n : Nat} {es : List Edge} (hes : ∀ e ∈ es, e.source < n ∧ e.target < n) :
    (es.map fun e => G e.source e.target).sum =
      ∑ x ∈ range n, ∑ y ∈ range n, (es.filter fun e => e.source = x ∧ e.target = y).length * G x y := by
  induction es with
  | nil => simp
  | cons e es ih =>
    obtain ⟨hs, ht⟩ := hes e (by simp)
    have hone : ∀ x y, ((e :: es).filter fun e => e.source = x ∧ e.target = y).length =
        (if e.source = x ∧ e.target = y then 1 else 0) + (es.filter fun e => e.source = x ∧ e.target = y).length := by
      intro x y
      by_cases h : e.source = x ∧ e.target = y <;> simp [h, Nat.add_comm]
    simp only [hone, add_mul, sum_add_distrib, List.map_cons, List.sum_cons]
    rw [ih fun e he => hes e (List.mem_cons_of_mem _ he)]
    congr 1
    simp only [ite_and, ite_mul, one_mul, zero_mul]
    simp [hs, ht]

theorem sum_edges (hv : v.Closed) (G : Nat → Nat → Nat) : (v.edges.map fun e => G e.source e.target).sum =
    ∑ x ∈ range v.vertices.length, ∑ y ∈ range v.vertices.length, (v.marks x y).length * G x y := by
  simp only [sum_map_edges G hv, marks, List.length_map]

theorem gather_eq_sum (colours : Colours) (far : Edge → Nat) (es : List Edge) :
    gather colours far es = (es.map fun e => scatter (colourAt colours (far e))).sum := by
  have hfold : ∀ acc, es.foldl (fun acc e => acc + scatter (colourAt colours (far e))) acc =
      acc + (es.map fun e => scatter (colourAt colours (far e))).sum := by
    induction es with
    | nil => simp
    | cons e es ih => intro acc; rw [List.foldl_cons, ih]; simp [Nat.add_assoc]
  rw [gather, hfold, Nat.zero_add]

theorem sum_map_filter (p : Edge → Bool) (g : Edge → Nat) (es : List Edge) :
    ((es.filter p).map g).sum = (es.map fun e => if p e then g e else 0).sum := by
  induction es with
  | nil => rfl
  | cons e es ih => by_cases he : p e <;> simp [he, ih]

theorem gather_outgoing (hv : v.Closed) (colours : Colours) {x : Nat} (hx : x < v.vertices.length) :
    gather colours Edge.target ((v.outgoing[x]?).getD []) =
      ∑ y ∈ range v.vertices.length, (v.marks x y).length * scatter (colourAt colours y) := by
  rw [outgoing, adjacency_getD v _ hx, gather_eq_sum, List.map_reverse, List.sum_reverse, sum_map_filter]
  simp only [decide_eq_true_eq]
  rw [sum_edges hv fun s t => if s = x then scatter (colourAt colours t) else 0]
  simp [hx]

theorem gather_incoming (hv : v.Closed) (colours : Colours) {y : Nat} (hy : y < v.vertices.length) :
    gather colours Edge.source ((v.incoming[y]?).getD []) =
      ∑ x ∈ range v.vertices.length, (v.marks x y).length * scatter (colourAt colours x) := by
  rw [incoming, adjacency_getD v _ hy, gather_eq_sum, List.map_reverse, List.sum_reverse, sum_map_filter]
  simp only [decide_eq_true_eq]
  rw [sum_edges hv fun s t => if t = y then scatter (colourAt colours s) else 0]
  simp [hy]

/-! ## Correspondences -/

/-- The vertices correspond so that labels agree and, between any two vertices, number and set of the marks. -/
structure Matches (v w : View) (f : Nat → Nat) : Prop where
  bijOn : Set.BijOn f {x | x < v.vertices.length} {y | y < w.vertices.length}
  labels : ∀ x < v.vertices.length, (w.vertices[f x]?).map Vertex.label = (v.vertices[x]?).map Vertex.label
  marks : ∀ x < v.vertices.length, ∀ y < v.vertices.length, SameMarks (v.marks x y) (w.marks (f x) (f y))

namespace Matches

theorem lt (hm : v.Matches w f) {x : Nat} (hx : x < v.vertices.length) : f x < w.vertices.length := hm.bijOn.1 hx

theorem sum_eq (hm : v.Matches w f) {F F' : Nat → Nat} (hF : ∀ x < v.vertices.length, F x = F' (f x)) :
    ∑ x ∈ range v.vertices.length, F x = ∑ y ∈ range w.vertices.length, F' y := by
  refine sum_nbij f (fun x hx => ?_) (fun x hx y hy => ?_) (fun y hy => ?_) (fun x hx => hF x (mem_range.mp hx))
  · exact mem_range.mpr (hm.lt (mem_range.mp hx))
  · exact hm.bijOn.2.1 (by simpa using hx) (by simpa using hy)
  · obtain ⟨x, hx, rfl⟩ := hm.bijOn.2.2 (show y ∈ {y | y < w.vertices.length} by simpa using hy)
    exact ⟨x, by simpa using hx, rfl⟩

theorem perm_range (hm : v.Matches w f) :
    ((List.range v.vertices.length).map f).Perm (List.range w.vertices.length) := by
  refine (List.perm_ext_iff_of_nodup ?_ List.nodup_range).mpr fun y => ?_
  · refine List.Nodup.map_on (fun x hx y hy => ?_) List.nodup_range
    exact hm.bijOn.2.1 (List.mem_range.mp hx) (List.mem_range.mp hy)
  · rw [List.mem_map, List.mem_range]
    constructor
    · intro hpartner
      obtain ⟨x, hx, hxy⟩ := hpartner
      exact hxy ▸ hm.lt (List.mem_range.mp hx)
    · intro hy
      obtain ⟨x, hx, hxy⟩ := hm.bijOn.2.2 hy
      exact ⟨x, List.mem_range.mpr hx, hxy⟩

theorem length_eq (hm : v.Matches w f) : v.vertices.length = w.vertices.length := by
  simpa using hm.perm_range.length_eq

theorem edges_length_eq (hm : v.Matches w f) (hv : v.Closed) (hw : w.Closed) : v.edges.length = w.edges.length := by
  have hone : ∀ u : View, u.Closed → u.edges.length =
      ∑ x ∈ range u.vertices.length, ∑ y ∈ range u.vertices.length, (u.marks x y).length := by
    intro u hu
    simpa using sum_edges hu fun _ _ => 1
  rw [hone v hv, hone w hw]
  exact hm.sum_eq fun x hx => hm.sum_eq fun y hy => (hm.marks x hx y hy).1

/-! ### Colours -/

def Tinted (v : View) (f : Nat → Nat) (a b : Colours) : Prop :=
  ∀ x < v.vertices.length, colourAt a x = colourAt b (f x)

theorem mix_eq (hm : v.Matches w f) (hv : v.Closed) (hw : w.Closed) {a b : Colours} (hc : Tinted v f a b) {x : Nat}
    (hx : x < v.vertices.length) : mix v.outgoing v.incoming a x = mix w.outgoing w.incoming b (f x) := by
  have hout : gather a Edge.target ((v.outgoing[x]?).getD []) = gather b Edge.target ((w.outgoing[f x]?).getD []) := by
    rw [gather_outgoing hv a hx, gather_outgoing hw b (hm.lt hx)]
    exact hm.sum_eq fun y hy => by rw [(hm.marks x hx y hy).1, hc y hy]
  have hin : gather a Edge.source ((v.incoming[x]?).getD []) = gather b Edge.source ((w.incoming[f x]?).getD []) := by
    rw [gather_incoming hv a hx, gather_incoming hw b (hm.lt hx)]
    exact hm.sum_eq fun y hy => by rw [(hm.marks y hy x hx).1, hc y hy]
  unfold mix
  rw [hc x hx, hout, hin]

theorem recolour_eq (hm : v.Matches w f) (hv : v.Closed) (hw : w.Closed) (rounds : Nat) {a b : Colours}
    (ha : a.size = v.vertices.length) (hb : b.size = w.vertices.length) (hc : Tinted v f a b) :
    Tinted v f (recolour v.outgoing v.incoming rounds a) (recolour w.outgoing w.incoming rounds b) := by
  induction rounds generalizing a b with
  | zero => exact hc
  | succ rounds ih =>
    refine ih (by simp [ha]) (by simp [hb]) fun x hx => ?_
    have hfx := hm.lt hx
    simp [colourAt, ha, hb, hx, hfx, hm.mix_eq hv hw hc hx]

theorem colours_eq (hm : v.Matches w f) (hv : v.Closed) (hw : w.Closed) : Tinted v f v.colours w.colours := by
  refine hm.recolour_eq hv hw rounds (by simp) (by simp) fun x hx => ?_
  have hfx := hm.lt hx
  have hlabel := hm.labels x hx
  simp only [hx, hfx, List.getElem?_eq_getElem, Option.map_some, Option.some.injEq] at hlabel
  simp [colourAt, hx, hfx, hlabel]

end Matches

theorem size_recolour (out into : Adjacency) (rounds : Nat) (a : Colours) : (recolour out into rounds a).size = a.size := by
  induction rounds generalizing a with
  | zero => rfl
  | succ rounds ih => rw [recolour, ih]; simp

theorem colours_toList (v : View) : v.colours.toList = (List.range v.vertices.length).map (colourAt v.colours) := by
  have hsize : v.colours.size = v.vertices.length := by simp [colours, size_recolour]
  refine List.ext_getElem (by simp [hsize]) fun i hi _ => ?_
  have hi' : i < v.colours.size := by simpa using hi
  simp [colourAt, hi']

theorem mergeSort_eq_of_perm {xs ys : List Nat} (h : xs.Perm ys) : xs.mergeSort Nat.ble = ys.mergeSort Nat.ble := by
  have hsorted : ∀ zs : List Nat, (zs.mergeSort Nat.ble).Pairwise fun a b => Nat.ble a b = true :=
    List.pairwise_mergeSort (fun a b c => by simp; omega) (fun a b => by simp; omega)
  have hperm := (List.mergeSort_perm xs Nat.ble).trans (h.trans (List.mergeSort_perm ys Nat.ble).symm)
  refine hperm.eq_of_pairwise (fun a b _ _ hab hba => ?_) (hsorted xs) (hsorted ys)
  simp at hab hba
  omega

theorem Matches.palette_eq (hm : v.Matches w f) (hv : v.Closed) (hw : w.Closed) : v.side.palette = w.side.palette := by
  apply mergeSort_eq_of_perm
  have hmap : (List.range v.vertices.length).map (colourAt v.colours) =
      ((List.range v.vertices.length).map f).map (colourAt w.colours) := by
    rw [List.map_map]
    exact List.map_congr_left fun x hx => hm.colours_eq hv hw x (List.mem_range.mp hx)
  simp only [side, colours_toList v, colours_toList w, hmap]
  exact hm.perm_range.map _

/-! ## The search -/

section Search
variable {a b : Side} {chosen : List (Nat × Nat)}

def Suits (a b : Side) (p : Nat × Nat) : Prop :=
  colourAt a.colours p.1 = colourAt b.colours p.2 ∧ a.labels[p.1]? = b.labels[p.2]? ∧
    agree (bundle a.out p.1 p.1) (bundle b.out p.2 p.2) = true

def GoWith (a b : Side) (p q : Nat × Nat) : Prop :=
  agree (bundle a.out p.1 q.1) (bundle b.out p.2 q.2) = true ∧
    agree (bundle a.out q.1 p.1) (bundle b.out q.2 p.2) = true

theorem GoWith.symm {p q : Nat × Nat} (h : GoWith a b p q) : GoWith a b q p := ⟨h.2, h.1⟩

instance : Std.Symm (GoWith a b) := ⟨fun _ _ => GoWith.symm⟩

theorem fits_iff {x y : Nat} :
    fits a b chosen x y = true ↔ Suits a b (x, y) ∧ ∀ q ∈ chosen, GoWith a b (x, y) q := by
  simp [fits, Suits, GoWith, and_assoc]

/-- The search succeeds if the vertices can be paired off with the free ones at all, whatever it tries first. -/
theorem complete_iff {xs free : List Nat} :
    complete a b xs free chosen = true ↔ ∃ ys : List Nat, ys.Perm free ∧ xs.length = ys.length ∧
      (∀ p ∈ xs.zip ys, Suits a b p ∧ ∀ q ∈ chosen, GoWith a b p q) ∧ (xs.zip ys).Pairwise (GoWith a b) := by
  induction xs generalizing free chosen with
  | nil =>
    rw [complete, List.isEmpty_iff]
    constructor
    · intro hfree
      exact ⟨[], by simp [hfree]⟩
    · intro hpartners
      obtain ⟨ys, hperm, hlen, _⟩ := hpartners
      rw [List.length_nil, eq_comm, List.length_eq_zero_iff] at hlen
      exact (hlen ▸ hperm).nil_eq.symm
  | cons x rest ih =>
    rw [complete, List.any_eq_true]
    constructor
    · intro hchosen
      obtain ⟨y, hy, hchoice⟩ := hchosen
      rw [Bool.and_eq_true, fits_iff, ih] at hchoice
      obtain ⟨⟨hsuits, hgo⟩, ys, hperm, hlen, hall, hpairs⟩ := hchoice
      refine ⟨y :: ys, (hperm.cons y).trans (List.perm_cons_erase hy).symm, by simp [hlen], ?_, ?_⟩
      · intro p hp
        rcases List.mem_cons.mp hp with rfl | hp
        · exact ⟨hsuits, hgo⟩
        · exact ⟨(hall p hp).1, fun q hq => (hall p hp).2 q (List.mem_cons_of_mem _ hq)⟩
      · exact List.pairwise_cons.mpr ⟨fun p hp => ((hall p hp).2 (x, y) (by simp)).symm, hpairs⟩
    · intro hpartners
      obtain ⟨ys, hperm, hlen, hall, hpairs⟩ := hpartners
      cases ys with
      | nil => simp at hlen
      | cons y ys =>
        have hy : y ∈ free := hperm.mem_iff.mp (by simp)
        obtain ⟨hfirst, hpairs⟩ := List.pairwise_cons.mp hpairs
        refine ⟨y, hy, ?_⟩
        rw [Bool.and_eq_true, fits_iff, ih]
        refine ⟨hall (x, y) (by simp), ys, ?_, by simpa using hlen, ?_, hpairs⟩
        · exact (List.perm_cons y).mp (hperm.trans (List.perm_cons_erase hy))
        · intro p hp
          have hp' := hall p (List.mem_cons_of_mem _ hp)
          refine ⟨hp'.1, fun q hq => ?_⟩
          rcases List.mem_cons.mp hq with rfl | hq
          · exact (hfirst p hp).symm
          · exact hp'.2 q hq

theorem exists_map_eq {xs ys : List Nat} (hnd : xs.Nodup) (hlen : xs.length = ys.length) : ∃ f, xs.map f = ys := by
  induction xs generalizing ys with
  | nil => exact ⟨id, by simpa [eq_comm] using hlen⟩
  | cons x xs ih =>
    cases ys with
    | nil => simp at hlen
    | cons y ys =>
      obtain ⟨hx, hnd⟩ := List.nodup_cons.mp hnd
      obtain ⟨f, rfl⟩ := ih hnd (by simpa using hlen)
      refine ⟨Function.update f x y, ?_⟩
      have hrest : xs.map (Function.update f x y) = xs.map f :=
        List.map_congr_left fun z hz => Function.update_of_ne (show z ≠ x from fun he => hx (he ▸ hz)) _ _
      simp [hrest]

theorem zip_map_self (f : Nat → Nat) (xs : List Nat) : xs.zip (xs.map f) = xs.map fun x => (x, f x) := by
  induction xs with
  | nil => rfl
  | cons x xs ih => simp [ih]

end Search

theorem Matches.suits (hm : v.Matches w f) (hv : v.Closed) (hw : w.Closed) {x : Nat} (hx : x < v.vertices.length) :
    Suits v.side w.side (x, f x) := by
  refine ⟨hm.colours_eq hv hw x hx, ?_, (agree_bundle hx (hm.lt hx) x).mpr (hm.marks x hx x hx)⟩
  simpa [side] using (hm.labels x hx).symm

theorem Matches.goWith (hm : v.Matches w f) {x y : Nat} (hx : x < v.vertices.length) (hy : y < v.vertices.length) :
    GoWith v.side w.side (x, f x) (y, f y) :=
  ⟨(agree_bundle hx (hm.lt hx) y).mpr (hm.marks x hx y hy), (agree_bundle hy (hm.lt hy) x).mpr (hm.marks y hy x hx)⟩

theorem isomorphic_of_matches (hm : v.Matches w f) (hv : v.Closed) (hw : w.Closed) : v.isomorphic w = true := by
  simp only [isomorphic, Bool.and_eq_true, beq_iff_eq]
  refine ⟨⟨⟨hm.length_eq, hm.edges_length_eq hv hw⟩, hm.palette_eq hv hw⟩, ?_⟩
  have hlt : ∀ x ∈ (List.range v.vertices.length).reverse, x < v.vertices.length := by simp
  refine complete_iff.mpr ⟨(List.range v.vertices.length).reverse.map f, ?_, by simp, ?_, ?_⟩
  · rw [List.map_reverse]
    exact (List.reverse_perm _).trans (hm.perm_range.trans (List.reverse_perm _).symm)
  · rw [zip_map_self, List.forall_mem_map]
    exact fun x hx => ⟨hm.suits hv hw (hlt x hx), by simp⟩
  · rw [zip_map_self, List.pairwise_map]
    exact (List.nodup_reverse.mpr List.nodup_range).pairwise_of_forall_ne fun x hx y hy _ =>
      hm.goWith (hlt x hx) (hlt y hy)

theorem matches_of_isomorphic (h : v.isomorphic w = true) : ∃ f, v.Matches w f := by
  simp only [isomorphic, Bool.and_eq_true, beq_iff_eq] at h
  obtain ⟨-, hcomplete⟩ := h
  obtain ⟨ys, hperm, hlen, hsuits, hpairs⟩ := complete_iff.mp hcomplete
  have hnodup : (List.range v.vertices.length).reverse.Nodup := List.nodup_reverse.mpr List.nodup_range
  obtain ⟨f, rfl⟩ := exists_map_eq hnodup hlen
  rw [zip_map_self] at hsuits hpairs
  have hmem : ∀ {x : Nat}, x ∈ (List.range v.vertices.length).reverse ↔ x < v.vertices.length := by simp
  have hlt : ∀ x < v.vertices.length, f x < w.vertices.length := by
    intro x hx
    simpa using hperm.mem_iff.mp (List.mem_map_of_mem (hmem.mpr hx))
  have hinj := List.inj_on_of_nodup_map (hperm.nodup_iff.mpr (List.nodup_reverse.mpr List.nodup_range))
  have hgo : ∀ x < v.vertices.length, ∀ y < v.vertices.length, x ≠ y → GoWith v.side w.side (x, f x) (y, f y) := by
    intro x hx y hy hne
    refine hpairs.forall (List.mem_map_of_mem (hmem.mpr hx)) (List.mem_map_of_mem (hmem.mpr hy)) fun he => hne ?_
    exact congrArg Prod.fst he
  refine ⟨f, ⟨hlt, fun x hx y hy => hinj (hmem.mpr hx) (hmem.mpr hy), fun y hy => ?_⟩, fun x hx => ?_, fun x hx y hy => ?_⟩
  · obtain ⟨x, hx, hxy⟩ := List.mem_map.mp (hperm.mem_iff.mpr (by simpa using hy))
    exact ⟨x, hmem.mp hx, hxy⟩
  · have hlabel := ((List.forall_mem_map.mp hsuits) x (hmem.mpr hx)).1.2.1
    simpa [side] using hlabel.symm
  · rw [← agree_bundle hx (hlt x hx)]
    by_cases he : x = y
    · subst he
      exact ((List.forall_mem_map.mp hsuits) x (hmem.mpr hx)).1.2.2
    · exact (hgo x hx y hy he).1

theorem isomorphic_iff (hv : v.Closed) (hw : w.Closed) : v.isomorphic w = true ↔ ∃ f, v.Matches w f := by
  constructor
  · exact matches_of_isomorphic
  · intro hmatch
    obtain ⟨f, hm⟩ := hmatch
    exact isomorphic_of_matches hm hv hw

end Backprop.View
