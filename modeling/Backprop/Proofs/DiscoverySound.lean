import Backprop.Pass.Basic
import Backprop.Report
import Mathlib.Algebra.Order.BigOperators.Group.List
import Mathlib.Algebra.Order.Ring.Nat
import Mathlib.Data.Finset.Card
import Mathlib.Data.List.Nodup
import Mathlib.Data.Nat.Factorial.Basic
import Mathlib.Logic.Relation

/-!
# Finding passes

The search for the passes built on a class remembers nothing of where it has
been, so a class is gone through again for every way that leads to it. It ends
nevertheless if no class is built on itself: there are fewer classes below a
class than below its bases, and a class is given a weight that exceeds the
weights of all classes built on it together, so every turn makes what is
pending lighter. In the end all has been found that is concrete among the
pending classes and those below them.
-/

namespace Backprop.Hierarchy
variable {t : Hierarchy} {i j base : Nat}

def Carries (t : Hierarchy) (base i : Nat) : Prop := base ∈ t.basesOf i

def Below (t : Hierarchy) : Nat → Nat → Prop := Relation.TransGen t.Carries

theorem Carries.lt_length (h : t.Carries base i) : i < t.length := by
  refine Nat.lt_of_not_le fun hlen => ?_
  unfold Carries basesOf at h
  rw [List.getElem?_eq_none hlen] at h
  simp at h

theorem mem_subclasses : i ∈ t.subclasses base ↔ t.Carries base i := by
  unfold subclasses
  rw [List.mem_filter, List.mem_range, List.contains_iff_mem]
  exact ⟨fun h => h.2, fun h => ⟨h.lt_length, h⟩⟩

theorem Below.lt_length (h : t.Below base i) : i < t.length := by
  obtain ⟨b, -, hb⟩ := Relation.TransGen.tail'_iff.mp h
  exact hb.lt_length

/-- What is below a class is carried by it, or below a class that it carries. -/
theorem below_iff : t.Below base i ↔ ∃ c ∈ t.subclasses base, c = i ∨ t.Below c i := by
  unfold Below
  rw [Relation.TransGen.head'_iff]
  simp only [mem_subclasses, Relation.reflTransGen_iff_eq_or_transGen, eq_comm (a := i)]

/-! ## Where no class is built on itself -/

noncomputable def spread (t : Hierarchy) (base : Nat) : Nat :=
  open Classical in ((Finset.range t.length).filter (t.Below base)).card

theorem spread_lt (h : t.Carries base i) (hi : ¬ t.Below i i) : t.spread i < t.spread base := by
  classical
  refine Finset.card_lt_card (Finset.ssubset_iff_of_subset ?_ |>.mpr ⟨i, ?_, ?_⟩)
  · intro c hc
    rw [Finset.mem_filter] at hc ⊢
    exact ⟨hc.1, .head h hc.2⟩
  · exact Finset.mem_filter.mpr ⟨Finset.mem_range.mpr h.lt_length, .single h⟩
  · simp [hi]

/-- No class is built on itself where classes come after their bases. -/
theorem Below.lt (h : ∀ i < t.length, ∀ b ∈ t.basesOf i, b < i) (hb : t.Below base i) : base < i := by
  induction hb with
  | single hc => exact h _ hc.lt_length _ hc
  | tail _ hc ih => exact ih.trans (h _ hc.lt_length _ hc)

theorem nodup_subclasses (t : Hierarchy) (i : Nat) : (t.subclasses i).Nodup := List.nodup_range.filter _

theorem length_subclasses_le (t : Hierarchy) (i : Nat) : (t.subclasses i).length ≤ t.spread i := by
  classical
  rw [← List.toFinset_card_of_nodup (t.nodup_subclasses i)]
  refine Finset.card_le_card fun c hc => ?_
  have hcarries := mem_subclasses.mp (List.mem_toFinset.mp hc)
  exact Finset.mem_filter.mpr ⟨Finset.mem_range.mpr hcarries.lt_length, .single hcarries⟩

/-! ## The search ends -/

noncomputable def weight (t : Hierarchy) (i : Nat) : Nat := (t.spread i + 1).factorial

/-- A class outweighs all classes built on it: there are no more of them than classes below it. -/
theorem sum_weight_subclasses_lt (hacyclic : ∀ i, ¬ t.Below i i) (i : Nat) :
    ((t.subclasses i).map t.weight).sum < t.weight i := by
  have hle : ∀ w ∈ (t.subclasses i).map t.weight, w ≤ (t.spread i).factorial := by
    intro w hw
    obtain ⟨c, hc, rfl⟩ := List.mem_map.mp hw
    exact Nat.factorial_le (spread_lt (mem_subclasses.mp hc) (hacyclic c))
  calc ((t.subclasses i).map t.weight).sum
      ≤ (t.subclasses i).length * (t.spread i).factorial := by
        simpa using List.sum_le_card_nsmul _ _ hle
    _ ≤ t.spread i * (t.spread i).factorial := Nat.mul_le_mul_right _ (t.length_subclasses_le i)
    _ < (t.spread i + 1) * (t.spread i).factorial :=
        Nat.mul_lt_mul_of_pos_right (Nat.lt_succ_self _) (Nat.factorial_pos _)
    _ = t.weight i := (Nat.factorial_succ _).symm

theorem advances_wf (hacyclic : ∀ i, ¬ t.Below i i) : WellFounded t.Advances := by
  refine Subrelation.wf ?_ (measure fun search : List Nat × List Nat => (search.1.map t.weight).sum).wf
  rintro after ⟨pending, found⟩ ⟨i, rest, hpending, rfl⟩
  have hlt := sum_weight_subclasses_lt hacyclic i
  obtain rfl : pending = i :: rest := hpending
  show ((((t.subclasses i).reverse ++ rest).map t.weight).sum : Nat) < ((i :: rest).map t.weight).sum
  rw [List.map_append, List.sum_append, List.map_reverse, List.sum_reverse, List.map_cons, List.sum_cons]
  omega

/-! ## What it finds -/

theorem explore_nil (hwf : WellFounded t.Advances) (found : List Nat) : t.explore ([], found) = found := by
  rw [explore, WellFounded.extrinsicFix_eq_apply hwf]

theorem explore_cons (hwf : WellFounded t.Advances) (i : Nat) (rest found : List Nat) :
    t.explore (i :: rest, found) = t.explore ((t.subclasses i).reverse ++ rest, t.collect found i) := by
  rw [explore, WellFounded.extrinsicFix_eq_apply hwf]

theorem mem_collect {found : List Nat} : j ∈ t.collect found i ↔ j ∈ found ∨ j = i ∧ t.isConcrete j = true := by
  unfold collect
  by_cases hnew : (t.isConcrete i && !found.contains i) = true
  · rw [if_pos hnew, List.mem_append, List.mem_singleton]
    rw [Bool.and_eq_true] at hnew
    exact or_congr_right ⟨fun h => ⟨h, h ▸ hnew.1⟩, fun h => h.1⟩
  · rw [if_neg hnew]
    refine ⟨.inl, fun h => ?_⟩
    rcases h with h | ⟨rfl, hc⟩
    · exact h
    · simpa [hc] using hnew

/-- To take a class is to collect it and to leave what is below it to the classes built on it. -/
theorem mem_explore (hwf : WellFounded t.Advances) (search : List Nat × List Nat) :
    j ∈ t.explore search ↔
      j ∈ search.2 ∨ (∃ c ∈ search.1, c = j ∨ t.Below c j) ∧ t.isConcrete j = true := by
  induction search using hwf.induction with
  | _ search ih =>
    obtain ⟨pending, found⟩ := search
    cases pending with
    | nil =>
      rw [explore_nil hwf]
      simp
    | cons i rest =>
      rw [explore_cons hwf, ih _ ⟨i, rest, rfl, rfl⟩, mem_collect]
      simp only [List.mem_append, List.mem_reverse, List.mem_cons, or_and_right, exists_or, exists_eq_left]
      rw [← below_iff, eq_comm (a := j)]
      simp only [or_assoc]

theorem mem_concrete (hacyclic : ∀ i, ¬ t.Below i i) :
    i ∈ t.concrete base ↔ t.Below base i ∧ t.isConcrete i = true := by
  have hfound := mem_explore (j := i) (advances_wf hacyclic) ((t.subclasses base).reverse, [])
  simp only [List.not_mem_nil, false_or, List.mem_reverse, ← below_iff] at hfound
  unfold concrete
  rw [List.mem_filter, List.contains_iff_mem, hfound, List.mem_range]
  exact ⟨fun hi => hi.2, fun hi => ⟨hi.1.lt_length, hi⟩⟩

theorem nodup_concrete (t : Hierarchy) (base : Nat) : (t.concrete base).Nodup := List.nodup_range.filter _

/-! ## Passes by name -/

theorem findPass_cases (t : Hierarchy) (name : String) :
    (∃ i ∈ t.concrete pass, t.nameOf i = name ∧ t.findPass name = .ok i) ∨
      (∀ i ∈ t.concrete pass, t.nameOf i ≠ name) ∧ t.findPass name = .error (.registry (.unknownPass name)) := by
  unfold findPass
  cases hfind : (t.concrete pass).find? fun i => t.nameOf i == name with
  | some i => exact .inl ⟨i, List.mem_of_find?_eq_some hfind, by simpa using List.find?_some hfind, rfl⟩
  | none => exact .inr ⟨by simpa using hfind, rfl⟩

/-- If no class is built on itself, then the search below each class ends, having found exactly the concrete classes
below it, and a name is looked up in vain exactly if no concrete class below the class of passes has it. -/
theorem passes_discovered (hacyclic : ∀ i, ¬ t.Below i i) :
    (∀ base, Acc t.Advances ((t.subclasses base).reverse, []) ∧ (t.concrete base).Nodup ∧
      (∀ i, i ∈ t.concrete base ↔ t.Below base i ∧ t.isConcrete i = true) ∧
      (t.isPass base = true → t.passesBelow base = .ok (t.concrete base))) ∧
    ∀ name, ((∃ e, t.findPass name = .error e ∧ e.kind = "KeyError") ↔
        ∀ i, t.Below pass i → t.isConcrete i = true → t.nameOf i ≠ name) ∧
      ((∃ i, t.Below pass i ∧ t.isConcrete i = true ∧ t.nameOf i = name) →
        ∃ i, t.findPass name = .ok i ∧ t.Below pass i ∧ t.isConcrete i = true ∧ t.nameOf i = name) := by
  refine ⟨fun base => ?_, fun name => ?_⟩
  · exact ⟨(advances_wf hacyclic).apply _, t.nodup_concrete base, fun i => mem_concrete hacyclic,
      fun hpass => if_pos hpass⟩
  · rcases t.findPass_cases name with ⟨i, hi, hname, hrun⟩ | ⟨hnone, hrun⟩
    · obtain ⟨hi, hc⟩ := (mem_concrete hacyclic).mp hi
      refine ⟨⟨fun h => ?_, fun h => absurd hname (h i hi hc)⟩, fun _ => ⟨i, hrun, hi, hc, hname⟩⟩
      obtain ⟨e, he, -⟩ := h
      rw [hrun] at he
      cases he
    · have hnone : ∀ i, t.Below pass i → t.isConcrete i = true → t.nameOf i ≠ name :=
        fun i hi hc => hnone i ((mem_concrete hacyclic).mpr ⟨hi, hc⟩)
      refine ⟨⟨fun _ => hnone, fun _ => ⟨_, hrun, rfl⟩⟩, fun h => ?_⟩
      obtain ⟨i, hi, hc, hname⟩ := h
      exact absurd hname (hnone i hi hc)

/-- An abstract pass, two that are built on it, and one that is built on both. -/
def diamond : Hierarchy :=
  builtin ++
    [{ name := "Analysis", bases := [pass], line := [3, pass, root], traits := { isAbstract := true } },
     { name := "Liveness", bases := [3], line := [4, 3, pass, root] },
     { name := "Aliasing", bases := [3], line := [5, 3, pass, root] },
     { name := "Escape", bases := [4, 5], line := [6, 4, 5, 3, pass, root] }]

theorem passes_discovered_diamond :
    (∀ i, ¬ diamond.Below i i) ∧ Acc diamond.Advances ((diamond.subclasses pass).reverse, []) ∧
    3 ∉ diamond.concrete pass ∧ 6 ∈ diamond.concrete 3 ∧ diamond.passesBelow 3 = .ok (diamond.concrete 3) ∧
    (∃ i, diamond.findPass "Escape" = .ok i ∧ diamond.nameOf i = "Escape") ∧
    ∃ e, diamond.findPass "Analysis" = .error e ∧ e.kind = "KeyError" := by
  have hordered : ∀ i < diamond.length, ∀ b ∈ diamond.basesOf i, b < i := by decide
  have hacyclic : ∀ i, ¬ diamond.Below i i := fun i hi => Nat.lt_irrefl i (hi.lt hordered)
  have h₃ : diamond.Below pass 3 := .single (by simp [Carries, diamond, basesOf, builtin, pass])
  have h₆ : diamond.Below 3 6 :=
    .tail (b := 4) (.single (by simp [Carries, diamond, basesOf, builtin])) (by simp [Carries, diamond, basesOf, builtin])
  obtain ⟨hsearch, hnames⟩ := passes_discovered hacyclic
  obtain ⟨hends, -, hpasses, -⟩ := hsearch pass
  obtain ⟨-, -, hbelow, hgiven⟩ := hsearch 3
  refine ⟨hacyclic, hends, fun h => ?_, (hbelow 6).mpr ⟨h₆, by decide⟩, hgiven (by decide), ?_, ?_⟩
  · exact absurd ((hpasses 3).mp h).2 (by decide)
  · obtain ⟨i, hi, -, -, hname⟩ := (hnames "Escape").2 ⟨6, h₃.trans h₆, by decide, by decide⟩
    exact ⟨i, hi, hname⟩
  · have hnone : ∀ i < diamond.length, diamond.isConcrete i = true → diamond.nameOf i ≠ "Analysis" := by decide
    exact (hnames "Analysis").1.mpr fun i hi => hnone i hi.lt_length

end Backprop.Hierarchy
