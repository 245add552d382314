import Backprop.Proofs.FailureSound
import Mathlib.Data.List.Pairwise

/-!
# Rule books and their history

A rule book is what is left of a history of registrations. For each
implementation only two things matter: with what it was registered last, and
when it was first registered since it was last taken out, if it is registered
at all (`standing`). The book lists the implementations in the order of these
times, and the lookup takes the earliest of those that apply, by name if the
node asks for one.
-/

namespace Backprop

namespace RuleBook

inductive Call where
  | register (implementation : Implementation) (args : Ledger String Datum)
  | unregister (path : String)

/-- The book after some calls, the latest first; taking out what is not there fails and changes nothing. -/
def ofCalls : List Call → RuleBook
  | [] => []
  | .register implementation args :: before => (ofCalls before).register implementation args
  | .unregister path :: before => ((ofCalls before).unregister path).toOption.getD (ofCalls before)

/-- When an implementation was first registered since it was last taken out, and its latest registration. A time is the
number of calls before. -/
def standing : List Call → String → Option (Nat × Registration)
  | [], _ => none
  | .register implementation args :: before, path =>
    if implementation.path = path then
      some (((standing before path).map Prod.fst).getD before.length, { implementation, args })
    else standing before path
  | .unregister other :: before, path => if other = path then none else standing before path

def since (calls : List Call) (path : String) : Option Nat := (standing calls path).map Prod.fst

section Standing
variable {calls : List Call} {path other : String} {t u : Nat} {r s : Registration} {i : Implementation}
  {args : Ledger String Datum}

theorem standing_register_self (calls : List Call) (i : Implementation) (args : Ledger String Datum) :
    standing (.register i args :: calls) i.path = some ((since calls i.path).getD calls.length, ⟨i, args⟩) := by
  rw [standing, if_pos rfl]
  rfl

theorem standing_register_ne (h : i.path ≠ path) : standing (.register i args :: calls) path = standing calls path := by
  rw [standing, if_neg h]

theorem standing_unregister_self (calls : List Call) (path : String) : standing (.unregister path :: calls) path = none := by
  rw [standing, if_pos rfl]

theorem standing_unregister_ne (h : other ≠ path) : standing (.unregister other :: calls) path = standing calls path := by
  rw [standing, if_neg h]

theorem since_register_self (calls : List Call) (i : Implementation) (args : Ledger String Datum) :
    since (.register i args :: calls) i.path = some ((since calls i.path).getD calls.length) := by
  rw [since, standing_register_self]
  rfl

theorem since_register_ne (h : i.path ≠ path) : since (.register i args :: calls) path = since calls path := by
  rw [since, standing_register_ne h, since]

theorem since_of_standing (h : standing calls path = some (t, r)) : since calls path = some t := by
  rw [since, h]
  rfl

theorem since_lt (h : since calls path = some t) : t < calls.length := by
  induction calls with
  | nil => cases h
  | cons c before ih =>
    rw [List.length_cons]
    cases c with
    | register i args =>
      by_cases hpath : i.path = path
      · subst hpath
        rw [since_register_self, Option.some_inj] at h
        cases hbefore : since before i.path with
        | none =>
          rw [hbefore, Option.getD_none] at h
          omega
        | some t' =>
          rw [hbefore, Option.getD_some] at h
          exact Nat.lt_succ_of_lt (ih (h ▸ hbefore))
      · rw [since_register_ne hpath] at h
        exact Nat.lt_succ_of_lt (ih h)
    | unregister other =>
      by_cases hpath : other = path
      · subst hpath
        rw [since, standing_unregister_self] at h
        cases h
      · rw [since, standing_unregister_ne hpath] at h
        exact Nat.lt_succ_of_lt (ih h)

theorem register_mem_of_standing (h : standing calls path = some (t, r)) :
    .register r.implementation r.args ∈ calls ∧ r.implementation.path = path := by
  induction calls with
  | nil => cases h
  | cons c before ih =>
    cases c with
    | register i args =>
      by_cases hpath : i.path = path
      · subst hpath
        rw [standing_register_self, Option.some_inj, Prod.mk.injEq] at h
        obtain ⟨-, rfl⟩ := h
        exact ⟨List.mem_cons_self, rfl⟩
      · rw [standing_register_ne hpath] at h
        exact (ih h).imp_left (List.mem_cons_of_mem _)
    | unregister other =>
      by_cases hpath : other = path
      · subst hpath
        rw [standing_unregister_self] at h
        cases h
      · rw [standing_unregister_ne hpath] at h
        exact (ih h).imp_left (List.mem_cons_of_mem _)

def Earlier (calls : List Call) (path other : String) : Prop :=
  ∀ t u, since calls path = some t → since calls other = some u → t < u

/-- The book has the latest registrations in the order of their times. -/
structure Lists (calls : List Call) (book : RuleBook) : Prop where
  get : ∀ path, Ledger.get? book path = (standing calls path).map Prod.snd
  sorted : (Ledger.keys book).Pairwise (Earlier calls)

namespace Lists
variable {book : RuleBook} (h : Lists calls book)
include h

theorem mem_keys_iff : path ∈ Ledger.keys book ↔ ∃ t, since calls path = some t := by
  rw [← Ledger.isSome_get?_iff, h.get, since]
  cases standing calls path with
  | none => simp
  | some q => simp

theorem nodup : (Ledger.keys book).Nodup := by
  refine h.sorted.imp_of_mem fun {p q} hp _ hearlier heq => ?_
  obtain ⟨t, ht⟩ := h.mem_keys_iff.mp hp
  exact absurd (hearlier t t ht (heq ▸ ht)) (by omega)

theorem register (i : Implementation) (args : Ledger String Datum) :
    Lists (.register i args :: calls) (book.register i args) where
  get path := by
    unfold RuleBook.register
    by_cases hpath : i.path = path
    · subst hpath
      rw [Ledger.get?_put_self, standing_register_self]
      rfl
    · rw [Ledger.get?_put_ne _ _ (Ne.symm hpath), h.get, standing_register_ne hpath]
  sorted := by
    unfold RuleBook.register
    by_cases hmem : i.path ∈ Ledger.keys book
    · -- the implementation keeps its place and its time
      rw [Ledger.keys_put_of_mem _ hmem]
      have hsince : ∀ path, since (.register i args :: calls) path = since calls path := by
        intro path
        by_cases hpath : i.path = path
        · subst hpath
          obtain ⟨t, ht⟩ := h.mem_keys_iff.mp hmem
          rw [since_register_self, ht]
          rfl
        · exact since_register_ne hpath
      refine h.sorted.imp fun {p q} hearlier => ?_
      unfold Earlier
      rw [hsince, hsince]
      exact hearlier
    · rw [Ledger.keys_put_of_not_mem _ hmem, List.pairwise_append]
      have hne : ∀ p ∈ Ledger.keys book, i.path ≠ p := fun p hp heq => hmem (heq ▸ hp)
      refine ⟨h.sorted.imp_of_mem fun {p q} hp hq hearlier => ?_, List.pairwise_singleton _ _, fun p hp q hq => ?_⟩
      · unfold Earlier
        rw [since_register_ne (hne p hp), since_register_ne (hne q hq)]
        exact hearlier
      · rw [List.mem_singleton] at hq
        subst hq
        have hnone : since calls i.path = none := by
          rw [Option.eq_none_iff_forall_ne_some]
          exact fun t ht => hmem (h.mem_keys_iff.mpr ⟨t, ht⟩)
        intro t u ht hu
        rw [since_register_ne (hne p hp)] at ht
        rw [since_register_self, hnone, Option.getD_none, Option.some_inj] at hu
        exact hu ▸ since_lt ht

theorem erase (path : String) : Lists (.unregister path :: calls) (Ledger.erase book path) where
  get other := by
    by_cases hpath : path = other
    · subst hpath
      have hgone : path ∉ Ledger.keys (Ledger.erase book path) := by
        rw [Ledger.keys_erase]
        exact h.nodup.not_mem_erase
      rw [standing_unregister_self]
      simpa [← Ledger.isSome_get?_iff] using hgone
    · rw [Ledger.get?_erase_ne _ (Ne.symm hpath), h.get, standing_unregister_ne hpath]
  sorted := by
    rw [Ledger.keys_erase]
    refine (h.sorted.sublist List.erase_sublist).imp_of_mem fun {p q} hp hq hearlier => ?_
    have hne : ∀ p ∈ (Ledger.keys book).erase path, path ≠ p :=
      fun p hp heq => h.nodup.not_mem_erase (heq ▸ hp)
    unfold Earlier since
    rw [standing_unregister_ne (hne p hp), standing_unregister_ne (hne q hq)]
    exact hearlier

end Lists

theorem lists_ofCalls (calls : List Call) : Lists calls (ofCalls calls) := by
  induction calls with
  | nil => exact ⟨fun _ => rfl, .nil⟩
  | cons c before ih =>
    cases c with
    | register i args => exact ih.register i args
    | unregister path =>
      have herase : ofCalls (.unregister path :: before) = Ledger.erase (ofCalls before) path := by
        rw [ofCalls, RuleBook.unregister]
        by_cases hhas : Ledger.has (ofCalls before) path = true
        · rw [if_pos hhas]
          rfl
        · rw [if_neg hhas, Ledger.erase_of_get? (by simpa [Ledger.has] using hhas)]
          rfl
      rw [herase]
      exact ih.erase path

theorem since_injective {calls : List Call} {path other : String} {t : Nat} (h : since calls path = some t)
    (h' : since calls other = some t) : path = other := by
  by_contra hne
  have hlists := lists_ofCalls calls
  have hapart : (Ledger.keys (ofCalls calls)).Pairwise fun p q => ∀ t, since calls p = some t → ¬ since calls q = some t :=
    hlists.sorted.imp fun hearlier t ht ht' => absurd (hearlier t t ht ht') (by omega)
  have hsymm : Std.Symm fun p q => ∀ t, since calls p = some t → ¬ since calls q = some t :=
    ⟨fun p q hpq t hq hp => hpq t hp hq⟩
  exact hapart.forall (hlists.mem_keys_iff.mpr ⟨t, h⟩) (hlists.mem_keys_iff.mpr ⟨t, h'⟩) hne t h h'

theorem mem_ofCalls_iff {calls : List Call} {path : String} {r : Registration} :
    (path, r) ∈ ofCalls calls ↔ ∃ t, standing calls path = some (t, r) := by
  have hlists := lists_ofCalls calls
  have hdistinct : Ledger.Distinct (ofCalls calls) := by
    have hnodup := hlists.nodup
    unfold Ledger.keys List.Nodup at hnodup
    rw [List.pairwise_map] at hnodup
    exact hnodup.imp fun hne => beq_false_of_ne hne
  have hget := hlists.get path
  constructor
  · intro hmem
    rw [hdistinct.get?_of_mem hmem] at hget
    obtain ⟨q, hq, rfl⟩ := Option.map_eq_some_iff.mp hget.symm
    exact ⟨q.1, hq⟩
  · intro h
    obtain ⟨t, ht⟩ := h
    rw [ht] at hget
    exact Ledger.mem_of_get? hget

end Standing

/-! ## Looking up -/

section Lookup
variable {book : RuleBook} {op : String} {n : NodeId} {node : Node}

def title (r : Registration) : Datum := (Ledger.get? r.args "name").getD .null

def applying (op : String) (n : NodeId) (node : Node) (r : Registration) : Bool :=
  isFor r op && (r.implementation.applies.holds n node).toOption.getD false

theorem applying_iff {r : Registration} : applying op n node r = true ↔
    isFor r op = true ∧ r.implementation.applies.holds n node = .ok true := by
  unfold applying
  cases r.implementation.applies.holds n node with
  | error e => simp [Except.toOption]
  | ok b => simp [Except.toOption]

def applyingAsked (op : String) (n : NodeId) (node : Node) (r : Registration) : Bool :=
  applying op n node r && ((wanted node).truth && (title r).same (wanted node))

theorem candidates_eq_filter (hnamed : book.Named)
    (htells : ∀ q ∈ book, isFor q.2 op = true → ∃ b, q.2.implementation.applies.holds n node = .ok b) :
    candidates op n node book =
      .ok ((book.filter fun q => applying op n node q.2).map fun q => (title q.2, q.2.implementation)) := by
  induction book with
  | nil => rfl
  | cons p rest ih =>
    have hrest := ih (fun q hq => hnamed q (List.mem_cons_of_mem _ hq)) fun q hq => htells q (List.mem_cons_of_mem _ hq)
    obtain ⟨name, hname⟩ := Option.isSome_iff_exists.mp (hnamed p (by simp))
    rw [candidates, hrest]
    simp only [hname]
    by_cases hfor : isFor p.2 op = true
    · obtain ⟨b, hb⟩ := htells p (by simp) hfor
      cases b with
      | true => simp [hfor, hb, applying, Except.toOption, Except.map, title, hname]
      | false => simp [hfor, hb, applying, Except.toOption]
    · simp [hfor, applying]

theorem candidates_error (hnamed : book.Named) {q : String × Registration} (hq : q ∈ book) (hfor : isFor q.2 op = true)
    {e : Fault} (he : q.2.implementation.applies.holds n node = .error e) :
    ∃ e, candidates op n node book = .error e := by
  induction book with
  | nil => cases hq
  | cons p rest ih =>
    obtain ⟨name, hname⟩ := Option.isSome_iff_exists.mp (hnamed p (by simp))
    rw [candidates]
    simp only [hname]
    rcases List.mem_cons.mp hq with rfl | hq
    · simp [hfor, he]
    · obtain ⟨e', hrest⟩ := ih (fun q hq => hnamed q (List.mem_cons_of_mem _ hq)) hq
      rw [hrest]
      by_cases hp : isFor p.2 op = true
      · cases hholds : p.2.implementation.applies.holds n node with
        | error e => simp [hp]
        | ok b => cases b <;> simp [hp, Except.map]
      · simp [hp]

theorem lookup_eq_find? {op : Op} (hop : node.op = some op) (hnamed : book.Named)
    (htells : ∀ q ∈ book, isFor q.2 op.name = true → ∃ b, q.2.implementation.applies.holds n node = .ok b) :
    book.lookup n node = .ok
      (((book.find? fun q => applyingAsked op.name n node q.2).or
        (book.find? fun q => applying op.name n node q.2)).map fun q => q.2.implementation) := by
  unfold lookup
  simp only [hop, candidates_eq_filter hnamed htells, Except.map, preferred, applyingAsked]
  have hmap : (Prod.snd ∘ fun q : String × Registration => (title q.2, q.2.implementation)) =
      fun q => q.2.implementation := rfl
  by_cases hwanted : (wanted node).truth = true
  · simp [hwanted, List.find?_map, List.find?_filter, List.head?_filter, Option.map_or, hmap]
  · have hnone : book.find? (fun _ => false) = none := by simp
    simp [hwanted, List.head?_filter, hmap, hnone]

end Lookup

/-! ## The choice among the candidates -/

structure Candidate (calls : List Call) (op : String) (n : NodeId) (node : Node) (t : Nat) (r : Registration) : Prop where
  registered : ∃ path, standing calls path = some (t, r)
  suitable : isFor r op = true
  applies : r.implementation.applies.holds n node = .ok true

def Asked (node : Node) (r : Registration) : Prop := (wanted node).truth = true ∧ (title r).same (wanted node) = true

/-- The earliest candidate that the node asks for, or the earliest of all if it asks for none. -/
inductive Chosen (calls : List Call) (op : String) (n : NodeId) (node : Node) : Registration → Prop
  | asked {t : Nat} {r : Registration} (hr : Candidate calls op n node t r) (hasked : Asked node r)
      (hfirst : ∀ u s, Candidate calls op n node u s → Asked node s → t ≤ u) : Chosen calls op n node r
  | first {t : Nat} {r : Registration} (hr : Candidate calls op n node t r)
      (hnone : ∀ u s, Candidate calls op n node u s → ¬ Asked node s)
      (hfirst : ∀ u s, Candidate calls op n node u s → t ≤ u) : Chosen calls op n node r

section Choice
variable {calls : List Call} {op : String} {n : NodeId} {node : Node} {t u : Nat} {r s : Registration}

theorem Candidate.eq (hr : Candidate calls op n node t r) (hs : Candidate calls op n node t s) : r = s := by
  obtain ⟨path, hpath⟩ := hr.registered
  obtain ⟨other, hother⟩ := hs.registered
  obtain rfl : path = other := since_injective (since_of_standing hpath) (since_of_standing hother)
  rw [hpath] at hother
  cases hother
  rfl

theorem Chosen.candidate (h : Chosen calls op n node r) : ∃ t, Candidate calls op n node t r := by
  cases h with
  | asked hr => exact ⟨_, hr⟩
  | first hr => exact ⟨_, hr⟩

theorem Chosen.unique (hr : Chosen calls op n node r) (hs : Chosen calls op n node s) : r = s := by
  cases hr with
  | @asked t _ hr hasked hfirst =>
    cases hs with
    | @asked u _ hs hasked' hfirst' =>
      have htime : t = u := Nat.le_antisymm (hfirst _ _ hs hasked') (hfirst' _ _ hr hasked)
      exact hr.eq (htime ▸ hs)
    | first _ hnone => exact absurd hasked (hnone _ _ hr)
  | @first t _ hr hnone hfirst =>
    cases hs with
    | asked hs hasked => exact absurd hasked (hnone _ _ hs)
    | @first u _ hs _ hfirst' =>
      have htime : t = u := Nat.le_antisymm (hfirst _ _ hs) (hfirst' _ _ hr)
      exact hr.eq (htime ▸ hs)

/-- What is found first in the book is the earliest of its kind. -/
theorem find?_ofCalls {f : Registration → Bool} {q : String × Registration}
    (h : (ofCalls calls).find? (fun q => f q.2) = some q) :
    f q.2 = true ∧ ∃ t, standing calls q.1 = some (t, q.2) ∧
      ∀ path u s, standing calls path = some (u, s) → f s = true → t ≤ u := by
  obtain ⟨hf, before, after, hsplit, hbefore⟩ := List.find?_eq_some_iff_append.mp h
  obtain ⟨t, ht⟩ := mem_ofCalls_iff.mp (List.mem_of_find?_eq_some h)
  refine ⟨hf, t, ht, fun path u s hs hfs => ?_⟩
  have hmem := mem_ofCalls_iff.mpr ⟨u, hs⟩
  have hsorted := (lists_ofCalls calls).sorted
  rw [hsplit, List.mem_append, List.mem_cons] at hmem
  rcases hmem with hmem | rfl | hmem
  · have := hbefore _ hmem
    simp [hfs] at this
  · rw [ht] at hs
    cases hs
    exact Nat.le_refl _
  · rw [hsplit, Ledger.keys, List.map_append, List.map_cons, List.pairwise_append, List.pairwise_cons] at hsorted
    have hearlier := hsorted.2.1.1 path (List.mem_map.mpr ⟨_, hmem, rfl⟩)
    exact Nat.le_of_lt (hearlier t u (since_of_standing ht) (since_of_standing hs))

theorem find?_ofCalls_none {f : Registration → Bool} (h : (ofCalls calls).find? (fun q => f q.2) = none) {path : String}
    (hr : standing calls path = some (t, r)) : ¬ f r = true := by
  simpa using List.find?_eq_none.mp h _ (mem_ofCalls_iff.mpr ⟨t, hr⟩)

theorem candidate_iff : Candidate calls op n node t r ↔
    (∃ path, standing calls path = some (t, r)) ∧ applying op n node r = true := by
  rw [applying_iff]
  exact ⟨fun h => ⟨h.registered, h.suitable, h.applies⟩, fun h => ⟨h.1, h.2.1, h.2.2⟩⟩

theorem applyingAsked_iff : applyingAsked op n node r = true ↔ applying op n node r = true ∧ Asked node r := by
  simp [applyingAsked, Asked]

theorem chosen_of_find? {q : String × Registration}
    (h : ((ofCalls calls).find? fun q => applyingAsked op n node q.2).or
      ((ofCalls calls).find? fun q => applying op n node q.2) = some q) : Chosen calls op n node q.2 := by
  rcases Option.or_eq_some_iff.mp h with h | ⟨hnone, h⟩
  · obtain ⟨hf, t, ht, hfirst⟩ := find?_ofCalls h
    rw [applyingAsked_iff] at hf
    refine .asked (candidate_iff.mpr ⟨⟨_, ht⟩, hf.1⟩) hf.2 fun u s hs hasked => ?_
    obtain ⟨⟨path, hpath⟩, happlying⟩ := candidate_iff.mp hs
    exact hfirst path u s hpath (applyingAsked_iff.mpr ⟨happlying, hasked⟩)
  · obtain ⟨hf, t, ht, hfirst⟩ := find?_ofCalls h
    refine .first (candidate_iff.mpr ⟨⟨_, ht⟩, hf⟩) (fun u s hs hasked => ?_) fun u s hs => ?_
    · obtain ⟨⟨path, hpath⟩, happlying⟩ := candidate_iff.mp hs
      exact find?_ofCalls_none hnone hpath (applyingAsked_iff.mpr ⟨happlying, hasked⟩)
    · obtain ⟨⟨path, hpath⟩, happlying⟩ := candidate_iff.mp hs
      exact hfirst path u s hpath happlying

theorem not_candidate_of_find? (h : ((ofCalls calls).find? fun q => applyingAsked op n node q.2).or
      ((ofCalls calls).find? fun q => applying op n node q.2) = none) : ¬ Candidate calls op n node t r := by
  intro hr
  obtain ⟨⟨path, hpath⟩, happlying⟩ := candidate_iff.mp hr
  exact find?_ofCalls_none (Option.or_eq_none_iff.mp h).2 hpath happlying

end Choice

def AllNamed (calls : List Call) : Prop := ∀ i args, .register i args ∈ calls → (Ledger.get? args "name").isSome

def AllTell (calls : List Call) (op : String) (n : NodeId) (node : Node) : Prop :=
  ∀ path t r, standing calls path = some (t, r) → isFor r op = true → ∃ b, r.implementation.applies.holds n node = .ok b

section Found
variable {calls : List Call} {op : Op} {n : NodeId} {node : Node} {t u : Nat} {r s : Registration}

theorem AllNamed.named (h : AllNamed calls) : (ofCalls calls).Named := by
  intro q hq
  obtain ⟨t, ht⟩ := mem_ofCalls_iff.mp hq
  exact h _ _ (register_mem_of_standing ht).1

theorem lookup_chosen (hnamed : AllNamed calls) (hop : node.op = some op) (htell : AllTell calls op.name n node) :
    ∃ found, (ofCalls calls).lookup n node = .ok found ∧
      (∀ i, found = some i ↔ ∃ r, Chosen calls op.name n node r ∧ r.implementation = i) ∧
      (found = none ↔ ∀ t r, ¬ Candidate calls op.name n node t r) := by
  have htells : ∀ q ∈ ofCalls calls, isFor q.2 op.name = true → ∃ b, q.2.implementation.applies.holds n node = .ok b := by
    intro q hq
    obtain ⟨t, ht⟩ := mem_ofCalls_iff.mp hq
    exact htell _ t q.2 ht
  refine ⟨_, lookup_eq_find? hop hnamed.named htells, ?_⟩
  cases hfound : ((ofCalls calls).find? fun q => applyingAsked op.name n node q.2).or
      ((ofCalls calls).find? fun q => applying op.name n node q.2) with
  | none =>
    have hnone : ∀ t r, ¬ Candidate calls op.name n node t r := fun t r => not_candidate_of_find? hfound
    refine ⟨fun i => ⟨fun h => (by cases h), fun h => ?_⟩, fun _ => hnone, fun _ => rfl⟩
    obtain ⟨r, hr, -⟩ := h
    obtain ⟨t, ht⟩ := hr.candidate
    exact absurd ht (hnone t r)
  | some q =>
    have hq : Chosen calls op.name n node q.2 := chosen_of_find? hfound
    refine ⟨fun i => ⟨fun h => ⟨q.2, hq, by simpa using h⟩, fun h => ?_⟩, fun h => (by cases h), fun h => ?_⟩
    · obtain ⟨r, hr, rfl⟩ := h
      rw [hr.unique hq]
      rfl
    · obtain ⟨t, ht⟩ := hq.candidate
      exact absurd ht (h t q.2)

theorem lookup_error (hnamed : AllNamed calls) (hop : node.op = some op) (h : ¬ AllTell calls op.name n node) :
    ∃ e, (ofCalls calls).lookup n node = .error e := by
  unfold AllTell at h
  push Not at h
  obtain ⟨path, t, r, hr, hfor, hholds⟩ := h
  cases hb : r.implementation.applies.holds n node with
  | ok b => exact absurd hb (hholds b)
  | error e =>
    obtain ⟨e', he⟩ := candidates_error hnamed.named (mem_ofCalls_iff.mpr ⟨t, hr⟩) hfor hb
    refine ⟨e', ?_⟩
    unfold lookup
    simp only [hop, he]
    rfl

end Found

/-! ## One more registration -/

section Registered
variable {calls : List Call} {op : String} {n : NodeId} {node : Node} {t : Nat} {r : Registration} {i : Implementation}
  {args : Ledger String Datum}

theorem Candidate.standing_path (h : Candidate calls op n node t r) : standing calls r.implementation.path = some (t, r) := by
  obtain ⟨path, hpath⟩ := h.registered
  rwa [(register_mem_of_standing hpath).2]

theorem Candidate.register (h : Candidate calls op n node t r) (hne : i.path ≠ r.implementation.path) :
    Candidate (.register i args :: calls) op n node t r :=
  ⟨⟨r.implementation.path, by rw [standing_register_ne hne, h.standing_path]⟩, h.suitable, h.applies⟩

/-- A candidate was one before, or has just been registered. -/
theorem Candidate.of_register (h : Candidate (.register i args :: calls) op n node t r) :
    Candidate calls op n node t r ∧ i.path ≠ r.implementation.path ∨
      r = ⟨i, args⟩ ∧ t = (since calls i.path).getD calls.length := by
  have hpath := h.standing_path
  by_cases hne : i.path = r.implementation.path
  · rw [← hne, standing_register_self, Option.some_inj, Prod.mk.injEq] at hpath
    exact .inr ⟨hpath.2.symm, hpath.1.symm⟩
  · rw [standing_register_ne hne] at hpath
    exact .inl ⟨⟨⟨_, hpath⟩, h.suitable, h.applies⟩, hne⟩

/-- What is registered for another operator is no candidate. -/
theorem Candidate.of_register_other (h : Candidate (.register i args :: calls) op n node t r)
    (hother : isFor ⟨i, args⟩ op = false) : Candidate calls op n node t r ∧ i.path ≠ r.implementation.path := by
  rcases h.of_register with h | ⟨rfl, -⟩
  · exact h
  · rw [h.suitable] at hother
    cases hother

/-- Whatever is registered anew comes after the one that was chosen. -/
theorem Chosen.register_new (h : Chosen calls op n node r) (hnew : standing calls i.path = none)
    (hwanted : (wanted node).truth = false) : Chosen (.register i args :: calls) op n node r := by
  have hnever : ∀ s, ¬ Asked node s := fun s hs => by simp [hs.1] at hwanted
  cases h with
  | asked _ hasked => exact absurd hasked (hnever r)
  | @first t _ hr _ hfirst =>
    have hne : i.path ≠ r.implementation.path := by
      intro heq
      rw [heq, hr.standing_path] at hnew
      cases hnew
    refine .first (hr.register hne) (fun _ s _ => hnever s) fun u s hs => ?_
    rcases hs.of_register with ⟨hs, -⟩ | ⟨-, htime⟩
    · exact hfirst u s hs
    · have ht := since_lt (since_of_standing hr.standing_path)
      rw [htime, since, hnew]
      exact Nat.le_of_lt ht

theorem Chosen.register_other (h : Chosen calls op n node r) (hother : isFor ⟨i, args⟩ op = false)
    (hne : i.path ≠ r.implementation.path) : Chosen (.register i args :: calls) op n node r := by
  have hbefore : ∀ u s, Candidate (.register i args :: calls) op n node u s → Candidate calls op n node u s :=
    fun u s hs => (hs.of_register_other hother).1
  cases h with
  | asked hr hasked hfirst =>
    exact .asked (hr.register hne) hasked fun u s hs => hfirst u s (hbefore u s hs)
  | first hr hnone hfirst =>
    exact .first (hr.register hne) (fun u s hs => hnone u s (hbefore u s hs)) fun u s hs => hfirst u s (hbefore u s hs)

end Registered

section Find
variable {book : RuleBook} {n : NodeId} {a : Ambient} {w : Workspace} {found : Option Implementation}

theorem find_of_lookup_ok (h : book.lookup n (w.heap.node n) = .ok found) (a : Ambient) :
    ∃ trace, book.find n a w = .ok found { w with trace } := by
  obtain ⟨trace, hrun⟩ := book.find_run n a w
  rw [h] at hrun
  exact ⟨trace, hrun⟩

theorem find_of_lookup_error {e : Fault} (h : book.lookup n (w.heap.node n) = .error e) (a : Ambient) :
    book.find n a w = .error e w := by
  obtain ⟨trace, hrun⟩ := book.find_run n a w
  rw [h] at hrun
  exact hrun

end Find

section History
variable {calls : List Call} {n : NodeId} {a : Ambient} {w : Workspace} {op : Op} {found : Option Implementation}
  {i : Implementation} {args : Ledger String Datum}

theorem find_chosen (hnamed : AllNamed calls) (hop : (w.heap.node n).op = some op)
    (htell : AllTell calls op.name n (w.heap.node n)) (a : Ambient) :
    ∃ found trace, (ofCalls calls).find n a w = .ok found { w with trace } ∧
      (∀ i, found = some i ↔ ∃ r, Chosen calls op.name n (w.heap.node n) r ∧ r.implementation = i) ∧
      (found = none ↔ ∀ t r, ¬ Candidate calls op.name n (w.heap.node n) t r) := by
  obtain ⟨found, hlookup, hfound⟩ := lookup_chosen hnamed hop htell
  obtain ⟨trace, hrun⟩ := find_of_lookup_ok hlookup a
  exact ⟨found, trace, hrun, hfound⟩

theorem AllNamed.register (hnamed : AllNamed calls) (hname : (Ledger.get? args "name").isSome) :
    AllNamed (.register i args :: calls) := by
  intro j args' hmem
  rcases List.mem_cons.mp hmem with heq | hmem
  · cases heq
    exact hname
  · exact hnamed j args' hmem

theorem AllTell.register {op : String} {node : Node} (htell : AllTell calls op n node)
    (hnew : isFor ⟨i, args⟩ op = true → ∃ b, i.applies.holds n node = .ok b) :
    AllTell (.register i args :: calls) op n node := by
  intro path t r hr hfor
  by_cases hpath : i.path = path
  · subst hpath
    rw [standing_register_self, Option.some_inj, Prod.mk.injEq] at hr
    obtain ⟨-, rfl⟩ := hr
    exact hnew hfor
  · rw [standing_register_ne hpath] at hr
    exact htell path t r hr hfor

/-- The lookup takes the earliest candidate that the node asks for by name, or else the earliest, and fails only if some
implementation of the operator cannot tell whether it applies. An implementation that is registered anew does not change
what is found for a node that asks for none. One that is registered for another operator does not either, unless it is
the one that was found. -/
theorem lookup_follows_history (hnamed : AllNamed calls) (hop : (w.heap.node n).op = some op) :
    ((∃ found trace, (ofCalls calls).find n a w = .ok found { w with trace }) ↔
      AllTell calls op.name n (w.heap.node n)) ∧
    ∀ found w', (ofCalls calls).find n a w = .ok found w' →
      (∀ i, found = some i ↔ ∃ r, Chosen calls op.name n (w.heap.node n) r ∧ r.implementation = i) ∧
      (found = none ↔ ∀ t r, ¬ Candidate calls op.name n (w.heap.node n) t r) ∧
      ∀ i args, (Ledger.get? args "name").isSome →
        (standing calls i.path = none → (wanted (w.heap.node n)).truth = false → found.isSome →
          (isFor ⟨i, args⟩ op.name = true → ∃ b, i.applies.holds n (w.heap.node n) = .ok b) →
          ∃ trace, (ofCalls (.register i args :: calls)).find n a w = .ok found { w with trace }) ∧
        (isFor ⟨i, args⟩ op.name = false →
          ∃ found' trace, (ofCalls (.register i args :: calls)).find n a w = .ok found' { w with trace } ∧
            (found' = found ↔ ∀ j, found = some j → j.path ≠ i.path)) := by
  by_cases htell : AllTell calls op.name n (w.heap.node n)
  · obtain ⟨found, trace, hrun, hchosen, hnone⟩ := find_chosen hnamed hop htell a
    refine ⟨⟨fun _ => htell, fun _ => ⟨found, trace, hrun⟩⟩, fun found' w' hrun' => ?_⟩
    rw [hrun] at hrun'
    cases hrun'
    refine ⟨hchosen, hnone, fun i args hname => ⟨fun hnew hwanted hsome htells => ?_, fun hother => ?_⟩⟩
    · obtain ⟨j, hj⟩ := Option.isSome_iff_exists.mp hsome
      obtain ⟨r, hr, hrj⟩ := (hchosen j).mp hj
      obtain ⟨found', trace', hrun', hchosen', -⟩ :=
        find_chosen (hnamed.register hname) hop (htell.register htells) a
      have hsame : found' = some j := (hchosen' j).mpr ⟨r, hr.register_new hnew hwanted, hrj⟩
      exact ⟨trace', by rw [hj, ← hsame, hrun']⟩
    · have htell' : AllTell (.register i args :: calls) op.name n (w.heap.node n) :=
        htell.register fun hfor => by rw [hother] at hfor; cases hfor
      obtain ⟨found', trace', hrun', hchosen', hnone'⟩ := find_chosen (hnamed.register hname) hop htell' a
      refine ⟨found', trace', hrun', fun hsame j hj hpath => ?_, fun hne => ?_⟩
      · obtain ⟨r, hr, rfl⟩ := (hchosen' j).mp (hsame.trans hj)
        obtain ⟨t, ht⟩ := hr.candidate
        exact (ht.of_register_other hother).2 hpath.symm
      · cases found with
        | none =>
          rw [hnone']
          exact fun t r hr => hnone.mp rfl t r (hr.of_register_other hother).1
        | some j =>
          obtain ⟨r, hr, rfl⟩ := (hchosen j).mp rfl
          exact (hchosen' _).mpr ⟨r, hr.register_other hother (hne _ rfl).symm, rfl⟩
  · obtain ⟨e, he⟩ := lookup_error hnamed hop htell
    have hrun := find_of_lookup_error he a
    refine ⟨⟨fun h => ?_, fun h => absurd h htell⟩, fun found w' h => ?_⟩
    · obtain ⟨found, trace, h⟩ := h
      rw [hrun] at h
      cases h
    · rw [hrun] at h
      cases h

end History

/-! ## The built-in implementations -/

def enrol (book : RuleBook) : List Call := book.reverse.map fun q => .register q.2.implementation q.2.args

/-- Every book with one place for each implementation has a history. -/
theorem ofCalls_enrol {book : RuleBook} (hnodup : (Ledger.keys book).Nodup)
    (hpath : ∀ q ∈ book, q.2.implementation.path = q.1) : ofCalls (enrol book) = book := by
  induction book using List.reverseRecOn with
  | nil => rfl
  | append_singleton book q ih =>
    have hcalls : enrol (book ++ [q]) = .register q.2.implementation q.2.args :: enrol book := by simp [enrol]
    rw [Ledger.keys, List.map_append, List.nodup_append] at hnodup
    have hnew : Ledger.get? book q.1 = none := by
      rw [Ledger.get?_eq_none_iff]
      exact fun p hp => hnodup.2.2 p.1 (List.mem_map_of_mem hp) q.1 (by simp)
    rw [hcalls, ofCalls, ih hnodup.1 fun p hp => hpath p (by simp [hp]), RuleBook.register, hpath q (by simp),
      Ledger.put_of_get?_none _ hnew]

theorem ofCalls_builtins : ofCalls (enrol builtins) = builtins :=
  ofCalls_enrol (by decide) (by decide)

def custom (name : String) : Implementation := { name, path := s!"custom.{name}", rule := none }

theorem lookup_follows_history_builtins :
    ∃ i trace, i.name = "ExpGradient" ∧
      (ofCalls (.register (custom "A") [("op", .text "exp"), ("name", .text "fast")] :: enrol builtins)).find ⟨1⟩ .initial
        exponential = .ok (some i) { exponential with trace } := by
  have hnamed : AllNamed (enrol builtins) := by
    intro i args hmem
    obtain ⟨q, hq, heq⟩ := List.mem_map.mp hmem
    cases heq
    have hall : ∀ q ∈ builtins, (Ledger.get? q.2.args "name").isSome := by decide
    exact hall q (List.mem_reverse.mp hq)
  have hstanding : standing (enrol builtins) (custom "A").path = none := rfl
  obtain ⟨-, hfind⟩ := lookup_follows_history (a := .initial) (w := exponential) hnamed (n := ⟨1⟩) rfl
  rw [ofCalls_builtins] at hfind
  obtain ⟨-, -, hregister⟩ := hfind _ exponential rfl
  obtain ⟨trace, hrun⟩ := (hregister (custom "A") [("op", .text "exp"), ("name", .text "fast")] rfl).1 hstanding rfl rfl
    fun _ => ⟨true, rfl⟩
  exact ⟨_, trace, rfl, hrun⟩

theorem registered_elsewhere :
    isFor ⟨custom "A", [("op", .text "log"), ("name", .text "default")]⟩ "exp" = false ∧
    (ofCalls [.register (custom "A") [("op", .text "exp"), ("name", .text "default")]]).find ⟨1⟩ .initial exponential =
      .ok (some (custom "A")) exponential ∧
    (ofCalls [.register (custom "A") [("op", .text "log"), ("name", .text "default")],
        .register (custom "A") [("op", .text "exp"), ("name", .text "default")]]).find ⟨1⟩ .initial exponential =
      .ok none exponential :=
  ⟨rfl, rfl, rfl⟩

end RuleBook

end Backprop
