/-!
# Insertion-ordered maps

A ledger is a list of key and value pairs, read from the left. Setting a key
that is present keeps its place, a new key goes to the end, and erasing closes
the gap, so the order of the keys is the order in which they came in. Keys that
are equal for the lookup need not be the same; the one that came in first stays.
-/

namespace Backprop

abbrev Ledger (κ β : Type) := List (κ × β)

namespace Ledger

variable {κ β : Type} [BEq κ]

def get? : Ledger κ β → κ → Option β
  | [], _ => none
  | (k, v) :: rest, key => if k == key then some v else get? rest key

def has (l : Ledger κ β) (key : κ) : Bool := (get? l key).isSome

def put : Ledger κ β → κ → β → Ledger κ β
  | [], key, value => [(key, value)]
  | (k, v) :: rest, key, value => if k == key then (k, value) :: rest else (k, v) :: put rest key value

def erase : Ledger κ β → κ → Ledger κ β
  | [], _ => []
  | (k, v) :: rest, key => if k == key then rest else (k, v) :: erase rest key

def keys (l : Ledger κ β) : List κ := l.map Prod.fst

/-- Every pair of the second ledger is put into the first, in order. -/
def merge (l new : Ledger κ β) : Ledger κ β := new.foldl (fun acc p => put acc p.1 p.2) l

@[simp] theorem get?_nil (key : κ) : get? ([] : Ledger κ β) key = none := rfl

theorem get?_cons (k key : κ) (v : β) (rest : Ledger κ β) :
    get? ((k, v) :: rest) key = if k == key then some v else get? rest key := rfl

@[simp] theorem get?_put_self [ReflBEq κ] (l : Ledger κ β) (key : κ) (value : β) :
    get? (put l key value) key = some value := by
  induction l with
  | nil => simp [put, get?]
  | cons p rest ih =>
    obtain ⟨k, v⟩ := p
    by_cases h : k == key <;> simp [put, get?, h, ih]

theorem get?_put_of_beq_false [PartialEquivBEq κ] (l : Ledger κ β) {key other : κ} (value : β)
    (h : (key == other) = false) : get? (put l key value) other = get? l other := by
  induction l with
  | nil => simp [put, get?, h]
  | cons p rest ih =>
    obtain ⟨k, v⟩ := p
    by_cases hk : k == key
    · have ho : (k == other) = false := by
        cases ho : k == other with
        | false => rfl
        | true => rw [PartialEquivBEq.trans (PartialEquivBEq.symm hk) ho] at h; exact absurd h (by decide)
      simp [put, get?, hk, ho]
    · simp [put, get?, hk, ih]

theorem get?_eq_none_iff_beq {l : Ledger κ β} {key : κ} : get? l key = none ↔ ∀ q ∈ l, (q.1 == key) = false := by
  induction l with
  | nil => simp
  | cons p rest ih =>
    rw [get?_cons]
    by_cases hk : p.1 == key <;> simp [hk, ih]

theorem exists_mem_of_get? {l : Ledger κ β} {key : κ} {value : β} (h : get? l key = some value) :
    ∃ k, (k, value) ∈ l ∧ (k == key) = true := by
  induction l with
  | nil => simp at h
  | cons p rest ih =>
    rw [get?_cons] at h
    by_cases hk : p.1 == key
    · rw [if_pos hk, Option.some_inj] at h
      exact ⟨p.1, h ▸ List.mem_cons_self, hk⟩
    · rw [if_neg hk] at h
      obtain ⟨k, hmem, hk⟩ := ih h
      exact ⟨k, List.mem_cons_of_mem _ hmem, hk⟩

theorem put_of_get? {l : Ledger κ β} {key : κ} {value : β} (h : get? l key = some value) : put l key value = l := by
  induction l with
  | nil => simp at h
  | cons p rest ih =>
    obtain ⟨k, v⟩ := p
    rw [get?_cons] at h
    by_cases hk : k == key
    · rw [if_pos hk, Option.some_inj] at h
      simp [put, hk, h]
    · rw [if_neg hk] at h
      simp [put, hk, ih h]

theorem put_of_get?_none {l : Ledger κ β} {key : κ} (value : β) (h : get? l key = none) :
    put l key value = l ++ [(key, value)] := by
  induction l with
  | nil => rfl
  | cons p rest ih =>
    rw [get?_cons] at h
    rw [put]
    by_cases hp : (p.1 == key) = true
    · rw [if_pos hp] at h
      cases h
    · rw [if_neg hp] at h ⊢
      rw [ih h, List.cons_append]

theorem put_put [ReflBEq κ] (l : Ledger κ β) (key : κ) (old value : β) :
    put (put l key old) key value = put l key value := by
  induction l with
  | nil => simp [put]
  | cons p rest ih => by_cases hk : p.1 == key <;> simp [put, hk, ih]

theorem mem_put {l : Ledger κ β} {key : κ} {value : β} [ReflBEq κ] {q : κ × β} (h : q ∈ put l key value) :
    q ∈ l ∨ (q.1 == key) = true ∧ q.2 = value := by
  induction l with
  | nil =>
    rw [put, List.mem_singleton] at h
    simp [h]
  | cons p rest ih =>
    rw [put] at h
    by_cases hp : (p.1 == key) = true
    · rw [if_pos hp] at h
      rcases List.mem_cons.mp h with rfl | h
      · exact .inr ⟨hp, rfl⟩
      · exact .inl (List.mem_cons_of_mem _ h)
    · rw [if_neg hp] at h
      rcases List.mem_cons.mp h with rfl | h
      · exact .inl List.mem_cons_self
      · exact (ih h).imp_left (List.mem_cons_of_mem _)

theorem keys_erase (l : Ledger κ β) (key : κ) : keys (erase l key) = (keys l).erase key := by
  induction l with
  | nil => rfl
  | cons p rest ih =>
    unfold keys at ih ⊢
    rw [erase, List.map_cons, List.erase_cons]
    by_cases hp : (p.1 == key) = true
    · rw [if_pos hp, if_pos hp]
    · rw [if_neg hp, if_neg hp, List.map_cons, ih]

theorem erase_of_get? {l : Ledger κ β} {key : κ} (h : get? l key = none) : erase l key = l := by
  induction l with
  | nil => rfl
  | cons p rest ih =>
    rw [get?_cons] at h
    rw [erase]
    by_cases hp : (p.1 == key) = true
    · rw [if_pos hp] at h
      cases h
    · rw [if_neg hp] at h ⊢
      rw [ih h]

/-- No two keys are equal for the lookup. -/
def Distinct (l : Ledger κ β) : Prop := l.Pairwise fun p q => (p.1 == q.1) = false

section Equivalence

variable [EquivBEq κ]

theorem get?_congr (l : Ledger κ β) {k key : κ} (hk : (k == key) = true) : get? l k = get? l key := by
  induction l with
  | nil => rfl
  | cons p rest ih => rw [get?_cons, get?_cons, BEq.congr_right hk, ih]

theorem Distinct.get?_of_mem {l : Ledger κ β} {k : κ} {value : β} (hd : Distinct l) (h : (k, value) ∈ l) :
    get? l k = some value := by
  induction l with
  | nil => simp at h
  | cons p rest ih =>
    obtain ⟨hp, hrest⟩ := List.pairwise_cons.mp hd
    rw [get?_cons]
    rcases List.mem_cons.mp h with rfl | h
    · simp
    · simp [hp _ h, ih hrest h]

end Equivalence

section Lawful

variable [LawfulBEq κ]

theorem get?_put_ne (l : Ledger κ β) {key other : κ} (value : β) (h : other ≠ key) :
    get? (put l key value) other = get? l other :=
  get?_put_of_beq_false l value (beq_false_of_ne h.symm)

theorem keys_put_of_mem {l : Ledger κ β} {key : κ} (value : β) (h : key ∈ keys l) :
    keys (put l key value) = keys l := by
  induction l with
  | nil => simp [keys] at h
  | cons p rest ih =>
    obtain ⟨k, v⟩ := p
    by_cases hk : k = key
    · simp [put, keys, hk]
    · have : key ∈ keys rest := by
        simp only [keys, List.map_cons, List.mem_cons] at h
        exact h.resolve_left fun he => hk he.symm
      have ih := ih this
      simp only [keys] at ih
      simp [put, keys, hk, ih]

theorem keys_put_of_not_mem {l : Ledger κ β} {key : κ} (value : β) (h : key ∉ keys l) :
    keys (put l key value) = keys l ++ [key] := by
  induction l with
  | nil => simp [put, keys]
  | cons p rest ih =>
    obtain ⟨k, v⟩ := p
    simp only [keys, List.map_cons, List.mem_cons, not_or] at h
    have ih := ih h.2
    simp only [keys] at ih
    simp [put, keys, Ne.symm h.1, ih]

theorem mem_of_get? {l : Ledger κ β} {key : κ} {value : β} (h : get? l key = some value) : (key, value) ∈ l := by
  obtain ⟨k, hmem, hk⟩ := exists_mem_of_get? h
  rwa [eq_of_beq hk] at hmem

theorem get?_erase_ne (l : Ledger κ β) {key other : κ} (h : other ≠ key) : get? (erase l key) other = get? l other := by
  induction l with
  | nil => rfl
  | cons p rest ih =>
    rw [erase, get?_cons]
    by_cases hp : (p.1 == key) = true
    · have hother : ¬ (p.1 == other) = true := by
        rw [eq_of_beq hp, beq_iff_eq]
        exact h.symm
      rw [if_pos hp, if_neg hother]
    · rw [if_neg hp, get?_cons, ih]

theorem isSome_get?_iff {l : Ledger κ β} {key : κ} : (get? l key).isSome ↔ key ∈ keys l := by
  rw [Option.isSome_iff_ne_none, ne_eq, get?_eq_none_iff_beq, keys, List.mem_map]
  simp

end Lawful

end Ledger

end Backprop
