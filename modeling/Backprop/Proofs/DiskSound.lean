import Backprop.Settings.Disk
import Mathlib.Data.String.Basic

/-!
# Writing to a file and reading it

A path leads to the same place after a text has been written there, since what
lies on the way to a place is not at the place itself. So whatever can be
written once can be written again, and reading gives what was written last.
-/

namespace Backprop.Disk

/-! ## Places by name -/

theorem eq_nil_of_intercalate {parts : List String} (hparts : ∀ part ∈ parts, part ≠ "")
    (h : "/".intercalate parts = "") : parts = [] := by
  cases parts with
  | nil => rfl
  | cons part rest =>
    have hpart := hparts part (by simp)
    cases rest with
    | nil => exact absurd h hpart
    | cons next rest => simp [String.intercalate_cons_cons, hpart] at h

theorem eq_nil_of_joined {place : List String} (hparts : ∀ part ∈ place, part ≠ "") (h : joined place = "") :
    place = [] := by
  unfold joined at h
  split at h
  · simp at h
  · exact eq_nil_of_intercalate hparts h

theorem eq_root_of_joined {place : List String} (hparts : ∀ part ∈ place, part ≠ "") (h : joined place = "/") :
    place = ["/"] := by
  unfold joined at h
  split at h
  · next rest =>
    have hrest : "/".intercalate rest = "" := by
      apply String.toList_injective
      simpa using congrArg String.toList h
    rw [eq_nil_of_intercalate (fun part hp => hparts part (List.mem_cons_of_mem _ hp)) hrest]
  · next hroot =>
    cases place with
    | nil => simp at h
    | cons part rest =>
      cases rest with
      | nil => exact absurd h (by simpa using hroot [])
      | cons next rest =>
        rw [String.intercalate_cons_cons] at h
        have hlength := congrArg String.length h
        have hpart : part.length ≠ 0 := fun hzero => hparts part (by simp) (String.length_eq_zero_iff.mp hzero)
        simp only [String.length_append] at hlength
        have hslash : "/".length = 1 := rfl
        omega

/-! ## The way to a place -/

section Way
variable {disk : Disk} {path : String} {place dest : List String} {content : String}

theorem follow_parts {parts : List String} (h : disk.follow place parts = .ok dest)
    (hplace : ∀ part ∈ place, part ≠ "") : ∀ part ∈ dest, part ≠ "" := by
  induction parts generalizing place with
  | nil => cases h; exact hplace
  | cons part rest ih =>
    rw [follow] at h
    split at h
    · cases h
    · have hstep : ¬ isHere part = true → ∀ q ∈ place ++ [part], q ≠ "" := by
        intro hpart q hq
        rcases List.mem_append.mp hq with hq | hq
        · exact hplace q hq
        · rw [List.mem_singleton.mp hq]
          exact fun he => hpart (by simp [isHere, he])
      split at h
      · exact ih h hplace
      · next hpart =>
        split at h
        · exact ih h fun q hq => hplace q (List.dropLast_subset _ hq)
        · split at h
          · cases h
            exact hstep hpart
          · exact ih h (hstep hpart)
    · cases h

theorem locate_parts (h : disk.locate path = .ok place) : ∀ part ∈ place, part ≠ "" := by
  unfold locate at h
  split at h
  · cases h
  · split at h
    · exact follow_parts h (by simp)
    · exact follow_parts h (by simp)

theorem at?_eq_directory : disk.at? place = some .directory ↔
    Ledger.get? disk (joined place) = some .directory ∨
      Ledger.get? disk (joined place) = none ∧
        (place = [] ∨ place = ["/"] ∨ (Ledger.keys disk).any (isBelow (joined place)) = true) := by
  unfold at?
  cases hget : Ledger.get? disk (joined place) with
  | some node => simp
  | none => by_cases hnil : place = [] <;> by_cases hroot : place = ["/"] <;> simp [hnil, hroot]

theorem any_keys_put {disk : Disk} {f : String → Bool} (h : (Ledger.keys disk).any f = true) (key : String)
    (node : FileNode) : (Ledger.keys (Ledger.put disk key node)).any f = true := by
  by_cases hkey : key ∈ Ledger.keys disk
  · rw [Ledger.keys_put_of_mem node hkey]
    exact h
  · rw [Ledger.keys_put_of_not_mem node hkey, List.any_append, h, Bool.true_or]

/-- Directories stay directories when a text is written to a place that is none. -/
theorem at?_put (hdest : ∀ part ∈ dest, part ≠ "") (hfree : disk.at? dest ≠ some .directory)
    (h : disk.at? place = some .directory) :
    at? (Ledger.put disk (joined dest) (.text content)) place = some .directory := by
  by_cases hj : joined place = joined dest
  · -- a directory of the same name would have to be a root, and then so would the place
    refine absurd (at?_eq_directory.mpr ?_) hfree
    rw [at?_eq_directory, hj] at h
    rcases h with h | ⟨hnone, rfl | rfl | hbelow⟩
    · exact .inl h
    · exact .inr ⟨hnone, .inl (eq_nil_of_joined hdest hj.symm)⟩
    · exact .inr ⟨hnone, .inr (.inl (eq_root_of_joined hdest hj.symm))⟩
    · exact .inr ⟨hnone, .inr (.inr hbelow)⟩
  · rw [at?_eq_directory, Ledger.get?_put_ne _ _ hj]
    rw [at?_eq_directory] at h
    rcases h with h | ⟨hnone, h | h | hbelow⟩
    · exact .inl h
    · exact .inr ⟨hnone, .inl h⟩
    · exact .inr ⟨hnone, .inr (.inl h)⟩
    · exact .inr ⟨hnone, .inr (.inr (any_keys_put hbelow _ _))⟩

theorem follow_put (hdest : ∀ part ∈ dest, part ≠ "") (hfree : disk.at? dest ≠ some .directory) {parts : List String}
    {end' : List String} (h : disk.follow place parts = .ok end') :
    follow (Ledger.put disk (joined dest) (.text content)) place parts = .ok end' := by
  induction parts generalizing place with
  | nil => exact h
  | cons part rest ih =>
    rw [follow] at h ⊢
    split at h
    · cases h
    · next hat =>
      rw [at?_put hdest hfree hat]
      simp only
      by_cases hhere : isHere part = true
      · rw [if_pos hhere] at h ⊢
        exact ih h
      · rw [if_neg hhere] at h ⊢
        by_cases hup : (part == "..") = true
        · rw [if_pos hup] at h ⊢
          exact ih h
        · rw [if_neg hup] at h ⊢
          by_cases hlast : rest.isEmpty = true
          · rw [if_pos hlast] at h ⊢
            exact h
          · rw [if_neg hlast] at h ⊢
            exact ih h
    · cases h

theorem locate_put (hdest : ∀ part ∈ dest, part ≠ "") (hfree : disk.at? dest ≠ some .directory)
    (h : disk.locate path = .ok place) :
    locate (Ledger.put disk (joined dest) (.text content)) path = .ok place := by
  unfold locate at h ⊢
  split at h
  · cases h
  · next hpath =>
    rw [if_neg hpath]
    split at h
    · exact follow_put hdest hfree h
    · exact follow_put hdest hfree h

end Way

/-! ## Texts at a place -/

/-- The path leads to a place where a text is or can be put. -/
structure Takes (disk : Disk) (path : String) (place : List String) : Prop where
  file : path.endsWith "/" = false
  located : disk.locate path = .ok place
  free : disk.at? place = none ∨ ∃ content, disk.at? place = some (.text content)

section Takes
variable {disk disk' : Disk} {path content : String} {place : List String}

theorem target_ok (h : disk.target path = .ok place) : path.endsWith "/" = false ∧ disk.locate path = .ok place := by
  unfold target at h
  split at h
  · cases hdir : disk.locate (String.ofList (path.toList.reverse.dropWhile (· == '/')).reverse) with
    | ok dir => rw [hdir] at h; cases h
    | error e => rw [hdir] at h; cases h
  · next hfile => exact ⟨by simpa using hfile, h⟩

theorem takes_of_write (h : disk.write path content = .ok disk') : ∃ place, disk.Takes path place := by
  unfold write at h
  cases htarget : disk.target path with
  | error e => rw [htarget] at h; cases h
  | ok place =>
    obtain ⟨hfile, hlocated⟩ := target_ok htarget
    refine ⟨place, hfile, hlocated, ?_⟩
    rw [htarget] at h
    cases hat : disk.at? place with
    | none => exact .inl rfl
    | some node =>
      cases node with
      | text content => exact .inr ⟨content, rfl⟩
      | locked => simp only [bind, Except.bind, hat] at h; cases h
      | directory => simp only [bind, Except.bind, hat] at h; cases h

namespace Takes
variable (h : disk.Takes path place)
include h

theorem write (content : String) : disk.write path content = .ok (Ledger.put disk (joined place) (.text content)) := by
  have htarget : disk.target path = .ok place := by
    unfold target
    rw [if_neg (by simp [h.file])]
    exact h.located
  unfold Disk.write
  rw [htarget]
  rcases h.free with hat | ⟨old, hat⟩
  · simp only [bind, Except.bind, hat]
    rfl
  · simp only [bind, Except.bind, hat]
    rfl

theorem put (content : String) : Takes (Ledger.put disk (joined place) (.text content)) path place where
  file := h.file
  located := by
    refine locate_put (locate_parts h.located) ?_ h.located
    rcases h.free with hat | ⟨old, hat⟩ <;> simp [hat]
  free := .inr ⟨content, by simp [at?]⟩

theorem read_put (content : String) : read (Ledger.put disk (joined place) (.text content)) path =
    .ok (String.ofList (unifyLineEnds content.toList)) := by
  have hat : at? (Ledger.put disk (joined place) (.text content)) place = some (.text content) := by simp [at?]
  unfold read open?
  rw [(h.put content).located]
  simp only [bind, Except.bind, hat]
  rfl

end Takes

end Takes

end Backprop.Disk
