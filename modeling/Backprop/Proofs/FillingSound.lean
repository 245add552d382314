import Backprop.Proofs.FormSound

/-!
# Filling in defaults

What filling makes of a tree that has a dictionary wherever it has a section of
the schema. It goes through, and a leaf that is missing gets its value at every
depth while all that is there stays (`Completes`). Filling tells whether there
was something to fill in, which there is not a second time.
-/

namespace Backprop

/-- Below what is absent there is as little as below an empty dictionary. -/
theorem Datum.at?_getD_empty {path : List Key} (h : path ≠ []) (found : Option Datum) :
    (found.getD (dict [])).at? path = found.bind fun sub => sub.at? path := by
  cases found with
  | some sub => rfl
  | none =>
    cases path with
    | nil => exact absurd rfl h
    | cons key rest => rfl

namespace Settings
variable {entries inner values values' : Ledger Key Datum} {entry default new : Datum} {found : Option Datum}

/-- The entry is a leaf, and this is the value that it takes where there is none: the default that it declares, or else
an empty list if it is of type `list`, and nothing if it is of another type. -/
inductive Presets : Datum → Datum → Prop
  | declared {fields : Ledger Key Datum} {type default : Datum} (htype : Ledger.get? fields "type" = some type)
      (hkind : type.same (.text "dict") = false) (hdefault : Ledger.get? fields "default" = some default) :
      Presets (.dict fields) default
  | list {fields : Ledger Key Datum} {type : Datum} (htype : Ledger.get? fields "type" = some type)
      (hkind : type.same (.text "dict") = false) (hdefault : Ledger.get? fields "default" = none)
      (hlist : type.same (.text "list") = true) : Presets (.dict fields) (.list [])
  | null {fields : Ledger Key Datum} {type : Datum} (htype : Ledger.get? fields "type" = some type)
      (hkind : type.same (.text "dict") = false) (hdefault : Ledger.get? fields "default" = none)
      (hlist : type.same (.text "list") = false) : Presets (.dict fields) .null

theorem Presets.isLeaf (h : Presets entry default) : IsLeaf entry default := by
  cases h with
  | declared htype hkind hdefault => simpa [leafDefault, hdefault] using IsLeaf.intro htype hkind
  | list htype hkind hdefault hlist => simpa [leafDefault, hdefault, hlist] using IsLeaf.intro htype hkind
  | null htype hkind hdefault hlist => simpa [leafDefault, hdefault, hlist] using IsLeaf.intro htype hkind

theorem IsLeaf.unique {default' : Datum} (h : IsLeaf entry default) (h' : IsLeaf entry default') : default = default' := by
  cases h with
  | intro htype =>
    cases h' with
    | intro htype' =>
      rw [htype] at htype'
      cases htype'
      rfl

theorem LeafAt.ne_nil {isLeaf : Datum → Datum → Prop} {path : List Key} (h : LeafAt isLeaf entries path default) :
    path ≠ [] := by
  cases h <;> simp

/-- The second tree has what the first has, and whatever of the schema the first lacks. -/
structure Completes (entries : Ledger Key Datum) (old new : Datum) : Prop where
  /-- No value is another one; sections may have more in them. -/
  kept : ∀ path value, old.at? path = some value → (∀ found, ¬ SectionAt entries path found) → new.at? path = some value
  leaves : ∀ path default, LeafAt Presets entries path default → new.at? path = some ((old.at? path).getD default)
  sections : ∀ path found, SectionAt entries path found → ∃ values, new.at? path = some (.dict values)
  /-- A key that the schema does not know has the value it had, or is as absent as it was. -/
  others : ∀ path found key, SectionAt entries path found → Ledger.get? found key = none →
    new.at? (path ++ [key]) = old.at? (path ++ [key])

/-! ## One level -/

/-- A tree is completed if it is at the first level and so are its sections. -/
theorem Completes.intro
    (kinds : ∀ key entry, Ledger.get? entries key = some entry →
      (∃ default, Presets entry default) ∨ ∃ inner, IsSection entry inner)
    (hleaves : ∀ key entry default, Ledger.get? entries key = some entry → Presets entry default →
      Ledger.get? values' key = some ((Ledger.get? values key).getD default))
    (hsections : ∀ key entry inner, Ledger.get? entries key = some entry → IsSection entry inner →
      ∃ sub, Ledger.get? values' key = some sub ∧ Completes inner ((Ledger.get? values key).getD (.dict [])) sub)
    (hothers : ∀ key, Ledger.get? entries key = none → Ledger.get? values' key = Ledger.get? values key) :
    Completes entries (.dict values) (.dict values') where
  kept path value hvalue hno := by
    cases path with
    | nil => exact absurd (.here entries) (hno entries)
    | cons key rest =>
      rw [Datum.at?_dict_cons] at hvalue ⊢
      obtain ⟨sub, hsub, hrest⟩ := Option.bind_eq_some_iff.mp hvalue
      cases hentry : Ledger.get? entries key with
      | none => rw [hothers key hentry, hvalue]
      | some entry =>
        obtain ⟨default, hleaf⟩ | ⟨inner, hsection⟩ := kinds key entry hentry
        · rw [hleaves key entry default hentry hleaf, hsub]
          exact hrest
        · obtain ⟨sub', hsub', hcompletes⟩ := hsections key entry inner hentry hsection
          rw [hsub, Option.getD_some] at hcompletes
          rw [hsub', Option.bind_some]
          exact hcompletes.kept rest value hrest fun found hfound => hno found (.within hentry hsection hfound)
  leaves path default h := by
    cases h with
    | here hentry hleaf => simp [hleaves _ _ _ hentry hleaf]
    | within hentry hsection hpath =>
      obtain ⟨sub', hsub', hcompletes⟩ := hsections _ _ _ hentry hsection
      rw [Datum.at?_dict_cons, Datum.at?_dict_cons, hsub', Option.bind_some, ← Datum.at?_getD_empty hpath.ne_nil]
      exact hcompletes.leaves _ _ hpath
  sections path found h := by
    cases h with
    | here => exact ⟨values', by simp⟩
    | within hentry hsection hpath =>
      obtain ⟨sub', hsub', hcompletes⟩ := hsections _ _ _ hentry hsection
      rw [Datum.at?_dict_cons, hsub']
      exact hcompletes.sections _ _ hpath
  others path found key h hkey := by
    cases h with
    | here => simp [hothers key hkey]
    | within hentry hsection hpath =>
      obtain ⟨sub', hsub', hcompletes⟩ := hsections _ _ _ hentry hsection
      rw [List.cons_append, Datum.at?_dict_cons, Datum.at?_dict_cons, hsub', Option.bind_some,
        ← Datum.at?_getD_empty (by simp)]
      exact hcompletes.others _ _ _ hpath hkey

/-- What becomes of the value under a key, and of what it has become. -/
structure Fulfils (entry : Datum) (found : Option Datum) (new : Datum) (flag : Bool) : Prop where
  becomes : Becomes entry found new flag
  again : Becomes entry (some new) new false
  flag_iff : flag = true ↔ found ≠ some new
  leaf : ∀ default, Presets entry default → new = found.getD default
  nested : ∀ inner, IsSection entry inner → Completes inner (found.getD (.dict [])) new

theorem Fulfils.of_leaf (h : Presets entry default) (found : Option Datum) :
    Fulfils entry found (found.getD default) found.isNone where
  becomes := .leaf h.isLeaf
  again := by
    have hagain : Becomes entry (some (found.getD default)) _ _ := .leaf h.isLeaf
    exact hagain
  flag_iff := by cases found <;> simp
  leaf default' h' := by rw [h.isLeaf.unique h'.isLeaf]
  nested inner hsection := absurd hsection h.isLeaf.not_section

theorem Fulfils.of_section {changed : Bool} (hsection : IsSection entry inner)
    (hfill : fill (.dict inner) (found.getD (.dict [])) = (new, .ok changed))
    (hcompletes : Completes inner (found.getD (.dict [])) new) (hchanged : changed = true ↔ new ≠ found.getD (.dict []))
    (hagain : fill (.dict inner) new = (new, .ok false)) : Fulfils entry found new (found.isNone || changed) where
  becomes := .nest hsection hfill
  again := by
    have hnest : Becomes entry (some new) new (false || false) := .nest hsection hagain
    exact hnest
  flag_iff := by
    cases found with
    | none => simp
    | some sub => simpa [ne_comm] using hchanged
  leaf default hleaf := absurd hsection hleaf.isLeaf.not_section
  nested inner' hsection' := hsection.unique hsection' ▸ hcompletes

/-! ## All levels -/

theorem fillEntries_completes (distinct : Ledger.Distinct entries)
    (kinds : ∀ q ∈ entries, (∃ default, Presets q.2 default) ∨ ∃ inner, IsSection q.2 inner)
    {settled : Key × Datum → Datum} {flag : Key × Datum → Bool}
    (h : ∀ q ∈ entries, Fulfils q.2 (Ledger.get? values q.1) (settled q) (flag q)) :
    ∃ values' changed, fillEntries entries (.dict values) = (.dict values', .ok changed) ∧
      Completes entries (.dict values) (.dict values') ∧ (changed = true ↔ values' ≠ values) ∧
      fillEntries entries (.dict values') = (.dict values', .ok false) := by
  obtain ⟨values', hrun, hsettled, hothers⟩ := fillEntries_eq distinct fun q hq => (h q hq).becomes
  have hknown : ∀ {key entry}, Ledger.get? entries key = some entry → ∃ q ∈ entries, q.2 = entry ∧
      Fulfils entry (Ledger.get? values key) (settled q) (flag q) ∧ Ledger.get? values' key = some (settled q) := by
    intro key entry hentry
    obtain ⟨k, hmem, hk⟩ := Ledger.exists_mem_of_get? hentry
    refine ⟨_, hmem, rfl, ?_⟩
    rw [← Ledger.get?_congr values hk, ← Ledger.get?_congr values' hk]
    exact ⟨h _ hmem, hsettled _ hmem⟩
  refine ⟨values', entries.any flag, hrun, .intro ?_ ?_ ?_ hothers, ?_, ?_⟩
  · intro key entry hentry
    obtain ⟨q, hq, rfl, -⟩ := hknown hentry
    exact kinds q hq
  · intro key entry default hentry hleaf
    obtain ⟨q, -, -, hfulfils, hvalue⟩ := hknown hentry
    rw [hvalue, hfulfils.leaf default hleaf]
  · intro key entry inner hentry hsection
    obtain ⟨q, -, -, hfulfils, hvalue⟩ := hknown hentry
    exact ⟨_, hvalue, hfulfils.nested inner hsection⟩
  · rw [List.any_eq_true]
    constructor
    · rintro ⟨q, hq, hflag⟩ rfl
      exact (h q hq).flag_iff.mp hflag (hsettled q hq)
    · intro hne
      by_contra hnone
      -- if nothing was filled in, every key had its value
      have hsame : ∀ q ∈ entries, ∃ value, Ledger.get? values q.1 = some value ∧ Becomes q.2 (some value) value false := by
        intro q hq
        have hvalue : Ledger.get? values q.1 = some (settled q) := by
          by_contra hchanged
          exact hnone ⟨q, hq, (h q hq).flag_iff.mpr hchanged⟩
        exact ⟨_, hvalue, (h q hq).again⟩
      rw [fillEntries_same hsame] at hrun
      exact hne (Datum.dict.inj (Prod.mk.inj hrun).1).symm
  · have hnone : (entries.any fun _ => false) = false := List.any_eq_false.mpr (by simp)
    rw [← hnone]
    exact fillEntries_same fun q hq => ⟨_, hsettled q hq, (h q hq).again⟩

/-- The defaults of a schema are filled into a tree that has a dictionary wherever it has a section: this does not fail,
keeps all that is there, adds what is missing and nothing else, tells whether it has added something, and is done once
and for all. -/
theorem defaults_filled (hs : Scheme Presets entries) {tree : Datum} (h : Fits entries tree) :
    ∃ filled changed, fill (.dict entries) tree = (filled, .ok changed) ∧ Completes entries tree filled ∧
      (changed = true ↔ filled ≠ tree) ∧ fill (.dict entries) filled = (filled, .ok false) := by
  induction hs generalizing tree with
  | @intro entries distinct kinds _ ih =>
    cases h with
    | @intro _ values sections =>
      have hfits : Fits entries (.dict values) := .intro sections
      have hkeys : ∀ q ∈ entries, ∃ new flag, Fulfils q.2 (Ledger.get? values q.1) new flag := by
        intro q hq
        obtain ⟨default, hleaf⟩ | ⟨inner, hsection⟩ := kinds q hq
        · exact ⟨_, _, .of_leaf hleaf _⟩
        · have hfound : Fits inner ((Ledger.get? values q.1).getD (.dict [])) := by
            cases hget : Ledger.get? values q.1 with
            | none => exact Fits.nil inner
            | some sub => exact hfits.get hget (distinct.get?_of_mem hq) hsection
          obtain ⟨new, changed, hfill, hcompletes, hchanged, hagain⟩ := ih q hq inner hsection hfound
          exact ⟨new, _, .of_section hsection hfill hcompletes hchanged hagain⟩
      choose! settled flag hfulfils using hkeys
      obtain ⟨values', changed, hrun, hcompletes, hchanged, hagain⟩ := fillEntries_completes distinct kinds hfulfils
      exact ⟨.dict values', changed, by rw [fill, hrun], hcompletes, by simpa using hchanged, by rw [fill, hagain]⟩

def unset : Ledger Key Datum := [("paths", .dict [("type", .text "list")]), ("limit", .dict [("type", .text "int")])]

def sparse : Ledger Key Datum :=
  [("debug", .dict [("type", .text "bool"), ("default", .bool false)]),
   ("build", .dict [("type", .text "dict"), ("required", .dict unset)])]

theorem isSection_build : IsSection (.dict [("type", .text "dict"), ("required", .dict unset)]) unset :=
  .intro rfl rfl rfl

theorem unset_leaves : ∀ q ∈ unset, ∃ default, Presets q.2 default :=
  List.forall_mem_cons.mpr ⟨⟨_, .list rfl rfl rfl rfl⟩, List.forall_mem_cons.mpr ⟨⟨_, .null rfl rfl rfl rfl⟩, by simp⟩⟩

theorem sparse_scheme : Scheme Presets sparse := by
  have hunset : Scheme Presets unset := by
    refine .intro (by unfold Ledger.Distinct; decide) (fun q hq => .inl (unset_leaves q hq)) fun q hq inner hsection => ?_
    obtain ⟨default, hleaf⟩ := unset_leaves q hq
    exact absurd hsection hleaf.isLeaf.not_section
  have hdebug : Presets (.dict [("type", .text "bool"), ("default", .bool false)]) (.bool false) := .declared rfl rfl rfl
  refine .intro (by unfold Ledger.Distinct; decide) ?_ ?_
  · exact List.forall_mem_cons.mpr ⟨.inl ⟨_, hdebug⟩, List.forall_mem_singleton.mpr (.inr ⟨_, isSection_build⟩)⟩
  · refine List.forall_mem_cons.mpr ⟨fun inner hsection => absurd hsection hdebug.isLeaf.not_section,
      List.forall_mem_singleton.mpr fun inner hsection => ?_⟩
    exact isSection_build.unique hsection ▸ hunset

/-- One leaf of a section has a value, and there is a key at each level that the schema does not know. -/
def begun : Datum := .dict [("user", .text "me"), ("build", .dict [("limit", .int 3), ("cache", .null)])]

theorem begun_fits : Fits sparse begun := by
  have hbuild : Fits unset (.dict [("limit", .int 3), ("cache", .null)]) := by
    refine .intro fun q _ entry inner hentry hsection => ?_
    obtain ⟨k, hmem, -⟩ := Ledger.exists_mem_of_get? hentry
    obtain ⟨default, hleaf⟩ := unset_leaves _ hmem
    exact absurd hsection hleaf.isLeaf.not_section
  refine .intro (List.forall_mem_cons.mpr ⟨fun entry inner hentry => ?_,
    List.forall_mem_singleton.mpr fun entry inner hentry hsection => ?_⟩)
  · cases hentry
  · cases hentry
    exact isSection_build.unique hsection ▸ hbuild

theorem defaults_filled_begun :
    ∃ filled, fill (.dict sparse) begun = (filled, .ok true) ∧ Completes sparse begun filled ∧
      filled.at? ["build", "paths"] = some (.list []) ∧ filled.at? ["build", "limit"] = some (.int 3) ∧
      fill (.dict sparse) filled = (filled, .ok false) := by
  obtain ⟨filled, changed, hfill, hcompletes, -, hagain⟩ := defaults_filled sparse_scheme begun_fits
  have hrun : fill (.dict sparse) begun = (.dict [("user", .text "me"),
    ("build", .dict [("limit", .int 3), ("cache", .null), ("paths", .list [])]), ("debug", .bool false)], .ok true) := rfl
  rw [hrun] at hfill
  cases hfill
  exact ⟨_, hrun, hcompletes, rfl, rfl, hagain⟩

end Settings

end Backprop
