import Backprop.Settings.Defaults
import Mathlib.Data.List.Perm.Subperm
import Mathlib.Data.Option.Basic
import Mathlib.Tactic.Choose

/-!
# Defaults left out and filled in

What filling and stripping do at one level of a schema: what each key of the
tree ends up with (`Settles`) and what is left of it (`Leaves`). From this it
follows at every depth that filling the defaults into what stripping has left,
or into anything equal to it, restores the leaves of the schema, and nothing
but what the schema knows (`Scheme.undone`).
-/

namespace Backprop

/-! ## Equal dictionaries -/

namespace Datum

theorem sameEntries_iff {xs ys : List (Key × Datum)} :
    sameEntries xs ys = true ↔ ∀ q ∈ xs, ∃ y, Ledger.get? ys q.1 = some y ∧ q.2.same y = true := by
  induction xs with
  | nil => simp [sameEntries]
  | cons q xs ih =>
    rw [sameEntries]
    cases hget : Ledger.get? ys q.1 with
    | none => simp [hget]
    | some y => simp [hget, ih]

theorem same_dict {xs : List (Key × Datum)} {d : Datum} (hd : Ledger.Distinct xs) (h : (dict xs).same d = true) :
    ∃ ys, d = dict ys ∧
      ∀ key, Option.Rel (fun x y => x.same y = true) (Ledger.get? xs key) (Ledger.get? ys key) := by
  cases d with
  | dict ys =>
    rw [same, Bool.and_eq_true, beq_iff_eq, sameEntries_iff] at h
    obtain ⟨hlength, hvalues⟩ := h
    refine ⟨ys, rfl, fun key => ?_⟩
    cases hx : Ledger.get? xs key with
    | some x =>
      obtain ⟨k, hmem, hk⟩ := Ledger.exists_mem_of_get? hx
      obtain ⟨y, hy, hsame⟩ := hvalues _ hmem
      rw [Ledger.get?_congr ys hk] at hy
      exact hy ▸ .some hsame
    | none =>
      -- there are as many keys in the second as in the first, which are all in the second
      have hnodup : (xs.map fun q => q.1.identity).Nodup := by
        refine List.pairwise_map.mpr (hd.imp fun hpq => ?_)
        simpa [Key.beq_def] using hpq
      have hsub : (xs.map fun q => q.1.identity) ⊆ ys.map fun q => q.1.identity := by
        intro i hi
        obtain ⟨q, hq, rfl⟩ := List.mem_map.mp hi
        obtain ⟨y, hy, -⟩ := hvalues q hq
        obtain ⟨k, hmem, hk⟩ := Ledger.exists_mem_of_get? hy
        exact List.mem_map.mpr ⟨_, hmem, by simpa [Key.beq_def] using hk⟩
      have hperm := (hnodup.subperm hsub).perm_of_length_le (by simp [hlength])
      have hy : Ledger.get? ys key = none := by
        rw [Ledger.get?_eq_none_iff_beq] at hx ⊢
        intro q hq
        have hmem := hperm.mem_iff.mpr (List.mem_map_of_mem hq)
        obtain ⟨p, hp, hpq⟩ := List.mem_map.mp hmem
        have hpk := hx p hp
        rw [Key.beq_def] at hpk ⊢
        rwa [← hpq]
      rw [hy]
      exact .none
  | _ => simp [same] at h

def at? : Datum → List Key → Option Datum
  | d, [] => some d
  | dict entries, key :: rest => (Ledger.get? entries key).bind fun sub => sub.at? rest
  | _, _ :: _ => none

@[simp] theorem at?_nil (d : Datum) : d.at? [] = some d := by cases d <;> rfl

@[simp] theorem at?_dict_cons (entries : List (Key × Datum)) (key : Key) (rest : List Key) :
    (dict entries).at? (key :: rest) = (Ledger.get? entries key).bind fun sub => sub.at? rest := rfl

end Datum

namespace Settings

/-! ## Schemas -/

inductive IsSection : Datum → Ledger Key Datum → Prop
  | intro {fields inner : Ledger Key Datum} {type : Datum} (htype : Ledger.get? fields "type" = some type)
      (hkind : type.same (.text "dict") = true) (hrequired : Ledger.get? fields "required" = some (.dict inner)) :
      IsSection (.dict fields) inner

/-- An entry of any other type, with the value that it takes where there is none. -/
inductive IsLeaf : Datum → Datum → Prop
  | intro {fields : Ledger Key Datum} {type : Datum} (htype : Ledger.get? fields "type" = some type)
      (hkind : type.same (.text "dict") = false) : IsLeaf (.dict fields) (leafDefault fields type)

/-- A leaf that declares its default and nests nothing. -/
structure Declares (entry default : Datum) : Prop where
  leaf : IsLeaf entry default
  declared : entry.index "default" = .ok default
  closed : entry.contains "required" = .ok false

inductive Scheme (isLeaf : Datum → Datum → Prop) : Ledger Key Datum → Prop
  | intro {entries : Ledger Key Datum} (distinct : Ledger.Distinct entries)
      (kinds : ∀ q ∈ entries, (∃ default, isLeaf q.2 default) ∨ ∃ inner, IsSection q.2 inner)
      (nested : ∀ q ∈ entries, ∀ inner, IsSection q.2 inner → Scheme isLeaf inner) : Scheme isLeaf entries

inductive SectionAt : Ledger Key Datum → List Key → Ledger Key Datum → Prop
  | here (entries : Ledger Key Datum) : SectionAt entries [] entries
  | within {entries inner found : Ledger Key Datum} {key : Key} {entry : Datum} {path : List Key}
      (hentry : Ledger.get? entries key = some entry) (hsection : IsSection entry inner)
      (hpath : SectionAt inner path found) : SectionAt entries (key :: path) found

inductive LeafAt (isLeaf : Datum → Datum → Prop) : Ledger Key Datum → List Key → Datum → Prop
  | here {entries : Ledger Key Datum} {key : Key} {entry default : Datum}
      (hentry : Ledger.get? entries key = some entry) (hleaf : isLeaf entry default) : LeafAt isLeaf entries [key] default
  | within {entries inner : Ledger Key Datum} {key : Key} {entry default : Datum} {path : List Key}
      (hentry : Ledger.get? entries key = some entry) (hsection : IsSection entry inner)
      (hpath : LeafAt isLeaf inner path default) : LeafAt isLeaf entries (key :: path) default

/-- The tree has the sections of the schema and all its leaves, and may have more. -/
structure Covers (isLeaf : Datum → Datum → Prop) (entries : Ledger Key Datum) (tree : Datum) : Prop where
  sections : ∀ path found, SectionAt entries path found →
    ∃ values, tree.at? path = some (.dict values) ∧ Ledger.Distinct values
  leaves : ∀ path default, LeafAt isLeaf entries path default → ∃ value, tree.at? path = some value

/-- The second tree has the leaves of the first, with equal values, and nothing that the schema does not know. -/
structure Restores (isLeaf : Datum → Datum → Prop) (entries : Ledger Key Datum) (old new : Datum) : Prop where
  leaves : ∀ path default, LeafAt isLeaf entries path default →
    ∃ v v', old.at? path = some v ∧ new.at? path = some v' ∧ v.same v' = true
  sections : ∀ path found, SectionAt entries path found →
    ∃ values, new.at? path = some (.dict values) ∧ ∀ key, Ledger.has values key → Ledger.has found key

theorem IsSection.unique {entry : Datum} {inner inner' : Ledger Key Datum} (h : IsSection entry inner)
    (h' : IsSection entry inner') : inner = inner' := by
  cases h with
  | intro _ _ hrequired =>
    cases h' with
    | intro _ _ hrequired' =>
      rw [hrequired] at hrequired'
      cases hrequired'
      rfl

theorem IsLeaf.not_section {entry default : Datum} {inner : Ledger Key Datum} (h : IsLeaf entry default) :
    ¬ IsSection entry inner := by
  intro h'
  cases h with
  | intro htype hkind =>
    cases h' with
    | intro htype' hkind' =>
      rw [htype] at htype'
      cases htype'
      rw [hkind] at hkind'
      cases hkind'

theorem Scheme.nil {isLeaf : Datum → Datum → Prop} : Scheme isLeaf [] := .intro .nil (by simp) (by simp)

theorem Scheme.cons_leaf {entries : Ledger Key Datum} {key : Key} {entry default : Datum} (hs : Scheme Declares entries)
    (hkey : ∀ q ∈ entries, (key == q.1) = false) (hleaf : Declares entry default) :
    Scheme Declares ((key, entry) :: entries) := by
  cases hs with
  | intro distinct kinds nested =>
    refine .intro (List.pairwise_cons.mpr ⟨hkey, distinct⟩) ?_ ?_
    · exact List.forall_mem_cons.mpr ⟨.inl ⟨default, hleaf⟩, kinds⟩
    · exact List.forall_mem_cons.mpr ⟨fun inner hsection => absurd hsection hleaf.leaf.not_section, nested⟩

theorem Scheme.cons_section {isLeaf : Datum → Datum → Prop} {entries inner : Ledger Key Datum} {key : Key} {entry : Datum}
    (hs : Scheme isLeaf entries) (hkey : ∀ q ∈ entries, (key == q.1) = false) (hsection : IsSection entry inner)
    (hinner : Scheme isLeaf inner) : Scheme isLeaf ((key, entry) :: entries) := by
  cases hs with
  | intro distinct kinds nested =>
    refine .intro (List.pairwise_cons.mpr ⟨hkey, distinct⟩) ?_ ?_
    · exact List.forall_mem_cons.mpr ⟨.inr ⟨inner, hsection⟩, kinds⟩
    · refine List.forall_mem_cons.mpr ⟨fun inner' hsection' => ?_, nested⟩
      rwa [← hsection.unique hsection']

section Covers
variable {isLeaf : Datum → Datum → Prop} {entries inner values : Ledger Key Datum} {tree entry default : Datum} {key : Key}

theorem Covers.dict (h : Covers isLeaf entries tree) : ∃ values, tree = .dict values ∧ Ledger.Distinct values := by
  obtain ⟨values, hvalues, hd⟩ := h.sections [] entries (.here entries)
  rw [Datum.at?_nil, Option.some_inj] at hvalues
  exact ⟨values, hvalues, hd⟩

theorem Covers.leaf (h : Covers isLeaf entries (.dict values)) (hentry : Ledger.get? entries key = some entry)
    (hleaf : isLeaf entry default) : ∃ value, Ledger.get? values key = some value := by
  obtain ⟨value, hvalue⟩ := h.leaves [key] default (.here hentry hleaf)
  rw [Datum.at?_dict_cons, Option.bind_eq_some_iff] at hvalue
  obtain ⟨value, hvalue, -⟩ := hvalue
  exact ⟨value, hvalue⟩

theorem Covers.within (h : Covers isLeaf entries (.dict values)) (hentry : Ledger.get? entries key = some entry)
    (hsection : IsSection entry inner) : ∃ sub, Ledger.get? values key = some sub ∧ Covers isLeaf inner sub := by
  obtain ⟨subvalues, hsub, -⟩ := h.sections [key] inner (.within hentry hsection (.here inner))
  rw [Datum.at?_dict_cons, Option.bind_eq_some_iff] at hsub
  obtain ⟨sub, hsub, -⟩ := hsub
  refine ⟨sub, hsub, fun path found hfound => ?_, fun path default hdefault => ?_⟩
  · have hvalues := h.sections (key :: path) found (.within hentry hsection hfound)
    rwa [Datum.at?_dict_cons, hsub, Option.bind_some] at hvalues
  · have hvalue := h.leaves (key :: path) default (.within hentry hsection hdefault)
    rwa [Datum.at?_dict_cons, hsub, Option.bind_some] at hvalue

/-- A tree covers a schema if it has its keys and its sections cover what they are to. -/
theorem Covers.intro (hd : Ledger.Distinct values)
    (h : ∀ q ∈ entries, ∃ value, Ledger.get? values q.1 = some value ∧
      ∀ inner, IsSection q.2 inner → Covers isLeaf inner value) : Covers isLeaf entries (.dict values) := by
  have hkey : ∀ {key entry}, Ledger.get? entries key = some entry → ∃ value, Ledger.get? values key = some value ∧
      ∀ inner, IsSection entry inner → Covers isLeaf inner value := by
    intro key entry hentry
    obtain ⟨k, hmem, hk⟩ := Ledger.exists_mem_of_get? hentry
    rw [← Ledger.get?_congr values hk]
    exact h _ hmem
  refine ⟨fun path found hfound => ?_, fun path default hdefault => ?_⟩
  · cases hfound with
    | here => exact ⟨values, by simp, hd⟩
    | within hentry hsection hpath =>
      obtain ⟨value, hvalue, hcovers⟩ := hkey hentry
      rw [Datum.at?_dict_cons, hvalue, Option.bind_some]
      exact (hcovers _ hsection).sections _ _ hpath
  · cases hdefault with
    | here hentry =>
      obtain ⟨value, hvalue, -⟩ := hkey hentry
      exact ⟨value, by simp [hvalue]⟩
    | within hentry hsection hpath =>
      obtain ⟨value, hvalue, hcovers⟩ := hkey hentry
      rw [Datum.at?_dict_cons, hvalue, Option.bind_some]
      exact (hcovers _ hsection).leaves _ _ hpath

/-- A tree is restored if it is at the first level and so are its sections. -/
theorem Restores.intro {values' : Ledger Key Datum}
    (hleaves : ∀ key entry default, Ledger.get? entries key = some entry → isLeaf entry default →
      ∃ v v', Ledger.get? values key = some v ∧ Ledger.get? values' key = some v' ∧ v.same v' = true)
    (hsections : ∀ key entry inner, Ledger.get? entries key = some entry → IsSection entry inner →
      ∃ sub sub', Ledger.get? values key = some sub ∧ Ledger.get? values' key = some sub' ∧
        Restores isLeaf inner sub sub')
    (honly : ∀ key, Ledger.has values' key → Ledger.has entries key) :
    Restores isLeaf entries (.dict values) (.dict values') where
  leaves path default h := by
    cases h with
    | here hentry hleaf =>
      obtain ⟨v, v', hv, hv', hsame⟩ := hleaves _ _ _ hentry hleaf
      exact ⟨v, v', by simp [hv], by simp [hv'], hsame⟩
    | within hentry hsection hpath =>
      obtain ⟨sub, sub', hsub, hsub', hrest⟩ := hsections _ _ _ hentry hsection
      obtain ⟨v, v', hv, hv', hsame⟩ := hrest.leaves _ _ hpath
      exact ⟨v, v', by simp [hsub, hv], by simp [hsub', hv'], hsame⟩
  sections path found h := by
    cases h with
    | here => exact ⟨values', by simp, honly⟩
    | within hentry hsection hpath =>
      obtain ⟨sub, sub', -, hsub', hrest⟩ := hsections _ _ _ hentry hsection
      obtain ⟨found, hfound, hkeys⟩ := hrest.sections _ _ hpath
      exact ⟨found, by simp [hsub', hfound], hkeys⟩

end Covers

/-! ## Filling -/

/-- What a key ends up with, by its entry in the schema and the value that was found. -/
inductive Settles (entry : Datum) (found : Option Datum) : Datum → Prop
  | leaf {default : Datum} (hleaf : IsLeaf entry default) : Settles entry found (found.getD default)
  | nest {inner : Ledger Key Datum} {tree : Datum} {changed : Bool} (hsection : IsSection entry inner)
      (hfill : fill (.dict inner) (found.getD (.dict [])) = (tree, .ok changed)) : Settles entry found tree

/-- As `Settles`, with whether something was filled in. -/
inductive Becomes (entry : Datum) (found : Option Datum) : Datum → Bool → Prop
  | leaf {default : Datum} (hleaf : IsLeaf entry default) : Becomes entry found (found.getD default) found.isNone
  | nest {inner : Ledger Key Datum} {tree : Datum} {changed : Bool} (hsection : IsSection entry inner)
      (hfill : fill (.dict inner) (found.getD (.dict [])) = (tree, .ok changed)) :
      Becomes entry found tree (found.isNone || changed)

theorem Settles.becomes {entry value : Datum} {found : Option Datum} (h : Settles entry found value) :
    ∃ changed, Becomes entry found value changed := by
  cases h with
  | leaf hleaf => exact ⟨_, .leaf hleaf⟩
  | nest hsection hfill => exact ⟨_, .nest hsection hfill⟩

theorem fillRequired_eq {fields : Ledger Key Datum} {schema : Datum} (h : Ledger.get? fields "required" = some schema)
    (tree : Datum) : fillRequired fields tree = fill schema tree := by
  induction fields with
  | nil => simp at h
  | cons p rest ih =>
    rw [Ledger.get?_cons] at h
    rw [fillRequired]
    by_cases hname : p.1 == (.text "required" : Key)
    · rw [if_pos hname, Option.some_inj] at h
      rw [if_pos hname, h]
    · rw [if_neg hname] at h ⊢
      exact ih h

theorem fillEntry_eq {values : Ledger Key Datum} {key : Key} {entry value : Datum} {changed : Bool}
    (h : Becomes entry (Ledger.get? values key) value changed) :
    fillEntry key entry (.dict values) = (.dict (Ledger.put values key value), .ok changed) := by
  cases h with
  | leaf hleaf =>
    cases hleaf with
    | intro htype hkind =>
      rw [fillEntry, htype]
      simp only [hkind, fillLeaf, Datum.contains, Ledger.has]
      cases hget : Ledger.get? values key with
      | none => rfl
      | some v => simp [Ledger.put_of_get? hget]
  | nest hsection hfill =>
    cases hsection with
    | intro htype hkind hrequired =>
      rw [fillEntry, htype]
      simp only [hkind, openSection, Datum.contains, Ledger.has, fillRequired_eq hrequired]
      cases hget : Ledger.get? values key with
      | none =>
        rw [hget, Option.getD_none] at hfill
        simp [Datum.assign, Datum.index, Except.map, Filling.within, hfill, Ledger.put_put]
      | some v =>
        rw [hget, Option.getD_some] at hfill
        simp [Datum.assign, Datum.index, Except.map, Filling.within, hfill, hget]

theorem fillEntry_run {values : Ledger Key Datum} {key : Key} {entry value : Datum}
    (h : Settles entry (Ledger.get? values key) value) :
    ∃ changed, fillEntry key entry (.dict values) = (.dict (Ledger.put values key value), .ok changed) := by
  obtain ⟨changed, h⟩ := h.becomes
  exact ⟨changed, fillEntry_eq h⟩

/-- Each key of the schema ends up with its value, the other keys are left alone, and something was filled in if it was
for one of the keys. -/
theorem fillEntries_eq {entries values : Ledger Key Datum} (hd : Ledger.Distinct entries)
    {settled : Key × Datum → Datum} {flag : Key × Datum → Bool}
    (h : ∀ q ∈ entries, Becomes q.2 (Ledger.get? values q.1) (settled q) (flag q)) :
    ∃ values', fillEntries entries (.dict values) = (.dict values', .ok (entries.any flag)) ∧
      (∀ q ∈ entries, Ledger.get? values' q.1 = some (settled q)) ∧
      ∀ key, Ledger.get? entries key = none → Ledger.get? values' key = Ledger.get? values key := by
  induction entries generalizing values with
  | nil => exact ⟨values, rfl, by simp, fun _ _ => rfl⟩
  | cons p rest ih =>
    obtain ⟨hp, hrest⟩ := List.pairwise_cons.mp hd
    have hkept : ∀ q ∈ rest, Ledger.get? (Ledger.put values p.1 (settled p)) q.1 = Ledger.get? values q.1 :=
      fun q hq => Ledger.get?_put_of_beq_false values _ (hp q hq)
    obtain ⟨values', hrun', hsettled, hothers⟩ := ih hrest fun q hq => by
      rw [hkept q hq]
      exact h q (List.mem_cons_of_mem _ hq)
    refine ⟨values', ?_, fun q hq => ?_, fun key hkey => ?_⟩
    · rw [fillEntries, fillEntry_eq (h p (by simp))]
      simp only [hrun']
      rfl
    · rcases List.mem_cons.mp hq with rfl | hq
      · have hnone : Ledger.get? rest q.1 = none := by
          rw [Ledger.get?_eq_none_iff_beq]
          exact fun r hr => BEq.symm_false (hp r hr)
        rw [hothers q.1 hnone, Ledger.get?_put_self]
      · exact hsettled q hq
    · rw [Ledger.get?_eq_none_iff_beq] at hkey
      have hnone : Ledger.get? rest key = none :=
        Ledger.get?_eq_none_iff_beq.mpr fun q hq => hkey q (List.mem_cons_of_mem _ hq)
      rw [hothers key hnone, Ledger.get?_put_of_beq_false values _ (hkey p (by simp))]

theorem fillEntries_run {entries values : Ledger Key Datum} (hd : Ledger.Distinct entries) {settled : Key × Datum → Datum}
    (h : ∀ q ∈ entries, Settles q.2 (Ledger.get? values q.1) (settled q)) :
    ∃ values' changed, fillEntries entries (.dict values) = (.dict values', .ok changed) ∧
      (∀ q ∈ entries, Ledger.get? values' q.1 = some (settled q)) ∧
      ∀ key, Ledger.get? entries key = none → Ledger.get? values' key = Ledger.get? values key := by
  choose! flag hflag using fun q hq => (h q hq).becomes
  obtain ⟨values', hrun⟩ := fillEntries_eq hd hflag
  exact ⟨values', _, hrun⟩

/-- The tree stays as it is if every key of the schema has its value already. -/
theorem fillEntries_same {entries values : Ledger Key Datum} {flag : Key × Datum → Bool}
    (h : ∀ q ∈ entries, ∃ value, Ledger.get? values q.1 = some value ∧ Becomes q.2 (some value) value (flag q)) :
    fillEntries entries (.dict values) = (.dict values, .ok (entries.any flag)) := by
  induction entries with
  | nil => rfl
  | cons p rest ih =>
    obtain ⟨value, hget, hbecomes⟩ := h p (by simp)
    have hrun := fillEntry_eq (hget ▸ hbecomes)
    rw [Ledger.put_of_get? hget] at hrun
    rw [fillEntries, hrun]
    simp only [ih fun q hq => h q (List.mem_cons_of_mem _ hq)]
    rfl

theorem fillEntries_settled {entries values : Ledger Key Datum}
    (h : ∀ q ∈ entries, ∃ value, Ledger.get? values q.1 = some value ∧ Settles q.2 (some value) value) :
    ∃ changed, fillEntries entries (.dict values) = (.dict values, .ok changed) := by
  have hflag : ∀ q ∈ entries, ∃ flag value, Ledger.get? values q.1 = some value ∧ Becomes q.2 (some value) value flag := by
    intro q hq
    obtain ⟨value, hget, hsettles⟩ := h q hq
    obtain ⟨flag, hbecomes⟩ := hsettles.becomes
    exact ⟨flag, value, hget, hbecomes⟩
  choose! flag hflag using hflag
  exact ⟨_, fillEntries_same hflag⟩

/-! ## Stripping -/

inductive Leaves (entries : Ledger Key Datum) (key : Key) (value : Datum) : Option Datum → Prop
  | unknown (hentry : Ledger.get? entries key = none) : Leaves entries key value none
  | leaf {entry default : Datum} (hentry : Ledger.get? entries key = some entry) (hleaf : Declares entry default) :
      Leaves entries key value (if value.same default then none else some value)
  | nest {entry : Datum} {inner kept : Ledger Key Datum} (hentry : Ledger.get? entries key = some entry)
      (hsection : IsSection entry inner) (hstrip : strip value (.dict inner) = .ok kept) :
      Leaves entries key value (if kept.isEmpty then none else some (.dict kept))

theorem Leaves.congr {entries : Ledger Key Datum} {k key : Key} {value : Datum} {left : Option Datum}
    (h : Leaves entries k value left) (hk : (k == key) = true) : Leaves entries key value left := by
  cases h with
  | unknown hentry => exact .unknown (Ledger.get?_congr entries hk ▸ hentry)
  | leaf hentry hleaf => exact .leaf (Ledger.get?_congr entries hk ▸ hentry) hleaf
  | nest hentry hsection hstrip => exact .nest (Ledger.get?_congr entries hk ▸ hentry) hsection hstrip

theorem judgeKey_eq {entries : Ledger Key Datum} {key : Key} {entry : Datum}
    (hentry : Ledger.get? entries key = some entry) (value : Datum) :
    judgeKey (.dict entries) key value = judge value entry := by
  simp [judgeKey, Datum.contains, Ledger.has, Datum.index, hentry]

theorem judge_leaf {entry default : Datum} (hleaf : Declares entry default) (value : Datum) :
    judge value entry = .ok (if value.same default then .leave else .keep) := by
  have hcontains : entry.contains "default" = .ok true := by
    have hdeclared := hleaf.declared
    cases hleaf.leaf with
    | @intro fields =>
      cases hget : Ledger.get? fields "default" with
      | none => simp [Datum.index, hget] at hdeclared
      | some d => simp [Datum.contains, Ledger.has, hget]
  simp [judge, hleaf.closed, hcontains, hleaf.declared]

theorem judge_section {entry : Datum} {inner : Ledger Key Datum} (hsection : IsSection entry inner) (value : Datum) :
    judge value entry = .ok (.descend (.dict inner)) := by
  cases hsection with
  | intro _ _ hrequired => simp [judge, Datum.contains, Ledger.has, Datum.index, hrequired]

theorem stripEntries_cons {entries : Ledger Key Datum} {key : Key} {value : Datum} {left : Option Datum}
    (h : Leaves entries key value left) (rest : Ledger Key Datum) :
    stripEntries ((key, value) :: rest) (.dict entries) =
      (stripEntries rest (.dict entries)).map fun kept => (left.toList.map fun v => (key, v)) ++ kept := by
  rw [stripEntries]
  cases h with
  | unknown hentry =>
    cases stripEntries rest (.dict entries) <;> simp [judgeKey, Datum.contains, Ledger.has, hentry, Except.map]
  | @leaf entry default hentry hleaf =>
    rw [judgeKey_eq hentry, judge_leaf hleaf]
    by_cases hsame : value.same default = true
    · cases stripEntries rest (.dict entries) <;> simp [hsame, Except.map]
    · cases stripEntries rest (.dict entries) <;> simp [hsame, Except.map]
  | @nest entry inner kept' hentry hsection hstrip =>
    rw [judgeKey_eq hentry, judge_section hsection]
    simp only [hstrip]
    by_cases hempty : kept'.isEmpty = true
    · cases stripEntries rest (.dict entries) <;> simp [hempty, Except.map, keepSection]
    · cases stripEntries rest (.dict entries) <;> simp [hempty, Except.map, keepSection]

theorem stripEntries_run {entries values : Ledger Key Datum} (hd : Ledger.Distinct values)
    (h : ∀ q ∈ values, ∃ left, Leaves entries q.1 q.2 left) :
    ∃ kept, stripEntries values (.dict entries) = .ok kept ∧ Ledger.Distinct kept ∧
      (∀ key value, Ledger.get? values key = some value → Leaves entries key value (Ledger.get? kept key)) ∧
      ∀ key, Ledger.get? values key = none → Ledger.get? kept key = none := by
  induction values with
  | nil => exact ⟨[], rfl, .nil, by simp, by simp⟩
  | cons p rest ih =>
    obtain ⟨hp, hrest⟩ := List.pairwise_cons.mp hd
    obtain ⟨left, hleft⟩ := h p (by simp)
    obtain ⟨kept, hrun, hkept, hleaves, hothers⟩ := ih hrest fun q hq => h q (List.mem_cons_of_mem _ hq)
    have hnone : Ledger.get? kept p.1 = none := by
      apply hothers
      rw [Ledger.get?_eq_none_iff_beq]
      exact fun q hq => BEq.symm_false (hp q hq)
    -- the keys are looked up where they stand in the tree
    have hget : ∀ key, Ledger.get? ((left.toList.map fun v => (p.1, v)) ++ kept) key =
        if p.1 == key then left else Ledger.get? kept key := by
      intro key
      cases left with
      | none =>
        by_cases hk : (p.1 == key) = true
        · simp [hk, ← Ledger.get?_congr kept hk, hnone]
        · simp [hk]
      | some v => simp [Ledger.get?_cons]
    refine ⟨_, by rw [stripEntries_cons hleft, hrun]; rfl, ?_, fun key value hvalue => ?_, fun key hkey => ?_⟩
    · cases left with
      | none => exact hkept
      | some v =>
        refine List.pairwise_cons.mpr ⟨fun q hq => ?_, hkept⟩
        exact BEq.symm_false (Ledger.get?_eq_none_iff_beq.mp hnone q hq)
    · rw [Ledger.get?_cons] at hvalue
      rw [hget]
      by_cases hk : (p.1 == key) = true
      · rw [if_pos hk, Option.some_inj] at hvalue
        rw [if_pos hk, ← hvalue]
        exact hleft.congr hk
      · rw [if_neg hk] at hvalue ⊢
        exact hleaves key value hvalue
    · rw [Ledger.get?_cons] at hkey
      rw [hget]
      by_cases hk : (p.1 == key) = true
      · rw [if_pos hk] at hkey
        cases hkey
      · rw [if_neg hk] at hkey ⊢
        exact hothers key hkey

/-! ## Filling in what was left out -/

section Restore
variable {entries inner values loaded : Ledger Key Datum} {key : Key} {entry default value : Datum}
  {left found : Option Datum}

theorem Leaves.eq_none (h : Leaves entries key value left) (hentry : Ledger.get? entries key = none) : left = none := by
  cases h with
  | unknown => rfl
  | leaf hentry' => rw [hentry] at hentry'; cases hentry'
  | nest hentry' => rw [hentry] at hentry'; cases hentry'

/-- A leaf that was left out gets its default, which it was equal to. -/
theorem Leaves.same_leaf (h : Leaves entries key value left) (hentry : Ledger.get? entries key = some entry)
    (hleaf : Declares entry default) (hfound : Option.Rel (fun x y => x.same y = true) left found) :
    value.same (found.getD default) = true := by
  cases h with
  | unknown hentry' =>
    rw [hentry] at hentry'
    cases hentry'
  | @leaf entry' default' hentry' hleaf' =>
    rw [hentry] at hentry'
    cases hentry'
    obtain rfl : default = default' := by
      have hdeclared := hleaf.declared
      rw [hleaf'.declared] at hdeclared
      cases hdeclared
      rfl
    by_cases hsame : value.same default = true
    · rw [if_pos hsame] at hfound
      cases hfound
      exact hsame
    · rw [if_neg hsame] at hfound
      cases hfound with
      | some hvalue => exact hvalue
  | nest hentry' hsection =>
    rw [hentry] at hentry'
    cases hentry'
    exact absurd hsection hleaf.leaf.not_section

/-- A section that was left out was empty, and is empty where it is made again. -/
theorem Leaves.same_section (h : Leaves entries key value left) (hentry : Ledger.get? entries key = some entry)
    (hsection : IsSection entry inner) (hfound : Option.Rel (fun x y => x.same y = true) left found) :
    ∃ kept, strip value (.dict inner) = .ok kept ∧ (Datum.dict kept).same (found.getD (.dict [])) = true := by
  cases h with
  | unknown hentry' =>
    rw [hentry] at hentry'
    cases hentry'
  | leaf hentry' hleaf =>
    rw [hentry] at hentry'
    cases hentry'
    exact absurd hsection hleaf.leaf.not_section
  | @nest entry' inner' kept hentry' hsection' hstrip =>
    rw [hentry] at hentry'
    cases hentry'
    obtain rfl := hsection.unique hsection'
    refine ⟨kept, hstrip, ?_⟩
    cases kept with
    | nil =>
      cases hfound
      rfl
    | cons p kept =>
      cases hfound with
      | some hsame => exact hsame

end Restore

/-- Filling the defaults into what is equal to the stripped tree restores the tree. -/
def Undone (entries : Ledger Key Datum) : Prop :=
  ∀ tree, Covers Declares entries tree → ∃ kept, strip tree (.dict entries) = .ok kept ∧ Ledger.Distinct kept ∧
    ∀ loaded, (Datum.dict kept).same loaded = true →
      ∃ filled changed, fill (.dict entries) loaded = (filled, .ok changed) ∧ Restores Declares entries tree filled

section Level
variable {entries values kept loaded : Ledger Key Datum} (hc : Covers Declares entries (.dict values))
  (kinds : ∀ q ∈ entries, (∃ default, Declares q.2 default) ∨ ∃ inner, IsSection q.2 inner)
  (ih : ∀ q ∈ entries, ∀ inner, IsSection q.2 inner → Undone inner)
include hc kinds ih

theorem exists_leaves (hvalues : Ledger.Distinct values) : ∀ q ∈ values, ∃ left, Leaves entries q.1 q.2 left := by
  intro q hq
  cases hentry : Ledger.get? entries q.1 with
  | none => exact ⟨_, .unknown hentry⟩
  | some entry =>
    obtain ⟨k, hmem, -⟩ := Ledger.exists_mem_of_get? hentry
    obtain ⟨default, hleaf⟩ | ⟨inner, hsection⟩ := kinds _ hmem
    · exact ⟨_, .leaf hentry hleaf⟩
    · obtain ⟨sub, hsub, hcovers⟩ := hc.within hentry hsection
      rw [hvalues.get?_of_mem hq, Option.some_inj] at hsub
      obtain ⟨kept, hstrip, -⟩ := ih _ hmem inner hsection sub hcovers
      exact ⟨_, .nest hentry hsection (hsub ▸ hstrip)⟩

theorem exists_settles (distinct : Ledger.Distinct entries)
    (hleaves : ∀ key value, Ledger.get? values key = some value → Leaves entries key value (Ledger.get? kept key))
    (hloaded : ∀ key, Option.Rel (fun x y => x.same y = true) (Ledger.get? kept key) (Ledger.get? loaded key)) :
    ∀ q ∈ entries, ∃ new, Settles q.2 (Ledger.get? loaded q.1) new ∧ ∃ old, Ledger.get? values q.1 = some old ∧
      (∀ default, Declares q.2 default → old.same new = true) ∧
      ∀ inner, IsSection q.2 inner → Restores Declares inner old new := by
  intro q hq
  have hentry := distinct.get?_of_mem hq
  obtain ⟨default, hleaf⟩ | ⟨inner, hsection⟩ := kinds q hq
  · obtain ⟨old, hold⟩ := hc.leaf hentry hleaf
    refine ⟨_, .leaf hleaf.leaf, old, hold, fun _ _ => ?_, fun inner hsection => ?_⟩
    · exact (hleaves q.1 old hold).same_leaf hentry hleaf (hloaded q.1)
    · exact absurd hsection hleaf.leaf.not_section
  · obtain ⟨old, hold, hcovers⟩ := hc.within hentry hsection
    obtain ⟨sub, hstrip, hsame⟩ := (hleaves q.1 old hold).same_section hentry hsection (hloaded q.1)
    obtain ⟨_, hstrip', -, hundo⟩ := ih q hq inner hsection old hcovers
    rw [hstrip] at hstrip'
    cases hstrip'
    obtain ⟨new, changed, hfill, hrestores⟩ := hundo _ hsame
    refine ⟨new, .nest hsection hfill, old, hold, fun default hleaf => ?_, fun inner' hsection' => ?_⟩
    · exact absurd hsection hleaf.leaf.not_section
    · rwa [← hsection.unique hsection']

end Level

theorem Scheme.undone {entries : Ledger Key Datum} (hs : Scheme Declares entries) : Undone entries := by
  induction hs with
  | @intro entries distinct kinds nested ih =>
    intro tree hc
    obtain ⟨values, rfl, hvalues⟩ := hc.dict
    obtain ⟨kept, hstrip, hkept, hleaves, hgone⟩ := stripEntries_run hvalues (exists_leaves hc kinds ih hvalues)
    refine ⟨kept, hstrip, hkept, fun d hsame => ?_⟩
    obtain ⟨loaded, rfl, hloaded⟩ := Datum.same_dict hkept hsame
    choose! new hnew hold using exists_settles hc kinds ih distinct hleaves hloaded
    obtain ⟨filled, changed, hfill, hfilled, hothers⟩ := fillEntries_run distinct hnew
    have hknown : ∀ {key entry}, Ledger.get? entries key = some entry → ∃ old new, Ledger.get? values key = some old ∧
        Ledger.get? filled key = some new ∧ (∀ default, Declares entry default → old.same new = true) ∧
        ∀ inner, IsSection entry inner → Restores Declares inner old new := by
      intro key entry hentry
      obtain ⟨k, hmem, hk⟩ := Ledger.exists_mem_of_get? hentry
      obtain ⟨old, hvalue, hrestored⟩ := hold _ hmem
      rw [Ledger.get?_congr values hk] at hvalue
      exact ⟨old, _, hvalue, Ledger.get?_congr filled hk ▸ hfilled _ hmem, hrestored⟩
    refine ⟨.dict filled, changed, by rw [fill, hfill], .intro ?_ ?_ fun key hkey => ?_⟩
    · intro key entry default hentry hleaf
      obtain ⟨old, new, hvalue, hnew, hsame, -⟩ := hknown hentry
      exact ⟨old, new, hvalue, hnew, hsame default hleaf⟩
    · intro key entry inner hentry hsection
      obtain ⟨old, new, hvalue, hnew, -, hrestores⟩ := hknown hentry
      exact ⟨old, new, hvalue, hnew, hrestores inner hsection⟩
    · -- a key that the schema does not know was left out and is not filled in
      cases hentry : Ledger.get? entries key with
      | some entry => simp [Ledger.has, hentry]
      | none =>
        have hnone : Ledger.get? kept key = none := by
          cases hvalue : Ledger.get? values key with
          | none => exact hgone key hvalue
          | some value => exact (hleaves key value hvalue).eq_none hentry
        have hrel := hloaded key
        rw [hnone] at hrel
        rw [Ledger.has, hothers key hentry] at hkey
        cases hloaded' : Ledger.get? loaded key with
        | none => rw [hloaded'] at hkey; cases hkey
        | some value => rw [hloaded'] at hrel; cases hrel

/-- Filling the defaults into what is equal to a complete tree changes nothing. -/
theorem Scheme.fill_same {entries : Ledger Key Datum} (hs : Scheme Declares entries) : ∀ tree,
    Covers Declares entries tree → ∀ loaded, tree.same loaded = true →
      ∃ changed, fill (.dict entries) loaded = (loaded, .ok changed) := by
  induction hs with
  | @intro entries distinct kinds nested ih =>
    intro tree hc d hsame
    obtain ⟨values, rfl, hvalues⟩ := hc.dict
    obtain ⟨loaded, rfl, hloaded⟩ := Datum.same_dict hvalues hsame
    have hfound : ∀ {key value}, Ledger.get? values key = some value →
        ∃ found, Ledger.get? loaded key = some found ∧ value.same found = true := by
      intro key value hvalue
      have hrel := hloaded key
      rw [hvalue] at hrel
      generalize Ledger.get? loaded key = found at hrel
      cases hrel with
      | some hsame => exact ⟨_, rfl, hsame⟩
    rw [fill]
    refine fillEntries_settled fun q hq => ?_
    have hentry := distinct.get?_of_mem hq
    obtain ⟨default, hleaf⟩ | ⟨inner, hsection⟩ := kinds q hq
    · obtain ⟨value, hvalue⟩ := hc.leaf hentry hleaf
      obtain ⟨found, hget, -⟩ := hfound hvalue
      exact ⟨found, hget, .leaf hleaf.leaf⟩
    · obtain ⟨sub, hsub, hcovers⟩ := hc.within hentry hsection
      obtain ⟨found, hget, hsame⟩ := hfound hsub
      obtain ⟨changed, hfill⟩ := ih q hq inner hsection sub hcovers found hsame
      exact ⟨found, hget, .nest hsection hfill⟩

end Settings

end Backprop
