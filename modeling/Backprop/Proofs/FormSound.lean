import Backprop.Proofs.SchemaSound
import Backprop.Proofs.TemporarySound

/-!
# Trees of the form of a schema

Filling and stripping go through a tree along the sections of a schema and stop
where they cannot go on. Stripping asks for a dictionary wherever the tree has
a section (`Fits`). Filling asks for less: a text or a list may stand for a
section that has leaves only, if their names occur in it (`Admits`). A tree in
which filling has stopped is still one in which filling stops.
-/

namespace Backprop

namespace Settings

/-- The tree has a dictionary wherever it has a section of the schema. -/
inductive Fits : Ledger Key Datum → Datum → Prop
  | intro {entries values : Ledger Key Datum}
      (sections : ∀ q ∈ values, ∀ entry inner, Ledger.get? entries q.1 = some entry → IsSection entry inner →
        Fits inner q.2) : Fits entries (.dict values)

inductive Admits : Ledger Key Datum → Datum → Prop
  | dict {entries values : Ledger Key Datum}
      (sections : ∀ q ∈ entries, ∀ inner, IsSection q.2 inner → ∀ sub, Ledger.get? values q.1 = some sub →
        Admits inner sub) : Admits entries (.dict values)
  | other {entries : Ledger Key Datum} {tree : Datum} (hother : ∀ values, tree ≠ .dict values)
      (leaves : ∀ q ∈ entries, (∃ default, IsLeaf q.2 default) ∧ tree.contains q.1 = .ok true) : Admits entries tree

inductive Named : Ledger Key Datum → Prop
  | intro {entries : Ledger Key Datum} (names : ∀ q ∈ entries, ∃ name : String, q.1 = .text name)
      (nested : ∀ q ∈ entries, ∀ inner, IsSection q.2 inner → Named inner) : Named entries

theorem Scheme.mono {isLeaf isLeaf' : Datum → Datum → Prop} (himp : ∀ entry default, isLeaf entry default →
    isLeaf' entry default) {entries : Ledger Key Datum} (hs : Scheme isLeaf entries) : Scheme isLeaf' entries := by
  induction hs with
  | intro distinct kinds _ ih =>
    refine .intro distinct (fun q hq => ?_) ih
    exact (kinds q hq).imp_left fun hleaf => hleaf.imp (himp q.2)

theorem Scheme.leaves {entries : Ledger Key Datum} (hs : Scheme Declares entries) : Scheme IsLeaf entries :=
  hs.mono fun _ _ hleaf => hleaf.leaf

theorem Fits.nil (entries : Ledger Key Datum) : Fits entries (.dict []) := .intro (by simp)

theorem Admits.nil (entries : Ledger Key Datum) : Admits entries (.dict []) := .dict (by simp)

theorem Scheme.admits_of_fits {isLeaf : Datum → Datum → Prop} {entries : Ledger Key Datum} (hs : Scheme isLeaf entries)
    {tree : Datum} (h : Fits entries tree) : Admits entries tree := by
  induction hs generalizing tree with
  | intro distinct _ _ ih =>
    cases h with
    | intro sections =>
      refine .dict fun q hq inner hsection sub hsub => ih q hq inner hsection ?_
      obtain ⟨k, hmem, hk⟩ := Ledger.exists_mem_of_get? hsub
      refine sections _ hmem q.2 inner ?_ hsection
      rw [Ledger.get?_congr _ hk]
      exact distinct.get?_of_mem hq

/-! ## Filling stops -/

/-- The section under a key is one in which filling stops, leaving a tree behind. -/
inductive Stops (entry : Datum) (found : Option Datum) : Datum → Prop
  | intro {inner : Ledger Key Datum} {sub left : Datum} {e : Fault} (hsection : IsSection entry inner)
      (hfound : found = some sub) (hfill : fill (.dict inner) sub = (left, .error e)) : Stops entry found left

theorem fillEntry_stop {values : Ledger Key Datum} {key : Key} {entry left : Datum}
    (h : Stops entry (Ledger.get? values key) left) :
    ∃ e, fillEntry key entry (.dict values) = (.dict (Ledger.put values key left), .error e) := by
  cases h with
  | @intro inner sub left e hsection hfound hfill =>
    cases hsection with
    | intro htype hkind hrequired =>
      refine ⟨e, ?_⟩
      rw [fillEntry, htype]
      simp [hkind, openSection, Datum.contains, Ledger.has, hfound, Datum.index, fillRequired_eq hrequired, hfill,
        Filling.within, Datum.assign, Except.map]

/-- Filling stops at the first key at which it does, and leaves there what it has left of the section. -/
theorem fillEntries_stop {entries values : Ledger Key Datum} (hd : Ledger.Distinct entries)
    (h : ∀ q ∈ entries, (∃ value, Settles q.2 (Ledger.get? values q.1) value) ∨
      ∃ left, Stops q.2 (Ledger.get? values q.1) left)
    (hstops : ∃ q ∈ entries, ∃ left, Stops q.2 (Ledger.get? values q.1) left) :
    ∃ q ∈ entries, ∃ left, Stops q.2 (Ledger.get? values q.1) left ∧
      ∃ values' e, fillEntries entries (.dict values) = (.dict values', .error e) ∧
        Ledger.get? values' q.1 = some left := by
  induction entries generalizing values with
  | nil => simp at hstops
  | cons p rest ih =>
    obtain ⟨hp, hrest⟩ := List.pairwise_cons.mp hd
    by_cases hleft : ∃ left, Stops p.2 (Ledger.get? values p.1) left
    · obtain ⟨left, hleft⟩ := hleft
      obtain ⟨e, hrun⟩ := fillEntry_stop hleft
      refine ⟨p, by simp, left, hleft, _, e, ?_, Ledger.get?_put_self values p.1 left⟩
      rw [fillEntries, hrun]
      rfl
    · obtain ⟨value, hsettles⟩ := (h p (by simp)).resolve_right hleft
      obtain ⟨changed, hrun⟩ := fillEntry_run hsettles
      have hkept : ∀ q ∈ rest, Ledger.get? (Ledger.put values p.1 value) q.1 = Ledger.get? values q.1 :=
        fun q hq => Ledger.get?_put_of_beq_false values _ (hp q hq)
      have hrest' : ∀ q ∈ rest, (∃ value', Settles q.2 (Ledger.get? (Ledger.put values p.1 value) q.1) value') ∨
          ∃ left, Stops q.2 (Ledger.get? (Ledger.put values p.1 value) q.1) left := by
        intro q hq
        rw [hkept q hq]
        exact h q (List.mem_cons_of_mem _ hq)
      have hlater : ∃ q ∈ rest, ∃ left, Stops q.2 (Ledger.get? (Ledger.put values p.1 value) q.1) left := by
        obtain ⟨q, hq, hq'⟩ := hstops
        rcases List.mem_cons.mp hq with rfl | hq
        · exact absurd hq' hleft
        · exact ⟨q, hq, by rwa [hkept q hq]⟩
      obtain ⟨q, hq, left, hstop, values', e, hrun', hget⟩ := ih hrest hrest' hlater
      refine ⟨q, List.mem_cons_of_mem _ hq, left, by rwa [hkept q hq] at hstop, values', e, ?_, hget⟩
      rw [fillEntries, hrun]
      simp only [hrun']
      rfl

section Other
variable {tree : Datum} (hother : ∀ values, tree ≠ .dict values)
include hother

theorem assign_other (name : String) (value : Datum) : ∃ e, tree.assign name value = .error e := by
  cases h : tree.assign name value with
  | error e => exact ⟨e, rfl⟩
  | ok d =>
    obtain ⟨values, hvalues, -⟩ := Datum.assign_text_ok h
    exact absurd hvalues (hother values)

theorem index_other (name : String) : ∃ e, tree.index name = .error e := by
  cases tree with
  | dict values => exact absurd rfl (hother values)
  | _ => exact ⟨_, rfl⟩

theorem fillEntry_other {entry : Datum} (name : String)
    (hkind : (∃ default, IsLeaf entry default) ∨ ∃ inner, IsSection entry inner) :
    ((∃ default, IsLeaf entry default) ∧ tree.contains name = .ok true) ∧
        fillEntry name entry tree = (tree, .ok false) ∨
      ¬ ((∃ default, IsLeaf entry default) ∧ tree.contains name = .ok true) ∧
        ∃ e, fillEntry name entry tree = (tree, .error e) := by
  obtain ⟨default, hleaf⟩ | ⟨inner, hsection⟩ := hkind
  · have hkept := hleaf
    cases hleaf with
    | @intro fields type htype hkind =>
      obtain ⟨e, hassign⟩ := assign_other hother name (leafDefault fields type)
      cases hcontains : tree.contains name with
      | error e =>
        refine .inr ⟨by simp, e, ?_⟩
        simp [fillEntry, htype, hkind, fillLeaf, hcontains, Filling.fail]
      | ok present =>
        cases present with
        | true =>
          refine .inl ⟨⟨⟨_, hkept⟩, rfl⟩, ?_⟩
          simp [fillEntry, htype, hkind, fillLeaf, hcontains]
        | false =>
          refine .inr ⟨by simp, e, ?_⟩
          simp [fillEntry, htype, hkind, fillLeaf, hcontains, hassign, Filling.fail]
  · refine .inr ⟨fun h => ?_, ?_⟩
    · obtain ⟨⟨default, hleaf⟩, -⟩ := h
      exact hleaf.not_section hsection
    · cases hsection with
      | @intro fields inner type htype hkind hrequired =>
        obtain ⟨e, hassign⟩ := assign_other hother name (.dict [])
        obtain ⟨e', hindex⟩ := index_other hother name
        cases hcontains : tree.contains name with
        | error e => exact ⟨e, by simp [fillEntry, htype, hkind, openSection, hcontains, Filling.fail]⟩
        | ok present =>
          cases present with
          | true => exact ⟨e', by simp [fillEntry, htype, hkind, openSection, hcontains, hindex, Filling.fail]⟩
          | false => exact ⟨e, by simp [fillEntry, htype, hkind, openSection, hcontains, hassign, Except.map, Filling.fail]⟩

/-- A tree that is no dictionary is left as it is, whether it names all leaves or not. -/
theorem fillEntries_other {entries : Ledger Key Datum} (names : ∀ q ∈ entries, ∃ name : String, q.1 = .text name)
    (kinds : ∀ q ∈ entries, (∃ default, IsLeaf q.2 default) ∨ ∃ inner, IsSection q.2 inner) :
    (∀ q ∈ entries, (∃ default, IsLeaf q.2 default) ∧ tree.contains q.1 = .ok true) ∧
        fillEntries entries tree = (tree, .ok false) ∨
      ¬ (∀ q ∈ entries, (∃ default, IsLeaf q.2 default) ∧ tree.contains q.1 = .ok true) ∧
        ∃ e, fillEntries entries tree = (tree, .error e) := by
  induction entries with
  | nil => exact .inl ⟨by simp, rfl⟩
  | cons p rest ih =>
    rw [List.forall_mem_cons] at names kinds
    obtain ⟨⟨name, hname⟩, names⟩ := names
    rw [List.forall_mem_cons, hname]
    rcases fillEntry_other hother name kinds.1 with ⟨hhead, hrun⟩ | ⟨hhead, e, hrun⟩
    · rcases ih names kinds.2 with ⟨hrest, hrun'⟩ | ⟨hrest, e, hrun'⟩
      · exact .inl ⟨⟨hhead, hrest⟩, by simp [fillEntries, hname, hrun, hrun', Except.map]⟩
      · exact .inr ⟨fun h => hrest h.2, e, by simp [fillEntries, hname, hrun, hrun', Except.map]⟩
    · exact .inr ⟨fun h => hhead h.1, e, by simp [fillEntries, hname, hrun, Filling.fail]⟩

end Other

/-- Filling goes through, or it stops with a tree in which it would stop again. -/
def FillingDecided (entries : Ledger Key Datum) : Prop :=
  ∀ tree, Admits entries tree ∧ (∃ filled changed, fill (.dict entries) tree = (filled, .ok changed) ∧
      Admits entries filled) ∨
    ¬ Admits entries tree ∧ ∃ left e, fill (.dict entries) tree = (left, .error e) ∧ ¬ Admits entries left

section Decided
variable {entry value left : Datum} {found : Option Datum}

theorem Settles.admits (ih : ∀ inner, IsSection entry inner → FillingDecided inner) (h : Settles entry found value)
    {inner : Ledger Key Datum} (hsection : IsSection entry inner) :
    Admits inner value ∧ ∀ sub, found = some sub → Admits inner sub := by
  cases h with
  | leaf hleaf => exact absurd hsection hleaf.not_section
  | nest hsection' hfill =>
    obtain rfl := hsection.unique hsection'
    obtain ⟨hfound, filled, changed, hfill', hfilled⟩ | ⟨-, left, e, hfill', -⟩ := ih inner hsection (found.getD (.dict []))
    · rw [hfill] at hfill'
      cases hfill'
      refine ⟨hfilled, fun sub hsub => ?_⟩
      simpa [hsub] using hfound
    · rw [hfill] at hfill'
      cases hfill'

theorem Stops.not_admits (ih : ∀ inner, IsSection entry inner → FillingDecided inner) (h : Stops entry found left) :
    ∃ inner sub, IsSection entry inner ∧ found = some sub ∧ ¬ Admits inner sub ∧ ¬ Admits inner left := by
  cases h with
  | @intro inner sub _ e hsection hfound hfill =>
    refine ⟨inner, sub, hsection, hfound, ?_⟩
    obtain ⟨-, filled, changed, hfill', -⟩ | ⟨hsub, left', e', hfill', hleft⟩ := ih inner hsection sub
    · rw [hfill] at hfill'
      cases hfill'
    · rw [hfill] at hfill'
      cases hfill'
      exact ⟨hsub, hleft⟩

theorem settles_or_stops (ih : ∀ inner, IsSection entry inner → FillingDecided inner)
    (hkind : (∃ default, IsLeaf entry default) ∨ ∃ inner, IsSection entry inner) (found : Option Datum) :
    (∃ value, Settles entry found value) ∨ ∃ left, Stops entry found left := by
  obtain ⟨default, hleaf⟩ | ⟨inner, hsection⟩ := hkind
  · exact .inl ⟨_, .leaf hleaf⟩
  · obtain ⟨-, filled, changed, hfill, -⟩ | ⟨hnot, left, e, hfill, -⟩ := ih inner hsection (found.getD (.dict []))
    · exact .inl ⟨filled, .nest hsection hfill⟩
    · cases found with
      | none => exact absurd (Admits.nil inner) hnot
      | some sub => exact .inr ⟨left, .intro hsection rfl hfill⟩

end Decided

theorem Scheme.filling_decided {entries : Ledger Key Datum} (hs : Scheme IsLeaf entries) (hn : Named entries) :
    FillingDecided entries := by
  induction hs with
  | @intro entries distinct kinds _ ih =>
    cases hn with
    | intro names nested =>
      have ih : ∀ q ∈ entries, ∀ inner, IsSection q.2 inner → FillingDecided inner :=
        fun q hq inner hsection => ih q hq inner hsection (nested q hq inner hsection)
      intro tree
      by_cases hother : ∀ values, tree ≠ .dict values
      · rw [fill]
        rcases fillEntries_other hother names kinds with ⟨hleaves, hrun⟩ | ⟨hleaves, e, hrun⟩
        · exact .inl ⟨.other hother hleaves, tree, false, hrun, .other hother hleaves⟩
        · have hnot : ¬ Admits entries tree := by
            intro h
            cases h with
            | dict => exact hother _ rfl
            | other _ leaves => exact hleaves leaves
          exact .inr ⟨hnot, tree, e, hrun, hnot⟩
      · push Not at hother
        obtain ⟨values, rfl⟩ := hother
        rw [fill]
        have hcases := fun q hq => settles_or_stops (ih q hq) (kinds q hq) (Ledger.get? values q.1)
        by_cases hstops : ∃ q ∈ entries, ∃ left, Stops q.2 (Ledger.get? values q.1) left
        · obtain ⟨q, hq, left, hstop, values', e, hrun, hget⟩ := fillEntries_stop distinct hcases hstops
          obtain ⟨inner, sub, hsection, hfound, hsub, hleft⟩ := hstop.not_admits (ih q hq)
          have hnot : ∀ {values sub}, Ledger.get? values q.1 = some sub → ¬ Admits inner sub →
              ¬ Admits entries (.dict values) := by
            intro values sub hfound hsub h
            cases h with
            | dict sections => exact hsub (sections q hq inner hsection sub hfound)
            | other hother => exact hother values rfl
          exact .inr ⟨hnot hfound hsub, .dict values', e, hrun, hnot hget hleft⟩
        · have hsettles : ∀ q ∈ entries, ∃ value, Settles q.2 (Ledger.get? values q.1) value := fun q hq =>
            (hcases q hq).resolve_right fun h => hstops ⟨q, hq, h⟩
          choose! settled hsettled using hsettles
          obtain ⟨values', changed, hrun, hvalues', -⟩ := fillEntries_run distinct hsettled
          refine .inl ⟨.dict fun q hq inner hsection sub hsub => ?_, .dict values', changed, hrun,
            .dict fun q hq inner hsection sub hsub => ?_⟩
          · exact ((hsettled q hq).admits (ih q hq) hsection).2 sub hsub
          · rw [hvalues' q hq, Option.some_inj] at hsub
            rw [← hsub]
            exact ((hsettled q hq).admits (ih q hq) hsection).1

/-! ## Trees that fit -/

section Fits
variable {entries : Ledger Key Datum}

theorem Fits.put {values : Ledger Key Datum} {key : Key} {value : Datum} (h : Fits entries (.dict values))
    (hvalue : ∀ entry inner, Ledger.get? entries key = some entry → IsSection entry inner → Fits inner value) :
    Fits entries (.dict (Ledger.put values key value)) := by
  cases h with
  | intro sections =>
    refine .intro fun q hq entry inner hentry hsection => ?_
    rcases Ledger.mem_put hq with hq | ⟨hkey, hq⟩
    · exact sections q hq entry inner hentry hsection
    · rw [Ledger.get?_congr entries hkey] at hentry
      rw [hq]
      exact hvalue entry inner hentry hsection

theorem Fits.get {values : Ledger Key Datum} {key : Key} {value entry : Datum} {inner : Ledger Key Datum}
    (h : Fits entries (.dict values)) (hvalue : Ledger.get? values key = some value)
    (hentry : Ledger.get? entries key = some entry) (hsection : IsSection entry inner) : Fits inner value := by
  cases h with
  | intro sections =>
    obtain ⟨k, hmem, hk⟩ := Ledger.exists_mem_of_get? hvalue
    rw [← Ledger.get?_congr entries hk] at hentry
    exact sections _ hmem entry inner hentry hsection

/-- Setting a value below a path keeps the form if the value fits the section that the path may lead to. -/
theorem Fits.setPath {tree tree' value : Datum} {path : List String} (h : Fits entries tree)
    (hset : tree.setPath path value = .ok tree')
    (hvalue : ∀ found, SectionAt entries (path.map Key.text) found → Fits found value) : Fits entries tree' := by
  induction path generalizing entries tree tree' with
  | nil => simp [Datum.setPath] at hset
  | cons key rest ih =>
    cases rest with
    | nil =>
      obtain ⟨values, rfl, rfl⟩ := Datum.assign_text_ok hset
      exact h.put fun entry inner hentry hsection => hvalue inner (.within hentry hsection (.here inner))
    | cons next rest =>
      obtain ⟨values, sub, sub', rfl, hsub, hset', rfl⟩ := Datum.setPath_cons_ok hset
      refine h.put fun entry inner hentry hsection => ih (h.get hsub hentry hsection) hset' fun found hfound => ?_
      exact hvalue found (.within hentry hsection hfound)

theorem fillEntries_fits {rest values : Ledger Key Datum}
    (hstep : ∀ q ∈ rest, ∀ values, Fits entries (.dict values) →
      ∃ values' changed, fillEntry q.1 q.2 (.dict values) = (.dict values', .ok changed) ∧ Fits entries (.dict values'))
    (h : Fits entries (.dict values)) :
    ∃ values' changed, fillEntries rest (.dict values) = (.dict values', .ok changed) ∧ Fits entries (.dict values') := by
  induction rest generalizing values with
  | nil => exact ⟨values, false, rfl, h⟩
  | cons p rest ih =>
    rw [List.forall_mem_cons] at hstep
    obtain ⟨values₁, changed₁, hrun₁, h₁⟩ := hstep.1 values h
    obtain ⟨values₂, changed₂, hrun₂, h₂⟩ := ih hstep.2 h₁
    exact ⟨values₂, changed₁ || changed₂, by simp [fillEntries, hrun₁, hrun₂, Except.map], h₂⟩

/-- Filling goes through a tree that fits, and what it gives fits. -/
theorem Scheme.fill_fits (hs : Scheme IsLeaf entries) {tree : Datum} (h : Fits entries tree) :
    ∃ filled changed, fill (.dict entries) tree = (filled, .ok changed) ∧ Fits entries filled := by
  induction hs generalizing tree with
  | @intro entries distinct kinds _ ih =>
    have hstep : ∀ q ∈ entries, ∀ values, Fits entries (.dict values) → ∃ values' changed,
        fillEntry q.1 q.2 (.dict values) = (.dict values', .ok changed) ∧ Fits entries (.dict values') := by
      intro q hq values hvalues
      have hentry := distinct.get?_of_mem hq
      obtain ⟨value, hsettles, hvalue⟩ : ∃ value, Settles q.2 (Ledger.get? values q.1) value ∧
          ∀ inner, IsSection q.2 inner → Fits inner value := by
        obtain ⟨default, hleaf⟩ | ⟨inner, hsection⟩ := kinds q hq
        · exact ⟨_, .leaf hleaf, fun inner hsection => absurd hsection hleaf.not_section⟩
        · have hfound : Fits inner ((Ledger.get? values q.1).getD (.dict [])) := by
            cases hget : Ledger.get? values q.1 with
            | none => exact Fits.nil inner
            | some sub => exact hvalues.get hget hentry hsection
          obtain ⟨filled, changed, hfill, hfilled⟩ := ih q hq inner hsection hfound
          exact ⟨filled, .nest hsection hfill, fun inner' hsection' => hsection.unique hsection' ▸ hfilled⟩
      obtain ⟨changed, hrun⟩ := fillEntry_run hsettles
      refine ⟨_, changed, hrun, hvalues.put fun entry inner hentry' hsection => ?_⟩
      rw [hentry, Option.some_inj] at hentry'
      exact hvalue inner (hentry' ▸ hsection)
    cases h with
    | intro sections =>
      obtain ⟨values', changed, hrun, hvalues'⟩ := fillEntries_fits hstep (.intro sections)
      exact ⟨.dict values', changed, by rw [fill, hrun], hvalues'⟩

theorem Leaves.strip_ok {key : Key} {value entry : Datum} {left : Option Datum} {inner : Ledger Key Datum}
    (h : Leaves entries key value left) (hentry : Ledger.get? entries key = some entry) (hsection : IsSection entry inner) :
    ∃ kept, strip value (.dict inner) = .ok kept := by
  cases h with
  | unknown hentry' =>
    rw [hentry] at hentry'
    cases hentry'
  | leaf hentry' hleaf =>
    rw [hentry] at hentry'
    cases hentry'
    exact absurd hsection hleaf.leaf.not_section
  | nest hentry' hsection' hstrip =>
    rw [hentry] at hentry'
    cases hentry'
    obtain rfl := hsection.unique hsection'
    exact ⟨_, hstrip⟩

/-- A key whose value cannot be stripped is one of a section. -/
theorem exists_leaves_or_error
    (kinds : ∀ q ∈ entries, (∃ default, Declares q.2 default) ∨ ∃ inner, IsSection q.2 inner) (key : Key)
    (value : Datum) :
    (∃ left, Leaves entries key value left) ∨ ∃ entry inner e, Ledger.get? entries key = some entry ∧
      IsSection entry inner ∧ strip value (.dict inner) = .error e := by
  cases hentry : Ledger.get? entries key with
  | none => exact .inl ⟨_, .unknown hentry⟩
  | some entry =>
    obtain ⟨k, hmem, -⟩ := Ledger.exists_mem_of_get? hentry
    obtain ⟨default, hleaf⟩ | ⟨inner, hsection⟩ := kinds _ hmem
    · exact .inl ⟨_, .leaf hentry hleaf⟩
    · cases hstrip : strip value (.dict inner) with
      | ok kept => exact .inl ⟨_, .nest hentry hsection hstrip⟩
      | error e => exact .inr ⟨entry, inner, e, rfl, hsection, hstrip⟩

theorem stripEntries_ok_iff (kinds : ∀ q ∈ entries, (∃ default, Declares q.2 default) ∨ ∃ inner, IsSection q.2 inner)
    (values : Ledger Key Datum) : (∃ kept, stripEntries values (.dict entries) = .ok kept) ↔
      ∀ q ∈ values, ∀ entry inner, Ledger.get? entries q.1 = some entry → IsSection entry inner →
        ∃ kept, strip q.2 (.dict inner) = .ok kept := by
  induction values with
  | nil => simp [stripEntries]
  | cons p rest ih =>
    rw [List.forall_mem_cons, ← ih]
    rcases exists_leaves_or_error kinds p.1 p.2 with ⟨left, hleft⟩ | ⟨entry, inner, e, hentry, hsection, hstrip⟩
    · rw [stripEntries_cons hleft]
      have hhead : ∀ entry inner, Ledger.get? entries p.1 = some entry → IsSection entry inner →
          ∃ kept, strip p.2 (.dict inner) = .ok kept := fun _ _ => hleft.strip_ok
      cases hrest : stripEntries rest (.dict entries) with
      | ok kept => simpa [Except.map] using hhead
      | error e => simp [Except.map]
    · have herror : stripEntries (p :: rest) (.dict entries) = .error e := by
        rw [stripEntries, judgeKey_eq hentry, judge_section hsection]
        simp [hstrip]
      constructor
      · intro h
        simp [herror] at h
      · intro h
        obtain ⟨kept, hkept⟩ := h.1 entry inner hentry hsection
        rw [hstrip] at hkept
        cases hkept

/-- Stripping goes through exactly the trees that fit. -/
theorem Scheme.strip_ok_iff (hs : Scheme Declares entries) {tree : Datum} :
    (∃ kept, strip tree (.dict entries) = .ok kept) ↔ Fits entries tree := by
  induction hs generalizing tree with
  | @intro entries distinct kinds _ ih =>
    cases tree with
    | dict values =>
      rw [strip, stripEntries_ok_iff kinds]
      constructor
      · intro h
        refine .intro fun q hq entry inner hentry hsection => ?_
        obtain ⟨k, hmem, -⟩ := Ledger.exists_mem_of_get? hentry
        exact (ih _ hmem inner hsection).mp (h q hq entry inner hentry hsection)
      · intro h q hq entry inner hentry hsection
        obtain ⟨k, hmem, -⟩ := Ledger.exists_mem_of_get? hentry
        cases h with
        | intro sections => exact (ih _ hmem inner hsection).mpr (sections q hq entry inner hentry hsection)
    | _ =>
      simp only [strip]
      constructor
      · simp
      · intro h
        cases h

end Fits

end Settings

end Backprop
