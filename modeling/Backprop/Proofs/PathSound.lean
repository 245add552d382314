import Backprop.Proofs.SchemaSound
import Backprop.Proofs.TemporarySound
import Mathlib.Data.String.Basic

/-!
# Reading and writing by path

A path can be spelt as its keys or as one key with dots between them; both
spellings name the same keys. A value that has been set is the one that is
read, and no path is disturbed that neither leads there nor goes on from there.
Setting fails exactly where some part of the way is not a dictionary, and then
it leaves everything as it was. A variable stands above all of this: it is read
whatever is stored.
-/

namespace Backprop

/-! ## Splitting at dots -/

namespace Text
open String

theorem splitOnAux_dot (s : String) (b i : Pos.Raw) (r : List String) :
    splitOnAux s "." b i 0 r =
      if i.atEnd s = true then (b.extract s i :: r).reverse
      else if i.get s = '.' then
        splitOnAux s "." (i.next s) (i.next s) 0 (b.extract s ((i.next s).unoffsetBy ⟨1⟩) :: r)
      else splitOnAux s "." b (i.next s) 0 r := by
  have hget : Pos.Raw.get "." 0 = '.' := by decide
  have hnext : Pos.Raw.next "." 0 = ⟨1⟩ := by decide
  have hend : Pos.Raw.atEnd "." ⟨1⟩ = true := by decide
  have hstart : i.unoffsetBy 0 = i := by simp
  rw [splitOnAux, hget, hnext]
  simp only [hend, hstart, beq_iff_eq, if_true]

/-- The characters before the current piece, those of the piece read so far, and the rest. -/
theorem splitOnAux_dot_eq (l m rest : List Char) (r : List String) :
    splitOnAux (ofList (l ++ m ++ rest)) "." ⟨utf8Len l⟩ ⟨utf8Len (l ++ m)⟩ 0 r =
      r.reverse ++ ((rest.splitOn '.').modifyHead (m ++ ·)).map ofList := by
  induction rest generalizing l m r with
  | nil =>
    have hextract := extract_of_valid l m []
    rw [← utf8Len_append] at hextract
    rw [splitOnAux_dot, if_pos ((atEnd_of_valid (l ++ m) []).mpr rfl), hextract]
    simp
  | cons c rest ih =>
    have hextract := extract_of_valid l m (c :: rest)
    rw [← utf8Len_append] at hextract
    have hmore : ¬ Pos.Raw.atEnd (ofList (l ++ m ++ c :: rest)) ⟨utf8Len (l ++ m)⟩ = true := by
      rw [atEnd_of_valid]
      exact List.cons_ne_nil c rest
    have hnext : Pos.Raw.next (ofList (l ++ m ++ c :: rest)) ⟨utf8Len (l ++ m)⟩ = ⟨utf8Len (l ++ m ++ [c])⟩ := by
      rw [next_of_valid, utf8Len_append (l ++ m)]
      simp
    rw [splitOnAux_dot, if_neg hmore, get_of_valid, List.headD_cons, hnext, List.splitOn_cons_eq_if_modifyHead]
    by_cases hc : c = '.'
    · -- the piece ends: the next one begins after the dot
      subst hc
      have hback : Pos.Raw.unoffsetBy ⟨utf8Len (l ++ m ++ ['.'])⟩ ⟨1⟩ = ⟨utf8Len (l ++ m)⟩ := by
        rw [utf8Len_append (l ++ m)]
        simp [Pos.Raw.unoffsetBy, Char.utf8Size]
      have hrest := ih (l ++ m ++ ['.']) [] (ofList m :: r)
      rw [List.append_nil, List.append_assoc (l ++ m), List.singleton_append] at hrest
      rw [if_pos rfl, hback, hextract, hrest]
      cases rest.splitOn '.' <;> simp
    · have hrest := ih l (m ++ [c]) r
      rw [← List.append_assoc, List.append_assoc (l ++ m), List.singleton_append] at hrest
      rw [if_neg hc, hrest]
      simp [hc, Function.comp_def]

theorem splitOn_dot (s : String) : s.splitOn "." = (s.toList.splitOn '.').map ofList := by
  have h := splitOnAux_dot_eq [] [] s.toList []
  cases hs : s.toList.splitOn '.' <;> simpa [splitOn, hs] using h

theorem splitOn_dot_intercalate {keys : List String} (hne : keys ≠ []) (hplain : ∀ key ∈ keys, '.' ∉ key.toList) :
    (".".intercalate keys).splitOn "." = keys := by
  have hdot : ".".toList = ['.'] := by decide
  have hchars : ∀ chars ∈ keys.map String.toList, '.' ∉ chars := by simpa using hplain
  rw [splitOn_dot, toList_intercalate, hdot, List.splitOn_intercalate '.' hchars (by simpa using hne)]
  simp

end Text

/-! ## Spelling a path -/

namespace Settings
variable {keys path : List String}

structure Plain (keys : List String) : Prop where
  nonempty : keys ≠ []
  dotless : ∀ key ∈ keys, '.' ∉ key.toList

/-- A path is given by its keys or by one key with dots between them. -/
inductive Spells (keys : List String) : List String → Prop
  | whole : Spells keys keys
  | dotted : Spells keys [".".intercalate keys]

theorem Plain.keysOf_self (h : Plain keys) : keysOf keys = keys := by
  cases keys with
  | nil => exact absurd rfl h.nonempty
  | cons key rest =>
    cases rest with
    | nil => simpa [keysOf] using Text.splitOn_dot_intercalate h.nonempty h.dotless
    | cons next rest => rfl

theorem Plain.keysOf_eq (h : Plain keys) (hpath : Spells keys path) : keysOf path = keys := by
  cases hpath with
  | whole => exact h.keysOf_self
  | dotted => exact Text.splitOn_dot_intercalate h.nonempty h.dotless

end Settings

/-! ## Setting in a tree -/

namespace Datum
variable {d d' value : Datum} {key next : String} {keys other rest : List String}

theorem getPath_put_ne (entries : List (Key × Datum)) (sub : Datum) {key first : String} (h : key ≠ first)
    (rest : List String) :
    (dict (Ledger.put entries (.text key) sub)).getPath (first :: rest) = (dict entries).getPath (first :: rest) := by
  have hkeys : (Key.text key == Key.text first) = false := by simpa using h
  simp [getPath, index, Ledger.get?_put_of_beq_false entries sub hkeys]

/-- The two paths part at some key, and what is set lies on the other side. -/
theorem getPath_setPath_other (h : d.setPath keys value = .ok d') (hfront : ¬ keys <+: other) (hback : ¬ other <+: keys) :
    d'.getPath other = d.getPath other := by
  induction keys generalizing d d' other with
  | nil => exact absurd List.nil_prefix hfront
  | cons key rest ih =>
    cases other with
    | nil => exact absurd List.nil_prefix hback
    | cons first others =>
      rw [List.cons_prefix_cons] at hfront hback
      cases rest with
      | nil =>
        obtain ⟨entries, rfl, rfl⟩ := assign_text_ok h
        exact getPath_put_ne entries value (fun heq => hfront ⟨heq, List.nil_prefix⟩) others
      | cons next rest =>
        obtain ⟨entries, sub, sub', rfl, hsub, hset, rfl⟩ := setPath_cons_ok h
        by_cases heq : key = first
        · subst heq
          have hi : (dict entries).index key = .ok sub := by simp [index, hsub]
          rw [getPath, getPath, index_put, hi]
          exact ih hset (fun hp => hfront ⟨rfl, hp⟩) fun hp => hback ⟨rfl, hp⟩
        · exact getPath_put_ne entries sub' heq others

/-- Some part of the way to the last key does not lead to a dictionary. -/
def Blocked (d : Datum) (keys : List String) : Prop :=
  ∃ front, front <+: keys ∧ front ≠ keys ∧ ∀ entries, d.at? (front.map Key.text) ≠ some (.dict entries)

theorem blocked_of_not_dict (h : ∀ entries, d ≠ .dict entries) (key : String) (rest : List String) :
    d.Blocked (key :: rest) :=
  ⟨[], List.nil_prefix, by simp, by simpa using h⟩

theorem not_blocked_singleton (entries : List (Key × Datum)) (key : String) : ¬ (dict entries).Blocked [key] := by
  rintro ⟨front, hfront, hne, hdict⟩
  cases front with
  | nil => exact hdict entries (by simp)
  | cons first front =>
    obtain ⟨rfl, hrest⟩ := List.cons_prefix_cons.mp hfront
    exact hne (by rw [List.prefix_nil.mp hrest])

theorem blocked_cons_cons (entries : List (Key × Datum)) :
    (dict entries).Blocked (key :: next :: rest) ↔
      ∀ sub, Ledger.get? entries (.text key) = some sub → sub.Blocked (next :: rest) := by
  constructor
  · rintro ⟨front, hfront, hne, hdict⟩ sub hsub
    cases front with
    | nil => exact absurd (by simp) (hdict entries)
    | cons first front =>
      obtain ⟨rfl, hrest⟩ := List.cons_prefix_cons.mp hfront
      refine ⟨front, hrest, fun heq => hne (by rw [heq]), ?_⟩
      simpa [hsub] using hdict
  · intro h
    cases hsub : Ledger.get? entries (.text key) with
    | none => exact ⟨[key], by simp, by simp, by simp [hsub]⟩
    | some sub =>
      obtain ⟨front, hfront, hne, hdict⟩ := h sub hsub
      exact ⟨key :: front, List.cons_prefix_cons.mpr ⟨rfl, hfront⟩, by simpa using hne, by simpa [hsub] using hdict⟩

theorem setPath_error_iff (hne : keys ≠ []) : (∃ e, d.setPath keys value = .error e) ↔ d.Blocked keys := by
  induction keys generalizing d with
  | nil => exact absurd rfl hne
  | cons key rest ih =>
    by_cases hd : ∃ entries, d = .dict entries
    · obtain ⟨entries, rfl⟩ := hd
      cases rest with
      | nil => simp [setPath, assign, not_blocked_singleton]
      | cons next rest =>
        rw [blocked_cons_cons]
        cases hsub : Ledger.get? entries (.text key) with
        | none => simp [setPath, index, hsub]
        | some sub =>
          have hinner := ih (d := sub) (by simp)
          cases hset : sub.setPath (next :: rest) value with
          | error e => simpa [setPath, index, hsub, hset] using hinner
          | ok sub' => simpa [setPath, index, hsub, hset, assign] using hinner
    · have hother : ∀ entries, d ≠ .dict entries := fun entries heq => hd ⟨entries, heq⟩
      refine iff_of_true ?_ (blocked_of_not_dict hother key rest)
      cases hset : d.setPath (key :: rest) value with
      | error e => exact ⟨e, rfl⟩
      | ok d' =>
        cases rest with
        | nil =>
          obtain ⟨entries, heq, -⟩ := assign_text_ok hset
          exact absurd heq (hother entries)
        | cons next rest =>
          obtain ⟨entries, -, -, heq, -⟩ := setPath_cons_ok hset
          exact absurd heq (hother entries)

end Datum

/-! ## Reading what was set -/

namespace Configure
variable {p p' : Profile} {value : Datum} {path : List String} {done : Bool}

/-- Setting changes the tree or fails, and nothing else. -/
theorem set_cases (path : List String) (value : Datum) (p : Profile) :
    (∃ stored, p.settings.stored.setPath (Settings.keysOf path) value = .ok stored ∧
      set path value false p = .ok true (withStored p stored)) ∨
    ∃ e, p.settings.stored.setPath (Settings.keysOf path) value = .error e ∧ set path value false p = .error e p := by
  cases h : p.settings.stored.setPath (Settings.keysOf path) value with
  | ok stored => exact .inl ⟨stored, rfl, set_ok h false⟩
  | error e => exact .inr ⟨e, rfl, set_error h false⟩

theorem set_eq_ok (h : set path value false p = .ok done p') :
    ∃ stored, p.settings.stored.setPath (Settings.keysOf path) value = .ok stored ∧ p' = withStored p stored := by
  rcases set_cases path value p with ⟨stored, hset, hrun⟩ | ⟨e, -, hrun⟩
  · rw [hrun] at h
    cases h
    exact ⟨stored, hset, rfl⟩
  · rw [hrun] at h
    cases h

theorem set_error_iff : (∃ e q, set path value false p = .error e q) ↔
    ∃ e, p.settings.stored.setPath (Settings.keysOf path) value = .error e := by
  rcases set_cases path value p with ⟨stored, hset, hrun⟩ | ⟨e, hset, hrun⟩
  · simp [hset, hrun]
  · simp [hset, hrun]

theorem eq_of_set_error {e : Fault} (h : set path value false p = .error e p') : p' = p := by
  rcases set_cases path value p with ⟨stored, -, hrun⟩ | ⟨e, -, hrun⟩
  · rw [hrun] at h
    cases h
  · rw [hrun] at h
    cases h
    rfl

theorem env_after_set (path : List String) (value : Datum) (p : Profile) :
    ((set path value false).after p).env = p.env := by
  rcases set_cases path value p with ⟨stored, -, hrun⟩ | ⟨e, -, hrun⟩ <;> simp [after, hrun, withStored]

end Configure

namespace Profile
variable {p : Profile} {path : List String}

theorem get_of_variable {text : String}
    (h : Ledger.get? p.env (Settings.variableFor (Settings.keysOf path)) = some text) :
    p.get path = .ok (.text text) := by
  simp [get, Settings.get, h]

theorem get_of_no_variable (h : Ledger.get? p.env (Settings.variableFor (Settings.keysOf path)) = none) :
    p.get path = p.settings.stored.getPath (Settings.keysOf path) := by
  simp [get, Settings.get, h]

/-- What is read at a path depends on its keys only. -/
theorem get_congr {path' : List String} (h : Settings.keysOf path' = Settings.keysOf path) :
    p.get path' = p.get path := by
  simp [get, Settings.get, h]

theorem get_withStored {stored : Datum}
    (h : stored.getPath (Settings.keysOf path) = p.settings.stored.getPath (Settings.keysOf path)) :
    (Configure.withStored p stored).get path = p.get path := by
  simp [get, Settings.get, Configure.withStored, h]

open Settings in
theorem accessors_lawful (p : Profile) (value : Datum) {keys other path path' : List String} (hkeys : Plain keys)
    (hother : Plain other) (hfront : ¬ keys <+: other) (hback : ¬ other <+: keys) (hpath : Spells keys path)
    (hpath' : Spells other path') :
    (∀ spelt, Spells keys spelt →
      p.get spelt = p.get path ∧ Configure.set spelt value false p = Configure.set path value false p) ∧
    (∀ done q, Configure.set path value false p = .ok done q →
      (Ledger.get? p.env (variableFor keys) = none → q.get path = .ok value) ∧ q.get path' = p.get path') ∧
    ((∃ e q, Configure.set path value false p = .error e q) ↔ p.settings.stored.Blocked keys) ∧
    (∀ e q, Configure.set path value false p = .error e q → q = p) ∧
    ∀ text, Ledger.get? p.env (variableFor keys) = some text → ∀ target given,
      ((Configure.set target given false).after p).get path = .ok (.text text) := by
  have hk : keysOf path = keys := hkeys.keysOf_eq hpath
  have ho : keysOf path' = other := hother.keysOf_eq hpath'
  refine ⟨fun spelt hspelt => ?_, fun done q hrun => ?_, ?_, fun e q => Configure.eq_of_set_error,
    fun text htext target given => ?_⟩
  · have hs : keysOf spelt = keysOf path := by rw [hk, hkeys.keysOf_eq hspelt]
    exact ⟨get_congr hs, by simp [Configure.set, Settings.set, hs]⟩
  · obtain ⟨stored, hset, rfl⟩ := Configure.set_eq_ok hrun
    refine ⟨fun hvar => ?_, get_withStored ?_⟩
    · rw [get_of_no_variable (by rw [hk]; exact hvar)]
      exact Datum.getPath_setPath hset
    · rw [hk] at hset
      rw [ho]
      exact Datum.getPath_setPath_other hset hfront hback
  · rw [Configure.set_error_iff, hk]
    exact Datum.setPath_error_iff hkeys.nonempty
  · refine get_of_variable ?_
    rw [Configure.env_after_set, hk]
    exact htext

/-- A section with two values, one of which a variable overrides, and a value that is no section. -/
def logging : Profile where
  settings := { stored := .dict [("log", .dict [("level", .int 1), ("file", .null)]), ("debug", .bool true)] }
  env := [("GRADPASS_log_file", "out")]

open Settings in
theorem accessors_lawful_logging :
    (∃ q, Configure.set ["log.level"] (.int 2) false logging = .ok true q ∧ q.get ["log", "level"] = .ok (.int 2) ∧
      q.get ["log.file"] = .ok (.text "out")) ∧
    ∃ e, Configure.set ["debug.level"] (.int 2) false logging = .error e logging := by
  have hlevel : Plain ["log", "level"] := ⟨by simp, by decide⟩
  have hfile : Plain ["log", "file"] := ⟨by simp, by decide⟩
  have hdebug : Plain ["debug", "level"] := ⟨by simp, by decide⟩
  have hrun : Configure.set ["log", "level"] (.int 2) false logging = .ok true (Configure.withStored logging
    (.dict [("log", .dict [("level", .int 2), ("file", .null)]), ("debug", .bool true)])) := rfl
  obtain ⟨hspelt, hset, -, -, -⟩ :=
    accessors_lawful logging (.int 2) hlevel hfile (by decide) (by decide) .whole .dotted
  obtain ⟨-, -, hfails, hkept, -⟩ :=
    accessors_lawful logging (.int 2) hdebug hfile (by decide) (by decide) .dotted .whole
  obtain ⟨hlevel', hfile'⟩ := hset _ _ hrun
  refine ⟨⟨_, (hspelt ["log.level"] .dotted).2.trans hrun, hlevel' rfl, hfile'.trans ?_⟩, ?_⟩
  · exact get_of_variable (by rw [hfile.keysOf_eq .dotted]; rfl)
  · obtain ⟨e, q, herror⟩ := hfails.mpr ⟨["debug"], by simp, by simp, by intro entries h; cases h⟩
    obtain rfl := hkept e q herror
    exact ⟨e, herror⟩

end Profile

end Backprop
