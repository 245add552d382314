import Backprop.Settings.Profile

/-!
# Settings that are undone

A script reads settings, sets them for the time of a block, and isolates blocks
in which it may set them for good. It may fail anywhere and may go on after a
failure. What a script leaves behind is what it has found, with one exception:
a block puts back the value that was read when it was entered, so if a variable
overrides the setting, then the text of the variable is what gets stored.

Scripts set single values and no sections. A section is handed out and stored
as it is, not as a copy, so a script that has got hold of one and sets it again
could change what a block is going to put back, even from an isolated block.
-/

namespace Backprop

/-! ## Setting a value and setting it back -/

theorem Ledger.put_put_of_get? {κ β : Type} [BEq κ] [ReflBEq κ] {l : Ledger κ β} {key : κ} {old : β} (value : β)
    (h : get? l key = some old) : put (put l key value) key old = l := by
  rw [put_put, put_of_get? h]

namespace Datum
variable {d d' old value : Datum} {key : String} {keys : List String}

theorem assign_text_ok (h : d.assign key value = .ok d') :
    ∃ entries, d = .dict entries ∧ d' = .dict (Ledger.put entries (.text key) value) := by
  cases d <;> simp [assign, position?] at h
  exact ⟨_, rfl, h.symm⟩

theorem index_dict_ok {entries : List (Key × Datum)} (h : (dict entries).index key = .ok d) :
    Ledger.get? entries (.text key) = some d := by
  unfold index at h
  cases hg : Ledger.get? entries (.text key) with
  | none => simp [hg] at h
  | some v => simpa [hg] using h

theorem index_put (entries : List (Key × Datum)) (key : String) (value : Datum) :
    (dict (Ledger.put entries (.text key) value)).index key = .ok value := by
  simp [index]

theorem setPath_cons_ok {next : String} (h : d.setPath (key :: next :: keys) value = .ok d') :
    ∃ entries sub sub', d = .dict entries ∧ Ledger.get? entries (.text key) = some sub ∧
      sub.setPath (next :: keys) value = .ok sub' ∧ d' = .dict (Ledger.put entries (.text key) sub') := by
  unfold setPath at h
  cases hi : d.index key with
  | error e => simp [hi] at h
  | ok sub =>
    cases hs : sub.setPath (next :: keys) value with
    | error e => simp [hi, hs] at h
    | ok sub' =>
      simp only [hi, hs] at h
      obtain ⟨entries, rfl, rfl⟩ := assign_text_ok h
      exact ⟨entries, sub, sub', rfl, index_dict_ok hi, hs, rfl⟩

theorem setPath_again (h : d.setPath keys value = .ok d') (other : Datum) : ∃ e, d'.setPath keys other = .ok e := by
  induction keys generalizing d d' with
  | nil => simp [setPath] at h
  | cons key rest ih =>
    cases rest with
    | nil =>
      obtain ⟨entries, rfl, rfl⟩ := assign_text_ok h
      simp [setPath, assign]
    | cons next rest =>
      obtain ⟨entries, sub, sub', rfl, -, hs, rfl⟩ := setPath_cons_ok h
      obtain ⟨e, he⟩ := ih hs
      simp [setPath, index_put, he, assign]

theorem getPath_setPath (h : d.setPath keys value = .ok d') : d'.getPath keys = .ok value := by
  induction keys generalizing d d' with
  | nil => simp [setPath] at h
  | cons key rest ih =>
    cases rest with
    | nil =>
      obtain ⟨entries, rfl, rfl⟩ := assign_text_ok h
      simp [getPath, index_put]
    | cons next rest =>
      obtain ⟨entries, sub, sub', rfl, -, hs, rfl⟩ := setPath_cons_ok h
      rw [getPath, index_put]
      exact ih hs

/-- The sections on the way are put back in the places where they stood. -/
theorem setPath_getPath (hget : d.getPath keys = .ok old) (hset : d.setPath keys value = .ok d') :
    d'.setPath keys old = .ok d := by
  induction keys generalizing d d' with
  | nil => simp [setPath] at hset
  | cons key rest ih =>
    cases rest with
    | nil =>
      obtain ⟨entries, rfl, rfl⟩ := assign_text_ok hset
      cases hi : (dict entries).index key with
      | error e => simp [getPath, hi] at hget
      | ok sub =>
        obtain rfl : sub = old := by simpa [getPath, hi] using hget
        simp [setPath, assign, Ledger.put_put_of_get? value (index_dict_ok hi)]
    | cons next rest =>
      obtain ⟨entries, sub, sub', rfl, hsub, hs, rfl⟩ := setPath_cons_ok hset
      have hi : (dict entries).index key = .ok sub := by simp [index, hsub]
      rw [getPath, hi] at hget
      simp [setPath, index_put, ih hget hs, assign, Ledger.put_put_of_get? sub' hsub]

end Datum

/-! ## What an action leaves behind -/

namespace Configure
variable {α β : Type} {p p₁ : Profile} {path : List String} {value old d : Datum}

@[simp] theorem run_pure (a : α) : (pure a : Configure α) p = .ok a p := rfl

@[simp] theorem run_throw (e : Fault) : (throw e : Configure α) p = .error e p := rfl

@[simp] theorem run_get : (get : Configure Profile) p = .ok p p := rfl

@[simp] theorem run_bind (x : Configure α) (f : α → Configure β) : (x >>= f) p = EStateM.bind x f p := rfl

@[simp] theorem run_map (f : α → β) (x : Configure α) : (f <$> x) p = EStateM.map f x p := rfl

@[simp] theorem run_ofExcept_ok (a : α) : ofExcept (.ok a) p = .ok a p := rfl

@[simp] theorem run_ofExcept_error (e : Fault) : (ofExcept (.error e) : Configure α) p = .error e p := rfl

@[simp] theorem run_modifySettings (f : Settings → Settings) :
    modifySettings f p = .ok () { p with settings := f p.settings } := rfl

def after (x : Configure α) (p : Profile) : Profile :=
  match x p with
  | .ok _ p => p
  | .error _ p => p

theorem after_bind_cases (x : Configure α) (f : α → Configure β) (p : Profile) :
    (x >>= f).after p = x.after p ∨ ∃ a, x p = .ok a (x.after p) ∧ (x >>= f).after p = (f a).after (x.after p) := by
  cases h : x p with
  | ok a p₁ => simp [after, EStateM.bind, h]
  | error e p₁ => simp [after, EStateM.bind, h]

theorem after_tryCatch_cases (x : Configure α) (handler : Fault → Configure α) (p : Profile) :
    (tryCatch x handler).after p = x.after p ∨ ∃ e, (tryCatch x handler).after p = (handler e).after (x.after p) := by
  show after (EStateM.tryCatch x handler) p = _ ∨ ∃ e, after (EStateM.tryCatch x handler) p = _
  delta EStateM.tryCatch
  cases h : x p with
  | ok a p₁ => exact .inl (by simp [after, h])
  | error e p₁ => exact .inr ⟨e, by simp [after, h, EStateM.Backtrackable.restore, EStateM.dummyRestore]⟩

def withStored (p : Profile) (stored : Datum) : Profile := { p with settings := { p.settings with stored } }

theorem set_ok (h : p.settings.stored.setPath (Settings.keysOf path) value = .ok d) (autosave : Bool) :
    set path value autosave p =
      (if autosave = true then save none false else pure true : Configure Bool) (withStored p d) := by
  simp [set, Settings.set, h, EStateM.bind, Except.map, withStored]

theorem set_error {e : Fault} (h : p.settings.stored.setPath (Settings.keysOf path) value = .error e) (autosave : Bool) :
    set path value autosave p = .error e p := by
  simp [set, Settings.set, h, EStateM.bind, Except.map]

theorem after_restore (h : p.settings.stored.setPath (Settings.keysOf path) old = .ok d) :
    (restore path old).after p = withStored p d := by
  simp [after, restore, set_ok h false, EStateM.bind]

/-- Entering a block changes nothing or sets one value, and returns what was read. -/
theorem override_cases (path : List String) (value : Datum) (p : Profile) :
    (∃ e, override path value p = .error e p) ∨
    ∃ old d, p.get path = .ok old ∧ p.settings.stored.setPath (Settings.keysOf path) value = .ok d ∧
      override path value p = .ok old (withStored p d) := by
  cases hget : p.get path with
  | error e =>
    exact .inl ⟨e, by simp [override, hget, EStateM.bind]⟩
  | ok old =>
    cases hset : p.settings.stored.setPath (Settings.keysOf path) value with
    | error e =>
      exact .inl ⟨e, by simp [override, hget, set_error hset, EStateM.bind, EStateM.map]⟩
    | ok d =>
      exact .inr ⟨old, d, rfl, rfl, by simp [override, hget, set_ok hset false, EStateM.bind, EStateM.map]⟩

theorem after_tryFinally (x : Configure α) (cleanup : Configure Unit) (p : Profile) :
    (tryFinally x cleanup).after p = cleanup.after (x.after p) := by
  unfold after
  cases hx : x p with
  | ok a p₁ => cases hc : cleanup p₁ <;> simp [tryFinally, tryFinally', hx, hc, Functor.map, EStateM.map]
  | error e p₁ => cases hc : cleanup p₁ <;> simp [tryFinally, tryFinally', hx, hc, Functor.map, EStateM.map]

theorem after_temporarily_ok (x : Configure α) (h : override path value p = .ok old p₁) :
    (temporarily path value x).after p = (restore path old).after (x.after p₁) := by
  rw [← after_tryFinally]
  simp [after, temporarily, EStateM.bind, liftM, monadLift, h]

theorem after_temporarily_error (x : Configure α) {e : Fault} (h : override path value p = .error e p₁) :
    (temporarily path value x).after p = p₁ := by
  simp [after, temporarily, EStateM.bind, liftM, monadLift, h]

theorem after_isolated (x : Configure α) (p : Profile) :
    (isolated x).after p = withStored (x.after p) p.settings.stored := by
  have hentered : (isolated x).after p = (tryFinally x (reinstate p.settings.stored : Configure Unit)).after p := by
    simp [after, isolated, stored, EStateM.bind, EStateM.map, liftM, monadLift]
  rw [hentered, after_tryFinally]
  rfl

/-! ## All but the stored values -/

structure SameFrame (p p' : Profile) : Prop where
  env : p'.env = p.env
  schema : p'.settings.schema = p.settings.schema
  file : p'.settings.file = p.settings.file
  format : p'.format = p.format

theorem SameFrame.trans {p₂ : Profile} (h : SameFrame p p₁) (h' : SameFrame p₁ p₂) : SameFrame p p₂ :=
  ⟨h'.env.trans h.env, h'.schema.trans h.schema, h'.file.trans h.file, h'.format.trans h.format⟩

theorem SameFrame.withStored_eq (h : SameFrame p p₁) : (withStored p₁ p.settings.stored).settings = p.settings := by
  simp [withStored, h.schema, h.file]

def KeepsFrame (x : Configure α) : Prop := ∀ p, SameFrame p (x.after p)

theorem KeepsFrame.pure (a : α) : KeepsFrame (pure a : Configure α) := fun _ => ⟨rfl, rfl, rfl, rfl⟩

theorem KeepsFrame.throw (e : Fault) : KeepsFrame (throw e : Configure α) := fun _ => ⟨rfl, rfl, rfl, rfl⟩

theorem KeepsFrame.get : KeepsFrame (get : Configure Profile) := fun _ => ⟨rfl, rfl, rfl, rfl⟩

theorem KeepsFrame.ofExcept (r : Except Fault α) : KeepsFrame (ofExcept r) := by
  cases r with
  | ok a => exact .pure a
  | error e => exact .throw e

theorem KeepsFrame.bind {x : Configure α} {f : α → Configure β} (hx : KeepsFrame x) (hf : ∀ a, KeepsFrame (f a)) :
    KeepsFrame (x >>= f) := by
  intro p
  rcases after_bind_cases x f p with h | ⟨a, -, h⟩
  · rw [h]; exact hx p
  · rw [h]; exact (hx p).trans (hf a _)

theorem KeepsFrame.tryCatch {x : Configure α} {handler : Fault → Configure α} (hx : KeepsFrame x)
    (hh : ∀ e, KeepsFrame (handler e)) : KeepsFrame (tryCatch x handler) := by
  intro p
  rcases after_tryCatch_cases x handler p with h | ⟨e, h⟩
  · rw [h]; exact hx p
  · rw [h]; exact (hx p).trans (hh e _)

theorem keepsFrame_save (file : Option String) (everything : Bool) : KeepsFrame (save file everything) := by
  have hwrite : ∀ name content, KeepsFrame (writeFile name content) := fun name content =>
    KeepsFrame.get.bind fun p => (KeepsFrame.ofExcept _).bind fun disk _ => ⟨rfl, rfl, rfl, rfl⟩
  refine KeepsFrame.get.bind fun p => ?_
  split
  · exact .pure false
  · exact (hwrite _ _).bind fun _ => (KeepsFrame.ofExcept _).bind fun d => (hwrite _ _).bind fun _ =>
      (KeepsFrame.ofExcept _).bind fun _ => .pure true

theorem keepsFrame_set (path : List String) (value : Datum) (autosave : Bool) : KeepsFrame (set path value autosave) := by
  intro p
  cases h : p.settings.stored.setPath (Settings.keysOf path) value with
  | error e =>
    unfold after
    rw [set_error h]
    exact ⟨rfl, rfl, rfl, rfl⟩
  | ok d =>
    have hset : SameFrame p (withStored p d) := ⟨rfl, rfl, rfl, rfl⟩
    unfold after
    rw [set_ok h]
    cases autosave with
    | true => exact hset.trans (keepsFrame_save none false _)
    | false => exact hset

theorem keepsFrame_temporarily {x : Configure α} (hx : KeepsFrame x) (path : List String) (value : Datum) :
    KeepsFrame (temporarily path value x) := by
  intro p
  rcases override_cases path value p with ⟨e, h⟩ | ⟨old, d, -, -, h⟩
  · rw [after_temporarily_error x h]
    exact ⟨rfl, rfl, rfl, rfl⟩
  · rw [after_temporarily_ok x h]
    have hentered : SameFrame p (withStored p d) := ⟨rfl, rfl, rfl, rfl⟩
    exact (hentered.trans (hx _)).trans ((keepsFrame_set path old false).bind (fun _ => .pure ()) _)

theorem keepsFrame_isolated {x : Configure α} (hx : KeepsFrame x) : KeepsFrame (isolated x) := by
  intro p
  rw [after_isolated]
  exact (hx p).trans ⟨rfl, rfl, rfl, rfl⟩

end Configure

/-! ## Scripts -/

def Datum.isSection : Datum → Bool
  | dict _ => true
  | _ => false

abbrev Single := { d : Datum // d.isSection = false }

/-- What may be done between entering a block and leaving it. -/
inductive Script where
  | done
  | fail (fault : Fault)
  | read (path : List String) (next : Datum → Script)
  | assign (path : List String) (value : Single) (autosave : Bool)
  | andThen (first second : Script)
  | attempt (body : Script) (handler : Fault → Script)
  | temporarily (path : List String) (value : Single) (body : Script)
  | isolated (body : Script)

namespace Script
open Configure

def run : Script → Configure Unit
  | done => pure ()
  | fail fault => throw fault
  | read path next => do
    let p ← get
    let d ← Configure.ofExcept (p.get path)
    (next d).run
  | assign path value autosave => do
    let _ ← set path value.1 autosave
  | andThen first second => do
    first.run
    second.run
  | attempt body handler => tryCatch body.run fun fault => (handler fault).run
  | temporarily path value body => Configure.temporarily path value.1 body.run
  | isolated body => Configure.isolated body.run

/-- Values are set for good in isolated blocks only. -/
def WellNested : Script → Prop
  | done => True
  | fail _ => True
  | read _ next => ∀ d, (next d).WellNested
  | assign _ _ _ => False
  | andThen first second => first.WellNested ∧ second.WellNested
  | attempt body handler => body.WellNested ∧ ∀ fault, (handler fault).WellNested
  | temporarily _ _ body => body.WellNested
  | isolated _ => True

/-- No variable overrides a setting that is set for the time of a block, isolated blocks apart. -/
def Unshadowed (env : Environment) : Script → Prop
  | done => True
  | fail _ => True
  | read _ next => ∀ d, (next d).Unshadowed env
  | assign _ _ _ => True
  | andThen first second => first.Unshadowed env ∧ second.Unshadowed env
  | attempt body handler => body.Unshadowed env ∧ ∀ fault, (handler fault).Unshadowed env
  | temporarily path _ body =>
    Ledger.get? env (Settings.variableFor (Settings.keysOf path)) = none ∧ body.Unshadowed env
  | isolated _ => True

theorem keepsFrame_run (s : Script) : KeepsFrame s.run := by
  induction s with
  | done => exact .pure ()
  | fail fault => exact .throw fault
  | read path next ih => exact KeepsFrame.get.bind fun p => (KeepsFrame.ofExcept _).bind ih
  | assign path value autosave => exact (keepsFrame_set path value.1 autosave).bind fun _ => .pure ()
  | andThen first second ih₁ ih₂ => exact ih₁.bind fun _ => ih₂
  | attempt body handler ihb ihh => exact ihb.tryCatch ihh
  | temporarily path value body ih => exact keepsFrame_temporarily ih path value.1
  | isolated body ih => exact keepsFrame_isolated ih

/-- One block: the value that was read when it was entered is put back over what the body has left unchanged. -/
theorem after_temporarily_run {s : Script} {p : Profile} {path : List String} {value : Single} {old d : Datum}
    (hentered : override path value.1 p = .ok old (withStored p d))
    (hset : p.settings.stored.setPath (Settings.keysOf path) value.1 = .ok d)
    (hbody : (s.run.after (withStored p d)).settings = (withStored p d).settings) :
    ∃ e, d.setPath (Settings.keysOf path) old = .ok e ∧
      ((Script.temporarily path value s).run.after p).settings = (withStored p e).settings := by
  obtain ⟨e, he⟩ := Datum.setPath_again hset old
  refine ⟨e, he, ?_⟩
  have hstored : (s.run.after (withStored p d)).settings.stored = d := by rw [hbody]; rfl
  rw [run, after_temporarily_ok _ hentered, after_restore (hstored ▸ he)]
  simp only [withStored] at hbody ⊢
  rw [hbody]

theorem settings_run {s : Script} {p : Profile} (hs : s.WellNested) (hu : s.Unshadowed p.env) :
    (s.run.after p).settings = p.settings := by
  induction s generalizing p with
  | done => rfl
  | fail fault => rfl
  | read path next ih =>
    cases h : p.get path with
    | error e => simp [run, after, EStateM.bind, h]
    | ok d =>
      have hnext : (read path next).run.after p = (next d).run.after p := by
        simp [run, after, EStateM.bind, h]
      rw [hnext]
      exact ih d (hs d) (hu d)
  | assign path value autosave => cases hs
  | andThen first second ih₁ ih₂ =>
    rw [run]
    rcases after_bind_cases first.run (fun _ => second.run) p with h | ⟨_, -, h⟩
    · rw [h]; exact ih₁ hs.1 hu.1
    · have hframe := (keepsFrame_run first p).env
      rw [h, ih₂ hs.2 (hframe ▸ hu.2), ih₁ hs.1 hu.1]
  | attempt body handler ihb ihh =>
    rw [run]
    rcases after_tryCatch_cases body.run (fun fault => (handler fault).run) p with h | ⟨fault, h⟩
    · rw [h]; exact ihb hs.1 hu.1
    · have hframe := (keepsFrame_run body p).env
      rw [h, ihh fault (hs.2 fault) (hframe ▸ hu.2 fault), ihb hs.1 hu.1]
  | temporarily path value body ih =>
    rcases override_cases path value.1 p with ⟨e, h⟩ | ⟨old, d, hget, hset, h⟩
    · rw [run, after_temporarily_error _ h]
    · obtain ⟨e, he, hafter⟩ := after_temporarily_run h hset (ih hs hu.2)
      have hold : p.settings.stored.getPath (Settings.keysOf path) = .ok old := by
        rw [← hget, Profile.get, Settings.get, hu.1]
      obtain rfl : p.settings.stored = e := by simpa [Datum.setPath_getPath hold hset] using he
      exact hafter
  | isolated body ih =>
    rw [run, after_isolated]
    exact (keepsFrame_run body p).withStored_eq

/-- A script that sets nothing for good outside isolated blocks leaves the settings as they were, however it ends, if
no variable overrides what it sets for a time. A block around it then does the same exactly if the value read when the
block is entered is the one that is stored. -/
theorem temporary_settings_undone (s : Script) (p : Profile) (hs : s.WellNested) (hu : s.Unshadowed p.env) :
    (s.run.after p).settings = p.settings ∧
    ∀ (path : List String) (value : Single) (old : Datum) (p₁ : Profile), override path value.1 p = .ok old p₁ →
      (((temporarily path value s).run.after p).settings = p.settings ↔
        p.settings.stored.getPath (Settings.keysOf path) = p.get path) := by
  refine ⟨settings_run hs hu, fun path value old p₁ hentered => ?_⟩
  rcases override_cases path value.1 p with ⟨e, h⟩ | ⟨old, d, hget, hset, h⟩
  · rw [h] at hentered; cases hentered
  · obtain ⟨e, he, hafter⟩ := after_temporarily_run h hset (settings_run (p := withStored p d) hs hu)
    rw [hafter, hget]
    constructor
    · intro hsame
      have hstored : e = p.settings.stored := congrArg Settings.stored hsame
      rw [← hstored]
      exact Datum.getPath_setPath he
    · intro hold
      obtain rfl : p.settings.stored = e := by simpa [Datum.setPath_getPath hold hset] using he
      rfl

def shadowed : Profile where
  settings := ({ schema := Settings.builtinSchema } : Settings).fillDefaults.1
  env := [("GRADPASS_autodiff_zero_op", "none")]

/-- A block with an isolated block in it, which fails. -/
def nested : Script :=
  .temporarily ["autodiff", "sum_op"] ⟨.text "plus", rfl⟩
    (.andThen
      (.isolated (.andThen (.assign ["autodiff", "seed_op"] ⟨.text "one", rfl⟩ false)
        (.temporarily ["autodiff", "zero_op"] ⟨.text "blank", rfl⟩ .done)))
      (.read ["autodiff", "seed_op"] fun d => .fail (.missingKey d.display)))

theorem temporary_settings_undone_nested :
    (nested.run.after shadowed).settings = shadowed.settings ∧
    ¬ ((temporarily ["autodiff", "zero_op"] ⟨.text "blank", rfl⟩ nested).run.after shadowed).settings = shadowed.settings := by
  have hs : nested.WellNested := ⟨trivial, fun _ => trivial⟩
  have hu : nested.Unshadowed shadowed.env := ⟨by decide +kernel, trivial, fun _ => trivial⟩
  obtain ⟨hundone, hblock⟩ := temporary_settings_undone nested shadowed hs hu
  refine ⟨hundone, fun hsame => ?_⟩
  have hentered : override ["autodiff", "zero_op"] (.text "blank") shadowed =
      .ok (.text "none") (after (override ["autodiff", "zero_op"] (.text "blank")) shadowed) := rfl
  have hread := (hblock _ ⟨_, rfl⟩ _ _ hentered).mp hsame
  have hstored : shadowed.settings.stored.getPath ["autodiff", "zero_op"] = .ok (.text "__zero__") := rfl
  have hget : shadowed.get ["autodiff", "zero_op"] = .ok (.text "none") := rfl
  rw [Settings.keysOf, hstored, hget] at hread
  · simp at hread
  · simp

/-- Leaving the block has stored the text of the variable. -/
theorem variable_gets_stored :
    shadowed.settings.nondefaults = .ok (.dict []) ∧
    ((temporarily ["autodiff", "zero_op"] ⟨.text "blank", rfl⟩ .done).run.after shadowed).settings.nondefaults =
      .ok (.dict [(.text "autodiff", .dict [(.text "zero_op", .text "none")])]) := by
  constructor
  · rfl
  · rfl

end Script

end Backprop
