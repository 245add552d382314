import Backprop.Proofs.FormSound
import Backprop.Proofs.RoundTripSound

/-!
# Loading and saving that fails

A file that cannot be read or is malformed leaves a profile as it was. If its
document has not the form of the schema then loading fails as well, but by then
the document has taken the place of the stored values. Likewise saving first
empties the file, and only then finds out that the stored values have lost the
form of the schema, or that they cannot be written. So all is well as long as
whatever is loaded or set has that form, and the format can write all of it.
-/

namespace Backprop

/-! ## The built-in schema -/

namespace Settings

theorem autodiff_leaves : ∀ q ∈ operatorNames ++ mirroring, ∃ default, Declares q.2 default := by
  have hstr : ∀ default title description, Declares (leaf "str" default title description) default :=
    declares_leaf (by decide)
  simp only [operatorNames, mirroring, List.cons_append, List.nil_append, List.forall_mem_cons]
  exact ⟨⟨_, hstr _ _ _⟩, ⟨_, hstr _ _ _⟩, ⟨_, hstr _ _ _⟩, ⟨_, hstr _ _ _⟩, ⟨_, hstr _ _ _⟩, by simp⟩

theorem builtin_scheme : Scheme Declares builtinEntries := by
  have hinner : Scheme Declares (operatorNames ++ mirroring) := by
    refine .intro (by unfold Ledger.Distinct; decide) (fun q hq => .inl (autodiff_leaves q hq)) ?_
    intro q hq inner hsection
    obtain ⟨default, hleaf⟩ := autodiff_leaves q hq
    exact absurd hsection hleaf.leaf.not_section
  exact (Scheme.nil.cons_section (by simp) (.intro rfl rfl rfl) hinner).cons_leaf (by decide)
    (declares_leaf (by decide) _ _ _)

theorem builtin_named : Named builtinEntries := by
  have hinner : Named (operatorNames ++ mirroring) := by
    refine .intro (by simp [operatorNames, mirroring]) fun q hq inner hsection => ?_
    obtain ⟨default, hleaf⟩ := autodiff_leaves q hq
    exact absurd hsection hleaf.leaf.not_section
  refine .intro (by simp [builtinEntries]) (List.forall_mem_cons.mpr ⟨fun inner hsection => ?_,
    List.forall_mem_cons.mpr ⟨fun inner hsection => ?_, by simp⟩⟩)
  · exact absurd hsection (declares_leaf (by decide) _ _ _).leaf.not_section
  · cases hsection with
    | intro _ _ hrequired =>
      cases hrequired
      exact hinner

end Settings

def Profile.beside (content : String) : Profile where
  settings := ({ schema := Settings.builtinSchema } : Settings).fillDefaults.1
  disk := Ledger.put [] "kept.conf" (.text content)

/-- A format that never gets beyond the first letters. -/
def Format.faltering : Format where
  read := Format.yaml.read
  write _ := ("debug", .error (.misuse .noMethod))

theorem Disk.takes_kept : Disk.Takes [] "kept.conf" ["kept.conf"] := by
  have hparts : Disk.parts "kept.conf" = ["kept.conf"] := by
    simp +decide [Disk.parts, String.splitOn, String.splitOnAux]
  refine ⟨by decide +kernel, ?_, .inl rfl⟩
  unfold Disk.locate
  rw [hparts]
  rfl

theorem Profile.beside_read (content : String) : (Profile.beside content).disk.read "kept.conf" =
    .ok (String.ofList (Disk.unifyLineEnds content.toList)) :=
  Disk.takes_kept.read_put content

theorem Profile.beside_fits (content : String) :
    Settings.Fits Settings.builtinEntries (Profile.beside content).settings.stored := by
  obtain ⟨filled, changed, hfill, hfilled⟩ :=
    Settings.builtin_scheme.leaves.fill_fits (Settings.Fits.nil Settings.builtinEntries)
  have hstored : (Profile.beside content).settings.stored = filled := congrArg Prod.fst hfill
  rw [hstored]
  exact hfilled

/-- The file is well-formed, but it is a single text. -/
theorem Profile.beside_document : (Profile.beside "hello").document (some "kept.conf") = .ok (.text "hello") := by
  have hparse : Yaml.parse (String.ofList (Disk.unifyLineEnds "hello".toList)) = some (.text "hello") := by
    have h : (Yaml.parse (String.ofList (Disk.unifyLineEnds "hello".toList))).any (Datum.same (.text "hello")) = true := by
      decide +kernel
    obtain ⟨d, hparse, hsame⟩ := (Option.any_eq_true _ _).mp h
    rw [hparse]
    cases d <;> simp_all [Datum.same]
  have hname : (Profile.beside "hello").chosenFile (some "kept.conf") = some "kept.conf" := by decide
  have hformat : (Profile.beside "hello").format.read = Yaml.parse := rfl
  simp only [Profile.document, hname, Profile.beside_read, hformat, hparse]
  rfl

/-- What is to be saved, if there is anything, can be written completely. -/
def Profile.Prints (p : Profile) (everything : Bool) : Prop :=
  ∀ d, Configure.content p.settings everything = .ok d → (p.format.write d).2 = .ok ()

namespace Configure
open Settings (Fits Admits Named Scheme Declares IsLeaf SectionAt fill)

variable {p p₁ p' : Profile} {file : Option String} {name : String} {place : List String} {d filled : Datum} {e : Fault}
  {entries : Ledger Key Datum}

/-! ## Loading -/

/-- Loading a document fills it, or fails with what filling has left of it in the place of the stored values. -/
theorem load_filled (hschema : p.settings.schema.index "required" = .ok (.dict entries)) (hs : Scheme IsLeaf entries)
    (hn : Named entries) (hd : p.document file = .ok d) :
    Admits entries d ∧ (∃ filled, load file p = .ok () (withStored p filled) ∧ Admits entries filled) ∨
      ¬ Admits entries d ∧ ∃ left e, fill (.dict entries) d = (left, .error e) ∧
        load file p = .error e (withStored p left) ∧ ¬ Admits entries left := by
  rw [load_of_document hd]
  rcases hs.filling_decided hn d with ⟨hadmits, filled, changed, hfill, hfilled⟩ | ⟨hnot, left, e, hfill, hleft⟩
  · exact .inl ⟨hadmits, filled, fillDefaults_run (p := withStored p d) hschema hfill, hfilled⟩
  · exact .inr ⟨hnot, left, e, hfill, fillDefaults_run (p := withStored p d) hschema hfill, hleft⟩

/-- Loading succeeds exactly if there is a document that the defaults can be filled into. If it fails then either there
is no document, and the profile is as it was, or what filling has left of the document is now stored. The latter is
never what was stored before, if the defaults could be filled into that. -/
theorem failed_load_keeps_settings_iff (hschema : p.settings.schema.index "required" = .ok (.dict entries))
    (hs : Scheme IsLeaf entries) (hn : Named entries) (file : Option String) :
    ((∃ p', load file p = .ok () p') ↔ ∃ d, p.document file = .ok d ∧ Admits entries d) ∧
    ∀ e p', load file p = .error e p' →
      (p.document file = .error e ∧ p' = p ∨
        ∃ d left, p.document file = .ok d ∧ fill (.dict entries) d = (left, .error e) ∧ p' = withStored p left) ∧
      (Admits entries p.settings.stored →
        (p'.settings.stored = p.settings.stored ↔ p.document file = .error e)) := by
  cases hdocument : p.document file with
  | error e =>
    rw [load_of_document_error hdocument]
    refine ⟨by simp, fun e' p' h => ?_⟩
    cases h
    exact ⟨.inl ⟨rfl, rfl⟩, fun _ => by simp⟩
  | ok d =>
    rcases load_filled hschema hs hn hdocument with ⟨hd, filled, hload, -⟩ | ⟨hd, left, e, hfill, hload, hleft⟩
    · rw [hload]
      exact ⟨by simpa using hd, fun e p' h => by cases h⟩
    · rw [hload]
      refine ⟨by simpa using hd, fun e' p' h => ?_⟩
      cases h
      refine ⟨.inr ⟨d, left, rfl, hfill, rfl⟩, fun hstored => ⟨fun hsame => ?_, fun h => by cases h⟩⟩
      have hsame : left = p.settings.stored := hsame
      exact absurd (hsame ▸ hstored) hleft

theorem not_admits_text (text : String) : ¬ Admits Settings.builtinEntries (.text text) := by
  intro h
  cases h with
  | other _ leaves =>
    obtain ⟨⟨default, hleaf⟩, -⟩ := leaves _ (.tail _ (.head _))
    exact hleaf.not_section (.intro rfl rfl rfl)

theorem failed_load_keeps_settings_iff_text :
    ∃ e p', load (some "kept.conf") (Profile.beside "hello") = .error e p' ∧
      ¬ p'.settings.stored = (Profile.beside "hello").settings.stored := by
  obtain ⟨hsucceeds, hfails⟩ := failed_load_keeps_settings_iff (p := Profile.beside "hello") rfl
    Settings.builtin_scheme.leaves Settings.builtin_named (some "kept.conf")
  rw [Profile.beside_document] at hsucceeds hfails
  cases hload : load (some "kept.conf") (Profile.beside "hello") with
  | ok u p' =>
    obtain ⟨d, hd, hadmits⟩ := hsucceeds.mp ⟨p', hload⟩
    cases hd
    exact absurd hadmits (not_admits_text "hello")
  | error e p' =>
    refine ⟨e, p', rfl, fun hsame => ?_⟩
    have hadmits := Settings.builtin_scheme.admits_of_fits (Profile.beside_fits "hello")
    cases ((hfails e p' hload).2 hadmits).mp hsame

/-- The text has taken the place of all settings. -/
theorem failed_load_replaces_settings :
    (Profile.beside "hello").settings.stored.getPath ["autodiff", "zero_op"] = .ok (.text "__zero__") ∧
    load (some "kept.conf") (Profile.beside "hello") =
      .error (.misuse .notAssignable) (withStored (Profile.beside "hello") (.text "hello")) := by
  refine ⟨rfl, ?_⟩
  rw [load_of_document Profile.beside_document]
  rfl

/-! ## Saving -/

theorem save_of_write_error (hname : p.chosenFile file = some name) (hwrite : p.disk.write name "" = .error e)
    (everything : Bool) : save file everything p = .error e p := by
  unfold save
  rw [bind_ok run_get]
  simp only [hname]
  simp [writeFile, EStateM.bind, hwrite]

theorem save_of_content_error (hname : p.chosenFile file = some name) (htakes : p.disk.Takes name place)
    {everything : Bool} (hcontent : content p.settings everything = .error e) :
    save file everything p =
      .error e { p with disk := Ledger.put p.disk (Disk.joined place) (.text "") } := by
  have hempty := writeFile_run (htakes.write "")
  unfold save
  rw [bind_ok run_get]
  simp only [hname]
  rw [bind_ok hempty, hcontent]
  rfl

theorem save_of_format_error (hname : p.chosenFile file = some name) (htakes : p.disk.Takes name place)
    {everything : Bool} (hcontent : content p.settings everything = .ok d) {text : String}
    (hwrite : p.format.write d = (text, .error e)) :
    save file everything p =
      .error e { p with disk := Ledger.put p.disk (Disk.joined place) (.text text) } := by
  have hempty := writeFile_run (htakes.write "")
  have hpart := writeFile_run (p := { p with disk := Ledger.put p.disk (Disk.joined place) (.text "") })
    ((htakes.put "").write text)
  rw [Ledger.put_put] at hpart
  unfold save
  rw [bind_ok run_get]
  simp only [hname]
  rw [bind_ok hempty, hcontent, bind_ok (run_ofExcept_ok d), hwrite, bind_ok hpart]
  rfl

/-- There is no file to save to, or it cannot be opened, or it is written, or it is emptied in vain, or only a part of
what it is to contain is written. -/
theorem save_cases (file : Option String) (everything : Bool) (p : Profile) :
    save file everything p = .ok false p ∨ (∃ e, save file everything p = .error e p) ∨
    ∃ name place, p.chosenFile file = some name ∧ p.disk.Takes name place ∧
      ((∃ text, save file everything p =
          .ok true { p with disk := Ledger.put p.disk (Disk.joined place) (.text text) }) ∨
        (∃ e, content p.settings everything = .error e ∧ save file everything p =
          .error e { p with disk := Ledger.put p.disk (Disk.joined place) (.text "") }) ∨
        ∃ d text e, content p.settings everything = .ok d ∧ p.format.write d = (text, .error e) ∧
          save file everything p = .error e { p with disk := Ledger.put p.disk (Disk.joined place) (.text text) }) := by
  cases hname : p.chosenFile file with
  | none =>
    refine .inl ?_
    unfold save
    rw [bind_ok run_get]
    simp [hname]
  | some name =>
    refine .inr ?_
    cases hwrite : p.disk.write name "" with
    | error e => exact .inl ⟨e, save_of_write_error hname hwrite everything⟩
    | ok disk =>
      obtain ⟨place, htakes⟩ := Disk.takes_of_write hwrite
      refine .inr ⟨name, place, rfl, htakes, ?_⟩
      cases hcontent : content p.settings everything with
      | error e => exact .inr (.inl ⟨e, rfl, save_of_content_error hname htakes hcontent⟩)
      | ok d =>
        cases hwrite : p.format.write d with
        | mk text result =>
          cases result with
          | ok u => exact .inl ⟨text, save_run hname htakes hcontent hwrite⟩
          | error e => exact .inr (.inr ⟨d, text, e, rfl, hwrite, save_of_format_error hname htakes hcontent hwrite⟩)

theorem settings_after_save (file : Option String) (everything : Bool) (p : Profile) :
    ((save file everything).after p).settings = p.settings := by
  unfold after
  rcases save_cases file everything p with
    h | ⟨e, h⟩ | ⟨name, place, -, -, ⟨text, h⟩ | ⟨e, -, h⟩ | ⟨d, text, e, -, -, h⟩⟩
  all_goals rw [h]

theorem save_error {everything : Bool} (hprints : p.Prints everything) (h : save file everything p = .error e p') :
    p' = p ∨ content p.settings everything = .error e := by
  rcases save_cases file everything p with
    h' | ⟨e, h'⟩ | ⟨name, place, -, -, ⟨text, h'⟩ | ⟨e, hcontent, h'⟩ | ⟨d, text, e, hcontent, hwrite, h'⟩⟩
  · rw [h'] at h; cases h
  · rw [h'] at h; cases h; exact .inl rfl
  · rw [h'] at h; cases h
  · rw [h'] at h; cases h; exact .inr hcontent
  · have hwritten := hprints d hcontent
    rw [hwrite] at hwritten
    cases hwritten

theorem nondefaults_ok_iff (hschema : p.settings.schema.index "required" = .ok (.dict entries))
    (hs : Scheme Declares entries) : (∃ d, p.settings.nondefaults = .ok d) ↔ Fits entries p.settings.stored := by
  rw [← hs.strip_ok_iff]
  unfold Settings.nondefaults
  rw [hschema]
  cases hstrip : Settings.strip p.settings.stored (.dict entries) with
  | ok kept => simp [bind, Except.bind, hstrip, pure, Except.pure]
  | error e => simp [bind, Except.bind, hstrip]

theorem save_error_of_fits (hschema : p.settings.schema.index "required" = .ok (.dict entries))
    (hs : Scheme Declares entries) (hfits : Fits entries p.settings.stored) {everything : Bool}
    (hprints : p.Prints everything) (h : save file everything p = .error e p') : p' = p := by
  rcases save_error hprints h with h | hcontent
  · exact h
  · cases everything with
    | true => cases hcontent
    | false =>
      obtain ⟨d, hd⟩ := (nondefaults_ok_iff hschema hs).mpr hfits
      rw [content, if_neg (by simp), hd] at hcontent
      cases hcontent

theorem save_unfit (hschema : p.settings.schema.index "required" = .ok (.dict entries)) (hs : Scheme Declares entries)
    (hname : p.chosenFile file = some name) (htakes : p.disk.Takes name place)
    (hnot : ¬ Fits entries p.settings.stored) :
    ∃ e, save file false p = .error e { p with disk := Ledger.put p.disk (Disk.joined place) (.text "") } := by
  cases hnondefaults : p.settings.nondefaults with
  | ok d => exact absurd ((nondefaults_ok_iff hschema hs).mp ⟨d, hnondefaults⟩) hnot
  | error e => exact ⟨e, save_of_content_error hname htakes hnondefaults⟩

theorem keepsFrame_fillDefaults : KeepsFrame fillDefaults := by
  intro p
  unfold after fillDefaults
  rw [bind_ok run_get]
  cases hschema : p.settings.schema.index "required" with
  | error e => simp only [Settings.fillDefaults, hschema]; exact ⟨rfl, rfl, rfl, rfl⟩
  | ok schema =>
    cases hfill : fill schema p.settings.stored with
    | mk filled result =>
      simp only [Settings.fillDefaults, hschema, hfill]
      cases result with
      | ok changed => exact ⟨rfl, rfl, rfl, rfl⟩
      | error e => exact ⟨rfl, rfl, rfl, rfl⟩

theorem keepsFrame_load (file : Option String) : KeepsFrame (load file) := by
  intro p
  cases hdocument : p.document file with
  | error e =>
    unfold after
    rw [load_of_document_error hdocument]
    exact ⟨rfl, rfl, rfl, rfl⟩
  | ok d =>
    have hinstalled : SameFrame p (withStored p d) := ⟨rfl, rfl, rfl, rfl⟩
    unfold after
    rw [load_of_document hdocument]
    exact hinstalled.trans (keepsFrame_fillDefaults _)

end Configure

/-! ## Settings that are set and loaded, and then saved -/

inductive Edit where
  | set (path : List String) (value : Datum) (autosave : Bool)
  | load (file : Option String)

namespace Edit
open Configure Settings

def run : Edit → Configure Unit
  | set path value autosave => do
    let _ ← Configure.set path value autosave
  | load file => Configure.load file

/-- Whatever comes in the place of a section, or of everything, has its form. -/
def Suits (entries : Ledger Key Datum) (p : Profile) : Edit → Prop
  | set path value _ => ∀ found, SectionAt entries ((keysOf path).map Key.text) found → Fits found value
  | load file => ∀ d, p.document file = .ok d → Fits entries d

theorem keepsFrame_run (edit : Edit) : KeepsFrame edit.run := by
  cases edit with
  | set path value autosave => exact (keepsFrame_set path value autosave).bind fun _ => .pure ()
  | load file => exact keepsFrame_load file

/-- The profiles that edits lead to, whether they succeed or not, if each one suits the schema. -/
inductive Edited (entries : Ledger Key Datum) (p : Profile) : Profile → Prop
  | none : Edited entries p p
  | step {p₁ : Profile} {edit : Edit} (before : Edited entries p p₁) (suits : edit.Suits entries p₁) :
      Edited entries p (edit.run.after p₁)

section Fits
variable {p p₁ : Profile} {entries : Ledger Key Datum}

theorem Suits.fits_after {edit : Edit} (hschema : p.settings.schema.index "required" = .ok (.dict entries))
    (hs : Scheme Declares entries) (hfits : Fits entries p.settings.stored) (hsuits : edit.Suits entries p) :
    Fits entries (edit.run.after p).settings.stored := by
  cases edit with
  | set path value autosave =>
    have hrun : (set path value autosave).run.after p = (Configure.set path value autosave).after p := by
      unfold after
      cases h : Configure.set path value autosave p <;> simp [run, EStateM.bind, h]
    rw [hrun]
    cases hset : p.settings.stored.setPath (keysOf path) value with
    | error e => simpa [after, set_error hset] using hfits
    | ok d =>
      have hd := hfits.setPath hset hsuits
      cases autosave with
      | false => simpa [after, set_ok hset, withStored] using hd
      | true =>
        have hsave : (Configure.set path value true).after p = (save none false).after (withStored p d) := by
          simp [after, set_ok hset]
        rw [hsave, settings_after_save]
        exact hd
  | load file =>
    cases hdocument : p.document file with
    | error e => simpa [after, run, load_of_document_error hdocument] using hfits
    | ok d =>
      obtain ⟨filled, changed, hfill, hfilled⟩ := hs.leaves.fill_fits (hsuits d hdocument)
      have hload := fillDefaults_run (p := withStored p d) hschema hfill
      unfold after
      rw [run, load_of_document hdocument, hload]
      exact hfilled

theorem Edited.sameFrame (h : Edited entries p p₁) : SameFrame p p₁ := by
  induction h with
  | none => exact ⟨rfl, rfl, rfl, rfl⟩
  | step _ _ ih => exact ih.trans (keepsFrame_run _ _)

theorem Edited.fits (hschema : p.settings.schema.index "required" = .ok (.dict entries)) (hs : Scheme Declares entries)
    (hfits : Fits entries p.settings.stored) (h : Edited entries p p₁) : Fits entries p₁.settings.stored := by
  induction h with
  | none => exact hfits
  | step before suits ih => exact suits.fits_after (before.sameFrame.schema ▸ hschema) hs ih

end Fits

/-- Whatever suitable edits have come before, saving that fails leaves everything as it was, and so does setting a
suitable value with the files, as long as what is saved can be written. But if the stored values have lost the form of
the schema, or lose it by what is set, then saving them empties a file that can be opened, and fails. And if they cannot
be written, then the file is left with the part that was. -/
theorem failed_save_keeps_files {p : Profile} {entries : Ledger Key Datum}
    (hschema : p.settings.schema.index "required" = .ok (.dict entries)) (hs : Scheme Declares entries) :
    (Fits entries p.settings.stored → ∀ p₁, Edited entries p p₁ →
      (∀ file everything e p₂, p₁.Prints everything → save file everything p₁ = .error e p₂ → p₂ = p₁) ∧
      ∀ path value autosave e p₂, (set path value autosave).Suits entries p₁ →
        (∀ d, p₁.settings.stored.setPath (keysOf path) value = .ok d → (withStored p₁ d).Prints false) →
        Configure.set path value autosave p₁ = .error e p₂ → p₂.disk = p₁.disk) ∧
    (∀ file e p₂, p.Prints true → save file true p = .error e p₂ → p₂ = p) ∧
    (∀ file name place, p.chosenFile file = some name → p.disk.Takes name place →
      (¬ Fits entries p.settings.stored →
        ∃ e, save file false p = .error e { p with disk := Ledger.put p.disk (Disk.joined place) (.text "") }) ∧
      ∀ everything d text e, content p.settings everything = .ok d → p.format.write d = (text, .error e) →
        save file everything p = .error e { p with disk := Ledger.put p.disk (Disk.joined place) (.text text) }) ∧
    ∀ path value d name place, p.settings.stored.setPath (keysOf path) value = .ok d →
      p.chosenFile none = some name → p.disk.Takes name place →
      (¬ Fits entries d → ∃ e, Configure.set path value true p =
        .error e { withStored p d with disk := Ledger.put p.disk (Disk.joined place) (.text "") }) ∧
      ∀ kept text e, (withStored p d).settings.nondefaults = .ok kept → p.format.write kept = (text, .error e) →
        Configure.set path value true p =
          .error e { withStored p d with disk := Ledger.put p.disk (Disk.joined place) (.text text) } := by
  refine ⟨fun hfits p₁ hedited => ?_, fun file e p₂ hprints h => ?_, fun file name place hname htakes => ?_, ?_⟩
  · have hschema₁ : p₁.settings.schema.index "required" = .ok (.dict entries) := hedited.sameFrame.schema ▸ hschema
    have hfits₁ := hedited.fits hschema hs hfits
    refine ⟨fun file everything e p₂ hprints h => save_error_of_fits hschema₁ hs hfits₁ hprints h, ?_⟩
    intro path value autosave e p₂ hsuits hprints h
    cases hset : p₁.settings.stored.setPath (keysOf path) value with
    | error e' =>
      rw [set_error hset] at h
      cases h
      rfl
    | ok d =>
      rw [set_ok hset] at h
      cases autosave with
      | false => cases h
      | true =>
        have hd := hfits₁.setPath hset hsuits
        rw [save_error_of_fits (p := withStored p₁ d) hschema₁ hs hd (hprints d hset) h]
        rfl
  · rcases save_error hprints h with h | hcontent
    · exact h
    · cases hcontent
  · refine ⟨save_unfit hschema hs hname htakes, fun everything d text e hcontent hwrite => ?_⟩
    exact save_of_format_error hname htakes hcontent hwrite
  · intro path value d name place hset hname htakes
    rw [set_ok hset]
    refine ⟨save_unfit (p := withStored p d) hschema hs hname htakes, fun kept text e hkept hwrite => ?_⟩
    have hname : (withStored p d).chosenFile none = some name := hname
    have hcontent : content (withStored p d).settings false = .ok kept := hkept
    exact save_of_format_error hname htakes hcontent hwrite

theorem suits_zero_op (value : Datum) (p : Profile) :
    (set ["autodiff", "zero_op"] value false).Suits builtinEntries p := by
  intro found h
  cases h with
  | within hentry hsection hpath =>
    cases hentry
    cases hsection with
    | intro _ _ hrequired =>
      cases hrequired
      cases hpath with
      | within hentry hsection =>
        cases hentry
        exact absurd hsection (declares_leaf (by decide) _ _ _).leaf.not_section

theorem not_fits_scalar_section : ¬ Fits builtinEntries (.dict [("autodiff", .int 5)]) := by
  intro h
  cases h with
  | intro sections =>
    have hinner := sections _ (.head _) _ _ rfl (.intro rfl rfl rfl)
    cases hinner

theorem failed_save_keeps_files_beside :
    (∀ file everything e p₂,
      save file everything ((set ["autodiff", "zero_op"] (.text "blank") false).run.after (.beside "debugprint: true\n")) =
        .error e p₂ →
      p₂ = (set ["autodiff", "zero_op"] (.text "blank") false).run.after (.beside "debugprint: true\n")) ∧
    (∃ e, save (some "kept.conf") false (withStored (.beside "debugprint: true\n") (.dict [("autodiff", .int 5)])) =
      .error e { withStored (.beside "debugprint: true\n") (.dict [("autodiff", .int 5)]) with
        disk := [("kept.conf", .text "")] }) ∧
    save (some "kept.conf") true { Profile.beside "debugprint: true\n" with format := .faltering } =
      .error (.misuse .noMethod)
        { Profile.beside "debugprint: true\n" with format := .faltering, disk := [("kept.conf", .text "debug")] } := by
  refine ⟨?_, ?_, ?_⟩
  · have hkeeps := failed_save_keeps_files (p := .beside "debugprint: true\n") rfl builtin_scheme
    obtain ⟨hsaves, -⟩ := hkeeps.1 (Profile.beside_fits _) _ (.step .none (suits_zero_op (.text "blank") _))
    have hformat := (keepsFrame_run (set ["autodiff", "zero_op"] (.text "blank") false) (.beside "debugprint: true\n")).format
    intro file everything e p₂ h
    refine hsaves file everything e p₂ (fun d _ => ?_) h
    rw [hformat]
    rfl
  · have hempties := failed_save_keeps_files
      (p := withStored (.beside "debugprint: true\n") (.dict [("autodiff", .int 5)])) rfl builtin_scheme
    exact (hempties.2.2.1 (some "kept.conf") "kept.conf" ["kept.conf"] (by decide) (Disk.takes_kept.put _)).1
      not_fits_scalar_section
  · have hfalters := failed_save_keeps_files
      (p := { Profile.beside "debugprint: true\n" with format := .faltering }) rfl builtin_scheme
    exact (hfalters.2.2.1 (some "kept.conf") "kept.conf" ["kept.conf"] (by decide) (Disk.takes_kept.put _)).2
      true _ _ _ rfl rfl

/-- A number is set in the place of a section, and what was in the file is lost. -/
theorem failed_save_empties_file :
    (Profile.beside "debugprint: true\n").disk.read "kept.conf" = .ok "debugprint: true\n" ∧
    ∃ p₁ p₂, Configure.set ["autodiff"] (.int 5) false (.beside "debugprint: true\n") = .ok true p₁ ∧
      save (some "kept.conf") false p₁ = .error (.misuse .noMethod) p₂ ∧ p₂.disk.read "kept.conf" = .ok "" := by
  have hkeys : keysOf ["autodiff"] = ["autodiff"] := by
    simp +decide [keysOf, String.splitOn, String.splitOnAux]
  have hset : (Profile.beside "debugprint: true\n").settings.stored.setPath (keysOf ["autodiff"]) (.int 5) =
      .ok (.dict [("debugprint", .bool false), ("autodiff", .int 5)]) := by
    rw [hkeys]
    rfl
  have htakes : (withStored (.beside "debugprint: true\n")
      (.dict [("debugprint", .bool false), ("autodiff", .int 5)])).disk.Takes "kept.conf" ["kept.conf"] :=
    Disk.takes_kept.put _
  have hname : (withStored (.beside "debugprint: true\n")
      (.dict [("debugprint", .bool false), ("autodiff", .int 5)])).chosenFile (some "kept.conf") = some "kept.conf" := by
    decide
  exact ⟨Profile.beside_read _, _, _, set_ok hset false, save_of_content_error hname htakes rfl, htakes.read_put ""⟩

end Edit

end Backprop
