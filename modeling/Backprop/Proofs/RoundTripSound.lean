import Backprop.Proofs.DiskSound
import Backprop.Proofs.SchemaSound
import Backprop.Proofs.TemporarySound

/-!
# Settings that are saved and loaded

Saving leaves out what equals its default, and loading fills it in again, so
the settings come back with equal values, as far as the text that is written
can be read. What the schema does not know is lost, unless everything is saved.
-/

namespace Backprop

/-- The value can be written, and what is written is read as an equal value. -/
def Format.Rereads (format : Format) (d : Datum) : Prop :=
  ∃ text d', format.write d = (text, .ok ()) ∧ format.read (String.ofList (Disk.unifyLineEnds text.toList)) = some d' ∧
    d.same d' = true

def Profile.document (p : Profile) (file : Option String) : Except Fault Datum :=
  match p.chosenFile file with
  | none => .error (.misuse .noFileNamed)
  | some name =>
    match p.disk.read name with
    | .error e => .error e
    | .ok text =>
      match p.format.read text with
      | none => .error (.file (.malformed name))
      | some d => .ok (if d.truth then d else .dict [])

namespace Configure

theorem bind_ok {α β : Type} {x : Configure α} {f : α → Configure β} {p p₁ : Profile} {a : α} (h : x p = .ok a p₁) :
    (x >>= f) p = f a p₁ := by
  show EStateM.bind x f p = _
  unfold EStateM.bind
  rw [h]

section Run
variable {p : Profile} {file : Option String} {name : String} {place : List String}

theorem writeFile_run {content : String} {disk : Disk} (h : p.disk.write name content = .ok disk) :
    writeFile name content p = .ok () { p with disk } := by
  unfold writeFile
  rw [bind_ok run_get, h, bind_ok (run_ofExcept_ok disk)]
  rfl

theorem save_run (hname : p.chosenFile file = some name) (htakes : p.disk.Takes name place) {everything : Bool}
    {d : Datum} (hcontent : content p.settings everything = .ok d) {text : String} (hwrite : p.format.write d = (text, .ok ())) :
    save file everything p = .ok true { p with disk := Ledger.put p.disk (Disk.joined place) (.text text) } := by
  have hempty := writeFile_run (htakes.write "")
  have hfull := writeFile_run (p := { p with disk := Ledger.put p.disk (Disk.joined place) (.text "") })
    ((htakes.put "").write text)
  rw [Ledger.put_put] at hfull
  unfold save
  rw [bind_ok run_get]
  simp only [hname]
  rw [bind_ok hempty, hcontent, bind_ok (run_ofExcept_ok d), hwrite, bind_ok hfull]
  rfl

theorem load_eq (file : Option String) (p : Profile) : load file p = (do
    let d ← ofExcept (p.document file)
    modifySettings fun s => { s with stored := d }
    fillDefaults) p := by
  unfold load Profile.document
  rw [bind_ok run_get]
  cases p.chosenFile file with
  | none => rfl
  | some name =>
    simp only
    cases p.disk.read name with
    | error e => rfl
    | ok text =>
      rw [bind_ok (run_ofExcept_ok text)]
      simp only
      cases p.format.read text with
      | none => rfl
      | some d => rfl

theorem load_of_document_error {e : Fault} (h : p.document file = .error e) : load file p = .error e p := by
  rw [load_eq, h]
  rfl

theorem load_of_document {d : Datum} (h : p.document file = .ok d) : load file p = fillDefaults (withStored p d) := by
  rw [load_eq, h, bind_ok (run_ofExcept_ok d), bind_ok (run_modifySettings _)]
  rfl

theorem fillDefaults_run {schema filled : Datum} {result : Except Fault Bool}
    (hschema : p.settings.schema.index "required" = .ok schema)
    (hfill : Settings.fill schema p.settings.stored = (filled, result)) :
    fillDefaults p = ofExcept (result.map fun _ => ()) (withStored p filled) := by
  unfold fillDefaults
  rw [bind_ok run_get]
  simp only [Settings.fillDefaults, hschema, hfill]
  rfl

theorem load_run (hname : p.chosenFile file = some name) {text : String} (hread : p.disk.read name = .ok text)
    {loaded : List (Key × Datum)} (hparse : p.format.read text = some (.dict loaded)) {schema filled : Datum}
    (hschema : p.settings.schema.index "required" = .ok schema) {changed : Bool}
    (hfill : Settings.fill schema (.dict loaded) = (filled, .ok changed)) :
    load file p = .ok () { p with settings := { p.settings with stored := filled } } := by
  have hdocument : p.document file = .ok (.dict loaded) := by
    simp only [Profile.document, hname, hread, hparse]
    cases loaded <;> rfl
  rw [load_of_document hdocument]
  exact fillDefaults_run (p := withStored p (.dict loaded)) hschema hfill

/-- What is loaded after saving is what filling makes of the content that was written. -/
theorem save_load (hname : p.chosenFile file = some name) (htakes : p.disk.Takes name place) (everything : Bool)
    {d : Datum} (hcontent : content p.settings everything = .ok d) {text : String} (hwrite : p.format.write d = (text, .ok ()))
    {loaded : List (Key × Datum)}
    (hparse : p.format.read (String.ofList (Disk.unifyLineEnds text.toList)) = some (.dict loaded)) {schema filled : Datum}
    (hschema : p.settings.schema.index "required" = .ok schema) {changed : Bool}
    (hfill : Settings.fill schema (.dict loaded) = (filled, .ok changed)) :
    ∃ p₁ p₂, save file everything p = .ok true p₁ ∧ load file p₁ = .ok () p₂ ∧
      p₂.settings = { p.settings with stored := filled } := by
  let saved : Profile := { p with disk := Ledger.put p.disk (Disk.joined place) (.text text) }
  have hload : load file saved = .ok () { saved with settings := { p.settings with stored := filled } } :=
    load_run (p := saved) hname (htakes.read_put _) hparse hschema hfill
  exact ⟨saved, _, save_run hname htakes hcontent hwrite, hload, rfl⟩

end Run

theorem saved_settings_restored {p : Profile} {file : Option String} {name : String} {disk : Disk}
    {entries : Ledger Key Datum} (hname : p.chosenFile file = some name) (hwrite : p.disk.write name "" = .ok disk)
    (hschema : p.settings.schema.index "required" = .ok (.dict entries))
    (hs : Settings.Scheme Settings.Declares entries)
    (hc : Settings.Covers Settings.Declares entries p.settings.stored) :
    (∃ kept, p.settings.nondefaults = .ok kept ∧ (p.format.Rereads kept →
      ∃ p₁ p₂, save file false p = .ok true p₁ ∧ load file p₁ = .ok () p₂ ∧
        Settings.Restores Settings.Declares entries p.settings.stored p₂.settings.stored)) ∧
    (p.format.Rereads p.settings.stored →
      ∃ p₁ p₂, save file true p = .ok true p₁ ∧ load file p₁ = .ok () p₂ ∧
        p.settings.stored.same p₂.settings.stored = true) := by
  obtain ⟨place, htakes⟩ := Disk.takes_of_write hwrite
  refine ⟨?_, ?_⟩
  · obtain ⟨kept, hstrip, hkept, hundo⟩ := hs.undone _ hc
    have hcontent : p.settings.nondefaults = .ok (.dict kept) := by
      unfold Settings.nondefaults
      rw [hschema]
      simp only [bind, Except.bind, hstrip]
      rfl
    refine ⟨.dict kept, hcontent, fun hrereads => ?_⟩
    obtain ⟨text, d, htext, hparse, hsame⟩ := hrereads
    obtain ⟨loaded, rfl, -⟩ := Datum.same_dict hkept hsame
    obtain ⟨filled, changed, hfill, hrestores⟩ := hundo _ hsame
    obtain ⟨p₁, p₂, hsave, hload, hsettings⟩ := save_load hname htakes false hcontent htext hparse hschema hfill
    exact ⟨p₁, p₂, hsave, hload, by rw [hsettings]; exact hrestores⟩
  · intro hrereads
    obtain ⟨text, d, htext, hparse, hsame⟩ := hrereads
    obtain ⟨values, hvalues, hd⟩ := hc.dict
    rw [hvalues] at hsame
    obtain ⟨loaded, rfl, -⟩ := Datum.same_dict hd hsame
    rw [← hvalues] at hsame
    obtain ⟨changed, hfill⟩ := hs.fill_same _ hc _ hsame
    obtain ⟨p₁, p₂, hsave, hload, hsettings⟩ := save_load hname htakes true rfl htext hparse hschema hfill
    exact ⟨p₁, p₂, hsave, hload, by rw [hsettings]; exact hsame⟩

end Configure

/-! ## Three levels of settings -/

namespace Settings

def nest (required : List (Key × Datum)) : Datum := .dict [("type", .text "dict"), ("required", .dict required)]

theorem isSection_nest (required : List (Key × Datum)) : IsSection (nest required) required := .intro rfl rfl rfl

theorem declares_leaf {type : String} (h : type ≠ "dict") (default : Datum) (title description : String) :
    Declares (leaf type default title description) default :=
  ⟨.intro rfl (by simp [Datum.same, h]), rfl, rfl⟩

def inmost : Ledger Key Datum := [("e", leaf "str" (.text "x") "E" "")]

def inner : Ledger Key Datum := [("c", leaf "list" (.list []) "C" ""), ("d", nest inmost)]

def other : Ledger Key Datum := [("g", leaf "bool" (.bool false) "G" "")]

def levels : Ledger Key Datum := [("a", leaf "int" (.int 1) "A" ""), ("b", nest inner), ("f", nest other)]

theorem levels_scheme : Scheme Declares levels := by
  have hinmost : Scheme Declares inmost := Scheme.nil.cons_leaf (by simp) (declares_leaf (by decide) _ _ _)
  have hinner : Scheme Declares inner :=
    (Scheme.nil.cons_section (by simp) (isSection_nest _) hinmost).cons_leaf (by decide) (declares_leaf (by decide) _ _ _)
  have hother : Scheme Declares other := Scheme.nil.cons_leaf (by simp) (declares_leaf (by decide) _ _ _)
  exact ((Scheme.nil.cons_section (by simp) (isSection_nest _) hother).cons_section (by decide) (isSection_nest _)
    hinner).cons_leaf (by decide) (declares_leaf (by decide) _ _ _)

/-- One leaf has a value of its own and one equals its default as a number; two keys are unknown to the schema. -/
def customised : Datum :=
  .dict
    [("a", .bool true), ("b", .dict [("c", .list [.int 2]), ("d", .dict [("e", .text "x")]), ("h", .int 0)]),
     ("f", .dict [("g", .bool false)]), ("k", .null)]

theorem customised_covers : Covers Declares levels customised := by
  have hleaf : ∀ {type} (_ : type ≠ "dict") (default : Datum) (title description : String) (value : Datum) inner,
      IsSection (leaf type default title description) inner → Covers Declares inner value :=
    fun h default title description _ _ hsection =>
      absurd hsection (declares_leaf h default title description).leaf.not_section
  have hnest : ∀ {required value}, Covers Declares required value → ∀ inner, IsSection (nest required) inner →
      Covers Declares inner value := fun hcovers _ hsection => (isSection_nest _).unique hsection ▸ hcovers
  have hinmost : Covers Declares inmost (.dict [("e", .text "x")]) := by
    refine .intro (by unfold Ledger.Distinct; decide) (List.forall_mem_cons.mpr ⟨⟨_, rfl, ?_⟩, by simp⟩)
    exact hleaf (by decide) _ _ _ _
  have hinner : Covers Declares inner (.dict [("c", .list [.int 2]), ("d", .dict [("e", .text "x")]), ("h", .int 0)]) := by
    refine .intro (by unfold Ledger.Distinct; decide)
      (List.forall_mem_cons.mpr ⟨⟨_, rfl, ?_⟩, List.forall_mem_cons.mpr ⟨⟨_, rfl, hnest hinmost⟩, by simp⟩⟩)
    exact hleaf (by decide) _ _ _ _
  have hother : Covers Declares other (.dict [("g", .bool false)]) := by
    refine .intro (by unfold Ledger.Distinct; decide) (List.forall_mem_cons.mpr ⟨⟨_, rfl, ?_⟩, by simp⟩)
    exact hleaf (by decide) _ _ _ _
  refine .intro (by unfold Ledger.Distinct; decide) (List.forall_mem_cons.mpr ⟨⟨_, rfl, ?_⟩,
    List.forall_mem_cons.mpr ⟨⟨_, rfl, hnest hinner⟩, List.forall_mem_cons.mpr ⟨⟨_, rfl, hnest hother⟩, by simp⟩⟩⟩)
  exact hleaf (by decide) _ _ _ _

end Settings

def Profile.customised : Profile where
  settings := { stored := Settings.customised, schema := Settings.nest Settings.levels }

theorem Yaml.inKeyOrder_eq_self {entries : List (Key × Datum)} (h : entries.Pairwise fun a b => a.1.le b.1) :
    Yaml.inKeyOrder entries = entries := by
  unfold Yaml.inKeyOrder
  split
  · exact List.mergeSort_of_pairwise h
  · rfl

theorem Yaml.rereads_of_sorted {d : Datum} (hsorted : Yaml.sortKeys d = d)
    (h : (Yaml.parse (String.ofList (Disk.unifyLineEnds
      (((Yaml.writeValue none false d {}).indentTo 0).text ++ Yaml.endMark d).toList))).any (d.same ·) = true) :
    Format.yaml.Rereads d := by
  obtain ⟨d', hparse, hsame⟩ := (Option.any_eq_true _ _).mp h
  have hrender : Yaml.render d = ((Yaml.writeValue none false d {}).indentTo 0).text ++ Yaml.endMark d := by
    unfold Yaml.render
    rw [hsorted]
  have hread : Format.yaml.read = Yaml.parse := rfl
  rw [← hrender, ← hread] at hparse
  exact ⟨Yaml.render d, d', rfl, hparse, hsame⟩

theorem Configure.saved_settings_restored_customised :
    (∃ p₁ p₂, save (some ".gradpass.conf") false .customised = .ok true p₁ ∧
      load (some ".gradpass.conf") p₁ = .ok () p₂ ∧
      Settings.Restores Settings.Declares Settings.levels Settings.customised p₂.settings.stored) ∧
    ∃ p₁ p₂, save (some ".gradpass.conf") true .customised = .ok true p₁ ∧
      load (some ".gradpass.conf") p₁ = .ok () p₂ ∧
      Settings.customised.same p₂.settings.stored = true := by
  have htakes : Profile.customised.disk.Takes ".gradpass.conf" [".gradpass.conf"] := by
    have hparts : Disk.parts ".gradpass.conf" = [".gradpass.conf"] := by
      simp +decide [Disk.parts, String.splitOn, String.splitOnAux]
    refine ⟨by decide +kernel, ?_, .inl rfl⟩
    unfold Disk.locate
    rw [hparts]
    rfl
  obtain ⟨⟨kept, hkept, hsome⟩, hall⟩ :=
    saved_settings_restored (show Profile.customised.chosenFile (some ".gradpass.conf") = _ by decide)
      (htakes.write "") rfl Settings.levels_scheme Settings.customised_covers
  have hcontent : Profile.customised.settings.nondefaults = .ok (.dict [("b", .dict [("c", .list [.int 2])])]) := rfl
  obtain rfl := Except.ok.inj (hkept.symm.trans hcontent)
  refine ⟨hsome (Yaml.rereads_of_sorted ?_ (by decide +kernel)), hall (Yaml.rereads_of_sorted ?_ (by decide +kernel))⟩
  · simp only [Yaml.sortKeys, Yaml.sortEntries, Yaml.sortItems]
    rw [Yaml.inKeyOrder_eq_self (by decide), Yaml.inKeyOrder_eq_self (by decide)]
  · simp only [Profile.customised, Settings.customised, Yaml.sortKeys, Yaml.sortEntries, Yaml.sortItems]
    rw [Yaml.inKeyOrder_eq_self (by decide), Yaml.inKeyOrder_eq_self (by decide), Yaml.inKeyOrder_eq_self (by decide),
      Yaml.inKeyOrder_eq_self (by decide)]

end Backprop
