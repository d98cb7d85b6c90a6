/-
Settings from several sources.

Each source of settings is a layer, which says something of each setting or nothing (`Layer`): the
options of the command line, the environment (`Environment.Says`) and the settings file
(`FileSays`).  The settings of a run are those of the uppermost layer that says something, setting
by setting, and its defaults where none does.

Every layer is read before it is laid over those below it.  So the settings cannot be had if the
file cannot be loaded or if any variable is malformed, whether or not its value would have counted,
and the fault is that of the file or else that of the first malformed variable.

The main result is `limits_of_layers`.
-/
import ClassicalPlanning.CommandLine.Execution
import ClassicalPlanning.Proofs.Outcome
import ClassicalPlanning.Proofs.Text.Number

namespace ClassicalPlanning

/-- What one source says of the settings of a search. -/
structure Layer where
  /-- The level limit. -/
  maxLevel : Option Nat := none
  /-- The limit on expansions. -/
  maxExpansions : Option Nat := none
  /-- Whether each new level is reported. -/
  logProgress : Option Bool := none

namespace Layer

/-- One layer over another: what the upper one does not say is left to the lower one. -/
def onto (upper lower : Layer) : Layer where
  maxLevel := upper.maxLevel.or lower.maxLevel
  maxExpansions := upper.maxExpansions.or lower.maxExpansions
  logProgress := upper.logProgress.or lower.logProgress

/-- The settings that a layer makes, with the defaults for those of which it says nothing. -/
def limits (layer : Layer) : SearchLimits where
  maxLevel := layer.maxLevel
  maxExpansions := layer.maxExpansions
  logProgress := layer.logProgress.getD true

end Layer

/-- What the options of the command line say. -/
def CommandLine.Options.layer (o : CommandLine.Options) : Layer where
  maxLevel := o.maxLevel
  maxExpansions := o.maxExpansions

/-! ## The environment -/

/-- The text is a limit: a number that fits a word, with white space around it or not. -/
def SpellsLimit (text : String) (n : Nat) : Prop :=
  ∃ core, Padded text.toList core ∧ SpellsNumber core n ∧ n < 2 ^ 64

/-- The text is a truth value: a word for it, with white space around it or not. -/
def SpellsTruth (text : String) (b : Bool) : Prop :=
  Padded text.toList (if b then "true" else "false").toList

lemma word64?_trimBlanks_eq_some_iff (text : String) (n : Nat) :
    word64? (trimBlanks text.toList) = some n ↔ SpellsLimit text n := by
  rw [word64?_eq_some_iff]
  constructor
  · rintro ⟨hspells, hlt⟩
    exact ⟨_, padded_trimBlanks _, hspells, hlt⟩
  · rintro ⟨core, hpadded, hspells, hlt⟩
    rw [(trimBlanks_eq_iff hspells.not_blank hspells.ne_nil).mpr hpadded]
    exact ⟨hspells, hlt⟩

lemma truth?_trimBlanks_eq_some_iff (text : String) (b : Bool) :
    Environment.truth? (trimBlanks text.toList) = some b ↔ SpellsTruth text b := by
  have hword : ∀ cs, Environment.truth? cs = some b ↔
      cs = (if b then "true" else "false").toList := by
    intro cs
    cases b <;> grind [Environment.truth?]
  have hall : (if b then "true" else "false").toList.all (fun c => !isBlank c) = true := by
    cases b <;> decide
  have hblank : ∀ c ∈ (if b then "true" else "false").toList, isBlank c = false :=
    fun c hc => by simpa using List.all_eq_true.mp hall c hc
  rw [hword, SpellsTruth, trimBlanks_eq_iff hblank (by cases b <;> decide)]

namespace Environment

variable {env : Environment} {key : String} {fault : SettingsFault}

/-- The variables that count, in the order in which they are looked at. -/
def keys : List String := [levelKey, expansionsKey, progressKey]

/-- What the environment says: of each setting nothing if its variable is not set, and otherwise
what the text of the variable spells. -/
structure Says (env : Environment) (layer : Layer) : Prop where
  maxLevel : Option.Rel SpellsLimit (env levelKey) layer.maxLevel
  maxExpansions : Option.Rel SpellsLimit (env expansionsKey) layer.maxExpansions
  logProgress : Option.Rel SpellsTruth (env progressKey) layer.logProgress

/-- Whether a variable may have a text as its value. -/
def Accepts (key text : String) : Prop :=
  if key = progressKey then ∃ b, SpellsTruth text b else ∃ n, SpellsLimit text n

/-- The variable is set, to a text that it may not have as its value. -/
def Malformed (env : Environment) (key : String) : Prop :=
  ∃ text, env key = some text ∧ ¬ Accepts key text

/-- The fault quotes the text of the variable, with the white space around it. -/
def Quotes (env : Environment) (key : String) (fault : SettingsFault) : Prop :=
  ∃ text, env key = some text ∧ fault = .badValue key text

lemma accepts_levelKey (text : String) : Accepts levelKey text ↔ ∃ n, SpellsLimit text n := by
  rw [Accepts, if_neg (by decide)]

lemma accepts_expansionsKey (text : String) :
    Accepts expansionsKey text ↔ ∃ n, SpellsLimit text n := by
  rw [Accepts, if_neg (by decide)]

lemma accepts_progressKey (text : String) :
    Accepts progressKey text ↔ ∃ b, SpellsTruth text b := by
  rw [Accepts, if_pos rfl]

section Value

variable {α : Type} {read : List Char → Option α} {spells : String → α → Prop} {value? : Option α}

lemma value_eq_ok_iff (h : ∀ text a, read (trimBlanks text.toList) = some a ↔ spells text a) :
    env.value read key = .ok value? ↔ Option.Rel spells (env key) value? := by
  rw [value]
  cases env key with
  | none => cases value? <;> simp
  | some text => cases hread : read (trimBlanks text.toList) <;> cases value? <;> simp [hread, ← h]

/-- The value of a variable is had unless the variable is malformed, and then the fault quotes its
text. -/
lemma value_eq_error_iff (h : ∀ text a, read (trimBlanks text.toList) = some a ↔ spells text a)
    (hkey : ∀ text, Accepts key text ↔ ∃ a, spells text a) :
    env.value read key = .error fault ↔ env.Malformed key ∧ env.Quotes key fault := by
  rw [value, Malformed, Quotes]
  cases env key with
  | none => simp
  | some text => cases hread : read (trimBlanks text.toList) <;> simp [hread, hkey, ← h, eq_comm]

lemma exists_value_eq_ok_iff
    (h : ∀ text a, read (trimBlanks text.toList) = some a ↔ spells text a)
    (hkey : ∀ text, Accepts key text ↔ ∃ a, spells text a) :
    (∃ value?, env.value read key = .ok value?) ↔ ¬ env.Malformed key := by
  rw [Malformed]
  simp only [value_eq_ok_iff h, hkey]
  cases env key <;> simp [Option.exists]

/-- The first of several variables is at fault if it is malformed, and else the later ones may
be. -/
lemma value_bind_eq_error_iff {β : Type} {f : Option α → Except SettingsFault β} {p : Prop}
    (h : ∀ text a, read (trimBlanks text.toList) = some a ↔ spells text a)
    (hkey : ∀ text, Accepts key text ↔ ∃ a, spells text a)
    (hf : ∀ value?, f value? = .error fault ↔ p) :
    env.value read key >>= f = .error fault ↔
      (env.Malformed key ∧ env.Quotes key fault) ∨ (¬ env.Malformed key ∧ p) := by
  rw [bind_eq_error_iff, value_eq_error_iff h hkey]
  simp only [hf, exists_and_right]
  rw [exists_value_eq_ok_iff h hkey]

end Value

end Environment

namespace SearchLimits

open Environment

variable {env : Environment} {lower : Layer} {limits : SearchLimits} {fault : SettingsFault}

/-- The environment is a layer over the one that the limits came from. -/
lemma override_eq_ok_iff : lower.limits.override env = .ok limits ↔
    ∃ layer, env.Says layer ∧ (layer.onto lower).limits = limits := by
  simp only [override, bind_eq_ok_iff, value_eq_ok_iff word64?_trimBlanks_eq_some_iff,
    value_eq_ok_iff truth?_trimBlanks_eq_some_iff, pure, Except.pure, Except.ok.injEq]
  constructor
  · rintro ⟨level, hlevel, expansions, hexpansions, progress, hprogress, rfl⟩
    exact ⟨⟨level, expansions, progress⟩, ⟨hlevel, hexpansions, hprogress⟩,
      by simp [Layer.onto, Layer.limits]⟩
  · rintro ⟨layer, ⟨hlevel, hexpansions, hprogress⟩, rfl⟩
    exact ⟨_, hlevel, _, hexpansions, _, hprogress, by simp [Layer.onto, Layer.limits]⟩

/-- The environment is at fault for the first variable that is malformed, whatever the limits
are. -/
lemma override_eq_error_iff : limits.override env = .error fault ↔
    ∃ key, IsFirst env.Malformed keys key ∧ env.Quotes key fault := by
  simp only [keys, exists_isFirst_cons_and_iff, not_isFirst_nil, false_and, exists_false]
  refine value_bind_eq_error_iff word64?_trimBlanks_eq_some_iff accepts_levelKey fun level => ?_
  refine value_bind_eq_error_iff word64?_trimBlanks_eq_some_iff accepts_expansionsKey
    fun expansions => ?_
  refine value_bind_eq_error_iff truth?_trimBlanks_eq_some_iff accepts_progressKey
    fun progress => ?_
  simp [pure, Except.pure]

end SearchLimits

/-! ## The file -/

namespace Toml

variable {entries : Entries}

/-- What a document says: of each setting nothing if its key does not occur, and otherwise the item
under the key, which is an integer that is not negative or a truth value. -/
structure Entries.Says (entries : Entries) (layer : Layer) : Prop where
  maxLevel : Option.Rel (fun item n => item = .integer (n : Nat)) (entries.get? "max_level")
    layer.maxLevel
  maxExpansions : Option.Rel (fun item n => item = .integer (n : Nat))
    (entries.get? "max_expansions") layer.maxExpansions
  logProgress : Option.Rel (fun item b => item = .boolean b) (entries.get? "log_progress")
    layer.logProgress

lemma Item.natural?_eq_some_iff (item : Item) (n : Nat) :
    item.natural? = some n ↔ item = .integer n := by
  cases item <;> grind [Item.natural?]

lemma Item.boolean?_eq_some_iff (item : Item) (b : Bool) :
    item.boolean? = some b ↔ item = .boolean b := by
  cases item <;> simp [Item.boolean?]

lemma Entries.setting?_eq_some_iff {α : Type} {read : Item → Option α} {is : Item → α → Prop}
    {key : String} {value? : Option α} (h : ∀ item a, read item = some a ↔ is item a) :
    entries.setting? read key = some value? ↔ Option.Rel is (entries.get? key) value? := by
  rw [Entries.setting?]
  cases entries.get? key with
  | none => cases value? <;> simp
  | some item => cases value? <;> simp [h]

end Toml

/-- What the settings file says, given its text if a file is asked for and can be read as text.
Without a file nothing is said. -/
inductive FileSays : Option (Option String) → Layer → Prop
  /-- No file is asked for. -/
  | absent : FileSays none {}
  /-- The text is a document. -/
  | document {text : String} {entries : Toml.Entries} {layer : Layer}
      (htext : Toml.ofString? text = some entries) (hlayer : entries.Says layer) :
      FileSays (some (some text)) layer

/-- Why the settings file that is asked for cannot be loaded. -/
inductive FileFails : Option (Option String) → SettingsFault → Prop
  /-- It cannot be read, or is no text. -/
  | unreadable : FileFails (some none) .unreadable
  /-- The text is no document that says something of the settings. -/
  | malformed {text : String} (h : ¬ ∃ layer, FileSays (some (some text)) layer) :
      FileFails (some (some text)) .malformed

namespace SearchLimits

variable {entries : Toml.Entries} {limits : SearchLimits} {text : String} {text? : Option String}
  {fault : SettingsFault}

lemma ofEntries?_eq_some_iff : ofEntries? entries = some limits ↔
    ∃ layer, entries.Says layer ∧ layer.limits = limits := by
  simp only [ofEntries?, bind, Option.bind_eq_some_iff, pure, Option.some.injEq,
    Toml.Entries.setting?_eq_some_iff Toml.Item.natural?_eq_some_iff,
    Toml.Entries.setting?_eq_some_iff Toml.Item.boolean?_eq_some_iff]
  constructor
  · rintro ⟨level, hlevel, expansions, hexpansions, progress, hprogress, rfl⟩
    exact ⟨⟨level, expansions, progress⟩, ⟨hlevel, hexpansions, hprogress⟩, rfl⟩
  · rintro ⟨layer, ⟨hlevel, hexpansions, hprogress⟩, rfl⟩
    exact ⟨_, hlevel, _, hexpansions, _, hprogress, rfl⟩

lemma bind_ofEntries?_eq_some_iff : (Toml.ofString? text).bind ofEntries? = some limits ↔
    ∃ layer, FileSays (some (some text)) layer ∧ layer.limits = limits := by
  simp only [Option.bind_eq_some_iff, ofEntries?_eq_some_iff]
  constructor
  · rintro ⟨entries, htext, layer, hlayer, hlimits⟩
    exact ⟨layer, .document htext hlayer, hlimits⟩
  · rintro ⟨layer, ⟨⟩ | ⟨htext, hlayer⟩, hlimits⟩
    exact ⟨_, htext, layer, hlayer, hlimits⟩

lemma ofFile_eq_ok_iff : ofFile text? = .ok limits ↔
    ∃ layer, FileSays (some text?) layer ∧ layer.limits = limits := by
  cases text? with
  | none =>
    have hnone : ¬ ∃ layer, FileSays (some none) layer ∧ layer.limits = limits := by
      rintro ⟨layer, ⟨⟩, -⟩
    simp [ofFile, hnone]
  | some text =>
    rw [ofFile, ofToml, ← bind_ofEntries?_eq_some_iff]
    cases (Toml.ofString? text).bind ofEntries? <;> simp

lemma ofFile_eq_error_iff : ofFile text? = .error fault ↔ FileFails (some text?) fault := by
  cases text? with
  | none =>
    rw [ofFile, Except.error.injEq]
    exact ⟨fun h => h ▸ .unreadable, fun h => by cases h; rfl⟩
  | some text =>
    rw [ofFile, ofToml]
    cases hread : (Toml.ofString? text).bind ofEntries? with
    | some limits =>
      obtain ⟨layer, hlayer, -⟩ := bind_ofEntries?_eq_some_iff.mp hread
      exact ⟨(nomatch ·), fun | .malformed h => absurd ⟨layer, hlayer⟩ h⟩
    | none =>
      have hfails : ¬ ∃ layer, FileSays (some (some text)) layer := by
        rintro ⟨layer, hlayer⟩
        rw [bind_ofEntries?_eq_some_iff.mpr ⟨layer, hlayer, rfl⟩] at hread
        nomatch hread
      rw [Except.error.injEq]
      exact ⟨fun h => h ▸ .malformed hfails, fun h => by cases h; rfl⟩

end SearchLimits

/-! ## All layers -/

section Limits

variable {config? : Option (Option String)} {env : Environment} {base limits : SearchLimits}
  {fault : SettingsFault}

open CommandLine

/-- The layers are read from the lowest to the uppermost, of which the last cannot be at fault. -/
lemma limits_eq (o : Options) (config? : Option (Option String)) (env : Environment) :
    o.limits config? env = (do
      let base ← config?.elim (.ok {}) SearchLimits.ofFile
      let limits ← base.override env
      return { limits with
        maxLevel := o.maxLevel.or limits.maxLevel
        maxExpansions := o.maxExpansions.or limits.maxExpansions }) := by
  cases config? <;> rfl

lemma config_eq_ok_iff : config?.elim (.ok {}) SearchLimits.ofFile = .ok base ↔
    ∃ file, FileSays config? file ∧ file.limits = base := by
  cases config? with
  | none =>
    constructor
    · rintro ⟨⟩
      exact ⟨{}, .absent, rfl⟩
    · rintro ⟨file, ⟨⟩, rfl⟩
      rfl
  | some text? => exact SearchLimits.ofFile_eq_ok_iff

lemma config_eq_error_iff :
    config?.elim (.ok {}) SearchLimits.ofFile = .error fault ↔ FileFails config? fault := by
  cases config? with
  | none => exact ⟨(nomatch ·), (nomatch ·)⟩
  | some text? => exact SearchLimits.ofFile_eq_error_iff

lemma limits_eq_ok_iff (o : Options) : o.limits config? env = .ok limits ↔
    ∃ file environment, FileSays config? file ∧ env.Says environment ∧
      (o.layer.onto (environment.onto file)).limits = limits := by
  simp only [limits_eq, bind_eq_ok_iff, config_eq_ok_iff, pure, Except.pure, Except.ok.injEq]
  constructor
  · rintro ⟨_, ⟨file, hfile, rfl⟩, _, hoverride, rfl⟩
    obtain ⟨environment, hlayer, rfl⟩ := SearchLimits.override_eq_ok_iff.mp hoverride
    exact ⟨file, environment, hfile, hlayer, rfl⟩
  · rintro ⟨file, environment, hfile, hlayer, rfl⟩
    exact ⟨_, ⟨file, hfile, rfl⟩, _, SearchLimits.override_eq_ok_iff.mpr ⟨environment, hlayer, rfl⟩,
      rfl⟩

lemma limits_eq_error_iff (o : Options) : o.limits config? env = .error fault ↔
    FileFails config? fault ∨ (∃ file, FileSays config? file) ∧
      ∃ key, IsFirst env.Malformed Environment.keys key ∧ env.Quotes key fault := by
  simp only [limits_eq, bind_eq_error_iff, config_eq_ok_iff, config_eq_error_iff,
    SearchLimits.override_eq_error_iff, pure, Except.pure, reduceCtorEq, and_false, exists_false,
    or_false]
  constructor
  · rintro (hfails | ⟨_, ⟨file, hfile, -⟩, hfirst⟩)
    · exact .inl hfails
    · exact .inr ⟨⟨file, hfile⟩, hfirst⟩
  · rintro (hfails | ⟨⟨file, hfile⟩, hfirst⟩)
    · exact .inl hfails
    · exact .inr ⟨_, ⟨file, hfile, rfl⟩, hfirst⟩

/-- A settings file is loaded or not. -/
lemma fileSays_or_fileFails (config? : Option (Option String)) :
    (∃ file, FileSays config? file) ∨ ∃ fault, FileFails config? fault := by
  cases hconfig : config?.elim (.ok {}) SearchLimits.ofFile with
  | error fault => exact .inr ⟨fault, config_eq_error_iff.mp hconfig⟩
  | ok base =>
    obtain ⟨file, hfile, -⟩ := config_eq_ok_iff.mp hconfig
    exact .inl ⟨file, hfile⟩

/-- The settings of a run are made of all layers.  They are had unless the settings file cannot be
loaded or a variable of the environment is malformed, whatever the options are, and the fault is
that of the file or else quotes the first malformed variable. -/
theorem limits_of_layers (o : Options) (config? : Option (Option String)) (env : Environment) :
    (∀ limits, o.limits config? env = .ok limits ↔
      ∃ file environment, FileSays config? file ∧ env.Says environment ∧
        (o.layer.onto (environment.onto file)).limits = limits) ∧
    ((∃ fault, o.limits config? env = .error fault) ↔
      (∃ fault, FileFails config? fault) ∨ ∃ key ∈ Environment.keys, env.Malformed key) ∧
    (∀ fault, o.limits config? env = .error fault ↔
      FileFails config? fault ∨ (∃ file, FileSays config? file) ∧
        ∃ key, IsFirst env.Malformed Environment.keys key ∧
          ∃ text, env key = some text ∧ fault = .badValue key text) ∧
    ∀ key text, (SettingsFault.badValue key text).message? =
      some ("Configuration error: invalid value for " ++ key ++ ": '" ++ text ++ "'") := by
  refine ⟨fun limits => limits_eq_ok_iff o, ⟨?_, ?_⟩, fun fault => limits_eq_error_iff o, ?_⟩
  · rintro ⟨fault, hfault⟩
    rcases (limits_eq_error_iff o).mp hfault with hfile | ⟨-, key, hfirst, -⟩
    · exact .inl ⟨fault, hfile⟩
    · exact .inr (exists_isFirst_iff.mp ⟨key, hfirst⟩)
  · rintro (⟨fault, hfails⟩ | hmalformed)
    · exact ⟨fault, (limits_eq_error_iff o).mpr (.inl hfails)⟩
    obtain ⟨key, hfirst⟩ := exists_isFirst_iff.mpr hmalformed
    obtain ⟨text, htext, -⟩ := hfirst.holds
    rcases fileSays_or_fileFails config? with hloads | ⟨fault, hfails⟩
    · have hquotes : env.Quotes key (.badValue key text) := ⟨text, htext, rfl⟩
      exact ⟨_, (limits_eq_error_iff o).mpr (.inr ⟨hloads, key, hfirst, hquotes⟩)⟩
    · exact ⟨fault, (limits_eq_error_iff o).mpr (.inl hfails)⟩
  · intro key text
    rfl

end Limits

end ClassicalPlanning
