import FusePosix.Fuse.Startup
import FusePosix.Lib.Ini
import Mathlib.Data.List.Pairwise

/-!
# Whose settings are read

The settings of a server are meant to be the keys of the section `[client]` of its file. The reader
has no notion of a section or a key: it looks in every line for a name at the beginning, and takes
what stands behind the first `=` without any spaces. The last line counts.

`settings_from_client_iff` says for which INI files the two are the same. Whether they are is a
matter for each setting by itself (`KeyHolds`), and depends on the last line that begins with its
name.
-/

namespace FusePosix

open Transition

/-! ### What is meant -/

/-- The section the settings stand in. -/
def clientSection : Str := "client".toList

/-- The lines of a settings file. -/
def settingsLines (io : Io) (root fileName : Str) : List Str :=
  Text.getlines '\n' ((io.readFile (root ++ ['/'] ++ fileName)).getD [])

/-- What a key of the section says, or the default. -/
def clientSetting {β : Type} (lines : List Str) (name : Str) (mean : Str → β) (default : β) : β :=
  ((Ini.lookup lines clientSection name).map mean).getD default

/-- **The settings come from the section `[client]`.** -/
structure FromClient (lines : List Str) (srv : RucioServer) : Prop where
  serverUrl : srv.rucioConnParams.serverUrl = clientSetting lines "rucio_host".toList id []
  userName : srv.rucioConnParams.userName = clientSetting lines "username".toList id []
  password : srv.rucioConnParams.password = clientSetting lines "password".toList id []
  accountName : srv.rucioConnParams.accountName = clientSetting lines "account".toList id []
  rucioAuthMode : srv.rucioConnParams.rucioAuthMode =
    clientSetting lines "auth_type".toList getAuthMode .userpass
  caPath : srv.rucioConnParams.caPath = clientSetting lines "ca_cert".toList id []
  tempConfigFolder : srv.tempConfigFolder =
    clientSetting lines "temp_config_folder".toList id []

/-! ### When it is read -/

/-- The last line that begins with a name, and the section it stands in. -/
def lastHit (lines : List Str) (name : Str) : Option (Option Str × Str) :=
  (Ini.sectioned none lines).reverse.find? fun place ↦ name.isPrefixOf place.2

/-- A line says a value plainly: there is no space in it, and nothing but spaces around it. -/
def SaysPlainly (line value : Str) : Prop :=
  ' ' ∉ value ∧ ∃ before i j, '=' ∉ before ∧
    line = before ++ '=' :: (List.replicate i ' ' ++ value ++ List.replicate j ' ')

/-- A line says the authentication mode of a value. -/
def SaysMode (line value : Str) : Prop := getAuthMode (getCfgValue line).2 = getAuthMode value

/-- **The condition on one setting**, by the last line that begins with its name. `reads` tells for
an entry whether its value can be read from it. -/
inductive KeyHolds {β : Type} (lines : List Str) (name : Str) (mean : Str → β) (default : β)
    (reads : Str → Str → Prop) : Prop
  /-- There is none, and the section does not have the key, or only with the default. -/
  | unset (hhit : lastHit lines name = none)
      (hclient : clientSetting lines name mean default = default)
  /-- It is the entry of the key in the section, and its value can be read from it. -/
  | own {line value : Str} (hhit : lastHit lines name = some (some clientSection, line))
      (hentry : Ini.parseEntry line = some (name, value)) (hreads : reads line value)
  /-- It is an entry of another section or another key, and happens to say the same. -/
  | other {under : Option Str} {line : Str} (hhit : lastHit lines name = some (under, line))
      (hother : ∀ value, under = some clientSection → Ini.parseEntry line ≠ some (name, value))
      (hsame : mean (getCfgValue line).2 = clientSetting lines name mean default)

/-- The condition on all settings. -/
structure ReadsClient (lines : List Str) : Prop where
  serverUrl : KeyHolds lines "rucio_host".toList id [] SaysPlainly
  userName : KeyHolds lines "username".toList id [] SaysPlainly
  password : KeyHolds lines "password".toList id [] SaysPlainly
  accountName : KeyHolds lines "account".toList id [] SaysPlainly
  rucioAuthMode : KeyHolds lines "auth_type".toList getAuthMode .userpass SaysMode
  caPath : KeyHolds lines "ca_cert".toList id [] SaysPlainly
  tempConfigFolder : KeyHolds lines "temp_config_folder".toList id [] SaysPlainly

/-! ### What is read -/

/-- What is read for a name, or the default. -/
def readSetting {β : Type} (lines : List Str) (name : Str) (mean : Str → β) (default : β) : β :=
  ((lastHit lines name).map fun place ↦ mean (getCfgValue place.2).2).getD default

section Reader

variable {lines : List Str} {line name : Str} {settings : Settings}

theorem filter_of_notMem {s : Str} (h : ' ' ∉ s) : s.filter (· ≠ ' ') = s :=
  List.filter_eq_self.2 fun c hc ↦ decide_eq_true fun heq : c = ' ' ↦ h (heq ▸ hc)

/-- A name stays at the beginning of a line that loses its blanks. -/
theorem prefix_getCfgValue (hname : ' ' ∉ name) (h : name <+: line) :
    name <+: (getCfgValue line).1 := by
  have hfiltered := h.filter (· ≠ ' ')
  rwa [filter_of_notMem hname] at hfiltered

/-- Neither of two names is the beginning of the other. -/
abbrev Apart (f g : Str × (Str → Settings → Settings)) : Prop := ¬ f.1 <+: g.1 ∧ ¬ g.1 <+: f.1

theorem settingsFields_names :
    settingsFields.Pairwise Apart ∧ ∀ f ∈ settingsFields, ' ' ∉ f.1 := by
  decide +kernel

/-- Names that do not stand at the beginning of a line change nothing. -/
theorem foldl_readSettingsField_of_not {fields : List (Str × (Str → Settings → Settings))}
    (h : ∀ f ∈ fields, ¬ f.1 <+: line) :
    fields.foldl readSettingsField (line, settings) = (line, settings) := by
  induction fields with
  | nil => rfl
  | cons f fields ih =>
    have hf : f.1.isPrefixOf line = false :=
      Bool.eq_false_iff.2 fun hp ↦ h f List.mem_cons_self (List.isPrefixOf_iff_prefix.1 hp)
    rw [List.foldl_cons, readSettingsField, if_neg (by rw [hf]; decide)]
    exact ih fun g hg ↦ h g (List.mem_cons_of_mem _ hg)

/-- A line carries the setting whose name it begins with. -/
theorem foldl_readSettingsField {fields : List (Str × (Str → Settings → Settings))}
    (hapart : fields.Pairwise Apart) (hnames : ∀ f ∈ fields, ' ' ∉ f.1) :
    (fields.foldl readSettingsField (line, settings)).2 =
      ((fields.find? fun f ↦ f.1.isPrefixOf line).map fun f ↦
        f.2 (getCfgValue line).2 settings).getD settings := by
  induction fields with
  | nil => rfl
  | cons f fields ih =>
    obtain ⟨hf, hfields⟩ := List.pairwise_cons.1 hapart
    rcases hp : f.1.isPrefixOf line with - | -
    · rw [List.foldl_cons, readSettingsField, if_neg (by rw [hp]; decide), List.find?_cons, hp]
      exact ih hfields fun g hg ↦ hnames g (List.mem_cons_of_mem _ hg)
    · have hstays := prefix_getCfgValue (hnames f List.mem_cons_self)
        (List.isPrefixOf_iff_prefix.1 hp)
      rw [List.foldl_cons, readSettingsField, if_pos hp, List.find?_cons, hp,
        foldl_readSettingsField_of_not]
      · rfl
      · -- two names at the beginning of one line would be comparable
        intro g hg hgp
        rcases List.prefix_or_prefix_of_prefix hstays hgp with hfg | hgf
        · exact (hf g hg).1 hfg
        · exact (hf g hg).2 hgf

/-- What one setting of the reader is: one field of the table writes it, and the others leave it
alone. -/
structure IsSetting {β : Type} (name : Str) (mean : Str → β) (get : Settings → β) : Prop where
  field : ∃ before f after, settingsFields = before ++ f :: after ∧ f.1 = name ∧
    (∀ value settings, get (f.2 value settings) = mean value) ∧
    ∀ g ∈ before ++ after, ∀ value settings, get (g.2 value settings) = get settings

/-- **What a line does to a setting.** -/
theorem get_readSettingsLine {β : Type} {mean : Str → β} {get : Settings → β}
    (h : IsSetting name mean get) (settings : Settings) (line : Str) :
    get (readSettingsLine settings line) =
      if name.isPrefixOf line then mean (getCfgValue line).2 else get settings := by
  obtain ⟨before, f, after, hfields, rfl, hmine, hothers⟩ := h.field
  have hf : f ∈ settingsFields := hfields ▸ List.mem_append_right _ List.mem_cons_self
  obtain ⟨hapart, hblanks⟩ := settingsFields_names
  rw [readSettingsLine, foldl_readSettingsField hapart hblanks]
  rw [hfields, List.pairwise_middle fun h ↦ ⟨h.2, h.1⟩, List.pairwise_cons] at hapart
  rcases hfind : settingsFields.find? fun f ↦ f.1.isPrefixOf line with - | g
  · rw [hfind, if_neg fun hp ↦ List.find?_eq_none.1 hfind f hf hp]
    rfl
  · have hg := List.mem_of_find?_eq_some hfind
    have hgp := List.find?_some hfind
    rw [hfind, Option.map_some, Option.getD_some]
    rw [hfields, List.mem_append, List.mem_cons, or_left_comm, ← List.mem_append] at hg
    rcases hg with rfl | hg
    · rw [hmine, if_pos hgp]
    · -- two names at the beginning of one line would be comparable
      rw [hothers g hg, if_neg fun hp ↦ ?_]
      rcases List.prefix_or_prefix_of_prefix (List.isPrefixOf_iff_prefix.1 hp)
        (List.isPrefixOf_iff_prefix.1 hgp) with hfg | hgf
      · exact (hapart.1 g hg).1 hfg
      · exact (hapart.1 g hg).2 hgf

theorem lastHit_map_snd (lines : List Str) (name : Str) :
    (lastHit lines name).map Prod.snd = lines.reverse.find? fun line ↦ name.isPrefixOf line := by
  conv_rhs => rw [← Ini.map_snd_sectioned none lines, ← List.map_reverse, List.find?_map]
  rfl

/-- **What a file does to a setting.** -/
theorem get_foldl_readSettingsLine {β : Type} {mean : Str → β} {get : Settings → β}
    (h : IsSetting name mean get) (settings : Settings) (lines : List Str) :
    get (lines.foldl readSettingsLine settings) =
      readSetting lines name mean (get settings) := by
  have hread : readSetting lines name mean (get settings) =
      ((lines.reverse.find? fun line ↦ name.isPrefixOf line).map fun line ↦
        mean (getCfgValue line).2).getD (get settings) := by
    rw [← lastHit_map_snd, Option.map_map]
    rfl
  rw [hread]
  induction lines using List.reverseRecOn with
  | nil => rfl
  | append_singleton lines line ih =>
    rw [List.foldl_concat, get_readSettingsLine h, List.reverse_concat, List.find?_cons]
    rcases name.isPrefixOf line with - | -
    · exact ih (by rw [← lastHit_map_snd, Option.map_map]; rfl)
    · rfl

/-- What is read from an entry: what stands behind the `=`, without any spaces. -/
theorem getCfgValue_append {before : Str} (hbefore : '=' ∉ before) (after : Str) :
    (getCfgValue (before ++ '=' :: after)).2 = after.filter (· ≠ ' ') := by
  have hline : (before ++ '=' :: after).filter (· ≠ ' ') =
      before.filter (· ≠ ' ') ++ '=' :: after.filter (· ≠ ' ') := by
    rw [List.filter_append, List.filter_cons_of_pos (by decide)]
  have hnot : '=' ∉ before.filter (· ≠ ' ') := fun h ↦ hbefore (List.mem_of_mem_filter h)
  simp only [getCfgValue, hline, Text.idxOf?_append_cons hnot]
  rw [Text.drop_append_cons]

/-- Blanks of which nothing is left without the spaces are spaces. -/
theorem eq_replicate_of_filter {blanks : Str} (h : blanks.filter (· ≠ ' ') = []) :
    blanks = List.replicate blanks.length ' ' := by
  refine List.eq_replicate_iff.2 ⟨rfl, fun c hc ↦ ?_⟩
  by_contra hne
  exact List.filter_eq_nil_iff.1 h c hc (decide_eq_true hne)

/-- A text in blanks is what is left without the spaces exactly if it has none, and the blanks are
spaces. -/
theorem filter_eq_self_iff {front value back : Str} (hfront : ∀ c ∈ front, Ini.isBlank c = true)
    (hback : ∀ c ∈ back, Ini.isBlank c = true)
    (hfirst : ∀ c ∈ value.head?, Ini.isBlank c = false)
    (hlast : ∀ c ∈ value.getLast?, Ini.isBlank c = false) :
    (front ++ value ++ back).filter (· ≠ ' ') = value ↔
      ' ' ∉ value ∧ front.filter (· ≠ ' ') = [] ∧ back.filter (· ≠ ' ') = [] := by
  rw [List.filter_append, List.filter_append]
  constructor
  · intro heq
    -- what is left of the blanks around the value would be at its ends
    have hfrontNil : front.filter (· ≠ ' ') = [] := by
      rcases hleft : front.filter (· ≠ ' ') with - | ⟨c, left⟩
      · rfl
      · have hc : c ∈ front := (List.mem_filter.1 (hleft ▸ List.mem_cons_self)).1
        rw [hleft] at heq
        have hblank := hfirst c (heq ▸ rfl)
        exact absurd (hblank.symm.trans (hfront c hc)) Bool.false_ne_true
    have hbackNil : back.filter (· ≠ ' ') = [] := by
      rcases List.eq_nil_or_concat (back.filter (· ≠ ' ')) with hnil | ⟨left, c, hleft⟩
      · exact hnil
      · rw [List.concat_eq_append] at hleft
        have hmem : c ∈ back.filter (· ≠ ' ') := by
          rw [hleft]
          exact List.mem_concat_self
        rw [hleft, ← List.append_assoc] at heq
        have hblank := hlast c (heq ▸ List.getLast?_concat)
        exact absurd (hblank.symm.trans (hback c (List.mem_of_mem_filter hmem)))
          Bool.false_ne_true
    rw [hfrontNil, hbackNil, List.nil_append, List.append_nil] at heq
    exact ⟨fun hspace ↦ of_decide_eq_true (List.filter_eq_self.1 heq _ hspace) rfl, hfrontNil,
      hbackNil⟩
  · rintro ⟨hspace, hfrontNil, hbackNil⟩
    rw [hfrontNil, hbackNil, filter_of_notMem hspace, List.nil_append, List.append_nil]

/-- **When the value of an entry is read from it.** -/
theorem getCfgValue_eq_iff {key value : Str} (h : Ini.parseEntry line = some (key, value)) :
    (getCfgValue line).2 = value ↔ SaysPlainly line value := by
  obtain ⟨before, after, rfl, hbefore, -, rfl⟩ := Ini.parseEntry_eq_some h
  obtain ⟨front, back, hafter, hfront, hback, hfirst, hlast⟩ := Ini.trim_cases after
  generalize Ini.trim after = value at hafter hfirst hlast
  constructor
  · intro heq
    rw [getCfgValue_append hbefore, hafter, filter_eq_self_iff hfront hback hfirst hlast] at heq
    obtain ⟨hspace, hfrontNil, hbackNil⟩ := heq
    refine ⟨hspace, before, front.length, back.length, hbefore, ?_⟩
    rw [← eq_replicate_of_filter hfrontNil, ← eq_replicate_of_filter hbackNil, hafter]
  · rintro ⟨hspace, before', i, j, hbefore', hline⟩
    rw [hline, getCfgValue_append hbefore', List.filter_append, List.filter_append,
      filter_of_notMem hspace, List.filter_replicate, List.filter_replicate]
    simp

/-- **When a setting is that of the section.** -/
theorem readSetting_eq_iff {β : Type} {mean : Str → β} {default : β} {reads : Str → Str → Prop}
    (hfile : Ini.IsFile lines) (hreads : ∀ line key value, Ini.parseEntry line = some (key, value) →
      (mean (getCfgValue line).2 = mean value ↔ reads line value)) :
    readSetting lines name mean default = clientSetting lines name mean default ↔
      KeyHolds lines name mean default reads := by
  have hread : ∀ hit, lastHit lines name = hit → readSetting lines name mean default =
      (hit.map fun place ↦ mean (getCfgValue place.2).2).getD default :=
    fun hit hhit ↦ by rw [readSetting, hhit]
  -- an entry of the section is the one that counts
  have hown : ∀ line value, lastHit lines name = some (some clientSection, line) →
      Ini.parseEntry line = some (name, value) →
        clientSetting lines name mean default = mean value := by
    intro line value hhit hentry
    have hmem := List.mem_reverse.1 (List.mem_of_find?_eq_some hhit)
    rw [clientSetting, Ini.lookup_of_mem hfile hmem rfl hentry]
    rfl
  constructor
  · intro heq
    rcases hhit : lastHit lines name with - | ⟨under, line⟩
    · exact .unset hhit (heq.symm.trans (hread _ hhit))
    · rw [hread _ hhit] at heq
      by_cases hmine : ∃ value, under = some clientSection ∧
        Ini.parseEntry line = some (name, value)
      · obtain ⟨value, rfl, hentry⟩ := hmine
        exact .own hhit hentry ((hreads _ _ _ hentry).1 (heq.trans (hown _ _ hhit hentry)))
      · exact .other hhit (fun value hunder hentry ↦ hmine ⟨value, hunder, hentry⟩) heq
  · rintro (⟨hhit, hclient⟩ | ⟨hhit, hentry, hplain⟩ | ⟨hhit, -, hsame⟩)
    · exact (hread _ hhit).trans hclient.symm
    · rw [hread _ hhit, hown _ _ hhit hentry]
      exact (hreads _ _ _ hentry).2 hplain
    · exact (hread _ hhit).trans hsame

end Reader

/-! ### All settings -/

section AllSettings

variable {β : Type} {mean : Str → β} {get : Settings → β}

/-- The setting at a place of the table. -/
theorem isSetting_of_place (i : ℕ) {f : Str × (Str → Settings → Settings)}
    (hfield : settingsFields = settingsFields.take i ++ f :: settingsFields.drop (i + 1))
    (hmine : ∀ value settings, get (f.2 value settings) = mean value)
    (hothers : (settingsFields.take i ++ settingsFields.drop (i + 1)).Forall fun g ↦
      ∀ value settings, get (g.2 value settings) = get settings) : IsSetting f.1 mean get :=
  ⟨_, f, _, hfield, rfl, hmine, List.forall_iff_forall_mem.1 hothers⟩

theorem isSetting_serverUrl :
    IsSetting "rucio_host".toList id fun s ↦ s.server.rucioConnParams.serverUrl :=
  isSetting_of_place 0 rfl (fun _ _ ↦ rfl) ⟨fun _ _ ↦ rfl, fun _ _ ↦ rfl, fun _ _ ↦ rfl,
    fun _ _ ↦ rfl, fun _ _ ↦ rfl, fun _ _ ↦ rfl⟩

theorem isSetting_userName :
    IsSetting "username".toList id fun s ↦ s.server.rucioConnParams.userName :=
  isSetting_of_place 1 rfl (fun _ _ ↦ rfl) ⟨fun _ _ ↦ rfl, fun _ _ ↦ rfl, fun _ _ ↦ rfl,
    fun _ _ ↦ rfl, fun _ _ ↦ rfl, fun _ _ ↦ rfl⟩

theorem isSetting_password :
    IsSetting "password".toList id fun s ↦ s.server.rucioConnParams.password :=
  isSetting_of_place 2 rfl (fun _ _ ↦ rfl) ⟨fun _ _ ↦ rfl, fun _ _ ↦ rfl, fun _ _ ↦ rfl,
    fun _ _ ↦ rfl, fun _ _ ↦ rfl, fun _ _ ↦ rfl⟩

theorem isSetting_accountName :
    IsSetting "account".toList id fun s ↦ s.server.rucioConnParams.accountName :=
  isSetting_of_place 3 rfl (fun _ _ ↦ rfl) ⟨fun _ _ ↦ rfl, fun _ _ ↦ rfl, fun _ _ ↦ rfl,
    fun _ _ ↦ rfl, fun _ _ ↦ rfl, fun _ _ ↦ rfl⟩

theorem isSetting_rucioAuthMode :
    IsSetting "auth_type".toList getAuthMode fun s ↦ s.server.rucioConnParams.rucioAuthMode :=
  isSetting_of_place 4 rfl (fun _ _ ↦ rfl) ⟨fun _ _ ↦ rfl, fun _ _ ↦ rfl, fun _ _ ↦ rfl,
    fun _ _ ↦ rfl, fun _ _ ↦ rfl, fun _ _ ↦ rfl⟩

theorem isSetting_caFilePath : IsSetting "ca_cert".toList id Settings.caFilePath :=
  isSetting_of_place 5 rfl (fun _ _ ↦ rfl) ⟨fun _ _ ↦ rfl, fun _ _ ↦ rfl, fun _ _ ↦ rfl,
    fun _ _ ↦ rfl, fun _ _ ↦ rfl, fun _ _ ↦ rfl⟩

theorem isSetting_tempConfigFolder :
    IsSetting "temp_config_folder".toList id fun s ↦ s.server.tempConfigFolder :=
  isSetting_of_place 6 rfl (fun _ _ ↦ rfl) ⟨fun _ _ ↦ rfl, fun _ _ ↦ rfl, fun _ _ ↦ rfl,
    fun _ _ ↦ rfl, fun _ _ ↦ rfl, fun _ _ ↦ rfl⟩

variable {io : Io} {root fileName : Str}

/-- A setting of the server of a file. -/
theorem get_settingsOf {name : Str} (h : IsSetting name mean get) :
    get (settingsOf io root fileName) = readSetting (settingsLines io root fileName) name mean
      (get { server := .blank (root ++ ['/'] ++ fileName) }) :=
  get_foldl_readSettingsLine h _ _

/-- **When the settings that are entered come from the section.** -/
theorem fromClient_serverOf_iff (hfile : Ini.IsFile (settingsLines io root fileName)) :
    FromClient (settingsLines io root fileName) (serverOf io root fileName) ↔
      ReadsClient (settingsLines io root fileName) := by
  -- a setting that is taken as it is, and the authentication mode
  have htext : ∀ {name : Str} {get : Settings → Str}, IsSetting name id get →
      get { server := .blank (root ++ ['/'] ++ fileName) } = [] →
      (get (settingsOf io root fileName) =
          clientSetting (settingsLines io root fileName) name id [] ↔
        KeyHolds (settingsLines io root fileName) name id [] SaysPlainly) := by
    intro name get hset hblank
    rw [get_settingsOf hset, hblank]
    exact readSetting_eq_iff hfile fun line key value hentry ↦ getCfgValue_eq_iff hentry
  have hmode : (settingsOf io root fileName).server.rucioConnParams.rucioAuthMode =
      clientSetting (settingsLines io root fileName) "auth_type".toList getAuthMode .userpass ↔
        KeyHolds (settingsLines io root fileName) "auth_type".toList getAuthMode .userpass
          SaysMode := by
    rw [get_settingsOf isSetting_rucioAuthMode]
    exact readSetting_eq_iff hfile fun _ _ _ _ ↦ Iff.rfl
  constructor
  · intro h
    exact ⟨(htext isSetting_serverUrl rfl).1 h.serverUrl,
      (htext isSetting_userName rfl).1 h.userName, (htext isSetting_password rfl).1 h.password,
      (htext isSetting_accountName rfl).1 h.accountName,
      hmode.1 h.rucioAuthMode, (htext isSetting_caFilePath rfl).1 h.caPath,
      (htext isSetting_tempConfigFolder rfl).1 h.tempConfigFolder⟩
  · intro h
    exact ⟨(htext isSetting_serverUrl rfl).2 h.serverUrl,
      (htext isSetting_userName rfl).2 h.userName, (htext isSetting_password rfl).2 h.password,
      (htext isSetting_accountName rfl).2 h.accountName,
      hmode.2 h.rucioAuthMode, (htext isSetting_caFilePath rfl).2 h.caPath,
      (htext isSetting_tempConfigFolder rfl).2 h.tempConfigFolder⟩

/-! ### The registry -/

/-- The server of a file is in the registry: the directory has been read, the file passes, and no
file before it has the same server. -/
structure Stored (world : Str → Io) (caller : Caller) (getenv : Option Str)
    (opendir : Str → Option Directory) (root : Str) (start : State) (fileName : Str) (t : State) :
    Prop where
  run : parseSettingsCfg world caller getenv opendir root start = .ok t
  first : ∃ dir before after, opendir (getenv.getD root) = some dir ∧
    dir.names = before ++ fileName :: after ∧
    settingsServerName fileName ∉ loadedNames world (getenv.getD root) before
  loads : loads (world fileName) (getenv.getD root) fileName = true
  new : serverExists start.servers (settingsServerName fileName) = false

variable {world : Str → Io} {caller : Caller} {s t : State} {name : Str}

/-- A server that is in the registry keeps its settings, whatever file is read. -/
theorem settings_load (h : s.load world caller root fileName = some t)
    (hthere : serverExists s.servers name = true) :
    (t.servers.find name).map RucioServer.settings =
      (s.servers.find name).map RucioServer.settings := by
  have hemplace : ∀ other srv, ((s.emplaceServer other srv).servers.find name) =
      s.servers.find name := by
    intro other srv
    show (s.servers.emplace other srv).find name = _
    rw [Table.emplace]
    split_ifs with hother
    · rfl
    · rw [Table.find_insert, if_neg]
      rintro rfl
      exact hother hthere
  rcases entryEnds_of_load h with - | ⟨-, hvalidate⟩ | ⟨-, hvalidate⟩
  · rfl
  · rw [(sameNames_validate hvalidate).1 name, hemplace]
  · exact ((sameNames_validate hvalidate).1 name).trans (by rw [hemplace])

/-- The same for all files of a directory. -/
theorem settings_run {files : List Str} (hthere : serverExists s.servers name = true)
    (hrun : exec (State.load world caller root) s files = some t) :
    (t.servers.find name).map RucioServer.settings =
      (s.servers.find name).map RucioServer.settings := by
  have hkept : serverExists t.servers name = true ∧ (t.servers.find name).map RucioServer.settings =
      (s.servers.find name).map RucioServer.settings := by
    refine @run_induction _ _ (State.load world caller root) s (fun _ ↦ True)
      (fun _ t ↦ serverExists t.servers name = true ∧
        (t.servers.find name).map RucioServer.settings =
          (s.servers.find name).map RucioServer.settings) ⟨hthere, rfl⟩ ?_ files
      (fun _ _ ↦ trivial) t hrun
    rintro - fileName u v ⟨hthere, hsame⟩ - hload
    exact ⟨(serverExists_load hload name).2 (Or.inl hthere),
      (settings_load hload hthere).trans hsame⟩
  exact hkept.2

/-- **What is in the registry** is what stands in the file. -/
theorem settings_of_stored {getenv : Option Str} {opendir : Str → Option Directory} {start : State}
    (h : Stored world caller getenv opendir root start fileName t) :
    ∃ srv, t.servers.find (settingsServerName fileName) = some srv ∧
      srv.settings = (serverOf (world fileName) (getenv.getD root) fileName).settings := by
  obtain ⟨dir, before, after, hdir, hnames, hfirst⟩ := h.first
  have hrun := h.run
  simp only [parseSettingsCfg, hdir] at hrun
  have hexec : exec (State.load world caller (getenv.getD root)) start dir.names = some t :=
    exec_of_foldlM hrun
  rw [hnames, exec_append, Option.bind_eq_some_iff] at hexec
  obtain ⟨u, hbefore, hrest⟩ := hexec
  rw [exec_cons, Option.bind_eq_some_iff] at hrest
  obtain ⟨v, hload, hafter⟩ := hrest
  have hnew : serverExists u.servers (settingsServerName fileName) = false := by
    rw [Bool.eq_false_iff]
    intro hthere
    rcases (serverExists_run hbefore _).1 hthere with hold | hearlier
    · exact Bool.false_ne_true (h.new.symm.trans hold)
    · exact hfirst hearlier
  have hfind := find_emplaceServer (serverOf (world fileName) (getenv.getD root) fileName) hnew
  have hentered : (v.servers.find (settingsServerName fileName)).map RucioServer.settings =
      some (serverOf (world fileName) (getenv.getD root) fileName).settings := by
    rcases entryEnds_of_load hload with hskipped | ⟨-, hvalidate⟩ | ⟨-, hvalidate⟩
    · exact absurd (hskipped.symm.trans h.loads) Bool.false_ne_true
    · rw [(sameNames_validate hvalidate).1, hfind]
      rfl
    · refine ((sameNames_validate hvalidate).1 _).trans ?_
      rw [hfind]
      rfl
  have hthere : serverExists v.servers (settingsServerName fileName) = true := by
    obtain ⟨srv, hsrv, -⟩ := Option.map_eq_some_iff.1 hentered
    exact Table.contains_eq_true.2 ⟨srv, hsrv⟩
  exact Option.map_eq_some_iff.1 ((settings_run hthere hafter).trans hentered)

/-- **When the settings come from the section `[client]`.** For every directory, all answers of the
world, and every settings file in it that is an INI file, with whatever sections, comments and keys:
the settings that are stored for the file are those of the section exactly if every one of them
meets its condition. -/
theorem settings_from_client_iff {getenv : Option Str} {opendir : Str → Option Directory}
    {start : State} (h : Stored world caller getenv opendir root start fileName t)
    (hfile : Ini.IsFile (settingsLines (world fileName) (getenv.getD root) fileName)) :
    ∃ srv, t.servers.find (settingsServerName fileName) = some srv ∧
      (FromClient (settingsLines (world fileName) (getenv.getD root) fileName) srv ↔
        ReadsClient (settingsLines (world fileName) (getenv.getD root) fileName)) := by
  obtain ⟨srv, hfind, hsettings⟩ := settings_of_stored h
  refine ⟨srv, hfind, Iff.trans ?_ (fromClient_serverOf_iff hfile)⟩
  obtain ⟨hparams, -, hfolder⟩ : srv.rucioConnParams = _ ∧ _ ∧ srv.tempConfigFolder = _ := by
    simpa [RucioServer.settings] using hsettings
  constructor
  · exact fun hfrom ↦ ⟨hparams ▸ hfrom.serverUrl, hparams ▸ hfrom.userName,
      hparams ▸ hfrom.password, hparams ▸ hfrom.accountName, hparams ▸ hfrom.rucioAuthMode,
      hparams ▸ hfrom.caPath, hfolder ▸ hfrom.tempConfigFolder⟩
  · exact fun hfrom ↦ ⟨hparams ▸ hfrom.serverUrl, hparams ▸ hfrom.userName,
      hparams ▸ hfrom.password, hparams ▸ hfrom.accountName, hparams ▸ hfrom.rucioAuthMode,
      hparams ▸ hfrom.caPath, hfolder ▸ hfrom.tempConfigFolder⟩

end AllSettings

/-! ### Two settings files -/

/-- A world in which the file of the server `s` says this, and everything is answered. -/
def settingsIo (text : String) : Io := { startupIo ⟨0, []⟩ with
  readFile := fun path ↦
    if path = "d/s.cfg".toList then some text.toList else if path = ['c'] then some [] else none }

/-- A start with this settings file. -/
def startWith (text : String) : Except Fault State :=
  parseSettingsCfg (fun _ ↦ settingsIo text) sampleCaller none
    (fun root ↦ if root = ['d'] then some oneServerDirectory else none) ['d']
    (State.start Table.empty [])

theorem stored_startWith {text : String} {t : State} (h : startWith text = .ok t)
    (hloads : loads (settingsIo text) ['d'] "s.cfg".toList = true) :
    Stored (fun _ ↦ settingsIo text) sampleCaller none
      (fun root ↦ if root = ['d'] then some oneServerDirectory else none) ['d']
      (State.start Table.empty []) "s.cfg".toList t where
  run := h
  first := ⟨oneServerDirectory, [], [], rfl, rfl, List.not_mem_nil⟩
  loads := hloads
  new := rfl

/-- A settings file with the settings in place. -/
def plainSettings : String := "# a server\n[client]\nrucio_host = h\nca_cert = c\n[other]\nx = y\n"

/-- The lines of that file meet the condition. -/
theorem readsClient_plain :
    ReadsClient ["# a server".toList, "[client]".toList, "rucio_host = h".toList,
      "ca_cert = c".toList, "[other]".toList, "x = y".toList] := by
  refine ⟨.own (?_ : _ = some (_, "rucio_host = h".toList)) (?_ : _ = some (_, ['h']))
    ⟨by decide, "rucio_host ".toList, 1, 0, by decide, by decide⟩, .unset ?_ ?_, .unset ?_ ?_,
    .unset ?_ ?_, .unset ?_ ?_,
    .own (?_ : _ = some (_, "ca_cert = c".toList)) (?_ : _ = some (_, ['c']))
    ⟨by decide, "ca_cert ".toList, 1, 0, by decide, by decide⟩, .unset ?_ ?_⟩
  all_goals decide +kernel

/-- Its settings come from the section. -/
theorem settings_from_client_plain : ∃ t srv, startWith plainSettings = .ok t ∧
    t.servers.find ['s'] = some srv ∧
    FromClient (settingsLines (settingsIo plainSettings) ['d'] "s.cfg".toList) srv := by
  have hrun : rucioListServers <$> startWith plainSettings = .ok [['s']] := by decide +kernel
  obtain ⟨t, ht, -⟩ := map_eq_ok hrun
  have hname : settingsServerName "s.cfg".toList = ['s'] := by decide +kernel
  have hlines : settingsLines (settingsIo plainSettings) ['d'] "s.cfg".toList =
      ["# a server".toList, "[client]".toList, "rucio_host = h".toList, "ca_cert = c".toList,
        "[other]".toList, "x = y".toList] := by
    decide +kernel
  have hreads : ReadsClient (settingsLines (settingsIo plainSettings) ['d'] "s.cfg".toList) :=
    hlines ▸ readsClient_plain
  obtain ⟨srv, hsrv, hiff⟩ :=
    settings_from_client_iff (stored_startWith ht (by decide +kernel)) (by decide +kernel)
  exact ⟨t, srv, ht, hname ▸ hsrv, hiff.2 hreads⟩

/-- A settings file with a longer key in another section, and a password with a space. -/
def crossedSettings : String :=
  "[client]\nrucio_host = h\naccount = a\npassword = p q\nca_cert = c\n[other]\naccounting = b\n"

/-- **Settings come from other sections and other keys, and lose their spaces.** -/
theorem not_settings_from_client_crossed :
    ¬ (∀ (world : Str → Io) (caller : Caller) (getenv : Option Str)
        (opendir : Str → Option Directory) (root : Str) (start : State) (fileName : Str)
        (t : State),
        Stored world caller getenv opendir root start fileName t →
        Ini.IsFile (settingsLines (world fileName) (getenv.getD root) fileName) →
        ∃ srv, t.servers.find (settingsServerName fileName) = some srv ∧
          FromClient (settingsLines (world fileName) (getenv.getD root) fileName) srv) ∧
    (startWith crossedSettings).map (fun t ↦ (t.servers.find ['s']).map fun srv ↦
      (srv.rucioConnParams.accountName, srv.rucioConnParams.password)) =
        .ok (some (['b'], ['p', 'q'])) := by
  have hrun : (startWith crossedSettings).map (fun t ↦ (t.servers.find ['s']).map fun srv ↦
      (srv.rucioConnParams.accountName, srv.rucioConnParams.password)) =
        .ok (some (['b'], ['p', 'q'])) := by decide +kernel
  refine ⟨fun hall ↦ ?_, hrun⟩
  obtain ⟨t, ht, hseen⟩ := map_eq_ok hrun
  have hname : settingsServerName "s.cfg".toList = ['s'] := by decide +kernel
  obtain ⟨srv, hsrv, hfrom⟩ := hall _ _ _ _ _ _ _ t (stored_startWith ht (by decide +kernel))
    (by decide +kernel)
  rw [hname] at hsrv
  rw [hsrv] at hseen
  have haccount : srv.rucioConnParams.accountName = ['b'] :=
    (Prod.mk.inj (Option.some.inj hseen)).1
  have hmeant := hfrom.accountName
  rw [haccount] at hmeant
  exact absurd hmeant (by decide +kernel)

end FusePosix
