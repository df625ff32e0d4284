import Mathlib
import SolBroker.Config.Amounts

/-!
# Settings

The configuration object and `add_config_value`. The key is compared with each documented
name in turn, over the length of the key, so that every beginning of a name is taken for
the first name it begins. What is written where is otherwise as documented.
-/

namespace SolBroker

/-- `enum log_level`. -/
inductive LogLevel
  | debug
  | information
  | warning
  | error
deriving DecidableEq, Repr

inductive SocketFamily
  | unix
  | inet
deriving DecidableEq, Repr

/-- An array of `0xFF` characters that holds a string. -/
structure TextField where
  text : CString
  fits : strlen text < 0xff
deriving DecidableEq, Repr

/-- `strcpy` into such an array. -/
def strcpyField (src : CString) : Except Fault TextField :=
  if fits : strlen src < 0xff then .ok ⟨src, fits⟩ else .error .outOfBounds

/-- `SOMAXCONN`. -/
def somaxconn : Nat := 4096

/-- `struct config`. -/
structure Config where
  version : CString
  run : Int
  loglevel : LogLevel
  epollTimeout : Int
  socketFamily : SocketFamily
  logpath : TextField
  hostname : TextField
  port : TextField
  maxMemory : Nat
  maxRequestSize : Nat
  tcpBacklog : Nat
  statsPubInterval : Nat
deriving DecidableEq, Repr

def lmap : List (CString × LogLevel) :=
  [(literal "DEBUG", .debug),
   (literal "WARNING", .warning),
   (literal "ERROR", .error),
   (literal "INFO", .information),
   (literal "INFORMATION", .information)]

/-- The loop over the first three entries of `lmap`. -/
def loglevelLoop (value : CString) (loglevel : LogLevel) : LogLevel :=
  (lmap.take 3).foldl (fun loglevel entry =>
    if streq entry.1 value (strlen value) then entry.2 else loglevel) loglevel

/-- The settings that a configuration file can change. -/
inductive Setting
  | logLevel
  | logPath
  | unixSocket
  | ipAddress
  | ipPort
  | maxMemory
  | maxRequestSize
  | tcpBacklog
  | statsPublishInterval
deriving DecidableEq, Repr

namespace Setting

def name : Setting → CString
  | logLevel => literal "log_level"
  | logPath => literal "log_path"
  | unixSocket => literal "unix_socket"
  | ipAddress => literal "ip_address"
  | ipPort => literal "ip_port"
  | maxMemory => literal "max_memory"
  | maxRequestSize => literal "max_request_size"
  | tcpBacklog => literal "tcp_backlog"
  | statsPublishInterval => literal "stats_publish_interval"

/-- In the order of the comparisons. -/
def all : List Setting :=
  [logLevel, logPath, unixSocket, ipAddress, ipPort, maxMemory, maxRequestSize, tcpBacklog,
   statsPublishInterval]

/-- The branch of `add_config_value` for a setting. -/
def write (config : Config) (value : CString) : Setting → Except Fault Config
  | logLevel => .ok { config with loglevel := loglevelLoop value config.loglevel }
  | logPath => do
      let logpath ← strcpyField value
      return { config with logpath }
  | unixSocket => do
      let hostname ← strcpyField value
      return { config with socketFamily := .unix, hostname }
  | ipAddress => do
      let hostname ← strcpyField value
      return { config with socketFamily := .inet, hostname }
  | ipPort => do
      let port ← strcpyField value
      return { config with port }
  | maxMemory => do
      let maxMemory ← readMemoryWithMul value
      return { config with maxMemory }
  | maxRequestSize => do
      let maxRequestSize ← readMemoryWithMul value
      return { config with maxRequestSize }
  | tcpBacklog => do
      let tcpBacklog ← parseInt value
      return { config with tcpBacklog := if tcpBacklog ≤ somaxconn then tcpBacklog else somaxconn }
  | statsPublishInterval => do
      let statsPubInterval ← readTimeWithMul value
      return { config with statsPubInterval }

end Setting

/-- The first comparison that succeeds. -/
def settingOf (key : CString) : Option Setting :=
  Setting.all.find? fun s => streq s.name key (strlen key)

def addConfigValue (config : Config) (key value : CString) : Except Fault Config :=
  match settingOf key with
  | some s => s.write config value
  | none => .ok config

/-- `config_set_default`, with the descriptor that `eventfd` returns. -/
def configSetDefault (run : Int) : Except Fault Config := do
  let logpath ← strcpyField (literal "/tmp/sol.log")
  let hostname ← strcpyField (literal "127.0.0.1")
  let port ← strcpyField (literal "1883")
  let maxMemory ← readMemoryWithMul (literal "2GB")
  let maxRequestSize ← readMemoryWithMul (literal "2MB")
  let statsPubInterval ← readTimeWithMul (literal "10s")
  return { version := literal "0.0.1", run, loglevel := .debug, epollTimeout := -1,
           socketFamily := .inet, logpath, hostname, port, maxMemory, maxRequestSize,
           tcpBacklog := somaxconn, statsPubInterval }

/-! ## Which setting a key is taken for -/

/-- Equal up to letter case. -/
def CString.CaseEq (s t : CString) : Prop :=
  s.bytes.map tolower = t.bytes.map tolower

instance (s t : CString) : Decidable (s.CaseEq t) :=
  inferInstanceAs (Decidable (_ = _))

theorem CString.CaseEq.casePrefix {s t : CString} (same : s.CaseEq t) : s.CasePrefix t :=
  ⟨[], by rw [List.append_nil, same]⟩

theorem Setting.mem_all (s : Setting) : s ∈ Setting.all := by
  cases s <;> decide

theorem settingOf_eq_none_iff (key : CString) :
    settingOf key = none ↔ ∀ s : Setting, ¬ key.CasePrefix s.name := by
  simp only [settingOf, List.find?_eq_none, ← streq_right_iff]
  exact ⟨fun none_ s => none_ s s.mem_all, fun none_ s _ => none_ s⟩

theorem casePrefix_of_settingOf {key : CString} {s : Setting} (taken : settingOf key = some s) :
    key.CasePrefix s.name := by
  rw [← streq_right_iff]
  unfold settingOf at taken
  have test := List.find?_some taken
  exact test

/-- No documented name begins another one. -/
theorem Setting.eq_of_casePrefix {s t : Setting} (begins : s.name.CasePrefix t.name) : s = t := by
  revert begins
  cases s <;> cases t <;> decide

/-- A documented name, in any letter case, is taken for its own setting. -/
theorem settingOf_of_caseEq {key : CString} {s : Setting} (exact_ : key.CaseEq s.name) :
    settingOf key = some s := by
  cases taken : settingOf key with
  | none => exact absurd exact_.casePrefix ((settingOf_eq_none_iff key).mp taken s)
  | some t =>
      have begins := casePrefix_of_settingOf taken
      have named : s.name.CasePrefix t.name := by
        rw [CString.CasePrefix, ← exact_]
        exact begins
      rw [Setting.eq_of_casePrefix named]

/-! ## What is written -/

namespace Setting

/-- The value can be stored: a text fits its array, a number an `int`. -/
def Accepts (value : CString) : Setting → Prop
  | logLevel => True
  | logPath | unixSocket | ipAddress | ipPort => strlen value < 0xff
  | maxMemory | maxRequestSize | tcpBacklog | statsPublishInterval =>
      digitsValue 0 (value.bytes.takeWhile isdigit) ≤ intMax

/-- All but the fields of the setting are as they were. -/
def ChangesOnly (config config' : Config) : Setting → Prop
  | logLevel => config' = { config with loglevel := config'.loglevel }
  | logPath => config' = { config with logpath := config'.logpath }
  | unixSocket | ipAddress => config' =
      { config with socketFamily := config'.socketFamily, hostname := config'.hostname }
  | ipPort => config' = { config with port := config'.port }
  | maxMemory => config' = { config with maxMemory := config'.maxMemory }
  | maxRequestSize => config' = { config with maxRequestSize := config'.maxRequestSize }
  | tcpBacklog => config' = { config with tcpBacklog := config'.tcpBacklog }
  | statsPublishInterval => config' =
      { config with statsPubInterval := config'.statsPubInterval }

/-- The setting already is what the value stands for. -/
def Holds (config : Config) (value : CString) : Setting → Prop
  | logLevel => ∀ entry, ((lmap.take 3).filter fun entry => value.CasePrefix entry.1).getLast? =
      some entry → config.loglevel = entry.2
  | logPath => config.logpath.text = value
  | unixSocket => config.socketFamily = .unix ∧ config.hostname.text = value
  | ipAddress => config.socketFamily = .inet ∧ config.hostname.text = value
  | ipPort => config.port.text = value
  | maxMemory => readMemoryWithMul value = .ok config.maxMemory
  | maxRequestSize => readMemoryWithMul value = .ok config.maxRequestSize
  | tcpBacklog => ∃ n, parseInt value = .ok n ∧ config.tcpBacklog = min n somaxconn
  | statsPublishInterval => readTimeWithMul value = .ok config.statsPubInterval

end Setting

theorem strcpyField_eq_ok {src : CString} {field : TextField} :
    strcpyField src = .ok field ↔ field.text = src := by
  obtain ⟨text, fits⟩ := field
  unfold strcpyField
  split
  · simp only [Except.ok.injEq, TextField.mk.injEq]
    exact eq_comm
  · rename_i long
    refine iff_of_false nofun fun same => long ?_
    rw [← show text = src from same]
    exact fits

theorem exists_strcpyField {src : CString} :
    (∃ field, strcpyField src = .ok field) ↔ strlen src < 0xff := by
  constructor
  · rintro ⟨field, copied⟩
    rw [← strcpyField_eq_ok.mp copied]
    exact field.fits
  · intro fits
    exact ⟨⟨src, fits⟩, strcpyField_eq_ok.mpr rfl⟩

theorem exists_parseInt {string : CString} :
    (∃ n, parseInt string = .ok n) ↔
      digitsValue 0 (string.bytes.takeWhile isdigit) ≤ intMax := by
  rw [parseInt_eq]
  split
  · rename_i small
    exact iff_of_true ⟨_, rfl⟩ small
  · rename_i large
    exact iff_of_false nofun large

/-- What stores or returns what it has read returns exactly if it could read it. -/
theorem exists_store {α β : Type} {x : Except Fault α} {f : α → β} :
    (∃ b, (do let a ← x; return f a) = Except.ok b) ↔ ∃ a, x = .ok a := by
  simp only [bind_eq_ok]
  constructor
  · rintro ⟨_, a, read, _⟩
    exact ⟨a, read⟩
  · rintro ⟨a, read⟩
    exact ⟨_, a, read, rfl⟩

theorem exists_readMemoryWithMul {string : CString} :
    (∃ n, readMemoryWithMul string = .ok n) ↔
      digitsValue 0 (string.bytes.takeWhile isdigit) ≤ intMax :=
  exists_store.trans exists_parseInt

theorem exists_readTimeWithMul {string : CString} :
    (∃ n, readTimeWithMul string = .ok n) ↔
      digitsValue 0 (string.bytes.takeWhile isdigit) ≤ intMax :=
  exists_store.trans exists_parseInt

/-- A loop that overwrites keeps the last hit. -/
theorem foldl_overwrite {α β : Type*} (p : α → Bool) (f : α → β) (start : β) (entries : List α) :
    entries.foldl (fun last entry => if p entry then f entry else last) start =
      ((entries.filter p).getLast?.map f).getD start := by
  induction entries using List.reverseRecOn with
  | nil => rfl
  | append_singleton entries entry ih =>
      rw [List.foldl_append, List.filter_append, ih]
      cases hit : p entry <;> simp [hit]

theorem loglevelLoop_eq (value : CString) (loglevel : LogLevel) :
    loglevelLoop value loglevel =
      (((lmap.take 3).filter fun entry => value.CasePrefix entry.1).getLast?.map Prod.snd).getD
        loglevel := by
  have test (entry : CString × LogLevel) :
      streq entry.1 value (strlen value) = decide (value.CasePrefix entry.1) := by
    rw [Bool.eq_iff_iff, decide_eq_true_iff, streq_right_iff]
  simp only [loglevelLoop, test]
  exact foldl_overwrite (fun entry => decide (value.CasePrefix entry.1)) Prod.snd loglevel _

namespace Setting

theorem exists_write {config : Config} {value : CString} {s : Setting} :
    (∃ config', s.write config value = .ok config') ↔ s.Accepts value := by
  cases s with
  | logLevel => exact iff_of_true ⟨_, rfl⟩ trivial
  | logPath | unixSocket | ipAddress | ipPort => exact exists_store.trans exists_strcpyField
  | maxMemory | maxRequestSize => exact exists_store.trans exists_readMemoryWithMul
  | tcpBacklog => exact exists_store.trans exists_parseInt
  | statsPublishInterval => exact exists_store.trans exists_readTimeWithMul

/-- A branch leaves the other settings alone. -/
theorem changesOnly_of_write {config config' : Config} {value : CString} {s : Setting}
    (written : s.write config value = .ok config') : s.ChangesOnly config config' := by
  cases s with
  | logLevel =>
      cases written
      rfl
  | logPath | unixSocket | ipAddress | ipPort | maxMemory | maxRequestSize | tcpBacklog
  | statsPublishInterval =>
      obtain ⟨_, _, stored⟩ := bind_eq_ok.mp written
      cases stored
      rfl

/-- Writing what is there already, and nothing else, changes nothing. -/
theorem write_eq_self_iff {config : Config} {value : CString} {s : Setting} :
    s.write config value = .ok config ↔ s.Holds config value := by
  obtain ⟨version, run, loglevel, epollTimeout, socketFamily, logpath, hostname, port, maxMemory,
    maxRequestSize, tcpBacklog, statsPubInterval⟩ := config
  cases s with
  | logLevel =>
      simp only [write, Holds, loglevelLoop_eq, Except.ok.injEq, Config.mk.injEq, true_and,
        and_true]
      cases ((lmap.take 3).filter fun entry => value.CasePrefix entry.1).getLast? with
      | none => simp
      | some entry => simp [eq_comm]
  | logPath | unixSocket | ipAddress | ipPort =>
      simp only [write, Holds, bind_eq_ok, strcpyField_eq_ok, pure, Except.pure, Except.ok.injEq,
        Config.mk.injEq, true_and, and_true]
      simp [and_comm, eq_comm]
  | maxMemory | maxRequestSize | statsPublishInterval =>
      simp only [write, Holds, bind_eq_ok, pure, Except.pure, Except.ok.injEq,
        Config.mk.injEq, true_and, and_true]
      simp
  | tcpBacklog =>
      simp only [write, Holds, bind_eq_ok, pure, Except.pure, Except.ok.injEq,
        Config.mk.injEq, true_and, and_true, min_def, eq_comm (a := tcpBacklog)]

end Setting

/-- The defaults are read without a fault. -/
theorem exists_configSetDefault (run : Int) : ∃ config, configSetDefault run = .ok config :=
  ⟨_, rfl⟩

/-! ## Exact keys -/

/-- The pair changes the setting that the key names, and no other; a key that names none
changes nothing. -/
def ChangesNamedOnly (config : Config) (key value : CString) : Prop :=
  ∃ config', addConfigValue config key value = .ok config' ∧
    ((∃ s : Setting, key.CaseEq s.name ∧ s.ChangesOnly config config') ∨
      (∀ s : Setting, ¬ key.CaseEq s.name) ∧ config' = config)

/-- A pair changes what its key names and nothing else exactly if the key is a documented
name, in any letter case, whose setting can store the value; or begins no documented name;
or the first name it begins is that of a setting that has the value already. -/
theorem changesNamedOnly_iff (config : Config) (key value : CString) :
    ChangesNamedOnly config key value ↔
      (∃ s : Setting, key.CaseEq s.name ∧ s.Accepts value) ∨
        (∀ s : Setting, ¬ key.CasePrefix s.name) ∨
          ∃ s, settingOf key = some s ∧ s.Holds config value := by
  constructor
  · rintro ⟨config', added, ⟨s, named, _⟩ | ⟨unnamed, rfl⟩⟩
    · rw [addConfigValue, settingOf_of_caseEq named] at added
      exact .inl ⟨s, named, Setting.exists_write.mp ⟨config', added⟩⟩
    · cases taken : settingOf key with
      | none => exact .inr (.inl ((settingOf_eq_none_iff key).mp taken))
      | some s =>
          rw [addConfigValue, taken] at added
          exact .inr (.inr ⟨s, rfl, Setting.write_eq_self_iff.mp added⟩)
  · rintro (⟨s, named, accepted⟩ | begins | ⟨s, taken, held⟩)
    · obtain ⟨config', written⟩ := Setting.exists_write.mpr accepted
      refine ⟨config', ?_, .inl ⟨s, named, Setting.changesOnly_of_write written⟩⟩
      rw [addConfigValue, settingOf_of_caseEq named]
      exact written
    · refine ⟨config, ?_, .inr ⟨fun s named => begins s named.casePrefix, rfl⟩⟩
      rw [addConfigValue, (settingOf_eq_none_iff key).mpr begins]
    · have kept := Setting.write_eq_self_iff.mpr held
      refine ⟨config, by rw [addConfigValue, taken]; exact kept, ?_⟩
      by_cases named : ∃ s : Setting, key.CaseEq s.name
      · obtain ⟨t, named⟩ := named
        obtain rfl : s = t := Option.some.inj (taken.symm.trans (settingOf_of_caseEq named))
        exact .inl ⟨s, named, Setting.changesOnly_of_write kept⟩
      · exact .inr ⟨fun t same => named ⟨t, same⟩, rfl⟩

/-- The level is set by a key that names no setting. -/
theorem changesNamedOnly_log :
    ¬ ∀ config key value, ChangesNamedOnly config key value := by
  intro always
  obtain ⟨default_, _⟩ := exists_configSetDefault 0
  have taken : settingOf (literal "log") = some .logLevel := by decide
  obtain ⟨config', added, ⟨s, named, _⟩ | ⟨_, rfl⟩⟩ :=
    always { default_ with loglevel := .debug } (literal "log") (literal "ERROR")
  · obtain rfl : s = .logLevel := Option.some.inj ((settingOf_of_caseEq named).symm.trans taken)
    exact absurd named (by decide)
  · rw [addConfigValue, taken] at added
    have level := congrArg Config.loglevel (Except.ok.inj added)
    have now : loglevelLoop (literal "ERROR") .debug = .error := by decide
    cases now.symm.trans level

end SolBroker
