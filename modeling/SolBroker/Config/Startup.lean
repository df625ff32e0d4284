import Mathlib
import SolBroker.Config.Load

/-!
# From the command line to the configuration

`main` up to its call of `start_server`: the defaults, the options that `getopt` finds, the
level of the log, and the configuration file. Each writes over what was there before, so a
setting is as its last writer left it, and the file has the last word. The variables that
`main` only assigns are left out.
-/

namespace SolBroker

open Words

/-! ## The options -/

/-- An answer of `getopt`, with `optarg`. A question mark stands for an option that is not in
`optstring`, or has no argument where it takes one. -/
structure Opt where
  opt : UInt8
  optarg : CString
deriving DecidableEq, Repr

/-- Whether an option of `optstring` has a colon behind it. -/
def takesArgument (optstring : CString) (c : UInt8) : Option Bool :=
  if c = 58 then none
  else (optstring.bytes.dropWhile (· ≠ c)).tail?.map fun rest => rest.head? = some 58

/-- The options in what is left of one argument, with the arguments that remain. -/
def clusterOptions (optstring : CString) : List UInt8 → List CString → List Opt × List CString
  | [], argv => ([], argv)
  | c :: cs, argv =>
      if takesArgument optstring c = some true then
        if cs ≠ [] then ([⟨c, cstr cs⟩], argv)
        else
          match argv with
          | [] => ([⟨63, cstr []⟩], [])
          | optarg :: argv => ([⟨c, optarg⟩], argv)
      else
        let (opts, argv) := clusterOptions optstring cs argv
        (⟨if takesArgument optstring c = some false then c else 63, cstr []⟩ :: opts, argv)

/-- The answers of `getopt` for at most `fuel` arguments, until it finds one that is no option,
or `--`. -/
def getoptLoop (optstring : CString) : Nat → List CString → List Opt
  | 0, _ => []
  | _ + 1, [] => []
  | fuel + 1, arg :: argv =>
      match arg.bytes with
      | dash :: c :: cs =>
          if dash ≠ 45 ∨ c = 45 ∧ cs = [] then []
          else
            let (opts, argv) := clusterOptions optstring (c :: cs) argv
            opts ++ getoptLoop optstring fuel argv
      | _ => []

/-- `getopt` as POSIX has it, called until it returns `-1`. -/
def getopt (optstring : CString) (argv : List CString) : List Opt :=
  getoptLoop optstring argv.length argv

/-- The variables of `main` that are read behind its loop. -/
structure Startup where
  config : Config
  confpath : CString
  debug : Bool
deriving DecidableEq, Repr

/-- The loop over the options; `none` stands for the exit with the usage. -/
def optionLoop : Startup → List Opt → Except Fault (Option Startup)
  | s, [] => .ok (some s)
  | s, o :: opts =>
      if o.opt = 97 then do
        let hostname ← strcpyField o.optarg
        optionLoop { s with config := { s.config with hostname } } opts
      else if o.opt = 99 then optionLoop { s with confpath := o.optarg } opts
      else if o.opt = 112 then do
        let port ← strcpyField o.optarg
        optionLoop { s with config := { s.config with port } } opts
      else if o.opt = 118 then optionLoop { s with debug := true } opts
      else .ok none

def mainOptstring : CString := literal "a:c:p:m:vn:"

example : getopt mainOptstring [literal "-va", literal "host", literal "--", literal "-m"] =
    [⟨118, literal ""⟩, ⟨97, literal "host"⟩] := by decide

def defaultConfPath : CString := literal "/etc/sol/sol.conf"

/-- `main` up to `start_server`, with the configuration it is called with. What can be read
of the files is given by their paths; `run` is the descriptor that `eventfd` returns. -/
def main (run : Int) (argv : List CString) (files : CString → Option (List UInt8)) :
    Except Fault (Option Config) := do
  let config ← configSetDefault run
  let parsed ← optionLoop ⟨config, defaultConfPath, false⟩ (getopt mainOptstring argv.tail)
  match parsed with
  | none => return none
  | some s => do
      let loglevel := if s.debug then .debug else .warning
      let (_, config) ← configLoad { s.config with loglevel } (files s.confpath)
      return some config

/-! ## Who writes what -/

/-- What writes to the configuration. -/
inductive Assignment
  | addr (optarg : CString)
  | port (optarg : CString)
  | level (debug : Bool)
  | setting (s : Setting) (value : CString)

namespace Assignment

def apply (config : Config) : Assignment → Except Fault Config
  | addr optarg => do
      let hostname ← strcpyField optarg
      return { config with hostname }
  | port optarg => do
      let port ← strcpyField optarg
      return { config with port }
  | level debug => .ok { config with loglevel := if debug then .debug else .warning }
  | setting s value => s.write config value

/-- The value can be stored. -/
def Accepted : Assignment → Prop
  | addr optarg | port optarg => strlen optarg < 0xff
  | level _ => True
  | setting s value => s.Accepts value

def loglevel? : Assignment → Option LogLevel
  | level debug => some (if debug then .debug else .warning)
  | setting .logLevel value =>
      ((lmap.take 3).filter fun entry => value.CasePrefix entry.1).getLast?.map Prod.snd
  | _ => none

def logpath? : Assignment → Option CString
  | setting .logPath value => some value
  | _ => none

def socketFamily? : Assignment → Option SocketFamily
  | setting .unixSocket _ => some .unix
  | setting .ipAddress _ => some .inet
  | _ => none

def hostname? : Assignment → Option CString
  | addr optarg => some optarg
  | setting .unixSocket value | setting .ipAddress value => some value
  | _ => none

def port? : Assignment → Option CString
  | port optarg => some optarg
  | setting .ipPort value => some value
  | _ => none

def maxMemory? : Assignment → Option Nat
  | setting .maxMemory value => (readMemoryWithMul value).toOption
  | _ => none

def maxRequestSize? : Assignment → Option Nat
  | setting .maxRequestSize value => (readMemoryWithMul value).toOption
  | _ => none

def tcpBacklog? : Assignment → Option Nat
  | setting .tcpBacklog value => (parseInt value).toOption.map fun n => min n somaxconn
  | _ => none

def statsPubInterval? : Assignment → Option Nat
  | setting .statsPublishInterval value => (readTimeWithMul value).toOption
  | _ => none

end Assignment

/-- What the last writer wrote, or else what was there. -/
def lastOf {γ : Type} (wrote : Assignment → Option γ) (writes : List Assignment) (start : γ) : γ :=
  (writes.filterMap wrote).getLast?.getD start

/-- Every field is as its last writer left it. -/
structure Config.LastWritten (start : Config) (writes : List Assignment) (config : Config) :
    Prop where
  version : config.version = start.version
  run : config.run = start.run
  epollTimeout : config.epollTimeout = start.epollTimeout
  loglevel : config.loglevel = lastOf Assignment.loglevel? writes start.loglevel
  socketFamily : config.socketFamily = lastOf Assignment.socketFamily? writes start.socketFamily
  logpath : config.logpath.text = lastOf Assignment.logpath? writes start.logpath.text
  hostname : config.hostname.text = lastOf Assignment.hostname? writes start.hostname.text
  port : config.port.text = lastOf Assignment.port? writes start.port.text
  maxMemory : config.maxMemory = lastOf Assignment.maxMemory? writes start.maxMemory
  maxRequestSize : config.maxRequestSize =
    lastOf Assignment.maxRequestSize? writes start.maxRequestSize
  tcpBacklog : config.tcpBacklog = lastOf Assignment.tcpBacklog? writes start.tcpBacklog
  statsPubInterval : config.statsPubInterval =
    lastOf Assignment.statsPubInterval? writes start.statsPubInterval

namespace Opt

/-- An option that `main` has a case for. -/
def Known (o : Opt) : Prop := o.opt = 97 ∨ o.opt = 99 ∨ o.opt = 112 ∨ o.opt = 118

instance (o : Opt) : Decidable o.Known := inferInstanceAs (Decidable (_ ∨ _))

def assignment (o : Opt) : Option Assignment :=
  if o.opt = 97 then some (.addr o.optarg)
  else if o.opt = 112 then some (.port o.optarg)
  else none

end Opt

/-- The path behind the last `-c`. -/
def confpathOf (opts : List Opt) (start : CString) : CString :=
  ((opts.filter fun o => o.opt = 99).getLast?.map Opt.optarg).getD start

/-- There is a `-v`. -/
def debugOf (opts : List Opt) : Bool := opts.any fun o => o.opt = 118

/-- The strings that `fgets` reads from a file, at most `fuel` of them. -/
def readLinesLoop : Nat → List UInt8 → List CString
  | 0, _ => []
  | fuel + 1, file =>
      match fgets 0xff file with
      | none => []
      | some (line, file) => cstr line :: readLinesLoop fuel file

def readLines (file : List UInt8) : List CString := readLinesLoop (file.length + 1) file

/-- A line that is no comment writes its second word to the setting that its first word is
taken for; with one word only, the empty text. -/
def lineAssignment (line : CString) : Option Assignment :=
  if line.bytes.head? = some 35 ∨ words isspace line.bytes = [] then none
  else (settingOf (cstr ((words isspace line.bytes).getD 0 []))).map fun s =>
    .setting s (cstr ((words isspace line.bytes).getD 1 []))

/-- All that writes over the defaults, in the order of time. -/
def mainWrites (argv : List CString) (files : CString → Option (List UInt8)) :
    List Assignment :=
  let opts := getopt mainOptstring argv.tail
  let lines := ((files (confpathOf opts defaultConfPath)).map readLines).getD []
  opts.filterMap Opt.assignment ++ [.level (debugOf opts)] ++ lines.filterMap lineAssignment

/-! ## The last writer -/

theorem lastOf_singleton {γ : Type} (wrote : Assignment → Option γ) (a : Assignment) (start : γ) :
    lastOf wrote [a] start = (wrote a).getD start := by
  unfold lastOf
  cases written : wrote a <;> simp [written]

theorem toOption_ok {α : Type} {x : Except Fault α} {a : α} (read : x = .ok a) :
    x.toOption = some a := by
  rw [read]
  rfl

namespace Assignment

theorem exists_apply (config : Config) (a : Assignment) :
    (∃ config', a.apply config = .ok config') ↔ a.Accepted := by
  cases a with
  | addr optarg | port optarg => exact exists_store.trans exists_strcpyField
  | level debug => exact iff_of_true ⟨_, rfl⟩ trivial
  | setting s value => exact Setting.exists_write

/-- One write leaves in every field what it wrote there, or what was there. -/
theorem lastWritten_of_apply {config config' : Config} {a : Assignment}
    (applied : a.apply config = .ok config') : config.LastWritten [a] config' := by
  cases a with
  | addr optarg | port optarg =>
      obtain ⟨field, copied, stored⟩ := bind_eq_ok.mp applied
      cases stored
      have text := strcpyField_eq_ok.mp copied
      constructor <;> simp only [lastOf_singleton] <;> first | rfl | exact text
  | level debug =>
      cases applied
      constructor <;> simp only [lastOf_singleton] <;> rfl
  | setting s value =>
      cases s with
      | logLevel =>
          cases applied
          constructor <;> simp only [lastOf_singleton, loglevelLoop_eq] <;> rfl
      | logPath | unixSocket | ipAddress | ipPort =>
          obtain ⟨field, copied, stored⟩ := bind_eq_ok.mp applied
          cases stored
          have text := strcpyField_eq_ok.mp copied
          constructor <;> simp only [lastOf_singleton] <;> first | rfl | exact text
      | maxMemory | maxRequestSize | statsPublishInterval =>
          obtain ⟨n, read, stored⟩ := bind_eq_ok.mp applied
          cases stored
          have wrote := toOption_ok read
          constructor <;> simp only [lastOf_singleton, maxMemory?, maxRequestSize?,
            statsPubInterval?, wrote] <;> rfl
      | tcpBacklog =>
          obtain ⟨n, read, stored⟩ := bind_eq_ok.mp applied
          cases stored
          have wrote := toOption_ok read
          constructor <;> simp only [lastOf_singleton, tcpBacklog?, wrote] <;> rfl

end Assignment

namespace Config.LastWritten

variable {start config config' : Config} {writes : List Assignment}

/-- The last writers determine the configuration. -/
theorem unique (written : start.LastWritten writes config)
    (written' : start.LastWritten writes config') : config = config' := by
  have text {field field' : TextField} (same : field.text = field'.text) : field = field' := by
    cases field
    cases field'
    simpa using same
  cases config
  cases config'
  rw [Config.mk.injEq]
  exact ⟨written.version.trans written'.version.symm, written.run.trans written'.run.symm,
    written.loglevel.trans written'.loglevel.symm,
    written.epollTimeout.trans written'.epollTimeout.symm,
    written.socketFamily.trans written'.socketFamily.symm,
    text (written.logpath.trans written'.logpath.symm),
    text (written.hostname.trans written'.hostname.symm),
    text (written.port.trans written'.port.symm),
    written.maxMemory.trans written'.maxMemory.symm,
    written.maxRequestSize.trans written'.maxRequestSize.symm,
    written.tcpBacklog.trans written'.tcpBacklog.symm,
    written.statsPubInterval.trans written'.statsPubInterval.symm⟩

end Config.LastWritten

/-- What a sequence of writes leaves. -/
theorem lastWritten_of_foldlM {start config : Config} {writes : List Assignment}
    (run : writes.foldlM Assignment.apply start = .ok config) :
    start.LastWritten writes config := by
  have each {γ : Type} {cell : Config → γ} {wrote : Assignment → Option γ}
      (field : ∀ {config config' : Config} {a : Assignment}, a.apply config = .ok config' →
        cell config' = lastOf wrote [a] (cell config)) :
      cell config = lastOf wrote writes (cell start) := by
    refine List.foldlM_lastWrite wrote (fun {b x b'} applied => ?_) run
    rw [field applied, lastOf_singleton]
  have kept {γ : Type} {cell : Config → γ}
      (field : ∀ {config config' : Config} {a : Assignment}, a.apply config = .ok config' →
        cell config' = cell config) : cell config = cell start := by
    have none_ := List.foldlM_lastWrite (fun _ => none) (fun applied => field applied) run
    simpa using none_
  exact ⟨kept fun applied => (Assignment.lastWritten_of_apply applied).version,
    kept fun applied => (Assignment.lastWritten_of_apply applied).run,
    kept fun applied => (Assignment.lastWritten_of_apply applied).epollTimeout,
    each fun applied => (Assignment.lastWritten_of_apply applied).loglevel,
    each fun applied => (Assignment.lastWritten_of_apply applied).socketFamily,
    each fun applied => (Assignment.lastWritten_of_apply applied).logpath,
    each fun applied => (Assignment.lastWritten_of_apply applied).hostname,
    each fun applied => (Assignment.lastWritten_of_apply applied).port,
    each fun applied => (Assignment.lastWritten_of_apply applied).maxMemory,
    each fun applied => (Assignment.lastWritten_of_apply applied).maxRequestSize,
    each fun applied => (Assignment.lastWritten_of_apply applied).tcpBacklog,
    each fun applied => (Assignment.lastWritten_of_apply applied).statsPubInterval⟩

/-- Writes return exactly if every value can be stored, with every field as its last writer
left it. -/
theorem foldlM_apply_eq_ok_iff {start config : Config} {writes : List Assignment} :
    writes.foldlM Assignment.apply start = .ok config ↔
      (∀ a ∈ writes, a.Accepted) ∧ start.LastWritten writes config := by
  have returns := List.exists_foldlM_eq_ok_iff (l := writes) Assignment.exists_apply start
  constructor
  · intro run
    exact ⟨returns.mp ⟨config, run⟩, lastWritten_of_foldlM run⟩
  · rintro ⟨accepted, written⟩
    obtain ⟨config', run⟩ := returns.mpr accepted
    rw [run, written.unique (lastWritten_of_foldlM run)]

/-! ## The file -/

theorem fgetsLoop_length_le (room : Nat) (file : List UInt8) :
    (fgetsLoop room file).1.length ≤ room := by
  induction room generalizing file with
  | zero => exact Nat.le_refl _
  | succ room ih =>
      cases file with
      | nil => exact Nat.zero_le _
      | cons c file =>
          rw [fgetsLoop]
          split
          · simp
          · exact Nat.succ_le_succ (ih file)

theorem fgetsLoop_rest_le (room : Nat) (file : List UInt8) :
    (fgetsLoop room file).2.length ≤ file.length := by
  induction room generalizing file with
  | zero => exact Nat.le_refl _
  | succ room ih =>
      cases file with
      | nil => exact Nat.le_refl _
      | cons c file =>
          rw [fgetsLoop]
          split
          · exact Nat.le_succ _
          · exact (ih file).trans (Nat.le_succ _)

/-- What `fgets` reads fits its buffer, and the file gets shorter. -/
theorem fgets_some {file line rest : List UInt8} (read : fgets 0xff file = some (line, rest)) :
    line.length < 0xff ∧ rest.length < file.length := by
  cases file with
  | nil => cases read
  | cons c file =>
      have both := Option.some.inj read
      have line_ := congrArg Prod.fst both
      have rest_ := congrArg Prod.snd both
      dsimp only at line_ rest_
      refine ⟨?_, ?_⟩
      · rw [← line_]
        exact Nat.lt_succ_of_le (fgetsLoop_length_le _ _)
      · rw [← rest_]
        change (fgetsLoop (253 + 1) (c :: file)).2.length < _
        rw [fgetsLoop]
        split
        · exact Nat.lt_succ_self _
        · exact Nat.lt_succ_of_le (fgetsLoop_rest_le 253 file)

/-- The body of the loop makes the assignment of its line, if there is one. -/
theorem loadLine_assignment (config : Config) {line : CString} (fits : strlen line < 0xff) :
    loadLine config line = (lineAssignment line).elim (.ok config) fun a => a.apply config := by
  rw [loadLine_eq config fits, lineAssignment]
  split
  · rfl
  · rw [addConfigValue]
    cases settingOf (cstr ((words isspace line.bytes).getD 0 [])) <;> rfl

/-- The loop of `config_load` makes the assignments of the lines it reads. -/
theorem configLoadLoop_assignments (fuel : Nat) {file : List UInt8} (config : Config)
    (enough : file.length < fuel) :
    configLoadLoop fuel file config =
      ((readLinesLoop fuel file).filterMap lineAssignment).foldlM Assignment.apply config := by
  induction fuel generalizing file config with
  | zero => omega
  | succ fuel ih =>
      rw [configLoadLoop, readLinesLoop]
      cases read : fgets 0xff file with
      | none => rfl
      | some pair =>
          obtain ⟨line, rest⟩ := pair
          obtain ⟨fits, shorter⟩ := fgets_some read
          have later (config : Config) := ih config (by omega : rest.length < fuel)
          dsimp only
          rw [loadLine_assignment config ((cstr_length_le line).trans_lt fits), funext later,
            List.filterMap_cons]
          cases lineAssignment (cstr line) with
          | none => rfl
          | some a => rw [List.foldlM_cons, Option.elim_some]

/-- `config_load` makes the assignments of the lines, and none if it cannot open the file. -/
theorem configLoad_eq_ok_iff {config config' : Config} {file : Option (List UInt8)} :
    (∃ opened, configLoad config file = .ok (opened, config')) ↔
      (((file.map readLines).getD []).filterMap lineAssignment).foldlM Assignment.apply config =
        .ok config' := by
  cases file with
  | none =>
      constructor
      · rintro ⟨opened, loaded⟩
        cases loaded
        rfl
      · intro loaded
        cases loaded
        exact ⟨false, rfl⟩
  | some file =>
      rw [configLoad, configLoadLoop_assignments _ config (Nat.lt_succ_self file.length),
        Option.map_some, Option.getD_some, readLines]
      constructor
      · rintro ⟨opened, loaded⟩
        obtain ⟨config'', run, same⟩ := bind_eq_ok.mp loaded
        cases same
        exact run
      · intro run
        exact ⟨true, bind_eq_ok.mpr ⟨config', run, rfl⟩⟩

/-! ## The loop over the options -/

section Options

variable {s t : Startup} {before opts : List Opt} {o : Opt}

theorem confpathOf_cons (o : Opt) (opts : List Opt) (start : CString) :
    confpathOf (o :: opts) start = confpathOf opts (if o.opt = 99 then o.optarg else start) := by
  unfold confpathOf
  by_cases path : o.opt = 99
  · rw [List.filter_cons_of_pos (by simpa using path), if_pos path, List.getLast?_cons]
    cases (opts.filter fun o => o.opt = 99).getLast? <;> rfl
  · rw [List.filter_cons_of_neg (by simpa using path), if_neg path]

theorem debugOf_cons (o : Opt) (opts : List Opt) :
    debugOf (o :: opts) = (decide (o.opt = 118) || debugOf opts) := List.any_cons

/-- A round of the loop, for an option that there is a case for. -/
theorem optionLoop_known (known : o.Known) (s : Startup) (opts : List Opt) :
    optionLoop s (o :: opts) =
      o.assignment.elim (.ok s.config) (fun a => a.apply s.config) >>= fun config =>
        optionLoop { config, confpath := if o.opt = 99 then o.optarg else s.confpath,
                     debug := s.debug || o.opt = 118 } opts := by
  obtain ⟨opt, optarg⟩ := o
  obtain rfl | rfl | rfl | rfl := known
  · show (strcpyField optarg >>= _) = ((strcpyField optarg >>= _) >>= _)
    cases strcpyField optarg <;> simp <;> rfl
  · simp [optionLoop, Opt.assignment]
    rfl
  · show (strcpyField optarg >>= _) = ((strcpyField optarg >>= _) >>= _)
    cases strcpyField optarg <;> simp <;> rfl
  · simp [optionLoop, Opt.assignment]
    rfl

/-- Any other option ends the program. -/
theorem optionLoop_unknown (unknown : ¬ o.Known) (s : Startup) (opts : List Opt) :
    optionLoop s (o :: opts) = .ok none := by
  simp only [Opt.Known, not_or] at unknown
  obtain ⟨addr, path, port, verbose⟩ := unknown
  rw [optionLoop, if_neg addr, if_neg path, if_neg port, if_neg verbose]

/-- The loop as far as it knows the options. -/
theorem optionLoop_append (known : ∀ o ∈ before, o.Known) (s : Startup) (opts : List Opt) :
    optionLoop s (before ++ opts) =
      (before.filterMap Opt.assignment).foldlM Assignment.apply s.config >>= fun config =>
        optionLoop ⟨config, confpathOf before s.confpath, s.debug || debugOf before⟩ opts := by
  induction before generalizing s with
  | nil => simp [confpathOf, debugOf]
  | cons o before ih =>
      obtain ⟨first, others⟩ := List.forall_mem_cons.mp known
      rw [List.cons_append, optionLoop_known first, funext fun config => ih others _,
        List.filterMap_cons, confpathOf_cons, debugOf_cons, ← Bool.or_assoc]
      cases o.assignment with
      | none => rfl
      | some a =>
          rw [Option.elim_some, List.foldlM_cons, bind_assoc]

/-- A list of options is known throughout or up to one. -/
theorem known_or_split (opts : List Opt) :
    (∀ o ∈ opts, o.Known) ∨ ∃ before o after, opts = before ++ o :: after ∧
      (∀ b ∈ before, b.Known) ∧ ¬ o.Known := by
  induction opts with
  | nil => exact .inl fun _ member => absurd member List.not_mem_nil
  | cons o opts ih =>
      by_cases first : o.Known
      · obtain all | ⟨before, u, after, split, known, unknown⟩ := ih
        · exact .inl (List.forall_mem_cons.mpr ⟨first, all⟩)
        · exact .inr ⟨o :: before, u, after, by rw [split, List.cons_append],
            List.forall_mem_cons.mpr ⟨first, known⟩, unknown⟩
      · exact .inr ⟨[], o, opts, rfl, fun _ member => absurd member List.not_mem_nil, first⟩

/-- The loop comes to its end exactly if it knows the options, having made their assignments. -/
theorem optionLoop_eq_some_iff :
    optionLoop s opts = .ok (some t) ↔ (∀ o ∈ opts, o.Known) ∧
      (opts.filterMap Opt.assignment).foldlM Assignment.apply s.config = .ok t.config ∧
      t.confpath = confpathOf opts s.confpath ∧ t.debug = (s.debug || debugOf opts) := by
  obtain known | ⟨before, o, after, rfl, known, unknown⟩ := known_or_split opts
  · have loop := optionLoop_append known s []
    rw [List.append_nil] at loop
    rw [loop, bind_eq_ok]
    constructor
    · rintro ⟨config, run, same⟩
      cases same
      exact ⟨known, run, rfl, rfl⟩
    · rintro ⟨_, run, path, verbose⟩
      exact ⟨t.config, run, by rw [optionLoop, ← path, ← verbose]⟩
  · refine iff_of_false (fun ended => ?_) fun both => unknown (both.1 o (by simp))
    rw [optionLoop_append known, bind_eq_ok] at ended
    obtain ⟨config, _, last⟩ := ended
    rw [optionLoop_unknown unknown] at last
    cases last

end Options

/-- An option that there is no case for is reached, since what the options in front of it write
can be stored. -/
def Misused (opts : List Opt) : Prop :=
  ∃ before o after, opts = before ++ o :: after ∧ (∀ b ∈ before, b.Known) ∧ ¬ o.Known ∧
    ∀ a ∈ before.filterMap Opt.assignment, a.Accepted

theorem optionLoop_eq_none_iff {s : Startup} {opts : List Opt} :
    optionLoop s opts = .ok none ↔ Misused opts := by
  constructor
  · intro stopped
    obtain known | ⟨before, o, after, rfl, known, unknown⟩ := known_or_split opts
    · have loop := optionLoop_append known s []
      rw [List.append_nil, stopped] at loop
      obtain ⟨config, _, last⟩ := bind_eq_ok.mp loop.symm
      cases last
    · rw [optionLoop_append known, bind_eq_ok] at stopped
      obtain ⟨config, run, _⟩ := stopped
      exact ⟨before, o, after, rfl, known, unknown, (foldlM_apply_eq_ok_iff.mp run).1⟩
  · rintro ⟨before, o, after, rfl, known, unknown, accepted⟩
    obtain ⟨config, run⟩ :=
      (List.exists_foldlM_eq_ok_iff Assignment.exists_apply s.config).mpr accepted
    rw [optionLoop_append known, run]
    exact optionLoop_unknown unknown _ after

/-! ## The program up to its server -/

section Main

variable {run : Int} {argv : List CString} {files : CString → Option (List UInt8)}
  {start : Config} (defaults : configSetDefault run = .ok start)
include defaults

theorem main_eq_none_iff :
    main run argv files = .ok none ↔ Misused (getopt mainOptstring argv.tail) := by
  rw [← @optionLoop_eq_none_iff ⟨start, defaultConfPath, false⟩, main]
  constructor
  · intro stopped
    obtain ⟨start', defaults', stopped⟩ := bind_eq_ok.mp stopped
    obtain ⟨parsed, loop, rest⟩ := bind_eq_ok.mp stopped
    cases defaults.symm.trans defaults'
    cases parsed with
    | none => exact loop
    | some s =>
        obtain ⟨_, _, same⟩ := bind_eq_ok.mp rest
        cases same
  · intro loop
    exact bind_eq_ok.mpr ⟨start, defaults, bind_eq_ok.mpr ⟨none, loop, rfl⟩⟩

theorem main_eq_some_iff {config : Config} :
    main run argv files = .ok (some config) ↔
      (∀ o ∈ getopt mainOptstring argv.tail, o.Known) ∧
        (mainWrites argv files).foldlM Assignment.apply start = .ok config := by
  have loaded (s : Startup) := @configLoad_eq_ok_iff
    { s.config with loglevel := if s.debug then .debug else .warning } config (files s.confpath)
  rw [mainWrites, List.append_assoc, List.foldlM_append, main]
  constructor
  · intro started
    obtain ⟨start', defaults', started⟩ := bind_eq_ok.mp started
    obtain ⟨parsed, loop, rest⟩ := bind_eq_ok.mp started
    cases defaults.symm.trans defaults'
    cases parsed with
    | none => cases rest
    | some s =>
        obtain ⟨known, run, path, verbose⟩ := optionLoop_eq_some_iff.mp loop
        obtain ⟨⟨opened, config'⟩, load, same⟩ := bind_eq_ok.mp rest
        cases same
        refine ⟨known, bind_eq_ok.mpr ⟨s.config, run, ?_⟩⟩
        have writes := (loaded s).mp ⟨opened, load⟩
        rw [path, verbose] at writes
        exact writes
  · rintro ⟨known, run⟩
    obtain ⟨config', options, rest⟩ := bind_eq_ok.mp run
    let s : Startup := ⟨config', confpathOf (getopt mainOptstring argv.tail) defaultConfPath,
      debugOf (getopt mainOptstring argv.tail)⟩
    obtain ⟨opened, load⟩ := (loaded s).mpr rest
    have loop := (@optionLoop_eq_some_iff ⟨start, defaultConfPath, false⟩ s _).mpr
      ⟨known, options, rfl, rfl⟩
    exact bind_eq_ok.mpr ⟨start, defaults, bind_eq_ok.mpr
      ⟨some s, loop, bind_eq_ok.mpr ⟨(opened, config), load, rfl⟩⟩⟩

end Main

/-- The program comes to `start_server` exactly if it has a case for every option it is given
and all that the options and the lines of the file write can be stored. Then every setting is
as its last writer left it, be it the file, the options or the defaults, in this order. It
prints its usage exactly if it comes to an option that it has no case for. -/
theorem main_settles (run : Int) (argv : List CString) (files : CString → Option (List UInt8)) :
    (∀ config, main run argv files = .ok (some config) ↔
      (∀ o ∈ getopt mainOptstring argv.tail, o.Known) ∧
      (∀ a ∈ mainWrites argv files, a.Accepted) ∧
      ∃ start, configSetDefault run = .ok start ∧
        start.LastWritten (mainWrites argv files) config) ∧
    (main run argv files = .ok none ↔ Misused (getopt mainOptstring argv.tail)) := by
  obtain ⟨start, defaults⟩ := exists_configSetDefault run
  refine ⟨fun config => ?_, main_eq_none_iff defaults⟩
  rw [main_eq_some_iff defaults, foldlM_apply_eq_ok_iff]
  constructor
  · rintro ⟨known, accepted, written⟩
    exact ⟨known, accepted, start, defaults, written⟩
  · rintro ⟨known, accepted, start', defaults', written⟩
    cases defaults.symm.trans defaults'
    exact ⟨known, accepted, written⟩

/-- The port of the file is taken, not that of the command line. -/
example : (main 0 [literal "sol", literal "-vp", literal "1884"] fun _ =>
    some (literal "ip_port 1885\n").bytes).map (fun config => config.map fun config =>
      (config.port.text, config.loglevel)) = .ok (some (literal "1885", .debug)) := by
  decide +kernel

end SolBroker
