import Mathlib
import SolBroker.Lib.Along
import SolBroker.Lib.Words
import SolBroker.Config.Settings

/-!
# Reading the configuration file

`config_load` takes the file line by line through a buffer of `0xFF` characters, and a line
apart with two moving pointers. It means to pass over a line that has a key and no value,
but looks for the end of the line where the line starts, and so adds the key with an empty
value. Lines are read as strings: what is behind a NUL in a line is not seen.
-/

namespace SolBroker

open Words

/-- `isspace`. -/
def isspace (c : UInt8) : Bool := c == 32 || (9 ≤ c && c ≤ 13)

/-- What `fgets` stores with room for that many characters, and the rest of the file. -/
def fgetsLoop : Nat → List UInt8 → List UInt8 × List UInt8
  | 0, file => ([], file)
  | _ + 1, [] => ([], [])
  | room + 1, c :: file =>
      if c = 10 then ([c], file)
      else ((c :: (fgetsLoop room file).1), (fgetsLoop room file).2)

/-- `fgets`, which leaves room for the NUL. -/
def fgets (size : Nat) (file : List UInt8) : Option (List UInt8 × List UInt8) :=
  if file.isEmpty then none else some (fgetsLoop (size - 1) file)

def stripSpaces (str : CString) : CString := str.dropWhile isspace

/-- The `unpack_bytes` of config.c into a buffer of `0xFF` characters that is all NUL, with the
string it leaves there and where it stops. -/
def Config.unpackBytes (str : CString) : Except Fault (CString × CString) :=
  let dest := str.takeWhile fun c => !isspace c
  if strlen dest < 0xff then .ok (dest, str.dropWhile fun c => !isspace c)
  else .error .outOfBounds

/-- The body of the loop of `config_load`. -/
def loadLine (config : Config) (line : CString) : Except Fault Config :=
  if line.bytes.head? = some 35 then .ok config
  else
    let pline := stripSpaces line
    if pline.bytes.isEmpty then .ok config
    else do
      let (key, pline) ← Config.unpackBytes pline
      let pline := stripSpaces pline
      -- the line, and not what is left of it: there is a key, so this never holds
      if line.bytes.isEmpty then .ok config
      else do
        let (value, _) ← Config.unpackBytes pline
        addConfigValue config key value

/-- The loop of `config_load`, for at most `fuel` lines. -/
def configLoadLoop : Nat → List UInt8 → Config → Except Fault Config
  | 0, _, _ => .error .noReturn
  | fuel + 1, file, config =>
      match fgets 0xff file with
      | none => .ok config
      | some (line, file) => do
          let config ← loadLine config (cstr line)
          configLoadLoop fuel file config

/-- `config_load`, with what can be read of the file, if it can be opened. -/
def configLoad (config : Config) : Option (List UInt8) → Except Fault (Bool × Config)
  | none => .ok (false, config)
  | some file => do
      let config ← configLoadLoop (file.length + 1) file config
      return (true, config)

/-! ## What a line is documented to do -/

/-- The words of a line. -/
def lineWords (line : List UInt8) : List (List UInt8) :=
  words isspace (cstr line).bytes

/-- A line that is no comment and has a key and a value. -/
def IsPair (line : List UInt8) : Prop :=
  line.head? ≠ some 35 ∧ 2 ≤ (lineWords line).length

instance (line : List UInt8) : Decidable (IsPair line) :=
  inferInstanceAs (Decidable (_ ∧ _))

/-- The documented effect of a line: the first two words of a pair. -/
def documentedLine (config : Config) (line : List UInt8) : Except Fault Config :=
  if IsPair line then
    addConfigValue config (cstr ((lineWords line).getD 0 [])) (cstr ((lineWords line).getD 1 []))
  else .ok config

/-- The lines of a file, without their ends. -/
def fileLines (file : List UInt8) : List (List UInt8) := file.splitOn 10

/-- The configuration the loop has reached after some lines. -/
def loadLines (config : Config) (lines : List (List UInt8)) : Except Fault Config :=
  lines.foldlM (fun config line => loadLine config (cstr line)) config

/-! ## The lines that are read -/

theorem fgetsLoop_newline {room : Nat} {line : List UInt8} (rest : List UInt8)
    (inside : 10 ∉ line) (fits : line.length < room) :
    fgetsLoop room (line ++ 10 :: rest) = (line ++ [10], rest) := by
  induction line generalizing room with
  | nil =>
      obtain ⟨room, rfl⟩ := Nat.exists_eq_succ_of_ne_zero (by simp at fits; omega : room ≠ 0)
      rfl
  | cons c line ih =>
      obtain ⟨room, rfl⟩ := Nat.exists_eq_succ_of_ne_zero (by omega : room ≠ 0)
      have other : c ≠ 10 := fun same => inside (same ▸ List.mem_cons_self ..)
      have later := ih (fun member => inside (List.mem_cons_of_mem _ member))
        (by simpa using fits)
      rw [List.cons_append, fgetsLoop, if_neg other, later]
      rfl

theorem fgetsLoop_last {room : Nat} {line : List UInt8} (inside : 10 ∉ line)
    (fits : line.length ≤ room) : fgetsLoop room line = (line, []) := by
  induction line generalizing room with
  | nil => cases room <;> rfl
  | cons c line ih =>
      obtain ⟨room, rfl⟩ := Nat.exists_eq_succ_of_ne_zero (by simp at fits; omega : room ≠ 0)
      have other : c ≠ 10 := fun same => inside (same ▸ List.mem_cons_self ..)
      have later := ih (fun member => inside (List.mem_cons_of_mem _ member))
        (by simpa using fits)
      rw [fgetsLoop, if_neg other, later]

theorem cstr_concat_newline (line : List UInt8) :
    (cstr (line ++ [10])).bytes = if 0 ∈ line then (cstr line).bytes else line ++ [10] := by
  unfold cstr
  by_cases nul : 0 ∈ line
  · rw [if_pos nul]
    induction line with
    | nil => cases nul
    | cons c line ih =>
        by_cases here : c = 0
        · simp [here]
        · have later : 0 ∈ line := by simpa [Ne.symm here] using nul
          simpa [here] using ih later
  · rw [if_neg nul]
    refine cstr_bytes_of_nulFree ?_
    simpa using nul

/-- The end of a line makes no difference to its words. -/
theorem lineWords_newline (line : List UInt8) : lineWords (line ++ [10]) = lineWords line := by
  rw [lineWords, lineWords, cstr_concat_newline]
  by_cases nul : 0 ∈ line
  · rw [if_pos nul]
  · rw [if_neg nul, cstr_bytes_of_nulFree nul]
    exact words_concat line (by decide)

/-- A comment starts the line, and so does the string in it. -/
theorem head?_cstr (line : List UInt8) :
    (cstr line).bytes.head? = some 35 ↔ line.head? = some 35 := by
  cases line with
  | nil => rfl
  | cons c line =>
      by_cases nul : c = 0
      · simp [cstr, nul]
      · simp [cstr, nul]

/-! ## What the loop does with a line -/

theorem unpackBytes_eq {str : CString} (fits : strlen str < 0xff) :
    Config.unpackBytes str =
      .ok (str.takeWhile fun c => !isspace c, str.dropWhile fun c => !isspace c) := by
  have shorter :=
    ((List.takeWhile_prefix (fun c => !isspace c) (l := str.bytes)).length_le).trans_lt
    fits
  exact if_pos shorter

theorem strlen_dropWhile_le (str : CString) (p : UInt8 → Bool) :
    strlen (str.dropWhile p) ≤ strlen str :=
  (List.dropWhile_suffix p).length_le

theorem cstr_bytes (s : CString) : cstr s.bytes = s :=
  CString.ext (cstr_bytes_of_nulFree s.nulFree)

/-- The first word is what a pointer finds that passes the separators; it may be empty. -/
theorem getD_words (bytes : List UInt8) :
    (words isspace bytes).getD 0 [] = (bytes.dropWhile isspace).takeWhile fun c => !isspace c := by
  by_cases blank : bytes.dropWhile isspace = []
  · rw [(words_eq_nil_iff bytes).mpr blank, blank]
    rfl
  · rw [words_eq_cons blank]
    rfl

/-- A line is either passed over, or its first two words are added; the second is empty if
there is none. -/
theorem loadLine_eq (config : Config) {line : CString} (fits : strlen line < 0xff) :
    loadLine config line =
      if line.bytes.head? = some 35 ∨ words isspace line.bytes = [] then .ok config
      else addConfigValue config (cstr ((words isspace line.bytes).getD 0 []))
        (cstr ((words isspace line.bytes).getD 1 [])) := by
  unfold loadLine stripSpaces
  dsimp only
  by_cases comment : line.bytes.head? = some 35
  · rw [if_pos comment, if_pos (.inl comment)]
  · rw [if_neg comment]
    by_cases blank : (line.bytes.dropWhile isspace) = []
    · have passed : (line.dropWhile isspace).bytes.isEmpty = true := List.isEmpty_iff.mpr blank
      have none_ := (words_eq_nil_iff (p := isspace) line.bytes).mpr blank
      rw [if_pos passed, if_pos (Or.inr none_)]
    · have more : ¬ (line.dropWhile isspace).bytes.isEmpty = true := mt List.isEmpty_iff.mp blank
      have nonempty : ¬ line.bytes.isEmpty = true := by
        rw [List.isEmpty_iff]
        rintro empty
        rw [empty] at blank
        exact blank rfl
      have short := (strlen_dropWhile_le line isspace).trans_lt fits
      have short' := (strlen_dropWhile_le _ fun c => !isspace c).trans_lt short
      rw [if_neg more, unpackBytes_eq short]
      change (if line.bytes.isEmpty = true then _ else _) = _
      rw [if_neg nonempty, unpackBytes_eq ((strlen_dropWhile_le _ isspace).trans_lt short')]
      change addConfigValue config ((line.dropWhile isspace).takeWhile fun c => !isspace c)
        ((((line.dropWhile isspace).dropWhile fun c => !isspace c).dropWhile isspace).takeWhile
          fun c => !isspace c) = _
      have split := words_eq_cons blank
      have second := getD_words ((line.bytes.dropWhile isspace).dropWhile fun c => !isspace c)
      rw [split, if_neg (by simp [comment]), List.getD_cons_zero, List.getD_cons_succ, second]
      exact congrArg₂ _ (cstr_bytes _).symm (cstr_bytes _).symm

section Line

variable {line : List UInt8} (fits : line.length < 0xff) (config : Config)
include fits

theorem loadLine_cstr :
    loadLine config (cstr line) =
      if line.head? = some 35 ∨ lineWords line = [] then .ok config
      else addConfigValue config (cstr ((lineWords line).getD 0 []))
        (cstr ((lineWords line).getD 1 [])) := by
  rw [loadLine_eq config ((cstr_length_le line).trans_lt fits)]
  exact if_congr (or_congr (head?_cstr line) Iff.rfl) rfl rfl

/-- A pair does what is documented. -/
theorem loadLine_pair (pair : IsPair line) :
    loadLine config (cstr line) = documentedLine config line := by
  obtain ⟨uncommented, two⟩ := pair
  have some_ : lineWords line ≠ [] := by
    rintro none_
    simp [none_] at two
  rw [loadLine_cstr fits, if_neg (by simp [uncommented, some_]), documentedLine,
    if_pos ⟨uncommented, two⟩]

/-- A line that is no pair changes nothing, unless it has a key; then the key is added. -/
theorem loadLine_unpaired (unpaired : ¬ IsPair line) :
    loadLine config (cstr line) = .ok config ∨
      ∃ key, line.head? ≠ some 35 ∧ lineWords line = [key] ∧
        loadLine config (cstr line) = addConfigValue config (cstr key) (cstr []) := by
  rw [loadLine_cstr fits]
  by_cases passed : line.head? = some 35 ∨ lineWords line = []
  · exact .inl (if_pos passed)
  · obtain ⟨uncommented, some_⟩ := not_or.mp passed
    obtain ⟨key, rest, words_⟩ := List.exists_cons_of_ne_nil some_
    have single : rest = [] := by
      by_contra more
      refine unpaired ⟨uncommented, ?_⟩
      rw [words_, List.length_cons]
      have := List.length_pos_iff.mpr more
      omega
    refine .inr ⟨key, uncommented, by rw [words_, single], ?_⟩
    rw [if_neg passed, words_, single]
    rfl

end Line

/-- The end of a line makes no difference to what is done with it. -/
theorem loadLine_newline (config : Config) {line : List UInt8} (fits : line.length < 254) :
    loadLine config (cstr (line ++ [10])) = loadLine config (cstr line) := by
  have long : (line ++ [10]).length < 0xff := by
    rw [List.length_append, List.length_singleton]
    omega
  have head : (line ++ [10]).head? = some 35 ↔ line.head? = some 35 := by
    cases line <;> simp
  rw [loadLine_cstr long, loadLine_cstr (by omega), lineWords_newline]
  exact if_congr (or_congr head Iff.rfl) rfl rfl

/-! ## What the loop does with a file -/

theorem loadLines_cons (config : Config) (line : List UInt8) (lines : List (List UInt8)) :
    loadLines config (line :: lines) =
      loadLine config (cstr line) >>= fun config => loadLines config lines := by
  rw [loadLines, List.foldlM_cons]
  rfl

/-- The loop goes through the lines of the file. -/
theorem configLoadLoop_eq (fuel : Nat) (file : List UInt8) (config : Config)
    (enough : file.length < fuel) (short : ∀ line ∈ fileLines file, line.length < 254) :
    configLoadLoop fuel file config = loadLines config (fileLines file) := by
  induction fuel generalizing file config with
  | zero => omega
  | succ fuel ih =>
      rw [configLoadLoop]
      by_cases ended : 10 ∈ file
      · obtain ⟨line, rest, rfl, inside⟩ := List.eq_append_cons_of_mem ended
        have lines : fileLines (line ++ 10 :: rest) = line :: fileLines rest := by
          rw [fileLines, List.splitOn_append_cons_self, List.splitOn_eq_singleton inside]
          rfl
        rw [lines] at short ⊢
        have fits := short line (List.mem_cons_self ..)
        have read : fgets 0xff (line ++ 10 :: rest) = some (line ++ [10], rest) := by
          rw [fgets, if_neg (by simp), fgetsLoop_newline rest inside fits]
        have fewer : rest.length < fuel := by
          rw [List.length_append, List.length_cons] at enough
          omega
        rw [read, loadLines_cons, ← loadLine_newline config fits]
        refine congrArg (loadLine config (cstr (line ++ [10])) >>= ·) (funext fun config => ?_)
        exact ih rest config fewer fun l member => short l (List.mem_cons_of_mem _ member)
      · have lines : fileLines file = [file] := List.splitOn_eq_singleton ended
        rw [lines] at short ⊢
        have fits := short file (List.mem_singleton_self _)
        rw [loadLines_cons]
        by_cases empty : file = []
        · rw [empty]
          rfl
        · have read : fgets 0xff file = some (file, []) := by
            rw [fgets, if_neg (by simpa using empty), fgetsLoop_last ended (by omega)]
          have stops (config : Config) : configLoadLoop fuel [] config = .ok config := by
            have positive := List.length_pos_iff.mpr empty
            obtain ⟨fuel, rfl⟩ := Nat.exists_eq_succ_of_ne_zero (by omega : fuel ≠ 0)
            rfl
          rw [read]
          exact congrArg (loadLine config (cstr file) >>= ·) (funext stops)

/-! ## The documented effect -/

/-- The file is loaded as documented: the pairs are added in order, and no other line of
it changes the configuration that the loop has reached. -/
structure LoadsAsDocumented (config : Config) (file : List UInt8) : Prop where
  result : configLoad config (some file) =
    ((fileLines file).foldlM documentedLine config).map fun config => (true, config)
  unchanged : (fileLines file).Along fun before line => ¬ IsPair line →
    ∀ reached, loadLines config before = .ok reached → loadLine reached (cstr line) = .ok reached

/-- Where the lines without a pair change nothing, the others do what is documented. -/
theorem loadLines_eq_documented (config : Config) {lines : List (List UInt8)}
    (short : ∀ line ∈ lines, line.length < 0xff)
    (unchanged : lines.Along fun before line => ¬ IsPair line → ∀ reached,
      loadLines config before = .ok reached → loadLine reached (cstr line) = .ok reached) :
    loadLines config lines = lines.foldlM documentedLine config := by
  induction lines using List.reverseRecOn with
  | nil => rfl
  | append_singleton lines line ih =>
      obtain ⟨earlier, last⟩ := List.along_snoc.mp unchanged
      have before := ih (fun l member => short l (List.mem_append_left _ member)) earlier
      have fits := short line (by simp)
      rw [loadLines, List.foldlM_append, List.foldlM_append]
      change loadLines config lines >>= _ = _
      cases reached : loadLines config lines with
      | error e => rw [← before, reached]; rfl
      | ok c =>
          rw [← before, reached]
          have same : loadLine c (cstr line) = documentedLine c line := by
            by_cases pair : IsPair line
            · exact loadLine_pair fits c pair
            · rw [last pair c reached, documentedLine, if_neg pair]
          change (loadLine c (cstr line) >>= pure) = (documentedLine c line >>= pure)
          rw [same]

/-- A file with short lines is loaded as documented exactly if every line of a key without
a value has a key that begins no documented name, or one whose setting has the empty value
already when the line is reached. -/
theorem loadsAsDocumented_iff (config : Config) {file : List UInt8}
    (short : ∀ line ∈ fileLines file, line.length < 254) :
    LoadsAsDocumented config file ↔
      (fileLines file).Along fun before line => ∀ key, line.head? ≠ some 35 →
        lineWords line = [key] → ∀ reached, loadLines config before = .ok reached →
          ∀ s, settingOf (cstr key) = some s → s.Holds reached (cstr []) := by
  have fits (before : List (List UInt8)) (line : List UInt8) (after : List (List UInt8))
      (split : fileLines file = before ++ line :: after) : line.length < 0xff := by
    have := short line (by simp [split])
    omega
  constructor
  · intro documented before line after split key uncommented alone reached run s taken
    have unpaired : ¬ IsPair line := fun pair => by simpa [alone] using pair.2
    have kept := documented.unchanged before line after split unpaired reached run
    rw [loadLine_cstr (fits before line after split), if_neg (by simp [uncommented, alone]),
      alone] at kept
    change addConfigValue reached (cstr key) (cstr []) = _ at kept
    rw [addConfigValue, taken] at kept
    exact Setting.write_eq_self_iff.mp kept
  · intro held
    have unchanged : (fileLines file).Along fun before line => ¬ IsPair line → ∀ reached,
        loadLines config before = .ok reached → loadLine reached (cstr line) = .ok reached := by
      intro before line after split unpaired reached run
      obtain passed | ⟨key, uncommented, alone, added⟩ :=
        loadLine_unpaired (fits before line after split) reached unpaired
      · exact passed
      · rw [added, addConfigValue]
        cases taken : settingOf (cstr key) with
        | none => rfl
        | some s =>
            exact Setting.write_eq_self_iff.mpr
              (held before line after split key uncommented alone reached run s taken)
    refine ⟨?_, unchanged⟩
    have looped := configLoadLoop_eq (file.length + 1) file config (Nat.lt_succ_self _) short
    rw [configLoad, looped, loadLines_eq_documented config
      (fun line member => (short line member).trans (by decide)) unchanged]
    cases (fileLines file).foldlM documentedLine config <;> rfl

/-- A file of one pair, read on top of the defaults. -/
theorem loadsAsDocumented_pair :
    ∃ config, configSetDefault 0 = .ok config ∧
      LoadsAsDocumented config (literal "ip_port 9090\n").bytes := by
  obtain ⟨config, made⟩ := exists_configSetDefault 0
  have lines : fileLines (literal "ip_port 9090\n").bytes =
      [(literal "ip_port 9090").bytes, []] := by
    decide
  refine ⟨config, made, (loadsAsDocumented_iff config (by rw [lines]; decide)).mpr ?_⟩
  intro before line after split key _ alone
  have member : line ∈ [(literal "ip_port 9090").bytes, []] := by
    rw [← lines, split]
    simp
  have pairs : ∀ line ∈ [(literal "ip_port 9090").bytes, []], (lineWords line).length ≠ 1 := by
    simp only [List.forall_mem_cons]
    decide
  exact absurd (congrArg List.length alone) (pairs line member)

/-- A key without a value, which empties the setting. -/
theorem loadsAsDocumented_fails :
    ¬ ∀ config file, (∀ line ∈ fileLines file, line.length < 254) →
      LoadsAsDocumented config file := by
  intro always
  obtain ⟨default_, _⟩ := exists_configSetDefault 0
  let config := { default_ with logpath := ⟨literal "/tmp/sol.log", by decide⟩ }
  have lines : fileLines (literal "log_path\n").bytes = [(literal "log_path").bytes, []] := by
    decide
  have documented := always config (literal "log_path\n").bytes (by rw [lines]; decide)
  have kept := documented.unchanged [] (literal "log_path").bytes [[]] lines (by decide) config rfl
  have short : (literal "log_path").bytes.length < 0xff := by decide
  have alone : lineWords (literal "log_path").bytes = [(literal "log_path").bytes] := by decide
  rw [loadLine_cstr short, if_neg (by rw [alone]; decide), alone] at kept
  have taken : settingOf (literal "log_path") = some .logPath := by decide
  change addConfigValue config (cstr (literal "log_path").bytes) (cstr []) = _ at kept
  rw [cstr_bytes, addConfigValue, taken] at kept
  have emptied : cstr [] = literal "/tmp/sol.log" :=
    congrArg (fun c => c.logpath.text) (Except.ok.inj kept)
  exact absurd emptied (by decide)

end SolBroker
