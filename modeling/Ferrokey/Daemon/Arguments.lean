import Ferrokey.Collections.CommandLine
import Ferrokey.Daemon.Config
import Mathlib.Algebra.Group.Nat.Defs

/-! # The command lines of the daemon

The supervisor hands the configuration to the processes it starts as command lines, and each
of them reads its own back. An option is a name and a value behind it; what follows an option
is read in the state that the option left.
-/

namespace Ferrokey.Daemon

open Text Fallible CommandLine

def usizeLimit : ℕ := 2 ^ 64

section Values

variable (debug : String → String)

/-- A signed number of 32 bits. -/
def parseI32 (s : String) : Option ℤ := parseSigned 10 (2 ^ 31) s.toList

def parseUsize (value : Option String) : Except String ℕ := do
  let s ← required value "missing value"
  match parseNumeral 10 usizeLimit s.toList with
  | some n => .ok n
  | none => .error ("invalid integer " ++ debug s)

def parseU32 (value : Option String) : Except String UInt32 := do
  let s ← required value "missing value"
  match parseNumeral 10 UInt32.size s.toList with
  | some n => .ok (.ofNat n)
  | none => .error ("invalid integer " ++ debug s)

def trimStartOctal : List Char → List Char
  | '0' :: 'o' :: rest => trimStartOctal rest
  | s => s

def parseOctal (s : String) : Except String UInt32 :=
  match parseNumeral 8 UInt32.size (trimStartOctal s.toList) with
  | none => .error ("invalid octal mode " ++ debug s)
  | some v =>
    if 0o777 < v then .error ("socket mode " ++ octal v ++ " exceeds 0o777") else .ok (.ofNat v)

/-- The numbers between commas; an empty piece counts for nothing. -/
def parseU32List (value : Option String) : Except String (List UInt32) := do
  let s ← required value "missing value"
  (pieces ',' s.toList).mapM fun p =>
    match parseNumeral 10 UInt32.size p with
    | some n => .ok (.ofNat n)
    | none => .error ("invalid uid/gid " ++ debug (String.ofList p))

def parseSessionScope (s : String) : Except String SessionScopeConfig :=
  if s = "auto" then .ok .auto
  else if s = "none" then .ok .none
  else if isValidSessionScope s.toList then .ok (.explicit s)
  else .error ("invalid --session-scope " ++ debug s ++
    ": expected 'auto', 'none', or the form 'session-N.scope'")

end Values

section Commands

variable (debug : String → String)

/-- The parameters of the bootstrap component. -/
structure InitArgs where
  handoffFd : ℤ
  deviceName : String
  maxHeldKeys : ℕ
deriving DecidableEq

/-- The parameters of the runtime broker. -/
structure ServeArgs where
  handoffFd : ℤ
  socketPath : String
  socketMode : UInt32
  allowedUids : List UInt32
  allowedGids : List UInt32
  sessionScope : SessionScopeConfig
  maxConnections : ℕ
  burst : UInt32
  perSecond : UInt32
  maxHeldKeys : ℕ
  deviceName : String
  allowRoot : Bool
deriving DecidableEq

def defaultDeviceName : String := "Ferrokey Virtual Keyboard"

def initOption (p : InitArgs) (name : String) (value : Option String) : Except String InitArgs :=
  match name with
  | "--device-name" => do
    return { p with deviceName := ← required value "--device-name requires a value" }
  | "--max-held-keys" => do
    let s ← required value "--max-held-keys requires a value"
    match parseNumeral 10 usizeLimit s.toList with
    | some n => .ok { p with maxHeldKeys := n }
    | none => .error "max_held_keys must be an integer"
  | other => .error ("unknown init argument: " ++ other)

def parseInitArgs (args : List String) : Except String InitArgs := do
  let first ← required args.head?
    "usage: ferrokeyd init <handoff-fd> [--device-name NAME] [--max-held-keys N]"
  match parseI32 first with
  | none => .error "handoff fd must be an integer"
  | some handoffFd =>
    options (fun _ _ => none) initOption ⟨handoffFd, defaultDeviceName, 16⟩ (args.drop 1)

def serveFlag (p : ServeArgs) (name : String) : Option ServeArgs :=
  if name = "--allow-root" then some { p with allowRoot := true } else none

def serveOption (p : ServeArgs) (name : String) (value : Option String) :
    Except String ServeArgs :=
  match name with
  | "--socket" => do
    return { p with socketPath := ← required value "--socket requires a path" }
  | "--socket-mode" => do
    let v ← required value "--socket-mode requires a value"
    return { p with socketMode := ← parseOctal debug v }
  | "--max-conn" => do return { p with maxConnections := ← parseUsize debug value }
  | "--max-held" => do return { p with maxHeldKeys := ← parseUsize debug value }
  | "--burst" => do return { p with burst := ← parseU32 debug value }
  | "--per-sec" => do return { p with perSecond := ← parseU32 debug value }
  | "--device-name" => do
    return { p with deviceName := ← required value "--device-name requires a value" }
  | "--uid" => do return { p with allowedUids := ← parseU32List debug value }
  | "--gid" => do return { p with allowedGids := ← parseU32List debug value }
  | "--session-scope" => do
    let v ← required value "--session-scope requires a value"
    return { p with sessionScope := ← parseSessionScope debug v }
  | other => .error ("unknown serve argument: " ++ other)

def ServeArgs.default : ServeArgs where
  handoffFd := -1
  socketPath := "/run/ferrokeyd/ferrokeyd.sock"
  socketMode := 0o666
  allowedUids := []
  allowedGids := []
  sessionScope := .none
  maxConnections := 1
  burst := 200
  perSecond := 200
  maxHeldKeys := 16
  deviceName := defaultDeviceName
  allowRoot := false

/-- The options from the second argument on, and the first argument that is no option. -/
def parseServeArgs (args : List String) : Except String ServeArgs := do
  let params ← options serveFlag (serveOption debug) .default (args.drop 1)
  let first ← required (args.filter fun a => a.toList.head? ≠ some '-').head?
    "usage: ferrokeyd serve <handoff-fd> [options]"
  match parseI32 first with
  | none => .error "handoff fd must be an integer"
  | some handoffFd => .ok { params with handoffFd := handoffFd }

/-- What a command line asks for. -/
inductive Invocation where
  | help
  | version
  | start (config : Option String)
  | init (args : InitArgs)
  | serve (args : ServeArgs)
  | sandboxProbe (args : List String)
  | securityStatus (args : List String)
deriving DecidableEq

/-- The arguments of the supervisor: the last configuration that is named. -/
def parseStartArgs (args : List String) : Except String (Option String) :=
  options (fun config name => if name = "--foreground" then some config else none)
    (fun _ name value =>
      if name = "--config" then some <$> required value "--config requires a path"
      else .error ("unknown start argument: " ++ name)) none args

def runCli (args : List String) : Except String Invocation :=
  match args with
  | [] | "--help" :: _ | "-h" :: _ => .ok .help
  | "--version" :: _ | "-V" :: _ => .ok .version
  | "start" :: rest => .start <$> parseStartArgs rest
  | "init" :: rest => .init <$> parseInitArgs rest
  | "serve" :: rest => .serve <$> parseServeArgs debug rest
  | "sandbox-probe" :: rest => .ok (.sandboxProbe rest)
  | "security-status" :: rest => .ok (.securityStatus rest)
  | other :: _ => .error ("unknown subcommand " ++ debug other ++ "; try --help")

end Commands

def joinU32s (values : List UInt32) : String :=
  String.ofList ([','].intercalate (values.map fun v => Nat.toDigits 10 v.toNat))

/-- The arguments that the supervisor starts the bootstrap component with. -/
def initCommand (initEnd : ℕ) (config : DaemonConfig) : List String :=
  ["init", decimal initEnd, "--device-name", config.deviceName, "--max-held-keys",
    decimal config.maxHeldKeys]

/-- The arguments that the supervisor starts the runtime broker with. -/
def serveCommand (serveEnd : ℕ) (config : DaemonConfig) : List String :=
  ["serve", decimal serveEnd, "--socket", config.socketPath, "--socket-mode",
    octal config.socketMode.toNat, "--max-conn", decimal config.maxConnections, "--max-held",
    decimal config.maxHeldKeys, "--burst", decimal config.rate.burst.toNat, "--per-sec",
    decimal config.rate.perSecond.toNat, "--device-name", config.deviceName, "--uid",
    joinU32s config.allowedUids, "--gid", joinU32s config.allowedGids] ++
  match config.sessionScope with
  | .explicit scope => ["--session-scope", scope]
  | .auto => ["--session-scope", "auto"]
  | .none => []

/-- The parameters that a configuration stands for. -/
def ServeArgs.ofConfig (serveEnd : ℕ) (config : DaemonConfig) : ServeArgs where
  handoffFd := serveEnd
  socketPath := config.socketPath
  socketMode := config.socketMode
  allowedUids := config.allowedUids
  allowedGids := config.allowedGids
  sessionScope := config.sessionScope
  maxConnections := config.maxConnections
  burst := config.rate.burst
  perSecond := config.rate.perSecond
  maxHeldKeys := config.maxHeldKeys
  deviceName := config.deviceName
  allowRoot := false

section

variable {n fd : ℕ} {debug : String → String} {c : DaemonConfig}

/-- A number printed in decimal is read back. -/
theorem parseNumeral_decimal {limit : ℕ} (h : n < limit) :
    parseNumeral 10 limit (decimal n).toList = some n := by
  rw [decimal, String.toList_ofList, parseNumeral_toDigits (by decide) (by decide) h]

theorem parseUsize_decimal (h : n < usizeLimit) : parseUsize debug (some (decimal n)) = .ok n := by
  simp [parseUsize, required, parseNumeral_decimal h, bind, Except.bind]

theorem parseU32_decimal (n : UInt32) : parseU32 debug (some (decimal n.toNat)) = .ok n := by
  simp [parseU32, required, parseNumeral_decimal n.toNat_lt_size, bind, Except.bind]

theorem trimStartOctal_digits {s : List Char} (h : ∀ c ∈ s, c.isDigit = true) :
    trimStartOctal s = s := by
  unfold trimStartOctal
  split
  · exact absurd (h 'o' (by simp)) (by decide)
  · rfl

theorem parseOctal_octal {mode : UInt32} (h : mode.toNat ≤ 0o777) :
    parseOctal debug (octal mode.toNat) = .ok mode := by
  have ht : trimStartOctal (octal mode.toNat).toList = Nat.toDigits 8 mode.toNat := by
    rw [octal, String.toList_ofList, trimStartOctal]
    exact trimStartOctal_digits fun c hc => Nat.isDigit_of_mem_toDigits (by decide) (by decide) hc
  rw [parseOctal, ht, parseNumeral_toDigits (by decide) (by decide) mode.toNat_lt_size]
  simp [Nat.not_lt.mpr h]

theorem parseU32List_join (values : List UInt32) :
    parseU32List debug (some (joinU32s values)) = .ok values := by
  have hp : pieces ',' (joinU32s values).toList = values.map fun v => Nat.toDigits 10 v.toNat := by
    rw [joinU32s, String.toList_ofList, pieces_intercalate]
    simp only [List.mem_map, forall_exists_index, and_imp]
    rintro w v - rfl
    refine ⟨Nat.toDigits_ne_nil, fun hm => ?_⟩
    exact absurd (Nat.isDigit_of_mem_toDigits (by decide) (by decide) hm) (by decide)
  simp only [parseU32List, required, bind, Except.bind, hp]
  refine mapM_map_eq_ok fun v _ => ?_
  simp [parseNumeral_toDigits (by decide : 1 < 10) (by decide) v.toNat_lt_size]

theorem parseI32_decimal (h : n < 2 ^ 31) : parseI32 (decimal n) = some (n : ℤ) := by
  rw [parseI32, decimal, String.toList_ofList, parseSigned_toDigits (by decide) (by decide) h]

/-- The options of a session scope. -/
def scopeWords : SessionScopeConfig → List (String × String)
  | .explicit scope => [("--session-scope", scope)]
  | .auto => [("--session-scope", "auto")]
  | .none => []

/-- The options that every configuration is written with. -/
def serveWords (c : DaemonConfig) : List (String × String) :=
  [("--socket", c.socketPath), ("--socket-mode", octal c.socketMode.toNat),
    ("--max-conn", decimal c.maxConnections), ("--max-held", decimal c.maxHeldKeys),
    ("--burst", decimal c.rate.burst.toNat), ("--per-sec", decimal c.rate.perSecond.toNat),
    ("--device-name", c.deviceName), ("--uid", joinU32s c.allowedUids),
    ("--gid", joinU32s c.allowedGids)]

theorem serveCommand_eq (fd : ℕ) (c : DaemonConfig) :
    serveCommand fd c =
      "serve" :: decimal fd :: words (serveWords c ++ scopeWords c.sessionScope) := by
  unfold serveCommand scopeWords
  cases c.sessionScope <;> rfl

theorem parseSessionScope_scope {scope : String} (h : isValidSessionScope scope.toList = true) :
    parseSessionScope debug scope = .ok (.explicit scope) := by
  have hn : scope ≠ "auto" ∧ scope ≠ "none" := by
    constructor <;> rintro rfl <;> exact absurd h (by decide)
  rw [parseSessionScope, if_neg hn.1, if_neg hn.2, if_pos h]

theorem scopeWords_set (h : c.Valid) {p : ServeArgs} (hp : p.sessionScope = .none) :
    (scopeWords c.sessionScope).foldlM (fun p w => serveOption debug p w.1 (some w.2)) p =
      .ok { p with sessionScope := c.sessionScope } := by
  cases hs : c.sessionScope with
  | none =>
    obtain ⟨⟩ := p
    cases hp
    rfl
  | auto => rfl
  | explicit scope =>
    simp [scopeWords, serveOption, required, parseSessionScope_scope (h.scope scope hs), bind,
      Except.bind, pure, Except.pure]

theorem serveWords_set (h : c.Valid) :
    (serveWords c).foldlM (fun p w => serveOption debug p w.1 (some w.2)) .default =
      .ok { ServeArgs.ofConfig fd c with handoffFd := -1, sessionScope := .none } := by
  have hconn := @parseUsize_decimal _ debug (h.connections.2.trans_lt (by decide))
  have hheld := @parseUsize_decimal _ debug (h.held.2.trans_lt (by decide))
  have hmode := @parseOctal_octal debug _ h.mode
  simp [serveWords, ServeArgs.ofConfig, ServeArgs.default, serveOption, required, hconn, hheld,
    hmode, parseU32_decimal, parseU32List_join, bind, Except.bind, pure, Except.pure]

theorem decimal_head (n : ℕ) : (decimal n).toList.head? ≠ some '-' := by
  intro h
  rw [decimal, String.toList_ofList] at h
  have hd := Nat.isDigit_of_mem_toDigits (by decide) (by decide) (List.mem_of_mem_head? h)
  exact absurd hd (by decide)

/-- The supervisor never lets the broker run as root. -/
theorem allowRoot_not_mem (c : DaemonConfig) :
    "--allow-root" ∉ (serveWords c ++ scopeWords c.sessionScope).map Prod.fst := by
  have hnames : (serveWords c).map Prod.fst = ["--socket", "--socket-mode", "--max-conn",
      "--max-held", "--burst", "--per-sec", "--device-name", "--uid", "--gid"] := rfl
  rw [List.map_append, hnames]
  cases c.sessionScope with
  | none => decide
  | auto => decide
  | explicit scope =>
    change "--allow-root" ∉ _ ++ ["--session-scope"]
    decide

/-- The runtime broker reads a valid configuration back from its command line. -/
theorem parseServeArgs_serveCommand (h : c.Valid) (hfd : fd < 2 ^ 31) :
    parseServeArgs debug (serveCommand fd c).tail = .ok (.ofConfig fd c) := by
  have hflag : ∀ (p : ServeArgs), ∀ w ∈ serveWords c ++ scopeWords c.sessionScope,
      serveFlag p w.1 = none := by
    intro p w hw
    have hm : w.1 ∈ (serveWords c ++ scopeWords c.sessionScope).map Prod.fst :=
      List.mem_map_of_mem hw
    have hne : w.1 ≠ "--allow-root" := fun he => allowRoot_not_mem c (he ▸ hm)
    exact if_neg hne
  have hoptions : options serveFlag (serveOption debug) .default
      (words (serveWords c ++ scopeWords c.sessionScope)) =
        .ok { ServeArgs.ofConfig fd c with handoffFd := -1 } := by
    rw [options_words hflag, List.foldlM_append, @serveWords_set fd _ _ h]
    exact scopeWords_set h rfl
  have hfirst (rest : List String) :
      ((decimal fd :: rest).filter fun a => a.toList.head? ≠ some '-').head? =
        some (decimal fd) := by
    rw [List.filter_cons_of_pos (by simpa using decimal_head fd), List.head?_cons]
  rw [serveCommand_eq, List.tail_cons, parseServeArgs, List.drop_one, List.tail_cons, hoptions]
  simp only [bind, Except.bind, hfirst, required, parseI32_decimal hfd]
  rfl

/-- The bootstrap component reads its part back. -/
theorem parseInitArgs_initCommand (h : c.Valid) (hfd : fd < 2 ^ 31) :
    parseInitArgs (initCommand fd c).tail = .ok ⟨fd, c.deviceName, c.maxHeldKeys⟩ := by
  have hheld := parseNumeral_decimal (h.held.2.trans_lt (by decide : maxHeldKeysLimit < usizeLimit))
  have hwords : (initCommand fd c).tail =
      decimal fd ::
        words [("--device-name", c.deviceName), ("--max-held-keys", decimal c.maxHeldKeys)] :=
    rfl
  rw [hwords, parseInitArgs, List.drop_one, List.tail_cons]
  simp only [List.head?_cons, required, parseI32_decimal hfd, bind, Except.bind]
  rw [options_words fun _ _ _ => rfl]
  simp [initOption, required, hheld, bind, Except.bind, pure, Except.pure]

theorem runCli_serveCommand (h : c.Valid) (hfd : fd < 2 ^ 31) :
    runCli debug (serveCommand fd c) = .ok (.serve (.ofConfig fd c)) := by
  have hcons : serveCommand fd c = "serve" :: (serveCommand fd c).tail := rfl
  rw [hcons, runCli, parseServeArgs_serveCommand h hfd]
  rfl

theorem runCli_initCommand (h : c.Valid) (hfd : fd < 2 ^ 31) :
    runCli debug (initCommand fd c) = .ok (.init ⟨fd, c.deviceName, c.maxHeldKeys⟩) := by
  have hcons : initCommand fd c = "init" :: (initCommand fd c).tail := rfl
  rw [hcons, runCli, parseInitArgs_initCommand h hfd]
  rfl

end

end Ferrokey.Daemon
