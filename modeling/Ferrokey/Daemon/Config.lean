import Ferrokey.Collections.Fallible
import Ferrokey.Collections.Numeral
import Ferrokey.Daemon.SessionScope

/-! # The daemon's configuration

The configuration is the security boundary, so every value of it has hard bounds. The checks
run in a fixed order and the first one that fails names its field.
-/

namespace Ferrokey.Daemon

open Text Fallible

def maxConnectionsLimit : ℕ := 64
def maxRateLimit : ℕ := 10000
def maxHeldKeysLimit : ℕ := 32
def maxSocketPathLen : ℕ := 107
def maxDeviceNameLen : ℕ := 80

structure RateConfig where
  burst : UInt32
  perSecond : UInt32
deriving DecidableEq

def RateConfig.default : RateConfig := ⟨200, 200⟩

/-- How clients are bound to a login session: not at all, to a named scope, or to the broker's
own scope. -/
inductive SessionScopeConfig where
  | none
  | explicit (scope : String)
  | auto
deriving DecidableEq

structure DaemonConfig where
  socketPath : String
  allowedUids : List UInt32
  allowedGids : List UInt32
  maxConnections : ℕ
  rate : RateConfig
  maxHeldKeys : ℕ
  deviceName : String
  socketMode : UInt32
  serviceUser : String
  serviceGroup : String
  sessionScope : SessionScopeConfig
deriving DecidableEq

def DaemonConfig.default : DaemonConfig where
  socketPath := "/run/ferrokeyd/ferrokeyd.sock"
  allowedUids := []
  allowedGids := []
  maxConnections := 1
  rate := .default
  maxHeldKeys := 16
  deviceName := "Ferrokey Virtual Keyboard"
  socketMode := 0o666
  serviceUser := "ferrokeyd"
  serviceGroup := "ferrokeyd"
  sessionScope := .none

inductive ConfigError where
  | io (path source : String)
  | parse (text : String)
  | invalid (text : String)
deriving DecidableEq

def hasDuplicates {α : Type*} [BEq α] (items : List α) : Bool :=
  items.zipIdx.any fun a => (items.drop (a.2 + 1)).any fun b => a.1 == b

/-- A number in decimal digits. -/
def decimal (n : ℕ) : String := String.ofList (Nat.toDigits 10 n)

/-- A number in octal digits behind `0o`. -/
def octal (n : ℕ) : String := String.ofList ('0' :: 'o' :: Nat.toDigits 8 n)

/-- One check of the configuration: the text of its error when it fails. -/
def failIf (bad : Bool) (text : String) : Except ConfigError Unit :=
  if bad then .error (.invalid text) else .ok ()

/-- Is the configuration usable and safe? `debug` prints a text in quotes. -/
def DaemonConfig.validate (debug : String → String) (c : DaemonConfig) :
    Except ConfigError Unit := do
  failIf (c.socketPath.toList = []) "socket_path must not be empty"
  failIf (maxSocketPathLen < c.socketPath.utf8ByteSize)
    ("socket_path is " ++ decimal c.socketPath.utf8ByteSize ++
      " bytes; the kernel limit (sun_path) is " ++ decimal maxSocketPathLen)
  failIf (c.socketPath.toList.head? ≠ some '/')
    ("socket_path must be an absolute path (relative paths are ambiguous " ++
      "and attacker-influenced by the cwd)")
  failIf (c.allowedUids.isEmpty && c.allowedGids.isEmpty)
    ("allowed_uids and allowed_gids are both empty: no client could ever " ++
      "connect (deny-by-default). Add at least one uid or gid.")
  failIf (hasDuplicates c.allowedUids) "allowed_uids contains duplicates"
  failIf (hasDuplicates c.allowedGids) "allowed_gids contains duplicates"
  failIf (c.maxConnections = 0) "max_connections must be >= 1"
  failIf (maxConnectionsLimit < c.maxConnections)
    ("max_connections " ++ decimal c.maxConnections ++ " exceeds the hard limit " ++
      decimal maxConnectionsLimit)
  failIf (c.maxHeldKeys = 0) "max_held_keys must be >= 1"
  failIf (maxHeldKeysLimit < c.maxHeldKeys)
    ("max_held_keys " ++ decimal c.maxHeldKeys ++ " exceeds the hard limit " ++
      decimal maxHeldKeysLimit ++ " (justification: real keyboards cap rollover at ~6-10 " ++
      "keys; more held keys only multiply attack surface)")
  failIf (c.rate.burst = 0) "rate.burst must be >= 1"
  failIf (maxRateLimit < c.rate.burst.toNat)
    ("rate.burst " ++ decimal c.rate.burst.toNat ++ " exceeds the hard limit " ++
      decimal maxRateLimit)
  failIf (c.rate.perSecond = 0) "rate.per_second must be >= 1"
  failIf (maxRateLimit < c.rate.perSecond.toNat)
    ("rate.per_second " ++ decimal c.rate.perSecond.toNat ++ " exceeds the hard limit " ++
      decimal maxRateLimit)
  failIf (c.deviceName.toList = []) "device_name must not be empty"
  failIf (maxDeviceNameLen < c.deviceName.utf8ByteSize)
    ("device_name is " ++ decimal c.deviceName.utf8ByteSize ++
      " bytes; the kernel limit (UINPUT_MAX_NAME_SIZE) is " ++ decimal maxDeviceNameLen)
  failIf ('\x00' ∈ c.deviceName.toList) "device_name must not contain NUL bytes"
  failIf (0o777 < c.socketMode)
    ("socket_mode " ++ octal c.socketMode.toNat ++
      " is not a valid permission mask (max 0o777)")
  failIf (c.serviceUser = "" || c.serviceGroup = "")
    "service_user and service_group must both be set (§3)"
  failIf (c.serviceUser = "root" || c.serviceGroup = "root")
    ("service_user/service_group must not be root: the runtime broker " ++
      "must run under a dedicated unprivileged identity (§3)")
  match c.sessionScope with
  | .explicit scope =>
    failIf (!isValidSessionScope scope.toList)
      ("session_scope " ++ debug scope ++ " is not a valid logind scope name " ++
        "(expected 'auto', 'none', or the form 'session-N.scope')")
  | .none | .auto => .ok ()

/-- A configuration within its bounds. -/
structure DaemonConfig.Valid (c : DaemonConfig) : Prop where
  absolute : c.socketPath.toList.head? = some '/'
  path_le : c.socketPath.utf8ByteSize ≤ maxSocketPathLen
  somebody : c.allowedUids ≠ [] ∨ c.allowedGids ≠ []
  uids : c.allowedUids.Nodup
  gids : c.allowedGids.Nodup
  connections : 0 < c.maxConnections ∧ c.maxConnections ≤ maxConnectionsLimit
  held : 0 < c.maxHeldKeys ∧ c.maxHeldKeys ≤ maxHeldKeysLimit
  burst : 0 < c.rate.burst.toNat ∧ c.rate.burst.toNat ≤ maxRateLimit
  perSecond : 0 < c.rate.perSecond.toNat ∧ c.rate.perSecond.toNat ≤ maxRateLimit
  name : c.deviceName.toList ≠ [] ∧ c.deviceName.utf8ByteSize ≤ maxDeviceNameLen ∧
    '\x00' ∉ c.deviceName.toList
  mode : c.socketMode.toNat ≤ 0o777
  service : ∀ s ∈ [c.serviceUser, c.serviceGroup], s ≠ "" ∧ s ≠ "root"
  scope : ∀ scope, c.sessionScope = .explicit scope → isValidSessionScope scope.toList = true

section

variable {c : DaemonConfig}

@[simp] theorem failIf_bind_eq_ok {bad : Bool} {text : String}
    {k : Unit → Except ConfigError Unit} :
    (failIf bad text >>= k) = .ok () ↔ bad = false ∧ k () = .ok () := by
  cases bad <;> simp [failIf, bind, Except.bind]

@[simp] theorem failIf_eq_ok {bad : Bool} {text : String} :
    failIf bad text = .ok () ↔ bad = false := by
  cases bad <;> simp [failIf]

@[simp] theorem hasDuplicates_eq_false_iff {α : Type*} [DecidableEq α] {items : List α} :
    hasDuplicates items = false ↔ items.Nodup := by
  simp only [hasDuplicates, List.any_eq_false, Prod.forall, List.mem_zipIdx_iff_getElem?,
    List.any_eq_true, not_exists, not_and, beq_iff_eq]
  rw [List.Nodup, List.pairwise_iff_getElem]
  constructor
  · intro h i j hi hj hij
    refine h _ i (List.getElem?_eq_getElem hi) _ (List.mem_iff_getElem?.mpr ⟨j - (i + 1), ?_⟩)
    rw [List.getElem?_drop, Nat.add_sub_cancel' hij, List.getElem?_eq_getElem hj]
  · intro h a i ha b hb
    obtain ⟨hi, rfl⟩ := List.getElem?_eq_some_iff.mp ha
    obtain ⟨j, hj, rfl⟩ := List.mem_drop_iff_getElem.mp hb
    exact h i (i + 1 + j) hi (by omega) (by omega)

/-- The checks together are the bounds. -/
theorem validate_eq_ok_iff (debug : String → String) : c.validate debug = .ok () ↔ c.Valid := by
  have hscope : (match c.sessionScope with
      | .explicit scope => failIf (!isValidSessionScope scope.toList)
          ("session_scope " ++ debug scope ++ " is not a valid logind scope name " ++
            "(expected 'auto', 'none', or the form 'session-N.scope')")
      | .none | .auto => .ok ()) = .ok () ↔
        ∀ scope, c.sessionScope = .explicit scope → isValidSessionScope scope.toList = true := by
    cases c.sessionScope <;> simp
  simp only [DaemonConfig.validate, failIf_bind_eq_ok, decide_eq_false_iff_not,
    hasDuplicates_eq_false_iff, Bool.and_eq_false_iff, Bool.or_eq_false_iff,
    List.isEmpty_eq_false_iff, not_not, Nat.not_lt, ← UInt32.toNat_inj]
  rw [hscope]
  constructor
  · rintro ⟨-, hpath, habs, hsome, huids, hgids, hc₀, hc, hh₀, hh, hb₀, hb, hp₀, hp, hn₀, hn, hnul,
      hmode, hempty, hroot, hs⟩
    exact {
      absolute := habs
      path_le := hpath
      somebody := hsome
      uids := huids
      gids := hgids
      connections := ⟨Nat.pos_of_ne_zero hc₀, hc⟩
      held := ⟨Nat.pos_of_ne_zero hh₀, hh⟩
      burst := ⟨Nat.pos_of_ne_zero hb₀, hb⟩
      perSecond := ⟨Nat.pos_of_ne_zero hp₀, hp⟩
      name := ⟨hn₀, hn, hnul⟩
      mode := Nat.le_of_not_lt hmode
      service := by simp [*]
      scope := hs }
  · intro h
    have hne : c.socketPath.toList ≠ [] := fun he => by simpa [he] using h.absolute
    have hu := h.service c.serviceUser (by simp)
    have hg := h.service c.serviceGroup (by simp)
    exact ⟨hne, h.path_le, h.absolute, h.somebody, h.uids, h.gids, h.connections.1.ne',
      h.connections.2, h.held.1.ne', h.held.2, h.burst.1.ne', h.burst.2, h.perSecond.1.ne',
      h.perSecond.2, h.name.1, h.name.2.1, h.name.2.2, Nat.not_lt.mpr h.mode,
      ⟨hu.1, hg.1⟩, ⟨hu.2, hg.2⟩, h.scope⟩

end

section Loading

/-- The files as the daemon sees them: their texts, and their owners and modes. -/
structure FileSystem where
  readToString : String → Except String String
  metadata : String → Except String (UInt32 × UInt32)

/-- What surrounds the loading of a configuration: the files, whether the process is root, the
YAML reader, and how a text is printed in quotes. -/
structure Loader where
  files : FileSystem
  root : Bool
  fromStr : String → Except String DaemonConfig
  debug : String → String

variable (l : Loader)

def Loader.parse (yaml : String) : Except ConfigError DaemonConfig := do
  let config ← (l.fromStr yaml).mapError .parse
  config.validate l.debug
  return config

/-- A privileged process reads only a file of root's that nobody else may write. -/
def Loader.checkPrivilegedPlacement (path : String) : Except ConfigError Unit := do
  if !l.root then return ()
  let (uid, mode) ← (l.files.metadata path).mapError (.io path)
  failIf (uid ≠ 0)
    ("config " ++ path ++ " is owned by uid " ++ decimal uid.toNat ++ " but the daemon is " ++
      "running as root; the security-boundary configuration must be root-owned (§45)")
  failIf (mode &&& 0o022 ≠ 0)
    ("config " ++ path ++ " is group/world-writable (" ++ octal (mode &&& 0o777).toNat ++
      "); the security-boundary configuration must not be writable by anyone but root (§45)")

def Loader.load (path : String) : Except ConfigError DaemonConfig := do
  let text ← (l.files.readToString path).mapError (.io path)
  let cfg ← l.parse text
  l.checkPrivilegedPlacement path
  return cfg

def defaultPaths : List String := ["/etc/ferrokey/ferrokeyd.yaml"]

/-- The file that is named, or else the first default one that exists. -/
def Loader.loadConfig : Option String → Except ConfigError DaemonConfig
  | some path => l.load path
  | none =>
    match defaultPaths.find? fun path => (l.files.metadata path).isOk with
    | some path => l.load path
    | none => .error (.invalid ("no configuration found; the security-boundary config lives " ++
        "at /etc/ferrokey/ferrokeyd.yaml (deny-by-default — you must configure " ++
        "allowed_uids/allowed_gids)"))

/-- A file that a privileged process may take its configuration from. -/
def FileSystem.Trusted (files : FileSystem) (path : String) : Prop :=
  ∃ mode, files.metadata path = .ok (0, mode) ∧ mode &&& 0o022 = 0

variable {l} {c : DaemonConfig}

theorem trusted_of_checkPrivilegedPlacement {path : String}
    (h : l.checkPrivilegedPlacement path = .ok ()) (hr : l.root = true) :
    l.files.Trusted path := by
  unfold Loader.checkPrivilegedPlacement at h
  rw [hr] at h
  obtain ⟨⟨uid, mode⟩, hm, hchecks⟩ := bind_eq_ok_iff.mp h
  obtain ⟨huid, hmode⟩ := failIf_bind_eq_ok.mp hchecks
  rw [decide_eq_false_iff_not, not_not] at huid
  rw [failIf_eq_ok, decide_eq_false_iff_not, not_not] at hmode
  exact ⟨mode, by rw [mapError_eq_ok_iff.mp hm, huid], hmode⟩

/-- A configuration that is loaded is within its bounds, and a privileged process has it from a
trusted file. -/
theorem load_eq_ok {path : String} (h : l.load path = .ok c) :
    c.Valid ∧ (l.root = true → l.files.Trusted path) := by
  obtain ⟨text, -, h⟩ := bind_eq_ok_iff.mp h
  obtain ⟨cfg, hparse, h⟩ := bind_eq_ok_iff.mp h
  obtain ⟨_, hplace, h⟩ := bind_eq_ok_iff.mp h
  obtain ⟨config, -, hparse⟩ := bind_eq_ok_iff.mp hparse
  obtain ⟨_, hvalid, hparse⟩ := bind_eq_ok_iff.mp hparse
  cases h
  cases hparse
  exact ⟨(validate_eq_ok_iff l.debug).mp hvalid, trusted_of_checkPrivilegedPlacement hplace⟩

/-- The file that a configuration comes from was named, or it is a default one. -/
theorem loadConfig_eq_ok {named : Option String} (h : l.loadConfig named = .ok c) :
    c.Valid ∧ ∃ path, (named = some path ∨ named = none ∧ path ∈ defaultPaths) ∧
      (l.root = true → l.files.Trusted path) := by
  unfold Loader.loadConfig at h
  split at h
  next path =>
    obtain ⟨hvalid, htrusted⟩ := load_eq_ok h
    exact ⟨hvalid, path, Or.inl rfl, htrusted⟩
  split at h
  next path hfind =>
    obtain ⟨hvalid, htrusted⟩ := load_eq_ok h
    exact ⟨hvalid, path, Or.inr ⟨rfl, List.mem_of_find?_eq_some hfind⟩, htrusted⟩
  · cases h

end Loading

end Ferrokey.Daemon
