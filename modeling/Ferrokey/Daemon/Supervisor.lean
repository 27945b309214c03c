import Ferrokey.Daemon.Arguments
import Ferrokey.Daemon.Capacity

/-! # The supervisor

The supervisor loads the configuration, lets the bootstrap component make the device, and
then starts the runtime broker under another identity. What the two read back from their
command lines is the same valid configuration, so the bounds of the configuration bound what
the serve loop keeps.
-/

namespace Ferrokey.Daemon

/-- The end of a socket pair that a process owns. -/
abbrev OwnedFd := Fin (2 ^ 31)

/-- A process to start, and the identity that it takes before it runs. -/
structure Command where
  args : List String
  identity : Option (UInt32 × UInt32)
deriving DecidableEq

inductive ExitStatus where
  | exited (code : ℤ)
  | signaled (signal : ℤ)
  | other
deriving DecidableEq

inductive StartError where
  | config (e : ConfigError)
  | identity (text : String)
  | socketpair (text : String)
  | spawnInit (text : String)
  | initFailed (status : ExitStatus)
  | spawnServe (text : String)
  | serveExited (code : ℤ)
  | serveSignaled (signal : Option ℤ)
deriving DecidableEq

/-- What surrounds the supervisor: its files, the users and groups, a pair of sockets, and what
becomes of a process that it runs. -/
structure Host where
  loader : Loader
  user : String → Except String (Option (UInt32 × UInt32))
  group : String → Except String (Option UInt32)
  socketpair : Except String (OwnedFd × OwnedFd)
  exec : Command → Except String ExitStatus

namespace Host

variable (host : Host)

/-- The entry of a user or a group, or why there is none. -/
def lookup {α : Type} (kind name : String) (entry : Except String (Option α)) : Except String α :=
  match entry with
  | .error e => .error ("cannot look up " ++ kind ++ ": " ++ e)
  | .ok none => .error (kind ++ " '" ++ name ++ "' does not exist")
  | .ok (some found) => .ok found

/-- The service's identity as numbers, neither of which may be root's. -/
def resolveIdentity (config : DaemonConfig) : Except String (UInt32 × UInt32) :=
  lookup "user" config.serviceUser (host.user config.serviceUser) >>= fun user =>
  (if config.serviceGroup = config.serviceUser then .ok user.2
    else lookup "group" config.serviceGroup (host.group config.serviceGroup)) >>= fun gid =>
  if user.1 = 0 then
    .error "service_user resolves to uid 0; the runtime broker must run unprivileged (§3)"
  else if gid = 0 then
    .error "service_group resolves to gid 0; the runtime broker must run unprivileged (§3)"
  else .ok (user.1, gid)

/-- An argument with a NUL byte cannot be passed to a process. -/
def spawn (cmd : Command) : Except String ExitStatus :=
  if cmd.args.any fun arg => '\x00' ∈ arg.toList then
    .error "nul byte found in provided data"
  else host.exec cmd

/-- The supervisor's run: the processes that it tries to start, in order, and its result. -/
def run (configPath : Option String) : List Command × Except StartError Unit :=
  match host.loader.loadConfig configPath with
  | .error e => ([], .error (.config e))
  | .ok config =>
  match host.resolveIdentity config with
  | .error e => ([], .error (.identity e))
  | .ok (uid, gid) =>
  match host.socketpair with
  | .error e => ([], .error (.socketpair e))
  | .ok (initEnd, serveEnd) =>
  let init : Command := ⟨initCommand initEnd config, none⟩
  match host.spawn init with
  | .error e => ([init], .error (.spawnInit e))
  | .ok status =>
  if status ≠ .exited 0 then ([init], .error (.initFailed status)) else
  let serve : Command := ⟨serveCommand serveEnd config, some (uid, gid)⟩
  ([init, serve],
    match host.spawn serve with
    | .error e => .error (.spawnServe e)
    | .ok (.exited 0) => .ok ()
    | .ok (.exited code) => .error (.serveExited code)
    | .ok (.signaled signal) => .error (.serveSignaled (some signal))
    | .ok .other => .error (.serveSignaled none))

/-- The command starts the bootstrap component for the configuration. -/
def Bootstraps (config : DaemonConfig) (cmd : Command) : Prop :=
  cmd.identity = none ∧ ∃ fd : OwnedFd, runCli host.loader.debug cmd.args =
    .ok (.init ⟨fd, config.deviceName, config.maxHeldKeys⟩)

/-- The command starts the broker for the configuration, as the service's user and not as root. -/
def Serves (config : DaemonConfig) (cmd : Command) : Prop :=
  (∃ uid gid, cmd.identity = some (uid, gid) ∧ host.resolveIdentity config = .ok (uid, gid) ∧
      uid ≠ 0 ∧ gid ≠ 0) ∧
    ∃ fd : OwnedFd, runCli host.loader.debug cmd.args = .ok (.serve (.ofConfig fd config))

/-- The configuration that the supervisor loads: a valid one, from a trusted file if the supervisor
is root. -/
structure Loads (configPath : Option String) (config : DaemonConfig) : Prop where
  loaded : host.loader.loadConfig configPath = .ok config
  valid : config.Valid
  trusted : ∃ path, (configPath = some path ∨ configPath = none ∧ path ∈ defaultPaths) ∧
    (host.loader.root = true → host.loader.files.Trusted path)

variable {host} {config : DaemonConfig} {configPath : Option String}

theorem resolveIdentity_ne_zero {uid gid : UInt32}
    (h : host.resolveIdentity config = .ok (uid, gid)) : uid ≠ 0 ∧ gid ≠ 0 := by
  obtain ⟨user, -, h⟩ := Fallible.bind_eq_ok_iff.mp h
  obtain ⟨gid', -, h⟩ := Fallible.bind_eq_ok_iff.mp h
  split at h
  · cases h
  next hu =>
  split at h
  · cases h
  next hg =>
  cases h
  exact ⟨hu, hg⟩

/-- The processes that a run tries to start, as it builds them. -/
theorem run_cases (host : Host) (configPath : Option String) :
    (host.run configPath).1 = [] ∨ ∃ config, host.Loads configPath config ∧
      ∃ (initEnd serveEnd : OwnedFd) (uid gid : UInt32),
        host.resolveIdentity config = .ok (uid, gid) ∧
        ((host.run configPath).1 = [⟨initCommand initEnd config, none⟩] ∨
          host.spawn ⟨initCommand initEnd config, none⟩ = .ok (.exited 0) ∧
          (host.run configPath).1 = [⟨initCommand initEnd config, none⟩,
            ⟨serveCommand serveEnd config, some (uid, gid)⟩]) := by
  unfold run
  split
  · exact Or.inl rfl
  next config hconfig =>
  split
  · exact Or.inl rfl
  next uid gid hid =>
  split
  · exact Or.inl rfl
  next initEnd serveEnd _ =>
  obtain ⟨hvalid, htrusted⟩ := loadConfig_eq_ok hconfig
  refine Or.inr ⟨config, ⟨hconfig, hvalid, htrusted⟩, initEnd, serveEnd, uid, gid, hid, ?_⟩
  dsimp only
  split
  · exact Or.inl rfl
  next status hstatus =>
  split
  · exact Or.inl rfl
  next hok =>
  rw [not_not] at hok
  exact Or.inr ⟨hok ▸ hstatus, rfl⟩

/-- All that the supervisor starts is the bootstrap component, and after its success the broker;
both read the configuration back that it has loaded, and the broker is not root. -/
theorem run_starts (host : Host) (configPath : Option String) :
    (host.run configPath).1 = [] ∨ ∃ config, host.Loads configPath config ∧
      ∃ init, host.Bootstraps config init ∧
        ((host.run configPath).1 = [init] ∨ host.spawn init = .ok (.exited 0) ∧
          ∃ serve, host.Serves config serve ∧ (host.run configPath).1 = [init, serve]) := by
  rcases run_cases host configPath with
    hr | ⟨config, hloads, initEnd, serveEnd, uid, gid, hid, hr⟩
  · exact Or.inl hr
  refine Or.inr ⟨config, hloads, ⟨initCommand initEnd config, none⟩,
    ⟨rfl, initEnd, runCli_initCommand hloads.valid initEnd.2⟩, ?_⟩
  refine hr.imp_right fun ⟨hok, hr⟩ =>
    ⟨hok, _, ⟨⟨uid, gid, rfl, hid, resolveIdentity_ne_zero hid⟩, serveEnd, ?_⟩, hr⟩
  exact runCli_serveCommand hloads.valid serveEnd.2

/-- What reads its command line as the broker's is the broker of a configuration. -/
theorem serves_of_mem {cmd : Command} (hm : cmd ∈ (host.run configPath).1) {args : ServeArgs}
    (ha : runCli host.loader.debug cmd.args = .ok (.serve args)) :
    ∃ config fd, config.Valid ∧ args = .ofConfig fd config := by
  rcases run_cases host configPath with
    hr | ⟨config, ⟨-, hvalid, -⟩, initEnd, serveEnd, uid, gid, -, hr⟩
  · rw [hr] at hm
    cases hm
  have hmem : cmd = ⟨initCommand initEnd config, none⟩ ∨
      cmd = ⟨serveCommand serveEnd config, some (uid, gid)⟩ := by
    rcases hr with hr | ⟨-, hr⟩
    · exact Or.inl (List.mem_singleton.mp (hr ▸ hm))
    · simpa [hr] using hm
  rcases hmem with rfl | rfl
  · rw [runCli_initCommand hvalid initEnd.2] at ha
    cases ha
  · rw [runCli_serveCommand hvalid serveEnd.2] at ha
    cases ha
    exact ⟨config, _, hvalid, rfl⟩

/-- Whatever a configuration file says, a broker that the supervisor starts keeps its clients
within the hard limits, whatever they send and read and whatever the device answers. -/
theorem run_capacity {cmd : Command} (hm : cmd ∈ (host.run configPath).1) {args : ServeArgs}
    (ha : runCli host.loader.debug cmd.args = .ok (.serve args)) {answer : ℕ → Option String}
    {turns : List Turn} {rt : Runtime}
    (h : (Runtime.start answer args.maxConnections args.maxHeldKeys).serveLoop turns = some rt) :
    args.maxConnections ≤ maxConnectionsLimit ∧ args.maxHeldKeys ≤ maxHeldKeysLimit ∧
      rt.sessions.length ≤ args.maxConnections ∧
      (∀ slot ∈ rt.sessions, slot.Small args.maxHeldKeys) ∧
      (rt.sessions.map SessionSlot.bytes).sum ≤ args.maxConnections * maxSlotBytes ∧
      rt.heldKeys.length ≤ args.maxConnections * args.maxHeldKeys := by
  obtain ⟨config, fd, hvalid, rfl⟩ := serves_of_mem hm ha
  have hlen := ((bounded_inductive _).serveLoop ⟨rfl, Nat.zero_le _⟩ h).2
  exact ⟨hvalid.connections.2, hvalid.held.2, hlen, capacity_of_serveLoop h⟩

/-- A root supervisor whose configuration lets in user 1000. -/
def letsIn1000 : Host where
  loader := {
    files := ⟨fun _ => .ok "allowed_uids: [1000]\n", fun _ => .ok (0, 0o100644)⟩
    root := true
    fromStr := fun text => if text = "allowed_uids: [1000]\n" then
      .ok { DaemonConfig.default with allowedUids := [1000] } else .error "not modelled"
    debug := fun s => "\"" ++ s ++ "\"" }
  user := fun _ => .ok (some (970, 970))
  group := fun _ => .ok (some 970)
  socketpair := .ok (3, 4)
  exec := fun _ => .ok (.exited 0)

theorem run_capacity_letsIn1000 :
    ∃ cmd ∈ (letsIn1000.run none).1, ∃ args,
      runCli letsIn1000.loader.debug cmd.args = .ok (.serve args) ∧
      ∃ rt, (Runtime.start (fun _ => none) args.maxConnections args.maxHeldKeys).serveLoop
        acceptAndPress = some rt ∧
      rt.heldKeys.length ≤ args.maxConnections * args.maxHeldKeys := by
  have hm : ⟨serveCommand 4 { DaemonConfig.default with allowedUids := [1000] }, some (970, 970)⟩ ∈
      (letsIn1000.run none).1 := by decide
  have ha : runCli letsIn1000.loader.debug
      (serveCommand 4 { DaemonConfig.default with allowedUids := [1000] }) =
        .ok (.serve (.ofConfig 4 { DaemonConfig.default with allowedUids := [1000] })) := by decide
  have hloop : ((Runtime.start (fun _ => none) 1 16).serveLoop acceptAndPress).isSome := by decide
  obtain ⟨rt, hrt⟩ := Option.isSome_iff_exists.mp hloop
  exact ⟨_, hm, _, ha, rt, hrt, (run_capacity hm ha hrt).2.2.2.2.2⟩

end Host

end Ferrokey.Daemon
