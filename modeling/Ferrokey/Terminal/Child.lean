import Ferrokey.Machine.Monitor
import Ferrokey.Terminal.PtyOrder
import Ferrokey.Terminal.Shell

/-! # The life of the shell

A terminal with a session has a child, which is asked about without blocking, hung up and killed
if need be, and replaced by the next one. What is asked of the system about the children is one
log, and a monitor says what such a log may be: nobody waits for a child that has ended, a child
is killed only after it was hung up, the host is told of an end once, and no child is left before
it has ended or was killed.
-/

set_option linter.dupNamespace false

namespace Ferrokey.Terminal

open Machine

/-- How the child process ended. -/
inductive ChildExit where
  | exited (code : ℤ)
  | signaled (name : String)
  deriving DecidableEq, Repr

def ChildExit.summary : ChildExit → String
  | .exited code => s!"exited with status {code}"
  | .signaled name => s!"killed by {name}"

/-- What the system answers when it is asked whether a child ended. -/
inductive WaitAnswer where
  | exited (code : ℤ)
  | signaled (name : String)
  | stillAlive
  | other
  | noChild
  | failed
  deriving DecidableEq, Repr

/-- The end that an answer tells of; a child that is not there has ended. -/
def WaitAnswer.exit : WaitAnswer → Option ChildExit
  | .exited code => some (.exited code)
  | .signaled name => some (.signaled name)
  | .stillAlive => none
  | .other => some (.exited 0)
  | .noChild => some (.exited (-1))
  | .failed => none

/-- What the system is asked about a child, and what the host is told. -/
inductive ChildCall where
  | forked (pid : ℕ)
  | waited (pid : ℕ) (answer : WaitAnswer)
  | hungUp (pid : ℕ)
  | killed (pid : ℕ)
  | told (exit : ChildExit)
  deriving DecidableEq, Repr

/-! ### Starting a shell -/

structure ShellConfig where
  shell : Option (List Char)
  home : Option (List Char)

/-- What the shell depends on that is not configured: variables, and which files there are. -/
structure Surroundings where
  shell : Option (List Char)
  path : Option (List Char)
  home : Option (List Char)
  isFile : List Char → Bool

namespace ShellConfig

variable (config : ShellConfig) (around : Surroundings)

def resolveShell : List Char := config.shell.getD (around.shell.getD "/bin/sh".toList)

/-- A name in a directory. -/
def join (dir name : List Char) : List Char :=
  if dir.getLast?.any (· ≠ '/') then dir ++ '/' :: name else dir ++ name

/-- A bare name is looked for in the directories of the path, anything else is taken as it is. -/
def resolveShellAbs : List Char :=
  let shell := config.resolveShell around
  if shell.contains '/' then shell
  else
    match around.path with
    | none => shell
    | some path => (((path.splitOn ':').map (join · shell)).find? around.isFile).getD shell

def resolveHome : Option (List Char) := config.home.orElse fun _ => around.home

end ShellConfig

/-- A pseudo-terminal; its slave end is open until a child has been started. -/
structure PtyPair where
  slave : Bool
  slavePath : List Char

def PtyPair.open (slavePath : List Char) : PtyPair := ⟨true, slavePath⟩

def PtyPair.closeSlave (pty : PtyPair) : PtyPair := { pty with slave := false }

/-- A child, and how it ended if that is known. -/
structure ChildHandle where
  pid : ℕ
  reaped : Bool
  exit : Option ChildExit
  isSome_exit : exit.isSome = reaped

namespace ChildHandle

def hasNul (text : List Char) : Bool := text.contains '\x00'

/-- Start a shell on a pseudo-terminal, with what the system answers to the fork. -/
def spawn (pty : PtyPair) (config : ShellConfig) (around : Surroundings)
    (fork : Except String ℕ) : Except TerminalError ChildHandle × PtyPair × List ChildCall :=
  let shell := config.resolveShellAbs around
  if hasNul shell then (.error (.invalidState "shell path contains NUL"), pty, [])
  else if hasNul ((fileName shell).getD shell) then
    (.error (.invalidState "shell name contains NUL"), pty, [])
  else if hasNul pty.slavePath then (.error (.invalidState "slave path contains NUL"), pty, [])
  else if (config.resolveHome around).any hasNul then
    (.error (.invalidState "home path contains NUL"), pty, [])
  else if !pty.slave then (.error (.invalidState "PTY slave already closed"), pty, [])
  else
    match fork with
    | .ok pid => (.ok ⟨pid, false, none, rfl⟩, pty.closeSlave, [.forked pid])
    | .error text => (.error (.nix text), pty, [])

/-! ### Waiting for the end -/

variable (c : ChildHandle)

def finish (exit : ChildExit) : ChildHandle × Option ChildExit :=
  (⟨c.pid, true, some exit, rfl⟩, some exit)

/-- Ask whether the child ended, unless that is known. -/
def pollReap (answer : WaitAnswer) : ChildHandle × Option ChildExit × List ChildCall :=
  if c.reaped then (c, c.exit, [])
  else
    match answer.exit with
    | some exit => ((c.finish exit).1, (c.finish exit).2, [.waited c.pid answer])
    | none => (c, none, [.waited c.pid answer])

/-- Ask until the child ended or the time is over; the first time it is asked in any case. -/
def waitWithTimeout (c : ChildHandle) (answer : WaitAnswer) :
    List WaitAnswer → ChildHandle × Bool × List ChildCall
  | [] => ((c.pollReap answer).1, (c.pollReap answer).2.1.isSome, (c.pollReap answer).2.2)
  | answer' :: answers =>
    let (c, exit, calls) := c.pollReap answer
    if exit.isSome then (c, true, calls)
    else
      let (c, ended, more) := waitWithTimeout c answer' answers
      (c, ended, calls ++ more)

/-- The answers while the time for a child to end lasts. -/
structure Grace where
  answer : WaitAnswer
  answers : List WaitAnswer

def wait (grace : Grace) : ChildHandle × Bool × List ChildCall :=
  c.waitWithTimeout grace.answer grace.answers

/-- Hang up and wait, then kill and wait. -/
def shutdown (hangup kill : Grace) : ChildHandle × ChildExit × List ChildCall :=
  let waited := c.wait hangup
  let calls := .hungUp c.pid :: waited.2.2
  if waited.2.1 then (waited.1, waited.1.exit.getD (.exited (-1)), calls)
  else
    let last := waited.1.wait kill
    let exit := if last.2.1 then last.1.exit.getD (.exited (-1)) else .exited (-1)
    (last.1, exit, calls ++ .killed waited.1.pid :: last.2.2)

/-- A handle that goes away does the same once more, unless the child ended. -/
def drop (hangup kill : Grace) : ChildHandle × List ChildCall :=
  if c.reaped then (c, [])
  else
    let waited := c.wait hangup
    let calls := .hungUp c.pid :: waited.2.2
    if waited.1.reaped then (waited.1, calls)
    else
      let last := waited.1.wait kill
      (last.1, calls ++ .killed waited.1.pid :: last.2.2)

end ChildHandle

/-! ### The session -/

/-- A terminal, the shell that it is configured for, and the child of its session. -/
structure TerminalSession where
  terminal : Terminal
  shell : ShellConfig
  child : Option ChildHandle
  childExited : Option ChildExit

/-- What the system answers when a session is started. -/
structure Launch where
  around : Surroundings
  opened : Except TerminalError (List Char)
  fork : Except String ℕ

/-- The answers while a child is shut down and while its handle goes away. -/
structure Ending where
  hangup : ChildHandle.Grace
  kill : ChildHandle.Grace
  dropHangup : ChildHandle.Grace
  dropKill : ChildHandle.Grace

inductive SessionEvent where
  | terminal (event : TerminalEvent)
  | childExited (exit : ChildExit)

def SessionEvent.exit : SessionEvent → Option ChildExit
  | .terminal _ => none
  | .childExited exit => some exit

/-- What the renderer is given to paint of a session: the pane, and the banner of a child that has
ended, with the control that restarts it. -/
structure SessionView extends PaneView where
  exited : Option (String × Bool)

namespace TerminalSession

variable (s : TerminalSession)

def isRunning : Bool := s.child.any fun c => !c.reaped

def startSession (config : ShellConfig) (l : Launch) :
    Option (TerminalSession × Except TerminalError Unit × List ChildCall) :=
  if s.terminal.pty.isSome then
    some (s, .error (.invalidState "a terminal session is already running"), [])
  else
    match l.opened with
    | .error e => some (s, .error e, [])
    | .ok slavePath =>
      match ChildHandle.spawn (.open slavePath) config l.around l.fork with
      | (.error e, _, calls) => some (s, .error e, calls)
      | (.ok child, _, calls) => do
        let (terminal, result) ← s.terminal.startSession (.ok ())
        some ({ s with terminal, child := some child, childExited := none }, result, calls)

def shutdownChild (e : Ending) : TerminalSession × List ChildCall :=
  match s.child with
  | none => (s, [])
  | some c =>
    let (c, _, calls) := c.shutdown e.hangup e.kill
    ({ s with child := none }, calls ++ (c.drop e.dropHangup e.dropKill).2)

def shutdown (e : Ending) : TerminalSession × List ChildCall :=
  let (s, calls) := s.shutdownChild e
  ({ s with terminal := s.terminal.shutdown, child := none, childExited := none }, calls)

/-- The terminal that a session is restarted on, with an empty screen. -/
def renewed (t : Terminal) (grid : Grid) : Terminal :=
  Terminal.resetSgr { t with
    grid
    altGrid := false
    saved := none
    scrollback := t.scrollback.clear
    viewport := .default
    selection := none }

/-- Shut the child down, and start the configured shell on an empty screen. -/
def restart (e : Ending) (l : Launch) :
    Option (TerminalSession × Except TerminalError Unit × List ChildCall) :=
  let (s, calls) := s.shutdown e
  match Grid.new s.terminal.grid.cols s.terminal.grid.rowCount with
  | .error e => some (s, .error (.invalidState e.display), calls)
  | .ok grid => do
    let (s, result, more) ←
      startSession { s with terminal := renewed s.terminal grid } s.shell l
    some (s, result, calls ++ more)

/-- Ask whether the child ended, and tell the host if it is new. -/
def reap (answer : WaitAnswer) : TerminalSession × List SessionEvent × List ChildCall :=
  match s.child with
  | none => (s, [], [])
  | some c =>
    match c.pollReap answer with
    | (c, none, calls) => ({ s with child := some c }, [], calls)
    | (c, some exit, calls) =>
      if s.childExited.isNone then
        ({ s with child := some c, childExited := some exit }, [.childExited exit],
          calls ++ [.told exit])
      else ({ s with child := some c }, [], calls)

/-- One round of the event loop, with what the system answers. -/
def poll (tables : UnicodeTables) (answers : List WriteAnswer) (reads : List ReadAnswer)
    (answer : WaitAnswer) :
    Option (TerminalSession × List UInt8 × List SessionEvent × List ChildCall) :=
  if s.terminal.pty.isNone then some (s, [], [], [])
  else do
    let (t, out) := s.terminal.flush answers
    let (t, events) ← Terminal.readLoop tables Terminal.readBudget reads t
    let (s, ends, calls) := reap { s with terminal := t } answer
    some ({ s with terminal := { t with bell := false } }, out,
      events.map .terminal ++ ends ++ if t.bell then [.terminal .bell] else [], calls)

/-- A view of the terminal below the banner. -/
def withBanner (view : PaneView) : SessionView :=
  { view with exited := s.childExited.map fun exit => (s!"Process {exit.summary}", true) }

def paneView : Option SessionView := s.terminal.paneView.map s.withBanner

def render : Option (TerminalSession × Option (SessionView × Option (List ℕ))) :=
  s.terminal.render.map fun out =>
    ({ s with terminal := out.1 }, out.2.map (Prod.map s.withBanner id))

/-- What goes away with the terminal. -/
def drop (hangup kill : ChildHandle.Grace) : List ChildCall :=
  match s.child with
  | none => []
  | some c => (c.drop hangup kill).2

end TerminalSession

/-- The calls that leave the session as it is. -/
def TerminalOp.keepsSession : TerminalOp → Bool
  | .startSession _ | .restart _ | .shutdown => false
  | _ => true

/-- What the host does with a terminal and its session. -/
inductive SessionOp where
  | startSession (config : ShellConfig) (l : Launch)
  | restart (e : Ending) (l : Launch)
  | shutdown (e : Ending)
  | poll (answers : List WriteAnswer) (reads : List ReadAnswer) (answer : WaitAnswer)
  | call (op : TerminalOp) (keeps : op.keepsSession = true)

namespace TerminalSession

/-- The terminal before its first session. -/
def start (t : Terminal) (shell : ShellConfig) : TerminalSession := ⟨t, shell, none, none⟩

/-- What the host does, and what the system is asked then about the child. -/
def step (tables : UnicodeTables) (s : TerminalSession) :
    SessionOp → Option (TerminalSession × List ChildCall)
  | .startSession config l => (s.startSession config l).map fun out => (out.1, out.2.2)
  | .restart e l => (s.restart e l).map fun out => (out.1, out.2.2)
  | .shutdown e => some (s.shutdown e)
  | .poll answers reads answer =>
    (s.poll tables answers reads answer).map fun out => (out.1, out.2.2.2)
  | .call op _ => (s.terminal.perform tables op).map fun out => ({ s with terminal := out.1 }, [])

end TerminalSession

/-! ### What a log may be -/

/-- A fork begins anew, and the host is told of an end. -/
def ChildCall.tell (told : Option ChildExit) : ChildCall → Option ChildExit
  | .forked _ => none
  | .told exit => some exit
  | .waited .. | .hungUp _ | .killed _ => told

/-- The end of the last child, if the host was told of it. -/
def endTold (log : List ChildCall) : Option ChildExit := log.foldl ChildCall.tell none

/-- What a log tells about the last child. -/
inductive ChildPhase where
  | vacant
  | alive (pid : ℕ) (hungUp killed : Bool)
  | ended (pid : ℕ) (exit : ChildExit) (told : Bool)
  deriving DecidableEq, Repr

namespace ChildPhase

/-- No child is left that nothing was done about. -/
def released : ChildPhase → Bool
  | .vacant | .ended .. => true
  | .alive _ _ killed => killed

def next : ChildPhase → ChildCall → Option ChildPhase
  | p, .forked pid => if p.released then some (.alive pid false false) else none
  | .alive pid hungUp killed, .waited pid' answer =>
    if pid' = pid then
      some (match answer.exit with
        | none => .alive pid hungUp killed
        | some exit => .ended pid exit false)
    else none
  | .alive pid _ killed, .hungUp pid' => if pid' = pid then some (.alive pid true killed) else none
  | .ended pid exit told, .hungUp pid' => if pid' = pid then some (.ended pid exit told) else none
  | .alive pid true _, .killed pid' => if pid' = pid then some (.alive pid true true) else none
  | .ended pid exit false, .told exit' =>
    if exit' = exit then some (.ended pid exit true) else none
  | _, _ => none

variable {p : ChildPhase} {pid : ℕ} {hungUp killed told : Bool} {exit : ChildExit}

theorem next_forked (h : p.released = true) (pid : ℕ) :
    p.next (.forked pid) = some (.alive pid false false) := by
  simp [next, h]

@[simp] theorem next_waited (answer : WaitAnswer) :
    (alive pid hungUp killed).next (.waited pid answer) =
      some (match answer.exit with
        | none => .alive pid hungUp killed
        | some exit => .ended pid exit false) := by
  simp [next]

@[simp] theorem next_hungUp_alive :
    (alive pid hungUp killed).next (.hungUp pid) = some (.alive pid true killed) := by
  simp [next]

@[simp] theorem next_hungUp_ended :
    (ended pid exit told).next (.hungUp pid) = some (.ended pid exit told) := by
  simp [next]

@[simp] theorem next_killed :
    (alive pid true killed).next (.killed pid) = some (.alive pid true true) := by
  simp [next]

@[simp] theorem next_told :
    (ended pid exit false).next (.told exit) = some (.ended pid exit true) := by
  simp [next]

/-- The end that the host was told of. -/
def toldEnd : ChildPhase → Option ChildExit
  | .ended _ exit true => some exit
  | _ => none

theorem toldEnd_next (p : ChildPhase) (call : ChildCall) (q : ChildPhase)
    (h : p.next call = some q) : q.toldEnd = call.tell p.toldEnd := by
  unfold next at h
  split at h
  case h_7 => cases h
  all_goals
    obtain ⟨heq, hq⟩ := Option.ite_none_right_eq_some.mp h
    cases hq
  case h_2 pid hungUp killed pid' answer => cases answer.exit <;> rfl
  case h_6 pid exit exit' => exact congrArg some heq.symm
  all_goals rfl

/-- A log that is admitted tells what its last phase says that it told. -/
theorem toldEnd_of_admits {log : List ChildCall} (h : Admits next .vacant log p) :
    p.toldEnd = endTold log := h.foldl toldEnd_next

/-- Before the next child is forked, a living one is seen to end or is killed. -/
theorem settled_of_admits {a b : ℕ} {mid post : List ChildCall}
    (h : Admits next (.alive a hungUp false) (mid ++ .forked b :: post) p)
    (hmid : ∀ pid, .forked pid ∉ mid) :
    (∃ answer, .waited a answer ∈ mid ∧ answer.exit.isSome) ∨ .killed a ∈ mid := by
  induction mid generalizing hungUp with
  | nil =>
    obtain ⟨q, hq, -⟩ := admits_cons_iff.mp h
    simp [next, released] at hq
  | cons call mid ih =>
    obtain ⟨q, hq, hrest⟩ := admits_cons_iff.mp h
    have hlater (hungUp : Bool) (hq : q = .alive a hungUp false) :
        (∃ answer, .waited a answer ∈ call :: mid ∧ answer.exit.isSome) ∨
          .killed a ∈ call :: mid := by
      rw [hq] at hrest
      refine (ih hrest fun pid hm => hmid pid (List.mem_cons_of_mem _ hm)).imp ?_ ?_
      · rintro ⟨answer, hm, hended⟩
        exact ⟨answer, List.mem_cons_of_mem _ hm, hended⟩
      · exact List.mem_cons_of_mem _
    cases call with
    | forked pid => exact absurd List.mem_cons_self (hmid pid)
    | waited pid answer =>
      simp only [next, Option.ite_none_right_eq_some, Option.some.injEq] at hq
      obtain ⟨rfl, hq⟩ := hq
      cases hexit : answer.exit with
      | none =>
        rw [hexit] at hq
        exact hlater hungUp hq.symm
      | some exit => exact .inl ⟨answer, List.mem_cons_self, by simp [hexit]⟩
    | hungUp pid =>
      simp only [next, Option.ite_none_right_eq_some, Option.some.injEq] at hq
      exact hlater true hq.2.symm
    | killed pid =>
      cases hungUp with
      | false => cases hq
      | true =>
        simp only [next, Option.ite_none_right_eq_some, Option.some.injEq] at hq
        exact .inr (hq.1 ▸ List.mem_cons_self)
    | told exit => cases hq

/-- After a child was seen to end nobody waits for it or kills it. -/
theorem quiet_of_admits {a : ℕ} {mid : List ChildCall}
    (h : Admits next (.ended a exit told) mid p) (hmid : ∀ pid, .forked pid ∉ mid) (pid : ℕ) :
    .killed pid ∉ mid ∧ ∀ answer, .waited pid answer ∉ mid := by
  induction mid generalizing told with
  | nil => exact ⟨List.not_mem_nil, fun _ => List.not_mem_nil⟩
  | cons call mid ih =>
    obtain ⟨q, hq, hrest⟩ := admits_cons_iff.mp h
    have hlater (told : Bool) (hq : q = .ended a exit told) :=
      ih (hq ▸ hrest) fun pid hm => hmid pid (List.mem_cons_of_mem _ hm)
    cases call with
    | forked pid => exact absurd List.mem_cons_self (hmid pid)
    | waited pid answer | killed pid => cases hq
    | hungUp pid =>
      simp only [next, Option.ite_none_right_eq_some, Option.some.injEq] at hq
      simpa using hlater told hq.2.symm
    | told exit' =>
      cases told with
      | true => cases hq
      | false =>
        simp only [next, Option.ite_none_right_eq_some, Option.some.injEq] at hq
        simpa using hlater true hq.2.symm

end ChildPhase

namespace ChildHandle

open ChildPhase (next)

variable {c : ChildHandle} {hungUp killed told : Bool}

/-- The phase of a child, as far as its handle knows. -/
def phase (c : ChildHandle) (hungUp killed told : Bool) : ChildPhase :=
  match c.exit with
  | none => .alive c.pid hungUp killed
  | some exit => .ended c.pid exit told

theorem phase_of_alive (h : c.exit = none) :
    c.phase hungUp killed told = .alive c.pid hungUp killed := by
  simp [phase, h]

theorem released_phase (h : c.reaped = true) : (c.phase hungUp killed told).released = true := by
  rw [← c.isSome_exit, Option.isSome_iff_exists] at h
  obtain ⟨exit, hexit⟩ := h
  simp [phase, hexit, ChildPhase.released]

theorem reaped_of_alive (h : c.exit = none) : c.reaped = false := by
  rw [← c.isSome_exit, h]
  rfl

theorem exit_of_not_reaped (h : ¬ c.reaped = true) : c.exit = none := by
  rwa [← c.isSome_exit, Option.not_isSome_iff_eq_none] at h

/-- Nobody waits for a child again that is known to have ended. -/
theorem pollReap_of_ended {exit : ChildExit} (h : c.exit = some exit) (answer : WaitAnswer) :
    c.pollReap answer = (c, some exit, []) := by
  have hreaped : c.reaped = true := by
    rw [← c.isSome_exit, h]
    rfl
  rw [pollReap, if_pos hreaped, h]

/-- Whoever asks is told what the handle knows from then on. -/
theorem pollReap_exit (c : ChildHandle) (answer : WaitAnswer) :
    (c.pollReap answer).2.1 = (c.pollReap answer).1.exit := by
  unfold pollReap
  split
  · rfl
  next hreaped =>
    cases answer.exit with
    | none => exact (exit_of_not_reaped hreaped).symm
    | some exit => rfl

theorem pollReap_admits (hungUp killed told : Bool) (h : c.exit = none) (answer : WaitAnswer) :
    (c.pollReap answer).1.pid = c.pid ∧
      Admits next (c.phase hungUp killed told) (c.pollReap answer).2.2
        ((c.pollReap answer).1.phase hungUp killed false) := by
  rw [pollReap, if_neg (by simp [reaped_of_alive h]), phase_of_alive h]
  cases hanswer : answer.exit with
  | none => exact ⟨rfl, .cons (by simp [hanswer, phase_of_alive h]) (.nil _)⟩
  | some exit => exact ⟨rfl, .cons (by simp [hanswer, phase, finish]) (.nil _)⟩

/-- Waiting asks about a child until it is known how it ended, and says whether it is. -/
theorem waitWithTimeout_admits (hungUp killed told : Bool) (h : c.exit = none)
    (answer : WaitAnswer) (answers : List WaitAnswer) :
    let out := c.waitWithTimeout answer answers
    out.2.1 = out.1.reaped ∧ out.1.pid = c.pid ∧
      Admits next (c.phase hungUp killed told) out.2.2 (out.1.phase hungUp killed false) := by
  induction answers generalizing c answer told with
  | nil =>
    refine ⟨?_, pollReap_admits hungUp killed told h answer⟩
    exact (congrArg Option.isSome (pollReap_exit c answer)).trans (isSome_exit _)
  | cons answer' answers ih =>
    obtain ⟨hpid, hone⟩ := pollReap_admits hungUp killed told h answer
    have hexit := pollReap_exit c answer
    unfold waitWithTimeout
    generalize c.pollReap answer = out at hpid hone hexit ⊢
    obtain ⟨c', exit, calls⟩ := out
    obtain rfl : exit = c'.exit := hexit
    dsimp only at hpid hone ⊢
    split
    next hended => exact ⟨hended.symm.trans c'.isSome_exit, hpid, hone⟩
    next hended =>
      obtain ⟨hbool, hpid', hrest⟩ :=
        ih false (Option.not_isSome_iff_eq_none.mp hended) answer'
      exact ⟨hbool, hpid'.trans hpid, hone.append hrest⟩

theorem hangup_admits (hungUp killed told : Bool) (h : c.exit = none) (grace : Grace) :
    Admits next (c.phase hungUp killed told) (.hungUp c.pid :: (c.wait grace).2.2)
      ((c.wait grace).1.phase true killed false) := by
  obtain ⟨-, -, hwait⟩ := waitWithTimeout_admits true killed told h grace.answer grace.answers
  rw [phase_of_alive h] at hwait ⊢
  exact .cons (by simp) hwait

theorem kill_admits (h : c.exit = none) (grace : Grace) :
    Admits next (c.phase true killed told) (.killed c.pid :: (c.wait grace).2.2)
      ((c.wait grace).1.phase true true false) := by
  obtain ⟨-, -, hwait⟩ := waitWithTimeout_admits true true told h grace.answer grace.answers
  rw [phase_of_alive h] at hwait ⊢
  exact .cons (by simp) hwait

theorem shutdown_admits (c : ChildHandle) (hangup kill : Grace) :
    ∃ hungUp killed told, Admits next (c.phase false false true) (c.shutdown hangup kill).2.2
      ((c.shutdown hangup kill).1.phase hungUp killed told) := by
  cases hexit : c.exit with
  | some exit =>
    have hwait : c.wait hangup = (c, true, []) := by
      unfold wait
      cases hangup.answers <;> simp [waitWithTimeout, pollReap_of_ended hexit]
    refine ⟨false, false, true, ?_⟩
    simp only [shutdown, hwait, if_true]
    exact .cons (by simp [phase, hexit]) (.nil _)
  | none =>
    have hfirst := hangup_admits false false true hexit hangup
    obtain ⟨hended, -, -⟩ :=
      waitWithTimeout_admits false false true hexit hangup.answer hangup.answers
    unfold shutdown
    dsimp only
    split
    · exact ⟨true, false, false, hfirst⟩
    next hwaits =>
      have halive : (c.wait hangup).1.exit = none := exit_of_not_reaped (hended ▸ hwaits)
      exact ⟨true, true, false, hfirst.append (kill_admits halive kill)⟩

/-- A handle goes away only after its child has ended or was killed. -/
theorem drop_admits (c : ChildHandle) (hungUp killed told : Bool) (hangup kill : Grace) :
    ∃ q, Admits next (c.phase hungUp killed told) (c.drop hangup kill).2 q ∧
      q.released = true := by
  unfold drop
  split
  next hreaped => exact ⟨_, .nil _, released_phase hreaped⟩
  next hreaped =>
    have hexit : c.exit = none := exit_of_not_reaped hreaped
    have hfirst := hangup_admits hungUp killed told hexit hangup
    dsimp only
    split
    next hended => exact ⟨_, hfirst, released_phase hended⟩
    next hended =>
      have halive : (c.wait hangup).1.exit = none := exit_of_not_reaped hended
      refine ⟨_, hfirst.append (kill_admits halive kill), ?_⟩
      unfold phase
      split <;> rfl

end ChildHandle

/-! ### What the calls do to the session -/

namespace Terminal

variable {t : Terminal} {tables : UnicodeTables}

theorem startSession_session (h : t.Valid) (hpty : t.pty.isSome = false) :
    Returns (t.startSession (.ok ())) fun out => out.1.Valid ∧ out.1.pty.isSome = true := by
  obtain ⟨c, r, c₀, r₀, hs⟩ := h.sizes
  have hsized : Grid.Sized c r ({ t with pty := some t.sizeInCells } : Terminal).grid := hs.grid
  rw [startSession, if_neg (by simp [hpty])]
  apply (clearScreen_spec hsized).bind
  rintro t' ⟨hs', hhost⟩
  have hconfig : t'.config = t.config := congrArg Host.config hhost
  have hnew : t'.pty = some t.sizeInCells := congrArg Host.pty hhost
  exact .pure ⟨⟨⟨_, _, _, _, hs'⟩, hconfig ▸ h.capacity⟩, congrArg Option.isSome hnew⟩

theorem resize_session (h : t.Valid) (width height : ℕ) (answer : Except String Unit) :
    Returns (t.resize width height answer) fun out => out.1.pty.isSome = t.pty.isSome := by
  obtain ⟨c, r, c₀, r₀, hs⟩ := h.sizes
  apply Returns.ite
  · exact fun _ => .pure rfl
  · intro _
    apply Returns.ite
    · exact fun _ => .pure rfl
    · intro _
      apply (resizeCells_spec hs h.capacity (cellsFor_inBounds t.metrics width height)).bind
      rintro ⟨t', _⟩ ⟨rfl, -, -, hhost⟩
      have hpty : t'.pty = t.pty := congrArg Host.pty hhost
      rw [← hpty]
      simp only [reportSize]
      cases hp : t'.pty with
      | none => exact .pure (by simp [hp])
      | some size =>
        cases answer with
        | ok _ => exact .pure rfl
        | error text => exact .pure (by simp [hp])

theorem writeAll_session (bytes : List UInt8) (answers : List WriteAnswer) :
    (t.writeAll bytes answers).1.pty = t.pty := by
  unfold writeAll
  split <;> simp_all

theorem flush_session (answers : List WriteAnswer) : (t.flush answers).1.pty = t.pty := by
  have hpending : (t.flushPending answers).1.pty = t.pty := writeAll_session _ _
  have hkeys (t : Terminal) (answers) : (t.flushKeys answers).1.pty = t.pty := writeAll_session _ _
  have hresponse (t : Terminal) (answers) : (t.flushResponse answers).1.pty = t.pty :=
    writeAll_session _ _
  exact (hresponse _ _).trans ((hkeys _ _).trans hpending)

theorem sendInput_session (bytes : List UInt8) : (t.sendInput bytes).1.pty = t.pty := by
  unfold sendInput
  repeat' split
  all_goals rfl

/-- The calls that leave the session as it is keep the pseudo-terminal, if there is one. -/
theorem perform_session (h : t.Valid) {op : TerminalOp} (hop : op.keepsSession = true) :
    Returns (t.perform tables op) fun out => out.1.pty.isSome = t.pty.isSome := by
  obtain ⟨c, r, c₀, r₀, hs⟩ := h.sizes
  have hsame {t' : Terminal} {reply : Reply} (hpty : t'.pty = t.pty) :
      Returns (some (t', reply)) fun out => out.1.pty.isSome = t.pty.isSome :=
    .pure (congrArg Option.isSome hpty)
  have hquiet {t' : Terminal} (hq : Quiet c r t t') : t'.pty.isSome = t.pty.isSome :=
    congrArg (Option.isSome ∘ Host.pty) hq.host
  cases op with
  | feed bytes =>
    exact (feed_valid h tables bytes).map fun _ ht' =>
      congrArg (Option.isSome ∘ Host.pty) ht'.1.host
  | resize width height answer => exact (resize_session h width height answer).map fun _ => id
  | scrollUp n | scrollDown n | returnToNewest => exact hsame rfl
  | selectionStart pos mode =>
    exact (selectionStart_sized hs.grid tables pos mode).map fun _ => hquiet
  | selectionExtend pos => exact (selectionExtend_sized hs.grid tables pos).map fun _ => hquiet
  | selectionClear => exact .pure (hquiet (selectionClear_quiet hs.grid))
  | startSession answer | restart answer | shutdown => cases hop
  | sendInput bytes => exact hsame (sendInput_session bytes)
  | keyInput encoded =>
    refine hsame ?_
    unfold keyInput
    split <;> rfl
  | paste text =>
    refine hsame ?_
    unfold paste
    dsimp only
    repeat' split
    all_goals first | rfl | exact sendInput_session _
  | confirmPaste =>
    refine hsame ?_
    unfold confirmPaste
    dsimp only
    repeat' split
    all_goals first | rfl | exact sendInput_session _
  | cancelPaste => exact hsame rfl
  | tapPaste clipboard =>
    refine hsame ?_
    unfold tapPaste
    repeat' split
    all_goals first | rfl | exact sendInput_session _
  | flush answers => exact hsame (flush_session answers)

theorem readLoop_session {budget : ℕ} {reads : List ReadAnswer} (h : t.Valid)
    {out : Terminal × List TerminalEvent} (hread : readLoop tables budget reads t = some out) :
    out.1.Valid ∧ out.1.pty = t.pty := by
  fun_induction readLoop tables budget reads t generalizing out with
  | case5 budget chunk reads t hne ih =>
    obtain ⟨left, hleft, hread⟩ := Option.bind_eq_some_iff.mp hread
    obtain ⟨t₁, hfeed, hread⟩ := Option.bind_eq_some_iff.mp hread
    obtain ⟨out', hrest, hread⟩ := Option.bind_eq_some_iff.mp hread
    cases hread
    obtain ⟨t₂, hfeed', hadv, hvalid⟩ := feed_valid h tables chunk
    obtain rfl := Option.some_inj.mp (hfeed.symm.trans hfeed')
    obtain ⟨hvalid', hpty⟩ := ih left t₁ hvalid hrest
    exact ⟨hvalid', hpty.trans (congrArg Host.pty hadv.host)⟩
  | _ =>
    cases hread
    exact ⟨h, rfl⟩

end Terminal

namespace TerminalSession

open ChildPhase (next)

variable {s : TerminalSession} {p : ChildPhase} {tables : UnicodeTables}

/-- A log has come to what the session knows: without a child nothing is left that nothing was
done about, and of a child it is known whether it ended, which the host was told. -/
structure Watched (p : ChildPhase) (s : TerminalSession) : Prop where
  valid : s.terminal.Valid
  session : s.terminal.pty.isSome = s.child.isSome
  exited : s.childExited = s.child.bind ChildHandle.exit
  phase : match s.child with
    | none => p.released = true
    | some c => p = c.phase false false true

theorem Watched.isRunning (h : Watched p s) :
    s.isRunning = (s.terminal.pty.isSome && s.childExited.isNone) := by
  rw [h.session, h.exited, TerminalSession.isRunning]
  cases s.child with
  | none => rfl
  | some c =>
    have hexit := c.isSome_exit
    cases hc : c.exit <;> simp_all

/-- A session that has no child. -/
theorem watched_of_released {t : Terminal} (hvalid : t.Valid) (hpty : t.pty = none)
    (h : p.released = true) (shell : ShellConfig) : Watched p ⟨t, shell, none, none⟩ where
  valid := hvalid
  session := by simp [hpty]
  exited := rfl
  phase := h

theorem shutdownChild_admits (h : Watched p s) (e : Ending) :
    (s.shutdownChild e).1 = { s with child := none } ∧
      ∃ q, Admits next p (s.shutdownChild e).2 q ∧ q.released = true := by
  have hphase := h.phase
  unfold shutdownChild
  split at hphase
  next hchild => exact ⟨by rw [← hchild], p, .nil p, hphase⟩
  next c hchild =>
    subst hphase
    obtain ⟨hungUp, killed, told, hstop⟩ := c.shutdown_admits e.hangup e.kill
    obtain ⟨q, hdrop, hq⟩ :=
      (c.shutdown e.hangup e.kill).1.drop_admits hungUp killed told e.dropHangup e.dropKill
    exact ⟨rfl, q, hstop.append hdrop, hq⟩

theorem shutdown_admits (h : Watched p s) (e : Ending) :
    ∃ q, Admits next p (s.shutdown e).2 q ∧ q.released = true ∧ Watched q (s.shutdown e).1 := by
  obtain ⟨hs, q, hadmits, hq⟩ := shutdownChild_admits h e
  refine ⟨q, hadmits, hq, ?_⟩
  have hvalid : s.terminal.shutdown.Valid := h.valid.of_same ⟨rfl, rfl, rfl, rfl⟩
  have hshutdown : (s.shutdown e).1 = ⟨s.terminal.shutdown, s.shell, none, none⟩ := by
    simp [shutdown, hs]
  rw [hshutdown]
  exact watched_of_released hvalid rfl hq s.shell

/-- A shell that was started was forked, and one that was not was not. -/
theorem spawn_eq (pty : PtyPair) (config : ShellConfig) (around : Surroundings)
    (fork : Except String ℕ) :
    (∃ e, ChildHandle.spawn pty config around fork = (.error e, pty, [])) ∨
      ∃ pid, ChildHandle.spawn pty config around fork =
        (.ok ⟨pid, false, none, rfl⟩, pty.closeSlave, [.forked pid]) := by
  unfold ChildHandle.spawn
  dsimp only
  split_ifs
  case neg =>
    cases fork with
    | error text => exact .inl ⟨_, rfl⟩
    | ok pid => exact .inr ⟨pid, rfl⟩
  all_goals exact .inl ⟨_, rfl⟩

/-- A session is refused while there is one, and starts with its child. -/
theorem startSession_admits (h : Watched p s) {config : ShellConfig} {l : Launch}
    {out : TerminalSession × Except TerminalError Unit × List ChildCall}
    (hout : s.startSession config l = some out) :
    ∃ q, Admits next p out.2.2 q ∧ Watched q out.1 := by
  have hsame : ∃ q, Admits next p [] q ∧ Watched q s := ⟨p, .nil p, h⟩
  unfold startSession at hout
  split at hout
  · cases hout
    exact hsame
  next hpty =>
    cases hopened : l.opened with
    | error e =>
      rw [hopened] at hout
      cases hout
      exact hsame
    | ok slavePath =>
      rw [hopened] at hout
      dsimp only at hout
      obtain ⟨e, hspawn⟩ | ⟨pid, hspawn⟩ := spawn_eq (.open slavePath) config l.around l.fork
      · rw [hspawn] at hout
        cases hout
        exact hsame
      · rw [hspawn] at hout
        obtain ⟨⟨t, result⟩, hstart, hout⟩ := Option.bind_eq_some_iff.mp hout
        cases hout
        obtain ⟨out', hstart', hvalid, hsession⟩ :=
          Terminal.startSession_session h.valid (Bool.eq_false_iff.mpr hpty)
        obtain rfl := Option.some_inj.mp (hstart'.symm.trans hstart)
        have hreleased : p.released = true := by
          have hphase := h.phase
          have hchild : s.child = none := by
            rw [← Option.not_isSome_iff_eq_none, ← h.session]
            exact hpty
          rwa [hchild] at hphase
        exact ⟨_, .cons (ChildPhase.next_forked hreleased pid) (.nil _),
          ⟨hvalid, hsession, rfl, rfl⟩⟩

theorem renewed_valid {t : Terminal} (h : t.Valid) {grid : Grid}
    (hgrid : Grid.new t.grid.cols t.grid.rowCount = .ok grid) : (renewed t grid).Valid := by
  obtain ⟨c, r, c₀, r₀, hs⟩ := h.sizes
  obtain ⟨g, hnew, hg⟩ := Grid.new_sized hs.grid.bounds
  rw [← hs.grid.cols_eq, ← hs.grid.rowCount_eq, hgrid] at hnew
  cases hnew
  exact ⟨⟨c, r, c, r, hg, by simp [renewed, Terminal.resetSgr], rfl⟩, h.capacity⟩

theorem restart_admits (h : Watched p s) {e : Ending} {l : Launch}
    {out : TerminalSession × Except TerminalError Unit × List ChildCall}
    (hout : s.restart e l = some out) : ∃ q, Admits next p out.2.2 q ∧ Watched q out.1 := by
  obtain ⟨q, hshutdown, hq, hs⟩ := shutdown_admits h e
  unfold restart at hout
  generalize s.shutdown e = ended at hshutdown hs hout
  obtain ⟨s', calls⟩ := ended
  dsimp only at hshutdown hs hout
  split at hout
  · cases hout
    exact ⟨q, hshutdown, hs⟩
  next grid hgrid =>
    obtain ⟨⟨s'', result, more⟩, hstart, hout⟩ := Option.bind_eq_some_iff.mp hout
    cases hout
    have hrenewed : Watched q { s' with terminal := renewed s'.terminal grid } :=
      ⟨renewed_valid hs.valid hgrid, hs.session, hs.exited, hs.phase⟩
    obtain ⟨r, hr, hend⟩ := startSession_admits hrenewed hstart
    exact ⟨r, hshutdown.append hr, hend⟩

theorem reap_terminal (s : TerminalSession) (answer : WaitAnswer) :
    (s.reap answer).1.terminal = s.terminal := by
  unfold reap
  split
  · rfl
  · split
    · rfl
    · split <;> rfl

/-- The host is told of the end of a child when it becomes known, and not again. -/
theorem reap_admits (h : Watched p s) (answer : WaitAnswer) :
    ∃ q, Admits next p (s.reap answer).2.2 q ∧ Watched q (s.reap answer).1 := by
  have hphase := h.phase
  unfold reap
  split at hphase
  next hchild => exact ⟨p, .nil p, h⟩
  next c hchild =>
    subst hphase
    have hexited : s.childExited = c.exit := by rw [h.exited, hchild]; rfl
    cases hexit : c.exit with
    | some exit =>
      have hpoll := ChildHandle.pollReap_of_ended hexit answer
      simp only [hpoll, hexited, hexit, Option.isNone_some, Bool.false_eq_true, if_false]
      have hsession : s.terminal.pty.isSome = (some c).isSome := h.session.trans (by rw [hchild])
      exact ⟨_, .nil _, h.valid, hsession, hexit.symm, rfl⟩
    | none =>
      obtain ⟨-, hpoll⟩ := ChildHandle.pollReap_admits false false true hexit answer
      have hknown := ChildHandle.pollReap_exit c answer
      generalize c.pollReap answer = out at hpoll hknown ⊢
      obtain ⟨c', exit, calls⟩ := out
      obtain rfl : exit = c'.exit := hknown
      dsimp only at hpoll ⊢
      have hsession : s.terminal.pty.isSome = (some c').isSome := h.session.trans (by simp [hchild])
      cases hexit' : c'.exit with
      | none =>
        refine ⟨c'.phase false false true, ?_, h.valid, hsession, ?_, rfl⟩
        · rw [ChildHandle.phase_of_alive hexit'] at hpoll ⊢
          exact hpoll
        · exact (hexited.trans hexit).trans hexit'.symm
      | some exit =>
        rw [hexited, hexit]
        refine ⟨c'.phase false false true, ?_, h.valid, hsession, hexit'.symm, rfl⟩
        simp only [ChildHandle.phase, hexit'] at hpoll ⊢
        exact hpoll.append (.cons (by simp) (.nil _))

theorem poll_admits (h : Watched p s) {answers : List WriteAnswer} {reads : List ReadAnswer}
    {answer : WaitAnswer}
    {out : TerminalSession × List UInt8 × List SessionEvent × List ChildCall}
    (hout : s.poll tables answers reads answer = some out) :
    ∃ q, Admits next p out.2.2.2 q ∧ Watched q out.1 := by
  unfold poll at hout
  generalize Terminal.readBudget = budget at hout
  split at hout
  · cases hout
    exact ⟨p, .nil p, h⟩
  · have hflush : (s.terminal.flush answers).1.Valid :=
      h.valid.of_same (Terminal.flush_same answers)
    have hpending := Terminal.flush_session (t := s.terminal) answers
    generalize s.terminal.flush answers = flushed at hout hflush hpending
    obtain ⟨⟨t, events⟩, hread, hout⟩ := Option.bind_eq_some_iff.mp hout
    obtain ⟨hvalid, hpty⟩ := Terminal.readLoop_session hflush hread
    have hread : Watched p { s with terminal := t } :=
      ⟨hvalid, by rw [hpty, hpending, h.session], h.exited, h.phase⟩
    obtain ⟨q, hq, hs⟩ := reap_admits hread answer
    rw [← Option.some.inj hout]
    have hsession := hs.session
    rw [reap_terminal] at hsession
    exact ⟨q, hq, hvalid.of_same ⟨rfl, rfl, rfl, rfl⟩, hsession, hs.exited, hs.phase⟩

theorem step_admits (h : Watched p s) {op : SessionOp} {out : TerminalSession × List ChildCall}
    (hout : s.step tables op = some out) : ∃ q, Admits next p out.2 q ∧ Watched q out.1 := by
  cases op with
  | startSession config l =>
    obtain ⟨out, hstart, rfl⟩ := Option.map_eq_some_iff.mp hout
    exact startSession_admits h hstart
  | restart e l =>
    obtain ⟨out, hrestart, rfl⟩ := Option.map_eq_some_iff.mp hout
    exact restart_admits h hrestart
  | shutdown e =>
    cases hout
    obtain ⟨q, hq, -, hs⟩ := shutdown_admits h e
    exact ⟨q, hq, hs⟩
  | poll answers reads answer =>
    obtain ⟨out, hpoll, rfl⟩ := Option.map_eq_some_iff.mp hout
    exact poll_admits h hpoll
  | call op keeps =>
    obtain ⟨out, hcall, rfl⟩ := Option.map_eq_some_iff.mp hout
    obtain ⟨out', hcall', hvalid, hsession⟩ :=
      (Terminal.perform_valid h.valid tables op).and (Terminal.perform_session h.valid keeps)
    obtain rfl := Option.some_inj.mp (hcall'.symm.trans hcall)
    exact ⟨p, .nil p, hvalid, hsession.trans h.session, h.exited, h.phase⟩

/-- When the terminal goes away, its last child has ended or was killed. -/
theorem drop_admits (h : Watched p s) (hangup kill : ChildHandle.Grace) :
    ∃ q, Admits next p (s.drop hangup kill) q ∧ q.released = true := by
  have hphase := h.phase
  unfold drop
  cases hchild : s.child with
  | none =>
    rw [hchild] at hphase
    exact ⟨p, .nil p, hphase⟩
  | some c =>
    rw [hchild] at hphase
    rw [hphase]
    exact c.drop_admits false false true hangup kill

/-- What is asked about the children of a terminal is a log that may be, whatever the host does,
and the session knows how far its last child has come. -/
theorem watched_of_logged {config : TerminalConfig} {metrics : CellMetrics} {t : Terminal}
    (hnew : Terminal.new config metrics = .ok t) {shell : ShellConfig} {ops : List SessionOp}
    {out : TerminalSession × List ChildCall}
    (hrun : logged (step tables) ops (start t shell) = some out) :
    ∃ p, Admits next .vacant out.2 p ∧ Watched p out.1 := by
  obtain ⟨hvalid, -, hhost, -⟩ := Terminal.new_spec hnew
  have hpty : t.pty = none := congrArg Host.pty hhost
  exact admits_of_logged Watched (fun _ _ _ _ h hstep => step_admits h hstep)
    (watched_of_released hvalid hpty rfl shell) hrun

/-- With a pseudo-terminal, the session knows of the end that the host was told of. -/
theorem Watched.exited_eq {log : List ChildCall} (h : Watched p s)
    (hlog : Admits next .vacant log p) (hpty : s.terminal.pty.isSome = true) :
    s.childExited = endTold log := by
  obtain ⟨c, hchild⟩ := Option.isSome_iff_exists.mp (h.session ▸ hpty)
  have hphase := h.phase
  rw [hchild] at hphase
  rw [h.exited, hchild, Option.bind_some, ← ChildPhase.toldEnd_of_admits hlog, hphase,
    ChildHandle.phase]
  cases c.exit <;> rfl

/-- A shell that does not hang up is killed when the session is restarted, and the next one ends by
itself. -/
def stubbornShell : List SessionOp :=
  let launch (pid : ℕ) : Launch :=
    ⟨⟨none, none, none, fun _ => false⟩, .ok "/dev/pts/3".toList, .ok pid⟩
  let stays : ChildHandle.Grace := ⟨.stillAlive, [.stillAlive]⟩
  let ending : Ending := ⟨stays, ⟨.stillAlive, [.signaled "SIGKILL"]⟩, stays, stays⟩
  [.startSession ⟨none, none⟩ (launch 100), .poll [] [.bytes [0x24, 0x20]] .stillAlive,
    .restart ending (launch 101), .call (.sendInput [0x65]) rfl, .poll [.accepted 1] [] (.exited 7),
    .shutdown ending]

/-- What is asked then, and what the host is told. -/
def stubbornLog : List ChildCall :=
  [.forked 100, .waited 100 .stillAlive, .hungUp 100, .waited 100 .stillAlive,
    .waited 100 .stillAlive, .killed 100, .waited 100 .stillAlive,
    .waited 100 (.signaled "SIGKILL"), .forked 101, .waited 101 (.exited 7), .told (.exited 7),
    .hungUp 101]

theorem stubbornShell_runs : ∃ t s, Terminal.new .default Terminal.fontCells = .ok t ∧
    logged (step Terminal.asciiTables) stubbornShell (start t ⟨none, none⟩) =
      some (s, stubbornLog) := by
  have hrun : ((Terminal.new .default Terminal.fontCells).toOption.bind fun t =>
      logged (step Terminal.asciiTables) stubbornShell (start t ⟨none, none⟩)).map Prod.snd =
        some stubbornLog := by decide
  obtain ⟨⟨s, log⟩, hbind, rfl⟩ := Option.map_eq_some_iff.mp hrun
  obtain ⟨t, ht, hlogged⟩ := Option.bind_eq_some_iff.mp hbind
  obtain ⟨t', ht'⟩ : ∃ t, Terminal.new .default Terminal.fontCells = .ok t := ⟨_, rfl⟩
  rw [ht'] at ht
  cases ht
  exact ⟨t, s, ht', hlogged⟩

/-- Between two forks the first child was seen to end or was killed, and from when it was seen to
end nobody waits for a child or kills one before the next fork. -/
theorem fates_of_run {config : TerminalConfig} {metrics : CellMetrics} {t : Terminal}
    (hnew : Terminal.new config metrics = .ok t) {shell : ShellConfig} {ops : List SessionOp}
    {log : List ChildCall} (hrun : logged (step tables) ops (start t shell) = some (s, log)) :
    (∀ pre a mid b post, log = pre ++ .forked a :: (mid ++ .forked b :: post) →
      (∀ pid, .forked pid ∉ mid) →
      (∃ answer, .waited a answer ∈ mid ∧ answer.exit.isSome) ∨ .killed a ∈ mid) ∧
    ∀ pre a answer mid post, log = pre ++ .waited a answer :: (mid ++ post) →
      answer.exit.isSome → (∀ pid, .forked pid ∉ mid) →
      ∀ pid, .killed pid ∉ mid ∧ ∀ answer', .waited pid answer' ∉ mid := by
  obtain ⟨p, hlog, -⟩ := watched_of_logged hnew hrun
  constructor
  · rintro pre a mid b post rfl hmid
    obtain ⟨q, -, hrest⟩ := admits_append_iff.mp hlog
    obtain ⟨r, hr, hrest⟩ := admits_cons_iff.mp hrest
    simp only [next, Option.ite_none_right_eq_some, Option.some.injEq] at hr
    rw [← hr.2] at hrest
    exact ChildPhase.settled_of_admits hrest hmid
  · rintro pre a answer mid post rfl hended hmid
    obtain ⟨q, -, hrest⟩ := admits_append_iff.mp hlog
    obtain ⟨r, hr, hrest⟩ := admits_cons_iff.mp hrest
    obtain ⟨u, hquiet, -⟩ := admits_append_iff.mp hrest
    obtain ⟨exit, hexit⟩ := Option.isSome_iff_exists.mp hended
    cases q with
    | vacant | ended => cases hr
    | alive pid hungUp killed =>
      simp only [next, Option.ite_none_right_eq_some, Option.some.injEq, hexit] at hr
      rw [← hr.2] at hquiet
      exact ChildPhase.quiet_of_admits hquiet hmid

theorem fates_of_run_stubbornShell :
    (∀ pre a mid b post, stubbornLog = pre ++ .forked a :: (mid ++ .forked b :: post) →
      (∀ pid, .forked pid ∉ mid) →
      (∃ answer, .waited a answer ∈ mid ∧ answer.exit.isSome) ∨ .killed a ∈ mid) ∧
    ∀ pre a answer mid post, stubbornLog = pre ++ .waited a answer :: (mid ++ post) →
      answer.exit.isSome → (∀ pid, .forked pid ∉ mid) →
      ∀ pid, .killed pid ∉ mid ∧ ∀ answer', .waited pid answer' ∉ mid := by
  obtain ⟨t, s, hnew, hrun⟩ := stubbornShell_runs
  exact fates_of_run hnew hrun

end TerminalSession

end Ferrokey.Terminal
