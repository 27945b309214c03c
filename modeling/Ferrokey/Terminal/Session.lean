import Ferrokey.Terminal.Engine
import Ferrokey.Terminal.Sink

/-! # The session and its input

A terminal runs at most one session. Input and answers wait in three queues until the
event loop writes them to the program, one queue after the other. What the system does
not take at once waits in the first of them.
-/

set_option linter.dupNamespace false

namespace Ferrokey.Terminal

open Protocol

/-- How many bytes may wait in a queue. -/
def maxPending : ℕ := 1048576

/-- The buffer of the key sink, which a terminal shares. -/
structure PtySink where
  write : List UInt8
  deriving DecidableEq

def PtySink.send (s : PtySink) (encoded : List UInt8) : PtySink × Except TerminalSinkError Unit :=
  if maxPending < s.write.length + encoded.length then
    (s, .error (.io "pending terminal input buffer full"))
  else (⟨s.write ++ encoded⟩, .ok ())

inductive PasteOutcome where
  | accepted
  | needsConfirmation (lines : ℕ)
  deriving DecidableEq, Repr

/-- What the system answers when it is given bytes to write. -/
inductive WriteAnswer where
  | accepted (n : ℕ)
  | wouldBlock
  | failed
  deriving DecidableEq, Repr

inductive ReadAnswer where
  | bytes (chunk : List UInt8)
  | ended

inductive TerminalEvent where
  | output
  | bell
  deriving DecidableEq, Repr

def pasteStart : List UInt8 := 0x1B :: asBytes "[200~"

def pasteEnd : List UInt8 := 0x1B :: asBytes "[201~"

/-- How many lines a text has; a last one that is empty does not count. -/
def countLines (text : List Char) : ℕ :=
  text.count '\n' + if text.getLast?.any (· != '\n') then 1 else 0

/-- Write until everything is written, or the system blocks or fails. What was accepted is
returned, what is to be kept, and the answers that are left; a system without further
answers blocks. -/
def writeLoop {α : Type} : List WriteAnswer → List α → List α × List α × List WriteAnswer
  | answers, [] => ([], [], answers)
  | [], bytes => ([], bytes, [])
  | .accepted 0 :: answers, _ => ([], [], answers)
  | .accepted (n + 1) :: answers, bytes =>
    let (out, kept, answers) := writeLoop answers (bytes.drop (n + 1))
    (bytes.take (n + 1) ++ out, kept, answers)
  | .wouldBlock :: answers, bytes => ([], bytes, answers)
  | .failed :: answers, _ => ([], [], answers)

namespace Terminal

variable (t : Terminal)

/-! ### The session -/

def sizeInCells : Winsize := ⟨t.grid.cols, t.grid.rowCount⟩

def clearScreen : Option Terminal :=
  match Grid.new t.grid.cols t.grid.rowCount with
  | .ok grid =>
    some { resetSgr { t with grid, altGrid := false, saved := none } with paneDirtyAll := true }
  | .error _ => none

/-- Start a session, unless one is running. The answer is what opening the pseudo-terminal and
starting the shell come to. -/
def startSession (answer : Except TerminalError Unit) :
    Option (Terminal × Except TerminalError Unit) :=
  if t.pty.isSome then
    some (t, .error (.invalidState "a terminal session is already running"))
  else
    match answer with
    | .error e => some (t, .error e)
    | .ok () => do
      let t ← clearScreen { t with pty := some t.sizeInCells }
      some (t, .ok ())

def shutdown : Terminal := { t with pty := none }

/-- Drop the session and the screens, and start a new session. -/
def restart (answer : Except TerminalError Unit) : Option (Terminal × Except TerminalError Unit) :=
  let t := t.shutdown
  match Grid.new t.grid.cols t.grid.rowCount with
  | .error e => some (t, .error (.invalidState e.display))
  | .ok grid =>
    startSession
      (resetSgr { t with
        grid
        altGrid := false
        saved := none
        scrollback := t.scrollback.clear
        viewport := .default
        selection := none })
      answer

/-! ### Input -/

/-- Queue input; without a session it is dropped. -/
def sendInput (bytes : List UInt8) : Terminal × Except TerminalError Unit :=
  if t.pty.isNone then (t, .ok ())
  else if maxPending < t.writeBuf.length + bytes.length then
    (t, .error (.paste "pending input buffer full"))
  else ({ t with writeBuf := t.writeBuf ++ bytes }, .ok ())

/-- Share a buffer with the key sink. -/
def setInputSource (buffer : List UInt8) : Terminal := { t with inputSource := some buffer }

/-- The key sink writes to the buffer that the terminal shares. -/
def keyInput (encoded : List UInt8) : Terminal × Except TerminalSinkError Unit :=
  match t.inputSource with
  | none => (t, .ok ())
  | some write =>
    let (sink, result) := PtySink.send ⟨write⟩ encoded
    ({ t with inputSource := some sink.write }, result)

/-! ### Pasting -/

/-- The bytes a paste produces. -/
def encodePaste (text : String) : List UInt8 :=
  if t.modes.bracketedPaste then pasteStart ++ asBytes text ++ pasteEnd else asBytes text

def pasteInner (text : String) : Terminal := (t.sendInput (t.encodePaste text)).1

def paste (text : String) : Terminal × Except TerminalError PasteOutcome :=
  let size := (asBytes text).length
  if text.toList.isEmpty then (t, .ok .accepted)
  else if t.config.maxPasteBytes < size then
    (t, .error (.paste
      s!"paste of {size} bytes exceeds the {t.config.maxPasteBytes} byte limit"))
  else if text.toList.contains '\n' && t.config.confirmMultilinePaste then
    ({ t with pendingPaste := some text }, .ok (.needsConfirmation (countLines text.toList)))
  else (t.pasteInner text, .ok .accepted)

def confirmPaste : Terminal × Except TerminalError Unit :=
  match t.pendingPaste with
  | none => (t, .ok ())
  | some text =>
    let t := { t with pendingPaste := none }
    if t.config.maxPasteBytes < (asBytes text).length then
      (t, .error (.paste "paste too large"))
    else (t.pasteInner text, .ok ())

def cancelPaste : Terminal := { t with pendingPaste := none }

/-- A tap on the paste control, with the text the clipboard answers, if it does. -/
def tapPaste (clipboard : Option String) : Terminal :=
  match clipboard with
  | none => t
  | some text =>
    if text.toList.contains '\n' && t.config.confirmMultilinePaste then t else t.pasteInner text

/-! ### The event loop -/

/-- Write bytes to the program; what is to be kept waits in the first queue. -/
def writeAll (bytes : List UInt8) (answers : List WriteAnswer) :
    Terminal × List UInt8 × List WriteAnswer :=
  match t.pty with
  | none => (t, [], answers)
  | some _ =>
    let (out, kept, answers) := writeLoop answers bytes
    ({ t with writeBuf := t.writeBuf ++ kept }, out, answers)

def flushPending (answers : List WriteAnswer) : Terminal × List UInt8 × List WriteAnswer :=
  writeAll { t with writeBuf := [] } t.writeBuf answers

def flushKeys (answers : List WriteAnswer) : Terminal × List UInt8 × List WriteAnswer :=
  writeAll { t with inputSource := t.inputSource.map fun _ => [] } (t.inputSource.getD []) answers

def flushResponse (answers : List WriteAnswer) : Terminal × List UInt8 × List WriteAnswer :=
  writeAll { t with response := [] } t.response answers

/-- Write the queues, one after the other. What the program was given is returned. -/
def flush (answers : List WriteAnswer) : Terminal × List UInt8 :=
  let (t, pending, answers) := t.flushPending answers
  let (t, keys, answers) := t.flushKeys answers
  let (t, response, _) := t.flushResponse answers
  (t, pending ++ keys ++ response)

/-- Read and feed what is available, while the budget of bytes lasts. -/
def readLoop (tables : UnicodeTables) :
    ℕ → List ReadAnswer → Terminal → Option (Terminal × List TerminalEvent)
  | 0, _, t | _, [], t | _, .ended :: _, t | _, .bytes [] :: _, t => some (t, [])
  | budget + 1, .bytes chunk :: reads, t => do
    let budget ← Checked.sub (budget + 1) chunk.length
    let t ← t.feed tables chunk
    let (t, events) ← readLoop tables budget reads t
    some (t, .output :: events)

def readBudget : ℕ := 256 * 1024

/-- One round of the event loop, with what the system answers to writes and reads. What the
program was given is returned, and the events. -/
def poll (tables : UnicodeTables) (answers : List WriteAnswer) (reads : List ReadAnswer) :
    Option (Terminal × List UInt8 × List TerminalEvent) :=
  if t.pty.isNone then some (t, [], [])
  else do
    let (t, out) := t.flush answers
    let (t, events) ← readLoop tables readBudget reads t
    some ({ t with bell := false }, out, events ++ if t.bell then [.bell] else [])

end Terminal

/-! ### Calls of the host -/

/-- What the host can ask of a terminal. -/
inductive TerminalOp where
  | feed (bytes : List UInt8)
  | resize (width height : ℕ) (ptyAnswer : Except String Unit)
  | scrollUp (n : ℕ)
  | scrollDown (n : ℕ)
  | returnToNewest
  | selectionStart (pos : CellPos) (mode : SelectionMode)
  | selectionExtend (pos : CellPos)
  | selectionClear
  | startSession (answer : Except TerminalError Unit)
  | restart (answer : Except TerminalError Unit)
  | shutdown
  | sendInput (bytes : List UInt8)
  | keyInput (encoded : List UInt8)
  | paste (text : String)
  | confirmPaste
  | cancelPaste
  | tapPaste (clipboard : Option String)
  | flush (answers : List WriteAnswer)

inductive Reply where
  | done
  | result (r : Except TerminalError Unit)
  | pasted (r : Except TerminalError PasteOutcome)
  | sent (r : Except TerminalSinkError Unit)
  | written (bytes : List UInt8)

def Terminal.perform (t : Terminal) (tables : UnicodeTables) :
    TerminalOp → Option (Terminal × Reply)
  | .feed bytes => (t.feed tables bytes).map (·, .done)
  | .resize width height ptyAnswer =>
    (t.resize width height ptyAnswer).map fun out => (out.1, .result out.2)
  | .scrollUp n => some (t.scrollUp n, .done)
  | .scrollDown n => some (t.scrollDown n, .done)
  | .returnToNewest => some (t.returnToNewest, .done)
  | .selectionStart pos mode => (t.selectionStart tables pos mode).map (·, .done)
  | .selectionExtend pos => (t.selectionExtend tables pos).map (·, .done)
  | .selectionClear => some (t.selectionClear, .done)
  | .startSession answer => (t.startSession answer).map fun out => (out.1, .result out.2)
  | .restart answer => (t.restart answer).map fun out => (out.1, .result out.2)
  | .shutdown => some (t.shutdown, .done)
  | .sendInput bytes => some ((t.sendInput bytes).1, .result (t.sendInput bytes).2)
  | .keyInput encoded => some ((t.keyInput encoded).1, .sent (t.keyInput encoded).2)
  | .paste text => some ((t.paste text).1, .pasted (t.paste text).2)
  | .confirmPaste => some (t.confirmPaste.1, .result t.confirmPaste.2)
  | .cancelPaste => some (t.cancelPaste, .done)
  | .tapPaste clipboard => some (t.tapPaste clipboard, .done)
  | .flush answers => some ((t.flush answers).1, .written (t.flush answers).2)

end Ferrokey.Terminal
