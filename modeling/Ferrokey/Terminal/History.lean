import Ferrokey.Terminal.Bounds

/-! # The history and the view into it

Lines that leave the screen go to a bounded ring of history lines, the newest last.
The viewport keeps how many lines above the newest output the user is looking, and
whether the view follows the output.
-/

namespace Ferrokey.Terminal

def minScrollback : ℕ := 100

def maxScrollback : ℕ := 100000

/-- A bounded ring of history lines. -/
structure Scrollback where
  lines : List Line
  maxLines : ℕ
  cols : ℕ
  deriving DecidableEq

inductive ScrollbackError where
  | badCapacity (requested min max : ℕ)
  deriving DecidableEq, Repr

def ScrollbackError.display : ScrollbackError → String
  | .badCapacity requested min max =>
    s!"scrollback capacity {requested} out of bounds (min {min}, max {max})"

namespace Scrollback

def new (maxLines cols : ℕ) : Except ScrollbackError Scrollback :=
  if ¬ (minScrollback ≤ maxLines ∧ maxLines ≤ maxScrollback) then
    .error (.badCapacity maxLines minScrollback maxScrollback)
  else if cols = 0 then .error (.badCapacity maxLines minScrollback maxScrollback)
  else .ok ⟨[], maxLines, cols⟩

variable (s : Scrollback)

def len : ℕ := s.lines.length

/-- Push a line, cut or padded to the width of the ring. Whether the oldest was evicted is
returned. -/
def push (line : Line) : Scrollback × Bool :=
  let evicted := s.lines.length == s.maxLines
  let lines := if evicted then s.lines.tail else s.lines
  ({ s with lines := lines ++ [normalise s.cols line] }, evicted)

def popNewest : Scrollback × Option Line :=
  ({ s with lines := s.lines.dropLast }, s.lines.getLast?)

theorem popNewest_of_nil {s : Scrollback} (h : s.lines = []) : s.popNewest = (s, none) := by
  cases s
  cases h
  rfl

theorem popNewest_of_last {s : Scrollback} {line : Line} (h : s.lines.getLast? = some line) :
    s.popNewest = (s.popNewest.1, some line) := by
  rw [← h]
  rfl

def popOldest : Scrollback × Option Line :=
  ({ s with lines := s.lines.tail }, s.lines.head?)

def fromTop (i : ℕ) : Option Line := s.lines[i]?

def fromBottom (i : ℕ) : Option Line :=
  if s.lines.length ≤ i then none else s.lines[s.lines.length - 1 - i]?

def clear : Scrollback := { s with lines := [] }

/-- Drop a prefix of the oldest lines, one at a time. -/
def drainOldest (n : ℕ) : Scrollback := (fun s => s.popOldest.1)^[min n s.lines.length] s

/-- Push lines, the oldest first. -/
def pushAll (lines : List Line) : Scrollback := lines.foldl (fun s line => (s.push line).1) s

end Scrollback

/-- How far above the newest output the view is. -/
structure Viewport where
  scrollOffset : ℕ
  followOutput : Bool
  maxOffset : ℕ
  deriving DecidableEq, Repr

/-- One more than the largest `usize`. -/
def usizeSize : ℕ := 18446744073709551616

namespace Viewport

def default : Viewport := ⟨0, true, 0⟩

variable (v : Viewport)

def updateBounds (scrollbackLen : ℕ) : Viewport :=
  let maxOffset := min scrollbackLen maxScrollback
  { v with maxOffset, scrollOffset := if v.followOutput then 0 else min v.scrollOffset maxOffset }

def scrollUp (n : ℕ) : Viewport :=
  if n = 0 then v
  else
    { v with
      followOutput := false
      scrollOffset := min ((v.scrollOffset + n) % usizeSize) v.maxOffset }

def scrollDown (n : ℕ) : Viewport :=
  if n = 0 then v
  else
    { v with
      scrollOffset := v.scrollOffset - n
      followOutput := v.followOutput || v.scrollOffset - n == 0 }

def returnToNewest : Viewport := { v with scrollOffset := 0, followOutput := true }

end Viewport

end Ferrokey.Terminal
