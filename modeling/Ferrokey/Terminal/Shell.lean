import Ferrokey.Collections.Numeral
import Ferrokey.Collections.Traversal
import Ferrokey.Core.Effect
import Mathlib.Algebra.Group.Nat.Defs

/-! # Which shell runs in the terminal

The shell that is in control is looked for in the tree of processes below the terminal's child.
The walk over the tree is bounded by a number of processes, and later shells replace earlier ones.
On the tree that the process files show, the shell that is found is the first one after its
children, from the left to the right, among the processes that the walk comes to.
-/

namespace Ferrokey.Terminal

open Text Collections

inductive ShellKind where
  | bash | zsh | fish | nushell | unknown
deriving DecidableEq

/-- The last component of a path, unless it is none or leads upwards. -/
def fileName (path : List Char) : Option (List Char) :=
  match ((pieces '/' path).filter (· ≠ ['.'])).getLast? with
  | some ['.', '.'] => none
  | last => last

/-- The shell of a program: its name decides, and a version behind it does not matter. -/
def ShellKind.fromProgram (path : List Char) : ShellKind :=
  let base := ((fileName path).getD path).dropWhile fun c => !c.isAlpha
  if "bash".toList.isPrefixOf base then .bash
  else if "zsh".toList.isPrefixOf base then .zsh
  else if "fish".toList.isPrefixOf base then .fish
  else if "nu".toList.isPrefixOf base then .nushell
  else .unknown

def ShellKind.rowId : ShellKind → String
  | .bash => "bash"
  | .zsh => "zsh"
  | .fish => "fish"
  | .nushell => "nushell"
  | .unknown => "generic"

/-- How the shell became known. -/
inductive ShellIdentitySource where
  | spawnedChild | processInspection | terminalEvidence | unknown
deriving DecidableEq

structure ShellContext where
  kind : ShellKind
  source : ShellIdentitySource
  tmux : Bool
  ssh : Bool
deriving DecidableEq

namespace ShellContext

def fromSpawnedShell (shell : List Char) : ShellContext :=
  ⟨.fromProgram shell, .spawnedChild, false, false⟩

/-- The row of keys to show: a remote shell is unknowable, and tmux is in front of any shell. -/
def rowId (c : ShellContext) : String :=
  if c.ssh then "ssh" else if c.tmux then "tmux" else c.kind.rowId

end ShellContext

/-- A key of a shell row: its label, and the press-groups that it plays. -/
structure ShellRowKey where
  label : String
  sequence : List (List PhysicalKey)

/-- A key that presses another one together with the left control key. -/
def ctrl (label : String) (key : PhysicalKey) : ShellRowKey := ⟨label, [[.leftCtrl, key]]⟩

/-- A key that plays one key behind the prefix of tmux. -/
def behindPrefix (label : String) (group : List PhysicalKey) : ShellRowKey :=
  ⟨label, [[.leftCtrl, .b], group]⟩

def genericRow : List ShellRowKey :=
  [ctrl "Ctrl+C" .c, ctrl "Ctrl+D" .d, ctrl "Ctrl+Z" .z, ctrl "Ctrl+L" .l, ctrl "Ctrl+A" .a,
    ⟨"Esc", [[.escape]]⟩, ⟨"Home", [[.home]]⟩, ⟨"End", [[.end]]⟩]

def editCommand : ShellRowKey := ⟨"Ctrl+X Ctrl+E", [[.leftCtrl, .x], [.leftCtrl, .e]]⟩

def bashRow : List ShellRowKey :=
  [ctrl "Ctrl+R" .r, ctrl "Ctrl+K" .k, ctrl "Ctrl+Y" .y, ctrl "Ctrl+U" .u, ctrl "Ctrl+W" .w,
    ctrl "Ctrl+A" .a, ctrl "Ctrl+E" .e, editCommand]

def zshRow : List ShellRowKey :=
  [ctrl "Ctrl+R" .r, ctrl "Ctrl+A" .a, ctrl "Ctrl+E" .e, ctrl "Ctrl+U" .u, ctrl "Ctrl+K" .k,
    ctrl "Ctrl+W" .w, ctrl "Ctrl+Y" .y, editCommand]

def fishRow : List ShellRowKey :=
  [⟨"Tab", [[.tab]]⟩, ⟨"→ accept", [[.right]]⟩, ctrl "Ctrl+F" .f, ⟨"Up", [[.up]]⟩,
    ⟨"Down", [[.down]]⟩, ctrl "Ctrl+U" .u, ctrl "Ctrl+W" .w]

def nushellRow : List ShellRowKey :=
  [ctrl "Ctrl+R" .r, ctrl "Ctrl+A" .a, ctrl "Ctrl+E" .e, ctrl "Ctrl+U" .u, ⟨"Tab", [[.tab]]⟩,
    ⟨"Up", [[.up]]⟩, ⟨"Down", [[.down]]⟩]

def tmuxRow : List ShellRowKey :=
  [behindPrefix "prefix d" [.d], behindPrefix "prefix c" [.c], behindPrefix "prefix n" [.n],
    behindPrefix "prefix %" [.leftShift, .d5], behindPrefix "prefix \"" [.leftShift, .apostrophe]]

def shellRow : String → List ShellRowKey
  | "bash" => bashRow
  | "zsh" => zshRow
  | "fish" => fishRow
  | "nushell" => nushellRow
  | "tmux" => tmuxRow
  | _ => genericRow

/-- The group is distinct modifiers and then one ordinary key. -/
def playable (group : List PhysicalKey) : Bool :=
  match group.reverse with
  | [] => false
  | key :: mods => key.isOrdinary && mods.all PhysicalKey.isModifier && decide mods.Nodup

/-- Every row consists of groups that can be played. -/
theorem shellRow_playable (id : String) :
    ∀ key ∈ shellRow id, ∀ group ∈ key.sequence, playable group = true := by
  unfold shellRow
  split <;> decide

/-- What the walk asks of the processes: their names and their children, as far as they can be
read. -/
structure ProcTreeReader where
  comm : ℤ → Option (List Char)
  children : ℤ → List ℤ

/-- What the walk has seen. -/
structure Seen where
  kind : ShellKind
  tmux : Bool
  ssh : Bool

def Seen.named (seen : Seen) (name : String) : Seen :=
  match name with
  | "bash" | "zsh" | "fish" | "nu" | "nushell" =>
    { seen with kind := .fromProgram name.toList }
  | "tmux" => { seen with tmux := true }
  | "ssh" => { seen with ssh := true }
  | _ => seen

def Seen.note (seen : Seen) : Option (List Char) → Seen
  | none => seen
  | some comm => seen.named (String.ofList (trim comm))

/-- The walk, which pops a process from the stack and appends its children; the stack has its top
first. -/
def inspectLoop (reader : ProcTreeReader) : ℕ → List ℤ → Seen → Seen
  | 0, _, seen => seen
  | _, [], seen => seen
  | n + 1, p :: stack, seen =>
    inspectLoop reader n ((reader.children p).reverse ++ stack) (seen.note (reader.comm p))

/-- The walk looks at no more processes than these. -/
def maxProcesses : ℕ := 8 * 8

def ShellContext.inspectWith (pid : ℤ) (reader : ProcTreeReader) : ShellContext :=
  let seen := inspectLoop reader maxProcesses [pid] ⟨.unknown, false, false⟩
  ⟨seen.kind, if seen.kind = .unknown then .unknown else .processInspection, seen.tmux, seen.ssh⟩

/-- The process files: the texts of the status and of the children of a process. -/
structure ProcFiles where
  stat : ℤ → Option (List Char)
  children : ℤ → Option (List Char)

/-- The name of a process stands in parentheses, and may have parentheses of its own. -/
def commOf (stat : List Char) : Option (List Char) :=
  match stat.idxOf? '(', stat.reverse.idxOf? ')' with
  | some start, some back =>
    let close := stat.length - 1 - back
    if close ≤ start then none else some ((stat.take close).drop (start + 1))
  | _, _ => none

def pidsOf (children : List Char) : List ℤ :=
  (splitWhitespace children).filterMap (parseSigned 10 (2 ^ 31))

def ProcFiles.reader (files : ProcFiles) : ProcTreeReader where
  comm pid := (files.stat pid).bind commOf
  children pid := ((files.children pid).map pidsOf).getD []

def ShellContext.inspect (pid : ℤ) (files : ProcFiles) : ShellContext :=
  inspectWith pid files.reader

section Walk

variable {reader : ProcTreeReader} {seen : Seen}

theorem inspectLoop_eq (n : ℕ) (stack : List ℤ) (seen : Seen) : inspectLoop reader n stack seen =
    ((walk reader.children n stack).map reader.comm).foldl Seen.note seen := by
  induction n generalizing stack seen with
  | zero => rfl
  | succ n ih =>
    cases stack with
    | nil => rfl
    | cons p stack => exact ih _ _

/-- The shell that the name of a process tells. -/
def shellNamed : String → Option ShellKind
  | "bash" => some .bash
  | "zsh" => some .zsh
  | "fish" => some .fish
  | "nu" | "nushell" => some .nushell
  | _ => none

theorem named_eq (seen : Seen) (name : String) : seen.named name =
    ⟨(shellNamed name).getD seen.kind, decide (name = "tmux") || seen.tmux,
      decide (name = "ssh") || seen.ssh⟩ := by
  unfold Seen.named shellNamed
  split
  all_goals first | rfl | skip
  next hbash hzsh hfish hnu hnushell htmux hssh =>
    rw [decide_eq_false htmux, decide_eq_false hssh]
    split
    all_goals first | rfl | contradiction

/-- What some names make of what was seen: the last shell of them, and whether tmux or ssh is among
them. -/
theorem foldl_named (names : List String) (seen : Seen) : names.foldl Seen.named seen =
    ⟨(names.reverse.findSome? shellNamed).getD seen.kind, names.contains "tmux" || seen.tmux,
      names.contains "ssh" || seen.ssh⟩ := by
  induction names generalizing seen with
  | nil => rfl
  | cons name names ih =>
    have hkind : ((names.reverse ++ [name]).findSome? shellNamed).getD seen.kind =
        (names.reverse.findSome? shellNamed).getD ((shellNamed name).getD seen.kind) := by
      rw [List.findSome?_append]
      cases names.reverse.findSome? shellNamed with
      | none => simp
      | some kind => rfl
    have hcontains (x : String) (b : Bool) :
        (names.contains x || (decide (name = x) || b)) = ((name :: names).contains x || b) := by
      rw [List.contains_cons, Bool.or_comm (x == name), Bool.or_assoc, Bool.beq_comm]
      rfl
    rw [List.foldl_cons, ih, named_eq, List.reverse_cons, hkind, hcontains, hcontains]

end Walk

section Files

variable {name pre post : List Char}

theorem idxOf?_append_cons {a : Char} (h : a ∉ pre) (post : List Char) :
    (pre ++ a :: post).idxOf? a = some pre.length := by
  induction pre with
  | nil => simp [List.idxOf?_cons]
  | cons c pre ih =>
    rw [List.mem_cons, not_or] at h
    simp [List.idxOf?_cons, Ne.symm h.1, ih h.2]

/-- The name of a process is what stands between the parentheses, whatever it is. -/
theorem commOf_eq (hpre : '(' ∉ pre) (hpost : ')' ∉ post) :
    commOf (pre ++ '(' :: (name ++ ')' :: post)) = some name := by
  have hback : (pre ++ '(' :: (name ++ ')' :: post)).reverse.idxOf? ')' = some post.length := by
    have hr : (pre ++ '(' :: (name ++ ')' :: post)).reverse =
        post.reverse ++ ')' :: (name.reverse ++ '(' :: pre.reverse) := by simp
    rw [hr, idxOf?_append_cons (by simpa using hpost), List.length_reverse]
  have hclose : (pre ++ '(' :: (name ++ ')' :: post)).length - 1 - post.length =
      (pre ++ '(' :: name).length := by
    simp
    omega
  have hsplit : pre ++ '(' :: (name ++ ')' :: post) = (pre ++ '(' :: name) ++ ')' :: post := by simp
  rw [commOf, idxOf?_append_cons hpre, hback]
  dsimp only
  rw [hclose, if_neg (by simp), hsplit, List.take_left]
  simp

/-- The text of the children of a process. -/
def childrenText (pids : List ℕ) : List Char := pids.flatMap fun pid => Nat.toDigits 10 pid ++ [' ']

theorem pidsOf_childrenText {pids : List ℕ} (h : ∀ pid ∈ pids, pid < 2 ^ 31) :
    pidsOf (childrenText pids) = pids.map (Nat.cast : ℕ → ℤ) := by
  induction pids with
  | nil => rfl
  | cons pid pids ih =>
    obtain ⟨hpid, hpids⟩ := List.forall_mem_cons.mp h
    have hwhite : ∀ c ∈ Nat.toDigits 10 pid, isWhitespace c = false :=
      fun c hc => isWhitespace_of_isDigit (Nat.isDigit_of_mem_toDigits (by decide) (by decide) hc)
    have hsplit : childrenText (pid :: pids) = Nat.toDigits 10 pid ++ ' ' :: childrenText pids := by
      simp [childrenText]
    rw [pidsOf, hsplit, splitWhitespace_append Nat.toDigits_ne_nil hwhite (by decide),
      List.filterMap_cons, parseSigned_toDigits (by decide) (by decide) hpid, List.map_cons]
    exact congrArg _ (ih hpids)

/-- The files show the processes of a tree, each with its name and its children. -/
inductive ProcFiles.Shows (files : ProcFiles) (name : ℕ → List Char) : Rose ℕ → Prop where
  | node {pid : ℕ} {kids : List (Rose ℕ)} {rest : List Char} : pid < 2 ^ 31 → ')' ∉ rest →
      files.stat pid = some (Nat.toDigits 10 pid ++ ' ' :: '(' :: (name pid ++ ')' :: rest)) →
      files.children pid = some (childrenText (kids.map Rose.root)) →
      (∀ t ∈ kids, Shows files name t) → Shows files name (.node pid kids)

variable {files : ProcFiles} {names : ℕ → List Char} {t : Rose ℕ}

theorem ProcFiles.Shows.root_lt (h : files.Shows names t) : t.root < 2 ^ 31 := by
  cases h with
  | node hpid => exact hpid

/-- What the walk asks of a process is answered as the tree has it. -/
theorem ProcFiles.Shows.shown (h : files.Shows names t) :
    t.Shown files.reader.children (Nat.cast : ℕ → ℤ) := by
  induction h with
  | @node pid kids rest _ _ _ hchildren hkids ih =>
    refine .node ?_ ih
    have hlt : ∀ pid ∈ kids.map Rose.root, pid < 2 ^ 31 := by
      intro pid hm
      obtain ⟨t, ht, rfl⟩ := List.mem_map.mp hm
      exact (hkids t ht).root_lt
    change ((files.children pid).map pidsOf).getD [] = _
    rw [hchildren, Option.map_some, Option.getD_some, pidsOf_childrenText hlt, List.map_map]
    rfl

theorem ProcFiles.Shows.comm (h : files.Shows names t) :
    ∀ pid ∈ t.postorder, files.reader.comm pid = some (names pid) := by
  induction h with
  | @node pid kids rest _ hrest hstat _ _ ih =>
    intro pid' hm
    rw [Rose.postorder, Rose.postorders_eq, List.mem_append, List.mem_flatMap,
      List.mem_singleton] at hm
    obtain ⟨t, ht, hm⟩ | rfl := hm
    · exact ih t ht pid' hm
    · have hpre : '(' ∉ Nat.toDigits 10 pid' ++ [' '] := by
        intro hc
        rcases List.mem_append.mp hc with hc | hc
        · have hd := Nat.isDigit_of_mem_toDigits (by decide) (by decide) hc
          exact absurd hd (by decide)
        · exact absurd hc (by decide)
      change (files.stat pid').bind commOf = _
      rw [hstat, Option.bind_some]
      simpa using commOf_eq hpre hrest

/-- The processes that the walk comes to, each after its children. -/
def reached (t : Rose ℕ) : List ℕ := t.postorder.rtake maxProcesses

/-- On the processes that the files show, the shell in control is the first one that is reached,
and tmux and ssh are seen wherever they are reached. -/
theorem inspect_eq (h : files.Shows names t) :
    let found := (reached t).map fun pid => String.ofList (trim (names pid))
    ShellContext.inspect t.root files =
      { kind := (found.findSome? shellNamed).getD .unknown
        source := if (found.findSome? shellNamed).getD .unknown = .unknown then .unknown
          else .processInspection
        tmux := found.contains "tmux"
        ssh := found.contains "ssh" } := by
  intro found
  have hreached : (reached t).reverse = t.postorder.reverse.take maxProcesses := by
    rw [reached, List.rtake_eq_reverse_take_reverse, List.reverse_reverse]
  have hwalk : walk files.reader.children maxProcesses [(t.root : ℤ)] =
      (reached t).reverse.map Nat.cast := by
    rw [hreached]
    have hroots : ∀ u ∈ [t], u.Shown files.reader.children Nat.cast := by simpa using h.shown
    simpa using walk_roots maxProcesses hroots
  have hnotes (pids : List ℕ) (hp : ∀ pid ∈ pids, pid ∈ t.postorder) (seen : Seen) :
      (pids.map fun pid : ℕ => files.reader.comm pid).foldl Seen.note seen =
        (pids.map fun pid => String.ofList (trim (names pid))).foldl Seen.named seen := by
    induction pids generalizing seen with
    | nil => rfl
    | cons pid pids ih =>
      obtain ⟨hpid, hpids⟩ := List.forall_mem_cons.mp hp
      rw [List.map_cons, List.map_cons, List.foldl_cons, List.foldl_cons, h.comm pid hpid]
      exact ih hpids _
  have hmem : ∀ pid ∈ (reached t).reverse, pid ∈ t.postorder := by
    intro pid hm
    rw [hreached] at hm
    exact List.mem_reverse.mp (List.mem_of_mem_take hm)
  have hseen : inspectLoop files.reader maxProcesses [(t.root : ℤ)] ⟨.unknown, false, false⟩ =
      ⟨(found.findSome? shellNamed).getD .unknown, found.contains "tmux",
        found.contains "ssh"⟩ := by
    rw [inspectLoop_eq, hwalk, List.map_map]
    refine (hnotes _ hmem _).trans ?_
    rw [foldl_named, List.map_reverse, List.reverse_reverse, List.contains_reverse,
      List.contains_reverse, Bool.or_false, Bool.or_false]
  rw [ShellContext.inspect, ShellContext.inspectWith, hseen]

/-- A terminal whose child is bash, in which a remote shell and an editor with a fish of its own
were started. -/
def bashOverFish : Rose ℕ := .node 100 [.node 101 [], .node 102 [.node 103 []]]

def nameOverFish : ℕ → List Char
  | 100 => "bash".toList
  | 101 => "ssh".toList
  | 102 => "(vim) x".toList
  | _ => "fish".toList

def filesOverFish : ProcFiles where
  stat pid := some (Nat.toDigits 10 pid.toNat ++ ' ' :: '(' ::
    (nameOverFish pid.toNat ++ ')' :: " S 1".toList))
  children
    | 100 => some "101 102 ".toList
    | 102 => some "103 ".toList
    | _ => some []

theorem inspect_bashOverFish :
    ShellContext.inspect 100 filesOverFish = ⟨.fish, .processInspection, false, true⟩ := by
  have hrest : ')' ∉ " S 1".toList := by decide
  have hleaf (pid : ℕ) (hpid : pid < 2 ^ 31) (hkids : filesOverFish.children pid = some []) :
      filesOverFish.Shows nameOverFish (.node pid []) :=
    .node hpid hrest rfl hkids fun _ h => absurd h List.not_mem_nil
  have hshows : filesOverFish.Shows nameOverFish bashOverFish := by
    refine .node (by decide) hrest rfl rfl fun t ht => ?_
    rcases List.mem_cons.mp ht with rfl | ht
    · exact hleaf 101 (by decide) rfl
    · obtain rfl := List.mem_singleton.mp ht
      refine .node (by decide) hrest rfl rfl fun t ht => ?_
      obtain rfl := List.mem_singleton.mp ht
      exact hleaf 103 (by decide) rfl
  exact (inspect_eq hshows).trans (by decide)

end Files

end Ferrokey.Terminal
