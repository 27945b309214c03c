import Ferrokey.Core.Layout

/-! # Composing characters

The text path composes dead keys and compose sequences itself. The engine has at most one
pending sequence. A symbol is not compose input, or it starts or extends a sequence, or it ends
one: then characters come out, and the symbol may have to be fed again.
-/

namespace Ferrokey.Layouts

/-- What comes of feeding one symbol into the engine. A reset emits `standalone` first and then
feeds `reprocess` again. -/
inductive FeedOutcome where
  | pass
  | consumed
  | emit (chars : List Char)
  | reset (standalone : List Char) (reprocess : Option KeySymbol)
  | cancelled
  deriving DecidableEq, Repr

inductive Pending where
  | dead (d : DeadKey)
  | compose
  | composeChar (c : Char)
  deriving DecidableEq, Repr

structure ComposeEngine where
  pending : Option Pending
  deriving DecidableEq, Repr

/-! ### The tables -/

/-- The spacing form of a dead accent. -/
def standaloneAccent : DeadKey → Char
  | .grave => '`'
  | .acute => '\''
  | .circumflex => '^'
  | .tilde => '~'
  | .diaeresis => '"'
  | .cedilla => Char.ofNat 0xB8
  | .ring => Char.ofNat 0x2DA
  | .caron => Char.ofNat 0x2C7
  | .breve => Char.ofNat 0x2D8
  | .doubleAcute => Char.ofNat 0x2DD
  | .ogonek => Char.ofNat 0x2DB
  | .macron => Char.ofNat 0xAF
  | .horn => Char.ofNat 0x31B
  | .hookAbove => Char.ofNat 0x309
  | .abovedot => Char.ofNat 0x2D9
  | .belowdot => Char.ofNat 0x323
  | .stroke => '/'

/-- The base characters of an accent and what they compose to, place by place. -/
def deadRows : List (DeadKey × List Char × List Char) :=
  [(.grave, ['a', 'A', 'e', 'E', 'i', 'I', 'o', 'O', 'u', 'U', 'n', 'N', 'w', 'W', 'y', 'Y'],
    ['à', 'À', 'è', 'È', 'ì', 'Ì', 'ò', 'Ò', 'ù', 'Ù', 'ǹ', 'Ǹ', 'ẁ', 'Ẁ', 'ỳ', 'Ỳ']),
   (.acute, ['a', 'A', 'e', 'E', 'i', 'I', 'o', 'O', 'u', 'U', 'y', 'Y', 'c', 'C', 'l', 'L', 'n',
    'N', 'r', 'R', 's', 'S', 'z', 'Z', 'g', 'G', 'k', 'K', 'm', 'M', 'p', 'P'],
    ['á', 'Á', 'é', 'É', 'í', 'Í', 'ó', 'Ó', 'ú', 'Ú', 'ý', 'Ý', 'ć', 'Ć', 'ĺ', 'Ĺ', 'ń', 'Ń',
    'ŕ', 'Ŕ', 'ś', 'Ś', 'ź', 'Ź', 'ǵ', 'Ǵ', 'ḱ', 'Ḱ', 'ḿ', 'Ḿ', 'ṕ', 'Ṕ']),
   (.circumflex, ['a', 'A', 'e', 'E', 'i', 'I', 'o', 'O', 'u', 'U'],
    ['â', 'Â', 'ê', 'Ê', 'î', 'Î', 'ô', 'Ô', 'û', 'Û']),
   (.tilde, ['a', 'A', 'n', 'N', 'o', 'O'],
    ['ã', 'Ã', 'ñ', 'Ñ', 'õ', 'Õ']),
   (.diaeresis, ['a', 'A', 'e', 'E', 'i', 'I', 'o', 'O', 'u', 'U', 'y', 'Y'],
    ['ä', 'Ä', 'ë', 'Ë', 'ï', 'Ï', 'ö', 'Ö', 'ü', 'Ü', 'ÿ', 'Ÿ']),
   (.cedilla, ['c', 'C', 's', 'S', 't', 'T'],
    ['ç', 'Ç', 'ş', 'Ş', 'ţ', 'Ţ']),
   (.ring, ['a', 'A', 'u', 'U'],
    ['å', 'Å', 'ů', 'Ů']),
   (.caron, ['c', 'C', 'd', 'D', 'e', 'E', 'l', 'L', 'n', 'N', 'r', 'R', 's', 'S', 't', 'T', 'z',
    'Z', 'g', 'G', 'o', 'O'],
    ['č', 'Č', 'ď', 'Ď', 'ě', 'Ě', 'ľ', 'Ľ', 'ň', 'Ň', 'ř', 'Ř', 'š', 'Š', 'ť', 'Ť', 'ž', 'Ž',
    'ǧ', 'Ǧ', 'ǒ', 'Ǒ']),
   (.breve, ['a', 'A', 'e', 'E', 'g', 'G', 'u', 'U'],
    ['ă', 'Ă', 'ĕ', 'Ĕ', 'ğ', 'Ğ', 'ŭ', 'Ŭ']),
   (.doubleAcute, ['o', 'O', 'u', 'U'],
    ['ő', 'Ő', 'ű', 'Ű']),
   (.ogonek, ['a', 'A', 'e', 'E', 'i', 'I', 'o', 'O', 'u', 'U'],
    ['ą', 'Ą', 'ę', 'Ę', 'į', 'Į', 'ǫ', 'Ǫ', 'ų', 'Ų']),
   (.macron, ['a', 'A', 'e', 'E', 'i', 'I', 'o', 'O', 'u', 'U', 'y', 'Y'],
    ['ā', 'Ā', 'ē', 'Ē', 'ī', 'Ī', 'ō', 'Ō', 'ū', 'Ū', 'ȳ', 'Ȳ']),
   (.horn, ['o', 'O', 'u', 'U'],
    ['ơ', 'Ơ', 'ư', 'Ư']),
   (.hookAbove, ['a', 'A', 'e', 'E', 'i', 'I', 'o', 'O', 'u', 'U', 'y', 'Y'],
    ['ả', 'Ả', 'ẻ', 'Ẻ', 'ỉ', 'Ỉ', 'ỏ', 'Ỏ', 'ủ', 'Ủ', 'ỷ', 'Ỷ']),
   (.abovedot, ['a', 'A', 'c', 'C', 'e', 'E', 'g', 'G', 'o', 'O', 's', 'S', 'z', 'Z', 'y', 'Y'],
    ['ȧ', 'Ȧ', 'ċ', 'Ċ', 'ė', 'Ė', 'ġ', 'Ġ', 'ȯ', 'Ȯ', 'ṡ', 'Ṡ', 'ż', 'Ż', 'ẏ', 'Ẏ']),
   (.belowdot, ['a', 'A', 'e', 'E', 'i', 'I', 'o', 'O', 'u', 'U', 'y', 'Y'],
    ['ạ', 'Ạ', 'ẹ', 'Ẹ', 'ị', 'Ị', 'ọ', 'Ọ', 'ụ', 'Ụ', 'ỵ', 'Ỵ']),
   (.stroke, ['d', 'D', 'h', 'H', 'l', 'L', 'o', 'O', 't', 'T'],
    ['đ', 'Đ', 'ħ', 'Ħ', 'ł', 'Ł', 'ø', 'Ø', 'ŧ', 'Ŧ'])]

/-- What is inserted into the table of the dead keys. A dead key and a space give the accent
alone. -/
def deadTable : List ((DeadKey × Char) × Char) :=
  (deadRows.flatMap fun (dead, base, out) => (base.zip out).map fun (b, o) => ((dead, b), o)) ++
    deadRows.map fun (dead, _, _) => ((dead, ' '), standaloneAccent dead)

/-- What is inserted into the table of the compose sequences. -/
def composeTable : List ((Char × Char) × Char) :=
  [(('o', 'c'), '©'), (('c', 'o'), '©'), (('r', 'o'), '®'), (('t', 'm'), '™'), (('T', 'M'), '™'),
   (('c', '|'), '¢'), (('L', '-'), '£'), (('l', '-'), '£'), (('y', '='), '¥'), (('Y', '='), '¥'),
   (('e', '='), '€'), (('E', '='), '€'), (('s', 'o'), '§'), (('S', 'o'), '§'), (('p', '!'), '¶'),
   (('P', '!'), '¶'), (('m', 'u'), 'µ'), (('M', 'u'), 'µ'), (('N', 'o'), '№'), (('d', 'g'), '°'),
   (('o', 'x'), '¤'), (('-', '-'), '–'), (('?', '?'), '¿'), (('!', '!'), '¡'), (('<', '<'), '«'),
   (('>', '>'), '»'), (('/', '/'), '\\'), (('-', ':'), '÷'), (('.', '^'), '·'),
   (('o', 'o'), '°'), (('t', 'h'), 'þ'), (('T', 'H'), 'Þ'), (('d', 'h'), 'ð'), (('D', 'H'), 'Ð'),
   (('/', 'o'), 'ø'), (('/', 'O'), 'Ø'), (('a', 'e'), 'æ'), (('A', 'E'), 'Æ'), (('o', 'e'), 'œ'),
   (('O', 'E'), 'Œ'), (('o', 'a'), 'å'), (('O', 'A'), 'Å'), (('s', 's'), 'ß'), (('1', '2'), '½'),
   (('1', '4'), '¼'), (('3', '4'), '¾'), (('1', '3'), '⅓'), (('2', '3'), '⅔'), (('1', '8'), '⅛'),
   (('3', '8'), '⅜'), (('5', '8'), '⅝'), (('7', '8'), '⅞'), (('^', '1'), '¹'), (('^', '2'), '²'),
   (('^', '3'), '³'), (('s', '1'), '¹'), (('s', '2'), '²'), (('s', '3'), '³'),
   (('\'', 'a'), 'á'), (('\'', 'e'), 'é'), (('\'', 'i'), 'í'), (('\'', 'o'), 'ó'),
   (('\'', 'u'), 'ú'), (('\'', 'y'), 'ý'), (('\'', 'c'), 'ć'), (('\'', 'n'), 'ń'),
   (('\'', 's'), 'ś'), (('\'', 'z'), 'ź'), (('\'', 'A'), 'Á'), (('\'', 'E'), 'É'),
   (('\'', 'I'), 'Í'), (('\'', 'O'), 'Ó'), (('\'', 'U'), 'Ú'), (('\'', 'Y'), 'Ý'),
   (('\'', 'C'), 'Ć'), (('\'', 'N'), 'Ń'), (('\'', 'S'), 'Ś'), (('\'', 'Z'), 'Ź'),
   (('`', 'a'), 'à'), (('`', 'e'), 'è'), (('`', 'i'), 'ì'), (('`', 'o'), 'ò'), (('`', 'u'), 'ù'),
   (('`', 'A'), 'À'), (('`', 'E'), 'È'), (('`', 'I'), 'Ì'), (('`', 'O'), 'Ò'), (('`', 'U'), 'Ù'),
   (('^', 'a'), 'â'), (('^', 'e'), 'ê'), (('^', 'i'), 'î'), (('^', 'o'), 'ô'), (('^', 'u'), 'û'),
   (('^', 'A'), 'Â'), (('^', 'E'), 'Ê'), (('^', 'I'), 'Î'), (('^', 'O'), 'Ô'), (('^', 'U'), 'Û'),
   (('~', 'a'), 'ã'), (('~', 'n'), 'ñ'), (('~', 'o'), 'õ'), (('~', 'A'), 'Ã'), (('~', 'N'), 'Ñ'),
   (('~', 'O'), 'Õ'), (('"', 'a'), 'ä'), (('"', 'e'), 'ë'), (('"', 'i'), 'ï'), (('"', 'o'), 'ö'),
   (('"', 'u'), 'ü'), (('"', 'y'), 'ÿ'), (('"', 'A'), 'Ä'), (('"', 'E'), 'Ë'), (('"', 'I'), 'Ï'),
   (('"', 'O'), 'Ö'), (('"', 'U'), 'Ü'), (('"', 'Y'), 'Ÿ'), ((',', 'c'), 'ç'), ((',', 'C'), 'Ç')]

/-- Look a key up in a table: the last insertion stands. -/
def lookup {α : Type} [DecidableEq α] (inserts : List (α × Char)) (k : α) : Option Char :=
  (inserts.reverse.find? (·.1 == k)).map Prod.snd

def composeDead (dead : DeadKey) (base : Char) : Option Char := lookup deadTable (dead, base)

def composeChar (first second : Char) : Option Char := lookup composeTable (first, second)

/-- A space has an entry for every accent: the standalone one. -/
theorem composeDead_space (dead : DeadKey) :
    composeDead dead ' ' = some (standaloneAccent dead) := by
  cases dead <;> rfl

/-! ### The engine -/

namespace ComposeEngine

/-- Feed a symbol while a dead accent waits for its base character. -/
def feedDead (e : ComposeEngine) (dead : DeadKey) (symbol : KeySymbol) :
    ComposeEngine × FeedOutcome :=
  match symbol with
  | .char c =>
    if c = ' ' then ({ e with pending := none }, .emit [standaloneAccent dead])
    else
      match composeDead dead c with
      | some composed => ({ e with pending := none }, .emit [composed])
      -- the accent is dropped, the base character is delivered
      | none => ({ e with pending := none }, .reset [] (some (.char c)))
  | .dead d₂ =>
    if d₂ = dead then ({ e with pending := none }, .emit [standaloneAccent dead])
    else ({ e with pending := some (.dead d₂) }, .reset [standaloneAccent dead] none)
  | .compose => ({ e with pending := none }, .reset [] (some .compose))
  | .name _ | .none => ({ e with pending := none }, .cancelled)

def feed (e : ComposeEngine) (symbol : KeySymbol) : ComposeEngine × FeedOutcome :=
  match e.pending with
  | none =>
    match symbol with
    | .dead d => ({ e with pending := some (.dead d) }, .consumed)
    | .compose => ({ e with pending := some .compose }, .consumed)
    | .char _ | .name _ | .none => (e, .pass)
  | some (.dead d) => e.feedDead d symbol
  | some .compose =>
    match symbol with
    | .compose => ({ e with pending := none }, .cancelled)
    | .char c => ({ e with pending := some (.composeChar c) }, .consumed)
    | .dead d => ({ e with pending := some (.composeChar (standaloneAccent d)) }, .consumed)
    | .name _ | .none => ({ e with pending := none }, .cancelled)
  | some (.composeChar first) =>
    match symbol with
    | .char second =>
      match Layouts.composeChar first second with
      | some composed => ({ e with pending := none }, .emit [composed])
      | none => ({ e with pending := none }, .reset [first] (some (.char second)))
    | .dead d =>
      match Layouts.composeChar first (standaloneAccent d) with
      | some composed => ({ e with pending := none }, .emit [composed])
      | none => ({ e with pending := none }, .reset [first] (some (.dead d)))
    | .compose | .name _ | .none => ({ e with pending := none }, .cancelled)

def reset (e : ComposeEngine) : ComposeEngine := { e with pending := none }

variable {e : ComposeEngine} {symbol next : KeySymbol} {standalone : List Char}

/-- The table has the space, so the special case of the engine changes nothing. -/
theorem feedDead_char (dead : DeadKey) (c : Char) : e.feedDead dead (.char c) =
    (e.reset, match composeDead dead c with
      | some composed => .emit [composed]
      | none => .reset [] (some (.char c))) := by
  unfold feedDead reset
  by_cases hc : c = ' '
  · subst hc
    simp only [if_true, composeDead_space]
  · simp only [if_neg hc]
    cases composeDead dead c <;> rfl

/-- A symbol that has to be fed again is the one that was fed, and it finds the engine idle. -/
theorem feed_reprocess (h : (e.feed symbol).2 = .reset standalone (some next)) :
    next = symbol ∧ (e.feed symbol).1.pending = none := by
  obtain ⟨pending⟩ := e
  rcases pending with _ | d | _ | first
  · cases symbol <;> simp [feed] at h
  · cases symbol with
    | char c =>
      simp only [feed, feedDead_char] at h ⊢
      split at h
      next => cases h
      next => cases h; exact ⟨rfl, rfl⟩
    | dead d₂ =>
      simp only [feed, feedDead] at h
      split at h <;> cases h
    | compose => cases h; exact ⟨rfl, rfl⟩
    | name s => cases h
    | none => cases h
  · cases symbol <;> simp [feed] at h
  · cases symbol with
    | char second =>
      simp only [feed] at h ⊢
      split at h
      next => cases h
      next => cases h; exact ⟨rfl, rfl⟩
    | dead d =>
      simp only [feed] at h ⊢
      split at h
      next => cases h
      next => cases h; exact ⟨rfl, rfl⟩
    | compose => cases h
    | name s => cases h
    | none => cases h

/-- An idle engine never has a symbol fed again. -/
theorem feed_idle (h : e.pending = none) (standalone : List Char) (reprocess : Option KeySymbol) :
    (e.feed symbol).2 ≠ .reset standalone reprocess := by
  obtain ⟨pending⟩ := e
  cases h
  cases symbol <;> simp [feed]

end ComposeEngine

end Ferrokey.Layouts
