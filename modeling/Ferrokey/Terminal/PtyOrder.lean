import Ferrokey.Machine.Interleaving
import Ferrokey.Machine.Runs
import Ferrokey.Terminal.Safety

/-! # The order of what a program is given

Three queues are written one after the other, and what is left over of any of them waits
in the first. When the system takes bytes of a later queue after bytes of an earlier one
were left over, blocks are cut in two or bytes overtake others of their source.
-/

set_option linter.dupNamespace false

namespace Ferrokey.Terminal

open Machine Machine.Item

/-- Who queues bytes for the program. -/
inductive ByteSource where
  | input
  | keys
  | answers
  deriving DecidableEq, Repr

/-! ### Writing a queue -/

/-- The system takes some bytes or blocks. -/
def Regular : WriteAnswer → Prop
  | .accepted n => 0 < n
  | .wouldBlock => True
  | .failed => False

section WriteLoop

variable {α β : Type}

/-- Everything is written or left over, in order. -/
theorem writeLoop_append {answers : List WriteAnswer} (h : ∀ a ∈ answers, Regular a)
    (items : List α) :
    (writeLoop answers items).1 ++ (writeLoop answers items).2.1 = items ∧
      ∀ a ∈ (writeLoop answers items).2.2, Regular a := by
  induction answers generalizing items with
  | nil => cases items <;> exact ⟨rfl, h⟩
  | cons answer answers ih =>
    obtain ⟨hregular, hrest⟩ := List.forall_mem_cons.mp h
    cases items with
    | nil => exact ⟨rfl, h⟩
    | cons x xs =>
      cases answer with
      | accepted n =>
        cases n with
        | zero => cases hregular
        | succ n =>
          obtain ⟨hout, hanswers⟩ := ih hrest ((x :: xs).drop (n + 1))
          refine ⟨?_, hanswers⟩
          simp only [writeLoop, List.append_assoc, hout, List.take_append_drop]
      | wouldBlock => exact ⟨rfl, hrest⟩
      | failed => cases hregular

theorem writeLoop_map (f : α → β) (answers : List WriteAnswer) (items : List α) :
    writeLoop answers (items.map f) =
      ((writeLoop answers items).1.map f, (writeLoop answers items).2.1.map f,
        (writeLoop answers items).2.2) := by
  induction answers generalizing items with
  | nil => cases items <;> rfl
  | cons answer answers ih =>
    cases items with
    | nil => rfl
    | cons x xs =>
      cases answer with
      | accepted n =>
        cases n with
        | zero => rfl
        | succ n =>
          simp only [List.map_cons, writeLoop, List.drop_succ_cons, List.take_succ_cons,
            ← List.map_drop, ih, List.map_append, ← List.map_take, List.cons_append]
      | wouldBlock => rfl
      | failed => rfl

end WriteLoop

/-! ### The ledger -/

/-- The bytes that were queued and accepted, and those that wait in the queues. -/
structure PtyLedger where
  queued : List (Item ByteSource UInt8)
  accepted : List (Item ByteSource UInt8)
  pending : List (Item ByteSource UInt8)
  keys : List (Item ByteSource UInt8)
  response : List (Item ByteSource UInt8)

namespace PtyLedger

def empty : PtyLedger := ⟨[], [], [], [], []⟩

/-- What waits, in the order in which it is written. -/
def waiting (l : PtyLedger) : List (Item ByteSource UInt8) := l.pending ++ l.keys ++ l.response

/-- Bytes of a source, behind those that it has queued. -/
def blockOf (l : PtyLedger) (s : ByteSource) (bytes : List UInt8) : List (Item ByteSource UInt8) :=
  block s (ofSource s l.queued).length bytes

def queueInput (l : PtyLedger) (bytes : List UInt8) : PtyLedger :=
  { l with
    queued := l.queued ++ l.blockOf .input bytes
    pending := l.pending ++ l.blockOf .input bytes }

def queueKeys (l : PtyLedger) (bytes : List UInt8) : PtyLedger :=
  { l with
    queued := l.queued ++ l.blockOf .keys bytes
    keys := l.keys ++ l.blockOf .keys bytes }

def queueAnswer (l : PtyLedger) (bytes : List UInt8) : PtyLedger :=
  { l with
    queued := l.queued ++ l.blockOf .answers bytes
    response := l.response ++ l.blockOf .answers bytes }

def flush (l : PtyLedger) (answers : List WriteAnswer) : PtyLedger :=
  let (pending, pendingLeft, answers) := writeLoop answers l.pending
  let (keys, keysLeft, answers) := writeLoop answers l.keys
  let (response, responseLeft, _) := writeLoop answers l.response
  { l with
    accepted := l.accepted ++ pending ++ keys ++ response
    pending := pendingLeft ++ keysLeft ++ responseLeft
    keys := []
    response := [] }

/-- Whatever is left over of a queue lets go ahead what is written of the later ones. -/
def Yielding (l : PtyLedger) (answers : List WriteAnswer) : Prop :=
  let (_, pendingLeft, answers) := writeLoop answers l.pending
  let (keys, keysLeft, answers) := writeLoop answers l.keys
  let (response, responseLeft, _) := writeLoop answers l.response
  Yields pendingLeft keys keysLeft ∧ Yields (pendingLeft ++ keysLeft) response responseLeft

/-- What was accepted and what waits are in order. -/
def Ordered (l : PtyLedger) : Prop := InOrder l.queued (l.accepted ++ l.waiting)

/-- The queues of the keys and the answers hold whole blocks. -/
structure Sound (l : PtyLedger) : Prop where
  numbered : Numbered l.queued
  keys : ∀ x ∈ l.keys, x.source = .keys
  response : ∀ x ∈ l.response, x.source = .answers
  keysBegin : Begins l.keys
  responseBegins : Begins l.response

variable {l : PtyLedger}

theorem empty_sound : empty.Sound where
  numbered := numbered_nil
  keys := by simp [empty]
  response := by simp [empty]
  keysBegin := begins_nil
  responseBegins := begins_nil

theorem flush_sound (h : l.Sound) (answers : List WriteAnswer) : (l.flush answers).Sound where
  numbered := h.numbered
  keys := by simp [flush]
  response := by simp [flush]
  keysBegin := begins_nil
  responseBegins := begins_nil

theorem queueInput_sound (h : l.Sound) (bytes : List UInt8) : (l.queueInput bytes).Sound :=
  { h with numbered := h.numbered.queue .input bytes }

theorem mem_blockOf {s : ByteSource} {bytes : List UInt8} {x : Item ByteSource UInt8}
    (h : x ∈ l.blockOf s bytes) : x.source = s := source_of_mem_number h

theorem queueKeys_sound (h : l.Sound) (bytes : List UInt8) : (l.queueKeys bytes).Sound :=
  { h with
    numbered := h.numbered.queue .keys bytes
    keys := fun x hx => (List.mem_append.mp hx).elim (h.keys x) mem_blockOf
    keysBegin := h.keysBegin.append block_begins }

theorem queueAnswer_sound (h : l.Sound) (bytes : List UInt8) : (l.queueAnswer bytes).Sound :=
  { h with
    numbered := h.numbered.queue .answers bytes
    response := fun x hx => (List.mem_append.mp hx).elim (h.response x) mem_blockOf
    responseBegins := h.responseBegins.append block_begins }

theorem queueInput_ordered (hs : l.Sound) (h : l.Ordered) (bytes : List UInt8) :
    (l.queueInput bytes).Ordered := by
  have hsplit : InOrder l.queued (l.accepted ++ l.pending ++ (l.keys ++ l.response)) := by
    simpa [Ordered, waiting] using h
  have hafter : ∀ x ∈ l.keys ++ l.response, x.source ≠ .input := by
    intro x hx
    rcases List.mem_append.mp hx with hx | hx
    · simp [hs.keys x hx]
    · simp [hs.response x hx]
  have hq := hsplit.queue .input hafter (hs.keysBegin.append hs.responseBegins) bytes
  simpa [Ordered, waiting, queueInput, blockOf] using hq

theorem queueKeys_ordered (hs : l.Sound) (h : l.Ordered) (bytes : List UInt8) :
    (l.queueKeys bytes).Ordered := by
  have hsplit : InOrder l.queued (l.accepted ++ l.pending ++ l.keys ++ l.response) := by
    simpa [Ordered, waiting] using h
  have hafter : ∀ x ∈ l.response, x.source ≠ .keys := fun x hx => by simp [hs.response x hx]
  have hq := hsplit.queue .keys hafter hs.responseBegins bytes
  simpa [Ordered, waiting, queueKeys, blockOf] using hq

theorem queueAnswer_ordered (h : l.Ordered) (bytes : List UInt8) :
    (l.queueAnswer bytes).Ordered := by
  have hsplit : InOrder l.queued (l.accepted ++ l.waiting ++ []) := by simpa [Ordered] using h
  have hq := hsplit.queue .answers (by simp) begins_nil bytes
  simpa [Ordered, waiting, queueAnswer, blockOf] using hq

/-- What is written of the queues, and what is left over of them. -/
theorem flush_cases {answers : List WriteAnswer} (hr : ∀ a ∈ answers, Regular a) :
    ∃ w₁ w₂ k₁ k₂ r₁ r₂, l.pending = w₁ ++ w₂ ∧ l.keys = k₁ ++ k₂ ∧ l.response = r₁ ++ r₂ ∧
      l.flush answers =
        ⟨l.queued, l.accepted ++ w₁ ++ k₁ ++ r₁, w₂ ++ k₂ ++ r₂, [], []⟩ ∧
      (l.Yielding answers ↔ Yields w₂ k₁ k₂ ∧ Yields (w₂ ++ k₂) r₁ r₂) := by
  obtain ⟨hpending, hr₁⟩ := writeLoop_append hr l.pending
  obtain ⟨hkeys, hr₂⟩ := writeLoop_append hr₁ l.keys
  obtain ⟨hresponse, -⟩ := writeLoop_append hr₂ l.response
  exact ⟨_, _, _, _, _, _, hpending.symm, hkeys.symm, hresponse.symm, rfl, Iff.rfl⟩

/-- Writing the queues keeps the order exactly when what is left over lets the later bytes
go ahead. -/
theorem flush_ordered_iff (hs : l.Sound) (h : l.Ordered) {answers : List WriteAnswer}
    (hr : ∀ a ∈ answers, Regular a) : (l.flush answers).Ordered ↔ l.Yielding answers := by
  obtain ⟨w₁, w₂, k₁, k₂, r₁, r₂, hpending, hkeys, hresponse, hflush, hyielding⟩ :=
    flush_cases (l := l) hr
  rw [hyielding, hflush]
  unfold Ordered waiting at h ⊢
  have hkeysBegin : Begins k₁ := begins_of_append (hkeys ▸ hs.keysBegin)
  have hresponseBegins : Begins r₁ := begins_of_append (hresponse ▸ hs.responseBegins)
  have h₁ : InOrder l.queued (l.accepted ++ w₁ ++ w₂ ++ k₁ ++ (k₂ ++ (r₁ ++ r₂))) := by
    simpa [hpending, hkeys, hresponse] using h
  -- the keys go ahead of what is left over of the first queue, then the answers of both
  have hahead : Yields w₂ k₁ k₂ →
      InOrder l.queued (l.accepted ++ w₁ ++ k₁ ++ (w₂ ++ k₂) ++ r₁ ++ (r₂ ++ [])) := by
    intro hy
    simpa using h₁.yield hkeysBegin (hresponse ▸ hs.responseBegins) hy
  constructor
  · intro h₃
    have hy : Yields w₂ k₁ k₂ := by
      have h₃' : InOrder l.queued (l.accepted ++ w₁ ++ k₁ ++ r₁ ++ w₂ ++ (k₂ ++ r₂)) := by
        simpa using h₃
      refine h₁.yields hs.numbered h₃' fun y hy v hv => ?_
      rw [hs.keys y (hkeys ▸ List.mem_append_left k₂ hy), hs.response v (hresponse ▸ hv)]
      decide
    have h₃' : InOrder l.queued
        (l.accepted ++ w₁ ++ k₁ ++ r₁ ++ [] ++ (w₂ ++ k₂) ++ (r₂ ++ [])) := by
      simpa using h₃
    exact ⟨hy, (hahead hy).yields hs.numbered h₃' (by simp)⟩
  · rintro ⟨hy, hy'⟩
    simpa using (hahead hy).yield hresponseBegins begins_nil hy'

end PtyLedger

/-! ### What is queued -/

/-- What is added behind the bytes of a queue. -/
def growth (before after : List UInt8) : List UInt8 := after.drop before.length

theorem append_growth {before after : List UInt8} (h : before <+: after) :
    before ++ growth before after = after := by
  obtain ⟨added, rfl⟩ := h
  simp [growth]

namespace Terminal

/-- The answers that some actions queue, one after the other. -/
def answersOf (tables : UnicodeTables) : List ParserAction → Terminal → List (List UInt8)
  | [], _ => []
  | a :: actions, t =>
    match t.apply tables a with
    | some t' => growth t.response t'.response :: answersOf tables actions t'
    | none => []

/-- The answers that bytes from the program lead to. -/
def answersTo (t : Terminal) (tables : UnicodeTables) (bytes : List UInt8) : List (List UInt8) :=
  answersOf tables (t.parser.feed bytes).2 (t.receive bytes)

variable {t t' : Terminal}

theorem applyAll_response (h : t.Valid) (tables : UnicodeTables) (actions : List ParserAction) :
    Returns (t.applyAll tables actions) fun t' =>
      t'.response = t.response ++ (answersOf tables actions t).flatten := by
  induction actions generalizing t with
  | nil => exact .pure (by simp [answersOf])
  | cons a actions ih =>
    obtain ⟨t₁, ht₁, hadv, hvalid⟩ := apply_valid h tables a
    have happly : t.applyAll tables (a :: actions) = t₁.applyAll tables actions := by
      simp [applyAll, ht₁]
    rw [happly]
    apply (ih hvalid).mono
    intro t' ht'
    simp only [answersOf, ht₁, List.flatten_cons, ← List.append_assoc]
    rw [ht', append_growth hadv.response]

theorem settle_response (t : Terminal) (synced : Bool) :
    (t.settle synced).response = t.response := by
  unfold settle
  dsimp only
  split
  · rfl
  · unfold markDirtyFromGrid
    dsimp only
    split <;> rfl

theorem feed_response (h : t.Valid) (tables : UnicodeTables) (bytes : List UInt8) :
    Returns (t.feed tables bytes) fun t' =>
      t'.response = t.response ++ (t.answersTo tables bytes).flatten := by
  obtain ⟨c, r, c₀, r₀, hs⟩ := h.sizes
  have hreceive := receive_quiet hs.grid bytes
  have hvalid := h.of_quiet hs hreceive
  apply (applyAll_response hvalid tables (t.parser.feed bytes).2).bind
  intro t' ht'
  exact .pure ((settle_response t' _).trans ht')

theorem sendInput_eq (bytes : List UInt8) : (t.sendInput bytes).1 =
    { t with writeBuf := (t.sendInput bytes).1.writeBuf } := by
  unfold sendInput
  split
  · rfl
  · split <;> rfl

theorem keyInput_eq (encoded : List UInt8) : (t.keyInput encoded).1 =
    { t with inputSource := (t.keyInput encoded).1.inputSource } := by
  unfold keyInput
  split <;> rfl

theorem writeAll_eq (h : t.pty.isSome = true) (bytes : List UInt8) (answers : List WriteAnswer) :
    t.writeAll bytes answers =
      ({ t with writeBuf := t.writeBuf ++ (writeLoop answers bytes).2.1 },
        (writeLoop answers bytes).1, (writeLoop answers bytes).2.2) := by
  obtain ⟨size, hsize⟩ := Option.isSome_iff_exists.mp h
  simp [writeAll, hsize]

theorem flush_eq (h : t.pty.isSome = true) (answers : List WriteAnswer) :
    let w := writeLoop answers t.writeBuf
    let k := writeLoop w.2.2 (t.inputSource.getD [])
    let r := writeLoop k.2.2 t.response
    t.flush answers =
      ({ t with
        writeBuf := w.2.1 ++ k.2.1 ++ r.2.1
        inputSource := t.inputSource.map fun _ => []
        response := [] },
      w.1 ++ k.1 ++ r.1) := by
  simp [flush, flushPending, flushKeys, flushResponse, writeAll_eq, h]

theorem sendInput_grows (bytes : List UInt8) :
    t.writeBuf <+: (t.sendInput bytes).1.writeBuf := by
  unfold sendInput
  split
  · exact List.prefix_rfl
  · split
    · exact List.prefix_rfl
    · exact List.prefix_append _ _

theorem keyInput_grows (encoded : List UInt8) :
    t.inputSource.getD [] <+: (t.keyInput encoded).1.inputSource.getD [] := by
  cases hsource : t.inputSource with
  | none => simp [keyInput, hsource]
  | some write =>
    simp only [keyInput, hsource, Option.getD_some]
    unfold PtySink.send
    split
    · exact List.prefix_rfl
    · exact List.prefix_append _ _

end Terminal

/-- A terminal, the bytes that the system took for the program, and where they come from. -/
structure PtyWatch where
  valid : ValidTerminal
  written : List UInt8
  ledger : PtyLedger

namespace PtyWatch

def terminal (s : PtyWatch) : Terminal := s.valid.terminal

def start (v : ValidTerminal) : PtyWatch := ⟨v, [], .empty⟩

def bytesWritten : Reply → List UInt8
  | .written bytes => bytes
  | _ => []

/-- The bytes that a call queues and those that it writes. -/
def ledgerAfter (tables : UnicodeTables) (t : Terminal) (l : PtyLedger) : TerminalOp → PtyLedger
  | .sendInput bytes => l.queueInput (growth t.writeBuf (t.sendInput bytes).1.writeBuf)
  | .keyInput encoded =>
    l.queueKeys (growth (t.inputSource.getD []) ((t.keyInput encoded).1.inputSource.getD []))
  | .feed bytes => (t.answersTo tables bytes).foldl PtyLedger.queueAnswer l
  | .flush answers => l.flush answers
  | _ => l

def step (tables : UnicodeTables) (s : PtyWatch) (op : TerminalOp) : PtyWatch × Reply :=
  let (v, reply) := s.valid.perform tables op
  (⟨v, s.written ++ bytesWritten reply, ledgerAfter tables s.terminal s.ledger op⟩, reply)

/-- Input and keys are queued, and the rounds of the event loop write the queues and feed what
the program prints; the system takes some bytes or blocks. -/
def Admitted (_ : PtyWatch) : TerminalOp → Prop
  | .sendInput _ | .keyInput _ | .feed _ => True
  | .flush answers => ∀ a ∈ answers, Regular a
  | _ => False

/-- The bytes that were accepted and those that wait in the queues hold every byte that was
queued, those of a source in order and every block in one piece. -/
structure Delivers (s : PtyWatch) : Prop where
  accepted : s.ledger.accepted.map (·.value) = s.written
  waiting : s.ledger.waiting.map (·.value) =
    s.terminal.writeBuf ++ s.terminal.inputSource.getD [] ++ s.terminal.response
  ordered : s.ledger.Ordered

/-- When bytes of a queue are left over, those that the system still takes of later queues are
whole blocks of other sources, and no block is left over in part. -/
def Patient (s : PtyWatch) : TerminalOp → Prop
  | .flush answers => s.ledger.Yielding answers
  | _ => True

/-- The queues of the terminal hold what waits by the ledger. -/
structure Matches (s : PtyWatch) : Prop where
  session : s.terminal.pty.isSome = true
  accepted : s.ledger.accepted.map (·.value) = s.written
  pending : s.ledger.pending.map (·.value) = s.terminal.writeBuf
  keys : s.ledger.keys.map (·.value) = s.terminal.inputSource.getD []
  response : s.ledger.response.map (·.value) = s.terminal.response
  sound : s.ledger.Sound

variable {tables : UnicodeTables} {s : PtyWatch}

theorem Matches.delivers (h : s.Matches) (ho : s.ledger.Ordered) : s.Delivers where
  accepted := h.accepted
  waiting := by simp [PtyLedger.waiting, h.pending, h.keys, h.response]
  ordered := ho

theorem step_of_eq (tables : UnicodeTables) (s : PtyWatch) (op : TerminalOp) {t : Terminal}
    {reply : Reply} (h : s.terminal.perform tables op = some (t, reply)) :
    (s.step tables op).1.terminal = t ∧
      (s.step tables op).1.written = s.written ++ bytesWritten reply := by
  obtain ⟨hterminal, hreply⟩ := s.valid.perform_of_eq tables op h
  refine ⟨hterminal, ?_⟩
  change s.written ++ bytesWritten (s.valid.perform tables op).2 = _
  rw [hreply]

theorem step_ledger (op : TerminalOp) : (s.step tables op).1.ledger =
    ledgerAfter tables s.terminal s.ledger op := rfl

theorem map_value_blockOf (l : PtyLedger) (source : ByteSource) (bytes : List UInt8) :
    (l.blockOf source bytes).map (·.value) = bytes := map_value_number ..

theorem step_sendInput_matches (h : s.Matches) (bytes : List UInt8) :
    (s.step tables (.sendInput bytes)).1.Matches := by
  obtain ⟨hterminal, hwritten⟩ := step_of_eq tables s (.sendInput bytes) rfl
  rw [Terminal.sendInput_eq] at hterminal
  constructor
  · rw [hterminal]
    exact h.session
  · exact h.accepted.trans (hwritten.trans (List.append_nil _)).symm
  · rw [hterminal, step_ledger]
    simp only [ledgerAfter, PtyLedger.queueInput, List.map_append, h.pending, map_value_blockOf]
    exact append_growth (Terminal.sendInput_grows bytes)
  · rw [hterminal]
    exact h.keys
  · rw [hterminal]
    exact h.response
  · exact PtyLedger.queueInput_sound h.sound _

theorem step_keyInput_matches (h : s.Matches) (encoded : List UInt8) :
    (s.step tables (.keyInput encoded)).1.Matches := by
  obtain ⟨hterminal, hwritten⟩ := step_of_eq tables s (.keyInput encoded) rfl
  rw [Terminal.keyInput_eq] at hterminal
  constructor
  · rw [hterminal]
    exact h.session
  · exact h.accepted.trans (hwritten.trans (List.append_nil _)).symm
  · rw [hterminal]
    exact h.pending
  · rw [hterminal, step_ledger]
    simp only [ledgerAfter, PtyLedger.queueKeys, List.map_append, h.keys, map_value_blockOf]
    exact append_growth (Terminal.keyInput_grows encoded)
  · rw [hterminal]
    exact h.response
  · exact PtyLedger.queueKeys_sound h.sound _

/-- Answers are added to their queue and to no other. -/
theorem queueAnswers_spec (l : PtyLedger) (answers : List (List UInt8)) :
    let l' := answers.foldl PtyLedger.queueAnswer l
    l'.accepted = l.accepted ∧ l'.pending = l.pending ∧ l'.keys = l.keys ∧
      l'.response.map (·.value) = l.response.map (·.value) ++ answers.flatten ∧
      (l.Sound → l'.Sound) := by
  induction answers generalizing l with
  | nil => simp
  | cons bytes answers ih =>
    obtain ⟨haccepted, hpending, hkeys, hresponse, hsound⟩ := ih (l.queueAnswer bytes)
    refine ⟨haccepted, hpending, hkeys, ?_, ?_⟩
    · rw [List.foldl_cons, hresponse]
      simp [PtyLedger.queueAnswer, map_value_blockOf]
    · exact fun hl => hsound (PtyLedger.queueAnswer_sound hl bytes)

theorem step_feed_matches (h : s.Matches) (bytes : List UInt8) :
    (s.step tables (.feed bytes)).1.Matches := by
  have hvalid := s.valid.valid
  obtain ⟨t, hfeed, ⟨hadv, -⟩, hanswers⟩ :=
    (Terminal.feed_valid hvalid tables bytes).and (Terminal.feed_response hvalid tables bytes)
  have hperform : s.terminal.perform tables (.feed bytes) = some (t, .done) := by
    simp [Terminal.perform, terminal, hfeed]
  obtain ⟨hterminal, hwritten⟩ := step_of_eq tables s (.feed bytes) hperform
  obtain ⟨haccepted, hpending, hkeys, hresponse, hsound⟩ :=
    queueAnswers_spec s.ledger (s.terminal.answersTo tables bytes)
  constructor
  · rw [hterminal, show t.pty = s.terminal.pty from congrArg Host.pty hadv.host]
    exact h.session
  · have hkept := h.accepted.trans (hwritten.trans (List.append_nil _)).symm
    exact (congrArg (List.map _) haccepted).trans hkept
  · rw [hterminal, show t.writeBuf = s.terminal.writeBuf from congrArg Host.writeBuf hadv.host]
    exact hpending ▸ h.pending
  · rw [hterminal,
      show t.inputSource = s.terminal.inputSource from congrArg Host.inputSource hadv.host]
    exact hkeys ▸ h.keys
  · rw [hterminal, hanswers, step_ledger]
    exact hresponse.trans (congrArg (· ++ _) h.response)
  · exact hsound h.sound

theorem step_flush_matches (h : s.Matches) (answers : List WriteAnswer) :
    (s.step tables (.flush answers)).1.Matches := by
  obtain ⟨hterminal, hwritten⟩ := step_of_eq tables s (.flush answers) rfl
  rw [Terminal.flush_eq h.session, ← h.pending, ← h.keys, ← h.response] at hterminal hwritten
  simp only [writeLoop_map] at hterminal hwritten
  constructor
  · rw [hterminal]
    exact h.session
  · rw [hwritten, step_ledger]
    simp [ledgerAfter, PtyLedger.flush, bytesWritten, h.accepted]
  · rw [hterminal, step_ledger]
    simp [ledgerAfter, PtyLedger.flush]
  · rw [hterminal, step_ledger]
    cases s.terminal.inputSource <;> rfl
  · rw [hterminal]
    rfl
  · exact PtyLedger.flush_sound h.sound answers

theorem step_matches (h : s.Matches) {op : TerminalOp} (hw : s.Admitted op) :
    (s.step tables op).1.Matches := by
  cases op with
  | sendInput bytes => exact step_sendInput_matches h bytes
  | keyInput encoded => exact step_keyInput_matches h encoded
  | feed bytes => exact step_feed_matches h bytes
  | flush answers => exact step_flush_matches h answers
  | _ => cases hw

theorem queueAnswers_ordered {l : PtyLedger} (ho : l.Ordered) (answers : List (List UInt8)) :
    (answers.foldl PtyLedger.queueAnswer l).Ordered := by
  induction answers generalizing l with
  | nil => exact ho
  | cons bytes answers ih => exact ih (PtyLedger.queueAnswer_ordered ho bytes)

theorem step_ordered_iff (h : s.Matches) (ho : s.ledger.Ordered) {op : TerminalOp}
    (hw : s.Admitted op) : (s.step tables op).1.ledger.Ordered ↔ s.Patient op := by
  rw [step_ledger]
  cases op with
  | sendInput bytes => exact iff_of_true (PtyLedger.queueInput_ordered h.sound ho _) trivial
  | keyInput encoded => exact iff_of_true (PtyLedger.queueKeys_ordered h.sound ho _) trivial
  | feed bytes => exact iff_of_true (queueAnswers_ordered ho _) trivial
  | flush answers => exact PtyLedger.flush_ordered_iff h.sound ho hw
  | _ => cases hw

/-- As long as the system takes bytes or blocks, the program is given what was queued, in order
and in one piece, exactly when bytes that are left over always let the later ones go ahead. -/
theorem always_delivers_iff {v : ValidTerminal} (hsession : v.terminal.pty.isSome = true)
    (hpending : v.terminal.writeBuf = []) (hkeys : v.terminal.inputSource.getD [] = [])
    (hresponse : v.terminal.response = []) (tables : UnicodeTables) {ops : List TerminalOp}
    (hw : Steps (step tables) Admitted (start v) ops) :
    Always (step tables) Delivers (start v) ops ↔ Steps (step tables) Patient (start v) ops := by
  refine always_iff_steps_within (fun s => s.Matches ∧ s.ledger.Ordered) ?_
    (fun s hs => hs.1.delivers hs.2) ?_ ?_ hw
  · exact ⟨⟨hsession, rfl, hpending.symm, hkeys.symm, hresponse.symm, PtyLedger.empty_sound⟩,
      inOrder_nil⟩
  · exact fun s op hs hwop hop =>
      ⟨step_matches hs.1 hwop, (step_ordered_iff hs.1 hs.2 hwop).mpr hop⟩
  · exact fun s op hs hwop hop hd => hop ((step_ordered_iff hs.1 hs.2 hwop).mp hd.ordered)

/-- What was accepted so far is in order by itself. -/
theorem Delivers.accepted_ordered (h : s.Delivers) :
    (∀ source, ofSource source s.ledger.accepted <+: ofSource source s.ledger.queued) ∧
      s.ledger.accepted.IsChain Follows := by
  constructor
  · intro source
    rw [← h.ordered.complete source, ofSource_append]
    exact List.prefix_append _ _
  · exact (List.isChain_append.mp h.ordered.pieces).1

end PtyWatch

/-! ### Rounds of the event loop -/

namespace Terminal

variable {t t' : Terminal} {tables : UnicodeTables}

theorem performAll_cons (op : TerminalOp) (ops : List TerminalOp) :
    t.performAll tables (op :: ops) =
      (t.perform tables op).bind fun out => out.1.performAll tables ops := by
  simp [performAll, Option.map_eq_bind, Option.bind_assoc]

theorem readLoop_feeds {budget : ℕ} {reads : List ReadAnswer} {events : List TerminalEvent}
    (h : readLoop tables budget reads t = some (t', events)) :
    ∃ chunks : List (List UInt8), t.performAll tables (chunks.map .feed) = some t' := by
  have hnone (h : some (t, ([] : List TerminalEvent)) = some (t', events)) :
      ∃ chunks : List (List UInt8), t.performAll tables (chunks.map .feed) = some t' := by
    cases h
    exact ⟨[], rfl⟩
  induction reads generalizing budget t events with
  | nil => exact hnone (by cases budget <;> exact h)
  | cons read reads ih =>
    cases budget with
    | zero => exact hnone h
    | succ budget =>
      cases read with
      | ended => exact hnone h
      | bytes chunk =>
        cases chunk with
        | nil => exact hnone h
        | cons b bs =>
          simp only [readLoop, Option.bind_eq_bind, Option.bind_eq_some_iff] at h
          obtain ⟨budget', -, t₁, hfeed, ⟨t₂, events'⟩, hrest, hout⟩ := h
          cases hout
          obtain ⟨chunks, hchunks⟩ := ih hrest fun hdone => by
            cases hdone
            exact ⟨[], rfl⟩
          refine ⟨(b :: bs) :: chunks, ?_⟩
          rw [List.map_cons, performAll_cons]
          simpa [perform, hfeed] using hchunks

/-- A round writes the queues and feeds what it reads. -/
theorem poll_performs {answers : List WriteAnswer} {reads : List ReadAnswer} {out : List UInt8}
    {events : List TerminalEvent} (hsession : t.pty.isSome = true)
    (h : t.poll tables answers reads = some (t', out, events)) :
    out = (t.flush answers).2 ∧ ∃ (chunks : List (List UInt8)) (t'' : Terminal),
      t.performAll tables (.flush answers :: chunks.map .feed) = some t'' ∧
      t' = { t'' with bell := false } := by
  have hsome : t.pty.isNone = false := Option.isNone_eq_false_iff.mpr hsession
  simp only [poll, hsome, Bool.false_eq_true, if_false, Option.bind_eq_bind,
    Option.bind_eq_some_iff] at h
  obtain ⟨⟨t₁, events'⟩, hread, hout⟩ := h
  cases hout
  obtain ⟨chunks, hchunks⟩ := readLoop_feeds hread
  refine ⟨rfl, chunks, t₁, ?_, rfl⟩
  rw [performAll_cons]
  exact hchunks

/-- A terminal with a session and a key sink. -/
def shared : Option Terminal := do
  let t ← (Terminal.new .default fontCells).toOption
  (t.setInputSource []).performAll asciiTables [.startSession (.ok ())]

theorem shared_valid (h : shared = some t) : t.Valid := by
  obtain ⟨s, hs⟩ : ∃ s, Terminal.new .default fontCells = .ok s := ⟨_, rfl⟩
  have hvalid : (s.setInputSource []).Valid := (new_valid hs).of_same ⟨rfl, rfl, rfl, rfl⟩
  obtain ⟨t', ht', hr⟩ := performAll_valid hvalid asciiTables [.startSession (.ok ())]
  simp only [shared, hs, Except.toOption, Option.bind_eq_bind, Option.bind_some, ht'] at h
  cases h
  exact hr

end Terminal

namespace PtyWatch

open Terminal

theorem blockedKeys_delivers_iff :
    let ops : List TerminalOp :=
      [.sendInput [0x61, 0x62], .keyInput [0x63], .flush [.accepted 1, .wouldBlock]]
    ∃ v : ValidTerminal, shared = some v.terminal ∧
      (Always (step asciiTables) Delivers (start v) ops ↔
        Steps (step asciiTables) Patient (start v) ops) := by
  refine ⟨⟨_, shared_valid rfl⟩, rfl, always_delivers_iff rfl rfl rfl rfl asciiTables ?_⟩
  simp [Admitted, Regular]

/-- A key is written in the middle of the input that was sent before it. -/
theorem overtakingKey_not_delivers :
    let ops : List TerminalOp :=
      [.sendInput [0x61, 0x62], .keyInput [0x63], .flush [.accepted 1, .wouldBlock, .accepted 1],
        .flush [.accepted 1]]
    ∃ v : ValidTerminal, shared = some v.terminal ∧
      Steps (step asciiTables) Admitted (start v) ops ∧
      ¬ Always (step asciiTables) Delivers (start v) ops := by
  refine ⟨⟨_, shared_valid rfl⟩, rfl, by simp [Admitted, Regular], fun ha => ?_⟩
  have hpieces := (ha _ List.prefix_rfl).accepted_ordered.2
  have hcut : ¬ List.IsChain Follows ([⟨.input, 0, true, 0x61⟩, ⟨.keys, 0, true, 0x63⟩,
      ⟨.input, 1, false, 0x62⟩] : List (Item ByteSource UInt8)) := by
    simp [Follows]
  exact hcut hpieces

end PtyWatch

end Ferrokey.Terminal
