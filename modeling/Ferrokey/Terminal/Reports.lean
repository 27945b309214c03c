import Ferrokey.Terminal.PtyOrder
import Ferrokey.Terminal.Reached
import Mathlib.Data.List.Perm.Subperm

/-! # What a terminal says of its own accord

Some sequences make the terminal answer, and the program reads the answers as if they had been
typed. Whatever is printed, the answers are reports of a few forms, and nothing that was printed
is in them.
-/

set_option linter.dupNamespace false

namespace Ferrokey.Terminal

open Machine Machine.Item

/-- What a terminal can be made to say. -/
inductive Report where
  | attributes
  | ready
  | cursor (pos : Pos)
  deriving DecidableEq, Repr

namespace Report

def bytes : Report → List UInt8
  | .attributes => 0x1B :: Protocol.asBytes "[?1;2c"
  | .ready => 0x1B :: Protocol.asBytes "[0n"
  | .cursor pos => 0x1B :: Protocol.asBytes s!"[{pos.row + 1};{pos.col + 1}R"

/-- The cursor is reported on a screen of one of some sizes. -/
def Within (sizes : List Winsize) : Report → Prop
  | .cursor pos => ∃ size ∈ sizes, pos.row < size.rows ∧ pos.col < size.cols
  | _ => True

end Report

/-- Bytes that are reports, one after the other. -/
def Reported (sizes : List Winsize) (bytes : List UInt8) : Prop :=
  ∃ reports : List Report, bytes = reports.flatMap Report.bytes ∧ ∀ r ∈ reports, r.Within sizes

section

variable {sizes : List Winsize}

theorem reported_nil : Reported sizes [] := ⟨[], rfl, by simp⟩

theorem Report.Within.reported {r : Report} (h : r.Within sizes) : Reported sizes r.bytes :=
  ⟨[r], by simp, by simpa using h⟩

theorem Reported.append {bytes bytes' : List UInt8} (h : Reported sizes bytes)
    (h' : Reported sizes bytes') : Reported sizes (bytes ++ bytes') := by
  obtain ⟨rs, rfl, hrs⟩ := h
  obtain ⟨rs', rfl, hrs'⟩ := h'
  exact ⟨rs ++ rs', by simp, fun r hr => (List.mem_append.mp hr).elim (hrs r) (hrs' r)⟩

end

/-! ### What operations answer -/

/-- An answer of an operation does not come from what was printed. -/
def Operation.Official : Operation → Prop
  | .set (.respond bytes) => bytes = Report.attributes.bytes ∨ bytes = Report.ready.bytes
  | _ => True

theorem privateCodeOps_official (code : ℕ) (set : Bool) :
    ∀ op ∈ privateCodeOps code set, op.Official := by
  unfold privateCodeOps
  split
  next mode _ => cases mode <;> cases set <;> simp [privateModeOps, Operation.Official]
  next => simp

theorem ansiCodeOps_official (code : ℕ) (set : Bool) :
    ∀ op ∈ ansiCodeOps code set, op.Official := by
  unfold ansiCodeOps
  split <;> simp [Operation.Official]

theorem flatMap_official {f : ℕ → List Operation} (h : ∀ code, ∀ op ∈ f code, op.Official)
    (codes : List ℕ) : ∀ op ∈ codes.flatMap f, op.Official := by
  intro op hmem
  obtain ⟨code, -, hop⟩ := List.mem_flatMap.mp hmem
  exact h code op hop

theorem attributesOp_official : attributesOp.Official := .inl rfl

theorem csiFinalOps_official (c : Csi) : ∀ op ∈ csiFinalOps c, op.Official := by
  unfold csiFinalOps
  dsimp only
  split
  case h_13 | h_22 | h_23 =>
    intro op hmem
    rw [List.eq_of_mem_replicate hmem]
    trivial
  case h_14 =>
    unfold eraseDisplayOps
    split <;> simp [Operation.Official]
  case h_26 =>
    unfold clearTabOps
    split <;> simp [Operation.Official]
  case h_27 | h_28 => exact flatMap_official (fun code => ansiCodeOps_official code _) _
  case h_24 => split_ifs <;> simp [attributesOp_official]
  case h_30 => split_ifs <;> simp [Operation.Official, Report.bytes]
  case h_31 | h_32 | h_33 | h_34 => split_ifs <;> simp [softResetOps, Operation.Official]
  all_goals simp [Operation.Official]

theorem operations_official (a : ParserAction) : ∀ op ∈ operations a, op.Official := by
  cases a with
  | control code =>
    cases code <;> simp [operations, controlOps, reverseIndexOps, Operation.Official]
  | esc seq =>
    cases seq with
    | decid => simp [operations, escOps, attributesOp_official]
    | lineAttributes byte =>
      simp only [operations, escOps]
      split <;> simp [Operation.Official]
    | _ =>
      simp [operations, escOps, reverseIndexOps, fullResetOps, softResetOps, Operation.Official]
  | csi c =>
    simp only [operations, csiOps]
    split
    · exact flatMap_official (fun code => privateCodeOps_official code _) _
    · split
      · simp [Operation.Official]
      · split
        · simp [Operation.Official]
        · exact csiFinalOps_official c
  | _ => simp [operations, Operation.Official]

namespace Terminal

/-- The sizes of the screens: of the active one, and of the one that was put away. -/
def sizes (t : Terminal) : List Winsize :=
  t.sizeInCells :: (t.saved.map fun g => Winsize.mk g.cols g.rowCount).toList

variable {t t' t'' : Terminal} {tables : UnicodeTables} {sizes : List Winsize}

theorem Sizes.sizes_subset {c r c₀ r₀ : ℕ} (h : t.Sizes c r c₀ r₀) (hactive : ⟨c, r⟩ ∈ sizes)
    (haway : ⟨c₀, r₀⟩ ∈ sizes) : t.sizes ⊆ sizes := by
  rintro size hsize
  rw [Terminal.sizes, sizeInCells, h.grid.cols_eq, h.grid.rowCount_eq, List.mem_cons,
    Option.mem_toList, Option.map_eq_some_iff] at hsize
  obtain rfl | ⟨g, hg, rfl⟩ := hsize
  · exact hactive
  · rwa [(h.saved g hg).cols_eq, (h.saved g hg).rowCount_eq]

/-- The screens have their sizes, and a screen that is not there has any. -/
theorem Valid.exists_sizes (h : t.Valid) :
    ∃ c r c₀ r₀, t.Sizes c r c₀ r₀ ∧ ⟨c, r⟩ ∈ t.sizes ∧ ⟨c₀, r₀⟩ ∈ t.sizes := by
  obtain ⟨c, r, c₀, r₀, hs⟩ := h.sizes
  have hactive : ⟨c, r⟩ ∈ t.sizes := by
    simp [Terminal.sizes, sizeInCells, hs.grid.cols_eq, hs.grid.rowCount_eq]
  cases hsaved : t.saved with
  | none =>
    have hmain : t.altGrid = false := by rw [hs.altGrid, hsaved, Option.isSome_none]
    exact ⟨c, r, c, r, hs.main hmain c r, hactive, hactive⟩
  | some g =>
    have hg := hs.saved g hsaved
    refine ⟨c, r, c₀, r₀, hs, hactive, ?_⟩
    simp [Terminal.sizes, hsaved, hg.cols_eq, hg.rowCount_eq]

/-- No operation brings about a screen of another size. -/
theorem operate_sizes_subset (h : t.Valid) {op : Operation}
    (hop : t.operate tables op = some t') : t'.sizes ⊆ t.sizes := by
  obtain ⟨c, r, c₀, r₀, hs, hactive, haway⟩ := h.exists_sizes
  obtain ⟨t₁, ht₁, -, hsizes⟩ := operate_sizes hs tables op
  obtain rfl := Option.some_inj.mp (hop.symm.trans ht₁)
  obtain hs' | hs' | hs' := hsizes
  · exact hs'.sizes_subset hactive haway
  · exact hs'.sizes_subset hactive hactive
  · exact hs'.sizes_subset haway haway

/-- Reports are added behind the answers that wait, if anything is. -/
def Reports (sizes : List Winsize) (t t' : Terminal) : Prop :=
  ∃ bytes, Reported sizes bytes ∧ t'.response = t.response ++ bytes

theorem Reports.of_eq (h : t'.response = t.response) : Reports sizes t t' :=
  ⟨[], reported_nil, by simpa using h⟩

theorem Reports.trans (h : Reports sizes t t') (h' : Reports sizes t' t'') :
    Reports sizes t t'' := by
  obtain ⟨bytes, hb, ht⟩ := h
  obtain ⟨bytes', hb', ht'⟩ := h'
  exact ⟨bytes ++ bytes', hb.append hb', by rw [ht', ht, List.append_assoc]⟩

theorem queueResponse_reports {r : Report} (h : r.Within sizes) :
    Reports sizes t (t.queueResponse r.bytes) := by
  unfold queueResponse
  split
  · exact .of_eq rfl
  · exact ⟨r.bytes, h.reported, rfl⟩

/-- The cursor that is reported is on the screen that is active then. -/
theorem set_reports (h : t.Valid) (hsizes : t.sizes ⊆ sizes) {s : Setting}
    (hs : (Operation.set s).Official) : Reports sizes t (t.set s) := by
  cases s with
  | respond bytes =>
    rcases hs with rfl | rfl
    · exact queueResponse_reports (r := .attributes) trivial
    · exact queueResponse_reports (r := .ready) trivial
  | reportCursor =>
    obtain ⟨c, r, c₀, r₀, hs⟩ := h.sizes
    have hcursor := hs.grid.cursor
    rw [← hs.grid.cols_eq, ← hs.grid.rowCount_eq] at hcursor
    have hactive : t.sizeInCells ∈ sizes := hsizes List.mem_cons_self
    exact queueResponse_reports (r := .cursor t.grid.cursor) ⟨_, hactive, hcursor⟩
  | softReset =>
    refine .of_eq ?_
    simp only [set, selectionClear]
    split <;> rfl
  | osc payload =>
    refine .of_eq ?_
    simp only [set, osc]
    repeat' split
    all_goals rfl
  | _ => exact .of_eq rfl

theorem onGrid_response {f : Grid → Option Grid} (h : t.onGrid f = some t') :
    t'.response = t.response := by
  obtain ⟨grid, -, ht'⟩ := Option.bind_eq_some_iff.mp h
  cases ht'
  rfl

theorem scrolling_response {f : Grid → Option (Grid × Option Line)}
    (h : t.scrolling f = some t') : t'.response = t.response := by
  obtain ⟨_, _, _, _, -, rfl⟩ := scrolling_eq h
  rfl

theorem restoreCursor_response (h : t.restoreCursor = some t') : t'.response = t.response := by
  obtain ⟨t₁, hgrid, ht'⟩ := Option.bind_eq_some_iff.mp h
  cases ht'
  have hresponse : t₁.response = t.response := onGrid_response hgrid
  exact hresponse

theorem operate_reports (h : t.Valid) (hsizes : t.sizes ⊆ sizes) {op : Operation}
    (hofficial : op.Official) (hop : t.operate tables op = some t') : Reports sizes t t' := by
  cases op with
  | set s =>
    cases hop
    exact set_reports h hsizes hofficial
  | motion m => exact .of_eq (onGrid_response (f := (·.move m)) hop)
  | edit e => exact .of_eq (onGrid_response (f := (·.edit e)) hop)
  | print ch => exact .of_eq (scrolling_response (f := (·.print tables ch t.attrs)) hop)
  | printLast =>
    simp only [operate] at hop
    split at hop
    next ch _ => exact .of_eq (scrolling_response (f := (·.print tables ch t.attrs)) hop)
    next =>
      cases hop
      exact .of_eq rfl
  | lineFeed => exact .of_eq (scrolling_response (f := (·.lineFeed)) hop)
  | index => exact .of_eq (scrolling_response (f := (·.index)) hop)
  | nextLine => exact .of_eq (scrolling_response (f := (·.nextLine)) hop)
  | scrollUp n =>
    simp only [operate, scrollUpLines, Option.bind_eq_bind, Option.bind_eq_some_iff,
      Option.some.injEq] at hop
    obtain ⟨full, -, ⟨grid, lines⟩, -, rfl⟩ := hop
    obtain ⟨s, v, hpush⟩ := pushAll_eq { t with grid } (if full then lines else [])
    exact .of_eq (by rw [hpush])
  | pullBack =>
    simp only [operate, restoreFromScrollback] at hop
    split at hop
    next scrollback line _ =>
      exact .of_eq (onGrid_response (t := { t with scrollback }) hop)
    next =>
      cases hop
      exact .of_eq rfl
  | clearHistory =>
    cases hop
    exact .of_eq rfl
  | enterAlt save =>
    simp only [operate, enterAltScreen] at hop
    split at hop
    · cases hop
      exact .of_eq rfl
    · split at hop
      · cases hop
        cases save <;> exact .of_eq rfl
      · cases hop
  | exitAlt restore =>
    simp only [operate, exitAltScreen] at hop
    split_ifs at hop
    · exact .of_eq (restoreCursor_response (t := t.leaveAltScreen) hop)
    · cases hop
      exact .of_eq rfl
    · cases hop
      exact .of_eq rfl
  | saveCursor =>
    cases hop
    exact .of_eq rfl
  | restoreCursor => exact .of_eq (restoreCursor_response hop)

theorem operateAll_reports (h : t.Valid) (hsizes : t.sizes ⊆ sizes) {ops : List Operation}
    (hofficial : ∀ op ∈ ops, op.Official) (hops : t.operateAll tables ops = some t') :
    Reports sizes t t' ∧ t'.sizes ⊆ sizes := by
  induction ops generalizing t with
  | nil =>
    cases hops
    exact ⟨.of_eq rfl, hsizes⟩
  | cons op ops ih =>
    obtain ⟨hop, hrest⟩ := List.forall_mem_cons.mp hofficial
    rw [operateAll_cons] at hops
    obtain ⟨t₁, ht₁, hops⟩ := Option.bind_eq_some_iff.mp hops
    obtain ⟨t₂, ht₂, -, hvalid⟩ := operate_valid h tables op
    obtain rfl := Option.some_inj.mp (ht₁.symm.trans ht₂)
    have hsizes₁ := List.Subset.trans (operate_sizes_subset h ht₁) hsizes
    obtain ⟨hreports, hend⟩ := ih hvalid hsizes₁ hrest hops
    exact ⟨(operate_reports h hsizes hop ht₁).trans hreports, hend⟩

theorem settle_sizes (t : Terminal) (synced : Bool) : (t.settle synced).sizes = t.sizes := by
  cases synced with
  | true => rfl
  | false =>
    simp only [settle, Bool.false_eq_true, if_false, markDirtyFromGrid]
    split <;> rfl

theorem feed_reports (h : t.Valid) (hsizes : t.sizes ⊆ sizes) {bytes : List UInt8}
    (hfeed : t.feed tables bytes = some t') : Reports sizes t t' ∧ t'.sizes ⊆ sizes := by
  rw [feed_eq] at hfeed
  obtain ⟨t₁, hops, rfl⟩ := Option.map_eq_some_iff.mp hfeed
  have hofficial : ∀ op ∈ t.feedOps bytes, op.Official := by
    intro op hop
    obtain ⟨a, -, hop⟩ := List.mem_flatMap.mp hop
    exact operations_official a op hop
  obtain ⟨c, r, c₀, r₀, hs⟩ := h.sizes
  have hvalid := h.of_quiet hs (receive_quiet hs.grid bytes)
  obtain ⟨hreports, hend⟩ := operateAll_reports hvalid hsizes hofficial hops
  exact ⟨hreports.trans (.of_eq (settle_response t₁ _)), settle_sizes t₁ _ ▸ hend⟩

/-- Bytes from the program lead to reports. -/
theorem answersTo_reported (h : t.Valid) (hsizes : t.sizes ⊆ sizes) (tables : UnicodeTables)
    (bytes : List UInt8) : Reported sizes (t.answersTo tables bytes).flatten := by
  obtain ⟨t', hfeed, hanswers⟩ := feed_response h tables bytes
  obtain ⟨⟨reports, hreported, hresponse⟩, -⟩ := feed_reports h hsizes hfeed
  rwa [← List.append_cancel_left (hresponse.symm.trans hanswers)]

end Terminal

/-! ### What the program is given -/

/-- Whatever the system answers, nothing is written or left over that was not there. -/
theorem writeLoop_sublist {α : Type} (answers : List WriteAnswer) (items : List α) :
    ((writeLoop answers items).1 ++ (writeLoop answers items).2.1).Sublist items := by
  fun_induction writeLoop answers items with
  | case4 n answers bytes hne out kept answers' hout ih =>
    rw [hout] at ih
    have hsplit := (List.Sublist.refl (bytes.take (n + 1))).append ih
    simpa using hsplit
  | _ => simp

/-- The first parts of some lists are moved ahead of the second ones. -/
theorem subperm_of_parts {α : Type} [DecidableEq α] (a : List α)
    {xs ys zs x₁ x₂ y₁ y₂ z₁ z₂ : List α} (hx : (x₁ ++ x₂).Sublist xs) (hy : (y₁ ++ y₂).Sublist ys)
    (hz : (z₁ ++ z₂).Sublist zs) :
    (a ++ x₁ ++ y₁ ++ z₁ ++ (x₂ ++ y₂ ++ z₂ ++ [] ++ [])).Subperm (a ++ (xs ++ ys ++ zs)) := by
  refine List.subperm_ext_iff.mpr fun v _ => ?_
  have hcount := And.intro (hx.count_le v) (And.intro (hy.count_le v) (hz.count_le v))
  simp only [List.count_append, List.count_nil] at hcount ⊢
  omega

namespace PtyLedger

variable {l : PtyLedger}

/-- Every byte that was accepted or waits was queued, and is not there more often than queued. -/
def Owes (l : PtyLedger) : Prop := (l.accepted ++ l.waiting).Subperm l.queued

/-- What a source has queued. -/
def bytesOf (l : PtyLedger) (s : ByteSource) : List UInt8 := (ofSource s l.queued).map (·.value)

/-- More is queued, and waits somewhere. -/
theorem Owes.queue {l' : PtyLedger} (h : l.Owes) {items : List (Item ByteSource UInt8)}
    (hqueued : l'.queued = l.queued ++ items)
    (hwaits : (l'.accepted ++ l'.waiting).Perm (l.accepted ++ l.waiting ++ items)) : l'.Owes := by
  rw [Owes, hqueued]
  exact hwaits.subperm.trans (h.append (.refl items))

theorem queueInput_owes (h : l.Owes) (bytes : List UInt8) : (l.queueInput bytes).Owes := by
  refine h.queue rfl (List.perm_iff_count.mpr fun x => ?_)
  simp only [waiting, queueInput, List.count_append]
  omega

theorem queueKeys_owes (h : l.Owes) (bytes : List UInt8) : (l.queueKeys bytes).Owes := by
  refine h.queue rfl (List.perm_iff_count.mpr fun x => ?_)
  simp only [waiting, queueKeys, List.count_append]
  omega

theorem queueAnswers_owes (h : l.Owes) (answers : List (List UInt8)) :
    (answers.foldl queueAnswer l).Owes := by
  induction answers generalizing l with
  | nil => exact h
  | cons bytes answers ih =>
    refine ih (h.queue rfl (List.perm_iff_count.mpr fun x => ?_))
    simp only [waiting, queueAnswer, List.count_append]
    omega

theorem flush_owes (h : l.Owes) (answers : List WriteAnswer) : (l.flush answers).Owes :=
  (subperm_of_parts l.accepted (writeLoop_sublist answers l.pending) (writeLoop_sublist _ l.keys)
    (writeLoop_sublist _ l.response)).trans h

theorem bytesOf_queue (s s' : ByteSource) (bytes : List UInt8) :
    (ofSource s' (l.queued ++ l.blockOf s bytes)).map (·.value) =
      l.bytesOf s' ++ if s' = s then bytes else [] := by
  rw [ofSource_append, List.map_append, bytesOf, blockOf, ofSource_block]
  split
  next => rw [block, map_value_number]
  next => rfl

/-- Answers are all that their source queues. -/
theorem queueAnswers_bytesOf (l : PtyLedger) (answers : List (List UInt8)) (s : ByteSource) :
    (answers.foldl queueAnswer l).bytesOf s =
      l.bytesOf s ++ if s = .answers then answers.flatten else [] := by
  induction answers generalizing l with
  | nil => simp
  | cons bytes answers ih =>
    have hone : (l.queueAnswer bytes).bytesOf s =
        l.bytesOf s ++ if s = .answers then bytes else [] := bytesOf_queue .answers s bytes
    rw [List.foldl_cons, ih, hone, List.append_assoc]
    split <;> simp

end PtyLedger

namespace PtyWatch

/-- The bytes that a call sends, and those that it types. -/
def sentBytes : TerminalOp → List UInt8
  | .sendInput bytes => bytes
  | _ => []

def typedBytes : TerminalOp → List UInt8
  | .keyInput encoded => encoded
  | _ => []

/-- Input and keys are queued, the queues are written, and what the program prints is fed. -/
def Served : TerminalOp → Prop
  | .sendInput _ | .keyInput _ | .feed _ | .flush _ => True
  | _ => False

/-- The bytes that were accepted and those that wait come from some calls: they were sent, or
typed, or are reports. The screens have some sizes and no others. -/
structure Accounts (sizes : List Winsize) (ops : List TerminalOp) (s : PtyWatch) : Prop where
  watch : s.Matches
  screens : s.terminal.sizes ⊆ sizes
  owes : s.ledger.Owes
  sent : (s.ledger.bytesOf .input).Sublist (ops.flatMap sentBytes)
  typed : (s.ledger.bytesOf .keys).Sublist (ops.flatMap typedBytes)
  reported : Reported sizes (s.ledger.bytesOf .answers)

variable {tables : UnicodeTables} {s : PtyWatch} {ops : List TerminalOp} {sizes : List Winsize}

theorem growth_sublist_sendInput (t : Terminal) (bytes : List UInt8) :
    (growth t.writeBuf (t.sendInput bytes).1.writeBuf).Sublist bytes := by
  unfold Terminal.sendInput
  repeat' split
  all_goals simp [growth]

theorem growth_sublist_keyInput (t : Terminal) (encoded : List UInt8) :
    (growth (t.inputSource.getD []) ((t.keyInput encoded).1.inputSource.getD [])).Sublist
      encoded := by
  cases hsource : t.inputSource with
  | none => simp [Terminal.keyInput, hsource, growth]
  | some write =>
    simp only [Terminal.keyInput, hsource, Option.getD_some, PtySink.send]
    split <;> simp [growth]

/-- A call adds to what its source has queued. -/
theorem Accounts.step (h : Accounts sizes ops s) {s' : PtyWatch} {op : TerminalOp}
    (added : ByteSource → List UInt8) (hm : s'.Matches) (hscreens : s'.terminal.sizes ⊆ sizes)
    (ho : s'.ledger.Owes)
    (hadded : ∀ source, s'.ledger.bytesOf source = s.ledger.bytesOf source ++ added source)
    (hsent : (added .input).Sublist (sentBytes op)) (htyped : (added .keys).Sublist (typedBytes op))
    (hreported : Reported sizes (added .answers)) : Accounts sizes (ops ++ [op]) s' where
  watch := hm
  screens := hscreens
  owes := ho
  sent := by
    rw [hadded, List.flatMap_append]
    exact h.sent.append (by simpa using hsent)
  typed := by
    rw [hadded, List.flatMap_append]
    exact h.typed.append (by simpa using htyped)
  reported := by
    rw [hadded]
    exact h.reported.append hreported

/-- The calls bring about no screens of other sizes. -/
theorem step_screens (tables : UnicodeTables) (h : Accounts sizes ops s) {op : TerminalOp}
    (hop : Served op) : (s.step tables op).1.terminal.sizes ⊆ sizes := by
  cases op with
  | sendInput bytes =>
    rw [(step_of_eq tables s (.sendInput bytes) rfl).1, Terminal.sendInput_eq]
    exact h.screens
  | keyInput encoded =>
    rw [(step_of_eq tables s (.keyInput encoded) rfl).1, Terminal.keyInput_eq]
    exact h.screens
  | feed bytes =>
    have hvalid := s.valid.valid
    obtain ⟨t, hfeed, -⟩ := Terminal.feed_valid hvalid tables bytes
    have hperform : s.terminal.perform tables (.feed bytes) = some (t, .done) := by
      simp [Terminal.perform, terminal, hfeed]
    rw [(step_of_eq tables s (.feed bytes) hperform).1]
    exact (Terminal.feed_reports hvalid h.screens hfeed).2
  | flush answers =>
    rw [(step_of_eq tables s (.flush answers) rfl).1, Terminal.flush_eq h.watch.session]
    exact h.screens
  | _ => cases hop

theorem step_accounts (h : Accounts sizes ops s) {op : TerminalOp} (hop : Served op) :
    Accounts sizes (ops ++ [op]) (s.step tables op).1 := by
  have hscreens := step_screens tables h hop
  cases op with
  | sendInput bytes =>
    refine h.step _ (step_sendInput_matches h.watch bytes) hscreens
      (PtyLedger.queueInput_owes h.owes _)
      (fun source => PtyLedger.bytesOf_queue .input source _) ?_ ?_ ?_
    · exact growth_sublist_sendInput s.terminal bytes
    · exact .refl []
    · exact reported_nil
  | keyInput encoded =>
    refine h.step _ (step_keyInput_matches h.watch encoded) hscreens
      (PtyLedger.queueKeys_owes h.owes _)
      (fun source => PtyLedger.bytesOf_queue .keys source _) ?_ ?_ ?_
    · exact .refl []
    · exact growth_sublist_keyInput s.terminal encoded
    · exact reported_nil
  | feed bytes =>
    refine h.step _ (step_feed_matches h.watch bytes) hscreens
      (PtyLedger.queueAnswers_owes h.owes _) (PtyLedger.queueAnswers_bytesOf _ _) ?_ ?_ ?_
    · exact .refl []
    · exact .refl []
    · exact Terminal.answersTo_reported s.valid.valid h.screens tables bytes
  | flush answers =>
    refine h.step (fun _ => []) (step_flush_matches h.watch answers) hscreens
      (PtyLedger.flush_owes h.owes answers) (fun source => (List.append_nil _).symm) ?_ ?_ ?_
    · exact .refl []
    · exact .refl []
    · exact reported_nil
  | _ => cases hop

/-- Whatever a program prints and whatever the system answers, each byte that the program is given
was sent, or typed, or belongs to a report, and none is given more often than it was queued. A
cursor is reported on a screen of a size that a screen of the terminal has. -/
theorem accounts_of_run {v : ValidTerminal} (hsession : v.terminal.pty.isSome = true)
    (hpending : v.terminal.writeBuf = []) (hkeys : v.terminal.inputSource.getD [] = [])
    (hresponse : v.terminal.response = []) (tables : UnicodeTables) {ops : List TerminalOp}
    (hops : ∀ op ∈ ops, Served op) :
    Accounts v.terminal.sizes ops (run (step tables) (start v) ops) := by
  induction ops using List.reverseRecOn with
  | nil =>
    exact ⟨⟨hsession, rfl, hpending.symm, hkeys.symm, hresponse.symm, PtyLedger.empty_sound⟩,
      .refl _, .refl _, .refl _, .refl _, reported_nil⟩
  | append_singleton ops op ih =>
    obtain ⟨hbefore, hlast⟩ := List.forall_mem_append.mp hops
    rw [run_append]
    exact step_accounts (ih hbefore) (hlast op List.mem_cons_self)

/-- The program asks for the cursor, a key is typed, and the system fails after one byte. -/
theorem accounts_of_run_cursorAsked :
    let ops : List TerminalOp :=
      [.feed [0x1B, 0x5B, 0x36, 0x6E], .keyInput [0x61], .flush [.accepted 1, .failed],
        .sendInput [0x62], .flush [.accepted 1]]
    ∃ v : ValidTerminal, Terminal.shared = some v.terminal ∧
      Accounts v.terminal.sizes ops (run (step Terminal.asciiTables) (start v) ops) :=
  ⟨⟨_, Terminal.shared_valid rfl⟩, rfl,
    accounts_of_run rfl rfl rfl rfl Terminal.asciiTables (by simp [Served])⟩

end PtyWatch

end Ferrokey.Terminal
