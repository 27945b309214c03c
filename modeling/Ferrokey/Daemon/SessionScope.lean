import Ferrokey.Collections.Text

/-! # The session scope of a process

The login session of a process is read off its cgroup: the last component of one of its
cgroup paths is the session's scope. The code looks for that component behind the last
colon of a line and after trimming it, so a path can be made to end in a scope name that
is not its last component.
-/

namespace Ferrokey.Daemon

open Text

/-- `session-N.scope` with decimal digits for `N`. The prefix and the suffix cannot overlap,
so the slice between them is in range. -/
def isValidSessionScope (s : List Char) : Bool :=
  if !("session-".toList.isPrefixOf s) || !(".scope".toList.isSuffixOf s) then false
  else
    let digits := (s.take (s.length - 6)).drop 8
    !digits.isEmpty && digits.all Char.isDigit

/-- The scope that a line of a cgroup file names: its last component behind its last colon. -/
def scopeOfLine (line : List Char) : Option String :=
  let line := trim line
  if line.isEmpty then none
  else
    let path := afterLast ':' line
    let component := afterLast '/' path
    if isValidSessionScope component then some (String.ofList component) else none

def scopeFromCgroup (text : String) : Option String := (lines text.toList).findSome? scopeOfLine

/-- A line of a cgroup file: an identifier and controllers, both without colons, and a path. -/
def IsEntry (line path : List Char) : Prop :=
  ∃ id controllers, ':' ∉ id ∧ ':' ∉ controllers ∧
    line = id ++ ':' :: (controllers ++ ':' :: path) ∧ ∃ rest, path = '/' :: rest

def lastComponent (path : List Char) : List Char := afterLast '/' path

/-- Up to white space, the text ends in a scope name behind a colon or a slash. -/
def Reads (line name : List Char) : Prop :=
  isValidSessionScope name = true ∧ ∃ pre sep ws, (sep = ':' ∨ sep = '/') ∧
    (∀ c ∈ ws, isWhitespace c = true) ∧ line = pre ++ sep :: (name ++ ws)

/-- The path ends in a scope name that is not its last component: a colon stands before the
name, or white space behind it. -/
def Forged (path name : List Char) : Prop :=
  isValidSessionScope name = true ∧ ∃ pre ws, (∀ c ∈ ws, isWhitespace c = true) ∧
    (path = pre ++ ':' :: (name ++ ws) ∨ ws ≠ [] ∧ path = pre ++ '/' :: (name ++ ws))

section

variable {s line path name : List Char}

theorem isValidSessionScope_iff : isValidSessionScope s = true ↔
    ∃ digits, s = "session-".toList ++ (digits ++ ".scope".toList) ∧ digits ≠ [] ∧
      ∀ c ∈ digits, c.isDigit = true := by
  unfold isValidSessionScope
  constructor
  · intro h
    split at h
    · cases h
    next hn =>
    simp only [Bool.or_eq_true, Bool.not_eq_true', not_or, Bool.not_eq_false,
      List.isPrefixOf_iff_prefix, List.isSuffixOf_iff_suffix] at hn
    obtain ⟨⟨r, hr⟩, q, hq⟩ := hn
    simp only [Bool.and_eq_true, Bool.not_eq_true', List.all_eq_true, List.isEmpty_eq_false_iff]
      at h
    refine ⟨(s.take (s.length - 6)).drop 8, ?_, h⟩
    have hlen : 8 ≤ s.length - 6 := by
      have hp := List.length_pos_iff.mpr h.1
      rw [List.length_drop, List.length_take] at hp
      omega
    have hpre : (s.take (s.length - 6)).take 8 = "session-".toList := by
      rw [List.take_take, Nat.min_eq_left hlen, ← hr]
      exact List.take_left' rfl
    have hsuf : s.drop (s.length - 6) = ".scope".toList := by
      rw [← hq]
      exact List.drop_left' (by simp)
    rw [← hpre, ← hsuf, ← List.append_assoc, List.take_append_drop, List.take_append_drop]
  · rintro ⟨digits, rfl, hd, hall⟩
    have hp : "session-".toList.isPrefixOf ("session-".toList ++ (digits ++ ".scope".toList)) :=
      List.isPrefixOf_iff_prefix.mpr (List.prefix_append _ _)
    have hs : ".scope".toList.isSuffixOf ("session-".toList ++ (digits ++ ".scope".toList)) := by
      rw [List.isSuffixOf_iff_suffix, ← List.append_assoc]
      exact List.suffix_append _ _
    have hdig : (("session-".toList ++ (digits ++ ".scope".toList)).take
        (("session-".toList ++ (digits ++ ".scope".toList)).length - 6)).drop 8 = digits := by
      have hl : ("session-".toList ++ (digits ++ ".scope".toList)).length - 6 =
          ("session-".toList ++ digits).length := by simp
      rw [hl, ← List.append_assoc, List.take_left]
      exact List.drop_left' rfl
    rw [hp, hs, hdig]
    simpa [hd] using hall

/-- A scope name has no separator and no white space. -/
theorem of_mem_scope (h : isValidSessionScope name = true) {c : Char} (hc : c ∈ name) :
    c ≠ ':' ∧ c ≠ '/' ∧ isWhitespace c = false := by
  obtain ⟨digits, rfl, -, hall⟩ := isValidSessionScope_iff.mp h
  have hplain : ("session-".toList ++ ".scope".toList).all
      (fun c => decide (c ≠ ':' ∧ c ≠ '/' ∧ isWhitespace c = false)) = true := rfl
  have hfix : ∀ c ∈ "session-".toList ++ ".scope".toList,
      c ≠ ':' ∧ c ≠ '/' ∧ isWhitespace c = false :=
    fun c hc => of_decide_eq_true (List.all_eq_true.mp hplain c hc)
  rw [List.mem_append, List.mem_append] at hc
  rcases hc with hc | hc | hc
  · exact hfix c (List.mem_append_left _ hc)
  · have hd := hall c hc
    simp only [Char.isDigit, Bool.and_eq_true, decide_eq_true_eq, UInt32.le_iff_toNat_le] at hd
    have hd : 48 ≤ c.toNat ∧ c.toNat ≤ 57 := hd
    refine ⟨?_, ?_, ?_⟩
    · rintro rfl
      exact absurd hd (by decide)
    · rintro rfl
      exact absurd hd (by decide)
    · simp [isWhitespace]
      omega
  · exact hfix c (List.mem_append_right _ hc)

theorem scope_ne_nil (h : isValidSessionScope name = true) : name ≠ [] := by
  rintro rfl
  exact absurd h (by decide)

/-- Reading the last component behind the last colon finds a name behind either separator. -/
theorem component_eq {pre : List Char} {sep : Char} (hv : isValidSessionScope name = true)
    (hs : sep = ':' ∨ sep = '/') : afterLast '/' (afterLast ':' (pre ++ sep :: name)) = name := by
  have hc : ':' ∉ name := fun h => (of_mem_scope hv h).1 rfl
  have hd : '/' ∉ name := fun h => (of_mem_scope hv h).2.1 rfl
  rcases hs with rfl | rfl
  · rw [afterLast_append_cons hc, afterLast_of_not_mem hd]
  · have hc' : ':' ∉ '/' :: name := by simpa using hc
    rw [afterLast_append _ hc', afterLast_append_cons hd]

/-- A line with a colon names the scope that it reads as. -/
theorem scopeOfLine_eq_some_iff (hl : ':' ∈ line) {scope : String} :
    scopeOfLine line = some scope ↔ Reads line scope.toList := by
  constructor
  · intro h
    simp only [scopeOfLine] at h
    split at h
    · cases h
    split at h
    · next hv =>
      cases h
      rw [String.toList_ofList]
      refine ⟨hv, ?_⟩
      obtain ⟨lead, ws, hline, hlead, hws⟩ := exists_append_trim line
      have hwhite : isWhitespace ':' = false := rfl
      obtain ⟨hnot, hself | ⟨pre, hpre⟩⟩ := afterLast_cases ':' (trim line)
      · -- a colon that the trimmed line does not have would be white space
        rw [hself] at hnot
        rw [hline, List.mem_append, List.mem_append] at hl
        rcases hl with hl | hl | hl
        · exact absurd ((hlead _ hl).symm.trans hwhite) Bool.noConfusion
        · exact absurd hl hnot
        · exact absurd ((hws _ hl).symm.trans hwhite) Bool.noConfusion
      · rcases (afterLast_cases '/' (afterLast ':' (trim line))).2 with hs | ⟨pre', hpre'⟩
        · refine ⟨lead ++ pre, ':', ws, Or.inl rfl, hws, ?_⟩
          rw [hs]
          rw [hpre] at hline
          simpa using hline
        · refine ⟨lead ++ pre ++ ':' :: pre', '/', ws, Or.inr rfl, hws, ?_⟩
          have ht : trim line =
              pre ++ ':' :: (pre' ++ '/' :: afterLast '/' (afterLast ':' (trim line))) := by
            rw [← hpre', ← hpre]
          rw [ht] at hline
          simpa using hline
    · cases h
  · rintro ⟨hv, pre, sep, ws, hs, hws, rfl⟩
    have hne := scope_ne_nil hv
    have hsep : isWhitespace sep = false := by rcases hs with rfl | rfl <;> rfl
    have ht : trim (pre ++ sep :: (scope.toList ++ ws)) =
        pre.dropWhile isWhitespace ++ sep :: scope.toList := by
      rw [← List.cons_append, ← List.append_assoc, trim_append_white _ hws]
      exact trim_append_cons hsep hne (of_mem_scope hv (List.getLast_mem hne)).2.2
    simp only [scopeOfLine, ht, component_eq hv hs, hv, String.ofList_toList, if_true]
    rw [if_neg (by simp)]

theorem scopeFromCgroup_eq (text : String) :
    scopeFromCgroup text = (rawLines text.toList).findSome? scopeOfLine := by
  have hf : scopeOfLine = (fun t => if t.isEmpty then none else
      if isValidSessionScope (afterLast '/' (afterLast ':' t)) then
        some (String.ofList (afterLast '/' (afterLast ':' t))) else none) ∘ trim := rfl
  rw [scopeFromCgroup, hf, ← List.findSome?_map, ← List.findSome?_map, map_trim_lines]

theorem IsEntry.colon_mem (h : IsEntry line path) : ':' ∈ line := by
  obtain ⟨id, controllers, -, -, rfl, -⟩ := h
  simp

/-- What a line reads as stands at the end of its path. -/
theorem IsEntry.reads_iff (h : IsEntry line path) : Reads line name ↔ Reads path name := by
  obtain ⟨id, controllers, -, -, rfl, rest, rfl⟩ := h
  constructor
  · rintro ⟨hv, pre, sep, ws, hs, hws, he⟩
    have he' : (id ++ ':' :: (controllers ++ [':'])) ++ '/' :: rest =
        pre ++ sep :: (name ++ ws) := by simpa using he
    rcases List.append_eq_append_iff.mp he' with ⟨post, rfl, hp⟩ | ⟨post, -, hp⟩
    · exact ⟨hv, post, sep, ws, hs, hws, hp⟩
    · cases post with
      | nil => exact ⟨hv, [], sep, ws, hs, hws, hp.symm⟩
      | cons c post =>
        -- the slash before the path would be inside the name or the white space
        have hmem : '/' ∈ name ++ ws := by
          rw [(List.cons.inj hp).2]
          simp
        rcases List.mem_append.mp hmem with hm | hm
        · exact absurd rfl (of_mem_scope hv hm).2.1
        · exact absurd (hws _ hm) (by decide)
  · rintro ⟨hv, pre, sep, ws, hs, hws, he⟩
    refine ⟨hv, id ++ ':' :: (controllers ++ ':' :: pre), sep, ws, hs, hws, ?_⟩
    rw [he]
    simp

theorem IsEntry.lastComponent_eq (h : IsEntry line path) :
    afterLast '/' line = lastComponent path := by
  obtain ⟨id, controllers, -, -, rfl, rest, rfl⟩ := h
  have he : id ++ ':' :: (controllers ++ ':' :: '/' :: rest) =
      (id ++ ':' :: (controllers ++ [':'])) ++ '/' :: rest := by simp
  rw [he, afterLast_append_sep]
  rfl

/-- A path reads as its last component unless it is forged. -/
theorem Reads.forged (h : Reads path name) (hn : lastComponent path ≠ name) :
    Forged path name := by
  obtain ⟨hv, pre, sep, ws, rfl | rfl, hws, rfl⟩ := h
  · exact ⟨hv, pre, ws, hws, Or.inl rfl⟩
  · refine ⟨hv, pre, ws, hws, Or.inr ⟨?_, rfl⟩⟩
    rintro rfl
    rw [List.append_nil] at hn
    exact hn (afterLast_append_cons fun hm => (of_mem_scope hv hm).2.1 rfl)

theorem Forged.reads (h : Forged path name) : Reads path name := by
  obtain ⟨hv, pre, ws, hws, rfl | ⟨-, rfl⟩⟩ := h
  · exact ⟨hv, pre, ':', ws, Or.inl rfl, hws, rfl⟩
  · exact ⟨hv, pre, '/', ws, Or.inr rfl, hws, rfl⟩

/-- A scope is named only if it is the last component of the path of some line. -/
def NamesOwnScope (text : String) : Prop :=
  ∀ scope, scopeFromCgroup text = some scope →
    ∃ line ∈ rawLines text.toList, ∃ path, IsEntry line path ∧ lastComponent path = scope.toList

/-- The first line that reads as a scope is forged, and no line's path has that scope as its
last component. -/
def Misled (text : String) : Prop :=
  ∃ pre line post path name, rawLines text.toList = pre ++ line :: post ∧
    (∀ l ∈ pre, ∀ p n, IsEntry l p → ¬ Reads p n) ∧ IsEntry line path ∧ Forged path name ∧
    ∀ l ∈ rawLines text.toList, ∀ p, IsEntry l p → lastComponent p ≠ name

/-- On a well-formed cgroup text the scope is that of some line's path exactly when the text
does not mislead. -/
theorem namesOwnScope_iff (text : String)
    (h : ∀ line ∈ rawLines text.toList, ∃ path, IsEntry line path) :
    NamesOwnScope text ↔ ¬ Misled text := by
  constructor
  · rintro hown ⟨pre, line, post, path, name, hsplit, hpre, hline, hf, hnone⟩
    have hscope : scopeFromCgroup text = some (String.ofList name) := by
      rw [scopeFromCgroup_eq, List.findSome?_eq_some_iff]
      refine ⟨pre, line, post, hsplit, ?_, ?_⟩
      · rw [scopeOfLine_eq_some_iff hline.colon_mem, hline.reads_iff, String.toList_ofList]
        exact hf.reads
      · intro l hl
        obtain ⟨p, hp⟩ := h l (hsplit ▸ List.mem_append_left _ hl)
        cases hs : scopeOfLine l with
        | none => rfl
        | some scope =>
          rw [scopeOfLine_eq_some_iff hp.colon_mem, hp.reads_iff] at hs
          exact absurd hs (hpre l hl p _ hp)
    obtain ⟨l, hl, p, hp, he⟩ := hown _ hscope
    rw [String.toList_ofList] at he
    exact hnone l hl p hp he
  · intro hm scope hs
    rw [scopeFromCgroup_eq, List.findSome?_eq_some_iff] at hs
    obtain ⟨pre, line, post, hsplit, hline, hpre⟩ := hs
    have hmem : line ∈ rawLines text.toList := by
      rw [hsplit]
      simp
    obtain ⟨path, hp⟩ := h line hmem
    rw [scopeOfLine_eq_some_iff hp.colon_mem, hp.reads_iff] at hline
    by_contra hnone
    have hno : ∀ l ∈ rawLines text.toList, ∀ p, IsEntry l p → lastComponent p ≠ scope.toList :=
      fun l hl p hp he => hnone ⟨l, hl, p, hp, he⟩
    refine hm ⟨pre, line, post, path, scope.toList, hsplit, ?_, hp,
      hline.forged (hno line hmem path hp), hno⟩
    intro l hl p n hlp hr
    have hsome : scopeOfLine l = some (String.ofList n) := by
      rw [scopeOfLine_eq_some_iff hlp.colon_mem, hlp.reads_iff, String.toList_ofList]
      exact hr
    rw [hpre l hl] at hsome
    cases hsome

theorem namesOwnScope_iff_session :
    NamesOwnScope "0::/user.slice/session-2.scope\n" ↔
      ¬ Misled "0::/user.slice/session-2.scope\n" := by
  apply namesOwnScope_iff
  have hl : rawLines "0::/user.slice/session-2.scope\n".toList =
      ["0::/user.slice/session-2.scope".toList] := by decide +kernel
  simp only [hl, List.mem_singleton, forall_eq]
  exact ⟨"/user.slice/session-2.scope".toList, ['0'], [], by decide, by decide, by decide, _, rfl⟩

/-- A cgroup whose name ends in a colon and a scope name passes for that scope. -/
theorem colon_cgroup_names_other_scope :
    (∀ line ∈ rawLines "0::/user.slice/x:session-2.scope\n".toList, ∃ path, IsEntry line path) ∧
      ¬ NamesOwnScope "0::/user.slice/x:session-2.scope\n" := by
  have hl : rawLines "0::/user.slice/x:session-2.scope\n".toList =
      ["0::/user.slice/x:session-2.scope".toList] := by decide +kernel
  constructor
  · simp only [hl, List.mem_singleton, forall_eq]
    exact ⟨"/user.slice/x:session-2.scope".toList, ['0'], [], by decide, by decide, by decide, _,
      rfl⟩
  · intro h
    obtain ⟨line, hm, path, hp, he⟩ := h "session-2.scope" (by decide +kernel)
    rw [hl, List.mem_singleton] at hm
    rw [← hp.lastComponent_eq, hm] at he
    exact absurd he (by decide +kernel)

end

end Ferrokey.Daemon
