import Ferrokey.Core.Compose

/-! # The loop of the composer

In text mode a key press feeds its symbol to the compose engine, and once more when the engine
asks for that. Whatever comes out is handed on to be typed, and that may fail. Of characters and
dead keys nothing is lost: the texts handed on are those of a machine whose only state is the
dead key that is pending.
-/

namespace Ferrokey.App

open Layouts

namespace Composer

/-- What the caller should do after a key press in text mode. -/
inductive TextModeOutcome where
  | handled | fallThrough
  deriving DecidableEq, Repr

variable {σ ε : Type}

/-- The press ends with what became of the last text. -/
def finish (engine : ComposeEngine) (typed : σ × Except ε Unit) :
    ComposeEngine × σ × Except ε TextModeOutcome :=
  (engine, typed.1, typed.2.map fun _ => .handled)

/-- The turns of the loop that are left, from turn `turn` on. In a turn `type` hands a text on;
an error ends the press. -/
def turns (type : ℕ → σ → List Char → σ × Except ε Unit) :
    ℕ → ℕ → ComposeEngine → σ → KeySymbol → ComposeEngine × σ × Except ε TextModeOutcome
  | 0, _, engine, s, _ => (engine, s, .ok .handled)
  | left + 1, turn, engine, s, symbol =>
    match engine.feed symbol with
    | (engine, .pass) =>
      match symbol with
      | .char c => finish engine (type turn s [c])
      | _ => (engine, s, .ok .handled)
    | (engine, .consumed) | (engine, .cancelled) => (engine, s, .ok .handled)
    | (engine, .emit chars) => finish engine (type turn s chars)
    | (engine, .reset standalone reprocess) =>
      match if standalone.isEmpty then (s, .ok ()) else type turn s standalone with
      | (s, .error err) => (engine, s, .error err)
      | (s, .ok ()) =>
        match reprocess with
        | none => (engine, s, .ok .handled)
        | some next => turns type left (turn + 1) engine s next

def keyDown (type : ℕ → σ → List Char → σ × Except ε Unit) (engine : ComposeEngine) (s : σ)
    (symbol : KeySymbol) : ComposeEngine × σ × Except ε TextModeOutcome :=
  match symbol with
  | .char _ | .dead _ | .compose => turns type 4 0 engine s symbol
  | .name _ | .none => (engine.reset, s, .ok .fallThrough)

/-- Key presses one after the other. An error is shown, and the next key is pressed. -/
def keyDowns (type : ℕ → σ → List Char → σ × Except ε Unit) (engine : ComposeEngine) (s : σ) :
    List KeySymbol → ComposeEngine × σ
  | [] => (engine, s)
  | symbol :: symbols =>
    let pressed := keyDown type engine s symbol
    keyDowns type pressed.1 pressed.2.1 symbols

/-- The same typing, with the texts that are handed on kept beside the state. -/
def recorded (type : ℕ → σ → List Char → σ × Except ε Unit) (turn : ℕ)
    (s : σ × List (List Char)) (text : List Char) : (σ × List (List Char)) × Except ε Unit :=
  (((type turn s.1 text).1, s.2 ++ [text]), (type turn s.1 text).2)

/-! ### What a key contributes -/

/-- The dead key that is pending after a symbol. -/
def pendingAfter : Option DeadKey → KeySymbol → Option DeadKey
  | none, .dead d => some d
  | some d, .dead d₂ => if d₂ = d then none else some d₂
  | _, _ => none

/-- What a symbol adds to the text: a character adds one character, and a dead key adds the
accent of the dead key that was pending, if there was one. -/
def rendered : Option DeadKey → KeySymbol → List Char
  | none, .char c => [c]
  | some d, .char c => [if c = ' ' then standaloneAccent d else (composeDead d c).getD c]
  | some d, .dead _ => [standaloneAccent d]
  | _, _ => []

def renderAll : Option DeadKey → List KeySymbol → List Char
  | _, [] => []
  | pending, symbol :: symbols =>
    rendered pending symbol ++ renderAll (pendingAfter pending symbol) symbols

/-! ### The turns of the loop -/

variable {type : ℕ → σ → List Char → σ × Except ε Unit} {engine : ComposeEngine}
  {symbol next : KeySymbol} {standalone : List Char}

/-- What is fed again is never fed a third time. -/
theorem refeed_ends (h : (engine.feed symbol).2 = .reset standalone (some next))
    (standalone' : List Char) (reprocess : Option KeySymbol) :
    ((engine.feed symbol).1.feed next).2 ≠ .reset standalone' reprocess :=
  ComposeEngine.feed_idle (ComposeEngine.feed_reprocess h).2 standalone' reprocess

/-- From an idle engine one turn is enough. -/
theorem turns_idle (h : engine.pending = none) (left turn : ℕ) (s : σ) :
    turns type (left + 1) turn engine s symbol = turns type 1 turn engine s symbol := by
  have hfeed : ∀ standalone reprocess, (engine.feed symbol).2 ≠ .reset standalone reprocess :=
    ComposeEngine.feed_idle h
  unfold turns
  cases hf : engine.feed symbol with
  | mk engine' outcome =>
    rw [hf] at hfeed
    cases outcome with
    | reset standalone reprocess => exact absurd rfl (hfeed standalone reprocess)
    | pass => rfl
    | consumed => rfl
    | emit chars => rfl
    | cancelled => rfl

/-- Two turns are always enough. -/
theorem turns_two (left turn : ℕ) (engine : ComposeEngine) (s : σ) (symbol : KeySymbol) :
    turns type (left + 2) turn engine s symbol = turns type 2 turn engine s symbol := by
  have hfeed : ∀ standalone next, (engine.feed symbol).2 = .reset standalone (some next) →
      next = symbol ∧ (engine.feed symbol).1.pending = none :=
    fun standalone next => ComposeEngine.feed_reprocess
  rw [turns, turns]
  cases hf : engine.feed symbol with
  | mk engine' outcome =>
    rw [hf] at hfeed
    cases outcome with
    | reset standalone reprocess =>
      cases reprocess with
      | none => rfl
      | some next =>
        have hidle := (hfeed standalone next rfl).2
        simp only [turns_idle hidle]
    | pass => rfl
    | consumed => rfl
    | emit chars => rfl
    | cancelled => rfl

/-! ### The texts of a run -/

variable (type) in
/-- Keeping the texts changes nothing else. -/
theorem turns_recorded (texts : List (List Char)) (left turn : ℕ) (engine : ComposeEngine) (s : σ)
    (symbol : KeySymbol) :
    (turns (recorded type) left turn engine (s, texts) symbol).1 =
        (turns type left turn engine s symbol).1 ∧
      (turns (recorded type) left turn engine (s, texts) symbol).2.1.1 =
        (turns type left turn engine s symbol).2.1 ∧
      (turns (recorded type) left turn engine (s, texts) symbol).2.2 =
        (turns type left turn engine s symbol).2.2 := by
  induction left generalizing turn engine s symbol texts with
  | zero => exact ⟨rfl, rfl, rfl⟩
  | succ left ih =>
    rw [turns, turns]
    cases hf : engine.feed symbol with
    | mk engine' outcome =>
      cases outcome with
      | pass => cases symbol <;> exact ⟨rfl, rfl, rfl⟩
      | consumed => exact ⟨rfl, rfl, rfl⟩
      | emit chars => exact ⟨rfl, rfl, rfl⟩
      | cancelled => exact ⟨rfl, rfl, rfl⟩
      | reset standalone reprocess =>
        cases hempty : standalone.isEmpty with
        | true =>
          simp only [hempty, if_true]
          cases reprocess with
          | none => exact ⟨rfl, rfl, rfl⟩
          | some next => exact ih texts (turn + 1) engine' s next
        | false =>
          simp only [hempty, Bool.false_eq_true, if_false, recorded]
          cases type turn s standalone with
          | mk s' result =>
            cases result with
            | error err => exact ⟨rfl, rfl, rfl⟩
            | ok u =>
              cases reprocess with
              | none => exact ⟨rfl, rfl, rfl⟩
              | some next => exact ih (texts ++ [standalone]) (turn + 1) engine' s' next

theorem keyDowns_recorded (symbols : List KeySymbol) (texts : List (List Char))
    (engine : ComposeEngine) (s : σ) :
    (keyDowns (recorded type) engine (s, texts) symbols).1 = (keyDowns type engine s symbols).1 ∧
      (keyDowns (recorded type) engine (s, texts) symbols).2.1 =
        (keyDowns type engine s symbols).2 := by
  induction symbols generalizing engine s texts with
  | nil => exact ⟨rfl, rfl⟩
  | cons symbol symbols ih =>
    have hpress : (keyDown (recorded type) engine (s, texts) symbol).1 =
          (keyDown type engine s symbol).1 ∧
        (keyDown (recorded type) engine (s, texts) symbol).2.1.1 =
          (keyDown type engine s symbol).2.1 := by
      have hturns := turns_recorded type texts 4 0 engine s symbol
      cases symbol with
      | name _ => exact ⟨rfl, rfl⟩
      | none => exact ⟨rfl, rfl⟩
      | char c => exact ⟨hturns.1, hturns.2.1⟩
      | dead d => exact ⟨hturns.1, hturns.2.1⟩
      | compose => exact ⟨hturns.1, hturns.2.1⟩
    rw [keyDowns, keyDowns, ← hpress.1, ← hpress.2]
    exact ih _ _ _

variable (type) in
/-- A key press with a character or a dead key, from an engine that is idle or has a dead key
pending. -/
theorem keyDown_rendered {pending : Option DeadKey} (hsymbol : (∃ c, symbol = .char c) ∨
    ∃ d, symbol = .dead d) (s : σ) (texts : List (List Char)) :
    (keyDown (recorded type) ⟨pending.map .dead⟩ (s, texts) symbol).1 =
        ⟨(pendingAfter pending symbol).map .dead⟩ ∧
      (keyDown (recorded type) ⟨pending.map .dead⟩ (s, texts) symbol).2.1.2.flatten =
        texts.flatten ++ rendered pending symbol := by
  rcases hsymbol with ⟨c, rfl⟩ | ⟨d₂, rfl⟩
  · cases pending with
    | none => exact ⟨rfl, by simp [keyDown, turns, ComposeEngine.feed, finish, recorded, rendered]⟩
    | some d =>
      have hfeed := ComposeEngine.feedDead_char (e := ⟨some (.dead d)⟩) d c
      have hidle : ComposeEngine.feed ⟨none⟩ (.char c) = (⟨none⟩, .pass) := rfl
      have hspace : c = ' ' → composeDead d c = some (standaloneAccent d) := by
        rintro rfl
        exact composeDead_space d
      cases hc : composeDead d c with
      | some composed =>
        have hrendered : rendered (some d) (.char c) = [composed] := by
          rw [rendered]
          split
          next h => rw [hspace h, Option.some_inj] at hc; rw [hc]
          next => rw [hc]; rfl
        have hemit : ComposeEngine.feed ⟨some (.dead d)⟩ (.char c) = (⟨none⟩, .emit [composed]) :=
          hfeed.trans (by rw [hc]; rfl)
        simp [keyDown, turns, hemit, finish, recorded, hrendered, pendingAfter]
      | none =>
        have hne : c ≠ ' ' := fun h => by rw [hspace h] at hc; cases hc
        have hreset : ComposeEngine.feed ⟨some (.dead d)⟩ (.char c) =
            (⟨none⟩, .reset [] (some (.char c))) := hfeed.trans (by rw [hc]; rfl)
        simp [keyDown, turns, hreset, hidle, finish, recorded, rendered, hne, hc, pendingAfter]
  · cases pending with
    | none => exact ⟨rfl, (List.append_nil _).symm⟩
    | some d =>
      by_cases hd : d₂ = d
      · simp [keyDown, turns, ComposeEngine.feed, ComposeEngine.feedDead, hd, finish, recorded,
          rendered, pendingAfter]
      · simp only [keyDown, turns, Option.map_some, ComposeEngine.feed, ComposeEngine.feedDead, hd,
          if_false, recorded, rendered, pendingAfter, List.isEmpty_cons, Bool.false_eq_true]
        cases (type 0 s [standaloneAccent d]).2 with
        | ok u => simp
        | error err => simp

/-- The texts of a run are what the machine of the pending dead key renders. -/
theorem keyDowns_rendered {symbols : List KeySymbol}
    (h : ∀ symbol ∈ symbols, (∃ c, symbol = .char c) ∨ ∃ d, symbol = .dead d)
    (pending : Option DeadKey) (s : σ) (texts : List (List Char)) :
    (keyDowns (recorded type) ⟨pending.map .dead⟩ (s, texts) symbols).2.2.flatten =
      texts.flatten ++ renderAll pending symbols := by
  induction symbols generalizing pending s texts with
  | nil => exact (List.append_nil _).symm
  | cons symbol symbols ih =>
    obtain ⟨hengine, htexts⟩ :=
      keyDown_rendered type (h symbol List.mem_cons_self) s texts
    have hrest : ∀ symbol ∈ symbols, (∃ c, symbol = .char c) ∨ ∃ d, symbol = .dead d :=
      fun symbol hm => h symbol (List.mem_cons_of_mem _ hm)
    rw [keyDowns, hengine]
    calc (keyDowns (recorded type) ⟨(pendingAfter pending symbol).map .dead⟩
          (keyDown (recorded type) ⟨pending.map .dead⟩ (s, texts) symbol).2.1 symbols).2.2.flatten
      _ = (texts.flatten ++ rendered pending symbol) ++
          renderAll (pendingAfter pending symbol) symbols := by rw [← htexts]; exact ih hrest _ _ _
      _ = texts.flatten ++ renderAll pending (symbol :: symbols) := List.append_assoc ..

/-- Composing loses nothing: from idle, the texts handed on are, in order, one character for
every character and one accent for every dead key that finds another one pending. Keeping
record of them changes nothing else. Whatever the engine has pending, a symbol is fed again at
most once, so any number of turns from two on does the same. -/
theorem keyDowns_texts (type : ℕ → σ → List Char → σ × Except ε Unit) (s : σ) :
    (∀ symbols, (∀ symbol ∈ symbols, (∃ c, symbol = .char c) ∨ ∃ d, symbol = .dead d) →
      (keyDowns (recorded type) ⟨none⟩ (s, []) symbols).2.2.flatten = renderAll none symbols) ∧
    (∀ engine symbols, (keyDowns (recorded type) engine (s, []) symbols).1 =
        (keyDowns type engine s symbols).1 ∧
      (keyDowns (recorded type) engine (s, []) symbols).2.1 =
        (keyDowns type engine s symbols).2) ∧
    (∀ (engine : ComposeEngine) symbol standalone next,
      (engine.feed symbol).2 = .reset standalone (some next) → ∀ standalone' reprocess,
        ((engine.feed symbol).1.feed next).2 ≠ .reset standalone' reprocess) ∧
    ∀ left engine symbol,
      turns type (left + 2) 0 engine s symbol = turns type 2 0 engine s symbol := by
  refine ⟨fun symbols h => ?_, fun engine symbols => ?_, fun engine symbol standalone next h => ?_,
    fun left engine symbol => ?_⟩
  · exact keyDowns_rendered h none s []
  · exact keyDowns_recorded symbols [] engine s
  · exact refeed_ends h
  · exact turns_two left 0 engine s symbol

example : (keyDowns (recorded fun _ _ _ => ((), Except.error ())) ⟨none⟩ ((), [])
    [.dead .acute, .char 'e', .dead .grave, .dead .tilde, .char 'q']).2.2 =
      [['é'], ['`'], ['q']] := by decide

end Composer

end Ferrokey.App
