import Mathlib.Data.List.Basic
import Mathlib.Data.List.Infix
import Mathlib.Tactic.Common

/-! # Incremental framing

A framer looks at the front of a buffer: it waits for more, takes one frame off,
or finds the buffer bad. If more bytes never change a verdict once it is given,
then what a stream contains does not depend on how it is cut into chunks; what a
reader that loses a chunk together with its error has delivered does.
-/

namespace Ferrokey.Framing

/-- One look at the front of a buffer. -/
structure Framer (α β ε : Type*) where
  peel : List α → Except ε (Option (β × List α))
  shorter : ∀ {buf b rest}, peel buf = .ok (some (b, rest)) → rest.length < buf.length
  stable : ∀ {buf b rest} (x : List α), peel buf = .ok (some (b, rest)) →
    peel (buf ++ x) = .ok (some (b, rest ++ x))
  fatal : ∀ {buf e} (x : List α), peel buf = .error e → peel (buf ++ x) = .error e

namespace Framer

variable {α β ε : Type*} (f : Framer α β ε)

/-- Take frames off the front while there are any, up to a number of looks. -/
def drain : ℕ → List α → List β × Except ε (List α)
  | 0, buf => ([], .ok buf)
  | n + 1, buf =>
    match f.peel buf with
    | .error e => ([], .error e)
    | .ok none => ([], .ok buf)
    | .ok (some (b, rest)) => ((b :: (drain n rest).1), (drain n rest).2)

/-- The frames at the front of a buffer, followed by the incomplete rest or the error. -/
def parse (buf : List α) : List β × Except ε (List α) := f.drain (buf.length + 1) buf

/-- Read chunks in order up to the first one that errs. A chunk either delivers all its
frames or, with its error, none of them. -/
def feed : List α → List (List α) → List β × Except ε (List α)
  | buf, [] => ([], .ok buf)
  | buf, c :: cs =>
    match f.parse (buf ++ c) with
    | (_, .error e) => ([], .error e)
    | (bs, .ok rest) => (bs ++ (feed rest cs).1, (feed rest cs).2)

/-- Any number of looks beyond the length of the buffer gives the same. -/
theorem drain_eq_parse {n : ℕ} {buf : List α} (h : buf.length < n) :
    f.drain n buf = f.parse buf := by
  induction n using Nat.strong_induction_on generalizing buf with
  | _ n ih =>
    obtain _ | n := n
    · exact absurd h (Nat.not_lt_zero _)
    rw [parse, drain, drain]
    split
    · rfl
    · rfl
    · next b rest hp =>
      have hs := f.shorter hp
      rw [ih n (Nat.lt_succ_self n) (by omega)]
      by_cases hn : buf.length = n
      · rw [hn, ih n (Nat.lt_succ_self n) (by omega)]
      · rw [ih buf.length (by omega) hs]

variable {f} {buf rest : List α} {b : β} {bs : List β} {e : ε}

theorem parse_frame (h : f.peel buf = .ok (some (b, rest))) :
    f.parse buf = (b :: (f.parse rest).1, (f.parse rest).2) := by
  rw [parse, drain, h]
  simp only [drain_eq_parse f (f.shorter h)]

theorem parse_wait (h : f.peel buf = .ok none) : f.parse buf = ([], .ok buf) := by
  rw [parse, drain, h]

theorem parse_bad (h : f.peel buf = .error e) : f.parse buf = ([], .error e) := by
  rw [parse, drain, h]

/-- The rule of induction over a parse: a bad front, a front to wait at, or a frame and
the parse of what follows it. -/
theorem parse_induction {motive : List α → Prop} (buf : List α)
    (bad : ∀ buf e, f.peel buf = .error e → motive buf)
    (wait : ∀ buf, f.peel buf = .ok none → motive buf)
    (frame : ∀ buf b rest, f.peel buf = .ok (some (b, rest)) → motive rest → motive buf) :
    motive buf := by
  induction hn : buf.length using Nat.strong_induction_on generalizing buf with
  | _ n ih =>
    cases hp : f.peel buf with
    | error e => exact bad buf e hp
    | ok o =>
      cases o with
      | none => exact wait buf hp
      | some r => exact frame buf r.1 r.2 hp (ih _ (hn ▸ f.shorter hp) _ rfl)

theorem peel_rest (h : f.parse buf = (bs, .ok rest)) : f.peel rest = .ok none := by
  induction buf using parse_induction (f := f) generalizing bs with
  | bad buf e hp => simp [parse_bad hp] at h
  | wait buf hp =>
    obtain ⟨-, rfl⟩ : [] = bs ∧ buf = rest := by simpa [parse_wait hp] using h
    exact hp
  | frame buf b r hp ih =>
    rw [parse_frame hp] at h
    obtain ⟨-, hr⟩ := Prod.mk.inj h
    exact ih (Prod.ext rfl hr)

/-- More bytes after a good parse continue it from its rest. -/
theorem parse_append (h : f.parse buf = (bs, .ok rest)) (x : List α) :
    f.parse (buf ++ x) = (bs ++ (f.parse (rest ++ x)).1, (f.parse (rest ++ x)).2) := by
  induction buf using parse_induction (f := f) generalizing bs with
  | bad buf e hp => simp [parse_bad hp] at h
  | wait buf hp =>
    obtain ⟨rfl, rfl⟩ : [] = bs ∧ buf = rest := by simpa [parse_wait hp] using h
    rfl
  | frame buf b r hp ih =>
    rw [parse_frame hp] at h
    obtain ⟨rfl, hr⟩ := Prod.mk.inj h
    rw [parse_frame (f.stable x hp), ih (Prod.ext rfl hr)]
    rfl

/-- More bytes after a bad parse change nothing. -/
theorem parse_append_error (h : f.parse buf = (bs, .error e)) (x : List α) :
    f.parse (buf ++ x) = (bs, .error e) := by
  induction buf using parse_induction (f := f) generalizing bs with
  | bad buf e' hp =>
    rw [parse_bad hp] at h
    rw [parse_bad (f.fatal x hp), h]
  | wait buf hp => simp [parse_wait hp] at h
  | frame buf b r hp ih =>
    rw [parse_frame hp] at h
    obtain ⟨rfl, hr⟩ := Prod.mk.inj h
    rw [parse_frame (f.stable x hp), ih (Prod.ext rfl hr)]

/-- The frames of a stream are frames of every longer stream. -/
theorem parse_prefix (buf x : List α) : (f.parse buf).1 <+: (f.parse (buf ++ x)).1 := by
  cases h : f.parse buf with
  | mk bs r =>
    cases r with
    | error e => rw [parse_append_error h]
    | ok rest => rw [parse_append h]; exact List.prefix_append _ _

/-- However a stream is cut, its chunks end in the same error or the same rest. -/
theorem feed_snd (h : f.peel buf = .ok none) (cs : List (List α)) :
    (f.feed buf cs).2 = (f.parse (buf ++ cs.flatten)).2 := by
  induction cs generalizing buf with
  | nil => simp [feed, parse_wait h]
  | cons c cs ih =>
    rw [feed, List.flatten_cons, ← List.append_assoc]
    cases hp : f.parse (buf ++ c) with
    | mk bs r =>
      cases r with
      | error e => rw [parse_append_error hp]
      | ok rest =>
        rw [parse_append hp]
        exact ih (peel_rest hp)

/-- A stream without an error delivers all its frames, however it is cut. -/
theorem feed_fst_of_ok (h : f.peel buf = .ok none) {cs : List (List α)}
    (hr : (f.parse (buf ++ cs.flatten)).2 = .ok rest) :
    (f.feed buf cs).1 = (f.parse (buf ++ cs.flatten)).1 := by
  induction cs generalizing buf with
  | nil => simp [feed, parse_wait h]
  | cons c cs ih =>
    rw [List.flatten_cons, ← List.append_assoc] at hr ⊢
    rw [feed]
    cases hp : f.parse (buf ++ c) with
    | mk bs r =>
      cases r with
      | error e =>
        rw [parse_append_error hp] at hr
        cases hr
      | ok rest' =>
        rw [parse_append hp] at hr ⊢
        exact congrArg (bs ++ ·) (ih (peel_rest hp) hr)

/-- A stream with an error delivers the frames of the chunks before the one that errs. -/
theorem feed_fst_of_error (h : f.peel buf = .ok none) {cs : List (List α)}
    (hr : (f.parse (buf ++ cs.flatten)).2 = .error e) :
    ∃ pre c post, cs = pre ++ c :: post ∧
      (∃ rest, (f.parse (buf ++ pre.flatten)).2 = .ok rest) ∧
      (f.parse (buf ++ pre.flatten ++ c)).2 = .error e ∧
      (f.feed buf cs).1 = (f.parse (buf ++ pre.flatten)).1 := by
  induction cs generalizing buf with
  | nil => simp [parse_wait h] at hr
  | cons c cs ih =>
    rw [List.flatten_cons, ← List.append_assoc] at hr
    cases hp : f.parse (buf ++ c) with
    | mk bs r =>
      cases r with
      | error e' =>
        rw [parse_append_error hp] at hr
        refine ⟨[], c, cs, rfl, ⟨buf, by simp [parse_wait h]⟩, ?_, by simp [feed, hp, parse_wait h]⟩
        simpa [hp] using hr
      | ok rest =>
        rw [parse_append hp] at hr
        obtain ⟨pre, c', post, rfl, ⟨rest', hok⟩, hbad, hfst⟩ := ih (peel_rest hp) hr
        refine ⟨c :: pre, c', post, rfl, ⟨rest', ?_⟩, ?_, ?_⟩
        · rw [List.flatten_cons, ← List.append_assoc, parse_append hp, hok]
        · rw [List.flatten_cons, ← List.append_assoc, List.append_assoc, parse_append hp,
            ← List.append_assoc, hbad]
        · rw [List.flatten_cons, ← List.append_assoc, parse_append hp, feed, hp]
          exact congrArg (bs ++ ·) hfst

end Framer

end Ferrokey.Framing
