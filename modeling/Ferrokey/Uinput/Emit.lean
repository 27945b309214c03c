import Ferrokey.Framing.Incremental
import Ferrokey.Framing.LittleEndian
import Ferrokey.Uinput.Device
import Mathlib.Data.List.TakeDrop

/-! # Event emission

The device writes the image of a key event to its descriptor, followed by the image of a report.
The kernel reads what it takes as records of 24 bytes. It may take a part of what a call offers, or
nothing, but it takes whole records; so it reads what was written, up to the batches that broke off.
-/

namespace Ferrokey.Uinput.Emit

open Framing Machine

section Format

def evKey : UInt16 := 0x01

def evSyn : UInt16 := 0x00

def synReportCode : UInt16 := 0x00

/-- The size of an `input_event`. -/
def imageSize : ℕ := 24

/-- The image of a key event. The time is left to the kernel. -/
def encode (e : InputEvent) : List UInt8 :=
  List.replicate 16 0 ++ (leBytes 2 evKey.toNat ++ (leBytes 2 e.code.toNat ++
    leBytes 4 (e.value % 2 ^ 32).toNat))

def synReport : List UInt8 := List.replicate imageSize 0

/-- What the kernel reads from an image: the class of the event, its code and its value. -/
structure RawEvent where
  type : UInt16
  code : UInt16
  value : ℤ
deriving DecidableEq, Repr

namespace RawEvent

def read (image : List UInt8) : RawEvent :=
  ⟨.ofNat (leNat ((image.drop 16).take 2)), .ofNat (leNat ((image.drop 18).take 2)),
    (leNat ((image.drop 20).take 4) : ℤ).bmod (2 ^ 32)⟩

def key (e : InputEvent) : RawEvent := ⟨evKey, e.code, e.value⟩

def report : RawEvent := ⟨evSyn, synReportCode, 0⟩

/-- What an event does to the keys: only events of the key class do anything. -/
def stroke? (e : RawEvent) : Option (Stroke UInt16) :=
  if e.type = evKey then some (InputEvent.stroke ⟨e.code, e.value⟩) else none

@[simp] theorem stroke?_key (e : InputEvent) : (key e).stroke? = some e.stroke := rfl

@[simp] theorem stroke?_report : report.stroke? = none := rfl

end RawEvent

/-- The keys that the kernel takes to be down after some events. -/
def keysDown (events : List RawEvent) : Set UInt16 := leftDown (events.filterMap RawEvent.stroke?)

/-- A stream of images is read one after the other. -/
def inputFramer : Framer UInt8 RawEvent Empty where
  peel buf :=
    .ok (if buf.length < imageSize then none
      else some (.read (buf.take imageSize), buf.drop imageSize))
  shorter {buf b rest} h := by
    simp only [Except.ok.injEq] at h
    split at h
    · cases h
    · next hlen =>
      cases h
      rw [List.length_drop]
      simp only [imageSize] at hlen ⊢
      omega
  stable {buf b rest} x h := by
    simp only [Except.ok.injEq] at h ⊢
    split at h
    · cases h
    · next hlen =>
      cases h
      have hle : imageSize ≤ buf.length := Nat.not_lt.mp hlen
      rw [if_neg (by rw [List.length_append]; omega), List.take_append_of_le_length hle,
        List.drop_append_of_le_length hle]
  fatal {buf e} x h := nomatch e

/-- The values of a key event: a release, a press and a repeat. -/
def Proper (e : InputEvent) : Prop :=
  isCapable e.code = true ∧ (e.value = 0 ∨ e.value = 1 ∨ e.value = 2)

variable {e : InputEvent} {images : List (List UInt8)}

@[simp] theorem length_encode (e : InputEvent) : (encode e).length = imageSize := by
  simp [encode, imageSize]

@[simp] theorem length_synReport : synReport.length = imageSize := List.length_replicate

/-- The kernel reads the event that was written. -/
theorem read_encode (h : -2 ^ 31 ≤ e.value ∧ e.value < 2 ^ 31) :
    RawEvent.read (encode e) = .key e := by
  have htype : ((encode e).drop 16).take 2 = leBytes 2 evKey.toNat := by
    rw [encode, List.drop_left' List.length_replicate, List.take_left' (length_leBytes _ _)]
  have hcode : ((encode e).drop 18).take 2 = leBytes 2 e.code.toNat := by
    rw [encode, ← List.append_assoc, List.drop_left' (by simp), List.take_left' (length_leBytes _ _)]
  have hvalue : ((encode e).drop 20).take 4 = leBytes 4 (e.value % 2 ^ 32).toNat := by
    rw [encode, ← List.append_assoc, ← List.append_assoc, List.drop_left' (by simp)]
    exact List.take_of_length_le (length_leBytes _ _).le
  have hlt : (e.value % 2 ^ 32).toNat < 256 ^ 4 := by omega
  rw [RawEvent.read, htype, hcode, hvalue, leNat_leBytes evKey.toNat_lt,
    leNat_leBytes e.code.toNat_lt, leNat_leBytes hlt, UInt16.ofNat_toNat, UInt16.ofNat_toNat,
    Int.toNat_of_nonneg (Int.emod_nonneg _ (by decide))]
  have hbmod : (e.value % 2 ^ 32).bmod (2 ^ 32) = e.value := by
    rw [Int.bmod_def]
    omega
  rw [hbmod, RawEvent.key]

theorem read_synReport : RawEvent.read synReport = .report := by decide

/-- Whole images are all read, one after the other. -/
theorem parse_flatten (h : ∀ image ∈ images, image.length = imageSize) :
    inputFramer.parse images.flatten = (images.map RawEvent.read, .ok []) := by
  induction images with
  | nil => rfl
  | cons image images ih =>
    obtain ⟨himage, himages⟩ := List.forall_mem_cons.mp h
    have hpeel : inputFramer.peel (image ++ images.flatten) =
        .ok (some (.read image, images.flatten)) := by
      simp [inputFramer, himage]
    rw [List.flatten_cons, Framer.parse_frame hpeel, ih himages, List.map_cons]

end Format

section Write

/-- How the kernel answers a call of `write`. -/
inductive WriteAnswer where
  | took (n : ℕ)
  | interrupted
  | failed (e : String)
deriving DecidableEq

/-- Write all bytes: those that the kernel takes, and whether it takes all. A kernel that has no
more answers takes what is left. -/
def writeAll : List UInt8 → List WriteAnswer → List UInt8 × Except String Unit
  | buf, [] => (buf, .ok ())
  | buf, a :: answers =>
    if buf.isEmpty then ([], .ok ())
    else
      match a with
      | .took 0 => ([], .error "uinput write returned 0")
      | .took n =>
        (buf.take n ++ (writeAll (buf.drop n) answers).1, (writeAll (buf.drop n) answers).2)
      | .interrupted => writeAll buf answers
      | .failed e => ([], .error e)

/-- A batch that was offered to the kernel, and the bytes of it that the kernel took. -/
structure Batch where
  events : List InputEvent
  taken : List UInt8
deriving DecidableEq

/-- The device's descriptor: how the kernel answers the calls for each batch, and the batches that
it was offered. -/
structure EventFile where
  calls : ℕ → List WriteAnswer
  record : List Batch

namespace EventFile

def fresh (calls : ℕ → List WriteAnswer) : EventFile := ⟨calls, []⟩

def batches (f : EventFile) : ℕ := f.record.length

/-- The bytes that the kernel has taken. -/
def taken (f : EventFile) : List UInt8 := f.record.flatMap Batch.taken

def writeBatch (f : EventFile) (events : List InputEvent) : EventFile × Except String Unit :=
  if events.isEmpty then (f, .ok ())
  else
    let w := writeAll (events.flatMap encode ++ synReport) (f.calls f.batches)
    ({ f with record := f.record ++ [⟨events, w.1⟩] }, w.2)

def writeOne (f : EventFile) (code : UInt16) (value : ℤ) : EventFile × Except String Unit :=
  f.writeBatch [⟨code, value⟩]

end EventFile

/-- The kernel takes whole images. -/
def Whole (answers : List WriteAnswer) : Prop := ∀ n, .took n ∈ answers → imageSize ∣ n

/-- Why a batch of one event is not taken whole, if it is not. -/
def refusal (answers : List WriteAnswer) : Option String :=
  match (writeAll (List.replicate (2 * imageSize) 0) answers).2 with
  | .ok () => none
  | .error e => some e

variable {images : List (List UInt8)} {answers : List WriteAnswer} {f : EventFile}

/-- Whether all is taken depends on how much there is to take only. -/
theorem writeAll_snd {buf buf' : List UInt8} (h : buf.length = buf'.length)
    (answers : List WriteAnswer) : (writeAll buf answers).2 = (writeAll buf' answers).2 := by
  induction answers generalizing buf buf' with
  | nil => rfl
  | cons a answers ih =>
    cases buf with
    | nil =>
      obtain rfl := List.eq_nil_of_length_eq_zero h.symm
      rfl
    | cons b buf =>
      cases buf' with
      | nil => cases h
      | cons b' buf' =>
        match a with
        | .took 0 => rfl
        | .took (n + 1) => exact ih (by rw [List.length_drop, List.length_drop, h])
        | .interrupted => exact ih h
        | .failed e => rfl

theorem flatten_take_drop (himages : ∀ image ∈ images, image.length = imageSize) (m : ℕ) :
    images.flatten.take (imageSize * m) = (images.take m).flatten ∧
      images.flatten.drop (imageSize * m) = (images.drop m).flatten := by
  induction m generalizing images with
  | zero => simp
  | succ m ih =>
    cases images with
    | nil => simp
    | cons image images =>
      obtain ⟨himage, himages⟩ := List.forall_mem_cons.mp himages
      have hsize : imageSize * (m + 1) = image.length + imageSize * m := by
        rw [himage, Nat.mul_succ, Nat.add_comm]
      rw [hsize, List.flatten_cons, List.take_length_add_append, List.drop_length_add_append,
        (ih himages).1, (ih himages).2]
      exact ⟨rfl, rfl⟩

theorem writeAll_cons {buf : List UInt8} (h : buf ≠ []) (a : WriteAnswer) :
    writeAll buf (a :: answers) = match a with
      | .took 0 => ([], .error "uinput write returned 0")
      | .took n =>
        (buf.take n ++ (writeAll (buf.drop n) answers).1, (writeAll (buf.drop n) answers).2)
      | .interrupted => writeAll buf answers
      | .failed e => ([], .error e) := by
  cases buf with
  | nil => exact absurd rfl h
  | cons b buf => rfl

/-- A kernel that takes whole images takes the first ones, and all of them unless it fails. -/
theorem writeAll_flatten (hwhole : Whole answers)
    (himages : ∀ image ∈ images, image.length = imageSize) :
    ∃ k, (writeAll images.flatten answers).1 = (images.take k).flatten ∧
      ((writeAll images.flatten answers).2 = .ok () ↔ images.length ≤ k) := by
  induction answers generalizing images with
  | nil => exact ⟨images.length, by simp [writeAll], by simp [writeAll]⟩
  | cons a answers ih =>
    have hrest : Whole answers := fun n hn => hwhole n (List.mem_cons_of_mem a hn)
    cases images with
    | nil => exact ⟨0, rfl, by simp [writeAll]⟩
    | cons image images =>
      have hsome : (image :: images).flatten ≠ [] := by
        rw [List.flatten_cons, ← List.length_pos_iff, List.length_append,
          himages image List.mem_cons_self]
        exact Nat.add_pos_left (by decide) _
      rw [writeAll_cons hsome]
      match a with
      | .took 0 => exact ⟨0, rfl, by simp⟩
      | .took (n + 1) =>
        obtain ⟨m, hm⟩ := hwhole (n + 1) List.mem_cons_self
        obtain ⟨htake, hdrop⟩ := flatten_take_drop himages m
        obtain ⟨k, hfst, hsnd⟩ := ih hrest fun image' hi =>
          himages image' (List.mem_of_mem_drop (i := m) hi)
        rw [← hm] at htake hdrop
        refine ⟨m + k, ?_, ?_⟩
        · simp only [htake, hdrop, hfst, List.take_add, List.flatten_append]
        · simp only [hdrop, hsnd, List.length_drop]
          omega
      | .interrupted => exact ih hrest himages
      | .failed e => exact ⟨0, rfl, by simp⟩

theorem refusal_eq {buf : List UInt8} (h : buf.length = 2 * imageSize)
    (answers : List WriteAnswer) :
    (writeAll buf answers).2 = match refusal answers with
      | none => .ok ()
      | some e => .error e := by
  rw [writeAll_snd (h.trans List.length_replicate.symm), refusal]
  cases (writeAll (List.replicate (2 * imageSize) 0) answers).2 <;> rfl

end Write

section Entries

/-- A batch of one event: how many of its two images the kernel took, if not all. -/
structure Entry where
  event : InputEvent
  images : ℕ
deriving DecidableEq

namespace Entry

def parts (en : Entry) : List (List UInt8) := [encode en.event, synReport].take en.images

def bytes (en : Entry) : List UInt8 := en.parts.flatten

def batch (en : Entry) : Batch := ⟨[en.event], en.bytes⟩

/-- What the kernel reads of a batch. -/
def raws (en : Entry) : List RawEvent := [RawEvent.key en.event, .report].take en.images

/-- The event itself got through. -/
def Arrived (en : Entry) : Prop := 0 < en.images

instance (en : Entry) : Decidable en.Arrived := inferInstanceAs (Decidable (0 < en.images))

end Entry

variable {entries : List Entry} {f : EventFile}

theorem Proper.range {e : InputEvent} (h : Proper e) : -2 ^ 31 ≤ e.value ∧ e.value < 2 ^ 31 := by
  have := h.2
  omega

theorem Entry.length_of_mem_parts {en : Entry} {image : List UInt8} (h : image ∈ en.parts) :
    image.length = imageSize := by
  rcases List.mem_pair.mp (List.mem_of_mem_take h) with rfl | rfl
  · exact length_encode en.event
  · exact length_synReport

theorem Entry.map_read_parts {en : Entry} (h : Proper en.event) :
    en.parts.map RawEvent.read = en.raws := by
  rw [parts, List.map_take, List.map_cons, read_encode h.range, List.map_singleton, read_synReport]
  rfl

/-- The kernel reads whole events off the batches that it took in full or in part. -/
theorem parse_entries (h : ∀ en ∈ entries, Proper en.event) :
    inputFramer.parse (entries.flatMap Entry.bytes) = (entries.flatMap Entry.raws, .ok []) := by
  have hbytes : entries.flatMap Entry.bytes = (entries.flatMap Entry.parts).flatten := by
    rw [List.flatMap_def, List.flatMap_def, List.flatten_flatten, List.map_map]
    rfl
  have hread : (entries.flatMap Entry.parts).map RawEvent.read = entries.flatMap Entry.raws := by
    rw [List.map_flatMap]
    exact List.flatMap_congr fun en hen => Entry.map_read_parts (h en hen)
  rw [hbytes, parse_flatten, hread]
  intro image himage
  obtain ⟨en, -, hpart⟩ := List.mem_flatMap.mp himage
  exact Entry.length_of_mem_parts hpart

/-- Writing one event takes the images of an entry, and it succeeds when it takes both. -/
theorem writeOne_entry (hwhole : Whole (f.calls f.batches)) (code : UInt16) (value : ℤ) :
    ∃ k, f.writeOne code value =
        ({ f with record := f.record ++ [(Entry.mk ⟨code, value⟩ k).batch] },
          match refusal (f.calls f.batches) with
            | none => .ok ()
            | some e => .error e) ∧
      (refusal (f.calls f.batches) = none ↔ 2 ≤ k) := by
  let images := [encode ⟨code, value⟩, synReport]
  have himages : ∀ image ∈ images, image.length = imageSize :=
    fun _ => @Entry.length_of_mem_parts ⟨⟨code, value⟩, 2⟩ _
  obtain ⟨k, hfst, hsnd⟩ := writeAll_flatten hwhole himages
  have hbuf : [⟨code, value⟩].flatMap encode ++ synReport = images.flatten := by simp [images]
  have hlength : images.flatten.length = 2 * imageSize := by
    simp [images]
    rfl
  have hanswer := refusal_eq hlength (f.calls f.batches)
  have hbytes : (Entry.mk ⟨code, value⟩ k).bytes =
      (writeAll images.flatten (f.calls f.batches)).1 := hfst.symm
  refine ⟨k, ?_, ?_⟩
  · rw [EventFile.writeOne, EventFile.writeBatch, hbuf, ← hanswer, Entry.batch, hbytes]
    rfl
  · rw [hanswer] at hsnd
    refine Iff.trans ?_ hsnd
    cases refusal (f.calls f.batches) <;> simp

/-- What the kernel makes of the batches are the strokes that arrived. -/
theorem keysDown_raws (entries : List Entry) : keysDown (entries.flatMap Entry.raws) =
    leftDown ((entries.filter fun en => en.Arrived).map fun en => en.event.stroke) := by
  rw [keysDown]
  congr 1
  induction entries with
  | nil => rfl
  | cons en entries ih =>
    rw [List.flatMap_cons, List.filterMap_append, ih]
    obtain ⟨e, images⟩ := en
    match images with
    | 0 => rfl
    | 1 => rfl
    | n + 2 => simp [Entry.raws, Entry.Arrived]

/-- The last press or release of a key, if there is one, arrived. -/
def Settled (code : UInt16) (entries : List Entry) : Prop :=
  ∀ pre en post, entries = pre ++ en :: post → en.event.stroke.Moves code →
    (∀ en' ∈ post, ¬ en'.event.stroke.Moves code) → en.Arrived

theorem Settled.of_arrived {code : UInt16} (h : ∀ en ∈ entries, en.Arrived) :
    Settled code entries := by
  rintro pre en post rfl - -
  exact h en (by simp)

/-- A key whose last press or release arrived is down among those that arrived when it is down
among all. -/
theorem mem_leftDown_arrived {code : UInt16} (h : Settled code entries) :
    code ∈ leftDown ((entries.filter fun en => en.Arrived).map fun en => en.event.stroke) ↔
      code ∈ leftDown (entries.map fun en => en.event.stroke) := by
  induction entries using List.reverseRecOn with
  | nil => rfl
  | append_singleton entries en ih =>
    rw [List.filter_append, List.map_append, List.map_append, leftDown_append, leftDown_append]
    by_cases hmoves : en.event.stroke.Moves code
    · have harrived : en.Arrived := h entries en [] rfl hmoves (by simp)
      rw [List.filter_singleton, decide_eq_true harrived]
      exact Stroke.mem_after_of_moves hmoves
    · have hbefore : Settled code entries := by
        rintro pre en' post rfl hmoves' hpost
        refine h pre en' (post ++ [en]) (by simp) hmoves' fun en'' hmem => ?_
        rcases List.mem_append.mp hmem with hmem | hmem
        · exact hpost en'' hmem
        · rwa [List.mem_singleton.mp hmem]
      have hsame (held : Set UInt16) : code ∈ en.event.stroke.after held ↔ code ∈ held :=
        Stroke.mem_after_of_not_moves hmoves
      rw [List.filter_singleton]
      cases decide en.Arrived
      · exact (ih hbefore).trans (hsame _).symm
      · exact (hsame _).trans ((ih hbefore).trans (hsame _).symm)

end Entries

end Ferrokey.Uinput.Emit
