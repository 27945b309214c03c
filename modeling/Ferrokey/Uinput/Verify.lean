import Ferrokey.Uinput.Bitmap

/-! # Verification of the created device

Before a device is used, its identity and its capability bitmaps are read back from the
kernel and compared with the expected ones.
-/

namespace Ferrokey.Uinput

open Text

structure DeviceIdentity where
  bus : ℕ
  vendor : ℕ
  product : ℕ
  version : ℕ
  deriving DecidableEq

def DeviceIdentity.ferrokey : DeviceIdentity := ⟨0x03, 0xFE20, 0xFE21, 0x0001⟩

inductive UinputError where
  | sysname (text : String)
  | verify (text : String)
  deriving DecidableEq

/-- What the kernel tells about a device: its name, and the directories and files below
`/sys`. -/
structure Sysfs where
  sysname : Except String String
  isPresent : String → Bool
  readToString : String → Except String String

def evSyn : UInt16 := 0x00

def evKey : UInt16 := 0x01

def capabilityCodes : List UInt16 := capabilitySet.map toLinuxCode

def hexText (n : ℕ) : String := String.ofList (Nat.toDigits 16 n)

/-- One 16-bit field of the identity; a text that is not a number counts as zero. -/
def readIdField (sys : Sysfs) (path name : String) : Except String ℕ := do
  let text ← sys.readToString s!"{path}/{name}"
  return (fromStrRadix16 (2 ^ 16) (trim text.toList)).getD 0

def readDeviceId (sys : Sysfs) (path : String) : Except String DeviceIdentity := do
  let bus ← readIdField sys path "bustype"
  let vendor ← readIdField sys path "vendor"
  let product ← readIdField sys path "product"
  let version ← readIdField sys path "version"
  return ⟨bus, vendor, product, version⟩

def readCapFile (sys : Sysfs) (path : String) : Except UinputError (List UInt16) :=
  match sys.readToString path with
  | .error _ => .error (.verify s!"reading capability bitmap from {path}")
  | .ok text => .ok (readCapBitmap text.toList)

def checkIdentity (sys : Sysfs) (syspath : String) : Except UinputError Unit :=
  match readDeviceId sys s!"{syspath}/id" with
  | .error _ => .error (.verify s!"reading device id from {syspath}/id")
  | .ok id =>
    let expected := DeviceIdentity.ferrokey
    if id ≠ expected then
      .error (.verify ("device identity mismatch: " ++
        s!"bus={hexText id.bus} vendor={hexText id.vendor} product={hexText id.product} " ++
        s!"version={hexText id.version}, expected bus={hexText expected.bus} " ++
        s!"vendor={hexText expected.vendor} product={hexText expected.product} " ++
        s!"version={hexText expected.version}"))
    else .ok ()

def checkCapabilities (sys : Sysfs) (syspath : String) : Except UinputError Unit := do
  let ev ← readCapFile sys s!"{syspath}/capabilities/ev"
  let key ← readCapFile sys s!"{syspath}/capabilities/key"
  let expectKey := capabilityCodes.mergeSort
  let expectEv := [evKey, evSyn].mergeSort
  if ev ≠ expectEv then
    .error (.verify s!"device advertises unexpected event classes: {ev}")
  else if key ≠ expectKey then
    .error (.verify ("device capability bitmap does not match the immutable set " ++
      s!"({key.length} codes advertised, {expectKey.length} expected)"))
  else .ok ()

def sysPath (sysname : String) : String := s!"/sys/devices/virtual/input/{sysname}"

def verify (sys : Sysfs) : Except UinputError Unit :=
  match sys.sysname with
  | .error e => .error (.sysname e)
  | .ok sysname =>
    if !("input".toList.isPrefixOf sysname.toList) then
      .error (.verify s!"unexpected uinput sysname {sysname.quote}")
    else if !sys.isPresent (sysPath sysname) then
      .error (.verify s!"sysfs path {sysPath sysname} does not exist for created device")
    else do
      checkIdentity sys (sysPath sysname)
      checkCapabilities sys (sysPath sysname)

/-- The kernel shows a device of a name with two sets of capabilities. -/
structure Shows (sys : Sysfs) (name : String) (evs keys : Finset UInt16) : Prop where
  sysname : sys.sysname = .ok name
  ev : sys.readToString s!"{sysPath name}/capabilities/ev" =
    .ok (String.ofList (sysfsBitmap evs ++ ['\n']))
  key : sys.readToString s!"{sysPath name}/capabilities/key" =
    .ok (String.ofList (sysfsBitmap keys ++ ['\n']))

/-- Name, directory and identity are those of a Ferrokey keyboard. -/
def Identified (sys : Sysfs) (name : String) : Prop :=
  "input".toList <+: name.toList ∧ sys.isPresent (sysPath name) = true ∧
    readDeviceId sys s!"{sysPath name}/id" = .ok .ferrokey

section

variable {sys : Sysfs} {name : String} {evs keys : Finset UInt16}

theorem whitespace_newline : ∀ c ∈ ['\n'], isWhitespace c = true :=
  List.forall_mem_singleton.mpr rfl

theorem readCapFile_of_text {path : String} {codes : Finset UInt16}
    (h : sys.readToString path = .ok (String.ofList (sysfsBitmap codes ++ ['\n']))) :
    readCapFile sys path = .ok codes.sort := by
  have hr : readCapBitmap (sysfsBitmap codes ++ ['\n']) = codes.sort :=
    readCapBitmap_sysfsBitmap codes whitespace_newline
  simp [readCapFile, h, hr]

theorem checkIdentity_eq_ok_iff {syspath : String} : checkIdentity sys syspath = .ok () ↔
    readDeviceId sys s!"{syspath}/id" = .ok .ferrokey := by
  unfold checkIdentity
  cases readDeviceId sys s!"{syspath}/id" with
  | error e => simp
  | ok id =>
    by_cases h : id = .ferrokey <;> simp [h]

/-- A list without repetitions is the sorted list of its own set. -/
theorem mergeSort_eq_sort {codes : List UInt16} (h : codes.Nodup) :
    codes.mergeSort = codes.toFinset.sort := by
  apply List.SortedLT.eq_of_mem_iff
  · exact codes.sortedLE_mergeSort.sortedLT_of_nodup (codes.mergeSort_perm _ |>.nodup_iff.mpr h)
  · exact codes.toFinset.sortedLT_sort
  · intro code
    rw [List.mem_mergeSort, Finset.mem_sort, List.mem_toFinset]

theorem sort_eq_mergeSort_iff {codes : Finset UInt16} {expected : List UInt16}
    (h : expected.Nodup) : codes.sort = expected.mergeSort ↔ codes = expected.toFinset := by
  rw [mergeSort_eq_sort h]
  constructor
  · intro he
    rw [← codes.sort_toFinset (· ≤ ·), he, Finset.sort_toFinset]
  · rintro rfl
    rfl

theorem nodup_capabilityCodes : capabilityCodes.Nodup := by
  have h : (capabilitySet.map fun key => key.linuxCode.toNat).Nodup := nodup_linuxCodes
  exact h.of_map _ |>.map toLinuxCode_injective

theorem checkCapabilities_eq_ok_iff (h : Shows sys name evs keys) :
    checkCapabilities sys (sysPath name) = .ok () ↔
      evs = {evSyn, evKey} ∧ keys = capabilityCodes.toFinset := by
  have hev : evs.sort = [evKey, evSyn].mergeSort ↔ evs = {evSyn, evKey} := by
    rw [sort_eq_mergeSort_iff (by decide)]
    have he : [evKey, evSyn].toFinset = {evSyn, evKey} := by decide
    rw [he]
  rw [← hev, ← sort_eq_mergeSort_iff nodup_capabilityCodes, checkCapabilities,
    readCapFile_of_text h.ev, readCapFile_of_text h.key]
  simp only [bind, Except.bind]
  by_cases h₁ : evs.sort = [evKey, evSyn].mergeSort
  · by_cases h₂ : keys.sort = capabilityCodes.mergeSort <;> simp [h₁, h₂]
  · simp [h₁]

/-- The text of any set of codes is read as its codes in ascending order, and so the devices
that are accepted are the identified ones that advertise exactly the expected sets. -/
theorem verify_iff (codes : Finset UInt16) (h : Shows sys name evs keys) :
    (readCapBitmap (sysfsBitmap codes) = codes.sort ∧
      readCapBitmap (sysfsBitmap codes ++ ['\n']) = codes.sort) ∧
    (verify sys = .ok () ↔
      Identified sys name ∧ evs = {evSyn, evKey} ∧ keys = capabilityCodes.toFinset) := by
  refine ⟨⟨?_, readCapBitmap_sysfsBitmap codes whitespace_newline⟩, ?_⟩
  · have hr := readCapBitmap_sysfsBitmap codes (List.forall_mem_nil _)
    rwa [List.append_nil] at hr
  · rw [← checkCapabilities_eq_ok_iff h, Identified, ← checkIdentity_eq_ok_iff,
      ← List.isPrefixOf_iff_prefix, verify, h.sysname]
    dsimp only
    generalize "input".toList.isPrefixOf name.toList = starts
    cases starts with
    | false => simp
    | true =>
      cases sys.isPresent (sysPath name) with
      | false => simp
      | true => cases checkIdentity sys (sysPath name) <;> simp [bind, Except.bind]

def createdPath : String := sysPath "input5"

/-- The texts of the files of a device that has just been created. -/
def createdTexts : List (String × String) :=
  [("id/bustype", "0003\n"), ("id/vendor", "fe20\n"), ("id/product", "fe21\n"),
    ("id/version", "0001\n"),
    ("capabilities/ev", String.ofList (sysfsBitmap {evSyn, evKey} ++ ['\n'])),
    ("capabilities/key", String.ofList (sysfsBitmap capabilityCodes.toFinset ++ ['\n']))]

def createdFiles : Sysfs where
  sysname := .ok "input5"
  isPresent path := path == createdPath
  readToString path :=
    match createdTexts.find? fun file => s!"{createdPath}/{file.1}" == path with
    | some file => .ok file.2
    | none => .error "not found"

theorem createdFiles_shows :
    Shows createdFiles "input5" {evSyn, evKey} capabilityCodes.toFinset where
  sysname := rfl
  ev := rfl
  key := rfl

theorem createdFiles_identified : Identified createdFiles "input5" := by
  refine ⟨by decide, by decide, ?_⟩
  rfl

theorem verify_created : (readCapBitmap (sysfsBitmap {30, 256}) = Finset.sort {30, 256} ∧
      readCapBitmap (sysfsBitmap {30, 256} ++ ['\n']) = Finset.sort {30, 256}) ∧
    verify createdFiles = .ok () :=
  have h := verify_iff {30, 256} createdFiles_shows
  ⟨h.1, h.2.mpr ⟨createdFiles_identified, rfl, rfl⟩⟩

end

end Ferrokey.Uinput
