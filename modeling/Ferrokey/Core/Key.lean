import Mathlib.Data.Nat.Basic
import Mathlib.Order.Lattice

/-! # Physical keys

The keys Ferrokey is able to emit, their Linux input codes and the explicit
capability set advertised to the kernel. Keys are ordered as they are declared,
which is the order the held-key sets are kept in.
-/

namespace Ferrokey

inductive PhysicalKey where
  | escape | d1 | d2 | d3 | d4 | d5 | d6 | d7 | d8 | d9 | d0 | minus | equal | backspace | tab | q
  | w | e | r | t | y | u | i | o | p | leftBracket | rightBracket | enter | leftCtrl | a | s | d
  | f | g | h | j | k | l | semicolon | apostrophe | grave | leftShift | backslash | z | x | c | v
  | b | n | m | comma | dot | slash | rightShift | leftAlt | space | capsLock | intlBackslash
  | f1 | f2 | f3 | f4 | f5 | f6 | f7 | f8 | f9 | f10 | f11 | f12 | f13 | f14 | f15 | f16 | f17
  | f18 | f19 | f20 | f21 | f22 | f23 | f24
  | rightCtrl | rightAlt | leftMeta | rightMeta | menu | compose | sysRq | pause
  | numLock | scrollLock
  | insert | delete | home | «end» | pageUp | pageDown | up | down | left | right
  | kp0 | kp1 | kp2 | kp3 | kp4 | kp5 | kp6 | kp7 | kp8 | kp9 | kpDecimal | kpEnter | kpAdd
  | kpSubtract | kpMultiply | kpDivide | kpEqual | kpComma | kpLeftParen | kpRightParen
  | mute | volumeDown | volumeUp | nextSong | previousSong | stopCd | playPause | record | rewind
  | fastForward | ejectCd | brightnessDown | brightnessUp | power | sleep | wakeup | back
  | forward | refresh | homePage | mail | calculator | bookmarks | computer | search | help
  deriving DecidableEq, Repr

namespace PhysicalKey

/-- The derived order of the source: declaration order. -/
instance : LinearOrder PhysicalKey :=
  LinearOrder.lift' PhysicalKey.ctorIdx (fun key key' h => by
    have hn : ∀ key : PhysicalKey, PhysicalKey.ofNat key.ctorIdx = key := by
      intro key; cases key <;> rfl
    rw [← hn key, ← hn key', h])

/-- The Linux input event code (`KEY_*`) of a key. -/
def linuxCode : PhysicalKey → UInt32
  | .escape => 1 | .d1 => 2 | .d2 => 3 | .d3 => 4 | .d4 => 5 | .d5 => 6 | .d6 => 7 | .d7 => 8
  | .d8 => 9 | .d9 => 10 | .d0 => 11 | .minus => 12 | .equal => 13 | .backspace => 14 | .tab => 15
  | .q => 16 | .w => 17 | .e => 18 | .r => 19 | .t => 20 | .y => 21 | .u => 22 | .i => 23
  | .o => 24 | .p => 25 | .leftBracket => 26 | .rightBracket => 27 | .enter => 28
  | .leftCtrl => 29 | .a => 30 | .s => 31 | .d => 32 | .f => 33 | .g => 34 | .h => 35 | .j => 36
  | .k => 37 | .l => 38 | .semicolon => 39 | .apostrophe => 40 | .grave => 41 | .leftShift => 42
  | .backslash => 43 | .z => 44 | .x => 45 | .c => 46 | .v => 47 | .b => 48 | .n => 49 | .m => 50
  | .comma => 51 | .dot => 52 | .slash => 53 | .rightShift => 54 | .leftAlt => 56 | .space => 57
  | .capsLock => 58 | .intlBackslash => 86 | .f1 => 59 | .f2 => 60 | .f3 => 61 | .f4 => 62
  | .f5 => 63 | .f6 => 64 | .f7 => 65 | .f8 => 66 | .f9 => 67 | .f10 => 68 | .f11 => 87
  | .f12 => 88 | .f13 => 183 | .f14 => 184 | .f15 => 185 | .f16 => 186 | .f17 => 187 | .f18 => 188
  | .f19 => 189 | .f20 => 190 | .f21 => 191 | .f22 => 192 | .f23 => 193 | .f24 => 194
  | .rightCtrl => 97 | .rightAlt => 100 | .leftMeta => 125 | .rightMeta => 126 | .menu => 139
  | .compose => 127 | .sysRq => 99 | .pause => 119 | .numLock => 69 | .scrollLock => 70
  | .insert => 110 | .delete => 111 | .home => 102 | .end => 107 | .pageUp => 104
  | .pageDown => 109 | .up => 103 | .down => 108 | .left => 105 | .right => 106 | .kp0 => 82
  | .kp1 => 79 | .kp2 => 80 | .kp3 => 81 | .kp4 => 75 | .kp5 => 76 | .kp6 => 77 | .kp7 => 71
  | .kp8 => 72 | .kp9 => 73 | .kpDecimal => 83 | .kpEnter => 96 | .kpAdd => 78 | .kpSubtract => 74
  | .kpMultiply => 55 | .kpDivide => 98 | .kpEqual => 117 | .kpComma => 95 | .kpLeftParen => 179
  | .kpRightParen => 180 | .mute => 113 | .volumeDown => 114 | .volumeUp => 115 | .nextSong => 163
  | .previousSong => 165 | .stopCd => 166 | .playPause => 164 | .record => 167 | .rewind => 168
  | .fastForward => 208 | .ejectCd => 161 | .brightnessDown => 224 | .brightnessUp => 225
  | .power => 116 | .sleep => 142 | .wakeup => 143 | .back => 158 | .forward => 159
  | .refresh => 173 | .homePage => 172 | .mail => 155 | .calculator => 140 | .bookmarks => 156
  | .computer => 157 | .search => 217 | .help => 138

def isLockKey : PhysicalKey → Bool
  | .capsLock | .numLock | .scrollLock => true
  | _ => false

end PhysicalKey

def capabilitySet : List PhysicalKey :=
  [.escape, .d1, .d2, .d3, .d4, .d5, .d6, .d7, .d8, .d9, .d0, .minus, .equal, .backspace, .tab,
   .q, .w, .e, .r, .t, .y, .u, .i, .o, .p, .leftBracket, .rightBracket, .enter, .a, .s, .d, .f,
   .g, .h, .j, .k, .l, .semicolon, .apostrophe, .grave, .backslash, .z, .x, .c, .v, .b, .n, .m,
   .comma, .dot, .slash, .space, .intlBackslash, .leftShift, .rightShift, .leftCtrl, .rightCtrl,
   .leftAlt, .rightAlt, .leftMeta, .rightMeta, .menu, .compose, .capsLock, .numLock, .scrollLock,
   .sysRq, .pause, .f1, .f2, .f3, .f4, .f5, .f6, .f7, .f8, .f9, .f10, .f11, .f12, .f13, .f14,
   .f15, .f16, .f17, .f18, .f19, .f20, .f21, .f22, .f23, .f24, .insert, .delete, .home, .end,
   .pageUp, .pageDown, .up, .down, .left, .right, .kp0, .kp1, .kp2, .kp3, .kp4, .kp5, .kp6, .kp7,
   .kp8, .kp9, .kpDecimal, .kpEnter, .kpAdd, .kpSubtract, .kpMultiply, .kpDivide, .kpEqual,
   .kpComma, .kpLeftParen, .kpRightParen, .mute, .volumeDown, .volumeUp, .nextSong, .previousSong,
   .stopCd, .playPause, .record, .rewind, .fastForward, .ejectCd, .brightnessDown, .brightnessUp,
   .power, .sleep, .wakeup, .back, .forward, .refresh, .homePage, .mail, .calculator, .bookmarks,
   .computer, .search, .help]

theorem PhysicalKey.mem_capabilitySet (key : PhysicalKey) : key ∈ capabilitySet := by
  cases key <;> exact List.mem_of_elem_eq_true rfl

/-- No two keys share their Linux input code. -/
theorem nodup_linuxCodes : (capabilitySet.map fun key => key.linuxCode.toNat).Nodup := by
  decide +kernel

/-- Resolve a Linux input code back into a key of the capability set. -/
def PhysicalKey.fromLinuxCode (code : UInt32) : Option PhysicalKey :=
  capabilitySet.find? (fun key => key.linuxCode == code)

theorem PhysicalKey.linuxCode_of_fromLinuxCode {code : UInt32} {key : PhysicalKey}
    (h : fromLinuxCode code = some key) : key.linuxCode = code := by
  simpa using List.find?_some h

theorem PhysicalKey.mem_of_fromLinuxCode {code : UInt32} {key : PhysicalKey}
    (h : fromLinuxCode code = some key) : key ∈ capabilitySet :=
  List.mem_of_find?_eq_some h

theorem PhysicalKey.fromLinuxCode_isSome {key : PhysicalKey} (h : key ∈ capabilitySet) :
    (fromLinuxCode key.linuxCode).isSome := by
  rw [fromLinuxCode, List.find?_isSome]
  exact ⟨key, h, beq_self_eq_true _⟩

end Ferrokey
