import Moxia.Task.Manager
import Mathlib.Data.List.Basic
import Mathlib.Data.List.GetD
import Mathlib.Data.List.Induction

/-!
# The keyboard (`keyboard.cpp`)

`Inb` delivers one scancode for each interrupt. `keyboardOnInterrupt` returns the messages passed to
`task_manager->SendMessage(1, ..)` beside the new state. What is held down is told by the scancodes
so far: a key is held if its last event was a press (`Held`).
-/

namespace Moxia

def kBreakMask : UInt8 := 0x80
def kKeyLShift : UInt8 := 0x2a
def kKeyRShift : UInt8 := 0x36
def kKeyCtrl : UInt8 := 0x1d
def kKeyAlt : UInt8 := 0x38

def kKeyShiftMask : UInt16 := 0x0100
def kKeyCtrlMask : UInt16 := 0x0200
def kKeyAltMask : UInt16 := 0x0400

def keyChars (cs : List Char) : List UInt8 := cs.map Char.toUInt8

/-- What is left out behind the last key is 0. -/
def kKeymapLower : List UInt8 :=
  [0, 27] ++ keyChars ['1', '2', '3', '4', '5', '6', '7', '8', '9', '0', '-', '='] ++ [8] ++
  [9] ++ keyChars ['q', 'w', 'e', 'r', 't', 'y', 'u', 'i', 'o', 'p', '[', ']'] ++ [10] ++
  [0] ++ keyChars ['a', 's', 'd', 'f', 'g', 'h', 'j', 'k', 'l', ';'] ++ [0x27, 0x60, 0, 0x5c] ++
  keyChars ['z', 'x', 'c', 'v', 'b', 'n', 'm', ',', '.', '/'] ++ [0] ++ keyChars ['*'] ++ [0] ++
    keyChars [' '] ++
  List.replicate 16 0 ++ keyChars ['-'] ++ [0, 0, 0] ++ keyChars ['+']

def kKeymapUpper : List UInt8 :=
  [0, 27] ++ keyChars ['!', '@', '#', '$', '%', '^', '&', '*', '(', ')', '_', '+'] ++ [8] ++
  [9] ++ keyChars ['Q', 'W', 'E', 'R', 'T', 'Y', 'U', 'I', 'O', 'P'] ++ [0x7b, 0x7d, 10] ++
  [0] ++ keyChars ['A', 'S', 'D', 'F', 'G', 'H', 'J', 'K', 'L', ':'] ++ [0x22] ++ keyChars ['~'] ++
    [0] ++ keyChars ['|'] ++
  keyChars ['Z', 'X', 'C', 'V', 'B', 'N', 'M', '<', '>', '?'] ++ [0] ++ keyChars ['*'] ++ [0] ++
    keyChars [' '] ++
  List.replicate 16 0 ++ keyChars ['-'] ++ [0, 0, 0] ++ keyChars ['+']

/-- `x |= n` and `x &= n` for an `int` n. -/
def orAssign (x : UInt8) (n : BitVec 32) : UInt8 := ⟨(x.toBitVec.setWidth 32 ||| n).setWidth 8⟩
def andAssign (x : UInt8) (n : BitVec 32) : UInt8 := ⟨(x.toBitVec.setWidth 32 &&& n).setWidth 8⟩

structure Keyboard where
  keyShiftPressed : UInt8 := 0
  keyCtrlPressed : Bool := false
  keyAltPressed : Bool := false
deriving DecidableEq

namespace Keyboard

/-- The `default` case for a key that is pressed. -/
def keycode (kb : Keyboard) (scancode : UInt8) : UInt16 :=
  let keycode :=
    if kb.keyShiftPressed ≠ 0 then (kKeymapUpper.getD scancode.toNat 0).toUInt16 ||| kKeyShiftMask
    else (kKeymapLower.getD scancode.toNat 0).toUInt16
  let keycode := if kb.keyCtrlPressed then keycode ||| kKeyCtrlMask else keycode
  if kb.keyAltPressed then keycode ||| kKeyAltMask else keycode

def keyboardOnInterrupt (kb : Keyboard) (scancode : UInt8) : Keyboard × List Message :=
  if scancode &&& kBreakMask = 0 then
    if scancode = kKeyLShift then
      ({ kb with keyShiftPressed := orAssign kb.keyShiftPressed 0xb10 }, [])
    else if scancode = kKeyRShift then
      ({ kb with keyShiftPressed := orAssign kb.keyShiftPressed 0xb01 }, [])
    else if scancode = kKeyCtrl then ({ kb with keyCtrlPressed := true }, [])
    else if scancode = kKeyAlt then ({ kb with keyAltPressed := true }, [])
    else (kb, [.kKeyboardPush (kb.keycode scancode).toNat])
  else
    let key := scancode &&& ~~~kBreakMask
    if key = kKeyLShift then
      ({ kb with keyShiftPressed := andAssign kb.keyShiftPressed (~~~0xb10) }, [])
    else if key = kKeyRShift then
      ({ kb with keyShiftPressed := andAssign kb.keyShiftPressed (~~~0xb01) }, [])
    else if key = kKeyCtrl then ({ kb with keyCtrlPressed := false }, [])
    else if key = kKeyAlt then ({ kb with keyAltPressed := false }, [])
    else (kb, [])

/-- One interrupt after the other: the state, and all that has been sent. -/
def run (scancodes : List UInt8) : Keyboard × List Message :=
  scancodes.foldl (fun st scancode =>
    let (kb, sent) := st.1.keyboardOnInterrupt scancode
    (kb, st.2 ++ sent)) ({}, [])

/-! ## What the scancodes say -/

/-- The key of a scancode, pressed or released. -/
def keyOf (scancode : UInt8) : UInt8 := scancode &&& ~~~kBreakMask

def IsPress (scancode : UInt8) : Prop := scancode &&& kBreakMask = 0

instance : DecidablePred IsPress :=
  fun scancode => inferInstanceAs (Decidable (scancode &&& kBreakMask = 0))

/-- The last event of the key was a press. -/
def held (key : UInt8) (scancodes : List UInt8) : Bool :=
  (scancodes.filter fun scancode => keyOf scancode = key).getLast?.any fun scancode =>
    IsPress scancode

def IsModifier (scancode : UInt8) : Prop :=
  scancode = kKeyLShift ∨ scancode = kKeyRShift ∨ scancode = kKeyCtrl ∨ scancode = kKeyAlt

instance : DecidablePred IsModifier := fun _ => inferInstanceAs (Decidable (_ ∨ _))

/-- The keycode of a key that is pressed after the given scancodes: a character, and the masks of
what is held. -/
def keycodeAfter (before : List UInt8) (scancode : UInt8) : Nat :=
  let shift := held kKeyLShift before || held kKeyRShift before
  let keymap := if shift then kKeymapUpper else kKeymapLower
  (keymap.getD scancode.toNat 0).toNat + (if shift then kKeyShiftMask.toNat else 0) +
    (if held kKeyCtrl before then kKeyCtrlMask.toNat else 0) + if held kKeyAlt before then
      kKeyAltMask.toNat else 0

/-- What is to be sent: a message for each press of a key that is no modifier. -/
def expected (scancodes : List UInt8) : List Message :=
  (List.range scancodes.length).filterMap fun i =>
    let scancode := scancodes.getD i 0
    if IsPress scancode ∧ ¬ IsModifier scancode then
      some (.kKeyboardPush (keycodeAfter (scancodes.take i) scancode))
    else none

/-! ## Keys that are held -/

variable {kb kb' : Keyboard} {before : List UInt8} {scancode key : UInt8}

theorem held_snoc : held key (before ++ [scancode]) = if keyOf scancode = key then
    decide (IsPress scancode) else held key before := by
  rw [held, List.filter_append]
  by_cases hkey : keyOf scancode = key
  · rw [if_pos hkey, List.filter_cons_of_pos (by simpa using hkey), List.filter_nil,
      List.getLast?_concat, Option.any_some]
  · rw [if_neg hkey, List.filter_cons_of_neg (by simpa using hkey), List.filter_nil,
      List.append_nil, held]

theorem keyOf_of_isPress (h : IsPress scancode) : keyOf scancode = scancode := by
  have hbits : ∀ x : BitVec 8, x &&& 0x80#8 = 0#8 → x &&& ~~~0x80#8 = x := by decide
  exact UInt8.toBitVec_inj.1 (hbits scancode.toBitVec (UInt8.toBitVec_inj.2 h))

/-- The byte for the two Shift keys. -/
def shiftByte (left right : Bool) : UInt8 :=
  (if left then 0x10 else 0) ||| if right then 0x01 else 0

/-- Pressing or releasing one Shift key leaves the other as it is. -/
theorem shiftByte_set (left right : Bool) :
    orAssign (shiftByte left right) 0xb10 = shiftByte true right ∧
    orAssign (shiftByte left right) 0xb01 = shiftByte left true ∧
    andAssign (shiftByte left right) (~~~0xb10) = shiftByte false right ∧
    andAssign (shiftByte left right) (~~~0xb01) = shiftByte left false := by
  cases left <;> cases right <;> decide

/-- The state tells what is held. -/
structure Tracks (before : List UInt8) (kb : Keyboard) : Prop where
  shift : kb.keyShiftPressed = shiftByte (held kKeyLShift before) (held kKeyRShift before)
  ctrl : kb.keyCtrlPressed = held kKeyCtrl before
  alt : kb.keyAltPressed = held kKeyAlt before

/-- An event of the key `key` changes what is held of that key only. -/
theorem tracks_snoc (hkey : keyOf scancode = key)
    (hshift : kb.keyShiftPressed = shiftByte (if key = kKeyLShift then decide (IsPress scancode)
    else held kKeyLShift before)
      (if key = kKeyRShift then decide (IsPress scancode) else held kKeyRShift before))
    (hctrl : kb.keyCtrlPressed = if key = kKeyCtrl then decide (IsPress scancode) else
    held kKeyCtrl before)
    (halt : kb.keyAltPressed = if key = kKeyAlt then decide (IsPress scancode) else
    held kKeyAlt before) :
    Tracks (before ++ [scancode]) kb := by
  subst hkey
  exact ⟨by rw [held_snoc, held_snoc, hshift], by rw [held_snoc, hctrl], by rw [held_snoc, halt]⟩

theorem Tracks.press (h : Tracks before kb) (hpress : IsPress scancode) :
    Tracks (before ++ [scancode]) (kb.keyboardOnInterrupt scancode).1 := by
  have hkey := keyOf_of_isPress hpress
  have htrue : decide (IsPress scancode) = true := decide_eq_true hpress
  obtain ⟨hset, hset', -, -⟩ := shiftByte_set (held kKeyLShift before) (held kKeyRShift before)
  have hbit : scancode &&& kBreakMask = 0 := hpress
  rw [keyboardOnInterrupt, if_pos hbit]
  split
  · rename_i hl
    refine tracks_snoc (hkey.trans hl) ?_ h.ctrl h.alt
    rw [htrue]
    exact h.shift ▸ hset
  split
  · rename_i hr
    refine tracks_snoc (hkey.trans hr) ?_ h.ctrl h.alt
    rw [htrue]
    exact h.shift ▸ hset'
  split
  · rename_i hc
    exact tracks_snoc (hkey.trans hc) h.shift htrue.symm h.alt
  split
  · rename_i ha
    exact tracks_snoc (hkey.trans ha) h.shift h.ctrl htrue.symm
  · rename_i hl hr hc ha
    exact tracks_snoc hkey (by rw [if_neg hl, if_neg hr, h.shift]) (by rw [if_neg hc, h.ctrl])
      (by rw [if_neg ha, h.alt])

theorem Tracks.release (h : Tracks before kb) (hrelease : ¬ IsPress scancode) :
    Tracks (before ++ [scancode]) (kb.keyboardOnInterrupt scancode).1 := by
  have hfalse : decide (IsPress scancode) = false := decide_eq_false hrelease
  obtain ⟨-, -, hclear, hclear'⟩ := shiftByte_set (held kKeyLShift before) (held kKeyRShift before)
  have hbit : ¬ scancode &&& kBreakMask = 0 := hrelease
  rw [keyboardOnInterrupt, if_neg hbit]
  dsimp only
  split
  · rename_i hl
    refine tracks_snoc hl ?_ h.ctrl h.alt
    rw [hfalse]
    exact h.shift ▸ hclear
  split
  · rename_i hr
    refine tracks_snoc hr ?_ h.ctrl h.alt
    rw [hfalse]
    exact h.shift ▸ hclear'
  split
  · rename_i hc
    exact tracks_snoc hc h.shift hfalse.symm h.alt
  split
  · rename_i ha
    exact tracks_snoc ha h.shift h.ctrl hfalse.symm
  · rename_i hl hr hc ha
    exact tracks_snoc rfl (by rw [keyOf, if_neg hl, if_neg hr, h.shift])
      (by rw [keyOf, if_neg hc, h.ctrl])
      (by rw [keyOf, if_neg ha, h.alt])

/-! ## What is sent -/

theorem or_mask {x mask : UInt16} {i : Nat} (hmask : mask.toNat = 2 ^ i)
    (hx : x.toNat < 2 ^ i) (b : Bool) :
    (if b then x ||| mask else x).toNat = x.toNat + (if b then mask.toNat else 0) ∧
      (if b then x ||| mask else x).toNat < 2 ^ (i + 1) := by
  cases b with
  | false => exact ⟨rfl, Nat.lt_trans hx (Nat.pow_lt_pow_right (by decide) (Nat.lt_succ_self i))⟩
  | true =>
    have hadd := Nat.two_pow_add_eq_or_of_lt hx 1
    rw [Nat.mul_one] at hadd
    have hor : (x ||| mask).toNat = x.toNat + mask.toNat := by
      rw [UInt16.toNat_or, Nat.or_comm, hmask, ← hadd, Nat.add_comm]
    refine ⟨hor, ?_⟩
    show (x ||| mask).toNat < _
    rw [hor, hmask, Nat.pow_succ]
    omega

/-- The masks are not among the bits of a character, nor among those of each other. -/
theorem Tracks.keycode_toNat (h : Tracks before kb) :
    (kb.keycode scancode).toNat = keycodeAfter before scancode := by
  have hkeymap : kb.keycode scancode =
      let shift := held kKeyLShift before || held kKeyRShift before
      let char := ((if shift then kKeymapUpper else kKeymapLower).getD scancode.toNat 0).toUInt16
      let keycode := if shift then char ||| kKeyShiftMask else char
      let keycode := if held kKeyCtrl before then keycode ||| kKeyCtrlMask else keycode
      if held kKeyAlt before then keycode ||| kKeyAltMask else keycode := by
    rw [keycode, h.shift, h.ctrl, h.alt]
    cases held kKeyLShift before <;> cases held kKeyRShift before <;> rfl
  rw [hkeymap, keycodeAfter]
  set shift := held kKeyLShift before || held kKeyRShift before
  set char := (if shift then kKeymapUpper else kKeymapLower).getD scancode.toNat 0
  have hchar : char.toUInt16.toNat < 2 ^ 8 := by
    rw [UInt8.toNat_toUInt16]
    exact char.toNat_lt
  obtain ⟨hshift, hlt⟩ := or_mask (rfl : kKeyShiftMask.toNat = 2 ^ 8) hchar shift
  obtain ⟨hctrl, hlt⟩ := or_mask (rfl : kKeyCtrlMask.toNat = 2 ^ 9) hlt (held kKeyCtrl before)
  obtain ⟨halt, -⟩ := or_mask (rfl : kKeyAltMask.toNat = 2 ^ 10) hlt (held kKeyAlt before)
  dsimp only
  rw [halt, hctrl, hshift, UInt8.toNat_toUInt16]

theorem sent_of_key (hpress : IsPress scancode) (hmod : ¬ IsModifier scancode) :
    (kb.keyboardOnInterrupt scancode).2 = [.kKeyboardPush (kb.keycode scancode).toNat] := by
  have hbit : scancode &&& kBreakMask = 0 := hpress
  rw [IsModifier, not_or, not_or, not_or] at hmod
  rw [keyboardOnInterrupt, if_pos hbit, if_neg hmod.1, if_neg hmod.2.1, if_neg hmod.2.2.1,
    if_neg hmod.2.2.2]

theorem sent_of_modifier (hmod : IsModifier scancode) :
    (kb.keyboardOnInterrupt scancode).2 = [] := by
  rcases hmod with rfl | rfl | rfl | rfl <;> rfl

theorem sent_of_release (hrelease : ¬ IsPress scancode) :
    (kb.keyboardOnInterrupt scancode).2 = [] := by
  have hbit : ¬ scancode &&& kBreakMask = 0 := hrelease
  rw [keyboardOnInterrupt, if_neg hbit]
  dsimp only
  split_ifs <;> rfl

theorem Tracks.sent (h : Tracks before kb) : (kb.keyboardOnInterrupt scancode).2 =
      if IsPress scancode ∧ ¬ IsModifier scancode then
        [.kKeyboardPush (keycodeAfter before scancode)] else [] := by
  by_cases hpress : IsPress scancode
  · by_cases hmod : IsModifier scancode
    · rw [sent_of_modifier hmod, if_neg fun hand => hand.2 hmod]
    · rw [sent_of_key hpress hmod, if_pos ⟨hpress, hmod⟩, h.keycode_toNat]
  · rw [sent_of_release hpress, if_neg fun hand => hpress hand.1]

variable {scancodes : List UInt8}

theorem run_snoc :
    run (scancodes ++ [scancode]) = (((run scancodes).1.keyboardOnInterrupt scancode).1,
    (run scancodes).2 ++ ((run scancodes).1.keyboardOnInterrupt scancode).2) := by
  rw [run, List.foldl_append]
  rfl

theorem tracks_run (scancodes : List UInt8) : Tracks scancodes (run scancodes).1 := by
  induction scancodes using List.reverseRecOn with
  | nil => exact ⟨rfl, rfl, rfl⟩
  | append_singleton scancodes scancode ih =>
    rw [run_snoc]
    by_cases hpress : IsPress scancode
    · exact ih.press hpress
    · exact ih.release hpress

theorem expected_snoc : expected (scancodes ++ [scancode]) = expected scancodes ++
    if IsPress scancode ∧ ¬ IsModifier scancode then
      [.kKeyboardPush (keycodeAfter scancodes scancode)] else [] := by
  rw [expected, List.length_append, List.length_singleton, List.range_succ, List.filterMap_append]
  congr 1
  · refine List.filterMap_congr fun i hi => ?_
    have hlt := List.mem_range.1 hi
    rw [List.getD_append _ _ _ _ hlt, List.take_append_of_le_length (Nat.le_of_lt hlt)]
  · rw [List.filterMap_cons, List.getD_append_right _ _ _ _ (Nat.le_refl _), Nat.sub_self,
      List.take_left]
    dsimp only [List.getD_cons_zero]
    split <;> simp_all

/-- Each press of a key that is no modifier sends one message, with the masks of what is held, and
nothing else does. -/
theorem keyboard_decodes (scancodes : List UInt8) : (run scancodes).2 = expected scancodes := by
  induction scancodes using List.reverseRecOn with
  | nil => rfl
  | append_singleton scancodes scancode ih =>
      rw [run_snoc, expected_snoc, (tracks_run scancodes).sent, ih]

end Keyboard

end Moxia
