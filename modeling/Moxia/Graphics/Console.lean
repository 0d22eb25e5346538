import Moxia.Lib.Raster
import Moxia.Lib.Run

/-!
# The console (`fonts.cpp`, `console.cpp`)

The text buffer, the cursor and the pixels of the screen. The font, the colours and the resolution
are fixed.
-/

namespace Moxia

open Lib

structure PixelColor where
  r : UInt8
  g : UInt8
  b : UInt8
deriving DecidableEq

/-- What a console draws with. -/
structure Display where
  /-- `hankaku.bin`: 16 bytes for each of 256 characters. -/
  font : Nat → UInt8
  fgColor : PixelColor
  bgColor : PixelColor
  horizontalResolution : Nat
  verticalResolution : Nat

abbrev Screen := Picture PixelColor

def kFontSize : Nat := 4096

/-- `GetFont`: where the glyph of a character starts. `char` is signed. -/
def getFont (c : UInt8) : Option Nat :=
  let index := (16 * c.toBitVec.signExtend 32).toNat
  if index ≥ kFontSize then none else some index

namespace Display

variable (d : Display)

/-- `(font[dy] << dx) & 0x80u` -/
def fontBit (font dx dy : Nat) : Bool := (((d.font (font + dy)).toNat <<< dx) &&& 0x80) != 0

def writeAscii (screen : Screen) (x y : Nat) (c : UInt8) : Screen :=
  match getFont c with
  | none => screen
  | some font => screen.paint x y 16 16 fun dx dy =>
      if d.fontBit font dx dy then d.fgColor else d.bgColor

def writeString (screen : Screen) (x y : Nat) : List UInt8 → Screen
  | [] => screen
  | c :: s => if c = 0 then screen else writeString (d.writeAscii screen x y c) (x + 8) y s

/-- `PixelWriter::Clear` -/
def clear (screen : Screen) : Screen :=
  screen.paint 0 0 d.horizontalResolution d.verticalResolution fun _ _ => d.bgColor

end Display

def kRows : Nat := 25
def kColumns : Nat := 80

def newlineChar : UInt8 := 0x0a
def returnChar : UInt8 := 0x0d

structure Console where
  screen : Screen
  buffer : Nat → Nat → UInt8
  cursorRow : Nat
  cursorColumn : Nat

namespace Console

variable (d : Display)

/-- The constructor leaves the screen as it is. -/
def start (screen : Screen) : Console := ⟨screen, fun _ _ => 0, 0, 0⟩

/-- `buffer_[row]` -/
def line (buffer : Nat → Nat → UInt8) (row : Nat) : List UInt8 :=
  (List.range (kColumns + 1)).map (buffer row)

/-- The body of the loop that scrolls. -/
def scrollRow (st : Console) (row : Nat) : Console :=
  let buffer := Function.update st.buffer row (st.buffer (row + 1))
  { st with buffer := buffer, screen := d.writeString st.screen 0 (16 * row) (line buffer row) }

def newLine (st : Console) : Console :=
  let st := { st with cursorColumn := 0 }
  if st.cursorRow < kRows - 1 then { st with cursorRow := st.cursorRow + 1 }
  else
    let st :=
      { st with screen := st.screen.paint 0 0 (8 * kColumns) (16 * kRows) fun _ _ => d.bgColor }
    let st := (List.range (kRows - 1)).foldl (scrollRow d) st
    { st with buffer := Function.update st.buffer (kRows - 1) fun _ => 0 }

def putChar (st : Console) (c : UInt8) : Console :=
  if c = newlineChar then newLine d st
  else if c = returnChar then { st with cursorColumn := 0 }
  else if st.cursorColumn < kColumns - 1 then
    { st with
      screen := d.writeAscii st.screen (8 * st.cursorColumn) (16 * st.cursorRow) c
      buffer :=
        Function.update st.buffer st.cursorRow
          (Function.update (st.buffer st.cursorRow) st.cursorColumn c)
      cursorColumn := st.cursorColumn + 1 }
  else st

def putString (st : Console) : List UInt8 → Console
  | [] => st
  | c :: s => if c = 0 then st else putString (putChar d st c) s

def clear (st : Console) : Console :=
  { screen := d.clear st.screen, buffer := fun _ _ => 0, cursorRow := 0, cursorColumn := 0 }

inductive Event
  | putChar (c : UInt8)
  | putString (s : List UInt8)
  | clear

def step (st : Console) : Event → Console
  | .putChar c => putChar d st c
  | .putString s => putString d st s
  | .clear => clear d st

def Step (st : Console) (e : Event) (st' : Console) : Prop := st' = step d st e

/-- The screen that clearing it and writing every line of the buffer would leave. -/
def redraw (st : Console) : Screen :=
  (List.range kRows).foldl (fun screen row => d.writeString screen 0 (16 * row)
    (line st.buffer row)) (d.clear st.screen)

end Console

end Moxia
