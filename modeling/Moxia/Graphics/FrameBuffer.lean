import Moxia.Graphics.Shows

/-!
# The frame buffer (`graphics.cpp`)

The console draws with a `PixelWriter`, which stores the bytes of a pixel in the frame buffer.
`stepWrites` has the pixels that a step of the console writes, in their order; the screen of the
model is what these leave (`screen_stepWrites`). If the resolution is that of the text at least,
none of them is outside it, and after any run the frame buffer contains the screen
(`frameBuffer_shows`).
-/

namespace Moxia

open Lib

inductive PixelFormat
  | kPixelRGBResv8BitPerColor
  | kPixelBGRResv8BitPerColor
deriving DecidableEq

/-- The resolution is that of the display. -/
structure FrameBufferConfig where
  pixelsPerScanLine : Nat
  horizontalResolution : Nat
  verticalResolution : Nat
  pixelFormat : PixelFormat

/-- A call of `PixelWriter::Write`. -/
structure PixelWrite where
  x : Nat
  y : Nat
  color : PixelColor
deriving DecidableEq

namespace FrameBufferConfig

variable (config : FrameBufferConfig)

/-- `PixelAt`, behind `frame_buffer`. It is computed in 32 bits. -/
def pixelAt (x y : Nat) : Nat := 4 * (config.pixelsPerScanLine * y + x) % 2 ^ 32

/-- `RGBResv8BitPixelWriter::Write` and `BGRResv8BitPixelWriter::Write` -/
def write (mem : Nat → UInt8) (w : PixelWrite) : Nat → UInt8 :=
  let p := config.pixelAt w.x w.y
  match config.pixelFormat with
  | .kPixelRGBResv8BitPerColor =>
    Function.update (Function.update (Function.update mem p w.color.r) (p + 1) w.color.g)
      (p + 2) w.color.b
  | .kPixelBGRResv8BitPerColor =>
    Function.update (Function.update (Function.update mem p w.color.b) (p + 1) w.color.g)
      (p + 2) w.color.r

/-- The colour of a pixel. -/
def color (mem : Nat → UInt8) (x y : Nat) : PixelColor :=
  let p := config.pixelAt x y
  match config.pixelFormat with
  | .kPixelRGBResv8BitPerColor => ⟨mem p, mem (p + 1), mem (p + 2)⟩
  | .kPixelBGRResv8BitPerColor => ⟨mem (p + 2), mem (p + 1), mem p⟩

/-- A pixel that can be seen. -/
def Visible (x y : Nat) : Prop := x < config.horizontalResolution ∧ y < config.verticalResolution

/-- The lines of the screen are in those of the frame buffer, which 32 bits can address. -/
structure Ok : Prop where
  line : config.horizontalResolution ≤ config.pixelsPerScanLine
  size : 4 * (config.pixelsPerScanLine * config.verticalResolution) ≤ 2 ^ 32

/-- The frame buffer contains the screen. -/
def Shows (mem : Nat → UInt8) (screen : Screen) : Prop := ∀ x y, config.Visible x y →
    config.color mem x y = screen x y

/-- The byte is one of the colours of a pixel that can be seen. -/
def Color (i : Nat) : Prop := ∃ x y k, config.Visible x y ∧ k < 3 ∧ i = config.pixelAt x y + k

variable {config} {mem : Nat → UInt8} {screen : Screen} {w : PixelWrite} {x y : Nat}

theorem pixelAt_eq (hok : config.Ok) (hv : config.Visible x y) :
    config.pixelAt x y = 4 * (config.pixelsPerScanLine * y + x) := by
  have hrow : config.pixelsPerScanLine * (y + 1) ≤ config.pixelsPerScanLine *
    config.verticalResolution :=
    Nat.mul_le_mul_left _ hv.2
  have hline := hok.line
  have hsize := hok.size
  have hx := hv.1
  rw [Nat.mul_succ] at hrow
  exact Nat.mod_eq_of_lt (by omega)

theorem pixelAt_apart (hok : config.Ok) {x' y' : Nat} (hv : config.Visible x y)
    (hv' : config.Visible x' y')
    (hne : ¬ (x' = x ∧ y' = y)) :
    config.pixelAt x y + 4 ≤ config.pixelAt x' y' ∨ config.pixelAt x' y' + 4 ≤
      config.pixelAt x y := by
  rw [pixelAt_eq hok hv, pixelAt_eq hok hv']
  have hx := Nat.lt_of_lt_of_le hv.1 hok.line
  have hx' := Nat.lt_of_lt_of_le hv'.1 hok.line
  have hnumber : config.pixelsPerScanLine * y + x ≠ config.pixelsPerScanLine * y' + x' := by
    intro heq
    have hpos : 0 < config.pixelsPerScanLine := Nat.zero_lt_of_lt hx
    have hdiv := congrArg (· / config.pixelsPerScanLine) heq
    simp only [Nat.mul_add_div hpos, Nat.div_eq_of_lt hx, Nat.div_eq_of_lt hx', Nat.add_zero]
      at hdiv
    subst hdiv
    exact hne ⟨(Nat.add_left_cancel heq).symm, rfl⟩
  omega

theorem write_of_ne {i : Nat} (hi : ∀ k, k < 3 → i ≠ config.pixelAt w.x w.y + k) :
    config.write mem w i = mem i := by
  have h₀ : i ≠ config.pixelAt w.x w.y := hi 0 (by decide)
  rw [write]
  cases config.pixelFormat
  all_goals
    dsimp only
    rw [Function.update_of_ne (hi 2 (by decide)), Function.update_of_ne (hi 1 (by decide)),
      Function.update_of_ne h₀]

theorem color_write_self : config.color (config.write mem w) w.x w.y = w.color := by
  rw [color, write]
  cases config.pixelFormat <;> simp [Function.update]

theorem color_congr {mem' : Nat → UInt8}
    (hmem : ∀ k, k < 3 → mem' (config.pixelAt x y + k) = mem (config.pixelAt x y + k)) :
    config.color mem' x y = config.color mem x y := by
  have h₀ : mem' (config.pixelAt x y) = mem (config.pixelAt x y) := hmem 0 (by decide)
  rw [color, color]
  cases config.pixelFormat <;> simp only [h₀, hmem 1 (by decide), hmem 2 (by decide)]

theorem Shows.write (hok : config.Ok) (h : config.Shows mem screen) (hw : config.Visible w.x w.y) :
    config.Shows (config.write mem w) (Picture.write screen w.x w.y w.color) := by
  intro x y hv
  rw [Picture.write]
  by_cases hxy : x = w.x ∧ y = w.y
  · rw [if_pos hxy, hxy.1, hxy.2, color_write_self]
  · rw [if_neg hxy, ← h x y hv]
    refine color_congr fun k hk => write_of_ne fun j hj => ?_
    have := pixelAt_apart hok hw hv hxy
    omega

theorem Shows.writes (hok : config.Ok) {ws : List PixelWrite}
    (hws : ∀ w ∈ ws, config.Visible w.x w.y) (h : config.Shows mem screen) :
    config.Shows (ws.foldl config.write mem)
      (ws.foldl (fun screen w => Picture.write screen w.x w.y w.color) screen) := by
  induction ws generalizing mem screen with
  | nil => exact h
  | cons w ws ih =>
    obtain ⟨hw, hws⟩ := List.forall_mem_cons.1 hws
    exact ih hws (h.write hok hw)

theorem writes_of_not_color {ws : List PixelWrite} (hws : ∀ w ∈ ws, config.Visible w.x w.y)
    {i : Nat} (hi : ¬ config.Color i) :
    ws.foldl config.write mem i = mem i := by
  induction ws generalizing mem with
  | nil => rfl
  | cons w ws ih =>
    obtain ⟨hw, hws⟩ := List.forall_mem_cons.1 hws
    rw [List.foldl_cons, ih hws]
    exact write_of_ne fun k hk heq => hi ⟨w.x, w.y, k, hw, hk, heq⟩

end FrameBufferConfig

/-! ## What the console writes -/

/-- The screen after the writes. -/
def draw (screen : Screen) (ws : List PixelWrite) : Screen :=
  ws.foldl (fun screen w => Picture.write screen w.x w.y w.color) screen

/-- Two loops over a rectangle. -/
def paintWrites (x y w h : Nat) (color : Nat → Nat → PixelColor) : List PixelWrite :=
  (List.range h).flatMap fun dy => (List.range w).map fun dx => ⟨x + dx, y + dy, color dx dy⟩

namespace Display

variable (d : Display)

def asciiWrites (x y : Nat) (c : UInt8) : List PixelWrite :=
  match getFont c with
  | none => []
  | some font => paintWrites x y 16 16 fun dx dy =>
      if d.fontBit font dx dy then d.fgColor else d.bgColor

def stringWrites (x y : Nat) : List UInt8 → List PixelWrite
  | [] => []
  | c :: s => if c = 0 then [] else d.asciiWrites x y c ++ stringWrites (x + 8) y s

def clearWrites : List PixelWrite :=
  paintWrites 0 0 d.horizontalResolution d.verticalResolution fun _ _ => d.bgColor

end Display

namespace Console

variable (d : Display)

def scrollRowWrites (st : Console) (row : Nat) : List PixelWrite :=
  d.stringWrites 0 (16 * row) (line (scrollRow d st row).buffer row)

def scrollWrites : Console → List Nat → List PixelWrite
  | _, [] => []
  | st, row :: rows => scrollRowWrites d st row ++ scrollWrites (scrollRow d st row) rows

def newLineWrites (st : Console) : List PixelWrite :=
  if st.cursorRow < kRows - 1 then []
  else
    let st := { st with
      cursorColumn := 0
      screen := st.screen.paint 0 0 (8 * kColumns) (16 * kRows) fun _ _ => d.bgColor }
    paintWrites 0 0 (8 * kColumns) (16 * kRows) (fun _ _ => d.bgColor) ++
      scrollWrites d st (List.range (kRows - 1))

def putCharWrites (st : Console) (c : UInt8) : List PixelWrite :=
  if c = newlineChar then newLineWrites d st
  else if c = returnChar then []
  else if st.cursorColumn < kColumns - 1 then
    d.asciiWrites (8 * st.cursorColumn) (16 * st.cursorRow) c
  else []

def putStringWrites : Console → List UInt8 → List PixelWrite
  | _, [] => []
  | st, c :: s => if c = 0 then [] else putCharWrites d st c ++ putStringWrites (putChar d st c) s

def stepWrites (st : Console) : Event → List PixelWrite
  | .putChar c => putCharWrites d st c
  | .putString s => putStringWrites d st s
  | .clear => d.clearWrites

def runWrites : Console → List Event → List PixelWrite
  | _, [] => []
  | st, e :: es => stepWrites d st e ++ runWrites (step d st e) es

end Console

/-! ## The screen is what they leave -/

section

variable {d : Display} {screen : Screen} {st : Console} {c : UInt8}

theorem draw_append (ws ws' : List PixelWrite) :
    draw screen (ws ++ ws') = draw (draw screen ws) ws' := List.foldl_append

theorem draw_paintWrites (x y w h : Nat) (color : Nat → Nat → PixelColor) :
    draw screen (paintWrites x y w h color) = screen.paint x y w h color := by
  rw [draw, paintWrites, List.foldl_flatMap, Picture.paint]
  refine congrArg (fun f => List.foldl f screen (List.range h)) (funext fun p =>
    funext fun dy => ?_)
  rw [List.foldl_map, Picture.paintRow]

theorem draw_asciiWrites (x y : Nat) (c : UInt8) :
    draw screen (d.asciiWrites x y c) = d.writeAscii screen x y c := by
  rw [Display.asciiWrites, Display.writeAscii]
  cases getFont c with
  | none => rfl
  | some font => exact draw_paintWrites ..

theorem draw_stringWrites (x y : Nat) (s : List UInt8) :
    draw screen (d.stringWrites x y s) = d.writeString screen x y s := by
  induction s generalizing screen x with
  | nil => rfl
  | cons c s ih =>
    rw [Display.stringWrites, Display.writeString]
    split
    · rfl
    · rw [draw_append, draw_asciiWrites, ih]

namespace Console

theorem screen_scrollWrites (st : Console) (rows : List Nat) :
    (rows.foldl (scrollRow d) st).screen = draw st.screen (scrollWrites d st rows) := by
  induction rows generalizing st with
  | nil => rfl
  | cons row rows ih =>
    rw [List.foldl_cons, ih, scrollWrites, draw_append, scrollRowWrites, draw_stringWrites]
    rfl

theorem screen_newLineWrites (st : Console) :
    (newLine d st).screen = draw st.screen (newLineWrites d st) := by
  rw [newLine, newLineWrites]
  dsimp only
  split
  · rfl
  · rw [draw_append, draw_paintWrites, screen_scrollWrites]

theorem screen_putCharWrites (st : Console) (c : UInt8) :
    (putChar d st c).screen = draw st.screen (putCharWrites d st c) := by
  rw [putChar, putCharWrites]
  split
  · exact screen_newLineWrites st
  split
  · rfl
  split
  · exact (draw_asciiWrites ..).symm
  · rfl

theorem screen_putStringWrites (st : Console) (s : List UInt8) :
    (putString d st s).screen = draw st.screen (putStringWrites d st s) := by
  induction s generalizing st with
  | nil => rfl
  | cons c s ih =>
    rw [putString, putStringWrites]
    split
    · rfl
    · rw [ih, draw_append, screen_putCharWrites]

theorem screen_stepWrites (st : Console) (e : Event) :
    (step d st e).screen = draw st.screen (stepWrites d st e) := by
  cases e with
  | putChar c => exact screen_putCharWrites st c
  | putString s => exact screen_putStringWrites st s
  | clear => exact (draw_paintWrites ..).symm

theorem screen_runWrites (st : Console) (es : List Event) :
    (es.foldl (step d) st).screen = draw st.screen (runWrites d st es) := by
  induction es generalizing st with
  | nil => rfl
  | cons e es ih => rw [List.foldl_cons, ih, runWrites, draw_append, screen_stepWrites]

/-! ## They are on the screen -/

/-- The cursor is in the buffer, whose rows have at most 79 characters. -/
structure Short (st : Console) : Prop where
  row_lt : st.cursorRow < kRows
  last : ∀ row, row < kRows → st.buffer row (kColumns - 1) = 0

/-- The pixel belongs to the text. -/
def InText (w : PixelWrite) : Prop := w.x < 8 * kColumns ∧ w.y < 16 * kRows

theorem mem_paintWrites {x y w h : Nat} {color : Nat → Nat → PixelColor} :
    ∀ p ∈ paintWrites x y w h color, p.x < x + w ∧ p.y < y + h := by
  intro p hp
  obtain ⟨dy, hdy, hp⟩ := List.mem_flatMap.1 hp
  obtain ⟨dx, hdx, rfl⟩ := List.mem_map.1 hp
  exact ⟨Nat.add_lt_add_left (List.mem_range.1 hdx) _, Nat.add_lt_add_left (List.mem_range.1 hdy) _⟩

theorem mem_asciiWrites {x y : Nat} : ∀ p ∈ d.asciiWrites x y c, p.x < x + 16 ∧ p.y < y + 16 := by
  rw [Display.asciiWrites]
  split
  · exact List.forall_mem_nil _
  · exact mem_paintWrites

/-- Each character but the last is overwritten halfway by the next one. -/
theorem mem_stringWrites {x y n : Nat} {s : List UInt8} (hn : s.getD n 0 = 0) :
    ∀ p ∈ d.stringWrites x y s, p.x < x + (8 * n + 8) ∧ p.y < y + 16 := by
  induction s generalizing x n with
  | nil => exact List.forall_mem_nil _
  | cons c s ih =>
    rw [Display.stringWrites]
    split
    · exact List.forall_mem_nil _
    · rename_i hc
      cases n with
      | zero => exact absurd hn hc
      | succ n =>
        refine List.forall_mem_append.2 ⟨fun p hp => ?_, fun p hp => ?_⟩
        · obtain ⟨hx, hy⟩ := mem_asciiWrites p hp
          exact ⟨by omega, hy⟩
        · obtain ⟨hx, hy⟩ := ih hn p hp
          exact ⟨by omega, hy⟩

theorem Short.scrollRow (h : Short st) {row : Nat} (hrow : row + 1 < kRows) :
    Short (scrollRow d st row) := by
  refine ⟨h.row_lt, fun r hr => ?_⟩
  rw [Console.scrollRow]
  dsimp only
  by_cases heq : r = row
  · rw [heq, Function.update_self]
    exact h.last (row + 1) hrow
  · rw [Function.update_of_ne heq]
    exact h.last r hr

theorem Short.scrollRows (h : Short st) {rows : List Nat} (hrows : ∀ row ∈ rows, row + 1 < kRows) :
    Short (rows.foldl (Console.scrollRow d) st) ∧ ∀ w ∈ scrollWrites d st rows, InText w := by
  induction rows generalizing st with
  | nil => exact ⟨h, List.forall_mem_nil _⟩
  | cons row rows ih =>
    obtain ⟨hrow, hrows⟩ := List.forall_mem_cons.1 hrows
    have hnext : Short (Console.scrollRow d st row) := h.scrollRow hrow
    obtain ⟨hend, hws⟩ := ih hnext hrows
    refine ⟨hend, List.forall_mem_append.2 ⟨fun w hw => ?_, hws⟩⟩
    have hlt : row < kRows := Nat.lt_of_succ_lt hrow
    have hzero : (line (Console.scrollRow d st row).buffer row).getD (kColumns - 1) 0 = 0 := by
      rw [Display.getD_line _ _ (by decide)]
      exact hnext.last row hlt
    obtain ⟨hx, hy⟩ := mem_stringWrites hzero w hw
    have hcolumns : 0 + (8 * (kColumns - 1) + 8) = 8 * kColumns := rfl
    rw [hcolumns] at hx
    exact ⟨hx, by omega⟩

theorem Short.scroll (h : Short st) : (∀ w ∈ scrollWrites d st (List.range (kRows - 1)), InText w) ∧
    ∀ st', st' = (List.range (kRows - 1)).foldl (Console.scrollRow d) st →
      Short { st' with buffer := Function.update st'.buffer (kRows - 1) fun _ => 0 } := by
  have hrows : ∀ row ∈ List.range (kRows - 1), row + 1 < kRows :=
    fun row hrow => Nat.add_lt_of_lt_sub (List.mem_range.1 hrow)
  obtain ⟨hend, hws⟩ := h.scrollRows (d := d) hrows
  refine ⟨hws, fun st' hst' => ?_⟩
  rw [← hst'] at hend
  refine ⟨hend.row_lt, fun row hrow => ?_⟩
  dsimp only
  by_cases hlast : row = kRows - 1
  · rw [hlast, Function.update_self]
  · rw [Function.update_of_ne hlast]
    exact hend.last row hrow

theorem Short.newLine (h : Short st) :
    Short (newLine d st) ∧ ∀ w ∈ newLineWrites d st, InText w := by
  rw [Console.newLine, newLineWrites]
  dsimp only
  split
  · rename_i hlt
    exact ⟨⟨Nat.add_lt_of_lt_sub hlt, h.last⟩, List.forall_mem_nil _⟩
  · have hcleared : Short { st with
        cursorColumn := 0
        screen := st.screen.paint 0 0 (8 * kColumns) (16 * kRows) fun _ _ => d.bgColor } :=
          ⟨h.row_lt, h.last⟩
    obtain ⟨hws, hend⟩ := hcleared.scroll (d := d)
    refine ⟨hend _ rfl, List.forall_mem_append.2 ⟨fun w hw => ?_, hws⟩⟩
    obtain ⟨hx, hy⟩ := mem_paintWrites w hw
    exact ⟨by omega, by omega⟩

theorem Short.putChar (h : Short st) (c : UInt8) :
    Short (putChar d st c) ∧ ∀ w ∈ putCharWrites d st c, InText w := by
  rw [Console.putChar, putCharWrites]
  split
  · exact h.newLine
  split
  · exact ⟨⟨h.row_lt, h.last⟩, List.forall_mem_nil _⟩
  split
  · rename_i hcolumn
    refine ⟨⟨h.row_lt, fun row hrow => ?_⟩, fun w hw => ?_⟩
    · dsimp only
      by_cases heq : row = st.cursorRow
      · rw [heq, Function.update_self, Function.update_of_ne (Nat.ne_of_gt hcolumn)]
        exact h.last _ h.row_lt
      · rw [Function.update_of_ne heq]
        exact h.last row hrow
    · obtain ⟨hx, hy⟩ := mem_asciiWrites w hw
      have hrow := h.row_lt
      rw [kColumns] at hcolumn
      rw [InText, kColumns]
      exact ⟨by omega, by omega⟩
  · exact ⟨h, List.forall_mem_nil _⟩

theorem Short.putString (h : Short st) (s : List UInt8) :
    Short (putString d st s) ∧ ∀ w ∈ putStringWrites d st s, InText w := by
  induction s generalizing st with
  | nil => exact ⟨h, List.forall_mem_nil _⟩
  | cons c s ih =>
    rw [Console.putString, putStringWrites]
    split
    · exact ⟨h, List.forall_mem_nil _⟩
    · obtain ⟨hnext, hws⟩ := h.putChar (d := d) c
      obtain ⟨hend, hws'⟩ := ih hnext
      exact ⟨hend, List.forall_mem_append.2 ⟨hws, hws'⟩⟩

theorem short_start (screen : Screen) : Short (start screen) := ⟨Nat.succ_pos _, fun _ _ => rfl⟩

/-- The pixel is on the screen. -/
def OnScreen (d : Display) (w : PixelWrite) : Prop :=
  w.x < d.horizontalResolution ∧ w.y < d.verticalResolution

theorem InText.onScreen {w : PixelWrite} (hw : InText w) (hd : LargeEnough d) : OnScreen d w :=
  ⟨Nat.lt_of_lt_of_le hw.1 hd.1, Nat.lt_of_lt_of_le hw.2 hd.2⟩

theorem Short.step (h : Short st) (hd : LargeEnough d) (e : Event) :
    Short (step d st e) ∧ ∀ w ∈ stepWrites d st e, OnScreen d w := by
  cases e with
  | putChar c =>
    obtain ⟨hnext, hws⟩ := h.putChar (d := d) c
    exact ⟨hnext, fun w hw => (hws w hw).onScreen hd⟩
  | putString s =>
    obtain ⟨hnext, hws⟩ := h.putString (d := d) s
    exact ⟨hnext, fun w hw => (hws w hw).onScreen hd⟩
  | clear =>
    refine ⟨⟨Nat.succ_pos _, fun _ _ => rfl⟩, fun w hw => ?_⟩
    obtain ⟨hx, hy⟩ := mem_paintWrites w hw
    exact ⟨by omega, by omega⟩

theorem onScreen_runWrites (h : Short st) (hd : LargeEnough d) (es : List Event) :
    ∀ w ∈ runWrites d st es, OnScreen d w := by
  induction es generalizing st with
  | nil => exact List.forall_mem_nil _
  | cons e es ih =>
    obtain ⟨hnext, hws⟩ := h.step hd e
    exact List.forall_mem_append.2 ⟨hws, ih hnext⟩

/-- Whatever the console is told, it writes pixels of the screen only, the frame buffer contains the
screen, in either format, and the other bytes of the frame buffer, and those around it, are what
they have been. -/
theorem frameBuffer_shows {config : FrameBufferConfig} {mem : Nat → UInt8} (hd : LargeEnough d)
    (hok : config.Ok)
    (hresolution : config.horizontalResolution = d.horizontalResolution ∧
    config.verticalResolution = d.verticalResolution)
    (hmem : config.Shows mem screen) (es : List Event) :
    (∀ w ∈ runWrites d (start screen) es, OnScreen d w) ∧
    config.Shows ((runWrites d (start screen) es).foldl config.write mem)
      (es.foldl (step d) (start screen)).screen ∧
    ∀ i, ¬ config.Color i → (runWrites d (start screen) es).foldl config.write mem i = mem i := by
  have hon := onScreen_runWrites (short_start screen) hd es
  have hvisible : ∀ w ∈ runWrites d (start screen) es, config.Visible w.x w.y := fun w hw => by
    rw [FrameBufferConfig.Visible, hresolution.1, hresolution.2]
    exact hon w hw
  refine ⟨hon, ?_, fun i hi => FrameBufferConfig.writes_of_not_color hvisible hi⟩
  rw [screen_runWrites]
  exact hmem.writes hok hvisible

/-! ## A line of text -/

/-- One pixel of each line is not on the screen. -/
def smallConfig : FrameBufferConfig := ⟨641, 640, 400, .kPixelBGRResv8BitPerColor⟩

/-- Of the `A`, a pixel. -/
theorem frameBuffer_shows_abc :
    smallConfig.color ((runWrites abcDisplay (start black) [.putString [0x41]]).foldl
      smallConfig.write fun _ => 0) 3 1 =
      abcDisplay.fgColor := by
  have hok : smallConfig.Ok := ⟨by decide, by decide⟩
  have hmem : smallConfig.Shows (fun _ => 0) black := fun _ _ _ => rfl
  have hd : LargeEnough abcDisplay := ⟨by decide, by decide⟩
  obtain ⟨-, hshows, -⟩ := frameBuffer_shows hd hok ⟨rfl, rfl⟩ hmem [.putString [0x41]]
  refine (hshows 3 1 ⟨by decide, by decide⟩).trans ?_
  have hscreen : ([Event.putString [0x41]].foldl (step abcDisplay) (start black)).screen =
    abcDisplay.writeAscii black 0 0 0x41 := rfl
  rw [hscreen, Display.writeAscii]
  have hfont : getFont 0x41 = some (16 * 0x41) := rfl
  rw [hfont]
  exact (Picture.paint_of_mem ⟨Nat.zero_le _, by decide⟩ ⟨Nat.zero_le _, by decide⟩).trans rfl

end Console

end

end Moxia
