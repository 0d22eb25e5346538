import Moxia.Graphics.Lines

/-!
# What the screen shows

A character is drawn over whatever its cell and the next one show. So the screen is the buffer's as
long as a character without a glyph is put over background only, one with a glyph in front of
background only, and nothing is to be seen behind a NUL (`Draws`). Scrolling draws the lines again
and does no harm then.
-/

namespace Moxia

open Lib Picture

namespace Console

variable {d : Display} {st st' : Console} {c : UInt8}

/-- Each cell shows the character in the buffer, and so it would if the screen were drawn again. -/
structure ShowsBuffer (d : Display) (st : Console) : Prop where
  cells : ∀ row, row < kRows → ∀ column, column < kColumns - 1 → ∀ dx, dx < 8 → ∀ dy, dy < 16 →
    st.screen (8 * column + dx) (16 * row + dy) = d.cellColor (st.buffer row column) dx dy
  redrawn : ∀ row, row < kRows → ∀ column, column < kColumns - 1 → ∀ dx, dx < 8 → ∀ dy, dy < 16 →
    st.screen (8 * column + dx) (16 * row + dy) = redraw d st (8 * column + dx) (16 * row + dy)

/-- The character `c` may be drawn in this column of a line. -/
structure Draws (d : Display) (line : Nat → UInt8) (column : Nat) (c : UInt8) : Prop where
  /-- Without a glyph, what the cell shows stays. -/
  old : getFont c = none → d.Blank (line column)
  /-- A glyph's background covers the next cell. -/
  next : getFont c ≠ none → column + 1 < kColumns - 1 → d.Blank (line (column + 1))
  /-- A NUL is drawn like any other character. -/
  nul : c = 0 → ∀ font, getFont c = some font → ∀ dx, dx < 8 → ∀ dy, dy < 16 →
    d.fontBit font dx dy = false
  ends : c = 0 → ∀ k, column < k → k < kColumns - 1 → d.Blank (line k)
  behind : ¬ d.Blank c → ∀ k, k < column → line k ≠ 0

def CharOk (d : Display) (st : Console) (c : UInt8) : Prop :=
  c = newlineChar ∨ c = returnChar ∨ kColumns - 1 ≤ st.cursorColumn ∨
    Draws d (st.buffer st.cursorRow) st.cursorColumn c

/-- Each character of the string may be drawn where the cursor is then. -/
def StringOk (d : Display) : Console → List UInt8 → Prop
  | _, [] => True
  | st, c :: s => c = 0 ∨ (CharOk d st c ∧ StringOk d (putChar d st c) s)

def StepOk (d : Display) (st : Console) : Event → Prop
  | .putChar c => CharOk d st c
  | .putString s => StringOk d st s
  | .clear => True

structure Inv (d : Display) (st : Console) : Prop where
  cells : ∀ row, row < kRows → ∀ column, column < kColumns - 1 → ∀ dx, dx < 8 → ∀ dy, dy < 16 →
    st.screen (8 * column + dx) (16 * row + dy) = d.cellColor (st.buffer row column) dx dy
  plain : ∀ row, row < kRows → d.Plain (st.buffer row)
  row_lt : st.cursorRow < kRows

/-- A screen of 640 by 400 pixels at least. -/
def LargeEnough (d : Display) : Prop := 8 * kColumns ≤ d.horizontalResolution ∧ 16 * kRows ≤
    d.verticalResolution

theorem clear_apply (hd : LargeEnough d) (screen : Screen) {x y : Nat} (hx : x < 8 * kColumns)
    (hy : y < 16 * kRows) :
    d.clear screen x y = d.bgColor := by
  obtain ⟨hw, hh⟩ := hd
  exact paint_of_mem (by omega) (by omega)

theorem pixel_lt {row column dx dy : Nat} (hrow : row < kRows) (hcolumn : column < kColumns - 1)
    (hdx : dx < 8)
    (hdy : dy < 16) : 8 * column + dx < 8 * kColumns ∧ 16 * row + dy < 16 * kRows := by
  rw [kColumns] at *
  omega

theorem Inv.showsBuffer (h : Inv d st) (hd : LargeEnough d) : ShowsBuffer d st := by
  refine ⟨h.cells, fun row hrow column hcolumn dx hdx dy hdy => ?_⟩
  obtain ⟨hx, -⟩ := pixel_lt hrow hcolumn hdx hdy
  have hdraw : redraw d st = d.drawLines (d.clear st.screen) (line st.buffer) kRows := rfl
  rw [hdraw, Display.drawLines_apply (fun x hx y hy => clear_apply hd _ hx hy) hx hrow hdy,
    Display.lineColor_line (h.plain row hrow) hcolumn hdx hdy,
      h.cells row hrow column hcolumn dx hdx dy hdy]

theorem inv_clear (hd : LargeEnough d) (st : Console) : Inv d (clear d st) := by
  refine ⟨fun row hrow column hcolumn dx hdx dy hdy => ?_, fun row _ j k _ _ _ =>
    Display.blank_zero, Nat.succ_pos _⟩
  obtain ⟨hx, hy⟩ := pixel_lt hrow hcolumn hdx hdy
  exact (clear_apply hd _ hx hy).trans Display.cellColor_zero.symm

/-! ### Scrolling -/

theorem scrollRows_eq (st : Console) (n : Nat) : (List.range n).foldl (scrollRow d) st =
    { st with
      buffer := fun row => if row < n then st.buffer (row + 1) else st.buffer row
      screen := d.drawLines st.screen (fun row => line st.buffer (row + 1)) n } := by
  induction n with
  | zero => rfl
  | succ n ih =>
    rw [List.range_succ, List.foldl_append, ih, Display.drawLines_succ]
    have hrow : ∀ row, Function.update (fun row => if row < n then st.buffer (row + 1) else
        st.buffer row) n
        (if n + 1 < n then st.buffer (n + 1 + 1) else st.buffer (n + 1)) row =
          if row < n + 1 then st.buffer (row + 1) else st.buffer row := by
      intro row
      rw [if_neg (by omega)]
      rcases Nat.lt_trichotomy row n with hlt | rfl | hgt
      · rw [Function.update_of_ne (by omega), if_pos hlt, if_pos (by omega)]
      · rw [Function.update_self, if_pos (by omega)]
      · rw [Function.update_of_ne (by omega), if_neg (by omega), if_neg (by omega)]
    have hbuffer := funext hrow
    simp only [List.foldl_cons, List.foldl_nil, scrollRow]
    rw [hbuffer]
    have hline : line (fun row => if row < n + 1 then st.buffer (row + 1) else st.buffer row) n =
      line st.buffer (n + 1) := by
      simp [line]
    rw [hline]

theorem inv_newLine (h : Inv d st) : Inv d (newLine d st) := by
  rw [newLine]
  dsimp only
  split
  · rename_i hrow
    exact ⟨h.cells, h.plain, Nat.add_lt_of_lt_sub hrow⟩
  rw [scrollRows_eq]
  set blank := st.screen.paint 0 0 (8 * kColumns) (16 * kRows) fun _ _ => d.bgColor with hblank
  have hbg : ∀ x, x < 8 * kColumns → ∀ y, y < 16 * kRows → blank x y = d.bgColor := fun x hx y hy =>
    paint_of_mem (by omega) (by omega)
  refine ⟨fun row hrow column hcolumn dx hdx dy hdy => ?_, fun row hrow => ?_, h.row_lt⟩
  · obtain ⟨hx, hy⟩ := pixel_lt hrow hcolumn hdx hdy
    dsimp only
    by_cases hlast : row = kRows - 1
    · rw [hlast, Function.update_self, Display.cellColor_zero,
        Display.drawLines_below (Nat.le_add_right _ _)]
      exact hbg _ hx _ (hlast ▸ hy)
    · have hlt : row < kRows - 1 := by omega
      rw [Function.update_of_ne hlast, if_pos hlt,
        Display.drawLines_apply (fun x hx y hy => hbg x hx y (by omega)) hx hlt hdy,
        Display.lineColor_line (h.plain (row + 1) (by omega)) hcolumn hdx hdy]
  · dsimp only
    by_cases hlast : row = kRows - 1
    · rw [hlast, Function.update_self]
      exact fun _ _ _ _ _ => Display.blank_zero
    · rw [Function.update_of_ne hlast, if_pos (by omega)]
      exact h.plain (row + 1) (by omega)

/-! ### One character -/

theorem Draws.cells {r : Nat} {column : Nat} {line : Nat → UInt8} {screen : Screen}
    (h : Draws d line column c)
    (hcells : ∀ k, k < kColumns - 1 → ∀ dx, dx < 8 → ∀ dy, dy < 16 →
      screen (8 * k + dx) (16 * r + dy) = d.cellColor (line k) dx dy) {k : Nat}
        (hk : k < kColumns - 1) {dx dy : Nat}
    (hdx : dx < 8) (hdy : dy < 16) :
    d.writeAscii screen (8 * column) (16 * r) c (8 * k + dx) (16 * r + dy) =
      d.cellColor (Function.update line column c k) dx dy := by
  rcases hfont : getFont c with _ | font
  · rw [Display.writeAscii_of_none hfont, hcells k hk dx hdx dy hdy]
    by_cases hkc : k = column
    · subst hkc
      rw [Function.update_self, h.old hfont dx hdx dy hdy,
        Display.blank_of_none hfont dx hdx dy hdy]
    · rw [Function.update_of_ne hkc]
  by_cases hkc : k = column
  · subst hkc
    rw [Display.writeAscii_cell hfont hdx hdy, Function.update_self, Display.cellColor, hfont]
    by_cases h0 : c = 0
    · simp [h.nul h0 font hfont dx hdx dy hdy]
    · simp [h0]
  rw [Function.update_of_ne hkc]
  by_cases hnext : k = column + 1
  · subst hnext
    have hright :
        d.writeAscii screen (8 * column) (16 * r) c (8 * column + (8 + dx)) (16 * r + dy) =
          d.bgColor :=
      Display.writeAscii_right hfont (by omega) hdy
    rw [Nat.mul_succ, Nat.add_assoc, hright, h.next (by rw [hfont]; exact Option.some_ne_none _) hk
      dx hdx dy hdy]
  · rw [Display.writeAscii_outside (.inl (by omega)), hcells k hk dx hdx dy hdy]

theorem Draws.plain {column : Nat} {line : Nat → UInt8} (h : Draws d line column c)
    (hplain : d.Plain line) :
    d.Plain (Function.update line column c) := by
  intro j k hjk hk h0
  by_cases hj : j = column
  · subst hj
    rw [Function.update_self] at h0
    rw [Function.update_of_ne (by omega)]
    exact h.ends h0 k hjk hk
  rw [Function.update_of_ne hj] at h0
  by_cases hkc : k = column
  · subst hkc
    rw [Function.update_self]
    by_contra hnot
    exact h.behind hnot j hjk h0
  · rw [Function.update_of_ne hkc]
    exact hplain j k hjk hk h0

theorem inv_putChar (h : Inv d st) (hok : CharOk d st c) : Inv d (putChar d st c) := by
  rw [putChar]
  split
  · exact inv_newLine h
  rename_i hnl
  split
  · exact ⟨h.cells, h.plain, h.row_lt⟩
  rename_i hcr
  split
  · rename_i hcolumn
    have hdraws : Draws d (st.buffer st.cursorRow) st.cursorColumn c := by
      rcases hok with hc | hc | hc | hc
      · exact absurd hc hnl
      · exact absurd hc hcr
      · omega
      · exact hc
    refine ⟨fun row hrow column hcol dx hdx dy hdy => ?_, fun row hrow => ?_, h.row_lt⟩
    · dsimp only
      by_cases hr : row = st.cursorRow
      · subst hr
        rw [Function.update_self]
        exact hdraws.cells (h.cells _ hrow) hcol hdx hdy
      · -- glyphs are as high as lines
        rw [Function.update_of_ne hr, Display.writeAscii_outside (.inr (by omega)),
          h.cells row hrow column hcol dx hdx dy hdy]
    · dsimp only
      by_cases hr : row = st.cursorRow
      · subst hr
        rw [Function.update_self]
        exact hdraws.plain (h.plain _ hrow)
      · rw [Function.update_of_ne hr]
        exact h.plain row hrow
  · exact h

theorem inv_putString {s : List UInt8} (h : Inv d st) (hok : StringOk d st s) :
    Inv d (putString d st s) := by
  induction s generalizing st with
  | nil => exact h
  | cons c s ih =>
    rw [putString]
    split
    · exact h
    · rename_i hc
      obtain ⟨hchar, hrest⟩ := hok.resolve_left hc
      exact ih (inv_putChar h hchar) hrest

theorem inv_step {e : Event} (hd : LargeEnough d) (h : Inv d st) (hok : StepOk d st e) :
    Inv d (step d st e) := by
  cases e with
  | putChar c => exact inv_putChar h hok
  | putString s => exact inv_putString h hok
  | clear => exact inv_clear hd st

/-- A screen that is background at the start shows the buffer, whatever is put without harm. -/
theorem screen_shows_buffer {screen : Screen} {es : List Event} (hd : LargeEnough d)
    (hscreen : ∀ x, x < 8 * (kColumns - 1) → ∀ y, y < 16 * kRows → screen x y = d.bgColor)
    (hrun : Run (Guarded (StepOk d) (Step d)) (start screen) es st) : ShowsBuffer d st := by
  have hstart : Inv d (start screen) := by
    refine ⟨fun row hrow column hcolumn dx hdx dy hdy => ?_, fun _ _ _ _ _ _ _ =>
      Display.blank_zero, Nat.succ_pos _⟩
    refine (hscreen _ ?_ _ (pixel_lt hrow hcolumn hdx hdy).2).trans Display.cellColor_zero.symm
    omega
  refine (hrun.inv (fun s e s' h hstep => ?_) hstart).showsBuffer hd
  obtain ⟨hok, rfl⟩ := hstep
  exact inv_step hd h hok

/-! ### The glyphs of `A`, `B` and `C` on a screen of 640 by 400 pixels -/

def abcGlyphs : List UInt8 := [
  0x00, 0x10, 0x10, 0x28, 0x28, 0x28, 0x44, 0x44, 0x44, 0x7c, 0x82, 0x82, 0x82, 0x82, 0x00, 0x00,
  0x00, 0xf0, 0x88, 0x84, 0x84, 0x84, 0x88, 0xf8, 0x84, 0x82, 0x82, 0x82, 0x84, 0xf8, 0x00, 0x00,
  0x00, 0x38, 0x44, 0x42, 0x80, 0x80, 0x80, 0x80, 0x80, 0x80, 0x80, 0x42, 0x44, 0x38, 0x00, 0x00]

def abcDisplay : Display where
  font := fun i => if i < 16 * 0x41 then 0 else abcGlyphs.getD (i - 16 * 0x41) 0
  fgColor := ⟨255, 255, 255⟩
  bgColor := ⟨0, 0, 0⟩
  horizontalResolution := 640
  verticalResolution := 400

def black : Screen := fun _ _ => ⟨0, 0, 0⟩

theorem screen_shows_buffer_abc :
    ShowsBuffer abcDisplay (putChar abcDisplay (putString abcDisplay (start black) [0x41, 0x42])
      newlineChar) := by
  have hdrawsA : Draws abcDisplay (fun _ => 0) 0 0x41 :=
    ⟨fun h => absurd h (by decide), fun _ _ => Display.blank_zero, fun h => absurd h (by decide),
      fun h => absurd h (by decide), fun _ k hk => absurd hk (Nat.not_lt_zero k)⟩
  have hdrawsB : Draws abcDisplay (Function.update (fun _ => 0) 0 0x41) 1 0x42 :=
    ⟨fun h => absurd h (by decide), fun _ _ => Display.blank_zero, fun h => absurd h (by decide),
      fun h => absurd h (by decide), fun _ k hk => by
        rw [Nat.lt_one_iff.1 hk, Function.update_self]; decide⟩
  have hA : CharOk abcDisplay (start black) 0x41 := .inr (.inr (.inr hdrawsA))
  have hB : CharOk abcDisplay (putChar abcDisplay (start black) 0x41) 0x42 :=
    .inr (.inr (.inr hdrawsB))
  have hrun : Run (Guarded (StepOk abcDisplay) (Step abcDisplay)) (start black)
      [.putString [0x41, 0x42], .putChar newlineChar] _ :=
    .cons ⟨.inr ⟨hA, .inr ⟨hB, trivial⟩⟩, rfl⟩ (.cons ⟨.inl rfl, rfl⟩ (.nil _))
  exact screen_shows_buffer ⟨Nat.le_refl _, Nat.le_refl _⟩ (fun _ _ _ _ => rfl) hrun

theorem not_screen_shows_buffer :
    ¬ ∀ (d : Display) (screen : Screen) (es : List Event) (st : Console), LargeEnough d →
    (∀ x y, screen x y = d.bgColor) → Run (Step d) (start screen) es st → ShowsBuffer d st := by
  intro h
  have hshows := h abcDisplay black [.putString [0x41, 0x42], .putChar returnChar, .putChar 0x43] _
    ⟨Nat.le_refl _, Nat.le_refl _⟩ (fun _ _ => rfl) (.cons rfl (.cons rfl (.cons rfl (.nil _))))
  -- the second cell is cleared when `C` is drawn over `A`
  exact absurd (hshows.cells 0 (by decide) 1 (by decide) 0 (by decide) 1 (by decide))
    (by decide +kernel)

end Console

end Moxia
