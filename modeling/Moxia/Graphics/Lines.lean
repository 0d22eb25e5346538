import Moxia.Graphics.Console
import Mathlib.Data.Nat.Bitwise

/-!
# Drawing lines of text

A glyph is drawn with a background of the same width to its right, which the next character of a
line overwrites. So a line that is drawn over background shows its characters up to the first NUL
(`writeString_apply`), and lines below each other do not meet (`drawLines_apply`).
-/

namespace Moxia

open Lib Picture

namespace Display

variable {d : Display} {screen : Screen} {x y x' y' dx dy row n width : Nat} {c : UInt8}
    {s : List UInt8}

/-- The colour of a pixel of a character cell: the glyph's, or the background's without a glyph. -/
def cellColor (d : Display) (c : UInt8) (dx dy : Nat) : PixelColor :=
  match getFont c with
  | none => d.bgColor
  | some font => if c ≠ 0 ∧ d.fontBit font dx dy then d.fgColor else d.bgColor

theorem cellColor_zero : d.cellColor 0 dx dy = d.bgColor := by
  rw [cellColor]
  cases getFont 0 with
  | none => rfl
  | some font => exact if_neg fun h => h.1 rfl

theorem fontBit_of_le {font : Nat} (h : 8 ≤ dx) : d.fontBit font dx dy = false := by
  have hbit : ((d.font (font + dy)).toNat <<< dx).testBit 7 = false := by
    rw [Nat.testBit_shiftLeft]
    simp only [ge_iff_le, Bool.and_eq_false_imp, decide_eq_true_eq]
    omega
  have hand := Nat.and_two_pow ((d.font (font + dy)).toNat <<< dx) 7
  rw [hbit] at hand
  rw [fontBit, show (0x80 : Nat) = 2 ^ 7 from rfl, hand]
  rfl

theorem writeAscii_of_none (h : getFont c = none) : d.writeAscii screen x y c = screen := by
  rw [writeAscii, h]

/-- The pixels of the cell, with the NUL's glyph drawn like any other. -/
theorem writeAscii_cell {font : Nat} (h : getFont c = some font) (hdx : dx < 8) (hdy : dy < 16) :
    d.writeAscii screen x y c (x + dx) (y + dy) = if d.fontBit font dx dy then d.fgColor else
      d.bgColor := by
  rw [writeAscii, h]
  dsimp only
  rw [paint_of_mem (by omega) (by omega), Nat.add_sub_cancel_left, Nat.add_sub_cancel_left]

/-- The cell to the right is cleared. -/
theorem writeAscii_right {font : Nat} (h : getFont c = some font) (hdx : 8 ≤ dx ∧ dx < 16)
    (hdy : dy < 16) :
    d.writeAscii screen x y c (x + dx) (y + dy) = d.bgColor := by
  rw [writeAscii, h]
  dsimp only
  rw [paint_of_mem (by omega) (by omega), Nat.add_sub_cancel_left, Nat.add_sub_cancel_left,
    fontBit_of_le hdx.1]
  rfl

theorem writeAscii_outside (h : (x' < x ∨ x + 16 ≤ x') ∨ y' < y ∨ y + 16 ≤ y') :
    d.writeAscii screen x y c x' y' = screen x' y' := by
  rw [writeAscii]
  cases getFont c with
  | none => rfl
  | some font => exact paint_of_not_mem h

/-- The pixels of a line of text. -/
def lineColor (d : Display) : List UInt8 → Nat → Nat → PixelColor
  | [], _, _ => d.bgColor
  | c :: s, x, dy =>
      if c = 0 then d.bgColor else if x < 8 then d.cellColor c x dy else lineColor d s (x - 8) dy

theorem writeString_outside (h : y' < y ∨ y + 16 ≤ y') :
    d.writeString screen x y s x' y' = screen x' y' := by
  induction s generalizing screen x with
  | nil => rfl
  | cons c s ih =>
    rw [writeString]
    split
    · rfl
    · rw [ih, writeAscii_outside (.inr h)]

theorem writeString_apply (hbg : ∀ x', x ≤ x' → x' < width → screen x' (y + dy) = d.bgColor)
    (hdy : dy < 16)
    (hx' : x' < width) : d.writeString screen x y s x' (y + dy) =
      if x' < x then screen x' (y + dy) else d.lineColor s (x' - x) dy := by
  induction s generalizing screen x with
  | nil =>
    rw [writeString, lineColor]
    split
    · rfl
    · exact hbg x' (by omega) hx'
  | cons c s ih =>
    rw [writeString, lineColor]
    by_cases hc : c = 0
    · rw [if_pos hc, if_pos hc]
      split
      · rfl
      · exact hbg x' (by omega) hx'
    have hright : ∀ x', x + 8 ≤ x' → x' < width → d.writeAscii screen x y c x' (y + dy) =
      d.bgColor := by
      intro x' hlo hhi
      rcases hfont : getFont c with _ | font
      · rw [writeAscii_of_none hfont]
        exact hbg x' (by omega) hhi
      · by_cases hin : x' < x + 16
        · have hcell : d.writeAscii screen x y c (x + (x' - x)) (y + dy) = d.bgColor :=
            writeAscii_right hfont (by omega) hdy
          rwa [Nat.add_sub_cancel' (by omega)] at hcell
        · rw [writeAscii_outside (.inl (.inr (by omega)))]
          exact hbg x' (by omega) hhi
    rw [if_neg hc, if_neg hc, ih hright]
    by_cases hlt : x' < x
    · rw [if_pos (by omega), if_pos hlt, writeAscii_outside (.inl (.inl hlt))]
    rw [if_neg hlt]
    by_cases hcell : x' < x + 8
    · rw [if_pos hcell, if_pos (by omega), cellColor]
      rcases hfont : getFont c with _ | font
      · rw [writeAscii_of_none hfont]
        exact hbg x' (by omega) hx'
      · have hpixel : d.writeAscii screen x y c (x + (x' - x)) (y + dy) = _ :=
          writeAscii_cell hfont (by omega) hdy
        rw [Nat.add_sub_cancel' (by omega)] at hpixel
        rw [hpixel]
        simp [hc]
    · rw [if_neg hcell, if_neg (by omega), Nat.sub_add_eq]

/-- Lines of text from the top of the screen on. -/
def drawLines (d : Display) (screen : Screen) (lines : Nat → List UInt8) (n : Nat) : Screen :=
  (List.range n).foldl (fun screen row => d.writeString screen 0 (16 * row) (lines row)) screen

variable {lines : Nat → List UInt8}

theorem drawLines_succ (d : Display) (screen : Screen) (lines : Nat → List UInt8) (n : Nat) :
    d.drawLines screen lines (n + 1) = d.writeString (d.drawLines screen lines n) 0 (16 * n)
      (lines n) := by
  rw [drawLines, List.range_succ, List.foldl_append]
  rfl

theorem drawLines_below (h : 16 * n ≤ y') : d.drawLines screen lines n x' y' = screen x' y' := by
  induction n with
  | zero => rfl
  | succ n ih => rw [drawLines_succ, writeString_outside (by omega), ih (by omega)]

theorem drawLines_apply (hbg : ∀ x, x < width → ∀ y, y < 16 * n → screen x y = d.bgColor)
    (hx : x < width)
    (hrow : row < n) (hdy : dy < 16) :
    d.drawLines screen lines n x (16 * row + dy) = d.lineColor (lines row) x dy := by
  induction n with
  | zero => omega
  | succ n ih =>
    rw [drawLines_succ]
    by_cases hlast : row = n
    · subst hlast
      have hline : d.writeString (d.drawLines screen lines row) 0 (16 * row) (lines row) x
        (16 * row + dy) = _ :=
        writeString_apply (fun x' _ hx' => by
          rw [drawLines_below (by omega)]; exact hbg x' hx' _ (by omega)) hdy hx
      rwa [if_neg (Nat.not_lt_zero x), Nat.sub_zero] at hline
    · rw [writeString_outside (by omega)]
      exact ih (fun x hx y hy => hbg x hx y (by omega)) (by omega)

/-! ### Cells of a line -/

/-- The cell shows nothing but background. -/
def Blank (d : Display) (c : UInt8) : Prop := ∀ dx, dx < 8 → ∀ dy, dy < 16 →
    d.cellColor c dx dy = d.bgColor

theorem blank_zero : d.Blank 0 := fun _ _ _ _ => cellColor_zero

theorem blank_of_none (h : getFont c = none) : d.Blank c := fun dx _ dy _ => by rw [cellColor, h]

/-- Nothing is to be seen behind a NUL. -/
def Plain (d : Display) (line : Nat → UInt8) : Prop := ∀ j k, j < k → k < kColumns - 1 →
    line j = 0 → d.Blank (line k)

theorem lineColor_blank (hdx : dx < 8) (hdy : dy < 16) :
    ∀ {s : List UInt8} {k : Nat}, k < s.length →
    (∀ j, j < k → s.getD j 0 = 0 → d.Blank (s.getD k 0)) →
    d.lineColor s (8 * k + dx) dy = d.cellColor (s.getD k 0) dx dy := by
  intro s
  induction s with
  | nil => exact fun h => absurd h (Nat.not_lt_zero _)
  | cons c s ih =>
    intro k hk hblank
    rw [lineColor]
    rcases k with _ | k
    · by_cases hc : c = 0
      · rw [if_pos hc, List.getD_cons_zero, hc, cellColor_zero]
      · rw [if_neg hc, if_pos (by omega), List.getD_cons_zero, Nat.mul_zero, Nat.zero_add]
    · rw [List.getD_cons_succ] at hblank ⊢
      by_cases hc : c = 0
      · rw [if_pos hc, hblank 0 (Nat.succ_pos k) hc dx hdx dy hdy]
      · have hsub : 8 * (k + 1) + dx - 8 = 8 * k + dx := by omega
        rw [if_neg hc, if_neg (by omega), hsub]
        exact ih (by simpa using hk) fun j hj h0 =>
          hblank (j + 1) (by omega) (by rwa [List.getD_cons_succ])

theorem getD_line (buffer : Nat → Nat → UInt8) (row : Nat) {k : Nat} (hk : k < kColumns + 1) :
    (Console.line buffer row).getD k 0 = buffer row k := by
  rw [Console.line, List.getD_eq_getElem?_getD, List.getElem?_map, List.getElem?_range hk]
  rfl

/-- Where nothing is to be seen behind a NUL, the line shows all its characters. -/
theorem lineColor_line {buffer : Nat → Nat → UInt8} (h : d.Plain (buffer row)) {column : Nat}
    (hcolumn : column < kColumns - 1) (hdx : dx < 8) (hdy : dy < 16) :
    d.lineColor (Console.line buffer row) (8 * column + dx) dy =
      d.cellColor (buffer row column) dx dy := by
  have hlt : ∀ k, k ≤ column → k < kColumns + 1 := fun k hk => by rw [kColumns] at *; omega
  have hlength : (Console.line buffer row).length = kColumns + 1 := by simp [Console.line]
  rw [lineColor_blank hdx hdy (by rw [hlength]; exact hlt column (Nat.le_refl _)),
    getD_line _ _ (hlt column (Nat.le_refl _))]
  intro j hj h0
  rw [getD_line _ _ (hlt j (Nat.le_of_lt hj))] at h0
  rw [getD_line _ _ (hlt column (Nat.le_refl _))]
  exact h j column hj hcolumn h0

end Display

end Moxia
