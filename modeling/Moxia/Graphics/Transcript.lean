import Moxia.Graphics.Shows
import Mathlib.Data.List.GetD
import Mathlib.Data.List.Induction

/-!
# The text in the buffer

A `Transcript` is a terminal that forgets nothing: all lines since it was cleared. The buffer holds
the last ones of them (`Refines`), in as many rows as the cursor has above it. No step reads or
writes a cell that is not in the buffer (`inBuffer_stepCells`).
-/

namespace Moxia

open Lib

/-- All lines, the last of which is `line`, and the column of the cursor in it. -/
structure Transcript where
  above : List (List UInt8)
  line : List UInt8
  column : Nat

namespace Transcript

def empty : Transcript := ⟨[], [], 0⟩

def lines (t : Transcript) : List (List UInt8) := t.above ++ [t.line]

/-- The last `n` lines. -/
def last (t : Transcript) (n : Nat) : List (List UInt8) := t.lines.drop (t.lines.length - n)

def overwrite (line : List UInt8) (column : Nat) (c : UInt8) : List UInt8 :=
  line.take column ++ c :: line.drop (column + 1)

def putChar (t : Transcript) (c : UInt8) : Transcript :=
  if c = newlineChar then ⟨t.lines, [], 0⟩
  else if c = returnChar then { t with column := 0 }
  else if t.column < kColumns - 1 then
    { t with line := overwrite t.line t.column c, column := t.column + 1 }
  else t

def putString (t : Transcript) : List UInt8 → Transcript
  | [] => t
  | c :: s => if c = 0 then t else (t.putChar c).putString s

def step (t : Transcript) : Console.Event → Transcript
  | .putChar c => t.putChar c
  | .putString s => t.putString s
  | .clear => empty

def run (es : List Console.Event) : Transcript := es.foldl step empty

/-! ## Lines -/

variable {t : Transcript} {line : List UInt8} {column i j n row : Nat} {c : UInt8}

@[simp] theorem length_lines :
    t.lines.length = t.above.length + 1 := by rw [lines, List.length_append, List.length_singleton]

theorem getD_last : (t.last n).getD row [] = t.lines.getD (t.lines.length - n + row) [] := by
  rw [last, List.getD_eq_getElem?_getD, List.getElem?_drop, List.getD_eq_getElem?_getD]

theorem getD_above (hi : i < t.above.length) : t.lines.getD i [] = t.above.getD i [] :=
  List.getD_append _ _ _ _ hi

theorem getD_line : t.lines.getD t.above.length [] = t.line := by
  rw [lines, List.getD_append_right _ _ _ _ (Nat.le_refl _), Nat.sub_self, List.getD_cons_zero]

theorem getD_overwrite (h : column ≤ line.length) :
    (overwrite line column c).getD j 0 = if j = column then c else line.getD j 0 := by
  have htake : (line.take column).length = column := List.length_take_of_le h
  simp only [List.getD_eq_getElem?_getD]
  rcases Nat.lt_trichotomy j column with hlt | rfl | hgt
  · rw [overwrite, List.getElem?_append_left (by omega), List.getElem?_take_of_lt hlt,
      if_neg (by omega)]
  · rw [overwrite, List.getElem?_append_right (by omega), htake, Nat.sub_self, if_pos rfl]
    rfl
  · have hsub : j - column = j - (column + 1) + 1 := by omega
    have hadd : column + 1 + (j - (column + 1)) = j := by omega
    rw [overwrite, List.getElem?_append_right (by omega), htake, hsub, List.getElem?_cons_succ,
      List.getElem?_drop, hadd,
      if_neg (by omega)]

theorem length_overwrite (h : column ≤ line.length) :
    (overwrite line column c).length = max line.length (column + 1) := by
  rw [overwrite, List.length_append, List.length_take_of_le h, List.length_cons, List.length_drop]
  omega

/-- The cursor is in the last line or right behind it, and no line goes past the last usable
column. -/
structure Fits (t : Transcript) : Prop where
  column_le : t.column ≤ t.line.length
  length_le : ∀ l ∈ t.lines, l.length ≤ kColumns - 1

theorem fits_empty : Fits empty :=
  ⟨Nat.le_refl 0, fun l hl => by rw [List.mem_singleton.1 hl]; exact Nat.zero_le _⟩

theorem Fits.putChar (h : Fits t) (c : UInt8) : Fits (t.putChar c) := by
  rw [Transcript.putChar]
  split
  · refine ⟨Nat.le_refl 0, fun l hl => ?_⟩
    rcases List.mem_append.1 hl with hl | hl
    · exact h.length_le l hl
    · rw [List.mem_singleton.1 hl]
      exact Nat.zero_le _
  split
  · exact ⟨Nat.zero_le _, h.length_le⟩
  split
  · rename_i hcolumn
    refine ⟨?_, fun l hl => ?_⟩
    · rw [length_overwrite h.column_le]
      exact Nat.le_max_right ..
    · rcases List.mem_append.1 hl with hl | hl
      · exact h.length_le l (List.mem_append_left _ hl)
      · rw [List.mem_singleton.1 hl, length_overwrite h.column_le]
        exact Nat.max_le.2
          ⟨h.length_le t.line (List.mem_append_right _ (List.mem_singleton_self _)), hcolumn⟩
  · exact h

theorem Fits.putString (h : Fits t) (s : List UInt8) : Fits (t.putString s) := by
  induction s generalizing t with
  | nil => exact h
  | cons c s ih =>
    rw [Transcript.putString]
    split
    · exact h
    · exact ih (h.putChar c)

theorem Fits.step (h : Fits t) (e : Console.Event) : Fits (t.step e) := by
  cases e with
  | putChar c => exact h.putChar c
  | putString s => exact h.putString s
  | clear => exact fits_empty

end Transcript

namespace Console

variable {d : Display} {st : Console} {t : Transcript} {c : UInt8} {row column : Nat}

/-- The buffer shows the last lines, and nothing below them. -/
structure Refines (t : Transcript) (st : Console) : Prop where
  cursorColumn : st.cursorColumn = t.column
  cursorRow : st.cursorRow + 1 = min t.lines.length kRows
  shown : ∀ row, row ≤ st.cursorRow → ∀ column, column < kColumns + 1 →
    st.buffer row column = ((t.last (st.cursorRow + 1)).getD row []).getD column 0
  below : ∀ row, st.cursorRow < row → row < kRows → ∀ column, column < kColumns + 1 →
    st.buffer row column = 0

theorem refines_empty (screen : Screen) : Refines Transcript.empty (start screen) where
  cursorColumn := rfl
  cursorRow := rfl
  shown row hrow column _ := by
    obtain rfl : row = 0 := Nat.le_zero.1 hrow
    rfl
  below _ _ _ _ _ := rfl

theorem refines_clear (d : Display) (st : Console) : Refines Transcript.empty (clear d st) where
  cursorColumn := rfl
  cursorRow := rfl
  shown row hrow column _ := by
    obtain rfl : row = 0 := Nat.le_zero.1 hrow
    rfl
  below _ _ _ _ _ := rfl

/-- The cursor is in the buffer, and each row ends with a NUL. -/
structure Sound (st : Console) : Prop where
  row_lt : st.cursorRow < kRows
  terminated : ∀ row, row < kRows → st.buffer row kColumns = 0

namespace Refines

theorem above_eq (h : Refines t st) : t.lines.length - (st.cursorRow + 1) + st.cursorRow =
    t.above.length := by
  have := h.cursorRow
  rw [Transcript.length_lines] at this ⊢
  omega

theorem newLine (h : Refines t st) : Refines ⟨t.lines, [], 0⟩ (newLine d st) := by
  have hrow := h.cursorRow
  set t' : Transcript := ⟨t.lines, [], 0⟩ with ht'
  have hlength : t'.lines.length = t.lines.length + 1 := Transcript.length_lines
  have habove : ∀ i, i < t.lines.length → t'.lines.getD i [] = t.lines.getD i [] :=
    fun i hi => Transcript.getD_above hi
  have hline : t'.lines.getD t.lines.length [] = [] := Transcript.getD_line
  rw [Console.newLine]
  dsimp only
  split
  · -- the next row is still free
    rename_i hlt
    have hall : t.lines.length = st.cursorRow + 1 := by omega
    refine ⟨rfl, by
      dsimp only; omega, fun row hle column hcolumn => ?_, fun row hgt hlt column hcolumn => ?_⟩
    · dsimp only at hle ⊢
      rw [Transcript.getD_last, hlength, hall, Nat.sub_self, Nat.zero_add]
      rcases Nat.lt_or_eq_of_le hle with hlt' | rfl
      · rw [h.shown row (Nat.le_of_lt_succ hlt') column hcolumn, Transcript.getD_last, hall,
          Nat.sub_self, Nat.zero_add,
          habove row (by omega)]
      · rw [h.below _ (Nat.lt_succ_self _) (by omega) column hcolumn, ← hall, hline]
        rfl
    · exact h.below row (Nat.lt_of_succ_lt hgt) hlt column hcolumn
  · -- all rows move up
    rename_i hge
    have hlast : st.cursorRow = kRows - 1 := by rw [kRows] at *; omega
    rw [scrollRows_eq]
    refine ⟨rfl, by
      dsimp only; omega, fun row hle column hcolumn => ?_, fun row hgt hlt column hcolumn => ?_⟩
    · dsimp only at hle ⊢
      rw [Transcript.getD_last, hlength]
      by_cases heq : row = kRows - 1
      · have hindex : t.lines.length + 1 - (st.cursorRow + 1) + row = t.lines.length := by
          rw [kRows] at *; omega
        rw [hindex, hline, heq, Function.update_self]
        rfl
      · have hrow' : row + 1 ≤ st.cursorRow := by omega
        have hindex : t.lines.length + 1 - (st.cursorRow + 1) + row =
          t.lines.length - (st.cursorRow + 1) + (row + 1) := by
          rw [kRows] at *
          omega
        rw [Function.update_of_ne heq, if_pos (by omega), h.shown _ hrow' column hcolumn,
          Transcript.getD_last, hindex,
          habove _ (by omega)]
    · dsimp only at hgt
      omega

theorem putChar (h : Refines t st) (hfits : t.Fits) (c : UInt8) :
    Refines (t.putChar c) (putChar d st c) := by
  rw [Transcript.putChar, Console.putChar]
  split
  · exact h.newLine
  split
  · exact ⟨rfl, h.cursorRow, h.shown, h.below⟩
  rw [← h.cursorColumn]
  split
  · rename_i hcolumn
    set t' : Transcript :=
      { t with line := Transcript.overwrite t.line st.cursorColumn c,
               column := st.cursorColumn + 1 }
    have hlength : t'.lines.length = t.lines.length := by
      rw [Transcript.length_lines, Transcript.length_lines]
    refine ⟨rfl, hlength ▸ h.cursorRow, fun row hle column hcol => ?_,
      fun row hgt hlt column hcol => ?_⟩
    · have hold := h.shown row hle column hcol
      have hindex := h.above_eq
      dsimp only
      rw [Transcript.getD_last] at hold ⊢
      rw [hlength]
      by_cases hr : row = st.cursorRow
      · have hline : t'.lines.getD t.above.length [] = Transcript.overwrite t.line st.cursorColumn
          c := Transcript.getD_line
        subst hr
        rw [hindex, Transcript.getD_line] at hold
        rw [Function.update_self, hindex, hline,
          Transcript.getD_overwrite (h.cursorColumn ▸ hfits.column_le)]
        by_cases hc : column = st.cursorColumn
        · rw [if_pos hc, hc, Function.update_self]
        · rw [if_neg hc, Function.update_of_ne hc, hold]
      · have hi : t.lines.length - (st.cursorRow + 1) + row < t.above.length := by
          dsimp only at hle
          omega
        have habove : t'.lines.getD _ [] = t.above.getD _ [] := Transcript.getD_above hi
        rw [Function.update_of_ne hr, hold, habove, Transcript.getD_above hi]
    · dsimp only at hgt ⊢
      rw [Function.update_of_ne (by omega)]
      exact h.below row hgt hlt column hcol
  · exact ⟨h.cursorColumn, h.cursorRow, h.shown, h.below⟩

theorem putString (h : Refines t st) (hfits : t.Fits) (s : List UInt8) :
    Refines (t.putString s) (putString d st s) := by
  induction s generalizing t st with
  | nil => exact h
  | cons c s ih =>
    rw [Transcript.putString, Console.putString]
    split
    · exact h
    · exact ih (h.putChar hfits c) (hfits.putChar c)

theorem step (h : Refines t st) (hfits : t.Fits) (e : Event) :
    Refines (t.step e) (step d st e) := by
  cases e with
  | putChar c => exact h.putChar hfits c
  | putString s => exact h.putString hfits s
  | clear => exact refines_clear d st

theorem getD_eq_zero (hfits : t.Fits) (hcolumn : kColumns - 1 ≤ column) :
    (t.lines.getD row []).getD column 0 = 0 := by
  refine List.getD_eq_default _ _ (Nat.le_trans ?_ hcolumn)
  rw [List.getD_eq_getElem?_getD]
  rcases hline : t.lines[row]? with _ | line
  · exact Nat.zero_le _
  · exact hfits.length_le line (List.mem_of_getElem? hline)

theorem sound (h : Refines t st) (hfits : t.Fits) : Sound st := by
  have hrow := h.cursorRow
  refine ⟨by omega, fun row hlt => ?_⟩
  rcases Nat.lt_or_ge st.cursorRow row with hgt | hle
  · exact h.below row hgt hlt kColumns (Nat.lt_succ_self _)
  · rw [h.shown row hle kColumns (Nat.lt_succ_self _), Transcript.getD_last]
    exact getD_eq_zero hfits (Nat.sub_le ..)

end Refines

/-! ## The cells that are read or written -/

/-- A row of the buffer and a column in it. -/
abbrev Cell := Nat × Nat

def InBuffer (cell : Cell) : Prop := cell.1 < kRows ∧ cell.2 < kColumns + 1

def rowCells (row : Nat) : List Cell := (List.range (kColumns + 1)).map fun column => (row, column)

/-- The loop of `WriteString` over a row of the buffer: with a cell more than the row has, should it
have no NUL. -/
def stringCells (buffer : Nat → Nat → UInt8) (row : Nat) : Nat → Nat → List Cell
  | 0, _ => []
  | n + 1, column =>
      (row, column) :: if buffer row column = 0 then [] else stringCells buffer row n (column + 1)

def scrollRowCells (d : Display) (st : Console) (row : Nat) : List Cell :=
  rowCells (row + 1) ++ rowCells row ++ stringCells (scrollRow d st row).buffer row (kColumns + 2) 0

def scrollCells (d : Display) : Console → List Nat → List Cell
  | _, [] => []
  | st, row :: rows => scrollRowCells d st row ++ scrollCells d (scrollRow d st row) rows

def newLineCells (d : Display) (st : Console) : List Cell :=
  if st.cursorRow < kRows - 1 then [] else scrollCells d st (List.range (kRows - 1)) ++
    rowCells (kRows - 1)

def putCharCells (d : Display) (st : Console) (c : UInt8) : List Cell :=
  if c = newlineChar then newLineCells d st
  else if c = returnChar then []
  else if st.cursorColumn < kColumns - 1 then [(st.cursorRow, st.cursorColumn)]
  else []

def putStringCells (d : Display) : Console → List UInt8 → List Cell
  | _, [] => []
  | st, c :: s =>
      if c = 0 then [] else putCharCells d st c ++ putStringCells d (Console.putChar d st c) s

/-- The bytes that `memset` sets, as cells. -/
def clearCells : List Cell := (List.range ((kColumns + 1) * kRows)).map fun i =>
    (i / (kColumns + 1), i % (kColumns + 1))

def stepCells (d : Display) (st : Console) : Event → List Cell
  | .putChar c => putCharCells d st c
  | .putString s => putStringCells d st s
  | .clear => clearCells

theorem inBuffer_rowCells (hrow : row < kRows) : ∀ cell ∈ rowCells row, InBuffer cell := by
  intro cell hcell
  obtain ⟨column, hcolumn, rfl⟩ := List.mem_map.1 hcell
  exact ⟨hrow, List.mem_range.1 hcolumn⟩

theorem inBuffer_stringCells {buffer : Nat → Nat → UInt8} (hrow : row < kRows)
    (hnul : buffer row kColumns = 0) (n : Nat)
    (hcolumn : column ≤ kColumns) : ∀ cell ∈ stringCells buffer row n column, InBuffer cell := by
  induction n generalizing column with
  | zero => exact List.forall_mem_nil _
  | succ n ih =>
    rw [stringCells, List.forall_mem_cons]
    refine ⟨⟨hrow, Nat.lt_succ_of_le hcolumn⟩, ?_⟩
    split
    · exact List.forall_mem_nil _
    · rename_i hchar
      have hne : column ≠ kColumns := fun heq => hchar (heq ▸ hnul)
      exact ih (Nat.lt_of_le_of_ne hcolumn hne)

theorem Sound.scrollRow (h : Sound st) (hrow : row + 1 < kRows) : Sound (scrollRow d st row) := by
  refine ⟨h.row_lt, fun r hr => ?_⟩
  rw [Console.scrollRow]
  dsimp only
  by_cases heq : r = row
  · rw [heq, Function.update_self]
    exact h.terminated (row + 1) hrow
  · rw [Function.update_of_ne heq]
    exact h.terminated r hr

theorem inBuffer_scrollCells (h : Sound st) {rows : List Nat}
    (hrows : ∀ row ∈ rows, row + 1 < kRows) :
    ∀ cell ∈ scrollCells d st rows, InBuffer cell := by
  induction rows generalizing st with
  | nil => exact List.forall_mem_nil _
  | cons row rows ih =>
    obtain ⟨hrow, hrest⟩ := List.forall_mem_cons.1 hrows
    have hlt : row < kRows := Nat.lt_of_succ_lt hrow
    have hsound : Sound (scrollRow d st row) := h.scrollRow hrow
    rw [scrollCells, scrollRowCells, List.forall_mem_append, List.forall_mem_append,
      List.forall_mem_append]
    exact ⟨⟨⟨inBuffer_rowCells hrow, inBuffer_rowCells hlt⟩,
      inBuffer_stringCells hlt (hsound.terminated row hlt) _ (Nat.zero_le _)⟩, ih hsound hrest⟩

theorem inBuffer_putCharCells (h : Sound st) (c : UInt8) :
    ∀ cell ∈ putCharCells d st c, InBuffer cell := by
  rw [putCharCells, newLineCells]
  split
  · split
    · exact List.forall_mem_nil _
    · refine List.forall_mem_append.2 ⟨inBuffer_scrollCells h fun row hrow => ?_,
        inBuffer_rowCells (by decide)⟩
      exact Nat.add_lt_of_lt_sub (List.mem_range.1 hrow)
  split
  · exact List.forall_mem_nil _
  split
  · rename_i hcolumn
    exact List.forall_mem_singleton.2 ⟨h.row_lt, Nat.lt_of_lt_of_le hcolumn (by decide)⟩
  · exact List.forall_mem_nil _

theorem inBuffer_clearCells : ∀ cell ∈ clearCells, InBuffer cell := by
  intro cell hcell
  obtain ⟨i, hi, rfl⟩ := List.mem_map.1 hcell
  exact ⟨Nat.div_lt_of_lt_mul (List.mem_range.1 hi), Nat.mod_lt _ (Nat.succ_pos _)⟩

theorem inBuffer_putStringCells (h : Refines t st) (hfits : t.Fits) (s : List UInt8) :
    ∀ cell ∈ putStringCells d st s, InBuffer cell := by
  induction s generalizing t st with
  | nil => exact List.forall_mem_nil _
  | cons c s ih =>
    rw [putStringCells]
    split
    · exact List.forall_mem_nil _
    · exact List.forall_mem_append.2 ⟨inBuffer_putCharCells (h.sound hfits) c,
        ih (h.putChar hfits c) (hfits.putChar c)⟩

theorem inBuffer_stepCells (h : Refines t st) (hfits : t.Fits) (e : Event) :
    ∀ cell ∈ stepCells d st e, InBuffer cell := by
  cases e with
  | putChar c => exact inBuffer_putCharCells (h.sound hfits) c
  | putString s => exact inBuffer_putStringCells h hfits s
  | clear => exact inBuffer_clearCells

/-! ## Any run -/

theorem refines_run (d : Display) (screen : Screen) (es : List Event) :
    (Transcript.run es).Fits ∧ Refines (Transcript.run es) (es.foldl (step d) (start screen)) := by
  induction es using List.reverseRecOn with
  | nil => exact ⟨Transcript.fits_empty, refines_empty screen⟩
  | append_singleton es e ih =>
    obtain ⟨hfits, h⟩ := ih
    rw [Transcript.run, List.foldl_append, List.foldl_append]
    exact ⟨hfits.step e, h.step hfits e⟩

/-- Whatever is put, the buffer shows the last lines of the transcript, its rows end with a NUL, and
the next step stays in it. -/
theorem buffer_shows_transcript (d : Display) (screen : Screen) (es : List Event) :
    Refines (Transcript.run es) (es.foldl (step d) (start screen)) ∧
      (∀ row, row < kRows → (es.foldl (step d) (start screen)).buffer row kColumns = 0) ∧
      ∀ e, ∀ cell ∈ stepCells d (es.foldl (step d) (start screen)) e, InBuffer cell := by
  obtain ⟨hfits, h⟩ := refines_run d screen es
  exact ⟨h, (h.sound hfits).terminated, inBuffer_stepCells h hfits⟩

end Console

end Moxia
