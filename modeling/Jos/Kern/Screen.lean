import Jos.Kern.Cga
import Mathlib.Logic.Function.Basic

/-! The screen as rows and columns, and how cga_putc draws on it. -/
namespace Jos

open Prog

/-- What is seen: the cells, and the cursor, which is always on one of them. -/
structure Screen where
  cell : Fin crtRows → Fin crtCols → BitVec 16
  row : Fin crtRows
  col : Fin crtCols

namespace Screen

/-- The cell at the cursor becomes `v`. -/
def write (scr : Screen) (v : BitVec 16) : Screen :=
  { scr with cell := fun r c => if r = scr.row ∧ c = scr.col then v else scr.cell r c }

/-- Row r + 1 moves to row r, and the last row is blanked. -/
def scroll (scr : Screen) : Screen :=
  { scr with cell := fun r c => if h : r.val + 1 < crtRows then scr.cell ⟨r.val + 1, h⟩ c else 0x0720 }

/-- To the start of the row. -/
def carriageReturn (scr : Screen) : Screen := { scr with col := ⟨0, by decide⟩ }

/-- To the start of the next row; from the last row, the screen scrolls under the cursor. -/
def newline (scr : Screen) : Screen :=
  if h : scr.row.val + 1 < crtRows then
    { scr with row := ⟨scr.row.val + 1, h⟩ }.carriageReturn
  else
    scr.scroll.carriageReturn

/-- To the next cell. -/
def advance (scr : Screen) : Screen :=
  if h : scr.col.val + 1 < crtCols then { scr with col := ⟨scr.col.val + 1, h⟩ } else scr.newline

/-- A character in the cell at the cursor. -/
def print (scr : Screen) (v : BitVec 16) : Screen := (scr.write v).advance

/-- Back to the cell before, which is blanked; nothing at the first cell. -/
def backspace (scr : Screen) (v : BitVec 16) : Screen :=
  if 0 < scr.col.val then
    { scr with col := ⟨scr.col.val - 1, by omega⟩ }.write v
  else if 0 < scr.row.val then
    { scr with row := ⟨scr.row.val - 1, by omega⟩, col := ⟨crtCols - 1, by decide⟩ }.write v
  else
    scr

/-- What a character does to the screen. -/
def putc (scr : Screen) (c : Word) : Screen :=
  let c := withAttribute c
  match (c &&& 0xFF).toNat with
  | 8 => scr.backspace ((c &&& ~~~0xFF ||| 0x20).setWidth 16)
  | 10 => scr.newline
  | 13 => scr.carriageReturn
  | 9 => ((((scr.print 0x0720).print 0x0720).print 0x0720).print 0x0720).print 0x0720
  | _ => scr.print (c.setWidth 16)

end Screen

/-- The buffer holds the cells of the screen. -/
def ShowsCells (s : Crt) (scr : Screen) : Prop := ∀ r c, s.crtBuf (r.val * crtCols + c.val) = scr.cell r c

/-- The buffer and the cursor are those of the screen. -/
structure Shows (s : Crt) (scr : Screen) : Prop where
  cells : ShowsCells s scr
  pos : s.crtPos.toNat = scr.row.val * crtCols + scr.col.val

/-- Beyond the screen, the buffer is as it was. -/
def SameBeyond (s t : Crt) : Prop := ∀ i, crtSize ≤ i → t.crtBuf i = s.crtBuf i

/-- The program returns, with this on the screen. -/
def Draws (x : Prog CrtFault Crt Unit) (s : Crt) (scr : Screen) : Prop :=
  ∃ t, x s = .ok () t ∧ Shows t scr ∧ SameBeyond s t

section screen

variable {x y : Prog CrtFault Crt Unit} {f : Unit → Prog CrtFault Crt Unit} {s t : Crt}
  {scr scr' : Screen} {i j n : Nat} {v : BitVec 16} {c w : Word}

theorem crtRows_eq : crtRows = 25 := rfl

theorem crtCols_eq : crtCols = 80 := rfl

theorem crtSize_eq : crtSize = 2000 := rfl

theorem SameBeyond.refl (s : Crt) : SameBeyond s s := fun _ _ => rfl

theorem SameBeyond.trans {u : Crt} (h : SameBeyond s t) (h' : SameBeyond t u) : SameBeyond s u :=
  fun i hi => (h' i hi).trans (h i hi)

theorem Screen.index_lt (scr : Screen) : scr.row.val * crtCols + scr.col.val < crtSize := by
  have hrow : scr.row.val < 25 := scr.row.isLt
  have hcol : scr.col.val < 80 := scr.col.isLt
  change scr.row.val * 80 + scr.col.val < 2000
  omega

theorem Shows.pos_lt (h : Shows s scr) : s.crtPos.toNat < crtSize := by
  rw [h.pos]
  exact scr.index_lt

/-- What is on the screen when the cursor is. -/
theorem exists_shows (h : s.crtPos.toNat < crtSize) : ∃ scr, Shows s scr := by
  have hlt : s.crtPos.toNat < 2000 := h
  refine ⟨⟨fun r c => s.crtBuf (r.val * crtCols + c.val), ⟨s.crtPos.toNat / 80, ?_⟩,
    ⟨s.crtPos.toNat % 80, ?_⟩⟩, fun r c => rfl, ?_⟩
  · change s.crtPos.toNat / 80 < 25
    omega
  · exact Nat.mod_lt _ (by decide)
  · change _ = s.crtPos.toNat / 80 * 80 + s.crtPos.toNat % 80
    omega

theorem Draws.bind (h : Draws x s scr) (hf : ∀ t, Shows t scr → Draws (f ()) t scr') :
    Draws (x >>= f) s scr' := by
  obtain ⟨t, hx, hshows, hsame⟩ := h
  obtain ⟨u, hu, hshows', hsame'⟩ := hf t hshows
  exact ⟨u, (bind_ok hx).trans hu, hshows', hsame.trans hsame'⟩

theorem storeCell_ok (hi : i < crtSize) :
    storeCell i v s = .ok () { s with crtBuf := Function.update s.crtBuf i v } := by
  rw [storeCell, bind_ok (check_true hi s)]
  rfl

theorem loadCell_ok (hi : i < crtSize) : loadCell i s = .ok (s.crtBuf i) s := by
  rw [loadCell, bind_ok (check_true hi s)]
  rfl

/-- The cells move down one by one, each before it is overwritten. -/
theorem moveCells_ok (hj : j + n ≤ crtSize) (hij : i < j) :
    ∃ t, moveCells i j n s = .ok () t ∧ t.crtPos = s.crtPos ∧
      ∀ k, t.crtBuf k = if i ≤ k ∧ k < i + n then s.crtBuf (k + (j - i)) else s.crtBuf k := by
  induction n generalizing s i j with
  | zero =>
    refine ⟨s, rfl, rfl, fun k => ?_⟩
    rw [if_neg (by omega)]
  | succ n ih =>
    obtain ⟨t, hrun, hpos, hbuf⟩ := ih (i := i + 1) (j := j + 1)
      (s := { s with crtBuf := Function.update s.crtBuf i (s.crtBuf j) }) (by omega) (by omega)
    refine ⟨t, ?_, hpos, fun k => ?_⟩
    · rw [moveCells, bind_ok (loadCell_ok (by omega)), bind_ok (storeCell_ok (by omega)), hrun]
    · dsimp only at hbuf
      rw [hbuf]
      by_cases hk : k = i
      · rw [if_neg (by omega), if_pos (by omega), hk, Function.update_self, show i + (j - i) = j by omega]
      · rw [Function.update_of_ne hk]
        by_cases hin : i ≤ k ∧ k < i + (n + 1)
        · rw [if_pos (by omega), if_pos hin, Function.update_of_ne (by omega),
            show k + (j + 1 - (i + 1)) = k + (j - i) by omega]
        · rw [if_neg (by omega), if_neg hin]

theorem blankCells_ok (hi : i + n ≤ crtSize) :
    ∃ t, blankCells i n s = .ok () t ∧ t.crtPos = s.crtPos ∧
      ∀ k, t.crtBuf k = if i ≤ k ∧ k < i + n then 0x0720 else s.crtBuf k := by
  induction n generalizing s i with
  | zero =>
    refine ⟨s, rfl, rfl, fun k => ?_⟩
    rw [if_neg (by omega)]
  | succ n ih =>
    obtain ⟨t, hrun, hpos, hbuf⟩ := ih (i := i + 1)
      (s := { s with crtBuf := Function.update s.crtBuf i 0x0720 }) (by omega)
    refine ⟨t, ?_, hpos, fun k => ?_⟩
    · rw [blankCells, bind_ok (storeCell_ok (by omega)), hrun]
    · dsimp only at hbuf
      rw [hbuf]
      by_cases hk : k = i
      · rw [if_neg (by omega), if_pos (by omega), hk, Function.update_self]
      · rw [Function.update_of_ne hk]
        by_cases hin : i ≤ k ∧ k < i + (n + 1)
        · rw [if_pos (by omega), if_pos hin]
        · rw [if_neg (by omega), if_neg hin]

/-- On the screen, there is nothing to scroll. -/
theorem cgaScroll_none (h : Shows s scr) : Draws cgaScroll s scr := by
  refine ⟨s, ?_, h, SameBeyond.refl s⟩
  have hpos := h.pos_lt
  rw [cgaScroll, bind_ok (read_apply s), if_neg (by omega), pure_apply]

/-- Where the cursor has run off, each row takes the cells of the next one. -/
theorem cgaScroll_ok (hpos : crtSize ≤ s.crtPos.toNat) :
    ∃ t, cgaScroll s = .ok () t ∧ t.crtPos = s.crtPos - 80 ∧ ∀ k, t.crtBuf k =
      if k + crtCols < crtSize then s.crtBuf (k + crtCols)
      else if k < crtSize then 0x0720 else s.crtBuf k := by
  have hcols := crtCols_eq
  have hsize := crtSize_eq
  obtain ⟨t, hmove, hposT, hbufT⟩ := moveCells_ok (s := s) (i := 0) (j := crtCols)
    (n := crtSize - crtCols) (by decide) (by decide)
  obtain ⟨u, hblank, hposU, hbufU⟩ := blankCells_ok (s := t) (i := crtSize - crtCols) (n := crtCols)
    (by decide)
  refine ⟨{ u with crtPos := u.crtPos - 80 }, ?_, ?_, fun k => ?_⟩
  · rw [cgaScroll, bind_ok (read_apply s), if_pos hpos, bind_ok hmove, bind_ok hblank]
    rfl
  · rw [hposU, hposT]
  · dsimp only
    rw [hbufU, hbufT]
    by_cases hlast : k + crtCols < crtSize
    · rw [if_neg (by omega), if_pos (by omega), if_pos hlast, Nat.sub_zero]
    · rw [if_neg hlast]
      by_cases hin : k < crtSize
      · rw [if_pos (by omega), if_pos hin]
      · rw [if_neg (by omega), if_neg (by omega), if_neg hin]

/-- Just behind the last cell, the screen scrolls once. -/
theorem cgaScroll_last (h : ShowsCells s scr) (hpos : s.crtPos.toNat = crtSize)
    (hrow : scr.row.val + 1 = crtRows) (hcol : scr.col.val = 0) : Draws cgaScroll s scr.scroll := by
  have hrows := crtRows_eq
  have hcols := crtCols_eq
  have hsize := crtSize_eq
  obtain ⟨t, hrun, hpos', hbuf⟩ := cgaScroll_ok (s := s) (by omega)
  refine ⟨t, hrun, ⟨fun r c => ?_, ?_⟩, fun i hi => ?_⟩
  · have hr := r.isLt
    have hc := c.isLt
    have hmul : r.val * crtCols = r.val * 80 := rfl
    dsimp only [Screen.scroll]
    rw [hbuf]
    by_cases hlast : r.val + 1 < crtRows
    · rw [if_pos (by omega), dif_pos hlast, ← h]
      congr 1
      have hmul' : (r.val + 1) * crtCols = (r.val + 1) * 80 := rfl
      dsimp only
      omega
    · rw [if_neg (by omega), if_pos (by omega), dif_neg hlast]
  · have h80 : (80 : BitVec 16).toNat = 80 := rfl
    have hmul : scr.row.val * crtCols = scr.row.val * 80 := rfl
    dsimp only [Screen.scroll]
    rw [hpos', BitVec.toNat_sub, hcol]
    omega
  · rw [hbuf, if_neg (by omega), if_neg (by omega)]

/-! The characters. -/

theorem Screen.newline_scroll (h : ¬ scr.row.val + 1 < crtRows) :
    scr.newline = scr.carriageReturn.scroll := by
  rw [newline, dif_neg h]
  rfl

/-- Behind a newline, the scroll test puts the cursor on the screen. -/
theorem cgaScroll_newline (h : ShowsCells s scr) (hpos : s.crtPos.toNat = (scr.row.val + 1) * crtCols) :
    Draws cgaScroll s scr.newline := by
  have hrow := scr.row.isLt
  by_cases hlast : scr.row.val + 1 < crtRows
  · rw [Screen.newline, dif_pos hlast]
    exact cgaScroll_none ⟨h, hpos⟩
  · have heq : scr.row.val + 1 = crtRows := by omega
    rw [Screen.newline_scroll hlast]
    have hcells : ShowsCells s scr.carriageReturn := h
    exact cgaScroll_last hcells (by rw [hpos, heq]; rfl) heq rfl

/-- Behind a character, the scroll test puts the cursor on the next cell. -/
theorem cgaScroll_advance (h : ShowsCells s scr)
    (hpos : s.crtPos.toNat = scr.row.val * crtCols + scr.col.val + 1) : Draws cgaScroll s scr.advance := by
  have hcol := scr.col.isLt
  by_cases hlast : scr.col.val + 1 < crtCols
  · rw [Screen.advance, dif_pos hlast]
    exact cgaScroll_none ⟨h, hpos⟩
  · rw [Screen.advance, dif_neg hlast]
    refine cgaScroll_newline h ?_
    rw [hpos, Nat.succ_mul]
    omega

/-- Two cells of the screen are at one place only if they are the same. -/
theorem index_inj {r r' : Fin crtRows} {c c' : Fin crtCols}
    (h : r.val * crtCols + c.val = r'.val * crtCols + c'.val) : r = r' ∧ c = c' := by
  have hc : c.val < 80 := c.isLt
  have hc' : c'.val < 80 := c'.isLt
  have h80 : r.val * 80 + c.val = r'.val * 80 + c'.val := h
  exact ⟨Fin.ext (by omega), Fin.ext (by omega)⟩

/-- A store at the cursor writes the cell there. -/
theorem ShowsCells.write (h : ShowsCells s scr) (hi : i = scr.row.val * crtCols + scr.col.val) :
    ShowsCells { s with crtBuf := Function.update s.crtBuf i v } (scr.write v) := by
  intro r c
  dsimp only [Screen.write]
  by_cases hrc : r = scr.row ∧ c = scr.col
  · rw [if_pos hrc, hrc.1, hrc.2, ← hi, Function.update_self]
  · rw [if_neg hrc, Function.update_of_ne, h]
    exact fun heq => hrc (index_inj (heq.trans hi))

theorem sameBeyond_store (hi : i < crtSize) :
    SameBeyond s { s with crtBuf := Function.update s.crtBuf i v } :=
  fun _ hk => Function.update_of_ne (by omega) ..

/-- cga_putc writes the cursor to the ports and returns. -/
theorem cgaCursor_draws (h : Shows s scr) : Draws cgaCursor s scr :=
  ⟨_, rfl, ⟨h.cells, h.pos⟩, SameBeyond.refl s⟩

/-- `crt_pos -= (crt_pos % CRT_COLS)`. -/
theorem toNat_rowStart (pos : BitVec 16) : (pos - pos % 80).toNat = pos.toNat / crtCols * crtCols := by
  have h80 : (80 : BitVec 16).toNat = 80 := rfl
  have hlt := pos.isLt
  rw [BitVec.toNat_sub, BitVec.toNat_umod, h80, crtCols_eq]
  omega

theorem Screen.row_eq (h : i = scr.row.val * crtCols + scr.col.val) : i / crtCols = scr.row.val := by
  have hcol : scr.col.val < 80 := scr.col.isLt
  have h80 : i = scr.row.val * 80 + scr.col.val := h
  change i / 80 = scr.row.val
  omega

/-- A program that draws on a screen, and then finds nothing to scroll. -/
theorem Draws.settle (h : Draws x s scr) : Draws (x >>= fun _ => cgaScroll) s scr :=
  h.bind fun _ ht => cgaScroll_none ht

theorem pos_pos_iff : 0 < s.crtPos ↔ 0 < s.crtPos.toNat := BitVec.lt_def

theorem toNat_pred_pos (h : 0 < s.crtPos.toNat) : (s.crtPos - 1).toNat = s.crtPos.toNat - 1 := by
  have hone : (1 : BitVec 16).toNat = 1 := rfl
  have hlt := s.crtPos.isLt
  rw [BitVec.toNat_sub, hone]
  omega

/-- A backspace blanks the cell before the cursor, wherever that is. -/
theorem cgaBackspace_store (h : Shows s scr) (hp : 0 < s.crtPos.toNat) (hcell : scr'.cell = scr.cell)
    (hidx : scr'.row.val * crtCols + scr'.col.val = s.crtPos.toNat - 1) :
    Draws (cgaBackspace c) s (scr'.write ((c &&& ~~~0xFF ||| 0x20).setWidth 16)) := by
  have hlt := h.pos_lt
  have hshows : ShowsCells { s with crtPos := s.crtPos - 1 } scr' := by
    intro r c
    rw [hcell]
    exact h.cells r c
  have hi : (s.crtPos - 1).toNat = scr'.row.val * crtCols + scr'.col.val := by
    rw [toNat_pred_pos hp, hidx]
  have hin : (s.crtPos - 1).toNat < crtSize := by
    rw [toNat_pred_pos hp]
    omega
  refine ⟨_, ?_, ⟨hshows.write hi, hi⟩, sameBeyond_store hin⟩
  rw [cgaBackspace, bind_ok (read_apply s), if_pos (pos_pos_iff.mpr hp)]
  exact storeCell_ok (s := { s with crtPos := s.crtPos - 1 }) hin

theorem cgaBackspace_draws (h : Shows s scr) :
    Draws (cgaBackspace c) s (scr.backspace ((c &&& ~~~0xFF ||| 0x20).setWidth 16)) := by
  have hpos := h.pos
  have hcols := crtCols_eq
  have hmul : scr.row.val * crtCols = scr.row.val * 80 := rfl
  have hcol := scr.col.isLt
  by_cases hc : 0 < scr.col.val
  · rw [Screen.backspace, if_pos hc]
    refine cgaBackspace_store h (by omega) rfl ?_
    dsimp only
    omega
  · by_cases hr : 0 < scr.row.val
    · have hmul' : (scr.row.val - 1) * crtCols = (scr.row.val - 1) * 80 := rfl
      rw [Screen.backspace, if_neg hc, if_pos hr]
      refine cgaBackspace_store h (by omega) rfl ?_
      dsimp only
      omega
    · have hhome : ¬ 0 < s.crtPos := by
        rw [pos_pos_iff]
        omega
      rw [Screen.backspace, if_neg hc, if_neg hr]
      refine ⟨s, ?_, h, SameBeyond.refl s⟩
      rw [cgaBackspace, bind_ok (read_apply s), if_neg hhome, pure_apply]

theorem cgaReturn_draws (h : Shows s scr) : Draws cgaReturn s scr.carriageReturn := by
  refine ⟨_, rfl, ⟨h.cells, ?_⟩, SameBeyond.refl s⟩
  dsimp only [Screen.carriageReturn]
  rw [toNat_rowStart, Screen.row_eq h.pos]
  rfl

/-- A newline leaves the cursor at the start of the next row, be it on the screen or not. -/
theorem cgaNewline_draws (h : Shows s scr) : Draws ((do
    setPos fun pos => pos + 80
    cgaReturn) >>= fun _ => cgaScroll) s scr.newline := by
  have hlt := h.pos_lt
  have hsize := crtSize_eq
  have hcols := crtCols_eq
  have h80 : (80 : BitVec 16).toNat = 80 := rfl
  have hpos : (s.crtPos + 80 - (s.crtPos + 80) % 80).toNat = (scr.row.val + 1) * crtCols := by
    have hrow := Screen.row_eq h.pos
    have hadd : (s.crtPos + 80).toNat = s.crtPos.toNat + crtCols := by
      rw [BitVec.toNat_add, h80]
      omega
    rw [toNat_rowStart, hadd, Nat.add_div_right _ (by decide), hrow]
  obtain ⟨t, hrun, hshows, hsame⟩ := cgaScroll_newline
    (s := { s with crtPos := s.crtPos + 80 - (s.crtPos + 80) % 80 }) h.cells hpos
  exact ⟨t, hrun, hshows, hsame⟩

/-- A character is written at the cursor, which goes on by one cell. -/
theorem cgaWrite_draws (h : Shows s scr) :
    Draws (cgaWrite c >>= fun _ => cgaScroll) s (scr.print (c.setWidth 16)) := by
  have hlt := h.pos_lt
  have hsize := crtSize_eq
  have hpos : (s.crtPos + 1).toNat = (scr.write (c.setWidth 16)).row.val * crtCols +
      (scr.write (c.setWidth 16)).col.val + 1 := by
    have hone : (1 : BitVec 16).toNat = 1 := rfl
    have hidx := h.pos
    dsimp only [Screen.write]
    rw [BitVec.toNat_add, hone]
    omega
  obtain ⟨t, hrun, hshows, hsame⟩ := cgaScroll_advance
    (s := { s with
      crtBuf := Function.update s.crtBuf s.crtPos.toNat (c.setWidth 16)
      crtPos := s.crtPos + 1 })
    (h.cells.write h.pos) hpos
  refine ⟨t, ?_, hshows, (sameBeyond_store hlt).trans hsame⟩
  rw [bind_apply, cgaWrite, bind_ok (read_apply s), bind_ok (storeCell_ok hlt)]
  exact hrun

theorem cgaSwitch_other {putSpace : Word → Prog CrtFault Crt Unit} (h8 : (c &&& 0xFF).toNat ≠ 8)
    (h10 : (c &&& 0xFF).toNat ≠ 10) (h13 : (c &&& 0xFF).toNat ≠ 13) (h9 : (c &&& 0xFF).toNat ≠ 9) :
    cgaSwitch putSpace c = cgaWrite c := by
  unfold cgaSwitch
  split
  · next h => exact absurd h h8
  · next h => exact absurd h h10
  · next h => exact absurd h h13
  · next h => exact absurd h h9
  · rfl

theorem Screen.putc_other (h8 : (withAttribute c &&& 0xFF).toNat ≠ 8)
    (h10 : (withAttribute c &&& 0xFF).toNat ≠ 10) (h13 : (withAttribute c &&& 0xFF).toNat ≠ 13)
    (h9 : (withAttribute c &&& 0xFF).toNat ≠ 9) :
    scr.putc c = scr.print ((withAttribute c).setWidth 16) := by
  unfold Screen.putc
  dsimp only
  split
  · next h => exact absurd h h8
  · next h => exact absurd h h10
  · next h => exact absurd h h13
  · next h => exact absurd h h9
  · rfl

/-- The switch of cga_putc and the scroll test behind it, if a space puts out a space. -/
theorem cgaSwitch_draws {putSpace : Word → Prog CrtFault Crt Unit} (h : Shows s scr)
    (hspace : (withAttribute c &&& 0xFF).toNat = 9 →
      ∀ t scr', Shows t scr' → Draws (putSpace 0x20) t (scr'.print 0x0720)) :
    Draws (cgaSwitch putSpace (withAttribute c) >>= fun _ => cgaScroll) s (scr.putc c) := by
  by_cases h8 : (withAttribute c &&& 0xFF).toNat = 8
  · unfold cgaSwitch Screen.putc
    dsimp only
    rw [h8]
    exact (cgaBackspace_draws h).settle
  by_cases h10 : (withAttribute c &&& 0xFF).toNat = 10
  · unfold cgaSwitch Screen.putc
    dsimp only
    rw [h10]
    exact cgaNewline_draws h
  by_cases h13 : (withAttribute c &&& 0xFF).toNat = 13
  · unfold cgaSwitch Screen.putc
    dsimp only
    rw [h13]
    exact (cgaReturn_draws h).settle
  by_cases h9 : (withAttribute c &&& 0xFF).toNat = 9
  · have hone := hspace h9
    unfold cgaSwitch Screen.putc
    dsimp only
    rw [h9]
    exact ((hone s scr h).bind fun _ h1 => (hone _ _ h1).bind fun _ h2 => (hone _ _ h2).bind fun _ h3 =>
      (hone _ _ h3).bind fun _ h4 => hone _ _ h4).settle
  · rw [cgaSwitch_other h8 h10 h13 h9, Screen.putc_other h8 h10 h13 h9]
    exact cgaWrite_draws h

theorem outb_draws {port : Word} {data : Byte} (h : Shows s scr) : Draws (outb port data) s scr :=
  ⟨_, rfl, ⟨h.cells, h.pos⟩, SameBeyond.refl s⟩

/-- The other devices do not draw. -/
theorem consPutcWith_draws {put : Word → Prog CrtFault Crt Unit} (h : Shows s scr)
    (hput : ∀ t, Shows t scr → Draws (put c) t scr') : Draws (consPutcWith put c) s scr' := by
  have hlpt : ∀ t, Shows t scr → Draws (lptPutc c) t scr := fun t ht =>
    (outb_draws ht).bind fun _ h1 => (outb_draws h1).bind fun _ h2 => outb_draws h2
  exact (outb_draws h).bind fun _ h1 => (hlpt _ h1).bind fun _ h2 => hput _ h2

/-- One cga_putc; only a tab needs another one inside. -/
theorem cgaPutcFor_draws {depth : Nat} (h : Shows s scr)
    (hspace : (withAttribute c &&& 0xFF).toNat = 9 →
      ∀ t scr', Shows t scr' → Draws (cgaPutcFor depth 0x20) t (scr'.print 0x0720)) :
    Draws (cgaPutcFor (depth + 1) c) s (scr.putc c) := by
  have hspace' : (withAttribute c &&& 0xFF).toNat = 9 → ∀ t scr', Shows t scr' →
      Draws (consPutcWith (cgaPutcFor depth) 0x20) t (scr'.print 0x0720) :=
    fun h9 t scr' ht => consPutcWith_draws ht fun u hu => hspace h9 u scr' hu
  obtain ⟨t, hrun, hshows, hsame⟩ := cgaSwitch_draws h hspace'
  obtain ⟨_, u, hswitch, hscroll⟩ := bind_eq_ok.mp hrun
  obtain ⟨v, hcursor, hshows', hsame'⟩ := cgaCursor_draws hshows
  refine ⟨v, ?_, hshows', hsame.trans hsame'⟩
  rw [cgaPutcFor, bind_ok hswitch, bind_ok hscroll, hcursor]

/-- cga_putc, for every character. -/
theorem cgaPutc_draws (h : Shows s scr) (c : Word) : Draws (cgaPutc c) s (scr.putc c) := by
  refine cgaPutcFor_draws h fun _ t scr' ht => ?_
  exact cgaPutcFor_draws (c := 0x20) ht fun h9 => absurd h9 (by decide)

/-- And for every sequence of characters. -/
theorem cgaPutcs_draws (cs : List Word) (h : Shows s scr) :
    Draws (cgaPutcs cs) s (cs.foldl Screen.putc scr) := by
  induction cs generalizing s scr with
  | nil => exact ⟨s, rfl, h, SameBeyond.refl s⟩
  | cons c cs ih => exact (cgaPutc_draws h c).bind fun _ ht => ih ht

end screen

/-- For every screen, cursor on it, and sequence of characters: cga_putc always returns, with the
cursor on the screen, and has drawn each character as it should. -/
theorem cgaPutcs_screen (s : Crt) (cs : List Word) (h : s.crtPos.toNat < crtSize) :
    ∃ scr t, Shows s scr ∧ cgaPutcs cs s = .ok () t ∧ Shows t (cs.foldl Screen.putc scr) ∧
      t.crtPos.toNat < crtSize ∧ ∀ i, crtSize ≤ i → t.crtBuf i = s.crtBuf i := by
  obtain ⟨scr, hscr⟩ := exists_shows h
  obtain ⟨t, hrun, hshows, hsame⟩ := cgaPutcs_draws cs hscr
  exact ⟨scr, t, hscr, hrun, hshows, hshows.pos_lt, hsame⟩

/-- An 'x' in the last cell, and a tab. -/
theorem cgaPutcs_screen_last : ∃ scr t, Shows ⟨fun _ => 0, 1999, 0x3D4, []⟩ scr ∧
    cgaPutcs [0x78, 9] ⟨fun _ => 0, 1999, 0x3D4, []⟩ = .ok () t ∧
    Shows t ([0x78, 9].foldl Screen.putc scr) ∧ t.crtPos.toNat < crtSize ∧
      ∀ i, crtSize ≤ i → t.crtBuf i = 0 :=
  cgaPutcs_screen ⟨fun _ => 0, 1999, 0x3D4, []⟩ [0x78, 9] (by decide)

end Jos
