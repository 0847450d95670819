import PsxSym.CType
/-!
# Tabwriter — `text/tabwriter`, through which `EnumType.Def` writes its members

`EnumType.Def` writes its member lines through a `tabwriter.Writer` on its buffer, then calls `Flush`.  `Write` cuts
the text into cells: a `'\t'` or a `'\v'` ends a cell, a `'\n'` or a `'\f'` ends a cell and a line.  A line ended by
`'\f'`, or of one cell, ends a section: the lines buffered so far are formatted and written out.  `Flush` formats
what is left.  Formatting cuts the lines into blocks, the longest runs of consecutive lines that have a cell in a
column, column after column, and pads each cell of a block to the block's widest cell plus the padding.  A line's
last cell, the text before its line break, belongs to no column.

Go's writer works on bytes, and a cell's width counts its runes.  A Lean string is a list of runes, and the
characters that end a cell or a line are ASCII, so the model cuts the text character by character.  The writer's
`Escape` byte `0xff` is no byte of a UTF-8 text, and `EnumType.Def` sets none of the flags `FilterHTML`,
`StripEscape`, `AlignRight`, `DiscardEmptyColumns` and `Debug`; the model leaves them out.

Lines that all have the same number of cells form one block in each column but the last, so each column is as wide
as its widest cell plus the padding (`format_uniform`, `render_uniform`).
-/
namespace PsxSym
namespace Tabwriter

/-! ## The writer -/

/-- The settings `NewWriter` takes, of its flags only `TabIndent`. -/
structure Config where
  minwidth : Nat
  tabwidth : Nat
  padding : Nat
  padchar : Char
  tabIndent : Bool

/-- A writer: what its output holds, the lines buffered since the last flush (each the texts of its cells), the
terminated cells of the current line, and the text of the current cell. -/
structure Writer where
  output : String
  lines : List (List String)
  line : List String
  cell : String
  deriving DecidableEq, Repr

/-- `NewWriter` on an output that holds `output`. -/
def Writer.new (output : String) : Writer := ⟨output, [], [], ""⟩

/-- `Writer.writePadding`: the padding after a cell of `textw` runes in a column `cellw` wide.  With tabs (`useTabs`,
or a tab as the padding character) the column is widened to a multiple of `tabwidth`, and the padding is as many
tabs as cover the rest; otherwise it is the padding character, as many times as the rest is wide. -/
def writePadding (cfg : Config) (textw cellw : Nat) (useTabs : Bool) : String :=
  if cfg.padchar == '\t' || useTabs then
    if cfg.tabwidth = 0 then ""
    else
      let cellw := (cellw + cfg.tabwidth - 1) / cfg.tabwidth * cfg.tabwidth
      String.mk (List.replicate ((cellw - textw + cfg.tabwidth - 1) / cfg.tabwidth) '\t')
  else String.mk (List.replicate (cellw - textw) cfg.padchar)

/-- `Writer.writeLines` on one line, from its cell `j` on.  An empty cell in a column is padded, with tabs while
every cell before it was empty and `TabIndent` is set.  Any other cell is written, then padded with the padding
character when it is in a column.  A cell past the columns, the line's last, is written as it is. -/
def writeCells (cfg : Config) (widths : List Nat) : Nat → Bool → List String → String
  | _, _, [] => ""
  | j, useTabs, c :: cs =>
    if c.isEmpty then
      (if j < widths.length then writePadding cfg 0 (widths.getD j 0) useTabs else "") ++
        writeCells cfg widths (j + 1) useTabs cs
    else
      c ++ (if j < widths.length then writePadding cfg c.length (widths.getD j 0) false else "") ++
        writeCells cfg widths (j + 1) false cs

/-- A line, written with the column widths `widths`. -/
def writeLine (cfg : Config) (widths : List Nat) (line : List String) : String :=
  writeCells cfg widths 0 cfg.tabIndent line

/-- A line has a cell in column `column` when it has more than `column + 1` cells: its last cell is the text before
its line break, and belongs to no column. -/
def hasCell (column : Nat) (line : List String) : Bool := column + 1 < line.length

/-- The width of column `column` of a block: its widest cell plus the padding, and at least `minwidth`. -/
def blockWidth (cfg : Config) (column : Nat) (block : List (List String)) : Nat :=
  block.foldl (fun width line => max width ((line.getD column "").length + cfg.padding)) cfg.minwidth

/-- `Writer.format`, on lines whose columns before `widths.length` have the widths `widths`: the text of each line.
The lines are cut into the longest runs that have a cell in the next column, or have none.  A run that has one is a
block, formatted from the next column on with the block's width pushed; a run that has none is written with
`widths`.  The fuel bounds the columns: a line of at most `widths.length + fuel` cells has none past them. -/
def format (cfg : Config) : Nat → List Nat → List (List String) → List String
  | 0, widths, lines => lines.map (writeLine cfg widths)
  | fuel + 1, widths, lines =>
    (lines.splitBy fun a b => hasCell widths.length a == hasCell widths.length b).flatMap fun run =>
      if run.head?.any (hasCell widths.length) then
        format cfg fuel (widths ++ [blockWidth cfg widths.length run]) run
      else run.map (writeLine cfg widths)

/-- The most cells a line has. -/
def maxCells (lines : List (List String)) : Nat := lines.foldl (fun n line => max n line.length) 0

/-- `format(0, 0, len(lines))` and the line breaks `writeLines` writes: one after each line but the last. -/
def render (cfg : Config) (lines : List (List String)) : String :=
  "\n".intercalate (format cfg (maxCells lines) [] lines)

/-- `Writer.flushNoDefers`: the current cell, when it has text, ends the current line; the lines are formatted and
written to the output, and the writer starts afresh. -/
def Writer.flush (cfg : Config) (w : Writer) : Writer :=
  ⟨w.output ++ render cfg (w.lines ++ [if w.cell.isEmpty then w.line else w.line ++ [w.cell]]), [], [], ""⟩

/-- The characters that end a cell: `'\t'`, `'\v'`, `'\n'` and `'\f'`. -/
def endsCell (c : Char) : Bool := c == '\t' || c == '\x0b' || c == '\n' || c == '\x0c'

theorem endsCell_iff {c : Char} : endsCell c = true ↔ c = '\t' ∨ c = '\x0b' ∨ c = '\n' ∨ c = '\x0c' := by
  simp [endsCell, or_assoc]

/-- The characters that end a line as well: `'\n'` and `'\f'`. -/
def endsLine (c : Char) : Bool := c == '\n' || c == '\x0c'

/-- `Writer.Write` on one character.  A character that ends a cell terminates the current cell.  One that ends a
line then adds a line, and flushes when it is a `'\f'` or the line it ended has one cell.  Any other character is
added to the current cell. -/
def Writer.step (cfg : Config) (w : Writer) (c : Char) : Writer :=
  if endsCell c then
    let line := w.line ++ [w.cell]
    if endsLine c then
      let w : Writer := ⟨w.output, w.lines ++ [line], [], ""⟩
      if c == '\x0c' || line.length == 1 then w.flush cfg else w
    else { w with line := line, cell := "" }
  else { w with cell := w.cell.push c }

/-- `Writer.Write`: the characters of the text, one after another.  Writing two texts one after the other is
writing the two together. -/
def Writer.write (cfg : Config) (w : Writer) (s : String) : Writer := s.data.foldl (Writer.step cfg) w

/-! ## Writing -/

section Write

variable (cfg : Config)

theorem Writer.step_plain (w : Writer) {c : Char} (hc : endsCell c = false) :
    w.step cfg c = { w with cell := ⟨w.cell.data ++ [c]⟩ } := by
  rw [Writer.step, if_neg (by simp [hc])]
  rfl

theorem Writer.step_tab (w : Writer) : w.step cfg '\t' = { w with line := w.line ++ [w.cell], cell := "" } := rfl

/-- A line break after two or more cells adds the line, and flushes nothing. -/
theorem Writer.step_newline (w : Writer) (hl : w.line ≠ []) :
    w.step cfg '\n' = ⟨w.output, w.lines ++ [w.line ++ [w.cell]], [], ""⟩ := by
  have h : (w.line ++ [w.cell]).length ≠ 1 := by
    obtain ⟨x, l, hx⟩ := List.exists_cons_of_ne_nil hl
    simp [hx]
  simp [Writer.step, endsCell, endsLine, h, hl]

/-- Characters that end no cell are added to the current cell. -/
theorem Writer.foldl_step_plain : ∀ (w : Writer) (s : List Char), (∀ c ∈ s, endsCell c = false) →
    s.foldl (Writer.step cfg) w = { w with cell := ⟨w.cell.data ++ s⟩ }
  | w, [], _ => by simp
  | w, c :: s, h => by
    rw [List.foldl_cons, w.step_plain cfg (h c (List.mem_cons_self _ _)),
      Writer.foldl_step_plain _ s fun x hx => h x (List.mem_cons_of_mem _ hx)]
    simp

end Write

/-! ## Formatting a block -/

section Format

variable {α : Type}

theorem splitBy_loop_const (P : α → Bool) (b : Bool) : ∀ (as : List α) (a : α) (g : List α) (gs : List (List α)),
    (∀ x ∈ a :: as, P x = b) →
      List.splitBy.loop (fun x y => P x == P y) as a g gs = ((g.reverse ++ a :: as) :: gs).reverse
  | [], a, g, gs, _ => by simp [List.splitBy.loop]
  | x :: as, a, g, gs, h => by
    have hx : (P a == P x) = true := by simp [h a (List.mem_cons_self _ _), h x (by simp)]
    rw [List.splitBy.loop, hx]
    dsimp only
    rw [splitBy_loop_const P b as x (a :: g) gs fun y hy => h y (List.mem_cons_of_mem _ hy)]
    simp

/-- A run of lines all on one side of `P`, then a line on the other, split in two. -/
theorem splitBy_loop_const_append (P : α → Bool) (b : Bool) {y : α} (hy : P y ≠ b) :
    ∀ (as : List α) (a : α) (g : List α) (gs : List (List α)), (∀ x ∈ a :: as, P x = b) →
      List.splitBy.loop (fun x y => P x == P y) (as ++ [y]) a g gs = ((g.reverse ++ a :: as) :: gs).reverse ++ [[y]]
  | [], a, g, gs, h => by
    have hx : (P a == P y) = false := by simpa [h a (List.mem_cons_self _ _)] using Ne.symm hy
    simp [List.splitBy.loop, hx]
  | x :: as, a, g, gs, h => by
    have hx : (P a == P x) = true := by simp [h a (List.mem_cons_self _ _), h x (by simp)]
    rw [List.cons_append, List.splitBy.loop, hx]
    dsimp only
    rw [splitBy_loop_const_append P b hy as x (a :: g) gs fun z hz => h z (List.mem_cons_of_mem _ hz)]
    simp

theorem splitBy_const (P : α → Bool) (b : Bool) {l : List α} (hl : l ≠ []) (h : ∀ x ∈ l, P x = b) :
    l.splitBy (fun x y => P x == P y) = [l] := by
  obtain ⟨a, as, rfl⟩ := List.exists_cons_of_ne_nil hl
  simpa using splitBy_loop_const P b as a [] [] h

theorem splitBy_const_append (P : α → Bool) (b : Bool) {l : List α} (hl : l ≠ []) (h : ∀ x ∈ l, P x = b)
    {y : α} (hy : P y ≠ b) : (l ++ [y]).splitBy (fun x y => P x == P y) = [l, [y]] := by
  obtain ⟨a, as, rfl⟩ := List.exists_cons_of_ne_nil hl
  simpa using splitBy_loop_const_append P b hy as a [] [] h

end Format

section Uniform

variable (cfg : Config)

/-- **A block of lines with the same number of cells is formatted column by column**: every column but the last is
one block, as wide as `blockWidth` says, and every line is written with those widths. -/
theorem format_uniform : ∀ (k fuel : Nat) (widths : List Nat) (L : List (List String)), L ≠ [] →
    (∀ l ∈ L, l.length = widths.length + k + 1) → k ≤ fuel →
      format cfg fuel widths L =
        L.map (writeLine cfg (widths ++ (List.range' widths.length k).map fun j => blockWidth cfg j L))
  | 0, 0, widths, L, _, _, _ => by simp [format]
  | 0, fuel + 1, widths, L, hL, hlen, _ => by
    have hc : ∀ l ∈ L, hasCell widths.length l = false := fun l hl => by simp [hasCell, hlen l hl]
    rw [format, splitBy_const _ false hL hc]
    obtain ⟨a, as, rfl⟩ := List.exists_cons_of_ne_nil hL
    simp [hc a (List.mem_cons_self _ _)]
  | k + 1, fuel + 1, widths, L, hL, hlen, hk => by
    have hc : ∀ l ∈ L, hasCell widths.length l = true := fun l hl => by simp [hasCell, hlen l hl]
    rw [format, splitBy_const _ true hL hc]
    obtain ⟨a, as, rfl⟩ := List.exists_cons_of_ne_nil hL
    simp only [List.flatMap_cons, List.flatMap_nil, List.append_nil, List.head?_cons, Option.any_some,
      hc a (List.mem_cons_self _ _), if_true]
    rw [format_uniform k fuel _ _ hL (fun l hl => by simp [hlen l hl]; omega) (by omega)]
    simp [List.range'_succ]

theorem maxCells_uniform {n : Nat} : ∀ {L : List (List String)} (m : Nat), m ≤ n → (∀ l ∈ L, l.length = n) → L ≠ [] →
    L.foldl (fun n line => max n line.length) m = n
  | [], _, _, _, h => absurd rfl h
  | [l], m, hm, hlen, _ => by simp [hlen l (List.mem_singleton_self l), hm]
  | l :: l' :: L, m, hm, hlen, _ => by
    rw [List.foldl_cons, hlen l (List.mem_cons_self _ _), max_eq_right hm]
    exact maxCells_uniform n le_rfl (fun x hx => hlen x (List.mem_cons_of_mem _ hx)) (List.cons_ne_nil _ _)

theorem intercalate_newline_append_empty : ∀ xs : List String,
    "\n".intercalate (xs ++ [""]) = String.join (xs.map (· ++ "\n"))
  | [] => rfl
  | x :: xs => by
    obtain ⟨y, l, hyl⟩ : ∃ y l, xs ++ [""] = y :: l := List.exists_cons_of_ne_nil (by simp)
    rw [List.cons_append, hyl, C.intercalate_cons_cons, ← hyl, intercalate_newline_append_empty xs]
    apply String.ext
    simp [String.join_eq]

/-- **Lines with the same number of cells, each ended by a line break, are written column by column**: each with the
widths of the columns but its last, and a line break after it. -/
theorem render_uniform {k : Nat} (hk : 0 < k) {L : List (List String)} (hL : L ≠ [])
    (hlen : ∀ l ∈ L, l.length = k + 1) :
    render cfg (L ++ [[]]) =
      String.join (L.map fun l => writeLine cfg ((List.range k).map fun j => blockWidth cfg j L) l ++ "\n") := by
  have hmax : maxCells (L ++ [[]]) = k + 1 := by
    rw [maxCells, List.foldl_append, maxCells_uniform 0 (Nat.zero_le _) hlen hL]
    simp
  have hc : ∀ l ∈ L, hasCell 0 l = true := fun l hl => by simp [hasCell, hlen l hl, hk]
  obtain ⟨k, rfl⟩ : ∃ k', k = k' + 1 := ⟨k - 1, by omega⟩
  rw [render, hmax, format, List.length_nil, splitBy_const_append _ true hL hc (by simp [hasCell])]
  obtain ⟨a, as, rfl⟩ := List.exists_cons_of_ne_nil hL
  simp only [List.flatMap_cons, List.flatMap_nil, List.append_nil, List.head?_cons, Option.any_some,
    hc a (List.mem_cons_self _ _), if_true, show hasCell 0 [] = false from rfl, Bool.false_eq_true, if_false,
    List.nil_append]
  rw [format_uniform cfg k (k + 1) [blockWidth cfg 0 (a :: as)] (a :: as) hL (fun l hl => by simp [hlen l hl]; omega)
    (by omega)]
  have hw : [blockWidth cfg 0 (a :: as)] ++ (List.range' 1 k).map (fun j => blockWidth cfg j (a :: as)) =
      (List.range (k + 1)).map fun j => blockWidth cfg j (a :: as) := by
    rw [List.range_succ_eq_map, List.range'_eq_map_range]
    simp [Function.comp_def, Nat.add_comm]
  rw [List.length_singleton, hw, show [[]].map (writeLine cfg []) = [""] from rfl, intercalate_newline_append_empty, List.map_map]
  rfl

end Uniform

end Tabwriter
end PsxSym
