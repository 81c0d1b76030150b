import Sypl.Strings

/-!
# The tab writer

`text/tabwriter` as `Text` configures it, `tabwriter.NewWriter(buf, 0, 0, 1, ' ', 0)`: minimal
cell width 0, padding 1, padding with spaces, and no flags. The package is not in the repository;
the model follows its algorithm for that configuration.

`Write` cuts the text into cells, each ended by a tab or a vertical tab, and into lines, each
ended by a newline or a form feed. A text between two `Escape` bytes (`0xff`) belongs to the
current cell whatever bytes it holds, and the two bytes do not count in the cell's width. `Flush`
formats the lines: the cells of consecutive lines that share a column form a block, each cell of
a block is padded with spaces to the widest one's width plus the padding, and the last cell of a
line is in no column. A form feed, and a newline that ends a line of one cell, flush the lines
before them.

* A line of cells with none of these bytes is written with one space after each cell ended by a
  tab, whatever the cells' widths (`write_flush_line`).
-/

namespace Sypl

namespace Tabwriter

/-- `tabwriter.Escape`. -/
def escape : UInt8 := 0xff

/-- The bytes `Write` acts on: tab, newline, vertical tab, form feed and `Escape`. -/
def special (b : UInt8) : Bool := b = 9 || b = 10 || b = 11 || b = 12 || b = escape

/-- A cell: its text (a Go cell keeps its length, `size`, into the buffer) and its width in
runes. -/
structure Cell where
  text : GoString
  width : Nat
  deriving DecidableEq, Repr

/-- The state of a `tabwriter.Writer`, with what it has written so far. -/
structure Writer where
  /-- What the writer has written to the underlying `io.Writer`. -/
  output : GoString
  /-- The lines ended since the last flush: `lines` but its last. -/
  lines : List (List Cell)
  /-- The cells ended on the current line, the last of `lines`. -/
  line : List Cell
  /-- The text of the current cell. -/
  cell : GoString
  /-- The width of the current cell counted so far. -/
  width : Nat
  /-- The text of the current cell not counted yet, `buf[pos:]`. -/
  pending : GoString
  /-- Inside an escaped text: `endChar != 0`. -/
  escaped : Bool
  deriving DecidableEq, Repr

namespace Writer

/-- `NewWriter` on an empty buffer: `Init` resets the writer to one empty line. -/
def new : Writer := ⟨[], [], [], [], 0, [], false⟩

/-- `append(text)`. -/
def append (b : Writer) (text : GoString) : Writer :=
  { b with cell := b.cell ++ text, pending := b.pending ++ text }

/-- `updateWidth()`: count the runes appended since the last count. -/
def updateWidth (b : Writer) : Writer :=
  { b with width := b.width + GoString.runeCount b.pending, pending := [] }

/-- `terminateCell`: end the current cell on the current line. -/
def terminateCell (b : Writer) : Writer :=
  { b with line := b.line ++ [⟨b.cell, b.width⟩], cell := [], width := 0 }

/-- `endEscape` for `Escape`: count the escaped text, less its two `Escape` bytes. Each of them
is a rune of its own, so the width only drops below them in a cell that `Flush` ends inside an
escape, the last of its line, whose width is never read. -/
def endEscape (b : Writer) : Writer :=
  { b.updateWidth with width := b.updateWidth.width - 2, escaped := false }

end Writer

/-- `writeLines` for one line: a cell in one of the columns of `widths` is followed by spaces up
to the column's width, and the cells past them are written as they are. -/
def writeLine : List Nat → List Cell → GoString
  | w :: ws, c :: cs => c.text ++ List.replicate (w - c.width) 32 ++ writeLine ws cs
  | [], c :: cs => c.text ++ writeLine [] cs
  | _, [] => []

/-- A line has a cell in column `column` when it has a cell after it: the last cell of a line is
in no column. -/
def inColumn (column : Nat) (line : List Cell) : Bool := column + 1 < line.length

/-- The width of a block of lines in column `column`: `minwidth` (0), or the widest cell's width
plus the padding (1). -/
def blockWidth (column : Nat) (block : List (List Cell)) : Nat :=
  block.foldl (fun width line => max width ((line.getD column ⟨[], 0⟩).width + 1)) 0

/-- `format`, with `widths` the widths of the columns on the left: lines with no cell in the
next column are written with those widths, and each run of consecutive lines with one is
formatted with the width of its block pushed. Each level adds a column, so the number of cells
of the longest line bounds the depth, `fuel`. -/
def format : Nat → List Nat → List (List Cell) → List GoString
  | 0, widths, lines => lines.map (writeLine widths)
  | fuel + 1, widths, lines =>
    (lines.splitBy fun a b => inColumn widths.length a == inColumn widths.length b).flatMap
      fun run =>
        if run.any (inColumn widths.length) then
          format fuel (widths ++ [blockWidth widths.length run]) run
        else run.map (writeLine widths)

/-- The number of cells of the longest line. -/
def maxCells (lines : List (List Cell)) : Nat := lines.foldr (fun line n => max line.length n) 0

namespace Writer

/-- `Flush` (`flushNoDefers`): end the current cell if it has text, closing an open escape; write
the formatted lines, a newline after each but the last; and reset. -/
def flush (b : Writer) : Writer :=
  let b := if b.cell = [] then b else (if b.escaped then b.endEscape else b).terminateCell
  let lines := b.lines ++ [b.line]
  { new with output := b.output ++ GoString.join (format (maxCells lines) [] lines) "\n" }

/-- `Write` of one byte. A newline or a form feed ends the line; a form feed, or a newline after
a line of one cell, flushes. -/
def writeByte (b : Writer) (ch : UInt8) : Writer :=
  if b.escaped then
    if ch = escape then (b.append [ch]).endEscape else b.append [ch]
  else if ch = 9 ∨ ch = 11 ∨ ch = 10 ∨ ch = 12 then
    let b := b.updateWidth.terminateCell
    if ch = 10 ∨ ch = 12 then
      let b' := { b with lines := b.lines ++ [b.line], line := [] }
      if ch = 12 ∨ b.line.length = 1 then b'.flush else b'
    else b
  else if ch = escape then { b.updateWidth.append [ch] with escaped := true }
  else b.append [ch]

/-- `Write(buf)`. -/
def write (b : Writer) (buf : GoString) : Writer := buf.foldl writeByte b

theorem write_append (b : Writer) (s t : GoString) : b.write (s ++ t) = (b.write s).write t :=
  List.foldl_append _ _ _ _

/-- Outside an escape, text with no special byte goes to the current cell. -/
theorem write_plain {t : GoString} (ht : ∀ x ∈ t, special x = false) :
    ∀ {b : Writer}, b.escaped = false → b.write t = b.append t := by
  induction t with
  | nil => intro b _; simp [write, append]
  | cons x t ih =>
    intro b hb
    have hx := ht x (List.mem_cons_self x t)
    simp only [special, escape, Bool.or_eq_false_iff, decide_eq_false_iff_not] at hx
    have hstep : writeByte b x = b.append [x] := by
      simp [writeByte, hb, hx.1.1.1.1, hx.1.1.1.2, hx.1.1.2, hx.1.2, hx.2, escape]
    rw [write, List.foldl_cons, ← write, hstep,
      ih (fun y hy => ht y (List.mem_cons_of_mem x hy)) (show (b.append [x]).escaped = false from hb)]
    simp [append]

/-- Cells with no special byte, each ended by a tab, are added to the current line with their
widths. -/
theorem write_cells {cells : List GoString} (hcells : ∀ c ∈ cells, ∀ x ∈ c, special x = false) :
    ∀ {b : Writer}, b.escaped = false → b.cell = [] → b.pending = [] → b.width = 0 →
      b.write (cells.flatMap (· ++ [9])) =
        { b with line := b.line ++ cells.map fun c => ⟨c, GoString.runeCount c⟩ } := by
  induction cells with
  | nil => intro b _ _ _ _; simp [write]
  | cons c cs ih =>
    intro b hb hc hp hw
    rw [List.flatMap_cons, write_append, write_append,
      write_plain (hcells c (List.mem_cons_self c cs)) hb]
    have htab : (b.append c).write [9] =
        { b with line := b.line ++ [⟨c, GoString.runeCount c⟩] } := by
      simp [write, writeByte, hb, append, updateWidth, terminateCell, hc, hp, hw]
    rw [htab, ih (fun c' hc' => hcells c' (List.mem_cons_of_mem c hc'))
      (b := { b with line := b.line ++ [⟨c, GoString.runeCount c⟩] }) hb hc hp hw]
    simp

end Writer

/-! ## One line -/

/-- A line whose cells but the last are padded to their width plus one: one space after each. -/
theorem writeLine_dropLast : ∀ line : List Cell,
    writeLine (line.dropLast.map (·.width + 1)) line = GoString.join (line.map (·.text)) " "
  | [] => rfl
  | [c] => by simp [writeLine]
  | c :: d :: rest => by
    rw [List.dropLast_cons₂, List.map_cons, writeLine, writeLine_dropLast (d :: rest)]
    simp only [List.map_cons, GoString.join_cons_cons, Nat.add_sub_cancel_left]
    rfl

/-- `format` on a single line pushes the width of each of its columns in turn, each the width of
its cell plus the padding, and writes the line with them. -/
theorem format_line (line : List Cell) (fuel : Nat) : ∀ k, k < line.length →
    line.length ≤ k + fuel + 1 → format fuel ((line.take k).map (·.width + 1)) [line] =
      [writeLine (line.dropLast.map (·.width + 1)) line] := by
  have hlast : ∀ k, k < line.length → line.length ≤ k + 1 → line.take k = line.dropLast :=
    fun k hk h => by rw [List.dropLast_eq_take]; congr 1; omega
  induction fuel with
  | zero => intro k hk hle; rw [hlast k hk hle]; rfl
  | succ fuel ih =>
    intro k hk hle
    have hlen : ((line.take k).map (·.width + 1)).length = k := by simp; omega
    have hsplit : [line].splitBy (fun a b => inColumn k a == inColumn k b) = [[line]] := rfl
    rw [format, hlen, hsplit]
    simp only [List.flatMap_cons, List.flatMap_nil, List.append_nil, List.any_cons, List.any_nil,
      Bool.or_false, List.map_cons, List.map_nil]
    split
    · rename_i hcol
      have hpush : (line.take k).map (·.width + 1) ++ [blockWidth k [line]] =
          (line.take (k + 1)).map (·.width + 1) := by
        rw [List.take_succ, List.getElem?_eq_getElem hk, List.map_append]
        simp [blockWidth, List.getD_eq_getElem?_getD, List.getElem?_eq_getElem hk]
      rw [hpush, ih (k + 1) (by simpa [inColumn] using hcol) (by omega)]
    · rename_i hcol
      rw [hlast k hk (by simpa [inColumn] using hcol)]

/-- A single line, formatted and joined: its cells with one space after each but the last. -/
theorem join_format_line (line : List Cell) :
    GoString.join (format (maxCells [line]) [] [line]) "\n" = GoString.join (line.map (·.text)) " " := by
  have hmax : maxCells [line] = line.length := by simp [maxCells]
  by_cases hne : line = []
  · subst hne
    rfl
  rw [hmax, show ([] : List Nat) = (line.take 0).map (·.width + 1) from rfl,
    format_line line line.length 0 (List.length_pos.2 hne) (by omega),
    writeLine_dropLast, GoString.join_singleton]

namespace Writer

theorem flush_output {b : Writer} (hb : b.cell = []) :
    b.flush.output = b.output ++ GoString.join (format (maxCells (b.lines ++ [b.line])) []
      (b.lines ++ [b.line])) "\n" := by
  simp [flush, hb]

/-- A line of cells with no special byte, each ended by a tab, and a last text with no special
byte, written to a new writer and flushed: the cells and the last text joined by single spaces,
whatever their widths. -/
theorem write_flush_line {cells : List GoString} {last : GoString}
    (hcells : ∀ c ∈ cells, ∀ x ∈ c, special x = false) (hlast : ∀ x ∈ last, special x = false) :
    (new.write (cells.flatMap (· ++ [9]) ++ last)).flush.output =
      GoString.join (cells ++ if last = [] then [] else [last]) " " := by
  rw [write_append, write_cells hcells rfl rfl rfl rfl, write_plain hlast rfl]
  by_cases h : last = []
  · subst h
    rw [flush_output rfl]
    simp [new, append, join_format_line, List.map_map, Function.comp_def]
  · simp [flush, append, terminateCell, new, h, join_format_line, List.map_map, Function.comp_def]

end Writer

end Tabwriter

end Sypl
