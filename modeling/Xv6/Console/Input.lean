/-
The console input of `console.c`: the ring buffer `input`, the line editor state beside it, and one
key of `consoleintr` as the source computes it, branch by branch. The indices are `uint` and only
some uses reduce them modulo `INPUT_BUF`: an access outside `input.buf` is the fault `oob`, and the
`pos under/overflow` panic of `cgaputc` is the fault `panic`. Of the screen only the position of the
hardware cursor is kept. Everything here runs with `cons.lock` held.
-/
import Mathlib.Algebra.Group.Int.Defs
import Mathlib.Logic.Function.Basic

namespace Xv6.Console

open Function

/-! ## Data -/

def INPUT_BUF : Nat := 128

def HISTORY_SIZE : Nat := 128

abbrev Buf := Fin INPUT_BUF → UInt8

/-- What ends the handler early: an access outside `input.buf`, or the panic of `cgaputc`. -/
inductive Fault
  | oob (i : Int)
  | panic
  deriving DecidableEq, Repr

/-- `select_mode` 0, 1 and 2. -/
inductive SelectMode
  | off
  | anchored
  | selected
  deriving DecidableEq, Repr

/-- `input` and the editor's other variables; `pos` is the cursor register of the screen. -/
structure Input where
  buf : Buf := fun _ => 0
  r : UInt32 := 0
  w : UInt32 := 0
  e : UInt32 := 0
  cursor : UInt32 := 0
  startPos : Nat := 0
  pos : Nat := 0
  prevLineLen : UInt32 := 0
  history : Fin HISTORY_SIZE → UInt32 := fun _ => 0
  historyPos : Nat := 0
  selectMode : SelectMode := .off
  selectAnchor : UInt32 := 0
  selectStart : UInt32 := 0
  selectEnd : UInt32 := 0
  clipboard : Buf := fun _ => 0
  clipboardLen : Int := 0
  tabPressCount : Int := 0
  autocompleteActive : Bool := false
  savedBuf : Buf := fun _ => 0
  savedR : UInt32 := 0
  savedW : UInt32 := 0
  savedE : UInt32 := 0
  savedCursor : UInt32 := 0

/-! ## Keys -/

def ctrlA : UInt8 := 1
def ctrlC : UInt8 := 3
def ctrlD : UInt8 := 4
def ctrlH : UInt8 := 8
def tab : UInt8 := 9
def newline : UInt8 := 10
def carriageReturn : UInt8 := 13
def ctrlP : UInt8 := 16
def ctrlS : UInt8 := 19
def ctrlU : UInt8 := 21
def ctrlV : UInt8 := 22
def ctrlZ : UInt8 := 26
def space : UInt8 := 32
def delete : UInt8 := 0x7f
def keyLf : UInt8 := 0xE4
def keyRt : UInt8 := 0xE5

/-! ## Memory -/

def bufAt (b : Buf) (i : Int) : Except Fault UInt8 :=
  if h : 0 ≤ i ∧ i < INPUT_BUF then .ok (b ⟨i.toNat, by omega⟩) else .error (.oob i)

/-- The place of index `i`, as `i % INPUT_BUF` of a `uint`. -/
def ring (i : Nat) : Fin INPUT_BUF := ⟨i % INPUT_BUF, Nat.mod_lt _ (by decide)⟩

/-- `buf[i] = c` without a modulo. -/
def setAt (b : Buf) (i : Nat) (c : UInt8) : Except Fault Buf :=
  if h : i < INPUT_BUF then .ok (update b ⟨i, h⟩ c) else .error (.oob i)

/-- `memmove(&a[dst], &b[src], len)` between arrays of `INPUT_BUF` bytes; of length 0 it accesses
nothing. -/
def memmove (a b : Buf) (dst src len : Nat) : Except Fault Buf :=
  if len = 0 then .ok a
  else if h : dst + len ≤ INPUT_BUF ∧ src + len ≤ INPUT_BUF then
    .ok fun i => if hi : dst ≤ i.val ∧ i.val < dst + len then b ⟨src + (i.val - dst), by omega⟩ else a i
  else .error (.oob (max dst src + len - 1 : Nat))

/-! ## Screen -/

/-- What `cgaputc` tells apart in its argument: `'\n'`, `BACKSPACE`, or a cell to fill. -/
inductive Glyph
  | newline
  | backspace
  | cell
  deriving DecidableEq, Repr

/-- The argument `c`, or `c | 0x7000` in a selection. -/
def glyph (c : UInt8) (selected : Bool) : Glyph := if c = newline ∧ selected = false then .newline else .cell

/-- The move of `cgaputc`, before it checks the position and scrolls. -/
def cgaMove (pos : Nat) : Glyph → Nat
  | .newline => pos + (80 - pos % 80)
  | .backspace => pos - 1
  | .cell => pos + 1

/-- `cgaputc`: the cursor position after it. -/
def cgaputc (pos : Nat) (g : Glyph) : Except Fault Nat :=
  if cgaMove pos g > 25 * 80 then .error .panic
  else if cgaMove pos g / 80 ≥ 24 then .ok (cgaMove pos g - 80)
  else .ok (cgaMove pos g)

/-- The same character again and again. -/
def putMany (g : Glyph) : Nat → Nat → Except Fault Nat
  | 0, pos => .ok pos
  | n + 1, pos => do
    let pos ← cgaputc pos g
    putMany g n pos

/-- `set_cursor_pos`: the register holds 16 bits. -/
def setCursorPos (s : Input) (pos : Int) : Input := { s with pos := (pos % 65536).toNat }

/-- The loop of `redraw_line`, with `n` rounds to go: `i` is an `int`, so its remainder is negative
once the `uint` it came from has passed 2^31. -/
def redrawCells (s : Input) : Nat → UInt32 → Nat → Except Fault Nat
  | 0, _, pos => .ok pos
  | n + 1, i, pos => do
    let c ← bufAt s.buf (i.toInt32.toInt.tmod INPUT_BUF)
    let pos ← cgaputc pos (glyph c (s.selectMode = .selected ∧ s.selectStart ≤ i ∧ i < s.selectEnd))
    redrawCells s n (i + 1) pos

/-- Where `redraw_line` leaves the cursor after the line and the blanks over the rest of a longer one
before it. -/
def redrawPos (s : Input) : Except Fault Nat := do
  let pos ← redrawCells s (s.e.toNat - s.w.toNat) s.w (setCursorPos s s.startPos).pos
  let len := s.e - s.w
  if len < s.prevLineLen then putMany .cell (s.prevLineLen - len).toNat pos else .ok pos

def redrawLine (s : Input) : Except Fault Input := do
  let pos ← redrawPos s
  .ok (setCursorPos { s with pos := pos, prevLineLen := s.e - s.w } (s.startPos + (s.cursor - s.w).toNat))

/-! ## History -/

def historyAdjustAfterInsert (s : Input) (insPos : UInt32) : Input :=
  { s with history := fun i => if i.val < s.historyPos ∧ s.history i ≥ insPos then s.history i + 1 else s.history i }

def historyAdjustAfterDelete (s : Input) (delPos : UInt32) : Input :=
  { s with history := fun i => if i.val < s.historyPos ∧ s.history i > delPos then s.history i - 1 else s.history i }

/-- `insert_history[history_pos++].pos = pos`, while there is room. -/
def historyPush (s : Input) (pos : UInt32) : Input :=
  if h : s.historyPos < HISTORY_SIZE then
    { s with history := update s.history ⟨s.historyPos, h⟩ pos, historyPos := s.historyPos + 1 }
  else s

/-! ## Word scans -/

/-- `while(i < hi && p(i)) i++`, with fuel. -/
def scanUp (p : Nat → Bool) (hi : Nat) : Nat → Nat → Nat
  | 0, i => i
  | n + 1, i => if i < hi ∧ p i = true then scanUp p hi n (i + 1) else i

/-- `while(i > lo && p(i - 1)) i--`. -/
def scanDown (p : Nat → Bool) (lo : Nat) : Nat → Nat
  | 0 => 0
  | i + 1 => if lo < i + 1 ∧ p i = true then scanDown p lo i else i + 1

/-- The position `Ctrl-D` computes in a text of end `hi` whose spaces are `sp`. -/
def nextWordPos (sp : Nat → Bool) (hi i : Nat) : Nat :=
  let i := scanUp sp hi (hi - i) i
  let i := scanUp (fun j => !sp j) hi (hi - i) i
  scanUp sp hi (hi - i) i

/-- The position `Ctrl-A` computes in a text that starts at `lo`. -/
def prevWordPos (sp : Nat → Bool) (lo i : Nat) : Nat :=
  let i := if (i = lo ∨ sp (i - 1) = true) ∧ lo < i then scanDown sp lo (i - 1) else i
  scanDown (fun j => !sp j) lo i

/-! ## One key -/

/-- What a key leaves: the state, and whether it called `wakeup(&input.r)` or asked for `procdump`. -/
structure Outcome where
  s : Input
  wake : Bool := false
  procdump : Bool := false

/-- The space test on the ring. -/
def spaceAt (b : Buf) (i : Nat) : Bool := b (ring i) = space

/-- The rest of the line moves over a selection of `len` that `replacementLen` characters replace. -/
def closeGap (s : Input) (len replacementLen : UInt32) : Except Fault Buf :=
  if len ≠ replacementLen then
    memmove s.buf s.buf (s.selectStart + replacementLen).toNat s.selectEnd.toNat (s.e - s.selectEnd).toNat
  else .ok s.buf

/-- The replacement is written and recorded, or the deletion is. -/
def replaceSelection (s : Input) (len replacementLen : UInt32) (c : UInt8) : Except Fault Input :=
  if replacementLen > 0 then do
    let buf ← setAt s.buf s.selectStart.toNat c
    .ok (historyPush (historyAdjustAfterInsert { s with buf := buf } s.selectStart) s.selectStart)
  else .ok ((List.range len.toNat).foldl (fun s _ => historyAdjustAfterDelete s s.selectStart) s)

/-- A key while a selection is active (`select_mode == 2`). -/
def keySelected (s : Input) (c : UInt8) : Except Fault Input :=
  if c = keyLf ∨ c = keyRt ∨ c = ctrlA ∨ c = ctrlD ∨ c = ctrlS ∨ c = ctrlZ ∨ c = ctrlV then
    redrawLine { s with selectMode := .off }
  else if c = ctrlC then do
    let len := (s.selectEnd - s.selectStart).toInt32.toInt
    let len : Int := if len > INPUT_BUF then INPUT_BUF else len
    -- a negative length is passed to memmove as a huge unsigned one
    let clipboard ← memmove s.clipboard s.buf 0 s.selectStart.toNat (len % 2 ^ 32).toNat
    .ok { s with clipboard := clipboard, clipboardLen := len }
  else do
    let start := s.selectStart
    let len := s.selectEnd - start
    let s := { s with selectMode := .off }
    let replacementLen : UInt32 := if c = ctrlH ∨ c = delete then 0 else 1
    let buf ← closeGap s len replacementLen
    let s := { s with buf := buf, e := s.e - len + replacementLen }
    let s ← replaceSelection s len replacementLen c
    redrawLine { s with cursor := start + replacementLen }

/-- `Ctrl-U`. -/
def killLine (s : Input) : Except Fault Input := do
  let pos ← putMany .backspace (s.e - s.w).toNat s.pos
  .ok { s with pos := pos, e := s.w, cursor := s.w }

def backspace (s : Input) : Except Fault Input :=
  if s.cursor > s.w then do
    let s := historyAdjustAfterDelete s (s.cursor - 1)
    let buf ← memmove s.buf s.buf (s.cursor - 1).toNat s.cursor.toNat (s.e - s.cursor).toNat
    redrawLine { s with buf := buf, e := s.e - 1, cursor := s.cursor - 1 }
  else .ok s

/-- `Ctrl-Z`. -/
def undo (s : Input) : Except Fault Input :=
  if h : 0 < s.historyPos ∧ s.historyPos ≤ HISTORY_SIZE then do
    let p := s.history ⟨s.historyPos - 1, by omega⟩
    let s := { s with historyPos := s.historyPos - 1 }
    if p < s.e then do
      let buf ← memmove s.buf s.buf p.toNat (p + 1).toNat (s.e - (p + 1)).toNat
      let s := historyAdjustAfterDelete { s with buf := buf, e := s.e - 1 } p
      redrawLine { s with cursor := p }
    else .ok s
  else .ok s

/-- `Ctrl-S`. -/
def selectKey (s : Input) : Except Fault Input :=
  if s.selectMode = .off then .ok { s with selectAnchor := s.cursor, selectMode := .anchored }
  else
    let s := if s.cursor < s.selectAnchor then
        { s with selectMode := .selected, selectStart := s.cursor, selectEnd := s.selectAnchor + 1 }
      else { s with selectMode := .selected, selectStart := s.selectAnchor, selectEnd := s.cursor + 1 }
    redrawLine (if s.selectStart ≥ s.selectEnd - 1 then { s with selectMode := .off } else s)

/-- `Ctrl-V`. -/
def paste (s : Input) : Except Fault Input :=
  if s.clipboardLen > 0 then
    let len := UInt32.ofInt s.clipboardLen
    if s.e + len < 128 then do
      let buf ← memmove s.buf s.buf (s.cursor + len).toNat s.cursor.toNat (s.e - s.cursor).toNat
      let buf ← memmove buf s.clipboard s.cursor.toNat 0 len.toNat
      redrawLine { s with buf := buf, e := s.e + len, cursor := s.cursor + len }
    else .ok s
  else .ok s

/-- `KEY_LF`. -/
def cursorLeft (s : Input) : Input :=
  if s.cursor > s.w then setCursorPos { s with cursor := s.cursor - 1 } (s.pos - 1) else s

/-- `KEY_RT`. -/
def cursorRight (s : Input) : Input :=
  if s.cursor < s.e then setCursorPos { s with cursor := s.cursor + 1 } (s.pos + 1) else s

/-- `Ctrl-D`. -/
def wordRight (s : Input) : Input :=
  let p := nextWordPos (spaceAt s.buf) s.e.toNat s.cursor.toNat
  if p < s.e.toNat then
    setCursorPos { s with cursor := UInt32.ofNat p } (s.startPos + (UInt32.ofNat p - s.w).toNat)
  else s

/-- `Ctrl-A`. -/
def wordLeft (s : Input) : Input :=
  let p := prevWordPos (spaceAt s.buf) s.w.toNat s.cursor.toNat
  setCursorPos { s with cursor := UInt32.ofNat p } (s.startPos + (UInt32.ofNat p - s.w).toNat)

def enter (s : Input) : Except Fault Input := do
  let buf := update s.buf (ring s.e.toNat) newline
  let pos ← cgaputc s.pos .newline
  .ok { s with buf := buf, pos := pos, e := s.e + 1, w := s.e + 1, cursor := s.e + 1, startPos := 0,
               selectMode := .off, historyPos := 0 }

/-- Tab, when no completion is pending: the line is saved and committed up to a tab character. -/
def tabKey (s : Input) : Input :=
  { s with autocompleteActive := true, tabPressCount := s.tabPressCount + 1, savedBuf := s.buf, savedR := s.r,
           savedW := s.w, savedE := s.e, savedCursor := s.cursor,
           buf := update s.buf (ring s.e.toNat) tab, e := s.e + 1, w := s.e + 1 }

/-- The first character of a line fixes where the line starts on the screen. -/
def markStart (s : Input) : Input := if s.e = s.w then { s with startPos := s.pos } else s

/-- Room for a character in the middle of the line. -/
def openGap (s : Input) : Except Fault Buf :=
  if s.cursor < s.e then memmove s.buf s.buf (s.cursor + 1).toNat s.cursor.toNat (s.e - s.cursor).toNat
  else .ok s.buf

/-- The insertion at the cursor is entered into the history. -/
def record (s : Input) : Input := historyPush (historyAdjustAfterInsert s s.cursor) s.cursor

/-- The character goes in at the cursor: what the default case has in common with
`console_print_and_redraw`. -/
def insertChar (s : Input) (c : UInt8) : Except Fault Input := do
  let s := record s
  let buf ← openGap s
  .ok { s with buf := update buf (ring s.cursor.toNat) c, e := s.e + 1, cursor := s.cursor + 1 }

/-- Any other character. -/
def insert (s : Input) (c : UInt8) : Except Fault Input :=
  if s.e - s.r < 128 ∧ c ≠ carriageReturn then do
    let s ← insertChar (markStart s) c
    redrawLine s
  else .ok s

/-- One round of the loop of `consoleintr`. -/
def key (s : Input) (c : UInt8) : Except Fault Outcome :=
  -- every case but Enter, Tab and the default resets the completion counter
  let t := { s with tabPressCount := 0 }
  if c = 0 then .ok { s := s }
  else if s.selectMode = .selected then do
    let s ← keySelected s c
    .ok { s := s }
  else if c = ctrlP then .ok { s := t, procdump := true }
  else if c = ctrlU then do
    let s ← killLine t
    .ok { s := s }
  else if c = ctrlH ∨ c = delete then do
    let s ← backspace t
    .ok { s := s }
  else if c = ctrlZ then do
    let s ← undo t
    .ok { s := s }
  else if c = ctrlS then do
    let s ← selectKey t
    .ok { s := s }
  else if c = ctrlV then do
    let s ← paste t
    .ok { s := s }
  else if c = keyLf then .ok { s := cursorLeft t }
  else if c = keyRt then .ok { s := cursorRight t }
  else if c = ctrlD then .ok { s := wordRight t }
  else if c = ctrlA then .ok { s := wordLeft t }
  else if c = newline then do
    let s ← enter s
    .ok { s := s, wake := true }
  else if c = tab then
    if s.autocompleteActive = false then .ok { s := tabKey s, wake := true } else .ok { s := s }
  else do
    let s ← insert s c
    .ok { s := s }

/-! ## Reading -/

/-- How a section of `consoleread` ends. -/
inductive ReadEnd
  | returns
  | sleeps
  deriving DecidableEq, Repr

/-- One section of `consoleread` under `cons.lock`: `n` bytes still wanted of `target`, `out` those
already delivered. -/
def consoleread (target : Nat) : Nat → Input → List UInt8 → Input × List UInt8 × Nat × ReadEnd
  | 0, s, out => (s, out, 0, .returns)
  | n + 1, s, out =>
    if s.r = s.w then (s, out, n + 1, .sleeps)
    else
      let c := s.buf (ring s.r.toNat)
      if c = ctrlD then
        -- a Ctrl-D after other bytes is kept for the next call
        (if n + 1 < target then s else { s with r := s.r + 1 }, out, n + 1, .returns)
      else
        let s := { s with r := s.r + 1 }
        if c = newline then (s, out ++ [c], n, .returns) else consoleread target n s (out ++ [c])

end Xv6.Console
