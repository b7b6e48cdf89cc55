/-
The screen. `cgaputc` panics when the hardware cursor leaves the 25 rows, and it scrolls when it comes
to the last one; `redraw_line` sets the cursor from `input.start_pos`, which no scroll adjusts. A call
that does not panic writes only cells of the screen. The panic does not happen as long as the line
drawn from `start_pos` ends before the last cell, and the right arrow does not leave the screen.
-/
import Xv6.Console.Redraw

namespace Xv6.Console

open Base

/-! ## One character -/

/-- The cells `cgaputc` writes: the character, the rows it scrolls and clears, and the cell under the
cursor. -/
def cgaCells (pos : Nat) (g : Glyph) : List Nat :=
  (if g = .cell then [pos] else []) ++
  if cgaMove pos g > 25 * 80 then []
  else if cgaMove pos g / 80 ≥ 24 then
    List.range (23 * 80) ++ List.range' (cgaMove pos g - 80) (24 * 80 - (cgaMove pos g - 80)) ++ [cgaMove pos g - 80]
  else [cgaMove pos g]

variable {n p : Nat} {g : Glyph} {s : Input} {pos : Nat} {c : UInt8}

theorem cgaCells_lt (h : cgaputc pos g = .ok p) : ∀ i ∈ cgaCells pos g, i < 25 * 80 := by
  intro i hi
  unfold cgaputc at h
  obtain ⟨-, h⟩ | ⟨hle, h⟩ := ite_eq_iff.1 h
  · cases h
  unfold cgaCells at hi
  rw [if_neg hle] at hi
  rcases List.mem_append.1 hi with hi | hi
  · split at hi
    · rename_i hg
      rw [hg, cgaMove] at hle
      rw [List.mem_singleton.1 hi]
      omega
    · cases hi
  · split at hi
    · rw [List.mem_append, List.mem_append, List.mem_range, List.mem_range'_1, List.mem_singleton] at hi
      omega
    · rw [List.mem_singleton] at hi; omega

/-! ## Computations that do not panic -/

/-- The computation does not panic, and what it returns satisfies `P`. -/
def NoPanic {α : Type} (x : Except Fault α) (P : α → Prop) : Prop := x ≠ .error .panic ∧ ∀ a, x = .ok a → P a

namespace NoPanic

variable {α β : Type} {P : α → Prop} {Q : β → Prop}

theorem ok {a : α} (h : P a) : NoPanic (.ok a) P := ⟨nofun, fun _ e => Except.ok.inj e ▸ h⟩

theorem bind {x : Except Fault α} {f : α → Except Fault β} (hx : NoPanic x P) (hf : ∀ a, P a → NoPanic (f a) Q) :
    NoPanic (x >>= f) Q := by
  rcases x with e | a
  · refine ⟨?_, nofun⟩
    rintro h
    exact hx.1 (by cases h; rfl)
  · exact hf a (hx.2 a rfl)

theorem mono {x : Except Fault α} {P' : α → Prop} (hx : NoPanic x P) (h : ∀ a, P a → P' a) : NoPanic x P' :=
  ⟨hx.1, fun a e => h a (hx.2 a e)⟩

end NoPanic

theorem noPanic_bufAt (b : Buf) (i : Int) : NoPanic (bufAt b i) fun _ => True := by
  refine ⟨?_, fun _ _ => trivial⟩
  unfold bufAt
  split <;> nofun

theorem noPanic_memmove (a b : Buf) (dst src len : Nat) : NoPanic (memmove a b dst src len) fun _ => True := by
  refine ⟨?_, fun _ _ => trivial⟩
  unfold memmove
  split
  · nofun
  · split <;> nofun

/-- From a cell of the screen: the cursor ends on it, and not far above where it was. -/
theorem noPanic_cgaputc (h : pos < 25 * 80) (hg : g ≠ .backspace) :
    NoPanic (cgaputc pos g) fun p => p < 25 * 80 ∧ min pos (23 * 80) ≤ p := by
  have hmove : cgaMove pos g ≤ 25 * 80 ∧ pos < cgaMove pos g := by
    cases g with
    | newline | cell => simp only [cgaMove]; omega
    | backspace => exact absurd rfl hg
  unfold cgaputc
  rw [if_neg (by omega)]
  split
  · exact .ok ⟨by omega, by omega⟩
  · exact .ok ⟨by omega, by omega⟩

theorem glyph_ne_backspace (c : UInt8) (b : Bool) : glyph c b ≠ .backspace := by
  unfold glyph
  split <;> nofun

theorem noPanic_putBytes : ∀ (l : List UInt8) {pos : Nat}, pos < 25 * 80 →
    NoPanic (putBytes l pos) fun p => p < 25 * 80 ∧ min pos (23 * 80) ≤ p
  | [], _, h => .ok ⟨h, min_le_left _ _⟩
  | c :: l, _, h => by
    refine (noPanic_cgaputc h (glyph_ne_backspace c false)).bind fun p hp => ?_
    refine (noPanic_putBytes l hp.1).mono fun q hq => ⟨hq.1, ?_⟩
    have h1 := hp.2
    have h2 := hq.2
    omega

theorem noPanic_putMany (hg : g ≠ .backspace) : ∀ (n : Nat) {pos : Nat}, pos < 25 * 80 →
    NoPanic (putMany g n pos) fun _ => True
  | 0, _, _ => .ok trivial
  | n + 1, _, h => (noPanic_cgaputc h hg).bind fun _ hp => noPanic_putMany hg n hp.1

theorem noPanic_redrawCells (s : Input) : ∀ (n : Nat) (i : UInt32) {pos : Nat}, pos < 25 * 80 →
    NoPanic (redrawCells s n i pos) fun p => p < 25 * 80
  | 0, _, _, h => .ok h
  | n + 1, i, _, h => (noPanic_bufAt _ _).bind fun c _ =>
      (noPanic_cgaputc h (glyph_ne_backspace c _)).bind fun _ hp => noPanic_redrawCells s n (i + 1) hp.1

/-! ## The line on the screen -/

/-- The line ends before the last cell of the screen. -/
structure Drawn (s : Input) : Prop where
  wc : s.w.toNat ≤ s.cursor.toNat
  ce : s.cursor.toNat ≤ s.e.toNat
  small : s.e.toNat ≤ 2 ^ 31
  mode : s.selectMode = .off
  len : s.e.toNat - s.w.toNat ≤ INPUT_BUF
  line : s.startPos + (s.e.toNat - s.w.toNat) < 25 * 80

/-- And the cursor is on the screen, with room for the part of the line before it. -/
structure OnScreen (s : Input) : Prop extends Drawn s where
  pos : s.pos < 25 * 80
  left : s.cursor.toNat - s.w.toNat ≤ s.pos

theorem setCursorPos_pos {p : Int} (h : p = n) (hn : n < 65536) : (setCursorPos s p).pos = n := by
  unfold setCursorPos; simp only; omega

/-- A state that differs only in where the cursor is, on the screen and in the line. -/
theorem Drawn.move (h : Drawn s) {q : UInt32} (hw : s.w.toNat ≤ q.toNat) (he : q.toNat ≤ s.e.toNat) (hp : p < 25 * 80)
    (hl : q.toNat - s.w.toNat ≤ p) : OnScreen { s with cursor := q, pos := p } :=
  ⟨⟨hw, he, h.small, h.mode, h.len, h.line⟩, hp, hl⟩

/-- `redraw_line` from a cell of the screen: the cursor is set to where the place in the line is drawn. -/
theorem noPanic_redrawLine (hwc : s.w.toNat ≤ s.cursor.toNat) (hstart : s.startPos < 25 * 80)
    (hn : n = s.startPos + (s.cursor.toNat - s.w.toNat)) (hlt : n < 65536) :
    NoPanic (redrawLine s) fun s' => ∃ l, s' = { s with pos := n, prevLineLen := l } := by
  have hpos : (setCursorPos s s.startPos).pos < 25 * 80 := by
    rw [setCursorPos_pos rfl (by omega)]; exact hstart
  have hdraw : NoPanic (redrawPos s) fun _ => True := by
    refine (noPanic_redrawCells s _ _ hpos).bind fun p hp => ?_
    simp only
    split
    · exact noPanic_putMany (g := .cell) nofun _ hp
    · exact .ok trivial
  refine hdraw.bind fun p _ => .ok ⟨s.e - s.w, ?_⟩
  have hset := setCursorPos_pos (s := { s with pos := p, prevLineLen := s.e - s.w })
    (p := s.startPos + (s.cursor - s.w).toNat) (n := n) (by rw [toNat_sub hwc]; omega) hlt
  rw [← hset]
  rfl

theorem redrawLine_onScreen (h : Drawn s) : NoPanic (redrawLine s) OnScreen := by
  have hce := h.ce
  have hline := h.line
  refine (noPanic_redrawLine h.wc (by omega) rfl (by omega)).mono ?_
  rintro _ ⟨l, rfl⟩
  exact ⟨⟨h.wc, h.ce, h.small, h.mode, h.len, h.line⟩, by simp only; omega, Nat.le_add_left _ _⟩

/-! ## The keys -/

/-- Typing, arrows, Backspace, word motion and Enter. -/
def ScreenKey (c : UInt8) : Prop := Printable c ∨ (c = ctrlH ∨ c = delete) ∨ MotionKey c ∨ c = newline

instance (c : UInt8) : Decidable (ScreenKey c) := by unfold ScreenKey; infer_instance

/-- Keys and writes, for lines up to `INPUT_BUF` characters. -/
def screenStep (s : Input) : ConsAct → Option Input
  | .key c => if ScreenKey c ∧ (Printable c → s.e.toNat - s.w.toNat < INPUT_BUF) then consStep s (.key c) else none
  | .redraw _ => none
  | a => consStep s a

/-- The start of a line, with the cursor above the last row. -/
def screenInit (s : Input) : Prop :=
  s.w = s.e ∧ s.cursor = s.e ∧ s.e.toNat ≤ 2 ^ 31 ∧ s.selectMode = .off ∧ s.startPos = 0 ∧ s.pos < 24 * 80

/-- A typed character leaves the end of the line on the screen, and so does the right arrow the cursor. -/
def ScreenFits (s : Input) : ConsAct → Prop
  | .key c => s.e.toNat < 2 ^ 31 ∧
      (Printable c → (if s.e = s.w then s.pos else s.startPos) + (s.e.toNat - s.w.toNat) + 1 < 25 * 80) ∧
      (c = keyRt → s.cursor < s.e → s.pos + 1 < 25 * 80)
  | _ => True

instance (s : Input) : (a : ConsAct) → Decidable (ScreenFits s a)
  | .key _ => inferInstanceAs (Decidable (_ ∧ _))
  | .read _ _ => inferInstanceAs (Decidable True)
  | .write _ => inferInstanceAs (Decidable True)
  | .redraw _ => inferInstanceAs (Decidable True)

section

variable (h : OnScreen s)

include h

theorem insert_onScreen (he : s.e.toNat < 2 ^ 31) (hlen : s.e.toNat - s.w.toNat < INPUT_BUF)
    (hfit : (if s.e = s.w then s.pos else s.startPos) + (s.e.toNat - s.w.toNat) + 1 < 25 * 80) :
    NoPanic (insert s c) OnScreen := by
  have hwc := h.wc
  have hce := h.ce
  rw [insert]
  split
  · rw [insertChar_eq, markStart_eq]
    have hstart : (markStart s).startPos = if s.e = s.w then s.pos else s.startPos := by
      unfold markStart
      split <;> rfl
    have hsucc := toNat_succ (x := s.e) (by omega)
    have hcsucc := toNat_succ (x := s.cursor) (by omega)
    have hgap : NoPanic (openGap { s with startPos := (markStart s).startPos }) fun _ => True := by
      unfold openGap
      split
      · exact noPanic_memmove ..
      · exact .ok trivial
    refine (hgap.bind fun b _ => .ok (P := Drawn) ?_).bind fun _ => redrawLine_onScreen
    refine ⟨?_, ?_, ?_, h.mode, ?_, ?_⟩
    all_goals simp only [inserted, hstart]; omega
  · exact .ok h

theorem backspace_onScreen : NoPanic (backspace s) OnScreen := by
  have hwc := h.wc
  have hce := h.ce
  have hsmall := h.small
  have hlen := h.len
  have hline := h.line
  rw [backspace_eq]
  split
  · rename_i hlt
    have hlt := UInt32.lt_iff_toNat_lt.1 hlt
    have hpred := toNat_pred (x := s.cursor) (by omega)
    have hepred := toNat_pred (x := s.e) (by omega)
    refine (noPanic_memmove ..).bind fun b _ => redrawLine_onScreen ?_
    refine ⟨?_, ?_, ?_, h.mode, ?_, ?_⟩
    all_goals simp only [deletedAt]; omega
  · exact .ok h

theorem enter_onScreen (he : s.e.toNat < 2 ^ 31) : NoPanic (enter s) OnScreen := by
  have hsucc := toNat_succ (x := s.e) (by omega)
  refine (noPanic_cgaputc h.pos (g := .newline) nofun).bind fun p hp => .ok ?_
  refine ⟨⟨le_rfl, le_rfl, ?_, rfl, ?_, ?_⟩, hp.1, ?_⟩
  all_goals simp only; omega

theorem cursorLeft_onScreen : OnScreen (cursorLeft s) := by
  have hwc := h.wc
  have hce := h.ce
  have hpos := h.pos
  have hleft := h.left
  unfold cursorLeft
  split
  · rename_i hlt
    have hlt := UInt32.lt_iff_toNat_lt.1 hlt
    have hpred := toNat_pred (x := s.cursor) (by omega)
    have hset := setCursorPos_pos (s := { s with cursor := s.cursor - 1 }) (p := s.pos - 1) (n := s.pos - 1)
      (by omega) (by omega)
    refine h.toDrawn.move (q := s.cursor - 1)
      (p := (setCursorPos { s with cursor := s.cursor - 1 } (s.pos - 1)).pos) ?_ ?_ ?_ ?_
    all_goals omega
  · exact h

theorem cursorRight_onScreen (hfit : s.cursor < s.e → s.pos + 1 < 25 * 80) :
    OnScreen (cursorRight s) := by
  have hwc := h.wc
  have hsmall := h.small
  have hleft := h.left
  unfold cursorRight
  split
  · rename_i hlt
    have hlt' := UInt32.lt_iff_toNat_lt.1 hlt
    have hfit := hfit hlt
    have hsucc := toNat_succ (x := s.cursor) (by omega)
    have hset := setCursorPos_pos (s := { s with cursor := s.cursor + 1 }) (p := s.pos + 1) (n := s.pos + 1)
      (by omega) (by omega)
    refine h.toDrawn.move (q := s.cursor + 1)
      (p := (setCursorPos { s with cursor := s.cursor + 1 } (s.pos + 1)).pos) ?_ ?_ ?_ ?_
    all_goals omega
  · exact h

theorem onScreen_of_movesTo {s' : Input} {i : Nat} (hm : MovesTo s s' i)
    (hpos : s' = setCursorPos { s with cursor := s'.cursor } (s.startPos + (s'.cursor - s.w).toNat)) : OnScreen s' := by
  obtain ⟨q, p, rfl, hq, hle⟩ := hm
  have hline := h.line
  have hset := setCursorPos_pos (s := { s with cursor := q }) (p := s.startPos + (q - s.w).toNat) (n := s.startPos + i)
    (by rw [toNat_sub (by omega), hq]; omega) (by omega)
  have hp : p = (setCursorPos { s with cursor := q } (s.startPos + (q - s.w).toNat)).pos := congrArg Input.pos hpos
  rw [hset] at hp
  refine h.toDrawn.move ?_ ?_ ?_ ?_
  all_goals omega

theorem wordLeft_onScreen : OnScreen (wordLeft s) :=
  onScreen_of_movesTo h (wordLeft_moves h.wc h.ce h.small) rfl

theorem wordRight_onScreen : OnScreen (wordRight s) := by
  have hm := wordRight_moves h.wc h.ce h.small
  unfold wordRight at hm ⊢
  simp only at hm ⊢
  split at hm
  · rw [if_pos ‹_›]; exact onScreen_of_movesTo h hm rfl
  · rw [if_neg ‹_›]; exact h

/-- A key of the set does not panic and leaves the cursor on the screen. -/
theorem key_onScreen (hc : ScreenKey c) (hlen : Printable c → s.e.toNat - s.w.toNat < INPUT_BUF)
    (hfit : ScreenFits s (.key c)) :
    NoPanic (key s c) fun o => OnScreen o.s := by
  obtain ⟨he, hins, hright⟩ := hfit
  have hsel : s.selectMode ≠ .selected := by rw [h.mode]; nofun
  have ht : OnScreen { s with tabPressCount := 0 } := ⟨⟨h.wc, h.ce, h.small, h.mode, h.len, h.line⟩, h.pos, h.left⟩
  rcases hc with hp | hb | hm | rfl
  · rw [key_printable hp hsel]
    exact (insert_onScreen h he (hlen hp) (hins hp)).bind fun _ hs => .ok hs
  · rw [key_backspace hb hsel]; exact (backspace_onScreen ht).bind fun _ hs => .ok hs
  · rcases hm with rfl | rfl | rfl | rfl
    all_goals simp +decide only [key, hsel, if_true, if_false]
    · exact .ok (cursorLeft_onScreen ht)
    · exact .ok (cursorRight_onScreen ht (hright rfl))
    · exact .ok (wordLeft_onScreen ht)
    · exact .ok (wordRight_onScreen ht)
  · rw [key_newline hsel]; exact (enter_onScreen h he).bind fun _ hs => .ok hs

theorem write_onScreen (buf : List UInt8) : NoPanic (consolewrite s buf) OnScreen := by
  refine (noPanic_putBytes buf h.pos).bind fun p hp => .ok ?_
  have hce := h.ce
  have hlen := h.len
  have hleft := h.left
  have hge := hp.2
  refine h.toDrawn.move h.wc h.ce hp.1 ?_
  simp only [INPUT_BUF] at hlen
  omega

end

/-! ## Whole runs -/

theorem onScreen_reach (hr : Reach screenInit screenStep ScreenFits s) : OnScreen s := by
  refine Reach.inv ?_ ?_ hr
  · rintro s ⟨hw, hc, he, hm, hs, hp⟩
    have hw := congrArg UInt32.toNat hw
    have hc := congrArg UInt32.toNat hc
    refine ⟨⟨?_, ?_, he, hm, ?_, ?_⟩, ?_, ?_⟩
    all_goals omega
  · intro s a s' h hok hs
    have hs' : consStep s a = some s' := by
      cases a with
      | key c =>
        obtain ⟨-, hs⟩ | ⟨-, hs⟩ := ite_eq_iff.1 hs
        · exact hs
        · cases hs
      | read target n => exact hs
      | write buf => exact hs
      | redraw str => cases hs
    cases consStep_cases hs' with
    | key hk =>
      obtain ⟨⟨hc, hlen⟩, -⟩ | ⟨-, hs⟩ := ite_eq_iff.1 hs
      · exact (key_onScreen h hc hlen hok).2 _ hk
      · cases hs
    | read r _ => exact ⟨⟨h.wc, h.ce, h.small, h.mode, h.len, h.line⟩, h.pos, h.left⟩
    | write p hw => exact (write_onScreen h _).2 _ hw
    | redraw _ => cases hs

/-- In every run of keys and writes whose line stays on the screen no key and no write panics, and a call
of `cgaputc` that does not panic writes only cells of the screen. -/
theorem screen_never_panics (s : Input) (hr : Reach screenInit screenStep ScreenFits s) :
    (∀ c, ScreenKey c → (Printable c → s.e.toNat - s.w.toNat < INPUT_BUF) → ScreenFits s (.key c) →
    key s c ≠ .error .panic) ∧ (∀ buf, consolewrite s buf ≠ .error .panic) ∧
    ∀ pos g p, cgaputc pos g = .ok p → ∀ i ∈ cgaCells pos g, i < 25 * 80 := by
  have h := onScreen_reach hr
  refine ⟨?_, ?_, ?_⟩
  · intro c hc hlen hfit; exact (key_onScreen h hc hlen hfit).1
  · intro buf; exact (write_onScreen h buf).1
  · intro pos g p hp; exact cgaCells_lt hp

/-- From the last cell above the last row: a character, and Enter. -/
theorem screen_never_panics_last :
    ∃ s, Reach screenInit screenStep ScreenFits s ∧ s.pos = 1920 ∧ key s newline ≠ .error .panic := by
  have hrun : (runActs (guarded screenStep ScreenFits) { pos := 1919 } [.key 97]).any (fun s => decide (s.pos = 1920) &&
      decide (ScreenFits s (.key newline))) = true := by decide +kernel
  obtain ⟨s, hr, hs⟩ := exists_reach_of_guarded_run screenInit ScreenFits
    (by refine ⟨rfl, rfl, ?_, rfl, rfl, ?_⟩ <;> decide) _ _ hrun
  rw [Bool.and_eq_true, decide_eq_true_eq, decide_eq_true_eq] at hs
  exact ⟨s, hr, hs.1, (screen_never_panics s hr).1 newline (by decide) (fun hp => absurd hp (by decide)) hs.2⟩

/-- A line of `n` characters typed from the place `p` of the screen on. -/
structure TypedFrom (p n : Nat) (s : Input) : Prop where
  r : s.r = s.w
  cursor : s.cursor = s.e
  e : s.e.toNat = s.w.toNat + n
  small : s.e.toNat + INPUT_BUF ≤ 2 ^ 31 + n
  mode : s.selectMode = .off
  start : (if s.e = s.w then s.pos else s.startPos) = p
  pos : s.pos = p + n

/-- Another character: wherever the screen has scrolled, the cursor is set to `n` cells behind the start. -/
theorem TypedFrom.key (h : TypedFrom p n s) (hp : p < 25 * 80) (hn : n < INPUT_BUF) :
    ∃ s', screenStep s (.key 97) = some s' ∧ TypedFrom p (n + 1) s' := by
  have he := h.e
  have hsmall := h.small
  have hc := congrArg UInt32.toNat h.cursor
  have hr := congrArg UInt32.toNat h.r
  have hsel : s.selectMode ≠ .selected := by rw [h.mode]; nofun
  have hroom : s.e - s.r < 128 := (room_iff (by omega)).2 (by omega)
  have hsucc := toNat_succ (x := s.e) (by omega)
  have hstart : (markStart s).startPos = p := by
    rw [← h.start]
    unfold markStart
    split <;> rfl
  have hins : NoPanic (insert s 97) (TypedFrom p (n + 1)) := by
    rw [insert, if_pos ⟨hroom, by decide⟩, insertChar_eq, markStart_eq, openGap,
      if_neg (by simp only [h.cursor]; exact UInt32.lt_irrefl _)]
    refine (noPanic_redrawLine (n := p + n + 1) ?_ ?_ ?_ ?_).mono ?_
    · show s.w.toNat ≤ (s.cursor + 1).toNat; rw [h.cursor]; omega
    · exact hstart.trans_lt hp
    · show p + n + 1 = (markStart s).startPos + ((s.cursor + 1).toNat - s.w.toNat)
      rw [hstart, h.cursor]
      omega
    · simp only [INPUT_BUF] at hn; omega
    · rintro _ ⟨l, rfl⟩
      have hne : s.e + 1 ≠ s.w := by
        intro heq; have heq := congrArg UInt32.toNat heq; omega
      refine ⟨h.r, congrArg (· + 1) h.cursor, ?_, ?_, h.mode, ?_, rfl⟩
      · show (s.e + 1).toNat = s.w.toNat + (n + 1); omega
      · show (s.e + 1).toNat + INPUT_BUF ≤ 2 ^ 31 + (n + 1); omega
      · exact (if_neg hne).trans hstart
  have hroom' : s.e.toNat - s.w.toNat < INPUT_BUF := by omega
  obtain ⟨b, ⟨x, y, z, hok⟩ | hpanic, -⟩ := insert_spec (c := 97) ⟨hroom, by decide⟩ (by omega) (by omega)
    fun hlt => absurd (h.cursor ▸ hlt) (UInt32.lt_irrefl _)
  · refine ⟨_, ?_, hins.2 _ hok⟩
    rw [screenStep, if_pos ⟨by decide, fun _ => hroom'⟩, consStep, key_printable (by decide) hsel, hok]
    rfl
  · exact absurd hpanic hins.1

/-- From there 81 characters: the screen scrolls under the line, the cursor is set behind the last row, and
Enter panics. -/
theorem long_line_panics : ∃ s, Reachable screenInit screenStep s ∧ s.pos = 2000 ∧ key s newline = .error .panic := by
  have htyped : ∀ n ≤ 81, ∃ s, Reachable screenInit screenStep s ∧ TypedFrom 1919 n s := by
    intro n
    induction n with
    | zero =>
      intro _
      refine ⟨{ pos := 1919 }, .init ?_, ?_⟩
      · refine ⟨rfl, rfl, ?_, rfl, rfl, ?_⟩ <;> decide
      · exact ⟨rfl, rfl, rfl, by decide, rfl, rfl, rfl⟩
    | succ n ih =>
      intro hn
      obtain ⟨s, hr, hs⟩ := ih (by omega)
      obtain ⟨s', hstep, hs'⟩ := hs.key (by decide) (by simp only [INPUT_BUF]; omega)
      exact ⟨s', .step hr trivial hstep, hs'⟩
  obtain ⟨s, hr, hs⟩ := htyped 81 le_rfl
  refine ⟨s, hr, hs.pos, ?_⟩
  rw [key_newline (by rw [hs.mode]; decide), enter, hs.pos]
  rfl

end Xv6.Console
