/-
Ctrl-V. The clipboard goes in at the cursor and the rest of the line moves up, but the test for room and both moves take
the indices as they have run since boot for places in the array. So the key does what it should only in the first
turn of the ring; later it finds no room in an empty line, until the indices wrap.
-/
import Xv6.Console.Enter

namespace Xv6.Console

open Base

/-! ## What the key is to do -/

/-- What has come in and has not been read, with the cursor in it. -/
def textOf (s : Input) : Editor := ⟨buffered s, (s.cursor - s.r).toNat⟩

/-- The cursor is in the text, between `input.r` and `input.e`. -/
def InText (s : Input) : Prop := (s.cursor - s.r).toNat ≤ (s.e - s.r).toNat

def clip (s : Input) : List UInt8 := line s.clipboard 0 s.clipboardLen.toNat

def HasRoom (s : Input) : Prop := ((s.e - s.r).toNat : Int) + s.clipboardLen ≤ INPUT_BUF

instance (s : Input) : Decidable (InText s) := inferInstanceAs (Decidable (_ ≤ _))

instance (s : Input) : Decidable (HasRoom s) := inferInstanceAs (Decidable (_ ≤ _))

/-- With room the clipboard goes in at the cursor, which ends up behind it; otherwise the line and the cursor stay. -/
def PastesExactly (s : Input) : Prop := ∃ o, key s ctrlV = .ok o ∧ o.s.r = s.r ∧ o.s.w = s.w ∧
  if HasRoom s then
    InText s ∧ textOf o.s = (textOf s).replace (textOf s).cursor (textOf s).cursor (clip s)
  else pending o.s = pending s ∧ o.s.e = s.e ∧ o.s.cursor = s.cursor

/-- The line with the clipboard in it is drawn from a cell of the screen, or there is nothing to draw. -/
def Draws (s : Input) : Prop :=
  s.startPos % 65536 < 25 * 80 ∨
    (s.e + UInt32.ofInt s.clipboardLen).toNat ≤ s.w.toNat ∧ s.prevLineLen ≤ s.e + UInt32.ofInt s.clipboardLen - s.w

/-- The cursor is in the text, neither it nor the clipboard has to wrap, and the text ends before the array does. -/
structure InArray (s : Input) : Prop where
  text : InText s
  cursor : s.cursor.toNat ≤ s.e.toNat
  stop : s.e.toNat + s.clipboardLen.toNat < INPUT_BUF

/-- With room, the paste stays in the array and on the screen; without, the sum that is compared has not wrapped. -/
def PasteFits (s : Input) : Prop :=
  if HasRoom s then InArray s ∧ Draws s else INPUT_BUF ≤ (s.e + UInt32.ofInt s.clipboardLen).toNat

/-! ## Drawing -/

variable {s : Input}

theorem redrawCells_ok_iff (n : Nat) (i : UInt32) {pos : Nat} (h : i.toNat + n ≤ 2 ^ 31) :
    (∃ p, redrawCells s n i pos = .ok p) ↔ n = 0 ∨ pos < 25 * 80 := by
  cases n with
  | zero => exact iff_of_true ⟨pos, rfl⟩ (.inl rfl)
  | succ n =>
    constructor
    · rintro ⟨p, hp⟩
      obtain ⟨c, -, hp⟩ := bind_eq_ok hp
      obtain ⟨q, hq, -⟩ := bind_eq_ok hp
      exact .inr ((cgaputc_ok_iff (glyph_ne_backspace _ _)).1 ⟨q, hq⟩)
    · rintro (h0 | hpos)
      · cases h0
      · have hno := noPanic_redrawCells s (n + 1) i hpos
        rcases noOob_redrawCells s (n + 1) i pos h with ⟨p, hp⟩ | hp
        · exact ⟨p, hp⟩
        · exact (hno.1 hp).elim

theorem putMany_ok_iff {g : Glyph} (hg : g ≠ .backspace) (n : Nat) {pos : Nat} :
    (∃ p, putMany g n pos = .ok p) ↔ n = 0 ∨ pos < 25 * 80 := by
  cases n with
  | zero => exact iff_of_true ⟨pos, rfl⟩ (.inl rfl)
  | succ n =>
    constructor
    · rintro ⟨p, hp⟩
      obtain ⟨q, hq, -⟩ := bind_eq_ok hp
      exact .inr ((cgaputc_ok_iff hg).1 ⟨q, hq⟩)
    · rintro (h0 | hpos)
      · cases h0
      · have hno := noPanic_putMany hg (n + 1) hpos
        rcases noOob_putMany g (n + 1) pos with ⟨p, hp⟩ | hp
        · exact ⟨p, hp⟩
        · exact (hno.1 hp).elim

theorem redrawLine_ok_iff (s : Input) (h : s.e.toNat ≤ 2 ^ 31) : (∃ s', redrawLine s = .ok s') ↔
    s.startPos % 65536 < 25 * 80 ∨ s.e.toNat ≤ s.w.toNat ∧ s.prevLineLen ≤ s.e - s.w := by
  have hpos : (setCursorPos s s.startPos).pos = s.startPos % 65536 := by
    show ((s.startPos : Int) % 65536).toNat = _; omega
  have hcells : s.w.toNat ≤ s.e.toNat → s.w.toNat + (s.e.toNat - s.w.toNat) ≤ 2 ^ 31 := fun _ => by omega
  constructor
  · rintro ⟨s', hs'⟩
    obtain ⟨p, hp, -⟩ := bind_eq_ok hs'
    obtain ⟨q, hq, hrest⟩ := bind_eq_ok hp
    rw [hpos] at hq
    by_cases hon : s.startPos % 65536 < 25 * 80
    · exact .inl hon
    refine .inr ?_
    have hle : s.e.toNat ≤ s.w.toNat := by
      by_contra hlt
      have := (redrawCells_ok_iff _ _ (hcells (by omega))).1 ⟨q, hq⟩
      omega
    refine ⟨hle, ?_⟩
    -- no cell is drawn, so the blanks begin where the line does
    rw [Nat.sub_eq_zero_of_le hle] at hq
    cases hq
    by_contra hlt
    have hlt := UInt32.not_le.1 hlt
    rw [if_pos hlt] at hrest
    have hzero := (putMany_ok_iff (fun h => by cases h) _).1 ⟨p, hrest⟩
    have := toNat_sub (UInt32.lt_iff_toNat_lt.1 hlt).le
    have := UInt32.lt_iff_toNat_lt.1 hlt
    omega
  · intro hor
    have hdraw : ∃ p, redrawPos s = .ok p := by
      rcases hor with hon | ⟨hle, hprev⟩
      · have hno : NoPanic (redrawPos s) fun _ => True := by
          rw [← hpos] at hon
          refine (noPanic_redrawCells s _ _ hon).bind fun p hp => ?_
          dsimp only
          split
          · exact noPanic_putMany (fun h => by cases h) _ hp
          · exact .ok trivial
        rcases noOob_redrawPos s h with ⟨p, hp⟩ | hp
        · exact ⟨p, hp⟩
        · exact (hno.1 hp).elim
      · refine ⟨(setCursorPos s s.startPos).pos, ?_⟩
        rw [redrawPos, Nat.sub_eq_zero_of_le hle, redrawCells]
        exact if_neg (UInt32.not_lt.2 hprev)
    obtain ⟨p, hp⟩ := hdraw
    exact ⟨_, by rw [redrawLine, hp]; rfl⟩

/-! ## The moves -/

/-- The clipboard in the text, where both moves stay in the array and the text in one turn of the ring. -/
theorem line_paste {b b₁ b₂ cb : Buf} {r cur e : UInt32} {n : Nat} (hin : (cur - r).toNat ≤ (e - r).toNat)
    (hce : cur.toNat ≤ e.toNat) (hstop : e.toNat + n < INPUT_BUF) (hroom : (e - r).toNat + n ≤ INPUT_BUF)
    (h1 : memmove b b (cur.toNat + n) cur.toNat (e.toNat - cur.toNat) = .ok b₁)
    (h2 : memmove b₁ cb cur.toNat 0 n = .ok b₂) :
    line b₂ r.toNat ((e - r).toNat + n) = (line b r.toNat (e - r).toNat).take (cur - r).toNat ++ line cb 0 n ++
      (line b r.toNat (e - r).toNat).drop (cur - r).toNat := by
  have hsum := toNat_sub_add (.inl hin)
  have htail := toNat_sub hce
  have hplace := mod_add_sub r cur
  rw [Nat.mod_eq_of_lt (by omega : cur.toNat < INPUT_BUF)] at hplace
  generalize (e - r).toNat = m at *
  generalize (cur - r).toNat = k at *
  generalize (e - cur).toNat = t at *
  subst hsum
  have hcur : ∀ (c : Buf) (l : Nat), line c (r.toNat + k) l = line c cur.toNat l := fun c l =>
    Ring.window_congr c l (by rw [hplace, Nat.mod_eq_of_lt (by omega)])
  have hfront : line b₂ r.toNat k = line b r.toNat k := by
    refine Ring.window_eq fun i hi => ?_
    show b₂ (ring (r.toNat + i)) = b (ring (r.toNat + i))
    -- a place before the cursor is not one that the moves write: it would be a turn away
    have hp : (r.toNat + i) % INPUT_BUF < cur.toNat ∨ e.toNat + n ≤ (r.toNat + i) % INPUT_BUF := by
      unfold INPUT_BUF at *; omega
    have hlt : (r.toNat + i) % INPUT_BUF < INPUT_BUF := Nat.mod_lt _ (by decide)
    rw [show ring (r.toNat + i) = ring ((r.toNat + i) % INPUT_BUF) from Fin.ext (Nat.mod_mod _ _).symm,
      memmove_at h2 hlt, if_neg (by omega), memmove_at h1 hlt, if_neg (by omega)]
  have hclip : line b₂ cur.toNat n = line cb 0 n := by
    refine Ring.window_eq fun i hi => ?_
    show b₂ (ring (cur.toNat + i)) = cb (ring (0 + i))
    rw [memmove_at h2 (by omega), if_pos (by omega), Nat.add_sub_cancel_left]
  have hback : line b₂ (cur.toNat + n) t = line b cur.toNat t := by
    refine Ring.window_eq fun i hi => ?_
    show b₂ (ring (cur.toNat + n + i)) = b (ring (cur.toNat + i))
    rw [memmove_at h2 (by omega), if_neg (by omega), memmove_at h1 (by omega), if_pos (by omega),
      Nat.add_sub_cancel_left]
  calc line b₂ r.toNat (k + t + n) = line b₂ r.toNat (k + (n + t)) := by rw [add_assoc, add_comm t n]
    _ = line b₂ r.toNat k ++ (line b₂ cur.toNat n ++ line b₂ (cur.toNat + n) t) := by
      rw [line_add, hcur, line_add]
    _ = line b r.toNat k ++ line cb 0 n ++ line b cur.toNat t := by rw [hfront, hclip, hback, List.append_assoc]
    _ = _ := by
      rw [line_add b _ k t, List.take_left' (length_line ..), List.drop_left' (length_line ..), hcur]

theorem toNat_ofInt {n : Int} (h0 : 0 < n) (h : n < 2 ^ 31) : (UInt32.ofInt n).toNat = n.toNat := by
  rw [UInt32.ofInt, UInt32.toNat_ofNat']; omega

/-- The state that is drawn, with the moves done. -/
def pasted (s : Input) (b : Buf) : Input :=
  { s with buf := b, e := s.e + UInt32.ofInt s.clipboardLen, cursor := s.cursor + UInt32.ofInt s.clipboardLen }

theorem key_paste (hsel : s.selectMode ≠ .selected) :
    key s ctrlV = paste { s with tabPressCount := 0 } >>= fun s => .ok { s := s } := by
  simp +decide only [key, hsel, if_true, if_false]

theorem paste_full (h : INPUT_BUF ≤ (s.e + UInt32.ofInt s.clipboardLen).toNat) : paste s = .ok s := by
  have hnot : ¬ s.e + UInt32.ofInt s.clipboardLen < 128 := fun hlt => by
    have := UInt32.lt_iff_toNat_lt.1 hlt; exact absurd this (not_lt.2 h)
  unfold paste
  split
  · exact if_neg hnot
  · rfl

theorem paste_moves (h0 : 0 < s.clipboardLen) (h : (s.e + UInt32.ofInt s.clipboardLen).toNat < INPUT_BUF) :
    paste s = memmove s.buf s.buf (s.cursor + UInt32.ofInt s.clipboardLen).toNat s.cursor.toNat
    (s.e - s.cursor).toNat >>= fun b =>
      memmove b s.clipboard s.cursor.toNat 0 (UInt32.ofInt s.clipboardLen).toNat >>=
      fun b => redrawLine (pasted s b) := by
  unfold paste
  rw [if_pos h0]
  exact if_pos (UInt32.lt_iff_toNat_lt.2 h)

/-- A move leaves the array if the cursor is behind the text, or if the sum that is compared has wrapped. -/
theorem paste_oob (h0 : 0 < s.clipboardLen) (hint : s.clipboardLen < 2 ^ 31)
    (h : (s.e + UInt32.ofInt s.clipboardLen).toNat < INPUT_BUF)
    (hout : ¬ (s.cursor.toNat ≤ s.e.toNat ∧ s.e.toNat + s.clipboardLen.toNat < INPUT_BUF)) :
    ∃ i, paste s = .error (.oob i) := by
  rw [paste_moves h0 h, toNat_ofInt h0 hint]
  rw [UInt32.toNat_add, toNat_ofInt h0 hint] at h
  have he := UInt32.toNat_lt s.e
  have hc := UInt32.toNat_lt s.cursor
  have hsub := UInt32.toNat_sub s.e s.cursor
  unfold INPUT_BUF at h hout
  by_cases hend : s.cursor = s.e
  · -- nothing to shift, and the clipboard would go behind the array
    rw [hend] at hout hsub ⊢
    obtain ⟨b, hb⟩ := memmove_ok s.buf s.buf (s.e + UInt32.ofInt s.clipboardLen).toNat s.e.toNat (s.e - s.e).toNat
      (fun hne => absurd (by rw [UInt32.sub_self]; rfl) hne)
    obtain ⟨i, hi⟩ := memmove_oob b s.clipboard s.e.toNat 0 s.clipboardLen.toNat (by omega) (by unfold INPUT_BUF; omega)
    exact ⟨i, by rw [hb]; show memmove _ _ _ _ _ >>= _ = _; rw [hi]; rfl⟩
  · have hne : s.cursor.toNat ≠ s.e.toNat := fun heq => hend (UInt32.toNat_inj.1 heq)
    obtain ⟨i, hi⟩ := memmove_oob s.buf s.buf (s.cursor + UInt32.ofInt s.clipboardLen).toNat s.cursor.toNat
      (s.e - s.cursor).toNat (by omega) (by unfold INPUT_BUF; omega)
    exact ⟨i, by rw [hi]; rfl⟩

/-- Where both moves stay in the array they put the clipboard into the text, and the line is drawn. -/
theorem paste_inserts (h0 : 0 < s.clipboardLen) (hint : s.clipboardLen < 2 ^ 31) (hce : s.cursor.toNat ≤ s.e.toNat)
    (hstop : s.e.toNat + s.clipboardLen.toNat < INPUT_BUF) : ∃ b, paste s = redrawLine (pasted s b) ∧
      (HasRoom s → InText s → textOf (pasted s b) =
        (textOf s).replace (textOf s).cursor (textOf s).cursor (clip s)) := by
  have hlen := toNat_ofInt h0 hint
  have hinput : INPUT_BUF = 128 := rfl
  have hsum : (s.e + UInt32.ofInt s.clipboardLen).toNat = s.e.toNat + s.clipboardLen.toNat := by
    rw [UInt32.toNat_add, hlen]; omega
  have hcur : (s.cursor + UInt32.ofInt s.clipboardLen).toNat = s.cursor.toNat + s.clipboardLen.toNat := by
    rw [UInt32.toNat_add, hlen]; omega
  obtain ⟨b₁, h1⟩ := memmove_ok s.buf s.buf (s.cursor.toNat + s.clipboardLen.toNat) s.cursor.toNat
    (s.e.toNat - s.cursor.toNat) (fun _ => by omega)
  obtain ⟨b₂, h2⟩ := memmove_ok b₁ s.clipboard s.cursor.toNat 0 s.clipboardLen.toNat (fun _ => by omega)
  refine ⟨b₂, ?_, ?_⟩
  · rw [paste_moves h0 (hsum ▸ hstop), hcur, toNat_sub hce, hlen, h1]
    show memmove _ _ _ _ _ >>= _ = _
    rw [h2]
    rfl
  · intro hroom hin
    have hroom : ((s.e - s.r).toNat : Int) + s.clipboardLen ≤ INPUT_BUF := hroom
    have htext := line_paste hin hce hstop (by omega) h1 h2
    have hin : (s.cursor - s.r).toNat ≤ (s.e - s.r).toNat := hin
    have hr := UInt32.toNat_lt s.r
    have he := UInt32.toNat_sub s.e s.r
    have hc := UInt32.toNat_sub s.cursor s.r
    have he' : (s.e + UInt32.ofInt s.clipboardLen - s.r).toNat = (s.e - s.r).toNat + s.clipboardLen.toNat := by
      rw [UInt32.toNat_sub, hsum]; omega
    have hc' : (s.cursor + UInt32.ofInt s.clipboardLen - s.r).toNat =
        (s.cursor - s.r).toNat + s.clipboardLen.toNat := by
      rw [UInt32.toNat_sub, hcur]; omega
    show (⟨line b₂ s.r.toNat (s.e + UInt32.ofInt s.clipboardLen - s.r).toNat,
      (s.cursor + UInt32.ofInt s.clipboardLen - s.r).toNat⟩ : Editor) = _
    rw [he', hc', htext]
    show _ = (⟨_, (s.cursor - s.r).toNat + (line s.clipboard 0 s.clipboardLen.toNat).length⟩ : Editor)
    rw [length_line]
    rfl

theorem not_pastesExactly (h0 : 0 < s.clipboardLen) (hroom : HasRoom s) {o : Outcome} (ho : key s ctrlV = .ok o)
    (he : o.s.e = s.e) : ¬ PastesExactly s := by
  rintro ⟨o', ho', hr, -, h⟩
  rw [if_pos hroom] at h
  cases ho.symm.trans ho'
  have hlen := congrArg (fun ed : Editor => ed.text.length) h.2
  simp only [textOf, buffered, Editor.replace, clip, he, hr, length_line, List.length_append, List.length_take,
    List.length_drop] at hlen
  omega

/-- What the key does: nothing, leave the array, or draw the line with the clipboard in it. -/
theorem key_paste_cases (hsel : s.selectMode ≠ .selected) (h0 : 0 < s.clipboardLen) (hint : s.clipboardLen < 2 ^ 31) :
    INPUT_BUF ≤ (s.e + UInt32.ofInt s.clipboardLen).toNat ∧ key s ctrlV = .ok { s := { s with tabPressCount := 0 } } ∨
    (s.e + UInt32.ofInt s.clipboardLen).toNat < INPUT_BUF ∧
      ((¬ (s.cursor.toNat ≤ s.e.toNat ∧ s.e.toNat + s.clipboardLen.toNat < INPUT_BUF) ∧ ∃ i, key s ctrlV =
        .error (.oob i)) ∨ (s.cursor.toNat ≤ s.e.toNat ∧ s.e.toNat + s.clipboardLen.toNat < INPUT_BUF) ∧
          ∃ b, key s ctrlV = (redrawLine (pasted { s with tabPressCount := 0 } b) >>= fun s => .ok { s := s }) ∧
            (HasRoom s → InText s →
              textOf (pasted s b) = (textOf s).replace (textOf s).cursor (textOf s).cursor (clip s))) := by
  rw [key_paste hsel]
  by_cases hfull : INPUT_BUF ≤ (s.e + UInt32.ofInt s.clipboardLen).toNat
  · exact .inl ⟨hfull, by rw [paste_full (s := { s with tabPressCount := 0 }) hfull]; rfl⟩
  refine .inr ⟨not_le.1 hfull, ?_⟩
  by_cases hin : s.cursor.toNat ≤ s.e.toNat ∧ s.e.toNat + s.clipboardLen.toNat < INPUT_BUF
  · obtain ⟨b, hb, htext⟩ := paste_inserts (s := { s with tabPressCount := 0 }) h0 hint hin.1 hin.2
    exact .inr ⟨hin, b, by rw [hb], htext⟩
  · obtain ⟨i, hi⟩ := paste_oob (s := { s with tabPressCount := 0 }) h0 hint (not_le.1 hfull) hin
    exact .inl ⟨hin, i, by rw [hi]; rfl⟩

/-- Ctrl-V pastes whenever there is room, and otherwise leaves the line, exactly while the indices are places in the
array: `input.e`, as it has run since boot, with the length of the clipboard is below `INPUT_BUF` or has not wrapped. -/
theorem paste_exact_iff (s : Input) (hsel : s.selectMode ≠ .selected) (h0 : 0 < s.clipboardLen)
    (hint : s.clipboardLen < 2 ^ 31) : PastesExactly s ↔ PasteFits s := by
  have hsum := UInt32.toNat_add s.e (UInt32.ofInt s.clipboardLen)
  rw [toNat_ofInt h0 hint] at hsum
  have he := UInt32.toNat_lt s.e
  have hinput : INPUT_BUF = 128 := rfl
  rcases key_paste_cases hsel h0 hint with ⟨hfull, hk⟩ | ⟨hlt, ⟨hout, i, hk⟩ | ⟨⟨hce, hstop⟩, b, hk, htext⟩⟩
  · by_cases hroom : HasRoom s
    · refine iff_of_false (not_pastesExactly h0 hroom hk rfl) fun h => ?_
      rw [PasteFits, if_pos hroom] at h; have := h.1.stop; omega
    · refine iff_of_true ⟨_, hk, rfl, rfl, ?_⟩ ?_
      · rw [if_neg hroom]; exact ⟨rfl, rfl, rfl⟩
      · rw [PasteFits, if_neg hroom]; exact hfull
  · refine iff_of_false ?_ fun h => ?_
    · rintro ⟨o, ho, -⟩
      cases hk.symm.trans ho
    · unfold PasteFits at h
      split at h
      · exact hout ⟨h.1.cursor, h.1.stop⟩
      · omega
  · by_cases hroom : HasRoom s
    · have hdraw : (∃ s', redrawLine (pasted { s with tabPressCount := 0 } b) = .ok s') ↔ Draws s :=
        redrawLine_ok_iff _ (hlt.trans (by decide)).le
      rw [PasteFits, if_pos hroom, ← hdraw]
      constructor
      · rintro ⟨o, ho, -, -, h⟩
        rw [if_pos hroom] at h
        obtain ⟨s', hs', -⟩ := bind_eq_ok (hk.symm.trans ho)
        exact ⟨⟨h.1, hce, hstop⟩, s', hs'⟩
      · rintro ⟨hin, s', hs'⟩
        obtain ⟨p, l, rfl⟩ := redrawLine_eq_ok hs'
        refine ⟨_, by rw [hk, hs']; rfl, rfl, rfl, ?_⟩
        rw [if_pos hroom]
        exact ⟨hin.text, htext hroom hin.text⟩
    · refine iff_of_false ?_ fun h => ?_
      · rintro ⟨o, ho, -, -, h⟩
        rw [if_neg hroom] at h
        obtain ⟨s', hs', hok⟩ := bind_eq_ok (hk.symm.trans ho)
        obtain ⟨p, l, rfl⟩ := redrawLine_eq_ok hs'
        cases hok
        have hmoved := congrArg UInt32.toNat h.2.1
        have : (s.e + UInt32.ofInt s.clipboardLen).toNat = s.e.toNat := hmoved
        omega
      · rw [PasteFits, if_neg hroom] at h; omega

/-- A line `xy` with the cursor between its characters and `ab` in the clipboard. -/
def betweenTwo : Input :=
  { buf := fun i => if i.val = 0 then 120 else 121, e := 2, cursor := 1,
    clipboard := fun i => if i.val = 0 then 97 else 98, clipboardLen := 2 }

theorem paste_exact_betweenTwo :
    buffered betweenTwo = [120, 121] ∧ clip betweenTwo = [97, 98] ∧ PastesExactly betweenTwo := by
  refine ⟨by decide, by decide, (paste_exact_iff betweenTwo (by decide) (by decide) (by decide)).2 ?_⟩
  rw [PasteFits, if_pos (by decide)]
  exact ⟨⟨by decide, by decide, by decide⟩, .inl (by decide)⟩

/-- Two characters are typed, selected and copied; then the lines are entered and read until 126 characters have come
in. -/
def copyThenEnter : List ConsAct :=
  [.key 97, .key 98, .key keyLf, .key ctrlS, .key keyLf, .key ctrlS, .key ctrlC, .key keyLf, .key newline, .read 3 3] ++
    (List.replicate 123 [.key newline, .read 1 1]).flatten

/-- The whole ring is free and two characters wait in the clipboard, but the key does nothing. -/
theorem paste_lost : ∃ s o, Reachable consInit consStep s ∧ s.selectMode = .off ∧ s.clipboardLen = 2 ∧ buffered s = [] ∧
    HasRoom s ∧ key s ctrlV = .ok o ∧ buffered o.s = [] ∧ ¬ PastesExactly s := by
  have hrun : (runActs consStep ({} : Input) copyThenEnter).any
      (fun s => decide (s.selectMode = .off ∧ s.clipboardLen = 2 ∧ buffered s = [] ∧ HasRoom s ∧
        (key s ctrlV).toOption.any (fun o => decide (buffered o.s = [] ∧ o.s.e = s.e)) = true)) = true := by
    decide +kernel
  obtain ⟨s, hr, hs⟩ := exists_reachable_of_run consInit ⟨0, rfl⟩ _ _ hrun
  obtain ⟨h1, h2, h3, h4, h5⟩ := of_decide_eq_true hs
  obtain ⟨o, ho, h6, h7⟩ := exists_ok_of_any h5
  exact ⟨s, o, hr, h1, h2, h3, h4, ho, h6, not_pastesExactly (by omega) h4 ho h7⟩

end Xv6.Console
