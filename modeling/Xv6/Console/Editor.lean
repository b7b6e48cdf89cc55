/-
The line editor as a list editor. `view` reads the pending line and the cursor offset out of the
ring; on the editing keys it evolves as the abstract editor does, and no access leaves `input.buf`,
as long as the edit index is below 2^31 and an edit in the middle of the line does not reach past
the end of the array: `memmove` works on the unreduced indices. Past that the same edits access
`input.buf` out of range.
-/
import Xv6.Base.Outcome
import Xv6.Base.Run
import Xv6.Base.Ring
import Xv6.Console.Input
import Mathlib.Tactic.Common

namespace Xv6.Console

open Base Function

/-! ## The abstract editor -/

/-- A text and a place in it. -/
structure Editor where
  text : List UInt8 := []
  cursor : Nat := 0
  deriving DecidableEq, Repr

namespace Editor

/-- The space test on the text. -/
def sp (ed : Editor) (i : Nat) : Bool := ed.text[i]? = some space

def insert (ed : Editor) (c : UInt8) : Editor :=
  { text := ed.text.take ed.cursor ++ c :: ed.text.drop ed.cursor, cursor := ed.cursor + 1 }

/-- Delete the character before the cursor. -/
def backspace (ed : Editor) : Editor :=
  if 0 < ed.cursor then { text := ed.text.eraseIdx (ed.cursor - 1), cursor := ed.cursor - 1 } else ed

def key (ed : Editor) (c : UInt8) : Editor :=
  if c = ctrlU ∨ c = newline then {}
  else if c = ctrlH ∨ c = delete then ed.backspace
  else if c = keyLf then { ed with cursor := ed.cursor - 1 }
  else if c = keyRt then { ed with cursor := if ed.cursor < ed.text.length then ed.cursor + 1 else ed.cursor }
  else if c = ctrlD then
    let p := nextWordPos ed.sp ed.text.length ed.cursor
    { ed with cursor := if p < ed.text.length then p else ed.cursor }
  else if c = ctrlA then { ed with cursor := prevWordPos ed.sp 0 ed.cursor }
  else ed.insert c

end Editor

/-! ## Keys and steps -/

def Printable (c : UInt8) : Prop := 32 ≤ c ∧ c < 127

instance (c : UInt8) : Decidable (Printable c) := inferInstanceAs (Decidable (_ ∧ _))

def EditKey (c : UInt8) : Prop :=
  Printable c ∨ c = ctrlH ∨ c = delete ∨ c = keyLf ∨ c = keyRt ∨ c = ctrlA ∨ c = ctrlD ∨ c = ctrlU ∨ c = newline

instance (c : UInt8) : Decidable (EditKey c) := by unfold EditKey; infer_instance

/-- After the key `input.e - input.r` is still below `INPUT_BUF`. -/
def Fits (s : Input) (c : UInt8) : Prop := Printable c ∨ c = newline → s.e.toNat - s.r.toNat + 1 < INPUT_BUF

instance (s : Input) (c : UInt8) : Decidable (Fits s c) := by unfold Fits; infer_instance

/-- A key, or a section of `consoleread`. -/
inductive LineAct
  | key (c : UInt8)
  | read (target n : Nat)
  deriving DecidableEq, Repr

/-- The console and the abstract editor side by side. -/
def lineStep (x : Input × Editor) : LineAct → Option (Input × Editor)
  | .key c =>
    if EditKey c ∧ Fits x.1 c then
      match key x.1 c with
      | .ok o => some (o.s, x.2.key c)
      | .error _ => none
    else none
  | .read target n => some ((consoleread target n x.1 []).1, x.2)

/-- `consoleinit`, with the screen's cursor anywhere. -/
def lineInit (x : Input × Editor) : Prop := ∃ pos, x = ({ pos := pos }, {})

/-- The pending line and the cursor offset. -/
def view (s : Input) : Editor :=
  { text := (List.range (s.e.toNat - s.w.toNat)).map fun i => s.buf (ring (s.w.toNat + i))
    cursor := s.cursor.toNat - s.w.toNat }

/-- The edit index is below 2^31, a character is inserted in the middle of the line only below the
end of the array, and deleted there only up to it. -/
def EditsInRange (x : Input × Editor) : LineAct → Prop
  | .key c => x.1.e.toNat < 2 ^ 31 ∧ (Printable c → x.1.cursor < x.1.e → x.1.e.toNat < INPUT_BUF) ∧
      (c = ctrlH ∨ c = delete → x.1.w < x.1.cursor → x.1.cursor < x.1.e → x.1.e.toNat ≤ INPUT_BUF)
  | .read _ _ => True

instance (x : Input × Editor) : (a : LineAct) → Decidable (EditsInRange x a)
  | .key _ => inferInstanceAs (Decidable (_ ∧ _))
  | .read _ _ => inferInstanceAs (Decidable True)

/-! ## Lines of the ring -/

/-- The `n` characters of the ring from index `w` on. -/
def line (b : Buf) (w n : Nat) : List UInt8 := (List.range n).map fun i => b (ring (w + i))

instance : NeZero INPUT_BUF := ⟨by decide⟩

theorem line_eq_window (b : Buf) (w n : Nat) : line b w n = Ring.window b w n := rfl

@[simp] theorem length_line (b : Buf) (w n : Nat) : (line b w n).length = n := Ring.length_window b w n

theorem getElem?_line (b : Buf) (w n i : Nat) : (line b w n)[i]? = if i < n then some (b (ring (w + i))) else none :=
  Ring.getElem?_window b w n i

variable {s : Input} {e i m w : Nat} {b b' : Buf} {x : UInt32} {s' : Input} {c : UInt8} {ed : Editor} {dst src : Nat}

theorem ring_of_lt (h : i < INPUT_BUF) : ring i = ⟨i, h⟩ := by
  apply Fin.ext; exact Nat.mod_eq_of_lt h

theorem memmove_at {a : Buf} {len : Nat} (hm : memmove a b dst src len = .ok b') (hi : i < INPUT_BUF) :
    b' (ring i) = if dst ≤ i ∧ i < dst + len then b (ring (src + (i - dst))) else a (ring i) := by
  unfold memmove at hm
  obtain ⟨h0, hm⟩ | ⟨h0, hm⟩ := ite_eq_iff.1 hm
  · cases hm; rw [if_neg (by omega)]
  obtain ⟨h, hm⟩ | ⟨h, hm⟩ := dite_eq_iff.1 hm
  · cases hm
    rw [ring_of_lt hi]
    by_cases hr : dst ≤ i ∧ i < dst + len
    · rw [if_pos hr, ring_of_lt (by omega)]; exact dif_pos hr
    · rw [if_neg hr]; exact dif_neg hr
  · cases hm

theorem memmove_ok (a b : Buf) (dst src len : Nat) (h : len ≠ 0 → dst + len ≤ INPUT_BUF ∧ src + len ≤ INPUT_BUF) :
    ∃ b', memmove a b dst src len = .ok b' := by
  unfold memmove
  split
  · exact ⟨_, rfl⟩
  · rw [dif_pos (h ‹_›)]; exact ⟨_, rfl⟩

theorem memmove_oob (a b : Buf) (dst src len : Nat) (h0 : len ≠ 0)
    (h : ¬ (dst + len ≤ INPUT_BUF ∧ src + len ≤ INPUT_BUF)) :
    ∃ i, memmove a b dst src len = .error (.oob i) := by
  unfold memmove
  rw [if_neg h0, dif_neg h]
  exact ⟨_, rfl⟩

theorem line_split (b : Buf) (h1 : w ≤ m) (h2 : m ≤ e) : line b w (e - w) = line b w (m - w) ++ line b m (e - m) := by
  have h := Ring.window_add b w (m - w) (e - m)
  rwa [show m - w + (e - m) = e - w by omega, show w + (m - w) = m by omega] at h

/-- The insertion in the middle of a line that ends inside the array. -/
theorem line_insert {cur : Nat} (c : UInt8) (h1 : w ≤ cur) (h2 : cur < e) (h3 : e < INPUT_BUF)
    (hm : memmove b b (cur + 1) cur (e - cur) = .ok b') : line (update b' (ring cur) c) w (e - w + 1) =
      (line b w (e - w)).take (cur - w) ++ c :: (line b w (e - w)).drop (cur - w) := by
  have hfront : line (update b' (ring cur) c) w (cur - w) = line b w (cur - w) := by
    refine Ring.window_eq fun i hi => ?_
    refine (update_of_ne (Ring.place_ne (by omega) (by omega)) _ _).trans ?_
    exact (memmove_at hm (by omega)).trans (if_neg (by omega))
  have hback : line (update b' (ring cur) c) (cur + 1) (e - cur) = line b cur (e - cur) := by
    refine Ring.window_eq fun i hi => ?_
    refine (update_of_ne (Ring.place_ne (by omega) (by omega)).symm _ _).trans ?_
    refine (memmove_at hm (by omega)).trans ((if_pos (by omega)).trans ?_)
    rw [show cur + (cur + 1 + i - (cur + 1)) = cur + i by omega]
    rfl
  have hcons := Ring.window_cons (update b' (ring cur) c) cur (e - cur)
  rw [show e - w + 1 = e + 1 - w by omega, line_split _ h1 (by omega), line_split b h1 (Nat.le_of_lt h2), hfront,
    List.take_left' (length_line ..), List.drop_left' (length_line ..), show e + 1 - cur = e - cur + 1 by omega]
  congr 1
  refine hcons.trans ?_
  congr 1
  exact update_self ..

/-- The rest of a line, if it ends inside the array, moves down from `src` to `dst`. -/
theorem line_close (h1 : w ≤ dst) (h2 : dst ≤ src) (h3 : src ≤ e) (h4 : src < e → e ≤ INPUT_BUF)
    (hm : memmove b b dst src (e - src) = .ok b') :
    line b' w (dst - w + (e - src)) = (line b w (e - w)).take (dst - w) ++ (line b w (e - w)).drop (src - w) := by
  have htake : (line b w (e - w)).take (dst - w) = line b w (dst - w) := by
    rw [line_split b h1 (by omega), List.take_left' (length_line ..)]
  have hdrop : (line b w (e - w)).drop (src - w) = line b src (e - src) := by
    rw [line_split b (by omega : w ≤ src) h3, List.drop_left' (length_line ..)]
  rw [htake, hdrop]
  by_cases hse : src = e
  · -- nothing moves
    subst hse
    rw [memmove, if_pos (Nat.sub_self _)] at hm
    cases hm
    rw [Nat.sub_self, add_zero]
    exact (List.append_nil _).symm
  · have he := h4 (by omega)
    have hsplit := Ring.window_add b' w (dst - w) (e - src)
    rw [show w + (dst - w) = dst by omega] at hsplit
    refine hsplit.trans ?_
    congr 1
    · refine Ring.window_eq fun i hi => ?_
      exact (memmove_at hm (by omega)).trans (if_neg (by omega))
    · refine Ring.window_eq fun i hi => ?_
      refine (memmove_at hm (by omega)).trans ((if_pos (by omega)).trans ?_)
      rw [show src + (dst + i - dst) = src + i by omega]
      rfl

/-! ## The screen never touches the line -/

theorem toNat_succ (h : x.toNat + 1 < 2 ^ 32) : (x + 1).toNat = x.toNat + 1 := by
  rw [UInt32.toNat_add]; simp only [UInt32.toNat_one]; omega

theorem toNat_sub {y : UInt32} (h : y.toNat ≤ x.toNat) : (x - y).toNat = x.toNat - y.toNat :=
  UInt32.toNat_sub_of_le _ _ (UInt32.le_iff_toNat_le.2 h)

theorem toNat_pred (h : 0 < x.toNat) : (x - 1).toNat = x.toNat - 1 := by
  rw [toNat_sub (by rw [UInt32.toNat_one]; exact h), UInt32.toNat_one]

/-- What `view` and the guards read. -/
def SameLine (s s' : Input) : Prop :=
  s'.buf = s.buf ∧ s'.r = s.r ∧ s'.w = s.w ∧ s'.e = s.e ∧ s'.cursor = s.cursor ∧ s'.selectMode = s.selectMode

/-- The computation ends well or in the panic of `cgaputc`, never in an access out of range. -/
def NoOob {α : Type} (x : Except Fault α) : Prop := (∃ a, x = .ok a) ∨ x = .error .panic

theorem noOob_cgaputc (pos : Nat) (g : Glyph) : NoOob (cgaputc pos g) := by
  unfold cgaputc
  split
  · exact .inr rfl
  · split
    · exact .inl ⟨_, rfl⟩
    · exact .inl ⟨_, rfl⟩

theorem NoOob.bind {α β : Type} {x : Except Fault α} {f : α → Except Fault β} (hx : NoOob x) (hf : ∀ a, NoOob (f a)) :
    NoOob (x.bind f) := by
  rcases hx with ⟨a, rfl⟩ | rfl
  · exact hf a
  · exact .inr rfl

theorem noOob_putMany (g : Glyph) : ∀ n pos, NoOob (putMany g n pos)
  | 0, pos => .inl ⟨pos, rfl⟩
  | n + 1, pos => (noOob_cgaputc pos g).bind fun p => noOob_putMany g n p

theorem bufAt_ring (b : Buf) {i : UInt32} (h : i.toNat < 2 ^ 31) :
    bufAt b (i.toInt32.toInt.tmod INPUT_BUF) = .ok (b (ring i.toNat)) := by
  have hi : i.toInt32.toInt = (i.toNat : Int) := by
    show i.toBitVec.toInt = _
    refine BitVec.toInt_eq_toNat_of_lt ?_
    show 2 * i.toNat < 2 ^ 32
    omega
  have hmod : i.toInt32.toInt.tmod INPUT_BUF = ((i.toNat % INPUT_BUF : Nat) : Int) := by
    rw [hi, Int.tmod_eq_emod_of_nonneg (by omega)]; rfl
  have hlt : i.toNat % INPUT_BUF < INPUT_BUF := Nat.mod_lt _ (by decide)
  rw [hmod, bufAt, dif_pos ⟨by omega, by omega⟩]
  rfl

/-- The loop of `redraw_line` stays in the array while the indices are below 2^31. -/
theorem noOob_redrawCells (s : Input) : ∀ (n : Nat) (i : UInt32) (pos : Nat), i.toNat + n ≤ 2 ^ 31 →
    NoOob (redrawCells s n i pos)
  | 0, i, pos, _ => .inl ⟨pos, rfl⟩
  | n + 1, i, pos, h => by
    have hc := bufAt_ring s.buf (i := i) (by omega)
    have hi := toNat_succ (x := i) (by omega)
    simp only [redrawCells, hc]
    exact (noOob_cgaputc _ _).bind fun p => noOob_redrawCells s n (i + 1) p (by omega)

theorem noOob_redrawPos (s : Input) (h : s.e.toNat ≤ 2 ^ 31) : NoOob (redrawPos s) := by
  refine NoOob.bind ?_ fun p => ?_
  · by_cases hw : s.w.toNat ≤ s.e.toNat
    · exact noOob_redrawCells _ _ _ _ (by omega)
    · rw [Nat.sub_eq_zero_of_le (by omega)]; exact .inl ⟨_, rfl⟩
  · simp only
    split
    · exact noOob_putMany ..
    · exact .inl ⟨p, rfl⟩

/-- `redraw_line` of a line below 2^31: it accesses only the array and leaves the line alone. -/
theorem redrawLine_spec (s : Input) (h : s.e.toNat ≤ 2 ^ 31) :
    (∃ s', redrawLine s = .ok s' ∧ SameLine s s') ∨ redrawLine s = .error .panic := by
  unfold redrawLine
  rcases noOob_redrawPos s h with ⟨p, hp⟩ | hp
  · rw [hp]; exact .inl ⟨_, rfl, ⟨rfl, rfl, rfl, rfl, rfl, rfl⟩⟩
  · rw [hp]; exact .inr rfl

theorem redrawLine_eq_ok (h : redrawLine s = .ok s') : ∃ p l, s' = { s with pos := p, prevLineLen := l } := by
  obtain ⟨p, -, h⟩ := bind_eq_ok h; cases h; exact ⟨_, _, rfl⟩

theorem redrawLine_shape (s : Input) (h : s.e.toNat ≤ 2 ^ 31) :
    (∃ p l, redrawLine s = .ok { s with pos := p, prevLineLen := l }) ∨ redrawLine s = .error .panic := by
  rcases redrawLine_spec s h with ⟨s', e, -⟩ | e
  · obtain ⟨p, l, rfl⟩ := redrawLine_eq_ok e; exact .inl ⟨p, l, e⟩
  · exact .inr e

/-! ## The keys -/

/-- The indices of a line being edited. -/
structure Wf (s : Input) : Prop where
  rw : s.r.toNat ≤ s.w.toNat
  wc : s.w.toNat ≤ s.cursor.toNat
  ce : s.cursor.toNat ≤ s.e.toNat
  room : s.e.toNat - s.r.toNat < INPUT_BUF
  small : s.e.toNat ≤ 2 ^ 31
  mode : s.selectMode = .off

/-- The computation gives a well-formed state whose view is `ed`, or panics in `cgaputc`. -/
def Refines (x : Except Fault Input) (ed : Editor) : Prop :=
  (∃ s, x = .ok s ∧ Wf s ∧ view s = ed) ∨ x = .error .panic

theorem view_eq (s : Input) :
    view s = ⟨line s.buf s.w.toNat (s.e.toNat - s.w.toNat), s.cursor.toNat - s.w.toNat⟩ := rfl

theorem SameLine.wf (h : SameLine s s') (hw : Wf s) : Wf s' := by
  obtain ⟨-, h1, h2, h3, h4, h5⟩ := h
  refine ⟨?_, ?_, ?_, ?_, ?_, ?_⟩
  · rw [h1, h2]; exact hw.rw
  · rw [h2, h4]; exact hw.wc
  · rw [h4, h3]; exact hw.ce
  · rw [h3, h1]; exact hw.room
  · rw [h3]; exact hw.small
  · rw [h5]; exact hw.mode

theorem SameLine.view (h : SameLine s s') : view s' = view s := by
  obtain ⟨h0, -, h2, h3, h4, -⟩ := h; rw [view_eq, view_eq, h0, h2, h3, h4]

theorem markStart_eq (s : Input) : markStart s = { s with startPos := (markStart s).startPos } := by
  unfold markStart
  split <;> rfl

theorem record_eq (s : Input) :
    record s = { s with history := (record s).history, historyPos := (record s).historyPos } := by
  unfold record historyPush
  split <;> rfl

theorem record_historyPos (s : Input) :
    (record s).historyPos = if s.historyPos < HISTORY_SIZE then s.historyPos + 1 else s.historyPos := by
  unfold record historyPush
  split
  · exact (if_pos ‹_›).symm
  · exact (if_neg ‹_›).symm

theorem record_history (s : Input) : (record s).history = fun i =>
    if i.val = s.historyPos then s.cursor
    else if i.val < s.historyPos ∧ s.history i ≥ s.cursor then s.history i + 1 else s.history i := by
  funext i
  unfold record historyPush
  split
  · rename_i h
    by_cases hi : i.val = s.historyPos
    · obtain rfl : i = ⟨s.historyPos, h⟩ := Fin.ext hi
      rw [if_pos rfl]
      exact update_self ..
    · rw [if_neg hi]; exact update_of_ne (fun e => hi (congrArg Fin.val e)) ..
  · rename_i h
    have hi : i.val ≠ s.historyPos := fun e => h (e ▸ i.2)
    rw [if_neg hi]
    rfl

/-- The state after the insertion, with the array `b`. -/
def inserted (s : Input) (b : Buf) : Input :=
  { s with buf := b, e := s.e + 1, cursor := s.cursor + 1, history := (record s).history,
           historyPos := (record s).historyPos }

theorem insertChar_eq (s : Input) (c : UInt8) :
    insertChar s c = openGap s >>= fun b => .ok (inserted s (update b (ring s.cursor.toNat) c)) := by
  unfold insertChar inserted
  rw [record_eq]
  rfl

theorem insert_eq_ok (hacc : s.e - s.r < 128 ∧ c ≠ carriageReturn) (h : insert s c = .ok s') :
    ∃ b x y z, openGap s = .ok b ∧
      s' = { inserted s (update b (ring s.cursor.toNat) c) with startPos := x, pos := y, prevLineLen := z } := by
  rw [insert, if_pos hacc, insertChar_eq, markStart_eq] at h
  obtain ⟨t, ht, h⟩ := bind_eq_ok h
  obtain ⟨b, hb, ht⟩ := bind_eq_ok ht
  cases ht
  obtain ⟨p, l, rfl⟩ := redrawLine_eq_ok h
  refine ⟨b, (markStart s).startPos, p, l, hb, ?_⟩
  simp only [inserted, record_history, record_historyPos]

/-- Where there is room for the gap, the character goes in at the cursor, in every stretch of the ring
that holds the cursor and does not fill the ring. -/
theorem insertChar_spec (c : UInt8) (hce : s.cursor.toNat ≤ s.e.toNat) (he : s.e.toNat < 2 ^ 31)
    (hmid : s.cursor < s.e → s.e.toNat < INPUT_BUF) : ∃ b, insertChar s c = .ok (inserted s b) ∧
      ∀ a ≤ s.cursor.toNat, s.e.toNat - a < INPUT_BUF → line b a (s.e.toNat - a + 1) =
        (line s.buf a (s.e.toNat - a)).take (s.cursor.toNat - a) ++
          c :: (line s.buf a (s.e.toNat - a)).drop (s.cursor.toNat - a) := by
  rw [insertChar_eq]
  by_cases hlt : s.cursor < s.e
  · have hlt' := UInt32.lt_iff_toNat_lt.1 hlt
    have he128 := hmid hlt
    obtain ⟨b, hb⟩ := memmove_ok s.buf s.buf (s.cursor.toNat + 1) s.cursor.toNat
      (s.e.toNat - s.cursor.toNat) fun _ => by omega
    have hgap : openGap s = .ok b := by
      unfold openGap; rw [if_pos hlt, toNat_succ (by omega), toNat_sub hce, hb]
    exact ⟨_, by rw [hgap]; rfl, fun a ha _ => line_insert c ha hlt' he128 hb⟩
  · -- at the end of the line nothing moves
    have heq : s.cursor.toNat = s.e.toNat := by
      have := mt UInt32.lt_iff_toNat_lt.2 hlt; omega
    refine ⟨_, by rw [openGap, if_neg hlt]; rfl, fun a ha hlen => ?_⟩
    rw [heq, List.take_of_length_le (by simp), List.drop_eq_nil_of_le (by simp)]
    have hpush := Ring.window_push s.buf a (s.e.toNat - a) c hlen
    rwa [show a + (s.e.toNat - a) = s.e.toNat by omega] at hpush

theorem insertChar_oob (c : UInt8) (hlt : s.cursor < s.e) (he : s.e.toNat < 2 ^ 31) (hbig : INPUT_BUF ≤ s.e.toNat) :
    ∃ i, insertChar s c = .error (.oob i) := by
  have hlt' := UInt32.lt_iff_toNat_lt.1 hlt
  have hgap : ∃ i, openGap s = .error (.oob i) := by
    unfold openGap
    rw [if_pos hlt, toNat_succ (by omega), toNat_sub (by omega)]
    exact memmove_oob _ _ _ _ _ (by omega) (by omega)
  obtain ⟨i, hi⟩ := hgap
  exact ⟨i, by rw [insertChar_eq, hi]; rfl⟩

theorem room_iff (h : s.r.toNat ≤ s.e.toNat) : s.e - s.r < 128 ↔ s.e.toNat - s.r.toNat < INPUT_BUF := by
  rw [UInt32.lt_iff_toNat_lt, toNat_sub h]; rfl

theorem Printable.ne_of {d : UInt8} (h : Printable c) (hd : ¬ Printable d) : c ≠ d := by
  rintro rfl; exact hd h

/-- The default case takes the character, or panics in `cgaputc`. -/
theorem insert_spec (hacc : s.e - s.r < 128 ∧ c ≠ carriageReturn) (hce : s.cursor.toNat ≤ s.e.toNat)
    (he : s.e.toNat < 2 ^ 31) (hmid : s.cursor < s.e → s.e.toNat < INPUT_BUF) :
    ∃ b, ((∃ x y z, insert s c = .ok { inserted s b with startPos := x, pos := y, prevLineLen := z }) ∨
        insert s c = .error .panic) ∧
      ∀ a ≤ s.cursor.toNat, s.e.toNat - a < INPUT_BUF → line b a (s.e.toNat - a + 1) =
        (line s.buf a (s.e.toNat - a)).take (s.cursor.toNat - a) ++
          c :: (line s.buf a (s.e.toNat - a)).drop (s.cursor.toNat - a) := by
  obtain ⟨b, hb, hline⟩ := insertChar_spec (s := { s with startPos := (markStart s).startPos }) c hce he hmid
  refine ⟨b, ?_, hline⟩
  rw [insert, if_pos hacc, markStart_eq, hb]
  have hsucc := toNat_succ (x := s.e) (by omega)
  rcases redrawLine_shape (inserted { s with startPos := (markStart s).startPos } b)
    (by simp only [inserted]; omega) with
    ⟨p, l, h⟩ | h
  · refine .inl ⟨(markStart s).startPos, p, l, h.trans ?_⟩
    simp only [inserted, record_history, record_historyPos]
  · exact .inr h

theorem insert_refines (hw : Wf s) (hc : Printable c) (he : s.e.toNat < 2 ^ 31)
    (hfit : s.e.toNat - s.r.toNat + 1 < INPUT_BUF) (hmid : s.cursor < s.e → s.e.toNat < INPUT_BUF) :
    Refines (insert s c) ((view s).insert c) := by
  have h1 := hw.rw
  have h2 := hw.wc
  have h3 := hw.ce
  have hroom : s.e - s.r < 128 := (room_iff (by omega)).2 (by omega)
  have hsucc := toNat_succ (x := s.e) (by omega)
  have hcsucc := toNat_succ (x := s.cursor) (by omega)
  obtain ⟨b, ⟨x, y, z, h⟩ | h, hline⟩ := insert_spec ⟨hroom, hc.ne_of (by decide)⟩ h3 he hmid
  · refine .inl ⟨_, h, ⟨h1, ?_, ?_, ?_, ?_, hw.mode⟩, ?_⟩
    case refine_5 =>
      rw [view_eq, view_eq, Editor.insert, inserted]
      simp only
      rw [hsucc, hcsucc, show s.e.toNat + 1 - s.w.toNat = s.e.toNat - s.w.toNat + 1 by omega,
        hline s.w.toNat h2 (by omega)]
      simp only [Editor.mk.injEq, true_and]
      omega
    all_goals simp only [inserted]; omega
  · exact .inr h

/-- The state after the character at `p` is deleted, with the array `b`. -/
def deletedAt (s : Input) (p : UInt32) (b : Buf) : Input :=
  { s with buf := b, e := s.e - 1, cursor := p, history := (historyAdjustAfterDelete s p).history }

theorem backspace_eq (s : Input) : backspace s = if s.cursor > s.w then
    memmove s.buf s.buf (s.cursor - 1).toNat s.cursor.toNat (s.e - s.cursor).toNat >>= fun b =>
      redrawLine (deletedAt s (s.cursor - 1) b) else .ok s := rfl

/-- The rest of the line moves down over the character before `q`, if it ends inside the array. -/
theorem delete_spec {q : Nat} (hq : 0 < q) (hqe : q ≤ s.e.toNat) (hmid : q < s.e.toNat → s.e.toNat ≤ INPUT_BUF) :
    ∃ b, memmove s.buf s.buf (q - 1) q (s.e.toNat - q) = .ok b ∧
      ∀ a < q, line b a (s.e.toNat - 1 - a) = (line s.buf a (s.e.toNat - a)).eraseIdx (q - 1 - a) := by
  obtain ⟨b, hb⟩ := memmove_ok s.buf s.buf (q - 1) q (s.e.toNat - q) fun h => by
    have := hmid (by omega); omega
  refine ⟨b, hb, fun a ha => ?_⟩
  have hclose := line_close (w := a) (by omega) (by omega) hqe hmid hb
  rw [List.eraseIdx_eq_take_drop_succ, show s.e.toNat - 1 - a = q - 1 - a + (s.e.toNat - q) by omega, hclose,
    show q - 1 - a + 1 = q - a by omega]

/-- Backspace deletes the character before the cursor, or panics in `cgaputc`. -/
theorem backspace_spec (hlt : s.w < s.cursor) (hce : s.cursor.toNat ≤ s.e.toNat) (he : s.e.toNat ≤ 2 ^ 31)
    (hmid : s.cursor < s.e → s.e.toNat ≤ INPUT_BUF) :
    ∃ b, ((∃ y z, backspace s = .ok { deletedAt s (s.cursor - 1) b with pos := y, prevLineLen := z }) ∨
        backspace s = .error .panic) ∧
      ∀ a < s.cursor.toNat, line b a (s.e.toNat - 1 - a) =
        (line s.buf a (s.e.toNat - a)).eraseIdx (s.cursor.toNat - 1 - a) := by
  have hlt' := UInt32.lt_iff_toNat_lt.1 hlt
  have hpred := toNat_pred (x := s.e) (by omega)
  obtain ⟨b, hb, hline⟩ := delete_spec (s := s) (q := s.cursor.toNat) (by omega) hce
    fun h => hmid (UInt32.lt_iff_toNat_lt.2 h)
  refine ⟨b, ?_, hline⟩
  rw [backspace_eq, if_pos hlt, toNat_pred (by omega), toNat_sub hce, hb]
  exact redrawLine_shape (deletedAt s (s.cursor - 1) b) (by simp only [deletedAt]; omega)

theorem backspace_refines (hw : Wf s) (hmid : s.w < s.cursor → s.cursor < s.e → s.e.toNat ≤ INPUT_BUF) :
    Refines (backspace s) (view s).backspace := by
  have h1 := hw.rw
  have h2 := hw.wc
  have h3 := hw.ce
  have h4 := hw.room
  have h5 := hw.small
  by_cases hlt : s.w < s.cursor
  · have hlt' := UInt32.lt_iff_toNat_lt.1 hlt
    have hpred := toNat_pred (x := s.cursor) (by omega)
    have hepred := toNat_pred (x := s.e) (by omega)
    obtain ⟨b, ⟨y, z, h⟩ | h, hline⟩ := backspace_spec hlt h3 h5 (hmid hlt)
    · refine .inl ⟨_, h, ⟨h1, ?_, ?_, ?_, ?_, hw.mode⟩, ?_⟩
      case refine_5 =>
        rw [view_eq, view_eq, Editor.backspace, deletedAt]
        simp only
        rw [hpred, hepred, hline s.w.toNat hlt', if_pos (by omega)]
        simp only [Editor.mk.injEq]
        refine ⟨?_, by omega⟩
        congr 1
        omega
      all_goals simp only [deletedAt]; omega
    · exact .inr h
  · have hle := mt UInt32.lt_iff_toNat_lt.2 hlt
    rw [backspace_eq, if_neg hlt]
    refine .inl ⟨s, rfl, hw, ?_⟩
    rw [Editor.backspace, if_neg]
    rw [view_eq]
    simp only
    omega

theorem line_zero (b : Buf) (w : Nat) : line b w 0 = [] := rfl

theorem killLine_refines (hw : Wf s) : Refines (killLine s) {} := by
  unfold killLine
  rcases noOob_putMany .backspace (s.e - s.w).toNat s.pos with ⟨p, hp⟩ | hp
  · rw [hp]
    have h1 := hw.rw
    have h2 := hw.wc
    have h3 := hw.ce
    have h4 := hw.room
    have h5 := hw.small
    refine .inl ⟨_, rfl, ⟨h1, Nat.le_refl _, Nat.le_refl _, ?_, ?_, hw.mode⟩, ?_⟩
    · simp only; omega
    · simp only; omega
    · rw [view_eq]; simp only [Nat.sub_self, line_zero]
  · rw [hp]; exact .inr rfl

theorem enter_refines (hw : Wf s) (he : s.e.toNat < 2 ^ 31) (hfit : s.e.toNat - s.r.toNat + 1 < INPUT_BUF) :
    Refines (enter s) {} := by
  unfold enter
  rcases noOob_cgaputc s.pos .newline with ⟨p, hp⟩ | hp
  · show Refines (cgaputc s.pos .newline >>= _) _
    rw [hp]
    have h1 := hw.rw
    have h2 := hw.wc
    have h3 := hw.ce
    refine .inl ⟨_, rfl, ⟨?_, Nat.le_refl _, Nat.le_refl _, ?_, ?_, rfl⟩, ?_⟩
    · simp only; rw [toNat_succ (by omega)]; omega
    · simp only; rw [toNat_succ (by omega)]; omega
    · simp only; rw [toNat_succ (by omega)]; omega
    · rw [view_eq]; simp only [Nat.sub_self, line_zero]
  · show Refines (cgaputc s.pos .newline >>= _) _; rw [hp]; exact .inr rfl

/-! ## Cursor motion -/

/-- Only the cursor moves, to a place `i` of the line. -/
def MovesTo (s s' : Input) (i : Nat) : Prop :=
  ∃ q p, s' = { s with cursor := q, pos := p } ∧ q.toNat = s.w.toNat + i ∧ s.w.toNat + i ≤ s.e.toNat

theorem MovesTo.refines (hw : Wf s) (h : MovesTo s s' i) : Wf s' ∧ view s' = { view s with cursor := i } := by
  obtain ⟨q, p, rfl, hq, hle⟩ := h
  refine ⟨⟨hw.rw, ?_, ?_, hw.room, hw.small, hw.mode⟩, ?_⟩
  · simp only; omega
  · simp only; omega
  · rw [view_eq, view_eq]; simp only [Editor.mk.injEq, true_and]; omega

section
variable (hwc : s.w.toNat ≤ s.cursor.toNat) (hce : s.cursor.toNat ≤ s.e.toNat) (hsmall : s.e.toNat ≤ 2 ^ 31)
include hwc hce

theorem movesTo_self : MovesTo s s (view s).cursor := by
  refine ⟨s.cursor, s.pos, rfl, ?_, ?_⟩
  · rw [view_eq]; simp only; omega
  · rw [view_eq]; simp only; omega

theorem cursorLeft_moves : MovesTo s (cursorLeft s) ((view s).cursor - 1) := by
  unfold cursorLeft
  split
  · rename_i hlt
    have hlt' := UInt32.lt_iff_toNat_lt.1 hlt
    refine ⟨s.cursor - 1, _, rfl, ?_, ?_⟩
    · rw [toNat_pred (by omega), view_eq]; simp only; omega
    · rw [view_eq]; simp only; omega
  · rename_i hlt
    have hle := mt UInt32.lt_iff_toNat_lt.2 hlt
    have h0 : (view s).cursor - 1 = (view s).cursor := by rw [view_eq]; simp only; omega
    rw [h0]
    exact movesTo_self hwc hce

include hsmall

theorem cursorRight_moves : MovesTo s (cursorRight s)
    (if (view s).cursor < (view s).text.length then (view s).cursor + 1 else (view s).cursor) := by
  have hlen : (view s).text.length = s.e.toNat - s.w.toNat := by rw [view_eq]; simp
  rw [hlen]
  unfold cursorRight
  split
  · rename_i hlt
    have hlt' := UInt32.lt_iff_toNat_lt.1 hlt
    rw [if_pos (by rw [view_eq]; simp only; omega)]
    refine ⟨s.cursor + 1, _, rfl, ?_, ?_⟩
    · rw [toNat_succ (by omega), view_eq]; simp only; omega
    · rw [view_eq]; simp only; omega
  · rename_i hlt
    have hle := mt UInt32.lt_iff_toNat_lt.2 hlt
    rw [if_neg (by rw [view_eq]; simp only; omega)]
    exact movesTo_self hwc hce

end

variable {p r : Nat → Bool}

theorem scanUp_shift (h : ∀ j < m, p (w + j) = r j) : ∀ n i, scanUp p (w + m) n (w + i) = w + scanUp r m n i
  | 0, i => rfl
  | n + 1, i => by
    simp only [scanUp]
    by_cases hlt : i < m
    · rw [h i hlt]
      by_cases hp : r i = true
      · rw [if_pos ⟨by omega, hp⟩, if_pos ⟨hlt, hp⟩, add_assoc]
        exact scanUp_shift h n (i + 1)
      · rw [if_neg (fun x => hp x.2), if_neg (fun x => hp x.2)]
    · rw [if_neg (fun x => hlt (by omega)), if_neg (fun x => hlt x.1)]

theorem scanUp_bounds (p : Nat → Bool) (m : Nat) : ∀ n i, i ≤ m → i ≤ scanUp p m n i ∧ scanUp p m n i ≤ m
  | 0, i, h => ⟨Nat.le_refl i, h⟩
  | n + 1, i, h => by
    simp only [scanUp]
    split
    · rename_i hc; have := scanUp_bounds p m n (i + 1) (by omega); omega
    · exact ⟨Nat.le_refl i, h⟩

theorem scanDown_shift : ∀ i, (∀ j < i, p (w + j) = r j) → scanDown p w (w + i) = w + scanDown r 0 i
  | 0, _ => by
    rcases w with _ | w
    · rfl
    · simp [scanDown]
  | i + 1, h => by
    show scanDown p w (w + i + 1) = _
    simp only [scanDown]
    rw [h i (by omega)]
    by_cases hp : r i = true
    · rw [if_pos ⟨by omega, hp⟩, if_pos ⟨by omega, hp⟩]
      exact scanDown_shift i fun j hj => h j (by omega)
    · rw [if_neg (fun x => hp x.2), if_neg (fun x => hp x.2)]; omega

theorem scanDown_le (p : Nat → Bool) (lo : Nat) : ∀ i, scanDown p lo i ≤ i
  | 0 => Nat.le_refl 0
  | i + 1 => by
    simp only [scanDown]
    split
    · have := scanDown_le p lo i; omega
    · exact Nat.le_refl _

theorem nextWordPos_shift (h : ∀ j < m, p (w + j) = r j) : nextWordPos p (w + m) (w + i) = w + nextWordPos r m i := by
  have hn : ∀ j < m, (!p (w + j)) = !r j := fun j hj => by rw [h j hj]
  have hsub : ∀ a, w + m - (w + a) = m - a := fun a => by omega
  simp only [nextWordPos]
  rw [hsub, scanUp_shift h, hsub, scanUp_shift (p := fun j => !p j) hn, hsub, scanUp_shift h]

theorem prevWordPos_shift (h : ∀ j < i, p (w + j) = r j) : prevWordPos p w (w + i) = w + prevWordPos r 0 i := by
  have hn : ∀ a ≤ i, ∀ j < a, (!p (w + j)) = !r j := fun a ha j hj => by rw [h j (by omega)]
  simp only [prevWordPos]
  by_cases h0 : i = 0
  · subst h0
    rw [if_neg (by omega), if_neg (by omega)]
    exact scanDown_shift (p := fun j => !p j) 0 (hn 0 (Nat.le_refl 0))
  · have hp : p (w + i - 1) = r (i - 1) := by
      rw [← h (i - 1) (by omega)]; congr 1; omega
    rw [hp]
    by_cases hs : r (i - 1) = true
    · rw [if_pos ⟨.inr hs, by omega⟩, if_pos ⟨.inr hs, by omega⟩, show w + i - 1 = w + (i - 1) by omega,
        scanDown_shift (i - 1) fun j hj => h j (by omega)]
      exact scanDown_shift (p := fun j => !p j) _ (hn _ (by have := scanDown_le r 0 (i - 1); omega))
    · rw [if_neg, if_neg]
      · exact scanDown_shift (p := fun j => !p j) i (hn i (Nat.le_refl i))
      · rintro ⟨h1 | h1, -⟩
        · exact h0 h1
        · exact hs h1
      · rintro ⟨h1 | h1, -⟩
        · omega
        · exact hs h1

theorem nextWordPos_bounds (p : Nat → Bool) (h : i ≤ m) : i ≤ nextWordPos p m i ∧ nextWordPos p m i ≤ m := by
  simp only [nextWordPos]
  have h1 := scanUp_bounds p m (m - i) i h
  have h2 := scanUp_bounds (fun j => !p j) m (m - scanUp p m (m - i) i) _ h1.2
  have h3 := scanUp_bounds p m (m - scanUp (fun j => !p j) m (m - scanUp p m (m - i) i) (scanUp p m (m - i) i))
    _ h2.2
  omega

theorem prevWordPos_le (p : Nat → Bool) (lo i : Nat) : prevWordPos p lo i ≤ i := by
  simp only [prevWordPos]
  split
  · have h1 := scanDown_le p lo (i - 1)
    have h2 := scanDown_le (fun j => !p j) lo (scanDown p lo (i - 1))
    omega
  · exact scanDown_le ..

theorem spaceAt_view (s : Input) {j : Nat} (h : j < s.e.toNat - s.w.toNat) :
    spaceAt s.buf (s.w.toNat + j) = (view s).sp j := by
  rw [spaceAt, Editor.sp, view_eq]
  simp only [getElem?_line, if_pos h, Option.some.injEq]

section
variable (hwc : s.w.toNat ≤ s.cursor.toNat) (hce : s.cursor.toNat ≤ s.e.toNat) (hsmall : s.e.toNat ≤ 2 ^ 31)
include hwc hce hsmall

theorem wordRight_moves : MovesTo s (wordRight s)
    (if nextWordPos (view s).sp (view s).text.length (view s).cursor < (view s).text.length then
      nextWordPos (view s).sp (view s).text.length (view s).cursor else (view s).cursor) := by
  have hlen : (view s).text.length = s.e.toNat - s.w.toNat := by rw [view_eq]; simp
  have hcur : (view s).cursor = s.cursor.toNat - s.w.toNat := rfl
  have hb := nextWordPos_bounds (view s).sp (m := s.e.toNat - s.w.toNat) (i := s.cursor.toNat - s.w.toNat) (by omega)
  have hpos : nextWordPos (spaceAt s.buf) s.e.toNat s.cursor.toNat =
      s.w.toNat + nextWordPos (view s).sp (s.e.toNat - s.w.toNat) (s.cursor.toNat - s.w.toNat) := by
    have := nextWordPos_shift (p := spaceAt s.buf) (r := (view s).sp) (w := s.w.toNat) (m := s.e.toNat - s.w.toNat)
      (i := s.cursor.toNat - s.w.toNat) fun j hj => spaceAt_view s hj
    rw [← this]
    congr 1 <;> omega
  unfold wordRight
  rw [hpos, hlen, hcur]
  simp only
  split
  · rw [if_pos (by omega)]
    refine ⟨_, _, rfl, ?_, by omega⟩
    rw [UInt32.toNat_ofNat_of_lt' (by simp only [UInt32.size]; omega)]
  · rw [if_neg (by omega)]; exact movesTo_self hwc hce

theorem wordLeft_moves : MovesTo s (wordLeft s) (prevWordPos (view s).sp 0 (view s).cursor) := by
  have hcur : (view s).cursor = s.cursor.toNat - s.w.toNat := rfl
  have hb := prevWordPos_le (view s).sp 0 (s.cursor.toNat - s.w.toNat)
  have hpos : prevWordPos (spaceAt s.buf) s.w.toNat s.cursor.toNat =
      s.w.toNat + prevWordPos (view s).sp 0 (s.cursor.toNat - s.w.toNat) := by
    have := prevWordPos_shift (p := spaceAt s.buf) (r := (view s).sp) (w := s.w.toNat)
      (i := s.cursor.toNat - s.w.toNat) fun j hj => spaceAt_view s (by omega)
    rw [← this]
    congr 1; omega
  unfold wordLeft
  rw [hpos, hcur]
  refine ⟨_, _, rfl, ?_, by omega⟩
  rw [UInt32.toNat_ofNat_of_lt' (by simp only [UInt32.size]; omega)]

end

/-! ## One key, and whole runs -/

/-- One round of `consoleintr` ends in a well-formed state whose view is `ed`, or in the panic. -/
def KeyRefines (x : Except Fault Outcome) (ed : Editor) : Prop :=
  (∃ o, x = .ok o ∧ Wf o.s ∧ view o.s = ed) ∨ x = .error .panic

theorem Refines.key {x : Except Fault Input} (h : Refines x ed) (wake : Bool) :
    KeyRefines (x >>= fun s => .ok { s := s, wake := wake }) ed := by
  rcases h with ⟨s, rfl, hw, hv⟩ | rfl
  · exact .inl ⟨_, rfl, hw, hv⟩
  · exact .inr rfl

theorem Printable.ne (h : Printable c) : c ≠ 0 ∧ c ≠ ctrlP ∧ c ≠ ctrlU ∧ ¬ (c = ctrlH ∨ c = delete) ∧
    c ≠ ctrlZ ∧ c ≠ ctrlS ∧ c ≠ ctrlV ∧ c ≠ keyLf ∧ c ≠ keyRt ∧ c ≠ ctrlD ∧ c ≠ ctrlA ∧ c ≠ newline ∧ c ≠ tab := by
  refine ⟨?_, ?_, ?_, ?_, ?_, ?_, ?_, ?_, ?_, ?_, ?_, ?_, ?_⟩
  case refine_4 => rintro (rfl | rfl) <;> exact absurd h (by decide)
  all_goals rintro rfl; exact absurd h (by decide)

theorem key_printable (hc : Printable c) (hsel : s.selectMode ≠ .selected) :
    key s c = insert s c >>= fun s => .ok { s := s } := by
  obtain ⟨n0, n1, n2, n3, n4, n5, n6, n7, n8, n9, n10, n11, n12⟩ := hc.ne
  simp only [key, n0, n1, n2, n3, n4, n5, n6, n7, n8, n9, n10, n11, n12, hsel, if_false]

theorem key_backspace (hc : c = ctrlH ∨ c = delete) (hsel : s.selectMode ≠ .selected) :
    key s c = backspace { s with tabPressCount := 0 } >>= fun s => .ok { s := s } := by
  rcases hc with rfl | rfl
  all_goals simp +decide only [key, hsel, if_true, if_false]

theorem key_newline (hsel : s.selectMode ≠ .selected) :
    key s newline = enter s >>= fun s => .ok { s := s, wake := true } := by
  simp +decide only [key, hsel, if_false, if_true]

/-- The keys that move the cursor. -/
def MotionKey (c : UInt8) : Prop := c = keyLf ∨ c = keyRt ∨ c = ctrlA ∨ c = ctrlD

instance (c : UInt8) : Decidable (MotionKey c) := by unfold MotionKey; infer_instance

theorem key_motion (hc : MotionKey c) (hsel : s.selectMode ≠ .selected) (hwc : s.w.toNat ≤ s.cursor.toNat)
    (hce : s.cursor.toNat ≤ s.e.toNat) (hsmall : s.e.toNat ≤ 2 ^ 31) :
    ∃ s', key s c = .ok { s := s' } ∧ MovesTo { s with tabPressCount := 0 } s' ((view s).key c).cursor := by
  rcases hc with rfl | rfl | rfl | rfl
  all_goals simp +decide only [key, Editor.key, hsel, if_true, if_false]
  · exact ⟨_, rfl, cursorLeft_moves (s := { s with tabPressCount := 0 }) hwc hce⟩
  · exact ⟨_, rfl, cursorRight_moves (s := { s with tabPressCount := 0 }) hwc hce hsmall⟩
  · exact ⟨_, rfl, wordLeft_moves (s := { s with tabPressCount := 0 }) hwc hce hsmall⟩
  · exact ⟨_, rfl, wordRight_moves (s := { s with tabPressCount := 0 }) hwc hce hsmall⟩

theorem Editor.key_motion (ed : Editor) (hc : MotionKey c) : ed.key c = { ed with cursor := (ed.key c).cursor } := by
  rcases hc with rfl | rfl | rfl | rfl
  all_goals simp +decide only [Editor.key, if_true, if_false]

theorem key_refines (hw : Wf s) (hc : EditKey c) (hfit : Fits s c) (hr : EditsInRange (s, ed) (.key c)) :
    KeyRefines (key s c) ((view s).key c) := by
  obtain ⟨he, hins, hdel⟩ := hr
  have hsel : s.selectMode ≠ .selected := by rw [hw.mode]; nofun
  -- most keys first reset the completion counter
  have ht : SameLine s { s with tabPressCount := 0 } := ⟨rfl, rfl, rfl, rfl, rfl, rfl⟩
  have hwt := ht.wf hw
  have hvt := ht.view
  have hmotion : ∀ {d : UInt8}, MotionKey d → KeyRefines (key s d) ((view s).key d) := by
    intro d hd
    obtain ⟨s', hk, hm⟩ := key_motion hd hsel hw.wc hw.ce hw.small
    have hview := hm.refines hwt
    rw [(view s).key_motion hd]
    exact .inl ⟨_, hk, hview⟩
  rcases hc with hp | rfl | rfl | rfl | rfl | rfl | rfl | rfl | rfl
  · obtain ⟨n0, n1, n2, n3, n4, n5, n6, n7, n8, n9, n10, n11, n12⟩ := hp.ne
    have hk : (view s).key c = (view s).insert c := by
      simp only [Editor.key, n2, n3, n7, n8, n9, n10, n11, or_self, if_false]
    rw [key_printable hp hsel, hk]
    exact (insert_refines hw hp he (hfit (.inl hp)) (hins hp)).key false
  · rw [key_backspace (.inl rfl) hsel, ← hvt]
    exact (backspace_refines hwt (hdel (.inl rfl))).key false
  · rw [key_backspace (.inr rfl) hsel, ← hvt]
    exact (backspace_refines hwt (hdel (.inr rfl))).key false
  · exact hmotion (.inl rfl)
  · exact hmotion (.inr (.inl rfl))
  · exact hmotion (.inr (.inr (.inl rfl)))
  · exact hmotion (.inr (.inr (.inr rfl)))
  · simpa +decide only [key, Editor.key, hsel, if_true, if_false] using (killLine_refines hwt).key false
  · simpa +decide only [key, Editor.key, hsel, if_true, if_false] using (enter_refines hw he (hfit (.inr rfl))).key true

/-- `consoleread` moves only the read index, up to the write index at most. -/
theorem consoleread_spec (target : Nat) : ∀ (n : Nat) (s : Input) (out : List UInt8), Wf s →
    ∃ r : UInt32, (consoleread target n s out).1 = { s with r := r } ∧ Wf { s with r := r }
  | 0, s, out, hw => ⟨s.r, rfl, hw⟩
  | n + 1, s, out, hw => by
    unfold consoleread
    split
    · exact ⟨s.r, rfl, hw⟩
    · rename_i hne
      have h1 := hw.rw
      have h2 := hw.wc
      have h3 := hw.ce
      have h4 := hw.room
      have h5 := hw.small
      have hlt : s.r.toNat < s.w.toNat := by
        refine Nat.lt_of_le_of_ne h1 fun e => hne ?_
        exact UInt32.toNat_inj.1 e
      have hw' : Wf { s with r := s.r + 1 } := by
        refine ⟨?_, h2, h3, ?_, h5, hw.mode⟩
        · simp only; rw [toNat_succ (by omega)]; omega
        · simp only; rw [toNat_succ (by omega)]; omega
      simp only
      split
      · split
        · exact ⟨s.r, rfl, hw⟩
        · exact ⟨s.r + 1, rfl, hw'⟩
      · split
        · exact ⟨s.r + 1, rfl, hw'⟩
        · exact consoleread_spec target n { s with r := s.r + 1 } _ hw'

/-- In a run whose edits are in range, the view of the console is the abstract editor. -/
theorem wf_reach (hr : Reach lineInit lineStep EditsInRange (s, ed)) : Wf s ∧ view s = ed := by
  refine Reach.inv (P := fun x => Wf x.1 ∧ view x.1 = x.2) ?_ ?_ hr
  · rintro _ ⟨pos, rfl⟩
    exact ⟨⟨Nat.le_refl 0, Nat.le_refl 0, Nat.le_refl 0, Nat.zero_lt_succ 127, Nat.zero_le _, rfl⟩, rfl⟩
  · rintro ⟨s, ed⟩ a ⟨s', ed'⟩ ⟨hw, hv⟩ hok hs
    cases a with
    | key c =>
      simp only [lineStep] at hs
      split at hs
      · rename_i hc
        rcases key_refines hw hc.1 hc.2 hok with ⟨o, e, hw', hv'⟩ | e
        · rw [e] at hs
          obtain ⟨rfl, rfl⟩ := Prod.mk.inj (Option.some.inj hs)
          exact ⟨hw', by rw [hv', hv]⟩
        · rw [e] at hs; cases hs
      · cases hs
    | read target n =>
      obtain ⟨h1, h2⟩ := Prod.mk.inj (Option.some.inj hs)
      obtain ⟨r, e, hw'⟩ := consoleread_spec target n s [] hw
      have e' : s' = { s with r := r } := h1.symm.trans e
      subst e'
      exact ⟨hw', hv.trans h2⟩

/-- The line editor refines the list editor in every run of editing keys and reads whose edits are
in range: the pending line and the cursor are the abstract ones, and no access leaves `input.buf`.
An edit in the middle of the line that is not in range does leave it. -/
theorem editor_refines (s : Input) (ed : Editor) (hr : Reach lineInit lineStep EditsInRange (s, ed)) :
    view s = ed ∧
    (∀ c, EditKey c → Fits s c → EditsInRange (s, ed) (.key c) → ∀ i, key s c ≠ .error (.oob i)) ∧
    (∀ c, Fits s c → s.e.toNat < 2 ^ 31 → Printable c → s.cursor < s.e → INPUT_BUF ≤ s.e.toNat →
      ∃ i, key s c = .error (.oob i)) ∧
    (∀ c, s.e.toNat < 2 ^ 31 → c = ctrlH ∨ c = delete → s.w < s.cursor → s.cursor < s.e → INPUT_BUF < s.e.toNat →
      ∃ i, key s c = .error (.oob i)) := by
  obtain ⟨hw, hv⟩ := wf_reach hr
  have h1 := hw.rw
  have h2 := hw.wc
  have h3 := hw.ce
  have hsel : s.selectMode ≠ .selected := by rw [hw.mode]; nofun
  refine ⟨hv, fun c hc hfit hin i hi => ?_, fun c hfit he hp hlt hbig => ?_, fun c he hc hlt1 hlt2 hbig => ?_⟩
  · rcases key_refines hw hc hfit hin with ⟨o, e, -⟩ | e
    · rw [e] at hi; cases hi
    · rw [e] at hi; cases hi
  · have hroom := (room_iff (s := s) (by omega)).2 (by have := hfit (.inl hp); omega)
    rw [key_printable hp hsel, insert, if_pos ⟨hroom, hp.ne_of (by decide)⟩, markStart_eq]
    obtain ⟨i, hi⟩ := insertChar_oob (s := { s with startPos := (markStart s).startPos }) c hlt he hbig
    exact ⟨i, by rw [hi]; rfl⟩
  · have hlt1' := UInt32.lt_iff_toNat_lt.1 hlt1
    have hlt2' := UInt32.lt_iff_toNat_lt.1 hlt2
    have hmove : ∃ i, memmove s.buf s.buf (s.cursor - 1).toNat s.cursor.toNat (s.e - s.cursor).toNat =
        .error (.oob i) := by
      rw [toNat_pred (by omega), toNat_sub (by omega)]
      exact memmove_oob _ _ _ _ _ (by omega) (by omega)
    obtain ⟨i, hi⟩ := hmove
    have hback : backspace { s with tabPressCount := 0 } = .error (.oob i) := by
      rw [backspace_eq, if_pos hlt1]; simp only [hi]; rfl
    exact ⟨i, by rw [key_backspace hc hsel, hback]; rfl⟩

/-- A character is typed, and another one before it. -/
theorem editor_refines_typed :
    ∃ s, Reach lineInit lineStep EditsInRange (s, ⟨[98, 97], 1⟩) ∧ view s = ⟨[98, 97], 1⟩ := by
  have hrun : (runActs (guarded lineStep EditsInRange) ({ pos := 0 }, {}) [.key 97, .key keyLf, .key 98]).any
      (fun x => decide (x.2 = ⟨[98, 97], 1⟩)) = true := by decide +kernel
  obtain ⟨⟨s, ed⟩, hr, hed⟩ := exists_reach_of_guarded_run lineInit EditsInRange ⟨0, rfl⟩ _ _ hrun
  obtain rfl : ed = ⟨[98, 97], 1⟩ := of_decide_eq_true hed
  exact ⟨s, hr, (editor_refines s _ hr).1⟩

/-- Empty lines, read as they are entered, until the ring is about to wrap; then a short line with
the cursor before its last character. -/
def wrapKeys : List LineAct :=
  (List.replicate 126 [LineAct.key newline, .read 128 128]).flatten ++ [.key 97, .key 98, .key 99, .key keyLf]

/-- An insertion in the middle of a line behind the wrap moves bytes past the end of `input.buf`. -/
theorem insert_leaves_buffer :
    ∃ s ed i, Reachable lineInit lineStep (s, ed) ∧ EditKey 100 ∧ Fits s 100 ∧ key s 100 = .error (.oob i) := by
  have hrun : (runActs lineStep ({ pos := 0 }, {}) wrapKeys).any (fun x => decide (Fits x.1 100) &&
      match key x.1 100 with
      | .error (.oob _) => true
      | _ => false) = true := by decide +kernel
  obtain ⟨⟨s, ed⟩, hr, hs⟩ := exists_reachable_of_run lineInit ⟨0, rfl⟩ _ _ hrun
  rw [Bool.and_eq_true] at hs
  obtain ⟨hfit, hk⟩ := hs
  split at hk
  · rename_i i he; exact ⟨s, ed, i, hr, by decide, of_decide_eq_true hfit, he⟩
  · cases hk

end Xv6.Console
