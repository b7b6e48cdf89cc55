/-
Undo. `insert_history` is a stack of positions, one for each insertion; every edit renumbers them and
Ctrl-Z deletes the character at the last one. Beside the console runs a text whose characters carry
the number of their insertion, on which undo deletes the newest. The two agree as long as Ctrl-Z finds
the newest character in the line to be that of the last entry: Backspace and Ctrl-U delete characters
and leave their entries on the stack.
-/
import Xv6.Console.Redraw
import Mathlib.Data.List.InsertIdx

namespace Xv6.Console

open Base

/-! ## The abstract editor -/

/-- A text with the number of each character's insertion, and the insertions not undone. -/
structure Tagged where
  text : List (UInt8 × Nat) := []
  cursor : Nat := 0
  next : Nat := 0
  stack : List Nat := []
  deriving DecidableEq, Repr

namespace Tagged

def view (g : Tagged) : Editor := ⟨g.text.map Prod.fst, g.cursor⟩

/-- The place of the character inserted last. -/
def newest (l : List (UInt8 × Nat)) : Nat := l.findIdx fun x => l.all fun y => decide (y.2 ≤ x.2)

def insert (g : Tagged) (c : UInt8) : Tagged :=
  { text := g.text.insertIdx g.cursor (c, g.next), cursor := g.cursor + 1, next := g.next + 1,
    stack := g.stack ++ [g.next] }

/-- The character at `i` goes, and the cursor moves there. -/
def delete (g : Tagged) (i : Nat) : Tagged := { g with text := g.text.eraseIdx i, cursor := i }

def pop (g : Tagged) : Tagged := { g with stack := g.stack.dropLast }

def undo (g : Tagged) : Tagged := if g.text = [] then g.pop else (g.delete (newest g.text)).pop

def key (g : Tagged) (c : UInt8) : Tagged :=
  if c = ctrlU then { g with text := [], cursor := 0 }
  else if c = ctrlH ∨ c = Console.delete then if 0 < g.cursor then g.delete (g.cursor - 1) else g
  else if c = ctrlZ then g.undo
  else if MotionKey c then { g with cursor := (g.view.key c).cursor }
  else g.insert c

end Tagged

/-! ## Runs -/

/-- The keys of a line that is not entered. -/
def UndoKey (c : UInt8) : Prop := Printable c ∨ (c = ctrlH ∨ c = delete) ∨ MotionKey c ∨ c = ctrlU ∨ c = ctrlZ

instance (c : UInt8) : Decidable (UndoKey c) := by unfold UndoKey; infer_instance

/-- The key is inserted. -/
def Takes (s : Input) (c : UInt8) : Prop := Printable c ∧ s.e - s.r < 128

instance (s : Input) (c : UInt8) : Decidable (Takes s c) := inferInstanceAs (Decidable (_ ∧ _))

/-- The console and the text side by side, for fewer than `HISTORY_SIZE` insertions. -/
def undoStep (x : Input × Tagged) : LineAct → Option (Input × Tagged)
  | .key c =>
    if UndoKey c ∧ (Takes x.1 c → x.2.next + 1 < HISTORY_SIZE) then
      (key x.1 c).toOption.map fun o => (o.s, if Printable c ∧ ¬ Takes x.1 c then x.2 else x.2.key c)
    else none
  | .read target n => some ((consoleread target n x.1 []).1, x.2)

/-- The start of a line. -/
def undoInit (x : Input × Tagged) : Prop :=
  x.1.w = x.1.e ∧ x.1.cursor = x.1.e ∧ x.1.e.toNat ≤ 2 ^ 31 ∧ x.1.selectMode = .off ∧ x.1.historyPos = 0 ∧ x.2 = {}

/-- The newest character of the line is that of the last insertion not undone, and what lies behind it
ends inside the array. -/
def UndoFinds (s : Input) (g : Tagged) : Prop :=
  g.text = [] ∨ (g.text[Tagged.newest g.text]?.map Prod.snd = g.stack.getLast? ∧
    (Tagged.newest g.text + 1 < g.text.length → s.e.toNat ≤ INPUT_BUF))

instance (s : Input) (g : Tagged) : Decidable (UndoFinds s g) := inferInstanceAs (Decidable (_ ∨ _ ∧ _))

/-- Edits are in range, and Ctrl-Z finds its character. -/
def UndoInRange (x : Input × Tagged) (a : LineAct) : Prop :=
  EditsInRange (x.1, x.2.view) a ∧ (a = .key ctrlZ → UndoFinds x.1 x.2)

instance (x : Input × Tagged) (a : LineAct) : Decidable (UndoInRange x a) := inferInstanceAs (Decidable (_ ∧ _))

theorem take_cons_drop {α : Type} (a : α) :
    ∀ (l : List α) (i : Nat), i ≤ l.length → l.take i ++ a :: l.drop i = l.insertIdx i a
  | l, 0, _ => rfl
  | [], i + 1, h => absurd h (Nat.not_succ_le_zero i)
  | x :: l, i + 1, h => by
    rw [List.take_succ_cons, List.drop_succ_cons, List.insertIdx_succ_cons, List.cons_append,
      take_cons_drop a l i (Nat.le_of_succ_le_succ h)]

/-! ## The invariant -/

/-- The line is the text, and every character of it has its entry in the history. -/
structure Tracks (s : Input) (g : Tagged) : Prop where
  wc : s.w.toNat ≤ s.cursor.toNat
  ce : s.cursor.toNat ≤ s.e.toNat
  small : s.e.toNat ≤ 2 ^ 31
  mode : s.selectMode = .off
  view : view s = g.view
  count : g.text.length ≤ g.next
  few : g.next < HISTORY_SIZE
  depth : s.historyPos = g.stack.length
  depth_le : g.stack.length ≤ g.next
  sorted : g.stack.Pairwise (· < ·)
  fresh : ∀ n ∈ g.stack, n < g.next
  bounds : ∀ i : Fin HISTORY_SIZE, i.val < g.stack.length →
    s.w.toNat ≤ (s.history i).toNat ∧ (s.history i).toNat ≤ s.w.toNat + g.next
  entry : ∀ i x, g.text[i]? = some x → ∃ k : Fin HISTORY_SIZE, g.stack[k.val]? = some x.2 ∧
    (s.history k).toNat = s.w.toNat + i

variable {s : Input} {g : Tagged}

namespace Tracks

theorem screen (h : Tracks s g) (x y : Nat) (z : UInt32) (n : Int) (r : UInt32) :
    Tracks { s with startPos := x, pos := y, prevLineLen := z, tabPressCount := n, r := r } g :=
  ⟨h.wc, h.ce, h.small, h.mode, h.view, h.count, h.few, h.depth, h.depth_le, h.sorted, h.fresh, h.bounds, h.entry⟩

theorem length_text (h : Tracks s g) : g.text.length = s.e.toNat - s.w.toNat := by
  have hlen := congrArg (List.length ∘ Editor.text) h.view
  simp only [Function.comp_apply, view_eq, length_line, Tagged.view, List.length_map] at hlen
  exact hlen.symm

theorem cursor_eq (h : Tracks s g) : g.cursor = s.cursor.toNat - s.w.toNat := (congrArg Editor.cursor h.view).symm

theorem text_eq (h : Tracks s g) : line s.buf s.w.toNat (s.e.toNat - s.w.toNat) = g.text.map Prod.fst :=
  congrArg Editor.text h.view

theorem move (h : Tracks s g) {s' : Input} {i : Nat} (hm : MovesTo s s' i) : Tracks s' { g with cursor := i } := by
  obtain ⟨q, p, rfl, hq, hle⟩ := hm
  refine ⟨?_, ?_, h.small, h.mode, ?_, h.count, h.few, h.depth, h.depth_le, h.sorted, h.fresh, h.bounds, h.entry⟩
  · simp only; omega
  · simp only; omega
  · rw [view_eq, Tagged.view]
    simp only [h.text_eq, Editor.mk.injEq, true_and]
    omega

theorem kill (h : Tracks s g) (p : Nat) :
    Tracks { s with pos := p, e := s.w, cursor := s.w } { g with text := [], cursor := 0 } := by
  have hwc := h.wc
  have hce := h.ce
  have hsmall := h.small
  refine ⟨le_rfl, le_rfl, ?_, h.mode, ?_, Nat.zero_le _, h.few, h.depth, h.depth_le, h.sorted, h.fresh,
    h.bounds, ?_⟩
  · show s.w.toNat ≤ 2 ^ 31; omega
  · rw [view_eq]; simp only [Nat.sub_self, line_zero]; rfl
  · rintro i x hx; cases hx

theorem erase (h : Tracks s g) {p : UInt32} {b : Buf} (hw : s.w.toNat ≤ p.toNat) (he : p.toNat < s.e.toNat)
    (hline : line b s.w.toNat (s.e.toNat - 1 - s.w.toNat) =
      (line s.buf s.w.toNat (s.e.toNat - s.w.toNat)).eraseIdx (p.toNat - s.w.toNat)) :
    Tracks (deletedAt s p b) (g.delete (p.toNat - s.w.toNat)) := by
  have hsmall := h.small
  have hlen := h.length_text
  have hpred := toNat_pred (x := s.e) (by omega)
  refine ⟨hw, ?_, ?_, h.mode, ?_, ?_, h.few, h.depth, h.depth_le, h.sorted, h.fresh, ?_, ?_⟩
  · show p.toNat ≤ (s.e - 1).toNat; omega
  · show (s.e - 1).toNat ≤ 2 ^ 31; omega
  · rw [view_eq]
    simp only [deletedAt, hpred, hline, h.text_eq, List.eraseIdx_map]
    rfl
  · have hcount := h.count
    show (g.text.eraseIdx _).length ≤ g.next
    rw [List.length_eraseIdx]
    split <;> omega
  · intro i hi
    have hb := h.bounds i hi
    show s.w.toNat ≤ (if i.val < s.historyPos ∧ s.history i > p then s.history i - 1 else s.history i).toNat ∧
      (if i.val < s.historyPos ∧ s.history i > p then s.history i - 1 else s.history i).toNat ≤ s.w.toNat + g.next
    split
    · rename_i hgt
      have hgt := UInt32.lt_iff_toNat_lt.1 hgt.2
      rw [toNat_pred (by omega)]
      omega
    · exact hb
  · intro i x hx
    have hx : (g.text.eraseIdx (p.toNat - s.w.toNat))[i]? = some x := hx
    rw [List.getElem?_eraseIdx] at hx
    -- the entries behind the deleted character move down with their characters
    split at hx
    · rename_i hi
      obtain ⟨k, hk, hpos⟩ := h.entry i x hx
      refine ⟨k, hk, ?_⟩
      show (if k.val < s.historyPos ∧ s.history k > p then s.history k - 1 else s.history k).toNat = s.w.toNat + i
      rw [if_neg, hpos]
      rintro ⟨-, hgt⟩
      have hgt := UInt32.lt_iff_toNat_lt.1 hgt
      omega
    · rename_i hi
      obtain ⟨k, hk, hpos⟩ := h.entry (i + 1) x hx
      have hkl : k.val < s.historyPos := by
        rw [h.depth]; exact (List.getElem?_eq_some_iff.1 hk).1
      refine ⟨k, hk, ?_⟩
      show (if k.val < s.historyPos ∧ s.history k > p then s.history k - 1 else s.history k).toNat = s.w.toNat + i
      rw [if_pos ⟨hkl, UInt32.lt_iff_toNat_lt.2 (by omega)⟩, toNat_pred (by omega), hpos]
      omega

theorem inserted_history (s : Input) (b : Buf) (k : Fin HISTORY_SIZE) :
    (inserted s b).history k = if k.val = s.historyPos then s.cursor
      else if k.val < s.historyPos ∧ s.history k ≥ s.cursor then s.history k + 1 else s.history k :=
  congrFun (record_history s) k

section

variable (h : Tracks s g) (he : s.e.toNat < 2 ^ 31) (hfew : g.next + 1 < HISTORY_SIZE)
include h he hfew

theorem insert_bounds (b : Buf) {k : Fin HISTORY_SIZE} (hk : k.val < g.stack.length + 1) :
    s.w.toNat ≤ ((inserted s b).history k).toNat ∧ ((inserted s b).history k).toNat ≤ s.w.toNat + (g.next + 1) := by
  have hwc := h.wc
  have hce := h.ce
  have hlen := h.length_text
  have hcount := h.count
  have hdepth := h.depth
  rw [inserted_history]
  split
  · omega
  · have hb := h.bounds k (by omega)
    split
    · rw [toNat_succ (by simp only [HISTORY_SIZE] at hfew; omega)]; omega
    · omega

omit hfew in
theorem insert_old (b : Buf) {j : Nat} {x : UInt8 × Nat} (hj : g.text[j]? = some x) :
    ∃ k : Fin HISTORY_SIZE, (g.stack ++ [g.next])[k.val]? = some x.2 ∧
      ((inserted s b).history k).toNat = s.w.toNat + if j < g.cursor then j else j + 1 := by
  have hwc := h.wc
  have hce := h.ce
  have hlen := h.length_text
  have hcur := h.cursor_eq
  have hdepth := h.depth
  obtain ⟨k, hk, hpos⟩ := h.entry j x hj
  have hkl := (List.getElem?_eq_some_iff.1 hk).1
  have hjl := (List.getElem?_eq_some_iff.1 hj).1
  refine ⟨k, (List.getElem?_append_left hkl).trans hk, ?_⟩
  rw [inserted_history, if_neg (by omega)]
  by_cases hlt : j < g.cursor
  · rw [if_pos hlt, if_neg, hpos]
    rintro ⟨-, hge⟩
    have hge := UInt32.le_iff_toNat_le.1 hge
    omega
  · rw [if_neg hlt, if_pos ⟨by omega, UInt32.le_iff_toNat_le.2 (by omega)⟩, toNat_succ (by omega)]
    omega

theorem insert_entry (c : UInt8) (b : Buf) {i : Nat} {x : UInt8 × Nat}
    (hx : (g.text.insertIdx g.cursor (c, g.next))[i]? = some x) :
    ∃ k : Fin HISTORY_SIZE, (g.stack ++ [g.next])[k.val]? = some x.2 ∧
      ((inserted s b).history k).toNat = s.w.toNat + i := by
  have hcur := h.cursor_eq
  have hwc := h.wc
  have hlen := h.length_text
  have hce := h.ce
  have hdl := h.depth_le
  rw [List.getElem?_insertIdx] at hx
  split at hx
  · rename_i hlt; have hold := insert_old h he b hx; rwa [if_pos hlt] at hold
  split at hx
  · rename_i hi
    rw [if_pos (by omega)] at hx
    obtain rfl := Option.some.inj hx
    refine ⟨⟨g.stack.length, by omega⟩, List.getElem?_concat_length, ?_⟩
    rw [inserted_history, if_pos h.depth.symm]
    omega
  · have hold := insert_old h he b hx
    rwa [if_neg (by omega), show i - 1 + 1 = i by omega] at hold

theorem insert {c : UInt8} {b : Buf} (hline : line b s.w.toNat (s.e.toNat - s.w.toNat + 1) =
      (line s.buf s.w.toNat (s.e.toNat - s.w.toNat)).take (s.cursor.toNat - s.w.toNat) ++
        c :: (line s.buf s.w.toNat (s.e.toNat - s.w.toNat)).drop (s.cursor.toNat - s.w.toNat)) :
    Tracks (inserted s b) (g.insert c) := by
  have hwc := h.wc
  have hce := h.ce
  have hlen := h.length_text
  have hcur := h.cursor_eq
  have hcount := h.count
  have hdl := h.depth_le
  have hsucc := toNat_succ (x := s.e) (by omega)
  have hcsucc := toNat_succ (x := s.cursor) (by omega)
  have hpush : (g.stack ++ [g.next]).length = g.stack.length + 1 := List.length_append
  refine ⟨?_, ?_, ?_, h.mode, ?_, ?_, hfew, ?_, ?_, ?_, ?_, ?_, ?_⟩
  · show s.w.toNat ≤ (s.cursor + 1).toNat; omega
  · show (s.cursor + 1).toNat ≤ (s.e + 1).toNat; omega
  · show (s.e + 1).toNat ≤ 2 ^ 31; omega
  · rw [view_eq]
    simp only [inserted, hsucc, hcsucc]
    rw [show s.e.toNat + 1 - s.w.toNat = s.e.toNat - s.w.toNat + 1 by omega, hline, h.text_eq,
      take_cons_drop _ _ _ (by rw [List.length_map]; omega), ← hcur]
    simp only [Tagged.view, Tagged.insert, List.map_insertIdx, Editor.mk.injEq, true_and]
    omega
  · show (g.text.insertIdx _ _).length ≤ g.next + 1
    rw [List.length_insertIdx]
    split <;> omega
  · show (record s).historyPos = (g.stack ++ [g.next]).length
    rw [record_historyPos, if_pos (by rw [h.depth]; omega), hpush, h.depth]
  · show (g.stack ++ [g.next]).length ≤ g.next + 1; omega
  · refine List.pairwise_append.2 ⟨h.sorted, List.pairwise_singleton _ _, ?_⟩
    intro n hn m hm
    rw [List.mem_singleton.1 hm]
    exact h.fresh n hn
  · intro n hn
    show n < g.next + 1
    rcases List.mem_append.1 hn with hn | hn
    · exact Nat.lt_succ_of_lt (h.fresh n hn)
    · rw [List.mem_singleton.1 hn]; exact Nat.lt_succ_self _
  · intro k hk; exact insert_bounds h he hfew b (hk.trans_eq hpush)
  · intro i x hx; exact insert_entry h he hfew c b hx

end

theorem pop (h : Tracks s g) (hgone : ∀ x ∈ g.text, some x.2 ≠ g.stack.getLast?) :
    Tracks { s with historyPos := s.historyPos - 1 } g.pop := by
  have hdl := h.depth_le
  have hlen : g.stack.dropLast.length = g.stack.length - 1 := List.length_dropLast
  refine ⟨h.wc, h.ce, h.small, h.mode, h.view, h.count, h.few, ?_, ?_, ?_, ?_, ?_, ?_⟩
  · show s.historyPos - 1 = g.stack.dropLast.length; rw [hlen, h.depth]
  · show g.stack.dropLast.length ≤ g.next; omega
  · exact h.sorted.sublist (List.dropLast_sublist _)
  · intro n hn; exact h.fresh n ((List.dropLast_sublist _).subset hn)
  · intro i hi
    have hi : i.val < g.stack.dropLast.length := hi
    exact h.bounds i (by omega)
  · intro i x hx
    obtain ⟨k, hk, hpos⟩ := h.entry i x hx
    refine ⟨k, ?_, hpos⟩
    show g.stack.dropLast[k.val]? = some x.2
    have hkl := (List.getElem?_eq_some_iff.1 hk).1
    rw [List.getElem?_dropLast, if_pos, hk]
    by_contra hlast
    refine hgone x (List.mem_of_getElem? hx) ?_
    rw [List.getLast?_eq_getElem?, show g.stack.length - 1 = k.val by omega, hk]

theorem last_entry (h : Tracks s g) {k : Fin HISTORY_SIZE} (hk : g.stack.length = k.val + 1) {i : Nat}
    {x : UInt8 × Nat} (hx : g.text[i]? = some x) (hlast : some x.2 = g.stack.getLast?) :
    (s.history k).toNat = s.w.toNat + i := by
  obtain ⟨k', hk', hpos⟩ := h.entry i x hx
  have hnodup : g.stack.Nodup := h.sorted.imp ne_of_lt
  have hsame : g.stack[k'.val]? = g.stack[k.val]? := by
    rw [hk', hlast, List.getLast?_eq_getElem?, hk, Nat.add_sub_cancel]
  have heq := (List.getElem?_inj (List.getElem?_eq_some_iff.1 hk').1 hnodup).1 hsame
  rwa [Fin.ext heq] at hpos

end Tracks

/-! ## The keys -/

/-- The key ends with the line tracked by `g`, or in the panic. -/
def TracksOr (x : Except Fault Input) (g : Tagged) : Prop := (∃ s, x = .ok s ∧ Tracks s g) ∨ x = .error .panic

theorem key_undo (hsel : s.selectMode ≠ .selected) :
    key s ctrlZ = undo { s with tabPressCount := 0 } >>= fun s => .ok { s := s } := by
  simp +decide only [key, hsel, if_false, if_true]

theorem key_kill (hsel : s.selectMode ≠ .selected) :
    key s ctrlU = killLine { s with tabPressCount := 0 } >>= fun s => .ok { s := s } := by
  simp +decide only [key, hsel, if_false, if_true]

/-- Ctrl-Z deletes the character at the last entry: whether the entry itself is renumbered too makes no
difference. -/
theorem undo_eq {k : Fin HISTORY_SIZE} (hk : s.historyPos = k.val + 1) : undo s = if s.history k < s.e then
      memmove s.buf s.buf (s.history k).toNat (s.history k + 1).toNat (s.e - (s.history k + 1)).toNat >>= fun b =>
        redrawLine { deletedAt s (s.history k) b with historyPos := s.historyPos - 1 }
    else .ok { s with historyPos := s.historyPos - 1 } := by
  have hkey : (⟨s.historyPos - 1, by omega⟩ : Fin HISTORY_SIZE) = k := Fin.ext (by simp only; omega)
  unfold undo
  rw [dif_pos ⟨by omega, by omega⟩]
  simp only [hkey]
  refine if_congr Iff.rfl ?_ rfl
  congr 1
  funext b
  have hhist : (historyAdjustAfterDelete { s with buf := b, e := s.e - 1, historyPos := s.historyPos - 1 }
      (s.history k)).history = (historyAdjustAfterDelete s (s.history k)).history := by
    funext i
    show (if i.val < s.historyPos - 1 ∧ s.history i > s.history k then s.history i - 1 else s.history i) =
      if i.val < s.historyPos ∧ s.history i > s.history k then s.history i - 1 else s.history i
    refine if_congr ⟨fun h => ⟨by omega, h.2⟩, fun h => ⟨?_, h.2⟩⟩ rfl rfl
    by_contra hlt
    obtain rfl : i = k := Fin.ext (by omega)
    exact UInt32.lt_irrefl _ h.2
  show redrawLine
    { s with buf := b, e := s.e - 1, cursor := s.history k, historyPos := s.historyPos - 1, history := _ } = _
  rw [hhist]
  rfl

theorem Tracks.text_nil (h : Tracks s g) (h0 : g.stack = []) : g.text = [] := by
  rcases htext : g.text with _ | ⟨x, l⟩
  · rfl
  · obtain ⟨k, hk, -⟩ := h.entry 0 x (by rw [htext]; rfl); rw [h0] at hk; cases hk

theorem undo_entry (h : Tracks s g) {k : Fin HISTORY_SIZE} (hk : g.stack.length = k.val + 1) {i : Nat}
    {x : UInt8 × Nat} (hx : g.text[i]? = some x) (hxl : some x.2 = g.stack.getLast?)
    (hmid : i + 1 < g.text.length → s.e.toNat ≤ INPUT_BUF) : TracksOr (undo s) (g.delete i).pop := by
  have hlen := h.length_text
  have hsmall := h.small
  have hp := h.last_entry hk hx hxl
  have hi := (List.getElem?_eq_some_iff.1 hx).1
  have hsucc := toNat_succ (x := s.history k) (by omega)
  have hpred := toNat_pred (x := s.e) (by omega)
  obtain ⟨b, hb, hline⟩ := delete_spec (s := s) (q := (s.history k).toNat + 1) (by omega) (by omega) fun h =>
    hmid (by omega)
  have hline := hline s.w.toNat (by omega)
  rw [Nat.add_sub_cancel] at hb hline
  have herase := h.erase (p := s.history k) (by omega) (by omega) hline
  rw [show (s.history k).toNat - s.w.toNat = i by omega] at herase
  have hpop := herase.pop ?_
  · rw [undo_eq (h.depth.trans hk), if_pos (UInt32.lt_iff_toNat_lt.2 (by omega)),
      hsucc, toNat_sub (by omega), hsucc, hb]
    rcases redrawLine_shape { deletedAt s (s.history k) b with historyPos := s.historyPos - 1 }
      (by simp only [deletedAt]; omega) with ⟨y, z, hr⟩ | hr
    · exact .inl ⟨_, hr, hpop.screen _ y z _ _⟩
    · exact .inr hr
  · -- no other character has the same entry
    intro y hy hyl
    obtain ⟨j, hj, hne, hjy⟩ := List.mem_eraseIdx_iff_getElem.1 hy
    have hjp := h.last_entry hk (List.getElem?_eq_some_iff.2 ⟨hj, hjy⟩) hyl
    omega

theorem undo_tracks (h : Tracks s g) (hfinds : UndoFinds s g) : TracksOr (undo s) g.undo := by
  have hdl := h.depth_le
  have hfew := h.few
  rcases Nat.eq_zero_or_pos g.stack.length with h0 | hpos
  · -- nothing to undo
    have hstack := List.eq_nil_of_length_eq_zero h0
    have hpop : g.stack.dropLast = g.stack := by rw [hstack]; rfl
    refine .inl ⟨s, dif_neg (by rw [h.depth, h0]; omega), ?_⟩
    rw [Tagged.undo, if_pos (h.text_nil hstack), Tagged.pop, hpop]
    exact h
  have hk : g.stack.length = (⟨g.stack.length - 1, by omega⟩ : Fin HISTORY_SIZE).val + 1 := by simp only; omega
  generalize (⟨g.stack.length - 1, by omega⟩ : Fin HISTORY_SIZE) = k at hk
  by_cases hnil : g.text = []
  · -- an entry without a character, and none left
    have hge : ¬ s.history k < s.e := by
      intro hlt
      have hlt := UInt32.lt_iff_toNat_lt.1 hlt
      have hb := (h.bounds k (by omega)).1
      have hlen := h.length_text
      rw [hnil, List.length_nil] at hlen
      omega
    rw [undo_eq (h.depth.trans hk), if_neg hge, Tagged.undo, if_pos hnil]
    exact .inl ⟨_, rfl, h.pop (by rw [hnil]; nofun)⟩
  · rw [Tagged.undo, if_neg hnil]
    obtain ⟨hlast, hmid⟩ := hfinds.resolve_left hnil
    rcases hx : g.text[Tagged.newest g.text]? with _ | x
    · rw [hx, List.getLast?_eq_getElem?, List.getElem?_eq_getElem (by omega)] at hlast
      cases hlast
    · rw [hx] at hlast; exact undo_entry h hk hx hlast hmid

theorem insert_tracks (h : Tracks s g) {c : UInt8} (htake : Takes s c) (hfew : g.next + 1 < HISTORY_SIZE)
    (he : s.e.toNat < 2 ^ 31) (hmid : s.cursor < s.e → s.e.toNat < INPUT_BUF) : TracksOr (insert s c) (g.insert c) := by
  have hwc := h.wc
  have hlen := h.length_text
  have hcount := h.count
  have hshort : s.e.toNat - s.w.toNat < INPUT_BUF := by
    simp only [HISTORY_SIZE, INPUT_BUF] at *; omega
  obtain ⟨b, ⟨x, y, z, hi⟩ | hi, hline⟩ := insert_spec ⟨htake.2, htake.1.ne_of (by decide)⟩ h.ce he hmid
  · exact .inl ⟨_, hi, (h.insert he hfew (hline s.w.toNat hwc hshort)).screen x y z _ _⟩
  · exact .inr hi

theorem backspace_tracks (h : Tracks s g) (hmid : s.w < s.cursor → s.cursor < s.e → s.e.toNat ≤ INPUT_BUF) :
    TracksOr (backspace s) (if 0 < g.cursor then g.delete (g.cursor - 1) else g) := by
  have hwc := h.wc
  have hce := h.ce
  have hcur := h.cursor_eq
  by_cases hlt : s.w < s.cursor
  · have hlt' := UInt32.lt_iff_toNat_lt.1 hlt
    have hpred := toNat_pred (x := s.cursor) (by omega)
    rw [if_pos (by omega)]
    obtain ⟨b, ⟨y, z, hb⟩ | hb, hline⟩ := backspace_spec hlt hce h.small (hmid hlt)
    · have hline := hline s.w.toNat hlt'
      rw [← hpred] at hline
      have herase := h.erase (p := s.cursor - 1) (by omega) (by omega) hline
      rw [show (s.cursor - 1).toNat - s.w.toNat = g.cursor - 1 by omega] at herase
      exact .inl ⟨_, hb, herase.screen _ y z _ _⟩
    · exact .inr hb
  · have hle := mt UInt32.lt_iff_toNat_lt.2 hlt
    rw [if_neg (by omega), backspace_eq, if_neg hlt]
    exact .inl ⟨s, rfl, h⟩

theorem kill_tracks (h : Tracks s g) : TracksOr (killLine s) { g with text := [], cursor := 0 } := by
  unfold killLine
  rcases noOob_putMany .backspace (s.e - s.w).toNat s.pos with ⟨p, hp⟩ | hp
  · rw [hp]; exact .inl ⟨_, rfl, h.kill p⟩
  · rw [hp]; exact .inr rfl

theorem key_tracks (h : Tracks s g) {c : UInt8} (hc : UndoKey c) (hfew : Takes s c → g.next + 1 < HISTORY_SIZE)
    (hok : UndoInRange (s, g) (.key c)) :
    TracksOr ((key s c).map Outcome.s) (if Printable c ∧ ¬ Takes s c then g else g.key c) := by
  obtain ⟨⟨he, hins, hdel⟩, hfinds⟩ := hok
  have hsel : s.selectMode ≠ .selected := by rw [h.mode]; nofun
  have ht := h.screen s.startPos s.pos s.prevLineLen 0 s.r
  have hnp : ∀ {d : UInt8}, ¬ Printable d → ¬ (Printable d ∧ ¬ Takes s d) := fun hn hd => hn hd.1
  -- the outcome of a key that runs one operation
  have hop : ∀ {x : Except Fault Input} {g' : Tagged}, key s c = x >>= (fun s => .ok { s := s }) → TracksOr x g' →
      TracksOr ((key s c).map Outcome.s) g' := by
    rintro x g' hk (⟨s', rfl, hs⟩ | rfl)
    · exact .inl ⟨s', by rw [hk]; rfl, hs⟩
    · exact .inr (by rw [hk]; rfl)
  rcases hc with hp | hb | hm | rfl | rfl
  · by_cases htake : Takes s c
    · have hkey : g.key c = g.insert c := by
        obtain ⟨-, -, n2, n3, n4, -, -, n7, n8, n9, n10, -, -⟩ := hp.ne
        simp only [Tagged.key, MotionKey, n2, n3, n4, n7, n8, n9, n10, or_self, if_false]
      rw [if_neg fun hn => hn.2 htake, hkey]
      exact hop (key_printable hp hsel) (insert_tracks h htake (hfew htake) he (hins hp))
    · rw [if_pos ⟨hp, htake⟩]
      refine hop (key_printable hp hsel) (.inl ⟨s, ?_, h⟩)
      rw [insert, if_neg fun hacc => htake ⟨hp, hacc.1⟩]
  · have hkey : g.key c = if 0 < g.cursor then g.delete (g.cursor - 1) else g := by
      rcases hb with rfl | rfl
      all_goals simp +decide only [Tagged.key, if_true, if_false]
    rw [if_neg (hnp (by rcases hb with rfl | rfl <;> decide)), hkey]
    exact hop (key_backspace hb hsel) (backspace_tracks ht (hdel hb))
  · obtain ⟨s', hk, hmv⟩ := key_motion hm hsel h.wc h.ce h.small
    have hkey : g.key c = { g with cursor := (g.view.key c).cursor } := by
      rcases hm with rfl | rfl | rfl | rfl
      all_goals simp +decide only [Tagged.key, if_true, if_false]
    rw [if_neg (hnp (by rcases hm with rfl | rfl | rfl | rfl <;> decide)), hkey, ← h.view]
    exact .inl ⟨s', by rw [hk]; rfl, ht.move hmv⟩
  · have hkey : g.key ctrlU = { g with text := [], cursor := 0 } := by simp +decide only [Tagged.key, if_true, if_false]
    rw [if_neg (hnp (by decide)), hkey]
    exact hop (key_kill hsel) (kill_tracks ht)
  · have hkey : g.key ctrlZ = g.undo := by simp +decide only [Tagged.key, if_true, if_false]
    rw [if_neg (hnp (by decide)), hkey]
    exact hop (key_undo hsel) (undo_tracks ht (hfinds rfl))

/-! ## Whole lines -/

/-- In a run whose undos find their character, the console tracks the text. -/
theorem tracks_reach (hr : Reach undoInit undoStep UndoInRange (s, g)) : Tracks s g := by
  refine Reach.inv (P := fun x => Tracks x.1 x.2) ?_ ?_ hr
  · rintro ⟨s, g⟩ ⟨hw, hc, he, hm, hp, rfl⟩
    have hw : s.w = s.e := hw
    have hc : s.cursor = s.e := hc
    refine ⟨?_, ?_, he, hm, ?_, le_rfl, Nat.zero_lt_succ 127, hp, le_rfl, List.Pairwise.nil, nofun, nofun, nofun⟩
    · simp only [hw, hc, le_refl]
    · simp only [hc, le_refl]
    · simp only [view_eq, hw, hc, Nat.sub_self, line_zero]; rfl
  · rintro ⟨s, g⟩ a ⟨s', g'⟩ h hok hs
    have h : Tracks s g := h
    cases a with
    | key c =>
      obtain ⟨⟨hc, hfew⟩, hs⟩ | ⟨-, hs⟩ := ite_eq_iff.1 hs
      · obtain ⟨o, ho, heq⟩ := Option.map_eq_some_iff.1 hs
        obtain ⟨rfl, rfl⟩ := Prod.mk.inj heq
        have ho := toOption_eq_some ho
        rcases key_tracks h hc hfew hok with ⟨s', hk, ht⟩ | hk
        · rw [ho] at hk; cases hk; exact ht
        · rw [ho] at hk; cases hk
      · cases hs
    | read target n =>
      obtain ⟨h1, rfl⟩ := Prod.mk.inj (Option.some.inj hs)
      obtain ⟨r, e⟩ := consoleread_frame target n s []
      obtain rfl : { s with r := r } = s' := e.symm.trans h1
      exact h.screen s.startPos s.pos s.prevLineLen s.tabPressCount r

theorem newest_eq {l r : List (UInt8 × Nat)} {x : UInt8 × Nat} (h : ∀ y ∈ l ++ r, y.2 < x.2) :
    Tagged.newest (l ++ x :: r) = l.length := by
  have hx : (l ++ x :: r)[l.length]? = some x := by simp
  obtain ⟨hlen, hx⟩ := List.getElem?_eq_some_iff.1 hx
  refine (List.findIdx_eq hlen).2 ⟨?_, ?_⟩
  · rw [hx, List.all_eq_true]
    intro y hy
    refine decide_eq_true ?_
    rcases List.mem_append.1 hy with hy | hy
    · exact (h y (List.mem_append_left _ hy)).le
    · rcases List.mem_cons.1 hy with rfl | hy
      · exact le_rfl
      · exact (h y (List.mem_append_right _ hy)).le
  · intro j hj
    rw [List.getElem_append_left hj, Bool.eq_false_iff]
    intro hall
    have hle := of_decide_eq_true (List.all_eq_true.1 hall x (by simp))
    have hlt := h _ (List.mem_append_left r (List.getElem_mem hj))
    omega

/-- In every run of a line whose undos find their character, the console shows the text, no key accesses
anything outside `input.buf`, and Ctrl-Z deletes the newest character, leaves the others and puts the
cursor in its place; it does nothing if there is none. -/
theorem undo_deletes_newest (s : Input) (g : Tagged) (hr : Reach undoInit undoStep UndoInRange (s, g)) :
    view s = g.view ∧
    (∀ c, UndoKey c → (Takes s c → g.next + 1 < HISTORY_SIZE) → UndoInRange (s, g) (.key c) →
      ∀ i, key s c ≠ .error (.oob i)) ∧
    (UndoInRange (s, g) (.key ctrlZ) → ∀ o, key s ctrlZ = .ok o →
      (g.text = [] → view o.s = view s) ∧
      ∀ l x r, g.text = l ++ x :: r → (∀ y ∈ l ++ r, y.2 < x.2) → view o.s = ⟨(l ++ r).map Prod.fst, l.length⟩) := by
  have h := tracks_reach hr
  refine ⟨h.view, ?_, ?_⟩
  · intro c hc hfew hok i hi
    rcases key_tracks h hc hfew hok with ⟨s', hk, -⟩ | hk
    · rw [hi] at hk; cases hk
    · rw [hi] at hk; cases hk
  · intro hok o ho
    have hz : g.key ctrlZ = g.undo := by simp +decide only [Tagged.key, if_true, if_false]
    have hnt : ¬ Takes s ctrlZ := fun ht => absurd ht.1 (by decide)
    rcases key_tracks h (c := ctrlZ) (by decide) (fun ht => absurd ht hnt) hok with ⟨s', hk, ht⟩ | hk
    · rw [ho] at hk
      cases hk
      rw [if_neg fun hn => absurd hn.1 (by decide), hz] at ht
      rw [ht.view, h.view]
      constructor
      · intro hnil; rw [Tagged.undo, if_pos hnil]; rfl
      · intro l x r htext hold
        have hnew := newest_eq hold
        rw [← htext] at hnew
        rw [Tagged.undo, if_neg (by rw [htext]; simp), hnew, Tagged.view, Tagged.pop, Tagged.delete]
        simp only [htext, List.eraseIdx_append_of_length_le le_rfl, Nat.sub_self, List.eraseIdx_zero, List.tail_cons]
    · rw [ho] at hk; cases hk

/-- Two characters, and a third between them that is undone. -/
theorem undo_deletes_newest_middle : ∃ s g o, Reach undoInit undoStep UndoInRange (s, g) ∧ key s ctrlZ = .ok o ∧
    view o.s = ⟨[97, 98], 1⟩ := by
  have hrun : (runActs (guarded undoStep UndoInRange) ({}, {}) [.key 97, .key 98, .key keyLf, .key 99]).any (fun x =>
      decide (x.2.text = [(97, 0), (99, 2), (98, 1)]) && decide (UndoInRange x (.key ctrlZ)) &&
        (key x.1 ctrlZ).toBool) = true := by decide +kernel
  obtain ⟨⟨s, g⟩, hr, hs⟩ :=
    exists_reach_of_guarded_run undoInit UndoInRange (by refine ⟨rfl, rfl, ?_, rfl, rfl, rfl⟩; decide) _ _ hrun
  rw [Bool.and_eq_true, Bool.and_eq_true, decide_eq_true_eq, decide_eq_true_eq] at hs
  obtain ⟨⟨htext, hok⟩, ho⟩ := hs
  rcases hk : key s ctrlZ with f | o
  · rw [hk] at ho; cases ho
  · refine ⟨s, g, o, hr, hk, ?_⟩
    exact ((undo_deletes_newest s g hr).2.2 hok o hk).2 [(97, 0)] (99, 2) [(98, 1)] htext (by decide)

/-- Two characters, of which Backspace deletes the second: Ctrl-Z finds the entry of that one and does
nothing, though the first is still there. -/
theorem undo_after_backspace : ∃ s g o, Reachable undoInit undoStep (s, g) ∧ g.text = [(97, 0)] ∧ key s ctrlZ = .ok o ∧
    view o.s = ⟨[97], 1⟩ := by
  have hrun : (runActs undoStep ({}, {}) [.key 97, .key 98, .key ctrlH]).any (fun x : Input × Tagged =>
      decide (x.2.text = [((97 : UInt8), 0)]) &&
        (key x.1 ctrlZ).toOption.any fun o => decide (view o.s = ⟨[97], 1⟩)) = true := by decide +kernel
  obtain ⟨⟨s, g⟩, hr, hs⟩ := exists_reachable_of_run undoInit (by refine ⟨rfl, rfl, ?_, rfl, rfl, rfl⟩; decide) _ _ hrun
  rw [Bool.and_eq_true, decide_eq_true_eq] at hs
  obtain ⟨htext, hs⟩ := hs
  obtain ⟨o, ho, hview⟩ := exists_ok_of_any hs
  exact ⟨s, g, o, hr, htext, ho, hview⟩

end Xv6.Console
