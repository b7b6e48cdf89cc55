/-
The selection of `consoleintr`. Ctrl-S puts an anchor at the cursor and, pressed again, selects from
the smaller of anchor and cursor up to and with the larger; a key then replaces the selection. Neither
place is checked against the line: an anchor from before an edit, or a cursor at the end of the line,
gives a range that reaches outside it. In a run whose second Ctrl-S finds both inside the line the range
is inside the line whenever there is one, and the replacement is that of the list exactly if the bytes
it moves are below the end of the array.
-/
import Xv6.Console.Redraw

namespace Xv6.Console

open Base

/-! ## The abstract replacement -/

/-- The characters from `i` up to `j` give way to `cs`. -/
def Editor.replace (ed : Editor) (i j : Nat) (cs : List UInt8) : Editor :=
  { text := ed.text.take i ++ cs ++ ed.text.drop j, cursor := i + cs.length }

/-- The keys that neither end a selection nor copy it. -/
def Replaces (c : UInt8) : Prop :=
  c ≠ 0 ∧ ¬ (c = keyLf ∨ c = keyRt ∨ c = ctrlA ∨ c = ctrlD ∨ c = ctrlS ∨ c = ctrlZ ∨ c = ctrlV) ∧ c ≠ ctrlC

instance (c : UInt8) : Decidable (Replaces c) := inferInstanceAs (Decidable (_ ∧ _ ∧ _))

/-- What the key puts in. -/
def replacement (c : UInt8) : List UInt8 := if c = ctrlH ∨ c = delete then [] else [c]

/-- The key replaces the selection in the list, or the screen panics. -/
def ReplacesExactly (s : Input) (c : UInt8) : Prop :=
  (∃ o, key s c = .ok o ∧ view o.s = (view s).replace (s.selectStart.toNat - s.w.toNat)
    (s.selectEnd.toNat - s.w.toNat) (replacement c)) ∨ key s c = .error .panic

/-- The place of the character and the rest of the line, if there is one, are inside the array. -/
def ReplaceInRange (s : Input) (c : UInt8) : Prop :=
  (replacement c ≠ [] → s.selectStart.toNat < INPUT_BUF) ∧ (s.selectEnd < s.e → s.e.toNat ≤ INPUT_BUF)

instance (s : Input) (c : UInt8) : Decidable (ReplaceInRange s c) := inferInstanceAs (Decidable (_ ∧ _))

/-! ## The range -/

/-- Ctrl-S ends a selection with both its ends inside the line, or with none; and `redraw_console` is not
called during one. -/
def SelectsInside (s : Input) : ConsAct → Prop
  | .key c => c = ctrlS → s.selectMode = .anchored →
      s.cursor = s.selectAnchor ∨ s.w ≤ s.cursor ∧ s.w ≤ s.selectAnchor ∧ s.cursor < s.e ∧ s.selectAnchor < s.e
  | .redraw _ => s.selectMode ≠ .selected
  | _ => True

instance (s : Input) : (a : ConsAct) → Decidable (SelectsInside s a)
  | .key _ => inferInstanceAs (Decidable (_ → _ → _ ∨ _))
  | .read _ _ => inferInstanceAs (Decidable True)
  | .write _ => inferInstanceAs (Decidable True)
  | .redraw _ => inferInstanceAs (Decidable (_ ≠ _))

/-- The range of a selection: two characters of the line at least. -/
structure Range (s : Input) : Prop where
  low : s.w.toNat ≤ s.selectStart.toNat
  mid : s.selectStart.toNat + 1 < s.selectEnd.toNat
  high : s.selectEnd.toNat ≤ s.e.toNat

theorem sub_add_one (x : UInt32) : x + 1 - 1 = x := by
  apply UInt32.toNat_inj.1
  have := UInt32.toNat_lt x
  rw [UInt32.toNat_sub, UInt32.toNat_add, UInt32.toNat_one]
  omega

variable {s : Input} {c : UInt8} {b : Buf}

theorem selectKey_range {s' : Input} (hsel : s.selectMode ≠ .selected) (hok : s.selectMode = .anchored →
      s.cursor = s.selectAnchor ∨ s.w ≤ s.cursor ∧ s.w ≤ s.selectAnchor ∧ s.cursor < s.e ∧ s.selectAnchor < s.e)
    (h : selectKey s = .ok s') (hm : s'.selectMode = .selected) : Range s' := by
  have hemax := UInt32.toNat_lt s.e
  unfold selectKey at h
  obtain ⟨-, h⟩ | ⟨hoff, h⟩ := ite_eq_iff.1 h
  · cases h; cases hm
  have hok := hok (by cases hmode : s.selectMode <;> simp_all)
  obtain ⟨p, l, rfl⟩ := redrawLine_eq_ok h
  by_cases hlt : s.cursor < s.selectAnchor
  · simp only [if_pos hlt, sub_add_one, ge_iff_le] at hm ⊢
    rw [if_neg (UInt32.not_le.2 hlt)] at hm ⊢
    have hlt' := UInt32.lt_iff_toNat_lt.1 hlt
    rcases hok with heq | ⟨h1, h2, h3, h4⟩
    · rw [heq] at hlt'; omega
    rw [UInt32.le_iff_toNat_le] at h1 h2
    rw [UInt32.lt_iff_toNat_lt] at h3 h4
    have hsucc := toNat_succ (x := s.selectAnchor) (by omega)
    refine ⟨h1, ?_, ?_⟩
    · show s.cursor.toNat + 1 < (s.selectAnchor + 1).toNat; omega
    · show (s.selectAnchor + 1).toNat ≤ s.e.toNat; omega
  · simp only [if_neg hlt, sub_add_one, ge_iff_le] at hm ⊢
    by_cases hle : s.cursor ≤ s.selectAnchor
    · rw [if_pos hle] at hm; cases hm
    · rw [if_neg hle]
      have hle' := UInt32.lt_iff_toNat_lt.1 (UInt32.not_le.1 hle)
      rcases hok with heq | ⟨h1, h2, h3, h4⟩
      · rw [heq] at hle'; omega
      rw [UInt32.le_iff_toNat_le] at h1 h2
      rw [UInt32.lt_iff_toNat_lt] at h3 h4
      have hsucc := toNat_succ (x := s.cursor) (by omega)
      refine ⟨h2, ?_, ?_⟩
      · show s.selectAnchor.toNat + 1 < (s.cursor + 1).toNat; omega
      · show (s.cursor + 1).toNat ≤ s.e.toNat; omega

/-- In a run whose selections are ended inside the line, so is every range. -/
theorem range_reach (hr : Reach consInit consStep SelectsInside s) (hm : s.selectMode = .selected) : Range s := by
  refine Reach.inv (P := fun s => s.selectMode = .selected → Range s) ?_ ?_ hr hm
  · rintro _ ⟨pos, rfl⟩ hm; cases hm
  · intro s a s' ih hok hs hm
    cases consStep_cases hs with
    | key hk =>
      rcases key_cases hk with ⟨-, hsel, -, e⟩ | ⟨-, hsel, e⟩ | ⟨hc, hsel, e⟩ | e | ⟨hsel, e⟩
      · rw [e] at hm; exact absurd hm hsel
      · obtain ⟨b, l, e⟩ := (keySelected_frame e).2.2 hm
        rw [e]
        exact ⟨(ih hsel).low, (ih hsel).mid, (ih hsel).high⟩
      · exact selectKey_range (s := { s with tabPressCount := 0 }) hsel (hok hc) e hm
      · rw [e] at hm ⊢; exact ih hm
      · rcases e.mode with h | h
        · exact absurd (h.symm.trans hm) hsel
        · rw [h] at hm; cases hm
    | read r _ | write p _ => have h := ih hm; exact ⟨h.low, h.mid, h.high⟩
    | redraw hd =>
      rcases (keeps_redraw hd).mode with h | h
      · exact absurd (h.symm.trans hm) hok
      · rw [h] at hm; cases hm

/-! ## The replacement -/

theorem line_replace {b₁ b₂ : Buf} {w start stop e : Nat} (c : UInt8) (h1 : w ≤ start) (h2 : start + 1 < stop)
    (h3 : stop ≤ e) (hrange : start < INPUT_BUF) (hmid : stop < e → e ≤ INPUT_BUF)
    (hm : memmove b b (start + 1) stop (e - stop) = .ok b₁) (hs : setAt b₁ start c = .ok b₂) :
    line b₂ w (start + 1 - w + (e - stop)) = (line b w (e - w)).take (start - w) ++ [c] ++
    (line b w (e - w)).drop (stop - w) := by
  have hlen : start - w < (line b w (e - w)).length := by
    rw [length_line]; omega
  have htake : ((line b w (e - w)).take (start - w)).length = start - w := List.length_take_of_le hlen.le
  obtain rfl : Function.update b₁ (ring (w + (start - w))) c = b₂ := by
    rw [setAt, dif_pos hrange] at hs
    rw [show w + (start - w) = start by omega, ring_of_lt hrange]
    exact Except.ok.inj hs
  have hset : line (Function.update b₁ (ring (w + (start - w))) c) w (start + 1 - w + (e - stop)) =
      (line b₁ w (start + 1 - w + (e - stop))).set (start - w) c :=
    Ring.window_set b₁ w c (by omega) (by omega)
  rw [hset, line_close (by omega) (by omega) h3 hmid hm, show start + 1 - w = start - w + 1 by omega,
    List.take_succ_eq_append_getElem hlen, List.append_assoc, List.set_append_right _ _ (le_of_eq htake),
    List.append_assoc, htake, Nat.sub_self]
  rfl

theorem length_replacement_le (c : UInt8) : (replacement c).length ≤ 1 := by
  unfold replacement
  split <;> simp

/-- The array after the replacement, with the edit index and the length of the change as numbers. -/
theorem replaced_line (hr : Range s) (hin : ReplaceInRange s c) :
    ∃ b₁ b₂, memmove s.buf s.buf (s.selectStart.toNat + (replacement c).length) s.selectEnd.toNat
        (s.e.toNat - s.selectEnd.toNat) = .ok b₁ ∧
      (if replacement c ≠ [] then setAt b₁ s.selectStart.toNat c else .ok b₁) = .ok b₂ ∧
      line b₂ s.w.toNat (s.selectStart.toNat + (replacement c).length - s.w.toNat + (s.e.toNat - s.selectEnd.toNat)) =
        (view s).text.take (s.selectStart.toNat - s.w.toNat) ++ replacement c ++
          (view s).text.drop (s.selectEnd.toNat - s.w.toNat) := by
  obtain ⟨h1, h2, h3⟩ := hr
  obtain ⟨hstart, hmid⟩ := hin
  have hmid : s.selectEnd.toNat < s.e.toNat → s.e.toNat ≤ INPUT_BUF := fun h => hmid (UInt32.lt_iff_toNat_lt.2 h)
  have hlen := length_replacement_le c
  obtain ⟨b₁, hb₁⟩ := memmove_ok s.buf s.buf (s.selectStart.toNat + (replacement c).length) s.selectEnd.toNat
    (s.e.toNat - s.selectEnd.toNat) fun h => by
      have := hmid (by omega); omega
  by_cases hc : c = ctrlH ∨ c = delete
  · have hrep : replacement c = [] := if_pos hc
    refine ⟨b₁, b₁, hb₁, by rw [hrep]; rfl, ?_⟩
    rw [hrep] at hb₁ ⊢
    rw [List.append_nil]
    exact line_close h1 (by simp only [List.length_nil]; omega) h3 hmid hb₁
  · have hrep : replacement c = [c] := if_neg hc
    have hlt := hstart (by rw [hrep]; exact List.cons_ne_nil _ _)
    obtain ⟨b₂, hb₂⟩ : ∃ b₂, setAt b₁ s.selectStart.toNat c = .ok b₂ := by
      rw [setAt, dif_pos hlt]; exact ⟨_, rfl⟩
    refine ⟨b₁, b₂, hb₁, by rw [hrep]; exact hb₂, ?_⟩
    rw [hrep] at hb₁ ⊢
    exact line_replace c h1 h2 h3 hlt hmid hb₁ hb₂

def replacementLen (c : UInt8) : UInt32 := if c = ctrlH ∨ c = delete then 0 else 1

theorem toNat_replacementLen (c : UInt8) : (replacementLen c).toNat = (replacement c).length := by
  unfold replacementLen replacement
  split <;> rfl

theorem replacementLen_pos (c : UInt8) : replacementLen c > 0 ↔ replacement c ≠ [] := by
  unfold replacementLen replacement
  split <;> simp

section
variable (hc : Replaces c) (hsel : s.selectMode = .selected)
include hc hsel

theorem key_replace : key s c = keySelected s c >>= fun s => .ok { s := s } := by
  unfold key; rw [if_neg hc.1, if_pos hsel]

theorem key_replace_error {f : Fault} (hb : closeGap s (s.selectEnd - s.selectStart) (replacementLen c) = .error f) :
    key s c = .error f := by
  rw [key_replace hc hsel, keySelected, if_neg hc.2.1, if_neg hc.2.2]
  show (closeGap s _ (replacementLen c) >>= _) >>= _ = _
  rw [hb]
  rfl

theorem key_replace_ok (hb : closeGap s (s.selectEnd - s.selectStart) (replacementLen c) = .ok b) :
    ∃ x m, key s c = ((if replacement c ≠ [] then setAt b s.selectStart.toNat c else .ok b) >>= fun b =>
      redrawLine { s with buf := b, e := s.e - (s.selectEnd - s.selectStart) + replacementLen c,
                          cursor := s.selectStart + replacementLen c, selectMode := .off,
                          history := x, historyPos := m }) >>=
      fun s => .ok { s := s } := by
  let s₁ : Input := { s with selectMode := .off, buf := b, e := s.e - (s.selectEnd - s.selectStart) + replacementLen c }
  obtain ⟨x, m, e⟩ := replaceSelection_eq s₁ (s.selectEnd - s.selectStart) (replacementLen c) c
  refine ⟨x, m, ?_⟩
  rw [key_replace hc hsel, keySelected, if_neg hc.2.1, if_neg hc.2.2]
  show (closeGap s _ (replacementLen c) >>= _) >>= _ = _
  rw [hb]
  show (replaceSelection s₁ (s.selectEnd - s.selectStart) (replacementLen c) c >>= _) >>= _ = _
  rw [e, if_congr (replacementLen_pos c) rfl rfl]
  show (((if replacement c ≠ [] then setAt b s.selectStart.toNat c else .ok b) >>= _) >>= _) >>= _ = _
  rcases (if replacement c ≠ [] then setAt b s.selectStart.toNat c else .ok b) with f | b'
  · rfl
  · rfl

end

theorem closeGap_eq (c : UInt8) (hr : Range s) : closeGap s (s.selectEnd - s.selectStart) (replacementLen c) =
    memmove s.buf s.buf (s.selectStart.toNat + (replacement c).length) s.selectEnd.toNat
    (s.e.toNat - s.selectEnd.toNat) := by
  obtain ⟨h1, h2, h3⟩ := hr
  have hlen := toNat_replacementLen c
  have hle := length_replacement_le c
  have hemax := UInt32.toNat_lt s.e
  have hne : s.selectEnd - s.selectStart ≠ replacementLen c := by
    intro h
    have h := congrArg UInt32.toNat h
    rw [toNat_sub (by omega)] at h
    omega
  have hstart : (s.selectStart + replacementLen c).toNat = s.selectStart.toNat + (replacement c).length := by
    rw [UInt32.toNat_add]; omega
  rw [closeGap, if_pos hne, hstart, toNat_sub h3]

theorem replaces_of_inRange (hc : Replaces c) (hsel : s.selectMode = .selected) (hr : Range s)
    (he : s.e.toNat ≤ 2 ^ 31) (hin : ReplaceInRange s c) : ReplacesExactly s c := by
  obtain ⟨b₁, b₂, hb₁, hb₂, hline⟩ := replaced_line hr hin
  obtain ⟨x, m, hkey⟩ := key_replace_ok hc hsel ((closeGap_eq c hr).trans hb₁)
  rw [hb₂] at hkey
  obtain ⟨h1, h2, h3⟩ := hr
  have hlen := toNat_replacementLen c
  have hle := length_replacement_le c
  have hsub := toNat_sub (x := s.selectEnd) (y := s.selectStart) (by omega)
  have hsub' := toNat_sub (x := s.e) (y := s.selectEnd - s.selectStart) (by omega)
  have he' : (s.e - (s.selectEnd - s.selectStart) + replacementLen c).toNat =
      s.selectStart.toNat + (replacement c).length + (s.e.toNat - s.selectEnd.toNat) := by
    rw [UInt32.toNat_add]
    omega
  have hcur : (s.selectStart + replacementLen c).toNat = s.selectStart.toNat + (replacement c).length := by
    rw [UInt32.toNat_add]; omega
  unfold ReplacesExactly
  rw [hkey]
  let t : Input := { s with buf := b₂, e := s.e - (s.selectEnd - s.selectStart) + replacementLen c,
                            cursor := s.selectStart + replacementLen c, selectMode := .off,
                            history := x, historyPos := m }
  have ht : t.e.toNat ≤ 2 ^ 31 := by
    refine Nat.le_trans (le_of_eq he') ?_
    omega
  rcases redrawLine_spec t ht with ⟨s', h, hs⟩ | h
  · refine .inl ⟨{ s := s' }, ?_, ?_⟩
    · show redrawLine t >>= _ = _; rw [h]; rfl
    · rw [show view s' = view t from hs.view, view_eq t]
      show (⟨line b₂ s.w.toNat (UInt32.toNat _ - s.w.toNat), UInt32.toNat _ - s.w.toNat⟩ : Editor) = _
      rw [he', hcur, show s.selectStart.toNat + (replacement c).length + (s.e.toNat - s.selectEnd.toNat) - s.w.toNat =
        s.selectStart.toNat + (replacement c).length - s.w.toNat + (s.e.toNat - s.selectEnd.toNat) by
        omega, hline, Editor.replace]
      simp only [Editor.mk.injEq, true_and]
      omega
  · refine .inr ?_
    show redrawLine t >>= _ = _; rw [h]; rfl

theorem oob_of_not_inRange (hc : Replaces c) (hsel : s.selectMode = .selected) (hr : Range s)
    (hin : ¬ ReplaceInRange s c) : ∃ i, key s c = .error (.oob i) := by
  have hclose := closeGap_eq c hr
  obtain ⟨h1, h2, h3⟩ := hr
  have hle := length_replacement_le c
  by_cases hmid : s.selectEnd < s.e → s.e.toNat ≤ INPUT_BUF
  · -- the place of the character is behind the array
    have hstart : replacement c ≠ [] ∧ ¬ s.selectStart.toNat < INPUT_BUF := by
      by_contra h
      exact hin ⟨fun hne => by_contra fun hlt => h ⟨hne, hlt⟩, hmid⟩
    obtain ⟨b, hb⟩ := memmove_ok s.buf s.buf (s.selectStart.toNat + (replacement c).length) s.selectEnd.toNat
      (s.e.toNat - s.selectEnd.toNat) fun h => by
        have := hmid (UInt32.lt_iff_toNat_lt.2 (by omega)); omega
    obtain ⟨x, m, hkey⟩ := key_replace_ok hc hsel (hclose.trans hb)
    refine ⟨s.selectStart.toNat, ?_⟩
    rw [hkey, if_pos hstart.1, setAt, dif_neg hstart.2]
    rfl
  · have hmid : s.selectEnd < s.e ∧ INPUT_BUF < s.e.toNat := by simpa only [Classical.not_imp, Nat.not_le] using hmid
    have hlt := UInt32.lt_iff_toNat_lt.1 hmid.1
    obtain ⟨i, hi⟩ := memmove_oob s.buf s.buf (s.selectStart.toNat + (replacement c).length)
      s.selectEnd.toNat (s.e.toNat - s.selectEnd.toNat) (by omega) (by omega)
    exact ⟨i, key_replace_error hc hsel (hclose.trans hi)⟩

/-- In a run whose selections are ended inside the line every range is inside it, the length given to
`memmove` does not wrap, and a key replaces the selection as in the list exactly if what it writes and
moves is inside the array. -/
theorem selection_replaced (s : Input) (hr : Reach consInit consStep SelectsInside s) (hm : s.selectMode = .selected) :
    (s.w ≤ s.selectStart ∧ s.selectStart < s.selectEnd ∧ s.selectEnd ≤ s.e) ∧
    s.selectEnd.toNat + (s.e - s.selectEnd).toNat = s.e.toNat ∧
    ∀ c, Replaces c → s.e.toNat ≤ 2 ^ 31 → (ReplacesExactly s c ↔ ReplaceInRange s c) := by
  have hrange := range_reach hr hm
  have h1 := hrange.low
  have h2 := hrange.mid
  have h3 := hrange.high
  refine ⟨⟨UInt32.le_iff_toNat_le.2 h1, UInt32.lt_iff_toNat_lt.2 (by omega), UInt32.le_iff_toNat_le.2 h3⟩, ?_, ?_⟩
  · rw [toNat_sub h3]; omega
  · intro c hc he
    constructor
    · intro hex
      by_contra hin
      obtain ⟨i, hi⟩ := oob_of_not_inRange hc hm hrange hin
      rcases hex with ⟨o, ho, -⟩ | ho
      · rw [hi] at ho; cases ho
      · rw [hi] at ho; cases ho
    · exact replaces_of_inRange hc hm hrange he

/-- Of three characters the first two are selected and replaced. -/
theorem selection_replaced_two : ∃ s, Reach consInit consStep SelectsInside s ∧ ReplacesExactly s 120 := by
  have hrun : (runActs (guarded consStep SelectsInside) { pos := 0 } [.key 97, .key 98, .key 99, .key keyLf, .key keyLf,
      .key keyLf, .key ctrlS, .key keyRt, .key ctrlS]).any (fun s =>
        decide (s.selectMode = .selected) && decide (s.e.toNat ≤ 2 ^ 31) && decide (ReplaceInRange s 120)) = true := by
    decide +kernel
  obtain ⟨s, hr, hs⟩ := exists_reach_of_guarded_run consInit SelectsInside ⟨0, rfl⟩ _ _ hrun
  rw [Bool.and_eq_true, Bool.and_eq_true, decide_eq_true_eq, decide_eq_true_eq, decide_eq_true_eq] at hs
  obtain ⟨⟨hm, he⟩, hin⟩ := hs
  exact ⟨s, hr, ((selection_replaced s hr hm).2.2 120 (by decide) he).2 hin⟩

/-- A selection from the start of a line of two characters up to the cursor at its end: the range reaches
one place too far, and the length given to `memmove` wraps. -/
theorem selection_past_end : ∃ s, Reachable consInit consStep s ∧ s.selectMode = .selected ∧ s.selectEnd = 3 ∧ s.e = 2 ∧
    (s.e - s.selectEnd).toNat = 2 ^ 32 - 1 ∧ ∃ i, key s 120 = .error (.oob i) := by
  have hrun : (runActs consStep { pos := 0 }
      [.key 97, .key 98, .key keyLf, .key keyLf, .key ctrlS, .key keyRt, .key keyRt, .key ctrlS]).any
      (fun s => decide (s.selectMode = .selected ∧ s.selectEnd = 3 ∧ s.e = 2) && match key s 120 with
        | .error (.oob _) => true
        | _ => false) = true := by decide +kernel
  obtain ⟨s, hr, hs⟩ := exists_reachable_of_run consInit ⟨0, rfl⟩ _ _ hrun
  rw [Bool.and_eq_true, decide_eq_true_eq] at hs
  obtain ⟨⟨hm, hend, he⟩, hs⟩ := hs
  refine ⟨s, hr, hm, hend, he, by rw [hend, he]; rfl, ?_⟩
  split at hs
  · rename_i i hi; exact ⟨i, hi⟩
  · cases hs

end Xv6.Console
