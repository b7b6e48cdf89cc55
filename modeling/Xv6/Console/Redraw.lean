/-
Output and `console_print_and_redraw`. The system call puts the line and its indices back as the last
Tab found them, whatever has happened since, inserts the rest of a single match at the cursor or
lists several, and redraws the line. After it the indices are in order and every access was inside
`input.buf`, if they were in order when Tab was pressed and the rest of the match fits; that the
read index does not go back over bytes already delivered needs that nobody has read since the Tab.
-/
import Xv6.Console.Editor
import Mathlib.Data.List.DropRight

namespace Xv6.Console

open Base

/-! ## Output -/

/-- A text at the cursor. -/
def putBytes : List UInt8 → Nat → Except Fault Nat
  | [], pos => .ok pos
  | c :: l, pos => do
    let pos ← cgaputc pos (glyph c false)
    putBytes l pos

def consolewrite (s : Input) (buf : List UInt8) : Except Fault Input := do
  let pos ← putBytes buf s.pos
  .ok { s with pos := pos }

/-! ## Completion -/

/-- The line and its indices as Tab saved them. -/
def restore (s : Input) : Input :=
  { s with buf := s.savedBuf, r := s.savedR, w := s.savedW, e := s.savedE, cursor := s.savedCursor }

/-- `is_multiple`: the first newline is followed by another character. -/
def isMultiple : List UInt8 → Bool
  | [] => false
  | c :: l => if c = newline then !l.isEmpty else isMultiple l

/-- `prefix_start`, with `n` characters of the line before it: the loop over the word before the
cursor. -/
def prefixStart (s : Input) : Nat → UInt32 → Except Fault UInt32
  | 0, i => .ok i
  | n + 1, i => do
    let c ← bufAt s.buf ((i - 1).toInt32.toInt.tmod INPUT_BUF)
    if c ≠ space then prefixStart s n (i - 1) else .ok i

/-- The string without a newline at its end: its length is `completion_len`. -/
def completion (str : List UInt8) : List UInt8 := if str.getLast? = some newline then str.dropLast else str

/-- One match: what it has behind the word before the cursor goes in there. -/
def completeLine (s : Input) (str : List UInt8) : Except Fault Input := do
  let start ← prefixStart s (s.cursor.toNat - s.w.toNat) s.cursor
  let prefixLen := (s.cursor - start).toInt32.toInt
  -- a negative length makes the loop read before the string
  if prefixLen < 0 then .error (.oob prefixLen)
  else ((completion str).drop prefixLen.toNat).foldlM insertChar s

/-- Several matches: a line with all of them, the prompt and the pending line. -/
def listMatches (s : Input) (str : List UInt8) : Except Fault Input := do
  let pos ← cgaputc s.pos .newline
  let pos ← putMany .cell str.length pos
  let pos ← cgaputc pos .newline
  let startPos ← putMany .cell 2 pos
  let pos ← redrawCells { s with selectMode := .off } (s.e.toNat - s.w.toNat) s.w startPos
  .ok (setCursorPos { s with startPos := startPos, pos := pos } (startPos + (s.cursor - s.w).toNat))

/-- What becomes of the restored line. -/
def showMatches (s : Input) (str : List UInt8) : Except Fault Input :=
  if isMultiple str = false then completeLine s str
  else if s.tabPressCount > 1 then listMatches s str
  else .ok s

def consolePrintAndRedraw (s : Input) (str : List UInt8) : Except Fault Input := do
  let s ← showMatches (restore s) str
  redrawLine { s with autocompleteActive := false }

/-! ## The console as a whole -/

/-- A key, a section of `consoleread`, a `consolewrite`, or `redraw_console` by any process. -/
inductive ConsAct
  | key (c : UInt8)
  | read (target n : Nat)
  | write (buf : List UInt8)
  | redraw (str : List UInt8)
  deriving DecidableEq, Repr

/-- One step; one that faults has none. -/
def consStep (s : Input) : ConsAct → Option Input
  | .key c => (key s c).toOption.map Outcome.s
  | .read target n => some (consoleread target n s []).1
  | .write buf => (consolewrite s buf).toOption
  | .redraw str => (consolePrintAndRedraw s str).toOption

/-- After `consoleinit`, with the screen's cursor anywhere. -/
def consInit (s : Input) : Prop := ∃ pos, s = { pos := pos }

/-! ## The word before the cursor -/

/-- The end of a text from its last space on. -/
def lastWord (l : List UInt8) : List UInt8 := l.rtakeWhile fun c => decide (c ≠ space)

theorem lastWord_concat (l : List UInt8) (c : UInt8) :
    lastWord (l ++ [c]) = if c ≠ space then lastWord l ++ [c] else [] := by
  rw [lastWord, List.rtakeWhile_concat]
  simp only [decide_eq_true_eq]
  rfl

theorem lastWord_append (l r : List UInt8) : lastWord (l ++ r) = if space ∈ r then lastWord r else lastWord l ++ r := by
  have hall : (r.reverse.takeWhile fun c => decide (c ≠ space)).length = r.reverse.length ↔ ¬ space ∈ r := by
    constructor
    · intro h hs
      have hpre := List.takeWhile_prefix (fun c => decide (c ≠ space)) (l := r.reverse)
      have hmem : space ∈ r.reverse.takeWhile fun c => decide (c ≠ space) := by
        rw [hpre.eq_of_length h]; exact List.mem_reverse.2 hs
      exact absurd (List.mem_takeWhile_imp hmem) (by decide)
    · intro hs
      rw [List.takeWhile_eq_self_iff.2]
      intro c hc
      refine decide_eq_true ?_
      rintro rfl
      exact hs (List.mem_reverse.1 hc)
  unfold lastWord List.rtakeWhile
  rw [List.reverse_append, List.takeWhile_append]
  by_cases hs : space ∈ r
  · rw [if_neg (mt hall.1 (not_not.2 hs)), if_pos hs]
  · rw [if_pos (hall.2 hs), if_neg hs, List.reverse_append, List.reverse_reverse]

theorem prefixStart_spec (s : Input) : ∀ (n : Nat) (i : UInt32), i.toNat ≤ 2 ^ 31 → n ≤ i.toNat →
    ∃ j, prefixStart s n i = .ok j ∧ j.toNat + (lastWord (line s.buf (i.toNat - n) n)).length = i.toNat
  | 0, i, _, _ => ⟨i, rfl, rfl⟩
  | n + 1, i, hi, hn => by
    have hpred := toNat_pred (x := i) (by omega)
    have hline : line s.buf (i.toNat - (n + 1)) (n + 1) = line s.buf ((i - 1).toNat - n) n ++
        [s.buf (ring (i - 1).toNat)] := by
      show Ring.window _ _ _ = Ring.window _ _ _ ++ _
      rw [Ring.window_add, show i.toNat - (n + 1) = (i - 1).toNat - n by omega]
      congr 1
      rw [show (i - 1).toNat - n + n = (i - 1).toNat by omega]
      rfl
    rw [hline, lastWord_concat, prefixStart, bufAt_ring s.buf (by omega)]
    by_cases hc : s.buf (ring (i - 1).toNat) ≠ space
    · obtain ⟨j, hj, hlen⟩ := prefixStart_spec s n (i - 1) (by omega) (by omega)
      refine ⟨j, ?_, ?_⟩
      · show (if _ then _ else _) = _; rw [if_pos hc, hj]
      · rw [if_pos hc, List.length_append, List.length_singleton]; omega
    · refine ⟨i, ?_, ?_⟩
      · show (if _ then _ else _) = _; rw [if_neg hc]
      · rw [if_neg hc]; rfl

/-! ## The insertion -/

/-- `s'` is `s` with `xs` typed in at the cursor, as far as the line goes. -/
structure Typed (s : Input) (xs : List UInt8) (s' : Input) : Prop where
  r : s'.r = s.r
  w : s'.w = s.w
  e : s'.e.toNat = s.e.toNat + xs.length
  cursor : s'.cursor.toNat = s.cursor.toNat + xs.length
  text : ∀ a ≤ s.cursor.toNat, s.e.toNat + xs.length - a ≤ INPUT_BUF → line s'.buf a (s'.e.toNat - a) =
    (line s.buf a (s.e.toNat - a)).take (s.cursor.toNat - a) ++ xs ++
      (line s.buf a (s.e.toNat - a)).drop (s.cursor.toNat - a)

theorem Typed.refl (s : Input) : Typed s [] s := by
  refine ⟨rfl, rfl, rfl, rfl, ?_⟩
  intro a _ _
  rw [List.append_nil, List.take_append_drop]

variable {s : Input} {s' s₁ s₂ : Input} {c : UInt8} {xs str : List UInt8} {α : Type}

theorem Typed.trans {ys : List UInt8} (hce : s.cursor.toNat ≤ s.e.toNat) (h₁ : Typed s xs s₁) (h₂ : Typed s₁ ys s₂) :
    Typed s (xs ++ ys) s₂ := by
  have he := h₁.e
  have hc := h₁.cursor
  refine ⟨h₂.r.trans h₁.r, h₂.w.trans h₁.w, ?_, ?_, ?_⟩
  · rw [h₂.e, he, List.length_append, add_assoc]
  · rw [h₂.cursor, hc, List.length_append, add_assoc]
  · intro a ha hlen
    rw [List.length_append] at hlen
    have hmid : ((line s.buf a (s.e.toNat - a)).take (s.cursor.toNat - a) ++ xs).length = s₁.cursor.toNat - a := by
      rw [List.length_append, List.length_take, length_line]; omega
    rw [h₂.text a (by omega) (by omega), h₁.text a ha (by omega), ← hmid, List.take_left, List.drop_left,
      List.append_assoc _ xs ys]

theorem Typed.sameLine (h : Typed s xs s₁) (hs : SameLine s₁ s₂) : Typed s xs s₂ := by
  obtain ⟨hb, hr, hw, he, hc, -⟩ := hs
  refine ⟨hr.trans h.r, hw.trans h.w, ?_, ?_, ?_⟩
  · rw [he, h.e]
  · rw [hc, h.cursor]
  · rw [hb, he]; exact h.text

theorem insertChar_typed (c : UInt8) (hce : s.cursor.toNat ≤ s.e.toNat) (he : s.e.toNat < 2 ^ 31)
    (hmid : s.cursor < s.e → s.e.toNat < INPUT_BUF) : ∃ s', insertChar s c = .ok s' ∧ Typed s [c] s' := by
  obtain ⟨b, hb, hline⟩ := insertChar_spec c hce he hmid
  have hsucc := toNat_succ (x := s.e) (by omega)
  refine ⟨_, hb, rfl, rfl, hsucc, toNat_succ (by omega), ?_⟩
  intro a ha hlen
  have hlen : s.e.toNat + 1 - a ≤ INPUT_BUF := hlen
  show line b a ((s.e + 1).toNat - a) = _
  rw [hsucc, show s.e.toNat + 1 - a = s.e.toNat - a + 1 by omega, hline a ha (by omega), List.append_assoc]
  rfl

theorem insertChars_typed : ∀ (xs : List UInt8) {s : Input}, s.cursor.toNat ≤ s.e.toNat →
    s.e.toNat + xs.length ≤ 2 ^ 31 → (xs ≠ [] → s.cursor < s.e → s.e.toNat + xs.length ≤ INPUT_BUF) →
    ∃ s', xs.foldlM insertChar s = .ok s' ∧ Typed s xs s'
  | [], s, _, _, _ => ⟨s, rfl, Typed.refl s⟩
  | c :: xs, s, hce, he, hmid => by
    rw [List.length_cons] at he hmid
    have hmid := hmid (List.cons_ne_nil c xs)
    obtain ⟨s₁, h₁, ht₁⟩ := insertChar_typed c hce (by omega) fun h => by have := hmid h; omega
    have he₁ : s₁.e.toNat = s.e.toNat + 1 := ht₁.e
    have hc₁ : s₁.cursor.toNat = s.cursor.toNat + 1 := ht₁.cursor
    obtain ⟨s₂, h₂, ht₂⟩ := insertChars_typed xs (s := s₁) (by omega) (by omega) fun _ h => by
      have h := UInt32.lt_iff_toNat_lt.1 h
      have := hmid (UInt32.lt_iff_toNat_lt.2 (by omega))
      omega
    refine ⟨s₂, ?_, ht₁.trans hce ht₂⟩
    rw [List.foldlM_cons, h₁]
    exact h₂

theorem insertChars_oob : ∀ (xs : List UInt8) {s : Input}, xs ≠ [] → s.cursor < s.e →
    s.e.toNat + xs.length ≤ 2 ^ 31 → INPUT_BUF < s.e.toNat + xs.length → ∃ i, xs.foldlM insertChar s = .error (.oob i)
  | [], _, h, _, _, _ => absurd rfl h
  | c :: xs, s, _, hlt, he, hbig => by
    rw [List.length_cons] at he hbig
    have hlt' := UInt32.lt_iff_toNat_lt.1 hlt
    rw [List.foldlM_cons]
    by_cases hfull : INPUT_BUF ≤ s.e.toNat
    · obtain ⟨i, hi⟩ := insertChar_oob c hlt (by omega) hfull; exact ⟨i, by rw [hi]; rfl⟩
    · obtain ⟨s₁, h₁, ht₁⟩ := insertChar_typed c hlt'.le (by omega) fun _ => by omega
      have he₁ : s₁.e.toNat = s.e.toNat + 1 := ht₁.e
      have hc₁ : s₁.cursor.toNat = s.cursor.toNat + 1 := ht₁.cursor
      rw [h₁]
      refine insertChars_oob xs ?_ (UInt32.lt_iff_toNat_lt.2 (by omega)) (by omega) (by omega)
      rintro rfl
      rw [List.length_nil] at hbig
      omega

/-! ## The system call -/

/-- Indices as the editor keeps them. -/
structure InOrder (r w cursor e : UInt32) : Prop where
  rw : r.toNat ≤ w.toNat
  wc : w.toNat ≤ cursor.toNat
  ce : cursor.toNat ≤ e.toNat
  er : e.toNat ≤ r.toNat + INPUT_BUF

/-- The word before the cursor in the saved line. -/
def savedWord (s : Input) :
    List UInt8 := lastWord (line s.savedBuf s.savedW.toNat (s.savedCursor.toNat - s.savedW.toNat))

/-- What the call inserts. -/
def suffix (s : Input) (str : List UInt8) : List UInt8 :=
  if isMultiple str = false then (completion str).drop (savedWord s).length else []

theorem length_lastWord_le (l : List UInt8) : (lastWord l).length ≤ l.length :=
  (List.rtakeWhile_suffix _ l).length_le

theorem completeLine_eq (hord : InOrder s.savedR s.savedW s.savedCursor s.savedE) (he : s.savedE.toNat ≤ 2 ^ 31)
    (str : List UInt8) :
    completeLine (restore s) str = ((completion str).drop (savedWord s).length).foldlM insertChar (restore s) := by
  have h1 := hord.wc
  have h2 := hord.ce
  have h3 := hord.er
  have h4 := hord.rw
  obtain ⟨j, hj, hlen⟩ := prefixStart_spec (restore s) (s.savedCursor.toNat - s.savedW.toNat)
    s.savedCursor (by omega) (by omega)
  rw [show s.savedCursor.toNat - (s.savedCursor.toNat - s.savedW.toNat) = s.savedW.toNat by omega] at hlen
  have hlen : j.toNat + (savedWord s).length = s.savedCursor.toNat := hlen
  have hword := length_lastWord_le (line s.savedBuf s.savedW.toNat (s.savedCursor.toNat - s.savedW.toNat))
  rw [length_line] at hword
  have hword : (savedWord s).length ≤ s.savedCursor.toNat - s.savedW.toNat := hword
  have hint : (s.savedCursor - j).toInt32.toInt = ((savedWord s).length : Int) := by
    have hsub := toNat_sub (x := s.savedCursor) (y := j) (by omega)
    show (s.savedCursor - j).toBitVec.toInt = _
    rw [BitVec.toInt_eq_toNat_of_lt]
    · show ((s.savedCursor - j).toNat : Int) = _; omega
    · show 2 * (s.savedCursor - j).toNat < 2 ^ 32
      simp only [INPUT_BUF] at h3
      omega
  show (prefixStart (restore s) (s.savedCursor.toNat - s.savedW.toNat) s.savedCursor >>= _) = _
  rw [hj]
  show (if (s.savedCursor - j).toInt32.toInt < 0 then _
    else ((completion str).drop (s.savedCursor - j).toInt32.toInt.toNat).foldlM insertChar (restore s)) = _
  rw [hint, if_neg (by omega), Int.toNat_natCast]

theorem noOob_listMatches (s : Input) (str : List UInt8) (he : s.e.toNat ≤ 2 ^ 31) : NoOob (listMatches s str) := by
  refine (noOob_cgaputc _ _).bind fun p₁ => (noOob_putMany _ _ _).bind fun p₂ => (noOob_cgaputc _ _).bind fun p₃ =>
    (noOob_putMany _ _ _).bind fun p₄ => NoOob.bind ?_ fun p₅ => .inl ⟨_, rfl⟩
  by_cases hw : s.w.toNat ≤ s.e.toNat
  · exact noOob_redrawCells _ _ _ _ (by omega)
  · rw [Nat.sub_eq_zero_of_le (by omega)]; exact .inl ⟨_, rfl⟩

theorem listMatches_eq_ok (h : listMatches s str = .ok s') :
    ∃ x y, s' = { s with startPos := x, pos := y } := by
  obtain ⟨p₁, -, h⟩ := bind_eq_ok h
  obtain ⟨p₂, -, h⟩ := bind_eq_ok h
  obtain ⟨p₃, -, h⟩ := bind_eq_ok h
  obtain ⟨p₄, -, h⟩ := bind_eq_ok h
  obtain ⟨p₅, -, h⟩ := bind_eq_ok h
  cases h
  exact ⟨_, _, rfl⟩

/-- In the middle of the saved line there is room for the rest of the match. -/
def SuffixFits (s : Input) (str : List UInt8) : Prop :=
  suffix s str ≠ [] → s.savedCursor < s.savedE → s.savedE.toNat + (suffix s str).length ≤ INPUT_BUF

instance (s : Input) (str : List UInt8) : Decidable (SuffixFits s str) := inferInstanceAs (Decidable (_ → _ → _))

section

variable (hord : InOrder s.savedR s.savedW s.savedCursor s.savedE)
  (he : s.savedE.toNat + (suffix s str).length ≤ 2 ^ 31)

include hord he

theorem showMatches_typed (hfit : SuffixFits s str) :
    (∃ s', showMatches (restore s) str = .ok s' ∧ Typed (restore s) (suffix s str) s') ∨
      showMatches (restore s) str = .error .panic := by
  unfold showMatches
  by_cases hm : isMultiple str = false
  · have hsuf : suffix s str = (completion str).drop (savedWord s).length := if_pos hm
    rw [SuffixFits, hsuf] at hfit
    rw [hsuf] at he ⊢
    rw [if_pos hm, completeLine_eq hord (by omega)]
    exact .inl (insertChars_typed _ (s := restore s) hord.ce he hfit)
  · have hsuf : suffix s str = [] := if_neg hm
    rw [if_neg hm, hsuf]
    split
    · rcases noOob_listMatches (restore s) str (by show s.savedE.toNat ≤ _; omega) with ⟨s', h⟩ | h
      · obtain ⟨x, y, rfl⟩ := listMatches_eq_ok h
        exact .inl ⟨_, h, (Typed.refl _).sameLine ⟨rfl, rfl, rfl, rfl, rfl, rfl⟩⟩
      · exact .inr h
    · exact .inl ⟨_, rfl, Typed.refl _⟩

/-- After the call the saved line stands there with the rest of the match, or the screen has panicked. -/
theorem redraw_typed (hfit : SuffixFits s str) :
    (∃ s', consolePrintAndRedraw s str = .ok s' ∧ Typed (restore s) (suffix s str) s' ∧ s'.autocompleteActive = false) ∨
      consolePrintAndRedraw s str = .error .panic := by
  rcases showMatches_typed hord he hfit with ⟨s₁, h₁, ht⟩ | h₁
  · have he₁ : s₁.e.toNat = s.savedE.toNat + (suffix s str).length := ht.e
    have hred : consolePrintAndRedraw s str = redrawLine { s₁ with autocompleteActive := false } := by
      unfold consolePrintAndRedraw; rw [h₁]; rfl
    rw [hred]
    rcases redrawLine_spec { s₁ with autocompleteActive := false } (by simp only; omega) with ⟨s₂, h₂, hs⟩ | h₂
    · refine .inl ⟨s₂, h₂, (ht.sameLine ⟨rfl, rfl, rfl, rfl, rfl, rfl⟩).sameLine hs, ?_⟩
      obtain ⟨p, l, rfl⟩ := redrawLine_eq_ok h₂
      rfl
    · exact .inr h₂
  · refine .inr ?_
    unfold consolePrintAndRedraw; rw [h₁]; rfl

theorem redraw_oob (hfit : ¬ SuffixFits s str) :
    ∃ i, consolePrintAndRedraw s str = .error (.oob i) := by
  have hbig : suffix s str ≠ [] ∧ s.savedCursor < s.savedE ∧ INPUT_BUF < s.savedE.toNat + (suffix s str).length := by
    simpa only [SuffixFits, Classical.not_imp, Nat.not_le] using hfit
  obtain ⟨hne, hlt, hbig⟩ := hbig
  have hm : isMultiple str = false := by
    by_contra hm
    exact hne (if_neg hm)
  have hsuf : suffix s str = (completion str).drop (savedWord s).length := if_pos hm
  rw [hsuf] at hne he hbig
  obtain ⟨i, hi⟩ := insertChars_oob _ (s := restore s) hne hlt he hbig
  refine ⟨i, ?_⟩
  unfold consolePrintAndRedraw showMatches
  rw [if_pos hm, completeLine_eq hord (by omega), hi]
  rfl

end

/-! ## What a step leaves alone -/

/-- The snapshot Tab took. -/
def snapshot (s : Input) :
    Buf × UInt32 × UInt32 × UInt32 × UInt32 := (s.savedBuf, s.savedR, s.savedW, s.savedE, s.savedCursor)

/-- The snapshot is kept, and the selection stays or ends. -/
structure Keeps (s s' : Input) : Prop where
  snap : snapshot s' = snapshot s
  mode : s'.selectMode = s.selectMode ∨ s'.selectMode = .off

theorem Keeps.trans (h₁ : Keeps s s₁) (h₂ : Keeps s₁ s₂) : Keeps s s₂ := by
  refine ⟨h₂.snap.trans h₁.snap, ?_⟩
  rcases h₂.mode with h | h
  · rw [h]; exact h₁.mode
  · exact .inr h

theorem keeps_redrawLine (h : redrawLine s₁ = .ok s') (hk : Keeps s s₁) : Keeps s s' := by
  obtain ⟨p, l, rfl⟩ := redrawLine_eq_ok h; exact ⟨hk.snap, hk.mode⟩

theorem keeps_insertChar (h : insertChar s c = .ok s') : Keeps s s' := by
  rw [insertChar_eq] at h
  obtain ⟨b, -, h⟩ := bind_eq_ok h
  cases h
  exact ⟨rfl, .inl rfl⟩

theorem keeps_insert (h : insert s c = .ok s') : Keeps s s' := by
  by_cases hacc : s.e - s.r < 128 ∧ c ≠ carriageReturn
  · obtain ⟨b, x, y, z, -, rfl⟩ := insert_eq_ok hacc h; exact ⟨rfl, .inl rfl⟩
  · rw [insert, if_neg hacc] at h; cases h; exact ⟨rfl, .inl rfl⟩

theorem keeps_killLine (h : killLine s = .ok s') : Keeps s s' := by
  obtain ⟨p, -, h⟩ := bind_eq_ok h; cases h; exact ⟨rfl, .inl rfl⟩

theorem keeps_backspace (h : backspace s = .ok s') : Keeps s s' := by
  rw [backspace_eq] at h
  split at h
  · obtain ⟨b, -, h⟩ := bind_eq_ok h; exact keeps_redrawLine h ⟨rfl, .inl rfl⟩
  · cases h; exact ⟨rfl, .inl rfl⟩

theorem keeps_undo (h : undo s = .ok s') : Keeps s s' := by
  unfold undo at h
  split at h
  · simp only at h
    split at h
    · obtain ⟨b, -, h⟩ := bind_eq_ok h; exact keeps_redrawLine h ⟨rfl, .inl rfl⟩
    · cases h; exact ⟨rfl, .inl rfl⟩
  · cases h; exact ⟨rfl, .inl rfl⟩

theorem keeps_paste (h : paste s = .ok s') : Keeps s s' := by
  unfold paste at h
  split at h
  · simp only at h
    split at h
    · obtain ⟨b₁, -, h⟩ := bind_eq_ok h
      obtain ⟨b₂, -, h⟩ := bind_eq_ok h
      exact keeps_redrawLine h ⟨rfl, .inl rfl⟩
    · cases h; exact ⟨rfl, .inl rfl⟩
  · cases h; exact ⟨rfl, .inl rfl⟩

theorem keeps_enter (h : enter s = .ok s') : Keeps s s' := by
  obtain ⟨p, -, h⟩ := bind_eq_ok h; cases h; exact ⟨rfl, .inr rfl⟩

theorem keeps_cursorLeft (s : Input) : Keeps s (cursorLeft s) := by
  unfold cursorLeft
  split <;> exact ⟨rfl, .inl rfl⟩

theorem keeps_cursorRight (s : Input) : Keeps s (cursorRight s) := by
  unfold cursorRight
  split <;> exact ⟨rfl, .inl rfl⟩

theorem keeps_wordRight (s : Input) : Keeps s (wordRight s) := by
  unfold wordRight
  simp only
  split <;> exact ⟨rfl, .inl rfl⟩

/-- What a key does to the snapshot and to the selection: Tab takes a new snapshot, Ctrl-S and the keys
of a selection set the mode, and the others keep both or end the selection. -/
inductive KeyCase (s : Input) (c : UInt8) (s' : Input) : Prop
  | snap (hc : c = tab) (hsel : s.selectMode ≠ .selected) (ha : s.autocompleteActive = false) (hs : s' = tabKey s)
  | selected (h0 : c ≠ 0) (hsel : s.selectMode = .selected) (hs : keySelected s c = .ok s')
  | select (hc : c = ctrlS) (hsel : s.selectMode ≠ .selected) (hs : selectKey { s with tabPressCount := 0 } = .ok s')
  | ignored (hs : s' = s)
  | keeps (hsel : s.selectMode ≠ .selected) (hk : Keeps s s')

theorem key_cases {o : Outcome} (h : key s c = .ok o) : KeyCase s c o.s := by
  have hcount : Keeps s { s with tabPressCount := 0 } := ⟨rfl, .inl rfl⟩
  -- an operation that keeps both
  have key_op : ∀ {x : Except Fault Input}, (∀ {s'}, x = .ok s' → Keeps s s') → ∀ {w : Bool},
      (x >>= fun s => .ok { s := s, wake := w }) = .ok o → Keeps s o.s := by
    intro x hk w hx
    obtain ⟨s', hs, hx⟩ := bind_eq_ok hx
    cases hx
    exact hk hs
  unfold key at h
  extract_lets t at h
  obtain ⟨-, h⟩ | ⟨h0, h⟩ := ite_eq_iff.1 h
  · cases h; exact .ignored rfl
  obtain ⟨hsel, h⟩ | ⟨hsel, h⟩ := ite_eq_iff.1 h
  · obtain ⟨s', hs, h⟩ := bind_eq_ok h; cases h; exact .selected h0 hsel hs
  obtain ⟨-, h⟩ | ⟨-, h⟩ := ite_eq_iff.1 h
  · cases h; exact .keeps hsel hcount
  obtain ⟨-, h⟩ | ⟨-, h⟩ := ite_eq_iff.1 h
  · exact .keeps hsel (key_op (fun hs => hcount.trans (keeps_killLine hs)) h)
  obtain ⟨-, h⟩ | ⟨-, h⟩ := ite_eq_iff.1 h
  · exact .keeps hsel (key_op (fun hs => hcount.trans (keeps_backspace hs)) h)
  obtain ⟨-, h⟩ | ⟨-, h⟩ := ite_eq_iff.1 h
  · exact .keeps hsel (key_op (fun hs => hcount.trans (keeps_undo hs)) h)
  obtain ⟨hc, h⟩ | ⟨-, h⟩ := ite_eq_iff.1 h
  · obtain ⟨s', hs, h⟩ := bind_eq_ok h; cases h; exact .select hc hsel hs
  obtain ⟨-, h⟩ | ⟨-, h⟩ := ite_eq_iff.1 h
  · exact .keeps hsel (key_op (fun hs => hcount.trans (keeps_paste hs)) h)
  obtain ⟨-, h⟩ | ⟨-, h⟩ := ite_eq_iff.1 h
  · cases h; exact .keeps hsel (hcount.trans (keeps_cursorLeft _))
  obtain ⟨-, h⟩ | ⟨-, h⟩ := ite_eq_iff.1 h
  · cases h; exact .keeps hsel (hcount.trans (keeps_cursorRight _))
  obtain ⟨-, h⟩ | ⟨-, h⟩ := ite_eq_iff.1 h
  · cases h; exact .keeps hsel (hcount.trans (keeps_wordRight _))
  obtain ⟨-, h⟩ | ⟨-, h⟩ := ite_eq_iff.1 h
  · cases h; exact .keeps hsel ⟨rfl, .inl rfl⟩
  obtain ⟨-, h⟩ | ⟨-, h⟩ := ite_eq_iff.1 h
  · exact .keeps hsel (key_op keeps_enter h)
  obtain ⟨hc, h⟩ | ⟨-, h⟩ := ite_eq_iff.1 h
  · obtain ⟨ha, h⟩ | ⟨-, h⟩ := ite_eq_iff.1 h
    · cases h; exact .snap hc hsel ha rfl
    · cases h; exact .keeps hsel ⟨rfl, .inl rfl⟩
  · exact .keeps hsel (key_op keeps_insert h)

theorem snapshot_selectKey (h : selectKey s = .ok s') : snapshot s' = snapshot s := by
  unfold selectKey at h
  split at h
  · cases h; rfl
  · obtain ⟨p, l, rfl⟩ := redrawLine_eq_ok h
    split <;> split <;> rfl

theorem historyAdjustAfterDelete_foldl (f : Input → UInt32) : ∀ (l : List Nat) (s : Input),
    ∃ h, l.foldl (fun s _ => historyAdjustAfterDelete s (f s)) s = { s with history := h }
  | [], s => ⟨s.history, rfl⟩
  | _ :: l, s => by
    obtain ⟨h, e⟩ := historyAdjustAfterDelete_foldl f l (historyAdjustAfterDelete s (f s))
    exact ⟨h, e⟩

/-- The replacement writes one cell at most; the rest of its work is on the history. -/
theorem replaceSelection_eq (s : Input) (len n : UInt32) (c : UInt8) : ∃ x m, replaceSelection s len n c =
    (if n > 0 then setAt s.buf s.selectStart.toNat c else .ok s.buf) >>= fun b =>
      .ok { s with buf := b, history := x, historyPos := m } := by
  unfold replaceSelection
  by_cases hn : n > 0
  · rw [if_pos hn, if_pos hn]
    by_cases hp : s.historyPos < HISTORY_SIZE
    · refine ⟨Function.update (historyAdjustAfterInsert s s.selectStart).history ⟨s.historyPos, hp⟩ s.selectStart,
        s.historyPos + 1, ?_⟩
      congr 1
      funext b
      exact congrArg Except.ok (dif_pos hp)
    · refine ⟨(historyAdjustAfterInsert s s.selectStart).history, s.historyPos, ?_⟩
      congr 1
      funext b
      exact congrArg Except.ok (dif_neg hp)
  · rw [if_neg hn, if_neg hn]
    obtain ⟨x, e⟩ := historyAdjustAfterDelete_foldl Input.selectStart (List.range len.toNat) s
    exact ⟨x, s.historyPos, congrArg Except.ok e⟩

theorem replaceSelection_eq_ok {len n : UInt32} (h : replaceSelection s len n c = .ok s') :
    ∃ b x m, s' = { s with buf := b, history := x, historyPos := m } := by
  obtain ⟨x, m, e⟩ := replaceSelection_eq s len n c
  rw [e] at h
  obtain ⟨b, -, h⟩ := bind_eq_ok h
  cases h
  exact ⟨b, x, m, rfl⟩

/-- A key in a selection keeps the snapshot and the start of the line, and all but the clipboard if it leaves the
selection. -/
theorem keySelected_frame (h : keySelected s c = .ok s') : snapshot s' = snapshot s ∧ s'.w = s.w ∧
    (s'.selectMode = .selected → ∃ b l, s' = { s with clipboard := b, clipboardLen := l }) := by
  unfold keySelected at h
  obtain ⟨-, h⟩ | ⟨-, h⟩ := ite_eq_iff.1 h
  · obtain ⟨p, l, rfl⟩ := redrawLine_eq_ok h; exact ⟨rfl, rfl, nofun⟩
  obtain ⟨-, h⟩ | ⟨-, h⟩ := ite_eq_iff.1 h
  · obtain ⟨b, -, h⟩ := bind_eq_ok h
    cases h
    exact ⟨rfl, rfl, fun _ => ⟨_, _, rfl⟩⟩
  · obtain ⟨b, -, h⟩ := bind_eq_ok h
    obtain ⟨s₁, h₁, h⟩ := bind_eq_ok h
    obtain ⟨b', x, m, rfl⟩ := replaceSelection_eq_ok h₁
    obtain ⟨p, l, rfl⟩ := redrawLine_eq_ok h
    exact ⟨rfl, rfl, nofun⟩

theorem consoleread_frame (target : Nat) : ∀ (n : Nat) (s : Input) (out : List UInt8),
    ∃ r, (consoleread target n s out).1 = { s with r := r }
  | 0, s, out => ⟨s.r, rfl⟩
  | n + 1, s, out => by
    unfold consoleread
    split
    · exact ⟨s.r, rfl⟩
    · simp only
      split
      · split
        · exact ⟨s.r, rfl⟩
        · exact ⟨s.r + 1, rfl⟩
      · split
        · exact ⟨s.r + 1, rfl⟩
        · exact consoleread_frame target n { s with r := s.r + 1 } _

theorem keeps_insertChars : ∀ (xs : List UInt8) {s s' : Input}, xs.foldlM insertChar s = .ok s' → Keeps s s'
  | [], s, _, h => by
    cases h; exact ⟨rfl, .inl rfl⟩
  | c :: xs, s, s', h => by
    rw [List.foldlM_cons] at h
    obtain ⟨s₁, h₁, h⟩ := bind_eq_ok h
    exact (keeps_insertChar h₁).trans (keeps_insertChars xs h)

theorem keeps_redraw (h : consolePrintAndRedraw s str = .ok s') : Keeps s s' := by
  obtain ⟨s₁, h₁, h⟩ := bind_eq_ok h
  have hlast : Keeps s₁ { s₁ with autocompleteActive := false } := ⟨rfl, .inl rfl⟩
  have hfirst : Keeps s (restore s) := ⟨rfl, .inl rfl⟩
  refine keeps_redrawLine h (Keeps.trans (hfirst.trans ?_) hlast)
  unfold showMatches at h₁
  split at h₁
  · obtain ⟨j, -, h₁⟩ := bind_eq_ok h₁
    simp only at h₁
    split at h₁
    · cases h₁
    · exact keeps_insertChars _ h₁
  · split at h₁
    · obtain ⟨x, y, rfl⟩ := listMatches_eq_ok h₁; exact ⟨rfl, .inl rfl⟩
    · cases h₁; exact ⟨rfl, .inl rfl⟩

/-- What a step of the console is. -/
inductive ConsCase (s : Input) : ConsAct → Input → Prop
  | key {c : UInt8} {o : Outcome} (h : key s c = .ok o) : ConsCase s (.key c) o.s
  | read {target n : Nat} (r : UInt32) (h : (consoleread target n s []).1 = { s with r := r }) :
      ConsCase s (.read target n) { s with r := r }
  | write {buf : List UInt8} (p : Nat) (h : consolewrite s buf = .ok { s with pos := p }) :
      ConsCase s (.write buf) { s with pos := p }
  | redraw {str : List UInt8} {s' : Input} (h : consolePrintAndRedraw s str = .ok s') : ConsCase s (.redraw str) s'

theorem toOption_eq_some {x : Except Fault α} {a : α} (h : x.toOption = some a) : x = .ok a := by
  rcases x with e | b
  · cases h
  · cases h; rfl

theorem exists_ok_of_any {ε : Type} {x : Except ε α} {q : α → Prop} [DecidablePred q]
    (h : x.toOption.any (fun a => decide (q a)) = true) : ∃ a, x = .ok a ∧ q a := by
  rcases x with f | a
  · cases h
  · exact ⟨a, rfl, of_decide_eq_true h⟩

theorem consStep_cases {a : ConsAct} (h : consStep s a = some s') : ConsCase s a s' := by
  cases a with
  | key c => obtain ⟨o, ho, rfl⟩ := Option.map_eq_some_iff.1 h; exact .key (toOption_eq_some ho)
  | read target n =>
    obtain ⟨r, e⟩ := consoleread_frame target n s []
    obtain rfl : { s with r := r } = s' := e.symm.trans (Option.some.inj h)
    exact .read r e
  | write buf =>
    have h := toOption_eq_some h
    obtain ⟨p, hp, e⟩ := bind_eq_ok h
    cases e
    exact .write p h
  | redraw str => exact .redraw (toOption_eq_some h)

/-! ## Any caller -/

/-- Tab finds the indices in order. -/
def TabInOrder (s : Input) : ConsAct → Prop
  | .key c => c = tab → s.selectMode ≠ .selected → s.autocompleteActive = false → InOrder s.r s.w s.cursor s.e
  | _ => True

/-- The system call leaves the indices in order and the read and write index behind the bytes
already delivered, and accesses nothing outside `input.buf`; the panic of `cgaputc` ends it. -/
def RedrawSafe (s : Input) : Except Fault Input → Prop
  | .ok s' => InOrder s'.r s'.w s'.cursor s'.e ∧ s.r ≤ s'.r ∧ s.r ≤ s'.w
  | .error .panic => True
  | .error (.oob _) => False

/-- Nothing has been read since the snapshot, and the rest of the match fits behind it. -/
def SnapshotUsable (s : Input) (str : List UInt8) : Prop :=
  s.r ≤ s.savedR ∧ s.savedE.toNat + (suffix s str).length ≤ s.savedR.toNat + INPUT_BUF ∧ SuffixFits s str

/-- In a run that presses Tab only with the indices in order, so are those of the snapshot. -/
theorem snapshot_inOrder (hr : Reach consInit consStep TabInOrder s) :
    InOrder s.savedR s.savedW s.savedCursor s.savedE := by
  -- the snapshot is what only Tab changes
  have hkeep : ∀ {s s' : Input}, snapshot s' = snapshot s → InOrder s.savedR s.savedW s.savedCursor s.savedE →
      InOrder s'.savedR s'.savedW s'.savedCursor s'.savedE := by
    intro s s' hs h
    simp only [snapshot, Prod.mk.injEq] at hs
    obtain ⟨-, h1, h2, h3, h4⟩ := hs
    rw [h1, h2, h3, h4]
    exact h
  refine Reach.inv (P := fun s => InOrder s.savedR s.savedW s.savedCursor s.savedE) ?_ ?_ hr
  · rintro _ ⟨pos, rfl⟩; exact ⟨le_rfl, le_rfl, le_rfl, Nat.zero_le _⟩
  · intro s a s' h hok hs
    cases consStep_cases hs with
    | key hk =>
      rcases key_cases hk with ⟨hc, hsel, ha, e⟩ | ⟨-, -, e⟩ | ⟨-, -, e⟩ | e | ⟨-, e⟩
      · rw [e]; exact hok hc hsel ha
      · exact hkeep (keySelected_frame e).1 h
      · exact hkeep (snapshot_selectKey e) h
      · rw [e]; exact h
      · exact hkeep e.snap h
    | read r _ => exact h
    | write p _ => exact h
    | redraw hd => exact hkeep (keeps_redraw hd).snap h

theorem length_suffix_le (s : Input) (str : List UInt8) : (suffix s str).length ≤ str.length := by
  unfold suffix completion
  split
  · rw [List.length_drop]
    split
    · rw [List.length_dropLast]; omega
    · omega
  · exact Nat.zero_le _

/-- In every state of a run that presses Tab only with the indices in order, and for every string,
`redraw_console` is safe exactly if nothing has been read since the snapshot and the rest of the match
fits behind it. -/
theorem redraw_console_safe (s : Input) (hr : Reach consInit consStep TabInOrder s) (str : List UInt8)
    (hsmall : s.savedE.toNat + str.length ≤ 2 ^ 31) :
    (SnapshotUsable s str → RedrawSafe s (consolePrintAndRedraw s str)) ∧
    (RedrawSafe s (consolePrintAndRedraw s str) →
      consolePrintAndRedraw s str = .error .panic ∨ SnapshotUsable s str) := by
  have hord := snapshot_inOrder hr
  have hlen := length_suffix_le s str
  have he : s.savedE.toNat + (suffix s str).length ≤ 2 ^ 31 := by omega
  constructor
  · rintro ⟨hread, hroom, hfit⟩
    rcases redraw_typed hord he hfit with ⟨s', h, ht, -⟩ | h
    · rw [h]
      have h1 : s'.r = s.savedR := ht.r
      have h2 : s'.w = s.savedW := ht.w
      have h3 : s'.e.toNat = s.savedE.toNat + (suffix s str).length := ht.e
      have h4 : s'.cursor.toNat = s.savedCursor.toNat + (suffix s str).length := ht.cursor
      have hrw := hord.rw
      have hwc := hord.wc
      have hce := hord.ce
      refine ⟨⟨?_, ?_, ?_, ?_⟩, ?_, ?_⟩
      · rw [h1, h2]; exact hrw
      · rw [h2, h4]; omega
      · omega
      · rw [h1, h3]; exact hroom
      · rw [h1]; exact hread
      · rw [h2]; exact UInt32.le_trans hread (UInt32.le_iff_toNat_le.2 hrw)
    · rw [h]; trivial
  · intro hsafe
    by_cases hfit : SuffixFits s str
    · rcases redraw_typed hord he hfit with ⟨s', h, ht, -⟩ | h
      · rw [h] at hsafe
        obtain ⟨hio, hread, -⟩ := hsafe
        have h1 : s'.r = s.savedR := ht.r
        have h3 : s'.e.toNat = s.savedE.toNat + (suffix s str).length := ht.e
        refine .inr ⟨?_, ?_, hfit⟩
        · rw [← h1]; exact hread
        · rw [← h3, ← h1]; exact hio.er
      · exact .inl h
    · obtain ⟨i, hi⟩ := redraw_oob hord he hfit; rw [hi] at hsafe; exact hsafe.elim

instance (s : Input) : (a : ConsAct) → Decidable (TabInOrder s a)
  | .key c => by
    have : Decidable (InOrder s.r s.w s.cursor s.e) := decidable_of_iff (_ ∧ _ ∧ _ ∧ _)
      ⟨fun ⟨a, b, c, d⟩ => ⟨a, b, c, d⟩, fun ⟨a, b, c, d⟩ => ⟨a, b, c, d⟩⟩
    unfold TabInOrder
    infer_instance
  | .read _ _ => inferInstanceAs (Decidable True)
  | .write _ => inferInstanceAs (Decidable True)
  | .redraw _ => inferInstanceAs (Decidable True)

instance (s : Input) (str : List UInt8) : Decidable (SnapshotUsable s str) := inferInstanceAs (Decidable (_ ∧ _ ∧ _))

/-- A character and Tab: the completion of the word is safe as long as nothing is read. -/
theorem redraw_console_safe_tab :
    ∃ s, Reach consInit consStep TabInOrder s ∧ RedrawSafe s (consolePrintAndRedraw s [108, 115, newline]) := by
  have hrun : (runActs (guarded consStep TabInOrder) { pos := 0 } [.key 108, .key tab]).any (fun s =>
      decide (s.savedE.toNat + 3 ≤ 2 ^ 31) && decide (SnapshotUsable s [108, 115, newline])) = true := by decide +kernel
  obtain ⟨s, hr, hs⟩ := exists_reach_of_guarded_run consInit TabInOrder ⟨0, rfl⟩ _ _ hrun
  rw [Bool.and_eq_true, decide_eq_true_eq, decide_eq_true_eq] at hs
  exact ⟨s, hr, (redraw_console_safe s hr [108, 115, newline] hs.1).1 hs.2⟩

/-- A line is entered and read, and no Tab was ever pressed: the call takes the read and the write
index back to the start. -/
theorem redraw_rewinds : ∃ s s', Reachable consInit consStep s ∧ s.r = 2 ∧ s.autocompleteActive = false ∧
    consolePrintAndRedraw s [] = .ok s' ∧ s'.r = 0 ∧ s'.w = 0 := by
  have hrun : (runActs consStep { pos := 0 } [.key 97, .key newline, .read 100 100]).any (fun s =>
      decide (s.r = 2 ∧ s.autocompleteActive = false) &&
        (consolePrintAndRedraw s []).toOption.any fun s' => decide (s'.r = 0 ∧ s'.w = 0)) = true := by decide +kernel
  obtain ⟨s, hr, hs⟩ := exists_reachable_of_run consInit ⟨0, rfl⟩ _ _ hrun
  rw [Bool.and_eq_true, decide_eq_true_eq] at hs
  obtain ⟨⟨hread, ha⟩, hs⟩ := hs
  obtain ⟨s', h, h1, h2⟩ := exists_ok_of_any hs
  exact ⟨s, s', hr, hread, ha, h, h1, h2⟩

end Xv6.Console
