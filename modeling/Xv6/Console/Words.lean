/-
The keys that move by words. A word starts at a character of the pending line that is no space and has a space, or
nothing, before it. `Ctrl-A` goes back to the nearest start before the cursor and reads nothing but the line. `Ctrl-D`
goes on to the nearest start behind the cursor, except from a space: there its first loop has already come to that
start, and the other two carry it over the word.
-/
import Mathlib.Order.Bounds.Basic
import Xv6.Console.Redraw

namespace Xv6.Console

open Base

/-! ## Scans and word starts -/

variable {rd : Nat → Option Bool}

section

variable {sp p : Nat → Bool} {lo hi i : Nat}

/-- A word of the text between `lo` and `hi` starts at `q`. -/
def WordStart (sp : Nat → Bool) (lo hi q : Nat) : Prop := lo ≤ q ∧ q < hi ∧ ¬ sp q ∧ (q = lo ∨ sp (q - 1))

/-- The scan passes what satisfies `p` and stops at the first position that does not, or at the end. -/
theorem scanUp_spec (p : Nat → Bool) (hi : Nat) : ∀ n i, i + n = hi →
    i ≤ scanUp p hi n i ∧ scanUp p hi n i ≤ hi ∧ (∀ k, i ≤ k → k < scanUp p hi n i → p k) ∧
      (scanUp p hi n i < hi → ¬ p (scanUp p hi n i))
  | 0, i, h => by
    simp only [scanUp]; exact ⟨le_rfl, by omega, by omega, by omega⟩
  | n + 1, i, h => by
    simp only [scanUp]
    split
    · rename_i hc
      obtain ⟨h1, h2, h3, h4⟩ := scanUp_spec p hi n (i + 1) (by omega)
      refine ⟨by omega, h2, ?_, h4⟩
      intro k hk hlt
      rcases eq_or_lt_of_le hk with rfl | hk
      · exact hc.2
      · exact h3 k hk hlt
    · rename_i hc; exact ⟨le_rfl, by omega, by omega, fun hlt hp => hc ⟨hlt, hp⟩⟩

theorem scanDown_spec (p : Nat → Bool) (lo : Nat) : ∀ i, lo ≤ i →
    lo ≤ scanDown p lo i ∧ scanDown p lo i ≤ i ∧ (∀ k, scanDown p lo i ≤ k → k < i → p k) ∧
      (lo < scanDown p lo i → ¬ p (scanDown p lo i - 1))
  | 0, h => by
    simp only [scanDown]; exact ⟨h, le_refl 0, by omega, by omega⟩
  | i + 1, h => by
    simp only [scanDown]
    split
    · rename_i hc
      obtain ⟨h1, h2, h3, h4⟩ := scanDown_spec p lo i (by omega)
      refine ⟨h1, by omega, ?_, h4⟩
      intro k hk hlt
      rcases eq_or_lt_of_le (Nat.le_of_lt_succ hlt) with rfl | hlt
      · exact hc.2
      · exact h3 k hk hlt
    · rename_i hc; exact ⟨h, le_rfl, by omega, fun hlt hp => hc ⟨hlt, hp⟩⟩

/-- The three loops of `Ctrl-D`, each by where it stops. -/
theorem nextWordPos_spec (sp : Nat → Bool) (h : i ≤ hi) :
    ∃ a b, (i ≤ a ∧ a ≤ b ∧ b ≤ nextWordPos sp hi i ∧ nextWordPos sp hi i ≤ hi) ∧
    (∀ k, i ≤ k → k < a → sp k) ∧ (a < hi → ¬ sp a) ∧ (∀ k, a ≤ k → k < b → ¬ sp k) ∧ (b < hi → sp b) ∧
    (∀ k, b ≤ k → k < nextWordPos sp hi i → sp k) ∧ (nextWordPos sp hi i < hi → ¬ sp (nextWordPos sp hi i)) := by
  unfold nextWordPos
  simp only
  obtain ⟨a1, a2, a3, a4⟩ := scanUp_spec sp hi (hi - i) i (by omega)
  generalize scanUp sp hi (hi - i) i = a at *
  obtain ⟨b1, b2, b3, b4⟩ := scanUp_spec (fun j => !sp j) hi (hi - a) a (by omega)
  generalize scanUp (fun j => !sp j) hi (hi - a) a = b at *
  obtain ⟨c1, c2, c3, c4⟩ := scanUp_spec sp hi (hi - b) b (by omega)
  simp only [Bool.not_eq_true', Bool.not_eq_false] at b3 b4
  exact ⟨a, b, ⟨a1, b1, c1, c2⟩, a3, a4, fun k h1 h2 => by simp [b3 k h1 h2], b4, c3, c4⟩

/-- From outside the spaces, or from spaces that end the text, the three loops find the next word. -/
theorem nextWordPos_isLeast (hlo : lo ≤ i) (hi' : i ≤ hi) (h : ¬ (sp i ∧ ∃ q, i < q ∧ q < hi ∧ ¬ sp q)) :
    (nextWordPos sp hi i < hi → IsLeast {q | WordStart sp lo hi q ∧ i < q} (nextWordPos sp hi i)) ∧
      (hi ≤ nextWordPos sp hi i → ∀ q, WordStart sp lo hi q → q ≤ i) := by
  obtain ⟨a, b, hle, ha, ha', hb, hb', hc, hc'⟩ := nextWordPos_spec sp hi'
  generalize nextWordPos sp hi i = c at *
  -- the first loop stays where it is, or runs to the end
  have hfirst : a = i ∨ a = hi := by
    by_contra hne
    exact h ⟨ha i le_rfl (by omega), a, by omega, by omega, ha' (by omega)⟩
  -- no word starts on the way
  have hnone : ∀ q, WordStart sp lo hi q → i < q → c ≤ q := by
    rintro q ⟨-, hq, hsq, hbefore⟩ hiq
    by_contra hcq
    rcases hfirst with rfl | rfl
    · rcases lt_or_ge q b with hqb | hqb
      · exact hb (q - 1) (by omega) (by omega) (hbefore.resolve_left (by omega))
      · exact hsq (hc q hqb (by omega))
    · exact hsq (ha q (by omega) hq)
  constructor
  · intro hlt
    have hib : i < b := by
      rcases eq_or_lt_of_le hle.2.1 with rfl | hab
      · exact absurd (hb' (by omega)) (ha' (by omega))
      · omega
    have hbc : b ≠ c := fun heq => hc' hlt (heq ▸ hb' (by omega))
    refine ⟨⟨⟨by omega, hlt, hc' hlt, .inr (hc (c - 1) (by omega) (by omega))⟩, by omega⟩, ?_⟩
    rintro q ⟨hq, hiq⟩
    exact hnone q hq hiq
  · intro hge q hq
    by_contra hiq
    have := hnone q hq (by omega)
    have := hq.2.1
    omega

/-- From a space with a word behind it they pass that word. -/
theorem nextWordPos_passes (hlo : lo ≤ i) (hsp : sp i) (h : ∃ q, i < q ∧ q < hi ∧ ¬ sp q) :
    ∃ q, IsLeast {q | WordStart sp lo hi q ∧ i < q} q ∧ q < nextWordPos sp hi i := by
  obtain ⟨z, hiz, hz, hsz⟩ := h
  obtain ⟨a, b, hle, ha, ha', -, hb', -, -⟩ := nextWordPos_spec sp (show i ≤ hi by omega)
  have haz : a ≤ z := by
    by_contra hlt
    exact hsz (ha z (by omega) (by omega))
  have hia : a ≠ i := by
    rintro rfl; exact ha' (by omega) hsp
  have hab : a ≠ b := by
    rintro rfl; exact ha' (by omega) (hb' (by omega))
  refine ⟨a, ⟨⟨⟨by omega, by omega, ha' (by omega), .inr (ha (a - 1) (by omega) (by omega))⟩, by omega⟩, ?_⟩, by omega⟩
  rintro q ⟨⟨-, -, hsq, -⟩, hiq⟩
  by_contra hqa
  exact hsq (ha q (by omega) (by omega))

theorem prevWordPos_isGreatest (sp : Nat → Bool) (hlo : lo ≤ i) (hi' : i ≤ hi) :
    IsGreatest {q | WordStart sp lo hi q ∧ q < i} (prevWordPos sp lo i) ∨
      prevWordPos sp lo i = lo ∧ ∀ q, WordStart sp lo hi q → i ≤ q := by
  -- after the first loop there are only spaces between the position and the cursor, and a character before it
  obtain ⟨j, hj, h1, h2, h3, h4⟩ : ∃ j, prevWordPos sp lo i = scanDown (fun j => !sp j) lo j ∧ lo ≤ j ∧ j ≤ i ∧
      (∀ k, j ≤ k → k < i → sp k) ∧ (lo < j → ¬ sp (j - 1)) := by
    unfold prevWordPos
    simp only
    split
    · rename_i hc
      obtain ⟨a1, a2, a3, a4⟩ := scanDown_spec sp lo (i - 1) (by omega)
      refine ⟨_, rfl, a1, by omega, ?_, a4⟩
      intro k hk hlt
      rcases eq_or_lt_of_le (Nat.le_sub_one_of_lt hlt) with rfl | hlt
      · exact hc.1.resolve_left (by omega)
      · exact a3 k hk hlt
    · rename_i hc; exact ⟨i, rfl, hlo, le_rfl, by omega, fun hlt hs => hc ⟨.inr hs, hlt⟩⟩
  obtain ⟨b1, b2, b3, b4⟩ := scanDown_spec (fun j => !sp j) lo j h1
  simp only [Bool.not_eq_true', Bool.not_eq_false] at b3 b4
  rw [hj]
  generalize scanDown (fun j => !sp j) lo j = b at *
  rcases eq_or_lt_of_le h1 with rfl | hlj
  · refine .inr ⟨by omega, ?_⟩
    rintro q ⟨hq, -, hsq, -⟩
    by_contra hqi
    exact hsq (h3 q hq (by omega))
  · have hbj : b ≠ j := fun heq => h4 hlj (heq ▸ b4 (by omega))
    refine .inl ⟨⟨⟨b1, by omega, by simp [b3 b le_rfl (by omega)], ?_⟩, by omega⟩, ?_⟩
    · rcases eq_or_lt_of_le b1 with rfl | hlt
      · exact .inl rfl
      · exact .inr (b4 hlt)
    · rintro q ⟨⟨-, -, hsq, hbefore⟩, hqi⟩
      by_contra hbq
      rcases lt_or_ge q j with hqj | hqj
      · have hin := hbefore.resolve_left (by omega)
        rw [b3 (q - 1) (by omega) (by omega)] at hin
        cases hin
      · exact hsq (h3 q hqj hqi)

/-! ## What `Ctrl-A` reads -/

/-- `scanDown` for the positions whose test is `v`, reading through `rd`. -/
def scanDownIn (rd : Nat → Option Bool) (v : Bool) (lo : Nat) : Nat → Option Nat
  | 0 => some 0
  | i + 1 => if lo < i + 1 then do
      let c ← rd i
      if c = v then scanDownIn rd v lo i else some (i + 1)
    else some (i + 1)

/-- `prevWordPos` with each read of the buffer written out: none is made where the test before it decides. -/
def prevWordIn (rd : Nat → Option Bool) (lo i : Nat) : Option Nat := do
  let atBoundary ← (if i = lo then some true else rd (i - 1))
  let i ← (if atBoundary = true ∧ lo < i then scanDownIn rd true lo (i - 1) else some i)
  scanDownIn rd false lo i

theorem scanDownIn_eq {v : Bool} : ∀ i, (∀ k, lo ≤ k → k < i → rd k = some (sp k)) →
    scanDownIn rd v lo i = some (scanDown (fun j => sp j == v) lo i)
  | 0, _ => rfl
  | i + 1, h => by
    simp only [scanDownIn, scanDown]
    by_cases hlt : lo < i + 1
    · rw [if_pos hlt, h i (by omega) (Nat.lt_succ_self i)]
      by_cases hv : sp i = v
      · rw [if_pos ⟨hlt, beq_iff_eq.2 hv⟩, ← scanDownIn_eq i fun k h1 h2 => h k h1 (by omega)]
        exact if_pos hv
      · rw [if_neg fun hc => hv (beq_iff_eq.1 hc.2)]; exact if_neg hv
    · rw [if_neg hlt, if_neg fun hc => hlt hc.1]

theorem prevWordIn_eq (hlo : lo ≤ i) (h : ∀ k, lo ≤ k → k < i → rd k = some (sp k)) :
    prevWordIn rd lo i = some (prevWordPos sp lo i) := by
  have hscan : ∀ j ≤ i, ∀ v, scanDownIn rd v lo j = some (scanDown (fun k => sp k == v) lo j) := fun j hj v =>
    scanDownIn_eq j fun k h1 h2 => h k h1 (by omega)
  have hboundary : (if i = lo then some true else rd (i - 1)) = some (decide (i = lo ∨ sp (i - 1) = true)) := by
    by_cases hil : i = lo
    · simp [hil]
    · rw [if_neg hil, h (i - 1) (by omega) (by omega)]; simp [hil]
  have htrue : (fun k => sp k == true) = sp := by simp
  have hfalse : (fun k => sp k == false) = fun k => !sp k := by simp
  unfold prevWordIn prevWordPos
  rw [hboundary]
  simp only [Option.bind_eq_bind, Option.bind_some, decide_eq_true_eq]
  split
  · rw [hscan (i - 1) (by omega) true, htrue, Option.bind_some,
      hscan _ (by have := scanDown_le sp lo (i - 1); omega) false, hfalse]
  · rw [Option.bind_some, hscan i le_rfl false, hfalse]

end

/-! ## The two keys -/

section

variable {s : Input}

def IsStart (s : Input) (q : Nat) : Prop := WordStart (spaceAt s.buf) s.w.toNat s.e.toNat q

/-- `c` is the next word start behind the cursor, and the cursor itself exactly when there is none. -/
def NextWord (s : Input) (c : UInt32) : Prop :=
  (∀ q, IsLeast {q | IsStart s q ∧ s.cursor.toNat < q} q → c.toNat = q) ∧
    (c = s.cursor ↔ ∀ q, IsStart s q → q ≤ s.cursor.toNat)

/-- The space test on the pending line only. -/
def pendingAt (s : Input) (q : Nat) : Option Bool :=
  if s.w.toNat ≤ q ∧ q < s.e.toNat then some (spaceAt s.buf q) else none

theorem key_wordRight (hsel : s.selectMode ≠ .selected) :
    key s ctrlD = .ok { s := wordRight { s with tabPressCount := 0 } } := by
  simp +decide only [key, hsel, if_true, if_false]

theorem key_wordLeft (hsel : s.selectMode ≠ .selected) :
    key s ctrlA = .ok { s := wordLeft { s with tabPressCount := 0 } } := by
  simp +decide only [key, hsel, if_true, if_false]

theorem wordRight_cursor (s : Input) : (wordRight s).cursor =
    if nextWordPos (spaceAt s.buf) s.e.toNat s.cursor.toNat < s.e.toNat then
      UInt32.ofNat (nextWordPos (spaceAt s.buf) s.e.toNat s.cursor.toNat) else s.cursor := by
  unfold wordRight
  simp only
  split
  · rfl
  · rfl

/-- `Ctrl-D` finds the next word, unless the cursor stands on a space with a word behind it. -/
theorem ctrlD_next_word_iff (s : Input) (hsel : s.selectMode ≠ .selected) (hwc : s.w.toNat ≤ s.cursor.toNat)
    (hce : s.cursor.toNat ≤ s.e.toNat) : (∃ o, key s ctrlD = .ok o ∧ NextWord s o.s.cursor) ↔
    ¬ (spaceAt s.buf s.cursor.toNat ∧ ∃ q, s.cursor.toNat < q ∧ q < s.e.toNat ∧ ¬ spaceAt s.buf q) := by
  have hcur := wordRight_cursor { s with tabPressCount := 0 }
  have he := UInt32.toNat_lt s.e
  have hnat : ∀ q < s.e.toNat, (UInt32.ofNat q).toNat = q := fun q hq =>
    UInt32.toNat_ofNat_of_lt' (by simp only [UInt32.size]; omega)
  rw [key_wordRight hsel]
  constructor
  · rintro ⟨o, ho, hleast, hsame⟩ ⟨hsp, hword⟩
    cases ho
    obtain ⟨q, hq, hpass⟩ := nextWordPos_passes hwc hsp hword
    by_cases hlt : nextWordPos (spaceAt s.buf) s.e.toNat s.cursor.toNat < s.e.toNat
    · rw [if_pos hlt] at hcur
      have := hleast q hq
      rw [hcur, hnat _ hlt] at this
      omega
    · rw [if_neg hlt] at hcur
      have hle := hsame.1 hcur q hq.1.1
      have hgt : s.cursor.toNat < q := hq.1.2
      omega
  · intro h
    obtain ⟨hfound, hnone⟩ := nextWordPos_isLeast hwc hce h
    refine ⟨_, rfl, ?_⟩
    by_cases hlt : nextWordPos (spaceAt s.buf) s.e.toNat s.cursor.toNat < s.e.toNat
    · rw [if_pos hlt] at hcur
      have hleast := hfound hlt
      have hgt : s.cursor.toNat < nextWordPos (spaceAt s.buf) s.e.toNat s.cursor.toNat := hleast.1.2
      refine ⟨?_, iff_of_false ?_ ?_⟩
      · intro q hq; rw [hcur, hnat _ hlt]; exact hleast.unique hq
      · intro hsame
        have := congrArg UInt32.toNat (hcur.symm.trans hsame)
        rw [hnat _ hlt] at this
        omega
      · intro hall; have := hall _ hleast.1.1; omega
    · rw [if_neg hlt] at hcur
      have hall := hnone (by omega)
      refine ⟨?_, iff_of_true hcur hall⟩
      rintro q ⟨⟨hq, hgt⟩, -⟩
      have := hall q hq
      have hgt : s.cursor.toNat < q := hgt
      omega

/-- `ab c` with the cursor on its first character. -/
def onFirstWord : Input := { buf := fun i => if i.val = 2 then space else 97, e := 4 }

theorem ctrlD_onFirstWord : (∃ o, key onFirstWord ctrlD = .ok o ∧ NextWord onFirstWord o.s.cursor) ∧
    (wordRight onFirstWord).cursor = 3 :=
  ⟨(ctrlD_next_word_iff onFirstWord (by decide) (by decide) (by decide)).2 fun h => absurd h.1 (by decide), by decide⟩

/-- `a b c` is typed and the cursor taken back to the first space: `Ctrl-D` goes to the `c`. -/
theorem ctrlD_skips_word :
    ∃ s o, Reachable consInit consStep s ∧ s.selectMode = .off ∧ s.w = 0 ∧ s.e = 5 ∧ s.cursor = 1 ∧
    IsStart s 2 ∧ key s ctrlD = .ok o ∧ o.s.cursor = 4 ∧ ¬ NextWord s o.s.cursor := by
  have hrun : (runActs consStep ({} : Input) [.key 97, .key space, .key 98, .key space, .key 99, .key keyLf, .key keyLf,
      .key keyLf, .key keyLf]).any (fun s => decide (s.selectMode = .off ∧ s.w = 0 ∧ s.e = 5 ∧ s.cursor = 1 ∧
        spaceAt s.buf 1 ∧ ¬ spaceAt s.buf 2 ∧ (key s ctrlD).toOption.any
          (fun o => decide (o.s.cursor = 4)) = true)) = true := by decide +kernel
  obtain ⟨s, hr, hs⟩ := exists_reachable_of_run consInit ⟨0, rfl⟩ _ _ hrun
  obtain ⟨h1, h2, h3, h4, h5, h6, h7⟩ := of_decide_eq_true hs
  obtain ⟨o, ho, h8⟩ := exists_ok_of_any h7
  have hstart : IsStart s 2 := by
    refine ⟨?_, ?_, h6, .inr h5⟩
    · rw [h2]; decide
    · rw [h3]; decide
  refine ⟨s, o, hr, h1, h2, h3, h4, hstart, ho, h8, ?_⟩
  rintro ⟨hleast, -⟩
  have h := hleast 2 ⟨⟨hstart, by rw [h4]; decide⟩, fun q hq => by rw [h4] at hq; exact hq.2⟩
  rw [h8] at h
  exact absurd h (by decide)

/-- `Ctrl-A` comes to the greatest word start before the cursor, or to the start of the line if there is none, and
every read it makes is of the pending line. -/
theorem ctrlA_previous_word (s : Input) (hsel : s.selectMode ≠ .selected) (hwc : s.w.toNat ≤ s.cursor.toNat)
    (hce : s.cursor.toNat ≤ s.e.toNat) : ∃ o, key s ctrlA = .ok o ∧
      (IsGreatest {q | IsStart s q ∧ q < s.cursor.toNat} o.s.cursor.toNat ∨
        o.s.cursor = s.w ∧ ∀ q, IsStart s q → s.cursor.toNat ≤ q) ∧
      prevWordIn (pendingAt s) s.w.toNat s.cursor.toNat = some o.s.cursor.toNat := by
  have hle := prevWordPos_le (spaceAt s.buf) s.w.toNat s.cursor.toNat
  have hlt := UInt32.toNat_lt s.cursor
  have hcur : (wordLeft { s with tabPressCount := 0 }).cursor.toNat =
      prevWordPos (spaceAt s.buf) s.w.toNat s.cursor.toNat :=
    UInt32.toNat_ofNat_of_lt' (by simp only [UInt32.size]; omega)
  refine ⟨_, key_wordLeft hsel, ?_, ?_⟩
  · rw [hcur]
    rcases prevWordPos_isGreatest (spaceAt s.buf) hwc hce with h | ⟨h, hnone⟩
    · exact .inl h
    · exact .inr ⟨UInt32.toNat_inj.1 (hcur.trans h), hnone⟩
  · rw [hcur]
    refine prevWordIn_eq hwc fun k h1 h2 => ?_
    rw [pendingAt, if_pos ⟨h1, by omega⟩]

/-- From the end of `ab c` the key comes to the `c`. -/
theorem ctrlA_onLastWord : ∃ o, key { onFirstWord with cursor := 4 } ctrlA = .ok o ∧
    prevWordIn (pendingAt onFirstWord) 0 4 = some o.s.cursor.toNat ∧ o.s.cursor = 3 := by
  obtain ⟨o, ho, -, hread⟩ := ctrlA_previous_word { onFirstWord with cursor := 4 } (by decide) (by decide) (by decide)
  refine ⟨o, ho, hread, UInt32.toNat_inj.1 (Option.some.inj (hread.symm.trans ?_))⟩
  decide

end

end Xv6.Console
