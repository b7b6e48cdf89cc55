/-
Enter. Outside a selection the newline goes behind the line, the line is committed and its readers are woken. It is
lost in a selection, where it is one more key that replaces the characters selected; and a line that fills the ring
loses its first character to the newline.
-/
import Xv6.Console.Commit
import Xv6.Console.Screen
import Xv6.Console.Select

namespace Xv6.Console

open Base Function

/-- The line is committed as it was, with a newline, and its readers are woken. -/
structure Commits (s : Input) (o : Outcome) : Prop where
  w : o.s.w = o.s.e
  cursor : o.s.cursor = o.s.e
  last : o.s.buf (ring (o.s.w - 1).toNat) = newline
  line : line o.s.buf s.w.toNat (o.s.w - s.w).toNat = pending s ++ [newline]
  wake : o.wake = true

/-- The newline does not go over a character of the line. -/
def LineFits (s : Input) : Prop := (s.e - s.w).toNat < INPUT_BUF ∨ s.buf (ring s.e.toNat) = newline ∧ s.e + 1 ≠ s.w

instance (s : Input) : Decidable (LineFits s) := inferInstanceAs (Decidable (_ ∨ _))

/-! ## The newline in the ring -/

section

variable {s : Input}

theorem cgaputc_ok_iff {pos : Nat} {g : Glyph} (hg : g ≠ .backspace) :
    (∃ p, cgaputc pos g = .ok p) ↔ pos < 25 * 80 := by
  have hmove : cgaMove pos g > 25 * 80 ↔ ¬ pos < 25 * 80 := by
    cases g with
    | newline | cell => simp only [cgaMove]; omega
    | backspace => exact absurd rfl hg
  unfold cgaputc
  by_cases h : pos < 25 * 80
  · rw [if_neg fun hm => hmove.1 hm h]
    refine iff_of_true ?_ h
    split
    · exact ⟨_, rfl⟩
    · exact ⟨_, rfl⟩
  · rw [if_pos (hmove.2 h)]
    refine iff_of_false ?_ h
    rintro ⟨p, hp⟩
    cases hp

theorem line_add (b : Buf) (w k n : Nat) : line b w (k + n) = line b w k ++ line b (w + k) n := Ring.window_add b w k n

theorem line_succ (b : Buf) (w n : Nat) : line b w (n + 1) = line b w n ++ [b (ring (w + n))] := line_add b w n 1

theorem toNat_succ_sub_of_ne {a b : UInt32} (h : b + 1 ≠ a) : (b + 1 - a).toNat = (b - a).toNat + 1 := by
  have h : (b + 1).toNat ≠ a.toNat := fun he => h (UInt32.toNat_inj.1 he)
  have ha := UInt32.toNat_lt a
  have hb := UInt32.toNat_lt b
  rw [UInt32.toNat_add, UInt32.toNat_one] at h
  rw [UInt32.toNat_sub, UInt32.toNat_sub, UInt32.toNat_add, UInt32.toNat_one]
  omega

theorem committed_line_iff (s : Input) :
    line (update s.buf (ring s.e.toNat) newline) s.w.toNat (s.e + 1 - s.w).toNat =
      pending s ++ [newline] ↔ LineFits s := by
  have hplace : ring (s.w.toNat + (s.e - s.w).toNat) = ring s.e.toNat := Fin.ext (mod_add_sub s.w s.e)
  constructor
  · intro h
    by_cases hfit : (s.e - s.w).toNat < INPUT_BUF
    · exact .inl hfit
    -- the newline is a turn of the ring behind a character of the line
    have hne : s.e + 1 ≠ s.w := fun he => by
      have hlen := congrArg List.length h
      rw [he, UInt32.sub_self, length_line, List.length_append, List.length_singleton] at hlen
      cases hlen
    refine .inr ⟨?_, hne⟩
    have hat := congrArg (·[(s.e - s.w).toNat - INPUT_BUF]?) h
    have hlow : (s.e - s.w).toNat - INPUT_BUF < (s.e - s.w).toNat := by
      have : 0 < INPUT_BUF := by decide
      omega
    have hcell : ring (s.w.toNat + ((s.e - s.w).toNat - INPUT_BUF)) = ring s.e.toNat := by
      rw [← hplace]
      generalize (s.e - s.w).toNat = n at hfit ⊢
      obtain ⟨k, rfl⟩ := Nat.exists_eq_add_of_le (not_lt.1 hfit)
      rw [Nat.add_sub_cancel_left, add_comm INPUT_BUF k, ← add_assoc]
      exact Fin.ext (Nat.add_mod_right _ _).symm
    rw [toNat_succ_sub_of_ne hne] at hat
    simp only [pending] at hat
    rw [List.getElem?_append_left (by rw [length_line]; exact hlow), getElem?_line, getElem?_line, if_pos (by omega),
      if_pos hlow, hcell, update_self] at hat
    exact (Option.some.inj hat).symm
  · rintro (hfit | ⟨hnl, hne⟩)
    · rw [toNat_succ_sub hfit.le]; exact line_push newline hfit
    · rw [toNat_succ_sub_of_ne hne, update_eq_self_iff.2 hnl.symm, line_succ, hplace, hnl]; rfl

end

/-- Enter commits the line exactly if nothing is selected, the screen has a row for it, and the newline finds room in
the ring. -/
theorem enter_commits_iff (s : Input) : (∃ o, key s newline = .ok o ∧ Commits s o) ↔
    s.selectMode ≠ .selected ∧ s.pos < 25 * 80 ∧ LineFits s := by
  by_cases hsel : s.selectMode = .selected
  · refine iff_of_false ?_ fun h => h.1 hsel
    rintro ⟨o, ho, hc⟩
    simp +decide only [key, hsel, if_true, if_false] at ho
    obtain ⟨s', -, ho⟩ := bind_eq_ok ho
    cases ho
    cases hc.wake
  rw [key_newline hsel, ← cgaputc_ok_iff (g := .newline) (fun h => by cases h), ← committed_line_iff]
  constructor
  · rintro ⟨o, ho, hc⟩
    obtain ⟨s', hs', ho⟩ := bind_eq_ok ho
    obtain ⟨p, hp, hs'⟩ := bind_eq_ok hs'
    cases ho
    cases hs'
    exact ⟨hsel, ⟨p, hp⟩, hc.line⟩
  · rintro ⟨-, ⟨p, hp⟩, hline⟩
    refine ⟨_, by rw [enter, hp]; rfl, rfl, rfl, ?_, hline, rfl⟩
    show update s.buf (ring s.e.toNat) newline (ring (s.e + 1 - 1).toNat) = newline
    rw [sub_add_one, update_self]

/-- Two characters are selected, and Enter takes their place: the line is not committed, and nobody is woken. -/
theorem enter_replaces_selection : ∃ s o, Reachable consInit consStep s ∧ s.selectMode = .selected ∧ s.pos < 25 * 80 ∧
    LineFits s ∧ pending s = [97, 98] ∧ key s newline = .ok o ∧ pending o.s = [newline] ∧ o.s.w = s.w ∧
    o.wake = false ∧ ¬ Commits s o := by
  have hrun : (runActs consStep ({} : Input) [.key 97, .key 98, .key keyLf, .key ctrlS, .key keyLf, .key ctrlS]).any
      (fun s => decide (s.selectMode = .selected ∧ s.pos < 25 * 80 ∧ LineFits s ∧ pending s = [97, 98] ∧
        (key s newline).toOption.any
          (fun o => decide (pending o.s = [newline] ∧ o.s.w = s.w ∧ o.wake = false)) = true)) = true := by
    decide +kernel
  obtain ⟨s, hr, hs⟩ := exists_reachable_of_run consInit ⟨0, rfl⟩ _ _ hrun
  obtain ⟨h0, h1, h2, h3, h4⟩ := of_decide_eq_true hs
  obtain ⟨o, ho, h5, h6, h7⟩ := exists_ok_of_any h4
  refine ⟨s, o, hr, h0, h1, h2, h3, ho, h5, h6, h7, fun hc => ?_⟩
  rw [hc.wake] at h7
  cases h7

end Xv6.Console
