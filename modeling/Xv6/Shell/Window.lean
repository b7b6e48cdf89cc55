/-
The window between Tab and `redraw_console`. Tab commits the line and leaves the cursor where it was, so
that the next characters go in among committed bytes, and push the last of them out. Once the shell has
read past the cursor a character goes in among bytes already read, and the redraw puts the line back
without it. As long as a key finds the cursor not read past and room in the array, and no tab has been
read or stands before the cursor, the bytes read and those still to come are those Tab left with what was
typed at the cursor, in order; so the shell has read all that was typed when it comes to a tab.
-/
import Xv6.Shell.Complete

namespace Xv6.Shell

open Base Console

/-! ## Runs -/

/-- The console since a Tab, with the characters typed and the bytes delivered since then. -/
structure Window where
  s : Input
  typed : List UInt8 := []
  got : List UInt8 := []
  redrawn : Bool := false

/-- A key, a read of `gets`, or the call of `redraw_console`. -/
inductive WindowAct
  | key (c : UInt8)
  | read
  | redraw (str : List UInt8)
  deriving DecidableEq, Repr

/-- One step; one that faults has none. The shell reads up to a tab, and redraws after one. -/
def windowStep (x : Window) : WindowAct → Option Window
  | .key c =>
    if Printable c ∧ x.redrawn = false then
      (key x.s c).toOption.map fun o => { x with s := o.s, typed := x.typed ++ [c] }
    else none
  | .read =>
    if tab ∉ x.got ∧ x.redrawn = false then
      some { x with s := (consoleread 1 1 x.s []).1, got := x.got ++ (consoleread 1 1 x.s []).2.1 }
    else none
  | .redraw str =>
    if tab ∈ x.got ∧ x.redrawn = false then
      (consolePrintAndRedraw x.s str).toOption.map fun s => { x with s := s, redrawn := true }
    else none

/-- Tab was pressed in `s`. -/
def windowInit (s : Input) (x : Window) : Prop := ∃ o, key s tab = .ok o ∧ x = { s := o.s }

/-- A key finds the cursor not read past and room for it, and no tab has been read or is to be read before
the cursor. -/
def KeyKept (x : Window) : WindowAct → Prop
  | .key _ => x.s.r ≤ x.s.cursor ∧ x.s.e - x.s.r < 128 ∧ x.s.e < 128 ∧
      tab ∉ x.got ++ line x.s.buf x.s.r.toNat (x.s.cursor.toNat - x.s.r.toNat)
  | _ => True

instance (x : Window) : (a : WindowAct) → Decidable (KeyKept x a)
  | .key _ => inferInstanceAs (Decidable (_ ∧ _))
  | .read => inferInstanceAs (Decidable True)
  | .redraw _ => inferInstanceAs (Decidable True)

/-- The bytes that are delivered: a Ctrl-D is read as the end of the input. -/
def data (l : List UInt8) : List UInt8 := l.filter fun c => c ≠ ctrlD

/-- What Tab leaves before the cursor, from the read index on. -/
def before (s : Input) : List UInt8 := line (tabKey s).buf s.r.toNat (s.cursor.toNat - s.r.toNat)

/-- What it leaves behind the cursor, up to the tab. -/
def after (s : Input) : List UInt8 := line (tabKey s).buf s.cursor.toNat (s.e.toNat + 1 - s.cursor.toNat)

/-- Up to the redraw the bytes read and those to come are those Tab left with the typed ones at the cursor;
after it the typed ones have been read, or stand in the line. -/
def Kept (s : Input) (x : Window) : Prop :=
  (x.redrawn = false → data (x.got ++ line x.s.buf x.s.r.toNat (x.s.e.toNat - x.s.r.toNat)) =
    data (before s) ++ x.typed ++ data (after s)) ∧
  (x.redrawn = true → x.typed.Sublist (x.got ++ (view x.s).text))

/-! ## One step -/

/-- The console in the window, before the redraw. Once something is typed, no tab comes before it. -/
structure Open (s : Input) (x : Window) : Prop where
  mode : x.s.selectMode ≠ .selected
  rw : x.s.r.toNat ≤ x.s.w.toNat
  ce : x.s.cursor.toNat < x.s.e.toNat
  we : x.s.w.toNat ≤ x.s.e.toNat
  stream : data (x.got ++ line x.s.buf x.s.r.toNat (x.s.e.toNat - x.s.r.toNat)) =
    data (before s) ++ x.typed ++ data (after s)
  rest : x.s.r.toNat ≤ x.s.cursor.toNat →
    data (line x.s.buf x.s.cursor.toNat (x.s.e.toNat - x.s.cursor.toNat)) = data (after s)
  noTab : x.typed ≠ [] → tab ∉ data (before s) ++ x.typed

theorem data_append (l l' : List UInt8) : data (l ++ l') = data l ++ data l' := List.filter_append ..

variable {c : UInt8} {s : Input} {x : Window}

theorem data_cons (h : c ≠ ctrlD) (l : List UInt8) : data (c :: l) = c :: data l :=
  List.filter_cons_of_pos (decide_eq_true h)

theorem data_data (l : List UInt8) : data (data l) = data l := by
  simp [data]

theorem insert_line {s' : Input} (hc : Printable c) (hce : s.cursor.toNat < s.e.toNat) (he : s.e.toNat < INPUT_BUF)
    (hroom : s.e - s.r < 128) (h : insert s c = .ok s') :
    s'.r = s.r ∧ s'.w = s.w ∧ s'.e.toNat = s.e.toNat + 1 ∧ s'.cursor.toNat = s.cursor.toNat + 1 ∧
      s'.selectMode = s.selectMode ∧ ∀ a ≤ s.cursor.toNat, line s'.buf a (s'.e.toNat - a) =
        line s.buf a (s.cursor.toNat - a) ++ c :: line s.buf s.cursor.toNat (s.e.toNat - s.cursor.toNat) := by
  have hbuf : INPUT_BUF = 128 := rfl
  obtain ⟨b, ⟨p, q, l, hb⟩ | hb, hline⟩ := insert_spec ⟨hroom, hc.ne_of (by decide)⟩ hce.le (by omega) fun _ => he
  · rw [hb] at h
    cases h
    have hsucc := toNat_succ (x := s.e) (by omega)
    refine ⟨rfl, rfl, hsucc, toNat_succ (by omega), rfl, ?_⟩
    intro a ha
    show line b a ((s.e + 1).toNat - a) = _
    rw [hsucc, show s.e.toNat + 1 - a = s.e.toNat - a + 1 by omega, hline a ha (by omega),
      line_split s.buf ha hce.le, List.take_left' (length_line ..), List.drop_left' (length_line ..)]
  · rw [hb] at h; cases h

theorem Open.key {o : Outcome} (h : Open s x) (hc : Printable c) (hk : KeyKept x (.key c))
    (hkey : Console.key x.s c = .ok o) : Open s { x with s := o.s, typed := x.typed ++ [c] } := by
  obtain ⟨hrc, hroom, he, htab⟩ := hk
  have hrc := UInt32.le_iff_toNat_le.1 hrc
  have h1 := h.ce
  have h2 := h.we
  have hd : c ≠ ctrlD := hc.ne_of (by decide)
  rw [key_printable hc h.mode] at hkey
  obtain ⟨s', hins, hkey⟩ := bind_eq_ok hkey
  cases hkey
  obtain ⟨hr, hw, he', hcur, hmode, hline⟩ := insert_line hc h1 (UInt32.lt_iff_toNat_lt.1 he) hroom hins
  -- what stands before the cursor ends in what was typed
  have htyped : data (x.got ++ line x.s.buf x.s.r.toNat (x.s.cursor.toNat - x.s.r.toNat)) =
      data (before s) ++ x.typed := by
    have hstream := h.stream
    rw [line_split x.s.buf hrc h1.le, ← List.append_assoc, data_append _ (line ..), h.rest hrc] at hstream
    exact List.append_cancel_right hstream
  refine ⟨hmode ▸ h.mode, ?_, ?_, ?_, ?_, ?_, ?_⟩
  · show s'.r.toNat ≤ s'.w.toNat; rw [hr, hw]; exact h.rw
  · show s'.cursor.toNat < s'.e.toNat; omega
  · show s'.w.toNat ≤ s'.e.toNat; rw [hw]; omega
  · show data (x.got ++ line s'.buf s'.r.toNat (s'.e.toNat - s'.r.toNat)) = _ ++ (x.typed ++ [c]) ++ _
    rw [hr, hline _ hrc, ← List.append_assoc, data_append, data_cons hd, htyped, h.rest hrc]
    simp only [List.append_assoc, List.singleton_append]
  · intro _
    show data (line s'.buf s'.cursor.toNat (s'.e.toNat - s'.cursor.toNat)) = _
    have hcons := hline _ le_rfl
    rw [Nat.sub_self, line_zero, List.nil_append,
      show s'.e.toNat - x.s.cursor.toNat = s'.e.toNat - s'.cursor.toNat + 1 by omega,
      line_eq_window, Ring.window_cons, ← hcur] at hcons
    rw [← h.rest hrc]
    exact congrArg data (List.cons.inj hcons).2
  · intro _
    show tab ∉ data (before s) ++ (x.typed ++ [c])
    rw [← List.append_assoc, ← htyped, List.mem_append, not_or]
    exact ⟨fun hm => htab (List.mem_of_mem_filter hm), fun hm => hc.ne_of (by decide) (List.mem_singleton.1 hm).symm⟩

/-- A tab has been read: so has all that was typed before it. -/
theorem Open.read_typed (h : Open s x) (htab : tab ∈ x.got) : x.typed.Sublist x.got := by
  by_cases hne : x.typed = []
  · rw [hne]; exact List.nil_sublist _
  have hgot : data x.got <+: data (before s) ++ x.typed ++ data (after s) := by
    rw [← h.stream, data_append]; exact List.prefix_append ..
  rcases List.prefix_or_prefix_of_prefix hgot (List.prefix_append ..) with hp | hp
  · -- the tab would be before what was typed
    exact absurd (hp.subset (List.mem_filter.2 ⟨htab, rfl⟩)) (h.noTab hne)
  · exact (List.sublist_append_right ..).trans (hp.sublist.trans List.filter_sublist)

theorem consoleread_one (hne : s.r ≠ s.w) : (consoleread 1 1 s []).1 = { s with r := s.r + 1 } ∧
    (consoleread 1 1 s []).2.1 = data [s.buf (ring s.r.toNat)] := by
  by_cases hd : s.buf (ring s.r.toNat) = ctrlD
  · simp [consoleread, hne, hd, data]
  · simp [consoleread, hne, hd, data]

theorem Open.read (h : Open s x) :
    Open s { x with s := (consoleread 1 1 x.s []).1, got := x.got ++ (consoleread 1 1 x.s []).2.1 } := by
  by_cases hne : x.s.r = x.s.w
  · have hread : consoleread 1 1 x.s [] = (x.s, [], 1, .sleeps) := by simp [consoleread, hne]
    rw [hread]
    simpa using h
  have h1 := h.rw
  have h2 := h.we
  have h3 : x.s.r.toNat ≠ x.s.w.toNat := fun heq => hne (UInt32.toNat_inj.1 heq)
  have hmax := UInt32.toNat_lt x.s.w
  have hsucc := toNat_succ (x := x.s.r) (by omega)
  obtain ⟨hs, hout⟩ := consoleread_one hne
  rw [hs, hout]
  -- the byte is the first of any stretch from the read index on
  have hcons : ∀ {n : Nat}, x.s.r.toNat < n → line x.s.buf x.s.r.toNat (n - x.s.r.toNat) =
      x.s.buf (ring x.s.r.toNat) :: line x.s.buf (x.s.r + 1).toNat (n - (x.s.r + 1).toNat) := by
    intro n hn
    rw [hsucc, show n - x.s.r.toNat = n - (x.s.r.toNat + 1) + 1 by omega]
    exact Ring.window_cons ..
  refine ⟨h.mode, ?_, h.ce, h2, ?_, ?_, h.noTab⟩
  · show (x.s.r + 1).toNat ≤ x.s.w.toNat; omega
  · refine Eq.trans ?_ h.stream
    show data (x.got ++ data [x.s.buf (ring x.s.r.toNat)] ++ line x.s.buf (x.s.r + 1).toNat
      (x.s.e.toNat - (x.s.r + 1).toNat)) = _
    rw [hcons (by omega), data_append, data_append, data_data, data_append, List.append_assoc]
    exact congrArg (data x.got ++ ·) (data_append [_] _).symm
  · intro hle
    have hle : (x.s.r + 1).toNat ≤ x.s.cursor.toNat := hle
    exact h.rest (by omega)

/-! ## The run -/

theorem open_tabKey (hord : InOrder s.r s.w s.cursor s.e) (hsmall : s.e.toNat < 2 ^ 31)
    (hmode : s.selectMode ≠ .selected) : Open s { s := tabKey s } := by
  have h1 := hord.rw
  have h2 := hord.wc
  have h3 := hord.ce
  have hsucc := toNat_succ (x := s.e) (by omega)
  have hafter : line (tabKey s).buf s.cursor.toNat ((s.e + 1).toNat - s.cursor.toNat) = after s := by
    rw [hsucc]; rfl
  refine ⟨hmode, ?_, ?_, le_rfl, ?_, ?_, fun h => absurd rfl h⟩
  · show s.r.toNat ≤ (s.e + 1).toNat; omega
  · show s.cursor.toNat < (s.e + 1).toNat; omega
  · show data (line (tabKey s).buf s.r.toNat ((s.e + 1).toNat - s.r.toNat)) = data (before s) ++ [] ++ data (after s)
    rw [line_split (tabKey s).buf (show s.r.toNat ≤ s.cursor.toNat by omega) (show _ ≤ (s.e + 1).toNat by omega),
      data_append, List.append_nil, hafter]
    rfl
  · intro _; exact congrArg data hafter

theorem open_or_redrawn (hord : InOrder s.r s.w s.cursor s.e) (hsmall : s.e.toNat < 2 ^ 31)
    (hmode : s.selectMode ≠ .selected) (hidle : s.autocompleteActive = false)
    (hr : Reach (windowInit s) windowStep KeyKept x) :
    x.redrawn = false ∧ Open s x ∨ x.redrawn = true ∧ x.typed.Sublist x.got := by
  refine Reach.inv (P := fun x => x.redrawn = false ∧ Open s x ∨ x.redrawn = true ∧ x.typed.Sublist x.got) ?_ ?_ hr
  · rintro x ⟨o, ho, rfl⟩
    rw [key_tab hmode hidle] at ho
    cases ho
    exact .inl ⟨rfl, open_tabKey hord hsmall hmode⟩
  · intro x a x' hx hk hs
    cases a with
    | key c =>
      obtain ⟨⟨hc, hopen⟩, hs⟩ := Option.ite_none_right_eq_some.1 hs
      rcases hx with ⟨-, hx⟩ | ⟨hx, -⟩
      · obtain ⟨o, ho, rfl⟩ := Option.map_eq_some_iff.1 hs
        exact .inl ⟨hopen, hx.key hc hk (toOption_eq_some ho)⟩
      · rw [hopen] at hx; cases hx
    | read =>
      obtain ⟨⟨-, hopen⟩, hs⟩ := Option.ite_none_right_eq_some.1 hs
      cases hs
      rcases hx with ⟨-, hx⟩ | ⟨hx, -⟩
      · exact .inl ⟨hopen, hx.read⟩
      · rw [hopen] at hx; cases hx
    | redraw str =>
      obtain ⟨⟨htab, hopen⟩, hs⟩ := Option.ite_none_right_eq_some.1 hs
      obtain ⟨s', -, rfl⟩ := Option.map_eq_some_iff.1 hs
      rcases hx with ⟨-, hx⟩ | ⟨hx, -⟩
      · exact .inr ⟨rfl, hx.read_typed htab⟩
      · rw [hopen] at hx; cases hx

/-- In every run whose keys find the cursor not read past, room, and no tab read or before the cursor,
nothing that was typed is lost. -/
theorem window_keeps_typed (s : Input) (hord : InOrder s.r s.w s.cursor s.e) (hsmall : s.e.toNat < 2 ^ 31)
    (hmode : s.selectMode ≠ .selected) (hidle : s.autocompleteActive = false) (x : Window)
    (hr : Reach (windowInit s) windowStep KeyKept x) : Kept s x := by
  rcases open_or_redrawn hord hsmall hmode hidle hr with ⟨hx, ho⟩ | ⟨hx, hread⟩
  · constructor
    · intro _; exact ho.stream
    · intro h; rw [hx] at h; cases h
  · constructor
    · intro h; rw [hx] at h; cases h
    · intro _; exact hread.trans (List.sublist_append_left ..)

/-- A tab stands in the line and the cursor before it; Tab, then `x`, which the shell reads with the old tab: it
searches and redraws. -/
theorem window_keeps_typed_x : ∃ x, Reach (windowInit (atPrompt [tab] 0)) windowStep KeyKept x ∧
    (x.redrawn = true ∧ x.typed = [120] ∧ x.got = [120, tab] ∧ (view x.s).text = [108, 115, tab]) ∧
    Kept (atPrompt [tab] 0) x := by
  have h0 : windowInit (atPrompt [tab] 0) { s := tabKey (atPrompt [tab] 0) } := ⟨_, key_tab (by decide) rfl, rfl⟩
  have hrun : (runActs (guarded windowStep KeyKept) { s := tabKey (atPrompt [tab] 0) }
      [.key 120, .read, .read, .redraw [108, 115, newline]]).any (fun x =>
        decide (x.redrawn = true ∧ x.typed = [120] ∧ x.got = [120, tab] ∧ (view x.s).text = [108, 115, tab])) =
          true := by
    decide +kernel
  obtain ⟨x, hr, hx⟩ := exists_reach_of_guarded_run _ KeyKept h0 _ _ hrun
  exact ⟨x, hr, of_decide_eq_true hx, window_keeps_typed (atPrompt [tab] 0) ⟨by decide, by decide, by decide, by decide⟩
    (by decide) (by decide) rfl x hr⟩

/-- `l`, Tab, and `x` when the shell has read the tab: after the redraw the line is `ls`. -/
theorem typed_key_lost : ∃ x, Reachable (windowInit (atPrompt [108] 1)) windowStep x ∧ x.redrawn = true ∧
    x.typed = [120] ∧ x.got = [108, tab] ∧ (view x.s).text = [108, 115] := by
  have h0 : windowInit (atPrompt [108] 1) { s := tabKey (atPrompt [108] 1) } := ⟨_, key_tab (by decide) rfl, rfl⟩
  have hrun : (runActs windowStep { s := tabKey (atPrompt [108] 1) }
      [.read, .read, .key 120, .redraw [108, 115, newline]]).any (fun x =>
        decide (x.redrawn = true ∧ x.typed = [120] ∧ x.got = [108, tab] ∧ (view x.s).text = [108, 115])) = true := by
    decide +kernel
  obtain ⟨x, hr, hx⟩ := exists_reachable_of_run _ h0 _ _ hrun
  exact ⟨x, hr, of_decide_eq_true hx⟩

end Xv6.Shell
