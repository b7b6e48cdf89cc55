/-
Completion as a whole: Tab commits the line up to a tab character, the shell reads it with `gets`, in
pieces if it is longer than its buffer, searches with the last piece, and calls `redraw_console`, which
puts the saved line back and inserts what it takes to be the rest of a single match. The shell takes the
last word of what it has read, the kernel the word before the cursor. The line comes back exactly if the
shell gets a request it can answer and the two words have the same length where it matters; they are the
same word exactly if nothing between the end of the shell's line and the cursor comes in between.
-/
import Xv6.Console.Commit
import Xv6.Console.Select
import Xv6.Shell.Search

namespace Xv6.Shell

open Base Console Function
open Fs (DIRSIZ)

/-! ## Reading the line -/

/-- The bytes at which `gets` ends a line. -/
def Stops (c : UInt8) : Prop := c = newline ∨ c = carriageReturn ∨ c = tab

instance (c : UInt8) : Decidable (Stops c) := inferInstanceAs (Decidable (_ ∨ _ ∨ _))

/-- `gets`, with room for `n` more bytes; `none` if it has to wait for more. -/
def gets : Nat → Input → List UInt8 → Option (Input × List UInt8)
  | 0, s, buf => some (s, buf)
  | n + 1, s, buf =>
    match consoleread 1 1 s [] with
    | (_, _, _, .sleeps) => none
    | (s, [], _, .returns) => some (s, buf)
    | (s, c :: _, _, .returns) => if Stops c then some (s, buf ++ [c]) else gets n s (buf ++ [c])

/-- The test in `main`: a line that ends in a tab is a request for completion. -/
def tabLine (bytes : List UInt8) : Option (List UInt8) :=
  let buf := bytes.takeWhile (· ≠ 0)
  if buf.getLast? = some tab then some buf.dropLast else none

/-- The loop of `main` until it calls `find_and_send_completions`, at most `n` rounds: the commands before
it leave the input alone. There is no call if the shell has to wait or `getcmd` fails. -/
def readTab : Nat → Input → Option (Input × List UInt8)
  | 0, _ => none
  | n + 1, s =>
    match gets 99 s [] with
    | none => none
    | some (s, bytes) =>
      -- `buf[0] == 0` is the end of the input
      if bytes.headD 0 = 0 then none
      else match tabLine bytes with
        | some line => some (s, line)
        | none => readTab n s

/-- What goes wrong in a round: in the shell, in the console, or the shell does not come to its search. -/
inductive RoundFault
  | shell (f : ShellFault)
  | console (f : Fault)
  | waits
  deriving DecidableEq, Repr

/-- Tab, and the shell's reads, when it has read all lines before this one. Each read takes a byte, and
there are `INPUT_BUF + 1` at most. -/
def readBack (s : Input) : Except RoundFault (Input × List UInt8) :=
  match key s tab with
  | .error f => .error (.console f)
  | .ok o =>
    match readTab (INPUT_BUF + 1) { o.s with r := s.w } with
    | none => .error .waits
    | some x => .ok x

/-- The search, and the call of `redraw_console` if it comes to one. -/
def answer (s : Input) (line : List UInt8) (dir : SearchDir → Option (List RawDirent)) : Except RoundFault Input :=
  match findAndSendCompletions line dir with
  | .error f => .error (.shell f)
  | .ok none => .ok s
  | .ok (some str) =>
    match consolePrintAndRedraw s str with
    | .error f => .error (.console f)
    | .ok s => .ok s

/-- Tab, and all that follows from it. -/
def tabRound (s : Input) (dir : SearchDir → Option (List RawDirent)) : Except RoundFault Input := do
  let (s, line) ← readBack s
  answer s line dir

/-! ## What the shell reads -/

/-- The line that `gets` takes from the bytes there are, and those behind it. -/
def takeLine : Nat → List UInt8 → Option (List UInt8 × List UInt8)
  | 0, l => some ([], l)
  | _ + 1, [] => none
  | n + 1, c :: l =>
    if c = ctrlD then some ([], l)
    else if Stops c then some ([c], l)
    else (takeLine n l).map fun x => (c :: x.1, x.2)

/-- A byte that neither ends the line nor the string. -/
def Plain (c : UInt8) : Prop := c ≠ 0 ∧ c ≠ ctrlD ∧ ¬ Stops c

instance (c : UInt8) : Decidable (Plain c) := inferInstanceAs (Decidable (_ ∧ _ ∧ _))

/-- Bytes that one call of `gets` takes, and that the shell runs as a command. -/
def Command (l : List UInt8) : Prop := ∃ x, takeLine 99 l = some (x, []) ∧ x.headD 0 ≠ 0 ∧ tabLine x = none

/-- The shell takes `p` for commands and is then asked to complete `u`. -/
structure Request (bytes p u : List UInt8) : Prop where
  before : ∃ cs : List (List UInt8), p = cs.flatten ∧ ∀ l ∈ cs, Command l
  split : ∃ rest, bytes = p ++ (u ++ tab :: rest)
  short : u.length < 99
  plain : ∀ c ∈ u, Plain c

theorem gets_eq : ∀ (n : Nat) (s : Input) (buf : List UInt8),
    gets n s buf = none ∧ takeLine n (unread s) = none ∨
      ∃ r l, gets n s buf = some ({ s with r := r }, buf ++ l) ∧
        takeLine n (unread s) = some (l, unread { s with r := r })
  | 0, s, buf => .inr ⟨s.r, [], by rw [gets, List.append_nil], rfl⟩
  | n + 1, s, buf => by
    by_cases hne : s.r = s.w
    · have h0 : unread s = [] := by
        unfold unread; rw [hne, UInt32.sub_self]; rfl
      refine .inl ⟨?_, by rw [h0, takeLine]⟩
      simp [gets, consoleread, hne]
    rw [unread_cons hne, gets, takeLine]
    by_cases hd : s.buf (ring s.r.toNat) = ctrlD
    · refine .inr ⟨s.r + 1, [], ?_, if_pos hd⟩
      simp [consoleread, hne, hd]
    have hread : consoleread 1 1 s [] = ({ s with r := s.r + 1 }, [s.buf (ring s.r.toNat)], 0, .returns) := by
      simp [consoleread, hne, hd]
    rw [if_neg hd, hread]
    by_cases hstop : Stops (s.buf (ring s.r.toNat))
    · exact .inr ⟨s.r + 1, [s.buf (ring s.r.toNat)], if_pos hstop, if_pos hstop⟩
    rw [if_neg hstop]
    rcases gets_eq n { s with r := s.r + 1 } (buf ++ [s.buf (ring s.r.toNat)]) with ⟨h₁, h₂⟩ | ⟨r, l, h₁, h₂⟩
    · exact .inl ⟨(if_neg hstop).trans h₁, by rw [h₂]; rfl⟩
    · refine .inr ⟨r, s.buf (ring s.r.toNat) :: l, ?_, by rw [h₂]; rfl⟩
      refine (if_neg hstop).trans (h₁.trans ?_)
      rw [List.append_assoc]
      rfl

variable {p u : List UInt8} {s : Input} {des : List RawDirent} {dir : SearchDir → Option (List RawDirent)}
  {c : UInt8} {l x : List UInt8}
  {j : Nat} {n i : Nat} {rest m xs str : List UInt8} {r : UInt32} {s' : Input}

theorem takeLine_cons_iff {r : List UInt8} : takeLine (n + 1) (c :: l) = some (x, r) ↔
    c = ctrlD ∧ x = [] ∧ r = l ∨ c ≠ ctrlD ∧ Stops c ∧ x = [c] ∧ r = l ∨
      c ≠ ctrlD ∧ ¬ Stops c ∧ ∃ y, takeLine n l = some (y, r) ∧ x = c :: y := by
  rw [takeLine]
  constructor
  · intro h
    obtain ⟨hd, h⟩ | ⟨hd, h⟩ := ite_eq_iff.1 h
    · cases h; exact .inl ⟨hd, rfl, rfl⟩
    obtain ⟨hs, h⟩ | ⟨hs, h⟩ := ite_eq_iff.1 h
    · cases h; exact .inr (.inl ⟨hd, hs, rfl, rfl⟩)
    · obtain ⟨⟨y, t⟩, hy, he⟩ := Option.map_eq_some_iff.1 h
      cases he
      exact .inr (.inr ⟨hd, hs, y, hy, rfl⟩)
  · rintro (⟨hd, rfl, rfl⟩ | ⟨hd, hs, rfl, rfl⟩ | ⟨hd, hs, y, hy, rfl⟩)
    · exact if_pos hd
    · rw [if_neg hd, if_pos hs]
    · rw [if_neg hd, if_neg hs, hy]; rfl

theorem takeLine_append (r' : List UInt8) : ∀ {n : Nat} {l x r : List UInt8}, takeLine n l = some (x, r) →
    takeLine n (l ++ r') = some (x, r ++ r')
  | 0, l, x, r, h => by
    cases h; rfl
  | n + 1, [], x, r, h => by cases h
  | n + 1, c :: l, x, r, h => by
    apply takeLine_cons_iff.2
    rcases takeLine_cons_iff.1 h with ⟨hd, rfl, rfl⟩ | ⟨hd, hs, rfl, rfl⟩ | ⟨hd, hs, y, hy, rfl⟩
    · exact .inl ⟨hd, rfl, rfl⟩
    · exact .inr (.inl ⟨hd, hs, rfl, rfl⟩)
    · exact .inr (.inr ⟨hd, hs, y, takeLine_append r' hy, rfl⟩)

theorem takeLine_split : ∀ {n : Nat} {l x r : List UInt8}, takeLine n l = some (x, r) →
    ∃ l', l = l' ++ r ∧ takeLine n l' = some (x, [])
  | 0, l, x, r, h => by
    cases h; exact ⟨[], rfl, rfl⟩
  | n + 1, [], x, r, h => by cases h
  | n + 1, c :: l, x, r, h => by
    rcases takeLine_cons_iff.1 h with ⟨hd, rfl, rfl⟩ | ⟨hd, hs, rfl, rfl⟩ | ⟨hd, hs, y, hy, rfl⟩
    · exact ⟨[c], rfl, takeLine_cons_iff.2 (.inl ⟨hd, rfl, rfl⟩)⟩
    · exact ⟨[c], rfl, takeLine_cons_iff.2 (.inr (.inl ⟨hd, hs, rfl, rfl⟩))⟩
    · obtain ⟨l', rfl, hl'⟩ := takeLine_split hy
      exact ⟨c :: l', rfl, takeLine_cons_iff.2 (.inr (.inr ⟨hd, hs, y, hl', rfl⟩))⟩

theorem tabLine_cons (h0 : c ≠ 0) (ht : c ≠ tab) (l : List UInt8) : tabLine (c :: l) = (tabLine l).map (c :: ·) := by
  unfold tabLine
  simp only [List.takeWhile_cons, h0, ne_eq, not_false_eq_true, decide_true, if_true]
  rcases l.takeWhile (fun x => decide (¬ x = 0)) with _ | ⟨d, t⟩
  · simp [ht]
  · simp only [List.getLast?_cons_cons, List.dropLast_cons_cons]
    split <;> rfl

theorem takeLine_request : ∀ {n : Nat} {l u r : List UInt8},
    (∃ x, takeLine n l = some (x, r) ∧ tabLine x = some u) ↔ l = u ++ tab :: r ∧ u.length < n ∧ ∀ c ∈ u, Plain c
  | 0, l, u, r => by
    constructor
    · rintro ⟨x, h, hx⟩; cases h; cases hx
    · rintro ⟨-, h, -⟩; omega
  | n + 1, [], u, r => by
    constructor
    · rintro ⟨x, h, -⟩; cases h
    · rintro ⟨h, -⟩; simp at h
  | n + 1, c :: l, u, r => by
    constructor
    · rintro ⟨x, h, hx⟩
      rcases takeLine_cons_iff.1 h with ⟨-, rfl, -⟩ | ⟨-, hs, rfl, rfl⟩ | ⟨hd, hs, y, hy, rfl⟩
      · cases hx
      · -- of the bytes that end a line only the tab makes a request
        rcases hs with rfl | rfl | rfl
        · cases hx
        · cases hx
        · cases hx; exact ⟨rfl, Nat.succ_pos n, nofun⟩
      · by_cases h0 : c = 0
        · subst h0; cases hx
        rw [tabLine_cons h0 fun ht => hs (.inr (.inr ht))] at hx
        obtain ⟨v, hv, rfl⟩ := Option.map_eq_some_iff.1 hx
        obtain ⟨rfl, hlen, hplain⟩ := takeLine_request.1 ⟨y, hy, hv⟩
        refine ⟨rfl, Nat.succ_lt_succ hlen, ?_⟩
        rintro d (_ | ⟨_, hd'⟩)
        · exact ⟨h0, hd, hs⟩
        · exact hplain d hd'
    · rintro ⟨h, hlen, hplain⟩
      rcases u with _ | ⟨d, v⟩
      · obtain ⟨rfl, rfl⟩ := List.cons.inj h
        exact ⟨[tab], takeLine_cons_iff.2 (.inr (.inl ⟨by decide, .inr (.inr rfl), rfl, rfl⟩)), rfl⟩
      · obtain ⟨rfl, rfl⟩ := List.cons.inj h
        obtain ⟨h0, hd, hs⟩ := hplain c (.head _)
        obtain ⟨y, hy, hv⟩ := takeLine_request (n := n) (l := v.append (tab :: r)).2
          ⟨rfl, Nat.lt_of_succ_lt_succ hlen, fun x hx => hplain x (.tail _ hx)⟩
        refine ⟨c :: y, takeLine_cons_iff.2 (.inr (.inr ⟨hd, hs, y, hy, rfl⟩)), ?_⟩
        rw [tabLine_cons h0 fun ht => hs (.inr (.inr ht)), hv]
        rfl

theorem headD_ne_zero (h : tabLine x = some u) : x.headD 0 ≠ 0 := by
  rcases x with _ | ⟨c, x⟩
  · cases h
  · rintro h0
    change c = 0 at h0
    subst h0
    cases h

theorem gets_of_takeLine (h : takeLine n (unread s) = some (x, rest)) :
    ∃ r, gets n s [] = some ({ s with r := r }, x) ∧ unread { s with r := r } = rest := by
  rcases gets_eq n s [] with ⟨-, h'⟩ | ⟨r, l, hg, h'⟩
  · rw [h'] at h; cases h
  · rw [h'] at h; cases h; exact ⟨r, hg, rfl⟩

/-- With enough rounds the shell comes to the request behind the commands. -/
theorem readTab_pieces (hlen : u.length < 99) (hplain : ∀ c ∈ u, Plain c) :
    ∀ {n : Nat} {s : Input} (cs : List (List UInt8)), (unread s).length ≤ n → (∀ l ∈ cs, Command l) →
      unread s = cs.flatten ++ (u ++ tab :: rest) → ∃ r, readTab n s = some ({ s with r := r }, u)
  | 0, s, cs, hn, _, hs => by
    rw [hs] at hn; simp at hn
  | n + 1, s, [], hn, _, hs => by
    obtain ⟨x, hx, hu⟩ := takeLine_request.2 ⟨hs, hlen, hplain⟩
    obtain ⟨r, hr, -⟩ := gets_of_takeLine hx
    refine ⟨r, ?_⟩
    rw [readTab, hr]
    show (if _ then _ else _) = _
    rw [if_neg (headD_ne_zero hu), hu]
  | n + 1, s, l :: cs, hn, hcs, hs => by
    obtain ⟨x, hx, h0, hnone⟩ := hcs l (.head _)
    have hne : l ≠ [] := by
      rintro rfl; cases hx
    rw [List.flatten_cons, List.append_assoc] at hs
    have htake := takeLine_append (cs.flatten ++ (u ++ tab :: rest)) hx
    rw [← hs] at htake
    obtain ⟨r, hr, hrest⟩ := gets_of_takeLine htake
    have hless : (unread { s with r := r }).length ≤ n := by
      have hpos := List.length_pos_of_ne_nil hne
      rw [hs, List.length_append] at hn
      rw [hrest, List.nil_append]
      omega
    obtain ⟨r', hr'⟩ := readTab_pieces hlen hplain cs hless (fun l hl => hcs l (.tail _ hl)) hrest
    refine ⟨r', ?_⟩
    rw [readTab, hr]
    show (if _ then _ else _) = _
    rw [if_neg h0, hnone]
    exact hr'

theorem Request.cons {bytes : List UInt8} (hl : Command l) (h : Request bytes p u) :
    Request (l ++ bytes) (l ++ p) u := by
  obtain ⟨⟨cs, rfl, hcs⟩, ⟨rest, rfl⟩, hshort, hplain⟩ := h
  refine ⟨⟨l :: cs, rfl, ?_⟩, ⟨rest, by rw [List.append_assoc]⟩, hshort, hplain⟩
  rintro l' (_ | ⟨_, h⟩)
  · exact hl
  · exact hcs l' h

theorem readTab_sound : ∀ {n : Nat} {s s' : Input} {u : List UInt8}, readTab n s = some (s', u) →
    (∃ r, s' = { s with r := r }) ∧ ∃ p, Request (unread s) p u
  | 0, _, _, _, h => by cases h
  | n + 1, s, s', u, h => by
    rw [readTab] at h
    rcases gets_eq 99 s [] with ⟨hg, -⟩ | ⟨r, x, hg, hx⟩
    · rw [hg] at h; cases h
    rw [hg] at h
    obtain ⟨-, h⟩ | ⟨h0, h⟩ := ite_eq_iff.1 (show (if _ then _ else _) = _ from h)
    · cases h
    rcases ht : tabLine x with _ | v
    · -- a command
      rw [List.nil_append, ht] at h
      obtain ⟨⟨r', rfl⟩, p, hp⟩ := readTab_sound (show readTab n _ = _ from h)
      obtain ⟨l, hl, hcmd⟩ := takeLine_split hx
      refine ⟨⟨r', rfl⟩, l ++ p, ?_⟩
      rw [hl]
      exact hp.cons ⟨x, hcmd, h0, ht⟩
    · rw [List.nil_append, ht] at h
      cases h
      obtain ⟨hs, hlen, hplain⟩ := takeLine_request.1 ⟨x, hx, ht⟩
      exact ⟨⟨r, rfl⟩, [], ⟨[], rfl, nofun⟩, ⟨_, hs⟩, hlen, hplain⟩

/-! ## Tab and the reads after it -/

/-- The bytes Tab commits. -/
def sent (s : Input) : List UInt8 := line (update s.buf (ring s.e.toNat) tab) s.w.toNat (s.e.toNat + 1 - s.w.toNat)

/-- Tab begins a completion; the shell takes `p` for commands and is then asked to complete `u`. -/
structure Asks (s : Input) (p u : List UInt8) : Prop where
  mode : s.selectMode ≠ .selected
  idle : s.autocompleteActive = false
  request : Request (sent s) p u

/-- The console after Tab and reads up to `r`. -/
def readUpTo (s : Input) (r : UInt32) : Input := { tabKey s with r := r }

theorem key_tab (hsel : s.selectMode ≠ .selected) (ha : s.autocompleteActive = false) :
    key s tab = .ok { s := tabKey s, wake := true } := by
  simp +decide only [key, hsel, ha, if_false, if_true]

theorem key_tab_w {o : Outcome} (hno : ¬ (s.selectMode ≠ .selected ∧ s.autocompleteActive = false))
    (h : key s tab = .ok o) : o.s.w = s.w := by
  by_cases hsel : s.selectMode = .selected
  · have hc : Replaces tab := by decide
    rw [key_replace hc hsel] at h
    obtain ⟨s₁, h₁, h⟩ := bind_eq_ok h
    cases h
    exact (keySelected_frame h₁).2.1
  · have ha : s.autocompleteActive = true := by
      cases ha : s.autocompleteActive with
      | true => rfl
      | false => exact absurd ⟨hsel, ha⟩ hno
    simp +decide only [key, hsel, ha, if_false, if_true] at h
    cases h
    rfl

section
variable (hord : InOrder s.r s.w s.cursor s.e) (hsmall : s.e.toNat < 2 ^ 31)
include hord hsmall

theorem unread_tabKey : unread (readUpTo s s.w) = sent s := by
  have h1 := hord.wc
  have h2 := hord.ce
  have hsucc := toNat_succ (x := s.e) (by omega)
  have hlen : (s.e + 1 - s.w).toNat = s.e.toNat + 1 - s.w.toNat := by
    rw [toNat_sub (by omega), hsucc]
  show line _ s.w.toNat (s.e + 1 - s.w).toNat = line _ _ _
  rw [hlen]
  rfl

theorem readBack_of_asks (h : Asks s p u) : ∃ r, readBack s = .ok (readUpTo s r, u) := by
  obtain ⟨hsel, ha, ⟨cs, rfl, hcs⟩, ⟨rest, hs⟩, hshort, hplain⟩ := h
  have hunread := unread_tabKey hord hsmall
  have hlen : (unread (readUpTo s s.w)).length ≤ INPUT_BUF + 1 := by
    have h1 := hord.rw
    have h2 := hord.er
    rw [hunread, sent, length_line]
    omega
  obtain ⟨r, hr⟩ := readTab_pieces hshort hplain cs hlen hcs (hunread.trans hs)
  refine ⟨r, ?_⟩
  unfold readBack
  rw [key_tab hsel ha]
  show (match readTab (INPUT_BUF + 1) (readUpTo s s.w) with | none => _ | some x => _) = _
  rw [hr]
  rfl

theorem asks_of_readBack {s₂ : Input} (h : readBack s = .ok (s₂, u)) :
    (∃ r, s₂ = readUpTo s r) ∧ ∃ p, Asks s p u := by
  unfold readBack at h
  rcases hk : key s tab with f | o
  · rw [hk] at h; cases h
  rw [hk] at h
  simp only at h
  rcases hread : readTab (INPUT_BUF + 1) { o.s with r := s.w } with _ | ⟨s₃, v⟩
  · rw [hread] at h; cases h
  rw [hread] at h
  cases h
  by_cases hidle : s.selectMode ≠ .selected ∧ s.autocompleteActive = false
  · rw [key_tab hidle.1 hidle.2] at hk
    cases hk
    obtain ⟨⟨r, rfl⟩, p, hp⟩ := readTab_sound (s := readUpTo s s.w) hread
    rw [unread_tabKey hord hsmall] at hp
    exact ⟨⟨r, rfl⟩, p, hidle.1, hidle.2, hp⟩
  · -- nothing is committed, so the shell has nothing to read
    obtain ⟨-, p, -, ⟨rest, hp⟩, -⟩ := readTab_sound hread
    have hnil : unread { o.s with r := s.w } = [] := by
      show line _ _ (o.s.w - s.w).toNat = []
      rw [key_tab_w hidle hk, UInt32.sub_self]
      rfl
    rw [hnil] at hp
    simp at hp

omit hsmall in
theorem sent_of_room (hroom : s.e.toNat - s.w.toNat < INPUT_BUF) : sent s = (view s).text ++ [tab] := by
  have h1 := hord.wc
  have h2 := hord.ce
  have hpush := Ring.window_push s.buf s.w.toNat (s.e.toNat - s.w.toNat) tab hroom
  rw [show s.w.toNat + (s.e.toNat - s.w.toNat) = s.e.toNat by omega,
    show s.e.toNat - s.w.toNat + 1 = s.e.toNat + 1 - s.w.toNat by omega] at hpush
  exact hpush

omit hsmall in
theorem sent_of_full (hfull : ¬ s.e.toNat - s.w.toNat < INPUT_BUF) : ∃ l, sent s = tab :: l := by
  have h1 := hord.rw
  have h2 := hord.wc
  have h3 := hord.ce
  have h4 := hord.er
  have hplace : ring s.e.toNat = ring s.w.toNat := by
    refine Ring.place_congr ?_
    simp only [INPUT_BUF] at *
    omega
  refine ⟨line (update s.buf (ring s.e.toNat) tab) (s.w.toNat + 1) (s.e.toNat - s.w.toNat), ?_⟩
  unfold sent
  rw [show s.e.toNat + 1 - s.w.toNat = s.e.toNat - s.w.toNat + 1 by omega, line_eq_window, Ring.window_cons]
  refine congrArg (· :: _) ?_
  show update s.buf (ring s.e.toNat) tab (ring s.w.toNat) = tab
  rw [hplace, update_self]

omit hsmall in
theorem Asks.isPrefix (h : Asks s p u) : p ++ u <+: (view s).text := by
  obtain ⟨-, -, ⟨cs, rfl, hcs⟩, ⟨rest, hs⟩, -, hplain⟩ := h
  by_cases hroom : s.e.toNat - s.w.toNat < INPUT_BUF
  · rw [sent_of_room hord hroom, ← List.append_assoc] at hs
    have hlen := congrArg List.length hs
    simp only [List.length_append, List.length_cons, List.length_nil] at hlen
    refine List.prefix_of_prefix_length_le ⟨tab :: rest, hs.symm⟩ (List.prefix_append _ _) ?_
    rw [List.length_append]
    omega
  · obtain ⟨l, hhead⟩ := sent_of_full hord hroom
    rw [hhead] at hs
    rcases cs with _ | ⟨k, cs⟩
    · rcases u with _ | ⟨c, u⟩
      · exact List.nil_prefix
      · obtain ⟨rfl, -⟩ := List.cons.inj hs
        exact absurd (.inr (.inr rfl)) (hplain _ (.head _)).2.2
    · obtain ⟨x, hx, -, hnone⟩ := hcs k (.head _)
      rcases k with _ | ⟨c, k⟩
      · cases hx
      · obtain ⟨rfl, -⟩ := List.cons.inj hs; cases hx; cases hnone

end

/-! ## The words and the match -/

def cursorWord (s : Input) : List UInt8 := lastWord ((view s).text.take (view s).cursor)

theorem lastWord_of_no_space (h : space ∉ l) : lastWord l = l := by
  have happ := lastWord_append [] l; rw [if_neg h] at happ; exact happ

theorem searchPrefix_eq (line : List UInt8) : searchPrefix line = lastWord line := by
  unfold searchPrefix
  split
  · rename_i hcd
    obtain ⟨r, rfl⟩ := List.isPrefixOf_iff_prefix.1 hcd
    show lastWord r = lastWord (cd ++ [space] ++ r)
    rw [lastWord_append]
    split
    · rfl
    · rename_i hr; exact lastWord_of_no_space hr
  · rfl

theorem isMultiple_line (m x : List UInt8) : isMultiple (m ++ newline :: x) = decide (newline ∈ m ∨ x ≠ []) := by
  induction m with
  | nil => cases x <;> rfl
  | cons c m ih =>
    rw [List.cons_append, isMultiple]
    by_cases hc : c = newline
    · simp [hc]
    · rw [if_neg hc, ih]; simp [Ne.symm hc]

theorem joined_cons (m : List UInt8) (ms : List (List UInt8)) : joined (m :: ms) = m ++ newline :: joined ms := by
  simp [joined]

theorem joined_singleton (m : List UInt8) : joined [m] = m ++ [newline] := by
  simp [joined]

theorem completion_line (m : List UInt8) : completion (m ++ [newline]) = m := by
  simp [completion]

theorem length_of_mem_found (h : m ∈ found p des) : m.length ≤ DIRSIZ := by
  rcases List.mem_append.1 (List.mem_filter.1 h).1 with h | h
  · split at h
    · cases h
    · rw [List.mem_singleton.1 h]; decide
  · obtain ⟨de, -, rfl⟩ := List.mem_map.1 h
    rw [← de.size]
    exact (List.takeWhile_prefix _).length_le

theorem isPrefix_of_mem_found (h : m ∈ found p des) : p <+: m :=
  List.isPrefixOf_iff_prefix.1 (List.mem_filter.1 h).2

section
variable (hord : InOrder s.r s.w s.cursor s.e)
include hord

theorem savedWord_tabKey (r : UInt32) : savedWord (readUpTo s r) = cursorWord s := by
  have h := hord.ce
  show lastWord (line s.buf s.w.toNat (s.cursor.toNat - s.w.toNat)) = _
  rw [line_take s.buf s.w.toNat (show s.cursor.toNat - s.w.toNat ≤ s.e.toNat - s.w.toNat by omega)]
  rfl

theorem suffix_single (r : UInt32) {m : List UInt8} (hm : newline ∉ m) :
    suffix (readUpTo s r) (m ++ [newline]) = m.drop (cursorWord s).length := by
  unfold suffix
  rw [isMultiple_line, if_pos (by simpa using hm), completion_line, savedWord_tabKey hord]

omit hord in
theorem suffix_multiple (r : UInt32) {m x : List UInt8} (hm : newline ∈ m ∨ x ≠ []) :
    suffix (readUpTo s r) (m ++ newline :: x) = [] := by
  unfold suffix
  rw [isMultiple_line, decide_eq_true hm]
  rfl

theorem view_of_typed (h : Typed (restore (readUpTo s r)) xs s')
    (hlen : s.e.toNat - s.w.toNat + xs.length ≤ INPUT_BUF) :
    view s' = (view s).replace (view s).cursor (view s).cursor xs := by
  have h1 := hord.wc
  have h2 := hord.ce
  have hw : s'.w = s.w := h.w
  have hc : s'.cursor.toNat = s.cursor.toNat + xs.length := h.cursor
  have htext := h.text s.w.toNat h1 (show s.e.toNat + xs.length - s.w.toNat ≤ INPUT_BUF by omega)
  rw [view_eq s', hw, htext, hc, show s.cursor.toNat + xs.length - s.w.toNat =
    s.cursor.toNat - s.w.toNat + xs.length by omega]
  rfl

end

/-! ## The line comes back -/

/-- What a single match of the word `v` has behind it. -/
def behind (v : List UInt8) : List (List UInt8) → List UInt8
  | [m] => m.drop v.length
  | _ => []

/-- What the completion of `u` adds to the line. -/
def missing (u : List UInt8) (dir : SearchDir → Option (List RawDirent)) : List UInt8 :=
  match dir (searchDir u) with
  | none => []
  | some des => behind (searchPrefix u) (found (searchPrefix u) des)

/-- The line of `s` stands there again in `s'`, with what a single match adds at the cursor; and a later
Tab works. -/
structure GivenBack (s : Input) (dir : SearchDir → Option (List RawDirent)) (s' : Input) : Prop where
  idle : s'.autocompleteActive = false
  wc : s'.w.toNat ≤ s'.cursor.toNat
  ce : s'.cursor.toNat ≤ s'.e.toNat
  room : s'.e.toNat - s'.w.toNat ≤ INPUT_BUF
  line : ∃ p u, Asks s p u ∧ view s' = (view s).replace (view s).cursor (view s).cursor (missing u dir)

/-- The only match of the word `v` is a name without a newline, of which the kernel skips as much as the
shell has matched; the rest has room in the ring, and in the middle of the line below the end of the array. -/
def SingleFits (s : Input) (v m : List UInt8) : Prop :=
  newline ∉ m ∧ m.length - (cursorWord s).length = m.length - v.length ∧
    s.e.toNat - s.w.toNat + (m.length - v.length) ≤ INPUT_BUF ∧
    (v.length < m.length → s.cursor < s.e → s.e.toNat + (m.length - v.length) ≤ INPUT_BUF)

/-- The shell can open and read the directory, finds a match of the last word of `u` and has room for all
of them. -/
structure Finds (u : List UInt8) (dir : SearchDir → Option (List RawDirent)) (des : List RawDirent) : Prop where
  opens : dir (searchDir u) = some des
  reads : ∀ de ∈ live des, Readable (lastWord u) de
  some : found (lastWord u) des ≠ []
  room : (joined (found (lastWord u) des)).length < MATCHES

/-- The shell is asked for a completion, finds one, and a single one fits the line. -/
def CompletionFits (s : Input) (dir : SearchDir → Option (List RawDirent)) : Prop :=
  ∃ p u des, Asks s p u ∧ Finds u dir des ∧ ∀ m, found (lastWord u) des = [m] → SingleFits s (lastWord u) m

theorem Asks.not_mem_word (h : Asks s p u) (hc : ¬ Plain c) : c ∉ lastWord u := by
  intro hmem; exact hc (h.request.plain c ((List.rtakeWhile_suffix _ u).subset hmem))

theorem find_ok_iff (h0 : 0 ∉ lastWord u) :
    findAndSendCompletions u dir = .ok (some str) ↔ ∃ des, Finds u dir des ∧ str = joined (found (lastWord u) des) := by
  rw [findAndSendCompletions_ok_iff h0 (searchPrefix_eq u)]
  constructor
  · rintro ⟨des, h1, h2, h3, rfl, h4⟩; exact ⟨des, ⟨h1, h2, h3, h4⟩, rfl⟩
  · rintro ⟨des, ⟨h1, h2, h3, h4⟩, rfl⟩; exact ⟨des, h1, h2, h3, rfl, h4⟩

theorem answer_found (h0 : 0 ∉ lastWord u) (h : Finds u dir des) :
    answer s u dir = match consolePrintAndRedraw s (joined (found (lastWord u) des)) with
      | .error f => .error (.console f)
      | .ok s => .ok s := by
  unfold answer
  rw [(find_ok_iff h0).2 ⟨des, h, rfl⟩]

theorem answer_idle (h0 : 0 ∉ lastWord u) (ha : s.autocompleteActive = true) (h : answer s u dir = .ok s')
    (ha' : s'.autocompleteActive = false) :
    ∃ des, Finds u dir des ∧ consolePrintAndRedraw s (joined (found (lastWord u) des)) = .ok s' := by
  unfold answer at h
  rcases hf : findAndSendCompletions u dir with f | _ | str
  · rw [hf] at h; cases h
  · rw [hf] at h
    cases h
    rw [ha] at ha'
    cases ha'
  · rw [hf] at h
    obtain ⟨des, hfind, rfl⟩ := (find_ok_iff h0).1 hf
    refine ⟨des, hfind, ?_⟩
    rcases hr : consolePrintAndRedraw s (joined (found (lastWord u) des)) with f | s₁
    · simp only [hr] at h; cases h
    · simp only [hr] at h; cases h; rfl

theorem missing_eq (h : Finds u dir des) : missing u dir = behind (lastWord u) (found (lastWord u) des) := by
  unfold missing; rw [h.opens, searchPrefix_eq]

theorem replace_inj {ed : Editor} {ys : List UInt8} (h : ed.replace i j xs = ed.replace i j ys) :
    xs.length = ys.length := by
  have := congrArg Editor.cursor h
  simpa [Editor.replace] using this

theorem drop_eq_of_length {α : Type} {m : List α} (h : m.length - i = m.length - j) : m.drop i = m.drop j := by
  by_cases hi : i < m.length
  · rw [show i = j by omega]
  · rw [List.drop_eq_nil_of_le (by omega), List.drop_eq_nil_of_le (by omega)]

section
variable (hord : InOrder s.r s.w s.cursor s.e) (hsmall : s.e.toNat + DIRSIZ ≤ 2 ^ 31)
include hord hsmall

/-- A call that returns has put the rest of the match into the line as Tab found it. -/
theorem redraw_after_tab (hlen : (suffix (readUpTo s r) str).length ≤ DIRSIZ)
    (h : consolePrintAndRedraw (readUpTo s r) str = .ok s') :
    SuffixFits (readUpTo s r) str ∧
      Typed (restore (readUpTo s r)) (suffix (readUpTo s r) str) s' ∧ s'.autocompleteActive = false := by
  have he : (readUpTo s r).savedE.toNat + (suffix (readUpTo s r) str).length ≤ 2 ^ 31 := by
    show s.e.toNat + _ ≤ _; omega
  by_cases hfit : SuffixFits (readUpTo s r) str
  · rcases redraw_typed (s := readUpTo s r) hord he hfit with ⟨s₁, h₁, ht, ha⟩ | h₁
    · rw [h] at h₁; cases h₁; exact ⟨hfit, ht, ha⟩
    · rw [h] at h₁; cases h₁
  · obtain ⟨i, hi⟩ := redraw_oob (s := readUpTo s r) hord he hfit
    rw [h] at hi
    cases hi

theorem suffix_of_fits (hfind : Finds u dir des)
    (hsingle : ∀ m, found (lastWord u) des = [m] → SingleFits s (lastWord u) m) (r : UInt32) :
    suffix (readUpTo s r) (joined (found (lastWord u) des)) = missing u dir ∧
      (missing u dir).length ≤ DIRSIZ ∧ s.e.toNat - s.w.toNat + (missing u dir).length ≤ INPUT_BUF ∧
      (missing u dir ≠ [] → s.cursor < s.e → s.e.toNat + (missing u dir).length ≤ INPUT_BUF) := by
  rw [missing_eq hfind]
  rcases hf : found (lastWord u) des with _ | ⟨m, _ | ⟨m', ms⟩⟩
  · exact absurd hf hfind.some
  · obtain ⟨hnl, hskip, hroom, hmid⟩ := hsingle m hf
    have hm : m.length ≤ DIRSIZ := length_of_mem_found (hf ▸ List.mem_singleton_self m)
    rw [joined_singleton]
    simp only [behind, List.length_drop]
    refine ⟨?_, by omega, hroom, ?_⟩
    · rw [← drop_eq_of_length hskip]; exact suffix_single hord r hnl
    intro hne
    refine hmid ?_
    by_contra hle
    exact hne (List.drop_eq_nil_of_le (by omega))
  · have h1 := hord.rw
    have h2 := hord.er
    refine ⟨?_, Nat.zero_le _, ?_, fun h => absurd rfl h⟩
    · rw [joined_cons]
      refine suffix_multiple r (.inr ?_)
      simp [joined]
    · show s.e.toNat - s.w.toNat + 0 ≤ _; omega

theorem givenBack_of_fits (h : CompletionFits s dir) :
    tabRound s dir = .error (.console .panic) ∨ ∃ s', tabRound s dir = .ok s' ∧ GivenBack s dir s' := by
  obtain ⟨p, u, des, hask, hfind, hsingle⟩ := h
  obtain ⟨r, hr⟩ := readBack_of_asks hord (by unfold DIRSIZ at hsmall; omega) hask
  obtain ⟨hsuf, hlen, hroom, hmid⟩ := suffix_of_fits hord hsmall hfind hsingle r
  have hround : tabRound s dir = answer (readUpTo s r) u dir := by
    unfold tabRound; rw [hr]; rfl
  rw [hround, answer_found (hask.not_mem_word (by decide)) hfind]
  have he : (readUpTo s r).savedE.toNat +
      (suffix (readUpTo s r) (joined (found (lastWord u) des))).length ≤ 2 ^ 31 := by
    rw [hsuf]; show s.e.toNat + _ ≤ _; omega
  have hfit : SuffixFits (readUpTo s r) (joined (found (lastWord u) des)) := by
    unfold SuffixFits; rw [hsuf]; exact hmid
  rcases redraw_typed (s := readUpTo s r) hord he hfit with ⟨s', h, ht, ha⟩ | h
  · rw [h]
    rw [hsuf] at ht
    have h1 : s'.w = s.w := ht.w
    have h2 : s'.e.toNat = s.e.toNat + (missing u dir).length := ht.e
    have h3 : s'.cursor.toNat = s.cursor.toNat + (missing u dir).length := ht.cursor
    have h4 := hord.wc
    have h5 := hord.ce
    refine .inr ⟨s', rfl, ha, ?_, by omega, ?_, p, u, hask, view_of_typed hord ht hroom⟩
    · rw [h1]; omega
    · rw [h1]; omega
  · rw [h]; exact .inl rfl

/-- If the line with the rest of a single match comes back, the match fits. -/
theorem singleFits_of_view {v : List UInt8} (hpre : v <+: m) (hm : m.length ≤ DIRSIZ) (hv : newline ∉ v)
    (h : consolePrintAndRedraw (readUpTo s r) (m ++ [newline]) = .ok s') (hroom : s'.e.toNat - s'.w.toNat ≤ INPUT_BUF)
    (hview : view s' = (view s).replace (view s).cursor (view s).cursor (m.drop v.length)) : SingleFits s v m := by
  have h1 := hord.wc
  have h2 := hord.ce
  by_cases hnl : newline ∈ m
  · -- a name with a newline is taken for several, and nothing of it is inserted
    have hsuf := suffix_multiple (s := s) r (x := []) (.inl hnl)
    obtain ⟨-, ht, -⟩ := redraw_after_tab hord hsmall (by rw [hsuf]; exact Nat.zero_le _) h
    rw [hsuf] at ht
    have he : s'.e.toNat = s.e.toNat := ht.e
    have hw : s'.w = s.w := ht.w
    rw [he, hw] at hroom
    have hlen : m.length - v.length = 0 := by
      rw [← List.length_drop]
      exact replace_inj (hview.symm.trans (view_of_typed hord ht hroom))
    have hword : v = m := hpre.eq_of_length (by have := hpre.length_le; omega)
    rw [← hword] at hnl
    exact absurd hnl hv
  · have hsuf := suffix_single hord r hnl
    have hlen : (suffix (readUpTo s r) (m ++ [newline])).length = m.length - (cursorWord s).length := by
      rw [hsuf, List.length_drop]
    obtain ⟨hfit, ht, -⟩ := redraw_after_tab hord hsmall (by rw [hlen]; omega) h
    have he : s'.e.toNat = s.e.toNat + (m.length - (cursorWord s).length) := by
      rw [← hlen]; exact ht.e
    have hw : s'.w = s.w := ht.w
    rw [hw] at hroom
    have hskip : m.length - v.length = m.length - (cursorWord s).length := by
      rw [← hlen, ← List.length_drop]
      exact replace_inj (hview.symm.trans (view_of_typed hord ht (by rw [hlen]; omega)))
    refine ⟨hnl, hskip.symm, by omega, ?_⟩
    intro hlt hmid
    rw [hskip, ← hlen]
    refine hfit ?_ hmid
    intro hnil
    rw [hnil, List.length_nil] at hlen
    omega

end

/-- A round gives the line back exactly if the completion fits; the screen may panic when it is drawn. -/
theorem tab_gives_line_back (s : Input) (dir : SearchDir → Option (List RawDirent))
    (hord : InOrder s.r s.w s.cursor s.e) (hsmall : s.e.toNat + DIRSIZ ≤ 2 ^ 31) :
    (CompletionFits s dir →
      tabRound s dir = .error (.console .panic) ∨ ∃ s', tabRound s dir = .ok s' ∧ GivenBack s dir s') ∧
    (∀ s', tabRound s dir = .ok s' → GivenBack s dir s' → CompletionFits s dir) := by
  have he : s.e.toNat < 2 ^ 31 := by
    unfold DIRSIZ at hsmall; omega
  constructor
  · exact givenBack_of_fits hord hsmall
  · intro s' h hback
    obtain ⟨⟨s₂, u⟩, hread, hans⟩ := bind_eq_ok h
    obtain ⟨⟨r, rfl⟩, p, hask⟩ := asks_of_readBack hord he hread
    obtain ⟨des, hfind, hredraw⟩ := answer_idle (hask.not_mem_word (by decide)) rfl hans hback.idle
    refine ⟨p, u, des, hask, hfind, ?_⟩
    intro m hf
    -- the request the line was given back for is the one the shell has read
    obtain ⟨p', u', hask', hview⟩ := hback.line
    obtain ⟨r', hr'⟩ := readBack_of_asks hord he hask'
    rw [hread] at hr'
    cases hr'
    rw [missing_eq hfind, hf] at hview
    rw [hf, joined_singleton] at hredraw
    have hmem : m ∈ found (lastWord u) des := hf ▸ List.mem_singleton_self m
    exact singleFits_of_view hord hsmall (isPrefix_of_mem_found hmem) (length_of_mem_found hmem)
      (hask.not_mem_word (by decide)) hredraw hback.room hview

def atPrompt (text : List UInt8) (cursor : UInt32) : Input :=
  { buf := fun i => text.getD i 0, e := UInt32.ofNat text.length, cursor := cursor }

/-- `l` and the one entry `ls` with it. -/
theorem tab_gives_line_back_ls :
    ∃ s', tabRound (atPrompt [108] 1) (fun _ => some [named [108, 115]]) = .ok s' ∧
      GivenBack (atPrompt [108] 1) (fun _ => some [named [108, 115]]) s' := by
  have hplain : ∀ c ∈ [(108 : UInt8)], Plain c := by
    rw [List.forall_mem_singleton]; decide
  have hask : Asks (atPrompt [108] 1) [] [108] :=
    ⟨by decide, rfl, ⟨[], rfl, nofun⟩, ⟨[], by decide⟩, by decide, hplain⟩
  have hfits : CompletionFits (atPrompt [108] 1) (fun _ => some [named [108, 115]]) := by
    refine ⟨[], [108], [named [108, 115]], hask, ⟨rfl, ?_, by decide, by decide⟩, ?_⟩
    · intro de hde
      have hde : de ∈ [named [108, 115]] := hde
      rw [List.mem_singleton.1 hde]
      exact .inl (by decide)
    · intro m hm
      have hm : [[108, 115]] = [m] := hm
      cases hm
      exact ⟨by decide, by decide, by decide, by decide⟩
  rcases (tab_gives_line_back (atPrompt [108] 1) (fun _ => some [named [108, 115]])
    ⟨by decide, by decide, by decide, by decide⟩ (by decide)).1 hfits with h | h
  · have hok : (tabRound (atPrompt [108] 1) fun _ => some [named [108, 115]]).isOk = true := by decide +kernel
    rw [h] at hok
    cases hok
  · exact h

/-- `x` and no entry with it: nothing is drawn, the line is gone, and another Tab is ignored. -/
theorem tab_without_match : ∃ s', tabRound (atPrompt [120] 1) (fun _ => some [named [99, 97, 116]]) = .ok s' ∧
    (view s').text = [] ∧ s'.cursor < s'.w ∧ s'.autocompleteActive = true := by
  exact exists_ok_of_any (by decide +kernel)

/-! ## The same word -/

/-- The word the shell searches for is the one before the cursor that the kernel skips, and with a match of
it `redraw_console` leaves the line with the match in its place, if that fits the ring. -/
def Agreed (s : Input) : Prop :=
  ∃ s₂ u, readBack s = .ok (s₂, u) ∧
    (∃ j, prefixStart (restore s₂) (s.cursor.toNat - s.w.toNat) s.cursor = .ok j ∧
      searchPrefix u = line s.buf j.toNat (s.cursor.toNat - j.toNat)) ∧
    ∀ m s', searchPrefix u <+: m → newline ∉ m → m.length ≤ DIRSIZ →
      consolePrintAndRedraw s₂ (m ++ [newline]) = .ok s' → s'.e.toNat - s'.w.toNat ≤ INPUT_BUF →
      view s' = (view s).replace ((view s).cursor - (searchPrefix u).length) (view s).cursor m

/-- In a line the words before `j` and before `c` are the same. -/
def SameWord (l : List UInt8) (j c : Nat) : Prop :=
  j = c ∨ space ∈ (l.take (max j c)).drop (min j c) ∧
    lastWord ((l.take (max j c)).drop (min j c)) = lastWord (l.take (min j c))

/-- The cursor is where the shell stops reading, or between the two there is a word like the one before
them; of a line read in pieces the last piece counts, and if it has no space it is the word. -/
def PrefixesMeet (s : Input) : Prop :=
  ∃ p u, Asks s p u ∧
    if p = [] ∨ space ∈ u then SameWord (view s).text (p ++ u).length (view s).cursor else cursorWord s = u

theorem sameWord_iff {c : Nat} (hj : j ≤ l.length) (hc : c ≤ l.length) :
    lastWord (l.take j) = lastWord (l.take c) ↔ SameWord l j c := by
  have key : ∀ {x y : Nat}, x ≤ y → y ≤ l.length → (lastWord (l.take y) = lastWord (l.take x) ↔
      x = y ∨ space ∈ (l.take y).drop x ∧ lastWord ((l.take y).drop x) = lastWord (l.take x)) := by
    intro x y hxy hy
    have hsplit : l.take y = l.take x ++ (l.take y).drop x := by
      conv_lhs => rw [← List.take_append_drop x (l.take y), List.take_take, min_eq_left hxy]
    constructor
    · intro h
      rw [hsplit, lastWord_append] at h
      obtain ⟨hs, h⟩ | ⟨hs, h⟩ := ite_eq_iff.1 h
      · exact .inr ⟨hs, h⟩
      · have hlen := congrArg List.length (List.append_right_eq_self.1 h)
        rw [List.length_drop, List.length_take, List.length_nil] at hlen
        omega
    · rintro (rfl | ⟨hs, h⟩)
      · rfl
      · rw [hsplit, lastWord_append, if_pos hs, h]
  unfold SameWord
  rcases le_total j c with h | h
  · rw [max_eq_right h, min_eq_left h, eq_comm, key h hc]
  · rw [max_eq_left h, min_eq_right h, key h hj, eq_comm]

section
variable (hord : InOrder s.r s.w s.cursor s.e)
include hord

theorem prefixesMeet_iff (h : Asks s p u) : lastWord u = cursorWord s ↔
    if p = [] ∨ space ∈ u then SameWord (view s).text (p ++ u).length (view s).cursor else cursorWord s = u := by
  have hpre := h.isPrefix hord
  split
  · rename_i hpiece
    have hword : lastWord u = lastWord ((view s).text.take (p ++ u).length) := by
      rw [← List.prefix_iff_eq_take.1 hpre]
      rcases hpiece with rfl | hs
      · rfl
      · rw [lastWord_append, if_pos hs]
    rw [hword]
    refine sameWord_iff hpre.length_le ?_
    have hlen : (view s).text.length = s.e.toNat - s.w.toNat := length_line ..
    have h1 := hord.ce
    rw [hlen]
    show s.cursor.toNat - s.w.toNat ≤ _
    omega
  · rename_i hpiece; rw [lastWord_of_no_space fun hs => hpiece (.inr hs), eq_comm]

theorem take_cursor : (view s).text.take (view s).cursor =
    (view s).text.take ((view s).cursor - (cursorWord s).length) ++ cursorWord s := by
  obtain ⟨a, ha⟩ := List.rtakeWhile_suffix (fun c => decide (c ≠ space)) ((view s).text.take (view s).cursor)
  have ha : a ++ cursorWord s = (view s).text.take (view s).cursor := ha
  have hlen : (view s).text.length = s.e.toNat - s.w.toNat := length_line ..
  have hce := hord.ce
  have hc : (view s).cursor = s.cursor.toNat - s.w.toNat := rfl
  have hsum := congrArg List.length ha
  rw [List.length_append, List.length_take] at hsum
  have hpre : a <+: (view s).text := (List.prefix_append a _).trans (ha ▸ List.take_prefix _ _)
  rw [← ha, List.prefix_iff_eq_take.1 hpre, show (view s).cursor - (cursorWord s).length = a.length by omega]

theorem prefixStart_tab (hsmall : s.e.toNat ≤ 2 ^ 31) (r : UInt32) :
    ∃ j, prefixStart (restore (readUpTo s r)) (s.cursor.toNat - s.w.toNat) s.cursor = .ok j ∧
      line s.buf j.toNat (s.cursor.toNat - j.toNat) = cursorWord s := by
  have hwc := hord.wc
  have hce := hord.ce
  obtain ⟨j, hj, hlen⟩ := prefixStart_spec (restore (readUpTo s r)) (s.cursor.toNat - s.w.toNat)
    s.cursor (by omega) (by omega)
  rw [show s.cursor.toNat - (s.cursor.toNat - s.w.toNat) = s.w.toNat by omega] at hlen
  have hword := savedWord_tabKey hord r
  have hlen : j.toNat + (savedWord (readUpTo s r)).length = s.cursor.toNat := hlen
  rw [hword] at hlen
  refine ⟨j, hj, ?_⟩
  have hle : (cursorWord s).length ≤ s.cursor.toNat - s.w.toNat := by
    have hle := length_lastWord_le (line s.buf s.w.toNat (s.cursor.toNat - s.w.toNat))
    rw [length_line] at hle
    rw [← hword]
    exact hle
  have hsplit := line_split s.buf (w := s.w.toNat) (m := j.toNat) (e := s.cursor.toNat) (by omega) (by omega)
  have htake := take_cursor hord
  rw [show (view s).text.take (view s).cursor = line s.buf s.w.toNat (s.cursor.toNat - s.w.toNat) from
    (line_take s.buf s.w.toNat (show s.cursor.toNat - s.w.toNat ≤ s.e.toNat - s.w.toNat by omega)).symm,
    hsplit] at htake
  refine (List.append_inj' htake ?_).2
  rw [length_line]
  omega

/-- The rest of a match behind the word before the cursor makes the match of the word. -/
theorem redraw_replaces (hsmall : s.e.toNat + DIRSIZ ≤ 2 ^ 31) {r : UInt32} {m : List UInt8} {s' : Input}
    (hm : cursorWord s <+: m) (hnl : newline ∉ m) (hlen : m.length ≤ DIRSIZ)
    (h : consolePrintAndRedraw (readUpTo s r) (m ++ [newline]) = .ok s') (hroom : s'.e.toNat - s'.w.toNat ≤ INPUT_BUF) :
    view s' = (view s).replace ((view s).cursor - (cursorWord s).length) (view s).cursor m := by
  have hsuf := suffix_single hord r hnl
  have hle : (suffix (readUpTo s r) (m ++ [newline])).length = m.length - (cursorWord s).length := by
    rw [hsuf, List.length_drop]
  obtain ⟨-, ht, -⟩ := redraw_after_tab hord hsmall (by rw [hle]; omega) h
  have he : s'.e.toNat = s.e.toNat + (suffix (readUpTo s r) (m ++ [newline])).length := ht.e
  have hw : s'.w = s.w := ht.w
  have hce := hord.ce
  have hwc := hord.wc
  rw [hw, he] at hroom
  rw [view_of_typed hord ht (by omega), hsuf]
  obtain ⟨x, rfl⟩ := hm
  have hkl : (cursorWord s).length ≤ (view s).cursor := by
    refine (length_lastWord_le _).trans ?_
    rw [List.length_take]
    exact min_le_left ..
  unfold Editor.replace
  rw [take_cursor hord, List.drop_left, List.append_assoc _ (cursorWord s) x, List.length_append]
  rw [show (view s).cursor - (cursorWord s).length + ((cursorWord s).length + x.length) =
    (view s).cursor + x.length by omega]

end

/-- The shell and the kernel agree on the word to complete exactly if the words meet. -/
theorem prefixes_agree (s : Input) (hord : InOrder s.r s.w s.cursor s.e) (hsmall : s.e.toNat + DIRSIZ ≤ 2 ^ 31) :
    Agreed s ↔ PrefixesMeet s := by
  have he : s.e.toNat < 2 ^ 31 := by
    unfold DIRSIZ at hsmall; omega
  constructor
  · rintro ⟨s₂, u, hread, ⟨j, hj, hword⟩, -⟩
    obtain ⟨⟨r, rfl⟩, p, hask⟩ := asks_of_readBack hord he hread
    obtain ⟨j', hj', hword'⟩ := prefixStart_tab hord he.le r
    rw [hj] at hj'
    cases hj'
    rw [hword', searchPrefix_eq] at hword
    exact ⟨p, u, hask, (prefixesMeet_iff hord hask).1 hword⟩
  · rintro ⟨p, u, hask, hmeet⟩
    have hword := (prefixesMeet_iff hord hask).2 hmeet
    obtain ⟨r, hr⟩ := readBack_of_asks hord he hask
    obtain ⟨j, hj, hj'⟩ := prefixStart_tab hord he.le r
    refine ⟨readUpTo s r, u, hr, ⟨j, hj, ?_⟩, ?_⟩
    · rw [searchPrefix_eq, hword, hj']
    · intro m s' hm hnl hlen h hroom
      rw [searchPrefix_eq, hword] at hm ⊢
      exact redraw_replaces hord hsmall hm hnl hlen h hroom

/-- `ls` with the cursor at its end. -/
theorem prefixes_agree_ls : Agreed (atPrompt [108, 115] 2) := by
  refine (prefixes_agree (atPrompt [108, 115] 2) ⟨by decide, by decide, by decide, by decide⟩ (by decide)).2 ?_
  have hplain : ∀ c ∈ [(108 : UInt8), 115], Plain c := by
    rw [List.forall_mem_cons, List.forall_mem_singleton]; decide
  refine ⟨[], [108, 115], ⟨by decide, rfl, ⟨[], rfl, nofun⟩, ⟨[], by decide⟩, by decide, hplain⟩, ?_⟩
  rw [if_pos (.inl rfl)]
  exact .inl rfl

/-- `ls ca` with the cursor behind `ls`: the shell completes `ca`, and the rest of `cat` goes behind `ls`. -/
theorem prefixes_differ :
    ∃ s', tabRound (atPrompt [108, 115, space, 99, 97] 2) (fun _ => some [named [99, 97, 116]]) = .ok s' ∧
    (view s').text = [108, 115, 116, space, 99, 97] := by
  exact exists_ok_of_any (by decide +kernel)

end Xv6.Shell
