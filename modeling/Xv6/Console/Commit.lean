/-
Committed input as a queue. Beside the console a session keeps the bytes committed by Enter and the
bytes returned by `consoleread`, whose callers may sleep, wake and be killed in any order. As long as
Enter is pressed only while the ring has room for the newline, the bytes returned are a prefix of
those committed: what lies between is the ring from `input.r` to `input.w`. The indices wrap here as
they do in the code, since the length of the ring divides 2^32.
-/
import Xv6.Console.Editor

namespace Xv6.Console

open Base Function

/-! ## Sessions -/

/-- A process asleep in `consoleread`: the bytes it asked for, those still wanted, those it has. -/
structure ReadCall where
  target : Nat
  n : Nat
  out : List UInt8
  deriving DecidableEq, Repr

/-- The console, the readers asleep, and what was committed and returned so far. -/
structure Session (ι : Type) where
  input : Input
  readers : ι → Option ReadCall := fun _ => none
  committed : List UInt8 := []
  returned : List UInt8 := []

/-- A key, or a step of a reader: it calls, runs again after a sleep, or finds that it was killed. -/
inductive SessionAct (ι : Type)
  | key (c : UInt8)
  | read (i : ι) (n : Nat)
  | resume (i : ι)
  | killed (i : ι)
  deriving DecidableEq, Repr

def pending (s : Input) : List UInt8 := line s.buf s.w.toNat (s.e - s.w).toNat

/-- The committed bytes that nobody has read. -/
def unread (s : Input) : List UInt8 := line s.buf s.r.toNat (s.w - s.r).toNat

/-- Printable keys, Enter, and Backspace at the end of the line. -/
def LineKey (s : Input) (c : UInt8) : Prop :=
  Printable c ∨ c = newline ∨ (c = ctrlH ∨ c = delete) ∧ s.cursor = s.e

instance (s : Input) (c : UInt8) : Decidable (LineKey s c) := by unfold LineKey; infer_instance

variable {ι : Type} {r : UInt32}

section

variable [DecidableEq ι]

/-- A section of `consoleread` is over: the reader sleeps, or returns what it has. -/
def Session.ends (x : Session ι) (i : ι) (target : Nat) : Input × List UInt8 × Nat × ReadEnd → Session ι
  | (s, out, n, .sleeps) => { x with input := s, readers := update x.readers i (some ⟨target, n, out⟩) }
  | (s, out, _, .returns) =>
    { x with input := s, readers := update x.readers i none, returned := x.returned ++ out }

/-- One step; a key that faults has none. -/
def sessionStep (x : Session ι) : SessionAct ι → Option (Session ι)
  | .key c =>
    if LineKey x.input c then
      match key x.input c with
      | .ok o => some { x with
          input := o.s
          committed := if c = newline then x.committed ++ pending x.input ++ [newline] else x.committed }
      | .error _ => none
    else none
  | .read i n =>
    match x.readers i with
    | none => some (x.ends i n (consoleread n n x.input []))
    | some _ => none
  | .resume i => (x.readers i).map fun r => x.ends i r.target (consoleread r.target r.n x.input r.out)
  | .killed i =>
    match x.readers i with
    | some _ => if x.input.r = x.input.w then some { x with readers := update x.readers i none } else none
    | none => none

end

/-- After `consoleinit`, with the screen's cursor anywhere. -/
def sessionInit (x : Session ι) : Prop := ∃ pos, x = { input := { pos := pos } }

/-- Enter is pressed only while the ring has room for the newline. -/
def EnterFits (x : Session ι) (a : SessionAct ι) : Prop := a = .key newline → x.input.e - x.input.r < 128

instance [DecidableEq ι] (x : Session ι) (a : SessionAct ι) :
    Decidable (EnterFits x a) := inferInstanceAs (Decidable (_ → _))

/-! ## Indices that wrap -/

theorem mod_add_sub (a b : UInt32) : (a.toNat + (b - a).toNat) % INPUT_BUF = b.toNat % INPUT_BUF := by
  have ha := UInt32.toNat_lt a
  have hb := UInt32.toNat_lt b
  rw [UInt32.toNat_sub]
  unfold INPUT_BUF
  omega

variable {a b : UInt32} {s s' : Input} {x : Session ι}

theorem toNat_sub_add {c : UInt32} (h : (b - a).toNat ≤ (c - a).toNat ∨ (b - a).toNat + (c - b).toNat < 2 ^ 32) :
    (b - a).toNat + (c - b).toNat = (c - a).toNat := by
  have ha := UInt32.toNat_lt a
  have hb := UInt32.toNat_lt b
  have hc := UInt32.toNat_lt c
  simp only [UInt32.toNat_sub] at *
  omega

theorem toNat_succ_sub (h : (b - a).toNat ≤ INPUT_BUF) : (b + 1 - a).toNat = (b - a).toNat + 1 := by
  unfold INPUT_BUF at h
  have ha := UInt32.toNat_lt a
  have hb := UInt32.toNat_lt b
  rw [UInt32.toNat_sub] at *
  rw [UInt32.toNat_sub, UInt32.toNat_add, UInt32.toNat_one]
  omega

theorem toNat_sub_ne_zero (h : b ≠ a) : (b - a).toNat ≠ 0 := by
  have h : b.toNat ≠ a.toNat := fun e => h (UInt32.toNat_inj.1 e)
  have ha := UInt32.toNat_lt a
  have hb := UInt32.toNat_lt b
  rw [UInt32.toNat_sub]
  omega

theorem toNat_pred_sub (h : b ≠ a) : (b - 1 - a).toNat = (b - a).toNat - 1 := by
  have h : b.toNat ≠ a.toNat := fun e => h (UInt32.toNat_inj.1 e)
  have ha := UInt32.toNat_lt a
  have hb := UInt32.toNat_lt b
  rw [UInt32.toNat_sub, UInt32.toNat_sub, UInt32.toNat_sub, UInt32.toNat_one]
  omega

/-! ## The bytes of the ring -/

/-- Everything from the read index to the edit index. -/
def buffered (s : Input) : List UInt8 := line s.buf s.r.toNat (s.e - s.r).toNat

theorem buffered_eq (h : (s.w - s.r).toNat ≤ (s.e - s.r).toNat) : buffered s = unread s ++ pending s := by
  unfold buffered
  rw [← toNat_sub_add (.inl h)]
  show Ring.window _ _ _ = Ring.window _ _ _ ++ Ring.window _ _ _
  rw [Ring.window_add, Ring.window_congr _ _ (mod_add_sub s.r s.w)]

theorem line_push {b : Buf} {e : UInt32} (c : UInt8) (h : (e - r).toNat < INPUT_BUF) :
    line (update b (ring e.toNat) c) r.toNat ((e - r).toNat + 1) = line b r.toNat (e - r).toNat ++ [c] := by
  have hplace : ring e.toNat = Ring.place INPUT_BUF (r.toNat + (e - r).toNat) := Ring.place_congr (mod_add_sub r e).symm
  rw [hplace]
  exact Ring.window_push b r.toNat (e - r).toNat c h

theorem line_take (b : Buf) (a : Nat) {k n : Nat} (h : k ≤ n) : line b a k = (line b a n).take k := by
  obtain ⟨j, rfl⟩ := Nat.exists_eq_add_of_le h
  show Ring.window _ _ _ = (Ring.window _ _ _).take k
  rw [Ring.window_add, List.take_left' (Ring.length_window ..)]

/-! ## The keys -/

/-- What a session keeps: the ring holds the committed bytes not yet returned, and the pending line
with the cursor at its end. -/
structure Fifo (s : Input) : Prop where
  mode : s.selectMode = .off
  cursor : s.cursor = s.e
  le : (s.w - s.r).toNat ≤ (s.e - s.r).toNat
  room : (s.e - s.r).toNat ≤ INPUT_BUF
  noEof : ∀ c ∈ buffered s, c ≠ ctrlD
  ends : ∀ c ∈ (unread s).getLast?, c = newline

theorem Fifo.of_eq (h : Fifo s) (h1 : s'.buf = s.buf) (h2 : s'.r = s.r) (h3 : s'.w = s.w) (h4 : s'.e = s.e)
    (h5 : s'.cursor = s.cursor) (h6 : s'.selectMode = s.selectMode) : Fifo s' := by
  have hb : buffered s' = buffered s := by unfold buffered; rw [h1, h2, h4]
  have hu : unread s' = unread s := by unfold unread; rw [h1, h2, h3]
  refine ⟨h6.trans h.mode, ?_, ?_, ?_, ?_, ?_⟩
  · rw [h5, h4]; exact h.cursor
  · rw [h2, h3, h4]; exact h.le
  · rw [h2, h4]; exact h.room
  · rw [hb]; exact h.noEof
  · rw [hu]; exact h.ends

theorem fifo_redraw (h : Fifo s) (hs : redrawLine s = .ok s') : Fifo s' ∧ unread s' = unread s := by
  obtain ⟨p, l, rfl⟩ := redrawLine_eq_ok hs; exact ⟨h.of_eq rfl rfl rfl rfl rfl rfl, rfl⟩

theorem fifo_insert (h : Fifo s) {c : UInt8} (hc : Printable c) (hs : insert s c = .ok s') :
    Fifo s' ∧ unread s' = unread s := by
  by_cases hacc : s.e - s.r < 128 ∧ c ≠ carriageReturn
  · have hroom : (s.e - s.r).toNat < INPUT_BUF := UInt32.lt_iff_toNat_lt.1 hacc.1
    obtain ⟨b, x, y, z, hb, rfl⟩ := insert_eq_ok hacc hs
    rw [openGap, if_neg (by rw [h.cursor]; exact UInt32.lt_irrefl _)] at hb
    cases hb
    have hsucc := toNat_succ_sub (Nat.le_of_lt hroom)
    have hpush := line_push (b := s.buf) c hroom
    have hle := h.le
    -- the write is behind the committed bytes
    have hunread : line (update s.buf (ring s.e.toNat) c) s.r.toNat (s.w - s.r).toNat = unread s := by
      rw [line_take _ _ (show (s.w - s.r).toNat ≤ (s.e - s.r).toNat + 1 by omega), hpush,
        List.take_append_of_le_length (by rw [length_line]; exact hle), ← line_take _ _ hle]
      rfl
    rw [h.cursor]
    refine ⟨⟨h.mode, ?_, ?_, ?_, ?_, ?_⟩, hunread⟩
    · show s.cursor + 1 = s.e + 1; rw [h.cursor]
    · show (s.w - s.r).toNat ≤ (s.e + 1 - s.r).toNat; omega
    · show (s.e + 1 - s.r).toNat ≤ INPUT_BUF; omega
    · intro d hd
      have hd : d ∈ line (update s.buf (ring s.e.toNat) c) s.r.toNat (s.e + 1 - s.r).toNat := hd
      rw [hsucc, hpush, List.mem_append, List.mem_singleton] at hd
      rcases hd with hd | rfl
      · exact h.noEof d hd
      · rintro rfl; exact absurd hc (by decide)
    · intro d hd; exact h.ends d (by rw [← hunread]; exact hd)
  · rw [insert, if_neg hacc] at hs; cases hs; exact ⟨h, rfl⟩

theorem fifo_backspace (h : Fifo s) (hs : backspace s = .ok s') : Fifo s' ∧ unread s' = unread s := by
  rw [backspace_eq] at hs
  split at hs
  · rename_i hlt
    have hne : s.e ≠ s.w := by
      intro he; rw [h.cursor, he] at hlt; exact absurd hlt (UInt32.lt_irrefl _)
    -- nothing is left to move
    rw [memmove, if_pos (by rw [h.cursor, UInt32.sub_self]; rfl)] at hs
    refine fifo_redraw (s := deletedAt s (s.cursor - 1) s.buf) ?_ hs
    have hle := h.le
    have hroom := h.room
    have hsplit := toNat_sub_add (.inl hle)
    have hpos := toNat_sub_ne_zero hne
    have hner : s.e ≠ s.r := by
      intro he
      have h0 : (s.e - s.r).toNat = 0 := by rw [he, UInt32.sub_self]; rfl
      omega
    have hpred := toNat_pred_sub hner
    refine ⟨h.mode, ?_, ?_, ?_, ?_, h.ends⟩
    · show s.cursor - 1 = s.e - 1; rw [h.cursor]
    · show (s.w - s.r).toNat ≤ (s.e - 1 - s.r).toNat; omega
    · show (s.e - 1 - s.r).toNat ≤ INPUT_BUF; omega
    · intro c hc
      have hc : c ∈ line s.buf s.r.toNat (s.e - 1 - s.r).toNat := hc
      rw [line_take _ _ (show (s.e - 1 - s.r).toNat ≤ (s.e - s.r).toNat by omega)] at hc
      exact h.noEof c (List.mem_of_mem_take hc)
  · cases hs; exact ⟨h, rfl⟩

theorem fifo_enter (h : Fifo s) (hroom : (s.e - s.r).toNat < INPUT_BUF) (hs : enter s = .ok s') :
    Fifo s' ∧ unread s' = unread s ++ pending s ++ [newline] := by
  obtain ⟨p, -, hs⟩ := bind_eq_ok hs
  cases hs
  have hsucc := toNat_succ_sub (Nat.le_of_lt hroom)
  have hpush := line_push (b := s.buf) newline hroom
  have hall : line (update s.buf (ring s.e.toNat) newline) s.r.toNat (s.e + 1 - s.r).toNat =
      unread s ++ pending s ++ [newline] := by
    rw [hsucc, hpush, ← buffered_eq h.le]
    rfl
  refine ⟨⟨rfl, rfl, Nat.le_refl _, ?_, ?_, ?_⟩, hall⟩
  · show (s.e + 1 - s.r).toNat ≤ INPUT_BUF; omega
  · intro c hc
    have hc : c ∈ line (update s.buf (ring s.e.toNat) newline) s.r.toNat (s.e + 1 - s.r).toNat := hc
    rw [hall, ← buffered_eq h.le, List.mem_append, List.mem_singleton] at hc
    rcases hc with hc | rfl
    · exact h.noEof c hc
    · decide
  · intro c hc
    have hc : c ∈ (line (update s.buf (ring s.e.toNat) newline) s.r.toNat (s.e + 1 - s.r).toNat).getLast? := hc
    rw [hall, List.getLast?_concat] at hc
    exact (Option.mem_some.1 hc).symm

/-- A key: the committed bytes stay, and Enter adds the pending line. -/
theorem fifo_key (h : Fifo s) {c : UInt8} {o : Outcome} (hc : LineKey s c) (hfit : c = newline → s.e - s.r < 128)
    (ho : key s c = .ok o) :
    Fifo o.s ∧ unread o.s = if c = newline then unread s ++ pending s ++ [newline] else unread s := by
  have hsel : s.selectMode ≠ .selected := by rw [h.mode]; nofun
  rcases hc with hp | rfl | ⟨hb, -⟩
  · have hne : c ≠ newline := by rintro rfl; exact absurd hp (by decide)
    rw [key_printable hp hsel] at ho
    obtain ⟨s', hi, ho⟩ := bind_eq_ok ho
    cases ho
    rw [if_neg hne]
    exact fifo_insert h hp hi
  · rw [key_newline hsel] at ho
    obtain ⟨s', hi, ho⟩ := bind_eq_ok ho
    cases ho
    rw [if_pos rfl]
    exact fifo_enter h (UInt32.lt_iff_toNat_lt.1 (hfit rfl)) hi
  · have hne : c ≠ newline := by rcases hb with rfl | rfl <;> decide
    have hf : Fifo { s with tabPressCount := 0 } := h.of_eq rfl rfl rfl rfl rfl rfl
    rw [key_backspace hb hsel] at ho
    obtain ⟨s', hi, ho⟩ := bind_eq_ok ho
    cases ho
    rw [if_neg hne]
    have hback := fifo_backspace hf hi
    exact hback

/-! ## Reading -/

theorem unread_cons (hne : s.r ≠ s.w) : unread s = s.buf (ring s.r.toNat) :: unread { s with r := s.r + 1 } := by
  have hlen : (s.w - s.r).toNat = (s.w - (s.r + 1)).toNat + 1 := by
    have h : s.r.toNat ≠ s.w.toNat := fun e => hne (UInt32.toNat_inj.1 e)
    have hr := UInt32.toNat_lt s.r
    have hw := UInt32.toNat_lt s.w
    rw [UInt32.toNat_sub, UInt32.toNat_sub, UInt32.toNat_add, UInt32.toNat_one]
    omega
  have hmod : (s.r.toNat + 1) % INPUT_BUF = (s.r + 1).toNat % INPUT_BUF := by
    rw [UInt32.toNat_add, UInt32.toNat_one]; unfold INPUT_BUF; omega
  show Ring.window _ _ (s.w - s.r).toNat = _ :: Ring.window _ (s.r + 1).toNat (s.w - (s.r + 1)).toNat
  rw [hlen, Ring.window_cons, Ring.window_congr _ _ hmod]
  rfl

/-- A section of `consoleread` returns bytes off the front of the committed ones; it sleeps only when
there are none. -/
theorem consoleread_fifo (target : Nat) : ∀ (n : Nat) (s : Input) (out : List UInt8), (∀ c ∈ unread s, c ≠ ctrlD) →
    (∀ c ∈ (unread s).getLast?, c = newline) →
    (s.r = s.w ∧ 0 < n ∧ consoleread target n s out = (s, out, n, .sleeps)) ∨
    ∃ r got m, consoleread target n s out = ({ s with r := r }, out ++ got, m, .returns) ∧
      unread s = got ++ unread { s with r := r }
  | 0, s, out, _, _ => .inr ⟨s.r, [], 0, by simp [consoleread], rfl⟩
  | n + 1, s, out, heof, hends => by
    unfold consoleread
    by_cases hrw : s.r = s.w
    · rw [if_pos hrw]; exact .inl ⟨hrw, by omega, rfl⟩
    · rw [if_neg hrw]
      have hcons := unread_cons hrw
      have hc : s.buf (ring s.r.toNat) ≠ ctrlD := heof _ (by rw [hcons]; exact .head _)
      simp only [if_neg hc]
      refine .inr ?_
      by_cases hnl : s.buf (ring s.r.toNat) = newline
      · rw [if_pos hnl]; exact ⟨_, _, _, rfl, hcons⟩
      · rw [if_neg hnl]
        -- the line goes on: its newline is still to come
        have hne : unread { s with r := s.r + 1 } ≠ [] := by
          intro h0; rw [hcons, h0] at hends; exact hnl (hends _ rfl)
        rcases consoleread_fifo target n { s with r := s.r + 1 } (out ++ [s.buf (ring s.r.toNat)])
          (fun c h => heof c (by rw [hcons]; exact .tail _ h))
          (fun c h => hends c (by rw [hcons, List.getLast?_cons_of_ne_nil hne]; exact h)) with
          ⟨h0, -⟩ | ⟨r, got, m, e, hu⟩
        · refine absurd ?_ hne
          have h0 : s.r + 1 = s.w := h0
          show line _ _ (s.w - (s.r + 1)).toNat = []
          rw [h0, UInt32.sub_self]
          rfl
        · refine ⟨r, s.buf (ring s.r.toNat) :: got, m, ?_, ?_⟩
          · rw [e, List.append_assoc]; rfl
          · rw [hcons, hu]; rfl

theorem fifo_read {got : List UInt8} (h : Fifo s) (hu : unread s = got ++ unread { s with r := r }) :
    Fifo { s with r := r } := by
  have hlen := congrArg List.length hu
  rw [List.length_append] at hlen
  simp only [unread, length_line] at hlen
  have hsplit := toNat_sub_add (.inl h.le)
  have hroom := h.room
  have hsum : (s.w - r).toNat + (s.e - s.w).toNat = (s.e - r).toNat :=
    toNat_sub_add (.inr (by unfold INPUT_BUF at hroom; omega))
  have hle : (s.w - r).toNat ≤ (s.e - r).toNat := by omega
  refine ⟨h.mode, h.cursor, hle, ?_, ?_, ?_⟩
  · show (s.e - r).toNat ≤ INPUT_BUF; omega
  · intro c hc
    rw [buffered_eq (s := { s with r := r }) hle, List.mem_append] at hc
    refine h.noEof c ?_
    rw [buffered_eq h.le, hu, List.mem_append, List.mem_append]
    rcases hc with hc | hc
    · exact .inl (.inr hc)
    · exact .inr hc
  · intro c hc
    refine h.ends c ?_
    rw [hu, List.getLast?_append, Option.mem_def.1 hc]
    rfl

/-! ## Whole runs -/

/-- The bytes committed are those returned and those in the ring, and a sleeping reader has taken none. -/
structure Kept (x : Session ι) : Prop where
  fifo : Fifo x.input
  stream : x.committed = x.returned ++ unread x.input
  calls : ∀ i r, x.readers i = some r → r.out = []

theorem kept_init (h : sessionInit x) : Kept x := by
  obtain ⟨pos, rfl⟩ := h
  have hu : unread { pos := pos } = [] := by simp [unread, line]
  have hb : buffered { pos := pos } = [] := by simp [buffered, line]
  refine ⟨⟨rfl, rfl, Nat.le_refl _, ?_, ?_, ?_⟩, ?_, ?_⟩
  · show ((0 : UInt32) - 0).toNat ≤ INPUT_BUF; decide
  · rw [hb]
    nofun
  · rw [hu]
    nofun
  · rw [hu]; rfl
  · nofun

variable [DecidableEq ι]

theorem calls_update {readers : ι → Option ReadCall} (h : ∀ i r, readers i = some r → r.out = []) (i : ι)
    {x : Option ReadCall} (hx : ∀ r, x = some r → r.out = []) :
    ∀ j r, update readers i x j = some r → r.out = [] := by
  intro j r hj
  by_cases hji : j = i
  · subst hji; rw [update_self] at hj; exact hx r hj
  · rw [update_of_ne hji] at hj; exact h j r hj

theorem Kept.ends (h : Kept x) (i : ι) (target n : Nat) : Kept (x.ends i target (consoleread target n x.input [])) := by
  have heof : ∀ c ∈ unread x.input, c ≠ ctrlD := fun c hc => h.fifo.noEof c (by
    rw [buffered_eq h.fifo.le]; exact List.mem_append_left _ hc)
  rcases consoleread_fifo target n x.input [] heof h.fifo.ends with ⟨-, -, e⟩ | ⟨r, got, m, e, hu⟩
  · rw [e]
    refine ⟨h.fifo, h.stream, calls_update h.calls i ?_⟩
    rintro _ ⟨⟩
    rfl
  · rw [e]
    refine ⟨fifo_read h.fifo hu, ?_, calls_update h.calls i nofun⟩
    show x.committed = x.returned ++ ([] ++ got) ++ unread { x.input with r := r }
    rw [h.stream, hu, List.nil_append, List.append_assoc]

theorem kept_step {x' : Session ι} {a : SessionAct ι} (h : Kept x) (hok : EnterFits x a)
    (hs : sessionStep x a = some x') : Kept x' := by
  cases a with
  | key c =>
    simp only [sessionStep] at hs
    split at hs
    · rename_i hc
      split at hs
      · rename_i o ho
        cases hs
        obtain ⟨hf, hu⟩ := fifo_key h.fifo hc (fun e => hok (by rw [e])) ho
        refine ⟨hf, ?_, h.calls⟩
        simp only [hu]
        split
        · rw [h.stream]; simp only [List.append_assoc]
        · exact h.stream
      · cases hs
    · cases hs
  | read i n =>
    simp only [sessionStep] at hs
    split at hs
    · cases hs; exact h.ends i n n
    · cases hs
  | resume i =>
    obtain ⟨r, hr, rfl⟩ := Option.map_eq_some_iff.1 hs
    rw [h.calls i r hr]
    exact h.ends i r.target r.n
  | killed i =>
    simp only [sessionStep] at hs
    split at hs
    · split at hs
      · cases hs; exact ⟨h.fifo, h.stream, calls_update h.calls i nofun⟩
      · cases hs
    · cases hs

/-- In every run in which Enter is pressed only while the ring has room for the newline, whoever reads
when and how much: the ring is never overfull, and what was returned is a prefix of what was
committed. -/
theorem committed_input_kept (x : Session ι) (hr : Reach sessionInit sessionStep EnterFits x) :
    (x.input.e - x.input.r).toNat ≤ INPUT_BUF ∧ x.returned <+: x.committed := by
  have h : Kept x := hr.inv (fun _ => kept_init) fun _ _ _ h hok hs => kept_step h hok hs
  exact ⟨h.fifo.room, by rw [h.stream]; exact List.prefix_append ..⟩

/-- A reader goes to sleep, a line is entered, and the reader gets it. -/
theorem committed_input_kept_line : ∃ x : Session (Fin 1), Reach sessionInit sessionStep EnterFits x ∧
    x.returned = [97, newline] ∧ x.returned <+: x.committed := by
  have hrun : (runActs (guarded sessionStep EnterFits) ({ input := {} } : Session (Fin 1))
      [.read 0 10, .key 97, .key 98, .key ctrlH, .key newline, .resume 0]).any
      (fun x => decide (x.returned = [97, newline])) = true := by decide +kernel
  obtain ⟨x, hr, hx⟩ := exists_reach_of_guarded_run sessionInit EnterFits ⟨0, rfl⟩ _ _ hrun
  exact ⟨x, hr, of_decide_eq_true hx, (committed_input_kept x hr).2⟩

/-- A line of one character and more empty lines than the ring has room for: the last newlines go over
the line, the reader gets an empty line first, and the ring is overfull. -/
theorem enter_overwrites : ∃ x : Session (Fin 1), Reachable sessionInit sessionStep x ∧
    INPUT_BUF < (x.input.e - x.input.r).toNat ∧ ¬ x.returned <+: x.committed := by
  have hrun : (runActs sessionStep ({ input := {} } : Session (Fin 1))
      (.key 97 :: List.replicate 129 (.key newline) ++ [.read 0 1])).any
      (fun x => decide (INPUT_BUF < (x.input.e - x.input.r).toNat ∧ ¬ x.returned <+: x.committed)) = true := by
    decide +kernel
  obtain ⟨x, hr, hx⟩ := exists_reachable_of_run sessionInit ⟨0, rfl⟩ _ _ hrun
  exact ⟨x, hr, of_decide_eq_true hx⟩

end Xv6.Console
