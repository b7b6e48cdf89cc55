/-
grep. A pattern is a list of items, single characters and stars, with `^` in front and `$` at the end; `match` tries the
pattern at every place of a line by backtracking, and accepts exactly the lines of which some part is in the language of
the items. The lines come out of a buffer that `read` fills as it can. The part of a line behind the last newline is
kept for the next round; but a round in which no newline has come in is taken for a line too long for the buffer, and
all that it holds is dropped.
-/
import Mathlib.Computability.Language
import Xv6.Console.Input

namespace Xv6.User

open Console (newline)

/-! ## The matcher -/

/-! The characters with a meaning in a pattern: `$`, `*`, `.` and `^`. -/

def dollar : UInt8 := 36
def star : UInt8 := 42
def dot : UInt8 := 46
def caret : UInt8 := 94

/-- A character of the pattern allows one of the text. -/
def fits (c d : UInt8) : Bool := d = c ∨ c = dot

/-! A string ends with its list: a NUL is in none of them. -/

mutual

def matchhere : List UInt8 → List UInt8 → Bool
  | [], _ => true
  | c :: re, text =>
    if re.head? = some star then matchstar c re.tail text
    else if c = dollar ∧ re = [] then text.isEmpty
    else text.head?.any (fits c) && matchhere re text.tail
  termination_by re => (re.length, 0, 0)

def matchstar (c : UInt8) (re : List UInt8) : List UInt8 → Bool
  | [] => matchhere re []
  | t :: text => matchhere re (t :: text) || fits c t && matchstar c re text
  termination_by text => (re.length, 1, text.length)

end

/-- The loop of `match`. -/
def matchAnywhere (re : List UInt8) : List UInt8 → Bool
  | [] => matchhere re []
  | t :: text => matchhere re (t :: text) || matchAnywhere re text

def «match» (re text : List UInt8) : Bool :=
  if re.head? = some caret then matchhere re.tail text else matchAnywhere re text

/-! ## What a pattern means -/

inductive Item
  | one (c : UInt8)
  | many (c : UInt8)
  deriving DecidableEq, Repr

/-- A pattern read from the left: its items, and whether a `$` remains at the end. -/
def items : List UInt8 → List Item × Bool
  | [] => ([], false)
  | c :: re =>
    if re.head? = some star then (.many c :: (items re.tail).1, (items re.tail).2)
    else if c = dollar ∧ re = [] then ([], true)
    else (.one c :: (items re).1, (items re).2)
  termination_by re => re.length

/-- The characters that `c` allows, as words. -/
def single (c : UInt8) : Language UInt8 := {w | ∃ d, fits c d ∧ w = [d]}

def Item.lang : Item → Language UInt8
  | .one c => single c
  | .many c => KStar.kstar (single c)

/-- The language of a pattern: one item after the other. -/
def lang (is : List Item) : Language UInt8 := (is.map Item.lang).prod

/-- A pattern is found at the front of a text. -/
def Front (re text : List UInt8) : Prop :=
  ∃ w rest, text = w ++ rest ∧ w ∈ lang (items re).1 ∧ ((items re).2 → rest = [])

/-- A pattern is found in a text: at the front if it starts with `^`, else anywhere. -/
def Found (re text : List UInt8) : Prop :=
  if re.head? = some caret then Front re.tail text else ∃ before rest, text = before ++ rest ∧ Front re rest

variable {c : UInt8} {w : List UInt8}

theorem mem_kstar_single : w ∈ KStar.kstar (single c) ↔ ∀ d ∈ w, fits c d := by
  rw [Language.mem_kstar]
  constructor
  · rintro ⟨L, rfl, hL⟩ d hd
    obtain ⟨v, hv, hd⟩ := List.mem_flatten.1 hd
    obtain ⟨e, he, rfl⟩ := hL v hv
    rwa [List.mem_singleton.1 hd]
  · intro h
    refine ⟨w.map ([·]), (List.flatMap_singleton' w).symm, ?_⟩
    intro v hv
    obtain ⟨d, hd, rfl⟩ := List.mem_map.1 hv
    exact ⟨d, h d hd, rfl⟩

variable {is : List Item}

theorem mem_lang_one : w ∈ lang (.one c :: is) ↔ ∃ d v, w = d :: v ∧ fits c d ∧ v ∈ lang is := by
  rw [lang, List.map_cons, List.prod_cons, Language.mem_mul]
  constructor
  · rintro ⟨_, ⟨d, hd, rfl⟩, v, hv, rfl⟩; exact ⟨d, v, rfl, hd, hv⟩
  · rintro ⟨d, v, rfl, hd, hv⟩; exact ⟨[d], ⟨d, hd, rfl⟩, v, hv, rfl⟩

theorem mem_lang_many :
    w ∈ lang (.many c :: is) ↔ ∃ u v, w = u ++ v ∧ (∀ d ∈ u, fits c d) ∧ v ∈ lang is := by
  rw [lang, List.map_cons, List.prod_cons, Language.mem_mul]
  constructor
  · rintro ⟨u, hu, v, hv, rfl⟩; exact ⟨u, v, rfl, mem_kstar_single.1 hu, hv⟩
  · rintro ⟨u, v, rfl, hu, hv⟩; exact ⟨u, mem_kstar_single.2 hu, v, hv, rfl⟩

/-! What a pattern finds at the front of a text, by its first item. -/

theorem front_nil (text : List UInt8) :
    Front [] text := ⟨[], text, rfl, by rw [items]; exact Language.nil_mem_one, by rw [items]; nofun⟩

section

variable {re text : List UInt8}

theorem front_many (h : re.head? = some star) :
    Front (c :: re) text ↔ ∃ u text', text = u ++ text' ∧ (∀ d ∈ u, fits c d) ∧ Front re.tail text' := by
  unfold Front
  rw [items, if_pos h]
  constructor
  · rintro ⟨w, rest, rfl, hw, hrest⟩
    obtain ⟨u, v, rfl, hu, hv⟩ := mem_lang_many.1 hw
    exact ⟨u, v ++ rest, List.append_assoc .., hu, v, rest, rfl, hv, hrest⟩
  · rintro ⟨u, _, rfl, hu, v, rest, rfl, hv, hrest⟩
    exact ⟨u ++ v, rest, (List.append_assoc ..).symm, mem_lang_many.2 ⟨u, v, rfl, hu, hv⟩, hrest⟩

theorem front_dollar (h : ¬ re.head? = some star) (hc : c = dollar ∧ re = []) : Front (c :: re) text ↔ text = [] := by
  unfold Front
  rw [items, if_neg h, if_pos hc]
  constructor
  · rintro ⟨w, rest, rfl, hw, hrest⟩; rw [hrest rfl, List.append_nil]; exact hw
  · rintro rfl; exact ⟨[], [], rfl, Language.nil_mem_one, fun _ => rfl⟩

theorem front_one (h : ¬ re.head? = some star) (hc : ¬ (c = dollar ∧ re = [])) :
    Front (c :: re) text ↔ ∃ d text', text = d :: text' ∧ fits c d ∧ Front re text' := by
  unfold Front
  rw [items, if_neg h, if_neg hc]
  constructor
  · rintro ⟨w, rest, rfl, hw, hrest⟩
    obtain ⟨d, v, rfl, hd, hv⟩ := mem_lang_one.1 hw
    exact ⟨d, v ++ rest, rfl, hd, v, rest, rfl, hv, hrest⟩
  · rintro ⟨d, _, rfl, hd, v, rest, rfl, hv, hrest⟩
    exact ⟨d :: v, rest, rfl, mem_lang_one.2 ⟨d, v, rfl, hd, hv⟩, hrest⟩

end

/-! ## The matcher finds what the pattern means -/

theorem matchstar_iff (c : UInt8) (re : List UInt8) : ∀ text, matchstar c re text ↔
    ∃ u text', text = u ++ text' ∧ (∀ d ∈ u, fits c d) ∧ matchhere re text'
  | [] => by
    rw [matchstar]
    constructor
    · intro h; exact ⟨[], [], rfl, nofun, h⟩
    · rintro ⟨u, text', h, -, hm⟩
      obtain ⟨-, rfl⟩ := List.nil_eq_append_iff.1 h
      exact hm
  | t :: text => by
    rw [matchstar, Bool.or_eq_true, Bool.and_eq_true, matchstar_iff c re text]
    constructor
    · rintro (h | ⟨ht, u, text', rfl, hu, hm⟩)
      · exact ⟨[], _, rfl, nofun, h⟩
      · exact ⟨t :: u, text', rfl, List.forall_mem_cons.2 ⟨ht, hu⟩, hm⟩
    · rintro ⟨_ | ⟨d, u⟩, text', h, hu, hm⟩
      · rw [List.nil_append] at h; rw [h]; exact .inl hm
      · cases h
        obtain ⟨ht, hu⟩ := List.forall_mem_cons.1 hu
        exact .inr ⟨ht, u, text', rfl, hu, hm⟩

/-- The induction is on the pattern; the inner one, on the text, is in `matchstar_iff`. -/
theorem matchhere_iff : ∀ re text, matchhere re text ↔ Front re text
  | [], text => by
    rw [matchhere]; exact iff_of_true rfl (front_nil text)
  | c :: re, text => by
    by_cases hstar : re.head? = some star
    · rw [matchhere, if_pos hstar, matchstar_iff, front_many hstar]
      simp only [matchhere_iff re.tail]
    · by_cases hend : c = dollar ∧ re = []
      · rw [matchhere, if_neg hstar, if_pos hend, front_dollar hstar hend, List.isEmpty_iff]
      · rw [matchhere, if_neg hstar, if_neg hend, front_one hstar hend]
        cases text with
        | nil => simp
        | cons d text => simp [matchhere_iff re text]
  termination_by re => re.length

theorem matchAnywhere_iff (re : List UInt8) :
    ∀ text, matchAnywhere re text ↔ ∃ before rest, text = before ++ rest ∧ Front re rest
  | [] => by
    rw [matchAnywhere, matchhere_iff]
    constructor
    · intro h; exact ⟨[], [], rfl, h⟩
    · rintro ⟨before, rest, h, hf⟩
      obtain ⟨-, rfl⟩ := List.nil_eq_append_iff.1 h
      exact hf
  | t :: text => by
    rw [matchAnywhere, Bool.or_eq_true, matchhere_iff, matchAnywhere_iff re text]
    constructor
    · rintro (h | ⟨before, rest, rfl, hf⟩)
      · exact ⟨[], _, rfl, h⟩
      · exact ⟨t :: before, rest, rfl, hf⟩
    · rintro ⟨_ | ⟨d, before⟩, rest, h, hf⟩
      · rw [List.nil_append] at h; rw [h]; exact .inl hf
      · cases h; exact .inr ⟨before, rest, rfl, hf⟩

/-- `match` accepts a text exactly when the pattern is found in it. -/
theorem match_iff_found (re text : List UInt8) : «match» re text = true ↔ Found re text := by
  unfold «match» Found
  split
  · exact matchhere_iff _ _
  · exact matchAnywhere_iff _ _

/-! ## The buffer -/

/-- `sizeof(buf)`. -/
def BUF : Nat := 1024

/-- The loop over the lines in the buffer, `line` being what stands between `p` and the byte `strchr` looks at: what is
written, and what is left from `p` on. A NUL is where `strchr` stops. -/
def eatLines (pattern : List UInt8) : List UInt8 → List UInt8 → List UInt8 × List UInt8
  | line, [] => ([], line)
  | line, c :: rest =>
    if c = 0 then ([], line ++ c :: rest)
    else if c = newline then
      ((if «match» pattern line then line ++ [newline] else []) ++ (eatLines pattern [] rest).1,
        (eatLines pattern [] rest).2)
    else eatLines pattern (line ++ [c]) rest

/-- What a round keeps, which does not depend on the pattern: nothing if `p` has not moved. -/
def kept (m chunk : List UInt8) : List UInt8 :=
  if (eatLines [] [] (m ++ chunk)).2.length = (m ++ chunk).length then [] else (eatLines [] [] (m ++ chunk)).2

/-- The loop of `grep`, with `m` in the buffer and the chunks that `read` will return: what it writes. -/
def grep (pattern : List UInt8) : List UInt8 → List (List UInt8) → List UInt8
  | _, [] => []
  | m, chunk :: chunks => (eatLines pattern [] (m ++ chunk)).1 ++ grep pattern (kept m chunk) chunks

/-- The chunks are some `read` can return: not empty, and no larger than the room behind `m`. -/
def Reads : List UInt8 → List (List UInt8) → Prop
  | _, [] => True
  | m, chunk :: chunks => chunk ≠ [] ∧ m.length + chunk.length < BUF ∧ Reads (kept m chunk) chunks

/-- The text of some lines. -/
def unlines (ls : List (List UInt8)) : List UInt8 := ls.flatMap (· ++ [newline])

/-- A line as it stands in the input, without its newline. -/
def IsLine (l : List UInt8) : Prop := newline ∉ l ∧ 0 ∉ l ∧ l.length < 1000

section

variable {pattern line m a b : List UInt8}

theorem eatLines_append (pattern : List UInt8) : ∀ (a : List UInt8) {line b : List UInt8}, 0 ∉ a →
    eatLines pattern line (a ++ b) = ((eatLines pattern line a).1 ++ (eatLines pattern (eatLines pattern line a).2 b).1,
      (eatLines pattern (eatLines pattern line a).2 b).2)
  | [], line, b, _ => rfl
  | c :: a, line, b, h => by
    obtain ⟨hc, ha⟩ := List.ne_and_not_mem_of_not_mem_cons h
    rw [List.cons_append, eatLines, eatLines, if_neg (Ne.symm hc), if_neg (Ne.symm hc)]
    split
    · rw [eatLines_append pattern a ha, List.append_assoc]
    · exact eatLines_append pattern a ha

theorem eatLines_part (pattern : List UInt8) : ∀ (a : List UInt8) {line : List UInt8}, 0 ∉ a → newline ∉ a →
    eatLines pattern line a = ([], line ++ a)
  | [], line, _, _ => by rw [eatLines, List.append_nil]
  | c :: a, line, h0, hn => by
    obtain ⟨hc, ha⟩ := List.ne_and_not_mem_of_not_mem_cons h0
    obtain ⟨hc', ha'⟩ := List.ne_and_not_mem_of_not_mem_cons hn
    rw [eatLines, if_neg (Ne.symm hc), if_neg (Ne.symm hc'), eatLines_part pattern a ha ha', List.append_assoc,
      List.singleton_append]

theorem eatLines_unlines (pattern : List UInt8) : ∀ {ls : List (List UInt8)}, (∀ l ∈ ls, IsLine l) →
    eatLines pattern [] (unlines ls) = (unlines (ls.filter («match» pattern)), [])
  | [], _ => rfl
  | l :: ls, h => by
    obtain ⟨⟨hn, h0, -⟩, hls⟩ := List.forall_mem_cons.1 h
    have ih := eatLines_unlines pattern hls
    rw [unlines, List.flatMap_cons, List.append_assoc, eatLines_append pattern l h0, eatLines_part pattern l h0 hn]
    show ([] ++ (eatLines pattern l (newline :: unlines ls)).1, (eatLines pattern l (newline :: unlines ls)).2) = _
    rw [eatLines, if_neg (by decide), if_pos rfl, ih, List.filter_cons]
    split
    · rfl
    · rfl

theorem eatLines_left (pattern : List UInt8) :
    ∀ (a : List UInt8) {line : List UInt8}, 0 ∉ a → 0 ∉ line → newline ∉ line →
    (eatLines pattern line a).2 = (eatLines [] line a).2 ∧ 0 ∉ (eatLines [] line a).2 ∧
      newline ∉ (eatLines [] line a).2 ∧ (eatLines [] line a).2.length ≤ line.length + a.length ∧
      (newline ∈ a → (eatLines [] line a).2.length < line.length + a.length)
  | [], line, _, h0, hn => ⟨rfl, h0, hn, le_rfl, nofun⟩
  | c :: a, line, h, h0, hn => by
    obtain ⟨hc, ha⟩ := List.ne_and_not_mem_of_not_mem_cons h
    rw [eatLines, eatLines, if_neg (Ne.symm hc), if_neg (Ne.symm hc), List.length_cons]
    by_cases hnl : c = newline
    · rw [if_pos hnl, if_pos hnl]
      obtain ⟨h1, h2, h3, h4, -⟩ := eatLines_left pattern a ha List.not_mem_nil List.not_mem_nil
      rw [List.length_nil] at h4
      exact ⟨h1, h2, h3, by simp only; omega, fun _ => by simp only; omega⟩
    · rw [if_neg hnl, if_neg hnl]
      have hline : ∀ z ∉ line, z ≠ c → z ∉ line ++ [c] := fun z h1 h2 => by simp [h1, h2]
      obtain ⟨h1, h2, h3, h4, h5⟩ := eatLines_left pattern a ha (hline 0 h0 hc) (hline newline hn (Ne.symm hnl))
      rw [List.length_append, List.length_singleton] at h4 h5
      refine ⟨h1, h2, h3, by omega, fun hin => ?_⟩
      have := h5 ((List.mem_cons.1 hin).resolve_left (Ne.symm hnl))
      omega

section

variable (ha : 0 ∉ a) (hm : 0 ∉ m) (hn : newline ∉ m)
include ha hm hn

omit ha in
theorem eatLines_buffer (pattern : List UInt8) : eatLines pattern [] (m ++ a) = eatLines pattern m a := by
  rw [eatLines_append pattern m hm, eatLines_part pattern m hm hn]; rfl

theorem kept_of_mem (h : newline ∈ a) : kept m a = (eatLines [] m a).2 := by
  obtain ⟨-, -, -, -, hlt⟩ := eatLines_left [] a ha hm hn
  rw [kept, eatLines_buffer hm hn, List.length_append, if_neg (ne_of_lt (hlt h))]

theorem kept_of_not_mem (h : newline ∉ a) : kept m a = [] := by
  rw [kept, eatLines_buffer hm hn, eatLines_part [] a ha h, if_pos rfl]

end

/-- With a newline in every chunk, the chunks are read as the text they are cut from. -/
theorem grep_eq_eatLines (pattern : List UInt8) : ∀ (chunks : List (List UInt8)) {m : List UInt8}, 0 ∉ m → newline ∉ m →
    (∀ c ∈ chunks, 0 ∉ c) → (∀ c ∈ chunks, newline ∈ c) → grep pattern m chunks = (eatLines pattern m chunks.flatten).1
  | [], m, _, _, _, _ => rfl
  | c :: chunks, m, hm, hn, h0, h => by
    obtain ⟨hc, h0⟩ := List.forall_mem_cons.1 h0
    obtain ⟨hcn, h⟩ := List.forall_mem_cons.1 h
    obtain ⟨hsame, h1, h2, -, -⟩ := eatLines_left pattern c hc hm hn
    rw [grep, kept_of_mem hc hm hn hcn, grep_eq_eatLines pattern chunks h1 h2 h0 h, eatLines_buffer hm hn,
      List.flatten_cons, eatLines_append pattern c hc, hsame]

theorem match_nil (text : List UInt8) :
    «match» [] text = true := (match_iff_found [] text).2 ⟨[], text, rfl, front_nil text⟩

theorem length_eatLines_nil : ∀ a line : List UInt8,
    (eatLines [] line a).1.length + (eatLines [] line a).2.length = line.length + a.length
  | [], line => zero_add _
  | c :: a, line => by
    rw [eatLines]
    split
    · rw [List.length_append, List.length_nil, zero_add]
    · split
      · have ih := length_eatLines_nil a []
        rw [List.length_nil] at ih
        simp only [match_nil, if_true, List.length_append, List.length_cons, List.length_nil]
        omega
      · rw [length_eatLines_nil a _, List.length_append, List.length_cons, List.length_cons, List.length_nil]
        omega

/-- A chunk without a newline is lost, with what was kept before it. -/
theorem length_grep_nil : ∀ (chunks : List (List UInt8)) {m : List UInt8}, 0 ∉ m → newline ∉ m → Reads m chunks →
    (∀ c ∈ chunks, 0 ∉ c) → (grep [] m chunks).length ≤ m.length + chunks.flatten.length ∧
      ((∃ c ∈ chunks, newline ∉ c) → (grep [] m chunks).length < m.length + chunks.flatten.length)
  | [], m, _, _, _, _ => ⟨Nat.zero_le _, by simp⟩
  | c :: chunks, m, hm, hn, hr, h0 => by
    obtain ⟨hne, -, hr⟩ := hr
    obtain ⟨hc, h0⟩ := List.forall_mem_cons.1 h0
    have hpos := List.length_pos_iff.2 hne
    have hlen := length_eatLines_nil c m
    rw [grep, eatLines_buffer hm hn, List.length_append, List.flatten_cons, List.length_append]
    by_cases hcn : newline ∈ c
    · rw [kept_of_mem hc hm hn hcn] at hr ⊢
      obtain ⟨-, h1, h2, -, -⟩ := eatLines_left [] c hc hm hn
      obtain ⟨ih, ih'⟩ := length_grep_nil chunks h1 h2 hr h0
      refine ⟨by omega, ?_⟩
      rintro ⟨d, hd, hdn⟩
      rcases List.mem_cons.1 hd with rfl | hd
      · exact absurd hcn hdn
      · have := ih' ⟨d, hd, hdn⟩; omega
    · rw [kept_of_not_mem hc hm hn hcn] at hr ⊢
      obtain ⟨ih, -⟩ := length_grep_nil chunks List.not_mem_nil List.not_mem_nil hr h0
      rw [List.length_nil] at ih
      rw [eatLines_part [] c hc hcn] at hlen ⊢
      exact ⟨by simp only [List.length_nil]; omega, fun _ => by simp only [List.length_nil]; omega⟩

end

/-- However the input is cut into chunks: the lines that match are written, for every pattern, exactly when each chunk
that is read has a newline in it. -/
theorem grep_lines_iff (ls chunks : List (List UInt8)) (hls : ∀ l ∈ ls, IsLine l) (hcut : chunks.flatten = unlines ls)
    (hreads : Reads [] chunks) :
    (∀ pattern, grep pattern [] chunks = unlines (ls.filter («match» pattern))) ↔ ∀ c ∈ chunks, newline ∈ c := by
  have h0 : ∀ c ∈ chunks, 0 ∉ c := by
    intro c hc hz
    obtain ⟨l, hl, hz⟩ := List.mem_flatMap.1 (hcut ▸ List.mem_flatten.2 ⟨c, hc, hz⟩ : (0 : UInt8) ∈ unlines ls)
    rcases List.mem_append.1 hz with hz | hz
    · exact (hls l hl).2.1 hz
    · exact absurd hz (by decide)
  constructor
  · intro h
    by_contra hno
    push Not at hno
    obtain ⟨-, hlt⟩ := length_grep_nil chunks List.not_mem_nil List.not_mem_nil hreads h0
    have hall : ls.filter («match» []) = ls := List.filter_eq_self.2 fun l _ => match_nil l
    have := hlt hno
    rw [h [], hall, hcut, List.length_nil, zero_add] at this
    exact lt_irrefl _ this
  · intro h pattern
    rw [grep_eq_eatLines pattern chunks List.not_mem_nil List.not_mem_nil h0 h, hcut, eatLines_unlines pattern hls]

/-- `ab` and `c`, cut behind the `c`, for the pattern `b`. -/
theorem grep_lines_twoChunks :
    grep [98] [] [[97, 98, 10, 99], [10]] = unlines ([[97, 98], [99]].filter («match» [98])) :=
  (grep_lines_iff [[97, 98], [99]] [[97, 98, 10, 99], [10]] (by simp [IsLine, newline]) rfl
    ⟨by decide, by decide, by decide, by decide, trivial⟩).2 (by decide) [98]

/-- The line `ab` comes in two chunks, as a pipe may give it: what is written, for the pattern that all lines match, is
the line `b`. -/
theorem grep_drops_chunk : [[97], [98, 10]].flatten = unlines [[97, 98]] ∧ Reads [] [[97], [98, 10]] ∧
    «match» [] [97, 98] = true ∧ grep [] [] [[97], [98, 10]] = [98, 10] := by
  refine ⟨rfl, ⟨by decide, by decide, by decide, by decide, trivial⟩, match_nil _, ?_⟩
  simp [grep, kept, eatLines, newline, match_nil]

end Xv6.User
