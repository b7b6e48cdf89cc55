/-
The NULs that `nulterminate` puts into the command line. Whatever tree the parser makes, each word in it is a
run of word characters up to a character that is none. The byte behind one word, where the NUL goes, is
therefore in no other word, and after all of them are written each word is the string its pointer goes to.
-/
import Mathlib.Data.List.TakeWhile
import Mathlib.Order.Interval.Set.Defs
import Xv6.Shell.Parse

namespace Xv6.Shell

open Fs (O_WRONLY O_CREATE)

/-! ## Words -/

/-- The bytes of a counted string. -/
def Str.text (w : Str) : List UInt8 := w.q.take (w.q.length - w.eq.length)

/-- A word: word characters up to a character that is none. -/
structure Str.IsWord (w : Str) : Prop where
  split : w.q = w.text ++ w.eq
  chars : ∀ c ∈ w.text, isWord c = true
  stop : ∀ c ∈ w.eq.head?, isWord c = false

/-- A word of the string behind `s`. -/
structure WordIn (s : Ptr) (w : Str) : Prop where
  suffix : w.q <:+ s
  word : w.IsWord

variable {s s' : Ptr} {w w' : Str} {k : Nat}

theorem text_append (t e : List UInt8) : Str.text ⟨t ++ e, e⟩ = t := by
  simp [Str.text]

theorem text_dropWhile (s : Ptr) : Str.text ⟨s, s.dropWhile isWord⟩ = s.takeWhile isWord := by
  have h := text_append (s.takeWhile isWord) (s.dropWhile isWord)
  rwa [List.takeWhile_append_dropWhile] at h

theorem isWord_dropWhile (s : Ptr) : Str.IsWord ⟨s, s.dropWhile isWord⟩ := by
  refine ⟨by rw [text_dropWhile, List.takeWhile_append_dropWhile], ?_, ?_⟩
  · intro c hc; rw [text_dropWhile] at hc; exact List.mem_takeWhile_imp hc
  · intro c hc
    have hn := List.head?_dropWhile_not isWord s
    rw [Option.mem_def] at hc
    rw [hc] at hn
    simpa using hn

theorem WordIn.mono (h : s' <:+ s) (hw : WordIn s' w) : WordIn s w := ⟨hw.suffix.trans h, hw.word⟩

theorem WordIn.end_suffix (hw : WordIn s w) : w.eq <:+ s :=
  (hw.word.split ▸ List.suffix_append w.text w.eq).trans hw.suffix

theorem WordIn.length_q (hw : WordIn s w) : w.q.length = w.text.length + w.eq.length := by
  conv_lhs => rw [hw.word.split, List.length_append]

theorem WordIn.outside (hw : WordIn s w) (hw' : WordIn s w') :
    w'.eq.length ≤ w.eq.length ∨ w.q.length < w'.eq.length := by
  by_contra hin
  have hlt : w.eq.length < w'.eq.length := by omega
  have hle : w'.eq.length ≤ w.q.length := by omega
  obtain ⟨u, hu⟩ := List.suffix_of_suffix_length_le hw.end_suffix hw'.end_suffix hlt.le
  obtain ⟨v, hv⟩ := List.suffix_of_suffix_length_le hw'.end_suffix hw.suffix hle
  -- what stands between the two ends is part of the text of `w`
  have ht : w.text = v ++ u := by
    have h := hv.trans hw.word.split
    rw [← hu, ← List.append_assoc] at h
    exact (List.append_cancel_right h).symm
  cases u with
  | nil => rw [← hu] at hlt; exact lt_irrefl _ hlt
  | cons c u =>
    have h1 := hw.word.chars c (by rw [ht]; simp)
    have h2 := hw'.word.stop c (by rw [← hu]; rfl)
    rw [h1] at h2
    cases h2

/-! ## The words of a tree -/

theorem skip_suffix (s : Ptr) : skip s <:+ s := List.dropWhile_suffix _

theorem scan_suffix (q : Ptr) : (scan q).2 <:+ q := by
  unfold scan
  split
  · exact List.suffix_rfl
  · split
    · split
      · exact (List.tail_suffix _).trans (List.suffix_cons _ _)
      · exact List.suffix_cons _ _
    · exact List.suffix_cons _ _
    · exact List.dropWhile_suffix _

theorem gettoken_suffix (s : Ptr) : (gettoken s).ps <:+ s :=
  (skip_suffix _).trans ((scan_suffix _).trans (skip_suffix s))

theorem peek_suffix (s : Ptr) (toks : List UInt8) : (peek s toks).1 <:+ s := skip_suffix s

theorem scan_word {q : Ptr} (h : (scan q).1 = .word) : (scan q).2 = q.dropWhile isWord := by
  unfold scan at h ⊢
  split at h
  · cases h
  · split at h
    · split at h <;> cases h
    · cases h
    · simp only [*]

theorem wordIn_gettoken (h : (gettoken s).tok = .word) : WordIn s (gettoken s).str := by
  refine ⟨skip_suffix s, ?_⟩
  have he : (gettoken s).str = ⟨skip s, (skip s).dropWhile isWord⟩ := congrArg (Str.mk (skip s)) (scan_word h)
  rw [he]
  exact isWord_dropWhile (skip s)

theorem bind_done {α β : Type} {x : Res α} {f : α → Res β} {b : β} (h : (x >>= f) = .done b) :
    ∃ a, x = .done a ∧ f a = .done b := by
  cases x with
  | done a => exact ⟨a, rfl, h⟩
  | panic msg => cases h
  | stuck => cases h

theorem file_of_mem_redircmd {tok : Tok} {x : Redir Str} (h : x ∈ redircmd tok w) : x.file = w := by
  unfold redircmd at h
  split at h
  all_goals first
    | exact absurd h List.not_mem_nil
    | rw [List.mem_singleton.1 h]

theorem parseredirs_words : ∀ (f : Nat) {s : Ptr} {r : List (Redir Str) × Ptr}, parseredirs f s = .done r →
    r.2 <:+ s ∧ ∀ x ∈ r.1, WordIn s x.file
  | 0, _, _, h => by cases h
  | f + 1, s, r, h => by
    rw [parseredirs] at h
    dsimp only at h
    split at h
    · split at h
      · cases h
      · rename_i hw
        obtain ⟨r', hr, h⟩ := bind_done h
        cases h
        obtain ⟨hs, hx⟩ := parseredirs_words f hr
        have hop := (gettoken_suffix (peek s [60, 62]).1).trans (peek_suffix s _)
        have hrest := (gettoken_suffix _).trans hop
        refine ⟨hs.trans hrest, fun x hm => ?_⟩
        rcases List.mem_append.1 hm with hm | hm
        · rw [file_of_mem_redircmd hm]; exact (wordIn_gettoken (not_not.1 hw)).mono hop
        · exact (hx x hm).mono hrest
    · cases h; exact ⟨peek_suffix s [60, 62], fun x hx => absurd hx List.not_mem_nil⟩

/-- The words `parseargs` adds leave a slot of `argv` for the null behind them. -/
theorem parseargs_words : ∀ (f argc : Nat) {s : Ptr} {r : List (Str × List (Redir Str)) × Ptr}, argc < MAXARGS →
    parseargs f argc s = .done r →
    r.2 <:+ s ∧ (∀ a ∈ r.1, WordIn s a.1 ∧ ∀ x ∈ a.2, WordIn s x.file) ∧ argc + r.1.length < MAXARGS
  | 0, _, _, _, _, h => by cases h
  | f + 1, argc, s, r, hn, h => by
    have hp := peek_suffix s [124, 41, 38, 59]
    have hg := (gettoken_suffix (peek s [124, 41, 38, 59]).1).trans hp
    rw [parseargs] at h
    dsimp only at h
    split at h
    · cases h; exact ⟨hp, fun a ha => absurd ha List.not_mem_nil, hn⟩
    split at h
    · cases h; exact ⟨hg, fun a ha => absurd ha List.not_mem_nil, hn⟩
    split at h
    · cases h
    rename_i hw
    split at h
    · cases h
    rename_i hlt
    obtain ⟨rs, hrs, h⟩ := bind_done h
    obtain ⟨more, hm, h⟩ := bind_done h
    cases h
    obtain ⟨hs1, hw1⟩ := parseredirs_words f hrs
    obtain ⟨hs2, hw2, hlen⟩ := parseargs_words f (argc + 1) (by omega) hm
    have hrest := hs1.trans hg
    refine ⟨hs2.trans hrest, fun a ha => ?_, by simp only [List.length_cons]; omega⟩
    rcases List.mem_cons.1 ha with rfl | ha
    · exact ⟨(wordIn_gettoken (not_not.1 hw)).mono hp, fun x hx => (hw1 x hx).mono hg⟩
    · exact ⟨(hw2 a ha).1.mono hrest, fun x hx => ((hw2 a ha).2 x hx).mono hrest⟩

/-- The `argv` of each `execcmd` of a command. -/
def Cmd.argvs {W : Type} : Cmd W → List (List W)
  | .exec argv => [argv]
  | .redir c _ => c.argvs
  | .pipe l r => l.argvs ++ r.argvs
  | .list l r => l.argvs ++ r.argvs
  | .back c => c.argvs

section

variable {W : Type}

theorem words_redirs (c : Cmd W) (rs : List (Redir W)) : (c.redirs rs).words = c.words ++ rs.map (·.file) := by
  induction rs generalizing c with
  | nil => simp [Cmd.redirs]
  | cons r rs ih =>
    show ((Cmd.redir c r).redirs rs).words = _
    rw [ih, Cmd.words, List.append_assoc]
    rfl

theorem argvs_redirs (c : Cmd W) (rs : List (Redir W)) : (c.redirs rs).argvs = c.argvs := by
  induction rs generalizing c with
  | nil => rfl
  | cons r rs ih => exact ih (.redir c r)

end

/-- What a parser returns from `s`: a place behind it, and a tree with words from there. -/
structure Taken (s : Ptr) (r : Cmd Str × Ptr) : Prop where
  rest : r.2 <:+ s
  words : ∀ w ∈ r.1.words, WordIn s w
  slots : ∀ argv ∈ r.1.argvs, argv.length < MAXARGS

/-- Every result of the parser is `Taken` from where it started. -/
def Takes (p : Ptr → Res (Cmd Str × Ptr)) : Prop := ∀ s r, p s = .done r → Taken s r

namespace Taken

variable {c d : Cmd Str} {p p' : Ptr}

theorem move (h : Taken s (c, p)) (hp : p' <:+ p) : Taken s (c, p') := ⟨hp.trans h.rest, h.words, h.slots⟩

theorem mono (hs : s' <:+ s) (h : Taken s' (c, p)) : Taken s (c, p) :=
  ⟨h.rest.trans hs, fun w hw => (h.words w hw).mono hs, h.slots⟩

theorem redirs {rs : List (Redir Str)} (h : Taken s (c, p)) (hrs : ∀ x ∈ rs, WordIn s x.file) :
    Taken s (c.redirs rs, p) := by
  refine ⟨h.rest, fun w hw => ?_, ?_⟩
  · rw [words_redirs, List.mem_append, List.mem_map] at hw
    rcases hw with hw | ⟨x, hx, rfl⟩
    · exact h.words w hw
    · exact hrs x hx
  · rw [argvs_redirs]; exact h.slots

theorem both {e : Cmd Str} (hc : Taken s (c, p)) (hd : Taken p (d, p')) (hw : e.words = c.words ++ d.words)
    (ha : e.argvs = c.argvs ++ d.argvs) : Taken s (e, p') := by
  refine ⟨hd.rest.trans hc.rest, fun w hm => ?_, fun argv hm => ?_⟩
  · rw [hw] at hm
    exact (List.mem_append.1 hm).elim (hc.words w) fun h => (hd.words w h).mono hc.rest
  · rw [ha] at hm; exact (List.mem_append.1 hm).elim (hc.slots argv) (hd.slots argv)

end Taken

theorem parsebacks_taken : ∀ (f : Nat) {c : Cmd Str} {p : Ptr} {r : Cmd Str × Ptr}, Taken s (c, p) →
    parsebacks f c p = .done r → Taken s r
  | 0, _, _, _, _, h => by cases h
  | f + 1, c, p, r, hc, h => by
    rw [parsebacks] at h
    split at h
    · refine parsebacks_taken f (c := .back c) ?_ h
      have hm := hc.move ((gettoken_suffix _).trans (peek_suffix p [38]))
      exact ⟨hm.rest, hm.words, hm.slots⟩
    · cases h; exact hc.move (peek_suffix p _)

section

variable {f : Nat}

theorem parsepipe_takes (he : Takes (parseexec f)) (hp : Takes (parsepipe f)) : Takes (parsepipe (f + 1)) := by
  intro s r h
  rw [parsepipe] at h
  obtain ⟨⟨c, p⟩, hc, h⟩ := bind_done h
  have ht := he s _ hc
  dsimp only at h
  split at h
  · obtain ⟨⟨d, p'⟩, hd, h⟩ := bind_done h
    cases h
    exact (ht.move ((gettoken_suffix _).trans (peek_suffix p [124]))).both (hp _ _ hd) rfl rfl
  · cases h; exact ht.move (peek_suffix p _)

theorem parseline_takes (hp : Takes (parsepipe f)) (hl : Takes (parseline f)) : Takes (parseline (f + 1)) := by
  intro s r h
  rw [parseline] at h
  obtain ⟨⟨c, p⟩, hc, h⟩ := bind_done h
  obtain ⟨⟨c', p'⟩, hb, h⟩ := bind_done h
  have ht := parsebacks_taken f (hp s _ hc) hb
  dsimp only at h
  split at h
  · obtain ⟨⟨d, p''⟩, hd, h⟩ := bind_done h
    cases h
    exact (ht.move ((gettoken_suffix _).trans (peek_suffix p' [59]))).both (hl _ _ hd) rfl rfl
  · cases h; exact ht.move (peek_suffix p' _)

theorem parseblock_takes (hl : Takes (parseline f)) : Takes (parseblock (f + 1)) := by
  intro s r h
  rw [parseblock] at h
  dsimp only at h
  split at h
  · obtain ⟨⟨c, p⟩, hc, h⟩ := bind_done h
    have ht := (hl _ _ hc).mono ((gettoken_suffix _).trans (peek_suffix s [40]))
    dsimp only at h
    split at h
    · obtain ⟨⟨rs, p'⟩, hrs, h⟩ := bind_done h
      cases h
      obtain ⟨hs, hw⟩ := parseredirs_words f hrs
      have hm := ht.move ((gettoken_suffix _).trans (peek_suffix p [41]))
      exact (hm.move hs).redirs fun x hx => (hw x hx).mono hm.rest
    · cases h
  · cases h

theorem parseexec_takes (hb : Takes (parseblock f)) : Takes (parseexec (f + 1)) := by
  intro s r h
  rw [parseexec] at h
  have hp := peek_suffix s [40]
  split at h
  · exact (hb _ _ h).mono hp
  · obtain ⟨⟨rs, p⟩, hrs, h⟩ := bind_done h
    obtain ⟨⟨as, p'⟩, has, h⟩ := bind_done h
    cases h
    obtain ⟨hs1, hw1⟩ := parseredirs_words f hrs
    obtain ⟨hs2, hw2, hlen⟩ := parseargs_words f 0 (by decide) has
    have hrest := hs1.trans hp
    have hexec : Taken s (.exec (as.map (·.1)), p') := by
      refine ⟨hs2.trans hrest, fun w hw => ?_, fun argv ha => ?_⟩
      · obtain ⟨a, ha, rfl⟩ := List.mem_map.1 hw; exact (hw2 a ha).1.mono hrest
      · rw [List.mem_singleton.1 ha, List.length_map]; simpa only [zero_add] using hlen
    refine hexec.redirs fun x hx => ?_
    rcases List.mem_append.1 hx with hx | hx
    · exact (hw1 x hx).mono hp
    · obtain ⟨a, ha, hx⟩ := List.mem_flatMap.1 hx; exact ((hw2 a ha).2 x hx).mono hrest

/-- Induction on the fuel: each parser calls the others with less. -/
theorem parse_takes (f : Nat) :
    Takes (parseline f) ∧ Takes (parsepipe f) ∧ Takes (parseexec f) ∧ Takes (parseblock f) := by
  induction f with
  | zero =>
    refine ⟨?_, ?_, ?_, ?_⟩
    all_goals
      intro s r h; cases h
  | succ f ih =>
    obtain ⟨hl, hp, he, hb⟩ := ih
    exact ⟨parseline_takes hp hl, parsepipe_takes he hp, parseexec_takes hb, parseblock_takes hl⟩

end

/-! ## The NULs behind the words -/

theorem nulterminate_eq (c : Cmd Str) (m : List UInt8) :
    nulterminate c m = c.words.foldl (fun m w => nulAt m w.eq) m := by
  induction c generalizing m with
  | exec argv => rfl
  | redir c r ih => rw [nulterminate, ih, Cmd.words, List.foldl_append]; rfl
  | pipe l r ihl ihr | list l r ihl ihr => rw [nulterminate, ihl, ihr, Cmd.words, List.foldl_append]
  | back c ih => rw [nulterminate, ih, Cmd.words]

/-- The NULs behind the words `ws`. -/
abbrev nuls (ws : List Str) (m : List UInt8) : List UInt8 := ws.foldl (fun m w => nulAt m w.eq) m

theorem length_nulAt (m : List UInt8) (p : Ptr) : (nulAt m p).length = m.length := List.length_set

theorem length_nuls : ∀ (ws : List Str) (m : List UInt8), (nuls ws m).length = m.length
  | [], _ => rfl
  | w :: ws, m => (length_nuls ws (nulAt m w.eq)).trans (length_nulAt m w.eq)

theorem getElem?_nuls_of_ne : ∀ (ws : List Str) {m : List UInt8}, (∀ w ∈ ws, m.length - 1 - w.eq.length ≠ k) →
    (nuls ws m)[k]? = m[k]?
  | [], _, _ => rfl
  | w :: ws, m, h => by
    obtain ⟨hw, hws⟩ := List.forall_mem_cons.1 h
    exact (getElem?_nuls_of_ne ws (by rwa [length_nulAt])).trans (List.getElem?_set_ne hw)

theorem getElem?_nuls_zero : ∀ (ws : List Str) {m : List UInt8}, k < m.length →
    (m[k]? = some 0 ∨ ∃ w ∈ ws, m.length - 1 - w.eq.length = k) → (nuls ws m)[k]? = some 0
  | [], _, _, h => by simpa using h
  | w :: ws, m, hk, h => by
    refine getElem?_nuls_zero ws (m := nulAt m w.eq) (by rwa [length_nulAt]) ?_
    rw [length_nulAt, nulAt, List.getElem?_set]
    by_cases hw : m.length - 1 - w.eq.length = k
    · rw [if_pos hw, if_pos (hw ▸ hk)]; exact .inl rfl
    · rw [if_neg hw]
      refine h.imp_right ?_
      rintro ⟨x, hx, he⟩
      rcases List.mem_cons.1 hx with rfl | hx
      · exact absurd he hw
      · exact ⟨x, hx, he⟩

theorem takeWhile_text {t e : List UInt8} (ht : ∀ c ∈ t, c ≠ 0) (he : e.head? = some 0) :
    (t ++ e).takeWhile (· ≠ 0) = t := by
  cases e with
  | nil => cases he
  | cons c e => cases he; rw [List.takeWhile_append_of_pos (by simpa using ht)]; simp

/-- After `nulterminate` each word of the tree is the string its pointer goes to. -/
theorem strAt_nulterminate (hs : ∀ c ∈ s, c ≠ 0) {c : Cmd Str} (hc : ∀ w ∈ c.words, WordIn s w) (hw : w ∈ c.words) :
    strAt (nulterminate c (s ++ [0])) w.q = w.text := by
  have hin := hc w hw
  have hq := hin.length_q
  obtain ⟨pre, hpre⟩ := hin.suffix
  have hlen : (s ++ [0]).length = pre.length + w.text.length + w.eq.length + 1 := by
    rw [← hpre, List.length_append, List.length_append, hq, List.length_singleton]; omega
  rw [nulterminate_eq]
  have htext : ((nuls c.words (s ++ [0])).drop pre.length).take w.text.length = w.text := by
    refine List.ext_getElem? fun j => ?_
    rw [List.getElem?_take]
    split
    · rename_i hj
      rw [List.getElem?_drop, getElem?_nuls_of_ne]
      · rw [← hpre]
        conv_lhs => rw [hin.word.split, List.append_assoc, List.append_assoc]
        rw [List.getElem?_append_right (by omega), Nat.add_sub_cancel_left, List.getElem?_append_left hj]
      · intro w' hw'
        have hout := hin.outside (hc w' hw')
        have hle := (hc w' hw').end_suffix.length_le
        rw [List.length_append, List.length_singleton] at hlen ⊢
        omega
    · exact (List.getElem?_eq_none (by omega)).symm
  have hnul : ((nuls c.words (s ++ [0])).drop (pre.length + w.text.length)).head? = some 0 := by
    rw [List.head?_drop]; exact getElem?_nuls_zero _ (by omega) (.inr ⟨w, hw, by omega⟩)
  have hpos : (nuls c.words (s ++ [0])).length - 1 - w.q.length = pre.length := by
    rw [length_nuls]; omega
  rw [strAt, hpos, ← List.take_append_drop w.text.length (List.drop pre.length _), htext, List.drop_drop]
  refine takeWhile_text (fun x hx => ?_) hnul
  exact hs x (hin.suffix.subset (hin.word.split ▸ List.mem_append_left _ hx))

theorem ne_zero_of_mem_cstring (s : List UInt8) : ∀ c ∈ cstring s, c ≠ 0 := by
  intro c hc; simpa using List.mem_takeWhile_imp hc

/-- How far a pointer is from the start of the line. -/
def Ptr.offset (p line : Ptr) : Nat := line.length - p.length

/-- Where `parsecmd` returns, each `argv` string and each file name of the tree is the text of its token. A
token is a run of word characters of the line; the NUL behind it is written within the line or on its last NUL,
and outside every other token. Each `argv` has room for its null. -/
theorem words_terminated {fuel : Nat} {s : List UInt8} {c : Cmd Str} {m : List UInt8}
    (h : parsecmd fuel s = .done (c, m)) :
    (∀ w ∈ c.words, w.IsWord ∧ w.q <:+ cstring s ∧ w.eq <:+ cstring s ∧ strAt m w.q = w.text ∧
      ∀ w' ∈ c.words, w'.eq.offset (cstring s) ∉ Set.Ico (w.q.offset (cstring s)) (w.eq.offset (cstring s))) ∧
    ∀ argv ∈ c.argvs, argv.length < MAXARGS := by
  obtain ⟨r, hr, h⟩ := bind_done h
  dsimp only at h
  split at h
  · cases h
  · cases h
    have ht := (parse_takes fuel).1 _ _ hr
    refine ⟨fun w hw => ?_, ht.slots⟩
    have hin := ht.words w hw
    refine ⟨hin.word, hin.suffix, hin.end_suffix, strAt_nulterminate (ne_zero_of_mem_cstring s) ht.words hw, ?_⟩
    rintro w' hw' ⟨hge, hlt⟩
    have hout := hin.outside (ht.words w' hw')
    have hq := hin.suffix.length_le
    have he := (ht.words w' hw').end_suffix.length_le
    unfold Ptr.offset at hge hlt
    omega

/-- `a>b|c`. -/
theorem words_terminated_redirected :
    ∃ c m, parsecmd 24 [97, 62, 98, 124, 99, 0] = .done (c, m) ∧ m = [97, 0, 98, 0, 99, 0] ∧
      ∀ w ∈ c.words, strAt m w.q = w.text := by
  have he : parsecmd 24 [97, 62, 98, 124, 99, 0] = .done
      (.pipe (.redir (.exec [⟨[97, 62, 98, 124, 99], [62, 98, 124, 99]⟩]) ⟨⟨[98, 124, 99], [124, 99]⟩,
        O_WRONLY ||| O_CREATE, 1⟩) (.exec [⟨[99], []⟩]), [97, 0, 98, 0, 99, 0]) := rfl
  exact ⟨_, _, he, rfl, fun w hw => ((words_terminated he).1 w hw).2.2.2.1⟩

end Xv6.Shell
