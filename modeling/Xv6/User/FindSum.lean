/-
find_sum adds up the numbers in its arguments, or in its input, and writes the sum to `result.txt`. What it keeps
between two bytes is the value of the run of digits that is open and the total of those before it, so the sum does not
depend on how `read` cuts the input. The file is opened without being cut off: what it held behind the new result stays.
-/
import Mathlib.Data.Nat.Digits.Defs
import Xv6.Console.Input
import Xv6.Fs.Duplicate

namespace Xv6.User

open Base Logic Fs
open Console (newline)

/-! ## The accumulator -/

/-- An `int`. -/
def int (x : Int) : Int := x.bmod (2 ^ 32)

structure AccCtx where
  building : Bool := false
  curval : Int := 0
  total : Int := 0
  deriving DecidableEq, Repr

/-- `is_digit`; a byte above 127 is a negative `char`. -/
def isDigit (c : UInt8) : Bool := 48 ≤ c ∧ c ≤ 57

def accSep (ctx : AccCtx) : AccCtx :=
  if ctx.building then { building := false, curval := 0, total := int (ctx.total + ctx.curval) } else ctx

def accPush (ctx : AccCtx) (c : UInt8) : AccCtx :=
  if isDigit c then { ctx with building := true, curval := int (ctx.curval * 10 + (c.toNat - 48 : Nat)) }
  else accSep ctx

def accFeed (ctx : AccCtx) (buf : List UInt8) : AccCtx := buf.foldl accPush ctx

/-- `main` up to the last `acc_sep`: with arguments it takes them one by one, else the chunks that `read` returns. -/
def accumulate (args chunks : List (List UInt8)) : AccCtx :=
  accSep (if args = [] then chunks.foldl accFeed {} else args.foldl (fun ctx s => accSep (accFeed ctx s)) {})

/-! ## The number -/

/-- The first loop of `write_number_ln`, with `n` places left in `tmp`. -/
def digits : Nat → Int → List UInt8
  | 0, _ => []
  | n + 1, value => if 0 < value then UInt8.ofNat (48 + (value % 10).toNat) :: digits n (value / 10) else []

/-- A round of its second loop. -/
def swapAt (tmp : List UInt8) (i : Nat) : List UInt8 :=
  (tmp.set i (tmp.getD (tmp.length - 1 - i) 0)).set (tmp.length - 1 - i) (tmp.getD i 0)

def writeNumberLn (value : Int) : List UInt8 :=
  (if value = 0 then [48] else (List.range ((digits 32 value).length / 2)).foldl swapAt (digits 32 value)) ++ [newline]

/-! ## The sum -/

/-- The maximal runs of digits. -/
def digitRuns (l : List UInt8) : List (List UInt8) := (l.splitOnP fun c => !isDigit c).filter (· ≠ [])

/-- The value of a run that goes on from `v`. -/
def valueFrom (v : Nat) (run : List UInt8) : Nat := run.foldl (fun v c => v * 10 + (c.toNat - 48)) v

def sumOf (l : List UInt8) : Nat := ((digitRuns l).map (valueFrom 0)).sum

def inputSum (args chunks : List (List UInt8)) : Nat := if args = [] then sumOf chunks.flatten else (args.map sumOf).sum

/-- The decimal representation of a number. -/
def decimal (n : Nat) :
    List UInt8 := if n = 0 then [48] else ((Nat.digits 10 n).map fun d => UInt8.ofNat (48 + d)).reverse

/-- What a text adds to the total, with a run of value `v` open before it. -/
def rest (v : Nat) : List UInt8 → Nat
  | [] => v
  | c :: l => if isDigit c then rest (v * 10 + (c.toNat - 48)) l else v + rest 0 l

theorem rest_eq : ∀ (l : List UInt8) (v : Nat), ∃ run runs, (l.splitOnP fun c => !isDigit c) = run :: runs ∧
    rest v l = valueFrom v run + (runs.map (valueFrom 0)).sum
  | [], v => ⟨[], [], rfl, rfl⟩
  | c :: l, v => by
    rw [List.splitOnP_cons_eq_if_modifyHead, rest]
    by_cases hc : isDigit c
    · obtain ⟨run, runs, hsplit, hrest⟩ := rest_eq l (v * 10 + (c.toNat - 48))
      rw [if_neg (by simp [hc]), if_pos hc, hsplit]
      exact ⟨c :: run, runs, rfl, hrest⟩
    · obtain ⟨run, runs, hsplit, hrest⟩ := rest_eq l 0
      rw [if_pos (by simp [hc]), if_neg hc, hsplit, hrest]
      exact ⟨[], run :: runs, rfl, rfl⟩

theorem rest_zero (l : List UInt8) : rest 0 l = sumOf l := by
  obtain ⟨run, runs, hsplit, hrest⟩ := rest_eq l 0
  have hfilter : ∀ ls : List (List UInt8), ((ls.filter (· ≠ [])).map (valueFrom 0)).sum =
      (ls.map (valueFrom 0)).sum := by
    intro ls
    induction ls with
    | nil => rfl
    | cons x ls ih =>
      by_cases hx : x = []
      · rw [List.filter_cons_of_neg (by simp [hx]), ih, hx, List.map_cons, List.sum_cons]
        exact (zero_add _).symm
      · rw [List.filter_cons_of_pos (by simp [hx]), List.map_cons, List.map_cons, List.sum_cons, List.sum_cons, ih]
  rw [sumOf, digitRuns, hfilter, hsplit, hrest, List.map_cons, List.sum_cons]

theorem le_rest : ∀ (l : List UInt8) (v : Nat), v ≤ rest v l
  | [], v => le_rfl
  | c :: l, v => by
    rw [rest]
    split
    · have := le_rest l (v * 10 + (c.toNat - 48)); omega
    · exact le_self_add

variable {n : Nat}

theorem int_of_lt (h : n < 2 ^ 31) : int n = n := by
  rw [int, Int.bmod_def]; omega

/-- The total is `t`, and a run of value `v` is open or `v` is 0. -/
structure Holds (ctx : AccCtx) (t v : Nat) : Prop where
  total : ctx.total = t
  curval : ctx.curval = v
  closed : ctx.building = false → v = 0

theorem accSep_holds {ctx : AccCtx} {t v : Nat} (h : Holds ctx t v) (hlt : t + v < 2 ^ 31) :
    Holds (accSep ctx) (t + v) 0 := by
  unfold accSep
  split
  · refine ⟨?_, rfl, fun _ => rfl⟩
    show int (ctx.total + ctx.curval) = _
    rw [h.total, h.curval, ← Nat.cast_add, int_of_lt hlt]
  · rename_i hb; obtain rfl := h.closed (by simpa using hb); exact h

theorem accFeed_holds : ∀ (l : List UInt8) {ctx : AccCtx} {t v : Nat}, Holds ctx t v → t + rest v l < 2 ^ 31 →
    Holds (accSep (accFeed ctx l)) (t + rest v l) 0
  | [], ctx, t, v, h, hlt => accSep_holds h hlt
  | c :: l, ctx, t, v, h, hlt => by
    show Holds (accSep (accFeed (accPush ctx c) l)) _ 0
    rw [rest] at hlt ⊢
    unfold accPush
    split
    · rename_i hc
      rw [if_pos hc] at hlt
      have hle := le_rest l (v * 10 + (c.toNat - 48))
      refine accFeed_holds l ⟨h.total, ?_, nofun⟩ hlt
      rw [h.curval, ← int_of_lt (n := v * 10 + (c.toNat - 48)) (by omega)]
      push_cast
      rfl
    · rename_i hc
      rw [if_neg hc] at hlt
      rw [← add_assoc] at hlt ⊢
      exact accFeed_holds l (accSep_holds h (by omega)) hlt

theorem args_holds :
    ∀ (args : List (List UInt8)) {ctx : AccCtx} {t : Nat}, Holds ctx t 0 → t + (args.map sumOf).sum < 2 ^ 31 →
    Holds (args.foldl (fun ctx s => accSep (accFeed ctx s)) ctx) (t + (args.map sumOf).sum) 0
  | [], ctx, t, h, _ => h
  | s :: args, ctx, t, h, hlt => by
    rw [List.map_cons, List.sum_cons, ← add_assoc, ← rest_zero] at hlt ⊢
    exact args_holds args (accFeed_holds s h (by omega)) hlt

theorem accumulate_total {args chunks : List (List UInt8)} (h : inputSum args chunks < 2 ^ 31) :
    (accumulate args chunks).total = inputSum args chunks := by
  have hstart : Holds {} 0 0 := ⟨rfl, rfl, fun _ => rfl⟩
  unfold accumulate inputSum at *
  split
  · rename_i hargs
    rw [if_pos hargs, ← rest_zero] at h
    have hfeed : chunks.foldl accFeed {} = accFeed {} chunks.flatten := List.foldl_flatten.symm
    rw [hfeed, (accFeed_holds chunks.flatten hstart (by omega)).total, rest_zero, zero_add]
  · rename_i hargs
    rw [if_neg hargs] at h
    rw [(accSep_holds (args_holds args hstart (by omega)) (by omega)).total, zero_add, add_zero]

/-! ## The digits -/

theorem digits_eq : ∀ (n : Nat) {v : Nat}, v < 10 ^ n → digits n v = (Nat.digits 10 v).map fun d => UInt8.ofNat (48 + d)
  | 0, v, h => by
    obtain rfl : v = 0 := by omega
    rfl
  | n + 1, v, h => by
    rw [digits]
    by_cases hv : v = 0
    · subst hv; rfl
    · rw [if_pos (by omega), Nat.digits_def' (by omega) (by omega), List.map_cons]
      have hdiv : (v : Int) / 10 = (v / 10 : Nat) := rfl
      have hmod : ((v : Int) % 10).toNat = v % 10 := by omega
      rw [hdiv, hmod, digits_eq n (by rw [Nat.pow_succ] at h; omega)]

theorem length_swaps (tmp : List UInt8) (k : Nat) : ((List.range k).foldl swapAt tmp).length = tmp.length := by
  induction k with
  | zero => rfl
  | succ k ih =>
    rw [List.range_succ, List.foldl_append]
    simp only [List.foldl_cons, List.foldl_nil, swapAt, List.length_set, ih]

theorem getElem?_swapAt {tmp : List UInt8} {i j : Nat} (hi : i < tmp.length) (hj : j < tmp.length) :
    (swapAt tmp i)[j]? =
    if tmp.length - 1 - i = j then tmp[i]? else if i = j then tmp[tmp.length - 1 - i]? else tmp[j]? := by
  have hget : ∀ k < tmp.length, tmp[k]? = some (tmp.getD k 0) := fun k hk => by simp [hk]
  rw [swapAt, List.getElem?_set, List.getElem?_set, List.length_set, hget i hi, hget (tmp.length - 1 - i) (by omega)]
  split
  · rw [if_pos (by omega)]
  · rfl

theorem getElem?_swaps (tmp : List UInt8) :
    ∀ k ≤ tmp.length / 2, ∀ j < tmp.length, ((List.range k).foldl swapAt tmp)[j]? =
    if j < k ∨ tmp.length - k ≤ j then tmp[tmp.length - 1 - j]? else tmp[j]?
  | 0, _, j, hj => by
    rw [if_neg (by omega)]; rfl
  | k + 1, hk, j, hj => by
    have ih := getElem?_swaps tmp k (by omega)
    have hlen := length_swaps tmp k
    rw [List.range_succ, List.foldl_append]
    show (swapAt _ k)[j]? = _
    rw [getElem?_swapAt (by omega) (by omega), hlen]
    by_cases h1 : tmp.length - 1 - k = j
    · rw [if_pos h1, if_pos (by omega), ih k (by omega), if_neg (by omega)]
      congr 1
      omega
    · rw [if_neg h1]
      by_cases h2 : k = j
      · rw [if_pos h2, if_pos (by omega), ih _ (by omega), if_neg (by omega), h2]
      · rw [if_neg h2, ih j hj]
        by_cases h3 : j < k ∨ tmp.length - k ≤ j
        · rw [if_pos h3, if_pos (by omega)]
        · rw [if_neg h3, if_neg (by omega)]

theorem swaps_eq_reverse (tmp : List UInt8) : (List.range (tmp.length / 2)).foldl swapAt tmp = tmp.reverse := by
  refine List.ext_getElem? fun j => ?_
  rcases lt_or_ge j tmp.length with hj | hj
  · rw [getElem?_swaps tmp _ le_rfl j hj, List.getElem?_reverse hj]
    split
    · rfl
    · congr 1
      omega
  · rw [List.getElem?_eq_none (by rw [length_swaps]; exact hj),
      List.getElem?_eq_none (by rw [List.length_reverse]; exact hj)]

theorem writeNumberLn_eq (h : n < 2 ^ 31) : writeNumberLn n = decimal n ++ [newline] := by
  unfold writeNumberLn decimal
  by_cases h0 : n = 0
  · rw [if_pos (by omega), if_pos h0]
  · rw [if_neg (by omega), if_neg h0, swaps_eq_reverse, digits_eq 32 (by omega)]

/-- A sum below 2^31 is found, for any arguments and any cutting of the input, and written in decimal. -/
theorem find_sum_total (args chunks : List (List UInt8)) (h : inputSum args chunks < 2 ^ 31) :
    (accumulate args chunks).total = inputSum args chunks ∧
      writeNumberLn (accumulate args chunks).total = decimal (inputSum args chunks) ++ [newline] := by
  have htotal := accumulate_total h
  rw [htotal]
  exact ⟨rfl, writeNumberLn_eq h⟩

/-- `12` and `3 4` in two reads, which cut the number 123. -/
theorem find_sum_total_cut :
    inputSum [] [[49, 50], [51, 32, 52]] = 127 ∧ (accumulate [] [[49, 50], [51, 32, 52]]).total = 127 ∧
    writeNumberLn (accumulate [] [[49, 50], [51, 32, 52]]).total = [49, 50, 55, newline] := by
  have hsum : inputSum [] [[49, 50], [51, 32, 52]] = 127 := by decide
  obtain ⟨h1, h2⟩ := find_sum_total [] [[49, 50], [51, 32, 52]] (by rw [hsum]; decide)
  rw [hsum] at h1 h2
  exact ⟨hsum, h1, h2.trans (by simp [decimal])⟩

/-! ## The file -/

/-- `result.txt`. -/
def resultTxt : List UInt8 := [114, 101, 115, 117, 108, 116, 46, 116, 120, 116]

/-- `main` from the call of `open` on, for the text that is written: the answer of `write`, or -1 if the file cannot be
opened. -/
def saveResult (text : List UInt8) : Fs.M Int := do
  let fd ← sysOpen resultTxt (O_CREATE ||| O_WRONLY)
  if fd < 0 then return -1
  else do
    let r ← filewrite (Fin.ofNat NOFILE fd.toNat) text
    let _ ← sysClose (Fin.ofNat NOFILE fd.toNat)
    return r

/-- `main`. -/
def findSum (args chunks : List (List UInt8)) : Fs.M Int := saveResult (writeNumberLn (accumulate args chunks).total)

variable {N off : Nat} {t : Fin N} {s : State N}

section

variable {ok : (Inum → Inode) → Op → Prop} {s0 : State N} {ino : Inum → Inode} {text : List UInt8}

/-- The inode that a name of the current directory stands for. -/
def inDir (ino : Inum → Inode) (d : Inum) (name : Name) : Option Inum :=
  if (ino d).type = .dir then (findEnt name (ino d).ents 0).map Prod.snd else none

theorem lookup_resultTxt (s : State N) (t : Fin N) : lookup s t resultTxt = inDir s.ino (s.cwd t) resultTxt := by
  have helems : elems resultTxt = [resultTxt] := by decide +kernel
  have hstart : startOf s t resultTxt = s.cwd t := if_neg (by decide)
  rw [lookup, helems, hstart, resolve, inDir]
  by_cases hd : (s.ino (s.cwd t)).type = .dir
  · rw [if_neg (not_not_intro hd), if_pos hd, if_neg (by simp)]
    rcases findEnt resultTxt (s.ino (s.cwd t)).ents 0 with _ | ⟨off, i⟩
    · rfl
    · rfl
  · rw [if_pos hd, if_neg hd]; rfl

/-- What `result.txt` holds, if it is there. -/
def oldResult (s : State N) (t : Fin N) : List UInt8 := (lookup s t resultTxt).elim [] fun i => (s.ino i).data

/-- An inode that is open under the name, with what was there before. -/
structure Opened (s0 : State N) (t : Fin N) (ino : Inum → Inode) (ip : Inum) : Prop where
  named : inDir ino (s0.cwd t) resultTxt = some ip
  type : (ino ip).type = .file
  data : (ino ip).data = oldResult s0 t
  safe : Safe s0 ino 0 ip

theorem inDir_dataAt (ino : Inum → Inode) (i : Inum) (data : List UInt8) (d : Inum) (name : Name) :
    inDir (dataAt ino i data) d name = inDir ino d name := by
  by_cases hd : d = i
  · rw [inDir, hd, dataAt_self, inDir]
  · rw [inDir, dataAt_of_ne hd, inDir]

variable {fd : Fin NOFILE} {L M : Multiset Inum} {Q : Int → State N → Prop} {ip : Inum} {f : File}

theorem ofile_of_hold {f : Option File} (h : Hold (s0.setFile t fd f) ino L M s) : s.ofile t fd = f := by
  rw [h.ofile]; simp [State.setFile]

theorem writeChunk_exact (hty : (ino ip).type = .file) (hoff : off ≤ (ino ip).data.length)
    (hmax : off + text.length ≤ MAXFILE * BSIZE) (h : Hold s0 ino L M s)
    (hQ : ∀ s', Hold s0 (dataAt ino ip (writeData (ino ip).data off text)) L M s' → Q text.length s') :
    (solo t ok).wpProg Q (writeChunk ip off text) s := by
  refine wp_bind.2 (stat_hold h ?_)
  rw [if_neg (by rw [hty]; decide)]
  exact wp_bind.2 (writei_exact hty hoff hmax h hQ)

theorem getFile_hold {Q : Option File → State N → Prop} {f : Option File} (h : Hold (s0.setFile t fd f) ino L M s)
    (hQ : Q f s) : (solo t ok).wpProg Q (op (.getFile fd)) s := by
  rintro r s' ⟨-, x, he⟩
  cases he
  rw [ofile_of_hold h]
  exact hQ

theorem advance_hold {Q : Unit → State N → Prop} {r : Nat} (hr : 0 < r)
    (h : Hold (s0.setFile t fd (some f)) ino L M s)
    (hQ : ∀ s', Hold (s0.setFile t fd (some { f with off := off + r })) ino L M s' → Q () s') :
    (solo t ok).wpProg Q (advance fd off r) s := by
  rw [advance, if_pos (by omega)]
  rintro _ s' ⟨-, x, he⟩
  cases he
  rw [ofile_of_hold h]
  have h' := h.setFile t fd (some { f with off := off + r })
  rw [setFile_setFile] at h'
  exact hQ _ h'

theorem filewrite_hold (hip : f.ip = some ip)
    (hw : f.writable = true) (hoff : f.off = 0) (hty : (ino ip).type = .file) (h0 : text ≠ [])
    (hmax : text.length ≤ maxWrite) (h : Hold (s0.setFile t fd (some f)) ino (ip ::ₘ 0) 0 s)
    (hQ : ∀ s' f', f'.ip = some ip → Hold (s0.setFile t fd (some f')) (dataAt ino ip (writeData (ino ip).data 0 text))
      (ip ::ₘ 0) 0 s' → Q text.length s') : (solo t ok).wpProg Q (filewrite fd text) s := by
  have hpos : 0 < text.length := List.length_pos_iff.2 h0
  have hfile : maxWrite ≤ MAXFILE * BSIZE := by decide
  obtain ⟨n, hn⟩ : ∃ n, text.length = n + 1 := ⟨text.length - 1, by omega⟩
  refine wp_bind.2 (getFile_hold h ?_)
  simp only [hw, hip, hoff, Bool.true_eq_false, if_false]
  refine wp_bind.2 ?_
  rw [hn, writeLoop, if_neg h0, List.take_of_length_le hmax, List.drop_of_length_le hmax]
  refine wp_bind.2 (wp_bind.2 (op_calm h rfl fun _ s2 h2 => wp_bind.2 (ilock_hold h2 fun s3 _ h3 => wp_bind.2 ?_)))
  refine writeChunk_exact hty zero_le (by omega) h3 fun s4 h4 => wp_bind.2 (advance_hold hpos h4 fun s5 h5 => ?_)
  refine wp_bind.2 (iunlock_hold h5 fun s6 _ h6 => ?_)
  refine wp_bind.2 (endOp_hold h6 fun s7 h7 => ?_)
  show (solo t ok).wpProg _ (if (text.length : Int) < 0 then pure false else if (text.length : Int) ≠ text.length then
    Prog.op Op.panic Empty.elim else writeLoop fd ip n (0 + text.length) []) s7
  rw [if_neg (by omega), if_neg (not_not_intro rfl), ← hn]
  have hloop : ∀ n off, writeLoop fd ip n off [] = .ret true := by
    intro n off
    cases n with
    | zero => rfl
    | succ n => rfl
  rw [hloop]
  exact hQ s7 { f with off := 0 + text.length } hip h7

theorem sysClose_hold (hip : f.ip = some ip) (hsafe : Safe s0 ino 0 ip)
    (h : Hold (s0.setFile t fd (some f)) ino (ip ::ₘ 0) 0 s)
    (hQ : ∀ s', Hold (s0.setFile t fd none) ino 0 0 s' → Q 0 s') : (solo t ok).wpProg Q (sysClose fd) s := by
  have hfile := ofile_of_hold h
  refine wp_bind.2 ?_
  rintro r s1 ⟨-, x, he⟩
  simp only [kernel, exec, hfile, hip] at he
  cases he
  have h1 := h.setFile t fd none
  rw [setFile_setFile] at h1
  have h1' : Hold (s0.setFile t fd none) ino (ip ::ₘ 0) 0 { s.setFile t fd none with nfile := s.nfile - 1 } :=
    ⟨h1.eq, h1.ref, h1.live, h1.kept, h1.locked, h1.ofile, h1.cwd, h1.ninodes⟩
  exact wp_bind.2 (op_calm h1' rfl fun _ s2 h2 => wp_bind.2 (iput_safe h2 hsafe fun s3 h3 => finish_hold h3 hQ))

theorem saveResult_hold (hs : Sound s0 t) (h0 : text ≠ []) (hmax : text.length ≤ maxWrite) :
    (solo t ok).wpProg (fun r s' => 0 ≤ r → ∃ i, lookup s' t resultTxt = some i ∧
      (s'.ino i).data = writeData (oldResult s0 t) 0 text) (saveResult text) s0 := by
  have hstart := Hold.start hs.live
  -- from an open inode on the run is the same whether or not it is new
  have hrest : ∀ {ino ip} (fd : Fin NOFILE) s1, Opened s0 t ino ip →
      Hold (s0.setFile t fd (some (opened ip (O_CREATE ||| O_WRONLY)))) ino (ip ::ₘ 0) 0 s1 →
      (solo t ok).wpProg (fun r s' => 0 ≤ r → ∃ i, lookup s' t resultTxt = some i ∧
        (s'.ino i).data = writeData (oldResult s0 t) 0 text) (if (fd.val : Int) < 0 then return -1 else do
          let r ← filewrite (Fin.ofNat NOFILE (fd.val : Int).toNat) text
          let _ ← sysClose (Fin.ofNat NOFILE (fd.val : Int).toNat)
          return r) s1 := by
    intro ino ip fd s1 ho h1
    have hfd : Fin.ofNat NOFILE (fd.val : Int).toNat = fd := Fin.ext (Nat.mod_eq_of_lt fd.isLt)
    rw [if_neg (by omega), hfd]
    refine wp_bind.2 (filewrite_hold rfl (by simp +decide [opened]) rfl ho.type h0
      hmax h1 fun s2 f hf h2 => wp_bind.2 ?_)
    refine sysClose_hold hf (fun hty hl => ho.safe ?_ ?_) h2 fun s3 h3 _ => ⟨ip, ?_, ?_⟩
    · rw [ho.type]; decide
    · unfold Last at hl; rwa [dataAt_self] at hl
    · rw [lookup_resultTxt, h3.eq, h3.cwd, inDir_dataAt]; exact ho.named
    · rw [h3.eq, dataAt_self, ho.data]
  have hpath : ∀ dp name, resolve s0.ino true (startOf s0 t resultTxt) (elems resultTxt) = some (dp, name) →
      dp = s0.cwd t ∧ name = resultTxt ∧ (s0.ino dp).type = .dir := by
    intro dp name hr
    rw [show elems resultTxt =
      [resultTxt] by decide +kernel, show startOf s0 t resultTxt = s0.cwd t from if_neg (by decide)] at hr
    obtain ⟨hd, ⟨-, -, heq⟩ | ⟨hp, -⟩⟩ := resolve_cons hr
    · cases heq; exact ⟨rfl, rfl, hd⟩
    · exact absurd ⟨rfl, rfl⟩ hp
  refine wp_bind.2 (wp_bind.2 (op_calm hstart rfl fun _ s1 h1 => wp_bind.2 ?_))
  rw [openInode, if_pos (by decide)]
  refine create_hold hs.safe h1 ?_ ?_ ?_
  · exact fun s2 _ h2 => finish_hold h2 fun s3 _ hr => absurd hr (by decide)
  · intro dp name off ip s2 hr hf _ hty h2
    obtain ⟨rfl, rfl, hd⟩ := hpath dp name hr
    have hnamed : inDir s0.ino (s0.cwd t) resultTxt = some ip := by rw [inDir, if_pos hd, hf]; rfl
    have hsafe := hs.safe ip (known_of_findEnt hd hf)
    refine openFile_hold hsafe h2 (fun s3 _ hr => absurd hr (by decide)) fun fd s3 h3 =>
      hrest fd s3 ⟨hnamed, hty, ?_, hsafe⟩ h3
    rw [oldResult, lookup_resultTxt, hnamed]
    rfl
  · intro dp name s2 hr hd hf h2
    obtain ⟨rfl, rfl, -⟩ := hpath dp name hr
    refine createNew_hold (by decide) h2 fun ip htaken => ?_
    have hne : s0.cwd t ≠ ip := fun e => by rw [e, htaken.free] at hd; cases hd
    have hnew := createAt_new resultTxt hne.symm s0.ino
    have hdir : createAt s0.ino (s0.cwd t) resultTxt ip .file 0 0 (s0.cwd t) = _ := createAt_dir hne s0.ino
    have hsafe : Safe s0 (createAt s0.ino (s0.cwd t) resultTxt ip .file 0 0) 0 ip := .of_nlink (by rw [hnew]; decide)
    obtain ⟨k, hk⟩ := findEnt_putEnt_self (e := ⟨ip, resultTxt⟩) (Nat.one_le_iff_ne_zero.1 htaken.pos) _ 0 hf
    refine ⟨(hs.safe _ (.inr (.inl rfl))).createAt hne, fun s3 h3 => ?_⟩
    refine openFile_hold hsafe h3 (fun s4 _ hr => absurd hr (by decide)) fun fd s4 h4 =>
      hrest fd s4 ⟨?_, ?_, ?_, hsafe⟩ h4
    · rw [inDir, hdir, if_pos hd, hk]; rfl
    · rw [hnew]
    · rw [hnew, oldResult, lookup_resultTxt, inDir, if_pos hd, hf]; rfl

end

theorem length_digits_le : ∀ (n : Nat) (v : Int), (digits n v).length ≤ n
  | 0, _ => le_refl 0
  | n + 1, v => by
    rw [digits]
    split
    · exact Nat.succ_le_succ (length_digits_le n _)
    · exact zero_le

theorem length_writeNumberLn_le (v : Int) : (writeNumberLn v).length ≤ 33 := by
  rw [writeNumberLn, List.length_append, List.length_singleton]
  split
  · exact (by decide : 2 ≤ 33)
  · rw [length_swaps]; exact Nat.succ_le_succ (length_digits_le 32 v)

/-- When find_sum has written its result, `result.txt` holds that and nothing else exactly if what was there before is
no longer than the result. -/
theorem result_exact_iff {N : Nat} {t : Fin N} {s s' : State N} {r : Int} (args chunks : List (List UInt8))
    (hsum : inputSum args chunks < 2 ^ 31) (hs : Sound s t)
    (he : (findSum args chunks).Evals ((kernel N).answers t) s r s') (hr : 0 ≤ r) :
    (∃ i, lookup s' t resultTxt = some i ∧ (s'.ino i).data = decimal (inputSum args chunks) ++ [newline]) ↔
      (oldResult s t).length ≤ (decimal (inputSum args chunks)).length + 1 := by
  have htext := writeNumberLn_eq hsum
  have hlen := length_writeNumberLn_le (inputSum args chunks)
  unfold findSum at he
  rw [accumulate_total hsum, htext] at he
  rw [htext] at hlen
  have hmax : 33 ≤ maxWrite := by decide
  have hsolo : (saveResult _).Evals (answers t fun _ _ => True) s r s' := he.mono fun _ _ _ _ h => ⟨trivial, h⟩
  obtain ⟨i, hi, hdata⟩ := wp_seq.1 (saveResult_hold hs (by simp) (by omega)) r s' hsolo hr
  rw [writeData, List.take_zero, List.nil_append, zero_add] at hdata
  have hlen' : (decimal (inputSum args chunks) ++ [newline]).length = (decimal (inputSum args chunks)).length + 1 :=
    List.length_append
  rw [← hlen', ← List.drop_eq_nil_iff]
  constructor
  · rintro ⟨j, hj, h⟩
    cases hi.symm.trans hj
    exact List.append_right_eq_self.1 (hdata.symm.trans h)
  · intro h; rw [h, List.append_nil] at hdata; exact ⟨i, hi, hdata⟩

/-- The run of find_sum in which each of its writes is of one block. -/
def runOnce {N : Nat} (t : Fin N) (arg : List UInt8) (s : State N) : Option (Int × State N) :=
  (findSum [arg] []).eval (fun s o => exec t s 1 o) s

theorem evals_of_runOnce {arg : List UInt8} {s' : State N} {r : Int} (h : runOnce t arg s = some (r, s')) :
    (findSum [arg] []).Evals ((kernel N).answers t) s r s' :=
  Prog.evals_of_eval (fun _ _ _ _ he => ⟨1, he⟩) _ h

/-- `find_sum 7` where there is no `result.txt`. -/
theorem result_exact_seven : ∃ r s', (findSum [[55]] []).Evals ((kernel 1).answers 0) (oneFile 1 false).mem r s' ∧
    ∃ i, lookup s' 0 resultTxt = some i ∧ (s'.ino i).data = [55, newline] := by
  have he : (runOnce 0 [55] (oneFile 1 false).mem).map Prod.fst = some 2 := by decide +kernel
  obtain ⟨⟨r, s'⟩, he, rfl⟩ := Option.map_eq_some_iff.1 he
  have hsum : inputSum [[55]] [] = 7 := by decide
  have hold : oldResult (oneFile 1 false).mem 0 = [] := by decide +kernel
  obtain ⟨i, hi, hdata⟩ := (result_exact_iff [[55]] [] (by rw [hsum]; decide) sound_oneFile (evals_of_runOnce he)
    (by decide)).2 (by rw [hold]; exact zero_le)
  refine ⟨2, s', evals_of_runOnce he, i, hi, hdata.trans ?_⟩
  rw [hsum]
  simp [decimal]

/-- `find_sum 12345` and then `find_sum 7`: the file holds the 7 and the end of the longer number. -/
theorem result_keeps_tail :
    ∃ s₁ s₂, (findSum [[49, 50, 51, 52, 53]] []).Evals ((kernel 1).answers 0) (oneFile 1 false).mem 6 s₁ ∧
    (findSum [[55]] []).Evals ((kernel 1).answers 0) s₁ 2 s₂ ∧
    ∃ i, lookup s₂ 0 resultTxt = some i ∧ (s₂.ino i).data = [55, newline, 51, 52, 53, newline] := by
  have h : ((runOnce 0 [49, 50, 51, 52, 53] (oneFile 1 false).mem).bind fun p => (runOnce 0 [55] p.2).map fun q =>
      (p.1, q.1, (lookup q.2 0 resultTxt).map fun i => (q.2.ino i).data)) =
        some (6, 2, some [55, newline, 51, 52, 53, newline]) := by decide +kernel
  obtain ⟨⟨r₁, s₁⟩, h₁, h⟩ := Option.bind_eq_some_iff.1 h
  obtain ⟨⟨r₂, s₂⟩, h₂, h⟩ := Option.map_eq_some_iff.1 h
  simp only [Prod.mk.injEq] at h
  obtain ⟨rfl, rfl, h⟩ := h
  obtain ⟨i, hi, hdata⟩ := Option.map_eq_some_iff.1 h
  exact ⟨s₁, s₂, evals_of_runOnce h₁, evals_of_runOnce h₂, i, hi, hdata⟩

end Xv6.User
