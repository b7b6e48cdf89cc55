/-
The shell's search for completions. `find_and_send_completions` takes the last word of the line, reads
the entries of a directory and strings those that start with the word together in `matches_buf`, each
with a newline, `cd` before them if there is any entry at all. A string is the bytes before its NUL; a
name that fills `de.name` has none, so that comparing or copying it runs past the array, and nothing
keeps the matches inside the buffer. Where neither happens the result is the matching names in order.
-/
import Xv6.Console.Redraw
import Xv6.Fs.Disk

namespace Xv6.Shell

open Base Console
open Fs (DIRSIZ)

/-! ## Strings -/

/-- `struct dirent` with the whole array of the name, of which `Fs.Dirent` has what comes before a NUL. -/
structure RawDirent where
  inum : UInt16
  name : List UInt8
  size : name.length = DIRSIZ
  deriving DecidableEq

/-- A read past `de.name`, or a write past `matches_buf`. -/
inductive ShellFault
  | overrun
  | overflow
  deriving DecidableEq, Repr

/-- `strncmp(p, q, strlen(p)) == 0`, for a string `p` and an array `q`. -/
def strncmp : List UInt8 → List UInt8 → Except ShellFault Bool
  | [], _ => .ok true
  | _ :: _, [] => .error .overrun
  | c :: p, d :: q => if c = d then strncmp p q else .ok false

/-- The string in an array. -/
def cstr : List UInt8 → Except ShellFault (List UInt8)
  | [] => .error .overrun
  | d :: q => if d = 0 then .ok [] else do
    let s ← cstr q
    .ok (d :: s)

/-- `sizeof(matches_buf)`. -/
def MATCHES : Nat := 512

/-- `strcat(matches_buf, s)`. -/
def strcat (m s : List UInt8) : Except ShellFault (List UInt8) :=
  if m.length + s.length < MATCHES then .ok (m ++ s) else .error .overflow

/-- `"cd"`. -/
def cd : List UInt8 := [99, 100]

/-! ## The search -/

/-- The builtin is added once. -/
def addCd (isCd flag : Bool) (m : List UInt8) : Except ShellFault (List UInt8) :=
  if isCd = true ∧ flag = false then strcat m (cd ++ [newline]) else .ok m

/-- The name of an entry is added if it starts with `p`. -/
def addName (p : List UInt8) (de : RawDirent) (m : List UInt8) : Except ShellFault (List UInt8) := do
  let hit ← strncmp p de.name
  if hit = true then do
    let s ← cstr de.name
    let m ← strcat m s
    strcat m [newline]
  else .ok m

/-- The loop over the directory. -/
def collect (p : List UInt8) : List RawDirent → Bool → List UInt8 → Except ShellFault (List UInt8)
  | [], _, m => .ok m
  | de :: des, flag, m =>
    if de.inum = 0 then collect p des flag m
    else do
      let isCd ← strncmp p (cd ++ [0])
      let m ← addCd isCd flag m
      let m ← addName p de m
      collect p des (flag || isCd) m

/-- The two directories it searches. -/
inductive SearchDir
  | dot
  | root
  deriving DecidableEq, Repr

def searchDir (line : List UInt8) : SearchDir := if (cd ++ [space]).isPrefixOf line then .dot else .root

/-- `prefix`: the last word of the line, or of what follows `cd`. -/
def searchPrefix (line : List UInt8) : List UInt8 :=
  lastWord (if (cd ++ [space]).isPrefixOf line then line.drop 3 else line)

/-- `find_and_send_completions`: the argument of its call of `redraw_console`, if it makes one. -/
def findAndSendCompletions (line : List UInt8) (dir : SearchDir → Option (List RawDirent)) :
    Except ShellFault (Option (List UInt8)) :=
  match dir (searchDir line) with
  | none => .ok none
  | some des => do
    let m ← collect (searchPrefix line) des false []
    .ok (if m = [] then none else some m)

/-! ## What it finds -/

/-- The name of an entry up to its NUL. -/
def RawDirent.cname (de : RawDirent) : List UInt8 := de.name.takeWhile (· ≠ 0)

/-- The entries in use. -/
def live (des : List RawDirent) : List RawDirent := des.filter fun de => de.inum ≠ 0

/-- The names that start with `p`. -/
def found (p : List UInt8) (des : List RawDirent) : List (List UInt8) :=
  ((if live des = [] then [] else [cd]) ++ (live des).map RawDirent.cname).filter fun m => p.isPrefixOf m

/-- The search does not run past the name: it has a NUL, or differs from `p` before its end. -/
def Readable (p : List UInt8) (de : RawDirent) : Prop := 0 ∈ de.name ∨ ¬ p <+: de.name ∧ ¬ de.name <+: p

instance (p : List UInt8) (de : RawDirent) : Decidable (Readable p de) := inferInstanceAs (Decidable (_ ∨ _))

/-- `matches_buf`. -/
def joined (ms : List (List UInt8)) : List UInt8 := ms.flatMap (· ++ [newline])

theorem strncmp_eq :
    ∀ (p q : List UInt8), strncmp p q = if q <+: p ∧ q ≠ p then .error .overrun else .ok (decide (p <+: q))
  | [], q => by
    have hne : ¬ (q <+: [] ∧ q ≠ []) := fun h => h.2 (List.prefix_nil.1 h.1)
    rw [if_neg hne]
    simp [strncmp]
  | c :: p, [] => by simp [strncmp]
  | c :: p, d :: q => by
    rw [strncmp]
    by_cases hcd : c = d
    · subst hcd; rw [if_pos rfl, strncmp_eq p q]; simp
    · rw [if_neg hcd]
      have h1 : ¬ (d :: q) <+: (c :: p) := fun h => hcd (List.cons_prefix_cons.1 h).1.symm
      have h2 : ¬ (c :: p) <+: (d :: q) := fun h => hcd (List.cons_prefix_cons.1 h).1
      rw [if_neg fun h => h1 h.1, decide_eq_false h2]

theorem cstr_eq : ∀ q : List UInt8, cstr q = if 0 ∈ q then .ok (q.takeWhile (· ≠ 0)) else .error .overrun
  | [] => rfl
  | d :: q => by
    rw [cstr]
    by_cases h0 : d = 0
    · subst h0; simp
    · rw [if_neg h0, cstr_eq q]
      by_cases hq : 0 ∈ q
      · simp [hq, h0]
        rfl
      · have : ¬ 0 ∈ d :: q := by simp [hq, Ne.symm h0]
        rw [if_neg hq, if_neg this]
        rfl

variable {p : List UInt8}

theorem isPrefix_takeWhile {q : List UInt8} (h0 : 0 ∉ p) : p <+: q.takeWhile (· ≠ 0) ↔ p <+: q := by
  constructor
  · intro h; exact h.trans (List.takeWhile_prefix _)
  · rintro ⟨r, rfl⟩
    rw [List.takeWhile_append_of_pos]
    · exact List.prefix_append _ _
    · intro c hc
      simp only [decide_eq_true_eq, ne_eq]
      rintro rfl
      exact h0 hc

variable {m x : List UInt8}

theorem strcat_ok_iff {s : List UInt8} : strcat m s = .ok x ↔ x = m ++ s ∧ x.length < MATCHES := by
  unfold strcat
  constructor
  · intro h
    obtain ⟨hlt, h⟩ | ⟨-, h⟩ := ite_eq_iff.1 h
    · cases h; exact ⟨rfl, by rw [List.length_append]; exact hlt⟩
    · cases h
  · rintro ⟨rfl, hlt⟩; rw [if_pos (by rw [← List.length_append]; exact hlt)]

/-- The names of a list that start with `p`, as they stand in `matches_buf`. -/
def chosen (p : List UInt8) (ms : List (List UInt8)) : List UInt8 := joined (ms.filter fun m => p.isPrefixOf m)

theorem chosen_append (p : List UInt8) (ms ms' : List (List UInt8)) :
    chosen p (ms ++ ms') = chosen p ms ++ chosen p ms' := by
  rw [chosen, List.filter_append, joined, List.flatMap_append]; rfl

theorem chosen_singleton (p m : List UInt8) : chosen p [m] = if p <+: m then m ++ [newline] else [] := by
  unfold chosen joined
  by_cases h : p <+: m
  · simp [h]
  · simp [h]

variable {line : List UInt8}

section
variable (h0 : 0 ∉ p)
include h0

theorem strncmp_cd : strncmp p (cd ++ [0]) = .ok (decide (p <+: cd)) := by
  rw [strncmp_eq, if_neg]
  · congr 1
    exact decide_eq_decide.2 (isPrefix_takeWhile (q := cd ++ [0]) h0).symm
  · rintro ⟨h, -⟩; exact h0 (h.subset (by simp))

omit h0 in
theorem addCd_ok_iff {flag : Bool} (hm : m.length < MATCHES) :
    addCd (decide (p <+: cd)) flag m = .ok x ↔ x = m ++ chosen p (if flag then [] else [cd]) ∧ x.length < MATCHES := by
  unfold addCd
  by_cases hcd : p <+: cd ∧ flag = false
  · rw [if_pos ⟨decide_eq_true hcd.1, hcd.2⟩, strcat_ok_iff, hcd.2, if_neg (by decide), chosen_singleton, if_pos hcd.1]
  · have hnone : chosen p (if flag then [] else [cd]) = [] := by
      cases flag with
      | true => rfl
      | false => rw [if_neg (by decide), chosen_singleton, if_neg fun h => hcd ⟨h, rfl⟩]
    rw [if_neg fun h => hcd ⟨of_decide_eq_true h.1, h.2⟩, hnone, List.append_nil]
    constructor
    · intro h; cases h; exact ⟨rfl, hm⟩
    · rintro ⟨rfl, -⟩; rfl

theorem addName_ok_iff {de : RawDirent} (hm : m.length < MATCHES) :
    addName p de m = .ok x ↔ Readable p de ∧ x = m ++ chosen p [de.cname] ∧ x.length < MATCHES := by
  have hname : p <+: de.cname ↔ p <+: de.name := isPrefix_takeWhile h0
  rw [addName, strncmp_eq, chosen_singleton]
  by_cases hover : de.name <+: p ∧ de.name ≠ p
  · -- the comparison runs past the name
    rw [if_pos hover]
    constructor
    · nofun
    · rintro ⟨hz | ⟨-, hn⟩, -⟩
      · exact absurd (hover.1.subset hz) h0
      · exact absurd hover.1 hn
  rw [if_neg hover]
  by_cases hit : p <+: de.name
  · show (if decide (p <+: de.name) = true then _ else _) = _ ↔ _
    rw [if_pos (decide_eq_true hit), if_pos (hname.2 hit), cstr_eq]
    by_cases hz : 0 ∈ de.name
    · rw [if_pos hz]
      show (strcat m de.cname >>= fun m => strcat m [newline]) = _ ↔ _
      constructor
      · intro h
        obtain ⟨m', h1, h2⟩ := bind_eq_ok h
        obtain ⟨rfl, -⟩ := strcat_ok_iff.1 h1
        obtain ⟨rfl, hlt⟩ := strcat_ok_iff.1 h2
        exact ⟨.inl hz, List.append_assoc .., hlt⟩
      · rintro ⟨-, rfl, hlt⟩
        have hlt' : (m ++ de.cname).length < MATCHES := by
          simp only [List.length_append] at hlt ⊢; omega
        rw [strcat_ok_iff.2 ⟨rfl, hlt'⟩]
        exact strcat_ok_iff.2 ⟨(List.append_assoc ..).symm, hlt⟩
    · -- the copy runs past the name
      rw [if_neg hz]
      constructor
      · nofun
      · rintro ⟨hz' | ⟨hn, -⟩, -⟩
        · exact absurd hz' hz
        · exact absurd hit hn
  · show (if decide (p <+: de.name) = true then _ else _) = _ ↔ _
    rw [if_neg (by simpa using hit), if_neg (mt hname.1 hit), List.append_nil]
    have hread : Readable p de := by
      refine .inr ⟨hit, fun hn => hit ?_⟩
      have heq : de.name = p := by_contra fun hne => hover ⟨hn, hne⟩
      exact ⟨[], by rw [List.append_nil, heq]⟩
    constructor
    · intro h; cases h; exact ⟨hread, rfl, hm⟩
    · rintro ⟨-, rfl, -⟩; rfl

/-- The loop gathers the names in use that start with `p`, and `cd` before them. -/
theorem collect_ok_iff : ∀ (des : List RawDirent) {flag : Bool} {m x : List UInt8}, m.length < MATCHES →
    (collect p des flag m = .ok x ↔ (∀ de ∈ live des, Readable p de) ∧
      x = m ++ chosen p ((if flag ∨ live des = [] then [] else [cd]) ++ (live des).map RawDirent.cname) ∧
      x.length < MATCHES)
  | [], flag, m, x, hm => by
    have hnil : chosen p ((if (flag : Prop) ∨ live [] = [] then [] else [cd]) ++ (live []).map RawDirent.cname) =
        [] := by
      rw [if_pos (.inr rfl)]; rfl
    rw [hnil, List.append_nil]
    constructor
    · intro h; cases h; exact ⟨nofun, rfl, hm⟩
    · rintro ⟨-, rfl, -⟩; rfl
  | de :: des, flag, m, x, hm => by
    rw [collect]
    by_cases hi : de.inum = 0
    · have hlive : live (de :: des) = live des := List.filter_cons_of_neg (by simp [hi])
      rw [if_pos hi, hlive]
      exact collect_ok_iff des hm
    · have hlive : live (de :: des) = de :: live des := List.filter_cons_of_pos (by simp [hi])
      rw [if_neg hi, hlive, strncmp_cd h0]
      -- behind the first entry in use the builtin has been added, or does not start with `p`
      have hrest : chosen p ((if ((flag || decide (p <+: cd)) : Prop) ∨ live des = [] then [] else [cd]) ++
          (live des).map RawDirent.cname) = chosen p ((live des).map RawDirent.cname) := by
        rw [chosen_append]
        refine List.append_left_eq_self.2 ?_
        split
        · rfl
        · rename_i hn; rw [chosen_singleton, if_neg fun hcd => hn (.inl (by simp [hcd]))]
      have hfirst : chosen p ((if (flag : Prop) ∨ de :: live des = [] then [] else [cd]) ++ (de :: live des).map
          RawDirent.cname) = chosen p (if flag then [] else [cd]) ++ chosen p [de.cname] ++ chosen p
          ((live des).map RawDirent.cname) := by
        have hcons := chosen_append p [de.cname] ((live des).map RawDirent.cname)
        rw [List.singleton_append] at hcons
        rw [chosen_append, List.map_cons, hcons, List.append_assoc]
        simp
      rw [hfirst]
      show (addCd (decide (p <+: cd)) flag m >>= fun m => addName p de m >>= fun m =>
        collect p des (flag || decide (p <+: cd)) m) = _ ↔ _
      constructor
      · intro h
        obtain ⟨m₁, h₁, h⟩ := bind_eq_ok h
        obtain ⟨rfl, hm₁⟩ := (addCd_ok_iff hm).1 h₁
        obtain ⟨m₂, h₂, h⟩ := bind_eq_ok h
        obtain ⟨hread, rfl, hm₂⟩ := (addName_ok_iff h0 hm₁).1 h₂
        obtain ⟨hall, rfl, hx⟩ := (collect_ok_iff des hm₂).1 h
        rw [hrest] at hx ⊢
        refine ⟨?_, by simp only [List.append_assoc], hx⟩
        intro d hd
        rcases List.mem_cons.1 hd with rfl | hd
        · exact hread
        · exact hall d hd
      · rintro ⟨hall, rfl, hx⟩
        have hm₂ : (m ++ chosen p (if flag then [] else [cd]) ++ chosen p [de.cname]).length < MATCHES := by
          simp only [List.length_append] at hx ⊢; omega
        have hm₁ : (m ++ chosen p (if flag then [] else [cd])).length < MATCHES := by
          simp only [List.length_append] at hx ⊢; omega
        rw [(addCd_ok_iff hm).2 ⟨rfl, hm₁⟩]
        show (addName p de _ >>= _) = _
        rw [(addName_ok_iff h0 hm₁).2 ⟨hall de (.head _), rfl, hm₂⟩]
        refine (collect_ok_iff des hm₂).2 ⟨fun d hd => hall d (.tail _ hd), ?_, hx⟩
        rw [hrest]
        simp only [List.append_assoc]

theorem collect_found_iff {des : List RawDirent} : collect p des false [] = .ok x ↔
    (∀ de ∈ live des, Readable p de) ∧ x = joined (found p des) ∧ x.length < MATCHES := by
  rw [collect_ok_iff h0 des (m := []) (Nat.zero_lt_succ 511), List.nil_append, chosen, found]
  simp only [Bool.false_eq_true, false_or]

omit h0 in
theorem joined_eq_nil {ms : List (List UInt8)} : joined ms = [] ↔ ms = [] := by
  cases ms with
  | nil => simp [joined]
  | cons m ms => simp [joined]

/-- The call of `redraw_console`: a directory that opens, names the search can read, and matches that
fit the buffer. -/
theorem findAndSendCompletions_ok_iff (hp : searchPrefix line = p) {dir : SearchDir → Option (List RawDirent)}
    {str : List UInt8} : findAndSendCompletions line dir = .ok (some str) ↔
    ∃ des, dir (searchDir line) = some des ∧ (∀ de ∈ live des, Readable p de) ∧ found p des ≠ [] ∧
      str = joined (found p des) ∧ str.length < MATCHES := by
  unfold findAndSendCompletions
  rcases hdir : dir (searchDir line) with _ | des
  · constructor
    · nofun
    · rintro ⟨des, h, -⟩; cases h
  show (collect (searchPrefix line) des false [] >>= _) = _ ↔ _
  rw [hp]
  constructor
  · intro h
    obtain ⟨m, hm, h⟩ := bind_eq_ok h
    obtain ⟨hread, hx, hlt⟩ := (collect_found_iff h0).1 hm
    obtain ⟨-, h⟩ | ⟨hne, h⟩ := ite_eq_iff.1 (Except.ok.inj h)
    · cases h
    · cases h
      exact ⟨des, rfl, hread, fun hnil => hne (hx.trans (joined_eq_nil.2 hnil)), hx, hlt⟩
  · rintro ⟨_, h, hread, hne, rfl, hlt⟩
    cases h
    rw [(collect_found_iff h0).2 ⟨hread, rfl, hlt⟩]
    exact congrArg Except.ok (if_neg fun hnil => hne (joined_eq_nil.1 hnil))

end

/-! ## The list that is sent -/

/-- The matches with a newline each; nothing is sent where there is none. -/
def completions (p : List UInt8) (des : List RawDirent) : Option (List UInt8) :=
  if found p des = [] then none else some (joined (found p des))

theorem not_mem_searchPrefix {c : UInt8} (h : c ∉ line) : c ∉ searchPrefix line := by
  intro hc
  have hc := (List.rtakeWhile_suffix _ _).subset hc
  split at hc
  · exact h (List.mem_of_mem_drop hc)
  · exact h hc

theorem length_joined (ms : List (List UInt8)) : (joined ms).length = (ms.map (·.length + 1)).sum := by
  rw [joined, List.length_flatMap]; simp only [List.length_append, List.length_singleton]

/-- The list is exact, and stays in `matches_buf`, when every name in use has its terminator or differs from the prefix
before its end, and the matches with their newlines take less than the buffer. -/
theorem completions_exact_iff (line : List UInt8) (h0 : 0 ∉ line) (dir : SearchDir → List RawDirent) :
    findAndSendCompletions line (fun d => some (dir d)) = .ok (completions (searchPrefix line) (dir (searchDir line))) ↔
    (∀ de ∈ live (dir (searchDir line)), Readable (searchPrefix line) de) ∧
      ((found (searchPrefix line) (dir (searchDir line))).map (·.length + 1)).sum < MATCHES := by
  have hp : 0 ∉ searchPrefix line := not_mem_searchPrefix h0
  generalize hdes : dir (searchDir line) = des
  unfold findAndSendCompletions
  simp only [hdes]
  rw [← length_joined]
  constructor
  · intro h
    obtain ⟨m, hm, -⟩ := bind_eq_ok h
    obtain ⟨hread, rfl, hlt⟩ := (collect_found_iff hp).1 hm
    exact ⟨hread, hlt⟩
  · rintro ⟨hread, hlt⟩
    rw [(collect_found_iff hp).2 ⟨hread, rfl, hlt⟩]
    show Except.ok _ = _
    rw [completions]
    simp only [joined_eq_nil]

/-- An entry in use with a given name. -/
def named (name : List UInt8) : RawDirent := ⟨1, name.take DIRSIZ ++ List.replicate (DIRSIZ - name.length) 0, by
  simp only [List.length_append, List.length_take, List.length_replicate]; omega⟩

/-- `l` in a directory with `ls` and `wc`. -/
theorem completions_exact_ls : findAndSendCompletions [108] (fun _ => some [named [108, 115], named [119, 99]]) =
    .ok (some [108, 115, newline]) :=
  (completions_exact_iff [108] (by decide) fun _ => [named [108, 115], named [119, 99]]).2 (by decide)

/-- With nothing typed, one name of fourteen bytes is read past its end, and forty of thirteen are written past the
buffer. -/
theorem completions_leave_buffers :
    findAndSendCompletions [] (fun _ => some [named (List.replicate 14 97)]) = .error .overrun ∧
    findAndSendCompletions [] (fun _ => some (List.replicate 40 (named (List.replicate 13 97)))) =
      .error .overflow := by
  constructor
  · decide
  · decide +kernel

end Xv6.Shell
