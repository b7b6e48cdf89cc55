/-
Path names (`skipelem` and `namex` of `fs.c`). In the source a pointer goes through the path and one buffer of `DIRSIZ`
bytes gets the name of each element, with a NUL only if it is shorter; what `dirlookup` sees of it is the element.
The elements are the parts of the path between slashes, and what `namex` comes to is the fold of lookups over them.
-/
import Xv6.Base.Bytes
import Xv6.Fs.Entries
import Xv6.Fs.Path

namespace Xv6.Fs

open Base Function

/-! ## Elements -/

/-- The parts of a path between slashes that are not empty. -/
def components (path : List UInt8) : List (List UInt8) := (path.splitOn slash).filter (· ≠ [])

theorem components_slash (path : List UInt8) : components (slash :: path) = components path := by
  unfold components
  rw [List.splitOn, List.splitOnP_cons_eq_if_modifyHead, if_pos (beq_self_eq_true slash),
    List.filter_cons_of_neg (by simp)]
  rfl

theorem components_slashes {ss : List UInt8} (h : ∀ b ∈ ss, b = slash) (path : List UInt8) :
    components (ss ++ path) = components path := by
  induction ss with
  | nil => rfl
  | cons b ss ih =>
    obtain ⟨rfl, hss⟩ := List.forall_mem_cons.1 h
    rw [List.cons_append, components_slash, ih hss]

theorem components_word {w r : List UInt8} (hw : w ≠ []) (hws : ∀ b ∈ w, b ≠ slash) (hr : ∀ b ∈ r.head?, b = slash) :
    components (w ++ r) = w :: components r := by
  have hno : ∀ b ∈ w, (b == slash) = false := fun b hb => beq_eq_false_iff_ne.2 (hws b hb)
  cases r with
  | nil =>
    unfold components
    rw [List.append_nil, List.splitOn, List.splitOnP_eq_singleton hno, List.filter_cons_of_pos (by simpa using hw)]
    rfl
  | cons c r =>
    obtain rfl := hr c rfl
    rw [components_slash]
    unfold components
    rw [List.splitOn, List.splitOnP_append_cons_of_forall_mem hno slash (beq_self_eq_true slash),
      List.filter_cons_of_pos (by simpa using hw)]
    rfl

variable {path : List UInt8}

theorem elems_of_none (h : skipelem path = none) : elems path = [] := by
  unfold elems
  cases path.length with
  | zero => rfl
  | succ k => rw [elemsLoop, h]

variable {rest : List UInt8} {name : Name}

theorem skipelem_rest (h : skipelem path = some (name, rest)) :
    ∃ l, List.Sublist l path ∧ rest = l.dropWhile (· = slash) := by
  unfold skipelem at h
  split at h
  · cases h
  · rename_i c cs hp
    have hsub : List.Sublist (c :: cs) path := hp ▸ List.dropWhile_sublist _
    exact ⟨_, (List.dropWhile_sublist _).trans hsub, (Prod.mk.inj (Option.some.inj h)).2.symm⟩

/-- The source looks for the last element by what is left of the path. -/
theorem elems_rest (h : skipelem path = some (name, rest)) : elems rest = [] ↔ rest = [] := by
  refine ⟨fun hnil => ?_, fun hnil => hnil ▸ rfl⟩
  by_contra hne
  have hhead : ∃ b ∈ rest, b ≠ slash := by
    obtain ⟨l, -, rfl⟩ := skipelem_rest h
    have hd := List.head?_dropWhile_not (fun b : UInt8 => decide (b = slash)) l
    obtain ⟨a, l', ha⟩ := List.exists_cons_of_ne_nil hne
    rw [ha] at hd ⊢
    exact ⟨a, List.mem_cons_self, by simpa using hd⟩
  obtain ⟨ss, w, r, hrest, hss, hw, hws, hr⟩ := path_split hhead
  rw [hrest, elems_of_skipelem (skipelem_eq hss hw hws hr)] at hnil
  cases hnil

/-- `namex` takes the parts of the path one after the other, cut to `DIRSIZ` bytes. -/
theorem elems_eq_components :
    ∀ (n : Nat) (path : List UInt8), path.length ≤ n → elems path = (components path).map (·.take DIRSIZ)
  | 0, path, hn => by
    rw [List.length_eq_zero_iff.1 (Nat.le_zero.1 hn)]; rfl
  | n + 1, path, hn => by
    by_cases hp : ∃ b ∈ path, b ≠ slash
    · obtain ⟨ss, w, r, rfl, hss, hw, hws, hr⟩ := path_split hp
      have hdrop : components r = components (r.dropWhile (· = slash)) := by
        conv_lhs => rw [← List.takeWhile_append_dropWhile (p := fun b : UInt8 => decide (b = slash)) (l := r)]
        exact components_slashes (fun b hb => by simpa using List.mem_takeWhile_imp hb) _
      have hskip := skipelem_eq hss hw hws hr
      have hlen := skipelem_length hskip
      rw [elems_of_skipelem hskip, components_slashes hss, components_word hw hws hr, hdrop, List.map_cons,
        elems_eq_components n _ (by omega)]
    · have hall : ∀ b ∈ path, b = slash := fun b hb => by
        by_contra hne
        exact hp ⟨b, hb, hne⟩
      have h1 := components_slashes hall []
      rw [List.append_nil] at h1
      rw [h1, elems_of_none (skipelem_eq_none hp)]
      rfl

/-! ## The name buffer -/

/-- What `namecmp` and `strncpy` see of a name buffer. -/
def cname (name : Nat → UInt8) : Name := (toList name 0 DIRSIZ).takeWhile (· ≠ 0)

/-- `skipelem` with its buffer: the path behind the element, and the buffer with its name. -/
def skipelemBuf (path : List UInt8) (name : Nat → UInt8) : Option (List UInt8 × (Nat → UInt8)) :=
  match path.dropWhile (· = slash) with
  | [] => none
  | c :: cs =>
    let s := (c :: cs).takeWhile (· ≠ slash)
    let name :=
      if DIRSIZ ≤ s.length then paste name 0 DIRSIZ (ofList s)
      else update (paste name 0 s.length (ofList s)) s.length 0
    some (((c :: cs).dropWhile (· ≠ slash)).dropWhile (· = slash), name)

/-- The loop of `namex` with its pointer into the path and its buffer. -/
def namexBufLoop (parent : Bool) : Nat → Inum → List UInt8 → (Nat → UInt8) → M (Option (Inum × (Nat → UInt8)))
  | 0, _, _, _ => .op .panic Empty.elim
  | n + 1, ip, path, name =>
    match skipelemBuf path name with
    | none =>
      if parent then do
        iput ip
        return none
      else return some (ip, name)
    | some (path, name) => do
      ilock ip
      if (← stat ip).type ≠ .dir then do
        iunlockput ip
        return none
      else if parent = true ∧ path = [] then do
        -- stop one level early
        iunlock ip
        return some (ip, name)
      else
        match ← dirlookup ip (cname name) with
        | none => do
          iunlockput ip
          return none
        | some (_, next) => do
          iunlockput ip
          namexBufLoop parent n next path name

def namexBuf (parent : Bool) (path : List UInt8) (name : Nat → UInt8) : M (Option (Inum × (Nat → UInt8))) := do
  let ip ← start path
  namexBufLoop parent (path.length + 1) ip path name

variable {s : List UInt8}

section

variable {parent : Bool}

theorem cname_short {name : Nat → UInt8} (h0 : 0 ∉ s) (h : s.length < DIRSIZ) :
    cname (update (paste name 0 s.length (ofList s)) s.length 0) = s := by
  obtain ⟨m, hm⟩ : ∃ m, DIRSIZ = s.length + (1 + m) := ⟨DIRSIZ - s.length - 1, by omega⟩
  generalize hb : update (paste name 0 s.length (ofList s)) s.length 0 = b
  have hhead : toList b 0 s.length = s := by
    refine List.ext_getElem (length_toList ..) fun j h1 h2 => ?_
    rw [getElem_toList, Nat.zero_add, ← hb, update_of_ne (Nat.ne_of_lt h2), paste_in zero_le (by omega), Nat.sub_zero,
      ofList_eq h2]
  have hnul : b s.length = 0 := by
    rw [← hb, update_self]
  have hall : ∀ x ∈ s, decide (x ≠ 0) = true := fun x hx => decide_eq_true fun hx0 => h0 (by rwa [← hx0])
  rw [cname, hm, toList_add, toList_add, hhead, List.takeWhile_append_of_pos hall]
  have hone : toList b (0 + s.length) 1 = [0] := by
    show [b (0 + s.length + 0)] = [0]; rw [add_zero, zero_add, hnul]
  rw [hone, List.singleton_append, List.takeWhile_cons_of_neg (by decide), List.append_nil]

theorem cname_long {name : Nat → UInt8} (h0 : 0 ∉ s) (h : DIRSIZ ≤ s.length) :
    cname (paste name 0 DIRSIZ (ofList s)) = s.take DIRSIZ := by
  have htake : toList (paste name 0 DIRSIZ (ofList s)) 0 DIRSIZ = s.take DIRSIZ := by
    refine List.ext_getElem (by rw [length_toList, List.length_take, min_eq_left h]) fun j h1 h2 => ?_
    rw [length_toList] at h1
    rw [getElem_toList, paste_in zero_le (by omega), Nat.zero_add, Nat.sub_zero,
      ofList_eq (by omega), List.getElem_take]
  rw [cname, htake, List.takeWhile_eq_self_iff]
  intro x hx
  exact decide_eq_true fun hx0 => h0 (hx0 ▸ List.mem_of_mem_take hx)

/-- What is left in the buffer does not matter. -/
theorem skipelemBuf_eq (h0 : 0 ∉ path) (name : Nat → UInt8) :
    (skipelemBuf path name).map (fun r => (cname r.2, r.1)) = skipelem path := by
  unfold skipelemBuf skipelem
  have hmem : ∀ x ∈ path.dropWhile (· = slash), x ∈ path := fun x hx => (List.dropWhile_sublist _).subset hx
  cases hp : path.dropWhile (· = slash) with
  | nil => rfl
  | cons c cs =>
    rw [hp] at hmem
    have hs0 : 0 ∉ (c :: cs).takeWhile (· ≠ slash) := fun hx => h0 (hmem 0 ((List.takeWhile_sublist _).subset hx))
    dsimp only [Option.map_some]
    generalize (c :: cs).takeWhile (· ≠ slash) = s at hs0 ⊢
    by_cases hl : DIRSIZ ≤ s.length
    · rw [if_pos hl, cname_long hs0 hl]
    · rw [if_neg hl, cname_short hs0 (by omega), List.take_of_length_le (by omega)]

theorem skipelemBuf_some (h0 : 0 ∉ path) {name name' : Nat → UInt8} {rest : List UInt8}
    (h : skipelemBuf path name = some (rest, name')) :
    elems path = cname name' :: elems rest ∧ (elems rest = [] ↔ rest = []) ∧ rest.length < path.length ∧ 0 ∉ rest := by
  have hskip := skipelemBuf_eq h0 name
  rw [h] at hskip
  have hskip := hskip.symm
  obtain ⟨l, hsub, hrest⟩ := skipelem_rest hskip
  refine ⟨elems_of_skipelem hskip, elems_rest hskip, skipelem_length hskip, fun hx => h0 ?_⟩
  dsimp only at hrest
  rw [hrest] at hx
  exact ((List.dropWhile_sublist _).trans hsub).subset hx

/-- What the caller gets: the inode, and the name if it asked for the parent. -/
def result (parent : Bool) (r : Inum × (Nat → UInt8)) : Inum × Name := (r.1, if parent then cname r.2 else [])

theorem namexBufLoop_eq : ∀ (n : Nat) (ip : Inum) (path : List UInt8) (name : Nat → UInt8), 0 ∉ path → path.length < n →
    (namexBufLoop parent n ip path name >>= fun r => pure (r.map (result parent))) = namexLoop parent ip (elems path)
  | 0, _, _, _, _, h => by omega
  | n + 1, ip, path, name, h0, hn => by
    rw [namexBufLoop]
    cases hs : skipelemBuf path name with
    | none =>
      have hskip := skipelemBuf_eq h0 name
      rw [hs] at hskip
      rw [elems_of_none hskip.symm, namexLoop]
      cases parent <;> rfl
    | some p =>
      obtain ⟨rest, name'⟩ := p
      obtain ⟨helems, hlast, hlen, h0'⟩ := skipelemBuf_some h0 hs
      rw [helems, namexLoop, Prog.bind_assoc]
      refine congrArg _ (funext fun _ => ?_)
      rw [Prog.bind_assoc]
      refine congrArg _ (funext fun st => ?_)
      by_cases hd : st.type ≠ .dir
      · rw [if_pos hd, if_pos hd]; rfl
      · rw [if_neg hd, if_neg hd]
        by_cases hp : parent = true ∧ rest = []
        · rw [if_pos hp, if_pos ⟨hp.1, hlast.2 hp.2⟩, Prog.bind_assoc]
          refine congrArg _ (funext fun _ => ?_)
          rw [hp.1]
          rfl
        · rw [if_neg hp, if_neg fun hc => hp ⟨hc.1, hlast.1 hc.2⟩, Prog.bind_assoc]
          refine congrArg _ (funext fun r => ?_)
          cases r with
          | none => rfl
          | some q =>
            obtain ⟨off, next⟩ := q
            dsimp only
            rw [Prog.bind_assoc]
            exact congrArg _ (funext fun _ => namexBufLoop_eq n next rest name' h0' (by omega))

/-- The source's `namex` and the one over the elements of the path are one program. -/
theorem namexBuf_eq (h0 : 0 ∉ path) (name : Nat → UInt8) :
    (namexBuf parent path name >>= fun r => pure (r.map (result parent))) = namex parent path := by
  rw [namexBuf, namex, Prog.bind_assoc]
  exact congrArg _ (funext fun ip => namexBufLoop_eq _ ip path name h0 (Nat.lt_succ_self _))

theorem wp_namexBuf {C : Type} {L : Logic Op Op.Ret C} {Q : Option (Inum × Name) → C → Prop} {c : C} (h0 : 0 ∉ path)
    (name : Nat → UInt8) (h : L.wpProg Q (namex parent path) c) :
    L.wpProg (fun r c' => Q (r.map (result parent)) c') (namexBuf parent path name) c := by
  rw [← namexBuf_eq h0 name] at h
  exact Logic.wp_bind.1 h

end

/-! ## The fold of lookups -/

/-- A name is looked up in an inode, which has to be a directory. -/
def lookupIn (ino : Inum → Inode) (d : Inum) (name : Name) : Option Inum :=
  if (ino d).type = .dir then binding (ino d).ents name else none

def walk (ino : Inum → Inode) (ip : Inum) (names : List Name) : Option Inum := names.foldlM (lookupIn ino) ip

/-- The directory of the last name, and that name. -/
def walkParent (ino : Inum → Inode) (ip : Inum) (names : List Name) : Option (Inum × Name) := do
  let last ← names.getLast?
  let d ← walk ino ip names.dropLast
  if (ino d).type = .dir then some (d, last) else none

section

variable {ino : Inum → Inode}

theorem walk_cons (ip : Inum) (name : Name) (rest : List Name) :
    walk ino ip (name :: rest) = (lookupIn ino ip name).bind fun next => walk ino next rest := rfl

theorem resolve_eq_walk :
    ∀ (names : List Name) (ip : Inum), resolve ino false ip names = (walk ino ip names).map fun i => (i, [])
  | [], _ => rfl
  | name :: rest, ip => by
    rw [resolve, walk_cons, lookupIn, binding]
    by_cases hd : (ino ip).type = .dir
    · rw [if_neg (not_not.2 hd), if_neg (by simp), if_pos hd]
      cases findEnt name (ino ip).ents 0 with
      | none => rfl
      | some p => exact resolve_eq_walk rest p.2
    · rw [if_pos hd, if_neg hd]; rfl

theorem resolve_eq_walkParent : ∀ (names : List Name) (ip : Inum), resolve ino true ip names = walkParent ino ip names
  | [], _ => rfl
  | [name], ip => by
    rw [resolve]
    by_cases hd : (ino ip).type = .dir
    · rw [if_neg (not_not.2 hd), if_pos ⟨rfl, rfl⟩]; exact (if_pos hd).symm
    · rw [if_pos hd]; exact (if_neg hd).symm
  | name :: name' :: rest, ip => by
    have hcons : walkParent ino ip (name :: name' :: rest) =
        (lookupIn ino ip name).bind fun next => walkParent ino next (name' :: rest) := by
      unfold walkParent
      rw [List.getLast?_cons_cons, List.dropLast_cons_cons, walk_cons]
      cases (name' :: rest).getLast? with
      | none => cases lookupIn ino ip name <;> rfl
      | some last => exact Option.bind_assoc _ _ _
    rw [resolve, hcons, lookupIn, binding]
    by_cases hd : (ino ip).type = .dir
    · rw [if_neg (not_not.2 hd), if_neg (by simp), if_pos hd]
      cases findEnt name (ino ip).ents 0 with
      | none => rfl
      | some p => exact resolve_eq_walkParent (name' :: rest) p.2
    · rw [if_pos hd, if_neg hd]; rfl

end

end Xv6.Fs
