/-
What a path names. `resolve` is `namex` on a directory tree at rest, as a function of the inodes
alone; `elems_append` says what becomes of the elements of a path when a suffix is written behind
it.
-/
import Xv6.Fs.Calls
import Mathlib.Data.List.TakeWhile

namespace Xv6.Fs

/-! ## Elements -/

/-- A path whose next element is `w`: slashes, the bytes of `w`, and the end or another slash. -/
theorem skipelem_eq {ss w r : List UInt8} (hss : ∀ b ∈ ss, b = slash) (hw : w ≠ []) (hws : ∀ b ∈ w, b ≠ slash)
    (hr : ∀ b ∈ r.head?, b = slash) :
    skipelem (ss ++ (w ++ r)) = some (w.take DIRSIZ, r.dropWhile (· = slash)) := by
  obtain ⟨a, w, rfl⟩ := List.exists_cons_of_ne_nil hw
  have ha : a ≠ slash := hws a (.head _)
  have hskip : (ss ++ (a :: w ++ r)).dropWhile (· = slash) = a :: (w ++ r) := by
    rw [List.dropWhile_append_of_pos (by simpa using hss), List.cons_append,
      List.dropWhile_cons_of_neg (by simpa using ha)]
  have hrest : r.takeWhile (· ≠ slash) = [] ∧ r.dropWhile (· ≠ slash) = r := by
    cases r with
    | nil => exact ⟨rfl, rfl⟩
    | cons b r => simp [hr b rfl]
  have hall : ∀ b ∈ a :: w, decide (b ≠ slash) = true := by simpa using hws
  unfold skipelem
  rw [hskip]
  dsimp only
  rw [← List.cons_append, List.takeWhile_append_of_pos hall, List.dropWhile_append_of_pos hall, hrest.1, hrest.2,
    List.append_nil]

variable {path : List UInt8}

theorem path_split (h : ∃ b ∈ path, b ≠ slash) :
    ∃ ss w r, path = ss ++ (w ++ r) ∧ (∀ b ∈ ss, b = slash) ∧ w ≠ [] ∧ (∀ b ∈ w, b ≠ slash) ∧
      ∀ b ∈ r.head?, b = slash := by
  refine ⟨path.takeWhile (· = slash), (path.dropWhile (· = slash)).takeWhile (· ≠ slash),
    (path.dropWhile (· = slash)).dropWhile (· ≠ slash), ?_, fun b hb => ?_,
    fun hw => ?_, fun b hb => ?_, fun b hb => ?_⟩
  · rw [List.takeWhile_append_dropWhile, List.takeWhile_append_dropWhile]
  · simpa using List.mem_takeWhile_imp hb
  · obtain ⟨b, hb, hne⟩ := h
    rcases hp : path.dropWhile (· = slash) with _ | ⟨a, as⟩
    · exact hne (by simpa using List.dropWhile_eq_nil_iff.1 hp b hb)
    · have ha := List.head?_dropWhile_not (fun b : UInt8 => decide (b = slash)) path
      rw [hp] at ha hw
      simp only [List.head?_cons, decide_eq_false_iff_not] at ha
      simp [ha] at hw
  · simpa using List.mem_takeWhile_imp hb
  · have := List.head?_dropWhile_not (fun b : UInt8 => decide (b ≠ slash)) (path.dropWhile (· = slash))
    rw [hb] at this
    simpa using this

theorem skipelem_eq_none (h : ¬ ∃ b ∈ path, b ≠ slash) : skipelem path = none := by
  have hp : path.dropWhile (· = slash) = [] := by
    rw [List.dropWhile_eq_nil_iff]
    intro b hb
    by_contra hne
    exact h ⟨b, hb, by simpa using hne⟩
  unfold skipelem
  rw [hp]

variable {name : Name}

theorem skipelem_length {rest : List UInt8} (h : skipelem path = some (name, rest)) :
    rest.length < path.length := by
  by_cases hp : ∃ b ∈ path, b ≠ slash
  · obtain ⟨ss, w, r, rfl, hss, hw, hws, hr⟩ := path_split hp
    rw [skipelem_eq hss hw hws hr] at h
    cases h
    have := List.length_dropWhile_le (fun b : UInt8 => decide (b = slash)) r
    have := List.length_pos_iff.2 hw
    simp only [List.length_append]
    omega
  · rw [skipelem_eq_none hp] at h; cases h

theorem elemsLoop_fuel : ∀ (n m : Nat) (path : List UInt8), path.length ≤ n → path.length ≤ m →
    elemsLoop n path = elemsLoop m path
  | 0, 0, _, _, _ => rfl
  | 0, m + 1, path, hn, _ => by
    rw [List.length_eq_zero_iff.1 (Nat.le_zero.1 hn)]; rfl
  | n + 1, 0, path, _, hm => by
    rw [List.length_eq_zero_iff.1 (Nat.le_zero.1 hm)]; rfl
  | n + 1, m + 1, path, hn, hm => by
    unfold elemsLoop
    split
    · rfl
    · rename_i name rest hs
      have := skipelem_length hs
      rw [elemsLoop_fuel n m rest (by omega) (by omega)]

theorem elems_of_skipelem {rest : List UInt8} (h : skipelem path = some (name, rest)) :
    elems path = name :: elems rest := by
  have hlen := skipelem_length h
  obtain ⟨n, hn⟩ : ∃ n, path.length = n + 1 := ⟨path.length - 1, by omega⟩
  unfold elems
  rw [hn, elemsLoop, h]
  dsimp only
  rw [elemsLoop_fuel n rest.length rest (by omega) le_rfl]

/-- A suffix without slashes goes to the last element of a path that does not end in a slash. -/
theorem elems_append {suf : List UInt8} (hsuf : ∀ b ∈ suf, b ≠ slash) {b : UInt8} (hb : b ≠ slash) :
    ∀ (n : Nat) (path : List UInt8), path.length ≤ n → path.getLast? = some b →
      ∃ init w, elems path = init ++ [w.take DIRSIZ] ∧ elems (path ++ suf) = init ++ [(w ++ suf).take DIRSIZ]
  | 0, path, hn, hlast => by
    rw [List.length_eq_zero_iff.1 (Nat.le_zero.1 hn)] at hlast; cases hlast
  | n + 1, path, hn, hlast => by
    obtain ⟨ss, w, r, rfl, hss, hw, hws, hr⟩ := path_split ⟨b, List.mem_of_getLast? hlast, hb⟩
    rcases hr' : r with _ | ⟨c, cs⟩
    · -- the last element
      subst hr'
      refine ⟨[], w, ?_, ?_⟩
      · rw [elems_of_skipelem (skipelem_eq hss hw hws hr)]; rfl
      · have hsplit : ss ++ (w ++ []) ++ suf = ss ++ (w ++ suf ++ []) := by simp
        rw [hsplit, elems_of_skipelem (skipelem_eq hss (by simp [hw]) ?_ (by simp))]
        · rfl
        · intro b hb
          rcases List.mem_append.1 hb with hb | hb
          · exact hws b hb
          · exact hsuf b hb
    · -- the suffix goes to the rest of the path
      have hrlast : r.getLast? = some b := by
        have hrne : r ≠ [] := by simp [hr']
        rw [← hlast, List.getLast?_append_of_ne_nil _ (by simp [hrne]), List.getLast?_append_of_ne_nil _ hrne]
      have hne : r.dropWhile (· = slash) ≠ [] := fun h0 => by
        have := List.dropWhile_eq_nil_iff.1 h0 b (List.mem_of_getLast? hrlast)
        exact hb (by simpa using this)
      have hdlast : (r.dropWhile (· = slash)).getLast? = some b := by
        rw [← List.takeWhile_append_dropWhile (p := fun b : UInt8 => decide (b = slash)) (l := r),
          List.getLast?_append_of_ne_nil _ hne] at hrlast
        exact hrlast
      have hlen : (r.dropWhile (· = slash)).length ≤ n := by
        have := List.length_dropWhile_le (fun b : UInt8 => decide (b = slash)) r
        have := List.length_pos_iff.2 hw
        simp only [List.length_append] at hn
        omega
      obtain ⟨init, v, h1, h2⟩ := elems_append hsuf hb n _ hlen hdlast
      refine ⟨w.take DIRSIZ :: init, v, ?_, ?_⟩
      · rw [← hr', elems_of_skipelem (skipelem_eq hss hw hws hr), h1]; rfl
      · have hsplit : ss ++ (w ++ r) ++ suf = ss ++ (w ++ (r ++ suf)) := by simp
        have hdrop : (r ++ suf).dropWhile (· = slash) = r.dropWhile (· = slash) ++ suf := by
          rw [List.dropWhile_append, if_neg (by simpa using hne)]
        rw [← hr', hsplit, elems_of_skipelem (skipelem_eq hss hw hws (by rw [hr'] at hr ⊢; exact hr)), hdrop, h2]
        rfl

/-! ## What a path names -/

/-- `namex` on inodes that do not change. -/
def resolve (ino : Inum → Inode) (parent : Bool) : Inum → List Name → Option (Inum × Name)
  | ip, [] => if parent then none else some (ip, [])
  | ip, name :: rest =>
    if (ino ip).type ≠ .dir then none
    else if parent = true ∧ rest = [] then some (ip, name)
    else
      match findEnt name (ino ip).ents 0 with
      | none => none
      | some (_, next) => resolve ino parent next rest

/-- The inodes whose locks `namex` takes. -/
def visited (ino : Inum → Inode) (parent : Bool) : Inum → List Name → List Inum
  | ip, [] => if parent then [ip] else []
  | ip, name :: rest =>
    if (ino ip).type ≠ .dir ∨ parent = true ∧ rest = [] then [ip]
    else
      match findEnt name (ino ip).ents 0 with
      | none => [ip]
      | some (_, next) => ip :: visited ino parent next rest

variable {r : Inum × Name} {v w : Name}

section

variable {ino : Inum → Inode} {parent : Bool} {ip next : Inum} {rest : List Name} {off : Nat}

theorem resolve_step (hd : (ino ip).type = .dir) (hp : ¬ (parent = true ∧ rest = []))
    (hf : findEnt name (ino ip).ents 0 = some (off, next)) :
    resolve ino parent ip (name :: rest) = resolve ino parent next rest := by
  simp only [resolve]
  rw [if_neg (by simp [hd]), if_neg hp, hf]

theorem resolve_cons (h : resolve ino parent ip (name :: rest) = some r) :
    (ino ip).type = .dir ∧ (parent = true ∧ rest = [] ∧ r = (ip, name) ∨ ¬ (parent = true ∧ rest = []) ∧
      ∃ off next, findEnt name (ino ip).ents 0 = some (off, next) ∧ resolve ino parent next rest = some r) := by
  simp only [resolve] at h
  split at h
  · cases h
  · rename_i hd
    refine ⟨by simpa using hd, ?_⟩
    split at h
    · rename_i hp; cases h; exact .inl ⟨hp.1, hp.2, rfl⟩
    · rename_i hp
      split at h
      · cases h
      · rename_i off next hf; exact .inr ⟨hp, off, next, hf, h⟩

theorem dir_of_resolve :
    ∀ {names : List Name} {ip : Inum}, resolve ino true ip names = some r → (ino r.1).type = .dir
  | [], _, h => by cases h
  | name :: rest, ip, h => by
    obtain ⟨hd, ⟨-, -, rfl⟩ | ⟨-, off, next, -, h⟩⟩ := resolve_cons h
    · exact hd
    · exact dir_of_resolve h

theorem not_mem_visited {sip : Inum} (hsip : (ino sip).type ≠ .dir) (w' : Name) :
    ∀ (init : List Name) (ip : Inum), resolve ino false ip (init ++ [w]) = some (sip, v) →
      sip ∉ visited ino true ip (init ++ [w'])
  | [], ip, h => by
    have hne : sip ≠ ip := fun hs => hsip (hs ▸ (resolve_cons h).1)
    simpa [visited] using hne
  | a :: as, ip, h => by
    obtain ⟨hd, ⟨hp, -⟩ | ⟨-, off, next, hf, h⟩⟩ := resolve_cons h
    · cases hp
    · have hne : sip ≠ ip := fun hs => hsip (hs ▸ hd)
      have ih := not_mem_visited hsip w' as next h
      simp only [List.cons_append, visited, hf]
      split
      · simpa using hne
      · simp [hne, ih]

/-- The directory and the last element of a path; a file of that name there is what the path names. -/
theorem resolve_of_parent {dp : Inum} : ∀ (init : List Name) (ip : Inum),
    resolve ino true ip (init ++ [w]) = some (dp, v) →
      v = w ∧ (ino dp).type = .dir ∧
        ∀ off i, findEnt w (ino dp).ents 0 = some (off, i) → resolve ino false ip (init ++ [w]) = some (i, [])
  | [], ip, h => by
    obtain ⟨hd, ⟨-, -, heq⟩ | ⟨hp, -⟩⟩ := resolve_cons h
    · cases heq
      refine ⟨rfl, hd, fun off i hf => ?_⟩
      rw [List.nil_append, resolve_step hd (by simp) hf]
      rfl
    · exact absurd ⟨rfl, rfl⟩ hp
  | a :: as, ip, h => by
    obtain ⟨hd, ⟨-, hnil, -⟩ | ⟨-, off', next, hf, h⟩⟩ := resolve_cons h
    · simp at hnil
    · obtain ⟨hv, hdp, ih⟩ := resolve_of_parent as next h
      refine ⟨hv, hdp, fun off i hf' => ?_⟩
      rw [List.cons_append, resolve_step hd (by simp) hf]
      exact ih off i hf'

end

end Xv6.Fs
