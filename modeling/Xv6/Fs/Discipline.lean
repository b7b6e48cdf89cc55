/-
The system calls follow the rules: each has its precondition at the start of the call and ends with
no lock, outside a transaction and with nothing carried. The calls are taken bottom up, one lemma
for each function of the source; `Has` says what a process owns at a point.
-/
import Xv6.Fs.Inv

namespace Xv6.Fs

open Base Logic Function

variable {α : Type} {dup : Bool} {Q : α → Ctx → Prop} {c c' : Ctx} {i j d dip : Inum} {b parent : Bool}
  {L : Finset Inum} {R : List Inum} {ty : IType} {name : Name} {f : M Int} {minor r : Int} {omode : UInt32} {n : Nat}
  {bytes : List UInt8}

/-! ## Contexts along a call -/

namespace Ctx

theorem lock_unlock (hi : i ∉ c.locks) : (c.lock i).unlock i = c := by
  refine Ctx.ext rfl (Finset.erase_insert hi) rfl rfl
    (funext fun f => propext ⟨And.left, fun hf => ⟨hf, fun j hj => ?_⟩⟩)
  subst hj
  exact hi (c.pinned i j hf)

theorem free_put (hi : i ∉ c.locks) (hr : c.refs i = 1) : (((c.lock i).forget i).unlock i).put i = c.put i := by
  refine Ctx.ext rfl (Finset.erase_insert hi) rfl rfl
    (funext fun f => propext ⟨fun hf => ⟨hf.1.1.1, hf.2⟩, fun hf => ?_⟩)
  refine ⟨⟨⟨hf.1, fun hon => ?_⟩, fun j hj => ?_⟩, hf.2⟩
  · have := hf.2 hon; omega
  · subst hj; exact hi (c.pinned i j hf.1)

theorem addRef_put (hc : c.carried = []) : (c.addRef i).put i = c := by
  refine Ctx.ext rfl rfl ?_ (by simp [put, addRef, hc])
    (funext fun f => propext ⟨And.left, fun hf => ⟨hf, fun hon => ?_⟩⟩)
  · simp [put, drop, addRef]
  · have := c.held f hf
    rw [hon] at this
    simp only [addRef, update_self]
    omega

theorem put_le_move (hc : c.carried = []) (hi : 0 < c.refs i) : c.put i ≤ ((c.addRef j).put i).put j := by
  refine ⟨rfl, rfl, funext fun k => ?_, by
    simp [put, drop, addRef, hc], fun f hf => ⟨⟨hf.1, fun hon => ?_⟩, fun hon => ?_⟩⟩
  · simp only [put, drop, addRef, update_apply]; grind
  · have := hf.2 hon
    by_cases hij : i = j
    · subst hij; simp [addRef]; omega
    · simpa [addRef, hij] using this
  · have h0 := c.held f hf.1
    rw [hon] at h0
    by_cases hij : j = i
    · subst hij; have := hf.2 hon; simp [put, drop, addRef]; omega
    · simpa [put, drop, addRef, hij] using h0

end Ctx

/-- What a process owns: it is in a transaction or not, has locked `L` and has the references `R`. -/
structure Has (tx : Bool) (L : Finset Inum) (R : List Inum) (c : Ctx) : Prop where
  tx : c.tx = tx
  locks : c.locks = L
  carried : c.carried = []
  refs : ∀ i, R.count i ≤ c.refs i

/-- Between calls. -/
abbrev Idle : Ctx → Prop := Has false ∅ []

namespace Has

theorem monotone : Monotone (Has b L R) := fun _ _ h hc =>
  ⟨h.tx ▸ hc.tx, h.locks ▸ hc.locks, h.carried ▸ hc.carried, h.refs ▸ hc.refs⟩

theorem of_le (h : Has b L R c) (hle : c ≤ c') : Has b L R c' := monotone hle h

theorem pos (h : Has b L R c) (hi : i ∈ R) : 0 < c.refs i :=
  (List.count_pos_iff.2 hi).trans_le (h.refs i)

theorem setTx (h : Has b L R c) (b' : Bool) : Has b' L R (c.setTx b') := ⟨rfl, h.locks, h.carried, h.refs⟩

theorem lock (h : Has b L R c) (i : Inum) : Has b (insert i L) R (c.lock i) :=
  ⟨h.tx, congrArg (insert i) h.locks, h.carried, h.refs⟩

theorem unlock (h : Has b L R c) (i : Inum) : Has b (L.erase i) R (c.unlock i) :=
  ⟨h.tx, congrArg (Finset.erase · i) h.locks, h.carried, h.refs⟩

theorem addRef (h : Has b L R c) (i : Inum) : Has b L (i :: R) (c.addRef i) := by
  refine ⟨h.tx, h.locks, h.carried, fun j => ?_⟩
  have := h.refs j
  by_cases hj : j = i
  · subst hj; simp only [Ctx.addRef, List.count_cons_self, update_self]; omega
  · simpa [Ctx.addRef, hj, List.count_cons_of_ne (Ne.symm hj)] using this

theorem drop (h : Has b L (i :: R) c) : Has b L R (c.drop i) := by
  refine ⟨h.tx, h.locks, h.carried, fun j => ?_⟩
  have := h.refs j
  by_cases hj : j = i
  · subst hj
    simp only [List.count_cons_self] at this
    simp only [Ctx.drop, update_self]; omega
  · simpa [Ctx.drop, hj, List.count_cons_of_ne (Ne.symm hj)] using this

theorem put (h : Has b L (i :: R) c) : Has b L R (c.put i) :=
  ⟨h.tx, h.locks, by simp [Ctx.put, h.carried], h.drop.refs⟩

theorem swap (h : Has b L (i :: j :: R) c) : Has b L (j :: i :: R) c :=
  ⟨h.tx, h.locks, h.carried, fun k => (List.Perm.swap i j R).count_eq k ▸ h.refs k⟩

theorem idle (h : Has false ∅ R c) : Idle c := ⟨h.tx, h.locks, h.carried, fun _ => zero_le⟩

theorem learn (h : Has b L R c) (f : Fact) : Has b L R (c.learn f) := h.of_le (Ctx.le_learn c f)

theorem alloc (h : Has b L R c) (i : Inum) : Has b L R (c.alloc i) := h.of_le (Ctx.le_alloc c i)

theorem cut (h : Has b L R c) (d : Inum) : Has b L R (c.cut d) := ⟨h.tx, h.locks, h.carried, h.refs⟩

theorem found (h : Has b L R c) (d : Inum) (name : Name) (i : Inum) : Has b L R (c.found d name i) :=
  h.of_le (Ctx.le_found c d name i)

theorem known (h : Has b L R (c.learn (.type i ty))) (hi : i ∈ R) :
    (c.learn (.type i ty)).facts (.type i ty) :=
  .inr ⟨rfl, h.pos hi, fun _ _ he => nomatch he⟩

theorem ilock (h : Has b L R c) (i : Inum) (ty : IType) : Has b (insert i L) R ((c.lock i).learn (.type i ty)) :=
  (h.lock i).learn _

theorem ilock_only (h : Has b ∅ R c) (i : Inum) (ty : IType) : Has b {i} R ((c.lock i).learn (.type i ty)) :=
  h.ilock i ty

theorem iunlock_only (h : Has b {i} R c) : Has b ∅ R (c.unlock i) := Finset.erase_singleton i ▸ h.unlock i

theorem iunlockput_only (h : Has b {i} (i :: R) c) : Has b ∅ R ((c.unlock i).put i) := h.iunlock_only.put

theorem iunlock_first (h : Has b {j, i} R c) (hne : j ≠ i) : Has b {j} R (c.unlock i) := by
  have hL : ({j, i} : Finset Inum).erase i = {j} := by
    rw [Finset.pair_comm, Finset.erase_insert (by simpa using hne.symm)]
  exact hL ▸ h.unlock i

theorem iunlock_last (h : Has b {j, i} R c) (hne : j ≠ i) : Has b {i} R (c.unlock j) := by
  have hL : ({j, i} : Finset Inum).erase j = {i} := Finset.erase_insert (by simpa using hne)
  exact hL ▸ h.unlock j

end Has

/-- The rest of a call has its precondition. -/
abbrev Ends (dup : Bool) (p : M Int) (c : Ctx) : Prop := (discipline dup).wpProg (fun _ => Idle) p c

theorem ends_monotone (dup : Bool) (p : M Int) : Monotone (Ends dup p) :=
  monotone_wp (discipline_upward dup) (fun _ => Has.monotone) p

/-! ## Inodes -/

theorem mayWait_of_free (h : dup = true ∨ c.locks = ∅) (i : Inum) : c.MayWait dup i false :=
  h.imp_right fun h => .inr fun d hd => by simp [h] at hd

theorem op_spec {o : Op} {Q : o.Ret → Ctx → Prop} (h : c.wp dup o Q) : (discipline dup).wpProg Q (op o) c := h

theorem stat_spec {Q : Inode → Ctx → Prop} (h : ∀ st : Inode, (∀ ty, c.facts (.type i ty) → st.type = ty) → Q st c) :
    (discipline dup).wpProg Q (stat i) c := h

theorem iunlock_spec {Q : Unit → Ctx → Prop} (h : i ∈ c.locks → Q () (c.unlock i)) :
    (discipline dup).wpProg Q (iunlock i) c := h

theorem ilock_spec {Q : Unit → Ctx → Prop} (hw : c.MayWait dup i false)
    (h : i ∉ c.locks → ∀ ty, ty ≠ .free → (∀ ty', c.facts (.type i ty') → ty' = ty) →
      Q () ((c.lock i).learn (.type i ty))) : (discipline dup).wpProg Q (ilock i) c :=
  ⟨hw, h⟩

theorem iput_spec {Q : Unit → Ctx → Prop} (hr : 0 < c.refs i) (htx : c.tx = true ∨ i ∈ c.carried) (h : Q () (c.put i)) :
    (discipline dup).wpProg Q (iput i) c := by
  refine ⟨.inr (.inl rfl), fun hi => ⟨hr, htx, fun _ => ⟨hr, ?_⟩, fun h1 _ => ⟨hr, ?_⟩⟩⟩
  · rw [Ctx.lock_unlock hi]; exact h
  · rw [Ctx.free_put hi h1]; exact h

theorem iunlockput_spec {Q : Unit → Ctx → Prop} (hr : 0 < c.refs i) (htx : c.tx = true ∨ i ∈ c.carried)
    (h : i ∈ c.locks → Q () ((c.unlock i).put i)) : (discipline dup).wpProg Q (iunlockput i) c :=
  fun hi => iput_spec hr htx (h hi)

theorem Has.iunlockput_bind {α : Type} {Q : α → Ctx → Prop} {k : Unit → Fs.M α} (h : Has true L R c) (hi : i ∈ R)
    (hk : (discipline dup).wpProg Q (k ()) ((c.unlock i).put i)) : (discipline dup).wpProg Q (iunlockput i >>= k) c :=
  wp_bind.2 (iunlockput_spec (h.pos hi) (.inl h.tx) fun _ => hk)

theorem iallocFrom_spec {Q : Inum → Ctx → Prop} (htx : c.tx = true) (h : ∀ i, Q i ((c.alloc i).addRef i)) :
    ∀ n i, (discipline dup).wpProg Q (iallocFrom ty n i) c
  | 0, _ => trivial
  | n + 1, i => ⟨htx, iallocFrom_spec htx h n (i + 1), h i⟩

theorem ialloc_spec {Q : Inum → Ctx → Prop} (htx : c.tx = true) (h : ∀ i, Q i ((c.alloc i).addRef i)) :
    (discipline dup).wpProg Q (ialloc ty) c :=
  fun (n : Nat) => iallocFrom_spec htx h (n - 1) 1

/-! ## Directories and paths -/

theorem dirlookup_spec {Q : Option (Nat × Inum) → Ctx → Prop} (h0 : Q none c)
    (h1 : ∀ off i, Q (some (off, i)) ((c.found d name i).addRef i)) :
    (discipline dup).wpProg Q (dirlookup d name) c :=
  ⟨h0, h1⟩

variable {path : List UInt8}

theorem dirlink_spec {Q : Int → Ctx → Prop} (hQ : ∀ r, Monotone (Q r)) (htx : c.tx = true) (hc : c.carried = [])
    (hd : d ∈ c.locks) (hl : c.MayLink d name i) (h0 : Q 0 (c.cut d)) (h1 : Q (-1) c) :
    (discipline dup).wpProg Q (dirlink d name i) c := by
  refine wp_bind.2 (dirlookup_spec ⟨htx, hd, hl, h0⟩ fun off j => ?_)
  have hle := Ctx.le_found c d name j
  refine wp_bind.2 (iput_spec (by simp [Ctx.addRef]) (.inl (hle.tx ▸ htx)) ?_)
  rw [Ctx.addRef_put (hle.carried ▸ hc)]
  exact hQ _ hle h1

/-- The context after a walk to `j`; of a parent it knows that it is a directory. -/
def Ctx.walked (c : Ctx) (parent : Bool) (j : Inum) : Ctx :=
  if parent then (c.addRef j).learn (.type j .dir) else c.addRef j

theorem Ctx.walked_mono (h : c ≤ c') (parent : Bool) (j : Inum) : c.walked parent j ≤ c'.walked parent j := by
  cases parent
  · exact Ctx.addRef_mono h j
  · exact Ctx.learn_mono (Ctx.addRef_mono h j) _

theorem Ctx.put_addRef_le (hc : c.carried = []) (hi : 0 < c.refs i) : (c.put i).addRef i ≤ c := by
  refine ⟨rfl, rfl, funext fun j => ?_, by simp [Ctx.addRef, Ctx.put, hc], fun f hf => hf.1⟩
  simp only [Ctx.addRef, Ctx.put, Ctx.drop, update_apply]
  grind

theorem Ctx.learn_le_unlock (hi : i ∉ c.locks) :
    c.learn (.type i ty) ≤ ((c.lock i).learn (.type i ty)).unlock i := by
  refine ⟨rfl, (Finset.erase_insert hi).symm, rfl, rfl, fun f hf => ?_⟩
  rcases hf with hf | ⟨rfl, hs⟩
  · refine ⟨.inl hf, fun j hj => ?_⟩
    subst hj
    exact hi (c.pinned i j hf)
  · exact ⟨.inr ⟨rfl, hs.1, fun d j h => by cases h⟩, fun j h => by cases h⟩

theorem namexLoop_spec {Q : Option (Inum × Name) → Ctx → Prop} (hQ : ∀ r, Monotone (Q r)) :
    ∀ (rest : List Name) (ip : Inum) {c : Ctx}, c.tx = true → c.carried = [] → (dup = true ∨ c.locks = ∅) →
      0 < c.refs ip → Q none (c.put ip) → (∀ j name, Q (some (j, name)) ((c.put ip).walked parent j)) →
      (discipline dup).wpProg Q (namexLoop parent ip rest) c
  | [], ip, c, htx, hc, hw, hr, h0, h1 => by
    unfold namexLoop
    cases parent
    · exact hQ _ (Ctx.put_addRef_le hc hr) (h1 ip [])
    · exact iput_spec hr (.inl htx) h0
  | name :: rest, ip, c, htx, hc, hw, hr, h0, h1 => by
    unfold namexLoop
    refine wp_bind.2 (ilock_spec (mayWait_of_free hw ip) fun hi ty hty hcon => ?_)
    have hlearn : c.learn (.type ip ty) ≤ _ := Ctx.learn_le_unlock hi
    have hback := (Ctx.le_learn c (.type ip ty)).trans hlearn
    refine wp_bind.2 (stat_spec fun st hst => ?_)
    have hst' := hst ty (.inr ⟨rfl, hr, fun d i h => by cases h⟩)
    split
    · refine wp_bind.2 (iunlockput_spec hr (.inl htx) fun _ => ?_)
      exact hQ _ (Ctx.put_mono hback ip) h0
    · rename_i hdir
      have hdir : ty = .dir := by simpa [hst'] using hdir
      subst hdir
      split
      · rename_i hp
        refine wp_bind.2 (iunlock_spec fun _ => ?_)
        have h1 := h1 ip name
        rw [hp.1] at h1
        exact hQ _ ((Ctx.learn_mono (Ctx.put_addRef_le hc hr) _).trans hlearn) h1
      · refine wp_bind.2 (dirlookup_spec ?_ fun off next => ?_)
        · refine wp_bind.2 (iunlockput_spec hr (.inl htx) fun _ => ?_)
          exact hQ _ (Ctx.put_mono hback ip) h0
        · have hmove : c.addRef next ≤ _ :=
            Ctx.addRef_mono (hback.trans (Ctx.unlock_mono (Ctx.le_found _ ip name next) ip)) next
          have hput := Ctx.put_mono hmove ip
          have hle := (Ctx.put_le_move hc hr).trans (Ctx.put_mono hput next)
          have hrip : 0 < (c.addRef next).refs ip := by
            simp only [Ctx.addRef, update_apply]; grind
          have hrnext : 0 < ((c.addRef next).put ip).refs next := by
            simp only [Ctx.addRef, Ctx.put, Ctx.drop, update_apply]; grind
          refine wp_bind.2 (iunlockput_spec (Nat.lt_of_lt_of_eq hrip (congrFun hmove.refs ip))
            (.inl (hmove.tx.symm.trans htx)) fun _ => ?_)
          exact namexLoop_spec hQ rest next (hput.tx.symm.trans htx)
            (hput.carried.symm.trans (by simp [Ctx.put, Ctx.addRef, hc])) (hw.imp_right (hput.locks.symm.trans ·))
            (Nat.lt_of_lt_of_eq hrnext (congrFun hput.refs next)) (hQ _ hle h0) fun j name' =>
              hQ _ (Ctx.walked_mono hle parent j) (h1 j name')

theorem start_spec {Q : Inum → Ctx → Prop} (h : ∀ i, Q i (c.addRef i)) : (discipline dup).wpProg Q (start path) c := by
  unfold start
  by_cases hp : path.head? = some slash
  · rw [if_pos hp]; exact h ROOTINO
  · rw [if_neg hp]; exact h

theorem namex_spec {Q : Option (Inum × Name) → Ctx → Prop} (hQ : ∀ r, Monotone (Q r)) (htx : c.tx = true)
    (hc : c.carried = []) (hw : dup = true ∨ c.locks = ∅) (h0 : Q none c)
    (h1 : ∀ j name, Q (some (j, name)) (c.walked parent j)) :
    (discipline dup).wpProg Q (namex parent path) c := by
  have hloop : ∀ i, (discipline dup).wpProg Q (namexLoop parent i (elems path)) (c.addRef i) := fun i => by
    refine namexLoop_spec hQ _ i htx hc hw (by simp [Ctx.addRef]) ?_ ?_ <;> rw [Ctx.addRef_put hc]
    · exact h0
    · exact h1
  exact wp_bind.2 (start_spec hloop)

theorem namei_spec {Q : Option Inum → Ctx → Prop} (hQ : ∀ r, Monotone (Q r)) (htx : c.tx = true) (hc : c.carried = [])
    (hw : dup = true ∨ c.locks = ∅) (h0 : Q none c) (h1 : ∀ i, Q (some i) (c.addRef i)) :
    (discipline dup).wpProg Q (namei path) c :=
  wp_bind.2 (namex_spec (fun r => hQ (r.map Prod.fst)) htx hc hw h0 fun i _ => h1 i)

theorem nameiparent_spec {Q : Option (Inum × Name) → Ctx → Prop} (hQ : ∀ r, Monotone (Q r)) (htx : c.tx = true)
    (hc : c.carried = []) (hw : dup = true ∨ c.locks = ∅) (h0 : Q none c)
    (h1 : ∀ d name, Q (some (d, name)) ((c.addRef d).learn (.type d .dir))) :
    (discipline dup).wpProg Q (nameiparent path) c :=
  namex_spec hQ htx hc hw h0 h1

/-! ## The calls -/

section

theorem endOp_spec {Q : Unit → Ctx → Prop} (htx : c.tx = true) (h : Q () (c.setTx false)) :
    (discipline dup).wpProg Q endOp c :=
  ⟨htx, fun (last : Bool) => by cases last <;> exact h⟩

theorem idle_idle : Idle Ctx.idle := ⟨rfl, rfl, rfl, fun _ => zero_le⟩

theorem begin_ok (h : ∀ {c}, Has true ∅ [] c → Ends dup f c) : Ends dup (do op .beginOp; f) Ctx.idle :=
  wp_bind.2 (op_spec ⟨rfl, h (idle_idle.setTx true)⟩)

theorem finish_ok (h : Has true ∅ R c) (r : Int) : Ends dup (finish r) c :=
  wp_bind.2 (endOp_spec h.tx (h.setTx false).idle)

/-- The `ilock` of who holds no lock; what was known stays known. -/
theorem ilock_only_spec {Q : Unit → Ctx → Prop} (h : Has b ∅ R c)
    (h0 : ∀ {c'}, Has b {i} R c' → c.facts ≤ c'.facts → Q () c') : (discipline dup).wpProg Q (ilock i) c :=
  ilock_spec (mayWait_of_free (.inr h.locks) i) fun _ ty _ _ => h0 (h.ilock_only i ty) fun _ => .inl

theorem iunlockput_finish (h : Has true {i} (i :: R) c) (r : Int) : Ends dup (do iunlockput i; finish r) c :=
  h.iunlockput_bind (by simp) (finish_ok h.iunlockput_only r)

theorem iput_finish (h : Has true ∅ (i :: R) c) (r : Int) : Ends dup (do iput i; finish r) c :=
  wp_bind.2 (iput_spec (h.pos (by simp)) (.inl h.tx) (finish_ok h.put r))

variable {dp ip sip : Inum} {off : Nat} {major : Int}

theorem linkBad_ok (h : Has true ∅ (ip :: R) c) : Ends dup (linkBad ip) c := by
  refine wp_bind.2 (ilock_only_spec h fun h _ => ?_)
  refine wp_bind.2 (op_spec ⟨h.tx, ?_⟩)
  exact iunlockput_finish h _

theorem sysLink_ok (old new : List UInt8) : Ends dup (sysLink old new) Ctx.idle := by
  refine begin_ok fun h => ?_
  refine wp_bind.2 (namei_spec (fun _ => ends_monotone dup _) h.tx h.carried
    (.inr h.locks) (finish_ok h _) fun ip => ?_)
  have h := h.addRef ip
  refine wp_bind.2 (ilock_spec (mayWait_of_free (.inr h.locks) ip) fun hi ty hty _ => ?_)
  have h := h.ilock_only ip ty
  refine wp_bind.2 (stat_spec fun st hst => ?_)
  split
  · exact iunlockput_finish h _
  · rename_i hdir
    have hfact := h.known (.head _)
    have hne : ty ≠ .dir := fun hty => hdir ((hst ty hfact).trans hty)
    refine wp_bind.2 (op_spec ⟨h.tx, ?_⟩)
    refine wp_bind.2 (iunlock_spec fun _ => ?_)
    have h := h.iunlock_only
    refine wp_bind.2 (nameiparent_spec (fun _ => ends_monotone dup _) h.tx h.carried (.inr h.locks) (linkBad_ok h)
      fun dp name => ?_)
    have h := (h.addRef dp).learn (.type dp .dir)
    refine wp_bind.2 (ilock_only_spec h fun h hle => ?_)
    refine wp_bind.2 (dirlink_spec (fun _ => ends_monotone dup _) h.tx h.carried (by simp [h.locks]) ?_ ?_ ?_)
    · exact .inr (.inr ⟨ty, hne, hle _ (.inl ⟨hfact, fun _ he => nomatch he⟩)⟩)
    · have h := h.cut dp
      refine h.iunlockput_bind (by simp) ?_
      have h := h.iunlockput_only
      exact iput_finish h _
    · exact h.iunlockput_bind (by simp) (linkBad_ok h.iunlockput_only)

theorem unlinkBad_ok (h : Has true {dp} (dp :: R) c) : Ends dup (unlinkBad dp) c :=
  iunlockput_finish h _

theorem unlinkDone_ok (h : Has true {ip, dp} (dp :: ip :: R) c) (hne : ip ≠ dp) : Ends dup (unlinkDone dp ip) c := by
  refine h.iunlockput_bind (by simp) ?_
  have h := (h.iunlock_first hne).put
  refine wp_bind.2 (op_spec ⟨h.tx, ?_⟩)
  exact iunlockput_finish h _

theorem unlinkEnt_ok (h : Has true {dp} (ip :: dp :: R) c) (hdir : c.facts (.type dp .dir))
    (hent : c.facts (.entry dp ip)) : Ends dup (unlinkEnt dp off ip) c := by
  have hw : c.MayWait dup ip false := by
    refine .inr (.inr fun d hd => ?_)
    rw [h.locks, Finset.mem_singleton] at hd
    subst hd
    exact ⟨hdir, .inl hent⟩
  refine wp_bind.2 (ilock_spec hw fun hi ty _ _ => ?_)
  have hne : ip ≠ dp := by simpa [h.locks] using hi
  have h := h.ilock ip ty
  refine wp_bind.2 (stat_spec fun st _ => ?_)
  split
  · trivial
  · split
    · refine h.iunlockput_bind (by simp) ?_
      exact unlinkBad_ok (h.iunlock_last hne).put
    · refine wp_bind.2 (op_spec ⟨h.tx, by simp [h.locks], ?_⟩)
      have h := (h.cut dp).swap
      split
      · exact wp_bind.2 (op_spec ⟨h.tx, unlinkDone_ok h hne⟩)
      · exact unlinkDone_ok h hne

theorem sysUnlink_ok (path : List UInt8) : Ends dup (sysUnlink path) Ctx.idle := by
  refine begin_ok fun h => ?_
  refine wp_bind.2 (nameiparent_spec (fun _ => ends_monotone dup _) h.tx h.carried (.inr h.locks) (finish_ok h _)
    fun dp name => ?_)
  have h := (h.addRef dp).learn (.type dp .dir)
  have hdir := h.known (.head _)
  refine wp_bind.2 (ilock_only_spec h fun h hle => ?_)
  split
  · exact unlinkBad_ok h
  · rename_i hname
    refine wp_bind.2 (dirlookup_spec (unlinkBad_ok h) fun off ip => ?_)
    rw [Ctx.found, if_neg hname]
    refine unlinkEnt_ok ((h.learn _).addRef ip) (.inl (hle _ hdir))
      (.inr ⟨rfl, h.pos (by simp [Fact.on]), fun d i he => ?_⟩)
    cases he
    simp [h.locks]

variable {fd : Fin NOFILE}

theorem mustDirlink_spec {Q : Unit → Ctx → Prop} (hQ : Monotone (Q ())) (h : Has true L R c) (hd : d ∈ L)
    (hl : c.MayLink d name i) (h0 : Q () (c.cut d)) : (discipline dup).wpProg Q (mustDirlink d name i) c :=
  wp_bind.2 (dirlink_spec (fun _ => monotone_wp (discipline_upward dup) (fun _ => hQ) _) h.tx h.carried
    (h.locks ▸ hd) hl h0 trivial)

theorem createDots_spec {Q : Unit → Ctx → Prop} (hQ : Monotone (Q ())) (h : Has true {ip, dp} R c)
    (h0 : Q () ((c.cut ip).cut ip)) : (discipline dup).wpProg Q (createDots dp ip) c := by
  refine wp_bind.2 (op_spec ⟨h.tx, ?_⟩)
  refine wp_bind.2 (mustDirlink_spec (monotone_wp (discipline_upward dup) (fun _ => hQ) _) h (by simp)
    (.inl (.inl rfl)) ?_)
  exact mustDirlink_spec hQ (h.cut ip) (by simp) (.inl (.inr rfl)) h0

theorem createLink_spec {Q : Option Inum → Ctx → Prop} (hQ : ∀ r, Monotone (Q r))
    (h : Has true {ip, dp} (dp :: ip :: R) c) (hne : ip ≠ dp) (hnew : c.facts (.newer dp ip))
    (h0 : ∀ c', Has true {ip} (ip :: R) c' → Q (some ip) c') : (discipline dup).wpProg Q (createLink dp name ip) c := by
  refine wp_bind.2 (mustDirlink_spec (monotone_wp (discipline_upward dup) hQ _) h (by simp) (.inr (.inl hnew)) ?_)
  have h := h.cut dp
  exact h.iunlockput_bind (by simp) (h0 _ (h.iunlock_first hne).put)

theorem createNew_spec {Q : Option Inum → Ctx → Prop} (hQ : ∀ r, Monotone (Q r)) (h : Has true {dp} (dp :: R) c)
    (hdir : c.facts (.type dp .dir)) (h0 : ∀ ip c', Has true {ip} (ip :: R) c' → Q (some ip) c') :
    (discipline dup).wpProg Q (createNew dp name ty major minor) c := by
  refine wp_bind.2 (ialloc_spec h.tx fun ip => ?_)
  have hnew : ((c.alloc ip).addRef ip).facts (.newer dp ip) := .inr ⟨dp, .dir, hdir, rfl⟩
  have h := (h.alloc ip).addRef ip
  have hw : ((c.alloc ip).addRef ip).MayWait dup ip false := by
    refine .inr (.inr fun d hd => ?_)
    rw [h.locks, Finset.mem_singleton] at hd
    subst hd
    exact ⟨.inl hdir, .inr hnew⟩
  refine wp_bind.2 (ilock_spec hw fun hi ty' _ _ => ?_)
  have hne : ip ≠ dp := by simpa [h.locks] using hi
  have h := (h.ilock ip ty').swap
  refine wp_bind.2 (op_spec ⟨h.tx, ?_⟩)
  split
  · refine wp_bind.2 (createDots_spec (monotone_wp (discipline_upward dup) hQ _) h ?_)
    exact createLink_spec hQ ((h.cut ip).cut ip) hne ⟨⟨.inl hnew, fun _ he => nomatch he⟩, fun _ he => nomatch he⟩
      (h0 ip)
  · exact createLink_spec hQ h hne (.inl hnew) (h0 ip)

theorem create_spec {Q : Option Inum → Ctx → Prop} (hQ : ∀ r, Monotone (Q r)) (h : Has true ∅ [] c)
    (h0 : ∀ c', Has true ∅ [] c' → Q none c') (h1 : ∀ ip c', Has true {ip} [ip] c' → Q (some ip) c') :
    (discipline dup).wpProg Q (create path ty major minor) c := by
  refine wp_bind.2 (nameiparent_spec (fun _ => monotone_wp (discipline_upward dup) hQ _) h.tx h.carried (.inr h.locks)
    (h0 _ h) fun dp name => ?_)
  have h := (h.addRef dp).learn (.type dp .dir)
  have hdir := h.known (.head _)
  refine wp_bind.2 (ilock_only_spec h fun h hle => ?_)
  refine wp_bind.2 (dirlookup_spec (createNew_spec hQ h (hle _ hdir) h1) fun off ip => ?_)
  have h := ((h.found dp name ip).addRef ip).swap
  refine h.iunlockput_bind (by simp) ?_
  have h := h.iunlockput_only
  refine wp_bind.2 (ilock_only_spec h fun h _ => ?_)
  refine wp_bind.2 (stat_spec fun st _ => ?_)
  split
  · exact h1 ip _ h
  · exact h.iunlockput_bind (by simp) (h0 _ h.iunlockput_only)

theorem openPath_spec {Q : Option Inum → Ctx → Prop} (hQ : ∀ r, Monotone (Q r)) (h : Has true ∅ [] c)
    (h0 : ∀ c', Has true ∅ [] c' → Q none c') (h1 : ∀ ip c', Has true {ip} [ip] c' → Q (some ip) c') :
    (discipline dup).wpProg Q (openPath path omode) c := by
  refine wp_bind.2 (namei_spec (fun _ => monotone_wp (discipline_upward dup) hQ _) h.tx h.carried (.inr h.locks)
    (h0 _ h) fun ip => ?_)
  have h := h.addRef ip
  refine wp_bind.2 (ilock_only_spec h fun h _ => ?_)
  refine wp_bind.2 (stat_spec fun st _ => ?_)
  split
  · exact h.iunlockput_bind (by simp) (h0 _ h.iunlockput_only)
  · exact h1 ip _ h

theorem openBad_ok (h : Has true {ip} (ip :: R) c) : Ends dup (openBad ip) c :=
  iunlockput_finish h _

theorem openFile_ok (h : Has true {ip} [ip] c) : Ends dup (openFile ip omode) c := by
  refine wp_bind.2 (op_spec fun (f : Bool) => ?_)
  cases f with
  | false => exact openBad_ok h
  | true =>
    refine wp_bind.2 (op_spec fun fd => ?_)
    cases fd with
    | none => exact wp_bind.2 (op_spec (openBad_ok h))
    | some fd =>
      refine wp_bind.2 (iunlock_spec fun _ => ?_)
      have h := h.iunlock_only
      refine wp_bind.2 (endOp_spec h.tx ?_)
      have h := h.setTx false
      exact wp_bind.2 (op_spec ⟨h.pos (by simp), h.drop⟩)

theorem sysOpen_ok (path : List UInt8) (omode : UInt32) : Ends dup (sysOpen path omode) Ctx.idle := by
  refine begin_ok fun h => ?_
  refine wp_bind.2 ?_
  unfold openInode
  split
  · exact create_spec (fun _ => ends_monotone dup _) h (fun _ h => finish_ok h _) fun _ _ h => openFile_ok h
  · exact openPath_spec (fun _ => ends_monotone dup _) h (fun _ h => finish_ok h _) fun _ _ h => openFile_ok h

theorem sysMake_ok (path : List UInt8) (ty : IType) (major minor : Int) :
    Ends dup (sysMake path ty major minor) Ctx.idle := by
  refine begin_ok fun h => ?_
  refine wp_bind.2 (create_spec (fun _ => ends_monotone dup _) h (fun _ h => finish_ok h _) fun ip _ h => ?_)
  exact iunlockput_finish h _

theorem sysChdir_ok (path : List UInt8) : Ends dup (sysChdir path) Ctx.idle := by
  refine begin_ok fun h => ?_
  refine wp_bind.2 (namei_spec (fun _ => ends_monotone dup _) h.tx h.carried
    (.inr h.locks) (finish_ok h _) fun ip => ?_)
  have h := h.addRef ip
  refine wp_bind.2 (ilock_only_spec h fun h _ => ?_)
  refine wp_bind.2 (stat_spec fun st _ => ?_)
  split
  · exact iunlockput_finish h _
  · refine wp_bind.2 (iunlock_spec fun _ => ?_)
    have h := h.iunlock_only
    refine wp_bind.2 (op_spec ⟨h.pos (by simp), fun old => ?_⟩)
    have h := h.drop.addRef old
    exact iput_finish h _

/-! ## Files -/

theorem consoleread_spec {Q : Int → Ctx → Prop} (h : Has b {ip} [] c) (h0 : ∀ r c', Has b {ip} [] c' → Q r c') :
    (discipline dup).wpProg Q (consoleread ip n) c := by
  refine wp_bind.2 (iunlock_spec fun _ => wp_bind.2 (op_spec fun r => ?_))
  have h := h.iunlock_only
  exact wp_bind.2 (ilock_only_spec h fun h _ => h0 r _ h)

theorem consolewrite_spec {Q : Int → Ctx → Prop} (h : Has b {ip} [] c) (h0 : ∀ r c', Has b {ip} [] c' → Q r c') :
    (discipline dup).wpProg Q (consolewrite ip n) c := by
  refine wp_bind.2 (iunlock_spec fun _ => ?_)
  have h := h.iunlock_only
  exact wp_bind.2 (ilock_only_spec h fun h _ => h0 n _ h)

theorem devsw_spec {Q : Int → Ctx → Prop} (h : (discipline dup).wpProg Q f c) (h0 : Q (-1) c) :
    (discipline dup).wpProg Q (devsw major f) c := by
  unfold devsw
  split
  · exact h
  · exact h0

theorem advance_spec {Q : Unit → Ctx → Prop} (h : Q () c) :
    (discipline dup).wpProg Q (advance fd off r) c := by
  unfold advance
  split
  · exact h
  · exact h

theorem fileread_ok (fd : Fin NOFILE) (n : Nat) : Ends dup (fileread fd n) Ctx.idle := by
  have h := idle_idle
  refine wp_bind.2 (op_spec fun f => ?_)
  cases f with
  | none => exact h
  | some f =>
    dsimp only
    split
    · exact h
    · split
      · trivial
      · rename_i ip _
        refine wp_bind.2 (ilock_only_spec h fun h _ => ?_)
        refine wp_bind.2 (stat_spec fun st _ => ?_)
        split
        · have hrest : ∀ (r : Int) {c : Ctx}, Has false {ip} [] c →
              Ends dup (do advance fd f.off r; iunlock ip; return r) c := fun r c h =>
            wp_bind.2 (advance_spec (wp_bind.2 (iunlock_spec fun _ => h.iunlock_only)))
          exact wp_bind.2 (devsw_spec (consoleread_spec h fun r c' h => hrest r h) (hrest _ h))
        · refine wp_bind.2 (op_spec fun r => ?_)
          cases r with
          | none => exact wp_bind.2 (iunlock_spec fun _ => h.iunlock_only)
          | some bytes => exact wp_bind.2 (advance_spec (wp_bind.2 (iunlock_spec fun _ => h.iunlock_only)))

theorem writeChunk_spec {Q : Int → Ctx → Prop} (h : Has true {ip} [] c) (h0 : ∀ r c', Has true {ip} [] c' → Q r c') :
    (discipline dup).wpProg Q (writeChunk ip off bytes) c := by
  refine wp_bind.2 (stat_spec fun st _ => ?_)
  split
  · exact devsw_spec (consolewrite_spec h h0) (h0 _ _ h)
  · exact wp_bind.2 (op_spec ⟨h.tx, fun r => h0 _ _ h⟩)

theorem writeRound_spec {Q : Int → Ctx → Prop} (h : Idle c) (h0 : ∀ r c', Idle c' → Q r c') :
    (discipline dup).wpProg Q (writeRound fd ip off bytes) c := by
  refine wp_bind.2 (op_spec ⟨h.tx, ?_⟩)
  have h := h.setTx true
  refine wp_bind.2 (ilock_only_spec h fun h _ => ?_)
  refine wp_bind.2 (writeChunk_spec h fun r c' h => ?_)
  refine wp_bind.2 (advance_spec (wp_bind.2 (iunlock_spec fun _ => ?_)))
  have h := h.iunlock_only
  exact wp_bind.2 (endOp_spec h.tx (h0 r _ (h.setTx false)))

theorem writeLoop_spec {Q : Bool → Ctx → Prop} (h0 : ∀ b c', Idle c' → Q b c') :
    ∀ (rounds off : Nat) (bytes : List UInt8) {c : Ctx}, Idle c →
      (discipline dup).wpProg Q (writeLoop fd ip rounds off bytes) c
  | 0, _, _, _, h => h0 _ _ h
  | rounds + 1, off, bytes, c, h => by
    unfold writeLoop
    split
    · exact h0 _ _ h
    · refine wp_bind.2 (writeRound_spec h fun r c' h => ?_)
      split
      · exact h0 _ _ h
      · split
        · trivial
        · exact writeLoop_spec h0 rounds _ _ h

theorem filewrite_ok (fd : Fin NOFILE) (bytes : List UInt8) : Ends dup (filewrite fd bytes) Ctx.idle := by
  have h := idle_idle
  refine wp_bind.2 (op_spec fun f => ?_)
  cases f with
  | none => exact h
  | some f =>
    dsimp only
    split
    · exact h
    · split
      · trivial
      · refine wp_bind.2 (writeLoop_spec (fun b c' h => ?_) _ _ _ h)
        cases b
        · exact h
        · exact h

theorem sysClose_ok (fd : Fin NOFILE) : Ends dup (sysClose fd) Ctx.idle := by
  have h := idle_idle
  refine wp_bind.2 (op_spec ⟨h, h, fun ip => ?_⟩)
  refine wp_bind.2 (op_spec ⟨h.tx, ?_⟩)
  have h := (h.addRef ip).setTx true
  exact iput_finish h _

/-! ## make_duplicate -/

/-- What `make_duplicate` owns outside its transaction. -/
structure Carries (sip dip : Inum) (c : Ctx) : Prop where
  tx : c.tx = false
  locks : c.locks = {sip}
  carried : c.carried = [sip, dip]
  src : 0 < c.refs sip
  dst : 0 < c.refs dip
  ne : dip ≠ sip

theorem copyDone_ok (h : Carries sip dip c) : Ends true (copyDone sip dip r) c := by
  refine wp_bind.2 (iunlockput_spec h.src (.inr (by simp [h.carried])) fun _ => ?_)
  refine wp_bind.2 (iput_spec ?_ (.inr ?_) ⟨h.tx, ?_, ?_, fun _ => zero_le⟩)
  · simpa [Ctx.put, Ctx.drop, Ctx.unlock, Ctx.cut, h.ne] using h.dst
  · simp [Ctx.put, Ctx.unlock, Ctx.cut, h.carried]
  · simp [Ctx.put, Ctx.drop, Ctx.unlock, h.locks]
  · simp [Ctx.put, Ctx.unlock, Ctx.cut, h.carried]

theorem copyLoop_ok : ∀ (rounds off : Nat) {c : Ctx}, Carries sip dip c →
    Ends true (copyLoop sip dip rounds off) c
  | 0, _, _, h => copyDone_ok h
  | rounds + 1, off, c, h => by
    unfold copyLoop
    refine wp_bind.2 (stat_spec fun st _ => ?_)
    dsimp only
    split
    · exact copyDone_ok h
    · refine wp_bind.2 (op_spec fun r => ?_)
      match r with
      | none | some [] => exact copyDone_ok h
      | some (b :: bs) =>
        refine wp_bind.2 (op_spec ⟨h.tx, ?_⟩)
        refine wp_bind.2 (ilock_spec (.inl rfl) fun hi ty _ _ => ?_)
        refine wp_bind.2 (op_spec ⟨rfl, fun w => ?_⟩)
        refine wp_bind.2 (iunlock_spec fun _ => wp_bind.2 (endOp_spec rfl ?_))
        have h' : Carries sip dip
            (((((c.setTx true).lock dip).learn (.type dip ty)).unlock dip).setTx false) := by
          refine ⟨rfl, ?_, h.carried, h.src, h.dst, h.ne⟩
          exact (Finset.erase_insert hi).trans h.locks
        split
        · exact copyDone_ok h'
        · exact copyLoop_ok rounds _ h'

theorem dupBad_ok (h : Has true {sip} (sip :: R) c) : Ends dup (dupBad sip) c :=
  iunlockput_finish h _

theorem dupNew_ok (h : Has true {dp, sip} [dp, sip] c) (hne : dp ≠ sip) (hdir : c.facts (.type dp .dir))
    (hsrc : c.facts (.type sip ty)) : Ends true (dupNew sip dp name) c := by
  refine wp_bind.2 (ialloc_spec h.tx fun dip => ?_)
  have hnew : ((c.alloc dip).addRef dip).facts (.newer dp dip) := .inr ⟨dp, .dir, hdir, rfl⟩
  have h := (h.alloc dip).addRef dip
  refine wp_bind.2 (ilock_spec (.inl rfl) fun hi ty' _ _ => ?_)
  obtain ⟨hdp, hsip⟩ : dip ≠ dp ∧ dip ≠ sip := by simpa [h.locks] using hi
  have h := h.ilock dip ty'
  have hdst := h.known (.head _)
  refine wp_bind.2 (op_spec ⟨h.tx, ?_⟩)
  refine wp_bind.2 (mustDirlink_spec (ends_monotone true _) h (by simp) (.inr (.inl (.inl hnew))) ?_)
  have h := (h.cut dp).swap
  refine h.iunlockput_bind (by simp) ?_
  have h := (h.unlock dp).put
  refine wp_bind.2 (op_spec ⟨fun i hi => ?_, ?_⟩)
  · -- the facts about the source and the copy outlive the directory's reference
    simp only [List.mem_cons, List.not_mem_nil, or_false] at hi
    rcases hi with rfl | rfl
    · exact ⟨ty, ⟨⟨.inl (.inl hsrc), fun _ he => nomatch he⟩, fun _ he => nomatch he⟩, fun he => absurd he hne.symm⟩
    · exact ⟨ty', ⟨⟨hdst, fun _ he => nomatch he⟩, fun _ he => nomatch he⟩, fun he => absurd he hdp⟩
  · refine wp_bind.2 (iunlock_spec fun _ => wp_bind.2 (endOp_spec h.tx (wp_bind.2 (stat_spec fun st _ => ?_))))
    refine copyLoop_ok _ _ ⟨rfl, ?_, rfl, h.pos (by simp), h.pos (by simp), hsip⟩
    refine (congrArg (Finset.erase · dip) h.locks).trans ?_
    ext i
    simp only [Finset.mem_erase, Finset.mem_insert, Finset.mem_singleton]
    grind

theorem dupFile_ok {dst : List UInt8} (h : Has true {sip} [sip] c) (hsrc : c.facts (.type sip ty)) :
    Ends true (dupFile sip dst) c := by
  refine wp_bind.2 (nameiparent_spec (fun _ => ends_monotone true _) h.tx h.carried (.inl rfl) (dupBad_ok h)
    fun dp name => ?_)
  have h := (h.addRef dp).learn (.type dp .dir)
  have hdir := h.known (.head _)
  refine wp_bind.2 (ilock_spec (.inl rfl) fun hi ty' _ _ => ?_)
  have hne : dp ≠ sip := by simpa [h.locks] using hi
  have h := h.ilock dp ty'
  refine wp_bind.2 (dirlookup_spec (dupNew_ok h hne (.inl hdir) (.inl (.inl hsrc))) fun off tmp => ?_)
  have h := ((h.found dp name tmp).addRef tmp).swap
  refine h.iunlockput_bind (by simp) ?_
  have h := (h.iunlock_last hne).put
  exact wp_bind.2 (iput_spec (h.pos (by simp)) (.inl h.tx) (dupBad_ok h.put))

theorem makeDuplicate_ok (src : List UInt8) : Ends true (makeDuplicate src) Ctx.idle := by
  unfold makeDuplicate
  split
  · exact idle_idle
  · refine begin_ok fun h => ?_
    refine wp_bind.2 (namei_spec (fun _ => ends_monotone true _) h.tx h.carried
      (.inl rfl) (finish_ok h _) fun sip => ?_)
    have h := h.addRef sip
    refine wp_bind.2 (ilock_spec (.inl rfl) fun _ ty _ _ => ?_)
    have h := h.ilock_only sip ty
    refine wp_bind.2 (stat_spec fun st _ => ?_)
    split
    · exact dupBad_ok h
    · exact dupFile_ok h (h.known (.head _))

end

/-! ## The rules hold in every run -/

/-- The rules of a call. -/
def Call.isDup : Call → Bool
  | .makeDuplicate _ => true
  | _ => false

theorem body_ok (k : Call) : Ends k.isDup k.body Ctx.idle := by
  cases k with
  | sysLink old new => exact sysLink_ok old new
  | sysUnlink path => exact sysUnlink_ok path
  | sysOpen path omode => exact sysOpen_ok path omode
  | sysMkdir path => exact sysMake_ok path .dir 0 0
  | sysMknod path major minor => exact sysMake_ok path .dev major minor
  | sysChdir path => exact sysChdir_ok path
  | fileread fd n => exact fileread_ok fd n
  | filewrite fd bytes => exact filewrite_ok fd bytes
  | sysClose fd => exact sysClose_ok fd
  | makeDuplicate src => exact makeDuplicate_ok src

variable {N : Nat}

theorem Inv.reset {s : State N} {ctx : Fin N → Ctx} {birth : Inum → Nat} {clock : Nat} {t : Fin N}
    (h : Inv s ctx birth clock) (ht : Idle (ctx t)) : Inv s (update ctx t Ctx.idle) birth clock := by
  have hl := h.loc t
  refine h.keep (Others.refl t s) (SameTree.refl _) ⟨hl.tx.trans ht.tx, hl.carried.trans ht.carried, fun i => ?_,
    fun f hf => hf.elim⟩ h.log (fun i => ?_) h.live
  · rw [hl.lock i, ht.locks]; rfl
  · show 0 + _ + _ ≤ _; omega

/-- The rules of the file system, with the ghost state they keep. -/
def rules (N : Nat) : Rules (kernel N) Ctx where
  logic k := discipline k.isDup
  inv s ctx := ∃ birth clock, Inv s ctx birth clock
  idle := Idle
  enter := fun k ⟨birth, clock, h⟩ ht => ⟨Ctx.idle, ⟨birth, clock, h.reset ht⟩, body_ok k⟩
  exec := fun ⟨_, _, h⟩ hw he =>
    let ⟨c, birth', clock', h', hq⟩ := exec_sound h hw he
    ⟨c, ⟨birth', clock', h'⟩, hq⟩

/-- A file system at rest: no process in a call, no lock taken, an empty log, a reference in the
cache for every descriptor and current directory, no cached inode that is free on the disk, and a
tree of directories. -/
structure AtRest (p : Sys N) : Prop where
  thr : ∀ t, p.thr t = none
  inOp : ∀ t, p.mem.inOp t = false
  carried : ∀ t, p.mem.carried t = []
  lock : ∀ i, (p.mem.cache i).lock = none
  log : p.mem.log.outstanding = 0 ∧ p.mem.log.n = 0
  ref : ∀ i, ∑ t, p.mem.outside t i ≤ (p.mem.cache i).ref
  live : ∀ i, (p.mem.cache i).valid = true → (p.mem.ino i).type ≠ .free
  tree : ∃ (birth : Inum → Nat) (clock : Nat), Tree p.mem.ino birth ∧ ∀ i, birth i < clock

variable {p : Sys N}

theorem AtRest.holds (h : AtRest p) : ∃ ctx, (rules N).Holds p ctx := by
  obtain ⟨birth, clock, htree, hborn⟩ := h.tree
  refine ⟨fun _ => Ctx.idle, ⟨birth, clock, fun t => ?_, ⟨?_, fun _ _ => h.log.2⟩, fun i => ?_, h.live, hborn, htree⟩,
    fun t => ?_⟩
  · refine ⟨h.inOp t, h.carried t, fun i => ?_, fun f hf => hf.elim⟩
    rw [h.lock i]
    constructor
    · intro h; cases h
    · intro h; cases h
  · rw [h.log.1]; simp [h.inOp]
  · simpa [Ctx.idle] using h.ref i
  · rw [h.thr t]; exact ⟨rfl, rfl, rfl, fun _ => zero_le⟩

/-- In every state reached every process keeps the rules. -/
theorem reach_holds {ok : Sys N → PoolAct (Fin N) Nat Call → Prop} (hr : Reach AtRest (kernel N).step ok p) :
    ∃ ctx, (rules N).Holds p ctx :=
  Rules.reach (fun _ h => h.holds) hr

end Xv6.Fs
