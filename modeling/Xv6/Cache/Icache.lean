/-
The contents of the inode cache. A process that is in the middle of a call knows something of the entry it
has locked (`Mid`); any other entry in use is, if valid, equal to its inode on disk (`Clean`). Without holes,
`writei` changes a block pointer only where it goes on to change the size, and so it writes the inode.
-/
import Xv6.Cache.Refs

namespace Xv6.Icache

open Base Fs
open Function (update update_self update_of_ne)

variable {n : Nat} {P R : Type} {c : Copy} {b : Nat} {s s' : State n P R} {p : P} {r : R} {e : Fin n} {k : Stage}
  {a : Act n P R}

/-! ## Contents -/

/-- An entry that is equal to its inode on disk. -/
def Clean (s : State n P R) (e : Fin n) : Prop :=
  (s.ent e).di = s.disk (s.ent e).key ∧ (s.ent e).di.type ≠ .free

/-- What is known of the entry in the loop of `readi` and `writei`, `d` being the inode on disk. A pointer
differs only when the loop is past the end of the file, and so the size is going to be set. -/
structure Copying (d : Dinode) (x : Dinode) (c : Copy) : Prop where
  same : { x with addrs := d.addrs } = d
  alloc : d.type ≠ .free
  read : c.write = false → c.off + c.left ≤ x.size
  left : c.left ≤ c.n
  addrs : x.addrs = d.addrs ∨ x.size < c.off
  grows : x.size < c.off → c.write = true ∧ 0 < c.n
  full : ∀ bn < nblocks (max x.size c.off), x.addrs (slot bn) ≠ 0

/-- What a process that works on entry `e` knows of it. -/
def Mid (s : State n P R) (e : Fin n) : Pc n R → Prop
  | .update _ => (s.ent e).valid = true ∧ (s.ent e).di.type ≠ .free ∧ (s.disk (s.ent e).key).type ≠ .free ∧
      (s.ent e).di.NoHoles
  | .copy _ c => (s.ent e).valid = true ∧ Copying (s.disk (s.ent e).key) (s.ent e).di c
  | .put _ _ .count | .put _ _ .trunc | .put _ _ .free => (s.ent e).valid = true ∧ Clean s e
  | .put _ _ .clear => True
  | _ => (s.ent e).valid = true → Clean s e

/-- What is known of entry `e`. -/
def Ok (s : State n P R) (e : Fin n) : Prop :=
  match s.lock e with
  | none => (s.ent e).valid = true → Clean s e
  | some (p, _) => if (s.pc p).inside = some e then Mid s e (s.pc p) else (s.ent e).valid = true ∧ Clean s e

/-- What is known of the entries in use, and of the disk. -/
structure Data (s : State n P R) : Prop where
  ok : ∀ e, 0 < (s.ent e).ref → Ok s e
  disk : ∀ k, (s.disk k).type ≠ .free → (s.disk k).NoHoles

theorem noHoles_itrunc (d : Dinode) : (itrunc d).NoHoles := by
  intro bn hbn
  change bn < nblocks 0 at hbn
  rw [nblocks_zero] at hbn
  exact absurd hbn not_lt_zero

namespace Copying

variable {d x x' : Dinode}

theorem start (hd : d.type ≠ .free) (hh : d.NoHoles) (hoff : c.off ≤ d.size)
    (hread : c.write = false → c.off + c.left ≤ d.size) (hleft : c.left ≤ c.n) : Copying d d c where
  same := rfl
  alloc := hd
  read := hread
  left := hleft
  addrs := .inl rfl
  grows h := absurd hoff (Nat.not_le_of_lt h)
  full bn hbn := hh bn (by rwa [max_eq_left hoff] at hbn)

theorem type_ne (h : Copying d x c) : x.type ≠ .free := by
  have htype : x.type = d.type := by rw [← h.same]
  rw [htype]
  exact h.alloc

theorem past (h : Copying d x c) (hleft : 0 < c.left) (hz : x.addrs (slot (c.off / BSIZE)) = 0) :
    x.size < c.step.off := by
  refine lt_of_nblocks_le (not_lt.1 fun hlt => ?_) hleft
  exact h.full _ (hlt.trans_le (nblocks_mono (le_max_left _ _))) hz

theorem block_le {bn : Nat} (hleft : 0 < c.left) (hlt : bn < nblocks (max x.size c.step.off)) :
    bn < nblocks (max x.size c.off) ∨ bn = c.off / BSIZE := by
  have hchunk : nblocks c.step.off = c.off / BSIZE + 1 := nblocks_chunk hleft
  have hoff : c.off / BSIZE ≤ nblocks c.off := by
    unfold nblocks BSIZE; omega
  have h1 : nblocks x.size ≤ nblocks (max x.size c.off) := nblocks_mono (le_max_left _ _)
  have h2 : nblocks c.off ≤ nblocks (max x.size c.off) := nblocks_mono (le_max_right _ _)
  rcases le_total x.size c.step.off with hle | hle
  · rw [max_eq_right hle, hchunk] at hlt; omega
  · rw [max_eq_left hle] at hlt; exact .inl (hlt.trans_le h1)

/-- A piece is copied, `b` being the block that `balloc` returns if there is none. -/
theorem step (h : Copying d x c) (hb : b ≠ 0) (hleft : 0 < c.left) (hm : bmap x (c.off / BSIZE) b = some x') :
    Copying d x' c.step := by
  obtain ⟨-, hx'⟩ := Option.ite_none_right_eq_some.1 hm
  rw [Option.some.injEq] at hx'
  have hle : chunk c.off c.left ≤ c.left := chunk_le _ _
  have hpos : 0 < chunk c.off c.left := chunk_pos hleft
  have hsome : x.size < c.step.off → c.step.write = true ∧ 0 < c.step.n := fun hlt => by
    refine ⟨?_, hleft.trans_le h.left⟩
    cases hw : c.write with
    | true => exact hw
    | false => have := h.read hw; simp only [Copy.step] at hlt; omega
  have hread : c.step.write = false → c.step.off + c.step.left ≤ x.size := fun hw => by
    have := h.read hw; simp only [Copy.step]; omega
  have hleft' : c.step.left ≤ c.step.n := (Nat.sub_le _ _).trans h.left
  split at hx'
  · rename_i hz
    subst hx'
    refine ⟨h.same, h.alloc, hread, hleft', .inr (h.past hleft hz), hsome, fun bn hbn => ?_⟩
    by_cases hslot : slot bn = slot (c.off / BSIZE)
    · dsimp only; rw [hslot, update_self]; exact hb
    · dsimp only
      rw [update_of_ne hslot]
      rcases block_le hleft hbn with hlt | heq
      · exact h.full bn hlt
      · exact absurd (by rw [heq]) hslot
  · rename_i hz
    subst hx'
    refine ⟨h.same, h.alloc, hread, hleft', ?_, hsome, fun bn hbn => ?_⟩
    · exact h.addrs.imp_right fun hlt => hlt.trans_le le_self_add
    · rcases block_le hleft hbn with hlt | heq
      · exact h.full bn hlt
      · rwa [heq]

theorem noHoles (h : Copying d x c) (hlt : x.size < c.off) : Dinode.NoHoles { x with size := c.off } := by
  intro bn hbn; exact h.full bn (by rwa [max_eq_right hlt.le])

theorem eq_disk (h : Copying d x c) (hw : ¬ (c.write = true ∧ 0 < c.n ∧ x.size < c.off)) : x = d := by
  have hlt : ¬ x.size < c.off := fun hlt => hw ⟨(h.grows hlt).1, (h.grows hlt).2, hlt⟩
  have haddrs : x.addrs = d.addrs := h.addrs.resolve_right hlt
  have := h.same
  rwa [← haddrs] at this

end Copying

theorem ok_of_free (hl : s.lock e = none) : Ok s e ↔ ((s.ent e).valid = true → Clean s e) := by
  simp only [Ok, hl]

theorem ok_of_inside (hl : s.holds p e) (hp : (s.pc p).inside = some e) : Ok s e ↔ Mid s e (s.pc p) := by
  obtain ⟨r, hl⟩ := holds_iff.1 hl; simp only [Ok, hl, hp, if_true]

theorem ok_of_held (hl : s.holds p e) (hp : (s.pc p).inside ≠ some e) :
    Ok s e ↔ (s.ent e).valid = true ∧ Clean s e := by
  obtain ⟨r, hl⟩ := holds_iff.1 hl; simp only [Ok, hl, hp, if_false]

/-- Both states agree on entry `e` and its inode on disk, but for the count. -/
structure Same (s s' : State n P R) (e : Fin n) : Prop where
  valid : (s'.ent e).valid = (s.ent e).valid
  key : (s'.ent e).key = (s.ent e).key
  di : (s'.ent e).di = (s.ent e).di
  disk : s'.disk (s.ent e).key = s.disk (s.ent e).key

theorem Same.clean (h : Same s s' e) : Clean s' e ↔ Clean s e := by
  unfold Clean; rw [h.di, h.key, h.disk]

theorem same_modEnt (s : State n P R) (e : Fin n) {f : Inode → Inode} (hv : (f (s.ent e)).valid = (s.ent e).valid)
    (hk : (f (s.ent e)).key = (s.ent e).key) (hd : (f (s.ent e)).di = (s.ent e).di) (e' : Fin n) :
    Same s (s.modEnt e f) e' :=
  ⟨modEnt_eq Inode.valid hv e', modEnt_eq Inode.key hk e', modEnt_eq Inode.di hd e', rfl⟩

theorem modEnt_id (s : State n P R) (e : Fin n) : s.modEnt e id = s := by simp [State.modEnt]

theorem clean_iupdate : Clean (s.iupdate e) e ↔ (s.ent e).di.type ≠ .free := by
  simp [Clean, State.iupdate]

theorem Same.mid (h : Same s s' e) (x : Pc n R) : Mid s' e x ↔ Mid s e x := by
  unfold Mid; rw [h.clean, h.valid, h.di, h.key, h.disk]

theorem Same.ok (h : Same s s' e) (hlock : s'.lock e = s.lock e)
    (hpc : ∀ p r, s.lock e = some (p, r) → s'.pc p = s.pc p ∨ (s.pc p).inside ≠ some e ∧ (s'.pc p).inside ≠ some e)
    (hok : Ok s e) : Ok s' e := by
  cases hl : s.lock e with
  | none => rwa [ok_of_free (hlock.trans hl), h.valid, h.clean, ← ok_of_free hl]
  | some x =>
    obtain ⟨p, r⟩ := x
    have hold : s.holds p e := holds_iff.2 ⟨r, hl⟩
    have hold' : s'.holds p e := holds_iff.2 ⟨r, hlock.trans hl⟩
    by_cases hin : (s.pc p).inside = some e
    · have hsame : s'.pc p = s.pc p := (hpc p r hl).resolve_right fun hne => hne.1 hin
      rwa [ok_of_inside hold' (by rw [hsame, hin]), hsame, h.mid, ← ok_of_inside hold hin]
    · have hin' : (s'.pc p).inside ≠ some e := by
        rcases hpc p r hl with hsame | hne
        · rwa [hsame]
        · exact hne.2
      rwa [ok_of_held hold' hin', h.valid, h.clean, ← ok_of_held hold hin]

/-- A process that works on an entry whose inode is free on disk relies on nothing there. -/
theorem Mid.of_free {x : Pc n R} (h : Mid s e x) (hk : (s.disk (s.ent e).key).type = .free) (hent : s'.ent = s.ent) :
    Mid s' e x := by
  have hno : ¬ Clean s e := fun hc => hc.2 (by rw [hc.1, hk])
  have hvac : ((s.ent e).valid = true → Clean s e) → (s'.ent e).valid = true → Clean s' e := fun hc hv =>
    absurd (hc (hent ▸ hv)) hno
  cases x with
  | update e' => exact absurd hk h.2.2.1
  | copy e' c => exact absurd hk h.2.alloc
  | put r e' k =>
    cases k with
    | count | trunc | free => exact absurd h.2 hno
    | clear => trivial
    | _ => exact hvac h
  | _ => exact hvac h

theorem Ok.of_free (h : Ok s e) (hk : (s.disk (s.ent e).key).type = .free) (hent : s'.ent = s.ent)
    (hlock : s'.lock = s.lock) (hpc : s'.pc = s.pc) : Ok s' e := by
  have hno : ¬ Clean s e := fun hc => hc.2 (by rw [hc.1, hk])
  cases hl : s.lock e with
  | none =>
    rw [ok_of_free hl] at h
    rw [ok_of_free (by rw [hlock, hl]), hent]
    exact fun hv => absurd (h hv) hno
  | some x =>
    have hold : s.holds x.1 e := holds_iff.2 ⟨x.2, hl⟩
    have hold' : s'.holds x.1 e := holds_iff.2 ⟨x.2, by rw [hlock, hl]⟩
    by_cases hin : (s.pc x.1).inside = some e
    · rw [ok_of_inside hold hin] at h
      rw [ok_of_inside hold' (by rw [hpc, hin]), hpc]
      exact h.of_free hk hent
    · rw [ok_of_held hold hin] at h; exact absurd h.2 hno

/-- A process that works on no entry but `e`. -/
def Pc.Within (x : Pc n R) (e : Fin n) : Prop := x.inside = none ∨ x.inside = some e

theorem Pc.Within.ne {x : Pc n R} {e' : Fin n} (h : x.Within e) (hne : e' ≠ e) : x.inside ≠ some e' := by
  rcases h with h | h
  · rw [h]; simp
  · rw [h]; exact fun heq => hne (Option.some.inj heq).symm

namespace Data

theorem at_entry (hd : Data s) (p : P) (e : Fin n) (hent : ∀ e', e' ≠ e → s'.ent e' = s.ent e')
    (hlock : ∀ e', e' ≠ e → s'.lock e' = s.lock e') (hpc : ∀ q, q ≠ p → s'.pc q = s.pc q)
    (hin : ∀ e', e' ≠ e → (s.pc p).inside ≠ some e' ∧ (s'.pc p).inside ≠ some e')
    (hdisk : ∀ e', e' ≠ e → 0 < (s.ent e').ref → s'.disk (s.ent e').key = s.disk (s.ent e').key)
    (hok : 0 < (s'.ent e).ref → Ok s' e) (hholes : ∀ k, (s'.disk k).type ≠ .free → (s'.disk k).NoHoles) : Data s' := by
  refine ⟨fun e' he' => ?_, hholes⟩
  by_cases hne : e' = e
  · rw [hne] at he' ⊢; exact hok he'
  · have hent' := hent e' hne
    rw [hent'] at he'
    have hsame : Same s s' e' := ⟨by rw [hent'], by rw [hent'], by rw [hent'], hdisk e' hne he'⟩
    refine hsame.ok (hlock e' hne) (fun q r hl => ?_) (hd.ok e' he')
    by_cases hq : q = p
    · rw [hq]; exact .inr (hin e' hne)
    · exact .inl (hpc q hq)

/-- A step that changes no contents, and that is not taken in the middle of a call. -/
theorem frame (hd : Data s) (hsame : ∀ e, 0 < (s'.ent e).ref → 0 < (s.ent e).ref ∧ Same s s' e)
    (hlock : s'.lock = s.lock) (hpc : ∀ q, s'.pc q = s.pc q ∨ (s.pc q).inside = none ∧ (s'.pc q).inside = none)
    (hdisk : s'.disk = s.disk) : Data s' := by
  refine ⟨fun e he => ?_, by rw [hdisk]; exact hd.disk⟩
  obtain ⟨hpos, hsame⟩ := hsame e he
  refine hsame.ok (by rw [hlock]) (fun q r _ => (hpc q).imp_right fun h => ?_) (hd.ok e hpos)
  rw [h.1, h.2]
  simp

variable {f : Inode → Inode} {x : Pc n R}

theorem recount (hd : Data s) (hpos : 0 < (s.ent e).ref) (hv : (f (s.ent e)).valid = (s.ent e).valid)
    (hk : (f (s.ent e)).key = (s.ent e).key) (hdi : (f (s.ent e)).di = (s.ent e).di) : Data (s.modEnt e f) := by
  refine hd.frame (fun e' he' => ⟨?_, same_modEnt s e hv hk hdi e'⟩) rfl (fun _ => .inl rfl) rfl
  by_cases hne : e' = e
  · rwa [hne]
  · rwa [modEnt_of_ne hne] at he'

theorem noHoles (hd : Data s) (h : Clean s e) : (s.ent e).di.NoHoles := by
  have := h.2; rw [h.1] at this ⊢; exact hd.disk _ this

theorem again [DecidableEq R] (hd : Data s) (hpos : 0 < (s.ent e).ref) :
    Data ((s.modEnt e fun x => { x with ref := x.ref + 1 }).setPtr r (some e)) :=
  (hd.recount (f := fun x => { x with ref := x.ref + 1 }) hpos rfl rfl rfl).frame (fun _ h => ⟨h, rfl, rfl, rfl, rfl⟩)
  rfl (fun _ => .inl rfl) rfl

/-- An inode is allocated: it is free, so no entry is a copy of it. -/
theorem ialloc (hd : Data s) {k : Key} {d : Dinode} (hk : (s.disk k).type = .free) (hh : d.NoHoles) :
    Data { s with disk := update s.disk k d } := by
  refine ⟨fun e he => ?_, fun k' hk' => ?_⟩
  · have hok := hd.ok e he
    by_cases hek : (s.ent e).key = k
    · rw [← hek] at hk; exact hok.of_free hk rfl rfl rfl
    · have hsame : Same s { s with disk := update s.disk k d } e := ⟨rfl, rfl, rfl, update_of_ne hek _ _⟩
      exact hsame.ok rfl (fun _ _ _ => .inl rfl) hok
  · by_cases hkk : k' = k
    · dsimp only at hk' ⊢; rw [hkk, update_self]; exact hh
    · dsimp only at hk' ⊢; rw [update_of_ne hkk] at hk' ⊢; exact hd.disk k' hk'

variable [Fintype R]

theorem mid (hd : Data s) (hr : Refs s) (hp : (s.pc p).inside = some e) : Mid s e (s.pc p) := by
  obtain ⟨r, hl⟩ := hr.inside p e hp
  exact (ok_of_inside (holds_iff.2 ⟨r, hl⟩) hp).1 (hd.ok e (hr.pos (hr.lock e p r hl)))

theorem working (hd : Data s) (hr : Refs s) (hp : s.pc p = x) (hx : x.inside = some e) :
    s.holds p e ∧ (s.pc p).Within e ∧ Mid s e x := by
  subst hp; exact ⟨holds_iff.2 (hr.inside p e hx), .inr hx, hd.mid hr hx⟩

/-- What the process that holds an entry knows of it between calls. -/
theorem held (hd : Data s) (hr : Refs s) (hold : s.holds p e) (hp : s.pc p = .idle) :
    (s.pc p).Within e ∧ (s.ent e).valid = true ∧ Clean s e := by
  obtain ⟨r, hl⟩ := holds_iff.1 hold
  have hnone : (s.pc p).inside = none := by rw [hp]; rfl
  exact ⟨.inl hnone, (ok_of_held hold (by rw [hnone]; simp)).1 (hd.ok e (hr.pos (hr.lock e p r hl)))⟩

theorem iget [DecidableEq R] (hd : Data s) (hr : Refs s) {k : Key} (hs : Icache.iget s r k = some s') : Data s' := by
  rcases iget_cases hs with ⟨e, hpos, rfl⟩ | ⟨e, href, -, rfl⟩
  · exact hd.again hpos
  · have hfree : s.lock e = none := by
      cases hl : s.lock e with
      | none => rfl
      | some x => exact absurd (hr.pos (hr.lock e x.1 x.2 hl)) (by rw [href]; exact lt_irrefl 0)
    refine ⟨fun e' he' => ?_, hd.disk⟩
    rw [setPtr_ent] at he'
    by_cases hne : e' = e
    · have hfree' : ((s.modEnt e fun x => { x with key := k, ref := 1, valid := false }).setPtr r (some e)).lock e =
          none := hfree
      rw [hne, ok_of_free hfree', setPtr_ent, modEnt_self]
      intro hv
      cases hv
    · rw [modEnt_of_ne hne] at he'
      have hent := modEnt_of_ne (s := s) hne fun x => { x with key := k, ref := 1, valid := false }
      have hsame : Same s ((s.modEnt e fun x => { x with key := k, ref := 1, valid := false }).setPtr r (some e)) e' :=
        ⟨by rw [setPtr_ent, hent], by rw [setPtr_ent, hent], by rw [setPtr_ent, hent], rfl⟩
      exact hsame.ok rfl (fun _ _ _ => .inl rfl) (hd.ok e' he')

variable [DecidableEq P]

section

variable (hd : Data s) (hr : Refs s) (hold : s.holds p e) (hp : (s.pc p).Within e)

include hd hr hold hp

/-- The process that holds `e` does something with it and goes on to `x`. -/
theorem work (hent : ∀ e', e' ≠ e → s'.ent e' = s.ent e') (hlock : s'.lock = s.lock) (hpc : s'.pc = update s.pc p x)
    (hdisk : ∀ k, k ≠ (s.ent e).key → s'.disk k = s.disk k)
    (hholes : (s'.disk (s.ent e).key).type ≠ .free → (s'.disk (s.ent e).key).NoHoles)
    (hx : x.inside = none ∧ (s'.ent e).valid = true ∧ Clean s' e ∨ x.inside = some e ∧ Mid s' e x) : Data s' := by
  obtain ⟨r, hl⟩ := holds_iff.1 hold
  have hpos := hr.pos (hr.lock e p r hl)
  have hpcp : s'.pc p = x := by rw [hpc, update_self]
  have hold' : s'.holds p e := holds_iff.2 ⟨r, by rw [hlock, hl]⟩
  have hxe : (s'.pc p).Within e := hpcp ▸ hx.imp And.left And.left
  refine hd.at_entry p e hent (fun _ _ => by rw [hlock]) (fun q hq => by rw [hpc, update_of_ne hq])
    (fun e' he' => ⟨hp.ne he', hxe.ne he'⟩) (fun e' he' hpos' => ?_) (fun _ => ?_) fun k => ?_
  · exact hdisk _ fun hkey => he' (hr.uniq e' e hpos' hpos hkey)
  · rcases hx with ⟨hout, hclean⟩ | ⟨hin, hmid⟩
    · rwa [ok_of_held hold' (by rw [hpcp, hout]; simp)]
    · rwa [ok_of_inside hold' (by rw [hpcp, hin]), hpcp]
  · by_cases hk : k = (s.ent e).key
    · rw [hk]; exact hholes
    · rw [hdisk k hk]; exact hd.disk k

theorem memory (hx : x.inside = none ∧ (f (s.ent e)).valid = true ∧ Clean (s.modEnt e f) e ∨
      x.inside = some e ∧ Mid (s.modEnt e f) e x) : Data ((s.modEnt e f).goto p x) := by
  rw [← modEnt_self (s := s) f] at hx
  exact hd.work hr hold hp (fun _ he' => modEnt_of_ne he' f) rfl rfl (fun _ _ => rfl) (hd.disk _) hx

theorem goto (hx : x.inside = none ∧ (s.ent e).valid = true ∧ Clean s e ∨ x.inside = some e ∧ Mid s e x) :
    Data (s.goto p x) :=
  hd.work hr hold hp (fun _ _ => rfl) rfl rfl (fun _ _ => rfl) (hd.disk _) hx

theorem written (hkey : (f (s.ent e)).key = (s.ent e).key)
    (hholes : (f (s.ent e)).di.type ≠ .free → (f (s.ent e)).di.NoHoles)
    (hx : x.inside = none ∧ (f (s.ent e)).valid = true ∧ (f (s.ent e)).di.type ≠ .free ∨
      x.inside = some e ∧ Mid ((s.modEnt e f).iupdate e) e x) : Data (((s.modEnt e f).iupdate e).goto p x) := by
  have hdisk : (((s.modEnt e f).iupdate e).goto p x).disk = update s.disk (s.ent e).key (f (s.ent e)).di := by
    show update s.disk ((s.modEnt e f).ent e).key ((s.modEnt e f).ent e).di = _
    rw [modEnt_self, hkey]
  rw [← modEnt_self (s := s) f, ← clean_iupdate] at hx
  refine hd.work hr hold hp (fun _ he' => modEnt_of_ne he' f) rfl rfl (fun k hk => ?_) ?_ hx
  · rw [hdisk, update_of_ne hk]
  · rw [hdisk, update_self]; exact hholes

end

omit [Fintype R] in
theorem acquire (hd : Data s) (hfree : s.lock e = none) (hp : (s.pc p).inside = none) (hx : x.inside = some e)
    (hmid : ∀ t : State n P R, Mid t e x ↔ ((t.ent e).valid = true → Clean t e)) :
    Data ((s.setLock e (some (p, r))).goto p x) := by
  have hpc : ((s.setLock e (some (p, r))).goto p x).pc p = x := goto_self p x
  have hsame : Same s ((s.setLock e (some (p, r))).goto p x) e := ⟨rfl, rfl, rfl, rfl⟩
  refine hd.at_entry p e (fun _ _ => rfl) (fun e' he' => setLock_of_ne he' _) (fun q hq => goto_of_ne hq x)
    (fun e' he' => ?_) (fun _ _ _ => rfl) (fun hpos => ?_) hd.disk
  · rw [hp, hpc, hx]; exact ⟨by simp, fun h => he' (Option.some.inj h).symm⟩
  · have hold : ((s.setLock e (some (p, r))).goto p x).holds p e := holds_iff.2 ⟨r, setLock_self _⟩
    rw [ok_of_inside hold (by rw [hpc, hx]), hpc, hmid, hsame.valid, hsame.clean]
    exact (ok_of_free hfree).1 (hd.ok e hpos)

omit [Fintype R] in
theorem unlock (hd : Data s) (hp : (s.pc p).Within e) (hx : x.inside = none)
    (hclean : (s.ent e).valid = true → Clean s e) : Data ((s.setLock e none).goto p x) := by
  have hpc : ((s.setLock e none).goto p x).pc p = x := goto_self p x
  have hsame : Same s ((s.setLock e none).goto p x) e := ⟨rfl, rfl, rfl, rfl⟩
  refine hd.at_entry p e (fun _ _ => rfl) (fun e' he' => setLock_of_ne he' _) (fun q hq => goto_of_ne hq x)
    (fun e' he' => ⟨hp.ne he', by rw [hpc, hx]; simp⟩) (fun _ _ _ => rfl) (fun _ => ?_) hd.disk
  have hfree : ((s.setLock e none).goto p x).lock e = none := setLock_self _
  rw [ok_of_free hfree, hsame.valid, hsame.clean]
  exact hclean

theorem iputNext [DecidableEq R] (hd : Data s) (hr : Refs s) (hp : s.pc p = .put r e k)
    (hs : Icache.iputNext s p r e k = some s') :
    Data s' := by
  cases k with
  | acquire =>
    obtain ⟨hfree, ⟨⟩⟩ := Option.ite_none_right_eq_some.1 hs
    exact hd.acquire hfree (by rw [hp]; rfl) rfl fun t => Iff.rfl
  | test =>
    cases hs
    obtain ⟨hold, hin, hclean⟩ := hd.working hr hp rfl
    refine hd.goto hr hold hin (.inr ?_)
    split
    · rename_i hv; exact ⟨rfl, hv.1, hclean hv.1⟩
    · exact ⟨rfl, hclean⟩
  | count =>
    cases hs
    obtain ⟨hold, hin, hv, hclean⟩ := hd.working hr hp rfl
    refine hd.goto hr hold hin (.inr ?_)
    split
    · exact ⟨rfl, hv, hclean⟩
    · exact ⟨rfl, fun _ => hclean⟩
  | trunc =>
    cases hs
    obtain ⟨hold, hin, hv, hclean⟩ := hd.working hr hp rfl
    refine hd.written hr hold hin rfl (fun _ => noHoles_itrunc _) (.inr ⟨rfl, ?_, clean_iupdate.2 ?_⟩)
    · rw [iupdate_ent, modEnt_self]; exact hv
    · rw [modEnt_self]; exact hclean.2
  | free =>
    cases hs
    obtain ⟨hold, hin, -⟩ := hd.working hr hp rfl
    have hclear := hd.written (f := fun x => { x with di := { x.di with type := .free } }) (x := .put r e .clear) hr
      hold hin rfl (fun h => absurd rfl h) (.inr ⟨rfl, trivial⟩)
    exact hclear.frame (fun _ h => ⟨h, rfl, rfl, rfl, rfl⟩) rfl (fun _ => .inl rfl) rfl
  | clear =>
    cases hs
    obtain ⟨hold, hin, -⟩ := hd.working hr hp rfl
    refine hd.memory hr hold hin (.inr ⟨rfl, fun hv => ?_⟩)
    rw [modEnt_self] at hv
    cases hv
  | release =>
    cases hs
    obtain ⟨-, hin, hclean⟩ := hd.working hr hp rfl
    exact hd.unlock hin rfl hclean
  | drop =>
    cases hs
    have hpos := hr.pos (hr.on p r e (by rw [hp]; rfl))
    have hcount := hd.recount (f := fun x => { x with ref := x.ref - 1 }) hpos rfl rfl rfl
    refine hcount.frame (fun e' he' => ⟨he', rfl, rfl, rfl, rfl⟩) rfl (fun q => ?_) rfl
    by_cases hq : q = p
    · rw [hq, goto_self]
      have hpc : (s.pc p).inside = none := by rw [hp]; rfl
      exact .inr ⟨hpc, rfl⟩
    · exact .inl (goto_of_ne hq _)

theorem copyNext (hd : Data s) (hr : Refs s) (hb : b ≠ 0) (hp : s.pc p = .copy e c)
    (hs : Icache.copyNext s p e c b = some s') : Data s' := by
  obtain ⟨hold, hin, hv, hcopy⟩ := hd.working hr hp rfl
  unfold Icache.copyNext at hs
  split at hs
  · rename_i hleft
    obtain ⟨d, hmap, hs⟩ := Option.bind_eq_some_iff.1 hs
    cases hs
    refine hd.memory hr hold hin (.inr ⟨rfl, ?_, ?_⟩)
    · rw [modEnt_self]; exact hv
    · rw [modEnt_self]; exact hcopy.step hb hleft hmap
  · split at hs
    · rename_i hgrow
      cases hs
      refine hd.memory hr hold hin (.inr ⟨rfl, ?_⟩)
      unfold Mid
      rw [modEnt_self]
      exact ⟨hv, hcopy.type_ne, hcopy.alloc, hcopy.noHoles hgrow.2.2⟩
    · rename_i hsame
      cases hs
      exact hd.goto hr hold hin (.inl ⟨rfl, hv, hcopy.eq_disk hsame, hcopy.type_ne⟩)

theorem next [DecidableEq R] (hd : Data s) (hr : Refs s) (hb : b ≠ 0) (hs : Icache.next s p b = some s') : Data s' := by
  unfold Icache.next at hs
  cases hp : s.pc p with rw [hp] at hs
  | idle => cases hs
  | lock r e =>
    obtain ⟨hfree, ⟨⟩⟩ := Option.ite_none_right_eq_some.1 hs
    exact hd.acquire hfree (by rw [hp]; rfl) rfl fun t => Iff.rfl
  | load r e =>
    obtain ⟨hold, hin, hmid⟩ := hd.working hr hp rfl
    dsimp only at hs
    split at hs
    · rename_i hv; cases hs; exact hd.goto hr hold hin (.inl ⟨rfl, hv, hmid hv⟩)
    · split at hs
      · cases hs
      · rename_i htype
        cases hs
        refine hd.memory hr hold hin (.inl ⟨rfl, rfl, ?_⟩)
        unfold Clean
        rw [modEnt_self]
        exact ⟨rfl, htype⟩
  | update e =>
    obtain ⟨hold, hin, hv, htype, -, hholes⟩ := hd.working hr hp rfl
    cases hs
    have hup := hd.written (f := id) (x := .idle) hr hold hin rfl (fun _ => hholes) (.inl ⟨rfl, hv, htype⟩)
    rwa [modEnt_id] at hup
  | copy e c => exact hd.copyNext hr hb hp hs
  | put r e k => exact hd.iputNext hr hp hs

omit [Fintype R] in
theorem enter (hd : Data s) (hidle : s.pc p = .idle) (hx : x.inside = none) : Data (s.goto p x) := by
  refine hd.frame (fun _ h => ⟨h, rfl, rfl, rfl, rfl⟩) rfl (fun q => ?_) rfl
  by_cases hq : q = p
  · rw [hq, goto_self, hidle, hx]; exact .inr ⟨rfl, rfl⟩
  · exact .inl (goto_of_ne hq x)

theorem enterCopy (hd : Data s) (hr : Refs s) (hold : s.holds p e) (hidle : s.pc p = .idle) {c : Copy}
    (hoff : c.off ≤ (s.ent e).di.size) (hread : c.write = false → c.off + c.left ≤ (s.ent e).di.size)
    (hleft : c.left ≤ c.n) :
    Data (s.goto p (.copy e c)) := by
  obtain ⟨hin, hv, hclean⟩ := hd.held hr hold hidle
  have hcopy := Copying.start hclean.2 (hd.noHoles hclean) hoff hread hleft
  refine hd.goto hr hold hin (.inr ⟨rfl, hv, ?_⟩)
  rw [← hclean.1]
  exact hcopy

theorem step [DecidableEq R] [Fintype P] (hd : Data s) (hr : Refs s) (hs : Icache.step s a = some s') :
    Data s' := by
  cases a with
  | iget p r k => obtain ⟨-, hs⟩ := Option.ite_none_right_eq_some.1 hs; exact hd.iget hr hs
  | idup p r r' =>
    simp only [Icache.step] at hs
    split at hs
    · rename_i e hptr
      obtain ⟨-, ⟨⟩⟩ := Option.ite_none_right_eq_some.1 hs
      exact hd.again (hr.pos hptr)
    · cases hs
  | ilock p r | iput p r =>
    simp only [Icache.step] at hs
    split at hs
    · obtain ⟨⟨hidle, -⟩, ⟨⟩⟩ := Option.ite_none_right_eq_some.1 hs; exact hd.enter hidle rfl
    · cases hs
  | next p b => obtain ⟨hb, hs⟩ := Option.ite_none_right_eq_some.1 hs; exact hd.next hr hb hs
  | change p e c =>
    obtain ⟨⟨hidle, hold⟩, ⟨⟩⟩ := Option.ite_none_right_eq_some.1 hs
    obtain ⟨hin, hv, hclean⟩ := hd.held hr hold hidle
    have htype : (s.disk (s.ent e).key).type ≠ .free := hclean.1 ▸ hclean.2
    have hholes := hd.noHoles hclean
    refine hd.memory hr hold hin (.inr ⟨rfl, ?_⟩)
    unfold Mid
    rw [modEnt_self]
    cases c <;> exact ⟨hv, hclean.2, htype, hholes⟩
  | readi p e off m =>
    obtain ⟨⟨hidle, hold, -⟩, hs⟩ := Option.ite_none_right_eq_some.1 hs
    split at hs
    · cases hs; exact hd
    · rename_i hoff
      cases hs
      refine hd.enterCopy hr hold hidle (by dsimp only; omega) (fun _ => ?_) (min_le_left _ _)
      dsimp only
      omega
  | writei p e off m =>
    obtain ⟨⟨hidle, hold, -⟩, hs⟩ := Option.ite_none_right_eq_some.1 hs
    split at hs
    · cases hs; exact hd
    · rename_i hoff
      cases hs
      exact hd.enterCopy hr hold hidle (by dsimp only; omega) (fun h => by cases h) le_rfl
  | iunlock p e =>
    obtain ⟨⟨hidle, hold⟩, ⟨⟩⟩ := Option.ite_none_right_eq_some.1 hs
    obtain ⟨hin, -, hclean⟩ := hd.held hr hold hidle
    have hun := hd.unlock (x := .idle) hin rfl fun _ => hclean
    refine hun.frame (fun _ h => ⟨h, rfl, rfl, rfl, rfl⟩) rfl (fun q => ?_) rfl
    by_cases hq : q = p
    · rw [hq, goto_self]; exact .inl hidle
    · exact .inl (goto_of_ne hq _).symm
  | ialloc p k type =>
    obtain ⟨⟨-, hk, -⟩, ⟨⟩⟩ := Option.ite_none_right_eq_some.1 hs
    exact hd.ialloc hk (noHoles_itrunc { type := type })

end Data

section

variable [DecidableEq P] [DecidableEq R]

/-- A step of `iput` changes one entry, and of this neither the inode it is of nor its links; the last one takes
the count down. -/
theorem iputNext_modEnt (hs : iputNext s p r e k = some s') : ∃ f : Inode → Inode, s'.ent = (s.modEnt e f).ent ∧
    ∀ x, (f x).key = x.key ∧ (f x).di.nlink = x.di.nlink ∧ (k ≠ .clear → (f x).valid = x.valid) ∧
      ((f x).valid = true → x.valid = true) ∧ ((f x).ref = x.ref ∨ k = .drop ∧ (f x).ref = x.ref - 1) := by
  cases k with
  | acquire =>
    obtain ⟨-, ⟨⟩⟩ := Option.ite_none_right_eq_some.1 hs
    exact ⟨id, by rw [modEnt_id]; rfl, fun x => ⟨rfl, rfl, fun _ => rfl, id, .inl rfl⟩⟩
  | test | count | release =>
    cases hs; exact ⟨id, by rw [modEnt_id]; rfl, fun x => ⟨rfl, rfl, fun _ => rfl, id, .inl rfl⟩⟩
  | trunc =>
    cases hs
    exact ⟨fun x => { x with di := itrunc x.di }, rfl, fun x => ⟨rfl, rfl, fun _ => rfl, id, .inl rfl⟩⟩
  | free =>
    cases hs
    exact ⟨fun x => { x with di := { x.di with type := .free } }, rfl, fun x => ⟨rfl, rfl, fun _ => rfl, id, .inl rfl⟩⟩
  | clear =>
    cases hs
    exact ⟨fun x => { x with valid := false }, rfl, fun x => ⟨rfl, rfl, fun h => absurd rfl h, (by cases ·), .inl rfl⟩⟩
  | drop =>
    cases hs
    exact ⟨fun x => { x with ref := x.ref - 1 }, rfl, fun x => ⟨rfl, rfl, fun _ => rfl, id, .inr ⟨rfl, rfl⟩⟩⟩

theorem iputNext_key (hs : iputNext s p r e k = some s') (e' : Fin n) : (s'.ent e').key = (s.ent e').key := by
  obtain ⟨f, hent, hf⟩ := iputNext_modEnt hs
  rw [hent]
  exact modEnt_eq Inode.key (hf _).1 e'

end

/-! ## What a step makes of an entry -/

/-- The entry whose count a step of `iput` takes down. -/
def dropped (s : State n P R) : Act n P R → Option (Fin n)
  | .next p _ => match s.pc p with
    | .put _ e .drop => some e
    | _ => none
  | _ => none

/-- The entry `x` that step `a` makes of entry `e`. Only one that is not in use is given to another inode, and one
that is valid afterwards is in use, or it was valid and keeps its count but for the `ref--` of an `iput`. -/
structure Turns (s : State n P R) (a : Act n P R) (e : Fin n) (x : Inode) : Prop where
  key : 0 < (s.ent e).ref → x.key = (s.ent e).key
  used : x.valid = true → 0 < x.ref ∨ (s.ent e).valid = true ∧
    (x.ref = (s.ent e).ref ∨ dropped s a = some e ∧ x.ref = (s.ent e).ref - 1)

namespace Turns

variable {x : Inode}

theorem of_eq (hk : x.key = (s.ent e).key) (hr : x.ref = (s.ent e).ref) (hv : x.valid = (s.ent e).valid) :
    Turns s a e x :=
  ⟨fun _ => hk, fun h => .inr ⟨hv ▸ h, .inl hr⟩⟩

theorem refl (e : Fin n) : Turns s a e (s.ent e) := of_eq rfl rfl rfl

theorem change (hent : s'.ent = update s.ent e x) (h : Turns s a e x) (e' : Fin n) : Turns s a e' (s'.ent e') := by
  rw [hent]
  by_cases he : e' = e
  · rwa [he, update_self]
  · rw [update_of_ne he]; exact refl e'

variable [Fintype R] [DecidableEq P] [DecidableEq R]

theorem next (hr : Refs s) (hs : Icache.next s p b = some s') (e' : Fin n) :
    Turns s (.next p b) e' (s'.ent e') := by
  unfold Icache.next at hs
  cases hp : s.pc p with rw [hp] at hs
  | idle => cases hs
  | lock r e => obtain ⟨-, ⟨⟩⟩ := Option.ite_none_right_eq_some.1 hs; exact refl e'
  | load r e =>
    have hpos : 0 < (s.ent e).ref := hr.pos (hr.on p r e (by rw [hp]; rfl))
    dsimp only at hs
    split at hs
    · cases hs; exact refl e'
    · split at hs <;> cases hs
      refine change rfl ?_ e'; exact ⟨fun _ => rfl, fun _ => .inl hpos⟩
  | update e => cases hs; exact refl e'
  | copy e c =>
    simp only [copyNext] at hs
    split at hs
    · obtain ⟨d, -, ⟨⟩⟩ := Option.bind_eq_some_iff.1 hs
      refine change rfl ?_ e'; exact of_eq rfl rfl rfl
    · split at hs <;> cases hs
      · refine change rfl ?_ e'; exact of_eq rfl rfl rfl
      · exact refl e'
  | put r e k =>
    obtain ⟨f, hent, hf⟩ := iputNext_modEnt hs
    obtain ⟨hkey, -, -, hvalid, href⟩ := hf (s.ent e)
    refine change hent ⟨fun _ => hkey, fun hv => .inr ⟨hvalid hv, href.imp_right fun h => ⟨?_, h.2⟩⟩⟩ e'
    simp only [dropped, hp, h.1]

variable [Fintype P]

theorem step (hr : Refs s) (hs : Icache.step s a = some s') (e' : Fin n) : Turns s a e' (s'.ent e') := by
  cases a with
  | iget p r k =>
    obtain ⟨-, hs⟩ := Option.ite_none_right_eq_some.1 hs
    rcases iget_cases hs with ⟨e, -, rfl⟩ | ⟨e, href, -, rfl⟩
    · refine change rfl ?_ e'; exact ⟨fun _ => rfl, fun _ => .inl (Nat.succ_pos _)⟩
    · refine change rfl ?_ e'
      exact ⟨fun h => absurd h (by rw [href]; exact lt_irrefl 0), (by cases ·)⟩
  | idup p r r' =>
    simp only [Icache.step] at hs
    split at hs
    · obtain ⟨-, ⟨⟩⟩ := Option.ite_none_right_eq_some.1 hs
      refine change rfl ?_ e'; exact ⟨fun _ => rfl, fun _ => .inl (Nat.succ_pos _)⟩
    · cases hs
  | ilock p r | iput p r =>
    simp only [Icache.step] at hs
    split at hs
    · obtain ⟨-, ⟨⟩⟩ := Option.ite_none_right_eq_some.1 hs; exact refl e'
    · cases hs
  | next p b => exact next hr (Option.ite_none_right_eq_some.1 hs).2 e'
  | change p e c =>
    obtain ⟨-, ⟨⟩⟩ := Option.ite_none_right_eq_some.1 hs
    refine change rfl ?_ e'; exact of_eq rfl rfl rfl
  | readi p e off m | writei p e off m =>
    obtain ⟨-, hs⟩ := Option.ite_none_right_eq_some.1 hs
    split at hs <;> cases hs <;> exact refl e'
  | iunlock p e | ialloc p k type =>
    obtain ⟨-, ⟨⟩⟩ := Option.ite_none_right_eq_some.1 hs; exact refl e'

end Turns

/-! ## Runs -/

theorem refs_iinit [Fintype R] (h : iinit s) : Refs s := by
  obtain ⟨-, hent, hlock, hptr, hpc, -⟩ := h
  refine ⟨fun e => ?_, fun e e' he => ?_, fun p r e hp => ?_, fun p e hp => ?_, fun e p r hl => ?_,
    fun p r e k hp => ?_⟩
  · rw [hent e, pointers_eq_zero.2 fun r => by rw [hptr r]; simp]
  · rw [hent e] at he; exact absurd he (lt_irrefl 0)
  · rw [hpc p] at hp; cases hp
  · rw [hpc p] at hp; cases hp
  · rw [hlock e] at hl; cases hl
  · rw [hpc p] at hp; cases hp

variable [Fintype R] [DecidableEq P] [DecidableEq R] [Fintype P]

theorem refs_reachable (h : Reachable iinit step s) : Refs s :=
  Reach.inv (fun _ => refs_iinit) (fun _ _ _ hr _ hs => hr.step hs) h

theorem data_reachable (h : Reachable iinit step s) : Data s := by
  refine Reach.inv_of (fun _ => refs_reachable) (fun s hs => ⟨fun e he => ?_, hs.1⟩)
    (fun _ _ _ hr hd _ hs => hd.step hr hs) h
  rw [hs.2.1 e] at he
  exact absurd he (lt_irrefl 0)

/-- No `iput` gives up the last reference of an entry that stays valid. -/
def LastCleared (s : State n P R) (a : Act n P R) : Prop :=
  ∀ e, dropped s a = some e → (s.ent e).ref = 1 → (s.ent e).valid = false

instance (s : State n P R) (a : Act n P R) : Decidable (LastCleared s a) := inferInstanceAs (Decidable (∀ _, _))

def ValidUsed (s : State n P R) : Prop := ∀ e, (s.ent e).valid = true → 0 < (s.ent e).ref

theorem ValidUsed.step (h : ValidUsed s) (hr : Refs s) (hok : LastCleared s a) (hs : Icache.step s a = some s') :
    ValidUsed s' := by
  intro e hv
  rcases (Turns.step hr hs e).used hv with hpos | ⟨hv, href | ⟨hdrop, href⟩⟩
  · exact hpos
  · rw [href]; exact h e hv
  · have hpos := h e hv
    have hne : (s.ent e).ref ≠ 1 := fun hone => by
      rw [hok e hdrop hone] at hv; cases hv
    omega

theorem ValidUsed.of_reach (h : Reach iinit Icache.step LastCleared s) : ValidUsed s := by
  refine Reach.inv_of (fun _ hs => refs_reachable (hs.mono fun _ _ _ => trivial)) (fun s hs e hv => ?_)
    (fun _ _ _ hr hv hok hs => hv.step hr hok hs) h
  rw [hs.2.1 e] at hv
  cases hv

/-- However the processes' steps interleave, no inode has two entries in use, `ref` counts the pointers to an
entry, an entry in use is not given to another inode, and one that is valid and not locked is equal to its
inode on disk; so is any valid entry, if `iput` never leaves one valid whose last reference it gives up. -/
theorem inode_cache {s : State n P R} (h : Reachable iinit step s) :
    (∀ e e', 0 < (s.ent e).ref → 0 < (s.ent e').ref → (s.ent e).key = (s.ent e').key → e = e') ∧
    (∀ e, (s.ent e).ref = pointers s.ptr e) ∧
    (∀ a s' e, step s a = some s' → 0 < (s.ent e).ref → (s'.ent e).key = (s.ent e).key) ∧
    (∀ e, 0 < (s.ent e).ref → (s.ent e).valid = true → s.lock e = none → (s.ent e).di = s.disk (s.ent e).key) ∧
    (Reach iinit step LastCleared s → ∀ e, (s.ent e).valid = true → s.lock e = none →
      (s.ent e).di = s.disk (s.ent e).key) := by
  have hr := refs_reachable h
  have hd := data_reachable h
  have heq : ∀ e, 0 < (s.ent e).ref → (s.ent e).valid = true → s.lock e = none →
      (s.ent e).di = s.disk (s.ent e).key := fun e hpos hv hl => ((ok_of_free hl).1 (hd.ok e hpos) hv).1
  refine ⟨hr.uniq, hr.count, fun a s' e hs => (Turns.step hr hs e).key, heq, fun hlast e hv hl => ?_⟩
  exact heq e (ValidUsed.of_reach hlast e hv) hv hl

def twoFiles : Key → Dinode
  | (1, 1) | (1, 2) => { type := .file, nlink := 1 }
  | _ => {}

def boot : State 2 Unit Bool where
  ent _ := {}
  lock _ := none
  ptr _ := none
  pc _ := .idle
  disk := twoFiles

theorem boot_iinit : iinit boot := by
  refine ⟨fun k _ bn hbn => ?_, fun _ => rfl, fun _ => rfl, fun _ => rfl, fun _ => rfl, rfl⟩
  have hsize : (boot.disk k).size = 0 := by
    show (twoFiles k).size = 0
    unfold twoFiles
    split <;> rfl
  rw [hsize, nblocks_zero] at hbn
  exact absurd hbn not_lt_zero

/-- The files are both opened, the second one is read, both are closed, and the second one is opened again,
at the first entry, and linked. -/
def reopened (e e' : Fin 2) : List (Act 2 Unit Bool) :=
  let go := Act.next () 1
  [.iget () false (1, 1), .iget () true (1, 2), .ilock () true, go, go, .iunlock () e', .iput () false, go, go, go, go,
    .iput () true, go, go, go, go, .iget () true (1, 2), .ilock () true, go, go, .change () e .inc, go, .iunlock () e]

/-- An entry that is not in use stays valid and is not updated. -/
theorem unused_entry_stale : ∃ s : State 2 Unit Bool, Reachable iinit step s ∧
    (s.ent 1).valid = true ∧ s.lock 1 = none ∧ (s.ent 1).di.nlink ≠ (s.disk (s.ent 1).key).nlink := by
  have hrun : (runActs step boot (reopened 0 1)).any (fun s => decide ((s.ent 1).valid = true ∧ s.lock 1 = none ∧
      (s.ent 1).di.nlink ≠ (s.disk (s.ent 1).key).nlink)) = true := by decide +kernel
  obtain ⟨s, hr, hs⟩ := exists_reachable_of_run iinit boot_iinit _ _ hrun
  exact ⟨s, hr, of_decide_eq_true hs⟩

/-- The first file is opened twice and linked, and one of its references is given up; so is the only one of the
second, which was not read. -/
def linked (e : Fin 2) : List (Act 2 Unit Bool) :=
  let go := Act.next () 1
  [.iget () false (1, 1), .iget () true (1, 1), .ilock () true, go, go, .change () e .inc, go, .iunlock () e,
    .iput () true, go, go, go, go, .iget () true (1, 2), .iput () true, go, go, go, go]

theorem inode_cache_linked : ∃ s : State 2 Unit Bool, Reach iinit step LastCleared s ∧ (s.ent 0).ref = 1 ∧
    (s.ent 1).ref = 0 ∧ (s.ent 0).valid = true ∧ s.lock 0 = none ∧ (s.ent 0).di.nlink = 2 ∧
    (s.ent 0).di = s.disk (s.ent 0).key := by
  have hrun : (runActs (guarded step LastCleared) boot (linked 0)).any (fun s => decide ((s.ent 0).ref = 1 ∧
      (s.ent 1).ref = 0 ∧ (s.ent 0).valid = true ∧ s.lock 0 = none ∧ (s.ent 0).di.nlink = 2)) = true := by
    decide +kernel
  obtain ⟨s, hr, hs⟩ := exists_reach_of_guarded_run iinit LastCleared boot_iinit _ _ hrun
  obtain ⟨h0, h1, hv, hl, hlink⟩ := of_decide_eq_true hs
  have hcache := inode_cache (hr.mono fun _ _ _ => trivial)
  exact ⟨s, hr, h0, h1, hv, hl, hlink, hcache.2.2.2.2 hr 0 hv hl⟩

end Xv6.Icache
