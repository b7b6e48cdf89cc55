/-
How processes move between the run queues. `Moves` says once what a section of the kernel may do to the
queues and to the current processes of the CPUs: a woken or new process goes to the tail of an
E-core's queue, one that yields to the tail of its own CPU's, `load_balance` moves a process other than
init and sh to a P-core, and `scheduler` takes from its own queue the head (E-core) or the first of the
oldest (P-core).
-/
import Xv6.Sched.Inv

namespace Xv6.Sched

open Base

variable {n : Nat} {b : Bool} {s s' : Kernel n} {q q' : Fin n → List Slot} {p : Slot} {c : Fin n}

/-! ## The choice of the scheduler -/

/-- The place of the process `scheduler` takes from the queue of `c`: the head on an E-core, the first
with the smallest `ctime` on a P-core. -/
def Chosen (s : Kernel n) (c : Fin n) (pre : List Slot) (p : Slot) (post : List Slot) : Prop :=
  match (s.cpus c).coreType with
  | .coreE => pre = []
  | .coreP => (∀ x ∈ pre, (s.proc p).ctime < (s.proc x).ctime) ∧ ∀ x ∈ post, (s.proc p).ctime ≤ (s.proc x).ctime

theorem foldl_older_first (s : Kernel n) : ∀ (l : List Slot) (o : Slot), (∀ x ∈ l, (s.proc x).state = .runnable) →
    ∃ pre p post, o :: l = pre ++ p :: post ∧ l.foldl (older s) (some o) = some p ∧
      (∀ x ∈ pre, (s.proc p).ctime < (s.proc x).ctime) ∧ ∀ x ∈ post, (s.proc p).ctime ≤ (s.proc x).ctime
  | [], o, _ => ⟨[], o, [], rfl, rfl, by simp, by simp⟩
  | a :: l, o, hl => by
    have ha := hl a (.head _)
    have hl' := fun x hx => hl x (List.mem_cons_of_mem a hx)
    rw [List.foldl_cons]
    by_cases hlt : (s.proc a).ctime < (s.proc o).ctime
    · have ho : older s (some o) a = some a := by simp [older, ha, hlt]
      obtain ⟨pre, p, post, e, hf, h1, h2⟩ := foldl_older_first s l a hl'
      rw [ho]
      refine ⟨o :: pre, p, post, by rw [e]; rfl, hf, ?_, h2⟩
      intro x hx
      rcases List.mem_cons.1 hx with rfl | hx
      · -- the choice is `a` or older
        cases pre with
        | nil => have : a = p := (List.cons.inj e).1; rw [← this]; exact hlt
        | cons y pre =>
          have hy : a = y := (List.cons.inj e).1
          have := h1 y (.head _)
          rw [← hy] at this
          rw [UInt32.lt_iff_toNat_lt] at *
          omega
      · exact h1 x hx
    · have ho : older s (some o) a = some o := by simp [older, ha, hlt]
      obtain ⟨pre, p, post, e, hf, h1, h2⟩ := foldl_older_first s l o hl'
      rw [ho]
      cases pre with
      | nil =>
        obtain ⟨rfl, rfl⟩ := List.cons.inj e
        refine ⟨[], o, a :: l, rfl, hf, by simp, ?_⟩
        intro x hx
        rcases List.mem_cons.1 hx with rfl | hx
        · rw [UInt32.lt_iff_toNat_lt] at hlt; rw [UInt32.le_iff_toNat_le]; omega
        · exact h2 x hx
      | cons y pre =>
        obtain ⟨rfl, rfl⟩ := List.cons.inj e
        refine ⟨o :: a :: pre, p, post, rfl, hf, ?_, h2⟩
        intro x hx
        rcases List.mem_cons.1 hx with rfl | hx
        · exact h1 x (.head _)
        · rcases List.mem_cons.1 hx with rfl | hx
          · have := h1 o (.head _)
            rw [UInt32.lt_iff_toNat_lt] at *
            omega
          · exact h1 x (.tail _ hx)

theorem select_chosen (h : QInv s q) (hr : ∀ x ∈ q c, (s.proc x).state = .runnable) (hs : select s c = some (some p)) :
    ∃ pre post, q c = pre ++ p :: post ∧ Chosen s c pre p post := by
  unfold select at hs
  unfold Chosen
  cases ht : (s.cpus c).coreType with
  | coreE =>
    rw [ht] at hs
    simp only at hs ⊢
    rw [findFrom_chain (h.chain c) (h.length_le c)] at hs
    cases hq : q c with
    | nil => rw [hq] at hs; cases hs
    | cons a l =>
      have ha := hr a (by rw [hq]; exact .head _)
      rw [hq] at hs
      simp only [List.find?_cons, ha, decide_true, Option.some.injEq] at hs
      exact ⟨[], l, by rw [hs]; rfl, rfl⟩
  | coreP =>
    rw [ht] at hs
    simp only at hs ⊢
    rw [foldFrom_chain (h.chain c) (h.length_le c)] at hs
    cases hq : q c with
    | nil => rw [hq] at hs; cases hs
    | cons a l =>
      have ha := hr a (by rw [hq]; exact .head _)
      obtain ⟨pre, r, post, e, hf, h1, h2⟩ :=
        foldl_older_first s l a fun x hx => hr x (by rw [hq]; exact List.mem_cons_of_mem a hx)
      have ho : older s none a = some a := by simp [older, ha]
      rw [hq, List.foldl_cons, ho, hf] at hs
      cases hs
      exact ⟨pre, post, e, h1, h2⟩

/-! ## Moves -/

/-- What a step does to the queues and the current processes. -/
inductive Moves (s : Kernel n) (q : Fin n → List Slot) (s' : Kernel n) (q' : Fin n → List Slot) : Prop
  | push (hq : Pushes s q q' fun _ => True)
      (hcur : ∀ d, (s'.cpus d).proc = (s.cpus d).proc ∨ (s'.cpus d).proc = none) : Moves s q s' q'
  | yield (c : Fin n) (p : Slot) (hp : (s.cpus c).proc = some p) (hq : q' = Function.update q c (q c ++ [p]))
      (hcur : ∀ d, (s'.cpus d).proc = if d = c then none else (s.cpus d).proc) : Moves s q s' q'
  | balance (c : Fin n) (hq : Balanced s c q q') (hcur : ∀ d, (s'.cpus d).proc = (s.cpus d).proc) : Moves s q s' q'
  | pick (c : Fin n) (q0 : Fin n → List Slot) (p : Slot) (pre post : List Slot) (hc : (s.cpus c).proc = none)
      (hbal : Balanced s c q q0) (hl : q0 c = pre ++ p :: post) (hch : Chosen s c pre p post)
      (hq : q' = Function.update q0 c (pre ++ post))
      (hcur : ∀ d, (s'.cpus d).proc = if d = c then some p else (s.cpus d).proc) : Moves s q s' q'

theorem Moves.still (hcur : ∀ d, (s'.cpus d).proc = (s.cpus d).proc ∨ (s'.cpus d).proc = none) : Moves s q s' q :=
  .push (.refl s q _) hcur

theorem idle_cpu (s : Kernel n) (c d : Fin n) : ((s.idle c).cpus d).proc = (if d = c then none else (s.cpus d).proc) ∧
    ((s.idle c).cpus d).coreType = (s.cpus d).coreType := by
  rw [setCur_cpus]; exact ⟨rfl, rfl⟩

theorem moves_idle (hcpu : ∀ d, (s'.cpus d).proc = (s.cpus d).proc ∧ (s'.cpus d).coreType = (s.cpus d).coreType)
    (hq : Pushes s q q' fun _ => True) :
    Moves s q (s'.idle c) q' ∧ ∀ d, ((s'.idle c).cpus d).coreType = (s.cpus d).coreType := by
  refine ⟨.push hq fun d => ?_, fun d => (idle_cpu s' c d).2.trans (hcpu d).2⟩
  rw [(idle_cpu s' c d).1, (hcpu d).1]
  split
  · exact .inr rfl
  · exact .inl rfl

theorem Moves.congr {t : Kernel n} (h : Moves t q s' q') (hc : t.cpus = s.cpus) (hp : t.proc = s.proc) :
    Moves s q s' q' := by
  have hbal : ∀ {c q0}, Balanced t c q q0 → Balanced s c q q0 := fun hb => by simpa only [Balanced, hc, hp] using hb
  cases h with
  | push hq hcur => exact .push (hq.congr fun c => by rw [hc]) fun d => by rw [← hc]; exact hcur d
  | yield c p hp hq hcur => exact .yield c p (by rw [← hc]; exact hp) hq fun d => by rw [← hc]; exact hcur d
  | balance c hq hcur => exact .balance c (hbal hq) fun d => by rw [← hc]; exact hcur d
  | pick c q0 p pre post h0 hb hl hch hq hcur =>
    exact .pick c q0 p pre post (by rw [← hc]; exact h0) (hbal hb) hl (by simpa only [Chosen, hc, hp] using hch) hq
      fun d => by rw [← hc]; exact hcur d

theorem allocproc_cpus (s : Kernel n) : (allocproc s).2.cpus = s.cpus := by
  unfold allocproc
  split <;> rfl

theorem kill_cpus (s : Kernel n) (pid : Int) : (kill s pid).2.cpus = s.cpus := by
  unfold kill
  split <;> rfl

theorem Inv.wait_moves (h : Inv b s q) (hp : (s.cpus c).proc = some p) {r : WaitRes}
    (hw : Sched.wait s c = some (r, s')) :
    Moves s q s' q ∧ ∀ d, (s'.cpus d).coreType = (s.cpus d).coreType := by
  unfold Sched.wait at hw
  simp only [hp, Option.bind_eq_bind, Option.bind_some] at hw
  split at hw
  · cases hw; exact ⟨.still fun _ => .inl rfl, fun _ => rfl⟩
  · split at hw
    · cases hw; exact ⟨.still fun _ => .inl rfl, fun _ => rfl⟩
    · obtain ⟨s1, hs1, hw⟩ := Option.bind_eq_some_iff.1 hw
      cases hw
      obtain ⟨e, -, -⟩ := h.sleep hp (A := fun _ => False) (X := fun _ => False) (E := fun _ _ => True)
        (some (.proc p)) trivial
      rw [e] at hs1
      rw [← Option.some.inj hs1]
      exact moves_idle (fun _ => ⟨rfl, rfl⟩) (.refl s q _)

/-- A round of `scheduler` balances its queue and takes the process it chooses, if it has one. -/
theorem Picks.moves {s0 : Kernel n} {q0 : Fin n → List Slot} (h : Inv b s0 q0) (hc : (s.cpus c).proc = none)
    (w : Wakes s s0 fun _ => False) (hbal : Balanced s c q q0) (hp : Picks s0 c q0 s' q') :
    Moves s q s' q' ∧ ∀ d, (s'.cpus d).coreType = (s.cpus d).coreType := by
  rcases hp with ⟨rfl, rfl, -⟩ | ⟨p, s1, hsel, -, -, hq, w1, -, rfl⟩
  · exact ⟨.balance c hbal fun d => (w.cpu d).1, fun d => (w.cpu d).2⟩
  · obtain ⟨pre, post, hl, hch⟩ := select_chosen h.queues (fun x hx => h.listed x ⟨c, hx⟩) hsel
    have hnd := (h.queues.chain c).nodup
    rw [hl] at hnd
    have hpre : p ∉ pre := fun hm => (List.nodup_append.1 hnd).2.2 p hm p (.head _) rfl
    have herase : (q0 c).erase p = pre ++ post := by
      rw [hl, List.erase_append_right _ hpre, List.erase_cons_head]
    have hct : ∀ x, (s0.proc x).ctime = (s.proc x).ctime := fun x => by rw [w.agree x]
    have hch' : Chosen s c pre p post := by
      unfold Chosen at hch ⊢; rw [(w.cpu c).2] at hch; simpa only [hct] using hch
    rw [herase] at hq
    have hcpus : ∀ d, (dispatch s1 c p).cpus d = _ := fun d => setCur_cpus s1 c d (some p)
    refine ⟨.pick c q0 p pre post hc hbal hl hch' hq fun d => ?_, fun d => ?_⟩
    · rw [hcpus, (w1.cpu d).1, (w.cpu d).1]
    · rw [hcpus, (w1.cpu d).2, (w.cpu d).2]

end Xv6.Sched
