/-
The run queues as lists. `QInv s q` says that the `next_run` links of `s` give CPU `c` exactly the
queue `q c`, that no process is on two queues and that `queue_count` is the length; `enqueue`
appends to such a queue, `dequeue` removes a listed process and returns 0, `load_balance` moves at
most one process and loses none, and what `scheduler` selects is on its own queue. `Wakes s s' W`
says that `s'` differs from `s` only in queue links and in processes of `W` gone from `SLEEPING` to
`RUNNABLE`.
-/
import Xv6.Sched.Table
import Mathlib.Data.Fintype.Card

namespace Xv6.Sched

open Base Function

variable {n : Nat} {f : Proc → Proc}

/-! ## Field lemmas -/

namespace Kernel

variable (s : Kernel n) (p r : Slot) (c d : Fin n)

@[simp] theorem modProc_proc (f : Proc → Proc) : (s.modProc p f).proc = update s.proc p (f (s.proc p)) := rfl

@[simp] theorem modProc_cpus (f : Proc → Proc) : (s.modProc p f).cpus = s.cpus := rfl

@[simp] theorem modCpu_proc (f : Cpu → Cpu) : (s.modCpu c f).proc = s.proc := rfl

@[simp] theorem modCpu_cpus (f : Cpu → Cpu) : (s.modCpu c f).cpus = update s.cpus c (f (s.cpus c)) := rfl

@[simp] theorem modCpu_next (f : Cpu → Cpu) : (s.modCpu c f).next = s.next := rfl

@[simp] theorem setNext_cpus (v : Option Slot) : (s.setNext p v).cpus = s.cpus := rfl

@[simp] theorem setNext_next (v : Option Slot) : (s.setNext p v).next = update s.next p v := by
  funext r
  by_cases h : r = p
  · subst h; simp [setNext, next]
  · simp [setNext, next, h]

theorem modProc_apply {α : Type} (g : Proc → α) (hg : g (f (s.proc p)) = g (s.proc p)) :
    g ((s.modProc p f).proc r) = g (s.proc r) := by
  by_cases h : r = p
  · subst h; simpa using hg
  · simp [h]

theorem modProc_next (hf : (f (s.proc p)).nextRun = (s.proc p).nextRun) :
    (s.modProc p f).next = s.next := funext fun r => s.modProc_apply p r Proc.nextRun hf

end Kernel

/-! ## Queues as lists -/

/-- The queues of `s` are the lists `q`. -/
structure QInv (s : Kernel n) (q : Fin n → List Slot) : Prop where
  chain : ∀ c, Chain s.next (s.cpus c).runq (q c)
  disj : ∀ c d p, p ∈ q c → p ∈ q d → c = d
  count : ∀ c, (s.cpus c).queueCount = (q c).length

variable {s s' : Kernel n} {q q' : Fin n → List Slot} {c : Fin n} {p r : Slot} {a b : Proc} {W W' : Slot → Prop}

theorem QInv.congr (h : QInv s q) (hn : s'.next = s.next)
    (hc : ∀ c, (s'.cpus c).runq = (s.cpus c).runq ∧ (s'.cpus c).queueCount = (s.cpus c).queueCount) : QInv s' q := by
  refine ⟨fun c => ?_, h.disj, fun c => ?_⟩
  · rw [hn, (hc c).1]; exact h.chain c
  · rw [(hc c).2]; exact h.count c

theorem QInv.length_le (h : QInv s q) (c : Fin n) : (q c).length ≤ NPROC := by
  have := (h.chain c).nodup.length_le_card; rwa [Fintype.card_fin] at this

/-- The process is on some queue. -/
def Listed (q : Fin n → List Slot) (p : Slot) : Prop := ∃ c, p ∈ q c

theorem mem_update_append {d : Fin n} : r ∈ update q c (q c ++ [p]) d ↔ r ∈ q d ∨ d = c ∧ r = p := by
  by_cases hd : d = c
  · subst hd; simp
  · simp [hd]

theorem listed_append : Listed (update q c (q c ++ [p])) r ↔ Listed q r ∨ r = p := by
  simp only [Listed, mem_update_append]
  constructor
  · rintro ⟨d, h | ⟨-, rfl⟩⟩
    · exact .inl ⟨d, h⟩
    · exact .inr rfl
  · rintro (⟨d, h⟩ | rfl)
    · exact ⟨d, .inl h⟩
    · exact ⟨c, .inr ⟨rfl, rfl⟩⟩

theorem QInv.mem_update_erase (h : QInv s q) {d : Fin n} :
    r ∈ update q c ((q c).erase p) d ↔ r ∈ q d ∧ ¬ (d = c ∧ r = p) := by
  by_cases hd : d = c
  · subst hd; simp [(h.chain d).nodup.mem_erase_iff, and_comm]
  · simp [hd]

theorem QInv.listed_erase (h : QInv s q) (hp : p ∈ q c) :
    Listed (update q c ((q c).erase p)) r ↔ Listed q r ∧ r ≠ p := by
  simp only [Listed, h.mem_update_erase]
  constructor
  · rintro ⟨d, hd, hne⟩; exact ⟨⟨d, hd⟩, by rintro rfl; exact hne ⟨h.disj d c r hd hp, rfl⟩⟩
  · rintro ⟨⟨d, hd⟩, hne⟩; exact ⟨d, hd, fun h' => hne h'.2⟩

/-- Everything of a process but its state, its parent and its link. -/
def Agree (a b : Proc) : Prop := b = { a with state := b.state, parent := b.parent, nextRun := b.nextRun }

/-- `s'` is `s` with the sleeping processes of `W` made `RUNNABLE`, up to queues and parents. -/
structure Wakes (s s' : Kernel n) (W : Slot → Prop) : Prop where
  agree : ∀ p, Agree (s.proc p) (s'.proc p)
  woken : ∀ p, (s.proc p).state = .sleeping → W p → (s'.proc p).state = .runnable
  kept : ∀ p, ¬ ((s.proc p).state = .sleeping ∧ W p) → (s'.proc p).state = (s.proc p).state
  cpu : ∀ c, (s'.cpus c).proc = (s.cpus c).proc ∧ (s'.cpus c).coreType = (s.cpus c).coreType
  rest : s' = { s with proc := s'.proc, cpus := s'.cpus }

def SameParents (s s' : Kernel n) : Prop := ∀ p, (s'.proc p).parent = (s.proc p).parent

theorem Agree.trans {c : Proc} (h1 : Agree a b) (h2 : Agree b c) : Agree a c := by
  unfold Agree at *; rw [h2, h1]

theorem Agree.chan (h : Agree a b) : b.chan = a.chan := by rw [h]

theorem Agree.pid (h : Agree a b) : b.pid = a.pid := by rw [h]

theorem Wakes.refl (s : Kernel n) : Wakes s s fun _ => False :=
  ⟨fun _ => rfl, fun _ _ h => h.elim, fun _ _ => rfl, fun _ => ⟨rfl, rfl⟩, rfl⟩

theorem Wakes.trans {s'' : Kernel n} (h1 : Wakes s s' W) (h2 : Wakes s' s'' W') : Wakes s s'' fun p => W p ∨ W' p := by
  refine ⟨fun p => (h1.agree p).trans (h2.agree p), fun p hs hw => ?_, fun p hn => ?_, fun c => ?_, ?_⟩
  · by_cases hW : W p
    · have hr := h1.woken p hs hW; rw [h2.kept p (by simp [hr]), hr]
    · have hr := h1.kept p (fun h => hW h.2)
      exact h2.woken p (hr.trans hs) (hw.resolve_left hW)
  · have hr := h1.kept p (fun h => hn ⟨h.1, .inl h.2⟩)
    rw [h2.kept p (fun h => hn ⟨hr.symm.trans h.1, .inr h.2⟩), hr]
  · exact ⟨(h2.cpu c).1.trans (h1.cpu c).1, (h2.cpu c).2.trans (h1.cpu c).2⟩
  · rw [h2.rest, h1.rest]

theorem Wakes.congr (h : Wakes s s' W) (hW : ∀ p, W p ↔ W' p) : Wakes s s' W' :=
  ⟨h.agree, fun p hs hw => h.woken p hs ((hW p).2 hw), fun p hn => h.kept p (fun h' => hn ⟨h'.1, (hW p).1 h'.2⟩),
    h.cpu, h.rest⟩

theorem wakes_modProc (ha : Agree (s.proc p) (f (s.proc p))) (hs : (f (s.proc p)).state = (s.proc p).state) :
    Wakes s (s.modProc p f) fun _ => False := by
  refine ⟨fun r => ?_, fun _ _ h => h.elim, fun r _ => s.modProc_apply p r Proc.state hs, fun _ => ⟨rfl, rfl⟩, rfl⟩
  by_cases h : r = p
  · subst h; simpa using ha
  · simp [h, Agree]

theorem Wakes.setNext (h : Wakes s s' W) (p : Slot) (v : Option Slot) : Wakes s (s'.setNext p v) W :=
  (h.trans (wakes_modProc (f := fun r => { r with nextRun := v }) rfl rfl)).congr fun _ => or_iff_left not_false

theorem Wakes.modCpu (h : Wakes s s' W) (c : Fin n) {f : Cpu → Cpu} (hp : ∀ k, (f k).proc = k.proc)
    (ht : ∀ k, (f k).coreType = k.coreType) : Wakes s (s'.modCpu c f) W := by
  have : Wakes s' (s'.modCpu c f) fun _ => False := by
    refine ⟨fun _ => rfl, fun _ _ h => h.elim, fun _ _ => rfl, fun d => ?_, rfl⟩
    by_cases h : d = c
    · subst h; simp [hp, ht]
    · simp [h]
  exact (h.trans this).congr fun _ => or_iff_left not_false

theorem sameParents_setNext (s : Kernel n) (p : Slot) (v : Option Slot) : SameParents s (s.setNext p v) :=
  fun r => s.modProc_apply p r Proc.parent rfl

/-! ## `enqueue` and `dequeue` -/

theorem enqueue_wakes (e : enqueue s c p = some s') : Wakes s s' (fun _ => False) ∧ SameParents s s' := by
  unfold enqueue at e
  simp only at e
  split at e
  · rw [← Option.some.inj e]
    exact ⟨((Wakes.refl s).setNext p none).modCpu c (fun _ => rfl) (fun _ => rfl), sameParents_setNext s p none⟩
  · obtain ⟨z, -, e⟩ := Option.bind_eq_some_iff.1 e
    rw [← Option.some.inj e]
    refine ⟨(((Wakes.refl s).setNext p none).setNext z (some p)).modCpu c (fun _ => rfl) (fun _ => rfl), fun r => ?_⟩
    exact (sameParents_setNext (s.setNext p none) z (some p) r).trans (sameParents_setNext s p none r)

theorem dequeue_wakes {v : Int} (e : dequeue s c p = some (v, s')) :
    Wakes s s' (fun _ => False) ∧ SameParents s s' := by
  have hunlink : ∀ (t : Kernel n) (f : Cpu → Cpu), Wakes s t (fun _ => False) ∧ SameParents s t →
      (∀ k, (f k).proc = k.proc) → (∀ k, (f k).coreType = k.coreType) →
      Wakes s ((t.modCpu c f).setNext p none) (fun _ => False) ∧ SameParents s ((t.modCpu c f).setNext p none) := by
    intro t f ht hp hc
    exact ⟨(ht.1.modCpu c hp hc).setNext p none, fun r => (sameParents_setNext (t.modCpu c f) p none r).trans (ht.2 r)⟩
  have hsame : Wakes s s (fun _ => False) ∧ SameParents s s := ⟨.refl s, fun _ => rfl⟩
  unfold dequeue at e
  split at e
  · cases e; exact hsame
  · split at e
    · cases e; exact hunlink s _ hsame (fun _ => rfl) fun _ => rfl
    · obtain ⟨z, -, e⟩ := Option.bind_eq_some_iff.1 e
      cases z with
      | none => cases e; exact hsame
      | some z =>
        cases e
        exact hunlink _ _ ⟨(Wakes.refl s).setNext z _, sameParents_setNext s z _⟩ (fun _ => rfl) fun _ => rfl

/-- One queue changes, by its own processes and some that were on none; the links of the others stay. -/
theorem QInv.change (h : QInv s q) {l : List Slot} (hchain : Chain s'.next (s'.cpus c).runq l)
    (hcount : (s'.cpus c).queueCount = l.length) (hl : ∀ a ∈ l, a ∈ q c ∨ ∀ d, a ∉ q d)
    (hnext : ∀ a, a ∉ q c → a ∉ l → s'.next a = s.next a) (hcpus : ∀ d, d ≠ c → s'.cpus d = s.cpus d) :
    QInv s' (update q c l) := by
  have hout : ∀ d, d ≠ c → ∀ a ∈ q d, a ∉ q c ∧ a ∉ l := by
    intro d hdc a ha
    have hac : a ∉ q c := fun hc => hdc (h.disj d c a ha hc)
    exact ⟨hac, fun hal => (hl a hal).elim hac fun hno => hno d ha⟩
  constructor
  · intro d
    by_cases hdc : d = c
    · subst hdc; rw [update_self]; exact hchain
    · rw [update_of_ne hdc, hcpus d hdc]
      exact (h.chain d).congr fun a ha => hnext a (hout d hdc a ha).1 (hout d hdc a ha).2
  · intro d e a hd he
    by_cases hdc : d = c
    · by_cases hec : e = c
      · rw [hdc, hec]
      · subst hdc
        rw [update_self] at hd
        rw [update_of_ne hec] at he
        exact absurd hd (hout e hec a he).2
    · rw [update_of_ne hdc] at hd
      by_cases hec : e = c
      · subst hec; rw [update_self] at he; exact absurd he (hout d hdc a hd).2
      · rw [update_of_ne hec] at he; exact h.disj d e a hd he
  · intro d
    by_cases hdc : d = c
    · subst hdc; rw [update_self]; exact hcount
    · rw [update_of_ne hdc, hcpus d hdc]; exact h.count d

theorem enqueue_spec (h : QInv s q) (c : Fin n) (hp : ∀ d, p ∉ q d) :
    ∃ s', enqueue s c p = some s' ∧ QInv s' (update q c (q c ++ [p])) := by
  have hnew : ∀ a ∈ q c ++ [p], a ∈ q c ∨ ∀ d, a ∉ q d := by
    intro a ha
    rcases List.mem_append.1 ha with ha | ha
    · exact .inl ha
    · rw [List.mem_singleton.1 ha]; exact .inr hp
  have hne : ∀ a, a ∉ q c ++ [p] → a ≠ p := by
    rintro a ha rfl; exact ha (List.mem_append_right _ (List.mem_singleton_self a))
  have hcount : (s.cpus c).queueCount + 1 = ((q c ++ [p]).length : Int) := by
    rw [h.count, List.length_append]; rfl
  have hch := h.chain c
  unfold enqueue
  simp only [Kernel.setNext_cpus]
  rcases hr : (s.cpus c).runq with _ | hd
  · -- an empty queue: the process becomes its head
    rw [hr] at hch
    have hqc := chain_none.1 hch
    refine ⟨_, rfl, h.change ?_ ?_ hnew ?_ ?_⟩
    · simp only [Kernel.modCpu_next, Kernel.setNext_next, Kernel.modCpu_cpus, update_self, hqc]
      exact ⟨rfl, update_self ..⟩
    · simp only [Kernel.modCpu_cpus, Kernel.setNext_cpus, update_self]; exact hcount
    · intro a _ ha
      simp only [Kernel.modCpu_next, Kernel.setNext_next]
      exact update_of_ne (hne a ha) ..
    · intro d hdc; simp only [Kernel.modCpu_cpus, Kernel.setNext_cpus, update_of_ne hdc]
  · -- otherwise the walk ends at the last node of the list, which is linked to the process
    rw [hr] at hch
    obtain ⟨pre, z, hz⟩ : ∃ pre z, q c = pre ++ [z] := by
      rcases List.eq_nil_or_concat (q c) with h0 | ⟨pre, z, h0⟩
      · rw [h0] at hch; cases hch
      · exact ⟨pre, z, by rw [h0, List.concat_eq_append]⟩
    have hzc : z ∈ q c := by
      rw [hz]; exact List.mem_append_right _ (List.mem_singleton_self z)
    have hzp : p ≠ z := (ne_of_mem_of_not_mem hzc (hp c)).symm
    have hc1 : Chain (s.setNext p none).next (some hd) (pre ++ [z]) := by
      rw [Kernel.setNext_next, ← hz]
      exact hch.congr fun a ha => update_of_ne (ne_of_mem_of_not_mem ha (hp c)) ..
    have hlast : lastFrom (s.setNext p none).next NPROC hd = some z :=
      lastFrom_chain hc1 (by rw [← hz]; exact h.length_le c)
    simp only [hlast, Option.bind_eq_bind, Option.bind_some]
    refine ⟨_, rfl, h.change ?_ ?_ hnew ?_ ?_⟩
    · simp only [Kernel.modCpu_next, Kernel.setNext_next, Kernel.modCpu_cpus, update_self, Kernel.setNext_cpus, hr]
      rw [hz]
      refine hc1.snoc (update_self ..) ?_ fun a ha => ?_
      · rw [update_of_ne hzp, update_self]
      · rw [Kernel.setNext_next]
        refine update_of_ne ?_ ..
        exact (List.nodup_append.1 hc1.nodup).2.2 a ha z (List.mem_singleton_self z)
    · simp only [Kernel.modCpu_cpus, Kernel.setNext_cpus, update_self]; exact hcount
    · intro a hac ha
      simp only [Kernel.modCpu_next, Kernel.setNext_next]
      rw [update_of_ne (ne_of_mem_of_not_mem hzc hac).symm, update_of_ne (hne a ha)]
    · intro d hdc; simp only [Kernel.modCpu_cpus, Kernel.setNext_cpus, update_of_ne hdc]

theorem exists_before {next : Slot → Option Slot} {a : Slot} {l : List Slot} (hch : Chain next (some a) l)
    (hp : p ∈ l) (hne : a ≠ p) : ∃ pre z post, l = pre ++ z :: p :: post := by
  obtain ⟨l', post, rfl⟩ := List.append_of_mem hp
  rcases List.eq_nil_or_concat l' with rfl | ⟨pre, z, rfl⟩
  · exact absurd (Option.some.inj hch.1) hne
  · exact ⟨pre, z, post, by simp⟩

theorem dequeue_spec (h : QInv s q) (hp : p ∈ q c) :
    ∃ s', dequeue s c p = some (0, s') ∧ QInv s' (update q c ((q c).erase p)) := by
  have hold : ∀ a ∈ (q c).erase p, a ∈ q c ∨ ∀ d, a ∉ q d := fun a ha => .inl (List.mem_of_mem_erase ha)
  have hcount : (s.cpus c).queueCount - 1 = (((q c).erase p).length : Int) := by
    have hpos := List.length_pos_of_mem hp
    rw [h.count, List.length_erase_of_mem hp]
    omega
  have hch := h.chain c
  unfold dequeue
  rcases hr : (s.cpus c).runq with _ | hd
  · rw [hr] at hch; rw [chain_none.1 hch] at hp; cases hp
  rw [hr] at hch
  by_cases hhp : hd = p
  · -- the head
    subst hhp
    simp only [if_true]
    refine ⟨_, rfl, h.change ?_ ?_ hold ?_ ?_⟩
    · simp only [Kernel.setNext_next, Kernel.modCpu_next, Kernel.setNext_cpus, Kernel.modCpu_cpus, update_self]
      exact hch.tail fun a ha => update_of_ne ha ..
    · simp only [Kernel.setNext_cpus, Kernel.modCpu_cpus, update_self]; exact hcount
    · intro a ha _
      simp only [Kernel.setNext_next, Kernel.modCpu_next]
      exact update_of_ne (ne_of_mem_of_not_mem hp ha).symm ..
    · intro d hdc; simp only [Kernel.setNext_cpus, Kernel.modCpu_cpus, update_of_ne hdc]
  · -- behind its predecessor `z`
    obtain ⟨pre, z, post, hl⟩ := exists_before hch hp hhp
    have hle := h.length_le c
    rw [hl] at hch hle
    simp only [if_neg hhp, prevFrom_chain hch hle, Option.bind_eq_bind, Option.bind_some]
    have hz : z ∈ q c := by
      rw [hl]; simp
    have hzp : z ≠ p := by
      rintro rfl
      obtain ⟨-, hnd, -⟩ := List.nodup_append.1 hch.nodup
      exact (List.nodup_cons.1 hnd).1 (.head _)
    refine ⟨_, rfl, h.change ?_ ?_ hold ?_ ?_⟩
    · simp only [Kernel.setNext_next, Kernel.modCpu_next, Kernel.setNext_cpus, Kernel.modCpu_cpus, update_self, hl, hr]
      refine hch.unlink ?_ fun a haz hap => ?_
      · rw [update_of_ne hzp, update_self]
      · rw [update_of_ne hap, update_of_ne haz]
    · simp only [Kernel.setNext_cpus, Kernel.modCpu_cpus, update_self]; exact hcount
    · intro a ha _
      simp only [Kernel.setNext_next, Kernel.modCpu_next]
      rw [update_of_ne (ne_of_mem_of_not_mem hp ha).symm, update_of_ne (ne_of_mem_of_not_mem hz ha).symm]
    · intro d hdc; simp only [Kernel.setNext_cpus, Kernel.modCpu_cpus, update_of_ne hdc]

/-! ## `load_balance` and the choice of `scheduler` -/

theorem find_victim (h : QInv s q) (c : Fin n) : victim s c = some ((q c).find? (movable s)) :=
  findFrom_chain (h.chain c) (h.length_le c)

/-- What the loop over the CPUs finds is of the type asked for, and it finds one if there is one with a
short queue. -/
theorem lightest_spec (s : Kernel n) (t : CoreType) :
    (∀ c, lightest s t = some c → (s.cpus c).coreType = t) ∧
    (lightest s t = none → ∀ c, (s.cpus c).coreType = t → ¬ (s.cpus c).queueCount < 0x7FFFFFFF) := by
  -- the loop invariant over the CPUs seen so far: no choice means the bound is untouched
  have loop : ∀ (l : List (Fin n)) (b : Option (Fin n) × Int), (∀ c, b.1 = some c → (s.cpus c).coreType = t) →
      (∀ c, (l.foldl (fun b i => if (s.cpus i).coreType = t ∧ (s.cpus i).queueCount < b.2
        then (some i, (s.cpus i).queueCount) else b) b).1 = some c → (s.cpus c).coreType = t) ∧
      ((l.foldl (fun b i => if (s.cpus i).coreType = t ∧ (s.cpus i).queueCount < b.2
        then (some i, (s.cpus i).queueCount) else b) b).1 = none → b.1 = none ∧
        ∀ c ∈ l, (s.cpus c).coreType = t → ¬ (s.cpus c).queueCount < b.2) := by
    intro l
    induction l with
    | nil => intro b hb; exact ⟨hb, fun h => ⟨h, by simp⟩⟩
    | cons i l ih =>
      intro b hb
      rw [List.foldl_cons]
      split
      · rename_i hi
        obtain ⟨h1, h2⟩ := ih (some i, (s.cpus i).queueCount) (by rintro c hc; cases hc; exact hi.1)
        exact ⟨h1, fun h => by cases (h2 h).1⟩
      · rename_i hi
        obtain ⟨h1, h2⟩ := ih b hb
        refine ⟨h1, fun h => ⟨(h2 h).1, fun c hc ht => ?_⟩⟩
        rcases List.mem_cons.1 hc with rfl | hc
        · exact fun hlt => hi ⟨ht, hlt⟩
        · exact (h2 h).2 c hc ht
  obtain ⟨h1, h2⟩ := loop (List.finRange n) (none, 0x7FFFFFFF) (by simp)
  exact ⟨h1, fun h c => (h2 h).2 c (List.mem_finRange c)⟩

/-- The CPUs `get_least_loaded_e_core` may return: the E-cores, or any if there is none. -/
def TakesWoken (s : Kernel n) (c : Fin n) : Prop := (s.cpus c).coreType = .coreE ∨ ∀ d, (s.cpus d).coreType ≠ .coreE

theorem QInv.takesWoken [NeZero n] (h : QInv s q) : TakesWoken s (getLeastLoadedECore s) := by
  obtain ⟨h1, h2⟩ := lightest_spec s .coreE
  unfold getLeastLoadedECore
  cases hl : lightest s .coreE with
  | some c => exact .inl (h1 c hl)
  | none =>
    refine .inr fun d hd => h2 hl d hd ?_
    have hle := h.length_le d
    have hn : NPROC = 64 := rfl
    rw [h.count]
    omega

/-- The queues after some processes of `W` that were on none have been appended. -/
def Pushes (s : Kernel n) (q q' : Fin n → List Slot) (W : Slot → Prop) : Prop :=
  ∀ c, ∃ new, q' c = q c ++ new ∧ ∀ x ∈ new, W x ∧ ¬ Listed q x ∧ TakesWoken s c

theorem Pushes.refl (s : Kernel n) (q : Fin n → List Slot) (W : Slot → Prop) : Pushes s q q W :=
  fun c => ⟨[], (List.append_nil _).symm, by simp⟩

theorem Pushes.append (hp : ¬ Listed q p) (hc : TakesWoken s c) : Pushes s q (update q c (q c ++ [p])) (· = p) := by
  intro d
  by_cases hd : d = c
  · subst hd
    refine ⟨[p], update_self .., fun x hx => ?_⟩
    rw [List.mem_singleton.1 hx]
    exact ⟨rfl, hp, hc⟩
  · exact ⟨[], by rw [update_of_ne hd, List.append_nil], by simp⟩

theorem Pushes.mono (h : Pushes s q q' W) (hW : ∀ x, W x → W' x) : Pushes s q q' W' := by
  intro c
  obtain ⟨new, e, hnew⟩ := h c
  exact ⟨new, e, fun x hx => ⟨hW x (hnew x hx).1, (hnew x hx).2⟩⟩

theorem Pushes.listed (h : Pushes s q q' W) (hr : Listed q' r) : Listed q r ∨ W r := by
  obtain ⟨c, hc⟩ := hr
  obtain ⟨new, e, hnew⟩ := h c
  rw [e, List.mem_append] at hc
  rcases hc with hc | hc
  · exact .inl ⟨c, hc⟩
  · exact .inr (hnew r hc).1

theorem Pushes.keeps (h : Pushes s q q' W) (hr : Listed q r) : Listed q' r := by
  obtain ⟨c, hc⟩ := hr
  obtain ⟨new, e, -⟩ := h c
  exact ⟨c, by rw [e]; exact List.mem_append_left _ hc⟩

theorem Pushes.congr (h : Pushes s' q q' W) (ht : ∀ c, (s'.cpus c).coreType = (s.cpus c).coreType) :
    Pushes s q q' W := by
  intro c
  obtain ⟨new, e, hnew⟩ := h c
  refine ⟨new, e, fun x hx => ⟨(hnew x hx).1, (hnew x hx).2.1, ?_⟩⟩
  have hc := (hnew x hx).2.2
  simpa only [TakesWoken, ht] using hc

theorem Pushes.trans {q'' : Fin n → List Slot} (h1 : Pushes s q q' W) (h2 : Pushes s q' q'' W) : Pushes s q q'' W := by
  intro c
  obtain ⟨new1, e1, hnew1⟩ := h1 c
  obtain ⟨new2, e2, hnew2⟩ := h2 c
  refine ⟨new1 ++ new2, by rw [e2, e1, List.append_assoc], fun x hx => ?_⟩
  rcases List.mem_append.1 hx with hx | hx
  · exact hnew1 x hx
  · obtain ⟨hW, hl, hc⟩ := hnew2 x hx; exact ⟨hW, fun h => hl (h1.keeps h), hc⟩

/-- The queues after `load_balance` on `c`: unchanged, or a process other than init and sh has gone from
`c` to the tail of the queue of a P-core. -/
def Balanced (s : Kernel n) (c : Fin n) (q q' : Fin n → List Slot) : Prop :=
  q' = q ∨ ∃ d v, (s.cpus c).coreType = .coreE ∧ (s.cpus d).coreType = .coreP ∧ v ∈ q c ∧ (s.proc v).pid > 2 ∧
    q' = update (update q c ((q c).erase v)) d (q d ++ [v])

theorem Balanced.listed (h : QInv s q) (hb : Balanced s c q q') (r : Slot) : Listed q' r ↔ Listed q r := by
  rcases hb with rfl | ⟨d, v, hc, hd, hv, -, rfl⟩
  · exact Iff.rfl
  · have hdc : d ≠ c := by
      rintro rfl; rw [hc] at hd; cases hd
    rw [← update_of_ne hdc ((q c).erase v) q, listed_append, h.listed_erase hv]
    constructor
    · rintro (⟨hr, -⟩ | rfl)
      · exact hr
      · exact ⟨c, hv⟩
    · intro hr
      by_cases e : r = v
      · exact .inr e
      · exact .inl ⟨hr, e⟩

theorem loadBalance_wakes (e : loadBalance s c = some s') : Wakes s s' (fun _ => False) ∧ SameParents s s' := by
  have hstay : ∀ t, some s = some t → Wakes s t (fun _ => False) ∧ SameParents s t := by
    rintro _ ⟨⟩; exact ⟨.refl s, fun _ => rfl⟩
  unfold loadBalance at e
  split at e
  · exact hstay s' e
  · split at e
    · exact hstay s' e
    · split at e
      · obtain ⟨v, -, e⟩ := Option.bind_eq_some_iff.1 e
        cases v with
        | none => exact hstay s' e
        | some v =>
          obtain ⟨⟨r, s1⟩, e1, e2⟩ := Option.bind_eq_some_iff.1 e
          obtain ⟨w1, p1⟩ := dequeue_wakes e1
          obtain ⟨w2, p2⟩ := enqueue_wakes e2
          exact ⟨(w1.trans w2).congr fun _ => or_self_iff, fun r => (p2 r).trans (p1 r)⟩
      · exact hstay s' e

theorem loadBalance_spec (h : QInv s q) (c : Fin n) :
    ∃ s' q', loadBalance s c = some s' ∧ QInv s' q' ∧ Balanced s c q q' := by
  have hstay : ∃ s' q', some s = some s' ∧ QInv s' q' ∧ Balanced s c q q' := ⟨s, q, rfl, h, .inl rfl⟩
  unfold loadBalance
  split
  · exact hstay
  · rename_i hc
    split
    · exact hstay
    · rename_i d hd
      split
      · rw [find_victim h c]
        rcases hv : (q c).find? (movable s) with _ | v
        · exact hstay
        · have hmem := List.mem_of_find?_eq_some hv
          have hmov : (s.proc v).state = .runnable ∧ (s.proc v).pid > 2 := by
            simpa [movable] using List.find?_some hv
          obtain ⟨s1, e1, h1⟩ := dequeue_spec h hmem
          have hv1 : ∀ e, v ∉ update q c ((q c).erase v) e := fun e he =>
            ((h.listed_erase hmem).1 ⟨e, he⟩).2 rfl
          obtain ⟨s2, e2, h2⟩ := enqueue_spec h1 d hv1
          have hct : (s.cpus c).coreType = .coreE := not_not.1 hc
          have hdt := (lightest_spec s .coreP).1 d hd
          have hdc : d ≠ c := by
            rintro rfl; rw [hct] at hdt; cases hdt
          rw [update_of_ne hdc] at h2
          simp only [Option.bind_eq_bind, Option.bind_some, e1, e2]
          exact ⟨s2, _, rfl, h2, .inr ⟨d, v, hct, hdt, hmem, hmov.2, rfl⟩⟩
      · exact hstay

/-- The P-core loop ends on a `RUNNABLE` process of the list, or on none when there is none. -/
theorem foldl_older (s : Kernel n) :
    ∀ (l : List Slot) (o : Option Slot), (∀ p, o = some p → (s.proc p).state = .runnable) →
    (∀ p, l.foldl (older s) o = some p → (p ∈ l ∨ o = some p) ∧ (s.proc p).state = .runnable) ∧
    (l.foldl (older s) o = none → o = none ∧ ∀ p ∈ l, (s.proc p).state ≠ .runnable)
  | [], o, ho => ⟨fun p hp => ⟨.inr hp, ho p hp⟩, fun h => ⟨h, by simp⟩⟩
  | a :: l, o, ho => by
    have hstep : older s o a = o ∨ (older s o a = some a ∧ (s.proc a).state = .runnable) := by
      unfold older
      split
      · split
        · exact .inr ⟨rfl, ‹_›⟩
        · split
          · exact .inr ⟨rfl, ‹_›⟩
          · exact .inl rfl
      · exact .inl rfl
    have hnone : older s o a = none → o = none ∧ (s.proc a).state ≠ .runnable := by
      unfold older
      split
      · split
        · intro h; cases h
        · split <;> intro h <;> cases h
      · exact fun h => ⟨h, ‹_›⟩
    obtain ⟨h1, h2⟩ := foldl_older s l (older s o a) (fun p hp => by
      rcases hstep with e | ⟨e, hr⟩
      · exact ho p (e ▸ hp)
      · rw [e] at hp; cases hp; exact hr)
    refine ⟨fun p hp => ?_, fun hp => ?_⟩
    · obtain ⟨hm, hr⟩ := h1 p hp
      refine ⟨?_, hr⟩
      rcases hm with hm | hm
      · exact .inl (.tail _ hm)
      · rcases hstep with e | ⟨e, -⟩
        · exact .inr (e ▸ hm)
        · rw [e] at hm; cases hm; exact .inl (.head _)
    · obtain ⟨h3, h4⟩ := h2 hp
      obtain ⟨h5, h6⟩ := hnone h3
      refine ⟨h5, fun p hp => ?_⟩
      rcases List.mem_cons.1 hp with rfl | hp
      · exact h6
      · exact h4 p hp

theorem select_spec (h : QInv s q) (c : Fin n) :
    ∃ o, select s c = some o ∧ (∀ p, o = some p → p ∈ q c ∧ (s.proc p).state = .runnable) ∧
      (o = none → ∀ p ∈ q c, (s.proc p).state ≠ .runnable) := by
  unfold select
  split
  · refine ⟨_, findFrom_chain (h.chain c) (h.length_le c), fun p hp => ?_, fun hn p hp => ?_⟩
    · exact ⟨List.mem_of_find?_eq_some hp, by simpa using List.find?_some hp⟩
    · simpa using List.find?_eq_none.1 hn p hp
  · refine ⟨_, foldFrom_chain (h.chain c) (h.length_le c), ?_, ?_⟩
    · intro p hp
      obtain ⟨hm, hr⟩ := (foldl_older s (q c) none (by simp)).1 p hp
      exact ⟨hm.resolve_right (by simp), hr⟩
    · intro hn p hp; exact ((foldl_older s (q c) none (by simp)).2 hn).2 p hp

end Xv6.Sched
