/-
The sleep lock of `sleeplock.c`, which every buffer and every inode has, as the `sltest` system
calls expose it. It is a monitor: `lk->locked` and `lk->pid` are guarded by `lk->lk`, and whoever
finds the lock taken sleeps on its address. Processes with different pids, none of them 0, may call
what they like in any order: at most one has the lock, it is the one whose pid stands in it, and
nobody sleeps on a lock that is free.
-/
import Xv6.Base.Monitor
import Mathlib.Logic.Embedding.Basic

namespace Xv6.Lock

open Base Monitor

/-! ## The lock -/

/-- `struct sleeplock`, without its spin lock and its name. -/
structure Sleeplock where
  locked : Bool := false
  pid : Int := 0
  deriving DecidableEq, Repr

/-- The operations. -/
inductive SlOp
  | acquiresleep
  | releasesleep
  | holdingsleep
  deriving DecidableEq, Repr

/-- The condition of the `while` loop of `acquiresleep`. -/
def Sleeplock.waits (lk : Sleeplock) : SlOp → Bool
  | .acquiresleep => lk.locked
  | .releasesleep | .holdingsleep => false

/-- `acquiresleep` after its loop, by a process with that pid. -/
def acquiresleep (lk : Sleeplock) (pid : Int) : Sleeplock := { lk with locked := true, pid := pid }

/-- `releasesleep`; `none` is one of its two panics, and it always calls `wakeup`. -/
def releasesleep (lk : Sleeplock) (pid : Int) : Option Sleeplock :=
  if lk.locked = false then none  -- panic("releasesleep: lock not held")
  else if lk.pid ≠ pid then none  -- panic("releasesleep: not owner")
  else some { lk with locked := false, pid := 0 }

def holdingsleep (lk : Sleeplock) (pid : Int) : Bool := lk.locked && lk.pid = pid

/-- The lock with the processes that have it: from the assignments of `acquiresleep` to those of
`releasesleep`, once for each. -/
structure SlHeld (P : Type) where
  lk : Sleeplock := {}
  holders : List P := []
  deriving DecidableEq, Repr

variable {P : Type} [DecidableEq P] (pid : P ↪ { x : Int // x ≠ 0 })

/-- An operation of process `p` past its loop. -/
def slBody (p : P) (op : SlOp) (d : SlHeld P) : Option (SlHeld P × Bool) :=
  match op with
  | .acquiresleep => some (⟨acquiresleep d.lk (pid p), p :: d.holders⟩, false)
  | .releasesleep => (releasesleep d.lk (pid p)).map fun lk => (⟨lk, d.holders.erase p⟩, true)
  | .holdingsleep => some (d, false)

/-- `g_sl` and its callers. -/
def sltest : Monitor P SlOp (SlHeld P) where
  blocked op d := d.lk.waits op
  body := slBody pid

/-- After `sltestinit`. -/
def sltestinit (s : State P SlOp (SlHeld P)) : Prop := s = .start {}

/-- A process inside `sleep`, called by `acquiresleep`, with `p->state == SLEEPING`. -/
def SleepsIn (s : State P SlOp (SlHeld P)) (p : P) : Prop :=
  s.spin.pc p = .sleepSwitch .acquiresleep ∨ s.spin.pc p = .asleep .acquiresleep

/-! ## The fields and the holder -/

variable {pid}

/-- The lock is free, or its fields name its one holder. -/
def SlWf (pid : P ↪ { x : Int // x ≠ 0 }) (d : SlHeld P) : Prop :=
  d = {} ∨ ∃ p, d = ⟨⟨true, pid p⟩, [p]⟩

/-- What `releasesleep` does: only a process with the pid in the lock gets past the two checks. -/
theorem releasesleep_eq_some {lk lk' : Sleeplock} {x : Int} (h : releasesleep lk x = some lk') :
    lk.locked = true ∧ lk.pid = x ∧ lk' = {} := by
  unfold releasesleep at h
  split at h
  · cases h
  · rename_i hl
    split at h
    · cases h
    · rename_i hp
      obtain rfl := Option.some.inj h
      exact ⟨by simpa using hl, not_not.1 hp, rfl⟩

/-- The bodies keep the lock well-formed, and only `releasesleep` lets a sleeper go on. -/
theorem slBody_wf {p : P} {op : SlOp} {d d' : SlHeld P} {w : Bool} (hwf : SlWf pid d) (hpass : d.lk.waits op = false)
    (h : slBody pid p op d = some (d', w)) :
    SlWf pid d' ∧ (w = false → ∀ o, d.lk.waits o = true → d'.lk.waits o = true) := by
  cases op with
  | acquiresleep =>
    obtain ⟨rfl, rfl⟩ := Prod.mk.inj (Option.some.inj h)
    -- past the loop the lock is free
    have hfree : d = {} := by
      rcases hwf with hd | ⟨q, rfl⟩
      · exact hd
      · cases hpass
    subst hfree
    refine ⟨.inr ⟨p, rfl⟩, ?_⟩
    rintro - o ho
    cases o <;> cases ho
  | releasesleep =>
    obtain ⟨lk, hr, he⟩ := Option.map_eq_some_iff.1 h
    obtain ⟨rfl, rfl⟩ := Prod.mk.inj he
    obtain ⟨hl, hpid, rfl⟩ := releasesleep_eq_some hr
    constructor
    · rcases hwf with rfl | ⟨q, rfl⟩
      · cases hl
      · obtain rfl : q = p := pid.injective (Subtype.ext hpid)
        refine .inl ?_
        rw [List.erase_cons_head]
    · rintro hf; cases hf
  | holdingsleep =>
    obtain ⟨rfl, rfl⟩ := Prod.mk.inj (Option.some.inj h); exact ⟨hwf, fun _ _ ho => ho⟩

variable {s : State P SlOp (SlHeld P)}

theorem sl_reach (hr : Reachable sltestinit (sltest pid).step s) :
    Spin.Owned code s.spin ∧ Settled (sltest pid) s ∧ SlWf pid s.data := by
  apply reach_settled (I := SlWf pid) ?_ ?_ hr
  · rintro s rfl; exact ⟨{}, rfl, .inl rfl⟩
  · intro s p op hwf _ _ hpass
    constructor
    · intro d' hb; exact (slBody_wf hwf hpass hb).2 rfl
    · intro d' w hb; exact (slBody_wf hwf hpass hb).1

/-! ## Exclusion and ownership -/

theorem holdingsleep_iff (hr : Reachable sltestinit (sltest pid).step s) (p : P) :
    holdingsleep s.data.lk (pid p) = true ↔ p ∈ s.data.holders := by
  rcases (sl_reach hr).2.2 with hd | ⟨q, hd⟩
  · simp [hd, holdingsleep]
  · simp only [hd, holdingsleep, Bool.true_and, decide_eq_true_eq, List.mem_singleton]
    constructor
    · intro h; exact (pid.injective (Subtype.ext h)).symm
    · rintro rfl; rfl

/-- In every run, of any processes with different non-zero pids and with wakeups at any time, at most
one process has the lock, the fields name it or say that there is none, the `releasesleep` of any
other process panics, and nobody sleeps on the lock while `lk->lk` is free and `lk->locked` is 0. -/
theorem sleeplock_exclusive (pid : P ↪ { x : Int // x ≠ 0 }) (s : State P SlOp (SlHeld P))
    (hr : Reachable sltestinit (sltest pid).step s) :
    (∀ p q, p ∈ s.data.holders → q ∈ s.data.holders → p = q) ∧
    (∀ p, p ∈ s.data.holders → s.data.lk = ⟨true, pid p⟩) ∧
    (s.data.holders = [] → s.data.lk = ⟨false, 0⟩) ∧
    (∀ q, q ∉ s.data.holders → releasesleep s.data.lk (pid q) = none) ∧
    (s.spin.owner .lk = none → s.data.lk.locked = false → ∀ p, ¬ SleepsIn s p) := by
  obtain ⟨ho, hs, hwf⟩ := sl_reach hr
  refine ⟨?_, ?_, ?_, ?_, ?_⟩
  · intro p q hp hq
    rcases hwf with hd | ⟨r, hd⟩
    · rw [hd] at hp; cases hp
    · rw [hd, List.mem_singleton] at hp hq; rw [hp, hq]
  · intro p hp
    rcases hwf with hd | ⟨r, hd⟩
    · rw [hd] at hp; cases hp
    · rw [hd, List.mem_singleton] at hp; rw [hd, hp]
  · intro hnil
    rcases hwf with hd | ⟨r, hd⟩
    · rw [hd]
    · rw [hd] at hnil; cases hnil
  · intro q hq
    by_contra hne
    obtain ⟨lk', hr'⟩ := Option.ne_none_iff_exists'.1 hne
    obtain ⟨hl, hp, -⟩ := releasesleep_eq_some hr'
    exact hq ((holdingsleep_iff hr q).1 (by simp [holdingsleep, hl, hp]))
  · intro hfree hunlocked p hp
    have hw : (s.spin.pc p).waitsFor = some .acquiresleep := by
      rcases hp with hp | hp
      · rw [hp]; rfl
      · rw [hp]; rfl
    have hblocked : s.data.lk.locked = true := hs.blocked ho hfree hw
    rw [hunlocked] at hblocked
    cases hblocked

def twoPids : Bool ↪ { x : Int // x ≠ 0 } where
  toFun b := ⟨if b then 2 else 1, by cases b <;> decide⟩
  inj' := by
    intro a b h
    cases a <;> cases b <;> first | rfl | cases congrArg Subtype.val h

/-- A process takes the lock and another one goes to sleep behind it; the `releasesleep` of the
sleeper's pid would panic. -/
theorem sleeplock_exclusive_two :
    ∃ s, Reachable sltestinit (sltest twoPids).step s ∧ false ∈ s.data.holders ∧ SleepsIn s true ∧
      s.data.lk = ⟨true, 1⟩ ∧ releasesleep s.data.lk 2 = none := by
  have hrun : (runActs (sltest twoPids).step (.start {})
      [.call false .acquiresleep, .lock false, .run false, .run false, .lock false,
       .call true .acquiresleep, .lock true, .run true, .lock true, .lock true, .run true, .lock true]).any
      (fun s => decide (s.data.holders = [false] ∧ s.spin.pc true = .asleep .acquiresleep)) = true := by
    decide +kernel
  obtain ⟨s, hr, hs⟩ := exists_reachable_of_run sltestinit rfl _ _ hrun
  obtain ⟨hh, hp⟩ := of_decide_eq_true hs
  have hmem : false ∈ s.data.holders := by rw [hh]; exact List.mem_singleton_self _
  obtain ⟨-, hlk, -, hrel, -⟩ := sleeplock_exclusive twoPids s hr
  exact ⟨s, hr, hmem, .inr hp, hlk false hmem, hrel true (by rw [hh]; decide)⟩

end Xv6.Lock
